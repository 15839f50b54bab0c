import CodeTiling.Proofs.Interning
import CodeTiling.Proofs.Loaded
import CodeTiling.Proofs.Lockstep

/-!
# The fields of a memory operand

A memory operand of a template is written as a record, and its fields are visited one after another.
Each visit sets a part of the operand, and a base or an index may also intern a name. Records have
no order, so any order of visits is a possible run, and the numbers of names do depend on it.

Nothing else does. Whether a field can be loaded depends on the field alone (`Load.FieldOk`), and
what has been loaded after some visits is determined by which fields have been visited
(`Load.Described`).

* `Load.addressField_run` : what one visit does;
* `Load.addressFields_run` : what visits to all fields do, in any order;
* `Load.loads_addressFields` : if the visits come to an end, all fields can be loaded;
* `Load.templateOperand_perm` : two orders both fail, or give one operand and the same names.
-/

namespace CodeTiling

namespace Load

open Yaml (Value)

/-! ### Operands with texts for names -/

/-- An operand without parts that has texts in place of names. -/
inductive AtomForm where
  /-- A register of the machine. -/
  | machine (r : MachineReg)
  /-- A new register. -/
  | fresh (s : Text)
  /-- A reference. -/
  | ref (s : Text)
  /-- A text that stands as it is. -/
  | literal (s : Text)
  /-- A label. -/
  | label (s : Text)

namespace AtomForm

/-- What a text stands for. -/
def ofText (s : Text) : AtomForm :=
  match s.after? "%", s.after? "$", s.after? "@", MachineReg.ofText? s with
  | some name, _, _, _ => .fresh name
  | _, some name, _, _ => .ref name
  | _, _, some name, _ => .label name
  | _, _, _, some r => .machine r
  | _, _, _, _ => .literal s

/-- The text that becomes a name. -/
def text? : AtomForm → Option Text
  | machine _ => none
  | fresh s => some s
  | ref s => some s
  | literal s => some s
  | label s => some s

/-- Intern the text. -/
def load : AtomForm → LoadM Atom
  | machine r => return .machine r
  | fresh s => return .fresh (← intern s)
  | ref s => return .ref (← intern s)
  | literal s => return .literal (← intern s)
  | label s => return .label (← intern s)

/-- The form of an operand in a table that knows its names. -/
inductive Of (t : NameTable) : Atom → AtomForm → Prop
  /-- A register of the machine. -/
  | machine (r : MachineReg) : Of t (.machine r) (.machine r)
  /-- A new register. -/
  | fresh {n : Name} {s : Text} (h : t.text? n = some s) : Of t (.fresh n) (.fresh s)
  /-- A reference. -/
  | ref {n : Name} {s : Text} (h : t.text? n = some s) : Of t (.ref n) (.ref s)
  /-- A text that stands as it is. -/
  | literal {n : Name} {s : Text} (h : t.text? n = some s) : Of t (.literal n) (.literal s)
  /-- A label. -/
  | label {n : Name} {s : Text} (h : t.text? n = some s) : Of t (.label n) (.label s)

variable {t t' : NameTable} {a a' : Atom} {f : AtomForm}

theorem Of.mono (ht : t ≤ t') (h : Of t a f) : Of t' a f := by
  cases h with
  | machine r => exact .machine r
  | fresh h => exact .fresh (NameTable.text?_mono ht h)
  | ref h => exact .ref (NameTable.text?_mono ht h)
  | literal h => exact .literal (NameTable.text?_mono ht h)
  | label h => exact .label (NameTable.text?_mono ht h)

/-- Operands of one form, each in a table of its own, are the same but for the numbers of names. -/
theorem Of.related (h : Of t a f) (h' : Of t' a' f) : a.Related (SameText t t') a' := by
  cases h with
  | machine r =>
    cases h'
    exact .machine r
  | fresh hn =>
    cases h' with
    | fresh hm => exact .fresh ⟨_, hn, hm⟩
  | ref hn =>
    cases h' with
    | ref hm => exact .ref ⟨_, hn, hm⟩
  | literal hn =>
    cases h' with
    | literal hm => exact .literal ⟨_, hn, hm⟩
  | label hn =>
    cases h' with
    | label hm => exact .label ⟨_, hn, hm⟩

end AtomForm

/-- Loading a text is finding out what it stands for and interning a name. -/
theorem atom_eq_load (s : Text) : atom s = (AtomForm.ofText s).load := by
  unfold atom AtomForm.ofText
  cases s.after? "%" <;> cases s.after? "$" <;> cases s.after? "@" <;>
    cases MachineReg.ofText? s <;> rfl

theorem AtomForm.load_run (f : AtomForm) (t : NameTable) :
    ∃ a t', f.load t = .ok (a, t') ∧ t ≤ t' ∧ Of t' a f ∧
      ∀ u, u ∈ t'.texts ↔ u ∈ t.texts ∨ f.text? = some u := by
  have hle := NameTable.le_intern t
  have htext := NameTable.text?_intern t
  have hmem : ∀ s u : Text, u ∈ (t.intern s).2.texts ↔ u ∈ t.texts ∨ some s = some u := by
    intro s u
    rw [(Interned.intern t s).mem_texts_iff, List.map_singleton, List.mem_singleton,
      Option.some.injEq, eq_comm (a := u)]
  cases f with
  | machine r => exact ⟨_, t, rfl, NameTable.le_refl t, .machine r, by simp [text?]⟩
  | fresh s => exact ⟨_, _, rfl, hle s, .fresh (htext s), hmem s⟩
  | ref s => exact ⟨_, _, rfl, hle s, .ref (htext s), hmem s⟩
  | literal s => exact ⟨_, _, rfl, hle s, .literal (htext s), hmem s⟩
  | label s => exact ⟨_, _, rfl, hle s, .label (htext s), hmem s⟩

/-! ### Fields -/

/-- A computation that leaves the table alone. -/
def Plain {α : Type} (x : LoadM α) : Prop := (∃ a, x = pure a) ∨ ∃ f, x = fault f

theorem Plain.loads {α : Type} {x : LoadM α} (h : Plain x) (t : NameTable) :
    Loads t (fun _ a => x = pure a) x := by
  rcases h with ⟨a, rfl⟩ | ⟨f, rfl⟩
  · exact .pure rfl
  · exact .fault f

theorem plain_sizeOf (v : Value) : Plain (sizeOf v) := by
  unfold sizeOf
  extract_lets s
  split
  · exact .inl ⟨_, rfl⟩
  · exact .inr ⟨_, rfl⟩

theorem plain_scaleOf (v : Value) : Plain (scaleOf v) := by
  unfold scaleOf
  split
  · split
    · exact .inl ⟨_, rfl⟩
    · exact .inr ⟨_, rfl⟩
  · exact .inr ⟨_, rfl⟩

theorem plain_dispOf (v : Value) : Plain (dispOf v) := by
  unfold dispOf
  split
  · split
    · exact .inl ⟨_, rfl⟩
    · exact .inr ⟨_, rfl⟩
  · exact .inr ⟨_, rfl⟩

/-- A loaded value is one value. -/
theorem pure_injective {α : Type} {a b : α} (h : (pure a : LoadM α) = pure b) : a = b := by
  have hrun : (Except.ok (a, .empty) : Except Error (α × NameTable)) = .ok (b, .empty) :=
    congrFun h .empty
  exact congrArg Prod.fst (Except.ok.inj hrun)

/-- Fields that can be loaded. -/
inductive FieldOk : Text → Value → Prop
  /-- A size. -/
  | size (v : Value) (x : Size) (h : sizeOf v = pure x) : FieldOk "size" v
  /-- A base. -/
  | base (s : Text) : FieldOk "base" (.string s)
  /-- An index. -/
  | index (s : Text) : FieldOk "index" (.string s)
  /-- A scale. -/
  | scale (v : Value) (x : UInt32) (h : scaleOf v = pure x) : FieldOk "scale" v
  /-- A displacement. -/
  | disp (v : Value) (x : Int32) (h : dispOf v = pure x) : FieldOk "disp" v

/-- The text in a field that becomes a name. -/
def fieldText? (e : Text × Value) : Option Text :=
  if e.1 = "base" ∨ e.1 = "index" then
    match e.2 with
    | .string s => (AtomForm.ofText s).text?
    | _ => none
  else none

/-- If there is a field of the name, its value has the property, and if there is none, something
else holds. -/
structure Field (fields : List (Text × Value)) (name : Text) (P : Value → Prop) (Q : Prop) :
    Prop where
  /-- What holds of the value. -/
  present : ∀ v, (name, v) ∈ fields → P v
  /-- What holds without a field. -/
  absent : name ∉ fields.map Prod.fst → Q

namespace Field

variable {fields fields' : List (Text × Value)} {name name' : Text} {P P' : Value → Prop}
  {Q Q' : Prop} {v : Value}

theorem imp (h : Field fields name P Q) (hP : ∀ v, P v → P' v) : Field fields name P' Q :=
  ⟨fun v hv => hP v (h.present v hv), h.absent⟩

/-- A field of another name changes nothing. -/
theorem other (h : Field fields name P Q) (hne : name ≠ name') :
    Field ((name', v) :: fields) name P Q := by
  refine ⟨fun w hw => ?_, fun hnone => h.absent fun hmem => hnone (List.mem_cons_of_mem _ hmem)⟩
  rcases List.mem_cons.1 hw with heq | hw
  · exact (hne (congrArg Prod.fst heq)).elim
  · exact h.present w hw

/-- The only field of a name is the one that counts. -/
theorem self (hnew : name ∉ fields.map Prod.fst) (hv : P v) :
    Field ((name, v) :: fields) name P Q := by
  refine ⟨fun w hw => ?_, fun hnone => (hnone List.mem_cons_self).elim⟩
  rcases List.mem_cons.1 hw with heq | hw
  · obtain rfl : w = v := congrArg Prod.snd heq
    exact hv
  · exact (hnew (List.mem_map_of_mem hw)).elim

/-- What holds of two records with the same fields. -/
theorem both (h : Field fields name P Q) (h' : Field fields' name P' Q')
    (hmem : ∀ e, e ∈ fields ↔ e ∈ fields') : (∃ v, P v ∧ P' v) ∨ (Q ∧ Q') := by
  by_cases hname : name ∈ fields.map Prod.fst
  · obtain ⟨⟨_, v⟩, hv, rfl⟩ := List.mem_map.1 hname
    exact .inl ⟨v, h.present v hv, h'.present v ((hmem _).1 hv)⟩
  · refine .inr ⟨h.absent hname, h'.absent fun hname' => ?_⟩
    obtain ⟨e, he, rfl⟩ := List.mem_map.1 hname'
    exact hname (List.mem_map_of_mem ((hmem e).2 he))

end Field

/-- The part of a memory operand that a text stands for. -/
def IsTerm (t : NameTable) (o : Option AddressTerm) (v : Value) : Prop :=
  ∃ s a, v = .string s ∧ o = some (.atom a) ∧ AtomForm.Of t a (.ofText s)

theorem IsTerm.mono {t t' : NameTable} {o : Option AddressTerm} {v : Value} (ht : t ≤ t')
    (h : IsTerm t o v) : IsTerm t' o v := by
  obtain ⟨s, a, hv, ho, ha⟩ := h
  exact ⟨s, a, hv, ho, ha.mono ht⟩

/-- The operand has the parts that the fields say and defaults for the others, and the table has
grown from `t₀` by the texts in the fields. -/
structure Described (t₀ t : NameTable) (fields : List (Text × Value)) (m : AddressTemplate) :
    Prop where
  /-- The size. -/
  size : Field fields "size" (fun v => sizeOf v = pure m.size) (m.size = .unspecified)
  /-- The base. -/
  base : Field fields "base" (IsTerm t m.base) (m.base = none)
  /-- The index. -/
  index : Field fields "index" (IsTerm t m.index) (m.index = none)
  /-- The scale. -/
  scale : Field fields "scale" (fun v => scaleOf v = pure m.scale) (m.scale = 0)
  /-- The displacement. -/
  disp : Field fields "disp" (fun v => ∃ d, m.disp = some d ∧ dispOf v = pure d) (m.disp = none)
  /-- The texts. -/
  texts : ∀ u, u ∈ t.texts ↔ u ∈ t₀.texts ∨ ∃ e ∈ fields, fieldText? e = some u

section

variable {t₀ t : NameTable} {fields : List (Text × Value)} {m : AddressTemplate} {name : Text}
  {v : Value}

theorem described_nil (t : NameTable) : Described t t [] {} :=
  ⟨⟨by simp, fun _ => rfl⟩, ⟨by simp, fun _ => rfl⟩, ⟨by simp, fun _ => rfl⟩,
    ⟨by simp, fun _ => rfl⟩, ⟨by simp, fun _ => rfl⟩, by simp⟩

/-- One field more, whose text is interned. -/
theorem Described.texts_cons (hm : Described t₀ t fields m) {t' : NameTable}
    (h : ∀ u, u ∈ t'.texts ↔ u ∈ t.texts ∨ fieldText? (name, v) = some u) :
    ∀ u, u ∈ t'.texts ↔ u ∈ t₀.texts ∨ ∃ e ∈ (name, v) :: fields, fieldText? e = some u := by
  intro u
  rw [h, hm.texts, List.exists_mem_cons_iff, or_assoc, or_comm (b := fieldText? (name, v) = some u)]

/-- One field more that has no name. -/
theorem Described.texts_plain (hm : Described t₀ t fields m) (hbase : name ≠ "base")
    (hindex : name ≠ "index") :
    ∀ u, u ∈ t.texts ↔ u ∈ t₀.texts ∨ ∃ e ∈ (name, v) :: fields, fieldText? e = some u := by
  have hnone : fieldText? (name, v) = none := if_neg (not_or.2 ⟨hbase, hindex⟩)
  refine hm.texts_cons fun u => ?_
  simp [hnone]

/-- Loading a part of a memory operand from a text. -/
theorem addressTerm_run (part : AddressPart) (s : Text) (t : NameTable) :
    ∃ a t', addressTerm part (.string s) t = .ok (.atom a, t') ∧ t ≤ t' ∧
      AtomForm.Of t' a (.ofText s) ∧
      ∀ u, u ∈ t'.texts ↔ u ∈ t.texts ∨ (AtomForm.ofText s).text? = some u := by
  obtain ⟨a, t', hrun, hle, ha, htexts⟩ := (AtomForm.ofText s).load_run t
  refine ⟨a, t', ?_, hle, ha, htexts⟩
  rw [← atom_eq_load] at hrun
  change (atom s t >>= fun x => pure (AddressTerm.atom x.1, x.2)) = _
  rw [hrun]
  rfl

/-- **One visit** to a field that can be loaded and has not been visited. -/
theorem addressField_run (hok : FieldOk name v) (hnew : name ∉ fields.map Prod.fst)
    (hm : Described t₀ t fields m) :
    ∃ m' t', addressField m name v t = .ok (m', t') ∧ Described t₀ t' ((name, v) :: fields) m' := by
  cases hok with
  | size v x h =>
    refine ⟨{ m with size := x }, t, ?_, ?_⟩
    · unfold addressField
      rw [if_pos rfl, h]
      rfl
    · exact ⟨.self hnew h, hm.base.other (by decide), hm.index.other (by decide),
        hm.scale.other (by decide), hm.disp.other (by decide),
        hm.texts_plain (by decide) (by decide)⟩
  | base s =>
    obtain ⟨a, t', hrun, hle, ha, htexts⟩ := addressTerm_run .base s t
    refine ⟨{ m with base := some (.atom a) }, t', ?_, ?_⟩
    · unfold addressField
      rw [if_neg (by decide), if_pos rfl]
      change (addressTerm .base (.string s) t >>= _) = _
      rw [hrun]
      rfl
    · exact ⟨hm.size.other (by decide), .self hnew ⟨s, a, rfl, rfl, ha⟩,
        (hm.index.imp fun _ => .mono hle).other (by decide), hm.scale.other (by decide),
        hm.disp.other (by decide), hm.texts_cons htexts⟩
  | index s =>
    obtain ⟨a, t', hrun, hle, ha, htexts⟩ := addressTerm_run .index s t
    refine ⟨{ m with index := some (.atom a) }, t', ?_, ?_⟩
    · unfold addressField
      rw [if_neg (by decide), if_neg (by decide), if_pos rfl]
      change (addressTerm .index (.string s) t >>= _) = _
      rw [hrun]
      rfl
    · exact ⟨hm.size.other (by decide), (hm.base.imp fun _ => .mono hle).other (by decide),
        .self hnew ⟨s, a, rfl, rfl, ha⟩, hm.scale.other (by decide), hm.disp.other (by decide),
        hm.texts_cons htexts⟩
  | scale v x h =>
    refine ⟨{ m with scale := x }, t, ?_, ?_⟩
    · unfold addressField
      rw [if_neg (by decide), if_neg (by decide), if_neg (by decide), if_pos rfl, h]
      rfl
    · exact ⟨hm.size.other (by decide), hm.base.other (by decide), hm.index.other (by decide),
        .self hnew h, hm.disp.other (by decide), hm.texts_plain (by decide) (by decide)⟩
  | disp v x h =>
    refine ⟨{ m with disp := some x }, t, ?_, ?_⟩
    · unfold addressField
      rw [if_neg (by decide), if_neg (by decide), if_neg (by decide), if_neg (by decide),
        if_pos rfl, h]
      rfl
    · exact ⟨hm.size.other (by decide), hm.base.other (by decide), hm.index.other (by decide),
        hm.scale.other (by decide), .self hnew ⟨x, rfl, h⟩,
        hm.texts_plain (by decide) (by decide)⟩

/-- **Visits to fields** that can be loaded, with different names that have not been visited. -/
theorem addressFields_run {more : List (Text × Value)} (hok : ∀ e ∈ more, FieldOk e.1 e.2)
    (hnodup : ((more.reverse ++ fields).map Prod.fst).Nodup) (hm : Described t₀ t fields m) :
    ∃ m' t', more.foldlM (fun m e => addressField m e.1 e.2) m t = .ok (m', t') ∧
      Described t₀ t' (more.reverse ++ fields) m' := by
  induction more generalizing fields m t with
  | nil => exact ⟨m, t, rfl, hm⟩
  | cons e more ih =>
    obtain ⟨he, hmore⟩ := List.forall_mem_cons.1 hok
    rw [List.reverse_cons, List.append_assoc, List.singleton_append] at hnodup ⊢
    have hnew : e.1 ∉ fields.map Prod.fst := by
      rw [List.map_append, List.map_cons] at hnodup
      exact (List.nodup_cons.1 hnodup.of_append_right).1
    obtain ⟨m₁, t₁, hrun, hm₁⟩ := addressField_run he hnew hm
    obtain ⟨m₂, t₂, hrest, hm₂⟩ := ih hmore hnodup hm₁
    refine ⟨m₂, t₂, ?_, hm₂⟩
    rw [List.foldlM_cons]
    change (addressField m e.1 e.2 t >>= _) = _
    rw [hrun]
    exact hrest

end

theorem loads_addressField_ok (m : AddressTemplate) (name : Text) (v : Value) (t : NameTable) :
    Loads t (fun _ _ => FieldOk name v) (addressField m name v) := by
  have hterm : ∀ part, Loads t (fun _ _ => ∃ s, v = .string s) (addressTerm part v) := by
    intro part
    unfold addressTerm
    split
    · rename_i s
      exact .bind (loads_atom ..) fun _ _ _ _ => .pure ⟨s, rfl⟩
    · exact .fault _
  unfold addressField
  split
  · rename_i hname
    exact .bind ((plain_sizeOf v).loads t) fun x _ _ hx => .pure (hname ▸ .size v x hx)
  split
  · rename_i hname
    refine .bind (hterm _) fun _ _ _ hv => .pure ?_
    obtain ⟨s, rfl⟩ := hv
    exact hname ▸ .base s
  split
  · rename_i hname
    refine .bind (hterm _) fun _ _ _ hv => .pure ?_
    obtain ⟨s, rfl⟩ := hv
    exact hname ▸ .index s
  split
  · rename_i hname
    exact .bind ((plain_scaleOf v).loads t) fun x _ _ hx => .pure (hname ▸ .scale v x hx)
  split
  · rename_i hname
    exact .bind ((plain_dispOf v).loads t) fun x _ _ hx => .pure (hname ▸ .disp v x hx)
  · exact .fault _

/-- If the visits come to an end, all fields can be loaded. -/
theorem loads_addressFields (fields : List (Text × Value)) (m : AddressTemplate) (t : NameTable) :
    Loads t (fun _ _ => ∀ e ∈ fields, FieldOk e.1 e.2)
      (fields.foldlM (fun m e => addressField m e.1 e.2) m) := by
  induction fields generalizing m t with
  | nil => exact .pure (by simp)
  | cons e fields ih =>
    rw [List.foldlM_cons]
    exact .bind (loads_addressField_ok m e.1 e.2 t) fun m' t' _ he =>
      (ih m' t').imp fun _ _ hfields => List.forall_mem_cons.2 ⟨he, hfields⟩

/-- A record whose fields can all be loaded gives the operand that they describe. -/
theorem templateOperand_record_ok {fields : List (Text × Value)}
    (hok : ∀ e ∈ fields, FieldOk e.1 e.2) (hnodup : (fields.map Prod.fst).Nodup) (t : NameTable) :
    ∃ m t', templateOperand (.record fields) t = .ok (some (.indirect m), t') ∧
      Described t t' fields.reverse m := by
  have hkeys : ((fields.reverse ++ []).map Prod.fst).Nodup := by
    rw [List.append_nil, List.map_reverse]
    exact List.nodup_reverse.2 hnodup
  obtain ⟨m, t', hrun, hm⟩ := addressFields_run hok hkeys (described_nil t)
  rw [List.append_nil] at hm
  refine ⟨m, t', ?_, hm⟩
  change (fields.foldlM (fun m e => addressField m e.1 e.2) {} t >>= _) = _
  rw [hrun]
  rfl

/-- A record with a field that cannot be loaded is a fault of the document. -/
theorem templateOperand_record_error {fields : List (Text × Value)}
    (hok : ¬ ∀ e ∈ fields, FieldOk e.1 e.2) (t : NameTable) :
    ∃ err, templateOperand (.record fields) t = .error err ∧ err.cause.kind = .badSyntax := by
  have hloads : Loads t (fun _ _ => ∀ e ∈ fields, FieldOk e.1 e.2)
      (templateOperand (.record fields)) :=
    .bind (loads_addressFields fields {} t) fun _ _ _ h => .pure h
  rw [Loads] at hloads
  generalize templateOperand (.record fields) t = r at hloads
  cases hloads with
  | ok _ h => exact (hok h).elim
  | error h => exact ⟨_, rfl, h⟩

/-! ### Two orders -/

section

variable {t t₁ t₂ : NameTable} {fields fields' : List (Text × Value)} {m m' : AddressTemplate}

theorem rel_of_isTerm {o o' : Option AddressTerm}
    (h : (∃ v, IsTerm t₁ o v ∧ IsTerm t₂ o' v) ∨ (o = none ∧ o' = none)) :
    Option.Rel (AddressTerm.Related (SameText t₁ t₂)) o o' := by
  rcases h with ⟨v, ⟨s, a, rfl, rfl, ha⟩, s', a', hs, rfl, ha'⟩ | ⟨rfl, rfl⟩
  · cases hs
    exact .some (.atom (ha.related ha'))
  · exact .none

/-- Operands described by the same fields are the same but for the numbers of names, and the tables
have the same texts. -/
theorem Described.related (h : Described t t₁ fields m) (h' : Described t t₂ fields' m')
    (hmem : ∀ e, e ∈ fields ↔ e ∈ fields') : m.Related (SameText t₁ t₂) m' ∧ SameNames t₁ t₂ := by
  have hplain : ∀ {α : Type} {load : Value → LoadM α} {a b c : α},
      (∃ v, load v = pure a ∧ load v = pure b) ∨ (a = c ∧ b = c) → a = b := by
    rintro α load a b c (⟨v, ha, hb⟩ | ⟨rfl, rfl⟩)
    · exact pure_injective (ha.symm.trans hb)
    · rfl
  refine ⟨⟨hplain (h.size.both h'.size hmem), rel_of_isTerm (h.base.both h'.base hmem),
    rel_of_isTerm (h.index.both h'.index hmem), hplain (h.scale.both h'.scale hmem), ?_⟩,
    fun u => ?_⟩
  · rcases h.disp.both h'.disp hmem with ⟨v, ⟨d, hd, hv⟩, d', hd', hv'⟩ | ⟨hd, hd'⟩
    · rw [hd, hd', pure_injective (hv.symm.trans hv')]
    · rw [hd, hd']
  · rw [h.texts, h'.texts]
    simp only [hmem]

end

/-- **The order of fields does not matter.** Two orders in which the fields of a memory operand are
visited both fail for a fault of the document, or both give a memory operand. Then the operands are
the same once names are read as texts, and the tables have the same texts. -/
theorem templateOperand_perm {fields fields' : List (Text × Value)} (hperm : fields.Perm fields')
    (hnodup : (fields.map Prod.fst).Nodup) (t : NameTable) :
    (∃ err err', templateOperand (.record fields) t = .error err ∧
      templateOperand (.record fields') t = .error err' ∧
      err.cause.kind = .badSyntax ∧ err'.cause.kind = .badSyntax) ∨
    ∃ m m' t₁ t₂, templateOperand (.record fields) t = .ok (some (.indirect m), t₁) ∧
      templateOperand (.record fields') t = .ok (some (.indirect m'), t₂) ∧
      m.Related (SameText t₁ t₂) m' ∧ SameNames t₁ t₂ := by
  have hnodup' : (fields'.map Prod.fst).Nodup := (hperm.map _).nodup_iff.1 hnodup
  have hmem : ∀ e, e ∈ fields ↔ e ∈ fields' := fun e => hperm.mem_iff
  by_cases hok : ∀ e ∈ fields, FieldOk e.1 e.2
  · have hok' : ∀ e ∈ fields', FieldOk e.1 e.2 := fun e he => hok e ((hmem e).2 he)
    obtain ⟨m, t₁, hrun, hm⟩ := templateOperand_record_ok hok hnodup t
    obtain ⟨m', t₂, hrun', hm'⟩ := templateOperand_record_ok hok' hnodup' t
    exact .inr ⟨m, m', t₁, t₂, hrun, hrun', hm.related hm' fun e => by simp [hmem]⟩
  · have hok' : ¬ ∀ e ∈ fields', FieldOk e.1 e.2 :=
      fun h => hok fun e he => h e ((hmem e).1 he)
    obtain ⟨err, hrun, herr⟩ := templateOperand_record_error hok t
    obtain ⟨err', hrun', herr'⟩ := templateOperand_record_error hok' t
    exact .inl ⟨err, err', hrun, hrun', herr, herr'⟩

end Load

namespace Sample

/-- A base and a scale. -/
def baseAndScale : List (Text × Yaml.Value) := [("base", .string "$p"), ("scale", .int 4)]

/-- An index. -/
def indexOnly : List (Text × Yaml.Value) := [("index", .string "%i")]

/-- The memory operand with these parts. -/
def scaledIndex (p i : Name) : AddressTemplate where
  base := some (.atom (.ref p))
  index := some (.atom (.fresh i))
  scale := 4

theorem templateOperand_perm_index :
    ∃ m m' t₁ t₂, m ≠ m' ∧
      Load.templateOperand (.record (baseAndScale ++ indexOnly)) .empty =
        .ok (some (.indirect m), t₁) ∧
      Load.templateOperand (.record (indexOnly ++ baseAndScale)) .empty =
        .ok (some (.indirect m'), t₂) ∧
      m.Related (SameText t₁ t₂) m' ∧ SameNames t₁ t₂ := by
  -- the name that is met first has the lower number
  obtain ⟨u₁, hu₁⟩ : ∃ u, Load.templateOperand (.record (baseAndScale ++ indexOnly)) .empty =
      .ok (some (.indirect (scaledIndex ⟨1⟩ ⟨2⟩)), u) := ⟨_, rfl⟩
  obtain ⟨u₂, hu₂⟩ : ∃ u, Load.templateOperand (.record (indexOnly ++ baseAndScale)) .empty =
      .ok (some (.indirect (scaledIndex ⟨2⟩ ⟨1⟩)), u) := ⟨_, rfl⟩
  have hperm : (baseAndScale ++ indexOnly).Perm (indexOnly ++ baseAndScale) :=
    List.perm_append_comm
  rcases Load.templateOperand_perm hperm (by decide) .empty with
    ⟨err, err', herr, -⟩ | ⟨m, m', t₁, t₂, h₁, h₂, hrel, hsame⟩
  · cases hu₁.symm.trans herr
  · cases hu₁.symm.trans h₁
    cases hu₂.symm.trans h₂
    exact ⟨_, _, _, _, by decide, h₁, h₂, hrel, hsame⟩

end Sample

end CodeTiling
