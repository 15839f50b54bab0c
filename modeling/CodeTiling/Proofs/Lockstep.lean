import CodeTiling.Proofs.Interning
import CodeTiling.Proofs.RenamedRules

/-!
# Two selections in lockstep

Two selections run side by side, on rules and functions that are the same once names are read as
texts, each with a table and a scope of its own. The scopes were made on tables with the same texts.
Whatever the tables have grown into since then, the two selections take the same steps: they issue
names of the same texts, and come to the same error or to code that is the same but for its names.

* `Naming.Alike` : two namings whose scopes were made on tables with the same texts;
* `Naming.Alike.fresh` : such namings issue names of the same text;
* `InStep` : what is said of two runs, with a rule for each way of putting runs together
  (`InStep.bind`, `InStep.adapt`);
* `Rule.Related.expand`, `coverFrom_inStep`, `selectFunc_inStep` : expansion, covering and selection
  are in lockstep.
-/

namespace CodeTiling

open Code (Operand Register Instruction)

/-! ### Tables with the same texts -/

/-- The tables hold the same texts. -/
def SameNames (t t' : NameTable) : Prop := ∀ s, s ∈ t.texts ↔ s ∈ t'.texts

section

variable {t t' : NameTable}

theorem SameNames.refl (t : NameTable) : SameNames t t := fun _ => Iff.rfl

theorem SameNames.size_eq (h : SameNames t t') : t.size = t'.size :=
  ((List.perm_ext_iff_of_nodup t.nodup_texts t'.nodup_texts).2 h).length_eq

theorem SameNames.isSome_lookup (h : SameNames t t') (s : Text) :
    (t.lookup s).isSome = (t'.lookup s).isSome := by
  have hmem : ∀ u : NameTable, (u.lookup s).isSome = true ↔ s ∈ u.texts := fun u => by
    rw [NameTable.mem_texts_iff, Option.isSome_iff_exists]
    exact exists_congr fun n => NameTable.lookup_iff
  exact Bool.eq_iff_iff.2 ((hmem t).trans ((h s).trans (hmem t').symm))

/-- The text had a name when the scope was made if and only if the table that it was made on has a
name for it, however the table has grown. -/
theorem Scope.isTaken_eq {s : Scope} (h : t ≤ t') (hlimit : s.limit = t.size) (text : Text) :
    s.isTaken t' text = (t.lookup text).isSome := by
  rw [Bool.eq_iff_iff, isTaken_iff, Option.isSome_iff_exists]
  constructor
  · -- a name below the limit is one of the old table, where it had the same text
    rintro ⟨n, hn, hlt⟩
    have hissued : t.isIssued n = true := by simpa [NameTable.isIssued, hlimit] using hlt
    have htext := NameTable.text?_mono h (NameTable.text?_eq_some_text hissued)
    rw [NameTable.text_of_lookup hn] at htext
    exact ⟨n, NameTable.lookup_of_text (htext ▸ NameTable.text?_eq_some_text hissued)⟩
  · rintro ⟨n, hn⟩
    have htext := NameTable.text_of_lookup hn
    have hissued : t.isIssued n = true := NameTable.isIssued_iff.2 ⟨_, htext⟩
    refine ⟨n, NameTable.lookup_of_text (NameTable.text?_mono h htext), ?_⟩
    simpa [NameTable.isIssued, hlimit] using hissued

end

/-! ### Alike namings -/

/-- Two namings have scopes that were made on `t` and on `t'` and have issued as many names on each
stem. The tables have grown from there, each in its own way. -/
structure Naming.Alike (t t' : NameTable) (g g' : Naming) : Prop where
  /-- The first table has grown from `t`. -/
  left : t ≤ g.table
  /-- The second one has grown from `t'`. -/
  right : t' ≤ g'.table
  /-- The first scope was made on `t`. -/
  limit_left : g.scope.limit = t.size
  /-- The second one was made on `t'`. -/
  limit_right : g'.scope.limit = t'.size
  /-- The scopes have the same numbers next. -/
  next : g.scope.next = g'.scope.next

/-- So far two uses of a rule have issued registers of the same texts. -/
structure Expansion.Alike (t t' : NameTable) (s s' : Expansion) : Prop where
  /-- The namings are alike. -/
  naming : s.naming.Alike t t' s'.naming
  /-- The registers have the same texts. -/
  issued : RelatedEntries (SameText t t') (SameText s.naming.table s'.naming.table)
    s.issued s'.issued

section

variable {t t' : NameTable} (hnames : SameNames t t')
include hnames

/-- Alike namings issue names of one text and stay alike. -/
theorem Naming.Alike.fresh {g g' : Naming} (h : g.Alike t t' g') (stem : Text) :
    (Naming.fresh stem g).2.Alike t t' (Naming.fresh stem g').2 ∧
      SameText (Naming.fresh stem g).2.table (Naming.fresh stem g').2.table
        (Naming.fresh stem g).1 (Naming.fresh stem g').1 := by
  have hfree : g.scope.firstFree g.table stem = g'.scope.firstFree g'.table stem := by
    simp only [Scope.firstFree, Scope.counter, Scope.isTaken_eq h.left h.limit_left,
      Scope.isTaken_eq h.right h.limit_right, hnames.isSome_lookup, h.limit_left, h.limit_right,
      hnames.size_eq, h.next]
  refine ⟨⟨NameTable.le_trans h.left (NameTable.le_intern _ _),
    NameTable.le_trans h.right (NameTable.le_intern _ _), h.limit_left, h.limit_right, ?_⟩,
    numbered stem (g.scope.firstFree g.table stem), NameTable.text?_intern _ _, ?_⟩
  · simp only [Naming.fresh, Scope.fresh]
    rw [hfree, h.next]
  · rw [hfree]
    exact NameTable.text?_intern _ _

theorem Expansion.Alike.issue {s s' : Expansion} (h : s.Alike t t' s') {n m : Name}
    (hn : SameText t t' n m) : (s.issue n).Alike t t' (s'.issue m) := by
  -- either both uses have a register for the name already, or both issue one
  have hlookup := h.issued.lookup SameText.biUnique hn
  cases hs : s.issued.lookup n with
  | some r =>
    rw [hs] at hlookup
    generalize hs' : s'.issued.lookup m = o at hlookup
    cases hlookup
    rwa [issue_of_lookup_some hs, issue_of_lookup_some hs']
  | none =>
    rw [hs] at hlookup
    generalize hs' : s'.issued.lookup m = o at hlookup
    cases hlookup
    have hstem : s'.naming.table.text m = s.naming.table.text n :=
      (hn.mono h.naming.left h.naming.right).text_eq.symm
    obtain ⟨hfresh, hsame⟩ := h.naming.fresh hnames (s.naming.table.text n)
    rw [issue_of_lookup_none hs, issue_of_lookup_none hs', hstem]
    refine ⟨hfresh, .cons ⟨hn, hsame⟩ (h.issued.imp fun p q hpq => ⟨hpq.1, ?_⟩)⟩
    exact hpq.2.mono (NameTable.le_intern _ _) (NameTable.le_intern _ _)

end

/-! ### Runs in step -/

/-- How states of two runs are compared. -/
structure Pairing (σ : Type) where
  /-- The table of a state. -/
  table : σ → NameTable
  /-- The states are alike. -/
  Alike : σ → σ → Prop

/-- The pairing of namings. -/
def Pairing.namings (t t' : NameTable) : Pairing Naming := ⟨Naming.table, Naming.Alike t t'⟩

/-- The pairing of expansions. -/
def Pairing.expansions (t t' : NameTable) : Pairing Expansion :=
  ⟨fun s => s.naming.table, Expansion.Alike t t'⟩

/-- Two runs stay in step. From the states `s` and `s'` on their tables only grow and they come to
alike states; they fail with the same error, or succeed with results that are related under the
tables that they leave. -/
structure InStep {σ α β : Type} (P : Pairing σ) (S : NameTable → NameTable → α → β → Prop)
    (s s' : σ) (x : Except Error α × σ) (y : Except Error β × σ) : Prop where
  /-- The first table has only grown. -/
  left : P.table s ≤ P.table x.2
  /-- So has the second one. -/
  right : P.table s' ≤ P.table y.2
  /-- The states are alike. -/
  alike : P.Alike x.2 y.2
  /-- The results are related. -/
  outcome : SameOutcome (S (P.table x.2) (P.table y.2)) x.1 y.1

namespace InStep

variable {σ α β γ δ : Type} {P : Pairing σ} {S : NameTable → NameTable → α → β → Prop}
  {S' : NameTable → NameTable → γ → δ → Prop} {s s' : σ}

theorem ok (h : P.Alike s s') {a : α} {b : β} (hab : S (P.table s) (P.table s') a b) :
    InStep P S s s' (.ok a, s) (.ok b, s') :=
  ⟨NameTable.le_refl _, NameTable.le_refl _, h, .ok hab⟩

theorem error (h : P.Alike s s') (err : Error) :
    InStep P S s s' (.error err, s) (.error err, s') :=
  ⟨NameTable.le_refl _, NameTable.le_refl _, h, .error err⟩

variable {x : ExceptT Error (StateM σ) α} {y : ExceptT Error (StateM σ) β}

/-- One step after another. What follows may use that the tables have grown. -/
theorem bind {f : α → ExceptT Error (StateM σ) γ} {g : β → ExceptT Error (StateM σ) δ}
    (hx : InStep P S s s' (x s) (y s'))
    (hfg : ∀ a b v v', P.table s ≤ P.table v → P.table s' ≤ P.table v' → P.Alike v v' →
      S (P.table v) (P.table v') a b → InStep P S' v v' (f a v) (g b v')) :
    InStep P S' s s' ((x >>= f) s) ((y >>= g) s') := by
  rcases hxs : x s with ⟨o, v⟩
  rcases hys : y s' with ⟨o', v'⟩
  rw [hxs, hys] at hx
  obtain ⟨hleft, hright, halike, houtcome⟩ := hx
  cases houtcome with
  | error err =>
    rw [Run.bind_error hxs, Run.bind_error hys]
    exact ⟨hleft, hright, halike, .error err⟩
  | @ok a b hab =>
    have hrest := hfg a b v v' hleft hright halike hab
    rw [Run.bind_ok hxs, Run.bind_ok hys]
    exact ⟨NameTable.le_trans hleft hrest.left, NameTable.le_trans hright hrest.right,
      hrest.alike, hrest.outcome⟩

theorem adapt (place : Error → Error) (hx : InStep P S s s' (x s) (y s')) :
    InStep P S s s' (ExceptT.adapt place x s) (ExceptT.adapt place y s') := by
  rcases hxs : x s with ⟨o, v⟩
  rcases hys : y s' with ⟨o', v'⟩
  rw [hxs, hys] at hx
  obtain ⟨hleft, hright, halike, houtcome⟩ := hx
  cases houtcome with
  | error err =>
    rw [Run.adapt_error hxs, Run.adapt_error hys]
    exact ⟨hleft, hright, halike, .error _⟩
  | ok hab =>
    rw [Run.adapt_ok hxs, Run.adapt_ok hys]
    exact ⟨hleft, hright, halike, .ok hab⟩

end InStep

/-! ### Expansion -/

section

variable {t t' : NameTable} {s s' : Expansion} {b b' : Bindings}

theorem textOf_inStep (h : s.Alike t t' s') {n m : Name} (hn : SameText t t' n m) :
    textOf n s = (.ok (t.text n), s) ∧ textOf m s' = (.ok (t.text n), s') := by
  refine ⟨textOf_run h.naming.left hn.isIssued_left, ?_⟩
  rw [textOf_run h.naming.right hn.isIssued_right, hn.text_eq]

/-- Operands of the program stay related as the tables grow. -/
theorem related_of_alike (h : s.Alike t t' s') {x y : Operand}
    (hxy : x.Related (SameText t t') y) :
    x.Related (SameText s.naming.table s'.naming.table) y :=
  hxy.imp fun _ _ hn => hn.mono h.naming.left h.naming.right

theorem lineList?_rel {R : Name → Name → Prop} (hR : Relator.BiUnique R) (hb : b.Related R b')
    {l k : TemplateLine} (h : l.Related R k) :
    Option.Rel (List.Forall₂ (Operand.Related R)) (lineList? b l) (lineList? b' k) := by
  have hargs := h.args
  unfold lineList?
  generalize l.args = as, k.args = as' at hargs ⊢
  cases hargs with
  | nil => exact .none
  | cons ho hrest =>
    cases ho with
    | none => exact .none
    | some ho =>
      cases ho with
      | indirect _ => exact .none
      | atom ha =>
        cases ha with
        | ref hn =>
          cases hrest with
          | nil => exact hb.list? hR hn
          | cons _ _ => exact .none
        | _ => exact .none

variable (hnames : SameNames t t') (hb : b.Related (SameText t t') b')

section

include hnames

theorem newRegister_inStep (h : s.Alike t t' s') {n m : Name} (hn : SameText t t' n m) :
    InStep (.expansions t t') (fun T T' => Register.Related (SameText T T')) s s'
      (newRegister n s) (newRegister m s') := by
  obtain ⟨r, hrun, hr⟩ := newRegister_run h.naming.left hn.isIssued_left
  obtain ⟨r', hrun', hr'⟩ := newRegister_run h.naming.right hn.isIssued_right
  have halike := h.issue hnames hn
  have hlookup := halike.issued.lookup SameText.biUnique hn
  rw [hr, hr'] at hlookup
  rw [hrun, hrun']
  refine ⟨Expansion.le_issue n, Expansion.le_issue m, halike, .ok ?_⟩
  cases hlookup with
  | some hsame => exact .virtual hsame

end

include hnames hb

theorem expandAtom_inStep (h : s.Alike t t' s') {a a' : Atom} (ha : a.Related (SameText t t') a') :
    InStep (.expansions t t') (fun T T' => Operand.Related (SameText T T')) s s'
      (expandAtom b a s) (expandAtom b' a' s') := by
  cases ha with
  | machine r => exact .ok h (.reg (.machine r))
  | fresh hn =>
    exact (newRegister_inStep hnames h hn).bind fun r r' v v' _ _ hv hr => .ok hv (.reg hr)
  | @ref n m hn =>
    have hissued := h.issued.lookup SameText.biUnique hn
    have hvalue := hb.value? SameText.biUnique hn
    rw [expandAtom, expandAtom, Run.bind_ok (Run.get_apply s), Run.bind_ok (Run.get_apply s')]
    generalize s.issued.lookup n = o, s'.issued.lookup m = o' at hissued ⊢
    cases hissued with
    | some hr => exact .ok h (.reg (.virtual hr))
    | none =>
      generalize b.value? n = o, b'.value? m = o' at hvalue ⊢
      cases hvalue with
      | some hxy => exact .ok h (related_of_alike h hxy)
      | none =>
        obtain ⟨htext, htext'⟩ := textOf_inStep h hn
        dsimp only
        rw [Run.bind_ok htext, Run.bind_ok htext']
        exact .error h _
  | @literal n m hn =>
    obtain ⟨htext, htext'⟩ := textOf_inStep h hn
    rw [expandAtom, expandAtom, Run.bind_ok htext, Run.bind_ok htext']
    refine .ok h ?_
    -- one text is a number on both sides or on neither
    simp only [literalOperand]
    split
    · exact .imm _
    · exact .addr (hn.mono h.naming.left h.naming.right)
  | @label n m hn =>
    have hvalue := hb.value? SameText.biUnique hn
    rw [expandAtom, expandAtom]
    generalize b.value? n = o, b'.value? m = o' at hvalue ⊢
    cases hvalue with
    | some hxy => exact .ok h (related_of_alike h hxy)
    | none =>
      obtain ⟨htext, htext'⟩ := textOf_inStep h hn
      dsimp only
      rw [Run.bind_ok htext, Run.bind_ok htext']
      exact .error h _

theorem expandTerm_inStep (part : AddressPart) (h : s.Alike t t' s') {o o' : Option AddressTerm}
    (ho : Option.Rel (AddressTerm.Related (SameText t t')) o o') :
    InStep (.expansions t t') (fun T T' => Register.Related (SameText T T')) s s'
      (expandTerm b part o s) (expandTerm b' part o' s') := by
  cases ho with
  | none => exact .ok h .none
  | some ho =>
    cases ho with
    | nested => exact .error h _
    | atom ha =>
      refine InStep.adapt _ ((expandAtom_inStep hnames hb h ha).bind ?_)
      intro x y v v' _ _ hv hxy
      -- only a register on both sides is one on either side
      cases hxy with
      | reg hr => exact .ok hv hr
      | _ => exact .error hv _

theorem expandAddress_inStep (h : s.Alike t t' s') {m k : AddressTemplate}
    (hm : m.Related (SameText t t') k) :
    InStep (.expansions t t') (fun T T' => Operand.Related (SameText T T')) s s'
      (expandAddress b m s) (expandAddress b' k s') := by
  refine (expandTerm_inStep hnames hb .base h hm.base).bind ?_
  intro base base' v v' _ _ hv hbase
  refine (expandTerm_inStep hnames hb .index hv hm.index).bind ?_
  intro index index' w w' hvw hvw' hw hindex
  exact .ok hw (.indirect ⟨hm.size, hbase.imp fun _ _ hn => hn.mono hvw hvw', hindex, hm.scale,
    hm.disp⟩)

theorem expandOperand_inStep (h : s.Alike t t' s') {o o' : Option TemplateOperand}
    (ho : Option.Rel (TemplateOperand.Related (SameText t t')) o o') :
    InStep (.expansions t t') (fun T T' => Operand.Related (SameText T T')) s s'
      (expandOperand b o s) (expandOperand b' o' s') := by
  cases ho with
  | none => exact .error h _
  | some ho =>
    cases ho with
    | atom ha => exact expandAtom_inStep hnames hb h ha
    | indirect hm => exact expandAddress_inStep hnames hb h hm

theorem expandOperands_inStep (m : Mnemonic) (j : Nat) (h : s.Alike t t' s')
    {as as' : List (Option TemplateOperand)}
    (has : List.Forall₂ (Option.Rel (TemplateOperand.Related (SameText t t'))) as as') :
    InStep (.expansions t t')
      (fun T T' => List.Forall₂ (Option.Rel (Operand.Related (SameText T T')))) s s'
      (expandOperands b m j as s) (expandOperands b' m j as' s') := by
  induction has generalizing j s s' with
  | nil => exact .ok h .nil
  | cons ho _ ih =>
    refine (InStep.adapt _ (expandOperand_inStep hnames hb h ho)).bind ?_
    intro x y v v' _ _ hv hxy
    refine (ih (j + 1) hv).bind ?_
    intro xs ys w w' hvw hvw' hw hxs
    exact .ok hw (.cons (.some (hxy.imp fun _ _ hn => hn.mono hvw hvw')) hxs)

theorem expandLine_inStep (m : Mnemonic) (h : s.Alike t t' s') {l k : TemplateLine}
    (hl : l.Related (SameText t t') k) :
    InStep (.expansions t t') (fun T T' => List.Forall₂ (Instruction.Related (SameText T T'))) s s'
      (expandLine b m l s) (expandLine b' m k s') := by
  have hlist := lineList?_rel SameText.biUnique hb hl
  rw [expandLine, expandLine]
  generalize lineList? b l = o, lineList? b' k = o' at hlist ⊢
  cases hlist with
  | some has =>
    refine .ok h (List.rel_map (fun x y hxy => ?_) (List.rel_reverse has))
    exact ⟨rfl, .cons (.some (related_of_alike h hxy)) .nil⟩
  | none =>
    refine (expandOperands_inStep hnames hb m 0 h hl.args).bind ?_
    intro xs ys v v' _ _ hv hxs
    exact .ok hv (.cons ⟨rfl, hxs⟩ .nil)

theorem expandLines_inStep (h : s.Alike t t' s') {ls ks : List (Mnemonic × TemplateLine)}
    (hls : List.Forall₂ (fun x y => x.1 = y.1 ∧ x.2.Related (SameText t t') y.2) ls ks) :
    InStep (.expansions t t') (fun T T' => List.Forall₂ (Instruction.Related (SameText T T'))) s s'
      (expandLines b ls s) (expandLines b' ks s') := by
  induction hls generalizing s s' with
  | nil => exact .ok h .nil
  | @cons x y _ _ hxy _ ih =>
    obtain ⟨m, l⟩ := x
    obtain ⟨m', k⟩ := y
    obtain ⟨rfl, hl⟩ := hxy
    refine (expandLine_inStep hnames hb m h hl).bind ?_
    intro is js v v' _ _ hv his
    refine (ih hv).bind ?_
    intro rest rest' w w' hvw hvw' hw hrest
    refine .ok hw (List.rel_append (his.imp fun i j hij => ?_) hrest)
    exact hij.imp fun _ _ hn => hn.mono hvw hvw'

omit hnames hb in
theorem lineMnemonics_same {T T' : NameTable} (hT : t ≤ T) (hT' : t' ≤ T')
    {ls ks : List TemplateLine}
    (hls : List.Forall₂ (TemplateLine.Related (SameText t t')) ls ks) :
    SameOutcome (List.Forall₂ fun x y => x.1 = y.1 ∧ x.2.Related (SameText t t') y.2)
      (lineMnemonics T ls) (lineMnemonics T' ks) := by
  induction hls with
  | nil => exact .ok .nil
  | @cons l k _ _ hl _ ih =>
    have hline : SameOutcome (fun x y => x.1 = y.1 ∧ x.2.Related (SameText t t') y.2)
        (lineMnemonic T l) (lineMnemonic T' k) := by
      obtain ⟨text, htext, htext'⟩ := hl.mnemonic.mono hT hT'
      rw [lineMnemonic, lineMnemonic, htext, htext']
      dsimp only
      cases Mnemonic.ofText? text with
      | none => exact .error _
      | some m => exact .ok ⟨rfl, hl⟩
    rw [lineMnemonics, lineMnemonics, List.mapM_cons, List.mapM_cons]
    exact hline.bind fun x y hxy => ih.bind fun xs ys hxs => .ok (.cons hxy hxs)

/-- Related rules are expanded in lockstep. -/
theorem Rule.Related.expand {r q : Rule} (hr : r.Related (SameText t t') q) {g g' : Naming}
    (h : g.Alike t t' g') :
    InStep (.namings t t') (fun T T' => List.Forall₂ (Instruction.Related (SameText T T'))) g g'
      (r.expand b g) (q.expand b' g') := by
  have hlines := lineMnemonics_same h.left h.right hr.template
  rw [Rule.expand, Rule.expand]
  generalize lineMnemonics g.table r.template = x, lineMnemonics g'.table q.template = y
    at hlines ⊢
  cases hlines with
  | error err => exact .error h err
  | ok hls =>
    have hstart : Expansion.Alike t t' ⟨g, []⟩ ⟨g', []⟩ := ⟨h, .nil⟩
    obtain ⟨hleft, hright, halike, houtcome⟩ := expandLines_inStep hnames hb hstart hls
    exact ⟨hleft, hright, halike.naming, houtcome⟩

end

/-! ### Selection -/

section

variable {R : Name → Name → Prop}

/-- Where no rule matches, the error does not depend on names. -/
theorem noRule_eq (pos : Nat) {xs ys : List (Option Ir.Instr)} {x y : Option Ir.Terminator}
    (hxs : List.Forall₂ (Option.Rel (Ir.Instr.Related R)) xs ys)
    (hx : Option.Rel (Ir.Terminator.Related R) x y) : noRule pos xs x = noRule pos ys y := by
  cases hxs with
  | nil =>
    cases hx with
    | none => rfl
    | some hx => cases hx <;> rfl
  | cons hi _ =>
    cases hi with
    | none => rfl
    | some hi => cases hi <;> rfl

theorem related_coveredBlock {t t' T T' U U' : NameTable} (hT : t ≤ T) (hT' : t' ≤ T')
    (hU : T ≤ U) (hU' : T' ≤ U') {func func' : Name} {entry : Bool} {b c : Ir.Block}
    (hfunc : SameText t t' func func') (hb : b.Related (SameText t t') c)
    {is js : List Instruction} (h : List.Forall₂ (Instruction.Related (SameText U U')) is js) :
    (coveredBlock T func entry b is).Related (SameText U U')
      (coveredBlock T' func' entry c js) := by
  have hmono : ∀ n m, SameText t t' n m → SameText U U' n m := fun _ _ hn =>
    (hn.mono hT hT').mono hU hU'
  have hdirectives : blockDirectives T func entry b = blockDirectives T' func' entry c := by
    rw [blockDirectives, blockDirectives, (hfunc.mono hT hT').text_eq,
      (hb.label.mono hT hT').text_eq]
  refine ⟨hmono _ _ hb.label, ?_, hb.phis.imp fun _ _ hp => hp.imp hmono, ?_⟩
  · rw [coveredBlock, coveredBlock, hdirectives]
    refine List.rel_append (List.forall₂_same.2 fun l hl => ?_) (List.rel_map ?_ h)
    · obtain ⟨text, -, rfl⟩ := List.mem_map.1 hl
      exact .directive text
    · exact fun i j hij => .instr hij
  · exact forall₂_elim hb.term fun _ _ hx => hx.successors.imp hmono

theorem Remaining.isDone_iff_of_forall₂ {S : Option Ir.Instr → Option Ir.Instr → Prop}
    {left right : Remaining} (hcode : List.Forall₂ S left.code right.code)
    (hterm : left.termLeft = right.termLeft) : left.IsDone ↔ right.IsDone := by
  rw [isDone_iff, isDone_iff, forall₂_isEmpty hcode, hterm]

variable {t t' : NameTable} {e e' : Engine} (hnames : SameNames t t')
  (hrules : List.Forall₂ (Rule.Related (SameText t t')) e.rules e'.rules)
include hnames hrules

/-- The loops that cover related blocks lay tiles of related rules at the same positions. -/
theorem coverFrom_inStep {x y : Option Ir.Terminator}
    (hx : Option.Rel (Ir.Terminator.Related (SameText t t')) x y) (fuel : Nat)
    {left right : Remaining} (hpos : left.pos = right.pos)
    (hcode : List.Forall₂ (Option.Rel (Ir.Instr.Related (SameText t t'))) left.code right.code)
    (hterm : left.termLeft = right.termLeft) {g g' : Naming} (h : g.Alike t t' g') :
    InStep (.namings t t') (fun T T' => List.Forall₂ (Instruction.Related (SameText T T'))) g g'
      (coverFrom e x fuel left g) (coverFrom e' y fuel right g') := by
  induction fuel generalizing left right g g' with
  | zero =>
    have hdone : left.IsDone ↔ right.IsDone :=
      Remaining.isDone_iff_of_forall₂ hcode hterm
    by_cases hleft : left.IsDone
    · rw [coverFrom_of_isDone hleft, coverFrom_of_isDone (hdone.1 hleft)]
      exact .ok h .nil
    · rw [coverFrom_zero hleft, coverFrom_zero (hdone.not.1 hleft)]
      exact .error h _
  | succ fuel ih =>
    have hdone : left.IsDone ↔ right.IsDone :=
      Remaining.isDone_iff_of_forall₂ hcode hterm
    by_cases hleft : left.IsDone
    · rw [coverFrom_of_isDone hleft, coverFrom_of_isDone (hdone.1 hleft)]
      exact .ok h .nil
    have hright : ¬right.IsDone := hdone.not.1 hleft
    -- the same rule is the first to match, or the search ends in the same way
    have hfirst := firstMatch_same SameText.biUnique hrules hcode hx
    generalize hm : firstMatch left.code x e.rules = o,
      hm' : firstMatch right.code y e'.rules = o' at hfirst
    cases hfirst with
    | error err =>
      rw [coverFrom_of_error hleft hm, coverFrom_of_error hright hm']
      exact .error h err
    | ok hfound =>
      cases hfound with
      | none =>
        rw [coverFrom_of_none hleft hm, coverFrom_of_none hright hm', hpos, noRule_eq _ hcode hx]
        exact .error h _
      | @some u v huv =>
        obtain ⟨r, b⟩ := u
        obtain ⟨q, b'⟩ := v
        obtain ⟨hr, hb⟩ := huv
        have hlength : r.pattern.code.length = q.pattern.code.length := hr.pattern.code.length_eq
        rw [coverFrom_of_some hleft hm, coverFrom_of_some hright hm', hr.name, hpos]
        refine (InStep.adapt _ (hr.expand hnames hb h)).bind ?_
        intro is js v v' _ _ hv his
        refine (ih ?_ ?_ ?_ hv).bind ?_
        · rw [Remaining.after, Remaining.after, hpos, hlength]
        · rw [Remaining.after, Remaining.after, hlength]
          exact List.forall₂_drop _ hcode
        · rw [Remaining.after, Remaining.after, hterm, optionRel_isNone hr.pattern.last]
        · intro rest rest' w w' hvw hvw' hw hrest
          refine .ok hw (List.rel_append (his.imp fun i j hij => ?_) hrest)
          exact hij.imp fun _ _ hn => hn.mono hvw hvw'

theorem cover_inStep {b c : Ir.Block} (hb : b.Related (SameText t t') c) {g g' : Naming}
    (h : g.Alike t t' g') :
    InStep (.namings t t') (fun T T' => List.Forall₂ (Instruction.Related (SameText T T'))) g g'
      (e.cover b g) (e'.cover c g') := by
  have hterm : b.term.isSome = c.term.isSome := optionRel_isSome hb.term
  have hmeasure : b.code.length + b.term.isSome.toNat = c.code.length + c.term.isSome.toNat := by
    rw [hb.code.length_eq, hterm]
  simp only [Engine.cover, Remaining.measure, hmeasure]
  refine coverFrom_inStep hnames hrules hb.term _ ?_ ?_ ?_ h
  · rfl
  · exact hb.code
  · exact hterm

theorem selectBlock_inStep {func func' : Name} (entry : Bool) {b c : Ir.Block}
    (hfunc : SameText t t' func func') (hb : b.Related (SameText t t') c) {g g' : Naming}
    (h : g.Alike t t' g') :
    InStep (.namings t t') (fun T T' => Code.Block.Related (SameText T T')) g g'
      (e.selectBlock func entry b g) (e'.selectBlock func' entry c g') := by
  have hlabel := hb.label.mono h.left h.right
  have hfunc' := hfunc.mono h.left h.right
  have hissued : ∀ n ∈ directiveNames func entry b, g.table.isIssued n = true :=
    isIssued_of_mem_directiveNames hfunc'.isIssued_left hlabel.isIssued_left
  have hissued' : ∀ n ∈ directiveNames func' entry c, g'.table.isIssued n = true :=
    isIssued_of_mem_directiveNames hfunc'.isIssued_right hlabel.isIssued_right
  rw [selectBlock_run hissued, selectBlock_run hissued']
  refine (cover_inStep hnames hrules hb h).bind ?_
  intro is js v v' hv hv' halike his
  exact .ok halike (related_coveredBlock h.left h.right hv hv' hfunc hb his)

theorem selectBlocks_inStep {func func' : Name} (entry : Bool) {bs cs : List Ir.Block}
    (hfunc : SameText t t' func func')
    (hbs : List.Forall₂ (Ir.Block.Related (SameText t t')) bs cs) {g g' : Naming}
    (h : g.Alike t t' g') :
    InStep (.namings t t') (fun T T' => List.Forall₂ (Code.Block.Related (SameText T T'))) g g'
      (e.selectBlocks func entry bs g) (e'.selectBlocks func' entry cs g') := by
  induction hbs generalizing entry g g' with
  | nil => exact .ok h .nil
  | cons hb _ ih =>
    rw [Engine.selectBlocks, Engine.selectBlocks, Run.bind_ok (Run.get_apply g),
      Run.bind_ok (Run.get_apply g'), (hb.label.mono h.left h.right).text_eq]
    refine (InStep.adapt _ (selectBlock_inStep hnames hrules entry hfunc hb h)).bind ?_
    intro c d v v' _ _ hv hcd
    refine (ih false hv).bind ?_
    intro rest rest' w w' hvw hvw' hw hrest
    exact .ok hw (.cons (hcd.imp fun _ _ hn => hn.mono hvw hvw') hrest)

/-- **Selections in lockstep.** On tables with the same texts, selections of a function that is the
same once names are read as texts, with rules that are, fail with the same error or come to blocks
that are the same once names are read as texts. -/
theorem selectFunc_inStep {f f' : Ir.Func} (hf : f.Related (SameText t t') f') {g g' : Naming}
    (h : g.Alike t t' g') :
    InStep (.namings t t') (fun T T' => List.Forall₂ (Code.Block.Related (SameText T T'))) g g'
      (e.selectFunc f g) (e'.selectFunc f' g') := by
  have hname := hf.name.mono h.left h.right
  rw [selectFunc_run hname.isIssued_left, selectFunc_run hname.isIssued_right]
  exact selectBlocks_inStep hnames hrules true hf.name hf.blocks h

end

/-- A selection comes to the same, but for the names that it issues, whatever its table has grown
into since its scope was made. -/
theorem selectFunc_alike {e : Engine} {t : NameTable} {f : Ir.Func} {g g' : Naming}
    (he : e.BuiltOn t) (hf : ∀ n ∈ f.names, t.isIssued n = true) (h : g.Alike t t g') :
    InStep (.namings t t) (fun T T' => List.Forall₂ (Code.Block.Related (SameText T T'))) g g'
      (e.selectFunc f g) (e.selectFunc f g') := by
  have hself : ∀ n, t.isIssued n = true → SameText t t n n := fun n hn =>
    .of_isIssued hn (NameTable.le_refl t) (NameTable.le_refl t)
  refine selectFunc_inStep (.refl t) (List.forall₂_same.2 fun r hr => ?_) ?_ h
  · exact Rule.related_self fun n hn => hself n (he.issued r hr n hn)
  · exact Ir.Func.related_self fun n hn => hself n (hf n hn)

end CodeTiling
