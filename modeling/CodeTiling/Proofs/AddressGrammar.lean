import CodeTiling.Proofs.AddressFields

/-!
# The grammar of memory operands

A memory operand of a template is a record of up to five fields. The grammar (`Load.FieldGrammar`)
says what each of them may hold: `size` one of the words for sizes, `base` and `index` a text,
`scale` one of 1, 2, 4 and 8, and `disp` a number of 32 bits. `Load.Written` says what an operand
holds when it is what the fields say.

Loading departs from the grammar at one place. A size that is no text at all (`Load.isUntypedSize`),
such as a number or a list, is taken for the empty text, and so for no size.

* `Load.fieldOk_iff` : what is loaded is the grammar and sizes that are no text;
* `Load.templateOperand_record_grammar` : records for which loading keeps to the grammar, and what
  it does with the others.
-/

namespace CodeTiling

namespace Load

open Yaml (Value)

/-! ### Fields as the grammar has them -/

/-- The words for sizes with what they stand for. -/
def sizeWords : List (Text × Size) :=
  [("", .unspecified), ("none", .unspecified), ("byte", ⟨1⟩), ("word", ⟨2⟩), ("dword", ⟨3⟩),
    ("qword", ⟨4⟩)]

/-- A field with a value that it may hold. -/
inductive FieldGrammar : Text → Value → Prop
  /-- A word for a size. -/
  | size (s : Text) (x : Size) (h : (s, x) ∈ sizeWords) : FieldGrammar "size" (.string s)
  /-- A text for the base. -/
  | base (s : Text) : FieldGrammar "base" (.string s)
  /-- A text for the index. -/
  | index (s : Text) : FieldGrammar "index" (.string s)
  /-- A number that an index can be multiplied by. -/
  | scale (n : Int64) (h : n.toInt ∈ [1, 2, 4, 8]) : FieldGrammar "scale" (.int n)
  /-- A number of 32 bits. -/
  | disp (n : Int64) (hlo : -2 ^ 31 ≤ n.toInt) (hhi : n.toInt ≤ 2 ^ 31 - 1) :
      FieldGrammar "disp" (.int n)

/-- The value is a text. -/
def isText : Value → Bool
  | .string _ => true
  | _ => false

/-- A size that is no text. -/
def isUntypedSize (e : Text × Value) : Bool := e.1 = "size" && !isText e.2

/-- The operand holds what the fields say, and nothing where there is no field. -/
structure Written (t : NameTable) (fields : List (Text × Value)) (m : AddressTemplate) : Prop where
  /-- The size is the one that the word stands for. -/
  size : Field fields "size" (fun v => ∃ s, v = .string s ∧ (s, m.size) ∈ sizeWords)
    (m.size = .unspecified)
  /-- The base is what its text stands for. -/
  base : Field fields "base" (IsTerm t m.base) (m.base = none)
  /-- The index is what its text stands for. -/
  index : Field fields "index" (IsTerm t m.index) (m.index = none)
  /-- The scale is the number. -/
  scale : Field fields "scale" (fun v => ∃ n, v = .int n ∧ (m.scale.toNat : Int) = n.toInt)
    (m.scale = 0)
  /-- The displacement is the number. -/
  disp : Field fields "disp" (fun v => ∃ n d, v = .int n ∧ m.disp = some d ∧ d.toInt = n.toInt)
    (m.disp = none)

/-! ### Values of fields -/

theorem sizeOfText?_eq_some_iff {s : Text} {x : Size} :
    Size.ofText? s = some x ↔ (s, x) ∈ sizeWords := by
  constructor
  · intro h
    unfold Size.ofText? at h
    split at h
    · rename_i hs
      cases h
      subst hs
      decide
    · obtain ⟨i, hi, rfl⟩ := Option.map_eq_some_iff.1 h
      obtain ⟨hlt, rfl, -⟩ := List.idxOf?_eq_some_iff.1 hi
      have hall : ∀ j : Fin Size.texts.length,
          (Size.texts.get j, (⟨UInt8.ofNat j⟩ : Size)) ∈ sizeWords := by decide
      exact hall ⟨i, hlt⟩
  · intro h
    simp only [sizeWords, List.mem_cons, Prod.mk.injEq, List.not_mem_nil, or_false] at h
    rcases h with ⟨rfl, rfl⟩ | ⟨rfl, rfl⟩ | ⟨rfl, rfl⟩ | ⟨rfl, rfl⟩ | ⟨rfl, rfl⟩ | ⟨rfl, rfl⟩ <;>
      decide

theorem fault_ne_pure {α : Type} {f : SyntaxFault} {a : α} : (fault f : LoadM α) ≠ pure a := by
  intro h
  have hrun : (Except.error _ : Except Error (α × NameTable)) = .ok (a, .empty) :=
    congrFun h .empty
  cases hrun

theorem ite_fault_eq_pure_iff {α : Type} {p : Prop} [Decidable p] {a b : α} {f : SyntaxFault} :
    (if p then pure a else fault f : LoadM α) = pure b ↔ p ∧ a = b := by
  split
  · rename_i hp
    exact ⟨fun h => ⟨hp, pure_injective h⟩, fun h => congrArg pure h.2⟩
  · rename_i hp
    exact ⟨fun h => (fault_ne_pure h).elim, fun h => (hp h.1).elim⟩

theorem sizeOf_string_iff {s : Text} {x : Size} :
    sizeOf (.string s) = pure x ↔ (s, x) ∈ sizeWords := by
  rw [← sizeOfText?_eq_some_iff]
  unfold sizeOf
  simp only
  split
  · rename_i y hy
    rw [hy, Option.some.injEq]
    exact ⟨pure_injective, congrArg pure⟩
  · rename_i hnone
    rw [hnone]
    exact ⟨fun h => (fault_ne_pure h).elim, fun h => by cases h⟩

/-- What is no text is no size. -/
theorem sizeOf_of_not_isText {v : Value} (h : isText v = false) :
    sizeOf v = pure .unspecified := by
  cases v with
  | string s => cases h
  | _ => rfl

theorem mem_scales_iff {n : Int64} :
    n = 1 ∨ n = 2 ∨ n = 4 ∨ n = 8 ↔ n.toInt ∈ [1, 2, 4, 8] := by
  simp only [List.mem_cons, List.not_mem_nil, or_false, ← Int64.toInt_inj]
  rfl

/-- A scale keeps its value. -/
theorem toNat_scale {n : Int64} (h : n.toInt ∈ [1, 2, 4, 8]) :
    ((UInt32.ofNat n.toInt.toNat).toNat : Int) = n.toInt := by
  have hbound : 0 ≤ n.toInt ∧ n.toInt < 2 ^ 32 := by
    simp only [List.mem_cons, List.not_mem_nil, or_false] at h
    omega
  have hlt : n.toInt.toNat < UInt32.size := by
    change n.toInt.toNat < 2 ^ 32
    omega
  rw [UInt32.toNat_ofNat_of_lt' hlt]
  omega

theorem scaleOf_eq_pure_iff {v : Value} {x : UInt32} :
    scaleOf v = pure x ↔ ∃ n, v = .int n ∧ n.toInt ∈ [1, 2, 4, 8] ∧ (x.toNat : Int) = n.toInt := by
  cases v with
  | int n =>
    have hload : scaleOf (.int n) = pure x ↔ _ := ite_fault_eq_pure_iff
    rw [hload, mem_scales_iff]
    constructor
    · rintro ⟨hn, rfl⟩
      exact ⟨n, rfl, hn, toNat_scale hn⟩
    · rintro ⟨n', hn', hn, hx⟩
      cases hn'
      have hsame := toNat_scale hn
      exact ⟨hn, UInt32.toNat_inj.1 (by omega)⟩
  | _ =>
    refine ⟨fun h => (fault_ne_pure h).elim, ?_⟩
    rintro ⟨n, hn, -⟩
    cases hn

/-- A displacement keeps its value. -/
theorem toInt_disp {n : Int64} (hlo : -2 ^ 31 ≤ n.toInt) (hhi : n.toInt ≤ 2 ^ 31 - 1) :
    (Int32.ofInt n.toInt).toInt = n.toInt :=
  Int32.toInt_ofInt_of_le (by omega) (by omega)

theorem dispOf_eq_pure_iff {v : Value} {x : Int32} :
    dispOf v = pure x ↔
      ∃ n, v = .int n ∧ (-2 ^ 31 ≤ n.toInt ∧ n.toInt ≤ 2 ^ 31 - 1) ∧ x.toInt = n.toInt := by
  have hmin : Int32.minValue.toInt = -2 ^ 31 := by decide
  have hmax : Int32.maxValue.toInt = 2 ^ 31 - 1 := by decide
  cases v with
  | int n =>
    have hload : dispOf (.int n) = pure x ↔ _ := ite_fault_eq_pure_iff
    rw [hload, hmin, hmax]
    constructor
    · rintro ⟨hn, rfl⟩
      exact ⟨n, rfl, hn, toInt_disp hn.1 hn.2⟩
    · rintro ⟨n', hn', hn, hx⟩
      cases hn'
      exact ⟨hn, Int32.toInt_inj.1 ((toInt_disp hn.1 hn.2).trans hx.symm)⟩
  | _ =>
    refine ⟨fun h => (fault_ne_pure h).elim, ?_⟩
    rintro ⟨n, hn, -⟩
    cases hn

/-! ### What is loaded -/

theorem not_isUntypedSize_of_grammar {name : Text} {v : Value} (h : FieldGrammar name v) :
    isUntypedSize (name, v) = false := by
  cases h <;> rfl

/-- **What is loaded** is the grammar, and sizes that are no text. -/
theorem fieldOk_iff {name : Text} {v : Value} :
    FieldOk name v ↔ FieldGrammar name v ∨ isUntypedSize (name, v) = true := by
  constructor
  · intro h
    cases h with
    | size v x h =>
      cases v with
      | string s => exact .inl (.size s x (sizeOf_string_iff.1 h))
      | _ => exact .inr rfl
    | base s => exact .inl (.base s)
    | index s => exact .inl (.index s)
    | scale v x h =>
      obtain ⟨n, rfl, hn, -⟩ := scaleOf_eq_pure_iff.1 h
      exact .inl (.scale n hn)
    | disp v x h =>
      obtain ⟨n, rfl, ⟨hlo, hhi⟩, -⟩ := dispOf_eq_pure_iff.1 h
      exact .inl (.disp n hlo hhi)
  · rintro (h | h)
    · cases h with
      | size s x h => exact .size _ x (sizeOf_string_iff.2 h)
      | base s => exact .base s
      | index s => exact .index s
      | scale n h =>
        exact .scale _ _ (scaleOf_eq_pure_iff.2 ⟨n, rfl, h, toNat_scale h⟩)
      | disp n hlo hhi =>
        exact .disp _ _ (dispOf_eq_pure_iff.2 ⟨n, rfl, ⟨hlo, hhi⟩, toInt_disp hlo hhi⟩)
    · obtain ⟨hname, hv⟩ : name = "size" ∧ isText v = false := by
        simpa [isUntypedSize] using h
      exact hname ▸ .size v _ (sizeOf_of_not_isText hv)

section

variable {t₀ t : NameTable} {fields fields' : List (Text × Value)} {m : AddressTemplate}

/-- What a field says does not depend on the other fields. -/
theorem Field.congr {name : Text} {P : Value → Prop} {Q : Prop} (h : Field fields name P Q)
    (hmem : ∀ v, (name, v) ∈ fields ↔ (name, v) ∈ fields') : Field fields' name P Q := by
  refine ⟨fun v hv => h.present v ((hmem v).2 hv), fun hnone => h.absent fun hname => hnone ?_⟩
  obtain ⟨⟨_, v⟩, hv, rfl⟩ := List.mem_map.1 hname
  exact List.mem_map_of_mem ((hmem v).1 hv)

/-- A loaded operand holds what the fields say, but for a size that is no text. -/
theorem Described.written (h : Described t₀ t fields.reverse m) :
    Written t (fields.filter fun e => !isUntypedSize e) m := by
  have hother : ∀ {name : Text}, name ≠ "size" → ∀ v : Value,
      (name, v) ∈ fields.reverse ↔ (name, v) ∈ fields.filter fun e => !isUntypedSize e := by
    intro name hname v
    simp [isUntypedSize, hname]
  refine ⟨⟨fun v hv => ?_, fun hnone => ?_⟩, h.base.congr (hother (by decide)),
    h.index.congr (hother (by decide)),
    (h.scale.imp fun v hv => ?_).congr (hother (by decide)),
    (h.disp.imp fun v hv => ?_).congr (hother (by decide))⟩
  · obtain ⟨hv, htext⟩ := List.mem_filter.1 hv
    cases v with
    | string s => exact ⟨s, rfl, sizeOf_string_iff.1 (h.size.present _ (List.mem_reverse.2 hv))⟩
    | _ => cases htext
  · by_cases hname : Text.ofString "size" ∈ fields.reverse.map Prod.fst
    · -- the size that is there has been left out, so it is no text
      obtain ⟨⟨_, v⟩, hv, rfl⟩ := List.mem_map.1 hname
      have htext : isText v = false := by
        by_contra htext
        refine hnone (List.mem_map.2 ⟨_, List.mem_filter.2 ⟨List.mem_reverse.1 hv, ?_⟩, rfl⟩)
        simpa [isUntypedSize] using htext
      exact pure_injective ((h.size.present v hv).symm.trans (sizeOf_of_not_isText htext))
    · exact h.size.absent hname
  · obtain ⟨n, rfl, -, hn⟩ := scaleOf_eq_pure_iff.1 hv
    exact ⟨n, rfl, hn⟩
  · obtain ⟨d, hd, hload⟩ := hv
    obtain ⟨n, rfl, -, hn⟩ := dispOf_eq_pure_iff.1 hload
    exact ⟨n, d, rfl, hd, hn⟩

end

/-- Loading keeps to the grammar: it gives the operand that the fields say when all of them are in
the grammar, and is a fault of the document otherwise. -/
structure KeepsGrammar (fields : List (Text × Value)) (t : NameTable) : Prop where
  /-- What is in the grammar is loaded as it is written. -/
  loaded : (∀ e ∈ fields, FieldGrammar e.1 e.2) →
    ∃ m t', templateOperand (.record fields) t = .ok (some (.indirect m), t') ∧ Written t' fields m
  /-- Anything else is refused. -/
  refused : (¬ ∀ e ∈ fields, FieldGrammar e.1 e.2) →
    ∃ err, templateOperand (.record fields) t = .error err ∧ err.cause.kind = .badSyntax

/-- **The grammar of memory operands.** Loading keeps to the grammar unless there is a size that is
no text and nothing else is wrong. In that case too an operand is loaded: it holds what the other
fields say, and has no size. -/
theorem templateOperand_record_grammar {fields : List (Text × Value)}
    (hnodup : (fields.map Prod.fst).Nodup) (t : NameTable) :
    (KeepsGrammar fields t ↔
      ((∃ e ∈ fields, isUntypedSize e = true) →
        ∃ e ∈ fields, ¬FieldGrammar e.1 e.2 ∧ isUntypedSize e = false)) ∧
    ((∀ e ∈ fields, FieldGrammar e.1 e.2 ∨ isUntypedSize e = true) →
      ∃ m t', templateOperand (.record fields) t = .ok (some (.indirect m), t') ∧
        Written t' (fields.filter fun e => !isUntypedSize e) m) := by
  have hload : (∀ e ∈ fields, FieldGrammar e.1 e.2 ∨ isUntypedSize e = true) →
      ∃ m t', templateOperand (.record fields) t = .ok (some (.indirect m), t') ∧
        Written t' (fields.filter fun e => !isUntypedSize e) m := by
    intro hall
    have hok : ∀ e ∈ fields, FieldOk e.1 e.2 := fun e he => fieldOk_iff.2 (hall e he)
    obtain ⟨m, t', hrun, hm⟩ := templateOperand_record_ok hok hnodup t
    exact ⟨m, t', hrun, hm.written⟩
  refine ⟨⟨fun h hsize => ?_, fun h => ⟨fun hall => ?_, fun hnot => ?_⟩⟩, hload⟩
  · -- with nothing else wrong an operand is loaded, though the size is not in the grammar
    by_contra hothers
    have hall : ∀ e ∈ fields, FieldGrammar e.1 e.2 ∨ isUntypedSize e = true := by
      intro e he
      by_contra hbad
      rw [not_or, Bool.not_eq_true] at hbad
      exact hothers ⟨e, he, hbad⟩
    obtain ⟨m, t', hrun, -⟩ := hload hall
    have hnot : ¬ ∀ e ∈ fields, FieldGrammar e.1 e.2 := by
      intro hgrammar
      obtain ⟨e, he, hsize⟩ := hsize
      cases (not_isUntypedSize_of_grammar (hgrammar e he)).symm.trans hsize
    obtain ⟨err, herr, -⟩ := h.refused hnot
    cases hrun.symm.trans herr
  · obtain ⟨m, t', hrun, hm⟩ := hload fun e he => .inl (hall e he)
    have htyped : (fields.filter fun e => !isUntypedSize e) = fields :=
      List.filter_eq_self.2 fun e he => by simp [not_isUntypedSize_of_grammar (hall e he)]
    exact ⟨m, t', hrun, htyped ▸ hm⟩
  · refine templateOperand_record_error (fun hok => ?_) t
    have hall : ∀ e ∈ fields, FieldGrammar e.1 e.2 ∨ isUntypedSize e = true :=
      fun e he => fieldOk_iff.1 (hok e he)
    have hsize : ∃ e ∈ fields, isUntypedSize e = true := by
      by_contra hnone
      exact hnot fun e he => (hall e he).resolve_right fun hsize => hnone ⟨e, he, hsize⟩
    obtain ⟨e, he, hbad, htyped⟩ := h hsize
    rcases hall e he with hgrammar | hsize
    · exact hbad hgrammar
    · cases htyped.symm.trans hsize

end Load

namespace Sample

/-- All five fields, with the least displacement. -/
def fullAddress : List (Text × Yaml.Value) :=
  [("size", .string "qword"), ("base", .string "$p"), ("index", .string "%i"), ("scale", .int 8),
    ("disp", .int (-2147483648))]

/-- A number in the place of a size. -/
def numberForSize : List (Text × Yaml.Value) := [("size", .int 5), ("base", .string "rbp")]

theorem templateOperand_record_grammar_sizes :
    Load.KeepsGrammar fullAddress .empty ∧
      ∃ m t, Load.templateOperand (.record numberForSize) .empty = .ok (some (.indirect m), t) ∧
        Load.Written t [("base", .string "rbp")] m := by
  constructor
  · refine (Load.templateOperand_record_grammar (by decide) .empty).1.2 ?_
    rintro ⟨e, he, hsize⟩
    have htyped : ∀ e ∈ fullAddress, Load.isUntypedSize e = false := by decide
    cases (htyped e he).symm.trans hsize
  · refine (Load.templateOperand_record_grammar (by decide) .empty).2 ?_
    rintro e (_ | ⟨_, _ | ⟨_, he⟩⟩)
    · exact .inr rfl
    · exact .inl (.base "rbp")
    · cases he

/-- A number in the place of a size is not refused. -/
theorem not_keepsGrammar_numberForSize : ¬Load.KeepsGrammar numberForSize .empty := by
  intro h
  have hnot : ¬ ∀ e ∈ numberForSize, Load.FieldGrammar e.1 e.2 := by
    intro hall
    have hsize := Load.not_isUntypedSize_of_grammar (hall ("size", .int 5) List.mem_cons_self)
    cases hsize
  obtain ⟨err, herr, -⟩ := h.refused hnot
  obtain ⟨m, t, hrun⟩ : ∃ m t, Load.templateOperand (.record numberForSize) .empty = .ok (m, t) :=
    ⟨_, _, rfl⟩
  cases hrun.symm.trans herr

end Sample

end CodeTiling
