import CodeTiling.Code.Text
import CodeTiling.Load.Rules
import CodeTiling.Proofs.Decimals
import CodeTiling.Proofs.Expanded

/-!
# Literals are written as they stand

A literal of a template is a text. It becomes a number when it is the decimal form of one that fits
64 bits and a symbol otherwise, and either way it is written as it stands in the rule. A number of a
document is loaded as the literal of its decimal form, so that it becomes that number again.

* `literalOperand_eq_imm_iff` and `literalOperand_eq_addr` : what a literal becomes;
* `text?_literalOperand` : how it is written;
* `Load.templateOperand_int_run` and `expandOperand_literal` : loading a number, and expanding the
  operand that it is loaded as;
* `literalOperand_verbatim` : all of these together.
-/

namespace CodeTiling

variable {t : NameTable} {n : Name} {s : Text}

/-- A literal becomes a number exactly when it is its decimal form. -/
theorem literalOperand_eq_imm_iff {v : Int64} :
    literalOperand s n = .imm v ↔ s.Canonical v.toInt := by
  rw [Text.canonical_iff, ← canonicalImm?_eq_some_iff]
  unfold literalOperand
  cases canonicalImm? s with
  | some w => simp
  | none => simp

/-- A literal that is no decimal form of a number of 64 bits stays a text. -/
theorem literalOperand_eq_addr
    (h : ¬ ∃ z : Int, -2 ^ 63 ≤ z ∧ z ≤ 2 ^ 63 - 1 ∧ s.Canonical z) :
    literalOperand s n = .addr n := by
  have hnone : canonicalImm? s = none := by
    refine Option.eq_none_iff_forall_ne_some.2 fun v hv => h ⟨v.toInt, v.le_toInt, ?_, ?_⟩
    · have := v.toInt_lt
      omega
    · exact Text.canonical_iff.2 (canonicalImm?_eq_some_iff.1 hv)
  rw [literalOperand, hnone]

/-- A literal is written as it stands. -/
theorem text?_literalOperand (hn : t.text? n = some s) :
    (literalOperand s n).text? t = some s := by
  unfold literalOperand
  split
  · rename_i v hv
    rw [canonicalImm?_eq_some_iff.1 hv]
    rfl
  · have hissued : t.isIssued n = true := NameTable.isIssued_iff.2 ⟨s, hn⟩
    simp [Code.Operand.text?, Code.Operand.names, Code.Operand.text, hissued, NameTable.text_eq hn]

/-- A number of a document is loaded as the literal of its decimal form. -/
theorem Load.templateOperand_int_run (k : Int64) (t : NameTable) :
    ∃ n t', Load.templateOperand (.int k) t = .ok (some (.atom (.literal n)), t') ∧
      t'.text? n = some (.decimal k.toInt) :=
  ⟨_, _, rfl, NameTable.text?_intern t _⟩

/-- A literal is expanded to its operand, and no name is issued. -/
theorem expandOperand_literal {b : Bindings} {x : Expansion} (hx : t ≤ x.naming.table)
    (hn : t.text? n = some s) :
    expandOperand b (some (.atom (.literal n))) x = (.ok (literalOperand s n), x) := by
  have htext : textOf n x = (.ok s, x) := by
    rw [textOf_run hx (NameTable.isIssued_iff.2 ⟨s, hn⟩), NameTable.text_eq hn]
  rw [expandOperand, expandAtom, Run.bind_ok htext]
  rfl

/-- **Literals are written as they stand.** A literal is written as its text. It is a number exactly
when the text is the decimal form of that number, and a symbol when it is that of no number of 64
bits. A number of a document is loaded as an operand that is expanded to this number, whatever has
been loaded and issued in between. -/
theorem literalOperand_verbatim (hn : t.text? n = some s) :
    (literalOperand s n).text? t = some s ∧
    (∀ v : Int64, literalOperand s n = .imm v ↔ s.Canonical v.toInt) ∧
    ((¬ ∃ z : Int, -2 ^ 63 ≤ z ∧ z ≤ 2 ^ 63 - 1 ∧ s.Canonical z) →
      literalOperand s n = .addr n) ∧
    ∀ (k : Int64) (t₀ : NameTable), ∃ o t₁, Load.templateOperand (.int k) t₀ = .ok (o, t₁) ∧
      ∀ (b : Bindings) (x : Expansion), t₁ ≤ x.naming.table →
        expandOperand b o x = (.ok (.imm k), x) := by
  refine ⟨text?_literalOperand hn, fun v => literalOperand_eq_imm_iff, literalOperand_eq_addr,
    fun k t₀ => ?_⟩
  obtain ⟨m, t₁, hload, hm⟩ := Load.templateOperand_int_run k t₀
  refine ⟨_, t₁, hload, fun b x hx => ?_⟩
  rw [expandOperand_literal hx hm, literalOperand_eq_imm_iff.2 (Text.canonical_decimal _)]

namespace Sample

/-- The least number of 64 bits. -/
def leastNumber : Text := "-9223372036854775808"

/-- The first number that does not fit 64 bits. -/
def firstTooLarge : Text := "9223372036854775808"

/-- A table with both. -/
def numberTable : NameTable := .ofTexts ["", leastNumber, firstTooLarge] (by decide) rfl

theorem literalOperand_verbatim_limits :
    literalOperand leastNumber ⟨1⟩ = .imm Int64.minValue ∧
      (literalOperand leastNumber ⟨1⟩).text? numberTable = some leastNumber ∧
      literalOperand firstTooLarge ⟨2⟩ = .addr ⟨2⟩ ∧
      (literalOperand firstTooLarge ⟨2⟩).text? numberTable = some firstTooLarge := by
  have hleast := literalOperand_verbatim (t := numberTable) (n := ⟨1⟩) (s := leastNumber) rfl
  have hlarge := literalOperand_verbatim (t := numberTable) (n := ⟨2⟩) (s := firstTooLarge) rfl
  refine ⟨(hleast.2.1 _).2 (Text.canonical_iff.2 (by decide)), hleast.1, hlarge.2.2.1 ?_, hlarge.1⟩
  rintro ⟨z, -, hz, hform⟩
  have hvalue : z = 2 ^ 63 := hform.unique (Text.canonical_iff.2 (by decide))
  omega

end Sample

end CodeTiling
