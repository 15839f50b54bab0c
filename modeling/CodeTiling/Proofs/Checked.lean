import CodeTiling.Proofs.Run
import CodeTiling.Rule.Check
import Mathlib.Data.List.Basic

/-!
# Rules that pass the check

`Rule.check` reads a rule from left to right and stops at the first mistake. Here the meaning of
passing it is said without the reading: `AtomOk`, `AddressOk`, `OperandOk` and `LineOk` say when an
operand or a line of a template is in order, given the kinds of the pattern's names and the new
registers further left, and `Rule.Accepted` says it of a whole rule.

* `bindElements_ok` : the kinds that the pattern check hands on are exactly those of the
  bindings of its elements;
* `Rule.accepted_of_check` : a rule that passes the check is accepted.
-/

namespace CodeTiling

/-! ### Reading order -/

namespace Atom

/-- The new register that an operand without parts stands for. -/
def freshNames : Atom → List Name
  | fresh n => [n]
  | _ => []

/-- The names in an operand without parts. -/
def names : Atom → List Name
  | machine _ => []
  | fresh n => [n]
  | ref n => [n]
  | literal n => [n]
  | label n => [n]

end Atom

/-- The operands without parts in a register of a memory operand. -/
def termAtoms : Option AddressTerm → List Atom
  | some (.atom a) => [a]
  | _ => []

/-- The operands without parts in an operand, base before index. -/
def operandAtoms : Option TemplateOperand → List Atom
  | none => []
  | some (.atom a) => [a]
  | some (.indirect m) => termAtoms m.base ++ termAtoms m.index

/-- The operands without parts in a line. -/
def TemplateLine.atoms (l : TemplateLine) : List Atom := l.args.flatMap operandAtoms

namespace Rule

variable (r : Rule)

/-- The operands without parts in a template. -/
def atoms : List Atom := r.template.flatMap TemplateLine.atoms

/-- The new registers of a template in reading order, with repetitions. -/
def freshNames : List Name := r.atoms.flatMap Atom.freshNames

/-- The names in a rule: of the pattern, the mnemonics and the operands. -/
def names : List Name :=
  r.pattern.elements.flatten.map (·.name) ++ r.template.map (·.mnemonic) ++
    r.atoms.flatMap Atom.names

end Rule

/-- The new registers after some operands, when `fresh` are those before them. -/
def addFresh (fresh : List Name) (as : List Atom) : List Name :=
  as.foldl (fun acc a => a.freshNames ++ acc) fresh

theorem addFresh_append (fresh : List Name) (as bs : List Atom) :
    addFresh fresh (as ++ bs) = addFresh (addFresh fresh as) bs := by
  simp [addFresh]

theorem mem_addFresh {fresh : List Name} {as : List Atom} {n : Name} :
    n ∈ addFresh fresh as ↔ n ∈ fresh ∨ n ∈ as.flatMap Atom.freshNames := by
  induction as generalizing fresh with
  | nil => simp [addFresh]
  | cons a as ih =>
    have h := @ih (a.freshNames ++ fresh)
    simp only [addFresh, List.foldl_cons, List.flatMap_cons, List.mem_append] at h ⊢
    rw [h]; tauto

/-! ### Operands and lines in order -/

section

variable (bound : List Binding)

/-- An operand without parts is in order after the new registers `fresh`; the flag says whether
it is a register. -/
inductive AtomOk (fresh : List Name) : Atom → Bool → Prop
  | machine {r : MachineReg} (valid : r.isValid = true) : AtomOk fresh (.machine r) true
  | fresh {n : Name} (unbound : kindOf? bound n = none) : AtomOk fresh (.fresh n) true
  | refFresh {n : Name} (earlier : n ∈ fresh) : AtomOk fresh (.ref n) true
  | refBound {n : Name} {k : BindKind} {isReg : Bool} (other : n ∉ fresh)
      (kind : kindOf? bound n = some k) (noLabel : k ≠ .label)
      (register : isReg = true ↔ k = .register) : AtomOk fresh (.ref n) isReg
  | literal {n : Name} : AtomOk fresh (.literal n) false
  | label {n : Name} (kind : kindOf? bound n = some .label) : AtomOk fresh (.label n) false

/-- A register of a memory operand is absent or in order. -/
def TermOk (fresh : List Name) : Option AddressTerm → Prop
  | none => True
  | some .nested => False
  | some (.atom a) => AtomOk bound fresh a true

/-- A memory operand is in order. -/
structure AddressOk (fresh : List Name) (m : AddressTemplate) : Prop where
  /-- There is an index exactly when there is a scale. -/
  scaled : m.index.isSome = true ↔ m.scale ≠ 0
  /-- The base is in order. -/
  base : TermOk bound fresh m.base
  /-- The index is in order; it may refer to a new register in the base. -/
  index : TermOk bound (addFresh fresh (termAtoms m.base)) m.index

/-- An operand is in order. An argument list has to stand alone. -/
def OperandOk (alone : Bool) (fresh : List Name) : Option TemplateOperand → Prop
  | none => False
  | some (.atom a) =>
    (∃ isReg, AtomOk bound fresh a isReg) ∧ (isListRef bound a = true → alone = true)
  | some (.indirect m) => AddressOk bound fresh m

/-- Operands are in order, one after another. -/
def OperandsOk (alone : Bool) : List Name → List (Option TemplateOperand) → Prop
  | _, [] => True
  | fresh, a :: as =>
    OperandOk bound alone fresh a ∧ OperandsOk alone (addFresh fresh (operandAtoms a)) as

/-- A line is in order. -/
structure LineOk (t : NameTable) (fresh : List Name) (l : TemplateLine) : Prop where
  /-- The mnemonic is known. -/
  mnemonic : ∃ m, Mnemonic.ofText? (t.text l.mnemonic) = some m
  /-- The operands are in order. -/
  operands : OperandsOk bound (l.args.length = 1) fresh l.args

/-- Lines are in order, one after another. -/
def LinesOk (t : NameTable) : List Name → List TemplateLine → Prop
  | _, [] => True
  | fresh, l :: ls => LineOk bound t fresh l ∧ LinesOk t (addFresh fresh l.atoms) ls

end

variable {t : NameTable} {bound bound' : List Binding} {fresh fresh' : List Name}

theorem checkAtom_ok_iff {a : Atom} {isReg : Bool} :
    checkAtom t bound fresh a = .ok (isReg, fresh') ↔
      AtomOk bound fresh a isReg ∧ fresh' = addFresh fresh [a] := by
  constructor
  · intro h
    cases a with
    | machine r =>
      simp only [checkAtom] at h
      split at h <;> simp only [reduceCtorEq, Except.ok.injEq, Prod.mk.injEq] at h
      obtain ⟨rfl, rfl⟩ := h
      exact ⟨.machine ‹_›, rfl⟩
    | fresh n =>
      simp only [checkAtom] at h
      split at h <;> simp only [reduceCtorEq, Except.ok.injEq, Prod.mk.injEq] at h
      obtain ⟨rfl, rfl⟩ := h
      exact ⟨.fresh (Option.not_isSome_iff_eq_none.1 ‹_›), rfl⟩
    | ref n =>
      simp only [checkAtom] at h
      split at h
      · simp only [Except.ok.injEq, Prod.mk.injEq] at h
        obtain ⟨rfl, rfl⟩ := h
        exact ⟨.refFresh ‹_›, rfl⟩
      · split at h <;> simp only [reduceCtorEq, Except.ok.injEq, Prod.mk.injEq] at h
        obtain ⟨rfl, rfl⟩ := h
        exact ⟨.refBound ‹_› ‹_› (by rintro rfl; simp_all) (by simp), rfl⟩
    | literal n =>
      simp only [checkAtom, Except.ok.injEq, Prod.mk.injEq] at h
      obtain ⟨rfl, rfl⟩ := h
      exact ⟨.literal, rfl⟩
    | label n =>
      simp only [checkAtom] at h
      split at h <;> simp only [reduceCtorEq, Except.ok.injEq, Prod.mk.injEq] at h
      obtain ⟨rfl, rfl⟩ := h
      exact ⟨.label ‹_›, rfl⟩
  · rintro ⟨h, rfl⟩
    cases h with
    | machine hv => simp [checkAtom, hv, addFresh, Atom.freshNames]
    | fresh hu => simp [checkAtom, hu, addFresh, Atom.freshNames]
    | refFresh he => simp [checkAtom, he, addFresh, Atom.freshNames]
    | @refBound n k isReg ho hk hl hr =>
      cases k <;> cases isReg <;> simp_all [checkAtom, addFresh, Atom.freshNames]
    | literal => simp [checkAtom, addFresh, Atom.freshNames]
    | label hk => simp [checkAtom, hk, addFresh, Atom.freshNames]

/-- An operand that is a register is no argument list. -/
theorem AtomOk.not_isListRef {a : Atom} (hfresh : ∀ n ∈ fresh, kindOf? bound n = none)
    (h : AtomOk bound fresh a true) : isListRef bound a = false := by
  cases h with
  | refBound => simp_all [isListRef]
  | _ => simp_all [isListRef]

theorem checkTerm_ok_iff {part : AddressPart} {o : Option AddressTerm}
    (hfresh : ∀ n ∈ fresh, kindOf? bound n = none) :
    checkTerm t bound part fresh o = .ok fresh' ↔
      TermOk bound fresh o ∧ fresh' = addFresh fresh (termAtoms o) := by
  rcases o with - | a | -
  · simp [checkTerm, TermOk, addFresh, termAtoms, eq_comm]
  · simp only [checkTerm, TermOk, termAtoms]
    constructor
    · intro h
      split at h
      · exact absurd (Run.within_ok_iff.1 h) (by simp)
      · obtain ⟨⟨isReg, f⟩, ha, h⟩ := Run.except_bind_ok_iff.1 h
        rw [Run.within_ok_iff, checkAtom_ok_iff] at ha
        cases isReg with
        | false => simp at h
        | true =>
          obtain rfl : f = fresh' := by simpa [pure, Except.pure] using h
          exact ha
    · rintro ⟨h, rfl⟩
      rw [h.not_isListRef hfresh]
      exact Run.except_bind_ok_iff.2
        ⟨(true, _), Run.within_ok_iff.2 (checkAtom_ok_iff.2 ⟨h, rfl⟩), rfl⟩
  · simp [checkTerm, TermOk]

/-- The new registers stay apart from the names of the pattern. -/
theorem TermOk.addFresh_unbound {o : Option AddressTerm}
    (hfresh : ∀ n ∈ fresh, kindOf? bound n = none) (h : TermOk bound fresh o) :
    ∀ n ∈ addFresh fresh (termAtoms o), kindOf? bound n = none := by
  intro n hn
  rcases mem_addFresh.1 hn with hn | hn
  · exact hfresh n hn
  · rcases o with - | a | -
    · simp [termAtoms] at hn
    · cases h <;> simp_all [termAtoms, Atom.freshNames]
    · exact h.elim

theorem checkAddress_ok_iff {m : AddressTemplate}
    (hfresh : ∀ n ∈ fresh, kindOf? bound n = none) :
    checkAddress t bound fresh m = .ok fresh' ↔
      AddressOk bound fresh m ∧
        fresh' = addFresh fresh (termAtoms m.base ++ termAtoms m.index) := by
  rw [addFresh_append]
  constructor
  · intro h
    simp only [checkAddress] at h
    split at h
    · simp at h
    split at h
    · simp at h
    obtain ⟨f, hb, hi⟩ := Run.except_bind_ok_iff.1 h
    rw [checkTerm_ok_iff hfresh] at hb
    obtain ⟨hb, rfl⟩ := hb
    rw [checkTerm_ok_iff (hb.addFresh_unbound hfresh)] at hi
    refine ⟨⟨?_, hb, hi.1⟩, hi.2⟩
    cases hx : m.index <;> simp_all
  · rintro ⟨h, rfl⟩
    have hscale := h.scaled
    simp only [checkAddress]
    rw [if_neg (by cases hx : m.index <;> simp_all), if_neg (by cases hx : m.index <;> simp_all)]
    exact Run.except_bind_ok_iff.2 ⟨_, (checkTerm_ok_iff hfresh).2 ⟨h.base, rfl⟩,
      (checkTerm_ok_iff (h.base.addFresh_unbound hfresh)).2 ⟨h.index, rfl⟩⟩

theorem map_snd_ok_iff {x : Except Error (Bool × List Name)} :
    x.map Prod.snd = .ok fresh' ↔ ∃ isReg, x = .ok (isReg, fresh') := by
  rcases x with e | ⟨isReg, f⟩ <;> simp [Except.map]

theorem checkOperand_ok_iff {alone : Bool} {o : Option TemplateOperand}
    (hfresh : ∀ n ∈ fresh, kindOf? bound n = none) :
    checkOperand t bound alone fresh o = .ok fresh' ↔
      OperandOk bound alone fresh o ∧ fresh' = addFresh fresh (operandAtoms o) := by
  rcases o with - | a | m
  · simp [checkOperand, OperandOk]
  · have hatom : (checkAtom t bound fresh a).map Prod.snd = .ok fresh' ↔
        (∃ isReg, AtomOk bound fresh a isReg) ∧ fresh' = addFresh fresh [a] := by
      simp [map_snd_ok_iff, checkAtom_ok_iff]
    simp only [OperandOk, operandAtoms]
    cases a with
    | ref n =>
      simp only [checkOperand]
      split
      · simp_all
      · rw [hatom]; simp_all
    | _ => simp only [checkOperand, hatom, isListRef]; simp
  · exact checkAddress_ok_iff hfresh

/-- The new registers stay apart from the names of the pattern. -/
theorem OperandOk.addFresh_unbound {alone : Bool} {o : Option TemplateOperand}
    (hfresh : ∀ n ∈ fresh, kindOf? bound n = none) (h : OperandOk bound alone fresh o) :
    ∀ n ∈ addFresh fresh (operandAtoms o), kindOf? bound n = none := by
  rcases o with - | a | m
  · exact h.elim
  · intro n hn
    obtain ⟨⟨isReg, ha⟩, -⟩ := h
    rcases mem_addFresh.1 hn with hn | hn
    · exact hfresh n hn
    · cases ha <;> simp_all [operandAtoms, Atom.freshNames]
  · have hb := TermOk.addFresh_unbound hfresh h.base
    simp only [operandAtoms, addFresh_append]
    exact TermOk.addFresh_unbound hb h.index

theorem checkOperands_ok_iff {m : Text} {alone : Bool} {as : List (Option TemplateOperand)}
    {j : Nat} (hfresh : ∀ n ∈ fresh, kindOf? bound n = none) :
    checkOperands t bound m alone j fresh as = .ok fresh' ↔
      OperandsOk bound alone fresh as ∧ fresh' = addFresh fresh (as.flatMap operandAtoms) := by
  induction as generalizing fresh j with
  | nil => simp [checkOperands, OperandsOk, addFresh, eq_comm]
  | cons a as ih =>
    simp only [checkOperands, OperandsOk, List.flatMap_cons, addFresh_append]
    constructor
    · intro h
      obtain ⟨f, ha, h⟩ := Run.except_bind_ok_iff.1 h
      rw [Run.within_ok_iff, checkOperand_ok_iff hfresh] at ha
      obtain ⟨ha, rfl⟩ := ha
      obtain ⟨has, rfl⟩ := (ih (ha.addFresh_unbound hfresh)).1 h
      exact ⟨⟨ha, has⟩, rfl⟩
    · rintro ⟨⟨ha, has⟩, rfl⟩
      exact Run.except_bind_ok_iff.2
        ⟨_, Run.within_ok_iff.2 ((checkOperand_ok_iff hfresh).2 ⟨ha, rfl⟩),
          (ih (ha.addFresh_unbound hfresh)).2 ⟨has, rfl⟩⟩

/-- The new registers stay apart from the names of the pattern. -/
theorem OperandsOk.addFresh_unbound {alone : Bool} {as : List (Option TemplateOperand)}
    (hfresh : ∀ n ∈ fresh, kindOf? bound n = none) (h : OperandsOk bound alone fresh as) :
    ∀ n ∈ addFresh fresh (as.flatMap operandAtoms), kindOf? bound n = none := by
  induction as generalizing fresh with
  | nil => exact hfresh
  | cons a as ih =>
    rw [List.flatMap_cons, addFresh_append]
    exact ih (h.1.addFresh_unbound hfresh) h.2

theorem checkLine_ok_iff {l : TemplateLine} (hfresh : ∀ n ∈ fresh, kindOf? bound n = none) :
    checkLine t bound fresh l = .ok fresh' ↔
      LineOk bound t fresh l ∧ fresh' = addFresh fresh l.atoms := by
  have hempty : Mnemonic.ofText? .empty = none := by decide
  simp only [checkLine, TemplateLine.atoms, Run.except_bind_ok_iff, NameTable.read_ok_iff]
  constructor
  · rintro ⟨m, hm, h⟩
    have htext : t.text l.mnemonic = m := by simp [NameTable.text, hm]
    split at h
    · cases h
    · rename_i k hk
      rw [checkOperands_ok_iff hfresh] at h
      exact ⟨⟨⟨k, htext ▸ hk⟩, h.1⟩, h.2⟩
  · rintro ⟨h, rfl⟩
    obtain ⟨k, hk⟩ := h.mnemonic
    cases hm : t.text? l.mnemonic with
    | none => simp [NameTable.text, hm, hempty] at hk
    | some m =>
      have htext : t.text l.mnemonic = m := by simp [NameTable.text, hm]
      rw [htext] at hk
      refine ⟨m, rfl, ?_⟩
      rw [hk]
      exact (checkOperands_ok_iff hfresh).2 ⟨h.operands, rfl⟩

theorem LineOk.addFresh_unbound {l : TemplateLine} (hfresh : ∀ n ∈ fresh, kindOf? bound n = none)
    (h : LineOk bound t fresh l) : ∀ n ∈ addFresh fresh l.atoms, kindOf? bound n = none :=
  h.operands.addFresh_unbound hfresh

theorem LinesOk.addFresh_unbound {ls : List TemplateLine}
    (hfresh : ∀ n ∈ fresh, kindOf? bound n = none) (h : LinesOk bound t fresh ls) :
    ∀ n ∈ addFresh fresh (ls.flatMap TemplateLine.atoms), kindOf? bound n = none := by
  induction ls generalizing fresh with
  | nil => exact hfresh
  | cons l ls ih =>
    rw [List.flatMap_cons, addFresh_append]
    exact ih (h.1.addFresh_unbound hfresh) h.2

theorem checkLines_ok_iff {ls : List TemplateLine} {i : Nat}
    (hfresh : ∀ n ∈ fresh, kindOf? bound n = none) :
    checkLines t bound i fresh ls = .ok () ↔ LinesOk bound t fresh ls := by
  induction ls generalizing fresh i with
  | nil => simp [checkLines, LinesOk]
  | cons l ls ih =>
    simp only [checkLines, LinesOk]
    constructor
    · intro h
      obtain ⟨f, hl, h⟩ := Run.except_bind_ok_iff.1 h
      rw [Run.within_ok_iff, checkLine_ok_iff hfresh] at hl
      obtain ⟨hl, rfl⟩ := hl
      exact ⟨hl, (ih (hl.addFresh_unbound hfresh)).1 h⟩
    · rintro ⟨hl, hls⟩
      exact Run.except_bind_ok_iff.2
        ⟨_, Run.within_ok_iff.2 ((checkLine_ok_iff hfresh).2 ⟨hl, rfl⟩),
          (ih (hl.addFresh_unbound hfresh)).2 hls⟩

/-! ### Patterns -/

theorem kindOf?_append_singleton (bound : List Binding) (b : Binding) (n : Name) :
    kindOf? (bound ++ [b]) n =
      if b.name = n then some ((kindOf? bound n).getD b.kind) else kindOf? bound n := by
  simp only [kindOf?, List.find?_append, List.find?_singleton]
  cases hf : bound.find? (·.name = n) with
  | some c => simp
  | none => by_cases hb : b.name = n <;> simp [hb]

theorem bindElement_ok {here : List Name} {e : List Binding}
    (h : bindElement t here bound e = .ok bound') {n : Name} {k : BindKind} :
    kindOf? bound' n = some k ↔ kindOf? bound n = some k ∨ ⟨n, k⟩ ∈ e := by
  induction e generalizing here bound with
  | nil =>
    obtain rfl : bound = bound' := by simpa [bindElement] using h
    simp
  | cons b e ih =>
    simp only [bindElement] at h
    split at h
    · simp at h
    split at h
    · rename_i hnone
      rw [ih h, kindOf?_append_singleton, List.mem_cons]
      by_cases hb : b.name = n
      · subst hb
        cases b
        simp [hnone, eq_comm]
      · have : (⟨n, k⟩ : Binding) ≠ b := by rintro rfl; exact hb rfl
        simp [hb, this]
    · rename_i k' hsome
      split at h
      · rename_i hk
        rw [ih h, List.mem_cons]
        constructor
        · rintro (h | h)
          · exact .inl h
          · exact .inr (.inr h)
        · rintro (h | rfl | h)
          · exact .inl h
          · exact .inl (by rw [hsome, hk])
          · exact .inr h
      · simp at h

theorem bindElements_ok {es : List (List Binding)} {i : Nat}
    (h : bindElements t i bound es = .ok bound') {n : Name} {k : BindKind} :
    kindOf? bound' n = some k ↔ kindOf? bound n = some k ∨ ⟨n, k⟩ ∈ es.flatten := by
  induction es generalizing i bound with
  | nil =>
    obtain rfl : bound = bound' := by simpa [bindElements] using h
    simp
  | cons e es ih =>
    obtain ⟨b, he, h⟩ := Run.except_bind_ok_iff.1 h
    rw [ih h, bindElement_ok (Run.within_ok_iff.1 he), List.flatten_cons, List.mem_append, or_assoc]

theorem checkOps_ok {ps : List (Option InstrPattern)} {i : Nat} (h : checkOps i ps = .ok ()) :
    ∀ p ∈ ps, p.isSome = true := by
  induction ps generalizing i with
  | nil => simp
  | cons p ps ih =>
    obtain ⟨⟨⟩, hp, h⟩ := Run.except_bind_ok_iff.1 h
    intro q hq
    rcases List.mem_cons.1 hq with rfl | hq
    · cases q with
      | none => cases Run.within_ok_iff.1 hp
      | some p => rfl
    · exact ih h q hq

/-- What passing the check means: `bound` has the kinds of the pattern's names. -/
structure Rule.Accepted (t : NameTable) (r : Rule) (bound : List Binding) : Prop where
  /-- No element of the pattern is missing. -/
  complete : ∀ p ∈ r.pattern.code, p.isSome = true
  /-- The pattern has an element or a terminator. -/
  nonempty : r.pattern.code ≠ [] ∨ r.pattern.last ≠ none
  /-- The kinds are those of the pattern's bindings. -/
  kinds : ∀ {n k}, kindOf? bound n = some k ↔ ⟨n, k⟩ ∈ r.pattern.elements.flatten
  /-- The lines of the template are in order. -/
  lines : LinesOk bound t [] r.template

theorem Rule.accepted_of_check {r : Rule} (h : r.check t = .ok ()) :
    ∃ bound, r.Accepted t bound := by
  obtain ⟨bound, hp, hl⟩ := Run.except_bind_ok_iff.1 h
  rw [Run.within_ok_iff, Pattern.check] at hp
  split at hp
  · simp at hp
  rename_i hne
  obtain ⟨⟨⟩, hops, hb⟩ := Run.except_bind_ok_iff.1 hp
  refine ⟨bound, checkOps_ok hops, ?_, ?_, (checkLines_ok_iff (by simp)).1 hl⟩
  · simp only [List.isEmpty_iff, Option.isNone_iff_eq_none] at hne
    exact Decidable.not_and_iff_or_not.1 hne
  · intro n k
    rw [bindElements_ok hb]
    simp [kindOf?]

end CodeTiling
