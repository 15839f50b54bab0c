import CodeTiling.Proofs.Checked
import Mathlib.Data.List.Nodup

/-!
# The check accepts exactly the well-formed rules

`Rule.check` reads a rule from left to right, keeps two records while it reads, and stops at the
first mistake. What makes a rule well-formed can be said without any of that: `Pattern.WellFormed`
and `Rule.WellFormed` have a clause for each thing that is asked of a rule, over the bindings of its
pattern and the list of its operands in reading order.

The way from one to the other has two halves.

* `Pattern.exists_check_iff` : the record of kinds can be kept to the end exactly when names within
  an element are different and no name has two kinds;
* `linesOk_iff` : lines in order, one after another, are lines of the right shape (`LineShape`)
  whose operands are in order in reading order (`AtomsOk`);
* `Rule.check_iff_wellFormed` : a rule passes the check exactly when it is well-formed.
-/

namespace CodeTiling

/-! ### Well-formed rules -/

/-- The operation of a pattern is one that the pattern takes. -/
def InstrPattern.OpFits : InstrPattern → Prop
  | .binary op .. => op.isBinary = true
  | .unary op .. => op.isUnary = true
  | _ => True

namespace Pattern

variable (p : Pattern)

/-- Some occurrence of the name in the pattern stands for a thing of the kind. -/
def Binds (n : Name) (k : BindKind) : Prop := ⟨n, k⟩ ∈ p.elements.flatten

/-- What is asked of a pattern. -/
structure WellFormed : Prop where
  /-- It has an element or a terminator. -/
  nonempty : p.code ≠ [] ∨ p.last ≠ none
  /-- No element is missing, and the operation of each fits. -/
  fits : ∀ x ∈ p.code, ∃ q, x = some q ∧ q.OpFits
  /-- The names within one element, or the terminator, are different. -/
  distinct : ∀ e ∈ p.elements, (e.map Binding.name).Nodup
  /-- A name has the same kind at all its occurrences. -/
  consistent : ∀ n k k', p.Binds n k → p.Binds n k' → k = k'

end Pattern

namespace Rule

variable (r : Rule)

/-- The operand has the shape of a register. -/
inductive RegisterShaped : Atom → Prop
  /-- A register of the machine. -/
  | machine (x : MachineReg) : RegisterShaped (.machine x)
  /-- A new register. -/
  | fresh (n : Name) : RegisterShaped (.fresh n)
  /-- A reference to a register of the pattern. -/
  | bound {n : Name} (h : r.pattern.Binds n .register) : RegisterShaped (.ref n)
  /-- A reference to a new register. -/
  | new {n : Name} (h : .fresh n ∈ r.atoms) : RegisterShaped (.ref n)

/-- A base or an index is absent or has the shape of a register. -/
def TermWellFormed (o : Option AddressTerm) : Prop :=
  ∀ x, o = some x → ∃ a, x = .atom a ∧ r.RegisterShaped a

/-- What is asked of a memory operand. -/
structure AddressWellFormed (m : AddressTemplate) : Prop where
  /-- There is a scale exactly when there is an index. -/
  scaled : m.scale ≠ 0 ↔ m.index.isSome = true
  /-- The base is absent or a register. -/
  base : r.TermWellFormed m.base
  /-- The index is absent or a register. -/
  index : r.TermWellFormed m.index

/-- What is asked of each line of a template. -/
structure LineWellFormed (t : NameTable) (l : TemplateLine) : Prop where
  /-- The mnemonic is known. -/
  mnemonic : ∃ s m, t.text? l.mnemonic = some s ∧ Mnemonic.ofText? s = some m
  /-- No operand is missing. -/
  operands : none ∉ l.args
  /-- A reference to an argument list is the only operand, and not part of a memory operand. -/
  lists : ∀ n, .ref n ∈ l.atoms → r.pattern.Binds n .arguments → l.args = [some (.atom (.ref n))]
  /-- Every memory operand is well-formed. -/
  addresses : ∀ m, some (.indirect m) ∈ l.args → r.AddressWellFormed m

/-- What is asked of a rule. `Rule.atoms` has the operands of the template in reading order, base
before index. -/
structure WellFormed (t : NameTable) : Prop where
  /-- The pattern is well-formed. -/
  pattern : r.pattern.WellFormed
  /-- Every line of the template is well-formed. -/
  lines : ∀ l ∈ r.template, r.LineWellFormed t l
  /-- Every machine register is valid. -/
  machines : ∀ x, .machine x ∈ r.atoms → x.isValid = true
  /-- No new register has the name of something in the pattern. -/
  news : ∀ n k, .fresh n ∈ r.atoms → ¬r.pattern.Binds n k
  /-- A reference is to something in the pattern that is no label, or to a new register that occurs
  before it. -/
  refs : ∀ before n after, r.atoms = before ++ .ref n :: after →
    (∃ k, r.pattern.Binds n k ∧ k ≠ .label) ∨ .fresh n ∈ before
  /-- A label is one of the pattern. -/
  labels : ∀ n, .label n ∈ r.atoms → r.pattern.Binds n .label

end Rule

/-! ### Patterns -/

section

variable {t : NameTable} {bound : List Binding}

/-- The bindings give no name another kind than `bound` does. -/
def AgreesOn (bound bs : List Binding) : Prop :=
  ∀ b ∈ bs, ∀ k, kindOf? bound b.name = some k → k = b.kind

/-- The bindings give no name two kinds. -/
def Consistent (bs : List Binding) : Prop :=
  ∀ b ∈ bs, ∀ c ∈ bs, b.name = c.name → b.kind = c.kind

theorem checkOp_ok_iff {x : Option InstrPattern} :
    checkOp x = .ok () ↔ ∃ q, x = some q ∧ q.OpFits := by
  rcases x with - | q
  · simp [checkOp]
  · cases q <;> simp [checkOp, InstrPattern.OpFits]

theorem checkOps_ok_iff {ps : List (Option InstrPattern)} {i : Nat} :
    checkOps i ps = .ok () ↔ ∀ x ∈ ps, ∃ q, x = some q ∧ q.OpFits := by
  induction ps generalizing i with
  | nil => simp [checkOps]
  | cons p ps ih =>
    rw [checkOps, Run.except_bind_ok_iff, List.forall_mem_cons, ← checkOp_ok_iff, ← ih (i := i + 1)]
    constructor
    · rintro ⟨⟨⟩, hp, hps⟩
      exact ⟨Run.within_ok_iff.1 hp, hps⟩
    · rintro ⟨hp, hps⟩
      exact ⟨(), Run.within_ok_iff.2 hp, hps⟩

/-- The bindings of an element can be added when its names are new to the element and keep their
kinds. -/
theorem exists_bindElement_iff {here : List Name} {e : List Binding} :
    (∃ bound', bindElement t here bound e = .ok bound') ↔
      (e.map Binding.name).Nodup ∧ (∀ b ∈ e, b.name ∉ here) ∧ AgreesOn bound e := by
  induction e generalizing here bound with
  | nil => simp [bindElement, AgreesOn]
  | cons b e ih =>
    rw [List.map_cons, List.nodup_cons, List.forall_mem_cons, AgreesOn, List.forall_mem_cons]
    simp only [bindElement]
    by_cases hhere : b.name ∈ here
    · simp [hhere]
    rw [if_neg hhere]
    -- what follows may use neither the names in front of it nor the one just added
    have hapart : (∀ c ∈ e, c.name ∉ b.name :: here) ↔
        b.name ∉ e.map Binding.name ∧ ∀ c ∈ e, c.name ∉ here := by
      simp only [List.mem_cons, not_or, forall_and, List.mem_map, not_exists, not_and]
    cases hk : kindOf? bound b.name with
    | none =>
      dsimp only
      rw [ih, hapart]
      have hagrees : b.name ∉ e.map Binding.name →
          (AgreesOn (bound ++ [b]) e ↔ AgreesOn bound e) := by
        intro hb
        refine forall₂_congr fun c hc => ?_
        have hne : b.name ≠ c.name := fun heq => hb (heq ▸ List.mem_map_of_mem hc)
        rw [kindOf?_append_singleton, if_neg hne]
      constructor
      · rintro ⟨hnodup, ⟨hb, hnew⟩, hrest⟩
        refine ⟨⟨hb, hnodup⟩, ⟨hhere, hnew⟩, ?_, (hagrees hb).1 hrest⟩
        intro k hk'
        cases hk'
      · rintro ⟨⟨hb, hnodup⟩, ⟨-, hnew⟩, -, hrest⟩
        exact ⟨hnodup, ⟨hb, hnew⟩, (hagrees hb).2 hrest⟩
    | some k =>
      dsimp only
      by_cases hkind : k = b.kind
      · rw [if_pos hkind, ih, hapart]
        constructor
        · rintro ⟨hnodup, ⟨hb, hnew⟩, hrest⟩
          refine ⟨⟨hb, hnodup⟩, ⟨hhere, hnew⟩, fun k' hk' => ?_, hrest⟩
          exact (Option.some.inj hk') ▸ hkind
        · rintro ⟨⟨hb, hnodup⟩, ⟨-, hnew⟩, -, hrest⟩
          exact ⟨hnodup, ⟨hb, hnew⟩, hrest⟩
      · rw [if_neg hkind]
        constructor
        · rintro ⟨_, h⟩
          cases h
        · rintro ⟨-, -, h, -⟩
          exact (hkind (h k rfl)).elim

theorem consistent_of_nodup {e : List Binding} (h : (e.map Binding.name).Nodup) :
    Consistent e := by
  intro b hb c hc hname
  rw [List.inj_on_of_nodup_map h hb hc hname]

theorem consistent_append {bs cs : List Binding} :
    Consistent (bs ++ cs) ↔ Consistent bs ∧ Consistent cs ∧
      ∀ b ∈ bs, ∀ c ∈ cs, b.name = c.name → b.kind = c.kind := by
  constructor
  · intro h
    refine ⟨fun b hb c hc => h b ?_ c ?_, fun b hb c hc => h b ?_ c ?_,
      fun b hb c hc => h b ?_ c ?_⟩
    all_goals simp [hb, hc]
  · rintro ⟨hbs, hcs, hcross⟩ b hb c hc hname
    rcases List.mem_append.1 hb with hb | hb <;> rcases List.mem_append.1 hc with hc | hc
    · exact hbs b hb c hc hname
    · exact hcross b hb c hc hname
    · exact (hcross c hc b hb hname.symm).symm
    · exact hcs b hb c hc hname

/-- Bindings agree with what is bound after an element when they agree with what was bound before
it and with the element. -/
theorem agreesOn_of_bindElement {bound' e bs : List Binding} {here : List Name}
    (h : bindElement t here bound e = .ok bound') :
    AgreesOn bound' bs ↔
      AgreesOn bound bs ∧ ∀ b ∈ e, ∀ c ∈ bs, b.name = c.name → b.kind = c.kind := by
  constructor
  · intro hall
    refine ⟨fun c hc k hk => hall c hc k ((bindElement_ok h).2 (.inl hk)), ?_⟩
    intro b hb c hc hname
    refine hall c hc b.kind ((bindElement_ok h).2 (.inr ?_))
    rw [← hname]
    exact hb
  · rintro ⟨hbound, he⟩ c hc k hk
    rcases (bindElement_ok h).1 hk with hk | hk
    · exact hbound c hc k hk
    · exact he _ hk c hc rfl

/-- The bindings of elements can be added when the names of each are different, and all of them keep
their kinds. -/
theorem exists_bindElements_iff {es : List (List Binding)} {i : Nat} :
    (∃ bound', bindElements t i bound es = .ok bound') ↔
      (∀ e ∈ es, (e.map Binding.name).Nodup) ∧ AgreesOn bound es.flatten ∧
        Consistent es.flatten := by
  induction es generalizing i bound with
  | nil => simp [bindElements, AgreesOn, Consistent]
  | cons e es ih =>
    have hagrees : AgreesOn bound (e ++ es.flatten) ↔
        AgreesOn bound e ∧ AgreesOn bound es.flatten := by
      simp only [AgreesOn, List.mem_append, or_imp, forall_and]
    rw [List.forall_mem_cons, List.flatten_cons, hagrees, consistent_append]
    constructor
    · rintro ⟨bound', h⟩
      obtain ⟨b₁, he, hes⟩ := Run.except_bind_ok_iff.1 h
      rw [Run.within_ok_iff] at he
      obtain ⟨hnodup, -, hbound⟩ := exists_bindElement_iff.1 ⟨b₁, he⟩
      obtain ⟨hnodups, hrest, hconsistent⟩ := ih.1 ⟨bound', hes⟩
      obtain ⟨hrest, hcross⟩ := (agreesOn_of_bindElement he).1 hrest
      exact ⟨⟨hnodup, hnodups⟩, ⟨hbound, hrest⟩, consistent_of_nodup hnodup, hconsistent, hcross⟩
    · rintro ⟨⟨hnodup, hnodups⟩, ⟨hbound, hrest⟩, -, hconsistent, hcross⟩
      obtain ⟨b₁, he⟩ : ∃ b₁, bindElement t [] bound e = .ok b₁ :=
        exists_bindElement_iff.2 ⟨hnodup, by simp, hbound⟩
      have hafter := (agreesOn_of_bindElement he).2 ⟨hrest, hcross⟩
      obtain ⟨bound', hes⟩ := (ih (i := i + 1)).2 ⟨hnodups, hafter, hconsistent⟩
      exact ⟨bound', Run.except_bind_ok_iff.2 ⟨b₁, Run.within_ok_iff.2 he, hes⟩⟩

namespace Pattern

variable {p : Pattern}

theorem check_ok_iff :
    p.check t = .ok bound ↔
      (p.code ≠ [] ∨ p.last ≠ none) ∧ (∀ x ∈ p.code, ∃ q, x = some q ∧ q.OpFits) ∧
        bindElements t 0 [] p.elements = .ok bound := by
  rw [check, ← checkOps_ok_iff (i := 0)]
  by_cases h : p.code.isEmpty = true ∧ p.last.isNone = true
  · rw [if_pos h]
    simp only [List.isEmpty_iff, Option.isNone_iff_eq_none] at h
    simp [h.1, h.2]
  · rw [if_neg h, Run.except_bind_ok_iff]
    simp only [List.isEmpty_iff, Option.isNone_iff_eq_none] at h
    constructor
    · rintro ⟨⟨⟩, hops, hbind⟩
      exact ⟨Decidable.not_and_iff_or_not.1 h, hops, hbind⟩
    · rintro ⟨-, hops, hbind⟩
      exact ⟨(), hops, hbind⟩

/-- The kinds that the check of a pattern hands on are those of its occurrences. -/
theorem kindOf?_of_check (h : p.check t = .ok bound) {n : Name} {k : BindKind} :
    kindOf? bound n = some k ↔ p.Binds n k := by
  obtain ⟨-, -, hbind⟩ := check_ok_iff.1 h
  rw [bindElements_ok hbind, Binds]
  simp [kindOf?]

/-- **A pattern passes the check exactly when it is well-formed.** -/
theorem exists_check_iff : (∃ bound, p.check t = .ok bound) ↔ p.WellFormed := by
  have hconsistent : Consistent p.elements.flatten ↔
      ∀ n k k', p.Binds n k → p.Binds n k' → k = k' := by
    constructor
    · intro h n k k' hk hk'
      exact h _ hk _ hk' rfl
    · rintro h ⟨n, k⟩ hb ⟨n', k'⟩ hc rfl
      exact h n k k' hb hc
  have hempty : AgreesOn [] p.elements.flatten := by simp [AgreesOn, kindOf?]
  constructor
  · rintro ⟨bound, h⟩
    obtain ⟨hne, hfits, hbind⟩ := check_ok_iff.1 h
    obtain ⟨hdistinct, -, hall⟩ := exists_bindElements_iff.1 ⟨bound, hbind⟩
    exact ⟨hne, hfits, hdistinct, hconsistent.1 hall⟩
  · rintro ⟨hne, hfits, hdistinct, hall⟩
    obtain ⟨bound, hbind⟩ := (exists_bindElements_iff (t := t) (i := 0)).2
      ⟨hdistinct, hempty, hconsistent.2 hall⟩
    exact ⟨bound, check_ok_iff.2 ⟨hne, hfits, hbind⟩⟩

end Pattern

end

/-! ### Reading order -/

section

variable (bound : List Binding)

/-- Operands without parts are in order, one after another. -/
def AtomsOk : List Name → List Atom → Prop
  | _, [] => True
  | fresh, a :: as => (∃ isReg, AtomOk bound fresh a isReg) ∧ AtomsOk (addFresh fresh [a]) as

/-- An operand without parts can be a register of a memory operand, as far as kinds go. -/
def CanBeRegister : Atom → Prop
  | .machine _ => True
  | .fresh _ => True
  | .ref n => ∀ k, kindOf? bound n = some k → k = .register
  | .literal _ => False
  | .label _ => False

/-- A base or an index has the right shape. -/
def TermShape (o : Option AddressTerm) : Prop :=
  ∀ x, o = some x → ∃ a, x = .atom a ∧ CanBeRegister bound a

/-- A memory operand has the right shape. -/
structure AddressShape (m : AddressTemplate) : Prop where
  /-- There is an index exactly when there is a scale. -/
  scaled : m.index.isSome = true ↔ m.scale ≠ 0
  /-- The base has the right shape. -/
  base : TermShape bound m.base
  /-- The index has it too. -/
  index : TermShape bound m.index

/-- An operand has the right shape. -/
def OperandShape (alone : Bool) : Option TemplateOperand → Prop
  | none => False
  | some (.atom a) => isListRef bound a = true → alone = true
  | some (.indirect m) => AddressShape bound m

/-- A line has the right shape. -/
structure LineShape (t : NameTable) (l : TemplateLine) : Prop where
  /-- The mnemonic is known. -/
  mnemonic : ∃ m, Mnemonic.ofText? (t.text l.mnemonic) = some m
  /-- The operands have the right shape. -/
  operands : ∀ a ∈ l.args, OperandShape bound (l.args.length = 1) a

end

section

variable {t : NameTable} {bound : List Binding} {fresh : List Name}

theorem atomsOk_append {as bs : List Atom} :
    AtomsOk bound fresh (as ++ bs) ↔
      AtomsOk bound fresh as ∧ AtomsOk bound (addFresh fresh as) bs := by
  induction as generalizing fresh with
  | nil => simp [AtomsOk, addFresh]
  | cons a as ih =>
    rw [List.cons_append, AtomsOk, AtomsOk, ih, and_assoc, ← addFresh_append, List.singleton_append]

theorem atomsOk_singleton {a : Atom} :
    AtomsOk bound fresh [a] ↔ ∃ isReg, AtomOk bound fresh a isReg := by
  simp [AtomsOk]

/-- Operands are in order when each of them is, after the new registers in front of it. -/
theorem atomsOk_iff {as : List Atom} :
    AtomsOk bound fresh as ↔ ∀ before a after, as = before ++ a :: after →
      ∃ isReg, AtomOk bound (addFresh fresh before) a isReg := by
  induction as generalizing fresh with
  | nil => simp [AtomsOk]
  | cons first as ih =>
    rw [AtomsOk, ih]
    constructor
    · rintro ⟨hfirst, hrest⟩ before a after heq
      cases before with
      | nil =>
        obtain ⟨rfl, -⟩ := List.cons.inj heq
        exact hfirst
      | cons x before =>
        obtain ⟨rfl, htail⟩ := List.cons.inj heq
        have h := hrest before a after htail
        rwa [← addFresh_append] at h
    · intro h
      refine ⟨h [] first as rfl, fun before a after heq => ?_⟩
      rw [← addFresh_append]
      exact h (first :: before) a after (by rw [heq, List.cons_append])

/-- New registers in order are no names of the pattern. -/
theorem AtomsOk.addFresh_unbound {as : List Atom} (hfresh : ∀ n ∈ fresh, kindOf? bound n = none)
    (h : AtomsOk bound fresh as) : ∀ n ∈ addFresh fresh as, kindOf? bound n = none := by
  induction as generalizing fresh with
  | nil => exact hfresh
  | cons a as ih =>
    obtain ⟨⟨isReg, ha⟩, has⟩ := h
    have hnext : ∀ n ∈ addFresh fresh [a], kindOf? bound n = none := by
      intro n hn
      rcases mem_addFresh.1 hn with hn | hn
      · exact hfresh n hn
      · cases ha <;> simp_all [Atom.freshNames]
    have := ih hnext has
    rwa [← addFresh_append] at this

/-- An operand in order is a register when its kind allows it. -/
theorem atomOk_true_iff {a : Atom} (hfresh : ∀ n ∈ fresh, kindOf? bound n = none) :
    AtomOk bound fresh a true ↔ CanBeRegister bound a ∧ ∃ isReg, AtomOk bound fresh a isReg := by
  constructor
  · intro h
    refine ⟨?_, true, h⟩
    cases h with
    | machine _ => trivial
    | fresh _ => trivial
    | @refFresh n hn =>
      intro k hk
      rw [hfresh n hn] at hk
      cases hk
    | @refBound n k _ _ hk _ hreg =>
      intro k' hk'
      rw [hk] at hk'
      rw [← Option.some.inj hk', hreg.1 rfl]
  · rintro ⟨hreg, isReg, h⟩
    cases h with
    | machine hv => exact .machine hv
    | fresh hu => exact .fresh hu
    | refFresh hn => exact .refFresh hn
    | refBound ho hk hl _ => exact .refBound ho hk hl ⟨fun _ => hreg _ hk, fun _ => rfl⟩
    | literal => exact hreg.elim
    | label _ => exact hreg.elim

theorem termOk_iff {o : Option AddressTerm} (hfresh : ∀ n ∈ fresh, kindOf? bound n = none) :
    TermOk bound fresh o ↔ TermShape bound o ∧ AtomsOk bound fresh (termAtoms o) := by
  rcases o with - | a | -
  · simp [TermOk, TermShape, termAtoms, AtomsOk]
  · rw [TermOk, atomOk_true_iff hfresh, termAtoms, atomsOk_singleton]
    simp [TermShape]
  · simp [TermOk, TermShape]

theorem addressOk_iff {m : AddressTemplate} (hfresh : ∀ n ∈ fresh, kindOf? bound n = none) :
    AddressOk bound fresh m ↔
      AddressShape bound m ∧ AtomsOk bound fresh (termAtoms m.base ++ termAtoms m.index) := by
  rw [atomsOk_append]
  constructor
  · rintro ⟨hscaled, hbase, hindex⟩
    rw [termOk_iff (hbase.addFresh_unbound hfresh)] at hindex
    rw [termOk_iff hfresh] at hbase
    exact ⟨⟨hscaled, hbase.1, hindex.1⟩, hbase.2, hindex.2⟩
  · rintro ⟨⟨hscaled, hbase, hindex⟩, hbaseOk, hindexOk⟩
    exact ⟨hscaled, (termOk_iff hfresh).2 ⟨hbase, hbaseOk⟩,
      (termOk_iff (hbaseOk.addFresh_unbound hfresh)).2 ⟨hindex, hindexOk⟩⟩

theorem operandOk_iff {alone : Bool} {o : Option TemplateOperand}
    (hfresh : ∀ n ∈ fresh, kindOf? bound n = none) :
    OperandOk bound alone fresh o ↔
      OperandShape bound alone o ∧ AtomsOk bound fresh (operandAtoms o) := by
  rcases o with - | a | m
  · simp [OperandOk, OperandShape]
  · rw [OperandOk, OperandShape, operandAtoms, atomsOk_singleton, and_comm]
  · exact addressOk_iff hfresh

theorem operandsOk_iff {alone : Bool} {as : List (Option TemplateOperand)}
    (hfresh : ∀ n ∈ fresh, kindOf? bound n = none) :
    OperandsOk bound alone fresh as ↔
      (∀ a ∈ as, OperandShape bound alone a) ∧ AtomsOk bound fresh (as.flatMap operandAtoms) := by
  induction as generalizing fresh with
  | nil => simp [OperandsOk, AtomsOk]
  | cons a as ih =>
    rw [OperandsOk, List.forall_mem_cons, List.flatMap_cons, atomsOk_append]
    constructor
    · rintro ⟨ha, has⟩
      rw [ih (ha.addFresh_unbound hfresh)] at has
      rw [operandOk_iff hfresh] at ha
      exact ⟨⟨ha.1, has.1⟩, ha.2, has.2⟩
    · rintro ⟨⟨ha, has⟩, haOk, hasOk⟩
      exact ⟨(operandOk_iff hfresh).2 ⟨ha, haOk⟩,
        (ih (haOk.addFresh_unbound hfresh)).2 ⟨has, hasOk⟩⟩

theorem lineOk_iff {l : TemplateLine} (hfresh : ∀ n ∈ fresh, kindOf? bound n = none) :
    LineOk bound t fresh l ↔ LineShape bound t l ∧ AtomsOk bound fresh l.atoms := by
  constructor
  · rintro ⟨hm, hargs⟩
    obtain ⟨hshape, hatoms⟩ := (operandsOk_iff hfresh).1 hargs
    exact ⟨⟨hm, hshape⟩, hatoms⟩
  · rintro ⟨⟨hm, hshape⟩, hatoms⟩
    exact ⟨hm, (operandsOk_iff hfresh).2 ⟨hshape, hatoms⟩⟩

/-- **Shape and reading order.** Lines are in order, one after another, when each of them has the
right shape and all their operands are in order in reading order. -/
theorem linesOk_iff {ls : List TemplateLine} (hfresh : ∀ n ∈ fresh, kindOf? bound n = none) :
    LinesOk bound t fresh ls ↔
      (∀ l ∈ ls, LineShape bound t l) ∧ AtomsOk bound fresh (ls.flatMap TemplateLine.atoms) := by
  induction ls generalizing fresh with
  | nil => simp [LinesOk, AtomsOk]
  | cons l ls ih =>
    rw [LinesOk, List.forall_mem_cons, List.flatMap_cons, atomsOk_append]
    constructor
    · rintro ⟨hl, hls⟩
      rw [ih (hl.addFresh_unbound hfresh)] at hls
      rw [lineOk_iff hfresh] at hl
      exact ⟨⟨hl.1, hls.1⟩, hl.2, hls.2⟩
    · rintro ⟨⟨hl, hls⟩, hlOk, hlsOk⟩
      exact ⟨(lineOk_iff hfresh).2 ⟨hl, hlOk⟩, (ih (hlOk.addFresh_unbound hfresh)).2 ⟨hls, hlsOk⟩⟩

end

/-! ### Rules -/

namespace Rule

variable {t : NameTable} {r : Rule} {bound : List Binding}

theorem mem_atoms {l : TemplateLine} (hl : l ∈ r.template) {a : Atom} (ha : a ∈ l.atoms) :
    a ∈ r.atoms := List.mem_flatMap.2 ⟨l, hl, ha⟩

theorem check_ok_iff_linesOk :
    r.check t = .ok () ↔
      ∃ bound, r.pattern.check t = .ok bound ∧ LinesOk bound t [] r.template := by
  rw [check, Run.except_bind_ok_iff]
  refine exists_congr fun bound => ?_
  rw [Run.within_ok_iff, checkLines_ok_iff (by simp)]

theorem exists_mnemonic_iff {n : Name} :
    (∃ m, Mnemonic.ofText? (t.text n) = some m) ↔
      ∃ s m, t.text? n = some s ∧ Mnemonic.ofText? s = some m := by
  -- a name without a text reads as the empty one, which is no mnemonic
  have hempty : Mnemonic.ofText? .empty = none := by decide
  cases h : t.text? n <;> simp [NameTable.text, h, hempty]

/-- Where a reference stands in the reading order, and what is in front of it. -/
theorem atomOk_ref_iff {before : List Atom} {n : Name} :
    (∃ isReg, AtomOk bound (addFresh [] before) (.ref n) isReg) ↔
      (∃ k, kindOf? bound n = some k ∧ k ≠ .label) ∨ .fresh n ∈ before := by
  have hmem : n ∈ addFresh [] before ↔ Atom.fresh n ∈ before := by
    rw [mem_addFresh, List.mem_flatMap]
    constructor
    · rintro (h | ⟨a, ha, hn⟩)
      · cases h
      · cases a <;> simp_all [Atom.freshNames]
    · intro h
      exact .inr ⟨_, h, by simp [Atom.freshNames]⟩
  constructor
  · rintro ⟨isReg, h⟩
    cases h with
    | refFresh hn => exact .inr (hmem.1 hn)
    | refBound _ hk hl _ => exact .inl ⟨_, hk, hl⟩
  · intro h
    by_cases hn : n ∈ addFresh [] before
    · exact ⟨true, .refFresh hn⟩
    · rcases h with ⟨k, hk, hl⟩ | h
      · exact ⟨decide (k = .register), .refBound hn hk hl (by simp)⟩
      · exact (hn (hmem.2 h)).elim

/-- The operands of a template are in order in reading order exactly when machine registers are
valid, new registers are apart from the pattern, references are to the pattern or to new registers
in front of them, and labels are those of the pattern. -/
theorem atomsOk_nil_iff {as : List Atom} :
    AtomsOk bound [] as ↔
      (∀ x, .machine x ∈ as → x.isValid = true) ∧
      (∀ n, .fresh n ∈ as → kindOf? bound n = none) ∧
      (∀ before n after, as = before ++ .ref n :: after →
        (∃ k, kindOf? bound n = some k ∧ k ≠ .label) ∨ .fresh n ∈ before) ∧
      ∀ n, .label n ∈ as → kindOf? bound n = some .label := by
  rw [atomsOk_iff]
  constructor
  · intro h
    have hmem : ∀ a ∈ as, ∃ fresh isReg, AtomOk bound fresh a isReg := by
      intro a ha
      obtain ⟨before, after, heq⟩ := List.append_of_mem ha
      exact ⟨_, h before a after heq⟩
    refine ⟨fun x hx => ?_, fun n hn => ?_, fun before n after heq => ?_, fun n hn => ?_⟩
    · obtain ⟨_, _, ha⟩ := hmem _ hx
      cases ha with
      | machine hv => exact hv
    · obtain ⟨_, _, ha⟩ := hmem _ hn
      cases ha with
      | fresh hu => exact hu
    · exact atomOk_ref_iff.1 (h before _ after heq)
    · obtain ⟨_, _, ha⟩ := hmem _ hn
      cases ha with
      | label hk => exact hk
  · rintro ⟨hmachine, hfresh, href, hlabel⟩ before a after heq
    have ha : a ∈ as := by simp [heq]
    cases a with
    | machine x => exact ⟨true, .machine (hmachine x ha)⟩
    | fresh n => exact ⟨true, .fresh (hfresh n ha)⟩
    | ref n => exact atomOk_ref_iff.2 (href before n after heq)
    | literal n => exact ⟨false, .literal⟩
    | label n => exact ⟨false, .label (hlabel n ha)⟩

/-- A register of a memory operand is no argument list. -/
theorem kindOf?_of_termShape {o : Option AddressTerm} (ho : TermShape bound o) {n : Name}
    (hn : .ref n ∈ termAtoms o) : kindOf? bound n ≠ some .arguments := by
  intro hk
  rcases o with - | a | -
  · simp [termAtoms] at hn
  · obtain rfl : Atom.ref n = a := by simpa [termAtoms] using hn
    obtain ⟨_, heq, hreg⟩ := ho _ rfl
    cases heq
    cases hreg _ hk
  · simp [termAtoms] at hn

section

-- the kinds that the check of the pattern has handed on
variable (hkinds : ∀ n k, kindOf? bound n = some k ↔ r.pattern.Binds n k)
include hkinds

/-- Where references are in order, kinds tell which operands have the shape of a register. -/
theorem canBeRegister_iff {a : Atom} (hatoms : AtomsOk bound [] r.atoms) (ha : a ∈ r.atoms) :
    CanBeRegister bound a ↔ r.RegisterShaped a := by
  obtain ⟨-, hfresh, hrefs, -⟩ := atomsOk_nil_iff.1 hatoms
  constructor
  · intro h
    cases a with
    | machine x => exact .machine x
    | fresh n => exact .fresh n
    | ref n =>
      obtain ⟨before, after, heq⟩ := List.append_of_mem ha
      rcases hrefs before n after heq with ⟨k, hk, -⟩ | hn
      · obtain rfl := h k hk
        exact .bound ((hkinds n _).1 hk)
      · exact .new (by rw [heq]; exact List.mem_append_left _ hn)
    | literal n => exact h.elim
    | label n => exact h.elim
  · intro h
    cases h with
    | machine x => trivial
    | fresh n => trivial
    | @bound n hn =>
      intro k hk
      rw [(hkinds n _).2 hn] at hk
      exact (Option.some.inj hk).symm
    | @new n hn =>
      intro k hk
      rw [hfresh n hn] at hk
      cases hk

theorem termShape_iff {o : Option AddressTerm} (hatoms : AtomsOk bound [] r.atoms)
    (ho : ∀ a ∈ termAtoms o, a ∈ r.atoms) : TermShape bound o ↔ r.TermWellFormed o := by
  rcases o with - | a | -
  · simp [TermShape, TermWellFormed]
  · have ha : CanBeRegister bound a ↔ r.RegisterShaped a :=
      canBeRegister_iff hkinds hatoms (ho a (by simp [termAtoms]))
    simp [TermShape, TermWellFormed, ha]
  · simp [TermShape, TermWellFormed]

theorem addressShape_iff {m : AddressTemplate} (hatoms : AtomsOk bound [] r.atoms)
    (hm : ∀ a ∈ operandAtoms (some (.indirect m)), a ∈ r.atoms) :
    AddressShape bound m ↔ r.AddressWellFormed m := by
  have hbase : TermShape bound m.base ↔ r.TermWellFormed m.base :=
    termShape_iff hkinds hatoms fun a ha => hm a (List.mem_append_left _ ha)
  have hindex : TermShape bound m.index ↔ r.TermWellFormed m.index :=
    termShape_iff hkinds hatoms fun a ha => hm a (List.mem_append_right _ ha)
  constructor
  · rintro ⟨hs, hb, hi⟩
    exact ⟨hs.symm, hbase.1 hb, hindex.1 hi⟩
  · rintro ⟨hs, hb, hi⟩
    exact ⟨hs.symm, hbase.2 hb, hindex.2 hi⟩

theorem lineShape_iff {l : TemplateLine} (hatoms : AtomsOk bound [] r.atoms)
    (hl : l ∈ r.template) : LineShape bound t l ↔ r.LineWellFormed t l := by
  have haddress : ∀ m, some (.indirect m) ∈ l.args →
      (AddressShape bound m ↔ r.AddressWellFormed m) := by
    intro m hm
    refine addressShape_iff hkinds hatoms fun a ha => mem_atoms hl ?_
    exact List.mem_flatMap.2 ⟨_, hm, ha⟩
  constructor
  · rintro ⟨hmnemonic, hargs⟩
    refine ⟨exists_mnemonic_iff.1 hmnemonic, fun h => hargs none h, fun n hn hk => ?_,
      fun m hm => (haddress m hm).1 (hargs _ hm)⟩
    rw [← hkinds] at hk
    obtain ⟨o, ho, hno⟩ := List.mem_flatMap.1 hn
    have hshape := hargs o ho
    rcases o with - | a | m
    · exact hshape.elim
    · obtain rfl : Atom.ref n = a := by simpa [operandAtoms] using hno
      have halone : l.args.length = 1 := by simpa using hshape (by simpa [isListRef] using hk)
      obtain ⟨o, heq⟩ := List.length_eq_one_iff.1 halone
      rw [heq, List.mem_singleton] at ho
      rw [heq, ho]
    · rcases List.mem_append.1 hno with hno | hno
      · exact (kindOf?_of_termShape hshape.base hno hk).elim
      · exact (kindOf?_of_termShape hshape.index hno hk).elim
  · rintro ⟨hmnemonic, hnone, hlists, haddresses⟩
    refine ⟨exists_mnemonic_iff.2 hmnemonic, fun o ho => ?_⟩
    rcases o with - | a | m
    · exact hnone ho
    · intro hlist
      cases a with
      | ref n =>
        have hk : r.pattern.Binds n .arguments := (hkinds n _).1 (by simpa [isListRef] using hlist)
        have hn : Atom.ref n ∈ l.atoms := List.mem_flatMap.2 ⟨_, ho, by simp [operandAtoms]⟩
        simp [hlists n hn hk]
      | _ => cases hlist
    · exact (haddress m ho).2 (haddresses m ho)

end

/-- **The check accepts exactly the well-formed rules.** Which rules are well-formed is said by
`Rule.WellFormed`, for the pattern by `Pattern.WellFormed` and for each line of the template by
`Rule.LineWellFormed`: of the pattern as the list of the bindings of its elements, of the template
as the list of its operands in reading order. -/
theorem check_iff_wellFormed (t : NameTable) (r : Rule) : r.check t = .ok () ↔ r.WellFormed t := by
  rw [check_ok_iff_linesOk]
  constructor
  · rintro ⟨bound, hpattern, hlines⟩
    have hkinds : ∀ n k, kindOf? bound n = some k ↔ r.pattern.Binds n k :=
      fun n k => Pattern.kindOf?_of_check hpattern
    obtain ⟨hshapes, hatoms⟩ := (linesOk_iff (by simp)).1 hlines
    change AtomsOk bound [] r.atoms at hatoms
    obtain ⟨hmachines, hnews, hrefs, hlabels⟩ := atomsOk_nil_iff.1 hatoms
    refine ⟨Pattern.exists_check_iff.1 ⟨bound, hpattern⟩,
      fun l hl => (lineShape_iff hkinds hatoms hl).1 (hshapes l hl), hmachines, ?_, ?_, ?_⟩
    · intro n k hn hk
      rw [← hkinds, hnews n hn] at hk
      cases hk
    · simpa only [hkinds] using hrefs
    · simpa only [hkinds] using hlabels
  · rintro ⟨hpattern, hlines, hmachines, hnews, hrefs, hlabels⟩
    obtain ⟨bound, hpattern⟩ := (Pattern.exists_check_iff (t := t)).2 hpattern
    have hkinds : ∀ n k, kindOf? bound n = some k ↔ r.pattern.Binds n k :=
      fun n k => Pattern.kindOf?_of_check hpattern
    have hatoms : AtomsOk bound [] r.atoms := by
      refine atomsOk_nil_iff.2 ⟨hmachines, fun n hn => ?_, ?_, ?_⟩
      · rw [Option.eq_none_iff_forall_not_mem]
        exact fun k hk => hnews n k hn ((hkinds n k).1 hk)
      · simpa only [hkinds] using hrefs
      · simpa only [hkinds] using hlabels
    exact ⟨bound, hpattern, (linesOk_iff (by simp)).2
      ⟨fun l hl => (lineShape_iff hkinds hatoms hl).2 (hlines l hl), hatoms⟩⟩

end Rule

end CodeTiling
