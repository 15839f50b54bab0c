import CodeTiling.Proofs.Checked
import CodeTiling.Select.Match

/-!
# What a match binds

A match is a solved list of equations. `Bindings.Satisfies` reads bindings as the set of equations
that hold in them, and `Pattern.matchAt_spec` says that the bindings of a match satisfy exactly the
equations of the pattern, each of which has the name and the kind that the pattern announces.

For an accepted rule this gives `Bindings.Fits`: a name of the pattern stands for a thing of its
kind, and nothing else stands for anything. `Pattern.matchAt_total` says when matching cannot fail:
no element of the pattern, no instruction and no argument of a call is missing.
-/

namespace CodeTiling

open Code (Operand Register)

/-! ### Kinds of operands -/

/-- The kind of thing that an operand of a match is. -/
def operandKind? : Operand → Option BindKind
  | .imm _ => some .literal
  | .addr _ => some .function
  | .label _ => some .label
  | .reg (.virtual _) => some .register
  | _ => none

theorem operandKind?_operandOf (v : Ir.Value) : (operandKind? (operandOf v)).isSome = true := by
  cases v <;> rfl

namespace Equation

/-- The binding that an equation amounts to. An argument list has to be made of operands that a
match can meet. -/
def binding? : Equation → Option Binding
  | value n a => (operandKind? a).map (⟨n, ·⟩)
  | list n l => if l.all fun a => (operandKind? a).isSome then some ⟨n, .arguments⟩ else none

end Equation

theorem OperandPattern.binding?_of_equation? {p : OperandPattern} {v : Option Ir.Value}
    {e : Equation} (h : p.equation? v = some e) : e.binding? = some p.binding := by
  unfold OperandPattern.equation? at h
  split at h
  · obtain rfl := Option.some.inj h; rfl
  · obtain rfl := Option.some.inj h; rfl
  · cases h

theorem InstrPattern.map_binding?_of_equations? {p : InstrPattern} {x : Ir.Instr}
    {es : List Equation} (h : p.equations? x = some es) :
    es.map Equation.binding? = p.bindings.map some := by
  cases p with
  | binary op dst l r =>
    cases x <;> simp only [equations?, reduceCtorEq] at h
    split at h
    · simp only [bind, Option.bind_eq_some_iff, pure, Option.some.injEq] at h
      obtain ⟨el, hl, er, hr, rfl⟩ := h
      simp only [List.map_cons, OperandPattern.binding?_of_equation? hl,
        OperandPattern.binding?_of_equation? hr]
      rfl
    · cases h
  | unary op dst v =>
    cases x <;> simp only [equations?, reduceCtorEq] at h
    split at h
    · simp only [bind, Option.bind_eq_some_iff, pure, Option.some.injEq] at h
      obtain ⟨ev, hv, rfl⟩ := h
      simp only [List.map_cons, OperandPattern.binding?_of_equation? hv]
      rfl
    · cases h
  | alloca dst =>
    cases x <;> simp only [equations?, reduceCtorEq] at h
    obtain rfl := Option.some.inj h
    rfl
  | load dst a =>
    cases x <;> simp only [equations?, reduceCtorEq] at h
    simp only [bind, Option.bind_eq_some_iff, pure, Option.some.injEq] at h
    obtain ⟨ea, ha, rfl⟩ := h
    simp only [List.map_cons, OperandPattern.binding?_of_equation? ha]
    rfl
  | store a v =>
    cases x <;> simp only [equations?, reduceCtorEq] at h
    simp only [bind, Option.bind_eq_some_iff, pure, Option.some.injEq] at h
    obtain ⟨ea, ha, ev, hv, rfl⟩ := h
    simp [bindings, OperandPattern.binding?_of_equation? ha,
      OperandPattern.binding?_of_equation? hv]
  | call dst func list =>
    cases x <;> simp only [equations?, reduceCtorEq] at h
    obtain rfl := Option.some.inj h
    have hplain : ∀ (args : List (Option Ir.Value)),
        ((args.filterMap (·.map operandOf)).all fun a => (operandKind? a).isSome) = true := by
      intro args
      rw [List.all_eq_true]
      intro a ha
      obtain ⟨o, -, ho⟩ := List.mem_filterMap.1 ha
      obtain ⟨v, -, rfl⟩ := Option.map_eq_some_iff.1 ho
      exact operandKind?_operandOf v
    simp only [List.map_cons, List.map_nil, bindings, Equation.binding?, hplain, if_true]
    rfl

theorem TermPattern.map_binding?_of_equations? {p : TermPattern} {x : Ir.Terminator}
    {es : List Equation} (h : p.equations? x = some es) :
    es.map Equation.binding? = p.bindings.map some := by
  unfold equations? at h
  split at h
  · obtain rfl := Option.some.inj h; rfl
  · simp only [bind, Option.bind_eq_some_iff, pure, Option.some.injEq] at h
    obtain ⟨e, he, rfl⟩ := h
    simp [bindings, OperandPattern.binding?_of_equation? he]
  · simp only [bind, Option.bind_eq_some_iff, pure, Option.some.injEq] at h
    obtain ⟨e, he, rfl⟩ := h
    simp only [List.map_cons, List.map_nil, bindings, OperandPattern.binding?_of_equation? he]
    rfl
  · obtain rfl := Option.some.inj h; rfl
  · cases h

/-! ### Solving equations -/

namespace Bindings

variable {b b' : Bindings} {e e' : Equation} {es : List Equation}

/-- The equation holds in the bindings. -/
def Satisfies (b : Bindings) : Equation → Prop
  | .value n a => b.value? n = some a
  | .list n l => b.list? n = some l

theorem not_satisfies_empty (e : Equation) : ¬Satisfies {} e := by
  cases e <;> simp [Satisfies, value?, list?]

theorem lookup_append_singleton {β : Type} (l : List (Name × β)) (n m : Name) (x : β)
    (h : l.lookup n = none) :
    (l ++ [(n, x)]).lookup m = if m = n then some x else l.lookup m := by
  rw [List.lookup_append]
  by_cases hm : m = n
  · subst hm; simp [h]
  · have : (m == n) = false := by simpa using hm
    simp [List.lookup_cons, this, hm]

theorem bind_satisfies (h : b.bind e = some b') :
    b'.Satisfies e' ↔ b.Satisfies e' ∨ e' = e := by
  cases e with
  | value n a =>
    simp only [bind] at h
    split at h
    · rename_i hn
      obtain rfl := Option.some.inj h
      cases e' with
      | value m c =>
        simp only [Satisfies, value?, lookup_append_singleton _ _ _ _ hn]
        by_cases hm : m = n
        · subst hm
          simp only [value?] at hn
          simp [hn, eq_comm]
        · simp [hm]
      | list m l => simp [Satisfies, list?]
    · rename_i c hn
      split at h
      · rename_i hc
        obtain rfl := Option.some.inj h
        subst hc
        exact ⟨.inl, fun h => h.elim id fun he => he ▸ hn⟩
      · cases h
  | list n l =>
    simp only [bind] at h
    split at h
    · rename_i hn
      obtain rfl := Option.some.inj h
      cases e' with
      | value m c => simp [Satisfies, value?]
      | list m c =>
        simp only [Satisfies, list?, lookup_append_singleton _ _ _ _ hn]
        by_cases hm : m = n
        · subst hm
          simp only [list?] at hn
          simp [hn, eq_comm]
        · simp [hm]
    · rename_i c hn
      split at h
      · rename_i hc
        obtain rfl := Option.some.inj h
        subst hc
        exact ⟨.inl, fun h => h.elim id fun he => he ▸ hn⟩
      · cases h

theorem solve_satisfies (h : b.solve es = some b') :
    b'.Satisfies e' ↔ b.Satisfies e' ∨ e' ∈ es := by
  induction es generalizing b with
  | nil =>
    obtain rfl := Option.some.inj h
    simp
  | cons e es ih =>
    obtain ⟨c, hc, h⟩ := Option.bind_eq_some_iff.1 h
    rw [ih h, bind_satisfies hc, List.mem_cons, or_assoc]

end Bindings

/-! ### Matching -/

/-- The bindings of pattern elements, one element after another. -/
def elementBindings (ps : List (Option InstrPattern)) : List Binding :=
  ps.flatMap (·.elim [] InstrPattern.bindings)

theorem Pattern.flatten_elements (p : Pattern) :
    p.elements.flatten = elementBindings p.code ++ p.last.elim [] TermPattern.bindings := by
  rw [Pattern.elements, List.flatten_append, elementBindings, List.flatMap]
  cases p.last <;> simp

variable {b b' : Bindings}

theorem matchElement_some {p : Option InstrPattern} {x : Option Ir.Instr}
    (h : matchElement b p x = .ok (some b')) :
    ∃ es : List Equation, es.map Equation.binding? = (p.elim [] InstrPattern.bindings).map some ∧
      ∀ e, b'.Satisfies e ↔ b.Satisfies e ∨ e ∈ es := by
  unfold matchElement at h
  split at h
  · cases h
  · cases h
  · split at h
    · cases h
    · simp only [Except.ok.injEq, Option.bind_eq_some_iff] at h
      obtain ⟨es, hes, hs⟩ := h
      exact ⟨es, InstrPattern.map_binding?_of_equations? hes, fun e => Bindings.solve_satisfies hs⟩

theorem matchCode_cons {p : Option InstrPattern} {ps : List (Option InstrPattern)}
    {x : Option Ir.Instr} {xs : List (Option Ir.Instr)}
    (h : matchCode b (p :: ps) (x :: xs) = .ok (some b')) :
    ∃ c, matchElement b p x = .ok (some c) ∧ matchCode c ps xs = .ok (some b') := by
  obtain ⟨o, hp, h⟩ := Run.except_bind_ok_iff.1 h
  cases o with
  | none => cases h
  | some c => exact ⟨c, hp, h⟩

theorem matchCode_some {ps : List (Option InstrPattern)} {xs : List (Option Ir.Instr)}
    (h : matchCode b ps xs = .ok (some b')) :
    ∃ es : List Equation, es.map Equation.binding? = (elementBindings ps).map some ∧
      ∀ e, b'.Satisfies e ↔ b.Satisfies e ∨ e ∈ es := by
  induction ps generalizing b xs with
  | nil =>
    obtain rfl : b = b' := by simpa [matchCode] using h
    exact ⟨[], rfl, by simp⟩
  | cons p ps ih =>
    cases xs with
    | nil => cases h
    | cons x xs =>
      obtain ⟨c, hp, h⟩ := matchCode_cons h
      obtain ⟨es, hes, hsat⟩ := matchElement_some hp
      obtain ⟨fs, hfs, hsat'⟩ := ih h
      refine ⟨es ++ fs, ?_, fun e => ?_⟩
      · rw [List.map_append, hes, hfs, ← List.map_append]
        rfl
      · rw [hsat', hsat, List.mem_append, or_assoc]

variable {p : Pattern} {code : List (Option Ir.Instr)} {term : Option Ir.Terminator}

/-- **The bindings of a match satisfy exactly the equations of the pattern**, which have the names
and kinds that the pattern announces. -/
theorem Pattern.matchAt_spec (h : p.matchAt code term = .ok (some b)) :
    ∃ es : List Equation, es.map Equation.binding? = p.elements.flatten.map some ∧
      ∀ e, b.Satisfies e ↔ e ∈ es := by
  rw [Pattern.flatten_elements]
  unfold Pattern.matchAt at h
  split at h
  · cases h
  split at h
  · rename_i hlast
    obtain ⟨es, hes, hsat⟩ := matchCode_some h
    refine ⟨es, by simp [hes, hlast], fun e => ?_⟩
    rw [hsat]
    simp [Bindings.not_satisfies_empty]
  · cases h
  · rename_i last x hlast
    split at h
    · cases h
    obtain ⟨o, hc, h⟩ := Run.except_bind_ok_iff.1 h
    cases o with
    | none => cases h
    | some c =>
      obtain ⟨es, hes, hsat⟩ := matchCode_some hc
      obtain ⟨fs, hfs, hs⟩ := Option.bind_eq_some_iff.1 (Except.ok.inj h)
      refine ⟨es ++ fs, ?_, fun e => ?_⟩
      · rw [List.map_append, hes, TermPattern.map_binding?_of_equations? hfs, hlast,
          ← List.map_append]
        rfl
      · rw [Bindings.solve_satisfies hs, hsat, List.mem_append]
        simp [Bindings.not_satisfies_empty]

/-- A match needs as much code as the pattern has, and with a terminator pattern exactly that much
and a terminator. -/
theorem Pattern.matchAt_length (h : p.matchAt code term = .ok (some b)) :
    p.code.length ≤ code.length ∧
      (p.last.isSome = true → p.code.length = code.length ∧ term.isSome = true) := by
  unfold Pattern.matchAt at h
  split at h
  · cases h
  rename_i hlen
  split at h
  · rename_i hlast
    exact ⟨by omega, by simp [hlast]⟩
  · cases h
  · split at h
    · cases h
    · exact ⟨by omega, fun _ => ⟨by omega, rfl⟩⟩

theorem Rule.matchAt_some {r : Rule} {k : Nat} (h : r.matchAt code term = .ok (some (b, k))) :
    r.pattern.matchAt code term = .ok (some b) := by
  obtain ⟨o, ho, h⟩ := Run.except_bind_ok_iff.1 h
  obtain ⟨c, rfl, hc⟩ := Option.map_eq_some_iff.1 (Except.ok.inj h)
  cases hc
  exact ho

/-! ### Matching that cannot fail -/

namespace Ir

/-- No argument of a call is missing. -/
def Instr.IsComplete : Instr → Prop
  | .call _ _ args => ∀ a ∈ args, a.isSome = true
  | _ => True

/-- No instruction of some code and no argument of a call in it is missing. -/
def CodeComplete (code : List (Option Instr)) : Prop :=
  ∀ x ∈ code, ∃ i, x = some i ∧ i.IsComplete

/-- No instruction of a function and no argument of a call in it is missing. -/
def Func.IsComplete (f : Func) : Prop := ∀ b ∈ f.blocks, CodeComplete b.code

theorem CodeComplete.drop {code : List (Option Instr)} (h : CodeComplete code) (n : Nat) :
    CodeComplete (code.drop n) := fun x hx => h x (List.mem_of_mem_drop hx)

end Ir

theorem missesArgument_of_isComplete {q : InstrPattern} {x : Ir.Instr} (h : x.IsComplete) :
    missesArgument q x = false := by
  cases q <;> cases x <;> simp_all [missesArgument, Ir.Instr.IsComplete, Option.isSome_iff_ne_none]

theorem matchCode_total {ps : List (Option InstrPattern)} {xs : List (Option Ir.Instr)}
    (hps : ∀ q ∈ ps, q.isSome = true) (hxs : Ir.CodeComplete xs) :
    ∃ o, matchCode b ps xs = .ok o := by
  induction ps generalizing b xs with
  | nil => exact ⟨some b, rfl⟩
  | cons q ps ih =>
    cases xs with
    | nil => exact ⟨none, rfl⟩
    | cons x xs =>
      obtain ⟨i, rfl, hi⟩ := hxs x List.mem_cons_self
      obtain ⟨q, rfl⟩ := Option.isSome_iff_exists.1 (hps q List.mem_cons_self)
      have helt : matchElement b (some q) (some i) = .ok ((q.equations? i).bind b.solve) := by
        simp [matchElement, missesArgument_of_isComplete hi]
      cases ho : (q.equations? i).bind b.solve with
      | none =>
        exact ⟨none, Run.except_bind_ok_iff.2 ⟨none, by rw [helt, ho], rfl⟩⟩
      | some c =>
        obtain ⟨o, h⟩ := @ih c xs (fun r hr => hps r (List.mem_cons_of_mem _ hr))
          (fun y hy => hxs y (List.mem_cons_of_mem _ hy))
        exact ⟨o, Run.except_bind_ok_iff.2 ⟨some c, by rw [helt, ho], h⟩⟩

theorem Pattern.matchAt_total (hp : ∀ q ∈ p.code, q.isSome = true) (hc : Ir.CodeComplete code) :
    ∃ o, p.matchAt code term = .ok o := by
  unfold Pattern.matchAt
  split
  · exact ⟨none, rfl⟩
  split
  · exact matchCode_total hp hc
  · exact ⟨none, rfl⟩
  · split
    · exact ⟨none, rfl⟩
    · rename_i last x hlast _
      obtain ⟨o, ho⟩ := @matchCode_total {} p.code code hp hc
      cases o with
      | none => exact ⟨none, Run.except_bind_ok_iff.2 ⟨none, ho, rfl⟩⟩
      | some c => exact ⟨_, Run.except_bind_ok_iff.2 ⟨some c, ho, rfl⟩⟩

/-! ### Bindings of accepted rules -/

/-- Bindings give every name a thing of the kind that `bound` says, and give nothing to others. -/
structure Bindings.Fits (bound : List Binding) (b : Bindings) : Prop where
  /-- What stands for an operand is of the kind of that operand. -/
  value : ∀ {n a}, b.value? n = some a → ∃ k, operandKind? a = some k ∧ kindOf? bound n = some k
  /-- What stands for an argument list is of that kind. -/
  list : ∀ {n l}, b.list? n = some l →
    kindOf? bound n = some .arguments ∧ ∀ a ∈ l, (operandKind? a).isSome = true
  /-- A name of the pattern that is no argument list stands for an operand. -/
  hasValue : ∀ {n k}, kindOf? bound n = some k → k ≠ .arguments → ∃ a, b.value? n = some a
  /-- An argument list of the pattern stands for one. -/
  hasList : ∀ {n}, kindOf? bound n = some .arguments → ∃ l, b.list? n = some l

theorem Rule.Accepted.fits {t : NameTable} {r : Rule} {bound : List Binding}
    (hr : r.Accepted t bound) (h : r.pattern.matchAt code term = .ok (some b)) :
    b.Fits bound := by
  obtain ⟨es, hes, hsat⟩ := Pattern.matchAt_spec h
  have hkind : ∀ {e}, b.Satisfies e →
      ∃ n k, e.binding? = some ⟨n, k⟩ ∧ kindOf? bound n = some k := by
    intro e he
    have hmem : e.binding? ∈ es.map Equation.binding? := List.mem_map_of_mem ((hsat e).1 he)
    rw [hes] at hmem
    obtain ⟨⟨n, k⟩, hb, hbe⟩ := List.mem_map.1 hmem
    exact ⟨n, k, hbe.symm, hr.kinds.2 hb⟩
  have hholds : ∀ {n k}, kindOf? bound n = some k →
      ∃ e, b.Satisfies e ∧ e.binding? = some ⟨n, k⟩ := by
    intro n k hk
    have hmem : some ⟨n, k⟩ ∈ r.pattern.elements.flatten.map some :=
      List.mem_map_of_mem (hr.kinds.1 hk)
    rw [← hes] at hmem
    obtain ⟨e, he, hb⟩ := List.mem_map.1 hmem
    exact ⟨e, (hsat e).2 he, hb⟩
  refine ⟨fun {n a} hv => ?_, fun {n l} hl => ?_, fun {n k} hk hne => ?_, fun {n} hk => ?_⟩
  · obtain ⟨m, k, hb, hk⟩ := @hkind (.value n a) hv
    obtain ⟨k', hk', hm⟩ := Option.map_eq_some_iff.1 hb
    cases hm
    exact ⟨k, hk', hk⟩
  · obtain ⟨m, k, hb, hk⟩ := @hkind (.list n l) hl
    simp only [Equation.binding?] at hb
    split at hb
    · cases hb
      rename_i hall
      exact ⟨hk, List.all_eq_true.1 hall⟩
    · cases hb
  · obtain ⟨e, he, hb⟩ := hholds hk
    cases e with
    | value m a =>
      obtain ⟨k', hk', hm⟩ := Option.map_eq_some_iff.1 hb
      cases hm
      exact ⟨a, he⟩
    | list m l =>
      simp only [Equation.binding?] at hb
      split at hb
      · cases hb; exact (hne rfl).elim
      · cases hb
  · obtain ⟨e, he, hb⟩ := hholds hk
    cases e with
    | value m a =>
      obtain ⟨k', hk', hm⟩ := Option.map_eq_some_iff.1 hb
      cases hm
      cases a <;> simp_all [operandKind?]
      split at hk' <;> simp at hk'
    | list m l =>
      simp only [Equation.binding?] at hb
      split at hb
      · cases hb; exact ⟨l, he⟩
      · cases hb

end CodeTiling
