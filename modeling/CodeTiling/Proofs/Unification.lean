import CodeTiling.Proofs.Matched

/-!
# Matching is unification

An `Assignment` gives every name an operand and an argument list. Under an assignment a pattern is
some code: `Means` says so shape by shape, without a word about how a match is found. The main
statement is that matching finds an assignment when there is one, and finds as much of it as the
code determines.

* `Pattern.matchAt_eq` : on complete input, matching is solving the equations of the pattern;
* `Pattern.means_iff` : the assignments under which a pattern is the code are those that satisfy its
  equations;
* `Bindings.exists_solve` : equations that hold under one assignment have a solution;
* `Rule.matchAt_unifies` : a match is found exactly when there is an assignment, and then all
  assignments agree with it on the names of the pattern.
-/

namespace CodeTiling

open Code (Operand Register)

/-! ### Assignments -/

/-- What names stand for, all of them at once. -/
structure Assignment where
  /-- The operand that a name stands for. -/
  value : Name → Operand
  /-- The argument list that a name stands for. -/
  list : Name → List Operand

/-- Under the assignment the operand pattern is the operand: a register stands for a virtual
register, and a literal for a number. -/
inductive OperandPattern.Means (σ : Assignment) : OperandPattern → Option Ir.Value → Prop
  /-- A register. -/
  | reg {n r : Name} (h : σ.value n = .reg (.virtual r)) : Means σ (.reg n) (some (.reg r))
  /-- A number. -/
  | lit {n : Name} {v : Int64} (h : σ.value n = .imm v) : Means σ (.lit n) (some (.imm v))

/-- Under the assignment the instruction pattern is the instruction. -/
inductive InstrPattern.Means (σ : Assignment) : InstrPattern → Ir.Instr → Prop
  /-- The same operation on two values. -/
  | binary {op : Op} {dst dst' : Name} {l r : OperandPattern} {l' r' : Option Ir.Value}
      (hdst : σ.value dst = .reg (.virtual dst')) (hl : l.Means σ l') (hr : r.Means σ r') :
      Means σ (.binary op dst l r) (.binary op dst' l' r')
  /-- The same operation on one value. -/
  | unary {op : Op} {dst dst' : Name} {x : OperandPattern} {x' : Option Ir.Value}
      (hdst : σ.value dst = .reg (.virtual dst')) (hx : x.Means σ x') :
      Means σ (.unary op dst x) (.unary op dst' x')
  /-- A new stack slot. -/
  | alloca {dst dst' : Name} (hdst : σ.value dst = .reg (.virtual dst')) :
      Means σ (.alloca dst) (.alloca dst')
  /-- A read of memory. -/
  | load {dst dst' : Name} {a : OperandPattern} {a' : Option Ir.Value}
      (hdst : σ.value dst = .reg (.virtual dst')) (ha : a.Means σ a') :
      Means σ (.load dst a) (.load dst' a')
  /-- A write to memory. -/
  | store {a v : OperandPattern} {a' v' : Option Ir.Value} (ha : a.Means σ a')
      (hv : v.Means σ v') : Means σ (.store a v) (.store a' v')
  /-- A call of the function with the arguments, none of which is missing. -/
  | call {dst dst' func func' list : Name} {args : List (Option Ir.Value)}
      (hdst : σ.value dst = .reg (.virtual dst')) (hfunc : σ.value func = .addr func')
      (hargs : args.map (·.map operandOf) = (σ.list list).map some) :
      Means σ (.call dst func list) (.call dst' func' args)

/-- Under the assignment the terminator pattern is the terminator. -/
inductive TermPattern.Means (σ : Assignment) : TermPattern → Ir.Terminator → Prop
  /-- A return without a value. -/
  | void : Means σ (.ret none) (.ret none)
  /-- A return with a value. -/
  | ret {p : OperandPattern} {v : Ir.Value} (h : p.Means σ (some v)) :
      Means σ (.ret (some p)) (.ret (some v))
  /-- A branch. -/
  | br {cond : OperandPattern} {cond' : Option Ir.Value} {t t' e e' : Name}
      (hcond : cond.Means σ cond') (ht : σ.value t = .label t') (he : σ.value e = .label e') :
      Means σ (.br cond t e) (.br cond' t' e')
  /-- A jump. -/
  | jmp {t t' : Name} (ht : σ.value t = .label t') : Means σ (.jmp t) (.jmp t')

/-- Under the assignment the pattern is the beginning of the code, element by element, and the
terminator pattern is the terminator. -/
structure Pattern.Means (σ : Assignment) (p : Pattern) (code : List (Option Ir.Instr))
    (term : Option Ir.Terminator) : Prop where
  /-- Each element is the instruction at its place. -/
  code : List.Forall₂ (fun q x => ∃ i j, q = some i ∧ x = some j ∧ InstrPattern.Means σ i j) p.code
    (code.take p.code.length)
  /-- The terminator pattern is the terminator. -/
  term : ∀ last, p.last = some last → ∃ x, term = some x ∧ last.Means σ x

/-! ### Equations that hold under an assignment -/

/-- The equation holds under the assignment. -/
def Assignment.Holds (σ : Assignment) : Equation → Prop
  | .value n a => σ.value n = a
  | .list n l => σ.list n = l

section

variable {σ : Assignment}

@[simp]
theorem Assignment.holds_value {n : Name} {a : Operand} :
    σ.Holds (.value n a) ↔ σ.value n = a := Iff.rfl

@[simp]
theorem Assignment.holds_list {n : Name} {l : List Operand} :
    σ.Holds (.list n l) ↔ σ.list n = l := Iff.rfl

@[simp]
theorem Assignment.holds_destination {n dst : Name} :
    σ.Holds (destination n dst) ↔ σ.value n = .reg (.virtual dst) := Iff.rfl

theorem OperandPattern.means_iff {p : OperandPattern} {v : Option Ir.Value} :
    p.Means σ v ↔ ∃ e, p.equation? v = some e ∧ σ.Holds e := by
  constructor
  · intro h
    cases h with
    | reg h => exact ⟨_, rfl, h⟩
    | lit h => exact ⟨_, rfl, h⟩
  · rintro ⟨e, he, h⟩
    unfold equation? at he
    split at he
    · cases he
      exact .reg h
    · cases he
      exact .lit h
    · cases he

/-- The operands of a call are those of its arguments, when none of them is missing. -/
theorem map_operandOf_eq_iff {args : List (Option Ir.Value)} (h : ∀ a ∈ args, a.isSome = true)
    {l : List Operand} :
    args.map (·.map operandOf) = l.map some ↔ l = args.filterMap (·.map operandOf) := by
  induction args generalizing l with
  | nil => cases l <;> simp
  | cons a args ih =>
    obtain ⟨ha, hargs⟩ := List.forall_mem_cons.1 h
    obtain ⟨v, rfl⟩ := Option.isSome_iff_exists.1 ha
    cases l with
    | nil => simp
    | cons x l =>
      rw [List.map_cons, List.map_cons, List.cons.injEq, ih hargs, Option.map_some,
        Option.some.injEq, eq_comm]
      simp

theorem InstrPattern.exists_equations? {p : InstrPattern} {x : Ir.Instr} (hx : x.IsComplete)
    (h : p.Means σ x) : ∃ es, p.equations? x = some es ∧ ∀ e ∈ es, σ.Holds e := by
  cases h with
  | @binary op dst dst' l r l' r' hdst hl hr =>
    obtain ⟨el, hel, hl⟩ := OperandPattern.means_iff.1 hl
    obtain ⟨er, her, hr⟩ := OperandPattern.means_iff.1 hr
    exact ⟨[destination dst dst', el, er], by simp [equations?, hel, her], by simp [hdst, hl, hr]⟩
  | @unary op dst dst' y y' hdst hy =>
    obtain ⟨e, he, hy⟩ := OperandPattern.means_iff.1 hy
    exact ⟨[destination dst dst', e], by simp [equations?, he], by simp [hdst, hy]⟩
  | @alloca dst dst' hdst => exact ⟨[destination dst dst'], rfl, by simp [hdst]⟩
  | @load dst dst' a a' hdst ha =>
    obtain ⟨e, he, ha⟩ := OperandPattern.means_iff.1 ha
    exact ⟨[destination dst dst', e], by simp [equations?, he], by simp [hdst, ha]⟩
  | @store a v a' v' ha hv =>
    obtain ⟨ea, hea, ha⟩ := OperandPattern.means_iff.1 ha
    obtain ⟨ev, hev, hv⟩ := OperandPattern.means_iff.1 hv
    exact ⟨[ea, ev], by simp [equations?, hea, hev], by simp [ha, hv]⟩
  | call hdst hfunc hargs =>
    exact ⟨_, rfl, by simp [hdst, hfunc, (map_operandOf_eq_iff hx).1 hargs]⟩

theorem InstrPattern.means_of_equations? {p : InstrPattern} {x : Ir.Instr} (hx : x.IsComplete)
    {es : List Equation} (hes : p.equations? x = some es) (h : ∀ e ∈ es, σ.Holds e) :
    p.Means σ x := by
  unfold equations? at hes
  split at hes
  · simp only [Option.ite_none_right_eq_some, bind, Option.bind_eq_some_iff, pure,
      Option.some.injEq] at hes
    obtain ⟨rfl, el, hel, er, her, rfl⟩ := hes
    simp only [List.forall_mem_cons, Assignment.holds_destination] at h
    exact .binary h.1 (OperandPattern.means_iff.2 ⟨el, hel, h.2.1⟩)
      (OperandPattern.means_iff.2 ⟨er, her, h.2.2.1⟩)
  · simp only [Option.ite_none_right_eq_some, bind, Option.bind_eq_some_iff, pure,
      Option.some.injEq] at hes
    obtain ⟨rfl, e, he, rfl⟩ := hes
    simp only [List.forall_mem_cons, Assignment.holds_destination] at h
    exact .unary h.1 (OperandPattern.means_iff.2 ⟨e, he, h.2.1⟩)
  · cases hes
    exact .alloca (h _ List.mem_cons_self)
  · simp only [bind, Option.bind_eq_some_iff, pure, Option.some.injEq] at hes
    obtain ⟨e, he, rfl⟩ := hes
    simp only [List.forall_mem_cons, Assignment.holds_destination] at h
    exact .load h.1 (OperandPattern.means_iff.2 ⟨e, he, h.2.1⟩)
  · simp only [bind, Option.bind_eq_some_iff, pure, Option.some.injEq] at hes
    obtain ⟨ea, hea, ev, hev, rfl⟩ := hes
    simp only [List.forall_mem_cons] at h
    exact .store (OperandPattern.means_iff.2 ⟨ea, hea, h.1⟩)
      (OperandPattern.means_iff.2 ⟨ev, hev, h.2.1⟩)
  · cases hes
    simp only [List.forall_mem_cons, Assignment.holds_destination, Assignment.holds_value,
      Assignment.holds_list] at h
    exact .call h.1 h.2.1 ((map_operandOf_eq_iff hx).2 h.2.2.1)
  · cases hes

theorem InstrPattern.means_iff {p : InstrPattern} {x : Ir.Instr} (hx : x.IsComplete) :
    p.Means σ x ↔ ∃ es, p.equations? x = some es ∧ ∀ e ∈ es, σ.Holds e :=
  ⟨exists_equations? hx, fun ⟨_, hes, h⟩ => means_of_equations? hx hes h⟩

theorem TermPattern.means_iff {p : TermPattern} {x : Ir.Terminator} :
    p.Means σ x ↔ ∃ es, p.equations? x = some es ∧ ∀ e ∈ es, σ.Holds e := by
  constructor
  · intro h
    cases h with
    | void => exact ⟨[], rfl, by simp⟩
    | @ret p v h =>
      obtain ⟨e, he, h⟩ := OperandPattern.means_iff.1 h
      exact ⟨[e], by simp [equations?, he], by simp [h]⟩
    | @br cond cond' t t' e e' hcond ht he =>
      obtain ⟨ec, hec, hcond⟩ := OperandPattern.means_iff.1 hcond
      exact ⟨[ec, .value t (.label t'), .value e (.label e')], by simp [equations?, hec],
        by simp [hcond, ht, he]⟩
    | @jmp t t' ht => exact ⟨[.value t (.label t')], rfl, by simp [ht]⟩
  · rintro ⟨es, hes, h⟩
    unfold equations? at hes
    split at hes
    · exact .void
    · simp only [bind, Option.bind_eq_some_iff, pure, Option.some.injEq] at hes
      obtain ⟨e, he, rfl⟩ := hes
      exact .ret (OperandPattern.means_iff.2 ⟨e, he, h e List.mem_cons_self⟩)
    · simp only [bind, Option.bind_eq_some_iff, pure, Option.some.injEq] at hes
      obtain ⟨e, he, rfl⟩ := hes
      simp only [List.forall_mem_cons, Assignment.holds_value] at h
      exact .br (OperandPattern.means_iff.2 ⟨e, he, h.1⟩) h.2.1 h.2.2.1
    · cases hes
      exact .jmp (h _ List.mem_cons_self)
    · cases hes

end

/-! ### Matching as solving -/

/-- The equations for elements against the beginning of the code. -/
def codeEquations? :
    List (Option InstrPattern) → List (Option Ir.Instr) → Option (List Equation)
  | [], _ => some []
  | some p :: ps, some x :: xs => do
    let es ← p.equations? x
    let fs ← codeEquations? ps xs
    return es ++ fs
  | _, _ => none

/-- The equations for a pattern against the beginning of the code. -/
def Pattern.equations? (p : Pattern) (code : List (Option Ir.Instr))
    (term : Option Ir.Terminator) : Option (List Equation) :=
  match p.last, term with
  | none, _ => codeEquations? p.code code
  | some _, none => none
  | some last, some x =>
    if code.length ≠ p.code.length then none
    else do
      let es ← codeEquations? p.code code
      let fs ← last.equations? x
      return es ++ fs

theorem Bindings.solve_append (b : Bindings) (es fs : List Equation) :
    b.solve (es ++ fs) = (b.solve es).bind fun c => c.solve fs := by
  induction es generalizing b with
  | nil => rfl
  | cons e es ih =>
    rw [List.cons_append, solve, solve, Option.bind_assoc]
    exact congrArg _ (funext fun c => ih c)

/-- The equations of an element are solved before those of the elements after it. -/
theorem solve_codeEquations?_cons (b : Bindings) (p : InstrPattern)
    (ps : List (Option InstrPattern)) (x : Ir.Instr) (xs : List (Option Ir.Instr)) :
    (codeEquations? (some p :: ps) (some x :: xs)).bind b.solve =
      ((p.equations? x).bind b.solve).bind fun c => (codeEquations? ps xs).bind c.solve := by
  cases hes : p.equations? x with
  | none => simp [codeEquations?, hes]
  | some es =>
    cases hfs : codeEquations? ps xs with
    | none => simp [codeEquations?, hes, hfs]
    | some fs => simp [codeEquations?, hes, hfs, Bindings.solve_append]

theorem codeEquations?_cons {q : Option InstrPattern} {ps : List (Option InstrPattern)}
    {x : Option Ir.Instr} {xs : List (Option Ir.Instr)} {gs : List Equation}
    (h : codeEquations? (q :: ps) (x :: xs) = some gs) :
    ∃ i j, q = some i ∧ x = some j ∧ ∃ es, i.equations? j = some es ∧
      ∃ fs, codeEquations? ps xs = some fs ∧ gs = es ++ fs := by
  cases q with
  | none => cases h
  | some i =>
    cases x with
    | none => cases h
    | some j =>
      simp only [codeEquations?, bind, Option.bind_eq_some_iff, pure, Option.some.injEq] at h
      obtain ⟨es, hes, fs, hfs, rfl⟩ := h
      exact ⟨i, j, rfl, rfl, es, hes, fs, hfs, rfl⟩

theorem length_le_of_codeEquations? {ps : List (Option InstrPattern)}
    {xs : List (Option Ir.Instr)} {es : List Equation} (h : codeEquations? ps xs = some es) :
    ps.length ≤ xs.length := by
  induction ps generalizing xs es with
  | nil => exact Nat.zero_le _
  | cons q ps ih =>
    cases xs with
    | nil => cases q <;> cases h
    | cons x xs =>
      obtain ⟨_, _, _, _, _, _, fs, hfs, _⟩ := codeEquations?_cons h
      exact Nat.succ_le_succ (ih hfs)

variable {code : List (Option Ir.Instr)} {term : Option Ir.Terminator}

theorem matchCode_eq {ps : List (Option InstrPattern)} (b : Bindings)
    (hps : ∀ q ∈ ps, q.isSome = true) (hcode : ∀ i, some i ∈ code → i.IsComplete) :
    matchCode b ps code = .ok ((codeEquations? ps code).bind b.solve) := by
  induction ps generalizing b code with
  | nil => rfl
  | cons q ps ih =>
    obtain ⟨p, rfl⟩ := Option.isSome_iff_exists.1 (hps q List.mem_cons_self)
    cases code with
    | nil => rfl
    | cons x xs =>
      cases x with
      | none => rfl
      | some x =>
        have hx := missesArgument_of_isComplete (q := p) (hcode x List.mem_cons_self)
        rw [matchCode, matchElement, if_neg (by simp [hx]), solve_codeEquations?_cons]
        cases (p.equations? x).bind b.solve with
        | none => rfl
        | some c =>
          exact ih c (fun q hq => hps q (List.mem_cons_of_mem _ hq))
            fun i hi => hcode i (List.mem_cons_of_mem _ hi)

/-- **On complete input matching is solving the equations of the pattern.** -/
theorem Pattern.matchAt_eq {p : Pattern} (hp : ∀ q ∈ p.code, q.isSome = true)
    (hcode : ∀ i, some i ∈ code → i.IsComplete) :
    p.matchAt code term = .ok ((p.equations? code term).bind (Bindings.solve {})) := by
  have hshort : code.length < p.code.length → codeEquations? p.code code = none := by
    intro hlt
    cases hes : codeEquations? p.code code with
    | none => rfl
    | some es => exact absurd (length_le_of_codeEquations? hes) (Nat.not_le.2 hlt)
  obtain ⟨ps, last⟩ := p
  cases last with
  | none =>
    by_cases hlt : code.length < ps.length
    · simp only [matchAt, equations?, if_pos hlt, hshort hlt, Option.bind_none]
    · simp only [matchAt, equations?, if_neg hlt, matchCode_eq {} hp hcode]
  | some last =>
    cases term with
    | none => simp only [matchAt, equations?, Option.bind_none, ite_self]
    | some x =>
      by_cases hne : code.length ≠ ps.length
      · simp only [matchAt, equations?, if_pos hne, Option.bind_none, ite_self]
      · simp only [matchAt, equations?, if_neg hne, if_neg (by omega : ¬code.length < ps.length),
          matchCode_eq {} hp hcode]
        cases codeEquations? ps code with
        | none => rfl
        | some es =>
          -- without the equations of the terminator there is no match, solved or not
          cases last.equations? x with
          | none => cases hs : Bindings.solve {} es <;> simp [hs] <;> rfl
          | some fs => cases hs : Bindings.solve {} es <;> simp [hs, Bindings.solve_append] <;> rfl

section

variable {σ : Assignment}

theorem code_means_iff {ps : List (Option InstrPattern)}
    (hcode : ∀ i, some i ∈ code → i.IsComplete) :
    List.Forall₂ (fun q x => ∃ i j, q = some i ∧ x = some j ∧ InstrPattern.Means σ i j) ps
        (code.take ps.length) ↔
      ∃ es, codeEquations? ps code = some es ∧ ∀ e ∈ es, σ.Holds e := by
  induction ps generalizing code with
  | nil => simp [codeEquations?]
  | cons q ps ih =>
    cases code with
    | nil =>
      rw [List.take_nil]
      exact ⟨nofun, fun ⟨_, hes, _⟩ => absurd (length_le_of_codeEquations? hes) (by simp)⟩
    | cons x xs =>
      have hxs := ih fun i hi => hcode i (List.mem_cons_of_mem x hi)
      rw [List.length_cons, List.take_succ_cons, List.forall₂_cons, hxs]
      constructor
      · rintro ⟨⟨i, j, rfl, rfl, hij⟩, fs, hfs, hf⟩
        obtain ⟨es, hes, he⟩ := (InstrPattern.means_iff (hcode j List.mem_cons_self)).1 hij
        exact ⟨es ++ fs, by simp [codeEquations?, hes, hfs], List.forall_mem_append.2 ⟨he, hf⟩⟩
      · rintro ⟨gs, hgs, hg⟩
        obtain ⟨i, j, rfl, rfl, es, hes, fs, hfs, rfl⟩ := codeEquations?_cons hgs
        obtain ⟨he, hf⟩ := List.forall_mem_append.1 hg
        exact ⟨⟨i, j, rfl, rfl,
          (InstrPattern.means_iff (hcode j List.mem_cons_self)).2 ⟨es, hes, he⟩⟩, fs, hfs, hf⟩

/-- **The assignments under which a pattern is the code are those that satisfy its equations.** -/
theorem Pattern.means_iff {p : Pattern} (hcode : ∀ i, some i ∈ code → i.IsComplete) :
    (p.last.isSome = true → p.code.length = code.length ∧ term.isSome = true) ∧
        p.Means σ code term ↔
      ∃ es, p.equations? code term = some es ∧ ∀ e ∈ es, σ.Holds e := by
  obtain ⟨ps, last⟩ := p
  cases last with
  | none =>
    simp only [equations?]
    rw [← code_means_iff hcode]
    exact ⟨fun h => h.2.code, fun h => ⟨nofun, h, nofun⟩⟩
  | some last =>
    cases term with
    | none => simp [equations?]
    | some x =>
      constructor
      · rintro ⟨hlen, h⟩
        obtain ⟨es, hes, he⟩ := (code_means_iff hcode).1 h.code
        obtain ⟨_, ⟨⟩, hx⟩ := h.term last rfl
        obtain ⟨fs, hfs, hf⟩ := TermPattern.means_iff.1 hx
        exact ⟨es ++ fs, by simp_all [equations?], List.forall_mem_append.2 ⟨he, hf⟩⟩
      · rintro ⟨gs, hgs, hg⟩
        simp only [equations?, ne_eq, ite_not, Option.ite_none_right_eq_some, bind,
          Option.bind_eq_some_iff, pure, Option.some.injEq] at hgs
        obtain ⟨hlen, es, hes, fs, hfs, rfl⟩ := hgs
        obtain ⟨he, hf⟩ := List.forall_mem_append.1 hg
        refine ⟨fun _ => ⟨hlen.symm, rfl⟩, (code_means_iff hcode).2 ⟨es, hes, he⟩, ?_⟩
        rintro _ ⟨⟩
        exact ⟨x, rfl, TermPattern.means_iff.2 ⟨fs, hfs, hf⟩⟩

/-! ### Solutions and assignments -/

theorem Bindings.exists_bind {b : Bindings} {e : Equation}
    (hb : ∀ e, b.Satisfies e → σ.Holds e) (he : σ.Holds e) : ∃ c, b.bind e = some c := by
  cases e with
  | value n a =>
    cases hn : b.value? n with
    | none => exact ⟨{ b with values := b.values ++ [(n, a)] }, by simp only [bind, hn]⟩
    | some a' =>
      have ha : a' = a := (hb (.value n a') hn).symm.trans he
      exact ⟨b, by simp only [bind, hn, if_pos ha]⟩
  | list n l =>
    cases hn : b.list? n with
    | none => exact ⟨{ b with lists := b.lists ++ [(n, l)] }, by simp only [bind, hn]⟩
    | some l' =>
      have hl : l' = l := (hb (.list n l') hn).symm.trans he
      exact ⟨b, by simp only [bind, hn, if_pos hl]⟩

/-- **Equations that hold under one assignment have a solution.** -/
theorem Bindings.exists_solve {b : Bindings} {es : List Equation}
    (hb : ∀ e, b.Satisfies e → σ.Holds e) (hes : ∀ e ∈ es, σ.Holds e) :
    ∃ c, b.solve es = some c := by
  induction es generalizing b with
  | nil => exact ⟨b, rfl⟩
  | cons e es ih =>
    obtain ⟨he, hes⟩ := List.forall_mem_cons.1 hes
    obtain ⟨c, hc⟩ := exists_bind hb he
    -- what `c` satisfies is what `b` satisfies and the equation just added
    have hcs : ∀ e, c.Satisfies e → σ.Holds e := by
      intro e' he'
      rcases (bind_satisfies hc).1 he' with h | rfl
      · exact hb e' h
      · exact he
    obtain ⟨d, hd⟩ := ih hcs hes
    exact ⟨d, by rw [solve, hc, Option.bind_some, hd]⟩

end

/-- An assignment that extends the bindings. -/
def Bindings.toAssignment (b : Bindings) : Assignment where
  value n := (b.value? n).getD (.imm 0)
  list n := (b.list? n).getD []

theorem Bindings.Satisfies.holds_toAssignment {b : Bindings} {e : Equation}
    (h : b.Satisfies e) : b.toAssignment.Holds e := by
  cases e with
  | value n a =>
    have hn : b.value? n = some a := h
    simp [toAssignment, hn]
  | list n l =>
    have hn : b.list? n = some l := h
    simp [toAssignment, hn]

/-- The names of a pattern that stand for an operand. -/
def Pattern.valueNames (p : Pattern) : List Name :=
  (p.elements.flatten.filter (·.kind ≠ .arguments)).map (·.name)

/-- The names of a pattern that stand for an argument list. -/
def Pattern.listNames (p : Pattern) : List Name :=
  (p.elements.flatten.filter (·.kind = .arguments)).map (·.name)

/-- What an assignment gives to the names of a pattern. -/
def Assignment.restrict (σ : Assignment) (p : Pattern) :
    (Name → Option Operand) × (Name → Option (List Operand)) :=
  (fun n => if n ∈ p.valueNames then some (σ.value n) else none,
    fun n => if n ∈ p.listNames then some (σ.list n) else none)

theorem Equation.eq_of_binding? {e : Equation} {n : Name} {k : BindKind}
    (h : e.binding? = some ⟨n, k⟩) :
    k ≠ .arguments ∧ (∃ a, e = .value n a) ∨ k = .arguments ∧ ∃ l, e = .list n l := by
  cases e with
  | value m a =>
    obtain ⟨k', hk, h⟩ := Option.map_eq_some_iff.1 h
    cases h
    refine .inl ⟨?_, a, rfl⟩
    rintro rfl
    unfold operandKind? at hk
    split at hk <;> cases hk
  | list m l =>
    simp only [binding?, Option.ite_none_right_eq_some, Option.some.injEq] at h
    cases h.2
    exact .inr ⟨rfl, l, rfl⟩

/-- The name in an equation. -/
def Equation.name : Equation → Name
  | .value n _ => n
  | .list n _ => n

/-- Equations that amount to bindings are about their names. -/
theorem Equation.map_name {es : List Equation} {bs : List Binding}
    (h : es.map binding? = bs.map some) : es.map name = bs.map (·.name) := by
  induction es generalizing bs with
  | nil =>
    cases bs with
    | nil => rfl
    | cons b bs => cases h
  | cons e es ih =>
    cases bs with
    | nil => cases h
    | cons b bs =>
      obtain ⟨he, hes⟩ := List.cons.inj h
      have hname : e.name = b.name := by
        obtain ⟨n, k⟩ := b
        rcases eq_of_binding? he with ⟨-, a, rfl⟩ | ⟨-, l, rfl⟩ <;> rfl
      rw [List.map_cons, List.map_cons, hname, ih hes]

theorem Pattern.mem_valueNames {p : Pattern} {n : Name} :
    n ∈ p.valueNames ↔ ∃ k, ⟨n, k⟩ ∈ p.elements.flatten ∧ k ≠ .arguments := by
  simp only [valueNames, List.mem_map, List.mem_filter, decide_eq_true_eq]
  exact ⟨fun ⟨⟨_, k⟩, ⟨h, hk⟩, rfl⟩ => ⟨k, h, hk⟩, fun ⟨k, h, hk⟩ => ⟨⟨n, k⟩, ⟨h, hk⟩, rfl⟩⟩

theorem Pattern.mem_listNames {p : Pattern} {n : Name} :
    n ∈ p.listNames ↔ ⟨n, .arguments⟩ ∈ p.elements.flatten := by
  simp only [listNames, List.mem_map, List.mem_filter, decide_eq_true_eq]
  exact ⟨fun ⟨⟨_, _⟩, ⟨h, rfl⟩, rfl⟩ => h, fun h => ⟨_, ⟨h, rfl⟩, rfl⟩⟩

section

variable {p : Pattern} {b : Bindings} (h : p.matchAt code term = .ok (some b))
include h

/-- The bindings of a match give an operand to each name that stands for one, and an argument list
to each of the others. -/
theorem Pattern.mem_names_iff (n : Name) :
    (n ∈ p.valueNames ↔ ∃ a, b.value? n = some a) ∧
      (n ∈ p.listNames ↔ ∃ l, b.list? n = some l) := by
  obtain ⟨es, hes, hsat⟩ := matchAt_spec h
  -- a name is in the pattern as what some equation makes of it
  have hname : ∀ k, ⟨n, k⟩ ∈ p.elements.flatten ↔
      ∃ e, b.Satisfies e ∧ e.binding? = some ⟨n, k⟩ := by
    intro k
    have hmem : ⟨n, k⟩ ∈ p.elements.flatten ↔ some ⟨n, k⟩ ∈ es.map Equation.binding? := by
      simp [hes]
    rw [hmem, List.mem_map]
    simp only [hsat]
  have hsome : ∀ e, b.Satisfies e → ∃ m k, e.binding? = some ⟨m, k⟩ := by
    intro e he
    have hmem := List.mem_map_of_mem (f := Equation.binding?) ((hsat e).1 he)
    rw [hes] at hmem
    obtain ⟨⟨m, k⟩, -, hb⟩ := List.mem_map.1 hmem
    exact ⟨m, k, hb.symm⟩
  rw [mem_valueNames, mem_listNames]
  refine ⟨⟨?_, ?_⟩, ?_, ?_⟩
  · rintro ⟨k, hk, hne⟩
    obtain ⟨e, he, hb⟩ := (hname k).1 hk
    rcases Equation.eq_of_binding? hb with ⟨-, a, rfl⟩ | ⟨hk, -⟩
    · exact ⟨a, he⟩
    · exact absurd hk hne
  · rintro ⟨a, ha⟩
    obtain ⟨m, k, hb⟩ := hsome (.value n a) ha
    rcases Equation.eq_of_binding? hb with ⟨hk, a', ⟨⟩⟩ | ⟨-, l, ⟨⟩⟩
    exact ⟨k, (hname k).2 ⟨.value n a, ha, hb⟩, hk⟩
  · intro hk
    obtain ⟨e, he, hb⟩ := (hname _).1 hk
    rcases Equation.eq_of_binding? hb with ⟨hne, -⟩ | ⟨-, l, rfl⟩
    · exact absurd rfl hne
    · exact ⟨l, he⟩
  · rintro ⟨l, hl⟩
    obtain ⟨m, k, hb⟩ := hsome (.list n l) hl
    rcases Equation.eq_of_binding? hb with ⟨-, a, ⟨⟩⟩ | ⟨rfl, l', ⟨⟩⟩
    exact (hname _).2 ⟨.list n l, hl, hb⟩

/-- An assignment agrees with the bindings of a match on the names of the pattern when the
equations that hold in the bindings hold under it. -/
theorem Pattern.restrict_eq_iff (σ : Assignment) :
    σ.restrict p = (b.value?, b.list?) ↔ ∀ e, b.Satisfies e → σ.Holds e := by
  constructor
  · intro hσ e he
    have hvalue := fun n => congrFun (congrArg Prod.fst hσ) n
    have hlist := fun n => congrFun (congrArg Prod.snd hσ) n
    cases e with
    | value n a => exact Option.some.inj (Option.ite_none_right_eq_some.1 ((hvalue n).trans he)).2
    | list n l => exact Option.some.inj (Option.ite_none_right_eq_some.1 ((hlist n).trans he)).2
  · intro hσ
    refine Prod.ext (funext fun n => ?_) (funext fun n => ?_)
    · by_cases hn : n ∈ p.valueNames
      · obtain ⟨a, ha⟩ := (mem_names_iff h n).1.1 hn
        simp only [Assignment.restrict, if_pos hn, ha]
        exact congrArg some (hσ (.value n a) ha)
      · simp only [Assignment.restrict, if_neg hn]
        exact (Option.eq_none_iff_forall_ne_some.2 fun a ha =>
          hn ((mem_names_iff h n).1.2 ⟨a, ha⟩)).symm
    · by_cases hn : n ∈ p.listNames
      · obtain ⟨l, hl⟩ := (mem_names_iff h n).2.1 hn
        simp only [Assignment.restrict, if_pos hn, hl]
        exact congrArg some (hσ (.list n l) hl)
      · simp only [Assignment.restrict, if_neg hn]
        exact (Option.eq_none_iff_forall_ne_some.2 fun l hl =>
          hn ((mem_names_iff h n).2.2 ⟨l, hl⟩)).symm

end

/-! ### Matching finds the assignments -/

/-- **Matching is unification.** For a pattern without missing elements and code without missing
arguments, matching returns; it finds a match exactly when the lengths are right and the pattern is
the code under some assignment. The match uses up the length of the pattern, and the assignments
under which the pattern is the code are those that agree with its bindings on the names of the
pattern, so that they all give the same to these names. -/
theorem Rule.matchAt_unifies {r : Rule} (hr : ∀ q ∈ r.pattern.code, q.isSome = true)
    (hcode : ∀ i, some i ∈ code → i.IsComplete) :
    ∃ res, r.matchAt code term = .ok res ∧
      (res.isSome = true ↔
        r.pattern.code.length ≤ code.length ∧
        (r.pattern.last.isSome = true →
          r.pattern.code.length = code.length ∧ term.isSome = true) ∧
        ∃ σ, r.pattern.Means σ code term) ∧
      ∀ b n, res = some (b, n) →
        n = r.pattern.code.length ∧
        ∀ σ, r.pattern.Means σ code term ↔ σ.restrict r.pattern = (b.value?, b.list?) := by
  have hmatch : r.pattern.matchAt code term = _ := Pattern.matchAt_eq hr hcode
  have hempty : ∀ e, Bindings.Satisfies {} e → ∀ σ : Assignment, σ.Holds e :=
    fun e he => absurd he (Bindings.not_satisfies_empty e)
  refine ⟨_, by rw [Rule.matchAt, hmatch]; rfl, ?_, ?_⟩
  · rw [Option.isSome_map]
    constructor
    · intro h
      obtain ⟨b, hb⟩ := Option.isSome_iff_exists.1 h
      obtain ⟨es, hes, hs⟩ := Option.bind_eq_some_iff.1 hb
      have hσ : ∀ e ∈ es, b.toAssignment.Holds e := fun e he =>
        ((Bindings.solve_satisfies hs).2 (.inr he)).holds_toAssignment
      obtain ⟨hlast, hmeans⟩ := (Pattern.means_iff hcode).2 ⟨es, hes, hσ⟩
      exact ⟨(Pattern.matchAt_length (hb ▸ hmatch)).1, hlast, _, hmeans⟩
    · rintro ⟨-, hlast, σ, hmeans⟩
      obtain ⟨es, hes, hσ⟩ := (Pattern.means_iff hcode).1 ⟨hlast, hmeans⟩
      obtain ⟨b, hb⟩ := Bindings.exists_solve (fun e he => hempty e he σ) hσ
      simp [hes, hb]
  · intro b n h
    obtain ⟨_, hb, ⟨⟩⟩ := Option.map_eq_some_iff.1 h
    obtain ⟨es, hes, hs⟩ := Option.bind_eq_some_iff.1 hb
    refine ⟨rfl, fun σ => ?_⟩
    have hlast := (Pattern.matchAt_length (hb ▸ hmatch)).2
    rw [Pattern.restrict_eq_iff (hb ▸ hmatch),
      ← and_iff_right (b := r.pattern.Means σ code term) hlast, Pattern.means_iff hcode]
    constructor
    · rintro ⟨_, hes', hσ⟩ e he
      obtain rfl := Option.some.inj (hes.symm.trans hes')
      exact ((Bindings.solve_satisfies hs).1 he).elim (fun he => hempty e he σ) (hσ e)
    · intro hσ
      exact ⟨es, hes, fun e he => hσ e ((Bindings.solve_satisfies hs).2 (.inr he))⟩

/-- Return what a call gives. -/
def returnCall : Rule where
  name := "returnCall"
  pattern := { code := [some (.call ⟨1⟩ ⟨2⟩ ⟨3⟩)], last := some (.ret (some (.reg ⟨1⟩))) }

/-- A call with a register and a number. -/
def oneCall : List (Option Ir.Instr) :=
  [some (.call ⟨5⟩ ⟨6⟩ [some (.reg ⟨7⟩), some (.imm 3)])]

/-- The register that is returned has to be the one that the call writes. -/
theorem Rule.matchAt_unifies_returnCall :
    (∀ q ∈ returnCall.pattern.code, q.isSome = true) ∧ (∀ i, some i ∈ oneCall → i.IsComplete) ∧
      (∃ σ, returnCall.pattern.Means σ oneCall (some (.ret (some (.reg ⟨5⟩)))) ∧
        ∀ σ', returnCall.pattern.Means σ' oneCall (some (.ret (some (.reg ⟨5⟩)))) ↔
          σ'.restrict returnCall.pattern = σ.restrict returnCall.pattern) ∧
      ∀ σ, ¬returnCall.pattern.Means σ oneCall (some (.ret (some (.reg ⟨7⟩)))) := by
  have hr : ∀ q ∈ returnCall.pattern.code, q.isSome = true := by decide
  have hcode : ∀ i, some i ∈ oneCall → i.IsComplete := by
    intro i hi
    obtain rfl : i = .call ⟨5⟩ ⟨6⟩ [some (.reg ⟨7⟩), some (.imm 3)] := by simpa [oneCall] using hi
    simp [Ir.Instr.IsComplete]
  refine ⟨hr, hcode, ?_, fun σ hσ => ?_⟩
  · obtain ⟨res, hres, hsome, huniq⟩ :=
      @Rule.matchAt_unifies oneCall (some (.ret (some (.reg ⟨5⟩)))) returnCall hr hcode
    obtain ⟨b, n, rfl⟩ : ∃ b n, res = some (b, n) := ⟨_, _, Except.ok.inj (hres.symm.trans rfl)⟩
    obtain ⟨-, -, σ, hσ⟩ := hsome.1 rfl
    have hb := (huniq b n rfl).2
    exact ⟨σ, hσ, fun σ' => by rw [hb σ', (hb σ).1 hσ]⟩
  · obtain ⟨res, hres, hsome, -⟩ :=
      @Rule.matchAt_unifies oneCall (some (.ret (some (.reg ⟨7⟩)))) returnCall hr hcode
    obtain rfl : res = none := Except.ok.inj (hres.symm.trans rfl)
    exact absurd (hsome.2 ⟨by decide, fun _ => ⟨rfl, rfl⟩, σ, hσ⟩) (by simp)

end CodeTiling
