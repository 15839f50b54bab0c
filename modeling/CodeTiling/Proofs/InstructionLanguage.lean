import CodeTiling.Proofs.Loaded
import CodeTiling.Proofs.Unification
import CodeTiling.Proofs.WellFormed

/-!
# Rules and programs speak one language

Patterns and instructions are loaded by two functions, each with its own idea of what an operation
looks like. Matching compares what comes out of them. All three have to agree on the shape of every
operation and on the order of its operands, or a rule would silently never apply.

They do: a pattern matches an instruction exactly when the two documents have the same operation and
numbers in the same places. A call is an exception, since the pattern of a call has one name for all
operands.

* `InstrPattern.isSome_equations?_iff` : when an instruction has the shape of a pattern;
* `Bindings.exists_solve_of_nodup` : equations for different names can be solved;
* `Load.loads_instrPattern_shape`, `Load.loads_instr_shape` : what loading keeps of a document;
* `Load.matchAt_loaded_iff` : the main result.
-/

namespace CodeTiling

/-! ### Operations -/

namespace Op

variable {op : Op} {s : Text}

/-- The number of a named operation is its place in the list. -/
theorem idxOf?_of_ofText? (h : ofText? s = some op) :
    texts.idxOf? s = some op.code.toNat ∧ op.code.toNat ≠ 0 := by
  unfold ofText? at h
  split at h
  · cases h
  · cases h
  · rename_i i hzero hi
    obtain rfl := Option.some.inj h
    have hlt : i < 24 := (List.findIdx?_eq_some_iff_getElem.1 hi).1
    have hcode : (UInt8.ofNat i).toNat = i := by
      rw [UInt8.toNat_ofNat']
      exact Nat.mod_eq_of_lt (by omega)
    rw [hcode]
    exact ⟨hi, hzero⟩

theorem text_of_ofText? (h : ofText? s = some op) : op.text = s := by
  obtain ⟨hi, -⟩ := idxOf?_of_ofText? h
  obtain ⟨hlt, heq, -⟩ := List.findIdx?_eq_some_iff_getElem.1 hi
  have htext : op.text = texts[op.code.toNat] := by
    rw [text, List.getD_eq_getElem?_getD, List.getElem?_eq_getElem hlt, Option.getD_some]
  rw [htext]
  exact eq_of_beq heq

/-- Different texts name different operations. -/
theorem eq_iff_of_ofText? {op' : Op} {s' : Text} (h : ofText? s = some op)
    (h' : ofText? s' = some op') : s = s' ↔ op = op' := by
  constructor
  · rintro rfl
    exact Option.some.inj (h.symm.trans h')
  · rintro rfl
    rw [← text_of_ofText? h, ← text_of_ofText? h']

theorem isBinary_iff :
    op.isBinary = true ↔ (1 ≤ op.code.toNat ∧ op.code.toNat ≤ 11) ∨
      (14 ≤ op.code.toNat ∧ op.code.toNat ≤ 19) := by
  simp [isBinary, isCompare, UInt8.le_iff_toNat_le]

theorem isUnary_iff : op.isUnary = true ↔ 12 ≤ op.code.toNat ∧ op.code.toNat ≤ 13 := by
  simp [isUnary, UInt8.le_iff_toNat_le]

theorem eq_iff_number {op' : Op} : op = op' ↔ op.code.toNat = op'.code.toNat := by
  obtain ⟨c⟩ := op
  obtain ⟨c'⟩ := op'
  rw [mk.injEq, UInt8.toNat_inj]

/-- A named operation that is neither binary nor unary is one of four. -/
theorem eq_store_of_ofText? (h : ofText? s = some op) (hbinary : ¬ op.isBinary = true)
    (hunary : ¬ op.isUnary = true) (halloca : op ≠ .alloca) (hload : op ≠ .load)
    (hcall : op ≠ .call) : op = .store := by
  obtain ⟨hi, hzero⟩ := idxOf?_of_ofText? h
  have hlt : op.code.toNat < 24 := (List.findIdx?_eq_some_iff_getElem.1 hi).1
  rw [isBinary_iff] at hbinary
  rw [isUnary_iff] at hunary
  rw [ne_eq, eq_iff_number] at halloca hload hcall
  rw [eq_iff_number]
  change op.code.toNat = 22
  change ¬ op.code.toNat = 20 at halloca
  change ¬ op.code.toNat = 21 at hload
  change ¬ op.code.toNat = 23 at hcall
  omega

end Op

/-! ### Shapes -/

/-- The shapes of instructions. -/
inductive Shape where
  /-- A destination and two operands. -/
  | binary
  /-- A destination and an operand. -/
  | unary
  /-- A destination. -/
  | alloca
  /-- A destination and an address. -/
  | load
  /-- An address and an operand. -/
  | store
  /-- A destination, a function and operands. -/
  | call

/-- The shape that an operation asks for. -/
def Op.shape (op : Op) : Shape :=
  if op.isBinary then .binary
  else if op.isUnary then .unary
  else if op = .alloca then .alloca
  else if op = .load then .load
  else if op = .call then .call
  else .store

namespace InstrPattern

/-- The operation of a pattern. -/
def op : InstrPattern → Op
  | binary op .. => op
  | unary op .. => op
  | alloca .. => .alloca
  | load .. => .load
  | store .. => .store
  | call .. => .call

/-- The operands of a pattern. That of a call has a name for all of them, and no operands. -/
def operands : InstrPattern → List OperandPattern
  | binary _ _ l r => [l, r]
  | unary _ _ x => [x]
  | alloca _ => []
  | load _ a => [a]
  | store a v => [a, v]
  | call .. => []

/-- The shape of a pattern. -/
def shape : InstrPattern → Shape
  | binary .. => .binary
  | unary .. => .unary
  | alloca .. => .alloca
  | load .. => .load
  | store .. => .store
  | call .. => .call

end InstrPattern

namespace Ir.Instr

/-- The shape of an instruction. -/
def shape : Instr → Shape
  | binary .. => .binary
  | unary .. => .unary
  | alloca .. => .alloca
  | load .. => .load
  | store .. => .store
  | call .. => .call

/-- An instruction has the shape that its operation asks for. -/
def OpFits (i : Instr) : Prop := i.op.shape = i.shape

end Ir.Instr

section

variable {q : InstrPattern} {i : Ir.Instr}

theorem Op.shape_of_isBinary {op : Op} (h : op.isBinary = true) : op.shape = .binary := if_pos h

theorem Op.shape_of_isUnary {op : Op} (h : op.isUnary = true) : op.shape = .unary := by
  have hbinary : ¬ op.isBinary = true := by
    rw [isBinary_iff]
    rw [isUnary_iff] at h
    omega
  rw [shape, if_neg hbinary, if_pos h]

/-- A pattern with an operation that fits has the shape that the operation asks for. -/
theorem InstrPattern.OpFits.shape_op (hq : q.OpFits) : q.op.shape = q.shape := by
  cases q with
  | binary op dst l r => exact Op.shape_of_isBinary hq
  | unary op dst x => exact Op.shape_of_isUnary hq
  | _ => rfl

/-- The pattern takes the operand: both are registers, or both are numbers. -/
def OperandPattern.Takes (a : OperandPattern) (v : Option Ir.Value) : Prop :=
  (a.equation? v).isSome = true

theorem InstrPattern.shape_of_equations? (h : (q.equations? i).isSome = true) :
    q.shape = i.shape := by
  cases q <;> cases i <;> simp_all [InstrPattern.equations?, InstrPattern.shape, Ir.Instr.shape]

/-- Within one shape, operations and operands are compared one by one. -/
theorem InstrPattern.isSome_equations?_of_shape (hq : q.OpFits) (hshape : q.shape = i.shape) :
    (q.equations? i).isSome = true ↔
      q.op = i.op ∧ (q.op ≠ .call → List.Forall₂ OperandPattern.Takes q.operands i.operands) := by
  cases q with
  | binary op dst l r =>
    cases i with
    | binary op' dst' l' r' =>
      have hcall : op ≠ .call := by
        rintro rfl
        cases hq
      simp only [equations?, InstrPattern.op, operands, Ir.Instr.op, Ir.Instr.operands,
        List.forall₂_cons, OperandPattern.Takes]
      by_cases hop : op = op'
      · subst hop
        cases l.equation? l' <;> cases r.equation? r' <;> simp [hcall]
      · simp [hop]
    | _ => cases hshape
  | unary op dst x =>
    cases i with
    | unary op' dst' x' =>
      have hcall : op ≠ .call := by
        rintro rfl
        cases hq
      simp only [equations?, InstrPattern.op, operands, Ir.Instr.op, Ir.Instr.operands,
        List.forall₂_cons, OperandPattern.Takes]
      by_cases hop : op = op'
      · subst hop
        cases x.equation? x' <;> simp [hcall]
      · simp [hop]
    | _ => cases hshape
  | alloca dst =>
    cases i with
    | alloca dst' => simp [equations?, InstrPattern.op, operands, Ir.Instr.op, Ir.Instr.operands]
    | _ => cases hshape
  | load dst a =>
    cases i with
    | load dst' a' =>
      simp only [equations?, InstrPattern.op, operands, Ir.Instr.op, Ir.Instr.operands,
        List.forall₂_cons, OperandPattern.Takes]
      cases a.equation? a' <;> simp [Op.load, Op.call]
    | _ => cases hshape
  | store a v =>
    cases i with
    | store a' v' =>
      simp only [equations?, InstrPattern.op, operands, Ir.Instr.op, Ir.Instr.operands,
        List.forall₂_cons, OperandPattern.Takes]
      cases a.equation? a' <;> cases v.equation? v' <;> simp [Op.store, Op.call]
    | _ => cases hshape
  | call dst func list =>
    cases i with
    | call dst' func' args => simp [equations?, InstrPattern.op, Ir.Instr.op]
    | _ => cases hshape

/-- **An instruction has the form of a pattern** exactly when both have the same operation and the
pattern takes each operand, unless it is a call, whose operands can be any. -/
theorem InstrPattern.isSome_equations?_iff (hq : q.OpFits) (hi : i.OpFits) :
    (q.equations? i).isSome = true ↔
      q.op = i.op ∧ (q.op ≠ .call → List.Forall₂ OperandPattern.Takes q.operands i.operands) := by
  by_cases hshape : q.shape = i.shape
  · exact isSome_equations?_of_shape hq hshape
  · -- the operations differ as well, since they tell the shape
    have hop : q.op ≠ i.op := by
      intro h
      rw [← hq.shape_op, h, hi] at hshape
      exact hshape rfl
    constructor
    · intro h
      exact (hshape (shape_of_equations? h)).elim
    · rintro ⟨h, -⟩
      exact (hop h).elim

end

/-! ### Equations for different names -/

/-- An equation for a name that stands for nothing can be added. -/
theorem Bindings.exists_bind_of_new {b : Bindings} {e : Equation}
    (h : ∀ e', b.Satisfies e' → e'.name ≠ e.name) : ∃ c, b.bind e = some c := by
  cases e with
  | value n a =>
    have hn : b.value? n = none := by
      rw [Option.eq_none_iff_forall_ne_some]
      intro a' ha'
      exact h (.value n a') ha' rfl
    exact ⟨_, by rw [bind, hn]⟩
  | list n l =>
    have hn : b.list? n = none := by
      rw [Option.eq_none_iff_forall_ne_some]
      intro l' hl'
      exact h (.list n l') hl' rfl
    exact ⟨_, by rw [bind, hn]⟩

/-- Equations for different names can be solved, if nothing is known of the names. -/
theorem Bindings.exists_solve_of_nodup {b : Bindings} {es : List Equation}
    (hes : (es.map Equation.name).Nodup)
    (hb : ∀ e, b.Satisfies e → ∀ e' ∈ es, e.name ≠ e'.name) : ∃ c, b.solve es = some c := by
  induction es generalizing b with
  | nil => exact ⟨b, rfl⟩
  | cons e es ih =>
    obtain ⟨he, hes⟩ := List.nodup_cons.1 hes
    obtain ⟨c, hc⟩ := exists_bind_of_new fun e' he' => hb e' he' e List.mem_cons_self
    -- what `c` satisfies is what `b` satisfies and the equation just added
    have hrest : ∀ e₁, c.Satisfies e₁ → ∀ e' ∈ es, e₁.name ≠ e'.name := by
      intro e₁ he₁ e' he'
      rcases (bind_satisfies hc).1 he₁ with h | rfl
      · exact hb e₁ h e' (List.mem_cons_of_mem _ he')
      · intro heq
        exact he (heq ▸ List.mem_map_of_mem he')
    obtain ⟨d, hd⟩ := ih hes hrest
    exact ⟨d, by rw [solve, hc, Option.bind_some, hd]⟩

/-- A pattern of one element with different names matches an instruction of its form. -/
theorem InstrPattern.matchAt_single {q : InstrPattern} {i : Ir.Instr}
    (hq : (q.bindings.map (·.name)).Nodup) (hi : i.IsComplete) (term : Option Ir.Terminator) :
    ∃ o, Pattern.matchAt { code := [some q] } [some i] term = .ok o ∧
      (o.isSome = true ↔ (q.equations? i).isSome = true) := by
  have hcode : ∀ i', some i' ∈ [some i] → i'.IsComplete := by
    intro i' hi'
    obtain rfl := Option.some.inj (List.mem_singleton.1 hi')
    exact hi
  refine ⟨_, Pattern.matchAt_eq (by simp) hcode, ?_⟩
  cases hes : q.equations? i with
  | none => simp [Pattern.equations?, codeEquations?, hes]
  | some es =>
    have hnames : (es.map Equation.name).Nodup := by
      rwa [Equation.map_name (map_binding?_of_equations? hes)]
    obtain ⟨c, hc⟩ := Bindings.exists_solve_of_nodup (b := {}) hnames
      fun e he => by cases e <;> cases he
    simp [Pattern.equations?, codeEquations?, hes, hc]

/-! ### Documents -/

/-- The operand pattern is that of a text: a number if a hash is in front, and a register if not. -/
def OperandPattern.IsOf (s : Text) : OperandPattern → Prop
  | .reg _ => ¬ ∃ rest : Text, s = "#" ++ rest
  | .lit _ => ∃ rest : Text, s = "#" ++ rest

/-- The operand is that of a value: a number if it is one, and a register if not. -/
def Ir.IsValueOf (v : Yaml.Value) : Option Ir.Value → Prop
  | some (.imm _) => ∃ n, v = .int n
  | some (.reg _) => ¬ ∃ n, v = .int n
  | none => False

/-- An operand pattern takes an operand exactly when both documents have a number there, or neither
has. -/
theorem OperandPattern.takes_iff {s : Text} {v : Yaml.Value} {a : OperandPattern}
    {x : Option Ir.Value} (ha : a.IsOf s) (hx : Ir.IsValueOf v x) :
    a.Takes x ↔ ((∃ rest : Text, s = "#" ++ rest) ↔ ∃ n, v = .int n) := by
  rcases x with - | (r | n)
  · exact hx.elim
  · cases a with
    | reg m => exact iff_of_true rfl (iff_of_false ha hx)
    | lit m => exact iff_of_false (by simp [Takes, equation?]) fun h => hx (h.1 ha)
  · cases a with
    | reg m => exact iff_of_false (by simp [Takes, equation?]) fun h => ha (h.2 hx)
    | lit m => exact iff_of_true rfl (iff_of_true ha hx)

theorem OperandPattern.forall₂_takes_iff {ss : List Text} {vs : List Yaml.Value}
    {as : List OperandPattern} {xs : List (Option Ir.Value)} (has : List.Forall₂ IsOf ss as)
    (hxs : List.Forall₂ Ir.IsValueOf vs xs) :
    List.Forall₂ Takes as xs ↔ List.Forall₂
      (fun s v => (∃ rest : Text, s = "#" ++ rest) ↔ ∃ n, v = Yaml.Value.int n) ss vs := by
  induction has generalizing vs xs with
  | nil => cases hxs <;> simp
  | cons ha _ ih =>
    cases hxs with
    | nil => simp
    | cons hx hxs => rw [List.forall₂_cons, List.forall₂_cons, takes_iff ha hx, ih hxs]

theorem Text.after?_eq_some_iff {s front rest : Text} :
    s.after? front = some rest ↔ s = front ++ rest := by
  rw [after?, Option.ite_none_right_eq_some, List.isPrefixOf_iff_prefix, Option.some.injEq,
    Text.ext_iff, Text.ext_iff, octets_append]
  constructor
  · rintro ⟨⟨os, hos⟩, hrest⟩
    rw [← hrest, ← hos, List.drop_left]
  · intro h
    rw [h]
    exact ⟨List.prefix_append _ _, List.drop_left⟩

namespace Load

theorem loads_operandPattern_isOf (s : Text) (t : NameTable) :
    Loads t (fun _ a => a.IsOf s) (operandPattern s) := by
  unfold operandPattern
  split
  · rename_i name hs
    exact .bind (loads_intern ..) fun n t' _ _ => .pure ⟨name, Text.after?_eq_some_iff.1 hs⟩
  · rename_i hs
    refine .bind (loads_intern ..) fun n t' _ _ => .pure ?_
    rintro ⟨rest, hrest⟩
    rw [Text.after?_eq_some_iff.2 hrest] at hs
    cases hs

theorem instrPattern?_shape {s : Text} {op : Op} {dst : Name} {args : List OperandPattern}
    {q : InstrPattern} (hop : Op.ofText? s = some op) (hcall : op ≠ .call)
    (h : instrPattern? op dst args = some q) : q.op = op ∧ q.operands = args := by
  unfold instrPattern? at h
  split_ifs at h with hbinary hunary halloca hload <;> split at h <;>
    simp only [reduceCtorEq, Option.some.injEq] at h <;> subst h
  · exact ⟨rfl, rfl⟩
  · exact ⟨rfl, rfl⟩
  · exact ⟨halloca.symm, rfl⟩
  · exact ⟨hload.symm, rfl⟩
  · exact ⟨(Op.eq_store_of_ofText? hop hbinary hunary halloca hload hcall).symm, rfl⟩

/-- A loaded pattern has the operation of the document, and its operands one by one unless it is a
call. -/
theorem loads_instrPattern_shape (d : Document.Pattern) (t : NameTable) :
    Loads t (fun _ x => ∃ q, x = some q ∧ Op.ofText? d.op = some q.op ∧
      (q.op ≠ .call → List.Forall₂ OperandPattern.IsOf d.args q.operands)) (instrPattern d) := by
  refine .bind (loads_opOf ..) fun op t₁ _ hop => ?_
  refine .bind (loads_intern ..) fun dst t₂ _ _ => ?_
  refine .bind (.mapM_forall₂ loads_operandPattern_isOf d.args) fun args t₃ _ hargs => ?_
  by_cases hcall : op = .call
  · subst hcall
    rw [if_pos rfl]
    refine .bind (loads_intern ..) fun func t₄ _ _ => .bind (loads_intern ..) fun list t₅ _ _ => ?_
    exact .pure ⟨_, rfl, hop, fun h => (h rfl).elim⟩
  · rw [if_neg hcall]
    split
    · rename_i q hq
      obtain ⟨rfl, rfl⟩ := instrPattern?_shape hop hcall hq
      exact .pure ⟨q, rfl, hop, fun _ => hargs⟩
    · exact .fault _

theorem loads_value_isValueOf (v : Yaml.Value) (t : NameTable) :
    Loads t (fun _ x => Ir.IsValueOf v (some x)) (value v) := by
  unfold value
  split
  · exact .pure ⟨_, rfl⟩
  · refine .bind (loads_intern ..) fun n t' _ _ => .pure ?_
    rintro ⟨n, hn⟩
    cases hn
  · exact .fault _

theorem instr?_shape {s : Text} {op : Op} {dst : Name} {args : List (Option Ir.Value)}
    {i : Ir.Instr} (hop : Op.ofText? s = some op) (hcall : op ≠ .call)
    (h : instr? op dst args = some i) : i.OpFits ∧ i.op = op := by
  unfold instr? at h
  split_ifs at h with hbinary hunary halloca hload <;> split at h <;>
    simp only [reduceCtorEq, Option.some.injEq] at h <;> subst h
  · exact ⟨Op.shape_of_isBinary hbinary, rfl⟩
  · exact ⟨Op.shape_of_isUnary hunary, rfl⟩
  · exact ⟨rfl, halloca.symm⟩
  · exact ⟨rfl, hload.symm⟩
  · exact ⟨rfl, (Op.eq_store_of_ofText? hop hbinary hunary halloca hload hcall).symm⟩

/-- A loaded instruction has the operation of the document and its operands one by one. -/
theorem loads_instr_shape (d : Document.Instr) (t : NameTable) :
    Loads t (fun _ y => ∃ i, y = some i ∧ i.OpFits ∧ Op.ofText? d.op = some i.op ∧
      List.Forall₂ Ir.IsValueOf d.args i.operands) (instr d) := by
  refine .bind (loads_opOf ..) fun op t₁ _ hop => ?_
  have hargs : Loads t₁ (fun _ args => List.Forall₂ Ir.IsValueOf d.args args) (operands d.args) :=
    .each_forall₂ (fun v t => .bind (loads_value_isValueOf v t) fun _ _ _ hx => .pure hx) d.args
  refine .bind hargs fun args t₂ _ hargs => ?_
  refine .bind (loads_intern ..) fun dst t₃ _ _ => ?_
  by_cases hcall : op = .call
  · subst hcall
    rw [if_pos rfl]
    exact .bind (loads_intern ..) fun func t₄ _ _ => .pure ⟨_, rfl, rfl, hop, hargs⟩
  · rw [if_neg hcall]
    split
    · rename_i i hi
      obtain ⟨hfits, rfl⟩ := instr?_shape hop hcall hi
      exact .pure ⟨i, rfl, hfits, hop, (instr?_some hi).1 ▸ hargs⟩
    · exact .fault _

/-- **A loaded pattern matches a loaded instruction** exactly when the documents have the same
operation and, unless it is a call, numbers in the same places. The tables that the two are loaded
with need not be the same. -/
theorem matchAt_loaded_iff {p : Document.Pattern} {d : Document.Instr} {x : Option InstrPattern}
    {y : Option Ir.Instr} {t₁ t₁' t₂ t₂' t : NameTable} {r : Rule} {bound : List Binding}
    (hx : instrPattern p t₁ = .ok (x, t₁')) (hy : instr d t₂ = .ok (y, t₂'))
    (hr : r.pattern = { code := [x] }) (hcheck : r.pattern.check t = .ok bound)
    (term : Option Ir.Terminator) :
    ∃ o, r.matchAt [y] term = .ok o ∧
      (o.isSome = true ↔ p.op = d.op ∧ (p.op ≠ "call" → List.Forall₂
        (fun s v => (∃ rest : Text, s = "#" ++ rest) ↔ ∃ n, v = Yaml.Value.int n)
        p.args d.args)) := by
  obtain ⟨q, rfl, hpop, hpargs⟩ := (loads_instrPattern_shape p t₁).of_ok hx
  obtain ⟨i, rfl, hfits, hdop, hdargs⟩ := (loads_instr_shape d t₂).of_ok hy
  obtain ⟨_, ⟨⟩, hfull, -⟩ := (loads_instr d t₂).of_ok hy
  have hwell : r.pattern.WellFormed := Pattern.exists_check_iff.1 ⟨bound, hcheck⟩
  rw [hr] at hwell
  obtain ⟨_, ⟨⟩, hq⟩ := hwell.fits (some q) (List.mem_singleton_self _)
  have hdistinct : (q.bindings.map (·.name)).Nodup :=
    hwell.distinct q.bindings (List.mem_singleton_self _)
  obtain ⟨o, ho, hsome⟩ := InstrPattern.matchAt_single hdistinct hfull.isComplete term
  refine ⟨o.map (·, r.pattern.code.length), ?_, ?_⟩
  · rw [← hr] at ho
    exact Run.except_bind_ok_iff.2 ⟨o, ho, rfl⟩
  · have hcall : p.op ≠ "call" ↔ q.op ≠ .call := not_congr (Op.eq_iff_of_ofText? hpop rfl)
    rw [Option.isSome_map, hsome, InstrPattern.isSome_equations?_iff hq hfits,
      Op.eq_iff_of_ofText? hpop hdop, hcall]
    refine and_congr_right fun _ => forall_congr' fun hne => ?_
    exact OperandPattern.forall₂_takes_iff (hpargs hne) hdargs

end Load

namespace Sample

/-- The pattern of a difference with a number on the right. -/
def lessNumber : Document.Pattern := { op := "sub", dst := "d", args := ["a", "#n"] }

/-- A difference. -/
def difference (l r : Yaml.Value) : Document.Instr := { op := "sub", dst := "x", args := [l, r] }

theorem matchAt_loaded_lessNumber :
    ∃ x t₁ y t₂ bound o, Load.instrPattern lessNumber .empty = .ok (x, t₁) ∧
      Load.instr (difference (.string "y") (.int (-5))) .empty = .ok (y, t₂) ∧
      Pattern.check .empty { code := [x] } = .ok bound ∧
      Rule.matchAt { name := "less", pattern := { code := [x] } } [y] none = .ok o ∧
      o.isSome = true := by
  obtain ⟨x, t₁, bound, hx, hcheck⟩ : ∃ x t₁ bound,
      Load.instrPattern lessNumber .empty = .ok (x, t₁) ∧
      Pattern.check .empty { code := [x] } = .ok bound := ⟨_, _, _, rfl, rfl⟩
  obtain ⟨y, t₂, hy⟩ : ∃ y t₂, Load.instr (difference (.string "y") (.int (-5))) .empty =
      .ok (y, t₂) := ⟨_, _, rfl⟩
  obtain ⟨o, ho, hiff⟩ := Load.matchAt_loaded_iff
    (r := { name := "less", pattern := { code := [x] } }) hx hy rfl hcheck none
  have hregister : ¬ ∃ rest : Text, ("a" : Text) = "#" ++ rest := by
    rintro ⟨rest, h⟩
    cases Text.after?_eq_some_iff.2 h
  have hnumber : ∃ rest : Text, ("#n" : Text) = "#" ++ rest := ⟨"n", rfl⟩
  refine ⟨x, t₁, y, t₂, bound, o, hx, hy, hcheck, ho, hiff.2 ⟨rfl, fun _ => ?_⟩⟩
  exact .cons (iff_of_false hregister (by simp)) (.cons (iff_of_true hnumber ⟨_, rfl⟩) .nil)

end Sample

end CodeTiling
