import CodeTiling.Proofs.Hygiene

/-!
# Where the names in selected code come from

A `Vocabulary` says which names may stand in code as a symbol, as a label and as a register. What a
match binds is in the vocabulary of the code that it meets, and an instance adds the registers
issued for it and the literals of its rule, so the code of a block stays in the vocabulary of the
block.

* `Pattern.matchAt_isIn` : the bindings of a match are in the vocabulary of the code;
* `Rule.isIn_instanceOf` : so is the instance of a rule over such bindings;
* `Naming.Issues` : the names that a naming has issued on its way to another one;
* `selectFunc_agrees` : selected blocks have the control flow of the program and no registers but
  those of the program and the new ones.
-/

namespace CodeTiling

open Code (Operand Register Instruction)

/-! ### Vocabularies -/

/-- Which names may stand in code, by what they stand there as. -/
structure Vocabulary where
  /-- Names that may be symbols. -/
  symbol : Name → Prop
  /-- Names that may be labels. -/
  label : Name → Prop
  /-- Names that may be registers. -/
  register : Name → Prop

namespace Code

variable (v : Vocabulary)

/-- The register is in a vocabulary. -/
def Register.IsIn : Register → Prop
  | .virtual n => v.register n
  | _ => True

/-- The operand is in a vocabulary. Slots of the frame are in none. -/
def Operand.IsIn : Operand → Prop
  | .imm _ => True
  | .addr n => v.symbol n
  | .label n => v.label n
  | .reg r => r.IsIn v
  | .slot _ => False
  | .indirect m => m.base.IsIn v ∧ m.index.IsIn v

/-- The operands of an instruction are in a vocabulary. -/
def Instruction.IsIn (i : Instruction) : Prop := ∀ x, some x ∈ i.args → x.IsIn v

variable {v}

theorem Operand.IsIn.register {x : Operand} (h : x.IsIn v) {n : Name}
    (hn : .virtual n ∈ x.registers) : v.register n := by
  cases x with
  | reg r =>
    obtain rfl : Register.virtual n = r := List.mem_singleton.1 (List.mem_of_mem_filter hn)
    exact h
  | indirect m =>
    rcases List.mem_cons.1 (List.mem_of_mem_filter hn) with hr | hr
    · have hbase : m.base.IsIn v := h.1
      rwa [← hr] at hbase
    · have hindex : m.index.IsIn v := h.2
      rwa [← List.mem_singleton.1 hr] at hindex
  | _ => cases hn

end Code

namespace Ir

/-- The register that an instruction writes. -/
def Instr.destinations : Instr → List Name
  | .binary _ dst .. => [dst]
  | .unary _ dst _ => [dst]
  | .alloca dst => [dst]
  | .load dst _ => [dst]
  | .store .. => []
  | .call dst .. => [dst]

/-- The registers in an instruction. -/
def Instr.registers (x : Instr) : List Name := x.destinations ++ x.operands.flatMap valueNames

/-- The function that an instruction calls. -/
def Instr.callees : Instr → List Name
  | .call _ func _ => [func]
  | _ => []

/-- The registers in a terminator. -/
def Terminator.registers : Terminator → List Name
  | .ret x => valueNames x
  | .br cond _ _ => valueNames cond
  | .jmp _ => []

/-- The registers in the instructions and the terminator of a block. -/
def Block.registers (b : Block) : List Name :=
  b.code.flatMap (·.elim [] Instr.registers) ++ b.term.elim [] Terminator.registers

variable (v : Vocabulary)

/-- The names in an instruction are in a vocabulary. -/
structure Instr.IsIn (x : Instr) : Prop where
  /-- The register that it writes is. -/
  destinations : ∀ n ∈ x.destinations, v.register n
  /-- The registers that it reads are. -/
  operands : ∀ o ∈ x.operands, ∀ n ∈ valueNames o, v.register n
  /-- The function called is. -/
  callees : ∀ n ∈ x.callees, v.symbol n

/-- The names in a terminator are in a vocabulary. -/
structure Terminator.IsIn (x : Terminator) : Prop where
  /-- The registers are. -/
  registers : ∀ n ∈ x.registers, v.register n
  /-- The labels are. -/
  labels : ∀ n ∈ x.successors, v.label n

end Ir

/-! ### Bindings -/

section

variable (v : Vocabulary)

/-- What stands on the right side of an equation is in a vocabulary. -/
def Equation.IsIn : Equation → Prop
  | .value _ a => a.IsIn v
  | .list _ l => ∀ a ∈ l, a.IsIn v

/-- What names stand for is in a vocabulary. -/
def Bindings.IsIn (b : Bindings) : Prop := ∀ e, b.Satisfies e → e.IsIn v

end

section

variable {v : Vocabulary} {b b' : Bindings}

theorem Bindings.IsIn.solve (hb : b.IsIn v) {es : List Equation} (hes : ∀ e ∈ es, e.IsIn v)
    (h : b.solve es = some b') : b'.IsIn v := by
  intro e he
  rcases (Bindings.solve_satisfies h).1 he with he | he
  · exact hb e he
  · exact hes e he

theorem OperandPattern.isIn_of_equation? {p : OperandPattern} {x : Option Ir.Value} {e : Equation}
    (h : p.equation? x = some e) (hx : ∀ n ∈ Ir.valueNames x, v.register n) : e.IsIn v := by
  unfold equation? at h
  split at h
  · obtain rfl := Option.some.inj h
    exact hx _ (by simp [Ir.valueNames])
  · obtain rfl := Option.some.inj h
    trivial
  · cases h

theorem isIn_operandOf {x : Ir.Value} (hx : ∀ n ∈ Ir.valueNames (some x), v.register n) :
    (operandOf x).IsIn v := by
  cases x with
  | reg n => exact hx n (by simp [Ir.valueNames])
  | imm k => trivial

theorem isIn_destination {n dst : Name} (h : v.register dst) : (destination n dst).IsIn v := h

theorem InstrPattern.isIn_of_equations? {p : InstrPattern} {x : Ir.Instr} {es : List Equation}
    (h : p.equations? x = some es) (hx : x.IsIn v) : ∀ e ∈ es, e.IsIn v := by
  -- a destination is a register, and so is each register that an operand pattern meets
  cases p with
  | binary op dst l r =>
    cases x <;> simp only [equations?, reduceCtorEq] at h
    split at h
    · simp only [bind, Option.bind_eq_some_iff, pure, Option.some.injEq] at h
      obtain ⟨el, hl, er, hr, rfl⟩ := h
      have hdst := isIn_destination (n := dst) (hx.destinations _ List.mem_cons_self)
      have hel := OperandPattern.isIn_of_equation? hl (hx.operands _ (by simp [Ir.Instr.operands]))
      have her := OperandPattern.isIn_of_equation? hr (hx.operands _ (by simp [Ir.Instr.operands]))
      simp [hdst, hel, her]
    · cases h
  | unary op dst y =>
    cases x <;> simp only [equations?, reduceCtorEq] at h
    split at h
    · simp only [bind, Option.bind_eq_some_iff, pure, Option.some.injEq] at h
      obtain ⟨ey, hy, rfl⟩ := h
      have hdst := isIn_destination (n := dst) (hx.destinations _ List.mem_cons_self)
      have hey := OperandPattern.isIn_of_equation? hy (hx.operands _ (by simp [Ir.Instr.operands]))
      simp [hdst, hey]
    · cases h
  | alloca dst =>
    cases x <;> simp only [equations?, reduceCtorEq] at h
    obtain rfl := Option.some.inj h
    have hdst := isIn_destination (n := dst) (hx.destinations _ List.mem_cons_self)
    simp [hdst]
  | load dst a =>
    cases x <;> simp only [equations?, reduceCtorEq] at h
    simp only [bind, Option.bind_eq_some_iff, pure, Option.some.injEq] at h
    obtain ⟨ea, ha, rfl⟩ := h
    have hdst := isIn_destination (n := dst) (hx.destinations _ List.mem_cons_self)
    have hea := OperandPattern.isIn_of_equation? ha (hx.operands _ (by simp [Ir.Instr.operands]))
    simp [hdst, hea]
  | store a y =>
    cases x <;> simp only [equations?, reduceCtorEq] at h
    simp only [bind, Option.bind_eq_some_iff, pure, Option.some.injEq] at h
    obtain ⟨ea, ha, ey, hy, rfl⟩ := h
    have hea := OperandPattern.isIn_of_equation? ha (hx.operands _ (by simp [Ir.Instr.operands]))
    have hey := OperandPattern.isIn_of_equation? hy (hx.operands _ (by simp [Ir.Instr.operands]))
    simp [hea, hey]
  | call dst func list =>
    cases x <;> simp only [equations?, reduceCtorEq] at h
    rename_i dst' func' args
    obtain rfl := Option.some.inj h
    have hdst := isIn_destination (n := dst) (hx.destinations dst' List.mem_cons_self)
    have hfunc : (Equation.value func (.addr func')).IsIn v := hx.callees func' List.mem_cons_self
    have hargs : (Equation.list list (args.filterMap (·.map operandOf))).IsIn v := by
      intro a ha
      obtain ⟨o, ho, hoa⟩ := List.mem_filterMap.1 ha
      obtain ⟨y, rfl, rfl⟩ := Option.map_eq_some_iff.1 hoa
      exact isIn_operandOf (hx.operands _ ho)
    simp [hdst, hfunc, hargs]

theorem TermPattern.isIn_of_equations? {p : TermPattern} {x : Ir.Terminator} {es : List Equation}
    (h : p.equations? x = some es) (hx : x.IsIn v) : ∀ e ∈ es, e.IsIn v := by
  obtain ⟨hregs, hlabels⟩ := hx
  unfold equations? at h
  split at h
  · obtain rfl := Option.some.inj h
    simp
  · simp only [bind, Option.bind_eq_some_iff, pure, Option.some.injEq] at h
    obtain ⟨e, he, rfl⟩ := h
    exact List.forall_mem_cons.2 ⟨OperandPattern.isIn_of_equation? he hregs, by simp⟩
  · simp only [bind, Option.bind_eq_some_iff, pure, Option.some.injEq] at h
    obtain ⟨e, he, rfl⟩ := h
    have hthen := hlabels _ (List.mem_cons_self)
    have helse := hlabels _ (List.mem_cons_of_mem _ List.mem_cons_self)
    have hcond := OperandPattern.isIn_of_equation? he hregs
    simp only [List.forall_mem_cons]
    exact ⟨hcond, hthen, helse, by simp⟩
  · obtain rfl := Option.some.inj h
    exact List.forall_mem_cons.2 ⟨hlabels _ (by simp [Ir.Terminator.successors]), by simp⟩
  · cases h

theorem Bindings.IsIn.matchElement {p : Option InstrPattern} {x : Option Ir.Instr} (hb : b.IsIn v)
    (hx : ∀ i, x = some i → i.IsIn v) (h : CodeTiling.matchElement b p x = .ok (some b')) :
    b'.IsIn v := by
  unfold CodeTiling.matchElement at h
  split at h
  · cases h
  · cases h
  · split at h
    · cases h
    · obtain ⟨es, hes, hs⟩ := Option.bind_eq_some_iff.1 (Except.ok.inj h)
      exact hb.solve (InstrPattern.isIn_of_equations? hes (hx _ rfl)) hs

theorem Bindings.IsIn.matchCode {ps : List (Option InstrPattern)} {xs : List (Option Ir.Instr)}
    (hb : b.IsIn v) (hxs : ∀ i, some i ∈ xs → i.IsIn v)
    (h : CodeTiling.matchCode b ps xs = .ok (some b')) : b'.IsIn v := by
  induction ps generalizing b xs with
  | nil =>
    obtain rfl : b = b' := by simpa [CodeTiling.matchCode] using h
    exact hb
  | cons p ps ih =>
    cases xs with
    | nil => cases h
    | cons x xs =>
      obtain ⟨c, hp, h⟩ := matchCode_cons h
      have hc : c.IsIn v := hb.matchElement (fun i hi => hxs i (by simp [hi])) hp
      exact ih hc (fun i hi => hxs i (List.mem_cons_of_mem _ hi)) h

/-- What a match binds is in the vocabulary of the code and the terminator that it meets. -/
theorem Pattern.matchAt_isIn {p : Pattern} {code : List (Option Ir.Instr)}
    {term : Option Ir.Terminator} (hcode : ∀ x, some x ∈ code → x.IsIn v)
    (hterm : ∀ x, term = some x → x.IsIn v) (h : p.matchAt code term = .ok (some b)) :
    b.IsIn v := by
  have hempty : Bindings.IsIn v {} := fun e he => (Bindings.not_satisfies_empty e he).elim
  unfold Pattern.matchAt at h
  split at h
  · cases h
  split at h
  · exact hempty.matchCode hcode h
  · cases h
  · split at h
    · cases h
    obtain ⟨o, hc, h⟩ := Run.except_bind_ok_iff.1 h
    cases o with
    | none => cases h
    | some c =>
      obtain ⟨es, hes, hs⟩ := Option.bind_eq_some_iff.1 (Except.ok.inj h)
      exact (hempty.matchCode hcode hc).solve
        (TermPattern.isIn_of_equations? hes (hterm _ rfl)) hs

end

/-! ### Instances -/

section

variable {v : Vocabulary} {t : NameTable} {b : Bindings} {regs : List (Name × Name)}
  (hb : b.IsIn v) (hregs : ∀ {n x}, regs.lookup n = some x → v.register x)
include hb hregs

theorem isIn_instanceAtom {a : Atom} (ha : ∀ n, a = .literal n → v.symbol n) {x : Operand}
    (h : instanceAtom t b regs a = some x) : x.IsIn v := by
  cases a with
  | machine r =>
    obtain rfl := Option.some.inj h
    trivial
  | fresh n =>
    obtain ⟨r, hr, rfl⟩ := Option.map_eq_some_iff.1 h
    exact hregs hr
  | ref n =>
    simp only [instanceAtom] at h
    split at h
    · rename_i r hr
      obtain rfl := Option.some.inj h
      exact hregs hr
    · exact hb (.value n x) h
  | literal n =>
    obtain rfl := Option.some.inj h
    unfold literalOperand
    split
    · trivial
    · exact ha n rfl
  | label n => exact hb (.value n x) h

theorem isIn_instanceTerm {o : Option AddressTerm}
    (ho : ∀ n, .literal n ∈ termAtoms o → v.symbol n) {r : Register}
    (h : instanceTerm t b regs o = some r) : r.IsIn v := by
  rcases o with - | a | -
  · obtain rfl := Option.some.inj h
    trivial
  · simp only [instanceTerm] at h
    split at h
    · rename_i r' hr
      obtain rfl := Option.some.inj h
      exact isIn_instanceAtom hb hregs (fun n hn => ho n (by simp [termAtoms, hn])) hr
    · cases h
  · cases h

theorem isIn_instanceOperand {o : Option TemplateOperand}
    (ho : ∀ n, .literal n ∈ operandAtoms o → v.symbol n) {x : Operand}
    (h : instanceOperand t b regs o = some x) : x.IsIn v := by
  rcases o with - | a | m
  · cases h
  · exact isIn_instanceAtom hb hregs (fun n hn => ho n (by simp [operandAtoms, hn])) h
  · simp only [instanceOperand, bind, Option.bind_eq_some_iff, pure, Option.some.injEq] at h
    obtain ⟨base, hbase, index, hindex, rfl⟩ := h
    simp only [operandAtoms, List.mem_append] at ho
    exact ⟨isIn_instanceTerm hb hregs (fun n hn => ho n (.inl hn)) hbase,
      isIn_instanceTerm hb hregs (fun n hn => ho n (.inr hn)) hindex⟩

theorem isIn_instanceLine {l : TemplateLine} (hl : ∀ n, .literal n ∈ l.atoms → v.symbol n) :
    ∀ i ∈ instanceLine t b regs l, i.IsIn v := by
  intro i hi x hx
  unfold instanceLine at hi
  split at hi
  · rename_i as hlist
    obtain ⟨n, -, hn⟩ := lineList?_eq_some hlist
    obtain ⟨a, ha, rfl⟩ := List.mem_map.1 hi
    obtain rfl := Option.some.inj (List.mem_singleton.1 hx)
    exact hb (.list n as) hn x (List.mem_reverse.1 ha)
  · rw [List.mem_singleton.1 hi] at hx
    obtain ⟨o, ho, hox⟩ := List.mem_map.1 hx
    exact isIn_instanceOperand hb hregs
      (fun n hn => hl n (List.mem_flatMap.2 ⟨o, ho, hn⟩)) hox

/-- The instance of a rule over bindings and registers of a vocabulary is in it, if the literals of
the rule are. -/
theorem Rule.isIn_instanceOf {r : Rule} (hr : ∀ n, .literal n ∈ r.atoms → v.symbol n) :
    ∀ i ∈ r.instanceOf t b regs, i.IsIn v := by
  intro i hi
  obtain ⟨l, hl, hi⟩ := List.mem_flatMap.1 hi
  exact isIn_instanceLine hb hregs (fun n hn => hr n (List.mem_flatMap.2 ⟨l, hl, hn⟩)) i hi

end

section

variable {v : Vocabulary} {e : Engine} {t : NameTable} {g g' : Naming} {b : Ir.Block}

/-- The code of tiles on a block is in a vocabulary that has the names of the block, the literals of
the rules and the registers issued for the tiles. -/
theorem isIn_placeAll {tiles : List Tile} {pos stop : Nat}
    (hrules : ∀ r ∈ e.rules, ∀ n, .literal n ∈ r.atoms → v.symbol n)
    (hcode : ∀ x, some x ∈ b.code → x.IsIn v) (hterm : ∀ x, b.term = some x → x.IsIn v)
    (hregs : ∀ p ∈ placeAll g tiles, ∀ x ∈ p.newRegisters, v.register x)
    (h : Greedy e.rules b pos tiles stop) :
    ∀ p ∈ placeAll g tiles, ∀ i ∈ p.code t, i.IsIn v := by
  induction tiles generalizing pos g with
  | nil => simp [placeAll]
  | cons tile tiles ih =>
    obtain ⟨-, hm, hrest⟩ := h
    obtain ⟨hfirst, hothers⟩ := List.forall_mem_cons.1 hregs
    have hb : tile.bindings.IsIn v :=
      Pattern.matchAt_isIn (fun x hx => hcode x (List.mem_of_mem_drop hx)) hterm hm.matchAt
    exact List.forall_mem_cons.2
      ⟨Rule.isIn_instanceOf hb (fun hx => hfirst _ (Placed.mem_newRegisters hx).2)
        (hrules _ hm.mem), ih hothers hrest⟩

end

/-! ### Issued names -/

/-- Some names are issued one after another, each on some stem, and that leads from one naming to
another one. -/
inductive Naming.Issues (g : Naming) : List Name → Naming → Prop
  /-- No name is issued. -/
  | nil : Issues g [] g
  /-- One name more is issued. -/
  | snoc {ns : List Name} {g' : Naming} (stem : Text) (h : Issues g ns g') :
      Issues g (ns ++ [(Naming.fresh stem g').1]) (Naming.fresh stem g').2

namespace Naming.Issues

variable {g g' g'' : Naming} {ns ms : List Name}

theorem append (h : Issues g ns g') (h' : Issues g' ms g'') : Issues g (ns ++ ms) g'' := by
  induction h' with
  | nil => simpa using h
  | snoc stem _ ih =>
    rw [← List.append_assoc]
    exact .snoc stem ih

theorem issueAll {s : Expansion} (h : Issues g (s.issued.map Prod.snd).reverse s.naming)
    (ks : List Name) :
    Issues g ((s.issueAll ks).issued.map Prod.snd).reverse (s.issueAll ks).naming := by
  induction ks generalizing s with
  | nil => exact h
  | cons k ks ih =>
    refine ih (s := s.issue k) ?_
    cases hk : s.issued.lookup k with
    | some r => rwa [Expansion.issue_of_lookup_some hk]
    | none =>
      rw [Expansion.issue_of_lookup_none hk, List.map_cons, List.reverse_cons]
      exact .snoc _ h

/-- The registers of tiles are issued tile by tile. -/
theorem placeAll (g : Naming) (tiles : List Tile) :
    Issues g ((CodeTiling.placeAll g tiles).flatMap fun p => p.newRegisters.reverse)
      (namingAfter g tiles) := by
  induction tiles generalizing g with
  | nil => exact .nil
  | cons tile tiles ih =>
    exact append (issueAll (s := ⟨g, []⟩) .nil tile.rule.freshNames) (ih _)

end Naming.Issues

/-! ### Agreement -/

/-- A block of code agrees with a block of a program, with some new registers to use. -/
structure AgreesWith (news : List Name) (b : Ir.Block) (c : Code.Block) : Prop where
  /-- The label is the same. -/
  label : c.label = b.label
  /-- The phis are the same. -/
  phis : c.phis = b.phis
  /-- The successors are those of the terminator, none without one. -/
  successors : c.successors = b.term.elim [] Ir.Terminator.successors
  /-- The code refers to successors only. -/
  labels : ∀ i ∈ c.instructions, ∀ l, some (.label l) ∈ i.args → l ∈ c.successors
  /-- A register, also as base or index, is one of the block in the program or a new one. -/
  registers : ∀ i ∈ c.instructions, ∀ a ∈ i.args, ∀ x, .virtual x ∈ Code.registersOf a →
    x ∈ b.registers ∨ x ∈ news

/-- The names that a block of a program may have in its code, with some new registers. -/
def Ir.Block.vocabulary (b : Ir.Block) (news : List Name) : Vocabulary where
  symbol _ := True
  label n := n ∈ b.term.elim [] Ir.Terminator.successors
  register n := n ∈ b.registers ∨ n ∈ news

section

variable {e : Engine} {t : NameTable} {g g' : Naming} {func : Name} {entry : Bool} {b : Ir.Block}
  {news : List Name}

theorem Ir.Block.isIn_of_mem_code {x : Ir.Instr} (hx : some x ∈ b.code) :
    x.IsIn (b.vocabulary news) := by
  have hregs : ∀ n ∈ x.registers, n ∈ b.registers ∨ n ∈ news := fun n hn =>
    .inl (List.mem_append_left _ (List.mem_flatMap.2 ⟨_, hx, hn⟩))
  refine ⟨fun n hn => hregs n (List.mem_append_left _ hn), fun o ho n hn => ?_, fun _ _ => trivial⟩
  exact hregs n (List.mem_append_right _ (List.mem_flatMap.2 ⟨o, ho, hn⟩))

theorem Ir.Block.isIn_of_term {x : Ir.Terminator} (hx : b.term = some x) :
    x.IsIn (b.vocabulary news) := by
  refine ⟨fun n hn => .inl (List.mem_append_right _ ?_), fun n hn => ?_⟩
  · rwa [hx]
  · change n ∈ b.term.elim [] Ir.Terminator.successors
    rwa [hx]

theorem AgreesWith.mono {news' : List Name} {c : Code.Block} (h : AgreesWith news b c)
    (hsub : ∀ n ∈ news, n ∈ news') : AgreesWith news' b c :=
  ⟨h.label, h.phis, h.successors, h.labels,
    fun i hi a ha x hx => (h.registers i hi a ha x hx).imp_right (hsub x)⟩

/-- A block whose code is in the vocabulary of the program's block agrees with it. -/
theorem AgreesWith.of_isIn {is : List Instruction}
    (h : ∀ i ∈ is, i.IsIn (b.vocabulary news)) :
    AgreesWith news b (coveredBlock t func entry b is) := by
  refine ⟨rfl, rfl, rfl, ?_, ?_⟩
  · intro i hi l hl
    rw [coveredBlock_instructions] at hi
    exact h i hi _ hl
  · intro i hi a ha x hx
    rw [coveredBlock_instructions] at hi
    cases a with
    | none => cases hx
    | some y => exact (h i hi y ha).register hx

/-- One block: it agrees with that of the program, and what it adds to the naming are the registers
that it may use. -/
theorem selectBlock_agrees (he : e.BuiltOn t) (ht : t ≤ g.table) {c : Code.Block}
    (h : e.selectBlock func entry b g = (.ok c, g')) :
    ∃ news, g.Issues news g' ∧ AgreesWith news b c ∧ g.table ≤ g'.table := by
  obtain ⟨-, is, hcover, rfl⟩ := selectBlock_ok_iff.1 h
  obtain ⟨tiles, htiles, rfl, rfl⟩ := cover_ok he ht hcover
  refine ⟨_, .placeAll g tiles, .of_isIn fun i hi => ?_, le_namingAfter g tiles⟩
  obtain ⟨p, hp, hi⟩ := List.mem_flatMap.1 hi
  refine isIn_placeAll (fun _ _ _ _ => trivial) (fun x => Ir.Block.isIn_of_mem_code)
    (fun x => Ir.Block.isIn_of_term) (fun q hq x hx => .inr ?_) htiles.code p hp i hi
  exact List.mem_flatMap.2 ⟨q, hq, List.mem_reverse.2 hx⟩

theorem selectBlocks_agrees {bs : List Ir.Block} (he : e.BuiltOn t) (ht : t ≤ g.table)
    {cs : List Code.Block} (h : e.selectBlocks func entry bs g = (.ok cs, g')) :
    ∃ news, g.Issues news g' ∧ List.Forall₂ (AgreesWith news) bs cs := by
  induction bs generalizing entry g cs with
  | nil =>
    cases h
    exact ⟨[], .nil, .nil⟩
  | cons b bs ih =>
    rw [Engine.selectBlocks, Run.bind_ok (Run.get_apply g)] at h
    obtain ⟨c, g₁, hc, h⟩ := Run.bind_ok_iff.1 h
    obtain ⟨cs', g₂, hcs, h⟩ := Run.bind_ok_iff.1 h
    cases h
    obtain ⟨news, hnews, hagrees, hle⟩ := selectBlock_agrees he ht (Run.adapt_ok_iff.1 hc)
    obtain ⟨news', hnews', hrest⟩ := ih (NameTable.le_trans ht hle) hcs
    -- the registers of one block may be used in all of them
    refine ⟨news ++ news', hnews.append hnews', .cons (hagrees.mono ?_) (hrest.imp ?_)⟩
    · exact fun n hn => List.mem_append_left _ hn
    · exact fun b' c' h' => h'.mono fun n hn => List.mem_append_right _ hn

end

/-- **Selected code has the control flow of the program and its registers.** When a function is
selected with checked rules, there is a block for each block of the program, in the same order and
with the same label, phis and successors; the code of a block refers to successors of the block
only, and each register in it is one of the program's block or one that the scope has issued for the
function. -/
theorem selectFunc_agrees {e : Engine} {t : NameTable} {g g' : Naming} {f : Ir.Func}
    {cs : List Code.Block} (he : e.BuiltOn t) (ht : t ≤ g.table)
    (h : e.selectFunc f g = (.ok cs, g')) :
    ∃ news, g.Issues news g' ∧ List.Forall₂ (AgreesWith news) f.blocks cs := by
  obtain ⟨u, g₁, hreq, hblocks⟩ := Run.bind_ok_iff.1 h
  obtain ⟨-, rfl⟩ := require_ok hreq
  exact selectBlocks_agrees he ht hblocks

namespace Sample

/-- The names of a rule for branches and of a function with a loop. -/
def loopTable : NameTable :=
  .ofTexts ["", "spin", "entry", "done", "c", "x", "then", "else", "t", "mov", "jne", "jmp"]
    (by decide) rfl

/-- Load the condition into a new register and go to one of two labels. -/
def branch : Rule where
  name := "branch"
  pattern := { last := some (.br (.reg ⟨4⟩) ⟨6⟩ ⟨7⟩) }
  template := [
    { mnemonic := ⟨9⟩
      args := [some (.atom (.fresh ⟨8⟩)), some (.indirect { base := some (.atom (.ref ⟨4⟩)) })] },
    { mnemonic := ⟨10⟩, args := [some (.atom (.label ⟨6⟩))] },
    { mnemonic := ⟨11⟩, args := [some (.atom (.label ⟨7⟩))] }]

/-- The engine of the one rule. -/
def loopEngine : Engine := ⟨[branch]⟩

/-- A function that goes round until its argument says otherwise. -/
def loopFunc : Ir.Func where
  name := ⟨1⟩
  args := [⟨5⟩]
  blocks := [{ label := ⟨2⟩, term := some (.br (some (.reg ⟨5⟩)) ⟨2⟩ ⟨3⟩) }, { label := ⟨3⟩ }]

theorem loopEngine_builtOn : loopEngine.BuiltOn loopTable := ⟨rfl, by decide⟩

end Sample

/-- The sample loop is selected with a new scope, and its code agrees with it. -/
theorem selectFunc_agrees_sample :
    Sample.loopEngine.BuiltOn Sample.loopTable ∧
      ∃ cs g', Sample.loopEngine.selectFunc Sample.loopFunc (.ofTable Sample.loopTable) =
          (.ok cs, g') ∧
        ∃ news, (Naming.ofTable Sample.loopTable).Issues news g' ∧
          List.Forall₂ (AgreesWith news) Sample.loopFunc.blocks cs :=
  ⟨Sample.loopEngine_builtOn, _, _, rfl,
    selectFunc_agrees Sample.loopEngine_builtOn (NameTable.le_refl _) rfl⟩

end CodeTiling
