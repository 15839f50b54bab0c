import CodeTiling.Proofs.Related
import Mathlib.Logic.Relator

/-!
# Programs and rules up to the names in them

Two programs are related by a relation of names when they are the same but for their names, and
names at the same place are related; likewise two rules. With `SameText` for the relation they are
equal once every name is read as its text.

* `Ir.Func.Related.names`, `Rule.Related.names` : the names of related functions and rules are
  related one by one;
* `Ir.Func.related_self`, `Rule.related_self` : a function or a rule is related to itself if its
  names are;
* `SameText.biUnique` : a table has a name for each of its texts only once, so `SameText` pairs the
  names of two tables off.
-/

namespace CodeTiling

open Relator (BiUnique)

/-! ### Related programs -/

namespace Ir

variable (R : Name → Name → Prop)

/-- Instructions that are the same but for related names. -/
inductive Instr.Related : Instr → Instr → Prop
  /-- One operation on two values. -/
  | binary (op : Op) {d d' : Name} {l l' r r' : Option Value} (dst : R d d')
      (left : Option.Rel (Value.Related R) l l') (right : Option.Rel (Value.Related R) r r') :
      Related (.binary op d l r) (.binary op d' l' r')
  /-- One operation on one value. -/
  | unary (op : Op) {d d' : Name} {x x' : Option Value} (dst : R d d')
      (value : Option.Rel (Value.Related R) x x') : Related (.unary op d x) (.unary op d' x')
  /-- New stack slots. -/
  | alloca {d d' : Name} (dst : R d d') : Related (.alloca d) (.alloca d')
  /-- Reads of memory. -/
  | load {d d' : Name} {a a' : Option Value} (dst : R d d')
      (addr : Option.Rel (Value.Related R) a a') : Related (.load d a) (.load d' a')
  /-- Writes to memory. -/
  | store {a a' v v' : Option Value} (addr : Option.Rel (Value.Related R) a a')
      (value : Option.Rel (Value.Related R) v v') : Related (.store a v) (.store a' v')
  /-- Calls. -/
  | call {d d' f f' : Name} {args args' : List (Option Value)} (dst : R d d') (func : R f f')
      (args_rel : List.Forall₂ (Option.Rel (Value.Related R)) args args') :
      Related (.call d f args) (.call d' f' args')

/-- Terminators that are the same but for related names. -/
inductive Terminator.Related : Terminator → Terminator → Prop
  /-- Returns. -/
  | ret {v v' : Option Value} (value : Option.Rel (Value.Related R) v v') :
      Related (.ret v) (.ret v')
  /-- Branches. -/
  | br {c c' : Option Value} {t t' e e' : Name} (cond : Option.Rel (Value.Related R) c c')
      (onTrue : R t t') (onFalse : R e e') : Related (.br c t e) (.br c' t' e')
  /-- Jumps. -/
  | jmp {t t' : Name} (target : R t t') : Related (.jmp t) (.jmp t')

/-- Blocks that are the same but for related names. -/
structure Block.Related (b c : Block) : Prop where
  /-- The labels are related. -/
  label : R b.label c.label
  /-- The phis are. -/
  phis : List.Forall₂ (Phi.Related R) b.phis c.phis
  /-- The instructions are. -/
  code : List.Forall₂ (Option.Rel (Instr.Related R)) b.code c.code
  /-- The terminators are. -/
  term : Option.Rel (Terminator.Related R) b.term c.term

/-- Functions that are the same but for related names. -/
structure Func.Related (f g : Func) : Prop where
  /-- The names are related. -/
  name : R f.name g.name
  /-- The arguments are. -/
  args : List.Forall₂ R f.args g.args
  /-- The blocks are. -/
  blocks : List.Forall₂ (Block.Related R) f.blocks g.blocks

/-- Programs that are the same but for related names. -/
structure Program.Related (p q : Program) : Prop where
  /-- The data is the same. -/
  data : p.data = q.data
  /-- The functions are related. -/
  funcs : List.Forall₂ (Func.Related R) p.funcs q.funcs

end Ir

/-! ### Related rules -/

section

variable (R : Name → Name → Prop)

/-- Operand patterns that are the same but for related names. -/
inductive OperandPattern.Related : OperandPattern → OperandPattern → Prop
  /-- Registers. -/
  | reg {n m : Name} (h : R n m) : Related (.reg n) (.reg m)
  /-- Numbers. -/
  | lit {n m : Name} (h : R n m) : Related (.lit n) (.lit m)

/-- Instruction patterns that are the same but for related names. -/
inductive InstrPattern.Related : InstrPattern → InstrPattern → Prop
  /-- One operation on two values. -/
  | binary (op : Op) {d d' : Name} {l l' r r' : OperandPattern} (dst : R d d')
      (left : l.Related R l') (right : r.Related R r') :
      Related (.binary op d l r) (.binary op d' l' r')
  /-- One operation on one value. -/
  | unary (op : Op) {d d' : Name} {x x' : OperandPattern} (dst : R d d')
      (value : x.Related R x') : Related (.unary op d x) (.unary op d' x')
  /-- New stack slots. -/
  | alloca {d d' : Name} (dst : R d d') : Related (.alloca d) (.alloca d')
  /-- Reads of memory. -/
  | load {d d' : Name} {a a' : OperandPattern} (dst : R d d') (addr : a.Related R a') :
      Related (.load d a) (.load d' a')
  /-- Writes to memory. -/
  | store {a a' v v' : OperandPattern} (addr : a.Related R a') (value : v.Related R v') :
      Related (.store a v) (.store a' v')
  /-- Calls. -/
  | call {d d' f f' l l' : Name} (dst : R d d') (func : R f f') (list : R l l') :
      Related (.call d f l) (.call d' f' l')

/-- Terminator patterns that are the same but for related names. -/
inductive TermPattern.Related : TermPattern → TermPattern → Prop
  /-- Returns. -/
  | ret {v v' : Option OperandPattern} (value : Option.Rel (OperandPattern.Related R) v v') :
      Related (.ret v) (.ret v')
  /-- Branches. -/
  | br {c c' : OperandPattern} {t t' e e' : Name} (cond : c.Related R c') (onTrue : R t t')
      (onFalse : R e e') : Related (.br c t e) (.br c' t' e')
  /-- Jumps. -/
  | jmp {t t' : Name} (target : R t t') : Related (.jmp t) (.jmp t')

/-- Patterns that are the same but for related names. -/
structure Pattern.Related (p q : Pattern) : Prop where
  /-- The instructions are related. -/
  code : List.Forall₂ (Option.Rel (InstrPattern.Related R)) p.code q.code
  /-- The terminators are. -/
  last : Option.Rel (TermPattern.Related R) p.last q.last

/-- Operands without parts that are the same but for related names. -/
inductive Atom.Related : Atom → Atom → Prop
  /-- One register of the machine. -/
  | machine (r : MachineReg) : Related (.machine r) (.machine r)
  /-- New registers. -/
  | fresh {n m : Name} (h : R n m) : Related (.fresh n) (.fresh m)
  /-- References. -/
  | ref {n m : Name} (h : R n m) : Related (.ref n) (.ref m)
  /-- Texts that stand as they are. -/
  | literal {n m : Name} (h : R n m) : Related (.literal n) (.literal m)
  /-- Labels. -/
  | label {n m : Name} (h : R n m) : Related (.label n) (.label m)

/-- Registers of memory operands that are the same but for related names. -/
inductive AddressTerm.Related : AddressTerm → AddressTerm → Prop
  /-- Operands without parts. -/
  | atom {a b : Atom} (h : a.Related R b) : Related (.atom a) (.atom b)
  /-- Memory operands that may not stand there. -/
  | nested : Related .nested .nested

/-- Memory operands of templates that are the same but for related names. -/
structure AddressTemplate.Related (m k : AddressTemplate) : Prop where
  /-- The size is the same. -/
  size : m.size = k.size
  /-- The bases are related. -/
  base : Option.Rel (AddressTerm.Related R) m.base k.base
  /-- The indices are. -/
  index : Option.Rel (AddressTerm.Related R) m.index k.index
  /-- The scale is the same. -/
  scale : m.scale = k.scale
  /-- The displacement is the same. -/
  disp : m.disp = k.disp

/-- Template operands that are the same but for related names. -/
inductive TemplateOperand.Related : TemplateOperand → TemplateOperand → Prop
  /-- Operands without parts. -/
  | atom {a b : Atom} (h : a.Related R b) : Related (.atom a) (.atom b)
  /-- Memory operands. -/
  | indirect {m k : AddressTemplate} (h : m.Related R k) : Related (.indirect m) (.indirect k)

/-- Template lines that are the same but for related names. -/
structure TemplateLine.Related (l k : TemplateLine) : Prop where
  /-- The mnemonics are related. -/
  mnemonic : R l.mnemonic k.mnemonic
  /-- The operands are. -/
  args : List.Forall₂ (Option.Rel (TemplateOperand.Related R)) l.args k.args

/-- Rules that are the same but for related names. -/
structure Rule.Related (r q : Rule) : Prop where
  /-- The rules are called the same. -/
  name : r.name = q.name
  /-- The patterns are related. -/
  pattern : r.pattern.Related R q.pattern
  /-- The templates are. -/
  template : List.Forall₂ (TemplateLine.Related R) r.template q.template

/-- Bindings of one kind whose names are related. -/
structure Binding.Related (b c : Binding) : Prop where
  /-- The names are related. -/
  name : R b.name c.name
  /-- The kind is the same. -/
  kind : b.kind = c.kind

end

/-! ### Names at the same place -/

section

variable {R : Name → Name → Prop}

/-- What related parts that may be missing have is related. -/
theorem forall₂_elim {α β γ δ : Type} {S : α → β → Prop} {Q : γ → δ → Prop} {f : α → List γ}
    {g : β → List δ} {x : Option α} {y : Option β} (h : Option.Rel S x y)
    (hfg : ∀ a b, S a b → List.Forall₂ Q (f a) (g b)) :
    List.Forall₂ Q (x.elim [] f) (y.elim [] g) := by
  cases h with
  | none => exact .nil
  | some h => exact hfg _ _ h

namespace Ir

theorem Value.Related.names {v w : Option Value} (h : Option.Rel (Value.Related R) v w) :
    List.Forall₂ R (valueNames v) (valueNames w) := by
  cases h with
  | none => exact .nil
  | some h =>
    cases h with
    | reg h => exact .cons h .nil
    | imm k => exact .nil

theorem Instr.Related.operands {x y : Instr} (h : x.Related R y) :
    List.Forall₂ (Option.Rel (Value.Related R)) x.operands y.operands := by
  cases h with
  | binary op dst left right => exact .cons left (.cons right .nil)
  | unary op dst value => exact .cons value .nil
  | alloca dst => exact .nil
  | load dst addr => exact .cons addr .nil
  | store addr value => exact .cons addr (.cons value .nil)
  | call dst func args => exact args

theorem Instr.Related.names {x y : Instr} (h : x.Related R y) :
    List.Forall₂ R x.names y.names := by
  refine List.rel_append ?_ (List.rel_flatMap h.operands fun v w hvw => Value.Related.names hvw)
  cases h with
  | binary op dst left right => exact .cons dst .nil
  | unary op dst value => exact .cons dst .nil
  | alloca dst => exact .cons dst .nil
  | load dst addr => exact .cons dst .nil
  | store addr value => exact .nil
  | call dst func args => exact .cons dst (.cons func .nil)

theorem Terminator.Related.names {x y : Terminator} (h : x.Related R y) :
    List.Forall₂ R x.names y.names := by
  cases h with
  | ret value => exact Value.Related.names value
  | br cond onTrue onFalse =>
    exact List.rel_append (Value.Related.names cond) (.cons onTrue (.cons onFalse .nil))
  | jmp target => exact .cons target .nil

theorem Terminator.Related.successors {x y : Terminator} (h : x.Related R y) :
    List.Forall₂ R x.successors y.successors := by
  cases h with
  | ret value => exact .nil
  | br cond onTrue onFalse => exact .cons onTrue (.cons onFalse .nil)
  | jmp target => exact .cons target .nil

theorem Phi.Related.names {p q : Phi} (h : p.Related R q) : List.Forall₂ R p.names q.names :=
  .cons h.dst (List.rel_flatMap h.sources fun _ _ hs =>
    .cons hs.block (Value.Related.names hs.value))

theorem Block.Related.names {b c : Block} (h : b.Related R c) : List.Forall₂ R b.names c.names :=
  List.rel_append
    (List.rel_append (.cons h.label (List.rel_flatMap h.phis fun _ _ hp => hp.names))
      (List.rel_flatMap h.code fun _ _ hx => forall₂_elim hx fun _ _ hi => hi.names))
    (forall₂_elim h.term fun _ _ hx => hx.names)

/-- The names of related functions are related one by one. -/
theorem Func.Related.names {f g : Func} (h : f.Related R g) : List.Forall₂ R f.names g.names :=
  List.rel_append (.cons h.name h.args) (List.rel_flatMap h.blocks fun _ _ hb => hb.names)

end Ir

theorem OperandPattern.Related.binding {p q : OperandPattern} (h : p.Related R q) :
    p.binding.Related R q.binding := by
  cases h with
  | reg h => exact ⟨h, rfl⟩
  | lit h => exact ⟨h, rfl⟩

theorem InstrPattern.Related.bindings {p q : InstrPattern} (h : p.Related R q) :
    List.Forall₂ (Binding.Related R) p.bindings q.bindings := by
  cases h with
  | binary op dst left right =>
    exact .cons ⟨dst, rfl⟩ (.cons left.binding (.cons right.binding .nil))
  | unary op dst value => exact .cons ⟨dst, rfl⟩ (.cons value.binding .nil)
  | alloca dst => exact .cons ⟨dst, rfl⟩ .nil
  | load dst addr => exact .cons ⟨dst, rfl⟩ (.cons addr.binding .nil)
  | store addr value => exact .cons addr.binding (.cons value.binding .nil)
  | call dst func list =>
    exact .cons ⟨dst, rfl⟩ (.cons ⟨func, rfl⟩ (.cons ⟨list, rfl⟩ .nil))

theorem TermPattern.Related.bindings {p q : TermPattern} (h : p.Related R q) :
    List.Forall₂ (Binding.Related R) p.bindings q.bindings := by
  cases h with
  | ret value =>
    cases value with
    | none => exact .nil
    | some value => exact .cons value.binding .nil
  | br cond onTrue onFalse =>
    exact .cons cond.binding (.cons ⟨onTrue, rfl⟩ (.cons ⟨onFalse, rfl⟩ .nil))
  | jmp target => exact .cons ⟨target, rfl⟩ .nil

theorem Pattern.Related.elements {p q : Pattern} (h : p.Related R q) :
    List.Forall₂ (List.Forall₂ (Binding.Related R)) p.elements q.elements := by
  refine List.rel_append ?_ ?_
  · exact List.rel_map (fun _ _ hx => forall₂_elim hx fun _ _ hp => hp.bindings) h.code
  · have hlast := h.last
    generalize p.last = x, q.last = y at hlast
    cases hlast with
    | none => exact .nil
    | some hx => exact .cons hx.bindings .nil

theorem Atom.Related.names {a b : Atom} (h : a.Related R b) : List.Forall₂ R a.names b.names := by
  cases h with
  | machine r => exact .nil
  | fresh h => exact .cons h .nil
  | ref h => exact .cons h .nil
  | literal h => exact .cons h .nil
  | label h => exact .cons h .nil

theorem AddressTerm.Related.atoms {x y : Option AddressTerm}
    (h : Option.Rel (AddressTerm.Related R) x y) :
    List.Forall₂ (Atom.Related R) (termAtoms x) (termAtoms y) := by
  cases h with
  | none => exact .nil
  | some h =>
    cases h with
    | atom h => exact .cons h .nil
    | nested => exact .nil

theorem TemplateOperand.Related.atoms {x y : Option TemplateOperand}
    (h : Option.Rel (TemplateOperand.Related R) x y) :
    List.Forall₂ (Atom.Related R) (operandAtoms x) (operandAtoms y) := by
  cases h with
  | none => exact .nil
  | some h =>
    cases h with
    | atom h => exact .cons h .nil
    | indirect h =>
      exact List.rel_append (AddressTerm.Related.atoms h.base) (AddressTerm.Related.atoms h.index)

theorem Rule.Related.atoms {r q : Rule} (h : r.Related R q) :
    List.Forall₂ (Atom.Related R) r.atoms q.atoms :=
  List.rel_flatMap h.template fun _ _ hl =>
    List.rel_flatMap hl.args fun _ _ ho => TemplateOperand.Related.atoms ho

/-- The names of related rules are related one by one. -/
theorem Rule.Related.names {r q : Rule} (h : r.Related R q) : List.Forall₂ R r.names q.names :=
  List.rel_append
    (List.rel_append (List.rel_map (fun _ _ hb => hb.name) (List.rel_flatten h.pattern.elements))
      (List.rel_map (fun _ _ hl => hl.mnemonic) h.template))
    (List.rel_flatMap h.atoms fun _ _ ha => ha.names)

end

/-! ### Related to itself -/

section

variable {R : Name → Name → Prop}

namespace Ir

theorem Instr.related_self {x : Instr} (h : ∀ n ∈ x.names, R n n) : x.Related R x := by
  obtain ⟨hown, hoperands⟩ := List.forall_mem_append.1 h
  have hvalue : ∀ v ∈ x.operands, Option.Rel (Value.Related R) v v := fun v hv =>
    Value.related_self fun n hn => hoperands n (List.mem_flatMap.2 ⟨v, hv, hn⟩)
  cases x with
  | binary op d l r =>
    exact .binary op (hown d (by simp [ownNames])) (hvalue l (by simp [operands]))
      (hvalue r (by simp [operands]))
  | unary op d v => exact .unary op (hown d (by simp [ownNames])) (hvalue v (by simp [operands]))
  | alloca d => exact .alloca (hown d (by simp [ownNames]))
  | load d a => exact .load (hown d (by simp [ownNames])) (hvalue a (by simp [operands]))
  | store a v => exact .store (hvalue a (by simp [operands])) (hvalue v (by simp [operands]))
  | call d f args =>
    exact .call (hown d (by simp [ownNames])) (hown f (by simp [ownNames]))
      (List.forall₂_same.2 hvalue)

theorem Terminator.related_self {x : Terminator} (h : ∀ n ∈ x.names, R n n) :
    x.Related R x := by
  cases x with
  | ret v => exact .ret (Value.related_self h)
  | br c t e =>
    obtain ⟨hc, hlabels⟩ := List.forall_mem_append.1 h
    exact .br (Value.related_self hc) (hlabels t (by simp)) (hlabels e (by simp))
  | jmp t => exact .jmp (h t (by simp [names]))

theorem Block.related_self {b : Block} (h : ∀ n ∈ b.names, R n n) : b.Related R b := by
  obtain ⟨hinit, hterm⟩ := List.forall_mem_append.1 h
  obtain ⟨hhead, hcode⟩ := List.forall_mem_append.1 hinit
  obtain ⟨hlabel, hphis⟩ := List.forall_mem_cons.1 hhead
  refine ⟨hlabel, List.forall₂_same.2 fun p hp => ?_, List.forall₂_same.2 fun o ho => ?_, ?_⟩
  · exact Phi.related_self fun n hn => hphis n (List.mem_flatMap.2 ⟨p, hp, hn⟩)
  · cases o with
    | none => exact .none
    | some x => exact .some (Instr.related_self fun n hn =>
        hcode n (List.mem_flatMap.2 ⟨some x, ho, hn⟩))
  · cases hx : b.term with
    | none => exact .none
    | some x =>
      rw [hx] at hterm
      exact .some (Terminator.related_self hterm)

/-- A function is related to itself if its names are. -/
theorem Func.related_self {f : Func} (h : ∀ n ∈ f.names, R n n) : f.Related R f := by
  obtain ⟨hhead, hblocks⟩ := List.forall_mem_append.1 h
  obtain ⟨hname, hargs⟩ := List.forall_mem_cons.1 hhead
  exact ⟨hname, List.forall₂_same.2 hargs, List.forall₂_same.2 fun b hb =>
    Block.related_self fun n hn => hblocks n (List.mem_flatMap.2 ⟨b, hb, hn⟩)⟩

end Ir

theorem OperandPattern.related_self {p : OperandPattern} (h : R p.binding.name p.binding.name) :
    p.Related R p := by
  cases p with
  | reg n => exact .reg h
  | lit n => exact .lit h

theorem InstrPattern.related_self {p : InstrPattern}
    (h : ∀ b ∈ p.bindings, R b.name b.name) : p.Related R p := by
  cases p with
  | binary op d l r =>
    exact .binary op (h ⟨d, .register⟩ (by simp [bindings]))
      (OperandPattern.related_self (h l.binding (by simp [bindings])))
      (OperandPattern.related_self (h r.binding (by simp [bindings])))
  | unary op d x =>
    exact .unary op (h ⟨d, .register⟩ (by simp [bindings]))
      (OperandPattern.related_self (h x.binding (by simp [bindings])))
  | alloca d => exact .alloca (h ⟨d, .register⟩ (by simp [bindings]))
  | load d a =>
    exact .load (h ⟨d, .register⟩ (by simp [bindings]))
      (OperandPattern.related_self (h a.binding (by simp [bindings])))
  | store a v =>
    exact .store (OperandPattern.related_self (h a.binding (by simp [bindings])))
      (OperandPattern.related_self (h v.binding (by simp [bindings])))
  | call d f l =>
    exact .call (h ⟨d, .register⟩ (by simp [bindings])) (h ⟨f, .function⟩ (by simp [bindings]))
      (h ⟨l, .arguments⟩ (by simp [bindings]))

theorem TermPattern.related_self {p : TermPattern} (h : ∀ b ∈ p.bindings, R b.name b.name) :
    p.Related R p := by
  rcases p with (- | v) | ⟨c, t, e⟩ | t
  · exact .ret .none
  · exact .ret (.some (OperandPattern.related_self (h v.binding (by simp [bindings]))))
  · exact .br (OperandPattern.related_self (h c.binding (by simp [bindings])))
      (h ⟨t, .label⟩ (by simp [bindings])) (h ⟨e, .label⟩ (by simp [bindings]))
  · exact .jmp (h ⟨t, .label⟩ (by simp [bindings]))

theorem Pattern.related_self {p : Pattern} (h : ∀ b ∈ p.elements.flatten, R b.name b.name) :
    p.Related R p := by
  simp only [elements, List.flatten_append, List.mem_append, List.mem_flatten, List.mem_map] at h
  refine ⟨List.forall₂_same.2 fun o ho => ?_, ?_⟩
  · cases o with
    | none => exact .none
    | some x =>
      exact .some (InstrPattern.related_self fun b hb => h b (.inl ⟨_, ⟨some x, ho, rfl⟩, hb⟩))
  · cases hx : p.last with
    | none => exact .none
    | some x =>
      exact .some (TermPattern.related_self fun b hb => h b (.inr ⟨_, ⟨x, by simp [hx], rfl⟩, hb⟩))

theorem Atom.related_self {a : Atom} (h : ∀ n ∈ a.names, R n n) : a.Related R a := by
  cases a with
  | machine r => exact .machine r
  | fresh n => exact .fresh (h n (by simp [names]))
  | ref n => exact .ref (h n (by simp [names]))
  | literal n => exact .literal (h n (by simp [names]))
  | label n => exact .label (h n (by simp [names]))

theorem AddressTerm.related_self {x : Option AddressTerm}
    (h : ∀ a ∈ termAtoms x, a.Related R a) : Option.Rel (AddressTerm.Related R) x x := by
  rcases x with - | a | -
  · exact .none
  · exact .some (.atom (h a (by simp [termAtoms])))
  · exact .some .nested

theorem TemplateOperand.related_self {x : Option TemplateOperand}
    (h : ∀ a ∈ operandAtoms x, a.Related R a) : Option.Rel (TemplateOperand.Related R) x x := by
  rcases x with - | a | m
  · exact .none
  · exact .some (.atom (h a (by simp [operandAtoms])))
  · obtain ⟨hbase, hindex⟩ := List.forall_mem_append.1 h
    exact .some (.indirect ⟨rfl, AddressTerm.related_self hbase, AddressTerm.related_self hindex,
      rfl, rfl⟩)

/-- A rule is related to itself if its names are. -/
theorem Rule.related_self {r : Rule} (h : ∀ n ∈ r.names, R n n) : r.Related R r := by
  obtain ⟨hhead, hatoms⟩ := List.forall_mem_append.1 h
  obtain ⟨hpattern, hmnemonics⟩ := List.forall_mem_append.1 hhead
  refine ⟨rfl, Pattern.related_self fun b hb => hpattern _ (List.mem_map_of_mem hb),
    List.forall₂_same.2 fun l hl => ⟨hmnemonics _ (List.mem_map_of_mem hl), ?_⟩⟩
  refine List.forall₂_same.2 fun o ho => TemplateOperand.related_self fun a ha => ?_
  refine Atom.related_self fun n hn => hatoms n (List.mem_flatMap.2 ⟨a, ?_, hn⟩)
  exact List.mem_flatMap.2 ⟨l, hl, List.mem_flatMap.2 ⟨o, ho, ha⟩⟩

end

/-! ### Names with one text -/

section

variable {t t' : NameTable}

/-- A table has one name for each of its texts, so `SameText` pairs names off. -/
theorem SameText.biUnique : BiUnique (SameText t t') := by
  refine ⟨fun n m k hn hm => ?_, fun n m k hm hk => ?_⟩
  · obtain ⟨s, hns, hks⟩ := hn
    obtain ⟨s', hms, hks'⟩ := hm
    obtain rfl : s = s' := Option.some.inj (hks.symm.trans hks')
    exact Option.some.inj
      ((NameTable.lookup_of_text hns).symm.trans (NameTable.lookup_of_text hms))
  · obtain ⟨s, hns, hms⟩ := hm
    obtain ⟨s', hns', hks⟩ := hk
    obtain rfl : s = s' := Option.some.inj (hns.symm.trans hns')
    exact Option.some.inj
      ((NameTable.lookup_of_text hms).symm.trans (NameTable.lookup_of_text hks))

/-- Names with one text are names that the tables have issued. -/
theorem forall_isIssued_left {ns ms : List Name} (h : List.Forall₂ (SameText t t') ns ms) :
    ∀ n ∈ ns, t.isIssued n = true := by
  induction h with
  | nil => simp
  | cons h _ ih => exact List.forall_mem_cons.2 ⟨h.isIssued_left, ih⟩

theorem forall_isIssued_right {ns ms : List Name} (h : List.Forall₂ (SameText t t') ns ms) :
    ∀ m ∈ ms, t'.isIssued m = true := by
  induction h with
  | nil => simp
  | cons h _ ih => exact List.forall_mem_cons.2 ⟨h.isIssued_right, ih⟩

end

end CodeTiling
