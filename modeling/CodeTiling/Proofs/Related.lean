import CodeTiling.Code.Assembly
import CodeTiling.Proofs.Origins
import Mathlib.Data.List.Forall2

/-!
# Code up to the names in it

Two pieces of code are related by a relation of names when they are the same but for their names,
and names at the same place are related. `SameText` relates names of two tables that have one text.

* `Operand.Related.imp`, `Block.Related.imp` : what is related is related by any weaker relation;
* `Block.Related.text?_eq`, `Assembly.text?_eq` : what is related by `SameText` has one text.
-/

namespace CodeTiling

open Code (Operand Register Instruction Indirect Line Fn Assembly)

/-! ### Related code -/

namespace Ir

variable (R : Name → Name → Prop)

/-- Values that are the same but for related names. -/
inductive Value.Related : Value → Value → Prop
  /-- Registers with related names. -/
  | reg {n m : Name} (h : R n m) : Related (.reg n) (.reg m)
  /-- One number. -/
  | imm (k : Int64) : Related (.imm k) (.imm k)

/-- Sources of phis that are the same but for related names. -/
structure PhiSource.Related (x y : PhiSource) : Prop where
  /-- The labels are related. -/
  block : R x.block y.block
  /-- The values are. -/
  value : Option.Rel (Value.Related R) x.value y.value

/-- Phis that are the same but for related names. -/
structure Phi.Related (p q : Phi) : Prop where
  /-- The registers are related. -/
  dst : R p.dst q.dst
  /-- The sources are. -/
  sources : List.Forall₂ (PhiSource.Related R) p.sources q.sources

end Ir

namespace Code

variable (R : Name → Name → Prop)

/-- Registers that are the same but for related names. -/
inductive Register.Related : Register → Register → Prop
  /-- No register. -/
  | none : Related .none .none
  /-- One register of the machine. -/
  | machine (r : MachineReg) : Related (.machine r) (.machine r)
  /-- Registers with related names. -/
  | virtual {n m : Name} (h : R n m) : Related (.virtual n) (.virtual m)

/-- Memory operands that are the same but for related names. -/
structure Indirect.Related (a b : Indirect) : Prop where
  /-- The size is the same. -/
  size : a.size = b.size
  /-- The bases are related. -/
  base : Register.Related R a.base b.base
  /-- The indices are. -/
  index : Register.Related R a.index b.index
  /-- The scale is the same. -/
  scale : a.scale = b.scale
  /-- The displacement is the same. -/
  disp : a.disp = b.disp

/-- Operands that are the same but for related names. -/
inductive Operand.Related : Operand → Operand → Prop
  /-- One number. -/
  | imm (k : Int64) : Related (.imm k) (.imm k)
  /-- Related symbols. -/
  | addr {n m : Name} (h : R n m) : Related (.addr n) (.addr m)
  /-- Related labels. -/
  | label {n m : Name} (h : R n m) : Related (.label n) (.label m)
  /-- Related registers. -/
  | reg {r q : Register} (h : Register.Related R r q) : Related (.reg r) (.reg q)
  /-- Related slots. -/
  | slot {n m : Name} (h : R n m) : Related (.slot n) (.slot m)
  /-- Related memory operands. -/
  | indirect {a b : Indirect} (h : Indirect.Related R a b) : Related (.indirect a) (.indirect b)

/-- Instructions that are the same but for related names. -/
structure Instruction.Related (i j : Instruction) : Prop where
  /-- The mnemonic is the same. -/
  mnemonic : i.mnemonic = j.mnemonic
  /-- The operands are related. -/
  args : List.Forall₂ (Option.Rel (Operand.Related R)) i.args j.args

/-- Lines that are the same but for related names. -/
inductive Line.Related : Line → Line → Prop
  /-- One directive. -/
  | directive (s : Text) : Related (.directive s) (.directive s)
  /-- Related instructions. -/
  | instr {i j : Instruction} (h : Instruction.Related R i j) : Related (.instr i) (.instr j)

/-- Blocks that are the same but for related names. -/
structure Block.Related (b c : Block) : Prop where
  /-- The labels are related. -/
  label : R b.label c.label
  /-- The lines are. -/
  lines : List.Forall₂ (Line.Related R) b.lines c.lines
  /-- The phis are. -/
  phis : List.Forall₂ (Ir.Phi.Related R) b.phis c.phis
  /-- The successors are. -/
  successors : List.Forall₂ R b.successors c.successors

end Code

/-! ### Weaker relations -/

section

variable {R R' : Name → Name → Prop} (hR : ∀ n m, R n m → R' n m)
include hR

theorem Ir.Value.Related.imp {v w : Ir.Value} (h : v.Related R w) : v.Related R' w := by
  cases h with
  | reg h => exact .reg (hR _ _ h)
  | imm k => exact .imm k

theorem Ir.PhiSource.Related.imp {x y : Ir.PhiSource} (h : x.Related R y) : x.Related R' y := by
  refine ⟨hR _ _ h.block, ?_⟩
  have hvalue := h.value
  generalize x.value = v, y.value = w at hvalue ⊢
  cases hvalue with
  | none => exact .none
  | some h => exact .some (h.imp hR)

theorem Ir.Phi.Related.imp {p q : Ir.Phi} (h : p.Related R q) : p.Related R' q :=
  ⟨hR _ _ h.dst, h.sources.imp fun _ _ hs => hs.imp hR⟩

namespace Code

theorem Register.Related.imp {r q : Register} (h : r.Related R q) : r.Related R' q := by
  cases h with
  | none => exact .none
  | machine r => exact .machine r
  | virtual h => exact .virtual (hR _ _ h)

theorem Operand.Related.imp {x y : Operand} (h : x.Related R y) : x.Related R' y := by
  cases h with
  | imm k => exact .imm k
  | addr h => exact .addr (hR _ _ h)
  | label h => exact .label (hR _ _ h)
  | reg h => exact .reg (h.imp hR)
  | slot h => exact .slot (hR _ _ h)
  | indirect h =>
    exact .indirect ⟨h.size, h.base.imp hR, h.index.imp hR, h.scale, h.disp⟩

theorem Instruction.Related.imp {i j : Instruction} (h : i.Related R j) : i.Related R' j := by
  refine ⟨h.mnemonic, h.args.imp fun a b hab => ?_⟩
  cases hab with
  | none => exact .none
  | some hab => exact .some (hab.imp hR)

theorem Line.Related.imp {l k : Line} (h : l.Related R k) : l.Related R' k := by
  cases h with
  | directive s => exact .directive s
  | instr h => exact .instr (h.imp hR)

theorem Block.Related.imp {b c : Block} (h : b.Related R c) : b.Related R' c where
  label := hR _ _ h.label
  lines := h.lines.imp fun _ _ hl => hl.imp hR
  phis := h.phis.imp fun _ _ hp => hp.imp hR
  successors := h.successors.imp hR

end Code

end

/-! ### Phis that are related to themselves -/

section

variable {R : Name → Name → Prop}

theorem Ir.Value.related_self {o : Option Ir.Value} (h : ∀ n ∈ Ir.valueNames o, R n n) :
    Option.Rel (Ir.Value.Related R) o o := by
  rcases o with - | n | k
  · exact .none
  · exact .some (.reg (h n (by simp [Ir.valueNames])))
  · exact .some (.imm k)

theorem Ir.Phi.related_self {p : Ir.Phi} (h : ∀ n ∈ p.names, R n n) : p.Related R p := by
  obtain ⟨hdst, hsources⟩ := List.forall_mem_cons.1 h
  refine ⟨hdst, List.forall₂_same.2 fun s hs => ?_⟩
  obtain ⟨hblock, hvalue⟩ := List.forall_mem_cons.1 fun n hn =>
    hsources n (List.mem_flatMap.2 ⟨s, hs, hn⟩)
  exact ⟨hblock, Ir.Value.related_self hvalue⟩

end

/-! ### Related code has one text -/

/-- The names have one text, each in a table of its own. -/
def SameText (t t' : NameTable) (n m : Name) : Prop :=
  ∃ s, t.text? n = some s ∧ t'.text? m = some s

namespace SameText

variable {t t' u u' : NameTable} {n m : Name}

theorem mono (ht : t ≤ u) (ht' : t' ≤ u') (h : SameText t t' n m) : SameText u u' n m := by
  obtain ⟨s, hn, hm⟩ := h
  exact ⟨s, NameTable.text?_mono ht hn, NameTable.text?_mono ht' hm⟩

/-- A name that a table has issued keeps its text in any two tables that grow from it. -/
theorem of_isIssued (hn : t.isIssued n = true) (hu : t ≤ u) (hu' : t ≤ u') : SameText u u' n n :=
  ⟨t.text n, NameTable.text?_mono hu (NameTable.text?_eq_some_text hn),
    NameTable.text?_mono hu' (NameTable.text?_eq_some_text hn)⟩

theorem text_eq (h : SameText t t' n m) : t.text n = t'.text m := by
  obtain ⟨s, hn, hm⟩ := h
  rw [NameTable.text_eq hn, NameTable.text_eq hm]

theorem isIssued_left (h : SameText t t' n m) : t.isIssued n = true := by
  obtain ⟨s, hn, -⟩ := h
  exact NameTable.isIssued_iff.2 ⟨s, hn⟩

theorem isIssued_right (h : SameText t t' n m) : t'.isIssued m = true := by
  obtain ⟨s, -, hm⟩ := h
  exact NameTable.isIssued_iff.2 ⟨s, hm⟩

end SameText

/-- Items with the same texts make up the same list of texts. -/
theorem mapM_eq_of_forall₂ {α β γ : Type} {f : α → Option γ} {g : β → Option γ} {xs : List α}
    {ys : List β} (h : List.Forall₂ (fun x y => f x = g y) xs ys) : xs.mapM f = ys.mapM g := by
  induction h with
  | nil => rfl
  | cons hxy _ ih => rw [List.mapM_cons, List.mapM_cons, hxy, ih]

namespace Code

variable {t t' : NameTable}

theorem Register.Related.isSome_eq {R : Name → Name → Prop} {r q : Register} (h : r.Related R q) :
    r.isSome = q.isSome := by
  cases h <;> rfl

theorem Register.Related.text_eq {r q : Register} (h : r.Related (SameText t t') q) :
    r.text t = q.text t' := by
  cases h with
  | none => rfl
  | machine r => rfl
  | virtual h => simp only [Register.text, h.text_eq]

theorem Register.Related.isIssued {r q : Register} (h : r.Related (SameText t t') q) :
    r.names.all t.isIssued = true ∧ q.names.all t'.isIssued = true := by
  cases h with
  | none => exact ⟨rfl, rfl⟩
  | machine r => exact ⟨rfl, rfl⟩
  | virtual h => simp [Register.names, h.isIssued_left, h.isIssued_right]

theorem Indirect.Related.text_eq {a b : Indirect} (h : a.Related (SameText t t') b) :
    a.text t = b.text t' := by
  simp only [Indirect.text, Indirect.terms, h.size, h.base.text_eq, h.base.isSome_eq,
    h.index.text_eq, h.index.isSome_eq, h.scale, h.disp]

theorem Operand.Related.text_eq {x y : Operand} (h : x.Related (SameText t t') y) :
    x.text t = y.text t' := by
  cases h with
  | imm k => rfl
  | addr h => exact h.text_eq
  | label h => exact h.text_eq
  | reg h => exact h.text_eq
  | slot h => simp only [Operand.text, h.text_eq]
  | indirect h => exact h.text_eq

theorem Operand.Related.isIssued {x y : Operand} (h : x.Related (SameText t t') y) :
    x.names.all t.isIssued = true ∧ y.names.all t'.isIssued = true := by
  cases h with
  | imm k => exact ⟨rfl, rfl⟩
  | addr h => simp [Operand.names, h.isIssued_left, h.isIssued_right]
  | label h => simp [Operand.names, h.isIssued_left, h.isIssued_right]
  | reg h => exact h.isIssued
  | slot h => simp [Operand.names, h.isIssued_left, h.isIssued_right]
  | indirect h =>
    obtain ⟨hbase, hbase'⟩ := h.base.isIssued
    obtain ⟨hindex, hindex'⟩ := h.index.isIssued
    simp only [Operand.names, List.all_append, hbase, hbase', hindex, hindex', Bool.and_self,
      and_self]

theorem Operand.Related.text?_eq {x y : Operand} (h : x.Related (SameText t t') y) :
    x.text? t = y.text? t' := by
  obtain ⟨hx, hy⟩ := h.isIssued
  rw [Operand.text?, Operand.text?, if_pos hx, if_pos hy, h.text_eq]

theorem Instruction.Related.text?_eq {i j : Instruction} (h : i.Related (SameText t t') j) :
    i.text? t = j.text? t' := by
  have hargs : i.operandTexts? t = j.operandTexts? t' := by
    refine mapM_eq_of_forall₂ (h.args.imp fun a b hab => ?_)
    cases hab with
    | none => rfl
    | some hab => exact hab.text?_eq
  rw [Instruction.text?, Instruction.text?, hargs, h.mnemonic]

theorem Block.Related.text?_eq {b c : Block} (h : b.Related (SameText t t') c) :
    b.text? t = c.text? t' := by
  have hlines : b.lines.mapM (lineText? t) = c.lines.mapM (lineText? t') := by
    refine mapM_eq_of_forall₂ (h.lines.imp fun l k hlk => ?_)
    cases hlk with
    | directive s => rfl
    | instr hij => simp only [lineText?, hij.text?_eq]
  rw [Block.text?, Block.text?, hlines]

/-- Functions whose blocks are related have one text. -/
theorem Fn.text?_eq_of_related {bs cs : List Block}
    (h : List.Forall₂ (Block.Related (SameText t t')) bs cs) (args args' : List Name) :
    Fn.text? t ⟨args, bs⟩ = Fn.text? t' ⟨args', cs⟩ := by
  refine congrArg (Option.map Text.join) (mapM_eq_of_forall₂ (h.imp fun b c hbc => ?_))
  rw [hbc.text?_eq]

/-- Assemblies with the same data, and functions that have the same texts, have one text. -/
theorem Assembly.text?_eq {a b : Assembly Fn} (hdata : a.data = b.data)
    (hfns : List.Forall₂ (fun p q => Fn.text? t p.2 = Fn.text? t' q.2) a.fns b.fns) :
    a.text? t = b.text? t' := by
  have htexts : a.functions.mapM (Fn.text? t) = b.functions.mapM (Fn.text? t') := by
    refine mapM_eq_of_forall₂ ?_
    rwa [functions_eq, functions_eq, List.forall₂_map_left_iff, List.forall₂_map_right_iff]
  simp only [Assembly.text?, Assembly.dataText, htexts, hdata]

end Code

end CodeTiling
