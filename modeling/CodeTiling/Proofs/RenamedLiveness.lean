import CodeTiling.Live.Analysis
import CodeTiling.Proofs.RenamedRules

/-!
# Live registers do not depend on the numbers of names

The analysis numbers registers by first appearance and works on sets of these numbers. Two functions
that are the same but for names that are paired off get the same numbers, so the sets are equal, and
the registers in them are related one by one. Only the errors tell names apart, since they carry the
numbers of labels.

* `number_same` : related registers get the same number;
* `factsOf_same` : the facts of related functions are equal;
* `analyze_same` : related functions are both refused, or have related live registers;
* `shown_eq` : read as texts, the live registers are equal.
-/

namespace CodeTiling

open Relator (BiUnique rel_eq)
open Code (Register Instruction Operand Indirect Fn)

/-! ### Searching related lists -/

section

variable {α β : Type} {S : α → β → Prop} {l : List α} {l' : List β}

theorem findIdx?_eq_of_forall₂ (h : List.Forall₂ S l l') {p : α → Bool} {q : β → Bool}
    (hpq : ∀ a b, S a b → p a = q b) : l.findIdx? p = l'.findIdx? q := by
  induction h with
  | nil => rfl
  | cons hab _ ih => rw [List.findIdx?_cons, List.findIdx?_cons, hpq _ _ hab, ih]

theorem idxOf?_eq_of_forall₂ [BEq α] [LawfulBEq α] [BEq β] [LawfulBEq β] (hS : BiUnique S)
    (h : List.Forall₂ S l l') {a : α} {b : β} (hab : S a b) : l.idxOf? a = l'.idxOf? b := by
  refine findIdx?_eq_of_forall₂ h fun x y hxy => Bool.eq_iff_iff.2 ?_
  rw [beq_iff_eq, beq_iff_eq]
  exact rel_eq hS hxy hab

theorem find?_rel (h : List.Forall₂ S l l') {p : α → Bool} {q : β → Bool}
    (hpq : ∀ a b, S a b → p a = q b) : Option.Rel S (l.find? p) (l'.find? q) := by
  induction h with
  | nil => exact .none
  | cons hab _ ih =>
    rw [List.find?_cons, List.find?_cons, hpq _ _ hab]
    split
    · exact .some hab
    · exact ih

theorem findSome?_rel {γ δ : Type} {Q : γ → δ → Prop} (h : List.Forall₂ S l l')
    {f : α → Option γ} {g : β → Option δ} (hfg : ∀ a b, S a b → Option.Rel Q (f a) (g b)) :
    Option.Rel Q (l.findSome? f) (l'.findSome? g) := by
  induction h with
  | nil => exact .none
  | @cons a b _ _ hab _ ih =>
    have hf := hfg a b hab
    rw [List.findSome?_cons, List.findSome?_cons]
    generalize f a = o, g b = o' at hf ⊢
    cases hf with
    | none => exact ih
    | some h => exact .some h

theorem getElem?_rel (h : List.Forall₂ S l l') (i : Nat) : Option.Rel S l[i]? l'[i]? := by
  induction h generalizing i with
  | nil => exact .none
  | cons hab _ ih =>
    cases i with
    | zero => exact .some hab
    | succ i => exact ih i

theorem filterMap_eq_of_forall₂ {γ : Type} (h : List.Forall₂ S l l') {f : α → Option γ}
    {g : β → Option γ} (hfg : ∀ a b, S a b → f a = g b) : l.filterMap f = l'.filterMap g := by
  induction h with
  | nil => rfl
  | cons hab _ ih => rw [List.filterMap_cons, List.filterMap_cons, hfg _ _ hab, ih]

end

/-! ### Registers of related code -/

namespace Code

variable {R : Name → Name → Prop}

theorem related_filter_isSome {l l' : List Register}
    (h : List.Forall₂ (Register.Related R) l l') :
    List.Forall₂ (Register.Related R) (l.filter Register.isSome) (l'.filter Register.isSome) :=
  List.rel_filter (fun _ _ hr => Bool.eq_iff_iff.1 hr.isSome_eq) h

theorem Operand.Related.registers {x y : Operand} (h : x.Related R y) :
    List.Forall₂ (Register.Related R) x.registers y.registers := by
  cases h with
  | reg h => exact related_filter_isSome (.cons h .nil)
  | indirect h => exact related_filter_isSome (.cons h.base (.cons h.index .nil))
  | _ => exact .nil

theorem related_registersOf {a b : Option Operand} (h : Option.Rel (Operand.Related R) a b) :
    List.Forall₂ (Register.Related R) (registersOf a) (registersOf b) :=
  forall₂_elim h fun _ _ hxy => hxy.registers

theorem isIndirect_eq {a b : Option Operand} (h : Option.Rel (Operand.Related R) a b) :
    isIndirect a = isIndirect b := by
  cases h with
  | none => rfl
  | some h => cases h <;> rfl

theorem Instruction.Related.accessClass_eq {i j : Instruction} (h : i.Related R j) :
    i.accessClass = j.accessClass := by
  have hfirst : i.args.head?.any isIndirect = j.args.head?.any isIndirect := by
    have hargs := h.args
    generalize i.args = as, j.args = bs at hargs ⊢
    cases hargs with
    | nil => rfl
    | cons hab _ => exact isIndirect_eq hab
  rw [Instruction.accessClass, Instruction.accessClass, hfirst, h.mnemonic]

theorem Instruction.Related.inputs {i j : Instruction} (h : i.Related R j) :
    List.Forall₂ (Register.Related R) i.inputs j.inputs := by
  have hclass := h.accessClass_eq
  have hargs := h.args
  unfold Instruction.inputs
  rw [hclass]
  generalize i.args = as, j.args = bs at hargs ⊢
  cases hargs with
  | nil => exact .nil
  | cons hab hrest =>
    dsimp only
    rw [isIndirect_eq hab]
    split
    · exact List.rel_flatMap hrest fun _ _ => related_registersOf
    · exact List.rel_flatMap (.cons hab hrest) fun _ _ => related_registersOf

theorem Instruction.Related.outputs {i j : Instruction} (h : i.Related R j) :
    List.Forall₂ (Register.Related R) i.outputs j.outputs := by
  have hclass := h.accessClass_eq
  have hargs := h.args
  unfold Instruction.outputs
  rw [hclass]
  generalize i.args = as, j.args = bs at hargs ⊢
  cases hargs with
  | nil => exact .nil
  | cons hab _ =>
    cases hab with
    | none => exact .nil
    | some hab =>
      cases hab with
      | reg hr =>
        dsimp only
        split
        · exact .nil
        · exact related_filter_isSome (.cons hr .nil)
      | _ => exact .nil

theorem Block.Related.instructions {b c : Block} (h : b.Related R c) :
    List.Forall₂ (Instruction.Related R) b.instructions c.instructions := by
  refine List.rel_filterMap (fun l k hlk => ?_) h.lines
  cases hlk with
  | directive s => exact .none
  | instr h => exact .some h

end Code

namespace Live

/-- Two computations both fail, or both succeed with related results. -/
inductive SameSuccess {α β : Type} (S : α → β → Prop) : Except Error α → Except Error β → Prop
  /-- Both fail, each in its own way. -/
  | error (err err' : Error) : SameSuccess S (.error err) (.error err')
  /-- Both succeed. -/
  | ok {a : α} {b : β} (h : S a b) : SameSuccess S (.ok a) (.ok b)

theorem SameSuccess.bind {α β γ δ : Type} {S : α → β → Prop} {S' : γ → δ → Prop}
    {x : Except Error α} {y : Except Error β} {f : α → Except Error γ} {g : β → Except Error δ}
    (h : SameSuccess S x y) (hfg : ∀ a b, S a b → SameSuccess S' (f a) (g b)) :
    SameSuccess S' (x >>= f) (y >>= g) := by
  cases h with
  | error err err' => exact .error err err'
  | ok h => exact hfg _ _ h

/-! ### Numbers of registers -/

section

variable {R : Name → Name → Prop} (hR : BiUnique R)
include hR

/-- Related registers get the same number, and the numbered registers stay related. -/
theorem number_same {regs regs' : List Register} {r q : Register}
    (hregs : List.Forall₂ (Register.Related R) regs regs') (h : r.Related R q) :
    (number regs r).1 = (number regs' q).1 ∧
      List.Forall₂ (Register.Related R) (number regs r).2 (number regs' q).2 := by
  rw [number, number, idxOf?_eq_of_forall₂ (Register.biUnique hR) hregs h]
  cases regs'.idxOf? q with
  | some i => exact ⟨rfl, hregs⟩
  | none => exact ⟨hregs.length_eq, List.rel_append hregs (.cons h .nil)⟩

/-- The same is known of related registers in the middle of two blocks. -/
structure Sweep.Related (R : Name → Name → Prop) (s s' : Sweep) : Prop where
  /-- The numbered registers are related. -/
  regs : List.Forall₂ (Register.Related R) s.regs s'.regs
  /-- The same numbers are read. -/
  reads : s.reads = s'.reads
  /-- The same numbers are written. -/
  writes : s.writes = s'.writes

theorem Sweep.Related.read {s s' : Sweep} (h : s.Related R s') {r q : Register}
    (hr : r.Related R q) : (s.read r).Related R (s'.read q) := by
  obtain ⟨hnumber, hregs⟩ := number_same hR h.regs hr
  simp only [Sweep.read, hnumber, h.writes]
  split
  · exact ⟨hregs, h.reads, rfl⟩
  · exact ⟨hregs, by rw [h.reads], rfl⟩

theorem Sweep.Related.write {s s' : Sweep} (h : s.Related R s') {r q : Register}
    (hr : r.Related R q) : (s.write r).Related R (s'.write q) := by
  obtain ⟨hnumber, hregs⟩ := number_same hR h.regs hr
  simp only [Sweep.write, hnumber, h.writes]
  exact ⟨hregs, h.reads, rfl⟩

theorem Sweep.Related.instr {s s' : Sweep} (h : s.Related R s') {i j : Instruction}
    (hij : i.Related R j) : (s.instr i).Related R (s'.instr j) := by
  have hread : Sweep.Related R (i.inputs.foldl Sweep.read s) (j.inputs.foldl Sweep.read s') :=
    List.rel_foldl (P := Sweep.Related R) (R := Register.Related R)
      (fun _ _ hs _ _ hr => hs.read hR hr) h hij.inputs
  exact List.rel_foldl (P := Sweep.Related R) (R := Register.Related R)
    (fun _ _ hs _ _ hr => hs.write hR hr) hread hij.outputs

theorem Sweep.block_same {regs regs' : List Register} {b c : Code.Block}
    (hregs : List.Forall₂ (Register.Related R) regs regs') (h : b.Related R c) :
    (Sweep.block regs b).Related R (Sweep.block regs' c) := by
  have hstart : Sweep.Related R { regs } { regs := regs' } := ⟨hregs, rfl, rfl⟩
  refine List.rel_foldl (P := Sweep.Related R) (R := Instruction.Related R)
    (fun _ _ hs _ _ hij => hs.instr hR hij) ?_ h.instructions
  exact List.rel_foldl (P := Sweep.Related R) (R := Ir.Phi.Related R)
    (fun _ _ hs _ _ hp => hs.write hR (.virtual hp.dst)) hstart h.phis

theorem sweepBlocks_same {regs regs' : List Register} {bs cs : List Code.Block}
    (hregs : List.Forall₂ (Register.Related R) regs regs')
    (h : List.Forall₂ (Code.Block.Related R) bs cs) :
    (sweepBlocks regs bs).1 = (sweepBlocks regs' cs).1 ∧
      List.Forall₂ (Register.Related R) (sweepBlocks regs bs).2 (sweepBlocks regs' cs).2 := by
  induction h generalizing regs regs' with
  | nil => exact ⟨rfl, hregs⟩
  | cons hbc _ ih =>
    have hsweep := Sweep.block_same hR hregs hbc
    obtain ⟨hfacts, hrest⟩ := ih hsweep.regs
    refine ⟨?_, hrest⟩
    simp only [sweepBlocks, hsweep.reads, hsweep.writes, hfacts]

/-! ### The control flow graph -/

variable {f f' : Fn} (hf : List.Forall₂ (Code.Block.Related R) f.blocks f'.blocks)
include hf

theorem blockIndex?_eq {n m : Name} (hn : R n m) : f.blockIndex? n = f'.blockIndex? m :=
  findIdx?_eq_of_forall₂ hf fun _ _ hbc => decide_eq_decide.2 (rel_eq hR hbc.label hn)

theorem getBlock?_rel {n m : Name} (hn : R n m) :
    Option.Rel (Code.Block.Related R) (f.getBlock? n) (f'.getBlock? m) :=
  find?_rel hf fun _ _ hbc => decide_eq_decide.2 (rel_eq hR hbc.label hn)

theorem checkSuccessors_same :
    SameSuccess (fun _ _ => True) (Except.within .successors f.checkSuccessors)
      (Except.within .successors f'.checkSuccessors) := by
  have hdangling : Option.Rel (fun x y => R x.1 y.1 ∧ R x.2 y.2) f.danglingSuccessor?
      f'.danglingSuccessor? := by
    refine findSome?_rel hf fun b c hbc => ?_
    have hfind := find?_rel hbc.successors fun n m hn =>
      optionRel_isNone (getBlock?_rel hR hf hn)
    generalize b.successors.find? _ = o, c.successors.find? _ = o' at hfind ⊢
    cases hfind with
    | none => exact .none
    | some hs => exact .some ⟨hbc.label, hs⟩
  rw [Fn.checkSuccessors, Fn.checkSuccessors]
  generalize f.danglingSuccessor? = o, f'.danglingSuccessor? = o' at hdangling ⊢
  cases hdangling with
  | none => exact .ok trivial
  | some _ => exact .error _ _

omit hf in
theorem uniqueSuccessors_rel {b c : Code.Block} (h : b.Related R c) :
    List.Forall₂ R b.uniqueSuccessors c.uniqueSuccessors := by
  refine List.rel_foldl (fun seen seen' hseen n m hn => ?_) .nil h.successors
  have hmem : n ∈ seen ↔ m ∈ seen' := List.rel_mem hR hn hseen
  by_cases hn' : n ∈ seen
  · rw [if_pos hn', if_pos (hmem.1 hn')]
    exact hseen
  · rw [if_neg hn', if_neg (hmem.not.1 hn')]
    exact List.rel_append hseen (.cons hn .nil)

theorem graph_eq : graph f = graph f' := by
  have hsuccessors : ∀ b c, Code.Block.Related R b c → successorsOf f b = successorsOf f' c :=
    fun b c hbc => filterMap_eq_of_forall₂ (uniqueSuccessors_rel hR hbc) fun n m hn =>
      blockIndex?_eq hR hf hn
  have hmap := List.rel_map hsuccessors hf
  rwa [List.forall₂_eq_eq_eq] at hmap

/-! ### Facts -/

omit hR hf in
theorem phiReadsOf_rel {b c : Code.Block} (h : b.Related R c) :
    RelatedEntries R (Register.Related R) (phiReadsOf b) (phiReadsOf c) := by
  have hsources := List.rel_flatMap h.phis fun _ _ (hp : Ir.Phi.Related R _ _) => hp.sources
  refine List.rel_filterMap (fun x y hxy => ?_) hsources
  have hvalue := hxy.value
  simp only [sourceRegister?]
  generalize x.value = v, y.value = w at hvalue ⊢
  cases hvalue with
  | none => exact .none
  | some hv =>
    cases hv with
    | reg hn => exact .some ⟨hxy.block, .virtual hn⟩
    | imm k => exact .none

/-- Facts that are equal, with numbered registers that are related. -/
def SameFacts (R : Name → Name → Prop) (x y : List Facts × List Register) : Prop :=
  x.1 = y.1 ∧ List.Forall₂ (Register.Related R) x.2 y.2

theorem addPhiReads_same {facts : List Facts} {regs regs' : List Register}
    {rs qs : List (Name × Register)} (hregs : List.Forall₂ (Register.Related R) regs regs')
    (h : RelatedEntries R (Register.Related R) rs qs) :
    SameSuccess (SameFacts R) (addPhiReads f facts regs rs) (addPhiReads f' facts regs' qs) := by
  induction h generalizing facts regs regs' with
  | nil => exact .ok ⟨rfl, hregs⟩
  | @cons r q _ _ hrq _ ih =>
    have hread : SameSuccess (SameFacts R) (addPhiRead f facts regs r)
        (addPhiRead f' facts regs' q) := by
      obtain ⟨hnumber, hregs'⟩ := number_same hR hregs hrq.2
      simp only [addPhiRead, blockIndex?_eq hR hf hrq.1, hnumber]
      split
      · exact .error _ _
      · exact .ok ⟨rfl, hregs'⟩
    refine hread.bind ?_
    rintro ⟨facts', regs₁⟩ ⟨_, regs₂⟩ ⟨rfl, hregs₁⟩
    exact ih hregs₁

/-- The facts of related functions are equal. -/
theorem factsOf_same : SameSuccess (SameFacts R) (factsOf f) (factsOf f') := by
  refine (checkSuccessors_same hR hf).bind fun _ _ _ => ?_
  obtain ⟨hfacts, hregs⟩ := sweepBlocks_same hR .nil hf
  dsimp only
  rw [hfacts, graph_eq hR hf]
  have hreads := List.rel_flatMap hf fun _ _ hbc => phiReadsOf_rel hbc
  refine (addPhiReads_same hR hf hregs hreads).bind ?_
  rintro ⟨facts, regs⟩ ⟨_, regs'⟩ ⟨rfl, hregs'⟩
  exact .ok ⟨rfl, hregs'⟩

/-! ### Live registers -/

/-- The same numbers are live, for registers and labels that are related. -/
structure Info.Related (R : Name → Name → Prop) (x y : Info) : Prop where
  /-- The registers are related. -/
  registers : List.Forall₂ (Register.Related R) x.registers y.registers
  /-- The labels are. -/
  labels : List.Forall₂ R x.labels y.labels
  /-- The same numbers are live at the starts. -/
  liveIn : x.liveIn = y.liveIn
  /-- The same numbers are live at the ends. -/
  liveOut : x.liveOut = y.liveOut

/-- Related functions are both refused, or have the same live registers but for their names. -/
theorem analyze_same : SameSuccess (Info.Related R) (analyze f) (analyze f') := by
  refine (factsOf_same hR hf).bind ?_
  rintro ⟨facts, regs⟩ ⟨_, regs'⟩ ⟨rfl, hregs⟩
  -- the equations are solved in numbers alone, and for as many registers on both sides
  have hlength : regs.length = regs'.length := hregs.length_eq
  refine .ok ⟨hregs, List.rel_map (fun _ _ hbc => hbc.label) hf, ?_, ?_⟩
  · simp only [hlength]
  · simp only [hlength]

end

section

variable {R : Name → Name → Prop} {x y : Info} (h : x.Related R y)
include h

theorem Info.Related.registersOf (s : Bitmap) :
    List.Forall₂ (Register.Related R) (x.registersOf s) (y.registersOf s) :=
  List.rel_filterMap (fun i j (hij : i = j) => hij ▸ getElem?_rel h.registers i)
    (List.forall₂_same.2 fun _ _ => rfl)

variable (hR : BiUnique R) {n m : Name} (hn : R n m)
include hR hn

theorem Info.Related.liveInOf? :
    Option.Rel (List.Forall₂ (Register.Related R)) (x.liveInOf? n) (y.liveInOf? m) := by
  rw [Info.liveInOf?, Info.liveInOf?, idxOf?_eq_of_forall₂ hR h.labels hn, h.liveIn]
  cases y.labels.idxOf? m with
  | none => exact .none
  | some i => exact .some (h.registersOf _)

theorem Info.Related.liveOutOf? :
    Option.Rel (List.Forall₂ (Register.Related R)) (x.liveOutOf? n) (y.liveOutOf? m) := by
  rw [Info.liveOutOf?, Info.liveOutOf?, idxOf?_eq_of_forall₂ hR h.labels hn, h.liveOut]
  cases y.labels.idxOf? m with
  | none => exact .none
  | some i => exact .some (h.registersOf _)

end

/-! ### Live registers as texts -/

/-- Registers as texts. -/
def registerTexts (t : NameTable) (l : List Register) : List Text := l.map fun r => r.text t

/-- What is live at the start and at the end of a block, with the label and the registers as
texts. -/
def blockTexts (t : NameTable) (x : Info) (label : Name) :
    Text × Option (List Text) × Option (List Text) :=
  (t.text label, (x.liveInOf? label).map (registerTexts t),
    (x.liveOutOf? label).map (registerTexts t))

/-- The live registers of a function as texts: all its registers by first appearance, and what is
live in each block. Nothing is shown of a function that is refused. -/
def shown (t : NameTable) (f : Fn) :
    Option (List Text × List (Text × Option (List Text) × Option (List Text))) :=
  match analyze f with
  | .error _ => none
  | .ok x => some (registerTexts t x.registers, x.labels.map (blockTexts t x))

section

variable {t t' : NameTable}

theorem registerTexts_eq {l l' : List Register}
    (h : List.Forall₂ (Register.Related (SameText t t')) l l') :
    registerTexts t l = registerTexts t' l' := by
  have hmap := List.rel_map (P := Eq) (R := Register.Related (SameText t t'))
    (fun _ _ hr => hr.text_eq) h
  rwa [List.forall₂_eq_eq_eq] at hmap

theorem map_registerTexts_eq {o o' : Option (List Register)}
    (h : Option.Rel (List.Forall₂ (Register.Related (SameText t t'))) o o') :
    o.map (registerTexts t) = o'.map (registerTexts t') := by
  cases h with
  | none => rfl
  | some h => exact congrArg some (registerTexts_eq h)

theorem blockTexts_eq {x y : Info} (h : x.Related (SameText t t') y) {n m : Name}
    (hn : SameText t t' n m) : blockTexts t x n = blockTexts t' y m := by
  rw [blockTexts, blockTexts, hn.text_eq,
    map_registerTexts_eq (h.liveInOf? SameText.biUnique hn),
    map_registerTexts_eq (h.liveOutOf? SameText.biUnique hn)]

/-- Functions that are the same with all names read as texts have the same live registers, read as
texts. -/
theorem shown_eq {bs cs : List Code.Block}
    (h : List.Forall₂ (Code.Block.Related (SameText t t')) bs cs) (args args' : List Name) :
    shown t ⟨args, bs⟩ = shown t' ⟨args', cs⟩ := by
  have hsame : SameSuccess (Info.Related (SameText t t')) (analyze ⟨args, bs⟩)
      (analyze ⟨args', cs⟩) := analyze_same SameText.biUnique h
  unfold shown
  generalize analyze ⟨args, bs⟩ = x, analyze ⟨args', cs⟩ = y at hsame ⊢
  cases hsame with
  | error _ _ => rfl
  | ok h =>
    have hblocks := List.rel_map (fun _ _ hn => blockTexts_eq h hn) h.labels
    rw [List.forall₂_eq_eq_eq] at hblocks
    simp only [registerTexts_eq h.registers, hblocks]

end

end Live

end CodeTiling
