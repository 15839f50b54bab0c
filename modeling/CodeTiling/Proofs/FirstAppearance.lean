import CodeTiling.Proofs.Emission
import CodeTiling.Proofs.Liveness
import CodeTiling.Proofs.RegisterUses
import CodeTiling.Proofs.WordScans

/-!
# Registers by first appearance

The liveness analysis numbers the registers of a function as it comes across them. First it goes
through the blocks, where it meets the destinations of phis and then the instructions, and after
that it meets the registers that phis take. An instruction reads before it writes: in one
instruction the registers that it reads appear first, in the order of the operands, and then the
one that it writes.

Each step of the analysis adds at most one register behind those that it knows (`number_eraseDups`),
so that at any time it knows the registers met so far without repetition. The sets of live registers
hold numbers of registers only, so they are read off as sublists.

* `factsOf_registers` : the registers are those that appear, by first appearance;
* `mem_appearances` : those that appear are the registers in operands, the destinations of phis and
  the registers that phis take;
* `registersOf_sublist` : the registers of a set stand in the order of their numbers;
* `analyze_numbered` : the numbering of an analysis is consistent.
-/

namespace CodeTiling.Live

open Code (Register Instruction Fn)

/-! ### Appearances -/

/-- The registers that a block shows: the destinations of its phis, and the registers of its
instructions, each of which reads before it writes. -/
def shownBy (b : Code.Block) : List Register :=
  (b.phis.map fun p => .virtual p.dst) ++ b.instructions.flatMap fun i => i.inputs ++ i.outputs

/-- The registers that the phis of a block take. -/
def takenBy (b : Code.Block) : List Register :=
  b.phis.flatMap fun p => p.sources.filterMap sourceRegister?

/-- The registers of a function as they appear: first what the blocks show, then what phis take. -/
def appearances (f : Fn) : List Register := f.blocks.flatMap shownBy ++ f.blocks.flatMap takenBy

/-- A register stands in an operand of an instruction of the function. -/
def InOperand (f : Fn) (r : Register) : Prop :=
  ∃ b ∈ f.blocks, ∃ i ∈ b.instructions, ∃ o, i.registerAt o = r

/-- A register is the destination of a phi of the function. -/
def IsPhiDestination (f : Fn) (r : Register) : Prop := ∃ b ∈ f.blocks, PhiWrites b r

section

variable {f : Fn} {b : Code.Block} {r : Register}

theorem map_phiReads (f : Fn) :
    (f.blocks.flatMap phiReadsOf).map Prod.snd = f.blocks.flatMap takenBy := by
  have hsource : ∀ s : Ir.PhiSource,
      ((sourceRegister? s).map (s.block, ·)).map Prod.snd = sourceRegister? s := fun s => by
    rw [Option.map_map]
    exact Option.map_id'
  have hblock : ∀ b : Code.Block, (phiReadsOf b).map Prod.snd = takenBy b := fun b => by
    rw [phiReadsOf, takenBy, List.map_filterMap, List.filterMap_flatMap]
    simp only [hsource]
  rw [List.map_flatMap]
  simp only [hblock]

theorem mem_shownBy : r ∈ shownBy b ↔
    PhiWrites b r ∨ (r ≠ .none ∧ ∃ i ∈ b.instructions, ∃ o, i.registerAt o = r) := by
  rw [shownBy, List.mem_append, List.mem_map, List.mem_flatMap]
  refine or_congr (exists_congr fun p => and_congr_right fun _ => eq_comm) ?_
  simp only [List.mem_append, Instruction.mem_inputs_or_outputs_iff]
  constructor
  · rintro ⟨i, hi, hr, ho⟩
    exact ⟨hr, i, hi, ho⟩
  · rintro ⟨hr, i, hi, ho⟩
    exact ⟨i, hi, hr, ho⟩

theorem mem_takenBy_blocks : r ∈ f.blocks.flatMap takenBy ↔ ∃ l, IsPhiSource f l r := by
  rw [← map_phiReads, List.mem_map]
  simp only [← mem_phiReads]
  constructor
  · rintro ⟨⟨l, r⟩, h, rfl⟩
    exact ⟨l, h⟩
  · rintro ⟨l, h⟩
    exact ⟨(l, r), h, rfl⟩

theorem IsPhiDestination.ne_none (h : IsPhiDestination f r) : r ≠ .none := by
  obtain ⟨b, -, p, -, rfl⟩ := h
  exact Register.noConfusion

theorem ne_none_of_isPhiSource {l : Name} (h : IsPhiSource f l r) : r ≠ .none := by
  obtain ⟨c, -, p, -, s, -, -, n, -, rfl⟩ := h
  exact Register.noConfusion

theorem mem_appearances :
    r ∈ appearances f ↔
      r ≠ .none ∧ (InOperand f r ∨ IsPhiDestination f r ∨ ∃ l, IsPhiSource f l r) := by
  rw [appearances, List.mem_append, mem_takenBy_blocks, List.mem_flatMap]
  simp only [mem_shownBy]
  constructor
  · rintro (⟨b, hb, h | ⟨hr, h⟩⟩ | ⟨l, h⟩)
    · have hdst : IsPhiDestination f r := ⟨b, hb, h⟩
      exact ⟨hdst.ne_none, .inr (.inl hdst)⟩
    · exact ⟨hr, .inl ⟨b, hb, h⟩⟩
    · exact ⟨ne_none_of_isPhiSource h, .inr (.inr ⟨l, h⟩)⟩
  · rintro ⟨hr, ⟨b, hb, h⟩ | ⟨b, hb, h⟩ | h⟩
    · exact .inl ⟨b, hb, .inr ⟨hr, h⟩⟩
    · exact .inl ⟨b, hb, .inl h⟩
    · exact .inr h

end

/-! ### Numbers -/

section

variable {s : Sweep} {l : List Register}

/-- Asking for the number of a register adds it behind the registers met so far, if it is new. -/
theorem number_eraseDups (l : List Register) (r : Register) :
    (number l.eraseDups r).2 = (l ++ [r]).eraseDups := by
  rw [eraseDups_concat, number]
  have hfound : l.eraseDups.idxOf? r = none ↔ r ∉ l := by
    rw [List.idxOf?_eq_none_iff, List.mem_eraseDups]
  by_cases hr : r ∈ l
  · obtain ⟨i, hi⟩ := Option.ne_none_iff_exists'.1 fun h => hfound.1 h hr
    rw [if_pos hr, hi]
  · rw [if_neg hr, hfound.2 hr]

theorem Sweep.regs_read (s : Sweep) (r : Register) : (s.read r).regs = (number s.regs r).2 := by
  unfold Sweep.read
  dsimp only
  split <;> rfl

theorem Sweep.regs_readAll (h : s.regs = l.eraseDups) (rs : List Register) :
    (rs.foldl Sweep.read s).regs = (l ++ rs).eraseDups := by
  induction rs generalizing s l with
  | nil => rw [List.append_nil]; exact h
  | cons r rs ih =>
    rw [List.foldl_cons, List.append_cons]
    exact ih (by rw [regs_read, h, number_eraseDups])

theorem Sweep.regs_writeAll {ι : Type} (h : s.regs = l.eraseDups) (reg : ι → Register)
    (as : List ι) :
    (as.foldl (fun s a => s.write (reg a)) s).regs = (l ++ as.map reg).eraseDups := by
  induction as generalizing s l with
  | nil => rw [List.map_nil, List.append_nil]; exact h
  | cons a as ih =>
    rw [List.foldl_cons, List.map_cons, List.append_cons]
    -- a write asks for a number like a read, so the step is the same
    exact ih ((congrArg (fun l => (number l (reg a)).2) h).trans (number_eraseDups l (reg a)))

theorem Sweep.regs_instrs (h : s.regs = l.eraseDups) (is : List Instruction) :
    (is.foldl Sweep.instr s).regs =
      (l ++ is.flatMap fun i => i.inputs ++ i.outputs).eraseDups := by
  induction is generalizing s l with
  | nil => rw [List.flatMap_nil, List.append_nil]; exact h
  | cons i is ih =>
    have hi : (s.instr i).regs = (l ++ (i.inputs ++ i.outputs)).eraseDups := by
      have := regs_writeAll (regs_readAll h i.inputs) id i.outputs
      rwa [List.map_id, List.append_assoc] at this
    rw [List.foldl_cons, List.flatMap_cons, ← List.append_assoc]
    exact ih hi

theorem Sweep.regs_block (l : List Register) (b : Code.Block) :
    (Sweep.block l.eraseDups b).regs = (l ++ shownBy b).eraseDups := by
  rw [shownBy, ← List.append_assoc]
  exact regs_instrs (regs_writeAll rfl _ b.phis) b.instructions

theorem sweepBlocks_registers (l : List Register) (bs : List Code.Block) :
    (sweepBlocks l.eraseDups bs).2 = (l ++ bs.flatMap shownBy).eraseDups := by
  induction bs generalizing l with
  | nil => rw [List.flatMap_nil, List.append_nil]; rfl
  | cons b bs ih =>
    rw [List.flatMap_cons, ← List.append_assoc, ← ih, ← Sweep.regs_block]
    rfl

theorem addPhiReads_registers {f : Fn} {facts facts' : List Facts} {regs' : List Register}
    {rs : List (Name × Register)}
    (h : addPhiReads f facts l.eraseDups rs = .ok (facts', regs')) :
    regs' = (l ++ rs.map Prod.snd).eraseDups := by
  induction rs generalizing facts l with
  | nil =>
    cases h
    rw [List.map_nil, List.append_nil]
  | cons r rs ih =>
    obtain ⟨⟨facts₁, regs₁⟩, hr, hrs⟩ := Run.except_bind_ok_iff.1 h
    have hregs : regs₁ = (l ++ [r.2]).eraseDups := by
      unfold addPhiRead at hr
      split at hr
      · cases hr
      · cases hr
        exact number_eraseDups l r.2
    rw [List.map_cons, List.append_cons]
    exact ih (hregs ▸ hrs)

/-- The registers of a function are those that appear, by first appearance. -/
theorem factsOf_registers {f : Fn} {facts : List Facts} {regs : List Register}
    (h : factsOf f = .ok (facts, regs)) : regs = (appearances f).eraseDups := by
  obtain ⟨⟨⟩, -, h⟩ := Run.except_bind_ok_iff.1 h
  obtain ⟨⟨facts₁, regs₁⟩, hphi, h⟩ := Run.except_bind_ok_iff.1 h
  cases h
  have hsweep : (sweepBlocks [] f.blocks).2 = (f.blocks.flatMap shownBy).eraseDups :=
    sweepBlocks_registers [] f.blocks
  rw [hsweep] at hphi
  rw [addPhiReads_registers hphi, map_phiReads, appearances]

end

/-! ### Sets of registers -/

theorem filterMap_getElem?_sublist {α : Type} {l : List α} {is : List Nat}
    (h : is.Pairwise (· < ·)) : (is.filterMap (l[·]?)).Sublist l := by
  -- what is picked from place `k` on stands in the list from there on
  have hdrop : ∀ k, (∀ i ∈ is, k ≤ i) → (is.filterMap (l[·]?)).Sublist (l.drop k) := by
    induction is with
    | nil => exact fun k _ => List.nil_sublist _
    | cons i is ih =>
      intro k hk
      obtain ⟨hi, his⟩ := List.pairwise_cons.1 h
      have hrest := ih his (i + 1) hi
      have hle : (l.drop i).Sublist (l.drop k) :=
        List.drop_sublist_drop_left l (hk i List.mem_cons_self)
      by_cases hlt : i < l.length
      · rw [List.filterMap_cons_some (List.getElem?_eq_getElem hlt)]
        refine List.Sublist.trans ?_ hle
        rw [List.drop_eq_getElem_cons hlt]
        exact hrest.cons_cons _
      · rw [List.filterMap_cons_none (List.getElem?_eq_none (Nat.le_of_not_lt hlt))]
        exact (hrest.trans (List.drop_sublist_drop_left l (Nat.le_succ i))).trans hle
  simpa using hdrop 0 fun i _ => Nat.zero_le i

/-- The registers of a set stand in the order of their numbers. -/
theorem registersOf_sublist (x : Info) (s : Bitmap) : (x.registersOf s).Sublist x.registers :=
  filterMap_getElem?_sublist s.pairwise_toList

theorem length_registersOf {x : Info} {s : Bitmap}
    (h : ∀ k, s.contains k = true → k < x.registers.length) :
    (x.registersOf s).length = s.size := by
  rw [Info.registersOf, Bitmap.size_eq, List.filterMap_length_eq_length]
  intro k hk
  rw [List.getElem?_eq_getElem (h k ((Bitmap.mem_toList k).1 hk))]
  rfl

/-! ### The numbering is consistent -/

/-- The numbering of an analysis is consistent with the function. -/
structure Numbered (f : Fn) (x : Info) : Prop where
  /-- The registers stand in the order of their first appearance. -/
  order : x.registers = (appearances f).eraseDups
  /-- Each of them is listed once. -/
  nodup : x.registers.Nodup
  /-- They are the registers in operands, the destinations of phis and the registers that phis
  take. -/
  mem_registers : ∀ r, r ∈ x.registers ↔
    r ≠ .none ∧ (InOperand f r ∨ IsPhiDestination f r ∨ ∃ l, IsPhiSource f l r)
  /-- The numbers in the sets are numbers of registers. -/
  inRange : ∀ s ∈ x.liveIn ++ x.liveOut, ∀ k, s.contains k = true → k < x.registers.length
  /-- So a set has a register for each number. -/
  length_registersOf : ∀ s ∈ x.liveIn ++ x.liveOut, (x.registersOf s).length = s.size
  /-- The live registers of a label stand in the order of all registers, each of them once. -/
  sublists : ∀ l ∈ f.labels, ∃ ins outs, x.liveInOf? l = some ins ∧ x.liveOutOf? l = some outs ∧
    (ins.Sublist x.registers ∧ ins.Nodup) ∧ outs.Sublist x.registers ∧ outs.Nodup
  /-- Other labels have none. -/
  unknown : ∀ l ∉ f.labels, x.liveInOf? l = none ∧ x.liveOutOf? l = none

section

variable {f : Fn} {x : Info}

theorem analyze_registers (h : analyze f = .ok x) : x.registers = (appearances f).eraseDups := by
  obtain ⟨⟨facts, regs⟩, hfacts, h⟩ := Run.except_bind_ok_iff.1 h
  cases h
  exact factsOf_registers hfacts

theorem analyze_inRange (h : analyze f = .ok x) :
    ∀ s ∈ x.liveIn ++ x.liveOut, ∀ k, s.contains k = true → k < x.registers.length := by
  obtain ⟨-, facts, hf, hin, hout⟩ := analyze_spec h
  obtain ⟨hs, -⟩ := solve_solving latestFirst hf
  intro s hmem k hk
  rcases List.mem_append.1 hmem with hmem | hmem
  · obtain ⟨i, hi, rfl⟩ := List.getElem_of_mem hmem
    rw [← List.getD_eq_getElem _ {} hi, hin] at hk
    exact hs.known i k hk
  · obtain ⟨i, hi, rfl⟩ := List.getElem_of_mem hmem
    rw [← List.getD_eq_getElem _ {} hi, hout] at hk
    exact hs.endsKnown i k hk

end

/-- **The numbering of registers is consistent.** An analysis lists the registers of a function by
first appearance, what is read in an instruction before what is written there. All numbers in its
sets are numbers of registers, and the live registers of each label are read off in the order of the
list. -/
theorem analyze_numbered {f : Fn} {x : Info} (h : analyze f = .ok x) : Numbered f x := by
  obtain ⟨hlabels, facts, hf, -⟩ := analyze_spec h
  have hlive : ∀ s : Bitmap, (x.registersOf s).Sublist x.registers ∧ (x.registersOf s).Nodup :=
    fun s => ⟨registersOf_sublist x s, (registersOf_sublist x s).nodup hf.nodup⟩
  refine ⟨analyze_registers h, hf.nodup, fun r => ?_, analyze_inRange h,
    fun s hs => length_registersOf (analyze_inRange h s hs), fun l hl => ?_, fun l hl => ?_⟩
  · rw [analyze_registers h, List.mem_eraseDups, mem_appearances]
  · rw [← hlabels] at hl
    obtain ⟨i, hi⟩ := Option.ne_none_iff_exists'.1 fun h => List.idxOf?_eq_none_iff.1 h hl
    exact ⟨_, _, by rw [Info.liveInOf?, hi]; rfl, by rw [Info.liveOutOf?, hi]; rfl, hlive _,
      hlive _⟩
  · rw [← hlabels] at hl
    rw [Info.liveInOf?, Info.liveOutOf?, List.idxOf?_eq_none_iff.2 hl]
    exact ⟨rfl, rfl⟩

/-- The first instruction of the loop writes its first operand, so that operand comes second. -/
theorem analyze_numbered_roundFn : ∃ x, analyze roundFn = .ok x ∧ Numbered roundFn x ∧
    x.registers = [.virtual ⟨4⟩, .virtual ⟨5⟩, .virtual ⟨6⟩, .virtual ⟨7⟩, .virtual ⟨8⟩] := by
  have hrun : (analyze roundFn).toOption.isSome = true := by decide +kernel
  cases h : analyze roundFn with
  | error err => rw [h] at hrun; cases hrun
  | ok x =>
    have hx := analyze_numbered h
    exact ⟨x, rfl, hx, hx.order.trans (by decide +kernel)⟩

end CodeTiling.Live
