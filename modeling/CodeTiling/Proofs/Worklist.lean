import CodeTiling.Proofs.Liveness

/-!
# The queue of the liveness analysis

A block may be taken from the queue in any order, and the order may depend on all that went before.
`Pops` is a run by the blocks that it takes: each of them is queued when its turn comes, and nothing
else is asked of them. A run keeps the invariant `Solving` and pays for each look with
`State.work`, so it ends; what it ends with is the least solution of the equations, so it ends with
one result.

* `factsOf_of_resolved` : a function whose labels are all carried by blocks has its facts;
* `Pops.work_le` : every look uses up work;
* `Pops.contains_le` : the sets at the starts of blocks only grow;
* `Solving.contains_eq` : states with an empty queue have the same sets;
* `pops_confluent` : all of this for the runs of a function.
-/

namespace CodeTiling.Live

open Code (Register Fn)

/-! ### Functions that have facts -/

/-- Every label that control goes to, and every label that a phi takes a register from, is carried
by a block. -/
structure Resolved (f : Fn) : Prop where
  /-- The successors of a block are blocks. -/
  successors : ∀ b ∈ f.blocks, ∀ l ∈ b.successors, l ∈ f.labels
  /-- The sources of phis that are registers come from blocks. -/
  sources : ∀ b ∈ f.blocks, ∀ p ∈ b.phis, ∀ s ∈ p.sources, ∀ n,
    s.value = some (.reg n) → s.block ∈ f.labels

section

variable {f : Fn} {l : Name}

theorem exists_getBlock? (h : l ∈ f.labels) : ∃ b, f.getBlock? l = some b := by
  obtain ⟨b, hb, hl⟩ := List.mem_map.1 h
  rw [Fn.getBlock?, ← Option.isSome_iff_exists, List.find?_isSome]
  exact ⟨b, hb, by simpa using hl⟩

theorem exists_blockIndex? (h : l ∈ f.labels) : ∃ i, f.blockIndex? l = some i := by
  obtain ⟨b, hb⟩ := exists_getBlock? h
  have hl : b.label = l := by simpa using List.find?_some hb
  obtain ⟨i, hi, -⟩ := blockIndex?_of_getBlock? (hl ▸ hb)
  exact ⟨i, hl ▸ hi⟩

theorem checkSuccessors_of_resolved (h : Resolved f) : f.checkSuccessors = .ok () := by
  have hnone : f.danglingSuccessor? = none := by
    rw [Fn.danglingSuccessor?, List.findSome?_eq_none_iff]
    intro b hb
    rw [Option.map_eq_none_iff, List.find?_eq_none]
    intro s hs
    obtain ⟨c, hc⟩ := exists_getBlock? (h.successors b hb s hs)
    simp [hc]
  rw [Fn.checkSuccessors, hnone]

theorem mem_labels_of_phiReadsOf (h : Resolved f) {r : Name × Register}
    (hr : r ∈ f.blocks.flatMap phiReadsOf) : r.1 ∈ f.labels := by
  obtain ⟨b, hb, hr⟩ := List.mem_flatMap.1 hr
  obtain ⟨s, hs, hr⟩ := List.mem_filterMap.1 hr
  obtain ⟨p, hp, hs⟩ := List.mem_flatMap.1 hs
  obtain ⟨reg, hreg, rfl⟩ := Option.map_eq_some_iff.1 hr
  unfold sourceRegister? at hreg
  split at hreg
  · rename_i n hn
    exact h.sources b hb p hp s hs n hn
  · cases hreg

theorem addPhiReads_of_mem_labels {rs : List (Name × Register)} (h : ∀ r ∈ rs, r.1 ∈ f.labels)
    (facts : List Facts) (regs : List Register) : ∃ x, addPhiReads f facts regs rs = .ok x := by
  induction rs generalizing facts regs with
  | nil => exact ⟨_, rfl⟩
  | cons r rs ih =>
    obtain ⟨hr, hrs⟩ := List.forall_mem_cons.1 h
    obtain ⟨i, hi⟩ := exists_blockIndex? hr
    obtain ⟨x, hx⟩ : ∃ x, addPhiRead f facts regs r = .ok x := by
      rw [addPhiRead, hi]
      exact ⟨_, rfl⟩
    obtain ⟨y, hy⟩ := ih hrs x.1 x.2
    exact ⟨y, Run.except_bind_ok_iff.2 ⟨x, hx, hy⟩⟩

/-- A function whose labels are all carried by blocks has its facts. -/
theorem factsOf_of_resolved (h : Resolved f) :
    ∃ facts regs, factsOf f = .ok (facts, regs) := by
  obtain ⟨⟨facts, regs⟩, hphi⟩ := addPhiReads_of_mem_labels
    (fun r hr => mem_labels_of_phiReadsOf h hr) (sweepBlocks [] f.blocks).1
    (sweepBlocks [] f.blocks).2
  refine ⟨addEdges (graph f) facts, regs, ?_⟩
  refine Run.except_bind_ok_iff.2 ⟨(), Run.within_ok_iff.2 (checkSuccessors_of_resolved h), ?_⟩
  exact Run.except_bind_ok_iff.2 ⟨_, hphi, rfl⟩

end

/-! ### Runs -/

/-- Looking at the blocks `is` one after another, each of them queued when its turn comes, leads
from one state to another. -/
inductive Pops (facts : List Facts) : State → List Nat → State → Prop
  /-- No block is taken. -/
  | nil (s : State) : Pops facts s [] s
  /-- A queued block is taken, and then others. -/
  | cons {s s' : State} {i : Nat} {is : List Nat} (hi : i ∈ s.queue)
      (h : Pops facts (s.visit facts i) is s') : Pops facts s (i :: is) s'

section

variable {f : Fn} {regs : List Register} {facts : List Facts} {s s' : State} {is js : List Nat}

theorem Pops.append {s'' : State} (h : Pops facts s is s') (h' : Pops facts s' js s'') :
    Pops facts s (is ++ js) s'' := by
  induction h with
  | nil => exact h'
  | cons hi _ ih => exact .cons hi (ih h')

/-- A run that has not come to an empty queue goes on, with whichever queued block. -/
theorem Pops.concat (h : Pops facts s is s') {i : Nat} (hi : i ∈ s'.queue) :
    Pops facts s (is ++ [i]) (s'.visit facts i) := h.append (.cons hi (.nil _))

/-- The loop takes the blocks that its strategy picks. -/
theorem exists_pops_solveFrom (σ : Strategy) (facts : List Facts) (fuel : Nat) (s : State) :
    ∃ is, Pops facts s is (solveFrom σ facts fuel s) := by
  induction fuel generalizing s with
  | zero => exact ⟨[], .nil s⟩
  | succ fuel ih =>
    rw [solveFrom]
    split
    · exact ⟨[], .nil s⟩
    · rename_i hq
      obtain ⟨is, his⟩ := ih (s.visit facts (σ.pick s.queue))
      exact ⟨_, .cons (σ.pick_mem s.queue hq) his⟩

variable (hf : FnFacts f regs facts)
include hf

theorem Pops.solving (h : Pops facts s is s') (hs : Solving f regs s) : Solving f regs s' := by
  induction h with
  | nil => exact hs
  | cons hi _ ih => exact ih (hs.visit hi (visit_spec hf hs.known hs.lengths (hs.queued _ hi)))

/-- Each block that is taken uses up work. -/
theorem Pops.work_le (h : Pops facts s is s') (hs : Solving f regs s) :
    is.length + s'.work f.blocks.length regs.length ≤ s.work f.blocks.length regs.length := by
  induction h with
  | nil => simp
  | cons hi _ ih =>
    have hv := visit_spec hf hs.known hs.lengths (hs.queued _ hi)
    have hlt := hs.work_lt hf.nodup hi hv
    have hrest := ih (hs.visit hi hv)
    rw [List.length_cons]
    omega

/-- The sets at the starts of blocks only grow along a run. -/
theorem Pops.contains_le (h : Pops facts s is s') (hs : Solving f regs s) (j k : Nat)
    (hk : (s.liveIn.getD j {}).contains k = true) : (s'.liveIn.getD j {}).contains k = true := by
  induction h with
  | nil => exact hk
  | cons hi _ ih =>
    have hv := visit_spec hf hs.known hs.lengths (hs.queued _ hi)
    exact ih (hs.visit hi hv) (hv.contains_le hs hf.nodup j k hk)

omit hf in
/-- Sets of numbers of registers that have the same registers are the same. -/
theorem contains_eq_of_has_iff {x y : Bitmap} (hd : regs.Nodup)
    (hx : ∀ k, x.contains k = true → k < regs.length)
    (hy : ∀ k, y.contains k = true → k < regs.length)
    (h : ∀ r, Has regs x r ↔ Has regs y r) (k : Nat) : x.contains k = y.contains k := by
  rw [Bool.eq_iff_iff]
  by_cases hk : k < regs.length
  · have hget := List.getElem?_eq_getElem hk
    rw [← has_iff_contains hd hget, ← has_iff_contains hd hget]
    exact h _
  · exact ⟨fun h => (hk (hx k h)).elim, fun h => (hk (hy k h)).elim⟩

/-- States that no queued block keeps from being solutions have the same sets. -/
theorem Solving.contains_eq (hs : Solving f regs s) (hs' : Solving f regs s')
    (hq : s.queue = []) (hq' : s'.queue = []) {i : Nat} (hi : i < f.blocks.length) :
    (∀ k, (s.liveIn.getD i {}).contains k = (s'.liveIn.getD i {}).contains k) ∧
      ∀ k, (s.liveOut.getD i {}).contains k = (s'.liveOut.getD i {}).contains k := by
  have hexact := hs.exact hq hi
  have hexact' := hs'.exact hq' hi
  constructor
  · refine contains_eq_of_has_iff hf.nodup (hs.known i) (hs'.known i) fun r => ?_
    exact (hexact r).1.trans (hexact' r).1.symm
  · refine contains_eq_of_has_iff hf.nodup (hs.endsKnown i) (hs'.endsKnown i) fun r => ?_
    exact (hexact r).2.trans (hexact' r).2.symm

end

/-! ### The order does not matter -/

/-- **The analysis ends, with one result for all orders.** Let every successor and every phi source
of a function be a block of it, and take queued blocks in any order, starting with all of them.

* There is a number that bounds the blocks taken, and a run goes on until its queue is empty,
  whichever queued blocks it takes.
* The registers live at the start of a block only become more.
* Runs that have come to an empty queue have the same sets at the starts and at the ends of blocks.
* The loop of a strategy is such a run and comes to an empty queue, and the analysis hands out what
  the loop of one strategy ends with. -/
theorem pops_confluent {f : Fn} (hf : Resolved f) :
    ∃ facts regs, factsOf f = .ok (facts, regs) ∧
      (∀ is s, Pops facts (.start f.blocks.length) is s →
        is.length ≤ visitBound f.blocks.length regs.length ∧
          ∀ i ∈ s.queue, Pops facts (.start f.blocks.length) (is ++ [i]) (s.visit facts i)) ∧
      (∀ is s js s', Pops facts (.start f.blocks.length) is s → Pops facts s js s' →
        ∀ i k, (s.liveIn.getD i {}).contains k = true →
          (s'.liveIn.getD i {}).contains k = true) ∧
      (∀ is s is' s', Pops facts (.start f.blocks.length) is s → s.queue = [] →
        Pops facts (.start f.blocks.length) is' s' → s'.queue = [] →
        ∀ i < f.blocks.length,
          (∀ k, (s.liveIn.getD i {}).contains k = (s'.liveIn.getD i {}).contains k) ∧
            ∀ k, (s.liveOut.getD i {}).contains k = (s'.liveOut.getD i {}).contains k) ∧
      (∀ σ : Strategy, (solve σ facts regs.length).queue = [] ∧
        ∃ is, Pops facts (.start f.blocks.length) is (solve σ facts regs.length)) ∧
      ∃ x, analyze f = .ok x ∧ x.liveIn = (solve latestFirst facts regs.length).liveIn ∧
        x.liveOut = (solve latestFirst facts regs.length).liveOut := by
  obtain ⟨facts, regs, hfacts⟩ := factsOf_of_resolved hf
  have hspec := factsOf_spec hfacts
  have hstart := Solving.start f regs
  refine ⟨facts, regs, hfacts, ?_, ?_, ?_, ?_, ?_⟩
  · intro is s h
    have hwork := h.work_le hspec hstart
    have hbound := State.work_start_le f.blocks.length regs.length
    exact ⟨by omega, fun i hi => h.concat hi⟩
  · intro is s js s' h h'
    exact h'.contains_le hspec (h.solving hspec hstart)
  · intro is s is' s' h hq h' hq' i hi
    exact (h.solving hspec hstart).contains_eq hspec (h'.solving hspec hstart) hq hq' hi
  · intro σ
    refine ⟨(solve_solving σ hspec).2, ?_⟩
    rw [solve, hspec.length]
    exact exists_pops_solveFrom σ facts _ _
  · exact ⟨_, Run.except_bind_ok_iff.2 ⟨_, hfacts, rfl⟩, rfl, rfl⟩

/-- Take the block that comes first in the function, against the direction of the flow. -/
def earliestFirst : Strategy where
  pick q := q.min?.getD 0
  pick_mem q h := by
    obtain ⟨m, hm⟩ := Option.ne_none_iff_exists'.1 (mt List.min?_eq_none_iff.1 h)
    rw [hm]
    exact List.min?_mem hm

/-- Blocks taken from the front of the function with a loop come to the sets of blocks taken from
its end. -/
theorem pops_confluent_roundFn :
    Resolved roundFn ∧ ∃ facts regs, factsOf roundFn = .ok (facts, regs) ∧
      ∀ i < 3, ∀ k, ((solve earliestFirst facts regs.length).liveIn.getD i {}).contains k =
        ((solve latestFirst facts regs.length).liveIn.getD i {}).contains k := by
  have hf : Resolved roundFn := by
    refine ⟨by decide, fun b hb p hp s hs n _ => ?_⟩
    have hall : ∀ b ∈ roundFn.blocks, ∀ p ∈ b.phis, ∀ s ∈ p.sources,
        s.block ∈ roundFn.labels := by decide
    exact hall b hb p hp s hs
  obtain ⟨facts, regs, hfacts, -, -, hsame, hloop, -⟩ := pops_confluent hf
  obtain ⟨hq, is, his⟩ := hloop earliestFirst
  obtain ⟨hq', is', his'⟩ := hloop latestFirst
  exact ⟨hf, facts, regs, hfacts, fun i hi => (hsame _ _ _ _ his hq his' hq' i hi).1⟩

end CodeTiling.Live
