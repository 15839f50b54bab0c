import CodeTiling.Live.Analysis
import CodeTiling.Proofs.LivePaths
import Mathlib.Data.Finset.Prod
import Mathlib.Order.Interval.Finset.Nat

/-!
# Liveness is exact

The equations between blocks are `OutEq` and `InEq`. Looking at a block sets its part to what the
equations say (`visit_spec`). The invariant `Solving` of the computation says that the sets are
live by paths, that they ascend, and that only queued blocks may fail their equations; every look
keeps it and makes `State.work` smaller, whichever block is taken from the queue.

* `solve_exact` : when the queue is empty, the sets are those of `LiveAt`;
* `analyze_exact` : the live registers at the start and at the end of a block are those that paths
  of the function say.
-/

namespace CodeTiling.Live

open Code (Register Fn)

/-! ### The equations -/

/-- Live at the end of block `i`, when `L` says what is live at the starts. -/
def OutEq (f : Fn) (L : Nat → Register → Prop) (i : Nat) (r : Register) : Prop :=
  TakenAt f i r ∨ ∃ j, Edge f i j ∧ L j r

/-- Live at the start of block `i`, when `L` says what is live at the starts. -/
def InEq (f : Fn) (L : Nat → Register → Prop) (i : Nat) (r : Register) : Prop :=
  ∃ b, f.blocks[i]? = some b ∧ (ReadsFirst b r ∨ (OutEq f L i r ∧ ¬Writes b r))

section

variable {f : Fn} {L L' : Nat → Register → Prop} {i : Nat} {r : Register}

theorem OutEq.mono (hL : ∀ j, L j r → L' j r) (h : OutEq f L i r) : OutEq f L' i r :=
  h.imp_right fun ⟨j, he, hj⟩ => ⟨j, he, hL j hj⟩

theorem InEq.mono (hL : ∀ j, L j r → L' j r) (h : InEq f L i r) : InEq f L' i r := by
  obtain ⟨b, hb, h⟩ := h
  exact ⟨b, hb, h.imp_right (And.imp_left (OutEq.mono hL))⟩

theorem InEq.liveAt (hL : ∀ j, L j r → LiveAt f r j) (h : InEq f L i r) : LiveAt f r i := by
  obtain ⟨b, hb, hread | ⟨htaken | ⟨j, he, hj⟩, hw⟩⟩ := h
  · exact .reads hb hread
  · exact .taken hb hw htaken
  · exact .flows hb hw he (hL j hj)

/-- What is live is in every solution. -/
theorem LiveAt.of_solution (hL : ∀ i, InEq f L i r → L i r) (h : LiveAt f r i) : L i r := by
  induction h with
  | reads hb h => exact hL _ ⟨_, hb, .inl h⟩
  | taken hb hw h => exact hL _ ⟨_, hb, .inr ⟨.inl h, hw⟩⟩
  | flows hb hw he _ ih => exact hL _ ⟨_, hb, .inr ⟨.inr ⟨_, he, ih⟩, hw⟩⟩

end

/-! ### Looking at a block -/

section

variable {f : Fn} {regs : List Register} {facts : List Facts} {s : State} {i : Nat}

/-- What a state has as live at the start of a block. -/
def State.live (s : State) (regs : List Register) (i : Nat) (r : Register) : Prop :=
  Has regs (s.liveIn.getD i {}) r

/-- All numbers in the sets at the starts are numbers of registers. -/
def State.Known (s : State) (regs : List Register) : Prop :=
  ∀ i k, (s.liveIn.getD i {}).contains k = true → k < regs.length

/-- All numbers in the sets at the ends are numbers of registers. -/
def State.EndsKnown (s : State) (regs : List Register) : Prop :=
  ∀ i k, (s.liveOut.getD i {}).contains k = true → k < regs.length

theorem denotes_live (hs : s.Known regs) (i : Nat) :
    Denotes regs (s.liveIn.getD i {}) (s.live regs i) := ⟨hs i, fun _ => Iff.rfl⟩

theorem denotes_unionAll {P : Register → Prop} {out : Bitmap} (hs : s.Known regs)
    (h : Denotes regs out P) (js : List Nat) :
    Denotes regs (js.foldl (fun out j => out.union (s.liveIn.getD j {})) out)
      fun r => P r ∨ ∃ j ∈ js, s.live regs j r := by
  induction js generalizing out P with
  | nil => exact h.congr (by simp)
  | cons j js ih =>
    refine (ih (h.union (denotes_live hs j))).congr fun r => ?_
    rw [List.exists_mem_cons_iff, or_assoc]

/-- What a look at block `i` finds live at its end. -/
def State.endOf (facts : List Facts) (s : State) (i : Nat) : Bitmap := s.outOf (facts.getD i {})

/-- What a look at block `i` finds live at its start. -/
def State.startOf (facts : List Facts) (s : State) (i : Nat) : Bitmap :=
  State.inOf (facts.getD i {}) (s.endOf facts i)

theorem endOf_spec (hf : FnFacts f regs facts) (hs : s.Known regs) (hi : i < f.blocks.length) :
    Denotes regs (s.endOf facts i) (OutEq f (s.live regs) i) := by
  have hlt : i < facts.length := hf.length ▸ hi
  have hblock := hf.block (List.getElem?_eq_getElem hi) (List.getElem?_eq_getElem hlt)
  rw [← List.getD_eq_getElem _ {} hlt] at hblock
  refine (denotes_unionAll hs hblock.phiReads.copy _).congr fun r => or_congr_right ?_
  exact exists_congr fun j => and_congr_left fun _ => hf.successors

theorem startOf_spec (hf : FnFacts f regs facts) (hs : s.Known regs) (hi : i < f.blocks.length) :
    Denotes regs (s.startOf facts i) (InEq f (s.live regs) i) := by
  have hlt : i < facts.length := hf.length ▸ hi
  have hb := List.getElem?_eq_getElem hi
  have hblock := hf.block hb (List.getElem?_eq_getElem hlt)
  rw [← List.getD_eq_getElem _ {} hlt] at hblock
  refine (((endOf_spec hf hs hi).copy.diff hf.nodup hblock.writes).union hblock.reads).congr
    fun r => ?_
  simp only [InEq, hb, Option.some.injEq, exists_eq_left']
  exact or_comm

theorem visit_of_equal (h : (s.liveIn.getD i {}).equal (s.startOf facts i) = true) :
    s.visit facts i =
      { s with queue := s.queue.erase i, liveOut := s.liveOut.set i (s.endOf facts i) } :=
  if_pos h

theorem visit_of_not_equal (h : ¬(s.liveIn.getD i {}).equal (s.startOf facts i) = true) :
    s.visit facts i = (facts.getD i {}).predecessors.foldl State.push
      { liveIn := s.liveIn.set i (s.startOf facts i)
        liveOut := s.liveOut.set i (s.endOf facts i)
        queue := s.queue.erase i } :=
  if_neg h

theorem foldl_push (js : List Nat) (s : State) :
    (js.foldl State.push s).liveIn = s.liveIn ∧ (js.foldl State.push s).liveOut = s.liveOut ∧
      (∀ j, j ∈ (js.foldl State.push s).queue ↔ j ∈ s.queue ∨ j ∈ js) ∧
      (s.queue.Nodup → (js.foldl State.push s).queue.Nodup) := by
  induction js generalizing s with
  | nil => simp
  | cons k js ih =>
    obtain ⟨hin, hout, hmem, hnodup⟩ := ih (s.push k)
    rw [List.foldl_cons]
    unfold State.push at hin hout hmem hnodup ⊢
    by_cases hk : k ∈ s.queue
    · rw [if_pos hk] at hin hout hmem hnodup ⊢
      refine ⟨hin, hout, fun j => ?_, hnodup⟩
      rw [hmem, List.mem_cons]
      exact ⟨Or.imp_right .inr, by rintro (h | rfl | h) <;> simp_all⟩
    · rw [if_neg hk] at hin hout hmem hnodup ⊢
      refine ⟨hin, hout, fun j => ?_, fun hd => hnodup ?_⟩
      · rw [hmem]
        simp [or_assoc]
      · exact List.nodup_append.2 ⟨hd, by simp, by rintro a ha b hb rfl; simp_all⟩

theorem getD_set {α : Type} {l : List α} {i : Nat} (hi : i < l.length) (a d : α) (j : Nat) :
    (l.set i a).getD j d = if j = i then a else l.getD j d := by
  rw [List.getD_eq_getElem?_getD, List.getD_eq_getElem?_getD, List.getElem?_set]
  by_cases hj : j = i
  · subst hj; simp [hi]
  · simp [hj, Ne.symm hj]

/-- What a look at block `i` does to a state. -/
structure Visited (f : Fn) (regs : List Register) (i : Nat) (s s' : State) : Prop where
  /-- No block comes or goes. -/
  lengths : s'.liveIn.length = s.liveIn.length ∧ s'.liveOut.length = s.liveOut.length
  /-- The start of the block is as the equation says. -/
  live : ∀ j r, s'.live regs j r ↔ if j = i then InEq f (s.live regs) i r else s.live regs j r
  /-- The end of the block is as the equation says. -/
  liveOut : ∀ j r, Has regs (s'.liveOut.getD j {}) r ↔
    if j = i then OutEq f (s.live regs) i r else Has regs (s.liveOut.getD j {}) r
  /-- The numbers are still those of registers. -/
  known : s'.Known regs
  /-- So they are at the ends. -/
  endsKnown : s.EndsKnown regs → s'.EndsKnown regs
  /-- If nothing has changed at the start, the block leaves the queue. Otherwise the blocks that go
  to it are queued. -/
  queue : (s'.liveIn = s.liveIn ∧ s'.queue = s.queue.erase i) ∨
    ((∃ k, (s.liveIn.getD i {}).contains k ≠ (s'.liveIn.getD i {}).contains k) ∧
      (∀ j, j ∈ s'.queue ↔ j ∈ s.queue.erase i ∨ Edge f j i) ∧
      ((s.queue.erase i).Nodup → s'.queue.Nodup))

theorem visit_spec (hf : FnFacts f regs facts) (hs : s.Known regs)
    (hlen : s.liveIn.length = f.blocks.length ∧ s.liveOut.length = f.blocks.length)
    (hi : i < f.blocks.length) : Visited f regs i s (s.visit facts i) := by
  have hend := endOf_spec hf hs hi
  have hstart := startOf_spec hf hs hi
  have hin_lt : i < s.liveIn.length := hlen.1 ▸ hi
  have hout_lt : i < s.liveOut.length := hlen.2 ▸ hi
  have hset : ∀ j r, Has regs ((s.liveOut.set i (s.endOf facts i)).getD j {}) r ↔
      if j = i then OutEq f (s.live regs) i r else Has regs (s.liveOut.getD j {}) r := by
    intro j r
    rw [getD_set hout_lt]
    split
    · exact hend.has r
    · exact Iff.rfl
  have hends : s.EndsKnown regs → ∀ j k,
      ((s.liveOut.set i (s.endOf facts i)).getD j {}).contains k = true → k < regs.length := by
    intro hs j k hk
    rw [getD_set hout_lt] at hk
    split at hk
    · exact hend.known k hk
    · exact hs j k hk
  by_cases heq : (s.liveIn.getD i {}).equal (s.startOf facts i) = true
  · -- the start of the block is what it was
    rw [visit_of_equal heq]
    refine ⟨⟨rfl, List.length_set⟩, fun j r => ?_, hset, hs, hends, .inl ⟨rfl, rfl⟩⟩
    split
    · rename_i hj
      subst hj
      rw [← hstart.has r]
      exact exists_congr fun k => and_congr_right fun _ => by rw [Bitmap.equal_iff.1 heq k]
    · exact Iff.rfl
  · -- the start of the block has changed, and its predecessors are queued
    obtain ⟨hliveIn, hliveOut, hmem, hnodup⟩ := foldl_push (facts.getD i {}).predecessors
      { liveIn := s.liveIn.set i (s.startOf facts i)
        liveOut := s.liveOut.set i (s.endOf facts i)
        queue := s.queue.erase i }
    rw [← visit_of_not_equal heq] at hliveIn hliveOut hmem hnodup
    refine ⟨⟨by rw [hliveIn]; exact List.length_set, by rw [hliveOut]; exact List.length_set⟩,
      fun j r => ?_, fun j r => by rw [hliveOut]; exact hset j r, fun j k hk => ?_,
      fun h => by rw [State.EndsKnown, hliveOut]; exact hends h, .inr ⟨?_, ?_, hnodup⟩⟩
    · rw [State.live, hliveIn, getD_set hin_lt]
      split
      · exact hstart.has r
      · exact Iff.rfl
    · rw [hliveIn, getD_set hin_lt] at hk
      split at hk
      · exact hstart.known k hk
      · exact hs j k hk
    · rw [hliveIn, getD_set hin_lt, if_pos rfl]
      simpa [Bitmap.equal_iff] using heq
    · intro j
      rw [hmem, hf.predecessors]

end

/-! ### The invariant -/

/-- The invariant of the computation. -/
structure Solving (f : Fn) (regs : List Register) (s : State) : Prop where
  /-- Each block has its sets. -/
  lengths : s.liveIn.length = f.blocks.length ∧ s.liveOut.length = f.blocks.length
  /-- No block is queued twice. -/
  nodup : s.queue.Nodup
  /-- What is queued are blocks. -/
  queued : ∀ i ∈ s.queue, i < f.blocks.length
  /-- All numbers are numbers of registers. -/
  known : s.Known regs
  /-- So they are at the ends. -/
  endsKnown : s.EndsKnown regs
  /-- What is in the sets is live. -/
  sound : ∀ i r, s.live regs i r → LiveAt f r i
  /-- The sets are below what the equations make of them. -/
  ascending : ∀ i r, s.live regs i r → InEq f (s.live regs) i r
  /-- The equations hold at blocks that are not queued. -/
  settled : ∀ i < f.blocks.length, i ∉ s.queue →
    (∀ r, InEq f (s.live regs) i r → s.live regs i r) ∧
      ∀ r, Has regs (s.liveOut.getD i {}) r ↔ OutEq f (s.live regs) i r

section

variable {f : Fn} {regs : List Register} {facts : List Facts} {s s' : State} {i : Nat}

theorem Solving.start (f : Fn) (regs : List Register) :
    Solving f regs (State.start f.blocks.length) := by
  have hempty : ∀ i, (List.replicate f.blocks.length ({} : Bitmap)).getD i {} = {} := by
    intro i
    simp [List.getD_eq_getElem?_getD, List.getElem?_replicate]
    split <;> rfl
  have hnone : ∀ i k,
      ¬((List.replicate f.blocks.length ({} : Bitmap)).getD i {}).contains k = true := by
    intro i k
    rw [hempty]
    simp
  have hlive : ∀ i r, ¬(State.start f.blocks.length).live regs i r := by
    rintro i r ⟨k, -, hk⟩
    exact hnone i k hk
  refine ⟨by simp [State.start], List.nodup_range, by simp [State.start],
    fun i k hk => (hnone i k hk).elim, fun i k hk => (hnone i k hk).elim,
    fun i r h => (hlive i r h).elim, fun i r h => (hlive i r h).elim, fun i hi hq => ?_⟩
  simp [State.start, hi] at hq

/-- The sets only grow. -/
theorem Visited.le (hv : Visited f regs i s s') (hs : Solving f regs s) (j : Nat) (r : Register)
    (h : s.live regs j r) : s'.live regs j r := by
  rw [hv.live]
  split
  · rename_i hj
    subst hj
    exact hs.ascending j r h
  · exact h

theorem Visited.not_mem_queue (hv : Visited f regs i s s') {j : Nat} (hj : j ≠ i)
    (hq : j ∉ s'.queue) : j ∉ s.queue := by
  intro hmem
  have herase := (List.mem_erase_of_ne hj).2 hmem
  rcases hv.queue with ⟨-, hq'⟩ | ⟨-, hq', -⟩
  · exact hq (hq' ▸ herase)
  · exact hq ((hq' j).2 (.inl herase))

/-- A block that is not queued after a look goes to no block whose start has changed. -/
theorem Visited.outEq_iff (hv : Visited f regs i s s') {j : Nat} (hq : j ∉ s'.queue)
    (r : Register) : OutEq f (s'.live regs) j r ↔ OutEq f (s.live regs) j r := by
  refine or_congr_right (exists_congr fun k => and_congr_right fun he => ?_)
  rcases hv.queue with ⟨hliveIn, -⟩ | ⟨-, hq', -⟩
  · rw [State.live, State.live, hliveIn]
  · have hk : k ≠ i := by
      rintro rfl
      exact hq ((hq' j).2 (.inr he))
    rw [hv.live, if_neg hk]

/-- A look at a block keeps the invariant. -/
theorem Solving.visit (hs : Solving f regs s) (hi : i ∈ s.queue) (hv : Visited f regs i s s') :
    Solving f regs s' := by
  have hle := hv.le hs
  have herase : ∀ j, j ∈ s.queue.erase i ↔ j ≠ i ∧ j ∈ s.queue := fun j =>
    hs.nodup.mem_erase_iff
  have hnodup : s'.queue.Nodup := by
    rcases hv.queue with ⟨-, hq⟩ | ⟨-, -, hq⟩
    · rw [hq]
      exact hs.nodup.erase i
    · exact hq (hs.nodup.erase i)
  refine ⟨⟨hv.lengths.1.trans hs.lengths.1, hv.lengths.2.trans hs.lengths.2⟩, hnodup, ?_,
    hv.known, hv.endsKnown hs.endsKnown, fun j r h => ?_, fun j r h => ?_, fun j hj hq => ?_⟩
  · intro j hj
    rcases hv.queue with ⟨-, hq⟩ | ⟨-, hq, -⟩
    · rw [hq, herase] at hj
      exact hs.queued j hj.2
    · rcases (hq j).1 hj with hj | hj
      · exact hs.queued j ((herase j).1 hj).2
      · exact hj.lt.1
  · rw [hv.live] at h
    split at h
    · rename_i hji
      exact hji ▸ h.liveAt fun k hk => hs.sound k r hk
    · exact hs.sound j r h
  · rw [hv.live] at h
    split at h
    · rename_i hji
      exact hji ▸ h.mono fun k hk => hle k r hk
    · exact (hs.ascending j r h).mono fun k hk => hle k r hk
  · -- the block looked at has just got what its equations say; the others had it before
    have hsame := hv.outEq_iff hq
    have hin : ∀ r, InEq f (s'.live regs) j r ↔ InEq f (s.live regs) j r := by
      simp [InEq, hsame]
    by_cases hji : j = i
    · subst hji
      refine ⟨fun r h => ?_, fun r => ?_⟩
      · rw [hv.live, if_pos rfl]
        exact (hin r).1 h
      · rw [hv.liveOut, if_pos rfl, hsame]
    · obtain ⟨hclosed, hends⟩ := hs.settled j hj (hv.not_mem_queue hji hq)
      refine ⟨fun r h => ?_, fun r => ?_⟩
      · rw [hv.live, if_neg hji]
        exact hclosed r ((hin r).1 h)
      · rw [hv.liveOut, if_neg hji, hends, hsame]

/-! ### The end of the computation -/

/-- The registers that are live at the starts of blocks, by numbers. -/
def State.liveBits (s : State) (blocks regs : Nat) : Finset (Nat × Nat) :=
  (Finset.range blocks ×ˢ Finset.range regs).filter fun p =>
    (s.liveIn.getD p.1 {}).contains p.2 = true

/-- How often blocks may still be looked at: each look at a block takes it from the queue, and may
queue all blocks again when it makes another register live. -/
def State.work (s : State) (blocks regs : Nat) : Nat :=
  (blocks * regs - (s.liveBits blocks regs).card) * blocks + s.queue.length

theorem State.card_liveBits_le (s : State) (blocks regs : Nat) :
    (s.liveBits blocks regs).card ≤ blocks * regs := by
  refine (Finset.card_filter_le _ _).trans_eq ?_
  rw [Finset.card_product, Finset.card_range, Finset.card_range]

/-- No number leaves the set of a block. -/
theorem Visited.contains_le (hv : Visited f regs i s s') (hs : Solving f regs s)
    (hd : regs.Nodup) (j k : Nat) (h : (s.liveIn.getD j {}).contains k = true) :
    (s'.liveIn.getD j {}).contains k = true := by
  have hget := List.getElem?_eq_getElem (hs.known j k h)
  rw [← has_iff_contains hd hget]
  exact hv.le hs j _ ⟨k, hget, h⟩

/-- A look that changes the start of a block makes another register live there. -/
theorem Visited.liveBits_lt (hv : Visited f regs i s s') (hs : Solving f regs s)
    (hd : regs.Nodup) (hi : i < f.blocks.length)
    (hk : ∃ k, (s.liveIn.getD i {}).contains k ≠ (s'.liveIn.getD i {}).contains k) :
    s.liveBits f.blocks.length regs.length ⊂ s'.liveBits f.blocks.length regs.length := by
  have hle := hv.contains_le hs hd
  obtain ⟨k, hk⟩ := hk
  -- nothing is lost, so a number that makes a difference is a new one
  have hnew : (s'.liveIn.getD i {}).contains k = true ∧
      (s.liveIn.getD i {}).contains k = false := by
    have := hle i k
    cases h : (s.liveIn.getD i {}).contains k <;> cases h' : (s'.liveIn.getD i {}).contains k <;>
      simp_all
  refine Finset.ssubset_iff_subset_ne.2 ⟨fun p hp => ?_, fun heq => ?_⟩
  · rw [State.liveBits, Finset.mem_filter] at hp ⊢
    exact ⟨hp.1, hle _ _ hp.2⟩
  · have hmem : (i, k) ∈ s'.liveBits f.blocks.length regs.length := by
      rw [State.liveBits, Finset.mem_filter, Finset.mem_product, Finset.mem_range,
        Finset.mem_range]
      exact ⟨⟨hi, hv.known i k hnew.1⟩, hnew.1⟩
    rw [← heq, State.liveBits, Finset.mem_filter, hnew.2] at hmem
    exact Bool.false_ne_true hmem.2

theorem Solving.length_queue_le (hs : Solving f regs s) : s.queue.length ≤ f.blocks.length := by
  have hsub : s.queue ⊆ List.range f.blocks.length := fun i hi => List.mem_range.2 (hs.queued i hi)
  simpa using (List.subperm_of_subset hs.nodup hsub).length_le

/-- Each look leaves less work. -/
theorem Solving.work_lt (hs : Solving f regs s) (hd : regs.Nodup) (hi : i ∈ s.queue)
    (hv : Visited f regs i s s') :
    s'.work f.blocks.length regs.length < s.work f.blocks.length regs.length := by
  have hpos : 0 < s.queue.length := List.length_pos_of_mem hi
  rcases hv.queue with ⟨hliveIn, hq⟩ | ⟨hk, -, -⟩
  · have hbits : s'.liveBits f.blocks.length regs.length =
        s.liveBits f.blocks.length regs.length := by
      rw [State.liveBits, State.liveBits, hliveIn]
    rw [State.work, State.work, hbits, hq, List.length_erase_of_mem hi]
    omega
  · have hlt := Finset.card_lt_card (hv.liveBits_lt hs hd (hs.queued i hi) hk)
    have hmax := s'.card_liveBits_le f.blocks.length regs.length
    have hqueue := (hs.visit hi hv).length_queue_le
    rw [State.work, State.work]
    -- one more live register pays for a queue of all blocks
    generalize (s.liveBits f.blocks.length regs.length).card = c at hlt
    generalize (s'.liveBits f.blocks.length regs.length).card = c' at hlt hmax
    generalize f.blocks.length * regs.length = m at hmax
    have hstep : (m - c' + 1) * f.blocks.length ≤ (m - c) * f.blocks.length :=
      Nat.mul_le_mul_right _ (by omega)
    rw [Nat.add_mul, Nat.one_mul] at hstep
    omega

/-- With fuel for the work that is left, the computation comes to an empty queue, whatever the
choice of blocks. -/
theorem Solving.solveFrom (σ : Strategy) (hf : FnFacts f regs facts) {fuel : Nat}
    (hs : Solving f regs s) (hfuel : s.work f.blocks.length regs.length ≤ fuel) :
    Solving f regs (solveFrom σ facts fuel s) ∧ (solveFrom σ facts fuel s).queue = [] := by
  induction fuel generalizing s with
  | zero =>
    have hq : s.queue = [] := by
      rw [State.work] at hfuel
      exact List.length_eq_zero_iff.1 (by omega)
    exact ⟨hs, hq⟩
  | succ fuel ih =>
    unfold Live.solveFrom
    split
    · exact ⟨hs, ‹_›⟩
    · rename_i hq
      have hpick := σ.pick_mem s.queue hq
      have hv := visit_spec hf hs.known hs.lengths (hs.queued _ hpick)
      have hlt := hs.work_lt hf.nodup hpick hv
      exact ih (hs.visit hpick hv) (by omega)

theorem State.work_start_le (blocks regs : Nat) :
    (State.start blocks).work blocks regs ≤ visitBound blocks regs := by
  have hqueue : (State.start blocks).queue.length = blocks := by
    simp [State.start]
  have hwork := Nat.mul_le_mul_right blocks
    (Nat.sub_le (blocks * regs) ((State.start blocks).liveBits blocks regs).card)
  rw [State.work, hqueue, visitBound, Nat.mul_add, Nat.mul_comm blocks (_ * _)]
  omega

theorem solve_solving (σ : Strategy) (hf : FnFacts f regs facts) :
    Solving f regs (solve σ facts regs.length) ∧ (solve σ facts regs.length).queue = [] := by
  rw [solve, hf.length]
  exact Solving.solveFrom σ hf (Solving.start f regs) (State.work_start_le _ _)

/-- When no block is queued, the sets are those of the least solution of the equations. -/
theorem Solving.exact (hs : Solving f regs s) (hq : s.queue = []) (hi : i < f.blocks.length)
    (r : Register) :
    (Has regs (s.liveIn.getD i {}) r ↔ LiveAt f r i) ∧
      (Has regs (s.liveOut.getD i {}) r ↔ OutEq f (fun j r => LiveAt f r j) i r) := by
  have hsettled := fun i hi => hs.settled i hi (by simp [hq])
  have hlive : ∀ j, s.live regs j r ↔ LiveAt f r j := by
    refine fun j => ⟨hs.sound j r, LiveAt.of_solution fun k h => ?_⟩
    have ⟨b, hb, _⟩ := h
    exact (hsettled k (List.getElem?_eq_some_iff.1 hb).1).1 r h
  refine ⟨hlive i, ?_⟩
  rw [(hsettled i hi).2 r, OutEq, OutEq]
  simp only [hlive]

/-- **The computation finds what is live.** Whatever the choice of blocks, the sets that it ends
with are those of the least solution of the equations. -/
theorem solve_exact (σ : Strategy) (hf : FnFacts f regs facts) (hi : i < f.blocks.length)
    (r : Register) :
    (Has regs ((solve σ facts regs.length).liveIn.getD i {}) r ↔ LiveAt f r i) ∧
      (Has regs ((solve σ facts regs.length).liveOut.getD i {}) r ↔
        OutEq f (fun j r => LiveAt f r j) i r) := by
  obtain ⟨hs, hq⟩ := solve_solving σ hf
  exact hs.exact hq hi r

end

/-! ### Live registers of a function -/

section

variable {f : Fn} {x : Info} {l : Name} {i : Nat}

theorem mem_registersOf {s : Bitmap} {r : Register} :
    r ∈ x.registersOf s ↔ Has x.registers s r := by
  simp only [Info.registersOf, List.mem_filterMap, Bitmap.mem_toList, Has]
  exact exists_congr fun i => and_comm

theorem idxOf?_labels (f : Fn) (l : Name) : f.labels.idxOf? l = f.blockIndex? l := by
  rw [Fn.labels, Fn.blockIndex?, List.idxOf?, List.findIdx?_map]
  rfl

/-- What an analysis hands out is what the computation ends with. -/
theorem analyze_spec (h : analyze f = .ok x) :
    x.labels = f.labels ∧ ∃ facts, FnFacts f x.registers facts ∧
      x.liveIn = (solve latestFirst facts x.registers.length).liveIn ∧
      x.liveOut = (solve latestFirst facts x.registers.length).liveOut := by
  obtain ⟨⟨facts, regs⟩, hfacts, h⟩ := Run.except_bind_ok_iff.1 h
  cases h
  exact ⟨rfl, facts, factsOf_spec hfacts, rfl, rfl⟩

theorem liveInOf?_spec (h : analyze f = .ok x) (hl : f.blockIndex? l = some i) :
    ∃ ins, x.liveInOf? l = some ins ∧ ∀ r, r ∈ ins ↔ LiveAt f r i := by
  obtain ⟨hlabels, facts, hf, hin, -⟩ := analyze_spec h
  have hi : i < f.blocks.length := (List.findIdx?_eq_some_iff_getElem.1 hl).1
  refine ⟨_, by rw [Info.liveInOf?, hlabels, idxOf?_labels, hl]; rfl, fun r => ?_⟩
  rw [mem_registersOf, hin]
  exact (solve_exact latestFirst hf hi r).1

theorem liveOutOf?_spec (h : analyze f = .ok x) (hl : f.blockIndex? l = some i) :
    ∃ outs, x.liveOutOf? l = some outs ∧
      ∀ r, r ∈ outs ↔ OutEq f (fun j r => LiveAt f r j) i r := by
  obtain ⟨hlabels, facts, hf, -, hout⟩ := analyze_spec h
  have hi : i < f.blocks.length := (List.findIdx?_eq_some_iff_getElem.1 hl).1
  refine ⟨_, by rw [Info.liveOutOf?, hlabels, idxOf?_labels, hl]; rfl, fun r => ?_⟩
  rw [mem_registersOf, hout]
  exact (solve_exact latestFirst hf hi r).2

theorem blockIndex?_of_liveInOf? (h : analyze f = .ok x) {ins : List Register}
    (hl : x.liveInOf? l = some ins) : ∃ i, f.blockIndex? l = some i := by
  obtain ⟨i, hi, -⟩ := Option.map_eq_some_iff.1 hl
  rw [(analyze_spec h).1, idxOf?_labels] at hi
  exact ⟨i, hi⟩

end

/-! ### Liveness is exact -/

/-- A block that goes back to itself with a phi and stops at a bound. -/
def roundBlock : Code.Block where
  label := ⟨2⟩
  phis := [⟨⟨6⟩, [⟨⟨1⟩, some (.reg ⟨5⟩)⟩, ⟨⟨2⟩, some (.reg ⟨7⟩)⟩]⟩]
  lines := [
    .instr ⟨.mov, [some (.reg (.virtual ⟨7⟩)), some (.reg (.virtual ⟨6⟩))]⟩,
    .instr ⟨⟨23⟩, [some (.reg (.virtual ⟨7⟩)), some (.reg (.virtual ⟨8⟩))]⟩]
  successors := [⟨2⟩, ⟨3⟩]

/-- A function with a loop. -/
def roundFn : Fn where
  blocks := [
    { label := ⟨1⟩
      lines := [.instr ⟨.mov, [some (.reg (.virtual ⟨5⟩)), some (.reg (.virtual ⟨4⟩))]⟩]
      successors := [⟨2⟩] },
    roundBlock,
    { label := ⟨3⟩ }]

/-- **Liveness is exact.** At a block that its label stands for, the registers live at the start are
those for which a path from there leads to a read with no write on the way. The registers live at
the end are those that a phi takes when control comes from the block, and those live at the start of
a successor. -/
theorem analyze_exact {f : Fn} {x : Info} {b : Code.Block} (h : analyze f = .ok x)
    (hb : f.getBlock? b.label = some b) :
    (∃ ins, x.liveInOf? b.label = some ins ∧ ∀ r, r ∈ ins ↔ LiveFrom f b r) ∧
      ∃ outs, x.liveOutOf? b.label = some outs ∧
        ∀ r, r ∈ outs ↔ IsPhiSource f b.label r ∨
          ∃ l ∈ b.successors, ∃ ins, x.liveInOf? l = some ins ∧ r ∈ ins := by
  obtain ⟨i, hi, hib, -⟩ := blockIndex?_of_getBlock? hb
  obtain ⟨ins, hins, hlive⟩ := liveInOf?_spec h hi
  obtain ⟨outs, houts, hends⟩ := liveOutOf?_spec h hi
  refine ⟨⟨ins, hins, fun r => (hlive r).trans (liveAt_iff_liveFrom hib hi)⟩,
    outs, houts, fun r => ?_⟩
  rw [hends, OutEq, takenAt_iff hib hi]
  refine or_congr_right ⟨?_, ?_⟩
  · rintro ⟨j, he, hj⟩
    obtain ⟨l, hl, hlj⟩ := (edge_iff hib).1 he
    obtain ⟨ins', hins', hlive'⟩ := liveInOf?_spec h hlj
    exact ⟨l, hl, ins', hins', (hlive' r).2 hj⟩
  · rintro ⟨l, hl, ins', hins', hr⟩
    obtain ⟨j, hlj⟩ := blockIndex?_of_liveInOf? h hins'
    obtain ⟨ins'', hins'', hlive'⟩ := liveInOf?_spec h hlj
    obtain rfl : ins' = ins'' := Option.some.inj (hins'.symm.trans hins'')
    exact ⟨j, (edge_iff hib).2 ⟨l, hl, hlj⟩, (hlive' r).1 hr⟩

/-- The bound is live at the start of the loop, and the register that goes round is not. -/
theorem analyze_exact_roundFn :
    LiveFrom roundFn roundBlock (.virtual ⟨8⟩) ∧ ¬LiveFrom roundFn roundBlock (.virtual ⟨7⟩) := by
  have hrun : (analyze roundFn).toOption.bind (·.liveInOf? ⟨2⟩) = some [.virtual ⟨8⟩] := by
    decide +kernel
  cases h : analyze roundFn with
  | error err => rw [h] at hrun; cases hrun
  | ok x =>
    rw [h] at hrun
    obtain ⟨⟨ins, hins, hlive⟩, -⟩ := analyze_exact (b := roundBlock) h rfl
    obtain rfl : ins = [.virtual ⟨8⟩] := Option.some.inj (hins.symm.trans hrun)
    exact ⟨(hlive _).1 (by simp), fun hn => by simpa using (hlive _).2 hn⟩

end CodeTiling.Live
