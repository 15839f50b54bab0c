import CodeTiling.Proofs.LiveFacts
import Mathlib.Data.List.Chain

/-!
# Live registers by paths

A register is live at the start of a block when a path of blocks leads from there to a read of it
and nothing on the way writes it (`LiveFrom`). The same said by places of blocks, one step at a
time, is `LiveAt`: the least solution of the equations between blocks.

* `liveAt_iff_liveFrom` : the two agree at the block that its label stands for.
-/

namespace CodeTiling.Live

open Code (Register Instruction Fn)

variable {f : Fn} {r : Register} {b : Code.Block} {i j : Nat} {l : Name}

/-! ### Labels -/

theorem getBlock?_of_blockIndex? (h : f.blockIndex? l = some i) :
    ∃ b, f.blocks[i]? = some b ∧ b.label = l ∧ f.getBlock? l = some b := by
  obtain ⟨hlt, hl, hbefore⟩ := List.findIdx?_eq_some_iff_getElem.1 h
  refine ⟨f.blocks[i], List.getElem?_eq_getElem hlt, by simpa using hl, ?_⟩
  refine List.find?_eq_some_iff_getElem.2 ⟨hl, i, hlt, rfl, fun j hj => ?_⟩
  simpa using hbefore j hj

theorem blockIndex?_of_getBlock? (h : f.getBlock? l = some b) :
    ∃ i, f.blockIndex? l = some i ∧ f.blocks[i]? = some b ∧ b.label = l := by
  obtain ⟨hl, i, hlt, rfl, hbefore⟩ := List.find?_eq_some_iff_getElem.1 h
  refine ⟨i, List.findIdx?_eq_some_iff_getElem.2 ⟨hlt, hl, fun j hj => ?_⟩,
    List.getElem?_eq_getElem hlt, by simpa using hl⟩
  simpa using hbefore j hj

/-! ### Paths -/

/-- Control may go from a block to the one that one of its successor labels stands for. -/
def Flows (f : Fn) (b c : Code.Block) : Prop := ∃ l ∈ b.successors, f.getBlock? l = some c

/-- Some phi of the function takes a register when control comes from a label. -/
def IsPhiSource (f : Fn) (l : Name) (r : Register) : Prop :=
  ∃ c ∈ f.blocks, ∃ p ∈ c.phis, ∃ s ∈ p.sources,
    s.block = l ∧ ∃ n, s.value = some (.reg n) ∧ r = .virtual n

/-- The instructions of a block come to a read of a register, or to the end of the block where a
phi takes it, and none before that writes it. -/
def ReachesRead (f : Fn) (b : Code.Block) (r : Register) : Prop :=
  (∃ before i after, b.instructions = before ++ i :: after ∧ r ∈ i.inputs ∧
    ∀ x ∈ before, r ∉ x.outputs) ∨
  (IsPhiSource f b.label r ∧ ∀ x ∈ b.instructions, r ∉ x.outputs)

/-- The blocks are a path to a read of a register in the last one, and nothing on the way to the
read writes the register. -/
structure LivePath (f : Fn) (r : Register) (init : List Code.Block) (last : Code.Block) :
    Prop where
  /-- Each block goes to the next one. -/
  flows : (init ++ [last]).IsChain (Flows f)
  /-- No block has a phi for the register. -/
  phis : ∀ c ∈ init ++ [last], ¬PhiWrites c r
  /-- No block but the last one has an instruction that writes the register. -/
  writes : ∀ c ∈ init, ∀ i ∈ c.instructions, r ∉ i.outputs
  /-- The last one comes to a read. -/
  reads : ReachesRead f last r

/-- A path from the start of a block leads to a read of a register. -/
def LiveFrom (f : Fn) (b : Code.Block) (r : Register) : Prop :=
  ∃ init last, (init ++ [last]).head? = some b ∧ LivePath f r init last

/-! ### Steps -/

/-- A register is live at the start of the block at a place, one block at a time. -/
inductive LiveAt (f : Fn) (r : Register) : Nat → Prop
  /-- The block reads it first. -/
  | reads {i : Nat} {b : Code.Block} (hb : f.blocks[i]? = some b) (h : ReadsFirst b r) :
      LiveAt f r i
  /-- A phi takes it at the end of the block, which does not write it. -/
  | taken {i : Nat} {b : Code.Block} (hb : f.blocks[i]? = some b) (hw : ¬Writes b r)
      (h : TakenAt f i r) : LiveAt f r i
  /-- It is live at the start of a successor, and the block does not write it. -/
  | flows {i j : Nat} {b : Code.Block} (hb : f.blocks[i]? = some b) (hw : ¬Writes b r)
      (he : Edge f i j) (h : LiveAt f r j) : LiveAt f r i

theorem readFirst_iff {is : List Instruction} :
    ReadFirst r is ↔ ∃ before i after, is = before ++ i :: after ∧ r ∈ i.inputs ∧
      ∀ x ∈ before, r ∉ x.outputs := by
  induction is with
  | nil => simp [ReadFirst]
  | cons i is ih =>
    rw [ReadFirst, ih]
    constructor
    · rintro (h | ⟨hi, before, k, after, rfl, hk, hbefore⟩)
      · exact ⟨[], i, is, rfl, h, by simp⟩
      · exact ⟨i :: before, k, after, rfl, hk, List.forall_mem_cons.2 ⟨hi, hbefore⟩⟩
    · rintro ⟨before, k, after, heq, hk, hbefore⟩
      cases before with
      | nil =>
        obtain ⟨rfl, -⟩ := List.cons.inj heq
        exact .inl hk
      | cons x before =>
        obtain ⟨rfl, rfl⟩ := List.cons.inj heq
        obtain ⟨hi, hbefore⟩ := List.forall_mem_cons.1 hbefore
        exact .inr ⟨hi, before, k, after, rfl, hk, hbefore⟩

theorem mem_phiReads : (l, r) ∈ f.blocks.flatMap phiReadsOf ↔ IsPhiSource f l r := by
  have hsource : ∀ s : Ir.PhiSource,
      sourceRegister? s = some r ↔ ∃ n, s.value = some (.reg n) ∧ r = .virtual n := by
    intro s
    unfold sourceRegister?
    split
    · rename_i n hn
      simp [hn, eq_comm]
    · rename_i hn
      constructor
      · intro h
        cases h
      · rintro ⟨n, h, -⟩
        exact (hn n h).elim
  simp only [IsPhiSource, phiReadsOf, List.mem_flatMap, List.mem_filterMap, Option.map_eq_some_iff,
    Prod.mk.injEq, ← hsource]
  constructor
  · rintro ⟨c, hc, s, ⟨p, hp, hs⟩, r', hr, rfl, rfl⟩
    exact ⟨c, hc, p, hp, s, hs, rfl, hr⟩
  · rintro ⟨c, hc, p, hp, s, hs, rfl, hr⟩
    exact ⟨c, hc, s, ⟨p, hp, hs⟩, r, hr, rfl, rfl⟩

theorem edge_iff (hb : f.blocks[i]? = some b) :
    Edge f i j ↔ ∃ l ∈ b.successors, f.blockIndex? l = some j := by
  simp [Edge, hb]

theorem TakenAt.isPhiSource (hb : f.blocks[i]? = some b) (h : TakenAt f i r) :
    IsPhiSource f b.label r := by
  obtain ⟨l, hl, hli⟩ := h
  obtain ⟨c, hc, rfl, -⟩ := getBlock?_of_blockIndex? hli
  obtain rfl : b = c := Option.some.inj (hb.symm.trans hc)
  exact mem_phiReads.1 hl

theorem takenAt_iff (hb : f.blocks[i]? = some b) (hi : f.blockIndex? b.label = some i) :
    TakenAt f i r ↔ IsPhiSource f b.label r :=
  ⟨fun h => h.isPhiSource hb, fun h => ⟨b.label, mem_phiReads.2 h, hi⟩⟩

theorem not_writes_iff :
    ¬Writes b r ↔ ¬PhiWrites b r ∧ ∀ i ∈ b.instructions, r ∉ i.outputs := by
  simp [Writes]

/-! ### Paths and steps -/

/-- A path of one block. -/
theorem LivePath.single (hphi : ¬PhiWrites b r) (hread : ReachesRead f b r) :
    LivePath f r [] b :=
  ⟨.singleton b, by simpa using hphi, by simp, hread⟩

/-- One more block in front of a path. -/
theorem LivePath.cons {init : List Code.Block} {last c : Code.Block} (h : LivePath f r init last)
    (hc : (init ++ [last]).head? = some c) (hflow : Flows f b c) (hw : ¬Writes b r) :
    LivePath f r (b :: init) last := by
  obtain ⟨hphi, hins⟩ := not_writes_iff.1 hw
  refine ⟨List.isChain_cons.2 ⟨fun d hd => ?_, h.flows⟩, List.forall_mem_cons.2 ⟨hphi, h.phis⟩,
    List.forall_mem_cons.2 ⟨hins, h.writes⟩, h.reads⟩
  obtain rfl : c = d := Option.some.inj (hc.symm.trans hd)
  exact hflow

theorem LiveAt.liveFrom (h : LiveAt f r i) (hb : f.blocks[i]? = some b) : LiveFrom f b r := by
  induction h generalizing b with
  | reads hb' h =>
    obtain rfl := Option.some.inj (hb.symm.trans hb')
    exact ⟨[], b, rfl, .single h.1 (.inl (readFirst_iff.1 h.2))⟩
  | taken hb' hw h =>
    obtain rfl := Option.some.inj (hb.symm.trans hb')
    obtain ⟨hphi, hins⟩ := not_writes_iff.1 hw
    exact ⟨[], b, rfl, .single hphi (.inr ⟨h.isPhiSource hb, hins⟩)⟩
  | flows hb' hw he _ ih =>
    obtain rfl := Option.some.inj (hb.symm.trans hb')
    obtain ⟨l, hl, hj⟩ := (edge_iff hb).1 he
    obtain ⟨c, hc, -, hget⟩ := getBlock?_of_blockIndex? hj
    obtain ⟨init, last, hhead, hpath⟩ := ih hc
    exact ⟨b :: init, last, rfl, hpath.cons hhead ⟨l, hl, hget⟩ hw⟩

theorem LivePath.liveAt {init : List Code.Block} {last : Code.Block}
    (h : LivePath f r init last) (hhead : (init ++ [last]).head? = some b)
    (hb : f.blocks[i]? = some b) (hi : f.blockIndex? b.label = some i) : LiveAt f r i := by
  -- along the path; each block after the first is the one that its label stands for
  induction init generalizing b i with
  | nil =>
    obtain rfl : last = b := by simpa using hhead
    have hphi : ¬PhiWrites last r := h.phis last (by simp)
    rcases h.reads with hread | ⟨hsource, hins⟩
    · exact .reads hb ⟨hphi, readFirst_iff.2 hread⟩
    · exact .taken hb (not_writes_iff.2 ⟨hphi, hins⟩) ((takenAt_iff hb hi).2 hsource)
  | cons c init ih =>
    obtain rfl : c = b := by simpa using hhead
    obtain ⟨hflow, hchain⟩ := List.isChain_cons.1 h.flows
    obtain ⟨hphi, hphis⟩ := List.forall_mem_cons.1 h.phis
    obtain ⟨hins, hwrites⟩ := List.forall_mem_cons.1 h.writes
    obtain ⟨d, hd⟩ : ∃ d, (init ++ [last]).head? = some d := by
      cases init <;> simp
    obtain ⟨l, hl, hget⟩ := hflow d hd
    obtain ⟨j, hj, hjd, rfl⟩ := blockIndex?_of_getBlock? hget
    have hlive := ih ⟨hchain, hphis, hwrites, h.reads⟩ hd hjd hj
    exact .flows hb (not_writes_iff.2 ⟨hphi, hins⟩) ((edge_iff hb).2 ⟨d.label, hl, hj⟩) hlive

/-- At the block that its label stands for, live by steps is live by paths. -/
theorem liveAt_iff_liveFrom (hb : f.blocks[i]? = some b) (hi : f.blockIndex? b.label = some i) :
    LiveAt f r i ↔ LiveFrom f b r := by
  constructor
  · exact fun h => h.liveFrom hb
  · rintro ⟨init, last, hhead, hpath⟩
    exact hpath.liveAt hhead hb hi

end CodeTiling.Live
