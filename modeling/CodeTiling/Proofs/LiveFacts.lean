import CodeTiling.Live.Facts
import CodeTiling.Proofs.BitSets
import CodeTiling.Proofs.Run
import Mathlib.Data.List.Forall2

/-!
# The facts of blocks, as sets of registers

Facts are bit sets over the numbers of registers. `Denotes regs s P` says that the bit set `s`,
with the numbering `regs`, is the set of registers `P`; it stays true when more registers are
numbered.

* `Swept.block` : what the sweep over a block finds are the registers that the block reads before
  it writes them (`ReadsFirst`) and those that it writes (`Writes`);
* `factsOf_spec` : the facts of a function are those of its blocks, with what phis take at the end
  of a block (`TakenAt`) and the edges of the control flow graph (`Edge`).
-/

namespace CodeTiling.Live

open Code (Register Instruction Fn)

/-! ### Sets of registers -/

/-- The register is in a bit set, by its number. -/
def Has (regs : List Register) (s : Bitmap) (r : Register) : Prop :=
  ∃ i, regs[i]? = some r ∧ s.contains i = true

/-- A bit set is the set of registers `P`, and has only numbers of registers. -/
structure Denotes (regs : List Register) (s : Bitmap) (P : Register → Prop) : Prop where
  /-- All numbers are numbers of registers. -/
  known : ∀ i, s.contains i = true → i < regs.length
  /-- The registers are those of `P`. -/
  has : ∀ r, Has regs s r ↔ P r

section

variable {regs regs' : List Register} {s x : Bitmap} {P Q : Register → Prop} {r : Register}
  {i : Nat}

theorem index_unique (hd : regs.Nodup) {j : Nat} (hi : regs[i]? = some r)
    (hj : regs[j]? = some r) : i = j := by
  obtain ⟨hilt, hi⟩ := List.getElem?_eq_some_iff.1 hi
  obtain ⟨hjlt, hj⟩ := List.getElem?_eq_some_iff.1 hj
  exact (List.getElem_inj hd).1 (hi.trans hj.symm)

theorem has_iff_contains (hd : regs.Nodup) (hi : regs[i]? = some r) :
    Has regs s r ↔ s.contains i = true := by
  constructor
  · rintro ⟨j, hj, hs⟩
    rwa [index_unique hd hi hj]
  · exact fun h => ⟨i, hi, h⟩

@[simp]
theorem has_union : Has regs (s.union x) r ↔ Has regs s r ∨ Has regs x r := by
  simp [Has, and_or_left, exists_or]

theorem has_diff (hd : regs.Nodup) : Has regs (s.diff x) r ↔ Has regs s r ∧ ¬Has regs x r := by
  constructor
  · rintro ⟨i, hi, h⟩
    rw [Bitmap.contains_diff, Bool.and_eq_true, Bool.not_eq_true'] at h
    refine ⟨⟨i, hi, h.1⟩, ?_⟩
    rw [has_iff_contains hd hi, h.2]
    exact Bool.false_ne_true
  · rintro ⟨⟨i, hi, hs⟩, hx⟩
    rw [has_iff_contains hd hi, Bool.not_eq_true] at hx
    exact ⟨i, hi, by simp [hs, hx]⟩

namespace Denotes

theorem empty : Denotes regs {} fun _ => False := ⟨by simp, by simp [Has]⟩

theorem congr (h : Denotes regs s P) (hPQ : ∀ r, P r ↔ Q r) : Denotes regs s Q :=
  ⟨h.known, fun r => (h.has r).trans (hPQ r)⟩

theorem copy (h : Denotes regs s P) : Denotes regs s.copy P := ⟨h.known, h.has⟩

theorem union (h : Denotes regs s P) (hx : Denotes regs x Q) :
    Denotes regs (s.union x) fun r => P r ∨ Q r := by
  refine ⟨fun i hi => ?_, fun r => by rw [has_union, h.has, hx.has]⟩
  rw [Bitmap.contains_union, Bool.or_eq_true] at hi
  exact hi.elim (h.known i) (hx.known i)

theorem diff (hd : regs.Nodup) (h : Denotes regs s P) (hx : Denotes regs x Q) :
    Denotes regs (s.diff x) fun r => P r ∧ ¬Q r := by
  refine ⟨fun i hi => ?_, fun r => by rw [has_diff hd, h.has, hx.has]⟩
  rw [Bitmap.contains_diff, Bool.and_eq_true] at hi
  exact h.known i hi.1

theorem insert (h : Denotes regs s P) (hi : regs[i]? = some r) :
    Denotes regs (s.insert i) fun r' => P r' ∨ r' = r := by
  refine ⟨fun j hj => ?_, fun r' => ?_⟩
  · rw [Bitmap.contains_insert, Bool.or_eq_true, decide_eq_true_eq] at hj
    rcases hj with hj | rfl
    · exact h.known j hj
    · exact (List.getElem?_eq_some_iff.1 hi).1
  · rw [← h.has]
    constructor
    · rintro ⟨j, hj, hs⟩
      rw [Bitmap.contains_insert, Bool.or_eq_true, decide_eq_true_eq] at hs
      rcases hs with hs | rfl
      · exact .inl ⟨j, hj, hs⟩
      · exact .inr (Option.some.inj (hj.symm.trans hi))
    · rintro (⟨j, hj, hs⟩ | rfl)
      · exact ⟨j, hj, by simp [hs]⟩
      · exact ⟨i, hi, by simp⟩

/-- More registers may be numbered. -/
theorem mono (h : Denotes regs s P) (hle : regs <+: regs') : Denotes regs' s P := by
  obtain ⟨l, rfl⟩ := hle
  have hget : ∀ i, s.contains i = true → (regs ++ l)[i]? = regs[i]? :=
    fun i hi => List.getElem?_append_left (h.known i hi)
  refine ⟨fun i hi => ?_, fun r => ?_⟩
  · rw [List.length_append]
    exact Nat.lt_add_right _ (h.known i hi)
  · rw [← h.has]
    exact exists_congr fun i => and_congr_left fun hs => by rw [hget i hs]

end Denotes

theorem number_spec (hd : regs.Nodup) (r : Register) :
    ∃ i regs', number regs r = (i, regs') ∧ regs <+: regs' ∧ regs'.Nodup ∧
      regs'[i]? = some r := by
  unfold number
  cases h : regs.idxOf? r with
  | some i =>
    obtain ⟨hlt, hr, -⟩ := List.findIdx?_eq_some_iff_getElem.1 h
    refine ⟨i, regs, rfl, List.prefix_refl _, hd, ?_⟩
    rw [List.getElem?_eq_getElem hlt]
    simpa using hr
  | none =>
    have hr : r ∉ regs := by simpa [List.idxOf?_eq_none_iff] using h
    refine ⟨regs.length, regs ++ [r], rfl, List.prefix_append _ _, ?_, by simp⟩
    exact List.nodup_append.2 ⟨hd, by simp, by rintro a ha b hb rfl; simp_all⟩

end

/-! ### The sweep over a block -/

/-- Some instructions read a register before they write it. -/
def ReadFirst (r : Register) : List Instruction → Prop
  | [] => False
  | i :: is => r ∈ i.inputs ∨ (r ∉ i.outputs ∧ ReadFirst r is)

/-- A phi of a block has a register as its destination. -/
def PhiWrites (b : Code.Block) (r : Register) : Prop := ∃ p ∈ b.phis, r = .virtual p.dst

/-- A block writes a register, in a phi or in an instruction. -/
def Writes (b : Code.Block) (r : Register) : Prop :=
  PhiWrites b r ∨ ∃ i ∈ b.instructions, r ∈ i.outputs

/-- A block reads a register before it writes it. -/
def ReadsFirst (b : Code.Block) (r : Register) : Prop :=
  ¬PhiWrites b r ∧ ReadFirst r b.instructions

/-- A sweep that has numbered registers from `regs` on has found these reads and writes. -/
structure Swept (regs : List Register) (s : Sweep) (R W : Register → Prop) : Prop where
  /-- Registers have been added to the numbered ones. -/
  grown : regs <+: s.regs
  /-- No register has two numbers. -/
  nodup : s.regs.Nodup
  /-- The reads. -/
  reads : Denotes s.regs s.reads R
  /-- The writes. -/
  writes : Denotes s.regs s.writes W

namespace Swept

variable {regs : List Register} {s : Sweep} {R W R' W' : Register → Prop}

theorem start (hd : regs.Nodup) : Swept regs { regs } (fun _ => False) fun _ => False :=
  ⟨List.prefix_refl _, hd, .empty, .empty⟩

theorem congr (h : Swept regs s R W) (hR : ∀ r, R r ↔ R' r) (hW : ∀ r, W r ↔ W' r) :
    Swept regs s R' W' :=
  ⟨h.grown, h.nodup, h.reads.congr hR, h.writes.congr hW⟩

theorem read (h : Swept regs s R W) (r : Register) :
    Swept regs (s.read r) (fun x => R x ∨ (x = r ∧ ¬W x)) W := by
  obtain ⟨i, regs', hnum, hle, hd, hi⟩ := number_spec h.nodup r
  have hW := h.writes.mono hle
  have hwritten : s.writes.contains i = true ↔ W r := by
    rw [← hW.has, has_iff_contains hd hi]
  unfold Sweep.read
  rw [hnum]
  dsimp only
  split
  · -- written before, so this read does not count
    rename_i hc
    refine ⟨h.grown.trans hle, hd, (h.reads.mono hle).congr fun x => ?_, hW⟩
    have := hwritten.1 hc
    constructor
    · exact .inl
    · rintro (hx | ⟨rfl, hx⟩)
      · exact hx
      · exact (hx this).elim
  · rename_i hc
    refine ⟨h.grown.trans hle, hd, ((h.reads.mono hle).insert hi).congr fun x => ?_, hW⟩
    have hnot : ¬W r := fun hr => hc (hwritten.2 hr)
    refine or_congr_right ⟨?_, And.left⟩
    rintro rfl
    exact ⟨rfl, hnot⟩

theorem write (h : Swept regs s R W) (r : Register) :
    Swept regs (s.write r) R fun x => W x ∨ x = r := by
  obtain ⟨i, regs', hnum, hle, hd, hi⟩ := number_spec h.nodup r
  unfold Sweep.write
  rw [hnum]
  exact ⟨h.grown.trans hle, hd, h.reads.mono hle, (h.writes.mono hle).insert hi⟩

theorem readAll (h : Swept regs s R W) (rs : List Register) :
    Swept regs (rs.foldl Sweep.read s) (fun x => R x ∨ (x ∈ rs ∧ ¬W x)) W := by
  induction rs generalizing s R with
  | nil => exact h.congr (by simp) fun _ => Iff.rfl
  | cons r rs ih =>
    refine (ih (h.read r)).congr (fun x => ?_) fun _ => Iff.rfl
    rw [List.mem_cons, or_and_right, or_assoc]

theorem writeAll {ι : Type} (h : Swept regs s R W) (reg : ι → Register) (l : List ι) :
    Swept regs (l.foldl (fun s a => s.write (reg a)) s) R fun x => W x ∨ ∃ a ∈ l, x = reg a := by
  induction l generalizing s W with
  | nil => exact h.congr (fun _ => Iff.rfl) (by simp)
  | cons a l ih =>
    refine (ih (h.write (reg a))).congr (fun _ => Iff.rfl) fun x => ?_
    rw [List.exists_mem_cons_iff, or_assoc]

theorem instr (h : Swept regs s R W) (i : Instruction) :
    Swept regs (s.instr i) (fun x => R x ∨ (x ∈ i.inputs ∧ ¬W x))
      fun x => W x ∨ x ∈ i.outputs :=
  ((h.readAll i.inputs).writeAll id i.outputs).congr (fun _ => Iff.rfl) (by simp)

/-- Instructions one after another: a register counts as read when it is read before any write. -/
theorem instrs (h : Swept regs s R W) (is : List Instruction) :
    Swept regs (is.foldl Sweep.instr s) (fun x => R x ∨ (ReadFirst x is ∧ ¬W x))
      fun x => W x ∨ ∃ i ∈ is, x ∈ i.outputs := by
  induction is generalizing s R W with
  | nil => exact h.congr (by simp [ReadFirst]) (by simp)
  | cons i is ih =>
    refine (ih (h.instr i)).congr (fun x => ?_) fun x => ?_
    · rw [ReadFirst]
      tauto
    · rw [List.exists_mem_cons_iff, or_assoc]

theorem block (hd : regs.Nodup) (b : Code.Block) :
    Swept regs (Sweep.block regs b) (ReadsFirst b) (Writes b) := by
  refine (((start hd).writeAll (fun p => .virtual p.dst) b.phis).instrs
    b.instructions).congr (fun x => ?_) fun x => ?_
  · rw [false_or, false_or, and_comm]
    rfl
  · rw [false_or]
    rfl

end Swept

/-! ### The facts of all blocks -/

/-- The facts of a block say what it reads first, what it writes and what is taken at its end. -/
structure BlockFacts (regs : List Register) (b : Code.Block) (taken : Register → Prop)
    (x : Facts) : Prop where
  /-- What the block reads first. -/
  reads : Denotes regs x.reads (ReadsFirst b)
  /-- What the block writes. -/
  writes : Denotes regs x.writes (Writes b)
  /-- What phis take at its end. -/
  phiReads : Denotes regs x.phiReads taken

theorem BlockFacts.mono {regs regs' : List Register} {b : Code.Block} {P : Register → Prop}
    {x : Facts} (h : BlockFacts regs b P x) (hle : regs <+: regs') : BlockFacts regs' b P x :=
  ⟨h.reads.mono hle, h.writes.mono hle, h.phiReads.mono hle⟩

/-- The facts of blocks one after another, where block `i` has `taken i` at its end. -/
structure AllFacts (regs : List Register) (bs : List Code.Block) (taken : Nat → Register → Prop)
    (facts : List Facts) : Prop where
  /-- Each block has facts. -/
  length : facts.length = bs.length
  /-- No register has two numbers. -/
  nodup : regs.Nodup
  /-- The facts of block `i`. -/
  block : ∀ {i b x}, bs[i]? = some b → facts[i]? = some x → BlockFacts regs b (taken i) x

theorem AllFacts.congr {regs : List Register} {bs : List Code.Block}
    {taken taken' : Nat → Register → Prop} {facts : List Facts} (h : AllFacts regs bs taken facts)
    (ht : ∀ i r, taken i r ↔ taken' i r) : AllFacts regs bs taken' facts := by
  refine ⟨h.length, h.nodup, fun {i _ _} hb hx => ?_⟩
  have hblock := h.block hb hx
  exact ⟨hblock.reads, hblock.writes, hblock.phiReads.congr (ht i)⟩

theorem sweepBlocks_spec {regs : List Register} (hd : regs.Nodup) (bs : List Code.Block) :
    ∃ facts regs', sweepBlocks regs bs = (facts, regs') ∧ regs <+: regs' ∧
      AllFacts regs' bs (fun _ _ => False) facts := by
  induction bs generalizing regs with
  | nil => exact ⟨[], regs, rfl, List.prefix_refl _, rfl, hd, by simp⟩
  | cons b bs ih =>
    have hb := Swept.block hd b
    obtain ⟨facts, regs', hrun, hle, hall⟩ := ih hb.nodup
    refine ⟨_ :: facts, regs', by rw [sweepBlocks, hrun], hb.grown.trans hle,
      by simp [hall.length], hall.nodup, ?_⟩
    intro i c x hc hx
    cases i with
    | zero =>
      obtain rfl : b = c := by simpa using hc
      obtain rfl := by simpa using hx
      exact ⟨hb.reads.mono hle, hb.writes.mono hle, .empty⟩
    | succ i => exact hall.block hc hx

/-- Phis take a register at the end of block `i`, as far as the sources in `rs` say. -/
def TakenOf (f : Fn) (rs : List (Name × Register)) (i : Nat) (r : Register) : Prop :=
  ∃ l, (l, r) ∈ rs ∧ f.blockIndex? l = some i

theorem addPhiRead_spec {f : Fn} {facts facts' : List Facts} {regs regs' : List Register}
    {taken : Nat → Register → Prop} {a : Name × Register}
    (h : AllFacts regs f.blocks taken facts)
    (hrun : addPhiRead f facts regs a = .ok (facts', regs')) :
    AllFacts regs' f.blocks (fun i r => taken i r ∨ TakenOf f [a] i r) facts' := by
  obtain ⟨l, r⟩ := a
  unfold addPhiRead at hrun
  split at hrun
  · cases hrun
  · rename_i p hp
    obtain ⟨k, regs₁, hnum, hle, hd, hk⟩ := number_spec h.nodup r
    rw [hnum] at hrun
    cases hrun
    refine ⟨by simp [h.length], hd, ?_⟩
    intro i b x hb hx
    rw [List.getElem?_modify] at hx
    obtain ⟨y, hy, rfl⟩ := Option.map_eq_some_iff.1 hx
    have hfacts := (h.block hb hy).mono hle
    have htaken : ∀ r', TakenOf f [(l, r)] i r' ↔ p = i ∧ r' = r := by
      intro r'
      simp only [TakenOf, List.mem_singleton, Prod.mk.injEq]
      constructor
      · rintro ⟨l', ⟨rfl, rfl⟩, hi⟩
        exact ⟨Option.some.inj (hp.symm.trans hi), rfl⟩
      · rintro ⟨rfl, rfl⟩
        exact ⟨l, ⟨rfl, rfl⟩, hp⟩
    -- only the block that the source names gets the register
    split
    · rename_i heq
      refine ⟨hfacts.reads, hfacts.writes, (hfacts.phiReads.insert hk).congr fun r' => ?_⟩
      rw [htaken]
      simp [heq]
    · rename_i hne
      refine ⟨hfacts.reads, hfacts.writes, hfacts.phiReads.congr fun r' => ?_⟩
      rw [htaken]
      simp [hne]

theorem addPhiReads_spec {f : Fn} {facts facts' : List Facts} {regs regs' : List Register}
    {taken : Nat → Register → Prop} {rs : List (Name × Register)}
    (h : AllFacts regs f.blocks taken facts)
    (hrun : addPhiReads f facts regs rs = .ok (facts', regs')) :
    AllFacts regs' f.blocks (fun i r => taken i r ∨ TakenOf f rs i r) facts' := by
  induction rs generalizing facts regs taken with
  | nil =>
    cases hrun
    exact h.congr (by simp [TakenOf])
  | cons a rs ih =>
    obtain ⟨⟨facts₁, regs₁⟩, ha, hrs⟩ := Run.except_bind_ok_iff.1 hrun
    refine (ih (addPhiRead_spec h ha) hrs).congr fun i r => ?_
    simp [TakenOf, or_and_right, exists_or, or_assoc]

/-! ### Edges -/

/-- Control may go from block `i` to block `j`. -/
def Edge (f : Fn) (i j : Nat) : Prop :=
  ∃ b, f.blocks[i]? = some b ∧ ∃ l ∈ b.successors, f.blockIndex? l = some j

theorem mem_uniqueSuccessors {b : Code.Block} {l : Name} :
    l ∈ b.uniqueSuccessors ↔ l ∈ b.successors := by
  have hfold : ∀ (ls seen : List Name),
      l ∈ ls.foldl (fun seen s => if s ∈ seen then seen else seen ++ [s]) seen ↔
        l ∈ seen ∨ l ∈ ls := by
    intro ls
    induction ls with
    | nil => simp
    | cons s ls ih =>
      intro seen
      rw [List.foldl_cons, ih]
      split
      · rename_i hs
        rw [List.mem_cons]
        exact ⟨Or.imp_right .inr, by rintro (h | rfl | h) <;> simp_all⟩
      · simp [or_assoc]
  simpa [Code.Block.uniqueSuccessors] using hfold b.successors []

theorem mem_graph {f : Fn} {i j : Nat} : j ∈ (graph f).getD i [] ↔ Edge f i j := by
  rw [List.getD_eq_getElem?_getD, graph, List.getElem?_map]
  cases hb : f.blocks[i]? with
  | none => simp [Edge, hb]
  | some b => simp [Edge, hb, successorsOf, mem_uniqueSuccessors]

theorem mem_predecessorsOf {f : Fn} {i j : Nat} :
    j ∈ predecessorsOf (graph f) i ↔ Edge f j i := by
  rw [predecessorsOf, List.mem_filter, List.mem_range, decide_eq_true_eq, mem_graph]
  refine ⟨And.right, fun h => ⟨?_, h⟩⟩
  obtain ⟨b, hb, -⟩ := h
  simpa [graph] using (List.getElem?_eq_some_iff.1 hb).1

theorem Edge.lt {f : Fn} {i j : Nat} (h : Edge f i j) :
    i < f.blocks.length ∧ j < f.blocks.length := by
  obtain ⟨b, hb, l, -, hj⟩ := h
  exact ⟨(List.getElem?_eq_some_iff.1 hb).1, (List.findIdx?_eq_some_iff_getElem.1 hj).1⟩

/-! ### The facts of a function -/

/-- Phis of the function take a register at the end of block `i`. -/
def TakenAt (f : Fn) (i : Nat) (r : Register) : Prop := TakenOf f (f.blocks.flatMap phiReadsOf) i r

/-- The facts of a function, with the edges of its graph. -/
structure FnFacts (f : Fn) (regs : List Register) (facts : List Facts) : Prop
    extends AllFacts regs f.blocks (TakenAt f) facts where
  /-- The successors. -/
  successors : ∀ {i j}, j ∈ (facts.getD i {}).successors ↔ Edge f i j
  /-- The predecessors. -/
  predecessors : ∀ {i j}, j ∈ (facts.getD i {}).predecessors ↔ Edge f j i

theorem AllFacts.addEdges {f : Fn} {regs : List Register} {facts : List Facts}
    (h : AllFacts regs f.blocks (TakenAt f) facts) :
    FnFacts f regs (addEdges (graph f) facts) := by
  have hget : ∀ i, (Live.addEdges (graph f) facts)[i]? = facts[i]?.map fun x : Facts =>
      { x with successors := (graph f).getD i [], predecessors := predecessorsOf (graph f) i } := by
    simp [Live.addEdges]
  have hnone : ∀ {i j}, facts[i]? = none → ¬Edge f i j ∧ ¬Edge f j i := by
    intro i j hi
    have hlt := List.getElem?_eq_none_iff.1 hi
    rw [h.length] at hlt
    exact ⟨fun he => by have := he.lt; omega, fun he => by have := he.lt; omega⟩
  refine ⟨⟨by simp [Live.addEdges, h.length], h.nodup, fun hb hx => ?_⟩, ?_, ?_⟩
  · rw [hget] at hx
    obtain ⟨y, hy, rfl⟩ := Option.map_eq_some_iff.1 hx
    have := h.block hb hy
    exact ⟨this.reads, this.writes, this.phiReads⟩
  · intro i j
    rw [List.getD_eq_getElem?_getD, hget]
    cases hi : facts[i]? with
    | none => simp [(hnone hi).1]
    | some x => exact mem_graph
  · intro i j
    rw [List.getD_eq_getElem?_getD, hget]
    cases hi : facts[i]? with
    | none => simp [(hnone hi).2]
    | some x => exact mem_predecessorsOf

/-- The facts of a function are those of its blocks. -/
theorem factsOf_spec {f : Fn} {facts : List Facts} {regs : List Register}
    (h : factsOf f = .ok (facts, regs)) : FnFacts f regs facts := by
  obtain ⟨⟨⟩, -, h⟩ := Run.except_bind_ok_iff.1 h
  obtain ⟨facts₀, regs₀, hsweep, -, hall₀⟩ := sweepBlocks_spec List.nodup_nil f.blocks
  rw [hsweep] at h
  obtain ⟨⟨facts₁, regs₁⟩, hphi, h⟩ := Run.except_bind_ok_iff.1 h
  cases h
  exact ((addPhiReads_spec hall₀ hphi).congr fun _ _ => by rw [false_or]; rfl).addEdges

end CodeTiling.Live
