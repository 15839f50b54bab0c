import CodeTiling.Proofs.Conservation
import CodeTiling.Proofs.Worklist

/-!
# Labels that no block carries

The liveness analysis asks two things of the labels in a function: that control goes to labels that
blocks carry, and that phis take registers from such labels. It asks the first of all blocks before
it asks the second of any. It fails when an answer is no, and only then, with an error that names
the first label in the way. Phi sources that are no registers are not asked about.

A label is looked for in two ways, by a search from the front that ends at the first block with the
label, and in a map that one pass over the blocks fills (`places`). They find the same block, so an
edge never leads anywhere else than the check has seen.

* `factsOf_error_iff` : the errors of the analysis, and when they come;
* `exists_rejection_iff` : there is one if and only if a label is not carried;
* `analyze_onlyRegisters` : phi sources that are no registers do not matter;
* `places_eq` : the map has the first block of each label;
* `selectFunc_outline` : selection keeps labels, phis and where control goes;
* `analyze_rejects_unresolved` : all of this for the analysis.
-/

namespace CodeTiling

/-! ### Dangling labels -/

namespace Ir.Func

variable (f : Ir.Func)

/-- A terminator goes to a label that no block of the function has. -/
def HasDanglingTarget : Prop :=
  ∃ b ∈ f.blocks, ∃ t, b.term = some t ∧ ∃ l ∈ t.successors, l ∉ f.blocks.map Block.label

/-- A phi takes a register from a label that no block of the function has. -/
def HasDanglingSource : Prop :=
  ∃ b ∈ f.blocks, ∃ p ∈ b.phis, ∃ s ∈ p.sources,
    (∃ n, s.value = some (.reg n)) ∧ s.block ∉ f.blocks.map Block.label

end Ir.Func

namespace Code.Fn

variable (f : Fn)

/-- A block has a successor that no block of the function carries. -/
def HasDanglingSuccessor : Prop := ∃ b ∈ f.blocks, ∃ l ∈ b.successors, l ∉ f.labels

/-- A phi takes a register from a label that no block of the function carries. -/
def HasDanglingSource : Prop :=
  ∃ b ∈ f.blocks, ∃ p ∈ b.phis, ∃ s ∈ p.sources,
    (∃ n, s.value = some (.reg n)) ∧ s.block ∉ f.labels

/-- The successors of all blocks in order, each with the label of its block. -/
def exits : List (Name × Name) := f.blocks.flatMap fun b => b.successors.map (b.label, ·)

end Code.Fn

namespace Live

open Code (Register Fn)

/-- The error that a function is refused with. -/
inductive Rejection (f : Fn) : Error → Prop
  /-- The first successor that no block carries. -/
  | successor {b l : Name} (h : f.exits.find? (·.2 ∉ f.labels) = some (b, l)) :
      Rejection f (Error.within (Cause.noSuccessor b.index l.index) .successors)
  /-- All successors are carried; the first label that a phi takes a register from and no block
  carries. -/
  | source {l : Name} {r : Register} (hexits : ∀ x ∈ f.exits, x.2 ∈ f.labels)
      (h : (f.blocks.flatMap phiReadsOf).find? (·.1 ∉ f.labels) = some (l, r)) :
      Rejection f (Cause.noPhiSource l.index)

section

variable {f : Fn} {l : Name} {err : Error}

theorem getBlock?_eq_none_iff : f.getBlock? l = none ↔ l ∉ f.labels := by
  rw [Fn.getBlock?, List.find?_eq_none, Fn.labels, List.mem_map]
  simp

theorem blockIndex?_eq_none_iff : f.blockIndex? l = none ↔ l ∉ f.labels := by
  rw [← idxOf?_labels, List.idxOf?_eq_none_iff]

theorem danglingSuccessor?_eq : f.danglingSuccessor? = f.exits.find? (·.2 ∉ f.labels) := by
  have hnone : ∀ s, (f.getBlock? s).isNone = decide (s ∉ f.labels) := fun s => by
    rw [Bool.eq_iff_iff, Option.isNone_iff_eq_none, getBlock?_eq_none_iff, decide_eq_true_iff]
  rw [Fn.danglingSuccessor?, Fn.exits, List.find?_flatMap]
  congr 1
  funext b
  rw [List.find?_map]
  simp only [hnone]
  rfl

theorem checkSuccessors_error_iff :
    f.checkSuccessors = .error err ↔ ∃ x, f.exits.find? (·.2 ∉ f.labels) = some x ∧
      err = Cause.noSuccessor x.1.index x.2.index := by
  rw [Fn.checkSuccessors, danglingSuccessor?_eq]
  cases f.exits.find? (·.2 ∉ f.labels) with
  | none => simp
  | some x => simp [eq_comm]

theorem checkSuccessors_ok_iff :
    f.checkSuccessors = .ok () ↔ ∀ x ∈ f.exits, x.2 ∈ f.labels := by
  rw [Fn.checkSuccessors, danglingSuccessor?_eq]
  cases hfind : f.exits.find? (·.2 ∉ f.labels) with
  | none => simpa using hfind
  | some x =>
    have hx : x.2 ∉ f.labels := by simpa using List.find?_some hfind
    simp only [reduceCtorEq, false_iff]
    exact fun h => hx (h x (List.mem_of_find?_eq_some hfind))

theorem addPhiReads_error_iff {rs : List (Name × Register)} {facts : List Facts}
    {regs : List Register} :
    addPhiReads f facts regs rs = .error err ↔
      ∃ r, rs.find? (·.1 ∉ f.labels) = some r ∧ err = Cause.noPhiSource r.1.index := by
  induction rs generalizing facts regs with
  | nil => simp [addPhiReads]
  | cons r rs ih =>
    rw [addPhiReads, Run.except_bind_error_iff, addPhiRead]
    by_cases hr : r.1 ∈ f.labels
    · obtain ⟨i, hi⟩ := exists_blockIndex? hr
      rw [hi, List.find?_cons_of_neg (by simpa using hr)]
      simp [ih]
    · rw [blockIndex?_eq_none_iff.2 hr, List.find?_cons_of_pos (by simpa using hr)]
      simp [eq_comm]

/-- The facts of a function are refused with the error of the first label that is not carried. -/
theorem factsOf_error_iff : factsOf f = .error err ↔ Rejection f err := by
  rw [factsOf, Run.except_bind_error_iff, Run.within_error_iff]
  constructor
  · rintro (⟨_, hcheck, rfl⟩ | ⟨_, hcheck, h⟩)
    · obtain ⟨x, hfind, rfl⟩ := checkSuccessors_error_iff.1 hcheck
      exact .successor hfind
    · obtain h | ⟨_, -, h⟩ := Run.except_bind_error_iff.1 h
      · obtain ⟨r, hfind, rfl⟩ := addPhiReads_error_iff.1 h
        exact .source (checkSuccessors_ok_iff.1 (Run.within_ok_iff.1 hcheck)) hfind
      · cases h
  · intro h
    cases h with
    | successor h => exact .inl ⟨_, checkSuccessors_error_iff.2 ⟨_, h, rfl⟩, rfl⟩
    | source hexits h =>
      refine .inr ⟨(), Run.within_ok_iff.2 (checkSuccessors_ok_iff.2 hexits), ?_⟩
      exact Run.except_bind_error_iff.2 (.inl (addPhiReads_error_iff.2 ⟨_, h, rfl⟩))

theorem analyze_error_iff : analyze f = .error err ↔ Rejection f err := by
  rw [← factsOf_error_iff, analyze, Run.except_bind_error_iff]
  refine ⟨?_, .inl⟩
  rintro (h | ⟨_, -, h⟩)
  · exact h
  · cases h

theorem hasDanglingSuccessor_iff :
    f.HasDanglingSuccessor ↔ ∃ x ∈ f.exits, x.2 ∉ f.labels := by
  constructor
  · rintro ⟨b, hb, l, hl, hno⟩
    exact ⟨(b.label, l), List.mem_flatMap.2 ⟨b, hb, List.mem_map_of_mem hl⟩, hno⟩
  · rintro ⟨x, hx, hno⟩
    obtain ⟨b, hb, hx⟩ := List.mem_flatMap.1 hx
    obtain ⟨l, hl, rfl⟩ := List.mem_map.1 hx
    exact ⟨b, hb, l, hl, hno⟩

theorem hasDanglingSource_iff :
    f.HasDanglingSource ↔ ∃ x ∈ f.blocks.flatMap phiReadsOf, x.1 ∉ f.labels := by
  rw [Prod.exists]
  simp only [mem_phiReads]
  constructor
  · rintro ⟨b, hb, p, hp, s, hs, ⟨n, hn⟩, hl⟩
    exact ⟨s.block, .virtual n, ⟨b, hb, p, hp, s, hs, rfl, n, hn, rfl⟩, hl⟩
  · rintro ⟨l, r, ⟨b, hb, p, hp, s, hs, rfl, n, hn, -⟩, hl⟩
    exact ⟨b, hb, p, hp, s, hs, ⟨n, hn⟩, hl⟩

/-- There is an error if and only if a label is not carried. -/
theorem exists_rejection_iff :
    (∃ err, Rejection f err) ↔ f.HasDanglingSuccessor ∨ f.HasDanglingSource := by
  rw [hasDanglingSuccessor_iff, hasDanglingSource_iff]
  constructor
  · rintro ⟨_, h | ⟨-, h⟩⟩
    · exact .inl ⟨_, List.mem_of_find?_eq_some h, by simpa using List.find?_some h⟩
    · exact .inr ⟨_, List.mem_of_find?_eq_some h, by simpa using List.find?_some h⟩
  · intro h
    cases hfind : f.exits.find? (·.2 ∉ f.labels) with
    | some x => exact ⟨_, .successor hfind⟩
    | none =>
      -- no successor is in the way, so it is a phi source
      have hexits : ∀ x ∈ f.exits, x.2 ∈ f.labels := by simpa using hfind
      obtain ⟨x, hx, hl⟩ | ⟨x, hx, hl⟩ := h
      · exact (hl (hexits x hx)).elim
      · have hsome : ((f.blocks.flatMap phiReadsOf).find? (·.1 ∉ f.labels)).isSome = true :=
          List.find?_isSome.2 ⟨x, hx, decide_eq_true hl⟩
        obtain ⟨y, hy⟩ := Option.isSome_iff_exists.1 hsome
        exact ⟨_, .source hexits hy⟩

theorem Rejection.kind (h : Rejection f err) : err.cause.kind = .noBlock := by
  cases h <;> rfl

end

/-! ### Phi sources that are no registers -/

/-- A phi without the sources that are no registers. -/
def registerSources (p : Ir.Phi) : Ir.Phi :=
  { p with sources := p.sources.filter fun s => (sourceRegister? s).isSome }

/-- A function without the phi sources that are no registers. -/
def onlyRegisters (f : Fn) : Fn :=
  { f with blocks := f.blocks.map fun b => { b with phis := b.phis.map registerSources } }

section

variable (f : Fn)

theorem labels_onlyRegisters : (onlyRegisters f).labels = f.labels := by
  rw [Fn.labels, onlyRegisters, List.map_map]
  rfl

theorem blockIndex?_onlyRegisters : (onlyRegisters f).blockIndex? = f.blockIndex? := by
  funext l
  rw [← idxOf?_labels, ← idxOf?_labels, labels_onlyRegisters]

theorem exits_onlyRegisters : (onlyRegisters f).exits = f.exits := by
  rw [Fn.exits, onlyRegisters, List.flatMap_map]
  rfl

theorem checkSuccessors_onlyRegisters : (onlyRegisters f).checkSuccessors = f.checkSuccessors := by
  rw [Fn.checkSuccessors, Fn.checkSuccessors, danglingSuccessor?_eq, danglingSuccessor?_eq,
    exits_onlyRegisters, labels_onlyRegisters]

theorem sweepBlocks_onlyRegisters (regs : List Register) :
    sweepBlocks regs (onlyRegisters f).blocks = sweepBlocks regs f.blocks := by
  have hblock : ∀ (b : Code.Block) (regs : List Register),
      Sweep.block regs { b with phis := b.phis.map registerSources } = Sweep.block regs b :=
    fun b regs => by rw [Sweep.block, List.foldl_map]; rfl
  rw [onlyRegisters]
  induction f.blocks generalizing regs with
  | nil => rfl
  | cons b bs ih => rw [List.map_cons, sweepBlocks, sweepBlocks, hblock, ih]

theorem phiReads_onlyRegisters :
    (onlyRegisters f).blocks.flatMap phiReadsOf = f.blocks.flatMap phiReadsOf := by
  have hsources : ∀ p : Ir.Phi,
      (registerSources p).sources.filterMap (fun s => (sourceRegister? s).map (s.block, ·)) =
        p.sources.filterMap fun s => (sourceRegister? s).map (s.block, ·) := fun p => by
    rw [registerSources, List.filterMap_filter]
    congr 1
    funext s
    cases sourceRegister? s <;> rfl
  have hblock : ∀ b : Code.Block,
      phiReadsOf { b with phis := b.phis.map registerSources } = phiReadsOf b := fun b => by
    rw [phiReadsOf, phiReadsOf, List.flatMap_map, List.filterMap_flatMap, List.filterMap_flatMap]
    simp only [hsources]
  rw [onlyRegisters, List.flatMap_map]
  simp only [hblock]

theorem addPhiReads_onlyRegisters (facts : List Facts) (regs : List Register)
    (rs : List (Name × Register)) :
    addPhiReads (onlyRegisters f) facts regs rs = addPhiReads f facts regs rs := by
  induction rs generalizing facts regs with
  | nil => rfl
  | cons r rs ih =>
    rw [addPhiReads, addPhiReads, addPhiRead, addPhiRead, blockIndex?_onlyRegisters]
    simp only [ih]

theorem graph_onlyRegisters : graph (onlyRegisters f) = graph f := by
  have hblock : ∀ b : Code.Block,
      successorsOf (onlyRegisters f) { b with phis := b.phis.map registerSources } =
        successorsOf f b := fun b => by
    rw [successorsOf, blockIndex?_onlyRegisters]
    rfl
  rw [graph, onlyRegisters, List.map_map]
  exact List.map_congr_left fun b _ => hblock b

/-- Phi sources that are no registers do not matter to the analysis. -/
theorem analyze_onlyRegisters : analyze (onlyRegisters f) = analyze f := by
  rw [analyze, analyze, factsOf, factsOf, checkSuccessors_onlyRegisters, sweepBlocks_onlyRegisters,
    phiReads_onlyRegisters, graph_onlyRegisters, labels_onlyRegisters]
  simp only [addPhiReads_onlyRegisters]

end

/-! ### Places of labels -/

/-- The places of labels as one pass over blocks finds them, from place `i` on: a label that has a
place keeps it. -/
def placesFrom (i : Nat) (m : Name → Option Nat) : List Code.Block → Name → Option Nat
  | [] => m
  | b :: bs =>
    placesFrom (i + 1)
      (if (m b.label).isSome then m else fun l => if l = b.label then some i else m l) bs

/-- The places of the labels of a function. -/
def places (f : Fn) : Name → Option Nat := placesFrom 0 (fun _ => none) f.blocks

section

variable {f : Fn}

theorem placesFrom_eq (i : Nat) (m : Name → Option Nat) (bs : List Code.Block) (l : Name) :
    placesFrom i m bs l = (m l).or ((bs.findIdx? (·.label = l)).map (· + i)) := by
  induction bs generalizing i m with
  | nil => simp [placesFrom]
  | cons b bs ih =>
    rw [placesFrom, ih, List.findIdx?_cons]
    by_cases hl : b.label = l
    · -- the block gives its place to the label only if no block before it did
      subst hl
      cases hm : m b.label <;> simp [hm]
    · have hm : (if (m b.label).isSome then m
          else fun l' => if l' = b.label then some i else m l') l = m l := by
        split
        · rfl
        · exact if_neg (Ne.symm hl)
      simp [hm, hl, Function.comp_def, Nat.add_comm 1 i, Nat.add_assoc]

/-- The map has the first block of each label. -/
theorem places_eq (l : Name) : places f l = f.blockIndex? l := by
  rw [places, placesFrom_eq]
  simp [Fn.blockIndex?]

/-- The search and the map find the same block. -/
theorem getBlock?_eq_places (l : Name) : f.getBlock? l = (places f l).bind (f.blocks[·]?) := by
  rw [places_eq]
  cases hi : f.blockIndex? l with
  | none => exact getBlock?_eq_none_iff.2 (blockIndex?_eq_none_iff.1 hi)
  | some i =>
    obtain ⟨b, hb, -, hget⟩ := getBlock?_of_blockIndex? hi
    exact hget.trans hb.symm

/-- When the successors of a block are carried, the map has the places of all of them. -/
theorem map_places {b : Code.Block} (h : ∀ l ∈ b.successors, l ∈ f.labels) :
    b.uniqueSuccessors.map (places f) = (successorsOf f b).map some := by
  have hunique : ∀ l ∈ b.uniqueSuccessors, l ∈ f.labels := fun l hl =>
    h l (mem_uniqueSuccessors.1 hl)
  rw [successorsOf]
  -- the induction is on the labels alone; the block plays no part in it
  generalize b.uniqueSuccessors = ls at hunique ⊢
  induction ls with
  | nil => rfl
  | cons l ls ih =>
    obtain ⟨hl, hls⟩ := List.forall_mem_cons.1 hunique
    obtain ⟨i, hi⟩ := exists_blockIndex? hl
    rw [List.map_cons, places_eq, hi, List.filterMap_cons_some hi, List.map_cons, ih hls]

end

end Live

/-! ### Selected functions -/

/-- What selection takes over of a block: its label, its phis and where control goes. -/
def Ir.Block.outline (b : Ir.Block) : Name × List Ir.Phi × List Name :=
  (b.label, b.phis, b.term.elim [] Ir.Terminator.successors)

/-- The label of a block, its phis and its successors. -/
def Code.Block.outline (b : Code.Block) : Name × List Ir.Phi × List Name :=
  (b.label, b.phis, b.successors)

section

variable {e : Engine} {g g' : Naming} {func : Name} {entry : Bool}

theorem selectBlocks_outline {bs : List Ir.Block} {cs : List Code.Block}
    (h : e.selectBlocks func entry bs g = (.ok cs, g')) :
    cs.map Code.Block.outline = bs.map Ir.Block.outline := by
  induction bs generalizing entry g cs with
  | nil =>
    cases h
    rfl
  | cons b bs ih =>
    obtain ⟨c, g₁, cs, hc, hcs, rfl⟩ := selectBlocks_cons_ok h
    obtain ⟨-, is, -, rfl⟩ := selectBlock_ok_iff.1 hc
    rw [List.map_cons, List.map_cons, ih hcs]
    rfl

/-- Selection keeps labels, phis and where control goes. -/
theorem selectFunc_outline {p : Ir.Func} {cs : List Code.Block}
    (h : e.selectFunc p g = (.ok cs, g')) :
    cs.map Code.Block.outline = p.blocks.map Ir.Block.outline := by
  obtain ⟨_, _, -, hblocks⟩ := Run.bind_ok_iff.1 h
  exact selectBlocks_outline hblocks

end

section

variable {f : Code.Fn} {p : Ir.Func}
  (h : f.blocks.map Code.Block.outline = p.blocks.map Ir.Block.outline)
include h

theorem labels_eq_of_outline : f.labels = p.blocks.map Ir.Block.label := by
  have := congrArg (List.map Prod.fst) h
  rwa [List.map_map, List.map_map] at this

theorem exists_outline_iff (P : Name × List Ir.Phi × List Name → Prop) :
    (∃ c ∈ f.blocks, P c.outline) ↔ ∃ b ∈ p.blocks, P b.outline := by
  have hmem : (∃ o ∈ f.blocks.map Code.Block.outline, P o) ↔
      ∃ o ∈ p.blocks.map Ir.Block.outline, P o := by rw [h]
  simpa using hmem

theorem hasDanglingSuccessor_iff_of_outline : f.HasDanglingSuccessor ↔ p.HasDanglingTarget := by
  have hiff := exists_outline_iff h fun o => ∃ l ∈ o.2.2, l ∉ f.labels
  refine hiff.trans (exists_congr fun b => and_congr_right fun _ => ?_)
  rw [labels_eq_of_outline h]
  cases hterm : b.term <;> simp [Ir.Block.outline, hterm]

theorem hasDanglingSource_iff_of_outline : f.HasDanglingSource ↔ p.HasDanglingSource := by
  have hiff := exists_outline_iff h fun o => ∃ q ∈ o.2.1, ∃ s ∈ q.sources,
    (∃ n, s.value = some (.reg n)) ∧ s.block ∉ f.labels
  rw [labels_eq_of_outline h] at hiff
  rw [Code.Fn.HasDanglingSource, labels_eq_of_outline h]
  exact hiff

end

namespace Live

open Code (Fn)

/-- **The analysis refuses the functions with labels that no block carries, and no others.**

* It fails if and only if a block has a successor that no block carries, or a phi takes a register
  from a label that no block carries.
* The error is that of the first such successor, and if there is none that of the first such phi
  source. It is of one kind.
* Phi sources that are no registers could be left out.
* The block that the check finds for a label is the one at the place that the map has for it. When
  the analysis does not fail, the map has the places of all successors, and these are the edges.
* For a function that was selected, it fails if and only if a terminator goes to a label that no
  block has, or a phi takes a register from such a label. -/
theorem analyze_rejects_unresolved (f : Fn) :
    ((∃ err, analyze f = .error err) ↔ f.HasDanglingSuccessor ∨ f.HasDanglingSource) ∧
    (∀ err, analyze f = .error err ↔ Rejection f err) ∧
    (∀ err, analyze f = .error err → err.cause.kind = .noBlock) ∧
    analyze (onlyRegisters f) = analyze f ∧
    (∀ l, f.getBlock? l = (places f l).bind (f.blocks[·]?)) ∧
    ((∃ x, analyze f = .ok x) →
      ∀ b ∈ f.blocks, b.uniqueSuccessors.map (places f) = (successorsOf f b).map some) ∧
    ∀ (e : Engine) (p : Ir.Func) (g g' : Naming), e.selectFunc p g = (.ok f.blocks, g') →
      ((∃ err, analyze f = .error err) ↔ p.HasDanglingTarget ∨ p.HasDanglingSource) := by
  have hfails : (∃ err, analyze f = .error err) ↔ f.HasDanglingSuccessor ∨ f.HasDanglingSource := by
    simp only [analyze_error_iff]
    exact exists_rejection_iff
  refine ⟨hfails, fun err => analyze_error_iff, fun err h => (analyze_error_iff.1 h).kind,
    analyze_onlyRegisters f, getBlock?_eq_places, ?_, fun e p g g' h => ?_⟩
  · rintro ⟨x, hx⟩ b hb
    refine map_places fun l hl => ?_
    by_contra hno
    obtain ⟨err, herr⟩ := hfails.2 (.inl ⟨b, hb, l, hl, hno⟩)
    cases hx.symm.trans herr
  · have houtline := selectFunc_outline h
    rw [hfails, hasDanglingSuccessor_iff_of_outline houtline,
      hasDanglingSource_iff_of_outline houtline]

/-- A function of one block, whose phi takes a number from one missing label and a register from
another. -/
def orphan : Ir.Func where
  name := ⟨1⟩
  blocks := [{ Sample.block with
    phis := [⟨⟨6⟩, [⟨⟨3⟩, some (.imm 7)⟩, ⟨⟨4⟩, some (.reg ⟨8⟩)⟩]⟩] }]

/-- The function is selected and then refused, for the label that the register comes from. -/
theorem analyze_rejects_unresolved_orphan : ∃ bs g',
    Sample.engine.selectFunc orphan (Naming.ofTable Sample.table) = (.ok bs, g') ∧
      analyze { blocks := bs } = .error (Cause.noPhiSource 4) ∧
        (orphan.HasDanglingTarget ∨ orphan.HasDanglingSource) := by
  refine ⟨_, _, rfl, (and_iff_left_of_imp fun herr => ?_).2 ?_⟩
  · obtain ⟨-, -, -, -, -, -, hselected⟩ := analyze_rejects_unresolved { blocks := _ }
    exact (hselected Sample.engine orphan (Naming.ofTable Sample.table) _ rfl).1 ⟨_, herr⟩
  · obtain ⟨-, hrejects, -⟩ := analyze_rejects_unresolved { blocks := _ }
    exact (hrejects _).2 (.source (l := ⟨4⟩) (by decide) rfl)

end Live

end CodeTiling
