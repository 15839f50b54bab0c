import CodeTiling.Proofs.Tiling

/-!
# Selected blocks and functions

What the tiling of blocks means for the code that is selected for them.

* `selectBlock_ok_iff` : a block is selected when its code is covered, and the code comes after the
  directives;
* `selectBlock_ok`, `selectBlock_error` : a block that is selected is tiled, and one of complete
  code that is not is stuck where no rule matches;
* `selectBlocks_ok` : the blocks of a function are tiled one after another with one naming;
* `selectBlocks_stuck` : on complete code a failure means that a block is stuck;
* `selectBlock_greedy` : selection is the greedy tiling.
-/

namespace CodeTiling

open Code (Instruction Line)

/-! ### Blocks -/

/-- The code of a block whose instructions are known. -/
def coveredBlock (t : NameTable) (func : Name) (entry : Bool) (b : Ir.Block)
    (is : List Instruction) : Code.Block where
  label := b.label
  lines := (blockDirectives t func entry b).map Line.directive ++ is.map Line.instr
  phis := b.phis
  successors := b.term.elim [] Ir.Terminator.successors

/-- The names whose texts stand in the directives of a block. -/
def directiveNames (func : Name) (entry : Bool) (b : Ir.Block) : List Name :=
  if entry then [func, b.label] else [b.label]

section

variable {e : Engine} {t : NameTable} {g g' : Naming} {func : Name} {entry : Bool} {b : Ir.Block}

theorem coveredBlock_instructions (is : List Instruction) :
    (coveredBlock t func entry b is).instructions = is := by
  simp [coveredBlock, Code.Block.instructions, List.filterMap_append, List.filterMap_map]

theorem isIssued_of_mem_directiveNames (hfunc : t.isIssued func = true)
    (hlabel : t.isIssued b.label = true) :
    ∀ n ∈ directiveNames func entry b, t.isIssued n = true := by
  cases entry <;> simp [directiveNames, hfunc, hlabel]

theorem blockDirectives_mono {t' : NameTable} (ht : t ≤ t')
    (hn : ∀ n ∈ directiveNames func entry b, t.isIssued n = true) :
    blockDirectives t' func entry b = blockDirectives t func entry b := by
  have htext : ∀ n ∈ directiveNames func entry b, t'.text n = t.text n :=
    fun n hn' => NameTable.text_mono ht (hn n hn')
  cases entry with
  | false => simp [blockDirectives, htext b.label (by simp [directiveNames])]
  | true =>
    simp [blockDirectives, htext b.label (by simp [directiveNames]),
      htext func (by simp [directiveNames])]

theorem require_run {ns : List Name} (h : ∀ n ∈ ns, g.table.isIssued n = true) :
    SelectM.require ns g = (.ok (), g) := by
  rw [SelectM.require, Run.bind_ok (Run.get_apply g), if_pos (List.all_eq_true.2 h)]
  rfl

theorem require_ok {ns : List Name} {u : Unit} (h : SelectM.require ns g = (.ok u, g')) :
    (∀ n ∈ ns, g.table.isIssued n = true) ∧ g' = g := by
  rw [SelectM.require, Run.bind_ok (Run.get_apply g)] at h
  split at h
  · rename_i hall
    cases h
    exact ⟨List.all_eq_true.1 hall, rfl⟩
  · cases h

/-- With the names of its directives issued, a block is as good as its cover. -/
theorem selectBlock_run (hn : ∀ n ∈ directiveNames func entry b, g.table.isIssued n = true) :
    e.selectBlock func entry b g =
      (do let is ← e.cover b; return coveredBlock g.table func entry b is : SelectM _) g := by
  have hreq := require_run hn
  rw [directiveNames] at hreq
  rw [Engine.selectBlock, Run.bind_ok hreq, Run.bind_ok (Run.get_apply g)]
  rfl

/-- The names that are issued while a block is covered do not show in its directives. -/
theorem selectBlock_run_of_le (ht : t ≤ g.table)
    (hn : ∀ n ∈ directiveNames func entry b, t.isIssued n = true) :
    e.selectBlock func entry b g =
      (do let is ← e.cover b; return coveredBlock t func entry b is : SelectM _) g := by
  rw [selectBlock_run fun n hn' => NameTable.isIssued_mono ht (hn n hn')]
  simp only [coveredBlock, blockDirectives_mono ht hn]

theorem selectBlock_ok_iff {c : Code.Block} :
    e.selectBlock func entry b g = (.ok c, g') ↔
      (∀ n ∈ directiveNames func entry b, g.table.isIssued n = true) ∧
        ∃ is, e.cover b g = (.ok is, g') ∧ c = coveredBlock g.table func entry b is := by
  constructor
  · intro h
    obtain ⟨u, g₁, hreq, -⟩ := Run.bind_ok_iff.1 h
    obtain ⟨hn, -⟩ := require_ok hreq
    rw [selectBlock_run hn] at h
    obtain ⟨is, g₂, hcover, hret⟩ := Run.bind_ok_iff.1 h
    cases hret
    exact ⟨hn, is, hcover, rfl⟩
  · rintro ⟨hn, is, hcover, rfl⟩
    rw [selectBlock_run hn, Run.bind_ok hcover]
    rfl

/-- A cover that succeeds is a tiling. -/
theorem cover_ok (he : e.BuiltOn t) (ht : t ≤ g.table) {is : List Instruction}
    (h : e.cover b g = (.ok is, g')) :
    ∃ tiles, IsTiling e.rules b tiles ∧ is = (placeAll g tiles).flatMap (Placed.code t) ∧
      g' = namingAfter g tiles := by
  have hcases := cover_cases (b := b) he ht
  rw [h] at hcases
  cases hcases with
  | covered tiles hcode hterm => exact ⟨tiles, ⟨hcode, hterm⟩, rfl, rfl⟩

/-- The error says that no rule matches at a position of a block, or at its terminator. -/
inductive NoRuleError (b : Ir.Block) (stop : Nat) : Error → Prop
  /-- There is an instruction at the position. -/
  | code {x : Ir.Instr} (h : b.code[stop]? = some (some x)) :
      NoRuleError b stop (Cause.noRuleAt stop x.op.text)
  /-- The position is the end of the code. -/
  | term {x : Ir.Terminator} (hstop : stop = b.code.length) (h : b.term = some x) :
      NoRuleError b stop (Cause.noRuleForTerminator (termType x))

theorem NoRuleError.cause_ne_unfinished {stop : Nat} {err : Error} (h : NoRuleError b stop err) :
    err.cause ≠ .unfinished := by
  cases h with
  | code h => exact nofun
  | term hstop h => exact nofun

theorem noRuleError_noRule {stop : Nat} (hb : Ir.CodeComplete b.code)
    (hstop : stop ≤ b.code.length) (hleft : ¬(b.leftAt stop).IsDone) :
    NoRuleError b stop (noRule stop (b.code.drop stop) b.term) := by
  rcases Nat.lt_or_eq_of_le hstop with hlt | rfl
  · obtain ⟨x, hx, -⟩ := hb _ (List.getElem_mem hlt)
    rw [List.drop_eq_getElem_cons hlt, hx]
    exact .code (by rw [List.getElem?_eq_getElem hlt, hx])
  · rw [List.drop_length]
    cases hterm : b.term with
    | none => exact (hleft ((Ir.Block.isDone_leftAt_iff le_rfl).2 ⟨rfl, hterm⟩)).elim
    | some x => exact .term rfl hterm

/-- A cover of complete code that fails is stuck where no rule matches. -/
theorem cover_error (he : e.BuiltOn t) (ht : t ≤ g.table) (hb : Ir.CodeComplete b.code)
    {err : Error} (h : e.cover b g = (.error err, g')) :
    ∃ tiles stop, IsStuck e.rules b tiles stop ∧ NoRuleError b stop err := by
  have hcases := cover_cases (b := b) he ht
  rw [h] at hcases
  cases hcases with
  | stuck tiles stop hcode hterm hno hleft hstop =>
    refine ⟨tiles, stop, ⟨hcode, hterm, hno, ?_⟩, noRuleError_noRule hb hstop hleft⟩
    rcases Nat.lt_or_eq_of_le hstop with hlt | rfl
    · exact .inl hlt
    · refine .inr ⟨rfl, Option.isSome_iff_ne_none.2 fun hnone => hleft ?_⟩
      exact (Ir.Block.isDone_leftAt_iff le_rfl).2 ⟨rfl, hnone⟩
  | failed tiles stop err hfail =>
    -- rules without gaps decide every match on complete code
    have hrules : ∀ r ∈ e.rules, ∀ p ∈ r.pattern.code, p.isSome = true := by
      intro r hr
      obtain ⟨bound, hacc⟩ := he.accepted r hr
      exact hacc.complete
    obtain ⟨o, ho⟩ : ∃ o, firstMatch (b.code.drop stop) b.term e.rules = .ok o :=
      firstMatch_total hrules (hb.drop stop)
    rw [ho] at hfail
    cases hfail

/-- A block that is selected is tiled. -/
theorem selectBlock_ok (he : e.BuiltOn t) (ht : t ≤ g.table) {c : Code.Block}
    (h : e.selectBlock func entry b g = (.ok c, g')) :
    ∃ tiles, IsTiling e.rules b tiles ∧
      c.instructions = (placeAll g tiles).flatMap (Placed.code t) ∧ g' = namingAfter g tiles := by
  obtain ⟨-, is, hcover, rfl⟩ := selectBlock_ok_iff.1 h
  rw [coveredBlock_instructions]
  exact cover_ok he ht hcover

/-- A block of complete code that is not selected is stuck where no rule matches. -/
theorem selectBlock_error (he : e.BuiltOn t) (ht : t ≤ g.table) (hb : Ir.CodeComplete b.code)
    (hn : ∀ n ∈ directiveNames func entry b, g.table.isIssued n = true) {err : Error}
    (h : e.selectBlock func entry b g = (.error err, g')) :
    ∃ tiles stop, IsStuck e.rules b tiles stop ∧ NoRuleError b stop err := by
  rw [selectBlock_run hn] at h
  rcases hcover : e.cover b g with ⟨err' | is, g₁⟩
  · rw [Run.bind_error hcover] at h
    cases h
    exact cover_error he ht hb hcover
  · rw [Run.bind_ok hcover] at h
    cases h

end

/-! ### Functions -/

/-- Tiles of blocks in place, with registers issued for one block after the other. -/
def placeBlocks (g : Naming) : List (List Tile) → List (List Placed)
  | [] => []
  | tiles :: tss => placeAll g tiles :: placeBlocks (namingAfter g tiles) tss

theorem placeAll_append (g : Naming) (tiles tiles' : List Tile) :
    placeAll g (tiles ++ tiles') = placeAll g tiles ++ placeAll (namingAfter g tiles) tiles' := by
  induction tiles generalizing g with
  | nil => rfl
  | cons tile tiles ih => simp [placeAll, namingAfter, ih]

theorem namingAfter_append (g : Naming) (tiles tiles' : List Tile) :
    namingAfter g (tiles ++ tiles') = namingAfter (namingAfter g tiles) tiles' := by
  induction tiles generalizing g with
  | nil => rfl
  | cons tile tiles ih => exact ih _

theorem flatten_placeBlocks (g : Naming) (tss : List (List Tile)) :
    (placeBlocks g tss).flatten = placeAll g tss.flatten := by
  induction tss generalizing g with
  | nil => rfl
  | cons tiles tss ih => simp [placeBlocks, placeAll_append, ih]

theorem map_tile_placeAll (g : Naming) (tiles : List Tile) :
    (placeAll g tiles).map Placed.tile = tiles := by
  induction tiles generalizing g with
  | nil => rfl
  | cons tile tiles ih => simp [placeAll, ih]

section

variable {e : Engine} {t : NameTable} {g g' : Naming} {func : Name} {entry : Bool}
  {bs : List Ir.Block}

/-- The blocks of a function are tiled one after another. -/
theorem selectBlocks_ok (he : e.BuiltOn t) (ht : t ≤ g.table) {cs : List Code.Block}
    (h : e.selectBlocks func entry bs g = (.ok cs, g')) :
    ∃ tss, List.Forall₂ (IsTiling e.rules) bs tss ∧
      cs.map Code.Block.instructions =
        (placeBlocks g tss).map (List.flatMap (Placed.code t)) := by
  induction bs generalizing entry g cs with
  | nil =>
    cases h
    exact ⟨[], .nil, rfl⟩
  | cons b bs ih =>
    rw [Engine.selectBlocks, Run.bind_ok (Run.get_apply g)] at h
    obtain ⟨c, g₁, hc, h⟩ := Run.bind_ok_iff.1 h
    obtain ⟨cs', g₂, hcs, h⟩ := Run.bind_ok_iff.1 h
    cases h
    obtain ⟨tiles, htiles, hcover, rfl⟩ := selectBlock_ok he ht (Run.adapt_ok_iff.1 hc)
    obtain ⟨tss, htss, hcode⟩ := ih (NameTable.le_trans ht (le_namingAfter g tiles)) hcs
    refine ⟨tiles :: tss, .cons htiles htss, ?_⟩
    rw [List.map_cons, hcover, hcode]
    rfl

theorem selectFunc_run {f : Ir.Func} (hname : g.table.isIssued f.name = true) :
    e.selectFunc f g = e.selectBlocks f.name true f.blocks g := by
  have hreq : SelectM.require [f.name] g = (.ok (), g) := require_run (by simpa using hname)
  rw [Engine.selectFunc, Run.bind_ok hreq]

/-- On complete code a failure means that a block is stuck where no rule matches. -/
theorem selectBlocks_stuck (he : e.BuiltOn t) (ht : t ≤ g.table)
    (hbs : ∀ b ∈ bs, Ir.CodeComplete b.code) (hfunc : g.table.isIssued func = true)
    (hlabels : ∀ b ∈ bs, g.table.isIssued b.label = true) {err : Error}
    (h : e.selectBlocks func entry bs g = (.error err, g')) :
    ∃ b ∈ bs, ∃ tiles stop err', IsStuck e.rules b tiles stop ∧ NoRuleError b stop err' ∧
      err.cause = err'.cause := by
  induction bs generalizing entry g with
  | nil => cases h
  | cons b bs ih =>
    rw [Engine.selectBlocks, Run.bind_ok (Run.get_apply g)] at h
    have hnames : ∀ n ∈ directiveNames func entry b, g.table.isIssued n = true :=
      isIssued_of_mem_directiveNames hfunc (hlabels b List.mem_cons_self)
    rcases hblock : e.selectBlock func entry b g with ⟨err' | c, g₁⟩
    · have hwithin : SelectM.within (.block (g.table.text b.label))
          (e.selectBlock func entry b) g = _ := Run.adapt_error hblock
      rw [Run.bind_error hwithin] at h
      cases h
      obtain ⟨tiles, stop, hstuck, hno⟩ :=
        selectBlock_error he ht (hbs b List.mem_cons_self) hnames hblock
      exact ⟨b, List.mem_cons_self, tiles, stop, err', hstuck, hno, rfl⟩
    · have hwithin : SelectM.within (.block (g.table.text b.label))
          (e.selectBlock func entry b) g = _ := Run.adapt_ok hblock
      rw [Run.bind_ok hwithin] at h
      obtain ⟨tiles, -, -, rfl⟩ := selectBlock_ok he ht hblock
      have hle := le_namingAfter g tiles
      rcases hrest : e.selectBlocks func false bs (namingAfter g tiles) with ⟨err' | cs, g₂⟩
      · rw [Run.bind_error hrest] at h
        cases h
        obtain ⟨b', hb', h⟩ := ih (NameTable.le_trans ht hle)
          (fun x hx => hbs x (List.mem_cons_of_mem _ hx)) (NameTable.isIssued_mono hle hfunc)
          (fun x hx => NameTable.isIssued_mono hle (hlabels x (List.mem_cons_of_mem _ hx))) hrest
        exact ⟨b', List.mem_cons_of_mem _ hb', h⟩
      · rw [Run.bind_ok hrest] at h
        cases h

/-- On complete code a failure means that no rule matches somewhere. -/
theorem selectBlocks_error (he : e.BuiltOn t) (ht : t ≤ g.table)
    (hbs : ∀ b ∈ bs, Ir.CodeComplete b.code) (hfunc : g.table.isIssued func = true)
    (hlabels : ∀ b ∈ bs, g.table.isIssued b.label = true) {err : Error}
    (h : e.selectBlocks func entry bs g = (.error err, g')) :
    ∃ b ∈ bs, ∃ stop err', NoRuleError b stop err' ∧ err.cause = err'.cause := by
  obtain ⟨b, hb, -, stop, err', -, h⟩ := selectBlocks_stuck he ht hbs hfunc hlabels h
  exact ⟨b, hb, stop, err', h⟩

end

/-! ### The greedy tiling

`Sample` has a table, an engine of two rules and a function that they cover with three tiles. -/

namespace Sample

/-- The names of the rules and of the function. -/
def table : NameTable :=
  .ofTexts ["", "f", "entry", "a", "d", "t", "x", "y", "z", "mov", "neg", "ret"] (by decide) rfl

/-- Negate into a new register and move it to the destination. -/
def negate : Rule where
  name := "negate"
  pattern := { code := [some (.unary ⟨12⟩ ⟨4⟩ (.reg ⟨3⟩))] }
  template := [
    { mnemonic := ⟨9⟩, args := [some (.atom (.fresh ⟨5⟩)), some (.atom (.ref ⟨3⟩))] },
    { mnemonic := ⟨10⟩, args := [some (.atom (.ref ⟨5⟩))] },
    { mnemonic := ⟨9⟩, args := [some (.atom (.ref ⟨4⟩)), some (.atom (.ref ⟨5⟩))] }]

/-- Return a register. -/
def giveBack : Rule where
  name := "giveBack"
  pattern := { last := some (.ret (some (.reg ⟨3⟩))) }
  template := [
    { mnemonic := ⟨9⟩, args := [some (.atom (.machine ⟨0⟩)), some (.atom (.ref ⟨3⟩))] },
    { mnemonic := ⟨11⟩ }]

/-- The engine of the two rules. -/
def engine : Engine := ⟨[negate, giveBack]⟩

/-- A block that negates twice and returns. -/
def block : Ir.Block where
  label := ⟨2⟩
  code := [some (.unary ⟨12⟩ ⟨7⟩ (some (.reg ⟨6⟩))), some (.unary ⟨12⟩ ⟨8⟩ (some (.reg ⟨7⟩)))]
  term := some (.ret (some (.reg ⟨8⟩)))

/-- A function of the one block. -/
def func : Ir.Func where
  name := ⟨1⟩
  args := [⟨6⟩]
  blocks := [block]

theorem builtOn : engine.BuiltOn table := ⟨rfl, by decide⟩

theorem codeComplete : Ir.CodeComplete block.code := by
  simp [Ir.CodeComplete, block, Ir.Instr.IsComplete]

end Sample

/-- **Selection is the greedy tiling.** For an engine of checked rules and a block of complete code
the loop comes to its end by itself: more rounds change nothing, and it is not stopped before. The
block is selected if and only if it has a tiling, with the code of the tiles one after another
behind the directives. Otherwise the greedy tiles end where no rule matches, and the error says
where that is. -/
theorem selectBlock_greedy {e : Engine} {t : NameTable} {g : Naming} {func : Name} {entry : Bool}
    {b : Ir.Block} (he : e.BuiltOn t) (ht : t ≤ g.table) (hb : Ir.CodeComplete b.code)
    (hn : ∀ n ∈ directiveNames func entry b, g.table.isIssued n = true) :
    (∀ fuel, b.code.length + 1 ≤ fuel → coverFrom e b.term fuel (b.leftAt 0) = e.cover b) ∧
    (∀ err g', e.cover b g = (.error err, g') → err.cause ≠ .unfinished) ∧
    ((∃ c g', e.selectBlock func entry b g = (.ok c, g')) ↔
      ∃ tiles, IsTiling e.rules b tiles) ∧
    (∀ tiles, IsTiling e.rules b tiles →
      ∃ iss g', expandTiles tiles g = (.ok iss, g') ∧
        e.selectBlock func entry b g =
          (.ok (coveredBlock g.table func entry b iss.flatten), g')) ∧
    ((¬∃ tiles, IsTiling e.rules b tiles) →
      ∃ tiles stop err g', IsStuck e.rules b tiles stop ∧ NoRuleError b stop err ∧
        e.selectBlock func entry b g = (.error err, g')) := by
  have hselect : ∀ tiles, IsTiling e.rules b tiles →
      ∃ iss g', expandTiles tiles g = (.ok iss, g') ∧
        e.selectBlock func entry b g =
          (.ok (coveredBlock g.table func entry b iss.flatten), g') := by
    intro tiles htiles
    refine ⟨_, _, expandTiles_run he htiles.code ht, selectBlock_ok_iff.2 ⟨hn, _, ?_, rfl⟩⟩
    rw [cover_of_tiling he ht htiles, List.flatMap]
  refine ⟨fun fuel hfuel => ?_, fun err g' hcover => ?_, ⟨?_, ?_⟩, hselect, fun hnone => ?_⟩
  · refine coverFrom_eq_of_le _ (le_trans ?_ hfuel) le_rfl
    simp only [Remaining.measure, Ir.Block.leftAt, List.drop_zero]
    exact Nat.add_le_add_left (Bool.toNat_le _) _
  · obtain ⟨_, _, -, hno⟩ := cover_error he ht hb hcover
    exact hno.cause_ne_unfinished
  · rintro ⟨c, g', hc⟩
    obtain ⟨tiles, htiles, -⟩ := selectBlock_ok he ht hc
    exact ⟨tiles, htiles⟩
  · rintro ⟨tiles, htiles⟩
    obtain ⟨iss, g', -, h⟩ := hselect tiles htiles
    exact ⟨_, g', h⟩
  · rcases hblock : e.selectBlock func entry b g with ⟨err | c, g'⟩
    · obtain ⟨tiles, stop, hstuck, hno⟩ := selectBlock_error he ht hb hn hblock
      exact ⟨tiles, stop, err, g', hstuck, hno, rfl⟩
    · obtain ⟨tiles, htiles, -⟩ := selectBlock_ok he ht hblock
      exact (hnone ⟨tiles, htiles⟩).elim

/-- The sample block is selected, so it has a tiling. -/
theorem selectBlock_greedy_sample :
    Sample.engine.BuiltOn Sample.table ∧ Ir.CodeComplete Sample.block.code ∧
      ∃ tiles, IsTiling Sample.engine.rules Sample.block tiles := by
  have hn : ∀ n ∈ directiveNames ⟨1⟩ true Sample.block,
      (Naming.ofTable Sample.table).table.isIssued n = true := by decide
  have h := selectBlock_greedy Sample.builtOn (NameTable.le_refl _) Sample.codeComplete hn
  exact ⟨Sample.builtOn, Sample.codeComplete, h.2.2.1.1 ⟨_, _, rfl⟩⟩

end CodeTiling
