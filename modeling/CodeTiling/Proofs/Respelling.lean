import CodeTiling.Proofs.Conservation
import CodeTiling.Proofs.Substitution
import Mathlib.Data.Set.Function

/-!
# A scope decides only how new registers are spelled

Which rules stand where in a function, and what their names stand for, is found without looking at a
table or a scope. What they contribute is the registers of the tiles, and those of one run are those
of another one under a renaming.

* `selectBlocks_tiled` : blocks have tiles that every naming comes to, or an error that every naming
  comes to;
* `Rule.instanceOf_rename` : the instance of a rule with renamed registers is its renamed instance;
* `placeBlocks_rename`, `coveredBlocks_rename` : so are the tiles of blocks in place, and the
  blocks;
* `selectFuncs_outcomes` : what one worker or several come to, function by function;
* `selectFunc_respelled` : two runs with new scopes come to the same up to the names of the new
  registers, and so do functions that are selected one after another and a compilation.
-/

namespace CodeTiling

open Code (Operand Register Instruction Indirect Line Assembly Fn)

/-! ### Renaming registers -/

namespace Code

variable (ρ : Name → Name)

/-- Rename a register that is to be allocated. -/
def Register.rename : Register → Register
  | .none => .none
  | .machine r => .machine r
  | .virtual n => .virtual (ρ n)

/-- Rename the registers of a memory operand. -/
def Indirect.rename (m : Indirect) : Indirect :=
  { m with base := m.base.rename ρ, index := m.index.rename ρ }

/-- Rename the registers of an operand. Symbols and labels stay. -/
def Operand.rename : Operand → Operand
  | .reg r => .reg (r.rename ρ)
  | .indirect m => .indirect (m.rename ρ)
  | x => x

/-- Rename the registers of an instruction. -/
def Instruction.rename (i : Instruction) : Instruction :=
  { i with args := i.args.map (Option.map (Operand.rename ρ)) }

/-- Rename the registers of a line. A directive stays. -/
def Line.rename : Line → Line
  | .directive s => .directive s
  | .instr i => .instr (i.rename ρ)

/-- Rename the registers in the code of a block. The label, the phis and the successors stay. -/
def Block.rename (b : Block) : Block := { b with lines := b.lines.map (Line.rename ρ) }

variable {ρ} {v : Vocabulary} (hρ : ∀ n, v.register n → ρ n = n)
include hρ

theorem Register.rename_of_isIn {r : Register} (h : r.IsIn v) : r.rename ρ = r := by
  cases r with
  | virtual n => rw [rename, hρ n h]
  | _ => rfl

/-- A renaming that fixes the registers of a vocabulary fixes the operands that are in it. -/
theorem Operand.rename_of_isIn {x : Operand} (h : x.IsIn v) : x.rename ρ = x := by
  cases x with
  | reg r => rw [rename, Register.rename_of_isIn hρ h]
  | indirect m =>
    rw [rename, Indirect.rename, Register.rename_of_isIn hρ h.1, Register.rename_of_isIn hρ h.2]
  | _ => rfl

end Code

/-! ### Instances -/

/-- Rename the registers that were issued for new-register names. -/
def renameRegisters (ρ : Name → Name) (regs : List (Name × Name)) : List (Name × Name) :=
  regs.map fun e => (e.1, ρ e.2)

theorem lookup_renameRegisters (ρ : Name → Name) (regs : List (Name × Name)) (n : Name) :
    (renameRegisters ρ regs).lookup n = (regs.lookup n).map ρ := by
  induction regs with
  | nil => rfl
  | cons e regs ih =>
    obtain ⟨m, x⟩ := e
    simp only [renameRegisters, List.map_cons, List.lookup_cons] at ih ⊢
    cases n == m with
    | true => rfl
    | false => exact ih

section

variable {t : NameTable} {b : Bindings} {ρ : Name → Name} {v : Vocabulary}
  {regs : List (Name × Name)} (hρ : ∀ n, v.register n → ρ n = n) (hb : b.IsIn v)
include hρ hb

theorem value?_rename (n : Name) : (b.value? n).map (Operand.rename ρ) = b.value? n := by
  cases h : b.value? n with
  | none => rfl
  | some x => rw [Option.map_some, Operand.rename_of_isIn hρ (hb (.value n x) h)]

theorem instanceAtom_rename (a : Atom) :
    instanceAtom t b (renameRegisters ρ regs) a =
      (instanceAtom t b regs a).map (Operand.rename ρ) := by
  cases a with
  | machine r => rfl
  | fresh n =>
    simp only [instanceAtom, lookup_renameRegisters, Option.map_map]
    rfl
  | ref n =>
    simp only [instanceAtom, lookup_renameRegisters]
    cases regs.lookup n with
    | some x => rfl
    | none => exact (value?_rename hρ hb n).symm
  | literal n =>
    simp only [instanceAtom, literalOperand]
    cases canonicalImm? (t.text n) <;> rfl
  | label n => exact (value?_rename hρ hb n).symm

theorem instanceTerm_rename (o : Option AddressTerm) :
    instanceTerm t b (renameRegisters ρ regs) o =
      (instanceTerm t b regs o).map (Register.rename ρ) := by
  rcases o with - | a | -
  · rfl
  · simp only [instanceTerm, instanceAtom_rename hρ hb a]
    rcases instanceAtom t b regs a with - | x
    · rfl
    · cases x <;> rfl
  · rfl

theorem instanceOperand_rename (o : Option TemplateOperand) :
    instanceOperand t b (renameRegisters ρ regs) o =
      (instanceOperand t b regs o).map (Operand.rename ρ) := by
  rcases o with - | a | m
  · rfl
  · exact instanceAtom_rename hρ hb a
  · simp only [instanceOperand, instanceTerm_rename hρ hb]
    cases instanceTerm t b regs m.base with
    | none => rfl
    | some base => cases instanceTerm t b regs m.index <;> rfl

theorem instanceLine_rename (l : TemplateLine) :
    instanceLine t b (renameRegisters ρ regs) l =
      (instanceLine t b regs l).map (Instruction.rename ρ) := by
  unfold instanceLine
  cases hlist : lineList? b l with
  | some as =>
    -- the arguments of a call are operands that the match has met
    obtain ⟨n, -, hn⟩ := lineList?_eq_some hlist
    simp only [List.map_map]
    refine List.map_congr_left fun a ha => ?_
    have hfix : a.rename ρ = a :=
      Operand.rename_of_isIn hρ (hb (.list n as) hn a (List.mem_reverse.1 ha))
    simp [Instruction.rename, hfix]
  | none =>
    have hargs : l.args.map (instanceOperand t b (renameRegisters ρ regs)) =
        (l.args.map (instanceOperand t b regs)).map (Option.map (Operand.rename ρ)) := by
      rw [List.map_map]
      exact List.map_congr_left fun o _ => instanceOperand_rename hρ hb o
    simp only [hargs, List.map_singleton, Instruction.rename]

/-- The instance of a rule with renamed registers is its renamed instance. -/
theorem Rule.instanceOf_rename (r : Rule) :
    r.instanceOf t b (renameRegisters ρ regs) =
      (r.instanceOf t b regs).map (Instruction.rename ρ) := by
  rw [instanceOf, instanceOf, List.map_flatMap]
  exact List.flatMap_congr fun l _ => instanceLine_rename hρ hb l

end

/-! ### Tiles without a naming -/

section

variable {e : Engine} {t : NameTable} {b : Ir.Block}

/-- The loop that fails with one naming fails with the same error with any other. -/
theorem coverFrom_error (he : e.BuiltOn t) {term : Option Ir.Terminator} {fuel : Nat}
    {left : Remaining} {g g' : Naming} (ht : t ≤ g.table) (ht' : t ≤ g'.table) {err : Error}
    (h : (coverFrom e term fuel left g).1 = .error err) :
    (coverFrom e term fuel left g').1 = .error err := by
  induction fuel generalizing left g g' with
  | zero =>
    by_cases hdone : left.IsDone
    · rw [coverFrom_of_isDone hdone] at h
      cases h
    · rw [coverFrom_zero hdone] at h ⊢
      exact h
  | succ fuel ih =>
    by_cases hdone : left.IsDone
    · rw [coverFrom_of_isDone hdone] at h
      cases h
    cases hm : firstMatch left.code term e.rules with
    | error err' =>
      rw [coverFrom_of_error hdone hm] at h ⊢
      exact h
    | ok o =>
      cases o with
      | none =>
        rw [coverFrom_of_none hdone hm] at h ⊢
        exact h
      | some rc =>
        obtain ⟨r, c⟩ := rc
        have hfirst := (firstMatch_some_iff he.not_isIdle).1 hm
        rw [coverFrom_step he ht hdone hfirst] at h
        rw [coverFrom_step he ht' hdone hfirst]
        -- a tile does not fail, so that the error comes from what is left behind it
        rcases hrest : coverFrom e term fuel (left.after r.pattern) (r.issued g).naming
          with ⟨err' | is, g₁⟩
        · rw [Run.bind_error hrest] at h
          cases h
          have hsame := ih (NameTable.le_trans ht (r.le_issued g))
            (NameTable.le_trans ht' (r.le_issued g')) (congrArg Prod.fst hrest)
          rw [Run.bind_error (Prod.ext hsame rfl)]
        · rw [Run.bind_ok hrest] at h
          cases h

/-- A block has a tiling, or there is an error that every naming comes to. -/
theorem cover_tiled (he : e.BuiltOn t) (b : Ir.Block) :
    (∃ tiles, IsTiling e.rules b tiles) ∨
      ∃ err, ∀ g : Naming, t ≤ g.table → (e.cover b g).1 = .error err := by
  by_cases htiled : ∃ tiles, IsTiling e.rules b tiles
  · exact .inl htiled
  · rcases hrun : e.cover b (.ofTable t) with ⟨err | is, g'⟩
    · have hle : t ≤ (Naming.ofTable t).table := NameTable.le_refl t
      exact .inr ⟨err, fun g hg => coverFrom_error he hle hg (congrArg Prod.fst hrun)⟩
    · obtain ⟨tiles, htiles, -⟩ := cover_ok he (NameTable.le_refl t) hrun
      exact (htiled ⟨tiles, htiles⟩).elim

/-- The blocks of code that tiles in place make. -/
def coveredBlocks (t : NameTable) (func : Name) :
    Bool → List Ir.Block → List (List Placed) → List Code.Block
  | entry, b :: bs, ps :: pss =>
    coveredBlock t func entry b (ps.flatMap (Placed.code t)) :: coveredBlocks t func false bs pss
  | _, _, _ => []

/-- **Tiles without a naming.** Blocks have tiles that each naming only puts registers in, or there
is an error that every naming comes to. -/
theorem selectBlocks_tiled (he : e.BuiltOn t) {func : Name} (hfunc : t.isIssued func = true)
    {bs : List Ir.Block} (hlabels : ∀ b ∈ bs, t.isIssued b.label = true) (entry : Bool) :
    (∃ tss, List.Forall₂ (IsTiling e.rules) bs tss ∧ ∀ g : Naming, t ≤ g.table →
      e.selectBlocks func entry bs g =
        (.ok (coveredBlocks t func entry bs (placeBlocks g tss)), namingAfter g tss.flatten)) ∨
      ∃ err, ∀ g : Naming, t ≤ g.table → (e.selectBlocks func entry bs g).1 = .error err := by
  induction bs generalizing entry with
  | nil => exact .inl ⟨[], .nil, fun _ _ => rfl⟩
  | cons b bs ih =>
    obtain ⟨hlabel, hlabels⟩ := List.forall_mem_cons.1 hlabels
    have hselect : ∀ g : Naming, t ≤ g.table → e.selectBlock func entry b g =
        (do let is ← e.cover b; return coveredBlock t func entry b is : SelectM _) g :=
      fun g hg => selectBlock_run_of_le hg (isIssued_of_mem_directiveNames hfunc hlabel)
    rcases cover_tiled he b with ⟨tiles, htiles⟩ | ⟨err, herr⟩
    · have hblock : ∀ g : Naming, t ≤ g.table → e.selectBlock func entry b g =
          (.ok (coveredBlock t func entry b ((placeAll g tiles).flatMap (Placed.code t))),
            namingAfter g tiles) := by
        intro g hg
        rw [hselect g hg, Run.bind_ok (cover_of_tiling he hg htiles)]
        rfl
      have hnext : ∀ g : Naming, t ≤ g.table → t ≤ (namingAfter g tiles).table :=
        fun g hg => NameTable.le_trans hg (le_namingAfter g tiles)
      rcases ih hlabels false with ⟨tss, htss, hrest⟩ | ⟨err, hrest⟩
      · refine .inl ⟨tiles :: tss, .cons htiles htss, fun g hg => ?_⟩
        have hwithin : SelectM.within (.block (g.table.text b.label))
            (e.selectBlock func entry b) g = _ := Run.adapt_ok (hblock g hg)
        rw [Engine.selectBlocks, Run.bind_ok (Run.get_apply g), Run.bind_ok hwithin,
          Run.bind_ok (hrest _ (hnext g hg)), List.flatten_cons, namingAfter_append]
        rfl
      · refine .inr ⟨err, fun g hg => ?_⟩
        have hwithin : SelectM.within (.block (g.table.text b.label))
            (e.selectBlock func entry b) g = _ := Run.adapt_ok (hblock g hg)
        rw [Engine.selectBlocks, Run.bind_ok (Run.get_apply g), Run.bind_ok hwithin,
          Run.bind_error (Prod.ext (hrest _ (hnext g hg)) rfl)]
    · refine .inr ⟨err.within (.block (t.text b.label)), fun g hg => ?_⟩
      have hblock : e.selectBlock func entry b g = (.error err, (e.cover b g).2) := by
        rw [hselect g hg, Run.bind_error (Prod.ext (herr g hg) rfl)]
      have hwithin : SelectM.within (.block (g.table.text b.label))
          (e.selectBlock func entry b) g = _ := Run.adapt_error hblock
      rw [Engine.selectBlocks, Run.bind_ok (Run.get_apply g), Run.bind_error hwithin,
        NameTable.text_mono hg hlabel]

end

/-! ### Registers of two runs -/

/-- The names of one list become those in the same places of another one, and other names stay. -/
def respell (news news' : List Name) (n : Name) : Name := ((news.zip news').lookup n).getD n

section

variable {news news' : List Name}

theorem map_respell (hnodup : news.Nodup) (hlen : news.length = news'.length) :
    news.map (respell news news') = news' := by
  have hlookup := map_lookup_zip hnodup hlen
  apply List.map_injective_iff.2 (Option.some_injective Name)
  rw [← hlookup, List.map_map]
  refine List.map_congr_left fun n hn => ?_
  have hfound : (news.zip news').lookup n ∈ news'.map some :=
    hlookup ▸ List.mem_map_of_mem hn
  obtain ⟨m, -, hm⟩ := List.mem_map.1 hfound
  rw [Function.comp_apply, respell, ← hm, Option.getD_some]

theorem respell_of_notMem {n : Name} (h : n ∉ news) : respell news news' n = n := by
  have hnone : (news.zip news').lookup n = none := by
    rw [List.lookup_eq_none_iff]
    intro e he
    have hne : n ≠ e.1 := fun heq => h (heq ▸ (List.of_mem_zip he).1)
    simpa using hne
  rw [respell, hnone, Option.getD_none]

/-- A renaming that takes one list to another one without repetitions is a bijection between their
members. -/
theorem bijOn_of_map {ρ : Name → Name} (h : news.map ρ = news') (hnodup : news'.Nodup) :
    Set.BijOn ρ {n | n ∈ news} {n | n ∈ news'} := by
  subst h
  refine ⟨fun n hn => List.mem_map_of_mem hn, fun n hn m hm heq => ?_, fun m hm => ?_⟩
  · exact List.inj_on_of_nodup_map hnodup hn hm heq
  · obtain ⟨n, hn, rfl⟩ := List.mem_map.1 hm
    exact ⟨n, hn, rfl⟩

end

/-- Rename the registers of a tile in place. -/
def Placed.rename (ρ : Name → Name) (p : Placed) : Placed :=
  { p with registers := renameRegisters ρ p.registers }

theorem eq_renameRegisters {ρ : Name → Name} {regs regs' : List (Name × Name)}
    (hkeys : regs'.map Prod.fst = regs.map Prod.fst)
    (h : (regs.map Prod.snd).map ρ = regs'.map Prod.snd) : regs' = renameRegisters ρ regs := by
  have hrenamed : renameRegisters ρ regs = (regs.map Prod.fst).zip ((regs.map Prod.snd).map ρ) :=
    List.zip_of_prod (by simp [renameRegisters]) (by simp [renameRegisters])
  rw [hrenamed, h, ← hkeys]
  exact List.zip_of_prod rfl rfl

/-- The registers of tiles in the order in which they are issued. -/
def registersFor (g : Naming) (tiles : List Tile) : List Name :=
  (placeAll g tiles).flatMap fun p => p.newRegisters.reverse

theorem registersFor_cons (g : Naming) (tile : Tile) (tiles : List Tile) :
    registersFor g (tile :: tiles) =
      ((tile.rule.issued g).issued.map Prod.snd).reverse ++
        registersFor (tile.rule.issued g).naming tiles := rfl

theorem FreshLog.registersFor {t : NameTable} {g : Naming} (h : FreshLog t g [])
    (tiles : List Tile) :
    FreshLog t (namingAfter g tiles) (CodeTiling.registersFor g tiles) := by
  refine (h.placeAll tiles).perm ?_
  rw [List.nil_append]
  exact List.Perm.flatMap_left _ fun p _ => (List.reverse_perm _).symm

section

variable {t : NameTable} {ρ : Name → Name} {g g' : Naming}

theorem Rule.map_fst_issued {r : Rule} (hnames : ∀ n ∈ r.names, t.isIssued n = true)
    (ht : t ≤ g.table) : (r.issued g).issued.map Prod.fst = r.freshNames.eraseDups.reverse := by
  rw [issued_eq hnames ht, List.map_reverse, map_fst_registers]

/-- How many registers tiles have is a matter of their rules. -/
theorem length_registersFor {tiles : List Tile}
    (hrules : ∀ tile ∈ tiles, ∀ n ∈ tile.rule.names, t.isIssued n = true) (ht : t ≤ g.table) :
    (registersFor g tiles).length =
      (tiles.flatMap fun tile => tile.rule.freshNames.eraseDups).length := by
  induction tiles generalizing g with
  | nil => rfl
  | cons tile tiles ih =>
    obtain ⟨hrule, hrules⟩ := List.forall_mem_cons.1 hrules
    have hkeys := congrArg List.length (Rule.map_fst_issued hrule ht)
    have hrest := ih hrules (NameTable.le_trans ht (tile.rule.le_issued g))
    rw [List.length_map, List.length_reverse] at hkeys
    rw [registersFor_cons, List.length_append, hrest, List.length_reverse, List.length_map, hkeys,
      List.flatMap_cons, List.length_append]

/-- The tiles of two runs are the same up to a renaming that takes the registers of one run to those
of the other one. -/
theorem placeAll_rename {tiles : List Tile}
    (hrules : ∀ tile ∈ tiles, ∀ n ∈ tile.rule.names, t.isIssued n = true)
    (ht : t ≤ g.table) (ht' : t ≤ g'.table)
    (h : (registersFor g tiles).map ρ = registersFor g' tiles) :
    placeAll g' tiles = (placeAll g tiles).map (Placed.rename ρ) := by
  induction tiles generalizing g g' with
  | nil => rfl
  | cons tile tiles ih =>
    obtain ⟨hrule, hrules⟩ := List.forall_mem_cons.1 hrules
    -- both runs have registers for the same names, so that the first tile has as many in each
    have hkeys : (tile.rule.issued g').issued.map Prod.fst =
        (tile.rule.issued g).issued.map Prod.fst := by
      rw [Rule.map_fst_issued hrule ht, Rule.map_fst_issued hrule ht']
    have hlength := congrArg List.length hkeys
    rw [List.length_map, List.length_map] at hlength
    rw [registersFor_cons, registersFor_cons, List.map_append, List.map_reverse] at h
    obtain ⟨hfirst, hrest⟩ := List.append_inj h (by simp [hlength])
    have hregs := eq_renameRegisters hkeys (List.reverse_injective hfirst)
    rw [placeAll, placeAll, List.map_cons, Placed.rename, ← hregs,
      ih hrules (NameTable.le_trans ht (tile.rule.le_issued g))
        (NameTable.le_trans ht' (tile.rule.le_issued g')) hrest]

theorem map_length_placeBlocks (g : Naming) (tss : List (List Tile)) :
    (placeBlocks g tss).map List.length = tss.map List.length := by
  induction tss generalizing g with
  | nil => rfl
  | cons tiles tss ih =>
    have hlength := congrArg List.length (map_tile_placeAll g tiles)
    rw [List.length_map] at hlength
    rw [placeBlocks, List.map_cons, List.map_cons, hlength, ih]

theorem placeBlocks_rename {tss : List (List Tile)}
    (hrules : ∀ tile ∈ tss.flatten, ∀ n ∈ tile.rule.names, t.isIssued n = true)
    (ht : t ≤ g.table) (ht' : t ≤ g'.table)
    (h : (registersFor g tss.flatten).map ρ = registersFor g' tss.flatten) :
    placeBlocks g' tss = (placeBlocks g tss).map (List.map (Placed.rename ρ)) := by
  rw [List.eq_iff_flatten_eq]
  constructor
  · rw [← List.map_flatten, flatten_placeBlocks, flatten_placeBlocks]
    exact placeAll_rename hrules ht ht' h
  · rw [List.map_map, map_length_placeBlocks g' tss, ← map_length_placeBlocks g tss]
    exact List.map_congr_left fun ps _ => by simp

end

/-! ### Blocks of two runs -/

/-- The names of a table, for registers; symbols and labels may be any. -/
def NameTable.vocabulary (t : NameTable) : Vocabulary where
  symbol _ := True
  label _ := True
  register n := t.isIssued n = true

section

variable {t : NameTable} {ρ : Name → Name}

theorem Ir.Instr.isIn_vocabulary {x : Ir.Instr} (h : ∀ n ∈ x.names, t.isIssued n = true) :
    x.IsIn t.vocabulary := by
  refine ⟨fun n hn => h n (List.mem_append_left _ ?_), fun o ho n hn => h n ?_, fun _ _ => trivial⟩
  · cases x <;> simp_all [destinations, ownNames]
  · exact List.mem_append_right _ (List.mem_flatMap.2 ⟨o, ho, hn⟩)

theorem Ir.Terminator.isIn_vocabulary {x : Ir.Terminator}
    (h : ∀ n ∈ x.names, t.isIssued n = true) : x.IsIn t.vocabulary := by
  refine ⟨fun n hn => h n ?_, fun _ _ => trivial⟩
  cases x <;> simp_all [registers, names]

/-- The tiles of blocks are rules of the engine, and what their names stand for are registers of the
blocks. -/
theorem Greedy.known {rules : List Rule} {b : Ir.Block} (hb : ∀ n ∈ b.names, t.isIssued n = true)
    {tiles : List Tile} {pos stop : Nat} (h : Greedy rules b pos tiles stop) :
    ∀ tile ∈ tiles, tile.rule ∈ rules ∧ tile.bindings.IsIn t.vocabulary := by
  induction tiles generalizing pos with
  | nil => simp
  | cons tile tiles ih =>
    obtain ⟨-, hm, hrest⟩ := h
    have hcode : ∀ x, some x ∈ b.code.drop pos → x.IsIn t.vocabulary := by
      intro x hx
      refine Ir.Instr.isIn_vocabulary fun n hn => hb n ?_
      have hmem : n ∈ b.code.flatMap (·.elim [] Ir.Instr.names) :=
        List.mem_flatMap.2 ⟨some x, List.mem_of_mem_drop hx, hn⟩
      exact List.mem_append_left _ (List.mem_append_right _ hmem)
    have hterm : ∀ x, b.term = some x → x.IsIn t.vocabulary := by
      intro x hx
      refine Ir.Terminator.isIn_vocabulary fun n hn => hb n (List.mem_append_right _ ?_)
      rwa [hx]
    exact List.forall_mem_cons.2
      ⟨⟨hm.mem, Pattern.matchAt_isIn hcode hterm hm.matchAt⟩, ih hrest⟩

theorem tiles_known {rules : List Rule} {bs : List Ir.Block} {tss : List (List Tile)}
    (hbs : ∀ b ∈ bs, ∀ n ∈ b.names, t.isIssued n = true)
    (h : List.Forall₂ (IsTiling rules) bs tss) :
    ∀ tile ∈ tss.flatten, tile.rule ∈ rules ∧ tile.bindings.IsIn t.vocabulary := by
  induction h with
  | nil => simp
  | cons htiles _ ih =>
    obtain ⟨hb, hbs⟩ := List.forall_mem_cons.1 hbs
    rw [List.flatten_cons, List.forall_mem_append]
    exact ⟨htiles.code.known hb, ih hbs⟩

theorem coveredBlock_rename {func : Name} {entry : Bool} {b : Ir.Block} (is : List Instruction) :
    (coveredBlock t func entry b is).rename ρ =
      coveredBlock t func entry b (is.map (Instruction.rename ρ)) := by
  simp [coveredBlock, Code.Block.rename, Code.Line.rename, Function.comp_def]

theorem coveredBlocks_rename (hρ : ∀ n, t.isIssued n = true → ρ n = n) {func : Name}
    {pss : List (List Placed)}
    (hpss : ∀ p ∈ pss.flatten, p.tile.bindings.IsIn t.vocabulary) (entry : Bool)
    (bs : List Ir.Block) :
    coveredBlocks t func entry bs (pss.map (List.map (Placed.rename ρ))) =
      (coveredBlocks t func entry bs pss).map (Code.Block.rename ρ) := by
  induction bs generalizing entry pss with
  | nil => cases pss <;> rfl
  | cons b bs ih =>
    cases pss with
    | nil => rfl
    | cons ps pss =>
      rw [List.flatten_cons] at hpss
      have hcode : (ps.map (Placed.rename ρ)).flatMap (Placed.code t) =
          (ps.flatMap (Placed.code t)).map (Instruction.rename ρ) := by
        rw [List.flatMap_map, List.map_flatMap]
        refine List.flatMap_congr fun p hp => ?_
        exact Rule.instanceOf_rename hρ (hpss p (List.mem_append_left _ hp)) _
      have hrest := ih (fun p hp => hpss p (List.mem_append_right _ hp)) false
      rw [List.map_cons, coveredBlocks, coveredBlocks, List.map_cons, coveredBlock_rename, hcode,
        hrest]

end

/-! ### Two runs of a function -/

/-- The table of a naming has grown from `t`, and its scope was made on the way and has issued
nothing yet. -/
def Naming.IsNew (g : Naming) (t : NameTable) : Prop :=
  ∃ t₁, t ≤ t₁ ∧ t₁ ≤ g.table ∧ g.scope = Scope.ofTable t₁

/-- A renaming takes the new registers of one run to those of another one, one to one, and does
nothing else. -/
structure IsRespelling (t : NameTable) (news news' : List Name) (ρ : Name → Name) : Prop where
  /-- The registers of the first run are no names of the table. -/
  new : ∀ n ∈ news, t.isIssued n = false
  /-- Those of the second run are none either. -/
  new' : ∀ n ∈ news', t.isIssued n = false
  /-- The renaming is a bijection between them. -/
  bijOn : Set.BijOn ρ {n | n ∈ news} {n | n ∈ news'}
  /-- Every other name stays. -/
  fixed : ∀ n, n ∉ news → ρ n = n

/-- The blocks of two runs of a function are equal after a bijection between the registers that the
runs have issued. -/
def Respelled (e : Engine) (t : NameTable) (f : Ir.Func) (g g' : Naming)
    (cs cs' : List Code.Block) : Prop :=
  ∃ news news' ρ, g.Issues news (e.selectFunc f g).2 ∧ g'.Issues news' (e.selectFunc f g').2 ∧
    IsRespelling t news news' ρ ∧ cs.map (Code.Block.rename ρ) = cs'

section

variable {e : Engine} {t : NameTable} {g g' : Naming} {f : Ir.Func}

theorem Naming.IsNew.le (h : g.IsNew t) : t ≤ g.table := by
  obtain ⟨t₁, ht, hg, -⟩ := h
  exact NameTable.le_trans ht hg

theorem Naming.IsNew.registersFor (h : g.IsNew t) (tiles : List Tile) :
    (registersFor g tiles).Nodup ∧ ∀ n ∈ CodeTiling.registersFor g tiles, t.isIssued n = false := by
  obtain ⟨t₁, ht, hg, hscope⟩ := h
  have hlog := (FreshLog.ofTable hg hscope).registersFor tiles
  refine ⟨hlog.nodup, fun n hn => Bool.eq_false_iff.2 fun hissued => ?_⟩
  exact Bool.eq_false_iff.1 (hlog.new n hn) (NameTable.isIssued_mono ht hissued)

theorem isRespelling_registersFor (hg : g.IsNew t) (hg' : g'.IsNew t) {tiles : List Tile}
    (hrules : ∀ tile ∈ tiles, ∀ n ∈ tile.rule.names, t.isIssued n = true) :
    ∃ ρ, (registersFor g tiles).map ρ = registersFor g' tiles ∧
      IsRespelling t (registersFor g tiles) (registersFor g' tiles) ρ := by
  obtain ⟨hnodup, hnew⟩ := hg.registersFor tiles
  obtain ⟨hnodup', hnew'⟩ := hg'.registersFor tiles
  have hlength : (registersFor g tiles).length = (registersFor g' tiles).length := by
    rw [length_registersFor hrules hg.le, length_registersFor hrules hg'.le]
  have hmap := map_respell hnodup hlength
  exact ⟨_, hmap, hnew, hnew', bijOn_of_map hmap hnodup', fun _ hn => respell_of_notMem hn⟩

/-- Two runs of a function with new scopes come to the same up to the names of new registers. -/
theorem selectFunc_sameOutcome (he : e.BuiltOn t) (hf : ∀ n ∈ f.names, t.isIssued n = true)
    (hg : g.IsNew t) (hg' : g'.IsNew t) :
    SameOutcome (Respelled e t f g g') (e.selectFunc f g).1 (e.selectFunc f g').1 := by
  have hname : t.isIssued f.name = true := hf _ (by simp [Ir.Func.names])
  have hblocks : ∀ b ∈ f.blocks, ∀ n ∈ b.names, t.isIssued n = true := fun b hb n hn =>
    hf n (List.mem_append_right _ (List.mem_flatMap.2 ⟨b, hb, hn⟩))
  have hlabels : ∀ b ∈ f.blocks, t.isIssued b.label = true := fun b hb =>
    hblocks b hb _ (by simp [Ir.Block.names])
  have hrun : ∀ g : Naming, t ≤ g.table →
      e.selectFunc f g = e.selectBlocks f.name true f.blocks g :=
    fun g hle => selectFunc_run (NameTable.isIssued_mono hle hname)
  rcases selectBlocks_tiled he hname hlabels true with ⟨tss, htss, hok⟩ | ⟨err, herr⟩
  · have hknown := tiles_known hblocks htss
    have hrules : ∀ tile ∈ tss.flatten, ∀ n ∈ tile.rule.names, t.isIssued n = true :=
      fun tile htile => he.issued _ (hknown tile htile).1
    obtain ⟨ρ, hmap, hρ⟩ := isRespelling_registersFor hg hg' hrules
    have h := (hrun g hg.le).trans (hok g hg.le)
    have h' := (hrun g' hg'.le).trans (hok g' hg'.le)
    rw [h, h']
    refine .ok ⟨_, _, ρ, h ▸ .placeAll g _, h' ▸ .placeAll g' _, hρ, ?_⟩
    -- the registers of the function are names of the table, and the renaming leaves those alone
    have hfixed : ∀ n, t.isIssued n = true → ρ n = n := fun n hn =>
      hρ.fixed n fun hmem => by simp [hρ.new n hmem] at hn
    have hbindings : ∀ p ∈ (placeBlocks g tss).flatten, p.tile.bindings.IsIn t.vocabulary := by
      intro p hp
      rw [flatten_placeBlocks] at hp
      refine (hknown p.tile ?_).2
      rw [← map_tile_placeAll g tss.flatten]
      exact List.mem_map_of_mem hp
    rw [placeBlocks_rename hrules hg.le hg'.le hmap, coveredBlocks_rename hfixed hbindings]
  · rw [hrun g hg.le, hrun g' hg'.le, herr g hg.le, herr g' hg'.le]
    exact .error err

end

/-! ### Functions one after another -/

/-- Select functions one after another, each with a scope made when its turn comes, and go on after
a failure. The table is handed on. -/
def Engine.selectEach (e : Engine) (t : NameTable) : List Ir.Func → List Outcome × NameTable
  | [] => ([], t)
  | f :: fs =>
    let (out, t₁) := e.selectFresh t f
    let (outs, t₂) := e.selectEach t₁ fs
    (out :: outs, t₂)

section

variable {e : Engine} {t : NameTable} {funcs : List Ir.Func}

theorem selectEach_outcomes {t' : NameTable} (ht : t ≤ t') :
    List.Forall₂ (fun out f => ∃ t₁, t ≤ t₁ ∧ (e.selectFunc f (.ofTable t₁)).1 = out)
      (e.selectEach t' funcs).1 funcs := by
  induction funcs generalizing t' with
  | nil => exact .nil
  | cons f funcs ih =>
    have hle : t' ≤ (e.selectFunc f (.ofTable t')).2.table :=
      (onlyIssues_selectFunc (.ofTable t')).1
    exact .cons ⟨t', ht, rfl⟩ (ih (NameTable.le_trans ht hle))

theorem selectAll_cons (scope : Scope) (t : NameTable) (i : Nat) (f : Ir.Func) :
    selectAll e scope t i (f :: funcs) =
      Except.within (.func i) (e.selectFunc f ⟨t, scope⟩).1 >>= fun blocks =>
        selectAll e scope (e.selectFunc f ⟨t, scope⟩).2.table (i + 1) funcs >>= fun rest =>
          .ok (blocks :: rest.1, rest.2) := rfl

theorem selectAll_outcomes {scope : Scope} {t' : NameTable} (ht : t ≤ t') (i : Nat) :
    ∃ outs T, List.Forall₂ (fun out f => ∃ t₁, t ≤ t₁ ∧ (e.selectFunc f ⟨t₁, scope⟩).1 = out)
        outs funcs ∧
      selectAll e scope t' i funcs = collect i outs >>= fun bss => .ok (bss, T) := by
  induction funcs generalizing t' i with
  | nil => exact ⟨[], t', .nil, rfl⟩
  | cons f funcs ih =>
    have hle : t' ≤ (e.selectFunc f ⟨t', scope⟩).2.table := (onlyIssues_selectFunc ⟨t', scope⟩).1
    obtain ⟨outs, T, houts, hrest⟩ := ih (NameTable.le_trans ht hle) (i + 1)
    refine ⟨(e.selectFunc f ⟨t', scope⟩).1 :: outs, T, .cons ⟨t', ht, rfl⟩ houts, ?_⟩
    rw [selectAll_cons, hrest, collect, bind_assoc]
    simp only [bind_assoc]
    rfl

/-- With any number of workers each function has the outcome of a run with a scope made on `t`, and
the outcomes are collected in the order of the program. -/
theorem selectFuncs_outcomes (e : Engine) (t : NameTable) (workers : Int)
    (s : Schedule funcs.length) :
    ∃ outs T, List.Forall₂
        (fun out f => ∃ t₁, t ≤ t₁ ∧ (e.selectFunc f ⟨t₁, .ofTable t⟩).1 = out) outs funcs ∧
      selectFuncs e t workers funcs s = collect 0 outs >>= fun bss => .ok (bss, T) := by
  unfold selectFuncs
  split
  · exact selectAll_outcomes (NameTable.le_refl t) 0
  · refine ⟨_, _, ?_, rfl⟩
    conv => arg 3; rw [← List.map_get_finRange funcs]
    refine forall₂_filterMap_map fun i _ => ?_
    have hsome : ((selectPlaces e (.ofTable t) funcs t s.order).1.lookup i).isSome = true :=
      isSome_lookup_selectPlaces i (s.perm.mem_iff.2 (List.mem_finRange i))
    obtain ⟨out, hout⟩ := Option.isSome_iff_exists.1 hsome
    obtain ⟨t₁, g', ht₁, hrun, -⟩ := exists_of_lookup_selectPlaces hout
    exact ⟨out, hout, t₁, ht₁, congrArg Prod.fst hrun⟩

end

/-- Outcomes that belong to the same things one by one, and come to the same for each of them, come
to the same together. -/
theorem collect_along {α β γ : Type} {P : Except Error α → γ → Prop} {Q : Except Error β → γ → Prop}
    {R : γ → α → β → Prop} {xs : List (Except Error α)} {ys : List (Except Error β)} {cs : List γ}
    (hR : ∀ c ∈ cs, ∀ x y, P x c → Q y c → SameOutcome (R c) x y)
    (hxs : List.Forall₂ P xs cs) (hys : List.Forall₂ Q ys cs) (i : Nat) :
    SameOutcome (fun as bs => ∃ pairs : List (α × β), pairs.map Prod.fst = as ∧
        pairs.map Prod.snd = bs ∧ List.Forall₂ (fun c y => R c y.1 y.2) cs pairs)
      (collect i xs) (collect i ys) := by
  induction hxs generalizing ys i with
  | nil =>
    cases hys
    exact .ok ⟨[], rfl, rfl, .nil⟩
  | cons hx _ ih =>
    cases hys with
    | cons hy hys =>
      obtain ⟨hfirst, hR⟩ := List.forall_mem_cons.1 hR
      refine ((hfirst _ _ hx hy).within _).bind fun a b hab => (ih hR hys (i + 1)).bind ?_
      rintro _ _ ⟨pairs, rfl, rfl, hpairs⟩
      exact .ok ⟨(a, b) :: pairs, rfl, rfl, .cons hab hpairs⟩

/-! ### Compilations -/

/-- Blocks of a function with a scope made on `t` and with a scope made later are equal after a
bijection between the registers of the two runs. -/
def RespelledLater (e : Engine) (t : NameTable) (f : Ir.Func) (cs cs' : List Code.Block) : Prop :=
  ∃ t₁ t₂, t ≤ t₁ ∧ t ≤ t₂ ∧ (e.selectFunc f ⟨t₁, .ofTable t⟩).1 = .ok cs ∧
    (e.selectFunc f (.ofTable t₂)).1 = .ok cs' ∧
    Respelled e t f ⟨t₁, .ofTable t⟩ (.ofTable t₂) cs cs'

theorem selectFunc_later {e : Engine} {t t₁ t₂ : NameTable} {f : Ir.Func} (he : e.BuiltOn t)
    (hf : ∀ n ∈ f.names, t.isIssued n = true) (ht₁ : t ≤ t₁) (ht₂ : t ≤ t₂) :
    SameOutcome (RespelledLater e t f) (e.selectFunc f ⟨t₁, .ofTable t⟩).1
      (e.selectFunc f (.ofTable t₂)).1 := by
  have hnew : (⟨t₁, .ofTable t⟩ : Naming).IsNew t := ⟨t, NameTable.le_refl t, ht₁, rfl⟩
  have hnew' : (Naming.ofTable t₂).IsNew t := ⟨t₂, ht₂, NameTable.le_refl t₂, rfl⟩
  refine (selectFunc_sameOutcome he hf hnew hnew').with_eq.imp ?_
  rintro cs cs' ⟨hrespelled, hcs, hcs'⟩
  exact ⟨t₁, t₂, ht₁, ht₂, hcs, hcs', hrespelled⟩

/-- The functions of an assembly have the blocks that they come to one after another, up to a
bijection between new registers for each function. -/
def RespelledFuncs (e : Engine) (t : NameTable) (p : Ir.Program) (a : Assembly Fn)
    (bss : List (List Code.Block)) : Prop :=
  ∃ runs : List (List Code.Block × List Code.Block),
    a = assemble p (runs.map Prod.fst) ∧ bss = runs.map Prod.snd ∧
    List.Forall₂ (fun f run => RespelledLater e t f run.1 run.2) p.funcs runs

/-- A compilation comes to what the functions come to one after another. -/
theorem compile_sameOutcome {e : Engine} {t : NameTable} {p : Ir.Program} (he : e.BuiltOn t)
    (hp : ∀ f ∈ p.funcs, ∀ n ∈ f.names, t.isIssued n = true)
    (hnodup : (p.funcs.map Ir.Func.name).Nodup) (workers : Int) (s : Schedule p.funcs.length) :
    SameOutcome (fun x bss => RespelledFuncs e t p x.1 bss) (compile t e.rules p workers s)
      (collect 0 (e.selectEach t p.funcs).1) := by
  obtain ⟨outs, T, houts, hselect⟩ := selectFuncs_outcomes e t workers s
  have heach := @selectEach_outcomes e t p.funcs t (NameTable.le_refl t)
  have hfuncs : ∀ f ∈ p.funcs, ∀ x y : Outcome,
      (∃ t₁, t ≤ t₁ ∧ (e.selectFunc f ⟨t₁, .ofTable t⟩).1 = x) →
      (∃ t₂, t ≤ t₂ ∧ (e.selectFunc f (.ofTable t₂)).1 = y) →
      SameOutcome (RespelledLater e t f) x y := by
    rintro f hf _ _ ⟨t₁, ht₁, rfl⟩ ⟨t₂, ht₂, rfl⟩
    exact selectFunc_later he (hp f hf) ht₁ ht₂
  rw [compile_of_checked he (duplicateFunc?_eq_none_iff.2 hnodup), hselect, bind_assoc,
    ← bind_pure (collect 0 (e.selectEach t p.funcs).1)]
  refine (collect_along hfuncs houts heach 0).bind ?_
  rintro _ _ ⟨runs, rfl, rfl, hruns⟩
  exact .ok ⟨runs, rfl, rfl, hruns⟩

/-- **A scope decides only how new registers are spelled.** Let an engine be built on a table.

* A function whose names are in the table is selected twice, with any two tables that have grown
  from it and new scopes. Either both runs fail with one error, or their blocks are equal after a
  bijection between the registers that the two runs have issued. Nothing else is renamed, and
  labels, directives, phis and successors are the same.
* So functions that are selected one after another, each with a scope made when its turn comes, and
  a compilation, which makes all scopes first, fail with one error or agree up to such a bijection
  for each function. -/
theorem selectFunc_respelled {e : Engine} {t : NameTable} (he : e.BuiltOn t) :
    (∀ f g g', (∀ n ∈ f.names, t.isIssued n = true) → g.IsNew t → g'.IsNew t →
      SameOutcome (Respelled e t f g g') (e.selectFunc f g).1 (e.selectFunc f g').1) ∧
    (∀ p workers s, (∀ f ∈ p.funcs, ∀ n ∈ f.names, t.isIssued n = true) →
      (p.funcs.map Ir.Func.name).Nodup →
      SameOutcome (fun x bss => RespelledFuncs e t p x.1 bss) (compile t e.rules p workers s)
        (collect 0 (e.selectEach t p.funcs).1)) :=
  ⟨fun _ _ _ hf hg hg' => selectFunc_sameOutcome he hf hg hg',
    fun _ workers s hp hnodup => compile_sameOutcome he hp hnodup workers s⟩

namespace Sample

/-- The table with a text that the sample function would get for its first register. -/
def takenTable : NameTable := (table.intern "t.0").2

end Sample

/-- The sample function has other blocks when the text is taken, and they are the same after a
bijection. Two functions that four workers select come to what they come to one after another. -/
theorem selectFunc_respelled_sample :
    Sample.engine.BuiltOn Sample.table ∧
      (∀ f ∈ Sample.twoFuncs.funcs, ∀ n ∈ f.names, Sample.table.isIssued n = true) ∧
      (∃ cs cs', (Sample.engine.selectFunc Sample.func (.ofTable Sample.table)).1 = .ok cs ∧
        (Sample.engine.selectFunc Sample.func (.ofTable Sample.takenTable)).1 = .ok cs' ∧
        cs ≠ cs' ∧ Respelled Sample.engine Sample.table Sample.func (.ofTable Sample.table)
          (.ofTable Sample.takenTable) cs cs') ∧
      ∃ x bss,
        compile Sample.table Sample.engine.rules Sample.twoFuncs 4 Sample.secondFirst = .ok x ∧
        collect 0 (Sample.engine.selectEach Sample.table Sample.twoFuncs.funcs).1 = .ok bss ∧
        RespelledFuncs Sample.engine Sample.table Sample.twoFuncs x.1 bss := by
  have hp : ∀ f ∈ Sample.twoFuncs.funcs, ∀ n ∈ f.names, Sample.table.isIssued n = true := by
    decide
  have hle : Sample.table ≤ Sample.takenTable := NameTable.le_intern _ _
  have hnew : (Naming.ofTable Sample.table).IsNew Sample.table :=
    ⟨_, NameTable.le_refl _, NameTable.le_refl _, rfl⟩
  have hnew' : (Naming.ofTable Sample.takenTable).IsNew Sample.table :=
    ⟨_, hle, NameTable.le_refl _, rfl⟩
  obtain ⟨hfunc, hprogram⟩ := selectFunc_respelled Sample.builtOn
  have hruns := hfunc Sample.func _ _ (hp _ List.mem_cons_self) hnew hnew'
  obtain ⟨_, hcs', hrespelled⟩ := SameOutcome.exists_of_ok hruns rfl
  obtain ⟨bss, hbss, hfuncs⟩ :=
    (hprogram Sample.twoFuncs 4 Sample.secondFirst hp (by decide)).exists_of_ok rfl
  cases hcs'
  exact ⟨Sample.builtOn, hp, ⟨_, _, rfl, rfl, by decide, hrespelled⟩, _, bss, rfl, hbss, hfuncs⟩

end CodeTiling
