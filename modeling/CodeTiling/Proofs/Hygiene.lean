import CodeTiling.Proofs.Selected
import Mathlib.Data.List.Nodup

/-!
# New registers are hygienic

A use of a rule gets a register for each of its new-register names. `FreshLog` is the invariant of
the namings on the way: the registers so far are all different, each is numbered below what its
stem tries next, and none is a name that the table had when the scope was made.

* `FreshLog.issue`, `FreshLog.placeAll` : issuing registers keeps the invariant;
* `selectFunc_hygienic` : in the code of a function, one new-register name of one tile is one
  register, different ones are different, and none was a name before.
-/

namespace CodeTiling

/-! ### The names of a function -/

namespace Ir

/-- The name in an operand. -/
def valueNames : Option Value → List Name
  | some (.reg n) => [n]
  | _ => []

/-- What an instruction names apart from its operands: the destination and the function called. -/
def Instr.ownNames : Instr → List Name
  | .binary _ dst .. => [dst]
  | .unary _ dst _ => [dst]
  | .alloca dst => [dst]
  | .load dst _ => [dst]
  | .store .. => []
  | .call dst func _ => [dst, func]

/-- The names in an instruction. -/
def Instr.names (x : Instr) : List Name := x.ownNames ++ x.operands.flatMap valueNames

/-- The names in a terminator. -/
def Terminator.names : Terminator → List Name
  | .ret v => valueNames v
  | .br c t e => valueNames c ++ [t, e]
  | .jmp t => [t]

/-- The names in a phi. -/
def Phi.names (p : Phi) : List Name :=
  p.dst :: p.sources.flatMap fun s => s.block :: valueNames s.value

/-- The names in a block. -/
def Block.names (b : Block) : List Name :=
  b.label :: b.phis.flatMap Phi.names ++ b.code.flatMap (·.elim [] Instr.names) ++
    b.term.elim [] Terminator.names

/-- The names in a function. -/
def Func.names (f : Func) : List Name := f.name :: f.args ++ f.blocks.flatMap Block.names

end Ir

/-! ### Registers so far -/

/-- The registers that a scope made on `t` has issued so far. -/
structure FreshLog (t : NameTable) (g : Naming) (used : List Name) : Prop where
  /-- The scope was made on `t`. -/
  limit : g.scope.limit = t.size
  /-- The table has grown from `t`. -/
  table : t ≤ g.table
  /-- The registers are different. -/
  nodup : used.Nodup
  /-- The number of a register is less than what its stem tries next. -/
  number : ∀ n ∈ used, ∃ stem k, g.table.text? n = some (numbered stem k) ∧
    k < g.scope.counter stem
  /-- No register is a name of `t`. -/
  new : ∀ n ∈ used, t.isIssued n = false

namespace FreshLog

variable {t : NameTable} {g : Naming} {used : List Name}

theorem ofTable (h : t ≤ g.table) (hg : g.scope = Scope.ofTable t) : FreshLog t g [] :=
  ⟨by rw [hg]; rfl, h, List.nodup_nil, by simp, by simp⟩

theorem perm {used' : List Name} (h : FreshLog t g used) (hp : used.Perm used') :
    FreshLog t g used' :=
  ⟨h.limit, h.table, hp.nodup_iff.1 h.nodup, fun n hn => h.number n (hp.mem_iff.2 hn),
    fun n hn => h.new n (hp.mem_iff.2 hn)⟩

/-- One register more. -/
theorem fresh (h : FreshLog t g used) (stem : Text) :
    FreshLog t (Naming.fresh stem g).2 ((Naming.fresh stem g).1 :: used) := by
  have hsize : g.scope.limit ≤ g.table.size := h.limit ▸ NameTable.size_mono h.table
  obtain ⟨n, k, g', hrun, hle, htext, hk, hcounter, hlimit, hnew⟩ := Naming.fresh_spec g stem hsize
  rw [hrun]
  refine ⟨hlimit.trans h.limit, NameTable.le_trans h.table hle, ?_, ?_, ?_⟩
  · -- a register with the same text would have a number below the one just tried
    refine List.nodup_cons.2 ⟨fun hn => ?_, h.nodup⟩
    obtain ⟨stem', k', htext', hk'⟩ := h.number n hn
    have heq := htext.symm.trans (NameTable.text?_mono hle htext')
    obtain ⟨rfl, rfl⟩ := numbered_inj (Option.some.inj heq)
    omega
  · refine List.forall_mem_cons.2 ⟨⟨stem, k, htext, by simp [hcounter]⟩, fun m hm => ?_⟩
    obtain ⟨stem', k', htext', hk'⟩ := h.number m hm
    refine ⟨stem', k', NameTable.text?_mono hle htext', ?_⟩
    rw [hcounter]
    split
    · rename_i heq
      subst heq
      omega
    · exact hk'
  · refine List.forall_mem_cons.2 ⟨?_, h.new⟩
    rw [h.limit] at hnew
    simpa [NameTable.isIssued] using hnew

theorem issue {s : Expansion} (h : FreshLog t s.naming (used ++ s.issued.map Prod.snd))
    (n : Name) : FreshLog t (s.issue n).naming (used ++ (s.issue n).issued.map Prod.snd) := by
  cases hn : s.issued.lookup n with
  | some r => rwa [Expansion.issue_of_lookup_some hn]
  | none =>
    rw [Expansion.issue_of_lookup_none hn]
    exact (h.fresh _).perm List.perm_middle.symm

theorem issueAll {s : Expansion} (h : FreshLog t s.naming (used ++ s.issued.map Prod.snd))
    (ns : List Name) :
    FreshLog t (s.issueAll ns).naming (used ++ (s.issueAll ns).issued.map Prod.snd) := by
  induction ns generalizing s with
  | nil => exact h
  | cons n ns ih => exact ih (h.issue n)

end FreshLog

/-- The registers of a tile. -/
def Placed.newRegisters (p : Placed) : List Name := p.registers.map Prod.snd

/-- Issuing the registers of tiles keeps the invariant. -/
theorem FreshLog.placeAll {t : NameTable} {g : Naming} {used : List Name} (h : FreshLog t g used)
    (tiles : List Tile) :
    FreshLog t (namingAfter g tiles)
      (used ++ (CodeTiling.placeAll g tiles).flatMap Placed.newRegisters) := by
  induction tiles generalizing g used with
  | nil => simpa [CodeTiling.placeAll, namingAfter] using h
  | cons tile tiles ih =>
    have hstart : FreshLog t (⟨g, []⟩ : Expansion).naming
        (used ++ (⟨g, []⟩ : Expansion).issued.map Prod.snd) := by simpa using h
    have hrest := ih (hstart.issueAll tile.rule.freshNames)
    rw [List.append_assoc] at hrest
    exact hrest

/-! ### Registers of tiles -/

theorem Placed.mem_newRegisters {p : Placed} {n x : Name} (h : p.registers.lookup n = some x) :
    (n, x) ∈ p.registers ∧ x ∈ p.newRegisters := by
  have hmem : (n, x) ∈ p.registers := by
    obtain ⟨l, l', heq, -⟩ := List.lookup_eq_some_iff.1 h
    simp [heq]
  exact ⟨hmem, List.mem_map.2 ⟨(n, x), hmem, rfl⟩⟩

/-- A register tells the tile and the new-register name that it was issued for. -/
theorem eq_of_register_eq {ps : List Placed} (hnodup : (ps.flatMap Placed.newRegisters).Nodup)
    {i j : Nat} {p q : Placed} {n m x : Name} (hi : ps[i]? = some p) (hj : ps[j]? = some q)
    (hn : p.registers.lookup n = some x) (hm : q.registers.lookup m = some x) :
    i = j ∧ n = m := by
  obtain ⟨hown, hapart⟩ := List.nodup_flatMap.1 hnodup
  obtain ⟨hilt, hip⟩ := List.getElem?_eq_some_iff.1 hi
  obtain ⟨hjlt, hjq⟩ := List.getElem?_eq_some_iff.1 hj
  obtain ⟨hnmem, hnx⟩ := Placed.mem_newRegisters hn
  obtain ⟨hmmem, hmx⟩ := Placed.mem_newRegisters hm
  have hij : i = j := by
    -- tiles at different places have no register in common
    rcases Nat.lt_trichotomy i j with hlt | heq | hlt
    · have hdisj := List.pairwise_iff_getElem.1 hapart i j hilt hjlt hlt
      rw [Function.onFun, hip, hjq] at hdisj
      exact (hdisj hnx hmx).elim
    · exact heq
    · have hdisj := List.pairwise_iff_getElem.1 hapart j i hjlt hilt hlt
      rw [Function.onFun, hip, hjq] at hdisj
      exact (hdisj hmx hnx).elim
  subst hij
  obtain rfl : p = q := Option.some.inj (hi.symm.trans hj)
  have hpair := List.inj_on_of_nodup_map (hown p (List.mem_of_getElem? hi)) hnmem hmmem rfl
  exact ⟨rfl, (Prod.mk.inj hpair).1⟩

theorem registers_placeAll {g : Naming} {tiles : List Tile} :
    ∀ p ∈ placeAll g tiles, ∃ g', p.registers = (p.tile.rule.issued g').issued := by
  induction tiles generalizing g with
  | nil => simp [placeAll]
  | cons tile tiles ih => exact List.forall_mem_cons.2 ⟨⟨g, rfl⟩, ih⟩

theorem forall₂_placeBlocks {rules : List Rule} {bs : List Ir.Block} {tss : List (List Tile)}
    (h : List.Forall₂ (IsTiling rules) bs tss) (g : Naming) :
    List.Forall₂ (fun b ps => IsTiling rules b (ps.map Placed.tile)) bs (placeBlocks g tss) := by
  induction h generalizing g with
  | nil => exact .nil
  | cons htiles _ ih => exact .cons (by rwa [map_tile_placeAll]) (ih _)

/-! ### Hygiene -/

/-- **New registers are hygienic.** Let a scope be made on a table `t₀` that has all names of the
rules and of a function. When the function is selected with this scope, its code is that of tiles
in place, such that

* within a tile a new-register name and all references to it are the same register,
* a register tells the tile and the name that it is for, over all blocks of the function, and
* no register is a name of `t₀`, so none is a name of the function. -/
theorem selectFunc_hygienic {e : Engine} {t t₀ : NameTable} {g g' : Naming} {f : Ir.Func}
    {cs : List Code.Block} (he : e.BuiltOn t) (ht : t ≤ t₀)
    (hf : ∀ n ∈ f.names, t₀.isIssued n = true) (hg : t₀ ≤ g.table)
    (hscope : g.scope = Scope.ofTable t₀) (h : e.selectFunc f g = (.ok cs, g')) :
    ∃ placed : List (List Placed),
      List.Forall₂ (fun b ps => IsTiling e.rules b (ps.map Placed.tile)) f.blocks placed ∧
      cs.map Code.Block.instructions = placed.map (List.flatMap (Placed.code t)) ∧
      (∀ p ∈ placed.flatten, ∀ n ∈ p.tile.rule.freshNames, ∃ x,
        p.registers.lookup n = some x ∧
        instanceAtom t p.tile.bindings p.registers (.fresh n) = some (.reg (.virtual x)) ∧
        instanceAtom t p.tile.bindings p.registers (.ref n) = some (.reg (.virtual x))) ∧
      (∀ (i j : Nat) (p q : Placed) (n m x : Name),
        placed.flatten[i]? = some p → placed.flatten[j]? = some q →
        p.registers.lookup n = some x → q.registers.lookup m = some x → i = j ∧ n = m) ∧
      (∀ p ∈ placed.flatten, ∀ n x, p.registers.lookup n = some x →
        t₀.isIssued x = false ∧ x ∉ f.names) := by
  have hname : g.table.isIssued f.name = true :=
    NameTable.isIssued_mono hg (hf _ (by simp [Ir.Func.names]))
  rw [selectFunc_run hname] at h
  obtain ⟨tss, htss, hcode⟩ := selectBlocks_ok he (NameTable.le_trans ht hg) h
  have hlog := (FreshLog.ofTable hg hscope).placeAll tss.flatten
  rw [List.nil_append, ← flatten_placeBlocks] at hlog
  refine ⟨placeBlocks g tss, forall₂_placeBlocks htss g, hcode, ?_, ?_, ?_⟩
  · intro p hp n hn
    rw [flatten_placeBlocks] at hp
    obtain ⟨g₁, hregs⟩ := registers_placeAll p hp
    have hsome : (p.registers.lookup n).isSome = true :=
      hregs ▸ Expansion.isSome_lookup_issueAll.2 (.inr hn)
    obtain ⟨x, hx⟩ := Option.isSome_iff_exists.1 hsome
    exact ⟨x, hx, by simp [instanceAtom, hx], by simp [instanceAtom, hx]⟩
  · intro i j p q n m x hi hj hn hm
    exact eq_of_register_eq hlog.nodup hi hj hn hm
  · intro p hp n x hx
    have hnew : t₀.isIssued x = false :=
      hlog.new x (List.mem_flatMap.2 ⟨p, hp, (Placed.mem_newRegisters hx).2⟩)
    refine ⟨hnew, fun hmem => ?_⟩
    rw [hf x hmem] at hnew
    cases hnew

/-- The sample function is selected with a new scope. Its block has two tiles of one rule, which do
not share a register, and no register is a name of the function. -/
theorem selectFunc_hygienic_sample :
    ∃ cs g', Sample.engine.selectFunc Sample.func (.ofTable Sample.table) = (.ok cs, g') ∧
      ∃ placed : List (List Placed),
        cs.map Code.Block.instructions = placed.map (List.flatMap (Placed.code Sample.table)) ∧
        (∀ (i j : Nat) (p q : Placed) (n m x : Name),
          placed.flatten[i]? = some p → placed.flatten[j]? = some q →
          p.registers.lookup n = some x → q.registers.lookup m = some x → i = j ∧ n = m) ∧
        ∀ p ∈ placed.flatten, ∀ n x, p.registers.lookup n = some x →
          Sample.table.isIssued x = false ∧ x ∉ Sample.func.names := by
  refine ⟨_, _, rfl, ?_⟩
  have hf : ∀ n ∈ Sample.func.names, Sample.table.isIssued n = true := by decide
  obtain ⟨placed, -, hcode, -, hdistinct, hnew⟩ := selectFunc_hygienic (g := .ofTable Sample.table)
    Sample.builtOn (NameTable.le_refl _) hf (NameTable.le_refl _) rfl rfl
  exact ⟨placed, hcode, hdistinct, hnew⟩

end CodeTiling
