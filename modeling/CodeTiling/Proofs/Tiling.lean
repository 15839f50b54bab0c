import CodeTiling.Proofs.Expanded
import CodeTiling.Select.Engine

/-!
# Selection is the greedy tiling

A block is covered by tiles: rules that stand one after another on its code, each of them the first
rule of the engine that matches where it stands. `IsTiling` says that tiles cover a block and its
terminator, `IsStuck` that they end where no rule matches.

* `coverFrom_cases` : what a run of the loop can come to, with the tiles that it has laid and the
  registers that are issued for them (`CoverResult`);
* `cover_of_tiling` : a tiling is what the loop finds;
* `coverFrom_eq_of_le` : the loop comes to its end by itself, so that more rounds change nothing.
-/

namespace CodeTiling

open Code (Instruction Line)

/-! ### Engines -/

/-- The engine comes from checked rules over a table that has issued all their names. -/
structure Engine.BuiltOn (e : Engine) (t : NameTable) : Prop where
  /-- The rules have passed the check. -/
  checked : Engine.ofRules t e.rules = .ok e
  /-- The names of the rules are names of the table. -/
  issued : ∀ r ∈ e.rules, ∀ n ∈ r.names, t.isIssued n = true

theorem accepted_of_checkRules {t : NameTable} {rules : List Rule} {i : Nat}
    (h : checkRules t i rules = .ok ()) : ∀ r ∈ rules, ∃ bound, r.Accepted t bound := by
  induction rules generalizing i with
  | nil => simp
  | cons r rs ih =>
    obtain ⟨⟨⟩, hr, h⟩ := Run.except_bind_ok_iff.1 h
    intro q hq
    rcases List.mem_cons.1 hq with rfl | hq
    · exact Rule.accepted_of_check (Run.within_ok_iff.1 hr)
    · exact ih h q hq

theorem Engine.BuiltOn.accepted {e : Engine} {t : NameTable} (he : e.BuiltOn t) :
    ∀ r ∈ e.rules, ∃ bound, r.Accepted t bound := by
  obtain ⟨⟨⟩, h, -⟩ := Run.except_bind_ok_iff.1 he.checked
  exact accepted_of_checkRules h

theorem Engine.BuiltOn.not_isIdle {e : Engine} {t : NameTable} (he : e.BuiltOn t) :
    ∀ r ∈ e.rules, r.isIdle = false := by
  intro r hmem
  obtain ⟨bound, hr⟩ := he.accepted r hmem
  rcases hr.nonempty with h | h
  · simp [Rule.isIdle, h]
  · cases hl : r.pattern.last with
    | none => exact (h hl).elim
    | some last => simp [Rule.isIdle, hl]

/-! ### Tiles -/

/-- A rule that stands on a block. -/
structure Tile where
  /-- Where the rule stands. -/
  pos : Nat
  /-- The rule. -/
  rule : Rule
  /-- What its names stand for. -/
  bindings : Bindings

/-- The tile covers the terminator. -/
def Tile.CoversTerm (tile : Tile) : Prop := tile.rule.pattern.last ≠ none

section

variable (rules : List Rule)

/-- The rule matches, and no rule in front of it does. -/
def IsFirstMatch (code : List (Option Ir.Instr)) (term : Option Ir.Terminator) (r : Rule)
    (b : Bindings) : Prop :=
  ∃ before after, rules = before ++ r :: after ∧ r.pattern.matchAt code term = .ok (some b) ∧
    ∀ q ∈ before, q.pattern.matchAt code term = .ok none

/-- No rule matches. -/
def NoMatch (code : List (Option Ir.Instr)) (term : Option Ir.Terminator) : Prop :=
  ∀ r ∈ rules, r.pattern.matchAt code term = .ok none

variable (b : Ir.Block)

/-- The tiles stand one after another from a position on up to another one, each of them of the
first rule that matches there. -/
def Greedy : Nat → List Tile → Nat → Prop
  | pos, [], stop => pos = stop
  | pos, tile :: tiles, stop =>
    tile.pos = pos ∧ IsFirstMatch rules (b.code.drop pos) b.term tile.rule tile.bindings ∧
      Greedy (pos + tile.rule.pattern.code.length) tiles stop

/-- The last tile, and no other, covers the terminator when it is to be covered. -/
def EndsWithTerm (wanted : Bool) (tiles : List Tile) : Prop :=
  if wanted then
    ∃ init last, tiles = init ++ [last] ∧ last.CoversTerm ∧ ∀ tile ∈ init, ¬tile.CoversTerm
  else ∀ tile ∈ tiles, ¬tile.CoversTerm

/-- The tiles cover the code from beginning to end, and the last one the terminator if there is
one. -/
structure IsTiling (tiles : List Tile) : Prop where
  /-- The code is covered in order and each part of it once. -/
  code : Greedy rules b 0 tiles b.code.length
  /-- The terminator is covered once, at the end. -/
  term : EndsWithTerm b.term.isSome tiles

/-- The tiles leave something uncovered, and no rule matches where they end. -/
structure IsStuck (tiles : List Tile) (stop : Nat) : Prop where
  /-- The tiles up to there. -/
  code : Greedy rules b 0 tiles stop
  /-- They do not cover the terminator. -/
  term : ∀ tile ∈ tiles, ¬tile.CoversTerm
  /-- No rule matches there. -/
  noMatch : NoMatch rules (b.code.drop stop) b.term
  /-- There is code left or a terminator. -/
  unfinished : stop < b.code.length ∨ (stop = b.code.length ∧ b.term.isSome = true)

end

section

variable {rules : List Rule} {code : List (Option Ir.Instr)} {term : Option Ir.Terminator}

theorem IsFirstMatch.mem {r : Rule} {b : Bindings} (h : IsFirstMatch rules code term r b) :
    r ∈ rules := by
  obtain ⟨before, after, rfl, -⟩ := h
  simp

theorem IsFirstMatch.matchAt {r : Rule} {b : Bindings} (h : IsFirstMatch rules code term r b) :
    r.pattern.matchAt code term = .ok (some b) := by
  obtain ⟨-, -, -, h, -⟩ := h
  exact h

theorem firstMatch_some {r : Rule} {b : Bindings}
    (h : firstMatch code term rules = .ok (some (r, b))) :
    r.isIdle = false ∧ r.pattern.matchAt code term = .ok (some b) := by
  induction rules with
  | nil => cases h
  | cons q rules ih =>
    obtain ⟨o, hm, h⟩ := Run.except_bind_ok_iff.1 h
    cases o with
    | none => exact ih h
    | some c =>
      cases hq : q.isIdle with
      | true => exact ih (by simpa [hq] using h)
      | false =>
        simp only [hq, Bool.false_eq_true, if_false] at h
        cases h
        exact ⟨hq, hm⟩

theorem firstMatch_some_iff (hidle : ∀ r ∈ rules, r.isIdle = false) {r : Rule} {b : Bindings} :
    firstMatch code term rules = .ok (some (r, b)) ↔ IsFirstMatch rules code term r b := by
  induction rules with
  | nil => simp [firstMatch, IsFirstMatch]
  | cons q rules ih =>
    have hq := hidle q List.mem_cons_self
    have ih := ih fun r hr => hidle r (List.mem_cons_of_mem _ hr)
    rw [firstMatch, Run.except_bind_ok_iff]
    constructor
    · rintro ⟨o, hm, h⟩
      cases o with
      | none =>
        obtain ⟨before, after, rfl, hr, hno⟩ := ih.1 h
        refine ⟨q :: before, after, rfl, hr, fun p hp => ?_⟩
        rcases List.mem_cons.1 hp with rfl | hp
        · exact hm
        · exact hno p hp
      | some c =>
        simp only [hq, Bool.false_eq_true, if_false, pure, Except.pure, Except.ok.injEq,
          Option.some.injEq, Prod.mk.injEq] at h
        obtain ⟨rfl, rfl⟩ := h
        exact ⟨[], rules, rfl, hm, by simp⟩
    · rintro ⟨before, after, heq, hr, hno⟩
      cases before with
      | nil =>
        obtain ⟨rfl, rfl⟩ := List.cons.inj heq
        exact ⟨some b, hr, by simp [hq, pure, Except.pure]⟩
      | cons p before =>
        obtain ⟨rfl, rfl⟩ := List.cons.inj heq
        exact ⟨none, hno q List.mem_cons_self,
          ih.2 ⟨before, after, rfl, hr, fun p hp => hno p (List.mem_cons_of_mem _ hp)⟩⟩

theorem firstMatch_none_iff (hidle : ∀ r ∈ rules, r.isIdle = false) :
    firstMatch code term rules = .ok none ↔ NoMatch rules code term := by
  induction rules with
  | nil => simp [firstMatch, NoMatch]
  | cons q rules ih =>
    have hq := hidle q List.mem_cons_self
    have ih := ih fun r hr => hidle r (List.mem_cons_of_mem _ hr)
    rw [firstMatch, Run.except_bind_ok_iff]
    constructor
    · rintro ⟨o, hm, h⟩
      cases o with
      | none =>
        intro r hr
        rcases List.mem_cons.1 hr with rfl | hr
        · exact hm
        · exact ih.1 h r hr
      | some c => simp [hq, pure, Except.pure] at h
    · intro h
      exact ⟨none, h q List.mem_cons_self, ih.2 fun r hr => h r (List.mem_cons_of_mem _ hr)⟩

/-- On complete code with accepted rules the search for a rule comes to an answer. -/
theorem firstMatch_total (hrules : ∀ r ∈ rules, ∀ p ∈ r.pattern.code, p.isSome = true)
    (hcode : Ir.CodeComplete code) : ∃ o, firstMatch code term rules = .ok o := by
  induction rules with
  | nil => exact ⟨none, rfl⟩
  | cons q rules ih =>
    obtain ⟨rest, hrest⟩ := ih fun r hr => hrules r (List.mem_cons_of_mem _ hr)
    obtain ⟨o, ho⟩ := Pattern.matchAt_total (hrules q List.mem_cons_self) hcode
    rcases o with - | c
    · exact ⟨rest, Run.except_bind_ok_iff.2 ⟨none, ho, hrest⟩⟩
    · by_cases hq : q.isIdle = true
      · exact ⟨rest, Run.except_bind_ok_iff.2 ⟨some c, ho, by simp [hq, hrest]⟩⟩
      · exact ⟨some (q, c), Run.except_bind_ok_iff.2 ⟨some c, ho, by simp [hq, pure, Except.pure]⟩⟩

end

/-! ### Tiles in place -/

/-- A tile with the registers that are issued for it. -/
structure Placed where
  /-- The tile. -/
  tile : Tile
  /-- The registers of the new-register names of its rule. -/
  registers : List (Name × Name)

/-- The instructions of a tile in place. -/
def Placed.code (t : NameTable) (p : Placed) : List Instruction :=
  p.tile.rule.instanceOf t p.tile.bindings p.registers

/-- Tiles in place, with registers issued for one after the other. -/
def placeAll (g : Naming) : List Tile → List Placed
  | [] => []
  | tile :: tiles =>
    ⟨tile, (tile.rule.issued g).issued⟩ :: placeAll (tile.rule.issued g).naming tiles

/-- The naming after the registers of tiles are issued. -/
def namingAfter (g : Naming) : List Tile → Naming
  | [] => g
  | tile :: tiles => namingAfter (tile.rule.issued g).naming tiles

/-- Expand the rules of tiles, each over what its names stand for there. -/
def expandTiles (tiles : List Tile) : SelectM (List (List Instruction)) :=
  tiles.mapM fun tile => tile.rule.expand tile.bindings

theorem Rule.le_issued (r : Rule) (g : Naming) : g.table ≤ (r.issued g).naming.table :=
  Expansion.le_issueAll (s := ⟨g, []⟩) r.freshNames

theorem le_namingAfter (g : Naming) (tiles : List Tile) :
    g.table ≤ (namingAfter g tiles).table := by
  induction tiles generalizing g with
  | nil => exact NameTable.le_refl _
  | cons tile tiles ih => exact NameTable.le_trans (tile.rule.le_issued g) (ih _)

section

variable {e : Engine} {t : NameTable} {g : Naming} {b : Ir.Block}

theorem Engine.BuiltOn.expand_run (he : e.BuiltOn t) {code : List (Option Ir.Instr)}
    {term : Option Ir.Terminator} {r : Rule} {c : Bindings}
    (hm : IsFirstMatch e.rules code term r c) (ht : t ≤ g.table) :
    r.expand c g = (.ok (r.instanceOf t c (r.issued g).issued), (r.issued g).naming) := by
  obtain ⟨bound, hr⟩ := he.accepted r hm.mem
  exact Rule.expand_spec hr (he.issued r hm.mem) (hr.fits hm.matchAt) ht

theorem expandTiles_run (he : e.BuiltOn t) {tiles : List Tile} {pos stop : Nat}
    (htiles : Greedy e.rules b pos tiles stop) (ht : t ≤ g.table) :
    expandTiles tiles g = (.ok ((placeAll g tiles).map (Placed.code t)), namingAfter g tiles) := by
  induction tiles generalizing pos g with
  | nil => rfl
  | cons tile tiles ih =>
    obtain ⟨-, hm, hrest⟩ := htiles
    have hrun := ih hrest (NameTable.le_trans ht (tile.rule.le_issued g))
    rw [expandTiles, List.mapM_cons, Run.bind_ok (he.expand_run hm ht), ← expandTiles,
      Run.bind_ok hrun]
    rfl

end

/-! ### The loop -/

namespace Remaining

/-- Nothing is left. -/
def IsDone (left : Remaining) : Prop := left.code = [] ∧ left.termLeft = false

/-- What is left after a rule. -/
def after (left : Remaining) (p : Pattern) : Remaining where
  pos := left.pos + p.code.length
  code := left.code.drop p.code.length
  termLeft := left.termLeft && p.last.isNone

theorem isDone_iff {left : Remaining} :
    left.IsDone ↔ left.code.isEmpty = true ∧ ¬left.termLeft = true := by
  simp [IsDone]

theorem isDone_of_measure_eq_zero {left : Remaining} (h : left.measure = 0) : left.IsDone := by
  obtain ⟨hcode, hterm⟩ := Nat.add_eq_zero_iff.1 h
  exact ⟨List.length_eq_zero_iff.1 hcode, by simpa using hterm⟩

/-- A rule that matches and is not idle uses something up. -/
theorem measure_after_lt {left : Remaining} {term : Option Ir.Terminator} {r : Rule} {c : Bindings}
    (hleft : ¬left.IsDone) (hidle : r.isIdle = false)
    (hm : r.pattern.matchAt left.code term = .ok (some c)) :
    (left.after r.pattern).measure < left.measure := by
  obtain ⟨hlen, hlast⟩ := Pattern.matchAt_length hm
  simp only [measure, after, List.length_drop]
  cases hl : r.pattern.last with
  | none =>
    -- the rule has no terminator, so it has an instruction
    have hpos : 0 < r.pattern.code.length := by
      simpa [Rule.isIdle, hl, List.length_pos_iff] using hidle
    simp only [Option.isNone_none, Bool.and_true]
    omega
  | some last =>
    obtain ⟨heq, -⟩ := hlast (by simp [hl])
    simp only [Option.isNone_some, Bool.and_false, Bool.toNat_false, heq]
    by_cases hcode : left.code = []
    · have hterm : left.termLeft = true := by
        by_contra hterm
        exact hleft ⟨hcode, by simpa using hterm⟩
      simp [hterm]
    · have := List.length_pos_iff.2 hcode
      omega

end Remaining

section

variable {e : Engine} {t : NameTable} {g : Naming} {term : Option Ir.Terminator}
  {left : Remaining} {fuel : Nat}

theorem coverFrom_of_isDone (h : left.IsDone) : coverFrom e term fuel left g = (.ok [], g) := by
  cases fuel with
  | zero => rw [coverFrom, if_pos (Remaining.isDone_iff.1 h)]; rfl
  | succ fuel => rw [coverFrom, if_pos (Remaining.isDone_iff.1 h)]; rfl

theorem coverFrom_zero (h : ¬left.IsDone) :
    coverFrom e term 0 left g = (.error Cause.unfinished, g) := by
  rw [coverFrom, if_neg (Remaining.isDone_iff.not.1 h)]
  rfl

theorem coverFrom_of_error (h : ¬left.IsDone) {err : Error}
    (hm : firstMatch left.code term e.rules = .error err) :
    coverFrom e term (fuel + 1) left g = (.error err, g) := by
  rw [coverFrom, if_neg (Remaining.isDone_iff.not.1 h), hm]
  rfl

theorem coverFrom_of_none (h : ¬left.IsDone) (hm : firstMatch left.code term e.rules = .ok none) :
    coverFrom e term (fuel + 1) left g = (.error (noRule left.pos left.code term), g) := by
  rw [coverFrom, if_neg (Remaining.isDone_iff.not.1 h), hm]
  rfl

theorem coverFrom_of_some (h : ¬left.IsDone) {r : Rule} {c : Bindings}
    (hm : firstMatch left.code term e.rules = .ok (some (r, c))) :
    coverFrom e term (fuel + 1) left g =
      (do let is ← SelectM.within (.appliedRule r.name left.pos) (r.expand c)
          let rest ← coverFrom e term fuel (left.after r.pattern)
          return is ++ rest : SelectM _) g := by
  rw [coverFrom, if_neg (Remaining.isDone_iff.not.1 h), hm]
  rfl

/-- The loop comes to its end by itself: with as many rounds as there is left to cover, more rounds
change nothing. -/
theorem coverFrom_eq_of_le (fuel' : Nat) (h : left.measure ≤ fuel) (h' : left.measure ≤ fuel') :
    coverFrom e term fuel left = coverFrom e term fuel' left := by
  -- a round that lays a tile leaves less to cover, so both fuels last as long as the loop
  induction fuel generalizing fuel' left with
  | zero =>
    funext g
    have hdone := Remaining.isDone_of_measure_eq_zero (Nat.le_zero.1 h)
    rw [coverFrom_of_isDone hdone, coverFrom_of_isDone hdone]
  | succ fuel ih =>
    funext g
    by_cases hdone : left.IsDone
    · rw [coverFrom_of_isDone hdone, coverFrom_of_isDone hdone]
    obtain ⟨fuel', rfl⟩ : ∃ k, fuel' = k + 1 :=
      Nat.exists_eq_succ_of_ne_zero fun h0 =>
        hdone (Remaining.isDone_of_measure_eq_zero (Nat.le_zero.1 (h0 ▸ h')))
    cases hm : firstMatch left.code term e.rules with
    | error err => rw [coverFrom_of_error hdone hm, coverFrom_of_error hdone hm]
    | ok o =>
      cases o with
      | none => rw [coverFrom_of_none hdone hm, coverFrom_of_none hdone hm]
      | some rc =>
        obtain ⟨r, c⟩ := rc
        obtain ⟨hidle, hmatch⟩ := firstMatch_some hm
        have hlt := Remaining.measure_after_lt hdone hidle hmatch
        rw [coverFrom_of_some hdone hm, coverFrom_of_some hdone hm,
          ih fuel' (by omega) (by omega)]

/-- One round of the loop with an engine of checked rules. -/
theorem coverFrom_step (he : e.BuiltOn t) (ht : t ≤ g.table) (hleft : ¬left.IsDone) {r : Rule}
    {c : Bindings} (hm : IsFirstMatch e.rules left.code term r c) :
    coverFrom e term (fuel + 1) left g =
      (do let rest ← coverFrom e term fuel (left.after r.pattern)
          return r.instanceOf t c (r.issued g).issued ++ rest : SelectM _) (r.issued g).naming := by
  have hrun : SelectM.within (.appliedRule r.name left.pos) (r.expand c) g = _ :=
    Run.adapt_ok (he.expand_run hm ht)
  rw [coverFrom_of_some hleft ((firstMatch_some_iff he.not_isIdle).2 hm), Run.bind_ok hrun]

end

/-! ### What a run comes to -/

/-- What is left of a block from a position on, with its terminator. -/
def Ir.Block.leftAt (b : Ir.Block) (pos : Nat) : Remaining where
  pos := pos
  code := b.code.drop pos
  termLeft := b.term.isSome

/-- What the loop comes to from a position on: the tiles that it lays, the registers that are
issued for them, and how it ends. -/
inductive CoverResult (e : Engine) (t : NameTable) (b : Ir.Block) (g : Naming) (pos : Nat) :
    Except Error (List Instruction) × Naming → Prop
  /-- The tiles cover everything. -/
  | covered (tiles : List Tile) (hcode : Greedy e.rules b pos tiles b.code.length)
      (hterm : EndsWithTerm b.term.isSome tiles) :
      CoverResult e t b g pos
        (.ok ((placeAll g tiles).flatMap (Placed.code t)), namingAfter g tiles)
  /-- No rule matches after the tiles. -/
  | stuck (tiles : List Tile) (stop : Nat) (hcode : Greedy e.rules b pos tiles stop)
      (hterm : ∀ tile ∈ tiles, ¬tile.CoversTerm)
      (hno : NoMatch e.rules (b.code.drop stop) b.term) (hleft : ¬(b.leftAt stop).IsDone)
      (hstop : stop ≤ b.code.length) :
      CoverResult e t b g pos
        (.error (noRule stop (b.code.drop stop) b.term), namingAfter g tiles)
  /-- Something is missing in the code after the tiles. -/
  | failed (tiles : List Tile) (stop : Nat) (err : Error)
      (hfail : firstMatch (b.code.drop stop) b.term e.rules = .error err) :
      CoverResult e t b g pos (.error err, namingAfter g tiles)

section

variable {e : Engine} {t : NameTable} {g : Naming} {b : Ir.Block} {pos : Nat} {r : Rule}
  {c : Bindings}

theorem Ir.Block.leftAt_after (h : r.pattern.last = none) :
    (b.leftAt pos).after r.pattern = b.leftAt (pos + r.pattern.code.length) := by
  simp [leftAt, Remaining.after, h]

/-- A rule that covers the terminator is the last one. -/
theorem Ir.Block.isDone_leftAt_after (hpos : pos ≤ b.code.length)
    (hm : r.pattern.matchAt (b.code.drop pos) b.term = .ok (some c))
    (h : r.pattern.last ≠ none) :
    ((b.leftAt pos).after r.pattern).IsDone ∧ pos + r.pattern.code.length = b.code.length := by
  obtain ⟨hlen, -⟩ := (Pattern.matchAt_length hm).2 (Option.isSome_iff_ne_none.2 h)
  rw [List.length_drop] at hlen
  have hend : pos + r.pattern.code.length = b.code.length := by omega
  refine ⟨⟨?_, ?_⟩, hend⟩
  · simp [leftAt, Remaining.after, hend]
  · simp [leftAt, Remaining.after, Option.isSome_iff_ne_none.2 h]

theorem Ir.Block.isDone_leftAt_iff (hpos : pos ≤ b.code.length) :
    (b.leftAt pos).IsDone ↔ pos = b.code.length ∧ b.term = none := by
  simp only [Remaining.IsDone, leftAt, List.drop_eq_nil_iff, Option.isSome_eq_false_iff,
    Option.isNone_iff_eq_none]
  constructor
  · rintro ⟨h, hterm⟩; exact ⟨by omega, hterm⟩
  · rintro ⟨h, hterm⟩; exact ⟨by omega, hterm⟩

theorem EndsWithTerm.cons {wanted : Bool} {tile : Tile} {tiles : List Tile}
    (htile : ¬tile.CoversTerm) :
    EndsWithTerm wanted (tile :: tiles) ↔ EndsWithTerm wanted tiles := by
  cases wanted with
  | false => simp [EndsWithTerm, htile]
  | true =>
    simp only [EndsWithTerm, if_true]
    constructor
    · rintro ⟨init, last, heq, hlast, hinit⟩
      cases init with
      | nil => obtain ⟨rfl, rfl⟩ := List.cons.inj heq; exact (htile hlast).elim
      | cons x init =>
        obtain ⟨rfl, rfl⟩ := List.cons.inj heq
        exact ⟨init, last, rfl, hlast, fun y hy => hinit y (List.mem_cons_of_mem _ hy)⟩
    · rintro ⟨init, last, rfl, hlast, hinit⟩
      refine ⟨tile :: init, last, rfl, hlast, fun y hy => ?_⟩
      rcases List.mem_cons.1 hy with rfl | hy
      · exact htile
      · exact hinit y hy

/-- A tile in front of what the rest of a run comes to. -/
theorem CoverResult.cons {x : SelectM (List Instruction)}
    (hm : IsFirstMatch e.rules (b.code.drop pos) b.term r c) (hlast : r.pattern.last = none)
    (h : CoverResult e t b (r.issued g).naming (pos + r.pattern.code.length)
      (x (r.issued g).naming)) :
    CoverResult e t b g pos
      ((do let rest ← x; return r.instanceOf t c (r.issued g).issued ++ rest : SelectM _)
        (r.issued g).naming) := by
  have htile : ¬(Tile.mk pos r c).CoversTerm := not_not_intro hlast
  generalize hx : x (r.issued g).naming = result at h
  cases h with
  | covered tiles hcode hterm =>
    rw [Run.bind_ok hx]
    exact .covered (⟨pos, r, c⟩ :: tiles) ⟨rfl, hm, hcode⟩ ((EndsWithTerm.cons htile).2 hterm)
  | stuck tiles stop hcode hterm hno hleft hstop =>
    rw [Run.bind_error hx]
    exact .stuck (⟨pos, r, c⟩ :: tiles) stop ⟨rfl, hm, hcode⟩
      (List.forall_mem_cons.2 ⟨htile, hterm⟩) hno hleft hstop
  | failed tiles stop err hfail =>
    rw [Run.bind_error hx]
    exact .failed (⟨pos, r, c⟩ :: tiles) stop err hfail

/-- What the loop comes to from any position on. -/
theorem coverFrom_cases (he : e.BuiltOn t) {fuel : Nat} (ht : t ≤ g.table)
    (hpos : pos ≤ b.code.length) (hfuel : (b.leftAt pos).measure ≤ fuel) :
    CoverResult e t b g pos (coverFrom e b.term fuel (b.leftAt pos) g) := by
  induction fuel generalizing pos g with
  | zero =>
    have hdone := Remaining.isDone_of_measure_eq_zero (Nat.le_zero.1 hfuel)
    obtain ⟨hend, hterm⟩ := (Ir.Block.isDone_leftAt_iff hpos).1 hdone
    rw [coverFrom_of_isDone hdone]
    exact .covered [] hend (by simp [EndsWithTerm, hterm])
  | succ fuel ih =>
    by_cases hdone : (b.leftAt pos).IsDone
    · obtain ⟨hend, hterm⟩ := (Ir.Block.isDone_leftAt_iff hpos).1 hdone
      rw [coverFrom_of_isDone hdone]
      exact .covered [] hend (by simp [EndsWithTerm, hterm])
    cases hm : firstMatch (b.code.drop pos) b.term e.rules with
    | error err =>
      rw [coverFrom_of_error hdone hm]
      exact .failed [] pos err hm
    | ok o =>
      cases o with
      | none =>
        rw [coverFrom_of_none hdone hm]
        exact .stuck [] pos rfl (by simp) ((firstMatch_none_iff he.not_isIdle).1 hm) hdone hpos
      | some rc =>
        obtain ⟨r, c⟩ := rc
        have hfirst := (firstMatch_some_iff he.not_isIdle).1 hm
        have hlt := Remaining.measure_after_lt hdone (he.not_isIdle r hfirst.mem) hfirst.matchAt
        have hlen := (Pattern.matchAt_length hfirst.matchAt).1
        rw [List.length_drop] at hlen
        rw [coverFrom_step he ht hdone hfirst]
        by_cases hlast : r.pattern.last = none
        · rw [Ir.Block.leftAt_after hlast] at hlt ⊢
          exact .cons hfirst hlast
            (ih (NameTable.le_trans ht (r.le_issued g)) (by omega) (by omega))
        · -- the rule covers the terminator, and nothing is left behind it
          obtain ⟨hend, hstop⟩ := Ir.Block.isDone_leftAt_after hpos hfirst.matchAt hlast
          have hterm : b.term.isSome = true :=
            ((Pattern.matchAt_length hfirst.matchAt).2 (Option.isSome_iff_ne_none.2 hlast)).2
          rw [Run.bind_ok (coverFrom_of_isDone hend)]
          exact .covered [⟨pos, r, c⟩] ⟨rfl, hfirst, hstop⟩ (by
            rw [hterm]
            exact ⟨[], _, rfl, hlast, by simp⟩)

theorem EndsWithTerm.eq_nil_of_cons {wanted : Bool} {tile : Tile} {tiles : List Tile}
    (h : EndsWithTerm wanted (tile :: tiles)) (htile : tile.CoversTerm) : tiles = [] := by
  cases wanted with
  | false => exact (h tile List.mem_cons_self htile).elim
  | true =>
    obtain ⟨init, last, heq, -, hinit⟩ := h
    cases init with
    | nil => exact (List.cons.inj heq).2
    | cons x init =>
      obtain ⟨rfl, -⟩ := List.cons.inj heq
      exact (hinit tile List.mem_cons_self htile).elim

theorem Remaining.not_isDone_of_matchAt {left : Remaining} {term : Option Ir.Terminator}
    (hterm : left.termLeft = term.isSome) (hidle : r.isIdle = false)
    (hm : r.pattern.matchAt left.code term = .ok (some c)) : ¬left.IsDone := by
  rintro ⟨hcode, hleft⟩
  obtain ⟨hlen, hlast⟩ := Pattern.matchAt_length hm
  have hnil : r.pattern.code = [] := by simpa [hcode] using hlen
  have hnone : r.pattern.last = none := by
    by_contra hne
    have := (hlast (Option.isSome_iff_ne_none.2 hne)).2
    rw [← hterm, hleft] at this
    cases this
  simp [Rule.isIdle, hnil, hnone] at hidle

/-- Tiles that cover what is left are what the loop finds. -/
theorem coverFrom_of_greedy (he : e.BuiltOn t) (fuel : Nat) (ht : t ≤ g.table)
    (hpos : pos ≤ b.code.length) (hfuel : (b.leftAt pos).measure ≤ fuel) {tiles : List Tile}
    (hcode : Greedy e.rules b pos tiles b.code.length)
    (hterm : EndsWithTerm b.term.isSome tiles) :
    coverFrom e b.term fuel (b.leftAt pos) g =
      (.ok ((placeAll g tiles).flatMap (Placed.code t)), namingAfter g tiles) := by
  induction tiles generalizing pos g fuel with
  | nil =>
    have hnone : b.term = none := by
      cases h : b.term with
      | none => rfl
      | some x => simp [EndsWithTerm, h] at hterm
    exact coverFrom_of_isDone ((Ir.Block.isDone_leftAt_iff hpos).2 ⟨hcode, hnone⟩)
  | cons tile tiles ih =>
    obtain ⟨tpos, r, c⟩ := tile
    obtain ⟨-, hm, hrest⟩ := hcode
    dsimp only at hm hrest
    have hidle := he.not_isIdle r hm.mem
    -- the loop does not stop in front of a tile, as the tile uses something up
    have hleft : ¬(b.leftAt pos).IsDone := Remaining.not_isDone_of_matchAt rfl hidle hm.matchAt
    have hlt := Remaining.measure_after_lt hleft hidle hm.matchAt
    obtain ⟨fuel, rfl⟩ : ∃ k, fuel = k + 1 := Nat.exists_eq_succ_of_ne_zero (by omega)
    rw [coverFrom_step he ht hleft hm]
    by_cases hlast : r.pattern.last = none
    · have hlen := (Pattern.matchAt_length hm.matchAt).1
      rw [List.length_drop] at hlen
      rw [Ir.Block.leftAt_after hlast] at hlt ⊢
      have hrun := ih fuel (NameTable.le_trans ht (r.le_issued g)) (by omega) (by omega)
        hrest ((EndsWithTerm.cons (not_not_intro hlast)).1 hterm)
      rw [Run.bind_ok hrun]
      rfl
    · obtain rfl := hterm.eq_nil_of_cons hlast
      obtain ⟨hend, -⟩ := Ir.Block.isDone_leftAt_after hpos hm.matchAt hlast
      rw [Run.bind_ok (coverFrom_of_isDone hend)]
      rfl

theorem cover_cases (he : e.BuiltOn t) (ht : t ≤ g.table) :
    CoverResult e t b g 0 (e.cover b g) :=
  coverFrom_cases he ht (Nat.zero_le _) le_rfl

theorem cover_of_tiling (he : e.BuiltOn t) (ht : t ≤ g.table) {tiles : List Tile}
    (h : IsTiling e.rules b tiles) :
    e.cover b g = (.ok ((placeAll g tiles).flatMap (Placed.code t)), namingAfter g tiles) :=
  coverFrom_of_greedy he _ ht (Nat.zero_le _) le_rfl h.code h.term

end

end CodeTiling
