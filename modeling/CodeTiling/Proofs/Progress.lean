import CodeTiling.Proofs.Selected

/-!
# Covering rules are never stuck

A rule set covers a block when each of its instructions has a rule for it alone, and its terminator
too. Other rules may stand in front of those and take several instructions at once; wherever they
leave off, the rule for the next instruction alone still matches.

* `Pattern.matchAt_append` : a pattern without a terminator does not see the code behind its match;
* `Engine.Covers.not_noMatch` : a rule matches in front of any instruction and of the terminator;
* `selectFresh_of_covers` : a function with covered blocks is selected.
-/

namespace CodeTiling

/-! ### Rules for one thing alone -/

/-- The rule is for one instruction, which it matches. -/
structure Rule.IsForInstr (r : Rule) (x : Ir.Instr) : Prop where
  /-- The pattern has one element. -/
  single : r.pattern.code.length = 1
  /-- It has no terminator. -/
  noTerm : r.pattern.last = none
  /-- It matches the instruction. -/
  isMatch : ∃ c, r.pattern.matchAt [some x] none = .ok (some c)

/-- The rule is for a terminator without instructions, which it matches. -/
structure Rule.IsForTerm (r : Rule) (x : Ir.Terminator) : Prop where
  /-- The pattern has no instructions. -/
  noCode : r.pattern.code = []
  /-- It has a terminator. -/
  hasTerm : r.pattern.last ≠ none
  /-- It matches the terminator. -/
  isMatch : ∃ c, r.pattern.matchAt [] (some x) = .ok (some c)

/-- Each instruction of a block and its terminator have a rule for them alone. -/
structure Engine.Covers (e : Engine) (b : Ir.Block) : Prop where
  /-- The instructions have one. -/
  instr : ∀ x, some x ∈ b.code → ∃ r ∈ e.rules, r.IsForInstr x
  /-- The terminator has one. -/
  term : ∀ x, b.term = some x → ∃ r ∈ e.rules, r.IsForTerm x

/-! ### Matches and the code behind them -/

theorem matchCode_append {b b' : Bindings} {ps : List (Option InstrPattern)}
    {xs : List (Option Ir.Instr)} (ys : List (Option Ir.Instr))
    (h : matchCode b ps xs = .ok (some b')) : matchCode b ps (xs ++ ys) = .ok (some b') := by
  induction ps generalizing b xs with
  | nil => simpa only [matchCode] using h
  | cons p ps ih =>
    cases xs with
    | nil => cases h
    | cons x xs =>
      obtain ⟨c, hp, h⟩ := matchCode_cons h
      exact Run.except_bind_ok_iff.2 ⟨some c, hp, ih h⟩

/-- A pattern without a terminator does not see the code behind its match, nor the terminator. -/
theorem Pattern.matchAt_append {p : Pattern} {xs : List (Option Ir.Instr)}
    {term : Option Ir.Terminator} {b : Bindings} (hlast : p.last = none)
    (h : p.matchAt xs term = .ok (some b)) (ys : List (Option Ir.Instr))
    (term' : Option Ir.Terminator) : p.matchAt (xs ++ ys) term' = .ok (some b) := by
  obtain ⟨hlen, -⟩ := Pattern.matchAt_length h
  have hlt : ¬xs.length < p.code.length := by omega
  have hlt' : ¬(xs ++ ys).length < p.code.length := by
    rw [List.length_append]
    omega
  simp only [Pattern.matchAt, hlast, if_neg hlt, if_neg hlt'] at h ⊢
  exact matchCode_append ys h

/-! ### Progress -/

section

variable {e : Engine} {b : Ir.Block}

/-- Wherever something is left of a covered block, a rule matches. -/
theorem Engine.Covers.not_noMatch (h : e.Covers b) (hcode : Ir.CodeComplete b.code) {stop : Nat}
    (hleft : stop < b.code.length ∨ (stop = b.code.length ∧ b.term.isSome = true)) :
    ¬NoMatch e.rules (b.code.drop stop) b.term := by
  intro hno
  rcases hleft with hlt | ⟨rfl, hterm⟩
  · -- the rule for the next instruction does not see what comes after it
    obtain ⟨x, hx, -⟩ := hcode _ (List.getElem_mem hlt)
    obtain ⟨r, hr, hrule⟩ := h.instr x (hx ▸ List.getElem_mem hlt)
    obtain ⟨c, hc⟩ := hrule.isMatch
    have hmatch := Pattern.matchAt_append hrule.noTerm hc (b.code.drop (stop + 1)) b.term
    have hnone := hno r hr
    rw [List.drop_eq_getElem_cons hlt, hx] at hnone
    rw [List.singleton_append, hnone] at hmatch
    cases hmatch
  · obtain ⟨x, hx⟩ := Option.isSome_iff_exists.1 hterm
    obtain ⟨r, hr, hrule⟩ := h.term x hx
    obtain ⟨c, hc⟩ := hrule.isMatch
    have hnone := hno r hr
    rw [List.drop_length, hx, hc] at hnone
    cases hnone

theorem Engine.Covers.not_isStuck (h : e.Covers b) (hcode : Ir.CodeComplete b.code)
    {tiles : List Tile} {stop : Nat} : ¬IsStuck e.rules b tiles stop :=
  fun hstuck => h.not_noMatch hcode hstuck.unfinished hstuck.noMatch

end

/-- **Covering rules are never stuck.** With an engine of checked rules, a function of complete code
is selected when its instructions and terminators have rules for them alone. The engine may have any
other rules, and the rules may stand in any order. -/
theorem selectFresh_of_covers {e : Engine} {t t' : NameTable} {f : Ir.Func} (he : e.BuiltOn t)
    (ht : t ≤ t') (hf : f.IsComplete) (hname : t'.isIssued f.name = true)
    (hlabels : ∀ b ∈ f.blocks, t'.isIssued b.label = true)
    (hcovers : ∀ b ∈ f.blocks, e.Covers b) : ∃ cs, (e.selectFresh t' f).1 = .ok cs := by
  have hrun : e.selectFunc f (.ofTable t') = e.selectBlocks f.name true f.blocks (.ofTable t') :=
    selectFunc_run hname
  rcases hselect : e.selectBlocks f.name true f.blocks (.ofTable t') with ⟨err | cs, g'⟩
  · -- a failure is a block that is stuck
    obtain ⟨b, hb, tiles, stop, -, hstuck, -⟩ := selectBlocks_stuck he ht hf hname hlabels hselect
    exact ((hcovers b hb).not_isStuck (hf b hb) hstuck).elim
  · refine ⟨cs, ?_⟩
    simp only [Engine.selectFresh, hrun, hselect]

namespace Sample

/-- Take a negation of a negation for a move. -/
def negateTwice : Rule where
  name := "negateTwice"
  pattern := { code := [some (.unary ⟨12⟩ ⟨4⟩ (.reg ⟨3⟩)), some (.unary ⟨12⟩ ⟨8⟩ (.reg ⟨4⟩))] }
  template := [{ mnemonic := ⟨9⟩, args := [some (.atom (.ref ⟨8⟩)), some (.atom (.ref ⟨3⟩))] }]

/-- The sample rules behind one that takes two instructions. -/
def longEngine : Engine := ⟨[negateTwice, negate, giveBack]⟩

theorem longEngine_builtOn : longEngine.BuiltOn table := ⟨rfl, by decide⟩

theorem isComplete : func.IsComplete := by
  intro b hb
  rw [List.mem_singleton.1 hb]
  exact codeComplete

theorem longEngine_covers : ∀ b ∈ func.blocks, longEngine.Covers b := by
  intro b hb
  rw [List.mem_singleton.1 hb]
  refine ⟨fun x hx => ⟨negate, by simp [longEngine], rfl, rfl, ?_⟩,
    fun x hx => ⟨giveBack, by simp [longEngine], rfl, by simp [giveBack], ?_⟩⟩
  · rcases List.mem_cons.1 hx with hx | hx
    · obtain rfl := Option.some.inj hx
      exact ⟨_, rfl⟩
    · obtain rfl := Option.some.inj (List.mem_singleton.1 hx)
      exact ⟨_, rfl⟩
  · obtain rfl := Option.some.inj hx
    exact ⟨_, rfl⟩

end Sample

/-- The sample function is selected although a rule for two instructions comes first. -/
theorem selectFresh_of_covers_sample :
    Sample.longEngine.BuiltOn Sample.table ∧
      (∀ b ∈ Sample.func.blocks, Sample.longEngine.Covers b) ∧
      ∃ cs, (Sample.longEngine.selectFresh Sample.table Sample.func).1 = .ok cs :=
  ⟨Sample.longEngine_builtOn, Sample.longEngine_covers,
    selectFresh_of_covers Sample.longEngine_builtOn (NameTable.le_refl _) Sample.isComplete
      (by decide) (by decide) Sample.longEngine_covers⟩

end CodeTiling
