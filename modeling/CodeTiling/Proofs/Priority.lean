import CodeTiling.Proofs.Progress

/-!
# Rules behind other rules

The first rule that matches wins, so rules that are added behind an engine get a turn only where the
engine would have failed. A selection that succeeds has a winner at each position it comes to, and
the longer list of rules has the same winner there.

* `firstMatch_extend` : the winner stays the winner;
* `coverFrom_extend` : the two runs of the loop go through the same rounds, with the same naming;
* `selectFunc_stable` : what an engine selects stays selected when rules are added behind it.
-/

namespace CodeTiling

open Code (Instruction)

theorem firstMatch_extend {rules rules' : List Rule} (hrules : rules <+: rules')
    {code : List (Option Ir.Instr)} {term : Option Ir.Terminator} {x : Rule × Bindings}
    (h : firstMatch code term rules = .ok (some x)) :
    firstMatch code term rules' = .ok (some x) := by
  obtain ⟨extra, rfl⟩ := hrules
  induction rules with
  | nil => cases h
  | cons r rules ih =>
    rw [firstMatch, Run.except_bind_ok_iff] at h
    obtain ⟨o, hmatch, h⟩ := h
    rw [List.cons_append, firstMatch, Run.except_bind_ok_iff]
    refine ⟨o, hmatch, ?_⟩
    -- a rule that is passed over here is passed over there
    cases o with
    | none => exact ih h
    | some b =>
      dsimp only at h ⊢
      by_cases hidle : r.isIdle = true
      · rw [if_pos hidle] at h ⊢
        exact ih h
      · rwa [if_neg hidle] at h ⊢

section

variable {e e' : Engine} {g g' : Naming}

/-- The loop with more rules goes through the rounds of a run that succeeds. What is left of the
block and the naming are the same before each round, so the winner is. -/
theorem coverFrom_extend (hrules : e.rules <+: e'.rules) {term : Option Ir.Terminator}
    {fuel : Nat} {left : Remaining} {is : List Instruction}
    (h : coverFrom e term fuel left g = (.ok is, g')) :
    coverFrom e' term fuel left g = (.ok is, g') := by
  induction fuel generalizing left g g' is with
  | zero =>
    by_cases hdone : left.IsDone
    · rw [coverFrom_of_isDone hdone] at h ⊢
      exact h
    · rw [coverFrom_zero hdone] at h
      cases h
  | succ fuel ih =>
    by_cases hdone : left.IsDone
    · rw [coverFrom_of_isDone hdone] at h ⊢
      exact h
    cases hm : firstMatch left.code term e.rules with
    | error err =>
      rw [coverFrom_of_error hdone hm] at h
      cases h
    | ok o =>
      cases o with
      | none =>
        rw [coverFrom_of_none hdone hm] at h
        cases h
      | some rc =>
        obtain ⟨r, c⟩ := rc
        rw [coverFrom_of_some hdone hm] at h
        rw [coverFrom_of_some hdone (firstMatch_extend hrules hm)]
        obtain ⟨js, g₁, hexpand, h⟩ := Run.bind_ok_iff.1 h
        obtain ⟨rest, g₂, hrest, h⟩ := Run.bind_ok_iff.1 h
        rw [Run.bind_ok hexpand, Run.bind_ok (ih hrest)]
        exact h

theorem selectBlock_extend (hrules : e.rules <+: e'.rules) {func : Name} {entry : Bool}
    {b : Ir.Block} {c : Code.Block} (h : e.selectBlock func entry b g = (.ok c, g')) :
    e'.selectBlock func entry b g = (.ok c, g') := by
  obtain ⟨hnames, is, hcover, rfl⟩ := selectBlock_ok_iff.1 h
  exact selectBlock_ok_iff.2 ⟨hnames, is, coverFrom_extend hrules hcover, rfl⟩

theorem selectBlocks_extend (hrules : e.rules <+: e'.rules) {func : Name} {entry : Bool}
    {bs : List Ir.Block} {cs : List Code.Block}
    (h : e.selectBlocks func entry bs g = (.ok cs, g')) :
    e'.selectBlocks func entry bs g = (.ok cs, g') := by
  induction bs generalizing entry g g' cs with
  | nil => exact h
  | cons b bs ih =>
    rw [Engine.selectBlocks, Run.bind_ok (Run.get_apply g)] at h ⊢
    obtain ⟨c, g₁, hblock, h⟩ := Run.bind_ok_iff.1 h
    obtain ⟨cs', g₂, hrest, h⟩ := Run.bind_ok_iff.1 h
    have hwithin : SelectM.within (.block (g.table.text b.label))
        (e'.selectBlock func entry b) g = (.ok c, g₁) :=
      Run.adapt_ok (selectBlock_extend hrules (Run.adapt_ok_iff.1 hblock))
    rw [Run.bind_ok hwithin, Run.bind_ok (ih hrest)]
    exact h

theorem selectFunc_extend (hrules : e.rules <+: e'.rules) {f : Ir.Func} {cs : List Code.Block}
    (h : e.selectFunc f g = (.ok cs, g')) : e'.selectFunc f g = (.ok cs, g') := by
  obtain ⟨u, g₁, hrequire, h⟩ := Run.bind_ok_iff.1 h
  rw [Engine.selectFunc, Run.bind_ok hrequire]
  exact selectBlocks_extend hrules h

theorem Engine.rules_of_ofRules {t : NameTable} {rules : List Rule}
    (h : Engine.ofRules t rules = .ok e) : e.rules = rules := by
  obtain ⟨⟨⟩, -, hret⟩ := Run.except_bind_ok_iff.1 h
  cases hret
  rfl

end

/-- **Rules that are added behind others change no selection.** Let some rules pass the check, and
also with more rules behind them. A function that the first ones select is selected by all of them
to the same blocks, and leaves the same naming. -/
theorem selectFunc_stable {t : NameTable} {rules extra : List Rule} {e e' : Engine}
    (he : Engine.ofRules t rules = .ok e) (he' : Engine.ofRules t (rules ++ extra) = .ok e')
    {f : Ir.Func} {g g' : Naming} {cs : List Code.Block} (h : e.selectFunc f g = (.ok cs, g')) :
    e'.selectFunc f g = (.ok cs, g') := by
  have hrules : e.rules <+: e'.rules := by
    rw [Engine.rules_of_ofRules he, Engine.rules_of_ofRules he']
    exact List.prefix_append rules extra
  exact selectFunc_extend hrules h

/-- A rule for both negations of the sample block, behind the rule for one of them, is not used. -/
theorem selectFunc_stable_sample :
    Engine.ofRules Sample.table (Sample.engine.rules ++ [Sample.negateTwice]) =
        .ok ⟨Sample.engine.rules ++ [Sample.negateTwice]⟩ ∧
      ∃ cs g', Sample.engine.selectFunc Sample.func (.ofTable Sample.table) = (.ok cs, g') ∧
        Engine.selectFunc ⟨Sample.engine.rules ++ [Sample.negateTwice]⟩ Sample.func
          (.ofTable Sample.table) = (.ok cs, g') := by
  have hcheck : Engine.ofRules Sample.table (Sample.engine.rules ++ [Sample.negateTwice]) =
      .ok ⟨Sample.engine.rules ++ [Sample.negateTwice]⟩ := rfl
  exact ⟨hcheck, _, _, rfl, selectFunc_stable Sample.builtOn.checked hcheck rfl⟩

end CodeTiling
