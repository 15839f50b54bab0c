import CodeTiling.Proofs.Hygiene
import CodeTiling.Proofs.Substitution

/-!
# Selections as plans

All that a selection does to the table is to ask for fresh names. A `Plan` has the stems that it
asks for in order; what it asks for next and what it comes to may depend on the names that it got.
Which rules match does not depend on names, so a function has a plan that is the same whatever the
table has become since the scopes were made:

* `coverFrom_eq_plan`, `selectBlocks_eq_plan` : covering a block and selecting blocks follow plans;
* `selectFunc_eq_plan` : to select a function is to follow its plan.
-/

namespace CodeTiling

open Code (Instruction)

/-- What a computation asks of the table, and what it comes to. -/
inductive Plan (α : Type) where
  /-- It asks for nothing more. -/
  | done (out : Except Error α)
  /-- It asks for a fresh name on a stem and goes on with the name. -/
  | ask (stem : Text) (next : Name → Plan α)

namespace Plan

variable {α β : Type}

/-- Follow a plan. -/
def run : Plan α → SelectM α
  | done out => fun g => (out, g)
  | ask stem next => fun g => (next (Naming.fresh stem g).1).run (Naming.fresh stem g).2

/-- One plan after another. -/
def bind : Plan α → (α → Plan β) → Plan β
  | done (.ok a), f => f a
  | done (.error err), _ => done (.error err)
  | ask stem next, f => ask stem fun n => (next n).bind f

/-- Add a place to the error of a plan. -/
def within (p : Place) : Plan α → Plan α
  | done out => done (Except.within p out)
  | ask stem next => ask stem fun n => (next n).within p

/-- Ask for names on stems, one after another. -/
def askAll : List Text → (List Name → Plan α) → Plan α
  | [], next => next []
  | stem :: stems, next => ask stem fun n => askAll stems fun ns => next (n :: ns)

theorem run_ask (stem : Text) (next : Name → Plan α) (g : Naming) :
    (ask stem next).run g = (next (Naming.fresh stem g).1).run (Naming.fresh stem g).2 := rfl

theorem run_bind (p : Plan α) (f : α → Plan β) (g : Naming) :
    (p.bind f).run g = (p.run >>= fun a => (f a).run) g := by
  induction p generalizing g with
  | done out => cases out <;> rfl
  | ask stem next ih => exact ih (Naming.fresh stem g).1 (Naming.fresh stem g).2

theorem run_within (p : Place) (q : Plan α) (g : Naming) :
    (q.within p).run g = SelectM.within p q.run g := by
  induction q generalizing g with
  | done out => rfl
  | ask stem next ih => exact ih (Naming.fresh stem g).1 (Naming.fresh stem g).2

theorem run_askAll (stems : List Text) (next : List Name → Plan α) (g : Naming) :
    (askAll stems next).run g = (next (g.freshAll stems).1).run (g.freshAll stems).2 := by
  induction stems generalizing next g with
  | nil => rfl
  | cons stem stems ih => exact ih _ (Naming.fresh stem g).2

/-- Following a plan only adds names. -/
theorem le_run (p : Plan α) (g : Naming) : g.table ≤ (p.run g).2.table := by
  induction p generalizing g with
  | done out => exact NameTable.le_refl _
  | ask stem next ih =>
    have hfresh : g.table ≤ (Naming.fresh stem g).2.table := NameTable.le_intern _ _
    exact NameTable.le_trans hfresh (ih _ _)

/-- A computation whose parts follow plans follows them one after the other. -/
theorem bind_eq_run {x : SelectM α} {f : α → SelectM β} {p : Plan α} {q : α → Plan β} {g : Naming}
    (hx : x g = p.run g) (hf : ∀ a g', g.table ≤ g'.table → f a g' = (q a).run g') :
    (x >>= f) g = (p.bind q).run g := by
  have hle := p.le_run g
  rw [run_bind]
  rcases hrun : p.run g with ⟨err | a, g'⟩
  · rw [Run.bind_error (hx.trans hrun), Run.bind_error hrun]
  · rw [hrun] at hle
    rw [Run.bind_ok (hx.trans hrun), Run.bind_ok hrun, hf a g' hle]

theorem within_eq_run {x : SelectM α} {p : Plan α} {g : Naming} (place : Place)
    (hx : x g = p.run g) : SelectM.within place x g = (p.within place).run g := by
  rw [run_within]
  rcases hrun : p.run g with ⟨err | a, g'⟩
  · rw [SelectM.within, SelectM.within, Run.adapt_error (hx.trans hrun), Run.adapt_error hrun]
  · rw [SelectM.within, SelectM.within, Run.adapt_ok (hx.trans hrun), Run.adapt_ok hrun]

end Plan

/-! ### The plan of a function -/

section

variable (e : Engine) (t : NameTable)

/-- The plan to cover what is left of a block, with at most `fuel` rules. -/
def coverPlan (term : Option Ir.Terminator) : Nat → Remaining → Plan (List Instruction)
  | 0, left =>
    .done (if left.code.isEmpty ∧ ¬left.termLeft then .ok [] else .error Cause.unfinished)
  | fuel + 1, left =>
    if left.code.isEmpty ∧ ¬left.termLeft then .done (.ok [])
    else
      match firstMatch left.code term e.rules with
      | .error err => .done (.error err)
      | .ok none => .done (.error (noRule left.pos left.code term))
      | .ok (some (r, b)) =>
        .askAll (r.freshNames.eraseDups.map t.text) fun names =>
          (coverPlan term fuel (left.after r.pattern)).bind fun rest =>
            .done (.ok (r.instanceOf t b (r.freshNames.eraseDups.zip names).reverse ++ rest))

/-- The plan to select blocks; `entry` says that the first one is the entry. -/
def blocksPlan (func : Name) (entry : Bool) : List Ir.Block → Plan (List Code.Block)
  | [] => .done (.ok [])
  | b :: bs =>
    let left := b.leftAt 0
    let block := (coverPlan e t b.term left.measure left).bind fun is =>
      .done (.ok (coveredBlock t func entry b is))
    (block.within (.block (t.text b.label))).bind fun c =>
      (blocksPlan func false bs).bind fun cs => .done (.ok (c :: cs))

/-- The plan to select a function. -/
def Engine.plan (f : Ir.Func) : Plan (List Code.Block) := blocksPlan e t f.name true f.blocks

end

section

variable {e : Engine} {t : NameTable} {g : Naming}

/-- Covering what is left of a block follows a plan. -/
theorem coverFrom_eq_plan (he : e.BuiltOn t) {term : Option Ir.Terminator} {fuel : Nat}
    {left : Remaining} (ht : t ≤ g.table) :
    coverFrom e term fuel left g = (coverPlan e t term fuel left).run g := by
  induction fuel generalizing left g with
  | zero =>
    by_cases hdone : left.IsDone
    · rw [coverFrom_of_isDone hdone, coverPlan, if_pos (Remaining.isDone_iff.1 hdone)]
      rfl
    · rw [coverFrom_zero hdone, coverPlan, if_neg (Remaining.isDone_iff.not.1 hdone)]
      rfl
  | succ fuel ih =>
    by_cases hdone : left.IsDone
    · rw [coverFrom_of_isDone hdone, coverPlan, if_pos (Remaining.isDone_iff.1 hdone)]
      rfl
    rw [coverPlan, if_neg (Remaining.isDone_iff.not.1 hdone)]
    cases hm : firstMatch left.code term e.rules with
    | error err =>
      rw [coverFrom_of_error hdone hm]
      rfl
    | ok o =>
      cases o with
      | none =>
        rw [coverFrom_of_none hdone hm]
        rfl
      | some rc =>
        obtain ⟨r, c⟩ := rc
        have hfirst := (firstMatch_some_iff he.not_isIdle).1 hm
        have hissued := Rule.issued_eq (he.issued r hfirst.mem) ht
        have hgrown : t ≤ (r.issued g).naming.table := NameTable.le_trans ht (r.le_issued g)
        rw [coverFrom_step he ht hdone hfirst]
        dsimp only
        rw [Plan.run_askAll]
        -- the registers of the rule are the names that the plan asks for
        rw [hissued] at hgrown ⊢
        exact Plan.bind_eq_run (ih hgrown) fun rest g' _ => rfl

/-- Selecting blocks follows a plan. -/
theorem selectBlocks_eq_plan (he : e.BuiltOn t) {func : Name} {entry : Bool}
    {bs : List Ir.Block} (hfunc : t.isIssued func = true)
    (hbs : ∀ b ∈ bs, t.isIssued b.label = true) (ht : t ≤ g.table) :
    e.selectBlocks func entry bs g = (blocksPlan e t func entry bs).run g := by
  induction bs generalizing entry g with
  | nil => rfl
  | cons b bs ih =>
    obtain ⟨hb, hbs⟩ := List.forall_mem_cons.1 hbs
    have hplace : e.selectBlocks func entry (b :: bs) g =
        (do let c ← SelectM.within (.block (t.text b.label)) (e.selectBlock func entry b)
            let cs ← e.selectBlocks func false bs
            return c :: cs : SelectM _) g := by
      rw [Engine.selectBlocks, Run.bind_ok (Run.get_apply g), NameTable.text_mono ht hb]
    have hblock : e.selectBlock func entry b g =
        ((coverPlan e t b.term (b.leftAt 0).measure (b.leftAt 0)).bind fun is =>
          .done (.ok (coveredBlock t func entry b is))).run g := by
      rw [selectBlock_run_of_le ht (isIssued_of_mem_directiveNames hfunc hb)]
      exact Plan.bind_eq_run (coverFrom_eq_plan he ht) fun is g' _ => rfl
    rw [hplace]
    refine Plan.bind_eq_run (Plan.within_eq_run _ hblock) fun c g' hle => ?_
    exact Plan.bind_eq_run (ih hbs (NameTable.le_trans ht hle)) fun cs g'' _ => rfl

/-- To select a function is to follow its plan, whatever names the table has got. -/
theorem selectFunc_eq_plan (he : e.BuiltOn t) {f : Ir.Func}
    (hf : ∀ n ∈ f.names, t.isIssued n = true) (ht : t ≤ g.table) :
    e.selectFunc f g = (e.plan t f).run g := by
  have hname : t.isIssued f.name = true := hf _ (by simp [Ir.Func.names])
  have hlabels : ∀ b ∈ f.blocks, t.isIssued b.label = true := by
    intro b hb
    exact hf _ (List.mem_append_right _ (List.mem_flatMap.2 ⟨b, hb, by simp [Ir.Block.names]⟩))
  rw [selectFunc_run (NameTable.isIssued_mono ht hname)]
  exact selectBlocks_eq_plan he hname hlabels ht

end

end CodeTiling
