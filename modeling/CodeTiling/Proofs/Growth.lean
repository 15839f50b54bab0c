import CodeTiling.Proofs.Pipeline

/-!
# What rules and selections can do to a compilation

For rules and code of any kind, with parts missing and names that no table knows: a check and a
selection fail with causes of their own, among which two functions of one name are not, and a
selection only adds names to the table.

`FailsOnlyWith Kind.ofSelection` says the first of a check (`failsOnlyWith_ofRules_any`), and
`OnlyIssues` says both of a computation that issues names. It goes through the expansion of
templates (`onlyIssues_expand`), the cover of a block (`onlyIssues_cover`) and the blocks of a
function (`onlyIssues_selectFunc`) along their recursions.
-/

namespace CodeTiling

open Code (Instruction)

/-- The causes that checking any rules and selecting any code with them can fail with. -/
def Kind.ofSelection : List Kind := noRule :: (ofCheck ++ ofGaps)

/-- The check of any rules fails for mistakes of rules only. -/
theorem failsOnlyWith_ofRules_any {t : NameTable} {rules : List Rule} :
    FailsOnlyWith Kind.ofSelection (Engine.ofRules t rules) :=
  .bind (failsOnlyWith_checkRules (by decide) (.inr (by decide))) fun _ _ => .ok _

/-! ### Computations that issue names -/

/-- A computation only adds names to the table in its state, and fails with causes of selection
only. -/
def OnlyIssues {σ α : Type} (table : σ → NameTable) (x : ExceptT Error (StateM σ) α) : Prop :=
  ∀ s, table s ≤ table (x s).2 ∧ FailsOnlyWith Kind.ofSelection (x s).1

namespace OnlyIssues

variable {σ α β : Type} {table : σ → NameTable} {x : ExceptT Error (StateM σ) α}

theorem pure (a : α) : OnlyIssues table (pure a : ExceptT Error (StateM σ) α) :=
  fun _ => ⟨NameTable.le_refl _, .ok a⟩

theorem throw {err : Error} (kind : Kind) (h : err.cause.kind = kind)
    (hkind : kind ∈ Kind.ofSelection) :
    OnlyIssues table (throw err : ExceptT Error (StateM σ) α) :=
  fun _ => ⟨NameTable.le_refl _, .error kind h hkind⟩

theorem get : OnlyIssues table (get : ExceptT Error (StateM σ) σ) :=
  fun _ => ⟨NameTable.le_refl _, .ok _⟩

theorem bind {f : α → ExceptT Error (StateM σ) β} (hx : OnlyIssues table x)
    (hf : ∀ a, OnlyIssues table (f a)) : OnlyIssues table (x >>= f) := by
  intro s
  obtain ⟨hle, hfail⟩ := hx s
  rcases h : x s with ⟨err | a, s'⟩
  · rw [Run.bind_error h]
    rw [h] at hle hfail
    exact ⟨hle, .error _ rfl (hfail err rfl)⟩
  · rw [Run.bind_ok h]
    rw [h] at hle
    exact ⟨NameTable.le_trans hle (hf a s').1, (hf a s').2⟩

theorem within (p : Place) (hx : OnlyIssues table x) :
    OnlyIssues table (ExceptT.adapt (Error.within · p) x) := by
  intro s
  obtain ⟨hle, hfail⟩ := hx s
  rcases h : x s with ⟨err | a, s'⟩
  · rw [Run.adapt_error h]
    rw [h] at hle hfail
    exact ⟨hle, .error _ rfl (hfail err rfl)⟩
  · rw [Run.adapt_ok h]
    rw [h] at hle
    exact ⟨hle, .ok a⟩

theorem le {s s' : σ} {out : Except Error α} (hx : OnlyIssues table x) (h : x s = (out, s')) :
    table s ≤ table s' := by
  have hle := (hx s).1
  rwa [h] at hle

end OnlyIssues

/-! ### Expanding any templates -/

/-- The table of an expansion. -/
def Expansion.table (s : Expansion) : NameTable := s.naming.table

section

variable {b : Bindings}

theorem onlyIssues_textOf {n : Name} : OnlyIssues Expansion.table (textOf n) := by
  refine .bind .get fun s => ?_
  split
  · exact .pure _
  · exact .throw .fatal rfl (by decide)

theorem onlyIssues_newRegister {n : Name} : OnlyIssues Expansion.table (newRegister n) := by
  refine .bind .get fun s => ?_
  split
  · exact .pure _
  · exact .bind onlyIssues_textOf fun stem s => ⟨NameTable.le_intern _ _, .ok _⟩

theorem onlyIssues_expandAtom {a : Atom} : OnlyIssues Expansion.table (expandAtom b a) := by
  cases a with
  | machine r => exact .pure _
  | fresh n => exact .bind onlyIssues_newRegister fun _ => .pure _
  | ref n =>
    refine .bind .get fun s => ?_
    split
    · exact .pure _
    · exact .pure _
    · exact .bind onlyIssues_textOf fun _ => .throw .unbound rfl (by decide)
  | literal n => exact .bind onlyIssues_textOf fun _ => .pure _
  | label n =>
    simp only [expandAtom]
    split
    · exact .pure _
    · exact .bind onlyIssues_textOf fun _ => .throw .unbound rfl (by decide)

theorem onlyIssues_expandTerm {part : AddressPart} {o : Option AddressTerm} :
    OnlyIssues Expansion.table (expandTerm b part o) := by
  rcases o with - | a | -
  · exact .pure _
  · refine .within _ (.bind onlyIssues_expandAtom fun x => ?_)
    split
    · exact .pure _
    · exact .throw .badAddress rfl (by decide)
  · exact .within _ (.throw .badAddress rfl (by decide))

theorem onlyIssues_expandOperand {o : Option TemplateOperand} :
    OnlyIssues Expansion.table (expandOperand b o) := by
  rcases o with - | a | m
  · exact .throw .malformed rfl (by decide)
  · exact onlyIssues_expandAtom
  · exact .bind onlyIssues_expandTerm fun _ => .bind onlyIssues_expandTerm fun _ => .pure _

theorem onlyIssues_expandOperands {m : Mnemonic} {j : Nat} {as : List (Option TemplateOperand)} :
    OnlyIssues Expansion.table (expandOperands b m j as) := by
  induction as generalizing j with
  | nil => exact .pure _
  | cons a as ih =>
    exact .bind (.within _ onlyIssues_expandOperand) fun _ => .bind ih fun _ => .pure _

theorem onlyIssues_expandLines {ls : List (Mnemonic × TemplateLine)} :
    OnlyIssues Expansion.table (expandLines b ls) := by
  induction ls with
  | nil => exact .pure _
  | cons x ls ih =>
    obtain ⟨m, l⟩ := x
    refine .bind ?_ fun _ => .bind ih fun _ => .pure _
    unfold expandLine
    split
    · exact .pure _
    · exact .bind onlyIssues_expandOperands fun _ => .pure _

theorem failsOnlyWith_lineMnemonics {t : NameTable} {ls : List TemplateLine} :
    FailsOnlyWith Kind.ofSelection (lineMnemonics t ls) := by
  refine .mapM fun l _ => ?_
  unfold lineMnemonic
  split
  · exact .error .fatal rfl (by decide)
  split
  · exact .ok _
  · exact .error .unknownMnemonic rfl (by decide)

/-- The expansion of any rule only issues names. -/
theorem onlyIssues_expand {r : Rule} : OnlyIssues Naming.table (r.expand b) := by
  intro g
  have hfail := @failsOnlyWith_lineMnemonics g.table r.template
  unfold Rule.expand
  split
  · rename_i err herr
    exact ⟨NameTable.le_refl _, .error _ rfl (hfail err herr)⟩
  · rename_i ls _
    exact onlyIssues_expandLines { naming := g }

end

/-! ### Selecting any code -/

theorem failsOnlyWith_matchElement {b : Bindings} {p : Option InstrPattern} {x : Option Ir.Instr} :
    FailsOnlyWith Kind.ofSelection (matchElement b p x) := by
  unfold matchElement
  split
  · exact .error .fatal rfl (by decide)
  · exact .ok _
  · split
    · exact .error .fatal rfl (by decide)
    · exact .ok _

theorem failsOnlyWith_matchCode {b : Bindings} {ps : List (Option InstrPattern)}
    {xs : List (Option Ir.Instr)} : FailsOnlyWith Kind.ofSelection (matchCode b ps xs) := by
  induction ps generalizing b xs with
  | nil => exact .ok _
  | cons p ps ih =>
    cases xs with
    | nil => exact .ok _
    | cons x xs =>
      refine .bind failsOnlyWith_matchElement fun o _ => ?_
      cases o with
      | none => exact .ok _
      | some c => exact ih

section

variable {code : List (Option Ir.Instr)} {term : Option Ir.Terminator}

theorem failsOnlyWith_matchAt {p : Pattern} :
    FailsOnlyWith Kind.ofSelection (p.matchAt code term) := by
  unfold Pattern.matchAt
  split
  · exact .ok _
  split
  · exact failsOnlyWith_matchCode
  · exact .ok _
  · split
    · exact .ok _
    · refine .bind failsOnlyWith_matchCode fun o _ => ?_
      cases o with
      | none => exact .ok _
      | some c => exact .ok _

theorem failsOnlyWith_firstMatch {rs : List Rule} :
    FailsOnlyWith Kind.ofSelection (firstMatch code term rs) := by
  induction rs with
  | nil => exact .ok _
  | cons r rs ih =>
    refine .bind failsOnlyWith_matchAt fun o _ => ?_
    cases o with
    | none => exact ih
    | some b =>
      dsimp only
      split
      · exact ih
      · exact .ok _

theorem kind_noRule {pos : Nat} : (noRule pos code term).cause.kind ∈ Kind.ofSelection := by
  unfold noRule
  split
  · exact (by decide : Kind.noRule ∈ Kind.ofSelection)
  · exact (by decide : Kind.fatal ∈ Kind.ofSelection)
  · exact (by decide : Kind.noRule ∈ Kind.ofSelection)
  · exact (by decide : Kind.fatal ∈ Kind.ofSelection)

/-- The loop only issues names. It is not stopped before its end, as a kind for that is not among
those of a selection. -/
theorem onlyIssues_coverFrom {e : Engine} {fuel : Nat} {left : Remaining}
    (hfuel : left.measure ≤ fuel) : OnlyIssues Naming.table (coverFrom e term fuel left) := by
  induction fuel generalizing left with
  | zero =>
    intro g
    rw [coverFrom_of_isDone (Remaining.isDone_of_measure_eq_zero (Nat.le_zero.1 hfuel))]
    exact ⟨NameTable.le_refl _, .ok _⟩
  | succ fuel ih =>
    intro g
    by_cases hdone : left.IsDone
    · rw [coverFrom_of_isDone hdone]
      exact ⟨NameTable.le_refl _, .ok _⟩
    cases hm : firstMatch left.code term e.rules with
    | error err =>
      rw [coverFrom_of_error hdone hm]
      exact ⟨NameTable.le_refl _, .error _ rfl (failsOnlyWith_firstMatch err hm)⟩
    | ok o =>
      cases o with
      | none =>
        rw [coverFrom_of_none hdone hm]
        exact ⟨NameTable.le_refl _, .error _ rfl kind_noRule⟩
      | some rc =>
        obtain ⟨r, c⟩ := rc
        obtain ⟨hidle, hmatch⟩ := firstMatch_some hm
        have hlt := Remaining.measure_after_lt hdone hidle hmatch
        rw [coverFrom_of_some hdone hm]
        have hrest : OnlyIssues Naming.table (coverFrom e term fuel (left.after r.pattern)) :=
          ih (by omega)
        exact OnlyIssues.bind (.within _ onlyIssues_expand)
          (fun _ => .bind hrest fun _ => .pure _) g

end

section

variable {e : Engine} {func : Name} {entry : Bool}

theorem onlyIssues_require {ns : List Name} : OnlyIssues Naming.table (SelectM.require ns) := by
  refine .bind .get fun g => ?_
  split
  · exact .pure _
  · exact .throw .fatal rfl (by decide)

theorem onlyIssues_cover {b : Ir.Block} : OnlyIssues Naming.table (e.cover b) :=
  onlyIssues_coverFrom le_rfl

theorem onlyIssues_selectBlock {b : Ir.Block} :
    OnlyIssues Naming.table (e.selectBlock func entry b) :=
  .bind onlyIssues_require fun _ => .bind .get fun _ => .bind onlyIssues_cover fun _ => .pure _

theorem onlyIssues_selectBlocks {bs : List Ir.Block} :
    OnlyIssues Naming.table (e.selectBlocks func entry bs) := by
  induction bs generalizing entry with
  | nil => exact .pure _
  | cons b bs ih =>
    refine .bind .get fun _ => .bind (.within _ onlyIssues_selectBlock) fun _ => ?_
    exact .bind ih fun _ => .pure _

/-- The selection of any function only issues names. -/
theorem onlyIssues_selectFunc {f : Ir.Func} : OnlyIssues Naming.table (e.selectFunc f) :=
  .bind onlyIssues_require fun _ => onlyIssues_selectBlocks

end

end CodeTiling
