import CodeTiling.Proofs.Matched

/-!
# A match binds what the rule announces

`Rule.bindings?` lists the names of a pattern, each once and with the kind of its first occurrence,
without looking at any code. A match gives operands to some names and argument lists to others. For
a rule that passes the check the two agree.

* `mem_map_name_firstBindings`, `nodup_firstBindings` : the list has every name of the pattern once;
* `Bindings.Fits.heldBy` : bindings that fit the kinds hold for each name a thing of its kind, and
  nothing else;
* `Rule.matchAt_announced` : the names of a match are those of the list, with things of the kinds
  that the list says.
-/

namespace CodeTiling

open Code (Operand Register)

/-! ### The first binding of each name -/

section

variable {seen : List Name} {bs : List Binding}

theorem mem_of_mem_firstBindings {c : Binding} (h : c ∈ firstBindings seen bs) : c ∈ bs := by
  induction bs generalizing seen with
  | nil => cases h
  | cons b bs ih =>
    rw [firstBindings] at h
    split at h
    · exact List.mem_cons_of_mem b (ih h)
    · rcases List.mem_cons.1 h with rfl | h
      · exact List.mem_cons_self
      · exact List.mem_cons_of_mem b (ih h)

/-- A name is listed if it occurs and was not seen before. -/
theorem mem_map_name_firstBindings {n : Name} :
    n ∈ (firstBindings seen bs).map (·.name) ↔ n ∈ bs.map (·.name) ∧ n ∉ seen := by
  induction bs generalizing seen with
  | nil => simp [firstBindings]
  | cons b bs ih =>
    rw [firstBindings, List.map_cons, List.mem_cons]
    by_cases hb : b.name ∈ seen
    · -- the head is passed over, and no name that is looked for is its name
      rw [if_pos hb, ih]
      constructor
      · rintro ⟨hn, hseen⟩
        exact ⟨.inr hn, hseen⟩
      · rintro ⟨rfl | hn, hseen⟩
        · exact (hseen hb).elim
        · exact ⟨hn, hseen⟩
    · rw [if_neg hb, List.map_cons, List.mem_cons, ih, List.mem_cons, not_or]
      constructor
      · rintro (rfl | ⟨hn, -, hseen⟩)
        · exact ⟨.inl rfl, hb⟩
        · exact ⟨.inr hn, hseen⟩
      · rintro ⟨hn, hseen⟩
        by_cases heq : n = b.name
        · exact .inl heq
        · exact .inr ⟨hn.resolve_left heq, heq, hseen⟩

/-- No name is listed twice. -/
theorem nodup_firstBindings (seen : List Name) (bs : List Binding) :
    ((firstBindings seen bs).map (·.name)).Nodup := by
  induction bs generalizing seen with
  | nil => exact List.nodup_nil
  | cons b bs ih =>
    rw [firstBindings]
    split
    · exact ih seen
    · rw [List.map_cons, List.nodup_cons]
      refine ⟨fun h => ?_, ih (b.name :: seen)⟩
      exact (mem_map_name_firstBindings.1 h).2 List.mem_cons_self

end

/-! ### Things of a kind -/

/-- What is announced holds in a match: the name stands for a thing of the kind, and for nothing
else. -/
def Binding.HeldBy (b : Bindings) : Binding → Prop
  | ⟨n, .register⟩ => (∃ x, b.value? n = some (.reg (.virtual x))) ∧ b.list? n = none
  | ⟨n, .literal⟩ => (∃ v, b.value? n = some (.imm v)) ∧ b.list? n = none
  | ⟨n, .label⟩ => (∃ x, b.value? n = some (.label x)) ∧ b.list? n = none
  | ⟨n, .function⟩ => (∃ x, b.value? n = some (.addr x)) ∧ b.list? n = none
  | ⟨n, .arguments⟩ => b.value? n = none ∧ ∃ as, b.list? n = some as

section

variable {bound : List Binding} {b : Bindings} {n : Name} {k : BindKind}

/-- A name that stands for no argument list stands for an operand of its kind only. -/
theorem Bindings.Fits.exists_value (hb : b.Fits bound) (hk : kindOf? bound n = some k)
    (hne : k ≠ .arguments) :
    (∃ a, b.value? n = some a ∧ operandKind? a = some k) ∧ b.list? n = none := by
  constructor
  · obtain ⟨a, ha⟩ := hb.hasValue hk hne
    obtain ⟨k', hk', hkind⟩ := hb.value ha
    obtain rfl : k = k' := Option.some.inj (hk.symm.trans hkind)
    exact ⟨a, ha, hk'⟩
  · rw [Option.eq_none_iff_forall_ne_some]
    intro as has
    exact hne (Option.some.inj (hk.symm.trans (hb.list has).1))

/-- A name that stands for an argument list stands for no operand. -/
theorem Bindings.Fits.exists_list (hb : b.Fits bound) (hk : kindOf? bound n = some .arguments) :
    b.value? n = none ∧ ∃ as, b.list? n = some as := by
  refine ⟨?_, hb.hasList hk⟩
  rw [Option.eq_none_iff_forall_ne_some]
  intro a ha
  obtain ⟨k', hk', hkind⟩ := hb.value ha
  -- no operand has the kind of an argument list
  obtain rfl : .arguments = k' := Option.some.inj (hk.symm.trans hkind)
  unfold operandKind? at hk'
  split at hk' <;> cases hk'

/-- Bindings that fit the kinds hold for each name a thing of its kind, and nothing else. -/
theorem Bindings.Fits.heldBy (hb : b.Fits bound) (hk : kindOf? bound n = some k) :
    Binding.HeldBy b ⟨n, k⟩ := by
  by_cases hargs : k = .arguments
  · subst hargs
    exact hb.exists_list hk
  · obtain ⟨⟨a, ha, hkind⟩, hlist⟩ := hb.exists_value hk hargs
    -- the kind of the operand tells its constructor
    unfold operandKind? at hkind
    split at hkind
    · cases hkind
      exact ⟨⟨_, ha⟩, hlist⟩
    · cases hkind
      exact ⟨⟨_, ha⟩, hlist⟩
    · cases hkind
      exact ⟨⟨_, ha⟩, hlist⟩
    · cases hkind
      exact ⟨⟨_, ha⟩, hlist⟩
    · cases hkind

/-- A name stands for something exactly when it has a kind. -/
theorem Bindings.Fits.isSome_iff (hb : b.Fits bound) :
    (b.value? n).isSome = true ∨ (b.list? n).isSome = true ↔ ∃ k, kindOf? bound n = some k := by
  constructor
  · rintro (h | h)
    · obtain ⟨a, ha⟩ := Option.isSome_iff_exists.1 h
      obtain ⟨k, -, hk⟩ := hb.value ha
      exact ⟨k, hk⟩
    · obtain ⟨as, has⟩ := Option.isSome_iff_exists.1 h
      exact ⟨.arguments, (hb.list has).1⟩
  · rintro ⟨k, hk⟩
    by_cases hargs : k = .arguments
    · obtain ⟨as, has⟩ := hb.hasList (hargs ▸ hk)
      exact .inr (Option.isSome_iff_exists.2 ⟨as, has⟩)
    · obtain ⟨a, ha⟩ := hb.hasValue hk hargs
      exact .inl (Option.isSome_iff_exists.2 ⟨a, ha⟩)

end

/-! ### What is announced is what is bound -/

namespace Rule

/-- **A match binds what the rule announces.** A rule that passes the check announces its bindings,
each name once. In every match of the rule the names that stand for an operand or an argument list
are those of the announced bindings, and each of them stands for a thing of the announced kind. -/
theorem matchAt_announced {t : NameTable} {r : Rule} {code : List (Option Ir.Instr)}
    {term : Option Ir.Terminator} {b : Bindings} {k : Nat} (hcheck : r.check t = .ok ())
    (hmatch : r.matchAt code term = .ok (some (b, k))) :
    ∃ bs, r.bindings? = some bs ∧ (bs.map (·.name)).Nodup ∧
      (∀ n, n ∈ bs.map (·.name) ↔ (b.value? n).isSome = true ∨ (b.list? n).isSome = true) ∧
      ∀ c ∈ bs, c.HeldBy b := by
  obtain ⟨bound, hr⟩ := accepted_of_check hcheck
  have hb : b.Fits bound := hr.fits (matchAt_some hmatch)
  have hcomplete : r.pattern.isComplete = true := List.all_eq_true.2 hr.complete
  refine ⟨firstBindings [] r.pattern.elements.flatten, by rw [bindings?, if_pos hcomplete],
    nodup_firstBindings _ _, fun n => ?_, fun c hc => ?_⟩
  · rw [hb.isSome_iff, mem_map_name_firstBindings, List.mem_map]
    constructor
    · rintro ⟨⟨⟨_, k⟩, hc, rfl⟩, -⟩
      exact ⟨k, hr.kinds.2 hc⟩
    · rintro ⟨k, hk⟩
      exact ⟨⟨⟨n, k⟩, hr.kinds.1 hk, rfl⟩, List.not_mem_nil⟩
  · exact hb.heldBy (hr.kinds.2 (mem_of_mem_firstBindings hc))

end Rule

namespace Sample

/-- A pattern with a name of each kind, in which two elements share a register. -/
def addCallBranch : Rule where
  name := "addCallBranch"
  pattern := {
    code := [some (.binary ⟨1⟩ ⟨1⟩ (.reg ⟨2⟩) (.lit ⟨3⟩)), some (.call ⟨4⟩ ⟨5⟩ ⟨6⟩)]
    last := some (.br (.reg ⟨4⟩) ⟨7⟩ ⟨8⟩) }

/-- A sum, a call that takes it, and a branch on what the call gives. -/
def addCallCode : List (Option Ir.Instr) :=
  [some (.binary ⟨1⟩ ⟨11⟩ (some (.reg ⟨12⟩)) (some (.imm 5))),
    some (.call ⟨13⟩ ⟨14⟩ [some (.reg ⟨11⟩), some (.imm 3)])]

theorem matchAt_announced_addCallBranch :
    ∃ b bs, addCallBranch.check .empty = .ok () ∧
      addCallBranch.matchAt addCallCode (some (.br (some (.reg ⟨13⟩)) ⟨15⟩ ⟨16⟩)) =
        .ok (some (b, 2)) ∧
      addCallBranch.bindings? = some bs ∧ bs.length = 8 ∧ ∀ c ∈ bs, c.HeldBy b := by
  have hcheck : addCallBranch.check .empty = .ok () := rfl
  obtain ⟨b, hmatch⟩ : ∃ b, addCallBranch.matchAt addCallCode
      (some (.br (some (.reg ⟨13⟩)) ⟨15⟩ ⟨16⟩)) = .ok (some (b, 2)) := ⟨_, rfl⟩
  obtain ⟨bs, hbs, -, -, hheld⟩ := Rule.matchAt_announced hcheck hmatch
  exact ⟨b, bs, hcheck, hmatch, hbs, by rw [← Option.some.inj hbs]; rfl, hheld⟩

end Sample

end CodeTiling
