import CodeTiling.Proofs.Interning
import CodeTiling.Proofs.Lockstep
import Mathlib.Order.Bounds.Basic

/-!
# A scope issues the least free number

A scope counts for each stem on its own and skips what was taken when it was made. Its counters are
not needed to say what it issues: on each stem the least number whose text was not in the table when
the scope was made and was not issued by the scope before (`LeastTexts`). What happens in the table
later, and what other scopes issue, makes no difference.

* `Scope.search_firstFree` : the search for a number comes to its end, wherever it starts;
* `Scope.Follows.fresh` : what one name that is issued does to the counters;
* `Session.follows_call`, `Session.follows_run` : along any run of calls the counters of a scope
  follow the names that it has issued;
* `Session.fresh_least` : what this means for the names that a scope issues.
-/

namespace CodeTiling

/-! ### The search for a number -/

namespace Scope

variable {s : Scope} {t : NameTable} {stem : Text}

/-- The search for a free number that starts with one number ends with another one. -/
inductive Search (s : Scope) (t : NameTable) (stem : Text) : Nat → Nat → Prop
  /-- A number whose text is not taken is the one. -/
  | free {n : Nat} (h : s.isTaken t (numbered stem n) = false) : Search s t stem n n
  /-- After a number whose text is taken the next one is tried. -/
  | taken {n m : Nat} (h : s.isTaken t (numbered stem n) = true)
    (rest : Search s t stem (n + 1) m) : Search s t stem n m

theorem search_of_forall {n m : Nat} (hle : n ≤ m) (hfree : s.isTaken t (numbered stem m) = false)
    (htaken : ∀ k, n ≤ k → k < m → s.isTaken t (numbered stem k) = true) :
    s.Search t stem n m := by
  induction hd : m - n generalizing n with
  | zero =>
    obtain rfl : n = m := by omega
    exact .free hfree
  | succ d ih =>
    refine .taken (htaken n (Nat.le_refl n) (by omega)) (ih (by omega) (fun k hk => ?_) (by omega))
    exact htaken k (by omega)

/-- The search comes to its end, with the number that the scope takes. -/
theorem search_firstFree (s : Scope) (t : NameTable) (stem : Text) :
    s.Search t stem (s.counter stem) (s.firstFree t stem) := by
  obtain ⟨hle, hfree, htaken⟩ := s.firstFree_spec t stem
  exact search_of_forall hle hfree htaken

end Scope

/-! ### Least numbers -/

/-- The numbers on a stem whose texts are neither among the names nor among the texts issued. -/
def freeNumbers (names issued : List Text) (stem : Text) : Set Nat :=
  {n | numbered stem n ∉ names ∧ numbered stem n ∉ issued}

/-- What is issued on some stems, one after another, when each takes the least free number. -/
inductive LeastTexts (names : List Text) : List Text → List Text → Prop
  /-- Without a stem there is nothing. -/
  | nil : LeastTexts names [] []
  /-- One more stem takes the least number that is free after the others. -/
  | concat {stems texts : List Text} {stem : Text} {n : Nat} (h : LeastTexts names stems texts)
    (hn : IsLeast (freeNumbers names texts stem) n) :
    LeastTexts names (stems ++ [stem]) (texts ++ [numbered stem n])

namespace LeastTexts

variable {names names' stems texts texts' : List Text}

/-- All texts that are issued are different, also those on different stems. -/
theorem nodup (h : LeastTexts names stems texts) : texts.Nodup := by
  induction h with
  | nil => exact List.nodup_nil
  | concat _ hn ih =>
    rw [List.nodup_append_comm]
    exact List.nodup_cons.2 ⟨hn.1.2, ih⟩

/-- What is issued depends on the stems and on which texts are among the names. -/
theorem unique (hnames : ∀ x, x ∈ names ↔ x ∈ names') (h : LeastTexts names stems texts)
    (h' : LeastTexts names' stems texts') : texts = texts' := by
  induction h generalizing texts' with
  | nil =>
    generalize hs : [] = ss at h'
    cases h' with
    | nil => rfl
    | concat => simp at hs
  | @concat stems texts stem n _ hn ih =>
    generalize hs : stems ++ [stem] = ss at h'
    cases h' with
    | nil => simp at hs
    | @concat stems' texts' stem' m h' hm =>
      obtain ⟨rfl, heq⟩ := List.append_inj' hs rfl
      obtain rfl : stem = stem' := by simpa using heq
      obtain rfl := ih h'
      have hset : freeNumbers names texts stem = freeNumbers names' texts stem := by
        simp only [freeNumbers, hnames]
      rw [hset] at hn
      rw [hn.unique hm]

end LeastTexts

/-! ### Counters -/

/-- The counters of a scope follow the texts that it has issued since it was made on a table. -/
structure Scope.Follows (t : NameTable) (issued : List Text) (s : Scope) : Prop where
  /-- The scope was made on the table. -/
  limit : s.limit = t.size
  /-- A number below the counter was taken or issued. -/
  used : ∀ stem n, n < s.counter stem → numbered stem n ∈ t.texts ∨ numbered stem n ∈ issued
  /-- A number that was issued is below the counter. -/
  below : ∀ stem n, numbered stem n ∈ issued → n < s.counter stem

namespace Scope.Follows

variable {t t' : NameTable} {issued : List Text} {s : Scope}

theorem ofTable (t : NameTable) : (Scope.ofTable t).Follows t [] :=
  ⟨rfl, fun _ _ h => absurd h (Nat.not_lt_zero _), by simp⟩

/-- Taken is what the table had when the scope was made. -/
theorem isTaken_iff_mem (h : s.Follows t issued) (ht : t ≤ t') (text : Text) :
    s.isTaken t' text = true ↔ text ∈ t.texts := by
  rw [isTaken_eq ht h.limit, Option.isSome_iff_exists, NameTable.mem_texts_iff]
  exact exists_congr fun n => NameTable.lookup_iff

theorem isLeast_firstFree (h : s.Follows t issued) (ht : t ≤ t') (stem : Text) :
    IsLeast (freeNumbers t.texts issued stem) (s.firstFree t' stem) := by
  obtain ⟨hle, hfree, htaken⟩ := s.firstFree_spec t' stem
  rw [← Bool.not_eq_true, h.isTaken_iff_mem ht] at hfree
  refine ⟨⟨hfree, fun hmem => ?_⟩, fun n hn => ?_⟩
  · exact Nat.not_lt_of_le hle (h.below stem _ hmem)
  · -- below the counter all are used, and from the counter on the search has passed taken ones only
    by_contra hlt
    rw [not_le] at hlt
    by_cases hcounter : n < s.counter stem
    · exact (h.used stem n hcounter).elim hn.1 hn.2
    · exact hn.1 ((h.isTaken_iff_mem ht _).1 (htaken n (not_lt.1 hcounter) hlt))

/-- After a name is issued the counters follow it too. -/
theorem fresh (h : s.Follows t issued) (ht : t ≤ t') (stem : Text) :
    (s.fresh t' stem).2.2.Follows t (issued ++ [numbered stem (s.firstFree t' stem)]) := by
  obtain ⟨hleast, hmin⟩ := h.isLeast_firstFree ht stem
  have hcounter : ∀ stem', (s.fresh t' stem).2.2.counter stem' =
      if stem' = stem then s.firstFree t' stem + 1 else s.counter stem' :=
    fun stem' => s.counter_next stem stem' _
  refine ⟨h.limit, fun stem' n hn => ?_, fun stem' n hn => ?_⟩
  · rw [hcounter] at hn
    rw [List.mem_append, List.mem_singleton]
    by_cases hstem : stem' = stem
    · subst hstem
      rw [if_pos rfl] at hn
      by_contra hno
      push Not at hno
      -- a number that is not used is free, so that it is not below the one that is issued
      have hge := hmin ⟨hno.1, hno.2.1⟩
      obtain rfl : n = s.firstFree t' stem' := by omega
      exact hno.2.2 rfl
    · rw [if_neg hstem] at hn
      exact (h.used stem' n hn).imp_right .inl
  · rw [hcounter]
    rw [List.mem_append, List.mem_singleton] at hn
    rcases hn with hn | hn
    · have hlt := h.below stem' n hn
      have hle := (s.firstFree_spec t' stem').1
      split
      · rename_i hstem
        subst hstem
        omega
      · exact hlt
    · obtain ⟨rfl, rfl⟩ := numbered_inj hn
      rw [if_pos rfl]
      exact Nat.lt_succ_self _

end Scope.Follows

/-! ### Runs of calls -/

/-- The stem on which a scope is to issue a name. -/
def Call.stem? (i : Nat) : Call → Option Text
  | .fresh j stem => if j = i then some stem else none
  | _ => none

namespace Session

theorem call_fresh {s : Session} {i : Nat} {scope : Scope} (h : s.scopes[i]? = some scope)
    (stem : Text) :
    s.call (.fresh i stem) =
      ([(numbered stem (scope.firstFree s.table stem), (scope.fresh s.table stem).1)],
        ⟨(scope.fresh s.table stem).2.1, s.scopes.set i (scope.fresh s.table stem).2.2⟩) := by
  simp only [call, h]

/-- What a scope issues along a run of calls. -/
def issuedBy (i : Nat) (s : Session) : List Call → List (Text × Name)
  | [] => []
  | c :: cs => (if (c.stem? i).isSome then (s.call c).1 else []) ++ (s.call c).2.issuedBy i cs

theorem issuedBy_sublist (i : Nat) (s : Session) (cs : List Call) :
    (s.issuedBy i cs).Sublist (s.run cs).1 := by
  induction cs generalizing s with
  | nil => exact List.Sublist.refl _
  | cons c cs ih =>
    refine List.Sublist.append ?_ (ih (s.call c).2)
    split
    · exact List.Sublist.refl _
    · exact List.nil_sublist _

/-- The scope has issued texts, each the least that was free, and its counters follow them. -/
structure FollowsScope (t : NameTable) (i : Nat) (stems texts : List Text) (s : Session) :
    Prop where
  /-- The table has grown from the one that the scope was made on. -/
  table : t ≤ s.table
  /-- The texts are the least ones. -/
  least : LeastTexts t.texts stems texts
  /-- The counters follow them. -/
  scope : ∃ scope, s.scopes[i]? = some scope ∧ scope.Follows t texts

section

variable {t : NameTable} {i : Nat} {stems texts : List Text} {s : Session}

/-- **One call.** Only a name that the scope itself issues is added to its texts. -/
theorem follows_call (h : s.FollowsScope t i stems texts) (c : Call) :
    (s.call c).2.FollowsScope t i (stems ++ (c.stem? i).toList)
      (texts ++ (if (c.stem? i).isSome then (s.call c).1 else []).map Prod.fst) := by
  obtain ⟨scope, hscope, hfollows⟩ := h.scope
  have ht : t ≤ (s.call c).2.table := NameTable.le_trans h.table (s.interned_call c).grown
  have hother : c.stem? i = none → (s.call c).2.scopes[i]? = some scope →
      (s.call c).2.FollowsScope t i (stems ++ (c.stem? i).toList)
        (texts ++ (if (c.stem? i).isSome then (s.call c).1 else []).map Prod.fst) := by
    intro hstem hsame
    rw [hstem]
    simpa using FollowsScope.mk ht h.least ⟨scope, hsame, hfollows⟩
  cases c with
  | intern text => exact hother rfl hscope
  | internAll texts => exact hother rfl hscope
  | scope =>
    refine hother rfl ?_
    have hi : i < s.scopes.length := (List.getElem?_eq_some_iff.1 hscope).1
    rw [call, List.getElem?_append_left hi]
    exact hscope
  | fresh j stem =>
    by_cases hj : j = i
    · subst hj
      have hstem : (Call.fresh j stem).stem? j = some stem := by simp [Call.stem?]
      have hi : j < s.scopes.length := (List.getElem?_eq_some_iff.1 hscope).1
      rw [hstem]
      rw [call_fresh hscope] at ht ⊢
      exact ⟨ht, h.least.concat (hfollows.isLeast_firstFree h.table stem), _,
        List.getElem?_set_self hi, hfollows.fresh h.table stem⟩
    · refine hother (by simp [Call.stem?, hj]) ?_
      cases hscope' : s.scopes[j]? with
      | none =>
        simp only [call, hscope']
        exact hscope
      | some other =>
        rw [call_fresh hscope', List.getElem?_set_ne hj]
        exact hscope

/-- **A run of calls.** -/
theorem follows_run (h : s.FollowsScope t i stems texts) (cs : List Call) :
    (s.run cs).2.FollowsScope t i (stems ++ cs.filterMap (Call.stem? i))
      (texts ++ (s.issuedBy i cs).map Prod.fst) := by
  induction cs generalizing s stems texts with
  | nil => simpa [run, issuedBy] using h
  | cons c cs ih =>
    have hrest := ih (follows_call h c)
    have hstems : (c :: cs).filterMap (Call.stem? i) =
        (c.stem? i).toList ++ cs.filterMap (Call.stem? i) := by
      cases hc : c.stem? i <;> simp [hc]
    rw [hstems, issuedBy, List.map_append, ← List.append_assoc, ← List.append_assoc]
    exact hrest

end

theorem follows_start (s : Session) :
    (s.call .scope).2.FollowsScope s.table s.scopes.length [] [] := by
  refine ⟨NameTable.le_refl _, .nil, Scope.ofTable s.table, ?_, .ofTable s.table⟩
  exact List.getElem?_concat_length

theorem follows_made (s : Session) (cs : List Call) :
    ((s.call .scope).2.run cs).2.FollowsScope s.table s.scopes.length
      (cs.filterMap (Call.stem? s.scopes.length))
      (((s.call .scope).2.issuedBy s.scopes.length cs).map Prod.fst) := by
  simpa using follows_run (follows_start s) cs

/-- The names that a scope issues are different when their texts are. -/
theorem nodup_names_issuedBy {i : Nat} {s : Session} {cs : List Call}
    (h : ((s.issuedBy i cs).map Prod.fst).Nodup) : ((s.issuedBy i cs).map Prod.snd).Nodup := by
  have hmem : ∀ x ∈ s.issuedBy i cs, x ∈ (s.run cs).1 :=
    fun x hx => (s.issuedBy_sublist i cs).subset hx
  refine List.Nodup.map_on (fun x hx y hy heq => ?_) (List.Nodup.of_map _ h)
  have htext := ((s.interned_run cs).name_eq_iff (hmem x hx) (hmem y hy)).1 heq
  exact Prod.ext htext heq

/-- **A scope issues the least free number.** Let a scope be made in any session, and let any calls
follow: texts are interned, other scopes are made, this one and the others issue names.

* When the scope is then to issue a name on a stem, its search comes to an end with a number, and
  what it gives out is the name of the text with this number. The number is the least one whose text
  was not in the table when the scope was made and was not issued by the scope before.
* All texts that the scope has issued are different, also those on different stems, and so are
  their names.
* A scope that is made in another session, on a table with the same texts, issues the same texts
  on the same stems, whatever else is called there. -/
theorem fresh_least (s : Session) (cs : List Call) (stem : Text) :
    let i := s.scopes.length
    let start := (s.call .scope).2
    let mid := (start.run cs).2
    let issued := start.issuedBy i cs
    (∃ scope n name, mid.scopes[i]? = some scope ∧
      scope.Search mid.table stem (scope.counter stem) n ∧
      (mid.call (.fresh i stem)).1 = [(numbered stem n, name)] ∧
      (mid.call (.fresh i stem)).2.table.lookup (numbered stem n) = some name ∧
      IsLeast {n | numbered stem n ∉ s.table.texts ∧ numbered stem n ∉ issued.map Prod.fst} n) ∧
    ((issued.map Prod.fst).Nodup ∧ (issued.map Prod.snd).Nodup) ∧
    ∀ (s' : Session) (cs' : List Call), SameNames s.table s'.table →
      cs.filterMap (Call.stem? i) = cs'.filterMap (Call.stem? s'.scopes.length) →
      issued.map Prod.fst =
        ((s'.call .scope).2.issuedBy s'.scopes.length cs').map Prod.fst := by
  intro i start mid issued
  have hfollows := follows_made s cs
  obtain ⟨scope, hscope, hcounters⟩ := hfollows.scope
  refine ⟨⟨scope, scope.firstFree mid.table stem, (scope.fresh mid.table stem).1, hscope,
    scope.search_firstFree _ _, ?_, ?_, hcounters.isLeast_firstFree hfollows.table stem⟩,
    ⟨hfollows.least.nodup, nodup_names_issuedBy hfollows.least.nodup⟩, ?_⟩
  · rw [call_fresh hscope]
  · rw [call_fresh hscope]
    exact NameTable.lookup_of_text (NameTable.text?_intern _ _)
  · intro s' cs' hnames hstems
    have hother := (follows_made s' cs').least
    rw [← hstems] at hother
    exact hfollows.least.unique hnames hother

/-- A session in which the first number on a stem is taken. -/
def oneTaken : Session := ⟨.ofTexts ["", "a.0"] (by decide) rfl, []⟩

/-- The same with a scope that was made earlier. -/
def oneTakenTwoScopes : Session := { oneTaken with scopes := [Scope.ofTable .empty] }

/-- What is interned after the scope is made is not taken for it, and what another scope issues is
not issued by it. -/
theorem fresh_least_oneTaken :
    ((oneTaken.call .scope).2.issuedBy 0
      [.intern "a.1", .fresh 0 "a", .fresh 0 "a"]).map Prod.fst = ["a.1", "a.2"] ∧
    ((oneTakenTwoScopes.call .scope).2.issuedBy 1
      [.fresh 0 "a", .fresh 1 "a", .scope, .fresh 2 "a", .fresh 1 "a"]).map Prod.fst =
        ["a.1", "a.2"] := by
  have hfirst : ((oneTaken.call .scope).2.issuedBy 0
      [.intern "a.1", .fresh 0 "a", .fresh 0 "a"]).map Prod.fst = ["a.1", "a.2"] := by decide
  refine ⟨hfirst, ?_⟩
  rw [← hfirst]
  exact ((fresh_least oneTaken [.intern "a.1", .fresh 0 "a", .fresh 0 "a"] "a").2.2
    oneTakenTwoScopes [.fresh 0 "a", .fresh 1 "a", .scope, .fresh 2 "a", .fresh 1 "a"]
    (fun _ => Iff.rfl) (by decide)).symm

end Session

end CodeTiling
