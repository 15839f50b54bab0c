import CodeTiling.Code.Assembly
import Mathlib.Data.List.Basic
import Mathlib.Data.List.Induction
import Mathlib.Data.List.Nodup

/-!
# Functions in the order of their emission

An assembly lists names and finds functions by name, and the two are changed by different rules:
a name is listed when it is emitted for the first time, and a function is found as it was emitted
the last time. `Assembly.fns` puts them together again, and emitting a function replaces its entry
or adds one (`Assembly.fns_emitFn`). Along a sequence of emissions

* `Assembly.names_emitAll` : the names are those emitted, without repetitions, the first one of
  each name in its place;
* `Assembly.getFn?_emitAll` : the function of a name is the one emitted last;
* `Assembly.map_getFn?_names` : each name that is listed has its function in the same place.
-/

namespace CodeTiling

/-! ### Lists without repetitions -/

section

variable {α : Type} [BEq α] [LawfulBEq α]

theorem eraseDups_concat (l : List α) (a : α) :
    (l ++ [a]).eraseDups = if a ∈ l then l.eraseDups else l.eraseDups ++ [a] := by
  rw [List.eraseDups_append]
  by_cases h : a ∈ l <;> simp [List.removeAll, h, List.eraseDups_cons]

theorem nodup_eraseDups (l : List α) : l.eraseDups.Nodup := by
  induction l using List.reverseRecOn with
  | nil => simp
  | append_singleton l a ih =>
    rw [eraseDups_concat]
    by_cases h : a ∈ l
    · rwa [if_pos h]
    · rw [if_neg h, List.nodup_append_comm]
      exact List.nodup_cons.2 ⟨mt List.mem_eraseDups.1 h, ih⟩

theorem eraseDups_of_nodup {l : List α} (hl : l.Nodup) : l.eraseDups = l := by
  induction l with
  | nil => rfl
  | cons a l ih =>
    obtain ⟨ha, hl⟩ := List.nodup_cons.1 hl
    have hfilter : (l.filter fun b => !b == a) = l := by
      rw [List.filter_eq_self]
      intro b hb
      simpa using fun h : b = a => ha (h ▸ hb)
    rw [List.eraseDups_cons, hfilter, ih hl]

end

namespace Code.Assembly

variable {φ : Type}

/-! ### Entries -/

/-- Replace the entry of a name where it stands, or add one at the end. -/
def put (name : Name) (f : φ) : List (Name × φ) → List (Name × φ)
  | [] => [(name, f)]
  | (n, g) :: rest => if n = name then (name, f) :: rest else (n, g) :: put name f rest

/-- The entries of some names that are all found, after one of them is found as something else or a
new name is added. -/
theorem put_entries {l : List Name} {g : Name → Option φ} (hl : l.Nodup)
    (hg : ∀ n ∈ l, (g n).isSome = true) (name : Name) (f : φ) :
    put name f (l.filterMap fun n => (g n).map (n, ·)) =
      (if name ∈ l then l else l ++ [name]).filterMap fun n =>
        (if n = name then some f else g n).map (n, ·) := by
  induction l with
  | nil => simp [put]
  | cons m l ih =>
    obtain ⟨hm, hl⟩ := List.nodup_cons.1 hl
    obtain ⟨hsome, hg⟩ := List.forall_mem_cons.1 hg
    obtain ⟨h, hh⟩ := Option.isSome_iff_exists.1 hsome
    simp only [List.filterMap_cons, hh, Option.map_some, put]
    by_cases hname : m = name
    · -- no other entry is of this name
      subst hname
      have hrest : ∀ n ∈ l, (if n = m then some f else g n).map (n, ·) = (g n).map (n, ·) := by
        intro n hn
        rw [if_neg (by rintro rfl; exact hm hn)]
      rw [if_pos rfl, if_pos List.mem_cons_self]
      simp only [List.filterMap_cons, if_pos, Option.map_some, List.filterMap_congr hrest]
    · rw [if_neg hname, ih hl hg]
      by_cases hin : name ∈ l
      · rw [if_pos hin, if_pos (List.mem_cons_of_mem _ hin)]
        simp only [List.filterMap_cons, if_neg hname, hh, Option.map_some]
      · rw [if_neg hin, if_neg (by simp [Ne.symm hname, hin]), List.cons_append]
        simp only [List.filterMap_cons, if_neg hname, hh, Option.map_some]

/-- A search that finds something for each item of a list finds the results in the same places. -/
theorem map_eq_map_some_filterMap {α β : Type} {g : α → Option β} {l : List α}
    (hg : ∀ x ∈ l, (g x).isSome = true) : l.map g = (l.filterMap g).map some := by
  induction l with
  | nil => rfl
  | cons x l ih =>
    obtain ⟨hx, hl⟩ := List.forall_mem_cons.1 hg
    obtain ⟨y, hy⟩ := Option.isSome_iff_exists.1 hx
    rw [List.map_cons, List.filterMap_cons_some hy, List.map_cons, ih hl, hy]

section

variable (a : Assembly φ)

theorem isSome_getFn? : ∀ n ∈ a.names, (a.getFn? n).isSome = true :=
  fun n hn => (a.mem_names n).1 hn

theorem names_emitFn (name : Name) (f : φ) :
    (a.emitFn name f).names = if name ∈ a.names then a.names else a.names ++ [name] := by
  simp only [emitFn, a.mem_names name]

/-- **Emitting a function replaces the entry of its name or adds one.** -/
theorem fns_emitFn (name : Name) (f : φ) : (a.emitFn name f).fns = put name f a.fns := by
  rw [fns, fns, put_entries a.nodup_names a.isSome_getFn?, names_emitFn]
  rfl

/-- Each name that is listed has its function in the same place. -/
theorem map_getFn?_names : a.names.map a.getFn? = a.functions.map some :=
  map_eq_map_some_filterMap a.isSome_getFn?

end

/-! ### Sequences of emissions -/

/-- Emit functions one after another. -/
def emitAll (a : Assembly φ) (es : List (Name × φ)) : Assembly φ :=
  es.foldl (fun a e => a.emitFn e.1 e.2) a

theorem emitAll_concat (a : Assembly φ) (es : List (Name × φ)) (e : Name × φ) :
    a.emitAll (es ++ [e]) = (a.emitAll es).emitFn e.1 e.2 := by
  rw [emitAll, List.foldl_append]
  rfl

section

variable {a : Assembly φ} {es : List (Name × φ)} (ha : a.names = [])
include ha

/-- The names are listed in the order of their first emissions. -/
theorem names_emitAll : (a.emitAll es).names = (es.map Prod.fst).eraseDups := by
  induction es using List.reverseRecOn with
  | nil => exact ha
  | append_singleton es e ih =>
    rw [emitAll_concat, names_emitFn, ih, List.map_append, List.map_singleton, eraseDups_concat]
    simp only [List.mem_eraseDups]

theorem mem_names_emitAll {n : Name} : n ∈ (a.emitAll es).names ↔ n ∈ es.map Prod.fst := by
  rw [names_emitAll ha, List.mem_eraseDups]

omit ha in
/-- An emission among some is the last one of them or stands before it. -/
theorem concat_eq_append_cons_iff {e x : Name × φ} {before after : List (Name × φ)} :
    es ++ [e] = before ++ x :: after ↔
      after = [] ∧ before = es ∧ x = e ∨
        ∃ after', after = after' ++ [e] ∧ es = before ++ x :: after' := by
  constructor
  · intro h
    rcases after.eq_nil_or_concat with rfl | ⟨after', e', rfl⟩
    · obtain ⟨hes, he⟩ := List.append_inj' h rfl
      exact .inl ⟨rfl, hes.symm, (List.singleton_inj.1 he).symm⟩
    · rw [List.concat_eq_append, ← List.cons_append, ← List.append_assoc] at h
      obtain ⟨hes, he⟩ := List.append_inj' h rfl
      exact .inr ⟨after', by rw [List.concat_eq_append, List.singleton_inj.1 he], hes⟩
  · rintro (⟨rfl, rfl, rfl⟩ | ⟨after', rfl, rfl⟩)
    · rfl
    · simp

/-- The function of a name is the one emitted last. -/
theorem getFn?_emitAll {n : Name} {f : φ} :
    (a.emitAll es).getFn? n = some f ↔
      ∃ before after, es = before ++ (n, f) :: after ∧ n ∉ after.map Prod.fst := by
  induction es using List.reverseRecOn with
  | nil =>
    constructor
    · intro hf
      have hn := (a.mem_names n).2 (Option.isSome_iff_exists.2 ⟨f, hf⟩)
      rw [ha] at hn
      exact absurd hn List.not_mem_nil
    · rintro ⟨before, after, h, -⟩
      simp at h
  | append_singleton es e ih =>
    rw [emitAll_concat]
    show (if n = e.1 then some e.2 else (a.emitAll es).getFn? n) = some f ↔ _
    simp only [concat_eq_append_cons_iff]
    by_cases hn : n = e.1
    · rw [if_pos hn]
      constructor
      · rintro ⟨⟩
        exact ⟨es, [], .inl ⟨rfl, rfl, by rw [hn]⟩, by simp⟩
      · rintro ⟨before, after, ⟨rfl, rfl, rfl⟩ | ⟨after', rfl, -⟩, hafter⟩
        · rfl
        · exact absurd hafter (by simp [hn])
    · rw [if_neg hn, ih]
      constructor
      · rintro ⟨before, after, hes, hafter⟩
        exact ⟨before, after ++ [e], .inr ⟨after, rfl, hes⟩, by simp_all⟩
      · rintro ⟨before, after, ⟨rfl, rfl, rfl⟩ | ⟨after', rfl, hes⟩, hafter⟩
        · exact absurd rfl hn
        · exact ⟨before, after', hes, by simp_all⟩

/-- When no name is emitted twice, the names are listed as they are emitted and each one has its
function. -/
theorem emitAll_of_nodup (hes : (es.map Prod.fst).Nodup) :
    (a.emitAll es).names = es.map Prod.fst ∧ ∀ e ∈ es, (a.emitAll es).getFn? e.1 = some e.2 := by
  refine ⟨by rw [names_emitAll ha, eraseDups_of_nodup hes], fun e he => ?_⟩
  obtain ⟨before, after, rfl⟩ := List.append_of_mem he
  refine (getFn?_emitAll ha).2 ⟨before, after, rfl, ?_⟩
  rw [List.map_append, List.map_cons] at hes
  exact (List.nodup_cons.1 (List.nodup_append.1 hes).2.1).1

end

end Code.Assembly

end CodeTiling
