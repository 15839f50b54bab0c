import CodeTiling.Proofs.Lockstep
import CodeTiling.Proofs.Plans
import CodeTiling.Select.Compile
import Mathlib.Logic.Function.Basic

/-!
# Workers that take turns at the table

Several workers select functions at the same time and share the table. A worker uses it for one
operation at a turn: it looks up the next text on the stem that its plan asks for, or it puts the
text that it has found free into the table. A `Crew` is a table with its workers, and a run of it is
a list of turns in any order whatsoever.

The scopes are made before the first turn, and only what was in the table then counts as taken. So a
worker finds the same texts free as it would alone, and what the others do decides no more than the
numbers of its names:

* `Worker.OnTrack` : what a worker has done so far agrees with its plan from the beginning, followed
  without a break on any table that has grown from here;
* `Crew.onTrack_run` : this holds for all workers along every run;
* `Crew.selectFunc_of_run` : a worker that is done has come to what the function comes to on the
  table as it is then;
* `Crew.exists_run_done` : no run is stuck, as there are turns with which all workers get done.
-/

namespace CodeTiling

/-! ### Crews -/

/-- A worker in the middle of a selection. -/
structure Worker where
  /-- The scope of its function. -/
  scope : Scope
  /-- What is left to do. -/
  plan : Plan (List Code.Block)
  /-- How many numbers it has found taken on the stem that the plan asks for. -/
  tries : Nat := 0
  /-- Whether the text of the next number has been found free. -/
  found : Bool := false

namespace Worker

/-- The number on a stem that is looked up next or has been found free. -/
def candidate (w : Worker) (stem : Text) : Nat := w.scope.counter stem + w.tries

/-- One operation on the table. -/
def step (w : Worker) (t : NameTable) : Worker × NameTable :=
  match w.plan with
  | .done _ => (w, t)
  | .ask stem next =>
    let n := w.candidate stem
    if w.found then
      let (name, t') := t.intern (numbered stem n)
      ({ scope := ⟨w.scope.limit, (stem, n + 1) :: w.scope.next⟩, plan := next name }, t')
    else if w.scope.isTaken t (numbered stem n) then ({ w with tries := w.tries + 1 }, t)
    else ({ w with found := true }, t)

/-- What a worker has come to, when it is done. -/
def outcome? (w : Worker) : Option Outcome :=
  match w.plan with
  | .done out => some out
  | .ask .. => none

end Worker

/-- Workers that share a table. -/
structure Crew (n : Nat) where
  /-- The table. -/
  table : NameTable
  /-- The workers. -/
  worker : Fin n → Worker

namespace Crew

variable {n : Nat}

/-- A worker for each function, with scopes made on the table. -/
def start (e : Engine) (t : NameTable) (funcs : List Ir.Func) : Crew funcs.length where
  table := t
  worker i := { scope := .ofTable t, plan := e.plan t (funcs.get i) }

/-- It is the turn of a worker. -/
def turn (c : Crew n) (i : Fin n) : Crew n where
  table := ((c.worker i).step c.table).2
  worker := Function.update c.worker i ((c.worker i).step c.table).1

/-- Turns, one after another. -/
def run (c : Crew n) (turns : List (Fin n)) : Crew n := turns.foldl turn c

/-- All workers are done. -/
def IsDone (c : Crew n) : Prop := ∀ i, (c.worker i).outcome?.isSome = true

/-- What a crew that is done has come to: the blocks of all functions, or the error of the first one
that failed. -/
def result (c : Crew n) : Except Error (List (List Code.Block) × NameTable) := do
  let blocks ← collect 0 ((List.finRange n).filterMap fun i => (c.worker i).outcome?)
  return (blocks, c.table)

end Crew

/-! ### What a turn does -/

/-- The first free number from the counter on is the one that a scope takes. -/
theorem Scope.firstFree_eq {s : Scope} {t : NameTable} {stem : Text} {n : Nat}
    (hle : s.counter stem ≤ n) (hfree : s.isTaken t (numbered stem n) = false)
    (htaken : ∀ k, s.counter stem ≤ k → k < n → s.isTaken t (numbered stem k) = true) :
    s.firstFree t stem = n := by
  obtain ⟨hle', hfree', htaken'⟩ := s.firstFree_spec t stem
  rcases Nat.lt_trichotomy (s.firstFree t stem) n with h | h | h
  · rw [htaken _ hle' h] at hfree'
    cases hfree'
  · exact h
  · rw [htaken' n hle h] at hfree
    cases hfree

namespace Worker

variable {w : Worker} {t T : NameTable} {stem : Text} {next : Name → Plan (List Code.Block)}

theorem step_done {out : Outcome} (hplan : w.plan = .done out) : w.step T = (w, T) := by
  rw [step, hplan]

theorem step_found (hplan : w.plan = .ask stem next) (hfound : w.found = true) :
    w.step T =
      ({ scope := ⟨w.scope.limit, (stem, w.candidate stem + 1) :: w.scope.next⟩,
         plan := next (T.intern (numbered stem (w.candidate stem))).1 },
        (T.intern (numbered stem (w.candidate stem))).2) := by
  rw [step, hplan]
  simp only [hfound, if_true]

theorem step_taken (hplan : w.plan = .ask stem next) (hfound : w.found = false)
    (htaken : w.scope.isTaken T (numbered stem (w.candidate stem)) = true) :
    w.step T = ({ w with tries := w.tries + 1 }, T) := by
  rw [step, hplan]
  simp only [hfound, htaken, if_true, Bool.false_eq_true, if_false]

theorem step_free (hplan : w.plan = .ask stem next) (hfound : w.found = false)
    (hfree : w.scope.isTaken T (numbered stem (w.candidate stem)) = false) :
    w.step T = ({ w with found := true }, T) := by
  rw [step, hplan]
  simp only [hfound, hfree, Bool.false_eq_true, if_false]

/-- What an operation does: nothing when the worker is done, and otherwise it puts the text that was
found free into the table, or it finds the next one taken or free. -/
theorem step_cases (w : Worker) (T : NameTable) :
    (∃ out, w.plan = .done out ∧ w.step T = (w, T)) ∨
    ∃ stem next, w.plan = .ask stem next ∧
      (w.found = true ∧ w.step T =
          ({ scope := ⟨w.scope.limit, (stem, w.candidate stem + 1) :: w.scope.next⟩,
             plan := next (T.intern (numbered stem (w.candidate stem))).1 },
            (T.intern (numbered stem (w.candidate stem))).2) ∨
        w.found = false ∧ w.scope.isTaken T (numbered stem (w.candidate stem)) = true ∧
          w.step T = ({ w with tries := w.tries + 1 }, T) ∨
        w.found = false ∧ w.scope.isTaken T (numbered stem (w.candidate stem)) = false ∧
          w.step T = ({ w with found := true }, T)) := by
  cases hplan : w.plan with
  | done out => exact .inl ⟨out, rfl, step_done hplan⟩
  | ask stem next =>
    refine .inr ⟨stem, next, rfl, ?_⟩
    cases hfound : w.found with
    | true => exact .inl ⟨rfl, step_found hplan hfound⟩
    | false =>
      cases htaken : w.scope.isTaken T (numbered stem (w.candidate stem)) with
      | true =>
        refine .inr (.inl ⟨rfl, rfl, ?_⟩)
        rw [step_taken hplan hfound htaken, hplan, hfound]
      | false =>
        refine .inr (.inr ⟨rfl, rfl, ?_⟩)
        rw [step_free hplan hfound htaken, hplan]

theorem outcome?_eq_some_iff {out : Outcome} : w.outcome? = some out ↔ w.plan = .done out := by
  unfold outcome?
  cases w.plan with
  | done out' => rw [Option.some.injEq, Plan.done.injEq]
  | ask stem next => exact ⟨nofun, nofun⟩

/-- The table only grows. -/
theorem le_step (w : Worker) (T : NameTable) : T ≤ (w.step T).2 := by
  rcases w.step_cases T with ⟨_, -, hstep⟩ |
    ⟨stem, next, -, ⟨-, hstep⟩ | ⟨-, -, hstep⟩ | ⟨-, -, hstep⟩⟩ <;> rw [hstep]
  · exact NameTable.le_refl T
  · exact NameTable.le_intern T _
  · exact NameTable.le_refl T
  · exact NameTable.le_refl T

/-! ### Workers on track -/

/-- A worker with a scope made on `t`, on a table that has become `T`, agrees with a plan: on every
table that has grown from `T`, what is left of its plan comes to what the whole plan comes to with a
new scope. While it looks for a number, it has found taken what was taken in `t`. -/
structure OnTrack (t : NameTable) (p : Plan (List Code.Block)) (T : NameTable) (w : Worker) :
    Prop where
  /-- The scope was made on `t`. -/
  limit : w.scope.limit = t.size
  /-- What is left comes to the same as the whole. -/
  replay : ∀ U, T ≤ U → p.run ⟨U, .ofTable t⟩ = w.plan.run ⟨U, w.scope⟩
  /-- The numbers up to the candidate are taken. -/
  taken : ∀ stem next, w.plan = .ask stem next → ∀ k, w.scope.counter stem ≤ k →
    k < w.candidate stem → (t.lookup (numbered stem k)).isSome = true
  /-- The candidate is free when it has been found so. -/
  free : ∀ stem next, w.plan = .ask stem next → w.found = true →
    (t.lookup (numbered stem (w.candidate stem))).isSome = false

variable {p : Plan (List Code.Block)}

/-- A worker that has not begun to look for a number is on track with what is left to do. -/
theorem OnTrack.of_replay {scope : Scope} {q : Plan (List Code.Block)}
    (hlimit : scope.limit = t.size)
    (hreplay : ∀ U, T ≤ U → p.run ⟨U, .ofTable t⟩ = q.run ⟨U, scope⟩) :
    OnTrack t p T { scope, plan := q } where
  limit := hlimit
  replay := hreplay
  taken _ _ _ _ hle hlt := absurd hlt (Nat.not_lt_of_le hle)
  free _ _ _ hfound := by cases hfound

theorem OnTrack.mono {T' : NameTable} (h : w.OnTrack t p T) (hle : T ≤ T') : w.OnTrack t p T' where
  limit := h.limit
  replay U hU := h.replay U (NameTable.le_trans hle hU)
  taken := h.taken
  free := h.free

/-- On a table that has the text of the candidate, a fresh name is the name of the candidate. -/
theorem OnTrack.fresh_eq (h : w.OnTrack t p T) (ht : t ≤ T) (hplan : w.plan = .ask stem next)
    (hfound : w.found = true) {U : NameTable}
    (hU : (T.intern (numbered stem (w.candidate stem))).2 ≤ U) :
    Naming.fresh stem ⟨U, w.scope⟩ =
      ((T.intern (numbered stem (w.candidate stem))).1,
        ⟨U, w.scope.limit, (stem, w.candidate stem + 1) :: w.scope.next⟩) := by
  have htU : t ≤ U := NameTable.le_trans ht (NameTable.le_trans (NameTable.le_intern T _) hU)
  have hnumber : w.scope.firstFree U stem = w.candidate stem := by
    refine Scope.firstFree_eq (Nat.le_add_right ..) ?_ fun k hle hlt => ?_
    · rw [Scope.isTaken_eq htU h.limit, h.free stem next hplan hfound]
    · rw [Scope.isTaken_eq htU h.limit, h.taken stem next hplan k hle hlt]
  have hthere : U.lookup (numbered stem (w.candidate stem)) =
      some (T.intern (numbered stem (w.candidate stem))).1 :=
    NameTable.lookup_of_text (NameTable.text?_mono hU (NameTable.text?_intern T _))
  simp only [Naming.fresh, Scope.fresh, hnumber, NameTable.intern_of_lookup hthere]

/-- An operation on the table keeps a worker on track. -/
theorem OnTrack.step (h : w.OnTrack t p T) (ht : t ≤ T) :
    (w.step T).1.OnTrack t p (w.step T).2 := by
  rcases w.step_cases T with ⟨_, -, hstep⟩ |
    ⟨stem, next, hplan, ⟨hfound, hstep⟩ | ⟨hfound, htaken, hstep⟩ | ⟨-, hfree, hstep⟩⟩ <;>
    rw [hstep]
  · exact h
  · -- from here on the text has its name, so that asking for it again changes nothing
    refine .of_replay h.limit fun U hU => ?_
    rw [h.replay U (NameTable.le_trans (NameTable.le_intern T _) hU), hplan, Plan.run_ask,
      h.fresh_eq ht hplan hfound hU]
  · -- the number that was found taken is one more below the candidate
    rw [Scope.isTaken_eq ht h.limit] at htaken
    refine ⟨h.limit, h.replay, fun stem' next' hplan' k hle hlt => ?_, fun _ _ _ hf => ?_⟩
    · obtain ⟨rfl, -⟩ := Plan.ask.inj (hplan.symm.trans hplan')
      rcases Nat.lt_succ_iff_lt_or_eq.1 hlt with hlt | rfl
      · exact h.taken stem next hplan k hle hlt
      · exact htaken
    · rw [hfound] at hf
      cases hf
  · rw [Scope.isTaken_eq ht h.limit] at hfree
    refine ⟨h.limit, h.replay, h.taken, fun stem' next' hplan' _ => ?_⟩
    obtain ⟨rfl, -⟩ := Plan.ask.inj (hplan.symm.trans hplan')
    exact hfree

end Worker

/-! ### Runs -/

namespace Crew

section

variable {n : Nat}

theorem run_append (c : Crew n) (turns more : List (Fin n)) :
    c.run (turns ++ more) = (c.run turns).run more := List.foldl_append ..

theorem worker_turn_self (c : Crew n) (i : Fin n) :
    (c.turn i).worker i = ((c.worker i).step c.table).1 := Function.update_self ..

theorem worker_turn_of_ne (c : Crew n) {i j : Fin n} (h : j ≠ i) :
    (c.turn i).worker j = c.worker j := Function.update_of_ne h ..

theorem le_run (c : Crew n) (turns : List (Fin n)) : c.table ≤ (c.run turns).table := by
  induction turns generalizing c with
  | nil => exact NameTable.le_refl _
  | cons i turns ih => exact NameTable.le_trans (Worker.le_step _ _) (ih (c.turn i))

/-- A turn keeps all workers on track. -/
theorem onTrack_turn {c : Crew n} {t : NameTable} {p : Fin n → Plan (List Code.Block)}
    (ht : t ≤ c.table) (h : ∀ j, (c.worker j).OnTrack t (p j) c.table) (i j : Fin n) :
    ((c.turn i).worker j).OnTrack t (p j) (c.turn i).table := by
  by_cases hj : j = i
  · subst hj
    rw [worker_turn_self]
    exact (h j).step ht
  · rw [worker_turn_of_ne c hj]
    exact (h j).mono (Worker.le_step _ _)

theorem onTrack_run {c : Crew n} {t : NameTable} {p : Fin n → Plan (List Code.Block)}
    (ht : t ≤ c.table) (h : ∀ j, (c.worker j).OnTrack t (p j) c.table) (turns : List (Fin n))
    (j : Fin n) : ((c.run turns).worker j).OnTrack t (p j) (c.run turns).table := by
  induction turns generalizing c with
  | nil => exact h j
  | cons i turns ih =>
    exact ih (NameTable.le_trans ht (Worker.le_step _ _)) fun j => onTrack_turn ht h i j

end

/-- **A worker that is done** has come to what its function comes to, with the scope made at the
beginning, on the table as it is in the end. The table has all the names already. -/
theorem selectFunc_of_run {e : Engine} {t : NameTable} (he : e.BuiltOn t) {funcs : List Ir.Func}
    {i : Fin funcs.length} (hf : ∀ n ∈ (funcs.get i).names, t.isIssued n = true)
    {turns : List (Fin funcs.length)} {out : Outcome}
    (h : (((start e t funcs).run turns).worker i).outcome? = some out) :
    (e.selectFunc (funcs.get i) ⟨((start e t funcs).run turns).table, .ofTable t⟩).1 = out ∧
      (e.selectFunc (funcs.get i) ⟨((start e t funcs).run turns).table, .ofTable t⟩).2.table =
        ((start e t funcs).run turns).table := by
  have hle : t ≤ ((start e t funcs).run turns).table := le_run (start e t funcs) turns
  have htrack := onTrack_run (c := start e t funcs) (NameTable.le_refl t)
    (fun j => Worker.OnTrack.of_replay rfl fun U _ => rfl) turns i
  have hreplay := htrack.replay _ (NameTable.le_refl _)
  rw [Worker.outcome?_eq_some_iff.1 h, ← selectFunc_eq_plan he hf hle] at hreplay
  rw [hreplay]
  exact ⟨rfl, rfl⟩

/-! ### Runs get done -/

section

variable {n : Nat}

theorem worker_run_of_done {c : Crew n} {i : Fin n} {out : Outcome}
    (h : (c.worker i).plan = .done out) (turns : List (Fin n)) :
    (c.run turns).worker i = c.worker i := by
  induction turns generalizing c with
  | nil => rfl
  | cons j turns ih =>
    have hturn : (c.turn j).worker i = c.worker i := by
      by_cases hij : i = j
      · subst hij
        rw [worker_turn_self, Worker.step_done h]
      · exact worker_turn_of_ne c hij
    exact (ih (by rw [hturn, h])).trans hturn

/-- With some turns in a row a worker finds a free text. -/
theorem exists_found (c : Crew n) (i : Fin n) {stem : Text}
    {next : Name → Plan (List Code.Block)} (hplan : (c.worker i).plan = .ask stem next) :
    ∃ turns, ((c.run turns).worker i).plan = .ask stem next ∧
      ((c.run turns).worker i).found = true := by
  obtain ⟨m, hm, -, hfree⟩ :=
    (c.worker i).scope.exists_not_taken c.table stem ((c.worker i).candidate stem)
  -- the candidate comes closer to a free number as long as it is taken
  induction hd : m - (c.worker i).candidate stem using Nat.strongRecOn generalizing c with
  | ind d ih =>
    cases hfound : (c.worker i).found with
    | true => exact ⟨[], hplan, hfound⟩
    | false =>
      cases htaken : (c.worker i).scope.isTaken c.table
          (numbered stem ((c.worker i).candidate stem)) with
      | false =>
        have hworker : (c.turn i).worker i = { c.worker i with found := true } := by
          rw [worker_turn_self, Worker.step_free hplan hfound htaken]
        refine ⟨[i], ?_⟩
        change ((c.turn i).worker i).plan = _ ∧ ((c.turn i).worker i).found = true
        rw [hworker]
        exact ⟨hplan, rfl⟩
      | true =>
        have hstep := Worker.step_taken hplan hfound htaken
        have hworker : (c.turn i).worker i =
            { c.worker i with tries := (c.worker i).tries + 1 } := by
          rw [worker_turn_self, hstep]
        have htable : (c.turn i).table = c.table := congrArg Prod.snd hstep
        have hnext : ((c.turn i).worker i).candidate stem = (c.worker i).candidate stem + 1 := by
          rw [hworker]
          rfl
        have hne : m ≠ (c.worker i).candidate stem := by
          rintro rfl
          rw [hfree] at htaken
          cases htaken
        obtain ⟨turns, h⟩ := ih (m - ((c.turn i).worker i).candidate stem) (by omega) (c.turn i)
          (by rw [hworker]; exact hplan) (by omega) (by rw [hworker, htable]; exact hfree) rfl
        exact ⟨i :: turns, h⟩

/-- With some turns a worker gets done. -/
theorem exists_worker_done (c : Crew n) (i : Fin n) :
    ∃ turns out, ((c.run turns).worker i).plan = .done out := by
  generalize hplan : (c.worker i).plan = p
  induction p generalizing c with
  | done out => exact ⟨[], out, hplan⟩
  | ask stem next ih =>
    obtain ⟨turns, hplan', hfound⟩ := c.exists_found i hplan
    have hturn := (c.run turns).worker_turn_self i
    rw [Worker.step_found hplan' hfound] at hturn
    obtain ⟨more, out, hdone⟩ := ih _ ((c.run turns).turn i) (congrArg Worker.plan hturn)
    refine ⟨turns ++ i :: more, out, ?_⟩
    rw [run_append]
    exact hdone

/-- With some turns several workers get done. One that is done stays so while the next one works. -/
theorem exists_workers_done (c : Crew n) (is : List (Fin n)) :
    ∃ turns, ∀ i ∈ is, ∃ out, ((c.run turns).worker i).plan = .done out := by
  induction is with
  | nil => exact ⟨[], by simp⟩
  | cons i is ih =>
    obtain ⟨turns, hturns⟩ := ih
    obtain ⟨more, out, hdone⟩ := (c.run turns).exists_worker_done i
    refine ⟨turns ++ more, fun j hj => ?_⟩
    rw [run_append]
    rcases List.mem_cons.1 hj with rfl | hj
    · exact ⟨out, hdone⟩
    · obtain ⟨out, hout⟩ := hturns j hj
      exact ⟨out, by rw [worker_run_of_done hout, hout]⟩

/-- **No run is stuck.** There are turns with which all workers get done. -/
theorem exists_run_done (c : Crew n) : ∃ turns, (c.run turns).IsDone := by
  obtain ⟨turns, hturns⟩ := c.exists_workers_done (List.finRange n)
  refine ⟨turns, fun i => ?_⟩
  obtain ⟨out, hout⟩ := hturns i (List.mem_finRange i)
  rw [Worker.outcome?_eq_some_iff.2 hout]
  rfl

end

end Crew

end CodeTiling
