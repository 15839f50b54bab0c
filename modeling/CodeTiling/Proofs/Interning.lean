import CodeTiling.Proofs.Naming

/-!
# A table is a growing bijection

A table of names is used by many: texts are interned one by one and in lists, scopes are made and
issue fresh names. A `Session` is a table with its scopes, and a run of calls on it gives out names
for texts. Whatever the calls are and in whatever order they come, the table stays a bijection
between its texts and the numbers below its size, and it has grown by the texts that were new.

* `Interned` : what calls do to a table, as far as texts and names are concerned;
* `Session.interned_call`, `Session.interned_run` : one call, and from it a whole run;
* `Session.run_growing_bijection` : what this means for the names of a run that starts with an empty
  table.
-/

namespace CodeTiling

namespace NameTable

variable {t : NameTable} {s : Text} {n : Name}

theorem lookup_iff : t.lookup s = some n ↔ t.text? n = some s := ⟨text_of_lookup, lookup_of_text⟩

/-- No text stands twice in a table: it would have two names. -/
theorem nodup_texts (t : NameTable) : t.texts.Nodup := by
  refine List.nodup_iff_getElem?_ne_getElem?.2 fun i j hij hj heq => ?_
  have hi : t.text? ⟨i⟩ = some t.texts[i] := List.getElem?_eq_getElem (hij.trans hj)
  have hj : t.text? ⟨j⟩ = some t.texts[i] := heq.symm.trans hi
  have hname : (⟨i⟩ : Name) = ⟨j⟩ :=
    Option.some.inj ((lookup_of_text hi).symm.trans (lookup_of_text hj))
  exact Nat.ne_of_lt hij (Name.mk.inj hname)

theorem mem_texts_iff : s ∈ t.texts ↔ ∃ n, t.text? n = some s := by
  rw [List.mem_iff_getElem?]
  exact ⟨fun ⟨i, hi⟩ => ⟨⟨i⟩, hi⟩, fun ⟨n, hn⟩ => ⟨n.index, hn⟩⟩

theorem text?_blank (t : NameTable) : t.text? .blank = some .empty := by
  rw [← t.head_blank, List.head?_eq_getElem?]
  rfl

end NameTable

/-! ### What calls do to a table -/

/-- From one table to another, names were given out for some texts. -/
structure Interned (t t' : NameTable) (out : List (Text × Name)) : Prop where
  /-- The table has grown. -/
  grown : t ≤ t'
  /-- Each name that was given out has the text that it was given out for. -/
  named : ∀ x ∈ out, t'.text? x.2 = some x.1
  /-- Nothing but those texts has come in. -/
  known : ∀ s ∈ t'.texts, s ∈ t.texts ∨ s ∈ out.map Prod.fst

/-- The texts of a list that a table does not know yet, each once. -/
def NameTable.newTexts (t : NameTable) (out : List (Text × Name)) : Finset Text :=
  (out.map Prod.fst).toFinset \ t.texts.toFinset

namespace Interned

variable {t t₁ t₂ : NameTable} {out out' : List (Text × Name)}

theorem nil (t : NameTable) : Interned t t [] := ⟨NameTable.le_refl t, by simp, fun _ hs => .inl hs⟩

theorem append (h : Interned t t₁ out) (h' : Interned t₁ t₂ out') :
    Interned t t₂ (out ++ out') := by
  refine ⟨NameTable.le_trans h.grown h'.grown, fun x hx => ?_, fun s hs => ?_⟩
  · rcases List.mem_append.1 hx with hx | hx
    · exact NameTable.text?_mono h'.grown (h.named x hx)
    · exact h'.named x hx
  · rw [List.map_append, List.mem_append]
    rcases h'.known s hs with hs | hs
    · exact (h.known s hs).imp_right .inl
    · exact .inr (.inr hs)

theorem intern (t : NameTable) (s : Text) :
    Interned t (t.intern s).2 [(s, (t.intern s).1)] := by
  refine ⟨t.le_intern s, by simpa using t.text?_intern s, fun s' hs' => ?_⟩
  cases h : t.lookup s with
  | some n =>
    rw [NameTable.intern_of_lookup h] at hs'
    exact .inl hs'
  | none =>
    rw [(NameTable.intern_of_lookup_none h).2] at hs'
    simpa using hs'

theorem internAll (t : NameTable) (ss : List Text) :
    Interned t (t.internAll ss).2 (ss.zip (t.internAll ss).1) := by
  induction ss generalizing t with
  | nil => exact .nil t
  | cons s ss ih => exact (Interned.intern t s).append (ih (t.intern s).2)

theorem map_fst_internAll (t : NameTable) (ss : List Text) :
    (ss.zip (t.internAll ss).1).map Prod.fst = ss := by
  induction ss generalizing t with
  | nil => rfl
  | cons s ss ih => exact congrArg (s :: ·) (ih (t.intern s).2)

/-- Names that were given out are the same if and only if their texts are. -/
theorem name_eq_iff (h : Interned t t₁ out) {x y : Text × Name} (hx : x ∈ out) (hy : y ∈ out) :
    x.2 = y.2 ↔ x.1 = y.1 := by
  have htx := h.named x hx
  have hty := h.named y hy
  constructor
  · intro heq
    rw [heq, hty] at htx
    exact (Option.some.inj htx).symm
  · intro heq
    have hlookup := NameTable.lookup_of_text htx
    rw [heq, NameTable.lookup_of_text hty] at hlookup
    exact (Option.some.inj hlookup).symm

theorem mem_texts_iff (h : Interned t t₁ out) {s : Text} :
    s ∈ t₁.texts ↔ s ∈ t.texts ∨ s ∈ out.map Prod.fst := by
  constructor
  · exact h.known s
  · rintro (hs | hs)
    · exact List.IsPrefix.subset h.grown hs
    · obtain ⟨x, hx, rfl⟩ := List.mem_map.1 hs
      exact NameTable.mem_texts_iff.2 ⟨x.2, h.named x hx⟩

theorem toFinset_texts (h : Interned t t₁ out) :
    t₁.texts.toFinset = t.texts.toFinset ∪ t.newTexts out := by
  ext s
  simp only [NameTable.newTexts, Finset.union_sdiff_self_eq_union, Finset.mem_union,
    List.mem_toFinset]
  exact h.mem_texts_iff

/-- A table grows by the number of texts that are new to it. -/
theorem size_eq (h : Interned t t₁ out) : t₁.size = t.size + (t.newTexts out).card := by
  have hcard : ∀ t : NameTable, t.size = t.texts.toFinset.card :=
    fun t => (List.toFinset_card_of_nodup t.nodup_texts).symm
  rw [hcard, hcard, h.toFinset_texts, Finset.card_union_of_disjoint]
  exact Finset.disjoint_sdiff

end Interned

/-! ### Runs of calls -/

/-- A call of somebody who uses a table. -/
inductive Call where
  /-- Intern a text. -/
  | intern (text : Text)
  /-- Intern texts, first to last. -/
  | internAll (texts : List Text)
  /-- Make a scope. -/
  | scope
  /-- Issue a fresh name on a stem with a scope, which is given by its number. -/
  | fresh (scope : Nat) (stem : Text)
deriving DecidableEq, Repr

/-- A table and the scopes that were made on it, the first one with the number 0. -/
structure Session where
  /-- The table. -/
  table : NameTable
  /-- The scopes by number. -/
  scopes : List Scope

namespace Session

/-- An empty table without scopes. -/
def start : Session := ⟨.empty, []⟩

/-- A call: the names that are given out, with their texts, and the session after it. A scope that
was not made issues nothing. -/
def call (s : Session) : Call → List (Text × Name) × Session
  | .intern text =>
    let (n, table) := s.table.intern text
    ([(text, n)], { s with table })
  | .internAll texts =>
    let (ns, table) := s.table.internAll texts
    (texts.zip ns, { s with table })
  | .scope => ([], { s with scopes := s.scopes ++ [Scope.ofTable s.table] })
  | .fresh i stem =>
    match s.scopes[i]? with
    | none => ([], s)
    | some scope =>
      let (n, table, scope') := scope.fresh s.table stem
      ([(numbered stem (scope.firstFree s.table stem), n)], ⟨table, s.scopes.set i scope'⟩)

/-- Calls one after another: all names that are given out, and the session after them. -/
def run (s : Session) : List Call → List (Text × Name) × Session
  | [] => ([], s)
  | c :: cs =>
    let (out, s₁) := s.call c
    let (outs, s₂) := s₁.run cs
    (out ++ outs, s₂)

theorem run_append (s : Session) (cs ds : List Call) :
    s.run (cs ++ ds) = ((s.run cs).1 ++ ((s.run cs).2.run ds).1, ((s.run cs).2.run ds).2) := by
  induction cs generalizing s with
  | nil => rfl
  | cons c cs ih => simp only [List.cons_append, run, ih, List.append_assoc]

theorem interned_call (s : Session) (c : Call) :
    Interned s.table (s.call c).2.table (s.call c).1 := by
  cases c with
  | intern text => exact .intern s.table text
  | internAll texts => exact .internAll s.table texts
  | scope => exact .nil s.table
  | fresh i stem =>
    -- a scope interns the text that it has chosen, through the same door as everybody
    cases hi : s.scopes[i]? with
    | none =>
      simp only [call, hi]
      exact .nil s.table
    | some scope =>
      simp only [call, hi]
      exact .intern s.table _

theorem interned_run (s : Session) (cs : List Call) :
    Interned s.table (s.run cs).2.table (s.run cs).1 := by
  induction cs generalizing s with
  | nil => exact .nil s.table
  | cons c cs ih => exact (interned_call s c).append (ih (s.call c).2)

/-- **A table is a growing bijection.** Take any run of calls that starts with an empty table, and
any point of the run.

* At the end looking up texts and reading names are inverse to each other on the numbers below the
  size of the table, no text stands there twice, and number 0 is the empty text.
* To intern a list gives out a name for each of its texts. Every name that was given out has the
  text it was given out for, and two names that were given out anywhere in the run are the same if
  and only if their texts are.
* A name that was issued up to the point still has its text at the end.
* From the point on the table has grown by the number of different texts that were new to it. -/
theorem run_growing_bijection (before after : List Call) :
    let mid := (start.run before).2
    let out := (start.run (before ++ after)).1
    let t := (start.run (before ++ after)).2.table
    ((∀ s n, t.lookup s = some n ↔ n.index < t.size ∧ t.text? n = some s) ∧
      t.texts.Nodup ∧ t.text? .blank = some .empty) ∧
    ((∀ texts, (mid.call (.internAll texts)).1.map Prod.fst = texts) ∧
      (∀ x ∈ out, t.text? x.2 = some x.1) ∧
      ∀ x ∈ out, ∀ y ∈ out, x.2 = y.2 ↔ x.1 = y.1) ∧
    (∀ n s, mid.table.text? n = some s → t.text? n = some s) ∧
    t.size = mid.table.size + (mid.table.newTexts (mid.run after).1).card := by
  have hall := start.interned_run (before ++ after)
  have hrest := (start.run before).2.interned_run after
  have hend : (start.run (before ++ after)).2 = ((start.run before).2.run after).2 := by
    rw [run_append]
  rw [← hend] at hrest
  refine ⟨⟨fun s n => ?_, NameTable.nodup_texts _, NameTable.text?_blank _⟩,
    ⟨Interned.map_fst_internAll _, hall.named, fun x hx y hy => hall.name_eq_iff hx hy⟩,
    fun n s => NameTable.text?_mono hrest.grown, hrest.size_eq⟩
  rw [NameTable.lookup_iff]
  refine ⟨fun h => ⟨?_, h⟩, And.right⟩
  simpa [NameTable.isIssued] using NameTable.isIssued_iff.2 ⟨s, h⟩

end Session

end CodeTiling
