import CodeTiling.Text.Basic

/-!
# Names and the table that issues them

A `Name` is a number that stands for a text; a `NameTable` holds the texts in the order in which
they were first seen. Names are compared by number, so that two names of one table are equal
exactly when their texts are.

A table is searched in both directions and keeps a record for each: `NameTable.ids` has the numbers
by text and `NameTable.texts` the texts by number. That they are inverse to each other is part of
the type.

* `NameTable.intern` gives the number of a text, extending both records when the text is new;
* `NameTable.lookup` and `NameTable.text` are inverse to each other on the names of the table
  (`text_of_lookup`, `lookup_of_text`);
* the empty text is always the name `0`.
-/

namespace CodeTiling

/-- A name issued by a `NameTable`. -/
structure Name where
  /-- The place of the text in the table that issued the name. -/
  index : Nat
deriving DecidableEq, Repr

namespace Name

/-- The name of the empty text. -/
def blank : Name := ⟨0⟩

end Name

/-- The texts that have got a name, and the names that they have got. -/
structure NameTable where
  /-- The names by their texts, the latest first. -/
  ids : List (Text × Name)
  /-- The texts by their numbers, in the order in which they were first interned. -/
  texts : List Text
  /-- A text has a name exactly when it stands at the place of the name. -/
  inverse : ∀ s n, ids.lookup s = some n ↔ texts[n.index]? = some s
  /-- The empty text is the first one. -/
  head_blank : texts.head? = some .empty

namespace NameTable

/-- The names of texts that stand one after another from place `k` on. -/
def idsFrom (k : Nat) : List Text → List (Text × Name)
  | [] => []
  | s :: ss => (s, ⟨k⟩) :: idsFrom (k + 1) ss

theorem lookup_idsFrom {ss : List Text} (h : ss.Nodup) (k : Nat) (s : Text) (n : Name) :
    (idsFrom k ss).lookup s = some n ↔ k ≤ n.index ∧ ss[n.index - k]? = some s := by
  induction ss generalizing k with
  | nil => simp [idsFrom]
  | cons a ss ih =>
    obtain ⟨ha, hss⟩ := List.nodup_cons.1 h
    obtain ⟨i⟩ := n
    by_cases hs : s = a
    · subst hs
      have hfirst : k ≤ i ∧ (s :: ss)[i - k]? = some s ↔ i = k := by
        refine ⟨fun ⟨hle, hget⟩ => ?_, fun hi => by simp [hi]⟩
        cases hd : i - k with
        | zero => omega
        | succ d =>
          rw [hd, List.getElem?_cons_succ] at hget
          exact (ha (List.mem_of_getElem? hget)).elim
      rw [idsFrom, List.lookup_cons_self, hfirst, Option.some.injEq, Name.mk.injEq, eq_comm]
    · have hne : (s == a) = false := by simpa using hs
      have hnext : k + 1 ≤ i ∧ ss[i - (k + 1)]? = some s ↔
          k ≤ i ∧ (a :: ss)[i - k]? = some s := by
        cases hd : i - k with
        | zero =>
          have hempty : ¬k + 1 ≤ i := by omega
          simp [hempty, Ne.symm hs]
        | succ d =>
          have hd' : i - (k + 1) = d := by omega
          rw [hd', List.getElem?_cons_succ, and_congr_left_iff]
          intro _
          omega
      rw [idsFrom, List.lookup_cons, hne]
      exact (ih hss (k + 1)).trans hnext

/-- The table of some texts, each of which stands there once. -/
def ofTexts (texts : List Text) (nodup : texts.Nodup) (head_blank : texts.head? = some .empty) :
    NameTable where
  ids := idsFrom 0 texts
  texts := texts
  inverse s n := by simpa using lookup_idsFrom nodup 0 s n
  head_blank := head_blank

/-- The table that knows the empty text only. -/
def empty : NameTable := ofTexts [.empty] (by simp) rfl

instance : Inhabited NameTable := ⟨empty⟩

variable (t : NameTable)

/-- The number of texts. -/
def size : Nat := t.texts.length

/-- The name of a text, if it has one. -/
def lookup (s : Text) : Option Name := t.ids.lookup s

/-- The table has issued the name. -/
def isIssued (n : Name) : Bool := n.index < t.size

/-- The text of a name, if the table issued the name. -/
def text? (n : Name) : Option Text := t.texts[n.index]?

/-- The text of a name; a name the table never issued has the empty text. -/
def text (n : Name) : Text := (t.text? n).getD .empty

/-- A text without a name gets the next number in both records. -/
theorem inverse_of_lookup_eq_none {s : Text} (h : t.lookup s = none) (s' : Text) (n : Name) :
    ((s, ⟨t.size⟩) :: t.ids).lookup s' = some n ↔ (t.texts ++ [s])[n.index]? = some s' := by
  obtain ⟨i⟩ := n
  rw [List.lookup_cons]
  by_cases hs : s' = s
  · subst hs
    -- the text stands at the new place, and nowhere before it
    have hnew : t.texts[i]? ≠ some s' := fun hi => by
      have := (t.inverse s' ⟨i⟩).2 hi
      rw [lookup, this] at h
      cases h
    rw [beq_self_eq_true, Option.some.injEq, Name.mk.injEq]
    by_cases hi : i < t.texts.length
    · rw [List.getElem?_append_left hi]
      exact ⟨fun heq => (Nat.ne_of_lt hi heq.symm).elim, fun hget => (hnew hget).elim⟩
    · rw [List.getElem?_append_right (Nat.le_of_not_lt hi), List.getElem?_singleton]
      have hsize : t.size = t.texts.length := rfl
      split
      · exact ⟨fun _ => rfl, fun _ => by omega⟩
      · exact ⟨fun _ => by omega, nofun⟩
  · have hne : (s' == s) = false := by simpa using hs
    rw [hne, t.inverse]
    by_cases hi : i < t.texts.length
    · rw [List.getElem?_append_left hi]
    · have hle := Nat.le_of_not_lt hi
      rw [List.getElem?_append_right hle, List.getElem?_singleton, List.getElem?_eq_none hle]
      split
      · simp [Ne.symm hs]
      · rfl

/-- The name of a text and the table that knows it. A new text gets the next number. -/
def intern (s : Text) : Name × NameTable :=
  match h : t.lookup s with
  | some n => (n, t)
  | none =>
    (⟨t.size⟩,
      { ids := (s, ⟨t.size⟩) :: t.ids
        texts := t.texts ++ [s]
        inverse := t.inverse_of_lookup_eq_none h
        head_blank := by rw [List.head?_append, t.head_blank]; rfl })

/-- Names for a list of texts, first to last. -/
def internAll (t : NameTable) : List Text → List Name × NameTable
  | [] => ([], t)
  | s :: ss =>
    let (n, t₁) := t.intern s
    let (ns, t₂) := t₁.internAll ss
    (n :: ns, t₂)

variable {t}

/-- A text is the text of the name that stands for it. -/
theorem text_of_lookup {s : Text} {n : Name} (h : t.lookup s = some n) : t.text? n = some s :=
  (t.inverse s n).1 h

/-- The name that has a text stands for it. -/
theorem lookup_of_text {s : Text} {n : Name} (h : t.text? n = some s) : t.lookup s = some n :=
  (t.inverse s n).2 h

end NameTable

end CodeTiling
