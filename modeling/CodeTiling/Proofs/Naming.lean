import CodeTiling.Name.Scope
import Mathlib.Order.Interval.Finset.Nat

/-!
# Tables that grow and the names of a scope

A table only grows: `t ≤ t'` says that the texts of `t` are the first ones of `t'`, so that a name
issued by `t` has the same text in `t'` (`NameTable.text?_mono`).

The names that a scope issues are told apart by their texts. `numbered_inj` says that the text
`stem.N` determines both the stem and the number, also when the stem has dots and digits in it, and
`Scope.firstFree_spec` that the search for a free number ends with one: of `limit + 1` numbers at
least one is free. `Naming.fresh_spec` puts together what issuing a name does.
-/

namespace CodeTiling

namespace NameTable

variable {t t' t'' : NameTable} {n m : Name} {s : Text}

/-- The names of the first table are names of the second one, with the same texts. -/
instance : LE NameTable := ⟨fun t t' => t.texts <+: t'.texts⟩

theorem le_refl (t : NameTable) : t ≤ t := List.prefix_refl t.texts

theorem le_trans (h : t ≤ t') (h' : t' ≤ t'') : t ≤ t'' := List.IsPrefix.trans h h'

theorem size_mono (h : t ≤ t') : t.size ≤ t'.size := List.IsPrefix.length_le h

theorem isIssued_iff : t.isIssued n = true ↔ ∃ s, t.text? n = some s := by
  rw [isIssued, decide_eq_true_eq, ← Option.isSome_iff_exists]
  simp [size, text?]

theorem isIssued_mono (h : t ≤ t') (hn : t.isIssued n = true) : t'.isIssued n = true := by
  have := size_mono h
  simp only [isIssued, decide_eq_true_eq] at hn ⊢
  omega

theorem text?_mono (h : t ≤ t') (hn : t.text? n = some s) : t'.text? n = some s := by
  obtain ⟨l, hl⟩ := h
  obtain ⟨hlt, -⟩ := List.getElem?_eq_some_iff.1 hn
  simp only [text?, ← hl] at hn ⊢
  rwa [List.getElem?_append_left hlt]

theorem text_eq (hn : t.text? n = some s) : t.text n = s := by
  simp [text, hn]

theorem text?_eq_some_text (hn : t.isIssued n = true) : t.text? n = some (t.text n) := by
  obtain ⟨s, hs⟩ := isIssued_iff.1 hn
  rw [text_eq hs, hs]

theorem text_mono (h : t ≤ t') (hn : t.isIssued n = true) : t'.text n = t.text n :=
  text_eq (text?_mono h (text?_eq_some_text hn))

theorem intern_of_lookup (h : t.lookup s = some n) : t.intern s = (n, t) := by
  unfold intern
  split <;> simp_all

theorem intern_of_lookup_none (h : t.lookup s = none) :
    (t.intern s).1 = ⟨t.size⟩ ∧ (t.intern s).2.texts = t.texts ++ [s] := by
  unfold intern
  split <;> simp_all

theorem le_intern (t : NameTable) (s : Text) : t ≤ (t.intern s).2 := by
  cases h : t.lookup s with
  | some n => rw [intern_of_lookup h]; exact le_refl t
  | none => exact ⟨[s], (intern_of_lookup_none h).2.symm⟩

theorem text?_intern (t : NameTable) (s : Text) :
    (t.intern s).2.text? (t.intern s).1 = some s := by
  cases h : t.lookup s with
  | some n => rw [intern_of_lookup h]; exact text_of_lookup h
  | none =>
    obtain ⟨h₁, h₂⟩ := intern_of_lookup_none h
    simp [text?, h₁, h₂, size]

end NameTable

/-! ### Texts with a number -/

theorem utf8EncodeChar_of_isDigit {c : Char} (h : c.isDigit = true) :
    String.utf8EncodeChar c = [c.val.toUInt8] := by
  simp only [Char.isDigit, Bool.and_eq_true, decide_eq_true_eq] at h
  refine String.utf8EncodeChar_eq_singleton (Char.utf8Size_eq_one_iff.2 ?_)
  exact UInt32.le_trans h.2 (by decide)

theorem octet_of_isDigit {c : Char} (h : c.isDigit = true) :
    Char.ofNat c.val.toUInt8.toNat = c ∧ c.val.toUInt8 ≠ 46 := by
  simp only [Char.isDigit, Bool.and_eq_true, decide_eq_true_eq] at h
  obtain ⟨h₁, h₂⟩ := h
  have hlo : 48 ≤ c.val.toNat := UInt32.le_iff_toNat_le.1 h₁
  have hhi : c.val.toNat ≤ 57 := UInt32.le_iff_toNat_le.1 h₂
  have hn : c.val.toUInt8.toNat = c.toNat := by
    rw [UInt32.toNat_toUInt8]
    exact Nat.mod_eq_of_lt (by omega)
  refine ⟨by rw [hn, Char.ofNat_toNat], fun h => ?_⟩
  have h46 : c.val.toUInt8.toNat = 46 := by rw [h]; rfl
  rw [hn] at h46
  change c.val.toNat = 46 at h46
  omega

theorem octets_decimal (n : Nat) :
    (Text.decimal n).octets = (Nat.toDigits 10 n).map (·.val.toUInt8) := by
  have hs : (toString (n : Int)).toList = Nat.toDigits 10 n := Nat.toList_repr
  simp only [Text.decimal, Text.ofString, hs]
  rw [List.map_eq_flatMap]
  refine List.flatMap_congr fun c hc => ?_
  exact utf8EncodeChar_of_isDigit (Nat.isDigit_of_mem_toDigits (by decide) (by decide) hc)

theorem dot_notMem_decimal (n : Nat) : 46 ∉ (Text.decimal n).octets := by
  rw [octets_decimal, List.mem_map]
  rintro ⟨c, hc, h⟩
  exact (octet_of_isDigit (Nat.isDigit_of_mem_toDigits (by decide) (by decide) hc)).2 h

theorem decimal_inj {m n : Nat} (h : (Text.decimal m).octets = (Text.decimal n).octets) :
    m = n := by
  have hback : ∀ k : Nat,
      (Text.decimal k).octets.map (fun o => Char.ofNat o.toNat) = Nat.toDigits 10 k := by
    intro k
    rw [octets_decimal, List.map_map]
    conv_rhs => rw [← List.map_id (Nat.toDigits 10 k)]
    refine List.map_congr_left fun c hc => ?_
    exact (octet_of_isDigit (Nat.isDigit_of_mem_toDigits (by decide) (by decide) hc)).1
  have hd : Nat.toDigits 10 m = Nat.toDigits 10 n := by rw [← hback, ← hback, h]
  have := congrArg (Nat.ofDigitChars 10 · 0) hd
  simpa using this

/-- The last occurrence of an element divides a list in one way only. -/
theorem eq_of_append_cons_eq {α : Type} {a : α} {x x' y y' : List α} (hy : a ∉ y) (hy' : a ∉ y')
    (h : x ++ a :: y = x' ++ a :: y') : x = x' ∧ y = y' := by
  rcases List.append_eq_append_iff.1 h with ⟨c, rfl, hc⟩ | ⟨c, rfl, hc⟩
  · cases c with
    | nil => simpa using hc
    | cons d c =>
      obtain ⟨-, rfl⟩ := List.cons.inj hc
      simp at hy
  · cases c with
    | nil => simpa using hc.symm
    | cons d c =>
      obtain ⟨-, rfl⟩ := List.cons.inj hc
      simp at hy'

/-- **A numbered text determines its stem and its number.** A decimal has no dot, so the last dot
of the text is the one between the two. -/
theorem numbered_inj {stem stem' : Text} {m n : Nat}
    (h : numbered stem m = numbered stem' n) : stem = stem' ∧ m = n := by
  have ho : stem.octets ++ 46 :: (Text.decimal m).octets =
      stem'.octets ++ 46 :: (Text.decimal n).octets := by
    have hdot : (Text.ofString ".").octets = [46] := by decide
    have := congrArg Text.octets h
    simpa [numbered, hdot] using this
  obtain ⟨hs, hn⟩ := eq_of_append_cons_eq (dot_notMem_decimal m) (dot_notMem_decimal n) ho
  exact ⟨Text.ext hs, decimal_inj hn⟩

/-! ### Free numbers -/

namespace Scope

variable {s : Scope} {t t' : NameTable} {text stem : Text}

theorem isTaken_iff :
    s.isTaken t text = true ↔ ∃ n, t.lookup text = some n ∧ n.index < s.limit := by
  unfold isTaken
  split <;> simp_all

/-- Among `limit + 1` numbers in a row there is one whose text is not taken: the taken ones have
different names below the limit. -/
theorem exists_not_taken (s : Scope) (t : NameTable) (stem : Text) (start : Nat) :
    ∃ n, start ≤ n ∧ n < start + (s.limit + 1) ∧ s.isTaken t (numbered stem n) = false := by
  by_contra hno
  push Not at hno
  have htaken : ∀ n, start ≤ n → n < start + (s.limit + 1) →
      ∃ m, t.lookup (numbered stem n) = some m ∧ m.index < s.limit := by
    intro n h₁ h₂
    exact isTaken_iff.1 (by simpa using hno n h₁ h₂)
  let place : Nat → Nat := fun n => ((t.lookup (numbered stem n)).map Name.index).getD 0
  have hmaps : Set.MapsTo place (Finset.Ico start (start + (s.limit + 1)))
      (Finset.range s.limit) := by
    intro n hn
    simp only [Finset.coe_Ico, Set.mem_Ico] at hn
    obtain ⟨m, hm, hlt⟩ := htaken n hn.1 hn.2
    simpa [place, hm] using hlt
  obtain ⟨i, hi, j, hj, hne, hij⟩ :=
    Finset.exists_ne_map_eq_of_card_lt_of_maps_to (by simp) hmaps
  rw [Finset.mem_Ico] at hi hj
  obtain ⟨a, ha, -⟩ := htaken i hi.1 hi.2
  obtain ⟨b, hb, -⟩ := htaken j hj.1 hj.2
  have hab : a = b := by
    cases a; cases b
    simpa [place, ha, hb] using hij
  subst hab
  have htext : numbered stem i = numbered stem j :=
    Option.some.inj ((NameTable.text_of_lookup ha).symm.trans (NameTable.text_of_lookup hb))
  exact hne (numbered_inj htext).2

/-- The number that a scope takes is the least one from its counter on that is free. -/
theorem firstFree_spec (s : Scope) (t : NameTable) (stem : Text) :
    s.counter stem ≤ s.firstFree t stem ∧
      s.isTaken t (numbered stem (s.firstFree t stem)) = false ∧
      ∀ n, s.counter stem ≤ n → n < s.firstFree t stem →
        s.isTaken t (numbered stem n) = true := by
  obtain ⟨k, hk₁, hk₂, hk⟩ := s.exists_not_taken t stem (s.counter stem)
  cases hf : (List.range' (s.counter stem) (s.limit + 1)).find?
      fun n => !s.isTaken t (numbered stem n) with
  | none =>
    rw [List.find?_eq_none] at hf
    have := hf k (List.mem_range'_1.2 ⟨hk₁, hk₂⟩)
    simp [hk] at this
  | some m =>
    have hm : s.firstFree t stem = m := by simp only [firstFree, hf, Option.getD_some]
    obtain ⟨hfree, i, hi, rfl, hbefore⟩ := List.find?_eq_some_iff_getElem.1 hf
    rw [hm]
    simp only [List.length_range', List.getElem_range', Nat.one_mul] at hi hfree hbefore ⊢
    refine ⟨by omega, by simpa using hfree, fun n hn hlt => ?_⟩
    have := hbefore (n - s.counter stem) (by omega)
    rw [show s.counter stem + (n - s.counter stem) = n by omega] at this
    simpa using this

theorem counter_next (s : Scope) (stem stem' : Text) (k : Nat) :
    Scope.counter { s with next := (stem, k) :: s.next } stem' =
      if stem' = stem then k else s.counter stem' := by
  simp only [counter, List.lookup_cons]
  by_cases h : stem' = stem
  · simp [h]
  · have : (stem' == stem) = false := by simpa using h
    simp [h, this]

end Scope

namespace Naming

/-- **What issuing a name does.** The new name reads `stem.k`, where `k` is not below the counter
of the stem; only that counter moves, to just above `k`; and the name is none of those that were
issued before the scope was made. -/
theorem fresh_spec (g : Naming) (stem : Text) (hg : g.scope.limit ≤ g.table.size) :
    ∃ n k g', Naming.fresh stem g = (n, g') ∧ g.table ≤ g'.table ∧
      g'.table.text? n = some (numbered stem k) ∧ g.scope.counter stem ≤ k ∧
      (∀ stem', g'.scope.counter stem' = if stem' = stem then k + 1 else g.scope.counter stem') ∧
      g'.scope.limit = g.scope.limit ∧ g.scope.limit ≤ n.index := by
  obtain ⟨hk, hfree, -⟩ := g.scope.firstFree_spec g.table stem
  refine ⟨_, g.scope.firstFree g.table stem, _, rfl, NameTable.le_intern _ _,
    NameTable.text?_intern _ _, hk, fun stem' => g.scope.counter_next stem stem' _, rfl, ?_⟩
  change g.scope.limit ≤ (g.table.intern (numbered stem _)).1.index
  cases h : g.table.lookup (numbered stem (g.scope.firstFree g.table stem)) with
  | none => rw [(NameTable.intern_of_lookup_none h).1]; exact hg
  | some n =>
    rw [NameTable.intern_of_lookup h]
    by_contra hlt
    have := Scope.isTaken_iff.2 ⟨n, h, Nat.lt_of_not_le hlt⟩
    rw [hfree] at this
    exact Bool.false_ne_true this

end Naming

end CodeTiling
