import CodeTiling.Proofs.Naming
import CodeTiling.Select.Expand

/-!
# Decimal forms

A number has one decimal form: digits without a zero in front of others, after a minus sign if the
number is negative. `Text.Canonical` says so of a text and a number in terms of octets, and
`Text.canonical_iff` that it is the form in which numbers are written.

* `Text.octets_decimal_snoc` : the last digit of a number comes off the end of its form;
* `Text.isNumeral_decimal` and `Text.eq_decimal_of_isNumeral` : numbers and numerals are one to one;
* `Text.canonical_iff` : the decimal form of a number is the only canonical one;
* `canonicalImm?_eq_some_iff` : what is read is the number that the text is the decimal form of.
-/

namespace CodeTiling

namespace Text

/-- The octet of a digit. -/
def isDigit (o : UInt8) : Bool := 48 ≤ o && o ≤ 57

/-- Digits without a zero in front of others. -/
structure IsNumeral (os : List UInt8) : Prop where
  /-- There are only digits. -/
  digits : ∀ o ∈ os, isDigit o = true
  /-- There is a digit. -/
  ne_nil : os ≠ []
  /-- A zero stands alone. -/
  zero_alone : os.head? = some 48 → os = [48]

/-- The text is the decimal form of the number. -/
inductive Canonical : Text → Int → Prop
  /-- A number that is not negative. -/
  | nonneg {os : List UInt8} (h : IsNumeral os) : Canonical ⟨os⟩ (numeralValue os)
  /-- A negative number. There is no negative zero. -/
  | neg {os : List UInt8} (h : IsNumeral os) (hzero : os ≠ [48]) :
      Canonical ⟨45 :: os⟩ (-numeralValue os)

/-! ### Digits -/

theorem numeralValue_singleton (o : UInt8) : numeralValue [o] = o.toNat - 48 := by
  simp [numeralValue]

theorem numeralValue_concat (os : List UInt8) (o : UInt8) :
    numeralValue (os ++ [o]) = 10 * numeralValue os + (o.toNat - 48) := by
  simp [numeralValue]

theorem toNat_of_isDigit {o : UInt8} (h : isDigit o = true) : 48 ≤ o.toNat ∧ o.toNat ≤ 57 := by
  simp only [isDigit, Bool.and_eq_true, decide_eq_true_eq] at h
  exact ⟨UInt8.le_iff_toNat_le.1 h.1, UInt8.le_iff_toNat_le.1 h.2⟩

/-- The octet of a digit by its value. -/
theorem octet_digitChar {d : Nat} (h : d < 10) :
    isDigit (Nat.digitChar d).val.toUInt8 = true ∧
      (Nat.digitChar d).val.toUInt8.toNat = 48 + d := by
  have hall : ∀ d : Fin 10, isDigit (Nat.digitChar d).val.toUInt8 = true ∧
      (Nat.digitChar d).val.toUInt8.toNat = 48 + d := by decide
  exact hall ⟨d, h⟩

theorem eq_octet_digitChar {o : UInt8} (h : isDigit o = true) :
    o = (Nat.digitChar (o.toNat - 48)).val.toUInt8 := by
  have ho := toNat_of_isDigit h
  apply UInt8.toNat_inj.1
  rw [(octet_digitChar (by omega)).2]
  omega

theorem octets_decimal_of_lt {n : Nat} (h : n < 10) :
    (decimal n).octets = [(Nat.digitChar n).val.toUInt8] := by
  rw [octets_decimal, Nat.toDigits_of_lt_base h]
  rfl

/-- The last digit comes off the end. -/
theorem octets_decimal_snoc {n : Nat} (h : 10 ≤ n) :
    (decimal n).octets =
      (decimal (n / 10 : Nat)).octets ++ [(Nat.digitChar (n % 10)).val.toUInt8] := by
  rw [octets_decimal, octets_decimal, Nat.toDigits_of_base_le (by decide) h, List.map_append]
  rfl

/-! ### Numerals -/

theorem IsNumeral.singleton {o : UInt8} (h : isDigit o = true) : IsNumeral [o] := by
  refine ⟨by simpa using h, by simp, fun hzero => ?_⟩
  rw [Option.some.inj hzero]

theorem IsNumeral.concat {os : List UInt8} {o : UInt8} (h : IsNumeral os) (hpos : os ≠ [48])
    (ho : isDigit o = true) : IsNumeral (os ++ [o]) := by
  refine ⟨?_, by simp, fun hzero => ?_⟩
  · simpa [or_imp, forall_and, ho] using h.digits
  · rw [List.head?_append_of_ne_nil _ h.ne_nil] at hzero
    exact (hpos (h.zero_alone hzero)).elim

/-- The part of a numeral in front of its last digit. -/
theorem IsNumeral.of_concat {os : List UInt8} {o : UInt8} (h : IsNumeral (os ++ [o]))
    (hne : os ≠ []) : IsNumeral os ∧ os ≠ [48] := by
  have hhead : os.head? ≠ some 48 := by
    intro hzero
    have hwhole := h.zero_alone (by rw [List.head?_append_of_ne_nil _ hne, hzero])
    have hlen := congrArg List.length hwhole
    rw [List.length_append] at hlen
    exact hne (List.length_eq_zero_iff.1 (by simpa using hlen))
  have hdigits : ∀ p ∈ os, isDigit p = true := fun p hp => h.digits p (List.mem_append_left _ hp)
  refine ⟨⟨hdigits, hne, fun hzero => (hhead hzero).elim⟩, ?_⟩
  rintro rfl
  exact hhead rfl

/-- Only zero is written as a zero. -/
theorem eq_zero_of_octets_decimal {n : Nat} (h : (decimal n).octets = [48]) : n = 0 :=
  decimal_inj (h.trans rfl)

/-- A number is written as the numeral that stands for it. -/
theorem isNumeral_decimal (n : Nat) :
    IsNumeral (decimal n).octets ∧ numeralValue (decimal n).octets = n := by
  induction n using Nat.strongRecOn with
  | ind n ih =>
    by_cases hn : n < 10
    · obtain ⟨hdigit, hvalue⟩ := octet_digitChar hn
      rw [octets_decimal_of_lt hn, numeralValue_singleton, hvalue]
      exact ⟨.singleton hdigit, by omega⟩
    · obtain ⟨hnum, hval⟩ := ih (n / 10) (by omega)
      obtain ⟨hdigit, hvalue⟩ := octet_digitChar (Nat.mod_lt n (by decide : 10 > 0))
      have hpos : (decimal (n / 10 : Nat)).octets ≠ [48] := by
        intro hzero
        have := eq_zero_of_octets_decimal hzero
        omega
      rw [octets_decimal_snoc (by omega), numeralValue_concat, hval, hvalue]
      exact ⟨hnum.concat hpos hdigit, by omega⟩

/-- A numeral is how the number is written that it stands for. -/
theorem eq_decimal_of_isNumeral {os : List UInt8} (h : IsNumeral os) :
    os = (decimal (numeralValue os)).octets := by
  induction os using List.reverseRecOn with
  | nil => exact (h.ne_nil rfl).elim
  | append_singleton os o ih =>
    have ho : isDigit o = true := h.digits o (by simp)
    have hbounds := toNat_of_isDigit ho
    by_cases hne : os = []
    · subst hne
      rw [List.nil_append, numeralValue_singleton, octets_decimal_of_lt (by omega),
        ← eq_octet_digitChar ho]
    · obtain ⟨hos, hpos⟩ := h.of_concat hne
      have hwritten := ih hos
      have hvalue : numeralValue os ≠ 0 := by
        intro hzero
        rw [hzero] at hwritten
        exact hpos hwritten
      rw [numeralValue_concat, octets_decimal_snoc (by omega)]
      have hdiv : (10 * numeralValue os + (o.toNat - 48)) / 10 = numeralValue os := by omega
      have hmod : (10 * numeralValue os + (o.toNat - 48)) % 10 = o.toNat - 48 := by omega
      rw [hdiv, hmod, ← hwritten, ← eq_octet_digitChar ho]

/-! ### Signs -/

theorem octets_decimal_neg (n : Nat) :
    (decimal (-(n + 1 : Nat))).octets = 45 :: (decimal (n + 1 : Nat)).octets := by
  have hform : toString (-((n + 1 : Nat) : Int)) = "-" ++ toString ((n + 1 : Nat) : Int) := rfl
  rw [decimal, decimal, hform, ofString, ofString, String.toList_append, List.flatMap_append]
  rfl

/-- The decimal form of a number is canonical. -/
theorem canonical_decimal (v : Int) : Canonical (decimal v) v := by
  cases v with
  | ofNat n =>
    obtain ⟨hnum, hval⟩ := isNumeral_decimal n
    have h := Canonical.nonneg hnum
    rwa [hval] at h
  | negSucc n =>
    obtain ⟨hnum, hval⟩ := isNumeral_decimal (n + 1)
    have hpos : (decimal (n + 1 : Nat)).octets ≠ [48] := by
      intro hzero
      have := eq_zero_of_octets_decimal hzero
      omega
    have h := Canonical.neg hnum hpos
    rw [hval, ← octets_decimal_neg] at h
    exact h

/-- **The canonical form** of a number is its decimal form. -/
theorem canonical_iff {s : Text} {v : Int} : Canonical s v ↔ s = decimal v := by
  constructor
  · intro h
    cases h with
    | nonneg hnum => exact Text.ext (eq_decimal_of_isNumeral hnum)
    | @neg os hnum hzero =>
      have hwritten := eq_decimal_of_isNumeral hnum
      obtain ⟨n, hn⟩ : ∃ n, numeralValue os = n + 1 := by
        refine Nat.exists_eq_succ_of_ne_zero fun h => hzero ?_
        rw [hwritten, h]
        rfl
      apply Text.ext
      rw [hn] at hwritten ⊢
      rw [octets_decimal_neg, ← hwritten]
  · rintro rfl
    exact canonical_decimal v

theorem IsNumeral.ne_minus {os : List UInt8} (h : IsNumeral (45 :: os)) : False := by
  have hdigit := h.digits 45 List.mem_cons_self
  cases hdigit

/-- A text is the canonical form of one number. -/
theorem Canonical.unique {s : Text} {v w : Int} (h : Canonical s v) (h' : Canonical s w) :
    v = w := by
  cases h with
  | nonneg hnum =>
    cases h' with
    | nonneg _ => rfl
    | neg _ _ => exact hnum.ne_minus.elim
  | neg _ _ =>
    cases h' with
    | nonneg hnum => exact hnum.ne_minus.elim
    | neg _ _ => rfl

theorem decimal_injective {v w : Int} (h : decimal v = decimal w) : v = w :=
  (canonical_decimal v).unique (canonical_iff.2 h)

theorem Canonical.value_eq {s : Text} {v : Int} (h : Canonical s v) : s.value = v := by
  cases h with
  | @nonneg os hnum =>
    have hhead : os.head? ≠ some 45 := by
      intro hminus
      cases hnum.digits 45 (List.mem_of_head? hminus)
    exact if_neg hhead
  | neg hnum _ => exact if_pos rfl

end Text

/-- A text is a number in canonical form when it is the decimal form of it. -/
theorem canonicalImm?_eq_some_iff {s : Text} {v : Int64} :
    canonicalImm? s = some v ↔ s = Text.decimal v.toInt := by
  have hmin : Int64.minValue.toInt = -2 ^ 63 := by decide
  have hmax : Int64.maxValue.toInt = 2 ^ 63 - 1 := by decide
  unfold canonicalImm?
  dsimp only
  constructor
  · intro h
    split at h
    · rename_i hs
      have hround : (Int64.ofInt s.value).toInt = s.value :=
        Int64.toInt_ofInt_of_le (by omega) (by omega)
      rw [← Option.some.inj h, hround, hs.2.2]
    · cases h
  · rintro rfl
    have hlo := v.le_toInt
    have hhi := v.toInt_lt
    rw [(Text.canonical_decimal v.toInt).value_eq, if_pos ⟨by omega, by omega, rfl⟩,
      Int64.ofInt_toInt]

end CodeTiling
