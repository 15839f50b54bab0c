import CodeTiling.Bits.Bitmap
import Mathlib.Data.Nat.Bitwise

/-!
# Bit sets through their view

`Bitmap.contains` is the view of a bit set. What an operation does to the words is said first
(`word_insert`, `word_erase`, `word_union`, `word_diff`), then what it does to the view.

* `contains_insert`, `contains_erase`, `contains_union`, `contains_diff`, `contains_copy`,
  `contains_empty`;
* `equal_iff`, `equal_iff_word` : two bit sets are equal when they have the same numbers;
* `grownBy_iff` : a set is grown by one that has a number it has not;
* `mem_toList` : the elements are the numbers in the set.
-/

namespace CodeTiling

namespace Bitmap

/-! ### Words -/

variable {v w : UInt64} {j k : Nat}

theorem testBit_lt (h : testBit w j = true) : j < 64 := by
  by_contra hj
  have hlt : w.toNat < 2 ^ j :=
    lt_of_lt_of_le w.toNat_lt (Nat.pow_le_pow_right (by decide) (Nat.le_of_not_lt hj))
  rw [testBit, Nat.testBit_lt_two_pow hlt] at h
  cases h

@[simp]
theorem testBit_zero : testBit 0 j = false := Nat.zero_testBit j

@[simp]
theorem testBit_or : testBit (v ||| w) j = (testBit v j || testBit w j) := by
  simp [testBit, Nat.testBit_or]

theorem testBit_andNot (hj : j < 64) :
    testBit (v &&& ~~~w) j = (testBit v j && !testBit w j) := by
  have hnot : (~~~w).toNat = 2 ^ 64 - (w.toNat + 1) := by
    rw [UInt64.toNat_not, UInt64.size]
    omega
  rw [testBit, UInt64.toNat_and, Nat.testBit_and, hnot, Nat.testBit_two_pow_sub_succ w.toNat_lt]
  simp [testBit, hj]

theorem testBit_bit (hj : j < 64) : testBit (bit j) k = decide (j = k) := by
  have hlt : 2 ^ j < 2 ^ 64 := Nat.pow_lt_pow_right (by decide) hj
  rw [testBit, bit, UInt64.toNat_ofNat', Nat.one_shiftLeft, Nat.mod_eq_of_lt hlt,
    Nat.testBit_two_pow]

theorem eq_zero_iff : w = 0 ↔ ∀ j < 64, testBit w j = false := by
  refine ⟨by rintro rfl; simp, fun h => UInt64.toNat_inj.1 (Nat.eq_of_testBit_eq fun j => ?_)⟩
  rw [UInt64.toNat_zero, Nat.zero_testBit]
  by_contra hj
  rw [Bool.not_eq_false] at hj
  have := h j (testBit_lt hj)
  exact Bool.false_ne_true (this.symm.trans hj)

theorem ext_testBit (h : ∀ j < 64, testBit v j = testBit w j) : v = w := by
  refine UInt64.toNat_inj.1 (Nat.eq_of_testBit_eq fun j => ?_)
  by_cases hj : j < 64
  · exact h j hj
  · have hv : testBit v j = false := Bool.eq_false_iff.2 fun hb => hj (testBit_lt hb)
    have hw : testBit w j = false := Bool.eq_false_iff.2 fun hb => hj (testBit_lt hb)
    exact hv.trans hw.symm

theorem and_bit_ne_zero (hj : j < 64) : (w &&& bit j != 0) = testBit w j := by
  have hbits : ∀ k, testBit (w &&& bit j) k = (testBit w k && decide (j = k)) := fun k => by
    rw [← testBit_bit hj, testBit, UInt64.toNat_and, Nat.testBit_and]
    rfl
  refine Bool.eq_iff_iff.2 ?_
  rw [bne_iff_ne, ne_eq, eq_zero_iff]
  simp only [hbits]
  constructor
  · intro h
    by_contra hw
    exact h fun k _ => by
      by_cases hk : j = k
      · simpa [← hk] using hw
      · simp [hk]
  · intro hw h
    simpa [hw] using h j hj

theorem or_eq_left_iff : v ||| w = v ↔ w &&& ~~~v = 0 := by
  rw [eq_zero_iff]
  constructor
  · intro h j hj
    rw [testBit_andNot hj, ← h, testBit_or]
    cases testBit v j <;> simp
  · intro h
    refine ext_testBit fun j hj => ?_
    have := h j hj
    rw [testBit_andNot hj] at this
    rw [testBit_or]
    revert this
    cases testBit v j <;> simp

theorem mem_bitsOf : j ∈ bitsOf w ↔ testBit w j = true := by
  unfold bitsOf
  split
  · rename_i h
    simp [h]
  · rw [List.mem_filter, List.mem_range]
    exact ⟨And.right, fun h => ⟨testBit_lt h, h⟩⟩

/-! ### Lists of words -/

/-- Words that are joined one by one. The longer list goes on alone; `tail` is how the second one
does. -/
theorem getD_zip (op : UInt64 → UInt64 → UInt64) (tail : List UInt64 → List UInt64)
    (hop : ∀ v, op v 0 = v) (hnil : tail [] = [])
    (htail : ∀ ws k, (tail ws).getD k 0 = op 0 (ws.getD k 0)) (vs ws : List UInt64) (k : Nat) :
    (List.zipWith op vs ws ++ vs.drop ws.length ++ tail (ws.drop vs.length)).getD k 0 =
      op (vs.getD k 0) (ws.getD k 0) := by
  induction vs generalizing ws k with
  | nil => simpa using htail ws k
  | cons v vs ih =>
    cases ws with
    | nil => simp [hop, hnil]
    | cons w ws =>
      cases k with
      | zero => rfl
      | succ k => exact ih ws k

theorem getD_padTo (n : Nat) (ws : List UInt64) (k : Nat) :
    (padTo n ws).getD k 0 = ws.getD k 0 := by
  induction ws generalizing n k with
  | nil => simp [padTo]
  | cons w ws ih =>
    have hcons : padTo n (w :: ws) = w :: padTo (n - 1) ws := by
      simp [padTo, Nat.sub_sub, Nat.add_comm]
    rw [hcons]
    cases k with
    | zero => rfl
    | succ k => exact ih (n - 1) k

variable (s x : Bitmap) (i : Nat)

theorem word_insert :
    (s.insert i).word k = if k = i / 64 then s.word k ||| bit (i % 64) else s.word k := by
  have hword : s.word k = ((padTo (i / 64 + 1) s.words)[k]?).getD 0 := by
    rw [← List.getD_eq_getElem?_getD, getD_padTo]
    rfl
  rw [hword, insert, word, List.getD_eq_getElem?_getD, List.getElem?_modify]
  by_cases hk : k = i / 64
  · have hlt : k < (padTo (i / 64 + 1) s.words).length := by
      rw [padTo, List.length_append, List.length_replicate]
      omega
    rw [if_pos hk, List.getElem?_eq_getElem hlt]
    simp [hk]
  · simp [hk, Ne.symm hk]

theorem word_erase :
    (s.erase i).word k = if k = i / 64 then s.word k &&& ~~~bit (i % 64) else s.word k := by
  rw [erase, word, List.getD_eq_getElem?_getD, List.getElem?_modify, word,
    List.getD_eq_getElem?_getD]
  cases s.words[k]? with
  | none => simp
  | some w => simp [eq_comm]

theorem word_union : (s.union x).word k = s.word k ||| x.word k :=
  getD_zip (· ||| ·) id (by simp) rfl (by simp) s.words x.words k

theorem word_diff : (s.diff x).word k = s.word k &&& ~~~x.word k := by
  have h := getD_zip (fun v w => v &&& ~~~w) (fun _ => []) (by simp) rfl (by simp)
    s.words x.words k
  rwa [List.append_nil] at h

/-! ### The view -/

@[simp]
theorem contains_empty : ({} : Bitmap).contains i = false := by simp [contains, word]

@[simp]
theorem contains_copy : s.copy.contains i = s.contains i := rfl

@[simp]
theorem contains_insert : (s.insert i).contains j = (s.contains j || decide (j = i)) := by
  have hij : j = i ↔ j / 64 = i / 64 ∧ i % 64 = j % 64 := by omega
  rw [contains, word_insert]
  split
  · rename_i hk
    simp [testBit_bit (Nat.mod_lt i (by decide)), contains, hij, hk]
  · rename_i hk
    simp [contains, hij, hk]

@[simp]
theorem contains_erase : (s.erase i).contains j = (s.contains j && decide (j ≠ i)) := by
  have hij : j = i ↔ j / 64 = i / 64 ∧ i % 64 = j % 64 := by omega
  rw [contains, word_erase]
  split
  · rename_i hk
    rw [testBit_andNot (Nat.mod_lt j (by decide)), testBit_bit (Nat.mod_lt i (by decide))]
    simp [contains, hij, hk]
  · rename_i hk
    simp [contains, hij, hk]

@[simp]
theorem contains_union : (s.union x).contains i = (s.contains i || x.contains i) := by
  rw [contains, word_union, testBit_or]
  rfl

@[simp]
theorem contains_diff : (s.diff x).contains i = (s.contains i && !x.contains i) := by
  rw [contains, word_diff, testBit_andNot (Nat.mod_lt i (by decide))]
  rfl

theorem isEmpty_iff_word : s.isEmpty = true ↔ ∀ k, s.word k = 0 := by
  simp only [isEmpty, List.all_eq_true, beq_iff_eq, word]
  constructor
  · intro h k
    by_cases hk : k < s.words.length
    · rw [List.getD_eq_getElem _ _ hk]
      exact h _ (List.getElem_mem hk)
    · exact List.getD_eq_default _ _ (Nat.le_of_not_lt hk)
  · intro h w hw
    obtain ⟨k, hk, rfl⟩ := List.mem_iff_getElem.1 hw
    rw [← List.getD_eq_getElem _ 0 hk]
    exact h k

theorem isEmpty_iff : s.isEmpty = true ↔ ∀ i, s.contains i = false := by
  rw [isEmpty_iff_word]
  constructor
  · intro h i
    rw [contains, h, testBit_zero]
  · intro h k
    refine eq_zero_iff.2 fun j hj => ?_
    have := h (64 * k + j)
    rwa [contains, show (64 * k + j) / 64 = k by omega, show (64 * k + j) % 64 = j by omega] at this

variable {s x}

theorem equal_iff : s.equal x = true ↔ ∀ i, s.contains i = x.contains i := by
  simp only [equal, Bool.and_eq_true, isEmpty_iff, contains_diff]
  constructor
  · rintro ⟨hs, hx⟩ i
    have := hs i
    have := hx i
    cases hsi : s.contains i <;> cases hxi : x.contains i <;> simp_all
  · intro h
    simp [h]

theorem equal_iff_word : s.equal x = true ↔ ∀ k, s.word k = x.word k := by
  refine equal_iff.trans ⟨fun h k => ext_testBit fun j hj => ?_, fun h i => ?_⟩
  · have := h (64 * k + j)
    rwa [contains, contains, show (64 * k + j) / 64 = k by omega,
      show (64 * k + j) % 64 = j by omega] at this
  · rw [contains, contains, h]

theorem grownBy_iff : s.grownBy x = true ↔ ∃ i, x.contains i = true ∧ s.contains i = false := by
  rw [grownBy, Bool.not_eq_true', ← Bool.not_eq_true, isEmpty_iff]
  simp

/-! ### Elements -/

/-- The numbers in words, the first of which starts at `base`. -/
def elementsFrom (base : Nat) : List UInt64 → List Nat
  | [] => []
  | w :: ws => (bitsOf w).map (base + ·) ++ elementsFrom (base + 64) ws

theorem visitList_cons (l acc : List Nat) :
    visitList (fun seen i => (i :: seen, true)) acc l = (l.reverse ++ acc, true) := by
  induction l generalizing acc with
  | nil => rfl
  | cons i l ih => simp [visitList, ih]

theorem visitWords_cons (ws : List UInt64) (base : Nat) (acc : List Nat) :
    visitWords (fun seen i => (i :: seen, true)) base acc ws =
      ((elementsFrom base ws).reverse ++ acc, true) := by
  induction ws generalizing base acc with
  | nil => rfl
  | cons w ws ih => simp [visitWords, visitList_cons, ih, elementsFrom]

theorem toList_eq : s.toList = elementsFrom 0 s.words := by
  simp [toList, visit, visitWords_cons]

theorem mem_elementsFrom {base : Nat} {ws : List UInt64} :
    i ∈ elementsFrom base ws ↔
      base ≤ i ∧ testBit (ws.getD ((i - base) / 64) 0) ((i - base) % 64) = true := by
  induction ws generalizing base with
  | nil => simp [elementsFrom]
  | cons w ws ih =>
    rw [elementsFrom, List.mem_append, ih, List.mem_map]
    rcases Nat.lt_or_ge i (base + 64) with hlt | hge
    · -- the number is in the first word
      have hdiv : (i - base) / 64 = 0 := by omega
      have hmod : (i - base) % 64 = i - base := by omega
      rw [hdiv, hmod, List.getD_cons_zero]
      constructor
      · rintro (⟨j, hj, rfl⟩ | ⟨hle, -⟩)
        · rw [Nat.add_sub_cancel_left]
          exact ⟨Nat.le_add_right _ _, mem_bitsOf.1 hj⟩
        · omega
      · rintro ⟨hle, hbit⟩
        exact .inl ⟨i - base, mem_bitsOf.2 hbit, by omega⟩
    · have hdiv : (i - base) / 64 = (i - (base + 64)) / 64 + 1 := by omega
      have hmod : (i - base) % 64 = (i - (base + 64)) % 64 := by omega
      rw [hdiv, hmod, List.getD_cons_succ]
      constructor
      · rintro (⟨j, hj, rfl⟩ | ⟨-, hbit⟩)
        · have := testBit_lt (mem_bitsOf.1 hj)
          omega
        · exact ⟨by omega, hbit⟩
      · rintro ⟨-, hbit⟩
        exact .inr ⟨hge, hbit⟩

theorem mem_toList : i ∈ s.toList ↔ s.contains i = true := by
  rw [toList_eq, mem_elementsFrom]
  simp [contains, word]

end Bitmap

end CodeTiling
