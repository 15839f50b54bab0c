import CodeTiling.Proofs.WordLoops
import Mathlib.Data.List.Sort

/-!
# Enumeration of bit sets

The elements of a bit set are visited in increasing order until the visitor says to stop. In
storage that is a loop over the row of words, with a loop inside that takes the lowest bit off a
word until the word is zero; `Words.scanWord` and `Words.scan` are those loops. They are given a
number of turns for the inner loop, and have no result when a word needs more.

What a visitor sees of the elements, before it stops, is a matter of lists (`Bitmap.visit_eq`).
That a word is used up bit by bit, lowest bit first, is `Words.bitsOf_eq_cons`.

* `Bitmap.pairwise_toList` : the elements are listed in increasing order;
* `Bitmap.size_eq`, `Words.size_storage` : the number of elements, by counting bits;
* `Words.scanWord_eq` : a word is used up in as many turns as it has bits;
* `Words.scan_storage` : the loops in storage end, and visit as the library does;
* `Bitmap.enumeration_exact` : all of this for any visitor.
-/

namespace CodeTiling

namespace Bitmap

variable {σ : Type} (f : σ → Nat → σ × Bool) (s : Bitmap)

/-! ### Elements in order -/

theorem pairwise_bitsOf (w : UInt64) : (bitsOf w).Pairwise (· < ·) := by
  unfold bitsOf
  split
  · exact .nil
  · exact List.pairwise_lt_range.filter _

theorem pairwise_elementsFrom (base : Nat) (ws : List UInt64) :
    (elementsFrom base ws).Pairwise (· < ·) := by
  induction ws generalizing base with
  | nil => exact .nil
  | cons w ws ih =>
    refine List.pairwise_append.2 ⟨?_, ih (base + 64), fun i hi k hk => ?_⟩
    · exact (pairwise_bitsOf w).map _ fun _ _ h => Nat.add_lt_add_left h base
    · obtain ⟨j, hj, rfl⟩ := List.mem_map.1 hi
      have := testBit_lt (mem_bitsOf.1 hj)
      have := (mem_elementsFrom k).1 hk
      omega

theorem pairwise_toList : s.toList.Pairwise (· < ·) := by
  rw [toList_eq]
  exact pairwise_elementsFrom 0 s.words

theorem length_elementsFrom (base : Nat) (ws : List UInt64) :
    (elementsFrom base ws).length = (ws.map popCount).sum := by
  induction ws generalizing base with
  | nil => rfl
  | cons w ws ih => simp [elementsFrom, popCount, ih]

theorem size_eq : s.size = s.toList.length := by
  rw [toList_eq, length_elementsFrom, size, List.sum_eq_foldl, List.foldl_map]

/-! ### Visits -/

theorem visitList_append (acc : σ) (l l' : List Nat) :
    visitList f acc (l ++ l') =
      if (visitList f acc l).2 then visitList f (visitList f acc l).1 l'
      else visitList f acc l := by
  induction l generalizing acc with
  | nil => rfl
  | cons i l ih =>
    rw [List.cons_append, visitList, visitList]
    rcases f acc i with ⟨acc', _ | _⟩
    · rfl
    · exact ih acc'

theorem visitWords_eq (base : Nat) (acc : σ) (ws : List UInt64) :
    visitWords f base acc ws = visitList f acc (elementsFrom base ws) := by
  induction ws generalizing base acc with
  | nil => rfl
  | cons w ws ih =>
    rw [visitWords, elementsFrom, visitList_append]
    rcases visitList f acc ((bitsOf w).map (base + ·)) with ⟨acc', _ | _⟩
    · rfl
    · exact ih (base + 64) acc'

/-- A visitor goes along the list of the elements. -/
theorem visit_eq (init : σ) : s.visit f init = (visitList f init s.toList).1 := by
  rw [visit, visitWords_eq, toList_eq]

/-- Visitors that do the same on two views of their state come to the same. -/
theorem visitList_view {τ : Type} (view : σ → τ) (g : τ → Nat → τ × Bool)
    (h : ∀ acc i, g (view acc) i = (view (f acc i).1, (f acc i).2)) (acc : σ) (l : List Nat) :
    visitList g (view acc) l = (view (visitList f acc l).1, (visitList f acc l).2) := by
  induction l generalizing acc with
  | nil => rfl
  | cons i l ih =>
    rw [visitList, visitList, h]
    rcases f acc i with ⟨acc', _ | _⟩
    · rfl
    · exact ih acc'

/-- The visitor that keeps what it has seen, and goes on as long as `go` says so of that. -/
def recorder (go : List Nat → Bool) (seen : List Nat) (i : Nat) : List Nat × Bool :=
  (seen ++ [i], go (seen ++ [i]))

variable {go : List Nat → Bool} {seen l : List Nat} {k : Nat}

theorem visitList_recorder (hgo : ∀ m < k, go (seen ++ l.take (m + 1)) = true) :
    visitList (recorder go) seen (l.take k) = (seen ++ l.take k, true) := by
  induction k generalizing seen l with
  | zero => simp [visitList]
  | succ k ih =>
    cases l with
    | nil => simp [visitList]
    | cons i l =>
      have hi : go (seen ++ [i]) = true := by simpa using hgo 0 (Nat.succ_pos k)
      have hrest : visitList (recorder go) (seen ++ [i]) (l.take k) =
          (seen ++ [i] ++ l.take k, true) := by
        refine ih fun m hm => ?_
        simpa using hgo (m + 1) (Nat.succ_lt_succ hm)
      rw [List.take_succ_cons, visitList, recorder, hi]
      simpa using hrest

/-- A visitor that is told to stop by what it has seen after `k + 1` visits has seen that. -/
theorem visitList_recorder_stop (hk : k < l.length)
    (hgo : ∀ m < k, go (seen ++ l.take (m + 1)) = true)
    (hstop : go (seen ++ l.take (k + 1)) = false) :
    visitList (recorder go) seen l = (seen ++ l.take (k + 1), false) := by
  have htake : l.take (k + 1) = l.take k ++ [l[k]] := (List.take_append_getElem hk).symm
  have hsplit : l = l.take k ++ l[k] :: l.drop (k + 1) := by
    rw [List.getElem_cons_drop, List.take_append_drop]
  have hlast : recorder go (seen ++ l.take k) l[k] = (seen ++ l.take (k + 1), false) := by
    rw [recorder, List.append_assoc, ← htake, hstop]
  calc visitList (recorder go) seen l
      = visitList (recorder go) seen (l.take k ++ l[k] :: l.drop (k + 1)) := by rw [← hsplit]
    _ = visitList (recorder go) (seen ++ l.take k) (l[k] :: l.drop (k + 1)) := by
        rw [visitList_append, visitList_recorder hgo]
        rfl
    _ = (seen ++ l.take (k + 1), false) := by rw [visitList, hlast]

end Bitmap

namespace Words

open Bitmap (bit testBit bitsOf visitList elementsFrom)

variable {σ : Type} (f : σ → Nat → σ × Bool)

/-! ### The loops -/

/-- The number of zero bits below the lowest bit that is set. -/
def trailingZeros (w : UInt64) : Nat := w.toBitVec.ctz.toNat

/-- The word without its lowest bit. -/
def strip (w : UInt64) : UInt64 := w &&& ~~~bit (trailingZeros w)

/-- The number of bits that are set. -/
def onesCount (w : UInt64) : Nat := w.toBitVec.cpop.toNat

/-- Visit the bits of a word that starts at `base`, taking off the lowest bit in each turn. There is
no result when the word is not used up after the given number of turns. -/
def scanWord (base : Nat) : Nat → σ → UInt64 → Option (σ × Bool)
  | 0, acc, w => if w = 0 then some (acc, true) else none
  | turns + 1, acc, w =>
    if w = 0 then some (acc, true)
    else
      let r := f acc (base + trailingZeros w)
      if r.2 then scanWord base turns r.1 (strip w) else some r

/-- Visit the bits of words from place `k` on, until the visitor says to stop. -/
def scanFrom (turns k : Nat) : σ → List UInt64 → Option σ
  | acc, [] => some acc
  | acc, w :: ws => do
    let r ← scanWord f (k * 64) turns acc w
    if r.2 then scanFrom turns (k + 1) r.1 ws else some r.1

/-- Visit the bits of a row. -/
def scan (turns : Nat) (init : σ) (ws : List UInt64) : Option σ := scanFrom f turns 0 init ws

/-- The numbers of the bits of a row, as they are visited. -/
def slice (turns : Nat) (ws : List UInt64) : Option (List Nat) :=
  scan (fun seen i => (seen ++ [i], true)) turns [] ws

/-- The number of bits of a row. -/
def size (ws : List UInt64) : Nat := ws.foldl (fun n w => n + onesCount w) 0

/-! ### One word -/

section

variable {w : UInt64} {j : Nat}

theorem testBit_trailingZeros (h : w ≠ 0) : testBit w (trailingZeros w) = true :=
  BitVec.getLsbD_true_ctz_of_ne_zero fun h' => h (UInt64.toBitVec_inj.1 h')

theorem trailingZeros_le (h : testBit w j = true) : trailingZeros w ≤ j := by
  by_contra hj
  have hfalse : testBit w j = false := BitVec.getLsbD_false_of_lt_ctz (Nat.lt_of_not_le hj)
  exact Bool.false_ne_true (hfalse.symm.trans h)

theorem testBit_strip (h : w ≠ 0) :
    testBit (strip w) j = true ↔ testBit w j = true ∧ j ≠ trailingZeros w := by
  have hlt := Bitmap.testBit_lt (testBit_trailingZeros h)
  by_cases hj : j < 64
  · rw [strip, Bitmap.testBit_andNot hj, Bitmap.testBit_bit hlt, Bool.and_eq_true,
      Bool.not_eq_true', decide_eq_false_iff_not, ne_comm]
  · exact iff_of_false (mt Bitmap.testBit_lt hj) fun hw => hj (Bitmap.testBit_lt hw.1)

/-- The lowest bit of a word comes first, and then the bits of the word without it. -/
theorem bitsOf_eq_cons (h : w ≠ 0) : bitsOf w = trailingZeros w :: bitsOf (strip w) := by
  have hsorted : (trailingZeros w :: bitsOf (strip w)).Pairwise (· < ·) := by
    refine List.pairwise_cons.2 ⟨fun j hj => ?_, Bitmap.pairwise_bitsOf _⟩
    obtain ⟨hbit, hne⟩ := (testBit_strip h).1 (Bitmap.mem_bitsOf.1 hj)
    exact Nat.lt_of_le_of_ne (trailingZeros_le hbit) (Ne.symm hne)
  refine (Bitmap.pairwise_bitsOf w).eq_of_mem_iff hsorted fun j => ?_
  rw [Bitmap.mem_bitsOf, List.mem_cons, Bitmap.mem_bitsOf, testBit_strip h]
  constructor
  · intro hj
    by_cases heq : j = trailingZeros w
    · exact .inl heq
    · exact .inr ⟨hj, heq⟩
  · rintro (rfl | ⟨hj, -⟩)
    · exact testBit_trailingZeros h
    · exact hj

theorem length_filter_testBit (w : UInt64) (n : Nat) :
    ((List.range n).filter (testBit w)).length = w.toBitVec.cpopNatRec n 0 := by
  induction n with
  | zero => rfl
  | succ n ih =>
    have hbit : ([n].filter (testBit w)).length = (testBit w n).toNat := by
      cases h : testBit w n <;> simp [h]
    rw [List.range_succ, List.filter_append, List.length_append, ih, hbit,
      BitVec.cpopNatRec_succ, BitVec.cpopNatRec_eq (0 + _), Nat.zero_add]
    rfl

theorem onesCount_eq (w : UInt64) : onesCount w = Bitmap.popCount w := by
  rw [onesCount, BitVec.toNat_cpop, ← length_filter_testBit, Bitmap.popCount, bitsOf]
  split
  · rename_i h
    simp [h]
  · rfl

theorem length_bitsOf_le (w : UInt64) : (bitsOf w).length ≤ 64 := by
  change Bitmap.popCount w ≤ 64
  rw [← onesCount_eq]
  exact BitVec.toNat_cpop_le _

/-- A word is used up in as many turns as it has bits, and the bits are visited in order. -/
theorem scanWord_eq {base turns : Nat} {acc : σ} (h : (bitsOf w).length ≤ turns) :
    scanWord f base turns acc w = some (visitList f acc ((bitsOf w).map (base + ·))) := by
  induction turns generalizing acc w with
  | zero =>
    have hw : w = 0 := by
      by_contra hne
      rw [bitsOf_eq_cons hne] at h
      cases h
    rw [scanWord, if_pos hw, hw]
    rfl
  | succ turns ih =>
    unfold scanWord
    split
    · rename_i hw
      rw [hw]
      rfl
    · rename_i hw
      have hbits := bitsOf_eq_cons hw
      have hrest : (bitsOf (strip w)).length ≤ turns := by
        rw [hbits, List.length_cons] at h
        omega
      rw [hbits, List.map_cons, visitList]
      rcases f acc (base + trailingZeros w) with ⟨acc', _ | _⟩
      · rfl
      · exact ih hrest

end

/-! ### A row of words -/

variable {turns k : Nat} {acc : σ}

theorem scanFrom_eq (h : 64 ≤ turns) (ws : List UInt64) :
    scanFrom f turns k acc ws = some (visitList f acc (elementsFrom (k * 64) ws)).1 := by
  induction ws generalizing k acc with
  | nil => rfl
  | cons w ws ih =>
    rw [scanFrom, scanWord_eq f ((length_bitsOf_le w).trans h), elementsFrom,
      Bitmap.visitList_append]
    rcases visitList f acc ((bitsOf w).map (k * 64 + ·)) with ⟨acc', _ | _⟩
    · rfl
    · rw [← Nat.succ_mul]
      exact ih

theorem elementsFrom_append_zeros (base n : Nat) (ws : List UInt64) :
    elementsFrom base (ws ++ List.replicate n 0) = elementsFrom base ws := by
  induction ws generalizing base with
  | nil =>
    induction n generalizing base with
    | zero => rfl
    | succ n ih => exact ih (base + 64)
  | cons w ws ih => rw [List.cons_append, elementsFrom, elementsFrom, ih]

variable (s : Bitmap)

theorem elementsFrom_storage : elementsFrom 0 s.storage = s.toList := by
  rw [Bitmap.storage, Bitmap.padTo, elementsFrom_append_zeros, Bitmap.toList_eq]

/-- The loops in storage end, whatever the visitor, and visit as the library does. -/
theorem scan_storage (h : 64 ≤ turns) (init : σ) :
    scan f turns init s.storage = some (s.visit f init) := by
  rw [scan, scanFrom_eq f h, Nat.zero_mul, elementsFrom_storage, Bitmap.visit_eq]

theorem size_storage : size s.storage = s.size := by
  have hsum : size s.storage = (s.storage.map Bitmap.popCount).sum := by
    simp only [size, onesCount_eq, List.sum_eq_foldl, List.foldl_map]
  rw [hsum, ← Bitmap.length_elementsFrom 0, elementsFrom_storage, Bitmap.size_eq]

end Words

namespace Bitmap

/-! ### Enumeration is exact -/

/-- What a visitor sees that goes on as long as `go` says so of what it has seen. -/
def seenBy (s : Bitmap) (go : List Nat → Bool) : List Nat := s.visit (recorder go) []

section

variable {s : Bitmap} {go : List Nat → Bool} {k : Nat}

theorem seenBy_of_forall (h : ∀ m < s.toList.length, go (s.toList.take (m + 1)) = true) :
    s.seenBy go = s.toList := by
  have hall := @visitList_recorder go [] s.toList s.toList.length h
  rw [List.take_length] at hall
  rw [seenBy, visit_eq, hall]
  rfl

theorem seenBy_of_stop (hk : k < s.toList.length)
    (hgo : ∀ m < k, go (s.toList.take (m + 1)) = true)
    (hstop : go (s.toList.take (k + 1)) = false) : s.seenBy go = s.toList.take (k + 1) := by
  rw [seenBy, visit_eq, visitList_recorder_stop hk hgo hstop]
  rfl

theorem visited_eq_seenBy (n : Int) :
    s.visited n = s.seenBy fun seen => decide ((seen.length : Int) < n) := by
  rw [visited, visit_eq, seenBy, visit_eq]
  -- the visitor counts what it has seen, and keeps it from last to first
  refine (congrArg (·.1.1.reverse) (visitList_view (recorder _)
    (fun seen => (seen.reverse, (seen.length : Int))) _ (fun seen i => ?_) [] s.toList)).trans
    (List.reverse_reverse _)
  simp [recorder]

theorem visited_succ (k : Nat) : s.visited ((k + 1 : Nat) : Int) = s.toList.take (k + 1) := by
  rw [visited_eq_seenBy]
  by_cases hk : k < s.toList.length
  · refine seenBy_of_stop hk (fun m hm => ?_) ?_
    · rw [decide_eq_true_iff, List.length_take]
      omega
    · rw [decide_eq_false_iff_not, List.length_take]
      omega
  · rw [List.take_of_length_le (by omega)]
    refine seenBy_of_forall fun m hm => ?_
    rw [decide_eq_true_iff, List.length_take]
    omega

end

/-- **Enumeration is exact.** The elements of a bit set are listed in increasing order, and are as
many as bits are set. The loops in storage end after at most 64 turns for each word and come to that
list. Whatever the visitor, they show it what the library shows it: all elements if it always goes
on, and the `k + 1` smallest ones if it stops when it has seen those. -/
theorem enumeration_exact (s : Bitmap) :
    s.toList.Pairwise (· < ·) ∧ (∀ i, i ∈ s.toList ↔ s.contains i = true) ∧
    (∀ turns, 64 ≤ turns → Words.slice turns s.storage = some s.toList) ∧
    s.size = s.toList.length ∧ Words.size s.storage = s.toList.length ∧
    (∀ k : Nat, s.visited (k + 1 : Nat) = s.toList.take (k + 1)) ∧
    ∀ go : List Nat → Bool,
      (∀ turns, 64 ≤ turns →
        Words.scan (recorder go) turns [] s.storage = some (s.seenBy go)) ∧
      ((∀ k < s.size, go (s.toList.take (k + 1)) = true) → s.seenBy go = s.toList) ∧
      ∀ k < s.size, (∀ m < k, go (s.toList.take (m + 1)) = true) →
        go (s.toList.take (k + 1)) = false → s.seenBy go = s.toList.take (k + 1) := by
  have hall : s.seenBy (fun _ => true) = s.toList := seenBy_of_forall fun _ _ => rfl
  refine ⟨s.pairwise_toList, fun i => mem_toList i, fun turns h => ?_, s.size_eq, ?_,
    visited_succ, fun go => ?_⟩
  · rw [← hall]
    exact Words.scan_storage (recorder fun _ => true) s h []
  · rw [Words.size_storage, size_eq]
  · rw [size_eq]
    exact ⟨fun turns h => Words.scan_storage _ s h [], seenBy_of_forall, fun _ => seenBy_of_stop⟩

end Bitmap

end CodeTiling
