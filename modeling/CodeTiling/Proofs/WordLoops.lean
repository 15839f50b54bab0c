import CodeTiling.Proofs.BitSets

/-!
# Bit sets in storage

The bitmaps of the library are values. In storage a bitmap is a row of words, and an operation is
a loop that reads and writes one word after another; a word that is not there stops it with
`Fault.outOfRange`. The loops are written out here on the whole row, each access checked, and
each one is shown to end, without a fault, in the storage of the bitmap that the library returns.

* `Bitmap.storage` : the words that a bitmap has room for;
* `Words.insert_storage`, `Words.erase_storage`, `Words.contains_storage`;
* `Words.unionFrom_eq`, `Words.union_storage` : the union and whether it changed anything;
* `Words.diff_storage`, `Words.copy_storage`, `Words.equal_storage`.
-/

namespace CodeTiling

/-- Why an operation on storage does not go through. -/
inductive Fault where
  /-- A word was read or written that is not there. -/
  | outOfRange
  /-- There is no storage of the size that was asked for. -/
  | noMemory
deriving DecidableEq, Repr

namespace Words

open Bitmap (bit padTo)

/-! ### The loops -/

/-- The word at a place. -/
def fetch (ws : List UInt64) (k : Nat) : Except Fault UInt64 :=
  match ws[k]? with
  | some w => .ok w
  | none => .error .outOfRange

/-- Change the word at a place. -/
def change (ws : List UInt64) (k : Nat) (f : UInt64 → UInt64) : Except Fault (List UInt64) := do
  let w ← fetch ws k
  return ws.set k (f w)

/-- Set the bit of `i`, after the row has grown to hold its word. -/
def insert (ws : List UInt64) (i : Nat) : Except Fault (List UInt64) :=
  change (padTo (i / 64 + 1) ws) (i / 64) (· ||| bit (i % 64))

/-- Clear the bit of `i`. -/
def erase (ws : List UInt64) (i : Nat) : Except Fault (List UInt64) :=
  if ws.length ≤ i / 64 then .ok ws else change ws (i / 64) (· &&& ~~~bit (i % 64))

/-- Read the bit of `i`. -/
def contains (ws : List UInt64) (i : Nat) : Except Fault Bool :=
  if ws.length ≤ i / 64 then .ok false
  else do
    let w ← fetch ws (i / 64)
    return w &&& bit (i % 64) != 0

/-- Unite words into a row from place `k` on, keeping track of whether one of them changed. -/
def unionFrom (ws : List UInt64) (changed : Bool) (k : Nat) :
    List UInt64 → Except Fault (List UInt64 × Bool)
  | [] => .ok (ws, changed)
  | x :: xs => do
    let w ← fetch ws k
    unionFrom (ws.set k (w ||| x)) (changed || w ||| x != w) (k + 1) xs

/-- Unite a row with another one, after it has grown to the other's length. -/
def union (ws xs : List UInt64) : Except Fault (List UInt64 × Bool) :=
  unionFrom (padTo xs.length ws) false 0 xs

/-- Subtract words from a row from place `k` on, up to its end. -/
def diffFrom (ws : List UInt64) (k : Nat) : List UInt64 → Except Fault (List UInt64)
  | [] => .ok ws
  | x :: xs =>
    if k = ws.length then .ok ws
    else do
      let ws' ← change ws k (· &&& ~~~x)
      diffFrom ws' (k + 1) xs

/-- Subtract a row from another one. -/
def diff (ws xs : List UInt64) : Except Fault (List UInt64) := diffFrom ws 0 xs

/-- A row of zeros with room for `n` numbers. -/
def make (n : Nat) : Except Fault (List UInt64) :=
  match Bitmap.wordsFor n with
  | some k => .ok (List.replicate k 0)
  | none => .error .noMemory

/-- The words of a row written over the start of a row of zeros for as many numbers. -/
def copy (ws : List UInt64) : List UInt64 :=
  let room := (64 * ws.length + 63) / 64
  ws.take room ++ List.replicate (room - ws.length) 0

/-- The word at a place, zero past the end. -/
def word (ws : List UInt64) (k : Nat) : Except Fault UInt64 :=
  if ws.length ≤ k then .ok 0 else fetch ws k

/-- Compare the next `n` words from place `k` on, up to the first two that differ. -/
def equalFrom (ws xs : List UInt64) (k : Nat) : Nat → Except Fault Bool
  | 0 => .ok true
  | n + 1 => do
    let w ← word ws k
    let x ← word xs k
    if w = x then equalFrom ws xs (k + 1) n else return false

/-- Compare two rows over the length of the longer one. -/
def equal (ws xs : List UInt64) : Except Fault Bool :=
  equalFrom ws xs 0 (max ws.length xs.length)

/-! ### One access -/

variable {ws xs : List UInt64} {k n : Nat}

theorem fetch_eq (h : k < ws.length) : fetch ws k = .ok (ws.getD k 0) := by
  rw [fetch, List.getElem?_eq_getElem h, List.getD_eq_getElem _ _ h]

theorem change_eq (f : UInt64 → UInt64) (h : k < ws.length) :
    change ws k f = .ok (ws.set k (f (ws.getD k 0))) := by
  rw [change, fetch_eq h]
  rfl

theorem word_eq : word ws k = .ok (ws.getD k 0) := by
  unfold word
  split
  · rename_i h
    rw [List.getD_eq_default _ _ h]
  · rename_i h
    exact fetch_eq (Nat.lt_of_not_le h)

theorem getD_set (w : UInt64) (h : k < ws.length) :
    (ws.set k w).getD n 0 = if n = k then w else ws.getD n 0 := by
  rw [List.getD_eq_getElem?_getD, List.getElem?_set, List.getD_eq_getElem?_getD]
  by_cases hk : n = k
  · simp [hk, h]
  · simp [hk, Ne.symm hk]

theorem ext_getD (hlen : ws.length = xs.length) (h : ∀ k, ws.getD k 0 = xs.getD k 0) :
    ws = xs := by
  refine List.ext_getElem hlen fun k hk hk' => ?_
  rw [← List.getD_eq_getElem _ 0 hk, ← List.getD_eq_getElem _ 0 hk']
  exact h k

theorem length_padTo : (padTo n ws).length = max n ws.length := by
  rw [padTo, List.length_append, List.length_replicate]
  omega

end Words

namespace Bitmap

variable (s x : Bitmap) {ws : List UInt64} {i k n : Nat}

/-! ### Storage of a bitmap -/

/-- The words that a bitmap has room for. -/
def storage : List UInt64 := padTo s.room s.words

@[simp]
theorem getD_storage : s.storage.getD k 0 = s.word k := getD_padTo s.room s.words k

theorem length_storage : s.storage.length = max s.room s.words.length := Words.length_padTo

variable {s} in
theorem eq_storage (hlen : ws.length = s.storage.length) (h : ∀ k, ws.getD k 0 = s.word k) :
    ws = s.storage :=
  Words.ext_getD hlen fun k => by rw [h, getD_storage]

theorem word_of_length_le (h : s.storage.length ≤ k) : s.word k = 0 := by
  rw [← getD_storage, List.getD_eq_default _ _ h]

@[simp]
theorem room_grow : (s.grow n).room = max s.room n := by
  unfold grow
  split
  · rename_i h
    exact (max_eq_right h.le).symm
  · rename_i h
    exact (max_eq_left (Nat.le_of_not_lt h)).symm

theorem length_storage_insert :
    (s.insert i).storage.length = max (i / 64 + 1) s.storage.length := by
  have hroom : (s.insert i).room = max s.room (i / 64 + 1) := s.room_grow
  rw [length_storage, length_storage, hroom, insert, List.length_modify, Words.length_padTo]
  omega

theorem length_storage_erase : (s.erase i).storage.length = s.storage.length := by
  rw [length_storage, length_storage, erase, List.length_modify]
  rfl

theorem length_storage_union :
    (s.union x).storage.length = max s.storage.length x.storage.length := by
  have hroom : (s.union x).room = max s.room x.room := s.room_grow
  rw [length_storage, length_storage, length_storage, hroom, union]
  simp only [List.length_append, List.length_zipWith, List.length_drop]
  omega

theorem length_storage_diff : (s.diff x).storage.length = s.storage.length := by
  have hroom : (s.diff x).room = s.room := rfl
  rw [length_storage, length_storage, hroom, diff]
  simp only [List.length_append, List.length_zipWith, List.length_drop]
  omega

end Bitmap

namespace Words

open Bitmap (bit padTo)

variable (s : Bitmap) {ws xs : List UInt64} {i k n : Nat}

/-! ### One bit -/

theorem insert_storage : insert s.storage i = .ok (s.insert i).storage := by
  have hlt : i / 64 < (padTo (i / 64 + 1) s.storage).length := by
    rw [length_padTo]
    omega
  rw [insert, change_eq _ hlt]
  refine congrArg Except.ok (Bitmap.eq_storage ?_ fun k => ?_)
  · rw [List.length_set, length_padTo, Bitmap.length_storage_insert]
  · rw [getD_set _ hlt, Bitmap.getD_padTo, Bitmap.getD_padTo, Bitmap.word_insert]
    split
    · rename_i hk
      rw [hk, Bitmap.getD_storage]
    · rw [Bitmap.getD_storage]

theorem erase_storage : erase s.storage i = .ok (s.erase i).storage := by
  unfold erase
  split
  · -- there is no word to change, and it reads as zero
    rename_i hle
    refine congrArg Except.ok (Bitmap.eq_storage (s.length_storage_erase).symm fun k => ?_)
    rw [Bitmap.getD_storage, Bitmap.word_erase]
    split
    · rename_i hk
      rw [s.word_of_length_le (hk ▸ hle), UInt64.zero_and]
    · rfl
  · rename_i hlt
    rw [change_eq _ (Nat.lt_of_not_le hlt)]
    refine congrArg Except.ok (Bitmap.eq_storage ?_ fun k => ?_)
    · rw [List.length_set, Bitmap.length_storage_erase]
    · rw [getD_set _ (Nat.lt_of_not_le hlt), Bitmap.word_erase, Bitmap.getD_storage,
        Bitmap.getD_storage]
      split
      · rename_i hk
        rw [hk]
      · rfl

theorem contains_storage : contains s.storage i = .ok (s.contains i) := by
  unfold contains
  split
  · rename_i hle
    rw [Bitmap.contains, s.word_of_length_le hle, Bitmap.testBit_zero]
  · rename_i hlt
    rw [fetch_eq (Nat.lt_of_not_le hlt), Bitmap.getD_storage]
    exact congrArg Except.ok (Bitmap.and_bit_ne_zero (Nat.mod_lt i (by decide)))

/-! ### Two rows -/

/-- The row `ws'` is `ws` with its words from place `k` on combined with the words `xs`. -/
structure Merged (f : UInt64 → UInt64 → UInt64) (ws : List UInt64) (k : Nat)
    (xs ws' : List UInt64) : Prop where
  /-- The row keeps its length. -/
  length_eq : ws'.length = ws.length
  /-- The words before the place are as they were. -/
  before : ∀ m < k, ws'.getD m 0 = ws.getD m 0
  /-- A word from the place on is combined with its partner, zero past the end. -/
  after : ∀ m, ws'.getD (k + m) 0 = f (ws.getD (k + m) 0) (xs.getD m 0)

variable {f : UInt64 → UInt64 → UInt64} {x : UInt64} {ws' : List UInt64}

theorem Merged.nil (hf : ∀ w, f w 0 = w) : Merged f ws k [] ws where
  length_eq := rfl
  before _ _ := rfl
  after m := by rw [List.getD_nil, hf]

theorem Merged.cons (hk : k < ws.length)
    (h : Merged f (ws.set k (f (ws.getD k 0) x)) (k + 1) xs ws') :
    Merged f ws k (x :: xs) ws' where
  length_eq := by rw [h.length_eq, List.length_set]
  before m hm := by rw [h.before m (by omega), getD_set _ hk, if_neg (by omega)]
  after m := by
    cases m with
    | zero =>
      rw [Nat.add_zero, h.before k (by omega), getD_set _ hk, if_pos rfl, List.getD_cons_zero]
    | succ m =>
      have := h.after m
      rwa [getD_set _ hk, if_neg (by omega), Nat.add_right_comm] at this

/-- The loop of a union goes over places that are all there, and its flag tells whether the row
has changed. -/
theorem unionFrom_eq {changed : Bool} (h : k + xs.length ≤ ws.length) :
    ∃ ws' changed', unionFrom ws changed k xs = .ok (ws', changed') ∧
      Merged (· ||| ·) ws k xs ws' ∧ (changed' = true ↔ changed = true ∨ ws' ≠ ws) := by
  induction xs generalizing ws changed k with
  | nil => exact ⟨ws, changed, rfl, .nil fun _ => UInt64.or_zero, by simp⟩
  | cons x xs ih =>
    rw [List.length_cons] at h
    have hk : k < ws.length := by omega
    obtain ⟨ws', changed', hrun, hmerged, hchanged⟩ :=
      @ih (ws.set k (ws.getD k 0 ||| x)) (k + 1) (changed || ws.getD k 0 ||| x != ws.getD k 0)
        (by rw [List.length_set]; omega)
    refine ⟨ws', changed', ?_, hmerged.cons hk, ?_⟩
    · rw [unionFrom, fetch_eq hk]
      exact hrun
    · rw [hchanged, Bool.or_eq_true, bne_iff_ne, or_assoc]
      refine or_congr_right ?_
      by_cases hx : ws.getD k 0 ||| x = ws.getD k 0
      · have hset : ws.set k (ws.getD k 0) = ws := by
          rw [List.getD_eq_getElem _ _ hk, List.set_getElem_self]
        rw [hx, hset]
        simp
      · -- the place `k` itself has changed, and the loop does not come back to it
        refine iff_of_true (.inl hx) fun heq => hx ?_
        have := (hmerged.cons hk).after 0
        rw [Nat.add_zero, heq] at this
        exact this.symm

theorem diffFrom_eq (h : k ≤ ws.length) :
    ∃ ws', diffFrom ws k xs = .ok ws' ∧ Merged (fun w x => w &&& ~~~x) ws k xs ws' := by
  induction xs generalizing ws k with
  | nil => exact ⟨ws, rfl, .nil fun _ => by simp⟩
  | cons x xs ih =>
    unfold diffFrom
    split
    · rename_i hk
      refine ⟨ws, rfl, rfl, fun m _ => rfl, fun m => ?_⟩
      rw [List.getD_eq_default _ _ (by omega), UInt64.zero_and]
    · rename_i hne
      have hk : k < ws.length := by omega
      obtain ⟨ws', hrun, hmerged⟩ :=
        @ih (ws.set k (ws.getD k 0 &&& ~~~x)) (k + 1) (by rwa [List.length_set])
      refine ⟨ws', ?_, hmerged.cons hk⟩
      rw [change_eq _ hk]
      exact hrun

variable (s x : Bitmap)

theorem union_storage :
    union s.storage x.storage = .ok ((s.union x).storage, s.grownBy x) := by
  have hle : 0 + x.storage.length ≤ (padTo x.storage.length s.storage).length := by
    rw [length_padTo]
    omega
  obtain ⟨ws', changed', hrun, hmerged, hchanged⟩ := @unionFrom_eq _ _ _ false hle
  have hwords := hmerged.after
  simp only [Nat.zero_add, Bitmap.getD_padTo, Bitmap.getD_storage] at hwords
  rw [union, hrun]
  refine congrArg Except.ok (Prod.ext (Bitmap.eq_storage ?_ fun k => ?_) ?_)
  · rw [hmerged.length_eq, length_padTo, Bitmap.length_storage_union, max_comm]
  · rw [hwords, Bitmap.word_union]
  · -- the row has changed where the other one has a bit that this one has not
    have hsame : ws' = padTo x.storage.length s.storage ↔ ∀ k, (x.diff s).word k = 0 := by
      simp only [Bitmap.word_diff, ← Bitmap.or_eq_left_iff, ← hwords]
      refine ⟨fun h k => ?_, fun h => ext_getD hmerged.length_eq fun k => ?_⟩
      · rw [h, Bitmap.getD_padTo, Bitmap.getD_storage]
      · rw [h, Bitmap.getD_padTo, Bitmap.getD_storage]
    refine Bool.eq_iff_iff.2 (hchanged.trans ?_)
    rw [ne_eq, hsame, ← Bitmap.isEmpty_iff_word]
    simp [Bitmap.grownBy]

theorem diff_storage : diff s.storage x.storage = .ok (s.diff x).storage := by
  obtain ⟨ws', hrun, hmerged⟩ := @diffFrom_eq s.storage x.storage 0 (Nat.zero_le _)
  have hwords := hmerged.after
  simp only [Nat.zero_add, Bitmap.getD_storage] at hwords
  rw [diff, hrun]
  refine congrArg Except.ok (Bitmap.eq_storage ?_ fun k => ?_)
  · rw [hmerged.length_eq, Bitmap.length_storage_diff]
  · rw [hwords, Bitmap.word_diff]

theorem equalFrom_eq :
    equalFrom ws xs k n = .ok (decide (∀ m < n, ws.getD (k + m) 0 = xs.getD (k + m) 0)) := by
  induction n generalizing k with
  | zero => simp [equalFrom]
  | succ n ih =>
    have hsplit : (∀ m < n + 1, ws.getD (k + m) 0 = xs.getD (k + m) 0) ↔
        ws.getD k 0 = xs.getD k 0 ∧ ∀ m < n, ws.getD (k + 1 + m) 0 = xs.getD (k + 1 + m) 0 := by
      rw [Nat.forall_lt_succ_left]
      simp only [Nat.add_zero, Nat.add_right_comm, Nat.add_assoc]
    rw [equalFrom, word_eq, word_eq]
    change (if ws.getD k 0 = xs.getD k 0 then equalFrom ws xs (k + 1) n else .ok false) = _
    split
    · rename_i hk
      rw [ih]
      exact congrArg Except.ok (decide_eq_decide.2 (hsplit.trans (and_iff_right hk)).symm)
    · rename_i hk
      rw [decide_eq_false fun h => hk (hsplit.1 h).1]

theorem equal_storage : equal s.storage x.storage = .ok (s.equal x) := by
  rw [equal, equalFrom_eq]
  refine congrArg Except.ok (Bool.eq_iff_iff.2 ?_)
  rw [decide_eq_true_iff, Bitmap.equal_iff_word]
  simp only [Nat.zero_add, Bitmap.getD_storage]
  refine ⟨fun h k => ?_, fun h k _ => h k⟩
  by_cases hk : k < max s.storage.length x.storage.length
  · exact h k hk
  · rw [s.word_of_length_le (by omega), x.word_of_length_le (by omega)]

/-! ### New rows -/

theorem make_storage : make n =
    match Bitmap.withRoomFor n with
    | some s => .ok s.storage
    | none => .error .noMemory := by
  unfold make Bitmap.withRoomFor
  cases Bitmap.wordsFor n with
  | none => rfl
  | some k => rfl

theorem copy_storage : copy s.storage = s.copy.storage := by
  have hroom : (64 * s.storage.length + 63) / 64 = s.storage.length := by omega
  simp only [copy, hroom, List.take_length, Nat.sub_self, List.replicate_zero, List.append_nil]
  rfl

end Words

end CodeTiling
