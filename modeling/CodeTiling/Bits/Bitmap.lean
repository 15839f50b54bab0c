/-!
# Growable bit sets

A `Bitmap` is a finite set of natural numbers packed into 64-bit words; words past the end read
as zero. `Bitmap.contains` is the view: the operations insert, erase, unite and subtract on it.
A bitmap also has room, a number of words that only grows; it says nothing about the set.

Positions given as integers may be negative. A negative position has no bit, and
`Bitmap.insertAt`, `Bitmap.eraseAt` and `Bitmap.containsAt` say which of them are refused.
-/

namespace CodeTiling

/-- A finite set of naturals in 64-bit words. -/
structure Bitmap where
  /-- The words, the low numbers first. -/
  words : List UInt64 := []
  /-- The number of words that there is room for, once the bitmap has been given storage. -/
  room? : Option Nat := none
deriving DecidableEq, Repr

namespace Bitmap

/-- Bit `j` of a word. -/
def testBit (w : UInt64) (j : Nat) : Bool := w.toNat.testBit j

/-- The word with bit `j` alone, for `j` below 64. -/
def bit (j : Nat) : UInt64 := UInt64.ofNat (1 <<< j)

/-- The bitmap nobody has stored anything in. -/
def empty : Bitmap := {}

instance : Inhabited Bitmap := ⟨empty⟩

variable (s x : Bitmap)

/-- The number of words that there is room for. -/
def room : Nat := s.room?.getD 0

/-- Word `i`; words past the end are zero. -/
def word (i : Nat) : UInt64 := s.words.getD i 0

/-- The number `i` is in the set. -/
def contains (i : Nat) : Bool := testBit (s.word (i / 64)) (i % 64)

/-- There is no number in the set. -/
def isEmpty : Bool := s.words.all (· == 0)

/-- The same set with room for at least `n` words. -/
def grow (n : Nat) : Bitmap := if s.room < n then { s with room? := some n } else s

/-- At least `n` words, with zeros after those that are given. -/
def padTo (n : Nat) (ws : List UInt64) : List UInt64 := ws ++ List.replicate (n - ws.length) 0

/-- The set with `i`. -/
def insert (i : Nat) : Bitmap :=
  { s.grow (i / 64 + 1) with
    words := (padTo (i / 64 + 1) s.words).modify (i / 64) (· ||| bit (i % 64)) }

/-- The set without `i`. -/
def erase (i : Nat) : Bitmap :=
  { s with words := s.words.modify (i / 64) (· &&& ~~~bit (i % 64)) }

/-- The union. -/
def union : Bitmap :=
  { s.grow x.room with
    words := List.zipWith (· ||| ·) s.words x.words ++ s.words.drop x.words.length ++
      x.words.drop s.words.length }

/-- The difference. -/
def diff : Bitmap :=
  { s with
    words := List.zipWith (fun a b => a &&& ~~~b) s.words x.words ++ s.words.drop x.words.length }

/-- The union with `x` has a number that the set has not. -/
def grownBy : Bool := !(x.diff s).isEmpty

/-- The same set in storage of its own. -/
def copy : Bitmap := { s with room? := some s.room }

/-- The two sets are equal. -/
def equal : Bool := (s.diff x).isEmpty && (x.diff s).isEmpty

/-! ### Enumeration -/

/-- The numbers of the set bits of a word, in order. -/
def bitsOf (w : UInt64) : List Nat := if w = 0 then [] else (List.range 64).filter (testBit w)

/-- How many bits of a word are set. -/
def popCount (w : UInt64) : Nat := (bitsOf w).length

/-- The number of elements. -/
def size : Nat := s.words.foldl (fun n w => n + popCount w) 0

/-- Visit the numbers in a list in order until `f` says to stop. -/
def visitList {σ : Type} (f : σ → Nat → σ × Bool) : σ → List Nat → σ × Bool
  | acc, [] => (acc, true)
  | acc, i :: is =>
    match f acc i with
    | (acc', true) => visitList f acc' is
    | (acc', false) => (acc', false)

/-- Visit the numbers in words, the first of which starts at `base`. -/
def visitWords {σ : Type} (f : σ → Nat → σ × Bool) (base : Nat) : σ → List UInt64 → σ × Bool
  | acc, [] => (acc, true)
  | acc, w :: ws =>
    match visitList f acc ((bitsOf w).map (base + ·)) with
    | (acc', true) => visitWords f (base + 64) acc' ws
    | (acc', false) => (acc', false)

/-- Visit the elements in increasing order. The visitor carries a state and says after each
element whether to go on. -/
def visit {σ : Type} (f : σ → Nat → σ × Bool) (init : σ) : σ := (visitWords f 0 init s.words).1

/-- The elements in increasing order. -/
def toList : List Nat := (s.visit (fun seen i => (i :: seen, true)) []).reverse

/-- The elements visited when the visitor stops as soon as it has seen `n` of them. -/
def visited (n : Int) : List Nat :=
  (s.visit (fun (seen, k) i => ((i :: seen, k + 1), k + 1 < n)) ([], (0 : Int))).1.reverse

/-! ### Positions that may be negative

A position is split toward zero into a word and a bit. A word past the end needs no bit. -/

/-- No bitmap has more words than this. -/
def maxWords : Nat := 1 <<< 45

/-- The number of words for `n` numbers, `none` when it is negative or out of reach. -/
def wordsFor (n : Int) : Option Nat :=
  let k := (n + 63).tdiv 64
  if 0 ≤ k ∧ k ≤ maxWords then some k.toNat else none

/-- The empty set with room for `n` numbers. -/
def withRoomFor (n : Int) : Option Bitmap :=
  (wordsFor n).map fun k => { room? := some k }

/-- Insert at a position, and whether it has a bit. A refused position may still have made the
set grow. -/
def insertAt (pos : Int) : Bitmap × Bool :=
  if 0 ≤ pos then (s.insert pos.toNat, true)
  else if -64 < pos then (s.grow 1, false)
  else (s, false)

/-- Whether the bit of a position can be reached: a position between -63 and -1 falls before the
first bit of word 0, which only matters when there is a word 0. -/
def reaches (pos : Int) : Bool := 0 ≤ pos || (-64 < pos && s.room = 0)

/-- Erase at a position, `none` when the position has no bit. -/
def eraseAt (pos : Int) : Option Bitmap :=
  if s.reaches pos then some (s.erase pos.toNat) else none

/-- Membership of a position, `none` when the position has no bit. -/
def containsAt (pos : Int) : Option Bool :=
  if s.reaches pos then some (0 ≤ pos && s.contains pos.toNat) else none

end Bitmap

end CodeTiling
