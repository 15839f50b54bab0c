import CodeTiling.Proofs.WordLoops
import Mathlib.Data.Finset.Basic
import Mathlib.Logic.Function.Basic

/-!
# Runs of commands on bit sets

A run works on a store of bit sets, one for each number, all of them empty at the start. Its
commands make, change, copy and ask about the sets of the store. The commands are carried out in
three ways: on rows of words in storage, where an access out of range stops the run, on the
bitmaps of the library, and on finite sets of natural numbers.

One operation after the other commutes with the view of a bitmap as a row of words and as a
finite set (`SetOps.words_hom`, `SetOps.finsets_hom`), so a whole run does (`SetOps.Hom.run`).

* `SetOps.run_refines` : the three runs have the same answers, and stores that show the same
  sets; nothing stops them but a set of a size that no storage has.
-/

namespace CodeTiling

/-- The set of the numbers in a bitmap. -/
def Bitmap.elements (s : Bitmap) : Finset Nat := s.toList.toFinset

/-- A command on the sets of a store. -/
inductive SetCommand where
  /-- Store a new set with room for the numbers below `n`. -/
  | make (s n : Nat)
  /-- Add a number to a set. -/
  | insert (s i : Nat)
  /-- Take a number out of a set. -/
  | erase (s i : Nat)
  /-- Ask whether a number is in a set. -/
  | contains (s i : Nat)
  /-- Add the numbers of `x` to `s`, and ask whether that changed it. -/
  | union (s x : Nat)
  /-- Take the numbers of `x` out of `s`. -/
  | diff (s x : Nat)
  /-- Store a copy of `x` as `s`. -/
  | copy (s x : Nat)
  /-- Ask whether two sets are equal. -/
  | equal (s x : Nat)
deriving DecidableEq, Repr

/-- The command asks for a set of a size that no storage has. -/
def SetCommand.IsTooLarge : SetCommand → Prop
  | .make _ n => 64 * Bitmap.maxWords < n
  | _ => False

/-- What carries out the commands on sets that are given by values of `β`. -/
structure SetOps (β : Type) where
  /-- The empty set with room for the numbers below `n`. -/
  make : Nat → Except Fault β
  /-- The set with a number. -/
  insert : β → Nat → Except Fault β
  /-- The set without a number. -/
  erase : β → Nat → Except Fault β
  /-- A number is in the set. -/
  contains : β → Nat → Except Fault Bool
  /-- The union, and whether it is another set than the first one. -/
  union : β → β → Except Fault (β × Bool)
  /-- The difference. -/
  diff : β → β → Except Fault β
  /-- The same set in storage of its own. -/
  copy : β → Except Fault β
  /-- The two sets are equal. -/
  equal : β → β → Except Fault Bool

namespace SetOps

/-- Sets as rows of words, with every access checked. -/
def words : SetOps (List UInt64) where
  make := Words.make
  insert := Words.insert
  erase := Words.erase
  contains := Words.contains
  union := Words.union
  diff := Words.diff
  copy ws := .ok (Words.copy ws)
  equal := Words.equal

/-- Sets as bitmaps. -/
def bitmaps : SetOps Bitmap where
  make n :=
    match Bitmap.withRoomFor n with
    | some s => .ok s
    | none => .error .noMemory
  insert s i :=
    match s.insertAt i with
    | (s', true) => .ok s'
    | (_, false) => .error .outOfRange
  erase s i :=
    match s.eraseAt i with
    | some s' => .ok s'
    | none => .error .outOfRange
  contains s i :=
    match s.containsAt i with
    | some b => .ok b
    | none => .error .outOfRange
  union s x := .ok (s.union x, s.grownBy x)
  diff s x := .ok (s.diff x)
  copy s := .ok s.copy
  equal s x := .ok (s.equal x)

/-- Finite sets of natural numbers. -/
def finsets : SetOps (Finset Nat) where
  make n := if 64 * Bitmap.maxWords < n then .error .noMemory else .ok ∅
  insert F i := .ok (Insert.insert i F)
  erase F i := .ok (F.erase i)
  contains F i := .ok (decide (i ∈ F))
  union F G := .ok (F ∪ G, decide (F ∪ G ≠ F))
  diff F G := .ok (F \ G)
  copy F := .ok F
  equal F G := .ok (decide (F = G))

/-! ### Runs -/

variable {β γ : Type}

/-- Carry out a command: the store after it, and the answer if it asks something. -/
def step (ops : SetOps β) (store : Nat → β) :
    SetCommand → Except Fault ((Nat → β) × Option Bool)
  | .make s n => (fun v => (Function.update store s v, none)) <$> ops.make n
  | .insert s i => (fun v => (Function.update store s v, none)) <$> ops.insert (store s) i
  | .erase s i => (fun v => (Function.update store s v, none)) <$> ops.erase (store s) i
  | .contains s i => (fun b => (store, some b)) <$> ops.contains (store s) i
  | .union s x =>
    (fun r => (Function.update store s r.1, some r.2)) <$> ops.union (store s) (store x)
  | .diff s x => (fun v => (Function.update store s v, none)) <$> ops.diff (store s) (store x)
  | .copy s x => (fun v => (Function.update store s v, none)) <$> ops.copy (store x)
  | .equal s x => (fun b => (store, some b)) <$> ops.equal (store s) (store x)

/-- Carry out commands one after the other: the last store, and the answers in order. -/
def run (ops : SetOps β) (store : Nat → β) :
    List SetCommand → Except Fault ((Nat → β) × List Bool)
  | [] => .ok (store, [])
  | c :: cs => do
    let (store, answer?) ← ops.step store c
    let (store, answers) ← run ops store cs
    return (store, answer?.toList ++ answers)

/-- The operations of `B` are those of `A` seen through `view`. -/
structure Hom (A : SetOps β) (B : SetOps γ) (view : β → γ) : Prop where
  /-- A new set. -/
  make : ∀ n, B.make n = view <$> A.make n
  /-- A number added. -/
  insert : ∀ s i, B.insert (view s) i = view <$> A.insert s i
  /-- A number taken out. -/
  erase : ∀ s i, B.erase (view s) i = view <$> A.erase s i
  /-- The answer about a number. -/
  contains : ∀ s i, B.contains (view s) i = A.contains s i
  /-- The union and the answer with it. -/
  union : ∀ s x, B.union (view s) (view x) = Prod.map view id <$> A.union s x
  /-- The difference. -/
  diff : ∀ s x, B.diff (view s) (view x) = view <$> A.diff s x
  /-- A copy. -/
  copy : ∀ s, B.copy (view s) = view <$> A.copy s
  /-- The answer about two sets. -/
  equal : ∀ s x, B.equal (view s) (view x) = A.equal s x

variable {A : SetOps β} {B : SetOps γ} {view : β → γ}

theorem Hom.step (h : Hom A B view) (store : Nat → β) (c : SetCommand) :
    B.step (view ∘ store) c = Prod.map (view ∘ ·) id <$> A.step store c := by
  cases c with
  | make s n =>
    simp only [SetOps.step, h.make, Functor.map_map, Prod.map, Function.comp_update, id]
  | insert s i =>
    simp only [SetOps.step, Function.comp_apply, h.insert, Functor.map_map, Prod.map,
      Function.comp_update, id]
  | erase s i =>
    simp only [SetOps.step, Function.comp_apply, h.erase, Functor.map_map, Prod.map,
      Function.comp_update, id]
  | contains s i =>
    simp only [SetOps.step, Function.comp_apply, h.contains, Functor.map_map, Prod.map, id]
  | union s x =>
    simp only [SetOps.step, Function.comp_apply, h.union, Functor.map_map, Prod.map,
      Function.comp_update, id]
  | diff s x =>
    simp only [SetOps.step, Function.comp_apply, h.diff, Functor.map_map, Prod.map,
      Function.comp_update, id]
  | copy s x =>
    simp only [SetOps.step, Function.comp_apply, h.copy, Functor.map_map, Prod.map,
      Function.comp_update, id]
  | equal s x =>
    simp only [SetOps.step, Function.comp_apply, h.equal, Functor.map_map, Prod.map, id]

theorem Hom.run (h : Hom A B view) (store : Nat → β) (cs : List SetCommand) :
    B.run (view ∘ store) cs = Prod.map (view ∘ ·) id <$> A.run store cs := by
  induction cs generalizing store with
  | nil => rfl
  | cons c cs ih =>
    rw [SetOps.run, SetOps.run, h.step]
    cases A.step store c with
    | error e => rfl
    | ok r =>
      change (B.run (view ∘ r.1) cs >>= _) = _ <$> (A.run r.1 cs >>= _)
      rw [ih]
      cases A.run r.1 cs with
      | error e => rfl
      | ok r' => rfl

end SetOps

/-! ### The two views -/

namespace Bitmap

variable {s x : Bitmap} {i n : Nat}

@[simp]
theorem mem_elements : i ∈ s.elements ↔ s.contains i = true := by
  rw [elements, List.mem_toFinset, mem_toList]

theorem wordsFor_ofNat :
    wordsFor n = if 64 * maxWords < n then none else some ((n + 63) / 64) := by
  have hdiv : ((n : Int) + 63).tdiv 64 = ((n + 63) / 64 : Nat) := by
    rw [Int.tdiv_eq_ediv_of_nonneg (by omega)]
    omega
  simp only [wordsFor, hdiv]
  by_cases hn : 64 * maxWords < n
  · rw [if_pos hn, if_neg (by omega)]
  · rw [if_neg hn, if_pos (by omega), Int.toNat_natCast]

theorem elements_insert : (s.insert i).elements = Insert.insert i s.elements := by
  ext j
  simp [or_comm]

theorem elements_erase : (s.erase i).elements = s.elements.erase i := by
  ext j
  simp [and_comm]

theorem elements_union : (s.union x).elements = s.elements ∪ x.elements := by
  ext j
  simp

theorem elements_diff : (s.diff x).elements = s.elements \ x.elements := by
  ext j
  simp

theorem grownBy_eq : s.grownBy x = decide (s.elements ∪ x.elements ≠ s.elements) := by
  refine Bool.eq_iff_iff.2 (grownBy_iff.trans ?_)
  rw [decide_eq_true_iff, ne_eq, Finset.union_eq_left, Finset.not_subset]
  simp

theorem equal_eq : s.equal x = decide (s.elements = x.elements) := by
  refine Bool.eq_iff_iff.2 (equal_iff.trans ?_)
  rw [decide_eq_true_iff, Finset.ext_iff]
  simp only [mem_elements]
  exact forall_congr' fun i => Bool.eq_iff_iff

end Bitmap

namespace SetOps

/-- **Storage.** Every operation on rows of words stays in range and ends in the storage of the
bitmap that the library returns. -/
theorem words_hom : Hom bitmaps words Bitmap.storage where
  make n := by
    refine Words.make_storage.trans ?_
    simp only [bitmaps]
    cases Bitmap.withRoomFor n with
    | none => rfl
    | some s => rfl
  insert s _ := Words.insert_storage s
  erase s _ := Words.erase_storage s
  contains s _ := Words.contains_storage s
  union s x := Words.union_storage s x
  diff s x := Words.diff_storage s x
  copy s := congrArg Except.ok (Words.copy_storage s)
  equal s x := Words.equal_storage s x

/-- **The sets.** Every operation on bitmaps is the operation on finite sets. -/
theorem finsets_hom : Hom bitmaps finsets Bitmap.elements where
  make n := by
    simp only [finsets, bitmaps, Bitmap.withRoomFor, Bitmap.wordsFor_ofNat]
    split
    · rfl
    · exact congrArg Except.ok (by ext i; simp [Bitmap.contains, Bitmap.word])
  insert s i := congrArg Except.ok Bitmap.elements_insert.symm
  erase s i := congrArg Except.ok Bitmap.elements_erase.symm
  contains s i := congrArg Except.ok (by simp)
  union s x := congrArg Except.ok (Prod.ext Bitmap.elements_union.symm Bitmap.grownBy_eq.symm)
  diff s x := congrArg Except.ok Bitmap.elements_diff.symm
  copy s := congrArg Except.ok (by ext i; simp)
  equal s x := congrArg Except.ok Bitmap.equal_eq.symm

/-! ### What stops a run -/

theorem step_finsets (store : Nat → Finset Nat) (c : SetCommand) :
    c.IsTooLarge ∧ finsets.step store c = .error .noMemory ∨
      ¬c.IsTooLarge ∧ ∃ r, finsets.step store c = .ok r := by
  cases c with
  | make s n =>
    by_cases hn : 64 * Bitmap.maxWords < n
    · refine .inl ⟨hn, ?_⟩
      simp only [step, finsets, if_pos hn]
      rfl
    · refine .inr ⟨hn, (Function.update store s ∅, none), ?_⟩
      simp only [step, finsets, if_neg hn]
      rfl
  | _ => exact .inr ⟨id, _, rfl⟩

theorem run_finsets (store : Nat → Finset Nat) (cs : List SetCommand) :
    (∃ c ∈ cs, c.IsTooLarge) ∧ finsets.run store cs = .error .noMemory ∨
      (∀ c ∈ cs, ¬c.IsTooLarge) ∧ ∃ r, finsets.run store cs = .ok r := by
  induction cs generalizing store with
  | nil => exact .inr ⟨List.forall_mem_nil _, _, rfl⟩
  | cons c cs ih =>
    rw [run]
    rcases step_finsets store c with ⟨hlarge, hstep⟩ | ⟨hc, r, hstep⟩
    · exact .inl ⟨⟨c, List.mem_cons_self, hlarge⟩, by rw [hstep]; rfl⟩
    · rw [hstep]
      change _ ∧ (finsets.run r.1 cs >>= _) = _ ∨ _ ∧ ∃ r'', (finsets.run r.1 cs >>= _) = _
      rcases ih r.1 with ⟨⟨c', hmem, hlarge⟩, hrun⟩ | ⟨hcs, r', hrun⟩
      · exact .inl ⟨⟨c', List.mem_cons_of_mem c hmem, hlarge⟩, by rw [hrun]; rfl⟩
      · exact .inr ⟨List.forall_mem_cons.2 ⟨hc, hcs⟩, (r'.1, r.2.toList ++ r'.2),
          by rw [hrun]; rfl⟩

/-- **Bit sets are finite sets.** Whatever commands are carried out on whatever bit sets, no
access is out of range: a run on rows of words, the run on bitmaps and the run on finite sets end
alike. Either a command asks for more than any storage holds, or the three runs give the same
answers, the rows are the storage of the bitmaps, and a number is in a bitmap when it is in the
finite set. -/
theorem run_refines (cs : List SetCommand) :
    ((∃ c ∈ cs, c.IsTooLarge) ∧
      words.run (fun _ => []) cs = .error .noMemory ∧
      bitmaps.run (fun _ => .empty) cs = .error .noMemory ∧
      finsets.run (fun _ => ∅) cs = .error .noMemory) ∨
    ((∀ c ∈ cs, ¬c.IsTooLarge) ∧
      ∃ rows maps sets answers,
        words.run (fun _ => []) cs = .ok (rows, answers) ∧
        bitmaps.run (fun _ => .empty) cs = .ok (maps, answers) ∧
        finsets.run (fun _ => ∅) cs = .ok (sets, answers) ∧
        ∀ v, rows v = (maps v).storage ∧ ∀ i, (maps v).contains i = true ↔ i ∈ sets v) := by
  have hrows : words.run (fun _ => []) cs = _ := words_hom.run (fun _ => Bitmap.empty) cs
  have hsets : finsets.run (fun _ => ∅) cs = _ := finsets_hom.run (fun _ => Bitmap.empty) cs
  cases hmaps : bitmaps.run (fun _ => .empty) cs with
  | error e =>
    rw [hmaps] at hrows hsets
    rcases run_finsets (fun _ => ∅) cs with ⟨hlarge, hrun⟩ | ⟨-, r, hrun⟩
    · cases hsets.symm.trans hrun
      exact .inl ⟨hlarge, hrows, rfl, hrun⟩
    · cases hsets.symm.trans hrun
  | ok r =>
    rw [hmaps] at hrows hsets
    rcases run_finsets (fun _ => ∅) cs with ⟨-, hrun⟩ | ⟨hcs, -⟩
    · cases hsets.symm.trans hrun
    · exact .inr ⟨hcs, Bitmap.storage ∘ r.1, r.1, Bitmap.elements ∘ r.1, r.2, hrows, rfl, hsets,
        fun v => ⟨rfl, fun i => Bitmap.mem_elements.symm⟩⟩

end SetOps

end CodeTiling
