import CodeTiling.Code.Instruction

/-!
# The registers that an instruction uses

A register occurs in an operand directly, as the base or as the index of a memory operand. An
`Occurrence` is a place where one may stand, by the number of the operand and the part of it.
The inputs and outputs of an instruction are said in these terms: the inputs are the registers of
the occurrences that are read, one after another, and an output is the register that stands
directly as the first operand.

* `Instruction.inputs_eq_map` : the inputs, occurrence by occurrence;
* `Instruction.mem_outputs_iff` : the output;
* `Instruction.mem_inputs_or_outputs_iff` : no register is missed;
* `Instruction.uses_accounted` : the inputs and outputs account for the registers of the operands.
-/

namespace CodeTiling.Code

/-! ### Occurrences -/

/-- A part of an operand where a register may stand. -/
inductive Part where
  /-- The operand itself. -/
  | direct
  /-- The base of a memory operand. -/
  | base
  /-- The index of a memory operand. -/
  | index
deriving DecidableEq, Repr

/-- The place of a part in the text of an operand. -/
def Part.rank : Part → Nat
  | direct => 0
  | base => 1
  | index => 2

/-- A place in an instruction where a register may stand. -/
structure Occurrence where
  /-- The number of the operand. -/
  operand : Nat
  /-- The part of the operand. -/
  part : Part
deriving DecidableEq, Repr

/-- The occurrence comes before another one in the operands. -/
def Occurrence.Before (o p : Occurrence) : Prop :=
  o.operand < p.operand ∨ (o.operand = p.operand ∧ o.part.rank < p.part.rank)

/-- The register that stands directly as the first operand. -/
def Occurrence.destination : Occurrence := ⟨0, .direct⟩

/-- The register in a part of an operand. -/
def Operand.registerAt : Operand → Part → Register
  | .reg r, .direct => r
  | .indirect m, .base => m.base
  | .indirect m, .index => m.index
  | _, _ => .none

/-- The register in a part of operand `n`, `Register.none` where there is none. -/
def registerIn (as : List (Option Operand)) (n : Nat) (p : Part) : Register :=
  as[n]?.join.elim .none (·.registerAt p)

namespace Instruction

variable (i : Instruction)

/-- The register at a place, `Register.none` where there is none. -/
def registerAt (o : Occurrence) : Register := registerIn i.args o.operand o.part

/-- A register is read at a place. The one that stands directly as the first operand is read unless
it is only written; all others are read. -/
def ReadsAt (o : Occurrence) : Prop :=
  i.registerAt o ≠ .none ∧ (o ≠ .destination ∨ i.accessClass ≠ .overwrite)

end Instruction

/-! ### The occurrences of operands -/

theorem Register.isSome_iff {r : Register} : r.isSome = true ↔ r ≠ .none := by
  cases r <;> simp [isSome]

/-- The parts of an operand where a register stands. -/
def Operand.parts (a : Operand) : List Part :=
  [Part.direct, .base, .index].filter fun p => (a.registerAt p).isSome

theorem Operand.mem_parts {a : Operand} {p : Part} : p ∈ a.parts ↔ a.registerAt p ≠ .none := by
  rw [parts, List.mem_filter, Register.isSome_iff]
  refine and_iff_right ?_
  cases p <;> decide

theorem Operand.pairwise_parts (a : Operand) : a.parts.Pairwise fun p q => p.rank < q.rank := by
  have hall : [Part.direct, .base, .index].Pairwise fun p q => p.rank < q.rank := by decide
  exact hall.filter _

theorem Operand.map_parts (a : Operand) : a.parts.map a.registerAt = a.registers := by
  have hmap : a.parts.map a.registerAt =
      ([Part.direct, .base, .index].map a.registerAt).filter Register.isSome := by
    rw [List.filter_map]
    rfl
  rw [hmap]
  cases a <;> rfl

/-- A register that stands in an operand stands there directly, unless the operand is one of
memory. -/
theorem Operand.part_eq_direct_iff {a : Operand} {p : Part} (h : a.registerAt p ≠ .none) :
    p = .direct ↔ ¬isIndirect (some a) := by
  cases a <;> cases p <;> simp_all [Operand.registerAt, isIndirect]

/-- The places in operands where a register stands, when the first operand has the number `k`. -/
def occurrencesFrom (k : Nat) : List (Option Operand) → List Occurrence
  | [] => []
  | a :: as => (a.elim [] Operand.parts).map (Occurrence.mk k) ++ occurrencesFrom (k + 1) as

section

variable {as : List (Option Operand)} {k : Nat} {o : Occurrence}

theorem registerIn_cons {a : Option Operand} {n : Nat} {p : Part} (h : k + 1 ≤ n) :
    registerIn (a :: as) (n - k) p = registerIn as (n - (k + 1)) p := by
  rw [show n - k = n - (k + 1) + 1 by omega]
  rfl

theorem mem_occurrencesFrom :
    o ∈ occurrencesFrom k as ↔
      k ≤ o.operand ∧ registerIn as (o.operand - k) o.part ≠ .none := by
  induction as generalizing k with
  | nil => simp [occurrencesFrom, registerIn]
  | cons a as ih =>
    have hfirst : o ∈ (a.elim [] Operand.parts).map (Occurrence.mk k) ↔
        o.operand = k ∧ registerIn (a :: as) 0 o.part ≠ .none := by
      obtain ⟨n, p⟩ := o
      cases a with
      | none => simp [registerIn]
      | some a =>
        change _ ∈ a.parts.map (Occurrence.mk k) ↔ n = k ∧ a.registerAt p ≠ .none
        rw [List.mem_map, ← Operand.mem_parts]
        constructor
        · rintro ⟨q, hq, ⟨⟩⟩
          exact ⟨rfl, hq⟩
        · rintro ⟨rfl, hp⟩
          exact ⟨p, hp, rfl⟩
    rw [occurrencesFrom, List.mem_append, hfirst, ih]
    rcases Nat.lt_trichotomy o.operand k with hlt | heq | hgt
    · exact iff_of_false (by omega) (by omega)
    · rw [heq, Nat.sub_self]
      exact ⟨fun h => ⟨Nat.le_refl k, h.elim And.right fun h => by omega⟩, fun h => .inl ⟨rfl, h.2⟩⟩
    · rw [registerIn_cons hgt]
      exact ⟨fun h => ⟨by omega, h.elim (fun h => by omega) And.right⟩,
        fun h => .inr ⟨by omega, h.2⟩⟩

theorem pairwise_occurrencesFrom : (occurrencesFrom k as).Pairwise Occurrence.Before := by
  induction as generalizing k with
  | nil => exact .nil
  | cons a as ih =>
    refine List.pairwise_append.2 ⟨List.pairwise_map.2 ?_, ih, fun o ho p hp => ?_⟩
    · cases a with
      | none => exact .nil
      | some a => exact a.pairwise_parts.imp fun h => Or.inr ⟨rfl, h⟩
    · obtain ⟨q, -, rfl⟩ := List.mem_map.1 ho
      exact Or.inl (mem_occurrencesFrom.1 hp).1

theorem map_occurrencesFrom :
    (occurrencesFrom k as).map (fun o => registerIn as (o.operand - k) o.part) =
      as.flatMap registersOf := by
  induction as generalizing k with
  | nil => rfl
  | cons a as ih =>
    rw [occurrencesFrom, List.map_append, List.flatMap_cons]
    congr 1
    · rw [List.map_map]
      cases a with
      | none => rfl
      | some a =>
        refine Eq.trans (List.map_congr_left fun p _ => ?_) a.map_parts
        simp [registerIn]
    · rw [← @ih (k + 1)]
      exact List.map_congr_left fun o ho => registerIn_cons (mem_occurrencesFrom.1 ho).1

end

/-! ### Inputs and outputs -/

namespace Instruction

variable {i : Instruction} {r : Register}

theorem registerAt_destination_iff (hr : r ≠ .none) :
    i.registerAt .destination = r ↔ i.args.head? = some (some (.reg r)) := by
  rw [registerAt, registerIn, Occurrence.destination, List.head?_eq_getElem?]
  rcases i.args[0]? with _ | _ | a
  · simp [hr.symm]
  · simp [hr.symm]
  · cases a <;> simp [Operand.registerAt, hr.symm]

/-- The places where an instruction reads a register, in the order of the operands. -/
def readOccurrences (i : Instruction) : List Occurrence :=
  (occurrencesFrom 0 i.args).filter fun o => o ≠ .destination ∨ i.accessClass ≠ .overwrite

theorem mem_readOccurrences {o : Occurrence} : o ∈ i.readOccurrences ↔ i.ReadsAt o := by
  rw [readOccurrences, List.mem_filter, mem_occurrencesFrom, decide_eq_true_iff]
  exact and_congr_left fun _ => and_iff_right (Nat.zero_le _)

theorem pairwise_readOccurrences : i.readOccurrences.Pairwise Occurrence.Before :=
  pairwise_occurrencesFrom.filter _

/-- The inputs are the registers at the places that are read, one after another. -/
theorem inputs_eq_map (i : Instruction) : i.inputs = i.readOccurrences.map i.registerAt := by
  obtain ⟨m, args⟩ := i
  cases args with
  | nil => rfl
  | cons first rest =>
    have hfirst : ∀ o ∈ occurrencesFrom 0 (first :: rest), o.operand = 0 →
        (o = .destination ↔ ¬isIndirect first) := by
      rintro ⟨n, p⟩ ho rfl
      have hreg := (mem_occurrencesFrom.1 ho).2
      cases first with
      | none => exact (hreg rfl).elim
      | some a =>
        rw [← Operand.part_eq_direct_iff hreg, Occurrence.destination, Occurrence.mk.injEq]
        exact and_iff_right rfl
    rw [inputs, readOccurrences]
    dsimp only
    split
    · -- the first operand is only written, and no register in it is read
      rename_i hwrite
      have hnone : ∀ o ∈ (first.elim [] Operand.parts).map (Occurrence.mk 0),
          ¬(o ≠ .destination ∨ accessClass ⟨m, first :: rest⟩ ≠ .overwrite) := by
        intro o ho
        obtain ⟨p, -, rfl⟩ := List.mem_map.1 ho
        have hdest := (hfirst _ (List.mem_append_left _ ho) rfl).2 hwrite.2
        exact fun h => h.elim (· hdest) (· hwrite.1)
      have hall : ∀ o ∈ occurrencesFrom 1 rest,
          o ≠ .destination ∨ accessClass ⟨m, first :: rest⟩ ≠ .overwrite := by
        rintro o ho
        refine .inl fun hdest => ?_
        have := (mem_occurrencesFrom.1 ho).1
        rw [hdest] at this
        cases this
      rw [occurrencesFrom, List.filter_append, List.filter_eq_nil_iff.2 (by simpa using hnone),
        List.filter_eq_self.2 (by simpa using hall), List.nil_append,
        ← @map_occurrencesFrom rest 1]
      exact List.map_congr_left fun o ho => (registerIn_cons (mem_occurrencesFrom.1 ho).1).symm
    · rename_i hread
      have hall : ∀ o ∈ occurrencesFrom 0 (first :: rest),
          o ≠ .destination ∨ accessClass ⟨m, first :: rest⟩ ≠ .overwrite := by
        intro o ho
        by_cases hclass : accessClass ⟨m, first :: rest⟩ = .overwrite
        · refine .inl fun hdest => hread ⟨hclass, ?_⟩
          exact (hfirst o ho (by rw [hdest]; rfl)).1 hdest
        · exact .inr hclass
      rw [List.filter_eq_self.2 (by simpa using hall)]
      exact (@map_occurrencesFrom (first :: rest) 0).symm

theorem mem_inputs_iff : r ∈ i.inputs ↔ ∃ o, i.ReadsAt o ∧ i.registerAt o = r := by
  simp only [inputs_eq_map, List.mem_map, mem_readOccurrences]

/-- An instruction writes the register that stands directly as its first operand, unless it only
reads. -/
theorem mem_outputs_iff : r ∈ i.outputs ↔
    r ≠ .none ∧ i.args.head? = some (some (.reg r)) ∧ i.accessClass ≠ .readOnly := by
  obtain ⟨m, args⟩ := i
  rcases args with _ | ⟨_ | a, rest⟩
  · simp [outputs]
  · simp [outputs]
  · cases a with
    | reg q =>
      by_cases hclass : accessClass ⟨m, some (.reg q) :: rest⟩ = .readOnly
      · simp [outputs, hclass]
      · simp only [outputs, if_neg hclass, List.mem_filter, List.mem_singleton,
          Register.isSome_iff, List.head?_cons, Option.some.injEq, Operand.reg.injEq]
        exact ⟨fun h => ⟨h.2, h.1.symm, hclass⟩, fun h => ⟨h.2.1.symm, h.1⟩⟩
    | _ => simp [outputs]

theorem length_outputs_le (i : Instruction) : i.outputs.length ≤ 1 := by
  unfold outputs
  split
  · split
    · exact Nat.zero_le 1
    · exact List.length_filter_le _ _
  · exact Nat.zero_le 1

/-- No register is missed: those that are read or written are those in the operands. -/
theorem mem_inputs_or_outputs_iff :
    r ∈ i.inputs ∨ r ∈ i.outputs ↔ r ≠ .none ∧ ∃ o, i.registerAt o = r := by
  constructor
  · rintro (h | h)
    · obtain ⟨o, ho, rfl⟩ := mem_inputs_iff.1 h
      exact ⟨ho.1, o, rfl⟩
    · obtain ⟨hr, hfirst, -⟩ := mem_outputs_iff.1 h
      exact ⟨hr, .destination, (registerAt_destination_iff hr).2 hfirst⟩
  · rintro ⟨hr, o, rfl⟩
    by_cases hread : i.ReadsAt o
    · exact .inl (mem_inputs_iff.2 ⟨o, hread, rfl⟩)
    · -- only the destination of an instruction that overwrites it is not read
      obtain ⟨rfl, hclass⟩ : o = .destination ∧ i.accessClass = .overwrite := by
        simpa [ReadsAt, hr] using hread
      refine .inr (mem_outputs_iff.2 ⟨hr, (registerAt_destination_iff hr).1 rfl, ?_⟩)
      rw [hclass]
      decide

/-! ### The account -/

/-- The inputs and outputs of an instruction account for the registers in its operands. -/
structure Accounted (i : Instruction) : Prop where
  /-- What is read or written are the registers that occur in operands. -/
  complete : ∀ r, r ∈ i.inputs ∨ r ∈ i.outputs ↔ r ≠ .none ∧ ∃ o, i.registerAt o = r
  /-- The registers of memory operands are read. -/
  addressing : ∀ o, o.part ≠ .direct → i.registerAt o ≠ .none → i.registerAt o ∈ i.inputs
  /-- The inputs have one entry for each place where a register is read, in the order of the
  operands. -/
  inputs : ∃ os : List Occurrence, os.Pairwise Occurrence.Before ∧ (∀ o, o ∈ os ↔ i.ReadsAt o) ∧
    i.inputs = os.map i.registerAt
  /-- There is at most one output. -/
  length_outputs : i.outputs.length ≤ 1
  /-- It is the first operand. -/
  outputs : ∀ r ∈ i.outputs, i.args.head? = some (some (.reg r))
  /-- There is none when the operands are only read. -/
  outputs_readOnly : i.accessClass = .readOnly → i.outputs = []
  /-- There is none when the first operand is no register. -/
  outputs_noRegister : (∀ r, i.args.head? ≠ some (some (.reg r))) → i.outputs = []
  /-- A register that only stands directly as the first operand is read unless it is overwritten. -/
  destination : ∀ r, r ≠ .none → (∀ o, i.registerAt o = r ↔ o = .destination) →
    (r ∈ i.inputs ↔ i.accessClass ≠ .overwrite)

/-- **Inputs and outputs account for every register operand.** -/
theorem uses_accounted (i : Instruction) : i.Accounted where
  complete _ := mem_inputs_or_outputs_iff
  addressing o hpart ho := by
    refine mem_inputs_iff.2 ⟨o, ⟨ho, .inl ?_⟩, rfl⟩
    rintro rfl
    exact hpart rfl
  inputs := ⟨i.readOccurrences, pairwise_readOccurrences, fun _ => mem_readOccurrences,
    inputs_eq_map i⟩
  length_outputs := i.length_outputs_le
  outputs _ hr := (mem_outputs_iff.1 hr).2.1
  outputs_readOnly h := List.eq_nil_iff_forall_not_mem.2 fun _ hr => (mem_outputs_iff.1 hr).2.2 h
  outputs_noRegister h :=
    List.eq_nil_iff_forall_not_mem.2 fun r hr => h r (mem_outputs_iff.1 hr).2.1
  destination r hr hplaces := by
    rw [mem_inputs_iff]
    constructor
    · rintro ⟨o, ⟨-, hread⟩, ho⟩
      exact hread.resolve_left (not_not_intro ((hplaces o).1 ho))
    · intro hclass
      have hreg := (hplaces .destination).2 rfl
      exact ⟨.destination, ⟨hreg ▸ hr, .inr hclass⟩, hreg⟩

end Instruction

end CodeTiling.Code
