import CodeTiling.Proofs.Decimals
import CodeTiling.Proofs.Emission
import CodeTiling.Proofs.Soundness
import CodeTiling.Proofs.WellFormed
import Mathlib.Data.List.Induction

/-!
# Expansion replaces all names at once

The expansion of a template goes from left to right, and what a reference becomes depends on the
names that were issued on the way. Here the result is said without the way: `Rule.Becomes` replaces
every name of the template, each by itself and in any order, when `regs` has a register for each
new-register name.

* `Rule.issued_eq` : the registers are the fresh names of the scope, one for each new-register name,
  in the order in which the names first occur;
* `Rule.expand_substitutes` : the expansion of a checked rule over the bindings of a match comes to
  the one thing that the template becomes.
-/

namespace CodeTiling

open Code (Operand Register Instruction Indirect)

/-! ### Replacing names -/

section

variable (t : NameTable) (b : Bindings) (regs : List (Name × Name))

/-- What an operand without parts becomes. -/
inductive Atom.Becomes : Atom → Operand → Prop
  /-- A machine register stays. -/
  | machine (x : MachineReg) : Becomes (.machine x) (.reg (.machine x))
  /-- A new register becomes the register that was issued for it. -/
  | fresh {n x : Name} (h : (n, x) ∈ regs) : Becomes (.fresh n) (.reg (.virtual x))
  /-- A reference to a new register becomes the same one. -/
  | new {n x : Name} (h : (n, x) ∈ regs) : Becomes (.ref n) (.reg (.virtual x))
  /-- A reference to a name of the pattern becomes what the name stands for. -/
  | bound {n : Name} {x : Operand} (h : b.value? n = some x) : Becomes (.ref n) x
  /-- A label becomes the one that it stands for. -/
  | label {n : Name} {x : Operand} (h : b.value? n = some x) : Becomes (.label n) x
  /-- A literal that is the decimal form of a number is that number. -/
  | number {n : Name} {v : Int64} (h : t.text n = Text.decimal v.toInt) :
    Becomes (.literal n) (.imm v)
  /-- Any other literal stays as it is written. -/
  | verbatim {n : Name} (h : ∀ v : Int64, t.text n ≠ Text.decimal v.toInt) :
    Becomes (.literal n) (.addr n)

/-- What a base or an index becomes. -/
inductive TermBecomes : Option AddressTerm → Register → Prop
  /-- Where there is none, there is none. -/
  | absent : TermBecomes none .none
  /-- An operand without parts becomes a register. -/
  | atom {a : Atom} {x : Register} (h : a.Becomes t b regs (.reg x)) :
    TermBecomes (some (.atom a)) x

/-- What an operand becomes. -/
inductive OperandBecomes : Option TemplateOperand → Operand → Prop
  /-- An operand without parts. -/
  | atom {a : Atom} {x : Operand} (h : a.Becomes t b regs x) : OperandBecomes (some (.atom a)) x
  /-- A memory operand keeps its size, its scale and its displacement. -/
  | indirect {m : AddressTemplate} {base index : Register}
    (hbase : TermBecomes t b regs m.base base) (hindex : TermBecomes t b regs m.index index) :
    OperandBecomes (some (.indirect m))
      (.indirect { size := m.size, base, index, scale := m.scale, disp := m.disp })

/-- What a line becomes. -/
inductive LineBecomes (l : TemplateLine) : List Instruction → Prop
  /-- An argument list becomes an instruction for each argument, the last one first. -/
  | list {n : Name} {as : List Operand} {m : Mnemonic} (args : l.args = [some (.atom (.ref n))])
    (h : b.list? n = some as) (hm : Mnemonic.ofText? (t.text l.mnemonic) = some m) :
    LineBecomes l (as.reverse.map fun a => { mnemonic := m, args := [some a] })
  /-- Any other line becomes one instruction with as many operands. -/
  | single {xs : List Operand} {m : Mnemonic}
    (other : ∀ n, l.args = [some (.atom (.ref n))] → b.list? n = none)
    (hm : Mnemonic.ofText? (t.text l.mnemonic) = some m)
    (hargs : List.Forall₂ (OperandBecomes t b regs) l.args xs) :
    LineBecomes l [{ mnemonic := m, args := xs.map some }]

/-- What a template becomes, line by line. -/
def Rule.Becomes (r : Rule) (out : List Instruction) : Prop :=
  ∃ parts, List.Forall₂ (LineBecomes t b regs) r.template parts ∧ out = parts.flatten

end

/-! ### The registers of a rule -/

/-- Issue fresh names on stems, one after another. -/
def Naming.freshAll (g : Naming) : List Text → List Name × Naming
  | [] => ([], g)
  | stem :: stems =>
    let rest := (Naming.fresh stem g).2.freshAll stems
    ((Naming.fresh stem g).1 :: rest.1, rest.2)

namespace Naming

variable (g : Naming)

theorem freshAll_concat (stems : List Text) (stem : Text) :
    g.freshAll (stems ++ [stem]) =
      ((g.freshAll stems).1 ++ [(fresh stem (g.freshAll stems).2).1],
        (fresh stem (g.freshAll stems).2).2) := by
  induction stems generalizing g with
  | nil => rfl
  | cons s stems ih => simp only [List.cons_append, freshAll, ih]

theorem length_freshAll (stems : List Text) : (g.freshAll stems).1.length = stems.length := by
  induction stems generalizing g with
  | nil => rfl
  | cons s stems ih => simp only [freshAll, List.length_cons, ih]

end Naming

theorem mem_iff_lookup {l : List (Name × Name)} (h : (l.map Prod.fst).Nodup) {n x : Name} :
    (n, x) ∈ l ↔ l.lookup n = some x := by
  induction l with
  | nil => simp
  | cons e l ih =>
    obtain ⟨m, y⟩ := e
    obtain ⟨hm, hl⟩ := List.nodup_cons.1 h
    rw [List.mem_cons, List.lookup_cons, Prod.mk.injEq]
    by_cases hn : n = m
    · subst hn
      have hno : (n, x) ∉ l := fun hx => hm (List.mem_map.2 ⟨(n, x), hx, rfl⟩)
      simp [hno, eq_comm]
    · have hne : (n == m) = false := by simpa using hn
      rw [hne, ← ih hl]
      simp [hn]

/-- What new registers are issued one after another, each once. -/
theorem Expansion.issueAll_eq {t : NameTable} {g : Naming} (ht : t ≤ g.table) {ns : List Name}
    (hns : ∀ n ∈ ns, t.isIssued n = true) :
    issueAll ⟨g, []⟩ ns =
      ⟨(g.freshAll (ns.eraseDups.map t.text)).2,
        (ns.eraseDups.zip (g.freshAll (ns.eraseDups.map t.text)).1).reverse⟩ := by
  induction ns using List.reverseRecOn with
  | nil => rfl
  | append_singleton ns n ih =>
    have hall := ih fun m hm => hns m (List.mem_append_left _ hm)
    have hn : t.isIssued n = true := hns n (by simp)
    rw [issueAll_append, eraseDups_concat]
    change (issueAll ⟨g, []⟩ ns).issue n = _
    by_cases h : n ∈ ns
    · obtain ⟨x, hx⟩ := Option.isSome_iff_exists.1
        ((isSome_lookup_issueAll (s := ⟨g, []⟩)).2 (.inr h))
      rw [if_pos h, issue_of_lookup_some hx, hall]
    · have hnone : (issueAll ⟨g, []⟩ ns).issued.lookup n = none := by
        rw [← Option.not_isSome_iff_eq_none, isSome_lookup_issueAll]
        simpa using h
      have htext : (issueAll ⟨g, []⟩ ns).naming.table.text n = t.text n :=
        NameTable.text_mono (NameTable.le_trans ht (le_issueAll (s := ⟨g, []⟩) ns)) hn
      rw [if_neg h, issue_of_lookup_none hnone, htext, hall, List.map_append, List.map_singleton,
        Naming.freshAll_concat, List.zip_append (by simp [Naming.length_freshAll])]
      simp

namespace Rule

variable {t : NameTable} {b : Bindings} {bound : List Binding} {r : Rule} {g : Naming}

/-- The new registers of a rule, each once and in the order in which they first occur, with the
names that are issued for them. -/
def registers (r : Rule) (t : NameTable) (g : Naming) : List (Name × Name) :=
  r.freshNames.eraseDups.zip (g.freshAll (r.freshNames.eraseDups.map t.text)).1

theorem map_fst_registers : (r.registers t g).map Prod.fst = r.freshNames.eraseDups := by
  rw [registers, List.map_fst_zip]
  simp [Naming.length_freshAll]

theorem freshNames_subset_names {n : Name} (h : n ∈ r.freshNames) : n ∈ r.names := by
  obtain ⟨a, ha, hn⟩ := List.mem_flatMap.1 h
  refine List.mem_append_right _ (List.mem_flatMap.2 ⟨a, ha, ?_⟩)
  cases a <;> simp_all [Atom.freshNames, Atom.names]

theorem issued_eq (hnames : ∀ n ∈ r.names, t.isIssued n = true) (ht : t ≤ g.table) :
    r.issued g =
      ⟨(g.freshAll (r.freshNames.eraseDups.map t.text)).2, (r.registers t g).reverse⟩ :=
  Expansion.issueAll_eq ht fun n hn => hnames n (freshNames_subset_names hn)

end Rule

/-! ### The instance of a template is what it becomes -/

section

variable {t : NameTable} {b : Bindings} {regs regs' : List (Name × Name)}

/-- The registers are found by name, and none of them is for a name of the pattern. -/
structure FoundIn (b : Bindings) (regs regs' : List (Name × Name)) : Prop where
  /-- A register is found by its name. -/
  lookup : ∀ n x, (n, x) ∈ regs ↔ regs'.lookup n = some x
  /-- Its name is no name of the pattern. -/
  apart : ∀ n x, regs'.lookup n = some x → b.value? n = none

theorem literal_becomes_iff {n : Name} {x : Operand} :
    Atom.Becomes t b regs (.literal n) x ↔ literalOperand (t.text n) n = x := by
  cases h : canonicalImm? (t.text n) with
  | some v =>
    have htext := canonicalImm?_eq_some_iff.1 h
    simp only [literalOperand, h]
    constructor
    · intro hx
      cases hx with
      | number hw =>
        rw [← canonicalImm?_eq_some_iff, h] at hw
        rw [Option.some.inj hw]
      | verbatim hno => exact (hno v htext).elim
    · rintro rfl
      exact .number htext
  | none =>
    have htext : ∀ v : Int64, t.text n ≠ Text.decimal v.toInt := by
      intro v hv
      rw [← canonicalImm?_eq_some_iff, h] at hv
      cases hv
    simp only [literalOperand, h]
    constructor
    · intro hx
      cases hx with
      | number hw => exact (htext _ hw).elim
      | verbatim _ => rfl
    · rintro rfl
      exact .verbatim htext

variable (hregs : FoundIn b regs regs')
include hregs

theorem atom_becomes_iff {a : Atom} {x : Operand} :
    a.Becomes t b regs x ↔ instanceAtom t b regs' a = some x := by
  cases a with
  | machine r =>
    simp only [instanceAtom, Option.some.injEq]
    constructor
    · rintro ⟨⟩
      rfl
    · rintro rfl
      exact .machine r
  | fresh n =>
    simp only [instanceAtom, Option.map_eq_some_iff, ← hregs.lookup]
    constructor
    · rintro ⟨⟩
      exact ⟨_, ‹_›, rfl⟩
    · rintro ⟨y, hy, rfl⟩
      exact .fresh hy
  | ref n =>
    constructor
    · intro h
      cases h with
      | new h => simp only [instanceAtom, (hregs.lookup n _).1 h]
      | bound h =>
        have hnone : regs'.lookup n = none := by
          rw [Option.eq_none_iff_forall_not_mem]
          intro y hy
          rw [hregs.apart n y hy] at h
          cases h
        simp only [instanceAtom, hnone, h]
    · intro h
      cases hy : regs'.lookup n with
      | some y =>
        simp only [instanceAtom, hy, Option.some.injEq] at h
        subst h
        exact .new ((hregs.lookup n y).2 hy)
      | none =>
        simp only [instanceAtom, hy] at h
        exact .bound h
  | literal n => rw [literal_becomes_iff, instanceAtom, Option.some.injEq]
  | label n =>
    constructor
    · rintro ⟨⟩
      assumption
    · intro h
      exact .label h

theorem term_becomes_iff {o : Option AddressTerm} {x : Register} :
    TermBecomes t b regs o x ↔ instanceTerm t b regs' o = some x := by
  rcases o with - | a | -
  · constructor
    · rintro ⟨⟩
      rfl
    · intro h
      cases h
      exact .absent
  · constructor
    · rintro ⟨⟩
      rename_i h
      simp only [instanceTerm, (atom_becomes_iff hregs).1 h]
    · intro h
      refine .atom ((atom_becomes_iff hregs).2 ?_)
      simp only [instanceTerm] at h
      split at h
      · rename_i y hy
        rw [hy, Option.some.inj h]
      · cases h
  · constructor
    · rintro ⟨⟩
    · intro h
      cases h

theorem operand_becomes_iff {o : Option TemplateOperand} {x : Operand} :
    OperandBecomes t b regs o x ↔ instanceOperand t b regs' o = some x := by
  rcases o with - | a | m
  · constructor
    · rintro ⟨⟩
    · intro h
      cases h
  · rw [instanceOperand, ← atom_becomes_iff hregs]
    constructor
    · rintro ⟨⟩
      assumption
    · exact .atom
  · constructor
    · rintro ⟨⟩
      rename_i base index hbase hindex
      rw [term_becomes_iff hregs] at hbase hindex
      simp [instanceOperand, hbase, hindex]
    · intro h
      obtain ⟨base, hbase, h⟩ := Option.bind_eq_some_iff.1 h
      obtain ⟨index, hindex, h⟩ := Option.bind_eq_some_iff.1 h
      obtain rfl := Option.some.inj h
      exact .indirect ((term_becomes_iff hregs).2 hbase) ((term_becomes_iff hregs).2 hindex)

theorem operands_become_iff {as : List (Option TemplateOperand)} {xs : List Operand} :
    List.Forall₂ (OperandBecomes t b regs) as xs ↔
      as.map (instanceOperand t b regs') = xs.map some := by
  rw [← List.forall₂_eq_eq_eq, List.forall₂_map_left_iff, List.forall₂_map_right_iff]
  have hiff : OperandBecomes t b regs = fun o x => instanceOperand t b regs' o = some x := by
    funext o x
    exact propext (operand_becomes_iff hregs)
  rw [hiff]

/-- A line becomes its instance, if the mnemonic is known and each operand has an instance. -/
theorem line_becomes_iff {l : TemplateLine} {is : List Instruction}
    (hmnemonic : ∃ m, Mnemonic.ofText? (t.text l.mnemonic) = some m)
    (hargs : ∀ i ∈ instanceLine t b regs' l, ∀ a ∈ i.args, a.isSome = true) :
    LineBecomes t b regs l is ↔ is = instanceLine t b regs' l := by
  obtain ⟨m, hm⟩ := hmnemonic
  have hmnemonicIn : l.mnemonicIn t = m := by rw [TemplateLine.mnemonicIn, hm, Option.getD_some]
  cases hlist : lineList? b l with
  | some as =>
    obtain ⟨n, hn, has⟩ := lineList?_eq_some hlist
    rw [instanceLine, hlist, hmnemonicIn]
    constructor
    · intro h
      cases h with
      | list hn' has' hm' =>
        rw [hm] at hm'
        obtain rfl := Option.some.inj hm'
        simp only [hn, List.cons.injEq, Option.some.injEq, TemplateOperand.atom.injEq,
          Atom.ref.injEq, and_true] at hn'
        rw [← hn', has] at has'
        rw [Option.some.inj has']
      | single other _ _ =>
        rw [other n hn] at has
        cases has
    · rintro rfl
      exact .list hn has hm
  | none =>
    have hother : ∀ n, l.args = [some (.atom (.ref n))] → b.list? n = none := by
      intro n hn
      simpa only [lineList?, hn] using hlist
    rw [instanceLine, hlist, hmnemonicIn]
    constructor
    · intro h
      cases h with
      | list hn has _ =>
        rw [hother _ hn] at has
        cases has
      | single _ hm' hxs =>
        rw [hm] at hm'
        obtain rfl := Option.some.inj hm'
        rw [(operands_become_iff hregs).1 hxs]
    · rintro rfl
      -- no operand is missing, so that the instances are those of a list of operands
      have hsome : ∀ o ∈ l.args.map (instanceOperand t b regs'), o.isSome = true := by
        refine hargs { mnemonic := l.mnemonicIn t, args := _ } ?_
        rw [instanceLine, hlist]
        exact List.mem_singleton.2 rfl
      have hxs : (l.args.filterMap (instanceOperand t b regs')).map some =
          l.args.map (instanceOperand t b regs') := by
        rw [List.map_filterMap_some_eq_filter_map_isSome, List.filter_eq_self]
        exact hsome
      rw [← hxs]
      exact .single hother hm ((operands_become_iff hregs).2 hxs.symm)

theorem lines_become_iff {ls : List TemplateLine} {parts : List (List Instruction)}
    (hmnemonics : ∀ l ∈ ls, ∃ m, Mnemonic.ofText? (t.text l.mnemonic) = some m)
    (hargs : ∀ i ∈ ls.flatMap (instanceLine t b regs'), ∀ a ∈ i.args, a.isSome = true) :
    List.Forall₂ (LineBecomes t b regs) ls parts ↔ parts = ls.map (instanceLine t b regs') := by
  induction ls generalizing parts with
  | nil => simp
  | cons l ls ih =>
    obtain ⟨hl, hls⟩ := List.forall_mem_cons.1 hmnemonics
    rw [List.flatMap_cons] at hargs
    have hline : ∀ is, LineBecomes t b regs l is ↔ is = instanceLine t b regs' l :=
      fun is => line_becomes_iff hregs hl fun i hi => hargs i (List.mem_append_left _ hi)
    have hrest : ∀ parts, List.Forall₂ (LineBecomes t b regs) ls parts ↔ parts = _ :=
      fun parts => ih hls fun i hi => hargs i (List.mem_append_right _ hi)
    rw [List.forall₂_cons_left_iff, List.map_cons]
    simp only [hline, hrest]
    constructor
    · rintro ⟨_, _, rfl, rfl, rfl⟩
      rfl
    · rintro rfl
      exact ⟨_, _, rfl, rfl, rfl⟩

end

namespace Rule

variable {t : NameTable} {b : Bindings} {bound : List Binding} {r : Rule} {g : Naming}

/-- The registers that an expansion uses are those of the rule. -/
theorem Accepted.foundIn (hr : r.Accepted t bound) (hb : b.Fits bound)
    (hnames : ∀ n ∈ r.names, t.isIssued n = true) (ht : t ≤ g.table) :
    FoundIn b (r.registers t g) (r.issued g).issued := by
  refine ⟨fun n x => ?_, fun n x h => hr.issued_apart hb h⟩
  rw [issued_eq hnames ht, ← mem_iff_lookup, List.mem_reverse]
  rw [List.map_reverse, List.nodup_reverse, map_fst_registers]
  exact nodup_eraseDups _

/-- A template becomes its instance, and nothing else. -/
theorem Accepted.becomes_iff (hr : r.Accepted t bound) (hb : b.Fits bound)
    (hnames : ∀ n ∈ r.names, t.isIssued n = true) (ht : t ≤ g.table) {out : List Instruction} :
    r.Becomes t b (r.registers t g) out ↔ out = r.instanceOf t b (r.issued g).issued := by
  have hmnemonics : ∀ l ∈ r.template, ∃ m, Mnemonic.ofText? (t.text l.mnemonic) = some m :=
    fun l hl => (((linesOk_iff (by simp)).1 hr.lines).1 l hl).mnemonic
  have hargs : ∀ i ∈ r.instanceOf t b (r.issued g).issued, ∀ a ∈ i.args, a.isSome = true := by
    intro i hi a ha
    obtain ⟨x, rfl, -⟩ :=
      (hr.isSound_instanceOf hb (r.hasRegisters_issued g) i hi).operands a ha
    rfl
  rw [Becomes]
  simp only [lines_become_iff (hr.foundIn hb hnames ht) hmnemonics hargs, exists_eq_left]
  rw [instanceOf, List.flatMap]

/-- No new register has a name that the bindings of a match give something to. -/
theorem Accepted.news_unbound (hr : r.Accepted t bound) (hb : b.Fits bound) {n : Name}
    (hn : n ∈ r.freshNames) : b.value? n = none ∧ b.list? n = none := by
  have hmem : n ∈ addFresh [] (r.template.flatMap TemplateLine.atoms) := mem_addFresh.2 (.inr hn)
  have hk := hr.lines.addFresh_unbound (by simp) n hmem
  constructor
  · rw [Option.eq_none_iff_forall_not_mem]
    intro x hx
    obtain ⟨k, -, hk'⟩ := hb.value hx
    rw [hk] at hk'
    cases hk'
  · rw [Option.eq_none_iff_forall_not_mem]
    intro l hl
    obtain ⟨hk', -⟩ := hb.list hl
    rw [hk] at hk'
    cases hk'

/-- **Expansion replaces all names at once.** Take a rule that passes the check, what its names
stand for in a match, and any scope. The new-register names, each once and in the order in which
they first occur, stand for nothing in the match. The scope issues one fresh name for each of them,
in this order, and nothing else. With them as registers the template becomes, in the sense of
`Rule.Becomes`, one list of instructions, and this list is the result. -/
theorem expand_substitutes {code : List (Option Ir.Instr)} {term : Option Ir.Terminator} {k : Nat}
    (hcheck : r.check t = .ok ()) (hnames : ∀ n ∈ r.names, t.isIssued n = true)
    (hmatch : r.matchAt code term = .ok (some (b, k))) (ht : t ≤ g.table) :
    let news := r.freshNames.eraseDups
    let issued := g.freshAll (news.map t.text)
    (∀ n ∈ news, b.value? n = none ∧ b.list? n = none) ∧
    ∃ out, r.expand b g = (.ok out, issued.2) ∧
      ∀ out', r.Becomes t b (news.zip issued.1) out' ↔ out' = out := by
  obtain ⟨bound, hr⟩ := accepted_of_check hcheck
  have hb : b.Fits bound := hr.fits (matchAt_some hmatch)
  refine ⟨fun n hn => hr.news_unbound hb (List.mem_eraseDups.1 hn),
    r.instanceOf t b (r.issued g).issued, ?_, fun out' => hr.becomes_iff hb hnames ht⟩
  rw [expand_spec hr hnames hb ht, issued_eq hnames ht]

end Rule

namespace Sample

/-- The names of a rule for calls and of a call. -/
def callTable : NameTable :=
  .ofTexts ["", "d", "f", "as", "t", "u", "push", "lea", "mov", "call", "-7", "x", "y", "g"]
    (by decide) rfl

/-- Push the arguments, use two new registers, and call. The second one first occurs as a base. -/
def pushAll : Rule where
  name := "pushAll"
  pattern := { code := [some (.call ⟨1⟩ ⟨2⟩ ⟨3⟩)] }
  template := [
    { mnemonic := ⟨6⟩, args := [some (.atom (.ref ⟨3⟩))] },
    { mnemonic := ⟨8⟩, args := [some (.atom (.fresh ⟨4⟩)), some (.atom (.literal ⟨10⟩))] },
    { mnemonic := ⟨7⟩
      args := [some (.atom (.ref ⟨4⟩)), some (.indirect
        { base := some (.atom (.fresh ⟨5⟩)), index := some (.atom (.ref ⟨4⟩)), scale := 4 })] },
    { mnemonic := ⟨9⟩, args := [some (.atom (.ref ⟨2⟩))] },
    { mnemonic := ⟨8⟩, args := [some (.atom (.ref ⟨1⟩)), some (.atom (.machine ⟨0⟩))] }]

/-- A call with a register and a number. -/
def callCode : List (Option Ir.Instr) :=
  [some (.call ⟨11⟩ ⟨13⟩ [some (.reg ⟨12⟩), some (.imm 5)])]

/-- What the names of the rule stand for in the call. -/
def callBindings : Bindings where
  values := [(⟨1⟩, .reg (.virtual ⟨11⟩)), (⟨2⟩, .addr ⟨13⟩)]
  lists := [(⟨3⟩, [.reg (.virtual ⟨12⟩), .imm 5])]

theorem expand_substitutes_pushAll :
    pushAll.check callTable = .ok () ∧
    pushAll.matchAt callCode none = .ok (some (callBindings, 1)) ∧
    ∃ out g', pushAll.expand callBindings (.ofTable callTable) = (.ok out, g') ∧
      ∀ out', pushAll.Becomes callTable callBindings [(⟨4⟩, ⟨14⟩), (⟨5⟩, ⟨15⟩)] out' ↔
        out' = out := by
  have hcheck : pushAll.check callTable = .ok () := rfl
  have hmatch : pushAll.matchAt callCode none = .ok (some (callBindings, 1)) := rfl
  have hregs : pushAll.registers callTable (.ofTable callTable) =
      [(⟨4⟩, ⟨14⟩), (⟨5⟩, ⟨15⟩)] := by decide
  obtain ⟨-, out, hrun, hiff⟩ := Rule.expand_substitutes (g := .ofTable callTable) hcheck
    (by decide) hmatch (NameTable.le_refl _)
  change ∀ out', pushAll.Becomes callTable callBindings (pushAll.registers callTable _) out' ↔ _
    at hiff
  rw [hregs] at hiff
  exact ⟨hcheck, hmatch, out, _, hrun, hiff⟩

end Sample

end CodeTiling
