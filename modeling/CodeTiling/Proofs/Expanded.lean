import CodeTiling.Proofs.Matched
import CodeTiling.Proofs.Naming
import CodeTiling.Select.Expand

/-!
# Expansion is substitution

The expansion of a template reads it from left to right and issues names on the way. Here the two
are taken apart. `Expansion.issueAll` is the effect: one fresh name for each new register, in the
order in which they first occur. `Rule.instanceOf` is the result: the template with every name
replaced, where `regs` has the registers of the new-register names.

* `Rule.expand_spec` : the expansion of an accepted rule over the bindings of a match succeeds, its
  result is the instance and its effect is that of issuing the new registers.
-/

namespace CodeTiling

open Code (Operand Register Instruction Indirect)

/-! ### The instance of a template -/

section

variable (t : NameTable) (b : Bindings) (regs : List (Name × Name))

/-- The operand that an operand without parts becomes. -/
def instanceAtom : Atom → Option Operand
  | .machine r => some (.reg (.machine r))
  | .fresh n => (regs.lookup n).map fun r => .reg (.virtual r)
  | .ref n =>
    match regs.lookup n with
    | some r => some (.reg (.virtual r))
    | none => b.value? n
  | .literal n => some (literalOperand (t.text n) n)
  | .label n => b.value? n

/-- The register that a part of a memory operand becomes. -/
def instanceTerm : Option AddressTerm → Option Register
  | none => some .none
  | some .nested => none
  | some (.atom a) =>
    match instanceAtom t b regs a with
    | some (.reg r) => some r
    | _ => none

/-- The operand that an operand becomes. -/
def instanceOperand : Option TemplateOperand → Option Operand
  | none => none
  | some (.atom a) => instanceAtom t b regs a
  | some (.indirect m) => do
    let base ← instanceTerm t b regs m.base
    let index ← instanceTerm t b regs m.index
    return .indirect { size := m.size, base, index, scale := m.scale, disp := m.disp }

/-- The mnemonic of a line. -/
def TemplateLine.mnemonicIn (l : TemplateLine) : Mnemonic :=
  (Mnemonic.ofText? (t.text l.mnemonic)).getD ⟨0⟩

/-- The instructions that a line becomes: one, or one for each argument of a call. -/
def instanceLine (l : TemplateLine) : List Instruction :=
  match lineList? b l with
  | some as => as.reverse.map fun a => { mnemonic := l.mnemonicIn t, args := [some a] }
  | none => [{ mnemonic := l.mnemonicIn t, args := l.args.map (instanceOperand t b regs) }]

/-- The instructions that a template becomes. -/
def Rule.instanceOf (r : Rule) : List Instruction :=
  r.template.flatMap (instanceLine t b regs)

end

/-! ### Issuing new registers -/

namespace Expansion

variable (s : Expansion)

/-- Issue a new register, unless this use of the rule has it already. -/
def issue (n : Name) : Expansion :=
  match s.issued.lookup n with
  | some _ => s
  | none =>
    { naming := (Naming.fresh (s.naming.table.text n) s.naming).2
      issued := (n, (Naming.fresh (s.naming.table.text n) s.naming).1) :: s.issued }

/-- Issue new registers one after another. -/
def issueAll (ns : List Name) : Expansion := ns.foldl issue s

variable {s}

theorem issueAll_append (ns ms : List Name) :
    s.issueAll (ns ++ ms) = (s.issueAll ns).issueAll ms := List.foldl_append

theorem issue_of_lookup_none {n : Name} (h : s.issued.lookup n = none) :
    s.issue n =
      { naming := (Naming.fresh (s.naming.table.text n) s.naming).2
        issued := (n, (Naming.fresh (s.naming.table.text n) s.naming).1) :: s.issued } := by
  simp [issue, h]

theorem issue_of_lookup_some {n r : Name} (h : s.issued.lookup n = some r) : s.issue n = s := by
  simp [issue, h]

theorem le_issue (n : Name) : s.naming.table ≤ (s.issue n).naming.table := by
  cases h : s.issued.lookup n with
  | some r => rw [issue_of_lookup_some h]; exact NameTable.le_refl _
  | none => rw [issue_of_lookup_none h]; exact NameTable.le_intern _ _

theorem lookup_issue_of_some {n m r : Name} (h : s.issued.lookup m = some r) :
    (s.issue n).issued.lookup m = some r := by
  cases hn : s.issued.lookup n with
  | some r' => rwa [issue_of_lookup_some hn]
  | none =>
    rw [issue_of_lookup_none hn, List.lookup_cons]
    by_cases hm : m = n
    · subst hm; simp [hn] at h
    · have : (m == n) = false := by simpa using hm
      simpa [this] using h

theorem lookup_issue_self (n : Name) : ∃ r, (s.issue n).issued.lookup n = some r := by
  cases h : s.issued.lookup n with
  | some r => exact ⟨r, by rw [issue_of_lookup_some h, h]⟩
  | none => exact ⟨_, by rw [issue_of_lookup_none h, List.lookup_cons_self]⟩

theorem isSome_lookup_issue {n m : Name} :
    ((s.issue n).issued.lookup m).isSome = true ↔ (s.issued.lookup m).isSome = true ∨ m = n := by
  by_cases hm : m = n
  · subst hm
    obtain ⟨r, hr⟩ := @lookup_issue_self s m
    simp [hr]
  · cases h : s.issued.lookup n with
    | some r => simp [issue_of_lookup_some h, hm]
    | none =>
      have : (m == n) = false := by simpa using hm
      simp [issue_of_lookup_none h, List.lookup_cons, this, hm]

theorem le_issueAll (ns : List Name) : s.naming.table ≤ (s.issueAll ns).naming.table := by
  induction ns generalizing s with
  | nil => exact NameTable.le_refl _
  | cons n ns ih => exact NameTable.le_trans (le_issue n) ih

theorem lookup_issueAll_of_some {ns : List Name} {m r : Name} (h : s.issued.lookup m = some r) :
    (s.issueAll ns).issued.lookup m = some r := by
  induction ns generalizing s with
  | nil => exact h
  | cons n ns ih => exact ih (lookup_issue_of_some h)

theorem isSome_lookup_issueAll {ns : List Name} {m : Name} :
    ((s.issueAll ns).issued.lookup m).isSome = true ↔
      (s.issued.lookup m).isSome = true ∨ m ∈ ns := by
  induction ns generalizing s with
  | nil => simp [issueAll]
  | cons n ns ih =>
    have h := @ih (s.issue n)
    simp only [issueAll, List.foldl_cons, List.mem_cons] at h ⊢
    rw [h, isSome_lookup_issue, or_assoc]

end Expansion

/-! ### Running an expansion -/

/-- What holds while the template of an accepted rule is expanded: the rule's names are issued by
`t`, which the table in use extends, and the new registers so far are those further left, none of
them a name of the pattern. -/
structure Ready (t : NameTable) (bound : List Binding) (fresh : List Name) (s : Expansion) :
    Prop where
  /-- The table has grown from `t`. -/
  table : t ≤ s.naming.table
  /-- The new registers so far. -/
  issued : ∀ {n}, n ∈ fresh ↔ (s.issued.lookup n).isSome = true
  /-- They are no names of the pattern. -/
  apart : ∀ n ∈ fresh, kindOf? bound n = none

/-- `regs` has all registers of `s` and no name of the pattern. -/
structure Continues (b : Bindings) (s : Expansion) (regs : List (Name × Name)) : Prop where
  /-- The registers of `s` are kept. -/
  keeps : ∀ {n r}, s.issued.lookup n = some r → regs.lookup n = some r
  /-- No register is for a name of the pattern. -/
  apart : ∀ {n r}, regs.lookup n = some r → b.value? n = none

variable {t : NameTable} {b : Bindings} {bound : List Binding} {fresh : List Name} {s : Expansion}
  {regs : List (Name × Name)}

theorem Continues.of_issueAll {ns : List Name} (h : Continues b (s.issueAll ns) regs) :
    Continues b s regs :=
  ⟨fun hn => h.keeps (Expansion.lookup_issueAll_of_some hn), h.apart⟩

theorem Ready.issueAll {as : List Atom} (hs : Ready t bound fresh s)
    (h : ∀ n ∈ addFresh fresh as, kindOf? bound n = none) :
    Ready t bound (addFresh fresh as) (s.issueAll (as.flatMap Atom.freshNames)) := by
  refine ⟨NameTable.le_trans hs.table (Expansion.le_issueAll _), fun {n} => ?_, h⟩
  rw [mem_addFresh, Expansion.isSome_lookup_issueAll, hs.issued]

theorem textOf_run {n : Name} (hs : t ≤ s.naming.table) (hn : t.isIssued n = true) :
    textOf n s = (.ok (t.text n), s) := by
  have h : s.naming.table.text? n = some (t.text n) :=
    NameTable.text?_mono hs (NameTable.text?_eq_some_text hn)
  rw [textOf, Run.bind_ok (Run.get_apply s), h]
  rfl

theorem newRegister_run {n : Name} (hs : t ≤ s.naming.table) (hn : t.isIssued n = true) :
    ∃ r, newRegister n s = (.ok (.virtual r), s.issue n) ∧
      (s.issue n).issued.lookup n = some r := by
  rw [newRegister, Run.bind_ok (Run.get_apply s)]
  cases h : s.issued.lookup n with
  | some r =>
    refine ⟨r, ?_, ?_⟩
    · rw [Expansion.issue_of_lookup_some h]; rfl
    · rw [Expansion.issue_of_lookup_some h, h]
  | none =>
    dsimp only
    rw [Run.bind_ok (textOf_run hs hn), Run.bind_ok (Run.get_apply s),
      Expansion.issue_of_lookup_none h, NameTable.text_mono hs hn]
    exact ⟨_, rfl, List.lookup_cons_self⟩

/-- The run of an operand without parts that is no argument list. -/
theorem expandAtom_run {a : Atom} {isReg : Bool} (hb : b.Fits bound) (hs : Ready t bound fresh s)
    (ha : AtomOk bound fresh a isReg) (hl : isListRef bound a = false)
    (hn : ∀ n ∈ a.names, t.isIssued n = true) :
    ∃ x, expandAtom b a s = (.ok x, s.issueAll a.freshNames) ∧
      (isReg = true → ∃ r, x = .reg r) ∧
      ∀ regs, Continues b (s.issueAll a.freshNames) regs → instanceAtom t b regs a = some x := by
  cases ha with
  | machine hv => exact ⟨_, rfl, fun _ => ⟨_, rfl⟩, fun _ _ => rfl⟩
  | @fresh n hu =>
    obtain ⟨r, hrun, hlook⟩ := newRegister_run hs.table (hn n (by simp [Atom.names]))
    refine ⟨.reg (.virtual r), ?_, fun _ => ⟨_, rfl⟩, fun regs hregs => ?_⟩
    · rw [expandAtom, Run.bind_ok hrun]; rfl
    · have : regs.lookup n = some r := hregs.keeps hlook
      simp [instanceAtom, this]
  | @refFresh n he =>
    obtain ⟨r, hr⟩ := Option.isSome_iff_exists.1 (hs.issued.1 he)
    refine ⟨.reg (.virtual r), ?_, fun _ => ⟨_, rfl⟩, fun regs hregs => ?_⟩
    · rw [expandAtom, Run.bind_ok (Run.get_apply s), hr]; rfl
    · have : regs.lookup n = some r := hregs.keeps hr
      simp [instanceAtom, this]
  | @refBound n k isReg ho hk hnl hreg =>
    have hna : k ≠ .arguments := by
      rintro rfl
      simp [isListRef, hk] at hl
    obtain ⟨x, hx⟩ := hb.hasValue hk hna
    have hnone : s.issued.lookup n = none :=
      Option.not_isSome_iff_eq_none.1 fun h => ho (hs.issued.2 h)
    refine ⟨x, ?_, fun hisReg => ?_, fun regs hregs => ?_⟩
    · rw [expandAtom, Run.bind_ok (Run.get_apply s), hnone, hx]; rfl
    · obtain ⟨k', hk', hkb⟩ := hb.value hx
      obtain rfl : k = k' := Option.some.inj (hk.symm.trans hkb)
      rw [hreg.1 hisReg] at hk'
      cases x <;> simp_all [operandKind?]
    · have : regs.lookup n = none := by
        cases h : regs.lookup n with
        | none => rfl
        | some r => rw [hregs.apart h] at hx; cases hx
      simp [instanceAtom, this, hx]
  | @literal n =>
    refine ⟨literalOperand (t.text n) n, ?_, by simp, fun _ _ => rfl⟩
    rw [expandAtom, Run.bind_ok (textOf_run hs.table (hn n (by simp [Atom.names])))]
    rfl
  | @label n hk =>
    obtain ⟨x, hx⟩ := hb.hasValue hk (by simp)
    refine ⟨x, ?_, by simp, fun _ _ => hx⟩
    rw [expandAtom, hx]; rfl

theorem expandTerm_run (part : AddressPart) {o : Option AddressTerm} (hb : b.Fits bound)
    (hs : Ready t bound fresh s) (ho : TermOk bound fresh o)
    (hn : ∀ a ∈ termAtoms o, ∀ n ∈ a.names, t.isIssued n = true) :
    ∃ r, expandTerm b part o s = (.ok r, s.issueAll ((termAtoms o).flatMap Atom.freshNames)) ∧
      ∀ regs, Continues b (s.issueAll ((termAtoms o).flatMap Atom.freshNames)) regs →
        instanceTerm t b regs o = some r := by
  rcases o with - | a | -
  · exact ⟨.none, rfl, fun _ _ => rfl⟩
  · obtain ⟨x, hrun, hreg, hinst⟩ := expandAtom_run hb hs ho (ho.not_isListRef hs.apart)
      (hn a (by simp [termAtoms]))
    obtain ⟨r, rfl⟩ := hreg rfl
    simp only [termAtoms, List.flatMap_cons, List.flatMap_nil, List.append_nil]
    refine ⟨r, ?_, fun regs hregs => ?_⟩
    · exact Run.adapt_ok (Run.bind_ok hrun)
    · simp [instanceTerm, hinst regs hregs]
  · exact ho.elim

theorem expandAddress_run {m : AddressTemplate} (hb : b.Fits bound) (hs : Ready t bound fresh s)
    (hm : AddressOk bound fresh m)
    (hn : ∀ a ∈ operandAtoms (some (.indirect m)), ∀ n ∈ a.names, t.isIssued n = true) :
    ∃ x, expandAddress b m s =
        (.ok x, s.issueAll ((operandAtoms (some (.indirect m))).flatMap Atom.freshNames)) ∧
      ∀ regs, Continues b
          (s.issueAll ((operandAtoms (some (.indirect m))).flatMap Atom.freshNames)) regs →
        instanceOperand t b regs (some (.indirect m)) = some x := by
  simp only [operandAtoms, List.mem_append] at hn
  simp only [operandAtoms, List.flatMap_append, Expansion.issueAll_append]
  obtain ⟨base, hbase, hbaseInst⟩ := expandTerm_run .base hb hs hm.base
    fun a ha => hn a (.inl ha)
  have hs' := hs.issueAll (hm.base.addFresh_unbound hs.apart)
  obtain ⟨index, hindex, hindexInst⟩ := expandTerm_run .index hb hs' hm.index
    fun a ha => hn a (.inr ha)
  refine ⟨.indirect { size := m.size, base, index, scale := m.scale, disp := m.disp }, ?_,
    fun regs hregs => ?_⟩
  · rw [expandAddress, Run.bind_ok hbase, Run.bind_ok hindex]; rfl
  · simp [instanceOperand, hbaseInst regs hregs.of_issueAll, hindexInst regs hregs]

theorem expandOperand_run {alone : Bool} {o : Option TemplateOperand} (hb : b.Fits bound)
    (hs : Ready t bound fresh s) (ho : OperandOk bound alone fresh o)
    (hl : ∀ a, o = some (.atom a) → isListRef bound a = false)
    (hn : ∀ a ∈ operandAtoms o, ∀ n ∈ a.names, t.isIssued n = true) :
    ∃ x, expandOperand b o s = (.ok x, s.issueAll ((operandAtoms o).flatMap Atom.freshNames)) ∧
      ∀ regs, Continues b (s.issueAll ((operandAtoms o).flatMap Atom.freshNames)) regs →
        instanceOperand t b regs o = some x := by
  rcases o with - | a | m
  · exact ho.elim
  · obtain ⟨⟨isReg, ha⟩, -⟩ := ho
    obtain ⟨x, hrun, -, hinst⟩ := expandAtom_run hb hs ha (hl a rfl) (hn a (by simp [operandAtoms]))
    simp only [operandAtoms, List.flatMap_cons, List.flatMap_nil, List.append_nil]
    exact ⟨x, hrun, hinst⟩
  · exact expandAddress_run hb hs ho hn

theorem expandOperands_run {alone : Bool} {m : Mnemonic} {as : List (Option TemplateOperand)}
    {j : Nat} (hb : b.Fits bound) (hs : Ready t bound fresh s)
    (has : OperandsOk bound alone fresh as)
    (hl : ∀ a, some (.atom a) ∈ as → isListRef bound a = false)
    (hn : ∀ a ∈ as.flatMap operandAtoms, ∀ n ∈ a.names, t.isIssued n = true) :
    ∃ xs, expandOperands b m j as s =
        (.ok xs, s.issueAll ((as.flatMap operandAtoms).flatMap Atom.freshNames)) ∧
      ∀ regs, Continues b (s.issueAll ((as.flatMap operandAtoms).flatMap Atom.freshNames)) regs →
        as.map (instanceOperand t b regs) = xs := by
  induction as generalizing fresh s j with
  | nil => exact ⟨[], rfl, fun _ _ => rfl⟩
  | cons a as ih =>
    simp only [List.flatMap_cons, List.mem_append] at hn
    simp only [List.flatMap_cons, List.flatMap_append, Expansion.issueAll_append]
    obtain ⟨x, hx, hxInst⟩ := expandOperand_run hb hs has.1
      (fun c hc => hl c (by simp [hc])) fun c hc => hn c (.inl hc)
    have hs' := hs.issueAll (has.1.addFresh_unbound hs.apart)
    obtain ⟨xs, hxs, hxsInst⟩ := ih (j := j + 1) hs' has.2
      (fun c hc => hl c (List.mem_cons_of_mem _ hc)) fun c hc => hn c (.inr hc)
    have hx' : ExpandM.within (.operand m.text j) (expandOperand b a) s = _ := Run.adapt_ok hx
    refine ⟨some x :: xs, ?_, fun regs hregs => ?_⟩
    · rw [expandOperands, Run.bind_ok hx', Run.bind_ok hxs]; rfl
    · rw [List.map_cons, hxInst regs hregs.of_issueAll, hxsInst regs hregs]

theorem lineList?_eq_some {l : TemplateLine} {as : List Operand} (h : lineList? b l = some as) :
    ∃ n, l.args = [some (.atom (.ref n))] ∧ b.list? n = some as := by
  unfold lineList? at h
  split at h
  · rename_i n hargs
    exact ⟨n, hargs, h⟩
  · cases h

/-- Only a reference that stands alone on its line is to an argument list. -/
theorem OperandsOk.not_isListRef {l : TemplateLine} (hb : b.Fits bound)
    (h : OperandsOk bound (l.args.length = 1) fresh l.args) (hlist : lineList? b l = none) :
    ∀ a, some (.atom a) ∈ l.args → isListRef bound a = false := by
  have halone : ∀ {as : List (Option TemplateOperand)} {fresh : List Name} {alone : Bool},
      OperandsOk bound alone fresh as → ∀ a, some (.atom a) ∈ as → isListRef bound a = true →
        alone = true := by
    intro as
    induction as with
    | nil => simp
    | cons c as ih =>
      intro fresh alone h a ha hl
      rcases List.mem_cons.1 ha with rfl | ha
      · exact h.1.2 hl
      · exact ih h.2 a ha hl
  intro a ha
  by_contra hl
  rw [Bool.not_eq_false] at hl
  have hlen : l.args.length = 1 := by simpa using halone h a ha hl
  obtain ⟨c, hc⟩ := List.length_eq_one_iff.1 hlen
  obtain rfl : c = some (.atom a) := by simpa [hc, eq_comm] using ha
  cases a with
  | ref n =>
    have hk : kindOf? bound n = some .arguments := by simpa [isListRef] using hl
    obtain ⟨as, has⟩ := hb.hasList hk
    simp [lineList?, hc, has] at hlist
  | _ => simp [isListRef] at hl

theorem expandLine_run {l : TemplateLine} (hb : b.Fits bound) (hs : Ready t bound fresh s)
    (hl : LineOk bound t fresh l) (hn : ∀ a ∈ l.atoms, ∀ n ∈ a.names, t.isIssued n = true) :
    ∃ is, expandLine b (l.mnemonicIn t) l s =
        (.ok is, s.issueAll (l.atoms.flatMap Atom.freshNames)) ∧
      ∀ regs, Continues b (s.issueAll (l.atoms.flatMap Atom.freshNames)) regs →
        instanceLine t b regs l = is := by
  cases hlist : lineList? b l with
  | some as =>
    -- the only operand is a reference, so there is nothing to issue
    have hatoms : l.atoms.flatMap Atom.freshNames = [] := by
      obtain ⟨n, hargs, -⟩ := lineList?_eq_some hlist
      simp [TemplateLine.atoms, hargs, operandAtoms, Atom.freshNames]
    rw [hatoms]
    refine ⟨as.reverse.map fun a => { mnemonic := l.mnemonicIn t, args := [some a] }, ?_,
      fun regs _ => ?_⟩
    · rw [expandLine, hlist]; rfl
    · rw [instanceLine, hlist]
  | none =>
    obtain ⟨xs, hrun, hinst⟩ := expandOperands_run (m := l.mnemonicIn t) (j := 0) hb hs hl.operands
      (hl.operands.not_isListRef hb hlist) hn
    refine ⟨[{ mnemonic := l.mnemonicIn t, args := xs }], ?_, fun regs hregs => ?_⟩
    · rw [expandLine, hlist]
      exact Run.bind_ok hrun
    · rw [instanceLine, hlist, hinst regs hregs]

theorem expandLines_run {ls : List TemplateLine} (hb : b.Fits bound) (hs : Ready t bound fresh s)
    (hls : LinesOk bound t fresh ls)
    (hn : ∀ a ∈ ls.flatMap TemplateLine.atoms, ∀ n ∈ a.names, t.isIssued n = true) :
    ∃ is, expandLines b (ls.map fun l => (l.mnemonicIn t, l)) s =
        (.ok is, s.issueAll ((ls.flatMap TemplateLine.atoms).flatMap Atom.freshNames)) ∧
      ∀ regs, Continues b
          (s.issueAll ((ls.flatMap TemplateLine.atoms).flatMap Atom.freshNames)) regs →
        ls.flatMap (instanceLine t b regs) = is := by
  induction ls generalizing fresh s with
  | nil => exact ⟨[], rfl, fun _ _ => rfl⟩
  | cons l ls ih =>
    simp only [List.flatMap_cons, List.mem_append] at hn
    simp only [List.flatMap_cons, List.flatMap_append, Expansion.issueAll_append]
    obtain ⟨is, his, hinst⟩ := expandLine_run hb hs hls.1 fun a ha => hn a (.inl ha)
    have hs' := hs.issueAll (hls.1.addFresh_unbound hs.apart)
    obtain ⟨js, hjs, hjsInst⟩ := ih hs' hls.2 fun a ha => hn a (.inr ha)
    refine ⟨is ++ js, ?_, fun regs hregs => ?_⟩
    · rw [List.map_cons, expandLines, Run.bind_ok his, Run.bind_ok hjs]; rfl
    · rw [hinst regs hregs.of_issueAll, hjsInst regs hregs]

theorem lineMnemonics_ok {t' : NameTable} {ls : List TemplateLine} (ht : t ≤ t')
    (hls : LinesOk bound t fresh ls) (hn : ∀ l ∈ ls, t.isIssued l.mnemonic = true) :
    lineMnemonics t' ls = .ok (ls.map fun l => (l.mnemonicIn t, l)) := by
  induction ls generalizing fresh with
  | nil => rfl
  | cons l ls ih =>
    obtain ⟨m, hm⟩ := hls.1.mnemonic
    have htext : t'.text? l.mnemonic = some (t.text l.mnemonic) :=
      NameTable.text?_mono ht (NameTable.text?_eq_some_text (hn l List.mem_cons_self))
    have hl : lineMnemonic t' l = .ok (l.mnemonicIn t, l) := by
      simp [lineMnemonic, htext, hm, TemplateLine.mnemonicIn]
    have hrest := ih hls.2 fun k hk => hn k (List.mem_cons_of_mem _ hk)
    rw [lineMnemonics, List.mapM_cons, hl, ← lineMnemonics, hrest]
    rfl

namespace Rule

variable {r : Rule} {g : Naming}

/-- The state after the new registers of a rule are issued. -/
def issued (r : Rule) (g : Naming) : Expansion := Expansion.issueAll ⟨g, []⟩ r.freshNames

theorem Accepted.issued_apart (hr : r.Accepted t bound) (hb : b.Fits bound) {n m : Name}
    (h : (r.issued g).issued.lookup n = some m) : b.value? n = none := by
  have hn : n ∈ addFresh [] (r.template.flatMap TemplateLine.atoms) := by
    have := Expansion.isSome_lookup_issueAll.1 (Option.isSome_of_mem h)
    simpa [mem_addFresh, freshNames, atoms] using this
  have hk := hr.lines.addFresh_unbound (by simp) n hn
  cases hv : b.value? n with
  | none => rfl
  | some a =>
    obtain ⟨k, -, hk'⟩ := hb.value hv
    rw [hk] at hk'
    cases hk'

/-- **Expansion is substitution.** The expansion of an accepted rule over the bindings of a match
succeeds with the instance of its template, and has issued exactly its new registers. -/
theorem expand_spec (hr : r.Accepted t bound) (hn : ∀ n ∈ r.names, t.isIssued n = true)
    (hb : b.Fits bound) (ht : t ≤ g.table) :
    r.expand b g = (.ok (r.instanceOf t b (r.issued g).issued), (r.issued g).naming) := by
  have hready : Ready t bound [] ⟨g, []⟩ := ⟨ht, by simp, by simp⟩
  have hatoms : ∀ a ∈ r.template.flatMap TemplateLine.atoms, ∀ n ∈ a.names,
      t.isIssued n = true := by
    intro a ha n hna
    exact hn n (List.mem_append_right _ (List.mem_flatMap.2 ⟨a, ha, hna⟩))
  have hmnem : lineMnemonics g.table r.template = _ :=
    lineMnemonics_ok ht hr.lines fun l hl =>
      hn _ (List.mem_append_left _ (List.mem_append_right _ (List.mem_map_of_mem hl)))
  obtain ⟨is, hrun, hinst⟩ := expandLines_run hb hready hr.lines hatoms
  have hregs : Continues b (r.issued g) (r.issued g).issued := ⟨id, hr.issued_apart hb⟩
  rw [expand, hmnem]
  dsimp only
  rw [hrun, instanceOf, hinst _ hregs]
  rfl

end Rule

end CodeTiling
