import CodeTiling.Proofs.Selected

/-!
# Checked rules select sound code

An instruction is sound (`Instruction.IsSound`) when its mnemonic is one of the list, no operand is
missing, every register in it exists, and a memory operand has an index exactly when it has a
scale.

* `Rule.Accepted.isSound_instanceOf` : the instance of an accepted rule is sound;
* `selectFresh_sound` : a selection with checked rules either gives sound code or fails because no
  rule matches.
-/

namespace CodeTiling

open Code (Operand Register Instruction Indirect)

/-! ### Sound code -/

namespace Code

/-- The register exists: it is not absent, and a machine register has a valid number. -/
def Register.Exists : Register → Prop
  | .none => False
  | .machine r => r.isValid = true
  | .virtual _ => True

/-- The registers of a memory operand exist as far as there are any, and there is an index exactly
when there is a scale. -/
structure Indirect.IsSound (m : Indirect) : Prop where
  /-- The base is absent or exists. -/
  base : m.base ≠ .none → m.base.Exists
  /-- The index is absent or exists. -/
  index : m.index ≠ .none → m.index.Exists
  /-- An index goes with a scale. -/
  scaled : m.index ≠ .none ↔ m.scale ≠ 0

/-- The registers of an operand exist, and a memory operand is sound. -/
def Operand.IsSound : Operand → Prop
  | .reg r => r.Exists
  | .indirect m => m.IsSound
  | _ => True

/-- The mnemonic is valid, and every operand is there and sound. -/
structure Instruction.IsSound (i : Instruction) : Prop where
  /-- The mnemonic is one of the list. -/
  mnemonic : i.mnemonic.isValid = true
  /-- No operand is missing, and each is sound. -/
  operands : ∀ a ∈ i.args, ∃ x, a = some x ∧ x.IsSound

theorem Register.Exists.ne_none {r : Register} (h : r.Exists) : r ≠ .none := by
  rintro rfl
  exact h

end Code

theorem Mnemonic.isValid_of_ofText? {s : Text} {m : Mnemonic} (h : Mnemonic.ofText? s = some m) :
    m.isValid = true := by
  unfold ofText? at h
  split at h
  · cases h
  · cases h
  · rename_i i hi0 hi
    obtain ⟨hlt, -⟩ := List.findIdx?_eq_some_iff_getElem.1 hi
    cases h
    have hlen : texts.length = 44 := rfl
    have hmod : (UInt8.ofNat i).toNat = i := by
      rw [UInt8.toNat_ofNat']
      exact Nat.mod_eq_of_lt (by omega)
    simp only [isValid, hmod, Bool.and_eq_true, decide_eq_true_eq]
    exact ⟨Nat.pos_of_ne_zero hi0, hlt⟩

/-- What a match can meet is sound. -/
theorem isSound_of_operandKind? {x : Operand} (h : (operandKind? x).isSome = true) :
    x.IsSound := by
  cases x with
  | reg r => cases r <;> simp_all [operandKind?, Operand.IsSound, Register.Exists]
  | indirect m => simp [operandKind?] at h
  | _ => trivial

/-! ### Instances of accepted rules -/

section

variable {t : NameTable} {b : Bindings} {bound : List Binding} {fresh : List Name}
  {regs : List (Name × Name)}

/-- The registers are there for some new-register names. -/
def HasRegisters (regs : List (Name × Name)) (ns : List Name) : Prop :=
  ∀ n ∈ ns, ∃ r, regs.lookup n = some r

theorem hasRegisters_append {ns ms : List Name} :
    HasRegisters regs (ns ++ ms) ↔ HasRegisters regs ns ∧ HasRegisters regs ms := by
  simp [HasRegisters, or_imp, forall_and]

/-- The new registers further left are no names of the pattern and are there. -/
structure Supplied (bound : List Binding) (regs : List (Name × Name)) (fresh : List Name) :
    Prop where
  /-- They are no names of the pattern. -/
  apart : ∀ n ∈ fresh, kindOf? bound n = none
  /-- They are there. -/
  registers : HasRegisters regs fresh

theorem Supplied.addFresh {as : List Atom} (h : Supplied bound regs fresh)
    (happart : ∀ n ∈ addFresh fresh as, kindOf? bound n = none)
    (has : HasRegisters regs (as.flatMap Atom.freshNames)) :
    Supplied bound regs (addFresh fresh as) := by
  refine ⟨happart, fun n hn => ?_⟩
  rcases mem_addFresh.1 hn with hn | hn
  · exact h.registers n hn
  · exact has n hn

variable (hb : b.Fits bound)
include hb

theorem instanceAtom_isSound {a : Atom} {isReg : Bool} (ha : AtomOk bound fresh a isReg)
    (hl : isListRef bound a = false) (hs : Supplied bound regs fresh)
    (hnew : HasRegisters regs a.freshNames) :
    ∃ x, instanceAtom t b regs a = some x ∧ x.IsSound ∧ (isReg = true → ∃ r, x = .reg r) := by
  cases ha with
  | machine hv => exact ⟨_, rfl, hv, fun _ => ⟨_, rfl⟩⟩
  | @fresh n _ =>
    obtain ⟨r, hr⟩ := hnew n (by simp [Atom.freshNames])
    exact ⟨.reg (.virtual r), by simp [instanceAtom, hr], trivial, fun _ => ⟨_, rfl⟩⟩
  | @refFresh n hn =>
    obtain ⟨r, hr⟩ := hs.registers n hn
    exact ⟨.reg (.virtual r), by simp [instanceAtom, hr], trivial, fun _ => ⟨_, rfl⟩⟩
  | @refBound n k _ _ hk _ hreg =>
    cases hr : regs.lookup n with
    | some r => exact ⟨.reg (.virtual r), by simp [instanceAtom, hr], trivial, fun _ => ⟨_, rfl⟩⟩
    | none =>
      have hna : k ≠ .arguments := by
        rintro rfl
        simp [isListRef, hk] at hl
      obtain ⟨x, hx⟩ := hb.hasValue hk hna
      obtain ⟨k', hkind, hk'⟩ := hb.value hx
      refine ⟨x, by simp [instanceAtom, hr, hx],
        isSound_of_operandKind? (Option.isSome_of_mem hkind), fun hisReg => ?_⟩
      obtain rfl : k = k' := Option.some.inj (hk.symm.trans hk')
      rw [hreg.1 hisReg] at hkind
      cases x <;> simp_all [operandKind?]
  | @literal n =>
    refine ⟨_, rfl, ?_, by simp⟩
    unfold literalOperand
    split <;> trivial
  | @label n hk =>
    obtain ⟨x, hx⟩ := hb.hasValue hk (by simp)
    obtain ⟨k', hkind, -⟩ := hb.value hx
    exact ⟨x, hx, isSound_of_operandKind? (Option.isSome_of_mem hkind), by simp⟩

/-- A part of a memory operand becomes a register that exists, or none if there is no part. -/
theorem instanceTerm_isSound {o : Option AddressTerm} (ho : TermOk bound fresh o)
    (hs : Supplied bound regs fresh)
    (hnew : HasRegisters regs ((termAtoms o).flatMap Atom.freshNames)) :
    ∃ r, instanceTerm t b regs o = some r ∧ (r ≠ .none → r.Exists) ∧
      (r ≠ .none ↔ o.isSome = true) := by
  rcases o with - | a | -
  · exact ⟨.none, rfl, fun h => (h rfl).elim, by simp⟩
  · obtain ⟨x, hx, hsound, hreg⟩ := instanceAtom_isSound (t := t) hb ho (ho.not_isListRef hs.apart)
      hs (by simpa [termAtoms] using hnew)
    obtain ⟨r, rfl⟩ := hreg rfl
    have hr : r.Exists := hsound
    exact ⟨r, by simp [instanceTerm, hx], fun _ => hr, by simp [hr.ne_none]⟩
  · exact ho.elim

theorem instanceOperand_isSound {alone : Bool} {o : Option TemplateOperand}
    (ho : OperandOk bound alone fresh o)
    (hl : ∀ a, o = some (.atom a) → isListRef bound a = false)
    (hs : Supplied bound regs fresh)
    (hnew : HasRegisters regs ((operandAtoms o).flatMap Atom.freshNames)) :
    ∃ x, instanceOperand t b regs o = some x ∧ x.IsSound := by
  rcases o with - | a | m
  · exact ho.elim
  · obtain ⟨⟨isReg, ha⟩, -⟩ := ho
    obtain ⟨x, hx, hsound, -⟩ := instanceAtom_isSound (t := t) hb ha (hl a rfl) hs
      (by simpa [operandAtoms] using hnew)
    exact ⟨x, hx, hsound⟩
  · obtain ⟨hscaled, hbase, hindex⟩ : AddressOk bound fresh m := ho
    simp only [operandAtoms, List.flatMap_append, hasRegisters_append] at hnew
    obtain ⟨base, hrun, hbase', -⟩ := instanceTerm_isSound (t := t) hb hbase hs hnew.1
    obtain ⟨index, hrun', hindex', hsome⟩ := instanceTerm_isSound (t := t) hb hindex
      (hs.addFresh (hbase.addFresh_unbound hs.apart) hnew.1) hnew.2
    refine ⟨.indirect { size := m.size, base, index, scale := m.scale, disp := m.disp },
      by simp [instanceOperand, hrun, hrun'], hbase', hindex', ?_⟩
    rw [hsome, hscaled]

theorem instanceOperands_isSound {alone : Bool} {as : List (Option TemplateOperand)}
    (has : OperandsOk bound alone fresh as)
    (hl : ∀ a, some (.atom a) ∈ as → isListRef bound a = false)
    (hs : Supplied bound regs fresh)
    (hnew : HasRegisters regs ((as.flatMap operandAtoms).flatMap Atom.freshNames)) :
    ∀ o ∈ as.map (instanceOperand t b regs), ∃ x, o = some x ∧ x.IsSound := by
  induction as generalizing fresh with
  | nil => simp
  | cons a as ih =>
    simp only [List.flatMap_cons, List.flatMap_append, hasRegisters_append] at hnew
    obtain ⟨ha, has⟩ := has
    obtain ⟨x, hx, hsound⟩ := instanceOperand_isSound (t := t) hb ha
      (fun c hc => hl c (by simp [hc])) hs hnew.1
    have hrest := ih has (fun c hc => hl c (List.mem_cons_of_mem _ hc))
      (hs.addFresh (ha.addFresh_unbound hs.apart) hnew.1) hnew.2
    rw [List.map_cons]
    exact List.forall_mem_cons.2 ⟨⟨x, hx, hsound⟩, hrest⟩

theorem instanceLine_isSound {l : TemplateLine} (hl : LineOk bound t fresh l)
    (hs : Supplied bound regs fresh)
    (hnew : HasRegisters regs (l.atoms.flatMap Atom.freshNames)) :
    ∀ i ∈ instanceLine t b regs l, i.IsSound := by
  have hmnemonic : (l.mnemonicIn t).isValid = true := by
    obtain ⟨m, hm⟩ := hl.mnemonic
    rw [TemplateLine.mnemonicIn, hm]
    exact Mnemonic.isValid_of_ofText? hm
  unfold instanceLine
  cases hlist : lineList? b l with
  | some as =>
    -- each argument of a call is something that a match has met
    obtain ⟨n, -, hn⟩ := lineList?_eq_some hlist
    intro i hi
    obtain ⟨a, ha, rfl⟩ := List.mem_map.1 hi
    refine ⟨hmnemonic, fun o ho => ⟨a, List.mem_singleton.1 ho, ?_⟩⟩
    exact isSound_of_operandKind? ((hb.list hn).2 a (List.mem_reverse.1 ha))
  | none =>
    intro i hi
    rw [List.mem_singleton.1 hi]
    exact ⟨hmnemonic, instanceOperands_isSound hb hl.operands
      (hl.operands.not_isListRef hb hlist) hs hnew⟩

theorem instanceLines_isSound {ls : List TemplateLine} (hls : LinesOk bound t fresh ls)
    (hs : Supplied bound regs fresh)
    (hnew : HasRegisters regs ((ls.flatMap TemplateLine.atoms).flatMap Atom.freshNames)) :
    ∀ i ∈ ls.flatMap (instanceLine t b regs), i.IsSound := by
  induction ls generalizing fresh with
  | nil => simp
  | cons l ls ih =>
    simp only [List.flatMap_cons, List.flatMap_append, hasRegisters_append] at hnew
    obtain ⟨hl, hls⟩ := hls
    have hline := instanceLine_isSound hb hl hs hnew.1
    have hrest := ih hls (hs.addFresh (hl.addFresh_unbound hs.apart) hnew.1) hnew.2
    intro i hi
    rw [List.flatMap_cons, List.mem_append] at hi
    exact hi.elim (hline i) (hrest i)

/-- The instance of an accepted rule over the bindings of a match is sound. -/
theorem Rule.Accepted.isSound_instanceOf {r : Rule} (hr : r.Accepted t bound)
    (hregs : HasRegisters regs r.freshNames) : ∀ i ∈ r.instanceOf t b regs, i.IsSound :=
  instanceLines_isSound hb hr.lines ⟨by simp, by simp [HasRegisters]⟩ hregs

end

/-! ### Selected code -/

theorem Rule.hasRegisters_issued (r : Rule) (g : Naming) :
    HasRegisters (r.issued g).issued r.freshNames := by
  intro n hn
  exact Option.isSome_iff_exists.1 (Expansion.isSome_lookup_issueAll.2 (.inr hn))

section

variable {e : Engine} {t : NameTable} {g : Naming}

theorem isSound_placeAll (he : e.BuiltOn t) {b : Ir.Block} {tiles : List Tile} {pos stop : Nat}
    (h : Greedy e.rules b pos tiles stop) :
    ∀ p ∈ placeAll g tiles, ∀ i ∈ p.code t, i.IsSound := by
  induction tiles generalizing pos g with
  | nil => simp [placeAll]
  | cons tile tiles ih =>
    obtain ⟨-, hm, hrest⟩ := h
    obtain ⟨bound, hr⟩ := he.accepted tile.rule hm.mem
    exact List.forall_mem_cons.2
      ⟨hr.isSound_instanceOf (hr.fits hm.matchAt) (tile.rule.hasRegisters_issued g), ih hrest⟩

/-- The code of tilings is sound. -/
theorem isSound_placeBlocks (he : e.BuiltOn t) {bs : List Ir.Block} {tss : List (List Tile)}
    (h : List.Forall₂ (IsTiling e.rules) bs tss) :
    ∀ ps ∈ placeBlocks g tss, ∀ i ∈ ps.flatMap (Placed.code t), i.IsSound := by
  induction h generalizing g with
  | nil => simp [placeBlocks]
  | cons htiles _ ih =>
    refine List.forall_mem_cons.2 ⟨fun i hi => ?_, ih⟩
    obtain ⟨p, hp, hi⟩ := List.mem_flatMap.1 hi
    exact isSound_placeAll he htiles.code p hp i hi

/-- What is selected for blocks is sound. -/
theorem isSound_selectBlocks (he : e.BuiltOn t) (ht : t ≤ g.table) {func : Name} {entry : Bool}
    {bs : List Ir.Block} {cs : List Code.Block} {g' : Naming}
    (h : e.selectBlocks func entry bs g = (.ok cs, g')) :
    ∀ c ∈ cs, ∀ i ∈ c.instructions, i.IsSound := by
  obtain ⟨tss, htss, hcode⟩ := selectBlocks_ok he ht h
  intro c hc i hi
  have hmem : c.instructions ∈ cs.map Code.Block.instructions := List.mem_map_of_mem hc
  rw [hcode] at hmem
  obtain ⟨ps, hps, heq⟩ := List.mem_map.1 hmem
  exact isSound_placeBlocks he htss ps hps i (heq ▸ hi)

/-- The cause is that no rule matches, at an instruction or at a terminator. -/
def Cause.IsNoRule (c : Cause) : Prop :=
  (∃ pos op, c = .noRuleAt pos op) ∨ ∃ type, c = .noRuleForTerminator type

theorem NoRuleError.isNoRule {b : Ir.Block} {stop : Nat} {err : Error}
    (h : NoRuleError b stop err) : err.cause.IsNoRule := by
  cases h with
  | code => exact .inl ⟨_, _, rfl⟩
  | term => exact .inr ⟨_, rfl⟩

/-- **Checked rules never fail in selection.** With an engine of checked rules, a function of
complete code is either selected, and then all its code is sound, or no rule matches somewhere. In
particular nothing that a template or a table takes for granted can be missing. -/
theorem selectFresh_sound {t' : NameTable} {f : Ir.Func} (he : e.BuiltOn t) (ht : t ≤ t')
    (hf : f.IsComplete) (hname : t'.isIssued f.name = true)
    (hlabels : ∀ b ∈ f.blocks, t'.isIssued b.label = true) :
    (∃ cs, (e.selectFresh t' f).1 = .ok cs ∧ ∀ c ∈ cs, ∀ i ∈ c.instructions, i.IsSound) ∨
      ∃ err, (e.selectFresh t' f).1 = .error err ∧ err.cause.IsNoRule := by
  have hselect : (e.selectFresh t' f).1 =
      (e.selectBlocks f.name true f.blocks (.ofTable t')).1 := by
    rw [← selectFunc_run hname]
    rfl
  rw [hselect]
  rcases hrun : e.selectBlocks f.name true f.blocks (.ofTable t') with ⟨err | cs, g'⟩
  · obtain ⟨b, -, stop, err', hno, hcause⟩ := selectBlocks_error he ht hf hname hlabels hrun
    exact .inr ⟨err, rfl, hcause ▸ hno.isNoRule⟩
  · exact .inl ⟨cs, rfl, isSound_selectBlocks he ht hrun⟩

theorem selectFresh_sound_sample :
    ∃ cs, (Sample.engine.selectFresh Sample.table Sample.func).1 = .ok cs ∧
      ∀ c ∈ cs, ∀ i ∈ c.instructions, i.IsSound := by
  have hf : Sample.func.IsComplete := by
    intro b hb
    rw [List.mem_singleton.1 hb]
    exact Sample.codeComplete
  rcases selectFresh_sound Sample.builtOn (NameTable.le_refl _) hf (by decide) (by decide) with
    h | ⟨err, herr, -⟩
  · exact h
  · cases herr

end

end CodeTiling
