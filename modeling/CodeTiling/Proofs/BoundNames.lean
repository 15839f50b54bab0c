import CodeTiling.Proofs.WellFormed
import Mathlib.Data.Set.Function

/-!
# Renaming the names of a pattern

A rule may call the things that its pattern meets by any names. `Rule.renameBound` gives the names
of the pattern other names, there and in the references and labels of the template that mean them.
New registers, literals and mnemonics keep their names, also where one of them is a name of the
pattern.

The check accepts the renamed rule, if different names stay different and none of them becomes the
name of a new register. References look for new registers first, so such a name would be captured.

* `Pattern.WellFormed.rename` : the renamed pattern is well-formed;
* `LinesOk.rename` : the renamed lines are in order;
* `Rule.check_renameBound` : the renamed rule passes the check.
-/

namespace CodeTiling

/-! ### Renaming -/

section

variable (σ : Name → Name)

/-- Rename the name of an operand. -/
def OperandPattern.rename : OperandPattern → OperandPattern
  | .reg n => .reg (σ n)
  | .lit n => .lit (σ n)

/-- Rename the names of an instruction pattern. -/
def InstrPattern.rename : InstrPattern → InstrPattern
  | .binary op dst l r => .binary op (σ dst) (l.rename σ) (r.rename σ)
  | .unary op dst x => .unary op (σ dst) (x.rename σ)
  | .alloca dst => .alloca (σ dst)
  | .load dst a => .load (σ dst) (a.rename σ)
  | .store a v => .store (a.rename σ) (v.rename σ)
  | .call dst func list => .call (σ dst) (σ func) (σ list)

/-- Rename the names of a terminator pattern. -/
def TermPattern.rename : TermPattern → TermPattern
  | .ret v => .ret (v.map (OperandPattern.rename σ))
  | .br cond t e => .br (cond.rename σ) (σ t) (σ e)
  | .jmp t => .jmp (σ t)

/-- Rename the names of a pattern. -/
def Pattern.rename (p : Pattern) : Pattern where
  code := p.code.map (Option.map (InstrPattern.rename σ))
  last := p.last.map (TermPattern.rename σ)

/-- Rename what an operand without parts refers to. New registers and literals stay. -/
def Atom.renameRefs : Atom → Atom
  | .ref n => .ref (σ n)
  | .label n => .label (σ n)
  | a => a

/-- Rename what a base or an index refers to. -/
def AddressTerm.renameRefs : AddressTerm → AddressTerm
  | .atom a => .atom (a.renameRefs σ)
  | .nested => .nested

/-- Rename what a memory operand refers to. -/
def AddressTemplate.renameRefs (m : AddressTemplate) : AddressTemplate :=
  { m with
    base := m.base.map (AddressTerm.renameRefs σ)
    index := m.index.map (AddressTerm.renameRefs σ) }

/-- Rename what an operand refers to. -/
def TemplateOperand.renameRefs : TemplateOperand → TemplateOperand
  | .atom a => .atom (a.renameRefs σ)
  | .indirect m => .indirect (m.renameRefs σ)

/-- Rename what a line refers to. The mnemonic stays. -/
def TemplateLine.renameRefs (l : TemplateLine) : TemplateLine :=
  { l with args := l.args.map (Option.map (TemplateOperand.renameRefs σ)) }

/-- Rename the names of a pattern and what the template refers to. -/
def Rule.rename (r : Rule) : Rule where
  name := r.name
  pattern := r.pattern.rename σ
  template := r.template.map (TemplateLine.renameRefs σ)

/-- Rename the name of a binding. -/
def Binding.rename (b : Binding) : Binding := ⟨σ b.name, b.kind⟩

end

/-- The names of a pattern, with repetitions. -/
def Pattern.names (p : Pattern) : List Name := p.elements.flatten.map (·.name)

/-- Rename the names of a pattern and leave all others. -/
def Pattern.renaming (p : Pattern) (ρ : Name → Name) (n : Name) : Name :=
  if n ∈ p.names then ρ n else n

/-- Rename the names of the pattern of a rule, in the pattern and where the template refers to
them. -/
def Rule.renameBound (r : Rule) (ρ : Name → Name) : Rule := r.rename (r.pattern.renaming ρ)

/-! ### The pattern -/

namespace Pattern

variable {p : Pattern} {σ : Name → Name}

theorem mem_names {n : Name} : n ∈ p.names ↔ ∃ k, p.Binds n k := by
  rw [names, List.mem_map]
  constructor
  · rintro ⟨⟨_, k⟩, hb, rfl⟩
    exact ⟨k, hb⟩
  · rintro ⟨k, hb⟩
    exact ⟨⟨n, k⟩, hb, rfl⟩

theorem elements_rename : (p.rename σ).elements = p.elements.map (List.map (Binding.rename σ)) := by
  have hoperand : ∀ q : OperandPattern, (q.rename σ).binding = q.binding.rename σ := by
    intro q
    cases q <;> rfl
  have hinstr : ∀ q : InstrPattern, (q.rename σ).bindings = q.bindings.map (Binding.rename σ) := by
    intro q
    cases q <;> simp [InstrPattern.rename, InstrPattern.bindings, hoperand, Binding.rename]
  have hterm : ∀ q : TermPattern, (q.rename σ).bindings = q.bindings.map (Binding.rename σ) := by
    intro q
    rcases q with (- | v) | ⟨c, t, e⟩ | t <;>
      simp [TermPattern.rename, TermPattern.bindings, hoperand, Binding.rename]
  rw [elements, elements, rename, List.map_append, List.map_map, List.map_map]
  congr 1
  · refine List.map_congr_left fun o _ => ?_
    cases o with
    | none => rfl
    | some q => exact hinstr q
  · cases p.last with
    | none => rfl
    | some q => exact congrArg (fun e => [e]) (hterm q)

theorem binds_rename {m : Name} {k : BindKind} :
    (p.rename σ).Binds m k ↔ ∃ n, p.Binds n k ∧ σ n = m := by
  rw [Binds, elements_rename, ← List.map_flatten, List.mem_map]
  constructor
  · rintro ⟨⟨n, k'⟩, hb, heq⟩
    obtain ⟨rfl, rfl⟩ := Binding.mk.inj heq
    exact ⟨n, hb, rfl⟩
  · rintro ⟨n, hb, rfl⟩
    exact ⟨⟨n, k⟩, hb, rfl⟩

/-- A renaming that keeps the names of a pattern apart keeps the pattern well-formed. -/
theorem WellFormed.rename (hp : p.WellFormed) (hσ : Set.InjOn σ {n | n ∈ p.names}) :
    (p.rename σ).WellFormed := by
  refine ⟨?_, fun x hx => ?_, fun e he => ?_, fun m k k' hk hk' => ?_⟩
  · rcases hp.nonempty with hcode | hlast
    · exact .inl (by simpa [Pattern.rename] using hcode)
    · exact .inr (by simpa [Pattern.rename] using hlast)
  · obtain ⟨y, hy, rfl⟩ := List.mem_map.1 hx
    obtain ⟨q, rfl, hq⟩ := hp.fits y hy
    exact ⟨q.rename σ, rfl, by cases q <;> exact hq⟩
  · rw [elements_rename] at he
    obtain ⟨bs, hbs, rfl⟩ := List.mem_map.1 he
    -- the names of the element are the renamed ones, and they were all different
    have hnames : (bs.map (Binding.rename σ)).map Binding.name = (bs.map Binding.name).map σ := by
      simp [Binding.rename, Function.comp_def]
    rw [hnames]
    have hsub : bs.map Binding.name ⊆ p.names :=
      List.map_subset _ fun _ hb => List.mem_flatten.2 ⟨bs, hbs, hb⟩
    exact (hp.distinct bs hbs).map_on fun n hn m hm heq => hσ (hsub hn) (hsub hm) heq
  · obtain ⟨n, hn, rfl⟩ := binds_rename.1 hk
    obtain ⟨n', hn', heq⟩ := binds_rename.1 hk'
    obtain rfl : n' = n := hσ (mem_names.2 ⟨k', hn'⟩) (mem_names.2 ⟨k, hn⟩) heq
    exact hp.consistent n' k k' hn hn'

end Pattern

/-! ### The template in order -/

theorem Atom.freshNames_renameRefs (σ : Name → Name) (a : Atom) :
    (a.renameRefs σ).freshNames = a.freshNames := by
  cases a <;> rfl

theorem addFresh_map_renameRefs (σ : Name → Name) (fresh : List Name) (as : List Atom) :
    addFresh fresh (as.map (Atom.renameRefs σ)) = addFresh fresh as := by
  simp only [addFresh, List.foldl_map, Atom.freshNames_renameRefs]

theorem termAtoms_renameRefs (σ : Name → Name) (o : Option AddressTerm) :
    termAtoms (o.map (AddressTerm.renameRefs σ)) = (termAtoms o).map (Atom.renameRefs σ) := by
  rcases o with - | a | - <;> rfl

theorem operandAtoms_renameRefs (σ : Name → Name) (o : Option TemplateOperand) :
    operandAtoms (o.map (TemplateOperand.renameRefs σ)) =
      (operandAtoms o).map (Atom.renameRefs σ) := by
  rcases o with - | a | m
  · rfl
  · rfl
  · simp only [Option.map_some, TemplateOperand.renameRefs, AddressTemplate.renameRefs,
      operandAtoms, termAtoms_renameRefs, List.map_append]

theorem TemplateLine.atoms_renameRefs (σ : Name → Name) (l : TemplateLine) :
    (l.renameRefs σ).atoms = l.atoms.map (Atom.renameRefs σ) := by
  simp only [atoms, renameRefs, List.flatMap_map, List.map_flatMap, operandAtoms_renameRefs]

theorem Rule.atoms_rename (σ : Name → Name) (r : Rule) :
    (r.rename σ).atoms = r.atoms.map (Atom.renameRefs σ) := by
  simp only [atoms, rename, List.flatMap_map, List.map_flatMap, TemplateLine.atoms_renameRefs]

theorem Rule.freshNames_rename (σ : Name → Name) (r : Rule) :
    (r.rename σ).freshNames = r.freshNames := by
  simp only [freshNames, atoms_rename, List.flatMap_map, Atom.freshNames_renameRefs]

/-- A renaming carries the kinds of names over and leaves the new registers `news` alone. -/
structure Carries (σ : Name → Name) (bound bound' : List Binding) (news : List Name) : Prop where
  /-- A name with a kind becomes a name with that kind. -/
  kind : ∀ {n k}, kindOf? bound n = some k → kindOf? bound' (σ n) = some k
  /-- New registers have no kind after it. -/
  apart : ∀ n ∈ news, kindOf? bound' n = none
  /-- They keep their names. -/
  stays : ∀ n ∈ news, σ n = n

section

variable {σ : Name → Name} {bound bound' : List Binding} {news fresh : List Name}
  {t : NameTable} (hσ : Carries σ bound bound' news)
include hσ

theorem AtomOk.rename {a : Atom} {isReg : Bool} (ha : AtomOk bound fresh a isReg)
    (hfresh : fresh ⊆ news) (hnews : a.freshNames ⊆ news) :
    AtomOk bound' fresh (a.renameRefs σ) isReg := by
  cases ha with
  | machine hv => exact .machine hv
  | @fresh n hu => exact .fresh (hσ.apart n (hnews (List.mem_singleton_self n)))
  | @refFresh n hn =>
    rw [Atom.renameRefs, hσ.stays n (hfresh hn)]
    exact .refFresh hn
  | @refBound n k isReg hother hk hlabel hreg =>
    -- the new name has a kind too, so it is no new register
    refine .refBound (fun hn => ?_) (hσ.kind hk) hlabel hreg
    have hnone := hσ.apart _ (hfresh hn)
    rw [hσ.kind hk] at hnone
    cases hnone
  | literal => exact .literal
  | label hk => exact .label (hσ.kind hk)

/-- An operand in order refers to an argument list after the renaming only if it did before. -/
theorem isListRef_of_rename {a : Atom} {isReg : Bool} (ha : AtomOk bound fresh a isReg)
    (hfresh : fresh ⊆ news) (h : isListRef bound' (a.renameRefs σ) = true) :
    isListRef bound a = true := by
  cases ha with
  | @refFresh n hn =>
    have hnone := hσ.apart n (hfresh hn)
    simp [Atom.renameRefs, isListRef, hσ.stays n (hfresh hn), hnone] at h
  | @refBound n k isReg hother hk hlabel hreg =>
    simpa [Atom.renameRefs, isListRef, hσ.kind hk, hk] using h
  | _ => cases h

theorem TermOk.rename {o : Option AddressTerm} (ho : TermOk bound fresh o) (hfresh : fresh ⊆ news)
    (hnews : (termAtoms o).flatMap Atom.freshNames ⊆ news) :
    TermOk bound' fresh (o.map (AddressTerm.renameRefs σ)) := by
  rcases o with - | a | -
  · trivial
  · exact AtomOk.rename hσ ho hfresh (by simpa [termAtoms] using hnews)
  · exact ho.elim

omit hσ in
/-- New registers that are met are among those of the rule. -/
theorem addFresh_subset {as : List Atom} (hfresh : fresh ⊆ news)
    (hnews : as.flatMap Atom.freshNames ⊆ news) : addFresh fresh as ⊆ news := by
  intro n hn
  rcases mem_addFresh.1 hn with hn | hn
  · exact hfresh hn
  · exact hnews hn

theorem AddressOk.rename {m : AddressTemplate} (hm : AddressOk bound fresh m)
    (hfresh : fresh ⊆ news)
    (hnews : (termAtoms m.base ++ termAtoms m.index).flatMap Atom.freshNames ⊆ news) :
    AddressOk bound' fresh (m.renameRefs σ) := by
  rw [List.flatMap_append, List.append_subset] at hnews
  refine ⟨?_, hm.base.rename hσ hfresh hnews.1, ?_⟩
  · rw [AddressTemplate.renameRefs, Option.isSome_map]
    exact hm.scaled
  · rw [AddressTemplate.renameRefs, termAtoms_renameRefs, addFresh_map_renameRefs]
    exact hm.index.rename hσ (addFresh_subset hfresh hnews.1) hnews.2

theorem OperandOk.rename {alone : Bool} {o : Option TemplateOperand}
    (ho : OperandOk bound alone fresh o) (hfresh : fresh ⊆ news)
    (hnews : (operandAtoms o).flatMap Atom.freshNames ⊆ news) :
    OperandOk bound' alone fresh (o.map (TemplateOperand.renameRefs σ)) := by
  rcases o with - | a | m
  · exact ho.elim
  · obtain ⟨⟨isReg, ha⟩, hlist⟩ := ho
    have hown : a.freshNames ⊆ news := by simpa [operandAtoms] using hnews
    exact ⟨⟨isReg, ha.rename hσ hfresh hown⟩,
      fun h => hlist (isListRef_of_rename hσ ha hfresh h)⟩
  · exact AddressOk.rename hσ ho hfresh hnews

theorem OperandsOk.rename {alone : Bool} {as : List (Option TemplateOperand)}
    (has : OperandsOk bound alone fresh as) (hfresh : fresh ⊆ news)
    (hnews : (as.flatMap operandAtoms).flatMap Atom.freshNames ⊆ news) :
    OperandsOk bound' alone fresh (as.map (Option.map (TemplateOperand.renameRefs σ))) := by
  induction as generalizing fresh with
  | nil => trivial
  | cons a as ih =>
    rw [List.flatMap_cons, List.flatMap_append, List.append_subset] at hnews
    refine ⟨has.1.rename hσ hfresh hnews.1, ?_⟩
    rw [operandAtoms_renameRefs, addFresh_map_renameRefs]
    exact ih has.2 (addFresh_subset hfresh hnews.1) hnews.2

theorem LineOk.rename {l : TemplateLine} (hl : LineOk bound t fresh l) (hfresh : fresh ⊆ news)
    (hnews : l.atoms.flatMap Atom.freshNames ⊆ news) : LineOk bound' t fresh (l.renameRefs σ) := by
  refine ⟨hl.mnemonic, ?_⟩
  rw [TemplateLine.renameRefs, List.length_map]
  exact hl.operands.rename hσ hfresh hnews

/-- Lines in order stay in order under a renaming that carries the kinds of names over. -/
theorem LinesOk.rename {ls : List TemplateLine} (hls : LinesOk bound t fresh ls)
    (hfresh : fresh ⊆ news)
    (hnews : (ls.flatMap TemplateLine.atoms).flatMap Atom.freshNames ⊆ news) :
    LinesOk bound' t fresh (ls.map (TemplateLine.renameRefs σ)) := by
  induction ls generalizing fresh with
  | nil => trivial
  | cons l ls ih =>
    rw [List.flatMap_cons, List.flatMap_append, List.append_subset] at hnews
    refine ⟨hls.1.rename hσ hfresh hnews.1, ?_⟩
    rw [TemplateLine.atoms_renameRefs, addFresh_map_renameRefs]
    exact ih hls.2 (addFresh_subset hfresh hnews.1) hnews.2

end

/-! ### The check of a renamed rule -/

namespace Pattern

variable {p : Pattern} {ρ : Name → Name}

theorem renaming_of_mem {n : Name} (h : n ∈ p.names) : p.renaming ρ n = ρ n := if_pos h

theorem renaming_of_not_mem {n : Name} (h : n ∉ p.names) : p.renaming ρ n = n := if_neg h

theorem injOn_renaming (hρ : Set.InjOn ρ {n | n ∈ p.names}) :
    Set.InjOn (p.renaming ρ) {n | n ∈ p.names} := by
  intro n hn m hm heq
  rw [renaming_of_mem hn, renaming_of_mem hm] at heq
  exact hρ hn hm heq

end Pattern

namespace Rule

variable {t : NameTable} {r : Rule} {ρ : Name → Name} {bound bound' : List Binding}

/-- The names of an accepted pattern are apart from the new registers. -/
theorem Accepted.not_mem_freshNames (hr : r.Accepted t bound) {n : Name}
    (hn : n ∈ r.pattern.names) : n ∉ r.freshNames := by
  intro hfresh
  obtain ⟨k, hk⟩ := Pattern.mem_names.1 hn
  have hnone := hr.lines.addFresh_unbound (by simp) n (mem_addFresh.2 (.inr hfresh))
  rw [hr.kinds.2 hk] at hnone
  cases hnone

/-- A renaming of the names of the pattern that avoids the new registers carries the kinds over. -/
theorem Accepted.carries_renaming (hr : r.Accepted t bound)
    (hbound' : (r.renameBound ρ).pattern.check t = .ok bound')
    (hnew : ∀ n ∈ r.pattern.names, ρ n ∉ r.freshNames) :
    Carries (r.pattern.renaming ρ) bound bound' r.freshNames := by
  refine ⟨fun {n k} hk => ?_, fun n hn => ?_, fun n hn => ?_⟩
  · exact (Pattern.kindOf?_of_check hbound').2 (Pattern.binds_rename.2 ⟨n, hr.kinds.1 hk, rfl⟩)
  · rw [Option.eq_none_iff_forall_ne_some]
    intro k hk
    -- a name with a kind after the renaming comes from a name of the pattern
    obtain ⟨m, hm, rfl⟩ := Pattern.binds_rename.1 ((Pattern.kindOf?_of_check hbound').1 hk)
    have hmem : m ∈ r.pattern.names := Pattern.mem_names.2 ⟨k, hm⟩
    rw [Pattern.renaming_of_mem hmem] at hn
    exact hnew m hmem hn
  · exact Pattern.renaming_of_not_mem fun hmem => hr.not_mem_freshNames hmem hn

/-- The check accepts the renamed rule. -/
theorem check_renameBound (hcheck : r.check t = .ok ())
    (hρ : Set.InjOn ρ {n | n ∈ r.pattern.names})
    (hnew : ∀ n ∈ r.pattern.names, ρ n ∉ r.freshNames) : (r.renameBound ρ).check t = .ok () := by
  obtain ⟨bound₀, hbound, -⟩ := check_ok_iff_linesOk.1 hcheck
  have hwell : (r.renameBound ρ).pattern.WellFormed :=
    (Pattern.exists_check_iff.1 ⟨bound₀, hbound⟩).rename (Pattern.injOn_renaming hρ)
  obtain ⟨bound', hbound'⟩ := (Pattern.exists_check_iff (t := t)).2 hwell
  obtain ⟨bound, hr⟩ := accepted_of_check hcheck
  have hcarries := hr.carries_renaming hbound' hnew
  exact check_ok_iff_linesOk.2
    ⟨bound', hbound', hr.lines.rename hcarries (List.nil_subset _) (List.Subset.refl _)⟩

end Rule

end CodeTiling
