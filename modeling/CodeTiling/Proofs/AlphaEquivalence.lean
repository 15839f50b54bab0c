import CodeTiling.Proofs.BoundNames
import CodeTiling.Proofs.Substitution
import CodeTiling.Proofs.Unification

/-!
# The names of a pattern are bound variables

Nothing can tell a rule from the rule with other names in its pattern. The check is one part of
this, `Rule.check_renameBound`. The others are matching, which keeps what names stand for in tables,
and expansion, which looks names up in these tables and among the new registers.

* `Pattern.matchAt_rename` : a match of the renamed pattern is the renamed match;
* `Rule.instanceOf_renameRefs` : the instance of the renamed template is the same one;
* `Rule.renameBound_alike` : the renamed rule does what the rule does.
-/

namespace CodeTiling

open Code (Operand)

/-! ### Matches -/

section

variable (σ : Name → Name)

/-- Rename the name in an equation. What it stands for stays. -/
def Equation.rename : Equation → Equation
  | .value n a => .value (σ n) a
  | .list n l => .list (σ n) l

/-- Rename the names that stand for something. -/
def Bindings.rename (b : Bindings) : Bindings where
  values := b.values.map fun e => (σ e.1, e.2)
  lists := b.lists.map fun e => (σ e.1, e.2)

end

section

variable {σ : Name → Name} {S : Set Name}

theorem OperandPattern.equation?_rename (p : OperandPattern) (v : Option Ir.Value) :
    (p.rename σ).equation? v = (p.equation? v).map (Equation.rename σ) := by
  cases p <;> rcases v with - | - | - <;> rfl

theorem InstrPattern.equations?_rename (p : InstrPattern) (x : Ir.Instr) :
    (p.rename σ).equations? x = (p.equations? x).map (List.map (Equation.rename σ)) := by
  have hdst : ∀ n d, destination (σ n) d = (destination n d).rename σ := fun _ _ => rfl
  cases p with
  | binary op dst l r =>
    cases x with
    | binary op' dst' l' r' =>
      simp only [rename, equations?, OperandPattern.equation?_rename, hdst]
      split
      · cases l.equation? l' <;> cases r.equation? r' <;> rfl
      · rfl
    | _ => rfl
  | unary op dst y =>
    cases x with
    | unary op' dst' y' =>
      simp only [rename, equations?, OperandPattern.equation?_rename, hdst]
      split
      · cases y.equation? y' <;> rfl
      · rfl
    | _ => rfl
  | alloca dst => cases x <;> rfl
  | load dst a =>
    cases x with
    | load dst' a' =>
      simp only [rename, equations?, OperandPattern.equation?_rename, hdst]
      cases a.equation? a' <;> rfl
    | _ => rfl
  | store a v =>
    cases x with
    | store a' v' =>
      simp only [rename, equations?, OperandPattern.equation?_rename]
      cases a.equation? a' <;> cases v.equation? v' <;> rfl
    | _ => rfl
  | call dst func list => cases x <;> rfl

theorem TermPattern.equations?_rename (p : TermPattern) (x : Ir.Terminator) :
    (p.rename σ).equations? x = (p.equations? x).map (List.map (Equation.rename σ)) := by
  cases p with
  | ret v =>
    rcases v with - | v
    · rcases x with (- | w) | - | - <;> rfl
    · rcases x with (- | w) | - | -
      · rfl
      · simp only [rename, Option.map_some, equations?, OperandPattern.equation?_rename]
        cases v.equation? (some w) <;> rfl
      · rfl
      · rfl
  | br cond t e =>
    cases x with
    | br cond' t' e' =>
      simp only [rename, equations?, OperandPattern.equation?_rename]
      cases cond.equation? cond' <;> rfl
    | _ => rfl
  | jmp t => cases x <;> rfl

theorem codeEquations?_rename (ps : List (Option InstrPattern)) (xs : List (Option Ir.Instr)) :
    codeEquations? (ps.map (Option.map (InstrPattern.rename σ))) xs =
      (codeEquations? ps xs).map (List.map (Equation.rename σ)) := by
  induction ps generalizing xs with
  | nil => rfl
  | cons p ps ih =>
    rcases p with - | p
    · rfl
    · rcases xs with - | ⟨- | x, xs⟩
      · rfl
      · rfl
      · simp only [List.map_cons, Option.map_some, codeEquations?, p.equations?_rename, ih]
        cases p.equations? x with
        | none => rfl
        | some es =>
          cases codeEquations? ps xs with
          | none => rfl
          | some fs => simp

/-- The equations of a renamed pattern are the renamed equations. -/
theorem Pattern.equations?_rename (p : Pattern) (code : List (Option Ir.Instr))
    (term : Option Ir.Terminator) :
    (p.rename σ).equations? code term =
      (p.equations? code term).map (List.map (Equation.rename σ)) := by
  obtain ⟨ps, last⟩ := p
  rcases last with - | last
  · exact codeEquations?_rename ps code
  · rcases term with - | x
    · rfl
    · simp only [rename, Option.map_some, equations?, List.length_map, codeEquations?_rename,
        last.equations?_rename]
      split
      · rfl
      · cases codeEquations? ps code with
        | none => rfl
        | some es =>
          cases last.equations? x with
          | none => rfl
          | some fs => simp

/-- The equations of elements are about the names of the elements. -/
theorem map_binding?_of_codeEquations? {ps : List (Option InstrPattern)}
    {xs : List (Option Ir.Instr)} {es : List Equation} (h : codeEquations? ps xs = some es) :
    es.map Equation.binding? = (elementBindings ps).map some := by
  induction ps generalizing xs es with
  | nil =>
    cases h
    rfl
  | cons p ps ih =>
    rcases xs with - | ⟨x, xs⟩
    · cases p <;> cases h
    · obtain ⟨q, y, rfl, rfl, es, hes, fs, hfs, rfl⟩ := codeEquations?_cons h
      rw [List.map_append, InstrPattern.map_binding?_of_equations? hes, ih hfs, ← List.map_append]
      rfl

/-- The equations of a pattern are about its names. -/
theorem Pattern.name_mem_of_equations? {p : Pattern} {code : List (Option Ir.Instr)}
    {term : Option Ir.Terminator} {es : List Equation} (h : p.equations? code term = some es)
    {e : Equation} (he : e ∈ es) : e.name ∈ p.names := by
  have hall : es.map Equation.binding? = p.elements.flatten.map some := by
    rw [flatten_elements]
    obtain ⟨ps, last⟩ := p
    rcases last with - | last
    · simpa using map_binding?_of_codeEquations? h
    · rcases term with - | x
      · cases h
      · simp only [equations?, ne_eq, ite_not, Option.ite_none_right_eq_some, bind,
          Option.bind_eq_some_iff, pure, Option.some.injEq] at h
        obtain ⟨-, es, hes, fs, hfs, rfl⟩ := h
        rw [List.map_append, map_binding?_of_codeEquations? hes,
          TermPattern.map_binding?_of_equations? hfs, ← List.map_append]
        rfl
  rw [names, ← Equation.map_name hall]
  exact List.mem_map_of_mem he

/-- Something is found under a new name if no other name has become that name. -/
theorem lookup_map_name {α : Type} {l : List (Name × α)} {n : Name}
    (h : ∀ e ∈ l, σ n = σ e.1 → n = e.1) :
    (l.map fun e => (σ e.1, e.2)).lookup (σ n) = l.lookup n := by
  induction l with
  | nil => rfl
  | cons e l ih =>
    obtain ⟨hhead, hrest⟩ := List.forall_mem_cons.1 h
    rw [List.map_cons, List.lookup_cons, List.lookup_cons, ih hrest]
    by_cases hn : n = e.1
    · subst hn
      simp
    · have hσn : σ n ≠ σ e.1 := fun heq => hn (hhead heq)
      rw [beq_false_of_ne hn, beq_false_of_ne hσn]

namespace Bindings

/-- All names that stand for something are in the set. -/
structure NamesIn (S : Set Name) (b : Bindings) : Prop where
  /-- Names that stand for an operand are. -/
  values : ∀ e ∈ b.values, e.1 ∈ S
  /-- Names that stand for an argument list are. -/
  lists : ∀ e ∈ b.lists, e.1 ∈ S

variable {b c : Bindings} {e : Equation} {es : List Equation}

theorem NamesIn.bind (hb : b.NamesIn S) (he : e.name ∈ S) (h : b.bind e = some c) :
    c.NamesIn S := by
  cases e with
  | value n a =>
    simp only [Bindings.bind] at h
    split at h
    · obtain rfl := Option.some.inj h
      exact ⟨List.forall_mem_append.2 ⟨hb.values, List.forall_mem_singleton.2 he⟩, hb.lists⟩
    · split at h
      · obtain rfl := Option.some.inj h
        exact hb
      · cases h
  | list n l =>
    simp only [Bindings.bind] at h
    split at h
    · obtain rfl := Option.some.inj h
      exact ⟨hb.values, List.forall_mem_append.2 ⟨hb.lists, List.forall_mem_singleton.2 he⟩⟩
    · split at h
      · obtain rfl := Option.some.inj h
        exact hb
      · cases h

theorem NamesIn.solve (hb : b.NamesIn S) (hes : ∀ e ∈ es, e.name ∈ S)
    (h : b.solve es = some c) : c.NamesIn S := by
  induction es generalizing b with
  | nil =>
    obtain rfl := Option.some.inj h
    exact hb
  | cons e es ih =>
    obtain ⟨d, hd, h⟩ := Option.bind_eq_some_iff.1 h
    obtain ⟨he, hes⟩ := List.forall_mem_cons.1 hes
    exact ih (hb.bind he hd) hes h

variable (hσ : Set.InjOn σ S)
include hσ

theorem value?_renameNames (hb : b.NamesIn S) {n : Name} (hn : n ∈ S) :
    (b.rename σ).value? (σ n) = b.value? n :=
  lookup_map_name fun e he heq => hσ hn (hb.values e he) heq

theorem list?_renameNames (hb : b.NamesIn S) {n : Name} (hn : n ∈ S) :
    (b.rename σ).list? (σ n) = b.list? n :=
  lookup_map_name fun e he heq => hσ hn (hb.lists e he) heq

theorem bind_rename (hb : b.NamesIn S) (he : e.name ∈ S) :
    (b.rename σ).bind (e.rename σ) = (b.bind e).map (Bindings.rename σ) := by
  cases e with
  | value n a =>
    have hn : (b.rename σ).value? (σ n) = b.value? n := value?_renameNames hσ hb he
    simp only [Equation.rename, Bindings.bind, hn]
    cases b.value? n with
    | none => simp [Bindings.rename]
    | some a' =>
      dsimp only
      split <;> rfl
  | list n l =>
    have hn : (b.rename σ).list? (σ n) = b.list? n := list?_renameNames hσ hb he
    simp only [Equation.rename, Bindings.bind, hn]
    cases b.list? n with
    | none => simp [Bindings.rename]
    | some l' =>
      dsimp only
      split <;> rfl

/-- Renamed equations have the renamed solution, or none where there is none. -/
theorem solve_rename (hb : b.NamesIn S) (hes : ∀ e ∈ es, e.name ∈ S) :
    (b.rename σ).solve (es.map (Equation.rename σ)) = (b.solve es).map (Bindings.rename σ) := by
  induction es generalizing b with
  | nil => rfl
  | cons e es ih =>
    obtain ⟨he, hes⟩ := List.forall_mem_cons.1 hes
    rw [List.map_cons, solve, solve, bind_rename hσ hb he]
    cases hc : b.bind e with
    | none => rfl
    | some c => exact ih (hb.bind he hc) hes

end Bindings

end

namespace Pattern

variable {p : Pattern} {σ : Name → Name} {code : List (Option Ir.Instr)}

/-- **A match of a renamed pattern is the renamed match**, and there is one exactly when the pattern
has one. -/
theorem matchAt_rename (hp : ∀ q ∈ p.code, q.isSome = true)
    (hcode : ∀ i, some i ∈ code → i.IsComplete) (hσ : Set.InjOn σ {n | n ∈ p.names})
    (term : Option Ir.Terminator) :
    ∃ o : Option Bindings, p.matchAt code term = .ok o ∧
      (p.rename σ).matchAt code term = .ok (o.map (Bindings.rename σ)) ∧
      ∀ b, o = some b → b.NamesIn {n | n ∈ p.names} := by
  have hp' : ∀ q ∈ (p.rename σ).code, q.isSome = true := by
    intro q hq
    obtain ⟨q', hq', rfl⟩ := List.mem_map.1 hq
    rw [Option.isSome_map]
    exact hp q' hq'
  have hempty : Bindings.NamesIn {n | n ∈ p.names} {} := ⟨by simp, by simp⟩
  refine ⟨_, matchAt_eq hp hcode, ?_, fun b hb => ?_⟩
  · rw [matchAt_eq hp' hcode, equations?_rename]
    cases hes : p.equations? code term with
    | none => rfl
    | some es =>
      have hnames : ∀ e ∈ es, e.name ∈ {n | n ∈ p.names} :=
        fun e he => name_mem_of_equations? hes he
      exact congrArg Except.ok (Bindings.solve_rename hσ hempty hnames)
  · obtain ⟨es, hes, hs⟩ := Option.bind_eq_some_iff.1 hb
    exact hempty.solve (fun e he => name_mem_of_equations? hes he) hs

end Pattern

/-! ### Instances -/

/-- The names that an operand without parts refers to. -/
def Atom.refs : Atom → List Name
  | .ref n => [n]
  | .label n => [n]
  | _ => []

/-- A name and the name that it becomes stand for the same things. -/
structure SameUnder (σ : Name → Name) (b b' : Bindings) (regs : List (Name × Name)) (n : Name) :
    Prop where
  /-- They stand for the same operand. -/
  value : b'.value? (σ n) = b.value? n
  /-- They stand for the same argument list. -/
  list : b'.list? (σ n) = b.list? n
  /-- They stand for the same new register. -/
  register : regs.lookup (σ n) = regs.lookup n

section

variable {t : NameTable} {σ : Name → Name} {b b' : Bindings} {regs : List (Name × Name)}

theorem instanceAtom_renameRefs {a : Atom} (h : ∀ n ∈ a.refs, SameUnder σ b b' regs n) :
    instanceAtom t b' regs (a.renameRefs σ) = instanceAtom t b regs a := by
  cases a with
  | ref n =>
    have hn := h n (List.mem_singleton_self n)
    simp only [Atom.renameRefs, instanceAtom, hn.register, hn.value]
  | label n => exact (h n (List.mem_singleton_self n)).value
  | _ => rfl

theorem instanceTerm_renameRefs {o : Option AddressTerm}
    (h : ∀ a ∈ termAtoms o, ∀ n ∈ a.refs, SameUnder σ b b' regs n) :
    instanceTerm t b' regs (o.map (AddressTerm.renameRefs σ)) = instanceTerm t b regs o := by
  rcases o with - | a | -
  · rfl
  · have ha : instanceAtom t b' regs (a.renameRefs σ) = instanceAtom t b regs a :=
      instanceAtom_renameRefs (h a (List.mem_singleton_self a))
    simp only [Option.map_some, AddressTerm.renameRefs, instanceTerm, ha]
  · rfl

theorem instanceOperand_renameRefs {o : Option TemplateOperand}
    (h : ∀ a ∈ operandAtoms o, ∀ n ∈ a.refs, SameUnder σ b b' regs n) :
    instanceOperand t b' regs (o.map (TemplateOperand.renameRefs σ)) =
      instanceOperand t b regs o := by
  rcases o with - | a | m
  · rfl
  · exact instanceAtom_renameRefs (h a (List.mem_singleton_self a))
  · obtain ⟨hbase, hindex⟩ := List.forall_mem_append.1 h
    simp only [Option.map_some, TemplateOperand.renameRefs, AddressTemplate.renameRefs,
      instanceOperand, instanceTerm_renameRefs hbase, instanceTerm_renameRefs hindex]

theorem lineList?_renameRefs {l : TemplateLine}
    (h : ∀ a ∈ l.atoms, ∀ n ∈ a.refs, SameUnder σ b b' regs n) :
    lineList? b' (l.renameRefs σ) = lineList? b l := by
  obtain ⟨mnemonic, args⟩ := l
  rcases args with - | ⟨o, - | ⟨o', args⟩⟩
  · rfl
  · rcases o with - | a | m
    · rfl
    · -- only a reference that stands alone can be an argument list
      cases a with
      | ref n => exact (h (.ref n) (List.mem_singleton_self _) n (List.mem_singleton_self n)).list
      | _ => rfl
    · rfl
  · simp [TemplateLine.renameRefs, lineList?]

theorem instanceLine_renameRefs {l : TemplateLine}
    (h : ∀ a ∈ l.atoms, ∀ n ∈ a.refs, SameUnder σ b b' regs n) :
    instanceLine t b' regs (l.renameRefs σ) = instanceLine t b regs l := by
  have hargs : (l.renameRefs σ).args.map (instanceOperand t b' regs) =
      l.args.map (instanceOperand t b regs) := by
    rw [TemplateLine.renameRefs, List.map_map]
    refine List.map_congr_left fun o ho => instanceOperand_renameRefs fun a ha => h a ?_
    exact List.mem_flatMap.2 ⟨o, ho, ha⟩
  simp only [instanceLine, lineList?_renameRefs h, hargs]
  rfl

/-- The instance of a template is the same after the renaming, if what the template refers to stands
for the same things. -/
theorem Rule.instanceOf_renameRefs {r : Rule}
    (h : ∀ a ∈ r.atoms, ∀ n ∈ a.refs, SameUnder σ b b' regs n) :
    (r.rename σ).instanceOf t b' regs = r.instanceOf t b regs := by
  rw [instanceOf, instanceOf, rename, List.flatMap_map]
  refine List.flatMap_congr fun l hl => instanceLine_renameRefs fun a ha => h a ?_
  exact mem_atoms hl ha

end

/-! ### Rules -/

namespace Rule

variable {t : NameTable} {r : Rule} {ρ : Name → Name} {bound bound' : List Binding}

/-- The names of the renamed rule are names of the rule, renamed or not. -/
theorem mem_names_rename {σ : Name → Name} {m : Name} (hm : m ∈ (r.rename σ).names) :
    ∃ n ∈ r.names, m = n ∨ m = σ n := by
  have hatom : ∀ a : Atom, ∀ m ∈ (a.renameRefs σ).names, ∃ n ∈ a.names, m = n ∨ m = σ n := by
    intro a m hm
    cases a <;> simp_all [Atom.renameRefs, Atom.names]
  rw [names, List.mem_append, List.mem_append] at hm
  rcases hm with (hm | hm) | hm
  · obtain ⟨k, hk⟩ := Pattern.mem_names.1 hm
    obtain ⟨n, hn, rfl⟩ := Pattern.binds_rename.1 hk
    have hmem : n ∈ r.pattern.names := Pattern.mem_names.2 ⟨k, hn⟩
    exact ⟨n, List.mem_append_left _ (List.mem_append_left _ hmem), .inr rfl⟩
  · refine ⟨m, List.mem_append_left _ (List.mem_append_right _ ?_), .inl rfl⟩
    simpa [rename, TemplateLine.renameRefs, Function.comp_def] using hm
  · rw [atoms_rename, List.flatMap_map] at hm
    obtain ⟨a, ha, hm⟩ := List.mem_flatMap.1 hm
    obtain ⟨n, hn, heq⟩ := hatom a m hm
    exact ⟨n, List.mem_append_right _ (List.mem_flatMap.2 ⟨a, ha, hn⟩), heq⟩

theorem isIssued_names_renameBound (hnames : ∀ n ∈ r.names, t.isIssued n = true)
    (hissued : ∀ n ∈ r.pattern.names, t.isIssued (ρ n) = true) :
    ∀ n ∈ (r.renameBound ρ).names, t.isIssued n = true := by
  intro m hm
  obtain ⟨n, hn, rfl | rfl⟩ := mem_names_rename hm
  · exact hnames m hn
  · by_cases hmem : n ∈ r.pattern.names
    · rw [Pattern.renaming_of_mem hmem]
      exact hissued n hmem
    · rw [Pattern.renaming_of_not_mem hmem]
      exact hnames n hn

/-- What an accepted template refers to is in the pattern or a new register. -/
theorem Accepted.mem_of_mem_refs (hr : r.Accepted t bound) {a : Atom} (ha : a ∈ r.atoms) {n : Name}
    (hn : n ∈ a.refs) : n ∈ r.pattern.names ∨ n ∈ r.freshNames := by
  obtain ⟨-, hatoms⟩ := (linesOk_iff (by simp)).1 hr.lines
  change AtomsOk bound [] r.atoms at hatoms
  obtain ⟨-, -, hrefs, hlabels⟩ := atomsOk_nil_iff.1 hatoms
  cases a with
  | ref m =>
    obtain rfl := List.mem_singleton.1 hn
    obtain ⟨before, after, heq⟩ := List.append_of_mem ha
    rcases hrefs before n after heq with ⟨k, hk, -⟩ | hfresh
    · exact .inl (Pattern.mem_names.2 ⟨k, hr.kinds.1 hk⟩)
    · have hmem : Atom.fresh n ∈ r.atoms := heq ▸ List.mem_append_left _ hfresh
      exact .inr (List.mem_flatMap.2 ⟨_, hmem, List.mem_singleton_self n⟩)
  | label m =>
    obtain rfl := List.mem_singleton.1 hn
    exact .inl (Pattern.mem_names.2 ⟨_, hr.kinds.1 (hlabels n ha)⟩)
  | _ => cases hn

theorem lookup_issued_eq_none {g : Naming} {n : Name} (h : n ∉ r.freshNames) :
    (r.issued g).issued.lookup n = none := by
  rw [← Option.not_isSome_iff_eq_none, issued, Expansion.isSome_lookup_issueAll]
  rintro (hempty | hn)
  · cases hempty
  · exact h hn

/-- What an accepted template refers to stands for the same things in a match and in the renamed
match. -/
theorem Accepted.sameUnder (hr : r.Accepted t bound) (hr' : (r.renameBound ρ).Accepted t bound')
    (hρ : Set.InjOn ρ {n | n ∈ r.pattern.names})
    (hnew : ∀ n ∈ r.pattern.names, ρ n ∉ r.freshNames) {b : Bindings} {g : Naming}
    (hin : b.NamesIn {n | n ∈ r.pattern.names}) (hb : b.Fits bound)
    (hb' : (b.rename (r.pattern.renaming ρ)).Fits bound') {a : Atom} (ha : a ∈ r.atoms) :
    ∀ n ∈ a.refs, SameUnder (r.pattern.renaming ρ) b (b.rename (r.pattern.renaming ρ))
      (r.issued g).issued n := by
  intro n hn
  have hinj := Pattern.injOn_renaming hρ
  by_cases hmem : n ∈ r.pattern.names
  · -- a name of the pattern is no new register, before and after
    have hold : n ∉ r.freshNames := hr.not_mem_freshNames hmem
    have hrenamed : r.pattern.renaming ρ n ∉ r.freshNames := by
      rw [Pattern.renaming_of_mem hmem]
      exact hnew n hmem
    exact ⟨Bindings.value?_renameNames hinj hin hmem, Bindings.list?_renameNames hinj hin hmem,
      by rw [lookup_issued_eq_none hold, lookup_issued_eq_none hrenamed]⟩
  · -- a new register keeps its name, and stands for nothing in either match
    have hfresh : n ∈ r.freshNames := (hr.mem_of_mem_refs ha hn).resolve_left hmem
    have hfresh' : n ∈ (r.renameBound ρ).freshNames := by rwa [renameBound, freshNames_rename]
    obtain ⟨hvalue, hlist⟩ := hr.news_unbound hb hfresh
    obtain ⟨hvalue', hlist'⟩ := hr'.news_unbound hb' hfresh'
    constructor <;> rw [Pattern.renaming_of_not_mem hmem]
    · rw [hvalue, hvalue']
    · rw [hlist, hlist']

/-- **The names of a pattern are bound variables.** Take a rule that passes the check and a renaming
that keeps the names of the pattern apart from each other and from the new registers. The renamed
rule passes the check. It matches the same code with the same number of instructions, and from the
same scope both matches expand to the same instructions and leave the same scope. -/
theorem renameBound_alike (hcheck : r.check t = .ok ())
    (hnames : ∀ n ∈ r.names, t.isIssued n = true)
    (hρ : Set.InjOn ρ {n | n ∈ r.pattern.names})
    (hnew : ∀ n ∈ r.pattern.names, ρ n ∉ r.freshNames)
    (hissued : ∀ n ∈ r.pattern.names, t.isIssued (ρ n) = true) :
    (r.renameBound ρ).check t = .ok () ∧
    ∀ code term, (∀ i, some i ∈ code → i.IsComplete) →
      (r.matchAt code term = .ok none ∧ (r.renameBound ρ).matchAt code term = .ok none) ∨
      ∃ b b' k, r.matchAt code term = .ok (some (b, k)) ∧
        (r.renameBound ρ).matchAt code term = .ok (some (b', k)) ∧
        ∀ g : Naming, t ≤ g.table → ∃ out g', r.expand b g = (.ok out, g') ∧
          (r.renameBound ρ).expand b' g = (.ok out, g') := by
  have hcheck' : (r.renameBound ρ).check t = .ok () := check_renameBound hcheck hρ hnew
  obtain ⟨bound, hr⟩ := accepted_of_check hcheck
  obtain ⟨bound', hr'⟩ := accepted_of_check hcheck'
  refine ⟨hcheck', fun code term hcode => ?_⟩
  obtain ⟨o, ho, ho', hin⟩ := Pattern.matchAt_rename hr.complete hcode
    (Pattern.injOn_renaming hρ) term
  have hcount : (r.renameBound ρ).pattern.code.length = r.pattern.code.length := List.length_map _
  cases o with
  | none =>
    exact .inl ⟨Run.except_bind_ok_iff.2 ⟨_, ho, rfl⟩, Run.except_bind_ok_iff.2 ⟨_, ho', rfl⟩⟩
  | some b =>
    refine .inr ⟨b, _, r.pattern.code.length, Run.except_bind_ok_iff.2 ⟨_, ho, rfl⟩,
      Run.except_bind_ok_iff.2 ⟨_, ho', by rw [hcount]; rfl⟩, fun g hg => ?_⟩
    have hb : b.Fits bound := hr.fits ho
    have hb' : (b.rename (r.pattern.renaming ρ)).Fits bound' := hr'.fits ho'
    -- the same new registers are issued, so the instances are taken in the same state
    have hstate : (r.renameBound ρ).issued g = r.issued g := by
      rw [issued, issued, renameBound, freshNames_rename]
    refine ⟨_, _, expand_spec hr hnames hb hg, ?_⟩
    rw [expand_spec hr' (isIssued_names_renameBound hnames hissued) hb' hg, hstate]
    have hinstance : (r.renameBound ρ).instanceOf t (b.rename (r.pattern.renaming ρ))
        (r.issued g).issued = r.instanceOf t b (r.issued g).issued :=
      instanceOf_renameRefs fun a ha => hr.sameUnder hr' hρ hnew (hin b rfl) hb hb' ha
    rw [hinstance]

end Rule

namespace Sample

/-- Exchange the names of the result and of the arguments of a call, and give the function the name
of the literal. -/
def exchange (n : Name) : Name :=
  if n = ⟨1⟩ then ⟨3⟩ else if n = ⟨3⟩ then ⟨1⟩ else if n = ⟨2⟩ then ⟨10⟩ else n

theorem renameBound_alike_pushAll :
    (pushAll.renameBound exchange).pattern.code = [some (.call ⟨3⟩ ⟨10⟩ ⟨1⟩)] ∧
    (pushAll.renameBound exchange).check callTable = .ok () ∧
    ∃ b b' k out g', b ≠ b' ∧ pushAll.matchAt callCode none = .ok (some (b, k)) ∧
      (pushAll.renameBound exchange).matchAt callCode none = .ok (some (b', k)) ∧
      pushAll.expand b (.ofTable callTable) = (.ok out, g') ∧
      (pushAll.renameBound exchange).expand b' (.ofTable callTable) = (.ok out, g') := by
  have hmatch : pushAll.matchAt callCode none = .ok (some (callBindings, 1)) := rfl
  have hmatch' : (pushAll.renameBound exchange).matchAt callCode none =
      .ok (some (callBindings.rename exchange, 1)) := rfl
  have hinj : Set.InjOn exchange {n | n ∈ pushAll.pattern.names} := by
    have h : ∀ n ∈ pushAll.pattern.names, ∀ m ∈ pushAll.pattern.names,
        exchange n = exchange m → n = m := by decide
    exact fun n hn m hm => h n hn m hm
  obtain ⟨hcheck, hall⟩ := Rule.renameBound_alike (r := pushAll) (t := callTable) rfl (by decide)
    hinj (by decide) (by decide)
  have hcode : ∀ i, some i ∈ callCode → i.IsComplete := by
    intro i hi
    obtain rfl := Option.some.inj (List.mem_singleton.1 hi)
    simp [Ir.Instr.IsComplete]
  refine ⟨rfl, hcheck, ?_⟩
  rcases hall callCode none hcode with ⟨hnone, -⟩ | ⟨b, b', k, hb, hb', hexpand⟩
  · cases hmatch.symm.trans hnone
  · obtain ⟨out, g', hout, hout'⟩ := hexpand (.ofTable callTable) (NameTable.le_refl _)
    cases hmatch.symm.trans hb
    cases hmatch'.symm.trans hb'
    exact ⟨_, _, _, out, g', by decide, hb, hb', hout, hout'⟩

end Sample

end CodeTiling
