import CodeTiling.Ir.Listing
import CodeTiling.Proofs.Isolation
import CodeTiling.Proofs.Loaded
import CodeTiling.Proofs.Soundness

/-!
# Loaded input never fails fatally

Nothing that a stage of the pipeline takes for granted is missing in what the stages before it hand
on. `FailsOnlyWith` says which kinds of causes a computation can fail with, and goes through each
stage along its recursion.

* `failsOnlyWith_ofRules` : the check refuses loaded rules for their own mistakes only;
* `failsOnlyWith_programText` : a loaded program can be listed;
* `selectFuncs_outcome` : selecting a loaded program fails only where no rule matches;
* `pipeline_safe` : from documents to assembly text, each stage gives a result or fails with one of
  the kinds of causes that are its own.
-/

namespace CodeTiling

open Code (Fn Assembly Instruction)

/-! ### Kinds of failures -/

namespace Kind

/-- The mistakes that a loaded rule can have. -/
def ofCheck : List Kind :=
  [emptyRule, rebound, conflict, unknownMnemonic, misplacedList, shadowed, unbound, badAddress]

/-- The causes that a compilation of loaded input can fail with. -/
def ofCompile : List Kind := duplicateFunc :: noRule :: ofCheck

/-- The causes that only something missing leads to: a part of a rule, or a name in the table. -/
def ofGaps : List Kind := [fatal, opMismatch, badMachineReg, missingOperand, malformed, other]

end Kind

/-- Something is not missing, or the causes of what is missing are among some kinds. -/
def OrGaps (kinds : List Kind) (P : Prop) : Prop := P ∨ Kind.ofGaps ⊆ kinds

theorem OrGaps.imp {kinds : List Kind} {P Q : Prop} (h : OrGaps kinds P) (hPQ : P → Q) :
    OrGaps kinds Q := Or.imp_left hPQ h

/-- A computation fails with causes of some kinds only. Without kinds it does not fail. -/
def FailsOnlyWith {α : Type} (kinds : List Kind) (x : Except Error α) : Prop :=
  ∀ err, x = .error err → err.cause.kind ∈ kinds

namespace FailsOnlyWith

variable {α β : Type} {kinds : List Kind} {x : Except Error α}

theorem ok (a : α) : FailsOnlyWith kinds (.ok a) := nofun

theorem error {err : Error} (kind : Kind) (h : err.cause.kind = kind) (hkind : kind ∈ kinds) :
    FailsOnlyWith kinds (.error err : Except Error α) := by
  rintro _ ⟨⟩
  rwa [h]

theorem bind {f : α → Except Error β} (hx : FailsOnlyWith kinds x)
    (hf : ∀ a, x = .ok a → FailsOnlyWith kinds (f a)) : FailsOnlyWith kinds (x >>= f) := by
  cases x with
  | error err => exact .error _ rfl (hx err rfl)
  | ok a => exact hf a rfl

theorem within (p : Place) (hx : FailsOnlyWith kinds x) :
    FailsOnlyWith kinds (Except.within p x) := by
  cases x with
  | error err => exact .error _ rfl (hx err rfl)
  | ok a => exact .ok a

theorem map {f : α → β} (hx : FailsOnlyWith kinds x) : FailsOnlyWith kinds (x.map f) := by
  cases x with
  | error err => exact .error _ rfl (hx err rfl)
  | ok a => exact .ok _

theorem mapM {f : β → Except Error α} {l : List β} (h : ∀ b ∈ l, FailsOnlyWith kinds (f b)) :
    FailsOnlyWith kinds (l.mapM f) := by
  induction l with
  | nil => exact .ok _
  | cons b l ih =>
    obtain ⟨hb, hl⟩ := List.forall_mem_cons.1 h
    rw [List.mapM_cons]
    exact .bind hb fun a _ => .bind (ih hl) fun as _ => .ok _

/-- A gap leads to a cause of its own kind. -/
theorem gap {P : Prop} {err : Error} (hP : OrGaps kinds P) (hnot : ¬P) (kind : Kind)
    (h : err.cause.kind = kind) (hkind : kind ∈ Kind.ofGaps) :
    FailsOnlyWith kinds (.error err : Except Error α) :=
  .error kind h (hP.resolve_left hnot hkind)

/-- To blame a name that is known fails for the cause that the name is blamed for. -/
theorem blame {t : NameTable} {n : Name} {cause : Text → Cause} (kind : Kind)
    (hn : OrGaps kinds (t.isIssued n = true)) (h : ∀ s, (cause s).kind = kind)
    (hkind : kind ∈ kinds) : FailsOnlyWith kinds (.error (t.blame n cause) : Except Error α) := by
  rw [NameTable.blame]
  cases hs : t.text? n with
  | some s => exact .error kind (h s) hkind
  | none => exact .gap hn (by simp [NameTable.isIssued_iff, hs]) .fatal rfl (by decide)

theorem readOr {t : NameTable} {n : Name} (hn : OrGaps kinds (t.isIssued n = true)) :
    FailsOnlyWith kinds (t.read n) := by
  rw [NameTable.read]
  cases hs : t.text? n with
  | some s => exact .ok s
  | none => exact .gap hn (by simp [NameTable.isIssued_iff, hs]) .fatal rfl (by decide)

theorem read {t : NameTable} {n : Name} (hn : t.isIssued n = true) :
    FailsOnlyWith kinds (t.read n) := .readOr (.inl hn)

theorem exists_ok (h : FailsOnlyWith [] x) : ∃ a, x = .ok a := by
  cases x with
  | error err => simpa using h err rfl
  | ok a => exact ⟨a, rfl⟩

end FailsOnlyWith

/-! ### Checking rules

The kinds of causes include the mistakes that a rule without gaps can have. -/

section

variable {t : NameTable} {bound : List Binding} {fresh : List Name} {kinds : List Kind}

theorem kind_checkOp {p : Option InstrPattern} {err : Error} (h : checkOp p = .error err) :
    err.cause.kind ∈ Kind.ofGaps := by
  unfold checkOp at h
  split at h
  · cases h
    exact (by decide : Kind.other ∈ Kind.ofGaps)
  · split at h
    · cases h
    · cases h
      exact (by decide : Kind.opMismatch ∈ Kind.ofGaps)
  · split at h
    · cases h
    · cases h
      exact (by decide : Kind.opMismatch ∈ Kind.ofGaps)
  · cases h

theorem failsOnlyWith_checkOps {ps : List (Option InstrPattern)} {i : Nat}
    (h : OrGaps kinds (∀ p ∈ ps, ∃ q, p = some q ∧ checkOp (some q) = .ok ())) :
    FailsOnlyWith kinds (checkOps i ps) := by
  induction ps generalizing i with
  | nil => exact .ok _
  | cons p ps ih =>
    have hp := h.imp fun h => h p List.mem_cons_self
    have hps := h.imp fun h => (List.forall_mem_cons.1 h).2
    refine .bind (.within _ ?_) fun _ _ => ih hps
    cases hop : checkOp p with
    | ok u => exact .ok u
    | error err =>
      refine .gap hp (fun ⟨q, hq, hok⟩ => ?_) err.cause.kind rfl (kind_checkOp hop)
      rw [hq, hok] at hop
      cases hop

variable (hkinds : Kind.ofCheck ⊆ kinds)
include hkinds

theorem failsOnlyWith_bindElement {here : List Name} {bs : List Binding}
    (h : OrGaps kinds (t.Knows (bs.map (·.name)))) :
    FailsOnlyWith kinds (bindElement t here bound bs) := by
  induction bs generalizing here bound with
  | nil => exact .ok _
  | cons b bs ih =>
    have hb := h.imp fun h => h b.name List.mem_cons_self
    have hbs := h.imp fun h => (List.forall_mem_cons.1 h).2
    unfold bindElement
    split
    · exact .blame .rebound hb (fun _ => rfl) (hkinds (by decide))
    split
    · exact ih hbs
    split
    · exact ih hbs
    · exact .blame .conflict hb (fun _ => rfl) (hkinds (by decide))

theorem failsOnlyWith_bindElements {es : List (List Binding)} {i : Nat}
    (h : OrGaps kinds (t.Knows (es.flatten.map (·.name)))) :
    FailsOnlyWith kinds (bindElements t i bound es) := by
  induction es generalizing i bound with
  | nil => exact .ok _
  | cons e es ih =>
    rw [List.flatten_cons, List.map_append] at h
    have he := h.imp fun h => (List.forall_mem_append.1 h).1
    have hes := h.imp fun h => (List.forall_mem_append.1 h).2
    exact .bind (.within _ (failsOnlyWith_bindElement hkinds he)) fun _ _ => ih hes

theorem failsOnlyWith_checkAtom {a : Atom} (h : OrGaps kinds (Load.AtomLoaded t a)) :
    FailsOnlyWith kinds (checkAtom t bound fresh a) := by
  cases a with
  | machine r =>
    simp only [checkAtom]
    split
    · exact .ok _
    · rename_i hr
      exact .gap h (fun h => hr h.1) .badMachineReg rfl (by decide)
  | fresh n =>
    have hn := h.imp fun h => h.2 n (by simp [Atom.names])
    simp only [checkAtom]
    split
    · exact .blame .shadowed hn (fun _ => rfl) (hkinds (by decide))
    · exact .ok _
  | ref n =>
    have hn := h.imp fun h => h.2 n (by simp [Atom.names])
    simp only [checkAtom]
    split
    · exact .ok _
    split
    · exact .blame .unbound hn (fun _ => rfl) (hkinds (by decide))
    · exact .blame .unbound hn (fun _ => rfl) (hkinds (by decide))
    · exact .ok _
  | literal n => exact .ok _
  | label n =>
    have hn := h.imp fun h => h.2 n (by simp [Atom.names])
    simp only [checkAtom]
    split
    · exact .ok _
    · exact .blame .unbound hn (fun _ => rfl) (hkinds (by decide))

theorem failsOnlyWith_checkTerm {part : AddressPart} {o : Option AddressTerm}
    (h : OrGaps kinds (Load.TermLoaded t o)) :
    FailsOnlyWith kinds (checkTerm t bound part fresh o) := by
  rcases o with - | a | -
  · exact .ok _
  · have ha : OrGaps kinds (Load.AtomLoaded t a) := h.imp fun ⟨hfull, hnames⟩ =>
      ⟨hfull, by simpa only [termAtoms, List.flatMap_cons, List.flatMap_nil, List.append_nil]
        using hnames⟩
    simp only [checkTerm]
    split
    · exact .within _ (.error .misplacedList rfl (hkinds (by decide)))
    · refine .bind (.within _ (failsOnlyWith_checkAtom hkinds ha)) fun x _ => ?_
      split
      · exact .ok _
      · exact .error .badAddress rfl (hkinds (by decide))
  · exact .error .badAddress rfl (hkinds (by decide))

theorem failsOnlyWith_checkOperand {alone : Bool} {o : Option TemplateOperand}
    (h : OrGaps kinds (Load.OperandLoaded t o)) :
    FailsOnlyWith kinds (checkOperand t bound alone fresh o) := by
  rcases o with - | a | m
  · exact .gap h (fun h => h.1) .missingOperand rfl (by decide)
  · have ha : OrGaps kinds (Load.AtomLoaded t a) := h.imp fun hloaded =>
      ⟨hloaded.1, by
        simpa only [operandAtoms, List.flatMap_cons, List.flatMap_nil, List.append_nil]
          using hloaded.2⟩
    have hatom : FailsOnlyWith kinds ((checkAtom t bound fresh a).map Prod.snd) :=
      .map (failsOnlyWith_checkAtom hkinds ha)
    cases a with
    | ref n =>
      simp only [checkOperand]
      split
      · exact .blame .misplacedList (ha.imp fun h => h.2 n (by simp [Atom.names])) (fun _ => rfl)
          (hkinds (by decide))
      · exact hatom
    | _ => exact hatom
  · have hm : OrGaps kinds (Load.TermLoaded t m.base ∧ Load.TermLoaded t m.index) := by
      refine h.imp fun hloaded => ?_
      obtain ⟨hfull, hnames⟩ := hloaded
      simp only [operandAtoms, List.flatMap_append] at hnames
      obtain ⟨hbase, hindex⟩ := List.forall_mem_append.1 hnames
      exact ⟨⟨hfull.1, hbase⟩, hfull.2, hindex⟩
    simp only [checkOperand, checkAddress]
    split
    · exact .error .badAddress rfl (hkinds (by decide))
    split
    · exact .error .badAddress rfl (hkinds (by decide))
    · exact .bind (failsOnlyWith_checkTerm hkinds (hm.imp And.left)) fun _ _ =>
        failsOnlyWith_checkTerm hkinds (hm.imp And.right)

theorem failsOnlyWith_checkOperands {m : Text} {alone : Bool} {j : Nat}
    {as : List (Option TemplateOperand)} (h : OrGaps kinds (∀ o ∈ as, Load.OperandLoaded t o)) :
    FailsOnlyWith kinds (checkOperands t bound m alone j fresh as) := by
  induction as generalizing j fresh with
  | nil => exact .ok _
  | cons a as ih =>
    have ha := h.imp fun h => h a List.mem_cons_self
    have has := h.imp fun h => (List.forall_mem_cons.1 h).2
    exact .bind (.within _ (failsOnlyWith_checkOperand hkinds ha)) fun _ _ => ih has

theorem failsOnlyWith_checkLines {i : Nat} {ls : List TemplateLine}
    (h : OrGaps kinds (∀ l ∈ ls, Load.LineLoaded t l)) :
    FailsOnlyWith kinds (checkLines t bound i fresh ls) := by
  induction ls generalizing i fresh with
  | nil => exact .ok _
  | cons l ls ih =>
    have hl := h.imp fun h => h l List.mem_cons_self
    have hls := h.imp fun h => (List.forall_mem_cons.1 h).2
    refine .bind (.within _ (.bind (.readOr (hl.imp (·.mnemonic))) fun m _ => ?_)) fun _ _ => ih hls
    split
    · exact .error .unknownMnemonic rfl (hkinds (by decide))
    · exact failsOnlyWith_checkOperands hkinds (hl.imp (·.operands))

omit hkinds in
/-- The lines of a loaded rule are loaded. -/
theorem Load.RuleLoaded.lines {r : Rule} (h : Load.RuleLoaded t r) :
    ∀ l ∈ r.template, Load.LineLoaded t l := by
  obtain ⟨hfull, hnames⟩ := h
  obtain ⟨hfront, hatoms⟩ := List.forall_mem_append.1 hnames
  intro l hl
  refine ⟨hfront _ (List.mem_append_right _ (List.mem_map_of_mem hl)),
    fun o ho => ⟨hfull.lines l hl o ho, .flatMap fun a ha n hn => hatoms n ?_⟩⟩
  exact List.mem_flatMap.2
    ⟨a, List.mem_flatMap.2 ⟨l, hl, List.mem_flatMap.2 ⟨o, ho, ha⟩⟩, hn⟩

theorem failsOnlyWith_check {r : Rule} (h : OrGaps kinds (Load.RuleLoaded t r)) :
    FailsOnlyWith kinds (r.check t) := by
  refine .bind (.within _ ?_) fun _ _ => failsOnlyWith_checkLines hkinds (h.imp (·.lines))
  unfold Pattern.check
  split
  · exact .error .emptyRule rfl (hkinds (by decide))
  · refine .bind (failsOnlyWith_checkOps (h.imp (·.1.code))) fun _ _ => ?_
    refine failsOnlyWith_bindElements hkinds (h.imp fun h n hn => h.2 n ?_)
    exact List.mem_append_left _ (List.mem_append_left _ hn)

theorem failsOnlyWith_checkRules {rs : List Rule} {i : Nat}
    (h : OrGaps kinds (∀ r ∈ rs, Load.RuleLoaded t r)) :
    FailsOnlyWith kinds (checkRules t i rs) := by
  induction rs generalizing i with
  | nil => exact .ok _
  | cons r rs ih =>
    have hr := h.imp fun h => h r List.mem_cons_self
    have hrs := h.imp fun h => (List.forall_mem_cons.1 h).2
    exact .bind (.within _ (failsOnlyWith_check hkinds hr)) fun _ _ => ih hrs

omit hkinds in
/-- The check refuses loaded rules for mistakes of their own only. -/
theorem failsOnlyWith_ofRules {rules : List Rule} (h : ∀ r ∈ rules, Load.RuleLoaded t r) :
    FailsOnlyWith Kind.ofCheck (Engine.ofRules t rules) :=
  .bind (failsOnlyWith_checkRules (List.Subset.refl _) (.inl h)) fun _ _ => .ok _

omit hkinds in
theorem Engine.ofRules_builtOn {rules : List Rule} {e : Engine}
    (h : ∀ r ∈ rules, t.Knows r.names) (he : Engine.ofRules t rules = .ok e) :
    e.BuiltOn t ∧ e.rules = rules := by
  obtain ⟨⟨⟩, -, hret⟩ := Run.except_bind_ok_iff.1 he
  cases hret
  exact ⟨⟨he, h⟩, rfl⟩

end

/-! ### Listing loaded programs -/

section

variable {t : NameTable}

theorem failsOnlyWith_valueText {v : Option Ir.Value} (h : Load.ValueLoaded t v) :
    FailsOnlyWith [] (Ir.valueText t v) := by
  obtain ⟨hsome, hnames⟩ := h
  rcases v with - | n | k
  · cases hsome
  · exact .read (hnames n (by simp [Ir.valueNames]))
  · exact .ok _

theorem failsOnlyWith_valueTexts {vs : List (Option Ir.Value)} {i : Nat}
    (h : ∀ v ∈ vs, Load.ValueLoaded t v) : FailsOnlyWith [] (Ir.valueTexts t i vs) := by
  induction vs generalizing i with
  | nil => exact .ok _
  | cons v vs ih =>
    obtain ⟨hv, hvs⟩ := List.forall_mem_cons.1 h
    refine .bind (.within _ (failsOnlyWith_valueText hv)) fun _ _ => ?_
    exact .bind (ih hvs) fun _ _ => .ok _

theorem failsOnlyWith_head {x : Ir.Instr} (h : t.Knows x.ownNames) :
    FailsOnlyWith [] (x.head t) := by
  cases x with
  | store a v => exact .ok _
  | call dst func args =>
    refine .bind (.read (h dst (by simp [Ir.Instr.ownNames]))) fun _ _ => ?_
    exact .bind (.read (h func (by simp [Ir.Instr.ownNames]))) fun _ _ => .ok _
  | _ => exact .bind (.read (h _ (by simp [Ir.Instr.ownNames]))) fun _ _ => .ok _

theorem failsOnlyWith_instrText {x : Option Ir.Instr} (h : Load.InstrLoaded t x) :
    FailsOnlyWith [] (Ir.instrText t x) := by
  obtain ⟨i, rfl, hfull, hnames⟩ := h
  obtain ⟨hown, hoperands⟩ := List.forall_mem_append.1 hnames
  refine .bind (failsOnlyWith_head hown) fun _ _ => .bind ?_ fun _ _ => .ok _
  exact failsOnlyWith_valueTexts fun v hv =>
    ⟨hfull v hv, fun n hn => hoperands n (List.mem_flatMap.2 ⟨v, hv, hn⟩)⟩

theorem failsOnlyWith_termText {x : Ir.Terminator} (h : Load.TerminatorLoaded t x) :
    FailsOnlyWith [] (Ir.termText t x) := by
  obtain ⟨hfull, hnames⟩ := h
  cases x with
  | ret v =>
    cases v with
    | none => exact .ok _
    | some v => exact .bind (failsOnlyWith_valueText ⟨rfl, hnames⟩) fun _ _ => .ok _
  | br cond a b =>
    obtain ⟨hcond, hlabels⟩ := List.forall_mem_append.1 hnames
    refine .bind (failsOnlyWith_valueText ⟨hfull, hcond⟩) fun _ _ => ?_
    refine .bind (.read (hlabels a (by simp))) fun _ _ => ?_
    exact .bind (.read (hlabels b (by simp))) fun _ _ => .ok _
  | jmp l => exact .bind (.read (hnames l (by simp [Ir.Terminator.names]))) fun _ _ => .ok _

theorem failsOnlyWith_phiText {p : Ir.Phi} (h : Load.PhiLoaded t p) :
    FailsOnlyWith [] (Ir.phiText t p) := by
  obtain ⟨hfull, hnames⟩ := h
  obtain ⟨hdst, hsources⟩ := List.forall_mem_cons.1 hnames
  refine .bind (.read hdst) fun _ _ => ?_
  refine .bind (.mapM fun s hs => ?_) fun _ _ => .ok _
  obtain ⟨hblock, hvalue⟩ := List.forall_mem_cons.1 fun n hn =>
    hsources n (List.mem_flatMap.2 ⟨s, hs, hn⟩)
  refine .bind (.read hblock) fun _ _ => ?_
  exact .bind (failsOnlyWith_valueText ⟨hfull s hs, hvalue⟩) fun _ _ => .ok _

theorem failsOnlyWith_blockText {b : Ir.Block} (h : Load.BlockLoaded t b) :
    FailsOnlyWith [] (Ir.blockText t b) := by
  obtain ⟨hfull, hnames⟩ := h
  simp only [Ir.Block.names, NameTable.Knows, List.cons_append, List.mem_cons, List.mem_append,
    List.mem_flatMap, or_imp, forall_and, forall_eq] at hnames
  obtain ⟨hlabel, ⟨hphis, hcode⟩, hterm⟩ := hnames
  refine .bind (.read hlabel) fun _ _ => ?_
  refine .bind (.mapM fun p hp => .within _ ?_) fun _ _ => ?_
  · exact failsOnlyWith_phiText ⟨hfull.phis p hp, fun n hn => hphis n ⟨p, hp, hn⟩⟩
  refine .bind (.mapM fun x hx => .within _ ?_) fun _ _ => ?_
  · obtain ⟨i, rfl, hi⟩ := hfull.code x hx
    exact failsOnlyWith_instrText ⟨i, rfl, hi, fun n hn => hcode n ⟨_, hx, hn⟩⟩
  -- a block without a terminator is listed too
  extract_lets rest
  split
  · exact .bind (.ok _) fun _ _ => .ok _
  · rename_i x hx
    rw [hx] at hterm
    exact .bind (.within _ (failsOnlyWith_termText ⟨hfull.term x hx, hterm⟩)) fun _ _ => .ok _

theorem failsOnlyWith_funcText {f : Ir.Func} (h : Load.FuncLoaded t f) :
    FailsOnlyWith [] (Ir.funcText t f) := by
  obtain ⟨hfull, hnames⟩ := h
  obtain ⟨hhead, hblocks⟩ := List.forall_mem_append.1 hnames
  obtain ⟨hname, hargs⟩ := List.forall_mem_cons.1 hhead
  refine .bind (.read hname) fun _ _ => ?_
  refine .bind (.mapM fun n hn => .read (hargs n hn)) fun _ _ => ?_
  refine .bind (.mapM fun b hb => .within _ ?_) fun _ _ => .ok _
  exact failsOnlyWith_blockText
    ⟨hfull b hb, fun n hn => hblocks n (List.mem_flatMap.2 ⟨b, hb, hn⟩)⟩

/-- A loaded program can be listed. -/
theorem failsOnlyWith_programText {p : Ir.Program} (h : ∀ f ∈ p.funcs, Load.FuncLoaded t f) :
    FailsOnlyWith [] (Ir.programText t p) :=
  .bind (.mapM fun f hf => .within _ (failsOnlyWith_funcText (h f hf))) fun _ _ => .ok _

end

/-! ### Writing selected code -/

theorem exists_mapM_eq_some {α β : Type} {f : α → Option β} {l : List α}
    (h : ∀ a ∈ l, ∃ b, f a = some b) : ∃ bs, l.mapM f = some bs := by
  induction l with
  | nil => exact ⟨[], rfl⟩
  | cons a l ih =>
    obtain ⟨⟨b, hb⟩, hl⟩ := List.forall_mem_cons.1 h
    obtain ⟨bs, hbs⟩ := ih hl
    exact ⟨b :: bs, by rw [List.mapM_cons, hb, hbs]; rfl⟩

namespace Code

variable {t : NameTable}

/-- An instruction whose operands are there, with names that the table knows, can be written. -/
theorem Instruction.IsSound.exists_text {i : Instruction} (h : i.IsSound)
    (hself : i.Related (SameText t t) i) : ∃ s, i.text? t = some s := by
  obtain ⟨l, hl⟩ : ∃ l, i.operandTexts? t = some l := by
    refine exists_mapM_eq_some fun a ha => ?_
    obtain ⟨x, rfl, -⟩ := h.operands a ha
    have hx : x.Related (SameText t t) x := by
      cases List.forall₂_same.1 hself.args _ ha with
      | some hx => exact hx
    exact ⟨x.text t, if_pos hx.isIssued.1⟩
  exact ⟨_, by rw [Instruction.text?, hl]; rfl⟩

theorem Block.exists_text {b : Block} (hself : b.Related (SameText t t) b)
    (h : ∀ i ∈ b.instructions, i.IsSound) : ∃ s, b.text? t = some s := by
  obtain ⟨l, hl⟩ : ∃ l, b.lines.mapM (lineText? t) = some l := by
    refine exists_mapM_eq_some fun line hline => ?_
    cases line with
    | directive s => exact ⟨_, rfl⟩
    | instr i =>
      have hi : i ∈ b.instructions := List.mem_filterMap.2 ⟨_, hline, rfl⟩
      have hrel : i.Related (SameText t t) i := by
        cases List.forall₂_same.1 hself.lines _ hline with
        | instr hrel => exact hrel
      obtain ⟨s, hs⟩ := (h i hi).exists_text hrel
      exact ⟨_, by rw [lineText?, hs]; rfl⟩
  exact ⟨_, by rw [Block.text?, hl]; rfl⟩

theorem Fn.exists_text {args : List Name} {bs : List Block}
    (h : ∀ b ∈ bs, ∃ s, b.text? t = some s) : ∃ s, Fn.text? t ⟨args, bs⟩ = some s := by
  obtain ⟨l, hl⟩ : ∃ l, (bs.mapM fun (b : Block) =>
      (b.text? t).map fun (s : Text) => s ++ "\n") = some l := by
    refine exists_mapM_eq_some fun b hb => ?_
    obtain ⟨s, hs⟩ := h b hb
    exact ⟨_, by rw [hs]; rfl⟩
  exact ⟨_, by rw [Fn.text?, hl]; rfl⟩

theorem Assembly.mem_put {φ : Type} {n : Name} {f : φ} {l : List (Name × φ)} {x : Name × φ}
    (h : x ∈ put n f l) : x = (n, f) ∨ x ∈ l := by
  induction l with
  | nil => exact .inl (List.mem_singleton.1 h)
  | cons y l ih =>
    obtain ⟨m, g⟩ := y
    unfold put at h
    split at h
    · exact (List.mem_cons.1 h).imp_right (List.mem_cons_of_mem _)
    · rcases List.mem_cons.1 h with rfl | h
      · exact .inr List.mem_cons_self
      · exact (ih h).imp_right (List.mem_cons_of_mem _)

end Code

/-- What holds of all functions that are put into an assembly, and of those in it before, holds of
all functions in it. -/
theorem forall_fns_foldl_emitFn {P : Fn → Prop} {xs : List (Ir.Func × List Code.Block)}
    {a : Assembly Fn} (hxs : ∀ x ∈ xs, P { args := x.1.args, blocks := x.2 })
    (ha : ∀ q ∈ a.fns, P q.2) :
    ∀ q ∈ (xs.foldl (fun a (x : Ir.Func × List Code.Block) =>
      a.emitFn x.1.name { args := x.1.args, blocks := x.2 }) a).fns, P q.2 := by
  induction xs generalizing a with
  | nil => exact ha
  | cons x xs ih =>
    obtain ⟨hx, hxs⟩ := List.forall_mem_cons.1 hxs
    refine ih hxs fun q hq => ?_
    rw [Assembly.fns_emitFn] at hq
    rcases Assembly.mem_put hq with rfl | hq
    · exact hx
    · exact ha q hq

/-- A program whose functions can be written can be written. -/
theorem exists_text_assemble {T : NameTable} (p : Ir.Program) {bss : List (List Code.Block)}
    (h : ∀ bs ∈ bss, ∀ args : List Name, ∃ s, Fn.text? T ⟨args, bs⟩ = some s) :
    ∃ s, (assemble p bss).text? T = some s := by
  have hfns : ∀ q ∈ (assemble p bss).fns, ∃ s, q.2.text? T = some s := by
    refine forall_fns_foldl_emitFn (P := fun f => ∃ s, f.text? T = some s)
      (fun x hx => h _ (List.of_mem_zip hx).2 _) ?_
    rw [fns_foldl_emitData]
    exact fun q hq => absurd hq List.not_mem_nil
  obtain ⟨l, hl⟩ : ∃ l, (assemble p bss).functions.mapM (Fn.text? T) = some l := by
    refine exists_mapM_eq_some fun f hf => ?_
    rw [Assembly.functions_eq] at hf
    obtain ⟨q, hq, rfl⟩ := List.mem_map.1 hf
    exact hfns q hq
  exact ⟨_, by rw [Assembly.text?, hl]; rfl⟩

/-! ### Compiling loaded programs -/

theorem NoRuleError.kind {b : Ir.Block} {stop : Nat} {err : Error} (h : NoRuleError b stop err) :
    err.cause.kind = .noRule := by
  cases h with
  | code => rfl
  | term => rfl

theorem duplicateFunc?_mem {fs : List Ir.Func} {seen : List Name} {n : Name}
    (h : duplicateFunc? seen fs = some n) : ∃ f ∈ fs, f.name = n := by
  induction fs generalizing seen with
  | nil => cases h
  | cons f fs ih =>
    unfold duplicateFunc? at h
    split at h
    · exact ⟨f, List.mem_cons_self, Option.some.inj h⟩
    · obtain ⟨f', hf', hn⟩ := ih h
      exact ⟨f', List.mem_cons_of_mem _ hf', hn⟩

section

variable {α : Type} {xs : List (Except Error α)}

theorem failsOnlyWith_collect {kinds : List Kind} {i : Nat}
    (h : ∀ x ∈ xs, FailsOnlyWith kinds x) : FailsOnlyWith kinds (collect i xs) := by
  induction xs generalizing i with
  | nil => exact .ok _
  | cons x xs ih =>
    obtain ⟨hx, hxs⟩ := List.forall_mem_cons.1 h
    exact .bind (.within _ hx) fun _ _ => .bind (ih hxs) fun _ _ => .ok _

/-- What is collected is what all outcomes hold. -/
theorem eq_map_of_collect {ys : List α} {i : Nat} (h : collect i xs = .ok ys) :
    xs = ys.map .ok := by
  induction xs generalizing i ys with
  | nil =>
    cases h
    rfl
  | cons x xs ih =>
    obtain ⟨y, hy, h⟩ := Run.except_bind_ok_iff.1 h
    obtain ⟨rest, hrest, h⟩ := Run.except_bind_ok_iff.1 h
    cases h
    rw [Run.within_ok_iff.1 hy, ih hrest, List.map_cons]

theorem mem_of_collect {ys : List α} {i : Nat} (h : collect i xs = .ok ys) :
    ∀ y ∈ ys, .ok y ∈ xs := by
  rw [eq_map_of_collect h]
  exact fun y hy => List.mem_map_of_mem hy

end

section

variable {e : Engine} {t : NameTable} {f : Ir.Func}

theorem selectFresh_eq (hname : t.isIssued f.name = true) :
    (e.selectFresh t f).1 = (e.selectBlocks f.name true f.blocks (.ofTable t)).1 := by
  rw [← selectFunc_run (g := .ofTable t) hname]
  rfl

/-- A loaded function alone fails only where no rule matches. -/
theorem failsOnlyWith_alone (he : e.BuiltOn t) (hf : Load.FuncLoaded t f) :
    FailsOnlyWith [.noRule] (e.alone t f) := by
  refine .map fun err herr => ?_
  have hname : t.isIssued f.name = true := hf.2 _ (by simp [Ir.Func.names])
  have hlabels : ∀ b ∈ f.blocks, t.isIssued b.label = true := fun b hb =>
    hf.2 _ (List.mem_append_right _ (List.mem_flatMap.2 ⟨b, hb, by simp [Ir.Block.names]⟩))
  rw [selectFresh_eq hname] at herr
  rcases hrun : e.selectBlocks f.name true f.blocks (.ofTable t) with ⟨err' | cs, g'⟩
  · rw [hrun] at herr
    cases herr
    obtain ⟨b, -, stop, err', hno, hcause⟩ := selectBlocks_error he (NameTable.le_refl t)
      hf.1.isComplete hname hlabels hrun
    rw [hcause, hno.kind]
    simp
  · rw [hrun] at herr
    cases herr

/-- What a loaded function alone comes to can be written. -/
theorem exists_text_alone (he : e.BuiltOn t) (hf : Load.FuncLoaded t f)
    {x : List Code.Block × NameTable} (h : e.alone t f = .ok x) (args : List Name) :
    ∃ s, Fn.text? x.2 ⟨args, x.1⟩ = some s := by
  have hname : t.isIssued f.name = true := hf.2 _ (by simp [Ir.Func.names])
  cases hbs : (e.selectFresh t f).1 with
  | error err =>
    rw [Engine.alone_of_error hbs] at h
    cases h
  | ok bs =>
    rw [Engine.alone_of_ok hbs] at h
    cases h
    -- the names are known to the table, as a run is the same as itself
    have hself : List.Forall₂ (Code.Block.Related
        (SameText (e.selectFresh t f).2 (e.selectFresh t f).2)) bs bs := by
      have halike : (Naming.ofTable t).Alike t t (.ofTable t) :=
        ⟨NameTable.le_refl t, NameTable.le_refl t, rfl, rfl, rfl⟩
      have hsame := (selectFunc_alike he hf.2 halike).outcome
      change SameOutcome _ (e.selectFresh t f).1 (e.selectFresh t f).1 at hsame
      rw [hbs] at hsame
      cases hsame with
      | ok hself => exact hself
    rw [selectFresh_eq hname] at hbs
    have hsound : ∀ b ∈ bs, ∀ i ∈ b.instructions, i.IsSound :=
      isSound_selectBlocks he (g := .ofTable t) (NameTable.le_refl t) (Prod.ext hbs rfl)
    exact Fn.exists_text fun b hb =>
      Code.Block.exists_text (List.forall₂_same.1 hself b hb) (hsound b hb)

variable {p : Ir.Program} (hp : ∀ f ∈ p.funcs, Load.FuncLoaded t f)
include hp

/-- Selecting a loaded program fails only where no rule matches, and what is selected can be
written. -/
theorem selectFuncs_outcome (he : e.BuiltOn t) (workers : Int) (s : Schedule p.funcs.length) :
    FailsOnlyWith [.noRule] (selectFuncs e t workers p.funcs s) ∧
      ∀ z, selectFuncs e t workers p.funcs s = .ok z →
        ∃ text, (assemble p z.1).text? z.2 = some text := by
  have hsame := selectFuncs_same (fun f hf => (hp f hf).2) he workers s
  have hfails : FailsOnlyWith [.noRule] (collect 0 (p.funcs.map (e.alone t))) := by
    refine failsOnlyWith_collect fun x hx => ?_
    obtain ⟨f, hf, rfl⟩ := List.mem_map.1 hx
    exact failsOnlyWith_alone he (hp f hf)
  generalize selectFuncs e t workers p.funcs s = x at hsame
  generalize hy : collect 0 (p.funcs.map (e.alone t)) = y at hsame hfails
  cases hsame with
  | error err => exact ⟨.error _ rfl (hfails err rfl), nofun⟩
  | @ok z ys h =>
    refine ⟨.ok _, ?_⟩
    rintro _ ⟨⟩
    refine exists_text_assemble p fun bs hbs args => ?_
    obtain ⟨x, hx, hrel⟩ : ∃ x ∈ ys, SameBlocks z.2 bs x := by
      obtain ⟨i, hi, rfl⟩ := List.getElem_of_mem hbs
      exact ⟨_, List.getElem_mem _, h.get hi (h.length_eq ▸ hi)⟩
    obtain ⟨f, hf, halone⟩ := List.mem_map.1 (mem_of_collect hy x hx)
    rw [Fn.text?_eq_of_related hrel args args]
    exact exists_text_alone he (hp f hf) halone args

/-- An assembly that a loaded program compiles to can be written. -/
theorem exists_text_of_compile {rs : List Rule} (hrs : ∀ r ∈ rs, t.Knows r.names) {workers : Int}
    {s : Schedule p.funcs.length} {a : Assembly Fn × NameTable}
    (h : compile t rs p workers s = .ok a) : ∃ text, a.1.text? a.2 = some text := by
  cases hdup : duplicateFunc? [] p.funcs with
  | some n =>
    rw [compile, hdup] at h
    cases h
  | none =>
    cases hengine : Engine.ofRules t rs with
    | error err =>
      rw [compile, hdup, hengine] at h
      cases h
    | ok e =>
      obtain ⟨he, rfl⟩ := Engine.ofRules_builtOn hrs hengine
      rw [compile_of_checked he hdup] at h
      obtain ⟨z, hz, hret⟩ := Run.except_bind_ok_iff.1 h
      cases hret
      exact (selectFuncs_outcome hp he workers s).2 z hz

/-- Compiling a loaded program with loaded rules gives an assembly that can be written or fails for
a cause of its own. -/
theorem compile_outcome {rs : List Rule} (hrs : ∀ r ∈ rs, Load.RuleLoaded t r) (workers : Int)
    (s : Schedule p.funcs.length) :
    (∃ err, compile t rs p workers s = .error err ∧ err.cause.kind ∈ Kind.ofCompile) ∨
      ∃ a t' text, compile t rs p workers s = .ok (a, t') ∧ a.text? t' = some text := by
  cases hdup : duplicateFunc? [] p.funcs with
  | some n =>
    obtain ⟨f, hf, rfl⟩ := duplicateFunc?_mem hdup
    have hn : t.isIssued f.name = true := (hp f hf).2 _ (by simp [Ir.Func.names])
    refine .inl ⟨t.blame f.name .duplicateFunc, by rw [compile, hdup], ?_⟩
    exact FailsOnlyWith.blame (α := Unit) .duplicateFunc (.inl hn) (fun _ => rfl) (by decide) _ rfl
  | none =>
    cases hengine : Engine.ofRules t rs with
    | error err =>
      refine .inl ⟨err.within .rules, by rw [compile, hdup, hengine]; rfl, ?_⟩
      have hkind := failsOnlyWith_ofRules hrs err hengine
      exact List.mem_cons_of_mem _ (List.mem_cons_of_mem _ hkind)
    | ok e =>
      obtain ⟨he, rfl⟩ := Engine.ofRules_builtOn (fun r hr => (hrs r hr).2) hengine
      obtain ⟨hfails, htext⟩ := selectFuncs_outcome hp he workers s
      rw [compile_of_checked he hdup]
      cases hselect : selectFuncs e t workers p.funcs s with
      | error err =>
        have hkind : err.cause.kind = .noRule := by simpa using hfails err hselect
        exact .inl ⟨err, rfl, by rw [hkind]; decide⟩
      | ok z =>
        obtain ⟨text, htext⟩ := htext z hselect
        exact .inr ⟨_, _, text, rfl, htext⟩

end

/-- **Loaded input never fails fatally.** For all documents of rules and of a program, whatever the
untyped values in them are, and from any table on:

* loading the rules gives rules or fails for a fault of the document;
* so does loading the program after them;
* a loaded program can be listed;
* compiling it, with any number of workers in any order, gives an assembly that can be written, or
  fails because two functions have one name, because no rule matches somewhere or because of a
  mistake in a rule. -/
theorem pipeline_safe (rules : List Document.Rule) (program : Document.Program) (t : NameTable) :
    (∃ err, Load.rules rules t = .error err ∧ err.cause.kind = .badSyntax) ∨
    ∃ rs t₁, Load.rules rules t = .ok (rs, t₁) ∧
      ((∃ err, Load.program program t₁ = .error err ∧ err.cause.kind = .badSyntax) ∨
      ∃ p t₂, Load.program program t₁ = .ok (p, t₂) ∧
        (∃ listing, Ir.programText t₂ p = .ok listing) ∧
        ∀ (workers : Int) (s : Schedule p.funcs.length),
          (∃ err, compile t₂ rs p workers s = .error err ∧ err.cause.kind ∈ Kind.ofCompile) ∨
          ∃ a t₃ text, compile t₂ rs p workers s = .ok (a, t₃) ∧ a.text? t₃ = some text) := by
  have hrules : Load.Loaded t _ (Load.rules rules t) := Load.loads_rules rules t
  generalize Load.rules rules t = r at hrules
  cases hrules with
  | error h => exact .inl ⟨_, rfl, h⟩
  | @ok rs t₁ _ hrs =>
    refine .inr ⟨rs, t₁, rfl, ?_⟩
    have hprogram : Load.Loaded t₁ _ (Load.program program t₁) := Load.loads_program program t₁
    generalize Load.program program t₁ = r at hprogram
    cases hprogram with
    | error h => exact .inl ⟨_, rfl, h⟩
    | @ok p t₂ ht hp =>
      -- the rules were loaded with the table as it was before the program
      replace hrs : ∀ r ∈ rs, Load.RuleLoaded t₂ r := Load.stable_ruleLoaded.forall_mem ht hrs
      exact .inr ⟨p, t₂, rfl, (failsOnlyWith_programText hp).exists_ok,
        fun workers s => compile_outcome hp hrs workers s⟩

end CodeTiling
