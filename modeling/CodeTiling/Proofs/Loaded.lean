import CodeTiling.Load.Program
import CodeTiling.Load.Rules
import CodeTiling.Proofs.Checked
import CodeTiling.Proofs.Hygiene

/-!
# What loading gives

Loading can fail for one kind of cause only, a fault of the document, and it only adds names to the
table. What it gives is made of names of the table that it leaves and has no gaps: `Ir.Func.IsFull`
says so of functions, `Rule.IsFull` of rules.

* `Loads` : what a run of the loader may come to, with a property of what it gives;
* `Loads.bind`, `Loads.each` : such properties go through a loader step by step and entry by entry;
* `loads_rules` : loaded rules are full and known to the table;
* `loads_program` : so are loaded programs.
-/

namespace CodeTiling

/-- The table has issued all of some names. -/
def NameTable.Knows (t : NameTable) (ns : List Name) : Prop := ∀ n ∈ ns, t.isIssued n = true

namespace NameTable.Knows

variable {t t' : NameTable} {ns ms : List Name}

theorem mono (ht : t ≤ t') (h : t.Knows ns) : t'.Knows ns :=
  fun n hn => isIssued_mono ht (h n hn)

theorem append (h : t.Knows ns) (h' : t.Knows ms) : t.Knows (ns ++ ms) :=
  List.forall_mem_append.2 ⟨h, h'⟩

theorem cons {n : Name} (hn : t.isIssued n = true) (h : t.Knows ns) : t.Knows (n :: ns) :=
  List.forall_mem_cons.2 ⟨hn, h⟩

theorem nil : t.Knows [] := by simp [Knows]

theorem flatMap {α : Type} {f : α → List Name} {l : List α} (h : ∀ a ∈ l, t.Knows (f a)) :
    t.Knows (l.flatMap f) := by
  intro n hn
  obtain ⟨a, ha, hna⟩ := List.mem_flatMap.1 hn
  exact h a ha n hna

end NameTable.Knows

/-! ### Programs and rules without gaps -/

namespace Ir

/-- No operand is missing. -/
def Instr.IsFull (x : Instr) : Prop := ∀ v ∈ x.operands, v.isSome = true

/-- The condition of a branch is there. -/
def Terminator.IsFull : Terminator → Prop
  | .br cond _ _ => cond.isSome = true
  | _ => True

/-- No value of a phi is missing. -/
def Phi.IsFull (p : Phi) : Prop := ∀ s ∈ p.sources, s.value.isSome = true

/-- No instruction and no value of a block is missing. A terminator may be. -/
structure Block.IsFull (b : Block) : Prop where
  /-- The phis are full. -/
  phis : ∀ p ∈ b.phis, p.IsFull
  /-- The instructions are there and full. -/
  code : ∀ x ∈ b.code, ∃ i, x = some i ∧ i.IsFull
  /-- The terminator is full. -/
  term : ∀ x, b.term = some x → x.IsFull

/-- The blocks of a function are full. -/
def Func.IsFull (f : Func) : Prop := ∀ b ∈ f.blocks, b.IsFull

theorem Instr.IsFull.isComplete {i : Instr} (h : i.IsFull) : i.IsComplete := by
  cases i with
  | call dst func args => exact h
  | _ => trivial

theorem Func.IsFull.isComplete {f : Func} (h : f.IsFull) : f.IsComplete := by
  intro b hb x hx
  obtain ⟨i, rfl, hi⟩ := (h b hb).code x hx
  exact ⟨i, rfl, hi.isComplete⟩

end Ir

/-- The register exists if it is one of the machine. -/
def Atom.IsFull : Atom → Prop
  | .machine r => r.isValid = true
  | _ => True

/-- A part of a memory operand that is there is no memory operand. -/
def termIsFull : Option AddressTerm → Prop
  | some (.atom a) => a.IsFull
  | some .nested => False
  | none => True

/-- The operand is there, and so is what it is made of. -/
def operandIsFull : Option TemplateOperand → Prop
  | some (.atom a) => a.IsFull
  | some (.indirect m) => termIsFull m.base ∧ termIsFull m.index
  | none => False

/-- No operand of a line is missing. -/
def TemplateLine.IsFull (l : TemplateLine) : Prop := ∀ o ∈ l.args, operandIsFull o

/-- No element of a pattern and no operand of a template is missing, and operations fit. -/
structure Rule.IsFull (r : Rule) : Prop where
  /-- The elements are there, with operations that fit. -/
  code : ∀ p ∈ r.pattern.code, ∃ q, p = some q ∧ checkOp (some q) = .ok ()
  /-- The operands are there. -/
  lines : ∀ l ∈ r.template, l.IsFull

theorem MachineReg.isValid_of_ofText? {s : Text} {r : MachineReg}
    (h : MachineReg.ofText? s = some r) : r.isValid = true := by
  obtain ⟨i, hi, rfl⟩ := Option.map_eq_some_iff.1 h
  obtain ⟨hlt, -⟩ := List.findIdx?_eq_some_iff_getElem.1 hi
  have hlen : texts.length = 16 := rfl
  have hmod : (UInt8.ofNat i).toNat = i := by
    rw [UInt8.toNat_ofNat']
    exact Nat.mod_eq_of_lt (by omega)
  simpa [isValid, hmod] using hlt

namespace Load

/-! ### Runs of the loader -/

/-- What a run of the loader from a table on may come to: something with a property in a table that
has grown, or an error for a fault of the document. -/
inductive Loaded {α : Type} (t : NameTable) (P : NameTable → α → Prop) :
    Except Error (α × NameTable) → Prop
  /-- Something is loaded. -/
  | ok {a : α} {t' : NameTable} (grown : t ≤ t') (loaded : P t' a) : Loaded t P (.ok (a, t'))
  /-- The document has a fault. -/
  | error {err : Error} (h : err.cause.kind = .badSyntax) : Loaded t P (.error err)

/-- From a table on, a computation loads something with a property or fails for a fault. -/
def Loads {α : Type} (t : NameTable) (P : NameTable → α → Prop) (x : LoadM α) : Prop :=
  Loaded t P (x t)

/-- A property of what is loaded is not lost when the table grows. -/
def Stable {α : Type} (P : NameTable → α → Prop) : Prop :=
  ∀ (t t' : NameTable) (a : α), t ≤ t' → P t a → P t' a

section

variable {α β γ : Type} {t : NameTable} {P : NameTable → α → Prop} {Q : NameTable → β → Prop}

theorem Stable.forall_mem {t' : NameTable} {l : List α} (hP : Stable P) (ht : t ≤ t')
    (h : ∀ a ∈ l, P t a) : ∀ a ∈ l, P t' a :=
  fun a ha => hP t t' a ht (h a ha)

theorem Loads.pure {a : α} (h : P t a) : Loads t P (Pure.pure a) := .ok (NameTable.le_refl t) h

theorem Loads.fault (f : SyntaxFault) : Loads t P (Load.fault f) := .error rfl

/-- What a run has loaded has the property. -/
theorem Loads.of_ok {x : LoadM α} {a : α} {t' : NameTable}
    (h : Loads t P x) (hx : x t = .ok (a, t')) : P t' a := by
  rw [Loads, hx] at h
  cases h with
  | ok _ loaded => exact loaded

theorem Loads.imp {P' : NameTable → α → Prop} {x : LoadM α} (hx : Loads t P x)
    (h : ∀ t' a, P t' a → P' t' a) : Loads t P' x := by
  rw [Loads] at hx ⊢
  generalize x t = r at hx
  cases hx with
  | error he => exact .error he
  | ok grown loaded => exact .ok grown (h _ _ loaded)

theorem Loads.bind {x : LoadM α} {f : α → LoadM β} (hx : Loads t P x)
    (hf : ∀ a t', t ≤ t' → P t' a → Loads t' Q (f a)) : Loads t Q (x >>= f) := by
  change Loaded t Q (x t >>= fun y => f y.1 y.2)
  rw [Loads] at hx
  generalize x t = r at hx
  cases hx with
  | error h => exact .error h
  | @ok a t' grown loaded =>
    have hrest : Loaded t' Q (f a t') := hf a t' grown loaded
    change Loaded t Q (f a t')
    generalize f a t' = r at hrest
    cases hrest with
    | error h => exact .error h
    | ok grown' loaded' => exact .ok (NameTable.le_trans grown grown') loaded'

theorem Loads.within {x : LoadM α} (p : Place) (hx : Loads t P x) :
    Loads t P (Load.within p x) := by
  change Loaded t P (Except.within p (x t))
  rw [Loads] at hx
  generalize x t = r at hx
  cases hx with
  | error h => exact .error h
  | ok grown loaded => exact .ok grown loaded

/-- The entries of a list are loaded one after another. -/
theorem Loads.each {place : Nat → γ → Place} {load : γ → LoadM α} (hP : Stable P)
    (h : ∀ x t, Loads t P (load x)) (xs : List γ) :
    Loads t (fun t' ys => ∀ y ∈ ys, P t' y) (Load.each place load xs) := by
  have hfrom : ∀ (i : Nat) (t : NameTable),
      Loads t (fun t' ys => ∀ y ∈ ys, P t' y) (eachFrom place load i xs) := by
    induction xs with
    | nil => exact fun i t => .pure (by simp)
    | cons x xs ih =>
      intro i t
      refine .bind (.within _ (h x t)) fun y t₁ _ hy => .bind (ih (i + 1) t₁) fun ys t₂ h₂ hys => ?_
      exact .pure (List.forall_mem_cons.2 ⟨hP _ _ _ h₂ hy, hys⟩)
  exact hfrom 0 t

theorem Loads.mapM {load : γ → LoadM α} (hP : Stable P) (h : ∀ x t, Loads t P (load x))
    (xs : List γ) : Loads t (fun t' ys => ∀ y ∈ ys, P t' y) (xs.mapM load) := by
  induction xs generalizing t with
  | nil => exact .pure (by simp)
  | cons x xs ih =>
    rw [List.mapM_cons]
    refine .bind (h x t) fun y t₁ _ hy => .bind ih fun ys t₂ h₂ hys => ?_
    exact .pure (List.forall_mem_cons.2 ⟨hP _ _ _ h₂ hy, hys⟩)

theorem Loads.mapM_forall₂ {R : γ → α → Prop} {load : γ → LoadM α}
    (h : ∀ x t, Loads t (fun _ y => R x y) (load x)) (xs : List γ) :
    Loads t (fun _ ys => List.Forall₂ R xs ys) (xs.mapM load) := by
  induction xs generalizing t with
  | nil => exact .pure .nil
  | cons x xs ih =>
    rw [List.mapM_cons]
    exact .bind (h x t) fun y t₁ _ hy => .bind ih fun ys t₂ _ hys => .pure (.cons hy hys)

theorem Loads.each_forall₂ {R : γ → α → Prop} {place : Nat → γ → Place} {load : γ → LoadM α}
    (h : ∀ x t, Loads t (fun _ y => R x y) (load x)) (xs : List γ) :
    Loads t (fun _ ys => List.Forall₂ R xs ys) (Load.each place load xs) := by
  have hfrom : ∀ (i : Nat) (t : NameTable),
      Loads t (fun _ ys => List.Forall₂ R xs ys) (eachFrom place load i xs) := by
    induction xs with
    | nil => exact fun i t => .pure .nil
    | cons x xs ih =>
      intro i t
      exact .bind (.within _ (h x t)) fun y t₁ _ hy =>
        .bind (ih (i + 1) t₁) fun ys t₂ _ hys => .pure (.cons hy hys)
  exact hfrom 0 t

theorem Loads.optionMapM {load : γ → LoadM α} (h : ∀ x t, Loads t P (load x)) (o : Option γ) :
    Loads t (fun t' y => ∀ a, y = some a → P t' a) (o.mapM load) := by
  cases o with
  | none => exact .pure (by simp)
  | some x =>
    change Loads t _ (some <$> load x)
    rw [map_eq_pure_bind]
    refine .bind (h x t) fun a t' _ ha => .pure ?_
    rintro b ⟨⟩
    exact ha

theorem Loads.foldlM {step : α → γ → LoadM α} (h : ∀ a x t, P t a → Loads t P (step a x)) {a : α}
    (ha : P t a) (xs : List γ) : Loads t P (xs.foldlM step a) := by
  induction xs generalizing a t with
  | nil => exact .pure ha
  | cons x xs ih =>
    rw [List.foldlM_cons]
    exact .bind (h a x t ha) fun b t' _ hb => ih hb

end

theorem loads_intern (t : NameTable) (s : Text) :
    Loads t (fun t' n => t'.isIssued n = true) (intern s) :=
  .ok (NameTable.le_intern t s) (NameTable.isIssued_iff.2 ⟨s, NameTable.text?_intern t s⟩)

theorem stable_isIssued : Stable fun t n => t.isIssued n = true :=
  fun _ _ _ => NameTable.isIssued_mono

theorem loads_opOf (t : NameTable) (s : Text) :
    Loads t (fun _ op => Op.ofText? s = some op) (opOf s) := by
  unfold opOf
  split
  · rename_i op hop
    exact .pure hop
  · exact .fault _

/-! ### Rules -/

theorem loads_operandPattern (s : Text) (t : NameTable) :
    Loads t (fun t' p => t'.isIssued p.binding.name = true) (operandPattern s) := by
  unfold operandPattern
  split
  · exact .bind (loads_intern ..) fun n t' _ hn => .pure hn
  · exact .bind (loads_intern ..) fun n t' _ hn => .pure hn

/-- A loaded pattern fits its operation, and its names are the destination and the operands. -/
theorem instrPattern?_some {op : Op} {dst : Name} {args : List OperandPattern} {q : InstrPattern}
    (h : instrPattern? op dst args = some q) :
    checkOp (some q) = .ok () ∧
      ∀ n ∈ q.bindings.map (·.name), n = dst ∨ ∃ a ∈ args, n = a.binding.name := by
  unfold instrPattern? at h
  split_ifs at h <;> split at h <;> simp only [reduceCtorEq, Option.some.injEq] at h <;> subst h <;>
    simp_all [checkOp, InstrPattern.bindings]

/-- What is loaded for an instruction of a pattern. -/
def PatternLoaded (t : NameTable) (p : Option InstrPattern) : Prop :=
  ∃ q, p = some q ∧ checkOp (some q) = .ok () ∧ t.Knows (q.bindings.map (·.name))

theorem stable_patternLoaded : Stable PatternLoaded := by
  rintro t t' p ht ⟨q, rfl, hop, hnames⟩
  exact ⟨q, rfl, hop, hnames.mono ht⟩

theorem loads_instrPattern (d : Document.Pattern) (t : NameTable) :
    Loads t PatternLoaded (instrPattern d) := by
  have hstable : Stable fun t (p : OperandPattern) => t.isIssued p.binding.name = true :=
    fun _ _ _ => NameTable.isIssued_mono
  refine .bind (loads_opOf ..) fun op t₁ _ _ => ?_
  refine .bind (loads_intern ..) fun dst t₂ _ hdst => ?_
  refine .bind (.mapM hstable loads_operandPattern d.args) fun args t₃ h₃ hargs => ?_
  replace hdst := NameTable.isIssued_mono h₃ hdst
  split
  · refine .bind (loads_intern ..) fun func t₄ h₄ hfunc => ?_
    refine .bind (loads_intern ..) fun list t₅ h₅ hlist => .pure ⟨_, rfl, rfl, ?_⟩
    have hdst' := NameTable.isIssued_mono (NameTable.le_trans h₄ h₅) hdst
    have hfunc' := NameTable.isIssued_mono h₅ hfunc
    exact .cons hdst' (.cons hfunc' (.cons hlist .nil))
  · split
    · rename_i q hq
      obtain ⟨hop, hnames⟩ := instrPattern?_some hq
      refine .pure ⟨q, rfl, hop, fun n hn => ?_⟩
      rcases hnames n hn with rfl | ⟨a, ha, rfl⟩
      · exact hdst
      · exact hargs a ha
    · exact .fault _

theorem loads_termPattern (d : Document.Pattern) (t : NameTable) :
    Loads t (fun t' p => t'.Knows (p.bindings.map (·.name))) (termPattern d) := by
  unfold termPattern
  split
  · split
    · exact .pure .nil
    · exact .bind (loads_operandPattern ..) fun a t' _ ha => .pure (.cons ha .nil)
    · exact .fault _
  split
  · split
    · refine .bind (loads_operandPattern ..) fun c t₁ _ hc => ?_
      refine .bind (loads_intern ..) fun a t₂ h₂ ha => ?_
      refine .bind (loads_intern ..) fun b t₃ h₃ hb => .pure ?_
      have hc' := NameTable.isIssued_mono (NameTable.le_trans h₂ h₃) hc
      have ha' := NameTable.isIssued_mono h₃ ha
      exact .cons hc' (.cons ha' (.cons hb .nil))
    · exact .fault _
  split
  · split
    · exact .bind (loads_intern ..) fun l t' _ hl => .pure (.cons hl .nil)
    · exact .fault _
  · exact .fault _

/-- What is loaded for an operand without parts. -/
def AtomLoaded (t : NameTable) (a : Atom) : Prop := a.IsFull ∧ t.Knows a.names

theorem loads_atom (s : Text) (t : NameTable) : Loads t AtomLoaded (atom s) := by
  unfold atom
  split
  · exact .bind (loads_intern ..) fun n t' _ hn => .pure ⟨trivial, .cons hn .nil⟩
  · exact .bind (loads_intern ..) fun n t' _ hn => .pure ⟨trivial, .cons hn .nil⟩
  · exact .bind (loads_intern ..) fun n t' _ hn => .pure ⟨trivial, .cons hn .nil⟩
  · rename_i r hr _ _ _
    exact .pure ⟨MachineReg.isValid_of_ofText? hr, .nil⟩
  · exact .bind (loads_intern ..) fun n t' _ hn => .pure ⟨trivial, .cons hn .nil⟩

/-- What is loaded for a part of a memory operand. -/
def TermLoaded (t : NameTable) (o : Option AddressTerm) : Prop :=
  termIsFull o ∧ t.Knows ((termAtoms o).flatMap Atom.names)

theorem TermLoaded.mono {t t' : NameTable} {o : Option AddressTerm} (ht : t ≤ t')
    (h : TermLoaded t o) : TermLoaded t' o := ⟨h.1, h.2.mono ht⟩

theorem loads_addressTerm (part : AddressPart) (v : Yaml.Value) (t : NameTable) :
    Loads t (fun t' a => TermLoaded t' (some a)) (addressTerm part v) := by
  unfold addressTerm
  split
  · refine .bind (loads_atom ..) fun a t' _ ha => .pure ⟨ha.1, ?_⟩
    simpa [termAtoms] using ha.2
  · exact .fault _

/-- What is loaded for a memory operand. -/
structure AddressLoaded (t : NameTable) (m : AddressTemplate) : Prop where
  /-- The base is loaded. -/
  base : TermLoaded t m.base
  /-- The index is loaded. -/
  index : TermLoaded t m.index

theorem loads_sizeOf (v : Yaml.Value) (t : NameTable) : Loads t (fun _ _ => True) (sizeOf v) := by
  unfold sizeOf
  extract_lets s
  split
  · exact .pure trivial
  · exact .fault _

theorem loads_scaleOf (v : Yaml.Value) (t : NameTable) :
    Loads t (fun _ _ => True) (scaleOf v) := by
  unfold scaleOf
  split
  · split
    · exact .pure trivial
    · exact .fault _
  · exact .fault _

theorem loads_dispOf (v : Yaml.Value) (t : NameTable) : Loads t (fun _ _ => True) (dispOf v) := by
  unfold dispOf
  split
  · split
    · exact .pure trivial
    · exact .fault _
  · exact .fault _

/-- One field of a memory operand more. -/
theorem loads_addressField {m : AddressTemplate} (name : Text) (v : Yaml.Value) {t : NameTable}
    (hm : AddressLoaded t m) : Loads t AddressLoaded (addressField m name v) := by
  unfold addressField
  split
  · exact .bind (loads_sizeOf ..) fun _ t' h _ => .pure ⟨hm.base.mono h, hm.index.mono h⟩
  split
  · exact .bind (loads_addressTerm ..) fun a t' h ha => .pure ⟨ha, hm.index.mono h⟩
  split
  · exact .bind (loads_addressTerm ..) fun a t' h ha => .pure ⟨hm.base.mono h, ha⟩
  split
  · exact .bind (loads_scaleOf ..) fun _ t' h _ => .pure ⟨hm.base.mono h, hm.index.mono h⟩
  split
  · exact .bind (loads_dispOf ..) fun _ t' h _ => .pure ⟨hm.base.mono h, hm.index.mono h⟩
  · exact .fault _

/-- What is loaded for an operand of a template. -/
def OperandLoaded (t : NameTable) (o : Option TemplateOperand) : Prop :=
  operandIsFull o ∧ t.Knows ((operandAtoms o).flatMap Atom.names)

theorem stable_operandLoaded : Stable OperandLoaded := fun _ _ _ ht h => ⟨h.1, h.2.mono ht⟩

theorem loads_templateOperand (v : Yaml.Value) (t : NameTable) :
    Loads t OperandLoaded (templateOperand v) := by
  unfold templateOperand
  split
  · refine .bind (loads_atom ..) fun a t' _ ha => .pure ⟨ha.1, ?_⟩
    simpa [operandAtoms] using ha.2
  · exact .bind (loads_intern ..) fun n t' _ hn => .pure ⟨trivial, .cons hn .nil⟩
  · have hempty : AddressLoaded t {} := ⟨⟨trivial, .nil⟩, ⟨trivial, .nil⟩⟩
    refine .bind (.foldlM (P := AddressLoaded)
      (fun m field t hm => loads_addressField field.1 field.2 hm) hempty _) fun m t' _ hm => ?_
    refine .pure ⟨⟨hm.base.1, hm.index.1⟩, ?_⟩
    rw [operandAtoms, List.flatMap_append]
    exact hm.base.2.append hm.index.2
  · exact .fault _

/-- What is loaded for a line of a template. -/
structure LineLoaded (t : NameTable) (l : TemplateLine) : Prop where
  /-- The mnemonic is known. -/
  mnemonic : t.isIssued l.mnemonic = true
  /-- The operands are loaded. -/
  operands : ∀ o ∈ l.args, OperandLoaded t o

theorem stable_lineLoaded : Stable LineLoaded := fun _ _ _ ht h =>
  ⟨NameTable.isIssued_mono ht h.mnemonic, stable_operandLoaded.forall_mem ht h.operands⟩

theorem loads_templateLine (vs : List Yaml.Value) (t : NameTable) :
    Loads t LineLoaded (templateLine vs) := by
  unfold templateLine
  split
  · exact .fault _
  · refine .bind (loads_intern ..) fun m t₁ _ hm => ?_
    refine .bind (.each stable_operandLoaded loads_templateOperand _) fun args t₂ h₂ hargs => ?_
    exact .pure ⟨NameTable.isIssued_mono h₂ hm, hargs⟩
  · exact .fault _

/-- What is loaded for a rule. -/
def RuleLoaded (t : NameTable) (r : Rule) : Prop := r.IsFull ∧ t.Knows r.names

theorem stable_ruleLoaded : Stable RuleLoaded := fun _ _ _ ht h => ⟨h.1, h.2.mono ht⟩

theorem loads_rule (d : Document.Rule) (t : NameTable) : Loads t RuleLoaded (rule d) := by
  refine .bind (.each stable_patternLoaded loads_instrPattern d.code) fun code t₁ _ hcode => ?_
  refine .bind (.optionMapM (fun p t => .within _ (loads_termPattern p t)) d.last)
    fun last t₂ h₂ hlast => ?_
  refine .bind (.each stable_lineLoaded loads_templateLine d.lines) fun lines t₃ h₃ hlines => ?_
  -- the names of the pattern, then the mnemonics, then the operands
  have hcodeNames :
      t₃.Knows ((code.map (·.elim [] InstrPattern.bindings)).flatten.map (·.name)) := by
    intro n hn
    obtain ⟨b, hb, rfl⟩ := List.mem_map.1 hn
    obtain ⟨bs, hbs, hbbs⟩ := List.mem_flatten.1 hb
    obtain ⟨p, hp, rfl⟩ := List.mem_map.1 hbs
    obtain ⟨q, rfl, -, hnames⟩ := hcode p hp
    exact NameTable.isIssued_mono (NameTable.le_trans h₂ h₃) (hnames _ (List.mem_map_of_mem hbbs))
  have hlastNames : t₃.Knows ((last.toList.map TermPattern.bindings).flatten.map (·.name)) := by
    intro n hn
    obtain ⟨b, hb, rfl⟩ := List.mem_map.1 hn
    obtain ⟨bs, hbs, hbbs⟩ := List.mem_flatten.1 hb
    obtain ⟨p, hp, rfl⟩ := List.mem_map.1 hbs
    exact NameTable.isIssued_mono h₃
      (hlast p (Option.mem_toList.1 hp) _ (List.mem_map_of_mem hbbs))
  have hmnemonics : t₃.Knows (lines.map (·.mnemonic)) := by
    intro n hn
    obtain ⟨l, hl, rfl⟩ := List.mem_map.1 hn
    exact (hlines l hl).mnemonic
  have hatoms : t₃.Knows ((lines.flatMap TemplateLine.atoms).flatMap Atom.names) := by
    refine .flatMap fun a ha n hn => ?_
    obtain ⟨l, hl, hal⟩ := List.mem_flatMap.1 ha
    obtain ⟨o, ho, hao⟩ := List.mem_flatMap.1 hal
    exact ((hlines l hl).operands o ho).2 n (List.mem_flatMap.2 ⟨a, hao, hn⟩)
  refine .pure ⟨⟨fun p hp => ?_, fun l hl o ho => ((hlines l hl).operands o ho).1⟩, ?_⟩
  · obtain ⟨q, rfl, hop, -⟩ := hcode p hp
    exact ⟨q, rfl, hop⟩
  · refine .append (.append ?_ hmnemonics) hatoms
    rw [Pattern.elements, List.flatten_append, List.map_append]
    exact hcodeNames.append hlastNames

/-- Loaded rules are full, and the table knows their names. -/
theorem loads_rules (l : List Document.Rule) (t : NameTable) :
    Loads t (fun t' rs => ∀ r ∈ rs, RuleLoaded t' r) (rules l) :=
  .each stable_ruleLoaded loads_rule l

/-! ### Programs -/

/-- What is loaded for an operand. -/
def ValueLoaded (t : NameTable) (v : Option Ir.Value) : Prop :=
  v.isSome = true ∧ t.Knows (Ir.valueNames v)

theorem stable_valueLoaded : Stable ValueLoaded := fun _ _ _ ht h => ⟨h.1, h.2.mono ht⟩

theorem loads_value (v : Yaml.Value) (t : NameTable) :
    Loads t (fun t' x => ValueLoaded t' (some x)) (value v) := by
  unfold value
  split
  · exact .pure ⟨rfl, .nil⟩
  · exact .bind (loads_intern ..) fun n t' _ hn => .pure ⟨rfl, .cons hn .nil⟩
  · exact .fault _

theorem loads_operands (l : List Yaml.Value) (t : NameTable) :
    Loads t (fun t' args => ∀ v ∈ args, ValueLoaded t' v) (operands l) :=
  .each stable_valueLoaded (fun v t => .bind (loads_value v t) fun _ _ _ hx => .pure hx) l

theorem knows_of_valuesLoaded {t : NameTable} {args : List (Option Ir.Value)}
    (h : ∀ v ∈ args, ValueLoaded t v) : t.Knows (args.flatMap Ir.valueNames) :=
  .flatMap fun v hv => (h v hv).2

/-- The operands of an instruction are those that it is made of, and it names its destination. -/
theorem instr?_some {op : Op} {dst : Name} {args : List (Option Ir.Value)} {i : Ir.Instr}
    (h : instr? op dst args = some i) : i.operands = args ∧ ∀ n ∈ i.ownNames, n = dst := by
  unfold instr? at h
  split_ifs at h <;> split at h <;> simp only [reduceCtorEq, Option.some.injEq] at h <;> subst h <;>
    simp [Ir.Instr.operands, Ir.Instr.ownNames]

/-- What is loaded for an instruction. -/
def InstrLoaded (t : NameTable) (x : Option Ir.Instr) : Prop :=
  ∃ i, x = some i ∧ i.IsFull ∧ t.Knows i.names

theorem stable_instrLoaded : Stable InstrLoaded := by
  rintro t t' x ht ⟨i, rfl, hfull, hnames⟩
  exact ⟨i, rfl, hfull, hnames.mono ht⟩

theorem loads_instr (d : Document.Instr) (t : NameTable) : Loads t InstrLoaded (instr d) := by
  refine .bind (loads_opOf ..) fun op t₁ _ _ => ?_
  refine .bind (loads_operands ..) fun args t₂ _ hargs => ?_
  refine .bind (loads_intern ..) fun dst t₃ h₃ hdst => ?_
  replace hargs := stable_valueLoaded.forall_mem h₃ hargs
  split
  · refine .bind (loads_intern ..) fun func t₄ h₄ hfunc => .pure ⟨_, rfl, ?_, ?_⟩
    · exact fun v hv => (hargs v hv).1
    · have hdst' := NameTable.isIssued_mono h₄ hdst
      exact .cons hdst' (.cons hfunc ((knows_of_valuesLoaded hargs).mono h₄))
  · split
    · rename_i i hi
      obtain ⟨hoperands, hown⟩ := instr?_some hi
      refine .pure ⟨i, rfl, fun v hv => (hargs v (hoperands ▸ hv)).1, ?_⟩
      refine .append (fun n hn => hown n hn ▸ hdst) ?_
      rw [hoperands]
      exact knows_of_valuesLoaded hargs
    · exact .fault _

theorem terminator?_ok {t : NameTable} {op : Text} {args : List (Option Ir.Value)}
    {labels : List Name} {x : Ir.Terminator} (h : terminator? op args labels = .ok x)
    (hargs : ∀ v ∈ args, ValueLoaded t v) (hlabels : t.Knows labels) :
    x.IsFull ∧ t.Knows x.names := by
  unfold terminator? at h
  split at h
  · split at h <;> simp only [reduceCtorEq, Except.ok.injEq] at h
    · subst h
      exact ⟨trivial, .nil⟩
    · subst h
      exact ⟨trivial, (hargs _ List.mem_cons_self).2⟩
  split at h
  · split at h <;> simp only [reduceCtorEq, Except.ok.injEq] at h
    subst h
    exact ⟨(hargs _ List.mem_cons_self).1, .append (hargs _ List.mem_cons_self).2 hlabels⟩
  split at h
  · split at h <;> simp only [reduceCtorEq, Except.ok.injEq] at h
    subst h
    exact ⟨trivial, hlabels⟩
  · cases h

/-- What is loaded for a terminator. -/
def TerminatorLoaded (t : NameTable) (x : Ir.Terminator) : Prop := x.IsFull ∧ t.Knows x.names

theorem loads_terminator (d : Document.Instr) (t : NameTable) :
    Loads t TerminatorLoaded (terminator d) := by
  refine .bind (loads_operands ..) fun args t₁ _ hargs => ?_
  refine .bind (.mapM stable_isIssued (fun s t => loads_intern t s) d.labels)
    fun labels t₂ h₂ hlabels => ?_
  replace hargs := stable_valueLoaded.forall_mem h₂ hargs
  split
  · rename_i x hx
    exact .pure (terminator?_ok hx hargs hlabels)
  · exact .fault _

/-- What is loaded for a phi. -/
def PhiLoaded (t : NameTable) (p : Ir.Phi) : Prop := p.IsFull ∧ t.Knows p.names

theorem loads_phiSource (d : Document.PhiSource) (t : NameTable) :
    Loads t (fun t' s => t'.isIssued s.block = true ∧ ValueLoaded t' s.value) (phiSource d) :=
  .bind (loads_value ..) fun _ _ _ hv => .bind (loads_intern ..) fun _ _ h hb =>
    .pure ⟨hb, stable_valueLoaded _ _ _ h hv⟩

theorem loads_phi (d : Document.Phi) (t : NameTable) : Loads t PhiLoaded (phi d) := by
  have hstable : Stable fun t (s : Ir.PhiSource) =>
      t.isIssued s.block = true ∧ ValueLoaded t s.value := fun _ _ _ ht h =>
    ⟨NameTable.isIssued_mono ht h.1, stable_valueLoaded _ _ _ ht h.2⟩
  refine .bind (loads_intern ..) fun dst t₁ _ hdst => ?_
  refine .bind (.mapM hstable loads_phiSource d.sources) fun sources t₂ h₂ hsources => ?_
  refine .pure ⟨?_, ?_⟩
  · exact fun s hs => (hsources s hs).2.1
  · exact .cons (NameTable.isIssued_mono h₂ hdst)
      (.flatMap fun s hs => .cons (hsources s hs).1 (hsources s hs).2.2)

/-- What is loaded for a block. -/
def BlockLoaded (t : NameTable) (b : Ir.Block) : Prop := b.IsFull ∧ t.Knows b.names

theorem loads_block (d : Document.Block) (t : NameTable) : Loads t BlockLoaded (block d) := by
  have hstable : Stable PhiLoaded := fun _ _ _ ht h => ⟨h.1, h.2.mono ht⟩
  refine .bind (loads_intern ..) fun label t₁ _ hlabel => ?_
  refine .bind (.each hstable loads_phi d.phis) fun phis t₂ h₂ hphis => ?_
  refine .bind (.each stable_instrLoaded loads_instr d.code) fun code t₃ h₃ hcode => ?_
  refine .bind (.optionMapM (fun x t => .within _ (loads_terminator x t)) d.term)
    fun term t₄ h₄ hterm => ?_
  have h₂₄ := NameTable.le_trans h₃ h₄
  have hlabel' : t₄.isIssued label = true :=
    NameTable.isIssued_mono (NameTable.le_trans h₂ h₂₄) hlabel
  have hcodeNames : t₄.Knows (code.flatMap (·.elim [] Ir.Instr.names)) := by
    refine .flatMap fun x hx => ?_
    obtain ⟨i, rfl, -, hnames⟩ := hcode x hx
    exact hnames.mono h₄
  have htermNames : t₄.Knows (term.elim [] Ir.Terminator.names) := by
    cases term with
    | none => exact .nil
    | some x => exact (hterm x rfl).2
  refine .pure ⟨⟨fun p hp => (hphis p hp).1, fun x hx => ?_, fun x hx => (hterm x hx).1⟩, ?_⟩
  · obtain ⟨i, rfl, hfull, -⟩ := hcode x hx
    exact ⟨i, rfl, hfull⟩
  · have hphiNames : t₄.Knows (phis.flatMap Ir.Phi.names) :=
      .flatMap fun p hp => (hphis p hp).2.mono h₂₄
    exact .append (.append (.cons hlabel' hphiNames) hcodeNames) htermNames

/-- What is loaded for a function. -/
def FuncLoaded (t : NameTable) (f : Ir.Func) : Prop := f.IsFull ∧ t.Knows f.names

theorem stable_funcLoaded : Stable FuncLoaded := fun _ _ _ ht h => ⟨h.1, h.2.mono ht⟩

theorem loads_func (d : Document.Func) (t : NameTable) : Loads t FuncLoaded (func d) := by
  have hstable : Stable BlockLoaded := fun _ _ _ ht h => ⟨h.1, h.2.mono ht⟩
  refine .bind (loads_intern ..) fun name t₁ _ hname => ?_
  refine .bind (.mapM stable_isIssued (fun s t => loads_intern t s) d.args)
    fun args t₂ h₂ hargs => ?_
  refine .bind (.each hstable loads_block d.blocks) fun blocks t₃ h₃ hblocks => ?_
  have hname' := NameTable.isIssued_mono (NameTable.le_trans h₂ h₃) hname
  have hargs' : t₃.Knows args := NameTable.Knows.mono h₃ hargs
  refine .pure ⟨fun b hb => (hblocks b hb).1, ?_⟩
  exact .append (.cons hname' hargs') (.flatMap fun b hb => (hblocks b hb).2)

/-- Loaded programs are full, and the table knows their names. -/
theorem loads_program (d : Document.Program) (t : NameTable) :
    Loads t (fun t' p => ∀ f ∈ p.funcs, FuncLoaded t' f) (program d) :=
  .bind (.each stable_funcLoaded loads_func d.funcs) fun _ _ _ hfuncs => .pure hfuncs

end Load

end CodeTiling
