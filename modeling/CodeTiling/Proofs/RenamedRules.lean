import CodeTiling.Proofs.Renaming
import CodeTiling.Select.Engine

/-!
# Checking and matching do not depend on the numbers of names

The check of a rule compares names with each other and reads their texts, and nothing else. Rules
that are the same once names are read as texts are therefore refused with the same error or both
accepted. Matching only compares names, so it needs no more than a relation that pairs them off.

* `Rule.Related.check_eq`, `ofRules_same` : related rules come to the same in the check;
* `Pattern.Related.matchAt` : related patterns match related code with related bindings;
* `firstMatch_same` : so the first rule that matches is at the same place.
-/

namespace CodeTiling

open Relator (BiUnique rel_eq)
open Code (Operand Register)

section

variable {α β : Type} {S : α → β → Prop}

theorem forall₂_isEmpty {l : List α} {l' : List β} (h : List.Forall₂ S l l') :
    l.isEmpty = l'.isEmpty := by
  cases h <;> rfl

theorem optionRel_isNone {x : Option α} {y : Option β} (h : Option.Rel S x y) :
    x.isNone = y.isNone := by
  cases h <;> rfl

theorem optionRel_isSome {x : Option α} {y : Option β} (h : Option.Rel S x y) :
    x.isSome = y.isSome := by
  cases h <;> rfl

/-- Results that may be missing and are related go on to related ones. -/
theorem optionRel_bind {γ δ : Type} {S' : γ → δ → Prop} {x : Option α} {y : Option β}
    {f : α → Option γ} {g : β → Option δ} (h : Option.Rel S x y)
    (hfg : ∀ a b, S a b → Option.Rel S' (f a) (g b)) : Option.Rel S' (x.bind f) (y.bind g) := by
  cases h with
  | none => exact .none
  | some h => exact hfg _ _ h

end

/-! ### Related bindings -/

section

variable {R : Name → Name → Prop} (hR : BiUnique R)
include hR

/-- Names that are paired off have the same kind in related bindings. -/
theorem kindOf?_eq {bound bound' : List Binding} {n m : Name}
    (hbound : List.Forall₂ (Binding.Related R) bound bound') (hn : R n m) :
    kindOf? bound n = kindOf? bound' m := by
  induction hbound with
  | nil => rfl
  | @cons b c _ _ hbc _ ih =>
    have hname : b.name = n ↔ c.name = m := rel_eq hR hbc.name hn
    by_cases hb : b.name = n
    · simp [kindOf?, hb, hname.1 hb, hbc.kind]
    · have hc : ¬c.name = m := hname.not.1 hb
      simpa [kindOf?, hb, hc] using ih

theorem isListRef_eq {bound bound' : List Binding} {a b : Atom}
    (hbound : List.Forall₂ (Binding.Related R) bound bound') (h : a.Related R b) :
    isListRef bound a = isListRef bound' b := by
  cases h with
  | ref h => simp only [isListRef, kindOf?_eq hR hbound h]
  | _ => rfl

end

/-! ### The check -/

section

variable {t t' : NameTable}

theorem SameText.blame_eq {n m : Name} (h : SameText t t' n m) (cause : Text → Cause) :
    t.blame n cause = t'.blame m cause := by
  obtain ⟨s, hn, hm⟩ := h
  rw [NameTable.blame, NameTable.blame, hn, hm]

theorem SameText.read_eq {n m : Name} (h : SameText t t' n m) : t.read n = t'.read m := by
  obtain ⟨s, hn, hm⟩ := h
  rw [NameTable.read, NameTable.read, hn, hm]

theorem checkOp_eq {R : Name → Name → Prop} {x y : Option InstrPattern}
    (h : Option.Rel (InstrPattern.Related R) x y) : checkOp x = checkOp y := by
  cases h with
  | none => rfl
  | some h => cases h <;> rfl

theorem checkOps_eq {R : Name → Name → Prop} {ps qs : List (Option InstrPattern)}
    (h : List.Forall₂ (Option.Rel (InstrPattern.Related R)) ps qs) (i : Nat) :
    checkOps i ps = checkOps i qs := by
  induction h generalizing i with
  | nil => rfl
  | cons hpq _ ih => rw [checkOps, checkOps, checkOp_eq hpq, ih]

theorem bindElement_same {here here' : List Name} {bound bound' bs bs' : List Binding}
    (hhere : List.Forall₂ (SameText t t') here here')
    (hbound : List.Forall₂ (Binding.Related (SameText t t')) bound bound')
    (hbs : List.Forall₂ (Binding.Related (SameText t t')) bs bs') :
    SameOutcome (List.Forall₂ (Binding.Related (SameText t t'))) (bindElement t here bound bs)
      (bindElement t' here' bound' bs') := by
  induction hbs generalizing here here' bound bound' with
  | nil => exact .ok hbound
  | @cons b c _ _ hbc _ ih =>
    have hmem : b.name ∈ here ↔ c.name ∈ here' := List.rel_mem SameText.biUnique hbc.name hhere
    have hkind := kindOf?_eq SameText.biUnique hbound hbc.name
    rw [bindElement, bindElement]
    by_cases hb : b.name ∈ here
    · rw [if_pos hb, if_pos (hmem.1 hb), hbc.name.blame_eq]
      exact .error _
    · rw [if_neg hb, if_neg (hmem.not.1 hb), hkind]
      cases kindOf? bound' c.name with
      | none => exact ih (.cons hbc.name hhere) (List.rel_append hbound (.cons hbc .nil))
      | some k =>
        dsimp only
        rw [hbc.kind]
        split
        · exact ih (.cons hbc.name hhere) hbound
        · rw [hbc.name.blame_eq]
          exact .error _

theorem bindElements_same {bound bound' : List Binding} {es es' : List (List Binding)} (i : Nat)
    (hbound : List.Forall₂ (Binding.Related (SameText t t')) bound bound')
    (hes : List.Forall₂ (List.Forall₂ (Binding.Related (SameText t t'))) es es') :
    SameOutcome (List.Forall₂ (Binding.Related (SameText t t'))) (bindElements t i bound es)
      (bindElements t' i bound' es') := by
  induction hes generalizing i bound bound' with
  | nil => exact .ok hbound
  | cons he _ ih =>
    exact ((bindElement_same .nil hbound he).within _).bind fun _ _ hrest => ih (i + 1) hrest

theorem Pattern.Related.check {p q : Pattern} (h : p.Related (SameText t t') q) :
    SameOutcome (List.Forall₂ (Binding.Related (SameText t t'))) (p.check t) (q.check t') := by
  rw [Pattern.check, Pattern.check, forall₂_isEmpty h.code, optionRel_isNone h.last,
    checkOps_eq h.code]
  split
  · exact .error _
  · exact (SameOutcome.refl _).bind fun _ _ _ => bindElements_same 0 .nil h.elements

variable {bound bound' : List Binding}
  (hbound : List.Forall₂ (Binding.Related (SameText t t')) bound bound')
include hbound

theorem checkAtom_same {fresh fresh' : List Name} {a b : Atom}
    (hfresh : List.Forall₂ (SameText t t') fresh fresh') (h : a.Related (SameText t t') b) :
    SameOutcome (fun x y => x.1 = y.1 ∧ List.Forall₂ (SameText t t') x.2 y.2)
      (checkAtom t bound fresh a) (checkAtom t' bound' fresh' b) := by
  cases h with
  | machine r =>
    rw [checkAtom, checkAtom]
    split
    · exact .ok ⟨rfl, hfresh⟩
    · exact .error _
  | fresh h =>
    rw [checkAtom, checkAtom, kindOf?_eq SameText.biUnique hbound h]
    split
    · rw [h.blame_eq]
      exact .error _
    · exact .ok ⟨rfl, .cons h hfresh⟩
  | @ref n m h =>
    have hmem : n ∈ fresh ↔ m ∈ fresh' := List.rel_mem SameText.biUnique h hfresh
    rw [checkAtom, checkAtom, kindOf?_eq SameText.biUnique hbound h]
    by_cases hn : n ∈ fresh
    · rw [if_pos hn, if_pos (hmem.1 hn)]
      exact .ok ⟨rfl, hfresh⟩
    · rw [if_neg hn, if_neg (hmem.not.1 hn), h.blame_eq]
      split
      · exact .error _
      · exact .error _
      · exact .ok ⟨rfl, hfresh⟩
  | literal h => exact .ok ⟨rfl, hfresh⟩
  | label h =>
    rw [checkAtom, checkAtom, kindOf?_eq SameText.biUnique hbound h]
    split
    · exact .ok ⟨rfl, hfresh⟩
    · rw [h.blame_eq]
      exact .error _

theorem checkTerm_same (part : AddressPart) {fresh fresh' : List Name} {x y : Option AddressTerm}
    (hfresh : List.Forall₂ (SameText t t') fresh fresh')
    (h : Option.Rel (AddressTerm.Related (SameText t t')) x y) :
    SameOutcome (List.Forall₂ (SameText t t')) (checkTerm t bound part fresh x)
      (checkTerm t' bound' part fresh' y) := by
  cases h with
  | none => exact .ok hfresh
  | some h =>
    cases h with
    | nested => exact .error _
    | atom h =>
      rw [checkTerm, checkTerm, isListRef_eq SameText.biUnique hbound h]
      split
      · exact .error _
      · refine ((checkAtom_same hbound hfresh h).within _).bind fun c d hcd => ?_
        obtain ⟨isReg, rest⟩ := c
        obtain ⟨isReg', rest'⟩ := d
        obtain ⟨rfl, hrest⟩ := hcd
        dsimp only at hrest ⊢
        split
        · exact .ok hrest
        · exact .error _

theorem checkAddress_same {fresh fresh' : List Name} {m k : AddressTemplate}
    (hfresh : List.Forall₂ (SameText t t') fresh fresh') (h : m.Related (SameText t t') k) :
    SameOutcome (List.Forall₂ (SameText t t')) (checkAddress t bound fresh m)
      (checkAddress t' bound' fresh' k) := by
  rw [checkAddress, checkAddress, optionRel_isNone h.index, optionRel_isSome h.index, h.scale]
  split
  · exact .error _
  · split
    · exact .error _
    · exact (checkTerm_same hbound .base hfresh h.base).bind fun _ _ hrest =>
        checkTerm_same hbound .index hrest h.index

theorem checkOperand_same (alone : Bool) {fresh fresh' : List Name} {x y : Option TemplateOperand}
    (hfresh : List.Forall₂ (SameText t t') fresh fresh')
    (h : Option.Rel (TemplateOperand.Related (SameText t t')) x y) :
    SameOutcome (List.Forall₂ (SameText t t')) (checkOperand t bound alone fresh x)
      (checkOperand t' bound' alone fresh' y) := by
  have hatom : ∀ {a b : Atom}, a.Related (SameText t t') b →
      SameOutcome (List.Forall₂ (SameText t t')) ((checkAtom t bound fresh a).map Prod.snd)
        ((checkAtom t' bound' fresh' b).map Prod.snd) := fun {a b} hab => by
    have hsame := checkAtom_same hbound hfresh hab
    generalize checkAtom t bound fresh a = c, checkAtom t' bound' fresh' b = d at hsame
    cases hsame with
    | error err => exact .error err
    | ok h => exact .ok h.2
  cases h with
  | none => exact .error _
  | some h =>
    cases h with
    | indirect h => exact checkAddress_same hbound hfresh h
    | atom h =>
      cases h with
      | ref h =>
        rw [checkOperand, checkOperand, isListRef_eq SameText.biUnique hbound (.ref h)]
        split
        · rw [h.blame_eq]
          exact .error _
        · exact hatom (.ref h)
      | machine r => exact hatom (.machine r)
      | fresh h => exact hatom (.fresh h)
      | literal h => exact hatom (.literal h)
      | label h => exact hatom (.label h)

theorem checkOperands_same (mnemonic : Text) (alone : Bool) (j : Nat) {fresh fresh' : List Name}
    {as bs : List (Option TemplateOperand)}
    (hfresh : List.Forall₂ (SameText t t') fresh fresh')
    (h : List.Forall₂ (Option.Rel (TemplateOperand.Related (SameText t t'))) as bs) :
    SameOutcome (List.Forall₂ (SameText t t')) (checkOperands t bound mnemonic alone j fresh as)
      (checkOperands t' bound' mnemonic alone j fresh' bs) := by
  induction h generalizing j fresh fresh' with
  | nil => exact .ok hfresh
  | cons hab _ ih =>
    exact ((checkOperand_same hbound alone hfresh hab).within _).bind fun _ _ hrest =>
      ih (j + 1) hrest

theorem checkLine_same {fresh fresh' : List Name} {l k : TemplateLine}
    (hfresh : List.Forall₂ (SameText t t') fresh fresh') (h : l.Related (SameText t t') k) :
    SameOutcome (List.Forall₂ (SameText t t')) (checkLine t bound fresh l)
      (checkLine t' bound' fresh' k) := by
  rw [checkLine, checkLine, h.mnemonic.read_eq, h.args.length_eq]
  refine (SameOutcome.refl (t'.read k.mnemonic)).bind ?_
  rintro m _ rfl
  cases Mnemonic.ofText? m with
  | none => exact .error _
  | some _ => exact checkOperands_same hbound m _ 0 hfresh h.args

theorem checkLines_same (i : Nat) {fresh fresh' : List Name} {ls ks : List TemplateLine}
    (hfresh : List.Forall₂ (SameText t t') fresh fresh')
    (h : List.Forall₂ (TemplateLine.Related (SameText t t')) ls ks) :
    SameOutcome (· = ·) (checkLines t bound i fresh ls) (checkLines t' bound' i fresh' ks) := by
  induction h generalizing i fresh fresh' with
  | nil => exact .ok rfl
  | cons hlk _ ih =>
    exact ((checkLine_same hbound hfresh hlk).within _).bind fun _ _ hrest => ih (i + 1) hrest

omit hbound

/-- Related rules are refused with the same error or both accepted. -/
theorem Rule.Related.check_eq {r q : Rule} (h : r.Related (SameText t t') q) :
    r.check t = q.check t' :=
  SameOutcome.eq <| (h.pattern.check.within _).bind fun _ _ hbound =>
    checkLines_same hbound 0 .nil h.template

variable {rs qs : List Rule} (hrs : List.Forall₂ (Rule.Related (SameText t t')) rs qs)
include hrs

theorem checkRules_eq (i : Nat) : checkRules t i rs = checkRules t' i qs := by
  induction hrs generalizing i with
  | nil => rfl
  | cons h _ ih => rw [checkRules, checkRules, h.check_eq, h.name, ih]

/-- Related rules make related engines, or fail with the same error. -/
theorem ofRules_same :
    SameOutcome (fun e e' => e.rules = rs ∧ e'.rules = qs) (Engine.ofRules t rs)
      (Engine.ofRules t' qs) := by
  rw [Engine.ofRules, Engine.ofRules, checkRules_eq hrs]
  exact (SameOutcome.refl _).bind fun _ _ _ => .ok ⟨rfl, rfl⟩

end

/-! ### Registers and operands that are paired off -/

section

variable {R : Name → Name → Prop} (hR : BiUnique R)
include hR

theorem Code.Register.biUnique : BiUnique (Register.Related R) := by
  refine ⟨fun a b c ha hb => ?_, fun a b c hb hc => ?_⟩
  · cases ha with
    | none => cases hb; rfl
    | machine r => cases hb; rfl
    | virtual hn =>
      cases hb with
      | virtual hm => rw [hR.1 hn hm]
  · cases hb with
    | none => cases hc; rfl
    | machine r => cases hc; rfl
    | virtual hn =>
      cases hc with
      | virtual hm => rw [hR.2 hn hm]

theorem Code.Indirect.biUnique : BiUnique (Code.Indirect.Related R) := by
  have hreg := Register.biUnique hR
  refine ⟨fun a b c ha hb => ?_, fun a b c hb hc => ?_⟩
  · cases a; cases b
    obtain ⟨hsize, hbase, hindex, hscale, hdisp⟩ := ha
    obtain ⟨hsize', hbase', hindex', hscale', hdisp'⟩ := hb
    simp only at hsize hscale hdisp hsize' hscale' hdisp' hbase hindex hbase' hindex'
    rw [hsize, hsize', hscale, hscale', hdisp, hdisp', hreg.1 hbase hbase', hreg.1 hindex hindex']
  · cases b; cases c
    obtain ⟨hsize, hbase, hindex, hscale, hdisp⟩ := hb
    obtain ⟨hsize', hbase', hindex', hscale', hdisp'⟩ := hc
    simp only at hsize hscale hdisp hsize' hscale' hdisp' hbase hindex hbase' hindex'
    rw [← hsize, ← hsize', ← hscale, ← hscale', ← hdisp, ← hdisp', hreg.2 hbase hbase',
      hreg.2 hindex hindex']

theorem Code.Operand.biUnique : BiUnique (Operand.Related R) := by
  have hreg := Register.biUnique hR
  have hmem := Code.Indirect.biUnique hR
  refine ⟨fun a b c ha hb => ?_, fun a b c hb hc => ?_⟩
  · cases ha with
    | imm k => cases hb; rfl
    | addr h => cases hb with | addr h' => rw [hR.1 h h']
    | label h => cases hb with | label h' => rw [hR.1 h h']
    | reg h => cases hb with | reg h' => rw [hreg.1 h h']
    | slot h => cases hb with | slot h' => rw [hR.1 h h']
    | indirect h => cases hb with | indirect h' => rw [hmem.1 h h']
  · cases hb with
    | imm k => cases hc; rfl
    | addr h => cases hc with | addr h' => rw [hR.2 h h']
    | label h => cases hc with | label h' => rw [hR.2 h h']
    | reg h => cases hc with | reg h' => rw [hreg.2 h h']
    | slot h => cases hc with | slot h' => rw [hR.2 h h']
    | indirect h => cases hc with | indirect h' => rw [hmem.2 h h']

end

/-! ### Bindings of matches -/

section

variable {α β : Type}

/-- Entries of the same shape, with names that are related and contents that are. -/
def RelatedEntries (R : Name → Name → Prop) (S : α → β → Prop) :
    List (Name × α) → List (Name × β) → Prop :=
  List.Forall₂ fun p q => R p.1 q.1 ∧ S p.2 q.2

theorem RelatedEntries.lookup {R : Name → Name → Prop} {S : α → β → Prop}
    {l : List (Name × α)} {l' : List (Name × β)} {n m : Name} (h : RelatedEntries R S l l')
    (hR : BiUnique R) (hn : R n m) : Option.Rel S (l.lookup n) (l'.lookup m) := by
  induction h with
  | nil => exact .none
  | @cons p q _ _ hpq _ ih =>
    obtain ⟨k, x⟩ := p
    obtain ⟨k', y⟩ := q
    obtain ⟨hk, hxy⟩ := hpq
    have hkeys : n = k ↔ m = k' := rel_eq hR hn hk
    by_cases hnk : n = k
    · rw [List.lookup_cons, List.lookup_cons, beq_iff_eq.2 hnk, beq_iff_eq.2 (hkeys.1 hnk)]
      exact .some hxy
    · rw [List.lookup_cons, List.lookup_cons, beq_eq_false_iff_ne.2 hnk,
        beq_eq_false_iff_ne.2 (hkeys.not.1 hnk)]
      exact ih

end

section

variable (R : Name → Name → Prop)

/-- Equations that are the same but for related names. -/
inductive Equation.Related : Equation → Equation → Prop
  /-- Related names stand for related operands. -/
  | value {n m : Name} {a b : Operand} (name : R n m) (operand : a.Related R b) :
      Related (.value n a) (.value m b)
  /-- Related names stand for related argument lists. -/
  | list {n m : Name} {as bs : List Operand} (name : R n m)
      (operands : List.Forall₂ (Operand.Related R) as bs) : Related (.list n as) (.list m bs)

/-- Bindings that are the same but for related names. -/
structure Bindings.Related (b c : Bindings) : Prop where
  /-- The operands are related. -/
  values : RelatedEntries R (Operand.Related R) b.values c.values
  /-- The argument lists are. -/
  lists : RelatedEntries R (List.Forall₂ (Operand.Related R)) b.lists c.lists

end

section

variable {R : Name → Name → Prop}

theorem Ir.Value.Related.operandOf {v w : Ir.Value} (h : v.Related R w) :
    (CodeTiling.operandOf v).Related R (CodeTiling.operandOf w) := by
  cases h with
  | reg h => exact .reg (.virtual h)
  | imm k => exact .imm k

theorem OperandPattern.Related.equation? {p q : OperandPattern} {v w : Option Ir.Value}
    (h : p.Related R q) (hv : Option.Rel (Ir.Value.Related R) v w) :
    Option.Rel (Equation.Related R) (p.equation? v) (q.equation? w) := by
  cases hv with
  | none => cases h <;> exact .none
  | some hv =>
    cases hv with
    | reg hn =>
      cases h with
      | reg h => exact .some (.value h (.reg (.virtual hn)))
      | lit h => exact .none
    | imm k =>
      cases h with
      | reg h => exact .none
      | lit h => exact .some (.value h (.imm k))

theorem related_destination {n m d d' : Name} (hn : R n m) (hd : R d d') :
    (destination n d).Related R (destination m d') :=
  .value hn (.reg (.virtual hd))

/-- Related instructions have the shape of related patterns alike, and give related equations. -/
theorem InstrPattern.Related.equations? {p q : InstrPattern} {x y : Ir.Instr} (h : p.Related R q)
    (hx : x.Related R y) :
    Option.Rel (List.Forall₂ (Equation.Related R)) (p.equations? x) (q.equations? y) := by
  cases h with
  | binary op dst left right =>
    cases hx with
    | binary op' dst' left' right' =>
      rw [InstrPattern.equations?, InstrPattern.equations?]
      split
      · exact optionRel_bind (left.equation? left') fun _ _ hl =>
          optionRel_bind (right.equation? right') fun _ _ hr =>
            .some (.cons (related_destination dst dst') (.cons hl (.cons hr .nil)))
      · exact .none
    | _ => exact .none
  | unary op dst value =>
    cases hx with
    | unary op' dst' value' =>
      rw [InstrPattern.equations?, InstrPattern.equations?]
      split
      · exact optionRel_bind (value.equation? value') fun _ _ hv =>
          .some (.cons (related_destination dst dst') (.cons hv .nil))
      · exact .none
    | _ => exact .none
  | alloca dst =>
    cases hx with
    | alloca dst' => exact .some (.cons (related_destination dst dst') .nil)
    | _ => exact .none
  | load dst addr =>
    cases hx with
    | load dst' addr' =>
      exact optionRel_bind (addr.equation? addr') fun _ _ ha =>
        .some (.cons (related_destination dst dst') (.cons ha .nil))
    | _ => exact .none
  | store addr value =>
    cases hx with
    | store addr' value' =>
      exact optionRel_bind (addr.equation? addr') fun _ _ ha =>
        optionRel_bind (value.equation? value') fun _ _ hv => .some (.cons ha (.cons hv .nil))
    | _ => exact .none
  | call dst func list =>
    cases hx with
    | call dst' func' args =>
      refine .some (.cons (related_destination dst dst') (.cons (.value func (.addr func'))
        (.cons (.list list (List.rel_filterMap (fun v w hvw => ?_) args)) .nil)))
      cases hvw with
      | none => exact .none
      | some hvw => exact .some hvw.operandOf
    | _ => exact .none

theorem TermPattern.Related.equations? {p q : TermPattern} {x y : Ir.Terminator}
    (h : p.Related R q) (hx : x.Related R y) :
    Option.Rel (List.Forall₂ (Equation.Related R)) (p.equations? x) (q.equations? y) := by
  cases h with
  | ret value =>
    cases hx with
    | ret value' =>
      cases value with
      | none =>
        cases value' with
        | none => exact .some .nil
        | some _ => exact .none
      | some value =>
        cases value' with
        | none => exact .none
        | some value' =>
          exact optionRel_bind (value.equation? (.some value')) fun _ _ hv => .some (.cons hv .nil)
    | _ => cases value <;> exact .none
  | br cond onTrue onFalse =>
    cases hx with
    | br cond' onTrue' onFalse' =>
      exact optionRel_bind (cond.equation? cond') fun _ _ hc =>
        .some (.cons hc (.cons (.value onTrue (.label onTrue'))
          (.cons (.value onFalse (.label onFalse')) .nil)))
    | _ => exact .none
  | jmp target =>
    cases hx with
    | jmp target' => exact .some (.cons (.value target (.label target')) .nil)
    | _ => exact .none

theorem missesArgument_eq {p q : InstrPattern} {x y : Ir.Instr} (h : p.Related R q)
    (hx : x.Related R y) : missesArgument p x = missesArgument q y := by
  cases h with
  | call dst func list =>
    cases hx with
    | call dst' func' args =>
      simp only [missesArgument]
      induction args with
      | nil => rfl
      | cons hvw _ ih =>
        rw [List.any_cons, List.any_cons, ih]
        cases hvw <;> rfl
    | _ => rfl
  | _ => cases hx <;> rfl

variable (hR : BiUnique R) {b c : Bindings}
include hR

theorem Bindings.Related.value? (h : b.Related R c) {n m : Name} (hn : R n m) :
    Option.Rel (Operand.Related R) (b.value? n) (c.value? m) := h.values.lookup hR hn

theorem Bindings.Related.list? (h : b.Related R c) {n m : Name} (hn : R n m) :
    Option.Rel (List.Forall₂ (Operand.Related R)) (b.list? n) (c.list? m) := h.lists.lookup hR hn

/-- A name that is paired off stands for nothing on both sides, or an equation holds on both sides
or on neither. -/
theorem Bindings.Related.bind (h : b.Related R c) {e e' : Equation} (he : e.Related R e') :
    Option.Rel (Bindings.Related R) (b.bind e) (c.bind e') := by
  cases he with
  | @value n m x y hn hxy =>
    have hvalue := h.value? hR hn
    rw [Bindings.bind, Bindings.bind]
    generalize b.value? n = o, c.value? m = o' at hvalue
    cases hvalue with
    | none => exact .some ⟨List.rel_append h.values (.cons ⟨hn, hxy⟩ .nil), h.lists⟩
    | @some x' y' hxy' =>
      have heq : x' = x ↔ y' = y := rel_eq (Operand.biUnique hR) hxy' hxy
      dsimp only
      by_cases hx : x' = x
      · rw [if_pos hx, if_pos (heq.1 hx)]
        exact .some h
      · rw [if_neg hx, if_neg (heq.not.1 hx)]
        exact .none
  | @list n m xs ys hn hxs =>
    have hlist := h.list? hR hn
    rw [Bindings.bind, Bindings.bind]
    generalize b.list? n = o, c.list? m = o' at hlist
    cases hlist with
    | none => exact .some ⟨h.values, List.rel_append h.lists (.cons ⟨hn, hxs⟩ .nil)⟩
    | @some xs' ys' hxs' =>
      have heq : xs' = xs ↔ ys' = ys := rel_eq (Operand.biUnique hR).forall₂ hxs' hxs
      dsimp only
      by_cases hx : xs' = xs
      · rw [if_pos hx, if_pos (heq.1 hx)]
        exact .some h
      · rw [if_neg hx, if_neg (heq.not.1 hx)]
        exact .none

theorem Bindings.Related.solve (h : b.Related R c) {es es' : List Equation}
    (hes : List.Forall₂ (Equation.Related R) es es') :
    Option.Rel (Bindings.Related R) (b.solve es) (c.solve es') := by
  induction hes generalizing b c with
  | nil => exact .some h
  | cons he _ ih => exact optionRel_bind (h.bind hR he) fun _ _ h' => ih h'

theorem matchElement_same (h : b.Related R c) {p q : Option InstrPattern} {x y : Option Ir.Instr}
    (hp : Option.Rel (InstrPattern.Related R) p q) (hx : Option.Rel (Ir.Instr.Related R) x y) :
    SameOutcome (Option.Rel (Bindings.Related R)) (matchElement b p x) (matchElement c q y) := by
  cases hp with
  | none => exact .error _
  | some hp =>
    cases hx with
    | none => exact .ok .none
    | some hx =>
      rw [matchElement, matchElement, missesArgument_eq hp hx]
      split
      · exact .error _
      · exact .ok (optionRel_bind (hp.equations? hx) fun _ _ hes => h.solve hR hes)

theorem matchCode_same (h : b.Related R c) {ps qs : List (Option InstrPattern)}
    {xs ys : List (Option Ir.Instr)}
    (hps : List.Forall₂ (Option.Rel (InstrPattern.Related R)) ps qs)
    (hxs : List.Forall₂ (Option.Rel (Ir.Instr.Related R)) xs ys) :
    SameOutcome (Option.Rel (Bindings.Related R)) (matchCode b ps xs) (matchCode c qs ys) := by
  induction hps generalizing b c xs ys with
  | nil => exact .ok (.some h)
  | cons hp _ ih =>
    cases hxs with
    | nil => exact .ok .none
    | cons hx hxs =>
      refine (matchElement_same hR h hp hx).bind fun o o' ho => ?_
      cases ho with
      | none => exact .ok .none
      | some h' => exact ih h' hxs

/-- Related patterns match related code alike, and then with related bindings. -/
theorem Pattern.Related.matchAt {p q : Pattern} {xs ys : List (Option Ir.Instr)}
    {x y : Option Ir.Terminator} (h : p.Related R q)
    (hxs : List.Forall₂ (Option.Rel (Ir.Instr.Related R)) xs ys)
    (hx : Option.Rel (Ir.Terminator.Related R) x y) :
    SameOutcome (Option.Rel (Bindings.Related R)) (p.matchAt xs x) (q.matchAt ys y) := by
  have hempty : Bindings.Related R {} {} := ⟨.nil, .nil⟩
  have hlast := h.last
  unfold Pattern.matchAt
  rw [hxs.length_eq, h.code.length_eq]
  split
  · exact .ok .none
  · generalize p.last = l, q.last = l' at hlast ⊢
    cases hlast with
    | none => exact matchCode_same hR hempty h.code hxs
    | some hl =>
      cases hx with
      | none => exact .ok .none
      | some hx =>
        dsimp only
        split
        · exact .ok .none
        · refine (matchCode_same hR hempty h.code hxs).bind fun o o' ho => ?_
          cases ho with
          | none => exact .ok .none
          | some h' => exact .ok (optionRel_bind (hl.equations? hx) fun _ _ hes => h'.solve hR hes)

/-- The first of some rules that matches is at the same place in related rules. -/
theorem firstMatch_same {rs qs : List Rule} {xs ys : List (Option Ir.Instr)}
    {x y : Option Ir.Terminator} (hrs : List.Forall₂ (Rule.Related R) rs qs)
    (hxs : List.Forall₂ (Option.Rel (Ir.Instr.Related R)) xs ys)
    (hx : Option.Rel (Ir.Terminator.Related R) x y) :
    SameOutcome (Option.Rel fun u v => u.1.Related R v.1 ∧ u.2.Related R v.2)
      (firstMatch xs x rs) (firstMatch ys y qs) := by
  induction hrs with
  | nil => exact .ok .none
  | @cons r q _ _ hrq _ ih =>
    have hidle : r.isIdle = q.isIdle := by
      rw [Rule.isIdle, Rule.isIdle, forall₂_isEmpty hrq.pattern.code,
        optionRel_isNone hrq.pattern.last]
    refine (hrq.pattern.matchAt hR hxs hx).bind fun o o' ho => ?_
    cases ho with
    | none => exact ih
    | some h =>
      dsimp only
      rw [hidle]
      split
      · exact ih
      · exact .ok (.some ⟨hrq, h⟩)

end

end CodeTiling
