import CodeTiling.Code.Text
import CodeTiling.Proofs.Pieces

/-!
# The text of an instruction determines it

The operands of an instruction are in normal form (`Operand.IsNormal`) when no part of them is
without effect on the text: registers and sizes exist, there is no scale without an index, and names
are words. A symbol and a label of one name are written alike, and so would be a symbol that has the
name of a machine register. But for these, an instruction can be read off its text.

* `Operand.text_eq`, `Instruction.text?_eq` : operands and instructions in pieces;
* `separable_register`, `separable_sumTerm`, `separable_indirect`, `separable_operand` : the pieces
  determine each of these, given what may follow it;
* `Instruction.unambiguous` : the text determines the mnemonic and the operands.
-/

namespace CodeTiling

open Piece (spell Legible Separable Ends separated)

/-! ### Words of the machine -/

theorem MachineReg.text_mem {r : MachineReg} (h : r.isValid = true) : r.text ∈ texts :=
  getD_mem (of_decide_eq_true h) _

theorem MachineReg.isWord_text {r : MachineReg} (h : r.isValid = true) : r.text.isWord = true := by
  have hall : ∀ s ∈ texts, s.isWord = true := by decide
  exact hall _ (text_mem h)

theorem MachineReg.text_inj {r q : MachineReg} (hr : r.isValid = true) (hq : q.isValid = true)
    (h : r.text = q.text) : r = q := by
  have hcode := eq_of_getD_eq (by decide) (of_decide_eq_true hr) (of_decide_eq_true hq) h
  exact congrArg MachineReg.mk (UInt8.toNat_inj.1 hcode)

/-- A size that is said has a word. -/
theorem Size.isWord_text {x : Size} (h : x.isValid = true) (hx : x ≠ .unspecified) :
    x.text.isWord = true := by
  have hall : ∀ i : Fin texts.length, i.val ≠ 0 → (texts.getD i "size?").isWord = true := by decide
  refine hall ⟨x.code.toNat, of_decide_eq_true h⟩ fun hzero => hx ?_
  exact congrArg Size.mk (UInt8.toNat_inj.1 hzero)

theorem Size.text_inj {x y : Size} (hx : x.isValid = true) (hy : y.isValid = true)
    (h : x.text = y.text) : x = y := by
  have hcode := eq_of_getD_eq (by decide) (of_decide_eq_true hx) (of_decide_eq_true hy) h
  exact congrArg Size.mk (UInt8.toNat_inj.1 hcode)

theorem Mnemonic.lt_of_isValid {m : Mnemonic} (h : m.isValid = true) :
    m.code.toNat < texts.length := by
  simp only [isValid, Bool.and_eq_true, decide_eq_true_eq] at h
  exact h.2

theorem Mnemonic.isWord_text {m : Mnemonic} (h : m.isValid = true) : m.text.isWord = true := by
  have hall : ∀ s ∈ texts, s.isWord = true := by decide
  exact hall _ (getD_mem (lt_of_isValid h) _)

theorem Mnemonic.text_inj {m k : Mnemonic} (hm : m.isValid = true) (hk : k.isValid = true)
    (h : m.text = k.text) : m = k := by
  have hcode := eq_of_getD_eq (by decide) (lt_of_isValid hm) (lt_of_isValid hk) h
  exact congrArg Mnemonic.mk (UInt8.toNat_inj.1 hcode)

namespace Code

/-! ### Normal forms -/

section

variable (t : NameTable)

/-- A register of the machine that exists, or one whose name is a word. -/
def Register.IsNormal : Register → Prop
  | none => False
  | machine r => r.isValid = true
  | virtual n => t.HasWord n

/-- The size exists, and so do the registers as far as there are any. Without an index there is no
scale. -/
structure Indirect.IsNormal (m : Indirect) : Prop where
  /-- The size. -/
  size : m.size.isValid = true
  /-- The base. -/
  base : m.base = .none ∨ m.base.IsNormal t
  /-- The index and the scale. -/
  index : m.index = .none ∧ m.scale = 0 ∨ m.index.IsNormal t

/-- The name of a symbol is a word and no name of a machine register. -/
def IsSymbol (n : Name) : Prop := t.HasWord n ∧ t.text n ∉ MachineReg.texts

/-- The parts of an operand are in normal form. -/
def Operand.IsNormal : Operand → Prop
  | imm _ => True
  | addr n => IsSymbol t n
  | label n => IsSymbol t n
  | reg r => r.IsNormal t
  | slot n => t.HasWord n
  | indirect m => m.IsNormal t

/-- The mnemonic is valid, and the operands are there and in normal form. -/
structure Instruction.IsNormal (i : Instruction) : Prop where
  /-- The mnemonic. -/
  mnemonic : i.mnemonic.isValid = true
  /-- The operands. -/
  args : ∀ a ∈ i.args, ∃ x, a = some x ∧ x.IsNormal t

end

/-- A symbol in the place of a label of the same name. -/
def Operand.unlabel : Operand → Operand
  | label n => addr n
  | x => x

/-- The operand is no label. -/
def Operand.isLabel : Operand → Bool
  | label _ => true
  | _ => false

/-! ### Operands in pieces -/

/-- A term of the sum that a memory operand is. -/
inductive SumTerm where
  /-- The base. -/
  | base (r : Register)
  /-- The index with its scale. -/
  | index (r : Register) (scale : UInt32)
  /-- The displacement. -/
  | disp (d : Int32)

/-- The terms of a memory operand. -/
def Indirect.sumTerms (m : Indirect) : List SumTerm :=
  (if m.base.isSome then [.base m.base] else []) ++
  (if m.index.isSome then [.index m.index m.scale] else []) ++
  m.disp.toList.map .disp

section

variable (t : NameTable)

/-- The pieces of a register. -/
def Register.pieces : Register → List Piece
  | none => [.word "<none>"]
  | machine r => [.word r.text]
  | virtual n => [.mark '%', .word (t.text n)]

/-- The pieces of a term. -/
def SumTerm.pieces : SumTerm → List Piece
  | base r => r.pieces t
  | index r scale => r.pieces t ++ [.mark ' ', .mark '*', .mark ' ', .number scale.toNat]
  | disp d => [.number d.toInt]

/-- The pieces of a size in front of a memory operand. -/
def sizePieces (x : Size) : List Piece :=
  if x = .unspecified then [] else [.word x.text, .mark ' ', .word "ptr", .mark ' ']

/-- The pieces of a memory operand. -/
def Indirect.pieces (m : Indirect) : List Piece :=
  sizePieces m.size ++ .mark '[' ::
    (separated [' ', '+', ' '] (m.sumTerms.map (SumTerm.pieces t)) ++ [.mark ']'])

/-- The pieces of an operand. -/
def Operand.pieces : Operand → List Piece
  | imm v => [.number v.toInt]
  | addr n => [.word (t.text n)]
  | label n => [.word (t.text n)]
  | reg r => r.pieces t
  | slot n => [.mark '\x7b', .word (t.text n), .mark '\x7d']
  | indirect m => m.pieces t

/-- The pieces of an instruction. -/
def instructionPieces (m : Mnemonic) (xs : List Operand) : List Piece :=
  .word m.text ::
    if xs.isEmpty then [] else .mark ' ' :: separated [',', ' '] (xs.map (Operand.pieces t))

end

variable {t : NameTable}

theorem Register.text_eq (r : Register) : r.text t = spell (r.pieces t) := by
  cases r with
  | none => rfl
  | machine r => exact (Piece.spell_word _).symm
  | virtual n =>
    have hmark : ("%" : Text) = spell [.mark '%'] := rfl
    rw [text, hmark, ← Piece.spell_word (t.text n), ← Piece.spell_append]
    rfl

theorem SumTerm.text_index (r : Register) (scale : UInt32) :
    r.text t ++ " * " ++ Text.decimal scale.toNat = spell ((index r scale).pieces t) := by
  have hmarks : (" * " : Text) = spell [.mark ' ', .mark '*', .mark ' '] := rfl
  rw [r.text_eq, hmarks, ← Piece.spell_number, ← Piece.spell_append, ← Piece.spell_append,
    List.append_assoc]
  rfl

theorem Indirect.terms_eq (m : Indirect) :
    m.terms t = (m.sumTerms.map (SumTerm.pieces t)).map spell := by
  have hdisp : ∀ d : Int32, Text.decimal d.toInt = spell ((SumTerm.disp d).pieces t) :=
    fun d => (Piece.spell_number _).symm
  have hbase : m.base.text t = spell ((SumTerm.base m.base).pieces t) := m.base.text_eq
  simp only [terms, sumTerms, List.map_append, List.map_map, hbase, SumTerm.text_index]
  congr 1
  · congr 1
    · split <;> rfl
    · split <;> rfl
  · exact List.map_congr_left fun d _ => hdisp d

theorem Indirect.text_eq (m : Indirect) : m.text t = spell (m.pieces t) := by
  have hsize : (if m.size = .unspecified then Text.empty else m.size.text ++ " ptr ") =
      spell (sizePieces m.size) := by
    unfold sizePieces
    split
    · rfl
    · have hptr : (" ptr " : Text) = spell [.mark ' ', .word "ptr", .mark ' '] := rfl
      rw [hptr, ← Piece.spell_word_cons]
  have hopen : ("[" : Text) = spell [.mark '['] := rfl
  have hclose : ("]" : Text) = spell [.mark ']'] := rfl
  have hplus : (" + " : Text) = spell ([' ', '+', ' '].map .mark) := rfl
  rw [text, hsize, hopen, hclose, hplus, m.terms_eq, ← Piece.spell_separated,
    ← Piece.spell_append, ← Piece.spell_append, ← Piece.spell_append, List.append_assoc,
    List.append_assoc]
  rfl

theorem Operand.text_eq (x : Operand) : x.text t = spell (x.pieces t) := by
  cases x with
  | imm v => exact (Piece.spell_number _).symm
  | addr n => exact (Piece.spell_word _).symm
  | label n => exact (Piece.spell_word _).symm
  | reg r => exact r.text_eq
  | slot n =>
    have hopen : ("\x7b" : Text) = spell [.mark '\x7b'] := rfl
    have hclose : ("\x7d" : Text) = spell [.mark '\x7d'] := rfl
    rw [text, hopen, hclose, ← Piece.spell_word (t.text n), ← Piece.spell_append,
      ← Piece.spell_append]
    rfl
  | indirect m => exact m.text_eq

theorem Register.isIssued {r : Register} (h : r = .none ∨ r.IsNormal t) :
    r.names.all t.isIssued = true := by
  cases r with
  | virtual n =>
    have hn : t.HasWord n := h.resolve_left fun hnone => by cases hnone
    simp [names, hn.isIssued]
  | _ => rfl

theorem Operand.isIssued {x : Operand} (h : x.IsNormal t) : x.names.all t.isIssued = true := by
  cases x with
  | imm v => rfl
  | addr n => simp [names, h.1.isIssued]
  | label n => simp [names, h.1.isIssued]
  | reg r => exact Register.isIssued (.inr h)
  | slot n => simp [names, NameTable.HasWord.isIssued h]
  | indirect m =>
    have hindex : m.index = .none ∨ m.index.IsNormal t := h.index.imp_left And.left
    rw [names, List.all_append, Register.isIssued h.base, Register.isIssued hindex]
    rfl

theorem operandTexts_eq {xs : List Operand} (h : ∀ x ∈ xs, x.IsNormal t) :
    (xs.map some).mapM (fun a => a.bind (Operand.text? t)) =
      some ((xs.map (Operand.pieces t)).map spell) := by
  induction xs with
  | nil => rfl
  | cons x xs ih =>
    obtain ⟨hx, hxs⟩ := List.forall_mem_cons.1 h
    have htext : x.text? t = some (spell (x.pieces t)) := by
      rw [Operand.text?, if_pos (Operand.isIssued hx), x.text_eq]
    rw [List.map_cons, List.mapM_cons, ih hxs, Option.bind_some, htext]
    rfl

/-- The text of an instruction without gaps, whose names the table has issued. -/
theorem Instruction.text?_eq {m : Mnemonic} {xs : List Operand} (h : ∀ x ∈ xs, x.IsNormal t) :
    Instruction.text? t ⟨m, xs.map some⟩ = some (spell (instructionPieces t m xs)) := by
  have hsep : (", " : Text) = spell ([',', ' '].map .mark) := rfl
  have hblank : (" " : Text) = spell [.mark ' '] := rfl
  rw [text?, operandTexts?, operandTexts_eq h, Option.map_some, layout, instructionPieces,
    Piece.spell_word_cons]
  cases xs with
  | nil => rfl
  | cons x xs =>
    rw [hsep, hblank, ← Piece.spell_separated]
    exact congrArg (fun s => some (m.text ++ s)) (Piece.spell_append _ _).symm

/-! ### Legible operands -/

theorem Register.legible {r : Register} (h : r.IsNormal t) : Legible (r.pieces t) := by
  cases r with
  | none => exact h.elim
  | machine r => exact Piece.legible_singleton.2 (MachineReg.isWord_text h)
  | virtual n =>
    exact Piece.legible_mark_cons.2 ⟨by decide, Piece.legible_singleton.2 h.isWord⟩

/-- A term with registers in normal form. -/
def SumTerm.IsNormal (t : NameTable) : SumTerm → Prop
  | base r => r.IsNormal t
  | index r _ => r.IsNormal t
  | disp _ => True

theorem SumTerm.legible {x : SumTerm} (h : x.IsNormal t) : Legible (x.pieces t) := by
  cases x with
  | base r => exact Register.legible h
  | index r scale =>
    refine Piece.legible_append_mark.2 ⟨Register.legible h, by decide, ?_⟩
    exact Piece.legible_mark_cons.2 ⟨by decide, Piece.legible_mark_cons.2 ⟨by decide,
      Piece.legible_singleton.2 trivial⟩⟩
  | disp d => exact Piece.legible_singleton.2 trivial

theorem Indirect.isNormal_sumTerms {m : Indirect} (h : m.IsNormal t) :
    ∀ x ∈ m.sumTerms, x.IsNormal t := by
  intro x hx
  simp only [sumTerms, List.mem_append] at hx
  rcases hx with (hx | hx) | hx
  · split at hx
    · rename_i hsome
      obtain rfl := List.mem_singleton.1 hx
      refine h.base.resolve_left fun hnone => ?_
      rw [hnone] at hsome
      cases hsome
    · cases hx
  · split at hx
    · rename_i hsome
      obtain rfl := List.mem_singleton.1 hx
      refine h.index.resolve_left fun hnone => ?_
      rw [hnone.1] at hsome
      cases hsome
    · cases hx
  · obtain ⟨d, -, rfl⟩ := List.mem_map.1 hx
    trivial

theorem Indirect.legible {m : Indirect} (h : m.IsNormal t) : Legible (m.pieces t) := by
  have hsize : Legible (sizePieces m.size) := by
    unfold sizePieces
    split
    · trivial
    · rename_i hsaid
      exact Piece.legible_word_mark.2 ⟨Size.isWord_text h.size hsaid, by decide,
        Piece.legible_word_mark.2 ⟨by decide, by decide, trivial⟩⟩
  have hsum : Legible (separated [' ', '+', ' '] (m.sumTerms.map (SumTerm.pieces t))) := by
    refine Piece.legible_separated (by decide) fun l hl => ?_
    obtain ⟨x, hx, rfl⟩ := List.mem_map.1 hl
    exact SumTerm.legible (isNormal_sumTerms h x hx)
  exact Piece.legible_append_mark.2 ⟨hsize, by decide,
    Piece.legible_append_mark.2 ⟨hsum, by decide, trivial⟩⟩

theorem Operand.legible {x : Operand} (h : x.IsNormal t) : Legible (x.pieces t) := by
  cases x with
  | imm v => exact Piece.legible_singleton.2 trivial
  | addr n => exact Piece.legible_singleton.2 h.1.isWord
  | label n => exact Piece.legible_singleton.2 h.1.isWord
  | reg r => exact Register.legible h
  | slot n =>
    refine Piece.legible_mark_cons.2 ⟨by decide, ?_⟩
    exact Piece.legible_word_mark.2 ⟨NameTable.HasWord.isWord h, by decide, trivial⟩
  | indirect m => exact Indirect.legible h

theorem legible_instructionPieces {m : Mnemonic} {xs : List Operand} (hm : m.isValid = true)
    (h : ∀ x ∈ xs, x.IsNormal t) : Legible (instructionPieces t m xs) := by
  have hword : Legible [.word m.text] := Piece.legible_singleton.2 (Mnemonic.isWord_text hm)
  unfold instructionPieces
  split
  · exact hword
  · refine Piece.legible_append_mark.2 ⟨hword, by decide, ?_⟩
    refine Piece.legible_separated (by decide) fun l hl => ?_
    obtain ⟨x, hx, rfl⟩ := List.mem_map.1 hl
    exact Operand.legible (h x hx)

/-! ### Reading operands -/

theorem separable_register :
    Separable (Register.IsNormal t) (Register.pieces t) (fun _ => True) := by
  intro r q l l' hr hq _ _ heq
  cases r with
  | none => exact hr.elim
  | machine r =>
    cases q with
    | none => exact hq.elim
    | machine q =>
      obtain ⟨hword, hrest⟩ := List.cons.inj heq
      rw [MachineReg.text_inj hr hq (Piece.word.inj hword)]
      exact ⟨rfl, hrest⟩
    | virtual n => cases heq
  | virtual n =>
    cases q with
    | none => exact hq.elim
    | machine q => cases heq
    | virtual m =>
      obtain ⟨hword, hrest⟩ := List.cons.inj (List.cons.inj heq).2
      rw [NameTable.HasWord.eq hr hq (Piece.word.inj hword)]
      exact ⟨rfl, hrest⟩

/-- A register does not start as a number does. -/
theorem Register.pieces_ne_number {r : Register} {l l' : List Piece} {v : Int} :
    r.pieces t ++ l ≠ .number v :: l' := by
  cases r <;> simp [pieces]

theorem separable_sumTerm :
    Separable (SumTerm.IsNormal t) (SumTerm.pieces t)
      (fun l => ∀ l', l ≠ .mark ' ' :: .mark '*' :: l') := by
  intro x y l l' hx hy hl hl' heq
  -- an index starts as a base does, and goes on with a star
  cases x with
  | base r =>
    cases y with
    | base q =>
      obtain ⟨rfl, hrest⟩ := separable_register hx hy trivial trivial heq
      exact ⟨rfl, hrest⟩
    | index q s =>
      simp only [SumTerm.pieces, List.append_assoc] at heq
      exact (hl _ (separable_register hx hy trivial trivial heq).2).elim
    | disp d => exact (Register.pieces_ne_number heq).elim
  | index r s =>
    simp only [SumTerm.pieces, List.append_assoc] at heq
    cases y with
    | base q => exact (hl' _ (separable_register hx hy trivial trivial heq).2.symm).elim
    | index q s' =>
      simp only [List.append_assoc] at heq
      obtain ⟨rfl, hrest⟩ := separable_register hx hy trivial trivial heq
      simp only [List.cons_append, List.nil_append, List.cons.injEq, Piece.number.injEq, true_and,
        Int.natCast_inj] at hrest
      exact ⟨congrArg _ (UInt32.toNat_inj.1 hrest.1), hrest.2⟩
    | disp d => exact (Register.pieces_ne_number heq).elim
  | disp d =>
    cases y with
    | base q => exact (Register.pieces_ne_number heq.symm).elim
    | index q s =>
      simp only [SumTerm.pieces, List.append_assoc] at heq
      exact (Register.pieces_ne_number heq.symm).elim
    | disp e =>
      obtain ⟨hnumber, hrest⟩ := List.cons.inj heq
      exact ⟨congrArg _ (Int32.toInt_inj.1 (Piece.number.inj hnumber)), hrest⟩

/-! ### Reading memory operands -/

theorem Register.eq_none_of_not_isSome {r : Register} (h : ¬r.isSome = true) : r = .none := by
  cases r with
  | none => rfl
  | _ => exact (h rfl).elim

/-- The base of a term. -/
def SumTerm.base? : SumTerm → Option Register
  | base r => some r
  | _ => none

/-- The index and the scale of a term. -/
def SumTerm.index? : SumTerm → Option (Register × UInt32)
  | index r s => some (r, s)
  | _ => none

/-- The displacement of a term. -/
def SumTerm.disp? : SumTerm → Option Int32
  | disp d => some d
  | _ => none

/-- Each part of a memory operand can be found among its terms. -/
theorem Indirect.filterMap_sumTerms (m : Indirect) :
    m.sumTerms.filterMap SumTerm.base? = (if m.base.isSome then [m.base] else []) ∧
    m.sumTerms.filterMap SumTerm.index? = (if m.index.isSome then [(m.index, m.scale)] else []) ∧
    m.sumTerms.filterMap SumTerm.disp? = m.disp.toList := by
  unfold sumTerms
  cases m.base.isSome <;> cases m.index.isSome <;> cases m.disp <;> exact ⟨rfl, rfl, rfl⟩

/-- The terms of a memory operand determine its parts. -/
theorem Indirect.eq_of_sumTerms {m m' : Indirect} (h : m.IsNormal t) (h' : m'.IsNormal t)
    (hsize : m.size = m'.size) (heq : m.sumTerms = m'.sumTerms) : m = m' := by
  obtain ⟨hbase, hindex, hdisp⟩ := m.filterMap_sumTerms
  obtain ⟨hbase', hindex', hdisp'⟩ := m'.filterMap_sumTerms
  rw [heq, hbase'] at hbase
  rw [heq, hindex'] at hindex
  rw [heq, hdisp'] at hdisp
  -- a register that is not there is the absent one
  have hbases : m.base = m'.base := by
    split at hbase <;> split at hbase
    · exact (List.cons.inj hbase).1.symm
    · cases hbase
    · cases hbase
    · rename_i hnone' hnone
      rw [Register.eq_none_of_not_isSome hnone, Register.eq_none_of_not_isSome hnone']
  have hindexes : m.index = m'.index ∧ m.scale = m'.scale := by
    split at hindex <;> split at hindex
    · exact Prod.mk.inj (List.cons.inj hindex).1.symm
    · cases hindex
    · cases hindex
    · rename_i hnone' hnone
      have hscale : ∀ {k : Indirect}, k.IsNormal t → ¬k.index.isSome = true →
          k.index = .none ∧ k.scale = 0 := by
        intro k hk hnone
        have habsent := Register.eq_none_of_not_isSome hnone
        refine hk.index.resolve_right fun hindex => ?_
        rw [habsent] at hindex
        exact hindex
      obtain ⟨hi, hs⟩ := hscale h hnone
      obtain ⟨hi', hs'⟩ := hscale h' hnone'
      exact ⟨hi.trans hi'.symm, hs.trans hs'.symm⟩
  have hdisps : m.disp = m'.disp := by
    cases hd : m.disp <;> cases hd' : m'.disp <;> simp_all
  obtain ⟨size, base, index, scale, disp⟩ := m
  obtain ⟨size', base', index', scale', disp'⟩ := m'
  obtain ⟨hindexes, hscales⟩ := hindexes
  dsimp only at *
  subst hsize hbases hindexes hscales hdisps
  rfl

theorem separable_sum :
    Separable (fun xs => ∀ x ∈ xs, SumTerm.IsNormal t x)
      (fun xs : List SumTerm => separated [' ', '+', ' '] (xs.map (SumTerm.pieces t)))
      (fun l => ∃ l', l = .mark ']' :: l') := by
  refine separable_sumTerm.separated_closed (by simp) (by simp) (by decide) ?_
  intro x l l' _ heq
  cases x with
  | base r => cases r <;> cases heq
  | index r s => cases r <;> cases heq
  | disp d => cases heq

theorem separable_indirect :
    Separable (Indirect.IsNormal t) (Indirect.pieces t) (fun _ => True) := by
  intro m m' l l' hm hm' _ _ heq
  simp only [Indirect.pieces, List.append_assoc, List.cons_append, List.nil_append] at heq
  have hrest : m.size = m'.size →
      separated [' ', '+', ' '] (m.sumTerms.map (SumTerm.pieces t)) ++ .mark ']' :: l =
        separated [' ', '+', ' '] (m'.sumTerms.map (SumTerm.pieces t)) ++ .mark ']' :: l' →
      m = m' ∧ l = l' := by
    intro hsize hsum
    obtain ⟨hterms, hafter⟩ := separable_sum (Indirect.isNormal_sumTerms hm)
      (Indirect.isNormal_sumTerms hm') ⟨_, rfl⟩ ⟨_, rfl⟩ hsum
    exact ⟨Indirect.eq_of_sumTerms hm hm' hsize hterms, (List.cons.inj hafter).2⟩
  unfold sizePieces at heq
  split at heq <;> split at heq
  · rename_i hsize hsize'
    exact hrest (hsize.trans hsize'.symm) (List.cons.inj heq).2
  · cases heq
  · cases heq
  · simp only [List.cons_append, List.nil_append, List.cons.injEq, Piece.word.injEq, true_and]
      at heq
    exact hrest (Size.text_inj hm.size hm'.size heq.1) heq.2

/-! ### Reading instructions -/

theorem IsSymbol.text_ne {n : Name} {r : MachineReg} (hn : IsSymbol t n) (hr : r.isValid = true) :
    t.text n ≠ r.text :=
  fun h => hn.2 (h ▸ MachineReg.text_mem hr)

/-- A memory operand starts with a bracket, or with a size and a blank. -/
theorem Indirect.front {m : Indirect} {x : Piece} {l r : List Piece}
    (h : m.pieces t ++ l = x :: r) : x = .mark '[' ∨ ∃ r', r = .mark ' ' :: r' := by
  unfold Indirect.pieces sizePieces at h
  split at h
  · exact .inl (List.cons.inj h).1.symm
  · exact .inr ⟨_, (List.cons.inj h).2.symm⟩

theorem Operand.pieces_ne_indirect {x : Operand} {m : Indirect} {l l' : List Piece}
    (hx : ∀ k, x ≠ .indirect k) (hl : ∀ r, l ≠ .mark ' ' :: r) :
    x.pieces t ++ l ≠ m.pieces t ++ l' := by
  -- all others but slots and virtual registers are a single piece
  have hsingle : ∀ {y : Piece}, y ≠ .mark '[' → [y] ++ l ≠ m.pieces t ++ l' := by
    intro y hy heq
    obtain hfront | ⟨r, hblank⟩ := Indirect.front heq.symm
    · exact hy hfront
    · exact hl r hblank
  have hmarked : ∀ {c : Char} {s : Text} {r : List Piece}, c ≠ '[' →
      .mark c :: .word s :: r ≠ m.pieces t ++ l' := by
    intro c s r hc heq
    obtain hfront | ⟨r, hblank⟩ := Indirect.front heq.symm
    · exact hc (Piece.mark.inj hfront)
    · cases hblank
  cases x with
  | imm v => exact hsingle (by simp)
  | addr n => exact hsingle (by simp)
  | label n => exact hsingle (by simp)
  | reg r =>
    cases r with
    | none => exact hsingle (by simp)
    | machine r => exact hsingle (by simp)
    | virtual n => exact hmarked (by decide)
  | slot n => exact hmarked (by decide)
  | indirect k => exact (hx k rfl).elim

/-- Operands other than labels can be told apart. -/
theorem separable_operand :
    Separable (fun x => Operand.IsNormal t x ∧ x.isLabel = false) (Operand.pieces t)
      (fun l => ∀ l', l ≠ .mark ' ' :: l') := by
  rintro x y l l' ⟨hx, hxlabel⟩ ⟨hy, hylabel⟩ hl hl' heq
  -- the first piece tells most kinds apart; a word may be a symbol, a machine register or a size
  cases x with
  | label n => cases hxlabel
  | imm v =>
    cases y with
    | imm w =>
      obtain ⟨hnumber, hrest⟩ := List.cons.inj heq
      exact ⟨congrArg _ (Int64.toInt_inj.1 (Piece.number.inj hnumber)), hrest⟩
    | reg q => exact (Register.pieces_ne_number heq.symm).elim
    | indirect k => exact (Operand.pieces_ne_indirect (by simp) hl heq).elim
    | label n => cases hylabel
    | _ => cases heq
  | addr n =>
    cases y with
    | addr n' =>
      obtain ⟨hword, hrest⟩ := List.cons.inj heq
      exact ⟨congrArg _ (hx.1.eq hy.1 (Piece.word.inj hword)), hrest⟩
    | reg q =>
      cases q with
      | none => exact hy.elim
      | machine q => exact (hx.text_ne hy (Piece.word.inj (List.cons.inj heq).1)).elim
      | virtual n' => cases heq
    | indirect k => exact (Operand.pieces_ne_indirect (by simp) hl heq).elim
    | label n => cases hylabel
    | _ => cases heq
  | reg r =>
    cases y with
    | reg q =>
      obtain ⟨rfl, hrest⟩ := separable_register hx hy trivial trivial heq
      exact ⟨rfl, hrest⟩
    | imm w => exact (Register.pieces_ne_number heq).elim
    | addr n =>
      cases r with
      | none => exact hx.elim
      | machine r => exact (hy.text_ne hx (Piece.word.inj (List.cons.inj heq).1).symm).elim
      | virtual n' => cases heq
    | slot n => cases r <;> cases heq
    | indirect k => exact (Operand.pieces_ne_indirect (by simp) hl heq).elim
    | label n => cases hylabel
  | slot n =>
    cases y with
    | slot n' =>
      obtain ⟨hword, hrest⟩ := List.cons.inj (List.cons.inj heq).2
      exact ⟨congrArg _ (NameTable.HasWord.eq hx hy (Piece.word.inj hword)),
        (List.cons.inj hrest).2⟩
    | reg q => cases q <;> cases heq
    | indirect k => exact (Operand.pieces_ne_indirect (by simp) hl heq).elim
    | label n => cases hylabel
    | _ => cases heq
  | indirect m =>
    cases y with
    | indirect k =>
      obtain ⟨rfl, hrest⟩ := separable_indirect hx hy trivial trivial heq
      exact ⟨rfl, hrest⟩
    | label n => cases hylabel
    | _ => exact (Operand.pieces_ne_indirect (by simp) hl' heq.symm).elim

theorem Operand.pieces_ne_nil (x : Operand) : x.pieces t ≠ [] := by
  cases x with
  | reg r => cases r <;> simp [pieces, Register.pieces]
  | _ => simp [pieces, Indirect.pieces]

/-- The pieces of an instruction without labels determine it. -/
theorem instructionPieces_inj {m k : Mnemonic} {xs ys : List Operand} (hm : m.isValid = true)
    (hk : k.isValid = true) (hxs : ∀ x ∈ xs, x.IsNormal t ∧ x.isLabel = false)
    (hys : ∀ y ∈ ys, y.IsNormal t ∧ y.isLabel = false)
    (heq : instructionPieces t m xs = instructionPieces t k ys) : m = k ∧ xs = ys := by
  obtain ⟨hword, hrest⟩ := List.cons.inj heq
  refine ⟨Mnemonic.text_inj hm hk (Piece.word.inj hword), ?_⟩
  have hoperands : Separable _
      (fun xs : List Operand => separated [',', ' '] (xs.map (Operand.pieces t))) _ :=
    separable_operand.separated (by simp)
  split at hrest <;> split at hrest
  · rename_i hxs hys
    rw [List.isEmpty_iff.1 hxs, List.isEmpty_iff.1 hys]
  · cases hrest
  · cases hrest
  · have hends : Ends (fun x => Operand.IsNormal t x ∧ x.isLabel = false) (Operand.pieces t) [] :=
      fun x l _ hnil => x.pieces_ne_nil (List.append_eq_nil_iff.1 hnil.symm).1
    refine (hoperands hxs hys ⟨by simp, hends, by simp⟩ ⟨by simp, hends, by simp⟩ ?_).1
    rw [List.append_nil, List.append_nil]
    exact (List.cons.inj hrest).2

theorem Operand.unlabel_spec {x : Operand} (h : x.IsNormal t) :
    x.unlabel.IsNormal t ∧ x.unlabel.isLabel = false := by
  cases x <;> exact ⟨h, rfl⟩

theorem Operand.pieces_unlabel (x : Operand) : x.unlabel.pieces t = x.pieces t := by
  cases x <;> rfl

theorem instructionPieces_unlabel (m : Mnemonic) (xs : List Operand) :
    instructionPieces t m (xs.map Operand.unlabel) = instructionPieces t m xs := by
  have hpieces : Operand.pieces t ∘ Operand.unlabel = Operand.pieces t :=
    funext Operand.pieces_unlabel
  rw [instructionPieces, List.isEmpty_map, List.map_map, hpieces, instructionPieces]

theorem Instruction.IsNormal.operands {i : Instruction} (h : i.IsNormal t) :
    ∃ xs : List Operand, (∀ x ∈ xs, x.IsNormal t) ∧ i = ⟨i.mnemonic, xs.map some⟩ := by
  obtain ⟨xs, hxs, hargs⟩ := exists_map_some h.args
  exact ⟨xs, hxs, hargs ▸ rfl⟩

/-- Instructions in normal form have texts. The texts are the same exactly if the mnemonics are and
the operands are, but for labels in the place of symbols. -/
theorem Instruction.unambiguous {i i' : Instruction} (h : i.IsNormal t) (h' : i'.IsNormal t) :
    ∃ s s', i.text? t = some s ∧ i'.text? t = some s' ∧
      (s = s' ↔ i.mnemonic = i'.mnemonic ∧
        i.args.map (Option.map Operand.unlabel) = i'.args.map (Option.map Operand.unlabel)) := by
  obtain ⟨xs, hxs, hi⟩ := h.operands
  obtain ⟨ys, hys, hi'⟩ := h'.operands
  have hunlabel : ∀ zs : List Operand,
      (zs.map some).map (Option.map Operand.unlabel) = (zs.map Operand.unlabel).map some := by
    simp
  have hspec : ∀ {zs : List Operand}, (∀ z ∈ zs, z.IsNormal t) →
      ∀ z ∈ zs.map Operand.unlabel, z.IsNormal t ∧ z.isLabel = false := by
    intro zs hzs
    exact List.forall_mem_map.2 fun z hz => Operand.unlabel_spec (hzs z hz)
  have hm := h.mnemonic
  have hm' := h'.mnemonic
  rw [hi, hi']
  refine ⟨_, _, text?_eq hxs, text?_eq hys, ?_⟩
  rw [hunlabel, hunlabel, ← instructionPieces_unlabel, ← instructionPieces_unlabel _ ys]
  constructor
  · intro heq
    have hpieces := Piece.spell_injective
      (legible_instructionPieces hm fun z hz => (hspec hxs z hz).1)
      (legible_instructionPieces hm' fun z hz => (hspec hys z hz).1) heq
    obtain ⟨hmnemonic, hargs⟩ := instructionPieces_inj hm hm' (hspec hxs) (hspec hys) hpieces
    exact ⟨hmnemonic, congrArg _ hargs⟩
  · rintro ⟨hmnemonic, hargs⟩
    have hsame := List.map_injective_iff.2 (Option.some_injective _) hargs
    exact congrArg spell (congrArg₂ (instructionPieces t) hmnemonic hsame)

end Code

namespace Sample

/-- A table with words that also stand in texts of their own right. -/
def wordTable : NameTable := .ofTexts ["", "rax", "qword"] (by decide) rfl

/-- `mov qword ptr [base + rcx * 8 + -16], target`. -/
def storeAt (base : Code.Register) (target : Code.Operand) : Code.Instruction :=
  ⟨.mov, [some (.indirect ⟨⟨4⟩, base, .machine ⟨2⟩, 8, some (-16)⟩), some target]⟩

theorem isNormal_storeAt {base : Code.Register} {target : Code.Operand}
    (hbase : base.IsNormal wordTable) (htarget : target.IsNormal wordTable) :
    (storeAt base target).IsNormal wordTable := by
  refine ⟨rfl, ?_⟩
  rintro a (_ | ⟨_, _ | ⟨_, ha⟩⟩)
  · exact ⟨_, rfl, ⟨rfl, .inr hbase, .inr rfl⟩⟩
  · exact ⟨_, rfl, htarget⟩
  · cases ha

/-- The label is written as the symbol is, and the virtual register not as the machine register of
its name. -/
theorem unambiguous_storeAt :
    (storeAt (.virtual ⟨1⟩) (.label ⟨2⟩)).text? wordTable =
      (storeAt (.virtual ⟨1⟩) (.addr ⟨2⟩)).text? wordTable ∧
    (storeAt (.virtual ⟨1⟩) (.label ⟨2⟩)).text? wordTable ≠
      (storeAt (.machine ⟨0⟩) (.label ⟨2⟩)).text? wordTable := by
  have hvirtual : (Code.Register.virtual ⟨1⟩).IsNormal wordTable := ⟨"rax", rfl, by decide⟩
  have hmachine : (Code.Register.machine ⟨0⟩).IsNormal wordTable := rfl
  have hsymbol : (Code.Operand.label ⟨2⟩).IsNormal wordTable :=
    ⟨⟨"qword", rfl, by decide⟩, by decide⟩
  have haddr : (Code.Operand.addr ⟨2⟩).IsNormal wordTable := hsymbol
  have hlabel := isNormal_storeAt hvirtual hsymbol
  constructor
  · obtain ⟨s, s', hs, hs', hiff⟩ :=
      Code.Instruction.unambiguous hlabel (isNormal_storeAt hvirtual haddr)
    rw [hs, hs', hiff.2 ⟨rfl, rfl⟩]
  · obtain ⟨s, s', hs, hs', hiff⟩ :=
      Code.Instruction.unambiguous hlabel (isNormal_storeAt hmachine hsymbol)
    rw [hs, hs']
    intro heq
    have hargs := (hiff.1 (Option.some.inj heq)).2
    revert hargs
    decide

end Sample

end CodeTiling
