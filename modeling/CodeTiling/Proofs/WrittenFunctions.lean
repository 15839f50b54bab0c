import CodeTiling.Ir.Listing
import CodeTiling.Proofs.InstructionLanguage
import CodeTiling.Proofs.Origins
import CodeTiling.Proofs.Pieces
import Mathlib.Data.List.ReduceOption

/-!
# The listing of a function determines it

A function can be listed when nothing in it is missing, its operations fit the instructions and its
names are words (`Func.IsListable`). Keywords are words too, and so a register may be called `ret`
or a block `phi`. What a line is for shows in where the words stand: behind an equals sign or at the
start of the line.

* `funcText_eq` : the listing of a function in pieces, line by line;
* `separable_line` : a line shows which phi, instruction or terminator it is for;
* `separable_block` : the lines of a block show its phis, its code and whether it has a terminator;
* `Func.listing_lossless` : functions with the same listing are the same.
-/

namespace CodeTiling

open Piece (spell Legible Separable Ends separated)

/-! ### Words of operations and names -/

theorem Op.text_mem {op : Op} (h : op.code.toNat < texts.length) : op.text ∈ texts := getD_mem h _

theorem Op.isWord_text {op : Op} (h : op.code.toNat < texts.length) : op.text.isWord = true := by
  have hall : ∀ s ∈ texts, s.isWord = true := by decide
  exact hall _ (text_mem h)

theorem Op.text_inj {op op' : Op} (h : op.code.toNat < texts.length)
    (h' : op'.code.toNat < texts.length) (heq : op.text = op'.text) : op = op' :=
  eq_iff_number.2 (eq_of_getD_eq (by decide) h h' heq)

theorem NameTable.HasWord.read {t : NameTable} {n : Name} (h : t.HasWord n) :
    t.read n = .ok (t.text n) := by
  obtain ⟨s, hs, -⟩ := h
  rw [read_ok_iff.2 hs, text_eq hs]

namespace Ir

/-! ### Functions that can be listed -/

/-- No operand is missing, and the operation fits. -/
structure Instr.IsWhole (x : Instr) : Prop where
  /-- The operation has the instruction's shape. -/
  op : x.OpFits
  /-- The operands are there. -/
  operands : ∀ o ∈ x.operands, o.isSome = true

/-- The condition of a branch is there. A return may lack its value. -/
def Terminator.IsWhole : Terminator → Prop
  | br cond _ _ => cond.isSome = true
  | _ => True

/-- No value of a phi is missing. -/
def Phi.IsWhole (p : Phi) : Prop := ∀ s ∈ p.sources, s.value.isSome = true

/-- Nothing is missing in a block. It may lack a terminator. -/
structure Block.IsWhole (b : Block) : Prop where
  /-- The phis. -/
  phis : ∀ p ∈ b.phis, p.IsWhole
  /-- The code. -/
  code : ∀ o ∈ b.code, ∃ x, o = some x ∧ x.IsWhole
  /-- The terminator. -/
  term : ∀ x ∈ b.term, x.IsWhole

/-- Nothing is missing in a block, and its names are words. -/
structure Block.IsListable (t : NameTable) (b : Block) : Prop where
  /-- The names. -/
  names : ∀ n ∈ b.names, t.HasWord n
  /-- All else. -/
  whole : b.IsWhole

/-- Nothing is missing in a function, and its names are words. -/
structure Func.IsListable (t : NameTable) (f : Func) : Prop where
  /-- The names. -/
  names : ∀ n ∈ f.names, t.HasWord n
  /-- The blocks. -/
  blocks : ∀ b ∈ f.blocks, b.IsWhole

theorem Instr.OpFits.lt {x : Instr} (h : x.OpFits) : x.op.code.toNat < Op.texts.length := by
  have hlength : Op.texts.length = 24 := rfl
  rw [hlength]
  unfold OpFits Op.shape at h
  cases x with
  | binary op dst l r =>
    have hbinary : op.isBinary = true := by
      by_contra hnot
      rw [Instr.op, if_neg hnot] at h
      split_ifs at h <;> cases h
    have := Op.isBinary_iff.1 hbinary
    change op.code.toNat < 24
    omega
  | unary op dst v =>
    have hunary : op.isUnary = true := by
      by_contra hnot
      rw [Instr.op, if_neg hnot] at h
      split_ifs at h <;> cases h
    have := Op.isUnary_iff.1 hunary
    change op.code.toNat < 24
    omega
  | _ => exact of_decide_eq_true rfl

/-- An instruction is its operation, its destination, the function called and its operands. -/
theorem Instr.eq_of_parts {x y : Instr} (hx : x.OpFits) (hy : y.OpFits) (hop : x.op = y.op)
    (hdst : x.destinations.head? = y.destinations.head?) (hcallees : x.callees = y.callees)
    (hoperands : x.operands = y.operands) : x = y := by
  have hshape : x.shape = y.shape := hx.symm.trans ((congrArg Op.shape hop).trans hy)
  cases x <;> cases y <;> simp_all [shape, Instr.op, destinations, callees, operands]

/-! ### Lines in pieces -/

/-- A line of a block. -/
inductive Line where
  /-- The line of a phi. -/
  | phi (p : Phi)
  /-- The line of an instruction. -/
  | instr (x : Instr)
  /-- The line of a terminator. -/
  | term (x : Terminator)

namespace Line

/-- The register in front of the equals sign. -/
def dst? : Line → Option Name
  | phi p => some p.dst
  | instr x => x.destinations.head?
  | term _ => none

/-- The keyword of a line. -/
def keyword : Line → Text
  | phi _ => "phi"
  | instr x => x.op.text
  | term (.ret _) => "ret"
  | term (.br ..) => "br"
  | term (.jmp _) => "jmp"

/-- The names on a line. -/
def names : Line → List Name
  | phi p => p.names
  | instr x => x.names
  | term x => x.names

/-- Nothing is missing on a line. -/
def IsWhole : Line → Prop
  | phi p => p.IsWhole
  | instr x => x.IsWhole
  | term x => x.IsWhole

/-- Nothing is missing on a line, and its names are words. -/
structure IsListable (t : NameTable) (x : Line) : Prop where
  /-- The names. -/
  names : ∀ n ∈ x.names, t.HasWord n
  /-- All else. -/
  whole : x.IsWhole

end Line

/-- An operand that is there, with a word for its name. -/
def IsListableValue (t : NameTable) (o : Option Value) : Prop :=
  o.isSome = true ∧ ∀ n ∈ valueNames o, t.HasWord n

/-- A source with a value, and with words for its names. -/
def IsListableSource (t : NameTable) (s : PhiSource) : Prop :=
  t.HasWord s.block ∧ IsListableValue t s.value

/-- The lines of a block. -/
def Block.lines (b : Block) : List Line :=
  b.phis.map .phi ++ b.code.reduceOption.map .instr ++ b.term.toList.map .term

section

variable (t : NameTable)

/-- The piece of an operand. -/
def valuePieces : Option Value → List Piece
  | some (.reg n) => [.word (t.text n)]
  | some (.imm v) => [.number v.toInt]
  | none => []

/-- The pieces of operands. -/
def operandPieces (vs : List (Option Value)) : List Piece :=
  separated [',', ' '] (vs.map (valuePieces t))

/-- The pieces of a source of a phi. -/
def sourcePieces (s : PhiSource) : List Piece :=
  [.mark ' ', .mark '[', .word (t.text s.block), .mark ':', .mark ' '] ++
    (valuePieces t s.value ++ [.mark ']'])

/-- What stands between the keyword of an instruction and its operands. -/
def Instr.lead : Instr → List Piece
  | alloca _ => []
  | call _ func _ => [.mark ' ', .word (t.text func), .mark ' ']
  | _ => [.mark ' ']

/-- What stands behind the keyword of a terminator. -/
def Terminator.tail : Terminator → List Piece
  | ret none => []
  | ret (some v) => .mark ' ' :: valuePieces t (some v)
  | br cond onTrue onFalse => .mark ' ' :: (valuePieces t cond ++
      [.mark ',', .mark ' ', .word (t.text onTrue), .mark ',', .mark ' ', .word (t.text onFalse)])
  | jmp target => [.mark ' ', .word (t.text target)]

/-- What stands behind the keyword of a line. -/
def Line.tail : Line → List Piece
  | phi p => separated [','] (p.sources.map (sourcePieces t))
  | instr x => x.lead t ++ operandPieces t x.operands
  | term x => x.tail t

/-- The pieces of a register in front of an equals sign. -/
def assignment : Option Name → List Piece
  | none => []
  | some n => [.word (t.text n), .mark ' ', .mark '=', .mark ' ']

/-- The pieces of a line. -/
def Line.pieces (x : Line) : List Piece :=
  .mark '\t' :: (assignment t x.dst? ++ .word x.keyword :: (x.tail t ++ [.mark '\n']))

/-- The pieces of a block. -/
def Block.pieces (b : Block) : List Piece :=
  .word (t.text b.label) :: .mark ':' :: .mark '\n' :: b.lines.flatMap (Line.pieces t)

/-- The pieces of a function. -/
def Func.pieces (f : Func) : List Piece :=
  [.word "func", .mark ' ', .word (t.text f.name), .mark '('] ++
    (separated [',', ' '] (f.args.map fun n => [.word (t.text n)]) ++
      ([.mark ')', .mark ' ', .mark '\x7b', .mark '\n'] ++
        (f.blocks.flatMap (Block.pieces t) ++ [.mark '\x7d', .mark '\n'])))

end

variable {t : NameTable}

/-! ### The parts of what can be listed -/

theorem Line.IsListable.source {p : Phi} (h : (Line.phi p).IsListable t) :
    ∀ s ∈ p.sources, IsListableSource t s := by
  intro s hs
  have hnames : ∀ n ∈ s.block :: valueNames s.value, t.HasWord n := fun n hn =>
    h.names n (List.mem_cons_of_mem _ (List.mem_flatMap.2 ⟨s, hs, hn⟩))
  obtain ⟨hblock, hvalue⟩ := List.forall_mem_cons.1 hnames
  exact ⟨hblock, h.whole s hs, hvalue⟩

theorem Line.IsListable.operand {x : Instr} (h : (Line.instr x).IsListable t) :
    ∀ o ∈ x.operands, IsListableValue t o := by
  intro o ho
  refine ⟨h.whole.operands o ho, fun n hn => h.names n ?_⟩
  exact List.mem_append_right _ (List.mem_flatMap.2 ⟨o, ho, hn⟩)

theorem Line.IsListable.own {x : Instr} (h : (Line.instr x).IsListable t) :
    ∀ n ∈ x.ownNames, t.HasWord n :=
  fun n hn => h.names n (List.mem_append_left _ hn)

theorem Line.IsListable.dst {x : Line} (h : x.IsListable t) : ∀ n ∈ x.dst?, t.HasWord n := by
  intro n hn
  cases x with
  | phi p =>
    obtain rfl := Option.some.inj hn
    exact h.names _ List.mem_cons_self
  | instr x =>
    refine h.own n ?_
    cases x <;> simp_all [Line.dst?, Instr.destinations, Instr.ownNames]
  | term x => cases hn

theorem Block.IsListable.line {b : Block} (h : b.IsListable t) :
    ∀ x ∈ b.lines, x.IsListable t := by
  have hnames := h.names
  intro x hx
  simp only [Block.lines, List.mem_append, List.mem_map] at hx
  simp only [Block.names, List.mem_append, List.mem_cons, List.mem_flatMap] at hnames
  rcases hx with (⟨p, hp, rfl⟩ | ⟨i, hi, rfl⟩) | ⟨e, he, rfl⟩
  · exact ⟨fun n hn => hnames n (.inl (.inl (.inr ⟨p, hp, hn⟩))), h.whole.phis p hp⟩
  · have hmem := List.reduceOption_mem_iff.1 hi
    obtain ⟨j, hj, hwhole⟩ := h.whole.code _ hmem
    obtain rfl := Option.some.inj hj
    exact ⟨fun n hn => hnames n (.inl (.inr ⟨_, hmem, hn⟩)), hwhole⟩
  · have hterm := Option.mem_toList.1 he
    refine ⟨fun n hn => hnames n (.inr ?_), h.whole.term e hterm⟩
    rw [Option.mem_def.1 hterm]
    exact hn

theorem Block.IsListable.label {b : Block} (h : b.IsListable t) : t.HasWord b.label :=
  h.names _ List.mem_cons_self

theorem Func.IsListable.parts {f : Func} (h : f.IsListable t) :
    t.HasWord f.name ∧ (∀ n ∈ f.args, t.HasWord n) ∧ ∀ b ∈ f.blocks, b.IsListable t := by
  have hnames := h.names
  simp only [Func.names, List.cons_append, List.forall_mem_cons, List.forall_mem_append,
    List.forall_mem_flatMap] at hnames
  exact ⟨hnames.1, hnames.2.1, fun b hb => ⟨hnames.2.2 b hb, h.blocks b hb⟩⟩

/-! ### Listings in pieces -/

theorem tab_eq : ("\t" : Text) = spell [.mark '\t'] := rfl

theorem newline_eq : ("\n" : Text) = spell [.mark '\n'] := rfl

theorem comma_eq : (", " : Text) = spell ([',', ' '].map .mark) := rfl

theorem mapM_ok {α β : Type} {f : α → Except Error β} {g : α → β} {l : List α}
    (h : ∀ a ∈ l, f a = .ok (g a)) : l.mapM f = .ok (l.map g) := by
  induction l with
  | nil => rfl
  | cons a l ih =>
    obtain ⟨ha, hl⟩ := List.forall_mem_cons.1 h
    rw [List.mapM_cons, ha, ih hl]
    rfl

theorem valueText_eq {o : Option Value} (h : IsListableValue t o) :
    valueText t o = .ok (spell (valuePieces t o)) := by
  obtain ⟨hsome, hnames⟩ := h
  cases o with
  | none => cases hsome
  | some v =>
    cases v with
    | reg n => rw [valueText, (hnames n List.mem_cons_self).read, valuePieces, Piece.spell_word]
    | imm v => rw [valueText, immText, valuePieces, Piece.spell_number]

theorem valueTexts_eq {vs : List (Option Value)} (h : ∀ o ∈ vs, IsListableValue t o) (i : Nat) :
    valueTexts t i vs = .ok ((vs.map (valuePieces t)).map spell) := by
  induction vs generalizing i with
  | nil => rfl
  | cons o vs ih =>
    obtain ⟨ho, hvs⟩ := List.forall_mem_cons.1 h
    rw [valueTexts, valueText_eq ho, ih hvs]
    rfl

theorem Instr.head_eq {x : Instr} (h : ∀ n ∈ x.ownNames, t.HasWord n) :
    x.head t = .ok (spell (assignment t x.destinations.head? ++ .word x.op.text :: x.lead t)) := by
  have hblank : (" " : Text) = spell [.mark ' '] := rfl
  have hop : ∀ (dst : Name) (op : Op), t.text dst ++ " = " ++ op.text ++ " " =
      spell (assignment t (some dst) ++ [.word op.text, .mark ' ']) := by
    intro dst op
    have hequals : (" = " : Text) = spell [.mark ' ', .mark '=', .mark ' '] := rfl
    rw [hequals, hblank, ← Piece.spell_word (t.text dst), ← Piece.spell_word op.text,
      ← Piece.spell_append, ← Piece.spell_append, ← Piece.spell_append, Piece.spell_word op.text]
    rfl
  cases x with
  | binary op dst l r =>
    rw [head, (h dst List.mem_cons_self).read]
    exact congrArg Except.ok (hop dst op)
  | unary op dst v =>
    rw [head, (h dst List.mem_cons_self).read]
    exact congrArg Except.ok (hop dst op)
  | alloca dst =>
    rw [head, (h dst List.mem_cons_self).read]
    rfl
  | load dst a =>
    rw [head, (h dst List.mem_cons_self).read]
    rfl
  | store a v => rfl
  | call dst func args =>
    obtain ⟨hdst, hfunc⟩ := List.forall_mem_cons.1 h
    have hcall : (" = call " : Text) =
        spell [.mark ' ', .mark '=', .mark ' ', .word "call", .mark ' '] := rfl
    rw [head, hdst.read, (hfunc func List.mem_cons_self).read]
    refine congrArg Except.ok ?_
    rw [hcall, hblank, ← Piece.spell_word (t.text dst), ← Piece.spell_word (t.text func),
      ← Piece.spell_append, ← Piece.spell_append, ← Piece.spell_append]
    rfl

theorem instrText_eq {x : Instr} (h : (Line.instr x).IsListable t) :
    instrText t (some x) = .ok (spell ((Line.instr x).pieces t)) := by
  rw [instrText, Instr.head_eq h.own, valueTexts_eq h.operand]
  refine congrArg Except.ok ?_
  rw [tab_eq, comma_eq, newline_eq, ← Piece.spell_separated, ← Piece.spell_append,
    ← Piece.spell_append, ← Piece.spell_append]
  simp only [Line.pieces, Line.tail, List.append_assoc, List.cons_append, List.nil_append]
  rfl

theorem phiSourceText_eq {s : PhiSource} (h : IsListableSource t s) :
    phiSourceText t s = .ok (spell (sourcePieces t s)) := by
  have hopen : (" [" : Text) = spell [.mark ' ', .mark '['] := rfl
  have hcolon : (": " : Text) = spell [.mark ':', .mark ' '] := rfl
  have hclose : ("]" : Text) = spell [.mark ']'] := rfl
  rw [phiSourceText, h.1.read, valueText_eq h.2]
  refine congrArg Except.ok ?_
  rw [hopen, hcolon, hclose, ← Piece.spell_word (t.text s.block), ← Piece.spell_append,
    ← Piece.spell_append, ← Piece.spell_append, ← Piece.spell_append, List.append_assoc]
  rfl

theorem phiText_eq {p : Phi} (h : (Line.phi p).IsListable t) :
    phiText t p = .ok (spell ((Line.phi p).pieces t)) := by
  have hphi : (" = phi" : Text) = spell [.mark ' ', .mark '=', .mark ' ', .word "phi"] := rfl
  have hsep : ("," : Text) = spell ([','].map .mark) := rfl
  have hsources : (p.sources.map fun s => spell (sourcePieces t s)) =
      (p.sources.map (sourcePieces t)).map spell := by simp
  rw [phiText, (h.dst p.dst rfl).read, mapM_ok fun s hs => phiSourceText_eq (h.source s hs)]
  refine congrArg Except.ok ?_
  rw [tab_eq, hphi, hsep, newline_eq, hsources, ← Piece.spell_separated,
    ← Piece.spell_word (t.text p.dst), ← Piece.spell_append, ← Piece.spell_append,
    ← Piece.spell_append, ← Piece.spell_append]
  rfl

theorem termText_eq {x : Terminator} (h : (Line.term x).IsListable t) :
    termText t x = .ok (spell ((Line.term x).pieces t)) := by
  cases x with
  | ret o =>
    cases o with
    | none => rfl
    | some v =>
      have hret : ("\tret " : Text) = spell [.mark '\t', .word "ret", .mark ' '] := rfl
      rw [termText, valueText_eq ⟨rfl, h.names⟩]
      refine congrArg Except.ok ?_
      rw [hret, newline_eq, ← Piece.spell_append, ← Piece.spell_append, List.append_assoc]
      rfl
  | br cond onTrue onFalse =>
    have hbr : ("\tbr " : Text) = spell [.mark '\t', .word "br", .mark ' '] := rfl
    have hnames : ∀ n ∈ valueNames cond ++ [onTrue, onFalse], t.HasWord n := h.names
    obtain ⟨hcond, htargets⟩ := List.forall_mem_append.1 hnames
    rw [termText, valueText_eq ⟨h.whole, hcond⟩, (htargets onTrue (by simp)).read,
      (htargets onFalse (by simp)).read]
    refine congrArg Except.ok ?_
    rw [hbr, comma_eq, newline_eq, ← Piece.spell_word (t.text onTrue),
      ← Piece.spell_word (t.text onFalse)]
    simp only [← Piece.spell_append, Line.pieces, Line.tail, Terminator.tail, List.append_assoc,
      List.cons_append]
    rfl
  | jmp target =>
    have hjmp : ("\tjmp " : Text) = spell [.mark '\t', .word "jmp", .mark ' '] := rfl
    rw [termText, (h.names target List.mem_cons_self).read]
    refine congrArg Except.ok ?_
    rw [hjmp, newline_eq, ← Piece.spell_word (t.text target), ← Piece.spell_append,
      ← Piece.spell_append]
    rfl

/-- Lines that stand one after another below a label. -/
theorem blockLines_eq (label : Name) (phis : List Phi) (xs : List Instr) (last : List Line) :
    t.text label ++ ":\n" ++ Text.join (phis.map fun p => spell ((Line.phi p).pieces t)) ++
        Text.join (xs.map fun x => spell ((Line.instr x).pieces t)) ++
        spell (last.flatMap (Line.pieces t)) =
      spell (.word (t.text label) :: .mark ':' :: .mark '\n' ::
        (phis.map Line.phi ++ xs.map Line.instr ++ last).flatMap (Line.pieces t)) := by
  have hlabel : t.text label ++ ":\n" =
      spell [.word (t.text label), .mark ':', .mark '\n'] := rfl
  rw [hlabel, ← Piece.spell_flatMap, ← Piece.spell_flatMap, ← Piece.spell_append,
    ← Piece.spell_append, ← Piece.spell_append, List.flatMap_append, List.flatMap_append,
    List.flatMap_map, List.flatMap_map]
  rfl

theorem blockText_eq {b : Block} (h : b.IsListable t) :
    blockText t b = .ok (spell (b.pieces t)) := by
  have hlines := h.line
  have hread := h.label.read
  obtain ⟨label, phis, code, term⟩ := b
  obtain ⟨xs, -, rfl⟩ := exists_map_some h.whole.code
  have hxs : (xs.map some).reduceOption = xs := by simp [List.reduceOption]
  simp only [Block.lines, hxs, List.forall_mem_append, List.forall_mem_map] at hlines
  obtain ⟨⟨hphi, hinstr⟩, hterm⟩ := hlines
  have hphis : phis.mapM (fun p => Except.within .phi (phiText t p)) =
      .ok (phis.map fun p => spell ((Line.phi p).pieces t)) :=
    mapM_ok fun p hp => Run.within_ok_iff.2 (phiText_eq (hphi p hp))
  have hcode : (xs.map some).mapM (fun x => Except.within .instr (instrText t x)) =
      .ok (xs.map fun x => spell ((Line.instr x).pieces t)) := by
    rw [List.mapM_map]
    exact mapM_ok fun x hx => Run.within_ok_iff.2 (instrText_eq (hinstr x hx))
  rw [blockText, hread, hphis, hcode, Block.pieces, Block.lines, hxs, ← blockLines_eq]
  -- a block without a terminator ends with its code
  cases term with
  | none => rfl
  | some x =>
    have hlast : [Line.term x].flatMap (Line.pieces t) = (Line.term x).pieces t := by simp
    have htext := termText_eq (hterm x List.mem_cons_self)
    rw [Option.toList_some, List.map_singleton, hlast]
    refine Run.except_bind_ok_iff.2 ⟨_, rfl, Run.except_bind_ok_iff.2 ⟨_, rfl, ?_⟩⟩
    refine Run.except_bind_ok_iff.2 ⟨_, rfl, ?_⟩
    exact Run.except_bind_ok_iff.2 ⟨_, Run.within_ok_iff.2 htext, rfl⟩

theorem funcText_eq {f : Func} (h : f.IsListable t) :
    funcText t f = .ok (spell (f.pieces t)) := by
  have hopen : ("func " : Text) = spell [.word "func", .mark ' '] := rfl
  have hparen : ("(" : Text) = spell [.mark '('] := rfl
  have hbrace : (") \x7b\n" : Text) = spell [.mark ')', .mark ' ', .mark '\x7b', .mark '\n'] := rfl
  have hend : ("\x7d\n" : Text) = spell [.mark '\x7d', .mark '\n'] := rfl
  obtain ⟨hname, hargs, hblocks⟩ := h.parts
  have hwords : (f.args.map fun n => t.text n) =
      (f.args.map fun n => [Piece.word (t.text n)]).map spell := by
    simp [Piece.spell_word]
  rw [funcText, hname.read, mapM_ok fun n hn => (hargs n hn).read,
    mapM_ok fun b hb => Run.within_ok_iff.2 (blockText_eq (hblocks b hb))]
  refine congrArg Except.ok ?_
  rw [hopen, hparen, comma_eq, hbrace, hend, hwords, ← Piece.spell_separated, ← Piece.spell_flatMap,
    ← Piece.spell_word (t.text f.name)]
  simp only [← Piece.spell_append, Func.pieces, List.append_assoc]
  rfl

/-! ### Legible listings -/

theorem legible_valuePieces {o : Option Value} (h : IsListableValue t o) :
    Legible (valuePieces t o) := by
  obtain ⟨hsome, hnames⟩ := h
  cases o with
  | none => cases hsome
  | some v =>
    cases v with
    | reg n => exact Piece.legible_singleton.2 (hnames n List.mem_cons_self).isWord
    | imm v => exact Piece.legible_singleton.2 trivial

theorem legible_operandPieces {vs : List (Option Value)} (h : ∀ o ∈ vs, IsListableValue t o) :
    Legible (operandPieces t vs) := by
  refine Piece.legible_separated (by decide) ?_
  exact List.forall_mem_map.2 fun o ho => legible_valuePieces (h o ho)

theorem legible_sourcePieces {s : PhiSource} (h : IsListableSource t s) :
    Legible (sourcePieces t s) := by
  have hvalue : Legible (valuePieces t s.value ++ [.mark ']']) :=
    Piece.legible_append_mark.2 ⟨legible_valuePieces h.2, by decide, trivial⟩
  have hblock : Legible (.word (t.text s.block) :: .mark ':' :: .mark ' ' ::
      (valuePieces t s.value ++ [.mark ']'])) :=
    Piece.legible_word_mark.2
      ⟨h.1.isWord, by decide, Piece.legible_mark_cons.2 ⟨by decide, hvalue⟩⟩
  exact Piece.legible_mark_cons.2 ⟨by decide, Piece.legible_mark_cons.2 ⟨by decide, hblock⟩⟩

theorem Terminator.legible_tail {x : Terminator} (h : (Line.term x).IsListable t) :
    Legible (x.tail t) := by
  cases x with
  | ret o =>
    cases o with
    | none => trivial
    | some v =>
      exact Piece.legible_mark_cons.2 ⟨by decide, legible_valuePieces ⟨rfl, h.names⟩⟩
  | br cond onTrue onFalse =>
    have hnames : ∀ n ∈ valueNames cond ++ [onTrue, onFalse], t.HasWord n := h.names
    obtain ⟨hcond, htargets⟩ := List.forall_mem_append.1 hnames
    have hfalse : Legible [.mark ' ', .word (t.text onFalse)] :=
      Piece.legible_mark_cons.2
        ⟨by decide, Piece.legible_singleton.2 (htargets onFalse (by simp)).isWord⟩
    have htrue : Legible [.word (t.text onTrue), .mark ',', .mark ' ', .word (t.text onFalse)] :=
      Piece.legible_word_mark.2 ⟨(htargets onTrue (by simp)).isWord, by decide, hfalse⟩
    exact Piece.legible_mark_cons.2 ⟨by decide, Piece.legible_append_mark.2
      ⟨legible_valuePieces ⟨h.whole, hcond⟩, by decide, Piece.legible_mark_cons.2
        ⟨by decide, htrue⟩⟩⟩
  | jmp target =>
    exact Piece.legible_mark_cons.2
      ⟨by decide, Piece.legible_singleton.2 (h.names target List.mem_cons_self).isWord⟩

/-- What stands behind a keyword starts with a mark. -/
theorem Line.startsApart_tail (x : Line) : Piece.StartsApart (x.tail t) := by
  cases x with
  | phi p =>
    rw [tail]
    cases p.sources with
    | nil => exact Piece.startsApart_nil
    | cons s ss =>
      rw [List.map_cons, Piece.separated_cons]
      exact Piece.startsApart_mark _ _
  | instr x =>
    cases x with
    | alloca dst => exact Piece.startsApart_nil
    | _ => exact Piece.startsApart_mark _ _
  | term x =>
    cases x with
    | ret o =>
      cases o with
      | none => exact Piece.startsApart_nil
      | some v => exact Piece.startsApart_mark _ _
    | _ => exact Piece.startsApart_mark _ _

theorem Line.legible_tail {x : Line} (h : x.IsListable t) : Legible (x.tail t) := by
  cases x with
  | phi p =>
    refine Piece.legible_separated (by decide) ?_
    exact List.forall_mem_map.2 fun s hs => legible_sourcePieces (h.source s hs)
  | instr x =>
    have hoperands := legible_operandPieces h.operand
    cases x with
    | alloca dst => trivial
    | call dst func args =>
      have hfunc : t.HasWord func := h.own func (by simp [Instr.ownNames])
      exact Piece.legible_mark_cons.2
        ⟨by decide, Piece.legible_word_mark.2 ⟨hfunc.isWord, by decide, hoperands⟩⟩
    | _ => exact Piece.legible_mark_cons.2 ⟨by decide, hoperands⟩
  | term x => exact Terminator.legible_tail h

theorem Line.isWord_keyword {x : Line} (h : x.IsListable t) : x.keyword.isWord = true := by
  cases x with
  | phi p => exact of_decide_eq_true rfl
  | instr x => exact Op.isWord_text h.whole.op.lt
  | term x => cases x <;> exact of_decide_eq_true rfl

theorem Line.legible_append {x : Line} (h : x.IsListable t) {r : List Piece} (hr : Legible r) :
    Legible (x.pieces t ++ r) := by
  have hbody : Legible (.word x.keyword :: (x.tail t ++ .mark '\n' :: r)) :=
    (Piece.legible_append_mark (l := .word x.keyword :: x.tail t)).2
      ⟨⟨isWord_keyword h, .inr x.startsApart_tail, legible_tail h⟩, by decide, hr⟩
  rw [pieces, List.cons_append, List.append_assoc, List.cons_append, List.append_assoc,
    List.singleton_append]
  refine Piece.legible_mark_cons.2 ⟨by decide, ?_⟩
  cases hdst : x.dst? with
  | none => exact hbody
  | some n =>
    have hequals : Legible (['=', ' '].map .mark ++ _) :=
      Piece.legible_marks_append (by decide) hbody
    exact Piece.legible_word_mark.2 ⟨(h.dst n hdst).isWord, by decide, hequals⟩

theorem Block.legible_append {b : Block} (h : b.IsListable t) {r : List Piece} (hr : Legible r) :
    Legible (b.pieces t ++ r) := by
  have hbody : Legible (b.lines.flatMap (Line.pieces t) ++ r) :=
    Piece.legible_flatMap (fun x hx l hl => Line.legible_append (h.line x hx) hl) hr
  exact Piece.legible_word_mark.2
    ⟨h.label.isWord, by decide, Piece.legible_mark_cons.2 ⟨by decide, hbody⟩⟩

theorem Func.legible {f : Func} (h : f.IsListable t) : Legible (f.pieces t) := by
  obtain ⟨hname, hargs, hblocks⟩ := h.parts
  have hend : Legible [.mark '\x7d', .mark '\n'] :=
    Piece.legible_mark_cons.2 ⟨by decide, Piece.legible_mark_cons.2 ⟨by decide, trivial⟩⟩
  have hbody : Legible ([')', ' ', '\x7b', '\n'].map .mark ++
      (f.blocks.flatMap (Block.pieces t) ++ [.mark '\x7d', .mark '\n'])) :=
    Piece.legible_marks_append (by decide)
      (Piece.legible_flatMap (fun b hb l hl => Block.legible_append (hblocks b hb) hl) hend)
  have hnames : Legible (separated [',', ' '] (f.args.map fun n => [.word (t.text n)])) := by
    refine Piece.legible_separated (by decide) (List.forall_mem_map.2 fun n hn => ?_)
    exact Piece.legible_singleton.2 (hargs n hn).isWord
  refine Piece.legible_word_mark.2 ⟨by decide, by decide, ?_⟩
  refine Piece.legible_word_mark.2 ⟨hname.isWord, by decide, ?_⟩
  exact Piece.legible_append_mark.2 ⟨hnames, Piece.legible_mark_cons.1 hbody⟩

/-! ### Reading lines -/

theorem separable_value : Separable (IsListableValue t) (valuePieces t) (fun _ => True) := by
  rintro o o' l l' ⟨hsome, hnames⟩ ⟨hsome', hnames'⟩ _ _ heq
  cases o with
  | none => cases hsome
  | some v =>
    cases o' with
    | none => cases hsome'
    | some v' =>
      cases v with
      | reg n =>
        cases v' with
        | reg n' =>
          obtain ⟨hword, hrest⟩ := List.cons.inj heq
          have hn := hnames n List.mem_cons_self
          have hn' := hnames' n' List.mem_cons_self
          rw [hn.eq hn' (Piece.word.inj hword)]
          exact ⟨rfl, hrest⟩
        | imm k => cases heq
      | imm k =>
        cases v' with
        | reg n => cases heq
        | imm k' =>
          obtain ⟨hnumber, hrest⟩ := List.cons.inj heq
          rw [Int64.toInt_inj.1 (Piece.number.inj hnumber)]
          exact ⟨rfl, hrest⟩

/-- An operand does not start with a mark. -/
theorem IsListableValue.pieces_ne {o : Option Value} (h : IsListableValue t o) {c : Char}
    {l l' : List Piece} : valuePieces t o ++ l ≠ .mark c :: l' := by
  obtain ⟨hsome, -⟩ := h
  cases o with
  | none => cases hsome
  | some v => cases v <;> simp [valuePieces]

theorem separable_operands :
    Separable (fun vs => ∀ o ∈ vs, IsListableValue t o) (operandPieces t)
      (fun l => ∃ l', l = .mark '\n' :: l') :=
  separable_value.separated_closed (fun _ => trivial) (fun _ => trivial) (by decide)
    fun _ _ _ ho => ho.pieces_ne

theorem separable_source : Separable (IsListableSource t) (sourcePieces t) (fun _ => True) := by
  rintro s s' l l' hs hs' _ _ heq
  simp only [sourcePieces, List.append_assoc, List.cons_append, List.nil_append, List.cons.injEq,
    Piece.word.injEq, true_and] at heq
  obtain ⟨hvalue, hrest⟩ := separable_value hs.2 hs'.2 trivial trivial heq.2
  obtain ⟨block, value⟩ := s
  obtain ⟨block', value'⟩ := s'
  obtain rfl := hs.1.eq hs'.1 heq.1
  obtain rfl := hvalue
  exact ⟨rfl, (List.cons.inj hrest).2⟩

theorem separable_sources :
    Separable (fun ss => ∀ s ∈ ss, IsListableSource t s)
      (fun ss : List PhiSource => separated [','] (ss.map (sourcePieces t)))
      (fun l => ∃ l', l = .mark '\n' :: l') := by
  refine separable_source.separated_closed (fun _ => trivial) (fun _ => trivial) (by decide) ?_
  intro s l l' _ heq
  cases heq

/-- A register in front of an equals sign can be told from a keyword at the start. -/
theorem eq_of_assignment {d d' : Option Name} {k k' : Text} {r r' : List Piece}
    (hd : ∀ n ∈ d, t.HasWord n) (hd' : ∀ n ∈ d', t.HasWord n)
    (hr : d = none → ∀ l, r ≠ .mark ' ' :: .mark '=' :: l)
    (hr' : d' = none → ∀ l, r' ≠ .mark ' ' :: .mark '=' :: l)
    (heq : assignment t d ++ .word k :: r = assignment t d' ++ .word k' :: r') :
    d = d' ∧ k = k' ∧ r = r' := by
  cases d with
  | none =>
    cases d' with
    | none =>
      obtain ⟨hword, hrest⟩ := List.cons.inj heq
      exact ⟨rfl, Piece.word.inj hword, hrest⟩
    | some n' => exact (hr rfl _ (List.cons.inj heq).2).elim
  | some n =>
    cases d' with
    | none => exact (hr' rfl _ (List.cons.inj heq).2.symm).elim
    | some n' =>
      simp only [assignment, List.cons_append, List.nil_append, List.cons.injEq, Piece.word.injEq,
        true_and] at heq
      obtain ⟨hword, hkeyword, hrest⟩ := heq
      rw [(hd n rfl).eq (hd' n' rfl) hword]
      exact ⟨rfl, hkeyword, hrest⟩

/-- A line without a register in front has no equals sign behind its first word. -/
theorem Line.IsListable.tail_ne {x : Line} (h : x.IsListable t) (hdst : x.dst? = none)
    (l l' : List Piece) : x.tail t ++ .mark '\n' :: l ≠ .mark ' ' :: .mark '=' :: l' := by
  intro heq
  cases x with
  | phi p => cases hdst
  | instr x =>
    cases x with
    | store a v =>
      have ha : IsListableValue t a := h.operand a List.mem_cons_self
      simp only [tail, Instr.lead, operandPieces, Instr.operands, List.map_cons,
        Piece.separated_cons, List.append_assoc, List.cons_append, List.nil_append,
        List.cons.injEq, true_and] at heq
      exact ha.pieces_ne heq
    | _ => cases hdst
  | term x =>
    cases x with
    | ret o =>
      cases o with
      | none => cases heq
      | some v =>
        have hv : IsListableValue t (some v) := ⟨rfl, h.names⟩
        exact hv.pieces_ne (List.cons.inj heq).2
    | br cond onTrue onFalse =>
      have hcond : IsListableValue t cond :=
        ⟨h.whole, fun n hn => h.names n (List.mem_append_left _ hn)⟩
      simp only [tail, Terminator.tail, List.append_assoc, List.cons_append, List.cons.injEq,
        true_and] at heq
      exact hcond.pieces_ne heq
    | jmp target => cases heq

theorem Instr.eq_of_tail {x y : Instr} (hx : (Line.instr x).IsListable t)
    (hy : (Line.instr y).IsListable t) (hop : x.op = y.op)
    (hdst : x.destinations.head? = y.destinations.head?) {l l' : List Piece}
    (heq : (Line.instr x).tail t ++ .mark '\n' :: l = (Line.instr y).tail t ++ .mark '\n' :: l') :
    x = y ∧ l = l' := by
  have hxop : x.OpFits := hx.whole.op
  have hyop : y.OpFits := hy.whole.op
  have hshape : x.shape = y.shape := hxop.symm.trans ((congrArg Op.shape hop).trans hyop)
  -- instructions of one shape have the same marks in front of their operands
  have hlead : x.callees = y.callees ∧ operandPieces t x.operands ++ .mark '\n' :: l =
      operandPieces t y.operands ++ .mark '\n' :: l' := by
    simp only [Line.tail, List.append_assoc] at heq
    cases x with
    | call dst func args =>
      cases y with
      | call dst' func' args' =>
        have hfunc : t.HasWord func := hx.own func (by simp [ownNames])
        have hfunc' : t.HasWord func' := hy.own func' (by simp [ownNames])
        simp only [lead, List.cons_append, List.nil_append, List.cons.injEq, Piece.word.injEq,
          true_and] at heq
        exact ⟨congrArg (fun n => [n]) (hfunc.eq hfunc' heq.1), heq.2⟩
      | _ => cases hshape
    | alloca dst =>
      cases y with
      | alloca dst' => exact ⟨rfl, heq⟩
      | _ => cases hshape
    | _ =>
      cases y <;> first | exact ⟨rfl, (List.cons.inj heq).2⟩ | cases hshape
  obtain ⟨hoperands, hrest⟩ :=
    separable_operands hx.operand hy.operand ⟨l, rfl⟩ ⟨l', rfl⟩ hlead.2
  exact ⟨eq_of_parts hxop hyop hop hdst hlead.1 hoperands, (List.cons.inj hrest).2⟩

theorem Terminator.eq_of_tail {x y : Terminator} (hx : (Line.term x).IsListable t)
    (hy : (Line.term y).IsListable t) (hkeyword : (Line.term x).keyword = (Line.term y).keyword)
    {l l' : List Piece} (heq : x.tail t ++ .mark '\n' :: l = y.tail t ++ .mark '\n' :: l') :
    x = y ∧ l = l' := by
  have hret : ("ret" : Text) ≠ "br" ∧ ("ret" : Text) ≠ "jmp" ∧ ("br" : Text) ≠ "jmp" := by decide
  cases x with
  | ret o =>
    cases y with
    | ret o' =>
      cases o with
      | none =>
        cases o' with
        | none => exact ⟨rfl, (List.cons.inj heq).2⟩
        | some v' => cases heq
      | some v =>
        cases o' with
        | none => cases heq
        | some v' =>
          obtain ⟨hvalue, hrest⟩ := separable_value ⟨rfl, hx.names⟩ ⟨rfl, hy.names⟩ trivial trivial
            (List.cons.inj heq).2
          exact ⟨congrArg _ hvalue, (List.cons.inj hrest).2⟩
    | br c a b => exact (hret.1 hkeyword).elim
    | jmp a => exact (hret.2.1 hkeyword).elim
  | br cond onTrue onFalse =>
    cases y with
    | ret o => exact (hret.1 hkeyword.symm).elim
    | br cond' onTrue' onFalse' =>
      obtain ⟨hcond, htargets⟩ := List.forall_mem_append.1 hx.names
      obtain ⟨hcond', htargets'⟩ := List.forall_mem_append.1 hy.names
      simp only [tail, List.append_assoc, List.cons_append, List.nil_append, List.cons.injEq,
        true_and] at heq
      obtain ⟨hvalue, hrest⟩ :=
        separable_value ⟨hx.whole, hcond⟩ ⟨hy.whole, hcond'⟩ trivial trivial heq
      simp only [List.cons.injEq, Piece.word.injEq, true_and] at hrest
      obtain ⟨htrue, hfalse, hrest⟩ := hrest
      have htrue := (htargets onTrue (by simp)).eq (htargets' onTrue' (by simp)) htrue
      have hfalse := (htargets onFalse (by simp)).eq (htargets' onFalse' (by simp)) hfalse
      rw [hvalue, htrue, hfalse]
      exact ⟨rfl, hrest⟩
    | jmp a => exact (hret.2.2 hkeyword).elim
  | jmp target =>
    cases y with
    | ret o => exact (hret.2.1 hkeyword.symm).elim
    | br c a b => exact (hret.2.2 hkeyword.symm).elim
    | jmp target' =>
      simp only [tail, List.cons_append, List.nil_append, List.cons.injEq, Piece.word.injEq,
        true_and] at heq
      have htarget := hx.names target List.mem_cons_self
      have htarget' := hy.names target' List.mem_cons_self
      rw [htarget.eq htarget' heq.1]
      exact ⟨rfl, heq.2⟩

/-- No operation has the name of another keyword. -/
theorem Line.keyword_ne {x : Instr} {y : Line} (hx : (Line.instr x).IsListable t)
    (hy : ∀ z, y ≠ .instr z) : (Line.instr x).keyword ≠ y.keyword := by
  have hall : ∀ s ∈ Op.texts, s ≠ "phi" ∧ s ≠ "ret" ∧ s ≠ "br" ∧ s ≠ "jmp" := by decide
  obtain ⟨hphi, hret, hbr, hjmp⟩ := hall _ (Op.text_mem hx.whole.op.lt)
  cases y with
  | phi p => exact hphi
  | instr z => exact (hy z rfl).elim
  | term z =>
    cases z with
    | ret o => exact hret
    | br c a b => exact hbr
    | jmp a => exact hjmp

theorem separable_line : Separable (Line.IsListable t) (Line.pieces t) (fun _ => True) := by
  intro x y l l' hx hy _ _ heq
  simp only [Line.pieces, List.cons_append, List.append_assoc, List.nil_append, List.cons.injEq,
    true_and] at heq
  obtain ⟨hdst, hkeyword, htail⟩ := eq_of_assignment hx.dst hy.dst
    (fun hnone => hx.tail_ne hnone l) (fun hnone => hy.tail_ne hnone l') heq
  -- a phi is assigned and a terminator is not; the keyword tells both from an instruction
  cases x with
  | phi p =>
    cases y with
    | phi q =>
      obtain ⟨hsources, hrest⟩ :=
        separable_sources hx.source hy.source ⟨l, rfl⟩ ⟨l', rfl⟩ htail
      obtain ⟨dst, sources⟩ := p
      obtain ⟨dst', sources'⟩ := q
      obtain rfl : dst = dst' := Option.some.inj hdst
      obtain rfl : sources = sources' := hsources
      exact ⟨rfl, (List.cons.inj hrest).2⟩
    | instr y => exact (Line.keyword_ne hy (by simp) hkeyword.symm).elim
    | term y => cases hdst
  | instr x =>
    cases y with
    | phi q => exact (Line.keyword_ne hx (by simp) hkeyword).elim
    | instr y =>
      have hop : x.op = y.op := Op.text_inj hx.whole.op.lt hy.whole.op.lt hkeyword
      obtain ⟨rfl, hrest⟩ := Instr.eq_of_tail hx hy hop hdst htail
      exact ⟨rfl, hrest⟩
    | term y => exact (Line.keyword_ne hx (by simp) hkeyword).elim
  | term x =>
    cases y with
    | phi q => cases hdst
    | instr y => exact (Line.keyword_ne hy (by simp) hkeyword.symm).elim
    | term y =>
      obtain ⟨rfl, hrest⟩ := Terminator.eq_of_tail hx hy hkeyword htail
      exact ⟨rfl, hrest⟩

/-! ### Reading blocks and functions -/

/-- The phi on a line. -/
def Line.phi? : Line → Option Phi
  | phi p => some p
  | _ => none

/-- The instruction on a line. -/
def Line.instr? : Line → Option Instr
  | instr x => some x
  | _ => none

/-- The terminator on a line. -/
def Line.term? : Line → Option Terminator
  | term x => some x
  | _ => none

/-- The parts of a block can be found among its lines. -/
theorem Block.filterMap_lines (b : Block) :
    b.lines.filterMap Line.phi? = b.phis ∧
    b.lines.filterMap Line.instr? = b.code.reduceOption ∧
    b.lines.filterMap Line.term? = b.term.toList := by
  simp [lines, List.filterMap_map, Function.comp_def, Line.phi?, Line.instr?, Line.term?]

theorem Block.eq_of_lines {b b' : Block} (h : b.IsWhole) (h' : b'.IsWhole)
    (hlabel : b.label = b'.label) (heq : b.lines = b'.lines) : b = b' := by
  obtain ⟨hphis, hcode, hterm⟩ := b.filterMap_lines
  obtain ⟨hphis', hcode', hterm'⟩ := b'.filterMap_lines
  rw [heq, hphis'] at hphis
  rw [heq, hcode'] at hcode
  rw [heq, hterm'] at hterm
  obtain ⟨label, phis, code, term⟩ := b
  obtain ⟨label', phis', code', term'⟩ := b'
  obtain ⟨xs, -, rfl⟩ := exists_map_some h.code
  obtain ⟨ys, -, rfl⟩ := exists_map_some h'.code
  have hterms : term = term' := by
    cases term <;> cases term' <;> simp_all
  have hcodes : xs = ys := by
    simpa [List.reduceOption] using hcode.symm
  obtain rfl : label = label' := hlabel
  obtain rfl : phis' = phis := hphis
  rw [hterms, hcodes]

theorem separable_block :
    Separable (Block.IsListable t) (Block.pieces t) (fun l => ∀ l', l ≠ .mark '\t' :: l') := by
  intro b b' l l' h h' hl hl' heq
  -- every line starts with a tab, and what stands behind a block does not
  have hlines : Separable _ (fun xs : List Line => xs.flatMap (Line.pieces t)) _ :=
    separable_line.flatMap fun _ _ _ => trivial
  have hends : ∀ {k : List Piece}, (∀ k', k ≠ .mark '\t' :: k') →
      Ends (Line.IsListable t) (Line.pieces t) k := fun hk x r _ => hk _
  simp only [Block.pieces, List.cons_append, List.cons.injEq, Piece.word.injEq, true_and] at heq
  obtain ⟨hxs, hrest⟩ := hlines h.line h'.line ⟨trivial, hends hl⟩ ⟨trivial, hends hl'⟩ heq.2
  exact ⟨Block.eq_of_lines h.whole h'.whole (h.label.eq h'.label heq.1) hxs, hrest⟩

theorem separable_args :
    Separable (fun ns => ∀ n ∈ ns, t.HasWord n)
      (fun ns : List Name => separated [',', ' '] (ns.map fun n => [.word (t.text n)]))
      (fun l => ∃ l', l = .mark ')' :: l') := by
  have hname : Separable t.HasWord (fun n => [.word (t.text n)]) (fun _ => True) := by
    intro n n' l l' hn hn' _ _ heq
    obtain ⟨hword, hrest⟩ := List.cons.inj heq
    exact ⟨hn.eq hn' (Piece.word.inj hword), hrest⟩
  refine hname.separated_closed (fun _ => trivial) (fun _ => trivial) (by decide) ?_
  intro n l l' _ heq
  cases heq

theorem Func.pieces_inj {f f' : Func} (h : f.IsListable t) (h' : f'.IsListable t)
    (heq : f.pieces t = f'.pieces t) : f = f' := by
  obtain ⟨hname, hargs, hblocks⟩ := h.parts
  obtain ⟨hname', hargs', hblocks'⟩ := h'.parts
  have hlist : Separable _ (fun bs : List Block => bs.flatMap (Block.pieces t)) _ :=
    separable_block.flatMap fun b r _ l' heq => by cases heq
  have hends : Ends (Block.IsListable t) (Block.pieces t) [.mark '\x7d', .mark '\n'] := by
    intro b r _ heq
    cases heq
  obtain ⟨name, args, blocks⟩ := f
  obtain ⟨name', args', blocks'⟩ := f'
  simp only [Func.pieces, List.cons_append, List.nil_append, List.cons.injEq, Piece.word.injEq,
    true_and] at heq
  obtain rfl := hname.eq hname' heq.1
  obtain ⟨rfl, hbody⟩ := separable_args hargs hargs' ⟨_, rfl⟩ ⟨_, rfl⟩ heq.2
  simp only [List.cons.injEq, true_and] at hbody
  obtain ⟨rfl, -⟩ := hlist hblocks hblocks' ⟨by simp, hends⟩ ⟨by simp, hends⟩ hbody
  rfl

/-- **A listing loses nothing.** Functions that can be listed have listings, and the same listing
only if they are the same. -/
theorem Func.listing_lossless {f f' : Func} (h : f.IsListable t) (h' : f'.IsListable t) :
    ∃ s s', funcText t f = .ok s ∧ funcText t f' = .ok s' ∧ (s = s' → f = f') := by
  refine ⟨_, _, funcText_eq h, funcText_eq h', fun heq => ?_⟩
  exact Func.pieces_inj h h' (Piece.spell_injective (Func.legible h) (Func.legible h') heq)

end Ir

namespace Sample

/-- A table whose words are keywords of listings. -/
def keywordTable : NameTable := .ofTexts ["", "ret", "phi", "store"] (by decide) rfl

/-- A function named `ret` with a block named `phi`, where `store` is an argument. -/
def keywordFunc (term : Option Ir.Terminator) : Ir.Func where
  name := ⟨1⟩
  args := [⟨3⟩]
  blocks := [{
    label := ⟨2⟩
    phis := [⟨⟨1⟩, []⟩, ⟨⟨2⟩, [⟨⟨2⟩, some (.imm (-1))⟩]⟩]
    code := [some (.store (some (.reg ⟨3⟩)) (some (.imm 0))), some (.call ⟨3⟩ ⟨2⟩ [])]
    term := term }]

theorem isListable_keywordFunc {term : Option Ir.Terminator} (hterm : ∀ x ∈ term, x.IsWhole)
    (hnames : ∀ n ∈ (keywordFunc term).names, n ∈ [(⟨1⟩ : Name), ⟨2⟩, ⟨3⟩]) :
    (keywordFunc term).IsListable keywordTable := by
  have hwords : ∀ n ∈ [(⟨1⟩ : Name), ⟨2⟩, ⟨3⟩], keywordTable.HasWord n := by
    simp only [List.forall_mem_cons]
    exact ⟨⟨"ret", rfl, by decide⟩, ⟨"phi", rfl, by decide⟩, ⟨"store", rfl, by decide⟩, by simp⟩
  refine ⟨fun n hn => hwords n (hnames n hn), List.forall_mem_singleton.2 ⟨?_, ?_, hterm⟩⟩
  · change ∀ p ∈ [_, _], ∀ s ∈ Ir.Phi.sources p, s.value.isSome = true
    decide
  · rintro o (_ | ⟨_, _ | ⟨_, ho⟩⟩)
    · exact ⟨_, rfl, rfl, by decide⟩
    · exact ⟨_, rfl, rfl, by decide⟩
    · cases ho

/-- A return of the register `ret` is not lost. -/
theorem listing_lossless_keywords : ∃ s s',
    Ir.funcText keywordTable (keywordFunc (some (.ret (some (.reg ⟨1⟩))))) = .ok s ∧
      Ir.funcText keywordTable (keywordFunc none) = .ok s' ∧ s ≠ s' := by
  have hret : (keywordFunc (some (.ret (some (.reg ⟨1⟩))))).IsListable keywordTable :=
    isListable_keywordFunc (by simp [Ir.Terminator.IsWhole]) (by decide)
  have hnone : (keywordFunc none).IsListable keywordTable :=
    isListable_keywordFunc (by simp) (by decide)
  obtain ⟨s, s', hs, hs', hsame⟩ := Ir.Func.listing_lossless hret hnone
  refine ⟨s, s', hs, hs', fun heq => ?_⟩
  have hfunc := hsame heq
  revert hfunc
  decide

end Sample

end CodeTiling
