import CodeTiling.Proofs.Decimals
import Mathlib.Data.List.GetD

/-!
# Texts in pieces

Instructions and listings are written in words, numbers and marks. To show that such a text
determines what it was written for, it is taken apart in two steps: the text determines its pieces,
and the pieces determine what they were written for.

The first step is done here once. Words and numbers are kept apart by marks (`Piece.Legible`), and
then a text can be divided into pieces in one way only (`Piece.spell_injective`).

For the second step `Piece.Separable` says that an item can be told from what is written at the
front of a list of pieces, given what may follow it. It holds of lists of items when it holds of an
item (`Separable.flatMap`, `Separable.separated`).
-/

namespace CodeTiling

namespace Text

/-- An octet of a word: a letter, a digit, a low line or a dot. The octets of characters outside of
ASCII count as letters. -/
def isWordOctet (o : UInt8) : Bool :=
  (97 ≤ o && o ≤ 122) || (65 ≤ o && o ≤ 90) || isDigit o || o == 95 || o == 46 || 128 ≤ o

/-- The text is a word: not empty, of octets of words, and without a digit at the start. -/
def isWord (s : Text) : Bool :=
  s.octets.all isWordOctet && s.octets.head?.any (!isDigit ·)

/-- An octet of a word or a number. -/
def isSolid (o : UInt8) : Bool := isWordOctet o || o == 45

end Text

open Text (isDigit isWordOctet isSolid)

/-- A part of what is written. -/
inductive Piece where
  /-- A word. -/
  | word (s : Text)
  /-- A number in decimal form. -/
  | number (v : Int)
  /-- A mark between words and numbers. -/
  | mark (c : Char)
deriving DecidableEq

namespace Piece

/-- The marks. -/
def marks : List Char :=
  [' ', '\t', '\n', ',', ':', '=', '+', '*', '%', '(', ')', '[', ']', '\x7b', '\x7d']

/-- The octets of a piece. -/
def octets : Piece → List UInt8
  | word s => s.octets
  | number v => (Text.decimal v).octets
  | mark c => [c.toUInt8]

/-- The piece is a mark. -/
def isMark : Piece → Bool
  | mark _ => true
  | _ => false

/-- The piece is what its constructor says. -/
def IsProper : Piece → Prop
  | word s => s.isWord = true
  | number _ => True
  | mark c => c ∈ marks

/-- The text that pieces make. -/
def spell (l : List Piece) : Text := ⟨l.flatMap octets⟩

/-- There is no word or number at the front. -/
def StartsApart (l : List Piece) : Prop := ∀ x ∈ l.head?, isMark x = true

/-- Words and numbers are kept apart by marks. -/
def Legible : List Piece → Prop
  | [] => True
  | x :: l => x.IsProper ∧ (x.isMark = true ∨ StartsApart l) ∧ Legible l

/-! ### Octets -/

theorem isSolid_mark {c : Char} (h : c ∈ marks) : isSolid c.toUInt8 = false := by
  have hall : (marks.all fun c => !isSolid c.toUInt8) = true := by decide
  simpa using List.all_eq_true.1 hall c h

theorem mark_inj {c d : Char} (hc : c ∈ marks) (hd : d ∈ marks) (h : c.toUInt8 = d.toUInt8) :
    c = d := by
  have hnodup : (marks.map Char.toUInt8).Nodup := by decide
  exact List.inj_on_of_nodup_map hnodup hc hd h

theorem isSolid_of_isDigit {o : UInt8} (h : isDigit o = true) : isSolid o = true := by
  simp [isSolid, isWordOctet, h]

/-- What stands at the front of a number. -/
theorem octets_number_cases (v : Int) :
    ∃ os, Text.IsNumeral os ∧
      ((Text.decimal v).octets = os ∨ (Text.decimal v).octets = 45 :: os) := by
  have h := Text.canonical_decimal v
  generalize Text.decimal v = s at h
  cases h with
  | nonneg hnum => exact ⟨_, hnum, .inl rfl⟩
  | neg hnum _ => exact ⟨_, hnum, .inr rfl⟩

/-- The octets of words and numbers are solid. -/
theorem isSolid_octets {x : Piece} (hx : x.IsProper) (hmark : x.isMark = false) :
    x.octets ≠ [] ∧ ∀ o ∈ x.octets, isSolid o = true := by
  cases x with
  | mark c => cases hmark
  | word s =>
    simp only [IsProper, Text.isWord, Bool.and_eq_true, List.all_eq_true] at hx
    refine ⟨fun hnil => ?_, fun o ho => by simp [isSolid, hx.1 o ho]⟩
    rw [show s.octets = [] from hnil] at hx
    simp at hx
  | number v =>
    obtain ⟨os, hnum, hos⟩ := octets_number_cases v
    have hsolid : ∀ o ∈ os, isSolid o = true := fun o ho => isSolid_of_isDigit (hnum.digits o ho)
    rcases hos with hos | hos
    · exact ⟨fun hnil => hnum.ne_nil (hos.symm.trans hnil), fun o ho => hsolid o (hos ▸ ho)⟩
    · rw [octets, hos]
      refine ⟨List.cons_ne_nil _ _, fun o ho => ?_⟩
      rcases List.mem_cons.1 ho with rfl | ho
      · rfl
      · exact hsolid o ho

/-- A word is no number. -/
theorem octets_word_ne_number {s : Text} (hs : s.isWord = true) (v : Int) :
    s.octets ≠ (Text.decimal v).octets := by
  intro heq
  simp only [Text.isWord, Bool.and_eq_true, List.all_eq_true] at hs
  obtain ⟨os, hnum, hos⟩ := octets_number_cases v
  rcases hos with hos | hos
  · obtain ⟨o, rest, rfl⟩ := List.exists_cons_of_ne_nil hnum.ne_nil
    rw [heq, hos] at hs
    simp [hnum.digits o List.mem_cons_self] at hs
  · have hminus := hs.1 45 (by rw [heq, hos]; exact List.mem_cons_self)
    cases hminus

theorem octets_inj {x y : Piece} (hx : x.IsProper) (hy : y.IsProper) (hxm : x.isMark = false)
    (hym : y.isMark = false) (h : x.octets = y.octets) : x = y := by
  cases x with
  | word s =>
    cases y with
    | word s' => exact congrArg word (Text.ext h)
    | number v => exact (octets_word_ne_number hx v h).elim
    | mark c => cases hym
  | number v =>
    cases y with
    | word s => exact (octets_word_ne_number hy v h.symm).elim
    | number w => exact congrArg number (Text.decimal_injective (Text.ext h))
    | mark c => cases hym
  | mark c => cases hxm

/-- The longest solid front of some octets is one thing. -/
theorem eq_of_solid_append {a b r r' : List UInt8} (ha : ∀ o ∈ a, isSolid o = true)
    (hb : ∀ o ∈ b, isSolid o = true) (hr : ∀ o ∈ r.head?, isSolid o = false)
    (hr' : ∀ o ∈ r'.head?, isSolid o = false) (h : a ++ r = b ++ r') : a = b ∧ r = r' := by
  have hfront : ∀ {a r : List UInt8}, (∀ o ∈ a, isSolid o = true) →
      (∀ o ∈ r.head?, isSolid o = false) → (a ++ r).takeWhile isSolid = a := by
    intro a r ha hr
    rw [List.takeWhile_append_of_pos ha]
    cases r with
    | nil => simp
    | cons o r => simp [hr o rfl]
  obtain rfl : a = b := by rw [← hfront ha hr, h, hfront hb hr']
  exact ⟨rfl, List.append_cancel_left h⟩

/-! ### The pieces of a text -/

theorem startsApart_nil : StartsApart [] := by simp [StartsApart]

theorem startsApart_mark (c : Char) (l : List Piece) : StartsApart (mark c :: l) := by
  simp [StartsApart, isMark]

theorem Legible.not_isSolid_head {l : List Piece} (h : Legible l) (hl : StartsApart l) :
    ∀ o ∈ (l.flatMap octets).head?, isSolid o = false := by
  cases l with
  | nil => simp
  | cons x l =>
    cases x with
    | mark c =>
      intro o ho
      obtain rfl : c.toUInt8 = o := by simpa [octets] using ho
      exact isSolid_mark h.1
    | _ => cases hl _ rfl

/-- The octets of a legible list show what its first piece is. -/
theorem eq_of_octets_append {x y : Piece} {l l' : List Piece} (h : Legible (x :: l))
    (h' : Legible (y :: l')) (heq : x.octets ++ l.flatMap octets = y.octets ++ l'.flatMap octets) :
    x = y ∧ l.flatMap octets = l'.flatMap octets := by
  obtain ⟨hx, hxl, hl⟩ := h
  obtain ⟨hy, hyl, hl'⟩ := h'
  -- a mark does not start as a word or a number does
  have hmark : ∀ {x y : Piece} {r r' : List UInt8}, x.IsProper → y.IsProper → x.isMark = true →
      y.isMark = false → x.octets ++ r ≠ y.octets ++ r' := by
    intro x y r r' hx hy hxm hym heq
    obtain ⟨hne, hsolid⟩ := isSolid_octets hy hym
    obtain ⟨o, os, hos⟩ := List.exists_cons_of_ne_nil hne
    cases x with
    | mark c =>
      rw [hos] at heq hsolid
      have hfirst : c.toUInt8 = o := (List.cons.inj heq).1
      have hmark := isSolid_mark hx
      rw [hfirst, hsolid o List.mem_cons_self] at hmark
      cases hmark
    | _ => cases hxm
  cases hxm : x.isMark with
  | true =>
    cases hym : y.isMark with
    | true =>
      cases x with
      | mark c =>
        cases y with
        | mark d =>
          obtain ⟨hcd, hrest⟩ := List.cons.inj heq
          exact ⟨congrArg mark (mark_inj hx hy hcd), hrest⟩
        | _ => cases hym
      | _ => cases hxm
    | false => exact (hmark hx hy hxm hym heq).elim
  | false =>
    cases hym : y.isMark with
    | true => exact (hmark hy hx hym hxm heq.symm).elim
    | false =>
      rw [hxm] at hxl
      rw [hym] at hyl
      have hlapart := hxl.resolve_left Bool.false_ne_true
      have hlapart' := hyl.resolve_left Bool.false_ne_true
      obtain ⟨hxy, hrest⟩ := eq_of_solid_append (isSolid_octets hx hxm).2 (isSolid_octets hy hym).2
        (hl.not_isSolid_head hlapart) (hl'.not_isSolid_head hlapart') heq
      exact ⟨octets_inj hx hy hxm hym hxy, hrest⟩

theorem Legible.octets_ne_nil {x : Piece} {l : List Piece} (h : Legible (x :: l)) :
    x.octets ++ l.flatMap octets ≠ [] := by
  intro hnil
  have hx := (List.append_eq_nil_iff.1 hnil).1
  cases hm : x.isMark with
  | true => cases x <;> simp_all [isMark, octets]
  | false => exact (isSolid_octets h.1 hm).1 hx

/-- **The pieces of a text.** A text can be divided into words, numbers and marks in one way. -/
theorem spell_injective {l l' : List Piece} (h : Legible l) (h' : Legible l')
    (heq : spell l = spell l') : l = l' := by
  have hoctets : l.flatMap octets = l'.flatMap octets := congrArg Text.octets heq
  clear heq
  induction l generalizing l' with
  | nil =>
    cases l' with
    | nil => rfl
    | cons y l' => exact (h'.octets_ne_nil hoctets.symm).elim
  | cons x l ih =>
    cases l' with
    | nil => exact (h.octets_ne_nil hoctets).elim
    | cons y l' =>
      obtain ⟨rfl, hrest⟩ := eq_of_octets_append h h' hoctets
      rw [ih h.2.2 h'.2.2 hrest]

/-! ### Writing in pieces -/

/-- Items with marks between each two of them. -/
def separated (sep : List Char) (items : List (List Piece)) : List Piece :=
  List.intercalate (sep.map mark) items

theorem separated_cons (sep : List Char) (x : List Piece) (items : List (List Piece)) :
    separated sep (x :: items) = x ++ items.flatMap (sep.map mark ++ ·) := by
  induction items generalizing x with
  | nil => simp [separated, List.intercalate]
  | cons y items ih =>
    have hstep : separated sep (x :: y :: items) =
        x ++ (sep.map mark ++ separated sep (y :: items)) := by
      simp [separated, List.intercalate]
    rw [hstep, ih, List.flatMap_cons, List.append_assoc]

theorem spell_append (l l' : List Piece) : spell (l ++ l') = spell l ++ spell l' :=
  Text.ext List.flatMap_append

theorem spell_word (s : Text) : spell [word s] = s := Text.ext (List.append_nil _)

theorem spell_word_cons (s : Text) (l : List Piece) : spell (word s :: l) = s ++ spell l := rfl

theorem spell_number (v : Int) : spell [number v] = Text.decimal v := Text.ext (List.append_nil _)

theorem spell_flatten (ls : List (List Piece)) : spell ls.flatten = Text.join (ls.map spell) := by
  induction ls with
  | nil => rfl
  | cons l ls ih =>
    rw [List.flatten_cons, spell_append, ih]
    rfl

theorem spell_flatMap {α : Type} (f : α → List Piece) (l : List α) :
    spell (l.flatMap f) = Text.join (l.map fun a => spell (f a)) := by
  rw [List.flatMap, spell_flatten, List.map_map]
  rfl

theorem spell_separated (sep : List Char) (items : List (List Piece)) :
    spell (separated sep items) = Text.intercalate (spell (sep.map mark)) (items.map spell) := by
  have hmap : ∀ (a : List Piece) (ls : List (List Piece)),
      (ls.intersperse a).map spell = (ls.map spell).intersperse (spell a) := by
    intro a ls
    induction ls with
    | nil => rfl
    | cons l ls ih =>
      cases ls with
      | nil => rfl
      | cons l' ls => simpa using ih
  rw [separated, List.intercalate, spell_flatten, Text.intercalate, hmap]

/-! ### Legible lists -/

section

variable {l r : List Piece} {c : Char}

theorem legible_mark_cons : Legible (mark c :: l) ↔ c ∈ marks ∧ Legible l := by
  simp [Legible, IsProper, isMark]

theorem legible_singleton {x : Piece} : Legible [x] ↔ x.IsProper := by
  simp [Legible, startsApart_nil]

/-- A mark divides what is legible. -/
theorem legible_append_mark :
    Legible (l ++ mark c :: r) ↔ Legible l ∧ c ∈ marks ∧ Legible r := by
  induction l with
  | nil => simp [Legible, legible_mark_cons]
  | cons x l ih =>
    have hapart : StartsApart (l ++ mark c :: r) ↔ StartsApart l := by
      cases l with
      | nil => simp [startsApart_nil, startsApart_mark]
      | cons y l => simp [StartsApart]
    rw [List.cons_append, Legible, Legible, ih, hapart]
    tauto

theorem legible_word_mark {s : Text} :
    Legible (word s :: mark c :: l) ↔ s.isWord = true ∧ c ∈ marks ∧ Legible l := by
  rw [← List.singleton_append, legible_append_mark, legible_singleton]
  rfl

theorem legible_marks_append {cs : List Char} (h : cs ⊆ marks) (hl : Legible l) :
    Legible (cs.map mark ++ l) := by
  induction cs with
  | nil => exact hl
  | cons c cs ih =>
    obtain ⟨hc, hcs⟩ := List.cons_subset.1 h
    exact legible_mark_cons.2 ⟨hc, ih hcs⟩

/-- Items that leave legible what stands behind them can follow one another. -/
theorem legible_flatMap {α : Type} {f : α → List Piece} {as : List α}
    (h : ∀ a ∈ as, ∀ l, Legible l → Legible (f a ++ l)) (hr : Legible r) :
    Legible (as.flatMap f ++ r) := by
  induction as with
  | nil => exact hr
  | cons a as ih =>
    obtain ⟨ha, has⟩ := List.forall_mem_cons.1 h
    rw [List.flatMap_cons, List.append_assoc]
    exact ha _ (ih has)

/-- Items can stand between marks. -/
theorem legible_separated {sep : List Char} {items : List (List Piece)}
    (hsep : c :: sep ⊆ marks) (h : ∀ l ∈ items, Legible l) :
    Legible (separated (c :: sep) items) := by
  obtain ⟨hc, hrest⟩ := List.cons_subset.1 hsep
  induction items with
  | nil => exact trivial
  | cons x items ih =>
    obtain ⟨hx, hitems⟩ := List.forall_mem_cons.1 h
    rw [separated_cons]
    cases items with
    | nil => simpa using hx
    | cons y items =>
      have hnext := ih hitems
      rw [separated_cons] at hnext
      rw [List.flatMap_cons, List.map_cons, List.cons_append, List.cons_append, List.append_assoc]
      exact legible_append_mark.2 ⟨hx, hc, legible_marks_append hrest hnext⟩

end

/-! ### Telling items apart -/

/-- What is written for an item, at the front of a list of pieces, shows which item it is, if
something follows that may follow it. -/
def Separable {α : Type} (P : α → Prop) (f : α → List Piece) (Follow : List Piece → Prop) : Prop :=
  ∀ ⦃a b : α⦄ ⦃r r' : List Piece⦄, P a → P b → Follow r → Follow r' → f a ++ r = f b ++ r' →
    a = b ∧ r = r'

/-- What follows is no further item. -/
def Ends {α : Type} (P : α → Prop) (f : α → List Piece) (r : List Piece) : Prop :=
  ∀ a l, P a → r ≠ f a ++ l

namespace Separable

variable {α : Type} {P : α → Prop} {f : α → List Piece} {Follow : List Piece → Prop}

/-- Items that may follow one another. -/
theorem flatMap (h : Separable P f Follow) (hnext : ∀ a r, P a → Follow (f a ++ r)) :
    Separable (fun as => ∀ a ∈ as, P a) (fun as : List α => as.flatMap f)
      (fun r => Follow r ∧ Ends P f r) := by
  -- what follows an item is the next one, or what follows all of them
  have hrest : ∀ {as : List α} {r : List Piece}, (∀ a ∈ as, P a) → Follow r →
      Follow (as.flatMap f ++ r) := by
    intro as r has hr
    cases as with
    | nil => exact hr
    | cons a as =>
      rw [List.flatMap_cons, List.append_assoc]
      exact hnext a _ (has a List.mem_cons_self)
  intro as bs r r' has hbs hr hr' heq
  dsimp only at heq
  induction as generalizing bs with
  | nil =>
    cases bs with
    | nil => exact ⟨rfl, heq⟩
    | cons b bs =>
      rw [List.flatMap_cons, List.append_assoc] at heq
      exact (hr.2 b _ (hbs b List.mem_cons_self) heq).elim
  | cons a as ih =>
    obtain ⟨ha, hmore⟩ := List.forall_mem_cons.1 has
    cases bs with
    | nil =>
      rw [List.flatMap_cons, List.append_assoc] at heq
      exact (hr'.2 a _ ha heq.symm).elim
    | cons b bs =>
      obtain ⟨hb, hmore'⟩ := List.forall_mem_cons.1 hbs
      rw [List.flatMap_cons, List.flatMap_cons, List.append_assoc, List.append_assoc] at heq
      obtain ⟨rfl, heqs⟩ := h ha hb (hrest hmore hr.1) (hrest hmore' hr'.1) heq
      obtain ⟨rfl, hafter⟩ := ih hmore hmore' heqs
      exact ⟨rfl, hafter⟩

/-- Items with marks between them. -/
theorem separated {c : Char} {sep : List Char} (h : Separable P f Follow)
    (hsep : ∀ l, Follow ((c :: sep).map mark ++ l)) :
    Separable (fun as => ∀ a ∈ as, P a)
      (fun as : List α => Piece.separated (c :: sep) (as.map f))
      (fun r => Follow r ∧ Ends P f r ∧ ∀ l, r ≠ mark c :: l) := by
  have htail : Separable P (fun a => (c :: sep).map mark ++ f a) Follow := by
    intro a b r r' ha hb hr hr' heq
    rw [List.append_assoc, List.append_assoc] at heq
    exact h ha hb hr hr' (List.append_cancel_left heq)
  have hnext : ∀ (a : α) (r : List Piece), Follow ((c :: sep).map mark ++ f a ++ r) := by
    intro a r
    rw [List.append_assoc]
    exact hsep _
  have htails := htail.flatMap fun a r _ => hnext a r
  have hends : ∀ {r : List Piece}, (∀ l, r ≠ mark c :: l) →
      Ends P (fun a => (c :: sep).map mark ++ f a) r := fun hr a l _ => hr _
  have hrest : ∀ {as : List α} {r : List Piece}, Follow r →
      Follow ((as.flatMap fun a => (c :: sep).map mark ++ f a) ++ r) := by
    intro as r hr
    cases as with
    | nil => exact hr
    | cons a as =>
      rw [List.flatMap_cons, List.append_assoc]
      exact hnext a _
  have hcons : ∀ (a : α) (as : List α) (r : List Piece),
      Piece.separated (c :: sep) ((a :: as).map f) ++ r =
        f a ++ ((as.flatMap fun a => (c :: sep).map mark ++ f a) ++ r) := by
    intro a as r
    rw [List.map_cons, separated_cons, List.flatMap_map, List.append_assoc]
  intro as bs r r' has hbs hr hr' heq
  dsimp only at heq
  cases as with
  | nil =>
    cases bs with
    | nil => exact ⟨rfl, heq⟩
    | cons b bs =>
      rw [hcons] at heq
      exact (hr.2.1 b _ (hbs b List.mem_cons_self) heq).elim
  | cons a as =>
    obtain ⟨ha, hmore⟩ := List.forall_mem_cons.1 has
    cases bs with
    | nil =>
      rw [hcons] at heq
      exact (hr'.2.1 a _ ha heq.symm).elim
    | cons b bs =>
      obtain ⟨hb, hmore'⟩ := List.forall_mem_cons.1 hbs
      rw [hcons, hcons] at heq
      obtain ⟨rfl, heqs⟩ := h ha hb (hrest hr.1) (hrest hr'.1) heq
      obtain ⟨rfl, hafter⟩ := htails hmore hmore' ⟨hr.1, hends hr.2.2⟩ ⟨hr'.1, hends hr'.2.2⟩ heqs
      exact ⟨rfl, hafter⟩

/-- Items between marks with another mark behind them, with which no item starts. -/
theorem separated_closed {c d : Char} {sep : List Char} (h : Separable P f Follow)
    (hsep : ∀ l, Follow ((c :: sep).map mark ++ l)) (hclose : ∀ l, Follow (mark d :: l))
    (hne : c ≠ d) (hstart : ∀ a l l', P a → f a ++ l ≠ mark d :: l') :
    Separable (fun as => ∀ a ∈ as, P a)
      (fun as : List α => Piece.separated (c :: sep) (as.map f))
      (fun r => ∃ l, r = mark d :: l) := by
  have hfollow : ∀ l, Follow (mark d :: l) ∧ Ends P f (mark d :: l) ∧
      ∀ l', mark d :: l ≠ mark c :: l' := by
    intro l
    refine ⟨hclose l, fun a l' ha heq => hstart a l' l ha heq.symm, fun l' heq => ?_⟩
    exact hne (mark.inj (List.cons.inj heq).1).symm
  rintro as bs r r' has hbs ⟨l, rfl⟩ ⟨l', rfl⟩ heq
  exact h.separated hsep has hbs (hfollow l) (hfollow l') heq

end Separable

end Piece

/-! ### Words by number, lists without gaps -/

theorem getD_mem {l : List Text} {i : Nat} (h : i < l.length) (d : Text) : l.getD i d ∈ l := by
  rw [List.getD_eq_getElem _ _ h]
  exact List.getElem_mem h

/-- A list without repetitions has one place for each entry. -/
theorem eq_of_getD_eq {l : List Text} (hnodup : l.Nodup) {i j : Nat} (hi : i < l.length)
    (hj : j < l.length) {d : Text} (h : l.getD i d = l.getD j d) : i = j := by
  rw [List.getD_eq_getElem _ _ hi, List.getD_eq_getElem _ _ hj] at h
  exact (List.Nodup.getElem_inj_iff hnodup).1 h

theorem exists_map_some {α : Type} {P : α → Prop} {l : List (Option α)}
    (h : ∀ o ∈ l, ∃ a, o = some a ∧ P a) : ∃ as : List α, (∀ a ∈ as, P a) ∧ l = as.map some := by
  induction l with
  | nil => exact ⟨[], by simp, rfl⟩
  | cons o l ih =>
    obtain ⟨⟨a, rfl, ha⟩, hrest⟩ := List.forall_mem_cons.1 h
    obtain ⟨as, has, rfl⟩ := ih hrest
    exact ⟨a :: as, List.forall_mem_cons.2 ⟨ha, has⟩, rfl⟩

/-! ### Names that are words -/

namespace NameTable

/-- The name has a word for its text. -/
def HasWord (t : NameTable) (n : Name) : Prop := ∃ s, t.text? n = some s ∧ s.isWord = true

namespace HasWord

variable {t : NameTable} {n m : Name}

theorem isIssued (h : t.HasWord n) : t.isIssued n = true := by
  obtain ⟨s, hs, -⟩ := h
  exact isIssued_iff.2 ⟨s, hs⟩

theorem isWord (h : t.HasWord n) : (t.text n).isWord = true := by
  obtain ⟨s, hs, hword⟩ := h
  rwa [text_eq hs]

/-- Names of one table with one text are the same. -/
theorem eq (hn : t.HasWord n) (hm : t.HasWord m) (h : t.text n = t.text m) : n = m := by
  obtain ⟨s, hs, -⟩ := hn
  obtain ⟨s', hs', -⟩ := hm
  rw [text_eq hs, text_eq hs'] at h
  subst h
  exact Option.some.inj ((lookup_of_text hs).symm.trans (lookup_of_text hs'))

end HasWord

end NameTable

end CodeTiling
