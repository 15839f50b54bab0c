import CodeTiling.Proofs.Pipeline
import CodeTiling.Proofs.RenamedLiveness

/-!
# The numbers of names do not show

Which number a text gets depends on what was interned before it, and so on the order in which
documents happen to be read. Two tables may hold the same texts under different numbers. Rules and a
program over one of them, and the same rules and program over the other, compile to the same.

On each side the functions come to what they come to alone; alone, a function and its counterpart
are selected in lockstep. The three comparisons are chained by what they leave equal, the texts and
the live registers of the functions.

* `selectFuncs_renumbered` : the functions of two such programs come to the same error, or to code
  with the same texts and the same live registers;
* `compile_renumbered` : so do the programs.
-/

namespace CodeTiling

open Relator (BiUnique)
open Code (Fn Assembly)

/-! ### What is seen of a function -/

/-- Functions of two runs that are seen as the same, each with the table of its run. -/
structure SameOutput (T T' : NameTable) (f g : Fn) : Prop where
  /-- The texts are the same. -/
  text : f.text? T = g.text? T'
  /-- The live registers are. -/
  live : Live.shown T f = Live.shown T' g

namespace SameOutput

variable {T T' T'' : NameTable} {f g h : Fn}

theorem of_related {bs cs : List Code.Block}
    (h : List.Forall₂ (Code.Block.Related (SameText T T')) bs cs) (args args' : List Name) :
    SameOutput T T' ⟨args, bs⟩ ⟨args', cs⟩ :=
  ⟨Fn.text?_eq_of_related h args args', Live.shown_eq h args args'⟩

theorem symm (hfg : SameOutput T T' f g) : SameOutput T' T g f := ⟨hfg.text.symm, hfg.live.symm⟩

theorem trans (hfg : SameOutput T T' f g) (hgh : SameOutput T' T'' g h) : SameOutput T T'' f h :=
  ⟨hfg.text.trans hgh.text, hfg.live.trans hgh.live⟩

end SameOutput

/-! ### Functions -/

section

variable {t t' : NameTable}

section

variable {α β : Type} {S : α → β → Prop} {names : α → List Name} {names' : β → List Name}
  (hS : ∀ a b, S a b → List.Forall₂ (SameText t t') (names a) (names' b)) {as : List α}
  {bs : List β} (h : List.Forall₂ S as bs)
include hS h

/-- The names of what stands in related lists are known to the tables. -/
theorem knows_left : ∀ a ∈ as, t.Knows (names a) := fun a ha n hn =>
  forall_isIssued_left (List.rel_flatMap h hS) n (List.mem_flatMap.2 ⟨a, ha, hn⟩)

theorem knows_right : ∀ b ∈ bs, t'.Knows (names' b) := fun b hb n hn =>
  forall_isIssued_right (List.rel_flatMap h hS) n (List.mem_flatMap.2 ⟨b, hb, hn⟩)

end

/-- Of related functions the same ones have the name of an earlier one. -/
theorem duplicateFunc?_rel {R : Name → Name → Prop} (hR : BiUnique R) {fs gs : List Ir.Func}
    (h : List.Forall₂ (Ir.Func.Related R) fs gs) {seen seen' : List Name}
    (hseen : List.Forall₂ R seen seen') :
    Option.Rel R (duplicateFunc? seen fs) (duplicateFunc? seen' gs) := by
  induction h generalizing seen seen' with
  | nil => exact .none
  | @cons f g _ _ hfg _ ih =>
    have hmem : f.name ∈ seen ↔ g.name ∈ seen' := List.rel_mem hR hfg.name hseen
    unfold duplicateFunc?
    by_cases hf : f.name ∈ seen
    · rw [if_pos hf, if_pos (hmem.1 hf)]
      exact .some hfg.name
    · rw [if_neg hf, if_neg (hmem.not.1 hf)]
      exact ih (.cons hfg.name hseen)

variable (hnames : SameNames t t') {e e' : Engine}
  (hrules : List.Forall₂ (Rule.Related (SameText t t')) e.rules e'.rules)
include hnames hrules

/-- A function and its counterpart come, each alone, to the same error or to related blocks. -/
theorem alone_same {f g : Ir.Func} (h : f.Related (SameText t t') g) :
    SameOutcome (fun x y => List.Forall₂ (Code.Block.Related (SameText x.2 y.2)) x.1 y.1)
      (e.alone t f) (e'.alone t' g) := by
  have halike : (Naming.ofTable t).Alike t t' (.ofTable t') :=
    ⟨NameTable.le_refl t, NameTable.le_refl t', rfl, rfl, rfl⟩
  have hsame := (selectFunc_inStep hnames hrules h halike).outcome
  change SameOutcome (List.Forall₂ (Code.Block.Related
    (SameText (e.selectFresh t f).2 (e'.selectFresh t' g).2))) (e.selectFresh t f).1
    (e'.selectFresh t' g).1 at hsame
  rw [Engine.alone, Engine.alone]
  generalize (e.selectFresh t f).1 = x, (e'.selectFresh t' g).1 = y at hsame ⊢
  cases hsame with
  | error err => exact .error err
  | ok h => exact .ok h

/-- The functions of two programs over tables that differ in their numbers come to the same error,
or to code that is seen as the same. -/
theorem selectFuncs_renumbered (he : e.BuiltOn t) (he' : e'.BuiltOn t') {fs gs : List Ir.Func}
    (h : List.Forall₂ (Ir.Func.Related (SameText t t')) fs gs) (workers workers' : Int)
    (s : Schedule fs.length) (s' : Schedule gs.length) :
    SameOutcome (fun x y => List.Forall₂
        (fun bs cs => ∀ args args', SameOutput x.2 y.2 ⟨args, bs⟩ ⟨args', cs⟩) x.1 y.1)
      (selectFuncs e t workers fs s) (selectFuncs e' t' workers' gs s') := by
  have hleft := selectFuncs_same (knows_left (fun _ _ hfg => hfg.names) h) he workers s
  have hright := selectFuncs_same (knows_right (fun _ _ hfg => hfg.names) h) he' workers' s'
  -- in the middle stand the functions alone, which go through selection in step
  have halone := collect_same 0 (List.rel_map (fun _ _ hfg => alone_same hnames hrules hfg) h)
  refine ((hleft.trans halone).trans hright.symm).imp fun x y hxy => ?_
  obtain ⟨vs, ⟨us, hx, huv⟩, hy⟩ := hxy
  refine (forall₂_chain (forall₂_chain hx huv) hy.flip).imp fun bs cs hbs args args' => ?_
  obtain ⟨v, ⟨u, hbu, huv⟩, hcv⟩ := hbs
  have hu : SameOutput x.2 u.2 ⟨args, bs⟩ ⟨args, u.1⟩ := .of_related hbu args args
  have hv : SameOutput u.2 v.2 ⟨args, u.1⟩ ⟨args', v.1⟩ := .of_related huv args args'
  have hc : SameOutput y.2 v.2 ⟨args', cs⟩ ⟨args', v.1⟩ := .of_related hcv args' args'
  exact (hu.trans hv).trans hc.symm

end

/-! ### Programs -/

section

variable {t t' : NameTable} {rules rules' : List Rule}
  (hrules : List.Forall₂ (Rule.Related (SameText t t')) rules rules')
include hrules

/-- Rules and their counterparts are refused with the same error, or both make an engine. -/
theorem builtOn_same :
    SameOutcome
      (fun e e' => (e.BuiltOn t ∧ e.rules = rules) ∧ e'.BuiltOn t' ∧ e'.rules = rules')
      (Engine.ofRules t rules) (Engine.ofRules t' rules') := by
  refine (ofRules_same hrules).with_eq.imp fun e e' hengines => ?_
  obtain ⟨-, he, he'⟩ := hengines
  exact ⟨Engine.ofRules_builtOn (knows_left (fun _ _ hrq => hrq.names) hrules) he,
    Engine.ofRules_builtOn (knows_right (fun _ _ hrq => hrq.names) hrules) he'⟩

variable (hnames : SameNames t t') {p p' : Ir.Program} (hp : p.Related (SameText t t') p')
  (workers workers' : Int) (s : Schedule p.funcs.length) (s' : Schedule p'.funcs.length)
include hnames hp

/-- Programs over tables that differ in their numbers compile to the same error, or to assemblies
that are seen as the same. -/
theorem compile_sameOutput :
    SameOutcome
      (fun x y => x.1.data = y.1.data ∧
        RelatedEntries (SameText t t') (SameOutput x.2 y.2) x.1.fns y.1.fns)
      (compile t rules p workers s) (compile t' rules' p' workers' s') := by
  have hdup := duplicateFunc?_rel SameText.biUnique hp.funcs .nil
  rw [compile, compile]
  -- either two functions have one name on both sides, and the error reads its text, or on none
  generalize duplicateFunc? [] p.funcs = o, duplicateFunc? [] p'.funcs = o' at hdup ⊢
  cases hdup with
  | some hn =>
    dsimp only
    rw [hn.blame_eq]
    exact .error _
  | none =>
    refine ((builtOn_same hrules).within .rules).bind fun e e' hengines => ?_
    obtain ⟨⟨he, rfl⟩, he', rfl⟩ := hengines
    refine (selectFuncs_renumbered hnames hrules he he' hp.funcs workers workers' s s').bind
      fun x y hxy => .ok ⟨?_, ?_⟩
    · rw [data_assemble, data_assemble, hp.data]
    · exact relatedEntries_assemble SameText.biUnique (hp.funcs.imp fun _ _ hfg => hfg.name) hxy

end

/-- **The numbers of names do not show.** Let two tables hold the same texts, and let rules and a
program over the first be equal to rules and a program over the second once every name is read as
its text. Then, for all numbers of workers and all schedules, the two compilations fail with the
same error, or both succeed:

* they come to the same text, and there is one when no part of the functions is missing;
* function by function, under names of one text, they come to the same live registers, read as texts
  and in the same order. -/
theorem compile_renumbered {t t' : NameTable} (hnames : SameNames t t') {rules rules' : List Rule}
    (hrules : List.Forall₂ (Rule.Related (SameText t t')) rules rules') {p p' : Ir.Program}
    (hp : p.Related (SameText t t') p') (workers workers' : Int) (s : Schedule p.funcs.length)
    (s' : Schedule p'.funcs.length) :
    SameOutcome
      (fun x y => x.1.text? x.2 = y.1.text? y.2 ∧
        ((∀ f ∈ p.funcs, f.IsFull) → (x.1.text? x.2).isSome) ∧
        RelatedEntries (SameText t t') (fun f g => Live.shown x.2 f = Live.shown y.2 g) x.1.fns
          y.1.fns)
      (compile t rules p workers s) (compile t' rules' p' workers' s') := by
  have hsame := compile_sameOutput hrules hnames hp workers workers' s s'
  refine hsame.with_eq.imp fun x y hxy => ?_
  obtain ⟨⟨hdata, hfns⟩, hx, -⟩ := hxy
  refine ⟨?_, fun hfull => ?_, ?_⟩
  · exact Assembly.text?_eq hdata (hfns.imp fun _ _ h => h.2.text)
  · have hloaded : ∀ f ∈ p.funcs, Load.FuncLoaded t f := fun f hf =>
      ⟨hfull f hf, knows_left (fun _ _ hfg => hfg.names) hp.funcs f hf⟩
    have hknown := knows_left (fun _ _ hrq => hrq.names) hrules
    exact Option.isSome_iff_exists.2 (exists_text_of_compile hloaded hknown hx)
  · exact hfns.imp fun _ _ h => ⟨h.1, h.2.live⟩

namespace Sample

/-- The texts of `table`, numbered from the other end. -/
def reversed : NameTable :=
  .ofTexts ["", "ret", "neg", "mov", "z", "y", "x", "t", "d", "a", "entry", "f"] (by decide) rfl

/-- The rules of `engine` over the other numbers. -/
def reversedRules : List Rule := [
  { name := "negate"
    pattern := { code := [some (.unary ⟨12⟩ ⟨8⟩ (.reg ⟨9⟩))] }
    template := [
      { mnemonic := ⟨3⟩, args := [some (.atom (.fresh ⟨7⟩)), some (.atom (.ref ⟨9⟩))] },
      { mnemonic := ⟨2⟩, args := [some (.atom (.ref ⟨7⟩))] },
      { mnemonic := ⟨3⟩, args := [some (.atom (.ref ⟨8⟩)), some (.atom (.ref ⟨7⟩))] }] },
  { name := "giveBack"
    pattern := { last := some (.ret (some (.reg ⟨9⟩))) }
    template := [
      { mnemonic := ⟨3⟩, args := [some (.atom (.machine ⟨0⟩)), some (.atom (.ref ⟨9⟩))] },
      { mnemonic := ⟨1⟩ }] }]

/-- The block of `func` over the other numbers. -/
def reversedBlock : Ir.Block where
  label := ⟨10⟩
  code := [some (.unary ⟨12⟩ ⟨5⟩ (some (.reg ⟨6⟩))), some (.unary ⟨12⟩ ⟨4⟩ (some (.reg ⟨5⟩)))]
  term := some (.ret (some (.reg ⟨4⟩)))

/-- The program `twoFuncs` over the other numbers. -/
def reversedFuncs : Ir.Program where
  funcs := [⟨⟨11⟩, [⟨6⟩], [reversedBlock]⟩, ⟨⟨9⟩, [⟨6⟩], [reversedBlock]⟩]

theorem isFull_block : block.IsFull where
  phis := by simp [block]
  code := by simp [block, Ir.Instr.IsFull, Ir.Instr.operands]
  term := by simp [block, Ir.Terminator.IsFull]

end Sample

/-- Two functions and the rules for them, over a table and over the same table numbered from the
other end, compile to one text with one report of live registers. -/
theorem compile_renumbered_sample :
    SameNames Sample.table Sample.reversed ∧
      List.Forall₂ (Rule.Related (SameText Sample.table Sample.reversed)) Sample.engine.rules
        Sample.reversedRules ∧
      Sample.twoFuncs.Related (SameText Sample.table Sample.reversed) Sample.reversedFuncs ∧
      ∃ x y,
        compile Sample.table Sample.engine.rules Sample.twoFuncs 4 Sample.secondFirst = .ok x ∧
        compile Sample.reversed Sample.reversedRules Sample.reversedFuncs 1 (.inOrder _) = .ok y ∧
        x.1.text? x.2 = y.1.text? y.2 ∧ (x.1.text? x.2).isSome ∧
        RelatedEntries (SameText Sample.table Sample.reversed)
          (fun f g => Live.shown x.2 f = Live.shown y.2 g) x.1.fns y.1.fns := by
  have hnames : SameNames Sample.table Sample.reversed := fun s => List.Perm.mem_iff (by decide)
  have hrules : List.Forall₂ (Rule.Related (SameText Sample.table Sample.reversed))
      Sample.engine.rules Sample.reversedRules := by
    repeat' first | exact ⟨_, rfl, rfl⟩ | constructor
  have hp : Sample.twoFuncs.Related (SameText Sample.table Sample.reversed)
      Sample.reversedFuncs := by
    repeat' first | exact ⟨_, rfl, rfl⟩ | constructor
  refine ⟨hnames, hrules, hp, ?_⟩
  have hsame := compile_renumbered hnames hrules hp 4 1 Sample.secondFirst (.inOrder _)
  have hok : ∃ x, compile Sample.table Sample.engine.rules Sample.twoFuncs 4 Sample.secondFirst =
    .ok x := ⟨_, rfl⟩
  generalize compile Sample.table Sample.engine.rules Sample.twoFuncs 4 Sample.secondFirst = x,
    compile Sample.reversed Sample.reversedRules Sample.reversedFuncs 1 (.inOrder _) = y
    at hsame hok ⊢
  cases hsame with
  | error err => simp at hok
  | ok h =>
    obtain ⟨htext, hsome, hlive⟩ := h
    refine ⟨_, _, rfl, rfl, htext, hsome ?_, hlive⟩
    simp [Sample.twoFuncs, Sample.func, Ir.Func.IsFull, Sample.isFull_block]

end CodeTiling
