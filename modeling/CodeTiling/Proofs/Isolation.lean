import CodeTiling.Proofs.Interleaved

/-!
# Functions are selected in isolation

All scopes of a program are made before the first function is selected. Whatever the other functions
have put into the table by the time a function gets its turn, the function comes to what it comes to
alone: to the same error, or to the same blocks with every name read as its text.

* `selectPlaces_same` : each function of a schedule comes to what it comes to alone;
* `Crew.result_same` : so does each function when the operations of several workers on the table
  alternate in any way;
* `selectAll_same` : so does each function in the order of the program, up to the first failure;
* `collect_first_error` : the first function that fails decides the error;
* `compile_isolated` : the result of a compilation depends neither on the schedule nor on the number
  of workers.
-/

namespace CodeTiling

open Code (Fn Assembly)

/-! ### Outcomes -/

/-- What a function comes to when it is the only one: its blocks and the table that knows the names
in them, or an error. -/
def Engine.alone (e : Engine) (t : NameTable) (f : Ir.Func) :
    Except Error (List Code.Block × NameTable) :=
  (e.selectFresh t f).1.map fun bs => (bs, (e.selectFresh t f).2)

/-- Blocks whose names are read with a table are the same as some with a table of their own. -/
def SameBlocks (T : NameTable) (bs : List Code.Block) (x : List Code.Block × NameTable) : Prop :=
  List.Forall₂ (Code.Block.Related (SameText T x.2)) bs x.1

section

variable {α β : Type} {S : α → β → Prop}

/-- Outcomes that are the same one by one are the same together. -/
theorem collect_same {xs : List (Except Error α)} {ys : List (Except Error β)} (i : Nat)
    (h : List.Forall₂ (SameOutcome S) xs ys) :
    SameOutcome (List.Forall₂ S) (collect i xs) (collect i ys) := by
  induction h generalizing i with
  | nil => exact .ok .nil
  | cons hxy _ ih =>
    refine (hxy.within _).bind fun a b hab => (ih (i + 1)).bind fun as bs hrest => ?_
    exact .ok (.cons hab hrest)

/-- The first outcome that is an error decides. -/
theorem collect_first_error {xs : List (Except Error α)} {i k : Nat} {err : Error}
    (herr : xs[i]? = some (.error err)) (hbefore : ∀ j < i, ∃ a, xs[j]? = some (.ok a)) :
    collect k xs = .error (err.within (.func (k + i))) := by
  induction xs generalizing i k with
  | nil => cases herr
  | cons x xs ih =>
    cases i with
    | zero =>
      obtain rfl : x = .error err := by simpa using herr
      rfl
    | succ i =>
      obtain ⟨a, ha⟩ := hbefore 0 (Nat.succ_pos i)
      obtain rfl : x = .ok a := by simpa using ha
      have hrest := @ih i (k + 1) (by simpa using herr)
        fun j hj => by simpa using hbefore (j + 1) (Nat.succ_lt_succ hj)
      rw [Nat.add_right_comm, Nat.add_assoc] at hrest
      change (collect (k + 1) xs >>= fun rest => .ok (a :: rest)) = _
      rw [hrest]
      rfl

theorem collect_ok {xs : List (Except Error α)} (k : Nat) (h : ∀ x ∈ xs, ∃ a, x = .ok a) :
    ∃ as, collect k xs = .ok as := by
  induction xs generalizing k with
  | nil => exact ⟨[], rfl⟩
  | cons x xs ih =>
    obtain ⟨⟨a, rfl⟩, hxs⟩ := List.forall_mem_cons.1 h
    obtain ⟨as, has⟩ := ih (k + 1) hxs
    refine ⟨a :: as, ?_⟩
    change (collect (k + 1) xs >>= fun rest => .ok (a :: rest)) = _
    rw [has]
    rfl

end

/-! ### Schedules -/

section

variable {e : Engine} {t : NameTable} {funcs : List Ir.Func}

theorem Engine.alone_of_error {f : Ir.Func} {err : Error} (h : (e.selectFresh t f).1 = .error err) :
    e.alone t f = .error err := by
  rw [alone, h]
  rfl

theorem Engine.alone_of_ok {f : Ir.Func} {bs : List Code.Block}
    (h : (e.selectFresh t f).1 = .ok bs) : e.alone t f = .ok (bs, (e.selectFresh t f).2) := by
  rw [alone, h]
  rfl

theorem sameOutcome_alone_iff {f : Ir.Func} {T : NameTable} {out : Outcome} :
    SameOutcome (SameBlocks T) out (e.alone t f) ↔
      SameOutcome (List.Forall₂ (Code.Block.Related (SameText T (e.selectFresh t f).2))) out
        (e.selectFresh t f).1 := by
  cases hf : (e.selectFresh t f).1 with
  | error err =>
    rw [Engine.alone_of_error hf]
    exact ⟨fun h => by cases h; exact .error err, fun h => by cases h; exact .error err⟩
  | ok bs =>
    rw [Engine.alone_of_ok hf]
    exact ⟨fun h => by cases h with | ok h => exact .ok h,
      fun h => by cases h with | ok h => exact .ok h⟩

/-- A function that is selected later, with a scope made on `t`, comes to what it comes to alone. -/
theorem selectFunc_same (he : e.BuiltOn t) {f : Ir.Func} (hf : ∀ n ∈ f.names, t.isIssued n = true)
    {t' : NameTable} (ht' : t ≤ t') :
    t' ≤ (e.selectFunc f ⟨t', .ofTable t⟩).2.table ∧
      ∀ T, (e.selectFunc f ⟨t', .ofTable t⟩).2.table ≤ T →
        SameOutcome (SameBlocks T) (e.selectFunc f ⟨t', .ofTable t⟩).1 (e.alone t f) := by
  have halike : (⟨t', .ofTable t⟩ : Naming).Alike t t (.ofTable t) :=
    ⟨ht', NameTable.le_refl t, rfl, rfl, rfl⟩
  obtain ⟨hle, -, -, hsame⟩ := selectFunc_alike he hf halike
  refine ⟨hle, fun T hT => sameOutcome_alone_iff.2 (hsame.imp fun bs cs hbs => ?_)⟩
  exact hbs.imp fun _ _ hbc => hbc.imp fun _ _ hn => hn.mono hT (NameTable.le_refl _)

theorem selectPlaces_cons (scope : Scope) (t : NameTable) (i : Fin funcs.length)
    (order : List (Fin funcs.length)) :
    selectPlaces e scope funcs t (i :: order) =
      let run := e.selectFunc (funcs.get i) ⟨t, scope⟩
      let rest := selectPlaces e scope funcs run.2.table order
      ((i, run.1) :: rest.1, rest.2) := rfl

variable (hfuncs : ∀ f ∈ funcs, ∀ n ∈ f.names, t.isIssued n = true)
include hfuncs

/-- The functions of a schedule come to what they come to alone. The table is what is handed on from
one function to the next, and all that is needed of it is that it has grown from `t`. -/
theorem selectPlaces_same (he : e.BuiltOn t) (order : List (Fin funcs.length)) {t' : NameTable}
    (ht' : t ≤ t') :
    t' ≤ (selectPlaces e (.ofTable t) funcs t' order).2 ∧
      ∀ T, (selectPlaces e (.ofTable t) funcs t' order).2 ≤ T →
        ∀ i ∈ order, ∃ out, (selectPlaces e (.ofTable t) funcs t' order).1.lookup i = some out ∧
          SameOutcome (SameBlocks T) out (e.alone t (funcs.get i)) := by
  induction order generalizing t' with
  | nil => exact ⟨NameTable.le_refl t', by simp⟩
  | cons k order ih =>
    obtain ⟨hle, hsame⟩ := selectFunc_same he (hfuncs (funcs.get k) (List.get_mem ..)) ht'
    obtain ⟨hle', hrest⟩ := ih (NameTable.le_trans ht' hle)
    refine ⟨NameTable.le_trans hle hle', fun T hT i hi => ?_⟩
    simp only [selectPlaces_cons, List.lookup_cons]
    -- a place that stands twice in the order has the outcome of its first turn
    by_cases hik : i = k
    · subst hik
      exact ⟨_, by simp, hsame T (NameTable.le_trans hle' hT)⟩
    · have hne : (i == k) = false := by simpa using hik
      rw [hne]
      exact hrest T hT i (List.mem_of_ne_of_mem hik hi)

/-- The functions in the order of the program come to what they come to alone, up to the first
failure. -/
theorem selectAll_same (he : e.BuiltOn t) (i : Nat) {t' : NameTable} (ht' : t ≤ t') :
    SameOutcome (fun x ys => t' ≤ x.2 ∧ ∀ T, x.2 ≤ T → List.Forall₂ (SameBlocks T) x.1 ys)
      (selectAll e (.ofTable t) t' i funcs) (collect i (funcs.map (e.alone t))) := by
  induction funcs generalizing i t' with
  | nil => exact .ok ⟨NameTable.le_refl t', fun _ _ => .nil⟩
  | cons f funcs ih =>
    obtain ⟨hf, hfuncs⟩ := List.forall_mem_cons.1 hfuncs
    obtain ⟨hle, hsame⟩ := selectFunc_same he hf ht'
    have hrest := ih hfuncs (i + 1) (NameTable.le_trans ht' hle)
    -- the blocks of the first function are compared under each table that comes after it
    have hfirst : SameOutcome
        (fun bs x => ∀ T, (e.selectFunc f ⟨t', .ofTable t⟩).2.table ≤ T → SameBlocks T bs x)
        (e.selectFunc f ⟨t', .ofTable t⟩).1 (e.alone t f) := by
      have hself := hsame _ (NameTable.le_refl _)
      generalize (e.selectFunc f ⟨t', .ofTable t⟩).1 = x, e.alone t f = y at hself hsame
      cases hself with
      | error err => exact .error err
      | ok _ =>
        refine .ok fun T hT => ?_
        cases hsame T hT with
        | ok h => exact h
    refine (hfirst.within _).bind fun bs x hbs => hrest.bind fun y ys hy => .ok ?_
    exact ⟨NameTable.le_trans hle hy.1,
      fun T hT => .cons (hbs T (NameTable.le_trans hy.1 hT)) (hy.2 T hT)⟩

omit hfuncs in
theorem forall₂_filterMap_map {α β γ : Type} {S : β → γ → Prop} {f : α → Option β} {g : α → γ}
    {l : List α} (h : ∀ a ∈ l, ∃ b, f a = some b ∧ S b (g a)) :
    List.Forall₂ S (l.filterMap f) (l.map g) := by
  induction l with
  | nil => exact .nil
  | cons a l ih =>
    obtain ⟨⟨b, hb, hS⟩, hl⟩ := List.forall_mem_cons.1 h
    rw [List.filterMap_cons_some hb]
    exact .cons hS (ih hl)

omit hfuncs in
/-- Outcomes of functions by their places are put together in the order of the program. -/
theorem collect_alone_same {T : NameTable} {outs : List Outcome}
    (h : List.Forall₂ (SameOutcome (SameBlocks T)) outs
      ((List.finRange funcs.length).map fun i => e.alone t (funcs.get i))) :
    SameOutcome (fun x ys => List.Forall₂ (SameBlocks x.2) x.1 ys)
      (do let blocks ← collect 0 outs; return (blocks, T))
      (collect 0 (funcs.map (e.alone t))) := by
  have hmap : ((List.finRange funcs.length).map fun i => e.alone t (funcs.get i)) =
      funcs.map (e.alone t) := by
    conv_rhs => rw [← List.map_get_finRange funcs]
    rw [List.map_map]
    rfl
  rw [hmap] at h
  have hcollect := collect_same 0 h
  generalize collect 0 (funcs.map (e.alone t)) = y at hcollect
  rw [← bind_pure y]
  exact hcollect.bind fun bss ys h => .ok h

/-- A worker that is done has come to what its function comes to alone, however the workers have
taken turns. -/
theorem Crew.outcome_same (he : e.BuiltOn t) {turns : List (Fin funcs.length)}
    {i : Fin funcs.length} {out : Outcome}
    (h : (((start e t funcs).run turns).worker i).outcome? = some out) :
    SameOutcome (SameBlocks ((start e t funcs).run turns).table) out
      (e.alone t (funcs.get i)) := by
  have hf := hfuncs (funcs.get i) (List.get_mem ..)
  obtain ⟨hout, htable⟩ := selectFunc_of_run he hf h
  obtain ⟨-, hsame⟩ := selectFunc_same he hf (le_run (start e t funcs) turns)
  have hT := hsame ((start e t funcs).run turns).table (by rw [htable]; exact NameTable.le_refl _)
  rwa [hout] at hT

/-- A crew that is done has come to what the functions come to alone, and the first one in the order
of the program that fails decides. -/
theorem Crew.result_same (he : e.BuiltOn t) {turns : List (Fin funcs.length)}
    (hdone : ((start e t funcs).run turns).IsDone) :
    SameOutcome (fun x ys => List.Forall₂ (SameBlocks x.2) x.1 ys)
      ((start e t funcs).run turns).result (collect 0 (funcs.map (e.alone t))) := by
  refine collect_alone_same (forall₂_filterMap_map fun i _ => ?_)
  obtain ⟨out, hout⟩ := Option.isSome_iff_exists.1 (hdone i)
  exact ⟨out, hout, Crew.outcome_same hfuncs he hout⟩

/-- With any number of workers and any schedule the functions come to what they come to alone, and
the first one in the order of the program that fails decides. -/
theorem selectFuncs_same (he : e.BuiltOn t) (workers : Int) (s : Schedule funcs.length) :
    SameOutcome (fun x ys => List.Forall₂ (SameBlocks x.2) x.1 ys)
      (selectFuncs e t workers funcs s) (collect 0 (funcs.map (e.alone t))) := by
  unfold selectFuncs
  split
  · exact (selectAll_same hfuncs he 0 (NameTable.le_refl t)).imp
      fun x _ h => h.2 x.2 (NameTable.le_refl _)
  · obtain ⟨-, hsame⟩ := selectPlaces_same hfuncs he s.order (NameTable.le_refl t)
    have houts : List.Forall₂ (SameOutcome (SameBlocks _)) _
        ((List.finRange funcs.length).map fun i => e.alone t (funcs.get i)) :=
      forall₂_filterMap_map fun i _ =>
        hsame _ (NameTable.le_refl _) i (s.perm.mem_iff.2 (List.mem_finRange i))
    exact collect_alone_same houts

end

/-! ### Programs -/

/-- What a compilation is seen as: an error or the text of its assembly. -/
def rendered (x : Except Error (Assembly Fn × NameTable)) : Except Error (Option Text) :=
  x.map fun y => y.1.text? y.2

section

variable {K : Name → Name → Prop} (hK : Relator.BiUnique K) {S : Fn → Fn → Prop}
include hK

theorem RelatedEntries.put {l l' : List (Name × Fn)} (h : RelatedEntries K S l l') {n m : Name}
    (hn : K n m) {f g : Fn} (hfg : S f g) :
    RelatedEntries K S (Assembly.put n f l) (Assembly.put m g l') := by
  induction h with
  | nil => exact .cons ⟨hn, hfg⟩ .nil
  | @cons x y _ _ hxy hrest ih =>
    obtain ⟨k, _⟩ := x
    obtain ⟨k', _⟩ := y
    have hkeys : k = n ↔ k' = m := Relator.rel_eq hK hxy.1 hn
    simp only [Assembly.put, hkeys]
    split
    · exact .cons ⟨hn, hfg⟩ hrest
    · exact .cons hxy ih

theorem relatedEntries_foldl_emitFn {fs fs' : List Ir.Func}
    (hfs : List.Forall₂ (fun f g => K f.name g.name) fs fs') {bss bss' : List (List Code.Block)}
    (h : List.Forall₂ (fun bs cs => ∀ args args', S ⟨args, bs⟩ ⟨args', cs⟩) bss bss')
    {a a' : Assembly Fn} (ha : RelatedEntries K S a.fns a'.fns) :
    RelatedEntries K S
      ((fs.zip bss).foldl (fun a (x : Ir.Func × List Code.Block) =>
        a.emitFn x.1.name { args := x.1.args, blocks := x.2 }) a).fns
      ((fs'.zip bss').foldl (fun a (x : Ir.Func × List Code.Block) =>
        a.emitFn x.1.name { args := x.1.args, blocks := x.2 }) a').fns := by
  induction hfs generalizing bss bss' a a' with
  | nil => exact ha
  | cons hname _ ih =>
    cases h with
    | nil => exact ha
    | cons hbs hbss =>
      refine ih hbss ?_
      rw [Assembly.fns_emitFn, Assembly.fns_emitFn]
      exact ha.put hK hname (hbs _ _)

omit hK in
theorem fns_foldl_emitData (data : List Text) (a : Assembly Fn) :
    (data.foldl Assembly.emitData a).fns = a.fns := by
  induction data generalizing a with
  | nil => rfl
  | cons line data ih => exact ih _

/-- Programs that are assembled from related code have related functions. -/
theorem relatedEntries_assemble {p p' : Ir.Program} {bss bss' : List (List Code.Block)}
    (hfs : List.Forall₂ (fun f g => K f.name g.name) p.funcs p'.funcs)
    (h : List.Forall₂ (fun bs cs => ∀ args args', S ⟨args, bs⟩ ⟨args', cs⟩) bss bss') :
    RelatedEntries K S (assemble p bss).fns (assemble p' bss').fns := by
  refine relatedEntries_foldl_emitFn hK hfs h ?_
  rw [fns_foldl_emitData, fns_foldl_emitData]
  exact .nil

end

theorem data_foldl_emitFn (xs : List (Ir.Func × List Code.Block)) (a : Assembly Fn) :
    (xs.foldl (fun a (x : Ir.Func × List Code.Block) =>
      a.emitFn x.1.name { args := x.1.args, blocks := x.2 }) a).data = a.data := by
  induction xs generalizing a with
  | nil => rfl
  | cons x xs ih => exact ih _

theorem data_assemble (p : Ir.Program) (bss : List (List Code.Block)) :
    (assemble p bss).data = (p.data.foldl Assembly.emitData ({} : Assembly Fn)).data :=
  data_foldl_emitFn ..

/-- Lists that are related to one list are related to each other. -/
theorem forall₂_chain {α β γ : Type} {S : α → β → Prop} {S' : β → γ → Prop} {xs : List α}
    {ys : List β} {zs : List γ} (h : List.Forall₂ S xs ys) (h' : List.Forall₂ S' ys zs) :
    List.Forall₂ (fun x z => ∃ y, S x y ∧ S' y z) xs zs := by
  induction h generalizing zs with
  | nil =>
    cases h'
    exact .nil
  | cons hxy _ ih =>
    cases h' with
    | cons hyz h' => exact .cons ⟨_, hxy, hyz⟩ (ih h')

/-- Blocks that are both the same as some of a function alone have the same text. -/
theorem forall₂_text?_eq {T T' : NameTable} {bss bss' : List (List Code.Block)}
    {ys : List (List Code.Block × NameTable)} (h : List.Forall₂ (SameBlocks T) bss ys)
    (h' : List.Forall₂ (SameBlocks T') bss' ys) :
    List.Forall₂ (fun bs cs => ∀ args args' : List Name,
      Fn.text? T ⟨args, bs⟩ = Fn.text? T' ⟨args', cs⟩) bss bss' := by
  refine (forall₂_chain h h'.flip).imp fun bs cs hbs args args' => ?_
  obtain ⟨x, hbs, hcs⟩ := hbs
  rw [Fn.text?_eq_of_related hbs args args, Fn.text?_eq_of_related hcs args' args]

section

variable {e : Engine} {t : NameTable} {p : Ir.Program} {workers : Int}
  {s : Schedule p.funcs.length}

theorem compile_of_checked (he : e.BuiltOn t) (hp : duplicateFunc? [] p.funcs = none) :
    compile t e.rules p workers s =
      selectFuncs e t workers p.funcs s >>= fun z => .ok (assemble p z.1, z.2) := by
  rw [compile, hp]
  dsimp only
  rw [he.checked]
  rfl

/-- Two runs that come to what the functions come to alone are seen as the same. -/
theorem rendered_eq {x x' : Except Error (List (List Code.Block) × NameTable)}
    {y : Except Error (List (List Code.Block × NameTable))}
    (h : SameOutcome (fun x ys => List.Forall₂ (SameBlocks x.2) x.1 ys) x y)
    (h' : SameOutcome (fun x ys => List.Forall₂ (SameBlocks x.2) x.1 ys) x' y) :
    rendered (x >>= fun z => .ok (assemble p z.1, z.2)) =
      rendered (x' >>= fun z => .ok (assemble p z.1, z.2)) := by
  cases h with
  | error err =>
    cases h'
    rfl
  | @ok x _ h =>
    cases h' with
    | @ok x' _ h' =>
      have hunique : Relator.BiUnique (Eq : Name → Name → Prop) :=
        ⟨fun _ _ _ h h' => h.trans h'.symm, fun _ _ _ h h' => h.symm.trans h'⟩
      have hfns := relatedEntries_assemble hunique
        (S := fun f g => Fn.text? x.2 f = Fn.text? x'.2 g)
        (List.forall₂_same.2 fun f (_ : f ∈ p.funcs) => rfl) (forall₂_text?_eq h h')
      exact congrArg Except.ok (Assembly.text?_eq (by rw [data_assemble, data_assemble])
        (hfns.imp fun _ _ hfg => hfg.2))

/-- A compilation fails and succeeds with what the functions come to alone. -/
theorem compile_same (he : e.BuiltOn t) (hdup : duplicateFunc? [] p.funcs = none)
    (hp : ∀ f ∈ p.funcs, ∀ n ∈ f.names, t.isIssued n = true) (workers : Int)
    (s : Schedule p.funcs.length) :
    SameOutcome (fun _ _ => True) (compile t e.rules p workers s)
      (collect 0 (p.funcs.map (e.alone t))) := by
  have hsame := selectFuncs_same hp he workers s
  rw [compile_of_checked he hdup]
  generalize selectFuncs e t workers p.funcs s = x at hsame ⊢
  generalize collect 0 (p.funcs.map (e.alone t)) = y at hsame ⊢
  cases hsame with
  | error err => exact .error err
  | ok _ => exact .ok trivial

end

/-- **Functions are selected in isolation.** Let an engine of checked rules and a program use names
of a table.

* In every schedule each function comes to what it comes to alone: to the same error, or to blocks
  that are the same with all names read as texts.
* The assembly text or error of a compilation is the same for all schedules and numbers of workers.
* A compilation fails with the error of the first function, in the order of the program, that fails
  alone, and succeeds when there is none.
* All this holds as well when functions are selected at the same time and their operations on the
  table alternate in any way: a function that is done has come to what it comes to alone, all of
  them together come to the text or error of a compilation, and they can always get done. -/
theorem compile_isolated {e : Engine} {t : NameTable} {p : Ir.Program} (he : e.BuiltOn t)
    (hp : ∀ f ∈ p.funcs, ∀ n ∈ f.names, t.isIssued n = true) :
    (∀ (s : Schedule p.funcs.length) (i : Fin p.funcs.length),
      ∃ out, (selectPlaces e (.ofTable t) p.funcs t s.order).1.lookup i = some out ∧
        SameOutcome
          (List.Forall₂ (Code.Block.Related
            (SameText (selectPlaces e (.ofTable t) p.funcs t s.order).2
              (e.selectFresh t (p.funcs.get i)).2)))
          out (e.selectFresh t (p.funcs.get i)).1) ∧
    (∀ (workers workers' : Int) (s s' : Schedule p.funcs.length),
      rendered (compile t e.rules p workers s) = rendered (compile t e.rules p workers' s')) ∧
    (duplicateFunc? [] p.funcs = none → ∀ (workers : Int) (s : Schedule p.funcs.length),
      (∀ (i : Fin p.funcs.length) (err : Error),
        (e.selectFresh t (p.funcs.get i)).1 = .error err →
        (∀ j < i, ∃ bs, (e.selectFresh t (p.funcs.get j)).1 = .ok bs) →
        compile t e.rules p workers s = .error (err.within (.func i))) ∧
      ((∀ f ∈ p.funcs, ∃ bs, (e.selectFresh t f).1 = .ok bs) →
        ∃ a, compile t e.rules p workers s = .ok a)) ∧
    (∀ turns : List (Fin p.funcs.length),
      (∀ i out, (((Crew.start e t p.funcs).run turns).worker i).outcome? = some out →
        SameOutcome
          (List.Forall₂ (Code.Block.Related
            (SameText ((Crew.start e t p.funcs).run turns).table
              (e.selectFresh t (p.funcs.get i)).2)))
          out (e.selectFresh t (p.funcs.get i)).1) ∧
      (duplicateFunc? [] p.funcs = none → ((Crew.start e t p.funcs).run turns).IsDone →
        ∀ (workers : Int) (s : Schedule p.funcs.length),
          rendered (((Crew.start e t p.funcs).run turns).result >>= fun z =>
            .ok (assemble p z.1, z.2)) = rendered (compile t e.rules p workers s)) ∧
      ∃ more, ((Crew.start e t p.funcs).run (turns ++ more)).IsDone) := by
  refine ⟨fun s i => ?_, fun workers workers' s s' => ?_, fun hdup workers s => ⟨?_, ?_⟩,
    fun turns => ⟨fun i out hout => ?_, fun hdup hdone workers s => ?_, ?_⟩⟩
  · obtain ⟨-, hsame⟩ := selectPlaces_same hp he s.order (NameTable.le_refl t)
    obtain ⟨out, hout, h⟩ :=
      hsame _ (NameTable.le_refl _) i (s.perm.mem_iff.2 (List.mem_finRange i))
    exact ⟨out, hout, sameOutcome_alone_iff.1 h⟩
  · cases hdup : duplicateFunc? [] p.funcs with
    | some n => rw [compile, compile, hdup]
    | none =>
      rw [compile_of_checked he hdup, compile_of_checked he hdup]
      exact rendered_eq (selectFuncs_same hp he workers s) (selectFuncs_same hp he workers' s')
  · intro i err herr hbefore
    have hfirst : collect 0 (p.funcs.map (e.alone t)) = .error (err.within (.func (0 + i))) := by
      refine collect_first_error ?_ fun j hj => ?_
      · simpa using Engine.alone_of_error herr
      · obtain ⟨bs, hbs⟩ := hbefore ⟨j, hj.trans i.isLt⟩ hj
        exact ⟨_, by simpa [hj.trans i.isLt] using Engine.alone_of_ok hbs⟩
    have hsame := compile_same he hdup hp workers s
    rw [hfirst, Nat.zero_add] at hsame
    generalize compile t e.rules p workers s = x at hsame ⊢
    cases hsame
    rfl
  · intro hall
    obtain ⟨ys, hys⟩ : ∃ ys, collect 0 (p.funcs.map (e.alone t)) = .ok ys := by
      refine collect_ok 0 fun x hx => ?_
      obtain ⟨f, hf, rfl⟩ := List.mem_map.1 hx
      obtain ⟨bs, hbs⟩ := hall f hf
      exact ⟨_, Engine.alone_of_ok hbs⟩
    have hsame := compile_same he hdup hp workers s
    rw [hys] at hsame
    generalize compile t e.rules p workers s = x at hsame ⊢
    cases hsame
    exact ⟨_, rfl⟩
  · exact sameOutcome_alone_iff.1 (Crew.outcome_same hp he hout)
  · rw [compile_of_checked he hdup]
    exact rendered_eq (Crew.result_same hp he hdone) (selectFuncs_same hp he workers s)
  · obtain ⟨more, hmore⟩ := ((Crew.start e t p.funcs).run turns).exists_run_done
    exact ⟨more, by rwa [Crew.run_append]⟩

namespace Sample

/-- Two functions with the same code, which issue names on the same stems. -/
def twoFuncs : Ir.Program where
  funcs := [func, { func with name := ⟨3⟩ }]

/-- The second function goes first. -/
def secondFirst : Schedule twoFuncs.funcs.length := ⟨[⟨1, by decide⟩, ⟨0, by decide⟩], by decide⟩

/-- Turns of two workers at the table. Both look for their first name before either has it. -/
def turns : List (Fin twoFuncs.funcs.length) :=
  [⟨0, by decide⟩, ⟨1, by decide⟩, ⟨0, by decide⟩, ⟨1, by decide⟩, ⟨1, by decide⟩, ⟨0, by decide⟩,
    ⟨1, by decide⟩, ⟨0, by decide⟩]

/-- Two workers that have taken these turns. -/
def crew : Crew twoFuncs.funcs.length := (Crew.start engine table twoFuncs.funcs).run turns

end Sample

/-- Four workers that begin with the second function come to the text of one worker, and so do two
workers that take turns. -/
theorem compile_isolated_sample :
    Sample.engine.BuiltOn Sample.table ∧
      (∀ f ∈ Sample.twoFuncs.funcs, ∀ n ∈ f.names, Sample.table.isIssued n = true) ∧
      rendered (compile Sample.table Sample.engine.rules Sample.twoFuncs 4 Sample.secondFirst) =
        rendered (compile Sample.table Sample.engine.rules Sample.twoFuncs 1 (.inOrder _)) ∧
      (∃ a, compile Sample.table Sample.engine.rules Sample.twoFuncs 4 Sample.secondFirst =
        .ok a) ∧
      Sample.crew.IsDone ∧
      rendered (Sample.crew.result >>= fun z => .ok (assemble Sample.twoFuncs z.1, z.2)) =
        rendered (compile Sample.table Sample.engine.rules Sample.twoFuncs 1 (.inOrder _)) := by
  have hp : ∀ f ∈ Sample.twoFuncs.funcs, ∀ n ∈ f.names, Sample.table.isIssued n = true := by
    decide
  have hdup : duplicateFunc? [] Sample.twoFuncs.funcs = none := by decide
  have hdone : Sample.crew.IsDone := by
    unfold Crew.IsDone
    decide +kernel
  obtain ⟨-, hworkers, hfirst, hturns⟩ := compile_isolated Sample.builtOn hp
  refine ⟨Sample.builtOn, hp, hworkers .., (hfirst hdup 4 Sample.secondFirst).2 ?_, hdone,
    (hturns Sample.turns).2.1 hdup hdone 1 (.inOrder _)⟩
  intro f hf
  rcases List.mem_cons.1 hf with rfl | hf
  · exact ⟨_, rfl⟩
  · rw [List.mem_singleton.1 hf]
    exact ⟨_, rfl⟩

end CodeTiling
