import CodeTiling.Proofs.Growth

/-!
# No function is lost

Emitting a function replaces an earlier one of the same name without a word. A compilation loses no
function all the same: programs with two functions of one name are refused first, and the blocks
that are selected for a function are put where the function is.

* `duplicateFunc?_eq_none_iff` : what the first check refuses;
* `selectFuncs_ok` : the results of a selection are those of the functions in the same places, with
  any schedule;
* `selectFunc_opened` : which directives the selected blocks begin with;
* `compile_conserves` : what an assembly holds after any emissions, and after a compilation.
-/

namespace CodeTiling

open Code (Assembly Fn Instruction Line)

/-! ### Names of functions -/

theorem duplicateFunc?_eq_none_iff_seen {fs : List Ir.Func} {seen : List Name} :
    duplicateFunc? seen fs = none ↔
      (fs.map Ir.Func.name).Nodup ∧ ∀ n ∈ fs.map Ir.Func.name, n ∉ seen := by
  induction fs generalizing seen with
  | nil => simp [duplicateFunc?]
  | cons f fs ih =>
    unfold duplicateFunc?
    rw [List.map_cons, List.nodup_cons, List.forall_mem_cons]
    split
    · rename_i hf
      exact ⟨nofun, fun h => absurd hf h.2.1⟩
    · rename_i hf
      rw [ih]
      simp only [List.mem_cons, not_or]
      constructor
      · rintro ⟨hnodup, hseen⟩
        exact ⟨⟨fun hmem => (hseen _ hmem).1 rfl, hnodup⟩, hf, fun n hn => (hseen n hn).2⟩
      · rintro ⟨⟨hmem, hnodup⟩, -, hseen⟩
        exact ⟨hnodup, fun n hn => ⟨fun h => hmem (h ▸ hn), hseen n hn⟩⟩

/-- The first check refuses programs with two functions of one name. -/
theorem duplicateFunc?_eq_none_iff {fs : List Ir.Func} :
    duplicateFunc? [] fs = none ↔ (fs.map Ir.Func.name).Nodup := by
  simp [duplicateFunc?_eq_none_iff_seen]

/-- The name that the check finds stands twice. -/
theorem two_le_count_of_duplicateFunc? {fs : List Ir.Func} {seen : List Name} {n : Name}
    (h : duplicateFunc? seen fs = some n) :
    n ∈ seen ∧ n ∈ fs.map Ir.Func.name ∨ 2 ≤ (fs.map Ir.Func.name).count n := by
  induction fs generalizing seen with
  | nil => cases h
  | cons f fs ih =>
    unfold duplicateFunc? at h
    rw [List.map_cons, List.count_cons]
    split at h
    · rename_i hf
      cases h
      exact .inl ⟨hf, List.mem_cons_self⟩
    · rcases ih h with ⟨hseen, hn⟩ | hcount
      · have hpos := List.count_pos_iff.2 hn
        rcases List.mem_cons.1 hseen with rfl | hseen
        · exact .inr (by simp only [beq_self_eq_true, if_true]; omega)
        · exact .inl ⟨hseen, List.mem_cons_of_mem _ hn⟩
      · exact .inr (by omega)

/-! ### Directives of blocks -/

/-- The directives that the blocks of a function begin with. The first block carries the symbol of
the function. -/
def openings (t : NameTable) (f : Ir.Func) : List (List Text) :=
  match f.blocks with
  | [] => []
  | b :: bs =>
    [".globl " ++ t.text f.name, t.text f.name ++ ":", t.text b.label ++ ":"] ::
      bs.map fun b => [t.text b.label ++ ":"]

/-- The block begins with the directives, and has instructions after them. -/
def Opened (ds : List Text) (c : Code.Block) : Prop :=
  ∃ is : List Instruction, c.lines = ds.map Line.directive ++ is.map Line.instr

section

variable {e : Engine} {func : Name} {entry : Bool} {g g' : Naming} {T : NameTable}

theorem selectBlock_opened {b : Ir.Block} {c : Code.Block}
    (h : e.selectBlock func entry b g = (.ok c, g')) (hT : g'.table ≤ T) :
    c.label = b.label ∧ Opened (blockDirectives T func entry b) c := by
  obtain ⟨hn, is, hcover, rfl⟩ := selectBlock_ok_iff.1 h
  refine ⟨rfl, is, ?_⟩
  -- the texts of names do not change while the block is covered
  have hle : g.table ≤ T := NameTable.le_trans (onlyIssues_cover.le hcover) hT
  rw [blockDirectives_mono hle hn]
  rfl

theorem selectBlocks_cons_ok {b : Ir.Block} {bs : List Ir.Block} {cs : List Code.Block}
    (h : e.selectBlocks func entry (b :: bs) g = (.ok cs, g')) :
    ∃ c g₁ cs', e.selectBlock func entry b g = (.ok c, g₁) ∧
      e.selectBlocks func false bs g₁ = (.ok cs', g') ∧ cs = c :: cs' := by
  obtain ⟨_, _, hget, h⟩ := Run.bind_ok_iff.1 h
  cases hget
  obtain ⟨c, g₁, hc, h⟩ := Run.bind_ok_iff.1 h
  obtain ⟨cs', g₂, hcs, h⟩ := Run.bind_ok_iff.1 h
  cases h
  exact ⟨c, g₁, cs', Run.adapt_ok_iff.1 hc, hcs, rfl⟩

theorem selectBlocks_opened {bs : List Ir.Block} {cs : List Code.Block}
    (h : e.selectBlocks func false bs g = (.ok cs, g')) (hT : g'.table ≤ T) :
    cs.map Code.Block.label = bs.map Ir.Block.label ∧
      List.Forall₂ Opened (bs.map fun b => [T.text b.label ++ ":"]) cs := by
  induction bs generalizing g cs with
  | nil =>
    cases h
    exact ⟨rfl, .nil⟩
  | cons b bs ih =>
    obtain ⟨c, g₁, cs, hc, hcs, rfl⟩ := selectBlocks_cons_ok h
    obtain ⟨hlabels, hopened⟩ := ih hcs
    have hle := NameTable.le_trans (onlyIssues_selectBlocks.le hcs) hT
    obtain ⟨hlabel, hc⟩ := selectBlock_opened hc hle
    exact ⟨by rw [List.map_cons, List.map_cons, hlabel, hlabels], .cons hc hopened⟩

/-- The blocks that are selected for a function are those of the function, and begin with the
directives of the function and of their labels. -/
theorem selectFunc_opened {f : Ir.Func} {cs : List Code.Block}
    (h : e.selectFunc f g = (.ok cs, g')) (hT : g'.table ≤ T) :
    cs.map Code.Block.label = f.blocks.map Ir.Block.label ∧
      List.Forall₂ Opened (openings T f) cs := by
  obtain ⟨_, _, -, hblocks⟩ := Run.bind_ok_iff.1 h
  rw [openings]
  cases hbs : f.blocks with
  | nil =>
    rw [hbs] at hblocks
    cases hblocks
    exact ⟨rfl, .nil⟩
  | cons b bs =>
    rw [hbs] at hblocks
    obtain ⟨c, g₁, cs, hc, hcs, rfl⟩ := selectBlocks_cons_ok hblocks
    obtain ⟨hlabels, hopened⟩ := selectBlocks_opened hcs hT
    have hle := NameTable.le_trans (onlyIssues_selectBlocks.le hcs) hT
    obtain ⟨hlabel, hc⟩ := selectBlock_opened hc hle
    exact ⟨by rw [List.map_cons, List.map_cons, hlabel, hlabels], .cons hc hopened⟩

end

/-! ### Results in the places of their functions -/

/-- The order in which so many workers select. -/
def Schedule.used {n : Nat} (s : Schedule n) (workers : Int) : Schedule n :=
  if workers ≤ 1 then .inOrder n else s

section

variable {e : Engine} {scope : Scope} {funcs : List Ir.Func}

theorem le_selectPlaces {t : NameTable} {order : List (Fin funcs.length)} :
    t ≤ (selectPlaces e scope funcs t order).2 := by
  induction order generalizing t with
  | nil => exact NameTable.le_refl t
  | cons i order ih => exact NameTable.le_trans (onlyIssues_selectFunc ⟨t, scope⟩).1 ih

/-- The outcome of a place is what the function there came to, and the table has grown since. -/
theorem exists_of_lookup_selectPlaces {t : NameTable} {order : List (Fin funcs.length)}
    {i : Fin funcs.length} {out : Outcome}
    (h : (selectPlaces e scope funcs t order).1.lookup i = some out) :
    ∃ t' g', t ≤ t' ∧ e.selectFunc (funcs.get i) ⟨t', scope⟩ = (out, g') ∧
      g'.table ≤ (selectPlaces e scope funcs t order).2 := by
  induction order generalizing t with
  | nil => cases h
  | cons k order ih =>
    rw [selectPlaces_cons] at h ⊢
    simp only [List.lookup_cons] at h
    by_cases hik : i = k
    · subst hik
      simp only [beq_self_eq_true, Option.some.injEq] at h
      subst h
      exact ⟨t, _, NameTable.le_refl t, rfl, le_selectPlaces⟩
    · rw [beq_false_of_ne hik] at h
      obtain ⟨t', g', hle, hrest⟩ := ih h
      exact ⟨t', g', NameTable.le_trans (onlyIssues_selectFunc ⟨t, scope⟩).1 hle, hrest⟩

theorem isSome_lookup_selectPlaces {t : NameTable} {order : List (Fin funcs.length)} :
    ∀ i ∈ order, ((selectPlaces e scope funcs t order).1.lookup i).isSome = true := by
  induction order generalizing t with
  | nil => simp
  | cons k order ih =>
    intro i hi
    rw [selectPlaces_cons]
    simp only [List.lookup_cons]
    by_cases hik : i = k
    · simp [hik]
    · rw [beq_false_of_ne hik]
      exact ih i (List.mem_of_ne_of_mem hik hi)

/-- Selecting in the order of the program without a failure is selecting the places one after
another. -/
theorem selectPlaces_of_selectAll {t t' : NameTable} {k : Nat} {order : List (Fin funcs.length)}
    {bss : List (List Code.Block)}
    (h : selectAll e scope t k (order.map funcs.get) = .ok (bss, t')) :
    selectPlaces e scope funcs t order = (order.zip (bss.map .ok), t') ∧
      order.length = bss.length := by
  induction order generalizing t k bss with
  | nil =>
    cases h
    exact ⟨rfl, rfl⟩
  | cons i order ih =>
    obtain ⟨bs, hbs, h⟩ := Run.except_bind_ok_iff.1 h
    obtain ⟨⟨rest, t₁⟩, hrest, h⟩ := Run.except_bind_ok_iff.1 h
    cases h
    have hout : (e.selectFunc (funcs.get i) ⟨t, scope⟩).1 = .ok bs := Run.within_ok_iff.1 hbs
    have hplaces :
        selectPlaces e scope funcs (e.selectFunc (funcs.get i) ⟨t, scope⟩).2.table order =
          (order.zip (rest.map .ok), t') := (ih hrest).1
    simp only [selectPlaces_cons, hout, hplaces]
    exact ⟨rfl, congrArg (· + 1) (ih hrest).2⟩

theorem failsOnlyWith_selectAll {t : NameTable} {k : Nat} {fs : List Ir.Func} :
    FailsOnlyWith Kind.ofSelection (selectAll e scope t k fs) := by
  induction fs generalizing t k with
  | nil => exact .ok _
  | cons f fs ih =>
    exact .bind (.within _ (onlyIssues_selectFunc ⟨t, scope⟩).2) fun _ _ =>
      .bind ih fun _ _ => .ok _

/-- The selection of any functions fails for causes of selection only. -/
theorem failsOnlyWith_selectFuncs {t : NameTable} {workers : Int} {s : Schedule funcs.length} :
    FailsOnlyWith Kind.ofSelection (selectFuncs e t workers funcs s) := by
  unfold selectFuncs
  split
  · exact failsOnlyWith_selectAll
  · refine .bind (failsOnlyWith_collect fun out hout => ?_) fun _ _ => .ok _
    obtain ⟨i, -, hi⟩ := List.mem_filterMap.1 hout
    obtain ⟨t', g', -, hrun, -⟩ := exists_of_lookup_selectPlaces hi
    have hfail := (@onlyIssues_selectFunc e (funcs.get i) ⟨t', .ofTable t⟩).2
    rwa [hrun] at hfail

theorem map_lookup_zip {α β : Type} [BEq α] [LawfulBEq α] {ks : List α} {vs : List β}
    (hks : ks.Nodup) (hlen : ks.length = vs.length) :
    ks.map (fun k => (ks.zip vs).lookup k) = vs.map some := by
  induction ks generalizing vs with
  | nil =>
    cases vs with
    | nil => rfl
    | cons v vs => cases hlen
  | cons k ks ih =>
    cases vs with
    | nil => cases hlen
    | cons v vs =>
      obtain ⟨hk, hks⟩ := List.nodup_cons.1 hks
      have hrest : ∀ k' ∈ ks, ((k, v) :: ks.zip vs).lookup k' = (ks.zip vs).lookup k' := by
        intro k' hk'
        rw [List.lookup_cons, beq_false_of_ne (ne_of_mem_of_not_mem hk' hk)]
      rw [List.map_cons, List.map_cons, List.zip_cons_cons, List.map_congr_left hrest,
        ih hks (Nat.succ.inj hlen), List.lookup_cons_self]

/-- The results of a selection are what the functions in the same places came to. -/
theorem selectFuncs_ok {t t' : NameTable} {workers : Int} {s : Schedule funcs.length}
    {bss : List (List Code.Block)} (h : selectFuncs e t workers funcs s = .ok (bss, t')) :
    (selectPlaces e (.ofTable t) funcs t (s.used workers).order).2 = t' ∧
      (List.finRange funcs.length).map
          (fun i => (selectPlaces e (.ofTable t) funcs t (s.used workers).order).1.lookup i) =
        bss.map fun bs => some (.ok bs) := by
  unfold selectFuncs at h
  unfold Schedule.used
  split at h
  · rename_i hw
    rw [if_pos hw]
    have hall : selectAll e (.ofTable t) t 0 ((List.finRange funcs.length).map funcs.get) =
        .ok (bss, t') := by rwa [List.map_get_finRange]
    obtain ⟨hplaces, hlen⟩ := selectPlaces_of_selectAll hall
    simp only [Schedule.inOrder, hplaces, true_and]
    rw [map_lookup_zip (List.nodup_finRange _) (by rw [hlen, List.length_map]), List.map_map]
    rfl
  · rename_i hw
    rw [if_neg hw]
    obtain ⟨bss, hcollect, h⟩ := Run.except_bind_ok_iff.1 h
    cases h
    refine ⟨rfl, ?_⟩
    rw [Code.Assembly.map_eq_map_some_filterMap, eq_map_of_collect hcollect, List.map_map]
    · rfl
    · exact fun i _ => isSome_lookup_selectPlaces i (s.perm.mem_iff.2 (List.mem_finRange i))

end

/-! ### Assemblies -/

/-- What an assembly holds after functions were emitted into an empty one: each name once, in the
order of first emissions, and for each name the function emitted last. -/
structure Code.Assembly.Holds {φ : Type} (a : Assembly φ) (es : List (Name × φ)) : Prop where
  /-- The names in the order of their first emissions. -/
  names : a.names = (es.map Prod.fst).eraseDups
  /-- No name stands twice. -/
  nodup : a.names.Nodup
  /-- There is a function for each name that was emitted, and for no other. -/
  found : ∀ n, (a.getFn? n).isSome = true ↔ n ∈ es.map Prod.fst
  /-- It is the one emitted last. -/
  last : ∀ n f, a.getFn? n = some f ↔
    ∃ before after, es = before ++ (n, f) :: after ∧ n ∉ after.map Prod.fst
  /-- The functions stand in the places of their names. -/
  functions : a.functions.map some = a.names.map a.getFn?

theorem Code.Assembly.holds_emitAll {φ : Type} (es : List (Name × φ)) :
    (emitAll {} es).Holds es where
  names := names_emitAll rfl
  nodup := nodup_names _
  found n := by rw [← mem_names, mem_names_emitAll rfl]
  last _ _ := getFn?_emitAll rfl
  functions := (map_getFn?_names _).symm

/-- What is emitted for functions and their blocks. -/
def emissions (fs : List Ir.Func) (bss : List (List Code.Block)) : List (Name × Fn) :=
  (fs.zip bss).map fun x => (x.1.name, { args := x.1.args, blocks := x.2 })

theorem assemble_eq (p : Ir.Program) (bss : List (List Code.Block)) :
    assemble p bss =
      (p.data.foldl Assembly.emitData ({} : Assembly Fn)).emitAll (emissions p.funcs bss) := by
  rw [Assembly.emitAll, emissions, List.foldl_map]
  rfl

theorem names_foldl_emitData (data : List Text) (a : Assembly Fn) :
    (data.foldl Assembly.emitData a).names = a.names := by
  induction data generalizing a with
  | nil => rfl
  | cons line data ih => exact ih _

theorem map_fst_emissions {fs : List Ir.Func} {bss : List (List Code.Block)}
    (h : fs.length = bss.length) : (emissions fs bss).map Prod.fst = fs.map Ir.Func.name := by
  rw [emissions, List.map_map]
  show (fs.zip bss).map (Ir.Func.name ∘ Prod.fst) = _
  rw [← List.map_map, List.map_fst_zip h.le]

/-- The assembly of functions with different names has each of them with its blocks. -/
theorem assemble_of_nodup {p : Ir.Program} {bss : List (List Code.Block)}
    (hnodup : (p.funcs.map Ir.Func.name).Nodup) (hlen : p.funcs.length = bss.length) :
    (assemble p bss).names = p.funcs.map Ir.Func.name ∧
      ∀ x ∈ p.funcs.zip bss,
        (assemble p bss).getFn? x.1.name = some { args := x.1.args, blocks := x.2 } := by
  have hstart : (p.data.foldl Assembly.emitData ({} : Assembly Fn)).names = [] :=
    names_foldl_emitData ..
  have hes : ((emissions p.funcs bss).map Prod.fst).Nodup := by rwa [map_fst_emissions hlen]
  obtain ⟨hnames, hfns⟩ := Assembly.emitAll_of_nodup hstart hes
  rw [assemble_eq]
  exact ⟨hnames.trans (map_fst_emissions hlen), fun x hx => hfns _ (List.mem_map_of_mem hx)⟩

/-! ### Compilations -/

section

variable {t : NameTable} {rules : List Rule} {p : Ir.Program} {workers : Int}
  {s : Schedule p.funcs.length}

theorem compile_of_nodup (h : (p.funcs.map Ir.Func.name).Nodup) :
    compile t rules p workers s =
      Except.within .rules (Engine.ofRules t rules) >>= fun e =>
        selectFuncs e t workers p.funcs s >>= fun x => .ok (assemble p x.1, x.2) := by
  rw [compile, duplicateFunc?_eq_none_iff.2 h]
  rfl

/-- A compilation has the error of two functions of one name only if there are two. -/
theorem kind_ne_duplicateFunc (h : (p.funcs.map Ir.Func.name).Nodup) {err : Error}
    (herr : compile t rules p workers s = .error err) : err.cause.kind ≠ .duplicateFunc := by
  have hfail : FailsOnlyWith Kind.ofSelection (compile t rules p workers s) := by
    rw [compile_of_nodup h]
    exact .bind (.within _ failsOnlyWith_ofRules_any) fun _ _ =>
      .bind failsOnlyWith_selectFuncs fun _ _ => .ok _
  intro hkind
  exact absurd (hkind ▸ hfail err herr) (by decide)

theorem compile_of_not_nodup (h : ¬(p.funcs.map Ir.Func.name).Nodup) :
    ∃ n, 2 ≤ (p.funcs.map Ir.Func.name).count n ∧ ∀ rules workers s,
      compile t rules p workers s = .error (t.blame n Cause.duplicateFunc) := by
  cases hdup : duplicateFunc? [] p.funcs with
  | none => exact absurd (duplicateFunc?_eq_none_iff.1 hdup) h
  | some n =>
    have hcount : 2 ≤ (p.funcs.map Ir.Func.name).count n :=
      (two_le_count_of_duplicateFunc? hdup).resolve_left fun h => absurd h.1 List.not_mem_nil
    exact ⟨n, hcount, fun _ _ _ => by rw [compile, hdup]⟩

/-- The functions of an assembly that is compiled are those of the program. -/
theorem compile_ok {a : Assembly Fn} {t' : NameTable}
    (h : compile t rules p workers s = .ok (a, t')) :
    (p.funcs.map Ir.Func.name).Nodup ∧ a.names = p.funcs.map Ir.Func.name ∧
      ∃ e, Engine.ofRules t rules = .ok e ∧
        ∀ i : Fin p.funcs.length, ∃ bs,
          (selectPlaces e (.ofTable t) p.funcs t (s.used workers).order).1.lookup i =
            some (.ok bs) ∧
          a.getFn? (p.funcs.get i).name = some { args := (p.funcs.get i).args, blocks := bs } ∧
          bs.map Code.Block.label = (p.funcs.get i).blocks.map Ir.Block.label ∧
          List.Forall₂ Opened (openings t' (p.funcs.get i)) bs := by
  have hnodup : (p.funcs.map Ir.Func.name).Nodup := by
    by_contra hnot
    obtain ⟨n, -, herr⟩ := @compile_of_not_nodup t p hnot
    rw [herr] at h
    cases h
  rw [compile_of_nodup hnodup] at h
  obtain ⟨e, he, h⟩ := Run.except_bind_ok_iff.1 h
  obtain ⟨⟨bss, t₁⟩, hsel, h⟩ := Run.except_bind_ok_iff.1 h
  cases h
  obtain ⟨htable, houts⟩ := selectFuncs_ok hsel
  have hlen : p.funcs.length = bss.length := by simpa using congrArg List.length houts
  obtain ⟨hnames, hfns⟩ := assemble_of_nodup hnodup hlen
  refine ⟨hnodup, hnames, e, Run.within_ok_iff.1 he, fun i => ?_⟩
  have hi : i.val < bss.length := hlen ▸ i.isLt
  have hout : (selectPlaces e (.ofTable t) p.funcs t (s.used workers).order).1.lookup i =
      some (.ok bss[i.val]) := by
    have hget := congrArg (·[i.val]?) houts
    simpa [hi] using hget
  obtain ⟨_, g', -, hrun, hle⟩ := exists_of_lookup_selectPlaces hout
  have hzip : (p.funcs.get i, bss[i.val]) ∈ p.funcs.zip bss := by
    rw [List.mem_iff_getElem]
    exact ⟨i.val, by simp [← hlen], by simp⟩
  obtain ⟨hlabels, hopened⟩ := selectFunc_opened hrun (htable ▸ hle)
  exact ⟨bss[i.val], hout, hfns _ hzip, hlabels, hopened⟩

end

/-- **No function is lost, duplicated or reordered.**

* After any emissions an assembly holds what was emitted.
* A compilation that succeeds has functions of different names. The assembly lists them in the order
  of the program, and each one has its arguments and the blocks that were selected in its place;
  these begin with the directives of the function and of their labels.
* Two functions of one name are the error of the compilation, whatever the rules. No other program
  has that error. -/
theorem compile_conserves (t : NameTable) (rules : List Rule) (p : Ir.Program) (workers : Int)
    (s : Schedule p.funcs.length) :
    (∀ es : List (Name × Fn), (Assembly.emitAll {} es).Holds es) ∧
    (∀ a t', compile t rules p workers s = .ok (a, t') →
      (p.funcs.map Ir.Func.name).Nodup ∧ a.names = p.funcs.map Ir.Func.name ∧
      ∃ e, Engine.ofRules t rules = .ok e ∧
        ∀ i : Fin p.funcs.length, ∃ bs,
          (selectPlaces e (.ofTable t) p.funcs t (s.used workers).order).1.lookup i =
            some (.ok bs) ∧
          a.getFn? (p.funcs.get i).name = some { args := (p.funcs.get i).args, blocks := bs } ∧
          bs.map Code.Block.label = (p.funcs.get i).blocks.map Ir.Block.label ∧
          List.Forall₂ Opened (openings t' (p.funcs.get i)) bs) ∧
    (¬(p.funcs.map Ir.Func.name).Nodup →
      ∃ n, 2 ≤ (p.funcs.map Ir.Func.name).count n ∧ ∀ rules' workers' s',
        compile t rules' p workers' s' = .error (t.blame n Cause.duplicateFunc)) ∧
    ((∀ f ∈ p.funcs, t.isIssued f.name = true) →
      ((∃ err, compile t rules p workers s = .error err ∧ err.cause.kind = .duplicateFunc) ↔
        ¬(p.funcs.map Ir.Func.name).Nodup)) := by
  refine ⟨Assembly.holds_emitAll, fun a t' h => compile_ok h, compile_of_not_nodup, ?_⟩
  intro hissued
  constructor
  · rintro ⟨err, herr, hkind⟩ hnodup
    exact kind_ne_duplicateFunc hnodup herr hkind
  · intro hnot
    obtain ⟨n, hcount, herr⟩ := @compile_of_not_nodup t p hnot
    obtain ⟨f, hf, rfl⟩ := List.mem_map.1 (List.count_pos_iff.1 (Nat.zero_lt_of_lt hcount))
    refine ⟨_, herr rules workers s, ?_⟩
    rw [NameTable.blame, NameTable.text?_eq_some_text (hissued f hf)]
    rfl

namespace Sample

/-- A function twice. -/
def sameFuncs : Ir.Program where
  funcs := [func, func]

end Sample

/-- Of two functions that four workers select, beginning with the second one, the first one comes
first with its own directives; and one function twice is refused with any rules. -/
theorem compile_conserves_sample :
    (∃ a t', compile Sample.table Sample.engine.rules Sample.twoFuncs 4 Sample.secondFirst =
        .ok (a, t') ∧ a.names = [⟨1⟩, ⟨3⟩] ∧
      ∃ c, a.getFn? ⟨1⟩ = some { args := Sample.func.args, blocks := [c] } ∧
        Opened [".globl f", "f:", "entry:"] c) ∧
    (∀ f ∈ Sample.sameFuncs.funcs, Sample.table.isIssued f.name = true) ∧
    ∀ rules, ∃ err, compile Sample.table rules Sample.sameFuncs 1 (.inOrder _) = .error err ∧
      err.cause.kind = .duplicateFunc := by
  refine ⟨?_, by decide, fun rules => ?_⟩
  · obtain ⟨⟨a, t'⟩, ha, htexts⟩ : ∃ x, compile Sample.table Sample.engine.rules Sample.twoFuncs 4
        Sample.secondFirst = .ok x ∧ x.2.text ⟨1⟩ = "f" ∧ x.2.text ⟨2⟩ = "entry" :=
      ⟨_, rfl, rfl, rfl⟩
    obtain ⟨-, hnames, e, -, hfns⟩ := (compile_conserves Sample.table Sample.engine.rules
      Sample.twoFuncs 4 Sample.secondFirst).2.1 a t' ha
    obtain ⟨bs, -, hfn, -, hopened⟩ := hfns ⟨0, by decide⟩
    have hopenings : openings t' Sample.func = [[(".globl f" : Text), "f:", "entry:"]] := by
      show [[".globl " ++ t'.text ⟨1⟩, t'.text ⟨1⟩ ++ ":", t'.text ⟨2⟩ ++ ":"]] = _
      rw [htexts.1, htexts.2]
      rfl
    have hopened : List.Forall₂ Opened (openings t' Sample.func) bs := hopened
    rw [hopenings] at hopened
    obtain ⟨c, hc, rfl⟩ : ∃ c, Opened [".globl f", "f:", "entry:"] c ∧ bs = [c] := by
      cases hopened with
      | cons hc hrest =>
        cases hrest
        exact ⟨_, hc, rfl⟩
    exact ⟨a, t', ha, hnames, c, hfn, hc⟩
  · exact ((compile_conserves Sample.table rules Sample.sameFuncs 1 (.inOrder _)).2.2.2
      (by decide)).2 (by decide)

end CodeTiling
