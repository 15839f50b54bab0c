import CodeTiling.Command.Run
import CodeTiling.Command.Tree
import CodeTiling.Proofs.Run
import Mathlib.Data.List.Basic

/-!
# What the select command writes

The output is made before the first file is read, and a text is added to it for each file. What
`World.deliver` says is what the world looks like with a text at the output: along the run the text
grows, and nothing else changes (`writeEach_ok`).

A file of rules or a program is read with the output in place. Unless its path leads to the output
file, whatever the two are called, it is read as it was at the beginning
(`compileFiles_of_deliver`); if it does, what is read is the output so far
(`runVerb_select_overwrites`).
-/

namespace CodeTiling

theorem Text.append_empty (s : Text) : s ++ ("" : Text) = s :=
  congrArg Text.mk (List.append_nil s.octets)

theorem Text.append_assoc (s t u : Text) : s ++ t ++ u = s ++ (t ++ u) :=
  congrArg Text.mk (List.append_assoc ..)

theorem Text.join_nil : Text.join [] = "" := rfl

theorem Text.join_cons (s : Text) (l : List Text) : Text.join (s :: l) = s ++ Text.join l := rfl

namespace Command

variable {ι : Type}

namespace World

/-! ### Files -/

theorem print_print (w : World ι) (s t : Text) : (w.print s).print t = w.print (s ++ t) := by
  rw [print, print, print, Text.append_assoc]

theorem print_empty (w : World ι) : w.print "" = w := by
  rw [print, Text.append_empty]

variable [DecidableEq ι]

theorem lookup_put_self (i : ι) (text : Text) (files : List (ι × Text)) :
    (put i text files).lookup i = some text := by
  induction files with
  | nil => simp [put]
  | cons f files ih =>
    obtain ⟨j, s⟩ := f
    unfold put
    split
    · simp
    · rename_i hj
      rw [List.lookup_cons, beq_false_of_ne (Ne.symm hj)]
      exact ih

theorem lookup_put_of_ne {i j : ι} (h : j ≠ i) (text : Text) (files : List (ι × Text)) :
    (put i text files).lookup j = files.lookup j := by
  induction files with
  | nil => simp [put, List.lookup_cons, beq_false_of_ne h]
  | cons f files ih =>
    obtain ⟨k, s⟩ := f
    unfold put
    split
    · rename_i hk
      rw [hk, List.lookup_cons, List.lookup_cons, beq_false_of_ne h]
    · rw [List.lookup_cons, List.lookup_cons, ih]

theorem put_put (i : ι) (text text' : Text) (files : List (ι × Text)) :
    put i text' (put i text files) = put i text' files := by
  induction files with
  | nil => simp [put]
  | cons f files ih =>
    obtain ⟨j, s⟩ := f
    by_cases hj : j = i
    · simp [put, hj]
    · simp [put, hj, ih]

theorem set_set (w : World ι) (i : ι) (s t : Text) : (w.set i s).set i t = w.set i t := by
  rw [set, set, put_put, set]

/-! ### Worlds with a text at the output -/

/-- The file that a path leads to. -/
def fileAt? (w : World ι) (path : String) : Option ι :=
  match w.target path with
  | .file i => some i
  | _ => none

/-- The file that output goes to. Standard output and devices are no files. -/
def outputFile? (w : World ι) (out : String) : Option ι :=
  if out = "" ∨ out = "-" then none else w.fileAt? out

/-- A path leads to the file that output goes to, be it by the same name or by another. -/
def LeadsToOutput (w : World ι) (out path : String) : Prop :=
  ∃ i ∈ w.outputFile? out, w.fileAt? path = some i

instance (w : World ι) (out path : String) : Decidable (w.LeadsToOutput out path) :=
  inferInstanceAs (Decidable (∃ i ∈ w.outputFile? out, w.fileAt? path = some i))

/-- The world with a text at the output: on standard output, or as the text of a file. -/
def deliver (w : World ι) (out : String) (text : Text) : World ι :=
  if out = "" ∨ out = "-" then w.print text
  else
    match w.target out with
    | .file i => w.set i text
    | .special ⟨_, .ok .print⟩ => w.print text
    | _ => w

variable {w w' : World ι} {out path : String} {text : Text}

/-- Output is printed, lost, or the text of a file. -/
theorem deliver_cases (w : World ι) (out : String) :
    (∀ text, w.deliver out text = w.print text) ∨ (∀ text, w.deliver out text = w) ∨
      ∃ i, w.outputFile? out = some i ∧ ∀ text, w.deliver out text = w.set i text := by
  unfold outputFile? fileAt? deliver
  by_cases hstd : out = "" ∨ out = "-"
  · exact .inl fun _ => if_pos hstd
  · simp only [if_neg hstd]
    split
    · rename_i i hi
      exact .inr (.inr ⟨i, by rw [hi], fun _ => rfl⟩)
    · exact .inl fun _ => rfl
    · exact .inr (.inl fun _ => rfl)

/-- Only the output changes. -/
theorem lookup_deliver {i : ι} (h : w.outputFile? out ≠ some i) :
    (w.deliver out text).files.lookup i = w.files.lookup i := by
  rcases w.deliver_cases out with hw | hw | ⟨j, hj, hw⟩
  · rw [hw]
    rfl
  · rw [hw]
  · rw [hw]
    exact lookup_put_of_ne (fun hij => h (by rw [hj, hij])) ..

/-- A path to another file is read as it is read before. What there is to read at other places does
not depend on files. -/
theorem read_of_set {i : ι} {x : Text} (hne : w.fileAt? path ≠ some i)
    (h : (w.set i text).read path = .ok x) : w.read path = .ok x := by
  unfold fileAt? at hne
  unfold read at h ⊢
  simp only [set] at h
  cases htarget : w.target path with
  | file j =>
    simp only [htarget] at h hne ⊢
    rwa [lookup_put_of_ne (fun hji => hne (congrArg some hji))] at h
  | slashed j =>
    rw [htarget] at h
    cases h
  | beyond j =>
    rw [htarget] at h
    cases h
  | special s => rwa [htarget] at h

/-- A path that does not lead to the output file is read with the output in place as it is read
before. -/
theorem read_of_deliver {x : Text} (hne : ¬ w.LeadsToOutput out path)
    (h : (w.deliver out text).read path = .ok x) : w.read path = .ok x := by
  rcases w.deliver_cases out with hw | hw | ⟨i, hi, hw⟩
  · rw [hw] at h
    exact h
  · rwa [hw] at h
  · rw [hw] at h
    exact read_of_set (fun hpath => hne ⟨i, hi, hpath⟩) h

end World

/-! ### Reading -/

section

variable {σ α β : Type} {st : σ}

theorem bind_reads {x : RunM (StateM σ) α} {f : α → RunM (StateM σ) β} {y : Except Error α}
    {g : α → Except Error β} (hx : x st = (y, st)) (hf : ∀ a, f a st = (g a, st)) :
    (x >>= f) st = (y >>= g, st) := by
  cases y with
  | error err => exact Run.bind_error hx
  | ok a => rw [Run.bind_ok hx, hf a]; rfl

theorem within_reads {x : RunM (StateM σ) α} {y : Except Error α} (p : Place)
    (hx : x st = (y, st)) : RunM.within p x st = (Except.within p y, st) := by
  cases y with
  | error err => exact Run.adapt_error hx
  | ok a => exact Run.adapt_ok hx

end

section

variable [DecidableEq ι] {w : World ι}

/-- The text of a file in a world. -/
def World.textOf (w : World ι) (path : String) : Except Error Text :=
  Except.within .readFile ((w.read path).mapError fun (c : Cause) => (c : Error))

theorem World.textOf_ok_iff {path : String} {x : Text} :
    w.textOf path = .ok x ↔ w.read path = .ok x := by
  rw [textOf, Run.within_ok_iff]
  cases w.read path with
  | error c => exact ⟨nofun, nofun⟩
  | ok s =>
    show (Except.ok s : Except Error Text) = .ok x ↔ _
    rw [Except.ok.injEq, Except.ok.injEq]

theorem readFile_reads (path : String) :
    (readFile path : RunM (StateM (World ι)) Text) w = (w.textOf path, w) :=
  within_reads _ rfl

/-- The assembly text of a program under rules, both as texts that may not be there. -/
def compiledText (rules program : Except Error Text) (workers : Int) : Except Error Text := do
  let (rs, t) ← Except.within .loadRules (do Load.rulesOfText (← rules) .empty)
  let (p, t) ← Except.within .loadProgram (do Load.programOfText (← program) t)
  let (a, t) ← compile t rs p workers (.inOrder _)
  assemblyText a t

/-- Compiling files only reads them. -/
theorem compileFiles_reads (rules program : String) (workers : Int) :
    (compileFiles rules program workers : RunM (StateM (World ι)) Text) w =
      (compiledText (w.textOf rules) (w.textOf program) workers, w) := by
  refine bind_reads (within_reads _ (bind_reads (readFile_reads rules) fun _ => rfl)) fun x => ?_
  refine bind_reads (within_reads _ (bind_reads (readFile_reads program) fun _ => rfl)) fun y => ?_
  exact bind_reads rfl fun _ => rfl

theorem compiledText_ok {rules program : Except Error Text} {workers : Int} {x : Text}
    (h : compiledText rules program workers = .ok x) :
    (∃ s, rules = .ok s) ∧ ∃ s, program = .ok s := by
  obtain ⟨_, hrules, h⟩ := Run.except_bind_ok_iff.1 h
  obtain ⟨_, hprogram, -⟩ := Run.except_bind_ok_iff.1 h
  obtain ⟨s, hs, -⟩ := Run.except_bind_ok_iff.1 (Run.within_ok_iff.1 hrules)
  obtain ⟨s', hs', -⟩ := Run.except_bind_ok_iff.1 (Run.within_ok_iff.1 hprogram)
  exact ⟨⟨s, hs⟩, s', hs'⟩

/-- Compiling files with the output in place, when neither path leads to it, is compiling them
before. -/
theorem compileFiles_of_deliver {out rules program : String} {workers : Int} {text x : Text}
    (hrules : ¬ w.LeadsToOutput out rules) (hprogram : ¬ w.LeadsToOutput out program)
    (h : (compileFiles rules program workers : RunM (StateM (World ι)) Text)
      (w.deliver out text) = (.ok x, w.deliver out text)) :
    (compileFiles rules program workers : RunM (StateM (World ι)) Text) w = (.ok x, w) := by
  rw [compileFiles_reads] at h ⊢
  have hx := congrArg Prod.fst h
  obtain ⟨⟨s, hs⟩, s', hs'⟩ := compiledText_ok hx
  have hread : w.textOf rules = .ok s :=
    World.textOf_ok_iff.2 (World.read_of_deliver hrules (World.textOf_ok_iff.1 hs))
  have hread' : w.textOf program = .ok s' :=
    World.textOf_ok_iff.2 (World.read_of_deliver hprogram (World.textOf_ok_iff.1 hs'))
  rw [hread, hread', ← hs, ← hs']
  exact congrArg (·, w) hx

end

/-! ### Writing -/

section

variable {w w' : World ι} {out : String}

theorem ofHost_change_ok {α : Type} {f : World ι → Except Cause (α × World ι)} {a : α}
    (h : (ofHost (World.change f) : RunM (StateM (World ι)) α) w = (.ok a, w')) :
    f w = .ok (a, w') := by
  change ((World.change f w).1.mapError _, (World.change f w).2) = _ at h
  unfold World.change at h
  cases hf : f w with
  | error c =>
    rw [hf] at h
    cases h
  | ok r =>
    rw [hf] at h
    cases h
    rfl

variable [DecidableEq ι]

theorem write_file_ok {o : Opened ι} {s : Text} {u : Unit}
    (h : ((Output.file o : Output (StateM (World ι))).write s : RunM (StateM (World ι)) Unit) w =
      (.ok u, w')) : w.write s o = .ok (u, w') :=
  ofHost_change_ok (Run.adapt_ok_iff.1 h)

/-- What is written to an open output is added to the text at a name. -/
def Output.AddsTo (o : Output (StateM (World ι))) (w : World ι) (out : String) : Prop :=
  ∀ text s u w', (o.write s : RunM (StateM (World ι)) Unit) (w.deliver out text) = (.ok u, w') →
    w' = w.deliver out (text ++ s)

theorem standard_addsTo (hstd : out = "" ∨ out = "-") :
    (Output.standard : Output (StateM (World ι))).AddsTo w out := by
  intro text s u w' h
  simp only [World.deliver, if_pos hstd] at h ⊢
  cases h
  exact World.print_print ..

theorem file_addsTo (hstd : ¬ (out = "" ∨ out = "-")) {o : Opened ι}
    (h : w.create out = .ok (o, w')) :
    w' = w.deliver out "" ∧ (Output.file o : Output (StateM (World ι))).AddsTo w out := by
  unfold World.create at h
  unfold Output.AddsTo World.deliver
  simp only [if_neg hstd]
  cases htarget : w.target out with
  | slashed i =>
    rw [htarget] at h
    cases h
  | beyond i =>
    rw [htarget] at h
    cases h
  | file i =>
    rw [htarget] at h
    cases h
    refine ⟨rfl, fun text s u w' hwrite => ?_⟩
    cases write_file_ok hwrite
    rw [World.set_set]
    simp only [World.set, World.lookup_put_self, Option.getD_some]
  | special x =>
    obtain ⟨content, sink⟩ := x
    rw [htarget] at h
    cases sink with
    | error c => cases h
    | ok k =>
      cases h
      cases k with
      | discard =>
        refine ⟨rfl, fun text s u w' hwrite => ?_⟩
        cases write_file_ok hwrite
        rfl
      | print =>
        refine ⟨(World.print_empty w).symm, fun text s u w' hwrite => ?_⟩
        cases write_file_ok hwrite
        exact World.print_print ..
      | refuse c =>
        refine ⟨rfl, fun text s u w' hwrite => ?_⟩
        cases write_file_ok hwrite

/-- Opening the output puts the empty text there, to which later texts are added. -/
theorem openOutput_ok {o : Output (StateM (World ι))}
    (h : (openOutput out : RunM (StateM (World ι)) _) w = (.ok o, w')) :
    w' = w.deliver out "" ∧ o.AddsTo w out := by
  unfold openOutput at h
  split at h
  · rename_i hstd
    cases h
    refine ⟨?_, standard_addsTo hstd⟩
    rw [World.deliver, if_pos hstd, World.print_empty]
  · rename_i hstd
    obtain ⟨_, w₁, hcreate, h⟩ := Run.bind_ok_iff.1 (Run.adapt_ok_iff.1 h)
    cases h
    exact file_addsTo hstd (ofHost_change_ok hcreate)

end

/-! ### The run -/

section

variable [DecidableEq ι] {w w' : World ι} {text : String → RunM (StateM (World ι)) Text}
  {textIn : String → World ι → Except Error Text}

/-- The texts of files that are only read, written to the output one after the other. Each is the
text of its file with the texts before it at the output. -/
theorem writeAll_ok (hreads : ∀ file w, text file w = (textIn file w, w)) {out : String}
    {o : Output (StateM (World ι))} (ho : o.AddsTo w out) {files : List String} {t : Text}
    {u : PUnit}
    (h : (forIn files PUnit.unit fun file _ => do
      o.write (← text file)
      return .yield PUnit.unit : RunM (StateM (World ι)) PUnit) (w.deliver out t) = (.ok u, w')) :
    ∃ texts : List Text, texts.length = files.length ∧
      w' = w.deliver out (t ++ Text.join texts) ∧
      ∀ i file x, files[i]? = some file → texts[i]? = some x →
        textIn file (w.deliver out (t ++ Text.join (texts.take i))) = .ok x := by
  -- a round adds its text to `t`, and the other files are read with that in place
  induction files generalizing t with
  | nil =>
    cases h
    exact ⟨[], rfl, by rw [Text.join_nil, Text.append_empty], nofun⟩
  | cons file files ih =>
    rw [List.forIn_cons] at h
    obtain ⟨step, w₂, hstep, h⟩ := Run.bind_ok_iff.1 h
    obtain ⟨x, w₁, hx, hstep⟩ := Run.bind_ok_iff.1 hstep
    obtain ⟨_, w₂', hwrite, hstep⟩ := Run.bind_ok_iff.1 hstep
    cases hstep
    rw [hreads] at hx
    obtain ⟨hx, rfl⟩ := Prod.mk.inj hx
    obtain rfl := ho _ _ _ _ hwrite
    obtain ⟨texts, hlen, rfl, htexts⟩ := ih h
    refine ⟨x :: texts, by simp [hlen], by rw [Text.join_cons, Text.append_assoc], ?_⟩
    intro i file' x' hfile hx'
    cases i with
    | zero =>
      cases hfile
      cases hx'
      rwa [List.take_zero, Text.join_nil, Text.append_empty]
    | succ i =>
      rw [List.take_succ_cons, Text.join_cons, ← Text.append_assoc]
      exact htexts i file' x' hfile hx'

theorem writeEach_ok (hreads : ∀ file w, text file w = (textIn file w, w)) {s : Settings} {u : Unit}
    (h : (writeEach s text : RunM (StateM (World ι)) Unit) w = (.ok u, w')) :
    ∃ texts : List Text, texts.length = s.files.length ∧
      w' = w.deliver s.out (Text.join texts) ∧
      ∀ i file x, s.files[i]? = some file → texts[i]? = some x →
        textIn file (w.deliver s.out (Text.join (texts.take i))) = .ok x := by
  unfold writeEach at h
  split at h
  · cases h
  · obtain ⟨o, w₁, hopen, h⟩ := Run.bind_ok_iff.1 h
    obtain ⟨rfl, ho⟩ := openOutput_ok hopen
    obtain ⟨u', w₂, h, hpure⟩ := Run.bind_ok_iff.1 h
    cases hpure
    exact writeAll_ok hreads ho h

theorem exitCode_eq_zero_iff {r : Except Error Unit} : exitCode r = 0 ↔ r = .ok () := by
  cases r with
  | ok u => exact ⟨fun _ => rfl, fun _ => rfl⟩
  | error err =>
    refine ⟨fun h => ?_, nofun⟩
    unfold exitCode at h
    cases hfatal : err.cause.isFatal with
    | true => simp [hfatal] at h
    | false => simp [hfatal] at h

/-- A selection that ends well changes nothing but its output, where it leaves a text for each of
its files, in order. The text of a file is its compiled text with the texts before it at the output.
For paths that do not lead to the output file, this is the compiled text of the files as they
were. -/
theorem runVerb_select_compiles {s : Settings} {w : World ι}
    (hexit : exitCode ((runVerb .select s : RunM (StateM (World ι)) Unit) w).1 = 0) :
    (∀ i, w.outputFile? s.out ≠ some i →
      ((runVerb .select s : RunM (StateM (World ι)) Unit) w).2.files.lookup i =
        w.files.lookup i) ∧
    ∃ texts : List Text, texts.length = s.files.length ∧
      ((runVerb .select s : RunM (StateM (World ι)) Unit) w).2 =
        w.deliver s.out (Text.join texts) ∧
      ∀ k file text, s.files[k]? = some file → texts[k]? = some text →
        (compileFiles s.rules file s.workers : RunM (StateM (World ι)) Text)
            (w.deliver s.out (Text.join (texts.take k))) =
          (.ok text, w.deliver s.out (Text.join (texts.take k))) ∧
        (¬ w.LeadsToOutput s.out s.rules → ¬ w.LeadsToOutput s.out file →
          (compileFiles s.rules file s.workers : RunM (StateM (World ι)) Text) w =
            (.ok text, w)) := by
  have hrun : (runVerb .select s : RunM (StateM (World ι)) Unit) w =
      (.ok (), ((runVerb .select s : RunM (StateM (World ι)) Unit) w).2) :=
    Prod.ext (exitCode_eq_zero_iff.1 hexit) rfl
  obtain ⟨texts, hlen, hw', htexts⟩ := writeEach_ok
    (fun file w => within_reads (.compile file) (compileFiles_reads s.rules file s.workers)) hrun
  rw [hw']
  refine ⟨fun i hi => World.lookup_deliver hi, texts, hlen, rfl, ?_⟩
  intro k file text hfile htext
  have hcompile := Run.within_ok_iff.1 (htexts k file text hfile htext)
  have hthere := compileFiles_reads (w := w.deliver s.out (Text.join (texts.take k))) s.rules file
    s.workers
  rw [hcompile] at hthere
  exact ⟨hthere, fun hrules hprogram => compileFiles_of_deliver hrules hprogram hthere⟩

/-- A tree whose working directory is `/tmp`. -/
def tmpTree : Tree where
  home := ["", "tmp"]
  isDirectory l := l = [""] || l = ["", "tmp"]
  special? _ _ := none

/-- Rules and two programs in the working directory. -/
def twoPrograms : World Location where
  target := tmpTree.target
  files := [(["", "tmp", "r.yaml"], ""), (["", "tmp", "p.yaml"], "data: [x]"),
    (["", "tmp", "q.yaml"], "data: [y]")]

/-- The first program is the output as well, under another name. The second one is named in two ways
and has its own text. -/
theorem runVerb_select_compiles_twoPrograms :
    let s : Settings :=
      { rules := "r.yaml", out := "/tmp/q.yaml", files := ["q.yaml", "p.yaml", "../tmp/p.yaml"] }
    let w := twoPrograms
    exitCode ((runVerb .select s : RunM (StateM (World Location)) Unit) w).1 = 0 ∧
      w.LeadsToOutput s.out "q.yaml" ∧
      ∃ texts : List Text, texts.length = 3 ∧
        ((runVerb .select s : RunM (StateM (World Location)) Unit) w).2 =
          w.deliver s.out (Text.join texts) ∧
        ∀ text, texts[2]? = some text →
          (compileFiles "r.yaml" "../tmp/p.yaml" 1 : RunM (StateM (World Location)) Text) w =
            (.ok text, w) := by
  intro s w
  have hexit : exitCode ((runVerb .select s : RunM (StateM (World Location)) Unit) w).1 = 0 := by
    decide +kernel
  refine ⟨hexit, by decide +kernel, ?_⟩
  obtain ⟨-, texts, hlen, hw, htexts⟩ := runVerb_select_compiles hexit
  refine ⟨texts, hlen, hw, fun text htext => ?_⟩
  exact (htexts 2 "../tmp/p.yaml" text rfl htext).2 (by decide +kernel) (by decide +kernel)

/-- The output is made before a program is read: when it is the program, by whichever of its names,
what is compiled is the empty text, and the program is lost. -/
theorem runVerb_select_overwrites :
    let w : World Location :=
      { target := tmpTree.target
        files := [(["", "tmp", "r.yaml"], ""), (["", "tmp", "p.yaml"], "data: [x]")] }
    let compiled : Text := ".intel_syntax noprefix\n\n.data\n.align 4\nx\n\n.text\n"
    (compileFiles "r.yaml" "p.yaml" 1 : RunM (StateM (World Location)) Text) w =
        (.ok compiled, w) ∧
      ∀ out ∈ ["p.yaml", "/tmp/p.yaml"],
        let s : Settings := { rules := "r.yaml", out, files := ["p.yaml"], workers := 1 }
        let after := (runVerb .select s : RunM (StateM (World Location)) Unit) w
        exitCode after.1 = 0 ∧ after.2.files.lookup ["", "tmp", "p.yaml"] ≠ some compiled := by
  intro w compiled
  refine ⟨?_, by decide +kernel⟩
  rw [compileFiles_reads]
  exact Prod.ext (by decide +kernel) rfl

end

end Command

end CodeTiling
