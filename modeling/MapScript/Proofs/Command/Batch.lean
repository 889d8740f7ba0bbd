import MapScript.Command.Batch
import MapScript.Proofs.Command.FileTree
import MapScript.Proofs.Outcome

/-!
# Batches into a directory

Inputs that are written to one directory under their own names do not get in each
other's way as long as the names differ: what one of them writes is no file that
another reads or writes, so each comes to what it comes to alone.  Inputs of one name
do: the output of one can take the place of another before that is read.
-/

namespace MapScript.Command

open FileTree (arrive stops enter stops_concat arrive_mem arrive_concat start_eq read_eq_ok_iff
  read_eq_unnameable_iff write_eq_ok_iff addsDirectories_of_makeDirectories)

/-! ### Names of paths -/

theorem notMem_of_mem_splitOn {sep : Char} {t part : Text} (h : part ∈ Text.splitOn sep t) :
    sep ∉ part := by
  induction t generalizing part with
  | nil =>
      obtain rfl : part = [] := by simpa [Text.splitOn] using h
      simp
  | cons c cs ih =>
      rw [Text.splitOn] at h
      split at h
      · rcases List.mem_cons.1 h with rfl | h
        · simp
        · exact ih h
      · next hc =>
        split at h
        · obtain rfl := List.mem_singleton.1 h
          simpa using Ne.symm hc
        · next first others hsplit =>
          rw [hsplit, List.forall_mem_cons] at ih
          rcases List.mem_cons.1 h with rfl | h
          · simp [ih.1, Ne.symm hc]
          · exact ih.2 part h

theorem splitOn_eq_self {sep : Char} {t : Text} (h : sep ∉ t) : Text.splitOn sep t = [t] := by
  induction t with
  | nil => rfl
  | cons c cs ih =>
      simp only [List.mem_cons, not_or] at h
      rw [Text.splitOn, if_neg (Ne.symm h.1), ih h.2]

namespace Path

variable {p : Path}

/-- The path never leads to the directory above. -/
def Descends (p : Path) : Prop := ∀ part ∈ p.parts, part ≠ ['.', '.']

instance (p : Path) : Decidable p.Descends := inferInstanceAs (Decidable (∀ part ∈ p.parts, _))

/-- The parts of a path are names. -/
def Spelled (p : Path) : Prop :=
  ∀ part ∈ p.parts, '/' ∉ part ∧ part ≠ [] ∧ part ≠ ['.']

theorem spelled_ofText (t : Text) : (ofText t).Spelled := by
  intro part hpart
  obtain ⟨hsplit, hkept⟩ := List.mem_filter.1 hpart
  simp only [Bool.and_eq_true, Bool.not_eq_true', List.isEmpty_eq_false_iff, bne_iff_ne] at hkept
  exact ⟨notMem_of_mem_splitOn hsplit, hkept⟩

theorem parts_eq_of_ne_nil (h : p.parts ≠ []) : p.parts = p.parts.dropLast ++ [p.name] := by
  rw [name, List.getLastD_eq_getLast?, List.getLast?_eq_some_getLast h, Option.getD_some,
    List.dropLast_append_getLast]

/-- The path of a name in a directory. -/
theorem Spelled.parts_child (h : p.Spelled) (hne : p.parts ≠ []) (dir : Path) :
    (dir.child p.name).parts = dir.parts ++ [p.name] := by
  have hmem : p.name ∈ p.parts := by
    rw [parts_eq_of_ne_nil hne]
    simp
  obtain ⟨hslash, hempty, hdot⟩ := h p.name hmem
  rw [child, ofText, splitOn_eq_self hslash]
  simp [hempty, hdot]

end Path

/-! ### One input -/

namespace Batch

variable {plan : Plan} {dir : Path} {tree : FileTree} {p : Path} {text : Text}

/-- What an input comes to, given its text: the status and what is to be written. -/
def verdict (plan : Plan) (p : Path) : Except InputFault Text → Except Abort (Nat × Option Text)
  | .error (.words _) => .ok (2, none)
  | .error (.path fault) => .error (.file fault)
  | .ok source =>
    if plan.baseless && declaresArea plan.options source then .error .baseless
    else
      match process plan.options p.toText source with
      | .error fault => .error (.arithmetic fault)
      | .ok r => .ok (r.exitCode, r.text)

/-- The tree with a text written to a directory under the name of its input. -/
def deliver (dir : Path) (tree : FileTree) (p : Path) (text : Text) : Except FileFault FileTree :=
  match tree.makeDirectories dir with
  | .error e => .error e
  | .ok made => made.write (dir.child p.name) (Text.Utf8.encode text)

/-- An input that is read gives a text that is to be written. -/
def Processes (plan : Plan) (tree : FileTree) (p : Path) (text : Text) : Prop :=
  ∃ source r, readInput tree p = .ok source ∧ process plan.options p.toText source = .ok r ∧
    r.text = some text

theorem foldl_report (b : Batch) (lines : List Diagnostic) (source : Text) :
    (lines.foldl (fun b d => b.report (d.format source)) b).tree = b.tree ∧
      (lines.foldl (fun b d => b.report (d.format source)) b).status = b.status := by
  induction lines generalizing b with
  | nil => exact ⟨rfl, rfl⟩
  | cons d lines ih => exact ih (b.report (d.format source))

/-- What a run comes to: an end of the batch, or a status and a tree. -/
def EndsAs (run : Batch × Option Abort) (tree : FileTree) (status : Nat) :
    Option (Except FileFault FileTree) → Prop
  | none => run.2 = none ∧ run.1.tree = tree ∧ run.1.status = status
  | some (.error _) => run.2 ≠ none
  | some (.ok last) => run.2 = none ∧ run.1.tree = last ∧ run.1.status = status

theorem finishInput_spec (houtput : plan.output = none) (hdir : plan.outputDirectory = some dir)
    (p : Path) (source : Text) (r : Result) (b : Batch) :
    EndsAs (finishInput plan p source r b) b.tree (max b.status r.exitCode)
      (r.text.map (deliver dir b.tree p)) := by
  obtain ⟨htree, hstatus⟩ := foldl_report b r.diagnostics source
  rw [finishInput]
  generalize r.diagnostics.foldl (fun b d => b.report (d.format source)) b = reported at htree hstatus
  cases r.text with
  | none => exact ⟨rfl, htree, by rw [← hstatus]; rfl⟩
  | some text =>
      have hraised : (reported.raise r.exitCode).tree = b.tree := htree
      rw [Option.map_some, deliver]
      simp only [writeOutput, houtput, hdir, hraised]
      cases hmade : b.tree.makeDirectories dir with
      | error e => simp [EndsAs]
      | ok made =>
          dsimp only
          cases made.write (dir.child p.name) (Text.Utf8.encode text) with
          | error e => simp [EndsAs, Except.map]
          | ok last =>
              dsimp only [Except.map, EndsAs]
              refine ⟨rfl, ?_, ?_⟩
              · split <;> rfl
              · rw [← hstatus]
                split <;> rfl

/-- An input is read, judged and written, and all else it does is to report. -/
theorem runInput_spec (houtput : plan.output = none) (hdir : plan.outputDirectory = some dir)
    (p : Path) (b : Batch) :
    match verdict plan p (readInput b.tree p) with
    | .error _ => (runInput plan p b).2 ≠ none
    | .ok (status, text) =>
        EndsAs (runInput plan p b) b.tree (max b.status status)
          (text.map (deliver dir b.tree p)) := by
  rw [runInput]
  cases readInput b.tree p with
  | error fault =>
      cases fault with
      | words words => exact ⟨rfl, rfl, rfl⟩
      | path fault => simp [verdict]
  | ok source =>
      rw [verdict]
      dsimp only
      by_cases hbase : (plan.baseless && declaresArea plan.options source) = true
      · simp [hbase]
      · simp only [hbase, Bool.false_eq_true, if_false]
        cases process plan.options p.toText source with
        | error fault => simp
        | ok r =>
            dsimp only
            split
            · exact finishInput_spec houtput hdir p source r
                { b with stderr := b.stderr ++ outlineOf source }
            · exact finishInput_spec houtput hdir p source r b

/-- What an input comes to alone if it does not end the batch. -/
theorem alone_spec (houtput : plan.output = none) (hdir : plan.outputDirectory = some dir)
    (h : (runInput plan p { tree := tree }).2 = none) :
    ∃ text, verdict plan p (readInput tree p) =
        .ok ((runInput plan p { tree := tree }).1.status, text) ∧
      ∀ t, text = some t → ∃ last, deliver dir tree p t = .ok last := by
  have hspec := runInput_spec houtput hdir p { tree := tree }
  split at hspec
  · exact absurd h hspec
  next status text hverdict =>
  cases text with
  | none =>
      obtain ⟨-, -, hstatus⟩ := hspec
      exact ⟨none, by rw [hverdict, hstatus, Nat.zero_max], by simp⟩
  | some t =>
      rw [Option.map_some] at hspec
      cases hdeliver : deliver dir tree p t with
      | error e =>
          rw [hdeliver] at hspec
          exact absurd h hspec
      | ok last =>
          rw [hdeliver] at hspec
          obtain ⟨-, -, hstatus⟩ := hspec
          refine ⟨some t, by rw [hverdict, hstatus, Nat.zero_max], ?_⟩
          rintro _ ⟨⟩
          exact ⟨last, hdeliver⟩

/-- An input that does not end the batch gives what its verdict says. -/
theorem processes_iff {status : Nat} {given : Option Text}
    (h : verdict plan p (readInput tree p) = .ok (status, given)) :
    Processes plan tree p text ↔ given = some text := by
  cases hread : readInput tree p with
  | error fault =>
      rw [hread] at h
      cases fault <;> cases h
      simp [Processes, hread]
  | ok source =>
      rw [hread, verdict] at h
      split at h
      · cases h
      cases hprocess : process plan.options p.toText source with
      | error fault => simp [hprocess] at h
      | ok r =>
          simp only [hprocess, Except.ok.injEq, Prod.mk.injEq] at h
          simp [Processes, hread, hprocess, h.2]

theorem processes_of_verdict {status : Nat}
    (h : (verdict plan p (readInput tree p)).toOption = some (status, some text)) :
    Processes plan tree p text := by
  cases hverdict : verdict plan p (readInput tree p) with
  | error abort => simp [hverdict, Except.toOption] at h
  | ok given =>
      rw [hverdict] at h
      obtain rfl := Option.some.inj h
      exact (processes_iff hverdict).2 rfl

theorem Processes.unique {text' : Text} (h : Processes plan tree p text)
    (h' : Processes plan tree p text') : text = text' := by
  obtain ⟨source, r, hread, hprocess, htext⟩ := h
  obtain ⟨source', r', hread', hprocess', htext'⟩ := h'
  cases hread.symm.trans hread'
  cases hprocess.symm.trans hprocess'
  exact Option.some.inj (htext.symm.trans htext')

/-! ### Where files are read and written -/

/-- The path leads downwards only, or somewhere from the beginning. -/
def Leads (tree : FileTree) (p : Path) : Prop := p.Descends ∨ ∃ l, tree.locate p = .ok l

instance (tree : FileTree) (p : Path) : Decidable (Leads tree p) :=
  decidable_of_iff (p.Descends ∨ (tree.locate p).isOk = true) (by rw [Leads, isOk_iff])

/-- Where the output of an input is written. -/
def target (dir : Path) (tree : FileTree) (p : Path) : Location :=
  enter (arrive (tree.start dir) dir.parts) p.name

section
variable {now : FileTree} {l : Location} {octets : List UInt8}

/-- A file is where its path names it. -/
theorem lands (hclosed : tree.Closed) (hkeeps : tree.KeepsDirectories now) (hleads : Leads tree p)
    (hlocate : now.locate p = .ok l) (hfile : now.entry? l = some (.file octets)) :
    p.parts ≠ [] ∧ p.name ≠ ['.', '.'] ∧ ∃ d, l = d ++ [p.name] := by
  have hwhere := (FileTree.locateFrom_eq_ok_iff.1 (FileTree.locate_eq_ok_iff.1 hlocate).2).1
  have hdirectory {d : Location} (hd : tree.entry? d = some .directory) (hl : l = d) : False := by
    rw [hl, hkeeps.directory hd] at hfile
    cases hfile
  have hparts : p.parts ≠ [] := by
    intro hnil
    have hstart : tree.entry? (tree.start p) = some .directory := by
      rcases start_eq p tree with hstart | hstart
      · rw [hstart, hclosed.home]
      · rw [hstart, tree.entry?_nil]
    rw [hkeeps.start, hnil] at hwhere
    exact hdirectory hstart hwhere
  have hconcat := Path.parts_eq_of_ne_nil hparts
  have hlast : l = enter (arrive (tree.start p) p.parts.dropLast) p.name := by
    rw [← arrive_concat, ← hconcat, ← hkeeps.start, hwhere]
  have hname : p.name ≠ ['.', '.'] := by
    intro hup
    rcases hleads with hdown | ⟨l', hl'⟩
    · refine hdown p.name ?_ hup
      rw [hconcat]
      simp
    · -- what lies above a directory is one
      have hsame := hkeeps.locate hl'
      rw [hlocate, Except.ok.injEq] at hsame
      subst hsame
      have hthrough :=
        (FileTree.locateFrom_eq_ok_iff.1 (FileTree.locate_eq_ok_iff.1 hl').2).2.1
      rw [hconcat, stops_concat, ← List.cons_append, List.dropLast_concat] at hthrough
      have habove := hclosed.parent (hthrough _ (arrive_mem _ _))
      exact hdirectory habove (by rw [hlast, hup]; rfl)
  refine ⟨hparts, hname, arrive (tree.start p) p.parts.dropLast, ?_⟩
  rw [hlast, enter, if_neg (by simpa using hname)]

/-- What a path that leads down to a file goes through is there. -/
theorem locate_of_descends (hclosed : tree.Closed) (hdown : p.Descends)
    (hkeeps : tree.KeepsDirectories now) (hlocate : now.locate p = .ok l)
    (hfile : tree.entry? l = some (.file octets)) : tree.locate p = .ok l := by
  rw [FileTree.locate_eq_ok_iff, FileTree.locateFrom_eq_ok_iff, hkeeps.start] at hlocate
  obtain ⟨hcheck, hl, -, hshort⟩ := hlocate
  rw [FileTree.locate_eq_ok_iff, FileTree.locateFrom_eq_ok_iff]
  refine ⟨hcheck, hl, fun d hd => ?_, hshort⟩
  obtain ⟨below, hbelow, heq⟩ := FileTree.exists_below_of_descends hdown hd
  rw [hl, FileTree.arrive_of_descends hdown, ← heq] at hfile
  exact hclosed.entry?_append hbelow hfile

/-- An input whose file stays as it is comes to the same. -/
theorem verdict_congr (h : ∀ octets, now.read p = .ok octets ↔ tree.read p = .ok octets) :
    verdict plan p (readInput now p) = verdict plan p (readInput tree p) := by
  rw [readInput, readInput]
  have hunnameable : now.read p = .error .unnameable ↔ tree.read p = .error .unnameable :=
    read_eq_unnameable_iff.trans read_eq_unnameable_iff.symm
  cases hread : tree.read p with
  | ok octets => rw [(h octets).2 hread]
  | error e =>
      cases hread' : now.read p with
      | ok octets =>
          rw [(h octets).1 hread'] at hread
          cases hread
      | error e' =>
          rw [hread, hread'] at hunnameable
          cases e <;> cases e' <;> first | rfl | simp at hunnameable

/-! ### The course of a batch -/

/-- The first tree has the directory for outputs, and of the inputs done each has its
output in the second; nothing else is different. -/
structure Delivered (plan : Plan) (dir : Path) (tree : FileTree) (finished : List Path)
    (made now : FileTree) : Prop where
  workingDirectory : now.workingDirectory = made.workingDirectory
  directory : ∀ l, now.entry? l = some .directory ↔ made.entry? l = some .directory
  output : ∀ p ∈ finished, ∀ text, Processes plan tree p text →
    now.entry? (target dir tree p) = some (.file (Text.Utf8.encode text))
  other : ∀ l, (∀ p ∈ finished, ∀ text, Processes plan tree p text → l ≠ target dir tree p) →
    now.entry? l = made.entry? l

/-- The tree of a batch under way: nothing is written yet, or the directory is made and
the outputs are in it. -/
inductive Progress (plan : Plan) (dir : Path) (tree : FileTree) (finished : List Path) :
    FileTree → Prop
  | nothing (silent : ∀ p ∈ finished, ∀ text, ¬ Processes plan tree p text) :
      Progress plan dir tree finished tree
  | written {made now : FileTree} (directory : tree.makeDirectories dir = .ok made)
      (delivered : Delivered plan dir tree finished made now) :
      Progress plan dir tree finished now

section
variable {finished : List Path}

theorem Progress.keeps (h : Progress plan dir tree finished now) : tree.KeepsDirectories now := by
  cases h with
  | nothing => exact ⟨rfl, id⟩
  | written hmade hdelivered =>
      have hadds := addsDirectories_of_makeDirectories hmade
      exact ⟨hdelivered.workingDirectory.trans hadds.workingDirectory,
        fun hl => (hdelivered.directory _).2 (hadds.keeps.directory hl)⟩

/-- Files that are no outputs stay as they are, and none are added. -/
theorem Progress.file_iff (h : Progress plan dir tree finished now)
    (hother : ∀ p ∈ finished, ∀ text, Processes plan tree p text → l ≠ target dir tree p) :
    now.entry? l = some (.file octets) ↔ tree.entry? l = some (.file octets) := by
  cases h with
  | nothing => exact Iff.rfl
  | written hmade hdelivered =>
      rw [hdelivered.other l hother]
      exact (addsDirectories_of_makeDirectories hmade).file_iff

theorem Processes.exists_read (h : Processes plan tree p text) :
    ∃ octets, tree.read p = .ok octets := by
  obtain ⟨source, r, hread, -⟩ := h
  rw [readInput] at hread
  split at hread
  · cases hread
  · cases hread
  · next octets hoctets => exact ⟨octets, hoctets⟩

/-- The output of an input lies under the name of the input. -/
theorem Processes.target_eq (hclosed : tree.Closed) (hleads : Leads tree p)
    (h : Processes plan tree p text) :
    p.parts ≠ [] ∧ target dir tree p = arrive (tree.start dir) dir.parts ++ [p.name] := by
  obtain ⟨octets, hread⟩ := h.exists_read
  obtain ⟨l, hlocate, hfile⟩ := read_eq_ok_iff.1 hread
  obtain ⟨hparts, hname, -⟩ := lands hclosed ⟨rfl, id⟩ hleads hlocate hfile
  exact ⟨hparts, by rw [target, enter, if_neg (by simpa using hname)]⟩

/-- What other inputs write is not what an input reads. -/
theorem Progress.read_iff (h : Progress plan dir tree finished now) (hclosed : tree.Closed)
    (hleads : Leads tree p) (hfinished : ∀ q ∈ finished, Leads tree q ∧ q.name ≠ p.name)
    (octets : List UInt8) : now.read p = .ok octets ↔ tree.read p = .ok octets := by
  have hother {l : Location} (hl : ∃ d, l = d ++ [p.name]) :
      ∀ q ∈ finished, ∀ text, Processes plan tree q text → l ≠ target dir tree q := by
    rintro q hq text hprocesses heq
    obtain ⟨d, rfl⟩ := hl
    rw [(hprocesses.target_eq hclosed (hfinished q hq).1).2] at heq
    exact (hfinished q hq).2 (by simpa using (List.append_inj' heq rfl).2.symm)
  rw [read_eq_ok_iff, read_eq_ok_iff]
  constructor
  · rintro ⟨l, hlocate, hfile⟩
    have hl := (lands hclosed h.keeps hleads hlocate hfile).2.2
    have hbefore := (h.file_iff (hother hl)).1 hfile
    refine ⟨l, ?_, hbefore⟩
    rcases hleads with hdown | ⟨l', hl'⟩
    · exact locate_of_descends hclosed hdown h.keeps hlocate hbefore
    · rwa [← Except.ok.inj ((h.keeps.locate hl').symm.trans hlocate)]
  · rintro ⟨l, hlocate, hfile⟩
    have hl := (lands hclosed ⟨rfl, id⟩ hleads hlocate hfile).2.2
    exact ⟨l, h.keeps.locate hlocate, (h.file_iff (hother hl)).2 hfile⟩

/-- An output goes to its place in a tree with the directory for outputs. -/
theorem locate_child {made : FileTree} (hspelled : p.Spelled) (hparts : p.parts ≠ [])
    (hmade : tree.makeDirectories dir = .ok made) (hlocate : made.locate (dir.child p.name) = .ok l) :
    l = target dir tree p := by
  have hwhere := (FileTree.locateFrom_eq_ok_iff.1 (FileTree.locate_eq_ok_iff.1 hlocate).2).1
  rw [hspelled.parts_child hparts, arrive_concat,
    (addsDirectories_of_makeDirectories hmade).keeps.start] at hwhere
  exact hwhere

/-- One more output in its place. -/
theorem Delivered.insert {made : FileTree} (h : Delivered plan dir tree finished made now)
    (hprocesses : Processes plan tree p text)
    (hfree : made.entry? (target dir tree p) ≠ some .directory)
    (hothers : ∀ q ∈ finished, ∀ t, Processes plan tree q t →
      target dir tree q ≠ target dir tree p) :
    Delivered plan dir tree (finished ++ [p]) made
      (now.insert (target dir tree p) (.file (Text.Utf8.encode text))) := by
  have hroot : target dir tree p ≠ [] := by
    intro hnil
    rw [hnil] at hfree
    exact hfree made.entry?_nil
  refine ⟨h.workingDirectory, fun l => ?_, ?_, fun l hl => ?_⟩
  · rw [FileTree.entry?_insert hroot, ← h.directory]
    split
    · next hl => simp [hl, h.directory, hfree]
    · exact Iff.rfl
  · rw [List.forall_mem_append, List.forall_mem_singleton]
    constructor
    · intro q hq t ht
      rw [FileTree.entry?_insert hroot, if_neg (hothers q hq t ht)]
      exact h.output q hq t ht
    · intro t ht
      rw [FileTree.entry?_insert hroot, if_pos rfl, ht.unique hprocesses]
  · rw [List.forall_mem_append, List.forall_mem_singleton] at hl
    rw [FileTree.entry?_insert hroot, if_neg (hl.2 text hprocesses)]
    exact h.other l hl.1

/-- With the directory made the batch is as before, and the directory is there. -/
theorem Progress.makeDirectories {made : FileTree} (h : Progress plan dir tree finished now)
    (hmade : tree.makeDirectories dir = .ok made) :
    ∃ now', now.makeDirectories dir = .ok now' ∧ Delivered plan dir tree finished made now' := by
  cases h with
  | nothing hsilent =>
      refine ⟨made, hmade, rfl, fun _ => Iff.rfl, ?_, fun _ _ => rfl⟩
      exact fun p hp text hprocesses => absurd hprocesses (hsilent p hp text)
  | @written made' _ hmade' hdelivered =>
      obtain rfl := Except.ok.inj (hmade'.symm.trans hmade)
      refine ⟨now, ?_, hdelivered⟩
      exact FileTree.KeepsDirectories.makeDirectories
        ⟨hdelivered.workingDirectory, (hdelivered.directory _).2⟩ hmade

/-- An input that writes alone writes in a batch. -/
theorem Progress.deliver {last : FileTree} (h : Progress plan dir tree finished now)
    (hclosed : tree.Closed) (hspelled : p.Spelled) (hleads : Leads tree p)
    (hfinished : ∀ q ∈ finished, Leads tree q ∧ q.name ≠ p.name)
    (hprocesses : Processes plan tree p text) (halone : deliver dir tree p text = .ok last) :
    ∃ next, deliver dir now p text = .ok next ∧ Progress plan dir tree (finished ++ [p]) next := by
  rw [Batch.deliver] at halone
  cases hmade : tree.makeDirectories dir with
  | error e => simp [hmade] at halone
  | ok made =>
      simp only [hmade] at halone
      obtain ⟨l, hlocate, hfree, -⟩ := write_eq_ok_iff.1 halone
      obtain ⟨hparts, htarget⟩ :
          p.parts ≠ [] ∧ target dir tree p = arrive (tree.start dir) dir.parts ++ [p.name] :=
        hprocesses.target_eq hclosed hleads
      obtain rfl := locate_child hspelled hparts hmade hlocate
      obtain ⟨now', hnow', hdelivered⟩ := h.makeDirectories hmade
      have hkeeps : made.KeepsDirectories now' :=
        ⟨hdelivered.workingDirectory, (hdelivered.directory _).2⟩
      refine ⟨_, ?_, .written hmade (hdelivered.insert hprocesses hfree ?_)⟩
      · rw [Batch.deliver, hnow']
        refine write_eq_ok_iff.2 ⟨_, hkeeps.locate hlocate, ?_, rfl⟩
        rwa [ne_eq, hdelivered.directory]
      · intro q hq t ht heq
        rw [(ht.target_eq hclosed (hfinished q hq).1).2, htarget] at heq
        exact (hfinished q hq).2 (by simpa using heq)

/-- An input that writes nothing leaves the batch where it is. -/
theorem Progress.silent (h : Progress plan dir tree finished now)
    (hsilent : ∀ text, ¬ Processes plan tree p text) :
    Progress plan dir tree (finished ++ [p]) now := by
  have hforall {Q : Path → Text → Prop} (h : ∀ q ∈ finished, ∀ t, Processes plan tree q t → Q q t) :
      ∀ q ∈ finished ++ [p], ∀ t, Processes plan tree q t → Q q t := by
    rw [List.forall_mem_append, List.forall_mem_singleton]
    exact ⟨h, fun t ht => absurd ht (hsilent t)⟩
  cases h with
  | nothing hbefore => exact .nothing (hforall hbefore)
  | written hmade hdelivered =>
      refine .written hmade ⟨hdelivered.workingDirectory, hdelivered.directory,
        hforall hdelivered.output, fun l hl => hdelivered.other l fun q hq => ?_⟩
      exact hl q (List.mem_append_left _ hq)

/-- The output of an input is in its place. -/
theorem Progress.output {last : FileTree} (h : Progress plan dir tree finished now)
    (hspelled : p.Spelled) (hclosed : tree.Closed) (hleads : Leads tree p) (hp : p ∈ finished)
    (hprocesses : Processes plan tree p text) (halone : Batch.deliver dir tree p text = .ok last) :
    now.locate (dir.child p.name) = .ok (target dir tree p) ∧
      now.entry? (target dir tree p) = some (.file (Text.Utf8.encode text)) := by
  cases h with
  | nothing hsilent => exact absurd hprocesses (hsilent p hp text)
  | @written made _ hmade hdelivered =>
      rw [Batch.deliver, hmade] at halone
      obtain ⟨l, hlocate, -, -⟩ := write_eq_ok_iff.1 halone
      obtain ⟨hparts, -⟩ :
          p.parts ≠ [] ∧ target dir tree p = arrive (tree.start dir) dir.parts ++ [p.name] :=
        hprocesses.target_eq hclosed hleads
      obtain rfl := locate_child hspelled hparts hmade hlocate
      have hkeeps : made.KeepsDirectories now :=
        ⟨hdelivered.workingDirectory, (hdelivered.directory _).2⟩
      exact ⟨hkeeps.locate hlocate, hdelivered.output p hp text hprocesses⟩

/-- One input in a batch comes to what it comes to alone. -/
theorem Progress.runInput (houtput : plan.output = none) (hdir : plan.outputDirectory = some dir)
    {b : Batch} (h : Progress plan dir tree finished b.tree) (hclosed : tree.Closed)
    (hspelled : p.Spelled) (hleads : Leads tree p)
    (hfinished : ∀ q ∈ finished, Leads tree q ∧ q.name ≠ p.name)
    (halone : (runInput plan p { tree := tree }).2 = none) :
    ∃ next, runInput plan p b = (next, none) ∧
      Progress plan dir tree (finished ++ [p]) next.tree ∧
      next.status = max b.status (runInput plan p { tree := tree }).1.status := by
  obtain ⟨given, hverdict, hwrites⟩ := alone_spec houtput hdir halone
  have hspec := runInput_spec houtput hdir p b
  rw [verdict_congr (h.read_iff hclosed hleads hfinished), hverdict] at hspec
  cases given with
  | none =>
      obtain ⟨hnone, htree, hstatus⟩ := hspec
      refine ⟨_, Prod.ext rfl hnone, htree ▸ h.silent fun text hprocesses => ?_, hstatus⟩
      exact absurd ((processes_iff hverdict).1 hprocesses) (by simp)
  | some text =>
      have hprocesses : Processes plan tree p text := (processes_iff hverdict).2 rfl
      obtain ⟨last, hlast⟩ := hwrites text rfl
      obtain ⟨next, hnext, hprogress⟩ :=
        h.deliver hclosed hspelled hleads hfinished hprocesses hlast
      dsimp only [Option.map_some] at hspec
      rw [hnext] at hspec
      obtain ⟨hnone, htree, hstatus⟩ := hspec
      exact ⟨_, Prod.ext rfl hnone, htree ▸ hprogress, hstatus⟩

/-- So do all inputs, one after the other. -/
theorem Progress.runInputs (houtput : plan.output = none) (hdir : plan.outputDirectory = some dir)
    (hclosed : tree.Closed) {inputs : List Path} {b : Batch}
    (h : Progress plan dir tree finished b.tree) (hspelled : ∀ p ∈ inputs, p.Spelled)
    (hleads : ∀ p ∈ finished ++ inputs, Leads tree p)
    (hnames : ((finished ++ inputs).map Path.name).Nodup)
    (halone : ∀ p ∈ inputs, (Batch.runInput plan p { tree := tree }).2 = none) :
    ∃ last, Batch.runInputs plan inputs b = (last, none) ∧
      Progress plan dir tree (finished ++ inputs) last.tree ∧
      last.status = (inputs.map fun p =>
        (Batch.runInput plan p { tree := tree }).1.status).foldl max b.status := by
  induction inputs generalizing finished b with
  | nil => exact ⟨b, rfl, by rwa [List.append_nil], rfl⟩
  | cons p rest ih =>
      rw [List.forall_mem_cons] at hspelled halone
      have hfinished : ∀ q ∈ finished, Leads tree q ∧ q.name ≠ p.name := by
        intro q hq
        refine ⟨hleads q (List.mem_append_left _ hq), ?_⟩
        rw [List.map_append, List.nodup_append] at hnames
        exact hnames.2.2 _ (List.mem_map_of_mem hq) _ (by simp)
      obtain ⟨next, hnext, hprogress, hstatus⟩ := h.runInput houtput hdir hclosed hspelled.1
        (hleads p (by simp)) hfinished halone.1
      rw [List.append_cons] at hleads hnames
      obtain ⟨last, hlast, hprogress', hstatus'⟩ :=
        ih hprogress hspelled.2 hleads hnames halone.2
      refine ⟨last, ?_, by rwa [List.append_cons], ?_⟩
      · rw [Batch.runInputs, hnext]
        exact hlast
      · rw [hstatus', hstatus]
        rfl

end

end

end Batch

/-! ### Command lines -/

/-- The inputs of a plan are those of the command line. -/
theorem Plan.inputs_of_ofArguments {tree : FileTree} {a : Arguments} {plan : Plan}
    (h : Plan.ofArguments tree a = .ok plan) : plan.inputs = a.inputs.map Path.ofText := by
  simp only [ofArguments, bind, Except.bind] at h
  split at h
  · cases h
  split at h
  · cases h
  split at h
  · cases h
  split at h
  · cases h
  · cases h
    rfl

/-- Inputs of different names that are written to a directory come to what they come to
alone: the status is the worst of theirs, each output is there, and no other file is
touched. -/
theorem run_directory {tree : FileTree} {args : List Text} {a : Arguments} {plan : Plan}
    {dir : Path} (parsed : Arguments.parse args = .ok a)
    (planned : Plan.ofArguments tree a = .ok plan) (output : plan.output = none)
    (directory : plan.outputDirectory = some dir) (closed : tree.Closed)
    (names : (plan.inputs.map Path.name).Nodup) (leads : ∀ p ∈ plan.inputs, Batch.Leads tree p)
    (alone : ∀ p ∈ plan.inputs, (Batch.runInput plan p { tree := tree }).2 = none) :
    ∃ batch, run tree args = .finished batch none ∧
      batch.status = (plan.inputs.map fun p =>
        (Batch.runInput plan p { tree := tree }).1.status).foldl max 0 ∧
      (∀ p ∈ plan.inputs, ∀ words, Batch.readInput tree p = .error (.words words) →
        (Batch.runInput plan p { tree := tree }).1.status = 2) ∧
      (∀ p ∈ plan.inputs, ∀ text, Batch.Processes plan tree p text →
        batch.tree.read (dir.child p.name) = .ok (Text.Utf8.encode text)) ∧
      ∀ l octets, (∀ p ∈ plan.inputs, ∀ text, Batch.Processes plan tree p text →
          batch.tree.locate (dir.child p.name) ≠ .ok l) →
        (batch.tree.entry? l = some (.file octets) ↔ tree.entry? l = some (.file octets)) := by
  have hspelled : ∀ p ∈ plan.inputs, p.Spelled := by
    rw [Plan.inputs_of_ofArguments planned]
    intro p hp
    obtain ⟨t, -, rfl⟩ := List.mem_map.1 hp
    exact Path.spelled_ofText t
  obtain ⟨batch, hrun, hprogress, hstatus⟩ :=
    @Batch.Progress.runInputs plan dir tree [] output directory closed plan.inputs
      { tree := tree } (.nothing (by simp)) hspelled leads names alone
  -- an output that is written alone has its place in the end
  have hplace : ∀ p ∈ plan.inputs, ∀ text, Batch.Processes plan tree p text →
      batch.tree.locate (dir.child p.name) = .ok (Batch.target dir tree p) ∧
        batch.tree.entry? (Batch.target dir tree p) =
          some (.file (Text.Utf8.encode text)) := by
    intro p hp text hprocesses
    obtain ⟨given, hverdict, hwrites⟩ := Batch.alone_spec output directory (alone p hp)
    obtain ⟨last, hlast⟩ := hwrites text ((Batch.processes_iff hverdict).1 hprocesses)
    exact hprogress.output (hspelled p hp) closed (leads p hp) hp hprocesses hlast
  refine ⟨batch, ?_, hstatus, ?_, ?_, ?_⟩
  · simp only [run, parsed, planned, hrun]
  · intro p _ words hwords
    rw [Batch.runInput, hwords]
    rfl
  · intro p hp text hprocesses
    exact FileTree.read_eq_ok_iff.2 ⟨_, hplace p hp text hprocesses⟩
  · intro l octets hl
    refine hprogress.file_iff fun p hp text hprocesses heq => ?_
    exact hl p hp text hprocesses (heq ▸ (hplace p hp text hprocesses).1)

/-- Three inputs in a working directory, one of them no text. -/
def shelf : FileTree where
  entries := [(["w".toList], .directory),
    (["w".toList, "a.rms".toList], .file (Text.Utf8.encode "x /* y */ z".toList)),
    (["w".toList, "b.rms".toList], .file [0xFF]),
    (["w".toList, "c.rms".toList], .file (Text.Utf8.encode "#REPEAT(2)\nu\n#END_REPEAT".toList))]
  workingDirectory := ["w".toList]

theorem run_directory_shelf :
    ∃ batch, run shelf (["a.rms", "b.rms", "../w/c.rms", "-d", "out"].map String.toList) =
        .finished batch none ∧ batch.status = 2 ∧
      batch.tree.read (.ofText "out/a.rms".toList) = .ok (Text.Utf8.encode "x z".toList) ∧
      batch.tree.read (.ofText "out/c.rms".toList) = .ok (Text.Utf8.encode "u\nu".toList) := by
  have hsetup : (Arguments.parse (["a.rms", "b.rms", "../w/c.rms", "-d", "out"].map
      String.toList)).toOption.any (fun a => (Plan.ofArguments shelf a).toOption.any fun plan =>
        decide (plan.output = none ∧ plan.outputDirectory = some (.ofText "out".toList) ∧
          plan.inputs = ["a.rms", "b.rms", "../w/c.rms"].map (Path.ofText ∘ String.toList) ∧
          (∀ p ∈ plan.inputs, Batch.Leads shelf p) ∧
          (∀ p ∈ plan.inputs, (Batch.runInput plan p { tree := shelf }).2 = none) ∧
          (plan.inputs.map fun p =>
            (Batch.runInput plan p { tree := shelf }).1.status).foldl max 0 = 2 ∧
          (plan.inputs.map fun p =>
            (Batch.verdict plan p (Batch.readInput shelf p)).toOption) =
              [some (0, some "x z".toList), some (2, none), some (0, some "u\nu".toList)])) =
        true := by
    decide +kernel
  obtain ⟨a, ha, hsetup⟩ := toOption_any_iff.1 hsetup
  obtain ⟨plan, hplan, hsetup⟩ := toOption_any_iff.1 hsetup
  obtain ⟨houtput, hdir, hinputs, hleads, halone, hstatus, hverdicts⟩ :=
    of_decide_eq_true hsetup
  have hclosed : shelf.Closed := .of_entries (by decide) (by decide)
  have hnames : (plan.inputs.map Path.name).Nodup := by
    rw [hinputs]
    decide
  obtain ⟨batch, hrun, hworst, -, hwritten, -⟩ :=
    run_directory ha hplan houtput hdir hclosed hnames hleads halone
  rw [hinputs] at hverdicts hwritten
  simp only [List.map_cons, List.map_nil, List.cons.injEq, and_true] at hverdicts
  obtain ⟨hfirst, -, hlast⟩ := hverdicts
  refine ⟨batch, hrun, hworst.trans hstatus, ?_, ?_⟩
  · exact hwritten _ (by simp) _ (Batch.processes_of_verdict hfirst)
  · exact hwritten _ (by simp) _ (Batch.processes_of_verdict hlast)

/-- Two inputs of one name and one text, the second in the directory for outputs. -/
def stacked : FileTree where
  entries := [(["w".toList], .directory), (["w".toList, "a".toList], .directory),
    (["w".toList, "a".toList, "m.rms".toList],
      .file (Text.Utf8.encode "#HEADER_START\nx\n#HEADER_END\ny".toList)),
    (["w".toList, "m.rms".toList],
      .file (Text.Utf8.encode "#HEADER_START\nx\n#HEADER_END\ny".toList))]
  workingDirectory := ["w".toList]

/-- The output of the first input is read in place of the second. -/
theorem run_directory_overwritten :
    ∃ a plan batch text, Arguments.parse (["a/m.rms", "m.rms", "-d", "."].map String.toList) =
        .ok a ∧ Plan.ofArguments stacked a = .ok plan ∧ plan.output = none ∧
      plan.outputDirectory = some (.ofText ".".toList) ∧ stacked.Closed ∧
      run stacked (["a/m.rms", "m.rms", "-d", "."].map String.toList) = .finished batch none ∧
      Path.ofText "m.rms".toList ∈ plan.inputs ∧
      Batch.Processes plan stacked (.ofText "m.rms".toList) text ∧
      batch.tree.read ((Path.ofText ".".toList).child "m.rms".toList) ≠
        .ok (Text.Utf8.encode text) := by
  have hsetup : (Arguments.parse (["a/m.rms", "m.rms", "-d", "."].map
      String.toList)).toOption.any (fun a => (Plan.ofArguments stacked a).toOption.any fun plan =>
        decide (plan.output = none ∧ plan.outputDirectory = some (.ofText ".".toList) ∧
          Path.ofText "m.rms".toList ∈ plan.inputs ∧
          (Batch.verdict plan (.ofText "m.rms".toList)
            (Batch.readInput stacked (.ofText "m.rms".toList))).toOption =
              some (0, some "/* x */\ny".toList) ∧
          (Batch.runInputs plan plan.inputs { tree := stacked }).2 = none ∧
          ((Batch.runInputs plan plan.inputs { tree := stacked }).1.tree.read
            ((Path.ofText ".".toList).child "m.rms".toList)).toOption =
              some (Text.Utf8.encode "y".toList))) = true := by
    decide +kernel
  obtain ⟨a, ha, hsetup⟩ := toOption_any_iff.1 hsetup
  obtain ⟨plan, hplan, hsetup⟩ := toOption_any_iff.1 hsetup
  obtain ⟨houtput, hdir, hmem, hverdict, hnone, hread⟩ := of_decide_eq_true hsetup
  refine ⟨a, plan, (Batch.runInputs plan plan.inputs { tree := stacked }).1,
    "/* x */\ny".toList, ha, hplan, houtput, hdir, .of_entries (by decide) (by decide), ?_, hmem,
    Batch.processes_of_verdict hverdict, ?_⟩
  · simp only [run, ha, hplan, hnone]
  · intro heq
    rw [heq, Except.toOption, Option.some.injEq] at hread
    exact absurd hread (by decide)

end MapScript.Command
