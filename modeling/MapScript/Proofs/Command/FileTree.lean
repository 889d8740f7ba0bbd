import MapScript.Command.FileTree
import Mathlib

/-!
# What file operations change

A path leads to the location that its parts spell, through directories only, so where
it leads depends on the directories.  Making directories adds them and nothing else,
and after it there is nothing left to make; writing changes one file.
-/

namespace MapScript.Command.FileTree

variable {tree tree' : FileTree} {here l l' : Location} {parts : List Text} {p : Path}
  {octets : List UInt8}

/-- What lies in a directory lies in one that is there, and so does the place where
relative paths begin. -/
structure Closed (tree : FileTree) : Prop where
  home : tree.entry? tree.workingDirectory = some .directory
  parent : ∀ {l e}, tree.entry? l = some e → tree.entry? l.dropLast = some .directory

theorem entry?_nil (tree : FileTree) : tree.entry? [] = some .directory := rfl

theorem Closed.entry?_append (h : tree.Closed) {e : Entry} {below : Location}
    (hbelow : below ≠ []) (he : tree.entry? (l ++ below) = some e) :
    tree.entry? l = some .directory := by
  induction below using List.reverseRecOn generalizing e with
  | nil => exact absurd rfl hbelow
  | append_singleton below name ih =>
      have hparent := h.parent he
      rw [← List.append_assoc, List.dropLast_concat] at hparent
      cases below with
      | nil => rwa [List.append_nil] at hparent
      | cons part below => exact ih (by simp) hparent

/-- It is enough to look at the entries there are. -/
theorem Closed.of_entries (home : tree.entry? tree.workingDirectory = some .directory)
    (h : ∀ x ∈ tree.entries, tree.entry? x.1.dropLast = some .directory) : tree.Closed := by
  refine ⟨home, fun {l e} he => ?_⟩
  unfold FileTree.entry? at he
  split at he
  · next hroot => rw [List.isEmpty_iff.1 hroot, List.dropLast_nil, entry?_nil]
  · obtain ⟨before, after, hentries, -⟩ := List.lookup_eq_some_iff.1 he
    exact h (l, e) (by simp [hentries])

/-! ### Writing -/

theorem lookup_replace (entries : List (Location × Entry)) (l l' : Location) (e : Entry) :
    (entries.map fun (k, old) => if k == l then (k, e) else (k, old)).lookup l' =
      if l' = l then (entries.lookup l').map fun _ => e else entries.lookup l' := by
  induction entries with
  | nil => simp
  | cons first rest ih =>
      obtain ⟨k, old⟩ := first
      have hfirst : (if k == l then (k, e) else (k, old)) = (k, if k = l then e else old) := by
        by_cases hk : k = l <;> simp [hk]
      rw [List.map_cons]
      dsimp only
      rw [hfirst, List.lookup_cons, List.lookup_cons, ih]
      by_cases hl' : l' = k
      · subst hl'
        by_cases hk : l' = l <;> simp [hk]
      · have hother : (l' == k) = false := by simpa using hl'
        simp [hother]

theorem entry?_insert (hl : l ≠ []) (e : Entry) (l' : Location) :
    FileTree.entry? (tree.insert l e) l' = if l' = l then some e else tree.entry? l' := by
  unfold FileTree.entry?
  cases hempty : l'.isEmpty with
  | true =>
      have hne : l' ≠ l := by
        rintro rfl
        exact hl (List.isEmpty_iff.1 hempty)
      simp [hne]
  | false =>
      simp only [Bool.false_eq_true, if_false, insert]
      by_cases hthere : (tree.entries.lookup l).isSome = true
      · rw [if_pos hthere, lookup_replace]
        by_cases hl' : l' = l
        · subst hl'
          obtain ⟨old, hold⟩ := Option.isSome_iff_exists.1 hthere
          simp [hold]
        · simp [hl']
      · rw [if_neg hthere, List.lookup_append]
        by_cases hl' : l' = l
        · subst hl'
          rw [Option.not_isSome_iff_eq_none] at hthere
          simp [hthere]
        · have : (l' == l) = false := by simpa using hl'
          simp [hl', List.lookup_cons, this]

@[simp] theorem workingDirectory_insert (tree : FileTree) (l : Location) (e : Entry) :
    (tree.insert l e).workingDirectory = tree.workingDirectory := rfl

/-! ### Ways -/

/-- The location that parts lead to. -/
def arrive (here : Location) (parts : List Text) : Location := parts.foldl enter here

/-- The locations that parts lead through, the last one included. -/
def stops (here : Location) : List Text → List Location
  | [] => []
  | part :: rest => enter here part :: stops (enter here part) rest

/-- Parts lead where they spell, through directories. -/
theorem locateFrom_eq_ok_iff : tree.locateFrom here parts = .ok l ↔
    l = arrive here parts ∧
      (∀ d ∈ (here :: stops here parts).dropLast, tree.entry? d = some .directory) ∧
      ∀ part ∈ parts, isLong part = false := by
  induction parts generalizing here with
  | nil =>
      rw [locateFrom, Except.ok.injEq]
      exact ⟨fun h => ⟨h.symm, by simp [stops], by simp⟩, fun h => h.1.symm⟩
  | cons part rest ih =>
      rw [locateFrom, stops, List.dropLast_cons_cons, List.forall_mem_cons, List.forall_mem_cons]
      have harrive : arrive here (part :: rest) = arrive (enter here part) rest := rfl
      cases hhere : tree.entry? here with
      | none => simp
      | some e =>
          cases e with
          | file octets => simp
          | directory =>
              cases hlong : isLong part with
              | true => simp
              | false => simp [ih, harrive]

theorem stops_concat (here : Location) (parts : List Text) (last : Text) :
    stops here (parts ++ [last]) = stops here parts ++ [enter (arrive here parts) last] := by
  induction parts generalizing here with
  | nil => rfl
  | cons part parts ih => rw [List.cons_append, stops, ih]; rfl

theorem arrive_mem (here : Location) (parts : List Text) :
    arrive here parts ∈ here :: stops here parts := by
  induction parts generalizing here with
  | nil => simp [arrive]
  | cons part parts ih =>
      rw [stops]
      exact List.mem_cons_of_mem _ (ih (enter here part))

theorem arrive_concat (here : Location) (parts : List Text) (last : Text) :
    arrive here (parts ++ [last]) = enter (arrive here parts) last := by
  simp [arrive]

/-- Parts that lead downwards only spell the way. -/
theorem arrive_of_descends {here : Location} {parts : List Text}
    (h : ∀ part ∈ parts, part ≠ ['.', '.']) : arrive here parts = here ++ parts := by
  induction parts generalizing here with
  | nil => simp [arrive]
  | cons part parts ih =>
      obtain ⟨hpart, hparts⟩ := List.forall_mem_cons.1 h
      have henter : enter here part = here ++ [part] := by simp [enter, hpart]
      show arrive (enter here part) parts = _
      rw [henter, ih hparts, List.append_assoc, List.singleton_append]

theorem exists_below_of_descends {here d : Location} {parts : List Text}
    (h : ∀ part ∈ parts, part ≠ ['.', '.']) (hd : d ∈ (here :: stops here parts).dropLast) :
    ∃ below, below ≠ [] ∧ d ++ below = here ++ parts := by
  induction parts generalizing here with
  | nil => simp [stops] at hd
  | cons part parts ih =>
      obtain ⟨hpart, hparts⟩ := List.forall_mem_cons.1 h
      have henter : enter here part = here ++ [part] := by simp [enter, hpart]
      rw [stops, List.dropLast_cons_cons, henter] at hd
      rcases List.mem_cons.1 hd with rfl | hd
      · exact ⟨part :: parts, by simp, rfl⟩
      · obtain ⟨below, hbelow, heq⟩ := ih hparts hd
        exact ⟨below, hbelow, by simpa using heq⟩

theorem start_eq (p : Path) (tree : FileTree) :
    tree.start p = tree.workingDirectory ∨ tree.start p = [] := by
  rw [start]
  split <;> simp

theorem locateFrom_ne_unnameable : tree.locateFrom here parts ≠ .error .unnameable := by
  induction parts generalizing here with
  | nil => simp [locateFrom]
  | cons part rest ih =>
      rw [locateFrom]
      split
      · simp
      · simp
      · split
        · simp
        · exact ih

theorem locate_eq_ok_iff {p : Path} : tree.locate p = .ok l ↔
    check p = .ok () ∧ tree.locateFrom (tree.start p) p.parts = .ok l := by
  rw [locate]
  cases hcheck : check p with
  | error e => simp [bind, Except.bind]
  | ok u => simp [bind, Except.bind]

theorem read_eq_ok_iff : tree.read p = .ok octets ↔
    ∃ l, tree.locate p = .ok l ∧ tree.entry? l = some (.file octets) := by
  rw [read]
  cases tree.locate p with
  | error e => simp
  | ok l =>
      cases hentry : tree.entry? l with
      | none => simp [hentry]
      | some e => cases e <;> simp [hentry]

/-- Whether a path can be named is seen from the path alone. -/
theorem read_eq_unnameable_iff :
    tree.read p = .error .unnameable ↔ check p = .error .unnameable := by
  rw [read, locate]
  cases hcheck : check p with
  | error e => simp [bind, Except.bind]
  | ok u =>
      simp only [bind, Except.bind, reduceCtorEq, iff_false]
      split
      · next e he =>
        intro heq
        rw [Except.error.injEq] at heq
        exact locateFrom_ne_unnameable (heq ▸ he)
      · split <;> simp

theorem write_eq_ok_iff {last : FileTree} : tree.write p octets = .ok last ↔
    ∃ l, tree.locate p = .ok l ∧ tree.entry? l ≠ some .directory ∧
      last = tree.insert l (.file octets) := by
  rw [write]
  cases tree.locate p with
  | error e => simp
  | ok l =>
      cases hentry : tree.entry? l with
      | none => simp [hentry, eq_comm]
      | some e => cases e <;> simp [hentry, eq_comm]

/-- The second tree has the directories of the first. -/
structure KeepsDirectories (tree tree' : FileTree) : Prop where
  workingDirectory : tree'.workingDirectory = tree.workingDirectory
  directory : ∀ {l}, tree.entry? l = some .directory → tree'.entry? l = some .directory

theorem KeepsDirectories.start (h : tree.KeepsDirectories tree') (p : Path) :
    tree'.start p = tree.start p := by
  rw [FileTree.start, FileTree.start, h.workingDirectory]

/-- Where a path leads it still leads when there are more directories. -/
theorem KeepsDirectories.locate (h : tree.KeepsDirectories tree') {p : Path}
    (hp : tree.locate p = .ok l) : tree'.locate p = .ok l := by
  rw [locate_eq_ok_iff, locateFrom_eq_ok_iff] at hp ⊢
  obtain ⟨hcheck, hl, hdirectories, hshort⟩ := hp
  rw [h.start]
  exact ⟨hcheck, hl, fun d hd => h.directory (hdirectories d hd), hshort⟩

/-! ### Making directories -/

/-- The second tree is the first with more directories. -/
structure AddsDirectories (tree tree' : FileTree) : Prop where
  workingDirectory : tree'.workingDirectory = tree.workingDirectory
  entry? : ∀ l, tree'.entry? l = tree.entry? l ∨
    tree.entry? l = none ∧ tree'.entry? l = some .directory

theorem AddsDirectories.refl (tree : FileTree) : tree.AddsDirectories tree :=
  ⟨rfl, fun _ => Or.inl rfl⟩

theorem AddsDirectories.trans {tree'' : FileTree} (h : tree.AddsDirectories tree')
    (h' : tree'.AddsDirectories tree'') : tree.AddsDirectories tree'' := by
  refine ⟨h'.workingDirectory.trans h.workingDirectory, fun l => ?_⟩
  rcases h'.entry? l with hsame' | ⟨hnone, hdirectory⟩
  · rw [hsame']
    exact h.entry? l
  · rcases h.entry? l with hsame | ⟨-, hadded⟩
    · exact Or.inr ⟨hsame ▸ hnone, hdirectory⟩
    · rw [hnone] at hadded
      cases hadded

theorem AddsDirectories.entry?_of_some (h : tree.AddsDirectories tree') {e : Entry}
    (he : tree.entry? l = some e) : tree'.entry? l = some e := by
  rcases h.entry? l with hsame | ⟨hnone, -⟩
  · rwa [hsame]
  · rw [he] at hnone
    cases hnone

theorem AddsDirectories.keeps (h : tree.AddsDirectories tree') : tree.KeepsDirectories tree' :=
  ⟨h.workingDirectory, h.entry?_of_some⟩

theorem AddsDirectories.file_iff (h : tree.AddsDirectories tree') {octets : List UInt8} :
    tree'.entry? l = some (.file octets) ↔ tree.entry? l = some (.file octets) := by
  rcases h.entry? l with hsame | ⟨hnone, hdirectory⟩
  · rw [hsame]
  · simp [hnone, hdirectory]

theorem addsDirectories_insert (hnone : tree.entry? l = none) :
    tree.AddsDirectories (tree.insert l .directory) := by
  refine ⟨rfl, fun l' => ?_⟩
  have hl : l ≠ [] := by
    rintro rfl
    cases hnone
  rw [entry?_insert hl]
  by_cases hl' : l' = l
  · exact Or.inr ⟨hl' ▸ hnone, if_pos hl'⟩
  · exact Or.inl (if_neg hl')

/-- Making directories adds them, and those on the way are there afterwards. -/
theorem makeFrom_spec (h : tree.makeFrom here parts = .ok tree') :
    tree.AddsDirectories tree' ∧
      (∀ d ∈ stops here parts, tree'.entry? d = some .directory) ∧
      ∀ part ∈ parts, isLong part = false := by
  induction parts generalizing tree here with
  | nil =>
      cases h
      exact ⟨.refl _, by simp [stops], by simp⟩
  | cons part rest ih =>
      rw [makeFrom] at h
      cases hlong : isLong part with
      | true => simp [hlong] at h
      | false =>
          have hnext {between : FileTree} (hbefore : tree.AddsDirectories between)
              (hthere : between.entry? (enter here part) = some .directory)
              (hrest : between.makeFrom (enter here part) rest = .ok tree') :
              tree.AddsDirectories tree' ∧
                (∀ d ∈ stops here (part :: rest), tree'.entry? d = some .directory) ∧
                ∀ p ∈ part :: rest, isLong p = false := by
            obtain ⟨hadds, hstops, hshort⟩ := ih hrest
            refine ⟨hbefore.trans hadds, ?_, List.forall_mem_cons.2 ⟨hlong, hshort⟩⟩
            exact List.forall_mem_cons.2 ⟨hadds.entry?_of_some hthere, hstops⟩
          simp only [hlong, Bool.false_eq_true, if_false] at h
          split at h
          · next hthere => exact hnext (.refl tree) hthere h
          · next hnone =>
            have hl : enter here part ≠ [] := by
              intro hnil
              rw [hnil] at hnone
              cases hnone
            exact hnext (addsDirectories_insert hnone) (by rw [entry?_insert hl, if_pos rfl]) h
          · cases h

/-- Where all directories are there none are made. -/
theorem makeFrom_eq_self (hstops : ∀ d ∈ stops here parts, tree.entry? d = some .directory)
    (hshort : ∀ part ∈ parts, isLong part = false) : tree.makeFrom here parts = .ok tree := by
  induction parts generalizing here with
  | nil => rfl
  | cons part rest ih =>
      rw [stops, List.forall_mem_cons] at hstops
      rw [List.forall_mem_cons] at hshort
      rw [makeFrom]
      simp only [hshort.1, hstops.1, Bool.false_eq_true, if_false]
      exact ih hstops.2 hshort.2

theorem makeDirectories_eq_ok_iff {p : Path} : tree.makeDirectories p = .ok tree' ↔
    check p = .ok () ∧ tree.makeFrom (tree.start p) p.parts = .ok tree' := by
  rw [makeDirectories]
  cases hcheck : check p with
  | error e => simp [bind, Except.bind]
  | ok u => simp [bind, Except.bind]

theorem addsDirectories_of_makeDirectories {made : FileTree}
    (h : tree.makeDirectories dir = .ok made) : tree.AddsDirectories made :=
  (makeFrom_spec (makeDirectories_eq_ok_iff.1 h).2).1

/-- Once directories are made there is nothing left to make. -/
theorem KeepsDirectories.makeDirectories {made : FileTree} (h : made.KeepsDirectories tree')
    {p : Path} (hmade : tree.makeDirectories p = .ok made) :
    tree'.makeDirectories p = .ok tree' := by
  obtain ⟨hcheck, hmake⟩ := makeDirectories_eq_ok_iff.1 hmade
  obtain ⟨hadds, hstops, hshort⟩ := makeFrom_spec hmake
  have hstart : tree'.start p = tree.start p := (h.start p).trans (hadds.keeps.start p)
  rw [makeDirectories_eq_ok_iff, hstart]
  exact ⟨hcheck, makeFrom_eq_self (fun d hd => h.directory (hstops d hd)) hshort⟩

end MapScript.Command.FileTree
