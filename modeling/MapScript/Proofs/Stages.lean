import MapScript.Preprocess
import MapScript.Proofs.Block
import MapScript.Proofs.RandomCall

/-!
# Each refusal belongs to its stage

A script is refused for its lexemes, for its blocks, for its names or for the
arguments of its calls, each at the stage that looks at them.  The passes after
expansion refuse nothing.  What a refused script has to show is the warnings up
to there and the one error.
-/

namespace MapScript

namespace Preprocess

open Evaluation (searchErrors)
open Resolve (AllTokens groups argumentsIn HoldsOfNumerals)

/-! ### Outcomes of the stages -/

/-- A script with blocks is refused by its names only, and is settled otherwise. -/
theorem resolved_ends (options : Options) {source : Text} {script : Script Node}
    (h : Script.ofSource source = .ok script) :
    Ends (resolved source) (Session.start options)
      (fun out s => s.Settled ∧
        (∀ arg ∈ argumentsIn out.parts, Evaluation.check s.table arg = .ok ()) ∧
        ∀ P, HoldsOfNumerals P → AllTokens P (groups script.parts) →
          AllTokens P (groups out.parts))
      (fun e _ => e.Only searchErrors) := by
  unfold resolved blocks
  simp only [h, Ends.bind_iff, Pass.ofReport_ends_iff, Pass.onTable_ends_iff]
  constructor
  · rintro out ⟨⟩
    exact script.resolve_ends rfl
  · rintro r ⟨⟩

/-- The random calls of an expanded script in front of it, if that is wanted. -/
theorem hoist_ends (options : Options) (script : Script Piece) {s : Session} (hs : s.Settled) :
    Ends (if options.hoistRandom then script.hoist options.stem else pure script) s
      (fun out _ =>
        (out = script ∨ ∃ n call span later whole parts,
          options.stem ++ Text.ofNat n ∉ s.table.names ∧ out.parts =
            .run ⟨Hoist.declaration (options.stem ++ Text.ofNat n) call span ++ later, whole⟩ ::
              parts) ∧
        ∀ P, HoldsOfMade P → Hoist.HoldsOfNames options.stem P →
          AllTokens P (script.parts.map Piece.tokens) → AllTokens P (out.parts.map Piece.tokens))
      (fun e _ => e.Only []) := by
  split
  · exact script.hoist_ends options.stem hs
  · exact ⟨Or.inl rfl, fun P _ _ h => h⟩

/-! ### Passes that begin with others -/

variable {options : Options} {source : Text} {s : Session}

theorem run_expanded {script : Script Node}
    (h : runPass options (resolved source) = (.ok script, s)) :
    runPass options (expanded source) = script.expand.run.run s := by
  unfold runPass at h ⊢
  unfold expanded
  rw [Ends.run_bind, h]

theorem run_hoisted {script : Script Piece}
    (h : runPass options (expanded source) = (.ok script, s)) :
    runPass options (hoisted options source) =
      (if options.hoistRandom then script.hoist options.stem else pure script).run.run s := by
  unfold runPass at h ⊢
  unfold hoisted
  rw [Ends.run_bind, h]

theorem run_text_of_hoisted {out : Script Piece}
    (h : runPass options (hoisted options source) = (.ok out, s)) :
    runPass options (text options source) =
      (.ok (engineText options.keepLines out.truncate.parts), s) := by
  unfold runPass at h ⊢
  unfold text truncated
  rw [Ends.run_bind, Ends.run_bind, h]
  rfl

/-- A failure of an early pass is that of all. -/
theorem run_text_of_error {e : Failure}
    (h : runPass options (resolved source) = (.error e, s) ∨
      runPass options (expanded source) = (.error e, s) ∨
      runPass options (hoisted options source) = (.error e, s)) :
    runPass options (text options source) = (.error e, s) := by
  unfold runPass at h ⊢
  have hexpanded (h : (resolved source).run.run (Session.start options) = (.error e, s)) :
      (expanded source).run.run (Session.start options) = (.error e, s) := by
    unfold expanded
    rw [Ends.run_bind, h]
  have hhoisted (h : (expanded source).run.run (Session.start options) = (.error e, s)) :
      (hoisted options source).run.run (Session.start options) = (.error e, s) := by
    unfold hoisted
    rw [Ends.run_bind, h]
  have htext (h : (hoisted options source).run.run (Session.start options) = (.error e, s)) :
      (text options source).run.run (Session.start options) = (.error e, s) := by
    unfold text truncated
    rw [Ends.run_bind, Ends.run_bind, h]
  rcases h with h | h | h
  · exact htext (hhoisted (hexpanded h))
  · exact htext (hhoisted h)
  · exact htext h

end Preprocess

/-! ### Results -/

/-- The result of a refused script: no text, the warnings up to there, then one
error, and the status that goes with it. -/
structure Result.Refused (result : Result) (filename : Text) (warnings : List Warning)
    (r : Report) (status : Nat) : Prop where
  text : result.text = none
  diagnostics : result.diagnostics =
    warnings.map (Diagnostic.ofWarning filename) ++ [Diagnostic.ofReport filename r]
  errors : result.errors = [Diagnostic.ofReport filename r]
  exitCode : result.exitCode = status

theorem Diagnostic.isSyntactic_ofReport (filename : Text) (r : Report) :
    (Diagnostic.ofReport filename r).isSyntactic = r.cause.kind.isSyntactic := by
  show (r.cause.kind.code == ErrorKind.lexical.code ||
    r.cause.kind.code == ErrorKind.structural.code) = _
  cases r.cause.kind <;> decide

/-- Warnings are no errors. -/
theorem Diagnostic.filter_isError_ofWarning (filename : Text) (warnings : List Warning) :
    (warnings.map (Diagnostic.ofWarning filename)).filter Diagnostic.isError = [] := by
  rw [List.filter_eq_nil_iff]
  intro d hd
  obtain ⟨w, -, rfl⟩ := List.mem_map.1 hd
  simp [Diagnostic.isError, Diagnostic.ofWarning]

theorem Result.refused_of_report (filename : Text) (warnings : List Warning) (r : Report) :
    Result.Refused ⟨none, warnings.map (Diagnostic.ofWarning filename) ++
      [Diagnostic.ofReport filename r]⟩ filename warnings r
        (if r.cause.kind.isSyntactic then 1 else 2) := by
  have herrors : (warnings.map (Diagnostic.ofWarning filename) ++
      [Diagnostic.ofReport filename r]).filter Diagnostic.isError =
        [Diagnostic.ofReport filename r] := by
    rw [List.filter_append, Diagnostic.filter_isError_ofWarning, List.nil_append]
    rfl
  refine ⟨rfl, rfl, herrors, ?_⟩
  unfold Result.exitCode Result.errors
  simp only [herrors]
  simp [Result.ok, Diagnostic.isSyntactic_ofReport]

open Preprocess (runPass resolved expanded hoisted truncated)

/-- How a run over a script ends: at the stage that refuses it, or with its text. -/
inductive Ending (options : Options) (filename source : Text) (result : Result) : Prop
  | lexemes (r : Report) (stage : TokenStream.ofSource source = .error r)
      (kind : r.cause.kind = .lexical) (refused : result.Refused filename [] r 1)
  | blocks (stream : TokenStream) (r : Report) (before : TokenStream.ofSource source = .ok stream)
      (stage : Script.ofStream stream = .error r) (kind : r.cause.kind = .structural)
      (refused : result.Refused filename [] r 1)
  | names (script : Script Node) (r : Report) (s : Session)
      (before : Script.ofSource source = .ok script)
      (stage : runPass options (resolved source) = (.error (.report r), s))
      (kind : r.cause.kind = .unresolved ∨ r.cause.kind = .cyclic)
      (refused : result.Refused filename s.warnings r 2)
  | arguments (script : Script Node) (r : Report) (s₁ s : Session)
      (before : runPass options (resolved source) = (.ok script, s₁))
      (stage : runPass options (expanded source) = (.error (.report r), s))
      (kind : r.cause.kind = .argument) (refused : result.Refused filename s.warnings r 2)
  | text (script out : Script Piece) (s₁ s : Session)
      (before : runPass options (expanded source) = (.ok script, s₁))
      (hoisting : runPass options (hoisted options source) = (.ok out, s))
      (cutting : runPass options (truncated options source) = (.ok out.truncate, s))
      (result_eq : result = ⟨some (engineText options.keepLines out.truncate.parts),
        s.warnings.map (Diagnostic.ofWarning filename)⟩)
      (exitCode : result.exitCode = 0)

/-- After the names of a script are resolved, the values of its arguments and of its
constants can be asked for at any time: no name is missing and none needs itself. -/
def FoldsFreely (options : Options) (source : Text) : Prop :=
  ∀ script s, runPass options (resolved source) = (.ok script, s) →
    ∀ s' : Session, s.table.Extends s'.table → ∀ operand,
      (operand ∈ Resolve.argumentsIn script.parts ∨
        ∃ t, Hoist.isConstant s'.table t = true ∧ operand = [t]) →
      ∀ e s'', (Pass.fold operand).run.run s' = (.error e, s'') → ∃ f, e = .fault f

theorem Failure.Only.fault_of_nil {e : Failure} (h : e.Only []) : ∃ f, e = .fault f := by
  cases e with
  | report r => simp [Failure.Only] at h
  | fault f => exact ⟨f, rfl⟩

theorem foldsFreely (options : Options) (source : Text) : FoldsFreely options source := by
  intro script s hrun s' hs' operand hoperand e s'' hfold
  cases hblocks : Script.ofSource source with
  | error r =>
      simp [runPass, resolved, Preprocess.blocks, hblocks, Pass.ofReport] at hrun
      cases hrun
  | ok script₀ =>
      obtain ⟨hsettled, hargs, -⟩ := (Preprocess.resolved_ends options hblocks).of_run_ok hrun
      have hcheck : Evaluation.check s'.table operand = .ok () := by
        rcases hoperand with harg | ⟨t, ht, rfl⟩
        · exact hs'.check (hargs operand harg)
        · exact Hoist.check_constant ht
      exact ((Pass.fold_ends (hsettled.extend hs') hcheck []).of_run_error hfold).fault_of_nil

section
variable {options : Options} {filename source : Text}
  (h : ∀ f, process options filename source = .error f → f = .zeroDivision)

include h

/-- A failure that is no fault of arithmetic becomes the result. -/
theorem refused_of_run {s : Session} {e : Failure} (kinds : List ErrorKind) (status : Nat)
    (hrun : runPass options (Preprocess.text options source) = (.error e, s))
    (honly : e.Only kinds)
    (hstatus : ∀ kind ∈ kinds, (if kind.isSyntactic then 1 else 2) = status) :
    ∃ r result, e = .report r ∧ r.cause.kind ∈ kinds ∧
      process options filename source = .ok result ∧
      result.Refused filename s.warnings r status := by
  cases e with
  | report r =>
      refine ⟨r, _, rfl, honly, by simp [process, hrun]; rfl, ?_⟩
      rw [← hstatus _ honly]
      exact Result.refused_of_report filename s.warnings r
  | fault f => exact absurd (h f (by simp [process, hrun])) honly

/-- A script that cannot be read is refused before there is a session to warn in. -/
theorem refused_of_reading {r : Report} (hsource : Script.ofSource source = .error r)
    (hkind : r.cause.kind.isSyntactic = true) :
    ∃ result, process options filename source = .ok result ∧ result.Refused filename [] r 1 := by
  have hread : runPass options (resolved source) = (.error (.report r), Session.start options) := by
    simp only [runPass, resolved, Preprocess.blocks, hsource, Pass.ofReport]
    rfl
  obtain ⟨r', result, hr, -, hprocess, hrefused⟩ := refused_of_run h [r.cause.kind] 1
    (Preprocess.run_text_of_error (Or.inl hread)) (List.mem_singleton.2 rfl) (by simp [hkind])
  cases hr
  exact ⟨result, hprocess, hrefused⟩

/-- A script with blocks is refused for its names or its arguments, or has a text. -/
theorem ending_of_blocks {script : Script Node} (hsource : Script.ofSource source = .ok script) :
    ∃ result, process options filename source = .ok result ∧
      Ending options filename source result := by
  have hresolved := Preprocess.resolved_ends options hsource
  cases hr : runPass options (resolved source) with
  | mk outcome s =>
  cases outcome with
  | error e =>
      obtain ⟨r, result, rfl, hkind, hprocess, hrefused⟩ := refused_of_run h [.unresolved, .cyclic] 2
        (Preprocess.run_text_of_error (Or.inl hr)) (hresolved.of_run_error hr) (by decide)
      exact ⟨result, hprocess, .names script r s hsource hr (by simpa using hkind) hrefused⟩
  | ok named =>
      obtain ⟨hsettled, hargs, -⟩ := hresolved.of_run_ok hr
      have hexpand := named.expand_ends hsettled hargs
      have hrun := Preprocess.run_expanded hr
      cases he : runPass options (expanded source) with
      | mk outcome s₁ =>
      cases outcome with
      | error e =>
          have honly := hexpand.of_run_error (hrun.symm.trans he)
          obtain ⟨r, result, rfl, hkind, hprocess, hrefused⟩ := refused_of_run h [.argument] 2
            (Preprocess.run_text_of_error (Or.inr (Or.inl he))) honly (by decide)
          exact ⟨result, hprocess, .arguments named r s s₁ hr he (by simpa using hkind) hrefused⟩
      | ok pieces =>
          obtain ⟨hextends, -⟩ := hexpand.of_run_ok (hrun.symm.trans he)
          have hhoist := Preprocess.hoist_ends options pieces (hsettled.extend hextends)
          have hrun := Preprocess.run_hoisted he
          cases ho : runPass options (hoisted options source) with
          | mk outcome s₂ =>
          cases outcome with
          | error e =>
              -- hoisting fails by arithmetic only
              have honly := hhoist.of_run_error (hrun.symm.trans ho)
              obtain ⟨r, result, -, hkind, -⟩ := refused_of_run h [] 2
                (Preprocess.run_text_of_error (Or.inr (Or.inr ho))) honly (by simp)
              simp at hkind
          | ok out =>
              refine ⟨_, ?_, .text pieces out s₁ s₂ he ho ?_ rfl rfl⟩
              · simp [process, Preprocess.run_text_of_hoisted ho]
              · unfold runPass at ho ⊢
                unfold truncated
                rw [Ends.run_bind, ho]
                rfl

end

/-- Each kind of error belongs to its stage: lexical and structural errors to the
reading of a script, errors of names to its resolution and errors of arguments to
its expansion.  After that there is a text, unless arithmetic overflows. -/
theorem process_ending (options : Options) (filename source : Text)
    (h : ∀ f, process options filename source = .error f → f = .zeroDivision) :
    (∃ result, process options filename source = .ok result ∧
      Ending options filename source result) ∧ FoldsFreely options source := by
  refine ⟨?_, foldsFreely options source⟩
  cases hlex : TokenStream.ofSource source with
  | error r =>
      have hkind := TokenStream.kind_of_ofSource_error hlex
      have hsource : Script.ofSource source = .error r := by simp [Script.ofSource, hlex]
      obtain ⟨result, hprocess, hrefused⟩ := refused_of_reading h hsource (by rw [hkind]; rfl)
      exact ⟨result, hprocess, .lexemes r hlex hkind hrefused⟩
  | ok stream =>
      have hstream := Script.ofStream_delivers (TokenStream.tidy_of_ofSource hlex)
      cases hblocks : Script.ofStream stream with
      | error r =>
          have hkind := hstream.2 r hblocks
          have hsource : Script.ofSource source = .error r := by
            simp [Script.ofSource, hlex, hblocks]
          obtain ⟨result, hprocess, hrefused⟩ := refused_of_reading h hsource (by rw [hkind]; rfl)
          exact ⟨result, hprocess, .blocks stream r hlex hblocks hkind hrefused⟩
      | ok script =>
          have hsource : Script.ofSource source = .ok script := by
            simp [Script.ofSource, hlex, hblocks]
          exact ending_of_blocks h hsource

/-- A repetition without its count, which is refused when it is expanded. -/
theorem process_ending_repeat :
    (∀ f, process {} "a.rms".toList "#REPEAT()\nx\n#END_REPEAT".toList = .error f →
      f = .zeroDivision) ∧
    (∃ result, process {} "a.rms".toList "#REPEAT()\nx\n#END_REPEAT".toList = .ok result ∧
      Ending {} "a.rms".toList "#REPEAT()\nx\n#END_REPEAT".toList result) ∧
    FoldsFreely {} "#REPEAT()\nx\n#END_REPEAT".toList := by
  have hok : (process {} "a.rms".toList "#REPEAT()\nx\n#END_REPEAT".toList).isOk = true := by
    decide +kernel
  have hfault : ∀ f, process {} "a.rms".toList "#REPEAT()\nx\n#END_REPEAT".toList = .error f →
      f = .zeroDivision := by
    intro f hf
    rw [hf] at hok
    cases hok
  exact ⟨hfault, process_ending {} _ _ hfault⟩

end MapScript
