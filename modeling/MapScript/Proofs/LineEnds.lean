import MapScript.Proofs.Respacing.LineEnds

/-!
# Line ends of one or two characters make no difference

A script whose lines end in a carriage return and a line feed comes to the same text as
with line feeds alone, and to the same diagnostics.  Only a message that quotes the prose
of a header may show a carriage return that stood alone before a line end.
-/

namespace MapScript

open Text (unixLines)

/-- Messages of refusals that are alike. -/
theorem Cause.Alike.message_agrees {source : Text} {c c' : Cause}
    (h : Cause.Alike (.lineEnds source) c c') :
    c.message = c'.message ∨ (Text.strayReturn <:+: source ∧ c.kind = .argument ∧
      Text.DropsReturns c.message c'.message) := by
  have hdisplay {p p' : Position} (hp : (Likeness.lineEnds source).place p p') :
      p.display = p'.display := by
    rw [Position.display, Position.display, hp.1, hp.2]
  have hquoted {argument argument' : Text} (front back : Text)
      (h : Text.DropsReturns argument argument') :
      Text.DropsReturns (front ++ argument ++ back) (front ++ argument' ++ back) :=
    .append (.append (.refl front) h) (.refl back)
  cases h with
  | same => exact Or.inl rfl
  | @openBlocks blocks blocks' h =>
      left
      have hblocks : (blocks.map fun b => '#' :: b.1 ++ " opened at ".toList ++ b.2.display) =
          blocks'.map fun b => '#' :: b.1 ++ " opened at ".toList ++ b.2.display := by
        induction h with
        | nil => rfl
        | cons hblock _ ih => rw [List.map_cons, List.map_cons, ih, hblock.1, hdisplay hblock.2]
      exact congrArg (fun t => "unterminated block: ".toList ++ Text.join ", ".toList t) hblocks
  | mismatchedCloser closer block h =>
      left
      exact congrArg (fun t => "unmatched #".toList ++ closer ++
        ": innermost open block is #".toList ++ block ++ " at ".toList ++ t) (hdisplay h)
  | repeatCount h =>
      rcases h with rfl | ⟨hstray, hdrops⟩
      · exact Or.inl rfl
      · exact Or.inr ⟨hstray, rfl, hquoted _ _ hdrops⟩
  | notNumeric call parameter h =>
      rcases h with rfl | ⟨hstray, hdrops⟩
      · exact Or.inl rfl
      · exact Or.inr ⟨hstray, rfl, hquoted _ _ hdrops⟩

namespace Diagnostic

/-- Diagnostics of one severity and kind, at one line and column. -/
structure Matches (d d' : Diagnostic) : Prop where
  severity : d.severity = d'.severity
  kind : d.kind = d'.kind
  line : d.span.start.line = d'.span.start.line
  column : d.span.start.column = d'.span.start.column

/-- Diagnostics that match and have one message.  Only where a carriage return stands alone
in the source before a line end of two characters, the argument that an error quotes may
have lost such carriage returns. -/
structure Agree (source : Text) (d d' : Diagnostic) : Prop extends Matches d d' where
  message : d.message = d'.message ∨ (Text.strayReturn <:+: source ∧
    d.kind = ErrorKind.argument.code ∧ Text.DropsReturns d.message d'.message)

variable {source : Text} (filename : Text)

theorem agree_ofWarning {w w' : Warning} (h : Warning.Alike (.lineEnds source) w w') :
    Agree source (ofWarning filename w) (ofWarning filename w') where
  severity := rfl
  kind := congrArg WarningCause.code h.cause
  line := h.place.1
  column := h.place.2
  message := Or.inl (congrArg WarningCause.message h.cause)

theorem agree_ofReport {r r' : Report} (h : Report.Alike (.lineEnds source) r r') :
    Agree source (ofReport filename r) (ofReport filename r') where
  severity := rfl
  kind := congrArg ErrorKind.code h.cause.kind_eq
  line := h.place.1
  column := h.place.2
  message := by
    rcases h.cause.message_agrees with heq | ⟨hstray, hkind, hdrops⟩
    · exact Or.inl heq
    · exact Or.inr ⟨hstray, congrArg ErrorKind.code hkind, hdrops⟩

end Diagnostic

/-- A script with line feeds alone in the place of line ends of two characters comes to the
same text, or is refused as it was, or has the same fault; and the diagnostics agree one by
one. -/
theorem process_unixLines (options : Options) (filename source : Text) :
    Both Eq (fun r r' => r.text = r'.text ∧
        List.Forall₂ (Diagnostic.Agree source) r.diagnostics r'.diagnostics)
      (process options filename source) (process options filename (unixLines source)) := by
  obtain ⟨hboth, hwarnings⟩ := Preprocess.runPass_alike options (reading_unixLines source)
  unfold process
  generalize Preprocess.runPass options (Preprocess.text options source) = ran at *
  generalize Preprocess.runPass options (Preprocess.text options (unixLines source)) = ran' at *
  obtain ⟨result, session⟩ := ran
  obtain ⟨result', session'⟩ := ran'
  have hdiagnostics : List.Forall₂ (Diagnostic.Agree source)
      (session.warnings.map (Diagnostic.ofWarning filename))
      (session'.warnings.map (Diagnostic.ofWarning filename)) := by
    rw [List.forall₂_map_left_iff, List.forall₂_map_right_iff]
    exact hwarnings.imp fun _ _ => Diagnostic.agree_ofWarning filename
  cases hboth with
  | ok htext => exact .ok ⟨congrArg some htext, hdiagnostics⟩
  | error hfailure =>
      cases hfailure with
      | fault f => exact .error rfl
      | report hreport =>
          exact .ok ⟨rfl, List.rel_append hdiagnostics
            (.cons (Diagnostic.agree_ofReport filename hreport) .nil)⟩

/-- A count that is refused and quoted, with the prose of a header in it. -/
def quotedProse : Text :=
  "#REPEAT(#HEADER_START x\r\r\n#HEADER_END)\n#END_REPEAT".toList

/-- Of two carriage returns before a line feed one is quoted with its line, until the other
is gone. -/
theorem process_unixLines_quoted :
    ¬Both Eq (fun r r' => r.text = r'.text ∧
        List.Forall₂ (fun d d' => d.Matches d' ∧ d.message = d'.message) r.diagnostics
          r'.diagnostics)
      (process {} "input.rms".toList quotedProse)
      (process {} "input.rms".toList (unixLines quotedProse)) := by
  intro h
  have hdiffer : (process {} "input.rms".toList quotedProse).map
        (fun r => r.diagnostics.map Diagnostic.message) ≠
      (process {} "input.rms".toList (unixLines quotedProse)).map
        fun r => r.diagnostics.map Diagnostic.message := by
    decide +kernel
  apply hdiffer
  generalize process {} _ _ = x at h ⊢
  generalize process {} _ _ = y at h ⊢
  cases h with
  | error h => rw [h]
  | ok h =>
      have hmessages := h.2.imp fun _ _ hsame => hsame.2
      have hmap := (List.forall₂_map_left_iff (f := Diagnostic.message)).2
        ((List.forall₂_map_right_iff (f := Diagnostic.message)).2 hmessages)
      rw [List.forall₂_eq_eq_eq] at hmap
      exact congrArg Except.ok hmap

end MapScript
