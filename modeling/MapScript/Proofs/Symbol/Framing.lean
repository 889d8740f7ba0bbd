import MapScript.Proofs.Respacing.Row
import MapScript.Proofs.Symbol.Enclosure

/-!
# Rows between separators

What separates takes no part in the resolution of names.  A row that is set between
other separators, and repeated as a block, is resolved to the same lexemes between
them: its declarations enter the same names, its edits are as far behind as the row
is, and none of them reaches what separates.
-/

namespace MapScript

namespace Resolve

/-- Arguments without names need no check. -/
theorem run_checkArguments {args : List (List Token)}
    (h : ∀ arg ∈ args, Operand.references arg = []) (table : SymbolTable) :
    (checkArguments args).run.run table = (.ok (), table) := by
  have hends : Ends (checkArguments args) table (fun _ table' => table' = table)
      (fun _ _ => False) := by
    unfold checkArguments
    simp only [Ends.bind_iff, Ends.get_iff]
    induction args with
    | nil => rfl
    | cons arg args ih =>
        obtain ⟨harg, hargs⟩ := List.forall_mem_cons.1 h
        have hcheck : Evaluation.check table arg = .ok () := by
          rw [Evaluation.check, harg]
          rfl
        rw [List.forM_eq_forM, List.forM_cons, Ends.bind_iff, Ends.lift_iff, hcheck]
        exact ⟨fun _ _ => ih hargs, fun e he => by cases he⟩
  obtain ⟨_, _, hrun, rfl⟩ := hends.exists_run
  exact hrun

/-- A row with its names resolved, and the same lexemes behind `front` and before `tail'`
with theirs: both keep what separates around them. -/
structure Framed (core tail front tail' out out' : List Token) : Prop where
  contracts : Contracts (core ++ tail) out
  lexemes : ∃ mid mid', out = mid ++ tail ∧ out' = front ++ (mid' ++ tail') ∧
    mid.map Token.toLexeme = mid'.map Token.toLexeme

section
variable {core core' tail tail' front : List Token}
  (hcore : core.map Token.toLexeme = core'.map Token.toLexeme)
  (hfront : ∀ t ∈ front, t.isTrivia = true) (htail : ∀ t ∈ tail, t.isTrivia = true)
  (htail' : ∀ t ∈ tail', t.isTrivia = true)

include hcore htail

/-- Edits that are as far apart as the rows leave what separates. -/
theorem framed_of_alike {es es' : List Edit}
    (h : List.Forall₂ (Edit.Alike .anywhere (Edit.Shifted front.length)) es es')
    (hes : ∀ e ∈ es, e.Encloses (core ++ tail)) :
    Framed core tail front tail' (Edit.applyAll es (core ++ tail))
      (Edit.applyAll es' (front ++ (core' ++ tail'))) := by
  have hlength : core.length = core'.length := by simpa using congrArg List.length hcore
  have hlast : ∀ e ∈ es, e.last < core.length := fun e he => (hes e he).last_lt htail
  have hout : Edit.applyAll es (core ++ tail) = Edit.applyFrom es 0 core ++ tail := by
    show Edit.applyFrom es 0 (core ++ tail) = _
    have huncovered : ∀ e ∈ es, e.last < 0 + core.length ∨
        0 + core.length + tail.length ≤ e.first := by
      intro e he
      have := hlast e he
      omega
    rw [Edit.applyFrom_append, Edit.applyFrom_of_uncovered huncovered]
  have hout' : Edit.applyAll es' (front ++ (core' ++ tail')) =
      front ++ (Edit.applyFrom es' front.length core' ++ tail') := by
    show Edit.applyFrom es' 0 (front ++ (core' ++ tail')) = _
    have hbehind : ∀ e' ∈ es', e'.last < 0 ∨ 0 + front.length ≤ e'.first := by
      intro e' he'
      obtain ⟨e, -, he⟩ := exists_of_forall₂_mem h he'
      have hfirst : e'.first = e.first + front.length := he.first
      omega
    have hbefore : ∀ e' ∈ es', e'.last < front.length + core'.length ∨
        front.length + core'.length + tail'.length ≤ e'.first := by
      intro e' he'
      obtain ⟨e, he, hmove⟩ := exists_of_forall₂_mem h he'
      have := hlast e he
      have hlate : e'.last = e.last + front.length := hmove.last
      omega
    rw [Edit.applyFrom_append, Edit.applyFrom_of_uncovered hbehind, Nat.zero_add,
      Edit.applyFrom_append, Edit.applyFrom_of_uncovered hbefore]
  refine ⟨?_, _, _, hout, hout', ?_⟩
  · exact Edit.contracts_applyFrom hes List.drop_zero fun e _ hfirst => absurd hfirst (by omega)
  · have hmid := lexemes_of_alike (Edit.applyFrom_alike h (alike_anywhere hcore) 0)
    rwa [Nat.zero_add] at hmid

include hfront htail'

theorem resolveTokens_framed :
    Resolving.Parallel .anywhere (Framed core tail front tail') (resolveTokens (core ++ tail))
      (resolveTokens (front ++ (core' ++ tail'))) := by
  have hrow : indexed (core ++ tail) = indexedFrom 0 core := by
    show indexedFrom 0 (core ++ tail) = _
    rw [indexedFrom_append, indexedFrom_trivia htail, List.append_nil]
  have hrow' : indexed (front ++ (core' ++ tail')) = indexedFrom (0 + front.length) core' := by
    show indexedFrom 0 (front ++ (core' ++ tail')) = _
    rw [indexedFrom_append, indexedFrom_trivia hfront, List.nil_append, indexedFrom_append,
      indexedFrom_trivia htail', List.append_nil]
  have halike : List.Forall₂ (Corresponds .anywhere (Edit.Shifted front.length))
      (indexed (core ++ tail)) (indexed (front ++ (core' ++ tail'))) := by
    rw [hrow, hrow']
    exact indexedFrom_alike (alike_anywhere hcore) 0 front.length
  rw [resolveTokens, resolveTokens]
  apply ((edits_alike halike).and_left fun table =>
    Edit.edits_encloses List.suffix_rfl table).bind
  rintro es es' ⟨hes, halike⟩
  exact .pure (framed_of_alike hcore htail halike hes)

/-- A run, and the same lexemes between other separators as a repeated block. -/
theorem resolve_framed {args : List (List Token)}
    (hargs : ∀ arg ∈ args, Operand.references arg = [])
    (span span' place place' openSpan whole : Span) :
    Resolving.Parallel .anywhere
      (fun out out' => ∃ row row', out = ⟨[.run ⟨row, place⟩], span⟩ ∧
        out' = ⟨[.repeated args [.run ⟨row', place'⟩] openSpan whole], span'⟩ ∧
        Framed core tail front tail' row row')
      (Script.resolve ⟨[.run ⟨core ++ tail, place⟩], span⟩)
      (Script.resolve ⟨[.repeated args [.run ⟨front ++ (core' ++ tail'), place'⟩] openSpan whole],
        span'⟩) := by
  have hentries : List.Forall₂ (fun e e' => e.1 = e'.1 ∧ e.2.Alike .anywhere e'.2)
      (declarations (Token.significant (core ++ tail)))
      (declarations (Token.significant (front ++ (core' ++ tail')))) := by
    apply declarations_alike
    apply alike_anywhere
    rw [significant_append, significant_append, significant_append, significant_trivia hfront,
      significant_trivia htail, significant_trivia htail', List.append_nil, List.append_nil, List.nil_append]
    exact Token.significant_congr hcore
  unfold Script.resolve
  apply Together.modified
  · intro table table' h
    simpa [declare, groups, nodeGroups] using h.declareAll hentries
  simp only [resolveNodes, resolveNode, pure_bind, bind_assoc]
  apply Together.step_right (run_checkArguments hargs)
  apply (resolveTokens_framed hcore hfront htail htail').bind
  intro row row' hframed
  exact .pure ⟨row, row', rfl, rfl, hframed⟩

end

end Resolve

end MapScript
