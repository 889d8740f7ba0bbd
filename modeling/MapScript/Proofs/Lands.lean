import MapScript.Proofs.Expansion
import MapScript.Proofs.Grammar.BlockTokens
import MapScript.Proofs.Layout.Points
import MapScript.Proofs.Symbol.Braces

/-!
# The lands of a call

A call that is expanded leaves one run: a land for each point of its pattern, which are as
many as its first argument counts and lie on the grid, each land with the body of the call
and on a line of its own.  Its braces come in pairs since those of every body do, when the
script is read and after it is resolved.
-/

namespace MapScript

open Grammar (Balanced callBody Spells)

/-! ### The calls of a script -/

mutual

/-- The calls in a block, at any depth. -/
def Node.patternCalls : Node → List Call
  | .run _ | .marker _ _ | .header _ => []
  | .call c => [c]
  | .repeated _ children _ _ => Node.patternCallsIn children

/-- The calls in blocks, in the order of the script. -/
def Node.patternCallsIn : List Node → List Call
  | [] => []
  | n :: ns => n.patternCalls ++ Node.patternCallsIn ns

end

/-- The tokens in the body of a call, none without one. -/
def Call.content (c : Call) : List Token := c.body.getD []

/-- The braces in the body of a call come in pairs, with nothing to be interpreted. -/
def Call.Closed (c : Call) : Prop := Balanced callBody c.content

open Node (patternCalls patternCallsIn)

/-- The body of a call that is read goes up to the brace that closes it. -/
theorem Grammar.CallTakes.closed {c : Call} {ts rest : List Token}
    (h : Grammar.CallTakes c ts rest) : c.Closed := by
  obtain ⟨-, -, -, -, hcontent, -, -⟩ := h
  rw [Call.Closed, Call.content]
  generalize c.body = body at hcontent
  cases hcontent with
  | present _ _ hwithin _ => exact hwithin
  | absent _ => exact .nil

theorem Grammar.Spells.closed {ns : List Node} {ts rest : List Token} (h : Spells ns ts rest) :
    ∀ c ∈ patternCallsIn ns, c.Closed := by
  induction h with
  | nil => simp [patternCallsIn]
  | run _ _ ih | marker _ _ ih | header _ _ _ _ ih => exact ih
  | call htaken _ ih => exact List.forall_mem_cons.2 ⟨htaken.closed, ih⟩
  | repeated _ _ _ _ _ _ ihw ih => exact List.forall_mem_append.2 ⟨ihw, ih⟩

namespace Resolve

mutual

theorem resolveNode_closed (n : Node) (table : SymbolTable) :
    Ends (resolveNode n) table
      (fun out _ => (∀ c ∈ n.patternCalls, c.Closed) → ∀ c ∈ out.patternCalls, c.Closed)
      (fun _ _ => True) := by
  match n with
  | .run r =>
      rw [resolveNode]
      simp only [Ends.bind_iff, Ends.pure_iff]
      exact Ends.of_run (fun _ _ _ h => h) fun _ _ _ => trivial
  | .marker m span =>
      rw [resolveNode]
      exact fun h => h
  | .header h =>
      rw [resolveNode]
      exact fun h => h
  | .repeated args children openSpan span =>
      rw [resolveNode]
      simp only [Ends.bind_iff, Ends.pure_iff]
      refine Ends.of_run (fun _ table₁ _ => ?_) fun _ _ _ => trivial
      exact resolveNodes_closed children table₁
  | .call c =>
      rw [resolveNode.eq_def]
      simp only [Ends.bind_iff]
      refine Ends.of_run (fun _ table₁ _ => ?_) fun _ _ _ => trivial
      cases hbody : c.body with
      | none => exact fun h => h
      | some body =>
          simp only [Ends.bind_iff, Ends.pure_iff]
          apply (resolveTokens_balanced body table₁).weaken
          intro out table₂ hout hclosed
          simp only [patternCalls, List.forall_mem_singleton, Call.Closed, Call.content, hbody,
            Option.getD_some] at hclosed ⊢
          exact hout hclosed

/-- Resolving names keeps the braces of bodies. -/
theorem resolveNodes_closed (ns : List Node) (table : SymbolTable) :
    Ends (resolveNodes ns) table
      (fun out _ => (∀ c ∈ patternCallsIn ns, c.Closed) → ∀ c ∈ patternCallsIn out, c.Closed)
      (fun _ _ => True) := by
  match ns with
  | [] =>
      rw [resolveNodes]
      exact fun h => h
  | n :: ns =>
      rw [resolveNodes]
      simp only [Ends.bind_iff, Ends.pure_iff]
      apply (resolveNode_closed n table).weaken
      intro out table₁ hout
      apply (resolveNodes_closed ns table₁).weaken
      intro outs table₂ houts h
      rw [patternCallsIn, List.forall_mem_append] at h ⊢
      exact ⟨hout h.1, houts h.2⟩

end

end Resolve

/-- The body of every call in a script that is read and resolved is balanced. -/
theorem Script.closed_of_resolve {source : Text} {script out : Script Node}
    {table last : SymbolTable} (hsource : ofSource source = .ok script)
    (hresolve : script.resolve.run.run table = (.ok out, last)) :
    ∀ c ∈ patternCallsIn out.parts, c.Closed := by
  have hread : ∀ c ∈ patternCallsIn script.parts, c.Closed := by
    unfold ofSource at hsource
    split at hsource
    · cases hsource
    · exact (spells_of_ofStream hsource).1.closed
  have hends : Ends script.resolve table
      (fun out _ => ∀ c ∈ patternCallsIn out.parts, c.Closed) (fun _ _ => True) := by
    unfold resolve
    simp only [Ends.bind_iff, Ends.modify_iff, Ends.pure_iff]
    exact (Resolve.resolveNodes_closed script.parts _).weaken fun _ _ h => h hread
  exact hends.of_run_ok hresolve

namespace Expansion

/-! ### One land -/

theorem significant_dropWhile (ts : List Token) :
    Token.significant (ts.dropWhile Token.isTrivia) = Token.significant ts := by
  conv_rhs => rw [← List.takeWhile_append_dropWhile (p := Token.isTrivia) (l := ts)]
  rw [significant_append, significant_trivia fun t ht => List.mem_takeWhile_imp ht,
    List.nil_append]

theorem significant_reverse (ts : List Token) :
    Token.significant ts.reverse = (Token.significant ts).reverse := List.filter_reverse

theorem significant_stripTrivia (ts : List Token) :
    Token.significant (stripTrivia ts) = Token.significant ts := by
  rw [stripTrivia, significant_reverse, significant_dropWhile, significant_reverse,
    List.reverse_reverse, significant_dropWhile]

/-- The significant tokens of a land at a point with a body. -/
def landCommand (span : Span) (body : List Token) (p : Point) : List Token :=
  [.made .word "create_land".toList span, .made .punct "\x7b".toList span,
    .made .word "land_position".toList span, .made .number (Text.ofInt p.x) span,
    .made .number (Text.ofInt p.y) span] ++
    Token.significant body ++ [.made .punct "\x7d".toList span]

/-- The line break after a land. -/
def landBreak (span : Span) : Token := .made .newline "\n".toList span

/-- A land is one command and a line break. -/
theorem exists_landTokens (span : Span) (body : List Token) (p : Point) :
    ∃ block, landTokens span body p = block ++ [landBreak span] ∧
      Token.significant block = landCommand span body p := by
  obtain ⟨inner, hinner, hsignificant⟩ : ∃ inner,
      (if (stripTrivia body).isEmpty then [] else
        Token.made .blank " ".toList span :: stripTrivia body) = inner ∧
        Token.significant inner = Token.significant body := by
    refine ⟨_, rfl, ?_⟩
    rw [← significant_stripTrivia body]
    split
    · next hempty => rw [List.isEmpty_iff.1 hempty]
    · rfl
  unfold landTokens
  dsimp only
  rw [hinner]
  refine ⟨_, (List.append_assoc _ [_, _] [landBreak span]).symm, ?_⟩
  rw [significant_append, significant_append, hsignificant]
  simp [landCommand, Token.significant, Token.made, Token.isTrivia, TokenKind.isTrivia]

/-- The tokens are the lands of a call at points, each on a line of its own. -/
structure Lays (c : Call) (points : List Point) (tokens : List Token) : Prop where
  commands : Token.significant tokens = points.flatMap (landCommand c.span c.content)
  lines : ∃ blocks : List (List Token),
    List.Forall₂ (fun p block => Token.significant block = landCommand c.span c.content p)
      points blocks ∧ tokens = blocks.flatMap fun block => block ++ [landBreak c.span]

theorem Lays.nil (c : Call) : Lays c [] [] := ⟨rfl, [], .nil, rfl⟩

/-- One land more, in front. -/
theorem Lays.cons {c : Call} {points : List Point} {tokens : List Token}
    (h : Lays c points tokens) (p : Point) :
    Lays c (p :: points) (landTokens c.span c.content p ++ tokens) := by
  obtain ⟨hcommands, blocks, hblocks, rfl⟩ := h
  obtain ⟨block, hland, hblock⟩ := exists_landTokens c.span c.content p
  refine ⟨?_, block :: blocks, .cons hblock hblocks, by rw [hland]; rfl⟩
  rw [List.flatMap_cons, ← hcommands, significant_append, hland, significant_append, hblock]
  simp [Token.significant, landBreak, Token.made, Token.isTrivia, TokenKind.isTrivia]

theorem lays_lands (c : Call) (points : List Point) :
    Lays c points (points.flatMap (landTokens c.span c.content)) := by
  induction points with
  | nil => exact .nil c
  | cons p points ih => exact ih.cons p

/-! ### Braces -/

/-- Gaps, words and numbers before what is balanced. -/
theorem balanced_made {kind : TokenKind} (hpunct : kind ≠ .punct) (hdirective : kind ≠ .directive)
    (raw : Text) (span : Span) {ts : List Token} (h : Balanced callBody ts) :
    Balanced callBody (.made kind raw span :: ts) := by
  refine .token ?_ ?_ ?_ h
  · simp [Token.isPunct, Token.made, hpunct]
  · simp [Token.isPunct, Token.made, hpunct]
  · simp [callBody, Token.isOwnDirective, Token.made, hdirective]

theorem balanced_stripTrivia {body : List Token} (h : Balanced callBody body) :
    Balanced callBody (stripTrivia body) := by
  have hbrackets (ts : List Token) : ts.filter callBody.isBracket =
      (Token.significant ts).filter callBody.isBracket := by
    rw [Token.significant, List.filter_filter]
    refine List.filter_congr fun t _ => ?_
    cases ht : t.isTrivia with
    | false => simp
    | true => simp [Grammar.Part.isBracket, Token.isPunct_of_isTrivia ht]
  apply Balanced.of_filter
  · rw [hbrackets, significant_stripTrivia, ← hbrackets]
    exact h.filter
  · exact fun t ht => h.allowed t (mem_stripTrivia ht)

theorem balanced_landTokens {body : List Token} (h : Balanced callBody body) (span : Span)
    (p : Point) : Balanced callBody (landTokens span body p) := by
  have hspace {ts : List Token} : Balanced callBody ts →
      Balanced callBody (.made .blank " ".toList span :: ts) :=
    balanced_made (by decide) (by decide) _ span
  have hword (raw : Text) {ts : List Token} : Balanced callBody ts →
      Balanced callBody (.made .word raw span :: ts) :=
    balanced_made (by decide) (by decide) raw span
  have hnumber (raw : Text) {ts : List Token} : Balanced callBody ts →
      Balanced callBody (.made .number raw span :: ts) :=
    balanced_made (by decide) (by decide) raw span
  have hinner : Balanced callBody (if (stripTrivia body).isEmpty then [] else
      Token.made .blank " ".toList span :: stripTrivia body) := by
    split
    · exact .nil
    · exact hspace (balanced_stripTrivia h)
  have hwithin := (hspace (hword "land_position".toList (hspace (hnumber (Text.ofInt p.x)
    (hspace (hnumber (Text.ofInt p.y) hinner)))))).append (hspace .nil)
  have hbreak : Balanced callBody [landBreak span] := balanced_made (by decide) (by decide) _ _ .nil
  have hblock := Balanced.pair (p := callBody) (o := .made .punct "\x7b".toList span)
    (c := .made .punct "\x7d".toList span) rfl rfl hwithin hbreak
  have hland := hword "create_land".toList (hspace hblock)
  unfold landTokens
  simpa [landBreak] using hland

theorem balanced_lands {c : Call} (h : c.Closed) (points : List Point) :
    Balanced callBody (points.flatMap (landTokens c.span c.content)) := by
  induction points with
  | nil => exact .nil
  | cons p points ih => exact (balanced_landTokens h c.span p).append ih

/-! ### The arguments of a call -/

/-- A call binds its arguments: the first is a positive integer, and the pattern has points
for it and the values of the others. -/
inductive Binds (c : Call) (s : Session) : Int → List Point → Session → Prop
  | mk {pattern : Pattern} {arg : List Token} {args : List (List Token)} {value : Number}
      {count : Int} {s₁ s₂ : Session} {values : List Number} {points : List Point}
      (name : Pattern.ofName? c.name = some pattern) (arguments : c.args = arg :: args)
      (first : (Pass.fold arg).run.run s = (.ok (some value), s₁))
      (integer : value.asInt? = some count) (positive : 1 ≤ count)
      (others : (argumentValues c pattern.parameters.tail args).run.run s₁ = (.ok values, s₂))
      (layout : pattern.points count values = .ok points) : Binds c s count points s₂

theorem Binds.fills {c : Call} {s s' : Session} {count : Int} {points : List Point}
    (h : Binds c s count points s') : 1 ≤ count ∧ Layout.Fills count points := by
  obtain ⟨-, -, -, -, hpositive, -, hlayout⟩ := h
  exact ⟨hpositive, Pattern.points_fill hlayout⟩

theorem argumentValue_folds (c : Call) (parameter : Text) (arg : List Token) (s : Session) :
    Ends (argumentValue c parameter arg) s
      (fun value s' => (Pass.fold arg).run.run s = (.ok (some value), s')) (fun _ _ => True) := by
  unfold argumentValue
  rw [Ends.bind_iff]
  cases arg.isEmpty with
  | true => exact trivial
  | false =>
      refine Ends.of_run (fun value s' hrun => ?_) fun _ _ _ => trivial
      cases value with
      | none => exact trivial
      | some value => exact hrun

theorem asInt?_of_positive? {value : Number} {count : Int} (h : positive? value = some count) :
    value.asInt? = some count := by
  unfold positive? at h
  split at h
  · next n hn =>
    split at h
    · cases h
      exact hn
    · cases h
  · cases h

theorem countValue_folds (c : Call) (parameter : Text) (arg : List Token) (s : Session) :
    Ends (countValue c parameter arg) s
      (fun count s' => ∃ value, (Pass.fold arg).run.run s = (.ok (some value), s') ∧
        positive? value = some count) (fun _ _ => True) := by
  unfold countValue
  rw [Ends.bind_iff]
  apply (argumentValue_folds c parameter arg s).weaken
  intro value s₁ hvalue
  split
  · next count hcount => exact ⟨value, hvalue, hcount⟩
  · rw [Ends.bind_iff]
    exact Ends.of_run (fun _ _ _ => trivial) fun _ _ _ => trivial

/-- What a call leaves where it is not refused. -/
theorem expandCall_binds (c : Call) (s : Session) :
    Ends (expandCall c) s
      (fun leaves s' => ∃ count points, Binds c s count points s' ∧
        leaves = [.run ⟨points.flatMap (landTokens c.span c.content), c.span⟩])
      (fun _ _ => True) := by
  unfold expandCall
  split
  · exact trivial
  next pattern hname =>
    dsimp only
    split
    · exact trivial
    split
    · next p ps arg args hparameters hargs =>
      simp only [Ends.bind_iff]
      apply (countValue_folds c p.name arg s).weaken
      rintro count s₁ ⟨value, hfold, hpositive⟩
      refine Ends.of_run (fun values s₂ hvalues => ?_) fun _ _ _ => trivial
      rw [Pass.ofFault_ends_iff]
      refine ⟨fun points hpoints => ?_, fun _ _ => trivial⟩
      have hbinds : Binds c s count points s₂ :=
        .mk hname hargs hfold (asInt?_of_positive? hpositive) (positive?_pos hpositive)
          (by rw [hparameters]; exact hvalues) hpoints
      refine ⟨count, points, hbinds, ?_⟩
      -- there is at least one land
      obtain ⟨hcount, hlength, -⟩ := hbinds.fills
      obtain ⟨point, more, rfl⟩ := List.exists_cons_of_length_pos (l := points) (by omega)
      rw [if_neg (by simp [landTokens])]
      rfl
    · exact trivial

end Expansion

open Expansion

/-- Every call in a script that is read and resolved leaves one run, if it is not refused: as
many lands as its first argument counts, at the points of its pattern, all on the grid, each
with the body of the call and on a line of its own, with braces that come in pairs. -/
theorem Script.calls_lay {source : Text} {script out : Script Node} {table last : SymbolTable}
    (hsource : ofSource source = .ok script)
    (hresolve : script.resolve.run.run table = (.ok out, last)) {c : Call}
    (hc : c ∈ patternCallsIn out.parts) {s s' : Session} {leaves : List Leaf}
    (hrun : (expandCall c).run.run s = (.ok leaves, s')) :
    ∃ count points tokens, leaves = [.run ⟨tokens, c.span⟩] ∧ Binds c s count points s' ∧
      1 ≤ count ∧ Layout.Fills count points ∧ Lays c points tokens ∧
      Balanced callBody tokens := by
  obtain ⟨count, points, hbinds, rfl⟩ := (expandCall_binds c s).of_run_ok hrun
  exact ⟨count, points, _, rfl, hbinds, hbinds.fills.1, hbinds.fills.2, lays_lands c points,
    balanced_lands (closed_of_resolve hsource hresolve c hc) points⟩

/-- A call in a repeated block, with a constant for its count and a body that has braces of
its own and an operand in them. -/
def bank : Text :=
  ("#const N (1 + 1)\n#REPEAT(3)\n#LINE_LANDS(N, 5, 5, 9, 200) \x7b\n  base_terrain GRASS\n" ++
    "  block \x7b #const M (N * 3) \x7d\n\x7d\n#END_REPEAT").toList

theorem Script.calls_lay_bank :
    ∃ script out last c s' leaves, ofSource bank = .ok script ∧
      script.resolve.run.run {} = (.ok out, last) ∧ c ∈ patternCallsIn out.parts ∧
      (expandCall c).run.run { table := last } = (.ok leaves, s') ∧
      ∃ count points tokens, leaves = [.run ⟨tokens, c.span⟩] ∧
        Binds c { table := last } count points s' ∧ 1 ≤ count ∧ Layout.Fills count points ∧
        Lays c points tokens ∧ Balanced callBody tokens := by
  have hruns : (ofSource bank).toOption.any (fun script =>
      (script.resolve.run.run {}).1.toOption.any fun out =>
        (patternCallsIn out.parts).head?.any fun c =>
          ((expandCall c).run.run { table := (script.resolve.run.run {}).2 }).1.isOk) = true := by
    decide +kernel
  obtain ⟨script, hsource, hruns⟩ := toOption_any_iff.1 hruns
  obtain ⟨out, hout, hruns⟩ := toOption_any_iff.1 hruns
  rw [Option.any_eq_true] at hruns
  obtain ⟨c, hc, hruns⟩ := hruns
  obtain ⟨leaves, hleaves⟩ := isOk_iff.1 hruns
  have hresolve : script.resolve.run.run {} = (.ok out, _) := Prod.ext hout rfl
  have hcall : c ∈ patternCallsIn out.parts := List.mem_of_mem_head? hc
  have hrun : (expandCall c).run.run { table := (script.resolve.run.run {}).2 } =
      (.ok leaves, _) := Prod.ext hleaves rfl
  exact ⟨script, out, _, c, _, leaves, hsource, hresolve, hcall, hrun,
    calls_lay hsource hresolve hcall hrun⟩

end MapScript
