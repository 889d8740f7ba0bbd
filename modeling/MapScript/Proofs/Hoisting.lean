import MapScript.Proofs.Written

/-!
# Hoisting is undone by substitution

Hoisting takes random calls out of a script and leaves new names in their places.
A row of tokens before and after is one row of segments, each a token that stays or
a call that is taken out, so putting the calls back where their names stand gives
the script again.  The names are new, so nothing else is replaced.
-/

namespace MapScript

open Evaluation (HasValue Sound)

namespace Hoist

/-! ### Calls that are taken out -/

/-- What a token of a call is declared as: a constant of the script as its value, any
other token as itself. -/
def Folded (table : SymbolTable) (t t' : Token) : Prop :=
  if isConstant table t then
    ∃ v raw, table.folding t.raw = .ok (some v) ∧ v.format = .ok raw ∧
      t' = .made .number raw t.span
  else t' = t

/-- A call that is taken out: its new name, the call as it stood, and what its arguments
are declared as. -/
structure Hoisted where
  name : Text
  call : RandomCall
  args : List Token

namespace Hoisted

/-- The call as it is declared, without trivia. -/
def declared (h : Hoisted) : List Token := Token.significant (h.call.name :: h.args)

/-- The line that declares the name. -/
def line (h : Hoisted) : List Token := declaration h.name (h.call.name :: h.args) h.call.name.span

/-- The call was read as one, and what is declared differs from it in the values of
constants only. -/
structure Declares (table : SymbolTable) (h : Hoisted) : Prop where
  read : RandomCall.read? (h.call.tokens ++ h.call.group.rest) = some h.call
  args : List.Forall₂ (Folded table) h.call.arguments h.args

end Hoisted

/-- A piece of a row: a token that stays, or a call that is taken out. -/
inductive Segment where
  | token (t : Token)
  | call (h : Hoisted)

namespace Segment

/-- The tokens before hoisting. -/
def source : Segment → List Token
  | token t => [t]
  | call h => h.call.tokens

/-- The tokens after hoisting. -/
def written : Segment → List Token
  | token t => [t]
  | call h => [.made .word h.name h.call.span]

/-- The tokens with a text for each call. -/
def filled (text : Hoisted → List Token) : Segment → List Token
  | token t => [t]
  | call h => text h

/-- The call that is taken out, if one is. -/
def hoisted? : Segment → Option Hoisted
  | token _ => none
  | call h => some h

end Segment

/-- The state after calls were taken out one after the other. -/
structure Captures (table : SymbolTable) (state : State) (calls : List Hoisted) (state' : State) :
    Prop where
  declarations : state'.declarations = (calls.map Hoisted.line).reverse ++ state.declarations
  used : state'.used = (calls.map Hoisted.name).reverse ++ state.used
  distinct : (calls.map Hoisted.name).Nodup
  fresh : ∀ h ∈ calls, h.name ∉ state.used
  declares : ∀ h ∈ calls, h.Declares table

theorem Captures.refl (table : SymbolTable) (state : State) : Captures table state [] state :=
  ⟨rfl, rfl, List.nodup_nil, by simp, by simp⟩

theorem Captures.trans {table : SymbolTable} {a b c : State} {calls calls' : List Hoisted}
    (h : Captures table a calls b) (h' : Captures table b calls' c) :
    Captures table a (calls ++ calls') c where
  declarations := by
    rw [h'.declarations, h.declarations, List.map_append, List.reverse_append, List.append_assoc]
  used := by rw [h'.used, h.used, List.map_append, List.reverse_append, List.append_assoc]
  distinct := by
    rw [List.map_append]
    refine h.distinct.append h'.distinct ?_
    -- a later name is none of those used by then
    intro name hname hname'
    obtain ⟨x, hx, rfl⟩ := List.mem_map.1 hname'
    apply h'.fresh x hx
    rw [h.used]
    exact List.mem_append_left _ (List.mem_reverse.2 hname)
  fresh := by
    rw [List.forall_mem_append]
    refine ⟨h.fresh, fun x hx hused => h'.fresh x hx ?_⟩
    rw [h.used]
    exact List.mem_append_right _ hused
  declares := List.forall_mem_append.2 ⟨h.declares, h'.declares⟩

/-- The row is cut into segments; those after hoisting are written, and the state has
their calls. -/
def Cuts (table : SymbolTable) (ts : List Token) (state : State) (out : List Token)
    (state' : State) (segments : List Segment) : Prop :=
  ts = segments.flatMap Segment.source ∧ out = segments.flatMap Segment.written ∧
    Captures table state (segments.filterMap Segment.hoisted?) state'

theorem Cuts.append {table : SymbolTable} {ts us out out' : List Token} {a b c : State}
    {segments segments' : List Segment} (h : Cuts table ts a out b segments)
    (h' : Cuts table us b out' c segments') :
    Cuts table (ts ++ us) a (out ++ out') c (segments ++ segments') := by
  obtain ⟨rfl, rfl, hcaptures⟩ := h
  obtain ⟨rfl, rfl, hcaptures'⟩ := h'
  refine ⟨by simp, by simp, ?_⟩
  rw [List.filterMap_append]
  exact hcaptures.trans hcaptures'

/-- Tokens that stay are segments of their own. -/
theorem Cuts.keep (table : SymbolTable) (ts : List Token) (state : State) :
    Cuts table ts state ts state (ts.map Segment.token) := by
  refine ⟨?_, ?_, ?_⟩
  · simp [List.flatMap_map, Segment.source]
  · simp [List.flatMap_map, Segment.written]
  · have hnone : (ts.map Segment.token).filterMap Segment.hoisted? = [] := by
      simp [List.filterMap_map, Segment.hoisted?]
    rw [hnone]
    exact .refl table state

/-! ### Hoisting has a result -/

/-- The session has the names of a table, and right values for them. -/
def Knows (table : SymbolTable) (s : Session) : Prop :=
  ∃ memo, s.table = { table with values := memo } ∧ Sound table memo

section
variable {table : SymbolTable} {s : Session}

theorem Knows.isConstant (hs : Knows table s) (t : Token) :
    isConstant s.table t = isConstant table t := by
  obtain ⟨memo, htable, -⟩ := hs
  rw [htable]
  rfl

/-- A constant of the script is folded to its value. -/
theorem fold_ends (hwrites : table.Writes) (hs : Knows table s) {t : Token}
    (ht : isConstant table t = true) :
    Ends (Pass.fold [t]) s
      (fun found s' => Knows table s' ∧ table.folding t.raw = .ok found ∧
        ∀ v, found = some v → ∃ raw, v.format = .ok raw)
      (fun _ _ => False) := by
  rw [isConstant, Bool.and_eq_true, beq_iff_eq] at ht
  obtain ⟨value, hvalue, hfolding, hformat⟩ := hwrites t.raw ht.2
  obtain ⟨memo, htable, hmemo⟩ := hs
  have hreferences : Operand.references [t] = [t] := by simp [Operand.references, ht.1]
  have hsignificant : Token.significant [t] = [t] := by
    simp [Token.significant, Token.isTrivia, ht.1, TokenKind.isTrivia]
  have hvalue' := hvalue.with_values memo
  have hsound : Sound { table with values := memo } memo :=
    fun name value hvalue => (hmemo name value hvalue).with_values memo
  have hassigns : Evaluation.Assigns { table with values := memo } (fun _ => value)
      (Operand.references [t]) := by
    rw [hreferences]
    exact fun ref href => List.mem_singleton.1 href ▸ hvalue'
  have hfold : Expression.fold (fun _ => value) (Token.significant [t]) = .ok value := by
    rw [hsignificant]
    exact Expression.fold_word _ ht.1
  have hsearch : ∀ ref ∈ Operand.references [t], Evaluation.Succeeds { table with values := memo }
      (Evaluation.valueOf { table with values := memo } [] ref) := by
    rw [hreferences]
    exact fun ref href => List.mem_singleton.1 href ▸ hvalue'.succeeds rfl (by simp)
  unfold Pass.fold
  rw [Pass.onTable_ends_iff, Resolving.evaluate_ends_iff, htable]
  apply (Evaluation.fold_succeeds hassigns hfold hsearch hsound).weaken
  rintro found memo' ⟨rfl, hmemo'⟩
  have hvalues : Sound table memo' :=
    fun name value hvalue => (hmemo' name value hvalue).with_values table.values
  exact ⟨⟨memo', rfl, hvalues⟩, hfolding, hformat⟩

/-- Where nothing blocks a call, its constants have single values. -/
theorem blocker?_result (hwrites : table.Writes) (ts : List Token) {s : Session}
    (hs : Knows table s) :
    Ends (blocker? ts) s
      (fun blocker s' => Knows table s' ∧ (blocker = none → ∀ t ∈ ts, isConstant table t = true →
        ∃ v, table.folding t.raw = .ok (some v)))
      (fun _ _ => False) := by
  induction ts generalizing s with
  | nil => exact ⟨hs, by simp⟩
  | cons t ts ih =>
      rw [blocker?]
      simp only [Ends.bind_iff, Ends.get_iff, hs.isConstant]
      split
      · next hconstant =>
        rw [Ends.bind_iff]
        apply (fold_ends hwrites hs hconstant).weaken
        rintro found s₁ ⟨hs₁, hfolding, -⟩
        split
        · exact ⟨hs₁, by simp⟩
        · next v =>
          apply (ih hs₁).weaken
          rintro blocker s₂ ⟨hs₂, hrest⟩
          refine ⟨hs₂, fun hnone => List.forall_mem_cons.2 ⟨fun _ => ⟨v, hfolding⟩, hrest hnone⟩⟩
      · next hconstant =>
        apply (ih hs).weaken
        rintro blocker s₂ ⟨hs₂, hrest⟩
        refine ⟨hs₂, fun hnone => List.forall_mem_cons.2 ⟨fun h => absurd h hconstant, ?_⟩⟩
        exact hrest hnone

/-- Arguments whose constants have single values are folded. -/
theorem foldArguments_result (hwrites : table.Writes) {ts : List Token} {s : Session}
    (hs : Knows table s)
    (hsingle : ∀ t ∈ ts, isConstant table t = true → ∃ v, table.folding t.raw = .ok (some v)) :
    Ends (foldArguments ts) s
      (fun out s' => Knows table s' ∧ List.Forall₂ (Folded table) ts out) (fun _ _ => False) := by
  induction ts generalizing s with
  | nil => exact ⟨hs, .nil⟩
  | cons t ts ih =>
      rw [List.forall_mem_cons] at hsingle
      rw [foldArguments]
      simp only [Ends.bind_iff, Ends.get_iff, hs.isConstant]
      split
      · next hconstant =>
        obtain ⟨v, hv⟩ := hsingle.1 hconstant
        simp only [Ends.bind_iff]
        apply (fold_ends hwrites hs hconstant).weaken
        rintro found s₁ ⟨hs₁, hfolding, hformat⟩
        obtain rfl : found = some v := Except.ok.inj (hfolding.symm.trans hv)
        obtain ⟨raw, hraw⟩ := hformat v rfl
        have hfolded : Folded table t (.made .number raw t.span) := by
          rw [Folded, if_pos hconstant]
          exact ⟨v, raw, hv, hraw, rfl⟩
        simp only [Resolve.numeral, hraw, Except.map, Pass.ofFault, Ends.bind_iff, Ends.pure_iff]
        apply (ih hs₁ hsingle.2).weaken
        rintro out s₂ ⟨hs₂, hout⟩
        exact ⟨hs₂, .cons hfolded hout⟩
      · next hconstant =>
        have hfolded : Folded table t t := by rw [Folded, if_neg hconstant]
        simp only [Ends.bind_iff, Ends.pure_iff]
        apply (ih hs hsingle.2).weaken
        rintro out s₂ ⟨hs₂, hout⟩
        exact ⟨hs₂, .cons hfolded hout⟩

/-- A call that is read is taken out, or its tokens stay. -/
theorem hoistCall_cuts (hwrites : table.Writes) (stem : Text) {c : RandomCall}
    (hread : RandomCall.read? (c.tokens ++ c.group.rest) = some c) (state : State)
    (hs : Knows table s) :
    Ends ((hoistCall stem c).run state) s
      (fun out s' => Knows table s' ∧ ∃ segments, Cuts table c.tokens state out.1 out.2 segments)
      (fun _ _ => False) := by
  unfold hoistCall
  simp only [StateT.run_bind, Ends.bind_iff, lift_ends_iff]
  apply (blocker?_result hwrites c.arguments hs).weaken
  rintro blocker s₁ ⟨hs₁, hsingle⟩
  split
  · simp only [StateT.run_bind, Ends.bind_iff, lift_ends_iff, Pass.warn_ends_iff]
    exact ⟨hs₁, _, .keep table c.tokens state⟩
  simp only [StateT.run_bind, Ends.bind_iff, lift_ends_iff]
  apply (freshName_ends stem c.name.span state s₁).weaken
  rintro ⟨name, state₁⟩ s₂ ⟨hs₂, hdeclarations, hused, n, hname, hfresh⟩
  dsimp only at hdeclarations hused hname
  have hknows : Knows table s₂ := by
    rw [Knows, hs₂]
    exact hs₁
  apply (foldArguments_result hwrites hknows (hsingle rfl)).weaken
  rintro args s₃ ⟨hs₃, hargs⟩
  let h : Hoisted := ⟨name, c, args⟩
  refine ⟨hs₃, [.call h], (List.append_nil _).symm, rfl, ?_⟩
  rw [← hname] at hfresh
  constructor
  · show h.line :: state₁.declarations = [h.line] ++ state.declarations
    rw [hdeclarations]
    rfl
  · exact hused
  · exact List.nodup_singleton name
  · exact List.forall_mem_singleton.2 hfresh
  · exact List.forall_mem_singleton.2 ⟨hread, hargs⟩

/-- A row is cut into segments. -/
theorem hoistTokens_cuts (hwrites : table.Writes) (stem : Text) (recent ts : List Token)
    (state : State) {s : Session} (hs : Knows table s) :
    Ends ((hoistTokens stem recent ts).run state) s
      (fun out s' => Knows table s' ∧ ∃ segments, Cuts table ts state out.1 out.2 segments)
      (fun _ _ => False) := by
  induction recent, ts using hoistTokens.induct stem generalizing state s with
  | case1 recent =>
      rw [hoistTokens]
      exact ⟨hs, [], .keep table [] state⟩
  | case2 recent t ts hconst ih =>
      rw [hoistTokens_keep (Or.inl hconst)]
      simp only [StateT.run_bind, Ends.bind_iff]
      apply (ih state hs).weaken
      rintro ⟨later, state₁⟩ s₁ ⟨hs₁, segments, hlater⟩
      exact ⟨hs₁, _, (Cuts.keep table [t] state).append hlater⟩
  | case3 recent t ts hconst hread ih =>
      rw [hoistTokens_keep (Or.inr hread)]
      simp only [StateT.run_bind, Ends.bind_iff]
      apply (ih state hs).weaken
      rintro ⟨later, state₁⟩ s₁ ⟨hs₁, segments, hlater⟩
      exact ⟨hs₁, _, (Cuts.keep table [t] state).append hlater⟩
  | case4 recent t ts hconst c hread _ ih =>
      rw [hoistTokens_call hconst hread]
      have hsplit := RandomCall.tokens_append hread
      rw [hsplit] at hread ⊢
      simp only [StateT.run_bind, Ends.bind_iff]
      apply (hoistCall_cuts hwrites stem hread state hs).weaken
      rintro ⟨written, state₁⟩ s₁ ⟨hs₁, segments, hwritten⟩
      apply (ih written state₁ hs₁).weaken
      rintro ⟨later, state₂⟩ s₂ ⟨hs₂, segments', hlater⟩
      exact ⟨hs₂, _, hwritten.append hlater⟩

end

/-! ### Parts -/

/-- The parts of a script before and after hoisting, and the segments of all runs. -/
inductive Rows : List Piece → List Piece → List Segment → Prop
  | nil : Rows [] [] []
  | run {parts rest : List Piece} {segments later : List Segment} {span : Span}
      (rows : Rows parts rest later) :
      Rows (.run ⟨segments.flatMap Segment.source, span⟩ :: parts)
        (.run ⟨segments.flatMap Segment.written, span⟩ :: rest) (segments ++ later)
  | other {p : Piece} {parts rest : List Piece} {later : List Segment} (kept : ∀ r, p ≠ .run r)
      (rows : Rows parts rest later) : Rows (p :: parts) (p :: rest) later

/-- The parts of a script are cut into segments, one after the other. -/
theorem hoistPieces_rows {table : SymbolTable} (hwrites : table.Writes) (stem : Text)
    (parts : List Piece) (state : State) {s : Session} (hs : Knows table s) :
    Ends ((hoistPieces stem parts).run state) s
      (fun out s' => Knows table s' ∧ ∃ segments, Rows parts out.1 segments ∧
        Captures table state (segments.filterMap Segment.hoisted?) out.2)
      (fun _ _ => False) := by
  induction parts generalizing state s with
  | nil => exact ⟨hs, [], .nil, .refl table state⟩
  | cons p parts ih =>
      have keep (hp : ∀ r, p ≠ .run r) (heq : hoistPieces stem (p :: parts) = do
          let later ← hoistPieces stem parts
          return p :: later) :
          Ends ((hoistPieces stem (p :: parts)).run state) s
            (fun out s' => Knows table s' ∧ ∃ segments, Rows (p :: parts) out.1 segments ∧
              Captures table state (segments.filterMap Segment.hoisted?) out.2)
            (fun _ _ => False) := by
        rw [heq]
        simp only [StateT.run_bind, Ends.bind_iff]
        apply (ih state hs).weaken
        rintro ⟨later, state₁⟩ s₁ ⟨hs₁, segments, hrows, hcaptures⟩
        exact ⟨hs₁, segments, .other hp hrows, hcaptures⟩
      cases p with
      | cut span => exact keep (by simp) rfl
      | header h => exact keep (by simp) rfl
      | run r =>
          rw [hoistPieces]
          simp only [StateT.run_bind, Ends.bind_iff]
          apply (hoistTokens_cuts hwrites stem [] r.tokens state hs).weaken
          rintro ⟨tokens, state₁⟩ s₁ ⟨hs₁, segments, htokens⟩
          apply (ih state₁ hs₁).weaken
          rintro ⟨later, state₂⟩ s₂ ⟨hs₂, segments', hrows, hcaptures⟩
          obtain ⟨tokens', span⟩ := r
          obtain ⟨rfl, rfl, hfirst⟩ := htokens
          refine ⟨hs₂, segments ++ segments', .run hrows, ?_⟩
          rw [List.filterMap_append]
          exact hfirst.trans hcaptures

/-! ### Substitution -/

/-- What a token stands for once calls are put back: the text of the call whose name it
is, or itself. -/
def substitute (text : Hoisted → List Token) (calls : List Hoisted) (t : Token) : List Token :=
  match calls.find? fun h => t.isWord h.name with
  | some h => text h
  | none => [t]

/-- A part of a script with calls put back where their names stand. -/
def substitutePiece (text : Hoisted → List Token) (calls : List Hoisted) : Piece → Piece
  | .run r => .run ⟨r.tokens.flatMap (substitute text calls), r.span⟩
  | p => p

/-- The rows are the same, but in some random calls trivia is left out and constants of
the script are replaced by their values. -/
inductive Simplifies (table : SymbolTable) : List Token → List Token → Prop
  | nil : Simplifies table [] []
  | token (t : Token) {ts us : List Token} (rest : Simplifies table ts us) :
      Simplifies table (t :: ts) (t :: us)
  | call {c : RandomCall} {args ts us : List Token}
      (folded : List.Forall₂ (Folded table) c.arguments args) (rest : Simplifies table ts us) :
      Simplifies table (c.tokens ++ ts) (Token.significant (c.name :: args) ++ us)

/-- The same of parts of a script: runs keep their spans, and other parts stay. -/
inductive SimplifiesPiece (table : SymbolTable) : Piece → Piece → Prop
  | run {ts us : List Token} {span : Span} (row : Simplifies table ts us) :
      SimplifiesPiece table (.run ⟨ts, span⟩) (.run ⟨us, span⟩)
  | other {p : Piece} (kept : ∀ r, p ≠ .run r) : SimplifiesPiece table p p

/-- Hoisting of the parts of a script is undone by putting the calls back into what is
left of it. -/
structure Undone (table : SymbolTable) (parts : List Piece) (calls : List Hoisted)
    (rest : List Piece) : Prop where
  /-- The new names are different, from each other and from those of the script. -/
  distinct : (calls.map Hoisted.name).Nodup
  fresh : ∀ h ∈ calls, h.name ∉ parts.flatMap words ∧ h.name ∉ table.names
  /-- Each name stands in one place, and they stand in their order. -/
  once : (rest.flatMap words).filter (· ∈ calls.map Hoisted.name) = calls.map Hoisted.name
  declares : ∀ h ∈ calls, h.Declares table
  /-- The calls as they stood give back the parts. -/
  restored : rest.map (substitutePiece (fun h => h.call.tokens) calls) = parts
  /-- The calls as they are declared give back the parts up to what is declared
  otherwise. -/
  simplified : List.Forall₂ (SimplifiesPiece table) parts
    (rest.map (substitutePiece Hoisted.declared calls))

section
variable {table : SymbolTable} {calls : List Hoisted}

/-- The words in a row of tokens. -/
def wordsOf (ts : List Token) : List Text := (ts.filter fun t => t.kind == .word).map fun t => t.raw

theorem wordsOf_append (ts us : List Token) : wordsOf (ts ++ us) = wordsOf ts ++ wordsOf us := by
  simp [wordsOf]

/-- A token whose text is no name of a call stays. -/
theorem substitute_token (text : Hoisted → List Token) {t : Token}
    (ht : ∀ h ∈ calls, h.name ∉ wordsOf [t]) : substitute text calls t = [t] := by
  have hnone : calls.find? (fun h => t.isWord h.name) = none := by
    rw [List.find?_eq_none]
    intro h hh hword
    apply ht h hh
    simp only [Token.isWord, Bool.and_eq_true, beq_iff_eq] at hword
    simp [wordsOf, hword]
  rw [substitute, hnone]

/-- The name of a call stands for it, if no other call has the name. -/
theorem substitute_name (text : Hoisted → List Token) (hdistinct : (calls.map Hoisted.name).Nodup)
    {h : Hoisted} (hh : h ∈ calls) (span : Span) :
    substitute text calls (.made .word h.name span) = text h := by
  have hfind : calls.find? (fun x => Token.isWord x.name (.made .word h.name span)) = some h := by
    cases hfound : calls.find? (fun x => Token.isWord x.name (.made .word h.name span)) with
    | none =>
        rw [List.find?_eq_none] at hfound
        exact absurd (by simp [Token.isWord, Token.made]) (hfound h hh)
    | some x =>
        have hname : h.name = x.name := by
          simpa [Token.isWord, Token.made] using List.find?_some hfound
        have hx := List.mem_of_find?_eq_some hfound
        rw [List.inj_on_of_nodup_map hdistinct hh hx hname]
  rw [substitute, hfind]

/-- What is asked of the calls of a row is asked of its first segment and of the others. -/
theorem separate {segment : Segment} {segments : List Segment}
    (hcalls : (segment :: segments).filterMap Segment.hoisted? ⊆ calls)
    (hfresh : ∀ h ∈ calls, h.name ∉ wordsOf ((segment :: segments).flatMap Segment.source)) :
    segments.filterMap Segment.hoisted? ⊆ calls ∧
      (∀ h ∈ calls, h.name ∉ wordsOf (segments.flatMap Segment.source)) ∧
      ∀ h ∈ calls, h.name ∉ wordsOf segment.source := by
  rw [List.flatMap_cons, wordsOf_append] at hfresh
  refine ⟨?_, fun h hh hmem => hfresh h hh (List.mem_append_right _ hmem),
    fun h hh hmem => hfresh h hh (List.mem_append_left _ hmem)⟩
  cases segment with
  | token t => exact hcalls
  | call h => exact (List.cons_subset.1 hcalls).2

/-- Putting calls back into a row that was cut. -/
theorem substitute_segments (text : Hoisted → List Token) {segments : List Segment}
    (hdistinct : (calls.map Hoisted.name).Nodup)
    (hcalls : segments.filterMap Segment.hoisted? ⊆ calls)
    (hfresh : ∀ h ∈ calls, h.name ∉ wordsOf (segments.flatMap Segment.source)) :
    (segments.flatMap Segment.written).flatMap (substitute text calls) =
      segments.flatMap (Segment.filled text) := by
  induction segments with
  | nil => rfl
  | cons segment segments ih =>
      obtain ⟨hcalls', hfresh', hhead⟩ := separate hcalls hfresh
      rw [List.flatMap_cons, List.flatMap_append, ih hcalls' hfresh', List.flatMap_cons]
      congr 1
      cases segment with
      | token t => rw [Segment.written, List.flatMap_singleton, substitute_token text hhead]; rfl
      | call h =>
          have hh : h ∈ calls := hcalls (by simp [Segment.hoisted?])
          rw [Segment.written, List.flatMap_singleton, substitute_name text hdistinct hh]
          rfl

/-- Of the words of a row that was cut, the names of calls are those of its own. -/
theorem names_segments {segments : List Segment}
    (hcalls : segments.filterMap Segment.hoisted? ⊆ calls)
    (hfresh : ∀ h ∈ calls, h.name ∉ wordsOf (segments.flatMap Segment.source)) :
    (wordsOf (segments.flatMap Segment.written)).filter (· ∈ calls.map Hoisted.name) =
      (segments.filterMap Segment.hoisted?).map Hoisted.name := by
  induction segments with
  | nil => rfl
  | cons segment segments ih =>
      obtain ⟨hcalls', hfresh', hhead⟩ := separate hcalls hfresh
      rw [List.flatMap_cons, wordsOf_append, List.filter_append, ih hcalls' hfresh']
      cases segment with
      | token t =>
          have hnone : (wordsOf [t]).filter (· ∈ calls.map Hoisted.name) = [] := by
            rw [List.filter_eq_nil_iff]
            intro name hname hmem
            obtain ⟨h, hh, rfl⟩ := List.mem_map.1 (by simpa using hmem)
            exact hhead h hh hname
          rw [Segment.written, hnone]
          rfl
      | call h =>
          have hh : h ∈ calls := hcalls (by simp [Segment.hoisted?])
          have hmem : h.name ∈ calls.map Hoisted.name := List.mem_map_of_mem hh
          have hword : wordsOf (Segment.call h).written = [h.name] := rfl
          rw [hword, List.filter_singleton, decide_eq_true hmem]
          rfl

theorem simplifies_segments {segments : List Segment}
    (hdeclares : ∀ h ∈ segments.filterMap Segment.hoisted?, h.Declares table) :
    Simplifies table (segments.flatMap Segment.source)
      (segments.flatMap (Segment.filled Hoisted.declared)) := by
  induction segments with
  | nil => exact .nil
  | cons segment segments ih =>
      cases segment with
      | token t => exact .token t (ih hdeclares)
      | call h =>
          have hboth : ∀ x ∈ h :: segments.filterMap Segment.hoisted?, x.Declares table := hdeclares
          rw [List.forall_mem_cons] at hboth
          exact .call hboth.1.args (ih hboth.2)

/-- Parts that were cut are undone, if the names of their calls are new. -/
theorem Rows.undone {parts rest : List Piece} {segments : List Segment}
    (h : Rows parts rest segments) (hdistinct : (calls.map Hoisted.name).Nodup)
    (hcalls : segments.filterMap Segment.hoisted? ⊆ calls)
    (hfresh : ∀ h ∈ calls, h.name ∉ parts.flatMap words)
    (hdeclares : ∀ h ∈ calls, h.Declares table) :
    (rest.flatMap words).filter (· ∈ calls.map Hoisted.name) =
        (segments.filterMap Segment.hoisted?).map Hoisted.name ∧
      rest.map (substitutePiece (fun h => h.call.tokens) calls) = parts ∧
      List.Forall₂ (SimplifiesPiece table) parts
        (rest.map (substitutePiece Hoisted.declared calls)) := by
  induction h with
  | nil => exact ⟨rfl, rfl, .nil⟩
  | @run parts rest segments later span _ ih =>
      rw [List.filterMap_append, List.append_subset] at hcalls
      have hrow : ∀ h ∈ calls, h.name ∉ wordsOf (segments.flatMap Segment.source) :=
        fun h hh hmem => hfresh h hh (List.mem_append_left _ hmem)
      obtain ⟨honce, hrestored, hsimplified⟩ :=
        ih hcalls.2 fun h hh hmem => hfresh h hh (List.mem_append_right _ hmem)
      have hsubstitute (text : Hoisted → List Token) :=
        substitute_segments text hdistinct hcalls.1 hrow
      refine ⟨?_, ?_, ?_⟩
      · rw [List.flatMap_cons, List.filter_append, honce, List.filterMap_append, List.map_append]
        congr 1
        exact names_segments hcalls.1 hrow
      · rw [List.map_cons, hrestored, substitutePiece, hsubstitute]
        rfl
      · rw [List.map_cons, substitutePiece, hsubstitute]
        refine .cons (.run (simplifies_segments ?_)) hsimplified
        exact fun h hh => hdeclares h (hcalls.1 hh)
  | @other p parts rest later hkept _ ih =>
      have hp : words p = [] ∧ ∀ text, substitutePiece text calls p = p := by
        cases p with
        | run r => exact absurd rfl (hkept r)
        | cut span => exact ⟨rfl, fun _ => rfl⟩
        | header h => exact ⟨rfl, fun _ => rfl⟩
      rw [List.flatMap_cons, hp.1, List.nil_append] at hfresh
      obtain ⟨honce, hrestored, hsimplified⟩ := ih hcalls hfresh
      refine ⟨?_, ?_, ?_⟩
      · rw [List.flatMap_cons, hp.1, List.nil_append, honce]
      · rw [List.map_cons, hp.2, hrestored]
      · rw [List.map_cons, hp.2]
        exact .cons (.other hkept) hsimplified

end

end Hoist

/-- Hoisting a script in the session of a resolved one has a result: the script itself,
or declarations of new names in front of what is left, which is undone by putting the
declared calls back. -/
theorem Script.hoist_undone {source : Text} {script named : Script Node}
    {fresh table : SymbolTable} (hsource : ofSource source = .ok script) (hfresh : fresh.Fresh)
    (hresolve : script.resolve.run.run fresh = (.ok named, table))
    (operands : List (List Token)) (warnings : List Warning) (stem : Text) (tree : Script Piece) :
    ∃ out s, (tree.hoist stem).run.run
        ⟨{ table with values := table.valuesAfter operands }, warnings⟩ = (.ok out, s) ∧
      (out = tree ∨ ∃ calls rest, calls ≠ [] ∧
        out = ⟨.run ⟨calls.flatMap Hoist.Hoisted.line, .point tree.span.start⟩ :: rest,
          tree.span⟩ ∧
        Hoist.Undone table tree.parts calls rest) := by
  have hwrites := writes_of_resolve hsource hfresh hresolve
  have hsound := sound_valuesAfter (Resolved.of_run hfresh hresolve).sound operands
  have hknows : Hoist.Knows table
      ⟨{ table with values := table.valuesAfter operands }, warnings⟩ := ⟨_, rfl, hsound⟩
  have hends : Ends (tree.hoist stem)
      ⟨{ table with values := table.valuesAfter operands }, warnings⟩
      (fun out _ => out = tree ∨ ∃ calls rest, calls ≠ [] ∧
        out = ⟨.run ⟨calls.flatMap Hoist.Hoisted.line, .point tree.span.start⟩ :: rest,
          tree.span⟩ ∧
        Hoist.Undone table tree.parts calls rest)
      (fun _ _ => False) := by
    unfold Script.hoist
    simp only [Ends.bind_iff, Ends.get_iff]
    apply (Hoist.hoistPieces_rows hwrites stem tree.parts _ hknows).weaken
    rintro ⟨rest, state⟩ s₁ ⟨-, segments, hrows, hcaptures⟩
    generalize hcalls : segments.filterMap Hoist.Segment.hoisted? = calls at hcaptures
    have hdeclarations : state.declarations.reverse.flatten =
        calls.flatMap Hoist.Hoisted.line := by
      rw [hcaptures.declarations, List.append_nil, List.reverse_reverse, List.flatMap]
    dsimp only
    rw [hdeclarations]
    split
    · exact Or.inl rfl
    · next hsome =>
      refine Or.inr ⟨calls, rest, ?_, rfl, ?_⟩
      · rintro rfl
        exact hsome rfl
      have hnew : ∀ h ∈ calls, h.name ∉ tree.parts.flatMap Hoist.words :=
        fun h hh hmem => hcaptures.fresh h hh (List.mem_append_right _ hmem)
      obtain ⟨honce, hrestored, hsimplified⟩ := hrows.undone hcaptures.distinct
        (hcalls ▸ List.Subset.refl _) hnew hcaptures.declares
      rw [hcalls] at honce
      exact ⟨hcaptures.distinct, fun h hh => ⟨hnew h hh, fun hmem => hcaptures.fresh h hh
        (List.mem_append_left _ hmem)⟩, honce, hcaptures.declares, hrestored, hsimplified⟩
  cases hrun : (tree.hoist stem).run.run
      ⟨{ table with values := table.valuesAfter operands }, warnings⟩ with
  | mk outcome s =>
      cases outcome with
      | ok out => exact ⟨out, s, rfl, hends.of_run_ok hrun⟩
      | error e => exact (hends.of_run_error hrun).elim

/-- A call with a constant and a comment in it, one that uses a name of the script, and
a name that is taken. -/
theorem Script.hoist_undone_constant :
    ∃ script named table,
      ofSource "#const A (2 * 3)\nC1 rnd( A /* x */ ,9) rnd(rnd(1,2),B)".toList = .ok script ∧
      script.resolve.run.run {} = (.ok named, table) ∧
      ∃ out s calls rest, ((⟨named.parts.filterMap Node.toPiece?, named.span⟩ : Script Piece).hoist
          ['C']).run.run ⟨table, []⟩ = (.ok out, s) ∧ calls ≠ [] ∧
        out = ⟨.run ⟨calls.flatMap Hoist.Hoisted.line, .point named.span.start⟩ :: rest,
          named.span⟩ ∧
        Hoist.Undone table (named.parts.filterMap Node.toPiece?) calls rest ∧
        (calls.flatMap Hoist.Hoisted.line).flatMap (fun t => t.raw) =
          "#const C2 rnd(6,9)\n#const C3 rnd(rnd(1,2),B)\n".toList := by
  have hruns : (ofSource "#const A (2 * 3)\nC1 rnd( A /* x */ ,9) rnd(rnd(1,2),B)".toList).toOption.any
      (fun script => (script.resolve.run.run {}).1.toOption.any fun named =>
        (((⟨named.parts.filterMap Node.toPiece?, named.span⟩ : Script Piece).hoist ['C']).run.run
          ⟨(script.resolve.run.run {}).2, []⟩).1.toOption.any fun out =>
            decide (out.parts.length ≠ (named.parts.filterMap Node.toPiece?).length) &&
              out.parts.head?.any fun piece => decide (piece.lexemes.flatMap (fun l => l.raw) =
                "#const C2 rnd(6,9)\n#const C3 rnd(rnd(1,2),B)\n".toList)) = true := by
    decide +kernel
  obtain ⟨script, hsource, hruns⟩ := toOption_any_iff.1 hruns
  obtain ⟨named, hnamed, hruns⟩ := toOption_any_iff.1 hruns
  have hresolve : script.resolve.run.run {} = (.ok named, (script.resolve.run.run {}).2) :=
    Prod.ext hnamed rfl
  have hfresh : SymbolTable.Fresh {} := ⟨rfl, rfl, rfl⟩
  obtain ⟨out, s, hrun, hout⟩ := hoist_undone hsource hfresh hresolve [] [] ['C']
    ⟨named.parts.filterMap Node.toPiece?, named.span⟩
  obtain ⟨out', hout', htext⟩ := toOption_any_iff.1 hruns
  obtain rfl : out' = out := Except.ok.inj (hout'.symm.trans (congrArg Prod.fst hrun))
  rw [Bool.and_eq_true, decide_eq_true_eq] at htext
  obtain ⟨hlonger, hlines⟩ := htext
  rcases hout with rfl | ⟨calls, rest, hcalls, rfl, hundone⟩
  · exact absurd rfl hlonger
  · refine ⟨script, named, _, hsource, hresolve, _, s, calls, rest, hrun, hcalls, rfl, hundone, ?_⟩
    simpa [Piece.lexemes, List.flatMap_map] using hlines

end MapScript
