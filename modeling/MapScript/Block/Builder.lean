import MapScript.Block.Node
import MapScript.Token.Group

/-!
# Building blocks

The tokens of a script are read once, from the front, with the open blocks on a
stack.  An opening directive puts a block on the stack, a closing one takes the
innermost off and hands it to the one around it.  Argument lists and bodies of
calls are taken whole: up to the bracket that closes them.
-/

namespace MapScript

/-! ### Arguments and bodies -/

namespace Call

/-- The pieces with a token put in front of the first. -/
def consFirst (t : Token) : List (List Token) → List (List Token)
  | [] => [[t]]
  | piece :: pieces => (t :: piece) :: pieces

/-- The significant tokens between the commas that stand in `depth` further
parentheses at the start and in none. -/
def splitCommas : Nat → List Token → List (List Token)
  | _, [] => [[]]
  | depth, t :: ts =>
    if t.isPunct '(' then consFirst t (splitCommas (depth + 1) ts)
    else if t.isPunct ')' then consFirst t (splitCommas (depth - 1) ts)
    else if t.isPunct ',' && depth == 0 then [] :: splitCommas depth ts
    else if t.isTrivia then splitCommas depth ts
    else consFirst t (splitCommas depth ts)

/-- The arguments between two parentheses; nothing but trivia is no argument. -/
def arguments (inner : List Token) : List (List Token) :=
  match splitCommas 0 inner with
  | [[]] => []
  | pieces => pieces

/-- The argument list that stands next, if one does; only space within the line
may stand before it. -/
def readArguments (directive : Token) (ts : List Token) : Except Report (Option Group) :=
  match ts.dropWhile fun t => t.kind == .blank with
  | t :: rest =>
    if t.isPunct '(' then
      match Group.parens? rest with
      | some g => .ok (some g)
      | none => .error ⟨.openArguments directive.value, directive.span, []⟩
    else .ok none
  | [] => .ok none

/-- The body that stands next, if one does, after any trivia. -/
def readBody (directive : Token) (ts : List Token) : Except Report (Option Group) :=
  match ts.dropWhile Token.isTrivia with
  | t :: rest =>
    if t.isPunct '\x7b' then
      match Group.read (Token.isPunct '\x7b') (Token.isPunct '\x7d') Token.isOwnDirective 0
        rest with
      | .ok g => .ok (some g)
      | .error .unfinished => .error ⟨.openBody directive.value, directive.span, []⟩
      | .error (.refused t) =>
        .error ⟨.directiveInBody t.value directive.value, t.span,
          [⟨'#' :: directive.value ++ " called here".toList, directive.span⟩]⟩
    else .ok none
  | [] => .ok none

/-- The call that a directive begins, and the tokens after it. -/
def read (directive : Token) (ts : List Token) : Except Report (Call × List Token) :=
  match readArguments directive ts with
  | .error e => .error e
  | .ok args =>
    let given := (args.map fun g => arguments g.inner).getD []
    let last := (args.map Group.closer).getD directive
    let rest := (args.map Group.rest).getD ts
    match readBody directive rest with
    | .error e => .error e
    | .ok body =>
      let last := (body.map Group.closer).getD last
      .ok (⟨Text.upper directive.value, given, body.map Group.inner,
          ⟨directive.span.start, last.span.stop⟩⟩,
        (body.map Group.rest).getD rest)

theorem length_readArguments_lt {directive : Token} {ts : List Token} {g : Group}
    (h : readArguments directive ts = .ok (some g)) : g.rest.length < ts.length := by
  unfold readArguments at h
  have hd := (List.dropWhile_suffix (l := ts) fun t => t.kind == .blank).length_le
  split at h
  · next t rest heq =>
    rw [heq] at hd
    split at h
    · split at h
      · next g' hg =>
        cases h
        have := Group.length_parens_rest_lt hg
        simp only [List.length_cons] at hd
        omega
      · simp at h
    · simp at h
  · simp at h

theorem length_readBody_lt {directive : Token} {ts : List Token} {g : Group}
    (h : readBody directive ts = .ok (some g)) : g.rest.length < ts.length := by
  unfold readBody at h
  have hd := (List.dropWhile_suffix (l := ts) Token.isTrivia).length_le
  split at h
  · next t rest heq =>
    rw [heq] at hd
    split at h
    · split at h
      · next g' hg =>
        cases h
        have := Group.length_rest_lt hg
        simp only [List.length_cons] at hd
        omega
      · simp at h
      · simp at h
    · simp at h
  · simp at h

/-- A call takes tokens off the front only. -/
theorem length_read_le {directive : Token} {ts : List Token} {call : Call} {rest : List Token}
    (h : read directive ts = .ok (call, rest)) : rest.length ≤ ts.length := by
  unfold read at h
  split at h
  · simp at h
  next args hargs =>
    have ha : ((args.map Group.rest).getD ts).length ≤ ts.length := by
      cases args with
      | none => simp
      | some g => exact Nat.le_of_lt (length_readArguments_lt hargs)
    dsimp only at h
    split at h
    · simp at h
    next body hbody =>
      simp only [Except.ok.injEq, Prod.mk.injEq] at h
      obtain ⟨_, rfl⟩ := h
      cases body with
      | none => exact ha
      | some g => exact Nat.le_trans (Nat.le_of_lt (length_readBody_lt hbody)) ha

end Call

/-! ### Open blocks -/

/-- What a block holds so far: its finished blocks and the tokens to be made a
run, both with the newest first. -/
structure Content where
  nodes : List Node := []
  pending : List Token := []

namespace Content

/-- Makes the pending tokens a run. -/
def flush (c : Content) : Content :=
  match Run.ofTokens? c.pending.reverse with
  | none => c
  | some r => ⟨.run r :: c.nodes, []⟩

/-- Adds a plain token. -/
def push (c : Content) (t : Token) : Content := { c with pending := t :: c.pending }

/-- Adds a finished block. -/
def attach (c : Content) (n : Node) : Content :=
  let flushed := c.flush
  { flushed with nodes := n :: flushed.nodes }

/-- The blocks in order. -/
def finish (c : Content) : List Node := c.flush.nodes.reverse

end Content

/-- What an open block will be. -/
inductive BlockKind where
  | repeated (args : List (List Token))
  | header

/-- The directive that opens a block. -/
def BlockKind.opener : BlockKind → Text
  | repeated _ => "REPEAT".toList
  | header => Lexer.headerStart

/-- The directive that closes a block. -/
def BlockKind.closer : BlockKind → Text
  | repeated _ => "END_REPEAT".toList
  | header => Lexer.headerEnd

/-- A block whose closing directive is still to come. -/
structure OpenBlock where
  kind : BlockKind
  span : Span
  content : Content := {}

namespace OpenBlock

/-- The remark on where a block begins. -/
def note (b : OpenBlock) : Note := ⟨'#' :: b.kind.opener ++ " opened here".toList, b.span⟩

/-- The finished block, given its closing directive. -/
def close (b : OpenBlock) (closer : Token) : Node :=
  let span : Span := ⟨b.span.start, closer.span.stop⟩
  match b.kind with
  | .repeated args => .repeated args b.content.finish b.span span
  | .header => .header ⟨b.content.pending.reverse, span⟩

end OpenBlock

/-- The script so far: its top level and the open blocks, the innermost first. -/
structure Builder where
  top : Content := {}
  blocks : List OpenBlock := []

namespace Builder

/-- Changes the content of the innermost block, or of the top level. -/
def update (b : Builder) (f : Content → Content) : Builder :=
  match b.blocks with
  | [] => { b with top := f b.top }
  | block :: outer => { b with blocks := { block with content := f block.content } :: outer }

/-- Opens a block. -/
def enter (b : Builder) (kind : BlockKind) (span : Span) : Builder :=
  let flushed := b.update Content.flush
  { flushed with blocks := ⟨kind, span, {}⟩ :: flushed.blocks }

/-- Closes the innermost block with a closing directive. -/
def close (b : Builder) (t : Token) : Except Report Builder :=
  match b.blocks with
  | [] => .error ⟨.strayCloser t.value, t.span, []⟩
  | block :: outer =>
    if t.isDirective block.kind.closer then
      .ok (update { b with blocks := outer } fun c => c.attach (block.close t))
    else
      .error ⟨.mismatchedCloser t.value block.kind.opener block.span.start, t.span, [block.note]⟩

/-- Whether the innermost block is a header. -/
def inHeader (b : Builder) : Bool :=
  match b.blocks with
  | ⟨.header, _, _⟩ :: _ => true
  | _ => false

/-- Opens a repeated block. -/
def enterRepeat (b : Builder) (t : Token) (ts : List Token) :
    Except Report (Builder × List Token) :=
  match Call.readArguments t ts with
  | .error e => .error e
  | .ok none => .error ⟨.missingCount, t.span, []⟩
  | .ok (some g) =>
    .ok (b.enter (.repeated (Call.arguments g.inner)) ⟨t.span.start, g.closer.span.stop⟩, g.rest)

/-- Opens a header, which stands at the top level only. -/
def enterHeader (b : Builder) (t : Token) : Except Report Builder :=
  match b.blocks with
  | [] => .ok (b.enter .header t.span)
  | block :: _ => .error ⟨.nestedHeader, t.span, [block.note]⟩

/-- Whether a directive closes a block of some kind. -/
def isCloser (t : Token) : Bool :=
  t.isDirective (BlockKind.repeated []).closer || t.isDirective BlockKind.header.closer

/-- Reads a directive that is ours to interpret. -/
def directive (b : Builder) (t : Token) (ts : List Token) :
    Except Report (Builder × List Token) :=
  if isCloser t then (b.close t).map fun b => (b, ts)
  else if t.isDirective (BlockKind.repeated []).opener then b.enterRepeat t ts
  else if t.isDirective BlockKind.header.opener then (b.enterHeader t).map fun b => (b, ts)
  else
    match Marker.ofName? (Text.upper t.value) with
    | some m => .ok (b.update fun c => c.attach (.marker m t.span), ts)
    | none =>
      match Call.read t ts with
      | .error e => .error e
      | .ok (call, rest) => .ok (b.update fun c => c.attach (.call call), rest)

/-- Reads a token, and those after it that belong to it. -/
def step (b : Builder) (t : Token) (ts : List Token) : Except Report (Builder × List Token) :=
  if b.inHeader then
    if t.isDirective BlockKind.header.closer then (b.close t).map fun b => (b, ts)
    else .ok (b.update fun c => c.push t, ts)
  else if t.isOwnDirective then b.directive t ts
  else .ok (b.update fun c => c.push t, ts)

theorem length_directive_le {b b' : Builder} {t : Token} {ts rest : List Token}
    (h : b.directive t ts = .ok (b', rest)) : rest.length ≤ ts.length := by
  have keep {x : Except Report Builder} (hx : x.map (fun b => (b, ts)) = .ok (b', rest)) :
      rest.length ≤ ts.length := by
    cases x with
    | error e => simp [Except.map] at hx
    | ok b =>
      simp only [Except.map, Except.ok.injEq, Prod.mk.injEq] at hx
      obtain ⟨_, rfl⟩ := hx
      exact Nat.le_refl _
  unfold directive at h
  split at h
  · exact keep h
  split at h
  · unfold enterRepeat at h
    split at h
    · simp at h
    · simp at h
    · next g hg =>
      simp only [Except.ok.injEq, Prod.mk.injEq] at h
      obtain ⟨_, rfl⟩ := h
      exact Nat.le_of_lt (Call.length_readArguments_lt hg)
  split at h
  · exact keep h
  split at h
  · simp only [Except.ok.injEq, Prod.mk.injEq] at h
    obtain ⟨_, rfl⟩ := h
    exact Nat.le_refl _
  split at h
  · simp at h
  · next call rest' hc =>
    simp only [Except.ok.injEq, Prod.mk.injEq] at h
    obtain ⟨_, rfl⟩ := h
    exact Call.length_read_le hc

/-- A step takes tokens off the front only. -/
theorem length_step_le {b b' : Builder} {t : Token} {ts rest : List Token}
    (h : b.step t ts = .ok (b', rest)) : rest.length ≤ ts.length := by
  unfold step at h
  split at h
  · split at h
    · cases hc : b.close t with
      | error e => simp [hc, Except.map] at h
      | ok closed =>
        simp only [hc, Except.map, Except.ok.injEq, Prod.mk.injEq] at h
        obtain ⟨_, rfl⟩ := h
        exact Nat.le_refl _
    · simp only [Except.ok.injEq, Prod.mk.injEq] at h
      obtain ⟨_, rfl⟩ := h
      exact Nat.le_refl _
  split at h
  · exact length_directive_le h
  · simp only [Except.ok.injEq, Prod.mk.injEq] at h
    obtain ⟨_, rfl⟩ := h
    exact Nat.le_refl _

/-- Reads all tokens. -/
def run (b : Builder) (ts : List Token) : Except Report Builder :=
  match ts with
  | [] => .ok b
  | t :: rest =>
    match _h : b.step t rest with
    | .error e => .error e
    | .ok (b', rest') => b'.run rest'
termination_by ts.length
decreasing_by exact Nat.lt_succ_of_le (length_step_le _h)

/-- The blocks of the top level, if no other is open. -/
def finish (b : Builder) : Except Report (List Node) :=
  match b.blocks with
  | [] => .ok b.top.finish
  | innermost :: outer =>
    let blocks := (innermost :: outer).reverse
    .error ⟨.openBlocks (blocks.map fun block => (block.kind.opener, block.span.start)),
      innermost.span, blocks.map OpenBlock.note⟩

end Builder

namespace Script

/-- The blocks of a token stream. -/
def ofStream (s : TokenStream) : Except Report (Script Node) :=
  match Builder.run {} s.tokens with
  | .error e => .error e
  | .ok b =>
    match b.finish with
    | .error e => .error e
    | .ok nodes => .ok ⟨nodes, ⟨.origin, s.stop⟩⟩

/-- The blocks of a script. -/
def ofSource (source : Text) : Except Report (Script Node) :=
  match TokenStream.ofSource source with
  | .error e => .error e
  | .ok s => ofStream s

end Script

end MapScript
