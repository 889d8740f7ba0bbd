import MapScript.Session

/-!
# Random calls

Every random call of a script becomes a constant that is declared in front of it
under a new name.  As the declaration comes before all others, constants among
the arguments are replaced by their values; a call that needs a constant without
a single value stays where it is, with a warning.  The operand of a constant is
such a declaration already and stays too.
-/

namespace MapScript

/-- A random call: its tokens and what follows it. -/
structure RandomCall where
  name : Token
  opening : Token
  group : Group

namespace RandomCall

/-- The random call that stands first, if one does. -/
def read? : List Token → Option RandomCall
  | t :: u :: rest =>
    if t.isWord "rnd".toList && u.isPunct '(' then
      (Group.parens? rest).map fun g => ⟨t, u, g⟩
    else none
  | _ => none

/-- The tokens of the call after its name. -/
def arguments (c : RandomCall) : List Token := c.opening :: c.group.inner ++ [c.group.closer]

/-- The tokens of the call. -/
def tokens (c : RandomCall) : List Token := c.name :: c.arguments

/-- The part of the script that the call takes up. -/
def span (c : RandomCall) : Span := ⟨c.name.span.start, c.group.closer.span.stop⟩

/-- What follows a call is shorter than the whole. -/
theorem length_rest_lt {ts : List Token} {c : RandomCall} (h : read? ts = some c) :
    c.group.rest.length < ts.length := by
  unfold read? at h
  split at h
  · next t u rest =>
    split at h
    · obtain ⟨g, hg, rfl⟩ := Option.map_eq_some_iff.1 h
      have := Group.length_parens_rest_lt hg
      simp only [List.length_cons]
      omega
    · simp at h
  · simp at h

end RandomCall

namespace Hoist

/-- The state of a pass: the names that must not be used, the number of the last
name tried and the tokens of the declarations so far, the newest first. -/
structure State where
  used : List Text
  counter : Nat := 0
  declarations : List (List Token) := []

/-- A pass that also hands out names and collects declarations. -/
abbrev Hoisting := StateT State Pass

/-- The last significant tokens written, the newest first, at most two. -/
def remember (recent : List Token) (t : Token) : List Token :=
  if t.isTrivia then recent else (t :: recent).take 2

/-- Whether the last significant tokens begin the declaration of a constant. -/
def afterConst : List Token → Bool
  | [name, directive] => name.kind == .word && Resolve.isConst directive
  | _ => false

/-- Whether a token is a constant of the script. -/
def isConstant (table : SymbolTable) (t : Token) : Bool :=
  t.kind == .word && (table.constants.lookup t.raw).isSome

/-- The first constant among tokens that has no single value. -/
def blocker? : List Token → Pass (Option Token)
  | [] => return none
  | t :: ts => do
    if isConstant (← get).table t then
      match ← Pass.fold [t] with
      | none => return some t
      | some _ => blocker? ts
    else blocker? ts

/-- The tokens with constants of the script replaced by their values. -/
def foldArguments : List Token → Pass (List Token)
  | [] => return []
  | t :: ts => do
    let value ← if isConstant (← get).table t then Pass.fold [t] else pure none
    let t' ← match value with
      | some v => Pass.ofFault (Resolve.numeral v t.span)
      | none => pure t
    return t' :: (← foldArguments ts)

/-- The first number after `counter` whose name is not used, and the names that
were.  A used name is met once at most, so it is taken out of the search. -/
def freshNumber (stem : Text) (counter : Nat) (used : List Text) : Nat × List Text :=
  let name := stem ++ Text.ofNat (counter + 1)
  if _h : name ∈ used then
    let (number, taken) := freshNumber stem (counter + 1) (used.erase name)
    (number, name :: taken)
  else (counter + 1, [])
termination_by used.length
decreasing_by
  rw [List.length_erase_of_mem _h]
  have := List.length_pos_of_mem _h
  omega

/-- A new name, with a warning for each that is used already. -/
def freshName (stem : Text) (span : Span) : Hoisting Text := do
  let state ← get
  let (number, taken) := freshNumber stem state.counter state.used
  taken.forM fun name => (Pass.warn (.nameTaken name) span : Pass Unit)
  let name := stem ++ Text.ofNat number
  set { state with used := name :: state.used, counter := number }
  return name

/-- The line that declares a name for a call, without trivia inside the call. -/
def declaration (name : Text) (call : List Token) (span : Span) : List Token :=
  let made (kind : TokenKind) (raw : Text) : Token := .made kind raw span
  let space := made .blank [' ']
  [made .directive "#const".toList, space, made .word name, space] ++
    Token.significant call ++ [made .newline ['\n']]

/-- What replaces a random call in the script: a new name, or the call itself if
it needs a constant without a single value. -/
def hoistCall (stem : Text) (c : RandomCall) : Hoisting (List Token) := do
  match ← (blocker? c.arguments : Pass (Option Token)) with
  | some t =>
    (Pass.warn (.blockedCall t.raw) t.span : Pass Unit)
    return c.tokens
  | none =>
    let name ← freshName stem c.name.span
    let args ← (foldArguments c.arguments : Pass (List Token))
    modify fun state =>
      { state with
        declarations := declaration name (c.name :: args) c.name.span :: state.declarations }
    return [.made .word name c.span]

/-- A row of tokens with its random calls replaced, after some that are written. -/
def hoistTokens (stem : Text) (recent : List Token) (ts : List Token) :
    Hoisting (List Token) := do
  match ts with
  | [] => return []
  | t :: rest =>
    let keep : Hoisting (List Token) := do
      let later ← hoistTokens stem (remember recent t) rest
      return t :: later
    if afterConst recent then keep
    else
      match _h : RandomCall.read? (t :: rest) with
      | none => keep
      | some c => do
        let written ← hoistCall stem c
        let later ← hoistTokens stem (written.foldl remember recent) c.group.rest
        return written ++ later
termination_by ts.length
decreasing_by
  · simp
  · exact RandomCall.length_rest_lt _h

/-- The parts of a script with their random calls replaced. -/
def hoistPieces (stem : Text) : List Piece → Hoisting (List Piece)
  | [] => return []
  | .run r :: rest => do
    let tokens ← hoistTokens stem [] r.tokens
    let later ← hoistPieces stem rest
    return .run ⟨tokens, r.span⟩ :: later
  | p :: rest => do
    let later ← hoistPieces stem rest
    return p :: later

/-- The words in a part of a script. -/
def words : Piece → List Text
  | .run r => (r.tokens.filter fun t => t.kind == .word).map fun t => t.raw
  | _ => []

end Hoist

/-- The script with its random calls declared in front of it as constants whose
names begin with `stem`. -/
def Script.hoist (stem : Text) (s : Script Piece) : Pass (Script Piece) := do
  let table := (← get).table
  let (pieces, state) ← (Hoist.hoistPieces stem s.parts).run
    { used := table.names ++ s.parts.flatMap Hoist.words }
  match state.declarations.reverse.flatten with
  | [] => return s
  | tokens => return ⟨.run ⟨tokens, .point s.span.start⟩ :: pieces, s.span⟩

end MapScript
