import MapScript.Token.Lexer

/-!
# Compact text

Lexemes as the shortest text that still reads as the same lexemes: comments go,
and a gap shrinks to a line break if it held one, else to a space where the
neighbours would run together, else to nothing.  Whether lexemes run together is
asked of the lexer itself.
-/

namespace MapScript.Compact

/-- Whether lexemes written without gaps read as something else. -/
def merges (pieces : List Lexeme) : Bool :=
  match Lexer.lexScript (Lexeme.rawText pieces) with
  | .error _ => true
  | .ok read => read != pieces

/-- Whether a lexeme is the given character of punctuation. -/
def isMark (c : Char) (l : Lexeme) : Bool := l.kind == .punct && l.raw == [c]

/-- Whether a lexeme is a curly bracket. -/
def isBrace (l : Lexeme) : Bool := isMark '\x7b' l || isMark '\x7d' l

/-- Whether a lexeme is a sign. -/
def isSign (l : Lexeme) : Bool := isMark '+' l || isMark '-' l

/-- Whether two neighbours on one line need a space, given whether there was a
gap between them.  Brackets and words stand alone; after a gap a sign belongs to
what follows it, a closed call is one word and a parenthesis is no argument
list. -/
def needsSpace (left right : Lexeme) (gap : Bool) : Bool :=
  isBrace left || isBrace right
    || (left.kind.isWordlike && right.kind.isWordlike)
    || (gap && left.kind.isWordlike && isSign right)
    || (gap && isMark ')' left && right.kind.isWordlike)
    || (gap && left.kind.isWordlike && isMark '(' right)
    || merges [left, right]

/-- What stands before the next lexeme: the last one written, the one before it
if nothing separates the two, and the gap since. -/
structure Joint where
  glued : Option Lexeme
  last : Option Lexeme
  gap : Bool
  lineBreak : Bool

namespace Joint

/-- The place before the first lexeme. -/
def start : Joint := ⟨none, none, false, false⟩

/-- The place after a comment, a space or a line break. -/
def widen (j : Joint) (trivia : Lexeme) : Joint :=
  { j with
    gap := true
    lineBreak := j.lineBreak || trivia.kind == .newline || trivia.raw.contains '\n' }

/-- What is written between the last lexeme and the next. -/
def separator (keepLines : Bool) (j : Joint) (next : Lexeme) : Text :=
  match j.last with
  | none => []
  | some last =>
    if j.lineBreak && keepLines then ['\n']
    else if needsSpace last next j.gap then [' ']
    else
      match j.glued with
      | none => []
      | some glued => if merges [glued, last, next] then [' '] else []

/-- The place after a lexeme is written behind the given separator. -/
def write (j : Joint) (separator : Text) (next : Lexeme) : Joint :=
  ⟨if separator.isEmpty then j.last else none, some next, false, false⟩

end Joint

/-- The compact text of lexemes that are written from a place on. -/
def renderFrom (keepLines : Bool) : Joint → List Lexeme → Text
  | _, [] => []
  | j, l :: ls =>
    if l.isTrivia then renderFrom keepLines (j.widen l) ls
    else
      let separator := j.separator keepLines l
      separator ++ l.raw ++ renderFrom keepLines (j.write separator l) ls

/-- The compact text of lexemes, with or without the line breaks. -/
def render (keepLines : Bool) (ls : List Lexeme) : Text := renderFrom keepLines .start ls

end MapScript.Compact
