import MapScript.Token.Basic
import MapScript.Text.Blank
import MapScript.Diagnostic.Cause

/-!
# Lexing

A script is cut into lexemes from the front: the first character, and at most
one after it, decides the kind, and the scanner of that kind takes the rest of
the lexeme.  After a header start directive the text is prose, cut at line ends
only, until the header end directive comes.  The lexemes get their positions in
a second pass.
-/

namespace MapScript

open Text (spanAhead spanAhead_append)

namespace Lexer

/-- Whether a line ends where `c` stands before `cs`. -/
def endsLine (c : Char) (cs : Text) : Bool := c == '\n' || (c == '\r' && cs.head? == some '\n')

/-- Whether `c` is space within a line where it stands before `cs`. -/
def isSpace (c : Char) (cs : Text) : Bool :=
  c == ' ' || c == '\t' || c == '\x0c' || c == '\x0b' || (c == '\r' && cs.head? != some '\n')

/-- The rest of a numeral after its first digit. -/
def numeralTail (cs : Text) : Text × Text :=
  match spanAhead (fun c _ => c.isDigit) cs with
  | (digits, '.' :: d :: ds) =>
    if d.isDigit then
      let (fraction, rest) := spanAhead (fun c _ => c.isDigit) ds
      (digits ++ '.' :: d :: fraction, rest)
    else (digits, '.' :: d :: ds)
  | (digits, rest) => (digits, rest)

/-- Puts characters in front of what a scan has taken. -/
def putFront (front : Text) (scan : Text × Text) : Text × Text := (front ++ scan.1, scan.2)

/-- The rest of a string after its opening quote; none if its line ends first. -/
def stringTail : Text → Option (Text × Text)
  | [] => none
  | '\\' :: '"' :: cs => (stringTail cs).map (putFront ['\\', '"'])
  | '"' :: cs => some (['"'], cs)
  | c :: cs => if endsLine c cs then none else (stringTail cs).map (putFront [c])

/-- The rest of a comment of which `depth` openers await their closer; none if
the text ends first. -/
def commentTail : Nat → Text → Option (Text × Text)
  | 0, cs => some ([], cs)
  | _ + 1, [] => none
  | depth + 1, '/' :: '*' :: cs => (commentTail (depth + 2) cs).map (putFront ['/', '*'])
  | depth + 1, '*' :: '/' :: cs => (commentTail depth cs).map (putFront ['*', '/'])
  | depth + 1, c :: cs => (commentTail (depth + 1) cs).map (putFront [c])

/-- A kind, the characters of the lexeme after its first, and the remaining text. -/
structure Scan where
  kind : TokenKind
  tail : Text
  rest : Text

/-- A scan of the given kind from what a scanner has taken and left. -/
def Scan.of (kind : TokenKind) (taken : Text × Text) : Scan := ⟨kind, taken.1, taken.2⟩

/-- A scan that needs its end to be there. -/
def Scan.closed (kind : TokenKind) (missing : Cause) :
    Option (Text × Text) → Except Cause Scan
  | none => .error missing
  | some taken => .ok (.of kind taken)

/-- What can begin in a script. -/
inductive Opening where
  | nul
  | blockComment
  | lineComment
  | lineFeed
  | carriageReturn
  | space
  | directive
  | string
  | word
  | number
  | punct
  | text
deriving DecidableEq, Repr

/-- What begins where `c` stands before `cs`. -/
def opening (c : Char) (cs : Text) : Opening :=
  if c == '\x00' then .nul
  else if c == '/' && cs.head? == some '*' then .blockComment
  else if c == '/' && cs.head? == some '/' then .lineComment
  else if c == '\n' then .lineFeed
  else if endsLine c cs then .carriageReturn
  else if isSpace c cs then .space
  else if c == '#' && cs.head?.any isNameChar then .directive
  else if c == '"' then .string
  else if isNameStart c then .word
  else if c.isDigit then .number
  else if c.toNat < 128 then .punct
  else .text

/-- The lexeme that has begun just before `cs`. -/
def Opening.scan (cs : Text) : Opening → Except Cause Scan
  | nul => .error .nulCharacter
  | blockComment =>
    Scan.closed .comment .openComment ((commentTail 1 (cs.drop 1)).map (putFront (cs.take 1)))
  | lineComment => .ok (.of .comment (spanAhead (fun c cs => !endsLine c cs) cs))
  | lineFeed => .ok ⟨.newline, [], cs⟩
  | carriageReturn => .ok ⟨.newline, cs.take 1, cs.drop 1⟩
  | space => .ok (.of .blank (spanAhead isSpace cs))
  | directive => .ok (.of .directive (spanAhead (fun c _ => isNameChar c) cs))
  | string => Scan.closed .string .openString (stringTail cs)
  | word => .ok (.of .word (spanAhead (fun c _ => isNameChar c) cs))
  | number => .ok (.of .number (numeralTail cs))
  | punct => .ok ⟨.punct, [], cs⟩
  | text => .ok (.of .text (spanAhead (fun c _ => 128 ≤ c.toNat && !Text.isBlank c) cs))

/-- The lexeme that begins with `c` before `cs` in a script. -/
def scanScript (c : Char) (cs : Text) : Except Cause Scan := (opening c cs).scan cs

/-- Characters that run on from a directive name in prose: those of names and
those whose other case is a letter of names. -/
def runsOn (c : Char) : Bool :=
  isNameChar c || c == '\u0130' || c == '\u0131' || c == '\u017f' || c == '\u212a'

/-- The name of the directive that opens a header. -/
def headerStart : Text := "HEADER_START".toList

/-- The name of the directive that closes a header. -/
def headerEnd : Text := "HEADER_END".toList

/-- Whether prose ends here: a header end directive stands first, in any case,
and its name does not run on. -/
def startsHeaderEnd : Text → Bool
  | '#' :: cs =>
    Text.upper (cs.take headerEnd.length) == headerEnd &&
      !(cs.drop headerEnd.length).head?.any runsOn
  | _ => false

/-- The lexeme that begins with `c` before `cs` in prose. -/
def scanProse (c : Char) (cs : Text) : Except Cause Scan :=
  if c == '\x00' then .error .nulCharacter
  else if c == '\n' then .ok ⟨.newline, [], cs⟩
  else if endsLine c cs then .ok ⟨.newline, cs.take 1, cs.drop 1⟩
  else
    .ok (.of .text (spanAhead
      (fun c cs => !(c == '\x00' || endsLine c cs || startsHeaderEnd (c :: cs))) cs))

/-- Whether the text at hand is script or the prose of a header. -/
inductive Mode where
  | script
  | prose
deriving DecidableEq, Repr

namespace Mode

/-- The mode in which the text at hand is read: prose ends at the header end. -/
def enter (mode : Mode) (t : Text) : Mode :=
  if mode = prose && !startsHeaderEnd t then prose else script

/-- The scanner of a mode. -/
def scan : Mode → Char → Text → Except Cause Scan
  | script => scanScript
  | prose => scanProse

/-- The mode after a lexeme that was read in a mode. -/
def leave (mode : Mode) (l : Lexeme) : Mode :=
  if mode = prose || (l.kind = .directive && Text.upper l.value = headerStart) then prose
  else script

end Mode

/-- Why a text has no lexemes, and the offset of the character that shows it. -/
structure Refusal where
  cause : Cause
  offset : Nat
deriving DecidableEq, Repr

/-! ### Nothing is lost by a scan -/

theorem numeralTail_append (cs : Text) : (numeralTail cs).1 ++ (numeralTail cs).2 = cs := by
  have h := spanAhead_append (fun c _ => c.isDigit) cs
  unfold numeralTail
  split
  · next digits d ds heq =>
    rw [heq] at h
    split
    · have hd := spanAhead_append (fun c _ => c.isDigit) ds
      rw [← h]
      simp [hd]
    · exact h
  · next digits rest _ heq =>
    rw [heq] at h
    exact h

theorem stringTail_append {cs : Text} {taken : Text × Text} (h : stringTail cs = some taken) :
    taken.1 ++ taken.2 = cs := by
  fun_induction stringTail cs generalizing taken with
  | case1 => simp at h
  | case2 cs ih =>
    obtain ⟨inner, hi, rfl⟩ := Option.map_eq_some_iff.1 h
    simp [putFront, ih hi]
  | case3 cs =>
    cases h
    rfl
  | case4 => simp at h
  | case5 c cs _ _ _ ih =>
    obtain ⟨inner, hi, rfl⟩ := Option.map_eq_some_iff.1 h
    simp [putFront, ih hi]

theorem commentTail_append {depth : Nat} {cs : Text} {taken : Text × Text}
    (h : commentTail depth cs = some taken) : taken.1 ++ taken.2 = cs := by
  fun_induction commentTail depth cs generalizing taken with
  | case1 cs =>
    cases h
    rfl
  | case2 => simp at h
  | case3 _ _ ih =>
    obtain ⟨inner, hi, rfl⟩ := Option.map_eq_some_iff.1 h
    simp [putFront, ih hi]
  | case4 _ _ ih =>
    obtain ⟨inner, hi, rfl⟩ := Option.map_eq_some_iff.1 h
    simp [putFront, ih hi]
  | case5 _ _ _ _ _ ih =>
    obtain ⟨inner, hi, rfl⟩ := Option.map_eq_some_iff.1 h
    simp [putFront, ih hi]

/-- A scan that needed its end has taken and left what its scanner has. -/
theorem Scan.closed_append {kind : TokenKind} {missing : Cause} {taken : Option (Text × Text)}
    {s : Scan} (h : Scan.closed kind missing taken = .ok s) :
    taken = some (s.tail, s.rest) := by
  cases taken with
  | none => simp [Scan.closed] at h
  | some taken =>
    simp only [Scan.closed, Except.ok.injEq] at h
    subst h
    rfl

theorem Opening.scan_append {o : Opening} {cs : Text} {s : Scan} (h : o.scan cs = .ok s) :
    s.tail ++ s.rest = cs := by
  cases o with
  | nul => simp [Opening.scan] at h
  | blockComment =>
    obtain ⟨inner, hi, he⟩ := Option.map_eq_some_iff.1 (Scan.closed_append h)
    have hd := commentTail_append hi
    obtain ⟨htail, hrest⟩ := Prod.mk.inj he
    rw [← htail, ← hrest, List.append_assoc, hd, List.take_append_drop]
  | string => exact stringTail_append (Scan.closed_append h)
  | lineFeed | punct =>
    cases h
    rfl
  | carriageReturn =>
    cases h
    exact List.take_append_drop 1 cs
  | number =>
    cases h
    exact numeralTail_append _
  | lineComment | space | directive | word | text =>
    cases h
    exact spanAhead_append _ _

theorem scanProse_append {c : Char} {cs : Text} {s : Scan} (h : scanProse c cs = .ok s) :
    s.tail ++ s.rest = cs := by
  unfold scanProse at h
  repeat' split at h
  · simp at h
  · cases h
    rfl
  · cases h
    exact List.take_append_drop 1 cs
  · cases h
    exact spanAhead_append _ _

/-- What a scan takes after the first character and what it leaves make up the text. -/
theorem Mode.scan_append {mode : Mode} {c : Char} {cs : Text} {s : Scan}
    (h : mode.scan c cs = .ok s) : s.tail ++ s.rest = cs := by
  cases mode with
  | script => exact Opening.scan_append h
  | prose => exact scanProse_append h

/-- The lexemes of a text that begins in the given mode. -/
def lexemes (mode : Mode) (t : Text) : Except Refusal (List Lexeme) :=
  match t with
  | [] => .ok []
  | c :: cs =>
    let here := mode.enter (c :: cs)
    match _h : here.scan c cs with
    | .error cause => .error ⟨cause, 0⟩
    | .ok s =>
      let lexeme : Lexeme := ⟨s.kind, c :: s.tail⟩
      match lexemes (here.leave lexeme) s.rest with
      | .error refusal => .error { refusal with offset := refusal.offset + lexeme.raw.length }
      | .ok rest => .ok (lexeme :: rest)
termination_by t.length
decreasing_by
  have hs := congrArg List.length (Mode.scan_append _h)
  simp only [List.length_append] at hs
  simp only [List.length_cons]
  omega

/-- The lexemes of a script. -/
def lexScript (t : Text) : Except Refusal (List Lexeme) := lexemes .script t

end Lexer

/-- Lexemes at their places, the first of them beginning at `p`. -/
def Token.place (p : Position) : List Lexeme → List Token
  | [] => []
  | l :: ls =>
    let stop := p.advance l.raw
    ⟨l, ⟨p, stop⟩⟩ :: Token.place stop ls

/-- The tokens of a script and the place where it ends. -/
structure TokenStream where
  tokens : List Token
  stop : Position
deriving DecidableEq, Repr

namespace TokenStream

/-- The tokens with the one that marks the end of the script. -/
def toList (s : TokenStream) : List Token := s.tokens ++ [⟨⟨.finish, []⟩, Span.point s.stop⟩]

/-- The report on a text that cannot be lexed. -/
def refusalReport (source : Text) (refusal : Lexer.Refusal) : Report :=
  ⟨refusal.cause, Span.column (Position.origin.advance (source.take refusal.offset)), []⟩

/-- The token stream of a script. -/
def ofSource (source : Text) : Except Report TokenStream :=
  match Lexer.lexScript source with
  | .error refusal => .error (refusalReport source refusal)
  | .ok ls => .ok ⟨Token.place .origin ls, Position.origin.advance source⟩

end TokenStream

end MapScript
