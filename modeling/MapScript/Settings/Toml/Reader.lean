import MapScript.Settings.Toml.Scalar
import MapScript.Settings.Toml.Table

/-!
# Settings files

A settings file is a row of statements, one on a line: a table name in brackets,
a list of tables in double brackets, or a key with its value.  Lists may go over
several lines; what comes first in the text is refused first.
-/

namespace MapScript.Settings.Toml

/-- A result that must be there. -/
def orMalformed : Option α → Except ReadFault α
  | some a => .ok a
  | none => .error .malformed

/-! ### Keys -/

/-- Whether a character can stand in a bare key. -/
def isKeyChar (c : Char) : Bool := c.isAlphanum || c == '_' || c == '-'

/-- Whether a key begins with a character. -/
def startsKey (c : Char) : Bool := isKeyChar c || c == '"' || c == '\''

/-- A part of a key: a bare name or a string on one line. -/
def keyPart (t : Text) : Except ReadFault (Reading Text t.length) :=
  match lineString? t with
  | some (.error e) => .error e
  | some (.ok scan) => Reading.ofScan t.length scan
  | none => Reading.ofScan t.length (t.takeWhile isKeyChar, t.dropWhile isKeyChar)

/-- The space at the front only makes a text longer. -/
theorem length_dropSpace_le (t : Text) : (dropSpace t).length ≤ t.length :=
  (List.dropWhile_suffix isSpace).length_le

/-- A key: parts with points between them, and space around each. -/
def key (t : Text) : Except ReadFault (Reading Key t.length) :=
  match keyPart t with
  | .error e => .error e
  | .ok part =>
    match _h : dropSpace part.rest with
    | '.' :: more =>
      match key (dropSpace more) with
      | .error e => .error e
      | .ok later =>
        .ok ⟨part.value :: later.value, later.rest, by
          have hl := later.shorter
          have hm := length_dropSpace_le more
          have hd := length_dropSpace_le part.rest
          have hp := part.shorter
          rw [_h, List.length_cons] at hd
          omega⟩
    | rest =>
      .ok ⟨[part.value], rest, by
        have hd := length_dropSpace_le part.rest
        have hp := part.shorter
        rw [_h] at hd
        omega⟩
termination_by t.length
decreasing_by
  have hm := length_dropSpace_le more
  have hd := length_dropSpace_le part.rest
  have hp := part.shorter
  rw [_h, List.length_cons] at hd
  omega

/-- A key and the equals sign after it, with the space around. -/
def keyBeforeEquals (t : Text) : Except ReadFault (Reading Key t.length) :=
  match key t with
  | .error e => .error e
  | .ok k =>
    match k.rest with
    | '=' :: rest => Reading.ofScan t.length (k.value, dropSpace rest)
    | _ => .error .malformed

/-! ### Values -/

mutual

/-- A value. -/
def value (t : Text) : Except ReadFault (Reading Value t.length) :=
  match t with
  | '[' :: cs =>
    match items cs with
    | .error e => .error e
    | .ok r => .ok ⟨.list r.value, r.rest, Nat.lt_succ_of_lt r.shorter⟩
  | '\x7b' :: cs =>
    match _h : dropSpace cs with
    | '\x7d' :: rest => Reading.ofScan (cs.length + 1) (.table [], rest)
    | inner =>
      match inline {} inner with
      | .error e => .error e
      | .ok r => .ok ⟨.table r.value, r.rest, by
          have hd := length_dropSpace_le cs
          have hr := r.shorter
          rw [_h] at hd
          simp only [List.length_cons]
          omega⟩
  | t =>
    match scalar t with
    | .error e => .error e
    | .ok scan => Reading.ofScan t.length scan
termination_by 2 * t.length
decreasing_by
  · simp only [List.length_cons]
    omega
  · have hd := length_dropSpace_le cs
    rw [_h] at hd
    simp only [List.length_cons]
    omega

/-- The items of a list up to its end; a comma may follow the last. -/
def items (t : Text) : Except ReadFault (Reading (List Value) t.length) :=
  match _h : skipGap false t with
  | .error e => .error e
  | .ok (']' :: rest) => Reading.ofScan t.length ([], rest)
  | .ok here =>
    match value here with
    | .error e => .error e
    | .ok item =>
      match _hs : skipGap false item.rest with
      | .ok (']' :: rest) => Reading.ofScan t.length ([item.value], rest)
      | .ok (',' :: rest) =>
        match items rest with
        | .error e => .error e
        | .ok later =>
          .ok ⟨item.value :: later.value, later.rest, by
            have hg := length_skipGap_le _h
            have hs := length_skipGap_le _hs
            have hi := item.shorter
            have hl := later.shorter
            rw [List.length_cons] at hs
            omega⟩
      | _ => .error .malformed
termination_by 2 * t.length + 1
decreasing_by
  · have hg := length_skipGap_le _h
    omega
  · have hg := length_skipGap_le _h
    have hs := length_skipGap_le _hs
    have hi := item.shorter
    rw [List.length_cons] at hs
    omega

/-- The fields of a table on one line up to its end, after those read before. -/
def inline (table : Inline) (t : Text) : Except ReadFault (Reading Fields t.length) :=
  match keyBeforeEquals t with
  | .error e => .error e
  | .ok k =>
    match value k.rest with
    | .error e => .error e
    | .ok v =>
      match table.add k.value v.value with
      | none => .error .malformed
      | some table =>
        match _h : dropSpace v.rest with
        | '\x7d' :: rest => Reading.ofScan t.length (table.fields, rest)
        | ',' :: rest =>
          match inline table (dropSpace rest) with
          | .error e => .error e
          | .ok r => .ok ⟨r.value, r.rest, by
              have hk := k.shorter
              have hv := v.shorter
              have hd := length_dropSpace_le v.rest
              have hr := length_dropSpace_le rest
              have hs := r.shorter
              rw [_h, List.length_cons] at hd
              omega⟩
        | _ => .error .malformed
termination_by 2 * t.length + 1
decreasing_by
  · have hk := k.shorter
    omega
  · have hk := k.shorter
    have hv := v.shorter
    have hd := length_dropSpace_le v.rest
    have hr := length_dropSpace_le rest
    rw [_h, List.length_cons] at hd
    omega

end

/-! ### Statements -/

/-- The name of a table in brackets, after the opening ones. -/
def header (close : Text) (t : Text) : Except ReadFault (Key × Text) :=
  match key (dropSpace t) with
  | .error e => .error e
  | .ok k =>
    if close.isPrefixOf k.rest then .ok (k.value, k.rest.drop close.length)
    else .error .malformed

/-- A statement and what follows it on its line. -/
def statement (d : Document) (t : Text) : Except ReadFault (Document × Text) :=
  match t with
  | '[' :: '[' :: cs => do
    let (k, rest) ← header "]]".toList cs
    return (← orMalformed (d.openListed k), rest)
  | '[' :: cs => do
    let (k, rest) ← header "]".toList cs
    return (← orMalformed (d.openTable k), rest)
  | c :: cs =>
    if startsKey c then
      match keyBeforeEquals (c :: cs) with
      | .error e => .error e
      | .ok k =>
        match value k.rest with
        | .error e => .error e
        | .ok v => do return (← orMalformed (d.add k.value v.value), v.rest)
    else .ok (d, t)
  | [] => .ok (d, t)

/-- A line: a statement or none, then nothing but space and a comment. -/
def line (d : Document) (t : Text) : Except ReadFault (Reading Document t.length) := do
  let (d, rest) ← statement d (dropSpace t)
  let rest ← nextLine false rest
  Reading.ofScan t.length (d, rest)

/-- Reads all lines. -/
def lines (d : Document) (t : Text) : Except ReadFault Document :=
  match t with
  | [] => .ok d
  | c :: cs =>
    match line d (c :: cs) with
    | .error e => .error e
    | .ok r => lines r.value r.rest
termination_by t.length
decreasing_by exact r.shorter

/-- The text with every carriage return before a line feed left out. -/
def joinLineEnds : Text → Text
  | '\r' :: '\n' :: cs => '\n' :: joinLineEnds cs
  | c :: cs => c :: joinLineEnds cs
  | [] => []

/-- The settings of a file. -/
def parse (t : Text) : Except ReadFault Value :=
  (lines {} (joinLineEnds t)).map fun d => .table d.fields

end MapScript.Settings.Toml
