import MapScript.Proofs.Lexing.Boundary

/-!
# Places of tokens

A script is the texts of its tokens, one after the other.  Every scanner takes a
character at least and leaves the rest, so nothing is lost and no token is empty;
the places are given in a second pass, each token beginning where the one before
it ends.  That pass counts lines and columns as it goes along, and they come out as
if they were counted in the source up to the place.
-/

namespace MapScript

namespace Position

/-- The place after a text, counted in the whole of it. -/
def after (t : Text) : Position :=
  ⟨1 + t.count '\n', 1 + (t.reverse.takeWhile (· != '\n')).length, t.length⟩

@[simp] theorem offset_after (t : Text) : (after t).offset = t.length := rfl

/-- One character is counted as it is passed. -/
theorem next_after (t : Text) (c : Char) : (after t).next c = after (t ++ [c]) := by
  by_cases h : c = '\n'
  · simp [next, after, h, List.count_append, Nat.add_assoc]
  · have hcount : List.count '\n' [c] = 0 := by simp [h]
    simp [next, after, h, List.count_append, hcount, Nat.add_assoc, Nat.add_comm 1]

theorem advance_after (t u : Text) : (after t).advance u = after (t ++ u) := by
  induction u generalizing t with
  | nil => simp
  | cons c u ih =>
      rw [advance_cons, next_after, ih, List.append_assoc]
      rfl

theorem advance_origin (t : Text) : origin.advance t = after t := advance_after [] t

/-- Line and column are those of the offset in the source: a line more for each line
feed before it, a column more for each character since the last one. -/
structure Exact (source : Text) (p : Position) : Prop where
  line : p.line = 1 + (source.take p.offset).count '\n'
  column : p.column = 1 + ((source.take p.offset).reverse.takeWhile (· != '\n')).length

theorem exact_after (front rest : Text) : Exact (front ++ rest) (after front) := by
  constructor <;> simp [after]

end Position

/-! ### Texts of lexemes -/

namespace Lexer

/-- The kind of the lexeme that begins, if one can. -/
def Opening.kind? : Opening → Option TokenKind
  | nul => none
  | blockComment | lineComment => some .comment
  | lineFeed | carriageReturn => some .newline
  | space => some .blank
  | directive => some .directive
  | string => some .string
  | word => some .word
  | number => some .number
  | punct => some .punct
  | text => some .text

theorem Opening.kind?_of_scan {o : Opening} {cs : Text} {s : Scan} (h : o.scan cs = .ok s) :
    o.kind? = some s.kind := by
  have hclosed {kind : TokenKind} {missing : Cause} {taken : Option (Text × Text)}
      (h : Scan.closed kind missing taken = .ok s) : some kind = some s.kind := by
    cases taken with
    | none => cases h
    | some taken =>
        cases h
        rfl
  cases o with
  | nul => cases h
  | blockComment => exact hclosed h
  | string => exact hclosed h
  | lineComment | lineFeed | carriageReturn | space | directive | word | number | punct | text =>
      cases h
      rfl

/-- No scanner reads the end of the script. -/
theorem Mode.kind_of_scan {mode : Mode} {c : Char} {cs : Text} {s : Scan}
    (h : mode.scan c cs = .ok s) : s.kind ≠ .finish := by
  cases mode with
  | script =>
      intro hkind
      have hopening := Opening.kind?_of_scan h
      rw [hkind] at hopening
      generalize opening c cs = o at hopening
      cases o <;> cases hopening
  | prose =>
      simp only [Mode.scan, scanProse] at h
      split_ifs at h
      all_goals
        cases h
        simp [Scan.of]

/-- A text is that of its lexemes, none of which is empty. -/
theorem rawText_of_lexemes {mode : Mode} {t : Text} {ls : List Lexeme}
    (h : lexemes mode t = .ok ls) :
    Lexeme.rawText ls = t ∧ ∀ l ∈ ls, l.kind ≠ .finish ∧ l.raw ≠ [] := by
  fun_induction lexemes mode t generalizing ls with
  | case1 =>
      cases h
      simp [Lexeme.rawText]
  | case2 => cases h
  | case3 => cases h
  | case4 mode c cs here s hscan lexeme rest hrest =>
      next ih =>
      cases h
      obtain ⟨htext, hls⟩ := ih hrest
      constructor
      · show c :: s.tail ++ Lexeme.rawText rest = c :: cs
        rw [htext, List.cons_append, Mode.scan_append hscan]
      · exact List.forall_mem_cons.2 ⟨⟨Mode.kind_of_scan hscan, List.cons_ne_nil _ _⟩, hls⟩

end Lexer

/-! ### Tokens in a row -/

namespace Token

/-- The tokens stand one after the other, the first of them at `p`. -/
def Adjoin : Position → List Token → Prop
  | _, [] => True
  | p, t :: ts => t.span = ⟨p, p.advance t.raw⟩ ∧ Adjoin (p.advance t.raw) ts

theorem adjoin_place (p : Position) (ls : List Lexeme) : Adjoin p (place p ls) := by
  induction ls generalizing p with
  | nil => trivial
  | cons l ls ih => exact ⟨rfl, ih _⟩

theorem rawText_cons (t : Token) (ts : List Token) : rawText (t :: ts) = t.raw ++ rawText ts := rfl

theorem rawText_append (ts us : List Token) : rawText (ts ++ us) = rawText ts ++ rawText us :=
  List.flatMap_append

theorem rawText_map (ts : List Token) : Lexeme.rawText (ts.map toLexeme) = rawText ts := by
  simp [Lexeme.rawText, rawText, List.flatMap_map]

/-- What follows some tokens begins where they end. -/
theorem adjoin_append_iff {p : Position} {ts us : List Token} :
    Adjoin p (ts ++ us) ↔ Adjoin p ts ∧ Adjoin (p.advance (rawText ts)) us := by
  induction ts generalizing p with
  | nil => simp [Adjoin, rawText]
  | cons t ts ih =>
      rw [List.cons_append, Adjoin, Adjoin, ih, rawText_cons, Position.advance_append, and_assoc]

end Token

/-! ### Streams -/

namespace TokenStream

/-- The tokens of a stream make up the source and stand at their places in it. -/
theorem adjoin_of_ofSource {source : Text} {stream : TokenStream}
    (h : ofSource source = .ok stream) :
    Token.rawText stream.tokens = source ∧ Token.Adjoin .origin stream.tokens ∧
      stream.stop = .after source ∧ ∀ t ∈ stream.tokens, t.kind ≠ .finish ∧ t.raw ≠ [] := by
  unfold ofSource at h
  split at h
  · cases h
  · next ls hlex =>
    cases h
    obtain ⟨htext, hls⟩ := Lexer.rawText_of_lexemes hlex
    refine ⟨?_, Token.adjoin_place _ ls, Position.advance_origin source, ?_⟩
    · rw [← Token.rawText_map, Token.map_place, htext]
    · intro t ht
      have hmem := List.mem_map_of_mem (f := Token.toLexeme) ht
      rw [Token.map_place] at hmem
      exact hls _ hmem

/-- The end of the script stands after all other tokens. -/
theorem adjoin_toList {source : Text} {stream : TokenStream} (h : ofSource source = .ok stream) :
    Token.rawText stream.toList = source ∧ Token.Adjoin .origin stream.toList := by
  obtain ⟨htext, hadjoin, hstop, -⟩ := adjoin_of_ofSource h
  constructor
  · rw [toList, Token.rawText_append, htext]
    exact List.append_nil source
  · rw [toList, Token.adjoin_append_iff, htext, Position.advance_origin, ← hstop]
    exact ⟨hadjoin, rfl, trivial⟩

/-- The source is cut into the tokens without a gap, and every place is exact. -/
structure Lossless (source : Text) (ts : List Token) : Prop where
  /-- The texts of the tokens make up the source. -/
  text : Token.rawText ts = source
  /-- One token marks the end, it comes last, and no other is empty. -/
  finish : ∃ front last, ts = front ++ [last] ∧ last.kind = .finish ∧
    ∀ t ∈ front, t.kind ≠ .finish ∧ t.raw ≠ []
  /-- A token begins where the one before it ends. -/
  follows : ∀ front t u rest, ts = front ++ t :: u :: rest → u.span.start = t.span.stop
  /-- Offsets are the lengths of the texts before them. -/
  offsets : ∀ front t rest, ts = front ++ t :: rest →
    t.span.start.offset = (Token.rawText front).length ∧
      t.span.stop.offset = (Token.rawText (front ++ [t])).length
  /-- Lines and columns are those of the offsets. -/
  exact : ∀ t ∈ ts, t.span.start.Exact source ∧ t.span.stop.Exact source

/-- A source that is lexed is cut into its tokens without a loss, and the place of each
is exact. -/
theorem ofSource_lossless {source : Text} {stream : TokenStream}
    (h : ofSource source = .ok stream) : Lossless source stream.toList := by
  obtain ⟨htext, hadjoin⟩ := adjoin_toList h
  have hspan : ∀ front t rest, stream.toList = front ++ t :: rest →
      t.span = ⟨.after (Token.rawText front), .after (Token.rawText (front ++ [t]))⟩ := by
    intro front t rest hsplit
    rw [hsplit, Token.adjoin_append_iff, Position.advance_origin] at hadjoin
    rw [hadjoin.2.1, Position.advance_after, Token.rawText_append, Token.rawText_cons t [],
      show Token.rawText [] = [] from rfl, List.append_nil]
  refine ⟨htext, ?_, ?_, ?_, ?_⟩
  · exact ⟨stream.tokens, _, rfl, rfl, (adjoin_of_ofSource h).2.2.2⟩
  · intro front t u rest hsplit
    have hu : stream.toList = (front ++ [t]) ++ u :: rest := by simp [hsplit]
    rw [hspan front t (u :: rest) hsplit, hspan (front ++ [t]) u rest hu]
  · intro front t rest hsplit
    rw [hspan front t rest hsplit]
    exact ⟨rfl, rfl⟩
  · intro t ht
    obtain ⟨front, rest, hsplit⟩ := List.append_of_mem ht
    have hstop : source = Token.rawText (front ++ [t]) ++ Token.rawText rest := by
      rw [← htext, hsplit, ← Token.rawText_append, List.append_assoc, List.singleton_append]
    have hstart : source = Token.rawText front ++ Token.rawText (t :: rest) := by
      rw [← htext, hsplit, Token.rawText_append]
    rw [hspan front t rest hsplit]
    constructor
    · rw [hstart]
      exact Position.exact_after _ _
    · rw [hstop]
      exact Position.exact_after _ _

/-- A header with a wide line break in it, a nested comment and an escaped quote. -/
theorem ofSource_lossless_header :
    ∃ stream, ofSource "#HEADER_START a\r\nb #HEADER_END\n/* x\n/**/ */ \"q\\\"\"".toList =
        .ok stream ∧
      Lossless "#HEADER_START a\r\nb #HEADER_END\n/* x\n/**/ */ \"q\\\"\"".toList
        stream.toList := by
  have hok : (ofSource "#HEADER_START a\r\nb #HEADER_END\n/* x\n/**/ */ \"q\\\"\"".toList).isOk =
      true := by
    decide +kernel
  cases h : ofSource "#HEADER_START a\r\nb #HEADER_END\n/* x\n/**/ */ \"q\\\"\"".toList with
  | error e =>
      rw [h] at hok
      cases hok
  | ok stream => exact ⟨stream, rfl, ofSource_lossless h⟩

end TokenStream

end MapScript
