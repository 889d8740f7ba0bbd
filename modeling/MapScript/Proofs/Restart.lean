import MapScript.Proofs.Lexing.Scans

/-!
# Reading from a boundary on

A script can be cut in two where one of its tokens begins, unless prose goes on there:
what stands before the place reads as it did, and what stands behind it reads as a script
of its own, at places counted from there.
-/

namespace MapScript

/-! ### Places counted from another -/

namespace Position

/-- The place of what stands at `q` in a text by itself, where the text begins at `p`. -/
def shift (p q : Position) : Position :=
  ⟨p.line + (q.line - 1), if q.line = 1 then p.column + (q.column - 1) else q.column,
    p.offset + q.offset⟩

theorem shift_after (p : Position) (t : Text) : p.shift (after t) = p.advance t := by
  induction t using List.reverseRecOn with
  | nil => simp [shift, after]
  | append_singleton t c ih =>
      rw [advance_append, ← ih, ← next_after, advance_cons, advance_nil]
      by_cases hc : c = '\n'
      · simp [shift, next, after, hc]
        omega
      · simp only [shift, next, after, if_neg hc]
        by_cases hline : 1 + t.count '\n' = 1
        · simp only [hline, if_true, Nat.add_assoc, Position.mk.injEq, and_true, true_and]
          omega
        · simp only [hline, if_false, Nat.add_assoc]

end Position

/-- The token at its place in a text that begins at `p`. -/
def Token.shift (p : Position) (t : Token) : Token :=
  { t with span := ⟨p.shift t.span.start, p.shift t.span.stop⟩ }

theorem Token.place_shift (p : Position) (t : Text) (ls : List Lexeme) :
    place (p.advance t) ls = (place (.after t) ls).map (shift p) := by
  induction ls generalizing t with
  | nil => rfl
  | cons l ls ih =>
      rw [place, place, List.map_cons, ← Position.advance_append, Position.advance_after, ih, shift,
        Position.shift_after, Position.shift_after]

/-! ### Lexemes on both sides of a boundary -/

namespace Lexer

variable {next : Mode} {ls front back : List Lexeme}

/-- Prose goes on only from a header start that no header end follows. -/
theorem Scans.exists_opener {rest : Text} (h : Scans .script ls rest .prose) :
    ∃ before l after, ls = before ++ l :: after ∧ opensHeader l = true ∧
      ∀ m ∈ after, closesHeader m = false := by
  induction ls using List.reverseRecOn generalizing rest with
  | nil => cases h
  | append_singleton ls l ih =>
      obtain ⟨mid, hls, hl⟩ := h.append_inv
      have hlater (hmid : mid = .prose) (hopen : closesHeader l = false) : ∃ before opener after,
          ls ++ [l] = before ++ opener :: after ∧ opensHeader opener = true ∧
            ∀ m ∈ after, closesHeader m = false := by
        subst hmid
        obtain ⟨before, opener, after, rfl, hopens, hafter⟩ := ih hls
        refine ⟨before, opener, after ++ [l], by simp, hopens, ?_⟩
        rw [List.forall_mem_append, List.forall_mem_singleton]
        exact ⟨hafter, hopen⟩
      cases hl with
      | script hstands hnil =>
          refine ⟨ls, l, [], rfl, ?_, by simp⟩
          by_contra hopens
          rw [if_neg hopens] at hnil
          cases hnil
      | close _ _ _ hnil => cases hnil
      | lineBreak | line => exact hlater rfl rfl

/-- What prose goes on with is read as script if it is the header end. -/
theorem Scans.reopen {rest : Text} (h : Scans .prose ls rest next)
    (hend : ∀ l ∈ ls.head?, closesHeader l = true) :
    ls = [] ∨ Scans .script ls rest next ∧ (Lexeme.rawText ls ++ rest).head? = some '#' := by
  cases h with
  | nil => exact Or.inl rfl
  | close hstands hcloses hends hlater =>
      refine Or.inr ⟨.script hstands ?_, ?_⟩
      · rwa [opensHeader_of_closesHeader hcloses, if_neg (by simp)]
      · rw [Lexeme.rawText, List.flatMap_cons, List.append_assoc]
        exact (length_of_startsHeaderEnd hends).2
  | lineBreak | line => cases hend _ rfl

/-- A script is two scripts, one on each side of a boundary outside prose. -/
theorem lexScript_restart (h : lexScript (Lexeme.rawText (front ++ back)) = .ok (front ++ back))
    (hend : Scans .script front (Lexeme.rawText back) .prose →
      ∀ l ∈ back.head?, closesHeader l = true) :
    lexScript (Lexeme.rawText front) = .ok front ∧ lexScript (Lexeme.rawText back) = .ok back := by
  obtain ⟨-, last, hscans⟩ := scans_of_lexemes h
  obtain ⟨mid, hfront, hback⟩ := hscans.append_inv
  rw [List.append_nil] at hfront
  cases mid with
  | script => exact ⟨(hfront.front fun hprose => by cases hprose).lexemes_eq, hback.lexemes_eq⟩
  | prose =>
      rcases hback.reopen (hend hfront) with rfl | ⟨hscript, hhash⟩
      · exact ⟨(hfront.front fun _ => rfl).lexemes_eq, lexScript_nil⟩
      · rw [List.append_nil] at hhash
        exact ⟨(hfront.front fun _ => by rw [hhash]; rfl).lexemes_eq, hscript.lexemes_eq⟩

end Lexer

/-! ### Tokens on both sides of a boundary -/

namespace TokenStream

/-- The token opens a header that goes on at the offset: the header end among the tokens
behind it, or the end of the script if there is none, comes later. -/
structure HeaderOver (opener : Token) (rest : List Token) (offset : Nat) : Prop where
  opens : Lexer.opensHeader opener.toLexeme = true
  starts : opener.span.stop.offset ≤ offset
  ends : ∀ t ∈ rest, Lexer.closesHeader t.toLexeme = true ∨ t.kind = .finish →
    offset < t.span.start.offset

instance (opener : Token) (rest : List Token) (offset : Nat) :
    Decidable (HeaderOver opener rest offset) :=
  decidable_of_iff (_ ∧ _ ∧ _) ⟨fun h => ⟨h.1, h.2.1, h.2.2⟩, fun h => ⟨h.1, h.2, h.3⟩⟩

/-- The offset lies in a header, behind its start. -/
def InHeader (s : TokenStream) (offset : Nat) : Prop :=
  ∃ front opener rest, s.toList = front ++ opener :: rest ∧ HeaderOver opener rest offset

instance (s : TokenStream) (offset : Nat) : Decidable (s.InHeader offset) :=
  decidable_of_iff
    (∃ i ∈ List.range s.toList.length, ∃ opener ∈ s.toList[i]?,
      HeaderOver opener (s.toList.drop (i + 1)) offset) <| by
    constructor
    · rintro ⟨i, -, opener, hopener, hover⟩
      obtain ⟨hlength, rfl⟩ := List.getElem?_eq_some_iff.1 hopener
      refine ⟨s.toList.take i, s.toList[i], s.toList.drop (i + 1), ?_, hover⟩
      rw [← List.drop_eq_getElem_cons hlength, List.take_append_drop]
    · rintro ⟨front, opener, rest, hsplit, hover⟩
      rw [hsplit]
      refine ⟨front.length, by simp, opener, by simp, ?_⟩
      simpa using hover

/-- What stands at a place of the stream is the rest of its tokens and the end. -/
theorem exists_back {s : TokenStream} {front rest : List Token} {t : Token}
    (h : s.toList = front ++ t :: rest) :
    ∃ back, s.tokens = front ++ back ∧
      t :: rest = back ++ [⟨⟨.finish, []⟩, Span.point s.stop⟩] := by
  rcases List.eq_nil_or_concat' (t :: rest) with hnil | ⟨back, last, hback⟩
  · cases hnil
  · rw [toList, hback, ← List.append_assoc] at h
    obtain ⟨htokens, hlast⟩ := List.append_inj' h rfl
    exact ⟨back, htokens, by rw [hback, hlast]⟩

variable {source : Text} {stream : TokenStream} {front rest : List Token} {t : Token}

/-- A token that does not mark the end ends behind its place. -/
theorem offset_lt_of_mem (h : ofSource source = .ok stream)
    (hsplit : stream.toList = front ++ t :: rest) (hkind : t.kind ≠ .finish) {u : Token}
    (hu : u ∈ rest) : t.span.start.offset < u.span.start.offset := by
  obtain ⟨before, after, rfl⟩ := List.append_of_mem hu
  have hlossless := ofSource_lossless h
  have hcut : stream.toList = (front ++ t :: before) ++ u :: after := by simp [hsplit]
  obtain ⟨back, htokens, hback⟩ := exists_back hsplit
  have hraw : t.raw ≠ [] := by
    cases back with
    | nil =>
        rw [List.nil_append, List.cons.injEq] at hback
        exact absurd (by rw [hback.1]) hkind
    | cons b back =>
        obtain rfl : t = b := (List.cons.inj hback).1
        exact ((adjoin_of_ofSource h).2.2.2 t (by simp [htokens])).2
  have hpos := List.length_pos_of_ne_nil hraw
  rw [(hlossless.offsets _ _ _ hsplit).1, (hlossless.offsets _ _ _ hcut).1, Token.rawText_append,
    Token.rawText_cons, List.length_append, List.length_append]
  omega

/-- Where a token begins outside headers, no prose goes on. -/
theorem closesHeader_of_not_inHeader (h : ofSource source = .ok stream)
    (hsplit : stream.toList = front ++ t :: rest) (ht : ¬stream.InHeader t.span.start.offset)
    {text : Text} (hprose : Lexer.Scans .script (front.map Token.toLexeme) text .prose) :
    Lexer.closesHeader t.toLexeme = true ∨ t.kind = .finish := by
  obtain ⟨ls, l, ms, hcut, hopens, hlater⟩ := hprose.exists_opener
  obtain ⟨before, later, rfl, -, hmap⟩ := List.map_eq_append_iff.1 hcut
  obtain ⟨opener, prose, rfl, rfl, rfl⟩ := List.map_eq_cons_iff.1 hmap
  have hlossless := ofSource_lossless h
  have hopener : stream.toList = before ++ opener :: (prose ++ t :: rest) := by simp [hsplit]
  by_contra hnot
  rw [not_or] at hnot
  refine ht ⟨before, opener, prose ++ t :: rest, hopener, ⟨hopens, ?_, ?_⟩⟩
  · rw [(hlossless.offsets _ _ _ hopener).2, (hlossless.offsets _ _ _ hsplit).1,
      List.append_cons before opener prose, Token.rawText_append _ prose, List.length_append]
    omega
  · intro u hu hclosed
    rcases List.mem_append.1 hu with hu | hu
    · -- in the prose up to the token nothing closes the header
      have hopen := hlater _ (List.mem_map_of_mem hu)
      obtain ⟨back, htokens, -⟩ := exists_back hsplit
      rcases hclosed with hcloses | hfinish
      · rw [hopen] at hcloses
        cases hcloses
      · have hmem : u ∈ stream.tokens := by
          rw [htokens]
          simp [hu]
        exact absurd hfinish ((adjoin_of_ofSource h).2.2.2 u hmem).1
    · rcases List.mem_cons.1 hu with rfl | hu
      · exact absurd hclosed (not_or.2 hnot)
      · exact offset_lt_of_mem h hsplit hnot.2 hu

/-- The stream of two scripts one after the other is that of the first and, shifted behind
its text, that of the second. -/
theorem ofSource_append {ls ms : List Lexeme} (h : Lexer.lexScript (Lexeme.rawText (ls ++ ms)) =
      .ok (ls ++ ms))
    (hls : Lexer.lexScript (Lexeme.rawText ls) = .ok ls)
    (hms : Lexer.lexScript (Lexeme.rawText ms) = .ok ms)
    (hstream : ofSource (Lexeme.rawText (ls ++ ms)) = .ok stream) :
    ∃ first second, ofSource (Lexeme.rawText ls) = .ok first ∧
      ofSource (Lexeme.rawText ms) = .ok second ∧
      stream.toList = first.tokens ++
        second.toList.map (Token.shift (.after (Lexeme.rawText ls))) := by
  rw [ofSource, h] at hstream
  cases hstream
  refine ⟨_, _, by rw [ofSource, hls], by rw [ofSource, hms], ?_⟩
  have hplace := Token.place_shift (.after (Lexeme.rawText ls)) [] ms
  have hstop : Position.origin.advance (Lexeme.rawText (ls ++ ms)) =
      (Position.after (Lexeme.rawText ls)).shift (Position.origin.advance (Lexeme.rawText ms)) := by
    rw [Position.advance_origin, Position.advance_origin, Position.shift_after,
      Position.advance_after, Lexeme.rawText_append]
  rw [toList, toList, hstop, Token.place_append, Position.advance_origin, List.map_append,
    List.append_assoc]
  exact congrArg (fun tokens => _ ++ (tokens ++ _)) hplace

/-- A script is read from a boundary on as a script of its own: outside headers it can be cut
where a token begins, and the tokens are those of the first part and, shifted to where it
stands, those of the second. -/
theorem ofSource_restart (h : ofSource source = .ok stream) (ht : t ∈ stream.toList)
    (hheader : ¬stream.InHeader t.span.start.offset) :
    ∃ first second, ofSource (source.take t.span.start.offset) = .ok first ∧
      ofSource (source.drop t.span.start.offset) = .ok second ∧
      stream.toList = first.tokens ++ second.toList.map (Token.shift t.span.start) := by
  obtain ⟨front, rest, hsplit⟩ := List.append_of_mem ht
  obtain ⟨back, htokens, hback⟩ := exists_back hsplit
  obtain ⟨ls, hlex, hls⟩ := lexScript_of_ofSource h
  rw [htokens, List.map_append] at hls
  subst hls
  obtain rfl := (Lexer.rawText_of_lexemes hlex).1
  have hcloses : Lexer.Scans .script (front.map Token.toLexeme)
        (Lexeme.rawText (back.map Token.toLexeme)) .prose →
      ∀ l ∈ (back.map Token.toLexeme).head?, Lexer.closesHeader l = true := by
    intro hprose l hl
    cases back with
    | nil => cases hl
    | cons b back =>
        obtain rfl : t = b := (List.cons.inj hback).1
        obtain rfl : t.toLexeme = l := Option.some.inj hl
        refine (closesHeader_of_not_inHeader h hsplit hheader hprose).resolve_right ?_
        exact ((adjoin_of_ofSource h).2.2.2 t (by simp [htokens])).1
  have hstart : t.span.start = .after (Lexeme.rawText (front.map Token.toLexeme)) := by
    have hadjoin := (adjoin_toList h).2
    rw [hsplit, Token.adjoin_append_iff, Position.advance_origin] at hadjoin
    rw [hadjoin.2.1, Token.rawText_map]
  obtain ⟨hfront, hrest⟩ := Lexer.lexScript_restart hlex hcloses
  rw [hstart, Position.offset_after, Lexeme.rawText_append, List.take_left, List.drop_left]
  exact ofSource_append hlex hfront hrest h

/-- Between a header and the line break behind it. -/
theorem ofSource_restart_header :
    ∃ stream, ofSource "#HEADER_START a\n#HEADER_END\r\n/2".toList = .ok stream ∧
      ∃ t ∈ stream.toList, t.span.start.offset = 27 ∧
        ∃ first second, ofSource "#HEADER_START a\n#HEADER_END".toList = .ok first ∧
          ofSource "\r\n/2".toList = .ok second ∧
          stream.toList = first.tokens ++ second.toList.map (Token.shift t.span.start) := by
  have hruns : (ofSource "#HEADER_START a\n#HEADER_END\r\n/2".toList).toOption.any
      (fun s => decide (∃ t ∈ s.toList, t.span.start.offset = 27 ∧ ¬s.InHeader 27)) = true := by
    decide +kernel
  obtain ⟨stream, hstream, htoken⟩ := toOption_any_iff.1 hruns
  obtain ⟨t, ht, hstart, hheader⟩ := of_decide_eq_true htoken
  have hrestart := ofSource_restart hstream ht (by rwa [hstart])
  rw [hstart] at hrestart
  exact ⟨stream, hstream, t, ht, hstart, hrestart⟩

end TokenStream

end MapScript
