import MapScript.Proofs.FixedPoint
import MapScript.Proofs.Symbol.Enclosure

/-!
# Copies of a run

The compact text of copies that begin with a line break each is that of one, on lines
of their own: a line break sets what comes before it apart, so every copy is written
as if it stood first.  Runs without random calls have none after their edits, and such
runs are left where they are.
-/

namespace MapScript

open Grammar (argumentList)

/-! ### Compact text of copies -/

/-- Every part but the first comes behind a separator. -/
theorem Text.join_replicate_succ (separator part : Text) (n : Nat) :
    join separator (List.replicate (n + 1) part) =
      part ++ (List.replicate n (separator ++ part)).flatten := by
  induction n with
  | zero => simp [join]
  | succ n ih =>
      rw [List.replicate_succ, join_cons, if_neg (by simp), ih]
      simp [List.replicate_succ]

namespace Compact

/-- Before anything is written, only what comes counts. -/
theorem renderFrom_of_last_none (keepLines : Bool) {j j' : Joint} (hj : j.last = none)
    (hj' : j'.last = none) (ls : List Lexeme) :
    renderFrom keepLines j ls = renderFrom keepLines j' ls := by
  induction ls generalizing j j' with
  | nil => rfl
  | cons l ls ih =>
      rw [renderFrom, renderFrom]
      split
      · exact ih hj hj'
      · have hseparator : j.separator keepLines l = [] := by rw [Joint.separator, hj]
        have hseparator' : j'.separator keepLines l = [] := by rw [Joint.separator, hj']
        simp [hseparator, hseparator', Joint.write, hj, hj']

/-- Once something is written, something was written last. -/
theorem last_after (keepLines : Bool) {j : Joint} {ls : List Lexeme}
    (h : j.last ≠ none ∨ ∃ l ∈ ls, l.isTrivia = false) : (after keepLines j ls).last ≠ none := by
  induction ls generalizing j with
  | nil => simpa [after] using h
  | cons l ls ih =>
      rw [after]
      split
      · next hl =>
        apply ih
        rcases h with hlast | ⟨m, hm, hs⟩
        · exact Or.inl hlast
        · rcases List.mem_cons.1 hm with rfl | hm
          · rw [hl] at hs
            cases hs
          · exact Or.inr ⟨m, hm, hs⟩
      · exact ih (Or.inl (by simp [Joint.write]))

/-- After a line break lexemes are written as if they stood first. -/
theorem renderFrom_of_lineBreak {j : Joint} (hlast : j.last ≠ none) (hbreak : j.lineBreak = true)
    {ls : List Lexeme} (h : ∃ l ∈ ls, l.isTrivia = false) :
    renderFrom true j ls = '\n' :: render true ls := by
  rw [render]
  have hstart : Joint.start.last = none := rfl
  generalize Joint.start = j' at hstart
  induction ls generalizing j j' with
  | nil => simp at h
  | cons l ls ih =>
      rw [renderFrom, renderFrom]
      cases hl : l.isTrivia with
      | true =>
          have hrest : ∃ m ∈ ls, m.isTrivia = false := by
            obtain ⟨m, hm, hs⟩ := h
            rcases List.mem_cons.1 hm with rfl | hm
            · rw [hl] at hs
              cases hs
            · exact ⟨m, hm, hs⟩
          have hlast' : (j.widen l).last ≠ none := hlast
          have hbreak' : (j.widen l).lineBreak = true := by simp [Joint.widen, hbreak]
          exact ih hlast' hbreak' hrest (j'.widen l) hstart
      | false =>
          obtain ⟨last, hsome⟩ := Option.ne_none_iff_exists'.1 hlast
          have hseparator : j.separator true l = ['\n'] := by
            rw [Joint.separator, hsome, hbreak]
            rfl
          have hseparator' : j'.separator true l = [] := by rw [Joint.separator, hstart]
          simp [hseparator, hseparator', Joint.write, hstart]

/-- Copies that begin with a line break each are written on lines of their own. -/
theorem render_copies {feed : Lexeme} (hfeed : feed.kind = .newline) {ls : List Lexeme}
    (h : render true ls ≠ []) (n : Nat) :
    render true (List.replicate n (feed :: ls)).flatten =
      Text.join ['\n'] (List.replicate n (render true ls)) := by
  have hsome : ∃ l ∈ ls, l.isTrivia = false := by
    by_contra hnone
    push Not at hnone
    exact h (renderFrom_trivia true _ fun l hl => by simpa using hnone l hl)
  have htrivia : feed.isTrivia = true := by simp [Lexeme.isTrivia, hfeed, TokenKind.isTrivia]
  have hlater (n : Nat) {j : Joint} (hj : j.last ≠ none) :
      renderFrom true j (List.replicate n (feed :: ls)).flatten =
        (List.replicate n ('\n' :: render true ls)).flatten := by
    induction n generalizing j with
    | zero => rfl
    | succ n ih =>
        have hlast : (j.widen feed).last ≠ none := hj
        have hbreak : (j.widen feed).lineBreak = true := by simp [Joint.widen, hfeed]
        rw [List.replicate_succ, List.flatten_cons, renderFrom_append, renderFrom, if_pos htrivia,
          renderFrom_of_lineBreak hlast hbreak hsome, ih (last_after true (Or.inl hj))]
        rfl
  cases n with
  | zero => rfl
  | succ n =>
      have hfirst : renderFrom true .start (feed :: ls) = render true ls := by
        rw [renderFrom, if_pos htrivia]
        exact renderFrom_of_last_none true rfl rfl ls
      have hlast : (after true .start (feed :: ls)).last ≠ none := by
        obtain ⟨l, hl, hs⟩ := hsome
        exact last_after true (Or.inr ⟨l, List.mem_cons_of_mem feed hl, hs⟩)
      rw [List.replicate_succ, List.flatten_cons, render, renderFrom_append, hfirst, hlater n hlast,
        Text.join_replicate_succ]
      rfl

end Compact

/-! ### Runs without random calls -/

theorem Token.isWord_of_isTrivia {t : Token} (h : t.isTrivia = true) (name : Text) :
    t.isWord name = false := by
  by_contra hword
  simp only [Token.isWord, Bool.not_eq_false, Bool.and_eq_true, beq_iff_eq] at hword
  rw [Token.isTrivia, hword.1] at h
  cases h

theorem Group.isOk_readPart (ts : List Token) :
    (readPart argumentList 0 ts).isOk = (parens? ts).isSome := by
  rw [Call.parens?_eq]
  cases readPart argumentList 0 ts <;> rfl

/-- What separates at the end closes no group. -/
theorem Group.isOk_readPart_append {tail : List Token} (htail : ∀ t ∈ tail, t.isTrivia = true)
    (depth : Nat) (ts : List Token) :
    (readPart argumentList depth (ts ++ tail)).isOk = (readPart argumentList depth ts).isOk := by
  have isOk_map {f : Group → Group} {x : Except GroupFault Group} :
      (x.map f).isOk = x.isOk := by cases x <;> rfl
  induction ts generalizing depth with
  | nil =>
      induction tail with
      | nil => rfl
      | cons t tail ih =>
          obtain ⟨ht, hrest⟩ := List.forall_mem_cons.1 htail
          have hpunct := Token.isPunct_of_isTrivia ht
          rw [List.nil_append, readPart_token (hpunct _) (hpunct _)]
          exact isOk_map.trans (ih hrest)
  | cons t ts ih =>
      rw [List.cons_append]
      rcases readPart_step depth t with hclose | ⟨d, hgo⟩
      · rw [hclose, hclose]
        rfl
      · rw [hgo, hgo, isOk_map, isOk_map, ih]

namespace RandomCall

theorem isSome_read? (t u : Token) (rest : List Token) :
    (read? (t :: u :: rest)).isSome =
      (t.isWord "rnd".toList && u.isPunct '(' && (Group.parens? rest).isSome) := by
  rw [read?]
  split
  · next h => rw [Option.isSome_map, h, Bool.true_and]
  · next h => rw [Bool.eq_false_iff.2 h]; rfl

/-- No random call stands in the row. -/
def Uncalled (ts : List Token) : Prop := ∀ us, us <:+ ts → read? us = none

theorem Uncalled.of_suffix {ts us : List Token} (h : Uncalled ts) (hus : us <:+ ts) :
    Uncalled us := fun vs hvs => h vs (hvs.trans hus)

theorem uncalled_cons_iff {t : Token} {ts : List Token} :
    Uncalled (t :: ts) ↔ read? (t :: ts) = none ∧ Uncalled ts := by
  constructor
  · intro h
    exact ⟨h _ List.suffix_rfl, h.of_suffix (List.suffix_cons t ts)⟩
  · rintro ⟨hhere, hlater⟩ us hus
    rcases List.suffix_cons_iff.1 hus with rfl | hus
    · exact hhere
    · exact hlater us hus

theorem uncalled_nil : Uncalled [] := by
  intro us hus
  rw [List.suffix_nil.1 hus]
  rfl

/-- Only the name of a random call begins one. -/
theorem uncalled_append {front ts : List Token}
    (hfront : ∀ t ∈ front, t.isWord "rnd".toList = false) (h : Uncalled ts) :
    Uncalled (front ++ ts) := by
  induction front with
  | nil => exact h
  | cons t front ih =>
      obtain ⟨ht, hrest⟩ := List.forall_mem_cons.1 hfront
      rw [List.cons_append, uncalled_cons_iff]
      refine ⟨?_, ih hrest⟩
      cases front ++ ts with
      | nil => rfl
      | cons u rest => rw [← Option.not_isSome_iff_eq_none, isSome_read?, ht]; simp

theorem uncalled_of_isWord {ts : List Token} (h : ∀ t ∈ ts, t.isWord "rnd".toList = false) :
    Uncalled ts := by
  simpa using uncalled_append h uncalled_nil

/-- Whether a random call stands first is seen in the lexemes. -/
theorem isSome_read?_congr {ts ts' : List Token}
    (h : ts.map Token.toLexeme = ts'.map Token.toLexeme) :
    (read? ts).isSome = (read? ts').isSome := by
  cases ts with
  | nil =>
      rw [List.map_nil, eq_comm, List.map_eq_nil_iff] at h
      rw [h]
  | cons t ts =>
      obtain ⟨t', ts', rfl, ht, hts⟩ := List.map_eq_cons_iff.1 h.symm
      cases ts with
      | nil =>
          rw [List.map_nil, List.map_eq_nil_iff] at hts
          rw [hts]
          rfl
      | cons u us =>
          obtain ⟨u', us', rfl, hu, hus⟩ := List.map_eq_cons_iff.1 hts
          have hparens := congrArg Option.isSome (Group.length_parens?_congr hus 0)
          rw [Option.isSome_map, Option.isSome_map] at hparens
          rw [isSome_read?, isSome_read?, Token.isPunct_congr hu, hparens, Token.isWord,
            Token.isWord, ht]

theorem Uncalled.congr {ts ts' : List Token} (h : Uncalled ts)
    (hts : ts.map Token.toLexeme = ts'.map Token.toLexeme) : Uncalled ts' := by
  rintro us' ⟨front', rfl⟩
  rw [List.map_append] at hts
  obtain ⟨front, us, rfl, -, hus⟩ := List.map_eq_append_iff.1 hts
  have hnone := h us (List.suffix_append front us)
  rwa [← Option.not_isSome_iff_eq_none, isSome_read?_congr hus,
    Option.not_isSome_iff_eq_none] at hnone

theorem isSome_read?_append {t : Token} {ts tail : List Token}
    (htail : ∀ t ∈ tail, t.isTrivia = true) :
    (read? (t :: (ts ++ tail))).isSome = (read? (t :: ts)).isSome := by
  cases ts with
  | nil =>
      cases tail with
      | nil => rfl
      | cons u tail =>
          have hu := Token.isPunct_of_isTrivia (htail u (by simp)) '('
          rw [List.nil_append, isSome_read?, hu, Bool.and_false]
          rfl
  | cons u ts =>
      rw [List.cons_append, isSome_read?, isSome_read?, ← Group.isOk_readPart,
        Group.isOk_readPart_append htail, Group.isOk_readPart]

/-- What separates at the end does not count. -/
theorem uncalled_append_trivia_iff {ts tail : List Token}
    (htail : ∀ t ∈ tail, t.isTrivia = true) : Uncalled (ts ++ tail) ↔ Uncalled ts := by
  induction ts with
  | nil =>
      have hword : ∀ t ∈ tail, t.isWord "rnd".toList = false := fun t ht =>
        Token.isWord_of_isTrivia (htail t ht) _
      exact iff_of_true (uncalled_of_isWord hword) uncalled_nil
  | cons t ts ih =>
      rw [List.cons_append, uncalled_cons_iff, uncalled_cons_iff, ih,
        ← Option.not_isSome_iff_eq_none, ← Option.not_isSome_iff_eq_none,
        isSome_read?_append htail]

end RandomCall

/-- A row without random calls has none when parts of it are contracted. -/
theorem Contracts.uncalled {ts us : List Token} (h : Contracts ts us)
    (hts : RandomCall.Uncalled ts) : RandomCall.Uncalled us := by
  induction h with
  | nil => exact hts
  | @keep t ts us hrest ih =>
      obtain ⟨hhere, hlater⟩ := RandomCall.uncalled_cons_iff.1 hts
      refine RandomCall.uncalled_cons_iff.2 ⟨?_, ih hlater⟩
      cases us with
      | nil => rfl
      | cons u us =>
          by_contra hcall
          rw [← ne_eq, Option.ne_none_iff_isSome, RandomCall.isSome_read?, Bool.and_eq_true,
            Bool.and_eq_true, ← Group.isOk_readPart] at hcall
          obtain ⟨⟨hword, hopen⟩, hgroup⟩ := hcall
          -- the parenthesis was there before, and what closes it too
          obtain ⟨ts', rfl, hrest'⟩ := hrest.of_cons (by rw [Token.kind_of_isPunct hopen]; decide)
          rw [← Option.not_isSome_iff_eq_none, RandomCall.isSome_read?, hword, hopen,
            ← Group.isOk_readPart, hrest'.readPart hgroup] at hhere
          exact hhere rfl
  | @contract part numerals ts us hwithin hsome hnumbers hrest ih =>
      have hword : ∀ t ∈ numerals, t.isWord "rnd".toList = false := by
        intro t ht
        simp [Token.isWord, hnumbers t ht]
      exact RandomCall.uncalled_append hword (ih (hts.of_suffix (List.suffix_append part ts)))

namespace Hoist

theorem hoistTokens_uncalled (stem : Text) {ts : List Token} (h : RandomCall.Uncalled ts)
    (recent : List Token) : hoistTokens stem recent ts = pure ts := by
  induction ts generalizing recent with
  | nil => rw [hoistTokens]
  | cons t ts ih =>
      obtain ⟨hhere, hlater⟩ := RandomCall.uncalled_cons_iff.1 h
      rw [hoistTokens_keep (Or.inr hhere), ih hlater, pure_bind]

theorem hoistPieces_eq_pure {stem : Text} {runs : List Run}
    (h : ∀ r ∈ runs, hoistTokens stem [] r.tokens = pure r.tokens) :
    hoistPieces stem (runs.map Piece.run) = pure (runs.map Piece.run) := by
  induction runs with
  | nil => rw [List.map_nil, hoistPieces]
  | cons r runs ih =>
      obtain ⟨hr, hruns⟩ := List.forall_mem_cons.1 h
      rw [List.map_cons, hoistPieces, hr, ih hruns, pure_bind, pure_bind]

end Hoist

/-- Runs of which no call is taken out stay where they are. -/
theorem Script.hoist_eq_pure {stem : Text} {runs : List Run} (span : Span)
    (h : ∀ r ∈ runs, Hoist.hoistTokens stem [] r.tokens = pure r.tokens) (s : Session) :
    (Script.hoist stem ⟨runs.map Piece.run, span⟩).run.run s =
      (.ok ⟨runs.map Piece.run, span⟩, s) := by
  unfold Script.hoist
  rw [Hoist.hoistPieces_eq_pure h]
  rfl

end MapScript
