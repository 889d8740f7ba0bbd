import MapScript.Token.Compact
import MapScript.Proofs.Lexing.Boundary

/-!
# Compact text reads as its lexemes

The separators of compact text are chosen from two or three neighbours at a time.
They are right for rows of any length, because a scanner sees no farther than
two characters: the lexeme before a glued pair sees nothing of what comes after.
Lexemes that were made and never read, such as negative numerals, may fall into
several; then they stand alone, for the lexer is asked about every neighbour.
-/

namespace MapScript

theorem Lexeme.rawText_append (ls ms : List Lexeme) :
    rawText (ls ++ ms) = rawText ls ++ rawText ms := List.flatMap_append

namespace Compact

open Lexer

/-- The text of a lexeme, standing alone, reads as the given significant lexemes. -/
structure Spells (l : Lexeme) (ps : List Lexeme) : Prop where
  text : Lexeme.rawText ps = l.raw
  reads : Reads ps []
  nonempty : ps ≠ []
  significant : ∀ p ∈ ps, p.isTrivia = false

/-- A lexeme that can stand alone spells itself. -/
theorem Spells.self {l : Lexeme} (h : Stands l []) (hopens : opensHeader l = false)
    (hl : l.isTrivia = false) : Spells l [l] where
  text := by simp [Lexeme.rawText]
  reads := ⟨by simpa [Lexeme.rawText] using h, hopens, trivial⟩
  nonempty := by simp
  significant := by simpa using hl

theorem Spells.raw_ne_nil {l : Lexeme} {ps : List Lexeme} (h : Spells l ps) : l.raw ≠ [] := by
  intro hnil
  exact h.nonempty (h.reads.eq_nil_of_rawText (h.text.trans hnil))

/-- What is spelled by significant lexemes begins with no space. -/
theorem Spells.head_notMem {l : Lexeme} {ps : List Lexeme} (h : Spells l ps) (t : Text) :
    ∀ c ∈ (l.raw ++ t).head?, c ∉ spaceChars := by
  cases ps with
  | nil => exact absurd rfl h.nonempty
  | cons p ps =>
      obtain ⟨hstands, -, -⟩ := h.reads
      obtain ⟨c, tail, hraw, hc⟩ := hstands.head_notMem (h.significant p (by simp))
      rw [← h.text]
      simpa [Lexeme.rawText, hraw] using hc

/-- A significant lexeme that stands before some text spells nothing but itself. -/
theorem Spells.eq_self {l : Lexeme} {ps : List Lexeme} {u : Text} (h : Spells l ps)
    (hl : l.isTrivia = false) (hstands : Stands l u) : ps = [l] := by
  cases ps with
  | nil => exact absurd rfl h.nonempty
  | cons p ps =>
      obtain ⟨hp, -, hps⟩ := h.reads
      have htext : p.raw ++ Lexeme.rawText ps = l.raw := h.text
      have he : l.raw ++ [] = p.raw ++ (Lexeme.rawText ps ++ []) := by simp [htext]
      obtain ⟨rfl, hnil⟩ := (hstands.alone hl).unique hp he
      rw [hps.eq_nil_of_rawText (by simpa using hnil.symm)]

/-- Lexemes that do not run together are what their text reads as. -/
theorem lexScript_of_merges {ls : List Lexeme} (h : merges ls = false) :
    lexScript (Lexeme.rawText ls) = .ok ls := by
  unfold merges at h
  split at h
  · simp at h
  · next read hread => rw [hread, show read = ls by simpa using h]

theorem stands_of_merges {l : Lexeme} {ls : List Lexeme} (h : merges (l :: ls) = false) :
    Stands l (Lexeme.rawText ls) := by
  obtain ⟨c, tail, rest, htext, hraw, hscan, -⟩ := lexemes_inv (lexScript_of_merges h)
  have hrest : Lexeme.rawText ls = rest := by
    have he : l.raw ++ Lexeme.rawText ls = c :: (tail ++ rest) := htext
    rw [hraw, List.cons_append, List.cons.injEq] at he
    exact List.append_cancel_left he.2
  rw [hrest]
  exact ⟨c, tail, hraw, hscan⟩

theorem merges_of_needsSpace {l r : Lexeme} {gap : Bool} (h : needsSpace l r gap = false) :
    merges [l, r] = false := by
  simp only [needsSpace, Bool.or_eq_false_iff] at h
  exact h.2

/-! ### Text that is written from a place on -/

/-- The place after lexemes that are written from a place on. -/
def after (keepLines : Bool) : Joint → List Lexeme → Joint
  | j, [] => j
  | j, l :: ls =>
    if l.isTrivia then after keepLines (j.widen l) ls
    else after keepLines (j.write (j.separator keepLines l) l) ls

theorem renderFrom_append (keepLines : Bool) (j : Joint) (ls ms : List Lexeme) :
    renderFrom keepLines j (ls ++ ms) =
      renderFrom keepLines j ls ++ renderFrom keepLines (after keepLines j ls) ms := by
  induction ls generalizing j with
  | nil => rfl
  | cons l ls ih =>
      rw [List.cons_append, renderFrom, renderFrom, after]
      split
      · exact ih (j.widen l)
      · simp only [ih, List.append_assoc]

/-- What separates at the end is not written. -/
theorem renderFrom_trivia (keepLines : Bool) (j : Joint) {ls : List Lexeme}
    (h : ∀ l ∈ ls, l.isTrivia = true) : renderFrom keepLines j ls = [] := by
  induction ls generalizing j with
  | nil => rfl
  | cons l ls ih =>
      obtain ⟨hl, hls⟩ := List.forall_mem_cons.1 h
      rw [renderFrom, if_pos hl, ih _ hls]

/-! ### What the lexemes at a joint see -/

section
variable (spelling : Lexeme → List Lexeme)

/-- The lexemes that a joint remembers are significant and spelled, and a glued
pair does not run together. -/
structure Sound (j : Joint) : Prop where
  last : ∀ l, j.last = some l → l.isTrivia = false ∧ Spells l (spelling l)
  glued : ∀ g, j.glued = some g → g.isTrivia = false ∧ ∀ l, j.last = some l → merges [g, l] = false

/-- The lexemes that a joint remembers are still read when a text follows. -/
def Ready (j : Joint) (t : Text) : Prop :=
  ∀ l, j.last = some l → Reads (spelling l) t ∧ ∀ g, j.glued = some g → Stands g (l.raw ++ t)

theorem sound_start : Sound spelling .start := ⟨by simp [Joint.start], by simp [Joint.start]⟩

variable {spelling}

/-- A gap leaves the lexemes before it as they are. -/
theorem Sound.ready_of_gap {j : Joint} (h : Sound spelling j) {t : Text}
    (ht : isGap t.head? = true) : Ready spelling j t := by
  intro l hl
  obtain ⟨-, hspells⟩ := h.last l hl
  refine ⟨hspells.reads.before_gap hspells.significant ht, ?_⟩
  intro g hg
  obtain ⟨hgs, hmerges⟩ := h.glued g hg
  have hstands : Stands g (l.raw ++ []) := by
    simpa [Lexeme.rawText] using stands_of_merges (hmerges l hl)
  exact hstands.calmer hgs (.append_gap l.raw [] ht)

/-- What is written behind a lexeme. -/
theorem separator_of_last {keepLines : Bool} {j : Joint} {last next : Lexeme}
    (h : j.last = some last) :
    j.separator keepLines next =
      if j.lineBreak && keepLines then ['\n']
      else if needsSpace last next j.gap || j.glued.any fun g => merges [g, last, next] then [' ']
      else [] := by
  rw [Joint.separator, h]
  cases j.glued <;> cases hspace : needsSpace last next j.gap <;> simp [hspace]

/-- What an empty separator says about the lexemes on its sides. -/
theorem merges_of_separator {keepLines : Bool} {j : Joint} {l next : Lexeme}
    (h : j.separator keepLines next = []) (hl : j.last = some l) :
    merges [l, next] = false ∧ ∀ g, j.glued = some g → merges [g, l, next] = false := by
  rw [separator_of_last hl] at h
  split at h
  · cases h
  split at h
  · cases h
  · next hspace =>
    rw [Bool.not_eq_true, Bool.or_eq_false_iff] at hspace
    refine ⟨merges_of_needsSpace hspace.1, ?_⟩
    intro g hg
    rw [hg] at hspace
    exact hspace.2

/-- A separator is nothing, a space or a line feed. -/
theorem separator_cases (keepLines : Bool) (j : Joint) (next : Lexeme) :
    j.separator keepLines next = [] ∨ j.separator keepLines next = [' '] ∨
      j.separator keepLines next = ['\n'] := by
  unfold Joint.separator
  split
  · exact Or.inl rfl
  split
  · exact Or.inr (Or.inr rfl)
  split
  · exact Or.inr (Or.inl rfl)
  split
  · exact Or.inl rfl
  split
  · exact Or.inr (Or.inl rfl)
  · exact Or.inl rfl

/-- Writing a spelled lexeme behind its separator leaves a sound joint. -/
theorem Sound.write (keepLines : Bool) {j : Joint} (h : Sound spelling j) {next : Lexeme}
    (hn : next.isTrivia = false) (hspells : Spells next (spelling next)) :
    Sound spelling (j.write (j.separator keepLines next) next) where
  last := by
    intro l hl
    obtain rfl : next = l := by simpa [Joint.write] using hl
    exact ⟨hn, hspells⟩
  glued := by
    intro g hg
    simp only [Joint.write] at hg
    split at hg
    · next hsep =>
      refine ⟨(h.last g hg).1, ?_⟩
      intro l hl
      obtain rfl : next = l := by simpa [Joint.write] using hl
      exact (merges_of_separator (by simpa using hsep) hg).1
    · simp at hg

/-- Where nothing is put between two lexemes, the first and the one glued before
it are read on: a scanner sees the two characters behind its lexeme at most. -/
theorem Sound.ready_of_glue {keepLines : Bool} {j : Joint} (h : Sound spelling j) {next : Lexeme}
    {t : Text} (hsep : j.separator keepLines next = []) (hne : next.raw ≠ [])
    (hready : Ready spelling (j.write [] next) t) : Ready spelling j (next.raw ++ t) := by
  intro l hl
  obtain ⟨hls, hspells⟩ := h.last l hl
  obtain ⟨hmerges, htriple⟩ := merges_of_separator hsep hl
  have hstands : Stands l (next.raw ++ t) := (hready next rfl).2 l hl
  have hself := hspells.eq_self hls hstands
  constructor
  · have hopens := hspells.reads
    rw [hself] at hopens ⊢
    exact ⟨by simpa [Lexeme.rawText] using hstands, hopens.2.1, trivial⟩
  · intro g hg
    have hg3 : Stands g (l.raw ++ next.raw) := by
      simpa [Lexeme.rawText] using stands_of_merges (htriple g hg)
    have htwo : 2 ≤ (l.raw ++ next.raw).length := by
      obtain ⟨c, tail, hraw, -⟩ := hstands
      have := List.length_pos_iff.2 hne
      simp only [hraw, List.length_append, List.length_cons]
      omega
    have hcalm := Calmer.append_two [] t htwo
    rw [List.append_nil, List.append_assoc] at hcalm
    exact hg3.calmer (h.glued g hg).1 hcalm

/-! ### The row that compact text reads as -/

/-- The lexeme that a separator reads as. -/
def separatorRow : Text → List Lexeme
  | [] => []
  | c :: cs => [⟨if c = '\n' then .newline else .blank, c :: cs⟩]

/-- A separator is read before what begins with no space. -/
theorem reads_separatorRow (keepLines : Bool) (j : Joint) (next : Lexeme) {t : Text}
    (ht : ∀ c ∈ t.head?, c ∉ spaceChars) : Reads (separatorRow (j.separator keepLines next)) t := by
  rcases separator_cases keepLines j next with hsep | hsep | hsep
  · rw [hsep]
    trivial
  · rw [hsep]
    exact ⟨stands_space ht, rfl, trivial⟩
  · rw [hsep]
    exact ⟨stands_lineFeed t, rfl, trivial⟩

theorem rawText_separatorRow (separator : Text) :
    Lexeme.rawText (separatorRow separator) = separator := by
  cases separator <;> simp [separatorRow, Lexeme.rawText]

theorem isTrivia_of_mem_separatorRow (separator : Text) :
    ∀ l ∈ separatorRow separator, l.isTrivia = true := by
  cases separator with
  | nil => simp [separatorRow]
  | cons c cs =>
      by_cases hc : c = '\n' <;> simp [separatorRow, hc, Lexeme.isTrivia, TokenKind.isTrivia]

theorem filter_separatorRow (separator : Text) :
    (separatorRow separator).filter (fun l => !l.isTrivia) = [] := by
  rw [List.filter_eq_nil_iff]
  intro l hl
  simp [isTrivia_of_mem_separatorRow separator l hl]

variable (spelling) in
/-- The spellings of lexemes that are written from a place on, with their separators. -/
def rowFrom (keepLines : Bool) : Joint → List Lexeme → List Lexeme
  | _, [] => []
  | j, l :: ls =>
    if l.isTrivia then rowFrom keepLines (j.widen l) ls
    else
      let separator := j.separator keepLines l
      separatorRow separator ++ spelling l ++ rowFrom keepLines (j.write separator l) ls

theorem rawText_rowFrom (keepLines : Bool) {ls : List Lexeme}
    (hls : ∀ l ∈ ls, l.isTrivia = false → Spells l (spelling l)) (j : Joint) :
    Lexeme.rawText (rowFrom spelling keepLines j ls) = renderFrom keepLines j ls := by
  induction ls generalizing j with
  | nil => rfl
  | cons l ls ih =>
      obtain ⟨hl, hls⟩ := List.forall_mem_cons.1 hls
      rw [rowFrom, renderFrom]
      cases htrivia : l.isTrivia with
      | true => exact ih hls (j.widen l)
      | false =>
          dsimp only
          rw [if_neg (by simp), if_neg (by simp), Lexeme.rawText_append, Lexeme.rawText_append,
            rawText_separatorRow,
            (hl htrivia).text, ih hls]

theorem filter_rowFrom (keepLines : Bool) {ls : List Lexeme}
    (hls : ∀ l ∈ ls, l.isTrivia = false → Spells l (spelling l)) (j : Joint) :
    (rowFrom spelling keepLines j ls).filter (fun l => !l.isTrivia) =
      (ls.filter fun l => !l.isTrivia).flatMap spelling := by
  induction ls generalizing j with
  | nil => rfl
  | cons l ls ih =>
      obtain ⟨hl, hls⟩ := List.forall_mem_cons.1 hls
      rw [rowFrom]
      cases htrivia : l.isTrivia with
      | true => simpa [htrivia] using ih hls (j.widen l)
      | false =>
          have hself : (spelling l).filter (fun l => !l.isTrivia) = spelling l :=
            List.filter_eq_self.2 fun p hp => by simp [(hl htrivia).significant p hp]
          dsimp only
          rw [if_neg (by simp), List.filter_append, List.filter_append, filter_separatorRow, hself,
            ih hls, List.filter_cons_of_pos (by simp [htrivia]), List.flatMap_cons, List.nil_append]

/-- What is written from a sound joint on reads as its row, and leaves the lexemes before
it as they are. -/
theorem reads_rowFrom (keepLines : Bool) {ls : List Lexeme}
    (hls : ∀ l ∈ ls, l.isTrivia = false → Spells l (spelling l)) {j : Joint}
    (hj : Sound spelling j) :
    Reads (rowFrom spelling keepLines j ls) [] ∧ Ready spelling j (renderFrom keepLines j ls) := by
  induction ls generalizing j with
  | nil => exact ⟨trivial, hj.ready_of_gap rfl⟩
  | cons l ls ih =>
      obtain ⟨hl, htail⟩ := List.forall_mem_cons.1 hls
      rw [rowFrom, renderFrom]
      cases htrivia : l.isTrivia with
      | true =>
          -- trivia only widens the joint, which remembers the same lexemes
          have hwiden : Sound spelling (j.widen l) := ⟨hj.last, hj.glued⟩
          obtain ⟨hreads, hready⟩ := ih htail hwiden
          exact ⟨hreads, hready⟩
      | false =>
          have hspells := hl htrivia
          obtain ⟨hreads, hready⟩ := ih htail (hj.write keepLines htrivia hspells)
          have hrest := rawText_rowFrom keepLines htail (j.write (j.separator keepLines l) l)
          have hhead := hspells.head_notMem
            (renderFrom keepLines (j.write (j.separator keepLines l) l) ls)
          simp only [Bool.false_eq_true, if_false, List.append_assoc]
          constructor
          · apply Reads.append
            · apply reads_separatorRow
              rw [List.append_nil, Lexeme.rawText_append, hspells.text, hrest]
              exact hhead
            · apply Reads.append _ hreads
              rw [List.append_nil, hrest]
              exact (hready l rfl).1
          · rcases separator_cases keepLines j l with hsep | hsep | hsep
            · rw [hsep] at hready ⊢
              exact hj.ready_of_glue hsep hspells.raw_ne_nil hready
            · rw [hsep]
              exact hj.ready_of_gap rfl
            · rw [hsep]
              exact hj.ready_of_gap rfl

variable (spelling) in
/-- A text reads as the spellings of the significant lexemes, with gaps among them. -/
def ReadsAs (ls : List Lexeme) (t : Text) : Prop :=
  ∃ out, Lexeme.rawText out = t ∧ Reads out [] ∧
    out.filter (fun l => !l.isTrivia) = (ls.filter fun l => !l.isTrivia).flatMap spelling

theorem ReadsAs.lineFeed {ls : List Lexeme} {t : Text} (h : ReadsAs spelling ls t) :
    ReadsAs spelling ls ('\n' :: t) := by
  obtain ⟨out, rfl, hreads, hsig⟩ := h
  exact ⟨⟨.newline, ['\n']⟩ :: out, rfl, ⟨stands_lineFeed _, rfl, hreads⟩, hsig⟩

/-- Compact text reads as the spellings of its lexemes. -/
theorem readsAs_render (keepLines : Bool) {ls : List Lexeme}
    (hls : ∀ l ∈ ls, l.isTrivia = false → Spells l (spelling l)) :
    ReadsAs spelling ls (render keepLines ls) :=
  ⟨rowFrom spelling keepLines .start ls, rawText_rowFrom keepLines hls .start,
    (reads_rowFrom keepLines hls (sound_start spelling)).1, filter_rowFrom keepLines hls .start⟩

end

/-- The compact text of lexemes that spell themselves reads as their row. -/
theorem ofSource_render_of_spells (keepLines : Bool) {ls : List Lexeme}
    (h : ∀ l ∈ ls, l.isTrivia = false → Spells l [l]) :
    ∃ again, TokenStream.ofSource (render keepLines ls) = .ok again ∧
      again.tokens.map Token.toLexeme = rowFrom (fun l => [l]) keepLines .start ls := by
  have hlex := (reads_rowFrom keepLines h (sound_start _)).1.lexScript_rawText
  rw [rawText_rowFrom keepLines h] at hlex
  exact TokenStream.ofSource_of_lexScript hlex

section
variable {source : Text} {stream : TokenStream} (h : TokenStream.ofSource source = .ok stream)
  (hheader : ∀ t ∈ stream.tokens, t.isDirective headerStart = false)
include h hheader

theorem reads_of_ofSource :
    Reads (stream.tokens.map Token.toLexeme) [] ∧
      ∀ l ∈ stream.tokens.map Token.toLexeme, opensHeader l = false := by
  obtain ⟨ls, hlex, rfl⟩ := TokenStream.lexScript_of_ofSource h
  have hopens : ∀ l ∈ stream.tokens.map Token.toLexeme, opensHeader l = false := by
    simpa [opensHeader, Token.isDirective, Token.value] using hheader
  exact ⟨(reads_of_lexScript hlex hopens).2, hopens⟩

/-- The significant lexemes of a script without headers spell themselves. -/
theorem spells_of_ofSource :
    ∀ l ∈ stream.tokens.map Token.toLexeme, l.isTrivia = false → Spells l [l] := by
  obtain ⟨hreads, hopens⟩ := reads_of_ofSource h hheader
  intro l hl hs
  obtain ⟨rest, hstands⟩ := hreads.stands_of_mem hl
  exact .self (hstands.alone hs) (hopens l hl) hs

/-- The compact text of a script without headers reads as its row. -/
theorem ofSource_render (keepLines : Bool) :
    ∃ again, TokenStream.ofSource (render keepLines (stream.tokens.map Token.toLexeme)) =
        .ok again ∧
      again.tokens.map Token.toLexeme =
        rowFrom (fun l => [l]) keepLines .start (stream.tokens.map Token.toLexeme) :=
  ofSource_render_of_spells keepLines (spells_of_ofSource h hheader)

end

/-- Compact text keeps the significant tokens of a script: without headers it can
be read again and holds the same ones, in the same order, kind and spelling alike. -/
theorem ofSource_render_significant (keepLines : Bool) {source : Text} {stream : TokenStream}
    (h : TokenStream.ofSource source = .ok stream)
    (hheader : ∀ t ∈ stream.tokens, t.isDirective headerStart = false) :
    ∃ again, TokenStream.ofSource (render keepLines (stream.tokens.map Token.toLexeme)) =
        .ok again ∧
      (Token.significant again.tokens).map Token.toLexeme =
        (Token.significant stream.tokens).map Token.toLexeme := by
  obtain ⟨again, hagain, htokens⟩ := ofSource_render h hheader keepLines
  refine ⟨again, hagain, ?_⟩
  rw [Token.map_significant, Token.map_significant, htokens,
    filter_rowFrom keepLines (spells_of_ofSource h hheader)]
  simp

/-- Marks that would make a decimal, a directive and a comment if they were glued. -/
theorem ofSource_render_significant_marks :
    ∃ stream, TokenStream.ofSource "1 . 5 # a / * b".toList = .ok stream ∧
      (∀ t ∈ stream.tokens, t.isDirective headerStart = false) ∧
      ∃ again, TokenStream.ofSource (render false (stream.tokens.map Token.toLexeme)) =
          .ok again ∧
        (Token.significant again.tokens).map Token.toLexeme =
          (Token.significant stream.tokens).map Token.toLexeme := by
  obtain ⟨stream, h, hheader⟩ : ∃ stream, TokenStream.ofSource "1 . 5 # a / * b".toList =
      .ok stream ∧ ∀ t ∈ stream.tokens, t.isDirective headerStart = false :=
    ⟨_, by cbv, by decide +kernel⟩
  exact ⟨stream, h, hheader, ofSource_render_significant false h hheader⟩

end Compact

end MapScript
