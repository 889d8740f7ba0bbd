import MapScript.Proofs.Compact
import MapScript.Proofs.Expansion
import MapScript.Proofs.HeaderLines
import MapScript.Proofs.Lines

/-!
# The characters of a text

The text of a script is made of the prose of its headers and of the significant tokens of
its runs.  What is put between them are spaces, line feeds and the marks of comments.
-/

namespace MapScript

variable {c : Char}

/-! ### Parts of texts -/

namespace Text

theorem mem_of_mem_strip {t : Text} (h : c ∈ strip t) : c ∈ t :=
  (List.dropWhile_suffix _).subset (mem_of_mem_dropEndWhile h)

theorem mem_of_mem_lines {t : Text} {l : Line} (hl : l ∈ lines t) (h : c ∈ l.content) : c ∈ t := by
  rw [← (full_lines t).1]
  exact List.mem_flatMap.2 ⟨l, hl, List.mem_append_left _ h⟩

theorem mem_join {separator : Text} {parts : List Text} (h : c ∈ join separator parts) :
    c ∈ separator ∨ ∃ part ∈ parts, c ∈ part := by
  induction parts with
  | nil => exact absurd h List.not_mem_nil
  | cons part parts ih =>
      rw [join_cons, List.mem_append] at h
      rcases h with h | h
      · exact Or.inr ⟨part, List.mem_cons_self, h⟩
      · split at h
        · cases h
        · rcases List.mem_append.1 h with h | h
          · exact Or.inl h
          · exact (ih h).imp_right fun ⟨next, hnext, h⟩ => ⟨next, List.mem_cons_of_mem _ hnext, h⟩

end Text

/-- What the text of a script has between its tokens and around its prose. -/
def fillers : Text := [' ', '\n', '/', '*']

/-! ### Headers -/

namespace Header

theorem mem_setApart {a b : Char} (ha : a ≠ ' ') (hb : b ≠ ' ') {t : Text}
    (h : c ∈ setApart a b t) : c ∈ fillers ∨ c ∈ t := by
  by_cases hblank : c = ' '
  · exact Or.inl (by simp [hblank, fillers])
  · have hkept : c ∈ (setApart a b t).filter (· != ' ') := List.mem_filter.2 ⟨h, by simpa⟩
    rw [filter_setApart ha hb] at hkept
    exact Or.inr (List.mem_filter.1 hkept).1

theorem mem_commentLine {line : Text} (h : c ∈ commentLine line) : c ∈ fillers ∨ c ∈ line := by
  rw [commentLine] at h
  split at h
  · exact Or.inr h
  · have hmarks {t : Text} (ht : t ⊆ fillers) (h : c ∈ t) : c ∈ fillers ∨ c ∈ line := Or.inl (ht h)
    rw [List.mem_append, List.mem_append] at h
    rcases h with (h | h) | h
    · exact hmarks (by decide) h
    · rcases mem_setApart (by decide) (by decide) h with h | h
      · exact Or.inl h
      · exact mem_setApart (by decide) (by decide) h
    · exact hmarks (by decide) h

/-- The comments of a header are made of its prose. -/
theorem mem_lines {header : Header} {line : Text} (hline : line ∈ header.lines) (h : c ∈ line) :
    c ∈ fillers ∨ c ∈ header.text := by
  obtain ⟨content, hcontent, rfl⟩ := List.mem_map.1 hline
  obtain ⟨l, hl, rfl⟩ := List.mem_map.1 (List.mem_filter.1 hcontent).1
  exact (mem_commentLine h).imp_right fun h => Text.mem_of_mem_lines hl (Text.mem_of_mem_strip h)

end Header

/-! ### Runs -/

namespace Compact

theorem mem_renderFrom {keepLines : Bool} {j : Joint} {ls : List Lexeme}
    (h : c ∈ renderFrom keepLines j ls) :
    c ∈ fillers ∨ ∃ l ∈ ls, l.isTrivia = false ∧ c ∈ l.raw := by
  induction ls generalizing j with
  | nil => cases h
  | cons l ls ih =>
      have hlater {j' : Joint} (h : c ∈ renderFrom keepLines j' ls) :
          c ∈ fillers ∨ ∃ m ∈ l :: ls, m.isTrivia = false ∧ c ∈ m.raw :=
        (ih h).imp_right fun ⟨m, hm, h⟩ => ⟨m, List.mem_cons_of_mem _ hm, h⟩
      rw [renderFrom] at h
      split at h
      · exact hlater h
      · next hl =>
        rw [List.mem_append, List.mem_append] at h
        rcases h with (h | h) | h
        · left
          rcases separator_cases keepLines j l with hsep | hsep | hsep <;> rw [hsep] at h
          · cases h
          · simp [fillers, List.mem_singleton.1 h]
          · simp [fillers, List.mem_singleton.1 h]
        · exact Or.inr ⟨l, List.mem_cons_self, by simpa using hl, h⟩
        · exact hlater h

end Compact

/-! ### Scripts -/

/-- A character of the text of a script comes from the prose of a header or from a
significant token of a run, or fills the space between them. -/
theorem mem_engineText {keepLines : Bool} {pieces : List Piece}
    (h : c ∈ engineText keepLines pieces) :
    c ∈ fillers ∨ (∃ header, Piece.header header ∈ pieces ∧ c ∈ header.text) ∨
      ∃ p ∈ pieces, ∃ t ∈ p.tokens, t.isTrivia = false ∧ c ∈ t.raw := by
  rw [engineText] at h
  rcases Text.mem_join h with h | ⟨part, hpart, h⟩
  · exact Or.inl (by simp [fillers, List.mem_singleton.1 h])
  · rcases List.mem_append.1 hpart with hpart | hpart
    · obtain ⟨p, hp, hline⟩ := List.mem_flatMap.1 hpart
      cases p with
      | run r => cases hline
      | cut span => cases hline
      | header header =>
          exact (Header.mem_lines hline h).imp_right fun h => Or.inl ⟨header, hp, h⟩
    · split at hpart
      · cases hpart
      · rw [List.mem_singleton.1 hpart] at h
        refine (Compact.mem_renderFrom h).imp_right fun ⟨l, hl, hs, h⟩ => Or.inr ?_
        obtain ⟨p, hp, hl⟩ := List.mem_flatMap.1 hl
        cases p with
        | run r =>
            obtain ⟨t, ht, rfl⟩ := List.mem_map.1 hl
            exact ⟨_, hp, t, ht, hs, h⟩
        | cut span => cases hl
        | header header => cases hl

end MapScript
