import MapScript.Proofs.Lexing.LineBreak

/-!
# Space between lexemes

A text of space characters is read as what separates, whatever it is cut into, and a
line feed in it is part of a line break.
-/

namespace MapScript.Lexer

open Text (spanAhead)

/-- Space within a line, or a line break. -/
def Separates (l : Lexeme) : Prop :=
  (l.kind = .blank ∧ '\n' ∉ l.raw) ∨ (l.kind = .newline ∧ '\n' ∈ l.raw)

theorem Separates.isTrivia {l : Lexeme} (h : Separates l) : l.isTrivia = true := by
  rcases h with ⟨hkind, -⟩ | ⟨hkind, -⟩ <;> rw [Lexeme.isTrivia, hkind] <;> rfl

/-- A scan of space ends before what is none, if not earlier. -/
theorem spanAhead_isSpace {w r : Text} (hr : ∀ c ∈ r.head?, c ∉ spaceChars) :
    (∀ c ∈ w, c ∈ spaceChars) →
      ∃ a v, w = a ++ v ∧ spanAhead isSpace (w ++ r) = (a, v ++ r) ∧ '\n' ∉ a := by
  intro hw
  induction w with
  | nil =>
      refine ⟨[], [], rfl, ?_, by simp⟩
      cases r with
      | nil => rfl
      | cons c cs =>
          have hc := hr c (by simp)
          simp only [spaceChars, List.mem_cons, List.not_mem_nil, or_false, not_or] at hc
          simp [spanAhead, isSpace, hc]
  | cons c w ih =>
      obtain ⟨-, hw⟩ := List.forall_mem_cons.1 hw
      cases hspace : isSpace c (w ++ r) with
      | false => exact ⟨[], c :: w, rfl, by simp [spanAhead, hspace], by simp⟩
      | true =>
          obtain ⟨a, v, rfl, hspan, hfeed⟩ := ih hw
          have hc : c ≠ '\n' := by
            rintro rfl
            simp [isSpace] at hspace
          exact ⟨c :: a, v, rfl, spanAhead_cons_iff.2 ⟨hspace, hspan⟩,
            by simp [hfeed, hc.symm]⟩

/-- What begins with a space character and goes on with more of them. -/
theorem stands_separates {c : Char} {w r : Text} (hw : ∀ d ∈ c :: w, d ∈ spaceChars)
    (hr : ∀ d ∈ r.head?, d ∉ spaceChars) :
    ∃ l v, Separates l ∧ l.raw ≠ [] ∧ c :: w = l.raw ++ v ∧ Stands l (v ++ r) := by
  obtain ⟨hc, hw⟩ := List.forall_mem_cons.1 hw
  have hopen := opening_spaceChars hc (w ++ r)
  simp only [List.mem_cons, List.not_mem_nil, or_false] at hopen
  rcases hopen with hopen | hopen | hopen
  · obtain ⟨a, v, rfl, hspan, hfeed⟩ := spanAhead_isSpace hr hw
    have hne : c ≠ '\n' := by
      rintro rfl
      simp [opening] at hopen
    refine ⟨⟨.blank, c :: a⟩, v, Or.inl ⟨rfl, by simp [hfeed, hne.symm]⟩, by simp, rfl, c, a, rfl,
      ?_⟩
    rw [List.append_assoc] at hopen hspan
    rw [scanScript, hopen, Opening.scan, hspan]
    rfl
  · obtain rfl := opening_eq_lineFeed hopen
    exact ⟨⟨.newline, ['\n']⟩, w, Or.inr ⟨rfl, by simp⟩, by simp, rfl, stands_lineFeed _⟩
  · obtain ⟨rfl, hfeed⟩ := opening_eq_carriageReturn hopen
    cases w with
    | nil => exact absurd (by simp [spaceChars]) (hr '\n' (by simpa using hfeed))
    | cons d w =>
        obtain rfl : d = '\n' := by simpa using hfeed
        exact ⟨⟨.newline, ['\r', '\n']⟩, w, Or.inr ⟨rfl, by simp⟩, by simp, rfl,
          stands_carriageReturn _⟩

/-- A text of space characters is read as separators, before what is no space. -/
theorem reads_space {w r : Text} (hw : ∀ c ∈ w, c ∈ spaceChars)
    (hr : ∀ c ∈ r.head?, c ∉ spaceChars) :
    ∃ g, Lexeme.rawText g = w ∧ (∀ l ∈ g, Separates l) ∧ Reads g r := by
  induction hn : w.length using Nat.strongRecOn generalizing w with
  | _ n ih =>
      cases w with
      | nil => exact ⟨[], rfl, by simp, trivial⟩
      | cons c w =>
          obtain ⟨l, v, hl, hne, hcut, hstands⟩ := stands_separates hw hr
          have hlength := congrArg List.length hcut
          have hpos := List.length_pos_of_ne_nil hne
          rw [List.length_append, hn] at hlength
          have hv : ∀ c ∈ v, c ∈ spaceChars := fun c hc => hw c (by simp [hcut, hc])
          obtain ⟨g, rfl, hg, hreads⟩ := ih v.length (by omega) hv rfl
          exact ⟨l :: g, hcut.symm, List.forall_mem_cons.2 ⟨hl, hg⟩, hstands,
            opensHeader_of_isTrivia hl.isTrivia, hreads⟩

/-- A line break holds a line feed. -/
theorem Stands.lineFeed_mem {l : Lexeme} {u : Text} (h : Stands l u) (hkind : l.kind = .newline) :
    '\n' ∈ l.raw := by
  have hl : l.isTrivia = true := by
    rw [Lexeme.isTrivia, hkind]
    rfl
  rcases h.trivia_cases hl with ⟨-, hbreak⟩ | ⟨hother, -⟩ | ⟨hother, -⟩ | ⟨hother, -⟩
  · rcases hbreak with hraw | hraw <;> simp [hraw]
  all_goals
    rw [hkind] at hother
    cases hother

theorem mem_spaceChars_of_isSpace {c : Char} {cs : Text} (h : isSpace c cs = true) :
    c ∈ spaceChars := by
  simp only [isSpace, Bool.or_eq_true, Bool.and_eq_true, beq_iff_eq] at h
  simp only [spaceChars, List.mem_cons]
  tauto

theorem mem_spaceChars_of_spanAhead (t : Text) :
    ∀ c ∈ (spanAhead isSpace t).1, c ∈ spaceChars := by
  induction t with
  | nil => simp [spanAhead]
  | cons d t ih =>
      rw [spanAhead]
      split
      · next hspace => exact List.forall_mem_cons.2 ⟨mem_spaceChars_of_isSpace hspace, ih⟩
      · simp

/-- What separates and is no comment is made of space characters. -/
theorem Stands.mem_spaceChars {l : Lexeme} {u : Text} (h : Stands l u) (hl : l.isTrivia = true)
    (hcomment : l.kind ≠ .comment) : ∀ c ∈ l.raw, c ∈ spaceChars := by
  rcases h.trivia_cases hl with ⟨-, hbreak⟩ | ⟨-, hspan⟩ | ⟨hkind, -⟩ | ⟨hkind, -⟩
  · rcases hbreak with hraw | hraw <;> simp [hraw, spaceChars]
  · have hmem := mem_spaceChars_of_spanAhead (l.raw ++ u)
    rwa [hspan] at hmem
  · exact absurd hkind hcomment
  · exact absurd hkind hcomment

end MapScript.Lexer
