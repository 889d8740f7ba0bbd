import MapScript.Proofs.Respacing.LineEnds

/-!
# From lexeme to lexeme

A text is scanned one lexeme after the other, in script or in prose, up to its end or to
what is refused.  A lexeme sees a few characters behind it, and of these only those that
the lexemes behind it hold: where a text is cut between two lexemes the end of the text
stops every scan that stopped there before.
-/

namespace MapScript.Lexer

open Text (spanAhead)

/-! ### One lexeme after the other -/

theorem Stands.raw_ne_nil {l : Lexeme} {u : Text} (h : Stands l u) : l.raw ≠ [] := by
  obtain ⟨c, tail, hraw, -⟩ := h
  simp [hraw]

/-- The lexemes are scanned one after the other in front of a rest, from one mode to another. -/
inductive Scans : Mode → List Lexeme → Text → Mode → Prop
  | nil {mode : Mode} {rest : Text} : Scans mode [] rest mode
  | script {l : Lexeme} {ls : List Lexeme} {rest : Text} {next : Mode}
      (stands : Stands l (Lexeme.rawText ls ++ rest))
      (later : Scans (if opensHeader l then .prose else .script) ls rest next) :
      Scans .script (l :: ls) rest next
  | close {l : Lexeme} {ls : List Lexeme} {rest : Text} {next : Mode}
      (stands : Stands l (Lexeme.rawText ls ++ rest)) (closes : closesHeader l = true)
      (ends : startsHeaderEnd (l.raw ++ (Lexeme.rawText ls ++ rest)) = true)
      (later : Scans .script ls rest next) : Scans .prose (l :: ls) rest next
  | lineBreak {b : Text} {ls : List Lexeme} {rest : Text} {next : Mode} (isBreak : IsBreak b)
      (later : Scans .prose ls rest next) : Scans .prose (⟨.newline, b⟩ :: ls) rest next
  | line {u : Text} {ls : List Lexeme} {rest : Text} {next : Mode} (ne : u ≠ [])
      (span : spanAhead staysProse (u ++ (Lexeme.rawText ls ++ rest)) =
        (u, Lexeme.rawText ls ++ rest))
      (later : Scans .prose ls rest next) : Scans .prose (⟨.text, u⟩ :: ls) rest next

/-- A lexeme of prose is a line break or the text of a line. -/
theorem scanProse_cases {c : Char} {tail rest : Text} {kind : TokenKind}
    (h : scanProse c (tail ++ rest) = .ok ⟨kind, tail, rest⟩)
    (hends : startsHeaderEnd (c :: tail ++ rest) = false) :
    (kind = .newline ∧ IsBreak (c :: tail)) ∨
      (kind = .text ∧ spanAhead staysProse (c :: tail ++ rest) = (c :: tail, rest)) := by
  unfold scanProse at h
  split_ifs at h with hnul hfeed hbreak
  · rw [Except.ok.injEq, Scan.mk.injEq] at h
    obtain ⟨rfl, rfl, -⟩ := h
    exact Or.inl ⟨rfl, Or.inl (by rw [eq_of_beq hfeed])⟩
  · rw [Except.ok.injEq, Scan.mk.injEq] at h
    obtain ⟨rfl, htail, -⟩ := h
    have hfeed' : ¬c = '\n' := by simpa using hfeed
    simp only [endsLine, Bool.or_eq_true, beq_iff_eq, hfeed', false_or, Bool.and_eq_true] at hbreak
    obtain ⟨rfl, hnext⟩ := hbreak
    rw [List.take_one, hnext] at htail
    exact Or.inl ⟨rfl, Or.inr (by rw [← htail]; rfl)⟩
  · obtain ⟨rfl, hspan⟩ := Scan.of_eq_iff.1 (Except.ok.inj h)
    refine Or.inr ⟨rfl, spanAhead_cons_iff.2 ⟨?_, hspan⟩⟩
    rw [List.cons_append] at hends
    simp [staysProse, hnul, hbreak, hends]

namespace Scans

variable {mode mid next : Mode} {l : Lexeme} {ls ms : List Lexeme} {rest : Text}

/-- A lexeme in front. -/
theorem cons {c : Char} {tail : Text} (hraw : l.raw = c :: tail)
    (hscan : (mode.enter (l.raw ++ (Lexeme.rawText ls ++ rest))).scan c
      (tail ++ (Lexeme.rawText ls ++ rest)) = .ok ⟨l.kind, tail, Lexeme.rawText ls ++ rest⟩)
    (hlater : Scans ((mode.enter (l.raw ++ (Lexeme.rawText ls ++ rest))).leave l) ls rest next) :
    Scans mode (l :: ls) rest next := by
  have hstands (h : scanScript c (tail ++ (Lexeme.rawText ls ++ rest)) =
      .ok ⟨l.kind, tail, Lexeme.rawText ls ++ rest⟩) : Stands l (Lexeme.rawText ls ++ rest) :=
    ⟨c, tail, hraw, h⟩
  cases mode with
  | script =>
      rw [Mode.enter_script] at hscan hlater
      rw [Mode.leave_script] at hlater
      exact .script (hstands hscan) hlater
  | prose =>
      cases hends : startsHeaderEnd (l.raw ++ (Lexeme.rawText ls ++ rest)) with
      | true =>
          have henter : Mode.prose.enter (l.raw ++ (Lexeme.rawText ls ++ rest)) = .script := by
            simp [Mode.enter, hends]
          rw [henter] at hscan hlater
          have hcloses : closesHeader l = true := by
            have hlexeme := scanScript_headerEnd (by rwa [hraw] at hends) hscan
            rwa [← hraw] at hlexeme
          rw [Mode.leave_script, opensHeader_of_closesHeader hcloses, if_neg (by simp)] at hlater
          exact .close (hstands hscan) hcloses hends hlater
      | false =>
          have henter : Mode.prose.enter (l.raw ++ (Lexeme.rawText ls ++ rest)) = .prose := by
            simp [Mode.enter, hends]
          rw [henter] at hscan hlater
          obtain ⟨kind, raw⟩ := l
          dsimp only at hraw hscan hends
          subst hraw
          rcases scanProse_cases hscan hends with ⟨rfl, hbreak⟩ | ⟨rfl, hspan⟩
          · exact .lineBreak hbreak hlater
          · exact .line (List.cons_ne_nil c tail) hspan hlater

/-- What is scanned in front is taken off the text. -/
theorem takes (h : Scans mode ls rest next) : Takes mode ls rest next := by
  induction h with
  | nil => exact .nil _ _
  | script hstands _ ih => exact hstands.takes.append ih
  | close hstands hcloses hends _ ih => exact (hstands.takes_prose hcloses hends).append ih
  | lineBreak hbreak _ ih => exact (hbreak.takes_prose _).append ih
  | line hne hspan _ ih =>
      have htakes := takes_text hspan
      rw [Lexeme.row_of_ne hne] at htakes
      exact htakes.append ih

theorem append_inv (h : Scans mode (ls ++ ms) rest next) :
    ∃ mid, Scans mode ls (Lexeme.rawText ms ++ rest) mid ∧ Scans mid ms rest next := by
  have hrest (ls : List Lexeme) : Lexeme.rawText (ls ++ ms) ++ rest =
      Lexeme.rawText ls ++ (Lexeme.rawText ms ++ rest) := by
    rw [Lexeme.rawText_append, List.append_assoc]
  induction ls generalizing mode with
  | nil => exact ⟨mode, .nil, h⟩
  | cons l ls ih =>
      rw [List.cons_append] at h
      cases h with
      | script hstands hlater =>
          obtain ⟨mid, hls, hms⟩ := ih hlater
          exact ⟨mid, .script (hrest ls ▸ hstands) hls, hms⟩
      | close hstands hcloses hends hlater =>
          obtain ⟨mid, hls, hms⟩ := ih hlater
          rw [hrest] at hstands hends
          exact ⟨mid, .close hstands hcloses hends hls, hms⟩
      | lineBreak hbreak hlater =>
          obtain ⟨mid, hls, hms⟩ := ih hlater
          exact ⟨mid, .lineBreak hbreak hls, hms⟩
      | line hne hspan hlater =>
          obtain ⟨mid, hls, hms⟩ := ih hlater
          rw [hrest] at hspan
          exact ⟨mid, .line hne hspan hls, hms⟩

theorem lexemes_eq (h : Scans mode ls [] next) : lexemes mode (Lexeme.rawText ls) = .ok ls := by
  have htakes := h.takes
  rw [Takes, List.append_nil, lexemes] at htakes
  rw [htakes]
  simp [Except.map, Except.mapError]

/-- What stands behind the lexemes is refused where it stands. -/
theorem refused {c : Char} {cs : Text} {cause : Cause} (h : Scans mode ls (c :: cs) next)
    (hscan : (next.enter (c :: cs)).scan c cs = .error cause) :
    lexemes mode (Lexeme.rawText ls ++ c :: cs) = .error ⟨cause, (Lexeme.rawText ls).length⟩ := by
  have htakes := h.takes
  rw [Takes, lexemes_refused hscan] at htakes
  rw [htakes]
  simp [Except.map, Except.mapError, Refusal.behind]

theorem raw_ne_nil (h : Scans mode ls rest next) : ∀ l ∈ ls, l.raw ≠ [] := by
  induction h with
  | nil => simp
  | script hstands _ ih | close hstands _ _ _ ih =>
      exact List.forall_mem_cons.2 ⟨hstands.raw_ne_nil, ih⟩
  | lineBreak hbreak _ ih =>
      exact List.forall_mem_cons.2 ⟨List.ne_nil_of_length_pos hbreak.length_pos, ih⟩
  | line hne _ _ ih => exact List.forall_mem_cons.2 ⟨hne, ih⟩

end Scans

/-- Every text is scanned up to its end or up to what is refused. -/
theorem exists_scans (mode : Mode) (t : Text) :
    ∃ ls rest next, t = Lexeme.rawText ls ++ rest ∧ Scans mode ls rest next ∧
      (rest = [] ∨ ∃ c cs cause, rest = c :: cs ∧ (next.enter rest).scan c cs = .error cause) := by
  induction hn : t.length using Nat.strongRecOn generalizing mode t with
  | _ n ih =>
      cases t with
      | nil => exact ⟨[], [], mode, rfl, .nil, Or.inl rfl⟩
      | cons c cs =>
          cases hscan : (mode.enter (c :: cs)).scan c cs with
          | error cause =>
              exact ⟨[], c :: cs, mode, rfl, .nil, Or.inr ⟨c, cs, cause, rfl, hscan⟩⟩
          | ok s =>
              have happend := Mode.scan_append hscan
              have hcut : c :: cs = c :: s.tail ++ s.rest := by rw [← happend]; rfl
              obtain ⟨ls, rest, next, hsplit, hscans, hends⟩ := ih s.rest.length
                (by rw [← hn, hcut]; simp) ((mode.enter (c :: cs)).leave ⟨s.kind, c :: s.tail⟩)
                s.rest rfl
              refine ⟨⟨s.kind, c :: s.tail⟩ :: ls, rest, next, ?_, .cons rfl ?_ ?_, hends⟩
              · rw [hcut, hsplit, ← List.append_assoc]
                rfl
              · rw [← hsplit, ← hcut, happend]
                exact hscan
              · rwa [← hsplit, ← hcut]

theorem scans_of_lexemes {mode : Mode} {t : Text} {ls : List Lexeme}
    (h : lexemes mode t = .ok ls) : t = Lexeme.rawText ls ∧ ∃ next, Scans mode ls [] next := by
  obtain ⟨ls', rest, next, rfl, hscans, hends⟩ := exists_scans mode t
  rcases hends with rfl | ⟨c, cs, cause, rfl, hscan⟩
  · rw [List.append_nil, hscans.lexemes_eq, Except.ok.injEq] at h
    subst h
    exact ⟨List.append_nil _, next, hscans⟩
  · rw [hscans.refused hscan] at h
    cases h

theorem scans_of_refusal {mode : Mode} {t : Text} {refusal : Refusal}
    (h : lexemes mode t = .error refusal) :
    ∃ ls c cs next, t = Lexeme.rawText ls ++ c :: cs ∧ Scans mode ls (c :: cs) next ∧
      (next.enter (c :: cs)).scan c cs = .error refusal.cause ∧
      refusal.offset = (Lexeme.rawText ls).length := by
  obtain ⟨ls, rest, next, rfl, hscans, hends⟩ := exists_scans mode t
  rcases hends with rfl | ⟨c, cs, cause, rfl, hscan⟩
  · rw [List.append_nil, hscans.lexemes_eq] at h
    cases h
  · rw [hscans.refused hscan, Except.error.injEq] at h
    subst h
    exact ⟨ls, c, cs, next, rfl, hscans, hscan, rfl⟩

/-! ### Scans before the end of the text -/

/-- A scan stops at the end of a text as it stopped within it, if nothing that follows
keeps it going or stops it. -/
theorem spanAhead_front {p : Char → Text → Bool} {a w u : Text}
    (h : spanAhead p (a ++ (w ++ u)) = (a, w ++ u))
    (hgoes : ∀ x c b, a = x ++ c :: b → p c (b ++ w ++ u) = true → p c (b ++ w) = true)
    (hstop : goesAt p (w ++ u) = false → goesAt p w = false) :
    spanAhead p (a ++ w) = (a, w) := by
  obtain ⟨ha, hw⟩ := spanAhead_iff.1 h
  refine spanAhead_iff.2 ⟨?_, hstop hw⟩
  intro x c b hcut
  apply hgoes x c b hcut
  rw [List.append_assoc]
  exact ha x c b hcut

/-- No line break is cut in two between the texts. -/
def WholeBreak (w u : Text) : Prop := w = ['\r'] → u.head? ≠ some '\n'

theorem goesOn_front {q : Char → Bool} {c : Char} {w u : Text}
    (h : goesOn q c (w ++ u) = true) : goesOn q c w = true := by
  cases w with
  | cons d w => exact h
  | nil =>
      rw [goesOn] at h ⊢
      split
      · rfl
      · next hc => rwa [if_neg hc] at h

theorem goesAt_goesOn_front {q : Char → Bool} {w u : Text} (hwhole : WholeBreak w u)
    (h : goesAt (goesOn q) (w ++ u) = false) : goesAt (goesOn q) w = false := by
  match w with
  | [] => rfl
  | c :: d :: w => exact h
  | [c] =>
      replace h : goesOn q c u = false := h
      show goesOn q c [] = false
      rw [goesOn] at h ⊢
      split
      · next hc =>
        rw [if_pos hc, bne_eq_false_iff_eq] at h
        exact absurd h (hwhole (by rw [hc]))
      · next hc => rwa [if_neg hc] at h

theorem spanAhead_goesOn_front {q : Char → Bool} {a w u : Text} (hwhole : WholeBreak w u)
    (h : spanAhead (goesOn q) (a ++ (w ++ u)) = (a, w ++ u)) :
    spanAhead (goesOn q) (a ++ w) = (a, w) :=
  spanAhead_front h (fun _ _ _ _ => goesOn_front) (goesAt_goesOn_front hwhole)

/-- A lexeme stands before the first part of what it stood before. -/
theorem Stands.front {l : Lexeme} {w u : Text} (h : Stands l (w ++ u))
    (hwhole : WholeBreak w u) : Stands l w := by
  have first {kind : TokenKind} {raw : Text} (hne : raw ≠ [])
      (h : Reads (Lexeme.row kind raw) w) : Stands ⟨kind, raw⟩ w := by
    rw [Lexeme.row_of_ne hne] at h
    exact h.1
  have hne := h.raw_ne_nil
  obtain ⟨kind, raw⟩ := l
  cases hl : Lexeme.isTrivia ⟨kind, raw⟩ with
  | false =>
      have hcalmer := Calmer.append_gap w u (v := []) rfl
      rw [List.append_nil] at hcalmer
      exact h.calmer hl hcalmer
  | true =>
      rcases h.trivia_cases hl with ⟨rfl, hbreak⟩ | ⟨rfl, hspan⟩ | ⟨rfl, ⟨tail, rfl⟩, hspan⟩ |
          ⟨rfl, tail, rfl, hscan⟩
      · exact hbreak.stands w
      · rw [isSpace_eq_goesOn] at hspan
        have hblank := spanAhead_goesOn_front hwhole hspan
        rw [← isSpace_eq_goesOn] at hblank
        exact first hne (reads_blank hblank)
      · rw [endsLine_eq_goesOn] at hspan
        have hline := spanAhead_goesOn_front hwhole hspan
        rw [← endsLine_eq_goesOn] at hline
        exact first hne (reads_lineComment hline)
      · exact stands_blockComment (commentTail_before hscan w)

/-! ### Prose before the end of the text -/

/-- What stands behind a text neither runs on from a header end that is its last word nor is
close enough to be seen from its first character. -/
def Unseen (w u : Text) : Prop :=
  u.head?.any runsOn = false ∨ headerEnd.length + 1 < w.length

theorem Unseen.of_append {v w u : Text} (h : Unseen w u) : Unseen (v ++ w) u := by
  rcases h with hnext | hlength
  · exact Or.inl hnext
  · refine Or.inr (hlength.trans_le ?_)
    rw [List.length_append]
    omega

/-- A header end within a text is seen there, and none is seen that needs what follows. -/
theorem startsHeaderEnd_front {w u : Text} (h : Unseen w u) :
    startsHeaderEnd w = true ↔ startsHeaderEnd (w ++ u) = true ∧ headerEnd.length < w.length := by
  have hsame (hlength : headerEnd.length < w.length) :
      startsHeaderEnd (w ++ u) = startsHeaderEnd w := by
    have hcut : headerEnd.length < (w.take (headerEnd.length + 1)).length := by
      rw [List.length_take]
      omega
    have hnext : (w.drop (headerEnd.length + 1) ++ u).head?.any runsOn =
        (w.drop (headerEnd.length + 1)).head?.any runsOn := by
      cases hrest : w.drop (headerEnd.length + 1) with
      | cons _ _ => rfl
      | nil =>
          rcases h with hnext | hlong
          · exact hnext
          · exact absurd (List.drop_eq_nil_iff.1 hrest) (by omega)
    have hends := startsHeaderEnd_append hcut hnext
    rwa [← List.append_assoc, List.take_append_drop] at hends
  constructor
  · intro hends
    have hlength := (length_of_startsHeaderEnd hends).1
    exact ⟨(hsame hlength).trans hends, hlength⟩
  · rintro ⟨hends, hlength⟩
    rwa [hsame hlength] at hends

/-- Prose goes on in its line over what it went on over before more text. -/
theorem staysProse_front {c : Char} {w u : Text} (hunseen : Unseen (c :: w) u)
    (h : staysProse c (w ++ u) = true) : staysProse c w = true := by
  simp only [staysProse, Bool.not_eq_true', Bool.or_eq_false_iff] at h ⊢
  obtain ⟨⟨hnul, hline⟩, hends⟩ := h
  refine ⟨⟨hnul, ?_⟩, ?_⟩
  · cases w with
    | cons d w => exact hline
    | nil => simpa [endsLine] using (Bool.or_eq_false_iff.1 hline).1
  · by_contra hheader
    rw [Bool.not_eq_false, startsHeaderEnd_front hunseen, List.cons_append, hends] at hheader
    cases hheader.1

/-- The text of a line of prose stands before the first part of what it stood before, if a
header end that follows it is whole. -/
theorem spanAhead_staysProse_front {a w u : Text} (hwhole : WholeBreak w u)
    (hunseen : Unseen w u)
    (hheader : w ≠ [] → startsHeaderEnd (w ++ u) = true → headerEnd.length < w.length)
    (h : spanAhead staysProse (a ++ (w ++ u)) = (a, w ++ u)) :
    spanAhead staysProse (a ++ w) = (a, w) := by
  refine spanAhead_front h (fun x c b _ hgoes => ?_) fun hstop => ?_
  · exact staysProse_front (hunseen.of_append (v := c :: b)) hgoes
  · cases w with
    | nil => rfl
    | cons c w =>
        replace hstop : staysProse c (w ++ u) = false := hstop
        show staysProse c w = false
        simp only [staysProse, Bool.not_eq_false', Bool.or_eq_true] at hstop ⊢
        rcases hstop with (hnul | hline) | hends
        · exact Or.inl (Or.inl hnul)
        · refine Or.inl (Or.inr ?_)
          cases w with
          | cons d w => exact hline
          | nil =>
              by_contra hnot
              simp only [endsLine, List.head?_nil, Bool.or_eq_true, Bool.and_eq_true, beq_iff_eq,
                reduceCtorEq, and_false, or_false] at hline hnot
              obtain ⟨rfl, hfeed⟩ := hline.resolve_left hnot
              exact hwhole rfl hfeed
        · exact Or.inr ((startsHeaderEnd_front hunseen).2 ⟨hends, hheader (by simp) hends⟩)

theorem Stands.ne_return {l : Lexeme} {u : Text} (h : Stands l u) (hraw : l.raw = ['\r']) :
    u.head? ≠ some '\n' := by
  intro hfeed
  obtain ⟨c, tail, hcut, hscan⟩ := h
  rw [hraw, List.cons.injEq] at hcut
  obtain ⟨rfl, rfl⟩ := hcut
  obtain ⟨ds, rfl⟩ := List.head?_eq_some_iff.1 hfeed
  simp [scanScript, opening, endsLine, Opening.scan] at hscan

namespace Scans

variable {mode next : Mode} {ls : List Lexeme} {u : Text}

/-- A carriage return is the whole of what is scanned only if no line feed follows. -/
theorem wholeBreak (h : Scans mode ls u next) : WholeBreak (Lexeme.rawText ls) u := by
  intro hreturn
  have hsingle {l : Lexeme} {ls : List Lexeme} (hne : l.raw ≠ [])
      (h : Lexeme.rawText (l :: ls) = ['\r']) : l.raw = ['\r'] ∧ Lexeme.rawText ls = [] := by
    rw [Lexeme.rawText, List.flatMap_cons, List.append_eq_singleton_iff] at h
    exact h.resolve_left fun hnil => hne hnil.1
  have hraw := h.raw_ne_nil
  cases h with
  | nil => cases hreturn
  | script hstands _ | close hstands _ _ _ =>
      obtain ⟨hl, hls⟩ := hsingle (hraw _ List.mem_cons_self) hreturn
      rw [hls, List.nil_append] at hstands
      exact hstands.ne_return hl
  | lineBreak hbreak _ =>
      obtain ⟨hl, -⟩ := hsingle (hraw _ List.mem_cons_self) hreturn
      rcases hbreak with rfl | rfl <;> simp at hl
  | line _ hspan _ =>
      obtain ⟨hl, hls⟩ := hsingle (hraw _ List.mem_cons_self) hreturn
      dsimp only at hl
      rw [hl, hls, List.nil_append] at hspan
      have hstays := (spanAhead_cons_iff.1 hspan).1
      intro hfeed
      simp [staysProse, endsLine, hfeed] at hstays

/-- A header end that begins in front of a rest ends there. -/
theorem length_of_header (h : Scans .prose ls u next) (hne : Lexeme.rawText ls ≠ [])
    (hends : startsHeaderEnd (Lexeme.rawText ls ++ u) = true) :
    headerEnd.length < (Lexeme.rawText ls).length := by
  have hhash := (length_of_startsHeaderEnd hends).2
  have hraw := h.raw_ne_nil
  cases h with
  | nil => exact absurd rfl hne
  | close _ hcloses _ _ =>
      have hlength := length_of_closesHeader hcloses (hraw _ List.mem_cons_self)
      rw [Lexeme.rawText, List.flatMap_cons, List.length_append]
      omega
  | lineBreak hbreak _ =>
      rcases hbreak with rfl | rfl <;> simp [Lexeme.rawText] at hhash
  | @line w ls _ _ hne' hspan _ =>
      obtain ⟨c, w, rfl⟩ := List.exists_cons_of_ne_nil hne'
      have hstays := (spanAhead_cons_iff.1 hspan).1
      rw [Lexeme.rawText, List.flatMap_cons, List.append_assoc] at hends
      simp only [staysProse, Bool.not_eq_true', Bool.or_eq_false_iff] at hstays
      cases hstays.2.symm.trans hends

/-- The end of the header in which prose goes on is not seen across the end of the lexemes. -/
theorem unseen (h : Scans mode ls u next) (hmode : mode = .prose)
    (hend : next = .prose → u.head?.any runsOn = false) : Unseen (Lexeme.rawText ls) u := by
  induction h with
  | nil => exact Or.inl (hend hmode)
  | script => cases hmode
  | @close l ls u next hstands hcloses hends hlater _ =>
      have hlength := length_of_closesHeader hcloses hstands.raw_ne_nil
      cases ls with
      | nil =>
          rw [Lexeme.rawText_singleton]
          exact Or.inl (next_of_startsHeaderEnd hends hlength)
      | cons m ls =>
          right
          have hm := List.length_pos_of_ne_nil (hlater.raw_ne_nil m List.mem_cons_self)
          rw [Lexeme.rawText, List.flatMap_cons, List.flatMap_cons, List.length_append,
            List.length_append]
          omega
  | lineBreak _ _ ih | line _ _ _ ih => exact (ih rfl hend).of_append

/-- What is scanned in front of a rest is scanned at the end of a text. -/
theorem front (h : Scans mode ls u next) (hend : next = .prose → u.head?.any runsOn = false) :
    Scans mode ls [] next := by
  induction h with
  | nil => exact .nil
  | script hstands hlater ih =>
      refine .script ?_ (ih hend)
      rw [List.append_nil]
      exact hstands.front hlater.wholeBreak
  | @close l ls u next hstands hcloses hends hlater ih =>
      have hlength := length_of_closesHeader hcloses hstands.raw_ne_nil
      have hunseen := (Scans.close hstands hcloses hends hlater).unseen rfl hend
      rw [show Lexeme.rawText (l :: ls) = l.raw ++ Lexeme.rawText ls from rfl] at hunseen
      rw [← List.append_assoc] at hends
      refine .close ?_ hcloses ?_ (ih hend) <;> rw [List.append_nil]
      · exact hstands.front hlater.wholeBreak
      · refine (startsHeaderEnd_front hunseen).2 ⟨hends, ?_⟩
        rw [List.length_append]
        omega
  | lineBreak hbreak _ ih => exact .lineBreak hbreak (ih hend)
  | line hne hspan hlater ih =>
      refine .line hne ?_ (ih hend)
      rw [List.append_nil]
      exact spanAhead_staysProse_front hlater.wholeBreak (hlater.unseen rfl hend)
        hlater.length_of_header hspan

end Scans

end MapScript.Lexer
