import MapScript.Proofs.Lexing.LineBreak
import MapScript.Proofs.Lexing.Prose

/-!
# What a scan sees of the text behind it

A lexeme that separates sees one character behind it, and after a carriage return two.
Prose sees as far as a header end directive reaches, so it is read the same before
texts that are the same up to there.
-/

namespace MapScript.Lexer

open Text (spanAhead)

/-- Whether a scan goes on at the front of a text. -/
def goesAt (p : Char → Text → Bool) : Text → Bool
  | [] => false
  | c :: cs => p c cs

/-- A scan ends before a text where it ends before another, if it goes on at the same
places. -/
theorem spanAhead_before {p : Char → Text → Bool} {a u v : Text}
    (h : spanAhead p (a ++ u) = (a, u)) (hp : ∀ w, goesAt p (w ++ u) = goesAt p (w ++ v)) :
    spanAhead p (a ++ v) = (a, v) := by
  have hstop {u : Text} : spanAhead p u = ([], u) ↔ goesAt p u = false := by
    cases u with
    | nil => simp [spanAhead, goesAt]
    | cons c cs => exact spanAhead_nil_iff
  induction a with
  | nil => exact hstop.2 ((hp []).symm.trans (hstop.1 h))
  | cons c a ih =>
      obtain ⟨hc, ha⟩ := spanAhead_cons_iff.1 h
      refine spanAhead_cons_iff.2 ⟨?_, ih ha⟩
      have hgoes : p c (a ++ u) = p c (a ++ v) := hp (c :: a)
      exact hgoes.symm.trans hc

/-! ### Separators -/

/-- Texts that look the same to what separates. -/
structure LooksLike (u v : Text) : Prop where
  head : u.head? = v.head?
  next : u.head? = some '\r' → u.tail.head? = v.tail.head?

theorem LooksLike.append {u v : Text} (h : u.head? = v.head?) (hne : u.head? ≠ some '\r')
    (w : Text) : LooksLike (w ++ u) (w ++ v) := by
  match w with
  | [] => exact ⟨h, fun hreturn => absurd hreturn hne⟩
  | [x] => exact ⟨rfl, fun _ => h⟩
  | x :: y :: w => exact ⟨rfl, fun _ => rfl⟩

theorem LooksLike.goesAt_eq {u v : Text} (h : LooksLike u v) (q : Char → Bool) (w : Text) :
    goesAt (goesOn q) (w ++ u) = goesAt (goesOn q) (w ++ v) := by
  match w with
  | x :: y :: w => exact goesOn_congr fun _ => rfl
  | [x] => exact goesOn_congr fun _ => h.head
  | [] =>
      obtain ⟨hhead, hnext⟩ := h
      cases u with
      | nil =>
          cases v with
          | nil => rfl
          | cons d ds => simp at hhead
      | cons c cs =>
          cases v with
          | nil => simp at hhead
          | cons d ds =>
              obtain rfl : c = d := by simpa using hhead
              exact goesOn_congr fun hc => hnext (by rw [hc]; rfl)

/-- What separates stands before every text that looks the same. -/
theorem Stands.of_looksLike {l : Lexeme} {u v : Text} (h : Stands l u) (hl : l.isTrivia = true)
    (hlook : LooksLike u v) : Stands l v := by
  rcases h.closed_or_runs hl with hclosed | ⟨c, tail, q, hraw, -, hspan, hstands⟩
  · exact hclosed v
  · have hopen : opening c (tail ++ v) = opening c (tail ++ u) := by
      apply opening_congr
      cases tail with
      | nil => exact hlook.head.symm
      | cons x tail => rfl
    have hlexeme := hstands tail v hopen (spanAhead_before hspan (hlook.goesAt_eq q))
    rwa [← hraw] at hlexeme

/-- A row of separators before what begins with the same character of a lexeme. -/
theorem Reads.of_head? {g : List Lexeme} {u v : Text} (h : Reads g u)
    (hg : ∀ l ∈ g, l.isTrivia = true) (hhead : u.head? = v.head?)
    (hne : u.head? ≠ some '\r') : Reads g v := by
  induction g with
  | nil => trivial
  | cons l g ih =>
      obtain ⟨hstands, hopens, hreads⟩ := h
      obtain ⟨hl, hg⟩ := List.forall_mem_cons.1 hg
      exact ⟨hstands.of_looksLike hl (.append hhead hne _), hopens, ih hreads hg⟩

/-! ### Prose -/

theorem length_of_startsHeaderEnd {t : Text} (h : startsHeaderEnd t = true) :
    headerEnd.length < t.length ∧ t.head? = some '#' := by
  unfold startsHeaderEnd at h
  split at h
  · next cs =>
    rw [Bool.and_eq_true, beq_iff_eq] at h
    have hlength := congrArg List.length h.1
    rw [Text.upper, List.length_map, List.length_take] at hlength
    refine ⟨?_, rfl⟩
    rw [List.length_cons]
    omega
  · cases h

/-- The directive that closes a header is its hash sign and its name. -/
theorem length_of_closesHeader {l : Lexeme} (h : closesHeader l = true) (hne : l.raw ≠ []) :
    l.raw.length = headerEnd.length + 1 := by
  rw [closesHeader, Bool.and_eq_true, beq_iff_eq, beq_iff_eq, Lexeme.value] at h
  obtain ⟨hkind, hname⟩ := h
  have hlength := congrArg List.length hname
  rw [hkind, Text.upper, List.length_map, List.length_drop] at hlength
  have hpos := List.length_pos_of_ne_nil hne
  omega

/-- What follows a header end does not run on from it. -/
theorem next_of_startsHeaderEnd {w u : Text} (h : startsHeaderEnd (w ++ u) = true)
    (hlength : w.length = headerEnd.length + 1) : u.head?.any runsOn = false := by
  cases w with
  | nil => cases hlength
  | cons c w =>
      rw [List.length_cons, Nat.add_right_cancel_iff] at hlength
      obtain rfl : c = '#' := Option.some.inj (length_of_startsHeaderEnd h).2
      rw [List.cons_append, startsHeaderEnd, Bool.and_eq_true, ← hlength, List.drop_left,
        Bool.not_eq_true'] at h
      exact h.2

/-- Texts that are the same up to the end of a header. -/
def SameProse (u v : Text) : Prop :=
  u = v ∨ ∃ w a b, u = w ++ a ∧ v = w ++ b ∧ headerEnd.length < w.length ∧
    a.head?.any runsOn = b.head?.any runsOn

theorem startsHeaderEnd_append {w a b : Text} (h : headerEnd.length < w.length)
    (hnext : a.head?.any runsOn = b.head?.any runsOn) :
    startsHeaderEnd (w ++ a) = startsHeaderEnd (w ++ b) := by
  cases w with
  | nil => cases h
  | cons c w =>
      have hlength : headerEnd.length ≤ w.length := Nat.le_of_lt_succ h
      have hhead : (w.drop headerEnd.length ++ a).head?.any runsOn =
          (w.drop headerEnd.length ++ b).head?.any runsOn := by
        cases w.drop headerEnd.length with
        | nil => exact hnext
        | cons _ _ => rfl
      by_cases hc : c = '#'
      · subst hc
        rw [List.cons_append, List.cons_append, startsHeaderEnd, startsHeaderEnd,
          List.take_append_of_le_length hlength, List.take_append_of_le_length hlength,
          List.drop_append_of_le_length hlength, List.drop_append_of_le_length hlength, hhead]
      · rw [List.cons_append, List.cons_append, startsHeaderEnd, startsHeaderEnd]
        · simpa using hc
        · simpa using hc

namespace SameProse

variable {u v : Text}

theorem append (h : SameProse u v) (w : Text) : SameProse (w ++ u) (w ++ v) := by
  rcases h with rfl | ⟨x, a, b, rfl, rfl, hlength, hnext⟩
  · exact Or.inl rfl
  · refine Or.inr ⟨w ++ x, a, b, by simp, by simp, ?_, hnext⟩
    rw [List.length_append]
    omega

theorem head?_eq (h : SameProse u v) : u.head? = v.head? := by
  rcases h with rfl | ⟨w, a, b, rfl, rfl, hlength, -⟩
  · rfl
  · cases w with
    | nil => cases hlength
    | cons c w => rfl

theorem tail_head?_eq (h : SameProse u v) : u.tail.head? = v.tail.head? := by
  rcases h with rfl | ⟨w, a, b, rfl, rfl, hlength, -⟩
  · rfl
  · match w, hlength with
    | [_], hlength =>
        rw [show headerEnd.length = 10 from rfl, List.length_singleton] at hlength
        omega
    | c :: d :: w, _ => rfl

theorem startsHeaderEnd_eq (h : SameProse u v) : startsHeaderEnd u = startsHeaderEnd v := by
  rcases h with rfl | ⟨w, a, b, rfl, rfl, hlength, hnext⟩
  · rfl
  · exact startsHeaderEnd_append hlength hnext

/-- Prose is read the same before texts that are the same up to the end of the header. -/
theorem scanProse_eq (h : SameProse u v) {c : Char} {tail : Text} {kind : TokenKind}
    (hscan : scanProse c (tail ++ u) = .ok ⟨kind, tail, u⟩) :
    scanProse c (tail ++ v) = .ok ⟨kind, tail, v⟩ := by
  have hends {u v : Text} (h : SameProse u v) (c : Char) : endsLine c u = endsLine c v := by
    rw [endsLine, endsLine, h.head?_eq]
  unfold scanProse at hscan ⊢
  rw [← hends (h.append tail) c]
  by_cases hnul : (c == '\x00') = true
  · rw [if_pos hnul] at hscan
    cases hscan
  rw [if_neg hnul] at hscan ⊢
  by_cases hfeed : (c == '\n') = true
  · rw [if_pos hfeed, Except.ok.injEq, Scan.mk.injEq] at hscan
    obtain ⟨rfl, rfl, -⟩ := hscan
    rw [if_pos hfeed]
    rfl
  rw [if_neg hfeed] at hscan ⊢
  by_cases hbreak : endsLine c (tail ++ u) = true
  · rw [if_pos hbreak, Except.ok.injEq, Scan.mk.injEq] at hscan
    obtain ⟨rfl, htail, hrest⟩ := hscan
    have hone : tail.length = 1 := by
      have hcr : (tail ++ u).head? = some '\n' := by
        simp only [endsLine, hfeed, Bool.false_or, Bool.and_eq_true, beq_iff_eq] at hbreak
        exact hbreak.2
      have hlength := congrArg List.length htail
      obtain ⟨x, xs, hx⟩ : ∃ x xs, tail ++ u = x :: xs := by
        cases hcut : tail ++ u with
        | nil => rw [hcut] at hcr; cases hcr
        | cons x xs => exact ⟨x, xs, rfl⟩
      rw [hx] at hlength
      simpa using hlength.symm
    obtain ⟨x, rfl⟩ := List.length_eq_one_iff.1 hone
    rw [if_pos hbreak]
    rfl
  rw [if_neg hbreak] at hscan ⊢
  obtain ⟨rfl, hspan⟩ := Scan.of_eq_iff.1 (Except.ok.inj hscan)
  rw [spanAhead_before hspan]
  · rfl
  · intro w
    have hw := h.append w
    have hhead := hw.head?_eq
    have hnext := hw.tail_head?_eq
    have hheader := hw.startsHeaderEnd_eq
    generalize w ++ u = x at hhead hnext hheader
    generalize w ++ v = y at hhead hnext hheader
    cases x with
    | nil =>
        cases y with
        | nil => rfl
        | cons d ds => simp at hhead
    | cons d ds =>
        cases y with
        | nil => simp at hhead
        | cons e es =>
            obtain rfl : d = e := by simpa using hhead
            have hline : endsLine d ds = endsLine d es := by
              rw [endsLine, endsLine, show ds.head? = es.head? from hnext]
            rw [goesAt, goesAt, hheader, hline]

end SameProse

end MapScript.Lexer
