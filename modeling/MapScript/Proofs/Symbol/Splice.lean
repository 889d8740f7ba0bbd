import MapScript.Proofs.Symbol.Areas

/-!
# Edits one after the other

Edits that are apart can be made one after the other, from the last to the first: an
edit leaves the indices before it as they are, so each finds its tokens where they were.
What comes out is what one replacement of all parts at once gives.
-/

namespace MapScript.Resolve.Edit

/-- The tokens after one edit. -/
def splice (tokens : List Token) (e : Edit) : List Token :=
  tokens.take e.first ++ e.replacement :: tokens.drop (e.last + 1)

/-- The tokens after all edits, made one after the other from the last to the first; of
edits that begin together the one collected first is made first. -/
def backToFront (edits : List Edit) (tokens : List Token) : List Token :=
  (edits.mergeSort fun e e' => e'.first ≤ e.first).foldl splice tokens

/-- Two edits replace parts that are disjoint, or they are the same and replace one token. -/
def Apart (e e' : Edit) : Prop :=
  e.last < e'.first ∨ e'.last < e.first ∨ e = e' ∧ e.first = e.last

/-- The edit replaces a part of the tokens. -/
def Within (tokens : List Token) (e : Edit) : Prop := e.first ≤ e.last ∧ e.last < tokens.length

/-- The second row is the first, from an index on, with every part that an edit replaces
gone for its replacement, and every other token in its place. -/
inductive Substitutes (edits : List Edit) : Nat → List Token → List Token → Prop
  | nil (i : Nat) : Substitutes edits i [] []
  | keep {i : Nat} {ts us : List Token} (t : Token)
      (uncovered : ∀ e ∈ edits, e.covers i = false) (rest : Substitutes edits (i + 1) ts us) :
      Substitutes edits i (t :: ts) (t :: us)
  | replace {i : Nat} {part ts us : List Token} {e : Edit} (mem : e ∈ edits)
      (first : e.first = i) (last : e.last + 1 = i + part.length)
      (rest : Substitutes edits (i + part.length) ts us) :
      Substitutes edits i (part ++ ts) (e.replacement :: us)

/-- The edits of a row are one simultaneous substitution. -/
structure Simultaneous (tokens : List Token) (edits : List Edit) : Prop where
  within : ∀ e ∈ edits, e.Within tokens
  apart : edits.Pairwise Apart
  backToFront : Edit.backToFront edits tokens = applyAll edits tokens
  substitutes : Substitutes edits 0 tokens (applyAll edits tokens)

/-! ### Edits that are apart -/

theorem covers_iff {e : Edit} {i : Nat} : e.covers i = true ↔ e.first ≤ i ∧ i ≤ e.last := by
  simp [covers]

theorem covers_eq_false_iff {e : Edit} {i : Nat} :
    e.covers i = false ↔ i < e.first ∨ e.last < i := by
  rw [← Bool.not_eq_true, covers_iff]
  omega

theorem Apart.symm {e e' : Edit} (h : e.Apart e') : e'.Apart e := by
  obtain h | h | ⟨rfl, h⟩ := h
  · exact Or.inr (Or.inl h)
  · exact Or.inl h
  · exact Or.inr (Or.inr ⟨rfl, h⟩)

instance : Std.Symm Apart := ⟨fun _ _ => Apart.symm⟩

theorem disjoint_of_ne {edits : List Edit} (h : edits.Pairwise Apart) {e e' : Edit}
    (he : e ∈ edits) (he' : e' ∈ edits) (hne : e ≠ e') :
    e.last < e'.first ∨ e'.last < e.first :=
  (h.forall he he' hne).imp_right fun h => h.resolve_right fun heq => hne heq.1

/-- Of edits that are apart only one covers an index. -/
theorem eq_of_covers {edits : List Edit} (h : edits.Pairwise Apart) {e e' : Edit}
    (he : e ∈ edits) (he' : e' ∈ edits) {i : Nat} (hcovers : e.covers i = true)
    (hcovers' : e'.covers i = true) : e = e' := by
  by_contra hne
  rw [covers_iff] at hcovers hcovers'
  have := disjoint_of_ne h he he' hne
  omega

/-- The edit alone settles what stands where it reaches. -/
def Rules (edits : List Edit) (e : Edit) : Prop :=
  ∀ i t, e.covers i = true → resultAt edits t i = if e.first = i then [e.replacement] else []

theorem Rules.of_mem {edits : List Edit} (h : edits.Pairwise Apart) {e : Edit} (he : e ∈ edits) :
    Rules edits e := by
  intro i t hcovers
  rw [resultAt]
  split
  · next hnone =>
    exact absurd hcovers (List.find?_eq_none.1 hnone e (List.mem_reverse.2 he))
  · next e' hfound =>
    have he' := List.mem_reverse.1 (List.mem_of_find?_eq_some hfound)
    rw [eq_of_covers h he he' hcovers (by simpa using List.find?_some hfound)]

theorem Rules.append (edits : List Edit) (e : Edit) : Rules (edits ++ [e]) e := by
  intro i t hcovers
  simp [resultAt, hcovers]

/-- Behind the first index of such an edit nothing is left. -/
theorem Rules.applyFrom_behind {edits : List Edit} {e : Edit} (h : Rules edits e) {i : Nat}
    {ts : List Token} (hfirst : e.first < i) (hlast : i + ts.length ≤ e.last + 1) :
    applyFrom edits i ts = [] := by
  induction ts generalizing i with
  | nil => rfl
  | cons t ts ih =>
      rw [List.length_cons] at hlast
      rw [applyFrom_cons, ih (by omega) (by omega), h i t (covers_iff.2 (by omega)),
        if_neg (by omega)]
      rfl

/-- Of the part that such an edit replaces its replacement is left. -/
theorem Rules.applyFrom_part {edits : List Edit} {e : Edit} (h : Rules edits e) {i : Nat}
    {part : List Token} (hfirst : e.first = i) (hlast : e.last + 1 = i + part.length)
    (hpart : part ≠ []) : applyFrom edits i part = [e.replacement] := by
  obtain ⟨t, part, rfl⟩ := List.exists_cons_of_ne_nil hpart
  rw [List.length_cons] at hlast
  rw [applyFrom_cons, h.applyFrom_behind (by omega) (by omega), List.append_nil,
    h i t (covers_iff.2 (by omega)), if_pos hfirst]

/-- Edits that are apart replace their parts all at once. -/
theorem substitutes_applyFrom {edits : List Edit} (h : edits.Pairwise Apart) {i : Nat}
    {ts : List Token} (hwithin : ∀ e ∈ edits, e.first ≤ e.last ∧ e.last < i + ts.length)
    (hclosed : Closed edits i) : Substitutes edits i ts (applyFrom edits i ts) := by
  induction hn : ts.length using Nat.strongRecOn generalizing ts i with
  | _ n ih =>
      by_cases hstart : ∃ e ∈ edits, e.first = i
      · obtain ⟨e, he, hfirst⟩ := hstart
        obtain ⟨hle, hlt⟩ := hwithin e he
        obtain ⟨part, ts, rfl, hlength⟩ : ∃ part rest, ts = part ++ rest ∧
            part.length = e.last + 1 - i :=
          ⟨_, _, (List.take_append_drop (e.last + 1 - i) ts).symm, by
            rw [List.length_take]
            omega⟩
        have hpart : part ≠ [] := List.ne_nil_of_length_pos (by omega)
        rw [List.length_append] at hn hwithin
        rw [applyFrom_append, (Rules.of_mem h he).applyFrom_part hfirst (by omega) hpart]
        refine .replace he hfirst (by omega) (ih ts.length (by omega) ?_ ?_ rfl)
        · intro e' he'
          have := hwithin e' he'
          omega
        · -- what begins before the end of this part ends before it, too
          intro e' he' hfirst'
          have hle' := (hwithin e' he').1
          by_cases hsame : e = e'
          · rw [← hsame]
            omega
          · have := disjoint_of_ne h he he' hsame
            omega
      · cases ts with
        | nil => exact .nil i
        | cons t ts =>
            have hhere : ∀ e ∈ edits, e.first ≠ i := fun e he hfirst => hstart ⟨e, he, hfirst⟩
            have huncovered : ∀ e ∈ edits, e.covers i = false := by
              intro e he
              have := hhere e he
              have := hclosed e he
              exact covers_eq_false_iff.2 (by omega)
            rw [List.length_cons] at hn hwithin
            rw [applyFrom_cons, resultAt_of_uncovered t huncovered]
            refine .keep t huncovered (ih ts.length (by omega) ?_ ?_ rfl)
            · intro e he
              have := hwithin e he
              omega
            · exact hclosed.succ fun e he hfirst => absurd hfirst (hhere e he)

/-- Where one token is replaced, what stands before it and behind it is what the edits make
of the tokens there. -/
theorem Substitutes.split {edits : List Edit} (hapart : edits.Pairwise Apart) {e : Edit}
    (he : e ∈ edits) (hone : e.first = e.last) {i : Nat} {ts us : List Token}
    (h : Substitutes edits i ts us) (hle : i ≤ e.first) (hlt : e.first < i + ts.length) :
    ∃ before t after ahead behind, ts = before ++ t :: after ∧ i + before.length = e.first ∧
      us = ahead ++ e.replacement :: behind ∧ Substitutes edits i before ahead ∧
      Substitutes edits (e.first + 1) after behind := by
  induction h with
  | nil i => simp at hlt; omega
  | @keep i ts us t huncovered _ ih =>
      have hnot := covers_eq_false_iff.1 (huncovered e he)
      rw [List.length_cons] at hlt
      obtain ⟨before, u, after, ahead, behind, rfl, hfirst, rfl, hbefore, hafter⟩ :=
        ih (by omega) (by omega)
      refine ⟨t :: before, u, after, t :: ahead, behind, rfl, ?_, rfl,
        .keep t huncovered hbefore, hafter⟩
      rw [List.length_cons]
      omega
  | @replace i part ts us e' he' hfirst hlast hrest ih =>
      rw [List.length_append] at hlt
      by_cases hsame : e' = e
      · subst hsame
        obtain ⟨t, rfl⟩ := List.length_eq_one_iff.1 (show part.length = 1 by omega)
        refine ⟨[], t, ts, [], us, rfl, by simp [hfirst], rfl, .nil i, ?_⟩
        rwa [hfirst, ← List.length_singleton (a := t)]
      · have := disjoint_of_ne hapart he' he hsame
        obtain ⟨before, u, after, ahead, behind, rfl, hbegin, rfl, hbefore, hafter⟩ :=
          ih (by omega) (by omega)
        refine ⟨part ++ before, u, after, e'.replacement :: ahead, behind, by simp, ?_, rfl,
          .replace he' hfirst hlast hbefore, hafter⟩
        rw [List.length_append]
        omega

/-! ### One edit more -/

/-- An edit and those made before it: they are behind it, or the same for one token. -/
def Precedes (e e' : Edit) : Prop := e.last < e'.first ∨ e' = e ∧ e.first = e.last

theorem resultAt_append_of_uncovered (edits : List Edit) {e : Edit} {i : Nat}
    (h : e.covers i = false) (t : Token) : resultAt (edits ++ [e]) t i = resultAt edits t i := by
  simp [resultAt, h]

/-- One more edit changes nothing where it does not reach. -/
theorem applyFrom_append_of_uncovered (edits : List Edit) {e : Edit} {i : Nat} {ts : List Token}
    (h : e.last < i ∨ i + ts.length ≤ e.first) :
    applyFrom (edits ++ [e]) i ts = applyFrom edits i ts := by
  induction ts generalizing i with
  | nil => rfl
  | cons t ts ih =>
      rw [List.length_cons] at h
      rw [applyFrom_cons, applyFrom_cons, ih (by omega),
        resultAt_append_of_uncovered edits (covers_eq_false_iff.2 (by omega))]

/-- Edits that an edit precedes leave its part as long as it is. -/
theorem length_applyFrom {edits : List Edit} {e : Edit} (hle : e.first ≤ e.last)
    (h : ∀ e' ∈ edits, e.Precedes e') {part : List Token}
    (hpart : e.last + 1 = e.first + part.length) :
    (applyFrom edits e.first part).length = part.length := by
  by_cases hmem : e ∈ edits
  · have hone : e.first = e.last := by
      obtain hbehind | ⟨-, hone⟩ := h e hmem
      · omega
      · exact hone
    have hrules : Rules edits e := by
      intro i t hcovers
      rw [covers_iff] at hcovers
      have hfirst : e.first = i := by omega
      rw [if_pos hfirst]
      refine resultAt_of_forall_eq hmem hfirst (covers_iff.2 hcovers) ?_ t
      intro e' he' hcovers'
      rw [covers_iff] at hcovers'
      obtain hbehind | ⟨heq, -⟩ := h e' he'
      · omega
      · exact heq
    rw [hrules.applyFrom_part rfl hpart (List.ne_nil_of_length_pos (by omega)),
      List.length_singleton]
    omega
  · rw [applyFrom_of_uncovered]
    intro e' he'
    obtain hbehind | ⟨rfl, -⟩ := h e' he'
    · omega
    · exact absurd he' hmem

/-- An edit made after those that it precedes is one edit more. -/
theorem splice_applyAll {edits : List Edit} {e : Edit} {tokens : List Token}
    (hwithin : e.Within tokens) (h : ∀ e' ∈ edits, e.Precedes e') :
    splice (applyAll edits tokens) e = applyAll (edits ++ [e]) tokens := by
  obtain ⟨hle, hlt⟩ := hwithin
  obtain ⟨before, part, after, rfl, hbefore, hpart⟩ :
      ∃ before part after, tokens = before ++ (part ++ after) ∧ before.length = e.first ∧
        e.last + 1 = e.first + part.length := by
    refine ⟨tokens.take e.first, (tokens.drop e.first).take (e.last + 1 - e.first),
      (tokens.drop e.first).drop (e.last + 1 - e.first), ?_, ?_, ?_⟩
    · rw [List.take_append_drop, List.take_append_drop]
    · rw [List.length_take]
      omega
    · rw [List.length_take, List.length_drop]
      omega
  have hparts (es : List Edit) : applyAll es (before ++ (part ++ after)) =
      applyFrom es 0 before ++
        (applyFrom es e.first part ++ applyFrom es (e.last + 1) after) := by
    show applyFrom es 0 _ = _
    rw [applyFrom_append, applyFrom_append, Nat.zero_add, hbefore, hpart]
  have hfront : applyFrom edits 0 before = before := by
    apply applyFrom_of_uncovered
    intro e' he'
    obtain hbehind | ⟨rfl, -⟩ := h e' he' <;> omega
  have hdrop (rest : List Token) :
      (before ++ (applyFrom edits e.first part ++ rest)).drop (e.last + 1) = rest := by
    rw [← List.append_assoc]
    apply List.drop_left'
    rw [List.length_append, length_applyFrom hle h hpart, hbefore, hpart]
  calc splice (applyAll edits (before ++ (part ++ after))) e
      = before ++ e.replacement :: applyFrom edits (e.last + 1) after := by
        rw [hparts, hfront, splice, hdrop, List.take_left' hbefore]
    _ = applyAll (edits ++ [e]) (before ++ (part ++ after)) := by
        rw [hparts, applyFrom_append_of_uncovered edits (by omega), hfront,
          (Rules.append edits e).applyFrom_part rfl hpart (List.ne_nil_of_length_pos (by omega)),
          applyFrom_append_of_uncovered edits (by omega)]
        rfl

theorem foldl_splice {edits : List Edit} {tokens : List Token}
    (hwithin : ∀ e ∈ edits, e.Within tokens)
    (h : edits.Pairwise fun e e' => e'.Precedes e) :
    edits.foldl splice tokens = applyAll edits tokens := by
  induction edits using List.reverseRecOn with
  | nil => exact (applyFrom_of_uncovered (by simp)).symm
  | append_singleton edits e ih =>
      rw [List.forall_mem_append] at hwithin
      rw [List.pairwise_append] at h
      rw [List.foldl_append, ih hwithin.1 h.1, List.foldl_cons, List.foldl_nil]
      exact splice_applyAll (hwithin.2 e (by simp)) fun e' he' => h.2.2 e' he' e (by simp)

/-! ### The order of edits -/

/-- Edits that are apart may be made in any order. -/
theorem applyAll_perm {edits edits' : List Edit} (h : edits.Pairwise Apart)
    (hperm : edits'.Perm edits) (tokens : List Token) :
    applyAll edits' tokens = applyAll edits tokens := by
  have h' := (hperm.pairwise_iff Apart.symm).2 h
  have hresult (t : Token) (i : Nat) : resultAt edits' t i = resultAt edits t i := by
    by_cases hcovered : ∃ e ∈ edits, e.covers i = true
    · obtain ⟨e, he, hcovers⟩ := hcovered
      rw [Rules.of_mem h he i t hcovers, Rules.of_mem h' (hperm.mem_iff.2 he) i t hcovers]
    · have huncovered : ∀ e ∈ edits, e.covers i = false := by simpa using hcovered
      rw [resultAt_of_uncovered t huncovered,
        resultAt_of_uncovered t fun e he => huncovered e (hperm.mem_iff.1 he)]
  unfold applyAll
  simp only [hresult]

theorem backToFront_eq {edits : List Edit} {tokens : List Token} (h : edits.Pairwise Apart)
    (hwithin : ∀ e ∈ edits, e.Within tokens) :
    backToFront edits tokens = applyAll edits tokens := by
  let le (e e' : Edit) : Bool := e'.first ≤ e.first
  have hperm : (edits.mergeSort le).Perm edits := List.mergeSort_perm edits le
  have hsorted : (edits.mergeSort le).Pairwise fun e e' => le e e' = true := by
    apply List.pairwise_mergeSort
    · simp only [le, decide_eq_true_eq]
      omega
    · simp only [le, Bool.or_eq_true, decide_eq_true_eq]
      omega
  have hwithin' : ∀ e ∈ edits.mergeSort le, e.Within tokens :=
    fun e he => hwithin e (hperm.mem_iff.1 he)
  have hprecedes : (edits.mergeSort le).Pairwise fun e e' => e'.Precedes e := by
    refine (hsorted.and ((hperm.pairwise_iff Apart.symm).2 h)).imp_of_mem ?_
    rintro e e' he - ⟨horder, hbefore | hafter | ⟨rfl, hone⟩⟩
    · have := (hwithin' e he).1
      simp only [le, decide_eq_true_eq] at horder
      omega
    · exact Or.inl hafter
    · exact Or.inr ⟨rfl, hone⟩
  calc backToFront edits tokens = applyAll (edits.mergeSort le) tokens :=
        foldl_splice hwithin' hprecedes
    _ = applyAll edits tokens := applyAll_perm h hperm tokens

/-- Edits that are apart are one simultaneous substitution. -/
theorem Simultaneous.of_apart {edits : List Edit} {tokens : List Token}
    (hwithin : ∀ e ∈ edits, e.Within tokens) (h : edits.Pairwise Apart) :
    Simultaneous tokens edits where
  within := hwithin
  apart := h
  backToFront := backToFront_eq h hwithin
  substitutes := substitutes_applyFrom h
    (fun e he => ⟨(hwithin e he).1, by simpa using (hwithin e he).2⟩)
    fun e _ hfirst => absurd hfirst (by omega)

end MapScript.Resolve.Edit
