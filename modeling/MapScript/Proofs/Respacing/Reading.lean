import MapScript.Proofs.Lexing.Prose
import MapScript.Proofs.Lexing.Space
import MapScript.Proofs.Respacing.Stream

/-!
# Texts read side by side

Two texts are read abreast if from places that correspond they come to token streams
that go together, or are refused for the same cause at places that correspond.  What
some lexemes at the front of each contribute is told apart from the rest, so a proof
goes from one significant lexeme, one gap or one line of prose to the next.
-/

namespace MapScript

open Grammar
open Lexer

variable {k : Likeness}

theorem Lexeme.rawText_singleton (l : Lexeme) : rawText [l] = l.raw := by simp [rawText]

namespace Lexer

/-! ### Lexemes at the front of a text -/

/-- A refusal of what stands behind a text. -/
def Refusal.behind (t : Text) (r : Refusal) : Refusal := { r with offset := r.offset + t.length }

/-- In one mode the lexemes are read first, and what is left is read in another. -/
def Takes (mode : Mode) (ls : List Lexeme) (rest : Text) (next : Mode) : Prop :=
  lexemes mode (Lexeme.rawText ls ++ rest) =
    ((lexemes next rest).map (ls ++ ·)).mapError (Refusal.behind (Lexeme.rawText ls))

theorem Takes.single {mode : Mode} {l : Lexeme} {c : Char} {tail rest : Text}
    (hraw : l.raw = c :: tail)
    (hscan : (mode.enter (l.raw ++ rest)).scan c (tail ++ rest) = .ok ⟨l.kind, tail, rest⟩) :
    Takes mode [l] rest ((mode.enter (l.raw ++ rest)).leave l) := by
  obtain ⟨kind, raw⟩ := l
  dsimp only at hraw hscan
  subst hraw
  rw [Takes, Lexeme.rawText_singleton, List.cons_append, lexemes]
  dsimp only
  split
  · next cause heq =>
    rw [← List.cons_append, hscan] at heq
    cases heq
  · next s heq =>
    rw [← List.cons_append, hscan, Except.ok.injEq] at heq
    subst heq
    rw [← List.cons_append]
    dsimp only
    generalize lexemes _ rest = result
    cases result <;> rfl

/-- What no lexeme can begin with is refused where it stands. -/
theorem lexemes_refused {mode : Mode} {c : Char} {cs : Text} {cause : Cause}
    (h : (mode.enter (c :: cs)).scan c cs = .error cause) :
    lexemes mode (c :: cs) = .error ⟨cause, 0⟩ := by
  rw [lexemes]
  dsimp only
  split
  · next cause' heq =>
    rw [h, Except.error.injEq] at heq
    rw [heq]
  · next s heq =>
    rw [h] at heq
    cases heq

theorem Takes.nil (mode : Mode) (rest : Text) : Takes mode [] rest mode := by
  show lexemes mode rest = _
  cases lexemes mode rest <;> rfl

theorem Takes.append {mode next last : Mode} {ls ms : List Lexeme} {rest : Text}
    (h : Takes mode ls (Lexeme.rawText ms ++ rest) next) (h' : Takes next ms rest last) :
    Takes mode (ls ++ ms) rest last := by
  have htext : Lexeme.rawText (ls ++ ms) = Lexeme.rawText ls ++ Lexeme.rawText ms :=
    List.flatMap_append
  unfold Takes at h h' ⊢
  rw [htext, List.append_assoc, h, h']
  cases lexemes last rest with
  | ok result => simp [Except.map, Except.mapError]
  | error r => simp [Except.map, Except.mapError, Refusal.behind, Nat.add_comm, Nat.add_left_comm]

/-- A lexeme that stands first in a script is taken off its front. -/
theorem Stands.takes {l : Lexeme} {rest : Text} (h : Stands l rest) :
    Takes .script [l] rest (if opensHeader l then .prose else .script) := by
  obtain ⟨c, tail, hraw, hscan⟩ := h
  have hfirst : Takes .script [l] rest ((Mode.script.enter (l.raw ++ rest)).leave l) :=
    .single hraw hscan
  rwa [Mode.enter_script, Mode.leave_script] at hfirst

/-- The header end is taken off the front of prose, and script follows. -/
theorem Stands.takes_prose {l : Lexeme} {rest : Text} (h : Stands l rest)
    (hcloses : closesHeader l = true) (hends : startsHeaderEnd (l.raw ++ rest) = true) :
    Takes .prose [l] rest .script := by
  obtain ⟨c, tail, hraw, hscan⟩ := h
  have henter : Mode.prose.enter (l.raw ++ rest) = .script := by simp [Mode.enter, hends]
  have hfirst : Takes .prose [l] rest ((Mode.prose.enter (l.raw ++ rest)).leave l) := by
    refine .single hraw ?_
    rw [henter]
    exact hscan
  rwa [henter, Mode.leave_script, opensHeader_of_closesHeader hcloses, if_neg (by simp)] at hfirst

/-- A lexeme of prose is taken off its front, and prose follows. -/
theorem takes_prose {l : Lexeme} {rest : Text} {c : Char} {tail : Text} (hraw : l.raw = c :: tail)
    (hscan : scanProse c (tail ++ rest) = .ok ⟨l.kind, tail, rest⟩)
    (hends : startsHeaderEnd (l.raw ++ rest) = false) : Takes .prose [l] rest .prose := by
  have henter : Mode.prose.enter (l.raw ++ rest) = .prose := by simp [Mode.enter, hends]
  have hfirst : Takes .prose [l] rest ((Mode.prose.enter (l.raw ++ rest)).leave l) := by
    refine .single hraw ?_
    rw [henter]
    exact hscan
  rwa [henter] at hfirst

/-- Lexemes that are read one after the other in a script are taken off its front. -/
theorem Reads.takes {ls : List Lexeme} {rest : Text} (h : Reads ls rest) :
    Takes .script ls rest .script := by
  induction ls with
  | nil => exact .nil .script rest
  | cons l ls ih =>
      obtain ⟨hstands, hopens, htail⟩ := h
      have hfirst := hstands.takes
      rw [hopens] at hfirst
      exact hfirst.append (ih htail)

end Lexer

/-! ### Two texts -/

/-- Refusals for one cause, at places that correspond. -/
structure Lexer.Refusal.Alike (k : Likeness) (p p' : Position) (t t' : Text)
    (r r' : Refusal) : Prop where
  cause : r.cause = r'.cause
  place : k.place (p.advance (t.take r.offset)) (p'.advance (t'.take r'.offset))

/-- Texts that are read from places that correspond as streams that go together, or are
refused alike. -/
def Abreast (k : Likeness) (R : List Token → List Token → Prop) (mode : Mode)
    (t t' : Text) : Prop :=
  ∀ p p', k.place p p' → Both (Refusal.Alike k p p' t t')
    (fun ls ls' => R (Token.place p ls) (Token.place p' ls')) (lexemes mode t) (lexemes mode t')

theorem Token.place_append (p : Position) (ls ms : List Lexeme) :
    place p (ls ++ ms) = place p ls ++ place (p.advance (Lexeme.rawText ls)) ms := by
  induction ls generalizing p with
  | nil => rfl
  | cons l ls ih =>
      rw [List.cons_append, place, place, ih]
      simp [Lexeme.rawText, Position.advance_append]

namespace Abreast

variable {R R' : List Token → List Token → Prop} {mode next : Mode} {t t' rest rest' : Text}

theorem mono (h : Abreast k R mode t t') (hR : ∀ ts ts', R ts ts' → R' ts ts') :
    Abreast k R' mode t t' := fun p p' hp => (h p p' hp).mono fun _ _ => hR _ _

theorem nil (h : R [] []) : Abreast k R mode [] [] := by
  intro p p' _
  rw [lexemes]
  exact .ok h

/-- The first character of each is refused, for the same cause. -/
theorem refused {c c' : Char} {cs cs' : Text} {cause : Cause}
    (h : (mode.enter (c :: cs)).scan c cs = .error cause)
    (h' : (mode.enter (c' :: cs')).scan c' cs' = .error cause) :
    Abreast k R mode (c :: cs) (c' :: cs') := by
  intro p p' hp
  rw [lexemes_refused h, lexemes_refused h']
  exact .error ⟨rfl, hp⟩

/-- Lexemes at the front of both. -/
theorem behind {ls ls' : List Lexeme} (h : Takes mode ls rest next) (h' : Takes mode ls' rest' next)
    (hplace : ∀ p p', k.place p p' →
      k.place (p.advance (Lexeme.rawText ls)) (p'.advance (Lexeme.rawText ls')))
    (hR : ∀ p p' ts ts', k.place p p' → R ts ts' →
      R' (Token.place p ls ++ ts) (Token.place p' ls' ++ ts'))
    (hrest : Abreast k R next rest rest') :
    Abreast k R' mode (Lexeme.rawText ls ++ rest) (Lexeme.rawText ls' ++ rest') := by
  have htake (t rest : Text) (n : Nat) : (t ++ rest).take (n + t.length) = t ++ rest.take n := by
    rw [Nat.add_comm, List.take_length_add_append]
  intro p p' hp
  have hboth := hrest _ _ (hplace p p' hp)
  rw [h, h']
  generalize lexemes next rest = result at hboth
  generalize lexemes next rest' = result' at hboth
  cases hboth with
  | ok hts =>
      refine .ok ?_
      rw [Token.place_append, Token.place_append]
      exact hR p p' _ _ hp hts
  | error hrefusal =>
      refine .error ⟨hrefusal.cause, ?_⟩
      show k.place (p.advance ((_ ++ rest).take (_ + _))) (p'.advance ((_ ++ rest').take (_ + _)))
      rw [htake, htake, Position.advance_append, Position.advance_append]
      exact hrefusal.place

/-- A lexeme of script that is no header start, at the front of both. -/
theorem script {l : Lexeme} (h : Stands l rest) (h' : Stands l rest')
    (hopens : opensHeader l = false)
    (hplace : ∀ p p', k.place p p' → k.place (p.advance l.raw) (p'.advance l.raw))
    (hR : ∀ (t t' : Token) ts ts', Token.Alike k t t' → t.toLexeme = l → R ts ts' →
      R' (t :: ts) (t' :: ts'))
    (hrest : Abreast k R .script rest rest') :
    Abreast k R' .script (l.raw ++ rest) (l.raw ++ rest') := by
  have htakes {rest : Text} (h : Stands l rest) : Takes .script [l] rest .script :=
    Reads.takes ⟨h, hopens, trivial⟩
  rw [← Lexeme.rawText_singleton l] at hplace ⊢
  exact behind (htakes h) (htakes h') hplace
    (fun p p' ts ts' hp hts => hR _ _ ts ts' ⟨rfl, hp⟩ rfl hts) hrest

end Abreast

/-! ### Gaps -/

theorem Token.any_breaksLine_place {ls : List Lexeme}
    (h : ∀ l ∈ ls, l.kind = .newline → '\n' ∈ l.raw) (p : Position) :
    (place p ls).any breaksLine = (Lexeme.rawText ls).contains '\n' := by
  induction ls generalizing p with
  | nil => rfl
  | cons l ls ih =>
      obtain ⟨hl, hls⟩ := List.forall_mem_cons.1 h
      have hbreaks : breaksLine ⟨l, ⟨p, p.advance l.raw⟩⟩ = l.raw.contains '\n' := by
        rw [breaksLine, Bool.eq_iff_iff]
        simp only [Bool.or_eq_true, beq_iff_eq, List.contains_iff_mem]
        exact ⟨fun h => h.elim hl id, Or.inr⟩
      rw [place, List.any_cons, ih hls, hbreaks]
      simp [Lexeme.rawText]

/-- Lexemes that only separate, at their places, are a gap. -/
theorem Gap.of_lexemes {g g' : List Lexeme} (htrivia : ∀ l ∈ g, l.isTrivia = true)
    (htrivia' : ∀ l ∈ g', l.isTrivia = true) (hne : g ≠ []) (hne' : g' ≠ [])
    (hbreak : ∀ l ∈ g, l.kind = .newline → '\n' ∈ l.raw)
    (hbreak' : ∀ l ∈ g', l.kind = .newline → '\n' ∈ l.raw)
    (hlines : (Lexeme.rawText g).contains '\n' = (Lexeme.rawText g').contains '\n')
    (p p' : Position) : Gap (Token.place p g) (Token.place p' g') := by
  have hall {g : List Lexeme} (h : ∀ l ∈ g, l.isTrivia = true) (p : Position) :
      ∀ t ∈ Token.place p g, t.isTrivia = true := by
    intro t ht
    apply h t.toLexeme
    rw [← Token.map_place p g]
    exact List.mem_map_of_mem ht
  have hsome {g : List Lexeme} (h : g ≠ []) (p : Position) : Token.place p g ≠ [] := by
    intro hnil
    apply h
    rw [← Token.map_place p g, hnil]
    rfl
  refine ⟨hall htrivia p, hall htrivia' p', hsome hne p, hsome hne' p', ?_⟩
  rw [Token.any_breaksLine_place hbreak, Token.any_breaksLine_place hbreak', hlines]

theorem Grammar.Part.ahead_cons {t : Token} (h : argumentList.gap t = false) (ts : List Token) :
    argumentList.ahead (t :: ts) = t.isPunct argumentList.opener := by
  simp [Part.ahead, h]

/-- Behind a gap an argument list stands ahead only if the gap is space within a line. -/
theorem Grammar.Part.ahead_gap {g : List Token} (h : ∀ t ∈ g, t.isTrivia = true)
    (ts : List Token) :
    argumentList.ahead (g ++ ts) = (g.all argumentList.gap && argumentList.ahead ts) := by
  induction g with
  | nil => rfl
  | cons t g ih =>
      obtain ⟨ht, hg⟩ := List.forall_mem_cons.1 h
      cases hgap : argumentList.gap t with
      | false =>
          rw [List.cons_append, Part.ahead_cons hgap, List.all_cons, hgap,
            isPunct_of_kind (kind_of_isTrivia ht).1]
          rfl
      | true =>
          rw [List.all_cons, hgap, Bool.true_and, ← ih hg]
          simp [Part.ahead, hgap]

theorem Token.all_gap_place (p : Position) (g : List Lexeme) :
    (place p g).all argumentList.gap = g.all fun l => l.kind == .blank := by
  induction g generalizing p with
  | nil => rfl
  | cons l g ih =>
      rw [place, List.all_cons, List.all_cons, ih]
      rfl

theorem gap_of_significant {t : Token} (h : t.isTrivia = false) : argumentList.gap t = false := by
  rw [Token.isTrivia] at h
  show (t.kind == .blank) = false
  rw [beq_eq_false_iff_ne]
  intro hblank
  rw [hblank] at h
  cases h

/-- Before a significant token no argument list is taken for one farther on. -/
theorem Token.Alike.ahead_eq {t t' : Token} (h : Token.Alike k t t') (hsig : t.isTrivia = false)
    (ts ts' : List Token) : argumentList.ahead (t :: ts) = argumentList.ahead (t' :: ts') := by
  rw [Part.ahead_cons (gap_of_significant hsig),
    Part.ahead_cons (gap_of_significant (h.isTrivia_eq ▸ hsig)), h.isPunct_eq]

/-! ### Prose -/

/-- Streams that go on in the prose of a header: the lines of prose, then the header end
and what follows, or nothing.  `T` is how the texts of the prose go together. -/
inductive InProse (k : Likeness) (T : Text → Text → Prop) : List Token → List Token → Prop
  | unclosed {p p' : List Token} (kind : ∀ t ∈ p, t.kind = .text ∨ t.kind = .newline)
      (kind' : ∀ t ∈ p', t.kind = .text ∨ t.kind = .newline)
      (text : T (Token.rawText p) (Token.rawText p'))
      (quote : k.quote (Token.rawText (Token.significant p))
        (Token.rawText (Token.significant p'))) : InProse k T p p'
  | closed {p p' ts ts' : List Token} {c c' : Token}
      (kind : ∀ t ∈ p, t.kind = .text ∨ t.kind = .newline)
      (kind' : ∀ t ∈ p', t.kind = .text ∨ t.kind = .newline)
      (text : T (Token.rawText p) (Token.rawText p'))
      (quote : k.quote (Token.rawText (Token.significant p))
        (Token.rawText (Token.significant p')))
      (finish : Token.Alike k c c') (closes : c.isDirective headerEnd = true)
      (rest : Tracks k ts ts') : InProse k T (p ++ c :: ts) (p' ++ c' :: ts')

namespace InProse

variable {T T' : Text → Text → Prop} {ts ts' : List Token}

/-- Prose in front of both. -/
theorem append (h : InProse k T ts ts') {p p' : List Token}
    (hkind : ∀ t ∈ p, t.kind = .text ∨ t.kind = .newline)
    (hkind' : ∀ t ∈ p', t.kind = .text ∨ t.kind = .newline)
    (htext : ∀ w w', T w w' → T' (Token.rawText p ++ w) (Token.rawText p' ++ w'))
    (hquote : k.quote (Token.rawText (Token.significant p))
      (Token.rawText (Token.significant p'))) :
    InProse k T' (p ++ ts) (p' ++ ts') := by
  have hsplit (p q : List Token) : Token.rawText (Token.significant (p ++ q)) =
      Token.rawText (Token.significant p) ++ Token.rawText (Token.significant q) := by
    rw [significant_append, rawText_append]
  cases h with
  | @unclosed q q' hq hq' ht hqq =>
      refine .unclosed (List.forall_mem_append.2 ⟨hkind, hq⟩)
        (List.forall_mem_append.2 ⟨hkind', hq'⟩) ?_ ?_
      · rw [rawText_append, rawText_append]
        exact htext _ _ ht
      · rw [hsplit, hsplit]
        exact k.quote_append hquote hqq
  | @closed q q' _ _ c c' hq hq' ht hqq hfinish hcloses hrest =>
      rw [← List.append_assoc, ← List.append_assoc]
      refine .closed (List.forall_mem_append.2 ⟨hkind, hq⟩)
        (List.forall_mem_append.2 ⟨hkind', hq'⟩) ?_ ?_ hfinish hcloses hrest
      · rw [rawText_append, rawText_append]
        exact htext _ _ ht
      · rw [hsplit, hsplit]
        exact k.quote_append hquote hqq

/-- The header end, where both have no more prose. -/
theorem finish (hnil : T [] []) {c c' : Token} (hc : Token.Alike k c c')
    (hcloses : c.isDirective headerEnd = true) (h : Tracks k ts ts') :
    InProse k T (c :: ts) (c' :: ts') := by
  show InProse k T ([] ++ c :: ts) ([] ++ c' :: ts')
  exact .closed (by simp) (by simp) hnil (k.quote_refl []) hc hcloses h

/-- A header start before prose whose texts have the same lines. -/
theorem tracks (h : InProse k T ts ts') {o o' : Token} (ho : Token.Alike k o o')
    (hopens : o.isDirective headerStart = true)
    (hlines : ∀ p p' span span', T (Token.rawText p) (Token.rawText p') →
      Header.lines ⟨p, span⟩ = Header.lines ⟨p', span'⟩) :
    Tracks k (o :: ts) (o' :: ts') := by
  cases h with
  | unclosed hkind hkind' htext hquote =>
      exact .unclosed ho hopens ⟨hkind, hkind', fun _ _ => hlines _ _ _ _ htext, hquote⟩
  | closed hkind hkind' htext hquote hfinish hcloses hrest =>
      exact .header ho hopens ⟨hkind, hkind', fun _ _ => hlines _ _ _ _ htext, hquote⟩ hfinish
        hcloses hrest

end InProse

/-- Texts that are read abreast from the start have streams that track each other, or are
refused alike. -/
theorem Abreast.reading [k.Anchored] {source source' : Text}
    (h : Abreast k (Tracks k) .script source source') :
    Both (Report.Alike k) (fun s s' => Tracks k s.tokens s'.tokens)
      (TokenStream.ofSource source) (TokenStream.ofSource source') := by
  have hboth := h _ _ Likeness.Anchored.origin
  unfold TokenStream.ofSource lexScript
  generalize lexemes .script source = result at hboth
  generalize lexemes .script source' = result' at hboth
  cases hboth with
  | ok hts => exact .ok hts
  | @error r r' hrefusal =>
      refine .error ⟨?_, hrefusal.place⟩
      show Cause.Alike k r.cause r'.cause
      rw [hrefusal.cause]
      exact .same _

end MapScript
