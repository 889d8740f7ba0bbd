import MapScript.EngineText
import MapScript.Proofs.Grammar.BlockTokens
import MapScript.Proofs.Respacing.Row

/-!
# Token streams with other gaps

Streams may differ in their gaps as rows may, but a directive has an argument list in
the one where it has in the other: only space within the line may stand before it.
They may differ in the prose of headers too, as long as the lines of the headers are
the same.  Groups are read off such streams up to the same bracket, and arguments come
out alike up to prose, which no expression is read past.
-/

namespace MapScript

open Grammar
open Lexer (headerStart headerEnd)

variable {k : Likeness}

/-! ### Arguments -/

/-- Arguments of the same tokens, but for the prose of headers that stand in them. -/
inductive Argument (k : Likeness) : List Token → List Token → Prop
  | nil : Argument k [] []
  | token {t t' : Token} {ts ts' : List Token} (alike : Token.Alike k t t')
      (significant : t.isTrivia = false) (rest : Argument k ts ts') :
      Argument k (t :: ts) (t' :: ts')
  | header {o o' : Token} {q q' ts ts' : List Token} (alike : Token.Alike k o o')
      (directive : o.kind = .directive) (text : ∀ t ∈ q, t.kind = .text)
      (text' : ∀ t ∈ q', t.kind = .text)
      (quote : k.quote (Token.rawText q) (Token.rawText q')) (rest : Argument k ts ts') :
      Argument k (o :: (q ++ ts)) (o' :: (q' ++ ts'))

theorem rawText_append (ts us : List Token) :
    Token.rawText (ts ++ us) = Token.rawText ts ++ Token.rawText us := by
  simp [Token.rawText]

theorem isTrivia_of_text {t : Token} (h : t.kind = .text) : t.isTrivia = false := by
  rw [Token.isTrivia, h]
  rfl

theorem isTrivia_of_directive {t : Token} (h : t.kind = .directive) : t.isTrivia = false := by
  rw [Token.isTrivia, h]
  rfl

theorem isPunct_of_kind {t : Token} (h : t.kind ≠ .punct) (c : Char) : t.isPunct c = false := by
  simp [Token.isPunct, h]

theorem Operand.references_text {q : List Token} (h : ∀ t ∈ q, t.kind = .text)
    (ts : List Token) : references (q ++ ts) = references ts := by
  induction q with
  | nil => rfl
  | cons t q ih =>
      obtain ⟨ht, hq⟩ := List.forall_mem_cons.1 h
      rw [List.cons_append, references, ih hq, ht]
      rfl

namespace Argument

variable {ts ts' : List Token}

theorem all_significant (h : Argument k ts ts') :
    (∀ t ∈ ts, t.isTrivia = false) ∧ ∀ t ∈ ts', t.isTrivia = false := by
  induction h with
  | nil => exact ⟨by simp, by simp⟩
  | token alike hsig _ ih =>
      have hsig' := alike.isTrivia_eq ▸ hsig
      exact ⟨List.forall_mem_cons.2 ⟨hsig, ih.1⟩, List.forall_mem_cons.2 ⟨hsig', ih.2⟩⟩
  | header alike hkind htext htext' _ _ ih =>
      have hkind' := alike.kind_eq ▸ hkind
      exact ⟨List.forall_mem_cons.2 ⟨isTrivia_of_directive hkind,
          List.forall_mem_append.2 ⟨fun t ht => isTrivia_of_text (htext t ht), ih.1⟩⟩,
        List.forall_mem_cons.2 ⟨isTrivia_of_directive hkind',
          List.forall_mem_append.2 ⟨fun t ht => isTrivia_of_text (htext' t ht), ih.2⟩⟩⟩

theorem matched (h : Argument k ts ts') (values : Text → Option Number) :
    Expression.Matched values values ts ts' := by
  induction h with
  | nil => exact .nil
  | token alike _ _ ih => exact .cons alike.lexeme ih
  | header alike hkind _ _ _ _ _ =>
      exact .barrier (Or.inl hkind) (Or.inl (alike.kind_eq ▸ hkind))

/-- An argument has one value. -/
theorem fold_eq (h : Argument k ts ts') (values : Text → Option Number) :
    Expression.fold values (Token.significant ts) =
      Expression.fold values (Token.significant ts') := by
  have hself {ts : List Token} (hts : ∀ t ∈ ts, t.isTrivia = false) :
      Token.significant ts = ts := by
    rw [Token.significant, List.filter_eq_self]
    intro t ht
    simp [hts t ht]
  rw [hself h.all_significant.1, hself h.all_significant.2]
  exact Expression.fold_congr ⟨h.matched values, fun _ _ => rfl⟩

theorem references_alike (h : Argument k ts ts') :
    List.Forall₂ (Token.Alike k) (Operand.references ts) (Operand.references ts') := by
  induction h with
  | nil => exact .nil
  | @token t t' ts ts' alike _ hrest ih =>
      rw [Operand.references, Operand.references, alike.kind_eq,
        (hrest.matched fun _ => none).head?_any_isPunct '(']
      split
      · exact .cons alike ih
      · exact ih
  | @header o o' q q' ts ts' alike hkind htext htext' _ _ ih =>
      rw [Operand.references, Operand.references, ← alike.kind_eq, hkind,
        Operand.references_text htext, Operand.references_text htext']
      exact ih

theorem quote_rawText (h : Argument k ts ts') :
    k.quote (Token.rawText ts) (Token.rawText ts') := by
  induction h with
  | nil => exact k.quote_refl []
  | @token t t' ts ts' alike _ _ ih =>
      have hraw : k.quote t.raw t'.raw := alike.raw_eq ▸ k.quote_refl t.raw
      exact k.quote_append hraw ih
  | @header o o' q q' ts ts' alike _ _ _ hquote _ ih =>
      have hraw : k.quote o.raw o'.raw := alike.raw_eq ▸ k.quote_refl o.raw
      have happend (o : Token) (q ts : List Token) : Token.rawText (o :: (q ++ ts)) =
          o.raw ++ (Token.rawText q ++ Token.rawText ts) := by
        simp [Token.rawText]
      rw [happend, happend]
      exact k.quote_append hraw (k.quote_append hquote ih)

theorem isEmpty_eq (h : Argument k ts ts') : ts.isEmpty = ts'.isEmpty := by
  cases h <;> rfl

end Argument

/-! ### Streams -/

/-- The prose of two headers with the same lines. -/
structure Prose (k : Likeness) (p p' : List Token) : Prop where
  kind : ∀ t ∈ p, t.kind = .text ∨ t.kind = .newline
  kind' : ∀ t ∈ p', t.kind = .text ∨ t.kind = .newline
  lines : ∀ span span', Header.lines ⟨p, span⟩ = Header.lines ⟨p', span'⟩
  quote : k.quote (Token.rawText (Token.significant p)) (Token.rawText (Token.significant p'))

/-- Streams of the same tokens with gaps and headers in the same places. -/
inductive Tracks (k : Likeness) : List Token → List Token → Prop
  | nil : Tracks k [] []
  | token {t t' : Token} {ts ts' : List Token} (alike : Token.Alike k t t')
      (significant : t.isTrivia = false) (script : t.isDirective headerStart = false)
      (ahead : t.kind = .directive → argumentList.ahead ts = argumentList.ahead ts')
      (rest : Tracks k ts ts') : Tracks k (t :: ts) (t' :: ts')
  | gap {g g' ts ts' : List Token} (gap : Gap g g') (rest : Tracks k ts ts') :
      Tracks k (g ++ ts) (g' ++ ts')
  | header {o o' c c' : Token} {p p' ts ts' : List Token} (start : Token.Alike k o o')
      (opens : o.isDirective headerStart = true) (prose : Prose k p p')
      (finish : Token.Alike k c c') (closes : c.isDirective headerEnd = true)
      (rest : Tracks k ts ts') : Tracks k (o :: (p ++ c :: ts)) (o' :: (p' ++ c' :: ts'))
  | unclosed {o o' : Token} {p p' : List Token} (start : Token.Alike k o o')
      (opens : o.isDirective headerStart = true) (prose : Prose k p p') :
      Tracks k (o :: p) (o' :: p')

theorem kind_of_isDirective {t : Token} {name : Text} (h : t.isDirective name = true) :
    t.kind = .directive := by
  simp only [Token.isDirective, Bool.and_eq_true, beq_iff_eq] at h
  exact h.1

theorem Prose.punct {p p' : List Token} (h : Prose k p p') :
    (∀ t ∈ p, t.kind ≠ .punct ∧ t.kind ≠ .directive) ∧
      ∀ t ∈ p', t.kind ≠ .punct ∧ t.kind ≠ .directive := by
  have hkind {t : Token} (ht : t.kind = .text ∨ t.kind = .newline) :
      t.kind ≠ .punct ∧ t.kind ≠ .directive := by
    rcases ht with ht | ht <;> rw [ht] <;> decide
  exact ⟨fun t ht => hkind (h.kind t ht), fun t ht => hkind (h.kind' t ht)⟩

theorem Prose.text {p p' : List Token} (h : Prose k p p') :
    (∀ t ∈ Token.significant p, t.kind = .text) ∧
      ∀ t ∈ Token.significant p', t.kind = .text := by
  have htext {p : List Token} (hp : ∀ t ∈ p, t.kind = .text ∨ t.kind = .newline) :
      ∀ t ∈ Token.significant p, t.kind = .text := by
    intro t ht
    obtain ⟨hmem, hsig⟩ := List.mem_filter.1 ht
    rcases hp t hmem with htext | hnewline
    · exact htext
    · rw [Token.isTrivia, hnewline] at hsig
      cases hsig
  exact ⟨htext h.kind, htext h.kind'⟩

theorem kind_of_isTrivia {t : Token} (h : t.isTrivia = true) :
    t.kind ≠ .punct ∧ t.kind ≠ .directive := by
  constructor <;> intro hkind <;> rw [Token.isTrivia, hkind] at h <;> cases h

namespace Tracks

variable {ts ts' : List Token}

/-- How a stream begins. -/
theorem uncons (h : Tracks k ts ts') :
    (ts = [] ∧ ts' = []) ∨
      (∃ t t' us us', ts = t :: us ∧ ts' = t' :: us' ∧ Token.Alike k t t' ∧
        t.isTrivia = false ∧ t.isDirective headerStart = false ∧
        (t.kind = .directive → argumentList.ahead us = argumentList.ahead us') ∧
        Tracks k us us') ∨
      (∃ g g' us us', ts = g ++ us ∧ ts' = g' ++ us' ∧ Gap g g' ∧ Tracks k us us') ∨
      (∃ o o' c c' p p' us us', ts = o :: (p ++ c :: us) ∧ ts' = o' :: (p' ++ c' :: us') ∧
        Token.Alike k o o' ∧ o.isDirective headerStart = true ∧ Prose k p p' ∧
        Token.Alike k c c' ∧ c.isDirective headerEnd = true ∧ Tracks k us us') ∨
      ∃ o o' p p', ts = o :: p ∧ ts' = o' :: p' ∧ Token.Alike k o o' ∧
        o.isDirective headerStart = true ∧ Prose k p p' := by
  cases h with
  | nil => exact Or.inl ⟨rfl, rfl⟩
  | token alike hsig hscript hahead hrest =>
      exact Or.inr (Or.inl ⟨_, _, _, _, rfl, rfl, alike, hsig, hscript, hahead, hrest⟩)
  | gap hgap hrest => exact Or.inr (Or.inr (Or.inl ⟨_, _, _, _, rfl, rfl, hgap, hrest⟩))
  | header hstart hopens hprose hfinish hcloses hrest =>
      exact Or.inr (Or.inr (Or.inr (Or.inl
        ⟨_, _, _, _, _, _, _, _, rfl, rfl, hstart, hopens, hprose, hfinish, hcloses, hrest⟩)))
  | unclosed hstart hopens hprose =>
      exact Or.inr (Or.inr (Or.inr (Or.inr ⟨_, _, _, _, rfl, rfl, hstart, hopens, hprose⟩)))

/-- A token that is no gap and no header stands first in both, and streams follow it. -/
theorem of_cons {t : Token} (h : Tracks k (t :: ts) ts') (hsig : t.isTrivia = false)
    (hscript : t.isDirective headerStart = false) :
    ∃ t' us', ts' = t' :: us' ∧ Token.Alike k t t' ∧ Tracks k ts us' := by
  rcases h.uncons with ⟨hnil, -⟩ | ⟨_, t', _, us', heq, rfl, halike, -, -, -, hrest⟩ |
      ⟨g, _, us, _, heq, -, hgap, -⟩ | ⟨o, _, _, _, _, _, _, _, heq, -, -, hopens, -⟩ |
      ⟨o, _, _, _, heq, -, -, hopens, -⟩
  · cases hnil
  · obtain ⟨rfl, rfl⟩ := List.cons.inj heq
    exact ⟨t', us', rfl, halike, hrest⟩
  · cases g with
    | nil => exact absurd rfl hgap.nonempty
    | cons u g =>
        obtain ⟨rfl, -⟩ := List.cons.inj heq
        rw [hgap.trivia t (by simp)] at hsig
        cases hsig
  · obtain ⟨rfl, -⟩ := List.cons.inj heq
    rw [hopens] at hscript
    cases hscript
  · obtain ⟨rfl, -⟩ := List.cons.inj heq
    rw [hopens] at hscript
    cases hscript

theorem dropWhile_trivia (h : Tracks k ts ts') :
    Tracks k (ts.dropWhile Token.isTrivia) (ts'.dropWhile Token.isTrivia) := by
  have hkeep {t : Token} (ht : t.isTrivia = false) (us : List Token) :
      (t :: us).dropWhile Token.isTrivia = t :: us := List.dropWhile_cons_of_neg (by simp [ht])
  induction h with
  | nil => exact .nil
  | token alike hsig hscript hahead hrest _ =>
      rw [hkeep hsig, hkeep (alike.isTrivia_eq ▸ hsig)]
      exact .token alike hsig hscript hahead hrest
  | gap hgap _ ih =>
      rwa [List.dropWhile_append_of_pos hgap.trivia, List.dropWhile_append_of_pos hgap.trivia']
  | header hstart hopens hprose hfinish hcloses hrest _ =>
      have hkind := isTrivia_of_directive (kind_of_isDirective hopens)
      rw [hkeep hkind, hkeep (hstart.isTrivia_eq ▸ hkind)]
      exact .header hstart hopens hprose hfinish hcloses hrest
  | unclosed hstart hopens hprose =>
      have hkind := isTrivia_of_directive (kind_of_isDirective hopens)
      rw [hkeep hkind, hkeep (hstart.isTrivia_eq ▸ hkind)]
      exact .unclosed hstart hopens hprose

/-- The same bracket stands first, or in neither stream. -/
theorem head?_isPunct (h : Tracks k ts ts') (c : Char) :
    ts.head?.any (Token.isPunct c) = ts'.head?.any (Token.isPunct c) := by
  cases h with
  | nil => rfl
  | token alike _ _ _ _ | header alike _ _ _ _ _ | unclosed alike _ _ => exact alike.isPunct_eq c
  | gap hgap _ =>
      have hnone {g us : List Token} (hne : g ≠ []) (htrivia : ∀ t ∈ g, t.isTrivia = true) :
          (g ++ us).head?.any (Token.isPunct c) = false := by
        obtain ⟨t, g, rfl⟩ := List.exists_cons_of_ne_nil hne
        exact isPunct_of_kind (kind_of_isTrivia (htrivia t (by simp))).1 c
      rw [hnone hgap.nonempty hgap.trivia, hnone hgap.nonempty' hgap.trivia']

/-- Without directives of ours there is no header, and a stream is a row. -/
theorem row (h : Tracks k ts ts') (hplain : ∀ t ∈ ts, t.isOwnDirective = false) :
    Row k ts ts' := by
  induction h with
  | nil => exact .nil
  | token alike hsig _ _ _ ih =>
      exact .token alike hsig (ih fun t ht => hplain t (List.mem_cons_of_mem _ ht))
  | gap hgap _ ih => exact .gap hgap (ih fun t ht => hplain t (List.mem_append_right _ ht))
  | header _ hopens _ _ _ _ _ | unclosed _ hopens _ =>
      have hown := isOwnDirective_of_mem_reserved (by simp [reserved]) hopens
      rw [hplain _ (by simp)] at hown
      cases hown

end Tracks

/-! ### Groups -/

/-- Groups with streams within and behind. -/
structure Group.Alike (k : Likeness) (g g' : Group) : Prop where
  inner : Tracks k g.inner g'.inner
  closer : Token.Alike k g.closer g'.closer
  rest : Tracks k g.rest g'.rest

/-- Groups that have no end, or hold tokens that are refused. -/
inductive GroupFault.Alike (k : Likeness) : GroupFault → GroupFault → Prop
  | unfinished : Alike k .unfinished .unfinished
  | refused {t t' : Token} (h : Token.Alike k t t') : Alike k (.refused t) (.refused t')

/-- A part that refuses directives only, and those by their lexemes. -/
structure Grammar.Part.Regular (p : Part) : Prop where
  congr : ∀ {t t' : Token}, t.toLexeme = t'.toLexeme → p.refused t = p.refused t'
  directive : ∀ {t : Token}, t.kind ≠ .directive → p.refused t = false

theorem argumentList_regular : argumentList.Regular := ⟨fun _ => rfl, fun _ => rfl⟩

theorem Token.isOwnDirective_eq {t t' : Token} (h : t.toLexeme = t'.toLexeme) :
    t.isOwnDirective = t'.isOwnDirective := by
  rw [isOwnDirective, isOwnDirective, isNative, isNative, value, value, h]

theorem callBody_regular : callBody.Regular :=
  ⟨Token.isOwnDirective_eq, fun h => by
    show Token.isOwnDirective _ = false
    simp [Token.isOwnDirective, h]⟩

namespace Group

variable {p : Part}

/-- Tokens that are neither brackets nor directives are read into any group. -/
theorem balanced_of_kind (hp : p.Regular) {ts : List Token}
    (h : ∀ t ∈ ts, t.kind ≠ .punct ∧ t.kind ≠ .directive) : Balanced p ts := by
  induction ts with
  | nil => exact .nil
  | cons t ts ih =>
      obtain ⟨ht, hts⟩ := List.forall_mem_cons.1 h
      exact .token (isPunct_of_kind ht.1 _) (isPunct_of_kind ht.1 _) (hp.directive ht.2) (ih hts)

/-- What stands ahead of a bracket that closes is seen before it. -/
theorem ahead_append {inner rest : List Token} {c : Token} (hkind : c.kind = .punct)
    (hc : c.isPunct '(' = false) :
    argumentList.ahead (inner ++ c :: rest) = argumentList.ahead inner := by
  have hgap : argumentList.gap c = false := by
    show (c.kind == .blank) = false
    rw [hkind]
    rfl
  unfold Part.ahead
  rw [List.dropWhile_append]
  split
  · next hnil =>
    rw [List.isEmpty_iff.1 hnil, List.dropWhile_cons_of_neg (by simp [hgap])]
    exact hc
  · next hne =>
    cases hdrop : inner.dropWhile argumentList.gap with
    | nil => simp [hdrop] at hne
    | cons t ts => rfl

variable (hp : p.Regular) (hcloser : p.closer ≠ '(')

include hp hcloser

/-- A group is read off streams up to the same bracket. -/
theorem readPart_alike {ts ts' : List Token} (h : Tracks k ts ts') (depth : Nat) :
    Both (GroupFault.Alike k) (Group.Alike k) (readPart p depth ts) (readPart p depth ts') := by
  have hmap {x y : Except GroupFault Group} {us us' : List Token}
      (hxy : Both (GroupFault.Alike k) (Group.Alike k) x y)
      (hcons : ∀ g g', x = .ok g → Group.Alike k g g' →
        Tracks k (us ++ g.inner) (us' ++ g'.inner)) :
      Both (GroupFault.Alike k) (Group.Alike k) (x.map (prepend us)) (y.map (prepend us')) := by
    cases hxy with
    | error he => exact .error he
    | ok hg => exact .ok ⟨hcons _ _ rfl hg, hg.closer, hg.rest⟩
  have hcons (t : Token) (x : Except GroupFault Group) : x.map (cons t) = x.map (prepend [t]) := rfl
  induction h generalizing depth with
  | nil => exact .error .unfinished
  | @token t t' ts ts' alike hsig hscript hahead hrest ih =>
      have hlater (d : Nat) : Both (GroupFault.Alike k) (Group.Alike k)
          ((readPart p d ts).map (cons t)) ((readPart p d ts').map (cons t')) := by
        rw [hcons, hcons]
        have hd := ih d
        generalize hx : readPart p d ts = x at hd
        generalize hy : readPart p d ts' = y at hd
        cases hd with
        | error he => exact .error he
        | @ok g g' hg =>
            have hout {ts : List Token} {g : Group} (hg : readPart p d ts = .ok g) :
                argumentList.ahead ts = argumentList.ahead g.inner := by
              have hc := (read_spec hg).1
              rw [read_append hg]
              apply ahead_append (Token.kind_of_isPunct hc)
              rw [Token.isPunct, Bool.and_eq_true, beq_iff_eq, beq_iff_eq] at hc
              simp [Token.isPunct, hc.2, hcloser]
            refine .ok ⟨.token alike hsig hscript (fun hkind => ?_) hg.inner, hg.closer, hg.rest⟩
            exact (hout hx).symm.trans ((hahead hkind).trans (hout hy))
      cases hopener : t.isPunct p.opener with
      | true =>
          rw [readPart_opener hopener, readPart_opener (alike.isPunct_eq _ ▸ hopener)]
          exact hlater _
      | false =>
          have hopener' := alike.isPunct_eq p.opener ▸ hopener
          cases hcloses : t.isPunct p.closer with
          | false =>
              rw [readPart_token hopener hcloses,
                readPart_token hopener' (alike.isPunct_eq _ ▸ hcloses), ← hp.congr alike.lexeme]
              split
              · exact .error (.refused alike)
              · exact hlater _
          | true =>
              have hcloses' := alike.isPunct_eq p.closer ▸ hcloses
              cases depth with
              | zero =>
                  rw [readPart_closer_zero hcloses, readPart_closer_zero hcloses']
                  exact .ok ⟨.nil, alike, hrest⟩
              | succ depth =>
                  rw [readPart_closer_succ hcloses, readPart_closer_succ hcloses']
                  exact hlater _
  | @gap g g' ts ts' hgap _ ih =>
      have hbalanced {g : List Token} (hg : ∀ t ∈ g, t.isTrivia = true) : Balanced p g :=
        balanced_of_kind hp fun t ht => kind_of_isTrivia (hg t ht)
      rw [readPart_balanced (hbalanced hgap.trivia), readPart_balanced (hbalanced hgap.trivia')]
      exact hmap (ih depth) fun _ _ _ hg => .gap hgap hg.inner
  | @header o o' c c' q q' ts ts' hstart hopens hprose hfinish hcloses _ ih =>
      have htoken {t : Token} (ht : t.kind = .directive) (d : Nat) (us : List Token) :
          readPart p d (t :: us) =
            if p.refused t then .error (.refused t) else (readPart p d us).map (cons t) :=
        readPart_token (isPunct_of_kind (by simp [ht]) _) (isPunct_of_kind (by simp [ht]) _)
      have ho := kind_of_isDirective hopens
      have hc := kind_of_isDirective hcloses
      rw [htoken ho, htoken (hstart.kind_eq ▸ ho), ← hp.congr hstart.lexeme]
      split
      · exact .error (.refused hstart)
      rw [readPart_balanced (balanced_of_kind hp hprose.punct.1),
        readPart_balanced (balanced_of_kind hp hprose.punct.2), htoken hc,
        htoken (hfinish.kind_eq ▸ hc), ← hp.congr hfinish.lexeme]
      split
      · exact .error (.refused hfinish)
      simp only [hcons, map_prepend_append]
      apply hmap (ih depth)
      intro g g' _ hg
      simpa using Tracks.header hstart hopens hprose hfinish hcloses hg.inner
  | @unclosed o o' q q' hstart hopens hprose =>
      have hend {o : Token} {q : List Token} (ho : o.kind = .directive)
          (hq : ∀ t ∈ q, t.kind ≠ .punct ∧ t.kind ≠ .directive) :
          readPart p depth (o :: q) =
            if p.refused o then .error (.refused o) else .error .unfinished := by
        have hinner := readPart_balanced (balanced_of_kind hp hq) depth []
        rw [List.append_nil] at hinner
        rw [readPart_token (isPunct_of_kind (by simp [ho]) _) (isPunct_of_kind (by simp [ho]) _),
          hinner]
        rfl
      have ho := kind_of_isDirective hopens
      rw [hend ho hprose.punct.1, hend (hstart.kind_eq ▸ ho) hprose.punct.2,
        ← hp.congr hstart.lexeme]
      split
      · exact .error (.refused hstart)
      · exact .error .unfinished

/-- The group of a part begins in both streams or in neither. -/
theorem group?_alike {ts ts' : List Token} (h : Tracks k ts ts') (hahead : p.ahead ts = p.ahead ts') :
    Option.Rel (Both (GroupFault.Alike k) (Group.Alike k)) (p.group? ts) (p.group? ts') := by
  cases hthere : p.ahead ts with
  | false =>
      rw [Part.group?_eq_none_iff.2 hthere, Part.group?_eq_none_iff.2 (hahead ▸ hthere)]
      exact .none
  | true =>
      have hat {ts : List Token} (hthere : p.ahead ts = true) :
          ∃ o rest, ts.dropWhile Token.isTrivia = o :: rest ∧ o.isPunct p.opener = true ∧
            p.group? ts = some (readPart p 0 rest) := by
        unfold Part.ahead at hthere
        unfold Part.group?
        cases hdrop : ts.dropWhile p.gap with
        | nil => simp [hdrop] at hthere
        | cons o rest =>
            rw [hdrop] at hthere
            have hopens : o.isPunct p.opener = true := hthere
            have hsplit := List.takeWhile_append_dropWhile (p := p.gap) (l := ts)
            refine ⟨o, rest, ?_, hopens, by simp [hopens]⟩
            rw [← hsplit, hdrop, List.dropWhile_append_of_pos, List.dropWhile_cons_of_neg]
            · have hkind := Token.kind_of_isPunct hopens
              simp [Token.isTrivia, hkind, TokenKind.isTrivia]
            · exact fun t ht => p.isTrivia_of_gap t (List.mem_takeWhile_imp ht)
      obtain ⟨o, rest, hdrop, hopens, hgroup⟩ := hat hthere
      obtain ⟨o', rest', hdrop', hopens', hgroup'⟩ := hat (hahead ▸ hthere)
      have htracks := h.dropWhile_trivia
      rw [hdrop, hdrop'] at htracks
      have hkind := Token.kind_of_isPunct hopens
      obtain ⟨_, _, heq, -, hrest⟩ := htracks.of_cons
        (by rw [Token.isTrivia, hkind]; rfl) (by simp [Token.isDirective, hkind])
      obtain ⟨rfl, rfl⟩ := List.cons.inj heq
      rw [hgroup, hgroup']
      exact .some (readPart_alike hp hcloser hrest 0)

end Group

/-! ### Argument lists and bodies -/

namespace Call

theorem forall₂_consFirst {t t' : Token} (ht : Token.Alike k t t') (hsig : t.isTrivia = false)
    {pieces pieces' : List (List Token)} (h : List.Forall₂ (Argument k) pieces pieces') :
    List.Forall₂ (Argument k) (consFirst t pieces) (consFirst t' pieces') := by
  cases h with
  | nil => exact .cons (.token ht hsig .nil) .nil
  | cons hpiece hpieces => exact .cons (.token ht hsig hpiece) hpieces

theorem splitCommas_token {t : Token} (hpunct : t.kind ≠ .punct) (depth : Nat) (ts : List Token) :
    splitCommas depth (t :: ts) =
      if t.isTrivia then splitCommas depth ts else consFirst t (splitCommas depth ts) := by
  rw [splitCommas]
  simp [isPunct_of_kind hpunct]

theorem splitCommas_append {p : List Token} (hp : ∀ t ∈ p, t.kind ≠ .punct) (depth : Nat)
    (ts : List Token) : splitCommas depth (p ++ ts) =
      (Token.significant p).foldr consFirst (splitCommas depth ts) := by
  induction p with
  | nil => rfl
  | cons t p ih =>
      obtain ⟨ht, hp⟩ := List.forall_mem_cons.1 hp
      rw [List.cons_append, splitCommas_token ht, ih hp, Token.significant_cons]
      split <;> rfl

theorem foldr_consFirst (q first : List Token) (more : List (List Token)) :
    q.foldr consFirst (first :: more) = (q ++ first) :: more := by
  induction q with
  | nil => rfl
  | cons t q ih => rw [List.foldr_cons, ih, consFirst, List.cons_append]

/-- Prose goes with the directive before it. -/
theorem splitCommas_prose {o o' : Token} {p p' ts ts' : List Token} (ho : Token.Alike k o o')
    (hopens : o.isDirective headerStart = true) (hprose : Prose k p p') (depth : Nat)
    (h : List.Forall₂ (Argument k) (splitCommas depth ts) (splitCommas depth ts')) :
    List.Forall₂ (Argument k) (splitCommas depth (o :: (p ++ ts)))
      (splitCommas depth (o' :: (p' ++ ts'))) := by
  have hkind := kind_of_isDirective hopens
  have hkind' : o'.kind = .directive := ho.kind_eq ▸ hkind
  rw [splitCommas_token (by simp [hkind]), splitCommas_token (by simp [hkind']),
    isTrivia_of_directive hkind, isTrivia_of_directive hkind',
    splitCommas_append fun t ht => (hprose.punct.1 t ht).1,
    splitCommas_append fun t ht => (hprose.punct.2 t ht).1]
  have hne := splitCommas_ne_nil depth ts
  generalize splitCommas depth ts = pieces at h hne
  generalize splitCommas depth ts' = pieces' at h
  cases h with
  | nil => exact absurd rfl hne
  | cons hpiece hpieces =>
      rw [foldr_consFirst, foldr_consFirst]
      exact .cons (.header ho hkind hprose.text.1 hprose.text.2 hprose.quote hpiece) hpieces

theorem splitCommas_alike {ts ts' : List Token} (h : Tracks k ts ts') (depth : Nat) :
    List.Forall₂ (Argument k) (splitCommas depth ts) (splitCommas depth ts') := by
  induction h generalizing depth with
  | nil => exact .cons .nil .nil
  | @token t t' ts ts' alike hsig _ _ _ ih =>
      rw [splitCommas, splitCommas]
      simp only [← alike.isPunct_eq, ← alike.isTrivia_eq, hsig, Bool.false_eq_true, if_false]
      split
      · exact forall₂_consFirst alike hsig (ih _)
      split
      · exact forall₂_consFirst alike hsig (ih _)
      split
      · exact .cons .nil (ih _)
      · exact forall₂_consFirst alike hsig (ih _)
  | gap hgap _ ih =>
      rw [splitCommas_append fun t ht => (kind_of_isTrivia (hgap.trivia t ht)).1,
        splitCommas_append fun t ht => (kind_of_isTrivia (hgap.trivia' t ht)).1,
        significant_trivia hgap.trivia, significant_trivia hgap.trivia']
      exact ih depth
  | header hstart hopens hprose hfinish hcloses _ ih =>
      apply splitCommas_prose hstart hopens hprose
      have hkind := kind_of_isDirective hcloses
      have hsig := isTrivia_of_directive hkind
      rw [splitCommas_token (by simp [hkind]), splitCommas_token (by simp [← hfinish.kind_eq, hkind]),
        ← hfinish.isTrivia_eq, hsig]
      exact forall₂_consFirst hfinish hsig (ih depth)
  | @unclosed o o' p p' hstart hopens hprose =>
      have hnil : List.Forall₂ (Argument k) (splitCommas depth []) (splitCommas depth []) :=
        .cons .nil .nil
      have hsplit := splitCommas_prose hstart hopens hprose depth hnil
      rwa [List.append_nil, List.append_nil] at hsplit

theorem arguments_alike {ts ts' : List Token} (h : Tracks k ts ts') :
    List.Forall₂ (Argument k) (arguments ts) (arguments ts') := by
  have hsplit := splitCommas_alike h 0
  unfold arguments
  generalize splitCommas 0 ts = pieces at hsplit
  generalize splitCommas 0 ts' = pieces' at hsplit
  cases hsplit with
  | nil => exact .nil
  | @cons piece piece' pieces pieces' hpiece hpieces =>
      cases hpiece with
      | token alike hsig hrest => exact .cons (.token alike hsig hrest) hpieces
      | header alike hkind htext htext' hquote hrest =>
          exact .cons (.header alike hkind htext htext' hquote hrest) hpieces
      | nil =>
          cases hpieces with
          | nil => exact .nil
          | cons hsecond hmore => exact .cons .nil (.cons hsecond hmore)

end Call

end MapScript
