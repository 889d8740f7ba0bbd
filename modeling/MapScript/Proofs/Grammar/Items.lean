import MapScript.Proofs.Block

/-!
# The grammar of blocks

A second account of which rows of tokens have blocks, without a builder: a script
is a sequence of items, and the items of a repeated block are a sequence of their
own.  Argument lists and bodies are the bracketed parts of calls: a reader of
groups takes one exactly if its brackets come in pairs up to the one that closes
it.
-/

namespace MapScript

open Lexer (headerStart headerEnd)

namespace Grammar

/-! ### Bracketed parts -/

/-- A part of a call in brackets: what may stand before it, its brackets and the
tokens that must not stand in it. -/
structure Part where
  gap : Token → Bool
  opener : Char
  closer : Char
  refused : Token → Bool
  opener_ne : opener ≠ closer
  isTrivia_of_gap : ∀ t : Token, gap t = true → t.isTrivia = true

/-- An argument list: parentheses after blanks, with any tokens in them. -/
def argumentList : Part where
  gap t := t.kind == .blank
  opener := '('
  closer := ')'
  refused _ := false
  opener_ne := by decide
  isTrivia_of_gap t h := by simp [Token.isTrivia, eq_of_beq h, TokenKind.isTrivia]

/-- A body: braces after any trivia, without directives to be interpreted. -/
def callBody : Part where
  gap := Token.isTrivia
  opener := '\x7b'
  closer := '\x7d'
  refused := Token.isOwnDirective
  opener_ne := by decide
  isTrivia_of_gap _ h := h

/-- Tokens whose brackets come in pairs and of which none is refused. -/
inductive Balanced (p : Part) : List Token → Prop
  | nil : Balanced p []
  | token {t : Token} {ts : List Token} (opener : t.isPunct p.opener = false)
      (closer : t.isPunct p.closer = false) (allowed : p.refused t = false)
      (rest : Balanced p ts) : Balanced p (t :: ts)
  | pair {o c : Token} {inner ts : List Token} (opener : o.isPunct p.opener = true)
      (closer : c.isPunct p.closer = true) (within : Balanced p inner) (rest : Balanced p ts) :
      Balanced p (o :: (inner ++ c :: ts))

namespace Part

/-- The part stands first and the rest follows it. -/
inductive Reads (p : Part) : List Token → List Token → Prop
  | mk {gaps inner rest : List Token} {o c : Token} (gap : ∀ t ∈ gaps, p.gap t = true)
      (opener : o.isPunct p.opener = true) (within : Balanced p inner)
      (closer : c.isPunct p.closer = true) : Reads p (gaps ++ o :: (inner ++ c :: rest)) rest

/-- Whether the part begins here. -/
def ahead (p : Part) (ts : List Token) : Bool :=
  (ts.dropWhile p.gap).head?.any (Token.isPunct p.opener)

/-- The part, which is taken wherever it begins, and what follows. -/
def Optional (p : Part) (ts rest : List Token) : Prop :=
  p.Reads ts rest ∨ p.ahead ts = false ∧ ts = rest

end Part

/-! ### Items -/

/-- Whether items stand at the top level of a script or in a repeated block. -/
inductive Level where
  | outermost
  | nested
deriving DecidableEq, Repr

/-- The directives that have a meaning of their own. -/
def reserved : List Text :=
  [(BlockKind.repeated []).opener, (BlockKind.repeated []).closer, headerStart, headerEnd] ++
    Marker.all.map Marker.name

/-- A directive that calls a pattern. -/
def IsCall (t : Token) : Prop :=
  t.isOwnDirective = true ∧ ∀ name ∈ reserved, t.isDirective name = false

/-- Tokens that are a sequence of items. -/
inductive Items : Level → List Token → Prop
  | nil {level : Level} : Items level []
  /-- A token that is no directive, or a directive of the engine. -/
  | token {level : Level} {t : Token} {ts : List Token}
      (plain : t.kind ≠ .directive ∨ t.isNative = true) (rest : Items level ts) :
      Items level (t :: ts)
  | marker {level : Level} {t : Token} {ts : List Token} (m : Marker)
      (name : t.isDirective m.name = true) (rest : Items level ts) : Items level (t :: ts)
  /-- A header, whatever stands in it, at the top level only. -/
  | header {t e : Token} {prose ts : List Token} (start : t.isDirective headerStart = true)
      (within : ∀ u ∈ prose, u.isDirective headerEnd = false)
      (finish : e.isDirective headerEnd = true) (rest : Items .outermost ts) :
      Items .outermost (t :: (prose ++ e :: ts))
  /-- A repeated block with its argument list. -/
  | repeated {level : Level} {t e : Token} {ts inner rest : List Token}
      (start : t.isDirective "REPEAT".toList = true)
      (count : argumentList.Reads ts (inner ++ e :: rest)) (within : Items .nested inner)
      (finish : e.isDirective "END_REPEAT".toList = true) (rest : Items level rest) :
      Items level (t :: ts)
  /-- A pattern call with its argument list and its body, where there are such. -/
  | call {level : Level} {t : Token} {ts mid rest : List Token} (name : IsCall t)
      (arguments : argumentList.Optional ts mid) (content : callBody.Optional mid rest)
      (rest : Items level rest) : Items level (t :: ts)

end Grammar

/-! ### Groups -/

namespace Group

open Grammar

variable {p : Part}

theorem isPunct_closer_of_opener {t : Token} (h : t.isPunct p.opener = true) :
    t.isPunct p.closer = false := by
  simp only [Token.isPunct, Bool.and_eq_true, beq_iff_eq] at h
  simp [Token.isPunct, h.2, p.opener_ne]

theorem isPunct_opener_of_closer {t : Token} (h : t.isPunct p.closer = true) :
    t.isPunct p.opener = false := by
  by_contra hopener
  rw [isPunct_closer_of_opener (by simpa using hopener)] at h
  cases h

/-- The group with tokens in front. -/
def prepend (ts : List Token) (g : Group) : Group := { g with inner := ts ++ g.inner }

/-- Reading a group of a part, `depth` brackets being open within it. -/
abbrev readPart (p : Part) : Nat → List Token → Except GroupFault Group :=
  read (Token.isPunct p.opener) (Token.isPunct p.closer) p.refused

section
variable {t : Token} {ts : List Token} {depth : Nat}

theorem readPart_opener (h : t.isPunct p.opener = true) :
    readPart p depth (t :: ts) = (readPart p (depth + 1) ts).map (cons t) := by
  rw [readPart, read.eq_def]
  simp only [h, if_true]

theorem readPart_closer_zero (h : t.isPunct p.closer = true) :
    readPart p 0 (t :: ts) = .ok ⟨[], t, ts⟩ := by
  rw [readPart, read.eq_def]
  simp [h, isPunct_opener_of_closer h]

theorem readPart_closer_succ (h : t.isPunct p.closer = true) :
    readPart p (depth + 1) (t :: ts) = (readPart p depth ts).map (cons t) := by
  rw [readPart, read.eq_def]
  simp [h, isPunct_opener_of_closer h]

theorem readPart_token (hopener : t.isPunct p.opener = false)
    (hcloser : t.isPunct p.closer = false) :
    readPart p depth (t :: ts) =
      if p.refused t then .error (.refused t) else (readPart p depth ts).map (cons t) := by
  rw [readPart, read.eq_def]
  simp [hopener, hcloser]

end

theorem map_cons_prepend (t : Token) (us : List Token) (x : Except GroupFault Group) :
    (x.map (prepend us)).map (cons t) = x.map (prepend (t :: us)) := by
  cases x <;> rfl

theorem map_prepend_append (us vs : List Token) (x : Except GroupFault Group) :
    (x.map (prepend vs)).map (prepend us) = x.map (prepend (us ++ vs)) := by
  cases x <;> simp [Except.map, prepend]

/-- Balanced tokens are read into any group, at any depth. -/
theorem readPart_balanced {inner : List Token} (h : Balanced p inner) (depth : Nat)
    (ts : List Token) :
    readPart p depth (inner ++ ts) = (readPart p depth ts).map (prepend inner) := by
  induction h generalizing depth ts with
  | nil => cases hr : readPart p depth ts <;> simp [hr, Except.map, prepend]
  | token hopener hcloser hallowed _ ih =>
      rw [List.cons_append, readPart_token hopener hcloser, hallowed, ih, map_cons_prepend]
      rfl
  | pair hopener hcloser _ _ ihw ihr =>
      rw [List.cons_append, List.append_assoc, readPart_opener hopener, ihw, map_cons_prepend,
        List.cons_append, readPart_closer_succ hcloser, ihr, map_cons_prepend, map_prepend_append,
        List.cons_append]

/-- Tokens that close so many groups and are balanced between. -/
def Closes (p : Part) : Nat → List Token → Prop
  | 0, ts => Balanced p ts
  | n + 1, ts => ∃ before c after, ts = before ++ c :: after ∧ Balanced p before ∧
      c.isPunct p.closer = true ∧ Closes p n after

theorem Closes.token {n : Nat} {t : Token} {ts : List Token} (h : Closes p n ts)
    (hopener : t.isPunct p.opener = false) (hcloser : t.isPunct p.closer = false)
    (hallowed : p.refused t = false) : Closes p n (t :: ts) := by
  cases n with
  | zero => exact Balanced.token hopener hcloser hallowed h
  | succ n =>
      obtain ⟨before, c, after, rfl, hbefore, hc, hafter⟩ := h
      have hbalanced := Balanced.token hopener hcloser hallowed hbefore
      exact ⟨t :: before, c, after, rfl, hbalanced, hc, hafter⟩

theorem Closes.pair {n : Nat} {o : Token} {ts : List Token} (h : Closes p (n + 1) ts)
    (hopener : o.isPunct p.opener = true) : Closes p n (o :: ts) := by
  obtain ⟨before, c, after, rfl, hbefore, hc, hafter⟩ := h
  cases n with
  | zero => exact Balanced.pair hopener hc hbefore hafter
  | succ n =>
      obtain ⟨between, d, rest, rfl, hbetween, hd, hrest⟩ := hafter
      exact ⟨o :: (before ++ c :: between), d, rest, by simp,
        Balanced.pair hopener hc hbefore hbetween, hd, hrest⟩

/-- What is read into a group closes the brackets that are open. -/
theorem closes_of_readPart {depth : Nat} {ts : List Token} {g : Group}
    (h : readPart p depth ts = .ok g) : Closes p depth g.inner := by
  induction ts generalizing depth g with
  | nil => simp [readPart, read] at h
  | cons t ts ih =>
      have hmap {d : Nat} (hd : (readPart p d ts).map (cons t) = .ok g) :
          ∃ g', readPart p d ts = .ok g' ∧ g.inner = t :: g'.inner := by
        cases hr : readPart p d ts with
        | error e => simp [hr, Except.map] at hd
        | ok g' =>
            simp only [hr, Except.map, Except.ok.injEq] at hd
            exact ⟨g', rfl, by rw [← hd]; rfl⟩
      cases hopener : t.isPunct p.opener with
      | true =>
          rw [readPart_opener hopener] at h
          obtain ⟨g', hg', hinner⟩ := hmap h
          rw [hinner]
          exact (ih hg').pair hopener
      | false =>
          cases hcloser : t.isPunct p.closer with
          | true =>
              cases depth with
              | zero =>
                  rw [readPart_closer_zero hcloser] at h
                  cases h
                  exact Balanced.nil
              | succ depth =>
                  rw [readPart_closer_succ hcloser] at h
                  obtain ⟨g', hg', hinner⟩ := hmap h
                  exact ⟨[], t, g'.inner, hinner, .nil, hcloser, ih hg'⟩
          | false =>
              rw [readPart_token hopener hcloser] at h
              split at h
              · cases h
              · next hallowed =>
                obtain ⟨g', hg', hinner⟩ := hmap h
                rw [hinner]
                exact (ih hg').token hopener hcloser (by simpa using hallowed)

/-- A group is read exactly if it is balanced up to a closing bracket. -/
theorem readPart_eq_ok_iff {ts : List Token} {g : Group} :
    readPart p 0 ts = .ok g ↔
      Balanced p g.inner ∧ g.closer.isPunct p.closer = true ∧
        ts = g.inner ++ g.closer :: g.rest := by
  constructor
  · intro h
    exact ⟨closes_of_readPart h, (read_spec h).1, read_append h⟩
  · rintro ⟨hinner, hcloser, rfl⟩
    rw [readPart_balanced hinner, readPart_closer_zero hcloser]
    simp [Except.map, prepend]

end Group

namespace Grammar.Part

variable {p : Part}

/-- The group of a part that begins here, if one does. -/
def group? (p : Part) (ts : List Token) : Option (Except GroupFault Group) :=
  match ts.dropWhile p.gap with
  | t :: rest => if t.isPunct p.opener then some (Group.readPart p 0 rest) else none
  | [] => none

theorem group?_eq_none_iff {ts : List Token} : p.group? ts = none ↔ p.ahead ts = false := by
  unfold group? ahead
  cases ts.dropWhile p.gap with
  | nil => simp
  | cons t rest => cases h : t.isPunct p.opener <;> simp [h]

theorem gap_of_kind {t : Token} (h : t.kind.isTrivia = false) : p.gap t = false :=
  Bool.eq_false_iff.2 fun hgap => Bool.eq_false_iff.1 h (p.isTrivia_of_gap t hgap)

theorem gap_of_isPunct {t : Token} {c : Char} (h : t.isPunct c = true) : p.gap t = false :=
  gap_of_kind (by rw [Token.kind_of_isPunct h]; rfl)

theorem reads_iff {ts rest : List Token} :
    p.Reads ts rest ↔ ∃ g, p.group? ts = some (.ok g) ∧ g.rest = rest := by
  constructor
  · rintro ⟨hgaps, hopener, hinner, hcloser⟩
    next gaps inner o c =>
    refine ⟨⟨inner, c, rest⟩, ?_, rfl⟩
    unfold group?
    rw [List.dropWhile_append_of_pos hgaps,
      List.dropWhile_cons_of_neg (by simp [gap_of_isPunct hopener])]
    simp only [hopener, if_true, Option.some.injEq]
    exact Group.readPart_eq_ok_iff.2 ⟨hinner, hcloser, rfl⟩
  · rintro ⟨g, hg, rfl⟩
    have hsplit := List.takeWhile_append_dropWhile (p := p.gap) (l := ts)
    unfold group? at hg
    split at hg
    · next t rest hdrop =>
      split at hg
      · next hopener =>
        obtain ⟨hinner, hcloser, rfl⟩ := Group.readPart_eq_ok_iff.1 (Option.some.inj hg)
        rw [← hsplit, hdrop]
        exact .mk (fun t ht => List.mem_takeWhile_imp ht) hopener hinner hcloser
      · cases hg
    · cases hg

/-- The part is taken exactly if it begins here and its group is read. -/
theorem optional_iff {ts rest : List Token} :
    p.Optional ts rest ↔
      ∃ found : Option Group, p.group? ts = found.map .ok ∧
        (found.map Group.rest).getD ts = rest := by
  rw [Optional, reads_iff, ← group?_eq_none_iff]
  constructor
  · rintro (⟨g, hg, rfl⟩ | ⟨hnone, rfl⟩)
    · exact ⟨some g, hg, rfl⟩
    · exact ⟨none, hnone, rfl⟩
  · rintro ⟨_ | g, hfound, rfl⟩
    · exact Or.inr ⟨hfound, rfl⟩
    · exact Or.inl ⟨g, hfound, rfl⟩

end Grammar.Part

namespace Call

open Grammar

theorem parens?_eq (ts : List Token) :
    Group.parens? ts = (Group.readPart argumentList 0 ts).toOption := by
  rw [Group.parens?]
  cases h : Group.readPart argumentList 0 ts with
  | ok g =>
      have hread : Group.read (Token.isPunct '(') (Token.isPunct ')') (fun _ => false) 0 ts =
          .ok g := h
      rw [hread]
      rfl
  | error e =>
      have hread : Group.read (Token.isPunct '(') (Token.isPunct ')') (fun _ => false) 0 ts =
        .error e := h
      rw [hread]
      rfl

theorem readArguments_eq_ok_iff {directive : Token} {ts : List Token} {found : Option Group} :
    readArguments directive ts = .ok found ↔ argumentList.group? ts = found.map .ok := by
  have hgap : (fun t : Token => t.kind == .blank) = argumentList.gap := rfl
  have hopener : argumentList.opener = '(' := rfl
  unfold readArguments Part.group?
  rw [hgap, hopener]
  cases ts.dropWhile argumentList.gap with
  | nil => cases found <;> simp
  | cons t rest =>
      dsimp only
      split
      · rw [parens?_eq]
        cases Group.readPart argumentList 0 rest <;> cases found <;> simp [Except.toOption]
      · cases found <;> simp

theorem readBody_eq_ok_iff {directive : Token} {ts : List Token} {found : Option Group} :
    readBody directive ts = .ok found ↔ callBody.group? ts = found.map .ok := by
  have hgap : callBody.gap = Token.isTrivia := rfl
  have hopener : callBody.opener = '\x7b' := rfl
  have hread (rest : List Token) : Group.readPart callBody 0 rest =
      Group.read (Token.isPunct '\x7b') (Token.isPunct '\x7d') Token.isOwnDirective 0 rest := rfl
  unfold readBody Part.group?
  rw [hgap, hopener]
  cases ts.dropWhile Token.isTrivia with
  | nil => cases found <;> simp
  | cons t rest =>
      dsimp only
      rw [hread]
      split
      · cases Group.read (Token.isPunct '\x7b') (Token.isPunct '\x7d') Token.isOwnDirective 0
          rest with
        | ok g => cases found <;> simp
        | error e => cases e <;> cases found <;> simp
      · cases found <;> simp

/-- A call is read exactly if its argument list and its body are whole where they begin. -/
theorem read_iff {directive : Token} {ts rest : List Token} :
    (∃ call, read directive ts = .ok (call, rest)) ↔
      ∃ mid, argumentList.Optional ts mid ∧ callBody.Optional mid rest := by
  simp only [Part.optional_iff]
  constructor
  · rintro ⟨call, h⟩
    unfold read at h
    split at h
    · cases h
    next args hargs =>
    dsimp only at h
    split at h
    · cases h
    next content hcontent =>
      simp only [Except.ok.injEq, Prod.mk.injEq] at h
      exact ⟨_, ⟨args, readArguments_eq_ok_iff.1 hargs, rfl⟩,
        ⟨content, readBody_eq_ok_iff.1 hcontent, h.2⟩⟩
  · rintro ⟨mid, ⟨args, hargs, rfl⟩, ⟨content, hcontent, rfl⟩⟩
    have hlist : readArguments directive ts = .ok args := readArguments_eq_ok_iff.2 hargs
    have hbody : readBody directive ((args.map Group.rest).getD ts) = .ok content :=
      readBody_eq_ok_iff.2 hcontent
    unfold read
    simp only [hlist, hbody]
    exact ⟨_, rfl⟩

end Call

end MapScript
