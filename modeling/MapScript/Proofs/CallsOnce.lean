import MapScript.Proofs.GeneratedNames
import MapScript.Proofs.HoistedParts

/-!
# Random calls that are taken out once

A call whose arguments are numbers as soon as the constants of the script among them are
replaced is declared for good.  What the declarations and the rest of the row call after
that are the operands of constants, and these are left alone.
-/

namespace MapScript

open Evaluation (HasValue)
open Resolve (isConst isAreaCommand)

namespace Hoist

/-- What is remembered of a row and of what is written for it: a directive that stands last
in the row stands there in both, and so does the name behind one. -/
structure Follows (source written : List Token) : Prop where
  directive : ∀ c, source.head? = some c → isConst c = true → written.head? = some c
  name : afterConst source = true → afterConst written = true

theorem Follows.nil : Follows [] [] := ⟨by simp, id⟩

theorem Follows.token {s r : List Token} (h : Follows s r) (t : Token) :
    Follows (remember s t) (remember r t) := by
  rw [remember, remember]
  split
  · exact h
  · refine ⟨fun c hc _ => hc, fun hconst => ?_⟩
    cases s with
    | nil => cases hconst
    | cons c s =>
        simp only [List.take_succ_cons, List.take_zero, afterConst, Bool.and_eq_true] at hconst
        have hhead := h.directive c rfl hconst.2
        cases r with
        | nil => cases hhead
        | cons c' r =>
            obtain rfl : c' = c := Option.some.inj hhead
            simp [afterConst, hconst]

/-- Behind a call no constant is declared. -/
theorem Follows.call {c : RandomCall} (hc : c.Formed) (s r : List Token) :
    Follows (c.tokens.foldl remember s) r := by
  have hkind := Token.kind_of_isPunct hc.closer
  have hlast : c.tokens.foldl remember s =
      (c.group.closer :: (c.name :: c.opening :: c.group.inner).foldl remember s).take 2 := by
    rw [RandomCall.tokens, RandomCall.arguments, ← List.cons_append, List.foldl_append,
      List.foldl_cons, List.foldl_nil, remember]
    simp [Token.isTrivia, hkind, TokenKind.isTrivia]
  rw [hlast]
  constructor
  · rintro d hd hconst
    obtain rfl : c.group.closer = d := by simpa using hd
    simp [isConst, hkind] at hconst
  · intro hconst
    unfold afterConst at hconst
    split at hconst
    · next name directive heq =>
      obtain rfl : c.group.closer = name := by simpa using congrArg List.head? heq
      simp [hkind] at hconst
    · cases hconst

section
variable {table : SymbolTable} {recent ts : List Token} {stretches : List Stretch}

/-- A parenthesis stands first in what is written if it does in the row. -/
theorem Scans.opens (h : Scans table recent ts stretches) :
    (Token.significant (writtenOf stretches)).head?.any (Token.isPunct '(') =
      (Token.significant ts).head?.any (Token.isPunct '(') := by
  have hword {t : Token} (h : t.kind = .word) (us : List Token) :
      (Token.significant (t :: us)).head?.any (Token.isPunct '(') = false := by
    rw [Token.significant_cons]
    simp [Token.isTrivia, h, TokenKind.isTrivia, Token.isPunct]
  induction h with
  | nil => rfl
  | @token recent rest t stretches _ _ ih =>
      have hwritten : writtenOf (.token t :: stretches) = t :: writtenOf stretches := rfl
      rw [hwritten, Token.significant_cons, Token.significant_cons]
      split
      · exact ih
      · rfl
  | @call recent c stretch stretches _ hformed hdisposes _ _ =>
      have hcalled := hword hformed.kind (c.arguments ++ c.group.rest)
      cases hdisposes with
      | hoisted => exact (hword rfl (writtenOf stretches)).trans hcalled.symm
      | kept => exact (hword hformed.kind (c.arguments ++ writtenOf stretches)).trans hcalled.symm

/-- No call that lasts is left where it is. -/
theorem Lasts.not_blocks (hwrites : table.Writes) {c : RandomCall} (hc : c.Formed)
    (h : Lasts table c) (blocker : Token) : ¬Blocks table c blocker := by
  intro hblocks
  have hword : blocker.kind = .word := by
    have hconstant := hblocks.constant
    rw [isConstant, Bool.and_eq_true, beq_iff_eq] at hconstant
    exact hconstant.1
  have hpunct {t : Token} {p : Char} (ht : t.isPunct p = true) : blocker ≠ t := by
    rintro rfl
    simp [Token.isPunct, hword] at ht
  have hinner : blocker ∈ c.group.inner := by
    simpa [RandomCall.arguments, hpunct hc.opening, hpunct hc.closer] using hblocks.argument
  obtain ⟨v, hfolding, -⟩ := h.valued blocker hinner hblocks.constant
  have hvalue := hasValue_of_folding hwrites hblocks.constant hfolding
  cases hvalue.unique hblocks.unvalued

/-- A row consists of tokens and of calls that last, if every call is one or the operand of a
constant. -/
theorem Scans.parts (hwrites : table.Writes) {names : List Text}
    (h : Scans table recent ts stretches) {before : List Token}
    (hfollows : Follows (before.foldl remember []) recent)
    (hlasts : ∀ ahead us c, before ++ ts = ahead ++ us → RandomCall.read? us = some c →
      EndsInConst ahead ∨ Lasts table c)
    (hnames : ∀ x, .call x ∈ stretches → x.name ∈ names ∧ isAreaCommand x.name = false) :
    Parts table names stretches := by
  induction h generalizing before with
  | nil => exact .nil
  | @token recent rest t stretches _ _ ih =>
      have hlater : Follows ((before ++ [t]).foldl remember []) (remember recent t) := by
        rw [List.foldl_append]
        exact hfollows.token t
      exact .token t (ih hlater (by simpa using hlasts) fun x hx =>
        hnames x (List.mem_cons_of_mem _ hx))
  | @call recent c stretch stretches hfree hformed hdisposes hlater ih =>
      have hlast : Lasts table c := by
        refine (hlasts before _ c rfl (RandomCall.read?_eq_some_iff.2 ⟨hformed, rfl⟩)).resolve_left ?_
        intro hends
        rw [hfollows.name ((afterConst_iff before).2 hends)] at hfree
        cases hfree
      cases hdisposes with
      | kept hblocks => exact absurd hblocks (hlast.not_blocks hwrites hformed _)
      | @hoisted x hcall hdeclares hname =>
          subst hcall
          obtain ⟨hmem, hplain⟩ := hnames x List.mem_cons_self
          have hbehind : Follows ((before ++ x.call.tokens).foldl remember [])
              ((Stretch.call x).written.foldl remember recent) := by
            rw [List.foldl_append]
            exact .call hformed _ _
          refine .call ⟨⟨hformed, hlast, hdeclares, hmem, hname, hplain⟩, ?_⟩
            (ih hbehind (by simpa using hlasts) fun y hy => hnames y (List.mem_cons_of_mem _ hy))
          rw [hlater.opens]
          exact hlast.uncalled

end

/-! ### What still calls -/

/-- Every random call of the row, before which others stand, is the operand of a constant. -/
def Declared (front row : List Token) : Prop :=
  ∀ ahead us c, row = ahead ++ us → RandomCall.read? us = some c → EndsInConst (front ++ ahead)

/-- A parenthesis stands directly behind every name of a random call. -/
def Direct (row : List Token) : Prop :=
  ∀ t us, t :: us <:+ row → t.isWord "rnd".toList = true → us.head?.any (Token.isPunct '(') = true

theorem EndsInConst.append {before : List Token} (h : EndsInConst before) (front : List Token) :
    EndsInConst (front ++ before) := by
  obtain ⟨ahead, c, n, hbefore, hc⟩ := h
  refine ⟨Token.significant front ++ ahead, c, n, ?_, hc⟩
  rw [significant_append, hbefore, List.append_assoc]

theorem Declared.behind {front row : List Token} (h : Declared front row) (more : List Token) :
    Declared (more ++ front) row := by
  intro ahead us c hrow hread
  rw [List.append_assoc]
  exact (h ahead us c hrow hread).append more

theorem Declared.cons {front row : List Token} {t : Token}
    (ht : t.isWord "rnd".toList = false ∨ EndsInConst front) (h : Declared (front ++ [t]) row) :
    Declared front (t :: row) := by
  intro ahead us c hrow hread
  cases ahead with
  | nil =>
      rw [List.append_nil]
      obtain ⟨hformed, hus⟩ := RandomCall.read?_eq_some_iff.1 hread
      rw [List.nil_append, hus, RandomCall.tokens_append_rest] at hrow
      obtain ⟨rfl, -⟩ := List.cons.inj hrow
      refine ht.resolve_left ?_
      rw [hformed.name]
      exact Bool.noConfusion
  | cons u ahead =>
      obtain ⟨rfl, rfl⟩ := List.cons.inj hrow
      rw [List.append_cons]
      exact h ahead us c rfl hread

theorem Declared.append {front row part : List Token}
    (hpart : ∀ t ∈ part, t.isWord "rnd".toList = false) (h : Declared (front ++ part) row) :
    Declared front (part ++ row) := by
  induction part generalizing front with
  | nil => simpa using h
  | cons t part ih =>
      obtain ⟨ht, hpart⟩ := List.forall_mem_cons.1 hpart
      exact .cons (Or.inl ht) (ih hpart (by simpa using h))

theorem Direct.cons {t : Token} {row : List Token}
    (ht : t.isWord "rnd".toList = true → row.head?.any (Token.isPunct '(') = true)
    (h : Direct row) : Direct (t :: row) := by
  intro u us hus hu
  rcases List.suffix_cons_iff.1 hus with heq | hus
  · obtain ⟨rfl, rfl⟩ := List.cons.inj heq
    exact ht hu
  · exact h u us hus hu

theorem Direct.append {part row : List Token}
    (hpart : ∀ t ∈ part, t.isWord "rnd".toList = false) (h : Direct row) :
    Direct (part ++ row) := by
  induction part with
  | nil => exact h
  | cons t part ih =>
      obtain ⟨ht, hpart⟩ := List.forall_mem_cons.1 hpart
      refine .cons (fun hrnd => ?_) (ih hpart)
      rw [ht] at hrnd
      cases hrnd

theorem Direct.of_suffix {row row' : List Token} (h : Direct row) (hrow : row' <:+ row) :
    Direct row' := fun t us hus => h t us (hus.trans hrow)

section
variable {table : SymbolTable} {names : List Text} {ts : List Token} {stretches : List Stretch}
  {calls : List Hoisted} {x : Hoisted}

theorem Parts.taken (h : Parts table names stretches) :
    ∀ x ∈ stretches.filterMap Stretch.hoisted?, Taken table names x := by
  induction h with
  | nil => simp
  | token t _ ih => exact ih
  | call hleaves _ ih => exact List.forall_mem_cons.2 ⟨hleaves.toTaken, ih⟩

theorem Parts.not_kept (h : Parts table names stretches) (c : RandomCall) (blocker : Token) :
    .kept c blocker ∉ stretches := by
  induction h with
  | nil => simp
  | token t _ ih => simpa using ih
  | call _ _ ih => simpa using ih

/-- What is left of a row has no calls but those that are operands of constants. -/
theorem Scans.declared (h : Scans table [] ts stretches) (hparts : Parts table names stretches) :
    Declared [] (writtenOf stretches) := by
  intro ahead us c hrow hread
  refine (h.accountedFor.remains ahead us c hrow hread).resolve_right ?_
  rintro ⟨front, c', blocker, back, hstretches, -⟩
  exact hparts.not_kept c' blocker (by simp [hstretches])

theorem not_isWord_name (h : x.name ≠ "rnd".toList) (span : Span) :
    (Token.made .word x.name span).isWord "rnd".toList = false := by
  simpa [Token.isWord, Token.made] using h

theorem Parts.opens_directly (h : Parts table names stretches)
    (hopens : (sourceOf stretches).head?.any (Token.isPunct '(') = true) :
    (writtenOf stretches).head?.any (Token.isPunct '(') = true := by
  cases h with
  | nil => exact hopens
  | token t _ => exact hopens
  | @call x back hleaves _ =>
      have hname : x.call.name.isPunct '(' = true := hopens
      simp [Token.isPunct, hleaves.formed.kind] at hname

theorem Parts.direct (h : Parts table names stretches) (hdirect : Direct (sourceOf stretches)) :
    Direct (writtenOf stretches) := by
  induction h with
  | nil => exact hdirect
  | @token t back hlater ih =>
      refine .cons (fun ht => hlater.opens_directly ?_)
        (ih (hdirect.of_suffix (List.suffix_cons t (sourceOf back))))
      exact hdirect t (sourceOf back) List.suffix_rfl ht
  | @call x back hleaves hlater ih =>
      refine .cons (fun hrnd => ?_)
        (ih (hdirect.of_suffix (List.suffix_append x.call.tokens (sourceOf back))))
      rw [not_isWord_name hleaves.name] at hrnd
      cases hrnd

/-! ### Lines of declarations -/

variable (hrnd : table.isConstant "rnd".toList = false)

include hrnd

/-- No argument of a call that lasts calls. -/
theorem Lasts.not_isWord {c : RandomCall} (h : Lasts table c) {us : List Token}
    (hus : List.Forall₂ (Folded table) (Token.significant c.group.inner) us) :
    ∀ u ∈ us, u.isWord "rnd".toList = false := by
  intro u hu
  obtain ⟨t, ht, hfolded⟩ := exists_of_forall₂_mem hus hu
  unfold Folded at hfolded
  split at hfolded
  · obtain ⟨v, raw, -, -, rfl⟩ := hfolded
    rfl
  · subst hfolded
    by_contra hword
    rw [Bool.not_eq_false, Token.isWord, Bool.and_eq_true, beq_iff_eq, beq_iff_eq] at hword
    have hconstant := h.named u (List.mem_filter.1 ht).1 hword.1
    rw [hword.2, hrnd] at hconstant
    cases hconstant

/-- The line that declares a call calls once, directly behind the name. -/
theorem Taken.line_eq (h : Taken table names x) : ∃ front us,
    x.line = front ++ x.call.name :: x.call.opening :: us ∧ EndsInConst front ∧
      (∀ t ∈ front, t.isWord "rnd".toList = false) ∧
      ∀ t ∈ x.call.opening :: us, t.isWord "rnd".toList = false := by
  obtain ⟨us, hus, hdeclared⟩ := h.declares.significant_declared
  have hplain {t : Token} (ht : t.kind ≠ .word) : t.isWord "rnd".toList = false := by
    simp [Token.isWord, ht]
  have hpunct {t : Token} {p : Char} (ht : t.isPunct p = true) : t.isWord "rnd".toList = false :=
    hplain (by simp [Token.kind_of_isPunct ht])
  rw [Hoisted.declared] at hdeclared
  refine ⟨[.made .directive "#const".toList x.call.name.span, .made .blank [' '] x.call.name.span,
    .made .word x.name x.call.name.span, .made .blank [' '] x.call.name.span],
    us ++ [x.call.group.closer, .made .newline ['\n'] x.call.name.span], ?_, ?_, ?_, ?_⟩
  · simp [Hoisted.line, declaration, hdeclared]
  · refine ⟨[], _, _, rfl, ?_, rfl⟩
    simp only [isConst, Token.value, Token.made]
    decide +kernel
  · exact List.forall_mem_cons.2 ⟨rfl, List.forall_mem_cons.2 ⟨rfl, List.forall_mem_cons.2
      ⟨not_isWord_name h.name _, List.forall_mem_singleton.2 rfl⟩⟩⟩
  · rw [List.forall_mem_cons, List.forall_mem_append]
    refine ⟨hpunct h.formed.opening, h.lasts.not_isWord hrnd hus, ?_⟩
    exact List.forall_mem_cons.2 ⟨hpunct h.formed.closer, List.forall_mem_singleton.2 rfl⟩

variable (htaken : ∀ x ∈ calls, Taken table names x)

include htaken

/-- The lines of declarations call in operands only. -/
theorem declared_lines {row : List Token} (h : Declared [] row) (front : List Token) :
    Declared front (calls.flatMap Hoisted.line ++ row) := by
  induction calls generalizing front with
  | nil => simpa using h.behind front
  | cons x calls ih =>
      obtain ⟨hx, hcalls⟩ := List.forall_mem_cons.1 htaken
      obtain ⟨ahead, us, hline, hends, hahead, hus⟩ := hx.line_eq hrnd
      have hrow : (x :: calls).flatMap Hoisted.line ++ row =
          ahead ++ x.call.name :: (x.call.opening :: us ++ (calls.flatMap Hoisted.line ++ row)) := by
        rw [List.flatMap_cons, hline]
        simp
      rw [hrow]
      exact .append hahead (.cons (Or.inr (hends.append front)) (.append hus (ih hcalls _)))

theorem direct_lines {row : List Token} (h : Direct row) :
    Direct (calls.flatMap Hoisted.line ++ row) := by
  induction calls with
  | nil => exact h
  | cons x calls ih =>
      obtain ⟨hx, hcalls⟩ := List.forall_mem_cons.1 htaken
      obtain ⟨ahead, us, hline, -, hahead, hus⟩ := hx.line_eq hrnd
      have hrow : (x :: calls).flatMap Hoisted.line ++ row =
          ahead ++ x.call.name :: (x.call.opening :: us ++ (calls.flatMap Hoisted.line ++ row)) := by
        rw [List.flatMap_cons, hline]
        simp
      rw [hrow]
      exact .append hahead (.cons (fun _ => hx.formed.opening) (.append hus (ih hcalls)))

end

/-! ### Rows that read alike -/

theorem isSome_parens?_significant (ts : List Token) :
    (Group.parens? (Token.significant ts)).isSome = (Group.parens? ts).isSome := by
  rw [← Group.isOk_readPart, ← Group.isOk_readPart, Bool.eq_iff_iff, isOk_iff, isOk_iff]
  constructor
  · rintro ⟨g, hg⟩
    obtain ⟨g', hg', -⟩ := Group.exists_readPart_of_significant hg
    exact ⟨g', hg'⟩
  · rintro ⟨g, hg⟩
    obtain ⟨hinner, hcloser, hts⟩ := Group.readPart_eq_ok_iff.1 hg
    refine ⟨⟨Token.significant g.inner, g.closer, Token.significant g.rest⟩,
      Group.readPart_eq_ok_iff.2 ⟨hinner.significant, hcloser, ?_⟩⟩
    rw [hts, significant_append, Token.significant_cons]
    simp [Token.isTrivia_of_isPunct hcloser]

theorem EndsInConst.congr {before before' : List Token} (h : EndsInConst before)
    (hbefore : (Token.significant before).map Token.toLexeme =
      (Token.significant before').map Token.toLexeme) : EndsInConst before' := by
  obtain ⟨front, c, n, hsplit, hconst, hname⟩ := h
  rw [hsplit, List.map_append, eq_comm] at hbefore
  obtain ⟨front', ends, hsplit', -, hends⟩ := List.map_eq_append_iff.1 hbefore
  obtain ⟨c', ends, rfl, hc, hends⟩ := List.map_eq_cons_iff.1 hends
  obtain ⟨n', ends, rfl, hn, hends⟩ := List.map_eq_cons_iff.1 hends
  obtain rfl := List.map_eq_nil_iff.1 hends
  exact ⟨front', c', n', hsplit', (Resolve.isConst_congr hc).trans hconst,
    (congrArg Lexeme.kind hn).trans hname⟩

/-- Rows with the same significant lexemes have the same calls, if the names of calls stand
directly before parentheses. -/
theorem Declared.congr {row row' : List Token} (h : Declared [] row) (hdirect : Direct row)
    (hrow : (Token.significant row).map Token.toLexeme =
      (Token.significant row').map Token.toLexeme) : Declared [] row' := by
  intro ahead' us' c' hsplit hread
  obtain ⟨hformed, hus'⟩ := RandomCall.read?_eq_some_iff.1 hread
  rw [RandomCall.tokens_append_rest] at hus'
  have hname : c'.name.isTrivia = false := by
    simp [Token.isTrivia, hformed.kind, TokenKind.isTrivia]
  have hopening := Token.isTrivia_of_isPunct hformed.opening
  generalize htail : c'.group.inner ++ c'.group.closer :: c'.group.rest = tail at hus'
  subst hus' hsplit
  rw [significant_append, Token.significant_cons, hname, if_neg Bool.false_ne_true,
    Token.significant_cons, hopening, if_neg Bool.false_ne_true, List.map_append] at hrow
  obtain ⟨front, call, hsignificant, hfront, hcall⟩ := List.map_eq_append_iff.1 hrow
  obtain ⟨n, called, rfl, hn, hcalled⟩ := List.map_eq_cons_iff.1 hcall
  obtain ⟨o, back, rfl, ho, hback⟩ := List.map_eq_cons_iff.1 hcalled
  obtain ⟨ahead, behind, rfl, rfl, hbehind⟩ := List.filter_eq_append_iff.1 hsignificant
  obtain ⟨gap, ts, rfl, hgap, -, hts⟩ := List.filter_eq_cons_iff.1 hbehind
  have hword : n.isWord "rnd".toList = true := by
    rw [Token.isWord, hn]
    exact hformed.name
  have hopens := hdirect n ts ⟨ahead ++ gap, by simp⟩ hword
  obtain ⟨u, ts, rfl⟩ : ∃ u ts', ts = u :: ts' := by
    cases ts with
    | nil => cases hopens
    | cons u ts => exact ⟨u, ts, rfl⟩
  replace hopens : u.isPunct '(' = true := hopens
  rw [List.filter_cons_of_pos (by simp [Token.isTrivia_of_isPunct hopens])] at hts
  obtain ⟨rfl, rfl⟩ := List.cons.inj hts
  have hcall : (RandomCall.read? (n :: u :: ts)).isSome = true := by
    have hparens := congrArg Option.isSome (Group.length_parens?_congr hback 0)
    rw [Option.isSome_map, Option.isSome_map] at hparens
    have hsome := congrArg Option.isSome hread
    rw [RandomCall.isSome_read?, Option.isSome_some, Bool.and_eq_true,
      ← isSome_parens?_significant, ← hparens] at hsome
    rw [RandomCall.isSome_read?, hword, hopens, ← isSome_parens?_significant]
    exact hsome.2
  obtain ⟨c, hc⟩ := Option.isSome_iff_exists.1 hcall
  have hends := h (ahead ++ gap) (n :: u :: ts) c (by simp) hc
  refine hends.congr ?_
  have htrivia : Token.significant gap = [] := significant_trivia (by simpa using hgap)
  rw [List.nil_append, List.nil_append, significant_append, htrivia, List.append_nil]
  exact hfront

/-- A row whose calls are operands of constants is left as it is. -/
theorem hoistTokens_declared (stem : Text) {front ts : List Token} (h : Declared front ts) :
    hoistTokens stem (front.foldl remember []) ts = pure ts := by
  induction ts generalizing front with
  | nil => rw [hoistTokens]
  | cons t ts ih =>
      have hstays : afterConst (front.foldl remember []) = true ∨
          RandomCall.read? (t :: ts) = none := by
        cases hread : RandomCall.read? (t :: ts) with
        | none => exact Or.inr rfl
        | some c =>
            left
            rw [afterConst_iff]
            simpa using h [] (t :: ts) c rfl hread
      have hlater : Declared (front ++ [t]) ts := by
        intro ahead us c hts hread
        have hends := h (t :: ahead) us c (by rw [hts]; rfl) hread
        simpa using hends
      have hrest := ih hlater
      rw [List.foldl_append, List.foldl_cons, List.foldl_nil] at hrest
      rw [hoistTokens_keep hstays, hrest, pure_bind]

end Hoist

open Hoist in
/-- One run, taken through the search for random calls: its stretches and what is written for
them, where every call that is taken out has a new name. -/
theorem Script.hoist_run {table : SymbolTable} (hwrites : table.Writes) (stem : Text)
    (row : List Token) (whole span : Span) {s : Session} (hs : Knows table s)
    (hsettled : s.Settled) :
    Ends (Script.hoist stem ⟨[.run ⟨row, whole⟩], span⟩) s
      (fun out _ => ∃ stretches, Scans table [] row stretches ∧
        out = ⟨declarationRun (stretches.filterMap Stretch.hoisted?) span.start ++
          [.run ⟨writtenOf stretches, whole⟩], span⟩ ∧
        ∀ x, .call x ∈ stretches → ∃ n, x.name = stem ++ Text.ofNat n ∧ x.name ∉ s.table.names)
      (fun _ _ => False) := by
  refine (Script.hoist_of_pieces (Q := fun rest calls _ => ∃ stretches,
    Scans table [] row stretches ∧ rest = [.run ⟨writtenOf stretches, whole⟩] ∧
    calls = stretches.filterMap Stretch.hoisted? ∧
    ∀ x, .call x ∈ stretches → ∃ n, x.name = stem ++ Text.ofNat n ∧ x.name ∉ s.table.names)
    ?_).weaken ?_
  · simp only [hoistPieces, StateT.run_bind, Ends.bind_iff]
    apply ((hoistTokens_accounts hwrites stem [] row _ hs).and
      (hoistTokens_ends stem [] row _ hsettled)).mono
    · rintro ⟨tokens, state⟩ s₁ ⟨⟨stretches, hscans, rfl, haccounts⟩, -, hrewrites⟩
      have hdeclarations := haccounts.declarations
      rw [List.append_nil] at hdeclarations
      refine ⟨_, hdeclarations, fun hnone => ?_, stretches, hscans, rfl, rfl, fun x hx => ?_⟩
      · rw [hscans.source_eq, ← writtenOf_eq_sourceOf hnone]
      · have hline : x.line ∈ state.declarations := by
          rw [hdeclarations, List.mem_reverse]
          exact List.mem_map_of_mem (mem_hoisted_iff.2 hx)
        obtain ⟨n, hname, hfresh⟩ := hrewrites.progress.named rfl hline
        exact ⟨n, hname, fun hmem => hfresh (List.mem_append_left _ hmem)⟩
    · rintro e s₁ ⟨hfalse, -⟩
      exact hfalse
  · rintro out s₁ ⟨rest, calls, ⟨stretches, hscans, rfl, rfl, hnames⟩, rfl⟩
    exact ⟨stretches, hscans, rfl, hnames⟩

end MapScript
