import MapScript.Proofs.Copies
import MapScript.Proofs.Hoisting

/-!
# Random calls that stay

A row of tokens that is hoisted consists of tokens that stay, calls that are taken out and
calls that stay as a whole, because a constant in them has no single value.  A call that is
taken out leaves a name, and its brackets come in pairs, so what remains has no call that was
not there before.  Every call in it therefore stands behind the name of a constant that is
declared, or in a call that stays, and for each of these there is one warning.
-/

namespace MapScript

open Evaluation (HasValue)
open Grammar (Balanced argumentList)

/-! ### Calls in calls -/

namespace Group

theorem isOk_map {f : Group → Group} (x : Except GroupFault Group) : (x.map f).isOk = x.isOk := by
  cases x <;> rfl

/-- What is balanced takes no part in the end of a group. -/
theorem isOk_readPart_balanced {part : List Token} (h : Balanced argumentList part) (depth : Nat)
    (ts : List Token) :
    (readPart argumentList depth (part ++ ts)).isOk = (readPart argumentList depth ts).isOk := by
  rw [readPart_balanced h, isOk_map]

end Group

namespace RandomCall

/-- The tokens of a call are those of one. -/
structure Formed (c : RandomCall) : Prop where
  name : c.name.isWord "rnd".toList = true
  opening : c.opening.isPunct '(' = true
  inner : Balanced argumentList c.group.inner
  closer : c.group.closer.isPunct ')' = true

theorem tokens_append_rest (c : RandomCall) : c.tokens ++ c.group.rest =
    c.name :: c.opening :: (c.group.inner ++ c.group.closer :: c.group.rest) := by
  simp [tokens, arguments]

theorem read?_eq_some_iff {ts : List Token} {c : RandomCall} :
    read? ts = some c ↔ c.Formed ∧ ts = c.tokens ++ c.group.rest := by
  constructor
  · intro h
    have hsplit := tokens_append h
    refine ⟨?_, hsplit⟩
    rw [hsplit, tokens_append_rest, read?] at h
    split at h
    · next hcall =>
      obtain ⟨hname, hopening⟩ := Bool.and_eq_true_iff.1 hcall
      obtain ⟨g, hg, hc⟩ := Option.map_eq_some_iff.1 h
      obtain rfl : g = c.group := congrArg RandomCall.group hc
      obtain ⟨hinner, hcloser, -⟩ := Group.readPart_eq_ok_iff.1 (Call.readPart_of_parens? hg)
      exact ⟨hname, hopening, hinner, hcloser⟩
    · cases h
  · rintro ⟨hformed, rfl⟩
    have hread : Group.parens? (c.group.inner ++ c.group.closer :: c.group.rest) =
        some c.group := by
      rw [Call.parens?_eq, Group.readPart_eq_ok_iff.2 ⟨hformed.inner, hformed.closer, rfl⟩]
      rfl
    rw [tokens_append_rest, read?, hformed.name, hformed.opening, Bool.and_self, if_pos rfl, hread]
    rfl

theorem Formed.kind {c : RandomCall} (h : c.Formed) : c.name.kind = .word := by
  have hname := h.name
  rw [Token.isWord, Bool.and_eq_true, beq_iff_eq] at hname
  exact hname.1

theorem Formed.balanced {c : RandomCall} (h : c.Formed) : Balanced argumentList c.tokens := by
  have hopener : c.name.isPunct argumentList.opener = false := by simp [Token.isPunct, h.kind]
  have hcloser : c.name.isPunct argumentList.closer = false := by simp [Token.isPunct, h.kind]
  exact .token hopener hcloser rfl (.pair h.opening h.closer h.inner .nil)

/-- A call that begins in a call ends in it. -/
theorem read?_within {c c' : RandomCall} {before us after : List Token} (hc : c.Formed)
    (hsplit : c.tokens ++ after = before ++ us) (hinside : before.length < c.tokens.length)
    (h : read? us = some c') : before.length + c'.tokens.length ≤ c.tokens.length := by
  obtain ⟨hformed, hus⟩ := read?_eq_some_iff.1 h
  obtain ⟨part, hpart, hrest⟩ : ∃ part, c.tokens = before ++ part ∧ us = part ++ after := by
    rcases List.append_eq_append_iff.1 hsplit with ⟨more, hbefore, -⟩ | ⟨part, hpart, hrest⟩
    · rw [hbefore, List.length_append] at hinside
      omega
    · exact ⟨part, hpart, hrest⟩
  -- the bracket behind the name is none that closes, so it belongs to the call as well
  obtain ⟨back, rfl⟩ : ∃ back, part = c'.name :: c'.opening :: back := by
    have hlast : c.tokens.getLast? = some c.group.closer := by
      simp [tokens, arguments, List.getLast?_cons]
    rw [hus, tokens_append_rest] at hrest
    cases part with
    | nil =>
        rw [hpart, List.append_nil] at hinside
        exact absurd hinside (Nat.lt_irrefl _)
    | cons t part =>
        obtain ⟨ht, hrest⟩ := List.cons.inj hrest
        cases part with
        | nil =>
            have hkind := hformed.kind
            rw [hpart, List.getLast?_concat] at hlast
            rw [ht, Option.some.inj hlast, Token.kind_of_isPunct hc.closer] at hkind
            cases hkind
        | cons u back => exact ⟨back, by rw [ht, (List.cons.inj hrest).1]⟩
  have hbalanced := hc.balanced
  rw [hpart, List.append_cons] at hbalanced
  obtain ⟨inner, k, rest, rfl, hinner, hk⟩ := hbalanced.closes hformed.opening
  have hread : read? us = some ⟨c'.name, c'.opening, ⟨inner, k, rest ++ after⟩⟩ := by
    refine read?_eq_some_iff.2 ⟨⟨hformed.name, hformed.opening, hinner, hk⟩, ?_⟩
    rw [hrest]
    simp [tokens, arguments]
  rw [Option.some.inj (h.symm.trans hread), hpart]
  simp only [tokens, arguments, List.length_append, List.length_cons, List.length_nil]
  omega

end RandomCall

namespace Hoist

/-! ### Stretches of a row -/

/-- What becomes of a stretch of a row: a token stays, a call is taken out, or it stays as a
whole for the sake of a token in it. -/
inductive Stretch where
  | token (t : Token)
  | call (h : Hoisted)
  | kept (c : RandomCall) (blocker : Token)

namespace Stretch

/-- The tokens before hoisting. -/
def source : Stretch → List Token
  | token t => [t]
  | call h => h.call.tokens
  | kept c _ => c.tokens

/-- The tokens after hoisting. -/
def written : Stretch → List Token
  | token t => [t]
  | call h => [.made .word h.name h.call.span]
  | kept c _ => c.tokens

/-- The call that is taken out, if one is. -/
def hoisted? : Stretch → Option Hoisted
  | call h => some h
  | _ => none

/-- The warning about a call that stays. -/
def warning? : Stretch → Option Warning
  | kept _ blocker => some ⟨.blockedCall blocker.raw, blocker.span⟩
  | _ => none

end Stretch

/-- The tokens of stretches before hoisting. -/
def sourceOf (stretches : List Stretch) : List Token := stretches.flatMap Stretch.source

/-- The tokens of stretches after hoisting. -/
def writtenOf (stretches : List Stretch) : List Token := stretches.flatMap Stretch.written

/-- A constant of the script without a single value among the arguments of a call. -/
structure Blocks (table : SymbolTable) (c : RandomCall) (blocker : Token) : Prop where
  argument : blocker ∈ c.arguments
  constant : isConstant table blocker = true
  unvalued : HasValue table blocker.raw none

/-- What becomes of a call. -/
inductive Disposes (table : SymbolTable) (c : RandomCall) : Stretch → Prop
  | hoisted {h : Hoisted} (call : h.call = c) (declares : h.Declares table)
      (name : h.name ≠ "rnd".toList) : Disposes table c (.call h)
  | kept {blocker : Token} (blocks : Blocks table c blocker) : Disposes table c (.kept c blocker)

theorem Disposes.source_eq {table : SymbolTable} {c : RandomCall} {stretch : Stretch}
    (h : Disposes table c stretch) : stretch.source = c.tokens := by
  cases h with
  | hoisted hcall => rw [← hcall]; rfl
  | kept => rfl

/-- How a row is gone through, some tokens being written before: a token stays behind the
name of a constant that is declared and where no call begins, and of a call is disposed. -/
inductive Scans (table : SymbolTable) : List Token → List Token → List Stretch → Prop
  | nil {recent : List Token} : Scans table recent [] []
  | token {recent rest : List Token} {t : Token} {stretches : List Stretch}
      (stays : afterConst recent = true ∨ RandomCall.read? (t :: rest) = none)
      (later : Scans table (remember recent t) rest stretches) :
      Scans table recent (t :: rest) (.token t :: stretches)
  | call {recent : List Token} {c : RandomCall} {stretch : Stretch} {stretches : List Stretch}
      (free : afterConst recent = false) (formed : c.Formed) (disposes : Disposes table c stretch)
      (later : Scans table (stretch.written.foldl remember recent) c.group.rest stretches) :
      Scans table recent (c.tokens ++ c.group.rest) (stretch :: stretches)

section
variable {table : SymbolTable} {recent ts : List Token} {stretches : List Stretch}

theorem Scans.source_eq (h : Scans table recent ts stretches) : ts = sourceOf stretches := by
  induction h with
  | nil => rfl
  | token _ _ ih => rw [sourceOf, List.flatMap_cons, ih]; rfl
  | call _ _ hdisposes _ ih => rw [sourceOf, List.flatMap_cons, hdisposes.source_eq, ih]; rfl

theorem Disposes.isOk_readPart {c : RandomCall} {stretch : Stretch}
    (h : Disposes table c stretch) (hc : c.Formed) (depth : Nat) (us : List Token) :
    (Group.readPart argumentList depth (stretch.written ++ us)).isOk =
      (Group.readPart argumentList depth us).isOk := by
  cases h with
  | kept => exact Group.isOk_readPart_balanced hc.balanced depth us
  | hoisted =>
      exact Group.isOk_readPart_balanced (.token rfl rfl rfl .nil) depth us

/-- A group ends after hoisting if it did before. -/
theorem Scans.isOk_readPart (h : Scans table recent ts stretches) (depth : Nat) :
    (Group.readPart argumentList depth (writtenOf stretches)).isOk =
      (Group.readPart argumentList depth ts).isOk := by
  induction h generalizing depth with
  | nil => rfl
  | @token recent rest t stretches _ _ ih =>
      show (Group.readPart argumentList depth (t :: writtenOf stretches)).isOk = _
      rcases Group.readPart_step depth t with hclose | ⟨d, hgo⟩
      · rw [hclose, hclose]
        rfl
      · rw [hgo, hgo, Group.isOk_map, Group.isOk_map, ih]
  | call _ hformed hdisposes _ ih =>
      rw [writtenOf, List.flatMap_cons, hdisposes.isOk_readPart hformed,
        Group.isOk_readPart_balanced hformed.balanced]
      exact ih depth

/-- A bracket that stands first after hoisting stood first before. -/
theorem Scans.of_opening {u : Token} {us : List Token} (h : Scans table recent ts stretches)
    (hu : u.isPunct '(' = true) (hwritten : writtenOf stretches = u :: us) :
    ∃ rest, ts = u :: rest ∧
      (Group.readPart argumentList 0 us).isOk = (Group.readPart argumentList 0 rest).isOk := by
  have hword {t : Token} {ts' : List Token} (heq : t :: ts' = u :: us) : t.kind ≠ .word := by
    rw [(List.cons.inj heq).1, Token.kind_of_isPunct hu]
    decide
  cases h with
  | nil => cases hwritten
  | token _ hlater =>
      obtain ⟨rfl, rfl⟩ := List.cons.inj hwritten
      exact ⟨_, rfl, hlater.isOk_readPart 0⟩
  | call _ hformed hdisposes _ =>
      cases hdisposes with
      | hoisted => exact absurd rfl (hword hwritten)
      | kept => exact absurd hformed.kind (hword hwritten)

/-- Where no call began before hoisting none begins after it. -/
theorem Scans.read?_eq_none {t : Token} (h : Scans table recent ts stretches)
    (hnone : RandomCall.read? (t :: ts) = none) :
    RandomCall.read? (t :: writtenOf stretches) = none := by
  cases hwritten : writtenOf stretches with
  | nil => rfl
  | cons u us =>
      by_contra hcall
      rw [← ne_eq, Option.ne_none_iff_isSome, RandomCall.isSome_read?, Bool.and_eq_true,
        Bool.and_eq_true, ← Group.isOk_readPart] at hcall
      obtain ⟨⟨hname, hu⟩, hgroup⟩ := hcall
      obtain ⟨rest, rfl, hsame⟩ := h.of_opening hu hwritten
      rw [← Option.not_isSome_iff_eq_none, RandomCall.isSome_read?, hname, hu,
        ← Group.isOk_readPart, ← hsame, hgroup] at hnone
      exact hnone rfl

/-- The part of a row from one place to another lies in a call that stays. -/
def InKept (stretches : List Stretch) (start stop : Nat) : Prop :=
  ∃ front c blocker back, stretches = front ++ .kept c blocker :: back ∧
    (writtenOf front).length ≤ start ∧ stop ≤ (writtenOf front).length + c.tokens.length

theorem InKept.cons {start stop : Nat} (h : InKept stretches start stop) (stretch : Stretch) :
    InKept (stretch :: stretches) (stretch.written.length + start)
      (stretch.written.length + stop) := by
  obtain ⟨front, c, blocker, back, rfl, hstart, hstop⟩ := h
  have hlength : (writtenOf (stretch :: front)).length =
      stretch.written.length + (writtenOf front).length := by
    rw [writtenOf, List.flatMap_cons, List.length_append]
    rfl
  exact ⟨stretch :: front, c, blocker, back, rfl, by omega, by omega⟩

/-- A call that stands in the row after hoisting is the operand of a constant, or it lies in
a call that stays. -/
theorem Scans.accounted (h : Scans table recent ts stretches) {before us : List Token}
    {c : RandomCall} (hsplit : writtenOf stretches = before ++ us)
    (hcall : RandomCall.read? us = some c) :
    afterConst (before.foldl remember recent) = true ∨
      InKept stretches before.length (before.length + c.tokens.length) := by
  induction h generalizing before with
  | nil =>
      obtain ⟨-, rfl⟩ := List.append_eq_nil_iff.1 hsplit.symm
      cases hcall
  | @token recent rest t stretches hstays hlater ih =>
      replace hsplit : t :: writtenOf stretches = before ++ us := hsplit
      cases before with
      | nil =>
          refine Or.inl (hstays.resolve_right fun hnone => ?_)
          rw [← hsplit.trans (List.nil_append us), hlater.read?_eq_none hnone] at hcall
          cases hcall
      | cons b before =>
          obtain ⟨rfl, hrest⟩ := List.cons.inj hsplit
          refine (ih hrest).imp_right fun hin => ?_
          have hcons := hin.cons (.token t)
          simp only [Stretch.written, List.length_singleton] at hcons
          rw [List.length_cons]
          convert hcons using 1 <;> omega
  | @call recent c' stretch stretches hfree hformed hdisposes hlater ih =>
      replace hsplit : stretch.written ++ writtenOf stretches = before ++ us := hsplit
      rcases Nat.lt_or_ge before.length stretch.written.length with hinside | hbehind
      · cases hdisposes with
        | @hoisted h hcall' _ hname =>
            -- the new name is not that of a random call
            obtain rfl : before = [] := List.length_eq_zero_iff.1 (Nat.lt_one_iff.1 hinside)
            obtain ⟨hc, hus⟩ := RandomCall.read?_eq_some_iff.1 hcall
            have hword := hc.name
            rw [List.nil_append, hus, RandomCall.tokens_append_rest] at hsplit
            rw [← (List.cons.inj hsplit).1] at hword
            exact absurd (by simpa [Token.isWord, Token.made] using hword) hname
        | @kept blocker _ =>
            right
            have hwithin := RandomCall.read?_within hformed hsplit hinside hcall
            exact ⟨[], c', blocker, stretches, rfl, Nat.zero_le _,
              by simpa [writtenOf] using hwithin⟩
      · obtain ⟨more, rfl, hrest⟩ : ∃ more, before = stretch.written ++ more ∧
            writtenOf stretches = more ++ us := by
          rcases List.append_eq_append_iff.1 hsplit with ⟨more, hbefore, hrest⟩ |
            ⟨more, hwritten, hrest⟩
          · exact ⟨more, hbefore, hrest⟩
          · have hlength := congrArg List.length hwritten
            rw [List.length_append] at hlength
            obtain rfl : more = [] := List.length_eq_zero_iff.1 (by omega)
            exact ⟨[], by simpa using hwritten.symm, hrest.symm⟩
        rw [List.foldl_append, List.length_append, Nat.add_assoc]
        exact (ih hrest).imp_right fun hin => hin.cons stretch

end

/-! ### Warnings -/

/-- The warning is about a call that stays. -/
def IsBlocked (w : Warning) : Bool :=
  match w.cause with
  | .blockedCall _ => true
  | _ => false

/-- The warning is about a name that is taken. -/
def IsTaken (w : Warning) : Bool :=
  match w.cause with
  | .nameTaken _ => true
  | _ => false

/-- The warnings on the way through stretches: one for each call that stays, in order, and
besides only some about names that are taken. -/
structure Warns (stretches : List Stretch) (new : List Warning) : Prop where
  blocked : new.filter IsBlocked = stretches.filterMap Stretch.warning?
  taken : ∀ w ∈ new, IsBlocked w = false → IsTaken w = true

theorem Warns.nil : Warns [] [] := ⟨rfl, by simp⟩

theorem Warns.append {stretches stretches' : List Stretch} {new new' : List Warning}
    (h : Warns stretches new) (h' : Warns stretches' new') :
    Warns (stretches ++ stretches') (new ++ new') where
  blocked := by rw [List.filter_append, List.filterMap_append, h.blocked, h'.blocked]
  taken := List.forall_mem_append.2 ⟨h.taken, h'.taken⟩

theorem Warns.token (t : Token) : Warns [.token t] [] := ⟨rfl, by simp⟩

theorem Warns.kept (c : RandomCall) (blocker : Token) :
    Warns [.kept c blocker] [⟨.blockedCall blocker.raw, blocker.span⟩] :=
  ⟨rfl, by simp [IsBlocked]⟩

theorem Warns.call (h : Hoisted) (names : List Text) (span : Span) :
    Warns [.call h] (names.map fun name => ⟨.nameTaken name, span⟩) where
  blocked := by
    rw [List.filter_eq_nil_iff.2 (by simp [IsBlocked])]
    rfl
  taken := by simp [IsTaken]

/-- What is known and noted after stretches, and the declarations of their calls. -/
structure Accounts (table : SymbolTable) (stretches : List Stretch) (state state' : State)
    (s s' : Session) : Prop where
  knows : Knows table s'
  declarations : state'.declarations =
    ((stretches.filterMap Stretch.hoisted?).map Hoisted.line).reverse ++ state.declarations
  warnings : ∃ new, s'.warnings = s.warnings ++ new ∧ Warns stretches new

theorem Accounts.refl {table : SymbolTable} {s : Session} (h : Knows table s) (state : State) :
    Accounts table [] state state s s := ⟨h, rfl, [], by simp, .nil⟩

theorem Accounts.trans {table : SymbolTable} {stretches stretches' : List Stretch}
    {state state₁ state₂ : State} {s s₁ s₂ : Session}
    (h : Accounts table stretches state state₁ s s₁)
    (h' : Accounts table stretches' state₁ state₂ s₁ s₂) :
    Accounts table (stretches ++ stretches') state state₂ s s₂ := by
  obtain ⟨new, hnew, hwarns⟩ := h.warnings
  obtain ⟨new', hnew', hwarns'⟩ := h'.warnings
  refine ⟨h'.knows, ?_, new ++ new', by rw [hnew', hnew, List.append_assoc],
    hwarns.append hwarns'⟩
  rw [h'.declarations, h.declarations, List.filterMap_append, List.map_append,
    List.reverse_append, List.append_assoc]

section
variable {table : SymbolTable}

/-- Folding warns of nothing. -/
theorem fold_warnings (operand : List Token) (s : Session) :
    Ends (Pass.fold operand) s (fun _ s' => s'.warnings = s.warnings) (fun _ _ => True) := by
  rw [Pass.fold, Pass.onTable_ends_iff]
  exact Ends.of_run (fun _ _ _ => rfl) (fun _ _ _ => trivial)

/-- A constant of the script has the value that it is folded to. -/
theorem hasValue_of_folding (hwrites : table.Writes) {t : Token} {value : Option Number}
    (hconstant : isConstant table t = true) (hfolding : table.folding t.raw = .ok value) :
    HasValue table t.raw value := by
  rw [isConstant, Bool.and_eq_true] at hconstant
  obtain ⟨value', hvalue, hfolding', -⟩ := hwrites t.raw hconstant.2
  rw [Except.ok.inj (hfolding.symm.trans hfolding')]
  exact hvalue

/-- What blocks a call is a constant without a single value, and looking for it warns of
nothing. -/
theorem blocker?_blocks (hwrites : table.Writes) (ts : List Token) {s : Session}
    (hs : Knows table s) :
    Ends (blocker? ts) s
      (fun blocker s' => s'.warnings = s.warnings ∧ ∀ b, blocker = some b → b ∈ ts ∧
        isConstant table b = true ∧ HasValue table b.raw none)
      (fun _ _ => False) := by
  induction ts generalizing s with
  | nil => exact ⟨rfl, by simp⟩
  | cons t ts ih =>
      have hlater {s₁ s₂ : Session} {blocker : Option Token} (hs₁ : s₁.warnings = s.warnings)
          (h : s₂.warnings = s₁.warnings ∧ ∀ b, blocker = some b → b ∈ ts ∧
            isConstant table b = true ∧ HasValue table b.raw none) :
          s₂.warnings = s.warnings ∧ ∀ b, blocker = some b → b ∈ t :: ts ∧
            isConstant table b = true ∧ HasValue table b.raw none :=
        ⟨h.1.trans hs₁, fun b hb => (h.2 b hb).imp_left (List.mem_cons_of_mem t)⟩
      rw [blocker?]
      simp only [Ends.bind_iff, Ends.get_iff, hs.isConstant]
      split
      · next hconstant =>
        rw [Ends.bind_iff]
        apply ((fold_ends hwrites hs hconstant).and (fold_warnings [t] s)).mono
        · rintro found s₁ ⟨⟨hs₁, hfolding, -⟩, hwarnings⟩
          split
          · refine ⟨hwarnings, ?_⟩
            rintro _ ⟨⟩
            exact ⟨List.mem_cons_self, hconstant, hasValue_of_folding hwrites hconstant hfolding⟩
          · exact (ih hs₁).weaken fun blocker s₂ h => hlater hwarnings h
        · rintro e s₁ ⟨hfalse, -⟩
          exact hfalse
      · exact (ih hs).weaken fun blocker s₂ h => hlater rfl h

theorem foldArguments_warnings (ts : List Token) (s : Session) :
    Ends (foldArguments ts) s (fun _ s' => s'.warnings = s.warnings) (fun _ _ => True) := by
  induction ts generalizing s with
  | nil => rfl
  | cons t ts ih =>
      have hlater {s₁ : Session} (hs₁ : s₁.warnings = s.warnings) (t' : Token) :
          Ends (do return t' :: (← foldArguments ts) : Pass (List Token)) s₁
            (fun _ s' => s'.warnings = s.warnings) (fun _ _ => True) := by
        rw [Ends.bind_iff]
        exact (ih s₁).weaken fun _ _ h => h.trans hs₁
      rw [foldArguments]
      simp only [Ends.bind_iff, Ends.get_iff]
      split
      · rw [Ends.bind_iff]
        apply (fold_warnings [t] s).weaken
        intro value s₁ hs₁
        cases value with
        | none => exact hlater hs₁ t
        | some v =>
            rw [Ends.bind_iff]
            cases hnumeral : Resolve.numeral v t.span with
            | error e => trivial
            | ok t' => exact hlater hs₁ t'
      · exact hlater rfl t

theorem freshName_warnings (stem : Text) (span : Span) (state : State) (s : Session) :
    Ends ((freshName stem span).run state) s
      (fun _ s' => ∃ names : List Text, s'.warnings = s.warnings ++
        names.map fun name => ⟨.nameTaken name, span⟩)
      (fun _ _ => False) := by
  unfold freshName
  simp only [StateT.run_bind, StateT.run_get, StateT.run_set, StateT.run_pure, Ends.bind_iff,
    Ends.pure_iff]
  generalize (freshNumber stem state.counter state.used).2 = taken
  refine Ends.weaken (Q := fun _ s' => s'.warnings = s.warnings ++
    taken.map fun name => ⟨.nameTaken name, span⟩) ?_ fun _ _ h => ⟨taken, h⟩
  induction taken generalizing s with
  | nil => exact (List.append_nil _).symm
  | cons name taken ih =>
      rw [List.forM_eq_forM, List.forM_cons, StateT.run_bind, Ends.bind_iff, lift_ends_iff]
      apply (ih _).weaken
      intro _ s₁ hs₁
      rw [hs₁, List.map_cons, List.append_assoc]
      rfl

/-- A new name ends in a digit. -/
theorem append_ofNat_ne {t : Text} (ht : t.getLast?.any Char.isDigit = false) (stem : Text)
    (n : Nat) : stem ++ Text.ofNat n ≠ t := by
  rintro rfl
  have hsome : Text.ofNat n ≠ [] := Nat.toDigits_ne_nil
  rw [List.getLast?_append_of_ne_nil _ hsome, List.getLast?_eq_some_getLast hsome,
    Option.any_some, Number.isDigit_of_mem_ofNat (List.getLast_mem hsome)] at ht
  cases ht

/-- Of a call is disposed, and this is accounted for. -/
theorem hoistCall_accounts (hwrites : table.Writes) (stem : Text) {c : RandomCall}
    (hformed : c.Formed) (state : State) {s : Session} (hs : Knows table s) :
    Ends ((hoistCall stem c).run state) s
      (fun out s' => ∃ stretch, Disposes table c stretch ∧ out.1 = stretch.written ∧
        Accounts table [stretch] state out.2 s s')
      (fun _ _ => False) := by
  have hread := RandomCall.read?_eq_some_iff.2 ⟨hformed, rfl⟩
  unfold hoistCall
  simp only [StateT.run_bind, Ends.bind_iff, lift_ends_iff]
  apply ((blocker?_result hwrites c.arguments hs).and
    (blocker?_blocks hwrites c.arguments hs)).mono
  · rintro blocker s₁ ⟨⟨hs₁, hsingle⟩, hwarnings₁, hblocks⟩
    split
    · next b =>
      simp only [StateT.run_bind, Ends.bind_iff, lift_ends_iff, Pass.warn_ends_iff]
      obtain ⟨hargument, hconstant, hunvalued⟩ := hblocks b rfl
      refine ⟨.kept c b, .kept ⟨hargument, hconstant, hunvalued⟩, rfl, hs₁, rfl, _, ?_,
        .kept c b⟩
      rw [hwarnings₁]
    simp only [StateT.run_bind, Ends.bind_iff, lift_ends_iff]
    apply ((freshName_ends (E := fun _ _ => False) stem c.name.span state s₁).and
      (freshName_warnings stem c.name.span state s₁)).mono
    · rintro ⟨name, state₁⟩ s₂ ⟨⟨hs₂, hdeclarations, -, n, hname, -⟩, names, hwarnings₂⟩
      dsimp only at hdeclarations hname
      have hknows : Knows table s₂ := by
        rw [Knows, hs₂]
        exact hs₁
      apply ((foldArguments_result hwrites hknows (hsingle rfl)).and
        (foldArguments_warnings c.arguments s₂)).mono
      · rintro args s₃ ⟨⟨hs₃, hargs⟩, hwarnings₃⟩
        refine ⟨.call ⟨name, c, args⟩, .hoisted rfl ⟨hread, hargs⟩ ?_, rfl, hs₃, ?_, _, ?_,
          .call _ names c.name.span⟩
        · rw [hname]
          exact append_ofNat_ne (by decide) stem n
        · show Hoisted.line ⟨name, c, args⟩ :: state₁.declarations = _
          rw [hdeclarations]
          rfl
        · rw [hwarnings₃, hwarnings₂, hwarnings₁]
      · rintro e s₃ ⟨hfalse, -⟩
        exact hfalse
    · rintro e s₂ ⟨hfalse, -⟩
      exact hfalse
  · rintro e s₁ ⟨hfalse, -⟩
    exact hfalse

theorem hoistTokens_accounts (hwrites : table.Writes) (stem : Text) (recent ts : List Token)
    (state : State) {s : Session} (hs : Knows table s) :
    Ends ((hoistTokens stem recent ts).run state) s
      (fun out s' => ∃ stretches, Scans table recent ts stretches ∧
        out.1 = writtenOf stretches ∧ Accounts table stretches state out.2 s s')
      (fun _ _ => False) := by
  have keep {recent : List Token} {t : Token} {rest : List Token} {state : State} {s : Session}
      (hstays : afterConst recent = true ∨ RandomCall.read? (t :: rest) = none)
      (hs : Knows table s)
      (h : Ends ((hoistTokens stem (remember recent t) rest).run state) s
        (fun out s' => ∃ stretches, Scans table (remember recent t) rest stretches ∧
          out.1 = writtenOf stretches ∧ Accounts table stretches state out.2 s s')
        (fun _ _ => False)) :
      Ends ((hoistTokens stem recent (t :: rest)).run state) s
        (fun out s' => ∃ stretches, Scans table recent (t :: rest) stretches ∧
          out.1 = writtenOf stretches ∧ Accounts table stretches state out.2 s s')
        (fun _ _ => False) := by
    rw [hoistTokens_keep hstays]
    simp only [StateT.run_bind, Ends.bind_iff]
    apply h.weaken
    rintro ⟨later, state₁⟩ s₁ ⟨stretches, hscans, rfl, haccounts⟩
    have hhere : Accounts table [.token t] state state s s :=
      ⟨hs, rfl, [], by simp, .token t⟩
    exact ⟨.token t :: stretches, .token hstays hscans, rfl, hhere.trans haccounts⟩
  induction recent, ts using hoistTokens.induct stem generalizing state s with
  | case1 recent =>
      rw [hoistTokens]
      exact ⟨[], .nil, rfl, .refl hs state⟩
  | case2 recent t ts hconst ih => exact keep (Or.inl hconst) hs (ih state hs)
  | case3 recent t ts hconst hread ih => exact keep (Or.inr hread) hs (ih state hs)
  | case4 recent t ts hconst c hread _ ih =>
      obtain ⟨hformed, hsplit⟩ := RandomCall.read?_eq_some_iff.1 hread
      rw [hoistTokens_call hconst hread, hsplit]
      simp only [StateT.run_bind, Ends.bind_iff]
      apply (hoistCall_accounts hwrites stem hformed state hs).weaken
      rintro ⟨written, state₁⟩ s₁ ⟨stretch, hdisposes, rfl, haccounts⟩
      apply (ih stretch.written state₁ haccounts.knows).weaken
      rintro ⟨later, state₂⟩ s₂ ⟨stretches, hscans, rfl, haccounts'⟩
      exact ⟨stretch :: stretches, .call (by simpa using hconst) hformed hdisposes hscans, rfl,
        haccounts.trans haccounts'⟩

end

/-! ### Parts -/

/-- The tokens end in the directive and the name that begin the declaration of a constant,
trivia apart. -/
def EndsInConst (before : List Token) : Prop :=
  ∃ front directive name, Token.significant before = front ++ [directive, name] ∧
    Resolve.isConst directive = true ∧ name.kind = .word

/-- What is remembered of tokens are the last two of those that are significant. -/
theorem foldl_remember {recent : List Token} (hrecent : recent.length ≤ 2) (ts : List Token) :
    ts.foldl remember recent = ((Token.significant ts).reverse ++ recent).take 2 := by
  induction ts generalizing recent with
  | nil => exact (List.take_of_length_le hrecent).symm
  | cons t ts ih =>
      rw [List.foldl_cons]
      by_cases ht : t.isTrivia = true
      · have hskip : Token.significant (t :: ts) = Token.significant ts := by
          simp [Token.significant, ht]
        rw [remember, if_pos ht, ih hrecent, hskip]
      · have hkeep : Token.significant (t :: ts) = t :: Token.significant ts := by
          simp [Token.significant, ht]
        rw [remember, if_neg ht, ih (List.length_take_le 2 _), hkeep, List.reverse_cons,
          List.append_assoc, List.singleton_append]
        simp only [List.take_append, List.take_take]
        congr 2
        omega

theorem afterConst_iff (before : List Token) :
    afterConst (before.foldl remember []) = true ↔ EndsInConst before := by
  rw [@foldl_remember [] (Nat.zero_le 2), List.append_nil]
  constructor
  · intro h
    obtain ⟨name, directive, hlast⟩ : ∃ name directive,
        (Token.significant before).reverse.take 2 = [name, directive] := by
      unfold afterConst at h
      split at h
      · next name directive heq => exact ⟨name, directive, heq⟩
      · cases h
    rw [hlast, afterConst, Bool.and_eq_true, beq_iff_eq] at h
    refine ⟨((Token.significant before).reverse.drop 2).reverse, directive, name, ?_, h.2, h.1⟩
    have hsplit := congrArg List.reverse
      (List.take_append_drop 2 (Token.significant before).reverse)
    rw [hlast] at hsplit
    simpa using hsplit.symm
  · rintro ⟨front, directive, name, hsplit, hdirective, hname⟩
    rw [hsplit]
    simp [afterConst, hdirective, hname]

instance (before : List Token) : Decidable (EndsInConst before) :=
  decidable_of_iff _ (afterConst_iff before)

/-- A row is accounted for by its stretches.  A call that stands in it after hoisting is the
operand of a constant or lies in one that stays; one that stays has a constant without a
single value among its arguments; and one that is taken out is declared without constants. -/
structure AccountedFor (table : SymbolTable) (stretches : List Stretch) : Prop where
  remains : ∀ before us c, writtenOf stretches = before ++ us → RandomCall.read? us = some c →
    EndsInConst before ∨ InKept stretches before.length (before.length + c.tokens.length)
  kept : ∀ c blocker, .kept c blocker ∈ stretches → c.Formed ∧ Blocks table c blocker
  declared : ∀ h, .call h ∈ stretches →
    h.Declares table ∧ ∀ t ∈ h.args, isConstant table t = false

theorem Folded.isConstant_eq_false {table : SymbolTable} {t t' : Token}
    (h : Folded table t t') : isConstant table t' = false := by
  rw [Folded] at h
  split at h
  · obtain ⟨v, raw, -, -, rfl⟩ := h
    rfl
  · next hconstant =>
    rw [h]
    exact Bool.eq_false_iff.2 hconstant

/-- No argument of a call is declared as a constant of the script. -/
theorem isConstant_eq_false_of_mem {table : SymbolTable} {ts us : List Token}
    (h : List.Forall₂ (Folded table) ts us) {u : Token} (hu : u ∈ us) :
    isConstant table u = false := by
  obtain ⟨t, -, hfolded⟩ := exists_of_forall₂_mem h hu
  exact hfolded.isConstant_eq_false

section
variable {table : SymbolTable} {recent ts : List Token} {stretches : List Stretch}

theorem Scans.disposes (h : Scans table recent ts stretches) {stretch : Stretch}
    (hmem : stretch ∈ stretches) :
    (∃ t, stretch = .token t) ∨ ∃ c : RandomCall, c.Formed ∧ Disposes table c stretch := by
  induction h with
  | nil => cases hmem
  | token _ _ ih =>
      rcases List.mem_cons.1 hmem with rfl | hlater
      · exact Or.inl ⟨_, rfl⟩
      · exact ih hlater
  | call _ hformed hdisposes _ ih =>
      rcases List.mem_cons.1 hmem with rfl | hlater
      · exact Or.inr ⟨_, hformed, hdisposes⟩
      · exact ih hlater

theorem Scans.accountedFor (h : Scans table [] ts stretches) : AccountedFor table stretches where
  remains before _ _ hsplit hcall :=
    (h.accounted hsplit hcall).imp_left (afterConst_iff before).1
  kept c blocker hkept := by
    obtain ⟨t, ht⟩ | ⟨c', hformed, hdisposes⟩ := h.disposes hkept
    · cases ht
    · cases hdisposes with
      | kept hblocks => exact ⟨hformed, hblocks⟩
  declared x hcall := by
    obtain ⟨t, ht⟩ | ⟨c, hformed, hdisposes⟩ := h.disposes hcall
    · cases ht
    · cases hdisposes with
      | hoisted _ hdeclares _ =>
          exact ⟨hdeclares, fun _ ht => isConstant_eq_false_of_mem hdeclares.args ht⟩

end

/-- The parts of a script before and after hoisting, and the stretches of all runs. -/
inductive Remains (table : SymbolTable) : List Piece → List Piece → List Stretch → Prop
  | nil : Remains table [] [] []
  | run {parts rest : List Piece} {stretches later : List Stretch} {span : Span}
      (row : AccountedFor table stretches) (rows : Remains table parts rest later) :
      Remains table (.run ⟨sourceOf stretches, span⟩ :: parts)
        (.run ⟨writtenOf stretches, span⟩ :: rest) (stretches ++ later)
  | other {p : Piece} {parts rest : List Piece} {later : List Stretch} (kept : ∀ r, p ≠ .run r)
      (rows : Remains table parts rest later) : Remains table (p :: parts) (p :: rest) later

theorem hoistPieces_accounts {table : SymbolTable} (hwrites : table.Writes) (stem : Text)
    (parts : List Piece) (state : State) {s : Session} (hs : Knows table s) :
    Ends ((hoistPieces stem parts).run state) s
      (fun out s' => ∃ stretches, Remains table parts out.1 stretches ∧
        Accounts table stretches state out.2 s s')
      (fun _ _ => False) := by
  induction parts generalizing state s with
  | nil => exact ⟨[], .nil, .refl hs state⟩
  | cons p parts ih =>
      have keep (hp : ∀ r, p ≠ .run r) (heq : hoistPieces stem (p :: parts) = do
          let later ← hoistPieces stem parts
          return p :: later) :
          Ends ((hoistPieces stem (p :: parts)).run state) s
            (fun out s' => ∃ stretches, Remains table (p :: parts) out.1 stretches ∧
              Accounts table stretches state out.2 s s')
            (fun _ _ => False) := by
        rw [heq]
        simp only [StateT.run_bind, Ends.bind_iff]
        apply (ih state hs).weaken
        rintro ⟨later, state₁⟩ s₁ ⟨stretches, hremains, haccounts⟩
        exact ⟨stretches, .other hp hremains, haccounts⟩
      cases p with
      | cut span => exact keep (by simp) rfl
      | header h => exact keep (by simp) rfl
      | run r =>
          obtain ⟨row, span⟩ := r
          rw [hoistPieces]
          simp only [StateT.run_bind, Ends.bind_iff]
          apply (hoistTokens_accounts hwrites stem [] row state hs).weaken
          rintro ⟨tokens, state₁⟩ s₁ ⟨stretches, hscans, rfl, haccounts⟩
          apply (ih state₁ haccounts.knows).weaken
          rintro ⟨later, state₂⟩ s₂ ⟨stretches', hremains, haccounts'⟩
          obtain rfl := hscans.source_eq
          exact ⟨stretches ++ stretches', .run hscans.accountedFor hremains,
            haccounts.trans haccounts'⟩

/-- Where no call is taken out nothing changes. -/
theorem writtenOf_eq_sourceOf {stretches : List Stretch}
    (h : stretches.filterMap Stretch.hoisted? = []) : writtenOf stretches = sourceOf stretches := by
  induction stretches with
  | nil => rfl
  | cons stretch stretches ih =>
      rw [writtenOf, sourceOf, List.flatMap_cons, List.flatMap_cons]
      cases stretch with
      | call h' => cases h
      | token t => exact congrArg (List.cons t) (ih h)
      | kept c blocker => exact congrArg (c.tokens ++ ·) (ih h)

theorem Remains.eq_of_uncalled {table : SymbolTable} {parts rest : List Piece}
    {stretches : List Stretch} (h : Remains table parts rest stretches)
    (hcalls : stretches.filterMap Stretch.hoisted? = []) : rest = parts := by
  induction h with
  | nil => rfl
  | run _ _ ih =>
      rw [List.filterMap_append, List.append_eq_nil_iff] at hcalls
      rw [writtenOf_eq_sourceOf hcalls.1, ih hcalls.2]
  | other _ _ ih => rw [ih hcalls]

/-- The run of the declarations of calls, if there are any. -/
def declarationRun (calls : List Hoisted) (start : Position) : List Piece :=
  if calls.isEmpty then [] else [.run ⟨calls.flatMap Hoisted.line, .point start⟩]

end Hoist

/-- A script whose calls are taken out has their declarations in front, if there are any. -/
theorem Script.hoist_of_pieces {stem : Text} {tree : Script Piece} {s : Session}
    {Q : List Piece → List Hoist.Hoisted → Session → Prop} {E : Failure → Session → Prop}
    (h : Ends ((Hoist.hoistPieces stem tree.parts).run
        { used := s.table.names ++ tree.parts.flatMap Hoist.words }) s
      (fun out s' => ∃ calls : List Hoist.Hoisted,
        out.2.declarations = (calls.map Hoist.Hoisted.line).reverse ∧
        (calls = [] → out.1 = tree.parts) ∧ Q out.1 calls s') E) :
    Ends (tree.hoist stem) s
      (fun out s' => ∃ rest calls, Q rest calls s' ∧
        out = ⟨Hoist.declarationRun calls tree.span.start ++ rest, tree.span⟩) E := by
  unfold Script.hoist
  simp only [Ends.bind_iff, Ends.get_iff]
  apply h.weaken
  rintro ⟨rest, state⟩ s₁ ⟨calls, hdeclarations, hnone, hrest⟩
  have hlines : state.declarations.reverse.flatten = calls.flatMap Hoist.Hoisted.line := by
    rw [hdeclarations, List.reverse_reverse, List.flatMap]
  dsimp only at hnone hrest ⊢
  rw [hlines]
  cases calls with
  | nil =>
      obtain rfl := hnone rfl
      exact ⟨tree.parts, [], hrest, rfl⟩
  | cons x calls => exact ⟨rest, x :: calls, hrest, rfl⟩

/-- What is left of a script, the calls that are taken out of it and the warnings on the way
are those of its stretches. -/
theorem Script.hoist_accounts {table : SymbolTable} (hwrites : table.Writes) (stem : Text)
    (tree : Script Piece) {s : Session} (hs : Hoist.Knows table s) :
    Ends (tree.hoist stem) s
      (fun out s' => ∃ rest stretches new, Hoist.Remains table tree.parts rest stretches ∧
        out = ⟨Hoist.declarationRun (stretches.filterMap Hoist.Stretch.hoisted?)
          tree.span.start ++ rest, tree.span⟩ ∧
        s'.warnings = s.warnings ++ new ∧ Hoist.Warns stretches new)
      (fun _ _ => False) := by
  refine (Script.hoist_of_pieces (Q := fun rest calls s' => ∃ stretches new,
    Hoist.Remains table tree.parts rest stretches ∧
    calls = stretches.filterMap Hoist.Stretch.hoisted? ∧
    s'.warnings = s.warnings ++ new ∧ Hoist.Warns stretches new) ?_).weaken ?_
  · apply (Hoist.hoistPieces_accounts hwrites stem tree.parts _ hs).weaken
    rintro ⟨rest, state⟩ s₁ ⟨stretches, hremains, -, hdeclarations, new, hnew, hwarns⟩
    rw [List.append_nil] at hdeclarations
    exact ⟨_, hdeclarations, hremains.eq_of_uncalled, stretches, new, hremains, rfl, hnew, hwarns⟩
  · rintro out s₁ ⟨rest, calls, ⟨stretches, new, hremains, rfl, hnew, hwarns⟩, rfl⟩
    exact ⟨rest, stretches, new, hremains, rfl, hnew, hwarns⟩

/-- Hoisting a script in the session of a resolved one leaves no random call unaccounted
for: its runs are accounted for by their stretches, the calls that are taken out are declared
in front, and for each call that stays there is one warning, about a constant without a single
value among its arguments. -/
theorem Script.hoist_accounted {source : Text} {script named : Script Node}
    {fresh table : SymbolTable} (hsource : ofSource source = .ok script) (hfresh : fresh.Fresh)
    (hresolve : script.resolve.run.run fresh = (.ok named, table))
    (operands : List (List Token)) (warnings : List Warning) (stem : Text) (tree : Script Piece) :
    ∃ out s, (tree.hoist stem).run.run
        ⟨{ table with values := table.valuesAfter operands }, warnings⟩ = (.ok out, s) ∧
      ∃ rest stretches new, Hoist.Remains table tree.parts rest stretches ∧
        out = ⟨Hoist.declarationRun (stretches.filterMap Hoist.Stretch.hoisted?)
          tree.span.start ++ rest, tree.span⟩ ∧
        s.warnings = warnings ++ new ∧ Hoist.Warns stretches new := by
  have hwrites := writes_of_resolve hsource hfresh hresolve
  have hsound := sound_valuesAfter (Resolved.of_run hfresh hresolve).sound operands
  have hknows : Hoist.Knows table
      ⟨{ table with values := table.valuesAfter operands }, warnings⟩ := ⟨_, rfl, hsound⟩
  exact (tree.hoist_accounts hwrites stem hknows).exists_run

/-- A call that stays with one in it, one that is taken out, and the operand of a constant
with a call that stays in it. -/
theorem Script.hoist_accounted_nested :
    ∃ script named table,
      ofSource ("#const A 1\n#const A 2\n#const B 7\nx rnd(A,rnd(1,2))".toList ++
        " rnd(3,B)\n#const X rnd(rnd(A,4),rnd(5,6))".toList) = .ok script ∧
      script.resolve.run.run {} = (.ok named, table) ∧
      ∃ out s, ((⟨named.parts.filterMap Node.toPiece?, named.span⟩ : Script Piece).hoist
          ['C']).run.run ⟨table, []⟩ = (.ok out, s) ∧
        ∃ rest stretches new,
          Hoist.Remains table (named.parts.filterMap Node.toPiece?) rest stretches ∧
          out = ⟨Hoist.declarationRun (stretches.filterMap Hoist.Stretch.hoisted?)
            named.span.start ++ rest, named.span⟩ ∧
          s.warnings = [] ++ new ∧ Hoist.Warns stretches new := by
  have hruns : (ofSource ("#const A 1\n#const A 2\n#const B 7\nx rnd(A,rnd(1,2))".toList ++
      " rnd(3,B)\n#const X rnd(rnd(A,4),rnd(5,6))".toList)).toOption.any
      (fun script => (script.resolve.run.run {}).1.isOk) = true := by
    decide +kernel
  obtain ⟨script, hsource, hruns⟩ := toOption_any_iff.1 hruns
  obtain ⟨named, hnamed⟩ := isOk_iff.1 hruns
  have hresolve : script.resolve.run.run {} = (.ok named, (script.resolve.run.run {}).2) :=
    Prod.ext hnamed rfl
  have hfresh : SymbolTable.Fresh {} := ⟨rfl, rfl, rfl⟩
  exact ⟨script, named, _, hsource, hresolve,
    hoist_accounted hsource hfresh hresolve [] [] ['C'] _⟩

end MapScript
