import MapScript.Token.Basic

/-!
# Groups

Tokens between brackets.  A group ends at the bracket that closes it; brackets
within it come in pairs.
-/

namespace MapScript

/-- The tokens of a group, the one that closes it and what comes after. -/
structure Group where
  inner : List Token
  closer : Token
  rest : List Token

/-- Why a group has no end. -/
inductive GroupFault where
  | unfinished
  /-- A token that must not stand in the group. -/
  | refused (token : Token)

namespace Group

/-- The group with a token in front. -/
def cons (t : Token) (g : Group) : Group := { g with inner := t :: g.inner }

/-- Reads a group of which the opening bracket is taken, `depth` brackets being
open within it. -/
def read (opens closes refuses : Token → Bool) : Nat → List Token → Except GroupFault Group
  | _, [] => .error .unfinished
  | depth, t :: ts =>
    if opens t then (read opens closes refuses (depth + 1) ts).map (cons t)
    else if closes t then
      match depth with
      | 0 => .ok ⟨[], t, ts⟩
      | depth + 1 => (read opens closes refuses depth ts).map (cons t)
    else if refuses t then .error (.refused t)
    else (read opens closes refuses depth ts).map (cons t)

/-- A group, its end and what follows make up the tokens. -/
theorem read_append {opens closes refuses : Token → Bool} {depth : Nat} {ts : List Token}
    {g : Group} (h : read opens closes refuses depth ts = .ok g) :
    ts = g.inner ++ g.closer :: g.rest := by
  induction ts generalizing depth g with
  | nil => simp [read] at h
  | cons t ts ih =>
    have step {d : Nat} (hd : (read opens closes refuses d ts).map (cons t) = .ok g) :
        t :: ts = g.inner ++ g.closer :: g.rest := by
      cases hr : read opens closes refuses d ts with
      | error e => simp [hr, Except.map] at hd
      | ok inner =>
        simp only [hr, Except.map, Except.ok.injEq] at hd
        subst hd
        simpa [cons] using ih hr
    unfold read at h
    split at h
    · exact step h
    split at h
    · split at h
      · cases h
        rfl
      · exact step h
    split at h
    · simp at h
    · exact step h

/-- What follows a group is shorter than the whole. -/
theorem length_rest_lt {opens closes refuses : Token → Bool} {depth : Nat} {ts : List Token}
    {g : Group} (h : read opens closes refuses depth ts = .ok g) : g.rest.length < ts.length := by
  rw [read_append h]
  simp
  omega

/-- The group of parentheses that is open before the tokens. -/
def parens? (ts : List Token) : Option Group :=
  match read (Token.isPunct '(') (Token.isPunct ')') (fun _ => false) 0 ts with
  | .ok g => some g
  | .error _ => none

theorem parens?_append {ts : List Token} {g : Group} (h : parens? ts = some g) :
    ts = g.inner ++ g.closer :: g.rest := by
  unfold parens? at h
  split at h
  · next g' hg =>
    cases h
    exact read_append hg
  · simp at h

theorem length_parens_rest_lt {ts : List Token} {g : Group} (h : parens? ts = some g) :
    g.rest.length < ts.length := by
  rw [parens?_append h]
  simp
  omega

end Group

end MapScript
