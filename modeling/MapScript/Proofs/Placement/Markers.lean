import MapScript.Proofs.Placement.Objects

/-!
# Where player markers may stand

A marker is taken where one bracket is open since the command of the object being read,
and the object has to be closed before a part or the end of the script.  Which command
the bracket belongs to is not looked at: where every command is followed by one name and
a body, the bracket is that of the object's own body, and an object without a body may
reach into the body of what follows it.
-/

namespace MapScript

namespace Placement

/-- An item between others stands directly in an object: one bracket is open since the
command, and the object is closed behind the item with nothing to cut it off before. -/
inductive Held : List Item → Item → List Item → Prop
  | mk {before inner later after : List Item} {i : Item} {c e : Token}
      (command : c.isWord "create_object".toList = true) (within : Open 0 (inner ++ i :: later))
      (direct : depthOf inner = 1) (depth : depthOf (inner ++ i :: later) = 1)
      (closer : e.isPunct '\x7d' = true) :
      Held (before ++ .token c :: inner) i (later ++ .token e :: after)

/-- Tokens that name an object and open its body. -/
def IsHeading (heading : List Token) : Prop :=
  ∃ name bracket, Token.significant heading = [name, bracket] ∧ name.kind = .word ∧
    bracket.isPunct '\x7b' = true

/-- An item stands directly in the body of an object: the bracket that is open belongs to
the command and the one name behind it, and the body is closed behind the item with nothing
to cut it off before. -/
inductive Owned : List Item → Item → List Item → Prop
  | mk {before inner later after : List Item} {heading : List Token} {i : Item} {c e : Token}
      (command : c.isWord "create_object".toList = true) (headed : IsHeading heading)
      (within : Open 1 (inner ++ i :: later)) (direct : depthOf inner = 0)
      (depth : depthOf (inner ++ i :: later) = 0) (closer : e.isPunct '\x7d' = true) :
      Owned (before ++ .token c :: (heading.map .token ++ inner)) i (later ++ .token e :: after)

/-- Every command of an object names it and opens its body. -/
def Formed (row : List Item) : Prop :=
  ∀ front c back, row = front ++ .token c :: back → c.isWord "create_object".toList = true →
    ∃ heading rest, back = heading.map Item.token ++ rest ∧ IsHeading heading

/-! ### Markers of segments -/

theorem Held.append {front back : List Item} {i : Item} (h : Held front i back)
    (row : List Item) : Held (row ++ front) i back := by
  obtain ⟨hcommand, hopen, hdirect, hdepth, hcloser⟩ := h
  rw [← List.append_assoc]
  exact .mk hcommand hopen hdirect hdepth hcloser

/-- An item of two rows stands in the first or in the second. -/
theorem append_eq_append_cons {row rest front back : List Item} {i : Item}
    (h : row ++ rest = front ++ i :: back) :
    (∃ later, row = front ++ i :: later ∧ back = later ++ rest) ∨
      ∃ inner, front = row ++ inner ∧ rest = inner ++ i :: back := by
  rcases List.append_eq_append_iff.1 h with ⟨inner, hfront, hrest⟩ | ⟨part, hrow, hback⟩
  · exact Or.inr ⟨inner, hfront, hrest⟩
  · cases part with
    | nil => exact Or.inr ⟨[], by simpa using hrow.symm, hback.symm⟩
    | cons j later =>
        obtain ⟨rfl, rfl⟩ := List.cons.inj hback
        exact Or.inl ⟨later, hrow, rfl⟩

/-- Where each segment has its markers in their place, each marker stands directly in an
object. -/
theorem Divided.held {row front back : List Item} {i : Item} {segments : List Segment}
    (h : Divided row segments) (hproper : ∀ s ∈ segments, s.Proper)
    (hsplit : row = front ++ i :: back) (hmarker : i.marker?.isSome = true) :
    Held front i back := by
  induction h generalizing front with
  | nil => simp at hsplit
  | @loose j rest segments _ _ ih =>
      obtain ⟨hj, hproper⟩ := List.forall_mem_cons.1 hproper
      cases front with
      | nil =>
          obtain ⟨rfl, -⟩ := List.cons.inj hsplit
          rw [show j.marker? = none from hj] at hmarker
          cases hmarker
      | cons k front => exact (ih hproper (List.cons.inj hsplit).2).append [k]
  | @object c e body rest segments hcommand hopen hdepth hcloser _ ih =>
      obtain ⟨hdirect, hproper⟩ := List.forall_mem_cons.1 hproper
      have hrow : .token c :: body ++ .token e :: rest = front ++ i :: back := hsplit
      rcases append_eq_append_cons hrow with ⟨later, hobject, rfl⟩ | ⟨inner, rfl, hrest⟩
      · cases front with
        | nil =>
            obtain ⟨rfl, -⟩ := List.cons.inj hobject
            cases hmarker
        | cons k inner =>
            obtain ⟨rfl, rfl⟩ := List.cons.inj hobject
            have hinner : depthOf inner = 1 := by
              simpa using hdirect inner i later rfl hmarker
            exact @Held.mk [] inner later rest i c e hcommand hopen hinner hdepth hcloser
      · cases inner with
        | nil =>
            obtain ⟨rfl, -⟩ := List.cons.inj hrest
            cases hmarker
        | cons k inner =>
            have hlater := ih hproper (List.cons.inj hrest).2
            exact (hlater.append [k]).append (.token c :: body)
  | @unfinished c body rest segments _ _ _ _ ih =>
      obtain ⟨hnone, hproper⟩ := List.forall_mem_cons.1 hproper
      have hrow : .token c :: body ++ rest = front ++ i :: back := hsplit
      rcases append_eq_append_cons hrow with ⟨later, hobject, -⟩ | ⟨inner, rfl, hrest⟩
      · have hmem : i ∈ .token c :: body := by rw [hobject]; simp
        rcases List.mem_cons.1 hmem with rfl | hmem
        · cases hmarker
        · rw [List.filterMap_eq_nil_iff.1 hnone i hmem] at hmarker
          cases hmarker
      · exact (ih hproper hrest).append (.token c :: body)

/-! ### Objects with bodies of their own -/

theorem rise_of_kind {t : Token} (h : t.kind ≠ .punct) : (Item.token t).rise = 0 := by
  simp [Item.rise, Token.isPunct, h]

theorem rise_of_isTrivia {t : Token} (h : t.isTrivia = true) : (Item.token t).rise = 0 := by
  apply rise_of_kind
  intro hkind
  rw [Token.isTrivia, hkind] at h
  cases h

/-- Tokens that only separate others open and close no bracket. -/
theorem depthOf_significant (ts : List Token) :
    depthOf (ts.map .token) = depthOf ((Token.significant ts).map .token) := by
  induction ts with
  | nil => rfl
  | cons t ts ih =>
      rw [List.map_cons, depthOf_cons, ih]
      cases htrivia : t.isTrivia with
      | true => simp [Token.significant, htrivia, rise_of_isTrivia htrivia]
      | false => simp [Token.significant, htrivia]

theorem IsHeading.depthOf_eq {heading : List Token} (h : IsHeading heading) :
    depthOf (heading.map .token) = 1 := by
  obtain ⟨name, bracket, hheading, hname, hbracket⟩ := h
  have hrise : (Item.token bracket).rise = 1 := if_pos hbracket
  rw [depthOf_significant, hheading]
  simp [hrise, rise_of_kind (t := name) (by simp [hname])]

/-- A marker that an object holds stands in its own body, if each object has one. -/
theorem Held.owned {front back : List Item} {i : Item} (h : Held front i back)
    (hmarker : i.marker?.isSome = true) (hformed : Formed (front ++ i :: back)) :
    Owned front i back := by
  obtain @⟨before, inner, later, after, _, c, e, hcommand, hopen, hdirect, hdepth, hcloser⟩ := h
  obtain ⟨heading, rest, hback, hheading⟩ := hformed before c
    (inner ++ i :: (later ++ .token e :: after)) (by simp) hcommand
  rcases append_eq_append_cons hback.symm with ⟨tail, htokens, -⟩ | ⟨inside, rfl, -⟩
  · have hmem : i ∈ heading.map Item.token := by rw [htokens]; simp
    obtain ⟨t, -, rfl⟩ := List.mem_map.1 hmem
    cases hmarker
  · rw [List.append_assoc] at hopen hdepth
    rw [depthOf_append, hheading.depthOf_eq] at hdirect hdepth
    have hwithin := hopen.append_right
    rw [hheading.depthOf_eq, zero_add] at hwithin
    exact .mk hcommand hheading hwithin (by omega) (by omega) hcloser

/-- The markers of a script are accepted where they stand in their segments as they may, and
the script is refused for its markers otherwise.  Each marker that is accepted stands directly
in an object that is closed before a part or the end of the script cuts it off; it stands
directly in the body of that object if every command names an object and opens its body. -/
theorem placeAll_marked (leaves : List Leaf) :
    (∀ r, placeAll leaves = .error r → r.cause.kind = .argument) ∧
    (∀ segments, Divided (leaves.flatMap items) segments →
      ((∃ pieces, placeAll leaves = .ok pieces) ↔ ∀ s ∈ segments, s.Proper)) ∧
    ∀ pieces, placeAll leaves = .ok pieces → ∀ front m span back,
      leaves.flatMap items = front ++ .marker m span :: back →
        Held front (.marker m span) back ∧
          (Formed (leaves.flatMap items) → Owned front (.marker m span) back) := by
  refine ⟨fun r => kind_of_placeAll_error, fun segments h => h.placeAll_iff.1, ?_⟩
  intro pieces hpieces front m span back hsplit
  obtain ⟨segments, hdivided⟩ := exists_divided (leaves.flatMap items)
  have hproper := hdivided.placeAll_iff.1.1 ⟨pieces, hpieces⟩
  have hheld := hdivided.held hproper hsplit rfl
  exact ⟨hheld, fun hformed => hheld.owned rfl (hsplit ▸ hformed)⟩

theorem formed_of_plain {row : List Item} (h : ∀ i ∈ row, i.isCommand = false) : Formed row := by
  rintro front c back rfl hcommand
  have hplain : c.isWord "create_object".toList = false := h (.token c) (by simp)
  rw [hplain] at hcommand
  cases hcommand

theorem Formed.cons {i : Item} {row : List Item} (h : Formed row)
    (hcommand : ∃ heading rest, row = heading.map Item.token ++ rest ∧ IsHeading heading) :
    Formed (i :: row) := by
  intro front c back hsplit hc
  cases front with
  | nil =>
      obtain ⟨rfl, rfl⟩ := List.cons.inj hsplit
      exact hcommand
  | cons j front => exact h front c back (List.cons.inj hsplit).2 hc

/-- An object in two runs with a marker between them. -/
def yard : List Leaf :=
  let span : Span := .point .origin
  let made (kind : TokenKind) (raw : String) : Token := .made kind raw.toList span
  [.run ⟨[made .word "create_object", made .blank " ", made .word "A", made .newline "\n",
      made .punct "\x7b"], span⟩, .marker (.players .eight) span,
    .run ⟨[made .blank " ", made .punct "\x7d"], span⟩]

theorem placeAll_marked_yard :
    ∃ pieces, placeAll yard = .ok pieces ∧ Formed (yard.flatMap items) ∧
      ∃ front m span back, yard.flatMap items = front ++ .marker m span :: back ∧
        Held front (.marker m span) back ∧ Owned front (.marker m span) back := by
  have hok : (placeAll yard).isOk = true := by decide +kernel
  obtain ⟨pieces, hpieces⟩ := isOk_iff.1 hok
  have hrow : yard.flatMap items = (yard.take 1).flatMap items ++
      .marker .eight (.point .origin) :: (yard.drop 2).flatMap items := rfl
  have hformed : Formed (yard.flatMap items) := by
    refine Formed.cons (formed_of_plain (by decide +kernel))
      ⟨(yard.flatMap Leaf.tokens).tail.take 4, _, rfl, ?_⟩
    exact ⟨_, _, rfl, rfl, rfl⟩
  obtain ⟨hheld, howned⟩ := (placeAll_marked yard).2.2 pieces hpieces _ _ _ _ hrow
  exact ⟨pieces, hpieces, hformed, _, _, _, _, hrow, hheld, howned hformed⟩

/-! ### An object without a body -/

/-- Whether a command among the items is followed by one token and the bracket of a body. -/
def opensBody : List Item → Bool
  | [] => false
  | i :: row =>
    (i.isCommand && (Token.significant (tokensOf row))[1]?.any (Token.isPunct '\x7b')) ||
      opensBody row

theorem opensBody_append {row : List Item} (h : opensBody row = true) (front : List Item) :
    opensBody (front ++ row) = true := by
  induction front with
  | nil => exact h
  | cons i front ih => rw [List.cons_append, opensBody, ih, Bool.or_true]

theorem IsHeading.bracket {heading : List Token} (h : IsHeading heading) (rest : List Item) :
    (Token.significant (tokensOf (heading.map .token ++ rest)))[1]?.any (Token.isPunct '\x7b') =
      true := by
  obtain ⟨name, bracket, hheading, -, hbracket⟩ := h
  have htokens : (heading.map Item.token).filterMap Item.token? = heading := by
    simp [List.filterMap_map, Function.comp_def, Item.token?]
  rw [Token.significant] at hheading ⊢
  rw [tokensOf, List.filterMap_append, htokens, List.filter_append, hheading]
  exact hbracket

/-- Before what stands directly in the body of an object stands the command with the body. -/
theorem Owned.opensBody {front back : List Item} {i : Item} (h : Owned front i back) :
    opensBody front = true := by
  obtain @⟨before, inner, later, after, heading, _, c, e, hcommand, hheading, -, -, -, -⟩ := h
  apply opensBody_append
  have hfirst : (Item.token c).isCommand = true := hcommand
  rw [Placement.opensBody, hfirst, hheading.bracket]
  rfl

/-- An object without a body before a land with one, which holds a marker. -/
def clearing : Text := "create_object A\ncreate_land \x7b #PLACE8 \x7d".toList

/-- A marker in the body of another command is accepted. -/
theorem placeAll_accepts_clearing :
    ∃ script leaves pieces, Script.ofSource clearing = .ok script ∧
      (Expansion.expandNodes script.parts).run.run ⟨{}, []⟩ = (.ok leaves, ⟨{}, []⟩) ∧
      placeAll leaves = .ok pieces ∧
      ∃ front m span back, leaves.flatMap items = front ++ .marker m span :: back ∧
        ¬ Owned front (.marker m span) back := by
  obtain ⟨script, leaves, hscript, hleaves, htest⟩ := @exists_leaves_of_any clearing
    (fun leaves => (placeAll leaves).isOk &&
      (((leaves.flatMap items)[8]?.any fun i => i.marker?.isSome) &&
        !opensBody ((leaves.flatMap items).take 8))) (by decide +kernel)
  simp only [Bool.and_eq_true, Bool.not_eq_true'] at htest
  obtain ⟨hpieces, hmarker, hcommand⟩ := htest
  obtain ⟨pieces, hpieces⟩ := isOk_iff.1 hpieces
  obtain ⟨i, hi, hmarker⟩ := (Option.any_eq_true ..).1 hmarker
  obtain ⟨hlength, rfl⟩ := List.getElem?_eq_some_iff.1 hi
  refine ⟨script, leaves, pieces, hscript, hleaves, hpieces, (leaves.flatMap items).take 8, ?_⟩
  cases hitem : (leaves.flatMap items)[8] with
  | token t => simp [hitem, Item.marker?] at hmarker
  | barrier p => simp [hitem, Item.marker?] at hmarker
  | marker m span =>
      refine ⟨m, span, (leaves.flatMap items).drop 9, ?_, fun howned => ?_⟩
      · rw [← hitem, ← List.drop_eq_getElem_cons hlength, List.take_append_drop]
      · rw [howned.opensBody] at hcommand
        cases hcommand

end Placement

end MapScript
