import MapScript.Proofs.Symbol.Areas

/-!
# Coordinates of areas

The name of an area that is created stands after two coordinates.  Whatever they are,
the coordinates are stepped over as a whole, so that the name and nothing else gives way
to the number of the area; but a name and parentheses behind it are read as one call, and
the token after them is taken for the second coordinate.
-/

namespace MapScript

open Evaluation (Sound)
open Grammar (Balanced argumentList)

/-- What can be a coordinate, without what separates. -/
inductive Coordinate : List Token → Prop
  | number {t : Token} (kind : t.kind = .number) : Coordinate [t]
  | signed {minus t : Token} (sign : minus.isPunct '-' = true) (kind : t.kind = .number) :
      Coordinate [minus, t]
  | name {t : Token} (kind : t.kind = .word) : Coordinate [t]
  | call {t o c : Token} {inner : List Token} (kind : t.kind = .word)
      (opener : o.isPunct '(' = true) (within : Balanced argumentList inner)
      (closer : c.isPunct ')' = true) : Coordinate (t :: o :: (inner ++ [c]))
  | parens {o c : Token} {inner : List Token} (opener : o.isPunct '(' = true)
      (within : Balanced argumentList inner) (closer : c.isPunct ')' = true) :
      Coordinate (o :: (inner ++ [c]))

theorem Coordinate.ne_nil {ts : List Token} (h : Coordinate ts) : ts ≠ [] := by
  cases h <;> exact List.cons_ne_nil _ _

/-- Whether a single name and the parenthesis that follows are read as a call. -/
def readsAsCall (ts rest : List Token) : Bool :=
  ts.map (fun t => t.kind) == [.word] && rest.head?.any (Token.isPunct '(')

/-- A coordinate is an operand, unless it is a name that is read as called. -/
theorem Coordinate.length? {ts rest : List Token} (h : Coordinate ts)
    (hcall : readsAsCall ts rest = false) : Operand.length? (ts ++ rest) = some ts.length := by
  cases h with
  | number hkind =>
      rw [List.singleton_append, Operand.length?.eq_def]
      simp [Token.isPunct, hkind]
  | signed hsign hkind =>
      rw [List.cons_append, Operand.length?.eq_def]
      simp [hsign, hkind]
  | name hkind =>
      have hnext : rest.head?.any (Token.isPunct '(') = false := by
        simpa [readsAsCall, hkind] using hcall
      rw [List.singleton_append, Operand.length?_word hkind, hnext]
      rfl
  | @call t o c inner hkind hopener hwithin hcloser =>
      have hparens := Group.parens?_balanced hwithin hcloser rest
      rw [List.cons_append, Operand.length?_word hkind, if_pos (by simpa using hopener)]
      simp [hparens]
  | @parens o c inner hopener hwithin hcloser =>
      have hparens := Group.parens?_balanced hwithin hcloser rest
      rw [List.cons_append, List.append_assoc, Operand.length?_parens hopener,
        List.singleton_append, hparens]
      simp

namespace Resolve

/-! ### The place behind two coordinates -/

theorem length_indexedFrom (i : Nat) (ts : List Token) :
    (indexedFrom i ts).length = (Token.significant ts).length := by
  rw [← map_indexedFrom i ts, List.length_map]

/-- A coordinate is stepped over as a whole. -/
theorem skipOperands_indexedFrom {ts rest : List Token} {i : Nat}
    (h : Coordinate (Token.significant ts))
    (hcall : readsAsCall (Token.significant ts) (Token.significant rest) = false) (n : Nat) :
    skipOperands (n + 1) (indexedFrom i (ts ++ rest)) =
      skipOperands n (indexedFrom (i + ts.length) rest) := by
  rw [skipOperands, map_indexedFrom, significant_append, h.length? hcall, Option.bind_eq_bind,
    Option.bind_some, indexedFrom_append, ← length_indexedFrom i ts, List.drop_left]

/-- Behind two coordinates stands the name that the command declares. -/
theorem declaredPlace?_coordinates {command name : Token} {first second after : List Token}
    {i : Nat} (hcommand : command.isWord "create_actor_area".toList = true)
    (hfirst : Coordinate (Token.significant first))
    (hsecond : Coordinate (Token.significant second))
    (hcall : readsAsCall (Token.significant first) (Token.significant second) = false)
    (hname : name.kind = .word) :
    declaredPlace? command (indexedFrom i (first ++ (second ++ name :: after))) =
      some (name, i + (first ++ second).length) := by
  rw [Token.isWord, Bool.and_eq_true, beq_iff_eq, beq_iff_eq] at hcommand
  have hcoordinates : areaDeclaration? command.raw = some 2 := by
    rw [hcommand.2]
    decide
  have hsignificant : name.isTrivia = false := by simp [Token.isTrivia, hname, TokenKind.isTrivia]
  have hcall₁ : readsAsCall (Token.significant first)
      (Token.significant (second ++ name :: after)) = false := by
    rw [significant_append, readsAsCall, List.head?_append_of_ne_nil _ hsecond.ne_nil]
    exact hcall
  have hcall₂ : readsAsCall (Token.significant second)
      (Token.significant (name :: after)) = false := by
    simp [readsAsCall, Token.significant_cons, hsignificant, Token.isPunct, hname]
  rw [declaredPlace?, if_pos (by simp [hcommand.1]), hcoordinates, Option.bind_some,
    skipOperands_indexedFrom hfirst hcall₁, skipOperands_indexedFrom hsecond hcall₂, skipOperands,
    Option.bind_some, indexedFrom_cons, if_neg (by simp [hsignificant]), headName?,
    if_pos (by simp [hname]), List.length_append, Nat.add_assoc]

/-! ### The edit of a place -/

/-- A numeral takes the place of one token.  The edits of the row, of names and parentheses,
are made before and after it, and no other reaches there. -/
def PutsAt (ahead : List Token) (t : Token) (after : List Token) (numeral : Token)
    (out : List Token) : Prop :=
  ∃ edits : List Edit, (∀ e ∈ edits, e.Encloses (ahead ++ t :: after)) ∧
    (∀ e ∈ edits, e.covers ahead.length = true → e = ⟨ahead.length, ahead.length, numeral⟩) ∧
    out = Edit.applyFrom edits 0 ahead ++ numeral :: Edit.applyFrom edits (ahead.length + 1) after

/-- In an edited row the number of an area, and nothing else, takes the place of its name. -/
theorem RowEdited.putsAt {table : SymbolTable} {ahead after out : List Token} {name : Token}
    (h : RowEdited table (ahead ++ name :: after) out)
    (hplace : AreaPlace (indexed (ahead ++ name :: after)) (name, ahead.length))
    (hfree : table.isConstant name.raw = false) :
    ∃ area, table.areaId? name.raw = some area ∧
      PutsAt ahead name after (.made .number (Text.ofInt area) name.span) out := by
  obtain ⟨edits, rfl, hencloses, hedits⟩ := h
  obtain ⟨e, he, area, harea, rfl⟩ := hedits.numbers _ hplace hfree
  obtain ⟨hword, p, j, more, hp, hsuffix⟩ := hplace.trails
  have hthere : ∀ e' ∈ edits, e'.covers ahead.length = true →
      e' = ⟨ahead.length, ahead.length, .made .number (Text.ofInt area) name.span⟩ := by
    intro e' he' hcovers
    obtain ⟨area', harea', rfl⟩ :=
      (hedits.arises e' he').numbers_of_covers hsuffix hp hword hfree hcovers
    rw [Option.some.inj (harea'.symm.trans harea)]
  have hresult : Edit.resultAt edits name ahead.length =
      [.made .number (Text.ofInt area) name.span] :=
    Edit.resultAt_of_forall_eq he rfl (by simp [Edit.covers]) hthere name
  have hsplit := Edit.applyFrom_append edits 0 ahead (name :: after)
  rw [Nat.zero_add, Edit.applyFrom_cons, hresult] at hsplit
  exact ⟨area, harea, edits, hencloses, hthere, hsplit⟩

end Resolve

open Resolve

/-- The name behind the two coordinates of a created area is declared, and its number takes
the place of that token.  Only where a name and parentheses are the coordinates, in this
order, are they read as one call. -/
theorem Script.resolve_names_area {s out : Script Node} {table last : SymbolTable}
    (hfresh : table.Fresh) (hrun : s.resolve.run.run table = (.ok out, last))
    {tokens : List Token} {k : Nat} (hrow : (groups s.parts)[k]? = some tokens)
    {before first second after : List Token} {command name : Token}
    (htokens : tokens = before ++ command :: (first ++ (second ++ name :: after)))
    (hcommand : command.isWord "create_actor_area".toList = true)
    (hfirst : Coordinate (Token.significant first))
    (hsecond : Coordinate (Token.significant second))
    (hcall : readsAsCall (Token.significant first) (Token.significant second) = false)
    (hname : name.kind = .word) (hfree : last.isConstant name.raw = false) :
    ∃ row area, (groups out.parts)[k]? = some row ∧ last.areaId? name.raw = some area ∧
      PutsAt (before ++ command :: (first ++ second)) name after
        (.made .number (Text.ofInt area) name.span) row := by
  have hrows := ((s.resolve_rows establishes_edited table).of_run_ok hrun).2
    (s.sound_declare hfresh.values)
  obtain ⟨hk, rfl⟩ := List.getElem?_eq_some_iff.1 hrow
  have hk' : k < (groups out.parts).length := hrows.length_eq ▸ hk
  have hedited := (List.forall₂_iff_get.1 hrows).2 k hk hk'
  rw [List.get_eq_getElem, List.get_eq_getElem, htokens] at hedited
  have hwhole : before ++ command :: (first ++ (second ++ name :: after)) =
      (before ++ command :: (first ++ second)) ++ name :: after := by simp
  have hplace : AreaPlace (indexed (before ++ command :: (first ++ (second ++ name :: after))))
      (name, (before ++ command :: (first ++ second)).length) := by
    refine ⟨command, before.length,
      indexedFrom (before.length + 1) (first ++ (second ++ name :: after)), ?_, Or.inl ?_⟩
    · have hsignificant : command.isTrivia = false := by
        rw [Token.isWord, Bool.and_eq_true, beq_iff_eq] at hcommand
        simp [Token.isTrivia, hcommand.1, TokenKind.isTrivia]
      have hsplit := indexedFrom_append 0 before
        (command :: (first ++ (second ++ name :: after)))
      rw [indexedFrom_cons, if_neg (by simp [hsignificant]), Nat.zero_add] at hsplit
      exact ⟨_, hsplit.symm⟩
    · rw [declaredPlace?_coordinates hcommand hfirst hsecond hcall hname]
      simp only [List.length_append, List.length_cons]
      congr 2
      omega
  rw [hwhole] at hedited hplace
  obtain ⟨area, harea, hputs⟩ := hedited.putsAt hplace hfree
  exact ⟨_, area, List.getElem?_eq_getElem hk', harea, hputs⟩

/-- An area behind an expression and a call. -/
def pond : Text := "create_actor_area (3 + 4) rnd(1,2) POND 5".toList

theorem Script.resolve_names_area_pond :
    ∃ s out last, ofSource pond = .ok s ∧ s.resolve.run.run {} = (.ok out, last) ∧
      ∃ tokens before first second after command name,
        (groups s.parts)[0]? = some tokens ∧
        tokens = before ++ command :: (first ++ (second ++ name :: after)) ∧
        command.isWord "create_actor_area".toList = true ∧
        Coordinate (Token.significant first) ∧ Coordinate (Token.significant second) ∧
        readsAsCall (Token.significant first) (Token.significant second) = false ∧
        name.kind = .word ∧ last.isConstant name.raw = false ∧
        ∃ row area, (groups out.parts)[0]? = some row ∧ last.areaId? name.raw = some area ∧
          PutsAt (before ++ command :: (first ++ second)) name after
            (.made .number (Text.ofInt area) name.span) row := by
  obtain ⟨s, hs, hok, tokens, before, first, second, after, command, name, hrow, htokens, hcommand,
      hfirst, hsecond, hcall, hname, hfree⟩ :
      ∃ s, ofSource pond = .ok s ∧ (s.resolve.run.run {}).1.isOk = true ∧
        ∃ tokens before first second after command name, (groups s.parts)[0]? = some tokens ∧
          tokens = before ++ command :: (first ++ (second ++ name :: after)) ∧
          command.isWord "create_actor_area".toList = true ∧
          Coordinate (Token.significant first) ∧ Coordinate (Token.significant second) ∧
          readsAsCall (Token.significant first) (Token.significant second) = false ∧
          name.kind = .word ∧ (s.resolve.run.run {}).2.isConstant name.raw = false := by
    refine ⟨_, by cbv, by decide +kernel, _, [], [_, _, _, _, _, _, _, _], [_, _, _, _, _, _, _, _],
      _, _, _, by rfl, by rfl, by decide, ?_, ?_, by decide, rfl, by decide +kernel⟩
    · exact .parens rfl (.token rfl rfl rfl (.token rfl rfl rfl (.token rfl rfl rfl .nil))) rfl
    · exact .call rfl rfl (.token rfl rfl rfl (.token rfl rfl rfl (.token rfl rfl rfl .nil))) rfl
  obtain ⟨out, hout⟩ := isOk_iff.1 hok
  have hrun : s.resolve.run.run {} = (.ok out, (s.resolve.run.run {}).2) := Prod.ext hout rfl
  exact ⟨s, out, _, hs, hrun, tokens, before, first, second, after, command, name, hrow, htokens,
    hcommand, hfirst, hsecond, hcall, hname, hfree,
    resolve_names_area ⟨rfl, rfl, rfl⟩ hrun hrow htokens hcommand hfirst hsecond hcall hname hfree⟩

/-- An area behind a name and an expression. -/
def glade : Text := "#const A 10\n#const X 5\ncreate_actor_area A (X + 5) GLADE 3".toList

/-- A name and the parentheses behind it are read as a call, and no area is declared. -/
theorem Script.resolve_names_area_called :
    ∃ s out last, ofSource glade = .ok s ∧ s.resolve.run.run {} = (.ok out, last) ∧
      last.isConstant "GLADE".toList = false ∧ last.areas = [] ∧
      ((groups out.parts).flatten.any fun t => t.isWord "GLADE".toList) = true := by
  have hruns : (ofSource glade).toOption.any (fun s =>
      (s.resolve.run.run {}).1.toOption.any (fun out =>
        (groups out.parts).flatten.any fun t => t.isWord "GLADE".toList) &&
      !(s.resolve.run.run {}).2.isConstant "GLADE".toList &&
      decide ((s.resolve.run.run {}).2.areas = [])) = true := by
    decide +kernel
  obtain ⟨s, hs, hruns⟩ := toOption_any_iff.1 hruns
  simp only [Bool.and_eq_true, Bool.not_eq_true', decide_eq_true_eq] at hruns
  obtain ⟨⟨hout, hfree⟩, hareas⟩ := hruns
  obtain ⟨out, hout, hword⟩ := toOption_any_iff.1 hout
  exact ⟨s, out, _, hs, Prod.ext hout rfl, hfree, hareas, hword⟩

end MapScript
