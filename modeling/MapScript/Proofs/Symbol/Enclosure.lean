import MapScript.Proofs.Symbol.Edit

/-!
# What edits enclose

A numeral takes the place of a name or of parentheses with all that stands between
them.  Of two such places one lies within the other or they are apart, so a row after
its edits is the row with some balanced parts contracted to numerals.  Groups that
close in a contracted row closed before.
-/

namespace MapScript

open Grammar (Balanced argumentList)

/-! ### Groups within groups -/

theorem Token.isPunct_of_isTrivia {t : Token} (h : t.isTrivia = true) (c : Char) :
    t.isPunct c = false := by
  by_contra hpunct
  rw [Token.isTrivia, Token.kind_of_isPunct (by simpa using hpunct)] at h
  cases h

namespace Grammar

/-- What opens within balanced tokens closes within them. -/
theorem Balanced.closes {p : Part} {before after : List Token} {o : Token}
    (h : Balanced p (before ++ o :: after)) (ho : o.isPunct p.opener = true) :
    ∃ inner c rest, after = inner ++ c :: rest ∧ Balanced p inner ∧
      c.isPunct p.closer = true := by
  generalize hts : before ++ o :: after = ts at h
  induction h generalizing before after with
  | nil => simp at hts
  | @token t ts hopener hcloser hallowed hrest ih =>
      cases before with
      | nil =>
          obtain ⟨rfl, rfl⟩ := List.cons.inj hts
          rw [ho] at hopener
          cases hopener
      | cons u before => exact ih (List.cons.inj hts).2
  | @pair u c inner rest hopener hcloser hwithin hrest ihw ihr =>
      cases before with
      | nil =>
          obtain ⟨rfl, rfl⟩ := List.cons.inj hts
          exact ⟨inner, c, rest, rfl, hwithin, hcloser⟩
      | cons v before =>
          replace hts : before ++ o :: after = inner ++ c :: rest := (List.cons.inj hts).2
          have hne : o ≠ c := by
            rintro rfl
            rw [Group.isPunct_closer_of_opener ho] at hcloser
            cases hcloser
          rcases List.append_eq_append_iff.1 hts with
            ⟨between, rfl, hafter⟩ | ⟨between, rfl, hafter⟩
          · cases between with
            | nil => exact absurd (List.cons.inj hafter).1 hne
            | cons x between =>
                obtain ⟨rfl, rfl⟩ := List.cons.inj hafter
                obtain ⟨inner, d, rest', rfl, hinner, hd⟩ := ihw rfl
                exact ⟨inner, d, rest' ++ c :: rest, by simp, hinner, hd⟩
          · cases between with
            | nil => exact absurd (List.cons.inj hafter).1.symm hne
            | cons x between =>
                obtain ⟨-, hrest'⟩ := List.cons.inj hafter
                exact ihr hrest'.symm

end Grammar

namespace Group

/-- Only one bracket closes a group. -/
theorem eq_of_balanced {p : Grammar.Part} {inner inner' rest rest' : List Token} {c c' : Token}
    (h : inner ++ c :: rest = inner' ++ c' :: rest') (hinner : Balanced p inner)
    (hc : c.isPunct p.closer = true) (hinner' : Balanced p inner')
    (hc' : c'.isPunct p.closer = true) : inner = inner' := by
  have hread : readPart p 0 (inner ++ c :: rest) = .ok ⟨inner, c, rest⟩ :=
    readPart_eq_ok_iff.2 ⟨hinner, hc, rfl⟩
  have hread' : readPart p 0 (inner' ++ c' :: rest') = .ok ⟨inner', c', rest'⟩ :=
    readPart_eq_ok_iff.2 ⟨hinner', hc', rfl⟩
  rw [h, hread'] at hread
  exact (Group.mk.inj (Except.ok.inj hread)).1.symm

/-- A group that opens within balanced tokens ends within them. -/
theorem length_le_of_opens {p : Grammar.Part} {block after before inner rest : List Token}
    {o c : Token} (hblock : Balanced p block)
    (h : block ++ after = before ++ o :: (inner ++ c :: rest))
    (hlength : before.length < block.length) (ho : o.isPunct p.opener = true)
    (hinner : Balanced p inner) (hc : c.isPunct p.closer = true) :
    before.length + inner.length + 2 ≤ block.length := by
  obtain ⟨between, rfl⟩ : before <+: block :=
    List.prefix_of_prefix_length_le ⟨_, h.symm⟩ ⟨_, rfl⟩ hlength.le
  cases between with
  | nil => simp at hlength
  | cons u between =>
      rw [List.append_assoc, List.append_cancel_left_eq, List.cons_append, List.cons.injEq] at h
      obtain ⟨rfl, hrest⟩ := h
      obtain ⟨inner', c', rest', rfl, hinner', hc'⟩ := hblock.closes ho
      rw [List.append_assoc, List.cons_append] at hrest
      rw [eq_of_balanced hrest.symm hinner hc hinner' hc']
      simp only [List.length_append, List.length_cons]
      omega

/-- A token closes the group, or the reading goes on with it in the group. -/
theorem readPart_step (depth : Nat) (t : Token) :
    (∀ ts, readPart argumentList depth (t :: ts) = .ok ⟨[], t, ts⟩) ∨
      ∃ d, ∀ ts, readPart argumentList depth (t :: ts) =
        (readPart argumentList d ts).map (cons t) := by
  cases hopener : t.isPunct argumentList.opener with
  | true => exact Or.inr ⟨depth + 1, fun ts => readPart_opener hopener⟩
  | false =>
      cases hcloser : t.isPunct argumentList.closer with
      | false => exact Or.inr ⟨depth, fun ts => readPart_token hopener hcloser⟩
      | true =>
          cases depth with
          | zero => exact Or.inl fun ts => readPart_closer_zero hcloser
          | succ depth => exact Or.inr ⟨depth, fun ts => readPart_closer_succ hcloser⟩

/-- A group is read past what separates. -/
theorem exists_readPart_of_significant {depth : Nat} {ts : List Token} {g : Group}
    (h : readPart argumentList depth (Token.significant ts) = .ok g) :
    ∃ g', readPart argumentList depth ts = .ok g' ∧ Token.significant g'.inner = g.inner := by
  induction ts generalizing depth g with
  | nil => cases h
  | cons t ts ih =>
      rw [Token.significant_cons] at h
      split at h
      · next ht =>
        have hpunct := Token.isPunct_of_isTrivia ht
        obtain ⟨g', hg', hinner⟩ := ih h
        refine ⟨cons t g', ?_, ?_⟩
        · rw [readPart_token (hpunct _) (hpunct _), hg']
          rfl
        · rw [cons, Token.significant_cons, if_pos ht, hinner]
      · next ht =>
        rcases readPart_step depth t with hclose | ⟨d, hgo⟩
        · rw [hclose] at h
          cases h
          exact ⟨_, hclose ts, rfl⟩
        · rw [hgo] at h
          cases hinside : readPart argumentList d (Token.significant ts) with
          | error e =>
              rw [hinside] at h
              cases h
          | ok inside =>
              rw [hinside] at h
              cases h
              obtain ⟨g', hg', hinner⟩ := ih hinside
              refine ⟨cons t g', by rw [hgo, hg']; rfl, ?_⟩
              rw [cons, cons, Token.significant_cons, if_neg ht, hinner]

end Group

theorem Call.readPart_of_parens? {ts : List Token} {g : Group} (h : Group.parens? ts = some g) :
    Group.readPart argumentList 0 ts = .ok g := by
  rw [Call.parens?_eq] at h
  cases hread : Group.readPart argumentList 0 ts with
  | error e =>
      rw [hread] at h
      cases h
  | ok g' =>
      rw [hread] at h
      cases h
      rfl

/-- Parentheses around balanced tokens are read up to the one that closes them. -/
theorem Group.parens?_balanced {inner : List Token} {c : Token}
    (hinner : Balanced argumentList inner) (hc : c.isPunct ')' = true) (rest : List Token) :
    Group.parens? (inner ++ c :: rest) = some ⟨inner, c, rest⟩ := by
  have hread : Group.readPart argumentList 0 (inner ++ c :: rest) = .ok ⟨inner, c, rest⟩ :=
    Group.readPart_eq_ok_iff.2 ⟨hinner, hc, rfl⟩
  rw [Call.parens?_eq, hread]
  rfl

/-- A name is an operand by itself, or with the parentheses behind it. -/
theorem Operand.length?_word {t : Token} (h : t.kind = .word) (ts : List Token) :
    length? (t :: ts) =
      if ts.head?.any (Token.isPunct '(') then
        (Group.parens? ts.tail).map fun g => g.inner.length + 3
      else some 1 := by
  have hsign : t.isPunct '-' = false := by simp [Token.isPunct, h]
  rw [length?.eq_def]
  cases ts with
  | nil => simp [hsign, h]
  | cons u us => simp only [hsign, h, List.head?_cons, Option.any_some, List.tail_cons]; rfl

theorem Operand.length?_parens {o : Token} {ts : List Token} (h : o.isPunct '(' = true) :
    length? (o :: ts) = (Group.parens? ts).map fun g => g.inner.length + 2 := by
  have hkind := Token.kind_of_isPunct h
  have hsign : o.isPunct '-' = false := by
    simp only [Token.isPunct, Bool.and_eq_true, beq_iff_eq] at h
    simp [Token.isPunct, h.2]
  rw [length?.eq_def]
  simp [hkind, hsign, h]

namespace Resolve.Edit

/-- The edit puts a numeral in the place of a name or of parentheses in the row. -/
inductive Encloses (ts : List Token) : Edit → Prop
  | name {before after : List Token} {t replacement : Token} (whole : ts = before ++ t :: after)
      (kind : t.kind = .word) (numeral : replacement.kind = .number) :
      Encloses ts ⟨before.length, before.length, replacement⟩
  | parens {before inner after : List Token} {o c replacement : Token}
      (whole : ts = before ++ o :: (inner ++ c :: after)) (opener : o.isPunct '(' = true)
      (within : Balanced argumentList inner) (closer : c.isPunct ')' = true)
      (numeral : replacement.kind = .number) :
      Encloses ts ⟨before.length, before.length + inner.length + 1, replacement⟩

theorem Encloses.isNumber {ts : List Token} {e : Edit} (h : e.Encloses ts) :
    e.replacement.kind = .number := by
  cases h with
  | name _ _ hnumeral => exact hnumeral
  | parens _ _ _ _ hnumeral => exact hnumeral

/-- Of two places one that begins in the other ends in it. -/
theorem Encloses.nested {ts : List Token} {e e' : Edit} (h : e.Encloses ts) (h' : e'.Encloses ts)
    (hfirst : e.first ≤ e'.first) (hlast : e'.first ≤ e.last) : e'.last ≤ e.last := by
  cases h' with
  | name => exact hlast
  | @parens before' inner' after' o' c' _ hwhole' hopener' hwithin' hcloser' _ =>
      cases h with
      | @name before after t _ hwhole hkind _ =>
          -- a name is no parenthesis
          have hlength : before.length = before'.length := Nat.le_antisymm hfirst hlast
          obtain ⟨-, hrest⟩ := List.append_inj (hwhole.symm.trans hwhole') hlength
          obtain ⟨rfl, -⟩ := List.cons.inj hrest
          rw [Token.kind_of_isPunct hopener'] at hkind
          cases hkind
      | @parens before inner after o c _ hwhole hopener hwithin hcloser _ =>
          have hprefix : before <+: before' :=
            List.prefix_of_prefix_length_le ⟨_, hwhole.symm⟩ ⟨_, hwhole'.symm⟩ hfirst
          obtain ⟨mid, rfl⟩ := hprefix
          -- the second parenthesis opens within what the first one encloses
          have hblock : Balanced argumentList (o :: (inner ++ [c])) :=
            .pair hopener hcloser hwithin .nil
          have hsplit : (o :: (inner ++ [c])) ++ after =
              mid ++ o' :: (inner' ++ c' :: after') := by
            rw [hwhole, List.append_assoc] at hwhole'
            simpa using List.append_cancel_left hwhole'
          dsimp only at hlast ⊢
          have hlength := Group.length_le_of_opens hblock hsplit
          simp only [List.length_append, List.length_cons, List.length_nil] at hlength hlast ⊢
          have := hlength (by omega) hopener' hwithin' hcloser'
          omega

/-- A token that does not separate stands before what separates at the end. -/
theorem length_lt_of_significant {core tail before after : List Token} {t : Token}
    (h : core ++ tail = before ++ t :: after) (htail : ∀ u ∈ tail, u.isTrivia = true)
    (ht : t.isTrivia = false) : before.length < core.length := by
  by_contra hlength
  obtain ⟨between, rfl⟩ : core <+: before :=
    List.prefix_of_prefix_length_le ⟨_, rfl⟩ ⟨_, h.symm⟩ (Nat.le_of_not_lt hlength)
  rw [List.append_assoc, List.append_cancel_left_eq] at h
  have htrivia := htail t (by simp [h])
  rw [ht] at htrivia
  cases htrivia

/-- Edits leave what separates at the end of a row. -/
theorem Encloses.last_lt {core tail : List Token} {e : Edit} (h : e.Encloses (core ++ tail))
    (htail : ∀ t ∈ tail, t.isTrivia = true) : e.last < core.length := by
  cases h with
  | name hwhole hkind _ =>
      apply length_lt_of_significant hwhole htail
      rw [Token.isTrivia, hkind]
      rfl
  | @parens before inner after o c _ hwhole _ _ hcloser _ =>
      have hwhole' : core ++ tail = (before ++ o :: inner) ++ c :: after := by simp [hwhole]
      have hlength := length_lt_of_significant hwhole' htail (Token.isTrivia_of_isPunct hcloser)
      rw [List.length_append, List.length_cons] at hlength
      exact hlength

/-- The place of a name. -/
theorem name_encloses {ts : List Token} {name replacement : Token} {i : Nat} {more : List Indexed}
    (h : (name, i) :: more <:+ indexed ts) (hname : name.kind = .word)
    (hnumeral : replacement.kind = .number) : Encloses ts ⟨i, i, replacement⟩ := by
  obtain ⟨before, after, hwhole, hi, -⟩ := exists_of_suffix h
  rw [Nat.zero_add] at hi
  rw [hi]
  exact .name hwhole hname hnumeral

theorem replaceName_encloses {ts : List Token} (value : Number) {name : Token} {i : Nat}
    {more : List Indexed} (h : (name, i) :: more <:+ indexed ts) (hname : name.kind = .word)
    (table : SymbolTable) :
    Ends (some <$> replaceBy value i i name.span) table
      (fun edit _ => ∀ e ∈ edit, e.Encloses ts) (fun _ _ => True) := by
  rw [Ends.map_iff]
  apply (replaceBy_ends value i i name.span table).mono
  · rintro ⟨_, _, _⟩ table' ⟨-, rfl, hlast, raw, -, hnumeral⟩ e ⟨⟩
    dsimp only at h hlast hnumeral
    rw [hlast, hnumeral]
    exact name_encloses h hname rfl
  · exact fun _ _ _ => trivial

theorem exists_of_take {x : Indexed} {n : Nat} {row more : List Indexed}
    (h : row.take n = x :: more) : ∃ others m, row = x :: others ∧ n = m + 1 ∧
      others.take m = more := by
  cases row with
  | nil => simp at h
  | cons y others =>
      cases n with
      | zero => simp at h
      | succ m =>
          rw [List.take_succ_cons, List.cons.injEq] at h
          exact ⟨others, m, by rw [h.1], rfl, h.2⟩

theorem skipOperands_suffix {n : Nat} {row left : List Indexed}
    (h : skipOperands n row = some left) : left <:+ row := by
  induction n generalizing row with
  | zero =>
      cases h
      exact List.suffix_rfl
  | succ n ih =>
      rw [skipOperands] at h
      obtain ⟨length, -, hskip⟩ := Option.bind_eq_some_iff.1 h
      exact (ih hskip).trans (List.drop_suffix length row)

theorem declareArea_encloses {ts : List Token} (coordinates : Nat) {rest : List Indexed}
    (hrest : rest <:+ indexed ts) (table : SymbolTable) :
    Ends (declareArea coordinates rest) table (fun edit _ => ∀ e ∈ edit, e.Encloses ts)
      (fun _ _ => True) := by
  unfold declareArea
  split
  · next name i others hskip =>
    have hsuffix := (skipOperands_suffix hskip).trans hrest
    simp only [Ends.bind_iff, Ends.get_iff]
    split
    · simp
    next hname =>
      have hword : name.kind = .word := by
        simp only [Bool.or_eq_true, bne_iff_ne, ne_eq, not_or, not_not] at hname
        exact hname.1
      simp only [Ends.bind_iff, Ends.modify_iff, Ends.get_iff]
      split
      · exact replaceName_encloses _ hsuffix hword _
      · simp
  · simp

theorem referArea_encloses {ts : List Token} {rest : List Indexed} (hrest : rest <:+ indexed ts)
    (table : SymbolTable) :
    Ends (referArea rest) table (fun edit _ => ∀ e ∈ edit, e.Encloses ts) (fun _ _ => True) := by
  unfold referArea
  split
  · next name i others =>
    split
    · simp
    next hname =>
      have hword : name.kind = .word := by simpa using hname
      simp only [Ends.bind_iff, Ends.get_iff]
      split
      · exact replaceName_encloses _ hrest hword _
      · split <;> simp
  · simp

/-- The place of an operand in parentheses: the last token of the operand closes it. -/
theorem operand_encloses {ts : List Token} {o replacement : Token} {i n : Nat}
    {others : List Indexed} (h : (o, i) :: others <:+ indexed ts) (ho : o.isPunct '(' = true)
    (hn : Operand.length? (o :: others.map Prod.fst) = some (n + 1))
    (hnumeral : replacement.kind = .number) :
    Encloses ts ⟨i, (((o, i) :: others.take n).getLast (List.cons_ne_nil _ _)).2,
      replacement⟩ := by
  obtain ⟨before, after, hwhole, hi, rfl⟩ := exists_of_suffix h
  rw [map_indexedFrom, Operand.length?_parens ho] at hn
  obtain ⟨g, hg, hlength⟩ := Option.map_eq_some_iff.1 hn
  obtain ⟨g', hg', hinner⟩ := Group.exists_readPart_of_significant (Call.readPart_of_parens? hg)
  obtain ⟨hwithin, hcloser, rfl⟩ := Group.readPart_eq_ok_iff.1 hg'
  have htrivia := Token.isTrivia_of_isPunct hcloser
  have hcount : n = (indexedFrom (i + 1) g'.inner).length + 1 := by
    have hmap := congrArg List.length (map_indexedFrom (i + 1) g'.inner)
    rw [List.length_map, hinner] at hmap
    omega
  have htake : (indexedFrom (i + 1) (g'.inner ++ g'.closer :: g'.rest)).take n =
      indexedFrom (i + 1) g'.inner ++ [(g'.closer, i + 1 + g'.inner.length)] := by
    rw [indexedFrom_append, indexedFrom_cons, htrivia, hcount, List.take_length_add_append]
    rfl
  have hlast : (((o, i) :: (indexedFrom (i + 1) (g'.inner ++ g'.closer :: g'.rest)).take n).getLast
      (List.cons_ne_nil _ _)).2 = before.length + g'.inner.length + 1 := by
    simp only [htake, ← List.cons_append, List.getLast_append_singleton]
    omega
  rw [hlast, hi, Nat.zero_add]
  exact .parens hwhole ho hwithin hcloser hnumeral

theorem foldDeclaration_encloses {ts : List Token} (name : Token) {rest : List Indexed}
    (hrest : rest <:+ indexed ts) (table : SymbolTable) :
    Ends (foldDeclaration name rest) table (fun edit _ => ∀ e ∈ edit, e.Encloses ts)
      (fun _ _ => True) := by
  unfold foldDeclaration
  split
  · simp
  next n hn =>
    simp only [Ends.bind_iff, Ends.get_iff, Ends.lift_iff, Resolving.evaluate_ends_iff]
    refine ⟨?_, fun _ _ => trivial⟩
    rintro ⟨⟩ -
    unfold Evaluation.foldDeclaration
    apply (Evaluation.fold_ends table _ _ table.values).mono
    · rintro value memo ⟨-, -, lookup, hvalue⟩
      split
      · next value first i more hpart =>
        split
        · simp
        next hliteral =>
          have hform := operand_form_of_take hn hpart hvalue (by simpa using hliteral)
          rw [Ends.map_iff]
          apply (replaceBy_ends value i _ _ _).mono
          · rintro ⟨_, _, _⟩ table' ⟨-, hfirst, hlast, raw, -, hnumeral⟩ e ⟨⟩
            dsimp only at hfirst hlast hnumeral
            rw [hlast, hfirst, hnumeral]
            obtain ⟨others, m, rfl, rfl, rfl⟩ := exists_of_take hpart
            rcases hform with ⟨hword, hmore⟩ | hparen
            · rw [hmore]
              exact name_encloses hrest hword rfl
            · exact operand_encloses hrest hparen hn rfl
          · exact fun _ _ _ => trivial
      · simp
    · exact fun _ _ _ => trivial

theorem editAt_encloses {ts : List Token} (t : Token) {rest : List Indexed}
    (hrest : rest <:+ indexed ts) (table : SymbolTable) :
    Ends (editAt t rest) table (fun edit _ => ∀ e ∈ edit, e.Encloses ts) (fun _ _ => True) := by
  unfold editAt
  split
  · split
    · next name i rest =>
      split
      · exact foldDeclaration_encloses name ((List.suffix_cons _ _).trans hrest) table
      · simp
    · simp
  split
  · simp
  split
  · exact declareArea_encloses _ hrest table
  split
  · exact referArea_encloses hrest table
  · simp

/-- What holds of the edits at the tokens of a row holds of all its edits. -/
theorem edits_forall {row : List Indexed} {P : Edit → Prop}
    (hat : ∀ x rest, x :: rest <:+ row → ∀ table,
      Ends (editAt x.1 rest) table (fun edit _ => ∀ e ∈ edit, P e) (fun _ _ => True))
    (table : SymbolTable) :
    Ends (edits row) table (fun es _ => ∀ e ∈ es, P e) (fun _ _ => True) := by
  induction row generalizing table with
  | nil => simp [edits]
  | cons x rest ih =>
      have hrest : ∀ y more, y :: more <:+ rest → y :: more <:+ x :: rest :=
        fun _ _ hmore => hmore.trans (List.suffix_cons x rest)
      rw [edits]
      simp only [Ends.bind_iff, Ends.pure_iff]
      apply (hat x rest List.suffix_rfl table).weaken
      intro here table₁ hhere
      apply (ih (fun y more hmore => hat y more (hrest y more hmore)) table₁).weaken
      intro later table₂ hlater
      exact List.forall_mem_append.2 ⟨by simpa using hhere, hlater⟩

/-- The edits of a row enclose what they replace. -/
theorem edits_encloses {ts : List Token} {row : List Indexed} (hrow : row <:+ indexed ts)
    (table : SymbolTable) :
    Ends (edits row) table (fun es _ => ∀ e ∈ es, e.Encloses ts) (fun _ _ => True) := by
  refine edits_forall (fun x rest hrest => ?_) table
  exact editAt_encloses x.1 (((List.suffix_cons x rest).trans hrest).trans hrow)

end Resolve.Edit

/-! ### Contracted rows -/

/-- The second row is the first with some balanced parts contracted to numerals. -/
inductive Contracts : List Token → List Token → Prop
  | nil : Contracts [] []
  | keep (t : Token) {ts us : List Token} (rest : Contracts ts us) : Contracts (t :: ts) (t :: us)
  | contract {part numerals ts us : List Token} (within : Balanced argumentList part)
      (some : numerals ≠ []) (numbers : ∀ t ∈ numerals, t.kind = .number)
      (rest : Contracts ts us) : Contracts (part ++ ts) (numerals ++ us)

theorem balanced_of_numbers {ts : List Token} (h : ∀ t ∈ ts, t.kind = .number) :
    Balanced argumentList ts := by
  induction ts with
  | nil => exact .nil
  | cons t ts ih =>
      obtain ⟨ht, hts⟩ := List.forall_mem_cons.1 h
      exact .token (by simp [Token.isPunct, ht]) (by simp [Token.isPunct, ht]) rfl (ih hts)

namespace Contracts

/-- A group that closes in the contracted row closes in the row. -/
theorem readPart {ts us : List Token} (h : Contracts ts us) {depth : Nat}
    (hread : (Group.readPart argumentList depth us).isOk = true) :
    (Group.readPart argumentList depth ts).isOk = true := by
  have isOk_map {f : Group → Group} {x : Except GroupFault Group} :
      (x.map f).isOk = x.isOk := by cases x <;> rfl
  induction h generalizing depth with
  | nil => exact hread
  | keep t _ ih =>
      rcases Group.readPart_step depth t with hclose | ⟨d, hgo⟩
      · rw [hclose]
        rfl
      · rw [hgo, isOk_map] at hread ⊢
        exact ih hread
  | contract hwithin _ hnumbers _ ih =>
      rw [Group.readPart_balanced (balanced_of_numbers hnumbers), isOk_map] at hread
      rw [Group.readPart_balanced hwithin, isOk_map]
      exact ih hread

/-- A token that is no numeral and stands first was first before. -/
theorem of_cons {ts us : List Token} {u : Token} (h : Contracts ts (u :: us))
    (hu : u.kind ≠ .number) : ∃ ts', ts = u :: ts' ∧ Contracts ts' us := by
  generalize hrow : u :: us = row at h
  cases h with
  | nil => cases hrow
  | keep t hrest =>
      obtain ⟨rfl, rfl⟩ := List.cons.inj hrow
      exact ⟨_, rfl, hrest⟩
  | @contract part numerals _ _ _ hsome hnumbers _ =>
      cases numerals with
      | nil => exact absurd rfl hsome
      | cons v numerals =>
          obtain ⟨rfl, -⟩ := List.cons.inj hrow
          exact absurd (hnumbers u (by simp)) hu

end Contracts

namespace Resolve.Edit

theorem resultAt_ne_nil {edits : List Edit} {i : Nat} (u : Token) (hclosed : Closed edits i) :
    resultAt edits u i ≠ [] := by
  rcases resultAt_cases (u := u) hclosed with ⟨h, -⟩ | ⟨e, -, -, h⟩ <;> simp [h]

/-- What an edit encloses is balanced and begins the row from there on. -/
theorem Encloses.exists_part {whole : List Token} {e : Edit} (h : e.Encloses whole) :
    ∃ part rest, whole.drop e.first = part ++ rest ∧ Balanced argumentList part ∧ part ≠ [] ∧
      e.last + 1 = e.first + part.length := by
  cases h with
  | @name before after t _ hwhole hkind _ =>
      refine ⟨[t], after, ?_, ?_, List.cons_ne_nil _ _, rfl⟩
      · rw [hwhole, List.drop_left]
        rfl
      · exact .token (by simp [Token.isPunct, hkind]) (by simp [Token.isPunct, hkind]) rfl .nil
  | @parens before inner after o c _ hwhole hopener hwithin hcloser _ =>
      refine ⟨o :: (inner ++ [c]), after, ?_, .pair hopener hcloser hwithin .nil,
        List.cons_ne_nil _ _, ?_⟩
      · rw [hwhole, List.drop_left]
        simp
      · simp only [List.length_cons, List.length_append, List.length_nil]
        omega

/-- Where an edit covers a part, replacements are left of it. -/
theorem mem_applyFrom_of_covered {edits : List Edit} {e : Edit} (he : e ∈ edits) {i : Nat}
    {part : List Token} (hfirst : e.first = i) (hlast : e.last + 1 = i + part.length) {t : Token}
    (ht : t ∈ applyFrom edits i part) : ∃ e' ∈ edits, t = e'.replacement := by
  obtain ⟨⟨v, j⟩, hmem, ht⟩ := List.mem_flatMap.1 ht
  obtain ⟨hle, hlt, -⟩ := List.mem_zipIdx hmem
  apply mem_resultAt_of_covered he _ ht
  simp only [covers, Bool.and_eq_true, decide_eq_true_eq]
  omega

/-- Where an edit begins that none before reaches, numerals stand for what it encloses, and
no edit reaches across the end of that. -/
theorem exists_contraction {edits : List Edit} {whole : List Token}
    (hedits : ∀ e ∈ edits, e.Encloses whole) {ts : List Token} {i : Nat}
    (hwhole : whole.drop i = ts) (hclosed : Closed edits i) (hstart : ∃ e ∈ edits, e.first = i) :
    ∃ part rest, ts = part ++ rest ∧ whole.drop (i + part.length) = rest ∧
      rest.length < ts.length ∧ Closed edits (i + part.length) ∧ Balanced argumentList part ∧
      applyFrom edits i part ≠ [] ∧ ∀ t ∈ applyFrom edits i part, t.kind = .number := by
  obtain ⟨e, he, hfirst⟩ := hstart
  obtain ⟨part, rest, hdrop, hbalanced, hpart, hlast⟩ := (hedits e he).exists_part
  rw [hfirst] at hdrop hlast
  obtain rfl : ts = part ++ rest := hwhole.symm.trans hdrop
  refine ⟨part, rest, rfl, ?_, ?_, ?_, hbalanced, ?_, ?_⟩
  · rw [← List.drop_drop, hwhole, List.drop_left]
  · have := List.length_pos_of_ne_nil hpart
    rw [List.length_append]
    omega
  · intro e' he' hfirst'
    rcases Nat.lt_or_ge e'.first i with hbefore | hafter
    · have := hclosed e' he' hbefore
      omega
    · have := (hedits e he).nested (hedits e' he') (by omega) (by omega)
      omega
  · obtain ⟨v, part, rfl⟩ := List.exists_cons_of_ne_nil hpart
    rw [applyFrom_cons]
    exact List.append_ne_nil_of_left_ne_nil (resultAt_ne_nil v hclosed) _
  · intro t ht
    obtain ⟨e', he', rfl⟩ := mem_applyFrom_of_covered he hfirst hlast ht
    exact (hedits e' he').isNumber

/-- Where no edit begins and none before reaches, a token stays. -/
theorem resultAt_of_no_start {edits : List Edit} {i : Nat} (hclosed : Closed edits i)
    (hhere : ∀ e ∈ edits, e.first ≠ i) (u : Token) :
    resultAt edits u i = [u] ∧ Closed edits (i + 1) := by
  refine ⟨?_, hclosed.succ fun e he hfirst => absurd hfirst (hhere e he)⟩
  rcases resultAt_cases (u := u) hclosed with ⟨h, -⟩ | ⟨e, he, hfirst, -⟩
  · exact h
  · exact absurd hfirst (hhere e he)

theorem drop_succ_of_drop {α : Type} {whole ts : List α} {u : α} {i : Nat}
    (h : whole.drop i = u :: ts) : whole.drop (i + 1) = ts := by
  rw [← List.tail_drop, h]
  rfl

/-- Edits contract a row from any index on that none of them reaches across. -/
theorem contracts_applyFrom {edits : List Edit} {whole : List Token}
    (hedits : ∀ e ∈ edits, e.Encloses whole) {ts : List Token} {i : Nat}
    (hwhole : whole.drop i = ts) (hclosed : Closed edits i) :
    Contracts ts (applyFrom edits i ts) := by
  induction hn : ts.length using Nat.strongRecOn generalizing ts i with
  | _ n ih =>
      by_cases hstart : ∃ e ∈ edits, e.first = i
      · obtain ⟨part, rest, rfl, hnext, hshorter, hclosed', hbalanced, hsome, hnumbers⟩ :=
          exists_contraction hedits hwhole hclosed hstart
        rw [applyFrom_append]
        exact .contract hbalanced hsome hnumbers (ih rest.length (hn ▸ hshorter) hnext hclosed' rfl)
      · cases ts with
        | nil => exact .nil
        | cons u ts =>
            obtain ⟨hresult, hclosed'⟩ := resultAt_of_no_start hclosed
              (fun e he hfirst => hstart ⟨e, he, hfirst⟩) u
            rw [applyFrom_cons, hresult]
            exact .keep u (ih ts.length (by rw [← hn, List.length_cons]; omega)
              (drop_succ_of_drop hwhole) hclosed' rfl)

end Resolve.Edit

end MapScript
