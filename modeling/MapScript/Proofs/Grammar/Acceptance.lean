import MapScript.Proofs.Grammar.Items

/-!
# The builder accepts the grammar

The builder reads a row of tokens to its end with no block left open exactly if
the row is a sequence of items.  Of the builder only the kinds of the open blocks
matter: `Moves` says what one step can do to them and to the tokens, and a run is
a sequence of moves.  `Completes` says in words of the grammar what must follow
when blocks are open; a move backwards keeps it, and items are read by moves.
-/

namespace MapScript

open Lexer (headerStart headerEnd)

/-! ### Steps -/

namespace Grammar

theorem isDirective_eq_false {t : Token} {name other : Text} (h : t.isDirective name = true)
    (hne : name ≠ other) : t.isDirective other = false := by
  simp only [Token.isDirective, Bool.and_eq_true, beq_iff_eq] at h
  simp [Token.isDirective, h.2, hne]

/-- No directive of the engine is reserved, in any case. -/
theorem isOwnDirective_of_mem_reserved {t : Token} {name : Text} (hname : name ∈ reserved)
    (h : t.isDirective name = true) : t.isOwnDirective = true := by
  simp only [Token.isDirective, Bool.and_eq_true, beq_iff_eq] at h
  obtain ⟨hkind, hupper⟩ := h
  have hdisjoint : ∀ name ∈ reserved, name ∉ nativeDirectives.map Text.upper := by decide
  have hnative : t.isNative = false := by
    by_contra hnative
    simp only [Token.isNative, Bool.not_eq_false, Bool.and_eq_true, List.contains_iff_mem]
      at hnative
    have hmem := List.mem_map_of_mem (f := Text.upper) hnative.2
    have hcase : Text.upper (Text.lower t.value) = name := by
      rw [← hupper]
      simp [Text.upper, Text.lower]
    rw [hcase] at hmem
    exact hdisjoint name hname hmem
  simp [Token.isOwnDirective, hkind, hnative]

/-- The kind of an open block. -/
inductive Nest where
  | repetition
  | header
deriving DecidableEq, Repr

/-- The directive that closes a block of a kind. -/
def Nest.closer : Nest → Text
  | repetition => "END_REPEAT".toList
  | header => headerEnd

/-- What one step does to the open blocks, the innermost first, and to the tokens. -/
inductive Moves : List Nest → Token → List Token → List Nest → List Token → Prop
  | token {nests : List Nest} {t : Token} {ts : List Token} (script : nests.head? ≠ some .header)
      (plain : t.isOwnDirective = false) : Moves nests t ts nests ts
  | marker {nests : List Nest} {t : Token} {ts : List Token} (script : nests.head? ≠ some .header)
      (m : Marker) (name : t.isDirective m.name = true) : Moves nests t ts nests ts
  | call {nests : List Nest} {t : Token} {ts mid rest : List Token}
      (script : nests.head? ≠ some .header) (name : IsCall t)
      (arguments : argumentList.Optional ts mid) (content : callBody.Optional mid rest) :
      Moves nests t ts nests rest
  | openRepeat {nests : List Nest} {t : Token} {ts rest : List Token}
      (script : nests.head? ≠ some .header) (start : t.isDirective "REPEAT".toList = true)
      (count : argumentList.Reads ts rest) : Moves nests t ts (.repetition :: nests) rest
  | openHeader {t : Token} {ts : List Token} (start : t.isDirective headerStart = true) :
      Moves [] t ts [.header] ts
  | prose {outer : List Nest} {t : Token} {ts : List Token}
      (within : t.isDirective headerEnd = false) :
      Moves (.header :: outer) t ts (.header :: outer) ts
  | close {nest : Nest} {outer : List Nest} {t : Token} {ts : List Token}
      (finish : t.isDirective nest.closer = true) : Moves (nest :: outer) t ts outer ts

end Grammar

/-- The kind of a block, without its arguments. -/
def BlockKind.nest : BlockKind → Grammar.Nest
  | repeated _ => .repetition
  | header => .header

theorem BlockKind.closer_nest (kind : BlockKind) : kind.nest.closer = kind.closer := by
  cases kind <;> rfl

theorem Marker.mem_all (m : Marker) : m ∈ all := by
  match m with
  | .cut => decide
  | .players .everyPlayer => decide
  | .players .eight => decide

theorem Marker.name_mem_reserved (m : Marker) : m.name ∈ Grammar.reserved :=
  List.mem_append_right _ (List.mem_map_of_mem m.mem_all)

theorem Marker.ofName?_eq_some_iff {name : Text} {m : Marker} :
    ofName? name = some m ↔ name = m.name := by
  constructor
  · intro h
    have hname := List.find?_some h
    exact (beq_iff_eq.1 hname).symm
  · rintro rfl
    have hall : ∀ m ∈ all, ofName? m.name = some m := by decide
    exact hall m m.mem_all

namespace Builder

open Grammar

/-- The kinds of the open blocks, the innermost first. -/
def nests (b : Builder) : List Nest := b.blocks.map fun block => block.kind.nest

@[simp] theorem nests_update (b : Builder) (f : Content → Content) :
    (b.update f).nests = b.nests := by
  unfold update nests
  cases b.blocks <;> rfl

@[simp] theorem nests_enter (b : Builder) (kind : BlockKind) (span : Span) :
    (b.enter kind span).nests = kind.nest :: b.nests := by
  show _ :: (b.update Content.flush).nests = _
  rw [nests_update]

theorem inHeader_eq_true_iff {b : Builder} : b.inHeader = true ↔ b.nests.head? = some .header := by
  unfold inHeader nests
  cases b.blocks with
  | nil => simp
  | cons block outer =>
      obtain ⟨kind, span, content⟩ := block
      cases kind <;> simp [BlockKind.nest]

/-- Closing takes the innermost block off if the directive is the one that closes it. -/
theorem close_iff {b : Builder} {t : Token} {outer : List Nest} :
    (∃ b', b.close t = .ok b' ∧ b'.nests = outer) ↔
      ∃ nest : Nest, b.nests = nest :: outer ∧ t.isDirective nest.closer = true := by
  unfold close nests
  cases b.blocks with
  | nil => simp
  | cons block blocks =>
      dsimp only
      split
      · next h =>
        have hnests (f : Content → Content) :
            (update { b with blocks := blocks } f).blocks.map (fun block => block.kind.nest) =
              blocks.map fun block => block.kind.nest := nests_update { b with blocks := blocks } f
        rw [← BlockKind.closer_nest] at h
        simp only [Except.ok.injEq, exists_eq_left', hnests, List.map_cons, List.cons.injEq]
        exact ⟨fun houter => ⟨_, ⟨rfl, houter⟩, h⟩, fun ⟨_, ⟨_, houter⟩, _⟩ => houter⟩
      · next h =>
        rw [← BlockKind.closer_nest] at h
        simp only [reduceCtorEq, false_and, exists_false, List.map_cons, List.cons.injEq, false_iff]
        rintro ⟨nest, ⟨rfl, -⟩, hcloser⟩
        exact h hcloser

theorem enterRepeat_iff {b : Builder} {t : Token} {ts rest : List Token} {nests' : List Nest} :
    (∃ b', b.enterRepeat t ts = .ok (b', rest) ∧ b'.nests = nests') ↔
      .repetition :: b.nests = nests' ∧ argumentList.Reads ts rest := by
  rw [Part.reads_iff]
  constructor
  · rintro ⟨b', h, rfl⟩
    unfold enterRepeat at h
    split at h
    · cases h
    · cases h
    · next g hg =>
      simp only [Except.ok.injEq, Prod.mk.injEq] at h
      obtain ⟨rfl, rfl⟩ := h
      exact ⟨by rw [nests_enter]; rfl, g, Call.readArguments_eq_ok_iff.1 hg, rfl⟩
  · rintro ⟨rfl, g, hg, rfl⟩
    have hargs : Call.readArguments t ts = .ok (some g) := Call.readArguments_eq_ok_iff.2 hg
    unfold enterRepeat
    rw [hargs]
    exact ⟨_, rfl, nests_enter b _ _⟩

theorem enterHeader_iff {b : Builder} {t : Token} {nests' : List Nest} :
    (∃ b', b.enterHeader t = .ok b' ∧ b'.nests = nests') ↔ b.nests = [] ∧ [.header] = nests' := by
  unfold enterHeader
  cases hblocks : b.blocks with
  | nil =>
      have hnests : b.nests = [] := by rw [nests, hblocks]; rfl
      simp [hnests, BlockKind.nest]
  | cons block outer => simp [nests, hblocks]

theorem map_mk_iff {x : Except Report Builder} {ts rest : List Token} {nests' : List Nest} :
    (∃ b', x.map (fun b => (b, ts)) = .ok (b', rest) ∧ b'.nests = nests') ↔
      ts = rest ∧ ∃ b', x = .ok b' ∧ b'.nests = nests' := by
  cases x <;> simp [Except.map]

/-- A directive to be interpreted that is none of the reserved ones calls a pattern. -/
theorem isCall_of_directive {t : Token} (hown : t.isOwnDirective = true)
    (hcloser : ¬ isCloser t = true)
    (hrepeat : ¬ t.isDirective (BlockKind.repeated []).opener = true)
    (hheader : ¬ t.isDirective BlockKind.header.opener = true)
    (hmarker : Marker.ofName? (Text.upper t.value) = none) : IsCall t := by
  refine ⟨hown, ?_⟩
  intro name hname
  simp only [isCloser, Bool.or_eq_true, not_or, Bool.not_eq_true] at hcloser
  simp only [Bool.not_eq_true] at hrepeat hheader
  simp only [reserved, List.cons_append, List.nil_append, List.mem_cons] at hname
  rcases hname with rfl | rfl | rfl | rfl | hname
  · exact hrepeat
  · exact hcloser.1
  · exact hheader
  · exact hcloser.2
  · obtain ⟨m, -, rfl⟩ := List.mem_map.1 hname
    have hne : Text.upper t.value ≠ m.name := by
      intro heq
      rw [Marker.ofName?_eq_some_iff.2 heq] at hmarker
      cases hmarker
    simp [Token.isDirective, hne]

/-- A directive to be interpreted does one of the moves. -/
theorem moves_of_directive {b : Builder} {t : Token} {ts rest : List Token} {nests' : List Nest}
    (hout : b.nests.head? ≠ some .header) (hown : t.isOwnDirective = true)
    (h : ∃ b', b.directive t ts = .ok (b', rest) ∧ b'.nests = nests') :
    Moves b.nests t ts nests' rest := by
  unfold directive at h
  split at h
  · obtain ⟨rfl, hclose⟩ := map_mk_iff.1 h
    obtain ⟨nest, hnests, hcloser⟩ := close_iff.1 hclose
    rw [hnests]
    exact .close hcloser
  next hcloser =>
  split at h
  · next hrepeat =>
    obtain ⟨rfl, hcount⟩ := enterRepeat_iff.1 h
    exact .openRepeat hout hrepeat hcount
  next hrepeat =>
  split at h
  · next hheader =>
    obtain ⟨rfl, henter⟩ := map_mk_iff.1 h
    obtain ⟨hnests, rfl⟩ := enterHeader_iff.1 henter
    rw [hnests]
    exact .openHeader hheader
  next hheader =>
  have hkind : t.kind = .directive := by
    simp only [Token.isOwnDirective, Bool.and_eq_true, beq_iff_eq] at hown
    exact hown.1
  split at h
  · next m hm =>
    simp only [Except.ok.injEq, Prod.mk.injEq] at h
    obtain ⟨b', ⟨rfl, rfl⟩, rfl⟩ := h
    rw [nests_update]
    refine .marker hout m ?_
    simp [Token.isDirective, hkind, Marker.ofName?_eq_some_iff.1 hm]
  next hmarker =>
  split at h
  · simp at h
  · next call rest' hcall =>
    simp only [Except.ok.injEq, Prod.mk.injEq] at h
    obtain ⟨b', ⟨rfl, rfl⟩, rfl⟩ := h
    rw [nests_update]
    obtain ⟨mid, hargs, hcontent⟩ := Call.read_iff.1 ⟨call, hcall⟩
    exact .call hout (isCall_of_directive hown hcloser hrepeat hheader hmarker) hargs hcontent

theorem moves_of_step {b : Builder} {t : Token} {ts rest : List Token} {nests' : List Nest}
    (h : ∃ b', b.step t ts = .ok (b', rest) ∧ b'.nests = nests') :
    Moves b.nests t ts nests' rest := by
  unfold step at h
  split at h
  · next hin =>
    split at h
    · obtain ⟨rfl, hclose⟩ := map_mk_iff.1 h
      obtain ⟨nest, hnests, hcloser⟩ := close_iff.1 hclose
      rw [hnests]
      exact .close hcloser
    · next hend =>
      simp only [Except.ok.injEq, Prod.mk.injEq] at h
      obtain ⟨b', ⟨rfl, rfl⟩, rfl⟩ := h
      rw [nests_update]
      obtain ⟨outer, hnests⟩ := List.head?_eq_some_iff.1 (inHeader_eq_true_iff.1 hin)
      rw [hnests]
      exact .prose (Bool.eq_false_iff.2 hend)
  next hin =>
  have hout : b.nests.head? ≠ some .header := fun hhead => hin (inHeader_eq_true_iff.2 hhead)
  split at h
  · next hown => exact moves_of_directive hout hown h
  · next hown =>
    simp only [Except.ok.injEq, Prod.mk.injEq] at h
    obtain ⟨b', ⟨rfl, rfl⟩, rfl⟩ := h
    rw [nests_update]
    exact .token hout (by simpa using hown)

theorem inHeader_eq_false {b : Builder} (hout : b.nests.head? ≠ some .header) :
    b.inHeader = false :=
  Bool.eq_false_iff.2 fun hin => hout (inHeader_eq_true_iff.1 hin)

/-- Outside headers a reserved directive is interpreted. -/
theorem step_reserved {b : Builder} {t : Token} {ts : List Token} {name : Text}
    (hout : b.nests.head? ≠ some .header) (hname : name ∈ reserved)
    (h : t.isDirective name = true) : b.step t ts = b.directive t ts := by
  rw [step, inHeader_eq_false hout, isOwnDirective_of_mem_reserved hname h]
  rfl

theorem isCloser_eq_false {t : Token} {name : Text} (h : t.isDirective name = true)
    (hrepeat : name ≠ "END_REPEAT".toList) (hheader : name ≠ headerEnd) : isCloser t = false := by
  have hrepeat := isDirective_eq_false h hrepeat
  have hheader := isDirective_eq_false h hheader
  exact Bool.or_eq_false_iff.2 ⟨hrepeat, hheader⟩

/-- Every move is a step. -/
theorem step_of_moves {b : Builder} {t : Token} {ts rest : List Token} {nests' : List Nest}
    (h : Moves b.nests t ts nests' rest) :
    ∃ b', b.step t ts = .ok (b', rest) ∧ b'.nests = nests' := by
  generalize hnests : b.nests = nests at h
  cases h with
  | token hout hplain =>
      rw [step, inHeader_eq_false (hnests ▸ hout), hplain]
      exact ⟨_, rfl, by rw [nests_update, hnests]⟩
  | marker hout m hname =>
      have hne : ∀ m ∈ Marker.all, ∀ name ∈ reserved.take 4, m.name ≠ name := by decide
      replace hne := hne m m.mem_all
      have hupper : Text.upper t.value = m.name := by
        simp only [Token.isDirective, Bool.and_eq_true, beq_iff_eq] at hname
        exact hname.2
      have hcloser := isCloser_eq_false hname (hne _ (by decide)) (hne _ (by decide))
      have hrepeat := isDirective_eq_false hname (hne (BlockKind.repeated []).opener (by decide))
      have hheader := isDirective_eq_false hname (hne BlockKind.header.opener (by decide))
      rw [step_reserved (hnests ▸ hout) m.name_mem_reserved hname, directive, hcloser, hrepeat,
        hheader, Marker.ofName?_eq_some_iff.2 hupper]
      exact ⟨_, rfl, by rw [nests_update, hnests]⟩
  | call hout hname hargs hcontent =>
      obtain ⟨hown, hother⟩ := hname
      have hcloser : isCloser t = false :=
        Bool.or_eq_false_iff.2 ⟨hother _ (by decide), hother _ (by decide)⟩
      have hrepeat := hother (BlockKind.repeated []).opener (by decide)
      have hheader := hother BlockKind.header.opener (by decide)
      have hmarker : Marker.ofName? (Text.upper t.value) = none := by
        by_contra hsome
        obtain ⟨m, hm⟩ := Option.ne_none_iff_exists'.1 hsome
        have hfalse := hother m.name m.name_mem_reserved
        rw [Token.isDirective, ← Marker.ofName?_eq_some_iff.1 hm] at hfalse
        simp [Token.isOwnDirective] at hown
        simp [hown.1] at hfalse
      obtain ⟨call, hcall⟩ := Call.read_iff.2 ⟨_, hargs, hcontent⟩
      rw [step, inHeader_eq_false (hnests ▸ hout), hown, directive, hcloser, hrepeat, hheader,
        hmarker, hcall]
      exact ⟨_, rfl, by rw [nests_update, hnests]⟩
  | openRepeat hout hstart hcount =>
      have hcloser := isCloser_eq_false hstart (by decide) (by decide)
      rw [step_reserved (hnests ▸ hout) (by decide) hstart, directive, hcloser,
        show t.isDirective (BlockKind.repeated []).opener = true from hstart]
      exact enterRepeat_iff.2 ⟨by rw [hnests], hcount⟩
  | openHeader hstart =>
      have hcloser := isCloser_eq_false hstart (by decide) (by decide)
      have hrepeat : t.isDirective (BlockKind.repeated []).opener = false :=
        isDirective_eq_false hstart (by decide)
      rw [step_reserved (by simp [hnests]) (by decide) hstart, directive, hcloser, hrepeat,
        show t.isDirective BlockKind.header.opener = true from hstart]
      exact map_mk_iff.2 ⟨rfl, enterHeader_iff.2 ⟨hnests, rfl⟩⟩
  | prose hwithin =>
      have hin : b.inHeader = true := inHeader_eq_true_iff.2 (by rw [hnests]; rfl)
      rw [step, hin, show t.isDirective BlockKind.header.closer = false from hwithin]
      exact ⟨_, rfl, by rw [nests_update, hnests]⟩
  | @close nest _ _ _ hfinish =>
      have hclose : ∃ b', (b.close t).map (fun b => (b, ts)) = .ok (b', ts) ∧ b'.nests = nests' :=
        map_mk_iff.2 ⟨rfl, close_iff.2 ⟨nest, hnests, hfinish⟩⟩
      cases nest with
      | header =>
          have hin : b.inHeader = true := inHeader_eq_true_iff.2 (by rw [hnests]; rfl)
          rw [step, hin, show t.isDirective BlockKind.header.closer = true from hfinish]
          exact hclose
      | repetition =>
          have hcloser : isCloser t = true := Bool.or_eq_true_iff.2 (Or.inl hfinish)
          rw [step_reserved (by simp [hnests]) (by decide) hfinish, directive, hcloser]
          exact hclose

end Builder

/-! ### Runs -/

namespace Grammar

/-- The tokens are read to their end, and all open blocks are closed. -/
inductive Accepts : List Nest → List Token → Prop
  | done : Accepts [] []
  | step {nests nests' : List Nest} {t : Token} {ts rest : List Token}
      (move : Moves nests t ts nests' rest) (next : Accepts nests' rest) : Accepts nests (t :: ts)

end Grammar

theorem Builder.run_iff {b : Builder} {ts : List Token} :
    (∃ b', b.run ts = .ok b' ∧ b'.nests = []) ↔ Grammar.Accepts b.nests ts := by
  constructor
  · rintro ⟨b', h, hnests⟩
    induction b, ts using Builder.run.induct with
    | case1 b =>
        rw [run] at h
        cases h
        rw [hnests]
        exact .done
    | case2 b t rest r hr =>
        rw [run] at h
        split at h
        · cases h
        · next he => rw [hr] at he; cases he
    | case3 b t rest b₁ rest₁ hr ih =>
        rw [run] at h
        split at h
        · cases h
        · next he =>
          rw [hr] at he
          cases he
          exact .step (moves_of_step ⟨b₁, hr, rfl⟩) (ih h)
  · intro h
    generalize hn : b.nests = nests at h
    induction h generalizing b with
    | done => exact ⟨b, by rw [run], hn⟩
    | step hmove _ ih =>
        obtain ⟨b₁, hr, hn₁⟩ := step_of_moves (hn ▸ hmove)
        obtain ⟨b', hrun, hdone⟩ := ih hn₁
        refine ⟨b', ?_, hdone⟩
        rw [run]
        split
        · next he => rw [hr] at he; cases he
        · next he =>
          rw [hr] at he
          cases he
          exact hrun

namespace Grammar

/-- Nothing follows, or a directive: no part of a call goes on there. -/
def Parted (tail : List Token) : Prop := ∀ t ∈ tail.head?, t.kind = .directive

theorem Parted.nil : Parted [] := by simp [Parted]

theorem Parted.cons {t : Token} {ts : List Token} {name : Text} (h : t.isDirective name = true) :
    Parted (t :: ts) := by
  simp only [Token.isDirective, Bool.and_eq_true, beq_iff_eq] at h
  simp [Parted, h.1]

namespace Part

variable {p : Part} {ts mid tail : List Token}

theorem ahead_append (htail : Parted tail) : p.ahead (ts ++ tail) = p.ahead ts := by
  unfold ahead
  rw [List.dropWhile_append]
  cases hdrop : ts.dropWhile p.gap with
  | cons t rest => simp
  | nil =>
      cases tail with
      | nil => rfl
      | cons e after =>
          have hkind : e.kind = .directive := htail e rfl
          have hgap : p.gap e = false := gap_of_kind (by rw [hkind]; rfl)
          simp [hgap, Token.isPunct, hkind]

/-- A part that is read stays so before another tail. -/
theorem Reads.extend (h : p.Reads ts mid) (tail : List Token) :
    p.Reads (ts ++ tail) (mid ++ tail) := by
  obtain ⟨hgap, hopener, hwithin, hcloser⟩ := h
  simpa using @Reads.mk p _ _ (mid ++ tail) _ _ hgap hopener hwithin hcloser

theorem Optional.extend (h : p.Optional ts mid) (htail : Parted tail) :
    p.Optional (ts ++ tail) (mid ++ tail) := by
  rcases h with h | ⟨hahead, rfl⟩
  · exact Or.inl (h.extend tail)
  · exact Or.inr ⟨by rw [ahead_append htail, hahead], rfl⟩

/-- A part that is read stays so without the tail. -/
theorem Reads.cut (h : p.Reads ts (mid ++ tail)) :
    ∃ front, ts = front ++ tail ∧ p.Reads front mid := by
  obtain ⟨hgap, hopener, hwithin, hcloser⟩ := h
  exact ⟨_, by simp, @Reads.mk p _ _ mid _ _ hgap hopener hwithin hcloser⟩

theorem Optional.cut (h : p.Optional ts (mid ++ tail)) (htail : Parted tail) :
    ∃ front, ts = front ++ tail ∧ p.Optional front mid := by
  rcases h with h | ⟨hahead, rfl⟩
  · obtain ⟨front, hts, hfront⟩ := h.cut
    exact ⟨front, hts, Or.inl hfront⟩
  · rw [ahead_append htail] at hahead
    exact ⟨mid, rfl, Or.inr ⟨hahead, rfl⟩⟩

end Part

/-- What may stand in an open block. -/
def Within : Nest → List Token → Prop
  | .repetition, ts => Items .nested ts
  | .header, ts => ∀ t ∈ ts, t.isDirective headerEnd = false

/-- What must follow when blocks are open: the rest of each, what closes it, and so
on outwards. -/
def Completes : List Nest → List Token → Prop
  | [], ts => Items .outermost ts
  | nest :: outer, ts => ∃ inner e rest, ts = inner ++ e :: rest ∧ Within nest inner ∧
      e.isDirective nest.closer = true ∧ Completes outer rest

/-- An item may stand before what follows, if it may stand before items at any level. -/
theorem Completes.item {nests : List Nest} {ts rest : List Token}
    (hout : nests.head? ≠ some .header) (h : Completes nests rest)
    (hitem : ∀ (level : Level) (items tail : List Token), Parted tail → rest = items ++ tail →
      Items level items → ∃ front, ts = front ++ tail ∧ Items level front) :
    Completes nests ts := by
  match nests with
  | [] =>
      obtain ⟨front, hts, hfront⟩ := hitem .outermost rest [] .nil (by simp) h
      rw [List.append_nil] at hts
      exact hts ▸ hfront
  | .header :: _ => exact absurd rfl hout
  | .repetition :: _ =>
      obtain ⟨inner, e, after, rfl, hinner, hcloser, hafter⟩ := h
      obtain ⟨front, hts, hfront⟩ := hitem .nested inner (e :: after) (.cons hcloser) rfl hinner
      exact ⟨front, e, after, hts, hfront, hcloser, hafter⟩

theorem isOwnDirective_eq_false_iff {t : Token} :
    t.isOwnDirective = false ↔ t.kind ≠ .directive ∨ t.isNative = true := by
  simp [Token.isOwnDirective, Classical.or_iff_not_imp_left]

/-- What one move reads, with what must follow it, is what must follow before. -/
theorem Completes.of_moves {nests nests' : List Nest} {t : Token} {ts rest : List Token}
    (hmove : Moves nests t ts nests' rest) (h : Completes nests' rest) :
    Completes nests (t :: ts) := by
  cases hmove with
  | token hout hplain =>
      refine h.item hout fun level items tail _ hts hitems => ⟨t :: items, by simp [hts], ?_⟩
      exact .token (isOwnDirective_eq_false_iff.1 hplain) hitems
  | marker hout m hname =>
      refine h.item hout fun level items tail _ hts hitems => ⟨t :: items, by simp [hts], ?_⟩
      exact .marker m hname hitems
  | call hout hname hargs hcontent =>
      refine h.item hout fun level items tail htail hrest hitems => ?_
      obtain ⟨mid, rfl, hbody⟩ := Part.Optional.cut (hrest ▸ hcontent) htail
      obtain ⟨front, rfl, hlist⟩ := hargs.cut htail
      exact ⟨t :: front, rfl, .call hname hlist hbody hitems⟩
  | openRepeat hout hstart hcount =>
      obtain ⟨inner, e, after, rfl, hinner, hcloser, hafter⟩ := h
      refine hafter.item hout fun level items tail htail hrest hitems => ?_
      subst hrest
      rw [← List.cons_append, ← List.append_assoc] at hcount
      obtain ⟨front, rfl, hlist⟩ := hcount.cut
      exact ⟨t :: front, rfl, .repeated hstart hlist hinner hcloser hitems⟩
  | openHeader hstart =>
      obtain ⟨prose, e, after, rfl, hprose, hcloser, hafter⟩ := h
      exact .header hstart hprose hcloser hafter
  | prose hwithin =>
      obtain ⟨prose, e, after, rfl, hprose, hcloser, hafter⟩ := h
      exact ⟨t :: prose, e, after, rfl, List.forall_mem_cons.2 ⟨hwithin, hprose⟩, hcloser, hafter⟩
  | @close nest _ _ _ hfinish =>
      refine ⟨[], t, ts, rfl, ?_, hfinish, h⟩
      cases nest with
      | repetition => exact Items.nil
      | header => simp [Within]

theorem Completes.of_accepts {nests : List Nest} {ts : List Token} (h : Accepts nests ts) :
    Completes nests ts := by
  induction h with
  | done => exact Items.nil
  | step hmove _ ih => exact .of_moves hmove ih

/-- Prose is read up to the end of its header. -/
theorem Accepts.prose {outer : List Nest} {prose ts : List Token}
    (hprose : ∀ u ∈ prose, u.isDirective headerEnd = false) (h : Accepts (.header :: outer) ts) :
    Accepts (.header :: outer) (prose ++ ts) := by
  induction prose with
  | nil => exact h
  | cons u prose ih =>
      rw [List.forall_mem_cons] at hprose
      exact .step (.prose hprose.1) (ih hprose.2)

/-- Items are read before any tail that is, at their level. -/
theorem Accepts.of_items {level : Level} {items : List Token} (h : Items level items)
    {nests : List Nest} {tail : List Token} (hout : nests.head? ≠ some .header)
    (hlevel : level = .outermost → nests = []) (htail : Parted tail) (hnext : Accepts nests tail) :
    Accepts nests (items ++ tail) := by
  induction h generalizing nests tail with
  | nil => exact hnext
  | token hplain _ ih =>
      exact .step (.token hout (isOwnDirective_eq_false_iff.2 hplain)) (ih hout hlevel htail hnext)
  | marker m hname _ ih => exact .step (.marker hout m hname) (ih hout hlevel htail hnext)
  | header hstart hprose hfinish _ ih =>
      obtain rfl := hlevel rfl
      rw [List.cons_append, List.append_assoc]
      exact .step (.openHeader hstart)
        (.prose hprose (.step (.close hfinish) (ih hout hlevel htail hnext)))
  | repeated hstart hcount _ hfinish _ ihw ihr =>
      refine .step (.openRepeat hout hstart (hcount.extend tail)) ?_
      rw [List.append_assoc]
      exact ihw (by simp) (by simp) (.cons hfinish)
        (.step (.close hfinish) (ihr hout hlevel htail hnext))
  | call hname hargs hcontent _ ih =>
      exact .step (.call hout hname (hargs.extend htail) (hcontent.extend htail))
        (ih hout hlevel htail hnext)

theorem accepts_nil_iff {ts : List Token} : Accepts [] ts ↔ Items .outermost ts := by
  constructor
  · exact Completes.of_accepts
  · intro h
    simpa using Accepts.of_items h (by simp) (fun _ => rfl) .nil .done

end Grammar

theorem Script.ofStream_isOk_iff {stream : TokenStream} :
    (∃ script, Script.ofStream stream = .ok script) ↔ ∃ b, Builder.run {} stream.tokens = .ok b ∧
      b.nests = [] := by
  unfold Script.ofStream
  cases Builder.run {} stream.tokens with
  | error e => simp
  | ok b =>
      unfold Builder.finish Builder.nests
      cases hblocks : b.blocks <;> simp [hblocks]

/-- The tokens of a script have blocks exactly if they are a sequence of items, and
are refused for their form otherwise. -/
theorem Script.ofStream_accepts {source : Text} {stream : TokenStream}
    (h : TokenStream.ofSource source = .ok stream) :
    ((∃ script, Script.ofStream stream = .ok script) ↔
        Grammar.Items .outermost stream.tokens) ∧
      (¬ Grammar.Items .outermost stream.tokens →
        ∃ report, Script.ofStream stream = .error report ∧ report.cause.kind = .structural) := by
  have hiff : (∃ script, Script.ofStream stream = .ok script) ↔
      Grammar.Items .outermost stream.tokens := by
    rw [Script.ofStream_isOk_iff, Builder.run_iff]
    exact Grammar.accepts_nil_iff
  refine ⟨hiff, fun hitems => ?_⟩
  have hstream := Script.ofStream_delivers (TokenStream.tidy_of_ofSource h)
  cases hrun : Script.ofStream stream with
  | ok script => exact absurd (hiff.1 ⟨script, hrun⟩) hitems
  | error report => exact ⟨report, rfl, hstream.2 report hrun⟩

/-- A header, nested repeated blocks, a call with arguments and a body, and a marker. -/
theorem Script.ofStream_accepts_repeat :
    ∃ stream, TokenStream.ofSource ("#HEADER_START\n#REPEAT (\n#HEADER_END\n#REPEAT (2)\n" ++
        "#repeat(3) #LINE (1,(2)) \n \x7b a \x7b b \x7d \x7d\n#END_REPEAT #BREAK\n" ++
        "#END_REPEAT").toList = .ok stream ∧
      Grammar.Items .outermost stream.tokens := by
  have hok : (Script.ofSource ("#HEADER_START\n#REPEAT (\n#HEADER_END\n#REPEAT (2)\n" ++
      "#repeat(3) #LINE (1,(2)) \n \x7b a \x7b b \x7d \x7d\n#END_REPEAT #BREAK\n" ++
      "#END_REPEAT").toList).isOk = true := by
    decide +kernel
  unfold Script.ofSource at hok
  split at hok
  · cases hok
  · next stream hstream =>
    refine ⟨stream, hstream, (Script.ofStream_accepts hstream).1.1 ?_⟩
    cases hrun : Script.ofStream stream with
    | ok script => exact ⟨script, rfl⟩
    | error report =>
        rw [hrun] at hok
        cases hok

end MapScript
