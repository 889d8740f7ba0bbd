import MapScript.Block.Builder
import MapScript.Proofs.Lexing.Prose
import MapScript.Proofs.Symbol.Resolve

/-!
# Blocks of a script

A script that is refused while its blocks are built is refused for its form.  The
rows of tokens in its blocks hold no directive to be interpreted, and every
significant token of them can stand alone: prose stays in headers, because the
lexer and the builder agree on where headers begin and end.
-/

namespace MapScript

open Lexer (Mode Tidy Stands opensHeader closesHeader)
open Resolve (AllTokens groups nodeGroups)

/-- A token of script that is left to the engine. -/
def Token.Plain (t : Token) : Prop :=
  t.isOwnDirective = false ∧ (t.isTrivia = false → Stands t.toLexeme [])

/-- A header start is to be interpreted. -/
theorem opensHeader_of_isOwnDirective {t : Token} (h : t.isOwnDirective = false) :
    opensHeader t.toLexeme = false := by
  by_contra hopens
  simp only [opensHeader, Bool.not_eq_false, Bool.and_eq_true, beq_iff_eq] at hopens
  obtain ⟨hkind, hname⟩ := hopens
  have hstart : Lexer.headerStart.length = 12 := by decide
  have hlength : (Text.lower t.value).length = 12 := by
    rw [← hstart, ← hname, Text.lower, Text.upper, List.length_map, List.length_map]
    rfl
  have hnative : nativeDirectives.contains (Text.lower t.value) = true := by
    simpa [Token.isOwnDirective, Token.isNative, hkind] using h
  have hshort : ∀ name ∈ nativeDirectives, name.length ≠ 12 := by decide
  exact hshort _ (List.contains_iff_mem.1 hnative) hlength

theorem opensHeader_of_kind {t : Token} (h : t.kind ≠ .directive) :
    opensHeader t.toLexeme = false := by
  simp [opensHeader, h]

theorem Token.kind_of_isPunct {t : Token} {c : Char} (h : t.isPunct c = true) : t.kind = .punct := by
  simp only [Token.isPunct, Bool.and_eq_true, beq_iff_eq] at h
  exact h.1

theorem Token.isTrivia_of_isPunct {t : Token} {c : Char} (h : t.isPunct c = true) :
    t.isTrivia = false := by
  rw [Token.isTrivia, kind_of_isPunct h]
  rfl

theorem Token.kind_ne_directive_of_isTrivia {t : Token} (h : t.isTrivia = true) :
    t.kind ≠ .directive := by
  intro hkind
  simp [Token.isTrivia, hkind, TokenKind.isTrivia] at h

/-! ### Groups -/

namespace Group

variable {opens closes refuses : Token → Bool}

/-- A group ends with a token that closes it, and no token in it is refused but
brackets. -/
theorem read_spec {depth : Nat} {ts : List Token} {g : Group}
    (h : read opens closes refuses depth ts = .ok g) :
    closes g.closer = true ∧
      ∀ t ∈ g.inner, opens t = true ∨ closes t = true ∨ refuses t = false := by
  induction ts generalizing depth g with
  | nil => simp [read] at h
  | cons t ts ih =>
      have step {d : Nat} (ht : opens t = true ∨ closes t = true ∨ refuses t = false)
          (hd : (read opens closes refuses d ts).map (cons t) = .ok g) :
          closes g.closer = true ∧
            ∀ u ∈ g.inner, opens u = true ∨ closes u = true ∨ refuses u = false := by
        cases hr : read opens closes refuses d ts with
        | error e => simp [hr, Except.map] at hd
        | ok inner =>
            simp only [hr, Except.map, Except.ok.injEq] at hd
            subst hd
            obtain ⟨hcloser, hinner⟩ := ih hr
            exact ⟨hcloser, List.forall_mem_cons.2 ⟨ht, hinner⟩⟩
      unfold read at h
      split at h
      · next hopens => exact step (Or.inl hopens) h
      split at h
      · next hcloses =>
        split at h
        · cases h
          exact ⟨hcloses, by simp⟩
        · exact step (Or.inr (Or.inl hcloses)) h
      split at h
      · simp at h
      · next hrefuses => exact step (Or.inr (Or.inr (by simpa using hrefuses))) h

theorem closer_of_parens? {ts : List Token} {g : Group} (h : parens? ts = some g) :
    g.closer.isPunct ')' = true := by
  unfold parens? at h
  split at h
  · next g' hg =>
    cases h
    exact (read_spec hg).1
  · simp at h

end Group

namespace Call

/-- Script goes on after an argument list. -/
theorem readArguments_delivers (directive : Token) {ts : List Token}
    (htidy : Tidy .script (ts.map Token.toLexeme)) :
    Delivers .structural (readArguments directive ts) fun args =>
      Tidy .script (((args.map Group.rest).getD ts).map Token.toLexeme) := by
  have hsplit := List.takeWhile_append_dropWhile (p := fun t : Token => t.kind == .blank) (l := ts)
  unfold readArguments
  split
  · next t rest hdrop =>
    split
    · split
      · next g hg =>
        apply Delivers.ok
        have hts : ts = (ts.takeWhile (fun t => t.kind == .blank) ++ t :: g.inner) ++
            g.closer :: g.rest := by
          rw [List.append_assoc, List.cons_append, ← Group.parens?_append hg, ← hdrop, hsplit]
        rw [hts, List.map_append, List.map_cons] at htidy
        exact htidy.after_punct (Token.kind_of_isPunct (Group.closer_of_parens? hg))
      · exact .error rfl
    · exact .ok htidy
  · exact .ok htidy

/-- Script goes on after a body, and the body is script without directives to be
interpreted. -/
theorem readBody_delivers (directive : Token) {ts : List Token}
    (htidy : Tidy .script (ts.map Token.toLexeme)) :
    Delivers .structural (readBody directive ts) fun body =>
      AllTokens Token.Plain (body.map Group.inner).toList ∧
        Tidy .script (((body.map Group.rest).getD ts).map Token.toLexeme) := by
  have hsplit := List.takeWhile_append_dropWhile (p := Token.isTrivia) (l := ts)
  unfold readBody
  split
  · next t rest hdrop =>
    split
    · next hbrace =>
      split
      · next g hg =>
        apply Delivers.ok
        obtain ⟨hcloser, hinner⟩ := Group.read_spec hg
        have hown : ∀ u ∈ g.inner, u.isOwnDirective = false := by
          intro u hu
          have hpunct {c : Char} (h : u.isPunct c = true) : u.isOwnDirective = false := by
            simp [Token.isOwnDirective, Token.kind_of_isPunct h]
          rcases hinner u hu with h | h | h
          · exact hpunct h
          · exact hpunct h
          · exact h
        have hts : ts = (ts.takeWhile Token.isTrivia ++ t :: g.inner) ++ g.closer :: g.rest := by
          rw [List.append_assoc, List.cons_append, ← Group.read_append hg, ← hdrop, hsplit]
        have hopens : ∀ l ∈ (ts.takeWhile Token.isTrivia ++ t :: g.inner).map Token.toLexeme,
            opensHeader l = false := by
          intro l hl
          obtain ⟨u, hu, rfl⟩ := List.mem_map.1 hl
          rcases List.mem_append.1 hu with hu | hu
          · exact opensHeader_of_kind
              (Token.kind_ne_directive_of_isTrivia (List.mem_takeWhile_imp hu))
          rcases List.mem_cons.1 hu with rfl | hu
          · exact opensHeader_of_kind (by simp [Token.kind_of_isPunct hbrace])
          · exact opensHeader_of_isOwnDirective (hown u hu)
        rw [hts, List.map_append] at htidy
        obtain ⟨hstands, hrest⟩ := htidy.append_script hopens
        have hcloses := opensHeader_of_kind (t := g.closer)
          (by simp [Token.kind_of_isPunct hcloser])
        refine ⟨?_, (hrest.cons_script hcloses).2⟩
        intro row hrow u hu
        obtain rfl : row = g.inner := by simpa using hrow
        exact ⟨hown u hu, hstands _ (List.mem_map_of_mem (by simp [hu]))⟩
      · exact .error rfl
      · exact .error rfl
    · exact .ok ⟨by simp [AllTokens], htidy⟩
  · exact .ok ⟨by simp [AllTokens], htidy⟩

theorem read_delivers (directive : Token) {ts : List Token}
    (htidy : Tidy .script (ts.map Token.toLexeme)) :
    Delivers .structural (read directive ts) fun out =>
      AllTokens Token.Plain out.1.body.toList ∧ Tidy .script (out.2.map Token.toLexeme) := by
  have hargs := readArguments_delivers directive htidy
  unfold read
  split
  · next r hr => exact .error (hargs.2 r hr)
  next args hr =>
    have hbody := readBody_delivers directive (hargs.1 args hr)
    dsimp only
    split
    · next r hr => exact .error (hbody.2 r hr)
    · next body hr => exact .ok (hbody.1 body hr)

end Call

/-! ### Open blocks -/

theorem allTokens_groups_iff {P : Token → Prop} {ns : List Node} :
    AllTokens P (groups ns) ↔ ∀ n ∈ ns, AllTokens P (nodeGroups n) := by
  induction ns with
  | nil => simp [groups, AllTokens]
  | cons n ns ih => rw [groups, AllTokens.append_iff, ih, List.forall_mem_cons]

/-- The tokens of a block so far are plain. -/
structure Content.Plain (c : Content) : Prop where
  nodes : ∀ n ∈ c.nodes, AllTokens Token.Plain (nodeGroups n)
  pending : ∀ t ∈ c.pending, t.Plain

namespace Content

theorem Plain.empty : Content.Plain {} := ⟨by simp, by simp⟩

theorem Plain.push {c : Content} (h : c.Plain) {t : Token} (ht : t.Plain) : (c.push t).Plain :=
  ⟨h.nodes, List.forall_mem_cons.2 ⟨ht, h.pending⟩⟩

theorem Plain.flush {c : Content} (h : c.Plain) : c.flush.Plain := by
  unfold Content.flush
  cases hp : c.pending.reverse with
  | nil => exact h
  | cons t ts =>
      show Content.Plain ⟨.run ⟨t :: ts, Token.spanOf t ts⟩ :: c.nodes, []⟩
      refine ⟨List.forall_mem_cons.2 ⟨?_, h.nodes⟩, by simp⟩
      intro row hrow u hu
      obtain rfl : row = t :: ts := by simpa [nodeGroups] using hrow
      exact h.pending u (by rw [← List.mem_reverse, hp]; exact hu)

theorem Plain.attach {c : Content} (h : c.Plain) {n : Node}
    (hn : AllTokens Token.Plain (nodeGroups n)) : (c.attach n).Plain :=
  ⟨List.forall_mem_cons.2 ⟨hn, h.flush.nodes⟩, h.flush.pending⟩

theorem Plain.finish {c : Content} (h : c.Plain) : AllTokens Token.Plain (groups c.finish) := by
  rw [allTokens_groups_iff]
  intro n hn
  exact h.flush.nodes n (List.mem_reverse.1 hn)

end Content

namespace Builder

/-- The tokens of the top level and of all open blocks but headers are plain, and a
header is open only by itself. -/
structure Sound (b : Builder) : Prop where
  top : b.top.Plain
  blocks : ∀ block ∈ b.blocks, block.kind = .header ∨ block.content.Plain
  outer : ∀ block ∈ b.blocks.tail, block.kind ≠ .header

/-- What the builder takes the text at hand for. -/
def mode (b : Builder) : Mode := if b.inHeader then .prose else .script

theorem inHeader_iff {b : Builder} :
    b.inHeader = true ↔ ∃ block outer, b.blocks = block :: outer ∧ block.kind = .header := by
  unfold inHeader
  split
  · next span content outer heq => simp [heq]
  · next hne =>
    simp only [Bool.false_eq_true, false_iff, not_exists, not_and]
    intro block outer hblocks hkind
    obtain ⟨kind, span, content⟩ := block
    cases hkind
    exact hne span content outer hblocks

theorem inHeader_update (b : Builder) (f : Content → Content) :
    (b.update f).inHeader = b.inHeader := by
  unfold update inHeader
  cases b.blocks with
  | nil => rfl
  | cons block outer =>
      obtain ⟨kind, span, content⟩ := block
      cases kind <;> rfl

theorem mode_update (b : Builder) (f : Content → Content) : (b.update f).mode = b.mode := by
  unfold mode
  rw [inHeader_update]

/-- A change of the innermost content keeps a builder sound; in a header any change
does. -/
theorem Sound.update {b : Builder} (h : b.Sound) {f : Content → Content}
    (hf : b.inHeader = true ∨ ∀ c : Content, c.Plain → (f c).Plain) : (b.update f).Sound := by
  unfold Builder.update
  cases hblocks : b.blocks with
  | nil =>
      rcases hf with hin | hf
      · obtain ⟨block, outer, hcons, -⟩ := inHeader_iff.1 hin
        simp [hblocks] at hcons
      · exact ⟨hf b.top h.top, by simp, by simp⟩
  | cons block outer =>
      have hall := h.blocks
      have houter := h.outer
      rw [hblocks] at hall houter
      rw [List.forall_mem_cons] at hall
      refine ⟨h.top, List.forall_mem_cons.2 ⟨?_, hall.2⟩, houter⟩
      rcases hf with hin | hf
      · obtain ⟨block', outer', hcons, hkind⟩ := inHeader_iff.1 hin
        rw [hblocks, List.cons.injEq] at hcons
        exact Or.inl (hcons.1 ▸ hkind)
      · exact hall.1.imp_right (hf block.content)

/-- Opening a block outside headers. -/
theorem Sound.enter {b : Builder} (h : b.Sound) (hin : b.inHeader = false) (kind : BlockKind)
    (span : Span) : (b.enter kind span).Sound := by
  have hflush : (b.update Content.flush).Sound := h.update (Or.inr fun c hc => hc.flush)
  refine ⟨hflush.top, List.forall_mem_cons.2 ⟨Or.inr .empty, hflush.blocks⟩, ?_⟩
  intro block hblock hkind
  have hnone : (b.update Content.flush).inHeader ≠ true := by
    rw [inHeader_update, hin]
    simp
  cases hblocks : (b.update Content.flush).blocks with
  | nil =>
      replace hblock : block ∈ (b.update Content.flush).blocks := hblock
      simp [hblocks] at hblock
  | cons first outer =>
      replace hblock : block ∈ (b.update Content.flush).blocks := hblock
      rw [hblocks] at hblock
      rcases List.mem_cons.1 hblock with rfl | hblock
      · exact hnone (inHeader_iff.2 ⟨block, outer, hblocks, hkind⟩)
      · have houter := hflush.outer
        rw [hblocks] at houter
        exact houter block hblock hkind

/-- Closing the innermost block. -/
theorem Sound.close {b : Builder} (h : b.Sound) (t : Token) :
    Delivers .structural (b.close t) fun b' => b'.Sound ∧ b'.inHeader = false := by
  unfold Builder.close
  split
  · exact .error rfl
  next block outer hblocks =>
    split
    · apply Delivers.ok
      have hall := h.blocks
      have houter := h.outer
      rw [hblocks] at hall houter
      rw [List.forall_mem_cons] at hall
      have hsound : Builder.Sound { b with blocks := outer } :=
        ⟨h.top, hall.2, fun x hx => houter x (List.mem_of_mem_tail hx)⟩
      have hclosed : AllTokens Token.Plain (nodeGroups (block.close t)) := by
        obtain ⟨kind, span, content⟩ := block
        cases kind with
        | header => simp [OpenBlock.close, nodeGroups, AllTokens]
        | repeated args =>
            rcases hall.1 with hkind | hplain
            · cases hkind
            · simpa [OpenBlock.close, nodeGroups] using hplain.finish
      refine ⟨hsound.update (Or.inr fun c hc => hc.attach hclosed), ?_⟩
      rw [inHeader_update, Bool.eq_false_iff]
      intro hin
      obtain ⟨first, rest, hcons, hkind⟩ := inHeader_iff.1 hin
      exact houter first (by simp_all) hkind
    · exact .error rfl

theorem mode_of_inHeader {b : Builder} {inHeader : Bool} (h : b.inHeader = inHeader) :
    b.mode = if inHeader then .prose else .script := by
  rw [mode, h]

/-- What is left of the tokens is read in the mode of the builder. -/
def Ready (out : Builder × List Token) : Prop :=
  out.1.Sound ∧ Tidy out.1.mode (out.2.map Token.toLexeme)

theorem Ready.script {b : Builder} {ts : List Token} (h : b.Sound) (hin : b.inHeader = false)
    (htidy : Tidy .script (ts.map Token.toLexeme)) : Ready (b, ts) :=
  ⟨h, by rw [mode_of_inHeader hin]; exact htidy⟩

theorem close_ready {b : Builder} (h : b.Sound) (t : Token) {ts : List Token}
    (htidy : Tidy .script (ts.map Token.toLexeme)) :
    Delivers .structural ((b.close t).map fun b' => (b', ts)) Ready :=
  (h.close t).map fun _ hclosed => .script hclosed.1 hclosed.2 htidy

theorem enterRepeat_ready {b : Builder} (h : b.Sound) (hin : b.inHeader = false) (t : Token)
    {ts : List Token} (htidy : Tidy .script (ts.map Token.toLexeme)) :
    Delivers .structural (b.enterRepeat t ts) Ready := by
  have hargs := Call.readArguments_delivers t htidy
  unfold enterRepeat
  split
  · next r hr => exact .error (hargs.2 r hr)
  · exact .error rfl
  · next g hg => exact .ok (.script (h.enter hin _ _) rfl (hargs.1 _ hg))

theorem enterHeader_ready {b : Builder} (h : b.Sound) (hin : b.inHeader = false) (t : Token)
    {ts : List Token} (htidy : Tidy .prose (ts.map Token.toLexeme)) :
    Delivers .structural ((b.enterHeader t).map fun b' => (b', ts)) Ready := by
  unfold enterHeader
  split
  · exact .ok ⟨h.enter hin _ _, htidy⟩
  · exact .error rfl

/-- A directive to be interpreted, outside headers. -/
theorem directive_ready {b : Builder} (h : b.Sound) (hin : b.inHeader = false) {t : Token}
    {ts : List Token} (htidy : Tidy .script ((t :: ts).map Token.toLexeme)) :
    Delivers .structural (b.directive t ts) Ready := by
  have hopens : opensHeader t.toLexeme = t.isDirective BlockKind.header.opener := rfl
  have htail (ht : t.isDirective BlockKind.header.opener = false) :
      Tidy .script (ts.map Token.toLexeme) := (htidy.cons_script (hopens.trans ht)).2
  -- the other directives have other names, so script goes on after them
  have hname {name : Text} (ht : t.isDirective name = true)
      (hne : name ≠ BlockKind.header.opener) : t.isDirective BlockKind.header.opener = false := by
    simp only [Token.isDirective, Bool.and_eq_true, beq_iff_eq] at ht
    simp [Token.isDirective, ht.2, hne]
  unfold directive
  split
  · next hcloser =>
    apply close_ready h
    rcases Bool.or_eq_true_iff.1 hcloser with hrepeat | hheader
    · exact htail (hname hrepeat (by decide))
    · exact htail (hname hheader (by decide))
  split
  · next hrepeat => exact enterRepeat_ready h hin t (htail (hname hrepeat (by decide)))
  split
  · next hheader =>
    apply enterHeader_ready h hin
    rw [List.map_cons, Tidy, hopens, hheader] at htidy
    exact htidy.2
  next hheader =>
    have hscript := htail (by simpa using hheader)
    split
    · next m _ =>
      have hmarker : AllTokens Token.Plain (nodeGroups (.marker m t.span)) := by
        simp [nodeGroups, AllTokens]
      exact .ok (.script (h.update (Or.inr fun c hc => hc.attach hmarker))
        (by rw [inHeader_update, hin]) hscript)
    · have hread := Call.read_delivers t hscript
      split
      · next r hr => exact .error (hread.2 r hr)
      · next call rest hr =>
        obtain ⟨hbody, hrest⟩ := hread.1 _ hr
        have hcall : AllTokens Token.Plain (nodeGroups (.call call)) := by
          rwa [nodeGroups]
        exact .ok (.script (h.update (Or.inr fun c hc => hc.attach hcall))
          (by rw [inHeader_update, hin]) hrest)

/-- One step keeps the builder and the lexer in agreement. -/
theorem step_ready {b : Builder} {t : Token} {ts : List Token} (h : Ready (b, t :: ts)) :
    Delivers .structural (b.step t ts) Ready := by
  obtain ⟨hsound, htidy⟩ := h
  dsimp only at hsound htidy
  unfold step
  split
  · next hin =>
    rw [mode_of_inHeader hin, List.map_cons] at htidy
    split
    · next hend =>
      apply close_ready hsound
      rcases htidy with ⟨hkind, -⟩ | ⟨-, htail⟩
      · simp only [Token.isDirective, Bool.and_eq_true, beq_iff_eq] at hend
        simp [hend.1] at hkind
      · exact htail
    · next hend =>
      have hpush : (b.update fun c => c.push t).Sound := hsound.update (Or.inl hin)
      refine .ok ⟨hpush, ?_⟩
      rw [mode_update, mode_of_inHeader hin]
      rcases htidy with ⟨-, htail⟩ | ⟨hcloses, -⟩
      · exact htail
      · exact absurd hcloses hend
  next hin =>
    have hout : b.inHeader = false := by simpa using hin
    rw [mode_of_inHeader hout] at htidy
    split
    · exact directive_ready hsound hout htidy
    · next hown =>
      have hplain : t.isOwnDirective = false := by simpa using hown
      obtain ⟨hstands, htail⟩ := htidy.cons_script (opensHeader_of_isOwnDirective hplain)
      exact .ok (.script (hsound.update (Or.inr fun c hc => hc.push ⟨hplain, hstands⟩))
        (by rw [inHeader_update, hout]) htail)

/-- A whole run keeps it so. -/
theorem run_sound {b : Builder} {ts : List Token} (h : Ready (b, ts)) :
    Delivers .structural (b.run ts) Sound := by
  induction b, ts using Builder.run.induct with
  | case1 b =>
      rw [run]
      exact .ok h.1
  | case2 b t rest r hr =>
      rw [run]
      split
      · next e he => exact .error ((step_ready h).2 e he)
      · next he =>
        rw [hr] at he
        cases he
  | case3 b t rest b' rest' hr ih =>
      rw [run]
      split
      · next he =>
        rw [hr] at he
        cases he
      · next b₁ rest₁ he =>
        rw [hr] at he
        cases he
        exact ih ((step_ready h).1 _ hr)

end Builder

/-- The blocks of a tidy row of tokens are plain, and it is refused for its form only. -/
theorem Script.ofStream_delivers {stream : TokenStream}
    (h : Tidy .script (stream.tokens.map Token.toLexeme)) :
    Delivers .structural (Script.ofStream stream) fun script =>
      AllTokens Token.Plain (groups script.parts) := by
  have hempty : Builder.Sound {} := ⟨.empty, by simp, by simp⟩
  have hrun := @Builder.run_sound {} stream.tokens ⟨hempty, h⟩
  unfold Script.ofStream
  split
  · next r hr => exact .error (hrun.2 r hr)
  next b hb =>
    have hsound := hrun.1 b hb
    unfold Builder.finish
    split
    · next r hr =>
      split at hr
      · cases hr
      · cases hr
        exact .error rfl
    · next nodes hnodes =>
      split at hnodes
      · cases hnodes
        exact .ok hsound.top.finish
      · cases hnodes

end MapScript
