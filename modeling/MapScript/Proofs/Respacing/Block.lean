import MapScript.Proofs.FixedPoint
import MapScript.Proofs.Respacing.Stream

/-!
# Blocks with other gaps

Streams that differ in their gaps and in the prose of headers are built into blocks
that differ so: runs and bodies are rows with gaps in the same places, arguments are
alike, and headers have the same lines.  A stream is refused for what the other is.
-/

namespace MapScript

open Grammar
open Lexer (headerStart headerEnd)

variable {k : Likeness}

/-! ### Blocks -/

/-- Calls of one pattern with arguments that are alike. -/
structure Call.Alike (k : Likeness) (c c' : Call) : Prop where
  name : c.name = c'.name
  args : List.Forall₂ (Argument k) c.args c'.args
  body : Option.Rel (Row k) c.body c'.body
  place : k.place c.span.start c'.span.start

mutual

/-- Blocks that differ in gaps, in the prose of headers and in places. -/
inductive Node.Alike (k : Likeness) : Node → Node → Prop
  | run {r r' : Run} (row : Row k r.tokens r'.tokens) : Alike k (.run r) (.run r')
  | marker (m : Marker) {span span' : Span} (place : k.place span.start span'.start) :
      Alike k (.marker m span) (.marker m span')
  | call {c c' : Call} (call : Call.Alike k c c') : Alike k (.call c) (.call c')
  | repeated {args args' : List (List Token)} {children children' : List Node}
      {openSpan openSpan' span span' : Span} (arguments : List.Forall₂ (Argument k) args args')
      (within : Node.AlikeAll k children children')
      (place : k.place openSpan.start openSpan'.start) :
      Alike k (.repeated args children openSpan span) (.repeated args' children' openSpan' span')
  | header {h h' : Header} (lines : h.lines = h'.lines) : Alike k (.header h) (.header h')

/-- Blocks in order that are alike. -/
inductive Node.AlikeAll (k : Likeness) : List Node → List Node → Prop
  | nil : AlikeAll k [] []
  | cons {n n' : Node} {ns ns' : List Node} (head : Node.Alike k n n')
      (tail : Node.AlikeAll k ns ns') : AlikeAll k (n :: ns) (n' :: ns')

end

theorem Node.alikeAll_of_forall₂ {ns ns' : List Node} (h : List.Forall₂ (Node.Alike k) ns ns') :
    Node.AlikeAll k ns ns' := by
  induction h with
  | nil => exact .nil
  | cons hn _ ih => exact .cons hn ih

/-! ### Calls -/

/-- The refusal of a part whose group does not end. -/
theorem Call.readArguments_eq_group? (directive : Token) (ts : List Token) :
    readArguments directive ts =
      match argumentList.group? ts with
      | none => .ok none
      | some (.ok g) => .ok (some g)
      | some (.error _) => .error ⟨.openArguments directive.value, directive.span, []⟩ := by
  have hgap : (fun t : Token => t.kind == .blank) = argumentList.gap := rfl
  have hopener : argumentList.opener = '(' := rfl
  unfold readArguments Part.group?
  rw [hgap, hopener]
  cases ts.dropWhile argumentList.gap with
  | nil => rfl
  | cons t rest =>
      dsimp only
      rw [parens?_eq]
      cases t.isPunct '(' with
      | false => rfl
      | true => cases Group.readPart argumentList 0 rest <;> rfl

theorem Call.readBody_eq_group? (directive : Token) (ts : List Token) :
    readBody directive ts =
      match callBody.group? ts with
      | none => .ok none
      | some (.ok g) => .ok (some g)
      | some (.error .unfinished) => .error ⟨.openBody directive.value, directive.span, []⟩
      | some (.error (.refused t)) =>
        .error ⟨.directiveInBody t.value directive.value, t.span,
          [⟨'#' :: directive.value ++ " called here".toList, directive.span⟩]⟩ := by
  have hgap : callBody.gap = Token.isTrivia := rfl
  have hopener : callBody.opener = '\x7b' := rfl
  unfold readBody Part.group?
  rw [hgap, hopener]
  cases ts.dropWhile Token.isTrivia with
  | nil => rfl
  | cons t rest =>
      have hread : Group.readPart callBody 0 rest =
          Group.read (Token.isPunct '\x7b') (Token.isPunct '\x7d') Token.isOwnDirective 0 rest :=
        rfl
      dsimp only
      rw [hread]
      cases t.isPunct '\x7b' with
      | false => rfl
      | true =>
          cases Group.read (Token.isPunct '\x7b') (Token.isPunct '\x7d') Token.isOwnDirective 0
            rest with
          | ok g => rfl
          | error e => cases e <;> rfl

namespace Call

variable {t t' : Token} {ts ts' : List Token}

theorem readArguments_alike (ht : Token.Alike k t t')
    (hahead : argumentList.ahead ts = argumentList.ahead ts') (h : Tracks k ts ts') :
    Both (Report.Alike k) (Option.Rel (Group.Alike k)) (readArguments t ts)
      (readArguments t' ts') := by
  have hgroup := Group.group?_alike argumentList_regular (by decide) h hahead
  rw [readArguments_eq_group?, readArguments_eq_group?, ht.value_eq]
  generalize argumentList.group? ts = found at hgroup
  generalize argumentList.group? ts' = found' at hgroup
  cases hgroup with
  | none => exact .ok .none
  | some hboth =>
      cases hboth with
      | ok hg => exact .ok (.some hg)
      | error _ => exact .error ⟨.same _, ht.place⟩

theorem readBody_alike (ht : Token.Alike k t t') (h : Tracks k ts ts') :
    Both (Report.Alike k) (Option.Rel fun g g' => Row k g.inner g'.inner ∧
      Token.Alike k g.closer g'.closer ∧ Tracks k g.rest g'.rest) (readBody t ts)
      (readBody t' ts') := by
  have hahead : callBody.ahead ts = callBody.ahead ts' := h.dropWhile_trivia.head?_isPunct _
  have hgroup := Group.group?_alike callBody_regular (by decide) h hahead
  rw [readBody_eq_group?, readBody_eq_group?, ht.value_eq]
  generalize hfound : callBody.group? ts = found at hgroup
  generalize callBody.group? ts' = found' at hgroup
  cases hgroup with
  | none => exact .ok .none
  | some hboth =>
      cases hboth with
      | @ok g g' hg =>
          have hplain : ∀ t ∈ g.inner, t.isOwnDirective = false := by
            unfold Part.group? at hfound
            split at hfound
            · split at hfound
              · have hinner := (Group.read_spec (Option.some.inj hfound)).2
                intro t ht
                rcases hinner t ht with hpunct | hpunct | hplain
                · simp [Token.isOwnDirective, Token.kind_of_isPunct hpunct]
                · simp [Token.isOwnDirective, Token.kind_of_isPunct hpunct]
                · exact hplain
              · cases hfound
            · cases hfound
          exact .ok (.some ⟨hg.inner.row hplain, hg.closer, hg.rest⟩)
      | error he =>
          cases he with
          | unfinished => exact .error ⟨.same _, ht.place⟩
          | refused hu =>
              dsimp only
              rw [hu.value_eq]
              exact .error ⟨.same _, hu.place⟩

/-- A call is read off streams alike. -/
theorem read_alike (ht : Token.Alike k t t')
    (hahead : argumentList.ahead ts = argumentList.ahead ts') (h : Tracks k ts ts') :
    Both (Report.Alike k) (fun out out' => Call.Alike k out.1 out'.1 ∧ Tracks k out.2 out'.2)
      (read t ts) (read t' ts') := by
  have hargs := readArguments_alike ht hahead h
  unfold read
  generalize readArguments t ts = x at hargs
  generalize readArguments t' ts' = y at hargs
  cases hargs with
  | error he => exact .error he
  | @ok args args' hargs =>
      have hrest : Tracks k ((args.map Group.rest).getD ts) ((args'.map Group.rest).getD ts') := by
        cases hargs with
        | none => exact h
        | some hg => exact hg.rest
      have hgiven : List.Forall₂ (Argument k) ((args.map fun g => arguments g.inner).getD [])
          ((args'.map fun g => arguments g.inner).getD []) := by
        cases hargs with
        | none => exact .nil
        | some hg => exact arguments_alike hg.inner
      have hbody := readBody_alike ht hrest
      dsimp only
      generalize readBody t ((args.map Group.rest).getD ts) = x at hbody
      generalize readBody t' ((args'.map Group.rest).getD ts') = y at hbody
      cases hbody with
      | error he => exact .error he
      | ok hbody =>
          rw [← ht.value_eq]
          refine .ok ?_
          cases hbody with
          | none => exact ⟨⟨rfl, hgiven, .none, ht.place⟩, hrest⟩
          | some hg => exact ⟨⟨rfl, hgiven, .some hg.1, ht.place⟩, hg.2.2⟩

end Call

/-! ### Open blocks -/

/-- Contents that are alike, with rows of pending tokens. -/
structure Content.Alike (k : Likeness) (c c' : Content) : Prop where
  nodes : List.Forall₂ (Node.Alike k) c.nodes c'.nodes
  pending : Row k c.pending c'.pending

namespace Content.Alike

variable {c c' : Content}

theorem empty : Content.Alike k {} {} := ⟨.nil, .nil⟩

theorem flush (h : c.Alike k c') : c.flush.Alike k c'.flush := by
  have hrow := h.pending.reverse
  have hempty := hrow.isEmpty_eq
  unfold Content.flush
  generalize c.pending.reverse = ts at hrow hempty
  generalize c'.pending.reverse = ts' at hrow hempty
  cases ts with
  | nil =>
      obtain rfl := List.isEmpty_iff.1 hempty.symm
      exact h
  | cons t ts =>
      cases ts' with
      | nil => cases hempty
      | cons t' ts' => exact ⟨.cons (.run hrow) h.nodes, .nil⟩

theorem attach (h : c.Alike k c') {n n' : Node} (hn : Node.Alike k n n') :
    (c.attach n).Alike k (c'.attach n') := ⟨.cons hn h.flush.nodes, h.flush.pending⟩

theorem finish (h : c.Alike k c') : List.Forall₂ (Node.Alike k) c.finish c'.finish :=
  List.rel_reverse h.flush.nodes

theorem gather (h : c.Alike k c') {ts ts' : List Token} (hts : Row k ts ts') :
    Content.Alike k { c with pending := ts.reverse ++ c.pending }
      { c' with pending := ts'.reverse ++ c'.pending } := ⟨h.nodes, hts.reverse.append h.pending⟩

end Content.Alike

/-- Repeated blocks that are open, with arguments and contents that are alike. -/
inductive OpenBlock.Alike (k : Likeness) : OpenBlock → OpenBlock → Prop
  | repeated {args args' : List (List Token)} {span span' : Span} {content content' : Content}
      (arguments : List.Forall₂ (Argument k) args args')
      (place : k.place span.start span'.start) (within : content.Alike k content') :
      Alike k ⟨.repeated args, span, content⟩ ⟨.repeated args', span', content'⟩

namespace OpenBlock.Alike

variable {block block' : OpenBlock}

theorem place (h : block.Alike k block') : k.place block.span.start block'.span.start := by
  obtain ⟨-, hplace, -⟩ := h
  exact hplace

theorem opener_eq (h : block.Alike k block') : block.kind.opener = block'.kind.opener := by
  obtain ⟨-, -, -⟩ := h
  rfl

theorem closer_eq (h : block.Alike k block') : block.kind.closer = block'.kind.closer := by
  obtain ⟨-, -, -⟩ := h
  rfl

theorem close (h : block.Alike k block') (t t' : Token) :
    Node.Alike k (block.close t) (block'.close t') := by
  obtain ⟨hargs, hplace, hcontent⟩ := h
  exact .repeated hargs (Node.alikeAll_of_forall₂ hcontent.finish) hplace

end OpenBlock.Alike

/-- Scripts so far that are alike, no header being open. -/
structure Builder.Alike (k : Likeness) (b b' : Builder) : Prop where
  top : b.top.Alike k b'.top
  blocks : List.Forall₂ (OpenBlock.Alike k) b.blocks b'.blocks

namespace Builder

variable {b b' : Builder} {t t' : Token} {ts ts' : List Token}

theorem Alike.inHeader_eq (h : b.Alike k b') : b.inHeader = false ∧ b'.inHeader = false := by
  have hblocks := h.blocks
  unfold inHeader
  generalize b.blocks = blocks at hblocks
  generalize b'.blocks = blocks' at hblocks
  cases hblocks with
  | nil => exact ⟨rfl, rfl⟩
  | cons hblock _ =>
      cases hblock
      exact ⟨rfl, rfl⟩

theorem Alike.update (h : b.Alike k b') {f g : Content → Content}
    (hfg : ∀ c c', c.Alike k c' → (f c).Alike k (g c')) : (b.update f).Alike k (b'.update g) := by
  obtain ⟨top, blocks⟩ := b
  obtain ⟨top', blocks'⟩ := b'
  obtain ⟨htop, hblocks⟩ := h
  cases hblocks with
  | nil => exact ⟨hfg _ _ htop, .nil⟩
  | cons hblock houter =>
      obtain ⟨hargs, hplace, hcontent⟩ := hblock
      exact ⟨htop, .cons (.repeated hargs hplace (hfg _ _ hcontent)) houter⟩

theorem enter_alike (h : b.Alike k b') {args args' : List (List Token)} {span span' : Span}
    (hargs : List.Forall₂ (Argument k) args args') (hplace : k.place span.start span'.start) :
    (b.enter (.repeated args) span).Alike k (b'.enter (.repeated args') span') := by
  have hflushed := h.update (f := Content.flush) (g := Content.flush) fun _ _ hc => hc.flush
  exact ⟨hflushed.top, .cons (.repeated hargs hplace .empty) hflushed.blocks⟩

theorem close_alike (h : b.Alike k b') (ht : Token.Alike k t t') :
    Both (Report.Alike k) (Builder.Alike k) (b.close t) (b'.close t') := by
  obtain ⟨top, blocks⟩ := b
  obtain ⟨top', blocks'⟩ := b'
  obtain ⟨htop, hblocks⟩ := h
  unfold close
  cases hblocks with
  | nil =>
      dsimp only
      rw [ht.value_eq]
      exact .error ⟨.same _, ht.place⟩
  | @cons block block' outer outer' hblock houter =>
      dsimp only
      rw [hblock.opener_eq, hblock.closer_eq, ht.isDirective_eq, ht.value_eq]
      split
      · refine .ok (Alike.update (⟨htop, houter⟩ : Builder.Alike k ⟨top, outer⟩ ⟨top', outer'⟩) ?_)
        exact fun _ _ hc => hc.attach (hblock.close t t')
      · exact .error ⟨.mismatchedCloser _ _ hblock.place, ht.place⟩

/-- What a step makes of streams that are alike. -/
abbrev Stepped (k : Likeness) : Except Report (Builder × List Token) →
    Except Report (Builder × List Token) → Prop :=
  Both (Report.Alike k) fun out out' => out.1.Alike k out'.1 ∧ Tracks k out.2 out'.2

theorem enterRepeat_alike (h : b.Alike k b') (ht : Token.Alike k t t')
    (hahead : argumentList.ahead ts = argumentList.ahead ts') (hts : Tracks k ts ts') :
    Stepped k (b.enterRepeat t ts) (b'.enterRepeat t' ts') := by
  have hargs := Call.readArguments_alike ht hahead hts
  unfold enterRepeat
  generalize Call.readArguments t ts = x at hargs
  generalize Call.readArguments t' ts' = y at hargs
  cases hargs with
  | error he => exact .error he
  | ok hargs =>
      cases hargs with
      | none => exact .error ⟨.same _, ht.place⟩
      | some hg => exact .ok ⟨enter_alike h (Call.arguments_alike hg.inner) ht.place, hg.rest⟩

theorem directive_alike (h : b.Alike k b') (ht : Token.Alike k t t')
    (hscript : t.isDirective headerStart = false)
    (hahead : argumentList.ahead ts = argumentList.ahead ts') (hts : Tracks k ts ts') :
    Stepped k (b.directive t ts) (b'.directive t' ts') := by
  have hheader : t.isDirective BlockKind.header.opener = false := hscript
  have hheader' : t'.isDirective BlockKind.header.opener = false := ht.isDirective_eq _ ▸ hheader
  unfold directive isCloser
  simp only [← ht.isDirective_eq, ← ht.value_eq, hheader, Bool.false_eq_true, if_false]
  split
  · exact (close_alike h ht).map fun _ _ hb => ⟨hb, hts⟩
  split
  · exact enterRepeat_alike h ht hahead hts
  cases Marker.ofName? (Text.upper t.value) with
  | some m => exact .ok ⟨h.update fun _ _ hc => hc.attach (.marker m ht.place), hts⟩
  | none =>
      have hcall := Call.read_alike ht hahead hts
      dsimp only
      generalize Call.read t ts = x at hcall
      generalize Call.read t' ts' = y at hcall
      cases hcall with
      | error he => exact .error he
      | ok hcall => exact .ok ⟨h.update fun _ _ hc => hc.attach (.call hcall.1), hcall.2⟩

theorem step_alike (h : b.Alike k b') (ht : Token.Alike k t t') (hsig : t.isTrivia = false)
    (hscript : t.isDirective headerStart = false)
    (hahead : t.kind = .directive → argumentList.ahead ts = argumentList.ahead ts')
    (hts : Tracks k ts ts') : Stepped k (b.step t ts) (b'.step t' ts') := by
  unfold step
  rw [h.inHeader_eq.1, h.inHeader_eq.2, ← Token.isOwnDirective_eq ht.lexeme]
  simp only [Bool.false_eq_true, if_false]
  split
  · next hown =>
    have hkind : t.kind = .directive := by
      simp only [Token.isOwnDirective, Bool.and_eq_true, beq_iff_eq] at hown
      exact hown.1
    exact directive_alike h ht hscript (hahead hkind) hts
  · refine .ok ⟨h.update (f := fun c => c.push t) (g := fun c => c.push t') ?_, hts⟩
    intro c c' hc
    exact ⟨hc.nodes, .token ht hsig hc.pending⟩

/-! ### Headers -/

/-- What is read after a header start directive in script. -/
theorem step_headerStart (hb : b.inHeader = false) (ht : t.isDirective headerStart = true)
    (ts : List Token) :
    b.step t ts = (b.enterHeader t).map fun b => (b, ts) := by
  have hcloser : isCloser t = false := isCloser_eq_false ht (by decide) (by decide)
  have hrepeat : t.isDirective (BlockKind.repeated []).opener = false :=
    isDirective_eq_false ht (by decide)
  have hheader : t.isDirective BlockKind.header.opener = true := ht
  rw [step, hb, isOwnDirective_of_mem_reserved (by simp [reserved]) ht, directive, hcloser,
    hrepeat, hheader]
  rfl

/-- Prose is gathered in the header that is open. -/
theorem run_prose {block : OpenBlock} {outer : List OpenBlock} {top : Content}
    (hblock : block.kind = .header) {p : List Token}
    (hp : ∀ t ∈ p, t.kind ≠ .punct ∧ t.kind ≠ .directive) (rest : List Token) :
    run ⟨top, block :: outer⟩ (p ++ rest) =
      run ⟨top, { block with content :=
        { block.content with pending := p.reverse ++ block.content.pending } } :: outer⟩ rest := by
  obtain ⟨kind, span, content⟩ := block
  obtain rfl : kind = .header := hblock
  induction p generalizing content with
  | nil => rfl
  | cons t p ih =>
      obtain ⟨ht, hp⟩ := List.forall_mem_cons.1 hp
      have hstep : step ⟨top, ⟨.header, span, content⟩ :: outer⟩ t (p ++ rest) =
          .ok (⟨top, ⟨.header, span, content.push t⟩ :: outer⟩, p ++ rest) := by
        have hclose : t.isDirective BlockKind.header.closer = false := by
          simp [Token.isDirective, ht.2]
        rw [step, hclose]
        rfl
      rw [List.cons_append, run_of_step hstep, ih hp]
      simp [Content.push]

theorem run_of_step_error {r : Report} (h : b.step t ts = .error r) :
    b.run (t :: ts) = .error r := by
  rw [run]
  split
  · next he =>
    rw [h] at he
    cases he
    rfl
  · next he =>
    rw [h] at he
    cases he

/-- A header is refused within a block, and else attached to the top level. -/
theorem run_header (hb : b.inHeader = false) (ht : t.isDirective headerStart = true)
    {p : List Token} (hp : ∀ t ∈ p, t.kind ≠ .punct ∧ t.kind ≠ .directive) {c : Token}
    (hc : c.isDirective headerEnd = true) (rest : List Token) :
    b.run (t :: (p ++ c :: rest)) =
      match b.blocks with
      | [] => run (b.update fun content =>
          content.attach (.header ⟨p, ⟨t.span.start, c.span.stop⟩⟩)) rest
      | block :: _ => .error ⟨.nestedHeader, t.span, [block.note]⟩ := by
  obtain ⟨top, blocks⟩ := b
  have hstep := step_headerStart hb ht (p ++ c :: rest)
  cases blocks with
  | cons block outer => exact run_of_step_error hstep
  | nil =>
      have hclose : step ⟨top.flush, [⟨.header, t.span, ⟨[], p.reverse ++ []⟩⟩]⟩ c rest =
          .ok (⟨top.flush.attach (.header ⟨p, ⟨t.span.start, c.span.stop⟩⟩), []⟩, rest) := by
        have hcloser : c.isDirective BlockKind.header.closer = true := hc
        rw [step, hcloser]
        simp only [inHeader, if_true, close, hcloser, OpenBlock.close, update, Except.map]
        rw [List.append_nil, List.reverse_reverse]
      have hflush : top.flush.flush = top.flush := by
        unfold Content.flush
        cases hrun : Run.ofTokens? top.pending.reverse with
        | none => simp [hrun]
        | some r => rfl
      rw [run_of_step hstep]
      show run ⟨top.flush, [⟨.header, t.span, {}⟩]⟩ (p ++ c :: rest) = _
      rw [run_prose rfl hp, run_of_step hclose]
      simp only [update, Content.attach, hflush]

/-- A header that is never closed is refused within a block, and else stays open. -/
theorem run_unclosed (hb : b.inHeader = false) (ht : t.isDirective headerStart = true)
    {p : List Token} (hp : ∀ t ∈ p, t.kind ≠ .punct ∧ t.kind ≠ .directive) :
    b.run (t :: p) =
      match b.blocks with
      | [] => .ok ⟨b.top.flush, [⟨.header, t.span, ⟨[], p.reverse⟩⟩]⟩
      | block :: _ => .error ⟨.nestedHeader, t.span, [block.note]⟩ := by
  obtain ⟨top, blocks⟩ := b
  have hstep := step_headerStart hb ht p
  cases blocks with
  | cons block outer => exact run_of_step_error hstep
  | nil =>
      have hprose := @run_prose ⟨.header, t.span, {}⟩ [] top.flush rfl p hp []
      rw [List.append_nil] at hprose
      rw [run_of_step hstep]
      show run ⟨top.flush, [⟨.header, t.span, {}⟩]⟩ p = _
      rw [hprose, run, List.append_nil]

/-! ### Whole streams -/

theorem finish_alike (h : b.Alike k b') :
    Both (Report.Alike k) (List.Forall₂ (Node.Alike k)) b.finish b'.finish := by
  obtain ⟨top, blocks⟩ := b
  obtain ⟨top', blocks'⟩ := b'
  obtain ⟨htop, hblocks⟩ := h
  unfold finish
  cases hblocks with
  | nil => exact .ok htop.finish
  | @cons block block' outer outer' hblock houter =>
      have hnames : List.Forall₂ (fun x y => x.1 = y.1 ∧ k.place x.2 y.2)
          ((block :: outer).reverse.map fun block => (block.kind.opener, block.span.start))
          ((block' :: outer').reverse.map fun block => (block.kind.opener, block.span.start)) := by
        rw [List.forall₂_map_left_iff, List.forall₂_map_right_iff]
        apply (List.rel_reverse (.cons hblock houter)).imp
        exact fun _ _ hblock => ⟨hblock.opener_eq, hblock.place⟩
      exact .error ⟨.openBlocks hnames, hblock.place⟩

/-- Streams with other gaps are built into blocks that are alike, or refused alike. -/
theorem build_alike (h : b.Alike k b') (hts : Tracks k ts ts') :
    Both (Report.Alike k) (List.Forall₂ (Node.Alike k)) ((b.run ts).bind finish)
      ((b'.run ts').bind finish) := by
  induction hn : ts.length using Nat.strongRecOn generalizing b b' ts ts' with
  | _ n ih =>
      obtain ⟨hb, hb'⟩ := h.inHeader_eq
      rcases hts.uncons with ⟨rfl, rfl⟩ |
          ⟨t, t', us, us', rfl, rfl, halike, hsig, hscript, hahead, hrest⟩ |
          ⟨g, g', us, us', rfl, rfl, hgap, hrest⟩ |
          ⟨o, o', c, c', p, p', us, us', rfl, rfl, hstart, hopens, hprose, hfinish, hcloses,
            hrest⟩ |
          ⟨o, o', p, p', rfl, rfl, hstart, hopens, hprose⟩
      · rw [run, run]
        exact finish_alike h
      · have hstep := step_alike h halike hsig hscript hahead hrest
        generalize hx : b.step t us = x at hstep
        generalize hy : b'.step t' us' = y at hstep
        cases hstep with
        | error he =>
            rw [run_of_step_error hx, run_of_step_error hy]
            exact .error he
        | @ok out out' hout =>
            have hle := length_step_le hx
            rw [List.length_cons] at hn
            rw [run_of_step hx, run_of_step hy]
            exact ih out.2.length (by omega) hout.1 hout.2 rfl
      · have hnative {g : List Token} (hg : ∀ t ∈ g, t.isTrivia = true) :
            ∀ t ∈ g, t.isOwnDirective = false := by
          intro t ht
          simp [Token.isOwnDirective, (kind_of_isTrivia (hg t ht)).2]
        have hpos := List.length_pos_of_ne_nil hgap.nonempty
        rw [List.length_append] at hn
        rw [run_native (hnative hgap.trivia) hb, run_native (hnative hgap.trivia') hb']
        exact ih us.length (by omega) (h.update fun _ _ hc => hc.gather (.of_gap hgap)) hrest rfl
      · have hopens' := hstart.isDirective_eq headerStart ▸ hopens
        have hcloses' := hfinish.isDirective_eq headerEnd ▸ hcloses
        have hblocks := h.blocks
        rw [run_header hb hopens hprose.punct.1 hcloses,
          run_header hb' hopens' hprose.punct.2 hcloses']
        generalize b.blocks = blocks at hblocks
        generalize b'.blocks = blocks' at hblocks
        cases hblocks with
        | cons _ _ => exact .error ⟨.same _, hstart.place⟩
        | nil =>
            simp only [List.length_cons, List.length_append] at hn
            refine ih us.length (by omega) (h.update fun _ _ hc => hc.attach ?_) hrest rfl
            exact .header (hprose.lines _ _)
      · have hopens' := hstart.isDirective_eq headerStart ▸ hopens
        have hblocks := h.blocks
        rw [run_unclosed hb hopens hprose.punct.1, run_unclosed hb' hopens' hprose.punct.2]
        generalize b.blocks = blocks at hblocks
        generalize b'.blocks = blocks' at hblocks
        cases hblocks with
        | cons _ _ => exact .error ⟨.same _, hstart.place⟩
        | nil => exact .error ⟨.openBlocks (.cons ⟨rfl, hstart.place⟩ .nil), hstart.place⟩

end Builder

/-- Scripts with parts that are alike, from one place on. -/
def Script.Alike {α : Type} (R : List α → List α → Prop) (s s' : Script α) : Prop :=
  R s.parts s'.parts ∧ s.span.start = s'.span.start

/-- Streams with other gaps make scripts that are alike. -/
theorem Script.ofStream_alike {s s' : TokenStream} (h : Tracks k s.tokens s'.tokens) :
    Both (Report.Alike k) (Script.Alike (Node.AlikeAll k)) (ofStream s) (ofStream s') := by
  have hbuild := Builder.build_alike (⟨.empty, .nil⟩ : Builder.Alike k {} {}) h
  have hstream (s : TokenStream) : ofStream s =
      ((Builder.run {} s.tokens).bind Builder.finish).map fun nodes =>
        ⟨nodes, ⟨.origin, s.stop⟩⟩ := by
    unfold ofStream
    cases Builder.run {} s.tokens with
    | error r => rfl
    | ok b =>
        show _ = (b.finish).map _
        dsimp only
        cases b.finish <;> rfl
  rw [hstream, hstream]
  exact hbuild.map fun _ _ hnodes => ⟨Node.alikeAll_of_forall₂ hnodes, rfl⟩

end MapScript
