import MapScript.Proofs.Grammar.Acceptance

/-!
# The tokens of blocks

What the blocks of a script are made of: `Spells` reads blocks back as the tokens
they take up, the brackets and the commas of calls included, and what is left after
them.  The builder keeps its finished blocks, its open ones and the tokens that are
to be made a run in step with the tokens it has read: whatever it does with a token,
the token is found again where it stood.
-/

namespace MapScript

open Lexer (headerStart headerEnd)

namespace Grammar

/-! ### Calls -/

/-- The part that stands first, if one begins there: the tokens between its brackets
and those that follow it. -/
inductive Part.Takes (p : Part) : List Token → Option (List Token) → List Token → Prop
  | present {gaps inner rest : List Token} {o c : Token} (gap : ∀ t ∈ gaps, p.gap t = true)
      (opener : o.isPunct p.opener = true) (within : Balanced p inner)
      (closer : c.isPunct p.closer = true) :
      Takes p (gaps ++ o :: (inner ++ c :: rest)) (some inner) rest
  | absent {ts : List Token} (missing : p.ahead ts = false) : Takes p ts none ts

/-- Arguments with a comma between neighbours make up a row of tokens. -/
inductive Joined : List (List Token) → List Token → Prop
  | empty : Joined [] []
  | last (arg : List Token) : Joined [arg] arg
  | comma {arg next row : List Token} {more : List (List Token)} {t : Token}
      (comma : t.isPunct ',' = true) (rest : Joined (next :: more) row) :
      Joined (arg :: next :: more) (arg ++ t :: row)

/-- A token in front of the first argument stands in front of the row. -/
theorem Joined.consFirst {t : Token} {args : List (List Token)} {row : List Token}
    (h : Joined args row) (hne : args ≠ []) : Joined (Call.consFirst t args) (t :: row) := by
  cases h with
  | empty => exact absurd rfl hne
  | last => exact .last (t :: row)
  | @comma arg _ _ _ _ hcomma hrest => exact @Joined.comma (t :: arg) _ _ _ _ hcomma hrest

/-- The arguments of a list in parentheses, given the tokens between these: joined by
commas they are the significant ones, and where there are none there is no argument. -/
structure Lists (args : List (List Token)) (inner : List Token) : Prop where
  joined : Joined args (Token.significant inner)
  ne_blank : args ≠ [[]]

/-- The call stands first and the rest follows it: a directive, then the argument list
and the body, where they begin. -/
inductive CallTakes : Call → List Token → List Token → Prop
  | mk {c : Call} {t : Token} {ts taken mid rest : List Token} {args : Option (List Token)}
      (directive : IsCall t) (name : c.name = Text.upper t.value)
      (arguments : argumentList.Takes ts args mid) (listed : Lists c.args (args.getD []))
      (content : callBody.Takes mid c.body rest) (split : ts = taken ++ rest)
      (span : c.span = Token.spanOf t taken) : CallTakes c (t :: ts) rest

/-! ### Blocks -/

end Grammar

/-- Whether a block is a run. -/
def Node.isRun : Node → Bool
  | .run _ => true
  | _ => false

namespace Grammar

/-- The blocks, one after the other, take up the tokens before the rest; no run follows
another. -/
inductive Spells : List Node → List Token → List Token → Prop
  | nil {rest : List Token} : Spells [] rest rest
  | run {t : Token} {ts us rest : List Token} {ns : List Node}
      (apart : ns.head?.any Node.isRun = false) (later : Spells ns us rest) :
      Spells (.run ⟨t :: ts, Token.spanOf t ts⟩ :: ns) (t :: (ts ++ us)) rest
  | marker {t : Token} {us rest : List Token} {ns : List Node} {m : Marker}
      (name : t.isDirective m.name = true) (later : Spells ns us rest) :
      Spells (.marker m t.span :: ns) (t :: us) rest
  | header {t e : Token} {prose us rest : List Token} {ns : List Node}
      (start : t.isDirective headerStart = true)
      (within : ∀ u ∈ prose, u.isDirective headerEnd = false)
      (finish : e.isDirective headerEnd = true) (later : Spells ns us rest) :
      Spells (.header ⟨prose, ⟨t.span.start, e.span.stop⟩⟩ :: ns) (t :: (prose ++ e :: us)) rest
  | call {c : Call} {ts us rest : List Token} {ns : List Node} (taken : CallTakes c ts us)
      (later : Spells ns us rest) : Spells (.call c :: ns) ts rest
  | repeated {t e : Token} {args : List (List Token)} {taken inner mid us rest : List Token}
      {children ns : List Node} (start : t.isDirective "REPEAT".toList = true)
      (count : argumentList.Takes (taken ++ mid) (some inner) mid) (listed : Lists args inner)
      (within : Spells children mid (e :: us))
      (finish : e.isDirective "END_REPEAT".toList = true) (later : Spells ns us rest) :
      Spells (.repeated args children (Token.spanOf t taken) ⟨t.span.start, e.span.stop⟩ :: ns)
        (t :: (taken ++ mid)) rest

/-- Blocks after blocks, of which not both are runs where they meet. -/
theorem Spells.append {ns ms : List Node} {ts mid rest : List Token} (h : Spells ns ts mid)
    (h' : Spells ms mid rest)
    (hapart : ns.getLast?.any Node.isRun = false ∨ ms.head?.any Node.isRun = false) :
    Spells (ns ++ ms) ts rest := by
  have hlater {n : Node} {ns : List Node}
      (hapart : (n :: ns).getLast?.any Node.isRun = false ∨ ms.head?.any Node.isRun = false) :
      ns.getLast?.any Node.isRun = false ∨ ms.head?.any Node.isRun = false := by
    cases ns with
    | nil => exact Or.inl rfl
    | cons m ns => simpa using hapart
  induction h with
  | nil => exact h'
  | @run t ts us mid ns happart _ ih =>
      refine .run ?_ (ih h' (hlater hapart))
      cases ns with
      | nil => simpa [Node.isRun] using hapart
      | cons n ns => exact happart
  | marker hname _ ih => exact .marker hname (ih h' (hlater hapart))
  | header hstart hwithin hfinish _ ih =>
      exact .header hstart hwithin hfinish (ih h' (hlater hapart))
  | call htaken _ ih => exact .call htaken (ih h' (hlater hapart))
  | repeated hstart hcount hlisted hwithin hfinish _ _ ih =>
      exact .repeated hstart hcount hlisted hwithin hfinish (ih h' (hlater hapart))

end Grammar

/-! ### Reading calls -/

namespace Call

open Grammar

theorem splitCommas_ne_nil (depth : Nat) (ts : List Token) : splitCommas depth ts ≠ [] := by
  have hcons (t : Token) (args : List (List Token)) : consFirst t args ≠ [] := by
    cases args <;> simp [consFirst]
  induction ts generalizing depth with
  | nil => simp [splitCommas]
  | cons t ts ih =>
      rw [splitCommas]
      split_ifs
      · exact hcons t _
      · exact hcons t _
      · simp
      · exact ih depth
      · exact hcons t _

/-- The pieces between commas are the significant tokens, the commas put back. -/
theorem joined_splitCommas (depth : Nat) (ts : List Token) :
    Joined (splitCommas depth ts) (Token.significant ts) := by
  induction ts generalizing depth with
  | nil => exact .last []
  | cons t ts ih =>
      have hfirst (d : Nat) (ht : t.isTrivia = false) :
          Joined (Call.consFirst t (splitCommas d ts)) (Token.significant (t :: ts)) := by
        rw [Token.significant_cons, ht]
        exact (ih d).consFirst (splitCommas_ne_nil d ts)
      rw [splitCommas]
      split_ifs with hopen hclose hcomma htrivia
      · exact hfirst _ (Token.isTrivia_of_isPunct hopen)
      · exact hfirst _ (Token.isTrivia_of_isPunct hclose)
      · have ht := (Bool.and_eq_true_iff.1 hcomma).1
        obtain ⟨next, more, heq⟩ := List.exists_cons_of_ne_nil (splitCommas_ne_nil depth ts)
        have hrest := ih depth
        rw [Token.significant_cons, Token.isTrivia_of_isPunct ht, heq]
        rw [heq] at hrest
        exact @Joined.comma [] _ _ _ _ ht hrest
      · rw [Token.significant_cons, htrivia]
        exact ih depth
      · exact hfirst _ (by simpa using htrivia)

theorem lists_arguments (inner : List Token) : Lists (arguments inner) inner := by
  have hjoined := joined_splitCommas 0 inner
  unfold arguments
  split
  · next hblank =>
    rw [hblank] at hjoined
    refine ⟨?_, by simp⟩
    cases hsig : Token.significant inner with
    | nil => exact .empty
    | cons t ts =>
        rw [hsig] at hjoined
        cases hjoined
  · next hne => exact ⟨hjoined, hne⟩

end Call

namespace Grammar.Part

variable {p : Part}

/-- A group that is found where a part begins takes up the tokens before its rest. -/
theorem takes_of_group? {ts : List Token} {found : Option Group}
    (h : p.group? ts = found.map .ok) :
    p.Takes ts (found.map Group.inner) ((found.map Group.rest).getD ts) := by
  cases found with
  | none => exact .absent (group?_eq_none_iff.1 h)
  | some g =>
      have hsplit := List.takeWhile_append_dropWhile (p := p.gap) (l := ts)
      unfold group? at h
      split at h
      · next t rest hdrop =>
        split at h
        · next hopener =>
          obtain ⟨hinner, hcloser, rfl⟩ := Group.readPart_eq_ok_iff.1 (Option.some.inj h)
          rw [hdrop] at hsplit
          have htakes : p.Takes (ts.takeWhile p.gap ++ t :: (g.inner ++ g.closer :: g.rest))
              (some g.inner) g.rest :=
            .present (fun u hu => List.mem_takeWhile_imp hu) hopener hinner hcloser
          rwa [hsplit] at htakes
        · cases h
      · cases h

/-- The last token of a part that is found is the one that closes it. -/
theorem exists_taken {ts : List Token} {g : Group} (h : p.group? ts = some (.ok g)) :
    ∃ front, ts = (front ++ [g.closer]) ++ g.rest := by
  have hsplit := List.takeWhile_append_dropWhile (p := p.gap) (l := ts)
  unfold group? at h
  split at h
  · next t rest hdrop =>
    split at h
    · obtain ⟨-, -, rfl⟩ := Group.readPart_eq_ok_iff.1 (Option.some.inj h)
      refine ⟨ts.takeWhile p.gap ++ t :: g.inner, ?_⟩
      rw [hdrop] at hsplit
      calc ts = ts.takeWhile p.gap ++ t :: (g.inner ++ g.closer :: g.rest) := hsplit.symm
        _ = (ts.takeWhile p.gap ++ t :: g.inner ++ [g.closer]) ++ g.rest := by simp
    · cases h
  · cases h

end Grammar.Part

namespace Token

/-- The last of some tokens ends where the last that ends them does. -/
theorem spanOf_append_singleton (t : Token) (ts : List Token) (last : Token) :
    spanOf t (ts ++ [last]) = ⟨t.span.start, last.span.stop⟩ := by
  simp [spanOf]

end Token

namespace Call

open Grammar

/-- The end of a part that is read, or of what stands before it. -/
theorem stop_of_group? {p : Part} {t : Token} {front ts : List Token} {found : Option Group}
    (h : p.group? ts = found.map .ok) :
    ∃ taken, ts = taken ++ (found.map Group.rest).getD ts ∧
      Token.spanOf t (front ++ taken) =
        ⟨t.span.start, ((found.map Group.closer).getD
          ((t :: front).getLast (by simp))).span.stop⟩ := by
  cases found with
  | none => exact ⟨[], rfl, by simp [Token.spanOf]⟩
  | some g =>
      obtain ⟨before, hsplit⟩ := Part.exists_taken h
      refine ⟨before ++ [g.closer], hsplit, ?_⟩
      rw [← List.append_assoc, Token.spanOf_append_singleton]
      rfl

/-- A call that is read stands first. -/
theorem takes_of_read {t : Token} {ts rest : List Token} {c : Call} (ht : IsCall t)
    (h : read t ts = .ok (c, rest)) : CallTakes c (t :: ts) rest := by
  unfold read at h
  split at h
  · cases h
  next args hargs =>
  dsimp only at h
  split at h
  · cases h
  next content hcontent =>
    simp only [Except.ok.injEq, Prod.mk.injEq] at h
    obtain ⟨rfl, rfl⟩ := h
    have hlist := readArguments_eq_ok_iff.1 hargs
    have hbody := readBody_eq_ok_iff.1 hcontent
    obtain ⟨first, hfirst, hspan⟩ := @stop_of_group? _ t [] _ _ hlist
    obtain ⟨second, hsecond, hspan'⟩ := @stop_of_group? _ t first _ _ hbody
    have hts : ts = (first ++ second) ++
        (content.map Group.rest).getD ((args.map Group.rest).getD ts) := by
      rw [List.append_assoc, ← hsecond, ← hfirst]
    have hlisted : Lists ((args.map fun g => arguments g.inner).getD [])
        ((args.map Group.inner).getD []) := by
      cases args with
      | none => exact ⟨.empty, by simp⟩
      | some g => exact lists_arguments g.inner
    -- the span of the call is that of its tokens: its last part closes it
    have hstop : Token.spanOf t (first ++ second) =
        ⟨t.span.start, ((content.map Group.closer).getD
          ((args.map Group.closer).getD t)).span.stop⟩ := by
      have hlast : ((t :: first).getLast (by simp)).span.stop =
          ((args.map Group.closer).getD t).span.stop := by
        have := congrArg Span.stop hspan
        simpa [Token.spanOf] using this
      rw [hspan']
      cases content with
      | none => exact congrArg _ hlast
      | some g => rfl
    exact .mk ht rfl (Part.takes_of_group? hlist) hlisted (Part.takes_of_group? hbody) hts
      hstop.symm

end Call

/-! ### Open blocks -/

namespace Content

open Grammar

/-- The finished blocks take up the tokens before the rest, and nothing waits to be made
a run. -/
structure Settled (c : Content) (ts rest : List Token) : Prop where
  pending : c.pending = []
  spelled : Spells c.nodes.reverse ts rest

/-- The finished blocks and then the tokens that wait take up the tokens before the rest;
the last block is no run, so those that wait are not part of one. -/
structure Gathers (c : Content) (ts rest : List Token) : Prop where
  apart : c.nodes.head?.any Node.isRun = false
  spelled : Spells c.nodes.reverse ts (c.pending.reverse ++ rest)

theorem Gathers.start (ts : List Token) : Gathers {} ts ts := ⟨rfl, .nil⟩

theorem Gathers.push {c : Content} {t : Token} {ts rest : List Token}
    (h : c.Gathers ts (t :: rest)) : (c.push t).Gathers ts rest := by
  refine ⟨h.apart, ?_⟩
  have hspelled := h.spelled
  rwa [List.append_cons, ← List.reverse_cons] at hspelled

/-- Once the tokens that wait are a run, none waits. -/
theorem Gathers.flush {c : Content} {ts rest : List Token} (h : c.Gathers ts rest) :
    c.flush.Settled ts rest := by
  have hspelled := h.spelled
  unfold Content.flush
  cases hpending : c.pending.reverse with
  | nil =>
      rw [hpending] at hspelled
      exact ⟨List.reverse_eq_nil_iff.1 hpending, hspelled⟩
  | cons u us =>
      rw [hpending] at hspelled
      refine ⟨rfl, ?_⟩
      show Spells (Node.run ⟨u :: us, Token.spanOf u us⟩ :: c.nodes).reverse ts rest
      rw [List.reverse_cons]
      refine hspelled.append (.run rfl .nil) (Or.inl ?_)
      rw [List.getLast?_reverse]
      exact h.apart

theorem Settled.flush_eq {c : Content} {ts rest : List Token} (h : c.Settled ts rest) :
    c.flush = c := by
  rw [Content.flush, h.pending]
  rfl

/-- A block that is no run follows those that are settled. -/
theorem Settled.attach {c : Content} {n : Node} {ts mid rest : List Token}
    (h : c.flush.Settled ts mid) (hrun : n.isRun = false) (hn : Spells [n] mid rest) :
    (c.attach n).Gathers ts rest := by
  refine ⟨by simp [Content.attach, hrun], ?_⟩
  have hspelled := h.spelled.append hn (Or.inr (by simp [hrun]))
  simpa [Content.attach, h.pending] using hspelled

theorem Gathers.finish {c : Content} {ts rest : List Token} (h : c.Gathers ts rest) :
    Spells c.finish ts rest := h.flush.spelled

end Content

namespace OpenBlock

open Grammar

/-- The block is opened by the tokens before the rest, whatever it holds. -/
inductive Opens : OpenBlock → List Token → List Token → Prop
  | repeated {t : Token} {args : List (List Token)} {taken inner rest : List Token} {c : Content}
      (start : t.isDirective "REPEAT".toList = true)
      (count : argumentList.Takes (taken ++ rest) (some inner) rest) (listed : Lists args inner) :
      Opens ⟨.repeated args, Token.spanOf t taken, c⟩ (t :: (taken ++ rest)) rest
  | header {t : Token} {rest : List Token} {c : Content}
      (start : t.isDirective headerStart = true) : Opens ⟨.header, t.span, c⟩ (t :: rest) rest

/-- Prose holds no block and does not end its header. -/
def Prose (c : Content) : Prop :=
  c.nodes = [] ∧ ∀ t ∈ c.pending, t.isDirective headerEnd = false

/-- A block that is closed takes up what opens it, what it holds and what closes it. -/
theorem spells_close {block : OpenBlock} {t : Token} {mid ts rest : List Token}
    (hopens : block.Opens mid ts) (hcloser : t.isDirective block.kind.closer = true)
    (hcontent : block.content.Gathers ts (t :: rest))
    (hprose : block.kind = .header → Prose block.content) : Spells [block.close t] mid rest := by
  cases hopens with
  | repeated hstart hcount hlisted =>
      exact .repeated hstart hcount hlisted hcontent.finish hcloser .nil
  | @header o _ c hstart =>
      obtain ⟨hnodes, hwithin⟩ := hprose rfl
      have hspelled := hcontent.spelled
      change c.nodes = [] at hnodes
      change Spells c.nodes.reverse ts (c.pending.reverse ++ t :: rest) at hspelled
      rw [hnodes] at hspelled
      have hts : ts = c.pending.reverse ++ t :: rest := by
        cases hspelled
        rfl
      rw [hts]
      exact .header hstart (fun u hu => hwithin u (List.mem_reverse.1 hu)) hcloser .nil

theorem isRun_close (block : OpenBlock) (t : Token) : (block.close t).isRun = false := by
  unfold close
  cases block.kind <;> rfl

end OpenBlock

namespace Builder

open Grammar

/-- What the innermost open block holds, or the top level. -/
def innermost (b : Builder) : Content :=
  match b.blocks with
  | [] => b.top
  | block :: _ => block.content

/-- The innermost open block begins, after what opens it, where the given tokens do;
the blocks around it have nothing waiting, and none of them is a header. -/
inductive Leads (all : List Token) : Builder → List Token → Prop
  | top {c : Content} : Leads all ⟨c, []⟩ all
  | opened {top : Content} {block : OpenBlock} {outer : List OpenBlock} {ts mid rest : List Token}
      (around : Leads all ⟨top, outer⟩ ts) (script : (Builder.mk top outer).inHeader = false)
      (settled : (Builder.mk top outer).innermost.Settled ts mid) (opens : block.Opens mid rest) :
      Leads all ⟨top, block :: outer⟩ rest

/-- All the tokens are found in what the builder has read, or are still to be read. -/
structure Holds (all : List Token) (b : Builder) (ts rest : List Token) : Prop where
  leads : Leads all b ts
  gathers : b.innermost.Gathers ts rest
  prose : b.inHeader = true → OpenBlock.Prose b.innermost

section
variable {all ts mid rest : List Token} {b b' : Builder} {t : Token} {f : Content → Content}

theorem innermost_update : (b.update f).innermost = f b.innermost := by
  obtain ⟨top, _ | ⟨block, outer⟩⟩ := b <;> rfl

/-- Where the innermost block begins does not depend on what it holds. -/
theorem Leads.update (h : Leads all b ts) : Leads all (b.update f) ts := by
  cases h with
  | top => exact .top
  | opened haround hscript hsettled hopens =>
      refine .opened haround hscript hsettled ?_
      cases hopens with
      | repeated hstart hcount hlisted => exact .repeated hstart hcount hlisted
      | header hstart => exact .header hstart

/-- A token that is taken as it is waits. -/
theorem Holds.push (h : Holds all b ts (t :: rest))
    (hprose : b.inHeader = true → t.isDirective headerEnd = false) :
    Holds all (b.update fun c => c.push t) ts rest := by
  refine ⟨h.leads.update, ?_, ?_⟩
  · rw [innermost_update]
    exact h.gathers.push
  · rw [inHeader_update, innermost_update]
    intro hin
    obtain ⟨hnodes, hwithin⟩ := h.prose hin
    exact ⟨hnodes, List.forall_mem_cons.2 ⟨hprose hin, hwithin⟩⟩

/-- A block that is finished at once is attached. -/
theorem Holds.attach {n : Node} (h : Holds all b ts mid) (hscript : b.inHeader = false)
    (hrun : n.isRun = false) (hn : Spells [n] mid rest) :
    Holds all (b.update fun c => c.attach n) ts rest := by
  refine ⟨h.leads.update, ?_, ?_⟩
  · rw [innermost_update]
    exact h.gathers.flush.attach hrun hn
  · rw [inHeader_update, hscript]
    exact fun hin => nomatch hin

/-- A block that is opened begins behind what opens it. -/
theorem Holds.enter {kind : BlockKind} {span : Span} (h : Holds all b ts mid)
    (hscript : b.inHeader = false) (hopens : OpenBlock.Opens ⟨kind, span, {}⟩ mid rest) :
    Holds all (b.enter kind span) rest rest := by
  refine ⟨.opened h.leads.update (hscript ▸ inHeader_update b Content.flush) ?_ hopens,
    .start rest, fun _ => ⟨rfl, fun u hu => nomatch hu⟩⟩
  show (b.update Content.flush).innermost.Settled ts mid
  rw [innermost_update]
  exact h.gathers.flush

/-- A block that is closed is attached to the one around it. -/
theorem Holds.close (h : Holds all b ts (t :: rest)) (hclose : b.close t = .ok b') :
    ∃ ts', Holds all b' ts' rest := by
  obtain ⟨hleads, hgathers, hprose⟩ := h
  cases hleads with
  | top => cases hclose
  | @opened top block outer ts' mid _ haround hscript hsettled hopens =>
      unfold Builder.close at hclose
      dsimp only at hclose
      split at hclose
      · next hcloser =>
        cases hclose
        have hspells := OpenBlock.spells_close hopens hcloser hgathers ?_
        · refine ⟨ts', haround.update, ?_, ?_⟩
          · rw [innermost_update]
            refine Content.Settled.attach ?_ (block.isRun_close t) hspells
            rwa [hsettled.flush_eq]
          · rw [inHeader_update, hscript]
            exact fun hin => nomatch hin
        · intro hkind
          obtain ⟨kind, span, content⟩ := block
          cases hkind
          exact hprose rfl
      · cases hclose

theorem exists_of_map {x : Except Report Builder} (h : x.map (fun b => (b, ts)) = .ok (b', rest)) :
    x = .ok b' ∧ ts = rest := by
  cases x with
  | error e => cases h
  | ok c =>
      cases h
      exact ⟨rfl, rfl⟩

theorem Holds.enterRepeat {us : List Token} (h : Holds all b us (t :: ts))
    (hscript : b.inHeader = false) (hstart : t.isDirective "REPEAT".toList = true)
    (hstep : b.enterRepeat t ts = .ok (b', rest)) : Holds all b' rest rest := by
  unfold Builder.enterRepeat at hstep
  split at hstep
  · cases hstep
  · cases hstep
  · next g hg =>
    simp only [Except.ok.injEq, Prod.mk.injEq] at hstep
    obtain ⟨rfl, rfl⟩ := hstep
    have hgroup := Call.readArguments_eq_ok_iff.1 hg
    have htakes := Part.takes_of_group? hgroup
    obtain ⟨front, hsplit⟩ := Part.exists_taken hgroup
    refine h.enter hscript ?_
    rw [← Token.spanOf_append_singleton t front g.closer]
    change argumentList.Takes ts (some g.inner) g.rest at htakes
    rw [hsplit] at htakes
    nth_rewrite 1 [hsplit]
    exact .repeated hstart htakes (Call.lists_arguments g.inner)

/-- A directive keeps all the tokens. -/
theorem Holds.directive {us : List Token} (h : Holds all b us (t :: ts))
    (hscript : b.inHeader = false) (hown : t.isOwnDirective = true)
    (hstep : b.directive t ts = .ok (b', rest)) : ∃ us', Holds all b' us' rest := by
  unfold Builder.directive at hstep
  split at hstep
  · obtain ⟨hclose, rfl⟩ := exists_of_map hstep
    exact h.close hclose
  next hcloser =>
  split at hstep
  · next hrepeat => exact ⟨rest, h.enterRepeat hscript hrepeat hstep⟩
  next hrepeat =>
  split at hstep
  · next hheader =>
    obtain ⟨henter, rfl⟩ := exists_of_map hstep
    unfold Builder.enterHeader at henter
    split at henter
    · cases henter
      exact ⟨ts, h.enter hscript (.header hheader)⟩
    · cases henter
  next hheader =>
  split at hstep
  · next m hm =>
    cases hstep
    have hkind : t.kind = .directive := by
      simp only [Token.isOwnDirective, Bool.and_eq_true, beq_iff_eq] at hown
      exact hown.1
    have hname : t.isDirective m.name = true := by
      simp [Token.isDirective, hkind, Marker.ofName?_eq_some_iff.1 hm]
    exact ⟨us, h.attach hscript rfl (.marker hname .nil)⟩
  next hmarker =>
  split at hstep
  · cases hstep
  · next call after hcall =>
    cases hstep
    have hcalls := isCall_of_directive hown hcloser hrepeat hheader hmarker
    exact ⟨us, h.attach hscript rfl (.call (Call.takes_of_read hcalls hcall) .nil)⟩

/-- Every step keeps all the tokens. -/
theorem Holds.step {us : List Token} (h : Holds all b us (t :: ts))
    (hstep : b.step t ts = .ok (b', rest)) : ∃ us', Holds all b' us' rest := by
  unfold Builder.step at hstep
  split at hstep
  · split at hstep
    · obtain ⟨hclose, rfl⟩ := exists_of_map hstep
      exact h.close hclose
    · next hend =>
      cases hstep
      exact ⟨us, h.push fun _ => Bool.eq_false_iff.2 hend⟩
  next hin =>
  have hscript : b.inHeader = false := by simpa using hin
  split at hstep
  · next hown => exact h.directive hscript hown hstep
  · cases hstep
    exact ⟨us, h.push fun hin => by simp [hscript] at hin⟩

/-- All the tokens are found in what the builder has read when none is left. -/
theorem Holds.run {us : List Token} (h : Holds all b us ts) (hrun : b.run ts = .ok b') :
    ∃ us', Holds all b' us' [] := by
  induction b, ts using Builder.run.induct generalizing us with
  | case1 b =>
      rw [Builder.run] at hrun
      cases hrun
      exact ⟨us, h⟩
  | case2 b t ts r hr =>
      rw [Builder.run] at hrun
      split at hrun
      · cases hrun
      · next hok =>
        rw [hr] at hok
        cases hok
  | case3 b t ts b₁ rest₁ hr ih =>
      rw [Builder.run] at hrun
      split at hrun
      · cases hrun
      · next hok =>
        rw [hr] at hok
        cases hok
        obtain ⟨us', hnext⟩ := h.step hr
        exact ih hnext hrun

end

end Builder

/-- The blocks of a script take up all of its tokens. -/
theorem Script.spells_of_ofStream {stream : TokenStream} {script : Script Node}
    (h : Script.ofStream stream = .ok script) :
    Grammar.Spells script.parts stream.tokens [] ∧ script.span = ⟨.origin, stream.stop⟩ := by
  unfold Script.ofStream at h
  split at h
  · cases h
  next b hrun =>
  split at h
  · cases h
  next nodes hfinish =>
    cases h
    refine ⟨?_, rfl⟩
    obtain ⟨us, hleads, hgathers, -⟩ :=
      Builder.Holds.run ⟨.top, .start stream.tokens, fun hin => nomatch hin⟩ hrun
    cases hleads with
    | top =>
        cases hfinish
        exact hgathers.finish
    | opened => cases hfinish

end MapScript
