import MapScript.Proofs.Grammar.BlockTokens
import MapScript.Proofs.Lexing.Place

/-!
# The blocks cover the script

The spans of the blocks of a script lie end to end from its start to its end, those of
a repeated block from behind the directive that opens it to the one that closes it, and
what a run or a call holds is what stands in the script there.  This reads `Spells` at
the places of the tokens: tokens in a row begin where those before them end.
-/

namespace MapScript

/-! ### Spans -/

namespace Span

/-- The text of a part of the script. -/
def slice (source : Text) (s : Span) : Text := (source.take s.stop.offset).drop s.start.offset

/-- The parts lie end to end between two places, and none is empty. -/
def Tiles : Position → Position → List Span → Prop
  | start, stop, [] => start = stop
  | start, stop, s :: rest =>
    s.start = start ∧ s.start.offset < s.stop.offset ∧ Tiles s.stop stop rest

theorem slice_after (front inner rest : Text) :
    slice (front ++ inner ++ rest) ⟨.after front, .after (front ++ inner)⟩ = inner := by
  rw [slice, Position.offset_after, Position.offset_after, List.take_left, List.drop_left]

end Span

namespace Token

/-- Tokens that lie end to end from the start of the script, none of them empty. -/
structure Placed (ts : List Token) : Prop where
  adjoin : Adjoin .origin ts
  ne_nil : ∀ t ∈ ts, t.raw ≠ []

/-- Tokens in a row reach from the end of those before them to their own. -/
theorem Placed.spanOf_eq {t : Token} {front ts rest : List Token}
    (h : Placed (front ++ (t :: ts) ++ rest)) :
    spanOf t ts = ⟨.after (rawText front), .after (rawText (front ++ t :: ts))⟩ := by
  obtain ⟨before, last, hlast⟩ : ∃ before last, t :: ts = before ++ [last] :=
    ⟨_, _, (List.dropLast_append_getLast (List.cons_ne_nil t ts)).symm⟩
  have hstop : (spanOf t ts).stop = last.span.stop := by
    simp [spanOf, hlast]
  have hadjoin := h.adjoin
  have hadjoin' := h.adjoin
  rw [List.append_assoc, adjoin_append_iff, Position.advance_origin] at hadjoin
  rw [hlast, ← List.append_assoc, List.append_assoc, adjoin_append_iff,
    Position.advance_origin] at hadjoin'
  obtain ⟨-, hfirst, -⟩ := hadjoin
  obtain ⟨-, hend, -⟩ := hadjoin'
  have hstart : (spanOf t ts).start = .after (rawText front) := by
    rw [show (spanOf t ts).start = t.span.start from rfl, hfirst]
  rw [hend, Position.advance_after] at hstop
  rw [show spanOf t ts = ⟨(spanOf t ts).start, (spanOf t ts).stop⟩ from rfl, hstart, hstop, hlast,
    ← List.append_assoc, rawText_append _ [last]]
  simp [rawText]

/-- The text of tokens in a row is what stands in the script there, and is not empty. -/
theorem Placed.slice_eq {t : Token} {front ts rest : List Token}
    (h : Placed (front ++ (t :: ts) ++ rest)) :
    (spanOf t ts).slice (rawText (front ++ (t :: ts) ++ rest)) = rawText (t :: ts) := by
  rw [h.spanOf_eq, rawText_append, rawText_append]
  exact Span.slice_after _ _ _

end Token

/-! ### Blocks at their places -/

/-- The part of the script a block takes up. -/
def Node.span : Node → Span
  | .run r => r.span
  | .marker _ span => span
  | .call c => c.span
  | .repeated _ _ _ span => span
  | .header h => h.span

/-- No run follows another. -/
def Node.Apart (ns : List Node) : Prop := ns.IsChain fun n m => ¬ (n.isRun = true ∧ m.isRun = true)

/-- The run is not empty and its text is what stands in the script there. -/
structure Run.Intact (source : Text) (r : Run) : Prop where
  ne_nil : r.tokens ≠ []
  text : Token.rawText r.tokens = r.span.slice source

/-- A block, and all blocks in it, hold what stands in the script there. -/
inductive Node.Intact (source : Text) (tokens : List Token) : Node → Prop
  | run {r : Run} (intact : r.Intact source) : Intact source tokens (.run r)
  | marker {m : Marker} {t : Token} (mem : t ∈ tokens) (name : t.isDirective m.name = true) :
      Intact source tokens (.marker m t.span)
  | header {h : Header} (intact : ∀ r ∈ h.run?, r.Intact source) : Intact source tokens (.header h)
  /-- Its arguments and its body are those between its brackets. -/
  | call {c : Call} {front ts rest : List Token} (split : tokens = front ++ ts)
      (taken : Grammar.CallTakes c ts rest) : Intact source tokens (.call c)
  /-- Its blocks reach from the end of what opens it to the directive that closes it. -/
  | repeated {args : List (List Token)} {children : List Node} {openSpan span : Span} {e : Token}
      (mem : e ∈ tokens) (closer : e.isDirective "END_REPEAT".toList = true)
      (stop : span.stop = e.span.stop)
      (tiles : Span.Tiles openSpan.stop e.span.start (children.map Node.span))
      (apart : Node.Apart children) (within : ∀ n ∈ children, Intact source tokens n) :
      Intact source tokens (.repeated args children openSpan span)

/-- The blocks of a script cover its source: they tile it from start to end, no run
follows another, and each holds what stands there. -/
structure Script.Intact (source : Text) (tokens : List Token) (script : Script Node) : Prop where
  stop : script.span.stop.offset = source.length
  tiles : Span.Tiles .origin script.span.stop (script.parts.map Node.span)
  apart : Node.Apart script.parts
  blocks : ∀ n ∈ script.parts, n.Intact source tokens

namespace Node

/-- The blocks tile the part of the script that some tokens take up behind those in front,
and hold what stands there. -/
structure Covers (tokens front used : List Token) (ns : List Node) : Prop where
  tiles : Span.Tiles (.after (Token.rawText front)) (.after (Token.rawText (front ++ used)))
    (ns.map span)
  apart : Apart ns
  blocks : ∀ n ∈ ns, n.Intact (Token.rawText tokens) tokens

section
variable {tokens front used rest us : List Token} {t : Token}

/-- A block in front of others takes up the tokens in front of theirs. -/
theorem Covers.cons {n : Node} {ns : List Node} (hplaced : Token.Placed tokens)
    (hsplit : tokens = front ++ (t :: us) ++ rest) (hspan : n.span = Token.spanOf t us)
    (hn : n.Intact (Token.rawText tokens) tokens)
    (hapart : n.isRun = true → ns.head?.any isRun = false)
    (h : Covers tokens (front ++ t :: us) used ns) :
    Covers tokens front (t :: us ++ used) (n :: ns) := by
  refine ⟨?_, ?_, List.forall_mem_cons.2 ⟨hn, h.blocks⟩⟩
  · have hraw : t.raw ≠ [] := hplaced.ne_nil t (by simp [hsplit])
    have hlt : (Token.rawText front).length < (Token.rawText (front ++ t :: us)).length := by
      rw [Token.rawText_append, Token.rawText_cons, List.length_append, List.length_append]
      have := List.length_pos_of_ne_nil hraw
      omega
    rw [hsplit] at hplaced
    rw [List.map_cons, hspan, hplaced.spanOf_eq, ← List.append_assoc]
    exact ⟨rfl, hlt, h.tiles⟩
  · refine List.isChain_cons.2 ⟨?_, h.apart⟩
    rintro m hm ⟨hrun, hrun'⟩
    have hhead := hapart hrun
    rw [Option.mem_def.1 hm, Option.any_some, hrun'] at hhead
    cases hhead

end

end Node

/-- Tokens in a row that are made a run are what stands in the script there. -/
theorem Run.intact_ofTokens {tokens front rest us : List Token} {t : Token}
    (hplaced : Token.Placed tokens)
    (hsplit : tokens = front ++ (t :: us) ++ rest) :
    Run.Intact (Token.rawText tokens) ⟨t :: us, Token.spanOf t us⟩ := by
  refine ⟨List.cons_ne_nil t us, ?_⟩
  rw [hsplit] at hplaced ⊢
  exact hplaced.slice_eq.symm

namespace Grammar

/-- Blocks that take up tokens at their places cover their part of the script. -/
theorem Spells.covers {tokens : List Token} (hplaced : Token.Placed tokens) {ns : List Node}
    {front ts rest : List Token} (h : Spells ns ts rest) (htokens : tokens = front ++ ts) :
    ∃ used, ts = used ++ rest ∧ Node.Covers tokens front used ns := by
  induction h generalizing front with
  | nil =>
      refine ⟨[], rfl, ?_, List.isChain_nil, by simp⟩
      rw [List.append_nil]
      exact rfl
  | @run t ts us rest ns happart _ ih =>
      obtain ⟨used, rfl, hlater⟩ := @ih (front ++ t :: ts) (by simp [htokens])
      have hsplit : tokens = front ++ (t :: ts) ++ (used ++ rest) := by simp [htokens]
      refine ⟨t :: ts ++ used, by simp, hlater.cons hplaced hsplit rfl ?_ fun _ => happart⟩
      exact .run (Run.intact_ofTokens hplaced hsplit)
  | @marker t us rest ns m hname _ ih =>
      obtain ⟨used, rfl, hlater⟩ := @ih (front ++ [t]) (by simp [htokens])
      have hsplit : tokens = front ++ [t] ++ (used ++ rest) := by simp [htokens]
      refine ⟨[t] ++ used, rfl, hlater.cons hplaced hsplit rfl ?_ fun hrun => nomatch hrun⟩
      exact .marker (by simp [htokens]) hname
  | @header t e prose us rest ns hstart hwithin hfinish _ ih =>
      obtain ⟨used, rfl, hlater⟩ := @ih (front ++ t :: (prose ++ [e])) (by simp [htokens])
      have hsplit : tokens = front ++ (t :: (prose ++ [e])) ++ (used ++ rest) := by simp [htokens]
      refine ⟨t :: (prose ++ [e]) ++ used, by simp,
        hlater.cons hplaced hsplit ?_ (.header ?_) fun hrun => nomatch hrun⟩
      · exact (Token.spanOf_append_singleton t prose e).symm
      · intro r hr
        cases prose with
        | nil => cases hr
        | cons u prose =>
            cases hr
            have hrun : tokens = front ++ [t] ++ (u :: prose) ++ (e :: (used ++ rest)) := by
              simp [htokens]
            exact Run.intact_ofTokens hplaced hrun
  | @call c ts us rest ns htaken _ ih =>
      have hcall := htaken
      obtain ⟨-, -, -, -, -, hts, hspan⟩ := htaken
      next t ts taken _ _ =>
      obtain ⟨used, rfl, hlater⟩ := @ih (front ++ t :: taken) (by simp [htokens, hts])
      have hsplit : tokens = front ++ (t :: taken) ++ (used ++ rest) := by simp [htokens, hts]
      exact ⟨t :: taken ++ used, by simp [hts],
        hlater.cons hplaced hsplit hspan (.call htokens hcall) fun hrun => nomatch hrun⟩
  | @repeated t e args taken inner mid us rest children ns _ _ _ _ hfinish _ ihw ihr =>
      obtain ⟨within, rfl, hwithin⟩ := @ihw (front ++ t :: taken) (by simp [htokens])
      obtain ⟨used, rfl, hlater⟩ := @ihr (front ++ t :: (taken ++ within ++ [e]))
        (by simp [htokens])
      have hsplit : tokens = front ++ (t :: (taken ++ within ++ [e])) ++ (used ++ rest) := by
        simp [htokens]
      refine ⟨t :: (taken ++ within ++ [e]) ++ used, by simp,
        hlater.cons hplaced hsplit ?_ ?_ fun hrun => nomatch hrun⟩
      · exact (Token.spanOf_append_singleton t (taken ++ within) e).symm
      · -- what opens the block and what closes it lie at either end of its blocks
        have hopen := @Token.Placed.spanOf_eq t front taken (within ++ e :: (used ++ rest))
          (by simpa [htokens] using hplaced)
        have hclose := @Token.Placed.spanOf_eq e (front ++ t :: taken ++ within) [] (used ++ rest)
          (by simpa [htokens] using hplaced)
        have hstart : e.span.start = .after (Token.rawText (front ++ t :: taken ++ within)) :=
          congrArg Span.start hclose
        refine .repeated (e := e) (by simp [htokens]) hfinish rfl ?_ hwithin.apart hwithin.blocks
        rw [hopen, hstart]
        exact hwithin.tiles

end Grammar

/-- The blocks of a source that is read lose and double nothing: they tile it, and each
holds what stands in it. -/
theorem Script.ofSource_intact {source : Text} {script : Script Node}
    (h : Script.ofSource source = .ok script) :
    ∃ stream, TokenStream.ofSource source = .ok stream ∧ script.Intact source stream.tokens := by
  unfold Script.ofSource at h
  split at h
  · cases h
  next stream hstream =>
    obtain ⟨htext, hadjoin, hstop, htokens⟩ := TokenStream.adjoin_of_ofSource hstream
    obtain ⟨hspells, hspan⟩ := Script.spells_of_ofStream h
    have hplaced : Token.Placed stream.tokens := ⟨hadjoin, fun t ht => (htokens t ht).2⟩
    obtain ⟨used, hused, hcovers⟩ := hspells.covers hplaced (List.nil_append _).symm
    rw [List.append_nil] at hused
    refine ⟨stream, hstream, ?_, ?_, hcovers.apart, ?_⟩
    · rw [hspan, hstop]
      rfl
    · have htiles := hcovers.tiles
      rw [List.nil_append, ← hused, htext, ← hstop] at htiles
      rw [hspan]
      exact htiles
    · rw [← htext]
      exact hcovers.blocks

/-- A header, a repeated block in another, a call with arguments and a body, and a marker. -/
theorem Script.ofSource_intact_nested :
    ∃ script, Script.ofSource ("#HEADER_START a\n#HEADER_END b #REPEAT (2) x\n" ++
        "#repeat(3) #LINE (1, (2,3)) \x7b a \x7b b \x7d \x7d y #END_REPEAT #END_REPEAT" ++
        "#BREAK").toList = .ok script ∧
      ∃ stream, TokenStream.ofSource ("#HEADER_START a\n#HEADER_END b #REPEAT (2) x\n" ++
          "#repeat(3) #LINE (1, (2,3)) \x7b a \x7b b \x7d \x7d y #END_REPEAT #END_REPEAT" ++
          "#BREAK").toList = .ok stream ∧
        script.Intact ("#HEADER_START a\n#HEADER_END b #REPEAT (2) x\n" ++
          "#repeat(3) #LINE (1, (2,3)) \x7b a \x7b b \x7d \x7d y #END_REPEAT #END_REPEAT" ++
          "#BREAK").toList stream.tokens := by
  have hok : (Script.ofSource ("#HEADER_START a\n#HEADER_END b #REPEAT (2) x\n" ++
      "#repeat(3) #LINE (1, (2,3)) \x7b a \x7b b \x7d \x7d y #END_REPEAT #END_REPEAT" ++
      "#BREAK").toList).isOk = true := by
    decide +kernel
  cases h : Script.ofSource ("#HEADER_START a\n#HEADER_END b #REPEAT (2) x\n" ++
      "#repeat(3) #LINE (1, (2,3)) \x7b a \x7b b \x7d \x7d y #END_REPEAT #END_REPEAT" ++
      "#BREAK").toList with
  | error e =>
      rw [h] at hok
      cases hok
  | ok script => exact ⟨script, rfl, Script.ofSource_intact h⟩

end MapScript
