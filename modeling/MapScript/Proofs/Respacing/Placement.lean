import MapScript.Proofs.Respacing.Expansion

/-!
# Objects in rows with other gaps

An object begins and ends at the same significant tokens whatever the gaps are, so
leaves that differ in their gaps are placed as parts that differ so, and refused for
the same marker.
-/

namespace MapScript

variable {k : Likeness}

/-- Parts of expanded scripts that differ in gaps and places. -/
inductive Piece.Alike (k : Likeness) : Piece → Piece → Prop
  | run {r r' : Run} (row : Row k r.tokens r'.tokens) : Alike k (.run r) (.run r')
  | cut (span span' : Span) : Alike k (.cut span) (.cut span')
  | header {h h' : Header} (lines : h.lines = h'.lines) : Alike k (.header h) (.header h')

namespace Placement

/-- Items of rows with gaps in the same places. -/
inductive Items (k : Likeness) : List Item → List Item → Prop
  | nil : Items k [] []
  | token {t t' : Token} {rest rest' : List Item} (alike : Token.Alike k t t')
      (significant : t.isTrivia = false) (later : Items k rest rest') :
      Items k (.token t :: rest) (.token t' :: rest')
  | gap {g g' : List Token} {rest rest' : List Item} (gap : Gap g g')
      (later : Items k rest rest') : Items k (g.map .token ++ rest) (g'.map .token ++ rest')
  | marker (m : PlayerMarker) {span span' : Span} {rest rest' : List Item}
      (place : k.place span.start span'.start) (later : Items k rest rest') :
      Items k (.marker m span :: rest) (.marker m span' :: rest')
  | barrier {p p' : Piece} {rest rest' : List Item} (piece : Piece.Alike k p p')
      (later : Items k rest rest') : Items k (.barrier p :: rest) (.barrier p' :: rest')

theorem Items.row {ts ts' : List Token} (h : Row k ts ts') {rest rest' : List Item}
    (hrest : Items k rest rest') : Items k (ts.map .token ++ rest) (ts'.map .token ++ rest') := by
  induction h with
  | nil => exact hrest
  | token alike hsig _ ih => exact .token alike hsig ih
  | gap hgap _ ih =>
      rw [List.map_append, List.map_append, List.append_assoc, List.append_assoc]
      exact .gap hgap ih

theorem items_alike {leaves leaves' : List Leaf} (h : List.Forall₂ (Leaf.Alike k) leaves leaves') :
    Items k (leaves.flatMap items) (leaves'.flatMap items) := by
  induction h with
  | nil => exact .nil
  | cons hleaf _ ih =>
      rw [List.flatMap_cons, List.flatMap_cons]
      cases hleaf with
      | run hrow => exact .row hrow ih
      | header hlines => exact .barrier (.header hlines) ih
      | marker m hplace =>
          cases m with
          | cut => exact .barrier (.cut _ _) ih
          | players m => exact .marker m hplace ih

/-- Objects that differ in gaps and places. -/
structure Object.Alike (k : Likeness) (o o' : Object) : Prop where
  command : Token.Alike k o.command o'.command
  significant : o.command.isTrivia = false
  later : Row k o.later o'.later
  depth : o.depth = o'.depth
  marker : Option.Rel (fun m m' => m.1 = m'.1 ∧ k.place m.2.start m'.2.start) o.marker o'.marker

namespace Object.Alike

variable {o o' : Object}

theorem tokens (h : o.Alike k o') : Row k o.tokens o'.tokens :=
  .token h.command h.significant h.later.reverse

theorem push (h : o.Alike k o') {t t' : Token} (ht : Token.Alike k t t')
    (hsig : t.isTrivia = false) : (o.push t).Alike k (o'.push t') :=
  ⟨h.command, h.significant, .token ht hsig h.later, h.depth, h.marker⟩

theorem copy (h : o.Alike k o') {t t' : Token} (ht : Token.Alike k t t') {span span' : Span}
    (hplace : k.place span.start span'.start) (land : Nat) :
    Row k (o.copy t span land) (o'.copy t' span' land) := by
  have hmade (kind : TokenKind) (raw : Text) :
      Token.Alike k (.made kind raw span) (.made kind raw span') :=
    Expansion.made_alike kind raw hplace
  unfold Object.copy
  refine (Row.append ?_ h.tokens).append (.of_alike ?_)
  · split
    · exact .single (hmade _ _)
    · exact .nil
  · repeat' first | exact .nil | refine .cons (hmade _ _) ?_ | refine .cons ht ?_

theorem close (h : o.Alike k o') {t t' : Token} (ht : Token.Alike k t t') :
    Row k (o.close t) (o'.close t') := by
  have hmarker := h.marker
  unfold Object.close
  generalize o.marker = m at hmarker
  generalize o'.marker = m' at hmarker
  cases hmarker with
  | none => exact h.tokens.append (.single ht)
  | @some m m' hm =>
      obtain ⟨marker, span⟩ := m
      obtain ⟨marker', span'⟩ := m'
      obtain ⟨hsame, hplace⟩ := hm
      obtain rfl : marker = marker' := hsame
      dsimp only
      induction List.range marker.lands with
      | nil => exact .nil
      | cons i range ih =>
          rw [List.flatMap_cons, List.flatMap_cons]
          exact (h.copy ht hplace (i + 1)).append ih

theorem abandon (h : o.Alike k o') : Both (Report.Alike k) (Row k) o.abandon o'.abandon := by
  have hmarker := h.marker
  unfold Object.abandon
  generalize o.marker = m at hmarker
  generalize o'.marker = m' at hmarker
  cases hmarker with
  | none => exact .ok h.tokens
  | @some m m' hm =>
      obtain ⟨marker, span⟩ := m
      obtain ⟨marker', span'⟩ := m'
      obtain rfl : marker = marker' := hm.1
      exact .error ⟨.same _, h.command.place⟩

end Object.Alike

/-- Placed items in rows with gaps in the same places. -/
inductive AlikeAll (k : Likeness) : List Placed → List Placed → Prop
  | nil : AlikeAll k [] []
  | row {ts ts' : List Token} {rest rest' : List Placed} (row : Row k ts ts')
      (later : AlikeAll k rest rest') : AlikeAll k (ts.map .inl ++ rest) (ts'.map .inl ++ rest')
  | piece {p p' : Piece} {rest rest' : List Placed} (piece : Piece.Alike k p p')
      (later : AlikeAll k rest rest') : AlikeAll k (.inr p :: rest) (.inr p' :: rest')

theorem before_row {ts ts' : List Token} (h : Row k ts ts')
    {later later' : Except Report (List Placed)}
    (hlater : Both (Report.Alike k) (AlikeAll k) later later') :
    Both (Report.Alike k) (AlikeAll k) (before (ts.map .inl) later)
      (before (ts'.map .inl) later') := hlater.map fun _ _ hrest => .row h hrest

/-- Tokens of a gap go where the object goes, or are placed. -/
theorem place_trivia {g : List Token} (hg : ∀ t ∈ g, t.isTrivia = true) (object : Option Object)
    (rest : List Item) :
    place object (g.map .token ++ rest) =
      match object with
      | none => before (g.map .inl) (place none rest)
      | some o => place (some { o with later := g.reverse ++ o.later }) rest := by
  induction g generalizing object with
  | nil =>
      cases object with
      | some o => rfl
      | none =>
          show place none rest = before [] (place none rest)
          cases place none rest <;> rfl
  | cons t g ih =>
      obtain ⟨ht, hg⟩ := List.forall_mem_cons.1 hg
      have hpunct := (kind_of_isTrivia ht).1
      have hword : t.isWord "create_object".toList = false := by
        rw [Token.isWord, Bool.and_eq_false_iff, beq_eq_false_iff_ne]
        refine Or.inl fun hkind => ?_
        rw [Token.isTrivia, hkind] at ht
        cases ht
      rw [List.map_cons, List.cons_append, place.eq_def]
      cases object with
      | none =>
          dsimp only
          rw [hword, if_neg (by simp), ih hg]
          show before [.inl t] (before (g.map .inl) (place none rest)) = _
          cases place none rest <;> rfl
      | some o =>
          dsimp only
          rw [isPunct_of_kind hpunct, isPunct_of_kind hpunct, if_neg (by simp), if_neg (by simp),
            ih hg]
          simp [Object.push]

/-- Items are placed alike, or refused alike. -/
theorem place_alike {rest rest' : List Item} (h : Items k rest rest')
    {object object' : Option Object} (hobject : Option.Rel (Object.Alike k) object object') :
    Both (Report.Alike k) (AlikeAll k) (place object rest) (place object' rest') := by
  induction h generalizing object object' with
  | nil =>
      rw [place.eq_def, place.eq_def]
      cases hobject with
      | none => exact .ok .nil
      | some ho =>
          apply ho.abandon.map
          intro ts ts' hrow
          simpa using AlikeAll.row hrow .nil
  | @gap g g' rest rest' hgap _ ih =>
      rw [place_trivia hgap.trivia, place_trivia hgap.trivia']
      cases hobject with
      | none => exact before_row (.of_gap hgap) (ih .none)
      | some ho =>
          exact ih (.some ⟨ho.command, ho.significant,
            (Row.of_gap hgap.reverse).append ho.later, ho.depth, ho.marker⟩)
  | @token t t' rest rest' alike hsig _ ih =>
      rw [place.eq_def, place.eq_def]
      cases hobject with
      | none =>
          dsimp only
          rw [alike.isWord_eq]
          split
          · exact ih (.some ⟨alike, hsig, .nil, rfl, .none⟩)
          · exact before_row (.token alike hsig .nil) (ih .none)
      | @some o o' ho =>
          have hpush := ho.push alike hsig
          dsimp only
          rw [alike.isPunct_eq, alike.isPunct_eq, ho.depth]
          split
          · exact ih (.some ⟨hpush.command, hpush.significant, hpush.later, rfl, hpush.marker⟩)
          split
          · split
            · exact before_row (ho.close alike) (ih .none)
            · exact ih (.some ⟨hpush.command, hpush.significant, hpush.later, rfl, hpush.marker⟩)
          · exact ih (.some hpush)
  | @marker m span span' rest rest' hplace _ ih =>
      rw [place.eq_def, place.eq_def]
      cases hobject with
      | none => exact .error ⟨.same _, hplace⟩
      | @some o o' ho =>
          dsimp only
          rw [ho.depth]
          split
          · exact ih (.some ⟨ho.command, ho.significant, ho.later, rfl, .some ⟨rfl, hplace⟩⟩)
          · exact .error ⟨.same _, hplace⟩
  | @barrier p p' rest rest' hpiece _ ih =>
      rw [place.eq_def, place.eq_def]
      cases hobject with
      | none => exact (ih .none).map fun _ _ hrest => .piece hpiece hrest
      | @some o o' ho =>
          have habandon := ho.abandon
          dsimp only
          generalize o.abandon = x at habandon
          generalize o'.abandon = y at habandon
          cases habandon with
          | error he => exact .error he
          | ok hrow =>
              apply (ih .none).map
              intro _ _ hrest
              rw [List.append_assoc, List.append_assoc]
              exact .row hrow (.piece hpiece hrest)

theorem flush_alike {pending pending' : List Token} (h : Row k pending pending')
    {pieces pieces' : List Piece} (hpieces : List.Forall₂ (Piece.Alike k) pieces pieces') :
    List.Forall₂ (Piece.Alike k) (flush pending pieces) (flush pending' pieces') := by
  have hrow := h.reverse
  have hempty := hrow.isEmpty_eq
  unfold flush
  generalize pending.reverse = ts at hrow hempty
  generalize pending'.reverse = ts' at hrow hempty
  cases ts with
  | nil =>
      obtain rfl := List.isEmpty_iff.1 hempty.symm
      exact hpieces
  | cons t ts =>
      cases ts' with
      | nil => cases hempty
      | cons t' ts' => exact .cons (.run hrow) hpieces

theorem gather_append (ts pending : List Token) (rest : List Placed) :
    gather pending (ts.map .inl ++ rest) = gather (ts.reverse ++ pending) rest := by
  induction ts generalizing pending with
  | nil => rfl
  | cons t ts ih =>
      rw [List.map_cons, List.cons_append, gather, ih, List.reverse_cons, List.append_assoc]
      rfl

theorem gather_alike {rest rest' : List Placed} (h : AlikeAll k rest rest')
    {pending pending' : List Token} (hpending : Row k pending pending') :
    List.Forall₂ (Piece.Alike k) (gather pending rest) (gather pending' rest') := by
  induction h generalizing pending pending' with
  | nil => exact flush_alike hpending .nil
  | row hrow _ ih =>
      rw [gather_append, gather_append]
      exact ih (hrow.reverse.append hpending)
  | piece hpiece _ ih => exact flush_alike hpending (.cons hpiece (ih .nil))

/-- Leaves are placed as parts that are alike, or refused alike. -/
theorem placeAll_alike {leaves leaves' : List Leaf}
    (h : List.Forall₂ (Leaf.Alike k) leaves leaves') :
    Both (Report.Alike k) (List.Forall₂ (Piece.Alike k)) (placeAll leaves)
      (placeAll leaves') := by
  have hmarkers : leaves.any isPlayerMarker = leaves'.any isPlayerMarker := by
    induction h with
    | nil => rfl
    | cons hleaf _ ih =>
        rw [List.any_cons, List.any_cons, ih]
        cases hleaf with
        | run _ | header _ => rfl
        | marker m _ => cases m <;> rfl
  have hpieces : List.Forall₂ (Piece.Alike k) (leaves.filterMap toPiece?)
      (leaves'.filterMap toPiece?) := by
    clear hmarkers
    induction h with
    | nil => exact .nil
    | cons hleaf _ ih =>
        cases hleaf with
        | run hrow => exact .cons (.run hrow) ih
        | header hlines => exact .cons (.header hlines) ih
        | marker m hplace =>
            cases m with
            | cut => exact .cons (.cut _ _) ih
            | players m => exact ih
  unfold placeAll
  rw [hmarkers]
  split
  · exact (place_alike (items_alike h) .none).map fun _ _ hplaced => gather_alike hplaced .nil
  · exact .ok hpieces

end Placement

/-- Scripts that are alike are expanded to such scripts, or refused alike. -/
theorem Script.expand_alike {s s' : Script Node} (h : Script.Alike (Node.AlikeAll k) s s') :
    Pass.Parallel k (Script.Alike (List.Forall₂ (Piece.Alike k))) s.expand s'.expand := by
  unfold Script.expand
  apply (Expansion.expandNodes_alike s.parts h.1).bind
  intro leaves leaves' hleaves
  exact (Pass.ofReport_alike (Placement.placeAll_alike hleaves)).bind fun _ _ hpieces =>
    .pure ⟨hpieces, h.2⟩

end MapScript
