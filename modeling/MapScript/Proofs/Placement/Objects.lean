import MapScript.Block.Builder
import MapScript.Proofs.Expansion

/-!
# Objects of a script

The items of an expanded script fall into loose ones, objects that are read up to the
bracket that closes their body, and objects that a part or the end of the script cuts
off.  An object is written as it stands, or once for each land of its last marker; what
is loose or cut off stays.  So placing the objects of a script is told by its segments
alone, and each token and part outside marked objects is written once, in order.
-/

namespace MapScript

/-- What a part of an expanded script is when neighbouring runs are not told apart. -/
def Piece.placed : Piece → List Placement.Placed
  | .run r => r.tokens.map .inl
  | .cut span => [.inr (.cut span)]
  | .header h => [.inr (.header h)]

namespace Placement

namespace Item

/-- The token seen, if it is one. -/
def token? : Item → Option Token
  | .token t => some t
  | _ => none

/-- The marker seen, if it is one. -/
def marker? : Item → Option (PlayerMarker × Span)
  | .marker m span => some (m, span)
  | _ => none

/-- Whether no object reaches across the item. -/
def isBarrier : Item → Bool
  | .barrier _ => true
  | _ => false

/-- Whether the item begins an object where none is being read. -/
def isCommand (i : Item) : Bool := i.token?.any fun t => t.isWord "create_object".toList

/-- Whether the item is a bracket that ends a body. -/
def isCloser (i : Item) : Bool := i.token?.any fun t => t.isPunct '\x7d'

/-- What is placed for the item if no object holds it. -/
def placed : Item → List Placed
  | .token t => [.inl t]
  | .marker _ _ => []
  | .barrier p => [.inr p]

/-- How many brackets more are open behind the item. -/
def rise : Item → Int
  | .token t => if t.isPunct '\x7b' then 1 else if t.isPunct '\x7d' then -1 else 0
  | _ => 0

@[simp] theorem rise_marker (m : PlayerMarker) (span : Span) : (marker m span).rise = 0 := rfl

end Item

/-! ### Depth -/

/-- How many brackets the items open beyond those they close. -/
def depthOf (row : List Item) : Int := (row.map Item.rise).sum

@[simp] theorem depthOf_nil : depthOf [] = 0 := rfl

@[simp] theorem depthOf_cons (i : Item) (row : List Item) :
    depthOf (i :: row) = i.rise + depthOf row := by
  simp [depthOf]

@[simp] theorem depthOf_append (front back : List Item) :
    depthOf (front ++ back) = depthOf front + depthOf back := by
  simp [depthOf]

/-- The items go on in an object at a depth: nothing cuts it off, and no bracket closes
its body. -/
structure Open (depth : Int) (body : List Item) : Prop where
  uncut : ∀ i ∈ body, i.isBarrier = false
  unclosed : ∀ front i back, body = front ++ i :: back → i.isCloser = true →
    depth + depthOf front ≠ 1

/-- The markers among items at a depth stand directly in the body of the object. -/
def Direct (depth : Int) (body : List Item) : Prop :=
  ∀ front i back, body = front ++ i :: back → i.marker?.isSome = true → depth + depthOf front = 1

/-- What holds of an item where the brackets before it have led holds of the first and of
those behind it. -/
theorem forall_split_cons_iff (P : Int → Item → Prop) {depth : Int} {i : Item}
    {body : List Item} :
    (∀ front j back, i :: body = front ++ j :: back → P (depth + depthOf front) j) ↔
      P depth i ∧ ∀ front j back, body = front ++ j :: back →
        P (depth + i.rise + depthOf front) j := by
  constructor
  · intro h
    refine ⟨by simpa using h [] i body rfl, fun front j back hsplit => ?_⟩
    have hj := h (i :: front) j back (by rw [hsplit, List.cons_append])
    rwa [depthOf_cons, ← add_assoc] at hj
  · rintro ⟨hi, hbody⟩ front j back hsplit
    cases front with
    | nil =>
        obtain ⟨rfl, rfl⟩ := List.cons.inj hsplit
        simpa using hi
    | cons k front =>
        obtain ⟨rfl, hrest⟩ := List.cons.inj hsplit
        rw [depthOf_cons, ← add_assoc]
        exact hbody front j back hrest

theorem open_nil (depth : Int) : Open depth [] := ⟨by simp, by simp⟩

theorem open_cons_iff {depth : Int} {i : Item} {body : List Item} :
    Open depth (i :: body) ↔
      (i.isBarrier = false ∧ (i.isCloser = true → depth ≠ 1)) ∧ Open (depth + i.rise) body := by
  have hsplit := @forall_split_cons_iff (fun d j => j.isCloser = true → d ≠ 1) depth i body
  constructor
  · intro h
    obtain ⟨hi, hbody⟩ := List.forall_mem_cons.1 h.uncut
    obtain ⟨hfirst, hrest⟩ := hsplit.1 h.unclosed
    exact ⟨⟨hi, hfirst⟩, hbody, hrest⟩
  · rintro ⟨⟨hi, hfirst⟩, hbody, hrest⟩
    exact ⟨List.forall_mem_cons.2 ⟨hi, hbody⟩, hsplit.2 ⟨hfirst, hrest⟩⟩

theorem Open.append_right {depth : Int} {front back : List Item} (h : Open depth (front ++ back)) :
    Open (depth + depthOf front) back := by
  induction front generalizing depth with
  | nil => simpa using h
  | cons i front ih =>
      rw [depthOf_cons, ← add_assoc]
      exact ih (open_cons_iff.1 h).2

theorem direct_nil (depth : Int) : Direct depth [] := by simp [Direct]

theorem direct_cons_iff {depth : Int} {i : Item} {body : List Item} :
    Direct depth (i :: body) ↔
      (i.marker?.isSome = true → depth = 1) ∧ Direct (depth + i.rise) body :=
  forall_split_cons_iff fun d j => j.marker?.isSome = true → d = 1

/-! ### Segments -/

/-- The tokens among items. -/
def tokensOf (row : List Item) : List Token := row.filterMap Item.token?

/-- The markers among items. -/
def markersOf (row : List Item) : List (PlayerMarker × Span) := row.filterMap Item.marker?

/-- Where no markers are, none stands elsewhere. -/
theorem direct_of_markersOf {body : List Item} {depth : Int} (h : markersOf body = []) :
    Direct depth body := by
  intro front i back hsplit hmarker
  have hnone := List.filterMap_eq_nil_iff.1 h i (by simp [hsplit])
  rw [hnone] at hmarker
  cases hmarker

/-- The tokens of an object for a land: the number of the land goes before the bracket that
closes its body. -/
def forLand (tokens : List Token) (closing : Token) (span : Span) (land : Nat) : List Token :=
  tokens ++ [.made .blank " ".toList span, .made .word "place_on_specific_land_id".toList span,
    .made .blank " ".toList span, .made .number (Text.ofNat land) span,
    .made .newline "\n".toList span, closing]

/-- The tokens of an object once for each land of a marker, with line breaks between. -/
def forLands (tokens : List Token) (closing : Token) (marker : PlayerMarker × Span) :
    List Token :=
  [Token.made .newline "\n".toList marker.2].intercalate
    ((List.range' 1 marker.1.lands).map (forLand tokens closing marker.2))

/-- What the items of an expanded script fall into. -/
inductive Segment where
  /-- An item outside objects. -/
  | loose (i : Item)
  /-- An object up to the bracket that closes its body. -/
  | object (command : Token) (body : List Item) (closing : Token)
  /-- An object that is cut off. -/
  | unfinished (command : Token) (body : List Item)

namespace Segment

/-- The items of a segment. -/
def source : Segment → List Item
  | loose i => [i]
  | object command body closing => .token command :: (body ++ [.token closing])
  | unfinished command body => .token command :: body

/-- What is placed for a segment: a marked object once for each land of its last marker. -/
def written : Segment → List Placed
  | loose i => i.placed
  | object command body closing =>
    match (markersOf body).getLast? with
    | none => (command :: tokensOf body ++ [closing]).map .inl
    | some marker => (forLands (command :: tokensOf body) closing marker).map .inl
  | unfinished command body => (command :: tokensOf body).map .inl

/-- The markers of a segment stand where they may: directly in an object that is closed. -/
def Proper : Segment → Prop
  | loose i => i.marker? = none
  | object _ body _ => Direct 0 body
  | unfinished _ body => markersOf body = []

end Segment

/-- The items fall into segments from the front.  An object ends with the first bracket that
closes a body at depth one, or where a part or the end of the script cuts it off. -/
inductive Divided : List Item → List Segment → Prop
  | nil : Divided [] []
  | loose {i : Item} {rest : List Item} {segments : List Segment} (outside : i.isCommand = false)
      (later : Divided rest segments) : Divided (i :: rest) (.loose i :: segments)
  | object {c e : Token} {body rest : List Item} {segments : List Segment}
      (command : c.isWord "create_object".toList = true) (within : Open 0 body)
      (depth : depthOf body = 1) (closer : e.isPunct '\x7d' = true)
      (later : Divided rest segments) :
      Divided (.token c :: (body ++ .token e :: rest)) (.object c body e :: segments)
  | unfinished {c : Token} {body rest : List Item} {segments : List Segment}
      (command : c.isWord "create_object".toList = true) (within : Open 0 body)
      (ends : rest.head?.all Item.isBarrier = true) (later : Divided rest segments) :
      Divided (.token c :: (body ++ rest)) (.unfinished c body :: segments)

namespace Divided

variable {row : List Item} {segments : List Segment}

/-- Nothing is lost by dividing items. -/
theorem source_eq (h : Divided row segments) : segments.flatMap Segment.source = row := by
  induction h with
  | nil => rfl
  | loose _ _ ih => simp [Segment.source, ih]
  | object _ _ _ _ _ ih => simp [Segment.source, ih]
  | unfinished _ _ _ _ ih => simp [Segment.source, ih]

end Divided

/-- An object is read up to the bracket that closes it, or to what cuts it off. -/
theorem exists_open (depth : Int) (row : List Item) :
    ∃ body rest, row = body ++ rest ∧ Open depth body ∧
      (rest.head?.all Item.isBarrier = true ∨
        ∃ e later, rest = .token e :: later ∧ e.isPunct '\x7d' = true ∧
          depth + depthOf body = 1) := by
  induction row generalizing depth with
  | nil => exact ⟨[], [], rfl, open_nil depth, Or.inl rfl⟩
  | cons i row ih =>
      by_cases hbarrier : i.isBarrier = true
      · exact ⟨[], i :: row, rfl, open_nil depth, Or.inl (by simpa using hbarrier)⟩
      by_cases hcloser : i.isCloser = true ∧ depth = 1
      · obtain ⟨hcloser, rfl⟩ := hcloser
        obtain ⟨e, he, hpunct⟩ := (Option.any_eq_true ..).1 hcloser
        cases i with
        | token t =>
            obtain rfl := Option.some.inj he
            exact ⟨[], .token t :: row, rfl, open_nil 1, Or.inr ⟨t, row, rfl, hpunct, rfl⟩⟩
        | marker m span => cases he
        | barrier p => cases he
      · obtain ⟨body, rest, rfl, hopen, hends⟩ := ih (depth + i.rise)
        have hfirst : i.isCloser = true → depth ≠ 1 := fun hc hd => hcloser ⟨hc, hd⟩
        refine ⟨i :: body, rest, rfl,
          open_cons_iff.2 ⟨⟨by simpa using hbarrier, hfirst⟩, hopen⟩, ?_⟩
        rwa [depthOf_cons, ← add_assoc]

/-- Items fall into segments, whatever they are. -/
theorem exists_divided (row : List Item) : ∃ segments, Divided row segments := by
  induction hlength : row.length using Nat.strong_induction_on generalizing row with
  | _ n ih =>
      subst hlength
      cases row with
      | nil => exact ⟨[], .nil⟩
      | cons i row =>
          cases hcommand : i.isCommand with
          | false =>
              obtain ⟨segments, hlater⟩ := ih row.length (by simp) row rfl
              exact ⟨_, .loose hcommand hlater⟩
          | true =>
              obtain ⟨c, hc, hword⟩ := (Option.any_eq_true ..).1 hcommand
              obtain rfl : i = .token c := by
                cases i <;> cases hc
                rfl
              obtain ⟨body, rest, rfl, hopen, hends⟩ := exists_open 0 row
              rcases hends with hends | ⟨e, later, rfl, hcloser, hdepth⟩
              · obtain ⟨segments, hlater⟩ := ih rest.length (by grind) rest rfl
                exact ⟨_, .unfinished hword hopen hends hlater⟩
              · obtain ⟨segments, hlater⟩ := ih later.length (by grind) later rfl
                exact ⟨_, .object hword hopen (by simpa using hdepth) hcloser hlater⟩

/-! ### Reading an object -/

/-- Rows after a first one, each behind what separates it from the one before. -/
theorem intercalate_cons {α : Type} (separator first : List α) (rows : List (List α)) :
    separator.intercalate (first :: rows) = first ++ rows.flatMap (separator ++ ·) := by
  induction rows generalizing first with
  | nil => simp [List.intercalate]
  | cons row rows ih =>
      have hstep : separator.intercalate (first :: row :: rows) =
          first ++ (separator ++ separator.intercalate (row :: rows)) := by
        simp [List.intercalate]
      rw [hstep, ih, List.flatMap_cons, List.append_assoc]

namespace Object

/-- The object after more items of it. -/
def reads (o : Object) (body : List Item) : Object where
  command := o.command
  later := (tokensOf body).reverse ++ o.later
  depth := o.depth + depthOf body
  marker := (markersOf body).getLast?.or o.marker

@[simp] theorem reads_nil (o : Object) : o.reads [] = o := by
  simp [reads, tokensOf, markersOf]

theorem reads_token (o : Object) (t : Token) (body : List Item) :
    o.reads (.token t :: body) =
      reads { o.push t with depth := o.depth + (Item.token t).rise } body := by
  simp [reads, tokensOf, markersOf, Item.token?, Item.marker?, push, add_assoc]

theorem reads_marker (o : Object) (m : PlayerMarker) (span : Span) (body : List Item) :
    o.reads (.marker m span :: body) = reads { o with marker := some (m, span) } body := by
  simp only [reads, tokensOf, markersOf, depthOf_cons, Item.rise_marker, zero_add, Item.token?,
    Item.marker?, List.filterMap_cons, List.getLast?_cons]
  cases (body.filterMap Item.marker?).getLast? <;> rfl

/-- The tokens of an object that is read from its command. -/
theorem tokens_reads (c : Token) (body : List Item) :
    (reads ⟨c, [], 0, none⟩ body).tokens = c :: tokensOf body := by
  simp [tokens, reads]

/-- The first copy stands as it is and each further one behind a line break. -/
theorem copy_eq (o : Object) (closing : Token) (span : Span) (land : Nat) :
    o.copy closing span land =
      (if 1 < land then [Token.made .newline "\n".toList span] else []) ++
        forLand o.tokens closing span land := by
  simp [copy, forLand]

theorem flatMap_copy (o : Object) (closing : Token) (span : Span) (count : Nat) :
    (List.range' 1 count).flatMap (o.copy closing span) =
      [Token.made .newline "\n".toList span].intercalate
        ((List.range' 1 count).map (forLand o.tokens closing span)) := by
  cases count with
  | zero => rfl
  | succ count =>
      have hlater : ∀ land ∈ List.range' 2 count, o.copy closing span land =
          [Token.made .newline "\n".toList span] ++ forLand o.tokens closing span land := by
        intro land hland
        rw [copy_eq, if_pos (Nat.lt_of_succ_le (List.mem_range'_1.1 hland).1)]
      rw [List.range'_succ, List.flatMap_cons, List.map_cons, intercalate_cons, copy_eq,
        if_neg (by decide), List.flatMap_map, List.flatMap_congr hlater]
      rfl

/-- A marked object is written once for each land of its marker. -/
theorem close_of_marker {o : Object} {marker : PlayerMarker × Span} (h : o.marker = some marker)
    (closing : Token) : o.close closing = forLands o.tokens closing marker := by
  rw [close, h, forLands, ← flatMap_copy, List.range'_eq_map_range, List.flatMap_map]
  simp only [Nat.add_comm 1]

end Object

variable {rest : List Item} {out : List Placed}

/-- A token of an object is read, unless it closes the body. -/
theorem place_token {o : Object} {t : Token} (h : t.isPunct '\x7d' = true → o.depth ≠ 1) :
    place (some o) (.token t :: rest) =
      place (some { o.push t with depth := o.depth + (Item.token t).rise }) rest := by
  rw [place, Item.rise]
  split
  · rfl
  split
  · next hcloser => rw [if_neg (h hcloser), sub_eq_add_neg]
  · rw [add_zero]
    rfl

theorem place_marker {o : Object} {m : PlayerMarker} {span : Span} :
    place (some o) (.marker m span :: rest) = .ok out ↔
      o.depth = 1 ∧ place (some { o with marker := some (m, span) }) rest = .ok out := by
  rw [place]
  split
  · next hdepth => simp [hdepth]
  · next hdepth => simp [hdepth]

/-- The bracket that closes the body ends the object. -/
theorem place_closer {o : Object} {e : Token} (hcloser : e.isPunct '\x7d' = true)
    (hdepth : o.depth = 1) :
    place (some o) (.token e :: rest) =
      before ((o.close e).map .inl) (place none rest) := by
  have hopener : e.isPunct '\x7b' = false := by
    simp only [Token.isPunct, Bool.and_eq_true, beq_iff_eq] at hcloser
    simp [Token.isPunct, hcloser.2]
  rw [place, hopener, if_neg (by simp), if_pos hcloser, if_pos hdepth]

/-- Items that an object goes on through are read one after the other, if the markers among
them stand directly in its body. -/
theorem place_reads {o : Object} {body : List Item} (h : Open o.depth body) :
    place (some o) (body ++ rest) = .ok out ↔
      Direct o.depth body ∧ place (some (o.reads body)) rest = .ok out := by
  induction body generalizing o with
  | nil => simp [direct_nil]
  | cons i body ih =>
      obtain ⟨⟨hbarrier, hcloser⟩, hbody⟩ := open_cons_iff.1 h
      rw [List.cons_append, direct_cons_iff]
      cases i with
      | token t =>
          rw [place_token hcloser, ih hbody, Object.reads_token]
          simp [Item.marker?]
      | marker m span =>
          rw [Item.rise_marker, add_zero] at hbody ⊢
          rw [place_marker, ih (o := { o with marker := some (m, span) }) hbody,
            Object.reads_marker]
          simp [Item.marker?, and_assoc]
      | barrier p => cases hbarrier

theorem before_eq_ok_iff {front : List Placed} {later : Except Report (List Placed)} :
    before front later = .ok out ↔ ∃ back, later = .ok back ∧ out = front ++ back := by
  cases later with
  | error r => simp [before, Except.map]
  | ok back => simp [before, Except.map, eq_comm]

/-- An object that is cut off stays as it is, if it holds no marker. -/
theorem place_cut {o : Object} (h : rest.head?.all Item.isBarrier = true) :
    place (some o) rest = .ok out ↔
      o.marker = none ∧ before (o.tokens.map .inl) (place none rest) = .ok out := by
  have hplace : place (some o) rest =
      o.abandon.bind fun tokens => before (tokens.map .inl) (place none rest) := by
    cases rest with
    | nil =>
        rw [place, place]
        cases o.abandon <;> simp [before, Except.map, Except.bind]
    | cons i rest =>
        cases i with
        | token t => cases h
        | marker m span => cases h
        | barrier p =>
            rw [place, place]
            cases o.abandon with
            | error r => rfl
            | ok tokens => cases place none rest <;> simp [before, Except.map, Except.bind]
  rw [hplace, Object.abandon]
  cases hmarker : o.marker with
  | none => simp [Except.bind]
  | some marker => simp [Except.bind]

/-- Items are placed as their segments are written, if the markers among them stand where
they may, and refused otherwise. -/
theorem Divided.place_eq_ok_iff {row : List Item} {segments : List Segment}
    (h : Divided row segments) :
    place none row = .ok out ↔
      (∀ s ∈ segments, s.Proper) ∧ out = segments.flatMap Segment.written := by
  induction h generalizing out with
  | nil => simp [place, eq_comm]
  | @loose i rest segments houtside _ ih =>
      rw [List.forall_mem_cons, List.flatMap_cons]
      cases i with
      | token t =>
          replace houtside : t.isWord "create_object".toList = false := houtside
          rw [place, houtside, if_neg (by simp), before_eq_ok_iff]
          simp [ih, Segment.Proper, Item.marker?, Segment.written, Item.placed]
      | marker m span => simp [place, Segment.Proper, Item.marker?]
      | barrier p =>
          rw [place, before_eq_ok_iff]
          simp [ih, Segment.Proper, Item.marker?, Segment.written, Item.placed]
  | @object c e body rest segments hcommand hopen hdepth hcloser _ ih =>
      have hwritten : ((Object.reads ⟨c, [], 0, none⟩ body).close e).map Sum.inl =
          (Segment.object c body e).written := by
        have htokens := Object.tokens_reads c body
        rw [Segment.written]
        split
        · next hmarker =>
          have hnone : (Object.reads ⟨c, [], 0, none⟩ body).marker = none := by
            simp [Object.reads, hmarker]
          rw [Object.close, hnone, htokens]
        · next marker hmarker =>
          have hsome : (Object.reads ⟨c, [], 0, none⟩ body).marker = some marker := by
            simp [Object.reads, hmarker]
          rw [Object.close_of_marker hsome, htokens]
      rw [List.forall_mem_cons, List.flatMap_cons, place, if_pos hcommand, place_reads hopen,
        place_closer hcloser (by simpa [Object.reads] using hdepth), before_eq_ok_iff, hwritten]
      simp [ih, Segment.Proper, and_assoc]
  | @unfinished c body rest segments hcommand hopen hends _ ih =>
      have hmarker : (Object.reads ⟨c, [], 0, none⟩ body).marker = none ↔ markersOf body = [] := by
        simp [Object.reads]
      rw [List.forall_mem_cons, List.flatMap_cons, place, if_pos hcommand, place_reads hopen,
        place_cut hends, before_eq_ok_iff, hmarker, Object.tokens_reads]
      simp only [ih, Segment.Proper, Segment.written]
      constructor
      · rintro ⟨-, hnone, back, ⟨hlater, rfl⟩, rfl⟩
        exact ⟨⟨hnone, hlater⟩, rfl⟩
      · rintro ⟨⟨hnone, hlater⟩, rfl⟩
        exact ⟨direct_of_markersOf hnone, hnone, _, ⟨hlater, rfl⟩, rfl⟩

/-! ### Parts -/

theorem flatMap_placed_flush (pending : List Token) (pieces : List Piece) :
    (flush pending pieces).flatMap Piece.placed =
      pending.reverse.map .inl ++ pieces.flatMap Piece.placed := by
  unfold flush
  cases pending.reverse <;> rfl

/-- Gathering tokens into runs keeps what is placed. -/
theorem flatMap_placed_gather {placed : List Placed}
    (h : ∀ p, Sum.inr p ∈ placed → p.placed = [.inr p]) (pending : List Token) :
    (gather pending placed).flatMap Piece.placed = pending.reverse.map .inl ++ placed := by
  induction placed generalizing pending with
  | nil => rw [gather, flatMap_placed_flush, List.flatMap_nil]
  | cons x rest ih =>
      have hrest : ∀ p, Sum.inr p ∈ rest → p.placed = [.inr p] := fun p hp => h p (by simp [hp])
      cases x with
      | inl t =>
          rw [gather, ih hrest]
          simp
      | inr p =>
          rw [gather, flatMap_placed_flush, List.flatMap_cons, ih hrest, h p (by simp)]
          rfl

/-- A part that is placed was there. -/
theorem Segment.barrier_mem_of_written {s : Segment} {p : Piece} (h : Sum.inr p ∈ s.written) :
    Item.barrier p ∈ s.source := by
  cases s with
  | loose i =>
      cases i with
      | token t => simp [written, Item.placed] at h
      | marker m span => simp [written, Item.placed] at h
      | barrier q =>
          simp only [written, Item.placed, List.mem_singleton, Sum.inr.injEq] at h
          simp [source, h]
  | object c body e =>
      rw [written] at h
      split at h
      · simp at h
      · simp at h
  | unfinished c body => simp [written] at h

theorem placed_of_barrier_mem {leaves : List Leaf} {p : Piece}
    (h : Item.barrier p ∈ leaves.flatMap items) : p.placed = [.inr p] := by
  obtain ⟨leaf, -, hitem⟩ := List.mem_flatMap.1 h
  cases leaf with
  | run r => simp [items] at hitem
  | header header =>
      simp only [items, List.mem_singleton, Item.barrier.injEq] at hitem
      subst hitem
      rfl
  | marker m span =>
      cases m with
      | cut =>
          simp only [items, List.mem_singleton, Item.barrier.injEq] at hitem
          subst hitem
          rfl
      | players m => simp [items] at hitem

/-- What is placed for the items of leaves is placed for the parts made of it. -/
theorem Divided.flatMap_placed_gather {leaves : List Leaf} {segments : List Segment}
    (h : Divided (leaves.flatMap items) segments) :
    (gather [] (segments.flatMap Segment.written)).flatMap Piece.placed =
      segments.flatMap Segment.written := by
  apply Placement.flatMap_placed_gather
  intro p hp
  obtain ⟨s, hs, hp⟩ := List.mem_flatMap.1 hp
  have hmem : Item.barrier p ∈ segments.flatMap Segment.source :=
    List.mem_flatMap.2 ⟨s, hs, Segment.barrier_mem_of_written hp⟩
  rw [h.source_eq] at hmem
  exact placed_of_barrier_mem hmem

/-! ### Items without markers -/

/-- Items of an object without markers, as they stand. -/
theorem map_tokensOf {body : List Item} (hbody : ∀ i ∈ body, i.isBarrier = false) :
    (tokensOf body).map Sum.inl = body.flatMap Item.placed := by
  induction body with
  | nil => rfl
  | cons i body ih =>
      obtain ⟨hi, hbody⟩ := List.forall_mem_cons.1 hbody
      rw [List.flatMap_cons, ← ih hbody]
      cases i with
      | token t => rfl
      | marker m span => rfl
      | barrier p => cases hi

/-- Without a marker each item is placed as it stands. -/
theorem Divided.of_unmarked {row : List Item} {segments : List Segment}
    (h : Divided row segments) (hmarkers : ∀ i ∈ row, i.marker? = none) :
    (∀ s ∈ segments, s.Proper) ∧
      segments.flatMap Segment.written = row.flatMap Item.placed := by
  induction h with
  | nil => simp
  | loose _ _ ih =>
      obtain ⟨hi, hrest⟩ := List.forall_mem_cons.1 hmarkers
      obtain ⟨hproper, hwritten⟩ := ih hrest
      rw [List.flatMap_cons, List.flatMap_cons, hwritten]
      exact ⟨List.forall_mem_cons.2 ⟨hi, hproper⟩, rfl⟩
  | @object c e body rest segments _ hopen _ _ _ ih =>
      obtain ⟨-, hbody, -, hrest⟩ := by simpa [or_imp, forall_and] using hmarkers
      obtain ⟨hproper, hwritten⟩ := ih hrest
      have hnone : markersOf body = [] := List.filterMap_eq_nil_iff.2 hbody
      refine ⟨List.forall_mem_cons.2 ⟨direct_of_markersOf hnone, hproper⟩, ?_⟩
      rw [List.flatMap_cons, hwritten, Segment.written, hnone]
      simp [map_tokensOf hopen.uncut, Item.placed]
  | @unfinished c body rest segments _ hopen _ _ ih =>
      obtain ⟨-, hbody, hrest⟩ := by simpa [or_imp, forall_and] using hmarkers
      obtain ⟨hproper, hwritten⟩ := ih hrest
      refine ⟨List.forall_mem_cons.2 ⟨List.filterMap_eq_nil_iff.2 hbody, hproper⟩, ?_⟩
      rw [List.flatMap_cons, hwritten, Segment.written]
      simp [map_tokensOf hopen.uncut, Item.placed]

/-- Leaves without player markers are the parts of the expanded script. -/
theorem flatMap_placed_items {leaves : List Leaf} (h : leaves.any isPlayerMarker = false) :
    (∀ i ∈ leaves.flatMap items, i.marker? = none) ∧
      (leaves.flatMap items).flatMap Item.placed =
        (leaves.filterMap toPiece?).flatMap Piece.placed := by
  induction leaves with
  | nil => simp
  | cons leaf leaves ih =>
      rw [List.any_cons, Bool.or_eq_false_iff] at h
      obtain ⟨hmarkers, hplaced⟩ := ih h.2
      rw [List.flatMap_cons, List.flatMap_append, hplaced, List.forall_mem_append]
      cases leaf with
      | run r =>
          refine ⟨⟨by simp [items, Item.marker?], hmarkers⟩, ?_⟩
          simp [items, toPiece?, Piece.placed, Item.placed, List.flatMap_map, ← List.map_eq_flatMap]
      | header header => exact ⟨⟨by simp [items, Item.marker?], hmarkers⟩, rfl⟩
      | marker m span =>
          cases m with
          | cut => exact ⟨⟨by simp [items, Item.marker?], hmarkers⟩, rfl⟩
          | players m => cases h.1

/-- The parts of a script are placed as its segments are written, if its markers stand where
they may, and are refused otherwise. -/
theorem Divided.placeAll_iff {leaves : List Leaf} {segments : List Segment}
    (h : Divided (leaves.flatMap items) segments) :
    ((∃ pieces, placeAll leaves = .ok pieces) ↔ ∀ s ∈ segments, s.Proper) ∧
      ∀ pieces, placeAll leaves = .ok pieces →
        pieces.flatMap Piece.placed = segments.flatMap Segment.written := by
  cases hmarked : leaves.any isPlayerMarker with
  | true =>
      have hplace : placeAll leaves = (place none (leaves.flatMap items)).map (gather []) := by
        rw [placeAll, hmarked, if_pos rfl]
      cases hplaced : place none (leaves.flatMap items) with
      | ok placed =>
          obtain ⟨hproper, rfl⟩ := h.place_eq_ok_iff.1 hplaced
          rw [hplace, hplaced]
          refine ⟨⟨fun _ => hproper, fun _ => ⟨_, rfl⟩⟩, ?_⟩
          rintro pieces ⟨⟩
          exact h.flatMap_placed_gather
      | error r =>
          rw [hplace, hplaced]
          refine ⟨⟨?_, fun hproper => ?_⟩, ?_⟩
          · rintro ⟨pieces, ⟨⟩⟩
          · rw [h.place_eq_ok_iff.2 ⟨hproper, rfl⟩] at hplaced
            cases hplaced
          · rintro pieces ⟨⟩
  | false =>
      obtain ⟨hmarkers, hplaced⟩ := flatMap_placed_items hmarked
      obtain ⟨hproper, hwritten⟩ := h.of_unmarked hmarkers
      have hplace : placeAll leaves = .ok (leaves.filterMap toPiece?) := by
        rw [placeAll, hmarked, if_neg (by simp)]
      rw [hplace]
      refine ⟨⟨fun _ => hproper, fun _ => ⟨_, rfl⟩⟩, ?_⟩
      rintro pieces ⟨⟩
      rw [hwritten, hplaced]

/-- Placing the objects of a script copies the marked ones only.  The items fall into
segments; what is placed is, segment by segment, a marked object once for each land of its
last marker and everything else as it stands.  Without markers the search for objects finds
what stands there already. -/
theorem placeAll_copies (leaves : List Leaf) :
    (∃ segments, Divided (leaves.flatMap items) segments ∧
      segments.flatMap Segment.source = leaves.flatMap items) ∧
    (∀ segments pieces, Divided (leaves.flatMap items) segments → placeAll leaves = .ok pieces →
      pieces.flatMap Piece.placed = segments.flatMap Segment.written) ∧
    (leaves.any isPlayerMarker = false →
      placeAll leaves = .ok (leaves.filterMap toPiece?) ∧
      ∃ fed, (place none (leaves.flatMap items)).map (gather []) = .ok fed ∧
        fed.flatMap Piece.placed = (leaves.filterMap toPiece?).flatMap Piece.placed) := by
  obtain ⟨segments, hdivided⟩ := exists_divided (leaves.flatMap items)
  refine ⟨⟨segments, hdivided, hdivided.source_eq⟩,
    fun _ pieces h hpieces => h.placeAll_iff.2 pieces hpieces, fun hunmarked => ?_⟩
  obtain ⟨hmarkers, hplaced⟩ := flatMap_placed_items hunmarked
  obtain ⟨hproper, hwritten⟩ := hdivided.of_unmarked hmarkers
  refine ⟨by rw [placeAll, hunmarked, if_neg (by simp)],
    gather [] (segments.flatMap Segment.written), ?_, ?_⟩
  · rw [hdivided.place_eq_ok_iff.2 ⟨hproper, rfl⟩]
    rfl
  · rw [hdivided.flatMap_placed_gather, hwritten, hplaced]

/-- A source is read and expanded to leaves for which a test succeeds, with nothing declared
or reported. -/
theorem exists_leaves_of_any {source : Text} {test : List Leaf → Bool}
    (h : (Script.ofSource source).toOption.any (fun script =>
      decide (((Expansion.expandNodes script.parts).run.run ⟨{}, []⟩).2 = ⟨{}, []⟩) &&
        ((Expansion.expandNodes script.parts).run.run ⟨{}, []⟩).1.toOption.any test) = true) :
    ∃ script leaves, Script.ofSource source = .ok script ∧
      (Expansion.expandNodes script.parts).run.run ⟨{}, []⟩ = (.ok leaves, ⟨{}, []⟩) ∧
      test leaves = true := by
  obtain ⟨script, hscript, hruns⟩ := toOption_any_iff.1 h
  obtain ⟨hstate, hleaves⟩ := Bool.and_eq_true_iff.1 hruns
  obtain ⟨leaves, hleaves, htest⟩ := toOption_any_iff.1 hleaves
  exact ⟨script, leaves, hscript, Prod.ext hleaves (of_decide_eq_true hstate), htest⟩

/-- An object that a cut ends, one with a marker for two lands behind one for eight and a
body in its body, and a bracket too many. -/
def orchard : Text :=
  ("create_object A \x7b x\n#BREAK\ncreate_object B \x7b #PLACE8 y\n\x7b z \x7d " ++
    "#SET_PLACE_FOR_EVERY_PLAYER \x7d \x7d").toList

theorem placeAll_copies_orchard :
    ∃ script leaves pieces, Script.ofSource orchard = .ok script ∧
      (Expansion.expandNodes script.parts).run.run ⟨{}, []⟩ = (.ok leaves, ⟨{}, []⟩) ∧
      placeAll leaves = .ok pieces ∧
      (pieces.flatMap Piece.tokens).countP (Token.isWord ['B']) = 2 ∧
      ∃ segments, Divided (leaves.flatMap items) segments ∧
        pieces.flatMap Piece.placed = segments.flatMap Segment.written := by
  have hruns := @exists_leaves_of_any orchard
    (fun leaves => (placeAll leaves).toOption.any fun pieces =>
      decide ((pieces.flatMap Piece.tokens).countP (Token.isWord ['B']) = 2)) (by decide +kernel)
  obtain ⟨script, leaves, hscript, hleaves, hpieces⟩ := hruns
  obtain ⟨pieces, hpieces, hcount⟩ := toOption_any_iff.1 hpieces
  obtain ⟨⟨segments, hdivided, -⟩, hwritten, -⟩ := placeAll_copies leaves
  exact ⟨script, leaves, pieces, hscript, hleaves, hpieces, of_decide_eq_true hcount, segments,
    hdivided, hwritten segments pieces hdivided hpieces⟩

end Placement

end MapScript
