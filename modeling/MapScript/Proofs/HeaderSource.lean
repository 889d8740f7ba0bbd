import MapScript.Proofs.HeaderProse
import MapScript.Proofs.Lands
import MapScript.Proofs.Placement.Objects
import MapScript.Proofs.Truncation

/-!
# Headers through the passes

The headers of an expanded script, with its random calls in front or not, are headers of
the source.  Resolving keeps what stands around the rows of a script; expansion leaves a
header where it meets one; objects are placed around headers; and hoisting touches runs
only.
-/

namespace MapScript

variable {h : Header}

/-- The header is in the tree of one of the blocks. -/
def Node.HeldIn (h : Header) (ns : List Node) : Prop := ∃ n ∈ ns, n.Holds h

namespace Node

theorem heldIn_cons_iff {n : Node} {ns : List Node} :
    HeldIn h (n :: ns) ↔ n.Holds h ∨ HeldIn h ns := List.exists_mem_cons_iff _ _ _

theorem holds_header_iff {h' : Header} : (Node.header h').Holds h ↔ h = h' := by
  constructor
  · rintro ⟨⟩
    rfl
  · rintro rfl
    exact .here

theorem holds_repeated_iff {args : List (List Token)} {children : List Node}
    {openSpan span : Span} :
    (Node.repeated args children openSpan span).Holds h ↔ HeldIn h children := by
  constructor
  · rintro (_ | ⟨hmem, hheld⟩)
    exact ⟨_, hmem, hheld⟩
  · rintro ⟨n, hmem, hheld⟩
    exact .within hmem hheld

end Node

open Node (HeldIn heldIn_cons_iff holds_header_iff holds_repeated_iff)

namespace Resolve

mutual

theorem holds_shape_iff (n : Node) : (shape n).Holds h ↔ n.Holds h := by
  match n with
  | .run r => exact ⟨nofun, nofun⟩
  | .marker m span => rfl
  | .header h' => rfl
  | .call c => exact ⟨nofun, nofun⟩
  | .repeated args children openSpan span =>
      rw [shape, holds_repeated_iff, holds_repeated_iff]
      exact heldIn_shapes_iff children

/-- A script has its headers around its rows. -/
theorem heldIn_shapes_iff (ns : List Node) : HeldIn h (shapes ns) ↔ HeldIn h ns := by
  match ns with
  | [] => rfl
  | n :: ns =>
      rw [shapes, heldIn_cons_iff, heldIn_cons_iff, holds_shape_iff n, heldIn_shapes_iff ns]

end

end Resolve

/-- Resolving a script keeps its headers. -/
theorem Script.resolve_headers (s : Script Node) (table : SymbolTable) :
    Ends s.resolve table (fun out _ => HeldIn h out.parts ↔ HeldIn h s.parts)
      (fun _ _ => True) := by
  unfold resolve
  simp only [Ends.bind_iff, Ends.modify_iff, Ends.pure_iff]
  apply (Resolve.resolveNodes_shape s.parts _).weaken
  rintro out table' ⟨hshapes, -⟩
  rw [← Resolve.heldIn_shapes_iff, hshapes, Resolve.heldIn_shapes_iff]

namespace Expansion

mutual

theorem expandNode_headers (n : Node) (s : Session) :
    Ends (expandNode n) s (fun leaves _ => Leaf.header h ∈ leaves → n.Holds h)
      (fun _ _ => True) := by
  match n with
  | .run r =>
      rw [expandNode]
      simp
  | .marker m span =>
      rw [expandNode]
      simp
  | .header h' =>
      rw [expandNode]
      simp [holds_header_iff]
  | .call c =>
      rw [expandNode]
      apply (expandCall_binds c s).weaken
      rintro leaves s' ⟨count, points, -, rfl⟩
      simp
  | .repeated args children openSpan span =>
      rw [expandNode]
      simp only [Ends.bind_iff, Ends.pure_iff]
      apply (expandNodes_headers children s).weaken
      intro body s₁ hbody
      refine Ends.of_run (fun count s₂ _ hmem => ?_) fun _ _ _ => trivial
      rw [copies_eq] at hmem
      obtain ⟨copy, hcopy, hmem⟩ := List.mem_flatten.1 hmem
      rw [List.eq_of_mem_replicate hcopy] at hmem
      exact holds_repeated_iff.2 (hbody hmem)

/-- Expansion leaves headers where it meets them. -/
theorem expandNodes_headers (ns : List Node) (s : Session) :
    Ends (expandNodes ns) s (fun leaves _ => Leaf.header h ∈ leaves → HeldIn h ns)
      (fun _ _ => True) := by
  match ns with
  | [] =>
      rw [expandNodes]
      simp
  | n :: ns =>
      rw [expandNodes]
      simp only [Ends.bind_iff, Ends.pure_iff]
      apply (expandNode_headers n s).weaken
      intro leaves s₁ hleaves
      apply (expandNodes_headers ns s₁).weaken
      intro more s₂ hmore hmem
      rw [heldIn_cons_iff]
      exact (List.mem_append.1 hmem).imp hleaves hmore

end

end Expansion

namespace Placement

/-- A header that is placed was there. -/
theorem header_of_placeAll {leaves : List Leaf} {pieces : List Piece}
    (hplace : placeAll leaves = .ok pieces) (hh : Piece.header h ∈ pieces) :
    Leaf.header h ∈ leaves := by
  obtain ⟨segments, hdivided⟩ := exists_divided (leaves.flatMap items)
  have hplaced : Sum.inr (.header h) ∈ pieces.flatMap Piece.placed :=
    List.mem_flatMap.2 ⟨_, hh, List.mem_singleton_self _⟩
  rw [hdivided.placeAll_iff.2 pieces hplace] at hplaced
  obtain ⟨segment, hsegment, hwritten⟩ := List.mem_flatMap.1 hplaced
  have hitem : Item.barrier (.header h) ∈ leaves.flatMap items := by
    rw [← hdivided.source_eq]
    exact List.mem_flatMap.2 ⟨segment, hsegment, Segment.barrier_mem_of_written hwritten⟩
  obtain ⟨leaf, hleaf, hitem⟩ := List.mem_flatMap.1 hitem
  cases leaf with
  | run r => simp [items] at hitem
  | marker m span => cases m <;> simp [items] at hitem
  | header h' =>
      simp only [items, List.mem_singleton, Item.barrier.injEq, Piece.header.injEq] at hitem
      rwa [hitem]

end Placement

theorem Script.expand_headers (s : Script Node) (session : Session) :
    Ends s.expand session (fun out _ => Piece.header h ∈ out.parts → HeldIn h s.parts)
      (fun _ _ => True) := by
  unfold expand
  simp only [Ends.bind_iff, Pass.ofReport_ends_iff, Ends.pure_iff]
  apply (Expansion.expandNodes_headers s.parts session).weaken
  intro leaves s₁ hleaves
  exact ⟨fun pieces hpieces hh => hleaves (Placement.header_of_placeAll hpieces hh),
    fun _ _ => trivial⟩

/-- A header among the parts that are hoisted stands where it stood. -/
theorem Piece.HoistsTo.header_mem {parts parts' : List Piece}
    (hall : List.Forall₂ HoistsTo parts parts') (hh : header h ∈ parts') : header h ∈ parts := by
  obtain ⟨p, hmem, hp⟩ := exists_of_forall₂_mem hall hh
  cases p <;> cases hp
  exact hmem

/-- A script with its random calls in front has the headers it had. -/
theorem Script.hoist_headers (stem : Text) (s : Script Piece) (session : Session) :
    Ends (s.hoist stem) session (fun out _ => Piece.header h ∈ out.parts → .header h ∈ s.parts)
      (fun _ _ => True) := by
  unfold hoist
  simp only [Ends.bind_iff, Ends.get_iff]
  apply (Hoist.hoistPieces_hoistsTo stem s.parts _ session).weaken
  rintro ⟨pieces, state⟩ s₁ hpieces
  split
  · exact fun hh => hh
  · intro hh
    exact Piece.HoistsTo.header_mem hpieces (by simpa using hh)

namespace Preprocess

/-- The headers of a script with its random calls in front are those of the source. -/
theorem hoisted_headers (options : Options) (source : Text) :
    Ends (hoisted options source) (Session.start options)
      (fun out _ => ∃ script, Script.ofSource source = .ok script ∧
        (Piece.header h ∈ out.parts → HeldIn h script.parts)) (fun _ _ => True) := by
  unfold hoisted expanded resolved blocks
  simp only [Ends.bind_iff, Pass.ofReport_ends_iff, Pass.onTable_ends_iff]
  refine ⟨fun script hscript => ?_, fun _ _ => trivial⟩
  apply (script.resolve_headers _).weaken
  intro named table hnamed
  apply (named.expand_headers _).weaken
  intro pieces s hpieces
  split
  · apply (pieces.hoist_headers options.stem s).weaken
    intro out s' hout
    exact ⟨script, hscript, fun hh => hnamed.1 (hpieces (hout hh))⟩
  · exact ⟨script, hscript, fun hh => hnamed.1 (hpieces hh)⟩

end Preprocess

end MapScript
