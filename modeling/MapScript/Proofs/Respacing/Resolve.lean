import MapScript.Proofs.Respacing.Block

/-!
# Names in blocks with other gaps

Blocks that differ in their gaps declare the same constants, are resolved to blocks
that differ so, and are refused for the same name.
-/

namespace MapScript

variable {k : Likeness}

namespace Resolve

/-- Arguments are checked alike. -/
theorem checkArguments_alike {args args' : List (List Token)}
    (h : List.Forall₂ (Argument k) args args') :
    Resolving.Parallel k (fun _ _ => True) (checkArguments args) (checkArguments args') := by
  unfold checkArguments
  apply Together.get
  intro table table' htable
  induction h with
  | nil => exact .pure trivial
  | cons harg _ ih =>
      simp only [List.forM_eq_forM, List.forM_cons] at ih ⊢
      exact (Together.lift (htable.check harg.references_alike)).bind fun _ _ _ => ih

mutual

/-- Blocks that are alike declare in rows that are alike. -/
theorem nodeGroups_alike : ∀ (n : Node) {n' : Node}, Node.Alike k n n' →
    List.Forall₂ (Row k) (nodeGroups n) (nodeGroups n')
  | .run _, _, .run hrow => .cons hrow .nil
  | .marker _ _, _, .marker _ _ => .nil
  | .header _, _, .header _ => .nil
  | .repeated _ children _ _, _, .repeated _ hchildren _ => groups_alike children hchildren
  | .call c, .call c', .call hcall => by
    have hbody := hcall.body
    rw [nodeGroups, nodeGroups]
    generalize c.body = content at hbody
    generalize c'.body = content' at hbody
    cases hbody with
    | none => exact .nil
    | some hrow => exact .cons hrow .nil

theorem groups_alike : ∀ (ns : List Node) {ns' : List Node}, Node.AlikeAll k ns ns' →
    List.Forall₂ (Row k) (groups ns) (groups ns')
  | [], _, .nil => .nil
  | n :: ns, _, .cons hn hns => List.rel_append (nodeGroups_alike n hn) (groups_alike ns hns)

end

theorem declare_alike {table table' : SymbolTable} (htable : table.Alike k table')
    {ns ns' : List Node} (h : Node.AlikeAll k ns ns') :
    (declare table ns).Alike k (declare table' ns') := by
  apply htable.declareAll
  have hrows := groups_alike ns h
  generalize groups ns = rows at hrows
  generalize groups ns' = rows' at hrows
  induction hrows with
  | nil => exact .nil
  | cons hrow _ ih => exact List.rel_append (declarations_alike hrow.significant) ih

mutual

/-- A block is resolved to one that is alike. -/
theorem resolveNode_alike : ∀ (n : Node) {n' : Node}, Node.Alike k n n' →
    Resolving.Parallel k (Node.Alike k) (resolveNode n) (resolveNode n')
  | .run r, .run r', .run hrow => by
    rw [resolveNode, resolveNode]
    exact (resolveTokens_alike hrow).bind fun _ _ hrow => .pure (.run hrow)
  | .marker _ _, _, .marker m hplace => by
    rw [resolveNode, resolveNode]
    exact .pure (.marker m hplace)
  | .header _, _, .header hlines => by
    rw [resolveNode, resolveNode]
    exact .pure (.header hlines)
  | .repeated _ children _ _, _, .repeated hargs hchildren hplace => by
    rw [resolveNode, resolveNode]
    apply (checkArguments_alike hargs).bind
    rintro _ _ -
    exact (resolveNodes_alike children hchildren).bind fun _ _ hnodes =>
      .pure (.repeated hargs hnodes hplace)
  | .call c, .call c', .call hcall => by
    obtain ⟨name, args, content, span⟩ := c
    obtain ⟨name', args', content', span'⟩ := c'
    obtain ⟨hname, hargs, hbody, hplace⟩ := hcall
    rw [resolveNode, resolveNode]
    apply (checkArguments_alike hargs).bind
    rintro _ _ -
    dsimp only at hbody ⊢
    cases hbody with
    | none => exact .pure (.call ⟨hname, hargs, .none, hplace⟩)
    | some hrow =>
        exact (resolveTokens_alike hrow).bind fun _ _ hrow =>
          .pure (.call ⟨hname, hargs, .some hrow, hplace⟩)

theorem resolveNodes_alike : ∀ (ns : List Node) {ns' : List Node}, Node.AlikeAll k ns ns' →
    Resolving.Parallel k (Node.AlikeAll k) (resolveNodes ns) (resolveNodes ns')
  | [], _, .nil => by
    rw [resolveNodes]
    exact .pure .nil
  | n :: ns, _, .cons hn hns => by
    rw [resolveNodes, resolveNodes]
    apply (resolveNode_alike n hn).bind
    intro _ _ hhead
    exact (resolveNodes_alike ns hns).bind fun _ _ htail => .pure (.cons hhead htail)

end

end Resolve

/-- Scripts that are alike are resolved to such scripts, or refused alike. -/
theorem Script.resolve_alike {s s' : Script Node} (h : Script.Alike (Node.AlikeAll k) s s') :
    Resolving.Parallel k (Script.Alike (Node.AlikeAll k)) s.resolve s'.resolve := by
  unfold Script.resolve
  apply Together.modified fun _ _ htable => Resolve.declare_alike htable h.1
  exact (Resolve.resolveNodes_alike s.parts h.1).bind fun _ _ hparts => .pure ⟨hparts, h.2⟩

end MapScript
