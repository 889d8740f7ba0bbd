import MapScript.Block.Builder
import MapScript.Proofs.Symbol.Trace

/-!
# Constants that need each other

The names on the stack of a search are a walk along references, and a search that
meets a name on the stack closes this walk.  So a script refused for a cycle has
one.  A script that is resolved has none: the names in its declarations have
values, and a name with a value does not need itself.
-/

namespace MapScript

namespace Evaluation

variable {table : SymbolTable}

/-- A refusal that reports a closed walk along references, in which no name but the
first occurs twice. -/
def ClosedWalk (table : SymbolTable) (e : Failure) : Prop :=
  ∃ first inner span notes, e = .refuse (.cycle (first :: inner ++ [first])) span notes ∧
    (first :: inner).Nodup ∧ (first :: inner ++ [first]).IsChain (Refers table)

/-- A name on the stack closes the walk from it on. -/
theorem cycle_closedWalk {stack : List Frame} {name : Text} (hmem : name ∈ stack.map Frame.name)
    (hwalk : (stack.map Frame.name ++ [name]).IsChain (Refers table))
    (hnodup : (stack.map Frame.name).Nodup) : ClosedWalk table (cycle stack name) := by
  have hsplit := List.takeWhile_append_dropWhile (p := fun f : Frame => f.name != name) (l := stack)
  rw [cycle]
  split
  · next hnone =>
    obtain ⟨f, hf, rfl⟩ := List.mem_map.1 hmem
    simpa using List.dropWhile_eq_nil_iff.1 hnone f hf
  · next first rest hdrop =>
    have hfirst : first.name = name := by
      have hstop := List.head?_dropWhile_not (fun f : Frame => f.name != name) stack
      simpa [hdrop] using hstop
    subst hfirst
    rw [hdrop] at hsplit
    rw [← hsplit, List.map_append] at hwalk hnodup
    rw [List.append_assoc] at hwalk
    exact ⟨first.name, rest.map Frame.name, _, _, rfl, (List.nodup_append.1 hnodup).2.1,
      (List.isChain_append.1 hwalk).2.1⟩

/-- Along a walk, a search fails for want of a declaration, by its arithmetic, or by
closing the walk. -/
theorem search_walks (table : SymbolTable) :
    (∀ stack refs memo, (stack.map Frame.name).Nodup →
      (∀ ref ∈ refs, (stack.map Frame.name ++ [ref.raw]).IsChain (Refers table)) →
      Ends (valuesOf table stack refs) memo (fun _ _ => True)
        (fun e _ => e.Only [.unresolved] ∨ ClosedWalk table e)) ∧
    (∀ stack ref memo, (stack.map Frame.name).Nodup →
      (stack.map Frame.name ++ [ref.raw]).IsChain (Refers table) →
      Ends (valueOf table stack ref) memo (fun _ _ => True)
        (fun e _ => e.Only [.unresolved] ∨ ClosedWalk table e)) ∧
    (∀ stack name declarations memo, (stack.map Frame.name ++ [name]).Nodup →
      (stack.map Frame.name ++ [name]).IsChain (Refers table) →
      (∀ d ∈ declarations, ∀ ref ∈ Operand.references d.operand, Refers table name ref.raw) →
      Ends (foldAll table stack name declarations) memo (fun _ _ => True)
        (fun e _ => e.Only [.unresolved] ∨ ClosedWalk table e)) := by
  apply valuesOf.mutual_induct table
  case case1 =>
    intro stack memo _ _
    rw [valuesOf]
    trivial
  case case2 =>
    intro stack ref rest href hrest memo hnodup hwalk
    rw [List.forall_mem_cons] at hwalk
    rw [valuesOf]
    simp only [Ends.bind_iff, Ends.pure_iff]
    apply (href memo hnodup hwalk.1).weaken
    intro value memo₁ _
    exact hrest memo₁ hnodup hwalk.2
  case case3 =>
    intro stack ref ih memo hnodup hwalk
    rw [valueOf]
    simp only [Ends.bind_iff, Ends.lift_iff, Ends.get_iff]
    refine ⟨?_, ?_⟩
    · rintro ⟨⟩ -
      split
      · trivial
      split
      · trivial
      next declarations hknown =>
        split
        · next hfresh =>
          have hnew : (stack.map Frame.name ++ [ref.raw]).Nodup := by
            rw [Bool.eq_false_iff, ne_eq, List.contains_iff_mem] at hfresh
            exact List.nodup_append.2 ⟨hnodup, by simp, by grind⟩
          simp only [Ends.bind_iff, Ends.modify_iff, Ends.pure_iff]
          apply ih declarations hknown hfresh memo hnew hwalk
          intro d hd r hr
          exact ⟨declarations, hknown, d, hd, r, hr, rfl⟩
        · next hentered =>
          rw [Bool.not_eq_false, List.contains_iff_mem] at hentered
          exact Or.inr (cycle_closedWalk hentered hwalk hnodup)
    · intro e he
      obtain ⟨r, rfl, hkind⟩ := Resolve.require_error he
      left
      simp [Failure.Only, hkind]
  case case4 =>
    intro stack name memo _ _ _
    rw [foldAll]
    trivial
  case case5 =>
    intro stack name d rest hvalues hrest memo hnodup hwalk hrefers
    rw [List.forall_mem_cons] at hrefers
    rw [foldAll]
    simp only [Ends.bind_iff, Ends.pure_iff]
    have hnames : (stack ++ [Frame.mk name d.span]).map Frame.name =
        stack.map Frame.name ++ [name] := by
      rw [List.map_append]
      rfl
    apply (hvalues memo (by rw [hnames]; exact hnodup) _).weaken
    · intro values memo₁ _
      rw [foldExpression_ends_iff]
      refine ⟨fun value _ => hrest memo₁ hnodup hwalk hrefers.2, ?_⟩
      intro f hf
      left
      intro hzero
      exact Expression.fold_divides _ _ (by rw [hf, hzero])
    · intro ref href
      rw [hnames]
      refine List.isChain_append.2 ⟨hwalk, by simp, ?_⟩
      simpa using hrefers.1 ref href

end Evaluation

/-! ### Walks -/

section Walks
variable {α : Type} {R : α → α → Prop}

/-- Every place of a walk but the last is left again. -/
theorem exists_rel_of_isChain {l : List α} {last a : α} (h : (l ++ [last]).IsChain R)
    (ha : a ∈ l) : ∃ b, R a b := by
  induction l with
  | nil => cases ha
  | cons x l ih =>
      have hx : ∃ b, R x b := by
        cases l with
        | nil => exact ⟨last, by simpa using h⟩
        | cons y l => exact ⟨y, (List.isChain_cons_cons.1 h).1⟩
      rcases List.mem_cons.1 ha with rfl | ha
      · exact hx
      · exact ih h.tail ha

theorem transGen_of_isChain {l : List α} {first last : α} (h : (first :: l ++ [last]).IsChain R) :
    Relation.TransGen R first last := by
  induction l generalizing first with
  | nil => exact .single (by simpa using h)
  | cons x l ih =>
      obtain ⟨hstep, hrest⟩ := List.isChain_cons_cons.1 h
      exact .head hstep (ih hrest)

end Walks

/-! ### Scripts -/

namespace Script

open Evaluation Resolve

/-- What resolving a script with a table ends in. -/
def resolution (s : Script Node) (table : SymbolTable) : Except Failure (Script Node) :=
  (s.resolve.run.run table).1

/-- The graph of the constants of a script: one needs another that is referred to in
one of its declarations. -/
def Needs (s : Script Node) (c d : Text) : Prop :=
  (∃ entry ∈ s.declared, entry.1 = c ∧ ∃ ref ∈ Operand.references entry.2.operand, ref.raw = d) ∧
  ∃ entry ∈ s.declared, entry.1 = d

instance (s : Script Node) (c d : Text) : Decidable (s.Needs c d) :=
  inferInstanceAs (Decidable (_ ∧ _))

variable {s : Script Node} {table : SymbolTable}

theorem refers_iff (htable : table.constants = []) {c d : Text} :
    Refers (declare table s.parts) c d ↔ ∃ entry ∈ s.declared, entry.1 = c ∧
      ∃ ref ∈ Operand.references entry.2.operand, ref.raw = d := by
  rw [Refers, s.lookup_declare htable]
  constructor
  · rintro ⟨ds, hds, declaration, hmem, href⟩
    split at hds
    · cases hds
    · cases hds
      exact ⟨(c, declaration), SymbolTable.mem_declarationsOf.1 hmem, rfl, href⟩
  · rintro ⟨⟨_, declaration⟩, hmem, rfl, href⟩
    have hin := SymbolTable.mem_declarationsOf.2 hmem
    rw [if_neg (List.ne_nil_of_mem hin)]
    exact ⟨_, rfl, declaration, hin, href⟩

/-- A script that is not resolved lacks a declaration, is at fault in its arithmetic,
or has a closed walk. -/
theorem closedWalk_of_halts (htable : table.constants = []) (hvalues : table.values = [])
    {e : Failure} (h : Halts s.scope (declare table s.parts) e) :
    e.Only [.unresolved] ∨ ClosedWalk (declare table s.parts) e := by
  obtain ⟨mid, hreaches, hstops⟩ := h
  obtain ⟨hgrows, -⟩ := hreaches.sound (s.sound_declare hvalues)
  have hsame : Refers mid = Refers (declare table s.parts) := by
    funext c d
    rw [Refers, Refers, hgrows.constants]
  cases hstops with
  | undeclared hkind =>
      left
      simp [Failure.Only, hkind]
  | @search entry _ memo hdeclared hfailed =>
      have hrefers : ∀ ref ∈ Operand.references entry.2.operand, Refers mid entry.1 ref.raw := by
        intro ref href
        rw [hsame, refers_iff htable]
        exact ⟨entry, hdeclared, rfl, ref, href, rfl⟩
      have hends : Ends (Evaluation.foldDeclaration mid entry.1 entry.2) mid.values
          (fun _ _ => True) (fun e _ => e.Only [.unresolved] ∨ ClosedWalk mid e) := by
        rw [Evaluation.foldDeclaration, fold, Ends.bind_iff]
        apply ((search_walks mid).1 _ _ mid.values (by simp) _).weaken
        · intro values memo' _
          rw [foldExpression_ends_iff]
          refine ⟨fun _ _ => trivial, fun f hf => Or.inl fun hzero => ?_⟩
          exact Expression.fold_divides _ _ (by rw [hf, hzero])
        · intro ref href
          simpa using hrefers ref href
      have hreason := hends.of_run_error hfailed
      rw [ClosedWalk, hsame] at hreason
      exact hreason
  | longArea _ hlong => exact Or.inl fun hzero => Number.format_divides _ (by rw [hlong, hzero])
  | longValue _ _ hlong => exact Or.inl fun hzero => Number.format_divides _ (by rw [hlong, hzero])

/-- A resolved script has no constant that needs itself. -/
theorem acyclic_of_covers (htable : table.constants = []) (hvalues : table.values = [])
    {table' : SymbolTable} (h : Covers s.scope (declare table s.parts) s.declared table')
    (c : Text) : ¬ Relation.TransGen s.Needs c c := by
  intro hcycle
  obtain ⟨p, -, hneeds⟩ := Relation.TransGen.tail'_iff.1 hcycle
  obtain ⟨⟨entry, hmem, -, ref, href, rfl⟩, -⟩ := hneeds
  obtain ⟨values, result, hassigns, -⟩ := h.folded (s.sound_declare hvalues) hmem
  obtain ⟨hgrows, -⟩ := h.reaches.sound (s.sound_declare hvalues)
  refine (hassigns ref href).not_refers_self (Relation.TransGen.mono ?_ _ _ hcycle)
  rintro a b ⟨hrefers, -⟩
  rw [Refers, hgrows.constants]
  exact (refers_iff htable).2 hrefers

theorem needs_of_closedWalk (htable : table.constants = []) {first : Text} {inner : List Text}
    (h : (first :: inner ++ [first]).IsChain (Refers (declare table s.parts))) :
    (first :: inner ++ [first]).IsChain s.Needs := by
  -- a name of a closed walk is left again, so it is declared
  have hdeclared : ∀ d ∈ first :: inner ++ [first], ∃ entry ∈ s.declared, entry.1 = d := by
    intro d hd
    have hmem : d ∈ first :: inner := by
      rcases List.mem_append.1 hd with hd | hd
      · exact hd
      · rw [List.mem_singleton.1 hd]
        exact List.mem_cons_self
    obtain ⟨b, hb⟩ := exists_rel_of_isChain h hmem
    obtain ⟨entry, hentry, hname, -⟩ := (refers_iff htable).1 hb
    exact ⟨entry, hentry, hname⟩
  apply h.imp_of_mem_imp
  intro a b _ hb hrefers
  exact ⟨(refers_iff htable).1 hrefers, hdeclared b hb⟩

/-- Where no reference is refused and no arithmetic is at fault, a script is refused
for a cycle exactly if a constant of it needs itself, and the names that are reported
are a closed walk in which no other name occurs twice. -/
theorem resolve_cyclic (s : Script Node) (table : SymbolTable) (constants : table.constants = [])
    (values : table.values = [])
    (resolvable : ∀ r, s.resolution table = .error (.report r) → r.cause.kind ≠ .unresolved)
    (computable : ∀ f, s.resolution table ≠ .error (.fault f)) :
    ((∃ r, s.resolution table = .error (.report r) ∧ r.cause.kind = .cyclic) ↔
      ∃ c, Relation.TransGen s.Needs c c) ∧
    ∀ r, s.resolution table = .error (.report r) → r.cause.kind = .cyclic →
      ∃ first inner, r.cause = .cycle (first :: inner ++ [first]) ∧ (first :: inner).Nodup ∧
        (first :: inner ++ [first]).IsChain s.Needs := by
  have hends := s.resolve_traces table
  have hwalk {r : Report} (hr : s.resolution table = .error (.report r)) :
      ∃ first inner, r.cause = .cycle (first :: inner ++ [first]) ∧ (first :: inner).Nodup ∧
        (first :: inner ++ [first]).IsChain s.Needs := by
    have hhalts := hends.of_run_error (Prod.ext hr rfl)
    rcases closedWalk_of_halts constants values hhalts with honly | hclosed
    · exact absurd (List.mem_singleton.1 honly) (resolvable r hr)
    · obtain ⟨first, inner, span, notes, hcause, hnodup, hchain⟩ := hclosed
      cases hcause
      exact ⟨first, inner, rfl, hnodup, needs_of_closedWalk constants hchain⟩
  refine ⟨⟨?_, ?_⟩, fun r hr _ => hwalk hr⟩
  · rintro ⟨r, hr, -⟩
    obtain ⟨first, inner, -, -, hchain⟩ := hwalk hr
    exact ⟨first, transGen_of_isChain hchain⟩
  · rintro ⟨c, hcycle⟩
    cases hrun : s.resolution table with
    | ok out =>
        have hcovers := hends.of_run_ok (Prod.ext hrun rfl)
        exact absurd hcycle (acyclic_of_covers constants values hcovers c)
    | error e =>
        cases e with
        | fault f => exact absurd hrun (computable f)
        | report r =>
            obtain ⟨first, inner, hcause, -⟩ := hwalk hrun
            exact ⟨r, rfl, by rw [hcause]; rfl⟩

/-- Two constants that need each other, one of them in an expression. -/
theorem resolve_cyclic_pair :
    ∃ s, Script.ofSource "#const A (B + 1)\n#const B A".toList = .ok s ∧
      (∃ r, s.resolution {} = .error (.report r) ∧ r.cause.kind = .cyclic) ∧
      ∃ c, Relation.TransGen s.Needs c c := by
  have hcyclic : (match Script.ofSource "#const A (B + 1)\n#const B A".toList with
      | .ok s =>
        match s.resolution {} with
        | .error (.report r) => r.cause.kind == .cyclic
        | _ => false
      | .error _ => false) = true := by
    decide +kernel
  split at hcyclic
  · next s hs =>
    split at hcyclic
    · next r hr =>
      have hkind : r.cause.kind = .cyclic := eq_of_beq hcyclic
      have hiff := (resolve_cyclic s {} rfl rfl
        (by
          intro r' hr'
          cases hr.symm.trans hr'
          simp [hkind])
        (by
          intro f hf
          cases hr.symm.trans hf)).1
      exact ⟨s, hs, ⟨r, hr, hkind⟩, hiff.1 ⟨r, hr, hkind⟩⟩
    · cases hcyclic
  · cases hcyclic

/-- The script `#const X 77..7`, `#const A B`, `#const B A` with the given number of
digits, its tokens taken out of their places. -/
def longBeforeCycle (digits : Nat) : Script Node :=
  let row : List Lexeme := [⟨.directive, "#const".toList⟩, ⟨.word, ['X']⟩,
    ⟨.number, List.replicate digits '7'⟩, ⟨.directive, "#const".toList⟩, ⟨.word, ['A']⟩,
    ⟨.word, ['B']⟩, ⟨.directive, "#const".toList⟩, ⟨.word, ['B']⟩, ⟨.word, ['A']⟩]
  ⟨[.run ⟨row.map fun l => ⟨l, .point .origin⟩, .point .origin⟩], .point .origin⟩

/-- A numeral of too many digits is met before the cycle, which is then not reported. -/
theorem resolve_tooLong_before_cycle :
    (longBeforeCycle 4301).resolution {} = .error (.fault .tooLong) ∧
      Relation.TransGen (longBeforeCycle 4301).Needs ['A'] ['A'] := by
  have hfault : (match (longBeforeCycle 4301).resolution {} with
      | .error (.fault .tooLong) => true
      | _ => false) = true := by
    decide +kernel
  have hneeds : (longBeforeCycle 4301).Needs ['A'] ['B'] ∧
      (longBeforeCycle 4301).Needs ['B'] ['A'] := by
    decide +kernel
  refine ⟨?_, .tail (.single hneeds.1) hneeds.2⟩
  split at hfault
  · next hrun => exact hrun
  · cases hfault

end Script

end MapScript
