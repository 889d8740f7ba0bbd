import MapScript.Proofs.Stages
import MapScript.Proofs.Symbol.Fault

/-!
# Where a run halts on a fault

Arithmetic is all that can end a run without a result or a refusal, and a fault has
its place in the script, whichever pass meets it: in an expression, in the layout of a
call, or in a number that is too long to be written.  Resolving changes neither
arguments nor calls, so the places are those of the script as it is read.
-/

namespace MapScript

open Evaluation (Yields Declares Blames Sound HasValue Assigns)

/-! ### What a resolved script keeps -/

namespace Resolve

mutual

/-- The calls in a block, each with its name and its arguments. -/
def nodeCalls : Node → List (Text × List (List Token))
  | .run _ | .marker _ _ | .header _ => []
  | .call c => [(c.name, c.args)]
  | .repeated _ children _ _ => callsIn children

/-- The calls in blocks, in the order of the script. -/
def callsIn : List Node → List (Text × List (List Token))
  | [] => []
  | n :: ns => nodeCalls n ++ callsIn ns

end

mutual

theorem resolveNode_arguments (n : Node) (table : SymbolTable) :
    Ends (resolveNode n) table
      (fun out _ => nodeArguments out = nodeArguments n ∧ nodeCalls out = nodeCalls n)
      (fun _ _ => True) := by
  match n with
  | .run r =>
      rw [resolveNode]
      simp only [Ends.bind_iff, Ends.pure_iff]
      exact Ends.of_run (fun _ _ _ => ⟨rfl, rfl⟩) fun _ _ _ => trivial
  | .marker m span =>
      rw [resolveNode]
      exact ⟨rfl, rfl⟩
  | .header h =>
      rw [resolveNode]
      exact ⟨rfl, rfl⟩
  | .repeated args children openSpan span =>
      rw [resolveNode]
      simp only [Ends.bind_iff, Ends.pure_iff]
      refine Ends.of_run (fun _ table₁ _ => ?_) fun _ _ _ => trivial
      apply (resolveNodes_arguments children table₁).weaken
      rintro out table₂ ⟨harguments, hcalls⟩
      simp only [nodeArguments, nodeCalls, harguments, hcalls, and_self]
  | .call c =>
      rw [resolveNode.eq_def]
      simp only [Ends.bind_iff]
      refine Ends.of_run (fun _ table₁ _ => ?_) fun _ _ _ => trivial
      split
      · exact ⟨rfl, rfl⟩
      · simp only [Ends.bind_iff, Ends.pure_iff]
        exact Ends.of_run (fun _ _ _ => ⟨rfl, rfl⟩) fun _ _ _ => trivial

/-- Resolving changes neither arguments nor calls. -/
theorem resolveNodes_arguments (ns : List Node) (table : SymbolTable) :
    Ends (resolveNodes ns) table
      (fun out _ => argumentsIn out = argumentsIn ns ∧ callsIn out = callsIn ns)
      (fun _ _ => True) := by
  match ns with
  | [] =>
      rw [resolveNodes]
      exact ⟨rfl, rfl⟩
  | n :: ns =>
      rw [resolveNodes]
      simp only [Ends.bind_iff, Ends.pure_iff]
      apply (resolveNode_arguments n table).weaken
      rintro out table₁ ⟨harguments, hcalls⟩
      apply (resolveNodes_arguments ns table₁).weaken
      rintro outs table₂ ⟨harguments', hcalls'⟩
      simp only [argumentsIn, callsIn, harguments, harguments', hcalls, hcalls', and_self]

end

end Resolve

namespace Script

open Resolve

/-- The operands of a script: those of its constants, and its arguments. -/
def operands (s : Script Node) : List (List Token) :=
  (s.declared.map fun entry => entry.2.operand) ++ argumentsIn s.parts

/-- The calls of a script. -/
def calls (s : Script Node) : List (Text × List (List Token)) := callsIn s.parts

/-- Resolving a script comes to the table. -/
def Reached (options : Options) (s : Script Node) (table : SymbolTable) : Prop :=
  Reaches s.scope (declare (Session.start options).table s.parts) table

/-- Somewhere in a script arithmetic has no result, with the names that are entered in
the table by then. -/
def AtFault (options : Options) (s : Script Node) (f : Fault) : Prop :=
  ∃ table, s.Reached options table ∧ f.Arises table s.operands s.calls

variable {options : Options} {s : Script Node} {table : SymbolTable}

theorem Reached.sound (h : s.Reached options table) :
    (declare (Session.start options).table s.parts).Grows table ∧ Sound table table.values :=
  Reaches.sound h (s.sound_declare rfl)

theorem Reached.mem_operands (h : s.Reached options table) {operand : List Token}
    (hoperand : Declares table operand) : operand ∈ s.operands := by
  obtain ⟨name, ds, d, hknown, hd, rfl⟩ := hoperand
  rw [h.sound.1.constants, s.lookup_declare rfl] at hknown
  split at hknown
  · cases hknown
  · cases hknown
    have hmem := SymbolTable.mem_declarationsOf.1 hd
    exact List.mem_append_left _ (List.mem_map.2 ⟨_, hmem, rfl⟩)

/-- A script that is resolved keeps what is expanded later, and a fault on the way
has its place in the script. -/
theorem resolve_atFault (options : Options) (s : Script Node) :
    Ends s.resolve (Session.start options).table
      (fun out table => s.Reached options table ∧
        argumentsIn out.parts = argumentsIn s.parts ∧ callsIn out.parts = callsIn s.parts)
      (fun e _ => ∀ f, e = .fault f → s.AtFault options f) := by
  have hkept : Ends s.resolve (Session.start options).table
      (fun out _ => argumentsIn out.parts = argumentsIn s.parts ∧
        callsIn out.parts = callsIn s.parts) (fun _ _ => True) := by
    rw [resolve]
    simp only [Ends.bind_iff, Ends.modify_iff, Ends.pure_iff]
    exact resolveNodes_arguments s.parts _
  apply ((s.resolve_traces (Session.start options).table).and hkept).mono
  · rintro out table ⟨hcovers, hsame⟩
    exact ⟨hcovers.reaches, hsame⟩
  · rintro _ table ⟨⟨mid, hmid, hstops⟩, -⟩ f rfl
    have hreached : s.Reached options mid := hmid
    refine ⟨mid, hreached, hstops.arises hreached.sound.2 ?_ fun _ => hreached.mem_operands⟩
    intro entry hentry
    exact List.mem_append_left _ (List.mem_map.2 ⟨entry, hentry, rfl⟩)

end Script

/-! ### Values in a session -/

/-- A fault has its place among operands and calls. -/
def Failure.Arises (table : SymbolTable) (operands : List (List Token))
    (calls : List (Text × List (List Token))) (e : Failure) : Prop :=
  ∀ f, e = .fault f → f.Arises table operands calls

/-- The session has the names of a table, whose constants are among the operands, and
right values for them. -/
structure Session.Keeps (s : Session) (table : SymbolTable) (operands : List (List Token)) :
    Prop where
  declared : ∀ operand, Declares table operand → operand ∈ operands
  values : ∃ memo, s.table = { table with values := memo } ∧ Sound table memo

variable {table : SymbolTable} {operands : List (List Token)}
  {calls : List (Text × List (List Token))} {s : Session}

theorem Failure.Arises.refuse {cause : Cause} {span : Span} {notes : List Note} :
    (Failure.refuse cause span notes).Arises table operands calls := by
  intro f hf
  cases hf

theorem Pass.fold_blames (hs : s.Keeps table operands) (operand : List Token) :
    Ends (Pass.fold operand) s
      (fun value s' => s'.Keeps table operands ∧ Yields table operand (.ok value))
      (fun e _ => Blames table [operand] e) := by
  obtain ⟨memo, htable, hmemo⟩ := hs.values
  have hsound : Sound { table with values := memo } memo :=
    fun name value hvalue => (hmemo name value hvalue).with_values memo
  unfold Pass.fold
  rw [Pass.onTable_ends_iff, Resolving.evaluate_ends_iff, htable]
  apply ((Evaluation.fold_sound hsound [] operand).and
    (Evaluation.fold_blames hsound [] operand)).mono
  · rintro value memo' ⟨⟨hmemo', hyields⟩, -⟩
    have hvalues : Sound table memo' :=
      fun name value hvalue => (hmemo' name value hvalue).with_values table.values
    exact ⟨⟨hs.declared, memo', rfl, hvalues⟩, Evaluation.Yields.of_values hyields⟩
  · rintro e memo' ⟨-, hblames⟩ f hf
    obtain ⟨operand', hmem, hyields⟩ := hblames f hf
    exact ⟨operand', hmem, hyields.of_values⟩

theorem Pass.fold_arises (hs : s.Keeps table operands) {operand : List Token}
    (hmem : operand ∈ operands) :
    Ends (Pass.fold operand) s
      (fun value s' => s'.Keeps table operands ∧ Yields table operand (.ok value))
      (fun e _ => e.Arises table operands calls) := by
  apply (Pass.fold_blames hs operand).mono
  · intro value s₁ h
    exact h
  · intro e s₁ hblames f hf
    obtain ⟨operand', hoperand, hyields⟩ := hblames f hf
    refine .expression ?_ hyields
    rcases hoperand with hself | hother
    · rwa [List.mem_singleton.1 hself]
    · exact hs.declared operand' hother

/-! ### Expansion -/

namespace Expansion

open Resolve (argumentsIn nodeArguments callsIn nodeCalls)

theorem repeatCount_arises {args : List (List Token)} (openSpan : Span)
    (hs : s.Keeps table operands) (hargs : args ⊆ operands) :
    Ends (repeatCount args openSpan) s (fun _ s' => s'.Keeps table operands)
      (fun e _ => e.Arises table operands calls) := by
  unfold repeatCount
  split
  · next t ts =>
    have hmem : t :: ts ∈ operands := hargs (by simp)
    rw [Ends.bind_iff]
    apply (Pass.fold_arises hs hmem).weaken
    rintro value s₁ ⟨hs₁, hyields⟩
    split
    · exact .refuse
    · exact hs₁
    · next count _ hcount =>
      obtain ⟨v, rfl, hv⟩ := Option.bind_eq_some_iff.1 hcount
      simp only [Ends.bind_iff, Pass.ofFault_ends_iff]
      constructor
      · intro raw _
        exact ⟨hs₁.declared, hs₁.values⟩
      · rintro f hlong _ ⟨⟩
        exact .count hmem hyields hv hlong
  · exact .refuse

theorem argumentValue_arises (c : Call) (parameter : Text) {arg : List Token}
    (hs : s.Keeps table operands) (harg : arg ∈ operands) :
    Ends (argumentValue c parameter arg) s
      (fun value s' => s'.Keeps table operands ∧ Yields table arg (.ok (some value)))
      (fun e _ => e.Arises table operands calls) := by
  have hvalue : Ends (if arg.isEmpty then pure none else Pass.fold arg) s
      (fun value s' => s'.Keeps table operands ∧
        ∀ v, value = some v → Yields table arg (.ok (some v)))
      (fun e _ => e.Arises table operands calls) := by
    split
    · exact ⟨hs, by simp⟩
    · apply (Pass.fold_arises hs harg).weaken
      rintro value s₁ ⟨hs₁, hyields⟩
      exact ⟨hs₁, fun v hv => hv ▸ hyields⟩
  unfold argumentValue
  rw [Ends.bind_iff]
  apply hvalue.weaken
  rintro value s₁ ⟨hs₁, hyields⟩
  split
  · exact ⟨hs₁, hyields _ rfl⟩
  · exact .refuse

theorem countValue_arises (c : Call) (parameter : Text) {arg : List Token}
    (hs : s.Keeps table operands) (harg : arg ∈ operands) :
    Ends (countValue c parameter arg) s
      (fun count s' => s'.Keeps table operands ∧
        ∃ value, Yields table arg (.ok (some value)) ∧ positive? value = some count)
      (fun e _ => e.Arises table operands calls) := by
  unfold countValue
  rw [Ends.bind_iff]
  apply (argumentValue_arises c parameter hs harg).weaken
  rintro value s₁ ⟨hs₁, hyields⟩
  split
  · next count hcount => exact ⟨hs₁, value, hyields, hcount⟩
  · simp only [Ends.bind_iff, Pass.ofFault_ends_iff]
    constructor
    · intro shown _
      exact .refuse
    · rintro f hlong _ ⟨⟩
      exact .value harg hyields hlong

theorem argumentValues_arises (c : Call) {parameters : List Parameter} {args : List (List Token)}
    (hs : s.Keeps table operands) (hargs : args ⊆ operands)
    (hlength : args.length ≤ parameters.length) :
    Ends (argumentValues c parameters args) s
      (fun values s' => s'.Keeps table operands ∧
        List.Forall₂ (fun arg value => Yields table arg (.ok (some value))) args values)
      (fun e _ => e.Arises table operands calls) := by
  induction args generalizing parameters s with
  | nil =>
      rw [argumentValues]
      · exact ⟨hs, .nil⟩
      · simp
  | cons arg args ih =>
      cases parameters with
      | nil => simp at hlength
      | cons p ps =>
          rw [List.cons_subset] at hargs
          rw [argumentValues]
          simp only [Ends.bind_iff, Ends.pure_iff]
          apply (argumentValue_arises c p.name hs hargs.1).weaken
          rintro value s₁ ⟨hs₁, hyields⟩
          apply (ih hs₁ hargs.2 (by simpa using hlength)).weaken
          rintro values s₂ ⟨hs₂, hvalues⟩
          exact ⟨hs₂, .cons hyields hvalues⟩

theorem expandCall_arises {c : Call} (hs : s.Keeps table operands)
    (hargs : c.args ⊆ operands) (hcall : (c.name, c.args) ∈ calls) :
    Ends (expandCall c) s (fun _ s' => s'.Keeps table operands)
      (fun e _ => e.Arises table operands calls) := by
  unfold expandCall
  split
  · exact .refuse
  next pattern hpattern =>
    dsimp only
    split
    · exact .refuse
    next harity =>
    split
    · next p ps arg args hparameters heq =>
      rw [heq] at hargs hcall
      rw [List.cons_subset] at hargs
      have hlength : args.length ≤ ps.length := by
        rw [heq, hparameters] at harity
        simp only [List.length_cons, Bool.or_eq_true, decide_eq_true_eq] at harity
        omega
      simp only [Ends.bind_iff, Pass.ofFault_ends_iff, Ends.pure_iff]
      apply (countValue_arises c p.name hs hargs.1).weaken
      rintro count s₁ ⟨hs₁, value, hvalue, hcount⟩
      apply (argumentValues_arises c hs₁ hargs.2 hlength).weaken
      rintro values s₂ ⟨hs₂, hvalues⟩
      constructor
      · intro points _
        exact hs₂
      · rintro f hfails _ ⟨⟩
        exact .layout hcall hpattern hvalue hcount hvalues hfails
    · exact .refuse

mutual

theorem expandNode_arises (n : Node) {s : Session} (hs : s.Keeps table operands)
    (hargs : nodeArguments n ⊆ operands) (hcalls : nodeCalls n ⊆ calls) :
    Ends (expandNode n) s (fun _ s' => s'.Keeps table operands)
      (fun e _ => e.Arises table operands calls) := by
  match n with
  | .run r =>
      rw [expandNode]
      exact hs
  | .marker m span =>
      rw [expandNode]
      exact hs
  | .header h =>
      rw [expandNode]
      exact hs
  | .call c =>
      rw [expandNode]
      exact expandCall_arises hs hargs (hcalls (by simp [nodeCalls]))
  | .repeated args children openSpan span =>
      rw [nodeArguments, List.append_subset] at hargs
      rw [expandNode]
      simp only [Ends.bind_iff, Ends.pure_iff]
      apply (expandNodes_arises children hs hargs.2 hcalls).weaken
      intro body s₁ hs₁
      exact repeatCount_arises openSpan hs₁ hargs.1

/-- A fault in expanding blocks has its place among their arguments and calls. -/
theorem expandNodes_arises (ns : List Node) {s : Session} (hs : s.Keeps table operands)
    (hargs : argumentsIn ns ⊆ operands) (hcalls : callsIn ns ⊆ calls) :
    Ends (expandNodes ns) s (fun _ s' => s'.Keeps table operands)
      (fun e _ => e.Arises table operands calls) := by
  match ns with
  | [] =>
      rw [expandNodes]
      exact hs
  | n :: ns =>
      rw [argumentsIn, List.append_subset] at hargs
      rw [callsIn, List.append_subset] at hcalls
      rw [expandNodes]
      simp only [Ends.bind_iff, Ends.pure_iff]
      apply (expandNode_arises n hs hargs.1 hcalls.1).weaken
      intro leaves s₁ hs₁
      exact expandNodes_arises ns hs₁ hargs.2 hcalls.2

end

end Expansion

theorem Script.expand_arises (script : Script Node) (hs : s.Keeps table operands)
    (hargs : Resolve.argumentsIn script.parts ⊆ operands)
    (hcalls : Resolve.callsIn script.parts ⊆ calls) :
    Ends script.expand s (fun _ s' => s'.Keeps table operands)
      (fun e _ => e.Arises table operands calls) := by
  unfold Script.expand
  simp only [Ends.bind_iff, Pass.ofReport_ends_iff, Ends.pure_iff]
  apply (Expansion.expandNodes_arises script.parts hs hargs hcalls).weaken
  intro leaves s₁ hs₁
  constructor
  · intro pieces _
    exact hs₁
  · rintro r - f ⟨⟩

/-! ### Hoisting -/

namespace Hoist

/-- A constant has no fault of its own, and its value is that of an operand. -/
theorem fold_constant (hs : s.Keeps table operands) {t : Token}
    (ht : isConstant s.table t = true) :
    Ends (Pass.fold [t]) s
      (fun value s' => s'.Keeps table operands ∧
        ∀ v, value = some v → ∃ operand ∈ operands, Yields table operand (.ok (some v)))
      (fun e _ => e.Arises table operands calls) := by
  obtain ⟨memo, htable, -⟩ := hs.values
  simp only [isConstant, htable, Bool.and_eq_true, beq_iff_eq, Option.isSome_iff_exists] at ht
  obtain ⟨hword, ds, hknown⟩ := ht
  have hsignificant : Token.significant [t] = [t] := by
    simp [Token.significant, Token.isTrivia, hword, TokenKind.isTrivia]
  have hreferences : Operand.references [t] = [t] := by simp [Operand.references, hword]
  have hyields {outcome : Except Fault (Option Number)} (h : Yields table [t] outcome) :
      ∃ value, outcome = .ok value ∧ HasValue table t.raw value := by
    obtain ⟨values, hassigns, hfold⟩ := h
    rw [hsignificant, Expression.fold_word values hword] at hfold
    exact ⟨_, hfold.symm, hassigns t (by simp [hreferences])⟩
  apply (Pass.fold_blames hs [t]).mono
  · rintro _ s₁ ⟨hs₁, hself⟩
    refine ⟨hs₁, ?_⟩
    rintro v rfl
    obtain ⟨value, hvalue, hhas⟩ := hyields hself
    cases hvalue
    obtain ⟨d, hd, hdyields⟩ := hhas.yields hknown
    exact ⟨d.operand, hs.declared _ ⟨t.raw, ds, d, hknown, hd, rfl⟩, hdyields⟩
  · intro e s₁ hblames f hf
    obtain ⟨operand, hoperand, hfails⟩ := hblames f hf
    rcases hoperand with hself | hother
    · -- a name by itself is looked up and not computed
      obtain rfl := List.mem_singleton.1 hself
      obtain ⟨value, hvalue, -⟩ := hyields hfails
      cases hvalue
    · exact .expression (hs.declared operand hother) hfails

theorem blocker?_arises (ts : List Token) (hs : s.Keeps table operands) :
    Ends (blocker? ts) s (fun _ s' => s'.Keeps table operands)
      (fun e _ => e.Arises table operands calls) := by
  induction ts generalizing s with
  | nil => exact hs
  | cons t ts ih =>
      rw [blocker?]
      simp only [Ends.bind_iff, Ends.get_iff]
      split
      · next hconstant =>
        rw [Ends.bind_iff]
        apply (fold_constant hs hconstant).weaken
        rintro value s₁ ⟨hs₁, -⟩
        split
        · exact hs₁
        · exact ih hs₁
      · exact ih hs

theorem foldArguments_arises (ts : List Token) (hs : s.Keeps table operands) :
    Ends (foldArguments ts) s (fun _ s' => s'.Keeps table operands)
      (fun e _ => e.Arises table operands calls) := by
  induction ts generalizing s with
  | nil => exact hs
  | cons t ts ih =>
      rw [foldArguments]
      simp only [Ends.bind_iff, Ends.get_iff]
      split
      · next hconstant =>
        simp only [Ends.bind_iff]
        apply (fold_constant hs hconstant).weaken
        rintro value s₁ ⟨hs₁, hvalue⟩
        split
        · next v =>
          obtain ⟨operand, hmem, hyields⟩ := hvalue v rfl
          simp only [Ends.bind_iff, Ends.pure_iff, Pass.ofFault_ends_iff]
          constructor
          · intro t' _
            exact ih hs₁
          · rintro f hlong _ ⟨⟩
            exact .value hmem hyields (Resolve.numeral_eq_error hlong)
        · simp only [Ends.bind_iff, Ends.pure_iff]
          exact ih hs₁
      · simp only [Ends.bind_iff, Ends.pure_iff]
        exact ih hs

theorem hoistCall_arises (stem : Text) (c : RandomCall) (state : State)
    (hs : s.Keeps table operands) :
    Ends ((hoistCall stem c).run state) s (fun _ s' => s'.Keeps table operands)
      (fun e _ => e.Arises table operands calls) := by
  unfold hoistCall
  simp only [StateT.run_bind, Ends.bind_iff, lift_ends_iff]
  apply (blocker?_arises c.arguments hs).weaken
  intro blocker s₁ hs₁
  split
  · simp only [StateT.run_bind, Ends.bind_iff, lift_ends_iff, Pass.warn_ends_iff]
    exact ⟨hs₁.declared, hs₁.values⟩
  simp only [StateT.run_bind, Ends.bind_iff, lift_ends_iff]
  apply (freshName_ends stem c.name.span state s₁).weaken
  rintro ⟨name, state₁⟩ s₂ ⟨hs₂, -⟩
  apply (foldArguments_arises c.arguments ⟨hs₁.declared, hs₂ ▸ hs₁.values⟩).weaken
  intro args s₃ hs₃
  exact hs₃

theorem hoistTokens_arises (stem : Text) (recent ts : List Token) (state : State)
    (hs : s.Keeps table operands) :
    Ends ((hoistTokens stem recent ts).run state) s (fun _ s' => s'.Keeps table operands)
      (fun e _ => e.Arises table operands calls) := by
  induction recent, ts using hoistTokens.induct stem generalizing state s with
  | case1 recent =>
      rw [hoistTokens]
      exact hs
  | case2 recent t ts hconst ih =>
      rw [hoistTokens_keep (Or.inl hconst)]
      simp only [StateT.run_bind, Ends.bind_iff]
      exact ih state hs
  | case3 recent t ts hconst hread ih =>
      rw [hoistTokens_keep (Or.inr hread)]
      simp only [StateT.run_bind, Ends.bind_iff]
      exact ih state hs
  | case4 recent t ts hconst c hread _ ih =>
      rw [hoistTokens_call hconst hread]
      simp only [StateT.run_bind, Ends.bind_iff]
      apply (hoistCall_arises stem c state hs).weaken
      rintro ⟨written, state₁⟩ s₁ hs₁
      exact ih written state₁ hs₁

theorem hoistPieces_arises (stem : Text) (parts : List Piece) (state : State)
    (hs : s.Keeps table operands) :
    Ends ((hoistPieces stem parts).run state) s (fun _ s' => s'.Keeps table operands)
      (fun e _ => e.Arises table operands calls) := by
  induction parts generalizing state s with
  | nil => exact hs
  | cons p rest ih =>
      have keep (p : Piece) (heq : hoistPieces stem (p :: rest) = do
          let later ← hoistPieces stem rest
          return p :: later) :
          Ends ((hoistPieces stem (p :: rest)).run state) s (fun _ s' => s'.Keeps table operands)
            (fun e _ => e.Arises table operands calls) := by
        rw [heq]
        simp only [StateT.run_bind, Ends.bind_iff]
        exact ih state hs
      cases p with
      | cut span => exact keep (.cut span) rfl
      | header h => exact keep (.header h) rfl
      | run r =>
          rw [hoistPieces]
          simp only [StateT.run_bind, Ends.bind_iff]
          apply (hoistTokens_arises stem [] r.tokens state hs).weaken
          rintro ⟨tokens, state₁⟩ s₁ hs₁
          exact ih state₁ hs₁

end Hoist

theorem Script.hoist_arises (stem : Text) (script : Script Piece)
    (hs : s.Keeps table operands) :
    Ends (script.hoist stem) s (fun _ s' => s'.Keeps table operands)
      (fun e _ => e.Arises table operands calls) := by
  unfold Script.hoist
  simp only [Ends.bind_iff, Ends.get_iff]
  apply (Hoist.hoistPieces_arises stem script.parts _ hs).weaken
  rintro ⟨pieces, state⟩ s₁ hs₁
  split <;> exact hs₁

/-! ### Runs -/

/-- A run halts on a fault only for a script that is at fault. -/
theorem Preprocess.text_atFault (options : Options) (source : Text) :
    Ends (Preprocess.text options source) (Session.start options) (fun _ _ => True)
      (fun e _ => ∀ f, e = .fault f →
        ∃ script, Script.ofSource source = .ok script ∧ script.AtFault options f) := by
  unfold text truncated hoisted expanded resolved blocks
  simp only [Ends.bind_iff, Pass.ofReport_ends_iff, Pass.onTable_ends_iff, Ends.pure_iff]
  constructor
  · intro script hscript
    apply (script.resolve_atFault options).mono
    · rintro named table ⟨hreached, harguments, hcalls⟩
      have hplace {e : Failure} (h : e.Arises table script.operands script.calls) (f : Fault)
          (hf : e = .fault f) :
          ∃ script, Script.ofSource source = .ok script ∧ script.AtFault options f :=
        ⟨script, hscript, table, hreached, h f hf⟩
      have hs : Session.Keeps { Session.start options with table := table } table
          script.operands :=
        ⟨fun _ => hreached.mem_operands, table.values, rfl, hreached.sound.2⟩
      have hargs : Resolve.argumentsIn named.parts ⊆ script.operands := by
        rw [harguments]
        exact List.subset_append_right _ _
      have hcalled : Resolve.callsIn named.parts ⊆ script.calls := by
        rw [hcalls]
        exact List.Subset.refl _
      apply (named.expand_arises hs hargs hcalled).mono
      · intro pieces s₁ hs₁
        have hhoist : Ends (if options.hoistRandom then pieces.hoist options.stem else pure pieces)
            s₁ (fun _ _ => True) (fun e _ => e.Arises table script.operands script.calls) := by
          split
          · exact (pieces.hoist_arises options.stem hs₁).weaken fun _ _ _ => trivial
          · trivial
        exact hhoist.mono (fun _ _ _ => trivial) fun e _ he => hplace he
      · intro e s₁ he
        exact hplace he
    · intro e table he f hf
      exact ⟨script, hscript, he f hf⟩
  · rintro r - f ⟨⟩

end MapScript
