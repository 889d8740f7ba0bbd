import MapScript.Block.Builder
import MapScript.Expansion
import MapScript.Proofs.Session
import MapScript.Proofs.Symbol.Replay

/-!
# Unrolling repeated blocks

A repeated block is expanded before it is copied.  The other way round, one may put copies
of what it holds in its place and go on with them, wherever there is a repeated block or a
call to go on with.  The counts are then found in another order, and some of them many times;
but a count is the same whenever it is found, so all these ways end, and they end in the
leaves that the expansion gives.
-/

namespace MapScript

/-! ### Passes that give the same again -/

namespace Session

/-- A session that differs from one before in its warnings and in values found since. -/
def Follows (start s : Session) : Prop :=
  ∃ memo, Evaluation.Recalls start.table start.table.values memo ∧
    s.table = { start.table with values := memo }

theorem Follows.refl (start : Session) : start.Follows start :=
  ⟨start.table.values, .refl _ _, rfl⟩

end Session

namespace Pass

variable {start : Session} {α : Type}

theorem fold_gives {operand : List Token} {value : Option Number}
    (h : Evaluation.OperandFound start.table start.table.values operand value) :
    Gives start.Follows (Pass.fold operand) value := by
  rintro s ⟨memo, hmemo, htable⟩
  rw [Pass.fold, onTable_ends_iff, Resolving.evaluate_ends_iff, htable]
  have hgives := (h.of_values memo).gives memo (hmemo.of_values memo)
  apply hgives.weaken
  rintro found memo' ⟨rfl, hmemo'⟩
  exact ⟨rfl, memo', hmemo'.of_values start.table.values, rfl⟩

theorem fold_repeatable (operand : List Token) :
    Repeatable start.Follows (Pass.fold operand) := by
  rintro s ⟨memo, hmemo, htable⟩
  have hfound := Evaluation.fold_found (hmemo.of_values memo) operand
  rw [Pass.fold, onTable_ends_iff, Resolving.evaluate_ends_iff, htable]
  apply hfound.weaken
  intro value _ hvalue
  exact fold_gives (hvalue.of_values start.table.values)

theorem warn_repeatable (cause : WarningCause) (span : Span) :
    Repeatable start.Follows (Pass.warn cause span) := fun _ _ _ ht => ⟨rfl, ht⟩

theorem ofFault_repeatable (result : Except Fault α) :
    Repeatable start.Follows (Pass.ofFault result) := by
  cases result with
  | ok a => exact .pure a
  | error f => exact .throw (Failure.fault f)

theorem refuse_repeatable (cause : Cause) (span : Span) :
    Repeatable start.Follows (Pass.refuse cause span : Pass α) := .throw _

end Pass

namespace Expansion

open Pass (fold_repeatable ofFault_repeatable warn_repeatable refuse_repeatable)

variable {start : Session}

theorem repeatCount_repeatable (args : List (List Token)) (openSpan : Span) :
    Repeatable start.Follows (repeatCount args openSpan) := by
  rw [repeatCount.eq_def]
  split
  · refine (fold_repeatable _).bind fun value => ?_
    split
    · exact refuse_repeatable _ _
    · exact .pure _
    · exact (ofFault_repeatable _).bind fun _ => (warn_repeatable _ _).bind fun _ => .pure 0
  · exact refuse_repeatable _ _

theorem argumentValue_repeatable (c : Call) (parameter : Text) (arg : List Token) :
    Repeatable start.Follows (argumentValue c parameter arg) := by
  have hvalue : Repeatable start.Follows (if arg.isEmpty then pure none else Pass.fold arg) := by
    split
    · exact .pure none
    · exact fold_repeatable arg
  refine hvalue.bind fun value => ?_
  cases value with
  | some value => exact .pure value
  | none => exact refuse_repeatable _ _

theorem countValue_repeatable (c : Call) (parameter : Text) (arg : List Token) :
    Repeatable start.Follows (countValue c parameter arg) := by
  refine (argumentValue_repeatable c parameter arg).bind fun value => ?_
  cases positive? value with
  | some count => exact .pure count
  | none => exact (ofFault_repeatable _).bind fun shown => refuse_repeatable _ _

theorem argumentValues_repeatable (c : Call) (parameters : List Parameter)
    (args : List (List Token)) : Repeatable start.Follows (argumentValues c parameters args) := by
  induction parameters generalizing args with
  | nil =>
      rw [argumentValues]
      · exact .pure []
      · simp
  | cons p ps ih =>
      cases args with
      | nil => exact .pure []
      | cons arg args =>
          exact (argumentValue_repeatable c p.name arg).bind fun value =>
            (ih args).bind fun values => .pure (value :: values)

theorem expandCall_repeatable (c : Call) : Repeatable start.Follows (expandCall c) := by
  rw [expandCall.eq_def]
  split
  · exact refuse_repeatable _ _
  dsimp only
  split
  · exact refuse_repeatable _ _
  split
  · exact (countValue_repeatable c _ _).bind fun count =>
      (argumentValues_repeatable c _ _).bind fun values =>
        (ofFault_repeatable _).bind fun points => .pure _
  · exact refuse_repeatable _ _

mutual

theorem expandNode_repeatable (n : Node) : Repeatable start.Follows (expandNode n) := by
  match n with
  | .run r => exact .pure _
  | .marker m span => exact .pure _
  | .header h => exact .pure _
  | .call c => exact expandCall_repeatable c
  | .repeated args children openSpan span =>
      rw [expandNode]
      exact (expandNodes_repeatable children).bind fun body =>
        (repeatCount_repeatable args openSpan).bind fun count => .pure _

theorem expandNodes_repeatable (ns : List Node) : Repeatable start.Follows (expandNodes ns) := by
  match ns with
  | [] => exact .pure _
  | n :: ns =>
      rw [expandNodes]
      exact (expandNode_repeatable n).bind fun leaves =>
        (expandNodes_repeatable ns).bind fun more => .pure _

end

/-! ### What the expansion of several blocks gives -/

theorem expandNodes_append (ns ms : List Node) :
    expandNodes (ns ++ ms) = do
      let leaves ← expandNodes ns
      let more ← expandNodes ms
      return leaves ++ more := by
  induction ns with
  | nil => simp [expandNodes]
  | cons n ns ih =>
      simp only [List.cons_append, expandNodes, ih, bind_assoc, pure_bind, List.append_assoc]

theorem gives_append_iff {ns ms : List Node} {out : List Leaf} :
    Gives start.Follows (expandNodes (ns ++ ms)) out ↔
      ∃ leaves more, Gives start.Follows (expandNodes ns) leaves ∧
        Gives start.Follows (expandNodes ms) more ∧ out = leaves ++ more := by
  rw [expandNodes_append]
  constructor
  · intro h
    obtain ⟨leaves, hleaves, hrest⟩ := h.of_bind (expandNodes_repeatable ns)
      (fun _ => (expandNodes_repeatable ms).bind fun _ => .pure _) (.refl start)
    obtain ⟨more, hmore, hout⟩ := hrest.of_bind (expandNodes_repeatable ms)
      (fun _ => .pure _) (.refl start)
    exact ⟨leaves, more, hleaves, hmore, hout.unique (.pure _) (.refl start)⟩
  · rintro ⟨leaves, more, hleaves, hmore, rfl⟩
    exact hleaves.bind (hmore.bind (.pure _))

theorem gives_singleton_iff {n : Node} {out : List Leaf} :
    Gives start.Follows (expandNodes [n]) out ↔ Gives start.Follows (expandNode n) out := by
  have hsame : expandNodes [n] = expandNode n := by simp [expandNodes]
  rw [hsame]

theorem gives_cons_iff {n : Node} {ns : List Node} {out : List Leaf} :
    Gives start.Follows (expandNodes (n :: ns)) out ↔
      ∃ leaves more, Gives start.Follows (expandNode n) leaves ∧
        Gives start.Follows (expandNodes ns) more ∧ out = leaves ++ more := by
  rw [← List.singleton_append, gives_append_iff]
  simp only [gives_singleton_iff]

/-- A count is the value of the only argument, and none if that is negative. -/
theorem gives_repeatCount {args : List (List Token)} {openSpan : Span} {count : Nat}
    (h : Gives start.Follows (repeatCount args openSpan) count) :
    ∃ operand value n, args = [operand] ∧ Gives start.Follows (Pass.fold operand) (some value) ∧
      value.asInt? = some n ∧ count = n.toNat := by
  rw [repeatCount.eq_def] at h
  split at h
  · next t ts =>
    obtain ⟨found, hfound, hrest⟩ := h.of_bind (fold_repeatable (t :: ts)) (fun found => by
      split
      · exact refuse_repeatable _ _
      · exact .pure _
      · exact (ofFault_repeatable _).bind fun _ => (warn_repeatable _ _).bind fun _ => .pure 0)
      (.refl start)
    cases found with
    | none => exact (hrest.not_throw (.refl start)).elim
    | some value =>
        refine ⟨t :: ts, value, ?_⟩
        cases hvalue : value.asInt? with
        | none =>
            simp only [Option.bind_some, hvalue] at hrest
            exact (hrest.not_throw (.refl start)).elim
        | some n =>
            refine ⟨n, rfl, hfound, rfl, ?_⟩
            simp only [Option.bind_some, hvalue] at hrest
            cases n with
            | ofNat n => exact hrest.unique (.pure _) (.refl start)
            | negSucc n =>
                obtain ⟨_, -, hrest⟩ := hrest.of_bind (ofFault_repeatable _)
                  (fun _ => (warn_repeatable _ _).bind fun _ => .pure 0) (.refl start)
                obtain ⟨_, -, hrest⟩ := hrest.of_bind (warn_repeatable _ _) (fun _ => .pure 0)
                  (.refl start)
                exact hrest.unique (.pure _) (.refl start)
  · exact (h.not_throw (.refl start)).elim

theorem gives_repeated {args : List (List Token)} {children : List Node} {openSpan span : Span}
    {out : List Leaf}
    (h : Gives start.Follows (expandNode (.repeated args children openSpan span)) out) :
    ∃ body operand value n, args = [operand] ∧ Gives start.Follows (expandNodes children) body ∧
      Gives start.Follows (Pass.fold operand) (some value) ∧ value.asInt? = some n ∧
      out = (List.replicate n.toNat body).flatten := by
  rw [expandNode] at h
  obtain ⟨body, hbody, hrest⟩ := h.of_bind (expandNodes_repeatable children)
    (fun _ => (repeatCount_repeatable args openSpan).bind fun _ => .pure _) (.refl start)
  obtain ⟨count, hcount, hout⟩ := hrest.of_bind (repeatCount_repeatable args openSpan)
    (fun _ => .pure _) (.refl start)
  obtain ⟨operand, value, n, rfl, hvalue, hn, rfl⟩ := gives_repeatCount hcount
  refine ⟨body, operand, value, n, rfl, hbody, hvalue, hn, ?_⟩
  rw [← copies_eq]
  exact hout.unique (.pure _) (.refl start)

/-- Copies of blocks give copies of their leaves. -/
theorem gives_replicate {children : List Node} {body : List Leaf}
    (h : Gives start.Follows (expandNodes children) body) (count : Nat) :
    Gives start.Follows (expandNodes (List.replicate count children).flatten)
      (List.replicate count body).flatten := by
  induction count with
  | zero => exact .pure []
  | succ count ih =>
      rw [List.replicate_succ, List.flatten_cons, List.replicate_succ, List.flatten_cons]
      exact gives_append_iff.2 ⟨_, _, h, ih, rfl⟩

end Expansion

/-- A leaf as a block. -/
def Leaf.toNode : Leaf → Node
  | .run r => .run r
  | .marker m span => .marker m span
  | .header h => .header h

namespace Expansion

variable {start : Session}

theorem gives_leaves (leaves : List Leaf) :
    Gives start.Follows (expandNodes (leaves.map Leaf.toNode)) leaves := by
  induction leaves with
  | nil => exact .pure []
  | cons leaf leaves ih =>
      refine gives_cons_iff.2 ⟨[leaf], leaves, ?_, ih, rfl⟩
      cases leaf with
      | run r | marker m span | header h => exact .pure _

/-! ### Unrolling -/

/-- One step of unrolling, anywhere but in a repeated block: such a block gives way to as
many copies of what it holds as its argument says, none if that is negative, or a call to its
lands. -/
inductive Unrolls : List Node × Session → List Node × Session → Prop
  | repeated {before after children : List Node} {operand : List Token}
      {openSpan span : Span} {s s' : Session} {value : Number} {count : Int}
      (folded : (Pass.fold operand).run.run s = (.ok (some value), s'))
      (whole : value.asInt? = some count) :
      Unrolls (before ++ .repeated [operand] children openSpan span :: after, s)
        (before ++ (List.replicate count.toNat children).flatten ++ after, s')
  | call {before after : List Node} {c : Call} {s s' : Session} {leaves : List Leaf}
      (placed : (expandCall c).run.run s = (.ok leaves, s')) :
      Unrolls (before ++ .call c :: after, s) (before ++ leaves.map Leaf.toNode ++ after, s')

/-- Any number of steps. -/
abbrev UnrollsTo : List Node × Session → List Node × Session → Prop :=
  Relation.ReflTransGen Unrolls

/-- What goes on between blocks leaves them as they are. -/
theorem Unrolls.within {a b : List Node × Session} (h : Unrolls a b) (before after : List Node) :
    Unrolls (before ++ a.1 ++ after, a.2) (before ++ b.1 ++ after, b.2) := by
  cases h with
  | @repeated front back children operand openSpan span _ _ value count hfolded hwhole =>
      simpa using @Unrolls.repeated (before ++ front) (back ++ after) children operand openSpan
        span _ _ value count hfolded hwhole
  | @call front back c _ _ leaves hplaced =>
      simpa using @Unrolls.call (before ++ front) (back ++ after) c _ _ leaves hplaced

theorem UnrollsTo.within {a b : List Node × Session} (h : UnrollsTo a b)
    (before after : List Node) :
    UnrollsTo (before ++ a.1 ++ after, a.2) (before ++ b.1 ++ after, b.2) := by
  induction h with
  | refl => exact .refl
  | tail _ hstep ih => exact ih.tail (hstep.within before after)

theorem UnrollsTo.append {ns ns' ms ms' : List Node} {s s₁ s₂ : Session}
    (h : UnrollsTo (ns, s) (ns', s₁)) (h' : UnrollsTo (ms, s₁) (ms', s₂)) :
    UnrollsTo (ns ++ ms, s) (ns' ++ ms', s₂) := by
  have hfirst := h.within [] ms
  have hsecond := h'.within ns' []
  simp only [List.nil_append, List.append_nil] at hfirst hsecond
  exact hfirst.trans hsecond

/-- The blocks unroll to the leaves, in every session that follows. -/
def UnrollsAlways (start : Session) (ns : List Node) (leaves : List Leaf) : Prop :=
  ∀ s, start.Follows s → ∃ s', start.Follows s' ∧
    UnrollsTo (ns, s) (leaves.map Leaf.toNode, s')

theorem UnrollsAlways.refl (leaves : List Leaf) :
    UnrollsAlways start (leaves.map Leaf.toNode) leaves := fun s hs => ⟨s, hs, .refl⟩

theorem UnrollsAlways.append {ns ms : List Node} {leaves more : List Leaf}
    (h : UnrollsAlways start ns leaves) (h' : UnrollsAlways start ms more) :
    UnrollsAlways start (ns ++ ms) (leaves ++ more) := by
  intro s hs
  obtain ⟨s₁, hs₁, hfirst⟩ := h s hs
  obtain ⟨s₂, hs₂, hsecond⟩ := h' s₁ hs₁
  rw [List.map_append]
  exact ⟨s₂, hs₂, hfirst.append hsecond⟩

theorem UnrollsAlways.replicate {children : List Node} {body : List Leaf}
    (h : UnrollsAlways start children body) (count : Nat) :
    UnrollsAlways start (List.replicate count children).flatten
      (List.replicate count body).flatten := by
  induction count with
  | zero => exact .refl []
  | succ count ih =>
      rw [List.replicate_succ, List.flatten_cons, List.replicate_succ, List.flatten_cons]
      exact h.append ih

theorem UnrollsAlways.repeated {operand : List Token} {children : List Node}
    {body : List Leaf} {value : Number} {count : Int} (h : UnrollsAlways start children body)
    (hvalue : Gives start.Follows (Pass.fold operand) (some value))
    (hcount : value.asInt? = some count) (openSpan span : Span) :
    UnrollsAlways start [.repeated [operand] children openSpan span]
      (List.replicate count.toNat body).flatten := by
  intro s hs
  obtain ⟨s₁, hfolded, hs₁⟩ := hvalue.exists_run hs
  obtain ⟨s₂, hs₂, hcopies⟩ := h.replicate count.toNat s₁ hs₁
  have hstep : Unrolls ([.repeated [operand] children openSpan span], s)
      ((List.replicate count.toNat children).flatten, s₁) := by
    simpa using
      @Unrolls.repeated [] [] children operand openSpan span _ _ value count hfolded hcount
  exact ⟨s₂, hs₂, .head hstep hcopies⟩

theorem UnrollsAlways.call {c : Call} {leaves : List Leaf}
    (h : Gives start.Follows (expandCall c) leaves) :
    UnrollsAlways start [.call c] leaves := by
  intro s hs
  obtain ⟨s₁, hplaced, hs₁⟩ := h.exists_run hs
  have hstep : Unrolls ([.call c], s) (leaves.map Leaf.toNode, s₁) := by
    simpa using @Unrolls.call [] [] c _ _ leaves hplaced
  exact ⟨s₁, hs₁, .single hstep⟩

mutual

theorem unrollsAlways_node (n : Node) {leaves : List Leaf}
    (h : Gives start.Follows (expandNode n) leaves) : UnrollsAlways start [n] leaves := by
  match n with
  | .run r =>
      obtain rfl : leaves = [.run r] := h.unique (.pure _) (.refl start)
      exact .refl [.run r]
  | .marker m span =>
      obtain rfl : leaves = [.marker m span] := h.unique (.pure _) (.refl start)
      exact .refl [.marker m span]
  | .header head =>
      obtain rfl : leaves = [.header head] := h.unique (.pure _) (.refl start)
      exact .refl [.header head]
  | .call c => exact .call h
  | .repeated args children openSpan span =>
      obtain ⟨body, operand, value, n, rfl, hbody, hvalue, hn, rfl⟩ := gives_repeated h
      exact (unrollsAlways_nodes children hbody).repeated hvalue hn openSpan span

/-- What the expansion gives is what unrolling ends in. -/
theorem unrollsAlways_nodes (ns : List Node) {leaves : List Leaf}
    (h : Gives start.Follows (expandNodes ns) leaves) : UnrollsAlways start ns leaves := by
  match ns with
  | [] =>
      obtain rfl : leaves = [] := h.unique (.pure _) (.refl start)
      exact .refl []
  | n :: ns =>
      obtain ⟨first, more, hfirst, hmore, rfl⟩ := gives_cons_iff.1 h
      exact (unrollsAlways_node n hfirst).append (unrollsAlways_nodes ns hmore)

end

/-- A step leaves what the expansion gives. -/
theorem Unrolls.gives {a b : List Node × Session} (h : Unrolls a b) (ha : start.Follows a.2)
    {leaves : List Leaf} (hleaves : Gives start.Follows (expandNodes a.1) leaves) :
    start.Follows b.2 ∧ Gives start.Follows (expandNodes b.1) leaves := by
  cases h with
  | @repeated before after children operand openSpan span s s' value count hfolded hcount =>
      obtain ⟨front, rest, hfront, hrest, rfl⟩ := gives_append_iff.1 hleaves
      obtain ⟨middle, back, hmiddle, hback, rfl⟩ := gives_cons_iff.1 hrest
      obtain ⟨body, operand', value', n, hargs, hbody, hvalue, hn, rfl⟩ := gives_repeated hmiddle
      obtain rfl := List.singleton_inj.1 hargs
      obtain ⟨hsame, hs'⟩ := (hvalue s ha).of_run_ok hfolded
      obtain rfl := Option.some.inj hsame
      obtain rfl := Option.some.inj (hcount.symm.trans hn)
      refine ⟨hs', gives_append_iff.2 ⟨_, back, gives_append_iff.2 ⟨front, _, hfront,
        gives_replicate hbody count.toNat, rfl⟩, hback, ?_⟩⟩
      rw [List.append_assoc]
  | @call before after c s s' lands hplaced =>
      obtain ⟨front, rest, hfront, hrest, rfl⟩ := gives_append_iff.1 hleaves
      obtain ⟨middle, back, hmiddle, hback, rfl⟩ := gives_cons_iff.1 hrest
      obtain ⟨rfl, hs'⟩ := (hmiddle s ha).of_run_ok hplaced
      refine ⟨hs', gives_append_iff.2 ⟨_, back, gives_append_iff.2 ⟨front, lands, hfront,
        gives_leaves lands, rfl⟩, hback, ?_⟩⟩
      rw [List.append_assoc]

theorem UnrollsTo.gives {a b : List Node × Session} (h : UnrollsTo a b) (ha : start.Follows a.2)
    {leaves : List Leaf} (hleaves : Gives start.Follows (expandNodes a.1) leaves) :
    start.Follows b.2 ∧ Gives start.Follows (expandNodes b.1) leaves := by
  induction h with
  | refl => exact ⟨ha, hleaves⟩
  | tail _ hstep ih => exact hstep.gives ih.1 ih.2

/-- What unrolls is no leaf. -/
theorem Unrolls.exists_mem {a b : List Node × Session} (h : Unrolls a b) :
    ∃ n ∈ a.1, ∀ leaf : Leaf, leaf.toNode ≠ n := by
  cases h with
  | repeated =>
      refine ⟨_, List.mem_append_right _ List.mem_cons_self, ?_⟩
      rintro (_ | _ | _) h <;> cases h
  | call =>
      refine ⟨_, List.mem_append_right _ List.mem_cons_self, ?_⟩
      rintro (_ | _ | _) h <;> cases h

theorem not_unrolls_leaves {leaves : List Leaf} {s : Session} {b : List Node × Session} :
    ¬ Unrolls (leaves.map Leaf.toNode, s) b := by
  intro h
  obtain ⟨n, hn, hinner⟩ := h.exists_mem
  obtain ⟨leaf, -, hleaf⟩ := List.mem_map.1 hn
  exact hinner leaf hleaf

/-! ### Counts around a leaf -/

/-- The integer that an operand has as its value in a session. -/
def integerAt? (s : Session) (operand : List Token) : Option Int :=
  (((Pass.fold operand).run.run s).1.toOption.getD none).bind Number.asInt?

/-- How many copies of a block the arguments ask for: their only one is an integer, and a
negative one asks for none. -/
def countAt (s : Session) (args : List (List Token)) : Nat :=
  match args with
  | [operand] => ((integerAt? s operand).getD 0).toNat
  | _ => 0

/-- The lands of a call in a session. -/
def landsAt (s : Session) (c : Call) : List Leaf := ((expandCall c).run.run s).1.toOption.getD []

theorem countAt_eq {operand : List Token} {value : Number} {n : Int}
    (h : Gives start.Follows (Pass.fold operand) (some value)) (hn : value.asInt? = some n) :
    countAt start [operand] = n.toNat := by
  obtain ⟨s', hrun, -⟩ := h.exists_run (.refl start)
  have hvalue : integerAt? start operand = some n := by
    rw [integerAt?, hrun]
    exact hn
  rw [countAt, hvalue, Option.getD_some]

theorem landsAt_eq {c : Call} {leaves : List Leaf}
    (h : Gives start.Follows (expandCall c) leaves) : landsAt start c = leaves := by
  obtain ⟨s', hrun, -⟩ := h.exists_run (.refl start)
  rw [landsAt, hrun]
  rfl

mutual

/-- How often a block is unrolled, with all that it holds. -/
def nodeSteps (s : Session) : Node → Nat
  | .run _ | .marker _ _ | .header _ => 0
  | .call _ => 1
  | .repeated args children _ _ => countAt s args * stepsOf s children + 1

/-- How often blocks are unrolled. -/
def stepsOf (s : Session) : List Node → Nat
  | [] => 0
  | n :: ns => nodeSteps s n + stepsOf s ns

end

theorem stepsOf_append (s : Session) (ns ms : List Node) :
    stepsOf s (ns ++ ms) = stepsOf s ns + stepsOf s ms := by
  induction ns with
  | nil => simp [stepsOf]
  | cons n ns ih => rw [List.cons_append, stepsOf, stepsOf, ih, Nat.add_assoc]

theorem stepsOf_replicate (s : Session) (count : Nat) (ns : List Node) :
    stepsOf s (List.replicate count ns).flatten = count * stepsOf s ns := by
  induction count with
  | zero => simp [stepsOf]
  | succ count ih =>
      rw [List.replicate_succ, List.flatten_cons, stepsOf_append, ih, Nat.succ_mul, Nat.add_comm]

theorem stepsOf_leaves (s : Session) (leaves : List Leaf) :
    stepsOf s (leaves.map Leaf.toNode) = 0 := by
  induction leaves with
  | nil => rfl
  | cons leaf leaves ih => cases leaf <;> simp [Leaf.toNode, stepsOf, nodeSteps, ih]

/-- Every step is one of those that are counted. -/
theorem Unrolls.stepsOf_eq {a b : List Node × Session} (h : Unrolls a b) (ha : start.Follows a.2)
    {leaves : List Leaf} (hleaves : Gives start.Follows (expandNodes a.1) leaves) :
    stepsOf start a.1 = stepsOf start b.1 + 1 := by
  cases h with
  | @repeated before after children operand openSpan span s s' value count hfolded hcount =>
      obtain ⟨front, rest, hfront, hrest, rfl⟩ := gives_append_iff.1 hleaves
      obtain ⟨middle, back, hmiddle, hback, rfl⟩ := gives_cons_iff.1 hrest
      obtain ⟨body, operand', value', n, hargs, hbody, hvalue, hn, rfl⟩ := gives_repeated hmiddle
      obtain rfl := List.singleton_inj.1 hargs
      obtain ⟨hsame, -⟩ := (hvalue s ha).of_run_ok hfolded
      obtain rfl := Option.some.inj hsame
      simp only [stepsOf_append, stepsOf, nodeSteps, stepsOf_replicate, countAt_eq hvalue hcount]
      omega
  | call =>
      simp only [stepsOf_append, stepsOf, nodeSteps, stepsOf_leaves]
      omega

/-- Unrolling ends, in whatever order. -/
theorem acc_unrolls {a : List Node × Session} (ha : start.Follows a.2) {leaves : List Leaf}
    (hleaves : Gives start.Follows (expandNodes a.1) leaves) :
    Acc (fun b a => Unrolls a b) a := by
  induction hsteps : stepsOf start a.1 generalizing a with
  | zero =>
      constructor
      intro b hstep
      have := hstep.stepsOf_eq ha hleaves
      omega
  | succ k ih =>
      constructor
      intro b hstep
      have hfewer := hstep.stepsOf_eq ha hleaves
      obtain ⟨hb, hleaves'⟩ := hstep.gives ha hleaves
      exact ih hb hleaves' (by omega)

mutual

/-- The leaves of a block, each once, with the product of the counts around it. -/
def nodeSlots (s : Session) : Node → List (Leaf × Nat)
  | .run r => [(.run r, 1)]
  | .marker m span => [(.marker m span, 1)]
  | .header h => [(.header h, 1)]
  | .call c => (landsAt s c).map fun leaf => (leaf, 1)
  | .repeated args children _ _ =>
    (slots s children).map fun (leaf, n) => (leaf, countAt s args * n)

/-- The leaves of blocks in the order of the script, each once, with the product of the
counts around it. -/
def slots (s : Session) : List Node → List (Leaf × Nat)
  | [] => []
  | n :: ns => nodeSlots s n ++ slots s ns

end

/-- Numbered leaves are the leaves in their places, from a number on: each as often as its
place says, and the places in order where they occur first. -/
structure Fills (first : Nat) (places : List (Leaf × Nat)) (leaves : List (Nat × Leaf)) :
    Prop where
  placed : ∀ p ∈ leaves, ∃ i n, p.1 = first + i ∧ places[i]? = some (p.2, n)
  counted : ∀ i leaf n, places[i]? = some (leaf, n) →
    (leaves.map Prod.fst).count (first + i) = n
  ordered : (leaves.map Prod.fst).eraseDups.Pairwise (· < ·)

namespace Fills

variable {first : Nat} {places places' : List (Leaf × Nat)} {leaves leaves' : List (Nat × Leaf)}

theorem nil (first : Nat) : Fills first [] [] := ⟨by simp, by simp, by simp⟩

theorem bounds (h : Fills first places leaves) {i : Nat} (hi : i ∈ leaves.map Prod.fst) :
    first ≤ i ∧ i < first + places.length := by
  obtain ⟨p, hp, rfl⟩ := List.mem_map.1 hi
  obtain ⟨j, n, hj, hplace⟩ := h.placed p hp
  have hlt := (List.getElem?_eq_some_iff.1 hplace).1
  omega

theorem single (first : Nat) (leaf : Leaf) : Fills first [(leaf, 1)] [(first, leaf)] := by
  refine ⟨?_, ?_, by simp [List.eraseDups_cons]⟩
  · intro p hp
    obtain rfl := List.mem_singleton.1 hp
    exact ⟨0, 1, rfl, rfl⟩
  · intro i leaf' n hplace
    cases i with
    | zero =>
        cases hplace
        simp
    | succ i => cases hplace

theorem append (h : Fills first places leaves)
    (h' : Fills (first + places.length) places' leaves') :
    Fills first (places ++ places') (leaves ++ leaves') := by
  refine ⟨?_, ?_, ?_⟩
  · intro p hp
    rcases List.mem_append.1 hp with hp | hp
    · obtain ⟨i, n, hi, hplace⟩ := h.placed p hp
      exact ⟨i, n, hi, List.getElem?_append_left (List.getElem?_eq_some_iff.1 hplace).1 ▸ hplace⟩
    · obtain ⟨i, n, hi, hplace⟩ := h'.placed p hp
      refine ⟨places.length + i, n, by omega, ?_⟩
      rw [List.getElem?_append_right (by omega), Nat.add_sub_cancel_left, hplace]
  · intro i leaf n hplace
    rw [List.map_append, List.count_append]
    rcases Nat.lt_or_ge i places.length with hi | hi
    · rw [List.getElem?_append_left hi] at hplace
      have hlater : (leaves'.map Prod.fst).count (first + i) = 0 :=
        List.count_eq_zero.2 fun hmem => by have := h'.bounds hmem; omega
      rw [h.counted i leaf n hplace, hlater, Nat.add_zero]
    · rw [List.getElem?_append_right hi] at hplace
      have hearlier : (leaves.map Prod.fst).count (first + i) = 0 :=
        List.count_eq_zero.2 fun hmem => by have := h.bounds hmem; omega
      have hcounted := h'.counted _ leaf n hplace
      rw [show first + places.length + (i - places.length) = first + i by omega] at hcounted
      rw [hearlier, hcounted, Nat.zero_add]
  · have hapart : (leaves'.map Prod.fst).removeAll (leaves.map Prod.fst) =
        leaves'.map Prod.fst := by
      refine List.filter_eq_self.2 fun i hi => ?_
      have hlater := h'.bounds hi
      simp only [Bool.not_eq_true', List.elem_eq_contains, List.contains_eq_mem,
        decide_eq_false_iff_not]
      intro hearlier
      have := h.bounds hearlier
      omega
    rw [List.map_append, List.eraseDups_append, hapart, List.pairwise_append]
    refine ⟨h.ordered, h'.ordered, fun i hi j hj => ?_⟩
    have hearlier := h.bounds (List.mem_eraseDups.1 hi)
    have hlater := h'.bounds (List.mem_eraseDups.1 hj)
    omega

theorem copies (h : Fills first places leaves) (count : Nat) :
    Fills first (places.map fun (leaf, n) => (leaf, count * n))
      (List.replicate count leaves).flatten := by
  refine ⟨?_, ?_, ?_⟩
  · intro p hp
    obtain ⟨copy, hcopy, hp⟩ := List.mem_flatten.1 hp
    rw [List.eq_of_mem_replicate hcopy] at hp
    obtain ⟨i, n, hi, hplace⟩ := h.placed p hp
    exact ⟨i, count * n, hi, by rw [List.getElem?_map, hplace]; rfl⟩
  · intro i leaf n hplace
    rw [List.getElem?_map, Option.map_eq_some_iff] at hplace
    obtain ⟨⟨leaf', m⟩, hplace, heq⟩ := hplace
    cases heq
    rw [List.map_flatten, List.map_replicate, List.count_flatten, List.map_replicate,
      List.sum_replicate, h.counted i leaf m hplace, smul_eq_mul]
  · cases count with
    | zero => simp
    | succ count =>
        have hagain : ((List.replicate count leaves).flatten.map Prod.fst).removeAll
            (leaves.map Prod.fst) = [] := by
          refine List.filter_eq_nil_iff.2 fun i hi => ?_
          obtain ⟨p, hp, rfl⟩ := List.mem_map.1 hi
          obtain ⟨copy, hcopy, hp⟩ := List.mem_flatten.1 hp
          rw [List.eq_of_mem_replicate hcopy] at hp
          have := List.mem_map_of_mem (f := Prod.fst) hp
          simpa using this
        rw [List.replicate_succ, List.flatten_cons, List.map_append, List.eraseDups_append, hagain]
        simpa using h.ordered

/-- Leaves in a row, each once. -/
theorem row (first : Nat) (row : List Leaf) :
    ∃ leaves, Fills first (row.map fun leaf => (leaf, 1)) leaves ∧ leaves.map Prod.snd = row := by
  induction row generalizing first with
  | nil => exact ⟨[], .nil first, rfl⟩
  | cons leaf row ih =>
      obtain ⟨leaves, hleaves, hrow⟩ := ih (first + 1)
      exact ⟨(first, leaf) :: leaves, (single first leaf).append hleaves, by simp [hrow]⟩

end Fills

mutual

theorem fills_node (n : Node) {leaves : List Leaf} (h : Gives start.Follows (expandNode n) leaves)
    (first : Nat) :
    ∃ numbered, Fills first (nodeSlots start n) numbered ∧ numbered.map Prod.snd = leaves := by
  match n with
  | .run r =>
      obtain rfl : leaves = [.run r] := h.unique (.pure _) (.refl start)
      exact ⟨_, .single first _, rfl⟩
  | .marker m span =>
      obtain rfl : leaves = [.marker m span] := h.unique (.pure _) (.refl start)
      exact ⟨_, .single first _, rfl⟩
  | .header head =>
      obtain rfl : leaves = [.header head] := h.unique (.pure _) (.refl start)
      exact ⟨_, .single first _, rfl⟩
  | .call c =>
      rw [nodeSlots, landsAt_eq h]
      exact Fills.row first leaves
  | .repeated args children openSpan span =>
      obtain ⟨body, operand, value, n, rfl, hbody, hvalue, hn, rfl⟩ := gives_repeated h
      obtain ⟨numbered, hfills, rfl⟩ := fills_nodes children hbody first
      rw [nodeSlots, countAt_eq hvalue hn]
      exact ⟨_, hfills.copies n.toNat, by rw [List.map_flatten, List.map_replicate]⟩

/-- The leaves of the expansion fill the places of the script. -/
theorem fills_nodes (ns : List Node) {leaves : List Leaf}
    (h : Gives start.Follows (expandNodes ns) leaves) (first : Nat) :
    ∃ numbered, Fills first (slots start ns) numbered ∧ numbered.map Prod.snd = leaves := by
  match ns with
  | [] =>
      obtain rfl : leaves = [] := h.unique (.pure _) (.refl start)
      exact ⟨[], .nil first, rfl⟩
  | n :: ns =>
      obtain ⟨front, more, hfront, hmore, rfl⟩ := gives_cons_iff.1 h
      obtain ⟨numbered, hfills, rfl⟩ := fills_node n hfront first
      obtain ⟨numbered', hfills', rfl⟩ := fills_nodes ns hmore (first + (nodeSlots start n).length)
      exact ⟨_, hfills.append hfills', List.map_append⟩

end

/-- Where blocks are expanded, unrolling them ends, whatever is unrolled first, and it always
ends in the leaves of the expansion.  These are the leaves of the script, in its order, each
as often as the counts around it multiply to. -/
theorem expandNodes_unrolls {ns : List Node} {leaves : List Leaf} {s s' : Session}
    (h : (expandNodes ns).run.run s = (.ok leaves, s')) :
    Acc (fun b a => Unrolls a b) (ns, s) ∧
    (∀ ms t, UnrollsTo (ns, s) (ms, t) → ∃ t', UnrollsTo (ms, t) (leaves.map Leaf.toNode, t')) ∧
    (∀ t b, ¬ Unrolls (leaves.map Leaf.toNode, t) b) ∧
    ∃ numbered, Fills 0 (slots s ns) numbered ∧ numbered.map Prod.snd = leaves := by
  have hgives := (expandNodes_repeatable ns).gives (.refl s) h
  refine ⟨acc_unrolls (.refl s) hgives, ?_, fun _ _ => not_unrolls_leaves, fills_nodes ns hgives 0⟩
  intro ms t hreached
  obtain ⟨ht, hleaves⟩ := hreached.gives (.refl s) hgives
  obtain ⟨t', -, hruns⟩ := unrollsAlways_nodes ms hleaves t ht
  exact ⟨t', hruns⟩

/-- A block in a block, with counts that need each other, a call in both, and a block that is
left out. -/
def hedgerow : Text :=
  ("#const N (M + 1)\n#const M 2\n#REPEAT(N)\nx\n#REPEAT(M)\ny\n#LINE_LANDS(M, 10, 20, 30, 40)\n" ++
    "#END_REPEAT\n#END_REPEAT\n#REPEAT(-2)\nz\n#END_REPEAT").toList

theorem expandNodes_unrolls_hedgerow :
    ∃ script leaves s', Script.ofSource hedgerow = .ok script ∧
      (expandNodes script.parts).run.run ⟨Resolve.declare {} script.parts, []⟩ = (.ok leaves, s') ∧
      leaves.length = 26 ∧
      (slots ⟨Resolve.declare {} script.parts, []⟩ script.parts).map Prod.snd =
        [1, 3, 6, 6, 6, 3, 1, 0] ∧
      Acc (fun b a => Unrolls a b) (script.parts, ⟨Resolve.declare {} script.parts, []⟩) ∧
      (∀ ms t, UnrollsTo (script.parts, ⟨Resolve.declare {} script.parts, []⟩) (ms, t) →
        ∃ t', UnrollsTo (ms, t) (leaves.map Leaf.toNode, t')) ∧
      (∀ t b, ¬ Unrolls (leaves.map Leaf.toNode, t) b) ∧
      ∃ numbered, Fills 0 (slots ⟨Resolve.declare {} script.parts, []⟩ script.parts) numbered ∧
        numbered.map Prod.snd = leaves := by
  have hruns : (Script.ofSource hedgerow).toOption.any (fun script =>
      ((expandNodes script.parts).run.run ⟨Resolve.declare {} script.parts, []⟩).1.toOption.any
        fun leaves => decide (leaves.length = 26 ∧
          (slots ⟨Resolve.declare {} script.parts, []⟩ script.parts).map Prod.snd =
            [1, 3, 6, 6, 6, 3, 1, 0])) = true := by
    decide +kernel
  obtain ⟨script, hscript, hruns⟩ := toOption_any_iff.1 hruns
  obtain ⟨leaves, hleaves, hcounts⟩ := toOption_any_iff.1 hruns
  obtain ⟨hlength, hslots⟩ := of_decide_eq_true hcounts
  exact ⟨script, leaves, _, hscript, Prod.ext hleaves rfl, hlength, hslots,
    expandNodes_unrolls (Prod.ext hleaves rfl)⟩

end Expansion

end MapScript
