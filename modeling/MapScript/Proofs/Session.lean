import MapScript.Proofs.Symbol.Resolve

/-!
# Passes over a settled session

The rules for the steps of a pass.  Once a script is resolved its session is
settled: the value of an operand whose names are declared can then only fail by
its arithmetic, and the table takes up nothing but values.
-/

namespace MapScript

namespace Pass

variable {α : Type} {s : Session} {Q : α → Session → Prop} {E : Failure → Session → Prop}

@[simp] theorem onTable_ends_iff {f : Resolving α} :
    Ends (onTable f) s Q E ↔
      Ends f s.table (fun a table => Q a { s with table := table })
        (fun e table => E e { s with table := table }) := by
  unfold onTable
  simp only [Ends.bind_iff, Ends.get_iff]
  conv_rhs => unfold Ends
  rcases f.run.run s.table with ⟨_ | a, table⟩ <;> rfl

@[simp] theorem warn_ends_iff {Q : Unit → Session → Prop} {cause : WarningCause} {span : Span} :
    Ends (warn cause span) s Q E ↔
      Q () { s with warnings := s.warnings ++ [⟨cause, span⟩] } := Iff.rfl

@[simp] theorem refuse_ends_iff {cause : Cause} {span : Span} :
    Ends (refuse cause span : Pass α) s Q E ↔ E (.refuse cause span []) s := Iff.rfl

@[simp] theorem ofFault_ends_iff {result : Except Fault α} :
    Ends (ofFault result) s Q E ↔
      (∀ a, result = .ok a → Q a s) ∧ ∀ f, result = .error f → E (.fault f) s := by
  cases result <;> simp [ofFault]

@[simp] theorem ofReport_ends_iff {result : Except Report α} :
    Ends (ofReport result) s Q E ↔
      (∀ a, result = .ok a → Q a s) ∧ ∀ r, result = .error r → E (.report r) s := by
  cases result <;> simp [ofReport]

/-- Arithmetic that never divides by zero fails by a fault of its format. -/
theorem ofFault_ends {result : Except Fault α} (h : Divides result) (s : Session)
    (kinds : List ErrorKind) :
    Ends (ofFault result) s (fun a s' => s' = s ∧ result = .ok a) (fun e _ => e.Only kinds) := by
  rw [ofFault_ends_iff]
  constructor
  · intro a ha
    exact ⟨rfl, ha⟩
  · intro f hf hzero
    exact h (by rw [hf, hzero])

end Pass

namespace Session

/-- Every name in a declaration of the script is known. -/
def Settled (s : Session) : Prop := Evaluation.Settled s.table s.table.values

theorem Settled.extend {s s' : Session} (h : s.Settled) (hs : s.table.Extends s'.table) :
    s'.Settled := by
  intro entry hentry d hd ref href
  rw [hs.constants] at hentry
  exact hs.known (h entry hentry d hd ref href)

end Session

/-- In a settled session the value of an operand of declared names fails only by
its arithmetic. -/
theorem Pass.fold_ends {s : Session} (hs : s.Settled) {operand : List Token}
    (h : Evaluation.check s.table operand = .ok ()) (kinds : List ErrorKind) :
    Ends (Pass.fold operand) s (fun _ s' => s.table.Extends s'.table)
      (fun e _ => e.Only kinds) := by
  unfold Pass.fold
  rw [Pass.onTable_ends_iff, Resolving.evaluate_ends_iff]
  apply (Evaluation.fold_settled hs h).mono
  · intro value memo hgrow
    exact .of_values hgrow
  · rintro e memo ⟨-, he⟩
    exact he.mono (by simp)

end MapScript
