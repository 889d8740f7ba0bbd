import MapScript.Session
import Mathlib

/-!
# Outcomes of computations

The passes share one shape: they may fail, and they keep a state either way.
`Ends` says of a computation and the state it starts from what holds of the
result and of the failure, each with the state left behind.  Every way to build
a computation has one rule, so a proof about a pass follows its text.
-/

namespace MapScript

/-- Run from a state, the computation ends in a result for which `Q` holds or in a
failure for which `E` holds, each with the state it leaves. -/
def Ends {ε σ α : Type} (x : ExceptT ε (StateM σ) α) (s : σ) (Q : α → σ → Prop)
    (E : ε → σ → Prop) : Prop :=
  match x.run.run s with
  | (.ok a, s') => Q a s'
  | (.error e, s') => E e s'

namespace Ends

variable {ε σ α β : Type} {x : ExceptT ε (StateM σ) α} {s s' : σ}
variable {Q Q' : α → σ → Prop} {E E' : ε → σ → Prop}

theorem of_run_ok {a : α} (h : Ends x s Q E) (hrun : x.run.run s = (.ok a, s')) : Q a s' := by
  unfold Ends at h
  rw [hrun] at h
  exact h

theorem of_run_error {e : ε} (h : Ends x s Q E) (hrun : x.run.run s = (.error e, s')) :
    E e s' := by
  unfold Ends at h
  rw [hrun] at h
  exact h

/-- What holds of the outcome of a run holds where the computation ends. -/
theorem of_run (hok : ∀ a s', x.run.run s = (.ok a, s') → Q a s')
    (herror : ∀ e s', x.run.run s = (.error e, s') → E e s') : Ends x s Q E := by
  unfold Ends
  split
  · next a s' hrun => exact hok a s' hrun
  · next e s' hrun => exact herror e s' hrun

theorem mono (h : Ends x s Q E) (hQ : ∀ a s', Q a s' → Q' a s')
    (hE : ∀ e s', E e s' → E' e s') : Ends x s Q' E' :=
  of_run (fun a s' hrun => hQ a s' (h.of_run_ok hrun))
    fun e s' hrun => hE e s' (h.of_run_error hrun)

/-- Two accounts of one computation are one. -/
theorem and (h : Ends x s Q E) (h' : Ends x s Q' E') :
    Ends x s (fun a s' => Q a s' ∧ Q' a s') (fun e s' => E e s' ∧ E' e s') :=
  of_run (fun _ _ hrun => ⟨h.of_run_ok hrun, h'.of_run_ok hrun⟩)
    fun _ _ hrun => ⟨h.of_run_error hrun, h'.of_run_error hrun⟩

/-- The same failures, and results for which less is asked. -/
theorem weaken (h : Ends x s Q E) (hQ : ∀ a s', Q a s' → Q' a s') : Ends x s Q' E :=
  h.mono hQ fun _ _ he => he

@[simp] theorem pure_iff {a : α} : Ends (pure a : ExceptT ε (StateM σ) α) s Q E ↔ Q a s :=
  Iff.rfl

@[simp] theorem throw_iff {e : ε} : Ends (throw e : ExceptT ε (StateM σ) α) s Q E ↔ E e s :=
  Iff.rfl

@[simp] theorem get_iff {Q : σ → σ → Prop} :
    Ends (get : ExceptT ε (StateM σ) σ) s Q E ↔ Q s s := Iff.rfl

@[simp] theorem set_iff {Q : PUnit → σ → Prop} :
    Ends (set s' : ExceptT ε (StateM σ) PUnit) s Q E ↔ Q ⟨⟩ s' := Iff.rfl

@[simp] theorem modify_iff {Q : PUnit → σ → Prop} {f : σ → σ} :
    Ends (modify f : ExceptT ε (StateM σ) PUnit) s Q E ↔ Q ⟨⟩ (f s) := Iff.rfl

/-- A failure ends the whole computation, and a result goes on in the state left. -/
theorem run_bind (y : ExceptT ε (StateM σ) β) (f : β → ExceptT ε (StateM σ) α) (s : σ) :
    (y >>= f).run.run s = match y.run.run s with
      | (.ok b, s') => (f b).run.run s'
      | (.error e, s') => (.error e, s') := by
  rw [ExceptT.run_bind, StateT.run_bind]
  rcases y.run.run s with ⟨_ | b, s'⟩ <;> rfl

@[simp] theorem bind_iff {y : ExceptT ε (StateM σ) β} {f : β → ExceptT ε (StateM σ) α} :
    Ends (y >>= f) s Q E ↔ Ends y s (fun b s' => Ends (f b) s' Q E) E := by
  unfold Ends
  rw [run_bind]
  rcases y.run.run s with ⟨_ | b, s'⟩ <;> rfl

@[simp] theorem map_iff {y : ExceptT ε (StateM σ) β} {f : β → α} :
    Ends (f <$> y) s Q E ↔ Ends y s (fun b s' => Q (f b) s') E := by
  rw [← bind_pure_comp, bind_iff]
  rfl

/-- A result that needs no state ends where it is asked for. -/
@[simp] theorem lift_iff {y : Except ε α} :
    Ends (liftM y : ExceptT ε (StateM σ) α) s Q E ↔
      (∀ a, y = .ok a → Q a s) ∧ ∀ e, y = .error e → E e s := by
  cases y with
  | ok a =>
      have h : Ends (liftM (.ok a : Except ε α) : ExceptT ε (StateM σ) α) s Q E ↔ Q a s := Iff.rfl
      simp [h]
  | error e =>
      have h : Ends (liftM (.error e : Except ε α) : ExceptT ε (StateM σ) α) s Q E ↔ E e s :=
        Iff.rfl
      simp [h]

end Ends

theorem toOption_any_iff {ε α : Type} {x : Except ε α} {p : α → Bool} :
    x.toOption.any p = true ↔ ∃ a, x = .ok a ∧ p a = true := by
  cases x <;> simp [Except.toOption]

theorem isOk_iff {ε α : Type} {x : Except ε α} : x.isOk = true ↔ ∃ a, x = .ok a := by
  cases x <;> simp [Except.isOk, Except.toBool]

theorem exists_of_bind {ε α β : Type} {x : Except ε α} {f : α → Except ε β} {b : β}
    (h : (x >>= f) = .ok b) : ∃ a, x = .ok a ∧ f a = .ok b := by
  cases x with
  | error e => cases h
  | ok a => exact ⟨a, rfl, h⟩

/-- Members of related rows are related to members. -/
theorem exists_of_forall₂_mem {α β : Type} {R : α → β → Prop} {xs : List α} {ys : List β}
    (h : List.Forall₂ R xs ys) {y : β} (hy : y ∈ ys) : ∃ x ∈ xs, R x y := by
  induction h with
  | nil => cases hy
  | cons hfirst _ ih =>
      rcases List.mem_cons.1 hy with rfl | hy
      · exact ⟨_, List.mem_cons_self, hfirst⟩
      · obtain ⟨x, hx, hlater⟩ := ih hy
        exact ⟨x, List.mem_cons_of_mem _ hx, hlater⟩

/-- What a function gives for a row it gives for each member. -/
theorem forall₂_of_mapM {ε α β : Type} {f : α → Except ε β} {xs : List α} {ys : List β}
    (h : xs.mapM f = .ok ys) : List.Forall₂ (fun x y => f x = .ok y) xs ys := by
  induction xs generalizing ys with
  | nil =>
      cases h
      exact .nil
  | cons x xs ih =>
      rw [List.mapM_cons] at h
      obtain ⟨y, hy, h⟩ := exists_of_bind h
      obtain ⟨later, hlater, h⟩ := exists_of_bind h
      cases h
      exact .cons hy (ih hlater)

/-- A row of checks passes if each of them does. -/
theorem forM_eq_ok_iff {ε α : Type} {f : α → Except ε Unit} {xs : List α} :
    xs.forM f = .ok () ↔ ∀ x ∈ xs, f x = .ok () := by
  induction xs with
  | nil => exact iff_of_true rfl (by simp)
  | cons x xs ih =>
      rw [List.forall_mem_cons, ← ih]
      show (f x >>= fun _ => xs.forM f) = .ok () ↔ _
      cases hx : f x with
      | error e =>
          constructor
          · intro h
            cases h
          · rintro ⟨h, -⟩
            cases h
      | ok u =>
          constructor
          · intro h
            exact ⟨rfl, h⟩
          · rintro ⟨-, h⟩
            exact h

theorem forM_eq_error {ε α : Type} {f : α → Except ε Unit} {xs : List α} {e : ε}
    (h : xs.forM f = .error e) : ∃ x ∈ xs, f x = .error e := by
  induction xs with
  | nil => cases h
  | cons x xs ih =>
      replace h : (f x >>= fun _ => xs.forM f) = .error e := h
      cases hx : f x with
      | error e' =>
          rw [hx] at h
          cases h
          exact ⟨x, by simp, hx⟩
      | ok u =>
          rw [hx] at h
          obtain ⟨y, hy, he⟩ := ih h
          exact ⟨y, by simp [hy], he⟩

/-! ### Kinds of failure -/

/-- The result satisfies `Q`, and a refusal is of the given kind. -/
def Delivers {α : Type} (kind : ErrorKind) (x : Except Report α) (Q : α → Prop) : Prop :=
  (∀ a, x = .ok a → Q a) ∧ ∀ r, x = .error r → r.cause.kind = kind

namespace Delivers

variable {α β : Type} {kind : ErrorKind} {x : Except Report α} {Q : α → Prop} {R : β → Prop}

theorem ok {a : α} (h : Q a) : Delivers kind (.ok a) Q := by
  simpa [Delivers] using h

theorem error {r : Report} (h : r.cause.kind = kind) : Delivers kind (.error r) Q := by
  simpa [Delivers] using h

theorem map {f : α → β} (h : Delivers kind x Q) (hf : ∀ a, Q a → R (f a)) :
    Delivers kind (x.map f) R := by
  cases x with
  | error r => exact .error (h.2 r rfl)
  | ok a => exact .ok (hf a (h.1 a rfl))

end Delivers

/-- The failure is a refusal of one of the given kinds, or arithmetic whose result
the format cannot hold. -/
def Failure.Only (kinds : List ErrorKind) : Failure → Prop
  | .report r => r.cause.kind ∈ kinds
  | .fault f => f ≠ .zeroDivision

theorem Failure.Only.refuse {kinds : List ErrorKind} {cause : Cause} {span : Span}
    {notes : List Note} (h : cause.kind ∈ kinds) : (Failure.refuse cause span notes).Only kinds := h

theorem Failure.Only.mono {kinds kinds' : List ErrorKind} {e : Failure} (h : e.Only kinds)
    (hsub : kinds ⊆ kinds') : e.Only kinds' := by
  cases e with
  | report r => exact hsub h
  | fault f => exact h

end MapScript
