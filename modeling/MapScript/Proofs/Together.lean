import MapScript.Proofs.Outcome

/-!
# Computations side by side

Two runs over scripts that are alike are followed step by step.  `Together` says of
two computations that from states which correspond they come to results which
correspond, or fail alike; a proof about a pair of passes follows their text as one
about a single pass does.  What may differ between the scripts is a `Likeness`: the
places of their tokens, and the texts that a message quotes.
-/

namespace MapScript

/-! ### Outcomes in pairs -/

/-- Two results that correspond, or two failures alike. -/
inductive Both {ε α β : Type} (E : ε → ε → Prop) (R : α → β → Prop) :
    Except ε α → Except ε β → Prop
  | ok {a : α} {b : β} (h : R a b) : Both E R (.ok a) (.ok b)
  | error {e e' : ε} (h : E e e') : Both E R (.error e) (.error e')

theorem Both.mono {ε α β : Type} {E : ε → ε → Prop} {R R' : α → β → Prop} {x : Except ε α}
    {y : Except ε β} (h : Both E R x y) (hR : ∀ a b, R a b → R' a b) : Both E R' x y := by
  cases h with
  | ok h => exact .ok (hR _ _ h)
  | error h => exact .error h

theorem Both.map {ε α β α' β' : Type} {E : ε → ε → Prop} {R : α → β → Prop} {R' : α' → β' → Prop}
    {x : Except ε α} {y : Except ε β} {f : α → α'} {g : β → β'} (h : Both E R x y)
    (hR : ∀ a b, R a b → R' (f a) (g b)) : Both E R' (x.map f) (y.map g) := by
  cases h with
  | ok h => exact .ok (hR _ _ h)
  | error h => exact .error h

/-- A computation that cannot fail has a result. -/
theorem Ends.exists_run {ε σ α : Type} {x : ExceptT ε (StateM σ) α} {s : σ} {Q : α → σ → Prop}
    (h : Ends x s Q fun _ _ => False) : ∃ a s', x.run.run s = (.ok a, s') ∧ Q a s' := by
  cases hrun : x.run.run s with
  | mk result s' =>
      cases result with
      | ok a => exact ⟨a, s', rfl, h.of_run_ok hrun⟩
      | error e => exact (h.of_run_error hrun).elim

/-- Run from states that correspond, both computations have results that correspond or both
fail alike, and the states they leave correspond again. -/
def Together {ε σ α β : Type} (E : ε → ε → Prop) (S : σ → σ → Prop) (R : α → β → Prop)
    (x : ExceptT ε (StateM σ) α) (y : ExceptT ε (StateM σ) β) : Prop :=
  ∀ s t, S s t →
    Both E R (x.run.run s).1 (y.run.run t).1 ∧ S (x.run.run s).2 (y.run.run t).2

namespace Together

variable {ε σ α β α' β' : Type} {E : ε → ε → Prop} {S : σ → σ → Prop} {R : α → β → Prop}
variable {Q : α' → β' → Prop} {x : ExceptT ε (StateM σ) α} {y : ExceptT ε (StateM σ) β}

theorem pure {a : α} {b : β} (h : R a b) :
    Together E S R (pure a : ExceptT ε (StateM σ) α) (pure b) := fun _ _ hs => ⟨.ok h, hs⟩

theorem throw {e e' : ε} (h : E e e') :
    Together E S R (throw e : ExceptT ε (StateM σ) α) (throw e') := fun _ _ hs => ⟨.error h, hs⟩

theorem mono {R' : α → β → Prop} (h : Together E S R x y) (hR : ∀ a b, R a b → R' a b) :
    Together E S R' x y := fun s t hs => ⟨(h s t hs).1.mono hR, (h s t hs).2⟩

theorem bind {f : α → ExceptT ε (StateM σ) α'} {g : β → ExceptT ε (StateM σ) β'}
    (h : Together E S R x y) (hf : ∀ a b, R a b → Together E S Q (f a) (g b)) :
    Together E S Q (x >>= f) (y >>= g) := by
  intro s t hs
  obtain ⟨hboth, hstates⟩ := h s t hs
  rw [Ends.run_bind, Ends.run_bind]
  generalize x.run.run s = ran at hboth hstates
  generalize y.run.run t = ran' at hboth hstates
  obtain ⟨result, s'⟩ := ran
  obtain ⟨result', t'⟩ := ran'
  cases hboth with
  | ok hab => exact hf _ _ hab s' t' hstates
  | error he => exact ⟨.error he, hstates⟩

theorem map {f : α → α'} {g : β → β'} (h : Together E S R x y)
    (hR : ∀ a b, R a b → Q (f a) (g b)) : Together E S Q (f <$> x) (g <$> y) := by
  rw [← bind_pure_comp, ← bind_pure_comp]
  exact h.bind fun a b hab => .pure (hR a b hab)

/-- States that are asked for are at hand. -/
theorem get {f : σ → ExceptT ε (StateM σ) α} {g : σ → ExceptT ε (StateM σ) β}
    (h : ∀ s t, S s t → Together E S R (f s) (g t)) :
    Together E S R (MonadState.get >>= f) (MonadState.get >>= g) := fun s t hs => h s t hs s t hs

theorem modified {f : PUnit → ExceptT ε (StateM σ) α} {g : PUnit → ExceptT ε (StateM σ) β}
    {u v : σ → σ} (huv : ∀ s t, S s t → S (u s) (v t)) (h : Together E S R (f ⟨⟩) (g ⟨⟩)) :
    Together E S R (modify u >>= f) (modify v >>= g) := fun s t hs => h _ _ (huv s t hs)

theorem lift {u : Except ε α} {v : Except ε β} (h : Both E R u v) :
    Together E S R (liftM u : ExceptT ε (StateM σ) α) (liftM v) := by
  cases h with
  | ok h => exact .pure h
  | error h => exact .throw h

/-- Where the first computation ends, the second ends alike. -/
theorem ends (h : Together E S R x y) {s t : σ} (hs : S s t) :
    Ends x s (fun a _ => Ends y t (fun b _ => R a b) fun _ _ => False) fun _ _ => True := by
  obtain ⟨hboth, -⟩ := h s t hs
  unfold Ends
  generalize x.run.run s = ran at hboth
  generalize y.run.run t = ran' at hboth
  obtain ⟨result, s'⟩ := ran
  obtain ⟨result', t'⟩ := ran'
  cases hboth with
  | ok hab => exact hab
  | error he => trivial

/-- The second computation may take a step before that leaves the state as it is. -/
theorem step_right {γ : Type} {z : ExceptT ε (StateM σ) γ} {g : γ → ExceptT ε (StateM σ) β} {c : γ}
    (hz : ∀ t, z.run.run t = (.ok c, t)) (h : Together E S R x (g c)) :
    Together E S R x (z >>= g) := by
  intro s t hs
  rw [Ends.run_bind, hz]
  exact h s t hs

/-- What is known of the first computation from any state goes along. -/
theorem and_left {P : α → Prop} (h : Together E S R x y)
    (hx : ∀ s, Ends x s (fun a _ => P a) fun _ _ => True) :
    Together E S (fun a b => P a ∧ R a b) x y := by
  intro s t hs
  obtain ⟨hboth, hstates⟩ := h s t hs
  refine ⟨?_, hstates⟩
  have hends := hx s
  unfold Ends at hends
  generalize x.run.run s = ran at hboth hends
  generalize y.run.run t = ran' at hboth
  obtain ⟨result, s'⟩ := ran
  obtain ⟨result', t'⟩ := ran'
  cases hboth with
  | ok hab => exact .ok ⟨hends, hab⟩
  | error he => exact .error he

end Together

/-! ### Scripts that are alike -/

/-- A way for two scripts to be alike: the places that correspond, and the texts that one may
quote where the other quotes another. -/
structure Likeness where
  place : Position → Position → Prop
  quote : Text → Text → Prop
  quote_refl : ∀ t, quote t t
  quote_append : ∀ {s s' t t'}, quote s s' → quote t t' → quote (s ++ t) (s' ++ t')

/-- A likeness in which the places before the first characters correspond. -/
class Likeness.Anchored (k : Likeness) : Prop where
  origin : k.place .origin .origin

/-- Alike but for any places and any quoted texts. -/
def Likeness.anywhere : Likeness where
  place _ _ := True
  quote _ _ := True
  quote_refl _ := trivial
  quote_append _ _ := trivial

instance : Likeness.anywhere.Anchored := ⟨trivial⟩

variable (k : Likeness)

/-- Tokens of one lexeme at places that correspond. -/
structure Token.Alike (t t' : Token) : Prop where
  lexeme : t.toLexeme = t'.toLexeme
  place : k.place t.span.start t'.span.start

/-- Causes that differ in places and quoted texts only. -/
inductive Cause.Alike : Cause → Cause → Prop
  | same (cause : Cause) : Alike cause cause
  | openBlocks {blocks blocks' : List (Text × Position)}
      (h : List.Forall₂ (fun b b' => b.1 = b'.1 ∧ k.place b.2 b'.2) blocks blocks') :
      Alike (.openBlocks blocks) (.openBlocks blocks')
  | mismatchedCloser (closer block : Text) {opened opened' : Position}
      (h : k.place opened opened') :
      Alike (.mismatchedCloser closer block opened) (.mismatchedCloser closer block opened')
  | repeatCount {argument argument' : Text} (h : k.quote argument argument') :
      Alike (.repeatCount argument) (.repeatCount argument')
  | notNumeric (call parameter : Text) {argument argument' : Text}
      (h : k.quote argument argument') :
      Alike (.notNumeric call parameter argument) (.notNumeric call parameter argument')

/-- Refusals for causes that are alike, at places that correspond. -/
structure Report.Alike (r r' : Report) : Prop where
  cause : Cause.Alike k r.cause r'.cause
  place : k.place r.span.start r'.span.start

/-- Refusals that are alike, or one fault. -/
inductive Failure.Alike : Failure → Failure → Prop
  | report {r r' : Report} (h : Report.Alike k r r') : Alike (.report r) (.report r')
  | fault (f : Fault) : Alike (.fault f) (.fault f)

/-- One warning at places that correspond. -/
structure Warning.Alike (w w' : Warning) : Prop where
  cause : w.cause = w'.cause
  place : k.place w.span.start w'.span.start

variable {k}

/-- Refusals for one cause. -/
theorem Failure.Alike.refuse (cause : Cause) {span span' : Span} (notes notes' : List Note)
    (h : k.place span.start span'.start) :
    Failure.Alike k (.refuse cause span notes) (.refuse cause span' notes') :=
  .report ⟨.same cause, h⟩

theorem Cause.Alike.kind_eq {c c' : Cause} (h : Cause.Alike k c c') : c.kind = c'.kind := by
  cases h <;> rfl

section
variable {t t' : Token} {ts ts' : List Token}

theorem Token.Alike.isPunct_eq (h : Token.Alike k t t') (c : Char) :
    t.isPunct c = t'.isPunct c := by
  rw [Token.isPunct, Token.isPunct, h.lexeme]

theorem Token.Alike.kind_eq (h : Token.Alike k t t') : t.kind = t'.kind := by rw [h.lexeme]

theorem Token.Alike.raw_eq (h : Token.Alike k t t') : t.raw = t'.raw := by rw [h.lexeme]

theorem Token.Alike.value_eq (h : Token.Alike k t t') : t.value = t'.value := by
  rw [Token.value, Token.value, h.lexeme]

theorem Token.Alike.isTrivia_eq (h : Token.Alike k t t') : t.isTrivia = t'.isTrivia := by
  rw [Token.isTrivia, Token.isTrivia, h.lexeme]

theorem Token.Alike.isDirective_eq (h : Token.Alike k t t') (name : Text) :
    t.isDirective name = t'.isDirective name := by
  rw [Token.isDirective, Token.isDirective, h.kind_eq, h.value_eq]

theorem Token.Alike.isWord_eq (h : Token.Alike k t t') (name : Text) :
    t.isWord name = t'.isWord name := by
  rw [Token.isWord, Token.isWord, h.lexeme]

theorem lexemes_of_alike (h : List.Forall₂ (Token.Alike k) ts ts') :
    ts.map Token.toLexeme = ts'.map Token.toLexeme := by
  induction h with
  | nil => rfl
  | cons ht _ ih => rw [List.map_cons, List.map_cons, ht.lexeme, ih]

/-- Where any places correspond, rows of one spelling are alike. -/
theorem alike_anywhere (h : ts.map Token.toLexeme = ts'.map Token.toLexeme) :
    List.Forall₂ (Token.Alike .anywhere) ts ts' := by
  induction ts generalizing ts' with
  | nil =>
      rw [List.map_nil, eq_comm, List.map_eq_nil_iff] at h
      rw [h]
      exact .nil
  | cons t ts ih =>
      obtain ⟨t', ts', rfl, ht, hts⟩ := List.map_eq_cons_iff.1 h.symm
      exact .cons ⟨ht.symm, trivial⟩ (ih hts.symm)

end

end MapScript
