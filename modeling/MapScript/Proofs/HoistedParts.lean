import MapScript.Proofs.Literals
import MapScript.Proofs.Symbol.Replaced

/-!
# Rows without their random calls

A call whose arguments are numbers as soon as the constants of the script among them are
replaced can be taken out for good.  A row from which such calls are taken out is the row
with parts replaced, the parts being the calls and a new name standing for each.
-/

namespace MapScript

open Resolve (Indexed Swaps Step Replaced BeginAlike begins isAreaCommand isConst indexedFrom
  indexedFrom_cons indexedFrom_append map_indexedFrom exists_name_of_begins)

/-- What is written for the number is one numeral, and read as the number again. -/
def Number.ReadsBack (v : Number) : Prop :=
  ∃ raw, v.format = .ok raw ∧ Compact.merges [⟨.number, raw⟩] = false ∧ parse raw = .ok v

instance (v : Number) : Decidable v.ReadsBack :=
  decidable_of_iff (v.format.toOption.any (fun raw =>
      decide (Compact.merges [⟨.number, raw⟩] = false ∧ Number.parse raw = .ok v)) = true)
    (by simp only [toOption_any_iff, decide_eq_true_eq, Number.ReadsBack])

/-- A result that is a number, which is read back. -/
def Number.FoundBack (found : Except Failure (Option Number)) : Prop :=
  ∃ v, found = .ok (some v) ∧ v.ReadsBack

instance : (found : Except Failure (Option Number)) → Decidable (Number.FoundBack found)
  | .ok (some v) => decidable_of_iff v.ReadsBack
      ⟨fun h => ⟨v, rfl, h⟩, fun ⟨_, heq, h⟩ => Option.some.inj (Except.ok.inj heq) ▸ h⟩
  | .ok none => .isFalse fun ⟨_, heq, _⟩ => nomatch heq
  | .error _ => .isFalse fun ⟨_, heq, _⟩ => nomatch heq

namespace Hoist

/-- What is known where calls are taken out: calls give way to names, and nothing else does. -/
def swaps (names : List Text) : Swaps where
  stays _ := True
  operand _ _ := False
  other part v :=
    (∃ name opening inner, part.map Prod.fst = name :: opening :: inner ∧ name.kind = .word ∧
      opening.isPunct '(' = true) ∧ v.1.kind = .word ∧ v.1.raw ∈ names

/-- A random call that can be taken out for good: its names are constants, of which those of
the script have values that are read back, and no parenthesis stands behind it. -/
structure Lasts (table : SymbolTable) (c : RandomCall) : Prop where
  undirected : ∀ t ∈ c.group.inner, t.kind ≠ .directive
  named : ∀ t ∈ c.group.inner, t.kind = .word → table.isConstant t.raw = true
  valued : ∀ t ∈ c.group.inner, isConstant table t = true →
    Number.FoundBack (table.folding t.raw)
  uncalled : (Token.significant c.group.rest).head?.any (Token.isPunct '(') = false

instance (table : SymbolTable) (c : RandomCall) : Decidable (Lasts table c) :=
  decidable_of_iff ((∀ t ∈ c.group.inner, t.kind ≠ .directive) ∧
      (∀ t ∈ c.group.inner, t.kind = .word → table.isConstant t.raw = true) ∧
      (∀ t ∈ c.group.inner, isConstant table t = true → Number.FoundBack (table.folding t.raw)) ∧
      (Token.significant c.group.rest).head?.any (Token.isPunct '(') = false)
    ⟨fun h => ⟨h.1, h.2.1, h.2.2.1, h.2.2.2⟩, fun h => ⟨h.undirected, h.named, h.valued, h.uncalled⟩⟩

/-- A call that lasts and is declared under one of the names. -/
structure Taken (table : SymbolTable) (names : List Text) (h : Hoisted) : Prop where
  formed : h.call.Formed
  lasts : Lasts table h.call
  declares : h.Declares table
  mem : h.name ∈ names
  name : h.name ≠ "rnd".toList
  plain : isAreaCommand h.name = false

/-- A call that is taken out, with no parenthesis behind it. -/
structure Leaves (table : SymbolTable) (names : List Text) (h : Hoisted) (back : List Stretch) :
    Prop extends Taken table names h where
  uncalled : (Token.significant (writtenOf back)).head?.any (Token.isPunct '(') = false

/-- Stretches of which tokens and calls consist, and what is asked of each call. -/
inductive Parts (table : SymbolTable) (names : List Text) : List Stretch → Prop
  | nil : Parts table names []
  | token (t : Token) {back : List Stretch} (later : Parts table names back) :
      Parts table names (.token t :: back)
  | call {h : Hoisted} {back : List Stretch} (leaves : Leaves table names h back)
      (later : Parts table names back) : Parts table names (.call h :: back)

/-- Significant tokens with their calls taken out. -/
inductive Swept (names : List Text) : List Indexed → List Indexed → Prop
  | nil : Swept names [] []
  | keep {x y : Indexed} {ts us : List Indexed} (lexeme : x.1.toLexeme = y.1.toLexeme)
      (rest : Swept names ts us) : Swept names (x :: ts) (y :: us)
  | call {first v : Indexed} {more ts us : List Indexed}
      (name : first.1.isWord "rnd".toList = true)
      (coordinate : Coordinate ((first :: more).map Prod.fst))
      (undirected : ∀ x ∈ first :: more, x.1.kind ≠ .directive)
      (plain : isAreaCommand v.1.raw = false) (uncalled : begins (Token.isPunct '(') us = false)
      (swapped : (swaps names).other (first :: more) v) (rest : Swept names ts us) :
      Swept names (first :: (more ++ ts)) (v :: us)

section
variable {table : SymbolTable} {names : List Text}

theorem kind_of_isWord {t : Token} {w : Text} (h : t.isWord w = true) : t.kind = .word := by
  rw [Token.isWord, Bool.and_eq_true, beq_iff_eq] at h
  exact h.1

/-- The significant tokens of a call. -/
theorem significant_call {c : RandomCall} (h : c.Formed) : Token.significant c.tokens =
    c.name :: c.opening :: (Token.significant c.group.inner ++ [c.group.closer]) := by
  have hname : c.name.isTrivia = false := by simp [Token.isTrivia, h.kind, TokenKind.isTrivia]
  rw [RandomCall.tokens, RandomCall.arguments, List.cons_append, Token.significant_cons,
    Token.significant_cons, significant_append, Token.significant_cons]
  simp [hname, Token.isTrivia_of_isPunct h.opening, Token.isTrivia_of_isPunct h.closer,
    Token.significant]

theorem Leaves.kind_ne_directive {h : Hoisted} {back : List Stretch} (hleaves : Leaves table names h back)
    {t : Token} (ht : t ∈ h.call.tokens) : t.kind ≠ .directive := by
  have hpunct {t : Token} {p : Char} (ht : t.isPunct p = true) : t.kind ≠ .directive := by
    simp [Token.kind_of_isPunct ht]
  rw [RandomCall.tokens, RandomCall.arguments, List.cons_append, List.mem_cons, List.mem_cons,
    List.mem_append, List.mem_singleton] at ht
  rcases ht with rfl | rfl | ht | rfl
  · simp [hleaves.formed.kind]
  · exact hpunct hleaves.formed.opening
  · exact hleaves.lasts.undirected t ht
  · exact hpunct hleaves.formed.closer

/-- What the written lexemes of the parts are read off is the row with its calls taken out. -/
theorem Parts.swept {stretches : List Stretch} (h : Parts table names stretches) (i : Nat)
    {us : List Indexed} (hus : us.map (fun x => x.1.toLexeme) =
      (Token.significant (writtenOf stretches)).map Token.toLexeme) :
    Swept names (indexedFrom i (sourceOf stretches)) us := by
  induction h generalizing i us with
  | nil =>
      obtain rfl := List.map_eq_nil_iff.1 hus
      exact .nil
  | @token t back _ ih =>
      have hsource : sourceOf (.token t :: back) = t :: sourceOf back := rfl
      have hwritten : writtenOf (.token t :: back) = t :: writtenOf back := rfl
      rw [hwritten, Token.significant_cons] at hus
      rw [hsource, indexedFrom_cons]
      split
      · next ht =>
        rw [if_pos ht] at hus
        exact ih (i + 1) hus
      · next ht =>
        rw [if_neg ht] at hus
        obtain ⟨u, us, rfl, hu, hus⟩ := List.map_eq_cons_iff.1 hus
        exact .keep hu.symm (ih (i + 1) hus)
  | @call h back hleaves _ ih =>
      have hsource : sourceOf (.call h :: back) = h.call.tokens ++ sourceOf back := rfl
      have hwritten : Token.significant (writtenOf (.call h :: back)) =
          .made .word h.name h.call.span :: Token.significant (writtenOf back) := rfl
      rw [hwritten] at hus
      obtain ⟨v, us, rfl, hv, hus⟩ := List.map_eq_cons_iff.1 hus
      have hword : v.1.kind = .word := congrArg Lexeme.kind hv
      have hraw : v.1.raw = h.name := congrArg Lexeme.raw hv
      have hmap := (map_indexedFrom i h.call.tokens).trans (significant_call hleaves.formed)
      obtain ⟨first, more, hpart, hfirst, -⟩ := List.map_eq_cons_iff.1 hmap
      rw [hpart] at hmap
      rw [hsource, indexedFrom_append, hpart]
      have hname : first.1.isWord "rnd".toList = true := by
        rw [hfirst]
        exact hleaves.formed.name
      refine .call hname ?_ ?_ ?_ ?_ ⟨⟨_, _, _, hmap, hleaves.formed.kind, hleaves.formed.opening⟩,
        hword, ?_⟩ (ih _ hus)
      · rw [hmap]
        exact .call hleaves.formed.kind hleaves.formed.opening hleaves.formed.inner.significant
          hleaves.formed.closer
      · intro x hx
        have hmem := List.mem_map_of_mem (f := Prod.fst) hx
        rw [hmap, ← significant_call hleaves.formed] at hmem
        exact hleaves.kind_ne_directive (List.mem_filter.1 hmem).1
      · rw [hraw]
        exact hleaves.plain
      · rw [← hleaves.uncalled, ← Resolve.begins_map]
        refine Token.head?_any_isPunct_congr ?_ '('
        rw [List.map_map, ← hus]
        rfl
      · rw [hraw]
        exact hleaves.mem

/-- A row with its calls taken out is the row with parts replaced. -/
theorem Swept.replaced {ts us : List Indexed} (h : Swept names ts us)
    (hplain : ∀ c n rest, c :: n :: rest <:+ ts → isConst c.1 = true → n.1.kind = .word →
      isAreaCommand n.1.raw = false ∧ n.1.isWord "rnd".toList = false) :
    Replaced (swaps names) ts us := by
  induction hn : ts.length using Nat.strongRecOn generalizing ts us with
  | _ n ih =>
      cases h with
      | nil => exact .nil
      | @keep x y ts us hlexeme hrest =>
          have hbehind : ts <:+ x :: ts := List.suffix_cons x ts
          rw [List.length_cons] at hn
          by_cases hdeclares : isConst x.1 = true ∧ begins (fun t => t.kind == .word) ts = true
          · obtain ⟨hconst, hbegins⟩ := hdeclares
            obtain ⟨name, ts, rfl, hnamed⟩ := exists_name_of_begins hbegins
            obtain ⟨hcommand, hrnd⟩ := hplain x name ts List.suffix_rfl hconst hnamed
            rw [List.length_cons] at hn
            generalize hrow : name :: ts = row at hrest
            cases hrest with
            | nil => cases hrow
            | @keep _ name' _ us hname hlater =>
                obtain ⟨rfl, rfl⟩ := List.cons.inj hrow
                exact Replaced.step (.declare hconst hnamed hcommand hlexeme hname fun _ _ => trivial)
                  (ih ts.length (by omega) hlater (fun c n rest h => hplain c n rest
                    (h.trans ((List.suffix_cons _ _).trans hbehind))) rfl)
            | call hname =>
                obtain ⟨rfl, -⟩ := List.cons.inj hrow
                rw [hname] at hrnd
                cases hrnd
          · have hx : isConst x.1 = true → begins (fun t => t.kind == .word) ts = false := by
              intro hconst
              simpa [hconst] using hdeclares
            have hbegin : begins (fun t => t.kind == .word) ts =
                begins (fun t => t.kind == .word) us := by
              cases hrest with
              | nil => rfl
              | keep hlexeme => simp [begins, show _ = _ from congrArg Lexeme.kind hlexeme]
              | call hname _ _ _ _ hswapped =>
                  simp [begins, kind_of_isWord hname, hswapped.2.1]
            refine .cons (.token hlexeme trivial (Or.inr hbegin) hx)
              (ih ts.length (by omega) hrest (fun c n rest hrow => ?_) rfl)
            exact hplain c n rest (hrow.trans hbehind)
      | @call first v more ts us hname hcoordinate hundirected hcommand huncalled hswapped hrest =>
          have hword := kind_of_isWord hname
          have hfree : readsAsCall ((first :: more).map Prod.fst) (ts.map Prod.fst) = false := by
            obtain ⟨⟨_, _, _, hpart, -⟩, -⟩ := hswapped
            simp [readsAsCall, hpart]
          have hbehind : ts <:+ first :: (more ++ ts) := List.suffix_append (first :: more) ts
          have hshort : ts.length < n := by
            rw [← hn, List.length_cons, List.length_append]
            omega
          exact Replaced.step (.other hcoordinate hfree hundirected (by simp [begins, hword])
            (Or.inr ⟨hswapped.2.1, hcommand, huncalled⟩) hswapped)
            (ih ts.length hshort hrest (fun c n rest h => hplain c n rest (h.trans hbehind)) rfl)

end

end Hoist

end MapScript
