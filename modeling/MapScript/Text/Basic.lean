/-!
# Text

A text is the list of its characters, so every count and every cut is in
characters and the scanners recurse on the data.  This module holds the few
operations on texts that belong to no single notion: greedy scanning with
lookahead, joining, decimal numerals and the removal of trailing characters.
-/

namespace MapScript

/-- A sequence of characters. -/
abbrev Text := List Char

namespace Text

/-- The longest front part whose characters satisfy `p`, which also sees what
follows each character, and the rest. -/
def spanAhead (p : Char → Text → Bool) : Text → Text × Text
  | [] => ([], [])
  | c :: cs =>
    if p c cs then
      let (taken, rest) := spanAhead p cs
      (c :: taken, rest)
    else ([], c :: cs)

/-- Nothing is lost by a scan. -/
theorem spanAhead_append (p : Char → Text → Bool) (t : Text) :
    (spanAhead p t).1 ++ (spanAhead p t).2 = t := by
  induction t with
  | nil => rfl
  | cons c cs ih => by_cases h : p c cs <;> simp [spanAhead, h, ih]

/-- The parts one after the other, with `separator` between neighbours. -/
def join (separator : Text) (parts : List Text) : Text :=
  (parts.intersperse separator).flatten

/-- The decimal numeral of a natural number. -/
def ofNat (n : Nat) : Text := Nat.toDigits 10 n

/-- The decimal numeral of an integer, with a leading minus if it is negative. -/
def ofInt : Int → Text
  | .ofNat n => ofNat n
  | .negSucc n => '-' :: ofNat (n + 1)

/-- The text without the characters satisfying `p` at its end. -/
def dropEndWhile (p : Char → Bool) (t : Text) : Text :=
  (t.reverse.dropWhile p).reverse

@[simp] theorem dropEndWhile_nil (p : Char → Bool) : dropEndWhile p [] = [] := rfl

/-- Nothing is dropped from the end beyond a character that stays. -/
theorem dropEndWhile_append_cons (p : Char → Bool) (front : Text) {c : Char} (later : Text)
    (hc : p c = false) :
    dropEndWhile p (front ++ c :: later) = front ++ c :: dropEndWhile p later := by
  unfold dropEndWhile
  rw [List.reverse_append, List.reverse_cons, List.append_assoc, List.dropWhile_append]
  split
  · next hnone => simp [hc, List.isEmpty_iff.1 hnone]
  · simp

/-- An end of which nothing stays is dropped. -/
theorem dropEndWhile_append_of_forall {p : Char → Bool} {last : Text}
    (h : ∀ c ∈ last, p c = true) (front : Text) :
    dropEndWhile p (front ++ last) = dropEndWhile p front := by
  unfold dropEndWhile
  rw [List.reverse_append,
    List.dropWhile_append_of_pos fun c hc => h c (List.mem_reverse.1 hc)]

theorem dropEndWhile_of_forall {p : Char → Bool} {t : Text} (h : ∀ c ∈ t, p c = false) :
    dropEndWhile p t = t := by
  induction t with
  | nil => rfl
  | cons c t ih =>
      obtain ⟨hc, ht⟩ := List.forall_mem_cons.1 h
      have hkeep := dropEndWhile_append_cons p [] t hc
      rwa [List.nil_append, ih ht] at hkeep

theorem mem_of_mem_dropEndWhile {p : Char → Bool} {t : Text} {c : Char}
    (h : c ∈ dropEndWhile p t) : c ∈ t :=
  List.mem_reverse.1 ((List.dropWhile_suffix p).subset (List.mem_reverse.1 h))

/-- The text with its letters in upper case; other alphabets are left alone. -/
def upper (t : Text) : Text := t.map Char.toUpper

/-- The text with its letters in lower case; other alphabets are left alone. -/
def lower (t : Text) : Text := t.map Char.toLower

/-- Order by code points, a proper front part coming first. -/
def before : Text → Text → Bool
  | _, [] => false
  | [], _ :: _ => true
  | a :: as, b :: bs => a.toNat < b.toNat || (a == b && before as bs)

/-- The distinct texts of a list in order. -/
def sortDistinct (ts : List Text) : List Text :=
  (ts.mergeSort fun a b => !before b a).eraseReps

/-- The parts of a text between the places where a character stands. -/
def splitOn (sep : Char) : Text → List Text
  | [] => [[]]
  | c :: cs =>
    if c = sep then [] :: splitOn sep cs
    else
      match splitOn sep cs with
      | [] => [[c]]
      | part :: parts => (c :: part) :: parts

/-- `n` copies of a character. -/
def fill (n : Nat) (c : Char) : Text := List.replicate n c

/-- Whether a character lies in one of the closed ranges of code points. -/
def inRanges (ranges : List (Nat × Nat)) (c : Char) : Bool :=
  ranges.any fun (first, last) => first ≤ c.toNat && c.toNat ≤ last

end Text

end MapScript
