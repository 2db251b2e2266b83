/-
  Strings as the C++ standard library reads them, in the "C" locale: `find` of a
  character, and `stoi` with `strtol` (for base 10) under it.  A string is the
  list of its characters.

  * `Splits`: what stands before and after the first place of a character;
  * `Number`: what `strtol` reads, by the form of the string.  It skips blanks,
    accepts a sign and stops at the first character that is not a digit
    (`strtol_eq_some_iff`), so a string has at most one number (`Number.unique`),
    and a string of digits the one that it stands for (`Digits.number`).
-/
import Mathlib.Data.List.TakeWhile
import Mathlib.Data.Int.Order.Basic

namespace Strings

/-! ## The first place of a character -/

/-- `none` is `npos`. -/
def find (str : List Char) (c : Char) : Option ℕ := str.idxOf? c

/-- `before` and `after` the first `c`. -/
def Splits (c : Char) (str before after : List Char) : Prop :=
  str = before ++ c :: after ∧ c ∉ before

section
variable {c : Char} {str before after : List Char}

theorem find_eq_none_iff : find str c = none ↔ c ∉ str := List.idxOf?_eq_none_iff

theorem Splits.find (h : Splits c str before after) : find str c = some before.length := by
  obtain ⟨rfl, hc⟩ := h
  rw [Strings.find]
  induction before with
  | nil => simp [List.idxOf?_cons]
  | cons b before ih =>
    rw [List.mem_cons, not_or] at hc
    simp [List.idxOf?_cons, Ne.symm hc.1, ih hc.2]

theorem Splits.take (h : Splits c str before after) : str.take before.length = before := by
  rw [h.1, List.take_left]

theorem Splits.drop (h : Splits c str before after) :
    str.drop (before.length + 1) = after := by
  rw [h.1]
  simp

theorem Splits.unique {before' after' : List Char} (h : Splits c str before after)
    (h' : Splits c str before' after') : before = before' ∧ after = after' := by
  have hl : before.length = before'.length := Option.some.inj (h.find.symm.trans h'.find)
  constructor
  · rw [← h.take, ← h'.take, hl]
  · rw [← h.drop, ← h'.drop, hl]

/-- A string with a `c` has a first one. -/
theorem splits_of_mem (h : c ∈ str) : ∃ before after, Splits c str before after :=
  List.eq_append_cons_of_mem h

end

/-! ## The scanner of numbers -/

/-- The white space of the "C" locale. -/
def isspace (c : Char) : Bool := c = ' ' || 9 ≤ c.toNat && c.toNat ≤ 13

/-- The number of the digits that a string starts with. -/
def magnitude (str : List Char) : Option ℕ :=
  let digits := str.takeWhile Char.isDigit
  if digits = [] then none else some (Nat.ofDigitChars 10 digits 0)

/-- The number after an optional sign. -/
def signed : List Char → Option ℤ
  | '-' :: str => (magnitude str).map fun n : ℕ => -(n : ℤ)
  | '+' :: str => (magnitude str).map fun n : ℕ => (n : ℤ)
  | str => (magnitude str).map fun n : ℕ => (n : ℤ)

/-- The number that `strtol` converts, before it is clamped to a `long`. -/
def strtol (str : List Char) : Option ℤ := signed (str.dropWhile isspace)

/-- The values of an `int` of 32 bits. -/
def FitsInt (v : ℤ) : Prop := -2147483648 ≤ v ∧ v ≤ 2147483647

instance (v : ℤ) : Decidable (FitsInt v) := inferInstanceAs (Decidable (_ ∧ _))

/-- What `stoi` throws: no conversion, or a number that does not fit. -/
inductive StoiError where
  | invalidArgument
  | outOfRange
deriving DecidableEq

def stoi (str : List Char) : Except StoiError ℤ :=
  match strtol str with
  | none => .error .invalidArgument
  | some v => if FitsInt v then .ok v else .error .outOfRange

/-! ## Numbers by their form -/

/-- The signs of the numbers that are `factor` times the number of their digits. -/
inductive Sign : List Char → ℤ → Prop
  | none : Sign [] 1
  | plus : Sign ['+'] 1
  | minus : Sign ['-'] (-1)

def AllDigits (digits : List Char) : Prop := digits ≠ [] ∧ ∀ c ∈ digits, c.isDigit

/-- The string starts, after blanks and an optional sign, with the digits of `v`, of which
    there are no more. -/
def Number (str : List Char) (v : ℤ) : Prop :=
  ∃ blanks sign digits rest factor, str = blanks ++ (sign ++ (digits ++ rest)) ∧
    (∀ c ∈ blanks, isspace c) ∧ Sign sign factor ∧ AllDigits digits ∧
    (∀ c ∈ rest.head?, ¬ c.isDigit) ∧ v = factor * Nat.ofDigitChars 10 digits 0

/-- The digits of `n`, leading zeros included, and nothing else. -/
def Digits (str : List Char) (n : ℕ) : Prop := AllDigits str ∧ Nat.ofDigitChars 10 str 0 = n

/-- The digits of `n`, as it is written. -/
def Numeral (str : List Char) (n : ℕ) : Prop := str = Nat.toDigits 10 n

/-! ## The scanner and the form -/

section
variable {α : Type} {p : α → Bool} {run rest : List α}

theorem takeWhile_run (hp : ∀ a ∈ run, p a) (hr : ∀ a ∈ rest.head?, ¬ p a) :
    (run ++ rest).takeWhile p = run := by
  rw [List.takeWhile_append_of_pos hp]
  cases rest with
  | nil => simp
  | cons a rest => rw [List.takeWhile_cons_of_neg (hr a rfl), List.append_nil]

theorem dropWhile_run (hp : ∀ a ∈ run, p a) (hr : ∀ a ∈ rest.head?, ¬ p a) :
    (run ++ rest).dropWhile p = rest := by
  rw [List.dropWhile_append_of_pos hp]
  cases rest with
  | nil => rfl
  | cons a rest => exact List.dropWhile_cons_of_neg (hr a rfl)

theorem not_of_mem_head?_dropWhile {l : List α} : ∀ a ∈ (l.dropWhile p).head?, ¬ p a := by
  intro a ha
  have h := List.head?_dropWhile_not p l
  rw [Option.mem_def.1 ha] at h
  simpa using h

end

section
variable {str digits rest : List Char} {v : ℤ} {n : ℕ}

theorem magnitude_eq_some_iff : magnitude str = some n ↔
    ∃ digits rest, str = digits ++ rest ∧ AllDigits digits ∧
      (∀ c ∈ rest.head?, ¬ c.isDigit) ∧ n = Nat.ofDigitChars 10 digits 0 := by
  constructor
  · intro h
    rw [magnitude] at h
    by_cases hd : str.takeWhile Char.isDigit = []
    · simp [hd] at h
    · simp only [hd, if_false, Option.some.injEq] at h
      refine ⟨str.takeWhile Char.isDigit, str.dropWhile Char.isDigit,
        List.takeWhile_append_dropWhile.symm, ⟨hd, fun c hc => List.mem_takeWhile_imp hc⟩,
        not_of_mem_head?_dropWhile, h.symm⟩
  · rintro ⟨digits, rest, rfl, hd, hr, rfl⟩
    rw [magnitude, takeWhile_run hd.2 hr]
    simp [hd.1]

theorem signed_eq_some_iff : signed str = some v ↔
    ∃ sign digits rest factor, str = sign ++ (digits ++ rest) ∧ Sign sign factor ∧
      AllDigits digits ∧ (∀ c ∈ rest.head?, ¬ c.isDigit) ∧
      v = factor * Nat.ofDigitChars 10 digits 0 := by
  constructor
  · intro h
    unfold signed at h
    split at h
    all_goals
      obtain ⟨n, hn, rfl⟩ := Option.map_eq_some_iff.1 h
      obtain ⟨digits, rest, rfl, hd, hr, rfl⟩ := magnitude_eq_some_iff.1 hn
    · exact ⟨['-'], digits, rest, -1, rfl, .minus, hd, hr, by simp⟩
    · exact ⟨['+'], digits, rest, 1, rfl, .plus, hd, hr, by simp⟩
    · exact ⟨[], digits, rest, 1, rfl, .none, hd, hr, by simp⟩
  · rintro ⟨sign, digits, rest, factor, rfl, hs, hd, hr, rfl⟩
    have hm := magnitude_eq_some_iff.2 ⟨digits, rest, rfl, hd, hr, rfl⟩
    cases hs with
    | plus => simp [signed, hm]
    | minus => simp [signed, hm]
    | none =>
      -- a digit is not a sign
      obtain ⟨hne, hd⟩ := hd
      cases digits with
      | nil => exact absurd rfl hne
      | cons c digits =>
        have hc : c.isDigit := hd c (by simp)
        have h₁ : c ≠ '-' := by rintro rfl; exact absurd hc (by decide)
        have h₂ : c ≠ '+' := by rintro rfl; exact absurd hc (by decide)
        simp only [List.nil_append, List.cons_append] at hm ⊢
        unfold signed
        split
        · rename_i h; cases h; exact absurd rfl h₁
        · rename_i h; cases h; exact absurd rfl h₂
        · simp [hm]

/-- A number starts after the blanks. -/
theorem not_isspace_of_isDigit {c : Char} (h : c.isDigit) : ¬ isspace c := by
  have hc : 48 ≤ c.toNat := (Char.isDigit_iff_toNat.1 h).1
  have hb : c ≠ ' ' := by rintro rfl; exact absurd h (by decide)
  simp only [isspace, hb, decide_false, Bool.false_or, Bool.and_eq_true, decide_eq_true_eq]
  omega

theorem Sign.not_isspace {sign : List Char} {factor : ℤ} (hs : Sign sign factor)
    (hd : AllDigits digits) : ∀ c ∈ (sign ++ (digits ++ rest)).head?, ¬ isspace c := by
  cases hs with
  | plus => simp; decide
  | minus => simp; decide
  | none =>
    obtain ⟨hne, hd⟩ := hd
    cases digits with
    | nil => exact absurd rfl hne
    | cons d digits =>
      rintro c hc
      cases hc
      exact not_isspace_of_isDigit (hd d (by simp))

theorem strtol_eq_some_iff : strtol str = some v ↔ Number str v := by
  constructor
  · intro h
    obtain ⟨sign, digits, rest, factor, hr, hs, hd, ht, hv⟩ := signed_eq_some_iff.1 h
    refine ⟨str.takeWhile isspace, sign, digits, rest, factor, ?_,
      fun c hc => List.mem_takeWhile_imp hc, hs, hd, ht, hv⟩
    rw [← hr, List.takeWhile_append_dropWhile]
  · rintro ⟨blanks, sign, digits, rest, factor, rfl, hb, hs, hd, ht, hv⟩
    rw [strtol, dropWhile_run hb (hs.not_isspace hd)]
    exact signed_eq_some_iff.2 ⟨sign, digits, rest, factor, rfl, hs, hd, ht, hv⟩

theorem Number.unique {w : ℤ} (hv : Number str v) (hw : Number str w) : v = w := by
  rw [← strtol_eq_some_iff] at hv hw
  exact Option.some.inj (hv.symm.trans hw)

/-! ## Outcomes of `stoi` -/

theorem stoi_of_number (h : Number str v) :
    stoi str = if FitsInt v then .ok v else .error .outOfRange := by
  simp only [stoi, strtol_eq_some_iff.2 h]

theorem stoi_of_not_number (h : ∀ v, ¬ Number str v) : stoi str = .error .invalidArgument := by
  cases hs : strtol str with
  | none => simp only [stoi, hs]
  | some v => exact absurd (strtol_eq_some_iff.1 hs) (h v)

end

/-! ## Numerals -/

section
variable {str : List Char} {n : ℕ}

theorem Digits.number (h : Digits str n) : Number str n := by
  obtain ⟨hd, rfl⟩ := h
  exact ⟨[], [], str, [], 1, by simp, by simp, .none, hd, by simp, by simp⟩

theorem Numeral.digits (h : Numeral str n) : Digits str n := by
  cases h
  exact ⟨⟨Nat.toDigits_ne_nil, fun c hc => Nat.isDigit_of_mem_toDigits (by decide) le_rfl hc⟩,
    Nat.ofDigitChars_ten_toDigits⟩

end

end Strings
