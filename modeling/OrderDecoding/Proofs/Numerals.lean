/-
# `Proofs.Numerals` — reading numbers

A number is read digit by digit as far as it goes, so what is read of a text
can change when something is written behind it.  It does not if that may stand
behind a value (`Ends`): a number that is read by itself is read as the same
number in front of it (`number_append`).  That is shown part by part, from the
digits outwards, without a word about what the number is worth.

What it is worth is said of natural numbers: the decimal numeral of a number
that fits in a word is read as that number (`number_toDigits`).  Digits are
taken while their value fits, and the value only grows along them
(`le_ofDigitChars`), so none is left over.
-/
import Mathlib
import OrderDecoding.Json.Reader
import OrderDecoding.Proofs.Grammar

namespace OrderDecoding
namespace Json

variable {s rest : List Char} {c : Char}

/-! ## Digits -/

theorem takeWhile_isDigit_append (hrest : NoDigit rest) :
    (s ++ rest).takeWhile Char.isDigit = s.takeWhile Char.isDigit := by
  induction s with
  | nil =>
    cases rest with
    | nil => rfl
    | cons c rest => simp [hrest c rfl]
  | cons c s ih => rw [List.cons_append, List.takeWhile_cons, List.takeWhile_cons, ih]

theorem dropWhile_isDigit_append (hrest : NoDigit rest) :
    (s ++ rest).dropWhile Char.isDigit = s.dropWhile Char.isDigit ++ rest := by
  induction s with
  | nil =>
    cases rest with
    | nil => rfl
    | cons c rest => simp [hrest c rfl]
  | cons c s ih =>
    rw [List.cons_append, List.dropWhile_cons, List.dropWhile_cons, ih]
    split <;> rfl

theorem takeDigits_append (hrest : NoDigit rest) (significand taken : Nat) :
    takeDigits significand taken (s ++ rest) =
      ((takeDigits significand taken s).1, (takeDigits significand taken s).2.1,
        (takeDigits significand taken s).2.2 ++ rest) := by
  induction s generalizing significand taken with
  | nil =>
    cases rest with
    | nil => rfl
    | cons c rest => simp [takeDigits, hrest c rfl]
  | cons c s ih =>
    rw [List.cons_append, takeDigits, takeDigits]
    split
    · exact ih _ _
    · rfl

/-- What a number goes on with stands in front of its end. -/
theorem Ends.head_append (hrest : Ends rest) {tail : List Char} (h : s ++ rest = c :: tail)
    (hc : c = '.' ∨ c = 'e' ∨ c = 'E') : ∃ s', s = c :: s' ∧ s' ++ rest = tail := by
  cases s with
  | nil =>
    rw [List.nil_append] at h
    subst h
    obtain ⟨hpoint, he, hE⟩ := hrest.ne
    rcases hc with hc | hc | hc
    · exact absurd hc hpoint
    · exact absurd hc he
    · exact absurd hc hE
  | cons d s =>
    cases h
    exact ⟨s, rfl, rfl⟩

section

variable {positive : Bool} {significand extra : Nat} {start : Int} {n : Number} {r : List Char}

/-! ## Exponents -/

theorem exponentDigits_append {m : Nat} (h : exponentDigits s = .ok (m, r))
    (hrest : NoDigit rest) : exponentDigits (s ++ rest) = .ok (m, r ++ rest) := by
  cases s with
  | nil => cases h
  | cons c s =>
    rw [exponentDigits] at h
    split at h
    · next hc =>
      cases h
      rw [List.cons_append, exponentDigits, if_pos hc, takeWhile_isDigit_append hrest,
        dropWhile_isDigit_append hrest]
    · cases h

/-- The sign of an exponent, and the text behind it. -/
def exponentSign : List Char → Bool × List Char
  | '+' :: s => (true, s)
  | '-' :: s => (false, s)
  | s => (true, s)

/-- The number of an exponent whose digits have been read. -/
def exponentNumber (positive : Bool) (significand : Nat) (start : Int) (up : Bool) (n : Nat) :
    Except Fault Number :=
  if maxWrittenExponent < n then
    if significand ≠ 0 && up then .error .malformed
    else .ok (.real (if positive then 0.0 else -0.0))
  else do
    let x ← scaled positive significand (if up then start + n else start - n)
    .ok (.real x)

/-- An exponent is its sign, its digits and what they make of the number. -/
theorem exponentPart_eq : exponentPart positive significand start s = (do
    let (m, rest) ← exponentDigits (exponentSign s).2
    let n ← exponentNumber positive significand start (exponentSign s).1 m
    .ok (n, rest)) := by
  unfold exponentPart exponentNumber
  -- The reader takes the sign apart by a match of its own, which is
  -- `exponentSign` but for its name.
  refine bind_congr_ok fun d _ => ?_
  obtain ⟨m, rest⟩ := d
  dsimp only
  change (if _ then if (_ && (exponentSign s).1) = true then _ else _ else _) = _
  split
  · split <;> rfl
  · change (scaled _ _ (if (exponentSign s).1 = true then _ else _) >>= _) = _
    cases scaled positive significand
      (if (exponentSign s).1 = true then start + m else start - m) <;> rfl

theorem exponentSign_append (hs : s ≠ []) :
    exponentSign (s ++ rest) = ((exponentSign s).1, (exponentSign s).2 ++ rest) := by
  cases s with
  | nil => exact absurd rfl hs
  | cons c s =>
    unfold exponentSign
    split <;> simp_all

theorem exponentPart_append (h : exponentPart positive significand start s = .ok (n, r))
    (hrest : NoDigit rest) :
    exponentPart positive significand start (s ++ rest) = .ok (n, r ++ rest) := by
  rw [exponentPart_eq] at h ⊢
  obtain ⟨⟨m, r'⟩, hdigits, h⟩ := bind_eq_ok_iff.mp h
  obtain ⟨n', hn, h⟩ := bind_eq_ok_iff.mp h
  cases h
  have hs : s ≠ [] := by
    rintro rfl
    cases hdigits
  rw [exponentSign_append hs]
  exact bind_eq_ok_iff.mpr
    ⟨_, exponentDigits_append hdigits hrest, bind_eq_ok_iff.mpr ⟨_, hn, rfl⟩⟩

theorem ending_append {exponent : Int} (h : ending positive significand exponent s = .ok (n, r))
    (hrest : Ends rest) :
    ending positive significand exponent (s ++ rest) = .ok (n, r ++ rest) := by
  unfold ending at h
  split at h
  · exact exponentPart_append h hrest.noDigit
  · exact exponentPart_append h hrest.noDigit
  · next he hE =>
    obtain ⟨x, hx, h⟩ := bind_eq_ok_iff.mp h
    cases h
    rw [ending.eq_3, hx]
    · rfl
    · intro tail htail
      obtain ⟨s', hs', -⟩ := hrest.head_append htail (by decide)
      exact he s' hs'
    · intro tail htail
      obtain ⟨s', hs', -⟩ := hrest.head_append htail (by decide)
      exact hE s' hs'

/-! ## Fractions -/

theorem fraction_append {exponent : Nat}
    (h : fraction positive significand exponent s = .ok (n, r)) (hrest : Ends rest) :
    fraction positive significand exponent (s ++ rest) = .ok (n, r ++ rest) := by
  unfold fraction at h ⊢
  rw [takeDigits_append hrest.noDigit]
  generalize takeDigits significand 0 s = t at h ⊢
  obtain ⟨grown, taken, left⟩ := t
  dsimp only at h ⊢
  rw [takeWhile_isDigit_append hrest.noDigit]
  split at h
  · cases h
  · next hsome =>
    rw [if_neg hsome, List.drop_append_of_le_length (List.takeWhile_sublist _).length_le]
    exact ending_append h hrest

/-- An exponent follows. -/
def startsExponent : List Char → Bool
  | 'e' :: _ | 'E' :: _ => true
  | _ => false

theorem startsExponent_append (hrest : Ends rest) :
    startsExponent (s ++ rest) = startsExponent s := by
  cases s with
  | cons c s =>
    rw [List.cons_append]
    unfold startsExponent
    split <;> simp_all
  | nil =>
    cases rest with
    | nil => rfl
    | cons c rest =>
      obtain ⟨-, he, hE⟩ := hrest.ne
      simp [startsExponent, he, hE]

theorem afterDigits_eq (hpoint : ∀ tail, s ≠ '.' :: tail) :
    afterDigits positive significand extra s =
      if startsExponent s || extra ≠ 0 then ending positive significand extra s
      else if positive then .ok (.natural significand, s)
      else .ok (.real (-Float.ofNat significand), s) := by
  unfold afterDigits
  split
  · next tail => exact absurd rfl (hpoint tail)
  · rfl

theorem afterDigits_append (h : afterDigits positive significand extra s = .ok (n, r))
    (hrest : Ends rest) :
    afterDigits positive significand extra (s ++ rest) = .ok (n, r ++ rest) := by
  -- Where `s` does not start with a point, `s ++ rest` does not either: `rest`
  -- starts with none.
  by_cases hpoint : ∃ tail, s = '.' :: tail
  · obtain ⟨tail, rfl⟩ := hpoint
    exact fraction_append h hrest
  · rw [not_exists] at hpoint
    have hpoint' : ∀ tail, s ++ rest ≠ '.' :: tail := by
      intro tail htail
      obtain ⟨s', hs', -⟩ := hrest.head_append htail (by decide)
      exact hpoint s' hs'
    rw [afterDigits_eq hpoint] at h
    rw [afterDigits_eq hpoint', startsExponent_append hrest]
    split at h
    · next hexponent =>
      rw [if_pos hexponent]
      exact ending_append h hrest
    · next hexponent =>
      rw [if_neg hexponent]
      cases positive <;> cases h <;> rfl

/-! ## Whole numbers -/

theorem unsigned_cons (hc : c.isDigit = true) (hzero : c ≠ '0') :
    unsigned positive (c :: s) = afterDigits positive (takeDigits 0 0 (c :: s)).1
      ((takeDigits 0 0 (c :: s)).2.2.takeWhile Char.isDigit).length
      ((takeDigits 0 0 (c :: s)).2.2.drop
        ((takeDigits 0 0 (c :: s)).2.2.takeWhile Char.isDigit).length) := by
  unfold unsigned
  simp [hc]

theorem unsigned_append (h : unsigned positive s = .ok (n, r)) (hrest : Ends rest) :
    unsigned positive (s ++ rest) = .ok (n, r ++ rest) := by
  cases s with
  | nil => cases h
  | cons c s =>
    by_cases hzero : c = '0'
    · subst hzero
      rw [unsigned] at h
      split at h
      · cases h
      · next hdigit =>
        have hdigit' : ¬ ((s ++ rest).head?.map Char.isDigit).getD false = true := by
          cases s with
          | cons c s => exact hdigit
          | nil =>
            cases rest with
            | nil => exact hdigit
            | cons c rest => simp [hrest.not_digit]
        rw [List.cons_append, unsigned, if_neg hdigit']
        exact afterDigits_append h hrest
    · by_cases hc : c.isDigit = true
      · rw [unsigned_cons hc hzero] at h
        rw [List.cons_append, unsigned_cons hc hzero, ← List.cons_append,
          takeDigits_append hrest.noDigit]
        dsimp only
        rw [takeWhile_isDigit_append hrest.noDigit,
          List.drop_append_of_le_length (List.takeWhile_sublist _).length_le]
        exact afterDigits_append h hrest
      · unfold unsigned at h
        simp [hc] at h

theorem skipBlanks_append_of_cons {tail : List Char} (h : skipBlanks s = c :: tail) :
    skipBlanks (s ++ rest) = c :: (tail ++ rest) := by
  rw [skipBlanks] at h ⊢
  rw [List.dropWhile_append, h]
  rfl

/-- A number is the same in front of whatever may stand behind a value. -/
theorem number_append (h : number s = .ok (n, r)) (hrest : Ends rest) :
    number (s ++ rest) = .ok (n, r ++ rest) := by
  unfold number at h
  split at h
  · cases h
  · next s' heq =>
    unfold number
    rw [skipBlanks_append_of_cons heq]
    exact unsigned_append h hrest
  · next c s' hminus heq =>
    split at h
    · next hc =>
      unfold number
      rw [skipBlanks_append_of_cons heq]
      have hnumber := unsigned_append h hrest
      have hne : c ≠ '-' := ne_of_isDigit hc rfl
      simpa [hc, hne] using hnumber
    · cases h

end

/-! ## Decimal numerals -/

theorem le_ofDigitChars (digits : List Char) (n : Nat) : n ≤ Nat.ofDigitChars 10 digits n := by
  induction digits generalizing n with
  | nil => exact Nat.le_refl n
  | cons c digits ih =>
    rw [Nat.ofDigitChars_cons]
    have hgrown := ih (10 * n + (c.toNat - '0'.toNat))
    omega

/-- Digits are taken to their end if their value fits in a word. -/
theorem takeDigits_eq {digits : List Char} {n : Nat} (hdigits : ∀ c ∈ digits, c.isDigit = true)
    (hbound : Nat.ofDigitChars 10 digits n < Word.bound) (taken : Nat) :
    takeDigits n taken digits = (Nat.ofDigitChars 10 digits n, taken + digits.length, []) := by
  induction digits generalizing n taken with
  | nil => rfl
  | cons c digits ih =>
    obtain ⟨hc, hdigits⟩ := List.forall_mem_cons.mp hdigits
    rw [Nat.ofDigitChars_cons, Nat.mul_comm] at hbound ⊢
    have hgrown : n * 10 + digit c < Word.bound :=
      Nat.lt_of_le_of_lt (le_ofDigitChars digits _) hbound
    have hrest := ih hdigits hbound (taken + 1)
    rw [takeDigits, hc, decide_eq_true hgrown]
    simp only [Bool.and_self, if_true]
    unfold digit
    rw [hrest, List.length_cons, Nat.add_right_comm]
    rfl

theorem digitChar_ne_zero : ∀ n < 10, 0 < n → n.digitChar ≠ '0' := by decide

/-- No numeral but that of zero starts with a zero. -/
theorem exists_toDigits {n : Nat} (hn : 0 < n) :
    ∃ c digits, Nat.toDigits 10 n = c :: digits ∧ c ≠ '0' := by
  induction n using Nat.strongRecOn with
  | ind n ih =>
    by_cases hlt : n < 10
    · rw [Nat.toDigits_of_lt_base hlt]
      exact ⟨_, _, rfl, digitChar_ne_zero n hlt hn⟩
    · obtain ⟨c, digits, hdigits, hc⟩ := ih (n / 10) (by omega) (by omega)
      rw [Nat.toDigits_of_base_le (by decide) (Nat.not_lt.mp hlt), hdigits]
      exact ⟨c, _, rfl, hc⟩

/-- A numeral is read as its number. -/
theorem number_toDigits {n : Nat} (hn : n < Word.bound) :
    number (Nat.toDigits 10 n) = .ok (.natural n, []) := by
  rcases Nat.eq_zero_or_pos n with rfl | hpos
  · rfl
  · obtain ⟨c, digits, heq, hzero⟩ := exists_toDigits hpos
    have hdigits : ∀ d ∈ c :: digits, d.isDigit = true := fun d hd =>
      Nat.isDigit_of_mem_toDigits (by decide) (by decide) (heq ▸ hd)
    have hc : c.isDigit = true := hdigits c List.mem_cons_self
    have hvalue : Nat.ofDigitChars 10 (c :: digits) 0 = n := by
      rw [← heq]
      exact Nat.ofDigitChars_ten_toDigits
    have htake := takeDigits_eq hdigits (by rw [hvalue]; exact hn) 0
    rw [hvalue] at htake
    have hunsigned : unsigned true (c :: digits) = .ok (.natural n, []) := by
      rw [unsigned_cons hc hzero, htake]
      rfl
    rw [heq]
    unfold number
    rw [skipBlanks_cons (isBlank_of_isDigit hc)]
    simpa [hc, ne_of_isDigit hc (d := '-') rfl] using hunsigned

end Json
end OrderDecoding
