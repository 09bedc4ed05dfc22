/-
# `Proofs.Grammar` — the grammar of JSON, and reading past a value

The readers take a text apart from the left; a value, a string, a number are
never defined by themselves.  They are here: what may stand between quotes
(`Quotable`) and what that stands for (`StandsFor`), the parts of a number, and
values made of values (`WellFormed`).  The grammar knows nothing of fuel, of
what follows a value or of what anything is worth.

Reading past a well-formed value leaves exactly the text behind it
(`WellFormed.skipped`).  That needs two side conditions.  The fuel has to do
for the length, which is what the induction carries along.  And the value has
to END: a number is as long as its digits go, so behind it there may only stand
what may stand behind a value (`Ends`).
-/
import Mathlib
import OrderDecoding.Json.Value
import OrderDecoding.Proofs.Runs

namespace OrderDecoding
namespace Json

variable {b s rest : List Char} {c : Char}

/-! ## Around a value -/

/-- Nothing but blanks. -/
def Blank (s : List Char) : Prop := ∀ c ∈ s, isBlank c = true

/-- What may stand behind a value: nothing, a blank, a comma or a closing
bracket. -/
def Ends (s : List Char) : Prop :=
  ∀ c ∈ s.head?, isBlank c = true ∨ c = ',' ∨ c = ']' ∨ c = '}'

theorem blank_nil : Blank [] := by
  intro c hc
  cases hc

theorem ends_nil : Ends [] := by
  intro c hc
  cases hc

theorem ends_cons (hc : c = ',' ∨ c = ']' ∨ c = '}') : Ends (c :: s) := by
  rintro _ ⟨⟩
  exact Or.inr hc

theorem Ends.of_blank (hb : Blank b) (hs : Ends s) : Ends (b ++ s) := by
  cases b with
  | nil => exact hs
  | cons c b =>
    rintro _ ⟨⟩
    exact Or.inl (hb c List.mem_cons_self)

theorem Blank.ends (hb : Blank b) : Ends b := by
  have h := Ends.of_blank hb ends_nil
  rwa [List.append_nil] at h

/-- No number goes on with what may stand behind a value. -/
theorem Ends.not_digit (h : Ends (c :: s)) : c.isDigit = false := by
  rcases h c rfl with hc | rfl | rfl | rfl
  · simp only [isBlank, Bool.or_eq_true, beq_iff_eq] at hc
    rcases hc with ((rfl | rfl) | rfl) | rfl <;> rfl
  all_goals rfl

theorem Ends.ne (h : Ends (c :: s)) : c ≠ '.' ∧ c ≠ 'e' ∧ c ≠ 'E' := by
  rcases h c rfl with hc | rfl | rfl | rfl
  · simp only [isBlank, Bool.or_eq_true, beq_iff_eq] at hc
    rcases hc with ((rfl | rfl) | rfl) | rfl <;> decide
  all_goals decide

theorem isBlank_of_isDigit (hc : c.isDigit = true) : isBlank c = false := by
  by_contra hblank
  simp only [isBlank, Bool.or_eq_true, beq_iff_eq, Bool.not_eq_false] at hblank
  rcases hblank with ((rfl | rfl) | rfl) | rfl <;> cases hc

theorem ne_of_isDigit (hc : c.isDigit = true) {d : Char} (hd : d.isDigit = false) : c ≠ d := by
  rintro rfl
  rw [hc] at hd
  cases hd

theorem skipBlanks_append (hb : Blank b) : skipBlanks (b ++ s) = skipBlanks s :=
  List.dropWhile_append_of_pos hb

theorem skipBlanks_cons (hc : isBlank c = false) : skipBlanks (c :: s) = c :: s :=
  List.dropWhile_cons_of_neg (by simp [hc])

/-- Blanks are read up to what is none. -/
theorem skipBlanks_append_cons (hb : Blank b) (hc : isBlank c = false) :
    skipBlanks (b ++ c :: s) = c :: s := by
  rw [skipBlanks_append hb, skipBlanks_cons hc]

theorem skipBlanks_of_blank (hb : Blank b) : skipBlanks b = [] := by
  simpa [skipBlanks] using skipBlanks_append (s := []) hb

theorem colon_append (hb : Blank b) : colon (b ++ ':' :: s) = .ok s := by
  rw [colon, skipBlanks_append_cons hb rfl]
  rfl

/-! ## Strings -/

/-- Four hexadecimal digits and the code unit that they are. -/
inductive CodeUnit : List Char → Nat → Prop
  | mk {w x y z : Char} {p q r t : Nat} :
      hexDigit? w = some p → hexDigit? x = some q → hexDigit? y = some r → hexDigit? z = some t →
      CodeUnit [w, x, y, z] (((p * 16 + q) * 16 + r) * 16 + t)

/-- A character that stands for itself between quotes. -/
def Plain (c : Char) : Prop := c ≠ '"' ∧ c ≠ '\\' ∧ 0x20 ≤ c.toNat

/-- What stands between two quotes. -/
inductive Quotable : List Char → Prop
  | nil : Quotable []
  | plain {c : Char} {s : List Char} : Plain c → Quotable s → Quotable (c :: s)
  | short {e c : Char} {s : List Char} :
      shortEscape? e = some c → Quotable s → Quotable ('\\' :: e :: s)
  | unit {u s : List Char} {n : Nat} :
      CodeUnit u n → Quotable s → Quotable ('\\' :: 'u' :: (u ++ s))

/-- What stands between two quotes, and the characters that it stands for.
Halves of a surrogate pair stand for a character only together. -/
inductive StandsFor : List Char → List Char → Prop
  | nil : StandsFor [] []
  | plain {c : Char} {s cs : List Char} : Plain c → StandsFor s cs → StandsFor (c :: s) (c :: cs)
  | short {e c : Char} {s cs : List Char} :
      shortEscape? e = some c → StandsFor s cs → StandsFor ('\\' :: e :: s) (c :: cs)
  | unit {u s cs : List Char} {n : Nat} :
      CodeUnit u n → ¬ (0xD800 ≤ n ∧ n ≤ 0xDFFF) → StandsFor s cs →
      StandsFor ('\\' :: 'u' :: (u ++ s)) (Char.ofNat n :: cs)
  | pair {u v s cs : List Char} {m n : Nat} :
      CodeUnit u m → 0xD800 ≤ m → m ≤ 0xDBFF → CodeUnit v n → 0xDC00 ≤ n → n ≤ 0xDFFF →
      StandsFor s cs →
      StandsFor ('\\' :: 'u' :: (u ++ '\\' :: 'u' :: (v ++ s)))
        (Char.ofNat (0x10000 + (m - 0xD800) * 0x400 + (n - 0xDC00)) :: cs)

theorem standsFor_self (h : ∀ c ∈ s, Plain c) : StandsFor s s := by
  induction s with
  | nil => exact .nil
  | cons c s ih =>
    obtain ⟨hc, hs⟩ := List.forall_mem_cons.mp h
    exact .plain hc (ih hs)

theorem CodeUnit.codeUnit_eq {u : List Char} {n : Nat} (h : CodeUnit u n) :
    codeUnit (u ++ s) = .ok (n, s) := by
  cases h with
  | mk hw hx hy hz => simp [codeUnit, hw, hx, hy, hz]

theorem shortEscape?_ne {e d : Char} (h : shortEscape? e = some d) : e ≠ 'u' := by
  rintro rfl
  cases h

section

variable {fuel : Nat} {tail : List Char}

theorem skipCharacters_escape (hs : skipEscape s = .ok tail)
    (h : skipCharacters fuel tail = .ok rest) :
    skipCharacters (fuel + 1) ('\\' :: s) = .ok rest := by
  rw [skipCharacters, if_neg (by decide), if_pos rfl]
  exact bind_eq_ok_iff.mpr ⟨_, hs, h⟩

theorem skipCharacters_eq (h : Quotable s) (hfuel : s.length < fuel) :
    skipCharacters fuel (s ++ '"' :: rest) = .ok rest := by
  induction h generalizing fuel with
  | nil =>
    obtain ⟨fuel, rfl⟩ := Nat.exists_eq_add_one.mpr hfuel
    rfl
  | plain hc _ ih =>
    obtain ⟨fuel, rfl⟩ := Nat.exists_eq_add_one.mpr (Nat.zero_lt_of_lt hfuel)
    obtain ⟨hquote, hslash, hcontrol⟩ := hc
    rw [List.cons_append, skipCharacters, if_neg hquote, if_neg hslash,
      if_neg (Nat.not_lt.mpr hcontrol)]
    exact ih (Nat.lt_of_succ_lt_succ hfuel)
  | short he _ ih =>
    obtain ⟨fuel, rfl⟩ := Nat.exists_eq_add_one.mpr (Nat.zero_lt_of_lt hfuel)
    simp only [List.length_cons] at hfuel
    refine skipCharacters_escape ?_ (ih (by omega))
    rw [List.append_eq, List.cons_append, skipEscape.eq_3 _ _ (shortEscape?_ne he), he]
    rfl
  | @unit u s n hu _ ih =>
    obtain ⟨fuel, rfl⟩ := Nat.exists_eq_add_one.mpr (Nat.zero_lt_of_lt hfuel)
    simp only [List.length_cons, List.length_append] at hfuel
    refine skipCharacters_escape ?_ (ih (by omega))
    rw [List.append_eq, List.cons_append, List.append_assoc, skipEscape, hu.codeUnit_eq]
    rfl

theorem skipString_append (h : Quotable s) : skipString (s ++ '"' :: rest) = .ok rest := by
  refine skipCharacters_eq h ?_
  simp only [List.length_append, List.length_cons]
  omega

end

/-! ## Numbers -/

/-- One digit or more. -/
def Digits (s : List Char) : Prop := s ≠ [] ∧ ∀ c ∈ s, c.isDigit = true

/-- The digits before the point.  A leading zero stands alone. -/
inductive Whole : List Char → Prop
  | zero : Whole ['0']
  | digits {c : Char} {s : List Char} :
      c.isDigit = true → c ≠ '0' → (∀ d ∈ s, d.isDigit = true) → Whole (c :: s)

/-- The point and the digits behind it, if there are any. -/
inductive Fraction : List Char → Prop
  | none : Fraction []
  | digits {s : List Char} : Digits s → Fraction ('.' :: s)

/-- The exponent, if there is one. -/
inductive Exponent : List Char → Prop
  | none : Exponent []
  | plain {e : Char} {s : List Char} : e = 'e' ∨ e = 'E' → Digits s → Exponent (e :: s)
  | signed {e sign : Char} {s : List Char} :
      e = 'e' ∨ e = 'E' → sign = '+' ∨ sign = '-' → Digits s → Exponent (e :: sign :: s)

/-- A number without its sign. -/
inductive Unsigned : List Char → Prop
  | mk {w f e : List Char} : Whole w → Fraction f → Exponent e → Unsigned (w ++ (f ++ e))

/-- A text that does not go on with a digit. -/
def NoDigit (s : List Char) : Prop := ∀ c ∈ s.head?, c.isDigit = false

theorem Ends.noDigit (h : Ends s) : NoDigit s := by
  cases s with
  | nil =>
    intro c hc
    cases hc
  | cons c s =>
    rintro _ ⟨⟩
    exact h.not_digit

theorem Fraction.noDigit {f e : List Char} (hf : Fraction f) (he : Exponent e)
    (hrest : Ends rest) : NoDigit (f ++ (e ++ rest)) := by
  cases hf with
  | digits =>
    rintro _ ⟨⟩
    rfl
  | none =>
    cases he with
    | none => exact hrest.noDigit
    | plain he | signed he =>
      rintro _ ⟨⟩
      rcases he with rfl | rfl <;> rfl

theorem Unsigned.head (h : Unsigned s) : ∃ c tail, s = c :: tail ∧ c.isDigit = true := by
  cases h with
  | mk hw =>
    cases hw with
    | zero => exact ⟨_, _, rfl, rfl⟩
    | digits hc => exact ⟨_, _, rfl, hc⟩

theorem skipDigits_append (hs : Digits s) (hrest : NoDigit rest) :
    skipDigits (s ++ rest) = .ok rest := by
  obtain ⟨hne, hdigits⟩ := hs
  cases s with
  | nil => exact absurd rfl hne
  | cons c s =>
    obtain ⟨hc, hs⟩ := List.forall_mem_cons.mp hdigits
    rw [List.cons_append, skipDigits, if_pos hc, List.dropWhile_append_of_pos hs]
    cases rest with
    | nil => rfl
    | cons c rest => rw [List.dropWhile_cons_of_neg (by simp [hrest c rfl])]

theorem skipExponent_append (h : Exponent s) (hrest : Ends rest) :
    skipExponent (s ++ rest) = .ok rest := by
  cases h with
  | none =>
    cases rest with
    | nil => rfl
    | cons c rest =>
      obtain ⟨-, he, hE⟩ := hrest.ne
      simp [skipExponent, he, hE]
  | @plain e s he hs =>
    have hskip := skipDigits_append hs hrest.noDigit
    obtain ⟨hne, hdigits⟩ := hs
    cases s with
    | nil => exact absurd rfl hne
    | cons c s =>
      have hc : c.isDigit = true := hdigits c List.mem_cons_self
      have hplus : c ≠ '+' := ne_of_isDigit hc rfl
      have hminus : c ≠ '-' := ne_of_isDigit hc rfl
      rcases he with rfl | rfl <;> simpa [skipExponent, hplus, hminus] using hskip
  | signed he hsign hs =>
    have hskip := skipDigits_append hs hrest.noDigit
    rcases he with rfl | rfl <;> rcases hsign with rfl | rfl <;> exact hskip

/-- Reading past what may follow the digits before the point. -/
theorem skipTail_append {f e : List Char} (hf : Fraction f) (he : Exponent e)
    (hrest : Ends rest) :
    (match f ++ (e ++ rest) with
      | '.' :: s => skipDigits s >>= skipExponent
      | s => skipExponent s) = .ok rest := by
  have hexponent : skipExponent (e ++ rest) = .ok rest := skipExponent_append he hrest
  cases hf with
  | digits hs =>
    exact bind_eq_ok_iff.mpr
      ⟨_, skipDigits_append hs (Fraction.none.noDigit he hrest), hexponent⟩
  | none =>
    cases he with
    | plain he | signed he => rcases he with rfl | rfl <;> exact hexponent
    | none =>
      cases rest with
      | nil => rfl
      | cons c rest =>
        obtain ⟨hpoint, -⟩ := hrest.ne
        simpa [hpoint] using hexponent

theorem skipNumber_append (h : Unsigned s) (hrest : Ends rest) :
    skipNumber (s ++ rest) = .ok rest := by
  cases h with
  | @mk w f e hw hf he =>
    have hnext : NoDigit (f ++ (e ++ rest)) := hf.noDigit he hrest
    have htail := skipTail_append hf he hrest
    rw [List.append_assoc, List.append_assoc]
    -- Of what follows the whole part only these two facts are needed.
    generalize f ++ (e ++ rest) = s at hnext htail
    unfold skipNumber
    dsimp only
    cases hw with
    | zero =>
      have hhead : (s.head?.map Char.isDigit).getD false = false := by
        cases s with
        | nil => rfl
        | cons c s => exact hnext c rfl
      rw [List.singleton_append]
      split
      · next heq =>
        cases heq
        rw [hhead]
        exact htail
      · next hne => exact absurd rfl (hne _)
    | @digits c w hc hzero hw =>
      have hskip : skipDigits (c :: w ++ s) = .ok s :=
        skipDigits_append ⟨List.cons_ne_nil _ _, List.forall_mem_cons.mpr ⟨hc, hw⟩⟩ hnext
      rw [List.cons_append] at hskip ⊢
      split
      · next heq =>
        cases heq
        exact absurd rfl hzero
      · rw [hskip]
        exact htail

/-! ## Values -/

/-- The parts of a text that are made of each other. -/
inductive Part where
  | value
  | elements
  | members

/-- A value by the grammar of JSON; or the elements of a list, or the members
of an object, from one of them on. -/
inductive WellFormed : Part → List Char → Prop
  | word {s : List Char} :
      s ∈ [['n', 'u', 'l', 'l'], ['t', 'r', 'u', 'e'], ['f', 'a', 'l', 's', 'e']] →
      WellFormed .value s
  | number {s : List Char} : Unsigned s → WellFormed .value s
  | negative {s : List Char} : Unsigned s → WellFormed .value ('-' :: s)
  | string {s : List Char} : Quotable s → WellFormed .value ('"' :: (s ++ ['"']))
  | emptyList {b : List Char} : Blank b → WellFormed .value ('[' :: (b ++ [']']))
  | list {b s : List Char} :
      Blank b → WellFormed .elements s → WellFormed .value ('[' :: (b ++ (s ++ [']'])))
  | emptyObject {b : List Char} : Blank b → WellFormed .value ('{' :: (b ++ ['}']))
  | object {b s : List Char} :
      Blank b → WellFormed .members s → WellFormed .value ('{' :: (b ++ (s ++ ['}'])))
  | lastElement {v b : List Char} :
      WellFormed .value v → Blank b → WellFormed .elements (v ++ b)
  | element {v b b' s : List Char} :
      WellFormed .value v → Blank b → Blank b' → WellFormed .elements s →
      WellFormed .elements (v ++ (b ++ ',' :: (b' ++ s)))
  | lastMember {k b b' v b'' : List Char} :
      Quotable k → Blank b → Blank b' → WellFormed .value v → Blank b'' →
      WellFormed .members ('"' :: (k ++ '"' :: (b ++ ':' :: (b' ++ (v ++ b'')))))
  | member {k b b' v b'' b₃ s : List Char} :
      Quotable k → Blank b → Blank b' → WellFormed .value v → Blank b'' → Blank b₃ →
      WellFormed .members s →
      WellFormed .members
        ('"' :: (k ++ '"' :: (b ++ ':' :: (b' ++ (v ++ (b'' ++ ',' :: (b₃ ++ s)))))))

/-- The first character of a value is no blank and closes nothing. -/
theorem WellFormed.head {part : Part} (h : WellFormed part s) :
    ∃ c tail, s = c :: tail ∧ isBlank c = false ∧ c ≠ ']' ∧ c ≠ '}' := by
  induction h with
  | string | emptyList | list | emptyObject | object | negative | lastMember | member =>
    exact ⟨_, _, rfl, rfl, by decide, by decide⟩
  | word hs =>
    simp only [List.mem_cons, List.not_mem_nil, or_false] at hs
    rcases hs with rfl | rfl | rfl <;> exact ⟨_, _, rfl, rfl, by decide, by decide⟩
  | number hs =>
    obtain ⟨c, tail, rfl, hc⟩ := hs.head
    exact ⟨c, tail, rfl, isBlank_of_isDigit hc, ne_of_isDigit hc rfl, ne_of_isDigit hc rfl⟩
  | lastElement _ _ ih | element _ _ _ _ ih =>
    obtain ⟨c, tail, rfl, hc⟩ := ih
    exact ⟨c, _, rfl, hc⟩

theorem WellFormed.length_pos {part : Part} (h : WellFormed part s) : 0 < s.length := by
  obtain ⟨c, tail, rfl, -⟩ := h.head
  exact Nat.succ_pos _

/-! ## One step of skipping -/

section

variable {fuel : Nat} {b' b'' k tail : List Char} (hb : Blank b)
include hb

theorem skipValue_number (hc : c.isDigit = true) :
    skipValue (fuel + 1) (b ++ c :: s) = skipNumber (c :: s) := by
  have hne {d : Char} (hd : d.isDigit = false) : c ≠ d := ne_of_isDigit hc hd
  rw [skipValue, skipBlanks_append_cons hb (isBlank_of_isDigit hc)]
  simp [hc, hne (d := 'n') rfl, hne (d := 't') rfl, hne (d := 'f') rfl, hne (d := '-') rfl,
    hne (d := '"') rfl, hne (d := '[') rfl, hne (d := '{') rfl]

theorem skipValue_emptyList (hb' : Blank b') :
    skipValue (fuel + 1) (b ++ '[' :: (b' ++ ']' :: rest)) = .ok rest := by
  rw [skipValue, skipBlanks_append_cons hb rfl]
  simp [skipBlanks_append_cons hb' (c := ']') rfl]

theorem skipValue_list (hb' : Blank b') (hc : isBlank c = false) (hne : c ≠ ']') :
    skipValue (fuel + 1) (b ++ '[' :: (b' ++ c :: s)) = skipElements fuel (c :: s) := by
  rw [skipValue, skipBlanks_append_cons hb rfl]
  simp [skipBlanks_append_cons hb' hc, hne]

theorem skipValue_emptyObject (hb' : Blank b') :
    skipValue (fuel + 1) (b ++ '{' :: (b' ++ '}' :: rest)) = .ok rest := by
  rw [skipValue, skipBlanks_append_cons hb rfl]
  simp [skipBlanks_append_cons hb' (c := '}') rfl]

theorem skipValue_object (hb' : Blank b') (hc : isBlank c = false) (hne : c ≠ '}') :
    skipValue (fuel + 1) (b ++ '{' :: (b' ++ c :: s)) = skipMembers fuel (c :: s) := by
  rw [skipValue, skipBlanks_append_cons hb rfl]
  simp [skipBlanks_append_cons hb' hc, hne]

theorem skipElements_last (h : skipValue fuel s = .ok (b ++ ']' :: rest)) :
    skipElements (fuel + 1) s = .ok rest := by
  rw [skipElements, h]
  refine bind_eq_ok_iff.mpr ⟨_, rfl, ?_⟩
  rw [skipBlanks_append_cons hb rfl]
  rfl

theorem skipElements_more (h : skipValue fuel s = .ok (b ++ ',' :: tail))
    (htail : skipElements fuel tail = .ok rest) : skipElements (fuel + 1) s = .ok rest := by
  rw [skipElements, h]
  refine bind_eq_ok_iff.mpr ⟨_, rfl, ?_⟩
  rw [skipBlanks_append_cons hb rfl]
  exact htail

theorem skipMembers_last (hk : Quotable k) (hb' : Blank b') (hb'' : Blank b'')
    (h : skipValue fuel s = .ok (b'' ++ '}' :: rest)) :
    skipMembers (fuel + 1) (b ++ '"' :: (k ++ '"' :: (b' ++ ':' :: s))) = .ok rest := by
  rw [skipMembers, skipBlanks_append_cons hb rfl]
  refine bind_eq_ok_iff.mpr ⟨_, skipString_append hk, ?_⟩
  refine bind_eq_ok_iff.mpr ⟨_, colon_append hb', ?_⟩
  refine bind_eq_ok_iff.mpr ⟨_, h, ?_⟩
  rw [skipBlanks_append_cons hb'' rfl]
  rfl

theorem skipMembers_more (hk : Quotable k) (hb' : Blank b') (hb'' : Blank b'')
    (h : skipValue fuel s = .ok (b'' ++ ',' :: tail))
    (htail : skipMembers fuel tail = .ok rest) :
    skipMembers (fuel + 1) (b ++ '"' :: (k ++ '"' :: (b' ++ ':' :: s))) = .ok rest := by
  rw [skipMembers, skipBlanks_append_cons hb rfl]
  refine bind_eq_ok_iff.mpr ⟨_, skipString_append hk, ?_⟩
  refine bind_eq_ok_iff.mpr ⟨_, colon_append hb', ?_⟩
  refine bind_eq_ok_iff.mpr ⟨_, h, ?_⟩
  rw [skipBlanks_append_cons hb'' rfl]
  exact htail

end

/-! ## Reading past a value -/

/-- Reading past a part, with fuel for its length, leaves what stands behind
it. -/
def Skipped : Part → List Char → Prop
  | .value, s => ∀ fuel b rest, 2 * s.length ≤ fuel + 2 → Blank b → Ends rest →
      skipValue (fuel + 1) (b ++ (s ++ rest)) = .ok rest
  | .elements, s => ∀ fuel b rest, 2 * s.length ≤ fuel + 1 → Blank b →
      skipElements (fuel + 1) (b ++ (s ++ ']' :: rest)) = .ok rest
  | .members, s => ∀ fuel b rest, 2 * s.length ≤ fuel + 1 → Blank b →
      skipMembers (fuel + 1) (b ++ (s ++ '}' :: rest)) = .ok rest

theorem WellFormed.skipped {part : Part} (h : WellFormed part s) : Skipped part s := by
  induction h with
  | word hs =>
    intro fuel b rest _ hb _
    simp only [List.mem_cons, List.not_mem_nil, or_false] at hs
    rw [skipValue, skipBlanks_append hb]
    rcases hs with rfl | rfl | rfl <;> rfl
  | number hs =>
    intro fuel b rest _ hb hrest
    have hskip := skipNumber_append hs hrest
    obtain ⟨c, tail, rfl, hc⟩ := hs.head
    rw [List.cons_append, skipValue_number hb hc]
    exact hskip
  | negative hs =>
    intro fuel b rest _ hb hrest
    rw [skipValue, skipBlanks_append hb]
    exact skipNumber_append hs hrest
  | string hs =>
    intro fuel b rest _ hb _
    rw [skipValue, skipBlanks_append hb, List.cons_append, List.append_assoc]
    exact skipString_append hs
  | emptyList hb' =>
    intro fuel b rest _ hb _
    rw [List.cons_append, List.append_assoc, List.singleton_append, skipValue_emptyList hb hb']
  | emptyObject hb' =>
    intro fuel b rest _ hb _
    rw [List.cons_append, List.append_assoc, List.singleton_append, skipValue_emptyObject hb hb']
  | list hb' hs ih =>
    intro fuel b rest hfuel hb _
    simp only [List.length_cons, List.length_append] at hfuel
    obtain ⟨fuel, rfl⟩ := Nat.exists_eq_add_one.mpr (show 0 < fuel by omega)
    -- No element starts with the bracket by which an empty list is known.
    have hskip := ih fuel [] rest (by omega) blank_nil
    obtain ⟨c, tail, rfl, hblank, hc, -⟩ := hs.head
    rw [List.cons_append, List.append_assoc, List.append_assoc, List.singleton_append,
      List.cons_append, skipValue_list hb hb' hblank hc]
    exact hskip
  | object hb' hs ih =>
    intro fuel b rest hfuel hb _
    simp only [List.length_cons, List.length_append] at hfuel
    obtain ⟨fuel, rfl⟩ := Nat.exists_eq_add_one.mpr (show 0 < fuel by omega)
    have hskip := ih fuel [] rest (by omega) blank_nil
    obtain ⟨c, tail, rfl, hblank, -, hc⟩ := hs.head
    rw [List.cons_append, List.append_assoc, List.append_assoc, List.singleton_append,
      List.cons_append, skipValue_object hb hb' hblank hc]
    exact hskip
  | @lastElement v b' hv hb' ih =>
    intro fuel b rest hfuel hb
    simp only [List.length_append] at hfuel
    have hpos := hv.length_pos
    obtain ⟨fuel, rfl⟩ := Nat.exists_eq_add_one.mpr (show 0 < fuel by omega)
    -- What closes the list, or goes on with it, may stand behind a value.
    have hends : Ends (b' ++ ']' :: rest) := Ends.of_blank hb' (ends_cons (by decide))
    rw [List.append_assoc]
    exact skipElements_last hb' (ih fuel b _ (by omega) hb hends)
  | @element v b' b'' s hv hb' hb'' hs ihv ihs =>
    intro fuel b rest hfuel hb
    simp only [List.length_append, List.length_cons] at hfuel
    have hpos := hv.length_pos
    obtain ⟨fuel, rfl⟩ := Nat.exists_eq_add_one.mpr (show 0 < fuel by omega)
    have hends : Ends (b' ++ ',' :: (b'' ++ (s ++ ']' :: rest))) :=
      Ends.of_blank hb' (ends_cons (by decide))
    have hvalue := ihv fuel b _ (by omega) hb hends
    simpa using skipElements_more hb' hvalue (ihs fuel b'' rest (by omega) hb'')
  | @lastMember k b₁ b₂ v b₃ hk hb₁ hb₂ hv hb₃ ih =>
    intro fuel b rest hfuel hb
    simp only [List.length_append, List.length_cons] at hfuel
    have hpos := hv.length_pos
    obtain ⟨fuel, rfl⟩ := Nat.exists_eq_add_one.mpr (show 0 < fuel by omega)
    have hends : Ends (b₃ ++ '}' :: rest) := Ends.of_blank hb₃ (ends_cons (by decide))
    simpa using skipMembers_last hb hk hb₁ hb₃ (ih fuel b₂ _ (by omega) hb₂ hends)
  | @member k b₁ b₂ v b₃ b₄ s hk hb₁ hb₂ hv hb₃ hb₄ hs ihv ihs =>
    intro fuel b rest hfuel hb
    simp only [List.length_append, List.length_cons] at hfuel
    have hpos := hv.length_pos
    obtain ⟨fuel, rfl⟩ := Nat.exists_eq_add_one.mpr (show 0 < fuel by omega)
    have hends : Ends (b₃ ++ ',' :: (b₄ ++ (s ++ '}' :: rest))) :=
      Ends.of_blank hb₃ (ends_cons (by decide))
    have hvalue := ihv fuel b₂ _ (by omega) hb₂ hends
    simpa using skipMembers_more hb hk hb₁ hb₃ hvalue (ihs fuel b₄ rest (by omega) hb₄)

/-- A value that nobody asked for is read past, wherever it stands. -/
theorem skip_append (h : WellFormed .value s) (hb : Blank b) (hrest : Ends rest) :
    skip (b ++ (s ++ rest)) = .ok rest := by
  refine h.skipped _ _ _ ?_ hb hrest
  simp only [List.length_append]
  omega

end Json
end OrderDecoding
