/-
# `Proofs.Records` — what a spelled value is read as

A reader of values is right about a text if it reads it as the value wherever
the text stands: behind any blanks and in front of whatever may stand behind a
value (`Reads`).  Stated so, readers compose.  What is read of an element, a
member or a whole text does not depend on what else is written.

An object is its members: the name that each key stands for, and the text of
each value (`IsObject`).  They may come in any order, keys may be escaped,
blanks may stand wherever they can, and members that the reader does not know
may stand between those that it does (`Says`).  None of that is seen in what is
read: the draft, changed by one field after the other (`reads_record`).
-/
import Mathlib
import OrderDecoding.Json.Record
import OrderDecoding.Json.Writer
import OrderDecoding.Proofs.Numerals

namespace OrderDecoding
namespace Json

variable {β γ σ : Type} {read : Reader β} {x : β}
variable {b s text rest : List Char} {c : Char}

/-! ## Spelled values -/

/-- A text is read as a value, whatever blanks stand before it and whatever
ends it. -/
def Reads (read : Reader β) (text : List Char) (x : β) : Prop :=
  ∀ b rest, Blank b → Ends rest → read (b ++ (text ++ rest)) = .ok (x, rest)

theorem Reads.readText_eq (h : Reads read text x) {b' : List Char} (hb : Blank b)
    (hb' : Blank b') {t : String} (ht : t.toList = b ++ (text ++ b')) :
    readText read t = .ok x := by
  rw [readText, ht, h b b' hb hb'.ends]
  refine bind_eq_ok_iff.mpr ⟨_, rfl, ?_⟩
  dsimp only
  rw [skipBlanks_of_blank hb']
  rfl

/-- A text with nothing around the value. -/
theorem Reads.readText_toList {t : String} (h : Reads read t.toList x) :
    readText read t = .ok x :=
  h.readText_eq blank_nil blank_nil (List.append_nil _).symm

theorem Reads.refine {convert : β → Except String γ} {y : γ} (h : Reads read text x)
    (hy : convert x = .ok y) : Reads (Json.refine read convert) text y := by
  intro b rest hb hrest
  refine bind_eq_ok_iff.mpr ⟨_, h b rest hb hrest, ?_⟩
  dsimp only
  rw [hy]

theorem Reads.of {key : String} {omission : Omission} {set : σ → β → σ} (h : Reads read text x) :
    Reads (RecordField.of key omission read set).read text fun draft => set draft x := by
  intro b rest hb hrest
  exact bind_eq_ok_iff.mpr ⟨_, h b rest hb hrest, rfl⟩

/-- A text is read as what stands in front of blanks. -/
theorem readText_eq_ok_iff {t : String} :
    readText read t = .ok x ↔ ∃ rest, read t.toList = .ok (x, rest) ∧ skipBlanks rest = [] := by
  unfold readText
  rw [bind_eq_ok_iff]
  constructor
  · rintro ⟨⟨y, rest⟩, hread, h⟩
    dsimp only at h
    split at h
    · next hblank =>
      cases h
      exact ⟨rest, hread, List.isEmpty_iff.mp hblank⟩
    · cases h
  · rintro ⟨rest, hread, hblank⟩
    refine ⟨_, hread, ?_⟩
    dsimp only
    rw [hblank]
    rfl

/-! ## Scalars -/

theorem reads_number {n : Number} (h : number text = .ok (n, [])) : Reads number text n := by
  intro b rest hb hrest
  have hread := number_append h hrest
  unfold number at hread ⊢
  rwa [skipBlanks_append hb]

theorem reads_natural {n : Nat} (hn : n < Word.bound) : Reads natural (toString n).toList n := by
  intro b rest hb hrest
  have h : number (toString n).toList = .ok (.natural n, []) := by
    rw [Nat.toString_eq_ofList_toDigits, String.toList_ofList]
    exact number_toDigits hn
  exact bind_eq_ok_iff.mpr ⟨_, reads_number h b rest hb hrest, rfl⟩

theorem exists_toString (n : Nat) :
    ∃ c tail, (toString n).toList = c :: tail ∧ c.isDigit = true := by
  rw [Nat.toString_eq_ofList_toDigits, String.toList_ofList]
  cases h : Nat.toDigits 10 n with
  | nil => exact absurd h Nat.toDigits_ne_nil
  | cons c tail =>
    have hc : c ∈ Nat.toDigits 10 n := h ▸ List.mem_cons_self
    exact ⟨c, tail, rfl, Nat.isDigit_of_mem_toDigits (by decide) (by decide) hc⟩

theorem reads_float {x : Float} (h : float text = .ok (x, [])) : Reads float text x := by
  intro b rest hb hrest
  obtain ⟨⟨n, r⟩, hn, h⟩ := bind_eq_ok_iff.mp h
  cases h
  exact bind_eq_ok_iff.mpr ⟨_, reads_number hn b rest hb hrest, rfl⟩

theorem reads_bool (value : Bool) : Reads bool (toString value).toList value := by
  intro b rest hb _
  unfold bool
  rw [skipBlanks_append hb]
  cases value <;> rfl

theorem reads_null : Reads (optional read) ['n', 'u', 'l', 'l'] none := by
  intro b rest hb _
  unfold optional
  rw [skipBlanks_append hb]
  rfl

theorem Reads.optional (h : Reads read (c :: s) x) (hblank : isBlank c = false) (hc : c ≠ 'n') :
    Reads (Json.optional read) (c :: s) (some x) := by
  intro b rest hb hrest
  have hread := h [] rest blank_nil hrest
  rw [List.nil_append, List.cons_append] at hread
  unfold Json.optional
  rw [List.cons_append, skipBlanks_append_cons hb hblank]
  simp [hc, hread]
  rfl

/-! ## Strings and names -/

theorem escape_short {e d : Char} (h : shortEscape? e = some d) : escape (e :: s) = .ok (d, s) := by
  rw [escape.eq_3 _ _ (shortEscape?_ne h), h]

theorem escape_unit {u : List Char} {n : Nat} (h : CodeUnit u n)
    (hn : ¬ (0xD800 ≤ n ∧ n ≤ 0xDFFF)) : escape ('u' :: (u ++ s)) = .ok (Char.ofNat n, s) := by
  rw [escape, h.codeUnit_eq]
  refine bind_eq_ok_iff.mpr ⟨_, rfl, ?_⟩
  dsimp only
  rw [if_neg (by omega), if_neg (by omega)]

theorem escape_pair {u v : List Char} {m n : Nat} (hu : CodeUnit u m) (hm : 0xD800 ≤ m)
    (hm' : m ≤ 0xDBFF) (hv : CodeUnit v n) (hn : 0xDC00 ≤ n) (hn' : n ≤ 0xDFFF) :
    escape ('u' :: (u ++ '\\' :: 'u' :: (v ++ s))) =
      .ok (Char.ofNat (0x10000 + (m - 0xD800) * 0x400 + (n - 0xDC00)), s) := by
  rw [escape, hu.codeUnit_eq]
  refine bind_eq_ok_iff.mpr ⟨_, rfl, ?_⟩
  dsimp only
  rw [if_neg (by omega), if_pos ⟨hm, hm'⟩, secondHalf, hv.codeUnit_eq]
  refine bind_eq_ok_iff.mpr ⟨_, rfl, ?_⟩
  dsimp only
  rw [if_pos ⟨hn, hn'⟩]

theorem characters_escape {fuel : Nat} {cs tail : List Char} (hc : escape s = .ok (c, tail))
    (h : characters fuel tail = .ok (cs, rest)) :
    characters (fuel + 1) ('\\' :: s) = .ok (c :: cs, rest) := by
  rw [characters, if_neg (by decide), if_pos rfl]
  exact bind_eq_ok_iff.mpr ⟨_, hc, bind_eq_ok_iff.mpr ⟨_, h, rfl⟩⟩

theorem characters_eq {cs : List Char} {fuel : Nat} (h : StandsFor s cs)
    (hfuel : s.length < fuel) : characters fuel (s ++ '"' :: rest) = .ok (cs, rest) := by
  induction h generalizing fuel with
  | nil =>
    obtain ⟨fuel, rfl⟩ := Nat.exists_eq_add_one.mpr hfuel
    rfl
  | plain hc _ ih =>
    obtain ⟨fuel, rfl⟩ := Nat.exists_eq_add_one.mpr (Nat.zero_lt_of_lt hfuel)
    obtain ⟨hquote, hslash, hcontrol⟩ := hc
    rw [List.cons_append, characters, if_neg hquote, if_neg hslash,
      if_neg (Nat.not_lt.mpr hcontrol)]
    exact bind_eq_ok_iff.mpr ⟨_, ih (Nat.lt_of_succ_lt_succ hfuel), rfl⟩
  | short he _ ih =>
    obtain ⟨fuel, rfl⟩ := Nat.exists_eq_add_one.mpr (Nat.zero_lt_of_lt hfuel)
    simp only [List.length_cons] at hfuel
    exact characters_escape (escape_short he) (ih (by omega))
  | unit hu hn _ ih =>
    obtain ⟨fuel, rfl⟩ := Nat.exists_eq_add_one.mpr (Nat.zero_lt_of_lt hfuel)
    simp only [List.length_cons, List.length_append] at hfuel
    simpa using characters_escape (escape_unit hu hn) (ih (show _ < fuel by omega))
  | pair hu hm hm' hv hn hn' _ ih =>
    obtain ⟨fuel, rfl⟩ := Nat.exists_eq_add_one.mpr (Nat.zero_lt_of_lt hfuel)
    simp only [List.length_cons, List.length_append] at hfuel
    simpa using characters_escape (escape_pair hu hm hm' hv hn hn') (ih (show _ < fuel by omega))

theorem string_append {cs : List Char} (h : StandsFor s cs) :
    string (s ++ '"' :: rest) = .ok (String.ofList cs, rest) := by
  refine bind_eq_ok_iff.mpr ⟨_, characters_eq h ?_, rfl⟩
  simp only [List.length_append, List.length_cons]
  omega

theorem key_append {cs : List Char} (hb : Blank b) (h : StandsFor s cs) :
    key (b ++ '"' :: (s ++ '"' :: rest)) = .ok (String.ofList cs, rest) := by
  unfold key
  rw [skipBlanks_append_cons hb rfl]
  exact string_append h

theorem reads_oneOf {ofName? : String → Option β} {name : String} (h : StandsFor s name.toList)
    (hx : ofName? name = some x) : Reads (oneOf ofName?) ('"' :: (s ++ ['"'])) x := by
  intro b rest hb _
  have hstring : string (s ++ '"' :: rest) = .ok (name, rest) := by
    rw [string_append h, String.ofList_toList]
  unfold oneOf
  rw [List.cons_append, List.append_assoc, List.singleton_append, skipBlanks_append_cons hb rfl]
  refine bind_eq_ok_iff.mpr ⟨_, hstring, ?_⟩
  dsimp only
  rw [hx]
  rfl

/-! ## Lists -/

/-- Texts with commas between them; behind others there is one in front of the
first of them, too. -/
def joined (first : Bool) : List (List Char) → List Char
  | [] => []
  | t :: ts => (if first then [] else [',']) ++ (t ++ joined false ts)

theorem joined_true (ts : List (List Char)) : joined true ts = [','].intercalate ts := by
  cases ts with
  | nil => rfl
  | cons t ts =>
    induction ts generalizing t with
    | nil => simp [joined]
    | cons u ts ih =>
      rw [List.intercalate_cons_cons, ← ih u]
      simp [joined]

theorem length_le_joined {first : Bool} {ts : List (List Char)} (h : ∀ t ∈ ts, t ≠ []) :
    ts.length ≤ (joined first ts).length := by
  induction ts generalizing first with
  | nil => exact Nat.zero_le _
  | cons t ts ih =>
    obtain ⟨ht, hts⟩ := List.forall_mem_cons.mp h
    have hpos := List.length_pos_iff.mpr ht
    have hlength : ts.length ≤ (joined false ts).length := ih hts
    simp only [joined, List.length_append, List.length_cons]
    omega

theorem ends_joined {ts : List (List Char)} {close : Char} (hclose : close = ']' ∨ close = '}') :
    Ends (joined false ts ++ close :: rest) := by
  cases ts with
  | nil => exact ends_cons (Or.inr hclose)
  | cons t ts => exact ends_cons (Or.inl rfl)

theorem nextElement_joined {first : Bool} (hc : isBlank c = false) (hne : c ≠ ']') :
    nextElement first ((if first then [] else [',']) ++ c :: s) = .ok (.more (c :: s)) := by
  unfold nextElement
  cases first with
  | true =>
    rw [if_pos rfl, List.nil_append, skipBlanks_cons hc]
    simp
  | false =>
    rw [if_neg (by decide), List.singleton_append, skipBlanks_cons rfl]
    simp [skipBlanks_cons hc, hne]

section

variable {xs : List β} {texts : List (List Char)} (h : List.Forall₂ (Reads read) texts xs)
include h

theorem elements_joined
    (hhead : ∀ t ∈ texts, ∃ c tail, t = c :: tail ∧ isBlank c = false ∧ c ≠ ']')
    {first : Bool} {fuel : Nat} (hfuel : texts.length < fuel) :
    elements read fuel first (joined first texts ++ ']' :: rest) = .ok (xs, rest) := by
  induction h generalizing first fuel with
  | nil =>
    obtain ⟨fuel, rfl⟩ := Nat.exists_eq_add_one.mpr hfuel
    rfl
  | cons hx _ ih =>
    obtain ⟨fuel, rfl⟩ := Nat.exists_eq_add_one.mpr (Nat.zero_lt_of_lt hfuel)
    obtain ⟨⟨c, tail, rfl, hc, hne⟩, htexts⟩ := List.forall_mem_cons.mp hhead
    rw [joined, List.append_assoc, List.append_assoc, List.cons_append, elements]
    refine bind_eq_ok_iff.mpr ⟨_, nextElement_joined hc hne, ?_⟩
    refine bind_eq_ok_iff.mpr ⟨_, hx [] _ blank_nil (ends_joined (Or.inl rfl)), ?_⟩
    exact bind_eq_ok_iff.mpr ⟨_, ih htexts (Nat.lt_of_succ_lt_succ hfuel), rfl⟩

theorem reads_list
    (hhead : ∀ t ∈ texts, ∃ c tail, t = c :: tail ∧ isBlank c = false ∧ c ≠ ']') :
    Reads (list read) ('[' :: ([','].intercalate texts ++ [']'])) xs := by
  intro b rest hb _
  rw [← joined_true, List.cons_append, List.append_assoc, List.singleton_append]
  unfold list
  rw [skipBlanks_append_cons hb rfl]
  refine elements_joined h hhead ?_
  have hlength : texts.length ≤ (joined true texts).length := by
    refine length_le_joined fun t ht => ?_
    obtain ⟨c, tail, rfl, -⟩ := hhead t ht
    exact List.cons_ne_nil _ _
  rw [List.length_append]
  omega

end

/-! ## Members of an object -/

/-- A member of an object: what its key stands for, and the text of its
value. -/
structure Member where
  name : String
  value : List Char

inductive SpellsMember : Member → List Char → Prop
  | mk {m : Member} {b k b' b'' b₃ : List Char} :
      Blank b → StandsFor k m.name.toList → Blank b' → Blank b'' → Blank b₃ →
      SpellsMember m (b ++ '"' :: (k ++ '"' :: (b' ++ ':' :: (b'' ++ (m.value ++ b₃)))))

/-- A text is an object with these members, in this order. -/
def IsObject (ms : List Member) (text : List Char) : Prop :=
  ∃ b texts, Blank b ∧ List.Forall₂ SpellsMember ms texts ∧
    text = '{' :: (b ++ ([','].intercalate texts ++ ['}']))

/-- A text is an object with these members, and blanks around it. -/
def HasMembers (ms : List Member) (text : String) : Prop :=
  ∃ b t b', Blank b ∧ IsObject ms t ∧ Blank b' ∧ text.toList = b ++ (t ++ b')

/-- The members say these things one after the other, possibly among members of
other names. -/
inductive Says {ι : Type} (fits : ι → Member → Prop) (names : List String) :
    List ι → List Member → Prop
  | nil : Says fits names [] []
  | field {x : ι} {xs : List ι} {m : Member} {ms : List Member} :
      fits x m → Says fits names xs ms → Says fits names (x :: xs) (m :: ms)
  | other {xs : List ι} {m : Member} {ms : List Member} :
      m.name ∉ names → WellFormed .value m.value → Says fits names xs ms →
      Says fits names xs (m :: ms)

section

variable {m : Member} {first : Bool}

theorem SpellsMember.ne_nil (h : SpellsMember m text) : text ≠ [] := by
  cases h
  simp

/-- The key of a member and its colon are read up to the value. -/
theorem SpellsMember.opens (h : SpellsMember m text) (hb : Blank b) (first : Bool)
    (rest : List Char) : ∃ tail b' b'', Blank b' ∧ Blank b'' ∧
      nextKey first (b ++ ((if first then [] else [',']) ++ (text ++ rest))) =
        .ok (some m.name, tail) ∧
      colon tail = .ok (b' ++ (m.value ++ (b'' ++ rest))) := by
  cases h with
  | @mk b₁ k b₂ b₃ b₄ hb₁ hk hb₂ hb₃ hb₄ =>
    refine ⟨b₂ ++ ':' :: (b₃ ++ (m.value ++ (b₄ ++ rest))), b₃, b₄, hb₃, hb₄, ?_,
      colon_append hb₂⟩
    have hkey {b tail : List Char} (hb : Blank b) :
        key (b ++ '"' :: (k ++ '"' :: tail)) = .ok (m.name, tail) := by
      rw [key_append hb hk, String.ofList_toList]
    simp only [List.append_assoc, List.cons_append]
    unfold nextKey
    rw [skipBlanks_append hb]
    cases first with
    | true =>
      rw [if_pos rfl, List.nil_append, skipBlanks_append_cons hb₁ rfl]
      exact bind_eq_ok_iff.mpr ⟨_, rfl, bind_eq_ok_iff.mpr ⟨_, hkey blank_nil, rfl⟩⟩
    | false =>
      rw [if_neg Bool.false_ne_true, List.singleton_append, skipBlanks_cons rfl]
      exact bind_eq_ok_iff.mpr ⟨_, rfl, bind_eq_ok_iff.mpr ⟨_, hkey hb₁, rfl⟩⟩

theorem nextKey_end (hb : Blank b) : nextKey first (b ++ '}' :: rest) = .ok (none, rest) := by
  unfold nextKey
  rw [skipBlanks_append_cons hb rfl]
  rfl

end

/-! ## Reading a record -/

section

variable {fields : List (RecordField σ)} {f : RecordField σ} {set : σ → σ} {draft : σ}
variable {fuel : Nat} {first : Bool} {seen : List String} {name : String}
variable {value tail after : List Char}

theorem members_field (hkey : nextKey first s = .ok (some name, tail))
    (hfind : fields.find? (·.key == name) = some f) (hseen : name ∉ seen)
    (hcolon : colon tail = .ok value) (hread : f.read value = .ok (set, after)) :
    members fields (fuel + 1) seen first draft s =
      members fields fuel (name :: seen) false (set draft) after := by
  have hcontains : seen.contains name = false := by simpa using hseen
  rw [members, hkey]
  simp only [bind, Except.bind, hfind, hcontains, hcolon, hread]
  rfl

theorem members_other (hkey : nextKey first s = .ok (some name, tail))
    (hname : name ∉ fields.map (·.key)) (hcolon : colon tail = .ok value)
    (hskip : skip value = .ok after) :
    members fields (fuel + 1) seen first draft s =
      members fields fuel seen false draft after := by
  have hfind : fields.find? (·.key == name) = none := by simpa using hname
  rw [members, hkey]
  simp only [bind, Except.bind, hfind, hcolon, hskip]

theorem members_end (hkey : nextKey first s = .ok (none, tail))
    (hrequired : ∀ f ∈ fields, f.omission = .nowhere → f.key ∈ seen) :
    members fields (fuel + 1) seen first draft s = .ok (draft, tail) := by
  have hnone : (fields.any fun f => f.omission == .nowhere && !seen.contains f.key) = false := by
    simpa using hrequired
  rw [members, hkey]
  simp only [bind, Except.bind, hnone]
  rfl

variable {ι : Type} {fits : ι → Member → Prop} {nameOf : ι → String} {change : ι → σ → σ}
variable {xs : List ι} {ms : List Member}

/-- Reading members one after the other changes the draft in their order. -/
theorem members_joined (hsaid : Says fits (fields.map (·.key)) xs ms) {texts : List (List Char)}
    (hspelled : List.Forall₂ SpellsMember ms texts)
    (hfits : ∀ x ∈ xs, ∀ m, fits x m → m.name = nameOf x ∧
      ∃ f, fields.find? (·.key == m.name) = some f ∧ Reads f.read m.value (change x))
    (honce : (xs.map nameOf).Nodup) (hseen : ∀ x ∈ xs, nameOf x ∉ seen)
    (hrequired : ∀ f ∈ fields, f.omission = .nowhere → f.key ∈ seen ∨ f.key ∈ xs.map nameOf)
    (hfuel : texts.length < fuel) (hb : Blank b) :
    members fields fuel seen first draft (b ++ (joined first texts ++ '}' :: rest)) =
      .ok (xs.foldl (fun draft x => change x draft) draft, rest) := by
  induction hsaid generalizing texts fuel seen first draft b with
  | nil =>
    cases hspelled
    obtain ⟨fuel, rfl⟩ := Nat.exists_eq_add_one.mpr hfuel
    exact members_end (nextKey_end hb) fun f hf h => by simpa using hrequired f hf h
  | @field x xs m ms hx _ ih =>
    obtain ⟨text, texts, hm, htexts, rfl⟩ := List.forall₂_cons_left_iff.mp hspelled
    obtain ⟨fuel, rfl⟩ := Nat.exists_eq_add_one.mpr (Nat.zero_lt_of_lt hfuel)
    obtain ⟨hfx, hfits⟩ := List.forall_mem_cons.mp hfits
    obtain ⟨hname, f, hfind, hread⟩ := hfx m hx
    obtain ⟨hfresh, honce⟩ := List.nodup_cons.mp honce
    obtain ⟨hxseen, hseen⟩ := List.forall_mem_cons.mp hseen
    obtain ⟨tail, b', b'', hb', hb'', hkey, hcolon⟩ :=
      hm.opens hb first (joined false texts ++ '}' :: rest)
    have hends : Ends (b'' ++ (joined false texts ++ '}' :: rest)) :=
      Ends.of_blank hb'' (ends_joined (Or.inr rfl))
    rw [joined, List.append_assoc, List.append_assoc,
      members_field hkey hfind (hname ▸ hxseen) hcolon (hread _ _ hb' hends), List.foldl_cons]
    -- The names that are still to come are new, as none is said twice; and the
    -- one that was just seen need not come any more.
    refine ih htexts hfits honce (fun y hy hmem => ?_) (fun g hg h => ?_)
      (Nat.lt_of_succ_lt_succ hfuel) hb''
    · rcases List.mem_cons.mp hmem with heq | hmem
      · rw [hname] at heq
        exact hfresh (heq ▸ List.mem_map_of_mem hy)
      · exact hseen y hy hmem
    · have hmem := hrequired g hg h
      rw [List.map_cons, List.mem_cons] at hmem
      rw [hname, List.mem_cons]
      exact (or_left_comm.trans or_assoc.symm).mp hmem
  | @other xs m ms hname hvalue _ ih =>
    obtain ⟨text, texts, hm, htexts, rfl⟩ := List.forall₂_cons_left_iff.mp hspelled
    obtain ⟨fuel, rfl⟩ := Nat.exists_eq_add_one.mpr (Nat.zero_lt_of_lt hfuel)
    obtain ⟨tail, b', b'', hb', hb'', hkey, hcolon⟩ :=
      hm.opens hb first (joined false texts ++ '}' :: rest)
    have hends : Ends (b'' ++ (joined false texts ++ '}' :: rest)) :=
      Ends.of_blank hb'' (ends_joined (Or.inr rfl))
    rw [joined, List.append_assoc, List.append_assoc,
      members_other hkey hname hcolon (skip_append hvalue hb' hends)]
    exact ih htexts hfits honce hseen hrequired (Nat.lt_of_succ_lt_succ hfuel) hb''

/-- An object is read as the draft, changed by what its members say. -/
theorem reads_record (nameOf : ι → String) (hobject : IsObject ms text)
    (hsaid : Says fits (fields.map (·.key)) xs ms)
    (hfits : ∀ x ∈ xs, ∀ m, fits x m → m.name = nameOf x ∧
      ∃ f, fields.find? (·.key == m.name) = some f ∧ Reads f.read m.value (change x))
    (honce : (xs.map nameOf).Nodup)
    (hrequired : ∀ f ∈ fields, f.omission = .nowhere → f.key ∈ xs.map nameOf) :
    Reads (record fields draft) text (xs.foldl (fun draft x => change x draft) draft) := by
  intro b rest hb _
  obtain ⟨b', texts, hb', hspelled, rfl⟩ := hobject
  rw [← joined_true, List.cons_append]
  unfold record
  rw [skipBlanks_append_cons hb rfl]
  simp only [List.append_assoc, List.singleton_append]
  refine members_joined hsaid hspelled hfits honce (fun _ _ h => by cases h)
    (fun f hf h => Or.inr (hrequired f hf h)) ?_ hb'
  have hlength : texts.length ≤ (joined true texts).length := by
    refine length_le_joined fun t ht => ?_
    obtain ⟨m, -, hm⟩ := exists_of_mem_forall₂ hspelled ht
    exact hm.ne_nil
  simp only [List.length_append]
  omega

end

/-! ## Written texts -/

theorem toList_quoted (name : String) : (quoted name).toList = '"' :: (name.toList ++ ['"']) := by
  simp [quoted]

theorem toList_array (values : List String) :
    (array values).toList = '[' :: ([','].intercalate (values.map String.toList) ++ [']']) := by
  simp [array]

/-- A name that is written stands for itself. -/
theorem reads_quoted {ofName? : String → Option β} {name : String}
    (hplain : ∀ c ∈ name.toList, Plain c) (hx : ofName? name = some x) :
    Reads (oneOf ofName?) (quoted name).toList x := by
  rw [toList_quoted]
  exact reads_oneOf (standsFor_self hplain) hx

theorem reads_array {ns : List Nat} (h : ∀ n ∈ ns, n < Word.bound) :
    Reads (list natural) (array (ns.map toString)).toList ns := by
  rw [toList_array]
  refine reads_list ?_ fun t ht => ?_
  · rw [List.map_map, List.forall₂_map_left_iff, List.forall₂_same]
    exact fun n hn => reads_natural (h n hn)
  · rw [List.map_map] at ht
    obtain ⟨n, -, rfl⟩ := List.mem_map.mp ht
    obtain ⟨c, tail, htext, hc⟩ := exists_toString n
    exact ⟨c, tail, htext, isBlank_of_isDigit hc, ne_of_isDigit hc rfl⟩

/-- A member that is written has no blanks, and its key stands for itself. -/
theorem spellsMember_member {name value : String} (hplain : ∀ c ∈ name.toList, Plain c) :
    SpellsMember ⟨name, value.toList⟩ (member name value).toList := by
  have h : SpellsMember ⟨name, value.toList⟩
      ([] ++ '"' :: (name.toList ++ '"' :: ([] ++ ':' :: ([] ++ (value.toList ++ []))))) :=
    .mk blank_nil (standsFor_self hplain) blank_nil blank_nil blank_nil
  simpa [member, quoted] using h

theorem isObject_object {ms : List Member} {members : List String}
    (h : List.Forall₂ SpellsMember ms (members.map String.toList)) :
    IsObject ms (object members).toList :=
  ⟨[], _, blank_nil, h, by simp [object]⟩

theorem hasMembers_object {ms : List Member} {members : List String}
    (h : List.Forall₂ SpellsMember ms (members.map String.toList)) :
    HasMembers ms (object members) :=
  ⟨[], _, [], blank_nil, isObject_object h, blank_nil, (List.append_nil _).symm⟩

/-- Members that are known say themselves. -/
theorem says_members (names : List String) (changes : List (Member × γ)) :
    Says (fun p m => m = p.1) names changes (changes.map Prod.fst) := by
  induction changes with
  | nil => exact .nil
  | cons p changes ih => exact .field rfl ih

/-- Where the members are known, each comes with what it changes. -/
theorem reads_members {fields : List (RecordField σ)} {draft : σ}
    (changes : List (Member × (σ → σ))) (hobject : IsObject (changes.map Prod.fst) text)
    (hread : ∀ p ∈ changes, ∃ f, fields.find? (·.key == p.1.name) = some f ∧
      Reads f.read p.1.value p.2)
    (honce : (changes.map fun p => p.1.name).Nodup)
    (hrequired : ∀ f ∈ fields, f.omission = .nowhere → f.key ∈ changes.map fun p => p.1.name) :
    Reads (record fields draft) text (changes.foldl (fun draft p => p.2 draft) draft) := by
  refine reads_record (fun p => p.1.name) hobject (says_members _ _) (fun p hp m hm => ?_) honce
    hrequired
  subst hm
  exact ⟨rfl, hread p hp⟩

end Json
end OrderDecoding
