/-
# `Proofs.Overriding` — settings that replace others

A settings text names options in any order and leaves the others alone.  What
it says is a list of options with their values (`Setting`), one kind of list
for whatever says settings: the lists of several layers are put one behind the
other.  Laid over settings (`Settings.overlay`) the LAST value of an option
counts, and where there is none, the one that was there before
(`holdsIn_overlay_iff`).  Where no option is named twice the order is lost.

A text that says settings is read as the defaults with those settings laid over
them (`readText_of_saidBy`).  It is judged as a whole and only then: whether a
width is too large depends on a number of areas that may stand before it, behind
it or nowhere.
-/
import Mathlib
import OrderDecoding.Format.Settings
import OrderDecoding.Proofs.Records

namespace OrderDecoding

open Json

/-! ## Options with values -/

/-- An option and what it is set to. -/
inductive Setting where
  | beamWidth (n : Nat)
  | numSamples (n : Nat)
  | numCandidates (n : Nat)
  | temperature (x : Float)
  | topK (n : Nat)
  | constrained (value : Bool)
  | numAreas (n : Nat)
  | maxUnits (n : Nat)
  | oversample (n : Nat)
  | threads (n : Nat)
  | seed (word : UInt64)

namespace Setting

/-- The options by their names in a settings text. -/
def keys : List String :=
  ["beam_width", "num_samples", "num_candidates", "temperature", "top_k",
    "constrain_destinations", "num_areas", "max_units", "oversample", "threads", "seed"]

def key : Setting → String
  | beamWidth _ => "beam_width"
  | numSamples _ => "num_samples"
  | numCandidates _ => "num_candidates"
  | temperature _ => "temperature"
  | topK _ => "top_k"
  | constrained _ => "constrain_destinations"
  | numAreas _ => "num_areas"
  | maxUnits _ => "max_units"
  | oversample _ => "oversample"
  | threads _ => "threads"
  | seed _ => "seed"

/-- What an option can be set to. -/
inductive Value where
  | word (n : Nat)
  | number (x : Float)
  | truth (value : Bool)

def value : Setting → Value
  | beamWidth n | numSamples n | numCandidates n | topK n | numAreas n | maxUnits n
  | oversample n | threads n => .word n
  | temperature x => .number x
  | constrained value => .truth value
  | seed word => .word word.toNat

/-- The texts of a value. -/
inductive Value.SpelledBy : Value → List Char → Prop
  | word {n : Nat} : n < Word.bound → SpelledBy (word n) (toString n).toList
  | number {x : Float} {text : List Char} : float text = .ok (x, []) → SpelledBy (number x) text
  | truth {value : Bool} : SpelledBy (truth value) (toString value).toList

/-- A member of a settings text says an option. -/
def SaidBy (a : Setting) (m : Member) : Prop := m.name = a.key ∧ a.value.SpelledBy m.value

/-- Settings with an option replaced. -/
def applyTo : Setting → Settings Float → Settings Float
  | beamWidth n, s => { s with beamWidth := n }
  | numSamples n, s => { s with numSamples := n }
  | numCandidates n, s => { s with numCandidates := n }
  | temperature x, s => { s with temperature := x }
  | topK n, s => { s with topK := n }
  | constrained value, s => { s with constrained := value }
  | numAreas n, s => { s with numAreas := n }
  | maxUnits n, s => { s with maxUnits := n }
  | oversample n, s => { s with oversample := n }
  | threads n, s => { s with threads := n }
  | seed word, s => { s with seed := word }

/-- The option has its value in settings. -/
def HoldsIn : Setting → Settings Float → Prop
  | beamWidth n, s => s.beamWidth = n
  | numSamples n, s => s.numSamples = n
  | numCandidates n, s => s.numCandidates = n
  | temperature x, s => s.temperature = x
  | topK n, s => s.topK = n
  | constrained value, s => s.constrained = value
  | numAreas n, s => s.numAreas = n
  | maxUnits n, s => s.maxUnits = n
  | oversample n, s => s.oversample = n
  | threads n, s => s.threads = n
  | seed word, s => s.seed = word

variable {a b : Setting} {s s' : Settings Float}

theorem holdsIn_applyTo_self (hkey : b.key = a.key) : a.HoldsIn (b.applyTo s) ↔ b = a := by
  cases a <;> cases b <;> simp [key, HoldsIn, applyTo] at hkey ⊢

theorem holdsIn_applyTo_of_ne (hkey : b.key ≠ a.key) :
    a.HoldsIn (b.applyTo s) ↔ a.HoldsIn s := by
  cases a <;> cases b <;> first | exact Iff.rfl | exact absurd rfl hkey

/-- Settings are known by the values that their options have. -/
theorem eq_of_holdsIn_iff (hall : ∀ a : Setting, a.HoldsIn s ↔ a.HoldsIn s') : s = s' := by
  cases s
  cases s'
  rw [Settings.mk.injEq]
  exact
    ⟨(hall (.beamWidth _)).mpr rfl, (hall (.numSamples _)).mpr rfl,
      (hall (.numCandidates _)).mpr rfl, (hall (.temperature _)).mpr rfl, (hall (.topK _)).mpr rfl,
      (hall (.constrained _)).mpr rfl, (hall (.numAreas _)).mpr rfl, (hall (.maxUnits _)).mpr rfl,
      (hall (.oversample _)).mpr rfl, (hall (.threads _)).mpr rfl, (hall (.seed _)).mpr rfl⟩

/-- The field of an option reads what says it. -/
theorem exists_field {text : List Char} (h : a.value.SpelledBy text) :
    ∃ f, Settings.fields.find? (·.key == a.key) = some f ∧ Reads f.read text a.applyTo := by
  cases a with
  | beamWidth | numSamples | numCandidates | topK | numAreas | maxUnits | oversample | threads =>
    cases h with
    | word hn => exact ⟨_, rfl, (reads_natural hn).of⟩
  | temperature =>
    cases h with
    | number hx => exact ⟨_, rfl, (reads_float hx).of⟩
  | constrained =>
    cases h with
    | truth => exact ⟨_, rfl, (reads_bool _).of⟩
  | seed word =>
    cases h with
    | word hn =>
      have happly : (seed word).applyTo =
          fun s => { s with seed := UInt64.ofNat word.toNat } := by
        rw [UInt64.ofNat_toNat]
        rfl
      rw [happly]
      exact ⟨_, rfl, (reads_natural hn).of⟩

end Setting

/-! ## Layers -/

namespace Settings

variable {s : Settings Float} {said said' : List Setting} {a : Setting}

/-- Lays what was said over settings, one after the other. -/
def overlay (s : Settings Float) (said : List Setting) : Settings Float :=
  said.foldl (fun s a => a.applyTo s) s

theorem overlay_append : s.overlay (said ++ said') = (s.overlay said).overlay said' :=
  List.foldl_append

/-- The last value of an option counts, and the one before if there is none. -/
theorem holdsIn_overlay_iff : a.HoldsIn (s.overlay said) ↔
    (said.filter fun b => b.key = a.key).getLast? = some a ∨
      a.key ∉ said.map Setting.key ∧ a.HoldsIn s :=
  holds_foldl_iff Setting.holdsIn_applyTo_self Setting.holdsIn_applyTo_of_ne

/-- Where no option is said twice, what is said holds. -/
theorem holdsIn_overlay_iff_mem (honce : (said.map Setting.key).Nodup) :
    a.HoldsIn (s.overlay said) ↔ a ∈ said ∨ a.key ∉ said.map Setting.key ∧ a.HoldsIn s := by
  rw [holdsIn_overlay_iff]
  refine or_congr_left ⟨fun h => ?_, fun h => ?_⟩
  · exact (List.mem_filter.mp (List.mem_of_getLast? h)).1
  · have hunique : ∀ b ∈ said.filter fun b => b.key = a.key, b = a := by
      intro b hb
      obtain ⟨hb, hkey⟩ := List.mem_filter.mp hb
      exact List.inj_on_of_nodup_map honce hb h (of_decide_eq_true hkey)
    have hmem : a ∈ said.filter fun b => b.key = a.key :=
      List.mem_filter.mpr ⟨h, decide_eq_true rfl⟩
    obtain ⟨b, hb⟩ := Option.isSome_iff_exists.mp
      (List.getLast?_isSome.mpr (List.ne_nil_of_mem hmem))
    rw [hb, hunique b (List.mem_of_getLast? hb)]

/-- Then the order in which it is said does not matter. -/
theorem overlay_perm (honce : (said.map Setting.key).Nodup) (hperm : said.Perm said') :
    s.overlay said = s.overlay said' := by
  refine Setting.eq_of_holdsIn_iff fun a => ?_
  rw [holdsIn_overlay_iff_mem honce,
    holdsIn_overlay_iff_mem ((hperm.map Setting.key).nodup_iff.mp honce), hperm.mem_iff,
    (hperm.map Setting.key).mem_iff]

/-! ## Texts -/

/-- A text is an object that says options, one after the other and none of them
twice, possibly among members of other names. -/
def SaidBy (said : List Setting) (text : String) : Prop :=
  (said.map Setting.key).Nodup ∧
    ∃ ms, HasMembers ms text ∧ Says Setting.SaidBy Setting.keys said ms

theorem readText_of_saidBy {text : String} (h : SaidBy said text) :
    readText reader text = .ok (default.overlay said) := by
  obtain ⟨honce, ms, ⟨b, t, b', hb, hobject, hb', htext⟩, hsaid⟩ := h
  have hread : Reads reader t (default.overlay said) := by
    refine reads_record Setting.key hobject hsaid (fun a _ m hm => ?_) honce ?_
    · obtain ⟨hname, hvalue⟩ := hm
      rw [hname]
      exact ⟨rfl, Setting.exists_field hvalue⟩
    · intro f hf hnowhere
      simp only [fields, List.mem_cons, List.not_mem_nil, or_false] at hf
      rcases hf with rfl | rfl | rfl | rfl | rfl | rfl | rfl | rfl | rfl | rfl | rfl <;>
        cases hnowhere
  exact hread.readText_eq hb hb' htext

end Settings

/-! ## The check -/

/-- What a check of settings can find. -/
inductive DecodeError.OfSettings : DecodeError → Prop
  | noAreas : OfSettings (.argument .noAreas)
  | beamWidth (width size : Nat) : OfSettings (.argument (.beamWidthSetting width size))
  | noSamples : OfSettings (.argument .noSamples)
  | noCandidates : OfSettings (.argument .noCandidates)
  | temperature (value : NonFinite) : OfSettings (.argument (.temperature value))

theorem DecodeError.OfSettings.argument {e : DecodeError} (h : e.OfSettings) :
    ∃ cause, e = .argument cause := by
  cases h <;> exact ⟨_, rfl⟩

namespace Settings

variable {s : Settings Float} {said : List Setting} {text : String} {e : DecodeError}

theorem check_cases (s : Settings Float) :
    s.check = .ok () ∨ ∃ e, s.check = .error e ∧ e.OfSettings := by
  unfold check
  split
  · exact Or.inr ⟨_, rfl, .noAreas⟩
  · split
    · exact Or.inr ⟨_, rfl, .beamWidth _ _⟩
    · split
      · exact Or.inr ⟨_, rfl, .noSamples⟩
      · split
        · exact Or.inr ⟨_, rfl, .noCandidates⟩
        · unfold checkTemperature
          split
          · exact Or.inr ⟨_, rfl, .temperature _⟩
          · exact Or.inl rfl

theorem ofSettings_of_check (h : s.check = .error e) : e.OfSettings := by
  rcases check_cases s with hok | ⟨e', he', hsettings⟩
  · rw [hok] at h
    cases h
  · obtain rfl : e' = e := Except.error.inj (he'.symm.trans h)
    exact hsettings

/-- A text of settings is judged when all of it has been read. -/
theorem ofText_of_saidBy (h : SaidBy said text) :
    ofText text = (default.overlay said).check.map fun _ => default.overlay said := by
  unfold ofText
  rw [readText_of_saidBy h]
  dsimp only
  cases (default.overlay said).check <;> rfl

theorem ofText_eq_ok_iff (h : SaidBy said text) : ofText text = .ok s ↔
    (default.overlay said).check = .ok () ∧ s = default.overlay said := by
  rw [ofText_of_saidBy h]
  cases (default.overlay said).check with
  | error e => exact ⟨nofun, fun h => by cases h.1⟩
  | ok _ => exact ⟨fun h => ⟨rfl, (Except.ok.inj h).symm⟩, fun h => congrArg Except.ok h.2.symm⟩

theorem ofText_eq_error_iff (h : SaidBy said text) :
    ofText text = .error e ↔ (default.overlay said).check = .error e := by
  rw [ofText_of_saidBy h]
  cases (default.overlay said).check with
  | error e' => simp [Except.map]
  | ok _ => exact ⟨nofun, nofun⟩

/-- No text gives settings that do not pass their check. -/
theorem check_of_ofText (h : ofText text = .ok s) : s.check = .ok () := by
  unfold ofText at h
  split at h
  · cases h
  · obtain ⟨_, hcheck, h⟩ := bind_eq_ok_iff.mp h
    cases h
    exact hcheck

/-- A text that says settings gives the defaults with those settings replaced if
they pass their check, and otherwise what the check finds.  Each option that it
names has the value that it says and each other one its default, in whichever
order they stand.  And no text whatever gives settings that do not pass. -/
theorem partial_settings_override_the_defaults :
    (∀ (said : List Setting) (text : String), SaidBy said text →
      (∀ s, ofText text = .ok s ↔
        (default.overlay said).check = .ok () ∧ s = default.overlay said) ∧
      (∀ e, ofText text = .error e ↔ (default.overlay said).check = .error e) ∧
      (∀ e, ofText text = .error e → ∃ cause, e = .argument cause) ∧
      ∀ a : Setting, a.HoldsIn (default.overlay said) ↔
        a ∈ said ∨ a.key ∉ said.map Setting.key ∧ a.HoldsIn default) ∧
    (∀ (said said' : List Setting) (text text' : String), SaidBy said text → SaidBy said' text' →
      said.Perm said' → ofText text = ofText text') ∧
    ∀ (text : String) (s : Settings Float), ofText text = .ok s → s.check = .ok () := by
  refine ⟨fun said text h => ⟨fun s => ofText_eq_ok_iff h, fun e => ofText_eq_error_iff h,
    fun e he => ?_, fun a => holdsIn_overlay_iff_mem h.1⟩,
    fun said said' text text' h h' hperm => ?_, fun text s => check_of_ofText⟩
  · exact (ofSettings_of_check ((ofText_eq_error_iff h).mp he)).argument
  · rw [ofText_of_saidBy h, ofText_of_saidBy h', overlay_perm h.1 hperm]

/-- A width of ten for a map of one area, whose vocabulary has nine entries. -/
def wide : String :=
  object [member "beam_width" "10", member "note" "null", member "num_areas" "1"]

theorem saidBy_wide : SaidBy [.beamWidth 10, .numAreas 1] wide := by
  have hspelled : HasMembers [⟨"beam_width", "10".toList⟩, ⟨"note", "null".toList⟩,
      ⟨"num_areas", "1".toList⟩] wide := by
    refine hasMembers_object (.cons (spellsMember_member ?_) (.cons (spellsMember_member ?_)
      (.cons (spellsMember_member ?_) .nil)))
    all_goals simp [Plain]
  have hwidth : (Setting.beamWidth 10).SaidBy ⟨"beam_width", "10".toList⟩ :=
    ⟨rfl, .word (by decide)⟩
  have hareas : (Setting.numAreas 1).SaidBy ⟨"num_areas", "1".toList⟩ := ⟨rfl, .word (by decide)⟩
  exact ⟨by decide, _, hspelled,
    .field hwidth (.other (by decide) (.word (by decide)) (.field hareas .nil))⟩

/-- The width is judged by the number of areas behind it; by itself it would do.
A list of the first two options is no object and reads as well. -/
theorem wide_settings_are_refused :
    SaidBy [.beamWidth 10, .numAreas 1] wide ∧
    ofText wide = .error (.argument (.beamWidthSetting 10 9)) ∧
    (default.overlay [.beamWidth 10]).check = .ok () ∧
    (Setting.numAreas 1).HoldsIn (default.overlay [.beamWidth 10, .numAreas 1]) ∧
    (Setting.topK 20).HoldsIn (default.overlay [.beamWidth 10, .numAreas 1]) ∧
    ofText "[7, 3]" = .ok { default with beamWidth := 7, numSamples := 3 } ∧
    { (default : Settings Float) with beamWidth := 7, numSamples := 3 }.check = .ok () := by
  obtain ⟨hsaid, -, hlist⟩ := partial_settings_override_the_defaults
  obtain ⟨-, herror, -, hholds⟩ := hsaid _ _ saidBy_wide
  have hread : ofText "[7, 3]" = .ok { default with beamWidth := 7, numSamples := 3 } := rfl
  exact ⟨saidBy_wide, (herror _).mpr (by decide), by decide, (hholds _).mpr (Or.inl (by simp)),
    (hholds _).mpr (Or.inr ⟨by decide, rfl⟩), hread, hlist _ _ hread⟩

end Settings
end OrderDecoding
