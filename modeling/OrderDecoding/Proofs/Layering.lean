/-
# `Proofs.Layering` — the settings that a run goes by

Four layers say settings: the defaults, the settings file, the request with the
size of its map, and the flags.  Each of them is a list of options with values,
and what a run goes by is the defaults with those lists laid over them, one
behind the other (`effective_eq_overlay`), so the last layer that names an option
has it.

A run is judged TWICE.  The file has to pass by itself, laid over nothing but the
defaults, before any other layer is looked at; what it says amiss is not put
right by a layer that would replace it.  The layers together are judged when the
decoder is made, which is after the units have been put in order, so areas that
repeat are reported before settings that do not fit.  Threads are started after
both, and where they cannot be, that is reported.  After that no settings are
refused any more (`spares_decodeWith`).
-/
import Mathlib
import OrderDecoding.CommandLine.Run
import OrderDecoding.Proofs.Canonical
import OrderDecoding.Proofs.Sparing

namespace OrderDecoding
namespace CommandLine

/-! ## Layers -/

/-- What the flags say. -/
def Arguments.said (a : Arguments) : List Setting :=
  (a.beamWidth.map .beamWidth).toList ++ (a.samples.map .numSamples).toList
    ++ (a.candidates.map .numCandidates).toList ++ (a.temperature.map .temperature).toList
    ++ (a.topK.map .topK).toList ++ (a.seed.map .seed).toList ++ (a.threads.map .threads).toList
    ++ if a.unconstrained then [.constrained false] else []

/-- What a request says of settings. -/
def saidByRequest (r : Request) : List Setting := (r.numAreas.map .numAreas).toList

/-- The layers over the defaults, from the lowest to the highest. -/
def layers (file : List Setting) (r : Request) (a : Arguments) : List Setting :=
  file ++ saidByRequest r ++ a.said

/-- The settings file says something, if there is one. -/
def FileSays (a : Arguments) (outside : Surroundings) (said : List Setting) : Prop :=
  match a.settings with
  | none => said = []
  | some _ => ∃ text, outside.settings = .ok text ∧ Settings.SaidBy said text

variable {a : Arguments} {outside : Surroundings} {r : Request} {file : List Setting}
variable {s : Settings Float} {e : DecodeError} {u : UnitList}

theorem overlay_toList {β : Type} (value : Option β) (option : β → Setting) :
    s.overlay (value.map option).toList = override value (fun s v => (option v).applyTo s) s := by
  cases value <;> rfl

theorem over_eq_overlay (a : Arguments) (s : Settings Float) : a.over s = s.overlay a.said := by
  unfold Arguments.over Arguments.said
  simp only [Settings.overlay_append, overlay_toList]
  split <;> rfl

/-- A run goes by the request and the flags over the file. -/
theorem effective_eq_overlay (a : Arguments) (r : Request) (file : List Setting) :
    effective a r (Settings.default.overlay file) = Settings.default.overlay (layers file r a) := by
  unfold effective layers saidByRequest
  rw [over_eq_overlay, Settings.overlay_append, Settings.overlay_append, overlay_toList]
  rfl

/-! ## The first judgement -/

theorem fileSettings_eq (h : FileSays a outside file) : fileSettings a outside =
    (Settings.default.overlay file).check.map fun _ => Settings.default.overlay file := by
  unfold FileSays at h
  unfold fileSettings
  cases hsettings : a.settings with
  | none =>
    rw [hsettings] at h
    subst h
    have hcheck : (Settings.default.overlay []).check = .ok () := by decide
    rw [hcheck]
    rfl
  | some path =>
    rw [hsettings] at h
    obtain ⟨text, htext, hsaid⟩ := h
    rw [htext]
    exact Settings.ofText_of_saidBy hsaid

section

variable (hfile : FileSays a outside file)
include hfile

theorem answer_of_refused (hown : (Settings.default.overlay file).check = .error e) :
    answer a r outside = .error e := by
  unfold answer
  rw [fileSettings_eq hfile, hown]
  rfl

variable (hown : (Settings.default.overlay file).check = .ok ())
include hown

theorem answer_of_repeated (hunits : UnitList.ofAreas r.units = .error e) :
    answer a r outside = .error e := by
  unfold answer
  rw [fileSettings_eq hfile, hown]
  refine bind_eq_error_iff.mpr (Or.inr ⟨_, rfl, ?_⟩)
  rw [hunits]
  rfl

/-! ## The second judgement -/

theorem answer_of_ofAreas (hunits : UnitList.ofAreas r.units = .ok u) :
    answer a r outside = (do
      let decoder ← Decoder.create (Scorer.table r.rows)
        (Settings.default.overlay (layers file r a)) outside.fresh outside.threads
      let found ← decodeWith decoder (u.withPhase r.phase) (a.mode.getD .candidates)
      .ok (u.withPhase r.phase, found)) := by
  unfold answer
  rw [fileSettings_eq hfile, hown, hunits, ← effective_eq_overlay]
  rfl

end

/-- What a check can find is found exactly in settings that do not pass. -/
theorem exists_check_eq_error_iff (hfits : s.Fits) :
    (∃ e, e.OfSettings ∧ s.check = .error e) ↔ ¬ s.Passed := by
  rw [← Settings.check_eq_ok_iff hfits]
  rcases s.check_cases with hok | ⟨e, he, hsettings⟩
  · simp [hok]
  · have hrefused : s.check ≠ .ok () := by simp [he]
    exact iff_of_true ⟨e, hsettings, he⟩ hrefused

/-- No decoder is made of settings that do not pass, or without the workers that
they ask for. -/
theorem create_eq_error_iff (scorer : Scorer Float) (fresh : UInt64)
    (start : Nat → Except String Schedule) : Decoder.create scorer s fresh start = .error e ↔
      s.check = .error e ∨ s.check = .ok () ∧
        ∃ reason, Workers.hire start s.threads = .error reason ∧
          e = .argument (.noWorkers reason) := by
  unfold Decoder.create
  split
  · next e' he' => simp [he']
  · next hok =>
    split
    · next reason hreason => simp [hok, hreason, eq_comm]
    · next w hw => simp [hok, hw]

/-- After the settings have passed, nothing is wrong with them. -/
theorem spares_decodeWith (d : Decoder Float) (units : UnitList) (mode : Mode) :
    SparesSettings (decodeWith d units mode) := by
  cases mode with
  | greedy => exact (d.spares_greedy units).bind fun _ _ => failsOnly_ok _
  | beam => exact (d.spares_beam units).bind fun _ _ => failsOnly_ok _
  | sample => exact d.spares_sample units
  | candidates => exact d.spares_candidates units

/-- What is wrong with settings is wrong with those of the file by themselves, or
else with all layers together. -/
theorem answer_eq_error_iff (hfile : FileSays a outside file) (he : e.OfSettings) :
    answer a r outside = .error e ↔
      (Settings.default.overlay file).check = .error e ∨
      (Settings.default.overlay file).check = .ok () ∧ r.units.Nodup ∧
        (Settings.default.overlay (layers file r a)).check = .error e := by
  rcases Settings.check_cases (Settings.default.overlay file) with hown | ⟨e', hown, -⟩
  · rw [hown]
    by_cases hunits : ∃ u, UnitList.ofAreas r.units = .ok u
    · have hnodup : r.units.Nodup := UnitList.exists_ofAreas_iff.mp hunits
      obtain ⟨u, hu⟩ := hunits
      rw [answer_of_ofAreas hfile hown hu, bind_eq_error_iff]
      constructor
      · rintro (hcreate | ⟨d, -, h⟩)
        · rcases (create_eq_error_iff _ _ _).mp hcreate with h | ⟨-, reason, -, rfl⟩
          · exact Or.inr ⟨rfl, hnodup, h⟩
          · cases he
        · rcases bind_eq_error_iff.mp h with h | ⟨_, _, h⟩
          · exact absurd he (spares_decodeWith d _ _ e h)
          · cases h
      · rintro (h | ⟨-, -, h⟩)
        · cases h
        · exact Or.inl ((create_eq_error_iff _ _ _).mpr (Or.inl h))
    · obtain ⟨e', he'⟩ := eq_error_of_not_ok hunits
      obtain ⟨area, -, harea⟩ := UnitList.ofAreas_eq_error_iff.mp he'
      rw [answer_of_repeated hfile hown he']
      constructor
      · intro h
        cases h
        subst harea
        cases he
      · rintro (h | ⟨-, hnodup, -⟩)
        · cases h
        · exact absurd (UnitList.exists_ofAreas_iff.mpr hnodup) hunits
  · rw [answer_of_refused hfile hown, hown]
    simp

/-! ## The outcome of a run -/

/-- The outcome is that of decoding under settings: what a decoder finds that was
made of them, or why it finds nothing. -/
def DecodesWith (a : Arguments) (outside : Surroundings) (r : Request) (s : Settings Float)
    (outcome : Outcome) : Prop :=
  ∃ u d, UnitList.ofAreas r.units = .ok u ∧
    Decoder.create (Scorer.table r.rows) s outside.fresh outside.threads = .ok d ∧
    d.settings = s ∧
    ((∃ e, decodeWith d (u.withPhase r.phase) (a.mode.getD .candidates) = .error e ∧
        outcome = .failed (.decode e)) ∨
      ∃ found, decodeWith d (u.withPhase r.phase) (a.mode.getD .candidates) = .ok found ∧
        outcome = .decoded (found.zipIdx.map fun (candidate, rank) => { rank, candidate })
          (if a.quiet then none else some
            { units := (u.withPhase r.phase).length, candidates := found.length
              mode := a.mode.getD .candidates }))

section

variable {text : String} (hrequest : outside.request = .ok text)
variable (hread : Json.readText Request.reader text = .ok r)
include hrequest hread

theorem carryOut_of_error (h : answer a r outside = .error e) :
    carryOut a outside = .failed (.decode e) := by
  unfold carryOut
  rw [hrequest]
  dsimp only
  rw [hread]
  dsimp only
  rw [h]

theorem carryOut_of_ok {units : UnitList} {found : List (Candidate Float)}
    (h : answer a r outside = .ok (units, found)) : carryOut a outside =
      .decoded (found.zipIdx.map fun (candidate, rank) => { rank, candidate })
        (if a.quiet then none else some
          { units := units.length, candidates := found.length
            mode := a.mode.getD .candidates }) := by
  unfold carryOut
  rw [hrequest]
  dsimp only
  rw [hread]
  dsimp only
  rw [h]

theorem carryOut_eq_failed_iff :
    carryOut a outside = .failed (.decode e) ↔ answer a r outside = .error e := by
  refine ⟨fun h => ?_, carryOut_of_error hrequest hread⟩
  cases hanswer : answer a r outside with
  | error e' =>
    rw [carryOut_of_error hrequest hread hanswer] at h
    cases h
    rfl
  | ok found =>
    rw [carryOut_of_ok hrequest hread hanswer] at h
    cases h

theorem carryOut_eq_refused_iff (hfile : FileSays a outside file) (he : e.OfSettings) :
    carryOut a outside = .failed (.decode e) ↔
      (Settings.default.overlay file).check = .error e ∨
      (Settings.default.overlay file).check = .ok () ∧ r.units.Nodup ∧
        (Settings.default.overlay (layers file r a)).check = .error e :=
  (carryOut_eq_failed_iff hrequest hread).trans (answer_eq_error_iff hfile he)

/-- Which of them is found does not matter for whether one is. -/
theorem exists_refusal_iff (hfile : FileSays a outside file)
    (hfits : (Settings.default.overlay file).Fits)
    (hlayers : (Settings.default.overlay (layers file r a)).Fits) :
    (∃ e : DecodeError, e.OfSettings ∧ carryOut a outside = .failed (.decode e)) ↔
      ¬ (Settings.default.overlay file).Passed ∨
      (Settings.default.overlay file).Passed ∧ r.units.Nodup ∧
        ¬ (Settings.default.overlay (layers file r a)).Passed := by
  rw [← exists_check_eq_error_iff hfits, ← exists_check_eq_error_iff hlayers,
    ← Settings.check_eq_ok_iff hfits]
  constructor
  · rintro ⟨e, he, hfailed⟩
    rcases (carryOut_eq_refused_iff hrequest hread hfile he).mp hfailed with h | ⟨h, hnodup, h'⟩
    · exact Or.inl ⟨e, he, h⟩
    · exact Or.inr ⟨h, hnodup, e, he, h'⟩
  · rintro (⟨e, he, h⟩ | ⟨h, hnodup, e, he, h'⟩)
    · exact ⟨e, he, (carryOut_eq_refused_iff hrequest hread hfile he).mpr (Or.inl h)⟩
    · exact ⟨e, he,
        (carryOut_eq_refused_iff hrequest hread hfile he).mpr (Or.inr ⟨h, hnodup, h'⟩)⟩

section

variable (hfile : FileSays a outside file)
variable (hown : (Settings.default.overlay file).check = .ok ()) (hnodup : r.units.Nodup)
variable (hlayers : (Settings.default.overlay (layers file r a)).check = .ok ())
include hfile hown hnodup hlayers

theorem decodesWith_of_hire {w : Workers} (hworkers : Workers.hire outside.threads
    (Settings.default.overlay (layers file r a)).threads = .ok w) :
    DecodesWith a outside r (Settings.default.overlay (layers file r a)) (carryOut a outside) := by
  obtain ⟨u, hu⟩ := UnitList.exists_ofAreas_iff.mpr hnodup
  obtain ⟨d, hd, -, hsettings, -⟩ :=
    Decoder.exists_create hlayers hworkers (Scorer.table r.rows) outside.fresh
  refine ⟨u, d, hu, hd, hsettings, ?_⟩
  have hanswer := answer_of_ofAreas hfile hown hu
  rw [hd] at hanswer
  cases hfound : decodeWith d (u.withPhase r.phase) (a.mode.getD .candidates) with
  | error e =>
    refine Or.inl ⟨e, rfl, carryOut_of_error hrequest hread ?_⟩
    rw [hanswer]
    exact bind_eq_error_iff.mpr (Or.inr ⟨d, rfl, bind_eq_error_iff.mpr (Or.inl hfound)⟩)
  | ok found =>
    have hok : answer a r outside = .ok (u.withPhase r.phase, found) := by
      rw [hanswer]
      exact bind_eq_ok_iff.mpr ⟨d, rfl, bind_eq_ok_iff.mpr ⟨found, hfound, rfl⟩⟩
    exact Or.inr ⟨found, rfl, carryOut_of_ok hrequest hread hok⟩

theorem carryOut_of_not_hire {reason : String} (hworkers : Workers.hire outside.threads
    (Settings.default.overlay (layers file r a)).threads = .error reason) :
    carryOut a outside = .failed (.decode (.argument (.noWorkers reason))) := by
  obtain ⟨u, hu⟩ := UnitList.exists_ofAreas_iff.mpr hnodup
  refine carryOut_of_error hrequest hread ?_
  rw [answer_of_ofAreas hfile hown hu]
  exact bind_eq_error_iff.mpr (Or.inl ((create_eq_error_iff _ _ _).mpr
    (Or.inr ⟨hlayers, reason, hworkers, rfl⟩)))

end

end

/-- A run is judged on the settings of its file by themselves and then on all
layers together.  It is refused for what a check of settings can find exactly if
the file's own settings do not pass, or they do, no area repeats and the layers
together do not pass; and it is the file's settings that are blamed first.  An
area that repeats is reported in between.  Otherwise the run decodes with the
layers together, in which the last layer that says an option has it, unless they
ask for threads that cannot be started.  All this is said of maps whose
vocabulary fits a word. -/
theorem settings_are_judged_by_file_and_together (a : Arguments) (outside : Surroundings)
    (r : Request) (file : List Setting) (text : String) (hrequest : outside.request = .ok text)
    (hread : Json.readText Request.reader text = .ok r) (hfile : FileSays a outside file)
    (hfits : (Settings.default.overlay file).Fits)
    (hlayers : (Settings.default.overlay (layers file r a)).Fits) :
    ((∃ e : DecodeError, e.OfSettings ∧ carryOut a outside = .failed (.decode e)) ↔
      ¬ (Settings.default.overlay file).Passed ∨
      (Settings.default.overlay file).Passed ∧ r.units.Nodup ∧
        ¬ (Settings.default.overlay (layers file r a)).Passed) ∧
    (∀ e : DecodeError, e.OfSettings → (carryOut a outside = .failed (.decode e) ↔
      (Settings.default.overlay file).check = .error e ∨
      (Settings.default.overlay file).check = .ok () ∧ r.units.Nodup ∧
        (Settings.default.overlay (layers file r a)).check = .error e)) ∧
    ((Settings.default.overlay file).Passed → ¬ r.units.Nodup →
      ∃ area, carryOut a outside = .failed (.decode (.argument (.repeatedArea area)))) ∧
    ((Settings.default.overlay file).Passed → r.units.Nodup →
      (Settings.default.overlay (layers file r a)).Passed →
      (∀ w, Workers.hire outside.threads
          (Settings.default.overlay (layers file r a)).threads = .ok w →
        DecodesWith a outside r (Settings.default.overlay (layers file r a))
          (carryOut a outside)) ∧
      ∀ reason, Workers.hire outside.threads
          (Settings.default.overlay (layers file r a)).threads = .error reason →
        carryOut a outside = .failed (.decode (.argument (.noWorkers reason)))) ∧
    ∀ option : Setting, option.HoldsIn (Settings.default.overlay (layers file r a)) ↔
      ((layers file r a).filter fun b => b.key = option.key).getLast? = some option ∨
        option.key ∉ (layers file r a).map Setting.key ∧ option.HoldsIn Settings.default := by
  have hown := Settings.check_eq_ok_iff hfits
  have htogether := Settings.check_eq_ok_iff hlayers
  refine ⟨exists_refusal_iff hrequest hread hfile hfits hlayers,
    fun e he => carryOut_eq_refused_iff hrequest hread hfile he, fun hpassed hrepeats => ?_,
    fun hpassed hnodup hall => ⟨fun w hw => ?_, fun reason hreason => ?_⟩,
    fun option => Settings.holdsIn_overlay_iff⟩
  · obtain ⟨e, he⟩ := eq_error_of_not_ok (mt UnitList.exists_ofAreas_iff.mp hrepeats)
    obtain ⟨area, -, rfl⟩ := UnitList.ofAreas_eq_error_iff.mp he
    exact ⟨area, carryOut_of_error hrequest hread
      (answer_of_repeated hfile (hown.mpr hpassed) he)⟩
  · exact decodesWith_of_hire hrequest hread hfile (hown.mpr hpassed) hnodup
      (htogether.mpr hall) hw
  · exact carryOut_of_not_hire hrequest hread hfile (hown.mpr hpassed) hnodup
      (htogether.mpr hall) hreason

/-- Flags that ask for a narrow search, with or without a settings file. -/
def narrowed (settings : Option String) : Arguments :=
  { settings, mode := some .greedy, beamWidth := some 3 }

/-- A request for no units, and a settings file that is too wide. -/
def beside : Surroundings :=
  { request := .ok "\x7b\"units\":[],\"logits\":[]\x7d"
    settings := .ok Settings.wide
    fresh := 0
    threads := fun _ => .error "no threads" }

/-- Without the file the run decodes with the width of the flags; it would not
if the flags asked for two threads. -/
theorem narrow_run_decodes :
    DecodesWith (narrowed none) beside {} (Settings.default.overlay [.beamWidth 3])
      (carryOut (narrowed none) beside) ∧
    (Setting.beamWidth 3).HoldsIn (Settings.default.overlay [.beamWidth 3]) ∧
    carryOut { narrowed none with threads := some 2 } beside =
      .failed (.decode (.argument (.noWorkers "no threads"))) := by
  have hdefault : (Settings.default.overlay []).Passed := Settings.passed_of_check (by decide)
  obtain ⟨-, -, -, hdecodes, hholds⟩ := settings_are_judged_by_file_and_together (narrowed none)
    beside {} [] _ rfl rfl rfl (by decide) (by decide)
  obtain ⟨-, -, -, hthreads, -⟩ := settings_are_judged_by_file_and_together
    { narrowed none with threads := some 2 } beside {} [] _ rfl rfl rfl (by decide) (by decide)
  exact ⟨(hdecodes hdefault List.nodup_nil (Settings.passed_of_check (by decide))).1 .one rfl,
    (hholds _).mpr (Or.inl rfl),
    (hthreads hdefault List.nodup_nil (Settings.passed_of_check (by decide))).2 _ rfl⟩

/-- With the file it is refused for the file's width, though the flags replace it
and all layers together would pass. -/
theorem replaced_width_is_refused :
    FileSays (narrowed "settings.json") beside [.beamWidth 10, .numAreas 1] ∧
    (Settings.default.overlay
      (layers [.beamWidth 10, .numAreas 1] {} (narrowed "settings.json"))).check = .ok () ∧
    carryOut (narrowed "settings.json") beside =
      .failed (.decode (.argument (.beamWidthSetting 10 9))) ∧
    DecodeError.OfSettings (.argument (.beamWidthSetting 10 9)) := by
  have hfile : FileSays (narrowed "settings.json") beside [.beamWidth 10, .numAreas 1] :=
    ⟨_, rfl, Settings.saidBy_wide⟩
  exact ⟨hfile, by decide, carryOut_of_error rfl rfl (answer_of_refused hfile (by decide)),
    .beamWidth 10 9⟩

end CommandLine
end OrderDecoding
