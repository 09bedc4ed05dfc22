/-
# `Proofs.Refusals` — choices that are turned down unread

Choices come to a replay from anywhere, and nothing about them is taken on
trust.  There may be more of them than units; one may name an entry that
there is not, or bring an order that its entry is not read as for ITS unit
(`Position.Misread`): the right order for another unit is as wrong as any.
The first such step is what the caller is told (`Position.TurnsDown`).

All of this is looked at before the scorer is asked anything, so the scorer
has no say in it.  It alone has a say in what comes after.  Choices that
were read well (`Position.WellRead`) are replayed; the replay stops at the
first row that is refused, or the log-probabilities of the entries are summed
up from the left (`Position.Terms`).  Each choice being an entry of the
vocabulary, and each row as long as that, there is always one to sum.
-/
import OrderDecoding.Proofs.Asking
import OrderDecoding.Proofs.LogSoftmax
import OrderDecoding.Proofs.Stark

namespace OrderDecoding

open Score

variable {α : Type}

namespace Position

/-! ## Reading choices -/

/-- What is wrong with the choice of a step: its entry, or else its order. -/
inductive Misread (p : Position α) (step : Nat) (choice : Choice) : ArgumentError → Prop
  | index : p.vocab.size ≤ choice.index →
      Misread p step choice (.indexOutOfRange step choice.index p.vocab.size)
  | order {unit : Area} : choice.index < p.vocab.size → p.units.areas[step]? = some unit →
      p.vocab.orderAt choice.index unit p.units.phase ≠ .ok choice.order →
      Misread p step choice (.orderMismatch step choice.index choice.order)

/-- There is a unit for each choice, and each is what its entry is read as
for the unit. -/
structure WellRead (p : Position α) (choices : List Choice) : Prop where
  length : choices.length ≤ p.numSteps
  read : ∀ i choice, choices[i]? = some choice → p.choose i choice.index = .ok choice

/-- What choices are turned down for: that they are too many, or else the
first of them that is misread. -/
inductive TurnsDown (p : Position α) (choices : List Choice) : ArgumentError → Prop
  | tooMany : p.units.length < choices.length →
      TurnsDown p choices (.tooManyOrders choices.length p.units.length)
  | misread {i : Nat} {choice : Choice} {cause : ArgumentError} :
      choices.length ≤ p.units.length → choices[i]? = some choice → p.Misread i choice cause →
      (∀ j earlier, j < i → choices[j]? = some earlier →
        p.choose j earlier.index = .ok earlier) →
      TurnsDown p choices cause

variable {p : Position α} {choices : List Choice} {choice : Choice} {step : Nat} {e : DecodeError}

/-- Before the last unit a choice fails its check with what is wrong with
it. -/
theorem checkChoice_eq_error_iff (hstep : step < p.numSteps) :
    p.checkChoice step choice = .error e ↔ ∃ cause, p.Misread step choice cause ∧
      e = .argument cause := by
  have hareas : step < p.units.areas.length := hstep
  have hunit := List.getElem?_eq_getElem hareas
  unfold checkChoice
  by_cases hindex : choice.index < p.vocab.size
  · rw [if_neg (Nat.not_le.mpr hindex)]
    obtain ⟨read, hread⟩ := exists_choose hstep hindex
    obtain ⟨-, unit, hunit', horder⟩ := choose_eq_ok_iff.mp hread
    rw [hread]
    change (if read.order ≠ choice.order then _ else _) = _ ↔ _
    have hsame : p.vocab.orderAt choice.index unit p.units.phase ≠ .ok choice.order ↔
        read.order ≠ choice.order := by
      rw [horder, ne_eq, Except.ok.injEq]
    constructor
    · intro h
      split at h
      · next hne =>
        cases h
        exact ⟨_, .order hindex hunit' (hsame.mpr hne), rfl⟩
      · cases h
    · rintro ⟨cause, hmisread, rfl⟩
      cases hmisread with
      | index hout => exact absurd hindex (Nat.not_lt.mpr hout)
      | order _ hunit'' hne =>
        obtain rfl := Option.some.inj (hunit'.symm.trans hunit'')
        exact if_pos (hsame.mp hne)
  · rw [if_pos (Nat.le_of_not_lt hindex)]
    constructor
    · intro h
      cases h
      exact ⟨_, .index (Nat.le_of_not_lt hindex), rfl⟩
    · rintro ⟨cause, hmisread, rfl⟩
      cases hmisread with
      | index _ => rfl
      | order hlt _ _ => exact absurd hlt hindex

/-- The checks go through the choices in turn and fail with the first that is
misread. -/
theorem checks_eq_error_iff (hlength : choices.length ≤ p.numSteps) :
    (choices.zipIdx.forM fun entry => p.checkChoice entry.2 entry.1) = .error e ↔
      ∃ cause, p.TurnsDown choices cause ∧ e = .argument cause := by
  have hstep {i : Nat} {choice : Choice} (hchoice : choices[i]? = some choice) : i < p.numSteps :=
    Nat.lt_of_lt_of_le (List.getElem?_eq_some_iff.mp hchoice).1 hlength
  rw [forM_eq_error_iff]
  constructor
  · rintro ⟨i, ⟨choice, j⟩, hplace, hfail, hbefore⟩
    obtain ⟨hchoice, rfl⟩ := getElem?_zipIdx_iff.mp hplace
    obtain ⟨cause, hmisread, rfl⟩ := (checkChoice_eq_error_iff (hstep hchoice)).mp hfail
    refine ⟨cause, .misread hlength hchoice hmisread fun k earlier hk hearlier => ?_, rfl⟩
    have hplace : choices.zipIdx[k]? = some (earlier, k) :=
      getElem?_zipIdx_iff.mpr ⟨hearlier, rfl⟩
    exact checkChoice_eq_ok_iff.mp (hbefore k (earlier, k) hk hplace)
  · rintro ⟨cause, hdown, rfl⟩
    cases hdown with
    | tooMany hmany => exact absurd hlength (Nat.not_le.mpr hmany)
    | @misread i choice _ _ hchoice hmisread hbefore =>
      refine ⟨i, (choice, i), getElem?_zipIdx_iff.mpr ⟨hchoice, rfl⟩,
        (checkChoice_eq_error_iff (hstep hchoice)).mpr ⟨cause, hmisread, rfl⟩, ?_⟩
      rintro k ⟨earlier, j⟩ hk hplace
      obtain ⟨hearlier, rfl⟩ := getElem?_zipIdx_iff.mp hplace
      exact checkChoice_eq_ok_iff.mpr (hbefore _ earlier hk hearlier)

/-- What is misread for a unit is not what is read for it. -/
theorem Misread.choose_ne {cause : ArgumentError} (h : p.Misread step choice cause) :
    p.choose step choice.index ≠ .ok choice := by
  intro hread
  cases h with
  | index hout => exact Nat.not_le.mpr (lt_size_of_choose hread) hout
  | order _ hunit hne =>
    obtain ⟨-, unit, hunit', horder⟩ := choose_eq_ok_iff.mp hread
    obtain rfl := Option.some.inj (hunit'.symm.trans hunit)
    exact hne horder

theorem exists_misread_iff : (∃ cause, p.Misread step choice cause) ↔
    p.vocab.size ≤ choice.index ∨ ∃ unit, p.units.areas[step]? = some unit ∧
      p.vocab.orderAt choice.index unit p.units.phase ≠ .ok choice.order := by
  constructor
  · rintro ⟨cause, hmisread⟩
    cases hmisread with
    | index hout => exact Or.inl hout
    | order _ hunit hne => exact Or.inr ⟨_, hunit, hne⟩
  · intro h
    rcases Nat.lt_or_ge choice.index p.vocab.size with hindex | hout
    · obtain ⟨unit, hunit, hne⟩ := h.resolve_left (Nat.not_le.mpr hindex)
      exact ⟨_, .order hindex hunit hne⟩
    · exact ⟨_, .index hout⟩

/-- Choices are turned down exactly when they are not well read. -/
theorem wellRead_iff : p.WellRead choices ↔ ∀ cause, ¬ p.TurnsDown choices cause := by
  constructor
  · rintro ⟨hlength, hread⟩ cause hdown
    cases hdown with
    | tooMany hmany => exact Nat.not_le.mpr hmany hlength
    | misread _ hchoice hmisread _ => exact hmisread.choose_ne (hread _ _ hchoice)
  · intro h
    have hlength : choices.length ≤ p.numSteps :=
      Nat.le_of_not_lt fun hmany => h _ (.tooMany hmany)
    refine ⟨hlength, checks_eq_ok_iff.mp ?_⟩
    cases hchecks : choices.zipIdx.forM fun entry => p.checkChoice entry.2 entry.1 with
    | ok _ => rfl
    | error e =>
      obtain ⟨cause, hdown, -⟩ := (checks_eq_error_iff hlength).mp hchecks
      exact absurd hdown (h cause)

/-- Some step is the first that is misread if any is. -/
theorem exists_turnsDown_iff : (∃ cause, p.TurnsDown choices cause) ↔
    p.units.length < choices.length ∨ ∃ (i : Nat) (choice : Choice), choices[i]? = some choice ∧
      ∃ cause, p.Misread i choice cause := by
  constructor
  · rintro ⟨cause, hdown⟩
    cases hdown with
    | tooMany hmany => exact Or.inl hmany
    | misread _ hchoice hmisread _ => exact Or.inr ⟨_, _, hchoice, cause, hmisread⟩
  · intro h
    by_contra hnone
    obtain ⟨hlength, hread⟩ := wellRead_iff.mpr (not_exists.mp hnone)
    rcases h with hmany | ⟨i, choice, hchoice, cause, hmisread⟩
    · exact Nat.not_le.mpr hmany hlength
    · exact hmisread.choose_ne (hread i choice hchoice)

/-- Nobody's scores come into it. -/
theorem TurnsDown.rescored {cause : ArgumentError} (h : p.TurnsDown choices cause)
    (scorer : Scorer α) : ({ p with scorer } : Position α).TurnsDown choices cause := by
  cases h with
  | tooMany hmany => exact .tooMany hmany
  | misread hlength hchoice hmisread hbefore =>
    refine .misread hlength hchoice ?_ hbefore
    cases hmisread with
    | index hout => exact .index hout
    | order hindex hunit hne => exact .order hindex hunit hne

/-- The beginning of choices that are well read is well read. -/
theorem WellRead.take (h : p.WellRead choices) (n : Nat) : p.WellRead (choices.take n) where
  length := Nat.le_trans (List.length_take_le' n choices) h.length
  read i choice hchoice := by
    rw [List.getElem?_take] at hchoice
    split at hchoice
    · exact h.read i choice hchoice
    · cases hchoice

/-! ## Summing up -/

variable [Score α]

/-- The log-probability of each choice, in the row that is answered for the
orders before it. -/
structure Terms (p : Position α) (choices : List Choice) (terms : List α) : Prop where
  length : terms.length = choices.length
  term : ∀ i choice x, choices[i]? = some choice → terms[i]? = some x →
    ∃ row, p.Answers i ((choices.take i).map (·.order)) row ∧
      (Row.logSoftmax row)[choice.index]? = some x

variable {terms : List α} {rows : List (List α)}

/-- The terms of choices that were well read are what the replay sums up. -/
theorem terms_iff (hread : p.WellRead choices) (hrows : p.Replays (choices.map (·.order)) rows) :
    p.Terms choices terms ↔
      terms = (rows.zip choices).map fun (row, choice) => Row.logProb row choice.index := by
  have hlength : rows.length = choices.length := by rw [hrows.length, List.length_map]
  have hentry {i : Nat} {choice : Choice} {row : List α} (hchoice : choices[i]? = some choice)
      (hrow : rows[i]? = some row) :
      p.Answers i ((choices.take i).map (·.order)) row ∧
        (Row.logSoftmax row)[choice.index]? = some (Row.logProb row choice.index) := by
    have hanswer := hrows.answers i row hrow
    rw [← List.map_take] at hanswer
    have hindex : choice.index < (Row.logSoftmax row).length := by
      rw [Row.length_logSoftmax, hanswer.length]
      exact lt_size_of_choose (hread.read i choice hchoice)
    refine ⟨hanswer, ?_⟩
    rw [Row.logProb, List.getElem?_eq_getElem hindex, Option.getD_some]
  constructor
  · rintro ⟨hterms, hterm⟩
    refine eq_of_getElem? ?_ fun i x y hx hy => ?_
    · rw [hterms, List.length_map, List.length_zip, hlength, Nat.min_self]
    · rw [List.getElem?_map, Option.map_eq_some_iff] at hy
      obtain ⟨⟨row, choice⟩, hpair, rfl⟩ := hy
      obtain ⟨hrow, hchoice⟩ := List.getElem?_zip_eq_some.mp hpair
      obtain ⟨row', hanswer', hx'⟩ := hterm i choice x hchoice hx
      obtain ⟨hanswer, hprob⟩ := hentry hchoice hrow
      obtain rfl : row = row' := Except.ok.inj (hanswer.given.symm.trans hanswer'.given)
      exact Option.some.inj (hx'.symm.trans hprob)
  · rintro rfl
    refine ⟨by rw [List.length_map, List.length_zip, hlength, Nat.min_self],
      fun i choice x hchoice hx => ?_⟩
    obtain ⟨row, hrow⟩ := exists_getElem? hlength.symm hchoice
    rw [List.getElem?_map, List.zip, List.getElem?_zipWith, hrow, hchoice] at hx
    cases hx
    exact ⟨row, hentry hchoice hrow⟩

/-- The beginning of choices has the beginning of the terms. -/
theorem Terms.take (h : p.Terms choices terms) (n : Nat) :
    p.Terms (choices.take n) (terms.take n) where
  length := by rw [List.length_take, List.length_take, h.length]
  term i choice x hchoice hx := by
    rw [List.getElem?_take] at hchoice hx
    split at hchoice
    · next hi =>
      rw [if_pos hi] at hx
      rw [List.take_take, Nat.min_eq_left (Nat.le_of_lt hi)]
      exact h.term i choice x hchoice hx
    · cases hchoice

/-- Replayed choices were well read, and the terms are summed up from the
left. -/
theorem sequenceLogProb_eq_ok_iff {score : α} : p.sequenceLogProb choices = .ok score ↔
    p.WellRead choices ∧ ∃ terms, p.Terms choices terms ∧ score = total terms := by
  unfold sequenceLogProb
  constructor
  · intro h
    split at h
    · cases h
    · next hlength =>
      obtain ⟨⟨⟩, hchecks, h⟩ := bind_eq_ok_iff.mp h
      obtain ⟨rows, hreplay, h⟩ := bind_eq_ok_iff.mp h
      cases h
      have hread : p.WellRead choices := ⟨Nat.le_of_not_lt hlength, checks_eq_ok_iff.mp hchecks⟩
      exact ⟨hread, _, (terms_iff hread (replay_eq_ok_iff.mp hreplay).2).mpr rfl, rfl⟩
  · rintro ⟨hread, terms, hterms, rfl⟩
    have hanswered : ∀ i < (choices.map (·.order)).length,
        ∃ row, p.Answers i ((choices.map (·.order)).take i) row := by
      intro i hi
      rw [List.length_map] at hi
      have hchoice := List.getElem?_eq_getElem hi
      obtain ⟨x, hx⟩ := exists_getElem? hterms.length.symm hchoice
      obtain ⟨row, hanswer, -⟩ := hterms.term i _ x hchoice hx
      rw [← List.map_take]
      exact ⟨row, hanswer⟩
    obtain ⟨rows, hrows⟩ := exists_replays_iff.mpr hanswered
    have hlength : choices.length ≤ p.units.length := hread.length
    rw [if_neg (Nat.not_lt.mpr hlength), (terms_iff hread hrows).mp hterms]
    refine bind_eq_ok_iff.mpr ⟨(), checks_eq_ok_iff.mpr hread.read, ?_⟩
    refine bind_eq_ok_iff.mpr ⟨rows, replay_eq_ok_iff.mpr ⟨?_, hrows⟩, rfl⟩
    rwa [List.length_map]

/-- A replay of choices that fails turns them down, or having read them well
stops at a row. -/
theorem sequenceLogProb_eq_error_iff : p.sequenceLogProb choices = .error e ↔
    (∃ cause, p.TurnsDown choices cause ∧ e = .argument cause) ∨
      p.WellRead choices ∧ p.Stops (choices.map (·.order)) e := by
  unfold sequenceLogProb
  split
  · next hmany =>
    have hdown : p.TurnsDown choices _ := .tooMany hmany
    rw [or_iff_left fun h => wellRead_iff.mp h.1 _ hdown]
    constructor
    · intro h
      cases h
      exact ⟨_, hdown, rfl⟩
    · rintro ⟨cause, hdown, rfl⟩
      cases hdown with
      | tooMany _ => rfl
      | misread hlength _ _ _ => exact absurd hmany (Nat.not_lt.mpr hlength)
  · next hlength =>
    have hlength : choices.length ≤ p.numSteps := Nat.le_of_not_lt hlength
    rw [bind_eq_error_iff, checks_eq_error_iff hlength]
    refine or_congr_right ?_
    constructor
    · rintro ⟨⟨⟩, hchecks, h⟩
      rcases bind_eq_error_iff.mp h with h | ⟨_, _, h⟩
      · rcases replay_eq_error_iff.mp h with ⟨hmany, -⟩ | ⟨-, hstops⟩
        · rw [List.length_map] at hmany
          exact absurd hlength (Nat.not_le.mpr hmany)
        · exact ⟨⟨hlength, checks_eq_ok_iff.mp hchecks⟩, hstops⟩
      · cases h
    · rintro ⟨hread, hstops⟩
      refine ⟨(), checks_eq_ok_iff.mpr hread.read, bind_eq_error_iff.mpr (Or.inl ?_)⟩
      refine replay_eq_error_iff.mpr (Or.inr ⟨?_, hstops⟩)
      rwa [List.length_map]

/-- What a replay stops at is the scorer's doing. -/
theorem Stops.not_argument {orders : List Order} {cause : ArgumentError} :
    ¬ p.Stops orders (.argument cause) := by
  rintro ⟨i, -, hrefuses, -⟩
  cases hrefuses

theorem sequenceLogProb_eq_argument_iff {cause : ArgumentError} :
    p.sequenceLogProb choices = .error (.argument cause) ↔ p.TurnsDown choices cause := by
  rw [sequenceLogProb_eq_error_iff]
  constructor
  · rintro (⟨cause, hdown, heq⟩ | ⟨-, hstops⟩)
    · cases heq
      exact hdown
    · exact absurd hstops Stops.not_argument
  · intro hdown
    exact Or.inl ⟨cause, hdown, rfl⟩

/-- Choices were read well if the replay does not turn them down. -/
theorem wellRead_iff_accepted : p.WellRead choices ↔
    ∀ cause, p.sequenceLogProb choices ≠ .error (.argument cause) := by
  simp only [wellRead_iff, ne_eq, sequenceLogProb_eq_argument_iff]

/-- What replaying choices comes to.  They are turned down exactly if they are
more than the units, or one names no entry or brings an order that its entry
is not read as for its unit; the first such step is told, and it is the same
whoever scores.  Otherwise the replay stops at the first step whose row is
refused, or sums the terms up from the left.  It never fails to read an entry,
and what can be replayed can be replayed in part. -/
theorem sequenceLogProb_outcomes (p : Position α) (choices : List Choice) :
    ((∃ cause, p.sequenceLogProb choices = .error (.argument cause)) ↔
        p.units.length < choices.length ∨
          ∃ (i : Nat) (choice : Choice), choices[i]? = some choice ∧
            (p.vocab.size ≤ choice.index ∨ ∃ unit, p.units.areas[i]? = some unit ∧
              p.vocab.orderAt choice.index unit p.units.phase ≠ .ok choice.order)) ∧
      (∀ (scorer : Scorer α) (cause : ArgumentError),
        ({ p with scorer } : Position α).sequenceLogProb choices = .error (.argument cause) ↔
          p.TurnsDown choices cause) ∧
      ((∀ cause, p.sequenceLogProb choices ≠ .error (.argument cause)) →
        (∀ e, p.sequenceLogProb choices = .error e ↔ p.Stops (choices.map (·.order)) e) ∧
          ∀ score, p.sequenceLogProb choices = .ok score ↔
            ∃ terms, p.Terms choices terms ∧ score = total terms) ∧
      (∀ cause, p.sequenceLogProb choices ≠ .error (.vocabulary cause)) ∧
      ∀ start, start <+: choices → ∀ score, p.sequenceLogProb choices = .ok score →
        ∃ earlier, p.sequenceLogProb start = .ok earlier := by
  refine ⟨?refused, ?unasked, ?accepted, ?read, ?start⟩
  case refused =>
    simp only [← exists_misread_iff, ← exists_turnsDown_iff, sequenceLogProb_eq_argument_iff]
  case unasked =>
    intro scorer cause
    rw [sequenceLogProb_eq_argument_iff]
    exact ⟨fun h => h.rescored p.scorer, fun h => h.rescored scorer⟩
  case accepted =>
    intro h
    have hread := wellRead_iff_accepted.mpr h
    refine ⟨fun e => ?_, fun score => ?_⟩
    · rw [sequenceLogProb_eq_error_iff, and_iff_right hread]
      refine or_iff_right ?_
      rintro ⟨cause, hdown, -⟩
      exact wellRead_iff.mp hread cause hdown
    · rw [sequenceLogProb_eq_ok_iff, and_iff_right hread]
  case read =>
    intro cause h
    rcases sequenceLogProb_eq_error_iff.mp h with ⟨_, -, heq⟩ | ⟨-, i, -, hrefuses, -⟩
    · cases heq
    · cases hrefuses
  case start =>
    intro start hstart score h
    obtain ⟨hread, terms, hterms, -⟩ := sequenceLogProb_eq_ok_iff.mp h
    rw [List.prefix_iff_eq_take.mp hstart]
    exact ⟨_, sequenceLogProb_eq_ok_iff.mpr ⟨hread.take _, _, hterms.take _, rfl⟩⟩

/-- Two units, and a scorer that has nothing to say about the second unless
the first has moved out to it. -/
def reticent : Position Stark :=
  { Stark.position 2 [] with
    scorer := fun units prior =>
      if units = [0] then .ok (Stark.row 11 [(0, -1), (10, 0)])
      else if prior = [.move 0 1] then .ok (Stark.row 11 [(0, 0), (9, -2)])
      else .error (.missingStep 1) }

/-- The hold of the first unit is no order for the second, whoever scores; the
rows of two holds run out at the second; and two moves are replayed, and the
first of them alone. -/
theorem reticent_outcomes :
    (∀ scorer : Scorer Stark,
      ({ reticent with scorer } : Position Stark).sequenceLogProb
          [⟨10, .move 0 1⟩, ⟨0, .hold 0⟩] =
        .error (.argument (.orderMismatch 1 0 (.hold 0)))) ∧
      reticent.Stops [.hold 0, .hold 1] (.scorer (.missingStep 1)) ∧
      reticent.sequenceLogProb [⟨10, .move 0 1⟩, ⟨9, .move 1 0⟩] = .ok (-2 : Float) ∧
      ∃ earlier, reticent.sequenceLogProb [⟨10, .move 0 1⟩] = .ok earlier := by
  have hforeign : reticent.sequenceLogProb [⟨10, .move 0 1⟩, ⟨0, .hold 0⟩] =
      .error (.argument (.orderMismatch 1 0 (.hold 0))) := by decide +kernel
  have hholds : reticent.sequenceLogProb [⟨0, .hold 0⟩, ⟨0, .hold 1⟩] =
      .error (.scorer (.missingStep 1)) := by decide +kernel
  have hmoves : reticent.sequenceLogProb [⟨10, .move 0 1⟩, ⟨9, .move 1 0⟩] = .ok (-2 : Float) := by
    decide +kernel
  obtain ⟨-, hunasked, -⟩ := sequenceLogProb_outcomes reticent [⟨10, .move 0 1⟩, ⟨0, .hold 0⟩]
  obtain ⟨-, -, haccepted, -⟩ := sequenceLogProb_outcomes reticent [⟨0, .hold 0⟩, ⟨0, .hold 1⟩]
  obtain ⟨-, -, -, -, hstart⟩ :=
    sequenceLogProb_outcomes reticent [⟨10, .move 0 1⟩, ⟨9, .move 1 0⟩]
  refine ⟨fun scorer => ?_, ?_, hmoves, hstart _ ⟨_, rfl⟩ _ hmoves⟩
  · exact (hunasked scorer _).mpr ((hunasked reticent.scorer _).mp hforeign)
  · refine ((haccepted fun cause h => ?_).1 _).mp hholds
    rw [hholds] at h
    cases h

end Position

end OrderDecoding
