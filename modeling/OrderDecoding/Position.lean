/-
# `Position` — a scorer bound to the units of one decode

A position asks its scorer about one step at a time: step `i` shows the
units `0 … i` and the orders chosen at the steps before `i`, and nothing
of what comes later.  So replaying a fixed list of orders (`replay`) gives
at each step the row that a decode saw there, whatever follows.

Every row is checked before it is used, and every unit is inside the map
of the vocabulary from the start (`inRange`).  Work on several paths at a
time is done by the position's workers, which is one worker unless others
are brought in (`withWorkers`).
-/
import OrderDecoding.Constraint
import OrderDecoding.Scorer
import OrderDecoding.UnitList
import OrderDecoding.Workers

namespace OrderDecoding

structure Position (α : Type) where
  scorer : Scorer α
  units : UnitList
  vocab : Vocabulary
  workers : Workers := .one
  inRange : ∀ area ∈ units.areas, area < vocab.numAreas

/-- Choices and the score they have collected. -/
structure Path (α : Type) where
  sequence : Sequence := {}
  score : α

namespace Path

variable {α : Type} [Score α]

/-- Nothing chosen yet. -/
def start : Path α := { score := 0 }

def extend (path : Path α) (choice : Choice) (score : α) : Path α :=
  { sequence := path.sequence.push choice, score }

end Path

/-- Refuses a temperature that is no number or infinite. -/
def checkTemperature {α : Type} [Score α] (temperature : α) : Except DecodeError Unit :=
  match Score.nonFinite? temperature with
  | some value => .error (.argument (.temperature value))
  | none => .ok ()

/-- Takes a number of steps, and stops at the first that fails. -/
def takeSteps {σ ε : Type} (step : σ → Except ε σ) : Nat → σ → Except ε σ
  | 0, s => .ok s
  | n + 1, s => do takeSteps step n (← step s)

namespace Position

variable {α : Type}

/-- Binds a scorer to units.  The first unit outside the map is named. -/
def ofUnits (scorer : Scorer α) (units : UnitList) (vocab : Vocabulary) :
    Except DecodeError (Position α) :=
  match h : units.areas.find? fun area => vocab.numAreas ≤ area with
  | some area => .error (.argument (.unitOutOfRange area vocab.numAreas))
  | none =>
      .ok
        { scorer, units, vocab
          inRange := fun area harea =>
            Nat.lt_of_not_le (by simpa using List.find?_eq_none.mp h area harea) }

/-- The same position, worked on by others. -/
def withWorkers (p : Position α) (workers : Workers) : Position α := { p with workers }

/-- One step per unit. -/
def numSteps (p : Position α) : Nat := p.units.length

/-- What a chosen entry means for the unit of a step. -/
def choose (p : Position α) (step index : Nat) : Except DecodeError Choice :=
  match p.units.areas[step]? with
  | none => .error (.argument (.stepPastEnd step p.units.length))
  | some unit =>
      match p.vocab.orderAt index unit p.units.phase with
      | .error cause => .error (.vocabulary cause)
      | .ok order => .ok { index, order }

variable [Score α]

/-- The first entry of a row that cannot be a score. -/
def badEntry? (row : List α) : Option (Nat × NonFinite) :=
  row.zipIdx.findSome? fun entry => (Score.noScore? entry.1).map (entry.2, ·)

/-- Refuses a row of another length than the vocabulary's, and one with an
entry that is no number or `+∞`. -/
def checkRow (p : Position α) (step : Nat) (row : List α) : Except DecodeError Unit :=
  if row.length ≠ p.vocab.size then
    .error (.scores step (.length p.vocab.size row.length))
  else
    match badEntry? row with
    | some (index, value) => .error (.scores step (.entry index value))
    | none => .ok ()

/-- The checked row of a step, given the orders of the steps before it. -/
def rowAt (p : Position α) (step : Nat) (prior : List Order) : Except DecodeError (List α) :=
  if p.units.length ≤ step then
    .error (.argument (.stepPastEnd step p.units.length))
  else
    match p.scorer (p.units.upTo step) prior with
    | .error cause => .error (.scorer cause)
    | .ok row => do
        p.checkRow step row
        .ok row

/-- The checked row of the next step of a sequence. -/
def scores (p : Position α) (s : Sequence) : Except DecodeError (List α) :=
  p.rowAt s.length s.orders

/-! ## Replaying fixed choices -/

/-- The rows seen while a fixed list of orders is chosen one by one. -/
def replay (p : Position α) (orders : List Order) : Except DecodeError (List (List α)) :=
  if p.units.length < orders.length then
    .error (.argument (.tooManyOrders orders.length p.units.length))
  else
    (List.range orders.length).mapM fun step => p.rowAt step (orders.take step)

/-- Refuses a choice whose entry is not in the vocabulary, or does not
read as its order for the unit of the step. -/
def checkChoice (p : Position α) (step : Nat) (choice : Choice) : Except DecodeError Unit :=
  if p.vocab.size ≤ choice.index then
    .error (.argument (.indexOutOfRange step choice.index p.vocab.size))
  else do
    let read ← p.choose step choice.index
    if read.order ≠ choice.order then
      .error (.argument (.orderMismatch step choice.index choice.order))
    else .ok ()

/-- The log-probability of fixed choices: the sum over the steps, from the
left, of the log-probability of the chosen entry.  The choices are checked
before the scorer is asked anything. -/
def sequenceLogProb (p : Position α) (choices : List Choice) : Except DecodeError α :=
  if p.units.length < choices.length then
    .error (.argument (.tooManyOrders choices.length p.units.length))
  else do
    choices.zipIdx.forM fun entry => p.checkChoice entry.2 entry.1
    let rows ← p.replay (choices.map (·.order))
    .ok (Score.total ((rows.zip choices).map fun (row, choice) => Row.logProb row choice.index))

/-- Takes one step for every unit. -/
def takeAll {σ : Type} (p : Position α) (step : σ → Except DecodeError σ) (s : σ) :
    Except DecodeError σ :=
  takeSteps step p.numSteps s

end Position
end OrderDecoding
