/-
# `Format.Order` — orders and units as JSON

The written form of an order is an object with its kind, its source and,
where it has one, its destination; a choice adds the entry, and a unit
list is its areas and its phase.  Writing uses no blanks and this order of
fields.  Reading takes any JSON text for the same record.

A unit list is put in order when it is read, and one that repeats an area
is turned down with that area named, so that no text reads as a list that
is not ascending.
-/
import OrderDecoding.Candidate
import OrderDecoding.Json.Record
import OrderDecoding.Json.Writer
import OrderDecoding.UnitList

namespace OrderDecoding

open Json

/-! ## Reading -/

def OrderKind.reader : Reader OrderKind := oneOf OrderKind.ofName?

def Phase.reader : Reader Phase := oneOf Phase.ofName?

def Origin.reader : Reader Origin := oneOf Origin.ofName?

def Order.reader : Reader Order :=
  record
    [ .of "kind" .nowhere OrderKind.reader fun o kind => { o with kind }
    , .of "source" .nowhere natural fun o source => { o with source }
    , .of "destination" .anywhere (optional natural) fun o destination =>
        { o with destination } ]
    { kind := .hold, source := 0 }

def Choice.reader : Reader Choice :=
  record
    [ .of "index" .nowhere natural fun c index => { c with index }
    , .of "order" .nowhere Order.reader fun c order => { c with order } ]
    { index := 0, order := .hold 0 }

/-- The areas of a unit list as they are written, and the phase. -/
structure WrittenUnits where
  areas : List Area := []
  phase : Phase := .movement

def WrittenUnits.reader : Reader WrittenUnits :=
  record
    [ .of "areas" .nowhere (list natural) fun u areas => { u with areas }
    , .of "phase" .anywhere Phase.reader fun u phase => { u with phase } ]
    {}

/-- The unit list that was written down, put in order. -/
def WrittenUnits.toUnitList (u : WrittenUnits) : Except DecodeError UnitList := do
  .ok ((← UnitList.ofAreas u.areas).withPhase u.phase)

/-- Reads a unit list.  Areas that are written but make no list are refused
for the reason that they make none. -/
def UnitList.reader : Reader UnitList :=
  refine WrittenUnits.reader fun u => u.toUnitList.mapError (·.message Fault.category)

def Candidate.reader : Reader (Candidate Float) :=
  record
    [ .of "orders" .nowhere (list Choice.reader) fun c choices => { c with choices }
    , .of "score" .nowhere float fun c score => { c with score }
    , .of "origin" .nowhere Origin.reader fun c origin => { c with origin } ]
    { choices := [], score := 0, origin := .beam }

/-- Reads the rows of a table of scores. -/
def rowsReader : Reader (List (List Float)) :=
  record [.of "logits" .nowhere (list (list float)) fun _ rows => rows] []

/-! ## Writing -/

def Order.write (o : Order) : String :=
  object
    ([member "kind" (quoted o.kind.name), member "source" (toString o.source)]
      ++ (o.destination.map fun area => member "destination" (toString area)).toList)

def Choice.write (c : Choice) : String :=
  object [member "index" (toString c.index), member "order" c.order.write]

def UnitList.write (u : UnitList) : String :=
  object
    [member "areas" (array (u.areas.map toString)), member "phase" (quoted u.phase.name)]

end OrderDecoding
