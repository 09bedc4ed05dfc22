/-
# `Order` — the orders a unit can be given

An order is what decoding chooses for one unit: a kind, the area of the
ordered unit, and for some kinds a second area.  Which kinds may name a
second area (`OrderKind.allowsDestination`) and which of those also CLAIM
it against the other units of the same side
(`OrderKind.claimsDestination`) are two different questions: a support
names the area it supports into, but only a move or a retreat arrives
anywhere.  The claim of an order (`Order.claim?`) is what the destination
constraint is about.
-/
namespace OrderDecoding

/-- An area of the map, numbered from zero. -/
abbrev Area := Nat

/-- What a unit is told to do. -/
inductive OrderKind where
  | hold
  | move
  | support
  | convoy
  | retreat
  | build
  | disband
deriving DecidableEq

namespace OrderKind

/-- Every kind, in the order in which the vocabulary lists them. -/
def all : List OrderKind := [hold, move, support, convoy, retreat, build, disband]

/-- The place of a kind in `all`. -/
def index : OrderKind → Nat
  | hold => 0
  | move => 1
  | support => 2
  | convoy => 3
  | retreat => 4
  | build => 5
  | disband => 6

def ofIndex? (i : Nat) : Option OrderKind := all[i]?

theorem ofIndex?_index (k : OrderKind) : ofIndex? k.index = some k := by
  cases k <;> rfl

/-- The kinds whose order may name a second area. -/
def allowsDestination : OrderKind → Bool
  | move | support | convoy | retreat => true
  | hold | build | disband => false

/-- The kinds whose order arrives in its second area. -/
def claimsDestination : OrderKind → Bool
  | move | retreat => true
  | hold | support | convoy | build | disband => false

/-- The written name of a kind. -/
def name : OrderKind → String
  | hold => "hold"
  | move => "move"
  | support => "support"
  | convoy => "convoy"
  | retreat => "retreat"
  | build => "build"
  | disband => "disband"

def ofName? (text : String) : Option OrderKind := all.find? (·.name == text)

/-- The name of a kind at the start of a sentence. -/
def title : OrderKind → String
  | hold => "Hold"
  | move => "Move"
  | support => "Support"
  | convoy => "Convoy"
  | retreat => "Retreat"
  | build => "Build"
  | disband => "Disband"

end OrderKind

/-- The part of a turn that orders are given for. -/
inductive Phase where
  | movement
  | retreat
  | build
deriving DecidableEq

namespace Phase

def all : List Phase := [movement, retreat, build]

/-- The written name of a phase. -/
def name : Phase → String
  | movement => "movement"
  | retreat => "retreat"
  | build => "build"

def ofName? (text : String) : Option Phase := all.find? (·.name == text)

end Phase

/-- One order: its kind, the area of the unit it is for, and the second
area if it has one. -/
structure Order where
  kind : OrderKind
  source : Area
  destination : Option Area := none
deriving DecidableEq

namespace Order

def hold (source : Area) : Order := { kind := .hold, source }

def move (source destination : Area) : Order :=
  { kind := .move, source, destination := some destination }

def support (source target : Area) : Order :=
  { kind := .support, source, destination := some target }

def retreat (source destination : Area) : Order :=
  { kind := .retreat, source, destination := some destination }

def build (area : Area) : Order := { kind := .build, source := area }

def disband (area : Area) : Order := { kind := .disband, source := area }

/-- The area that the order claims: where a move or a retreat arrives. -/
def claim? (o : Order) : Option Area :=
  if o.kind.claimsDestination then o.destination else none

/-- An order spelled out field by field, as messages quote it. -/
def describe (o : Order) : String :=
  let destination := match o.destination with
    | some area => "Some(" ++ toString area ++ ")"
    | none => "None"
  "OrderToken \x7b kind: " ++ o.kind.title ++ ", source: " ++ toString o.source
    ++ ", destination: " ++ destination ++ " \x7d"

end Order

end OrderDecoding
