/-
# `Format.Request` — what a decode is asked for

A request is a position as a person would write it down: the areas of the
units in any order, the phase, the size of the map if it is not the usual
one, and a row of scores for each unit in ascending order of the areas.
-/
import OrderDecoding.Format.Order

namespace OrderDecoding

open Json

structure Request where
  units : List Area := []
  phase : Phase := .movement
  numAreas : Option Nat := none
  rows : List (List Float) := []

def Request.reader : Reader Request :=
  record
    [ .of "units" .nowhere (list natural) fun r units => { r with units }
    , .of "phase" .anywhere Phase.reader fun r phase => { r with phase }
    , .of "num_areas" .inObjects (optional natural) fun r numAreas => { r with numAreas }
    , .of "logits" .nowhere (list (list float)) fun r rows => { r with rows } ]
    {}

end OrderDecoding
