/-
# `Proofs.Stark` — floats that can be computed with in a proof

`exp` and `log` of floats have no model, so no run over `Float` can be
followed inside a proof where they matter.  `Stark` are the same floats,
bit for bit and with the same sums, with the starkest functions that the
laws allow: `exp` is one from zero on and zero below, `log` is zero.  They
give what the true ones give on rows in which one entry stands out by more
than rounding can see, and the concrete rows of this library are such.
-/
import OrderDecoding.Position
import OrderDecoding.Proofs.Binary64.Quotients

namespace OrderDecoding

/-- Floats with `starkExp` for `exp` and zero for `log`. -/
def Stark : Type := Float

namespace Stark

def exp (x : Float) : Float := if 0 ≤ x then 1 else 0

def log (_ : Float) : Float := 0

instance : Score Stark := floatScore exp log

theorem expLog : Binary64.ExpLog exp log where
  exp_negInf := by decide +kernel
  exp_zero := by decide +kernel
  exp_nonneg := fun {x} _ => by
    unfold exp
    split <;> decide +kernel
  exp_le_one := fun {x} _ => by
    unfold exp
    split <;> decide +kernel
  log_nonneg := fun _ _ => show (0 : Float) ≤ 0 by decide +kernel
  log_le := fun _ _ => show (0 : Float) ≤ 1024 by decide +kernel

instance : LawfulScore Stark := Binary64.lawfulScore expLog

instance : LawfulZero Stark := Binary64.lawfulZero exp log

instance : LawfulQuotient Stark := Binary64.lawfulQuotient exp log

/-- A score that is lost stays lost. -/
theorem negInf_add {x : Stark} (h : x ≤ 0) : Score.negInf + x = Score.negInf := by
  have hlt : x < (Score.posInf : Stark) := LawfulScore.lt_posInf_of_nonpos h
  obtain ⟨a, ha, hbound⟩ := Binary64.lt_posInf_iff.mp hlt
  exact Binary64.negInf_add ha hbound

instance : Std.Commutative fun x y : Stark => x + y := ⟨Binary64.float_add_comm⟩

instance : DecidableEq Stark := inferInstanceAs (DecidableEq Float)

/-- A row of some length with one score throughout, but for a few
entries. -/
def filled (length : Nat) (fill : Float) (entries : List (Nat × Float)) : List Stark :=
  entries.foldl (fun r entry => r.set entry.1 entry.2) (List.replicate length fill)

/-- A row of some length at `-∞`, but for a few entries. -/
def row (length : Nat) (entries : List (Nat × Float)) : List Stark :=
  filled length Score.negInf entries

/-- The units of a map with one in each area, scored by a table. -/
def position (numUnits : Nat) (rows : List (List Stark)) : Position Stark where
  scorer := Scorer.table rows
  units := { areas := List.range numUnits, ascending := List.pairwise_lt_range }
  vocab := { numAreas := numUnits }
  inRange := fun _ => List.mem_range.mp

end Stark

end OrderDecoding
