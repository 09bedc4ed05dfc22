/-
# `Workers` — who does the work of a step

Paths, samples and the candidates of a pool do not look at each other, so
they can be worked on by one worker, one after the other, or by several at
a time.  Where all goes well that makes no difference: what comes out
stands in the order of what went in.

Where more than one piece fails it does.  The failure that is reported is
the one that COMES IN first, and with several workers that need not be the
foremost piece's.  When a piece comes in is nothing that the work decides,
so it is part of the workers (`Schedule`); and a failure that has come in
is the end of it, whatever the other pieces come to.
-/
namespace OrderDecoding

/-- Which of so many pieces come in first, and in what order.  The others
follow from the front. -/
abbrev Schedule := Nat → List Nat

inductive Workers where
  | one
  | several (early : Schedule)

namespace Workers

variable {β γ ε : Type}

/-- The failure of one piece, if there is such a piece and it fails. -/
def failure? (f : β → Except ε γ) (items : List β) (i : Nat) : Option ε :=
  match items[i]?.map f with
  | some (.error e) => some e
  | _ => none

/-- Works on all pieces. -/
def forkJoin (w : Workers) (items : List β) (f : β → Except ε γ) : Except ε (List γ) :=
  match w with
  | .one => items.mapM f
  | .several early =>
      match (early items.length).findSome? (failure? f items) with
      | some e => .error e
      | none => items.mapM f

/-- The workers for a number of threads.  From two threads on they have to
be started, which can go wrong. -/
def hire (start : Nat → Except String Schedule) (threads : Nat) : Except String Workers :=
  if threads ≤ 1 then .ok .one else (start threads).map .several

end Workers
end OrderDecoding
