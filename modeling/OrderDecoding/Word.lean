/-
# `Word` — words of sixty-four bits

Numbers that are written down, in JSON or on a command line, have to fit
in a word.  Inside the library areas and indices are plain natural
numbers; only the padded layout goes back to words, with a sign.
-/
namespace OrderDecoding
namespace Word

/-- The number of words: two to the sixty-fourth. -/
def bound : Nat := 18446744073709551616

/-- The word of a number, read with a sign. -/
def signed (n : Nat) : Int := Int.bmod n bound

end Word
end OrderDecoding
