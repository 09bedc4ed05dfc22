/-
# `Json.Fault` — how reading a JSON text can fail

Text is read once, from the front, and the first fault met is the one
reported.  There are four kinds, and they say who is to blame: the text
is not JSON (`malformed`), the text was on its way to being JSON when it
ended (`truncated`), the text is JSON so far and says something that the
reader has no use for (`mismatched`), or it says something that was
understood and turned down, for a reason (`refused`).
-/
namespace OrderDecoding
namespace Json

inductive Fault where
  | malformed
  | truncated
  | mismatched
  | refused (reason : String)
deriving DecidableEq

/-- What a fault is about: the form of the text, its end, or what it
says. -/
def Fault.category : Fault → String
  | malformed => "syntax"
  | truncated => "eof"
  | mismatched => "data"
  | refused _ => "data"

end Json
end OrderDecoding
