/-
# `Json.Writer` — writing JSON without blanks

The texts of this library are objects and lists of names and numbers.  No
name it writes needs an escape.
-/
namespace OrderDecoding
namespace Json

def quoted (name : String) : String := "\"" ++ name ++ "\""

/-- A key in front of its value. -/
def member (key value : String) : String := quoted key ++ ":" ++ value

def object (members : List String) : String := "\x7b" ++ ",".intercalate members ++ "\x7d"

def array (values : List String) : String := "[" ++ ",".intercalate values ++ "]"

end Json
end OrderDecoding
