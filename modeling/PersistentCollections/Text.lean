/-!
# The text of collections

How a sequence, a set, a map and an entry are shown, given the text of their parts.
-/

namespace PersistentCollections.Text

def commas (parts : List String) : String := String.intercalate ", " parts

def ofList (parts : List String) : String := "[" ++ commas parts ++ "]"

def ofSet (parts : List String) : String := "\x7b" ++ commas parts ++ "\x7d"

def ofMap (parts : List (String × String)) : String :=
  ofSet (parts.map fun p => p.1 ++ ": " ++ p.2)

def ofTuple (parts : List String) : String := "(" ++ commas parts ++ ")"

/-- A value inside the name of what wraps it. -/
def wrapped (name inner : String) : String := name ++ "(" ++ inner ++ ")"

end PersistentCollections.Text
