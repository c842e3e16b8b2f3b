/-!
# Padded text

Texts filled up with blanks to a width, for the columns of a table. A text that is wider stays as
it is.
-/

namespace PersistentCollections.Text

/-- The blanks that a text lacks. -/
def blanks (width : Nat) (s : String) : String :=
  String.ofList (.replicate (width - s.length) ' ')

/-- A text with blanks after it. -/
def padRight (width : Nat) (s : String) : String := s ++ blanks width s

/-- A text with blanks before it. -/
def padLeft (width : Nat) (s : String) : String := blanks width s ++ s

end PersistentCollections.Text
