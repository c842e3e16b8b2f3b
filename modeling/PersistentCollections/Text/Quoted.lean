import PersistentCollections.Text.Visible

/-!
# Quoted text

A string in double quotes. Within it, a backslash escapes the double quote, the backslash, NUL and
the controls of lines; what is not visible is given by its code point. A single quote stands as it
is.
-/

namespace PersistentCollections.Text

/-- A character by its code point. -/
def escapeCode (c : Char) : List Char :=
  '\\' :: 'u' :: '\x7b' :: (Nat.toDigits 16 c.toNat ++ ['\x7d'])

/-- How a character appears between quotes. -/
def escape (c : Char) : List Char :=
  match c with
  | '\x00' => ['\\', '0']
  | '\t' => ['\\', 't']
  | '\r' => ['\\', 'r']
  | '\n' => ['\\', 'n']
  | '"' => ['\\', '"']
  | '\\' => ['\\', '\\']
  | _ => if isVisible c then [c] else escapeCode c

/-- A string in quotes. -/
def quoted (s : String) : String :=
  String.ofList ('"' :: (s.toList.flatMap escape ++ ['"']))

end PersistentCollections.Text
