import PersistentCollections.Hash.Mix

/-!
# Hashes of text

Text is hashed by its UTF-16 units. `units` lists them. `text` takes them two to a word, in one
pass that keeps a half-filled word between units; `polynomial` is the fold `31 * h + unit`.
-/

namespace PersistentCollections.Hash

/-- The UTF-16 units of a character: one, or a surrogate pair. -/
def unitsOfChar (c : Char) : List UInt16 :=
  if c.val < 0x10000 then [c.val.toUInt16]
  else
    let v : UInt32 := c.val - 0x10000
    [(0xd800 : UInt16) + (v >>> 10).toUInt16, (0xdc00 : UInt16) + (v &&& 0x3ff).toUInt16]

/-- The UTF-16 units of a string, in order. -/
def units (s : String) : List UInt16 := s.toList.flatMap unitsOfChar

/-- The state of the pass over the units of a text. -/
structure TextState where
  /-- The words folded so far. -/
  hash : UInt32
  /-- The number of units seen. -/
  count : UInt32
  /-- A unit that waits for the other half of its word. -/
  pending : Option UInt16

namespace TextState

def start : TextState := ⟨0, 0, none⟩

/-- Take one unit: keep it, or complete a word with it. -/
def step (st : TextState) (unit : UInt16) : TextState :=
  match st.pending with
  | none => { st with count := st.count + 1, pending := some unit }
  | some low =>
    { hash := mixH st.hash (mixK (low.toUInt32 ||| (unit.toUInt32 <<< 16)))
      count := st.count + 1
      pending := none }

/-- Fold in a unit that was left alone, and the length in bytes. -/
def close (st : TextState) : UInt32 :=
  let h := match st.pending with
    | none => st.hash
    | some low => st.hash ^^^ mixK low.toUInt32
  finish h (st.count * 2)

end TextState

/-- The hash of a text. -/
def text (s : String) : UInt32 := ((units s).foldl TextState.step TextState.start).close

/-- The hash `31 * h + unit`, used for namespaces. -/
def polynomial (s : String) : UInt32 :=
  (units s).foldl (fun h unit => h * 31 + unit.toUInt32) 0

end PersistentCollections.Hash
