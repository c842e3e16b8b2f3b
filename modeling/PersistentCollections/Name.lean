import PersistentCollections.Hash.Code

/-!
# Symbols and keywords

Names that may be qualified by a namespace. A keyword is a symbol written with a colon; it has a
hash of its own, so that the two do not share a place in a map.
-/

namespace PersistentCollections

/-- A name, possibly qualified by a namespace. -/
structure Symbol where
  ns : Option String
  name : String
  deriving DecidableEq

namespace Symbol

def text (s : Symbol) : String :=
  match s.ns with
  | none => s.name
  | some ns => s!"{ns}/{s.name}"

/-- Unqualified names come before qualified ones; those go by namespace, then by name. -/
def order (a b : Symbol) : Ordering :=
  match a.ns, b.ns with
  | none, none => compare a.name b.name
  | none, some _ => .lt
  | some _, none => .gt
  | some l, some r => (compare l r).then (compare a.name b.name)

instance : Ord Symbol := ⟨order⟩

/-- A missing namespace hashes as zero. -/
instance : HashCode Symbol where
  hashCode s := Hash.combine (Hash.text s.name) ((s.ns.map Hash.polynomial).getD 0)

end Symbol

/-- A symbol that stands for itself, written `:name` or `:ns/name`. -/
structure Keyword where
  symbol : Symbol
  deriving DecidableEq

namespace Keyword

def text (k : Keyword) : String := s!":{k.symbol.text}"

instance : Ord Keyword := ⟨fun a b => compare a.symbol b.symbol⟩

instance : HashCode Keyword where
  hashCode k := hashCode k.symbol + Hash.goldenRatio

end Keyword

end PersistentCollections
