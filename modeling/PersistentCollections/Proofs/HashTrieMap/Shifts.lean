import PersistentCollections.Proofs.HashTrieMap.Structure
import PersistentCollections.Proofs.Outcome

/-!
# The recursion by shifts

`Node.find?`, `Node.insert` and `Node.erase` recurse on the digits of a hash that are to go, so that
they come to an end by themselves, and stop with an error where a digit is asked for that the hash
does not have. Here the same operations recurse on the nodes, with the shift of the next digit
counted up and no bound to it. Two entries that share a place are inserted one after the other into
an empty node, and an insertion into a collision node of another hash begins anew, at the same
shift, with the bitmap node above it (`Node.insertFrom`). As far as the recursion goes nothing makes
it end.

`ReadsInside x a` says that `x` comes to its end with the value `a`, and that it reads digits only
at the seven shifts of a hash. The recursion by shifts does so wherever the recursion by digits
gives a value, and gives the same (`Node.lookupFrom_retraces`, `Node.insertFrom_retraces`,
`Node.removeFrom_retraces`). `Retraces` goes through both computations at once and has a rule for
every construct that they are made of.
-/

namespace PersistentCollections.HashTrieMap

/-! ## Reading digits -/

/-- A computation that reads digits of hashes. It gives a value and adds the shifts at which it has
read to a list. It gives nothing if it fails or does not come to an end. -/
abbrev Reading (α : Type) : Type := StateT (List Nat) Option α

/-- The digit of a hash from bit `shift` on. -/
def digitAt (hash : UInt32) (shift : Nat) : Reading Nat := do
  modify (· ++ [shift])
  return hash.toNat / Nat.pow 2 shift % width

/-- The shifts of the digits of a hash. -/
def shifts : List Nat := [0, 5, 10, 15, 20, 25, 30]

example : ∀ shift ∈ shifts, shift < 32 := by decide

section

variable {α β : Type} {x : Reading α} {r : Result α} {a : α} {b : β} {left : Nat} {hash : UInt32}

/-- The computation gives `a`, and reads digits inside the hash only. -/
def ReadsInside (x : Reading α) (a : α) : Prop :=
  ∃ read, (∀ shift ∈ read, shift ∈ shifts) ∧ ∀ seen, x seen = some (a, seen ++ read)

theorem readsInside_pure (a : α) : ReadsInside (pure a) a := by
  refine ⟨[], List.forall_mem_nil _, fun seen => ?_⟩
  rw [List.append_nil]
  rfl

theorem ReadsInside.bind {f : α → Reading β} (h : ReadsInside x a) (h' : ReadsInside (f a) b) :
    ReadsInside (x >>= f) b := by
  obtain ⟨read, hRead, hx⟩ := h
  obtain ⟨read', hRead', hf⟩ := h'
  refine ⟨read ++ read', List.forall_mem_append.mpr ⟨hRead, hRead'⟩, fun seen => ?_⟩
  have hRun : (x >>= f) seen = (x seen).bind fun r => f r.1 r.2 := rfl
  rw [hRun, hx, Option.bind_some, hf, List.append_assoc]

theorem shiftOf_step (hl : left < digits) : shiftOf (left + 1) + 5 = shiftOf left := by
  unfold shiftOf digits at *
  omega

/-- A digit that is to go is inside the hash. -/
theorem digitAt_readsInside (hl : left < digits) (hash : UInt32) :
    ReadsInside (digitAt hash (shiftOf (left + 1))) (position hash (left + 1)) := by
  have hMem : ∀ l < digits, shiftOf (l + 1) ∈ shifts := by decide
  exact ⟨[shiftOf (left + 1)], List.forall_mem_singleton.mpr (hMem left hl), fun _ => rfl⟩

/-! ## Retracing the recursion by digits -/

/-- Where `r` gives a value, `x` gives the same and reads digits inside the hash only. -/
def Retraces (x : Reading α) (r : Result α) : Prop := ∀ a, r = .ok a → ReadsInside x a

theorem retraces_ok (a : α) : Retraces (pure a) (.ok a) := by
  rintro _ ⟨⟩
  exact readsInside_pure a

theorem retraces_broken (x : Reading α) (breach : Breach) : Retraces x (broken breach) := by
  rintro _ ⟨⟩

theorem Retraces.bind {f : α → Reading β} {g : α → Result β} (h : Retraces x r)
    (h' : ∀ a, Retraces (f a) (g a)) : Retraces (x >>= f) (r >>= g) := by
  intro b hb
  obtain ⟨a, ha, hb⟩ := Result.bind_eq_ok.mp hb
  exact (h a ha).bind (h' a b hb)

theorem Retraces.ite {p : Prop} [Decidable p] {y : Reading α} {s : Result α}
    (h : Retraces x r) (h' : Retraces y s) :
    Retraces (if p then x else y) (if p then r else s) := by
  split
  · exact h
  · exact h'

/-- Reading a digit that is to go changes nothing else. -/
theorem Retraces.digit {f : Nat → Reading α} (hl : left < digits)
    (h : Retraces (f (position hash (left + 1))) r) :
    Retraces (digitAt hash (shiftOf (left + 1)) >>= f) r :=
  fun a ha => (digitAt_readsInside hl hash).bind (h a ha)

end

namespace Node

variable {κ ν : Type}

/-! ## Lookup -/

section Lookup

variable [BEq κ]

/-- The entry of a key, from a node at `shift` on. -/
def lookupFrom (key : κ) (hash : UInt32) (shift : Nat) :
    Node κ ν → Reading (Option (κ × ν))
  | .bitmap _ bits slots => do
    let p ← digitAt hash shift
    if bits.has p then
      match slots[bits.rank p]? with
      | some (.leaf entry) => return if entry.1 == key then some entry else none
      | some (.inner child) => child |>.lookupFrom key hash (shift + 5)
      | none => failure
    else return none
  | .array _ _ children => do
    let p ← digitAt hash shift
    match children[p]? with
    | some (some child) => child |>.lookupFrom key hash (shift + 5)
    | some none => return none
    | none => failure
  | .collision _ h entries => return if h = hash then Entries.find? key entries else none
partial_fixpoint

variable {left : Nat} {key : κ} {hash : UInt32}

theorem lookupFrom_retraces (hl : left ≤ digits) (n : Node κ ν) :
    Retraces (n.lookupFrom key hash (shiftOf left)) (n.find? key hash left) := by
  induction left generalizing n with
  | zero =>
    cases n with
    | bitmap => exact retraces_broken _ _
    | array => exact retraces_broken _ _
    | collision =>
      rw [find?, lookupFrom]
      exact retraces_ok _
  | succ left ih =>
    cases n with
    | bitmap stamp bits slots =>
      rw [find?, lookupFrom, shiftOf_step hl]
      refine Retraces.digit hl (Retraces.ite ?_ (retraces_ok none))
      cases slots[bits.rank (position hash (left + 1))]? with
      | none => exact retraces_broken _ _
      | some slot =>
        cases slot with
        | leaf entry => exact retraces_ok _
        | inner child => exact ih (Nat.le_of_lt hl) child
    | array stamp count children =>
      rw [find?, lookupFrom, shiftOf_step hl]
      refine Retraces.digit hl ?_
      cases children[position hash (left + 1)]? with
      | none => exact retraces_broken _ _
      | some place =>
        cases place with
        | none => exact retraces_ok none
        | some child => exact ih (Nat.le_of_lt hl) child
    | collision =>
      rw [find?, lookupFrom]
      exact retraces_ok _

end Lookup

/-! ## Insertion -/

section Insert

variable [HashCode κ]

/-- The node at `shift` with one entry. -/
def singletonFrom (now shift : Nat) (hash : UInt32) (entry : κ × ν) : Reading (Node κ ν) := do
  let p ← digitAt hash shift
  return .bitmap now (Bitmap.empty.insert p) [.leaf entry]

/-- The children at `shift` of an array node made from the places of a bitmap node. -/
def spreadFrom (now shift : Nat) (bits : Bitmap) :
    (positions : List Nat) → List (Slot κ ν) → Reading (List (Option (Node κ ν)))
  | [], _ => return []
  | p :: positions, slots =>
    if bits.has p then
      match slots with
      | .inner child :: slots => return some child :: (← spreadFrom now shift bits positions slots)
      | .leaf e :: slots => do
        let child ← singletonFrom now shift (hashCode e.1) e
        return some child :: (← spreadFrom now shift bits positions slots)
      | [] => return none :: (← spreadFrom now shift bits positions [])
    else return none :: (← spreadFrom now shift bits positions slots)

/-- Turn a full bitmap node at `shift` into an array node that also holds an entry. -/
def promoteFrom (now shift : Nat) (bits : Bitmap) (slots : List (Slot κ ν)) (entry : κ × ν)
    (hash : UInt32) : Reading (Inserted κ ν) := do
  let children ← spreadFrom now (shift + 5) bits (List.range width) slots
  let p ← digitAt hash shift
  let child ← singletonFrom now (shift + 5) hash entry
  return {
    node := .array now (bits.count + 1) (children.set p (some child))
    replaced := none
    events := [.nodePromoted shift] }

variable [BEq κ]

mutual

/-- Insert an entry into a node at `shift`. An insertion into a collision node of another hash puts
it below a bitmap node and begins anew with that. -/
def insertFrom (now shift : Nat) (entry : κ × ν) (hash : UInt32) :
    Node κ ν → Reading (Inserted κ ν)
  | .bitmap _ bits slots => do
    let p ← digitAt hash shift
    let i := bits.rank p
    if bits.has p then
      match slots[i]? with
      | none => failure
      | some (.inner child) => do
        let r ← child |>.insertFrom now (shift + 5) entry hash
        return { r with node := .bitmap now bits (slots.set i (.inner r.node)) }
      | some (.leaf stored) =>
        if stored.1 == entry.1 then
          return ⟨.bitmap now bits (slots.set i (.leaf (stored.1, entry.2))), some stored.2, []⟩
        else do
          let r ← Node.empty now |>.pairFrom now (shift + 5) stored (hashCode stored.1) entry hash
          return ⟨.bitmap now bits (slots.set i (.inner r.node)), none, r.events⟩
    else if slots.length < mostSlots then
      if i ≤ slots.length then
        return ⟨.bitmap now (bits.insert p) (slots.insertIdx i (.leaf entry)), none, []⟩
      else failure
    else promoteFrom now shift bits slots entry hash
  | .array _ count children => do
    let p ← digitAt hash shift
    match children[p]? with
    | some (some child) => do
      let r ← child |>.insertFrom now (shift + 5) entry hash
      return { r with node := .array now count (children.set p (some r.node)) }
    | some none => do
      let child ← singletonFrom now (shift + 5) hash entry
      return ⟨.array now (count + 1) (children.set p (some child)), none, []⟩
    | none => failure
  | .collision _ h entries =>
    if h = hash then
      match Entries.setValue? entry.1 entry.2 entries with
      | some (old, entries) => return ⟨.collision now h entries, some old, []⟩
      | none => return ⟨.collision now h (entries ++ [entry]), none, []⟩
    else do
      let p ← digitAt h shift
      Node.bitmap now (Bitmap.empty.insert p) [.inner (.collision now h entries)]
        |>.insertFrom now shift entry hash
partial_fixpoint

/-- Turn the empty node at `shift` into one for two entries with distinct keys. -/
def pairFrom (now shift : Nat) (e₁ : κ × ν) (h₁ : UInt32) (e₂ : κ × ν) (h₂ : UInt32)
    (node : Node κ ν) : Reading (Inserted κ ν) :=
  if h₁ = h₂ then return ⟨.collision now h₁ [e₁, e₂], none, []⟩
  else do
    let r ← node |>.insertFrom now shift e₁ h₁
    r.node |>.insertFrom now shift e₂ h₂
partial_fixpoint

end

variable {now left : Nat} {bits : Bitmap} {slots : List (Slot κ ν)} {n : Node κ ν}
  {e e₁ e₂ : κ × ν} {hash h₁ h₂ : UInt32}

omit [BEq κ] [HashCode κ] in
theorem singletonFrom_retraces (hl : left ≤ digits) :
    Retraces (singletonFrom now (shiftOf left) hash e) (singleton now hash e left) := by
  cases left with
  | zero => exact retraces_broken _ _
  | succ left => exact Retraces.digit hl (retraces_ok _)

omit [BEq κ] in
theorem spreadFrom_retraces (hl : left ≤ digits) (positions : List Nat) (slots : List (Slot κ ν)) :
    Retraces (spreadFrom now (shiftOf left) bits positions slots)
      (spread now left bits positions slots) := by
  have hRest (child : Option (Node κ ν)) {x : Reading _} {r : Result _} (h : Retraces x r) :
      Retraces (return child :: (← x)) (return child :: (← r)) :=
    h.bind fun children => retraces_ok (child :: children)
  induction positions generalizing slots with
  | nil => exact retraces_ok []
  | cons p positions ih =>
    rw [spread.eq_def, spreadFrom.eq_def]
    refine Retraces.ite ?_ (hRest none (ih slots))
    cases slots with
    | nil => exact hRest none (ih [])
    | cons slot slots =>
      cases slot with
      | inner child => exact hRest (some child) (ih slots)
      | leaf e => exact (singletonFrom_retraces hl).bind fun child => hRest (some child) (ih slots)

omit [BEq κ] in
theorem promoteFrom_retraces (hl : left < digits) :
    Retraces (promoteFrom now (shiftOf (left + 1)) bits slots e hash)
      (promote now left bits slots e hash) := by
  have hl' : left ≤ digits := Nat.le_of_lt hl
  rw [promoteFrom, shiftOf_step hl]
  exact (spreadFrom_retraces hl' _ slots).bind fun children => Retraces.digit hl
    ((singletonFrom_retraces hl').bind fun child => retraces_ok _)

/-- An insertion into the empty node makes the node with one entry. -/
theorem insertFrom_empty (hl : left ≤ digits) (h : singleton now hash e left = .ok n) :
    ReadsInside ((Node.empty now).insertFrom now (shiftOf left) e hash) ⟨n, none, []⟩ := by
  cases left with
  | zero => cases h
  | succ left =>
    cases h
    rw [Node.empty, insertFrom]
    refine (digitAt_readsInside hl hash).bind ?_
    rw [Bitmap.has_empty, Bitmap.rank_empty]
    exact readsInside_pure _

/-- The insertion by shifts retraces an insertion into nodes with `left` digits to go. -/
def RetracesInsert (now left : Nat)
    (insert : Node κ ν → κ × ν → UInt32 → Result (Inserted κ ν)) : Prop :=
  ∀ n e hash, Retraces (insertFrom now (shiftOf left) e hash n) (insert n e hash)

variable {insert : Node κ ν → κ × ν → UInt32 → Result (Inserted κ ν)}

theorem pairFrom_retraces (hl : left ≤ digits) (hi : RetracesInsert now left insert) :
    Retraces ((Node.empty now).pairFrom now (shiftOf left) e₁ h₁ e₂ h₂)
      (pair now insert left e₁ h₁ e₂ h₂) := by
  rw [pairFrom, pair]
  refine Retraces.ite (retraces_ok _) fun r hr => ?_
  -- the first of the two insertions is not one of the recursion by digits
  obtain ⟨n, hn, hr⟩ := Result.bind_eq_ok.mp hr
  exact (insertFrom_empty hl hn).bind (hi n e₂ h₂ r hr)

theorem insertBitmap_retraces (hl : left < digits) (hi : RetracesInsert now left insert)
    (stamp : Nat) :
    Retraces (insertFrom now (shiftOf (left + 1)) e hash (.bitmap stamp bits slots))
      (insertBitmap now insert left bits slots e hash) := by
  rw [insertFrom, insertBitmap, shiftOf_step hl]
  refine Retraces.digit hl (Retraces.ite ?_ (Retraces.ite ?_ (promoteFrom_retraces hl)))
  · cases slots[bits.rank (position hash (left + 1))]? with
    | none => exact retraces_broken _ _
    | some slot =>
      cases slot with
      | inner child => exact (hi child e hash).bind fun r => retraces_ok _
      | leaf stored =>
        exact Retraces.ite (retraces_ok _)
          ((pairFrom_retraces (Nat.le_of_lt hl) hi).bind fun r => retraces_ok _)
  · exact Retraces.ite (retraces_ok _) (retraces_broken _ _)

theorem insertFrom_retraces_array {stamp count : Nat} {children : List (Option (Node κ ν))}
    (hl : left < digits) (hi : RetracesInsert now left (Node.insert (κ := κ) (ν := ν) now left)) :
    Retraces (insertFrom now (shiftOf (left + 1)) e hash (.array stamp count children))
      ((Node.array stamp count children).insert now (left + 1) e hash) := by
  rw [insertFrom, Node.insert, shiftOf_step hl]
  refine Retraces.digit hl ?_
  cases children[position hash (left + 1)]? with
  | none => exact retraces_broken _ _
  | some place =>
    cases place with
    | none => exact (singletonFrom_retraces (Nat.le_of_lt hl)).bind fun child => retraces_ok _
    | some child => exact (hi child e hash).bind fun r => retraces_ok _

omit [HashCode κ] in
/-- What a collision node does with an entry of its own hash, where no digit is read. -/
theorem retraces_addTo (now : Nat) (hash : UInt32) (es : List (κ × ν)) (e : κ × ν) :
    Retraces
      (match Entries.setValue? e.1 e.2 es with
        | some (old, es) => return ⟨.collision now hash es, some old, []⟩
        | none => return ⟨.collision now hash (es ++ [e]), none, []⟩)
      (match Entries.setValue? e.1 e.2 es with
        | some (old, es) => .ok ⟨.collision now hash es, some old, []⟩
        | none => .ok ⟨.collision now hash (es ++ [e]), none, []⟩ : Result (Inserted κ ν)) := by
  cases Entries.setValue? e.1 e.2 es with
  | none => exact retraces_ok _
  | some found => exact retraces_ok _

theorem insertFrom_retraces (now : Nat) (hl : left ≤ digits) :
    RetracesInsert now left (Node.insert (κ := κ) (ν := ν) now left) := by
  induction left with
  | zero =>
    intro n e hash
    cases n with
    | bitmap => exact retraces_broken _ _
    | array => exact retraces_broken _ _
    | collision stamp h es =>
      rw [insertFrom, Node.insert]
      exact Retraces.ite (retraces_addTo now h es e) (retraces_broken _ _)
  | succ left ih =>
    intro n e hash
    have hi := ih (Nat.le_of_lt hl)
    cases n with
    | bitmap stamp bits slots =>
      rw [Node.insert]
      exact insertBitmap_retraces hl hi stamp
    | array => exact insertFrom_retraces_array hl hi
    | collision stamp h es =>
      rw [insertFrom, Node.insert]
      -- the second attempt is at the same shift, but at a bitmap node, which does not nest again
      exact Retraces.ite (retraces_addTo now h es e)
        (Retraces.digit hl (insertBitmap_retraces hl hi now))

end Insert

/-! ## Removal -/

section Remove

variable [BEq κ]

/-- Take out the entry of a key, from a node at `shift` on; absent, if it is not there. -/
def removeFrom (now : Nat) (sole : Sharing) (key : κ) (hash : UInt32) (shift : Nat) :
    Node κ ν → Reading (Option (Erased κ ν))
  | .bitmap _ bits slots => do
    let p ← digitAt hash shift
    let i := bits.rank p
    if bits.has p then
      match slots[i]? with
      | none => failure
      | some (.leaf entry) =>
        if entry.1 == key then
          return some ⟨.bitmap now (bits.toggle p) (slots.eraseIdx i), entry, []⟩
        else return none
      | some (.inner child) => do
        match ← child |>.removeFrom now sole key hash (shift + 5) with
        | none => return none
        | some r =>
          let node :=
            if r.node.isEmpty then .bitmap now (bits.toggle p) (slots.eraseIdx i)
            else match r.node.single? with
              | some entry => .bitmap now bits (slots.set i (.leaf entry))
              | none => .bitmap now bits (slots.set i (.inner r.node))
          return some { r with node }
    else return none
  | .array _ count children => do
    let p ← digitAt hash shift
    match children[p]? with
    | none => failure
    | some none => return none
    | some (some child) => do
      match ← child |>.removeFrom now sole key hash (shift + 5) with
      | none => return none
      | some r =>
        if !r.node.isEmpty then
          return some { r with node := .array now count (children.set p (some r.node)) }
        else if count = 0 then failure
        else if count - 1 ≤ fewestChildren then
          let (bits, slots) := gather (sole shift) 0 (children.set p none)
          return some { r with
            node := .bitmap now bits slots
            events := r.events ++ [.nodePacked shift slots.length] }
        else return some { r with node := .array now (count - 1) (children.set p none) }
  | .collision _ h entries =>
    if h = hash then
      return (Entries.takeSwap? key entries).map fun (entry, entries) =>
        ⟨.collision now h entries, entry, []⟩
    else return none
partial_fixpoint

variable {now left stamp count : Nat} {sole : Sharing} {bits : Bitmap} {slots : List (Slot κ ν)}
  {children : List (Option (Node κ ν))} {key : κ} {hash : UInt32}

/-- The removal by shifts retraces that from nodes with `left` digits to go. -/
def RetracesErase (now : Nat) (sole : Sharing) (key : κ) (hash : UInt32) (left : Nat) : Prop :=
  ∀ n : Node κ ν, Retraces (n.removeFrom now sole key hash (shiftOf left))
    (n.erase now sole key hash left)

theorem removeFrom_retraces_bitmap (hl : left < digits)
    (hi : RetracesErase (ν := ν) now sole key hash left) :
    Retraces ((Node.bitmap stamp bits slots).removeFrom now sole key hash (shiftOf (left + 1)))
      ((Node.bitmap stamp bits slots).erase now sole key hash (left + 1)) := by
  rw [removeFrom, erase, shiftOf_step hl]
  refine Retraces.digit hl (Retraces.ite ?_ (retraces_ok none))
  simp only
  cases slots[bits.rank (position hash (left + 1))]? with
  | none => exact retraces_broken _ _
  | some slot =>
    cases slot with
    | leaf entry => exact Retraces.ite (retraces_ok _) (retraces_ok none)
    | inner child =>
      refine (hi child).bind fun o => ?_
      cases o with
      | none => exact retraces_ok none
      | some r => exact retraces_ok _

theorem removeFrom_retraces_array (hl : left < digits)
    (hi : RetracesErase (ν := ν) now sole key hash left) :
    Retraces ((Node.array stamp count children).removeFrom now sole key hash (shiftOf (left + 1)))
      ((Node.array stamp count children).erase now sole key hash (left + 1)) := by
  rw [removeFrom, erase, shiftOf_step hl]
  refine Retraces.digit hl ?_
  simp only
  cases children[position hash (left + 1)]? with
  | none => exact retraces_broken _ _
  | some place =>
    cases place with
    | none => exact retraces_ok none
    | some child =>
      refine (hi child).bind fun o => ?_
      cases o with
      | none => exact retraces_ok none
      | some r =>
        exact Retraces.ite (retraces_ok _) (Retraces.ite (retraces_broken _ _)
          (Retraces.ite (retraces_ok _) (retraces_ok _)))

theorem removeFrom_retraces (hl : left ≤ digits) :
    RetracesErase (ν := ν) now sole key hash left := by
  induction left with
  | zero =>
    intro n
    cases n with
    | bitmap => exact retraces_broken _ _
    | array => exact retraces_broken _ _
    | collision =>
      rw [removeFrom, erase]
      exact Retraces.ite (retraces_ok _) (retraces_ok none)
  | succ left ih =>
    intro n
    have hi := ih (Nat.le_of_lt hl)
    cases n with
    | bitmap => exact removeFrom_retraces_bitmap hl hi
    | array => exact removeFrom_retraces_array hl hi
    | collision =>
      rw [removeFrom, erase]
      exact Retraces.ite (retraces_ok _) (retraces_ok none)

end Remove

end Node

end PersistentCollections.HashTrieMap
