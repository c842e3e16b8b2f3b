import Mathlib.Logic.Relation
import PersistentCollections.Proofs.HashTrieSet.Cache
import PersistentCollections.Proofs.SortedMap.Equality
import PersistentCollections.Proofs.TrieVector.Cache

/-!
# Versions of collections

A store is what someone holds: any number of versions of collections, persistent ones and such that
are being built. A step makes something new of what is there, by any call, a merge, a union, a copy,
or by asking for a hash, and puts it next to what is there or in the place of a version
(`Step`). What goes over to whatever is made holds in every store that can be reached
(`Reached.forall_mem`). For vectors and windows that is `Version.Sequential`, whatever type their
elements have, and for all collections of lawful keys it is `Version.Sound`.

It follows that no kept hash is out of date, and that equality of hash maps does not depend on the
hashes that have been asked for (`reached_transparent`).
-/

namespace PersistentCollections

/-! ## Stores -/

/-- A version of a collection, or of one that is being built. -/
inductive Version (κ ν : Type) where
  | vector {s : Mode} (held : TrieVector.Held κ s)
  | window (w : TrieVector.Window κ)
  | hashMap {s : Mode} (held : HashTrieMap.Held κ ν s)
  | hashSet {s : Mode} (held : HashTrieSet.Held κ s)
  | sortedMap (m : SortedMap κ ν)
  | sortedSet (s : SortedSet κ)

variable {κ ν : Type} [BEq κ] [HashCode κ] [HashCode ν]

/-- What can be made of the versions in a store. -/
inductive Makes (store : List (Version κ ν)) : Version κ ν → Prop
  | copy {x : Version κ ν} : x ∈ store → Makes store x
  | emptyVector : Makes store (.vector (s := .frozen) .empty)
  | vectorCall {s t : Mode} {held : TrieVector.Held κ s} {held' : TrieVector.Held κ t}
      {events : List Event} {answer : Option Error} (call : TrieVector.Call κ s t) :
      .vector held ∈ store → Yields (call.run held) events (answer, held') →
      Makes store (.vector held')
  | vectorHashed {v v' : TrieVector κ} :
      .vector (s := .frozen) v ∈ store → v.hashed = .ok v' → Makes store (.vector (s := .frozen) v')
  | window {v : TrieVector κ} {w : TrieVector.Window κ} (start stop : Nat) :
      .vector (s := .frozen) v ∈ store → v.window start stop = .ok w → Makes store (.window w)
  | windowCall {w w' : TrieVector.Window κ} {events : List Event} {answer : Option Error}
      (call : TrieVector.Window.Call κ) :
      .window w ∈ store → Yields (call.run w) events (answer, w') → Makes store (.window w')
  | windowHashed {w w' : TrieVector.Window κ} :
      .window w ∈ store → w.hashed = .ok w' → Makes store (.window w')
  | toVector {w : TrieVector.Window κ} {v : TrieVector κ} {events : List Event} :
      .window w ∈ store → Yields w.toVector events v → Makes store (.vector (s := .frozen) v)
  | emptyMap : Makes store (.hashMap (s := .frozen) .empty)
  | mapCall {s t : Mode} {held : HashTrieMap.Held κ ν s} {held' : HashTrieMap.Held κ ν t}
      {events : List Event} {answers : List (Option ν)} (call : HashTrieMap.Call κ ν s t) :
      .hashMap held ∈ store → Yields (call.run held) events (answers, held') →
      Makes store (.hashMap held')
  | merge {m other m' : HashTrieMap κ ν} {events : List Event} :
      .hashMap (s := .frozen) m ∈ store → .hashMap (s := .frozen) other ∈ store →
      Yields (m.merge other) events m' → Makes store (.hashMap (s := .frozen) m')
  | selectKeys {m m' : HashTrieMap κ ν} {events : List Event} (keys : List κ) :
      .hashMap (s := .frozen) m ∈ store → Yields (m.selectKeys keys) events m' →
      Makes store (.hashMap (s := .frozen) m')
  | mapStamped {m : HashTrieMap κ ν} (stamp : Nat) :
      .hashMap (s := .frozen) m ∈ store → Makes store (.hashMap (s := .frozen) (m.stamped stamp))
  | mapHashed {m : HashTrieMap κ ν} :
      .hashMap (s := .frozen) m ∈ store → Makes store (.hashMap (s := .frozen) m.hashed)
  | emptySet : Makes store (.hashSet (s := .frozen) .empty)
  | emptyTransientSet : Makes store (.hashSet (s := .building) .empty)
  | setCall {s t : Mode} {held : HashTrieSet.Held κ s} {held' : HashTrieSet.Held κ t}
      {events : List Event} {answers : List Bool} (call : HashTrieSet.Call κ s t) :
      .hashSet held ∈ store → Yields (call.run held) events (answers, held') →
      Makes store (.hashSet held')
  | union {s other u : HashTrieSet κ} {events : List Event} :
      .hashSet (s := .frozen) s ∈ store → .hashSet (s := .frozen) other ∈ store →
      Yields (s.union other) events u → Makes store (.hashSet (s := .frozen) u)
  | intersection {s other u : HashTrieSet κ} {events : List Event} :
      .hashSet (s := .frozen) s ∈ store → .hashSet (s := .frozen) other ∈ store →
      Yields (s.intersection other) events u → Makes store (.hashSet (s := .frozen) u)
  | difference {s other u : HashTrieSet κ} {events : List Event} :
      .hashSet (s := .frozen) s ∈ store → .hashSet (s := .frozen) other ∈ store →
      Yields (s.difference other) events u → Makes store (.hashSet (s := .frozen) u)
  | setStamped {s : HashTrieSet κ} (stamp : Nat) :
      .hashSet (s := .frozen) s ∈ store → Makes store (.hashSet (s := .frozen) (s.stamped stamp))
  | setHashed {s : HashTrieSet κ} :
      .hashSet (s := .frozen) s ∈ store → Makes store (.hashSet (s := .frozen) s.hashed)
  | emptySortedMap (c : Comparator κ) : Makes store (.sortedMap (.empty c))
  | sortedMapCall {m m' : SortedMap κ ν} (call : SortedMap.Call κ ν) :
      .sortedMap m ∈ store → call.run m = .ok m' → Makes store (.sortedMap m')
  | sortedMapHashed {m : SortedMap κ ν} :
      .sortedMap m ∈ store → Makes store (.sortedMap m.hashed)
  | emptySortedSet (c : Comparator κ) : Makes store (.sortedSet (.empty c))
  | sortedSetCall {s s' : SortedSet κ} (call : SortedSet.Call κ) :
      .sortedSet s ∈ store → call.run s = .ok s' → Makes store (.sortedSet s')
  | sortedSetHashed {s : SortedSet κ} :
      .sortedSet s ∈ store → Makes store (.sortedSet s.hashed)

/-- What was made is put next to the versions that are there, or in the place of one of them. -/
inductive Step : List (Version κ ν) → List (Version κ ν) → Prop
  | beside {store : List (Version κ ν)} {x : Version κ ν} :
      Makes store x → Step store (store ++ [x])
  | inPlace {store : List (Version κ ν)} {x : Version κ ν} (i : Nat) :
      Makes store x → Step store (store.set i x)

/-- The stores that steps lead to, from the one in which nothing is held. -/
def Reached (store : List (Version κ ν)) : Prop := Relation.ReflTransGen Step [] store

/-- A version that some steps lead to. -/
def Arises (x : Version κ ν) : Prop := ∃ store, Reached store ∧ x ∈ store

section

variable {store store' : List (Version κ ν)} {x : Version κ ν} {P : Version κ ν → Prop}

/-- After a step every version has a property, if what can be made has it. -/
theorem Step.forall_mem (h : Step store store') (hMakes : ∀ x, Makes store x → P x)
    (hs : ∀ x ∈ store, P x) : ∀ x ∈ store', P x := by
  cases h with
  | beside hNew =>
    intro x hx
    rcases List.mem_append.mp hx with hx | hx
    · exact hs x hx
    · rw [List.mem_singleton.mp hx]
      exact hMakes _ hNew
  | inPlace i hNew =>
    intro x hx
    rcases List.mem_or_eq_of_mem_set hx with hx | rfl
    · exact hs x hx
    · exact hMakes _ hNew

/-- A property that goes over to whatever is made holds in every store that can be reached. -/
theorem Reached.forall_mem
    (hMakes : ∀ store : List (Version κ ν), (∀ y ∈ store, P y) → ∀ x, Makes store x → P x)
    (h : Reached store) : ∀ x ∈ store, P x := by
  induction h with
  | refl =>
    intro x hx
    cases hx
  | tail _ hStep ih => exact hStep.forall_mem (hMakes _ ih) ih

theorem Arises.elim
    (hMakes : ∀ store : List (Version κ ν), (∀ y ∈ store, P y) → ∀ x, Makes store x → P x)
    (h : Arises x) : P x := by
  obtain ⟨store, hReached, hx⟩ := h
  exact hReached.forall_mem hMakes x hx

theorem Makes.arises (hMakes : Makes store x) (h : Reached store) : Arises x :=
  ⟨store ++ [x], h.tail (.beside hMakes), List.mem_append_right _ (List.mem_singleton_self x)⟩

/-! ## Sequences -/

/-- A vector or a window has the elements of a list, and what it keeps of hashes is up to date. -/
def Version.Sequential : Version κ ν → Prop
  | .vector held => (∃ l, TrieVector.Holds held.content l) ∧ held.content.Fresh
  | .window w => (∃ l, w.Denotes l) ∧ w.Fresh
  | _ => True

/-- Vectors and windows are made of vectors and windows only, so they need no law of the keys. -/
theorem Makes.sequential (h : Makes store x) (hs : ∀ y ∈ store, y.Sequential) :
    x.Sequential := by
  cases h with
  | copy hx => exact hs _ hx
  | emptyVector => exact ⟨⟨[], TrieVector.holds_empty⟩, TrieVector.Fresh.of_cache rfl⟩
  | vectorCall call hx hYields =>
    obtain ⟨⟨l, hl⟩, hf⟩ := hs _ hx
    obtain ⟨held, hRun, h'⟩ := call.run_holds hl
    cases (hYields.unique hRun).2
    exact ⟨⟨_, h'⟩, (call.run_fresh hf).of_yields hYields⟩
  | vectorHashed hx hv =>
    obtain ⟨⟨l, hl⟩, hf⟩ := hs _ hx
    obtain ⟨hl', hf'⟩ := TrieVector.Holds.hashed hl hf hv
    exact ⟨⟨l, hl'⟩, hf'⟩
  | window start stop hx hw =>
    obtain ⟨⟨l, hl⟩, hf⟩ := hs _ hx
    exact ⟨⟨_, TrieVector.Holds.denotes_of_window hl hw⟩, TrieVector.Window.fresh_of_window hf hw⟩
  | windowCall call hx hYields =>
    obtain ⟨⟨l, hl⟩, hf⟩ := hs _ hx
    exact ⟨⟨_, ((call.run_denotes hl).ensures.of_yields hYields).2⟩,
      (call.run_fresh hf).of_yields hYields⟩
  | windowHashed hx hw =>
    obtain ⟨⟨l, hl⟩, hf⟩ := hs _ hx
    obtain ⟨hl', hf'⟩ := hl.hashed hf hw
    exact ⟨⟨l, hl'⟩, hf'⟩
  | toVector hx hYields =>
    obtain ⟨⟨l, hl⟩, -⟩ := hs _ hx
    exact ⟨⟨l, hl.toVector.ensures.of_yields hYields⟩,
      (TrieVector.Window.toVector_fresh _).of_yields hYields⟩
  | _ => trivial

theorem Arises.sequential (h : Arises x) : x.Sequential :=
  h.elim fun _ hs _ hMakes => hMakes.sequential hs

/-- Every list is that of some vector. -/
theorem exists_vector (ν : Type) [HashCode ν] (l : List κ) :
    ∃ v, Arises (.vector (s := .frozen) v : Version κ ν) ∧ TrieVector.Holds v l := by
  induction l using List.reverseRecOn with
  | nil =>
    have hNew : Makes ([] : List (Version κ ν)) (.vector (s := .frozen) .empty) := .emptyVector
    exact ⟨.empty, hNew.arises .refl, TrieVector.holds_empty⟩
  | append_singleton l x ih =>
    obtain ⟨v, ⟨store, hReached, hv⟩, hl⟩ := ih
    have hl : TrieVector.Holds (TrieVector.Held.content (s := .frozen) v) l := hl
    obtain ⟨v', hYields, hl'⟩ := (TrieVector.Call.push x).run_holds hl
    exact ⟨v', (Makes.vectorCall _ hv hYields).arises hReached, hl'⟩

end

/-! ## The invariant -/

section Sound

/-- The hashes that a version keeps are those of its present contents. -/
def Version.Fresh : Version κ ν → Prop
  | .vector held => held.content.Fresh
  | .window w => w.Fresh
  | .hashMap held => held.content.Fresh
  | .hashSet held => held.Fresh
  | .sortedMap m => m.Fresh
  | .sortedSet s => s.Fresh ∧ s.map.Fresh

variable [LawfulHashCode κ]

/-- A version has the contents of a reference. For the sorted collections the hashes do not need
that. -/
def Version.Intact : Version κ ν → Prop
  | .vector held => ∃ l, TrieVector.Holds held.content l
  | .window w => ∃ l, w.Denotes l
  | .hashMap held => ∃ f, HashTrieMap.Models held.content f
  | .hashSet held => ∃ e, HashTrieSet.Holds held.content e
  | .sortedMap _ => True
  | .sortedSet _ => True

/-- The invariant of a version. -/
structure Version.Sound (x : Version κ ν) : Prop where
  intact : x.Intact
  fresh : x.Fresh

variable {store store' : List (Version κ ν)} {x : Version κ ν}

/-- What is made of sound versions is sound. -/
theorem Makes.sound (h : Makes store x) (hs : ∀ y ∈ store, y.Sound) : x.Sound := by
  have hSequential : ∀ y ∈ store, y.Sequential := by
    intro y hy
    obtain ⟨hIntact, hFresh⟩ := hs y hy
    cases y with
    | vector | window => exact ⟨hIntact, hFresh⟩
    | _ => trivial
  have hNew := h.sequential hSequential
  cases h with
  | copy hx => exact hs _ hx
  | emptyVector | vectorCall | vectorHashed | window | windowCall | windowHashed | toVector =>
    exact ⟨hNew.1, hNew.2⟩
  | emptyMap => exact ⟨⟨∅, HashTrieMap.models_empty⟩, HashTrieMap.Fresh.of_cache rfl⟩
  | mapCall call hx hYields =>
    obtain ⟨⟨f, hm⟩, hf⟩ := hs _ hx
    exact ⟨⟨_, ((call.run_models hm).ensures.of_yields hYields).2⟩,
      (call.run_fresh hm.wellFormed hf).of_yields hYields⟩
  | merge hx hy hYields =>
    obtain ⟨⟨f, hm⟩, hf⟩ := hs _ hx
    obtain ⟨⟨g, hother⟩, -⟩ := hs _ hy
    exact ⟨⟨_, (HashTrieMap.Models.merge hm hother).ensures.of_yields hYields⟩,
      (HashTrieMap.Fresh.merge hf _).of_yields hYields⟩
  | selectKeys keys hx hYields =>
    obtain ⟨⟨f, hm⟩, -⟩ := hs _ hx
    obtain ⟨f', hm', -⟩ := (HashTrieMap.Models.selectKeys hm keys).ensures.of_yields hYields
    exact ⟨⟨f', hm'⟩, (HashTrieMap.selectKeys_fresh _ keys).of_yields hYields⟩
  | mapStamped stamp hx =>
    obtain ⟨⟨f, hm⟩, hf⟩ := hs _ hx
    exact ⟨⟨f, HashTrieMap.Models.stamped hm stamp⟩, HashTrieMap.Fresh.stamped hf stamp⟩
  | mapHashed hx =>
    obtain ⟨⟨f, hm⟩, hf⟩ := hs _ hx
    exact ⟨⟨f, HashTrieMap.Models.hashed hm⟩, HashTrieMap.Fresh.hashed hf⟩
  | emptySet =>
    exact ⟨⟨∅, HashTrieSet.holds_empty⟩,
      HashTrieSet.fresh_ofMap (HashTrieMap.Fresh.of_cache rfl)⟩
  | emptyTransientSet => exact ⟨⟨∅, HashTrieSet.holds_empty⟩, HashTrieMap.Fresh.of_cache rfl⟩
  | setCall call hx hYields =>
    obtain ⟨⟨e, he⟩, hf⟩ := hs _ hx
    exact ⟨⟨_, ((call.run_holds he).ensures.of_yields hYields).2⟩,
      (call.run_fresh he.wellFormed hf).of_yields hYields⟩
  | union hx hy hYields =>
    obtain ⟨⟨e, he⟩, hf⟩ := hs _ hx
    obtain ⟨⟨e', he'⟩, hf'⟩ := hs _ hy
    exact ⟨⟨_, (he.union he').ensures.of_yields hYields⟩,
      (HashTrieSet.Fresh.union hf hf').of_yields hYields⟩
  | intersection hx hy hYields =>
    obtain ⟨⟨e, he⟩, -⟩ := hs _ hx
    obtain ⟨⟨e', he'⟩, -⟩ := hs _ hy
    exact ⟨⟨_, (he.intersection he').ensures.of_yields hYields⟩,
      (HashTrieSet.intersection_fresh _ _).of_yields hYields⟩
  | difference hx hy hYields =>
    obtain ⟨⟨e, he⟩, hf⟩ := hs _ hx
    obtain ⟨⟨e', he'⟩, -⟩ := hs _ hy
    exact ⟨⟨_, (he.difference he').ensures.of_yields hYields⟩,
      (HashTrieSet.Fresh.difference hf he _).of_yields hYields⟩
  | setStamped stamp hx =>
    obtain ⟨⟨e, he⟩, hf⟩ := hs _ hx
    exact ⟨⟨e, he.stamped stamp⟩, HashTrieSet.Fresh.stamped hf stamp⟩
  | setHashed hx =>
    obtain ⟨⟨e, he⟩, hf⟩ := hs _ hx
    exact ⟨⟨e, he⟩, HashTrieSet.Fresh.hashed hf⟩
  | emptySortedMap c => exact ⟨trivial, SortedMap.Fresh.of_cache rfl⟩
  | sortedMapCall call hx hRun => exact ⟨trivial, call.run_fresh (hs _ hx).fresh hRun⟩
  | sortedMapHashed hx => exact ⟨trivial, SortedMap.Fresh.hashed (hs _ hx).fresh⟩
  | emptySortedSet c =>
    exact ⟨trivial, SortedSet.fresh_ofMap _, SortedMap.Fresh.of_cache rfl⟩
  | sortedSetCall call hx hRun =>
    obtain ⟨-, hf, hMap⟩ := hs _ hx
    exact ⟨trivial, call.run_fresh hf hMap hRun⟩
  | sortedSetHashed hx =>
    obtain ⟨-, hf, hMap⟩ := hs _ hx
    exact ⟨trivial, hf.hashed, hMap⟩

/-- Every version in a store that can be reached is sound. -/
theorem Reached.sound (h : Reached store) : ∀ x ∈ store, x.Sound :=
  h.forall_mem fun _ hs _ hMakes => hMakes.sound hs

/-! ## Hashes are never out of date -/

section Transparent

variable [BEq ν]

/-- What a store keeps of hashes cannot be observed: it is up to date, and so is each answer, and
equality of hash maps is the same whichever of the two hashes have been asked for. -/
structure Transparent (store : List (Version κ ν)) : Prop where
  kept : ∀ x ∈ store, x.Fresh
  vector : ∀ v, .vector (s := .frozen) v ∈ store → ∃ h, v.contentHash = .ok h ∧ v.hash = .ok h
  window : ∀ w, .window w ∈ store → ∃ h, w.contentHash = .ok h ∧ w.hash = .ok h
  hashMap : ∀ m, .hashMap (s := .frozen) m ∈ store → HashTrieMap.hash m = m.contentHash
  hashSet : ∀ s, .hashSet (s := .frozen) s ∈ store → HashTrieSet.hash s = s.contentHash
  sortedMap : ∀ m, .sortedMap m ∈ store → m.hash = m.contentHash
  sortedSet : ∀ s, .sortedSet s ∈ store → s.hash = s.contentHash
  equals : ∀ a b, .hashMap (s := .frozen) a ∈ store → .hashMap (s := .frozen) b ∈ store →
    ∀ c c' : Option UInt32, (∀ h ∈ c, h = a.contentHash) → (∀ h ∈ c', h = b.contentHash) →
      HashTrieMap.equals { a with cache := c } { b with cache := c' } = HashTrieMap.equals a b

variable [EquivBEq ν]

/-- Whatever is made, kept, written over and asked for, in whichever order. -/
theorem reached_transparent (hValues : ∀ v w : ν, (v == w) = true → hashCode v = hashCode w)
    (h : Reached store) : Transparent store where
  kept x hx := (h.sound x hx).fresh
  vector v hv := by
    obtain ⟨⟨l, hl⟩, hf⟩ := h.sound _ hv
    have hContent : v.contentHash = _ := TrieVector.Holds.contentHash_eq hl
    exact ⟨_, hContent, (TrieVector.Fresh.hash_eq hf).trans hContent⟩
  window w hw := by
    obtain ⟨⟨l, hl⟩, hf⟩ := h.sound _ hw
    exact ⟨_, hl.contentHash_eq, hf.hash_eq.trans hl.contentHash_eq⟩
  hashMap m hm := HashTrieMap.Fresh.hash_eq (h.sound _ hm).fresh
  hashSet s hs := HashTrieSet.Fresh.hash_eq (h.sound _ hs).fresh
  sortedMap m hm := SortedMap.Fresh.hash_eq (h.sound _ hm).fresh
  sortedSet s hs := SortedSet.Fresh.hash_eq (h.sound _ hs).fresh.1
  equals a b ha hb c c' hc hc' := by
    obtain ⟨⟨f, hma⟩, hfa⟩ := h.sound _ ha
    obtain ⟨⟨g, hmb⟩, hfb⟩ := h.sound _ hb
    exact HashTrieMap.equals_of_caches hma.wellFormed hmb.wellFormed hfa hfb hValues hc hc'

end Transparent

/-! ## Versions that arise -/

theorem Arises.sound (h : Arises x) : x.Sound :=
  h.elim fun _ hs _ hMakes => hMakes.sound hs

/-- A history of a hash map is one of a store. -/
theorem Arises.run {s t : Mode} (calls : HashTrieMap.Calls κ ν s t) {held : HashTrieMap.Held κ ν s}
    (h : Arises (.hashMap held)) :
    Succeeds (calls.run held) fun r => Arises (.hashMap r.2) := by
  induction calls with
  | nil => exact succeeds_pure h
  | cons call calls ih =>
    obtain ⟨⟨f, hm⟩, -⟩ := h.sound
    obtain ⟨store, hReached, hx⟩ := h
    obtain ⟨es, r, hYields, -⟩ := call.run_models hm
    obtain ⟨fs, r', hYields', h'⟩ := ih ((Makes.mapCall call hx hYields).arises hReached)
    exact ⟨_, _, hYields.bind (hYields'.bind (yields_pure _)), h'⟩

/-- What a history makes of the empty map arises, and is the reference of that history. -/
theorem exists_arises (calls : HashTrieMap.Calls κ ν .frozen .frozen) :
    ∃ m : HashTrieMap κ ν, Arises (.hashMap (s := .frozen) m) ∧
      HashTrieMap.Models m (calls.reference ∅).2 := by
  have hEmpty : Arises (.hashMap (s := .frozen) .empty : Version κ ν) :=
    Makes.emptyMap.arises .refl
  have hModels : HashTrieMap.Models (HashTrieMap.Held.content (s := .frozen)
      (HashTrieMap.empty : HashTrieMap κ ν)) ∅ := HashTrieMap.models_empty
  obtain ⟨es, r, hYields, hArises⟩ := hEmpty.run calls
  exact ⟨r.2, hArises, ((calls.run_models hModels).ensures.of_yields hYields).2⟩

end Sound

/-- A map that keeps its hash, a map that was made of it, and a sorted set that keeps its hash. -/
theorem reached_transparent_mapsAndSet :
    (∀ v w : Int64, (v == w) = true → hashCode v = hashCode w) ∧
    ∃ m m' : HashTrieMap Int64 Int64, ∃ s : SortedSet Int64, ∃ store : List (Version Int64 Int64),
      store = [.hashMap (s := .frozen) m.hashed, .hashMap (s := .frozen) m',
        .sortedSet s.hashed] ∧
      m.size = 1 ∧ m'.size = 2 ∧ s.size = 1 ∧ Reached store ∧ Transparent store := by
  have hValues : ∀ v w : Int64, (v == w) = true → hashCode v = hashCode w :=
    fun _ _ h => LawfulHashCode.hashCode_eq h
  have hEmpty : Reached [(.hashMap (s := .frozen) .empty : Version Int64 Int64)] :=
    .single (.beside .emptyMap)
  have hModelsEmpty : HashTrieMap.Models (HashTrieMap.Held.content (s := .frozen)
      (HashTrieMap.empty : HashTrieMap Int64 Int64)) ∅ := HashTrieMap.models_empty
  obtain ⟨es, ⟨answers, m⟩, hYields, -, hm⟩ :=
    (HashTrieMap.Call.insert (1 : Int64) (5 : Int64)).run_models hModelsEmpty
  have hMap := hEmpty.tail (.inPlace 0 (.mapCall _ (List.mem_singleton_self _) hYields))
  have hHashed := hMap.tail (.inPlace 0 (.mapHashed (List.mem_singleton_self _)))
  have hModels : HashTrieMap.Models (HashTrieMap.Held.content (s := .frozen) m.hashed) _ :=
    HashTrieMap.Models.hashed hm
  obtain ⟨es', ⟨answers', m'⟩, hYields', -, hm'⟩ :=
    (HashTrieMap.Call.insert (2 : Int64) (6 : Int64)).run_models hModels
  have hMaps := hHashed.tail (.beside (.mapCall _ (List.mem_singleton_self _) hYields'))
  have hSet := hMaps.tail (.beside (.emptySortedSet .natural))
  have hInsert := hSet.tail (.inPlace 2 (.sortedSetCall (.insert 7)
    (List.mem_append_right _ (List.mem_singleton_self _)) rfl))
  have hStore := hInsert.tail (.inPlace 2 (.sortedSetHashed (List.mem_of_getElem? (i := 2) rfl)))
  exact ⟨hValues, m, m', _, _, rfl, hm.agrees.size, hm'.agrees.size, rfl, hStore,
    reached_transparent hValues hStore⟩

end PersistentCollections
