import PersistentCollections.Proofs.TrieVector.Window

/-!
# Kept hashes of vectors and windows

A vector keeps its hash once that was asked for, and hands it on to its copies. A change either
drops the hash or leaves the vector as it is, so a kept hash is always that of the elements
(`Call.run_fresh`, `Window.Call.run_fresh`). A window keeps a hash of its own, besides that of its
backing vector, which a change of the window may leave in place.
-/

namespace PersistentCollections.TrieVector

variable {α : Type} {v v' : TrieVector α} {l : List α}

/-! ## Changes drop the hash -/

theorem push_cache (v : TrieVector α) (x : α) : Ensures (v.push x) fun v' => v'.cache = none := by
  unfold push
  split
  · split
    · exact ensures_pure rfl
    · exact ensures_lift fun _ h => nomatch h
  · split
    · exact (ensures_true _).bind fun _ _ => ensures_pure rfl
    · exact (ensures_true _).bind fun _ _ => ensures_pure rfl

theorem overwrite_cache {index : Nat} {x : α} (h : v.overwrite index x = .ok v') :
    v'.cache = none := by
  unfold overwrite at h
  split at h
  · split at h
    · cases h
      rfl
    · cases h
  · obtain ⟨root, -, h⟩ := Result.bind_eq_ok.mp h
    cases h
    rfl

theorem put_cache (v : TrieVector α) (index : Nat) (x : α) :
    Ensures (v.put index x) fun v' => v'.cache = none := by
  unfold put
  split
  · exact ensures_lift fun _ h => overwrite_cache h
  · split
    · exact push_cache v x
    · exact ensures_throw _

theorem pop_cache (h : v.pop = .ok v') : v'.cache = none := by
  unfold pop at h
  split at h
  · cases h
  · split at h
    · cases h
      rfl
    · split at h
      · cases h
        rfl
      · obtain ⟨tail, -, h⟩ := Result.bind_eq_ok.mp h
        obtain ⟨root, -, h⟩ := Result.bind_eq_ok.mp h
        obtain ⟨p, -, h⟩ := Result.bind_eq_ok.mp h
        cases h
        rfl

/-! ## Vectors -/

section Vectors

variable [HashCode α]

/-- A kept hash is that of the elements. -/
def Fresh (v : TrieVector α) : Prop := ∀ h ∈ v.cache, v.contentHash = .ok h

theorem Fresh.of_cache (h : v.cache = none) : v.Fresh := by
  intro k hk
  rw [h] at hk
  cases hk

theorem Fresh.hash_eq (h : v.Fresh) : v.hash = v.contentHash := by
  unfold hash
  split
  · next k hCache => exact (h k hCache).symm
  · rfl

theorem Holds.contentHash_eq (h : Holds v l) :
    v.contentHash = .ok (Hash.ordered (l.map hashCode)) := by
  rw [contentHash, h.toList_eq]
  rfl

omit [HashCode α] in
theorem Holds.of_cache (h : Holds v l) (cache : Option UInt32) : Holds { v with cache } l := by
  obtain ⟨ls, hLayout, hItems⟩ := h
  exact ⟨ls, ⟨hLayout.root, hLayout.size, hLayout.full, hLayout.room, hLayout.tail, hLayout.shift⟩,
    hItems⟩

/-- Asking for the hash changes nothing but what is kept. -/
theorem Holds.hashed (h : Holds v l) (hf : v.Fresh) (hv : v.hashed = .ok v') :
    Holds v' l ∧ v'.Fresh := by
  obtain ⟨k, hk, hv⟩ := Result.bind_eq_ok.mp hv
  cases hv
  have h' := h.of_cache (some k)
  refine ⟨h', ?_⟩
  intro k' hk'
  cases hk'
  rw [h'.contentHash_eq, ← h.contentHash_eq, ← hf.hash_eq, hk]

theorem Held.push_fresh {s : Mode} (held : Held α s) (x : α) :
    Ensures (held.push x) fun held' => held'.content.Fresh := by
  cases s with
  | frozen => exact (push_cache held x).mono fun _ => Fresh.of_cache
  | building => exact (push_cache held.content x).bind fun _ h => ensures_pure (Fresh.of_cache h)

theorem Held.put_fresh {s : Mode} (held : Held α s) (index : Nat) (x : α) :
    Ensures (held.put index x) fun held' => held'.content.Fresh := by
  cases s with
  | frozen => exact (put_cache held index x).mono fun _ => Fresh.of_cache
  | building =>
    exact (put_cache held.content index x).bind fun _ h => ensures_pure (Fresh.of_cache h)

theorem Held.pop_fresh {s : Mode} {held held' : Held α s} (h : held.pop = .ok held') :
    held'.content.Fresh := by
  cases s with
  | frozen => exact Fresh.of_cache (pop_cache h)
  | building =>
    obtain ⟨v, hPop, hv⟩ := Result.bind_eq_ok.mp h
    cases hv
    exact Fresh.of_cache (pop_cache hPop)

/-- Appending no elements leaves a vector as it is. -/
theorem Fresh.extend (h : v.Fresh) (xs : List α) : Ensures (v.extend xs) fun v' => v'.Fresh :=
  ensures_foldlM (fun v x _ => (push_cache v x).mono fun _ => Fresh.of_cache) xs h

/-- A call leads to a hash that is fresh, or to none. -/
theorem Call.run_fresh {s t : Mode} (call : Call α s t) {held : Held α s}
    (h : held.content.Fresh) : Ensures (call.run held) fun r => r.2.content.Fresh := by
  cases call with
  | push x => exact (Held.push_fresh held x).bind fun _ h' => ensures_pure h'
  | put index x => exact (Held.put_fresh held index x).attempt h
  | pop => exact (ensures_lift fun _ hPop => Held.pop_fresh hPop).attempt h
  | extend xs =>
    have hExtend : Ensures (Transient.extend held xs) fun t => t.vector.Fresh :=
      (Fresh.extend h xs).bind fun _ h' => ensures_pure h'
    exact hExtend.bind fun _ h' => ensures_pure h'
  | transient => exact ensures_pure h
  | freeze =>
    have hFreeze : Ensures (Transient.freeze held) fun v => v.Fresh :=
      (ensures_true _).bind fun _ _ => ensures_pure h
    exact hFreeze.bind fun _ h' => ensures_pure h'

theorem ofList_fresh (xs : List α) : Ensures (ofList xs) fun v => v.Fresh := by
  have hEmpty : (empty : TrieVector α).Fresh := Fresh.of_cache rfl
  have hExtend : Ensures (Transient.empty.extend xs) fun t => t.vector.Fresh :=
    (hEmpty.extend xs).bind fun _ h => ensures_pure h
  exact hExtend.bind fun _ h => (ensures_true _).bind fun _ _ => ensures_pure h

end Vectors

/-! ## Windows -/

namespace Window

variable [HashCode α] {w w' : Window α}

/-- The hashes that a window and its backing vector keep are those of their elements. -/
structure Fresh (w : Window α) : Prop where
  own : ∀ h ∈ w.cache, w.contentHash = .ok h
  backing : w.backing.Fresh

theorem Fresh.of_cache (hCache : w.cache = none) (h : w.backing.Fresh) : w.Fresh := by
  refine ⟨?_, h⟩
  intro k hk
  rw [hCache] at hk
  cases hk

theorem Fresh.hash_eq (h : w.Fresh) : w.hash = w.contentHash := by
  unfold hash
  split
  · next k hCache => exact (h.own k hCache).symm
  · rfl

theorem Denotes.contentHash_eq (h : w.Denotes l) :
    w.contentHash = .ok (Hash.ordered (l.map hashCode)) := by
  rw [contentHash, h.toList_eq]
  rfl

theorem Denotes.hashed (h : w.Denotes l) (hf : w.Fresh) (hw : w.hashed = .ok w') :
    w'.Denotes l ∧ w'.Fresh := by
  obtain ⟨k, hk, hw⟩ := Result.bind_eq_ok.mp hw
  cases hw
  refine ⟨h, ?_, hf.backing⟩
  intro k' hk'
  cases hk'
  rw [← hk, hf.hash_eq]
  rfl

/-- A window onto a vector shares what the vector keeps, and keeps nothing of its own. -/
theorem fresh_of_window {start stop : Nat} (h : v.Fresh) (hw : v.window start stop = .ok w) :
    w.Fresh := by
  unfold TrieVector.window at hw
  split at hw
  · cases hw
    exact Fresh.of_cache rfl h
  · cases hw

theorem push_fresh (w : Window α) (x : α) : Ensures (w.push x) fun w' => w'.Fresh := by
  unfold Window.push
  have hNew : ∀ v : TrieVector α, v.cache = none → Fresh ⟨v, w.start, w.stop + 1, none⟩ :=
    fun v hv => Fresh.of_cache rfl (TrieVector.Fresh.of_cache hv)
  split
  · exact (push_cache w.backing x).bind fun v hv => ensures_pure (hNew v hv)
  · exact (ensures_lift fun _ h => overwrite_cache h).bind fun v hv => ensures_pure (hNew v hv)

theorem put_fresh (w : Window α) (index : Nat) (x : α) :
    Ensures (w.put index x) fun w' => w'.Fresh := by
  unfold put
  split
  · exact push_fresh w x
  · split
    · exact ensures_throw _
    · refine (ensures_lift fun _ h => overwrite_cache h).bind fun v hv => ensures_pure ?_
      exact Fresh.of_cache rfl (TrieVector.Fresh.of_cache hv)

/-- A call leads to hashes that are fresh, or to none. -/
theorem Call.run_fresh (call : Call α) (h : w.Fresh) :
    Ensures (call.run w) fun r => r.2.Fresh := by
  cases call with
  | window start stop =>
    apply Ensures.attempt (ensures_lift ?_) h
    intro w' hw'
    unfold Window.window at hw'
    split at hw'
    · exact fresh_of_window h.backing hw'
    · cases hw'
  | push x => exact (push_fresh w x).bind fun _ h' => ensures_pure h'
  | put index x => exact (put_fresh w index x).attempt h
  | pop =>
    apply Ensures.attempt (ensures_lift ?_) h
    intro w' hw'
    unfold Window.pop at hw'
    split at hw'
    · cases hw'
    · cases hw'
      exact Fresh.of_cache rfl h.backing

theorem toVector_fresh (w : Window α) : Ensures w.toVector fun v => v.Fresh :=
  (ensures_true _).bind fun xs _ => ofList_fresh xs

end Window

end PersistentCollections.TrieVector
