import Mathlib.Data.List.Forall2
import PersistentCollections.Bench.Run
import PersistentCollections.Proofs.Bench.Selection

/-!
# The verdict of a run

A run takes the selected workloads through all rounds. If in every round the selected workloads of
each family give the same checksum, it ends with one record for each of them; otherwise it stops at
the first workload that differs from the first selected one of its family, `leader`.

`Midway` is the invariant within a round: the expectations are those of the leaders so far, all
workloads so far agree with their leaders, and the records are those of this round up to here and
of the round before from here on. `Midway.agree` and `Midway.note` are the two halves of one step,
`ends_runRound` takes it through a round and `ends_runRounds` through all of them.
-/

namespace PersistentCollections.Bench

/-- A stopwatch that reads a clock. What it reads may depend on all that went before. -/
def Stopwatch.ofClock {σ : Type} (clock : Workload → Input → StateM σ Float) :
    Stopwatch (StateM σ) := fun w input => do
  let time ← clock w input
  return (w.run input, time)

/-- How a computation ends if the clock starts from a state. -/
def outcome {σ α : Type} (x : ExceptT Failure (StateM σ) α) (s : σ) : Except Failure α :=
  (x.run.run s).run.1

/-- Whatever the clock shows, the value has one property, or the failure has the other. -/
def Ends {σ α : Type} (x : ExceptT Failure (StateM σ) α) (P : α → Prop) (F : Failure → Prop) :
    Prop :=
  ∀ s, (∃ a, outcome x s = .ok a ∧ P a) ∨ ∃ e, outcome x s = .error e ∧ F e

section

variable {σ α β : Type} {x : ExceptT Failure (StateM σ) α} {P : α → Prop} {F : Failure → Prop}

theorem ends_pure {a : α} (h : P a) : Ends (pure a : ExceptT Failure (StateM σ) α) P F :=
  fun _ => Or.inl ⟨a, rfl, h⟩

theorem ends_lift {r : Except Failure α} (h : (∃ a, r = .ok a ∧ P a) ∨ ∃ e, r = .error e ∧ F e) :
    Ends (liftM r : ExceptT Failure (StateM σ) α) P F := by
  intro s
  rcases h with ⟨a, rfl, ha⟩ | ⟨e, rfl, he⟩
  · exact Or.inl ⟨a, rfl, ha⟩
  · exact Or.inr ⟨e, rfl, he⟩

theorem Ends.bind {f : α → ExceptT Failure (StateM σ) β} {Q : β → Prop} (hx : Ends x P F)
    (hf : ∀ a, P a → Ends (f a) Q F) : Ends (x >>= f) Q F := by
  intro s
  have hRun : (x >>= f) s = ExceptT.bindCont f (x s).1 (x s).2 := rfl
  have hEnds : (∃ a, (x s).1 = .ok a ∧ P a) ∨ ∃ e, (x s).1 = .error e ∧ F e := hx s
  show (∃ b, ((x >>= f) s).1 = .ok b ∧ Q b) ∨ ∃ e, ((x >>= f) s).1 = .error e ∧ F e
  rw [hRun]
  rcases hEnds with ⟨a, hOk, ha⟩ | ⟨e, hError, he⟩
  · rw [hOk]
    exact hf a ha (x s).2
  · rw [hError]
    exact Or.inr ⟨e, rfl, he⟩

theorem Ends.mono {P' : α → Prop} {F' : Failure → Prop} (hx : Ends x P F)
    (hP : ∀ a, P a → P' a) (hF : ∀ e, F e → F' e) : Ends x P' F' := by
  intro s
  rcases hx s with ⟨a, hOk, ha⟩ | ⟨e, hError, he⟩
  · exact Or.inl ⟨a, hOk, hP a ha⟩
  · exact Or.inr ⟨e, hError, hF e he⟩

theorem Ends.of_ok (hx : Ends x P F) {s : σ} {a : α} (h : outcome x s = .ok a) : P a := by
  rcases hx s with ⟨a', hOk, ha⟩ | ⟨e, hError, -⟩
  · cases h.symm.trans hOk
    exact ha
  · cases h.symm.trans hError

theorem Ends.of_error (hx : Ends x P F) {s : σ} {e : Failure} (h : outcome x s = .error e) :
    F e := by
  rcases hx s with ⟨a, hOk, -⟩ | ⟨e', hError, he⟩
  · cases h.symm.trans hOk
  · cases h.symm.trans hError
    exact he

/-- If success means that something holds and failure that it does not, it decides the end. -/
theorem Ends.ok_iff {Q : Prop} (hx : Ends x P F) (hP : ∀ a, P a → Q) (hF : ∀ e, F e → ¬ Q)
    (s : σ) : (∃ a, outcome x s = .ok a) ↔ Q := by
  constructor
  · rintro ⟨a, hOk⟩
    exact hP a (hx.of_ok hOk)
  · intro hQ
    rcases hx s with ⟨a, hOk, -⟩ | ⟨e, -, he⟩
    · exact ⟨a, hOk⟩
    · exact (hF e he hQ).elim

/-- A fold follows an invariant along the list, with what is done and what is left. -/
theorem ends_foldlM {γ : Type} {g : α → γ → ExceptT Failure (StateM σ) α}
    {I : List γ → List γ → α → Prop} {all : List γ}
    (hStep : ∀ before c after a, all = before ++ c :: after → I before (c :: after) a →
      Ends (g a c) (I (before ++ [c]) after) F) {before after : List γ} {a : α}
    (hAll : all = before ++ after) (ha : I before after a) :
    Ends (after.foldlM g a) (I all []) F := by
  induction after generalizing before a with
  | nil =>
    rw [List.append_nil] at hAll
    subst hAll
    exact ends_pure ha
  | cons c after ih =>
    rw [List.foldlM_cons]
    apply (hStep before c after a hAll ha).bind
    intro a' ha'
    apply ih _ ha'
    rw [hAll, List.append_assoc]
    rfl

end

/-! ## Leaders -/

/-- The first workload of a family. -/
def leader (selected : List Workload) (family : Family) : Option Workload :=
  selected.find? fun v => v.family == family

theorem leader_append (before after : List Workload) (family : Family) :
    leader (before ++ after) family = (leader before family).or (leader after family) :=
  List.find?_append

theorem leader_cons_self (w : Workload) (after : List Workload) :
    leader (w :: after) w.family = some w :=
  List.find?_cons_of_pos (p := fun v : Workload => v.family == w.family) (beq_self_eq_true _)

theorem leader_singleton_of_ne {w : Workload} {family : Family} (h : w.family ≠ family) :
    leader [w] family = none :=
  List.find?_cons_of_neg (p := fun v : Workload => v.family == family)
    fun hEq => h (beq_iff_eq.mp hEq)

theorem leader_family {selected : List Workload} {family : Family} {v : Workload}
    (h : leader selected family = some v) : v ∈ selected ∧ v.family = family :=
  ⟨List.mem_of_find?_eq_some h,
    beq_iff_eq.mp (List.find?_some (p := fun v : Workload => v.family == family) h)⟩

/-- The expectations of a round are the checksums of the leaders so far. -/
def Expects (checksum : Workload → Input → Checksum) (input : Input) (before : List Workload)
    (expected : List Expectation) : Prop :=
  ∀ family, expected.find? (fun e => e.family == family) =
    (leader before family).map fun v => ⟨v.family, v.name, checksum v input⟩

section

variable {checksum : Workload → Input → Checksum} {input : Input} {before : List Workload}
  {expected : List Expectation} {w : Workload}

/-- The first workload of its family is what the others are checked against. -/
theorem Expects.add (h : Expects checksum input before expected)
    (hFirst : leader before w.family = none) :
    Expects checksum input (before ++ [w])
      (expected ++ [⟨w.family, w.name, checksum w input⟩]) := by
  intro family
  rw [List.find?_append, h, leader_append]
  by_cases hFamily : w.family = family
  · subst hFamily
    rw [hFirst, leader_cons_self, List.find?_singleton, if_pos (beq_self_eq_true _)]
    rfl
  · rw [leader_singleton_of_ne hFamily, Option.or_none, List.find?_singleton,
      if_neg (fun hEq => hFamily (beq_iff_eq.mp hEq)), Option.or_none]

/-- Another workload of a family changes nothing. -/
theorem Expects.skip (h : Expects checksum input before expected) {v : Workload}
    (hFirst : leader before w.family = some v) :
    Expects checksum input (before ++ [w]) expected := by
  intro family
  rw [h, leader_append]
  by_cases hFamily : w.family = family
  · subst hFamily
    rw [hFirst]
    rfl
  · rw [leader_singleton_of_ne hFamily, Option.or_none]

end

/-! ## What a run decides -/

section

variable (checksum : Workload → Input → Checksum) (options : Options) (selected : List Workload)

/-- A workload gives the checksum of the leader of its family. -/
def FollowsLeader (input : Input) (w : Workload) : Prop :=
  ∀ v, leader selected w.family = some v → checksum w input = checksum v input

/-- In a round, the failure tells of the first workload that differs from its leader. -/
def FirstDifference (round : Nat) (failure : Failure) : Prop :=
  let input := roundInput options round
  ∃ before w after v, selected = before ++ w :: after ∧ leader selected w.family = some v ∧
    checksum w input ≠ checksum v input ∧
    (∀ u ∈ before, FollowsLeader checksum selected input u) ∧
    failure = .disagreement
      ⟨w.name, v.name, checksum w input, checksum v input, input.size, input.seed⟩

/-- The record of a workload after some rounds. -/
structure Recorded (rounds : Nat) (w : Workload) (r : Record) : Prop where
  family : r.family = w.family
  implementation : r.implementation = w.implementation
  size : r.size = options.size
  seed : r.seed = options.seed
  times : r.times.length = rounds
  checksum : r.checksum = checksum w (roundInput options (rounds - 1))

/-- The records of some workloads with their names, in their order. -/
def Records (rounds : Nat) : List Workload → List (String × Record) → Prop :=
  List.Forall₂ fun w r => r.1 = w.name ∧ Recorded checksum options rounds w r.2

/-- What holds within a round, of which `before` is done and `after` is left. -/
structure Midway (round : Nat) (before after : List Workload) (t : Tally) : Prop where
  expected : Expects checksum (roundInput options round) before t.expected
  follows : ∀ w ∈ before, FollowsLeader checksum selected (roundInput options round) w
  records : ∃ done left, t.records = done ++ left ∧
    Records checksum options (round + 1) before done ∧
    (round = 0 ∧ left = [] ∨ 0 < round ∧ Records checksum options round after left)

end

/-! ## One workload -/

section

variable {checksum : Workload → Input → Checksum} {options : Options} {selected : List Workload}
  {round : Nat} {before after : List Workload} {t : Tally} {w : Workload}

/-- The check of a checksum passes if the workload agrees with its leader. -/
theorem Midway.agree (h : Midway checksum options selected round before (w :: after) t)
    (hAll : selected = before ++ w :: after) :
    let input := roundInput options round
    (∃ expected, t.agree input w (checksum w input) = .ok { t with expected := expected } ∧
      Expects checksum input (before ++ [w]) expected ∧
      FollowsLeader checksum selected input w) ∨
    ∃ failure, t.agree input w (checksum w input) = .error failure ∧
      FirstDifference checksum options selected round failure := by
  intro input
  have hFound := h.expected w.family
  unfold Tally.agree
  cases hLeader : leader before w.family with
  | none =>
    rw [hLeader] at hFound
    rw [hFound]
    refine Or.inl ⟨_, rfl, h.expected.add hLeader, ?_⟩
    intro v hv
    rw [hAll, leader_append, hLeader, leader_cons_self] at hv
    cases hv
    rfl
  | some v =>
    have hFirst : leader selected w.family = some v := by
      rw [hAll, leader_append, hLeader]
      rfl
    rw [hLeader] at hFound
    rw [hFound]
    by_cases hSame : checksum v input = checksum w input
    · refine Or.inl ⟨t.expected, if_pos hSame, h.expected.skip hLeader, ?_⟩
      intro v' hv'
      rw [hFirst] at hv'
      cases hv'
      exact hSame.symm
    · exact Or.inr ⟨_, if_neg hSame, before, w, after, v, hAll, hFirst,
        fun hEq => hSame hEq.symm, h.follows, rfl⟩

/-! ## Records -/

theorem Records.names {rounds : Nat} {ws : List Workload} {rs : List (String × Record)}
    (h : Records checksum options rounds ws rs) : rs.map (·.1) = ws.map (·.name) := by
  induction h with
  | nil => rfl
  | cons hFirst _ ih => rw [List.map_cons, List.map_cons, hFirst.1, ih]

/-- Records of workloads with other names have other names. -/
theorem Records.other {rounds : Nat} {ws : List Workload} {rs : List (String × Record)}
    (h : Records checksum options rounds ws rs) (hOther : w.name ∉ ws.map (·.name)) :
    ∀ r ∈ rs, ¬ (r.1 == w.name) = true := by
  intro r hr hEq
  rw [← h.names] at hOther
  exact hOther (List.mem_map.mpr ⟨r, hr, beq_iff_eq.mp hEq⟩)

theorem note_expected (t : Tally) (options : Options) (w : Workload) (sum : Checksum)
    (time : Float) : (t.note options w sum time).expected = t.expected := by
  unfold Tally.note
  split <;> rfl

/-- Without a record of that name, a new one is put at the end. -/
theorem note_new (hOther : ∀ r ∈ t.records, ¬ (r.1 == w.name) = true) (sum : Checksum)
    (time : Float) :
    (t.note options w sum time).records = t.records ++
      [(w.name, ⟨w.family, w.implementation, options.size, options.seed, sum, [time]⟩)] := by
  have hNone : ¬ (t.records.any fun r => r.1 == w.name) = true := by
    rw [List.any_eq_true]
    rintro ⟨r, hr, hEq⟩
    exact hOther r hr hEq
  unfold Tally.note
  rw [if_neg hNone]

/-- The one record of that name is added to in its place. -/
theorem note_present {done left : List (String × Record)} {r : String × Record}
    (hRecords : t.records = done ++ r :: left) (hName : r.1 = w.name)
    (hDone : ∀ r ∈ done, ¬ (r.1 == w.name) = true) (hLeft : ∀ r ∈ left, ¬ (r.1 == w.name) = true)
    (sum : Checksum) (time : Float) :
    (t.note options w sum time).records = done ++ (r.1, Tally.noteIn sum time r.2) :: left := by
  have hSame : (r.1 == w.name) = true := beq_iff_eq.mpr hName
  have hOther : ∀ rs : List (String × Record), (∀ r ∈ rs, ¬ (r.1 == w.name) = true) →
      rs.map (fun r => if r.1 == w.name then (r.1, Tally.noteIn sum time r.2) else r) = rs := by
    intro rs hrs
    rw [List.map_congr_left fun r hr => if_neg (hrs r hr), List.map_id']
  have hSome : (t.records.any fun r => r.1 == w.name) = true := by
    rw [List.any_eq_true, hRecords]
    exact ⟨r, List.mem_append_right done List.mem_cons_self, hSame⟩
  unfold Tally.note
  rw [if_pos hSome]
  show t.records.map _ = _
  rw [hRecords, List.map_append, List.map_cons, hOther done hDone, hOther left hLeft, if_pos hSame]

/-- The first round puts a record at the end, and a later one adds to the record that is next. -/
theorem Midway.note (h : Midway checksum options selected round before (w :: after) t)
    (hNames : ((before ++ w :: after).map (·.name)).Nodup) (expected : List Expectation)
    (time : Float) :
    let t' : Tally := { t with expected := expected }
    ∃ done left,
      (t'.note options w (checksum w (roundInput options round)) time).records = done ++ left ∧
      Records checksum options (round + 1) (before ++ [w]) done ∧
      (round = 0 ∧ left = [] ∨ 0 < round ∧ Records checksum options round after left) := by
  intro t'
  rw [List.map_append, List.map_cons, List.nodup_append, List.nodup_cons] at hNames
  obtain ⟨-, ⟨hAfter, -⟩, hApart⟩ := hNames
  have hBefore : w.name ∉ before.map (·.name) :=
    fun hMem => hApart w.name hMem w.name List.mem_cons_self rfl
  obtain ⟨done, left, hRecords, hDone, ⟨rfl, rfl⟩ | ⟨hRound, hLeft⟩⟩ := h.records
  · rw [List.append_nil] at hRecords
    have hNew : Records checksum options 1 [w] [(w.name, ⟨w.family, w.implementation, options.size,
        options.seed, checksum w (roundInput options 0), [time]⟩)] :=
      List.Forall₂.cons ⟨rfl, rfl, rfl, rfl, rfl, rfl, rfl⟩ List.Forall₂.nil
    refine ⟨_, [], ?_, List.rel_append hDone hNew, Or.inl ⟨rfl, rfl⟩⟩
    have hOther : ∀ r ∈ t'.records, ¬ (r.1 == w.name) = true := by
      rw [show t'.records = done from hRecords]
      exact hDone.other hBefore
    rw [note_new hOther, List.append_nil, show t'.records = done from hRecords]
  · cases hLeft with
    | @cons _ r _ left hFirst hLeft =>
      obtain ⟨hName, hRecord⟩ := hFirst
      let checksum' := checksum w (roundInput options round)
      have hNext : Recorded checksum options (round + 1) w (Tally.noteIn checksum' time r.2) :=
        ⟨hRecord.family, hRecord.implementation, hRecord.size, hRecord.seed,
          by rw [Tally.noteIn, List.length_append, hRecord.times]; rfl, rfl⟩
      have hOne : Records checksum options (round + 1) [w]
          [(r.1, Tally.noteIn checksum' time r.2)] :=
        List.Forall₂.cons ⟨hName, hNext⟩ List.Forall₂.nil
      refine ⟨_, left, ?_, List.rel_append hDone hOne, Or.inr ⟨hRound, hLeft⟩⟩
      rw [note_present (t := t') hRecords hName (hDone.other hBefore)
        (Records.other hLeft hAfter), List.append_assoc]
      rfl

/-- One workload: the invariant goes on, or the first difference is found. -/
theorem ends_runWorkload {σ : Type} (clock : Workload → Input → StateM σ Float)
    (hRun : ∀ input, w.run input = .ok (checksum w input))
    (hNames : (selected.map (·.name)).Nodup) (hAll : selected = before ++ w :: after)
    (h : Midway checksum options selected round before (w :: after) t) :
    Ends (runWorkload (.ofClock clock) options (roundInput options round) t w)
      (Midway checksum options selected round (before ++ [w]) after)
      (FirstDifference checksum options selected round) := by
  let input := roundInput options round
  have hClock : Ends (liftM (Stopwatch.ofClock clock w input))
      (fun timed => timed.1 = .ok (checksum w input))
      (FirstDifference checksum options selected round) :=
    fun s => Or.inl ⟨(w.run input, (clock w input s).1), rfl, hRun input⟩
  apply hClock.bind
  rintro ⟨_, time⟩ rfl
  have hAgree : Ends (σ := σ) (liftM (t.agree input w (checksum w input)))
      (fun t' => ∃ expected, t' = { t with expected := expected } ∧
        Expects checksum input (before ++ [w]) expected ∧
        FollowsLeader checksum selected input w)
      (FirstDifference checksum options selected round) := by
    apply ends_lift
    rcases h.agree hAll with ⟨expected, hOk, hExpects, hFollows⟩ | ⟨failure, hError, hFirst⟩
    · exact Or.inl ⟨_, hOk, expected, rfl, hExpects, hFollows⟩
    · exact Or.inr ⟨failure, hError, hFirst⟩
  apply hAgree.bind
  rintro _ ⟨expected, rfl, hExpects, hFollows⟩
  apply ends_pure
  refine ⟨?_, ?_, ?_⟩
  · rw [note_expected]
    exact hExpects
  · intro u hu
    rcases List.mem_append.mp hu with hu | hu
    · exact h.follows u hu
    · rw [List.mem_singleton.mp hu]
      exact hFollows
  · rw [hAll] at hNames
    exact h.note hNames expected time

end

/-! ## Rounds -/

section

variable (checksum : Workload → Input → Checksum) (options : Options) (selected : List Workload)

/-- In a round, all selected workloads follow their leaders. -/
def Settled (round : Nat) : Prop :=
  ∀ w ∈ selected, FollowsLeader checksum selected (roundInput options round) w

/-- What holds after some rounds. There are no records before the first one. -/
structure Through (rounds : Nat) (t : Tally) : Prop where
  settled : ∀ round < rounds, Settled checksum options selected round
  records : rounds = 0 ∧ t.records = [] ∨
    0 < rounds ∧ Records checksum options rounds selected t.records

/-- The failure tells of the first difference in the first round that has one. -/
def FirstFailure (rounds : Nat) (failure : Failure) : Prop :=
  ∃ round < rounds, (∀ earlier < round, Settled checksum options selected earlier) ∧
    FirstDifference checksum options selected round failure

end

section

variable {checksum : Workload → Input → Checksum} {options : Options} {selected : List Workload}
  {round : Nat} {t : Tally}

/-- In a family that follows its leader, all give the same checksum. -/
theorem settled_iff : Settled checksum options selected round ↔
    ∀ v ∈ selected, ∀ w ∈ selected, v.family = w.family →
      checksum v (roundInput options round) = checksum w (roundInput options round) := by
  constructor
  · intro h v hv w hw hFamily
    cases hLeader : leader selected w.family with
    | none =>
      have hNone := List.find?_eq_none.mp hLeader w hw
      exact (hNone (beq_self_eq_true _)).elim
    | some u =>
      have hLeader' : leader selected v.family = some u := by rw [hFamily, hLeader]
      exact (h v hv u hLeader').trans (h w hw u hLeader).symm
  · intro h w hw v hv
    obtain ⟨hMem, hFamily⟩ := leader_family hv
    exact h w hw v hMem hFamily.symm

theorem FirstFailure.not_settled {rounds : Nat} {failure : Failure}
    (h : FirstFailure checksum options selected rounds failure) :
    ¬ ∀ round < rounds, Settled checksum options selected round := by
  obtain ⟨round, hRound, -, before, w, after, v, hSelected, hLeader, hDiffer, -, -⟩ := h
  intro hSettled
  have hMem : w ∈ selected := by
    rw [hSelected]
    exact List.mem_append_right before List.mem_cons_self
  exact hDiffer (hSettled round hRound w hMem v hLeader)

theorem Midway.start (h : Through checksum options selected round t) :
    Midway checksum options selected round [] selected t.nextRound :=
  ⟨fun _ => rfl, List.forall_mem_nil _, [], t.records, rfl, List.Forall₂.nil, h.records⟩

theorem Midway.finish (h : Midway checksum options selected round selected [] t)
    (hEarlier : ∀ earlier < round, Settled checksum options selected earlier) :
    Through checksum options selected (round + 1) t := by
  constructor
  · intro earlier hLt
    rcases Nat.lt_succ_iff_lt_or_eq.mp hLt with hLt | rfl
    · exact hEarlier earlier hLt
    · exact h.follows
  · obtain ⟨done, left, hRecords, hDone, hLeft⟩ := h.records
    have hNil : left = [] := by
      rcases hLeft with ⟨-, rfl⟩ | ⟨-, hLeft⟩
      · rfl
      · exact List.forall₂_nil_left_iff.mp hLeft
    rw [hNil, List.append_nil] at hRecords
    rw [hRecords]
    exact Or.inr ⟨Nat.succ_pos round, hDone⟩

variable {σ : Type} (clock : Workload → Input → StateM σ Float)
  (hRun : ∀ w ∈ selected, ∀ input, w.run input = .ok (checksum w input))
  (hNames : (selected.map (·.name)).Nodup)

include hRun hNames

/-- One round: it goes through, or stops at its first difference. -/
theorem ends_runRound (h : Through checksum options selected round t) :
    Ends (selected.foldlM (runWorkload (.ofClock clock) options (roundInput options round))
        t.nextRound)
      (Through checksum options selected (round + 1))
      (FirstDifference checksum options selected round) := by
  have hStep : ∀ before w after t, selected = before ++ w :: after →
      Midway checksum options selected round before (w :: after) t →
      Ends (runWorkload (.ofClock clock) options (roundInput options round) t w)
        (Midway checksum options selected round (before ++ [w]) after)
        (FirstDifference checksum options selected round) := by
    intro before w after t hAll hMidway
    have hMem : w ∈ selected := hAll ▸ List.mem_append_right before List.mem_cons_self
    exact ends_runWorkload clock (hRun w hMem) hNames hAll hMidway
  have hFold := ends_foldlM hStep (List.nil_append selected).symm (Midway.start h)
  exact hFold.mono (fun t' hMidway => hMidway.finish h.settled) fun _ hFirst => hFirst

/-- The rounds that are left. -/
theorem ends_runRounds (left : Nat) (h : Through checksum options selected round t) :
    Ends (runRounds (.ofClock clock) options selected round left t)
      (Through checksum options selected (round + left))
      (FirstFailure checksum options selected (round + left)) := by
  induction left generalizing round t with
  | zero => exact ends_pure h
  | succ left ih =>
    have hNow : ∀ failure, FirstDifference checksum options selected round failure →
        FirstFailure checksum options selected (round + (left + 1)) failure :=
      fun _ hFirst => ⟨round, Nat.lt_add_of_pos_right (Nat.succ_pos left), h.settled, hFirst⟩
    apply ((ends_runRound clock hRun hNames h).mono (fun _ hThrough => hThrough) hNow).bind
    intro t' hThrough
    have hSum : round + (left + 1) = round + 1 + left := by omega
    rw [hSum]
    exact ih hThrough

theorem ends_run (hRounds : 1 ≤ options.rounds) :
    Ends (run (.ofClock clock) options selected)
      (fun records => (∀ round < options.rounds, Settled checksum options selected round) ∧
        List.Forall₂ (Recorded checksum options options.rounds) selected records)
      (FirstFailure checksum options selected options.rounds) := by
  have hStart : Through checksum options selected 0 .empty :=
    ⟨fun _ h => (Nat.not_lt_zero _ h).elim, Or.inl ⟨rfl, rfl⟩⟩
  have hRoundsEnd := ends_runRounds clock hRun hNames options.rounds hStart
  rw [Nat.zero_add] at hRoundsEnd
  apply hRoundsEnd.bind
  intro t hThrough
  apply ends_pure
  refine ⟨hThrough.settled, ?_⟩
  rcases hThrough.records with ⟨hZero, -⟩ | ⟨-, hRecords⟩
  · omega
  · rw [List.forall₂_map_right_iff]
    exact hRecords.imp fun _ _ h => h.2

end

/-! ## The verdict -/

/-- The seed of a round wraps around. -/
theorem roundInput_eq (options : Options) (round : Nat) :
    roundInput options round =
      .generate options.size (UInt64.ofNat (options.seed.toNat + round)) := by
  unfold roundInput
  rw [UInt64.ofNat_add, UInt64.ofNat_toNat]

/-- For every registry with distinct names whose workloads give checksums, all names and options
and all that the clock may show. A selection fails exactly if some name is neither that of a
workload nor that of the family of one, and otherwise is what `Registry.Selects` says. A run of it
succeeds exactly if in every round all selected workloads of a family give the same checksum. Its
records then are those of the selected workloads, in their order, with a time for each round and
the checksum of the last one; a failure tells of the first workload, by round and then by place,
that differs from the first selected one of its family. -/
theorem verdict_exact {σ : Type} (registry : Registry) (checksum : Workload → Input → Checksum)
    (names : List String) (options : Options) (clock : Workload → Input → StateM σ Float)
    (hNames : (registry.map (·.name)).Nodup)
    (hRun : ∀ w ∈ registry, ∀ input, w.run input = .ok (checksum w input))
    (hRounds : 1 ≤ options.rounds) :
    ((∃ failure, registry.select names = .error failure) ↔
      ∃ name ∈ names, ∀ w ∈ registry, w.name ≠ name ∧ w.family.name ≠ name) ∧
    ∀ selected, registry.select names = .ok selected →
      registry.Selects names selected ∧
      (∀ round, roundInput options round =
        .generate options.size (UInt64.ofNat (options.seed.toNat + round))) ∧
      ∀ s : σ,
        ((∃ records, outcome (run (.ofClock clock) options selected) s = .ok records) ↔
          ∀ round < options.rounds, ∀ v ∈ selected, ∀ w ∈ selected, v.family = w.family →
            checksum v (roundInput options round) = checksum w (roundInput options round)) ∧
        (∀ records, outcome (run (.ofClock clock) options selected) s = .ok records →
          List.Forall₂ (Recorded checksum options options.rounds) selected records) ∧
        ∀ failure, outcome (run (.ofClock clock) options selected) s = .error failure →
          FirstFailure checksum options selected options.rounds failure := by
  have hUnknown : ∀ name, ¬ registry.Known name ↔
      ∀ w ∈ registry, w.name ≠ name ∧ w.family.name ≠ name := by
    intro name
    simp only [Registry.Known, Registry.Picks, not_exists, not_and, not_or, ne_eq]
  refine ⟨?_, ?_⟩
  · simp only [registry.select_eq_error_iff hNames names, hUnknown]
  · intro selected hSelect
    have hSelects := Registry.selects_of_select hNames hSelect
    have hEnds := ends_run clock (fun w hw => hRun w (hSelects.subset w hw))
      (hSelects.nodup hNames) hRounds
    refine ⟨hSelects, roundInput_eq options, ?_⟩
    intro s
    refine ⟨?_, fun records hOk => (hEnds.of_ok hOk).2, fun failure => hEnds.of_error⟩
    rw [hEnds.ok_iff (fun _ h => h.1) (fun _ h => h.not_settled) s]
    simp only [settled_iff]

/-- Two families in turn. The second map disagrees with the first one as soon as the seed is not
zero, which it is not in the second round. -/
def twoFamilies : Registry :=
  [⟨"map-churn/a", .mapChurn, "a", fun _ => .ok ⟨1⟩⟩,
    ⟨"set-algebra/a", .setAlgebra, "a", fun input => .ok ⟨input.seed⟩⟩,
    ⟨"map-churn/b", .mapChurn, "b", fun input => .ok ⟨if input.seed = 0 then 1 else 2⟩⟩]

/-- What the workloads of `twoFamilies` give, by their names. -/
def twoFamiliesSum (w : Workload) (input : Input) : Checksum :=
  if w.name = "map-churn/a" then ⟨1⟩
  else if w.name = "set-algebra/a" then ⟨input.seed⟩
  else ⟨if input.seed = 0 then 1 else 2⟩

/-- The disagreement in the second round of two is found. -/
theorem verdict_exact_twoFamilies :
    let options : Options := ⟨["map-churn"], 0, 0, 2, none, false⟩
    ((twoFamilies.map (·.name)).Nodup ∧
      (∀ w ∈ twoFamilies, ∀ input, w.run input = .ok (twoFamiliesSum w input)) ∧
      1 ≤ options.rounds) ∧
    ∃ selected, twoFamilies.select options.workloads = .ok selected ∧
      selected.map (·.name) = ["map-churn/a", "map-churn/b"] ∧
      ¬ ∃ records, outcome (run (.ofClock fun _ _ => (pure 0 : StateM Unit Float)) options
        selected) () = .ok records := by
  intro options
  have hNames : (twoFamilies.map (·.name)).Nodup := by decide
  have hRun : ∀ w ∈ twoFamilies, ∀ input, w.run input = .ok (twoFamiliesSum w input) := by
    intro w hw input
    simp only [twoFamilies, List.mem_cons, List.not_mem_nil, or_false] at hw
    rcases hw with rfl | rfl | rfl <;> rfl
  have hRounds : 1 ≤ options.rounds := by decide
  refine ⟨⟨hNames, hRun, hRounds⟩, ?_⟩
  have hSelect : twoFamilies.select options.workloads =
      .ok (twoFamilies.filter fun w => w.family == .mapChurn) := rfl
  refine ⟨_, hSelect, rfl, ?_⟩
  obtain ⟨-, -, hVerdict⟩ :=
    (verdict_exact twoFamilies twoFamiliesSum options.workloads options
      (fun _ _ => (pure 0 : StateM Unit Float)) hNames hRun hRounds).2 _ hSelect
  rw [(hVerdict ()).1]
  intro hAll
  have hSame := hAll 1 (by decide) _ List.mem_cons_self _
    (List.mem_cons_of_mem _ List.mem_cons_self) rfl
  exact absurd hSame (by decide)

end PersistentCollections.Bench
