import Mathlib.Data.Finset.Card
import Mathlib.Data.List.Nodup

/-!
# The set of the most recent elements

`mruset` (mruset.h). Elements that `operator<` does not tell apart are one element, and an iterator is the element that
it points to.
-/

namespace ProCurrency

/-- `mruset`, with the front of the queue first. -/
structure MruSet (T : Type) [DecidableEq T] where
  set : Finset T := ∅
  queue : List T := []
  nMaxSize : Nat := 0

namespace MruSet

variable {T : Type} [DecidableEq T]

/-- The oldest element is erased. -/
def popFront (s : MruSet T) : MruSet T :=
  match s.queue with
  | [] => s
  | front :: queue => { s with set := s.set.erase front, queue }

/-- `insert`, with the iterator and whether the element is new. -/
def insert (s : MruSet T) (x : T) : MruSet T × T × Bool :=
  if x ∈ s.set then (s, x, false)
  else
    let s' := { s with set := Insert.insert x s.set }
    let s' := if s'.nMaxSize ≠ 0 ∧ s'.queue.length = s'.nMaxSize then s'.popFront else s'
    ({ s' with queue := s'.queue ++ [x] }, x, true)

def clear (s : MruSet T) : MruSet T := { s with set := ∅, queue := [] }

/-- The loop of `max_size`, which ends with the queue at the latest. -/
def shrinkTo (n : Nat) : Nat → MruSet T → MruSet T
  | 0, s => s
  | rounds + 1, s => if n < s.queue.length then shrinkTo n rounds s.popFront else s

/-- `max_size(s)`. -/
def setMaxSize (s : MruSet T) (n : Nat) : MruSet T :=
  { (if n ≠ 0 then shrinkTo n s.queue.length s else s) with nMaxSize := n }

end MruSet

/-- The calls that change a set. -/
inductive MruCall (T : Type)
  | insert (x : T)
  | clear
  | maxSize (n : Nat)

namespace MruCall

variable {T : Type} [DecidableEq T]

def step (s : MruSet T) : MruCall T → MruSet T
  | insert x => (s.insert x).1
  | clear => s.clear
  | maxSize n => s.setMaxSize n

def run (s : MruSet T) (calls : List (MruCall T)) : MruSet T := calls.foldl step s

end MruCall

/-! ## What is inserted -/

/-- The elements that were inserted since the last `clear`, in their order, and how many of them are no longer among the
most recent ones: at some time so many had been inserted above the maximum of that time. -/
structure MruHistory (T : Type) where
  inserted : List T := []
  outdated : Nat := 0

namespace MruHistory

variable {T : Type}

/-- Only the last `nMaxSize` are recent, if it is not zero. -/
def limit (h : MruHistory T) (nMaxSize : Nat) : MruHistory T :=
  { h with outdated := max h.outdated (if nMaxSize = 0 then 0 else h.inserted.length - nMaxSize) }

/-- The elements that are still recent. -/
def recent (h : MruHistory T) : List T := h.inserted.drop h.outdated

theorem recent_limit (h : MruHistory T) (n : Nat) :
    (h.limit n).recent = h.recent.drop (if n = 0 then 0 else h.recent.length - n) := by
  simp only [recent, limit, List.drop_drop, List.length_drop]
  congr 1
  split_ifs <;> omega

theorem limit_outdated_le {h : MruHistory T} (hle : h.outdated ≤ h.inserted.length) (n : Nat) :
    (h.limit n).outdated ≤ h.inserted.length := by
  simp only [limit]
  split_ifs <;> omega

/-- The last `nMaxSize` elements, or all of them. -/
def last (h : MruHistory T) (nMaxSize : Nat) : List T :=
  h.inserted.drop (if nMaxSize = 0 then 0 else h.inserted.length - nMaxSize)

/-- What a call adds to the history; an element is inserted where it is not in the set. -/
def step [DecidableEq T] (h : MruHistory T) (s : MruSet T) : MruCall T → MruHistory T
  | .insert x => if x ∈ s.set then h else { h with inserted := h.inserted ++ [x] }.limit s.nMaxSize
  | .clear => {}
  | .maxSize n => h.limit n

/-- The history of a run. -/
def along [DecidableEq T] (h : MruHistory T) : MruSet T → List (MruCall T) → MruHistory T
  | _, [] => h
  | s, call :: calls => (h.step s call).along (call.step s) calls

end MruHistory

namespace MruSet

variable {T : Type} [DecidableEq T] {s : MruSet T} {h : MruHistory T} {x : T} {n : Nat}

/-- The containers agree, and they have what is recent. -/
structure Holds (s : MruSet T) (h : MruHistory T) : Prop where
  nodup : s.queue.Nodup
  set : s.set = s.queue.toFinset
  le : s.nMaxSize ≠ 0 → s.queue.length ≤ s.nMaxSize
  queue : s.queue = h.recent
  outdated : h.outdated ≤ h.inserted.length

theorem insert_nMaxSize (s : MruSet T) (x : T) : (s.insert x).1.nMaxSize = s.nMaxSize := by
  obtain ⟨set, queue, nMaxSize⟩ := s
  rw [insert]
  split_ifs
  · rfl
  · dsimp only
    split_ifs
    · cases queue <;> rfl
    · rfl

theorem holds_new (nMaxSize : Nat) : ({ nMaxSize } : MruSet T).Holds {} :=
  ⟨List.nodup_nil, rfl, fun _ => Nat.zero_le _, rfl, Nat.le_refl _⟩

theorem shrinkTo_eq (hset : s.set = s.queue.toFinset) (hnodup : s.queue.Nodup) {rounds : Nat}
    (hrounds : s.queue.length ≤ n + rounds) :
    shrinkTo n rounds s = { s with
      set := (s.queue.drop (s.queue.length - n)).toFinset
      queue := s.queue.drop (s.queue.length - n) } := by
  induction rounds generalizing s with
  | zero =>
      rw [Nat.add_zero] at hrounds
      simp [shrinkTo, Nat.sub_eq_zero_of_le hrounds, ← hset]
  | succ rounds ih =>
      rw [shrinkTo]
      split_ifs with hlong
      · obtain ⟨set, queue, nMaxSize⟩ := s
        cases queue with
        | nil => cases hlong
        | cons front queue =>
            obtain ⟨hfront, hqueue⟩ := List.nodup_cons.1 hnodup
            have herase : set.erase front = queue.toFinset := by
              simp only at hset
              rw [hset, List.toFinset_cons, Finset.erase_insert (by simpa using hfront)]
            simp only [List.length_cons] at hrounds hlong
            rw [popFront, ih herase hqueue (by simp only; omega)]
            simp only [List.length_cons, show queue.length + 1 - n = queue.length - n + 1 by omega,
              List.drop_succ_cons]
      · simp [Nat.sub_eq_zero_of_le (Nat.le_of_not_lt hlong), ← hset]

theorem Holds.setMaxSize (hs : s.Holds h) (n : Nat) : (s.setMaxSize n).Holds (h.step s (.maxSize n)) := by
  have hrecent := MruHistory.recent_limit h n
  have houtdated := MruHistory.limit_outdated_le hs.outdated n
  rw [MruSet.setMaxSize, MruHistory.step]
  split_ifs with hn
  · rw [shrinkTo_eq hs.set hs.nodup (Nat.le_add_left _ _)]
    rw [if_neg hn, ← hs.queue] at hrecent
    refine ⟨hs.nodup.sublist (List.drop_sublist _ _), rfl, fun _ => ?_, hrecent.symm, houtdated⟩
    simp only [List.length_drop]
    omega
  · rw [not_not] at hn
    rw [if_pos hn, List.drop_zero, ← hs.queue] at hrecent
    exact ⟨hs.nodup, hs.set, fun h0 => absurd hn h0, hrecent.symm, houtdated⟩

/-- An element that is new stands behind the others, and its iterator stays good. -/
theorem Holds.insert (hs : s.Holds h) (x : T) :
    (s.insert x).1.Holds (h.step s (.insert x)) ∧ (s.insert x).2.1 = x ∧ x ∈ (s.insert x).1.set := by
  have hle := hs.outdated
  rw [MruSet.insert, MruHistory.step]
  by_cases hmem : x ∈ s.set
  · rw [if_pos hmem, if_pos hmem]
    exact ⟨hs, rfl, hmem⟩
  have hnew : x ∉ s.queue := by
    rw [hs.set] at hmem
    simpa using hmem
  have hle' : ({ h with inserted := h.inserted ++ [x] } : MruHistory T).outdated ≤ (h.inserted ++ [x]).length := by
    simp only [List.length_append]
    omega
  have hrecent := MruHistory.recent_limit { h with inserted := h.inserted ++ [x] } s.nMaxSize
  have hadded : ({ h with inserted := h.inserted ++ [x] } : MruHistory T).recent = s.queue ++ [x] := by
    rw [hs.queue, MruHistory.recent, MruHistory.recent, List.drop_append_of_le_length hle]
  have houtdated := MruHistory.limit_outdated_le hle' s.nMaxSize
  rw [hadded] at hrecent
  rw [if_neg hmem, if_neg hmem]
  dsimp only
  split_ifs with hfull
  · obtain ⟨hn, hlength⟩ := hfull
    obtain ⟨set, queue, nMaxSize⟩ := s
    cases queue with
    | nil => exact absurd hlength.symm hn
    | cons front queue =>
        have hset := hs.set
        obtain ⟨hfront, hqueue⟩ := List.nodup_cons.1 hs.nodup
        simp only [List.mem_cons, not_or] at hn hlength hnew hset hfront hqueue hrecent
        have herase : (Insert.insert x set).erase front = (queue ++ [x]).toFinset := by
          rw [hset, List.toFinset_cons, Finset.erase_insert_of_ne hnew.1,
            Finset.erase_insert (by simpa using hfront)]
          ext y
          simp
        rw [if_neg hn, List.cons_append, List.length_cons, List.length_append,
          show queue.length + [x].length + 1 - nMaxSize = 1 by
            simp only [List.length_cons, List.length_nil] at hlength ⊢
            omega,
          List.drop_succ_cons, List.drop_zero] at hrecent
        refine ⟨⟨?_, herase, fun _ => ?_, hrecent.symm, houtdated⟩, rfl, ?_⟩
        · exact hqueue.append (List.nodup_singleton x) (List.disjoint_singleton.2 hnew.2)
        · simp only [popFront, List.length_append, List.length_cons, List.length_nil] at hlength ⊢
          omega
        · simp [popFront, herase]
  · have hshort : s.nMaxSize ≠ 0 → s.queue.length < s.nMaxSize := fun hn =>
      Nat.lt_of_le_of_ne (hs.le hn) fun heq => hfull ⟨hn, heq⟩
    have hkept : (if s.nMaxSize = 0 then 0 else (s.queue ++ [x]).length - s.nMaxSize) = 0 := by
      split_ifs with hn
      · rfl
      · have hlt := hshort hn
        simp only [List.length_append, List.length_singleton]
        omega
    rw [hkept, List.drop_zero] at hrecent
    refine ⟨⟨?_, ?_, fun hn => ?_, hrecent.symm, houtdated⟩, rfl, Finset.mem_insert_self x _⟩
    · exact hs.nodup.append (List.nodup_singleton x) (List.disjoint_singleton.2 hnew)
    · rw [hs.set]
      ext y
      simp
    · have hlt := hshort hn
      simp only [List.length_append, List.length_singleton]
      omega

theorem Holds.step (hs : s.Holds h) (call : MruCall T) : (call.step s).Holds (h.step s call) := by
  cases call with
  | insert x => exact (hs.insert x).1
  | clear => exact ⟨List.nodup_nil, rfl, fun _ => Nat.zero_le _, rfl, Nat.le_refl _⟩
  | maxSize n => exact hs.setMaxSize n

theorem Holds.run (hs : s.Holds h) (calls : List (MruCall T)) :
    (MruCall.run s calls).Holds (h.along s calls) := by
  induction calls generalizing s h with
  | nil => exact hs
  | cons call calls ih => exact ih (hs.step call)

end MruSet

theorem MruHistory.along_append {T : Type} [DecidableEq T] (h : MruHistory T) (s : MruSet T)
    (calls : List (MruCall T)) (call : MruCall T) :
    h.along s (calls ++ [call]) = (h.along s calls).step (MruCall.run s calls) call := by
  induction calls generalizing h s with
  | nil => rfl
  | cons call' calls ih => exact ih (h.step s call') (call'.step s)

/-! ## The most recent elements -/

section Recent

variable {T : Type} [DecidableEq T]

/-- No call makes the maximum larger. -/
def NeverRaised (nMaxSize : Nat) (calls : List (MruCall T)) : Prop :=
  ∀ before n after, calls = before ++ .maxSize n :: after →
    (MruCall.run { nMaxSize } before).nMaxSize = 0 ∨ n ≠ 0 ∧ n ≤ (MruCall.run { nMaxSize } before).nMaxSize

theorem NeverRaised.outdated {nMaxSize : Nat} {calls : List (MruCall T)} (h : NeverRaised nMaxSize calls) :
    (MruHistory.along {} { nMaxSize } calls).outdated =
      if (MruCall.run { nMaxSize } calls).nMaxSize = 0 then 0
      else (MruHistory.along {} { nMaxSize } calls).inserted.length - (MruCall.run { nMaxSize } calls).nMaxSize := by
  induction calls using List.reverseRecOn with
  | nil => simp [MruHistory.along]
  | append_singleton calls call ih =>
      have hbefore := ih fun before n after heq => h before n (after ++ [call]) (by rw [heq]; simp)
      have hrun : MruCall.run { nMaxSize } (calls ++ [call]) = call.step (MruCall.run { nMaxSize } calls) := by
        simp [MruCall.run]
      rw [hrun, MruHistory.along_append]
      have hlower : ∀ n, call = .maxSize n → (MruCall.run { nMaxSize } calls).nMaxSize = 0 ∨
          n ≠ 0 ∧ n ≤ (MruCall.run { nMaxSize } calls).nMaxSize := fun n heq => h calls n [] (by rw [heq])
      generalize MruHistory.along {} { nMaxSize } calls = history at hbefore ⊢
      generalize MruCall.run { nMaxSize } calls = s at hbefore hlower ⊢
      obtain ⟨inserted, outdated⟩ := history
      dsimp only at hbefore
      cases call with
      | insert x =>
          rw [MruCall.step, MruSet.insert_nMaxSize, MruHistory.step]
          by_cases hmem : x ∈ s.set
          · rw [if_pos hmem]
            exact hbefore
          · rw [if_neg hmem]
            simp only [MruHistory.limit, List.length_append, List.length_singleton, hbefore]
            split_ifs <;> omega
      | clear => simp [MruHistory.step]
      | maxSize n =>
          have hn := hlower n rfl
          simp only [MruCall.step, MruSet.setMaxSize, MruHistory.step, MruHistory.limit, hbefore]
          split_ifs <;> omega

/-- What is in the set has been among the last elements at any time since it was inserted; as long as the maximum is not
raised these are the last ones. -/
theorem mruset_recent (nMaxSize : Nat) (calls : List (MruCall T)) :
    let s := MruCall.run { nMaxSize } calls
    let h := MruHistory.along {} { nMaxSize } calls
    s.queue.Nodup ∧ s.set = s.queue.toFinset ∧ (s.nMaxSize ≠ 0 → s.set.card ≤ s.nMaxSize) ∧ s.queue = h.recent ∧
      (NeverRaised nMaxSize calls → s.queue = h.last s.nMaxSize) ∧
      ∀ x, (s.insert x).2.1 = x ∧ x ∈ (s.insert x).1.set := by
  intro s h
  have hs : s.Holds h := (MruSet.holds_new nMaxSize).run calls
  refine ⟨hs.nodup, hs.set, fun hn => ?_, hs.queue, fun hraised => ?_, fun x => (hs.insert x).2⟩
  · rw [hs.set, List.toFinset_card_of_nodup hs.nodup]
    exact hs.le hn
  · rw [hs.queue, MruHistory.recent, hraised.outdated]
    rfl

/-- An element that was dropped does not come back when the maximum is raised. -/
theorem mruset_raised : ¬ ∀ (nMaxSize : Nat) (calls : List (MruCall Nat)),
    (MruCall.run { nMaxSize } calls).queue =
      (MruHistory.along {} { nMaxSize } calls).last (MruCall.run { nMaxSize } calls).nMaxSize := by
  intro hlast
  have hraised := hlast 1 [.insert 1, .insert 2, .maxSize 2]
  exact absurd hraised (by decide)

end Recent

end ProCurrency
