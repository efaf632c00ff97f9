import Mathlib.Data.Finset.Basic

/-!
# An index of keys by what their entries mention

A map of entries comes with an index: under each thing that is mentioned, the set of the keys of the entries that
mention it. No empty set is kept.
-/

namespace SetIndex

variable {K E P : Type} [DecidableEq K] [DecidableEq P]

/-- `idx[p].insert(k)`. -/
def add (k : K) (idx : P → Option (Finset K)) (p : P) : P → Option (Finset K) :=
  Function.update idx p (some (insert k ((idx p).getD ∅)))

/-- `idx[p].erase(k)`, and the set goes with its last key. -/
def remove (k : K) (idx : P → Option (Finset K)) (p : P) : P → Option (Finset K) :=
  let keys := ((idx p).getD ∅).erase k
  Function.update idx p (if keys = ∅ then none else some keys)

variable {k k' : K} {idx : P → Option (Finset K)} {p : P} {ps : List P}

/-! ## One thing that is mentioned -/

theorem mem_add (p' : P) : k' ∈ (add k idx p p').getD ∅ ↔ k' ∈ (idx p').getD ∅ ∨ k' = k ∧ p' = p := by
  rw [add]
  rcases Decidable.em (p' = p) with rfl | hne
  · rw [Function.update_self, Option.getD_some, Finset.mem_insert]
    simp [or_comm]
  · rw [Function.update_of_ne hne]
    simp [hne]

theorem add_nonempty (h : ∀ p', idx p' ≠ some ∅) (p' : P) : add k idx p p' ≠ some ∅ := by
  rw [add]
  rcases Decidable.em (p' = p) with rfl | hne
  · rw [Function.update_self]
    simp
  · rw [Function.update_of_ne hne]
    exact h p'

theorem mem_remove (p' : P) : k' ∈ (remove k idx p p').getD ∅ ↔ k' ∈ (idx p').getD ∅ ∧ ¬(k' = k ∧ p' = p) := by
  rw [remove]
  rcases Decidable.em (p' = p) with rfl | hne
  · rw [Function.update_self]
    have hmem : k' ∈ ((idx p').getD ∅).erase k ↔ k' ∈ (idx p').getD ∅ ∧ ¬(k' = k ∧ p' = p') := by
      simp [Finset.mem_erase, and_comm]
    rw [← hmem]
    split
    · rename_i hempty
      rw [hempty, Option.getD_none]
    · rw [Option.getD_some]
  · rw [Function.update_of_ne hne]
    simp [hne]

theorem remove_nonempty (h : ∀ p', idx p' ≠ some ∅) (p' : P) : remove k idx p p' ≠ some ∅ := by
  rw [remove]
  rcases Decidable.em (p' = p) with rfl | hne
  · rw [Function.update_self]
    split
    · exact fun heq => (nomatch heq)
    · rename_i hempty
      exact fun heq => hempty (Option.some.inj heq)
  · rw [Function.update_of_ne hne]
    exact h p'

/-! ## All that an entry mentions -/

theorem mem_addAll (p' : P) :
    k' ∈ (ps.foldl (add k) idx p').getD ∅ ↔ k' ∈ (idx p').getD ∅ ∨ k' = k ∧ p' ∈ ps := by
  induction ps generalizing idx with
  | nil => simp
  | cons p ps ih =>
      rw [List.foldl_cons, ih, mem_add, List.mem_cons, or_assoc, ← and_or_left]

theorem addAll_nonempty (h : ∀ p', idx p' ≠ some ∅) (p' : P) : ps.foldl (add k) idx p' ≠ some ∅ := by
  induction ps generalizing idx with
  | nil => exact h p'
  | cons p ps ih => exact ih (add_nonempty h)

theorem mem_removeAll (p' : P) :
    k' ∈ (ps.foldl (remove k) idx p').getD ∅ ↔ k' ∈ (idx p').getD ∅ ∧ ¬(k' = k ∧ p' ∈ ps) := by
  induction ps generalizing idx with
  | nil => simp
  | cons p ps ih =>
      rw [List.foldl_cons, ih, mem_remove, List.mem_cons, and_assoc, ← not_or, ← and_or_left]

theorem removeAll_nonempty (h : ∀ p', idx p' ≠ some ∅) (p' : P) : ps.foldl (remove k) idx p' ≠ some ∅ := by
  induction ps generalizing idx with
  | nil => exact h p'
  | cons p ps ih => exact ih (remove_nonempty h)

/-! ## The index of a map -/

/-- Under each thing stands the set of the keys whose entries mention it, and no empty set stands anywhere. -/
structure Indexes (mentions : E → List P) (σ : K → Option E) (idx : P → Option (Finset K)) : Prop where
  mem_iff : ∀ p k, k ∈ (idx p).getD ∅ ↔ ∃ e, σ k = some e ∧ p ∈ mentions e
  nonempty : ∀ p, idx p ≠ some ∅

variable {mentions : E → List P} {σ : K → Option E} {e : E}

omit [DecidableEq K] [DecidableEq P] in
theorem Indexes.empty : Indexes mentions (fun _ : K => none) (fun _ : P => none) where
  mem_iff p k := by simp
  nonempty p := fun h => (nomatch h)

theorem Indexes.insert (h : Indexes mentions σ idx) (hk : σ k = none) :
    Indexes mentions (Function.update σ k (some e)) ((mentions e).foldl (add k) idx) := by
  refine ⟨fun p k' => ?_, addAll_nonempty h.nonempty⟩
  rw [mem_addAll, h.mem_iff]
  rcases Decidable.em (k' = k) with rfl | hne
  · rw [Function.update_self, hk]
    simp
  · rw [Function.update_of_ne hne]
    simp [hne]

theorem Indexes.erase (h : Indexes mentions σ idx) (hk : σ k = some e) :
    Indexes mentions (Function.update σ k none) ((mentions e).foldl (remove k) idx) := by
  refine ⟨fun p k' => ?_, removeAll_nonempty h.nonempty⟩
  rw [mem_removeAll, h.mem_iff]
  rcases Decidable.em (k' = k) with rfl | hne
  · rw [Function.update_self, hk]
    simp
  · rw [Function.update_of_ne hne]
    simp [hne]

end SetIndex
