import Mathlib.Algebra.BigOperators.Group.List.Basic
import Mathlib.Algebra.GroupWithZero.Nat
import Mathlib.Data.Finset.Basic
import Mathlib.Data.List.Nodup

/-!
# A pool with a map, a total and a set of tags beside it

The items of a pool have distinct keys, and a weight each. A map finds them by their keys, a number is the sum of
their weights, and a set has the tags of those that have one.
-/

namespace TrackedPool

variable {A K T : Type} [DecidableEq K] [DecidableEq T] {key : A → K} {weight : A → Nat} {tag : A → Option T}
  {items rest : List A} {a : A} {byKey : K → Option A} {total : Nat} {tags : Finset T}

/-! ## The map and the total -/

structure Tracks (key : A → K) (weight : A → Nat) (items : List A) (byKey : K → Option A) (total : Nat) : Prop where
  nodup : (items.map key).Nodup
  byKey_iff : ∀ k a, byKey k = some a ↔ a ∈ items ∧ key a = k
  total_eq : total = (items.map weight).sum

omit [DecidableEq K] in
theorem Tracks.empty (key : A → K) (weight : A → Nat) : Tracks key weight [] (fun _ => none) 0 where
  nodup := List.nodup_nil
  byKey_iff k a := by simp
  total_eq := rfl

omit [DecidableEq K] in
theorem Tracks.perm {items' : List A} (h : Tracks key weight items byKey total) (hperm : items'.Perm items) :
    Tracks key weight items' byKey total where
  nodup := (hperm.map key).nodup_iff.2 h.nodup
  byKey_iff k a := by rw [h.byKey_iff, hperm.mem_iff]
  total_eq := by rw [h.total_eq, (hperm.map weight).sum_eq]

omit [DecidableEq K] in
theorem Tracks.byKey_eq_none (h : Tracks key weight items byKey total) {k : K} (hk : byKey k = none) :
    ∀ a ∈ items, key a ≠ k := by
  intro a ha hkey
  rw [(h.byKey_iff k a).2 ⟨ha, hkey⟩] at hk
  cases hk

theorem Tracks.insert (h : Tracks key weight items byKey total) (hnew : byKey (key a) = none) :
    Tracks key weight (a :: items) (Function.update byKey (key a) (some a)) (total + weight a) := by
  have hfresh := h.byKey_eq_none hnew
  refine ⟨?_, fun k b => ?_, ?_⟩
  · rw [List.map_cons, List.nodup_cons]
    refine ⟨fun hmem => ?_, h.nodup⟩
    obtain ⟨b, hb, hkey⟩ := List.mem_map.1 hmem
    exact hfresh b hb hkey
  · rcases Decidable.em (k = key a) with rfl | hne
    · rw [Function.update_self, Option.some.injEq, List.mem_cons]
      constructor
      · rintro rfl
        exact ⟨Or.inl rfl, rfl⟩
      · rintro ⟨rfl | hb, hkey⟩
        · rfl
        · exact absurd hkey (hfresh b hb)
    · rw [Function.update_of_ne hne, h.byKey_iff, List.mem_cons]
      constructor
      · rintro ⟨hb, hkey⟩
        exact ⟨Or.inr hb, hkey⟩
      · rintro ⟨rfl | hb, hkey⟩
        · exact absurd hkey.symm hne
        · exact ⟨hb, hkey⟩
  · rw [List.map_cons, List.sum_cons, h.total_eq, Nat.add_comm]

theorem Tracks.remove (h : Tracks key weight items byKey total) (hperm : items.Perm (a :: rest)) :
    Tracks key weight rest (Function.update byKey (key a) none) (total - weight a) := by
  have h' := h.perm hperm.symm
  have hnodup := h'.nodup
  rw [List.map_cons, List.nodup_cons] at hnodup
  have hother : ∀ b ∈ rest, key b ≠ key a := by
    intro b hb hkey
    exact hnodup.1 (hkey ▸ List.mem_map_of_mem hb)
  refine ⟨hnodup.2, fun k b => ?_, ?_⟩
  · rcases Decidable.em (k = key a) with rfl | hne
    · rw [Function.update_self]
      exact ⟨fun heq => (nomatch heq), fun hb => absurd hb.2 (hother b hb.1)⟩
    · rw [Function.update_of_ne hne, h'.byKey_iff, List.mem_cons]
      constructor
      · rintro ⟨rfl | hb, hkey⟩
        · exact absurd hkey.symm hne
        · exact ⟨hb, hkey⟩
      · rintro ⟨hb, hkey⟩
        exact ⟨Or.inr hb, hkey⟩
  · rw [h'.total_eq, List.map_cons, List.sum_cons, Nat.add_sub_cancel_left]

/-! ## The tags -/

/-- The set has the tags of the items, and no two items have one tag. -/
structure Tagged (tag : A → Option T) (items : List A) (tags : Finset T) : Prop where
  mem_iff : ∀ t, t ∈ tags ↔ ∃ a ∈ items, tag a = some t
  nodup : (items.filterMap tag).Nodup

omit [DecidableEq T] in
theorem Tagged.empty (tag : A → Option T) : Tagged tag [] ∅ where
  mem_iff t := by simp
  nodup := List.nodup_nil

omit [DecidableEq T] in
theorem Tagged.perm {items' : List A} (h : Tagged tag items tags) (hperm : items'.Perm items) :
    Tagged tag items' tags where
  mem_iff t := by
    rw [h.mem_iff]
    exact exists_congr fun a => and_congr_left fun _ => hperm.mem_iff.symm
  nodup := (hperm.filterMap tag).nodup_iff.2 h.nodup

omit [DecidableEq T] in
theorem Tagged.insert_none (h : Tagged tag items tags) (ha : tag a = none) : Tagged tag (a :: items) tags where
  mem_iff t := by
    rw [h.mem_iff]
    simp [ha]
  nodup := by
    rw [List.filterMap_cons_none ha]
    exact h.nodup

theorem Tagged.insert_some (h : Tagged tag items tags) {t : T} (ha : tag a = some t) (hnew : t ∉ tags) :
    Tagged tag (a :: items) (insert t tags) where
  mem_iff t' := by
    rw [Finset.mem_insert, h.mem_iff]
    simp [ha, eq_comm]
  nodup := by
    rw [List.filterMap_cons_some ha, List.nodup_cons]
    refine ⟨fun hmem => ?_, h.nodup⟩
    obtain ⟨b, hb, hbt⟩ := List.mem_filterMap.1 hmem
    exact hnew ((h.mem_iff t).2 ⟨b, hb, hbt⟩)

theorem Tagged.remove_some (h : Tagged tag items tags) (hperm : items.Perm (a :: rest)) {t : T}
    (ha : tag a = some t) : Tagged tag rest (tags.erase t) := by
  have h' := h.perm hperm.symm
  have hnodup := h'.nodup
  rw [List.filterMap_cons_some ha, List.nodup_cons] at hnodup
  refine ⟨fun t' => ?_, hnodup.2⟩
  rw [Finset.mem_erase, h'.mem_iff]
  constructor
  · rintro ⟨hne, b, hb, hbt⟩
    rcases List.mem_cons.1 hb with rfl | hb
    · rw [ha] at hbt
      exact absurd (Option.some.inj hbt).symm hne
    · exact ⟨b, hb, hbt⟩
  · rintro ⟨b, hb, hbt⟩
    refine ⟨?_, b, List.mem_cons_of_mem _ hb, hbt⟩
    rintro rfl
    exact hnodup.1 (List.mem_filterMap.2 ⟨b, hb, hbt⟩)

/-- An item without a tag takes none with it. -/
theorem Tagged.remove_none (h : Tagged tag items tags) (hperm : items.Perm (a :: rest)) {t : T}
    (ha : tag a = none) (ht : t ∉ tags) : Tagged tag rest (tags.erase t) := by
  have h' := h.perm hperm.symm
  have hnodup := h'.nodup
  rw [List.filterMap_cons_none ha] at hnodup
  refine ⟨fun t' => ?_, hnodup⟩
  rw [Finset.erase_eq_of_notMem ht, h'.mem_iff]
  simp [ha]

end TrackedPool
