import Mathlib.Data.List.Nodup
import Mathlib.Logic.Equiv.Basic

/-!
# Lists whose elements know their positions

Each element of a list is kept together with the place where it stands. Elements are added at the end, swapped, and
taken off the end.
-/

namespace SwapIndex

variable {α : Type}

/-- The positions are those of the elements of the list. -/
def Indexes (v : List α) (pos : α → Option Nat) : Prop := ∀ i a, v[i]? = some a ↔ pos a = some i

/-- The list with two positions swapped. -/
def swapped (v : List α) (p q : Nat) (a b : α) : List α := (v.set p b).set q a

theorem getElem?_swapped {v : List α} {p q : Nat} {a b : α} (ha : v[p]? = some a) (hb : v[q]? = some b) (i : Nat) :
    (swapped v p q a b)[i]? = v[Equiv.swap p q i]? := by
  obtain ⟨hp, _⟩ := List.getElem?_eq_some_iff.1 ha
  obtain ⟨hq, _⟩ := List.getElem?_eq_some_iff.1 hb
  rw [swapped]
  by_cases hiq : i = q
  · subst i
    rw [Equiv.swap_apply_right, ha, List.getElem?_set_self (by rwa [List.length_set])]
  · rw [List.getElem?_set_ne (Ne.symm hiq)]
    by_cases hip : i = p
    · subst i
      rw [Equiv.swap_apply_left, hb, List.getElem?_set_self hp]
    · rw [List.getElem?_set_ne (Ne.symm hip), Equiv.swap_apply_of_ne_of_ne hip hiq]

@[simp] theorem length_swapped (v : List α) (p q : Nat) (a b : α) : (swapped v p q a b).length = v.length := by
  rw [swapped, List.length_set, List.length_set]

namespace Indexes

variable {v : List α} {pos pos' : α → Option Nat}

theorem mem_iff (h : Indexes v pos) (a : α) : a ∈ v ↔ (pos a).isSome := by
  rw [List.mem_iff_getElem?, Option.isSome_iff_exists]
  exact exists_congr fun i => h i a

theorem nodup (h : Indexes v pos) : v.Nodup := by
  rw [List.nodup_iff_getElem?_ne_getElem?]
  intro i j hij hj heq
  have hlt : i < v.length := Nat.lt_trans hij hj
  have hi := (h i v[i]).1 (List.getElem?_eq_getElem hlt)
  have hj := (h j v[i]).1 (heq ▸ List.getElem?_eq_getElem hlt)
  rw [hi, Option.some.injEq] at hj
  exact Nat.ne_of_lt hij hj

theorem congr (h : Indexes v pos) (hpos : ∀ a, pos' a = pos a) : Indexes v pos' := fun i a => by
  rw [hpos a]
  exact h i a

/-- A new element stands at the end. -/
theorem push (h : Indexes v pos) {a : α} (hnew : pos a = none) (ha : pos' a = some v.length)
    (hother : ∀ b, b ≠ a → pos' b = pos b) : Indexes (v ++ [a]) pos' := by
  intro i b
  by_cases hb : b = a
  · subst b
    rw [ha, Option.some.injEq, List.getElem?_append]
    split
    · rename_i hlt
      rw [h i a, hnew]
      exact ⟨nofun, fun heq => absurd hlt (heq ▸ Nat.lt_irrefl _)⟩
    · rename_i hge
      rw [List.getElem?_singleton]
      split
      · rename_i hzero
        exact ⟨fun _ => Nat.le_antisymm (Nat.le_of_not_lt hge) (Nat.sub_eq_zero_iff_le.1 hzero), fun _ => rfl⟩
      · rename_i hne
        exact ⟨nofun, fun heq => absurd (heq ▸ Nat.sub_self _) hne⟩
  · rw [hother b hb, ← h i b, List.getElem?_append]
    split
    · exact Iff.rfl
    · rename_i hge
      rw [List.getElem?_eq_none (Nat.le_of_not_lt hge), List.getElem?_singleton]
      split
      · exact ⟨fun heq => absurd (Option.some.inj heq).symm hb, nofun⟩
      · exact Iff.rfl

theorem swap (h : Indexes v pos) {p q : Nat} {a b : α} (ha : v[p]? = some a) (hb : v[q]? = some b) :
    Indexes (swapped v p q a b) fun c => (pos c).map (Equiv.swap p q) := by
  intro i c
  rw [getElem?_swapped ha hb, h, Option.map_eq_some_iff]
  constructor
  · intro hpos
    exact ⟨_, hpos, Equiv.swap_apply_self p q i⟩
  · rintro ⟨j, hpos, rfl⟩
    rw [Equiv.swap_apply_self]
    exact hpos

/-- The last element is taken off. -/
theorem pop (h : Indexes v pos) {a : α} (hlast : pos a = some (v.length - 1)) (ha : pos' a = none)
    (hother : ∀ b, b ≠ a → pos' b = pos b) : Indexes v.dropLast pos' := by
  intro i b
  rw [List.getElem?_dropLast]
  split
  · rename_i hlt
    rw [h i b]
    by_cases hb : b = a
    · subst b
      rw [hlast, ha, Option.some.injEq]
      exact ⟨fun heq => absurd hlt (heq ▸ Nat.lt_irrefl _), nofun⟩
    · rw [hother b hb]
  · rename_i hge
    refine ⟨nofun, fun hpos => ?_⟩
    by_cases hb : b = a
    · subst b
      rw [ha] at hpos
      cases hpos
    · rw [hother b hb] at hpos
      have hi := (List.getElem?_eq_some_iff.1 ((h i b).2 hpos)).1
      obtain rfl : i = v.length - 1 := Nat.le_antisymm (Nat.le_sub_one_of_lt hi) (Nat.le_of_not_lt hge)
      exact absurd (Option.some.inj (((h _ b).2 hpos).symm.trans ((h _ a).2 hlast))) hb

end Indexes

end SwapIndex
