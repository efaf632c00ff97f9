import Mathlib.Algebra.Order.BigOperators.Group.Finset
import Mathlib.Logic.Function.Basic

/-!
# Tables of buckets and of slots

Elements that are put into the buckets of a table, and how often each of them is in it.
-/

namespace Buckets

variable {ι C α : Type} [Fintype ι]

/-- How often the element is in the table, when `count` tells it of one bucket. -/
def occurrences (count : C → α → Nat) (table : ι → C) (a : α) : Nat := ∑ i, count (table i) a

theorem occurrences_eq_zero_iff {count : C → α → Nat} {table : ι → C} {a : α} :
    occurrences count table a = 0 ↔ ∀ i, count (table i) a = 0 := by
  rw [occurrences, Finset.sum_eq_zero_iff]
  exact ⟨fun h i => h i (Finset.mem_univ i), fun h i _ => h i⟩

theorem count_le_occurrences (count : C → α → Nat) (table : ι → C) (a : α) (i : ι) :
    count (table i) a ≤ occurrences count table a :=
  Finset.single_le_sum (fun j _ => Nat.zero_le (count (table j) a)) (Finset.mem_univ i)

/-- An element that occurs once is in one bucket. -/
theorem existsUnique_of_occurrences [DecidableEq ι] {count : C → α → Nat} {table : ι → C} {a : α}
    (h : occurrences count table a = 1) : ∃! i, 0 < count (table i) a := by
  have hsome : ∃ i, 0 < count (table i) a := by
    by_contra hnone
    have hzero : occurrences count table a = 0 :=
      occurrences_eq_zero_iff.2 fun i => Nat.eq_zero_of_not_pos fun hpos => hnone ⟨i, hpos⟩
    rw [h] at hzero
    cases hzero
  obtain ⟨i, hi⟩ := hsome
  refine ⟨i, hi, fun j hj => ?_⟩
  by_contra hne
  have hpair : ∑ k ∈ {i, j}, count (table k) a ≤ occurrences count table a :=
    Finset.sum_le_sum_of_subset (Finset.subset_univ _)
  rw [Finset.sum_pair (Ne.symm hne), h] at hpair
  omega

/-- A bucket that is replaced. -/
theorem occurrences_update [DecidableEq ι] (count : C → α → Nat) (table : ι → C) (i : ι) (c : C) (a : α) :
    occurrences count (Function.update table i c) a + count (table i) a = occurrences count table a + count c a := by
  have hrest : ∑ j ∈ Finset.univ.erase i, count (Function.update table i c j) a =
      ∑ j ∈ Finset.univ.erase i, count (table j) a :=
    Finset.sum_congr rfl fun j hj => by rw [Function.update_of_ne (Finset.ne_of_mem_erase hj)]
  have hnew := Finset.add_sum_erase Finset.univ (fun j => count (Function.update table i c j) a) (Finset.mem_univ i)
  have hold := Finset.add_sum_erase Finset.univ (fun j => count (table j) a) (Finset.mem_univ i)
  rw [hrest, Function.update_self] at hnew
  rw [occurrences, occurrences, ← hnew, ← hold]
  omega

end Buckets

/-!
## Tables of slots

A table has, under a key, an entry with slots that are numbered from 0. What a change of some slots leaves of a table
is said by naming the slots that it may touch.
-/

namespace Slots

variable {α K E : Type}

/-- Lists of one length that agree off a set of positions. -/
structure AgreeOff (touched : Nat → Prop) (l l' : List α) : Prop where
  length_eq : l'.length = l.length
  getElem?_eq : ∀ n, ¬touched n → l'[n]? = l[n]?

namespace AgreeOff

variable {touched touched' : Nat → Prop} {l l' l'' : List α}

theorem refl (touched : Nat → Prop) (l : List α) : AgreeOff touched l l := ⟨rfl, fun _ _ => rfl⟩

theorem trans (h : AgreeOff touched l l') (h' : AgreeOff touched l' l'') : AgreeOff touched l l'' :=
  ⟨h'.length_eq.trans h.length_eq, fun n hn => (h'.getElem?_eq n hn).trans (h.getElem?_eq n hn)⟩

theorem mono (h : AgreeOff touched l l') (hsub : ∀ n, touched n → touched' n) : AgreeOff touched' l l' :=
  ⟨h.length_eq, fun n hn => h.getElem?_eq n fun hmem => hn (hsub n hmem)⟩

theorem set {n : Nat} (hn : touched n) (l : List α) (a : α) : AgreeOff touched l (l.set n a) := by
  refine ⟨List.length_set, fun m hm => ?_⟩
  have hne : n ≠ m := by
    rintro rfl
    exact hm hn
  exact List.getElem?_set_ne hne

/-- Lists that agree on the positions as well are equal. -/
theorem eq (h : AgreeOff touched l l') (hmem : ∀ n, touched n → l'[n]? = l[n]?) : l' = l := by
  refine List.ext_getElem? fun n => ?_
  rcases Classical.em (touched n) with hn | hn
  · exact hmem n hn
  · exact h.getElem?_eq n hn

end AgreeOff

/-! ## Tables -/

/-- Tables with the same keys, whose entries are related. -/
structure Related (r : K → E → E → Prop) (σ σ' : K → Option E) : Prop where
  none : ∀ k, σ k = none → σ' k = none
  some : ∀ k e, σ k = some e → ∃ e', σ' k = some e' ∧ r k e e'

namespace Related

variable {r r' : K → E → E → Prop} {σ σ' σ'' : K → Option E} {k : K} {e e' : E}

theorem refl (hr : ∀ k e, r k e e) (σ : K → Option E) : Related r σ σ :=
  ⟨fun _ h => h, fun k e h => ⟨e, h, hr k e⟩⟩

theorem trans (hr : ∀ {k e e' e''}, r k e e' → r k e' e'' → r k e e'') (h : Related r σ σ')
    (h' : Related r σ' σ'') : Related r σ σ'' := by
  refine ⟨fun k hk => h'.none k (h.none k hk), fun k e hk => ?_⟩
  obtain ⟨e', hk', hr₁⟩ := h.some k e hk
  obtain ⟨e'', hk'', hr₂⟩ := h'.some k e' hk'
  exact ⟨e'', hk'', hr hr₁ hr₂⟩

theorem mono (h : Related r σ σ') (hsub : ∀ k e e', r k e e' → r' k e e') : Related r' σ σ' := by
  refine ⟨h.none, fun k e hk => ?_⟩
  obtain ⟨e', hk', hrel⟩ := h.some k e hk
  exact ⟨e', hk', hsub k e e' hrel⟩

theorem update [DecidableEq K] (hr : ∀ k e, r k e e) (hk : σ k = .some e) (h : r k e e') :
    Related r σ (Function.update σ k (.some e')) := by
  refine ⟨fun k₁ hk₁ => ?_, fun k₁ e₁ hk₁ => ?_⟩
  · rcases Decidable.em (k₁ = k) with rfl | hne
    · rw [hk] at hk₁
      cases hk₁
    · rw [Function.update_of_ne hne, hk₁]
  · rcases Decidable.em (k₁ = k) with rfl | hne
    · rw [hk] at hk₁
      cases hk₁
      exact ⟨e', Function.update_self .., h⟩
    · rw [Function.update_of_ne hne]
      exact ⟨e₁, hk₁, hr k₁ e₁⟩

/-- Nothing but related entries is new. -/
theorem of_some (h : Related r σ σ') (hk : σ' k = .some e') : ∃ e, σ k = .some e ∧ r k e e' := by
  cases hσ : σ k with
  | none =>
      rw [h.none k hσ] at hk
      cases hk
  | some e =>
      obtain ⟨e₁, hk₁, hrel⟩ := h.some k e hσ
      rw [hk₁] at hk
      cases hk
      exact ⟨e, rfl, hrel⟩

end Related

end Slots
