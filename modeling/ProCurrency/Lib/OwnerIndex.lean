import Mathlib.Data.List.Basic
import Mathlib.Data.List.Nodup
import Mathlib.Logic.Function.Basic

/-!
# Who owns what

Tags are used by owners, in batches, and a registry says under which owner a tag is recorded. As long as the uses are
recorded and no batch brings a tag that is recorded for a past use, no tag is used twice.
-/

namespace TagRegistry

variable {K O : Type} {reg reg' : K → Option O} {used batch : List (K × O)}

/-- The tags of the uses are distinct, and each use is recorded. -/
structure Consistent (reg : K → Option O) (used : List (K × O)) : Prop where
  nodup : (used.map Prod.fst).Nodup
  recorded : ∀ p ∈ used, reg p.1 = some p.2

theorem Consistent.nil (reg : K → Option O) : Consistent reg [] where
  nodup := List.nodup_nil
  recorded _ hp := by cases hp

theorem Consistent.of_sublist {earlier : List (K × O)} (h : Consistent reg used) (hsub : earlier.Sublist used) :
    Consistent reg earlier where
  nodup := h.nodup.sublist (hsub.map Prod.fst)
  recorded p hp := h.recorded p (hsub.subset hp)

/-- A batch of distinct tags, none of which is recorded for a past use, and all of which are recorded afterwards. -/
theorem Consistent.append (h : Consistent reg used) (hbatch : (batch.map Prod.fst).Nodup)
    (hfresh : ∀ p ∈ batch, ∀ o, reg p.1 = some o → (p.1, o) ∉ used)
    (hnew : ∀ p ∈ batch, reg' p.1 = some p.2) (hframe : ∀ k, k ∉ batch.map Prod.fst → reg' k = reg k) :
    Consistent reg' (used ++ batch) := by
  have hdisjoint : ∀ p ∈ used, p.1 ∉ batch.map Prod.fst := by
    intro p hp hmem
    obtain ⟨q, hq, heq⟩ := List.mem_map.1 hmem
    refine hfresh q hq p.2 ?_ ?_
    · rw [heq]
      exact h.recorded p hp
    · rw [heq]
      exact hp
  refine ⟨?_, fun p hp => ?_⟩
  · rw [List.map_append]
    refine List.Nodup.append h.nodup hbatch fun k hk hk' => ?_
    obtain ⟨p, hp, rfl⟩ := List.mem_map.1 hk
    exact hdisjoint p hp hk'
  · rcases List.mem_append.1 hp with hp | hp
    · rw [hframe p.1 (hdisjoint p hp)]
      exact h.recorded p hp
    · exact hnew p hp

end TagRegistry

/-!
## An index of keys by the items that hold them

Items stand at addresses, and each has a list of keys. An index gives for a key the item that holds it and the place in
its list. Two items never hold one key.
-/

namespace OwnerIndex

variable {A E P V : Type} [DecidableEq P]

/-- `idx[p] = (a, i)` for the keys of an item, from the place `i` on. -/
def addFrom (place : A → Nat → V) (a : A) (i : Nat) (idx : P → Option V) : List P → P → Option V
  | [] => idx
  | p :: ps => addFrom place a (i + 1) (Function.update idx p (some (place a i))) ps

def eraseAll (idx : P → Option V) : List P → P → Option V
  | [] => idx
  | p :: ps => eraseAll (Function.update idx p none) ps

variable {place : A → Nat → V} {keys : E → List P} {live live' : A → Option E} {idx : P → Option V} {a a' : A}
  {e e' : E} {p : P} {ps : List P} {v : V}

/-! ## Lookups -/

theorem addFrom_of_notMem (i : Nat) (h : p ∉ ps) : addFrom place a i idx ps p = idx p := by
  induction ps generalizing i idx with
  | nil => rfl
  | cons q ps ih =>
      rw [List.mem_cons, not_or] at h
      obtain ⟨hne, hnot⟩ := h
      exact (ih (i + 1) hnot).trans (Function.update_of_ne hne _ _)

theorem addFrom_of_mem (place : A → Nat → V) (a : A) (idx : P → Option V) (i : Nat) (h : p ∈ ps) :
    ∃ k, ps[k]? = some p ∧ addFrom place a i idx ps p = some (place a (i + k)) := by
  induction ps generalizing i idx with
  | nil => cases h
  | cons q ps ih =>
      rcases Decidable.em (p ∈ ps) with hmem | hnot
      · obtain ⟨k, hk, hadd⟩ := ih (Function.update idx q (some (place a i))) (i + 1) hmem
        refine ⟨k + 1, hk, ?_⟩
        rw [Nat.add_comm k 1, ← Nat.add_assoc]
        exact hadd
      · obtain rfl | hmem := List.mem_cons.mp h
        · refine ⟨0, rfl, ?_⟩
          exact (addFrom_of_notMem (i + 1) hnot).trans (Function.update_self _ _ _)
        · exact absurd hmem hnot

theorem eraseAll_of_notMem (h : p ∉ ps) : eraseAll idx ps p = idx p := by
  induction ps generalizing idx with
  | nil => rfl
  | cons q ps ih =>
      rw [List.mem_cons, not_or] at h
      obtain ⟨hne, hnot⟩ := h
      exact (ih hnot).trans (Function.update_of_ne hne _ _)

theorem eraseAll_of_mem (h : p ∈ ps) : eraseAll idx ps p = none := by
  induction ps generalizing idx with
  | nil => cases h
  | cons q ps ih =>
      rcases Decidable.em (p ∈ ps) with hmem | hnot
      · exact ih hmem
      · obtain rfl | hmem := List.mem_cons.mp h
        · exact (eraseAll_of_notMem hnot).trans (Function.update_self _ _ _)
        · exact absurd hmem hnot

/-! ## The index of the items -/

structure Indexes (place : A → Nat → V) (keys : E → List P) (live : A → Option E) (idx : P → Option V) :
    Prop where
  /-- What is found holds the key. -/
  sound : ∀ p v, idx p = some v → ∃ a i e, v = place a i ∧ live a = some e ∧ (keys e)[i]? = some p
  /-- The item that holds a key is found. -/
  complete : ∀ a e p, live a = some e → p ∈ keys e → ∃ i, idx p = some (place a i)

namespace Indexes

omit [DecidableEq P] in
theorem empty : Indexes place keys (fun _ => none) (fun _ => none) where
  sound _ _ h := nomatch h
  complete _ _ _ h := nomatch h

omit [DecidableEq P] in
theorem owner_unique (h : Indexes place keys live idx) (hplace : Function.Injective2 place)
    (ha : live a = some e) (ha' : live a' = some e') (hp : p ∈ keys e) (hp' : p ∈ keys e') : a = a' := by
  obtain ⟨i, hi⟩ := h.complete a e p ha hp
  obtain ⟨i', hi'⟩ := h.complete a' e' p ha' hp'
  exact (hplace (Option.some.inj (hi.symm.trans hi'))).1

omit [DecidableEq P] in
theorem eq_none_iff (h : Indexes place keys live idx) :
    idx p = none ↔ ∀ a e, live a = some e → p ∉ keys e := by
  constructor
  · intro hnone a e ha hp
    obtain ⟨i, hi⟩ := h.complete a e p ha hp
    rw [hnone] at hi
    cases hi
  · intro hall
    cases hidx : idx p with
    | none => rfl
    | some v =>
        obtain ⟨a, i, e, -, ha, hi⟩ := h.sound p v hidx
        exact absurd (List.mem_of_getElem? hi) (hall a e ha)

theorem insert [DecidableEq A] (h : Indexes place keys live idx) (ha : live a = none)
    (hnew : ∀ p ∈ keys e, idx p = none) :
    Indexes place keys (Function.update live a (some e)) (addFrom place a 0 idx (keys e)) := by
  constructor
  · intro p v hv
    rcases Decidable.em (p ∈ keys e) with hmem | hnot
    · obtain ⟨k, hk, hadd⟩ := addFrom_of_mem place a idx 0 hmem
      rw [hadd, Nat.zero_add] at hv
      exact ⟨a, k, e, (Option.some.inj hv).symm, Function.update_self _ _ _, hk⟩
    · rw [addFrom_of_notMem 0 hnot] at hv
      obtain ⟨a', i, e', hv, ha', hi⟩ := h.sound p v hv
      have hne : a' ≠ a := by
        rintro rfl
        rw [ha] at ha'
        cases ha'
      exact ⟨a', i, e', hv, (Function.update_of_ne hne _ _).trans ha', hi⟩
  · intro a' e' p ha' hp
    rcases Decidable.em (a' = a) with rfl | hne
    · rw [Function.update_self] at ha'
      cases ha'
      obtain ⟨k, -, hadd⟩ := addFrom_of_mem place a' idx 0 hp
      exact ⟨0 + k, hadd⟩
    · rw [Function.update_of_ne hne] at ha'
      obtain ⟨i, hi⟩ := h.complete a' e' p ha' hp
      have hnot : p ∉ keys e := by
        intro hmem
        rw [hnew p hmem] at hi
        cases hi
      exact ⟨i, (addFrom_of_notMem 0 hnot).trans hi⟩

/-- Keys may go when all the items that hold one of them hold no others and go with them. -/
theorem eraseAll (h : Indexes place keys live idx)
    (hkeep : ∀ a e, live' a = some e → live a = some e ∧ ∀ p ∈ keys e, p ∉ ps)
    (hgone : ∀ a e, live a = some e → live' a = some e ∨ ∀ p ∈ keys e, p ∈ ps) :
    Indexes place keys live' (eraseAll idx ps) := by
  constructor
  · intro p v hv
    rcases Decidable.em (p ∈ ps) with hmem | hnot
    · rw [eraseAll_of_mem hmem] at hv
      cases hv
    · rw [eraseAll_of_notMem hnot] at hv
      obtain ⟨a, i, e, hv, ha, hi⟩ := h.sound p v hv
      obtain ha' | hsub := hgone a e ha
      · exact ⟨a, i, e, hv, ha', hi⟩
      · exact absurd (hsub p (List.mem_of_getElem? hi)) hnot
  · intro a e p ha hp
    obtain ⟨hlive, hout⟩ := hkeep a e ha
    obtain ⟨i, hi⟩ := h.complete a e p hlive hp
    exact ⟨i, (eraseAll_of_notMem (hout p hp)).trans hi⟩

end Indexes

end OwnerIndex
