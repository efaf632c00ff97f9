import Mathlib.Data.Finset.Union
import Mathlib.Data.Finset.Pairwise
import Mathlib.Logic.Relation

/-!
# Components of overlapping groups

Groups come one after another, and each is merged with the parts that it meets. What is left in the end are the
components: two elements are in one part exactly when a chain of groups leads from one to the other.
-/

namespace Components

variable {α : Type}

/-- One of the sets has both. -/
def Share (sets : Set (Finset α)) (a b : α) : Prop := ∃ s ∈ sets, a ∈ s ∧ b ∈ s

structure IsComponents (groups : Set (Finset α)) (parts : Finset (Finset α)) : Prop where
  disjoint : (parts : Set (Finset α)).PairwiseDisjoint id
  share_iff : ∀ a b, Share parts a b ↔ Relation.TransGen (Share groups) a b

variable {groups : Set (Finset α)} {parts : Finset (Finset α)} {group : Finset α} {a b : α}

theorem Share.symm {sets : Set (Finset α)} (h : Share sets a b) : Share sets b a := by
  obtain ⟨s, hs, ha, hb⟩ := h
  exact ⟨s, hs, hb, ha⟩

theorem Share.mono {sets sets' : Set (Finset α)} (hsub : sets ⊆ sets') : Share sets ≤ Share sets' := by
  rintro a b ⟨s, hs, h⟩
  exact ⟨s, hsub hs, h⟩

theorem transGen_share_symm {sets : Set (Finset α)} (h : Relation.TransGen (Share sets) a b) :
    Relation.TransGen (Share sets) b a := by
  induction h with
  | single h => exact Relation.TransGen.single h.symm
  | tail _ hbc ih => exact ih.head hbc.symm

/-- To be in one of disjoint sets is transitive. -/
theorem isTrans_share (h : (parts : Set (Finset α)).PairwiseDisjoint id) : IsTrans α (Share parts) := by
  constructor
  rintro a b c ⟨s, hs, ha, hb⟩ ⟨t, ht, hb', hc⟩
  obtain rfl := h.elim_finset hs ht b hb hb'
  exact ⟨s, hs, ha, hc⟩

theorem IsComponents.empty : IsComponents (∅ : Set (Finset α)) ∅ := by
  refine ⟨by simp [Set.PairwiseDisjoint], fun a b => ⟨?_, fun h => ?_⟩⟩
  · rintro ⟨s, hs, -⟩
    exact absurd hs (Finset.notMem_empty s)
  · obtain ⟨c, -, s, hs, -⟩ := Relation.TransGen.tail'_iff.mp h
    cases hs

variable [DecidableEq α]

/-- The new group and all the parts that it meets become one part. -/
def absorb (parts : Finset (Finset α)) (group : Finset α) : Finset (Finset α) :=
  insert (group ∪ (parts.filter fun s => ¬Disjoint s group).biUnion id) (parts.filter fun s => Disjoint s group)

theorem mem_merged (ha : a ∈ group ∪ (parts.filter fun s => ¬Disjoint s group).biUnion id) :
    a ∈ group ∨ ∃ s ∈ parts, a ∈ s ∧ ∃ c ∈ group, c ∈ s := by
  rcases Finset.mem_union.mp ha with ha | ha
  · exact Or.inl ha
  · obtain ⟨s, hs, has⟩ := Finset.mem_biUnion.mp ha
    obtain ⟨hparts, hmeets⟩ := Finset.mem_filter.mp hs
    obtain ⟨c, hcs, hcg⟩ := Finset.not_disjoint_iff.mp hmeets
    exact Or.inr ⟨s, hparts, has, c, hcg, hcs⟩

theorem disjoint_absorb (group : Finset α) (h : (parts : Set (Finset α)).PairwiseDisjoint id) :
    (absorb parts group : Set (Finset α)).PairwiseDisjoint id := by
  rw [absorb, Finset.coe_insert]
  refine Set.PairwiseDisjoint.insert (h.subset (Finset.coe_subset.mpr (Finset.filter_subset _ _))) ?_
  intro s hs _
  obtain ⟨hparts, hapart⟩ := Finset.mem_filter.mp (Finset.mem_coe.mp hs)
  rw [id, id, Finset.disjoint_left]
  intro a ha has
  rcases mem_merged ha with ha | ⟨t, ht, hat, c, hc, hct⟩
  · exact Finset.disjoint_left.mp hapart has ha
  · obtain rfl := h.elim_finset hparts ht a has hat
    exact Finset.disjoint_left.mp hapart hct hc

namespace IsComponents

/-- A chain leads from each element of the merged part to the new group. -/
theorem exists_mem_group (h : IsComponents groups parts)
    (ha : a ∈ group ∪ (parts.filter fun s => ¬Disjoint s group).biUnion id) :
    ∃ c ∈ group, Relation.TransGen (Share (insert group groups)) a c := by
  rcases mem_merged ha with ha | ⟨s, hs, has, c, hc, hcs⟩
  · exact ⟨a, ha, Relation.TransGen.single ⟨group, Set.mem_insert _ _, ha, ha⟩⟩
  · have hchain := (h.share_iff a c).mp ⟨s, hs, has, hcs⟩
    exact ⟨c, hc, Relation.TransGen.mono (Share.mono (Set.subset_insert _ _)) _ _ hchain⟩

theorem absorb (h : IsComponents groups parts) (group : Finset α) :
    IsComponents (insert group groups) (absorb parts group) := by
  have hdisjoint := disjoint_absorb group h.disjoint
  refine ⟨hdisjoint, fun a b => ⟨?_, ?_⟩⟩
  · rintro ⟨s, hs, ha, hb⟩
    rcases Finset.mem_insert.mp (Finset.mem_coe.mp hs) with rfl | hs
    · obtain ⟨c, hc, hac⟩ := h.exists_mem_group ha
      obtain ⟨d, hd, hbd⟩ := h.exists_mem_group hb
      exact (hac.tail ⟨group, Set.mem_insert _ _, hc, hd⟩).trans (transGen_share_symm hbd)
    · have hchain := (h.share_iff a b).mp ⟨s, (Finset.mem_filter.mp hs).1, ha, hb⟩
      exact Relation.TransGen.mono (Share.mono (Set.subset_insert _ _)) _ _ hchain
  · have htrans := isTrans_share hdisjoint
    refine Relation.transGen_minimal ?_ a b
    rintro a b ⟨s, hs, ha, hb⟩
    rcases Set.mem_insert_iff.mp hs with rfl | hs
    · exact ⟨_, Finset.mem_coe.mpr (Finset.mem_insert_self _ _), Finset.mem_union_left _ ha, Finset.mem_union_left _ hb⟩
    · obtain ⟨t, ht, hat, hbt⟩ := (h.share_iff a b).mpr (Relation.TransGen.single ⟨s, hs, ha, hb⟩)
      by_cases hmeets : Disjoint t group
      · exact ⟨t, Finset.mem_coe.mpr (Finset.mem_insert_of_mem (Finset.mem_filter.mpr ⟨ht, hmeets⟩)), hat, hbt⟩
      · have hmem : t ∈ parts.filter fun s => ¬Disjoint s group := Finset.mem_filter.mpr ⟨ht, hmeets⟩
        have hsub := Finset.subset_biUnion_of_mem (u := id) hmem
        exact ⟨_, Finset.mem_coe.mpr (Finset.mem_insert_self _ _), Finset.mem_union_right _ (hsub hat),
          Finset.mem_union_right _ (hsub hbt)⟩

/-- The parts after all groups of a list, in whatever order. -/
theorem foldl_absorb (h : IsComponents groups parts) (gs : List (Finset α)) :
    IsComponents (groups ∪ {g | g ∈ gs}) (gs.foldl Components.absorb parts) := by
  induction gs generalizing groups parts with
  | nil => simpa using h
  | cons g gs ih =>
      have hnext := ih (h.absorb g)
      have hset : insert g groups ∪ {x | x ∈ gs} = groups ∪ {x | x ∈ g :: gs} := by
        ext x
        simp only [Set.mem_union, Set.mem_insert_iff, Set.mem_ofPred_eq, List.mem_cons]
        tauto
      rwa [hset] at hnext

end IsComponents

end Components
