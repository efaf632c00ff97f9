import Mathlib.Data.List.Induction
import Mathlib.Data.List.Nodup
import Mathlib.Logic.Function.Basic

/-!
# Greedy matching

Items are offered one after another, and each goes to the first free slot that accepts it. What comes out is the one
matching in which no item and no slot that accepts it are both left with something later.
-/

namespace GreedyMatching

variable {α β : Type} (accepts : α → β → Bool)

/-! ## Offers -/

section Offer

variable [DecidableEq β] (slots : List β)

/-- One item is offered. -/
def offer (taken : β → Option α) (a : α) : β → Option α :=
  match slots.find? fun b => (taken b).isNone && accepts a b with
  | none => taken
  | some b => Function.update taken b (some a)

def assign (items : List α) : β → Option α := items.foldl (offer accepts slots) fun _ => none

variable {accepts slots} {taken : β → Option α} {a : α}

/-- What is found comes before everything else that could be. -/
theorem idxOf_find? {p : β → Bool} {b₀ b : β} (hfind : slots.find? p = some b₀) (hb : p b) :
    b = b₀ ∨ slots.idxOf b₀ < slots.idxOf b := by
  induction slots with
  | nil => cases hfind
  | cons x slots ih =>
      rw [List.find?_cons] at hfind
      split at hfind
      · cases hfind
        by_cases heq : b = b₀
        · exact Or.inl heq
        · rw [List.idxOf_cons_self, List.idxOf_cons_ne _ (Ne.symm heq)]
          exact Or.inr (Nat.succ_pos _)
      · rename_i hx
        have hne : ∀ {b}, p b = true → x ≠ b := by
          rintro b hb rfl
          rw [hb] at hx
          cases hx
        have hb₀ := List.find?_some hfind
        rw [List.idxOf_cons_ne _ (hne hb₀), List.idxOf_cons_ne _ (hne hb)]
        exact (ih hfind).imp_right Nat.succ_lt_succ

/-- An item that is offered is left over, or the first free slot takes it. -/
theorem offer_cases (taken : β → Option α) (a : α) :
    (offer accepts slots taken a = taken ∧ ∀ b ∈ slots, taken b = none → accepts a b = false) ∨
      ∃ b₀ ∈ slots, taken b₀ = none ∧ accepts a b₀ ∧
        (∀ b, taken b = none → accepts a b → b = b₀ ∨ slots.idxOf b₀ < slots.idxOf b) ∧
        offer accepts slots taken a = Function.update taken b₀ (some a) := by
  rw [offer]
  cases hfind : slots.find? fun b => (taken b).isNone && accepts a b with
  | none =>
      refine Or.inl ⟨rfl, fun b hb hfree => ?_⟩
      have hnone := List.find?_eq_none.1 hfind b hb
      rwa [hfree, Option.isNone_none, Bool.true_and, Bool.not_eq_true] at hnone
  | some b₀ =>
      have hsome := List.find?_some hfind
      rw [Bool.and_eq_true, Option.isNone_iff_eq_none] at hsome
      refine Or.inr ⟨b₀, List.mem_of_find?_eq_some hfind, hsome.1, hsome.2, fun b hfree haccepts => ?_, rfl⟩
      refine idxOf_find? hfind ?_
      rw [hfree, haccepts]
      rfl

end Offer

/-! ## Stable matchings -/

variable [DecidableEq α] [DecidableEq β]

/-- Each item is used once, and an item that a slot accepts is not refused there for a later item, unless a slot in
front has it. -/
structure Stable (slots : List β) (items : List α) (f : β → Option α) : Prop where
  accepted : ∀ b ∈ slots, ∀ a, f b = some a → a ∈ items ∧ accepts a b
  once : ∀ b ∈ slots, ∀ b' ∈ slots, ∀ a, f b = some a → f b' = some a → b = b'
  settled : ∀ a ∈ items, ∀ b ∈ slots, accepts a b →
    (∃ a', f b = some a' ∧ items.idxOf a' ≤ items.idxOf a) ∨
      ∃ b' ∈ slots, f b' = some a ∧ slots.idxOf b' < slots.idxOf b

namespace Stable

variable {accepts} {slots : List β} {items before : List α} {f taken : β → Option α} {a : α}

/-- One offer keeps the matching stable. -/
theorem offer (hnew : a ∉ before) (h : Stable accepts slots before taken) :
    Stable accepts slots (before ++ [a]) (offer accepts slots taken a) := by
  have hidx : ∀ {a'}, a' ∈ before → (before ++ [a]).idxOf a' = before.idxOf a' := fun hmem =>
    List.idxOf_append_of_mem hmem
  have hlast : ∀ {a'}, a' ∈ before → (before ++ [a]).idxOf a' ≤ (before ++ [a]).idxOf a := by
    intro a' hmem
    rw [hidx hmem, List.idxOf_append_of_notMem hnew]
    exact Nat.le_trans (Nat.le_of_lt (List.idxOf_lt_length_of_mem hmem)) (Nat.le_add_right _ _)
  have hmem : ∀ {b}, b ∈ slots → ∀ {a'}, taken b = some a' → a' ∈ before := fun hb a' htaken =>
    (h.accepted _ hb a' htaken).1
  obtain ⟨heq, hnone⟩ | ⟨b₀, hb₀, hfree₀, haccepts₀, hfirst, heq⟩ := @offer_cases α β accepts _ slots taken a
  · rw [heq]
    refine ⟨fun b hb a' htaken => ?_, h.once, fun a' ha' b hb haccepts => ?_⟩
    · obtain ⟨hbefore, haccepts⟩ := h.accepted b hb a' htaken
      exact ⟨List.mem_append_left _ hbefore, haccepts⟩
    · rcases List.mem_append.1 ha' with ha' | ha'
      · refine (h.settled a' ha' b hb haccepts).imp_left ?_
        rintro ⟨a'', htaken, hle⟩
        exact ⟨a'', htaken, by rwa [hidx ha', hidx (hmem hb htaken)]⟩
      · cases List.mem_singleton.1 ha'
        cases htaken : taken b with
        | none =>
            rw [hnone b hb htaken] at haccepts
            cases haccepts
        | some a'' => exact Or.inl ⟨a'', rfl, hlast (hmem hb htaken)⟩
  · have hold : ∀ {b}, b ≠ b₀ → Function.update taken b₀ (some a) b = taken b := fun hne =>
      Function.update_of_ne hne _ _
    have hself : Function.update taken b₀ (some a) b₀ = some a := Function.update_self _ _ _
    have htaken₀ : ∀ {b a'}, taken b = some a' → b ≠ b₀ := by
      rintro b a' htaken rfl
      rw [hfree₀] at htaken
      cases htaken
    rw [heq]
    refine ⟨fun b hb a' htaken => ?_, fun b hb b' hb' a' htaken htaken' => ?_, fun a' ha' b hb haccepts => ?_⟩
    · by_cases hb₀ : b = b₀
      · subst hb₀
        rw [hself] at htaken
        cases htaken
        exact ⟨List.mem_append_right _ List.mem_cons_self, haccepts₀⟩
      · rw [hold hb₀] at htaken
        obtain ⟨hbefore, haccepts⟩ := h.accepted b hb a' htaken
        exact ⟨List.mem_append_left _ hbefore, haccepts⟩
    · by_cases hb₀ : b = b₀
      · by_cases hb₀' : b' = b₀
        · rw [hb₀, hb₀']
        · subst hb₀
          rw [hself] at htaken
          cases htaken
          rw [hold hb₀'] at htaken'
          exact absurd (hmem hb' htaken') hnew
      · rw [hold hb₀] at htaken
        by_cases hb₀' : b' = b₀
        · subst hb₀'
          rw [hself] at htaken'
          cases htaken'
          exact absurd (hmem hb htaken) hnew
        · rw [hold hb₀'] at htaken'
          exact h.once b hb b' hb' a' htaken htaken'
    · rcases List.mem_append.1 ha' with ha' | ha'
      · rcases h.settled a' ha' b hb haccepts with ⟨a'', htaken, hle⟩ | ⟨b', hb', htaken, hlt⟩
        · refine Or.inl ⟨a'', (hold (htaken₀ htaken)).trans htaken, ?_⟩
          rwa [hidx ha', hidx (hmem hb htaken)]
        · exact Or.inr ⟨b', hb', (hold (htaken₀ htaken)).trans htaken, hlt⟩
      · cases List.mem_singleton.1 ha'
        cases htaken : taken b with
        | some a'' => exact Or.inl ⟨a'', (hold (htaken₀ htaken)).trans htaken, hlast (hmem hb htaken)⟩
        | none =>
            rcases hfirst b htaken haccepts with rfl | hlt
            · exact Or.inl ⟨a, hself, Nat.le_refl _⟩
            · exact Or.inr ⟨b₀, hb₀, hself, hlt⟩

theorem assign (hnodup : items.Nodup) : Stable accepts slots items (assign accepts slots items) := by
  induction items using List.reverseRecOn with
  | nil => exact ⟨fun _ _ _ h => (nomatch h), fun _ _ _ _ _ h => (nomatch h), fun _ h => (nomatch h)⟩
  | append_singleton before a ih =>
      obtain ⟨hbefore, -, hdisjoint⟩ := List.nodup_append.1 hnodup
      rw [GreedyMatching.assign, List.foldl_append]
      exact (ih hbefore).offer fun hmem => hdisjoint a hmem a List.mem_cons_self rfl

/-- A free slot that accepts an item has it in the end, or a slot in front has. -/
theorem of_free {after : List α} (hnodup : (before ++ a :: after).Nodup)
    (h : Stable accepts slots (before ++ a :: after) f) {b : β} (hb : b ∈ slots) (haccepts : accepts a b)
    (hfree : (f b).filter (· ∈ before) = none) :
    f b = some a ∨ ∃ b' ∈ slots, f b' = some a ∧ slots.idxOf b' < slots.idxOf b := by
  have hnew : a ∉ before := fun hmem => (List.nodup_append.1 hnodup).2.2 a hmem a List.mem_cons_self rfl
  refine (h.settled a (List.mem_append_right _ List.mem_cons_self) b hb haccepts).imp_left ?_
  rintro ⟨a', hf, hle⟩
  have hbefore : a' ∉ before := by
    intro hmem
    have hsome : (some a').filter (· ∈ before) = some a' := Option.filter_some_pos (decide_eq_true hmem)
    rw [hf, hsome] at hfree
    cases hfree
  by_contra hne
  have hne' : a ≠ a' := by
    rintro rfl
    exact hne hf
  rw [List.idxOf_append_of_notMem hbefore, List.idxOf_append_of_notMem hnew, List.idxOf_cons_self,
    List.idxOf_cons_ne _ hne'] at hle
  omega

/-- There is one stable matching. -/
theorem assign_eq (hnodup : items.Nodup) (h : Stable accepts slots items f) :
    ∀ b ∈ slots, GreedyMatching.assign accepts slots items b = f b := by
  have hstep : ∀ {before after : List α} {a : α} {taken : β → Option α}, items = before ++ a :: after →
      (∀ b ∈ slots, taken b = (f b).filter (· ∈ before)) →
      ∀ b ∈ slots, GreedyMatching.offer accepts slots taken a b = (f b).filter (· ∈ before ++ [a]) := by
    rintro before after a taken rfl htaken
    have hnew : a ∉ before := fun hmem => (List.nodup_append.1 hnodup).2.2 a hmem a List.mem_cons_self rfl
    have hgiven : ∀ {b}, b ∈ slots → f b = some a → taken b = none ∧ accepts a b := by
      intro b hb hf
      rw [htaken b hb, hf, Option.filter_some_neg (by simpa using hnew)]
      exact ⟨rfl, (h.accepted b hb a hf).2⟩
    have hother : ∀ {b}, b ∈ slots → f b ≠ some a → taken b = (f b).filter (· ∈ before ++ [a]) := by
      intro b hb hne
      rw [htaken b hb]
      cases hf : f b with
      | none => rfl
      | some a' =>
          have hne' : a' ≠ a := by
            rintro rfl
            exact hne hf
          simp [Option.filter, hne']
    intro b hb
    obtain ⟨heq, hnone⟩ | ⟨b₀, hb₀, hfree₀, haccepts₀, hfirst, heq⟩ := @offer_cases α β accepts _ slots taken a
    · rw [heq]
      refine hother hb fun hf => ?_
      obtain ⟨hfree, haccepts⟩ := hgiven hb hf
      rw [hnone b hb hfree] at haccepts
      cases haccepts
    · have hf₀ : f b₀ = some a := by
        rw [htaken b₀ hb₀] at hfree₀
        rcases h.of_free hnodup hb₀ haccepts₀ hfree₀ with hf | ⟨b', hb', hf, hlt⟩
        · exact hf
        · obtain ⟨hfree, haccepts⟩ := hgiven hb' hf
          rcases hfirst b' hfree haccepts with rfl | hlt'
          · exact hf
          · exact absurd hlt' (Nat.lt_asymm hlt)
      rw [heq]
      by_cases hb' : b = b₀
      · subst hb'
        rw [Function.update_self, hf₀, Option.filter_some_pos (by simp)]
      · rw [Function.update_of_ne hb']
        exact hother hb fun hf => hb' (h.once b hb b₀ hb₀ a hf hf₀)
  have hrun : ∀ (after before : List α) (taken : β → Option α), items = before ++ after →
      (∀ b ∈ slots, taken b = (f b).filter (· ∈ before)) →
      ∀ b ∈ slots, after.foldl (GreedyMatching.offer accepts slots) taken b = f b := by
    intro after
    induction after with
    | nil =>
        intro before taken hitems htaken b hb
        rw [List.append_nil] at hitems
        rw [List.foldl_nil, htaken b hb, ← hitems]
        cases hf : f b with
        | none => rfl
        | some a => exact Option.filter_some_pos (decide_eq_true (h.accepted b hb a hf).1)
    | cons a after ih =>
        intro before taken hitems htaken b hb
        exact ih (before ++ [a]) _ (by rw [hitems, List.append_assoc]; rfl) (hstep hitems htaken) b hb
  refine hrun items [] _ rfl fun b _ => ?_
  cases f b with
  | none => rfl
  | some a => exact (Option.filter_some_neg (by simp)).symm

end Stable

end GreedyMatching
