import Mathlib.Data.List.Basic

/-!
# Prefix codes

A writer whose output can be told from what comes after it, up to a view of what is written. Lists of such values
can be told apart as well: when they have the same length, and when nothing comes after them.
-/

namespace PrefixCode

variable {B α β γ δ : Type}

/-- Bytes that start with a written value that meets `P` give its view, and the bytes after it. -/
def SplitsOff (P : α → Prop) (write : α → List B) (view : α → β) : Prop :=
  ∀ a a', P a → P a' → ∀ s s', write a ++ s = write a' ++ s' → view a = view a' ∧ s = s'

variable {P : α → Prop} {write : α → List B} {view : α → β}

theorem splitsOff_of_length (size : Nat) (hlength : ∀ a, P a → (write a).length = size)
    (hinjective : ∀ a a', P a → P a' → write a = write a' → view a = view a') : SplitsOff P write view := by
  intro a a' ha ha' s s' h
  obtain ⟨hwrite, hrest⟩ := List.append_inj h ((hlength a ha).trans (hlength a' ha').symm)
  exact ⟨hinjective a a' ha ha' hwrite, hrest⟩

theorem SplitsOff.imp {view' : α → γ} (h : SplitsOff P write view)
    (himp : ∀ a a', view a = view a' → view' a = view' a') : SplitsOff P write view' := by
  intro a a' ha ha' s s' heq
  obtain ⟨hview, hrest⟩ := h a a' ha ha' s s' heq
  exact ⟨himp a a' hview, hrest⟩

/-- One value after another, where the first may say how the second is written. -/
theorem SplitsOff.append {write' : α → List B} {view' : α → γ} (h : SplitsOff P write view)
    (h' : ∀ a a', P a → P a' → view a = view a' → ∀ s s', write' a ++ s = write' a' ++ s' → view' a = view' a' ∧ s = s') :
    SplitsOff P (fun a => write a ++ write' a) fun a => (view a, view' a) := by
  intro a a' ha ha' s s' heq
  rw [List.append_assoc, List.append_assoc] at heq
  obtain ⟨hview, hrest⟩ := h a a' ha ha' _ _ heq
  obtain ⟨hview', hrest'⟩ := h' a a' ha ha' hview s s' hrest
  exact ⟨Prod.ext hview hview', hrest'⟩

/-- Two lists of the same length with something after them. -/
theorem SplitsOff.flatMap {as as' : List α} {s s' : List B} (h : SplitsOff P write view) (has : ∀ a ∈ as, P a)
    (has' : ∀ a ∈ as', P a) (hlength : as.length = as'.length)
    (heq : as.flatMap write ++ s = as'.flatMap write ++ s') : as.map view = as'.map view ∧ s = s' := by
  induction as generalizing as' with
  | nil =>
      obtain rfl := List.length_eq_zero_iff.mp hlength.symm
      exact ⟨rfl, heq⟩
  | cons a as ih =>
      cases as' with
      | nil => cases hlength
      | cons a' as' =>
          obtain ⟨ha, has⟩ := List.forall_mem_cons.mp has
          obtain ⟨ha', has'⟩ := List.forall_mem_cons.mp has'
          rw [List.flatMap_cons, List.flatMap_cons, List.append_assoc, List.append_assoc] at heq
          obtain ⟨hview, hrest⟩ := h a a' ha ha' _ _ heq
          obtain ⟨hviews, hs⟩ := ih has has' (Nat.succ.inj hlength) hrest
          rw [List.map_cons, List.map_cons, hview, hviews]
          exact ⟨rfl, hs⟩

/-- Two lists with nothing after them. -/
theorem SplitsOff.flatMap_eq {as as' : List α} (h : SplitsOff P write view) (hne : ∀ a, write a ≠ [])
    (has : ∀ a ∈ as, P a) (has' : ∀ a ∈ as', P a) (heq : as.flatMap write = as'.flatMap write) :
    as.map view = as'.map view := by
  induction as generalizing as' with
  | nil =>
      cases as' with
      | nil => rfl
      | cons a' as' => exact absurd (List.append_eq_nil_iff.mp heq.symm).1 (hne a')
  | cons a as ih =>
      cases as' with
      | nil => exact absurd (List.append_eq_nil_iff.mp heq).1 (hne a)
      | cons a' as' =>
          obtain ⟨ha, has⟩ := List.forall_mem_cons.mp has
          obtain ⟨ha', has'⟩ := List.forall_mem_cons.mp has'
          obtain ⟨hview, hrest⟩ := h a a' ha ha' _ _ heq
          rw [List.map_cons, List.map_cons, hview, ih has has' hrest]

end PrefixCode
