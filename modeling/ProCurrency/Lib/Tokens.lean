import Mathlib.Data.List.Basic

/-!
# The tokens of a string

A string is split at a delimiter. Where it ends at its first `stop`, the tokens are those up to the one that has it.
-/

namespace ProCurrency

namespace Tokens

variable {α : Type} [DecidableEq α] {d stop : α} {parts front rest : List (List α)} {c s : List α}

/-- The parts up to the first `stop`. -/
def cut (stop : α) : List (List α) → List (List α)
  | [] => []
  | c :: rest => if stop ∈ c then [c.takeWhile (· ≠ stop)] else c :: cut stop rest

theorem splitOn_takeWhile (hd : d ≠ stop) (s : List α) :
    (s.takeWhile (· ≠ stop)).splitOn d = cut stop (s.splitOn d) := by
  induction s with
  | nil => rfl
  | cons b s ih =>
      obtain ⟨head, tail, hparts⟩ := List.exists_cons_of_ne_nil (List.splitOn_ne_nil d s)
      rw [hparts] at ih
      rw [List.splitOn_cons_eq_if_modifyHead, hparts, List.modifyHead_cons]
      have hkeep (hb : b ≠ stop) (l : List α) : (b :: l).takeWhile (· ≠ stop) = b :: l.takeWhile (· ≠ stop) :=
        List.takeWhile_cons_of_pos (p := fun c => decide (c ≠ stop)) (decide_eq_true hb)
      by_cases hdelim : b = d
      · subst hdelim
        have hfirst (rest : List (List α)) : cut stop ([] :: rest) = [] :: cut stop rest := if_neg List.not_mem_nil
        rw [hkeep hd, List.splitOn_cons_eq_if_modifyHead, if_pos (beq_self_eq_true b), if_pos (beq_self_eq_true b), ih,
          hfirst]
      · have hbeq : ¬(b == d) = true := fun h => hdelim (eq_of_beq h)
        rw [if_neg hbeq, cut]
        by_cases hstop : b = stop
        · subst hstop
          have hnil (l : List α) : (b :: l).takeWhile (· ≠ b) = [] :=
            List.takeWhile_cons_of_neg (p := fun c => decide (c ≠ b)) (by simp)
          rw [if_pos List.mem_cons_self, hnil, hnil, List.splitOn_nil]
        · rw [hkeep hstop, hkeep hstop, List.splitOn_cons_eq_if_modifyHead, if_neg hbeq, ih, cut]
          by_cases hmem : stop ∈ head
          · rw [if_pos hmem, if_pos (List.mem_cons_of_mem b hmem)]
            rfl
          · have hnot : stop ∉ b :: head := fun h => (List.mem_cons.mp h).elim (fun h => hstop h.symm) hmem
            rw [if_neg hmem, if_neg hnot]
            rfl

theorem cut_eq_self (h : ∀ c ∈ parts, stop ∉ c) : cut stop parts = parts := by
  induction parts with
  | nil => rfl
  | cons c rest ih =>
      rw [cut, if_neg (h c List.mem_cons_self), ih fun c' hc' => h c' (List.mem_cons_of_mem c hc')]

theorem length_cut_le (hstop : stop ∈ c) (front rest : List (List α)) :
    (cut stop (front ++ c :: rest)).length ≤ front.length + 1 := by
  induction front with
  | nil =>
      rw [List.nil_append, cut, if_pos hstop]
      exact Nat.le_refl 1
  | cons a front ih =>
      rw [List.cons_append, cut]
      split
      · exact Nat.succ_le_succ (Nat.zero_le _)
      · exact Nat.succ_le_succ ih

/-! ## Tokens -/

/-- The parts that are not empty. -/
def tokens (d : α) (s : List α) : List (List α) := (s.splitOn d).filter (· ≠ [])

theorem tokens_token (hc : c ≠ []) (hd : d ∉ c) : tokens d c = [c] := by
  rw [tokens, List.splitOn_eq_singleton hd, List.filter_cons_of_pos (by simpa using hc), List.filter_nil]

theorem tokens_token_cons (hc : c ≠ []) (hd : d ∉ c) (s : List α) : tokens d (c ++ d :: s) = c :: tokens d s := by
  rw [tokens, List.splitOn_append_cons_self_of_not_mem hd, List.filter_cons_of_pos (by simpa using hc), tokens]

/-- What stands in a part stands in the string. -/
theorem mem_flatten_splitOn {b : α} (hb : b ≠ d) (s : List α) : (∃ c ∈ s.splitOn d, b ∈ c) ↔ b ∈ s := by
  induction s with
  | nil =>
      rw [List.splitOn_nil]
      simp
  | cons a s ih =>
      obtain ⟨head, tail, hparts⟩ := List.exists_cons_of_ne_nil (List.splitOn_ne_nil d s)
      rw [hparts] at ih
      rw [List.splitOn_cons_eq_if_modifyHead, hparts, List.mem_cons, ← ih]
      by_cases hdelim : a = d
      · subst hdelim
        rw [if_pos (beq_self_eq_true a)]
        simp [hb]
      · rw [if_neg fun h => hdelim (eq_of_beq h)]
        simp [or_assoc]

theorem mem_tokens {b : α} (hb : b ≠ d) (s : List α) : (∃ c ∈ tokens d s, b ∈ c) ↔ b ∈ s := by
  rw [← mem_flatten_splitOn hb s]
  refine ⟨fun ⟨c, hc, hbc⟩ => ⟨c, List.mem_of_mem_filter hc, hbc⟩, fun ⟨c, hc, hbc⟩ => ⟨c, ?_, hbc⟩⟩
  exact List.mem_filter.mpr ⟨hc, decide_eq_true (List.ne_nil_of_mem hbc)⟩

theorem not_mem_splitOn (s : List α) : ∀ c ∈ s.splitOn d, d ∉ c := by
  induction s with
  | nil =>
      intro c hc
      rw [List.splitOn_nil, List.mem_singleton] at hc
      rw [hc]
      exact List.not_mem_nil
  | cons a s ih =>
      obtain ⟨head, tail, hparts⟩ := List.exists_cons_of_ne_nil (List.splitOn_ne_nil d s)
      rw [hparts] at ih
      rw [List.splitOn_cons_eq_if_modifyHead, hparts]
      intro c hc
      by_cases hdelim : a = d
      · rw [if_pos (beq_iff_eq.mpr hdelim)] at hc
        rcases List.mem_cons.mp hc with rfl | hc
        · exact List.not_mem_nil
        · exact ih c hc
      · rw [if_neg fun h => hdelim (eq_of_beq h), List.modifyHead_cons] at hc
        rcases List.mem_cons.mp hc with rfl | hc
        · exact fun h => (List.mem_cons.mp h).elim (fun h => hdelim h.symm) (ih head List.mem_cons_self)
        · exact ih c (List.mem_cons_of_mem head hc)

/-- A token has characters, and no delimiter. -/
theorem token_of_mem (hc : c ∈ tokens d s) : c ≠ [] ∧ d ∉ c := by
  obtain ⟨hmem, hne⟩ := List.mem_filter.mp hc
  exact ⟨of_decide_eq_true hne, not_mem_splitOn s c hmem⟩

theorem infix_of_mem_splitOn (hc : c ∈ s.splitOn d) : c <:+: s := by
  obtain ⟨i, hi⟩ := List.getElem?_of_mem hc
  have hmem : c ∈ (s.splitOn d).intersperse [d] := List.mem_of_getElem? (List.getElem?_intersperse_two_mul.trans hi)
  have hmiddle := List.infix_of_mem_flatten hmem
  rw [← List.intercalate, List.intercalate_splitOn] at hmiddle
  exact hmiddle

end Tokens

end ProCurrency
