import Mathlib.Algebra.Group.Nat.Defs
import Mathlib.Data.List.Basic
import Mathlib.Data.List.GetD
import Mathlib.Data.List.Nodup
import Mathlib.Logic.Function.Iterate

/-!
# The levels of a hash tree

`pairUp` goes from one level of a tree to the next: neighbours are hashed together, and a last entry
without a neighbour is hashed with itself. Over an injective hash, lists without repetition are determined
by every level above them.
-/

namespace MerkleLevels

variable {α : Type} (hash : α → α → α)

def pairUp : List α → List α
  | [] => []
  | [a] => [hash a a]
  | a :: b :: l => hash a b :: pairUp l

/-- The level `height` over the leaves. -/
def level (height : Nat) (leaves : List α) : List α := (pairUp hash)^[height] leaves

@[simp] theorem level_zero (leaves : List α) : level hash 0 leaves = leaves := rfl

theorem level_succ (height : Nat) (leaves : List α) :
    level hash (height + 1) leaves = pairUp hash (level hash height leaves) :=
  Function.iterate_succ_apply' _ _ _

theorem level_add (i j : Nat) (leaves : List α) :
    level hash (i + j) leaves = level hash i (level hash j leaves) :=
  Function.iterate_add_apply _ _ _ _

/-! ## Width -/

theorem length_pairUp : (l : List α) → (pairUp hash l).length = (l.length + 1) / 2
  | [] => by simp [pairUp]
  | [_] => by simp [pairUp]
  | _ :: _ :: l => by
      rw [pairUp, List.length_cons, length_pairUp l, List.length_cons, List.length_cons]; omega

theorem length_level (height : Nat) (leaves : List α) :
    (level hash height leaves).length = (leaves.length + 2 ^ height - 1) / 2 ^ height := by
  induction height with
  | zero => simp
  | succ height ih =>
      have hpos : 0 < 2 ^ height := Nat.two_pow_pos height
      rw [level_succ, length_pairUp, ih, Nat.pow_succ, ← Nat.div_div_eq_div_mul,
        ← Nat.add_div_right _ hpos]
      congr 2; omega

theorem level_ne_nil {leaves : List α} (h : leaves ≠ []) (height : Nat) :
    level hash height leaves ≠ [] := by
  induction height with
  | zero => exact h
  | succ height ih =>
      rw [level_succ]
      intro hnil
      have hlen := length_pairUp hash (level hash height leaves)
      have hpos := List.length_pos_iff.mpr ih
      rw [hnil, List.length_nil] at hlen
      omega

/-! ## Entries -/

/-- The entry at `i` is made from the entries at `2 i` and `2 i + 1`, or from the former twice. -/
theorem getD_pairUp (d : α) : (l : List α) → (i : Nat) → 2 * i < l.length →
    (pairUp hash l).getD i d =
      hash (l.getD (2 * i) d) (if 2 * i + 1 < l.length then l.getD (2 * i + 1) d else l.getD (2 * i) d)
  | [], _, h => by simp at h
  | [a], i, h => by
      have hi : i = 0 := by simp at h; omega
      subst hi; rfl
  | a :: b :: l, 0, _ => by simp [pairUp]
  | a :: b :: l, i + 1, h => by
      have hl : 2 * i < l.length := by simp at h; omega
      rw [pairUp, List.getD_cons_succ, getD_pairUp d l i hl, show 2 * (i + 1) = 2 * i + 1 + 1 by omega]
      simp only [List.getD_cons_succ, List.length_cons, Nat.add_lt_add_iff_right]

/-- The first pair of what is left of a level. -/
theorem pairUp_drop (d : α) {l : List α} {i : Nat} (h : i < l.length) :
    pairUp hash (l.drop i) =
      hash (l.getD i d) (l.getD (min (i + 1) (l.length - 1)) d) :: pairUp hash (l.drop (i + 2)) := by
  rw [List.drop_eq_getElem_cons h, List.getD_eq_getElem l d h]
  by_cases hi : i + 1 < l.length
  · rw [List.drop_eq_getElem_cons hi, pairUp, Nat.min_eq_left (by omega), List.getD_eq_getElem l d hi]
  · rw [List.drop_eq_nil_of_le (by omega), List.drop_eq_nil_of_le (by omega), pairUp, pairUp,
      show min (i + 1) (l.length - 1) = i by omega, List.getD_eq_getElem l d h]

/-! ## The leaves below a node -/

section Leaves

variable {β : Type}

def leavesBelow (leaves : List β) (height pos : Nat) : List β :=
  (leaves.drop (pos * 2 ^ height)).take (2 ^ height)

theorem leavesBelow_succ (leaves : List β) (height pos : Nat) :
    leavesBelow leaves (height + 1) pos =
      leavesBelow leaves height (pos * 2) ++ leavesBelow leaves height (pos * 2 + 1) := by
  have hleft : pos * 2 ^ (height + 1) = pos * 2 * 2 ^ height := by rw [Nat.pow_succ', Nat.mul_assoc]
  have hright : pos * 2 * 2 ^ height + 2 ^ height = (pos * 2 + 1) * 2 ^ height := by
    rw [Nat.add_mul (pos * 2), Nat.one_mul]
  rw [leavesBelow, leavesBelow, leavesBelow, hleft, ← hright, Nat.pow_succ, Nat.mul_two, List.take_add,
    List.drop_drop]

theorem leavesBelow_zero {leaves : List β} {pos : Nat} (d : β) (h : pos < leaves.length) :
    leavesBelow leaves 0 pos = [leaves.getD pos d] := by
  rw [leavesBelow, Nat.pow_zero, Nat.mul_one, List.drop_eq_getElem_cons h, List.take_succ_cons,
    List.take_zero, List.getD_eq_getElem leaves d h]

theorem exists_of_mem_leavesBelow {leaves : List β} {height pos : Nat} {x : β}
    (h : x ∈ leavesBelow leaves height pos) :
    ∃ i, pos * 2 ^ height ≤ i ∧ i < pos * 2 ^ height + 2 ^ height ∧ leaves[i]? = some x := by
  obtain ⟨i, hi, rfl⟩ := List.mem_iff_getElem.mp h
  have hi' := hi
  rw [leavesBelow, List.length_take, List.length_drop] at hi'
  refine ⟨pos * 2 ^ height + i, by omega, by omega, ?_⟩
  simp only [leavesBelow, List.getElem_take, List.getElem_drop]
  exact List.getElem?_eq_getElem _

theorem leavesBelow_of_le {leaves : List β} {height pos : Nat} (h : leaves.length ≤ pos * 2 ^ height) :
    leavesBelow leaves height pos = [] := by
  rw [leavesBelow, List.drop_eq_nil_of_le h, List.take_nil]

theorem leavesBelow_top {leaves : List β} {height : Nat} (h : leaves.length ≤ 2 ^ height) :
    leavesBelow leaves height 0 = leaves := by
  rw [leavesBelow, Nat.zero_mul, List.drop_zero, List.take_of_length_le h]

end Leaves

/-! ## Injectivity -/

variable {hash}

theorem mem_pairUp {x : α} : {l : List α} → x ∈ pairUp hash l → ∃ a ∈ l, ∃ b, x = hash a b
  | [], h => by simp [pairUp] at h
  | [a], h => ⟨a, by simp, a, by simpa [pairUp] using h⟩
  | a :: b :: l, h => by
      rw [pairUp, List.mem_cons] at h
      rcases h with rfl | h
      · exact ⟨a, by simp, b, rfl⟩
      · obtain ⟨a', ha', b', hx⟩ := mem_pairUp h
        exact ⟨a', by simp [ha'], b', hx⟩

/-- A hash of two nodes determines them. -/
def PairInjective (hash : α → α → α) : Prop := ∀ a b c d, hash a b = hash c d → a = c ∧ b = d

theorem nodup_pairUp (hinj : PairInjective hash) : {l : List α} → l.Nodup → (pairUp hash l).Nodup
  | [], _ => List.nodup_nil
  | [a], _ => List.nodup_singleton _
  | a :: b :: l, h => by
      rw [List.nodup_cons, List.nodup_cons, List.mem_cons, not_or] at h
      rw [pairUp, List.nodup_cons]
      refine ⟨fun hmem => ?_, nodup_pairUp hinj h.2.2⟩
      obtain ⟨a', ha', b', heq⟩ := mem_pairUp hmem
      exact h.1.2 ((hinj _ _ _ _ heq).1 ▸ ha')

/-- Without repetition, a paired level determines the level below: only a repeated last entry could be
mistaken for an entry without a neighbour. -/
theorem pairUp_injOn (hinj : PairInjective hash) :
    {l l' : List α} → l.Nodup → l'.Nodup → pairUp hash l = pairUp hash l' → l = l'
  | [], [], _, _, _ => rfl
  | [], [_], _, _, h => by simp [pairUp] at h
  | [], _ :: _ :: _, _, _, h => by simp [pairUp] at h
  | [_], [], _, _, h => by simp [pairUp] at h
  | _ :: _ :: _, [], _, _, h => by simp [pairUp] at h
  | [a], [a'], _, _, h => by
      rw [pairUp, pairUp, List.cons.injEq] at h
      rw [(hinj _ _ _ _ h.1).1]
  | [a], a' :: b' :: l', _, hn, h => by
      rw [pairUp, pairUp, List.cons.injEq] at h
      obtain ⟨h1, h2⟩ := hinj _ _ _ _ h.1
      rw [← h1, ← h2] at hn
      simp at hn
  | a :: b :: l, [a'], hn, _, h => by
      rw [pairUp, pairUp, List.cons.injEq] at h
      obtain ⟨h1, h2⟩ := hinj _ _ _ _ h.1
      rw [h1, h2] at hn
      simp at hn
  | a :: b :: l, a' :: b' :: l', hn, hn', h => by
      rw [pairUp, pairUp, List.cons.injEq] at h
      obtain ⟨h1, h2⟩ := hinj _ _ _ _ h.1
      have htail := pairUp_injOn hinj hn.of_cons.of_cons hn'.of_cons.of_cons h.2
      rw [h1, h2, htail]

theorem nodup_level (hinj : PairInjective hash) (height : Nat) {leaves : List α} (h : leaves.Nodup) :
    (level hash height leaves).Nodup := by
  induction height with
  | zero => exact h
  | succ height ih => rw [level_succ]; exact nodup_pairUp hinj ih

theorem level_injOn (hinj : PairInjective hash) (height : Nat) {l l' : List α} (h : l.Nodup)
    (h' : l'.Nodup) (heq : level hash height l = level hash height l') : l = l' := by
  induction height with
  | zero => exact heq
  | succ height ih =>
      rw [level_succ, level_succ] at heq
      exact ih (pairUp_injOn hinj (nodup_level hinj height h) (nodup_level hinj height h') heq)

/-- Leaves that are no hashes lie on no level above other leaves. -/
theorem height_eq_zero {l l' : List α} {height : Nat} (hl : l ≠ []) (hleaf : ∀ x ∈ l, ∀ a b, x ≠ hash a b)
    (heq : l = level hash height l') : height = 0 := by
  cases height with
  | zero => rfl
  | succ height =>
      obtain ⟨x, hx⟩ := List.exists_mem_of_ne_nil l hl
      have hpair := hx
      rw [heq, level_succ] at hpair
      obtain ⟨a, -, b, hab⟩ := mem_pairUp hpair
      exact absurd hab (hleaf x hx a b)

/-- Leaves that are no hashes are determined by any one level, whatever its height. -/
theorem leaves_eq_of_level_eq (hinj : PairInjective hash) {l l' : List α} {i j : Nat}
    (hl : l ≠ []) (hl' : l' ≠ []) (hn : l.Nodup) (hn' : l'.Nodup)
    (hleaf : ∀ x ∈ l, ∀ a b, x ≠ hash a b) (hleaf' : ∀ x ∈ l', ∀ a b, x ≠ hash a b)
    (heq : level hash i l = level hash j l') : l = l' := by
  rcases Nat.le_total i j with hij | hij
  · obtain ⟨k, rfl⟩ := Nat.exists_eq_add_of_le hij
    rw [level_add] at heq
    have hbase := level_injOn hinj i hn (nodup_level hinj k hn') heq
    rwa [height_eq_zero hl hleaf hbase] at hbase
  · obtain ⟨k, rfl⟩ := Nat.exists_eq_add_of_le hij
    rw [level_add] at heq
    have hbase := level_injOn hinj j (nodup_level hinj k hn) hn' heq
    rwa [height_eq_zero hl' hleaf' hbase.symm] at hbase

end MerkleLevels
