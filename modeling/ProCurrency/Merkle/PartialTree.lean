import Mathlib.Algebra.Group.Defs
import ProCurrency.Merkle.BlockTree

/-!
# Partial Merkle trees

`CPartialMerkleTree` (main.h, main.cpp): the part of a block's hash tree that proves some of its txids.
The hash of two nodes is a parameter. At most `MAX_BLOCK_SIZE / 60` txids are ever looked at, so the
32-bit widths and positions do not overflow.
-/

namespace ProCurrency

def MAX_BLOCK_SIZE : Nat := 20000000

/-- What `TraverseAndBuild` appends to. -/
structure PartialMerkleData (α : Type) where
  vBits : List Bool
  vHash : List α
  deriving Repr, DecidableEq

structure CPartialMerkleTree (α : Type) extends PartialMerkleData α where
  nTransactions : Nat
  fBad : Bool
  deriving Repr, DecidableEq

variable {α : Type} [Zero α] (hash : α → α → α)

/-- The number of nodes at a height. -/
def calcTreeWidth (nTransactions height : Nat) : Nat := (nTransactions + 2 ^ height - 1) / 2 ^ height

/-- `while (CalcTreeWidth(nHeight) > 1) nHeight++`. -/
def calcTreeHeight (nTransactions nHeight : Nat) : Nat :=
  if calcTreeWidth nTransactions nHeight > 1 then calcTreeHeight nTransactions (nHeight + 1) else nHeight
termination_by nTransactions - 2 ^ nHeight
decreasing_by
  rename_i h
  have hlt : 2 * 2 ^ nHeight ≤ nTransactions + 2 ^ nHeight - 1 :=
    (Nat.le_div_iff_mul_le (Nat.two_pow_pos nHeight)).mp h
  have hpos := Nat.two_pow_pos nHeight
  rw [Nat.pow_succ']
  omega

def calcHash (vTxid : List α) : Nat → Nat → α
  | 0, pos => vTxid.getD pos 0
  | height + 1, pos =>
      let left := calcHash vTxid height (pos * 2)
      let right :=
        if pos * 2 + 1 < calcTreeWidth vTxid.length height then calcHash vTxid height (pos * 2 + 1)
        else left
      hash left right

/-! ## Building -/

/-- Whether the node is the parent of a matched txid: the loop over `p` in `TraverseAndBuild`. -/
def parentOfMatch (nTransactions : Nat) (vMatch : List Bool) (height pos : Nat) : Bool :=
  (List.range' (pos * 2 ^ height) (2 ^ height)).any fun p => p < nTransactions && vMatch.getD p false

def traverseAndBuild (vTxid : List α) (vMatch : List Bool) :
    Nat → Nat → PartialMerkleData α → PartialMerkleData α
  | 0, pos, t =>
      { vBits := t.vBits ++ [parentOfMatch vTxid.length vMatch 0 pos]
        vHash := t.vHash ++ [calcHash hash vTxid 0 pos] }
  | height + 1, pos, t =>
      let fParentOfMatch := parentOfMatch vTxid.length vMatch (height + 1) pos
      let t := { t with vBits := t.vBits ++ [fParentOfMatch] }
      if fParentOfMatch then
        let t := traverseAndBuild vTxid vMatch height (pos * 2) t
        if pos * 2 + 1 < calcTreeWidth vTxid.length height then
          traverseAndBuild vTxid vMatch height (pos * 2 + 1) t
        else t
      else { t with vHash := t.vHash ++ [calcHash hash vTxid (height + 1) pos] }

/-- The constructor from a list of txids and a mask. -/
def CPartialMerkleTree.build (vTxid : List α) (vMatch : List Bool) : CPartialMerkleTree α where
  toPartialMerkleData :=
    traverseAndBuild hash vTxid vMatch (calcTreeHeight vTxid.length 0) 0 { vBits := [], vHash := [] }
  nTransactions := vTxid.length
  fBad := false

/-! ## Extracting -/

/-- What `TraverseAndExtract` reads and writes on its way. -/
structure ExtractState (α : Type) where
  nBitsUsed : Nat
  nHashUsed : Nat
  vMatch : List α
  fBad : Bool
  deriving Repr, DecidableEq

/-- A node whose hash is stored: a leaf, or a node that is no parent of a match. -/
def extractStored (t : CPartialMerkleTree α) (fMatched : Bool) (s : ExtractState α) :
    α × ExtractState α :=
  if s.nHashUsed ≥ t.vHash.length then (0, { s with fBad := true })
  else
    let h := t.vHash.getD s.nHashUsed 0
    let s := { s with nHashUsed := s.nHashUsed + 1 }
    (h, if fMatched then { s with vMatch := s.vMatch ++ [h] } else s)

def traverseAndExtract (t : CPartialMerkleTree α) : Nat → Nat → ExtractState α → α × ExtractState α
  | 0, _, s =>
      if s.nBitsUsed ≥ t.vBits.length then (0, { s with fBad := true })
      else
        let fParentOfMatch := t.vBits.getD s.nBitsUsed false
        extractStored t fParentOfMatch { s with nBitsUsed := s.nBitsUsed + 1 }
  | height + 1, pos, s =>
      if s.nBitsUsed ≥ t.vBits.length then (0, { s with fBad := true })
      else
        let fParentOfMatch := t.vBits.getD s.nBitsUsed false
        let s := { s with nBitsUsed := s.nBitsUsed + 1 }
        if fParentOfMatch then
          let (left, s) := traverseAndExtract t height (pos * 2) s
          if pos * 2 + 1 < calcTreeWidth t.nTransactions height then
            let (right, s) := traverseAndExtract t height (pos * 2 + 1) s
            (hash left right, s)
          else (hash left left, s)
        else extractStored t false s

/-- `ExtractMatches`: the root, or 0 in case of failure, and `vMatch`. -/
def CPartialMerkleTree.extractMatches (t : CPartialMerkleTree α) : α × List α :=
  if t.nTransactions = 0 then (0, [])
  else if t.nTransactions > MAX_BLOCK_SIZE / 60 then (0, [])
  else if t.vHash.length > t.nTransactions then (0, [])
  else if t.vBits.length < t.vHash.length then (0, [])
  else
    let nHeight := calcTreeHeight t.nTransactions 0
    let (hashMerkleRoot, s) := traverseAndExtract hash t nHeight 0
      { nBitsUsed := 0, nHashUsed := 0, vMatch := [], fBad := t.fBad }
    if s.fBad then (0, s.vMatch)
    else if (s.nBitsUsed + 7) / 8 ≠ (t.vBits.length + 7) / 8 then (0, s.vMatch)
    else if s.nHashUsed ≠ t.vHash.length then (0, s.vMatch)
    else (hashMerkleRoot, s.vMatch)

end ProCurrency

/-!
## Partial trees and the levels

The recursive functions of a partial tree follow the levels of the block's tree. A traversal that returns
the right hash has only matched txids of the block, in their order.
-/

namespace ProCurrency

open MerkleLevels

variable {α : Type}

/-! ## Width and height -/

theorem lt_calcTreeWidth_iff {n height pos : Nat} : pos < calcTreeWidth n height ↔ pos * 2 ^ height < n := by
  have hpos := Nat.two_pow_pos height
  rw [calcTreeWidth, Nat.lt_iff_add_one_le, Nat.le_div_iff_mul_le hpos, Nat.add_mul, Nat.one_mul]
  omega

theorem length_level_eq_width (hash : α → α → α) (height : Nat) (vTxid : List α) :
    (level hash height vTxid).length = calcTreeWidth vTxid.length height := length_level hash height vTxid

theorem calcTreeWidth_succ (n height : Nat) : calcTreeWidth n (height + 1) = (calcTreeWidth n height + 1) / 2 := by
  have hlen := length_level (fun a _ => a) (height + 1) (List.replicate n ())
  rw [level_succ, length_pairUp, length_level, List.length_replicate] at hlen
  exact hlen.symm

theorem two_mul_lt_calcTreeWidth {n height pos : Nat} (h : pos < calcTreeWidth n (height + 1)) :
    pos * 2 < calcTreeWidth n height := by
  rw [calcTreeWidth_succ] at h; omega

theorem calcTreeHeight_eq (n nHeight : Nat) :
    calcTreeHeight n nHeight = nHeight + treeHeight (calcTreeWidth n nHeight) := by
  fun_induction calcTreeHeight n nHeight with
  | case1 nHeight h ih =>
      rw [ih, treeHeight_of_lt h, calcTreeWidth_succ]; omega
  | case2 nHeight h => rw [treeHeight_of_le (by omega), Nat.add_zero]

theorem calcTreeHeight_zero (n : Nat) : calcTreeHeight n 0 = treeHeight n := by
  rw [calcTreeHeight_eq, Nat.zero_add, calcTreeWidth, Nat.pow_zero, Nat.div_one, Nat.add_sub_cancel]

theorem calcTreeWidth_height_le (n nHeight : Nat) : calcTreeWidth n (calcTreeHeight n nHeight) ≤ 1 := by
  fun_induction calcTreeHeight n nHeight with
  | case1 nHeight h ih => exact ih
  | case2 nHeight h => omega

theorem le_two_pow_height (n : Nat) : n ≤ 2 ^ calcTreeHeight n 0 := by
  have hwidth := calcTreeWidth_height_le n 0
  by_contra hlt
  have hone : 1 < calcTreeWidth n (calcTreeHeight n 0) := lt_calcTreeWidth_iff.mpr (by omega)
  omega

variable [Zero α] {hash : α → α → α}

theorem calcHash_eq (vTxid : List α) {height pos : Nat} (h : pos < calcTreeWidth vTxid.length height) :
    calcHash hash vTxid height pos = (level hash height vTxid).getD pos 0 := by
  induction height generalizing pos with
  | zero => rfl
  | succ height ih =>
      have hleft := two_mul_lt_calcTreeWidth h
      have hlen := length_level_eq_width hash height vTxid
      rw [level_succ, getD_pairUp hash 0 _ pos (by omega), calcHash, ih hleft, hlen, Nat.mul_comm 2 pos]
      by_cases hright : pos * 2 + 1 < calcTreeWidth vTxid.length height
      · simp only [if_pos hright, ih hright]
      · simp only [if_neg hright]

theorem top_pos {n : Nat} (h : n ≠ 0) (height : Nat) : 0 < calcTreeWidth n height := by
  rw [lt_calcTreeWidth_iff]; omega

theorem calcHash_top (hash : α → α → α) {vTxid : List α} (h : vTxid ≠ []) :
    calcHash hash vTxid (calcTreeHeight vTxid.length 0) 0 = buildMerkleTree hash vTxid := by
  rw [calcHash_eq vTxid (top_pos (List.length_pos_iff.mpr h).ne' _), calcTreeHeight_zero, level_top hash h]
  rfl

/-! ## What a traversal extracts -/

theorem extractStored_false (t : CPartialMerkleTree α) (s : ExtractState α) :
    (extractStored t false s).2.vMatch = s.vMatch := by
  rw [extractStored]; split <;> rfl

/-- A stored leaf is either no match, or the one match that is returned. -/
theorem extractStored_vMatch (t : CPartialMerkleTree α) (fMatched : Bool) (s : ExtractState α) :
    (extractStored t fMatched s).2.vMatch = s.vMatch ∨
      (extractStored t fMatched s).2.vMatch = s.vMatch ++ [(extractStored t fMatched s).1] := by
  rw [extractStored]
  split
  · exact Or.inl rfl
  · cases fMatched with
    | true => exact Or.inr rfl
    | false => exact Or.inl rfl

section Steps

variable {t : CPartialMerkleTree α} {height pos : Nat} {s : ExtractState α}

theorem traverseAndExtract_overflow (hbits : t.vBits.length ≤ s.nBitsUsed) :
    traverseAndExtract hash t height pos s = (0, { s with fBad := true }) := by
  cases height with
  | zero => rw [traverseAndExtract, if_pos hbits]
  | succ height => rw [traverseAndExtract, if_pos hbits]

theorem traverseAndExtract_zero (hbits : s.nBitsUsed < t.vBits.length) :
    traverseAndExtract hash t 0 pos s =
      extractStored t (t.vBits.getD s.nBitsUsed false) { s with nBitsUsed := s.nBitsUsed + 1 } := by
  rw [traverseAndExtract, if_neg (by omega)]

theorem traverseAndExtract_stored (hbits : s.nBitsUsed < t.vBits.length)
    (hbit : t.vBits.getD s.nBitsUsed false = false) :
    traverseAndExtract hash t (height + 1) pos s =
      extractStored t false { s with nBitsUsed := s.nBitsUsed + 1 } := by
  rw [traverseAndExtract, if_neg (by omega)]
  simp only [hbit, Bool.false_eq_true, ↓reduceIte]

/-- A node that is descended into, with two children. -/
theorem traverseAndExtract_both (hbits : s.nBitsUsed < t.vBits.length)
    (hbit : t.vBits.getD s.nBitsUsed false = true)
    (hright : pos * 2 + 1 < calcTreeWidth t.nTransactions height) {left right : α} {s₁ s₂ : ExtractState α}
    (hl : traverseAndExtract hash t height (pos * 2) { s with nBitsUsed := s.nBitsUsed + 1 } = (left, s₁))
    (hr : traverseAndExtract hash t height (pos * 2 + 1) s₁ = (right, s₂)) :
    traverseAndExtract hash t (height + 1) pos s = (hash left right, s₂) := by
  rw [traverseAndExtract, if_neg (by omega)]
  simp only [hbit, ↓reduceIte, hl, if_pos hright, hr]

/-- A node that is descended into, without a right child. -/
theorem traverseAndExtract_left (hbits : s.nBitsUsed < t.vBits.length)
    (hbit : t.vBits.getD s.nBitsUsed false = true)
    (hright : ¬ pos * 2 + 1 < calcTreeWidth t.nTransactions height) {left : α} {s₁ : ExtractState α}
    (hl : traverseAndExtract hash t height (pos * 2) { s with nBitsUsed := s.nBitsUsed + 1 } = (left, s₁)) :
    traverseAndExtract hash t (height + 1) pos s = (hash left left, s₁) := by
  rw [traverseAndExtract, if_neg (by omega)]
  simp only [hbit, ↓reduceIte, hl, if_neg hright]

end Steps

/-- When the hash of a node is right, the matches that were added below it are some of its txids, in
their order. -/
theorem traverseAndExtract_sublist (hinj : PairInjective hash) {t : CPartialMerkleTree α} {vTxid : List α}
    (hn : t.nTransactions = vTxid.length) {height pos : Nat} {s : ExtractState α}
    (hpos : pos < calcTreeWidth vTxid.length height)
    (hhash : (traverseAndExtract hash t height pos s).1 = calcHash hash vTxid height pos) :
    ∃ m, (traverseAndExtract hash t height pos s).2.vMatch = s.vMatch ++ m ∧
      m.Sublist (leavesBelow vTxid height pos) := by
  induction height generalizing pos s with
  | zero =>
      have hlt : pos < vTxid.length := by rw [lt_calcTreeWidth_iff] at hpos; omega
      rcases Nat.lt_or_ge s.nBitsUsed t.vBits.length with hbits | hbits
      · rw [traverseAndExtract_zero hbits] at hhash ⊢
        rw [leavesBelow_zero 0 hlt]
        rcases extractStored_vMatch t (t.vBits.getD s.nBitsUsed false)
          { s with nBitsUsed := s.nBitsUsed + 1 } with hsame | hone
        · exact ⟨[], by rw [List.append_nil]; exact hsame, List.nil_sublist _⟩
        · exact ⟨_, hone, by rw [hhash]; exact List.Sublist.refl _⟩
      · rw [traverseAndExtract_overflow hbits]
        exact ⟨[], (List.append_nil _).symm, List.nil_sublist _⟩
  | succ height ih =>
      have hleft := two_mul_lt_calcTreeWidth hpos
      rcases Nat.lt_or_ge s.nBitsUsed t.vBits.length with hbits | hbits
      · cases hbit : t.vBits.getD s.nBitsUsed false with
        | false =>
            rw [traverseAndExtract_stored hbits hbit]
            exact ⟨[], by rw [extractStored_false, List.append_nil], List.nil_sublist _⟩
        | true =>
            rw [leavesBelow_succ]
            rw [calcHash] at hhash
            rcases hl : traverseAndExtract hash t height (pos * 2)
              { s with nBitsUsed := s.nBitsUsed + 1 } with ⟨left, s₁⟩
            by_cases hright : pos * 2 + 1 < calcTreeWidth t.nTransactions height
            · rcases hr : traverseAndExtract hash t height (pos * 2 + 1) s₁ with ⟨right, s₂⟩
              rw [traverseAndExtract_both hbits hbit hright hl hr] at hhash ⊢
              rw [hn] at hright
              simp only [if_pos hright] at hhash
              obtain ⟨hleq, hreq⟩ := hinj _ _ _ _ hhash
              obtain ⟨m₁, hm₁, hsub₁⟩ := ih hleft (by rw [hl]; exact hleq)
              obtain ⟨m₂, hm₂, hsub₂⟩ := ih hright (by rw [hr]; exact hreq)
              rw [hl] at hm₁
              rw [hr] at hm₂
              exact ⟨m₁ ++ m₂, by rw [hm₂, hm₁, List.append_assoc], hsub₁.append hsub₂⟩
            · rw [traverseAndExtract_left hbits hbit hright hl] at hhash ⊢
              rw [hn] at hright
              simp only [if_neg hright] at hhash
              obtain ⟨hleq, -⟩ := hinj _ _ _ _ hhash
              obtain ⟨m₁, hm₁, hsub₁⟩ := ih hleft (by rw [hl]; exact hleq)
              rw [hl] at hm₁
              exact ⟨m₁, hm₁, hsub₁.trans (List.sublist_append_left _ _)⟩
      · rw [traverseAndExtract_overflow hbits]
        exact ⟨[], (List.append_nil _).symm, List.nil_sublist _⟩

end ProCurrency
