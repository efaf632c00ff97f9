import Mathlib.Data.Finset.Card
import Mathlib.Data.Nat.Bitwise
import ProCurrency.Lib.MerkleLevels

/-!
# The Merkle tree of a block

`CBlock::BuildMerkleTree` (main.h), and the tests of `CBlock::CheckBlock` on the list of txids. The hash of
two nodes is a parameter. Lists are at most `MAX_BLOCK_SIZE` long, so the `int` indices do not overflow.
-/

namespace ProCurrency

variable {α : Type} [Zero α] (hash : α → α → α)

/-- The inner loop of `BuildMerkleTree`: the parents of the `nSize` nodes from `j` on are pushed. -/
def pushParents (vMerkleTree : List α) (j nSize i : Nat) : List α :=
  if i < nSize then
    let i2 := min (i + 1) (nSize - 1)
    pushParents (vMerkleTree ++ [hash (vMerkleTree.getD (j + i) 0) (vMerkleTree.getD (j + i2) 0)])
      j nSize (i + 2)
  else vMerkleTree
termination_by nSize - i

/-- The outer loop: one round for each level. -/
def pushLevels (vMerkleTree : List α) (j nSize : Nat) : List α :=
  if nSize > 1 then
    pushLevels (pushParents hash vMerkleTree j nSize 0) (j + nSize) ((nSize + 1) / 2)
  else vMerkleTree
termination_by nSize

/-- `BuildMerkleTree`, on the txids of `vtx`. -/
def buildMerkleTree (txids : List α) : α := (pushLevels hash txids 0 txids.length).getLastD 0

/-- The tests of `CheckBlock` on the txids: the list is not empty, and the set `uniqueTx` has its size. -/
def checkUniqueTx {α : Type} [DecidableEq α] (txids : List α) : Bool :=
  if txids.isEmpty then false
  else
    let uniqueTx := txids.foldl (fun s txid => insert txid s) (∅ : Finset α)
    uniqueTx.card == txids.length

end ProCurrency

/-!
## The loops build the levels

Each round of `BuildMerkleTree` appends the next level of the tree, so the last entry is the only one of
the top level.
-/

namespace ProCurrency

open MerkleLevels

variable {α : Type} (hash : α → α → α)

/-- The height at which a level of `n` leaves has one entry. -/
def treeHeight (n : Nat) : Nat := if n > 1 then treeHeight ((n + 1) / 2) + 1 else 0
termination_by n

theorem treeHeight_of_le {n : Nat} (h : n ≤ 1) : treeHeight n = 0 := by
  rw [treeHeight, if_neg (by omega)]

theorem treeHeight_of_lt {n : Nat} (h : 1 < n) : treeHeight n = treeHeight ((n + 1) / 2) + 1 := by
  rw [treeHeight, if_pos h]

theorem level_treeHeight {lv : List α} (h : 1 < lv.length) :
    level hash (treeHeight lv.length) lv =
      level hash (treeHeight (pairUp hash lv).length) (pairUp hash lv) := by
  rw [treeHeight_of_lt h, level_add, length_pairUp]; rfl

/-- The top level has one entry. -/
theorem length_top {lv : List α} (h : lv ≠ []) : (level hash (treeHeight lv.length) lv).length = 1 := by
  have hpos := List.length_pos_iff.mpr h
  induction hn : lv.length using Nat.strongRecOn generalizing lv with
  | ind n ih =>
      subst hn
      by_cases hlen : 1 < lv.length
      · have hpair := length_pairUp hash lv
        have hne : pairUp hash lv ≠ [] := level_ne_nil hash h 1
        rw [level_treeHeight hash hlen]
        exact ih _ (by omega) hne (by omega) rfl
      · rw [treeHeight_of_le (by omega), level_zero]; omega

variable [Zero α]

theorem pushParents_eq (pre lv done : List α) (i : Nat) :
    pushParents hash (pre ++ lv ++ done) pre.length lv.length i =
      pre ++ lv ++ done ++ pairUp hash (lv.drop i) := by
  induction hn : lv.length - i using Nat.strongRecOn generalizing i done with
  | ind n ih =>
      have hget : ∀ k < lv.length, (pre ++ lv ++ done).getD (pre.length + k) 0 = lv.getD k 0 := by
        intro k hk
        rw [List.append_assoc, List.getD_append_right _ _ _ _ (by omega), Nat.add_sub_cancel_left,
          List.getD_append _ _ _ _ hk]
      rw [pushParents]
      by_cases h : i < lv.length
      · dsimp only
        rw [if_pos h, hget i h, hget _ (by omega), pairUp_drop hash 0 h, List.append_assoc (pre ++ lv),
          ih _ (by omega) _ (i + 2) rfl]
        simp
      · rw [if_neg h, List.drop_eq_nil_of_le (by omega), pairUp, List.append_nil]

/-- Whatever lies below, the last entries are the top level. -/
theorem pushLevels_eq (pre lv : List α) :
    ∃ below, pushLevels hash (pre ++ lv) pre.length lv.length =
      below ++ level hash (treeHeight lv.length) lv := by
  induction hn : lv.length using Nat.strongRecOn generalizing pre lv with
  | ind n ih =>
      subst hn
      rw [pushLevels]
      by_cases h : 1 < lv.length
      · have hparents : pushParents hash (pre ++ lv) pre.length lv.length 0 =
            (pre ++ lv) ++ pairUp hash lv := by
          have hloop := pushParents_eq hash pre lv [] 0
          rwa [List.append_nil, List.drop_zero] at hloop
        have hpair := length_pairUp hash lv
        obtain ⟨below, hbelow⟩ := ih _ (by omega) (pre ++ lv) (pairUp hash lv) rfl
        rw [if_pos h, hparents, level_treeHeight hash h]
        rw [List.length_append] at hbelow
        rw [← hpair]
        exact ⟨below, hbelow⟩
      · rw [if_neg h, treeHeight_of_le (by omega)]
        exact ⟨pre, rfl⟩

/-- `BuildMerkleTree` returns the entry of the top level. -/
theorem level_top {txids : List α} (h : txids ≠ []) :
    level hash (treeHeight txids.length) txids = [buildMerkleTree hash txids] := by
  obtain ⟨root, hroot⟩ := List.length_eq_one_iff.mp (length_top hash h)
  obtain ⟨below, hbelow⟩ := pushLevels_eq hash [] txids
  rw [List.nil_append, List.length_nil, hroot] at hbelow
  rw [hroot, buildMerkleTree, hbelow]
  simp

/-! ## Unique txids -/

theorem foldl_insert_eq {α : Type} [DecidableEq α] (l : List α) (s : Finset α) :
    l.foldl (fun s txid => insert txid s) s = s ∪ l.toFinset := by
  induction l generalizing s with
  | nil => simp
  | cons a l ih => rw [List.foldl_cons, ih]; ext x; simp

theorem checkUniqueTx_iff {α : Type} [DecidableEq α] {txids : List α} :
    checkUniqueTx txids = true ↔ txids ≠ [] ∧ txids.Nodup := by
  rw [checkUniqueTx, foldl_insert_eq, Finset.empty_union]
  cases hnil : txids with
  | nil => simp
  | cons a l =>
      have hcard := Multiset.toFinset_card_eq_card_iff_nodup (m := (↑(a :: l) : Multiset α))
      simpa using hcard

end ProCurrency

/-!
## Branches of the Merkle tree

`CBlock::GetMerkleBranch`, `CBlock::CheckMerkleBranch` (main.h) and `CMerkleTx::SetMerkleBranch` (main.cpp). The branch
is read out of the flat array level by level; the check goes the same way by the parity of the index.
-/

namespace ProCurrency

open MerkleLevels

variable {α : Type} [Zero α] (hash : α → α → α)

/-- What `BuildMerkleTree` leaves in `vMerkleTree`. -/
def merkleTree (txids : List α) : List α := pushLevels hash txids 0 txids.length

/-- The loop of `GetMerkleBranch`. -/
def branchFrom (vMerkleTree : List α) (j nSize nIndex : Nat) : List α :=
  if nSize > 1 then
    let i := min (nIndex ^^^ 1) (nSize - 1)
    vMerkleTree.getD (j + i) 0 :: branchFrom vMerkleTree (j + nSize) ((nSize + 1) / 2) (nIndex >>> 1)
  else []
termination_by nSize

/-- `GetMerkleBranch` of a block with the txids; `vMerkleTree` is built where it is empty. -/
def getMerkleBranch (txids vMerkleTree : List α) (nIndex : Nat) : List α :=
  branchFrom (if vMerkleTree.isEmpty then merkleTree hash txids else vMerkleTree) 0 txids.length nIndex

/-- The loop of `CheckMerkleBranch`. -/
def checkBranchFrom (h : α) : List α → Int → α
  | [], _ => h
  | otherside :: vMerkleBranch, nIndex =>
      checkBranchFrom (if nIndex % 2 ≠ 0 then hash otherside h else hash h otherside) vMerkleBranch (nIndex / 2)

def checkMerkleBranch (h : α) (vMerkleBranch : List α) (nIndex : Int) : α :=
  if nIndex = -1 then 0 else checkBranchFrom hash h vMerkleBranch nIndex

/-- `SetMerkleBranch`: `nIndex` and `vMerkleBranch`. -/
def setMerkleBranch {τ : Type} [DecidableEq τ] (txHash : τ → α) (vtx : List τ) (vMerkleTree : List α) (tx : τ) :
    Int × List α :=
  match vtx.idxOf? tx with
  | none => (-1, [])
  | some nIndex => (nIndex, getMerkleBranch hash (vtx.map txHash) vMerkleTree nIndex)

/-! ## The levels in the array -/

theorem pushLevels_of_lt (pre lv : List α) (h : 1 < lv.length) :
    pushLevels hash (pre ++ lv) pre.length lv.length =
      pushLevels hash (pre ++ lv ++ pairUp hash lv) (pre ++ lv).length (pairUp hash lv).length := by
  have hloop := pushParents_eq hash pre lv [] 0
  rw [List.append_nil, List.drop_zero] at hloop
  rw [pushLevels, if_pos h, hloop, List.length_append, length_pairUp]

/-- The nodes that are there stay where they are. -/
theorem prefix_pushLevels (pre lv : List α) : pre ++ lv <+: pushLevels hash (pre ++ lv) pre.length lv.length := by
  induction hn : lv.length using Nat.strongRecOn generalizing pre lv with
  | ind n ih =>
      subst hn
      by_cases h : 1 < lv.length
      · have hpair := length_pairUp hash lv
        rw [pushLevels_of_lt hash pre lv h]
        exact (List.prefix_append _ _).trans (ih _ (by omega) (pre ++ lv) (pairUp hash lv) rfl)
      · rw [pushLevels, if_neg h]

theorem getD_pushLevels (pre lv : List α) {k : Nat} (hk : k < lv.length) :
    (pushLevels hash (pre ++ lv) pre.length lv.length).getD (pre.length + k) 0 = lv.getD k 0 := by
  obtain ⟨above, habove⟩ := prefix_pushLevels hash pre lv
  rw [← habove, List.append_assoc, List.getD_append_right _ _ _ _ (Nat.le_add_right _ _), Nat.add_sub_cancel_left,
    List.getD_append _ _ _ _ hk]

/-! ## One level up -/

/-- The node at the index and the one beside it make the node above, by the parity of the index. -/
theorem parent_of_branch (lv : List α) {i : Nat} (hi : i < lv.length) :
    (if (i : Int) % 2 ≠ 0 then hash (lv.getD (min (i ^^^ 1) (lv.length - 1)) 0) (lv.getD i 0)
      else hash (lv.getD i 0) (lv.getD (min (i ^^^ 1) (lv.length - 1)) 0)) = (pairUp hash lv).getD (i / 2) 0 := by
  rcases Nat.even_or_odd i with heven | hodd
  · obtain ⟨k, rfl⟩ := heven.two_dvd
    have hdiv : 2 * k / 2 = k := by omega
    rw [if_neg (by omega), Nat.xor_one_of_even heven, hdiv, getD_pairUp hash 0 lv k hi]
    by_cases hlast : 2 * k + 1 < lv.length
    · rw [if_pos hlast, Nat.min_eq_left (by omega)]
    · have hmin : min (2 * k + 1) (lv.length - 1) = 2 * k := by omega
      rw [if_neg hlast, hmin]
  · obtain ⟨k, rfl⟩ := hodd
    have hdiv : (2 * k + 1) / 2 = k := by omega
    rw [if_pos (by omega), Nat.xor_one_of_odd ⟨k, rfl⟩, Nat.add_sub_cancel, hdiv,
      getD_pairUp hash 0 lv k (by omega), if_pos hi, Nat.min_eq_left (by omega)]

/-! ## The whole way -/

theorem branchFrom_of_lt (vMerkleTree : List α) (j : Nat) {nSize : Nat} (nIndex : Nat) (h : 1 < nSize) :
    branchFrom vMerkleTree j nSize nIndex = vMerkleTree.getD (j + min (nIndex ^^^ 1) (nSize - 1)) 0 ::
      branchFrom vMerkleTree (j + nSize) ((nSize + 1) / 2) (nIndex / 2) := by
  rw [branchFrom, if_pos h]
  rfl

/-- From any level on, the branch leads to the one node on top. -/
theorem checkBranchFrom_eq (pre lv : List α) {i : Nat} (hi : i < lv.length) :
    level hash (treeHeight lv.length) lv =
      [checkBranchFrom hash (lv.getD i 0)
        (branchFrom (pushLevels hash (pre ++ lv) pre.length lv.length) pre.length lv.length i) i] := by
  induction hn : lv.length using Nat.strongRecOn generalizing pre lv i with
  | ind n ih =>
      subst hn
      by_cases h : 1 < lv.length
      · have hpair := length_pairUp hash lv
        have hup := ih _ (by omega) (pre ++ lv) (pairUp hash lv) (i := i / 2) (by omega) rfl
        have hhalf : ((i / 2 : Nat) : Int) = (i : Int) / 2 := Int.natCast_ediv i 2
        rw [level_treeHeight hash h, hup, branchFrom_of_lt _ _ i h, getD_pushLevels hash pre lv (by omega),
          checkBranchFrom, parent_of_branch hash lv hi, pushLevels_of_lt hash pre lv h, ← hpair, List.length_append,
          hhalf]
      · obtain rfl : i = 0 := by omega
        obtain ⟨a, rfl⟩ := List.length_eq_one_iff.1 (show lv.length = 1 by omega)
        rw [treeHeight_of_le (by simp), branchFrom, if_neg (by simp)]
        rfl

/-- The branch of every transaction leads to the root, with the array that `BuildMerkleTree` left and without one. -/
theorem getMerkleBranch_checks (txids : List α) (i : Fin txids.length) :
    checkMerkleBranch hash (txids.get i) (getMerkleBranch hash txids [] i) i = buildMerkleTree hash txids ∧
      checkMerkleBranch hash (txids.get i) (getMerkleBranch hash txids (merkleTree hash txids) i) i =
        buildMerkleTree hash txids := by
  have hne : txids ≠ [] := List.ne_nil_of_length_pos (Nat.zero_lt_of_lt i.isLt)
  have hcheck := checkBranchFrom_eq hash [] txids i.isLt
  rw [level_top hash hne, List.cons.injEq, List.nil_append, List.length_nil] at hcheck
  have hget : txids.getD i 0 = txids.get i := List.getD_eq_getElem txids 0 i.isLt
  have hindex : ((i : Nat) : Int) ≠ -1 := by omega
  rw [hget] at hcheck
  refine ⟨?_, ?_⟩
  · rw [checkMerkleBranch, if_neg hindex, getMerkleBranch, List.isEmpty_nil, if_pos rfl]
    exact hcheck.1.symm
  · rw [checkMerkleBranch, if_neg hindex, getMerkleBranch, ite_self]
    exact hcheck.1.symm

/-- The branch that `SetMerkleBranch` keeps for a transaction of the block leads to the root. -/
theorem setMerkleBranch_checks {τ : Type} [DecidableEq τ] (txHash : τ → α) {vtx : List τ} {tx : τ} (htx : tx ∈ vtx) :
    checkMerkleBranch hash (txHash tx) (setMerkleBranch hash txHash vtx [] tx).2
      (setMerkleBranch hash txHash vtx [] tx).1 = buildMerkleTree hash (vtx.map txHash) := by
  rw [setMerkleBranch]
  cases hindex : vtx.idxOf? tx with
  | none => exact absurd htx (List.idxOf?_eq_none_iff.1 hindex)
  | some nIndex =>
      obtain ⟨hlt, hget, -⟩ := List.idxOf?_eq_some_iff.1 hindex
      have hlt' : nIndex < (vtx.map txHash).length := by
        rw [List.length_map]
        exact hlt
      have hcheck := checkBranchFrom_eq hash [] (vtx.map txHash) hlt'
      rw [level_top hash (List.ne_nil_of_length_pos (Nat.zero_lt_of_lt hlt')), List.cons.injEq, List.nil_append,
        List.length_nil, List.getD_eq_getElem _ _ hlt', List.getElem_map, hget] at hcheck
      dsimp only
      rw [checkMerkleBranch, if_neg (by omega), getMerkleBranch, List.isEmpty_nil, if_pos rfl]
      exact hcheck.1.symm

end ProCurrency
