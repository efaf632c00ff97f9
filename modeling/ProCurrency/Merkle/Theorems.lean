import Mathlib.Data.BitVec
import Mathlib.Data.List.GetD
import Mathlib.Data.Nat.Bitwise
import ProCurrency.Codec.Serialize
import ProCurrency.Merkle.PartialTree

/-!
# Partial Merkle trees on the wire

The serialization of `CPartialMerkleTree` (main.h): the flag bits are packed into bytes, the least
significant bit first, and come back padded to whole bytes.
-/

namespace ProCurrency

open ByteCodec

/-- The loop that fills `vBytes` from `vBits`. -/
def packBits (vBits : List Bool) : List UInt8 :=
  (List.range vBits.length).foldl
    (fun vBytes p => vBytes.modify (p / 8) fun b =>
      b ||| (if vBits.getD p false then 1 else 0) <<< UInt8.ofNat (p % 8))
    (List.replicate ((vBits.length + 7) / 8) 0)

/-- The loop that fills `vBits` from `vBytes`. -/
def unpackBits (vBytes : List UInt8) : List Bool :=
  (List.range (vBytes.length * 8)).map fun p =>
    vBytes.getD (p / 8) 0 &&& 1 <<< UInt8.ofNat (p % 8) != 0

namespace CPartialMerkleTree

def serialize (t : CPartialMerkleTree UInt256) : List UInt8 :=
  leBytes 4 t.nTransactions ++ (writeVector writeUInt256 t.vHash ++
    writeVector writeUChar (packBits t.vBits))

def unserialize : Reader (CPartialMerkleTree UInt256) := fun s =>
  match readLe 4 s with
  | none => none
  | some (nTransactions, s) =>
      match readVector readUInt256 s with
      | none => none
      | some (vHash, s) =>
          match readVector readUChar s with
          | none => none
          | some (vBytes, s) => some ({ vBits := unpackBits vBytes, vHash, nTransactions, fBad := false }, s)

end CPartialMerkleTree

end ProCurrency

/-!
## The flag bits survive packing

After packing and unpacking, the bits are followed by the padding of the last byte, and nothing else
changes.
-/

namespace ProCurrency

open ByteCodec

/-! ## One bit -/

theorem toNat_shiftLeft_bit (b : Bool) {j : Nat} (h : j < 8) :
    ((if b then 1 else 0 : UInt8) <<< UInt8.ofNat j).toNat = if b then 2 ^ j else 0 := by
  have hpow : 2 ^ j < 2 ^ 8 := Nat.pow_lt_pow_right (by decide) h
  cases b with
  | false => simp
  | true =>
      simp only [↓reduceIte, UInt8.toNat_shiftLeft, UInt8.toNat_ofNat', Nat.shiftLeft_eq]
      rw [show j % 2 ^ 8 % 8 = j by omega, UInt8.toNat_one, Nat.one_mul, Nat.mod_eq_of_lt hpow]

/-- Testing a bit of a byte with a mask. -/
theorem and_mask_ne_zero (b : UInt8) {j : Nat} (h : j < 8) :
    (b &&& 1 <<< UInt8.ofNat j != 0) = b.toNat.testBit j := by
  have hmask := toNat_shiftLeft_bit true h
  simp only [↓reduceIte] at hmask
  have hand : (b &&& 1 <<< UInt8.ofNat j).toNat = (b.toNat.testBit j).toNat * 2 ^ j := by
    rw [UInt8.toNat_and, hmask, Nat.and_two_pow]
  cases hbit : b.toNat.testBit j with
  | false =>
      rw [hbit] at hand
      have hzero : b &&& 1 <<< UInt8.ofNat j = 0 := UInt8.toNat_inj.mp (by simpa using hand)
      simp [hzero]
  | true =>
      rw [hbit] at hand
      have hpos := Nat.two_pow_pos j
      rw [bne_iff_ne]
      intro hzero
      rw [hzero] at hand
      simp at hand
      omega

/-! ## All bits -/

/-- The bytes after the first `m` bits. -/
def packFirst (vBits : List Bool) (m : Nat) : List UInt8 :=
  (List.range m).foldl
    (fun vBytes p => vBytes.modify (p / 8) fun b =>
      b ||| (if vBits.getD p false then 1 else 0) <<< UInt8.ofNat (p % 8))
    (List.replicate ((vBits.length + 7) / 8) 0)

theorem packFirst_succ (vBits : List Bool) (m : Nat) :
    packFirst vBits (m + 1) = (packFirst vBits m).modify (m / 8) fun b =>
      b ||| (if vBits.getD m false then 1 else 0) <<< UInt8.ofNat (m % 8) := by
  rw [packFirst, List.range_succ, List.foldl_append]; rfl

@[simp] theorem length_packFirst (vBits : List Bool) (m : Nat) :
    (packFirst vBits m).length = (vBits.length + 7) / 8 := by
  induction m with
  | zero => simp [packFirst]
  | succ m ih => rw [packFirst_succ, List.length_modify, ih]

theorem testBit_packFirst (vBits : List Bool) {m i j : Nat} (hm : m ≤ vBits.length) (hj : j < 8) :
    ((packFirst vBits m).getD i 0).toNat.testBit j = (decide (8 * i + j < m) && vBits.getD (8 * i + j) false) := by
  induction m with
  | zero =>
      have hzero : (packFirst vBits 0).getD i 0 = 0 := by
        rw [packFirst, List.range_zero, List.foldl_nil, List.getD_eq_getElem?_getD,
          List.getElem?_getD_replicate_default_eq]
      rw [hzero]; simp
  | succ m ih =>
      have ih := ih (by omega)
      rw [packFirst_succ]
      by_cases hi : m / 8 = i
      · subst hi
        have hlt : m / 8 < (packFirst vBits m).length := by rw [length_packFirst]; omega
        rw [List.getD_eq_getElem _ _ (by rw [List.length_modify]; exact hlt), List.getElem_modify_eq,
          UInt8.toNat_or, Nat.testBit_or, toNat_shiftLeft_bit _ (Nat.mod_lt _ (by decide))]
        rw [List.getD_eq_getElem _ _ hlt] at ih
        rw [ih]
        by_cases hjm : j = m % 8
        · have hat : 8 * (m / 8) + j = m := by omega
          subst hjm
          rw [hat]
          cases vBits.getD m false <;> simp
        · have hbit : (if vBits.getD m false then 2 ^ (m % 8) else 0).testBit j = false := by
            split
            · exact Nat.testBit_two_pow_of_ne (Ne.symm hjm)
            · exact Nat.zero_testBit j
          have hiff : 8 * (m / 8) + j < m ↔ 8 * (m / 8) + j < m + 1 := by omega
          rw [hbit, Bool.or_false, decide_eq_decide.mpr hiff]
      · have hiff : 8 * i + j < m ↔ 8 * i + j < m + 1 := by omega
        rw [List.getD_eq_getElem?_getD, List.getElem?_modify_ne _ _ hi, ← List.getD_eq_getElem?_getD, ih,
          decide_eq_decide.mpr hiff]

theorem length_packBits (vBits : List Bool) : (packBits vBits).length = (vBits.length + 7) / 8 :=
  length_packFirst vBits vBits.length

theorem unpackBits_packBits (vBits : List Bool) :
    unpackBits (packBits vBits) =
      vBits ++ List.replicate ((vBits.length + 7) / 8 * 8 - vBits.length) false := by
  have hlen := length_packBits vBits
  apply List.ext_getElem
  · simp [unpackBits, hlen]; omega
  · intro p h₁ h₂
    have hp : p < (vBits.length + 7) / 8 * 8 := by
      rw [unpackBits, List.length_map, List.length_range, hlen] at h₁; exact h₁
    have hbit : (unpackBits (packBits vBits))[p] = (decide (p < vBits.length) && vBits.getD p false) := by
      simp only [unpackBits, List.getElem_map, List.getElem_range]
      rw [and_mask_ne_zero _ (Nat.mod_lt _ (by decide))]
      have hpack := @testBit_packFirst vBits _ (p / 8) _ le_rfl (Nat.mod_lt p (show 0 < 8 by decide))
      rwa [Nat.div_add_mod] at hpack
    rw [hbit]
    by_cases hlt : p < vBits.length
    · rw [List.getElem_append_left hlt, List.getD_eq_getElem _ _ hlt, decide_eq_true hlt, Bool.true_and]
    · rw [List.getElem_append_right (by omega), List.getElem_replicate, decide_eq_false hlt, Bool.false_and]

end ProCurrency

/-!
## Extraction undoes building

The bits and hashes that `TraverseAndBuild` stores for a node are what `TraverseAndExtract` consumes there,
whatever is stored before and after them.
-/

namespace ProCurrency

open MerkleLevels

variable {α : Type}

/-! ## The matched txids -/

/-- The txids that the mask selects, in order. -/
def matchedTxids (vTxid : List α) (vMatch : List Bool) : List α :=
  (vTxid.zip vMatch).filterMap fun (txid, fMatch) => if fMatch then some txid else none

def matchedBelow (vTxid : List α) (vMatch : List Bool) (height pos : Nat) : List α :=
  matchedTxids (leavesBelow vTxid height pos) (leavesBelow vMatch height pos)

theorem matchedBelow_succ {vTxid : List α} {vMatch : List Bool} (hmask : vMatch.length = vTxid.length)
    (height pos : Nat) :
    matchedBelow vTxid vMatch (height + 1) pos =
      matchedBelow vTxid vMatch height (pos * 2) ++ matchedBelow vTxid vMatch height (pos * 2 + 1) := by
  have hlen : (leavesBelow vTxid height (pos * 2)).length = (leavesBelow vMatch height (pos * 2)).length := by
    rw [leavesBelow, leavesBelow, List.length_take, List.length_take, List.length_drop, List.length_drop,
      hmask]
  rw [matchedBelow, leavesBelow_succ, leavesBelow_succ, matchedTxids, List.zip_append hlen,
    List.filterMap_append]
  rfl

theorem matchedBelow_of_le {vTxid : List α} (vMatch : List Bool) {height pos : Nat}
    (h : vTxid.length ≤ pos * 2 ^ height) : matchedBelow vTxid vMatch height pos = [] := by
  rw [matchedBelow, leavesBelow_of_le h]; rfl

/-- A node that is no parent of a match has only unselected leaves. -/
theorem matchedBelow_of_not_parent {vTxid : List α} {vMatch : List Bool}
    (hmask : vMatch.length = vTxid.length) {height pos : Nat}
    (h : parentOfMatch vTxid.length vMatch height pos = false) :
    matchedBelow vTxid vMatch height pos = [] := by
  have hfalse : ∀ b ∈ leavesBelow vMatch height pos, b = false := by
    intro b hb
    obtain ⟨i, hle, hlt, hget⟩ := exists_of_mem_leavesBelow hb
    obtain ⟨hi, -⟩ := List.getElem?_eq_some_iff.mp hget
    rw [parentOfMatch, List.any_eq_false] at h
    have hno := h i (List.mem_range'_1.mpr ⟨hle, hlt⟩)
    rw [List.getD_eq_getElem?_getD, hget] at hno
    simpa [← hmask, hi] using hno
  apply List.filterMap_eq_nil_iff.mpr
  rintro ⟨txid, fMatch⟩ hmem
  rw [hfalse fMatch (List.of_mem_zip hmem).2]
  rfl

variable [Zero α] {hash : α → α → α}

theorem matchedBelow_leaf {vTxid : List α} {vMatch : List Bool} (hmask : vMatch.length = vTxid.length)
    {pos : Nat} (h : pos < vTxid.length) :
    matchedBelow vTxid vMatch 0 pos =
      if parentOfMatch vTxid.length vMatch 0 pos then [calcHash hash vTxid 0 pos] else [] := by
  have hparent : parentOfMatch vTxid.length vMatch 0 pos = vMatch.getD pos false := by
    simp [parentOfMatch, h]
  rw [matchedBelow, leavesBelow_zero 0 h, leavesBelow_zero false (hmask ▸ h), hparent, matchedTxids, calcHash]
  cases vMatch.getD pos false <;> rfl

/-! ## What is stored for a node -/

/-- The bits and hashes that are stored for a node. -/
def stored (hash : α → α → α) (vTxid : List α) (vMatch : List Bool) (height pos : Nat) :
    PartialMerkleData α :=
  traverseAndBuild hash vTxid vMatch height pos { vBits := [], vHash := [] }

def PartialMerkleData.append (t t' : PartialMerkleData α) : PartialMerkleData α where
  vBits := t.vBits ++ t'.vBits
  vHash := t.vHash ++ t'.vHash

section Stored

variable {vTxid : List α} {vMatch : List Bool} {height pos : Nat}

theorem traverseAndBuild_eq (t : PartialMerkleData α) :
    traverseAndBuild hash vTxid vMatch height pos t =
      t.append (stored hash vTxid vMatch height pos) := by
  induction height generalizing pos t with
  | zero => rfl
  | succ height ih =>
      change _ = t.append (traverseAndBuild hash vTxid vMatch (height + 1) pos _)
      rw [traverseAndBuild, traverseAndBuild]
      cases parentOfMatch vTxid.length vMatch (height + 1) pos with
      | false => rfl
      | true =>
          simp only [↓reduceIte, ih]
          split <;> simp [PartialMerkleData.append]

theorem stored_leaf : stored hash vTxid vMatch 0 pos =
    { vBits := [parentOfMatch vTxid.length vMatch 0 pos], vHash := [calcHash hash vTxid 0 pos] } := rfl

theorem stored_hash (h : parentOfMatch vTxid.length vMatch (height + 1) pos = false) :
    stored hash vTxid vMatch (height + 1) pos =
      { vBits := [false], vHash := [calcHash hash vTxid (height + 1) pos] } := by
  rw [stored, traverseAndBuild, h]; rfl

theorem stored_both (h : parentOfMatch vTxid.length vMatch (height + 1) pos = true)
    (hright : pos * 2 + 1 < calcTreeWidth vTxid.length height) :
    stored hash vTxid vMatch (height + 1) pos =
      { vBits := true :: ((stored hash vTxid vMatch height (pos * 2)).vBits ++
          (stored hash vTxid vMatch height (pos * 2 + 1)).vBits)
        vHash := (stored hash vTxid vMatch height (pos * 2)).vHash ++
          (stored hash vTxid vMatch height (pos * 2 + 1)).vHash } := by
  rw [stored, traverseAndBuild, h]
  simp only [↓reduceIte, if_pos hright, traverseAndBuild_eq]
  simp [PartialMerkleData.append]

theorem stored_left (h : parentOfMatch vTxid.length vMatch (height + 1) pos = true)
    (hright : ¬ pos * 2 + 1 < calcTreeWidth vTxid.length height) :
    stored hash vTxid vMatch (height + 1) pos =
      { vBits := true :: (stored hash vTxid vMatch height (pos * 2)).vBits
        vHash := (stored hash vTxid vMatch height (pos * 2)).vHash } := by
  rw [stored, traverseAndBuild, h]
  simp only [↓reduceIte, if_neg hright, traverseAndBuild_eq]
  simp [PartialMerkleData.append]

end Stored

/-! ## What is extracted -/

theorem extractStored_eq {t : CPartialMerkleTree α} {s : ExtractState α} {preH postH : List α} {h : α}
    (hhash : t.vHash = preH ++ h :: postH) (hused : s.nHashUsed = preH.length) (fMatched : Bool) :
    extractStored t fMatched s =
      (h, { s with nHashUsed := preH.length + 1
                   vMatch := s.vMatch ++ if fMatched then [h] else [] }) := by
  have hlt : ¬ s.nHashUsed ≥ t.vHash.length := by rw [hhash, hused, List.length_append, List.length_cons]; omega
  have hget : t.vHash.getD s.nHashUsed 0 = h := by rw [hhash, hused]; simp
  rw [extractStored, if_neg hlt, hget, hused]
  cases fMatched <;> simp

/-- Extraction of a node consumes what building stored for it and gives its hash and its matches. -/
theorem traverseAndExtract_stored_eq {t : CPartialMerkleTree α} {vTxid : List α} {vMatch : List Bool}
    (hn : t.nTransactions = vTxid.length) (hmask : vMatch.length = vTxid.length) {height pos : Nat}
    (hpos : pos < calcTreeWidth vTxid.length height) {preB postB : List Bool} {preH postH m : List α}
    {bad : Bool} (hB : t.vBits = preB ++ ((stored hash vTxid vMatch height pos).vBits ++ postB))
    (hH : t.vHash = preH ++ ((stored hash vTxid vMatch height pos).vHash ++ postH)) :
    traverseAndExtract hash t height pos
        { nBitsUsed := preB.length, nHashUsed := preH.length, vMatch := m, fBad := bad } =
      (calcHash hash vTxid height pos,
        { nBitsUsed := preB.length + (stored hash vTxid vMatch height pos).vBits.length
          nHashUsed := preH.length + (stored hash vTxid vMatch height pos).vHash.length
          vMatch := m ++ matchedBelow vTxid vMatch height pos
          fBad := bad }) := by
  induction height generalizing pos preB postB preH postH m with
  | zero =>
      have hlt : pos < vTxid.length := by rw [lt_calcTreeWidth_iff] at hpos; omega
      rw [stored_leaf] at hB hH
      have hbits : preB.length < t.vBits.length := by simp [hB]
      have hbit : t.vBits.getD preB.length false = parentOfMatch vTxid.length vMatch 0 pos := by simp [hB]
      rw [traverseAndExtract_zero hbits, hbit, extractStored_eq hH rfl, stored_leaf,
        matchedBelow_leaf hmask hlt]
      rfl
  | succ height ih =>
      have hleft := two_mul_lt_calcTreeWidth hpos
      cases hparent : parentOfMatch vTxid.length vMatch (height + 1) pos with
      | false =>
          rw [stored_hash hparent] at hB hH
          have hbits : preB.length < t.vBits.length := by simp [hB]
          have hbit : t.vBits.getD preB.length false = false := by simp [hB]
          rw [traverseAndExtract_stored hbits hbit, extractStored_eq hH rfl, stored_hash hparent,
            matchedBelow_of_not_parent hmask hparent]
          rfl
      | true =>
          by_cases hright : pos * 2 + 1 < calcTreeWidth vTxid.length height
          · rw [stored_both hparent hright] at hB hH
            have hbits : preB.length < t.vBits.length := by simp [hB]
            have hbit : t.vBits.getD preB.length false = true := by simp [hB]
            have hl := ih hleft (m := m)
              (hB.trans (by simp) : t.vBits = (preB ++ [true]) ++
                ((stored hash vTxid vMatch height (pos * 2)).vBits ++
                  ((stored hash vTxid vMatch height (pos * 2 + 1)).vBits ++ postB)))
              (hH.trans (by simp) : t.vHash = preH ++
                ((stored hash vTxid vMatch height (pos * 2)).vHash ++
                  ((stored hash vTxid vMatch height (pos * 2 + 1)).vHash ++ postH)))
            have hr := ih hright (m := m ++ matchedBelow vTxid vMatch height (pos * 2))
              (hB.trans (by simp) : t.vBits =
                (preB ++ [true] ++ (stored hash vTxid vMatch height (pos * 2)).vBits) ++
                  ((stored hash vTxid vMatch height (pos * 2 + 1)).vBits ++ postB))
              (hH.trans (by simp) : t.vHash =
                (preH ++ (stored hash vTxid vMatch height (pos * 2)).vHash) ++
                  ((stored hash vTxid vMatch height (pos * 2 + 1)).vHash ++ postH))
            rw [List.length_append, List.length_singleton] at hl
            rw [List.length_append, List.length_append, List.length_append, List.length_singleton] at hr
            rw [traverseAndExtract_both hbits hbit (hn ▸ hright) hl hr, stored_both hparent hright,
              matchedBelow_succ hmask, calcHash]
            simp [if_pos hright, Nat.add_assoc, Nat.add_comm 1]
          · rw [stored_left hparent hright] at hB hH
            have hbits : preB.length < t.vBits.length := by simp [hB]
            have hbit : t.vBits.getD preB.length false = true := by simp [hB]
            have hl := ih hleft (m := m)
              (hB.trans (by simp) : t.vBits = (preB ++ [true]) ++
                ((stored hash vTxid vMatch height (pos * 2)).vBits ++ postB))
              hH
            have hnone : vTxid.length ≤ (pos * 2 + 1) * 2 ^ height := by
              rw [lt_calcTreeWidth_iff] at hright; omega
            rw [List.length_append, List.length_singleton] at hl
            rw [traverseAndExtract_left hbits hbit (hn ▸ hright) hl, stored_left hparent hright,
              matchedBelow_succ hmask, matchedBelow_of_le vMatch hnone, calcHash]
            simp [if_neg hright, Nat.add_assoc, Nat.add_comm 1]

/-! ## How much is stored -/

theorem stored_size (hash : α → α → α) {vTxid : List α} (vMatch : List Bool) {height pos : Nat}
    (hpos : pos < calcTreeWidth vTxid.length height) :
    (stored hash vTxid vMatch height pos).vHash.length ≤ (stored hash vTxid vMatch height pos).vBits.length ∧
      (stored hash vTxid vMatch height pos).vHash.length ≤ (leavesBelow vTxid height pos).length ∧
      (stored hash vTxid vMatch height pos).vBits.length < 2 ^ (height + 1) := by
  induction height generalizing pos with
  | zero =>
      have hlt : pos < vTxid.length := by rw [lt_calcTreeWidth_iff] at hpos; omega
      rw [stored_leaf, leavesBelow_zero 0 hlt]
      exact ⟨le_rfl, le_rfl, by simp⟩
  | succ height ih =>
      have hleft := two_mul_lt_calcTreeWidth hpos
      obtain ⟨hl₁, hl₂, hl₃⟩ := ih hleft
      have hpow : 2 ^ (height + 1 + 1) = 2 ^ (height + 1) + 2 ^ (height + 1) := by
        rw [Nat.pow_succ, Nat.mul_two]
      cases hparent : parentOfMatch vTxid.length vMatch (height + 1) pos with
      | false =>
          have hsome : 1 ≤ (leavesBelow vTxid (height + 1) pos).length := by
            have hp := Nat.two_pow_pos (height + 1)
            rw [lt_calcTreeWidth_iff] at hpos
            rw [leavesBelow, List.length_take, List.length_drop]
            omega
          have hp := Nat.two_pow_pos (height + 1)
          rw [stored_hash hparent]
          exact ⟨le_rfl, hsome, by simp only [List.length_singleton]; omega⟩
      | true =>
          rw [leavesBelow_succ, List.length_append]
          by_cases hright : pos * 2 + 1 < calcTreeWidth vTxid.length height
          · obtain ⟨hr₁, hr₂, hr₃⟩ := ih hright
            rw [stored_both hparent hright]
            simp only [List.length_cons, List.length_append]
            omega
          · rw [stored_left hparent hright]
            simp only [List.length_cons]
            omega

theorem calcTreeHeight_le {n k : Nat} (h : n ≤ 2 ^ k) : calcTreeHeight n 0 ≤ k := by
  rw [calcTreeHeight_zero]
  induction k generalizing n with
  | zero => rw [treeHeight_of_le (by simpa using h)]
  | succ k ih =>
      by_cases hn : 1 < n
      · rw [treeHeight_of_lt hn]
        exact Nat.succ_le_succ (ih (by rw [Nat.pow_succ] at h; omega))
      · rw [treeHeight_of_le (by omega)]; exact Nat.zero_le _

end ProCurrency

/-!
## What a Merkle root says about a block

A root commits to the list of txids, once lists with a repeated txid are rejected. A partial tree with the
right root proves txids of the block only.
-/

namespace ProCurrency

open MerkleLevels ByteCodec

variable {α : Type} [Zero α] {hash : α → α → α}

/-! ## A hash without collisions -/

/-- The free hash: two nodes are kept as they are. -/
inductive FreeHash where
  | txid (n : Nat)
  | node (left right : FreeHash)
  deriving Repr, DecidableEq

instance : Zero FreeHash := ⟨.txid 0⟩

theorem FreeHash.node_injective : PairInjective FreeHash.node := fun _ _ _ _ h => by
  injection h with h1 h2
  exact ⟨h1, h2⟩

theorem FreeHash.txid_ne_node (ns : List Nat) : ∀ x ∈ ns.map txid, ∀ a b, x ≠ node a b := by
  intro x hx a b
  obtain ⟨n, -, rfl⟩ := List.mem_map.mp hx
  exact nofun

/-! ## The root commits to the list -/

theorem buildMerkleTree_injective [DecidableEq α] (hinj : PairInjective hash) {txids txids' : List α}
    (hleaf : ∀ x ∈ txids, ∀ a b, x ≠ hash a b) (hleaf' : ∀ x ∈ txids', ∀ a b, x ≠ hash a b)
    (hcheck : checkUniqueTx txids = true) (hcheck' : checkUniqueTx txids' = true)
    (hroot : buildMerkleTree hash txids = buildMerkleTree hash txids') : txids = txids' := by
  obtain ⟨hne, hnodup⟩ := checkUniqueTx_iff.mp hcheck
  obtain ⟨hne', hnodup'⟩ := checkUniqueTx_iff.mp hcheck'
  apply leaves_eq_of_level_eq hinj hne hne' hnodup hnodup' hleaf hleaf'
  rw [level_top hash hne, level_top hash hne', hroot]

theorem buildMerkleTree_injective_three :
    [1, 2, 3].map FreeHash.txid = [1, 2, 3].map FreeHash.txid :=
  buildMerkleTree_injective FreeHash.node_injective (FreeHash.txid_ne_node _) (FreeHash.txid_ne_node _)
    (by decide) (by decide) rfl

/-! ## A partial tree proves txids of the block only -/

theorem extractMatches_cases (hash : α → α → α) (t : CPartialMerkleTree α) :
    (t.extractMatches hash).1 = 0 ∨
      t.nTransactions ≠ 0 ∧ t.extractMatches hash =
        let r := traverseAndExtract hash t (calcTreeHeight t.nTransactions 0) 0
          { nBitsUsed := 0, nHashUsed := 0, vMatch := [], fBad := t.fBad }
        (r.1, r.2.vMatch) := by
  rw [CPartialMerkleTree.extractMatches]
  split_ifs with h1 h2 h3 h4
  · exact Or.inl rfl
  · exact Or.inl rfl
  · exact Or.inl rfl
  · exact Or.inl rfl
  · dsimp only
    split_ifs
    · exact Or.inl rfl
    · exact Or.inl rfl
    · exact Or.inl rfl
    · exact Or.inr ⟨h1, rfl⟩

theorem extractMatches_sublist (hinj : PairInjective hash) {vTxid : List α} {t : CPartialMerkleTree α}
    (hn : t.nTransactions = vTxid.length)
    (hroot : (t.extractMatches hash).1 = buildMerkleTree hash vTxid)
    (hzero : buildMerkleTree hash vTxid ≠ 0) :
    (t.extractMatches hash).2.Sublist vTxid := by
  rcases extractMatches_cases hash t with h | ⟨hpos, h⟩
  · exact absurd (hroot.symm.trans h) hzero
  · have hne : vTxid ≠ [] := by
      intro hnil
      rw [hnil] at hn
      exact hpos hn
    rw [h] at hroot ⊢
    rw [hn] at hroot ⊢
    rw [← calcHash_top hash hne] at hroot
    obtain ⟨m, hm, hsub⟩ :=
      traverseAndExtract_sublist hinj hn (top_pos (List.length_pos_iff.mpr hne).ne' _) hroot
    rw [leavesBelow_top (le_two_pow_height _)] at hsub
    dsimp only at hm ⊢
    rw [hm]
    exact hsub

/-- The tree that proves the second of three txids. -/
def secondOfThree : CPartialMerkleTree FreeHash :=
  .build FreeHash.node ([1, 2, 3].map .txid) [false, true, false]

theorem extractMatches_sublist_second :
    (secondOfThree.extractMatches FreeHash.node).2.Sublist ([1, 2, 3].map .txid) :=
  extractMatches_sublist FreeHash.node_injective rfl (by decide +kernel) (by decide +kernel)

/-! ## A partial tree survives the wire -/

/-- A tree that was built, with padding after its bits, gives back the root and the matched txids. -/
theorem extractMatches_padded {vTxid : List α} {vMatch : List Bool} (hne : vTxid ≠ [])
    (hlen : vTxid.length ≤ MAX_BLOCK_SIZE / 60) (hmask : vMatch.length = vTxid.length)
    {t : CPartialMerkleTree α} (pad : List Bool) (hn : t.nTransactions = vTxid.length) (hbad : t.fBad = false)
    (hH : t.vHash = (CPartialMerkleTree.build hash vTxid vMatch).vHash)
    (hB : t.vBits = (CPartialMerkleTree.build hash vTxid vMatch).vBits ++ pad)
    (hpad : ((CPartialMerkleTree.build hash vTxid vMatch).vBits.length + 7) / 8 = (t.vBits.length + 7) / 8) :
    t.extractMatches hash = (buildMerkleTree hash vTxid, matchedTxids vTxid vMatch) := by
  have hpos := List.length_pos_iff.mpr hne
  have htop := top_pos hpos.ne' (calcTreeHeight vTxid.length 0)
  obtain ⟨hbits, hhashes, -⟩ := stored_size hash vMatch htop
  rw [leavesBelow_top (le_two_pow_height _)] at hhashes
  have hrun := @traverseAndExtract_stored_eq α _ hash t vTxid vMatch hn hmask _ 0 htop [] pad [] [] []
    false hB (hH.trans (List.append_nil _).symm)
  rw [calcHash_top hash hne, matchedBelow, leavesBelow_top (le_two_pow_height _),
    leavesBelow_top (hmask ▸ le_two_pow_height _)] at hrun
  simp only [List.length_nil, Nat.zero_add, List.nil_append] at hrun
  have hH' : t.vHash.length = (stored hash vTxid vMatch (calcTreeHeight vTxid.length 0) 0).vHash.length :=
    congrArg List.length hH
  have hB' : t.vBits.length =
      (stored hash vTxid vMatch (calcTreeHeight vTxid.length 0) 0).vBits.length + pad.length := by
    rw [hB, List.length_append]; rfl
  rw [CPartialMerkleTree.extractMatches, if_neg (by omega), if_neg (by omega), if_neg (by omega),
    if_neg (by omega)]
  simp only [hn, hbad, hrun]
  rw [if_neg (by decide), if_neg fun hunequal => hunequal hpad, if_neg (by omega)]

theorem CPartialMerkleTree.unserialize_serialize {t : CPartialMerkleTree UInt256}
    (hn : t.nTransactions < 2 ^ 32) (hH : t.vHash.length ≤ MAX_SIZE)
    (hB : (t.vBits.length + 7) / 8 ≤ MAX_SIZE) :
    unserialize t.serialize = some
      ({ vBits := t.vBits ++ List.replicate ((t.vBits.length + 7) / 8 * 8 - t.vBits.length) false
         vHash := t.vHash, nTransactions := t.nTransactions, fBad := false }, []) := by
  have hlen : (packBits t.vBits).length ≤ MAX_SIZE := by rw [length_packBits]; exact hB
  have hbytes := readVector_append hlen (fun b _ s => (rfl : readUChar (writeUChar b ++ s) = some (b, s))) []
  rw [List.append_nil] at hbytes
  rw [unserialize, serialize, readLe_append hn]
  dsimp only
  rw [readVector_append hH fun h _ s => readUInt256_append h s]
  dsimp only
  rw [hbytes]
  dsimp only
  rw [unpackBits_packBits]

/-- Building, sending and extracting a partial tree gives the root of the block and the matched txids. -/
theorem unserialize_extractMatches (hash : UInt256 → UInt256 → UInt256) {vTxid : List UInt256}
    {vMatch : List Bool} (hne : vTxid ≠ []) (hlen : vTxid.length ≤ MAX_BLOCK_SIZE / 60)
    (hmask : vMatch.length = vTxid.length) :
    ∃ t, CPartialMerkleTree.unserialize (CPartialMerkleTree.build hash vTxid vMatch).serialize = some (t, []) ∧
      t.extractMatches hash = (buildMerkleTree hash vTxid, matchedTxids vTxid vMatch) := by
  have hmax : MAX_BLOCK_SIZE / 60 = 333333 := by decide
  have hmaxSize : MAX_SIZE = 33554432 := rfl
  have htop := top_pos (List.length_pos_iff.mpr hne).ne' (calcTreeHeight vTxid.length 0)
  obtain ⟨-, hhashes, hbits⟩ := stored_size hash vMatch htop
  rw [leavesBelow_top (le_two_pow_height _)] at hhashes
  have hheight : calcTreeHeight vTxid.length 0 ≤ 19 := calcTreeHeight_le (by omega)
  have hpow : 2 ^ (calcTreeHeight vTxid.length 0 + 1) ≤ 2 ^ 20 :=
    Nat.pow_le_pow_right (by decide) (by omega)
  have hn : (CPartialMerkleTree.build hash vTxid vMatch).nTransactions = vTxid.length := rfl
  have hH : (CPartialMerkleTree.build hash vTxid vMatch).vHash.length ≤ vTxid.length := hhashes
  have hB : (CPartialMerkleTree.build hash vTxid vMatch).vBits.length < 2 ^ 20 := hbits.trans_le hpow
  refine ⟨_, CPartialMerkleTree.unserialize_serialize (by omega) (by omega) (by omega), ?_⟩
  refine extractMatches_padded hne hlen hmask (List.replicate _ false) rfl rfl rfl rfl ?_
  simp only [List.length_append, List.length_replicate]
  omega

theorem unserialize_extractMatches_three :
    ∃ t, CPartialMerkleTree.unserialize (CPartialMerkleTree.build (fun a b => a * 3 + b)
        [5, 6, 7] [true, false, true]).serialize = some (t, []) ∧
      t.extractMatches (fun a b => a * 3 + b) =
        (buildMerkleTree (fun a b => a * 3 + b) [5, 6, 7], matchedTxids [5, 6, 7] [true, false, true]) :=
  unserialize_extractMatches _ (by decide) (by decide) rfl

end ProCurrency
