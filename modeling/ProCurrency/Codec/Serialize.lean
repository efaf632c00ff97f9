import ProCurrency.Lib.ByteCodec
import ProCurrency.Lib.PrefixCode

/-!
# Serialization

Compact sizes and vectors (serialize.h). An exception while reading is `none`.
-/

namespace ProCurrency

open ByteCodec

def MAX_SIZE : Nat := 0x02000000

/-! ## Compact sizes -/

/-- `WriteCompactSize`, for a 64-bit size. -/
def writeCompactSize (nSize : Nat) : List UInt8 :=
  if nSize < 253 then [UInt8.ofNat nSize]
  else if nSize ≤ 0xffff then 253 :: leBytes 2 nSize
  else if nSize ≤ 0xffffffff then 254 :: leBytes 4 nSize
  else 255 :: leBytes 8 nSize

/-- `ReadCompactSize`. A size that has a shorter form, or is above `MAX_SIZE`, is refused. -/
def readCompactSize : Reader Nat
  | [] => none
  | chSize :: s =>
      let sized : Option (Nat × List UInt8) :=
        if chSize < 253 then some (chSize.toNat, s)
        else if chSize = 253 then
          match readLe 2 s with
          | none => none
          | some (xSize, s) => if xSize < 253 then none else some (xSize, s)
        else if chSize = 254 then
          match readLe 4 s with
          | none => none
          | some (xSize, s) => if xSize < 0x10000 then none else some (xSize, s)
        else
          match readLe 8 s with
          | none => none
          | some (xSize, s) => if xSize < 0x100000000 then none else some (xSize, s)
      match sized with
      | none => none
      | some (nSizeRet, s) => if nSizeRet > MAX_SIZE then none else some (nSizeRet, s)

/-! ## Vectors -/

def writeVector {α : Type} (write : α → List UInt8) (v : List α) : List UInt8 :=
  writeCompactSize v.length ++ v.flatMap write

/-- The blocks in which the source reads a long vector do not change what is read. -/
def readVector {α : Type} (read : Reader α) : Reader (List α) := fun s =>
  match readCompactSize s with
  | none => none
  | some (nSize, s) => readMany read nSize s

/-! ## Numbers -/

abbrev UInt256 := BitVec 256

instance : Std.TransOrd UInt256 := inferInstance

instance : LawfulBEq UInt256 := inferInstance

def writeUInt256 (n : UInt256) : List UInt8 := leBytes 32 n.toNat

def readUInt256 : Reader UInt256 := fun s =>
  match readLe 32 s with
  | none => none
  | some (n, s) => some (BitVec.ofNat 256 n, s)

def writeUChar (b : UInt8) : List UInt8 := [b]

def readUChar : Reader UInt8
  | [] => none
  | b :: s => some (b, s)

/-! ## Round trips -/

theorem readCompactSize_append {nSize : Nat} (h : nSize ≤ MAX_SIZE) (s : List UInt8) :
    readCompactSize (writeCompactSize nSize ++ s) = some (nSize, s) := by
  have hmax : MAX_SIZE = 0x02000000 := rfl
  rw [writeCompactSize]
  split_ifs with h1 h2 h3
  · have hsmall : UInt8.ofNat nSize < 253 := by
      rw [UInt8.lt_iff_toNat_lt, UInt8.toNat_ofNat']; simp; omega
    have hval : (UInt8.ofNat nSize).toNat = nSize := by
      rw [UInt8.toNat_ofNat']; omega
    simp only [readCompactSize, List.singleton_append, hsmall, ↓reduceIte, hval]
    rw [if_neg (by omega)]
  · have hread := readLe_append (show nSize < 256 ^ 2 by omega) s
    simp [readCompactSize, hread, h1, h]
  · have hread := readLe_append (show nSize < 256 ^ 4 by omega) s
    have hlarge : ¬ nSize < 65536 := by omega
    simp [readCompactSize, hread, hlarge, h]
  · omega

/-- A size is read from its own form only. -/
theorem readCompactSize_eq_some {s rest : List UInt8} {nSize : Nat} (h : readCompactSize s = some (nSize, rest)) :
    nSize ≤ MAX_SIZE ∧ s = writeCompactSize nSize ++ rest := by
  have hmax : MAX_SIZE = 0x02000000 := rfl
  have hlimit : ∀ {n : Nat} {s : List UInt8}, (if n > MAX_SIZE then none else some (n, s)) = some (nSize, rest) →
      n = nSize ∧ s = rest ∧ nSize ≤ MAX_SIZE := by
    intro n s hr
    split_ifs at hr with hgt
    cases hr
    exact ⟨rfl, rfl, Nat.not_lt.1 hgt⟩
  have hsized : ∀ {size low : Nat} {s : List UInt8}, (match (match readLe size s with
        | none => none
        | some (xSize, s) => if xSize < low then none else some (xSize, s)) with
      | none => none
      | some (nSizeRet, s) => if nSizeRet > MAX_SIZE then none else some (nSizeRet, s)) = some (nSize, rest) →
      low ≤ nSize ∧ nSize ≤ MAX_SIZE ∧ nSize < 256 ^ size ∧ s = leBytes size nSize ++ rest := by
    intro size low s hr
    cases hread : readLe size s with
    | none => rw [hread] at hr; cases hr
    | some r =>
        rw [hread] at hr
        dsimp only at hr
        split_ifs at hr with hlow
        obtain ⟨heq, hs, hle⟩ := hlimit hr
        obtain ⟨hbytes, hlt⟩ := readLe_eq_some hread
        rw [heq] at hbytes hlt hlow
        exact ⟨Nat.not_lt.1 hlow, hle, hlt, hs ▸ hbytes⟩
  cases s with
  | nil => cases h
  | cons chSize s =>
      simp only [readCompactSize] at h
      rw [writeCompactSize]
      by_cases h1 : chSize < 253
      · rw [if_pos h1] at h
        obtain ⟨rfl, rfl, hle⟩ := hlimit h
        have hlow : chSize.toNat < 253 := UInt8.lt_iff_toNat_lt.1 h1
        rw [if_pos hlow, UInt8.ofNat_toNat]
        exact ⟨hle, rfl⟩
      · rw [if_neg h1] at h
        by_cases h2 : chSize = 253
        · rw [if_pos h2] at h
          obtain ⟨hlow, hle, hlt, rfl⟩ := hsized h
          rw [if_neg (by omega), if_pos (by omega), h2]
          exact ⟨hle, rfl⟩
        · rw [if_neg h2] at h
          by_cases h3 : chSize = 254
          · rw [if_pos h3] at h
            obtain ⟨hlow, hle, hlt, rfl⟩ := hsized h
            rw [if_neg (by omega), if_neg (by omega), if_pos (by omega), h3]
            exact ⟨hle, rfl⟩
          · rw [if_neg h3] at h
            obtain ⟨hlow, hle, _, _⟩ := hsized h
            omega

theorem readVector_append {α : Type} {read : Reader α} {write : α → List UInt8} {v : List α}
    (hsize : v.length ≤ MAX_SIZE) (h : ∀ a ∈ v, ∀ s, read (write a ++ s) = some (a, s))
    (s : List UInt8) : readVector read (writeVector write v ++ s) = some (v, s) := by
  rw [readVector, writeVector, List.append_assoc, readCompactSize_append hsize]
  exact readMany_append h s

theorem readUInt256_append (n : UInt256) (s : List UInt8) :
    readUInt256 (writeUInt256 n ++ s) = some (n, s) := by
  have hlt : n.toNat < 256 ^ 32 := n.isLt
  rw [readUInt256, writeUInt256, readLe_append hlt]
  dsimp only
  rw [BitVec.ofNat_toNat, BitVec.setWidth_eq]

theorem writeUInt256_injective {n n' : UInt256} (h : writeUInt256 n = writeUInt256 n') : n = n' := by
  have hread := readUInt256_append n []
  rw [h, readUInt256_append] at hread
  cases hread
  rfl

/-! ## What comes after -/

open PrefixCode

/-- A compact size of 64 bits is told from what comes after it. -/
theorem writeCompactSize_splitsOff : SplitsOff (· < 2 ^ 64) writeCompactSize id := by
  intro n n' hn hn' s s' h
  have hsmall : ∀ {k : Nat} {b : UInt8}, k < 253 → 253 ≤ b → UInt8.ofNat k ≠ b := by
    intro k b hk hb heq
    rw [← heq, UInt8.le_iff_toNat_le, UInt8.toNat_ofNat'] at hb
    exact absurd hb (by simp; omega)
  change n = n' ∧ s = s'
  rw [writeCompactSize, writeCompactSize] at h
  split_ifs at h with h1 h1' h2' h3' h2 h1' h2' h3' h3 h1' h2' h3' h1' h2' h3'
  · obtain ⟨hbyte, hs⟩ := List.cons_eq_cons.mp h
    have hnat := congrArg UInt8.toNat hbyte
    rw [UInt8.toNat_ofNat', UInt8.toNat_ofNat'] at hnat
    exact ⟨by omega, hs⟩
  · exact absurd (List.cons_eq_cons.mp h).1 (hsmall h1 (by decide))
  · exact absurd (List.cons_eq_cons.mp h).1 (hsmall h1 (by decide))
  · exact absurd (List.cons_eq_cons.mp h).1 (hsmall h1 (by decide))
  · exact absurd (List.cons_eq_cons.mp h).1.symm (hsmall h1' (by decide))
  · exact leBytes_append_injective (by omega) (by omega) (List.cons_eq_cons.mp h).2
  · exact absurd (List.cons_eq_cons.mp h).1 (by decide)
  · exact absurd (List.cons_eq_cons.mp h).1 (by decide)
  · exact absurd (List.cons_eq_cons.mp h).1.symm (hsmall h1' (by decide))
  · exact absurd (List.cons_eq_cons.mp h).1 (by decide)
  · exact leBytes_append_injective (by omega) (by omega) (List.cons_eq_cons.mp h).2
  · exact absurd (List.cons_eq_cons.mp h).1 (by decide)
  · exact absurd (List.cons_eq_cons.mp h).1.symm (hsmall h1' (by decide))
  · exact absurd (List.cons_eq_cons.mp h).1 (by decide)
  · exact absurd (List.cons_eq_cons.mp h).1 (by decide)
  · exact leBytes_append_injective (by omega) (by omega) (List.cons_eq_cons.mp h).2

theorem writeUChar_flatMap (v : List UInt8) : v.flatMap writeUChar = v := List.flatMap_singleton' v

/-- So is a vector of bytes. -/
theorem writeBytes_splitsOff : SplitsOff (fun v => v.length < 2 ^ 64) (writeVector writeUChar) id := by
  intro v v' hv hv' s s' h
  rw [writeVector, writeVector, writeUChar_flatMap, writeUChar_flatMap, List.append_assoc, List.append_assoc] at h
  obtain ⟨hlength, hrest⟩ := writeCompactSize_splitsOff v.length v'.length hv hv' _ _ h
  exact List.append_inj hrest hlength

end ProCurrency
