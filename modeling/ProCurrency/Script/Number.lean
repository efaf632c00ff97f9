import ProCurrency.Encoding.Base58

/-!
# Numbers on the stack

`CastToBigNum` over `CBigNum` (script.cpp, bignum.h) and `CScriptNum` (script.h). Their values are integers: those of
`CScriptNum` have 64 bits in the source, and the sums of two operands of four bytes stay far below.
-/

namespace ProCurrency

open ByteCodec CBigNum

/-! ## CBigNum -/

namespace CBigNum

def setvch (vch : Bytes) : CBigNum := mpi2bn vch.reverse

def maxInt : Int := 2 ^ 31 - 1

def minInt : Int := -2 ^ 31

def getint (bn : CBigNum) : Int :=
  if bn < 0 then if maxInt < bn.natAbs then minInt else -bn.natAbs
  else if maxInt < bn.natAbs then maxInt else bn.natAbs

end CBigNum

def nDefaultMaxNumSize : Nat := 4

/-- `CastToBigNum`; `none` when it throws. -/
def castToBigNum (vch : Bytes) (nMaxNumSize : Nat) : Option CBigNum :=
  if nMaxNumSize < vch.length then none else some (CBigNum.setvch (getvch (CBigNum.setvch vch)))

/-! ## CScriptNum -/

namespace CScriptNum

def nMaxNumSize : Nat := 4

/-- "Check that the number is encoded with the minimum possible number of bytes." -/
def isMinimal (vch : Bytes) : Bool :=
  match vch.reverse with
  | [] => true
  | back :: rest =>
      back &&& 0x7f ≠ 0 ||
        match rest with
        | [] => false
        | next :: _ => next &&& 0x80 ≠ 0

/-- `set_vch`. The bit that is cleared is set. -/
def setVch (vch : Bytes) : Int :=
  match vch.getLast? with
  | none => 0
  | some back =>
      if 0x80 ≤ back then -((ofLeBytes vch : Int) - 0x80 * 256 ^ (vch.length - 1)) else ofLeBytes vch

/-- The constructor; `none` when it throws. -/
def ofVch (vch : Bytes) (fRequireMinimal : Bool) : Option Int :=
  if nMaxNumSize < vch.length then none
  else if fRequireMinimal && !isMinimal vch then none
  else some (setVch vch)

def getint (m_value : Int) : Int :=
  if CBigNum.maxInt < m_value then CBigNum.maxInt else if m_value < CBigNum.minInt then CBigNum.minInt else m_value

/-- What becomes of the bytes of the absolute value. -/
def addSign (neg : Bool) (result : Bytes) : Bytes :=
  match result.getLast? with
  | none => result
  | some back =>
      if 0x80 ≤ back then result ++ [if neg then 0x80 else 0]
      else if neg then result.dropLast ++ [back ||| 0x80]
      else result

def serialize (value : Int) : Bytes :=
  if value = 0 then [] else addSign (value < 0) ((Nat.digits 256 value.natAbs).map UInt8.ofNat)

end CScriptNum

/-! ## Both write the same bytes -/

theorem getLast?_leBytes_succ (j n : Nat) : (leBytes (j + 1) n).getLast? = some (UInt8.ofNat (n / 256 ^ j)) := by
  rw [leBytes_succ_eq_append, List.getLast?_concat]

/-- The sign bit of a number of `j + 1` bytes. -/
theorem signBit_iff {n j : Nat} (hhigh : n < 256 ^ (j + 1)) :
    0x80 ≤ UInt8.ofNat (n / 256 ^ j) ↔ 128 * 256 ^ j ≤ n := by
  rw [UInt8.le_iff_toNat_le, toNat_firstByte hhigh, Nat.le_div_iff_mul_le (Nat.pow_pos (by decide))]
  rfl

theorem or_signBit {b : UInt8} (h : ¬ 0x80 ≤ b) : (b ||| 0x80).toNat = b.toNat + 0x80 := by
  have hlow : ∀ n < 128, n ||| 128 = n + 128 := by decide
  rw [UInt8.le_iff_toNat_le] at h
  rw [UInt8.toNat_or]
  exact hlow _ (Nat.lt_of_not_le h)

theorem addSign_leBytes (neg : Bool) {n j : Nat} (hhigh : n < 256 ^ (j + 1)) :
    CScriptNum.addSign neg (leBytes (j + 1) n) =
      if 128 * 256 ^ j ≤ n then leBytes (j + 1) n ++ [if neg then 0x80 else 0]
      else leBytes j n ++ [if neg then UInt8.ofNat (n / 256 ^ j) ||| 0x80 else UInt8.ofNat (n / 256 ^ j)] := by
  rw [CScriptNum.addSign, getLast?_leBytes_succ]
  simp only [signBit_iff hhigh]
  split
  · rfl
  · rw [leBytes_succ_eq_append, List.dropLast_concat]
    cases neg <;> rfl

/-- OpenSSL and the loop of `CScriptNum` write a number with the same bytes. -/
theorem getvch_eq_serialize (bn : CBigNum) : getvch bn = CScriptNum.serialize bn := by
  by_cases hzero : bn = 0
  · subst hzero
    rfl
  have hpos : 0 < bn.natAbs := Int.natAbs_pos.2 hzero
  obtain ⟨j, hj, hlow, hhigh⟩ := length_digits_eq_succ hpos
  rw [CScriptNum.serialize, if_neg hzero, ← leBytes_digits, hj, addSign_leBytes _ hhigh, getvch, CBigNum.bn2mpi_eq,
    bytes_eq hlow hhigh]
  by_cases hlarge : 128 * 256 ^ j ≤ bn.natAbs
  · have hnext : UInt8.ofNat (bn.natAbs / 256 ^ (j + 1)) = 0 := by
      rw [Nat.div_eq_of_lt hhigh]
      rfl
    rw [if_neg (Nat.not_lt.2 hlarge), if_pos hlarge, CBigNum.beBytes, hnext]
    simp only [List.reverse_cons, beBytes_eq_reverse, List.reverse_reverse, decide_eq_true_eq]
    rfl
  · rw [if_pos (Nat.lt_of_not_le hlarge), if_neg hlarge, CBigNum.beBytes]
    simp only [List.reverse_cons, beBytes_eq_reverse, List.reverse_reverse, decide_eq_true_eq]

/-! ## Both read the same numbers -/

theorem ofLeBytes_append (bs cs : Bytes) : ofLeBytes (bs ++ cs) = ofLeBytes bs + 256 ^ bs.length * ofLeBytes cs := by
  induction bs with
  | nil => simp [ofLeBytes]
  | cons b bs ih =>
      rw [List.cons_append, ofLeBytes, ih, ofLeBytes, List.length_cons, Nat.pow_succ']
      ring

theorem setvch_eq_setVch (vch : Bytes) : CBigNum.setvch vch = CScriptNum.setVch vch := by
  induction vch using List.reverseRecOn with
  | nil => rfl
  | append_singleton vch back _ =>
      have hbytes (b : UInt8) : (CBigNum.ofBeBytes (b :: vch.reverse) : Int) =
          ofLeBytes vch + 256 ^ vch.length * b.toNat := by
        rw [CBigNum.ofBeBytes_eq, List.reverse_cons, List.reverse_reverse, ofLeBytes_append]
        simp [ofLeBytes]
      rw [CBigNum.setvch, List.reverse_append, List.reverse_singleton, List.singleton_append, CBigNum.mpi2bn, hbytes,
        hbytes, CScriptNum.setVch, List.getLast?_concat, List.length_append, List.length_singleton, Nat.add_sub_cancel,
        ofLeBytes_append]
      dsimp only
      split
      · rename_i hneg
        have hsub : (back - 0x80).toNat = back.toNat - 0x80 := UInt8.toNat_sub_of_le _ _ hneg
        have hle : (0x80 : UInt8).toNat ≤ back.toNat := UInt8.le_iff_toNat_le.1 hneg
        have hge : 128 ≤ back.toNat := hle
        rw [hsub]
        push_cast [ofLeBytes, Nat.cast_sub hge]
        ring
      · simp [ofLeBytes]

theorem setVch_concat (vch : Bytes) (back : UInt8) :
    CScriptNum.setVch (vch ++ [back]) =
      if 0x80 ≤ back then -((ofLeBytes vch : Int) + 256 ^ vch.length * (back.toNat - 0x80))
      else ofLeBytes vch + 256 ^ vch.length * back.toNat := by
  rw [CScriptNum.setVch, List.getLast?_concat, List.length_append, List.length_singleton, Nat.add_sub_cancel,
    ofLeBytes_append]
  dsimp only
  split
  · push_cast [ofLeBytes]
    ring
  · simp [ofLeBytes]

theorem setVch_serialize (value : Int) : CScriptNum.setVch (CScriptNum.serialize value) = value := by
  by_cases hzero : value = 0
  · subst hzero
    rfl
  have hpos : 0 < value.natAbs := by omega
  obtain ⟨j, hj, hlow, hhigh⟩ := length_digits_eq_succ hpos
  have hall : ofLeBytes (leBytes (j + 1) value.natAbs) = value.natAbs := ofLeBytes_leBytes hhigh
  have hparts : (ofLeBytes (leBytes j value.natAbs) : Int) + 256 ^ j * (value.natAbs / 256 ^ j : Nat) =
      value.natAbs := by
    have happend := ofLeBytes_append (leBytes j value.natAbs) [UInt8.ofNat (value.natAbs / 256 ^ j)]
    rw [← leBytes_succ_eq_append, hall, length_leBytes] at happend
    simp only [ofLeBytes, toNat_firstByte hhigh, Nat.mul_zero, Nat.add_zero] at happend
    exact_mod_cast happend.symm
  rw [CScriptNum.serialize, if_neg hzero, ← leBytes_digits, hj, addSign_leBytes _ hhigh]
  by_cases hneg : value < 0
  · have habs : (value.natAbs : Int) = -value := by omega
    by_cases hlarge : 128 * 256 ^ j ≤ value.natAbs
    · rw [if_pos hlarge, setVch_concat, hall, habs]
      simp [hneg]
    · have hclear : ¬ 0x80 ≤ UInt8.ofNat (value.natAbs / 256 ^ j) := fun h => hlarge ((signBit_iff hhigh).1 h)
      have hor := or_signBit hclear
      rw [toNat_firstByte hhigh] at hor
      have hset : 0x80 ≤ UInt8.ofNat (value.natAbs / 256 ^ j) ||| 0x80 := by
        rw [UInt8.le_iff_toNat_le, hor]
        exact Nat.le_add_left _ _
      rw [if_neg hlarge, setVch_concat, length_leBytes]
      simp only [hneg, decide_true, if_true, hset, hor, Nat.cast_add, Nat.cast_ofNat, Int.add_sub_cancel]
      rw [hparts, habs, Int.neg_neg]
  · have habs : (value.natAbs : Int) = value := by omega
    by_cases hlarge : 128 * 256 ^ j ≤ value.natAbs
    · rw [if_pos hlarge, setVch_concat, hall, habs]
      simp [hneg]
    · have hclear : ¬ 0x80 ≤ UInt8.ofNat (value.natAbs / 256 ^ j) := fun h => hlarge ((signBit_iff hhigh).1 h)
      rw [if_neg hlarge, setVch_concat, length_leBytes]
      simp only [hneg, decide_false, Bool.false_eq_true, if_false, hclear, toNat_firstByte hhigh]
      rw [hparts, habs]

/-- `CastToBigNum` and the constructor of `CScriptNum` agree, redundant zeros and the negative zero included. -/
theorem castToBigNum_eq_ofVch (vch : Bytes) :
    castToBigNum vch nDefaultMaxNumSize = CScriptNum.ofVch vch false := by
  have hvalue : CBigNum.setvch (getvch (CBigNum.setvch vch)) = CScriptNum.setVch vch := by
    rw [setvch_eq_setVch, getvch_eq_serialize, setVch_serialize, setvch_eq_setVch]
  rw [castToBigNum, CScriptNum.ofVch, hvalue]
  rfl

theorem getint_eq (bn : Int) : CBigNum.getint bn = CScriptNum.getint bn := by
  rw [CBigNum.getint, CScriptNum.getint, CBigNum.maxInt, CBigNum.minInt]
  by_cases hneg : bn < 0
  · have habs : (bn.natAbs : Int) = -bn := by omega
    rw [if_pos hneg, habs, if_neg (by omega : ¬ (2 : Int) ^ 31 - 1 < bn)]
    split_ifs <;> omega
  · have habs : (bn.natAbs : Int) = bn := by omega
    rw [if_neg hneg, habs]
    split_ifs <;> omega

end ProCurrency
