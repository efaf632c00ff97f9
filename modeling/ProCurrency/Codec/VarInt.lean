import Mathlib.Algebra.BigOperators.Intervals
import ProCurrency.Codec.Serialize
import ProCurrency.Lib.BijectiveDigits
import ProCurrency.Lib.EventRun

/-!
# Variable-length integers

`GetSizeOfVarInt`, `WriteVarInt`, `ReadVarInt` and `GetSizeOfCompactSize` (serialize.h), for integers of 64 bits. Every
round of a loop makes the number smaller, so that the number bounds the rounds.
-/

namespace ProCurrency

open ByteCodec BijectiveDigits MeasuredLoop

/-! ## Writing -/

def getSizeRound (s : UInt64 × Nat) : Option ((UInt64 × Nat) ⊕ Nat) :=
  let (n, nRet) := s
  let nRet := nRet + 1
  if n ≤ 0x7f then some (.inr nRet) else some (.inl ((n >>> 7) - 1, nRet))

def getSizeOfVarInt (n : UInt64) : Option Nat := iterate getSizeRound (n.toNat + 1) (n, 0)

/-- `n`, the temporary buffer and `len`. -/
abbrev VarIntBuffer := UInt64 × List UInt8 × Nat

/-- A round of the loop of `WriteVarInt`; it fails where it would write behind the buffer. -/
def fillRound (s : VarIntBuffer) : Option (VarIntBuffer ⊕ (List UInt8 × Nat)) :=
  let (n, tmp, len) := s
  if tmp.length ≤ len then none
  else
    let tmp := tmp.set len ((n &&& 0x7f).toUInt8 ||| if len ≠ 0 then 0x80 else 0)
    if n ≤ 0x7f then some (.inr (tmp, len)) else some (.inl ((n >>> 7) - 1, tmp, len + 1))

/-- The bytes of the buffer from `len` down. -/
def writeBackwards (tmp : List UInt8) : Nat → Option (List UInt8)
  | 0 => do return [← tmp[0]?]
  | len + 1 => do return (← tmp[len + 1]?) :: (← writeBackwards tmp len)

/-- `WriteVarInt`. The buffer may hold anything before. -/
def writeVarInt (tmp : Vector UInt8 ((8 * 8 + 6) / 7)) (n : UInt64) : Option (List UInt8) := do
  let (tmp, len) ← iterate fillRound (n.toNat + 1) (n, tmp.toList, 0)
  writeBackwards tmp len

/-! ## Reading -/

def readVarIntFrom (n : UInt64) : Reader UInt64
  | [] => none
  | chData :: s =>
      let n := (n <<< 7) ||| (chData &&& 0x7f).toUInt64
      if chData &&& 0x80 ≠ 0 then readVarIntFrom (n + 1) s else some (n, s)

def readVarInt : Reader UInt64 := readVarIntFrom 0

/-- The number that the comment on the encoding gives to a sequence of bytes. -/
def varIntValue (a : List UInt8) : Nat :=
  (a.getD (a.length - 1) 0).toNat % 128 +
    ∑ i ∈ Finset.Ico 1 a.length, 128 ^ i * ((a.getD (a.length - i - 1) 0).toNat % 128 + 1)

/-! ## Compact sizes -/

def getSizeOfCompactSize (nSize : Nat) : Nat :=
  if nSize < 253 then 1 else if nSize ≤ 0xffff then 1 + 2 else if nSize ≤ 0xffffffff then 1 + 4 else 1 + 8

theorem length_writeCompactSize (nSize : Nat) : (writeCompactSize nSize).length = getSizeOfCompactSize nSize := by
  rw [writeCompactSize, getSizeOfCompactSize]
  split_ifs
  · rfl
  · rw [List.length_cons, length_leBytes]
  · rw [List.length_cons, length_leBytes]
  · rw [List.length_cons, length_leBytes]


/-! ## Bits and digits -/

theorem low_toNat (b : UInt8) : (b &&& 0x7f).toNat = b.toNat % 128 := by
  rw [UInt8.toNat_and]
  exact Nat.and_two_pow_sub_one_eq_mod b.toNat 7

theorem high_ne_zero {b : UInt8} : b &&& 0x80 ≠ 0 ↔ 128 ≤ b.toNat := by
  have h : ∀ b : Fin 256, UInt8.ofFin b &&& 0x80 ≠ 0 ↔ 128 ≤ b.val := by decide +kernel
  exact h b.toFin

theorem lowByte_toNat (n : UInt64) : (n &&& 0x7f).toUInt8.toNat = n.toNat % 128 := by
  have hmask : n.toNat &&& 127 = n.toNat % 128 := Nat.and_two_pow_sub_one_eq_mod n.toNat 7
  rw [UInt64.toNat_toUInt8, UInt64.toNat_and]
  change (n.toNat &&& 127) % 2 ^ 8 = _
  rw [hmask]
  omega

theorem le_mask {n : UInt64} : n ≤ 0x7f ↔ n.toNat < 128 := by
  rw [UInt64.le_iff_toNat_le]
  exact Nat.lt_succ_iff.symm

theorem next_toNat {n : UInt64} (h : 128 ≤ n.toNat) : ((n >>> 7) - 1).toNat = n.toNat / 128 - 1 := by
  have hshift : (n >>> 7).toNat = n.toNat / 128 := by
    rw [UInt64.toNat_shiftRight]
    exact Nat.shiftRight_eq_div_pow n.toNat 7
  have hle : (1 : UInt64) ≤ n >>> 7 := by
    rw [UInt64.le_iff_toNat_le, hshift]
    exact Nat.div_pos h (by decide)
  rw [UInt64.toNat_sub_of_le _ _ hle, hshift]
  rfl

theorem shift_or (N : Nat) (ch : UInt8) :
    (UInt64.ofNat N <<< 7) ||| (ch &&& 0x7f).toUInt64 = UInt64.ofNat (ch.toNat % 128 + 128 * N) := by
  have hlow : ch.toNat % 128 < 2 ^ 7 := Nat.mod_lt _ (by decide)
  have hor := Nat.two_pow_add_eq_or_of_lt hlow (N % 2 ^ 57)
  have hshift : (UInt64.ofNat N <<< 7).toNat = 2 ^ 7 * (N % 2 ^ 57) := by
    rw [UInt64.toNat_shiftLeft, UInt64.toNat_ofNat', Nat.shiftLeft_eq]
    change N % 2 ^ 64 * 2 ^ 7 % 2 ^ 64 = _
    omega
  rw [← UInt64.toNat_inj, UInt64.toNat_or, UInt8.toNat_toUInt64, low_toNat, hshift, ← hor, UInt64.toNat_ofNat']
  omega

/-! ## The bytes of a number -/

/-- The byte at `len` in the buffer: the high bit is set in all but the first one. -/
def mark (len d : Nat) : UInt8 := UInt8.ofNat (if len ≠ 0 then d + 128 else d)

/-- The bytes of the buffer from `len` on. -/
def markFrom (len : Nat) : List Nat → List UInt8
  | [] => []
  | d :: ds => mark len d :: markFrom (len + 1) ds

theorem length_markFrom (len : Nat) (ds : List Nat) : (markFrom len ds).length = ds.length := by
  induction ds generalizing len with
  | nil => rfl
  | cons d ds ih => rw [markFrom, List.length_cons, List.length_cons, ih]

theorem markFrom_of_ne_zero {len : Nat} (h : len ≠ 0) (ds : List Nat) :
    markFrom len ds = ds.map fun d => UInt8.ofNat (d + 128) := by
  induction ds generalizing len with
  | nil => rfl
  | cons d ds ih => rw [markFrom, mark, if_pos h, ih (Nat.succ_ne_zero len), List.map_cons]

/-- The digits that the bytes hold. -/
def lowBits (bytes : List UInt8) : List Nat := bytes.map fun b => b.toNat % 128

theorem lowBits_markFrom (len : Nat) {ds : List Nat} (hds : ∀ d ∈ ds, d < 128) : lowBits (markFrom len ds) = ds := by
  induction ds generalizing len with
  | nil => rfl
  | cons d ds ih =>
      obtain ⟨hd, hds⟩ := List.forall_mem_cons.1 hds
      have hlow : (mark len d).toNat % 128 = d := by
        rw [mark, UInt8.toNat_ofNat']
        split <;> omega
      have hrest := ih (len + 1) hds
      rw [lowBits] at hrest
      rw [markFrom, lowBits, List.map_cons, hrest, hlow]

theorem markFrom_lowBits {high : List UInt8} {last : UInt8} (hhigh : ∀ b ∈ high, 128 ≤ b.toNat)
    (hlast : last.toNat < 128) : markFrom 0 (lowBits (last :: high)) = last :: high := by
  have hlast' : UInt8.ofNat (last.toNat % 128) = last := by
    rw [Nat.mod_eq_of_lt hlast, UInt8.ofNat_toNat]
  have hhigh' : (lowBits high).map (fun d => UInt8.ofNat (d + 128)) = high := by
    have hmark : ∀ b ∈ high, UInt8.ofNat (b.toNat % 128 + 128) = id b := by
      intro b hb
      have hge := hhigh b hb
      have hlt := b.toNat_lt
      rw [← UInt8.toNat_inj, UInt8.toNat_ofNat', id_eq]
      omega
    rw [lowBits, List.map_map]
    exact (List.map_congr_left hmark).trans (List.map_id high)
  rw [lowBits, List.map_cons, markFrom, mark, if_neg (by decide), markFrom_of_ne_zero (by decide), hlast']
  exact congrArg _ hhigh'

/-- The bytes of a number, the last one first in the buffer. -/
def varIntBytes (N : Nat) : List UInt8 := (markFrom 0 (digits 128 N)).reverse

theorem length_varIntBytes (N : Nat) : (varIntBytes N).length = (digits 128 N).length := by
  rw [varIntBytes, List.length_reverse, length_markFrom]

theorem varIntBytes_eq_iff {N : Nat} {high : List UInt8} {last : UInt8} (hhigh : ∀ b ∈ high, 128 ≤ b.toNat)
    (hlast : last.toNat < 128) :
    varIntBytes N = high ++ [last] ↔ ofDigits 128 (lowBits (high ++ [last]).reverse) = N + 1 := by
  have hdigits : ∀ d ∈ digits 128 N, d < 128 := fun d hd => lt_of_mem_digits (by decide) hd
  constructor
  · intro h
    rw [← h, varIntBytes, List.reverse_reverse, lowBits_markFrom 0 hdigits, ofDigits_digits (by decide)]
  · intro h
    have hlow : ∀ d ∈ lowBits (high ++ [last]).reverse, d < 128 := by
      intro d hd
      obtain ⟨b, _, rfl⟩ := List.mem_map.1 hd
      exact Nat.mod_lt _ (by decide)
    rw [← @ofDigits_digits 128 (by decide) N] at h
    have hsame := ofDigits_injective hlow hdigits h
    have hhigh' : ∀ b ∈ high.reverse, 128 ≤ b.toNat := fun b hb => hhigh b (List.mem_reverse.1 hb)
    rw [varIntBytes, ← hsame, List.reverse_append, List.reverse_singleton, List.singleton_append,
      markFrom_lowBits hhigh' hlast, List.reverse_cons, List.reverse_reverse]

theorem varIntBytes_shape (N : Nat) :
    ∃ high last, varIntBytes N = high ++ [last] ∧ (∀ b ∈ high, 128 ≤ b.toNat) ∧ last.toNat < 128 := by
  have hdigits : ∀ d ∈ digits 128 N, d < 128 := fun d hd => lt_of_mem_digits (by decide) hd
  cases hds : digits 128 N with
  | nil => exact absurd hds (digits_ne_nil 128 N)
  | cons d ds =>
      rw [hds] at hdigits
      obtain ⟨hd, hds'⟩ := List.forall_mem_cons.1 hdigits
      refine ⟨(ds.map fun d => UInt8.ofNat (d + 128)).reverse, UInt8.ofNat d, ?_, ?_, ?_⟩
      · rw [varIntBytes, hds, markFrom, mark, if_neg (by decide), markFrom_of_ne_zero (by decide), List.reverse_cons]
      · intro b hb
        obtain ⟨e, he, rfl⟩ := List.mem_map.1 (List.mem_reverse.1 hb)
        have hlt := hds' e he
        rw [UInt8.toNat_ofNat']
        omega
      · rw [UInt8.toNat_ofNat']
        omega

/-- The comment's formula counts the digits. -/
theorem varIntValue_succ {a : List UInt8} (h : a ≠ []) : varIntValue a + 1 = ofDigits 128 (lowBits a.reverse) := by
  have hpos : 0 < a.length := List.length_pos_iff.2 h
  have hget : ∀ i < a.length, (lowBits a.reverse).getD i 0 = (a.getD (a.length - i - 1) 0).toNat % 128 := by
    intro i hi
    have hi' : a.length - i - 1 < a.length := by omega
    have hswap : a.length - 1 - i = a.length - i - 1 := by omega
    simp [lowBits, hi, hi', hswap]
  have hlength : (lowBits a.reverse).length = a.length := by rw [lowBits, List.length_map, List.length_reverse]
  rw [ofDigits_eq_sum, hlength, Finset.sum_range_eq_add_Ico _ hpos, hget 0 hpos, pow_zero, Nat.one_mul, Nat.sub_zero,
    varIntValue, Nat.add_right_comm]
  congr 1
  refine Finset.sum_congr rfl fun i hi => ?_
  rw [hget i (Finset.mem_Ico.1 hi).2]

/-- Ten bytes hold every number of 64 bits. -/
theorem length_digits_le {N : Nat} (h : N < 2 ^ 64) : (digits 128 N).length ≤ 10 := by
  by_contra hlong
  have hpow := pow_le_ofDigits 128 (digits_ne_nil 128 N)
  have hmono : 128 ^ 10 ≤ 128 ^ ((digits 128 N).length - 1) := Nat.pow_le_pow_right (by decide) (by omega)
  rw [ofDigits_digits (by decide)] at hpow
  omega

/-! ## The loops that write -/

theorem digits_next {n : UInt64} (h : 128 ≤ n.toNat) :
    digits 128 n.toNat = n.toNat % 128 :: digits 128 ((n >>> 7) - 1).toNat := by
  rw [next_toNat h, digits_of_le (by decide) h]

theorem next_lt {n : UInt64} (h : 128 ≤ n.toNat) : ((n >>> 7) - 1).toNat < n.toNat := by
  rw [next_toNat h]
  omega

theorem getSize_rounds {rounds : Nat} {n : UInt64} (h : n.toNat < rounds) (nRet : Nat) :
    iterate getSizeRound rounds (n, nRet) = some (nRet + (digits 128 n.toNat).length) := by
  induction rounds generalizing n nRet with
  | zero => cases h
  | succ rounds ih =>
      by_cases hlast : n ≤ 0x7f
      · have hleave : getSizeRound (n, nRet) = some (.inr (nRet + 1)) := if_pos hlast
        rw [iterate_leave hleave, digits_of_lt (le_mask.1 hlast), List.length_singleton]
      · have hge : 128 ≤ n.toNat := Nat.not_lt.1 (mt le_mask.2 hlast)
        have hnext : getSizeRound (n, nRet) = some (.inl ((n >>> 7) - 1, nRet + 1)) := if_neg hlast
        rw [iterate_next hnext, ih (Nat.lt_of_lt_of_le (next_lt hge) (Nat.le_of_lt_succ h)), digits_next hge,
          List.length_cons, Nat.add_right_comm, Nat.add_assoc]

theorem getSizeOfVarInt_eq (n : UInt64) : getSizeOfVarInt n = some (varIntBytes n.toNat).length := by
  rw [getSizeOfVarInt, getSize_rounds (Nat.lt_succ_self _), length_varIntBytes, Nat.zero_add]

theorem mark_eq (n : UInt64) (len : Nat) :
    (n &&& 0x7f).toUInt8 ||| (if len ≠ 0 then 0x80 else 0) = mark len (n.toNat % 128) := by
  have hlow := lowByte_toNat n
  have hlt : n.toNat % 128 < 2 ^ 7 := Nat.mod_lt _ (by decide)
  have hor : 128 + n.toNat % 128 = 128 ||| n.toNat % 128 := Nat.two_pow_add_eq_or_of_lt hlt 1
  rw [← UInt8.toNat_inj, UInt8.toNat_or, hlow, mark, UInt8.toNat_ofNat']
  split
  · change n.toNat % 128 ||| 128 = _
    rw [Nat.or_comm, ← hor]
    omega
  · change n.toNat % 128 ||| 0 = _
    rw [Nat.or_zero]
    omega

theorem fillRound_leave {n : UInt64} {tmp : List UInt8} {len : Nat} (hlen : len < tmp.length) (hlast : n ≤ 0x7f) :
    fillRound (n, tmp, len) = some (.inr (tmp.set len (mark len (n.toNat % 128)), len)) := by
  rw [← mark_eq, fillRound, if_neg (Nat.not_le.2 hlen), if_pos hlast]

theorem fillRound_next {n : UInt64} {tmp : List UInt8} {len : Nat} (hlen : len < tmp.length) (hlast : ¬ n ≤ 0x7f) :
    fillRound (n, tmp, len) = some (.inl ((n >>> 7) - 1, tmp.set len (mark len (n.toNat % 128)), len + 1)) := by
  rw [← mark_eq, fillRound, if_neg (Nat.not_le.2 hlen), if_neg hlast]

theorem take_set_succ {tmp : List UInt8} {len : Nat} (h : len < tmp.length) (b : UInt8) :
    (tmp.set len b).take (len + 1) = tmp.take len ++ [b] := by
  rw [List.take_add_one, List.take_set_of_le (Nat.le_refl len), List.getElem?_set_self h, Option.toList_some]

/-- The digits come behind what the buffer holds, where there is room for them. -/
theorem fill_rounds {rounds : Nat} {n : UInt64} {tmp : List UInt8} {len : Nat} (h : n.toNat < rounds)
    (hroom : len + (digits 128 n.toNat).length ≤ tmp.length) :
    ∃ tmp' last, iterate fillRound rounds (n, tmp, len) = some (tmp', last) ∧ last < tmp'.length ∧
      tmp'.take (last + 1) = tmp.take len ++ markFrom len (digits 128 n.toNat) := by
  induction rounds generalizing n tmp len with
  | zero => cases h
  | succ rounds ih =>
      have hlen : len < tmp.length := by
        have hpos := List.length_pos_iff.2 (digits_ne_nil 128 n.toNat)
        omega
      have hset := take_set_succ hlen (mark len (n.toNat % 128))
      by_cases hlast : n ≤ 0x7f
      · have hlt := le_mask.1 hlast
        rw [Nat.mod_eq_of_lt hlt] at hset
        refine ⟨_, len, iterate_leave (fillRound_leave hlen hlast), ?_, ?_⟩
        · rw [List.length_set]
          exact hlen
        · rw [Nat.mod_eq_of_lt hlt, hset, digits_of_lt hlt, markFrom, markFrom]
      · have hge : 128 ≤ n.toNat := Nat.not_lt.1 (mt le_mask.2 hlast)
        have hnext := digits_next hge
        rw [hnext, List.length_cons] at hroom
        have hrounds := Nat.lt_of_lt_of_le (next_lt hge) (Nat.le_of_lt_succ h)
        have hroom' : len + 1 + (digits 128 ((n >>> 7) - 1).toNat).length ≤
            (tmp.set len (mark len (n.toNat % 128))).length := by
          rw [List.length_set]
          omega
        obtain ⟨tmp', last, hrest, hlt, htake⟩ := ih hrounds hroom'
        refine ⟨tmp', last, ?_, hlt, ?_⟩
        · rw [iterate_next (fillRound_next hlen hlast), hrest]
        · rw [htake, hset, hnext, markFrom, List.append_assoc, List.singleton_append]

theorem writeBackwards_eq {tmp : List UInt8} {len : Nat} (h : len < tmp.length) :
    writeBackwards tmp len = some (tmp.take (len + 1)).reverse := by
  induction len with
  | zero =>
      cases tmp with
      | nil => cases h
      | cons b tmp => rfl
  | succ len ih =>
      have hrest := ih (Nat.lt_of_succ_lt h)
      have htake : tmp.take (len + 1 + 1) = tmp.take (len + 1) ++ [tmp[len + 1]] := by
        rw [List.take_add_one, List.getElem?_eq_getElem h, Option.toList_some]
      rw [htake, List.reverse_append, writeBackwards, hrest, List.getElem?_eq_getElem h]
      rfl

/-- No access is behind the buffer, for every number of 64 bits. -/
theorem writeVarInt_eq (tmp : Vector UInt8 ((8 * 8 + 6) / 7)) (n : UInt64) :
    writeVarInt tmp n = some (varIntBytes n.toNat) := by
  have hroom : 0 + (digits 128 n.toNat).length ≤ tmp.toList.length := by
    rw [Nat.zero_add, Vector.length_toList]
    exact length_digits_le n.toNat_lt
  obtain ⟨tmp', last, hfill, hlt, htake⟩ := fill_rounds (Nat.lt_succ_self n.toNat) hroom
  rw [writeVarInt, hfill]
  change writeBackwards tmp' last = _
  rw [writeBackwards_eq hlt, htake, List.take_zero, List.nil_append, varIntBytes]

/-! ## The loop that reads -/

theorem readVarIntFrom_append {high : List UInt8} {last : UInt8} (hhigh : ∀ b ∈ high, 128 ≤ b.toNat)
    (hlast : last.toNat < 128) (es : List Nat) (s : List UInt8) :
    readVarIntFrom (UInt64.ofNat (ofDigits 128 es)) (high ++ [last] ++ s) =
      some (UInt64.ofNat (ofDigits 128 (lowBits (high ++ [last]).reverse ++ es) - 1), s) := by
  induction high generalizing es with
  | nil =>
      have hmore : ¬ last &&& 0x80 ≠ 0 := mt high_ne_zero.1 (Nat.not_le.2 hlast)
      have hval : ofDigits 128 (last.toNat % 128 :: es) - 1 = last.toNat % 128 + 128 * ofDigits 128 es := by
        rw [ofDigits_cons, Nat.add_right_comm, Nat.add_sub_cancel]
      rw [List.nil_append, List.singleton_append, readVarIntFrom, shift_or, if_neg hmore, ← hval]
      rfl
  | cons chData high ih =>
      obtain ⟨hchData, hhigh⟩ := List.forall_mem_cons.1 hhigh
      have hnext : UInt64.ofNat (chData.toNat % 128 + 128 * ofDigits 128 es) + 1 =
          UInt64.ofNat (ofDigits 128 (chData.toNat % 128 :: es)) := by
        rw [ofDigits_cons, Nat.add_right_comm, UInt64.ofNat_add _ 1]
        rfl
      have hbits : lowBits (chData :: high ++ [last]).reverse ++ es =
          lowBits (high ++ [last]).reverse ++ chData.toNat % 128 :: es := by
        simp [lowBits]
      rw [List.cons_append, List.cons_append, readVarIntFrom, shift_or, if_pos (high_ne_zero.2 hchData), hnext,
        ih hhigh, ← List.cons_append, hbits]

/-- What is read ends at the first byte without the high bit. -/
theorem readVarIntFrom_shape {n : UInt64} {s : List UInt8} {r : UInt64 × List UInt8}
    (h : readVarIntFrom n s = some r) :
    ∃ high last rest, s = high ++ [last] ++ rest ∧ (∀ b ∈ high, 128 ≤ b.toNat) ∧ last.toNat < 128 := by
  induction s generalizing n with
  | nil => cases h
  | cons chData s ih =>
      rw [readVarIntFrom] at h
      split_ifs at h with hmore
      · obtain ⟨high, last, rest, rfl, hhigh, hlast⟩ := ih h
        exact ⟨chData :: high, last, rest, rfl, List.forall_mem_cons.2 ⟨high_ne_zero.1 hmore, hhigh⟩, hlast⟩
      · exact ⟨[], chData, s, rfl, List.forall_mem_nil _, Nat.not_le.1 (mt high_ne_zero.2 hmore)⟩

/-- Reading gives what the comment's formula gives, as far as it fits. -/
theorem readVarInt_append {high : List UInt8} {last : UInt8} (hhigh : ∀ b ∈ high, 128 ≤ b.toNat)
    (hlast : last.toNat < 128) (s : List UInt8) :
    readVarInt (high ++ [last] ++ s) = some (UInt64.ofNat (varIntValue (high ++ [last])), s) := by
  have hread := readVarIntFrom_append hhigh hlast [] s
  rw [List.append_nil, ← varIntValue_succ (by simp), Nat.add_sub_cancel] at hread
  exact hread

theorem readVarInt_varIntBytes (n : UInt64) (s : List UInt8) :
    readVarInt (varIntBytes n.toNat ++ s) = some (n, s) := by
  obtain ⟨high, last, hbytes, hhigh, hlast⟩ := varIntBytes_shape n.toNat
  have hval := (varIntBytes_eq_iff hhigh hlast).1 hbytes
  rw [← varIntValue_succ (by simp), Nat.add_right_cancel_iff] at hval
  rw [hbytes, readVarInt_append hhigh hlast, hval, UInt64.ofNat_toNat]

/-- A sequence that is read is the one written exactly where the number it stands for fits in 64 bits. -/
theorem varIntBytes_ofNat_iff {high : List UInt8} {last : UInt8} (hhigh : ∀ b ∈ high, 128 ≤ b.toNat)
    (hlast : last.toNat < 128) :
    varIntBytes (UInt64.ofNat (varIntValue (high ++ [last]))).toNat = high ++ [last] ↔
      varIntValue (high ++ [last]) < 2 ^ 64 := by
  rw [varIntBytes_eq_iff hhigh hlast, ← varIntValue_succ (by simp), Nat.add_right_cancel_iff, UInt64.toNat_ofNat']
  exact ⟨fun h => h ▸ Nat.mod_lt _ (by decide), fun h => (Nat.mod_eq_of_lt h).symm⟩

/-! ## Both codecs -/

/-- A number comes back from the bytes written for it. Bytes from which a number is read are the ones written for it
exactly where the comment's formula gives a number of 64 bits. -/
theorem varInt_codec (tmp : Vector UInt8 ((8 * 8 + 6) / 7)) (s : List UInt8) :
    (∀ n, ∃ bytes, writeVarInt tmp n = some bytes ∧ getSizeOfVarInt n = some bytes.length ∧
      readVarInt (bytes ++ s) = some (n, s)) ∧
    (∀ n rest, readVarInt s = some (n, rest) → ∃ bytes, s = bytes ++ rest ∧
      (writeVarInt tmp n = some bytes ↔ varIntValue bytes < 2 ^ 64)) ∧
    ∀ nSize ≤ MAX_SIZE, (writeCompactSize nSize).length = getSizeOfCompactSize nSize ∧
      readCompactSize (writeCompactSize nSize ++ s) = some (nSize, s) ∧
      ∀ rest, readCompactSize s = some (nSize, rest) → s = writeCompactSize nSize ++ rest := by
  refine ⟨?_, ?_, ?_⟩
  · intro n
    exact ⟨_, writeVarInt_eq tmp n, getSizeOfVarInt_eq n, readVarInt_varIntBytes n s⟩
  · intro n rest h
    obtain ⟨high, last, rest', rfl, hhigh, hlast⟩ := readVarIntFrom_shape h
    rw [readVarInt_append hhigh hlast] at h
    cases h
    refine ⟨high ++ [last], rfl, ?_⟩
    rw [writeVarInt_eq, Option.some_inj]
    exact varIntBytes_ofNat_iff hhigh hlast
  · intro nSize hsize
    exact ⟨length_writeCompactSize nSize, readCompactSize_append hsize s, fun _ h => (readCompactSize_eq_some h).2⟩

/-- `2 ^ 64` is written in ten bytes, and is read as zero. -/
theorem varInt_not_unique :
    ¬ ∀ tmp s n rest, readVarInt s = some (n, rest) → ∃ bytes, s = bytes ++ rest ∧ writeVarInt tmp n = some bytes := by
  intro h
  have hread : readVarInt [0x80, 0xfe, 0xfe, 0xfe, 0xfe, 0xfe, 0xfe, 0xfe, 0xff, 0x00] = some (0, []) := by decide
  have hwrite : writeVarInt (Vector.replicate _ 0) 0 = some [0x00] := by decide
  obtain ⟨bytes, hs, hbytes⟩ := h (Vector.replicate _ 0) _ _ _ hread
  rw [hwrite] at hbytes
  cases hbytes
  cases hs

end ProCurrency
