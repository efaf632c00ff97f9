import Mathlib.Data.List.Induction
import Mathlib.Data.Nat.Log
import ProCurrency.Lib.ByteCodec
import ProCurrency.Lib.CompactFloat

/-!
# Big numbers and the compact form

`CBigNum` (bignum.h) is an integer. `SetCompact` and `GetCompact` go through the MPI form of OpenSSL: the
big-endian bytes of the absolute value, with the sign in the top bit of the first byte.
-/

namespace ProCurrency

abbrev CBigNum := Int

namespace CBigNum

/-- The last `size` bytes of `n`, the most significant one first. -/
def beBytes : Nat → Nat → List UInt8
  | 0, _ => []
  | size + 1, n => UInt8.ofNat (n / 256 ^ size) :: beBytes size n

def ofBeBytes (vch : List UInt8) : Nat := vch.foldl (fun n b => n * 256 + b.toNat) 0

/-- `BN_mpi2bn`, without the four bytes of the length. -/
def mpi2bn : List UInt8 → CBigNum
  | [] => 0
  | b :: vch => if 0x80 ≤ b then -(ofBeBytes ((b - 0x80) :: vch) : Int) else ofBeBytes (b :: vch)

/-- `BN_num_bits`. -/
def numBits (bn : CBigNum) : Nat := if bn = 0 then 0 else bn.natAbs.log2 + 1

/-- `BN_bn2mpi`, without the four bytes of the length. -/
def bn2mpi (bn : CBigNum) : List UInt8 :=
  let bits := bn.numBits
  let num := (bits + 7) / 8
  -- A further byte for the sign, when the top bit of the first byte is taken.
  let ext := if 0 < bits ∧ bits % 8 = 0 then 1 else 0
  match beBytes (num + ext) bn.natAbs with
  | [] => []
  | b :: vch => (if bn < 0 then b ||| 0x80 else b) :: vch

def setCompact (nCompact : UInt32) : CBigNum :=
  let nSize := (nCompact >>> 24).toNat
  let vch := [(nCompact >>> 16).toUInt8, (nCompact >>> 8).toUInt8, nCompact.toUInt8]
  mpi2bn (vch.take nSize ++ List.replicate (nSize - 3) 0)

/-- `GetCompact`. A byte that the number does not have counts as zero. -/
def getCompact (bn : CBigNum) : UInt32 :=
  let vch := bn2mpi bn
  UInt32.ofNat vch.length <<< 24 ||| (vch.getD 0 0).toUInt32 <<< 16 |||
    (vch.getD 1 0).toUInt32 <<< 8 ||| (vch.getD 2 0).toUInt32

end CBigNum

end ProCurrency

/-!
## The compact form of a natural number

For a number that is not negative, `GetCompact` keeps the length and the three leading bytes, and two
numbers have the same compact form exactly when they round down to the same number.
-/

namespace ProCurrency.CBigNum

@[simp] theorem length_beBytes (size n : Nat) : (beBytes size n).length = size := by
  induction size with
  | zero => rfl
  | succ size ih => rw [beBytes, List.length_cons, ih]

theorem getD_beBytes {size n i : Nat} (h : i < size) :
    ((beBytes size n).getD i 0).toNat = n / 256 ^ (size - 1 - i) % 256 := by
  induction size generalizing i with
  | zero => omega
  | succ size ih =>
      cases i with
      | zero => simp [beBytes]
      | succ i =>
          rw [beBytes, List.getD_cons_succ, ih (by omega)]
          congr 3; omega

theorem getD_beBytes_of_le {size n i : Nat} (h : size ≤ i) : (beBytes size n).getD i 0 = 0 := by
  rw [List.getD_eq_getElem?_getD, List.getElem?_eq_none (by simpa using h), Option.getD_none]

theorem ofBeBytes_eq (bs : List UInt8) : ofBeBytes bs = ByteCodec.ofLeBytes bs.reverse := by
  induction bs using List.reverseRecOn with
  | nil => rfl
  | append_singleton bs b ih =>
      rw [List.reverse_append, List.reverse_singleton, List.singleton_append, ByteCodec.ofLeBytes, ← ih,
        ofBeBytes, List.foldl_append, Nat.mul_comm 256, Nat.add_comm]
      rfl

theorem beBytes_eq_reverse (size n : Nat) : beBytes size n = (ByteCodec.leBytes size n).reverse := by
  induction size with
  | zero => rfl
  | succ size ih =>
      rw [beBytes, ByteCodec.leBytes_succ_eq_append, List.reverse_append, ih, List.reverse_singleton,
        List.singleton_append]

theorem beBytes_ofBeBytes (vch : List UInt8) : beBytes vch.length (ofBeBytes vch) = vch := by
  rw [beBytes_eq_reverse, ofBeBytes_eq, ← List.length_reverse, ByteCodec.leBytes_ofLeBytes, List.reverse_reverse]

theorem ofBeBytes_snoc (vch : List UInt8) (b : UInt8) : ofBeBytes (vch ++ [b]) = ofBeBytes vch * 256 + b.toNat :=
  List.foldl_append

theorem ofBeBytes_cons (b : UInt8) (bs : List UInt8) :
    ofBeBytes (b :: bs) = b.toNat * 256 ^ bs.length + ofBeBytes bs := by
  induction bs using List.reverseRecOn with
  | nil => simp [ofBeBytes]
  | append_singleton bs c ih =>
      rw [ofBeBytes_snoc, ← List.cons_append, ofBeBytes_snoc, ih, List.length_append, List.length_singleton, Nat.pow_succ]
      ring

theorem ofBeBytes_beBytes (size n : Nat) : ofBeBytes (beBytes size n) = n % 256 ^ size := by
  induction size with
  | zero => exact (Nat.mod_one n).symm
  | succ size ih =>
      have hbyte : (UInt8.ofNat (n / 256 ^ size)).toNat = n / 256 ^ size % 256 := UInt8.toNat_ofNat'
      rw [beBytes, ofBeBytes_cons, length_beBytes, ih, hbyte, Nat.pow_succ, Nat.mod_mul,
        Nat.add_comm, Nat.mul_comm]

theorem bn2mpi_eq (bn : CBigNum) :
    bn2mpi bn = match beBytes (CompactFloat.bytes bn.natAbs) bn.natAbs with
      | [] => []
      | b :: vch => (if bn < 0 then b ||| 0x80 else b) :: vch := by
  have hsize : (numBits bn + 7) / 8 + (if 0 < numBits bn ∧ numBits bn % 8 = 0 then 1 else 0)
      = CompactFloat.bytes bn.natAbs := by
    by_cases h : bn = 0
    · subst h; rfl
    · have hbits : numBits bn = bn.natAbs.log2 + 1 := by simp [numBits, h]
      have habs : bn.natAbs ≠ 0 := Int.natAbs_ne_zero.2 h
      rw [hbits, CompactFloat.bytes, if_neg habs]
      split <;> omega
  exact congrArg (fun nSize => match beBytes nSize bn.natAbs with
    | [] => []
    | b :: vch => (if bn < 0 then b ||| 0x80 else b) :: vch) hsize

theorem bn2mpi_natCast (n : Nat) : bn2mpi (n : Int) = beBytes (CompactFloat.bytes n) n := by
  have hneg : ¬ ((n : Int) < 0) := by omega
  rw [bn2mpi_eq, Int.natAbs_natCast]
  cases beBytes (CompactFloat.bytes n) n with
  | nil => rfl
  | cons b vch => simp only [if_neg hneg]

/-- The three leading bytes, put together again. -/
theorem leading_bytes (n : Nat) :
    ((beBytes (CompactFloat.bytes n) n).getD 0 0).toNat * 2 ^ 16 +
      ((beBytes (CompactFloat.bytes n) n).getD 1 0).toNat * 2 ^ 8 +
      ((beBytes (CompactFloat.bytes n) n).getD 2 0).toNat = CompactFloat.mantissa n := by
  have hlt := CompactFloat.mantissa_lt n
  have hsmall := fun s (h : CompactFloat.bytes n = s + 1) => CompactFloat.bytes_le_succ_iff.mp h.le
  unfold CompactFloat.mantissa CompactFloat.unit at *
  rcases hs : CompactFloat.bytes n with _ | _ | _ | s
  · have hn : n = 0 := by
      by_contra hn
      have hpos := CompactFloat.bytes_pos hn
      omega
    simp [hn, beBytes]
  · have hn := hsmall 0 hs
    rw [getD_beBytes (by decide), getD_beBytes_of_le (by decide), getD_beBytes_of_le (by decide)]
    simp at hn ⊢
    omega
  · have hn := hsmall 1 hs
    rw [getD_beBytes (by decide), getD_beBytes (by decide), getD_beBytes_of_le (by decide)]
    simp at hn ⊢
    omega
  · rw [getD_beBytes (by omega), getD_beBytes (by omega), getD_beBytes (by omega)]
    have hmantissa : (if s + 1 + 1 + 1 ≤ 3 then n * 256 ^ (3 - (s + 1 + 1 + 1))
        else n / 256 ^ (s + 1 + 1 + 1 - 3)) = n / 256 ^ s := by
      cases s <;> simp
    rw [hs, hmantissa] at hlt
    rw [hmantissa, show s + 1 + 1 + 1 - 1 - 0 = s + 2 from rfl,
      show s + 1 + 1 + 1 - 1 - 1 = s + 1 from rfl, show s + 1 + 1 + 1 - 1 - 2 = s from rfl,
      pow_succ 256 (s + 1), pow_succ 256 s, ← Nat.div_div_eq_div_mul, ← Nat.div_div_eq_div_mul]
    omega

/-- `x ||| y` is a sum when `y` lies below the bits of `x`. -/
theorem or_eq_add {x y k : Nat} (hx : 2 ^ k ∣ x) (hy : y < 2 ^ k) : x ||| y = x + y := by
  obtain ⟨a, rfl⟩ := hx
  exact (Nat.two_pow_add_eq_or_of_lt hy a).symm

/-- The four parts of the word do not overlap. -/
theorem toNat_compact {size : Nat} (h : size < 256) (b₀ b₁ b₂ : UInt8) :
    (UInt32.ofNat size <<< 24 ||| b₀.toUInt32 <<< 16 ||| b₁.toUInt32 <<< 8 ||| b₂.toUInt32).toNat =
      size * 2 ^ 24 + (b₀.toNat * 2 ^ 16 + b₁.toNat * 2 ^ 8 + b₂.toNat) := by
  have h₀ := b₀.toNat_lt
  have h₁ := b₁.toNat_lt
  have h₂ := b₂.toNat_lt
  simp only [UInt32.toNat_or, UInt32.toNat_shiftLeft, UInt32.toNat_ofNat', UInt8.toNat_toUInt32,
    Nat.shiftLeft_eq]
  rw [show UInt32.toNat 24 % 32 = 24 from rfl, show UInt32.toNat 16 % 32 = 16 from rfl,
    show UInt32.toNat 8 % 32 = 8 from rfl, Nat.mod_eq_of_lt (by omega), Nat.mod_eq_of_lt (by omega),
    Nat.mod_eq_of_lt (by omega), Nat.mod_eq_of_lt (by omega)]
  have h24 : 2 ^ 24 ∣ size * 2 ^ 24 := ⟨size, by ring⟩
  have h16 : 2 ^ 16 ∣ size * 2 ^ 24 + b₀.toNat * 2 ^ 16 := ⟨size * 2 ^ 8 + b₀.toNat, by ring⟩
  have h8 : 2 ^ 8 ∣ size * 2 ^ 24 + b₀.toNat * 2 ^ 16 + b₁.toNat * 2 ^ 8 :=
    ⟨size * 2 ^ 16 + b₀.toNat * 2 ^ 8 + b₁.toNat, by ring⟩
  rw [or_eq_add h24 (by omega), or_eq_add h16 (by omega), or_eq_add h8 h₂]
  ring

theorem getCompact_natCast {n : Nat} (h : CompactFloat.bytes n < 256) :
    (getCompact (n : Int)).toNat = CompactFloat.bytes n * 2 ^ 24 + CompactFloat.mantissa n := by
  rw [← leading_bytes n, getCompact, bn2mpi_natCast, length_beBytes]
  exact toNat_compact h _ _ _

/-- Two numbers have one compact form exactly when they round down to one number. -/
theorem getCompact_eq_iff {a b : Nat} (ha : CompactFloat.bytes a < 256) (hb : CompactFloat.bytes b < 256) :
    getCompact (a : Int) = getCompact (b : Int) ↔ CompactFloat.floor a = CompactFloat.floor b := by
  rw [← CompactFloat.encode_eq_iff, ← UInt32.toNat_inj, getCompact_natCast ha, getCompact_natCast hb]
  have hma := CompactFloat.mantissa_lt a
  have hmb := CompactFloat.mantissa_lt b
  omega

end ProCurrency.CBigNum

/-!
## The compact form as a codec

A word is a length, a sign and the three leading bytes. Decoding what a number is encoded to rounds it down, and the
numbers that words decode to are those that are not rounded.
-/

namespace ProCurrency.CBigNum

open CompactFloat

/-! ## Decoding -/

theorem ofBeBytes_append_zeros (vch : List UInt8) (k : Nat) :
    ofBeBytes (vch ++ List.replicate k 0) = ofBeBytes vch * 256 ^ k := by
  induction k with
  | zero => rw [List.replicate_zero, List.append_nil, pow_zero, Nat.mul_one]
  | succ k ih =>
      have hzero : UInt8.toNat 0 = 0 := rfl
      rw [List.replicate_succ', ← List.append_assoc, ofBeBytes_snoc, ih, pow_succ, Nat.mul_assoc, hzero, Nat.add_zero]

/-- The leading bytes, as many as the length has room for. -/
theorem ofBeBytes_take (size : Nat) (b₀ b₁ b₂ : UInt8) :
    ofBeBytes ([b₀, b₁, b₂].take size ++ List.replicate (size - 3) 0) =
      expand size (b₀.toNat * 2 ^ 16 + b₁.toNat * 2 ^ 8 + b₂.toNat) := by
  have h₀ := b₀.toNat_lt
  have h₁ := b₁.toNat_lt
  have h₂ := b₂.toNat_lt
  have hthree : ofBeBytes [b₀, b₁, b₂] = b₀.toNat * 2 ^ 16 + b₁.toNat * 2 ^ 8 + b₂.toNat := by
    simp only [ofBeBytes_cons, List.length_cons, List.length_nil]
    rw [show ofBeBytes [] = 0 from rfl]
    ring
  match size with
  | 0 =>
      change 0 = _ / 256 ^ 3
      omega
  | 1 =>
      change ofBeBytes [b₀] = _ / 256 ^ 2
      rw [ofBeBytes_cons, show ofBeBytes [] = 0 from rfl, List.length_nil]
      omega
  | 2 =>
      change ofBeBytes [b₀, b₁] = _ / 256 ^ 1
      rw [ofBeBytes_cons, ofBeBytes_cons, show ofBeBytes [] = 0 from rfl, List.length_cons, List.length_nil]
      omega
  | size + 3 =>
      have htake : [b₀, b₁, b₂].take (size + 3) = [b₀, b₁, b₂] := List.take_of_length_le (Nat.le_add_left 3 size)
      rw [htake, Nat.add_sub_cancel, ofBeBytes_append_zeros, hthree, expand]
      split
      · rename_i hle
        cases Nat.le_zero.mp (Nat.le_of_add_le_add_right (hle.trans_eq (Nat.zero_add 3).symm))
        rw [pow_zero, Nat.mul_one, Nat.div_one]
      · rw [Nat.add_sub_cancel]

theorem drop_sign {a b c m : Nat} (h : a * 2 ^ 16 + b * 2 ^ 8 + c = m) (ha : 128 ≤ a) :
    (a - 128) * 2 ^ 16 + b * 2 ^ 8 + c = m - 2 ^ 23 := by
  obtain ⟨e, rfl⟩ := Nat.exists_eq_add_of_le ha
  have hsplit : (128 + e) * 2 ^ 16 = 2 ^ 23 + e * 2 ^ 16 := by ring
  rw [hsplit, Nat.add_assoc, Nat.add_assoc] at h
  rw [Nat.add_sub_cancel_left, ← h, Nat.add_sub_cancel_left, Nat.add_assoc]

/-- The number of a word. -/
theorem setCompact_eq (nCompact : UInt32) :
    setCompact nCompact =
      if nCompact.toNat % 2 ^ 24 < 2 ^ 23 then
        (expand (nCompact.toNat / 2 ^ 24) (nCompact.toNat % 2 ^ 24) : Int)
      else -(expand (nCompact.toNat / 2 ^ 24) (nCompact.toNat % 2 ^ 24 - 2 ^ 23) : Int) := by
  have hlt := nCompact.toNat_lt
  have hsize : (nCompact >>> 24).toNat = nCompact.toNat / 2 ^ 24 := by
    rw [UInt32.toNat_shiftRight, show UInt32.toNat 24 % 32 = 24 from rfl, Nat.shiftRight_eq_div_pow]
  obtain ⟨b₀, hb₀⟩ : ∃ b₀, b₀ = (nCompact >>> 16).toUInt8 := ⟨_, rfl⟩
  obtain ⟨b₁, hb₁⟩ : ∃ b₁, b₁ = (nCompact >>> 8).toUInt8 := ⟨_, rfl⟩
  obtain ⟨b₂, hb₂⟩ : ∃ b₂, b₂ = nCompact.toUInt8 := ⟨_, rfl⟩
  have hn₀ : b₀.toNat = nCompact.toNat / 2 ^ 16 % 2 ^ 8 := by
    rw [hb₀, UInt32.toNat_toUInt8, UInt32.toNat_shiftRight, show UInt32.toNat 16 % 32 = 16 from rfl,
      Nat.shiftRight_eq_div_pow]
  have hn₁ : b₁.toNat = nCompact.toNat / 2 ^ 8 % 2 ^ 8 := by
    rw [hb₁, UInt32.toNat_toUInt8, UInt32.toNat_shiftRight, show UInt32.toNat 8 % 32 = 8 from rfl,
      Nat.shiftRight_eq_div_pow]
  have hn₂ : b₂.toNat = nCompact.toNat % 2 ^ 8 := by rw [hb₂, UInt32.toNat_toUInt8]
  have hmantissa : b₀.toNat * 2 ^ 16 + b₁.toNat * 2 ^ 8 + b₂.toNat = nCompact.toNat % 2 ^ 24 := by omega
  rw [setCompact, hsize, ← hb₀, ← hb₁, ← hb₂]
  generalize nCompact.toNat / 2 ^ 24 = size
  have htake := ofBeBytes_take size
  cases size with
  | zero =>
      have hzero : ∀ m, m < 2 ^ 24 → expand 0 m = 0 := fun m hm => Nat.div_eq_of_lt hm
      rw [hzero _ (Nat.mod_lt _ (by decide)), hzero _ (by omega)]
      split <;> rfl
  | succ size =>
      rw [List.take_succ_cons, List.cons_append, mpi2bn]
      simp only [List.take_succ_cons, List.cons_append] at htake
      by_cases hsign : 0x80 ≤ b₀
      · have hsign' : 128 ≤ b₀.toNat := UInt8.le_iff_toNat_le.mp hsign
        have hsum := drop_sign hmantissa hsign'
        have hlarge : ¬ nCompact.toNat % 2 ^ 24 < 2 ^ 23 := by omega
        have hsub : (b₀ - 0x80).toNat = b₀.toNat - 128 := UInt8.toNat_sub_of_le b₀ 0x80 hsign
        rw [if_pos hsign, if_neg hlarge, htake, hsub, hsum]
      · have hsign' : ¬ 128 ≤ b₀.toNat := fun hle => hsign (UInt8.le_iff_toNat_le.mpr hle)
        rw [if_neg hsign, if_pos (by omega), htake, hmantissa]

theorem setCompact_getCompact {n : Nat} (h : bytes n < 256) :
    setCompact (getCompact (n : Int)) = (CompactFloat.floor n : Int) := by
  have hlt := mantissa_lt n
  have hword := getCompact_natCast h
  have hsize : (getCompact (n : Int)).toNat / 2 ^ 24 = bytes n := by omega
  have hmantissa : (getCompact (n : Int)).toNat % 2 ^ 24 = mantissa n := by omega
  rw [setCompact_eq, hsize, hmantissa, if_pos hlt, expand_mantissa]

/-! ## Negative numbers -/

/-- The sign takes the free bit of the first byte. -/
theorem getCompact_neg {n : Nat} (hpos : n ≠ 0) (h : bytes n < 256) :
    (getCompact (-(n : Int))).toNat = bytes n * 2 ^ 24 + (mantissa n + 2 ^ 23) := by
  have hlead := leading_bytes n
  have hlt := mantissa_lt n
  obtain ⟨b, vch, hbytes⟩ : ∃ b vch, beBytes (bytes n) n = b :: vch := by
    refine List.exists_cons_of_length_pos ?_
    rw [length_beBytes]
    exact bytes_pos hpos
  have hlength : (b :: vch).length = bytes n := by rw [← hbytes, length_beBytes]
  have hmpi : bn2mpi (-(n : Int)) = (b ||| 0x80) :: vch := by
    rw [bn2mpi_eq, Int.natAbs_neg, Int.natAbs_natCast, hbytes]
    simp only [if_pos (by omega : -(n : Int) < 0)]
  rw [hbytes, List.getD_cons_zero] at hlead
  have hor : (b ||| 0x80).toNat = b.toNat + 2 ^ 7 := by
    rw [UInt8.toNat_or, Nat.or_comm]
    exact (or_eq_add (k := 7) (Nat.dvd_refl _) (by omega)).trans (Nat.add_comm _ _)
  rw [getCompact, hmpi]
  have hparts := toNat_compact h (b ||| 0x80) (vch.getD 0 0) (vch.getD 1 0)
  rw [← hlength] at hparts ⊢
  refine hparts.trans ?_
  rw [List.getD_cons_succ, List.getD_cons_succ] at hlead
  omega

theorem setCompact_getCompact_neg {n : Nat} (h : bytes n < 256) :
    setCompact (getCompact (-(n : Int))) = -(CompactFloat.floor n : Int) := by
  by_cases hpos : n = 0
  · subst hpos
    rfl
  · have hlt := mantissa_lt n
    have hword := getCompact_neg hpos h
    have hsize : (getCompact (-(n : Int))).toNat / 2 ^ 24 = bytes n := by omega
    have hmantissa : (getCompact (-(n : Int))).toNat % 2 ^ 24 = mantissa n + 2 ^ 23 := by omega
    rw [setCompact_eq, hsize, hmantissa, if_neg (by omega), Nat.add_sub_cancel, expand_mantissa]

/-! ## The codec -/

theorem length_bn2mpi (n : Nat) : (bn2mpi (n : Int)).length = bytes n := by
  rw [bn2mpi_natCast, length_beBytes]

/-- Less than one unit of the last byte that is kept is lost. -/
theorem sub_floor_lt (n : Nat) : (n - CompactFloat.floor n) * 256 ^ 3 < 256 ^ bytes n := by
  by_cases h3 : bytes n ≤ 3
  · rw [floor_eq_self h3, Nat.sub_self, Nat.zero_mul]
    exact Nat.pow_pos (by decide)
  · have hlost : n - CompactFloat.floor n < unit n := Nat.sub_lt_left_of_lt_add (floor_le n) (lt_floor_add_unit n)
    calc (n - CompactFloat.floor n) * 256 ^ 3 < unit n * 256 ^ 3 :=
          Nat.mul_lt_mul_of_pos_right hlost (Nat.pow_pos (by decide))
      _ = 256 ^ bytes n := by
          rw [unit, ← pow_add, Nat.sub_add_cancel (Nat.le_of_not_le h3)]

/-- The kept bytes have fifteen bits at least. -/
theorem sub_floor_relative {n : Nat} (h : 0 < n) : (n - CompactFloat.floor n) * 2 ^ 15 < n := by
  by_cases h3 : bytes n ≤ 3
  · rw [floor_eq_self h3, Nat.sub_self, Nat.zero_mul]
    exact h
  · have hlost : n - CompactFloat.floor n < unit n := Nat.sub_lt_left_of_lt_add (floor_le n) (lt_floor_add_unit n)
    exact (Nat.mul_lt_mul_of_pos_right hlost (by decide)).trans_le (unit_mul_le (Nat.lt_of_not_le h3))

theorem getCompact_setCompact_stable (nCompact : UInt32) :
    setCompact (getCompact (setCompact nCompact)) = setCompact nCompact := by
  have hsize : nCompact.toNat / 2 ^ 24 < 256 := Nat.div_lt_of_lt_mul nCompact.toNat_lt
  rw [setCompact_eq nCompact]
  split
  · rename_i hsmall
    rw [setCompact_getCompact ((bytes_expand_le hsmall).trans_lt hsize), floor_expand hsmall]
  · have hsmall : nCompact.toNat % 2 ^ 24 - 2 ^ 23 < 2 ^ 23 :=
      Nat.sub_lt_left_of_lt_add (Nat.le_of_not_lt ‹_›) (Nat.mod_lt _ (by decide))
    rw [setCompact_getCompact_neg ((bytes_expand_le hsmall).trans_lt hsize), floor_expand hsmall]

/-- A positive number whose length fits the byte of the word is rounded down to its three leading bytes, to a number with
the same word, and what a word decodes to is decoded again from its own word. -/
theorem compact_codec :
    (∀ x : Nat, 0 < x → (bn2mpi (x : Int)).length < 256 → ∃ y : Nat, setCompact (getCompact (x : Int)) = (y : Int) ∧
      y ≤ x ∧ (x - y) * 256 ^ 3 < 256 ^ (bn2mpi (x : Int)).length ∧ (x - y) * 2 ^ 15 < x ∧
      getCompact (y : Int) = getCompact (x : Int)) ∧
    ∀ nCompact : UInt32, setCompact (getCompact (setCompact nCompact)) = setCompact nCompact := by
  refine ⟨fun x hpos hlength => ?_, getCompact_setCompact_stable⟩
  rw [length_bn2mpi] at hlength ⊢
  have hfloor : bytes (CompactFloat.floor x) < 256 := by rw [bytes_floor]; exact hlength
  refine ⟨CompactFloat.floor x, setCompact_getCompact hlength, floor_le x, sub_floor_lt x, sub_floor_relative hpos, ?_⟩
  exact (getCompact_eq_iff hfloor hlength).mpr (floor_eq_of_le (Nat.le_refl _) (floor_le x))

theorem compact_codec_four_bytes : ∃ y : Nat, setCompact (getCompact ((0x12345678 : Nat) : Int)) = (y : Int) ∧
    y ≤ 0x12345678 ∧ (0x12345678 - y) * 256 ^ 3 < 256 ^ (bn2mpi ((0x12345678 : Nat) : Int)).length ∧
    (0x12345678 - y) * 2 ^ 15 < 0x12345678 ∧ getCompact (y : Int) = getCompact ((0x12345678 : Nat) : Int) :=
  compact_codec.1 0x12345678 (by decide) (by decide)

/-- The length of a number of 256 bytes does not fit, and its word has the length 0. -/
theorem setCompact_getCompact_long {n : Nat} (h : bytes n = 256) : setCompact (getCompact (n : Int)) = 0 := by
  have hlength : UInt32.ofNat 256 <<< 24 = UInt32.ofNat 0 <<< 24 := by decide
  have hparts := @toNat_compact 0 (by decide) ((beBytes 256 n).getD 0 0) ((beBytes 256 n).getD 1 0)
    ((beBytes 256 n).getD 2 0)
  have hlead := leading_bytes n
  have hlt := mantissa_lt n
  rw [h] at hlead
  rw [hlead, Nat.zero_mul, Nat.zero_add, ← hlength] at hparts
  have hword : (getCompact (n : Int)).toNat = mantissa n := by
    rw [getCompact, bn2mpi_natCast, length_beBytes, h]
    exact hparts
  have hsmall : mantissa n < 2 ^ 24 := hlt.trans (by decide)
  rw [setCompact_eq, hword, Nat.mod_eq_of_lt hsmall, if_pos hlt, Nat.div_eq_of_lt hsmall, expand,
    if_pos (Nat.zero_le 3), Nat.div_eq_of_lt (hsmall.trans_eq (by decide))]
  rfl

theorem compact_codec_long : ¬ ∀ x : Nat, 0 < x → ∃ y : Nat, setCompact (getCompact (x : Int)) = (y : Int) ∧
    y ≤ x ∧ (x - y) * 256 ^ 3 < 256 ^ (bn2mpi (x : Int)).length ∧ (x - y) * 2 ^ 15 < x ∧
    getCompact (y : Int) = getCompact (x : Int) := by
  intro h
  obtain ⟨y, hy, -, -, hrelative, -⟩ := h (2 ^ 2040) (Nat.pow_pos (by decide))
  rw [setCompact_getCompact_long (by rw [bytes, if_neg (Nat.ne_of_gt (Nat.pow_pos (by decide))), Nat.log2_two_pow])] at hy
  cases (Int.natCast_eq_zero.mp hy.symm)
  rw [Nat.sub_zero] at hrelative
  exact Nat.not_lt.mpr (Nat.le_mul_of_pos_right _ (by decide)) hrelative

end ProCurrency.CBigNum
