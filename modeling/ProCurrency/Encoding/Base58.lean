import Mathlib.Data.List.TakeWhile
import ProCurrency.Base.BigNum
import ProCurrency.Base.Transaction
import ProCurrency.Lib.Radix
import ProCurrency.Store.TxDb

/-!
# Base58

`EncodeBase58` and `DecodeBase58` (base58.cpp), and their forms with a checksum. A character is a byte. What
`DecodeBase58` has after its first `return true` is never reached.
-/

namespace ProCurrency

open ByteCodec CBigNum

/-- All alphanumeric characters except for "0", "I", "O", and "l". -/
def pszBase58 : Bytes :=
  ['1', '2', '3', '4', '5', '6', '7', '8', '9', 'A', 'B', 'C', 'D', 'E', 'F', 'G', 'H', 'J', 'K', 'L', 'M', 'N', 'P',
    'Q', 'R', 'S', 'T', 'U', 'V', 'W', 'X', 'Y', 'Z', 'a', 'b', 'c', 'd', 'e', 'f', 'g', 'h', 'i', 'j', 'k', 'm', 'n',
    'o', 'p', 'q', 'r', 's', 't', 'u', 'v', 'w', 'x', 'y', 'z'].map fun c => UInt8.ofNat c.toNat

/-- `isspace`, in the locale of C. -/
def isspace (c : UInt8) : Bool := c = 32 || (9 ≤ c && c ≤ 13)

/-! ## Encoding -/

/-- `EncodeBase58`; `none` when the assertion on the carry fails. The vector `b58` is kept from its end. -/
def encodeBase58 (vch : Bytes) : Option Bytes :=
  let zeroes := (vch.takeWhile (· = 0)).length
  let rest := vch.dropWhile (· = 0)
  match Radix.convert 58 256 (List.replicate (rest.length * 138 / 100 + 1) 0) (rest.map UInt8.toNat) with
  | none => none
  | some b58 =>
      let digits := b58.reverse.dropWhile (· = 0)
      some (List.replicate zeroes (pszBase58.getD 0 0) ++ digits.map (pszBase58.getD · 0))

/-! ## Decoding -/

/-- `CBigNum::getvch`. -/
def getvch (bn : CBigNum) : Bytes := (bn2mpi bn).reverse

/-- "Trim off sign byte if present". -/
def trimSignByte (vchTmp : Bytes) : Bytes :=
  match vchTmp.reverse with
  | last :: prev :: _ => if last = 0 ∧ 0x80 ≤ prev then vchTmp.dropLast else vchTmp
  | _ => vchTmp

/-- The loop over the characters. -/
def decodeDigits (bn : CBigNum) : Bytes → Option CBigNum
  | [] => some bn
  | c :: p =>
      match pszBase58.idxOf? c with
      | none => if (c :: p).dropWhile isspace = [] then some bn else none
      | some i => decodeDigits (bn * 58 + i) p

/-- `DecodeBase58(const char*, ...)`. -/
def decodeBase58CStr (psz : Bytes) : Option Bytes :=
  let psz := psz.dropWhile isspace
  let psz := psz.dropWhile (· = pszBase58.getD 0 0)
  match decodeDigits 0 psz with
  | none => none
  | some bn =>
      let vchTmp := trimSignByte (getvch bn)
      let nLeadingZeros := (psz.takeWhile (· = pszBase58.getD 0 0)).length
      some (List.replicate nLeadingZeros 0 ++ vchTmp.reverse)

/-- `DecodeBase58(const std::string&, ...)`: `c_str` ends at the first zero. -/
def decodeBase58 (str : Bytes) : Option Bytes := decodeBase58CStr (str.takeWhile (· ≠ 0))

/-! ## With a checksum -/

/-- The first four bytes of the hash. -/
def checksum58 (hash : Bytes → UInt256) (vch : Bytes) : Bytes := (writeUInt256 (hash vch)).take 4

def encodeBase58Check (hash : Bytes → UInt256) (vchIn : Bytes) : Option Bytes :=
  encodeBase58 (vchIn ++ checksum58 hash vchIn)

def decodeBase58Check (hash : Bytes → UInt256) (str : Bytes) : Option Bytes :=
  match decodeBase58 str with
  | none => none
  | some vchRet =>
      if vchRet.length < 4 then none
      else
        let vch := vchRet.take (vchRet.length - 4)
        if checksum58 hash vch ≠ vchRet.drop (vchRet.length - 4) then none else some vch

end ProCurrency

/-!
## Base58 there and back

The vector of the encoder has room for every input, and the decoder gives the number back. It moves past the ones in
front of the digits before it counts them: the zero bytes that they stand for are lost.
-/

namespace ProCurrency

open ByteCodec CBigNum

/-! ## Characters -/

theorem idxOf?_pszBase58 {d : Nat} (h : d < 58) : pszBase58.idxOf? (pszBase58.getD d 0) = some d := by
  revert d
  decide

theorem isspace_pszBase58 {d : Nat} (h : d < 58) : isspace (pszBase58.getD d 0) = false := by
  revert d
  decide

theorem pszBase58_ne_zero {d : Nat} (h : d < 58) : pszBase58.getD d 0 ≠ 0 := by
  revert d
  decide

theorem pszBase58_eq_one_iff {d : Nat} (h : d < 58) : pszBase58.getD d 0 = pszBase58.getD 0 0 ↔ d = 0 := by
  revert d
  decide

theorem of_idxOf?_pszBase58 {c : UInt8} {i : Nat} (h : pszBase58.idxOf? c = some i) :
    i < 58 ∧ pszBase58.getD i 0 = c := by
  obtain ⟨hlt, hget, -⟩ := List.idxOf?_eq_some_iff.mp h
  refine ⟨hlt, ?_⟩
  rw [List.getD_eq_getElem?_getD, List.getElem?_eq_getElem hlt, Option.getD_some, hget]

theorem idxOf?_isspace {c : UInt8} (h : isspace c = true) : pszBase58.idxOf? c = none := by
  rw [Option.eq_none_iff_forall_ne_some]
  intro i hi
  obtain ⟨hlt, rfl⟩ := of_idxOf?_pszBase58 hi
  rw [isspace_pszBase58 hlt] at h
  cases h

/-- The text of digits. -/
def text58 (ds : List Nat) : Bytes := ds.map (pszBase58.getD · 0)

theorem not_isspace_of_mem_text58 {ds : List Nat} (hds : ∀ d ∈ ds, d < 58) {c : UInt8} (h : c ∈ text58 ds) :
    isspace c = false ∧ c ≠ 0 := by
  obtain ⟨d, hd, rfl⟩ := List.mem_map.mp h
  exact ⟨isspace_pszBase58 (hds d hd), pszBase58_ne_zero (hds d hd)⟩

theorem head?_text58 {ds : List Nat} (hds : ∀ d ∈ ds, d < 58) (hhead : ds.head? ≠ some 0) :
    (text58 ds).head? ≠ some (pszBase58.getD 0 0) := by
  rw [text58, List.head?_map]
  cases hd : ds.head? with
  | none => simp
  | some d =>
      have hlt := hds d (List.mem_of_mem_head? hd)
      rw [Option.map_some, Ne, Option.some.injEq, pszBase58_eq_one_iff hlt]
      exact fun h => hhead (h ▸ hd)

theorem dropWhile_one_text58 {ds : List Nat} (hds : ∀ d ∈ ds, d < 58) (hhead : ds.head? ≠ some 0) (spaces : Bytes)
    (hspaces : ∀ c ∈ spaces, isspace c = true) :
    (text58 ds ++ spaces).dropWhile (· = pszBase58.getD 0 0) = text58 ds ++ spaces := by
  cases ds with
  | nil =>
      cases spaces with
      | nil => rfl
      | cons c spaces =>
          have hc := hspaces c List.mem_cons_self
          refine List.dropWhile_cons_of_neg fun hone => ?_
          rw [of_decide_eq_true hone] at hc
          cases hc
  | cons d ds =>
      refine List.dropWhile_cons_of_neg fun hone => hhead ?_
      rw [(pszBase58_eq_one_iff (hds d List.mem_cons_self)).mp (of_decide_eq_true hone)]
      rfl

/-! ## The bytes of a number -/

/-- The bytes of a number, the most significant one first. -/
def bytesOfNat (n : Nat) : Bytes := (Radix.beDigits 256 n).map UInt8.ofNat

theorem leBytes_digits (n : Nat) : leBytes (Nat.digits 256 n).length n = (Nat.digits 256 n).map UInt8.ofNat := by
  induction n using Nat.strong_induction_on with
  | _ n ih =>
      rcases Nat.eq_zero_or_pos n with rfl | hpos
      · rfl
      · rw [Nat.digits_def' (by decide) hpos, List.length_cons, leBytes, ih _ (Nat.div_lt_self hpos (by decide)),
          List.map_cons]
        congr 1
        rw [← UInt8.toNat_inj, UInt8.toNat_ofNat', UInt8.toNat_ofNat', Nat.mod_mod]

theorem beBytes_digits (n : Nat) : beBytes (Nat.digits 256 n).length n = bytesOfNat n := by
  rw [beBytes_eq_reverse, leBytes_digits, bytesOfNat, Radix.beDigits, List.map_reverse]

theorem length_digits_eq_succ {n : Nat} (hpos : 0 < n) : ∃ j, (Nat.digits 256 n).length = j + 1 ∧ 256 ^ j ≤ n ∧
    n < 256 ^ (j + 1) := by
  obtain ⟨j, hj⟩ : ∃ j, (Nat.digits 256 n).length = j + 1 :=
    Nat.exists_eq_succ_of_ne_zero fun h => hpos.ne' (Nat.digits_eq_nil_iff_eq_zero.mp (List.length_eq_zero_iff.mp h))
  refine ⟨j, hj, ?_, hj ▸ Nat.lt_base_pow_length_digits (by decide)⟩
  have hle := Nat.base_pow_length_digits_le 256 n (by decide) hpos.ne'
  rw [hj, Nat.pow_succ'] at hle
  exact Nat.le_of_mul_le_mul_left hle (by decide)

theorem two_pow_signBit (j : Nat) : (2 : Nat) ^ (8 * j + 7) = 128 * 256 ^ j := by
  rw [Nat.pow_add, Nat.pow_mul, Nat.mul_comm]

/-- One more byte than the number has is needed when the top bit of the first one is taken. -/
theorem bytes_eq {n j : Nat} (hlow : 256 ^ j ≤ n) (hhigh : n < 256 ^ (j + 1)) :
    CompactFloat.bytes n = if n < 128 * 256 ^ j then j + 1 else j + 2 := by
  have hpos : 0 < n := (Nat.pow_pos (by decide)).trans_le hlow
  rw [← two_pow_signBit]
  split
  · rename_i hsmall
    refine Nat.le_antisymm (CompactFloat.bytes_le_succ_iff.mpr hsmall) (Nat.le_of_not_lt fun hlt => ?_)
    cases j with
    | zero => exact absurd (CompactFloat.bytes_pos hpos.ne') (by omega)
    | succ j =>
        have hless := CompactFloat.bytes_le_succ_iff.mp (Nat.le_of_lt_succ hlt)
        have hle : (2 : Nat) ^ (8 * j + 7) ≤ (2 ^ 8) ^ (j + 1) := by
          rw [← Nat.pow_mul]
          exact Nat.pow_le_pow_right (by decide) (by omega)
        exact Nat.not_lt.mpr hle (hlow.trans_lt hless)
  · rename_i hlarge
    refine Nat.le_antisymm (CompactFloat.bytes_le_succ_iff.mpr (hhigh.trans_le ?_)) (Nat.lt_of_not_le fun hle => ?_)
    · rw [two_pow_signBit, Nat.pow_succ']
      omega
    · exact hlarge (CompactFloat.bytes_le_succ_iff.mp hle)

theorem trimSignByte_reverse_cons (b : UInt8) (hb : b ≠ 0) (vch : Bytes) :
    trimSignByte (b :: vch).reverse = (b :: vch).reverse := by
  cases vch with
  | nil => rfl
  | cons prev vch => rw [trimSignByte, List.reverse_reverse]; exact if_neg fun h => hb h.1

theorem trimSignByte_reverse_zero (b : UInt8) (hb : 0x80 ≤ b) (vch : Bytes) :
    trimSignByte (0 :: b :: vch).reverse = (b :: vch).reverse := by
  rw [trimSignByte, List.reverse_reverse]
  dsimp only
  rw [if_pos ⟨rfl, hb⟩, List.reverse_cons, List.dropLast_concat]

theorem toNat_firstByte {n j : Nat} (hhigh : n < 256 ^ (j + 1)) : (UInt8.ofNat (n / 256 ^ j)).toNat = n / 256 ^ j := by
  have hfirst : n / 256 ^ j < 256 := by
    rw [Nat.div_lt_iff_lt_mul (Nat.pow_pos (by decide)), ← Nat.pow_succ']
    exact hhigh
  rw [UInt8.toNat_ofNat', Nat.mod_eq_of_lt hfirst]

/-- What OpenSSL gives back is the number, once its sign byte is gone. -/
theorem trimSignByte_getvch (n : Nat) : (trimSignByte (getvch n)).reverse = bytesOfNat n := by
  rw [getvch, bn2mpi_natCast]
  rcases Nat.eq_zero_or_pos n with rfl | hpos
  · rfl
  obtain ⟨j, hj, hlow, hhigh⟩ := length_digits_eq_succ hpos
  have hfirst := toNat_firstByte hhigh
  have hbytes : bytesOfNat n = UInt8.ofNat (n / 256 ^ j) :: beBytes j n := by
    rw [← beBytes_digits, hj, beBytes]
  rw [bytes_eq hlow hhigh, hbytes]
  split
  · -- The top bit of the first byte is free.
    have hne : UInt8.ofNat (n / 256 ^ j) ≠ 0 := by
      have hpos' : 0 < n / 256 ^ j := Nat.div_pos hlow (Nat.pow_pos (by decide))
      intro h
      rw [h] at hfirst
      exact hpos'.ne hfirst
    rw [beBytes, trimSignByte_reverse_cons _ hne, List.reverse_reverse]
  · rename_i hlarge
    have hzero : UInt8.ofNat (n / 256 ^ (j + 1)) = 0 := by rw [Nat.div_eq_of_lt hhigh]; rfl
    have htop : 0x80 ≤ UInt8.ofNat (n / 256 ^ j) := by
      rw [UInt8.le_iff_toNat_le, hfirst, Nat.le_div_iff_mul_le (Nat.pow_pos (by decide))]
      exact Nat.le_of_not_lt hlarge
    rw [beBytes, beBytes, hzero, trimSignByte_reverse_zero _ htop, List.reverse_reverse]

/-! ## Encoding -/

/-- "log(256) / log(58), rounded up." -/
theorem room58 (size : Nat) : 256 ^ size ≤ 58 ^ (size * 138 / 100 + 1) := by
  have hrest : ∀ r < 100, 256 ^ r ≤ 58 ^ (r * 138 / 100 + 1) := by decide +kernel
  have hsize : size * 138 / 100 + 1 = 138 * (size / 100) + (size % 100 * 138 / 100 + 1) := by omega
  conv_lhs => rw [← Nat.div_add_mod size 100]
  rw [hsize, Nat.pow_add, Nat.pow_add, Nat.pow_mul, Nat.pow_mul]
  exact Nat.mul_le_mul (Nat.pow_le_pow_left (by decide +kernel) _) (hrest _ (Nat.mod_lt _ (by decide)))

/-- The number that the bytes stand for. -/
def valueOf (vch : Bytes) : Nat := Radix.ofBe 256 (vch.map UInt8.toNat)

theorem valueOf_bytesOfNat (n : Nat) : valueOf (bytesOfNat n) = n := by
  have hback : (bytesOfNat n).map UInt8.toNat = Radix.beDigits 256 n := by
    rw [bytesOfNat, List.map_map]
    conv_rhs => rw [← List.map_id (Radix.beDigits 256 n)]
    refine List.map_congr_left fun d hd => ?_
    rw [Function.comp_apply, UInt8.toNat_ofNat', Nat.mod_eq_of_lt (Radix.lt_of_mem_beDigits (by decide) hd)]
    rfl
  rw [valueOf, hback, Radix.ofBe_beDigits]

theorem bytesOfNat_valueOf (vch : Bytes) : bytesOfNat (valueOf vch) = vch.dropWhile (· = 0) := by
  have hlt : ∀ c ∈ vch.map UInt8.toNat, c < 256 := by
    intro c hc
    obtain ⟨b, -, rfl⟩ := List.mem_map.mp hc
    exact b.toNat_lt
  rw [bytesOfNat, valueOf, Radix.beDigits_ofBe (by decide) hlt]
  clear hlt
  induction vch with
  | nil => rfl
  | cons b vch ih =>
      rw [List.map_cons, List.dropWhile_cons, List.dropWhile_cons]
      have hzero : (b.toNat = 0) = (b = 0) := by rw [← UInt8.toNat_inj]; rfl
      simp only [hzero]
      split_ifs
      · exact ih
      · rw [List.map_cons, UInt8.ofNat_toNat, List.map_map]
        congr 1
        conv_rhs => rw [← List.map_id vch]
        exact List.map_congr_left fun c _ => UInt8.ofNat_toNat

theorem takeWhile_zero_bytesOfNat (n : Nat) : (bytesOfNat n).takeWhile (· = 0) = [] := by
  have hkeep := bytesOfNat_valueOf (bytesOfNat n)
  have hnot := List.head?_dropWhile_not (· = 0) (bytesOfNat n)
  rw [valueOf_bytesOfNat] at hkeep
  rw [← hkeep] at hnot
  cases hbytes : bytesOfNat n with
  | nil => rfl
  | cons b vch =>
      rw [hbytes, List.head?_cons] at hnot
      exact List.takeWhile_cons_of_neg (by simpa using hnot)

theorem valueOf_dropWhile (vch : Bytes) : valueOf (vch.dropWhile (· = 0)) = valueOf vch := by
  rw [← bytesOfNat_valueOf, valueOf_bytesOfNat]

/-- The assertion on the carry holds for every input. -/
theorem encodeBase58_eq (vch : Bytes) :
    encodeBase58 vch = some (List.replicate (vch.takeWhile (· = 0)).length (pszBase58.getD 0 0) ++
      text58 (Radix.beDigits 58 (valueOf vch))) := by
  have hlt : ∀ c ∈ (vch.dropWhile (· = 0)).map UInt8.toNat, c < 256 := by
    intro c hc
    obtain ⟨b, -, rfl⟩ := List.mem_map.mp hc
    exact b.toNat_lt
  obtain ⟨b58, hconvert, hdigits, hvalue⟩ := Radix.convert_replicate (b := 58)
    ((vch.dropWhile (· = 0)).length * 138 / 100 + 1) (by decide) hlt (by rw [List.length_map]; exact room58 _)
  have htrim : b58.reverse.dropWhile (· = 0) = Radix.beDigits 58 (valueOf vch) := by
    rw [← valueOf_dropWhile, valueOf, ← hvalue, Radix.beDigits, Radix.digits_ofDigits_trim (by decide) hdigits,
      List.rdropWhile, List.reverse_reverse]
  rw [encodeBase58]
  simp only [hconvert, htrim]
  rfl

/-! ## Decoding -/

/-- The number that the decoder has after these digits. -/
def addDigits58 (bn : CBigNum) (ds : List Nat) : CBigNum := ds.foldl (fun bn (d : Nat) => bn * 58 + (d : Int)) bn

theorem decodeDigits_eq_some {bn n : CBigNum} {p : Bytes} :
    decodeDigits bn p = some n ↔
      ∃ ds spaces, (∀ d ∈ ds, d < 58) ∧ (∀ c ∈ spaces, isspace c = true) ∧ p = text58 ds ++ spaces ∧
        n = addDigits58 bn ds := by
  constructor
  · intro h
    induction p generalizing bn with
    | nil =>
        cases h
        exact ⟨[], [], fun d hd => (nomatch hd), fun c hc => (nomatch hc), rfl, rfl⟩
    | cons c p ih =>
        rw [decodeDigits] at h
        cases hc : pszBase58.idxOf? c with
        | none =>
            simp only [hc] at h
            split_ifs at h with hspaces
            cases h
            exact ⟨[], c :: p, fun d hd => (nomatch hd), List.dropWhile_eq_nil_iff.mp hspaces, rfl, rfl⟩
        | some i =>
            simp only [hc] at h
            obtain ⟨hi, rfl⟩ := of_idxOf?_pszBase58 hc
            obtain ⟨ds, spaces, hds, hspaces, rfl, rfl⟩ := ih h
            exact ⟨i :: ds, spaces, List.forall_mem_cons.mpr ⟨hi, hds⟩, hspaces, rfl, rfl⟩
  · rintro ⟨ds, spaces, hds, hspaces, rfl, rfl⟩
    induction ds generalizing bn with
    | nil =>
        cases spaces with
        | nil => rfl
        | cons c spaces =>
            rw [text58, List.map_nil, List.nil_append, decodeDigits, idxOf?_isspace (hspaces c List.mem_cons_self)]
            exact if_pos (List.dropWhile_eq_nil_iff.mpr hspaces)
    | cons d ds ih =>
        obtain ⟨hd, hds⟩ := List.forall_mem_cons.mp hds
        rw [text58, List.map_cons, List.cons_append, decodeDigits, idxOf?_pszBase58 hd]
        exact ih hds

theorem addDigits58_natCast (ds : List Nat) (n : Nat) :
    addDigits58 n ds = ((ds.foldl (fun n d => n * 58 + d) n : Nat) : Int) := by
  induction ds generalizing n with
  | nil => rfl
  | cons d ds ih =>
      rw [List.foldl_cons, ← ih, addDigits58, addDigits58, List.foldl_cons]
      push_cast
      rfl

theorem decodeBase58CStr_eq_some {psz ret : Bytes} :
    decodeBase58CStr psz = some ret ↔
      ∃ ds spaces, (∀ d ∈ ds, d < 58) ∧ (∀ c ∈ spaces, isspace c = true) ∧
        (psz.dropWhile isspace).dropWhile (· = pszBase58.getD 0 0) = text58 ds ++ spaces ∧
          ret = bytesOfNat (Radix.ofBe 58 ds) := by
  have hones (p : Bytes) : (p.dropWhile (· = pszBase58.getD 0 0)).takeWhile (· = pszBase58.getD 0 0) = [] := by
    rw [List.takeWhile_eq_nil_iff]
    exact fun hpos => List.dropWhile_get_zero_not _ _ hpos
  have hvalue (ds : List Nat) : trimSignByte (getvch (addDigits58 0 ds)) =
      (bytesOfNat (Radix.ofBe 58 ds)).reverse := by
    have hcast := addDigits58_natCast ds 0
    rw [Nat.cast_zero] at hcast
    rw [hcast, ← trimSignByte_getvch, List.reverse_reverse]
    rfl
  rw [decodeBase58CStr]
  dsimp only
  rw [hones, List.length_nil, List.replicate_zero]
  constructor
  · intro h
    cases hdigits : decodeDigits 0 ((psz.dropWhile isspace).dropWhile (· = pszBase58.getD 0 0)) with
    | none =>
        rw [hdigits] at h
        cases h
    | some bn =>
        rw [hdigits] at h
        cases h
        obtain ⟨ds, spaces, hds, hspaces, htext, rfl⟩ := decodeDigits_eq_some.mp hdigits
        exact ⟨ds, spaces, hds, hspaces, htext, by rw [List.nil_append, hvalue, List.reverse_reverse]⟩
  · rintro ⟨ds, spaces, hds, hspaces, htext, rfl⟩
    rw [decodeDigits_eq_some.mpr ⟨ds, spaces, hds, hspaces, htext, rfl⟩]
    dsimp only
    rw [List.nil_append, hvalue, List.reverse_reverse]

/-! ## There and back -/

/-- What comes back is the input without the zero bytes in front. -/
theorem decodeBase58_encodeBase58 {vch str : Bytes} (h : encodeBase58 vch = some str) :
    decodeBase58 str = some (vch.dropWhile (· = 0)) := by
  rw [encodeBase58_eq] at h
  cases h
  have hdigits : ∀ d ∈ Radix.beDigits 58 (valueOf vch), d < 58 := fun d hd => Radix.lt_of_mem_beDigits (by decide) hd
  have hones (c : UInt8) (hc : c ∈ List.replicate (vch.takeWhile (· = 0)).length (pszBase58.getD 0 0)) :
      c = pszBase58.getD 0 0 := List.eq_of_mem_replicate hc
  have htext (c : UInt8) (hc : c ∈ List.replicate (vch.takeWhile (· = 0)).length (pszBase58.getD 0 0) ++
      text58 (Radix.beDigits 58 (valueOf vch))) : isspace c = false ∧ c ≠ 0 := by
    rcases List.mem_append.mp hc with hc | hc
    · rw [hones c hc]
      decide
    · exact not_isspace_of_mem_text58 hdigits hc
  rw [decodeBase58, List.takeWhile_eq_self_iff.mpr fun c hc => decide_eq_true (htext c hc).2,
    ← bytesOfNat_valueOf, decodeBase58CStr_eq_some]
  refine ⟨_, [], hdigits, fun c hc => (nomatch hc), ?_, by rw [Radix.ofBe_beDigits]⟩
  have hnospace : ∀ l : Bytes, (∀ c ∈ l, isspace c = false) → l.dropWhile isspace = l := by
    intro l hl
    cases l with
    | nil => rfl
    | cons c l => exact List.dropWhile_cons_of_neg (by simp [hl c List.mem_cons_self])
  rw [hnospace _ fun c hc => (htext c hc).1, List.dropWhile_append_of_pos fun c hc => decide_eq_true (hones c hc),
    List.append_nil]
  have hdrop := dropWhile_one_text58 hdigits (Radix.head?_beDigits 58 _) [] fun c hc => (nomatch hc)
  rwa [List.append_nil] at hdrop

/-- Surrounding white space is removed. -/
def trim (str : Bytes) : Bytes := (str.dropWhile isspace).rdropWhile isspace

theorem mem_trim {str : Bytes} {c : UInt8} (hc : c ∈ str) (hspace : isspace c = false) : c ∈ trim str := by
  have hdrop : c ∈ str.dropWhile isspace := by
    rw [← List.takeWhile_append_dropWhile (p := isspace) (l := str)] at hc
    refine (List.mem_append.mp hc).resolve_left fun htake => ?_
    rw [List.mem_takeWhile_imp htake] at hspace
    cases hspace
  rw [← List.rdropWhile_append_rtakeWhile (p := isspace) (l := str.dropWhile isspace)] at hdrop
  refine (List.mem_append.mp hdrop).resolve_right fun htake => ?_
  rw [List.mem_rtakeWhile_imp htake] at hspace
  cases hspace

/-- What the decoder accepts: ones, digits and white space, up to the first zero. -/
theorem trim_of_decodeBase58 {str ret : Bytes} (h : decodeBase58 str = some ret) :
    ∃ nOnes ds, (∀ d ∈ ds, d < 58) ∧ ds.head? ≠ some 0 ∧
      trim (str.takeWhile (· ≠ 0)) = List.replicate nOnes (pszBase58.getD 0 0) ++ text58 ds ∧
      encodeBase58 ret = some (text58 ds) := by
  obtain ⟨ds, spaces, hds, hspaces, htext, rfl⟩ := decodeBase58CStr_eq_some.mp h
  have hhead : ds.head? ≠ some 0 := by
    intro hzero
    have hfirst : (((str.takeWhile (· ≠ 0)).dropWhile isspace).dropWhile (· = pszBase58.getD 0 0)).head? =
        some (pszBase58.getD 0 0) := by
      rw [htext, text58, List.head?_append, List.head?_map, hzero, Option.map_some, Option.some_or]
    have hnot := List.head?_dropWhile_not (· = pszBase58.getD 0 0) ((str.takeWhile (· ≠ 0)).dropWhile isspace)
    rw [hfirst] at hnot
    simp at hnot
  obtain ⟨nOnes, hones⟩ : ∃ nOnes, ((str.takeWhile (· ≠ 0)).dropWhile isspace).takeWhile (· = pszBase58.getD 0 0) =
      List.replicate nOnes (pszBase58.getD 0 0) :=
    ⟨_, List.eq_replicate_of_mem fun c hc => by simpa using List.mem_takeWhile_imp hc⟩
  have hbody (c : UInt8) (hc : c ∈ List.replicate nOnes (pszBase58.getD 0 0) ++ text58 ds) : isspace c = false := by
    rcases List.mem_append.mp hc with hc | hc
    · rw [List.eq_of_mem_replicate hc]
      rfl
    · exact (not_isspace_of_mem_text58 hds hc).1
  refine ⟨nOnes, ds, hds, hhead, ?_, ?_⟩
  · rw [trim, ← List.takeWhile_append_dropWhile (p := (· = pszBase58.getD 0 0))
      (l := (str.takeWhile (· ≠ 0)).dropWhile isspace), htext, hones, ← List.append_assoc, List.rdropWhile,
      List.reverse_append, List.dropWhile_append_of_pos fun c hc => hspaces c (List.mem_reverse.mp hc), ← List.rdropWhile,
      List.rdropWhile_eq_self_iff]
    intro hne hlast
    rw [hbody _ (List.getLast_mem hne)] at hlast
    cases hlast
  · have hkeep : ds.dropWhile (· = 0) = ds := by
      cases ds with
      | nil => rfl
      | cons d ds => exact List.dropWhile_cons_of_neg fun hzero => hhead (by rw [of_decide_eq_true hzero]; rfl)
    rw [encodeBase58_eq, valueOf_bytesOfNat, Radix.beDigits_ofBe (by decide) hds, takeWhile_zero_bytesOfNat,
      List.length_nil, List.replicate_zero, List.nil_append, hkeep]

/-! ## The round trips -/

/-- Encoding what the decoder gives is the text again, without white space around it. -/
def ReencodesTo (str : Bytes) : Prop := ∀ ret, decodeBase58 str = some ret → encodeBase58 ret = some (trim str)

theorem dropWhile_zero_eq_self_iff (vch : Bytes) : vch.dropWhile (· = 0) = vch ↔ vch.head? ≠ some 0 := by
  cases vch with
  | nil => simp
  | cons b vch =>
      rw [List.head?_cons, Ne, Option.some.injEq]
      constructor
      · rintro hkeep rfl
        have hlength := congrArg List.length hkeep
        have hle := (List.dropWhile_suffix (l := vch) (· = 0)).length_le
        rw [List.dropWhile_cons_of_pos (by decide), List.length_cons] at hlength
        omega
      · exact fun hb => List.dropWhile_cons_of_neg (by simpa using hb)

theorem takeWhile_ne_zero {str : Bytes} (h : 0 ∉ str) : str.takeWhile (· ≠ 0) = str :=
  List.takeWhile_eq_self_iff.mpr fun c hc => decide_eq_true fun hzero : c = 0 => h (hzero ▸ hc)

theorem reencodesTo_iff (str : Bytes) :
    ReencodesTo str ↔ decodeBase58 str = none ∨ 0 ∉ str ∧ (trim str).head? ≠ some (pszBase58.getD 0 0) := by
  rw [ReencodesTo]
  cases hdecode : decodeBase58 str with
  | none => simp
  | some ret =>
      obtain ⟨nOnes, ds, hds, hhead, htrim, hencode⟩ := trim_of_decodeBase58 hdecode
      simp only [Option.some.injEq, forall_eq', hencode, reduceCtorEq, false_or]
      constructor
      · intro heq
        have hzero : (0 : UInt8) ∉ str := fun hmem =>
          (not_isspace_of_mem_text58 hds (heq ▸ mem_trim hmem rfl)).2 rfl
        exact ⟨hzero, heq ▸ head?_text58 hds hhead⟩
      · rintro ⟨hzero, hone⟩
        rw [takeWhile_ne_zero hzero] at htrim
        cases nOnes with
        | zero => rw [htrim, List.replicate_zero, List.nil_append]
        | succ nOnes =>
            rw [htrim, List.replicate_succ, List.cons_append] at hone
            exact absurd rfl hone

theorem length_checksum58 (hash : Bytes → UInt256) (vch : Bytes) : (checksum58 hash vch).length = 4 := by
  rw [checksum58, List.length_take, writeUInt256, length_leBytes]
  rfl

theorem decodeBase58Check_iff (hash : Bytes → UInt256) {vch str : Bytes} (h : encodeBase58Check hash vch = some str) :
    decodeBase58Check hash str = some vch ↔ (vch ++ checksum58 hash vch).head? ≠ some 0 := by
  have hlength : (vch ++ checksum58 hash vch).length = vch.length + 4 := by
    rw [List.length_append, length_checksum58]
  rw [decodeBase58Check, decodeBase58_encodeBase58 h, ← dropWhile_zero_eq_self_iff]
  dsimp only
  constructor
  · intro hdecode
    split_ifs at hdecode with hshort hsum
    -- The right length is left only when nothing was lost.
    have hsize := congrArg List.length (Option.some.inj hdecode)
    rw [List.length_take] at hsize
    exact (List.dropWhile_suffix _).eq_of_length (by omega)
  · intro hkeep
    have htake : (vch ++ checksum58 hash vch).take ((vch ++ checksum58 hash vch).length - 4) = vch := by
      rw [hlength, Nat.add_sub_cancel, List.take_left]
    have hdrop : (vch ++ checksum58 hash vch).drop ((vch ++ checksum58 hash vch).length - 4) =
        checksum58 hash vch := by
      rw [hlength, Nat.add_sub_cancel, List.drop_left]
    rw [hkeep, if_neg (by omega), htake, hdrop, if_neg (by simp)]

/-- Decoding is the inverse of encoding exactly where no zero byte and no one is in front. -/
theorem base58_roundTrips_iff (hash : Bytes → UInt256) :
    (∀ vch, ∃ str, encodeBase58 vch = some str ∧ (decodeBase58 str = some vch ↔ vch.head? ≠ some 0)) ∧
      (∀ str, ReencodesTo str ↔
        decodeBase58 str = none ∨ 0 ∉ str ∧ (trim str).head? ≠ some (pszBase58.getD 0 0)) ∧
      ∀ vch, ∃ str, encodeBase58Check hash vch = some str ∧
        (decodeBase58Check hash str = some vch ↔ (vch ++ checksum58 hash vch).head? ≠ some 0) := by
  refine ⟨fun vch => ⟨_, encodeBase58_eq vch, ?_⟩, reencodesTo_iff, fun vch => ⟨_, encodeBase58_eq _, ?_⟩⟩
  · rw [decodeBase58_encodeBase58 (encodeBase58_eq vch), Option.some.injEq, dropWhile_zero_eq_self_iff]
  · exact decodeBase58Check_iff hash (encodeBase58_eq _)

/-- A single zero byte is lost. -/
theorem decodeBase58_zeroByte :
    ∃ str, encodeBase58 [0] = some str ∧ decodeBase58 str = some [] ∧ decodeBase58 str ≠ some [0] :=
  ⟨[0x31], by decide +kernel, by decide +kernel, by decide +kernel⟩

end ProCurrency
