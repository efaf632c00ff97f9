import ProCurrency.Hd.KeyPath

/-!
# Base64 and Base32

The encoders and decoders of util.cpp. A string of C is the list of its characters before the zero byte that ends it,
and a decoder also gives the pointer as the rest of the string.
-/

namespace ProCurrency

/-- `'='`. -/
def padChar : UInt8 := 61

def pbase64 : Bytes :=
  ['A', 'B', 'C', 'D', 'E', 'F', 'G', 'H', 'I', 'J', 'K', 'L', 'M', 'N', 'O', 'P', 'Q', 'R', 'S', 'T', 'U', 'V', 'W',
    'X', 'Y', 'Z', 'a', 'b', 'c', 'd', 'e', 'f', 'g', 'h', 'i', 'j', 'k', 'l', 'm', 'n', 'o', 'p', 'q', 'r', 's', 't',
    'u', 'v', 'w', 'x', 'y', 'z', '0', '1', '2', '3', '4', '5', '6', '7', '8', '9', '+', '/'].map fun c =>
      UInt8.ofNat c.toNat

def pbase32 : Bytes :=
  ['a', 'b', 'c', 'd', 'e', 'f', 'g', 'h', 'i', 'j', 'k', 'l', 'm', 'n', 'o', 'p', 'q', 'r', 's', 't', 'u', 'v', 'w',
    'x', 'y', 'z', '2', '3', '4', '5', '6', '7'].map fun c => UInt8.ofNat c.toNat

def decode64_table : List Int :=
  [-1, -1, -1, -1, -1, -1, -1, -1, -1, -1, -1, -1, -1, -1, -1, -1, -1, -1, -1, -1,
    -1, -1, -1, -1, -1, -1, -1, -1, -1, -1, -1, -1, -1, -1, -1, -1, -1, -1, -1, -1,
    -1, -1, -1, 62, -1, -1, -1, 63, 52, 53, 54, 55, 56, 57, 58, 59, 60, 61, -1, -1,
    -1, -1, -1, -1, -1, 0, 1, 2, 3, 4, 5, 6, 7, 8, 9, 10, 11, 12, 13, 14,
    15, 16, 17, 18, 19, 20, 21, 22, 23, 24, 25, -1, -1, -1, -1, -1, -1, 26, 27, 28,
    29, 30, 31, 32, 33, 34, 35, 36, 37, 38, 39, 40, 41, 42, 43, 44, 45, 46, 47, 48,
    49, 50, 51, -1, -1, -1, -1, -1, -1, -1, -1, -1, -1, -1, -1, -1, -1, -1, -1, -1,
    -1, -1, -1, -1, -1, -1, -1, -1, -1, -1, -1, -1, -1, -1, -1, -1, -1, -1, -1, -1,
    -1, -1, -1, -1, -1, -1, -1, -1, -1, -1, -1, -1, -1, -1, -1, -1, -1, -1, -1, -1,
    -1, -1, -1, -1, -1, -1, -1, -1, -1, -1, -1, -1, -1, -1, -1, -1, -1, -1, -1, -1,
    -1, -1, -1, -1, -1, -1, -1, -1, -1, -1, -1, -1, -1, -1, -1, -1, -1, -1, -1, -1,
    -1, -1, -1, -1, -1, -1, -1, -1, -1, -1, -1, -1, -1, -1, -1, -1, -1, -1, -1, -1,
    -1, -1, -1, -1, -1, -1, -1, -1, -1, -1, -1, -1, -1, -1, -1, -1]

def decode32_table : List Int :=
  [-1, -1, -1, -1, -1, -1, -1, -1, -1, -1, -1, -1, -1, -1, -1, -1, -1, -1, -1, -1,
    -1, -1, -1, -1, -1, -1, -1, -1, -1, -1, -1, -1, -1, -1, -1, -1, -1, -1, -1, -1,
    -1, -1, -1, -1, -1, -1, -1, -1, -1, -1, 26, 27, 28, 29, 30, 31, -1, -1, -1, -1,
    -1, -1, -1, -1, -1, 0, 1, 2, 3, 4, 5, 6, 7, 8, 9, 10, 11, 12, 13, 14,
    15, 16, 17, 18, 19, 20, 21, 22, 23, 24, 25, -1, -1, -1, -1, -1, -1, 0, 1, 2,
    3, 4, 5, 6, 7, 8, 9, 10, 11, 12, 13, 14, 15, 16, 17, 18, 19, 20, 21, 22,
    23, 24, 25, -1, -1, -1, -1, -1, -1, -1, -1, -1, -1, -1, -1, -1, -1, -1, -1, -1,
    -1, -1, -1, -1, -1, -1, -1, -1, -1, -1, -1, -1, -1, -1, -1, -1, -1, -1, -1, -1,
    -1, -1, -1, -1, -1, -1, -1, -1, -1, -1, -1, -1, -1, -1, -1, -1, -1, -1, -1, -1,
    -1, -1, -1, -1, -1, -1, -1, -1, -1, -1, -1, -1, -1, -1, -1, -1, -1, -1, -1, -1,
    -1, -1, -1, -1, -1, -1, -1, -1, -1, -1, -1, -1, -1, -1, -1, -1, -1, -1, -1, -1,
    -1, -1, -1, -1, -1, -1, -1, -1, -1, -1, -1, -1, -1, -1, -1, -1, -1, -1, -1, -1,
    -1, -1, -1, -1, -1, -1, -1, -1, -1, -1, -1, -1, -1, -1, -1, -1]

/-! ## Encoding -/

structure EncodeState where
  strRet : Bytes := []
  mode : Nat := 0
  left : Nat := 0

/-- The `switch` of `EncodeBase64`. -/
def encodeStep64 (s : EncodeState) (c : UInt8) : EncodeState :=
  let enc := c.toNat
  let char := fun i => pbase64.getD i 0
  match s.mode with
  | 0 => { strRet := s.strRet ++ [char (enc >>> 2)], mode := 1, left := (enc &&& 3) <<< 4 }
  | 1 => { strRet := s.strRet ++ [char (s.left ||| enc >>> 4)], mode := 2, left := (enc &&& 15) <<< 2 }
  | 2 => { s with strRet := s.strRet ++ [char (s.left ||| enc >>> 6)] ++ [char (enc &&& 63)], mode := 0 }
  | _ => s

def encodeBase64 (v : Bytes) : Bytes :=
  let s := v.foldl encodeStep64 {}
  if s.mode ≠ 0 then
    s.strRet ++ [pbase64.getD s.left 0] ++ [padChar] ++ if s.mode = 1 then [padChar] else []
  else s.strRet

/-- The `switch` of `EncodeBase32`. -/
def encodeStep32 (s : EncodeState) (c : UInt8) : EncodeState :=
  let enc := c.toNat
  let char := fun i => pbase32.getD i 0
  match s.mode with
  | 0 => { strRet := s.strRet ++ [char (enc >>> 3)], mode := 1, left := (enc &&& 7) <<< 2 }
  | 1 =>
      { strRet := s.strRet ++ [char (s.left ||| enc >>> 6)] ++ [char (enc >>> 1 &&& 31)], mode := 2
        left := (enc &&& 1) <<< 4 }
  | 2 => { strRet := s.strRet ++ [char (s.left ||| enc >>> 4)], mode := 3, left := (enc &&& 15) <<< 1 }
  | 3 =>
      { strRet := s.strRet ++ [char (s.left ||| enc >>> 7)] ++ [char (enc >>> 2 &&& 31)], mode := 4
        left := (enc &&& 3) <<< 3 }
  | 4 => { s with strRet := s.strRet ++ [char (s.left ||| enc >>> 5)] ++ [char (enc &&& 31)], mode := 0 }
  | _ => s

def nPadding : List Nat := [0, 6, 4, 3, 1]

def encodeBase32 (v : Bytes) : Bytes :=
  let s := v.foldl encodeStep32 {}
  if s.mode ≠ 0 then s.strRet ++ [pbase32.getD s.left 0] ++ List.replicate (nPadding.getD s.mode 0) padChar
  else s.strRet

/-! ## Decoding -/

structure DecodeState where
  vchRet : Bytes := []
  mode : Nat := 0
  left : Nat := 0

/-- The `switch` of `DecodeBase64`. -/
def decodeStep64 (s : DecodeState) (dec : Nat) : DecodeState :=
  match s.mode with
  | 0 => { s with left := dec, mode := 1 }
  | 1 => { vchRet := s.vchRet ++ [UInt8.ofNat (s.left <<< 2 ||| dec >>> 4)], left := dec &&& 15, mode := 2 }
  | 2 => { vchRet := s.vchRet ++ [UInt8.ofNat (s.left <<< 4 ||| dec >>> 2)], left := dec &&& 3, mode := 3 }
  | 3 => { s with vchRet := s.vchRet ++ [UInt8.ofNat (s.left <<< 6 ||| dec)], mode := 0 }
  | _ => s

/-- The `switch` of `DecodeBase32`. -/
def decodeStep32 (s : DecodeState) (dec : Nat) : DecodeState :=
  match s.mode with
  | 0 => { s with left := dec, mode := 1 }
  | 1 => { vchRet := s.vchRet ++ [UInt8.ofNat (s.left <<< 3 ||| dec >>> 2)], left := dec &&& 3, mode := 2 }
  | 2 => { s with left := s.left <<< 5 ||| dec, mode := 3 }
  | 3 => { vchRet := s.vchRet ++ [UInt8.ofNat (s.left <<< 1 ||| dec >>> 4)], left := dec &&& 15, mode := 4 }
  | 4 => { vchRet := s.vchRet ++ [UInt8.ofNat (s.left <<< 4 ||| dec >>> 1)], left := dec &&& 1, mode := 5 }
  | 5 => { s with left := s.left <<< 5 ||| dec, mode := 6 }
  | 6 => { vchRet := s.vchRet ++ [UInt8.ofNat (s.left <<< 2 ||| dec >>> 3)], left := dec &&& 7, mode := 7 }
  | 7 => { s with vchRet := s.vchRet ++ [UInt8.ofNat (s.left <<< 5 ||| dec)], mode := 0 }
  | _ => s

/-- The value of a character in a table; the character behind the end is zero. -/
def tableValue (table : List Int) (p : Bytes) (i : Nat) : Int := table.getD (p.getD i 0).toNat (-1)

/-- The loop over the characters. -/
def decodeLoop (table : List Int) (step : DecodeState → Nat → DecodeState) (s : DecodeState) :
    Bytes → DecodeState × Bytes
  | [] => (s, [])
  | c :: p =>
      let dec := tableValue table (c :: p) 0
      if dec = -1 then (s, c :: p) else decodeLoop table step (step s dec.toNat) p

/-- `nPad` times `'='`, and no character of the table behind them. -/
def padded (table : List Int) (p : Bytes) (nPad : Nat) : Bool :=
  (List.range nPad).all (fun i => p.getD i 0 = padChar) && tableValue table p nPad = -1

/-- `*pfInvalid` of `DecodeBase64`. -/
def invalid64 (s : DecodeState) (p : Bytes) : Bool :=
  match s.mode with
  | 1 => true
  | 2 => s.left ≠ 0 || !padded decode64_table p 2
  | 3 => s.left ≠ 0 || !padded decode64_table p 1
  | _ => false

/-- `*pfInvalid` of `DecodeBase32`. -/
def invalid32 (s : DecodeState) (p : Bytes) : Bool :=
  match s.mode with
  | 1 | 3 | 6 => true
  | 2 => s.left ≠ 0 || !padded decode32_table p 6
  | 4 => s.left ≠ 0 || !padded decode32_table p 4
  | 5 => s.left ≠ 0 || !padded decode32_table p 3
  | 7 => s.left ≠ 0 || !padded decode32_table p 1
  | _ => false

/-- The bytes, and `*pfInvalid`. -/
def decodeBase64 (p : Bytes) : Bytes × Bool :=
  let (s, p) := decodeLoop decode64_table decodeStep64 {} p
  (s.vchRet, invalid64 s p)

def decodeBase32 (p : Bytes) : Bytes × Bool :=
  let (s, p) := decodeLoop decode32_table decodeStep32 {} p
  (s.vchRet, invalid32 s p)

/-! ## Whole strings -/

/-- The characters that are asked for behind the last digit. -/
def padding64 : List Nat := [0, 0, 2, 1]

def padding32 : List Nat := [0, 0, 6, 0, 4, 3, 0, 1]

/-- The digits and the padding are all of the string. -/
def Consumes64 (p : Bytes) : Prop :=
  let (s, rest) := decodeLoop decode64_table decodeStep64 {} p
  rest.length = padding64.getD s.mode 0

def Consumes32 (p : Bytes) : Prop :=
  let (s, rest) := decodeLoop decode32_table decodeStep32 {} p
  rest.length = padding32.getD s.mode 0

open Regroup

/-! ## The encoders -/

/-- The bits that have no digit yet, in front of zeros. -/
def EncodeState.pending (s : EncodeState) : Nat := if s.mode = 0 then 0 else s.left

/-- The characters are digits of `q` bits. -/
structure EncodeState.Holds (alphabet : Bytes) (q : Nat) (v : Bytes) (s : EncodeState) (ds : List Nat) (pend : Nat) :
    Prop where
  strRet : s.strRet = ds.map (alphabet.getD · 0)
  packs : Packs 8 q (v.map UInt8.toNat) ds (8 * s.mode % q) pend
  pending : s.pending = pend <<< (q - 8 * s.mode % q)

section Encode

variable {alphabet : Bytes} {q r m n : Nat} {s s' : EncodeState} {v : Bytes} {ds : List Nat} {pend : Nat}

theorem Packs.take_byte (h : Packs 8 q (v.map UInt8.toNat) ds r pend) (c : UInt8) :
    Packs 8 q ((v ++ [c]).map UInt8.toNat) ds (r + 8) (pend * 2 ^ 8 + c.toNat) := by
  rw [List.map_append, List.map_singleton]
  exact h.take c.toNat_lt

/-- A byte that fills one character. -/
theorem EncodeState.Holds.one (h : s.Holds alphabet q v ds pend) (c : UInt8) (hs : s.mode = m) (hs' : s'.mode = n)
    (hr : 8 * n % q = r) (hsize : 8 * m % q + 8 = q + r) (hle : r ≤ 8)
    (hstr : s'.strRet = s.strRet ++ [alphabet.getD (s.pending ||| c.toNat >>> r) 0])
    (hpending : s'.pending = (c.toNat &&& (2 ^ r - 1)) <<< (q - r)) :
    ∃ ds pend, s'.Holds alphabet q (v ++ [c]) ds pend := by
  subst hs hs' hr
  have htaken := Packs.take_byte h.packs c
  rw [hsize] at htaken
  have hshift : 8 - 8 * s'.mode % q = q - 8 * s.mode % q := by omega
  refine ⟨_, _, ?_, htaken.emit, ?_⟩
  · rw [hstr, h.strRet, h.pending, List.map_append, List.map_singleton, ← hshift,
      shiftLeft_or_shiftRight pend c.toNat_lt hle]
  · rw [hpending, and_mask pend hle]

/-- A byte that fills two characters. -/
theorem EncodeState.Holds.two (h : s.Holds alphabet q v ds pend) (c : UInt8) (hs : s.mode = m) (hs' : s'.mode = n)
    (hr : 8 * n % q = r) (hsize : 8 * m % q + 8 = q + (q + r)) (hle : q + r ≤ 8)
    (hstr : s'.strRet = s.strRet ++ [alphabet.getD (s.pending ||| c.toNat >>> (q + r)) 0] ++
      [alphabet.getD (c.toNat >>> r &&& (2 ^ q - 1)) 0])
    (hpending : s'.pending = (c.toNat &&& (2 ^ r - 1)) <<< (q - r)) :
    ∃ ds pend, s'.Holds alphabet q (v ++ [c]) ds pend := by
  subst hs hs' hr
  have htaken := Packs.take_byte h.packs c
  rw [hsize] at htaken
  have hshift : 8 - (q + 8 * s'.mode % q) = q - 8 * s.mode % q := by omega
  refine ⟨_, _, ?_, htaken.emit.emit, ?_⟩
  · rw [hstr, h.strRet, h.pending, List.map_append, List.map_append, List.map_singleton, List.map_singleton, ← hshift,
      shiftLeft_or_shiftRight pend c.toNat_lt hle, shiftRight_and_mask pend hle]
  · rw [hpending, and_mask pend (Nat.le_of_add_left_le hle), pow_add, Nat.mod_mul_left_mod]

theorem encodeStep64_holds (hlt : s.mode < 3) (h : s.Holds pbase64 6 v ds pend) (c : UInt8) :
    (encodeStep64 s c).mode < 3 ∧ ∃ ds pend, (encodeStep64 s c).Holds pbase64 6 (v ++ [c]) ds pend := by
  obtain ⟨strRet, mode, left⟩ := s
  match mode, hlt with
  | 0, _ =>
      refine ⟨Nat.lt_of_sub_eq_succ rfl, h.one (m := 0) (n := 1) (r := 2) c rfl rfl rfl rfl (by decide) ?_ rfl⟩
      simp [encodeStep64, EncodeState.pending]
  | 1, _ => exact ⟨Nat.lt_of_sub_eq_succ rfl, h.one (m := 1) (n := 2) (r := 4) c rfl rfl rfl rfl (by decide) rfl rfl⟩
  | 2, _ =>
      refine ⟨Nat.lt_of_sub_eq_succ rfl, h.two (m := 2) (n := 0) (r := 0) c rfl rfl rfl rfl (by decide) rfl ?_⟩
      simp [encodeStep64, EncodeState.pending]

theorem encodeStep32_holds (hlt : s.mode < 5) (h : s.Holds pbase32 5 v ds pend) (c : UInt8) :
    (encodeStep32 s c).mode < 5 ∧ ∃ ds pend, (encodeStep32 s c).Holds pbase32 5 (v ++ [c]) ds pend := by
  obtain ⟨strRet, mode, left⟩ := s
  match mode, hlt with
  | 0, _ =>
      refine ⟨Nat.lt_of_sub_eq_succ rfl, h.one (m := 0) (n := 1) (r := 3) c rfl rfl rfl rfl (by decide) ?_ rfl⟩
      simp [encodeStep32, EncodeState.pending]
  | 1, _ => exact ⟨Nat.lt_of_sub_eq_succ rfl, h.two (m := 1) (n := 2) (r := 1) c rfl rfl rfl rfl (by decide) rfl rfl⟩
  | 2, _ => exact ⟨Nat.lt_of_sub_eq_succ rfl, h.one (m := 2) (n := 3) (r := 4) c rfl rfl rfl rfl (by decide) rfl rfl⟩
  | 3, _ => exact ⟨Nat.lt_of_sub_eq_succ rfl, h.two (m := 3) (n := 4) (r := 2) c rfl rfl rfl rfl (by decide) rfl rfl⟩
  | 4, _ =>
      refine ⟨Nat.lt_of_sub_eq_succ rfl, h.two (m := 4) (n := 0) (r := 0) c rfl rfl rfl rfl (by decide) rfl ?_⟩
      simp [encodeStep32, EncodeState.pending]

theorem foldl_encodeStep64 (v : Bytes) :
    (v.foldl encodeStep64 {}).mode < 3 ∧ ∃ ds pend, (v.foldl encodeStep64 {}).Holds pbase64 6 v ds pend := by
  induction v using List.reverseRecOn with
  | nil => exact ⟨by decide, [], 0, rfl, Packs.nil 8 6, rfl⟩
  | append_singleton v c ih =>
      obtain ⟨hlt, ds, pend, h⟩ := ih
      rw [List.foldl_append]
      exact encodeStep64_holds hlt h c

theorem foldl_encodeStep32 (v : Bytes) :
    (v.foldl encodeStep32 {}).mode < 5 ∧ ∃ ds pend, (v.foldl encodeStep32 {}).Holds pbase32 5 v ds pend := by
  induction v using List.reverseRecOn with
  | nil => exact ⟨by decide, [], 0, rfl, Packs.nil 8 5, rfl⟩
  | append_singleton v c ih =>
      obtain ⟨hlt, ds, pend, h⟩ := ih
      rw [List.foldl_append]
      exact encodeStep32_holds hlt h c

/-- The last character takes the bits that are pending. -/
theorem EncodeState.Holds.fill (h : s.Holds alphabet q v ds pend) (hs : s.mode = m) (hm : m ≠ 0) (hq : 0 < q) :
    ∃ ds, s.strRet ++ [alphabet.getD s.left 0] = ds.map (alphabet.getD · 0) ∧
      Pads 8 q (v.map UInt8.toNat) ds (q - 8 * m % q) := by
  subst hs
  have hleft := h.pending
  rw [EncodeState.pending, if_neg hm, Nat.shiftLeft_eq] at hleft
  refine ⟨_, ?_, h.packs.fill (Nat.le_of_lt (Nat.mod_lt _ hq))⟩
  rw [h.strRet, hleft, List.map_append, List.map_singleton]

end Encode

/-! ## The decoders -/

/-- The bits that belong to no byte yet. -/
def DecodeState.pending (s : DecodeState) : Nat := if s.mode = 0 then 0 else s.left

/-- The digits of `q` bits that were read are the bytes and the pending bits. -/
def DecodeState.Holds (q : Nat) (ds : List Nat) (s : DecodeState) : Prop :=
  Packs q 8 ds (s.vchRet.map UInt8.toNat) (q * s.mode % 8) s.pending

section Decode

variable {q r m n d : Nat} {s s' : DecodeState} {ds : List Nat}

/-- A digit that fills no byte. -/
theorem DecodeState.Holds.keep (h : s.Holds q ds) (hd : d < 2 ^ q) (hs : s.mode = m) (hs' : s'.mode = n)
    (hsize : q * m % 8 + q = q * n % 8) (hret : s'.vchRet = s.vchRet) (hpending : s'.pending = s.pending <<< q ||| d) :
    s'.Holds q (ds ++ [d]) := by
  subst hs hs'
  have htaken := h.take hd
  rw [hsize, ← shiftLeft_or _ hd, ← hpending, ← hret] at htaken
  exact htaken

/-- A digit that fills a byte. -/
theorem DecodeState.Holds.byte (h : s.Holds q ds) (hd : d < 2 ^ q) (hs : s.mode = m) (hs' : s'.mode = n)
    (hr : q * n % 8 = r) (hsize : q * m % 8 + q = 8 + r) (hle : r ≤ q)
    (hret : s'.vchRet = s.vchRet ++ [UInt8.ofNat (s.pending <<< (q - r) ||| d >>> r)])
    (hpending : s'.pending = d &&& (2 ^ r - 1)) : s'.Holds q (ds ++ [d]) := by
  subst hs hs' hr
  have htaken := h.take hd
  rw [hsize] at htaken
  have hemitted := htaken.emit
  rw [← shiftLeft_or_shiftRight _ hd hle, ← and_mask _ hle, ← hpending] at hemitted
  have hlt := hemitted.bound _ (List.mem_append_right _ List.mem_cons_self)
  have hbytes : s'.vchRet.map UInt8.toNat =
      s.vchRet.map UInt8.toNat ++ [s.pending <<< (q - q * s'.mode % 8) ||| d >>> (q * s'.mode % 8)] := by
    rw [hret, List.map_append, List.map_singleton, UInt8.toNat_ofNat', Nat.mod_eq_of_lt hlt]
  rwa [← hbytes] at hemitted

theorem decodeStep64_holds (hlt : s.mode < 4) (h : s.Holds 6 ds) (hd : d < 64) :
    (decodeStep64 s d).mode < 4 ∧ (decodeStep64 s d).Holds 6 (ds ++ [d]) := by
  obtain ⟨vchRet, mode, left⟩ := s
  match mode, hlt with
  | 0, _ =>
      refine ⟨Nat.lt_of_sub_eq_succ rfl, h.keep (m := 0) (n := 1) hd rfl rfl rfl rfl ?_⟩
      simp [decodeStep64, DecodeState.pending]
  | 1, _ => exact ⟨Nat.lt_of_sub_eq_succ rfl, h.byte (m := 1) (n := 2) (r := 4) hd rfl rfl rfl rfl (by decide) rfl rfl⟩
  | 2, _ => exact ⟨Nat.lt_of_sub_eq_succ rfl, h.byte (m := 2) (n := 3) (r := 2) hd rfl rfl rfl rfl (by decide) rfl rfl⟩
  | 3, _ =>
      refine ⟨Nat.lt_of_sub_eq_succ rfl, h.byte (m := 3) (n := 0) (r := 0) hd rfl rfl rfl rfl (by decide) rfl ?_⟩
      simp [decodeStep64, DecodeState.pending]

theorem decodeStep32_holds (hlt : s.mode < 8) (h : s.Holds 5 ds) (hd : d < 32) :
    (decodeStep32 s d).mode < 8 ∧ (decodeStep32 s d).Holds 5 (ds ++ [d]) := by
  obtain ⟨vchRet, mode, left⟩ := s
  match mode, hlt with
  | 0, _ =>
      refine ⟨Nat.lt_of_sub_eq_succ rfl, h.keep (m := 0) (n := 1) hd rfl rfl rfl rfl ?_⟩
      simp [decodeStep32, DecodeState.pending]
  | 1, _ => exact ⟨Nat.lt_of_sub_eq_succ rfl, h.byte (m := 1) (n := 2) (r := 2) hd rfl rfl rfl rfl (by decide) rfl rfl⟩
  | 2, _ => exact ⟨Nat.lt_of_sub_eq_succ rfl, h.keep (m := 2) (n := 3) hd rfl rfl rfl rfl rfl⟩
  | 3, _ => exact ⟨Nat.lt_of_sub_eq_succ rfl, h.byte (m := 3) (n := 4) (r := 4) hd rfl rfl rfl rfl (by decide) rfl rfl⟩
  | 4, _ => exact ⟨Nat.lt_of_sub_eq_succ rfl, h.byte (m := 4) (n := 5) (r := 1) hd rfl rfl rfl rfl (by decide) rfl rfl⟩
  | 5, _ => exact ⟨Nat.lt_of_sub_eq_succ rfl, h.keep (m := 5) (n := 6) hd rfl rfl rfl rfl rfl⟩
  | 6, _ => exact ⟨Nat.lt_of_sub_eq_succ rfl, h.byte (m := 6) (n := 7) (r := 3) hd rfl rfl rfl rfl (by decide) rfl rfl⟩
  | 7, _ =>
      refine ⟨Nat.lt_of_sub_eq_succ rfl, h.byte (m := 7) (n := 0) (r := 0) hd rfl rfl rfl rfl (by decide) rfl ?_⟩
      simp [decodeStep32, DecodeState.pending]

theorem foldl_decodeStep64 (hds : ∀ d ∈ ds, d < 64) :
    (ds.foldl decodeStep64 {}).mode < 4 ∧ (ds.foldl decodeStep64 {}).Holds 6 ds := by
  induction ds using List.reverseRecOn with
  | nil => exact ⟨by decide, Packs.nil 6 8⟩
  | append_singleton ds d ih =>
      obtain ⟨hlt, h⟩ := ih fun d' hd' => hds d' (List.mem_append_left _ hd')
      rw [List.foldl_append]
      exact decodeStep64_holds hlt h (hds d (List.mem_append_right _ List.mem_cons_self))

theorem foldl_decodeStep32 (hds : ∀ d ∈ ds, d < 32) :
    (ds.foldl decodeStep32 {}).mode < 8 ∧ (ds.foldl decodeStep32 {}).Holds 5 ds := by
  induction ds using List.reverseRecOn with
  | nil => exact ⟨by decide, Packs.nil 5 8⟩
  | append_singleton ds d ih =>
      obtain ⟨hlt, h⟩ := ih fun d' hd' => hds d' (List.mem_append_left _ hd')
      rw [List.foldl_append]
      exact decodeStep32_holds hlt h (hds d (List.mem_append_right _ List.mem_cons_self))

end Decode

/-! ## The loop and the end of a string -/

def inTable (table : List Int) (c : UInt8) : Bool := table.getD c.toNat (-1) ≠ -1

def digitIn (table : List Int) (c : UInt8) : Nat := (table.getD c.toNat (-1)).toNat

section Loop

variable {table : List Int} {step : DecodeState → Nat → DecodeState}

theorem decodeLoop_eq (s : DecodeState) (p : Bytes) :
    decodeLoop table step s p =
      (((p.takeWhile (inTable table)).map (digitIn table)).foldl step s, p.dropWhile (inTable table)) := by
  induction p generalizing s with
  | nil => rfl
  | cons c p ih =>
      have hvalue : tableValue table (c :: p) 0 = table.getD c.toNat (-1) := rfl
      rw [decodeLoop, hvalue]
      by_cases hc : inTable table c = true
      · rw [if_neg (by simpa [inTable] using hc), ih, List.takeWhile_cons_of_pos hc, List.dropWhile_cons_of_pos hc]
        rfl
      · rw [if_pos (by simpa [inTable] using hc), List.takeWhile_cons_of_neg hc, List.dropWhile_cons_of_neg hc]
        rfl

theorem tableValue_dropWhile (hend : table.getD 0 (-1) = -1) (p : Bytes) :
    tableValue table (p.dropWhile (inTable table)) 0 = -1 := by
  cases hrest : p.dropWhile (inTable table) with
  | nil => exact hend
  | cons c rest =>
      have hc := List.head_dropWhile_not (inTable table) (l := p) (by rw [hrest]; exact List.cons_ne_nil c rest)
      simp only [hrest, List.head_cons] at hc
      change table.getD c.toNat (-1) = -1
      simpa [inTable] using hc

theorem split_digits {cs rest : Bytes} (hcs : ∀ c ∈ cs, inTable table c = true)
    (hrest : ∀ c ∈ rest, inTable table c = false) :
    (cs ++ rest).takeWhile (inTable table) = cs ∧ (cs ++ rest).dropWhile (inTable table) = rest := by
  rw [List.takeWhile_append_of_pos hcs, List.dropWhile_append_of_pos hcs]
  cases rest with
  | nil => exact ⟨List.append_nil cs, rfl⟩
  | cons c rest =>
      have hc : ¬inTable table c = true := by simp [hrest c List.mem_cons_self]
      rw [List.takeWhile_cons_of_neg hc, List.dropWhile_cons_of_neg hc]
      exact ⟨List.append_nil cs, rfl⟩

theorem padded_iff (hend : table.getD 0 (-1) = -1) (p : Bytes) :
    padded table p p.length = true ↔ p = List.replicate p.length padChar := by
  have hlast : tableValue table p p.length = -1 := by
    rw [tableValue, List.getD_eq_default _ _ (Nat.le_refl _)]
    exact hend
  rw [padded, hlast, List.eq_replicate_iff]
  simp only [decide_true, Bool.and_true, List.all_eq_true, List.mem_range, decide_eq_true_eq, true_and]
  constructor
  · intro h c hc
    obtain ⟨i, hi, rfl⟩ := List.getElem_of_mem hc
    rw [← List.getD_eq_getElem p 0 hi]
    exact h i hi
  · intro h i hi
    rw [List.getD_eq_getElem p 0 hi]
    exact h _ (List.getElem_mem hi)

end Loop

/-! ## Codecs -/

/-- What the two codecs are made of; a valid string ends in one of the modes in `ends`. -/
structure BaseCodec where
  alphabet : Bytes
  table : List Int
  bits : Nat
  encode : Bytes → Bytes
  step : DecodeState → Nat → DecodeState
  invalid : DecodeState → Bytes → Bool
  padding : List Nat
  ends : List Nat

namespace BaseCodec

def decode (b : BaseCodec) (p : Bytes) : Bytes × Bool :=
  let (s, p) := decodeLoop b.table b.step {} p
  (s.vchRet, b.invalid s p)

def Consumes (b : BaseCodec) (p : Bytes) : Prop :=
  let (s, rest) := decodeLoop b.table b.step {} p
  rest.length = b.padding.getD s.mode 0

def char (b : BaseCodec) (i : Nat) : UInt8 := b.alphabet.getD i 0

/-- What the parts have to do with one another; characters that `fold` takes to the same are the same digit. -/
structure Lawful (b : BaseCodec) (fold : UInt8 → UInt8) : Prop where
  bits_pos : 0 < b.bits
  digit_char : ∀ i < 2 ^ b.bits, inTable b.table (b.char i) = true ∧ digitIn b.table (b.char i) = i
  char_digit : ∀ c, inTable b.table c = true → digitIn b.table c < 2 ^ b.bits ∧ b.char (digitIn b.table c) = fold c
  pad : inTable b.table padChar = false ∧ fold padChar = padChar
  terminator : b.table.getD 0 (-1) = -1
  ends_lt : ∀ k ∈ b.ends, b.bits * k % 8 < b.bits
  ends_eq : ∀ m < b.padding.length, ∀ k ∈ b.ends, b.bits * m % 8 = b.bits * k % 8 → m = k
  encodes : ∀ v, ∃ ds, ∃ k ∈ b.ends,
    b.encode v = ds.map b.char ++ List.replicate (b.padding.getD k 0) padChar ∧
      Pads 8 b.bits (v.map UInt8.toNat) ds (b.bits * k % 8)
  decodes : ∀ ds : List Nat, (∀ d ∈ ds, d < 2 ^ b.bits) →
    (ds.foldl b.step {}).mode < b.padding.length ∧ (ds.foldl b.step {}).Holds b.bits ds
  valid_iff : ∀ s p, s.mode < b.padding.length → tableValue b.table p 0 = -1 →
    (b.invalid s p = false ↔ s.mode ∈ b.ends ∧ s.pending = 0 ∧ padded b.table p (b.padding.getD s.mode 0) = true)

variable {b : BaseCodec} {fold : UInt8 → UInt8}

theorem map_toNat_injective : Function.Injective (List.map UInt8.toNat) :=
  List.map_injective_iff.2 fun _ _ h => UInt8.toNat_inj.1 h

theorem Lawful.decode_encode (h : b.Lawful fold) (v : Bytes) : b.decode (b.encode v) = (v, false) := by
  obtain ⟨ds, k, hk, hencode, hpads⟩ := h.encodes v
  have hin : ∀ c ∈ ds.map b.char, inTable b.table c = true := by
    intro c hc
    obtain ⟨d, hd, rfl⟩ := List.mem_map.1 hc
    exact (h.digit_char d (hpads.bound d hd)).1
  have hout : ∀ c ∈ List.replicate (b.padding.getD k 0) padChar, inTable b.table c = false := by
    intro c hc
    rw [List.eq_of_mem_replicate hc]
    exact h.pad.1
  have hdigits : (ds.map b.char).map (digitIn b.table) = ds := by
    rw [List.map_map]
    exact (List.map_congr_left fun d hd => (h.digit_char d (hpads.bound d hd)).2).trans (List.map_id ds)
  obtain ⟨htake, hdrop⟩ := split_digits hin hout
  obtain ⟨hlt, hholds⟩ := h.decodes ds hpads.bound
  have hbytes : ∀ d ∈ v.map UInt8.toNat, d < 2 ^ 8 := by
    intro d hd
    obtain ⟨c, _, rfl⟩ := List.mem_map.1 hd
    exact c.toNat_lt
  obtain ⟨hvalue, hmode, hpending⟩ := hpads.unpack hholds (by decide) hbytes (Nat.mod_lt _ (by decide))
    (Nat.mod_lt _ (by decide))
  have hk' := h.ends_eq _ hlt k hk hmode
  have hstart := tableValue_dropWhile h.terminator (b.encode v)
  rw [hencode, hdrop] at hstart
  have hpadded := (padded_iff h.terminator (List.replicate (b.padding.getD k 0) padChar)).2 (by simp)
  rw [List.length_replicate] at hpadded
  rw [decode, decodeLoop_eq, hencode, htake, hdrop, hdigits]
  refine Prod.ext (map_toNat_injective hvalue) ((h.valid_iff _ _ hlt hstart).2 ⟨?_, hpending, ?_⟩)
  · rwa [hk']
  · rwa [hk']

theorem Lawful.encode_decode (h : b.Lawful fold) {p : Bytes} (hall : b.Consumes p) (hvalid : (b.decode p).2 = false) :
    b.encode (b.decode p).1 = p.map fold := by
  rw [Consumes, decodeLoop_eq] at hall
  rw [decode, decodeLoop_eq] at hvalid ⊢
  dsimp only at hall hvalid ⊢
  have hcs : ∀ c ∈ p.takeWhile (inTable b.table), inTable b.table c = true := fun c hc => List.mem_takeWhile_imp hc
  have hstart := tableValue_dropWhile h.terminator p
  have hsplit : p.takeWhile (inTable b.table) ++ p.dropWhile (inTable b.table) = p := List.takeWhile_append_dropWhile
  generalize p.takeWhile (inTable b.table) = cs at *
  generalize p.dropWhile (inTable b.table) = rest at *
  subst hsplit
  have hds : ∀ d ∈ cs.map (digitIn b.table), d < 2 ^ b.bits := by
    intro d hd
    obtain ⟨c, hc, rfl⟩ := List.mem_map.1 hd
    exact (h.char_digit c (hcs c hc)).1
  have hchars : (cs.map (digitIn b.table)).map b.char = cs.map fold := by
    rw [List.map_map]
    exact List.map_congr_left fun c hc => (h.char_digit c (hcs c hc)).2
  obtain ⟨hlt, hholds⟩ := h.decodes _ hds
  generalize (cs.map (digitIn b.table)).foldl b.step {} = s at *
  obtain ⟨hend, hpending, hpadded⟩ := (h.valid_iff s rest hlt hstart).1 hvalid
  rw [← hall, padded_iff h.terminator] at hpadded
  obtain ⟨ds, k, hk, hencode, hpads⟩ := h.encodes s.vchRet
  rw [DecodeState.Holds, hpending] at hholds
  obtain ⟨hsame, hmode⟩ := hpads.unique hholds h.bits_pos hds (h.ends_lt k hk) (h.ends_lt _ hend)
  have hk' := h.ends_eq _ hlt k hk hmode.symm
  have hrest : rest.map fold = rest := by
    rw [hpadded, List.map_replicate, h.pad.2]
  rw [hencode, hsame, hchars, ← hk', ← hall, ← hpadded, List.map_append, hrest]

end BaseCodec

/-! ## Base64 and Base32 -/

def codec64 : BaseCodec where
  alphabet := pbase64
  table := decode64_table
  bits := 6
  encode := encodeBase64
  step := decodeStep64
  invalid := invalid64
  padding := padding64
  ends := [0, 2, 3]

def codec32 : BaseCodec where
  alphabet := pbase32
  table := decode32_table
  bits := 5
  encode := encodeBase32
  step := decodeStep32
  invalid := invalid32
  padding := padding32
  ends := [0, 2, 4, 5, 7]

theorem forall_byte {P : UInt8 → Prop} (h : ∀ n < 256, P (UInt8.ofNat n)) (c : UInt8) : P c := by
  have hc := h c.toNat c.toNat_lt
  rwa [UInt8.ofNat_toNat] at hc

theorem encodeBase64_pads (v : Bytes) : ∃ ds, ∃ k ∈ codec64.ends,
    encodeBase64 v = ds.map codec64.char ++ List.replicate (padding64.getD k 0) padChar ∧
      Pads 8 6 (v.map UInt8.toNat) ds (6 * k % 8) := by
  obtain ⟨hlt, ds, pend, h⟩ := foldl_encodeStep64 v
  rw [encodeBase64]
  generalize v.foldl encodeStep64 {} = s at hlt h
  obtain ⟨strRet, mode, left⟩ := s
  match mode, hlt with
  | 0, _ => exact ⟨ds, 0, by decide, h.strRet.trans (List.append_nil _).symm, Packs.pads h.packs⟩
  | 1, _ =>
      obtain ⟨ds, hstr, hpads⟩ := h.fill (m := 1) rfl (by decide) (by decide)
      exact ⟨ds, 2, by decide, (List.append_assoc _ _ _).trans (congrArg (· ++ [padChar, padChar]) hstr), hpads⟩
  | 2, _ =>
      obtain ⟨ds, hstr, hpads⟩ := h.fill (m := 2) rfl (by decide) (by decide)
      exact ⟨ds, 3, by decide, (List.append_nil _).trans (congrArg (· ++ [padChar]) hstr), hpads⟩

theorem encodeBase32_pads (v : Bytes) : ∃ ds, ∃ k ∈ codec32.ends,
    encodeBase32 v = ds.map codec32.char ++ List.replicate (padding32.getD k 0) padChar ∧
      Pads 8 5 (v.map UInt8.toNat) ds (5 * k % 8) := by
  obtain ⟨hlt, ds, pend, h⟩ := foldl_encodeStep32 v
  rw [encodeBase32]
  generalize v.foldl encodeStep32 {} = s at hlt h
  obtain ⟨strRet, mode, left⟩ := s
  match mode, hlt with
  | 0, _ => exact ⟨ds, 0, by decide, h.strRet.trans (List.append_nil _).symm, Packs.pads h.packs⟩
  | 1, _ =>
      obtain ⟨ds, hstr, hpads⟩ := h.fill (m := 1) rfl (by decide) (by decide)
      exact ⟨ds, 2, by decide, congrArg (· ++ List.replicate 6 padChar) hstr, hpads⟩
  | 2, _ =>
      obtain ⟨ds, hstr, hpads⟩ := h.fill (m := 2) rfl (by decide) (by decide)
      exact ⟨ds, 4, by decide, congrArg (· ++ List.replicate 4 padChar) hstr, hpads⟩
  | 3, _ =>
      obtain ⟨ds, hstr, hpads⟩ := h.fill (m := 3) rfl (by decide) (by decide)
      exact ⟨ds, 5, by decide, congrArg (· ++ List.replicate 3 padChar) hstr, hpads⟩
  | 4, _ =>
      obtain ⟨ds, hstr, hpads⟩ := h.fill (m := 4) rfl (by decide) (by decide)
      exact ⟨ds, 7, by decide, congrArg (· ++ List.replicate 1 padChar) hstr, hpads⟩

theorem invalid64_iff (s : DecodeState) (p : Bytes) (hlt : s.mode < 4) (hstart : tableValue decode64_table p 0 = -1) :
    invalid64 s p = false ↔ s.mode ∈ codec64.ends ∧ s.pending = 0 ∧
      padded decode64_table p (padding64.getD s.mode 0) = true := by
  obtain ⟨vchRet, mode, left⟩ := s
  match mode, hlt with
  | 0, _ => simp [invalid64, DecodeState.pending, codec64, padding64, padded, hstart]
  | 1, _ => simp [invalid64, codec64]
  | 2, _ => simp [invalid64, DecodeState.pending, codec64, padding64]
  | 3, _ => simp [invalid64, DecodeState.pending, codec64, padding64]

theorem invalid32_iff (s : DecodeState) (p : Bytes) (hlt : s.mode < 8) (hstart : tableValue decode32_table p 0 = -1) :
    invalid32 s p = false ↔ s.mode ∈ codec32.ends ∧ s.pending = 0 ∧
      padded decode32_table p (padding32.getD s.mode 0) = true := by
  obtain ⟨vchRet, mode, left⟩ := s
  match mode, hlt with
  | 0, _ => simp [invalid32, DecodeState.pending, codec32, padding32, padded, hstart]
  | 1, _ | 3, _ | 6, _ => simp [invalid32, codec32]
  | 2, _ | 4, _ | 5, _ | 7, _ => simp [invalid32, DecodeState.pending, codec32, padding32]

theorem lawful64 : codec64.Lawful id where
  bits_pos := by decide
  digit_char := by decide +kernel
  char_digit := forall_byte (by decide +kernel)
  pad := by decide
  terminator := rfl
  ends_lt := by decide
  ends_eq := by decide
  encodes := encodeBase64_pads
  decodes := fun _ => foldl_decodeStep64
  valid_iff := invalid64_iff

theorem lawful32 : codec32.Lawful KeyPath.tolower where
  bits_pos := by decide
  digit_char := by decide +kernel
  char_digit := forall_byte (by decide +kernel)
  pad := by decide
  terminator := rfl
  ends_lt := by decide
  ends_eq := by decide
  encodes := encodeBase32_pads
  decodes := fun _ => foldl_decodeStep32
  valid_iff := invalid32_iff

/-- What is encoded comes back, and a string that is decoded as a whole is the one that its bytes are encoded to, up to
the case of letters in Base32. -/
theorem base64_base32_roundTrip :
    (∀ v, decodeBase64 (encodeBase64 v) = (v, false)) ∧ (∀ v, decodeBase32 (encodeBase32 v) = (v, false)) ∧
      (∀ s, Consumes64 s → (decodeBase64 s).2 = false → encodeBase64 (decodeBase64 s).1 = s) ∧
        ∀ s, Consumes32 s → (decodeBase32 s).2 = false →
          encodeBase32 (decodeBase32 s).1 = s.map KeyPath.tolower := by
  refine ⟨lawful64.decode_encode, lawful32.decode_encode, fun s hall hvalid => ?_, fun s hall hvalid => ?_⟩
  · exact (lawful64.encode_decode hall hvalid).trans (List.map_id s)
  · exact lawful32.encode_decode hall hvalid

end ProCurrency
