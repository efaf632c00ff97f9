import Mathlib.Data.FinEnum
import Mathlib.Data.List.GetD
import ProCurrency.Encoding.Base58
import ProCurrency.Hd.StoredKey

/-!
# Key paths

`ExtractExtKeyPath` and `PathToString` (extkey.cpp), with `strtou32max` and `validDigit`. A string of C ends where its
first zero byte is.
-/

namespace ProCurrency

namespace KeyPath

/-- `'/'`. -/
def slash : UInt8 := 47

def tolower (c : UInt8) : UInt8 := if 65 ≤ c.toNat ∧ c.toNat ≤ 90 then c + 32 else c

/-- The value that `strtou32max` takes a character for. -/
def digitOf (c : UInt8) : Option Nat :=
  if 48 ≤ c.toNat ∧ c.toNat ≤ 57 then some (c.toNat - 48)
  else if 65 ≤ c.toNat ∧ c.toNat ≤ 90 then some (c.toNat - 55)
  else if 97 ≤ c.toNat ∧ c.toNat ≤ 122 then some (c.toNat - 87)
  else none

def isHexDigit (c : UInt8) : Bool :=
  (48 ≤ c.toNat && c.toNat ≤ 57) || (97 ≤ c.toNat && c.toNat ≤ 102) || (65 ≤ c.toNat && c.toNat ≤ 70)

def UINT32_MAX : Nat := 0xffffffff

/-- The loop of `strtou32max`, with `acc` and `any`. -/
def accumulate (base : Nat) (acc : Nat) (any : Int) : Bytes → Nat × Int
  | [] => (acc, any)
  | c :: s =>
      match digitOf c with
      | none => (acc, any)
      | some d =>
          if base ≤ d then (acc, any)
          else if any < 0 ∨ UINT32_MAX / base < acc ∨ acc = UINT32_MAX / base ∧ UINT32_MAX % base < d then
            accumulate base acc (-1) s
          else accumulate base (acc * base + d) 1 s

/-- `neg`, and what follows the sign. -/
def takeSign (s : Bytes) : Bool × Bytes :=
  if s.getD 0 0 = 45 then (true, s.drop 1) else if s.getD 0 0 = 43 then (false, s.drop 1) else (false, s)

/-- `base`, and what follows `0x`. -/
def takePrefix (base : Nat) (s : Bytes) : Nat × Bytes :=
  if (base = 0 ∨ base = 16) ∧ s.getD 0 0 = 48 ∧ (s.getD 1 0 = 120 ∨ s.getD 1 0 = 88) ∧
      isHexDigit (s.getD 2 0) = true then (16, s.drop 2)
  else (base, s)

/-- `strtou32max`; `none` when it sets `errno`. -/
def strtou32max (nptr : Bytes) (base : Nat) : Option UInt32 :=
  match takeSign (nptr.dropWhile isspace) with
  | (neg, s) =>
      match takePrefix base s with
      | (base, s) =>
          let base := if base = 0 then (if s.getD 0 0 = 48 then 8 else 10) else base
          if base < 2 ∨ 36 < base then none
          else
            match accumulate base 0 0 s with
            | (acc, any) =>
                if any < 0 then none
                else if any = 0 then none
                else some (if neg then -UInt32.ofNat acc else UInt32.ofNat acc)

def validDigit (c : UInt8) (base : Nat) : Bool :=
  match base with
  | 2 => c = 48 || c = 49
  | 10 => 48 ≤ c.toNat && c.toNat ≤ 57
  | 16 => isHexDigit c
  | _ => false

/-- `nBase`, and the text behind `0b` or `0x`. -/
def splitBase (p : Bytes) : Nat × Bytes :=
  if p.head? = some 48 ∧ (p.getD 1 0 = 98 ∨ p.getD 1 0 = 66) then (2, p.drop 2)
  else if p.head? = some 48 ∧ (p.getD 1 0 = 120 ∨ p.getD 1 0 = 88) then (16, p.drop 2)
  else (10, p)

def isMarker (c : UInt8) : Bool := tolower c = 104 || c = 39

/-- The loop over the characters: the digits, and `fHarden`; `none` where it finds another character. -/
def scanDigits (nBase : Nat) : Bytes → Option (Bytes × Bool)
  | [] => some ([], false)
  | c :: p =>
      if p = [] ∧ isMarker c = true then some ([], true)
      else if !validDigit c nBase then none
      else (scanDigits nBase p).map fun (digits, fHarden) => (c :: digits, fHarden)

/-- `nChild` of a component, or the error. -/
def parseChild (p : Bytes) : Except Nat UInt32 :=
  if tolower (p.getD 0 0) = 109 then .ok 0
  else
    match splitBase p with
    | (nBase, ps) =>
        match scanDigits nBase ps with
        | none => .error 4
        | some (digits, fHarden) =>
            match strtou32max digits nBase with
            | none => .error 5
            | some nChild =>
                if fHarden then
                  if nChild >>> 31 = 0 then .ok (hardenedChild nChild) else .error 8
                else .ok nChild

/-- What the calls of `strtok` give, one after the other. -/
def strtok (data : Bytes) : List Bytes := ((data.takeWhile (· ≠ 0)).splitOn slash).filter (· ≠ [])

/-- The loop over the components. -/
def parseTokens (vPath : List UInt32) : List Bytes → Except Nat (List UInt32)
  | [] => .ok vPath
  | p :: tokens =>
      match parseChild p with
      | .error rv => .error rv
      | .ok nChild =>
          let vPath := vPath ++ [nChild]
          if nChild = 0 ∧ vPath.length ≠ 1 ∧ tokens ≠ [] then .error 6 else parseTokens vPath tokens

/-- A slash at either end, or one after another. -/
def slashesFrom (k : Nat) : Bytes → Bool
  | [] => false
  | c :: s => (c = slash && (k = 0 || s = [] || s.head? = some slash)) || slashesFrom (k + 1) s

/-- `ExtractExtKeyPath`: `vPath`, or the error. -/
def extractExtKeyPath (sPath : Bytes) : Except Nat (List UInt32) :=
  if 512 - 2 < sPath.length then .error 2
  else if sPath.length < 1 then .error 3
  else if slashesFrom 0 sPath then .error 7
  else
    match parseTokens [] (strtok sPath) with
    | .error rv => .error rv
    | .ok vPath => if vPath.length < 1 then .error 3 else .ok vPath

/-! ## Printing -/

/-- `%u`. -/
def decimal (n : Nat) : Bytes := if n = 0 then [48] else (Radix.beDigits 10 n).map fun d => UInt8.ofNat (48 + d)

/-- A child as it is printed, with the marker `cH`. -/
def childText (cH : UInt8) (n : UInt32) : Bytes :=
  if n >>> 31 = 1 then decimal (n &&& ~~~((1 : UInt32) <<< 31)).toNat ++ [cH] else decimal n.toNat

/-- The 32-bit numbers in `vPath`, the least significant byte first. -/
def children : Bytes → List UInt32
  | b₀ :: b₁ :: b₂ :: b₃ :: vPath => UInt32.ofNat (ByteCodec.ofLeBytes [b₀, b₁, b₂, b₃]) :: children vPath
  | _ => []

def pathToString (vPath : Bytes) (cH : UInt8) : Except Nat Bytes :=
  if vPath.length % 4 ≠ 0 then .error 1
  else .ok ((children vPath).foldl (fun sPath n => sPath ++ [slash] ++ childText cH n) [109])

/-- The numbers as the bytes of a path. -/
def pack (v : List UInt32) : Bytes := v.flatMap fun n => ByteCodec.leBytes 4 n.toNat

/-!
## The components of a key path

A component is read exactly: its digits as a number of 32 bits, or of 31 bits with the marker.
-/

open ByteCodec

/-! ## Numbers -/

section Numbers

variable {base : Nat} {c : UInt8} {s digits : Bytes}

theorem range_of_validDigit (h : validDigit c base = true) :
    (48 ≤ c.toNat ∧ c.toNat ≤ 57) ∨ (97 ≤ c.toNat ∧ c.toNat ≤ 102) ∨ 65 ≤ c.toNat ∧ c.toNat ≤ 70 := by
  unfold validDigit at h
  split at h
  · rcases Bool.or_eq_true_iff.mp h with h | h
    · rw [of_decide_eq_true h]
      decide
    · rw [of_decide_eq_true h]
      decide
  · simp only [Bool.and_eq_true, decide_eq_true_eq] at h
    exact Or.inl h
  · simp only [isHexDigit, Bool.or_eq_true, Bool.and_eq_true, decide_eq_true_eq] at h
    rcases h with (h | h) | h
    · exact Or.inl h
    · exact Or.inr (Or.inl h)
    · exact Or.inr (Or.inr h)
  · cases h

/-- The value of a character. -/
def digitValue (c : UInt8) : Nat := (digitOf c).getD 0

theorem digitOf_of_validDigit (h : validDigit c base = true) : digitOf c = some (digitValue c) ∧ digitValue c < base := by
  have hrange := range_of_validDigit h
  have hsome : digitOf c = some (digitValue c) := by
    rw [digitValue, digitOf]
    split_ifs with h₁ h₂ h₃
    · rfl
    · rfl
    · rfl
    · omega
  refine ⟨hsome, ?_⟩
  rw [digitValue, digitOf]
  unfold validDigit at h
  split at h
  · rcases Bool.or_eq_true_iff.mp h with h | h
    · rw [of_decide_eq_true h]
      decide
    · rw [of_decide_eq_true h]
      decide
  · simp only [Bool.and_eq_true, decide_eq_true_eq] at h
    rw [if_pos h, Option.getD_some]
    omega
  · split_ifs with h₁ h₂ h₃
    · rw [Option.getD_some]
      omega
    · rw [Option.getD_some]
      omega
    · rw [Option.getD_some]
      omega
    · omega
  · cases h

/-- A number goes on with the digits that follow. -/
def valueFrom (base acc : Nat) (digits : Bytes) : Nat := digits.foldl (fun n c => n * base + digitValue c) acc

theorem le_valueFrom (hbase : 0 < base) (acc : Nat) (digits : Bytes) : acc ≤ valueFrom base acc digits := by
  induction digits generalizing acc with
  | nil => exact Nat.le_refl acc
  | cons c digits ih =>
      refine Nat.le_trans ?_ (ih (acc * base + digitValue c))
      exact Nat.le_trans (Nat.le_mul_of_pos_right acc hbase) (Nat.le_add_right _ _)

theorem accumulate_overflown (acc : Nat) (hvalid : ∀ c ∈ digits, validDigit c base = true) :
    (accumulate base acc (-1) digits).2 = -1 := by
  induction digits with
  | nil => rfl
  | cons c digits ih =>
      obtain ⟨hdigit, hlt⟩ := digitOf_of_validDigit (hvalid c List.mem_cons_self)
      rw [accumulate, hdigit]
      dsimp only
      rw [if_neg (Nat.not_le.mpr hlt), if_pos (Or.inl (by decide))]
      exact ih fun c' hc' => hvalid c' (List.mem_cons_of_mem _ hc')

/-- The test of `strtou32max` is exact. -/
theorem overflows_iff {acc d : Nat} (hd : d < base) :
    (UINT32_MAX / base < acc ∨ acc = UINT32_MAX / base ∧ UINT32_MAX % base < d) ↔ UINT32_MAX < acc * base + d := by
  have hdivmod := Nat.div_add_mod' UINT32_MAX base
  have hmod := Nat.mod_lt UINT32_MAX (Nat.zero_lt_of_lt hd)
  constructor
  · rintro (hlt | ⟨heq, hlt⟩)
    · have hmul : (UINT32_MAX / base + 1) * base ≤ acc * base := Nat.mul_le_mul_right base hlt
      rw [Nat.add_mul, Nat.one_mul] at hmul
      omega
    · rw [heq]
      omega
  · intro hover
    rcases Nat.lt_trichotomy acc (UINT32_MAX / base) with hlt | heq | hgt
    · have hmul : (acc + 1) * base ≤ UINT32_MAX / base * base := Nat.mul_le_mul_right base hlt
      rw [Nat.add_mul, Nat.one_mul] at hmul
      omega
    · refine Or.inr ⟨heq, ?_⟩
      rw [heq] at hover
      omega
    · exact Or.inl hgt

theorem accumulate_spec (acc : Nat) (any : Int) (hany : ¬any < 0) (hacc : acc ≤ UINT32_MAX)
    (hvalid : ∀ c ∈ digits, validDigit c base = true) :
    if valueFrom base acc digits ≤ UINT32_MAX then
      accumulate base acc any digits = (valueFrom base acc digits, if digits = [] then any else 1)
    else (accumulate base acc any digits).2 = -1 := by
  induction digits generalizing acc any with
  | nil =>
      rw [valueFrom, List.foldl_nil, if_pos hacc, if_pos rfl]
      rfl
  | cons c digits ih =>
      obtain ⟨hdigit, hlt⟩ := digitOf_of_validDigit (hvalid c List.mem_cons_self)
      have hrest : ∀ c' ∈ digits, validDigit c' base = true := fun c' hc' => hvalid c' (List.mem_cons_of_mem _ hc')
      have hvalue : valueFrom base acc (c :: digits) = valueFrom base (acc * base + digitValue c) digits := rfl
      rw [hvalue, accumulate, hdigit]
      dsimp only
      rw [if_neg (Nat.not_le.mpr hlt), if_neg (List.cons_ne_nil c digits)]
      simp only [hany, false_or, overflows_iff hlt]
      by_cases hover : UINT32_MAX < acc * base + digitValue c
      · have hlarge := le_valueFrom (Nat.zero_lt_of_lt hlt) (acc * base + digitValue c) digits
        rw [if_pos hover, if_neg (Nat.not_le.mpr (Nat.lt_of_lt_of_le hover hlarge))]
        exact accumulate_overflown acc hrest
      · have hnext := ih _ 1 (by decide) (Nat.le_of_not_lt hover) hrest
        rw [if_neg hover]
        split at hnext
        · rename_i hfits
          rw [if_pos hfits, hnext]
          split
          · rfl
          · rfl
        · rename_i hfits
          rw [if_neg hfits]
          exact hnext

theorem strtou32max_spec (hbase : base = 2 ∨ base = 10 ∨ base = 16)
    (hvalid : ∀ c ∈ digits, validDigit c base = true) : strtou32max digits base =
      if digits ≠ [] ∧ valueFrom base 0 digits ≤ UINT32_MAX then some (UInt32.ofNat (valueFrom base 0 digits))
      else none := by
  have hrange (c : UInt8) (hc : c ∈ digits) := range_of_validDigit (hvalid c hc)
  have hhead (i : Nat) : digits.getD i 0 = 0 ∨ digits.getD i 0 ∈ digits := by
    rcases Nat.lt_or_ge i digits.length with hi | hi
    · rw [List.getD_eq_getElem digits 0 hi]
      exact Or.inr (List.getElem_mem hi)
    · exact Or.inl (List.getD_eq_default digits 0 hi)
  have hne (i : Nat) (c : UInt8) (hc : ¬((48 ≤ c.toNat ∧ c.toNat ≤ 57) ∨ (97 ≤ c.toNat ∧ c.toNat ≤ 102) ∨
      65 ≤ c.toNat ∧ c.toNat ≤ 70)) (hc0 : c ≠ 0) : digits.getD i 0 ≠ c := by
    rintro rfl
    exact (hhead i).elim hc0 fun hmem => hc (hrange _ hmem)
  have hspace : digits.dropWhile isspace = digits := by
    cases digits with
    | nil => rfl
    | cons c digits =>
        have hc := hrange c List.mem_cons_self
        refine List.dropWhile_cons_of_neg ?_
        rw [isspace]
        simp only [Bool.or_eq_true, Bool.and_eq_true, decide_eq_true_eq, UInt8.le_iff_toNat_le, ← UInt8.toNat_inj]
        simp
        omega
  have hsign : takeSign digits = (false, digits) := by
    rw [takeSign, if_neg (hne 0 45 (by decide) (by decide)), if_neg (hne 0 43 (by decide) (by decide))]
  have hbased : takePrefix base digits = (base, digits) := by
    refine if_neg ?_
    rintro ⟨-, -, hx | hx, -⟩
    · exact hne 1 120 (by decide) (by decide) hx
    · exact hne 1 88 (by decide) (by decide) hx
  have hspec := accumulate_spec 0 0 (by decide) (Nat.zero_le _) hvalid
  rw [strtou32max, hspace, hsign]
  dsimp only
  rw [hbased]
  dsimp only
  rw [if_neg (show ¬base = 0 by omega), if_neg (show ¬(base < 2 ∨ 36 < base) by omega)]
  by_cases hfits : valueFrom base 0 digits ≤ UINT32_MAX
  · rw [if_pos hfits] at hspec
    rw [hspec]
    by_cases hnil : digits = []
    · simp [hnil]
    · simp [hnil, hfits]
  · rw [if_neg hfits] at hspec
    rcases haccumulate : accumulate base 0 0 digits with ⟨acc, any⟩
    rw [haccumulate] at hspec
    dsimp only at hspec ⊢
    rw [hspec, if_pos (by decide), if_neg fun h => hfits h.2]

end Numbers

/-! ## Components -/

section Components

variable {base : Nat} {c : UInt8} {comp text : Bytes}

/-- `m` or `M` in front. -/
def StartsM (comp : Bytes) : Prop := comp.head? = some 109 ∨ comp.head? = some 77

instance (comp : Bytes) : Decidable (StartsM comp) :=
  inferInstanceAs (Decidable (comp.head? = some 109 ∨ comp.head? = some 77))

/-- The text before a marker at the end. -/
def splitMarker (text : Bytes) : Bytes × Bool :=
  if text.getLast?.any isMarker then (text.dropLast, true) else (text, false)

/-- The number that a component says, bit 31 set where it is hardened; `none` where it says none. -/
def componentValue (comp : Bytes) : Option Nat :=
  if StartsM comp then some 0
  else
    let (base, text) := splitBase comp
    let (digits, fHarden) := splitMarker text
    if digits ≠ [] ∧ (∀ c ∈ digits, validDigit c base = true) ∧
        valueFrom base 0 digits < (if fHarden then 2 ^ 31 else 2 ^ 32) then
      some (valueFrom base 0 digits + if fHarden then 2 ^ 31 else 0)
    else none

theorem tolower_eq_iff {d : UInt8} (hd : 97 ≤ d.toNat ∧ d.toNat ≤ 122) :
    tolower c = d ↔ c = d ∨ c + 32 = d ∧ c.toNat ≤ 90 := by
  have hc := c.toNat_lt
  rw [tolower]
  split
  · rename_i hupper
    simp only [← UInt8.toNat_inj, UInt8.toNat_add]
    simp
    omega
  · rename_i hupper
    simp only [← UInt8.toNat_inj, UInt8.toNat_add]
    simp
    omega

theorem tolower_head_iff : tolower (comp.getD 0 0) = 109 ↔ StartsM comp := by
  cases comp with
  | nil =>
      rw [StartsM]
      decide
  | cons c comp =>
      rw [StartsM, List.getD_cons_zero, List.head?_cons, Option.some.injEq, Option.some.injEq, tolower_eq_iff (by decide)]
      refine or_congr_right ?_
      simp only [← UInt8.toNat_inj, UInt8.toNat_add]
      simp
      omega

theorem isMarker_iff : isMarker c = true ↔ c = 104 ∨ c = 72 ∨ c = 39 := by
  rw [isMarker, Bool.or_eq_true, decide_eq_true_eq, decide_eq_true_eq, tolower_eq_iff (by decide), or_assoc]
  refine or_congr_right (or_congr_left ?_)
  simp only [← UInt8.toNat_inj, UInt8.toNat_add]
  simp
  omega

theorem splitMarker_cons {c' : UInt8} : splitMarker (c :: c' :: text) =
    (c :: (splitMarker (c' :: text)).1, (splitMarker (c' :: text)).2) := by
  rw [splitMarker, splitMarker, List.getLast?_cons_cons]
  split
  · rfl
  · rfl

/-- The loop over the characters checks the digits before the marker. -/
theorem scanDigits_eq (nBase : Nat) (text : Bytes) : scanDigits nBase text =
    if ∀ c ∈ (splitMarker text).1, validDigit c nBase = true then some (splitMarker text) else none := by
  induction text with
  | nil => exact (if_pos fun c hc => absurd hc List.not_mem_nil).symm
  | cons c text ih =>
      cases text with
      | nil =>
          rw [scanDigits, splitMarker]
          by_cases hmarker : isMarker c = true
          · simp [hmarker]
          · by_cases hvalid : validDigit c nBase = true
            · simp [hmarker, hvalid, scanDigits]
            · simp [hmarker, hvalid]
      | cons c' text =>
          rw [scanDigits, if_neg fun h => List.cons_ne_nil _ _ h.1, ih, splitMarker_cons]
          by_cases hvalid : validDigit c nBase = true
          · simp only [hvalid, List.forall_mem_cons, true_and, Bool.not_true, Bool.false_eq_true, if_false]
            split
            · rfl
            · rfl
          · simp [hvalid]

theorem splitBase_base (p : Bytes) : (splitBase p).1 = 2 ∨ (splitBase p).1 = 10 ∨ (splitBase p).1 = 16 := by
  rw [splitBase]
  split_ifs
  · exact Or.inl rfl
  · exact Or.inr (Or.inr rfl)
  · exact Or.inr (Or.inl rfl)

theorem toNat_ofNat_of_le {n : Nat} (h : n ≤ UINT32_MAX) : (UInt32.ofNat n).toNat = n := by
  rw [UInt32.toNat_ofNat']
  exact Nat.mod_eq_of_lt (Nat.lt_succ_of_le h)

/-- A component is read as the number that it says. -/
theorem parseChild_eq (p : Bytes) : (parseChild p).toOption.map UInt32.toNat = componentValue p := by
  rw [parseChild, componentValue]
  by_cases hm : StartsM p
  · rw [if_pos (tolower_head_iff.mpr hm), if_pos hm]
    rfl
  rw [if_neg (mt tolower_head_iff.mp hm), if_neg hm]
  have hbase := splitBase_base p
  rcases hsplit : splitBase p with ⟨base, text⟩
  rw [hsplit] at hbase
  dsimp only at hbase ⊢
  rw [scanDigits_eq]
  rcases splitMarker text with ⟨digits, fHarden⟩
  dsimp only
  by_cases hvalid : ∀ c ∈ digits, validDigit c base = true
  · rw [if_pos hvalid]
    dsimp only
    rw [strtou32max_spec hbase hvalid]
    by_cases hfits : digits ≠ [] ∧ valueFrom base 0 digits ≤ UINT32_MAX
    · have hnat := toNat_ofNat_of_le hfits.2
      rw [if_pos hfits]
      dsimp only
      cases fHarden with
      | false =>
          simp only [Bool.false_eq_true, if_false]
          rw [if_pos ⟨hfits.1, hvalid, Nat.lt_succ_of_le hfits.2⟩]
          exact congrArg some hnat
      | true =>
          simp only [if_true]
          by_cases hsmall : valueFrom base 0 digits < 2 ^ 31
          · have hnatSmall : (UInt32.ofNat (valueFrom base 0 digits)).toNat < 2 ^ 31 := by
              rw [hnat]
              exact hsmall
            rw [if_pos ((top_bit_clear_iff _).mpr hnatSmall), if_pos ⟨hfits.1, hvalid, hsmall⟩]
            change some (hardenedChild (UInt32.ofNat (valueFrom base 0 digits))).toNat = _
            rw [hardenedChild_toNat hnatSmall, hnat, Nat.add_comm]
          · have hnatLarge : ¬(UInt32.ofNat (valueFrom base 0 digits)).toNat < 2 ^ 31 := by
              rw [hnat]
              exact hsmall
            rw [if_neg (mt (top_bit_clear_iff _).mp hnatLarge), if_neg fun h => hsmall h.2.2]
            rfl
    · rw [if_neg hfits]
      refine (if_neg ?_).symm
      rintro ⟨hne, -, hlt⟩
      refine hfits ⟨hne, ?_⟩
      rw [UINT32_MAX]
      split at hlt
      · omega
      · omega
  · rw [if_neg hvalid, if_neg fun h => hvalid h.2.1]
    rfl

theorem validDigit_zero (base : Nat) : validDigit 0 base = false := by
  unfold validDigit
  split
  · decide
  · decide
  · decide
  · rfl

/-- With a zero byte a component says no number. -/
theorem componentValue_zero (h0 : 0 ∈ comp) (hm : ¬StartsM comp) : componentValue comp = none := by
  have htext : 0 ∈ (splitBase comp).2 := by
    match comp, h0 with
    | [], h0 => cases h0
    | [c], h0 =>
        rw [splitBase]
        simp
        simpa using h0
    | c :: c' :: rest, h0 =>
        rw [splitBase]
        simp only [List.head?_cons, Option.some.injEq, List.getD_cons_succ, List.getD_cons_zero]
        split_ifs with h₁ h₂
        · rcases List.mem_cons.mp h0 with h0 | h0
          · rw [h₁.1] at h0
            cases h0
          · rcases List.mem_cons.mp h0 with h0 | h0
            · rcases h₁.2 with h | h
              · rw [h] at h0
                cases h0
              · rw [h] at h0
                cases h0
            · exact h0
        · rcases List.mem_cons.mp h0 with h0 | h0
          · rw [h₂.1] at h0
            cases h0
          · rcases List.mem_cons.mp h0 with h0 | h0
            · rcases h₂.2 with h | h
              · rw [h] at h0
                cases h0
              · rw [h] at h0
                cases h0
            · exact h0
        · exact h0
  have hdigits : 0 ∈ (splitMarker (splitBase comp).2).1 := by
    generalize (splitBase comp).2 = text at htext
    rw [splitMarker]
    split
    · rename_i hmarker
      obtain ⟨front, last, rfl⟩ : ∃ front last, text = front ++ [last] :=
        ⟨_, _, (List.dropLast_append_getLast (List.ne_nil_of_mem htext)).symm⟩
      rw [List.getLast?_concat, Option.any_some] at hmarker
      rw [List.dropLast_concat]
      refine (List.mem_append.mp htext).resolve_right fun hlast => ?_
      rw [List.mem_singleton] at hlast
      rw [← hlast] at hmarker
      exact absurd hmarker (by decide)
    · exact htext
  rw [componentValue, if_neg hm]
  refine if_neg ?_
  rintro ⟨-, hvalid, -⟩
  have hzero := hvalid 0 hdigits
  rw [validDigit_zero] at hzero
  cases hzero

end Components

end KeyPath

end ProCurrency
