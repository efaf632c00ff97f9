import Mathlib.Algebra.Order.Field.Rat
import Mathlib.Data.FinEnum
import Mathlib.Tactic.FieldSimp
import ProCurrency.Base.Params
import ProCurrency.Hd.KeyPath
import ProCurrency.Lib.WrappedInt

/-!
# Amounts as text

`FormatMoney` and `ParseMoney` (util.cpp). A string of C ends where its first zero byte is.
-/

namespace ProCurrency

def isdigit (c : UInt8) : Bool := 48 ≤ c.toNat && c.toNat ≤ 57

/-- `'.'`. -/
def point : UInt8 := 46

/-! ## Printing -/

/-- `%08d`, of a number that is not negative. -/
def padded8 (n : Nat) : Bytes := List.replicate (8 - (KeyPath.decimal n).length) 48 ++ KeyPath.decimal n

/-- `nTrim`, from the string with its last character first. -/
def trimCount : Bytes → Nat
  | c :: c₁ :: c₂ :: str => if c = 48 ∧ isdigit c₂ then trimCount (c₁ :: c₂ :: str) + 1 else 0
  | _ => 0

/-- `FormatMoney`; the negation of the least number, which overflows, is left out. -/
def formatMoney (n : Int64) (fPlus : Bool) : Bytes :=
  let n_abs := n.toInt.natAbs
  let str := KeyPath.decimal (n_abs / COIN.toNat) ++ [point] ++ padded8 (n_abs % COIN.toNat)
  let str := str.take (str.length - trimCount str.reverse)
  if n < 0 then 45 :: str else if fPlus && 0 < n then 43 :: str else str

/-! ## Parsing -/

/-- What a string of digits stands for. -/
def digitsValue (s : Bytes) : Nat := Radix.ofBe 10 (s.map fun c => c.toNat - 48)

/-- `atoi64` of a string of digits: `strtoll` stops at the greatest number. -/
def atoi64 (s : Bytes) : Int64 := Int64.ofInt (min (digitsValue s) (2 ^ 63 - 1))

/-- The loop over the digits behind the point: `nUnits`, and the rest of the string. -/
def parseUnits (nMult nUnits : Int64) : Bytes → Int64 × Bytes
  | [] => (nUnits, [])
  | c :: p =>
      if isdigit c ∧ 0 < nMult then parseUnits (nMult / 10) (nUnits + nMult * Int64.ofInt (c.toNat - 48)) p
      else (nUnits, c :: p)

/-- The loop over the string: `strWhole`, `nUnits` and the rest. -/
def parseWhole (strWhole : Bytes) : Bytes → Option (Bytes × Int64 × Bytes)
  | [] => some (strWhole, 0, [])
  | c :: p =>
      if c = point then some (strWhole, parseUnits (CENT * 10) 0 p)
      else if isspace c then some (strWhole, 0, c :: p)
      else if !isdigit c then none
      else parseWhole (strWhole ++ [c]) p

/-- `ParseMoney(const char*, ...)`, with the characters before the end. -/
def parseMoneyCStr (pszIn : Bytes) : Option Int64 :=
  match parseWhole [] (pszIn.dropWhile isspace) with
  | none => none
  | some (strWhole, nUnits, p) =>
      if !p.all isspace then none
      else if strWhole.length > 10 then none
      else if nUnits < 0 ∨ nUnits > Int64.ofInt COIN then none
      else some (atoi64 strWhole * Int64.ofInt COIN + nUnits)

def parseMoney (str : Bytes) : Option Int64 := parseMoneyCStr (str.takeWhile (· ≠ 0))

/-! ## What a string says -/

/-- The whole digits and those behind the point, with blanks around them. -/
def IsDecimal (s whole frac : Bytes) : Prop :=
  ∃ before mark after, s = before ++ whole ++ mark ++ frac ++ after ∧ (∀ c ∈ before, isspace c) ∧
    (∀ c ∈ after, isspace c) ∧ (∀ c ∈ whole, isdigit c) ∧ (∀ c ∈ frac, isdigit c) ∧
      (mark = [point] ∨ mark = [] ∧ frac = [])

def decimalValue (whole frac : Bytes) : ℚ := digitsValue whole + digitsValue frac / 10 ^ frac.length

/-! ## Digits -/

section Digits

variable {s t : Bytes} {c : UInt8}

theorem isdigit_iff : isdigit c = true ↔ 48 ≤ c.toNat ∧ c.toNat ≤ 57 := by
  simp [isdigit]

theorem not_isspace_of_isdigit (h : isdigit c = true) : isspace c = false := by
  rw [isdigit_iff] at h
  by_contra hspace
  simp only [isspace, Bool.not_eq_false, Bool.or_eq_true, Bool.and_eq_true, decide_eq_true_eq, UInt8.le_iff_toNat_le,
    ← UInt8.toNat_inj] at hspace
  simp only [UInt8.reduceToNat] at hspace
  omega

theorem ne_point_of_isdigit (h : isdigit c = true) : c ≠ point := by
  rintro rfl
  cases h

theorem digitsValue_append (s t : Bytes) : digitsValue (s ++ t) = digitsValue s * 10 ^ t.length + digitsValue t := by
  rw [digitsValue, List.map_append, Radix.ofBe_append, List.length_map]
  rfl

theorem digitsValue_singleton (c : UInt8) : digitsValue [c] = c.toNat - 48 := by
  simp [digitsValue, Radix.ofBe]

theorem digitsValue_zeros (k : Nat) : digitsValue (List.replicate k 48) = 0 := by
  rw [digitsValue, List.map_replicate]
  exact Radix.ofBe_replicate_zero 10 k

theorem digitsValue_lt (h : ∀ c ∈ s, isdigit c = true) : digitsValue s < 10 ^ s.length := by
  have hdigits : ∀ d ∈ s.map fun c => c.toNat - 48, d < 10 := by
    intro d hd
    obtain ⟨c, hc, rfl⟩ := List.mem_map.1 hd
    have hdigit := isdigit_iff.1 (h c hc)
    omega
  have hlt := Radix.ofBe_lt (by decide) hdigits
  rwa [List.length_map] at hlt

theorem digitsValue_cons (c : UInt8) (s : Bytes) :
    digitsValue (c :: s) = (c.toNat - 48) * 10 ^ s.length + digitsValue s := by
  rw [← List.singleton_append, digitsValue_append, digitsValue_singleton]

theorem toNat_digit {d : Nat} (h : d < 10) : (UInt8.ofNat (48 + d)).toNat = 48 + d := by
  rw [UInt8.toNat_ofNat']
  omega

theorem isdigit_of_mem_decimal {n : Nat} (h : c ∈ KeyPath.decimal n) : isdigit c = true := by
  rw [KeyPath.decimal] at h
  split_ifs at h
  · cases List.mem_singleton.1 h
    rfl
  · obtain ⟨d, hd, rfl⟩ := List.mem_map.1 h
    have hlt := Radix.lt_of_mem_beDigits (by decide) hd
    rw [isdigit_iff, toNat_digit hlt]
    omega

theorem digitsValue_decimal (n : Nat) : digitsValue (KeyPath.decimal n) = n := by
  rw [KeyPath.decimal]
  split_ifs with hn
  · rw [hn]
    rfl
  · rw [digitsValue, List.map_map]
    have hdigits : (Radix.beDigits 10 n).map ((fun c : UInt8 => c.toNat - 48) ∘ fun d => UInt8.ofNat (48 + d)) =
        Radix.beDigits 10 n := by
      refine (List.map_congr_left fun d hd => ?_).trans (List.map_id _)
      rw [Function.comp_apply, toNat_digit (Radix.lt_of_mem_beDigits (by decide) hd), Nat.add_sub_cancel_left]
      rfl
    rw [hdigits, Radix.ofBe_beDigits]

theorem length_decimal_le_iff (n : Nat) {k : Nat} (hk : 0 < k) : (KeyPath.decimal n).length ≤ k ↔ n < 10 ^ k := by
  rw [KeyPath.decimal]
  split_ifs with hn
  · rw [hn]
    exact iff_of_true hk (Nat.pow_pos (by decide))
  · rw [List.length_map, Radix.length_beDigits_le_iff (by decide)]

end Digits

/-! ## Reading -/

section Reading

variable {s p whole frac : Bytes} {v : Int64}

/-- One digit at a place that does not overflow. -/
theorem toInt_place {c : UInt8} (hc : isdigit c = true) {k : Nat} (hk : k < 8) {nMult nUnits : Int64}
    (hmult : nMult.toInt = (10 ^ k : Nat)) (hunits : 0 ≤ nUnits.toInt) (hroom : nUnits.toInt ≤ 10 ^ 8) :
    (nUnits + nMult * Int64.ofInt (c.toNat - 48)).toInt = nUnits.toInt + ((c.toNat - 48) * 10 ^ k : Nat) := by
  have hdigit := isdigit_iff.1 hc
  have hc' : (Int64.ofInt (c.toNat - 48)).toInt = (c.toNat - 48 : Nat) := by
    rw [Int64.toInt_ofInt_of_le (by omega) (by omega)]
    omega
  have hpow : 10 ^ k ≤ 10 ^ 7 := Nat.pow_le_pow_right (by decide) (Nat.le_of_lt_succ hk)
  have hprod : nMult.toInt * (Int64.ofInt (c.toNat - 48)).toInt = ((c.toNat - 48) * 10 ^ k : Nat) := by
    rw [hmult, hc', Nat.mul_comm, Nat.cast_mul]
  have hle : (c.toNat - 48) * 10 ^ k ≤ 9 * 10 ^ 7 := Nat.mul_le_mul (by omega) hpow
  have hmul := WrappedInt.toInt_mul_of_lt (a := nMult) (b := Int64.ofInt (c.toNat - 48)) (by omega) (by omega)
  rw [WrappedInt.ofInt_toInt_add, hmul, hprod, Int64.toInt_ofInt_of_le (by omega) (by omega)]

theorem toInt_div_ten {n : Int64} {m : Nat} (h : n.toInt = m) : (n / 10).toInt = (m / 10 : Nat) := by
  rw [Int64.toInt_div_of_ne_right _ _ (by decide), h]
  exact Int.tdiv_eq_ediv_of_nonneg (Int.natCast_nonneg m)

/-- The digits behind the point are read as long as there is a place for them. -/
theorem parseUnits_eq (k : Nat) (hk : k ≤ 8) (nMult nUnits : Int64) (hmult : nMult.toInt = (10 ^ k / 10 : Nat))
    (hunits : 0 ≤ nUnits.toInt) (hroom : nUnits.toInt + (10 ^ k : Nat) ≤ 10 ^ 8) (p : Bytes) :
    let ds := (p.takeWhile isdigit).take k
    (parseUnits nMult nUnits p).2 = p.drop ds.length ∧
      (parseUnits nMult nUnits p).1.toInt = nUnits.toInt + (digitsValue ds * 10 ^ (k - ds.length) : Nat) := by
  induction p generalizing k nMult nUnits with
  | nil => simp [parseUnits, digitsValue, Radix.ofBe]
  | cons c p ih =>
      rw [parseUnits]
      have hpos : 0 < nMult ↔ 0 < k := by
        rw [Int64.lt_iff_toInt_lt, hmult]
        cases k with
        | zero => simp
        | succ k =>
            rw [pow_succ, Nat.mul_div_cancel _ (by decide)]
            simp
      by_cases hc : isdigit c = true
      · rw [List.takeWhile_cons_of_pos hc]
        cases k with
        | zero =>
            rw [if_neg (by simp [hpos])]
            simp [digitsValue, Radix.ofBe]
        | succ k =>
            rw [if_pos ⟨hc, hpos.2 (Nat.succ_pos k)⟩, List.take_succ_cons]
            rw [pow_succ, Nat.mul_div_cancel _ (by decide)] at hmult
            rw [pow_succ] at hroom
            have hdigit := isdigit_iff.1 hc
            have hnext := toInt_place hc hk hmult hunits (by omega)
            have hplace : (c.toNat - 48) * 10 ^ k ≤ 9 * 10 ^ k := Nat.mul_le_mul_right _ (by omega)
            obtain ⟨hrest, hvalue⟩ := ih k (by omega) (nMult / 10)
              (nUnits + nMult * Int64.ofInt (c.toNat - 48)) (toInt_div_ten hmult) (by omega) (by omega)
            refine ⟨by rw [hrest, List.length_cons, List.drop_succ_cons], ?_⟩
            have hle : ((p.takeWhile isdigit).take k).length ≤ k := List.length_take_le _ _
            rw [hvalue, hnext, digitsValue_cons, List.length_cons, Nat.add_sub_add_right, Nat.add_mul, Nat.mul_assoc,
              ← pow_add, Nat.add_sub_cancel' hle, add_assoc, ← Nat.cast_add]
      · rw [if_neg (by simp [hc]), List.takeWhile_cons_of_neg (by simpa using hc)]
        simp [digitsValue, Radix.ofBe]

/-- The digits in front of the point are kept, and the next character decides. -/
theorem parseWhole_eq (acc s : Bytes) :
    parseWhole acc s = match s.dropWhile isdigit with
      | [] => some (acc ++ s.takeWhile isdigit, 0, [])
      | c :: p =>
          if c = point then some (acc ++ s.takeWhile isdigit, parseUnits (CENT * 10) 0 p)
          else if isspace c then some (acc ++ s.takeWhile isdigit, 0, c :: p)
          else none := by
  induction s generalizing acc with
  | nil => simp [parseWhole]
  | cons c s ih =>
      rw [parseWhole]
      by_cases hc : isdigit c = true
      · rw [if_neg (ne_point_of_isdigit hc), if_neg (by simp [not_isspace_of_isdigit hc]), if_neg (by simp [hc]), ih,
          List.dropWhile_cons_of_pos hc, List.takeWhile_cons_of_pos hc, List.append_assoc, List.singleton_append]
      · rw [List.dropWhile_cons_of_neg hc, List.takeWhile_cons_of_neg hc, List.append_nil]
        simp [hc]

/-- The amount of the digits. -/
def unitsOf (whole frac : Bytes) : Nat := digitsValue whole * 10 ^ 8 + digitsValue frac * 10 ^ (8 - frac.length)

theorem units_lt (hdigits : ∀ c ∈ frac, isdigit c = true) (hfrac : frac.length ≤ 8) :
    digitsValue frac * 10 ^ (8 - frac.length) < 10 ^ 8 := by
  have hpos : 0 < 10 ^ (8 - frac.length) := Nat.pow_pos (by decide)
  have hlt := Nat.mul_lt_mul_of_pos_right (digitsValue_lt hdigits) hpos
  rwa [← pow_add, Nat.add_sub_cancel' hfrac] at hlt

/-- What `ParseMoney` has read is put together without an overflow. -/
theorem toInt_amount (hwhole : ∀ c ∈ whole, isdigit c = true) (hlength : whole.length ≤ 10) {nUnits : Int64} {u : Nat}
    (hunits : nUnits.toInt = u) (hu : u < 10 ^ 8) :
    (atoi64 whole * Int64.ofInt COIN + nUnits).toInt = (digitsValue whole * 10 ^ 8 + u : Nat) := by
  have hlt : digitsValue whole < 10 ^ 10 :=
    lt_of_lt_of_le (digitsValue_lt hwhole) (Nat.pow_le_pow_right (by decide) hlength)
  have hatoi : (atoi64 whole).toInt = digitsValue whole := by
    rw [atoi64, Int64.toInt_ofInt_of_le (by omega) (by omega)]
    omega
  have hcoin : (Int64.ofInt COIN).toInt = 10 ^ 8 := by decide
  have hprod : (atoi64 whole * Int64.ofInt COIN).toInt = (digitsValue whole * 10 ^ 8 : Nat) := by
    rw [WrappedInt.toInt_mul_of_lt (by rw [hatoi, hcoin]; omega) (by rw [hatoi, hcoin]; omega), hatoi, hcoin]
    omega
  rw [WrappedInt.ofInt_toInt_add, hprod, hunits, Int64.toInt_ofInt_of_le (by omega) (by omega)]
  omega

theorem toInt_unitsOf (hwhole : ∀ c ∈ whole, isdigit c = true) (hfrac : ∀ c ∈ frac, isdigit c = true)
    (hlength : whole.length ≤ 10) (hlength' : frac.length ≤ 8) :
    (Int64.ofInt (unitsOf whole frac)).toInt = unitsOf whole frac := by
  have hlt : digitsValue whole < 10 ^ 10 :=
    lt_of_lt_of_le (digitsValue_lt hwhole) (Nat.pow_le_pow_right (by decide) hlength)
  have hunits := units_lt hfrac hlength'
  rw [unitsOf, Int64.toInt_ofInt_of_le (by omega) (by omega)]

theorem parseMoneyCStr_of_whole {nUnits : Int64} {u : Nat}
    (h : parseWhole [] (s.dropWhile isspace) = some (whole, nUnits, p)) (hwhole : ∀ c ∈ whole, isdigit c = true)
    (hunits : nUnits.toInt = u) (hu : u < 10 ^ 8) :
    parseMoneyCStr s = if (∀ c ∈ p, isspace c = true) ∧ whole.length ≤ 10 then
      some (Int64.ofInt (digitsValue whole * 10 ^ 8 + u : Nat)) else none := by
  rw [parseMoneyCStr, h]
  dsimp only
  by_cases hp : ∀ c ∈ p, isspace c = true
  · rw [if_neg (by simpa using hp)]
    by_cases hlength : whole.length ≤ 10
    · have hrange : ¬(nUnits < 0 ∨ nUnits > Int64.ofInt COIN) := by
        rw [not_or, Int64.lt_iff_toInt_lt, gt_iff_lt, Int64.lt_iff_toInt_lt, hunits,
          show (Int64.ofInt COIN).toInt = 10 ^ 8 by decide, Int64.toInt_zero]
        omega
      have hamount := toInt_amount hwhole hlength hunits hu
      rw [if_neg (by omega), if_neg hrange, if_pos ⟨hp, hlength⟩, ← hamount, Int64.ofInt_toInt]
    · rw [if_pos (by omega), if_neg fun hboth => hlength hboth.2]
  · rw [if_pos (by simpa using hp), if_neg fun hboth => hp hboth.1]

theorem parseUnits_frac (p : Bytes) :
    let ds := (p.takeWhile isdigit).take 8
    (parseUnits (CENT * 10) 0 p).2 = p.drop ds.length ∧
      (parseUnits (CENT * 10) 0 p).1.toInt = (digitsValue ds * 10 ^ (8 - ds.length) : Nat) := by
  obtain ⟨hrest, hunits⟩ := parseUnits_eq 8 (by decide) (CENT * 10) 0 (by decide) (by decide) (by decide) p
  exact ⟨hrest, hunits.trans (zero_add _)⟩

theorem not_isdigit_of_isspace {c : UInt8} (h : isspace c = true) : ¬isdigit c = true := by
  intro hdigit
  rw [not_isspace_of_isdigit hdigit] at h
  cases h

theorem takeWhile_isdigit_of_isspace {after : Bytes} (h : ∀ c ∈ after, isspace c = true) :
    after.takeWhile isdigit = [] := by
  cases after with
  | nil => rfl
  | cons c after => exact List.takeWhile_cons_of_neg (not_isdigit_of_isspace (h c List.mem_cons_self))

theorem parseWhole_point (hwhole : ∀ c ∈ whole, isdigit c = true) (p : Bytes) :
    parseWhole [] (whole ++ point :: p) = some (whole, parseUnits (CENT * 10) 0 p) := by
  have hpoint : ¬isdigit point = true := by decide
  rw [parseWhole_eq, List.dropWhile_append_of_pos hwhole, List.takeWhile_append_of_pos hwhole,
    List.dropWhile_cons_of_neg hpoint, List.takeWhile_cons_of_neg hpoint]
  simp

theorem parseWhole_blank (hwhole : ∀ c ∈ whole, isdigit c = true) {after : Bytes}
    (hafter : ∀ c ∈ after, isspace c = true) : parseWhole [] (whole ++ after) = some (whole, 0, after) := by
  rw [parseWhole_eq, List.dropWhile_append_of_pos hwhole, List.takeWhile_append_of_pos hwhole,
    takeWhile_isdigit_of_isspace hafter, List.append_nil]
  cases after with
  | nil => rfl
  | cons c after =>
      have hc := hafter c List.mem_cons_self
      have hne : c ≠ point := by
        rintro rfl
        cases hc
      rw [List.dropWhile_cons_of_neg (not_isdigit_of_isspace hc)]
      simp [hne, hc]

theorem dropWhile_digits (hwhole : ∀ c ∈ whole, isdigit c = true) (hne : whole ≠ []) (s : Bytes) :
    (whole ++ s).dropWhile isspace = whole ++ s := by
  obtain ⟨c, rest, rfl⟩ := List.exists_cons_of_ne_nil hne
  exact List.dropWhile_cons_of_neg (by simp [not_isspace_of_isdigit (hwhole c List.mem_cons_self)])

/-- What a decimal text is read as. -/
theorem parseMoneyCStr_of_isDecimal (h : IsDecimal s whole frac) :
    parseMoneyCStr s =
      if whole.length ≤ 10 ∧ frac.length ≤ 8 then some (Int64.ofInt (unitsOf whole frac)) else none := by
  obtain ⟨before, mark, after, rfl, hbefore, hafter, hwhole, hfrac, hmark⟩ := h
  rcases hmark with rfl | ⟨rfl, rfl⟩
  · have hstart : (before ++ whole ++ [point] ++ frac ++ after).dropWhile isspace =
        whole ++ point :: (frac ++ after) := by
      simp only [List.append_assoc, List.singleton_append]
      rw [List.dropWhile_append_of_pos hbefore]
      rcases Decidable.em (whole = []) with rfl | hne
      · rfl
      · exact dropWhile_digits hwhole hne _
    obtain ⟨hrest, hunits⟩ := parseUnits_frac (frac ++ after)
    rw [List.takeWhile_append_of_pos hfrac, takeWhile_isdigit_of_isspace hafter, List.append_nil] at hrest hunits
    have hread := parseWhole_point hwhole (frac ++ after)
    rw [← hstart, ← Prod.mk.eta (p := parseUnits _ _ _), hrest] at hread
    have htake : ∀ c ∈ frac.take 8, isdigit c = true := fun c hc => hfrac c (List.mem_of_mem_take hc)
    rw [parseMoneyCStr_of_whole hread hwhole hunits (units_lt htake (List.length_take_le _ _))]
    by_cases hlength : frac.length ≤ 8
    · rw [List.take_of_length_le hlength, List.drop_left]
      exact if_congr ⟨fun h => ⟨h.2, hlength⟩, fun h => ⟨hafter, h.1⟩⟩ rfl rfl
    · rw [if_neg fun hboth => ?_, if_neg fun hboth => hlength hboth.2]
      obtain ⟨c, hc⟩ := List.exists_mem_of_length_pos (l := frac.drop 8) (by rw [List.length_drop]; omega)
      have hmem : c ∈ (frac ++ after).drop (frac.take 8).length := by
        rw [List.length_take, Nat.min_eq_left (by omega), List.drop_append_of_le_length (by omega)]
        exact List.mem_append_left _ hc
      exact not_isdigit_of_isspace (hboth.1 c hmem) (hfrac c (List.mem_of_mem_drop hc))
  · have hstart : ∃ after', (∀ c ∈ after', isspace c = true) ∧
        (before ++ whole ++ [] ++ [] ++ after).dropWhile isspace = whole ++ after' := by
      simp only [List.append_nil, List.append_assoc]
      rw [List.dropWhile_append_of_pos hbefore]
      rcases Decidable.em (whole = []) with rfl | hne
      · exact ⟨[], by simp, List.dropWhile_eq_nil_iff.2 hafter⟩
      · exact ⟨after, hafter, dropWhile_digits hwhole hne after⟩
    obtain ⟨after', hafter', hstart⟩ := hstart
    have hread := parseWhole_blank hwhole hafter'
    rw [← hstart] at hread
    rw [parseMoneyCStr_of_whole hread hwhole (u := 0) Int64.toInt_zero (by decide)]
    refine if_congr ⟨fun h => ⟨h.2, Nat.zero_le 8⟩, fun h => ⟨hafter', h.1⟩⟩ ?_ rfl
    rw [unitsOf]
    simp [digitsValue, Radix.ofBe]

theorem all_isspace_of_some {strWhole : Bytes} {nUnits : Int64}
    (hread : parseWhole [] (s.dropWhile isspace) = some (strWhole, nUnits, p)) (h : parseMoneyCStr s = some v) :
    ∀ c ∈ p, isspace c = true := by
  rw [parseMoneyCStr, hread] at h
  dsimp only at h
  by_contra hp
  rw [if_pos (by simpa using hp)] at h
  cases h

/-- What is read is a decimal text. -/
theorem isDecimal_of_parse (h : parseMoneyCStr s = some v) : ∃ whole frac, IsDecimal s whole frac := by
  have hbefore : ∀ c ∈ s.takeWhile isspace, isspace c = true := fun c hc => List.mem_takeWhile_imp hc
  have hwhole : ∀ c ∈ (s.dropWhile isspace).takeWhile isdigit, isdigit c = true := fun c hc =>
    List.mem_takeWhile_imp hc
  have hsplit : s = s.takeWhile isspace ++ ((s.dropWhile isspace).takeWhile isdigit ++
      (s.dropWhile isspace).dropWhile isdigit) := by
    rw [List.takeWhile_append_dropWhile, List.takeWhile_append_dropWhile]
  have hread := parseWhole_eq [] (s.dropWhile isspace)
  rw [List.nil_append] at hread
  rcases hrest : (s.dropWhile isspace).dropWhile isdigit with _ | ⟨c, p⟩
  · refine ⟨_, [], _, [], [], ?_, hbefore, by simp, hwhole, by simp, .inr ⟨rfl, rfl⟩⟩
    rw [hrest] at hsplit
    simpa using hsplit
  · rw [hrest] at hread hsplit
    dsimp only at hread
    by_cases hpoint : c = point
    · rw [if_pos hpoint] at hread
      have hspaces := all_isspace_of_some hread h
      obtain ⟨hafter, _⟩ := parseUnits_frac p
      have hdigits : ∀ c ∈ (p.takeWhile isdigit).take 8, isdigit c = true := fun c hc =>
        List.mem_takeWhile_imp (List.mem_of_mem_take hc)
      refine ⟨_, (p.takeWhile isdigit).take 8, _, [point], _, ?_, hbefore, hspaces, hwhole, hdigits, .inl rfl⟩
      have hfrac : (p.takeWhile isdigit).take 8 <+: p :=
        (List.take_prefix 8 _).trans (List.takeWhile_prefix isdigit)
      rw [hafter, List.append_assoc, ← List.prefix_append_drop hfrac]
      rw [hpoint] at hsplit
      simpa using hsplit
    · rw [if_neg hpoint] at hread
      by_cases hspace : isspace c = true
      · rw [if_pos hspace] at hread
        have hspaces := all_isspace_of_some hread h
        refine ⟨_, [], _, [], c :: p, ?_, hbefore, hspaces, hwhole, by simp, .inr ⟨rfl, rfl⟩⟩
        simpa using hsplit
      · rw [if_neg hspace] at hread
        rw [parseMoneyCStr, hread] at h
        cases h

end Reading

/-! ## Round trips -/

/-- Zeros are counted as long as two characters are between them and the point. -/
theorem trimCount_spec (t : Bytes) {r : Bytes} (hr : ∀ c ∈ r, isdigit c = true) (hlength : 2 ≤ r.length) :
    ∃ k kept, r = List.replicate k 48 ++ kept ∧ trimCount (r ++ point :: t) = k := by
  induction r with
  | nil => cases hlength
  | cons c r ih =>
      obtain ⟨_, hr'⟩ := List.forall_mem_cons.1 hr
      rcases r with _ | ⟨c₁, _ | ⟨c₂, r⟩⟩
      · exact absurd hlength (by simp)
      · exact ⟨0, [c, c₁], rfl, if_neg fun hboth => absurd hboth.2 (by decide)⟩
      · rw [List.cons_append, List.cons_append, List.cons_append, trimCount]
        by_cases hc : c = 48
        · obtain ⟨k, kept, hsplit, hcount⟩ := ih hr' (by simp)
          refine ⟨k + 1, kept, by rw [hsplit, hc, List.replicate_succ, List.cons_append], ?_⟩
          rw [if_pos ⟨hc, hr' c₂ (by simp)⟩]
          exact congrArg (· + 1) hcount
        · exact ⟨0, c :: c₁ :: c₂ :: r, rfl, if_neg fun hboth => hc hboth.1⟩

theorem isdigit_of_mem_padded8 {n : Nat} {c : UInt8} (h : c ∈ padded8 n) : isdigit c = true := by
  rcases List.mem_append.1 h with h | h
  · rw [List.eq_of_mem_replicate h]
    rfl
  · exact isdigit_of_mem_decimal h

theorem length_padded8 {n : Nat} (h : n < 10 ^ 8) : (padded8 n).length = 8 := by
  have hlength := (length_decimal_le_iff n (k := 8) (by decide)).2 h
  rw [padded8, List.length_append, List.length_replicate]
  omega

theorem digitsValue_padded8 (n : Nat) : digitsValue (padded8 n) = n := by
  rw [padded8, digitsValue_append, digitsValue_zeros, digitsValue_decimal, Nat.zero_mul, Nat.zero_add]

/-- The text of an amount that is not negative. -/
theorem formatMoney_eq {n : Int64} (h : 0 ≤ n.toInt) :
    ∃ frac, formatMoney n false = KeyPath.decimal (n.toInt.natAbs / 10 ^ 8) ++ [point] ++ frac ∧
      (∀ c ∈ frac, isdigit c = true) ∧ frac.length ≤ 8 ∧
        digitsValue frac * 10 ^ (8 - frac.length) = n.toInt.natAbs % 10 ^ 8 := by
  have hcoin : COIN.toNat = 10 ^ 8 := rfl
  have hneg : ¬n < 0 := by
    rw [Int64.lt_iff_toInt_lt, Int64.toInt_zero]
    exact Int.not_lt.2 h
  set r := n.toInt.natAbs % 10 ^ 8 with hr
  have hlength := length_padded8 (n := r) (Nat.mod_lt _ (by decide))
  obtain ⟨k, kept, hsplit, hcount⟩ := trimCount_spec (KeyPath.decimal (n.toInt.natAbs / 10 ^ 8)).reverse
    (r := (padded8 r).reverse) (fun c hc => isdigit_of_mem_padded8 (List.mem_reverse.1 hc))
    (by rw [List.length_reverse, hlength]; decide)
  have hpadded : padded8 r = kept.reverse ++ List.replicate k 48 := by
    rw [← List.reverse_reverse (padded8 r), hsplit, List.reverse_append, List.reverse_replicate]
  have hlength' := congrArg List.length hpadded
  rw [hlength, List.length_append, List.length_replicate] at hlength'
  refine ⟨kept.reverse, ?_, fun c hc => ?_, by omega, ?_⟩
  · rw [formatMoney, if_neg hneg, hcoin, ← hr]
    simp only [Bool.false_and, Bool.false_eq_true, if_false]
    rw [List.reverse_append, List.reverse_append, List.reverse_singleton, List.singleton_append, hcount, hpadded,
      ← List.append_assoc, List.length_append, List.length_replicate, Nat.add_sub_cancel, List.take_left]
  · exact isdigit_of_mem_padded8 (n := r) (hpadded ▸ List.mem_append_left _ hc)
  · rw [← digitsValue_padded8 r, hpadded, digitsValue_append, digitsValue_zeros, List.length_replicate, Nat.add_zero]
    congr 2
    omega

/-- The string has a decimal value, and an amount is what it says in coins. -/
def ReadsExactly (str : Bytes) (v : Int64) : Prop :=
  (∃ whole frac, IsDecimal (str.takeWhile (· ≠ 0)) whole frac) ∧
    ∀ whole frac, IsDecimal (str.takeWhile (· ≠ 0)) whole frac → (v.toInt : ℚ) = decimalValue whole frac * COIN

theorem IsDecimal.digits {s whole frac : Bytes} (h : IsDecimal s whole frac) :
    (∀ c ∈ whole, isdigit c = true) ∧ ∀ c ∈ frac, isdigit c = true := by
  obtain ⟨_, _, _, _, _, _, hwhole, hfrac, _⟩ := h
  exact ⟨hwhole, hfrac⟩

theorem decimalValue_mul (whole : Bytes) {frac : Bytes} (h : frac.length ≤ 8) :
    decimalValue whole frac * COIN = (unitsOf whole frac : ℚ) := by
  have hpow : (10 : ℚ) ^ 8 = 10 ^ frac.length * 10 ^ (8 - frac.length) := by
    rw [← pow_add, Nat.add_sub_cancel' h]
  have hcoin : ((COIN : Int) : ℚ) = 10 ^ 8 := by norm_num [COIN]
  rw [decimalValue, unitsOf, hcoin, add_mul, hpow, ← mul_assoc, ← mul_assoc,
    div_mul_cancel₀ _ (pow_ne_zero _ (by norm_num))]
  simp only [Nat.cast_add, Nat.cast_mul, Nat.cast_pow, Nat.cast_ofNat]
  rw [hpow, mul_assoc]

theorem readsExactly_of_parse {str : Bytes} {v : Int64} (h : parseMoney str = some v) : ReadsExactly str v := by
  refine ⟨isDecimal_of_parse h, fun whole frac hdecimal => ?_⟩
  have hparse := parseMoneyCStr_of_isDecimal hdecimal
  rw [show parseMoneyCStr _ = some v from h] at hparse
  split_ifs at hparse with hlength
  cases hparse
  rw [decimalValue_mul whole hlength.2, toInt_unitsOf hdecimal.digits.1 hdecimal.digits.2 hlength.1 hlength.2]
  rfl

/-- An amount comes back from its text exactly below ten thousand million coins, and what is read is what the string
says. -/
theorem formatMoney_roundTrip_iff (n : Int64) (h0 : 0 ≤ n) :
    (parseMoney (formatMoney n false) = some n ∧ ∀ str v, parseMoney str = some v → ReadsExactly str v) ↔
      n.toInt < 10 ^ 10 * COIN := by
  have hpos : 0 ≤ n.toInt := Int64.le_iff_toInt_le.1 h0
  obtain ⟨frac, htext, hfrac, hlength, hvalue⟩ := formatMoney_eq hpos
  have hwhole : ∀ c ∈ KeyPath.decimal (n.toInt.natAbs / 10 ^ 8), isdigit c = true := fun c hc =>
    isdigit_of_mem_decimal hc
  have hnonzero : ∀ c ∈ formatMoney n false, decide (c ≠ 0) = true := by
    intro c hc
    rw [htext] at hc
    have hcases : isdigit c = true ∨ c = point := by
      rcases List.mem_append.1 hc with hc | hc
      · rcases List.mem_append.1 hc with hc | hc
        · exact .inl (hwhole c hc)
        · exact .inr (List.mem_singleton.1 hc)
      · exact .inl (hfrac c hc)
    refine decide_eq_true fun hzero => ?_
    subst hzero
    exact absurd hcases (by decide)
  have hdecimal : IsDecimal (formatMoney n false) (KeyPath.decimal (n.toInt.natAbs / 10 ^ 8)) frac :=
    ⟨[], [point], [], by rw [htext]; simp, by simp, by simp, hwhole, hfrac, .inl rfl⟩
  have hparse : parseMoney (formatMoney n false) =
      if n.toInt < 10 ^ 10 * COIN then some n else none := by
    rw [parseMoney, List.takeWhile_eq_self_iff.2 hnonzero, parseMoneyCStr_of_isDecimal hdecimal]
    refine if_congr ?_ ?_ rfl
    · rw [length_decimal_le_iff _ (by decide), COIN]
      omega
    · rw [unitsOf, digitsValue_decimal, hvalue, Nat.mul_comm, Nat.div_add_mod, Int.natAbs_of_nonneg hpos,
        Int64.ofInt_toInt]
  constructor
  · rintro ⟨htrip, _⟩
    by_contra hlarge
    rw [hparse, if_neg hlarge] at htrip
    cases htrip
  · intro hsmall
    exact ⟨hparse.trans (if_pos hsmall), fun str v h => readsExactly_of_parse h⟩

theorem formatMoney_roundTrip_coin : parseMoney (formatMoney 100000000 false) = some 100000000 ∧
    ∀ str v, parseMoney str = some v → ReadsExactly str v :=
  (formatMoney_roundTrip_iff 100000000 (by decide)).2 (by decide)

theorem formatMoney_not_roundTrip : ¬ ∀ n : Int64, 0 ≤ n → n ≤ MAX_MONEY →
    parseMoney (formatMoney n false) = some n := by
  intro h
  exact absurd (h 1000000000000000000 (by decide) (by decide)) (by decide)

end ProCurrency
