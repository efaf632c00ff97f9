import Mathlib.Data.Nat.Log
import Mathlib.Tactic.Ring
import Mathlib.Tactic.Linarith

/-!
# A base 256 floating point format

A natural number is kept as its length in bytes, with one bit of room for a sign, and its three leading
bytes. `floor n` is the number that is left after the other bytes are dropped.
-/

namespace CompactFloat

/-- Bytes of `n`, when the top bit of the first byte has to stay free. -/
def bytes (n : Nat) : Nat := if n = 0 then 0 else (n.log2 + 1) / 8 + 1

/-- The value of the last byte that is kept. -/
def unit (n : Nat) : Nat := 256 ^ (bytes n - 3)

def mantissa (n : Nat) : Nat := if bytes n ≤ 3 then n * 256 ^ (3 - bytes n) else n / unit n

def expand (size m : Nat) : Nat := if size ≤ 3 then m / 256 ^ (3 - size) else m * 256 ^ (size - 3)

def floor (n : Nat) : Nat := n / unit n * unit n

/-! ## Length -/

@[simp] theorem bytes_zero : bytes 0 = 0 := rfl

theorem bytes_pos {n : Nat} (h : n ≠ 0) : 0 < bytes n := by simp [bytes, h]

theorem bytes_le_succ_iff {n s : Nat} : bytes n ≤ s + 1 ↔ n < 2 ^ (8 * s + 7) := by
  by_cases h : n = 0
  · subst h; simp
  · rw [bytes, if_neg h, ← Nat.log2_lt h]; omega

theorem bytes_mono {a b : Nat} (h : a ≤ b) : bytes a ≤ bytes b := by
  by_cases hb : b = 0
  · have ha : a = 0 := by omega
    rw [ha, hb]
  · have hpos := bytes_pos hb
    obtain ⟨s, hs⟩ : ∃ s, bytes b = s + 1 := ⟨bytes b - 1, by omega⟩
    rw [hs, bytes_le_succ_iff]
    exact lt_of_le_of_lt h (bytes_le_succ_iff.mp hs.le)

/-- A number that needs more than `s + 1` bytes is large. -/
theorem le_of_lt_bytes {n s : Nat} (h : s + 1 < bytes n) : 2 ^ (8 * s + 7) ≤ n := by
  by_contra hlt
  have hle := bytes_le_succ_iff.mpr (Nat.lt_of_not_le hlt)
  omega

theorem unit_pos (n : Nat) : 0 < unit n := Nat.pow_pos (by decide)

theorem unit_eq_one {n : Nat} (h : bytes n ≤ 3) : unit n = 1 := by
  rw [unit, Nat.sub_eq_zero_of_le h, pow_zero]

/-- The kept bytes carry at least fifteen bits. -/
theorem unit_mul_le {n : Nat} (h : 3 < bytes n) : unit n * 2 ^ 15 ≤ n := by
  obtain ⟨s, hs⟩ : ∃ s, bytes n = s + 4 := ⟨bytes n - 4, by omega⟩
  have hn : 2 ^ (8 * (s + 2) + 7) ≤ n := le_of_lt_bytes (by omega)
  calc unit n * 2 ^ 15 = 2 ^ (8 * (s + 2) + 7) := by
        rw [unit, hs, show (256 : Nat) = 2 ^ 8 from rfl, ← pow_mul, ← pow_add]; congr 1
    _ ≤ n := hn

/-! ## Rounding down -/

theorem floor_le (n : Nat) : floor n ≤ n := Nat.div_mul_le_self n (unit n)

theorem lt_floor_add_unit (n : Nat) : n < floor n + unit n := by
  rw [floor, mul_comm]
  have hmod := Nat.mod_lt n (unit_pos n)
  have hdiv := Nat.div_add_mod n (unit n)
  omega

theorem floor_eq_self {n : Nat} (h : bytes n ≤ 3) : floor n = n := by simp [floor, unit_eq_one h]

@[simp] theorem floor_zero : floor 0 = 0 := floor_eq_self (by simp)

/-- Rounding down does not lose a byte: the power of two below `n` is a multiple of the unit. -/
theorem two_pow_le_floor {n s : Nat} (h : s + 1 < bytes n) : 2 ^ (8 * s + 7) ≤ floor n := by
  by_cases h3 : bytes n ≤ 3
  · rw [floor_eq_self h3]; exact le_of_lt_bytes h
  · obtain ⟨t, ht⟩ : ∃ t, bytes n = t + 2 := ⟨bytes n - 2, by omega⟩
    have hunit : 2 ^ (8 * t + 7) = 2 ^ 15 * unit n := by
      rw [unit, show (256 : Nat) = 2 ^ 8 from rfl, ← pow_mul, ← pow_add]; congr 1; omega
    have hle : 2 ^ (8 * t + 7) ≤ n := le_of_lt_bytes (by omega)
    calc 2 ^ (8 * s + 7) ≤ 2 ^ (8 * t + 7) := Nat.pow_le_pow_right (by decide) (by omega)
      _ = 2 ^ (8 * t + 7) / unit n * unit n := by
          rw [hunit, Nat.mul_div_cancel _ (unit_pos n)]
      _ ≤ floor n := Nat.mul_le_mul_right _ (Nat.div_le_div_right hle)

theorem bytes_floor (n : Nat) : bytes (floor n) = bytes n := by
  apply le_antisymm (bytes_mono (floor_le n))
  by_contra hlt
  by_cases h3 : bytes n ≤ 3
  · rw [floor_eq_self h3] at hlt; omega
  · obtain ⟨s, hs⟩ : ∃ s, bytes n = s + 2 := ⟨bytes n - 2, by omega⟩
    have hle : 2 ^ (8 * s + 7) ≤ floor n := two_pow_le_floor (by omega)
    have hshort : bytes (floor n) ≤ s + 1 := by omega
    have hlt' := bytes_le_succ_iff.mp hshort
    omega

theorem floor_mono {a b : Nat} (h : a ≤ b) : floor a ≤ floor b := by
  rcases Nat.lt_or_eq_of_le (bytes_mono h) with hlt | heq
  · by_cases ha : a = 0
    · subst ha; simp
    · have hpos := bytes_pos ha
      obtain ⟨s, hs⟩ : ∃ s, bytes a = s + 1 := ⟨bytes a - 1, by omega⟩
      have hsmall : a < 2 ^ (8 * s + 7) := bytes_le_succ_iff.mp hs.le
      have hlarge : 2 ^ (8 * s + 7) ≤ floor b := two_pow_le_floor (by omega)
      exact (floor_le a).trans (hsmall.le.trans hlarge)
  · have hunit : unit a = unit b := by rw [unit, unit, heq]
    rw [floor, floor, hunit]
    exact Nat.mul_le_mul_right _ (Nat.div_le_div_right h)

/-- A step of one unit is always seen. -/
theorem floor_lt_floor {a b : Nat} (h : a + unit b ≤ b) : floor a < floor b := by
  have ha := floor_le a
  have hb := lt_floor_add_unit b
  omega

/-- Everything between a number and its rounding rounds to the same number. -/
theorem floor_eq_of_le {n x : Nat} (hx : floor n ≤ x) (hn : x ≤ n) : floor x = floor n := by
  apply le_antisymm (floor_mono hn)
  have hmono := floor_mono hx
  have hunit : unit (floor n) = unit n := by rw [unit, unit, bytes_floor]
  have hidem : floor (floor n) = floor n := by
    rw [floor, hunit, floor, Nat.mul_div_cancel _ (unit_pos n)]
  rwa [hidem] at hmono

/-! ## The encoding -/

theorem expand_mantissa (n : Nat) : expand (bytes n) (mantissa n) = floor n := by
  by_cases h : bytes n ≤ 3
  · rw [expand, mantissa, if_pos h, if_pos h, floor_eq_self h]
    exact Nat.mul_div_cancel _ (Nat.pow_pos (by decide))
  · rw [expand, mantissa, if_neg h, if_neg h]; rfl

theorem mantissa_lt (n : Nat) : mantissa n < 2 ^ 23 := by
  by_cases hn : n = 0
  · subst hn; simp [mantissa]
  · have hpos := bytes_pos hn
    obtain ⟨s, hs⟩ : ∃ s, bytes n = s + 1 := ⟨bytes n - 1, by omega⟩
    have hlt : n < 2 ^ (8 * s + 7) := bytes_le_succ_iff.mp hs.le
    by_cases h : bytes n ≤ 3
    · rw [mantissa, if_pos h, show (256 : Nat) = 2 ^ 8 from rfl, ← pow_mul]
      calc n * 2 ^ (8 * (3 - bytes n)) < 2 ^ (8 * s + 7) * 2 ^ (8 * (3 - bytes n)) :=
            Nat.mul_lt_mul_of_pos_right hlt (Nat.pow_pos (by decide))
        _ = 2 ^ 23 := by rw [← pow_add]; congr 1; omega
    · rw [mantissa, if_neg h, Nat.div_lt_iff_lt_mul (unit_pos n), unit,
        show (256 : Nat) = 2 ^ 8 from rfl, ← pow_mul, ← pow_add]
      calc n < 2 ^ (8 * s + 7) := hlt
        _ = 2 ^ (23 + 8 * (bytes n - 3)) := by congr 1; omega

theorem mantissa_floor (n : Nat) : mantissa (floor n) = mantissa n := by
  by_cases h : bytes n ≤ 3
  · rw [floor_eq_self h]
  · have hunit : unit (floor n) = unit n := by rw [unit, unit, bytes_floor]
    rw [mantissa, mantissa, bytes_floor, if_neg h, if_neg h, hunit, floor,
      Nat.mul_div_cancel _ (unit_pos n)]

/-- Two numbers have one encoding exactly when they round down to one number. -/
theorem encode_eq_iff {a b : Nat} :
    (bytes a = bytes b ∧ mantissa a = mantissa b) ↔ floor a = floor b := by
  constructor
  · intro h
    rw [← expand_mantissa a, ← expand_mantissa b, h.1, h.2]
  · intro h
    constructor
    · rw [← bytes_floor a, ← bytes_floor b, h]
    · rw [← mantissa_floor a, ← mantissa_floor b, h]

theorem bytes_expand_le {size m : Nat} (h : m < 2 ^ 23) : bytes (expand size m) ≤ size := by
  cases size with
  | zero =>
      have hzero : expand 0 m = 0 := Nat.div_eq_of_lt (h.trans (by decide))
      rw [hzero, bytes_zero]
  | succ size =>
      rw [bytes_le_succ_iff, expand]
      split
      · rename_i hle
        rw [Nat.div_lt_iff_lt_mul (Nat.pow_pos (by decide)), show (256 : Nat) = 2 ^ 8 from rfl, ← pow_mul, ← pow_add]
        exact h.trans_eq (congrArg (2 ^ ·) (by omega))
      · calc m * 256 ^ (size + 1 - 3) < 2 ^ 23 * 256 ^ (size + 1 - 3) :=
              Nat.mul_lt_mul_of_pos_right h (Nat.pow_pos (by decide))
          _ = 2 ^ (8 * size + 7) := by
              rw [show (256 : Nat) = 2 ^ 8 from rfl, ← pow_mul, ← pow_add]
              exact congrArg (2 ^ ·) (by omega)

/-- What is decoded is not rounded again. -/
theorem floor_expand {size m : Nat} (h : m < 2 ^ 23) : floor (expand size m) = expand size m := by
  have hbytes := @bytes_expand_le size m h
  by_cases h3 : size ≤ 3
  · exact floor_eq_self (hbytes.trans h3)
  · have hunit : unit (expand size m) ∣ expand size m := by
      refine (pow_dvd_pow 256 (Nat.sub_le_sub_right hbytes 3)).trans ?_
      rw [expand, if_neg h3]
      exact Dvd.intro_left m rfl
    exact Nat.div_mul_cancel hunit

/-! ## Scaling by a fraction -/

/-- Two multiples of `t` whose factors differ by two parts in `2 ^ 15` round down to different numbers
as soon as they differ. -/
theorem floor_scale_lt {t p q d : Nat} (hp : 0 < p) (hp' : p ≤ 2 ^ 15) (hpq : p + 2 ≤ q)
    (h : t * p / d < t * q / d) : floor (t * p / d) < floor (t * q / d) := by
  apply floor_lt_floor
  by_cases h3 : bytes (t * q / d) ≤ 3
  · rw [unit_eq_one h3]; omega
  · have hd : 0 < d := by
      rcases Nat.eq_zero_or_pos d with h0 | h0
      · subst h0; simp at h
      · exact h0
    have hu := unit_pos (t * q / d)
    have hy := unit_mul_le (Nat.lt_of_not_le h3)
    generalize unit (t * q / d) = u at hu hy ⊢
    have hx : t * p / d * d ≤ t * p := Nat.div_mul_le_self _ _
    have hq : t * q < (t * q / d + 1) * d := by rw [mul_comm _ d]; exact Nat.lt_mul_div_succ _ hd
    generalize t * p / d = x at h hx ⊢
    generalize t * q / d = y at h hy hq ⊢
    have hscaled : x * q < (y + 1) * p := by
      apply Nat.lt_of_mul_lt_mul_right (a := d)
      calc x * q * d = x * d * q := by ring
        _ ≤ t * p * q := Nat.mul_le_mul_right _ hx
        _ = t * q * p := by ring
        _ < (y + 1) * d * p := Nat.mul_lt_mul_of_pos_right hq hp
        _ = (y + 1) * p * d := by ring
    obtain ⟨e, rfl⟩ : ∃ e, q = p + e := ⟨q - p, by omega⟩
    by_contra hgt
    have hclose : y + 1 ≤ x + u := by omega
    have hgap : (y + 1) * e < u * (p + e) := by
      have hmul : (y + 1) * (p + e) ≤ (x + u) * (p + e) := Nat.mul_le_mul_right _ hclose
      linarith
    have hlarge : u * (2 ^ 15 * e) < u * (p + e) := by
      calc u * (2 ^ 15 * e) = u * 2 ^ 15 * e := by ring
        _ ≤ (y + 1) * e := Nat.mul_le_mul_right _ (by omega)
        _ < u * (p + e) := hgap
    have hlt := Nat.lt_of_mul_lt_mul_left hlarge
    omega

end CompactFloat
