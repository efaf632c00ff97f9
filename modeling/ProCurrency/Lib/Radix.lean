import Mathlib.Data.List.DropRight
import Mathlib.Data.Nat.Bitwise
import Mathlib.Data.Nat.Digits.Lemmas
import Mathlib.Tactic.Ring

/-!
# Numbers and their digits

A number as its digits with the most significant one first, and the conversion from one base to another in place: a
list of digits of a fixed length, the least significant one first, is multiplied and added to for each digit that
comes, with a carry.
-/

namespace Radix

/-- The number of a list of digits, the most significant one first. -/
def ofBe (b : Nat) (cs : List Nat) : Nat := cs.foldl (fun n c => n * b + c) 0

/-- The digits of a number, the most significant one first and no zero in front. -/
def beDigits (b n : Nat) : List Nat := (Nat.digits b n).reverse

/-- `ds * m + carry` in place: the carry that is left, and the digits. -/
def mulAdd (b m : Nat) : Nat → List Nat → Nat × List Nat
  | carry, [] => (carry, [])
  | carry, d :: ds =>
      match mulAdd b m ((carry + m * d) / b) ds with
      | (rest, ds) => (rest, (carry + m * d) % b :: ds)

/-- The digits that come, one after the other; `none` when a carry is left. -/
def convert (b m : Nat) (ds : List Nat) : List Nat → Option (List Nat)
  | [] => some ds
  | c :: cs =>
      match mulAdd b m c ds with
      | (0, ds) => convert b m ds cs
      | (_ + 1, _) => none

variable {b m : Nat} {ds cs : List Nat}

/-! ## Digits -/

theorem ofBe_eq (b : Nat) (cs : List Nat) : ofBe b cs = Nat.ofDigits b cs.reverse := by
  induction cs using List.reverseRecOn with
  | nil => rfl
  | append_singleton cs c ih =>
      rw [ofBe, List.foldl_append, ← ofBe, ih, List.reverse_append, List.reverse_singleton, List.singleton_append,
        Nat.ofDigits_cons, Nat.mul_comm, Nat.add_comm]
      rfl

theorem ofBe_beDigits (b n : Nat) : ofBe b (beDigits b n) = n := by
  rw [ofBe_eq, beDigits, List.reverse_reverse, Nat.ofDigits_digits]

theorem ofBe_append (b : Nat) (cs ds : List Nat) : ofBe b (cs ++ ds) = ofBe b cs * b ^ ds.length + ofBe b ds := by
  rw [ofBe_eq, ofBe_eq, ofBe_eq, List.reverse_append, Nat.ofDigits_append, List.length_reverse, Nat.mul_comm,
    Nat.add_comm]

theorem ofBe_replicate_zero (b k : Nat) : ofBe b (List.replicate k 0) = 0 := by
  rw [ofBe_eq, List.reverse_replicate, ← List.nil_append (List.replicate k 0), Nat.ofDigits_append_replicate_zero]
  rfl

theorem ofBe_lt (hb : 1 < b) (hcs : ∀ c ∈ cs, c < b) : ofBe b cs < b ^ cs.length := by
  have hlt := Nat.ofDigits_lt_base_pow_length hb fun c hc => hcs c (List.mem_reverse.mp hc)
  rwa [List.length_reverse, ← ofBe_eq] at hlt

theorem length_beDigits_le_iff (hb : 1 < b) (n k : Nat) : (beDigits b n).length ≤ k ↔ n < b ^ k := by
  rw [beDigits, List.length_reverse, Nat.digits_length_le_iff hb]

theorem lt_of_mem_beDigits (hb : 1 < b) {n d : Nat} (h : d ∈ beDigits b n) : d < b :=
  Nat.digits_lt_base hb (List.mem_reverse.mp h)

/-- The digits of a number are those of any list that stands for it, without the zeros in front. -/
theorem digits_ofDigits_trim (hb : 1 < b) (hds : ∀ d ∈ ds, d < b) :
    Nat.digits b (Nat.ofDigits b ds) = ds.rdropWhile (· = 0) := by
  have hzeros : ds.rtakeWhile (· = 0) = List.replicate (ds.rtakeWhile (· = 0)).length 0 :=
    List.eq_replicate_of_mem fun d hd => by simpa using List.mem_rtakeWhile_imp hd
  have hvalue : Nat.ofDigits b ds = Nat.ofDigits b (ds.rdropWhile (· = 0)) := by
    conv_lhs => rw [← List.rdropWhile_append_rtakeWhile (p := (· = 0)) (l := ds), hzeros]
    exact Nat.ofDigits_append_replicate_zero _
  rw [hvalue]
  refine Nat.digits_ofDigits b hb _ (fun d hd => hds d ((List.rdropWhile_prefix _ _).subset hd)) fun hne => ?_
  exact fun hzero => List.rdropWhile_last_not (· = 0) ds hne (decide_eq_true hzero)

theorem beDigits_ofBe (hb : 1 < b) (hcs : ∀ c ∈ cs, c < b) : beDigits b (ofBe b cs) = cs.dropWhile (· = 0) := by
  rw [beDigits, ofBe_eq, digits_ofDigits_trim hb fun c hc => hcs c (List.mem_reverse.mp hc),
    List.rdropWhile_reverse, List.reverse_reverse]

theorem head?_beDigits (b n : Nat) : (beDigits b n).head? ≠ some 0 := by
  rw [beDigits, List.head?_reverse]
  intro hlast
  have hne : Nat.digits b n ≠ [] := fun h => by simp [h] at hlast
  rw [List.getLast?_eq_some_getLast hne] at hlast
  exact Nat.getLast_digit_ne_zero b (Nat.digits_ne_nil_iff_ne_zero.mp hne) (Option.some.inj hlast)

/-! ## Conversion -/

@[simp] theorem length_mulAdd (b m carry : Nat) (ds : List Nat) : (mulAdd b m carry ds).2.length = ds.length := by
  induction ds generalizing carry with
  | nil => rfl
  | cons d ds ih => simp [mulAdd, ih]

theorem lt_of_mem_mulAdd (hb : 0 < b) (carry : Nat) (ds : List Nat) : ∀ d ∈ (mulAdd b m carry ds).2, d < b := by
  induction ds generalizing carry with
  | nil => exact fun d hd => nomatch hd
  | cons d ds ih =>
      intro d' hd'
      rw [mulAdd] at hd'
      cases hd' with
      | head => exact Nat.mod_lt _ hb
      | tail _ hd' => exact ih _ d' hd'

theorem ofDigits_mulAdd (b m carry : Nat) (ds : List Nat) :
    Nat.ofDigits b (mulAdd b m carry ds).2 + b ^ ds.length * (mulAdd b m carry ds).1 =
      carry + m * Nat.ofDigits b ds := by
  induction ds generalizing carry with
  | nil => simp [mulAdd]
  | cons d ds ih =>
      have hrest := ih ((carry + m * d) / b)
      have hdigit := Nat.div_add_mod (carry + m * d) b
      simp only [mulAdd, Nat.ofDigits_cons, List.length_cons]
      calc (carry + m * d) % b + b * Nat.ofDigits b (mulAdd b m ((carry + m * d) / b) ds).2 +
            b ^ (ds.length + 1) * (mulAdd b m ((carry + m * d) / b) ds).1
          = (carry + m * d) % b + b * (Nat.ofDigits b (mulAdd b m ((carry + m * d) / b) ds).2 +
              b ^ ds.length * (mulAdd b m ((carry + m * d) / b) ds).1) := by ring
        _ = (carry + m * d) % b + b * ((carry + m * d) / b + m * Nat.ofDigits b ds) := by rw [hrest]
        _ = (b * ((carry + m * d) / b) + (carry + m * d) % b) + b * (m * Nat.ofDigits b ds) := by ring
        _ = carry + m * d + b * (m * Nat.ofDigits b ds) := by rw [hdigit]
        _ = carry + m * (d + b * Nat.ofDigits b ds) := by ring

/-- With room for the number that the digits add up to, no carry is left. -/
theorem convert_eq_some (hb : 0 < b) (hcs : ∀ c ∈ cs, c < m) (hds : ∀ d ∈ ds, d < b)
    (hroom : (Nat.ofDigits b ds + 1) * m ^ cs.length ≤ b ^ ds.length) :
    ∃ ds', convert b m ds cs = some ds' ∧ (∀ d ∈ ds', d < b) ∧
      Nat.ofDigits b ds' = cs.foldl (fun n c => n * m + c) (Nat.ofDigits b ds) := by
  induction cs generalizing ds with
  | nil => exact ⟨ds, rfl, hds, rfl⟩
  | cons c cs ih =>
      obtain ⟨hc, hcs⟩ := List.forall_mem_cons.mp hcs
      have hvalue := ofDigits_mulAdd b m c ds
      have hlength := length_mulAdd b m c ds
      have hdigits := lt_of_mem_mulAdd (m := m) hb c ds
      rcases hstep : mulAdd b m c ds with ⟨carry, ds'⟩
      simp only [hstep] at hvalue hlength hdigits
      have hnext : (c + m * Nat.ofDigits b ds + 1) * m ^ cs.length ≤ b ^ ds.length := by
        refine le_trans ?_ hroom
        rw [List.length_cons, pow_succ']
        calc (c + m * Nat.ofDigits b ds + 1) * m ^ cs.length
            ≤ (m * (Nat.ofDigits b ds + 1)) * m ^ cs.length := by
              refine Nat.mul_le_mul_right _ ?_
              rw [Nat.mul_add]
              omega
          _ = (Nat.ofDigits b ds + 1) * (m * m ^ cs.length) := by ring
      have hcarry : carry = 0 := by
        by_contra hne
        have hpos : 0 < m ^ cs.length := Nat.pow_pos (Nat.zero_lt_of_lt hc)
        have hlow : b ^ ds.length ≤ b ^ ds.length * carry := Nat.le_mul_of_pos_right _ (Nat.pos_of_ne_zero hne)
        have hhigh : c + m * Nat.ofDigits b ds + 1 ≤ b ^ ds.length := (Nat.le_mul_of_pos_right _ hpos).trans hnext
        omega
      subst hcarry
      rw [Nat.mul_zero, Nat.add_zero] at hvalue
      obtain ⟨ds'', hconvert, hlt, heq⟩ := ih hcs hdigits (by rwa [hvalue, hlength])
      refine ⟨ds'', ?_, hlt, ?_⟩
      · rw [convert, hstep]
        exact hconvert
      · rw [heq, hvalue, List.foldl_cons, Nat.mul_comm m, Nat.add_comm c]

/-- From digits that are all zero. -/
theorem convert_replicate (size : Nat) (hb : 0 < b) (hcs : ∀ c ∈ cs, c < m) (hroom : m ^ cs.length ≤ b ^ size) :
    ∃ ds, convert b m (List.replicate size 0) cs = some ds ∧ (∀ d ∈ ds, d < b) ∧ Nat.ofDigits b ds = ofBe m cs := by
  have hzero : Nat.ofDigits b (List.replicate size 0) = 0 := by
    rw [← List.nil_append (List.replicate size 0), Nat.ofDigits_append_replicate_zero]
    rfl
  have hdigits : ∀ d ∈ List.replicate size 0, d < b := fun d hd => by rwa [List.eq_of_mem_replicate hd]
  obtain ⟨ds, hconvert, hlt, heq⟩ := convert_eq_some hb hcs hdigits (by simpa [hzero] using hroom)
  exact ⟨ds, hconvert, hlt, by rw [heq, hzero, ofBe]⟩

end Radix

/-!
## Bits in groups of another size

Digits of `p` bits are turned into digits of `q` bits, with the bits in between in a buffer. What has come is what went
out and what is in the buffer, as numbers and as lengths. With zeros behind the last digit nothing is left, and from
such digits the old ones come back.
-/

namespace Regroup

open Radix

variable {p q r r' z d left : Nat} {ds out ds' out' : List Nat}

/-- The digits `out`, and `r` more bits in the buffer. -/
structure Packs (p q : Nat) (ds out : List Nat) (r left : Nat) : Prop where
  value : ofBe (2 ^ p) ds = ofBe (2 ^ q) out * 2 ^ r + left
  lt : left < 2 ^ r
  length : p * ds.length = q * out.length + r
  bound : ∀ d ∈ out, d < 2 ^ q

/-- The digits `out` are those of `ds` with `z` zero bits behind them. -/
structure Pads (p q : Nat) (ds out : List Nat) (z : Nat) : Prop where
  value : ofBe (2 ^ q) out = ofBe (2 ^ p) ds * 2 ^ z
  length : q * out.length = p * ds.length + z
  bound : ∀ d ∈ out, d < 2 ^ q

/-! ## One digit -/

theorem ofBe_concat (b : Nat) (ds : List Nat) (d : Nat) : ofBe b (ds ++ [d]) = ofBe b ds * b + d := by
  simp [ofBe]

theorem Packs.nil (p q : Nat) : Packs p q [] [] 0 0 :=
  ⟨rfl, Nat.one_pos, by simp, fun d hd => (nomatch hd)⟩

/-- A digit comes into the buffer. -/
theorem Packs.take (h : Packs p q ds out r left) (hd : d < 2 ^ p) :
    Packs p q (ds ++ [d]) out (r + p) (left * 2 ^ p + d) := by
  refine ⟨?_, ?_, ?_, h.bound⟩
  · rw [ofBe_concat, h.value, pow_add]
    ring
  · rw [pow_add]
    calc left * 2 ^ p + d < left * 2 ^ p + 2 ^ p := Nat.add_lt_add_left hd _
      _ = (left + 1) * 2 ^ p := by ring
      _ ≤ 2 ^ r * 2 ^ p := Nat.mul_le_mul_right _ h.lt
  · rw [List.length_append, List.length_singleton, Nat.mul_add, Nat.mul_one, h.length, Nat.add_assoc]

/-- The first bits of the buffer go out. -/
theorem Packs.emit (h : Packs p q ds out (q + r) left) :
    Packs p q ds (out ++ [left / 2 ^ r]) r (left % 2 ^ r) := by
  have hlt := h.lt
  rw [pow_add] at hlt
  refine ⟨?_, Nat.mod_lt _ (Nat.two_pow_pos r), ?_, fun d hd => ?_⟩
  · have hdiv := Nat.div_add_mod left (2 ^ r)
    rw [h.value, ofBe_concat, pow_add]
    calc ofBe (2 ^ q) out * (2 ^ q * 2 ^ r) + left
        = ofBe (2 ^ q) out * (2 ^ q * 2 ^ r) + (2 ^ r * (left / 2 ^ r) + left % 2 ^ r) := by rw [hdiv]
      _ = (ofBe (2 ^ q) out * 2 ^ q + left / 2 ^ r) * 2 ^ r + left % 2 ^ r := by ring
  · rw [h.length, List.length_append, List.length_singleton, Nat.mul_add, Nat.mul_one, Nat.add_assoc]
  · rcases List.mem_append.1 hd with hd | hd
    · exact h.bound d hd
    · rw [List.mem_singleton.1 hd]
      exact Nat.div_lt_of_lt_mul (by rwa [Nat.mul_comm] at hlt)

/-- The end, with an empty buffer or with a last digit that is filled with zeros. -/
theorem Packs.pads (h : Packs p q ds out 0 left) : Pads p q ds out 0 := by
  have hleft : left = 0 := Nat.lt_one_iff.1 h.lt
  refine ⟨?_, h.length.symm, h.bound⟩
  rw [h.value, hleft, pow_zero, Nat.mul_one, Nat.mul_one, Nat.add_zero]

theorem Packs.fill (h : Packs p q ds out r left) (hr : r ≤ q) :
    Pads p q ds (out ++ [left * 2 ^ (q - r)]) (q - r) := by
  have hpow : 2 ^ q = 2 ^ r * 2 ^ (q - r) := by rw [← pow_add, Nat.add_sub_cancel' hr]
  refine ⟨?_, ?_, fun d hd => ?_⟩
  · rw [ofBe_concat, h.value, Nat.add_mul, Nat.mul_assoc, ← hpow]
  · have hlength := h.length
    rw [List.length_append, List.length_singleton, Nat.mul_add, Nat.mul_one]
    omega
  · rcases List.mem_append.1 hd with hd | hd
    · exact h.bound d hd
    · rw [List.mem_singleton.1 hd, hpow]
      exact Nat.mul_lt_mul_of_pos_right h.lt (Nat.two_pow_pos _)

/-! ## Back again -/

theorem ofBe_injective {b : Nat} (hb : 1 < b) (hlength : ds.length = ds'.length) (hds : ∀ d ∈ ds, d < b)
    (hds' : ∀ d ∈ ds', d < b) (h : ofBe b ds = ofBe b ds') : ds = ds' := by
  rw [ofBe_eq, ofBe_eq] at h
  refine List.reverse_injective (Nat.ofDigits_inj_of_len_eq hb (by simpa using hlength) ?_ ?_ h)
  · exact fun d hd => hds d (List.mem_reverse.1 hd)
  · exact fun d hd => hds' d (List.mem_reverse.1 hd)

/-- The zeros are left over when the digits are turned back, and nothing else is. -/
theorem Pads.unpack (h : Pads p q ds out z) (h' : Packs q p out ds' r left) (hp : 0 < p) (hds : ∀ d ∈ ds, d < 2 ^ p)
    (hz : z < p) (hr : r < p) : ds' = ds ∧ r = z ∧ left = 0 := by
  have hlength : p * ds'.length + r = p * ds.length + z := by rw [← h'.length, h.length]
  have hmod := congrArg (· % p) hlength
  simp only [Nat.mul_add_mod, Nat.mod_eq_of_lt hz, Nat.mod_eq_of_lt hr] at hmod
  subst hmod
  have hsize : ds'.length = ds.length := Nat.eq_of_mul_eq_mul_left hp (Nat.add_right_cancel hlength)
  have hvalue := h'.value
  rw [h.value] at hvalue
  have hleft := congrArg (· % 2 ^ r) hvalue
  simp only [Nat.mul_mod_left, Nat.mul_add_mod', Nat.mod_eq_of_lt h'.lt] at hleft
  rw [← hleft, Nat.add_zero] at hvalue
  have hdigits := Nat.eq_of_mul_eq_mul_right (Nat.two_pow_pos r) hvalue
  exact ⟨ofBe_injective (Nat.one_lt_two_pow hp.ne') hsize h'.bound hds hdigits.symm, rfl, hleft.symm⟩

/-- Digits that leave only zeros over are the ones that come out when what they stand for is turned back. -/
theorem Pads.unique (h : Pads p q ds out z) (h' : Packs q p out' ds r 0) (hq : 0 < q) (hout : ∀ d ∈ out', d < 2 ^ q)
    (hz : z < q) (hr : r < q) : out = out' ∧ z = r := by
  have hlength : q * out.length + r = q * out'.length + z := by
    rw [h.length, h'.length]
    ring
  have hmod := congrArg (· % q) hlength
  simp only [Nat.mul_add_mod, Nat.mod_eq_of_lt hz, Nat.mod_eq_of_lt hr] at hmod
  subst hmod
  have hsize : out.length = out'.length := Nat.eq_of_mul_eq_mul_left hq (Nat.add_right_cancel hlength)
  have hvalue : ofBe (2 ^ q) out = ofBe (2 ^ q) out' := by rw [h.value, h'.value, Nat.add_zero]
  exact ⟨ofBe_injective (Nat.one_lt_two_pow hq.ne') hsize h.bound hout hvalue, rfl⟩

/-! ## The buffer as bits -/

theorem shiftLeft_or (a : Nat) {e w : Nat} (he : e < 2 ^ w) : a <<< w ||| e = a * 2 ^ w + e := by
  rw [← Nat.shiftLeft_add_eq_or_of_lt he, Nat.shiftLeft_eq]

/-- The bits in front of the last `s`. -/
theorem shiftLeft_or_shiftRight (a : Nat) {e w s : Nat} (he : e < 2 ^ w) (hs : s ≤ w) :
    a <<< (w - s) ||| e >>> s = (a * 2 ^ w + e) / 2 ^ s := by
  have hpow : 2 ^ w = 2 ^ (w - s) * 2 ^ s := by rw [← pow_add, Nat.sub_add_cancel hs]
  have hlt : e >>> s < 2 ^ (w - s) := by
    rw [Nat.shiftRight_eq_div_pow]
    exact Nat.div_lt_of_lt_mul (by rwa [Nat.mul_comm, ← hpow])
  rw [shiftLeft_or a hlt, Nat.shiftRight_eq_div_pow, hpow, ← Nat.mul_assoc, Nat.mul_comm _ (2 ^ s),
    Nat.mul_add_div (Nat.two_pow_pos s)]

/-- The last `s` bits. -/
theorem and_mask (a : Nat) {e w s : Nat} (hs : s ≤ w) : e &&& (2 ^ s - 1) = (a * 2 ^ w + e) % 2 ^ s := by
  have hpow : 2 ^ w = 2 ^ s * 2 ^ (w - s) := by rw [← pow_add, Nat.add_sub_cancel' hs]
  rw [Nat.and_two_pow_sub_one_eq_mod, hpow, Nat.mul_left_comm, Nat.mul_add_mod]

/-- The `q` bits in front of the last `s`. -/
theorem shiftRight_and_mask (a : Nat) {e w s : Nat} (hs : q + s ≤ w) :
    e >>> s &&& (2 ^ q - 1) = (a * 2 ^ w + e) % 2 ^ (q + s) / 2 ^ s := by
  rw [← and_mask a hs, Nat.and_two_pow_sub_one_eq_mod, Nat.and_two_pow_sub_one_eq_mod, Nat.shiftRight_eq_div_pow,
    Nat.add_comm q s, pow_add, Nat.mod_mul_right_div_self]

end Regroup
