import Mathlib.Data.List.TakeWhile
import ProCurrency.Hd.Mnemonic

/-!
# A checksum is added behind the words

The words are groups of 11 bits of the entropy, so the entropy of some words gives the same words again, and then what
its padding and its hash make.
-/

namespace ProCurrency

namespace Mnemonic

open BitStream Tokens

/-! ## Word lists -/

section WordLists

variable {p pt pwl w : Bytes} {o i c : Nat} {f : Bool}

/-- What wordlists/ has: at most 2048 lines, and no zero byte. -/
structure IsWordList (pwl : Bytes) : Prop where
  noZero : 0 ∉ pwl
  lines : pwl.count 10 ≤ 2048

theorem getWord_zero (pt : Bytes) : getWord 0 pt = takeWord pt := by
  cases pt with
  | nil => rfl
  | cons b pt => rfl

theorem getWord_cons_of_ne {b : UInt8} (hb : b ≠ 10) (o : Nat) (pt : Bytes) :
    getWord (o + 1) (b :: pt) = getWord (o + 1) pt := by
  rw [getWord, getWord, skipWords, if_neg hb]
  cases pt with
  | nil => rfl
  | cons b' pt => rw [if_neg (List.cons_ne_nil _ _)]

theorem getWord_newline (o : Nat) (pt : Bytes) : getWord (o + 1) (10 :: pt) = getWord o pt := by
  rw [getWord, getWord, skipWords]
  cases pt with
  | nil =>
      cases o with
      | zero => rfl
      | succ o => rfl
  | cons b' pt => rw [if_neg (List.cons_ne_nil _ _), if_pos rfl]

/-- The loop stops at a line that is `p`: the one it is in, or a later one. -/
theorem findWord_spec (h : findWord p pt i c f = some o) :
    o < i + pt.count 10 ∧
      (o = i ∧ f = true ∧ c ≤ p.length ∧ takeWord pt = some (p.drop c) ∨ i < o ∧ getWord (o - i) pt = some p) := by
  induction pt generalizing i c f with
  | nil => cases h
  | cons b pt ih =>
      rw [findWord] at h
      split at h
      · rename_i hb
        subst hb
        rw [List.count_cons_self]
        split at h
        · rename_i hfound
          cases h
          refine ⟨by omega, Or.inl ⟨rfl, hfound.1, hfound.2.le, ?_⟩⟩
          rw [hfound.2, List.drop_length]
          rfl
        · obtain ⟨hlt, hline⟩ := ih h
          refine ⟨by omega, Or.inr ?_⟩
          rcases hline with ⟨rfl, -, -, htake⟩ | ⟨hlater, hget⟩
          · refine ⟨Nat.lt_succ_self i, ?_⟩
            rw [Nat.add_sub_cancel_left, getWord_newline, getWord_zero]
            exact htake
          · refine ⟨by omega, ?_⟩
            rw [show o - i = o - (i + 1) + 1 by omega, getWord_newline]
            exact hget
      · rename_i hb
        rw [List.count_cons_of_ne hb]
        have hlater {c' : Nat} {f' : Bool} (h : findWord p pt i c' f' = some o) (hlt : i < o)
            (hget : getWord (o - i) pt = some p) : getWord (o - i) (b :: pt) = some p := by
          rw [show o - i = o - i - 1 + 1 by omega] at hget ⊢
          rw [getWord_cons_of_ne hb]
          exact hget
        split at h
        · obtain ⟨hlt, ⟨-, hfalse, -⟩ | ⟨hlt', hget⟩⟩ := ih h
          · cases hfalse
          · exact ⟨hlt, Or.inr ⟨hlt', hlater h hlt' hget⟩⟩
        · rename_i hc
          split at h
          · obtain ⟨hlt, ⟨-, hfalse, -⟩ | ⟨hlt', hget⟩⟩ := ih h
            · cases hfalse
            · exact ⟨hlt, Or.inr ⟨hlt', hlater h hlt' hget⟩⟩
          · rename_i hsame
            obtain ⟨hlt, ⟨rfl, hf, -, htake⟩ | ⟨hlt', hget⟩⟩ := ih h
            · have hclt := Nat.lt_of_not_le hc
              have hchar : p.getD c 0 = b := by
                by_contra hne
                exact hsame ⟨hf, hne⟩
              refine ⟨hlt, Or.inl ⟨rfl, hf, hclt.le, ?_⟩⟩
              rw [takeWord, if_neg hb, htake, List.drop_eq_getElem_cons hclt]
              rw [List.getD_eq_getElem _ _ hclt] at hchar
              rw [hchar]
              rfl
            · exact ⟨hlt, Or.inr ⟨hlt', hlater h hlt' hget⟩⟩

/-- A word is at the offset where it is found. -/
theorem getWord_of_offset (h : getWordOffset p pwl = some o) : getWord o pwl = some p ∧ o < pwl.count 10 := by
  obtain ⟨hlt, ⟨rfl, -, -, htake⟩ | ⟨hpos, hget⟩⟩ := findWord_spec h
  · exact ⟨(getWord_zero pwl).trans htake, by omega⟩
  · exact ⟨hget, by omega⟩

theorem mem_of_takeWord (h : takeWord pt = some w) {b : UInt8} (hb : b ∈ w) : b ∈ pt := by
  induction pt generalizing w with
  | nil => cases h
  | cons a pt ih =>
      rw [takeWord] at h
      split at h
      · cases h
        cases hb
      · obtain ⟨w', hw', rfl⟩ := Option.map_eq_some_iff.mp h
        rcases List.mem_cons.mp hb with rfl | hb
        · exact List.mem_cons_self
        · exact List.mem_cons_of_mem a (ih hw' hb)

theorem mem_of_getWord (h : getWord o pwl = some w) {b : UInt8} (hb : b ∈ w) : b ∈ pwl := by
  obtain ⟨pt, hskip, htake⟩ := Option.bind_eq_some_iff.mp h
  have hmem := mem_of_takeWord htake hb
  clear h htake
  induction pwl generalizing o with
  | nil =>
      cases o with
      | zero =>
          cases hskip
          exact hmem
      | succ o => cases hskip
  | cons a pwl ih =>
      cases o with
      | zero =>
          cases hskip
          exact hmem
      | succ o =>
          rw [skipWords] at hskip
          split at hskip
          · cases hskip
          · split at hskip
            · exact List.mem_cons_of_mem a (ih hskip)
            · exact List.mem_cons_of_mem a (ih hskip)

end WordLists

/-! ## Groups of 11 bits -/

section Groups

variable {v vIn : Bytes} {i j o t : Nat} {ints : List Nat}

/-- Bit `j` of a word that is written from bit `i` on. -/
def inWord (o i j : Nat) : Bool := decide (i ≤ j ∧ j < i + 11) && o.testBit (10 - (j - i))

theorem testBit_mask (b : Nat) : Nat.testBit 0x7ff b = decide (b < 11) := Nat.testBit_two_pow_sub_one 11 b

theorem inWord_inside (hlow : i ≤ j) (hhigh : j < i + 11) : inWord o i j = o.testBit (10 - (j - i)) := by
  rw [inWord, decide_eq_true ⟨hlow, hhigh⟩, Bool.true_and]

theorem inWord_outside (h : j < i ∨ i + 11 ≤ j) : inWord o i j = false := by
  rw [inWord, decide_eq_false (by omega), Bool.false_and]

theorem first_part (ho : o < 2 ^ 11) (hj : j / 8 = i / 8) :
    ((o >>> (i % 8 + 3)) &&& 0x7ff).testBit (7 - j % 8) = inWord o i j := by
  rw [Nat.testBit_and, testBit_mask, Nat.testBit_shiftRight, decide_eq_true (by omega), Bool.and_true]
  rcases Nat.lt_or_ge j i with hlt | hge
  · rw [inWord_outside (Or.inl hlt)]
    exact testBit_of_lt_width ho (by omega)
  · rw [inWord_inside hge (by omega)]
    exact congrArg o.testBit (by omega)

theorem second_part_right (hj : j / 8 = i / 8 + 1) (hr : 5 < i % 8) :
    ((o >>> (i % 8 - 5)) &&& 0x7ff).testBit (7 - j % 8) = inWord o i j := by
  rw [Nat.testBit_and, testBit_mask, Nat.testBit_shiftRight, decide_eq_true (by omega), Bool.and_true,
    inWord_inside (by omega) (by omega)]
  exact congrArg o.testBit (by omega)

theorem shifted_part {k : Nat} (hk : 7 - j % 8 < k ∧ i + 11 ≤ j ∨ k ≤ 7 - j % 8 ∧ i ≤ j ∧ j < i + 11 ∧
    7 - j % 8 - k = 10 - (j - i)) : ((o <<< k) &&& 0x7ff).testBit (7 - j % 8) = inWord o i j := by
  rw [Nat.testBit_and, testBit_mask, Nat.testBit_shiftLeft, decide_eq_true (show 7 - j % 8 < 11 by omega), Bool.and_true]
  rcases hk with ⟨hlt, hout⟩ | ⟨hle, hlow, hhigh, heq⟩
  · rw [decide_eq_false (by omega), Bool.false_and, inWord_outside (Or.inr hout)]
  · rw [decide_eq_true hle, Bool.true_and, inWord_inside hlow hhigh, heq]

@[simp] theorem length_setWord (v : Bytes) (i o : Nat) : (setWord v i o).length = v.length := by
  unfold setWord
  dsimp only
  split_ifs <;> simp

/-- Of a word nothing is lost: the bytes that it needs are there. -/
theorem bitAt_setWord (hroom : i + 11 ≤ 8 * v.length) (ho : o < 2 ^ 11) (j : Nat) :
    bitAt (setWord v i o) j = (bitAt v j || inWord o i j) := by
  have hsecond : i / 8 + 1 < v.length := by omega
  unfold setWord
  dsimp only
  rw [if_pos hsecond]
  by_cases hr : 5 < i % 8
  · have hthird : i / 8 + 2 < v.length := by omega
    rw [if_pos hr, if_pos hthird, bitAt_orByte (by simpa using hthird), bitAt_orByte (by simpa using hsecond),
      bitAt_orByte (by omega)]
    by_cases h₀ : j / 8 = i / 8
    · rw [first_part ho h₀, decide_eq_true h₀, decide_eq_false (by omega), decide_eq_false (by omega)]
      simp
    · by_cases h₁ : j / 8 = i / 8 + 1
      · rw [second_part_right h₁ hr, decide_eq_true h₁, decide_eq_false (by omega), decide_eq_false (by omega)]
        simp
      · by_cases h₂ : j / 8 = i / 8 + 2
        · rw [shifted_part (i := i) (by omega), decide_eq_true h₂, decide_eq_false (by omega),
            decide_eq_false (by omega)]
          simp
        · rw [decide_eq_false h₀, decide_eq_false h₁, decide_eq_false h₂, inWord_outside (by omega)]
          simp
  · rw [if_neg hr, bitAt_orByte (by simpa using hsecond), bitAt_orByte (by omega)]
    by_cases h₀ : j / 8 = i / 8
    · rw [first_part ho h₀, decide_eq_true h₀, decide_eq_false (by omega)]
      simp
    · by_cases h₁ : j / 8 = i / 8 + 1
      · rw [shifted_part (i := i) (by omega), decide_eq_true h₁, decide_eq_false (by omega)]
        simp
      · rw [decide_eq_false h₀, decide_eq_false h₁, inWord_outside (by omega)]
        simp

@[simp] theorem length_setWords (v : Bytes) (i : Nat) (ints : List Nat) : (setWords v i ints).length = v.length := by
  induction ints generalizing v i with
  | nil => rfl
  | cons o ints ih => rw [setWords, ih, length_setWord]

/-- The words stand one behind the other. -/
theorem bitAt_setWords (v : Bytes) (i : Nat) (hroom : i + 11 * ints.length ≤ 8 * v.length)
    (hints : ∀ o ∈ ints, o < 2 ^ 11) (j : Nat) : bitAt (setWords v i ints) j =
      (bitAt v j || decide (i ≤ j) && (ints.getD ((j - i) / 11) 0).testBit (10 - (j - i) % 11)) := by
  induction ints generalizing v i with
  | nil =>
      rw [setWords, List.getD_nil, Nat.zero_testBit]
      simp
  | cons o ints ih =>
      rw [List.length_cons] at hroom
      rw [setWords, ih _ _ (by rw [length_setWord]; omega) fun o' ho' => hints o' (List.mem_cons_of_mem o ho'),
        bitAt_setWord (by omega) (hints o List.mem_cons_self), Bool.or_assoc]
      refine congrArg (bitAt v j || ·) ?_
      rcases Nat.lt_or_ge j i with hlt | hge
      · rw [inWord_outside (Or.inl hlt), decide_eq_false (by omega), decide_eq_false (by omega)]
        rfl
      · rcases Nat.lt_or_ge j (i + 11) with hin | hout
        · have hdiv : (j - i) / 11 = 0 := by omega
          have hmod : (j - i) % 11 = j - i := by omega
          rw [inWord_inside hge hin, decide_eq_false (by omega), decide_eq_true hge, hdiv, hmod]
          simp
        · have hdiv : (j - i) / 11 = (j - (i + 11)) / 11 + 1 := by omega
          have hmod : (j - i) % 11 = (j - (i + 11)) % 11 := by omega
          rw [inWord_outside (Or.inr hout), decide_eq_true hout, decide_eq_true hge, hdiv, hmod, List.getD_cons_succ]
          simp

theorem wordAt_lt (vIn : Bytes) (i : Nat) : wordAt vIn i < 2 ^ 11 := by
  unfold wordAt
  dsimp only
  split
  · exact Nat.and_lt_two_pow _ (by decide)
  · exact Nat.and_lt_two_pow _ (by decide)

/-- A word is read as the bits that it has in the stream. -/
theorem testBit_wordAt (vIn : Bytes) (i : Nat) (ht : t < 11) :
    (wordAt vIn i).testBit (10 - t) = bitAt vIn (i + t) := by
  have hbyte (s b : Nat) (hb : 8 ≤ b) : (vIn.getD s 0).toNat.testBit b = false :=
    testBit_of_lt_width (vIn.getD s 0).toNat_lt hb
  have hlow : Nat.testBit 0xff (10 - t - 3) = decide (10 - t - 3 < 8) := Nat.testBit_two_pow_sub_one 8 _
  unfold wordAt bitAt
  dsimp only
  by_cases hr : 5 < i % 8
  · rw [if_pos hr]
    simp only [Nat.testBit_and, Nat.testBit_or, Nat.testBit_shiftLeft, Nat.testBit_shiftRight, testBit_mask, hlow]
    rw [decide_eq_true (show 10 - t < 11 by omega), decide_eq_true (show 10 - t - 3 < 8 by omega), Bool.and_true,
      Bool.and_true]
    rcases Nat.lt_or_ge (i % 8 + t) 8 with h₁ | h₁
    · have hs : (i + t) / 8 = i / 8 := by omega
      have hb : 10 - t - (11 - 8) - i % 8 = 7 - (i + t) % 8 := by omega
      rw [hs, hb, decide_eq_true (show 10 - t ≥ 11 - 8 by omega), decide_eq_true (show 10 - t - (11 - 8) ≥ i % 8 by omega),
        hbyte (i / 8 + 1) _ (by omega), hbyte (i / 8 + 2) _ (by omega)]
      simp
    · rcases Nat.lt_or_ge (i % 8 + t) 16 with h₂ | h₂
      · have hs : (i + t) / 8 = i / 8 + 1 := by omega
        have hb : 10 - t - (i % 8 - 5) = 7 - (i + t) % 8 := by omega
        rw [hs, hb, decide_eq_true (show 10 - t ≥ i % 8 - 5 by omega), hbyte (i / 8 + 2) _ (by omega),
          show decide (10 - t - (11 - 8) ≥ i % 8) = false from decide_eq_false (by omega)]
        simp
      · have hs : (i + t) / 8 = i / 8 + 2 := by omega
        have hb : 8 - (i % 8 - 5) + (10 - t) = 7 - (i + t) % 8 := by omega
        rw [hs, hb, show decide (10 - t ≥ i % 8 - 5) = false from decide_eq_false (by omega),
          show decide (10 - t - (11 - 8) ≥ i % 8) = false from decide_eq_false (by omega)]
        simp
  · rw [if_neg hr]
    simp only [Nat.testBit_and, Nat.testBit_or, Nat.testBit_shiftLeft, Nat.testBit_shiftRight, testBit_mask, hlow]
    rw [decide_eq_true (show 10 - t < 11 by omega), decide_eq_true (show 10 - t - 3 < 8 by omega), Bool.and_true,
      Bool.and_true]
    rcases Nat.lt_or_ge (i % 8 + t) 8 with h₁ | h₁
    · have hs : (i + t) / 8 = i / 8 := by omega
      have hb : 10 - t - (11 - 8) - i % 8 = 7 - (i + t) % 8 := by omega
      rw [hs, hb, decide_eq_true (show 10 - t ≥ 11 - 8 by omega), decide_eq_true (show 10 - t - (11 - 8) ≥ i % 8 by omega),
        hbyte (i / 8 + 1) _ (by omega)]
      simp
    · have hs : (i + t) / 8 = i / 8 + 1 := by omega
      have hb : 8 - (11 - 8) - i % 8 + (10 - t) = 7 - (i + t) % 8 := by omega
      rw [hs, hb]
      rcases Nat.lt_or_ge t 8 with h₂ | h₂
      · rw [show decide (10 - t - (11 - 8) ≥ i % 8) = false from decide_eq_false (by omega)]
        simp
      · rw [show decide (10 - t ≥ 11 - 8) = false from decide_eq_false (by omega)]
        simp

/-- The entropy of some words gives the words again. -/
theorem wordsOf_entropyOf (sha256 : Bytes → Bytes) (hints : ∀ o ∈ ints, o < 2 ^ 11) :
    ∃ extra, wordsOf sha256 (entropyOf ints) = ints ++ extra := by
  have hlen : (entropyOf ints).length = ints.length * 11 / 8 + if ints.length * 11 % 8 = 0 then 0 else 1 := by
    rw [entropyOf, length_setWords, List.length_replicate]
  have hroom : 11 * ints.length ≤ 8 * (entropyOf ints).length := by
    rw [hlen]
    split
    · omega
    · omega
  have hbits (j : Nat) (hj : j < 11 * ints.length) :
      bitAt (entropyOf ints) j = (ints.getD (j / 11) 0).testBit (10 - j % 11) := by
    have hstream := bitAt_setWords (List.replicate (entropyOf ints).length 0) 0
      (by rw [List.length_replicate]; omega) hints j
    rw [bitAt_replicate_zero, Bool.false_or, decide_eq_true (Nat.zero_le j), Bool.true_and, Nat.sub_zero] at hstream
    rw [← hstream, hlen]
    rfl
  unfold wordsOf
  dsimp only
  generalize (sha256 (entropyOf ints)).take _ ++ _ = vTmp
  refine ⟨_, (List.prefix_iff_eq_append.mp (List.prefix_iff_eq_take.mpr ?_)).symm⟩
  refine List.ext_getElem ?_ fun k hk hk' => ?_
  · rw [List.length_take, List.length_map, List.length_range]
    omega
  · rw [List.getElem_take, List.getElem_map, List.getElem_range]
    refine (eq_of_window 11 (wordAt_lt _ _) (hints _ (List.getElem_mem hk)) fun t ht => ?_).symm
    have hdiv : (11 * k + t) / 11 = k := by omega
    have hmod : (11 * k + t) % 11 = t := by omega
    have hword := testBit_wordAt (entropyOf ints ++ vTmp) (11 * k) ht
    rw [bitAt_append (by omega), hbits _ (by omega), hdiv, hmod, List.getD_eq_getElem _ _ hk] at hword
    exact hword

end Groups

/-! ## Separators -/

section Separators

variable {a rest s : Bytes} {b c : UInt8}

/-- `ReplaceStrInPlace(s, "\u3000", " ")`. -/
abbrev narrowed (s : Bytes) : Bytes := replaceStrInPlace s wide [32]

/-- `ReplaceStrInPlace(s, " ", "\u3000")`. -/
abbrev widened (s : Bytes) : Bytes := replaceStrInPlace s [32] wide

theorem mem_replaceFrom {search replace : Bytes} (skip : Nat) (h : b ∈ replaceFrom search replace skip s) :
    b ∈ s ∨ b ∈ replace := by
  induction s generalizing skip with
  | nil =>
      cases skip with
      | zero => cases h
      | succ skip => cases h
  | cons c s ih =>
      cases skip with
      | succ skip => exact (ih skip h).imp_left (List.mem_cons_of_mem c)
      | zero =>
          rw [replaceFrom] at h
          split at h
          · rcases List.mem_append.mp h with h | h
            · exact Or.inr h
            · exact (ih _ h).imp_left (List.mem_cons_of_mem c)
          · rcases List.mem_cons.mp h with rfl | h
            · exact Or.inl List.mem_cons_self
            · exact (ih _ h).imp_left (List.mem_cons_of_mem c)

theorem narrowed_wide (s : Bytes) : narrowed (wide ++ s) = 32 :: narrowed s := rfl

theorem narrowed_cons (h : ¬wide <+: c :: s) : narrowed (c :: s) = c :: narrowed s := by
  rw [narrowed, replaceStrInPlace, replaceFrom, if_neg fun hfront => h (List.isPrefixOf_iff_prefix.mp hfront)]
  rfl

/-- The scan goes from match to match. -/
theorem narrowed_induction {motive : Bytes → Prop} (nil : motive []) (wide : ∀ s, motive s → motive (wide ++ s))
    (cons : ∀ c s, ¬Mnemonic.wide <+: c :: s → motive s → motive (c :: s)) (s : Bytes) : motive s := by
  induction hlen : s.length using Nat.strong_induction_on generalizing s with
  | _ n ih =>
      cases s with
      | nil => exact nil
      | cons c s =>
          by_cases hfront : Mnemonic.wide <+: c :: s
          · obtain ⟨s', hs'⟩ := hfront
            rw [← hs'] at hlen ⊢
            have hshort : s'.length < n := by
              rw [← hlen, List.length_append]
              exact Nat.lt_add_of_pos_left (Nat.zero_lt_succ 2)
            exact wide s' (ih s'.length hshort s' rfl)
          · exact cons c s hfront (ih s.length (by rw [← hlen]; exact Nat.lt_succ_self _) s rfl)

/-- No match reaches into what does not go on with its second byte. -/
theorem not_prefix_append (hb : b ≠ 0x80) (h : ¬wide <+: c :: a) : ¬wide <+: c :: a ++ b :: rest := by
  intro hfront
  match a with
  | [] =>
      obtain ⟨-, hsecond, -⟩ := List.cons_prefix_cons.mp hfront |>.imp_right List.cons_prefix_cons.mp
      exact hb hsecond.symm
  | [d] =>
      obtain ⟨-, -, hthird, -⟩ := List.cons_prefix_cons.mp hfront |>.imp_right fun h =>
        (List.cons_prefix_cons.mp h).imp_right List.cons_prefix_cons.mp
      exact hb hthird.symm
  | d :: d' :: a =>
      obtain ⟨h₁, h₂, h₃, -⟩ := List.cons_prefix_cons.mp hfront |>.imp_right fun h =>
        (List.cons_prefix_cons.mp h).imp_right List.cons_prefix_cons.mp
      subst h₁ h₂ h₃
      exact h (List.prefix_append wide a)

theorem narrowed_append (hb : b ≠ 0x80) (a rest : Bytes) :
    narrowed (a ++ b :: rest) = narrowed a ++ narrowed (b :: rest) := by
  induction a using narrowed_induction with
  | nil => rfl
  | wide s ih => rw [List.append_assoc, narrowed_wide, ih, narrowed_wide, List.cons_append]
  | cons c s h ih =>
      have hno : ¬wide <+: c :: (s ++ b :: rest) := not_prefix_append hb h
      rw [List.cons_append, narrowed_cons hno, ih, narrowed_cons h, List.cons_append]

theorem narrowed_eq_self (h : ¬wide <:+: s) : narrowed s = s := by
  induction s with
  | nil => rfl
  | cons c s ih =>
      rw [narrowed_cons fun hfront => h hfront.isInfix,
        ih fun hmiddle => h (List.IsInfix.trans hmiddle (List.suffix_cons c s).isInfix)]

theorem head_of_narrowed (hb : b ≠ 32) (h : narrowed s = b :: rest) : ∃ s', s = b :: s' ∧ narrowed s' = rest := by
  induction s using narrowed_induction with
  | nil => cases h
  | wide s _ =>
      rw [narrowed_wide] at h
      exact absurd (List.cons.inj h).1.symm hb
  | cons c s hno _ =>
      rw [narrowed_cons hno] at h
      obtain ⟨rfl, hrest⟩ := List.cons.inj h
      exact ⟨s, rfl, hrest⟩

/-- No ideographic space is left. -/
theorem not_infix_narrowed (s : Bytes) : ¬wide <:+: narrowed s := by
  induction s using narrowed_induction with
  | nil => exact fun h => absurd (List.infix_nil.mp h) (List.cons_ne_nil _ _)
  | wide s ih =>
      rw [narrowed_wide]
      intro h
      rcases List.infix_cons_iff.mp h with hfront | hmiddle
      · exact absurd (List.cons_prefix_cons.mp hfront).1 (by decide)
      · exact ih hmiddle
  | cons c s hno ih =>
      rw [narrowed_cons hno]
      intro h
      rcases List.infix_cons_iff.mp h with hfront | hmiddle
      · obtain ⟨hc, rest, hrest⟩ := List.cons_prefix_cons.mp hfront
        obtain ⟨s₁, rfl, h₁⟩ := head_of_narrowed (b := 0x80) (by decide) hrest.symm
        obtain ⟨s₂, rfl, -⟩ := head_of_narrowed (b := 0x80) (by decide) h₁
        subst hc
        exact hno (List.prefix_append wide s₂)
      · exact ih hmiddle

theorem zero_mem_narrowed (h : 0 ∈ s) : 0 ∈ narrowed s := by
  induction s using narrowed_induction with
  | nil => cases h
  | wide s ih =>
      rw [narrowed_wide]
      refine List.mem_cons_of_mem 32 (ih ((List.mem_append.mp h).resolve_left ?_))
      decide
  | cons c s hno ih =>
      rw [narrowed_cons hno]
      rcases List.mem_cons.mp h with rfl | h
      · exact List.mem_cons_self
      · exact List.mem_cons_of_mem c (ih h)

theorem widened_cons (hc : c ≠ 32) (s : Bytes) : widened (c :: s) = c :: widened s := by
  rw [widened, replaceStrInPlace, replaceFrom, if_neg]
  · rfl
  · intro hfront
    exact hc (List.cons_prefix_cons.mp (List.isPrefixOf_iff_prefix.mp hfront)).1.symm

theorem widened_append (ha : 32 ∉ a) (s : Bytes) : widened (a ++ s) = a ++ widened s := by
  induction a with
  | nil => rfl
  | cons c a ih =>
      rw [List.cons_append, widened_cons fun h => ha (h ▸ List.mem_cons_self),
        ih fun h => ha (List.mem_cons_of_mem c h), List.cons_append]

end Separators

/-! ## The words of a list -/

section Words

variable {t sWordList : Bytes} {ts es : List Bytes}

/-- The words of a list, with spaces between them or ideographic spaces. -/
def words (sWordList : Bytes) : List Bytes := tokens 32 (narrowed sWordList)

/-- What a word of a list is like. -/
structure IsWord (t : Bytes) : Prop where
  nonempty : t ≠ []
  noSpace : 32 ∉ t
  noWide : ¬wide <:+: t

theorem IsWord.of_mem (h : t ∈ words sWordList) : IsWord t := by
  obtain ⟨hne, hspace⟩ := token_of_mem h
  have hmiddle := infix_of_mem_splitOn (List.mem_of_mem_filter h)
  exact ⟨hne, hspace, fun hwide => not_infix_narrowed sWordList (hwide.trans hmiddle)⟩

/-- The words, with spaces between them. -/
def joined (ws : List Bytes) : Bytes :=
  ws.foldl (fun sWordList w => (if sWordList ≠ [] then sWordList ++ [32] else sWordList) ++ w) []

theorem foldl_join {acc : Bytes} (hacc : acc ≠ []) (ws : List Bytes) :
    ws.foldl (fun sWordList w => (if sWordList ≠ [] then sWordList ++ [32] else sWordList) ++ w) acc =
      acc ++ ws.flatMap (32 :: ·) := by
  induction ws generalizing acc with
  | nil => exact (List.append_nil acc).symm
  | cons w ws ih =>
      rw [List.foldl_cons, if_pos hacc, ih (by simp), List.flatMap_cons]
      simp

theorem joined_cons (ht : t ≠ []) (ws : List Bytes) : joined (t :: ws) = t ++ ws.flatMap (32 :: ·) :=
  foldl_join ht ws

/-- The two ways a list is read back: as it is, or with its spaces widened before. -/
structure Rereads (N : Bytes → Bytes) : Prop where
  word : ∀ t, IsWord t → N t = t
  space : ∀ t rest, IsWord t → N (t ++ 32 :: rest) = t ++ 32 :: N rest

theorem rereads_narrowed : Rereads narrowed where
  word _ ht := narrowed_eq_self ht.noWide
  space t rest ht := by
    rw [narrowed_append (by decide), narrowed_eq_self ht.noWide, narrowed_cons]
    exact fun h => absurd (List.cons_prefix_cons.mp h).1 (by decide)

theorem rereads_widened : Rereads fun s => narrowed (widened s) where
  word t ht := by
    have hwiden := widened_append ht.noSpace []
    rw [List.append_nil] at hwiden
    rw [hwiden]
    exact (congrArg narrowed (List.append_nil t)).trans (narrowed_eq_self ht.noWide)
  space t rest ht := by
    have hsep : widened (32 :: rest) = 0xe3 :: ([0x80, 0x80] ++ widened rest) := rfl
    rw [widened_append ht.noSpace, hsep, narrowed_append (by decide), narrowed_eq_self ht.noWide]
    rfl

/-- The words in front are read again. -/
theorem tokens_joined {N : Bytes → Bytes} (hN : Rereads N) (hts : ∀ t ∈ ts, IsWord t) (es : List Bytes) :
    ts <+: tokens 32 (N (joined (ts ++ es))) := by
  induction ts with
  | nil => exact List.nil_prefix
  | cons t ts ih =>
      have ht := hts t List.mem_cons_self
      have hrest (w : Bytes) (ws : List Bytes) : tokens 32 (N (t ++ (w :: ws).flatMap (32 :: ·))) =
          t :: tokens 32 (N (w ++ ws.flatMap (32 :: ·))) := by
        rw [List.flatMap_cons, List.cons_append, hN.space t _ ht, tokens_token_cons ht.nonempty ht.noSpace]
      have ih := ih fun t' ht' => hts t' (List.mem_cons_of_mem t ht')
      rw [List.cons_append, joined_cons ht.nonempty]
      cases ts with
      | nil =>
          cases es with
          | nil =>
              have hlast : tokens 32 (N (t ++ ([] ++ []).flatMap (32 :: ·))) = [t] := by
                rw [List.nil_append, List.flatMap_nil, List.append_nil, hN.word t ht,
                  tokens_token ht.nonempty ht.noSpace]
              exact Eq.subst (motive := fun ws => [t] <+: ws) hlast.symm (List.prefix_refl [t])
          | cons e es =>
              rw [List.nil_append, hrest]
              exact List.cons_prefix_cons.mpr ⟨rfl, List.nil_prefix⟩
      | cons t' ts =>
          rw [List.cons_append, joined_cons (hts t' (List.mem_cons_of_mem t List.mem_cons_self)).nonempty] at ih
          rw [List.cons_append, hrest]
          exact List.cons_prefix_cons.mpr ⟨rfl, ih⟩

end Words

/-! ## Adding the checksum -/

section AddChecksum

variable {sha256 : Bytes → Bytes} {mnLanguages : Nat → Bytes} {nLanguage nLanguageIn : Int}
  {pwl acc sWordListIn sWordListOut vEntropy : Bytes} {ps : List Bytes} {ints : List Nat} {fIgnoreChecksum : Bool}

theorem wordInts_ok (h : wordInts pwl ps = .ok ints) :
    ints.map (getWord · pwl) = ps.map some ∧ ∀ o ∈ ints, o < pwl.count 10 := by
  induction ps generalizing ints with
  | nil =>
      cases h
      exact ⟨rfl, fun o ho => absurd ho List.not_mem_nil⟩
  | cons p ps ih =>
      rw [wordInts] at h
      split at h
      · cases h
      · rename_i ofs hofs
        split at h
        · cases h
        · rename_i ints' hints'
          cases h
          obtain ⟨hmap, hlt⟩ := ih hints'
          obtain ⟨hget, hofslt⟩ := getWord_of_offset hofs
          refine ⟨?_, ?_⟩
          · rw [List.map_cons, List.map_cons, hget, hmap]
          · exact fun o ho => (List.mem_cons.mp ho).elim (fun h => h ▸ hofslt) (hlt o)

theorem appendWords_ok {vWord : List Nat} {s : Bytes} (h : appendWords pwl acc vWord = .ok s) :
    ∃ ws : List Bytes, vWord.map (getWord · pwl) = ws.map some ∧
      s = ws.foldl (fun sWordList w => (if sWordList ≠ [] then sWordList ++ [32] else sWordList) ++ w) acc := by
  induction vWord generalizing acc with
  | nil =>
      cases h
      exact ⟨[], rfl, rfl⟩
  | cons o vWord ih =>
      rw [appendWords] at h
      split at h
      · cases h
      · rename_i sWord hword
        obtain ⟨ws, hws, hs⟩ := ih h
        refine ⟨sWord :: ws, ?_, hs⟩
        rw [List.map_cons, List.map_cons, hword, hws]

theorem zero_not_mem_joined {ws : List Bytes} (hws : ∀ w ∈ ws, 0 ∉ w) {acc : Bytes} (hacc : 0 ∉ acc) :
    0 ∉ ws.foldl (fun sWordList w => (if sWordList ≠ [] then sWordList ++ [32] else sWordList) ++ w) acc := by
  induction ws generalizing acc with
  | nil => exact hacc
  | cons w ws ih =>
      refine ih (fun w' hw' => hws w' (List.mem_cons_of_mem w hw')) ?_
      intro h
      rcases List.mem_append.mp h with h | h
      · split at h
        · exact (List.mem_append.mp h).elim hacc (by decide)
        · exact hacc h
      · exact hws w List.mem_cons_self h

theorem mnemonicDecode_ok (h : mnemonicDecode sha256 mnLanguages nLanguage sWordListIn true = .ok vEntropy)
    (hlanguage : nLanguage ≠ -1) :
    ∃ pwl ints, wordList mnLanguages nLanguage = .ok pwl ∧ wordInts pwl (strtok (narrowed sWordListIn)) = .ok ints ∧
      vEntropy = entropyOf ints := by
  unfold mnemonicDecode at h
  dsimp only at h
  rw [if_neg hlanguage] at h
  split at h
  · cases h
  split at h
  · cases h
  split at h
  · cases h
  rename_i pwl hpwl
  split at h
  · cases h
  rename_i ints hints
  split at h
  · cases h
  · cases h
    exact ⟨pwl, ints, hpwl, hints, rfl⟩

theorem mnemonicEncode_ok (h : mnemonicEncode sha256 mnLanguages nLanguage vEntropy acc = .ok sWordListOut) :
    1 ≤ nLanguage ∧ ∃ pwl s, wordList mnLanguages nLanguage = .ok pwl ∧
      appendWords pwl acc (wordsOf sha256 vEntropy) = .ok s ∧ (sWordListOut = s ∨ sWordListOut = widened s) := by
  unfold mnemonicEncode at h
  split at h
  · cases h
  rename_i hlanguage
  split at h
  · cases h
  split at h
  · cases h
  rename_i pwl hpwl
  split at h
  · cases h
  rename_i s hs
  refine ⟨by omega, pwl, s, hpwl, hs, ?_⟩
  cases h
  split
  · exact Or.inr rfl
  · exact Or.inl rfl

/-- Without a zero byte all words are kept; the words behind one are not even read. -/
theorem mnemonicAddChecksum_keeps (hlists : ∀ l, IsWordList (mnLanguages l))
    (h : mnemonicAddChecksum sha256 mnLanguages nLanguageIn sWordListIn [] = .ok sWordListOut) :
    (words sWordListIn <+: words sWordListOut ∧ ∃ vEntropy, mnemonicDecode sha256 mnLanguages
      (languageFor mnLanguages nLanguageIn sWordListIn) sWordListOut false = .ok vEntropy) ↔ 0 ∉ sWordListIn := by
  unfold mnemonicAddChecksum at h
  dsimp only at h
  split at h
  · cases h
  rename_i vEntropy hdecode
  split at h
  · cases h
  rename_i out hencode
  split at h
  · cases h
  rename_i vEntropy' haccept
  cases h
  obtain ⟨hlanguage, pwl, s, hpwl, hs, hout⟩ := mnemonicEncode_ok hencode
  obtain ⟨pwl', ints, hpwl', hints, rfl⟩ := mnemonicDecode_ok hdecode (by omega)
  have hsame : pwl' = pwl := Except.ok.inj (hpwl'.symm.trans hpwl)
  subst hsame
  have hlist : IsWordList pwl' := by
    unfold wordList at hpwl'
    split at hpwl'
    · cases hpwl'
      exact hlists _
    · cases hpwl'
  obtain ⟨hwords, hlt⟩ := wordInts_ok hints
  obtain ⟨extra, hextra⟩ := wordsOf_entropyOf sha256 fun o ho => Nat.lt_of_lt_of_le (hlt o ho) hlist.lines
  obtain ⟨ws, hws, hjoined⟩ := appendWords_ok hs
  refine ⟨?_, ?_⟩
  · rintro ⟨hfront, -⟩ hzero
    have hzeroSpace : (0 : UInt8) ≠ 32 := by decide
    obtain ⟨w, hw, hw0⟩ := (mem_tokens hzeroSpace _).mpr (zero_mem_narrowed hzero)
    have hmem : 0 ∈ narrowed sWordListOut := (mem_tokens hzeroSpace _).mp ⟨w, hfront.subset hw, hw0⟩
    have hclean : 0 ∉ s := by
      rw [hjoined]
      refine zero_not_mem_joined (fun w' hw' h0 => ?_) List.not_mem_nil
      have hw'' : some w' ∈ (wordsOf sha256 (entropyOf ints)).map (getWord · pwl') := by
        rw [hws]
        exact List.mem_map_of_mem hw'
      obtain ⟨o, -, ho⟩ := List.mem_map.mp hw''
      exact hlist.noZero (mem_of_getWord ho h0)
    have hout0 : 0 ∈ sWordListOut := (mem_replaceFrom 0 hmem).resolve_right (by decide)
    rcases hout with rfl | rfl
    · exact hclean hout0
    · exact hclean ((mem_replaceFrom 0 hout0).resolve_right (by decide))
  · intro hzero
    refine ⟨?_, vEntropy', haccept⟩
    have hno : 0 ∉ narrowed sWordListIn := fun h => (mem_replaceFrom 0 h).elim hzero (by decide)
    have hwhole : (narrowed sWordListIn).takeWhile (· ≠ 0) = narrowed sWordListIn := by
      refine List.takeWhile_eq_self_iff.mpr fun b hb => decide_eq_true ?_
      rintro rfl
      exact hno hb
    have hread : strtok (narrowed sWordListIn) = words sWordListIn := by
      rw [strtok, hwhole]
      rfl
    rw [hread] at hwords
    obtain ⟨es, rfl⟩ : ∃ es, ws = words sWordListIn ++ es := by
      rw [hextra, List.map_append, hwords] at hws
      obtain ⟨ws₁, ws₂, rfl, h₁, -⟩ := List.map_eq_append_iff.mp hws.symm
      exact ⟨ws₂, congrArg (· ++ ws₂) (List.map_injective_iff.mpr (Option.some_injective _) h₁)⟩
    have hwordsOf : ∀ t ∈ words sWordListIn, IsWord t := fun t => IsWord.of_mem
    rcases hout with rfl | rfl
    · rw [hjoined]
      exact tokens_joined rereads_narrowed hwordsOf es
    · rw [hjoined]
      exact tokens_joined rereads_widened hwordsOf es

/-! ### Eleven words of twelve -/

/-- The first lines of `english_txt`. -/
def firstLines : Bytes :=
  (["abandon", "ability", "able", "about"].flatMap fun w => w.toList ++ ['\n']).map fun c => UInt8.ofNat c.toNat

/-- SHA-256 of 16 zero bytes. -/
def hashOfZeros : Bytes :=
  [0x37, 0x47, 0x08, 0xff, 0xf7, 0x71, 0x9d, 0xd5, 0x97, 0x9e, 0xc8, 0x75, 0xd5, 0x6c, 0xd2, 0x28,
    0x6f, 0x6d, 0x3c, 0xf7, 0xec, 0x31, 0x7a, 0x3b, 0x25, 0x63, 0x2a, 0xab, 0x28, 0xec, 0x37, 0xbb]

/-- `abandon`, eleven times. -/
def elevenWords : Bytes := joined (List.replicate 11 [97, 98, 97, 110, 100, 111, 110])

/-- `about` behind them. -/
def twelveWords : Bytes := elevenWords ++ [32, 97, 98, 111, 117, 116]

theorem firstLines_isWordList : IsWordList firstLines where
  noZero := by decide
  lines := by decide

theorem mnemonicAddChecksum_keeps_eleven :
    words elevenWords <+: words twelveWords ∧
      ∃ vEntropy, mnemonicDecode (fun _ => hashOfZeros) (fun _ => firstLines)
        (languageFor (fun _ => firstLines) (-1) elevenWords) twelveWords false = .ok vEntropy :=
  (mnemonicAddChecksum_keeps (fun _ => firstLines_isWordList) (by decide +kernel)).mpr (by decide)

/-- `zoo` stands behind a zero byte, and is dropped. -/
theorem mnemonicAddChecksum_zeroByte : ¬∀ (sha256 : Bytes → Bytes) (mnLanguages : Nat → Bytes) (nLanguageIn : Int)
    (sWordListIn sWordListOut : Bytes), (∀ l, IsWordList (mnLanguages l)) →
      mnemonicAddChecksum sha256 mnLanguages nLanguageIn sWordListIn [] = .ok sWordListOut →
        words sWordListIn <+: words sWordListOut := by
  intro h
  have hfront := h (fun _ => hashOfZeros) (fun _ => firstLines) (-1) (elevenWords ++ [0, 32, 122, 111, 111]) twelveWords
    (fun _ => firstLines_isWordList) (by decide +kernel)
  exact absurd hfront (by decide +kernel)

end AddChecksum

end Mnemonic

end ProCurrency
