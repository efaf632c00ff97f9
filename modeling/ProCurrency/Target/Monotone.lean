import ProCurrency.Index.Node
import ProCurrency.Target.Theorems

/-!
# The next target can be decoded

What `GetNextTargetRequired` gives decodes to a target between 1 and the limit, so the trust grows along the chain. The
target follows the last gap, but for a target that is scaled to zero and a gap that is negative.
-/

namespace ProCurrency

open CompactFloat

/-! ## The limits -/

section Limits

/-- The limit that is applied behind the block. -/
def proofLimit (params : CChainParams) (fProofOfStake : Bool) (pindexLast : List CBlockIndex) : CBigNum :=
  match pindexLast with
  | [] => 0
  | last :: _ =>
      match retargetBlocks fProofOfStake pindexLast with
      | none => firstLimit params last.nHeight fProofOfStake
      | some _ => targetLimit params last.nHeight fProofOfStake

/-- A limit that is set: large, but no number of 256 bits more. -/
def IsLimit (limit : CBigNum) : Prop := ∃ n : Nat, limit = n ∧ 2 ^ 40 ≤ n ∧ n < 2 ^ 256

theorem limitShiftedBy_isLimit {n : Nat} (h : n ≤ 40) : IsLimit (CChainParams.limitShiftedBy n) := by
  refine ⟨_, rfl, ?_, ?_⟩
  · refine (Nat.le_div_iff_mul_le (Nat.two_pow_pos n)).mpr ?_
    have hpow : 2 ^ n ≤ 2 ^ 40 := Nat.pow_le_pow_right (by decide) h
    omega
  · exact Nat.lt_of_le_of_lt (Nat.div_le_self _ _) (Nat.sub_lt (Nat.two_pow_pos 256) Nat.one_pos)

theorem firstLimit_isLimit (network : Network) (nHeight : Int) (fProofOfStake : Bool) :
    IsLimit (firstLimit network.params nHeight fProofOfStake) := by
  unfold firstLimit CChainParams.proofOfStakeLimit
  cases network with
  | main => split_ifs <;> exact limitShiftedBy_isLimit (by decide)
  | testnet => split_ifs <;> exact limitShiftedBy_isLimit (by decide)
  | regtest => split_ifs <;> exact limitShiftedBy_isLimit (by decide)

/-- The test networks do not set the limits of the second fork. -/
theorem targetLimit_isLimit (network : Network) (nHeight : Int) (fProofOfStake : Bool) :
    targetLimit network.params nHeight fProofOfStake = 0 ∨ IsLimit (targetLimit network.params nHeight fProofOfStake) := by
  unfold targetLimit CChainParams.proofOfStakeLimit CChainParams.proofOfStakeLimitVFork2
  cases network with
  | main => split_ifs <;> exact Or.inr (limitShiftedBy_isLimit (by decide))
  | testnet => split_ifs <;> first | exact Or.inl rfl | exact Or.inr (limitShiftedBy_isLimit (by decide))
  | regtest => split_ifs <;> first | exact Or.inl rfl | exact Or.inr (limitShiftedBy_isLimit (by decide))

/-- The main network sets all of them. -/
theorem proofLimit_main {fProofOfStake : Bool} {last : CBlockIndex} {rest : List CBlockIndex} :
    proofLimit .mainParams fProofOfStake (last :: rest) ≠ 0 := by
  have hne {limit : CBigNum} (h : IsLimit limit) : limit ≠ 0 := by
    obtain ⟨n, rfl, hlarge, -⟩ := h
    exact Int.natCast_ne_zero.mpr (Nat.ne_of_gt (Nat.lt_of_lt_of_le (Nat.two_pow_pos 40) hlarge))
  unfold proofLimit
  dsimp only
  split
  · exact hne (firstLimit_isLimit .main last.nHeight fProofOfStake)
  · refine hne ?_
    unfold targetLimit CChainParams.proofOfStakeLimit CChainParams.proofOfStakeLimitVFork2
    split_ifs <;> exact limitShiftedBy_isLimit (by decide)

theorem bytes_lt_of_lt {n : Nat} (h : n < 2 ^ 256) : bytes n < 256 := by
  have hlt : ∀ s, 32 ≤ s → n < 2 ^ (8 * s + 7) :=
    fun s hs => h.trans_le (Nat.pow_le_pow_right (Nat.zero_lt_succ 1) (by omega))
  exact Nat.lt_of_le_of_lt (bytes_le_succ_iff.mpr (hlt 32 le_rfl)) (by decide)

end Limits

/-! ## What is decoded -/

section Seen

variable {limit t s d e e' x : Nat}

/-- The target that the answer decodes to, for the scaled target `x`. -/
def seenTarget (limit x : Nat) : Nat := floor (if x = 0 ∨ limit < x then limit else x)

theorem seenTarget_zero (limit : Nat) : seenTarget limit 0 = floor limit := by rw [seenTarget, if_pos (Or.inl rfl)]

theorem seenTarget_pos (hx : 0 < x) : seenTarget limit x = min (floor x) (floor limit) := by
  rw [seenTarget]
  split
  · rename_i h
    rw [Nat.min_eq_right (floor_mono (by omega))]
  · rename_i h
    rw [Nat.min_eq_left (floor_mono (by omega))]

theorem floor_pos (hx : 0 < x) : 0 < floor x := by
  have hone : floor 1 = 1 := floor_eq_self (by decide)
  exact Nat.lt_of_lt_of_le (by rw [hone]; exact Nat.one_pos) (floor_mono hx)

theorem seenTarget_bounds (hlimit : 0 < limit) (x : Nat) : 1 ≤ seenTarget limit x ∧ seenTarget limit x ≤ limit := by
  rcases Nat.eq_zero_or_pos x with rfl | hx
  · rw [seenTarget_zero]
    exact ⟨floor_pos hlimit, floor_le limit⟩
  · rw [seenTarget_pos hx]
    exact ⟨Nat.le_min.mpr ⟨floor_pos hx, floor_pos hlimit⟩, (Nat.min_le_right _ _).trans (floor_le limit)⟩

theorem setCompact_getCompact_clampTarget (hlimit : limit < 2 ^ 256) (x : Nat) :
    CBigNum.setCompact (clampTarget (limit : Int) (x : Int)).getCompact = (seenTarget limit x : Int) := by
  rw [clampTarget_natCast, seenTarget, CBigNum.setCompact_getCompact]
  refine bytes_lt_of_lt ?_
  split
  · exact hlimit
  · omega

/-- Only the target 1 is scaled to zero, by a gap below the spacing. -/
theorem scaled_eq_zero_iff (ht : 0 < t) (hs : 0 < s) (hd : 4 * s ≤ d) :
    t * (d - 2 * s + 2 * e) / d = 0 ↔ t = 1 ∧ e < s := by
  rw [Nat.div_eq_zero_iff_lt (by omega)]
  rcases Nat.lt_or_ge t 2 with hone | htwo
  · have ht1 : t = 1 := by omega
    rw [ht1, Nat.one_mul]
    omega
  · have hmul : 2 * (d - 2 * s + 2 * e) ≤ t * (d - 2 * s + 2 * e) := Nat.mul_le_mul_right _ htwo
    omega

/-- A longer gap gives no harder target, but for the target 1 when it is scaled to zero. -/
theorem seenTarget_le_iff (ht : 0 < t) (hs : 0 < s) (hd : 4 * s ≤ d) (hd' : d < 2 ^ 33) (he : e ≤ e')
    (he' : e' < 2 ^ 33) (hlimit : 2 ^ 40 ≤ floor limit) :
    seenTarget limit (t * (d - 2 * s + 2 * e) / d) ≤ seenTarget limit (t * (d - 2 * s + 2 * e') / d) ↔
      ¬(t = 1 ∧ e < s ∧ s ≤ e') := by
  have hzero := scaled_eq_zero_iff (e := e) ht hs hd
  have hzero' := scaled_eq_zero_iff (e := e') ht hs hd
  have hmono : t * (d - 2 * s + 2 * e) / d ≤ t * (d - 2 * s + 2 * e') / d :=
    Nat.div_le_div_right (Nat.mul_le_mul_left _ (by omega))
  rcases Nat.eq_zero_or_pos (t * (d - 2 * s + 2 * e) / d) with hx | hx
  · obtain ⟨ht1, hes⟩ := hzero.mp hx
    rw [hx, seenTarget_zero]
    rcases Nat.eq_zero_or_pos (t * (d - 2 * s + 2 * e') / d) with hx' | hx'
    · rw [hx', seenTarget_zero]
      exact ⟨fun _ h => Nat.not_lt.mpr h.2.2 (hzero'.mp hx').2, fun _ => Nat.le_refl _⟩
    · have hlate : s ≤ e' := by
        by_contra hlt
        exact Nat.ne_of_gt hx' (hzero'.mpr ⟨ht1, Nat.lt_of_not_le hlt⟩)
      -- The scaled target is far below the limit.
      have hsmall : t * (d - 2 * s + 2 * e') / d < 2 ^ 40 := by
        rw [ht1, Nat.one_mul]
        exact Nat.lt_of_le_of_lt (Nat.div_le_self _ _) (by omega)
      have hfloor := floor_le (t * (d - 2 * s + 2 * e') / d)
      rw [seenTarget_pos hx']
      refine ⟨fun h => ?_, fun h => absurd ⟨ht1, hes, hlate⟩ h⟩
      have hle := h.trans (Nat.min_le_left _ _)
      omega
  · rw [seenTarget_pos hx, seenTarget_pos (Nat.lt_of_lt_of_le hx hmono)]
    refine ⟨fun _ h => Nat.ne_of_gt hx (hzero.mpr ⟨h.1, h.2.1⟩), fun _ => ?_⟩
    exact Nat.le_min.mpr ⟨(Nat.min_le_left _ _).trans (floor_mono hmono), Nat.min_le_right _ _⟩

/-- A gap below the spacing makes the target harder, unless the limit hides it or the target is 1. -/
theorem seenTarget_self_le_iff (ht : 0 < t) (hfloor : floor t = t) (hs : 0 < s) (hd : 4 * s ≤ d) (he : e < s) :
    seenTarget limit t ≤ seenTarget limit (t * (d - 2 * s + 2 * e) / d) ↔
      ¬(2 ≤ t ∧ t * (d - 2 * s + 2 * e) / d < floor limit) := by
  have hzero := scaled_eq_zero_iff (e := e) ht hs hd
  rcases Nat.lt_or_ge t 2 with hone | htwo
  · have hx : t * (d - 2 * s + 2 * e) / d = 0 := hzero.mpr ⟨by omega, he⟩
    rw [hx, seenTarget_zero, seenTarget_pos ht]
    exact ⟨fun _ h => absurd h.1 (Nat.not_le.mpr hone), fun _ => Nat.min_le_right _ _⟩
  · have hx : 0 < t * (d - 2 * s + 2 * e) / d := by
      rcases Nat.eq_zero_or_pos (t * (d - 2 * s + 2 * e) / d) with h | h
      · have := (hzero.mp h).1
        omega
      · exact h
    have hlt : t * (d - 2 * s + 2 * e) / d < t := by
      refine (Nat.div_lt_iff_lt_mul (by omega)).mpr ?_
      exact Nat.mul_lt_mul_of_pos_left (by omega) ht
    rw [seenTarget_pos ht, seenTarget_pos hx, hfloor]
    have hle := floor_le (t * (d - 2 * s + 2 * e) / d)
    constructor
    · rintro h ⟨-, hbelow⟩
      have hmin := h.trans (Nat.min_le_left _ _)
      rcases Nat.le_total t (floor limit) with hside | hside
      · rw [Nat.min_eq_left hside] at hmin
        omega
      · rw [Nat.min_eq_right hside] at hmin
        omega
    · intro h
      have hreach : floor limit ≤ t * (d - 2 * s + 2 * e) / d := by
        by_contra hbelow
        exact h ⟨htwo, Nat.lt_of_not_le hbelow⟩
      have hsame : floor limit ≤ floor (t * (d - 2 * s + 2 * e) / d) := by
        have hmono := floor_mono hreach
        rwa [floor_eq_of_le (Nat.le_refl _) (floor_le limit)] at hmono
      exact Nat.le_min.mpr ⟨(Nat.min_le_right _ _).trans hsame, Nat.min_le_right _ _⟩

end Seen

/-! ## Gaps -/

section Gaps

variable {params : CChainParams} {nHeight gap gap' : Int}

theorem cappedGap_mono {fCap : Bool} {cap : Int} (h : gap ≤ gap') : cappedGap fCap cap gap ≤ cappedGap fCap cap gap' := by
  unfold cappedGap
  split
  · rename_i hcap
    rw [if_pos ⟨hcap.1, Int.lt_of_lt_of_le hcap.2 h⟩]
  · rename_i hcap
    split
    · rename_i hcap'
      by_contra hlt
      exact hcap ⟨hcap'.1, Int.lt_of_not_ge hlt⟩
    · exact h

theorem cappedGap_le {fCap : Bool} {cap : Int} : cappedGap fCap cap gap ≤ gap := by
  unfold cappedGap
  split
  · omega
  · exact Int.le_refl gap

theorem le_cappedGap {fCap : Bool} {cap b : Int} (hb : b ≤ cap) (h : b ≤ gap) : b ≤ cappedGap fCap cap gap := by
  unfold cappedGap
  split
  · exact hb
  · exact h

/-- A negative gap counts as one spacing. -/
theorem fullGap_of_neg (h : gap < 0) : fullGap params nHeight gap = fullSpacing nHeight := by
  have hpos := fullSpacing_pos nHeight
  rw [fullGap, if_pos h, cappedGap_of_le (show fullSpacing nHeight ≤ _ by omega)]
  exact cappedGap_of_le (by omega)

theorem fullGap_of_short (h : 0 ≤ gap) (hshort : gap < fullSpacing nHeight) : fullGap params nHeight gap = gap := by
  rw [fullGap, if_neg (by omega), cappedGap_of_le (show gap ≤ fullSpacing nHeight * 10 by omega)]
  exact cappedGap_of_le (by omega)

theorem fullGap_of_long (h : fullSpacing nHeight ≤ gap) :
    fullSpacing nHeight ≤ fullGap params nHeight gap ∧ fullGap params nHeight gap ≤ gap := by
  have hpos := fullSpacing_pos nHeight
  rw [fullGap, if_neg (by omega)]
  exact ⟨le_cappedGap (by omega) (le_cappedGap (by omega) h), cappedGap_le.trans cappedGap_le⟩

theorem fullGap_mono (h : 0 ≤ gap) (hle : gap ≤ gap') : fullGap params nHeight gap ≤ fullGap params nHeight gap' := by
  rw [fullGap, fullGap, if_neg (by omega), if_neg (by omega)]
  exact cappedGap_mono (cappedGap_mono hle)

/-- The weights as natural numbers. -/
theorem weights_natCast (nHeight : Int) : ∃ s d : Nat, fullSpacing nHeight = s ∧ totalWeight nHeight = d ∧ 0 < s ∧
    4 * s ≤ d ∧ d < 2 ^ 33 ∧ ∀ e : Nat, gapWeight (fullSpacing nHeight) e = ((d - 2 * s + 2 * e : Nat) : Int) := by
  have hself (e : Int) : gapWeight (fullSpacing nHeight) e = totalWeight nHeight - 2 * fullSpacing nHeight + 2 * e := by
    rw [← weightTotal_full, ← gapWeight_self, gapWeight, gapWeight]
    ring
  unfold totalWeight at hself ⊢
  rcases fullSpacing_cases nHeight with ⟨hh, hs⟩ | ⟨hh, -, hs⟩ | ⟨hh, hs⟩
  · rw [if_pos hh, hs] at hself
    refine ⟨90, 1890, hs, if_pos hh, by decide, by decide, by decide, fun e => ?_⟩
    rw [hs, hself]
    omega
  · have hno : ¬nHeight < 390000 := by omega
    rw [if_neg hno, hs] at hself
    refine ⟨120, 1920, hs, if_neg hno, by decide, by decide, by decide, fun e => ?_⟩
    rw [hs, hself]
    omega
  · have hno : ¬nHeight < 390000 := by omega
    rw [if_neg hno, hs] at hself
    refine ⟨240, 1920, hs, if_neg hno, by decide, by decide, by decide, fun e => ?_⟩
    rw [hs, hself]
    omega

/-- The target that is decoded at a limit, for the last target and the last gap. -/
def decodedTarget (params : CChainParams) (nHeight : Int) (fProofOfStake : Bool) (nBits : UInt32) (gap : Int) : CBigNum :=
  CBigNum.setCompact (clampTarget (targetLimit params nHeight fProofOfStake)
    (scaledTarget nBits (fullSpacing nHeight) (fullGap params nHeight gap))).getCompact

/-- Where a shorter gap gives an easier target: the target 1 is scaled to zero, and the limit taken for it; or the
shorter gap is negative and counts as one spacing, and the limit does not hide the other one. -/
def ShorterIsEasier (params : CChainParams) (nHeight : Int) (fProofOfStake : Bool) (target gap gap' : Int) : Prop :=
  target = 1 ∧ 0 ≤ gap ∧ gap < fullSpacing nHeight ∧ fullSpacing nHeight ≤ gap' ∨
  gap < 0 ∧ 0 ≤ gap' ∧ gap' < fullSpacing nHeight ∧ 2 ≤ target ∧
    target * gapWeight (fullSpacing nHeight) gap' / totalWeight nHeight <
      floor (targetLimit params nHeight fProofOfStake).toNat

theorem floor_setCompact {nBits : UInt32} {t : Nat} (h : CBigNum.setCompact nBits = (t : Int)) : floor t = t := by
  have hsize : nBits.toNat / 2 ^ 24 < 256 := Nat.div_lt_of_lt_mul nBits.toNat_lt
  rw [CBigNum.setCompact_eq] at h
  split at h
  · rename_i hsmall
    rw [← Int.ofNat.inj h]
    exact floor_expand hsmall
  · have hnonpos : (t : Int) ≤ 0 := by
      rw [← h]
      exact Int.neg_nonpos_of_nonneg (Int.natCast_nonneg _)
    have hzero : t = 0 := by omega
    rw [hzero, floor_zero]

/-- The target follows the gap, but for those two cases. -/
theorem decodedTarget_le_iff {nBits : UInt32} {fProofOfStake : Bool}
    (hlimit : IsLimit (targetLimit params nHeight fProofOfStake)) (hle : gap ≤ gap') (hgap' : gap' < 2 ^ 33) :
    decodedTarget params nHeight fProofOfStake nBits gap ≤ decodedTarget params nHeight fProofOfStake nBits gap' ↔
      ¬ShorterIsEasier params nHeight fProofOfStake (CBigNum.setCompact nBits) gap gap' := by
  by_cases htarget : CBigNum.setCompact nBits ≤ 0
  · have hsame (g : Int) : decodedTarget params nHeight fProofOfStake nBits g =
        CBigNum.setCompact (targetLimit params nHeight fProofOfStake).getCompact := by
      rw [decodedTarget, clampTarget_of_nonpos (scaledTarget_nonpos htarget params nHeight g).1]
    rw [hsame, hsame]
    refine ⟨fun _ h => ?_, fun _ => Int.le_refl _⟩
    rcases h with ⟨hone, -⟩ | ⟨-, -, -, htwo, -⟩
    · exact absurd (hone.symm.trans_le htarget) (by decide)
    · exact absurd (Int.le_trans htwo htarget) (by decide)
  obtain ⟨limit, hlimit, hlarge, hsmall⟩ := hlimit
  obtain ⟨t, ht⟩ := Int.eq_ofNat_of_zero_le (Int.not_le.mp htarget).le
  obtain ⟨s, d, hs, hd, hs0, hsd, hdlt, hweight⟩ := weights_natCast nHeight
  have ht0 : 0 < t := by
    rw [ht] at htarget
    exact Int.natCast_pos.mp (Int.not_le.mp htarget)
  have hweightS := hweight
  rw [hs] at hweightS
  have hfloor := floor_setCompact ht
  have hlargeFloor : 2 ^ 40 ≤ floor limit := by
    have hpow : floor (2 ^ 40) = 2 ^ 40 := by decide
    rw [← hpow]
    exact floor_mono hlarge
  have hdecoded (g : Int) (e : Nat) (he : fullGap params nHeight g = e) :
      decodedTarget params nHeight fProofOfStake nBits g = (seenTarget limit (t * (d - 2 * s + 2 * e) / d) : Int) := by
    have hscaled : scaledTarget nBits (fullSpacing nHeight) (fullGap params nHeight g) =
        ((t * (d - 2 * s + 2 * e) / d : Nat) : Int) := by
      rw [scaledTarget_eq, he, hweight, weightTotal_full, hd, ht]
      exact (Int.ofNat_tdiv _ _).symm
    rw [decodedTarget, hscaled, hlimit]
    exact setCompact_getCompact_clampTarget hsmall _
  have hself : t * (d - 2 * s + 2 * s) / d = t := by
    rw [Nat.sub_add_cancel (by omega)]
    exact Nat.mul_div_cancel t (by omega)
  unfold ShorterIsEasier
  rw [hs, ht, hd, hlimit, Int.toNat_natCast]
  by_cases hcross : gap < 0 ∧ 0 ≤ gap' ∧ gap' < fullSpacing nHeight
  · obtain ⟨hneg, hpos, hshort⟩ := hcross
    obtain ⟨e', rfl⟩ := Int.eq_ofNat_of_zero_le hpos
    rw [hdecoded gap s (by rw [fullGap_of_neg hneg, hs]), hdecoded e' e' (fullGap_of_short hpos hshort), hself]
    rw [hs] at hshort
    refine Int.ofNat_le.trans ((seenTarget_self_le_iff ht0 hfloor hs0 hsd (Int.ofNat_lt.mp hshort)).trans ?_)
    refine not_congr ?_
    rw [hweightS]
    constructor
    · rintro ⟨htwo, hbelow⟩
      exact Or.inr ⟨hneg, hpos, hshort, Int.ofNat_le.mpr htwo, Int.ofNat_lt.mpr hbelow⟩
    · rintro (⟨-, hnonneg, -⟩ | ⟨-, -, -, htwo, hbelow⟩)
      · exact absurd hnonneg (Int.not_le.mpr hneg)
      · exact ⟨Int.ofNat_le.mp htwo, Int.ofNat_lt.mp hbelow⟩
  · have hgapLe : fullGap params nHeight gap ≤ fullGap params nHeight gap' := by
      by_cases hneg : gap < 0
      · rw [fullGap_of_neg hneg]
        by_cases hneg' : gap' < 0
        · exact (fullGap_of_neg hneg').ge
        · exact (fullGap_of_long (by omega)).1
      · exact fullGap_mono (by omega) hle
    obtain ⟨e, he⟩ := Int.eq_ofNat_of_zero_le (fullGap_nonneg params nHeight gap)
    obtain ⟨e', he'⟩ := Int.eq_ofNat_of_zero_le (fullGap_nonneg params nHeight gap')
    have hbound : fullGap params nHeight gap' < 2 ^ 33 := by
      by_cases hneg' : gap' < 0
      · rw [fullGap_of_neg hneg', hs]
        omega
      · by_cases hshort : gap' < fullSpacing nHeight
        · rw [fullGap_of_short (by omega) hshort]
          exact hgap'
        · exact (fullGap_of_long (by omega)).2.trans_lt hgap'
    rw [hdecoded gap e he, hdecoded gap' e' he']
    rw [he, he'] at hgapLe
    rw [he'] at hbound
    have hshortIff : e < s ↔ 0 ≤ gap ∧ gap < s := by
      by_cases hneg : gap < 0
      · rw [fullGap_of_neg hneg, hs] at he
        omega
      · by_cases hshort : gap < fullSpacing nHeight
        · rw [fullGap_of_short (by omega) hshort] at he
          omega
        · have hlong := (@fullGap_of_long params nHeight gap (Int.le_of_not_gt hshort)).1
          rw [he, hs] at hlong
          omega
    have hlongIff : s ≤ e' ↔ gap' < 0 ∨ s ≤ gap' := by
      by_cases hneg : gap' < 0
      · rw [fullGap_of_neg hneg, hs] at he'
        omega
      · by_cases hshort : gap' < fullSpacing nHeight
        · rw [fullGap_of_short (by omega) hshort] at he'
          omega
        · have hlong := (@fullGap_of_long params nHeight gap' (Int.le_of_not_gt hshort)).1
          rw [he', hs] at hlong
          omega
    refine Int.ofNat_le.trans ((seenTarget_le_iff ht0 hs0 hsd hdlt (Int.ofNat_le.mp hgapLe)
      (by exact_mod_cast hbound) hlargeFloor).trans (not_congr ?_))
    rw [hshortIff, hlongIff]
    rw [hs] at hcross
    constructor
    · rintro ⟨hone, ⟨hpos, hlt⟩, hlong⟩
      exact Or.inl ⟨congrArg Nat.cast hone, hpos, hlt, hlong.resolve_left (by omega)⟩
    · rintro (⟨hone, hpos, hlt, hlong⟩ | ⟨hneg, hpos, hshort, -⟩)
      · exact ⟨Int.ofNat.inj hone, ⟨hpos, hlt⟩, Or.inr hlong⟩
      · exact absurd ⟨hneg, hpos, hshort⟩ hcross

end Gaps

/-! ## Trust -/

section Trust

variable {params : CChainParams} {nBits : UInt32} {x : Nat} {chain : List CBlockIndex}

theorem getBlockTrust_pos (h : CBigNum.setCompact nBits = (x : Int)) (hx : 0 < x) (hlt : x < 2 ^ 256) :
    1 ≤ (getBlockTrust nBits).toNat := by
  have hcast : (2 : Int) ^ 256 / ((x : Int) + 1) = ((2 ^ 256 / (x + 1) : Nat) : Int) := by
    rw [Int.natCast_ediv]
    rfl
  have hle : 2 ^ 256 / (x + 1) < 2 ^ 256 := Nat.div_lt_self (Nat.two_pow_pos 256) (Nat.succ_lt_succ hx)
  have hpos : 1 ≤ 2 ^ 256 / (x + 1) := Nat.div_pos hlt (Nat.succ_pos x)
  have hno : ¬(x : Int) ≤ 0 := Int.not_le.mpr (Int.natCast_pos.mpr hx)
  unfold getBlockTrust
  dsimp only
  rw [h, if_neg hno, hcast, BitVec.ofInt_natCast, BitVec.toNat_ofNat, Nat.mod_eq_of_lt hle]
  exact hpos

/-- Every block carries the target that is required of it, and has its trust over that of the block before. -/
def Carries (params : CChainParams) : List CBlockIndex → Prop
  | [] => True
  | pindex :: pprev =>
      (pprev ≠ [] → getNextTargetRequired params pprev pindex.isProofOfStake = some pindex.nBits ∧
        proofLimit params pindex.isProofOfStake pprev ≠ 0) ∧
      pindex.nChainTrust = IndexNode.prevTrust pprev + getBlockTrust pindex.nBits ∧ Carries params pprev

/-- The trust of all blocks, as a number without a bound. -/
def totalTrust (chain : List CBlockIndex) : Nat := (chain.map fun pindex => (getBlockTrust pindex.nBits).toNat).sum

/-- What `GetNextTargetRequired` gives for a chain. -/
theorem getNextTargetRequired_bounds (network : Network) (fProofOfStake : Bool) (last : CBlockIndex)
    (rest : List CBlockIndex) (hlimit : proofLimit network.params fProofOfStake (last :: rest) ≠ 0) :
    ∃ nBits, getNextTargetRequired network.params (last :: rest) fProofOfStake = some nBits ∧
      1 ≤ CBigNum.setCompact nBits ∧
      CBigNum.setCompact nBits ≤ proofLimit network.params fProofOfStake (last :: rest) ∧
      1 ≤ (getBlockTrust nBits).toNat := by
  refine ⟨_, getNextTargetRequired_cons network.params last rest fProofOfStake, ?_⟩
  have hbounds {limit : CBigNum} (h : IsLimit limit) (nBits : UInt32)
      (hnBits : ∃ n x : Nat, limit = n ∧ n < 2 ^ 256 ∧ CBigNum.setCompact nBits = (x : Int) ∧ 1 ≤ x ∧ x ≤ n) :
      1 ≤ CBigNum.setCompact nBits ∧ CBigNum.setCompact nBits ≤ limit ∧ 1 ≤ (getBlockTrust nBits).toNat := by
    obtain ⟨n, x, rfl, hn, hx, hpos, hle⟩ := hnBits
    refine ⟨?_, ?_, getBlockTrust_pos hx hpos (hle.trans_lt hn)⟩
    · rw [hx]
      exact Int.ofNat_le.mpr hpos
    · rw [hx]
      exact Int.ofNat_le.mpr hle
  unfold proofLimit at hlimit ⊢
  dsimp only at hlimit ⊢
  cases hblocks : retargetBlocks fProofOfStake (last :: rest) with
  | none =>
      obtain ⟨n, hn, hlarge, hsmall⟩ := firstLimit_isLimit network last.nHeight fProofOfStake
      have hpos : 0 < n := Nat.lt_of_lt_of_le (Nat.two_pow_pos 40) hlarge
      refine hbounds ⟨n, hn, hlarge, hsmall⟩ _ ⟨n, floor n, hn, hsmall, ?_, floor_pos hpos, floor_le n⟩
      rw [retarget, hn]
      exact CBigNum.setCompact_getCompact (bytes_lt_of_lt hsmall)
  | some blocks =>
      obtain ⟨prev, prevPrev⟩ := blocks
      rw [hblocks] at hlimit
      obtain ⟨n, hn, hlarge, hsmall⟩ := (targetLimit_isLimit network last.nHeight fProofOfStake).resolve_left hlimit
      have hpos : 0 < n := Nat.lt_of_lt_of_le (Nat.two_pow_pos 40) hlarge
      refine hbounds ⟨n, hn, hlarge, hsmall⟩ _ ?_
      rw [retarget, hn]
      generalize scaledTarget prev.nBits _ _ = bnNew
      by_cases hsign : bnNew ≤ 0
      · rw [clampTarget_of_nonpos hsign]
        exact ⟨n, floor n, rfl, hsmall, CBigNum.setCompact_getCompact (bytes_lt_of_lt hsmall), floor_pos hpos, floor_le n⟩
      · obtain ⟨y, rfl⟩ := Int.eq_ofNat_of_zero_le (Int.not_le.mp hsign).le
        obtain ⟨hone, hle⟩ := seenTarget_bounds hpos y
        exact ⟨n, seenTarget n y, rfl, hsmall, setCompact_getCompact_clampTarget hsmall y, hone, hle⟩

theorem Carries.toNat_nChainTrust (h : Carries params chain) :
    (IndexNode.prevTrust chain).toNat = totalTrust chain % 2 ^ 256 := by
  induction chain with
  | nil => rfl
  | cons pindex pprev ih =>
      obtain ⟨-, htrust, hrest⟩ := h
      have hsum : totalTrust (pindex :: pprev) = (getBlockTrust pindex.nBits).toNat + totalTrust pprev := List.sum_cons
      rw [IndexNode.prevTrust, htrust, BitVec.toNat_add, ih hrest, hsum, Nat.mod_add_mod, Nat.add_comm]

theorem Carries.le_totalTrust (h : Carries params chain) : ∀ p ∈ chain, p.nChainTrust.toNat ≤ totalTrust chain := by
  induction chain with
  | nil => exact fun p hp => absurd hp List.not_mem_nil
  | cons pindex pprev ih =>
      intro p hp
      rcases List.mem_cons.mp hp with rfl | hp
      · have htotal := h.toNat_nChainTrust
        exact htotal.trans_le (Nat.mod_le _ _)
      · exact (ih h.2.2 p hp).trans (Nat.le_add_left _ _)

/-- The trust grows along the chain as long as its sum fits 256 bits. -/
theorem Carries.increases_iff {network : Network} (h : Carries network.params chain) :
    chain.Pairwise (fun p q => q.nChainTrust < p.nChainTrust) ↔ totalTrust chain < 2 ^ 256 := by
  induction chain with
  | nil => exact ⟨fun _ => Nat.two_pow_pos 256, fun _ => List.Pairwise.nil⟩
  | cons pindex pprev ih =>
      have hall := h
      obtain ⟨hcarried, htrust, hrest⟩ := h
      have hsum : totalTrust (pindex :: pprev) = (getBlockTrust pindex.nBits).toNat + totalTrust pprev := List.sum_cons
      have hhead : pindex.nChainTrust.toNat = totalTrust (pindex :: pprev) % 2 ^ 256 := hall.toNat_nChainTrust
      rw [List.pairwise_cons, ih hrest]
      cases pprev with
      | nil =>
          refine ⟨fun _ => ?_, fun _ => ⟨fun p hp => absurd hp List.not_mem_nil, Nat.two_pow_pos 256⟩⟩
          rw [hsum]
          exact (getBlockTrust pindex.nBits).isLt
      | cons prev pprev =>
          obtain ⟨hnext, hlimit⟩ := hcarried (List.cons_ne_nil _ _)
          obtain ⟨nBits, hnBits, -, -, hpos⟩ := getNextTargetRequired_bounds network pindex.isProofOfStake prev pprev hlimit
          rw [hnext] at hnBits
          cases hnBits
          have hword := (getBlockTrust pindex.nBits).isLt
          constructor
          · rintro ⟨habove, hfits⟩
            have hprev := BitVec.lt_def.mp (habove prev List.mem_cons_self)
            have hprevTotal : prev.nChainTrust.toNat = totalTrust (prev :: pprev) % 2 ^ 256 := hrest.toNat_nChainTrust
            rw [hhead, hprevTotal, hsum, Nat.mod_eq_of_lt hfits] at hprev
            rw [hsum]
            by_contra hover
            have hover := Nat.le_of_not_lt hover
            rw [Nat.mod_eq_sub_mod hover, Nat.mod_eq_of_lt (by omega)] at hprev
            omega
          · intro hfits
            rw [hsum] at hfits
            refine ⟨fun q hq => BitVec.lt_def.mpr ?_, by omega⟩
            have hle := hrest.le_totalTrust q hq
            rw [hhead, hsum, Nat.mod_eq_of_lt hfits]
            omega

end Trust

/-! ## The target of a chain -/

/-- The last target of the kind and the last gap, where the chain has three blocks of the kind. -/
def lastGap (fProofOfStake : Bool) (pindexLast : List CBlockIndex) : Option (UInt32 × Int) :=
  (retargetBlocks fProofOfStake pindexLast).map fun (pindexPrev, pindexPrevPrev) =>
    (pindexPrev.nBits, pindexPrev.getBlockTime - pindexPrevPrev.getBlockTime)

theorem getNextTargetRequired_le_iff (network : Network) (fProofOfStake : Bool) {last last' : CBlockIndex}
    {rest rest' : List CBlockIndex} {nPrevBits nBits nBits' : UInt32} {gap gap' : Int}
    (hheight : last'.nHeight = last.nHeight) (hgap : lastGap fProofOfStake (last :: rest) = some (nPrevBits, gap))
    (hgap' : lastGap fProofOfStake (last' :: rest') = some (nPrevBits, gap')) (hle : gap ≤ gap')
    (hlimit : proofLimit network.params fProofOfStake (last :: rest) ≠ 0)
    (hnBits : getNextTargetRequired network.params (last :: rest) fProofOfStake = some nBits)
    (hnBits' : getNextTargetRequired network.params (last' :: rest') fProofOfStake = some nBits') :
    CBigNum.setCompact nBits ≤ CBigNum.setCompact nBits' ↔
      ¬ShorterIsEasier network.params last.nHeight fProofOfStake (CBigNum.setCompact nPrevBits) gap gap' := by
  have hdecoded {l : CBlockIndex} {r : List CBlockIndex} {g : Int} {n : UInt32}
      (hg : lastGap fProofOfStake (l :: r) = some (nPrevBits, g))
      (hn : getNextTargetRequired network.params (l :: r) fProofOfStake = some n) :
      CBigNum.setCompact n = decodedTarget network.params l.nHeight fProofOfStake nPrevBits g ∧ g < 2 ^ 33 ∧
        proofLimit network.params fProofOfStake (l :: r) = targetLimit network.params l.nHeight fProofOfStake := by
    obtain ⟨⟨prev, prevPrev⟩, hblocks, hpair⟩ := Option.map_eq_some_iff.mp hg
    cases hpair
    rw [getNextTargetRequired_cons, hblocks, retarget] at hn
    cases hn
    refine ⟨rfl, ?_, ?_⟩
    · have htime := prev.nTime.toNat_lt
      have htime' : (0 : Int) ≤ prevPrev.getBlockTime := Int.natCast_nonneg _
      have htime'' : prev.getBlockTime < 2 ^ 32 := by
        change ((prev.nTime.toNat : Nat) : Int) < 2 ^ 32
        omega
      omega
    · rw [proofLimit, hblocks]
  obtain ⟨hseen, -, hproof⟩ := hdecoded hgap hnBits
  obtain ⟨hseen', hbound, -⟩ := hdecoded hgap' hnBits'
  rw [hproof] at hlimit
  rw [hseen, hseen', hheight]
  exact decodedTarget_le_iff ((targetLimit_isLimit network last.nHeight fProofOfStake).resolve_left hlimit) hle hbound

/-- Where the limit is set, the target is decoded between 1 and the limit, the trust grows as long as its sum fits, and
the target follows the last gap but for the two cases of `ShorterIsEasier`. -/
theorem nextTarget_decodable (network : Network) (fProofOfStake : Bool) :
    (∀ last rest, proofLimit network.params fProofOfStake (last :: rest) ≠ 0 →
      ∃ nBits, getNextTargetRequired network.params (last :: rest) fProofOfStake = some nBits ∧
        1 ≤ CBigNum.setCompact nBits ∧
        CBigNum.setCompact nBits ≤ proofLimit network.params fProofOfStake (last :: rest) ∧
        1 ≤ (getBlockTrust nBits).toNat) ∧
    (∀ chain, Carries network.params chain →
      (chain.Pairwise (fun p q => q.nChainTrust < p.nChainTrust) ↔ totalTrust chain < 2 ^ 256)) ∧
    ∀ (last last' : CBlockIndex) (rest rest' : List CBlockIndex) (nPrevBits nBits nBits' : UInt32) (gap gap' : Int),
      last'.nHeight = last.nHeight → lastGap fProofOfStake (last :: rest) = some (nPrevBits, gap) →
      lastGap fProofOfStake (last' :: rest') = some (nPrevBits, gap') → gap ≤ gap' →
      proofLimit network.params fProofOfStake (last :: rest) ≠ 0 →
      getNextTargetRequired network.params (last :: rest) fProofOfStake = some nBits →
      getNextTargetRequired network.params (last' :: rest') fProofOfStake = some nBits' →
      (CBigNum.setCompact nBits ≤ CBigNum.setCompact nBits' ↔
        ¬ShorterIsEasier network.params last.nHeight fProofOfStake (CBigNum.setCompact nPrevBits) gap gap') :=
  ⟨getNextTargetRequired_bounds network fProofOfStake, fun _ h => h.increases_iff,
    fun _ _ _ _ _ _ _ _ _ hheight hgap hgap' hle => getNextTargetRequired_le_iff network fProofOfStake hheight hgap hgap' hle⟩

/-- A block of work at the limit. -/
def workBlock (nHeight : Int) (nTime : UInt32) : CBlockIndex := { nHeight, nTime, nBits := 0x1e0fffff }

/-- The chain before the last block. -/
def workChain : List CBlockIndex := [workBlock 1 100, workBlock 0 0]

/-- A gap of -1 gives an easier target than a gap of 0. -/
theorem nextTarget_negativeGap : ¬∀ (network : Network) (fProofOfStake : Bool) (last last' : CBlockIndex)
    (rest rest' : List CBlockIndex) (nPrevBits nBits nBits' : UInt32) (gap gap' : Int),
      last'.nHeight = last.nHeight → lastGap fProofOfStake (last :: rest) = some (nPrevBits, gap) →
      lastGap fProofOfStake (last' :: rest') = some (nPrevBits, gap') → gap ≤ gap' →
      getNextTargetRequired network.params (last :: rest) fProofOfStake = some nBits →
      getNextTargetRequired network.params (last' :: rest') fProofOfStake = some nBits' →
      CBigNum.setCompact nBits ≤ CBigNum.setCompact nBits' := by
  intro h
  have hheight : (workBlock 2 100).nHeight = (workBlock 2 99).nHeight := rfl
  have hgap : lastGap false (workBlock 2 99 :: workChain) = some (0x1e0fffff, -1) := rfl
  have hgap' : lastGap false (workBlock 2 100 :: workChain) = some (0x1e0fffff, 0) := rfl
  have hnBits := getNextTargetRequired_cons Network.main.params (workBlock 2 99) workChain false
  have hnBits' := getNextTargetRequired_cons Network.main.params (workBlock 2 100) workChain false
  refine (getNextTargetRequired_le_iff .main false hheight hgap hgap' (by decide) proofLimit_main hnBits hnBits').mp
    (h .main false _ _ _ _ _ _ _ _ _ hheight hgap hgap' (by decide) hnBits hnBits') (Or.inr ?_)
  exact ⟨by decide, by decide, by decide, by decide +kernel, by decide +kernel⟩

end ProCurrency
