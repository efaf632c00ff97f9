import ProCurrency.Base.Params
import ProCurrency.Base.Transaction

/-!
# The difficulty of the next block

`GetNextTargetRequired` for full nodes and `GetNextTargetRequiredThin` for thin nodes (main.cpp). Times
are 32-bit, so nothing here leaves the range of `int64_t` and plain integers are used. `none` is a null
pointer that is dereferenced.
-/

namespace ProCurrency

def BLOCK_SPACINGv3 : Int := 240

def NEW_TARGET_SPACING_FORK_BLOCK : Int := 390000

def TARGET_SPACING_V3_FORK_BLOCK : Int := 639000

def nTargetTimespan : Int := 30 * 60

/-- The last entry of the wanted kind, or the first entry of the chain. -/
def getLastBlockIndex (fProofOfStake : Bool) : List CBlockIndex → List CBlockIndex
  | [] => []
  | pindex :: pprev =>
      if pprev ≠ [] ∧ pindex.isProofOfStake ≠ fProofOfStake then getLastBlockIndex fProofOfStake pprev
      else pindex :: pprev

def getLastBlockThinIndex (fProofOfStake : Bool) : List CBlockThinIndex → List CBlockThinIndex
  | [] => []
  | pindex :: pprev =>
      if pprev ≠ [] ∧ pindex.isProofOfStake ≠ fProofOfStake then getLastBlockThinIndex fProofOfStake pprev
      else pindex :: pprev

/-- The target before the limit: the last target, scaled by the last spacing. -/
def scaledTarget (nBits : UInt32) (nTargetSpacing nActualSpacing : Int) : CBigNum :=
  let nInterval := nTargetTimespan.tdiv nTargetSpacing
  let bnNew := CBigNum.setCompact nBits
  let bnNew := bnNew * ((nInterval - 1) * nTargetSpacing + nActualSpacing + nActualSpacing)
  bnNew.tdiv ((nInterval + 1) * nTargetSpacing)

/-- The end of both functions: the limit of the fork is applied. -/
def limitedTarget (params : CChainParams) (nHeight : Int) (bnTargetLimit bnTargetLimitVFork2 bnNew : CBigNum) :
    CBigNum :=
  if params.isProtocolVFork2 nHeight then
    if bnNew ≤ 0 ∨ bnNew > bnTargetLimitVFork2 then bnTargetLimitVFork2 else bnNew
  else
    if bnNew ≤ 0 ∨ bnNew > bnTargetLimit then bnTargetLimit else bnNew

def getNextTargetRequired (params : CChainParams) (pindexLast : List CBlockIndex) (fProofOfStake : Bool) :
    Option UInt32 :=
  match pindexLast with
  | [] => none  -- `pindexLast->nHeight` comes before the test for NULL
  | last :: _ =>
    let bnTargetLimit :=
      if fProofOfStake then params.proofOfStakeLimit last.nHeight else params.proofOfWorkLimit
    let bnTargetLimitVFork2 :=
      if fProofOfStake then params.proofOfStakeLimitVFork2 last.nHeight else params.proofOfWorkLimit
    match getLastBlockIndex fProofOfStake pindexLast with
    | [] => none
    | [_] => some bnTargetLimit.getCompact  -- first block
    | pindexPrev :: pprev =>
      match getLastBlockIndex fProofOfStake pprev with
      | [] => none
      | [_] => some bnTargetLimit.getCompact  -- second block
      | pindexPrevPrev :: _ =>
        let nTargetSpacing :=
          if last.nHeight < NEW_TARGET_SPACING_FORK_BLOCK then BLOCK_SPACINGv3 - 150
          else if last.nHeight < TARGET_SPACING_V3_FORK_BLOCK then BLOCK_SPACINGv3 - 120
          else BLOCK_SPACINGv3
        let nActualSpacing := pindexPrev.getBlockTime - pindexPrevPrev.getBlockTime
        let nActualSpacing := if nActualSpacing < 0 then nTargetSpacing else nActualSpacing
        let nActualSpacing :=
          if last.nHeight > TARGET_SPACING_V3_FORK_BLOCK + 1 ∧ nActualSpacing < 0 then nTargetSpacing
          else nActualSpacing
        let nActualSpacing :=
          if params.isProtocolVFork1 last.nHeight ∧ nActualSpacing > nTargetSpacing * 10 then
            nTargetSpacing * 10
          else nActualSpacing
        let nActualSpacing :=
          if params.isProtocolVFork2 last.nHeight ∧ nActualSpacing > nTargetSpacing * 20 then
            nTargetSpacing * 20
          else nActualSpacing
        let bnNew := scaledTarget pindexPrev.nBits nTargetSpacing nActualSpacing
        some (limitedTarget params last.nHeight bnTargetLimit bnTargetLimitVFork2 bnNew).getCompact

def getNextTargetRequiredThin (params : CChainParams) (pindexLast : List CBlockThinIndex)
    (fProofOfStake : Bool) : Option UInt32 :=
  match pindexLast with
  | [] => none  -- `pindexLast->nHeight` comes before the test for NULL
  | last :: _ =>
    let bnTargetLimit :=
      if fProofOfStake then params.proofOfStakeLimit last.nHeight else params.proofOfWorkLimit
    let bnTargetLimitVFork2 :=
      if fProofOfStake then params.proofOfStakeLimitVFork2 last.nHeight else params.proofOfWorkLimit
    match getLastBlockThinIndex fProofOfStake pindexLast with
    | [] => none
    | [_] => some bnTargetLimit.getCompact  -- first block
    | pindexPrev :: pprev =>
      match getLastBlockThinIndex fProofOfStake pprev with
      | [] => none
      | [_] => some bnTargetLimit.getCompact  -- second block
      | pindexPrevPrev :: _ =>
        let nTargetSpacing := if last.nHeight < NEW_TARGET_SPACING_FORK_BLOCK then 90 else 120
        let nActualSpacing := pindexPrev.getBlockTime - pindexPrevPrev.getBlockTime
        let nActualSpacing := if nActualSpacing < 0 then nTargetSpacing else nActualSpacing
        let nActualSpacing :=
          if params.isProtocolVFork2 last.nHeight ∧ nActualSpacing > nTargetSpacing * 20 then
            nTargetSpacing * 20
          else nActualSpacing
        let bnNew := scaledTarget pindexPrev.nBits nTargetSpacing nActualSpacing
        some (limitedTarget params last.nHeight bnTargetLimit bnTargetLimitVFork2 bnNew).getCompact

/-!
## The difficulty of thin and of full nodes

Full and thin nodes find the same two blocks, and differ in the spacing and in the caps on the gap only.
-/

/-! ## The two blocks that count -/

/-- The last two blocks of the kind, when the chain has three of them. -/
def retargetBlocks (fProofOfStake : Bool) (pindexLast : List CBlockIndex) :
    Option (CBlockIndex × CBlockIndex) :=
  match getLastBlockIndex fProofOfStake pindexLast with
  | [] => none
  | pindexPrev :: pprev =>
      match getLastBlockIndex fProofOfStake pprev with
      | pindexPrevPrev :: _ :: _ => some (pindexPrev, pindexPrevPrev)
      | _ => none

@[simp] theorem isProofOfStake_toThin (b : CBlockIndex) : b.toThin.isProofOfStake = b.isProofOfStake := rfl

@[simp] theorem getBlockTime_toThin (b : CBlockIndex) : b.toThin.getBlockTime = b.getBlockTime := rfl

theorem getLastBlockThinIndex_map (fProofOfStake : Bool) (pindex : List CBlockIndex) :
    getLastBlockThinIndex fProofOfStake (pindex.map CBlockIndex.toThin) =
      (getLastBlockIndex fProofOfStake pindex).map CBlockIndex.toThin := by
  induction pindex with
  | nil => rfl
  | cons b pprev ih =>
      simp only [List.map_cons, getLastBlockThinIndex, getLastBlockIndex, isProofOfStake_toThin,
        ne_eq, List.map_eq_nil_iff]
      split
      · exact ih
      · rfl

theorem getLastBlockIndex_ne_nil (fProofOfStake : Bool) (b : CBlockIndex) (pprev : List CBlockIndex) :
    getLastBlockIndex fProofOfStake (b :: pprev) ≠ [] := by
  induction pprev generalizing b with
  | nil => simp [getLastBlockIndex]
  | cons b' pprev ih =>
      rw [getLastBlockIndex]
      split
      · exact ih b'
      · simp

/-! ## Spacing and gap -/

def fullSpacing (nHeight : Int) : Int :=
  if nHeight < NEW_TARGET_SPACING_FORK_BLOCK then BLOCK_SPACINGv3 - 150
  else if nHeight < TARGET_SPACING_V3_FORK_BLOCK then BLOCK_SPACINGv3 - 120
  else BLOCK_SPACINGv3

def thinSpacing (nHeight : Int) : Int := if nHeight < NEW_TARGET_SPACING_FORK_BLOCK then 90 else 120

/-- The gap with one cap. -/
def cappedGap (fCap : Bool) (cap gap : Int) : Int := if fCap ∧ gap > cap then cap else gap

def fullGap (params : CChainParams) (nHeight gap : Int) : Int :=
  let gap := if gap < 0 then fullSpacing nHeight else gap
  let gap := cappedGap (params.isProtocolVFork1 nHeight) (fullSpacing nHeight * 10) gap
  cappedGap (params.isProtocolVFork2 nHeight) (fullSpacing nHeight * 20) gap

def thinGap (params : CChainParams) (nHeight gap : Int) : Int :=
  let gap := if gap < 0 then thinSpacing nHeight else gap
  cappedGap (params.isProtocolVFork2 nHeight) (thinSpacing nHeight * 20) gap

/-- The limit that the last step applies. -/
def targetLimit (params : CChainParams) (nHeight : Int) (fProofOfStake : Bool) : CBigNum :=
  if params.isProtocolVFork2 nHeight then
    if fProofOfStake then params.proofOfStakeLimitVFork2 nHeight else params.proofOfWorkLimit
  else if fProofOfStake then params.proofOfStakeLimit nHeight else params.proofOfWorkLimit

/-- The limit for the first blocks of a kind. -/
def firstLimit (params : CChainParams) (nHeight : Int) (fProofOfStake : Bool) : CBigNum :=
  if fProofOfStake then params.proofOfStakeLimit nHeight else params.proofOfWorkLimit

def clampTarget (limit bnNew : CBigNum) : CBigNum := if bnNew ≤ 0 ∨ bnNew > limit then limit else bnNew

theorem limitedTarget_eq (params : CChainParams) (nHeight : Int) (fProofOfStake : Bool) (bnNew : CBigNum) :
    limitedTarget params nHeight
      (if fProofOfStake then params.proofOfStakeLimit nHeight else params.proofOfWorkLimit)
      (if fProofOfStake then params.proofOfStakeLimitVFork2 nHeight else params.proofOfWorkLimit) bnNew =
    clampTarget (targetLimit params nHeight fProofOfStake) bnNew := by
  unfold limitedTarget targetLimit
  split <;> rfl

/-- The answer of either function, given the spacing and the gap it uses. -/
def retarget (params : CChainParams) (nHeight : Int) (fProofOfStake : Bool) (spacing : Int)
    (gapOf : Int → Int) : Option (CBlockIndex × CBlockIndex) → UInt32
  | none => (firstLimit params nHeight fProofOfStake).getCompact
  | some (prev, prevPrev) =>
      (clampTarget (targetLimit params nHeight fProofOfStake)
        (scaledTarget prev.nBits spacing (gapOf (prev.getBlockTime - prevPrev.getBlockTime)))).getCompact

theorem fullSpacing_pos (nHeight : Int) : 0 < fullSpacing nHeight := by
  unfold fullSpacing; split
  · decide
  · split <;> decide

theorem getNextTargetRequired_cons (params : CChainParams) (last : CBlockIndex)
    (rest : List CBlockIndex) (fProofOfStake : Bool) :
    getNextTargetRequired params (last :: rest) fProofOfStake =
      some (retarget params last.nHeight fProofOfStake (fullSpacing last.nHeight)
        (fullGap params last.nHeight) (retargetBlocks fProofOfStake (last :: rest))) := by
  unfold getNextTargetRequired retargetBlocks
  rcases hprev : getLastBlockIndex fProofOfStake (last :: rest) with _ | ⟨prev, _ | ⟨b, pprev⟩⟩
  · exact absurd hprev (getLastBlockIndex_ne_nil _ _ _)
  · rfl
  · rcases hpp : getLastBlockIndex fProofOfStake (b :: pprev) with _ | ⟨prevPrev, _ | ⟨b', rest'⟩⟩
    · exact absurd hpp (getLastBlockIndex_ne_nil _ _ _)
    · simp only [hpp]; rfl
    · simp only [hpp, limitedTarget_eq]
      -- The second test for a negative gap never fires: the first one has replaced it.
      have hredundant : ¬ (last.nHeight > TARGET_SPACING_V3_FORK_BLOCK + 1 ∧
          (if prev.getBlockTime - prevPrev.getBlockTime < 0 then fullSpacing last.nHeight
            else prev.getBlockTime - prevPrev.getBlockTime) < 0) := by
        have hpos := fullSpacing_pos last.nHeight
        split <;> omega
      unfold fullSpacing at hredundant
      rw [if_neg hredundant]
      rfl

theorem getNextTargetRequiredThin_cons (params : CChainParams) (last : CBlockIndex)
    (rest : List CBlockIndex) (fProofOfStake : Bool) :
    getNextTargetRequiredThin params ((last :: rest).map CBlockIndex.toThin) fProofOfStake =
      some (retarget params last.nHeight fProofOfStake (thinSpacing last.nHeight)
        (thinGap params last.nHeight) (retargetBlocks fProofOfStake (last :: rest))) := by
  have hmap := getLastBlockThinIndex_map fProofOfStake (last :: rest)
  rw [List.map_cons] at hmap ⊢
  unfold getNextTargetRequiredThin retargetBlocks
  rw [hmap]
  rcases hprev : getLastBlockIndex fProofOfStake (last :: rest) with _ | ⟨prev, _ | ⟨b, pprev⟩⟩
  · exact absurd hprev (getLastBlockIndex_ne_nil _ _ _)
  · rfl
  · have hmap' := getLastBlockThinIndex_map fProofOfStake (b :: pprev)
    rw [List.map_cons] at hmap'
    simp only [List.map_cons, hmap']
    rcases hpp : getLastBlockIndex fProofOfStake (b :: pprev) with _ | ⟨prevPrev, _ | ⟨b', rest'⟩⟩
    · exact absurd hpp (getLastBlockIndex_ne_nil _ _ _)
    · simp only [List.map_cons, List.map_nil]; rfl
    · simp only [List.map_cons]
      exact congrArg (fun t => some t.getCompact) (limitedTarget_eq ..)

/-!
## When two targets have the same compact form

The full node multiplies the last target by a smaller weight than the thin node. The two results are
compared after the limit has been applied and the low bytes have been dropped.
-/

open CompactFloat

/-! ## After the limit -/

theorem clampTarget_of_nonpos {limit bnNew : CBigNum} (h : bnNew ≤ 0) : clampTarget limit bnNew = limit :=
  if_pos (Or.inl h)

theorem clampTarget_natCast (limit x : Nat) :
    clampTarget (limit : Int) (x : Int) = ((if x = 0 ∨ limit < x then limit else x : Nat) : Int) := by
  have hiff : ((x : Int) ≤ 0 ∨ (x : Int) > limit) ↔ (x = 0 ∨ limit < x) := by omega
  by_cases h : x = 0 ∨ limit < x
  · rw [if_pos h]; exact if_pos (hiff.mpr h)
  · rw [if_neg h]; exact if_neg (mt hiff.mp h)

/-- Two numbers, the smaller one first, that are seen as different when they differ. -/
theorem floor_clamp_eq_iff {limit x y : Nat} (hlimit : limit = 0 ∨ 2 ≤ limit) (hxy : x ≤ y)
    (hseen : 0 < x → x < y → floor x < floor y) (hzero : x = 0 → y ≤ 1) :
    floor (if x = 0 ∨ limit < x then limit else x) = floor (if y = 0 ∨ limit < y then limit else y) ↔
      x = y ∨ floor limit ≤ x := by
  rcases Nat.eq_zero_or_pos limit with hl | hl
  · subst hl
    have hx : (if x = 0 ∨ 0 < x then 0 else x) = 0 := by split <;> omega
    have hy : (if y = 0 ∨ 0 < y then 0 else y) = 0 := by split <;> omega
    rw [hx, hy, floor_zero]
    simp
  · have hlimit2 : 2 ≤ floor limit := by
      have hmono : floor 2 ≤ floor limit := floor_mono (by omega)
      rwa [floor_eq_self (n := 2) (show bytes 2 ≤ 3 by decide)] at hmono
    rcases Nat.eq_zero_or_pos x with hx | hx
    · have hy := hzero hx
      rcases Nat.eq_zero_or_pos y with hy0 | hy0
      · simp [hx, hy0]
      · have hy1 : y = 1 := by omega
        have hfloor : floor 1 = 1 := floor_eq_self (by decide)
        rw [if_pos (Or.inl hx), if_neg (by omega), hy1, hfloor]
        constructor <;> intro h <;> omega
    · by_cases hxl : limit < x
      · have hle := floor_le limit
        rw [if_pos (Or.inr hxl), if_pos (Or.inr (by omega))]
        constructor <;> intro <;> omega
      · rw [if_neg (by omega)]
        by_cases hyl : limit < y
        · rw [if_pos (Or.inr hyl)]
          constructor
          · intro h
            right; rw [← h]; exact floor_le x
          · rintro (h | h)
            · omega
            · exact floor_eq_of_le h (by omega)
        · rw [if_neg (by omega)]
          constructor
          · intro h
            rcases Nat.lt_or_eq_of_le hxy with hlt | heq
            · have hlt' := hseen hx hlt
              omega
            · exact Or.inl heq
          · rintro (h | h)
            · rw [h]
            · rw [floor_eq_of_le h (by omega), floor_eq_of_le (h.trans hxy) (by omega)]

theorem getCompact_clampTarget_eq_iff {limit t p q d : Nat} (hlimit : limit = 0 ∨ 2 ≤ limit)
    (hbytes : bytes limit < 256) (ht : 0 < t) (hd : 0 < d) (hp : 0 < p) (hp' : p ≤ 2 ^ 15)
    (hpq : p + 2 ≤ q) (hsmall : p < d → d ≤ 2 * p ∧ q < 2 * d) :
    (clampTarget (limit : Int) ((t * p / d : Nat) : Int)).getCompact =
        (clampTarget (limit : Int) ((t * q / d : Nat) : Int)).getCompact ↔
      t * p / d = t * q / d ∨ floor limit ≤ t * p / d := by
  have hxy : t * p / d ≤ t * q / d := Nat.div_le_div_right (Nat.mul_le_mul_left _ (by omega))
  have hzero : t * p / d = 0 → t * q / d ≤ 1 := by
    intro h
    have htp : t * p < d := Nat.lt_of_div_eq_zero hd h
    have hpd : p < d := lt_of_le_of_lt (Nat.le_mul_of_pos_left p ht) htp
    obtain ⟨hdp, hqd⟩ := hsmall hpd
    have ht2 : t < 2 := Nat.lt_of_mul_lt_mul_right (htp.trans_le hdp)
    have ht1 : t = 1 := by omega
    have hlt : q / d < 2 := (Nat.div_lt_iff_lt_mul hd).mpr hqd
    rw [ht1, one_mul]; omega
  have hclamped : ∀ x : Nat, bytes (if x = 0 ∨ limit < x then limit else x) < 256 := by
    intro x
    apply lt_of_le_of_lt (bytes_mono _) hbytes
    split <;> omega
  rw [clampTarget_natCast, clampTarget_natCast, CBigNum.getCompact_eq_iff (hclamped _) (hclamped _)]
  exact floor_clamp_eq_iff hlimit hxy (fun _ hlt => floor_scale_lt hp hp' hpq hlt) hzero

/-! ## The weights -/

/-- What the last target is multiplied by, before the division by `weightTotal`. -/
def gapWeight (spacing gap : Int) : Int := (nTargetTimespan.tdiv spacing - 1) * spacing + gap + gap

def weightTotal (spacing : Int) : Int := (nTargetTimespan.tdiv spacing + 1) * spacing

theorem scaledTarget_eq (nBits : UInt32) (spacing gap : Int) :
    scaledTarget nBits spacing gap =
      (CBigNum.setCompact nBits * gapWeight spacing gap).tdiv (weightTotal spacing) := rfl

theorem thinSpacing_pos (nHeight : Int) : 0 < thinSpacing nHeight := by
  unfold thinSpacing; split <;> decide

theorem fullSpacing_cases (nHeight : Int) :
    (nHeight < 390000 ∧ fullSpacing nHeight = 90) ∨
    (390000 ≤ nHeight ∧ nHeight < 639000 ∧ fullSpacing nHeight = 120) ∨
    (639000 ≤ nHeight ∧ fullSpacing nHeight = 240) := by
  unfold fullSpacing NEW_TARGET_SPACING_FORK_BLOCK TARGET_SPACING_V3_FORK_BLOCK BLOCK_SPACINGv3
  split
  · left; exact ⟨‹_›, rfl⟩
  · split
    · right; left; exact ⟨by omega, ‹_›, rfl⟩
    · right; right; exact ⟨by omega, rfl⟩

theorem thinSpacing_cases (nHeight : Int) :
    (nHeight < 390000 ∧ thinSpacing nHeight = 90) ∨ (390000 ≤ nHeight ∧ thinSpacing nHeight = 120) := by
  unfold thinSpacing NEW_TARGET_SPACING_FORK_BLOCK
  split
  · left; exact ⟨‹_›, rfl⟩
  · right; exact ⟨by omega, rfl⟩

/-- Both nodes divide by the same total. -/
theorem weightTotal_thin (nHeight : Int) :
    weightTotal (thinSpacing nHeight) = weightTotal (fullSpacing nHeight) := by
  rcases fullSpacing_cases nHeight with ⟨h, hs⟩ | ⟨h, -, hs⟩ | ⟨h, hs⟩ <;>
    rcases thinSpacing_cases nHeight with ⟨h', hs'⟩ | ⟨h', hs'⟩ <;> rw [hs, hs'] <;>
    first | rfl | omega

/-- A gap that is one spacing leaves the target as it is. -/
theorem gapWeight_self (spacing : Int) : gapWeight spacing spacing = weightTotal spacing := by
  unfold gapWeight weightTotal; ring

/-!
## The weights of the two nodes

In closed form, with what the comparison of rounded targets needs to know about them.
-/

/-! ## Weights in closed form -/

/-- The gap is treated alike: it is negative, or it is below the cap before the last spacing change. -/
def GapAgrees (params : CChainParams) (nHeight gap : Int) : Prop :=
  gap < 0 ∨ (nHeight < 639000 ∧
    (params.isProtocolVFork1 nHeight = false ∨ gap ≤ if nHeight < 390000 then 900 else 1200))

/-- The weight of a full node, for a gap that is not treated alike. -/
def fullWeight (nHeight gap : Int) : Int :=
  if nHeight < 390000 then 3510 else if nHeight < 639000 then 4080 else 1440 + 2 * min gap 2400

/-- The weight of a thin node, for a gap that is not treated alike. -/
def thinWeight (params : CChainParams) (nHeight gap : Int) : Int :=
  if nHeight < 390000 then 1710 + 2 * (if params.isProtocolVFork2 nHeight then min gap 1800 else gap)
  else 1680 + 2 * (if params.isProtocolVFork2 nHeight then min gap 2400 else gap)

def totalWeight (nHeight : Int) : Int := if nHeight < 390000 then 1890 else 1920

/-! ## The networks -/

/-- What the comparison needs to know about a network. -/
structure CChainParams.Usual (params : CChainParams) : Prop where
  fork1 : params.nStartPosvFork1Block < 639000
  fork2 : params.nStartPosvFork2Block < 639000
  limit : ∀ nHeight fProofOfStake, ∃ n : Nat, targetLimit params nHeight fProofOfStake = n ∧
    (n = 0 ∨ 2 ≤ n) ∧ bytes n < 256

theorem limitShiftedBy_usual {n : Nat} (h : n ≤ 40) : ∃ m : Nat, CChainParams.limitShiftedBy n = m ∧
    (m = 0 ∨ 2 ≤ m) ∧ bytes m < 256 := by
  refine ⟨_, rfl, Or.inr ?_, ?_⟩
  · apply (Nat.le_div_iff_mul_le (Nat.two_pow_pos n)).mpr
    have hpow : 2 ^ n ≤ 2 ^ 40 := Nat.pow_le_pow_right (by decide) h
    omega
  · have hlt : ∀ s, 32 ≤ s → (2 ^ 256 - 1) / 2 ^ n < 2 ^ (8 * s + 7) := by
      intro s hs
      calc (2 ^ 256 - 1) / 2 ^ n ≤ 2 ^ 256 - 1 := Nat.div_le_self _ _
        _ < 2 ^ 256 := Nat.sub_lt (Nat.two_pow_pos 256) Nat.one_pos
        _ ≤ 2 ^ (8 * s + 7) := Nat.pow_le_pow_right (by decide) (by omega)
    exact lt_of_le_of_lt (bytes_le_succ_iff.mpr (hlt 32 le_rfl)) (by decide)

theorem zero_usual : ∃ m : Nat, (0 : CBigNum) = m ∧ (m = 0 ∨ 2 ≤ m) ∧ bytes m < 256 :=
  ⟨0, rfl, Or.inl rfl, by decide⟩

theorem Network.params_usual (network : Network) : network.params.Usual := by
  cases network with
  | main =>
      refine ⟨by decide, by decide, fun nHeight fProofOfStake => ?_⟩
      unfold targetLimit CChainParams.proofOfStakeLimit CChainParams.proofOfStakeLimitVFork2
      split_ifs <;> exact limitShiftedBy_usual (by decide)
  | testnet =>
      refine ⟨by decide, by decide, fun nHeight fProofOfStake => ?_⟩
      unfold targetLimit CChainParams.proofOfStakeLimit CChainParams.proofOfStakeLimitVFork2
      split_ifs <;> first | exact zero_usual | exact limitShiftedBy_usual (by decide)
  | regtest =>
      refine ⟨by decide, by decide, fun nHeight fProofOfStake => ?_⟩
      unfold targetLimit CChainParams.proofOfStakeLimit CChainParams.proofOfStakeLimitVFork2
      split_ifs <;> first | exact zero_usual | exact limitShiftedBy_usual (by decide)

/-! ## The last gap -/

theorem isProtocolVFork1_of_le {params : CChainParams} (hparams : params.Usual) {nHeight : Int}
    (h : 639000 ≤ nHeight) : params.isProtocolVFork1 nHeight = true := by
  have hfork := hparams.fork1
  unfold CChainParams.isProtocolVFork1
  exact decide_eq_true (by omega)

theorem isProtocolVFork2_of_le {params : CChainParams} (hparams : params.Usual) {nHeight : Int}
    (h : 639000 ≤ nHeight) : params.isProtocolVFork2 nHeight = true := by
  have hfork := hparams.fork2
  unfold CChainParams.isProtocolVFork2
  exact decide_eq_true (by omega)

theorem cappedGap_nonneg {fCap : Bool} {cap gap : Int} (hcap : 0 ≤ cap) (hgap : 0 ≤ gap) :
    0 ≤ cappedGap fCap cap gap := by
  unfold cappedGap; split <;> assumption

theorem cappedGap_of_le {fCap : Bool} {cap gap : Int} (h : gap ≤ cap) : cappedGap fCap cap gap = gap := by
  exact if_neg (not_and.mpr fun _ => not_lt.mpr h)

theorem cappedGap_true (cap gap : Int) : cappedGap true cap gap = min gap cap := by
  by_cases h : gap > cap <;> simp [cappedGap, h] <;> omega

theorem fullSpacing_eq_thinSpacing {nHeight : Int} (h : nHeight < 639000) :
    fullSpacing nHeight = thinSpacing nHeight ∧
      fullSpacing nHeight * 10 = if nHeight < 390000 then 900 else 1200 := by
  rcases fullSpacing_cases nHeight with ⟨h', hs⟩ | ⟨h', -, hs⟩ | ⟨h', hs⟩ <;>
    rcases thinSpacing_cases nHeight with ⟨h'', hs'⟩ | ⟨h'', hs'⟩ <;> rw [hs, hs'] <;>
    constructor <;> first | rfl | omega

/-- A gap that is treated alike gives both nodes one weight. -/
theorem gapWeight_of_gapAgrees {params : CChainParams} {nHeight gap : Int}
    (h : GapAgrees params nHeight gap) :
    gapWeight (fullSpacing nHeight) (fullGap params nHeight gap) =
      gapWeight (thinSpacing nHeight) (thinGap params nHeight gap) := by
  have hfull := fullSpacing_pos nHeight
  have hthin := thinSpacing_pos nHeight
  by_cases hneg : gap < 0
  · have hgap : fullGap params nHeight gap = fullSpacing nHeight := by
      rw [fullGap, if_pos hneg, cappedGap_of_le (show fullSpacing nHeight ≤ _ by omega)]
      exact cappedGap_of_le (by omega)
    have hgap' : thinGap params nHeight gap = thinSpacing nHeight := by
      rw [thinGap, if_pos hneg]
      exact cappedGap_of_le (by omega)
    rw [hgap, hgap', gapWeight_self, gapWeight_self, weightTotal_thin]
  · rcases h with h | ⟨hheight, h⟩
    · exact absurd h hneg
    · obtain ⟨hspacing, hten⟩ := fullSpacing_eq_thinSpacing hheight
      have hgap : fullGap params nHeight gap = thinGap params nHeight gap := by
        rw [fullGap, thinGap, if_neg hneg, if_neg hneg, hspacing]
        rcases h with hfork | hle
        · rw [hfork]
          simp only [cappedGap, Bool.false_eq_true, false_and, ↓reduceIte]
        · rw [← hten, hspacing] at hle
          rw [cappedGap_of_le hle]
      rw [hgap, hspacing]

/-- The weights of a gap that is not treated alike. -/
theorem gapWeight_full {params : CChainParams} (hparams : params.Usual) {nHeight gap : Int}
    (h : ¬ GapAgrees params nHeight gap) :
    gapWeight (fullSpacing nHeight) (fullGap params nHeight gap) = fullWeight nHeight gap := by
  have hneg : ¬ gap < 0 := fun hneg => h (Or.inl hneg)
  have hcap : nHeight < 639000 →
      params.isProtocolVFork1 nHeight = true ∧ fullSpacing nHeight * 10 < gap := by
    intro hheight
    rw [(fullSpacing_eq_thinSpacing hheight).2]
    by_contra hnot
    rw [not_and_or, Bool.not_eq_true, not_lt] at hnot
    exact h (Or.inr ⟨hheight, hnot⟩)
  have hfork : params.isProtocolVFork1 nHeight = true := by
    by_cases hheight : nHeight < 639000
    · exact (hcap hheight).1
    · exact isProtocolVFork1_of_le hparams (by omega)
  have hfull := fullSpacing_pos nHeight
  have hgap : fullGap params nHeight gap = min gap (fullSpacing nHeight * 10) := by
    rw [fullGap, if_neg hneg, hfork, cappedGap_true]
    exact cappedGap_of_le (by omega)
  rw [hgap, fullWeight]
  rcases fullSpacing_cases nHeight with ⟨hh, hs⟩ | ⟨hh, hh', hs⟩ | ⟨hh, hs⟩
  · have hlt := (hcap (by omega)).2
    rw [hs] at hlt
    rw [hs, if_pos hh, gapWeight, show nTargetTimespan.tdiv 90 = 20 from rfl]
    omega
  · have hlt := (hcap hh').2
    rw [hs] at hlt
    rw [hs, if_neg (by omega), if_pos hh', gapWeight, show nTargetTimespan.tdiv 120 = 15 from rfl]
    omega
  · rw [hs, if_neg (by omega), if_neg (by omega), gapWeight, show nTargetTimespan.tdiv 240 = 7 from rfl]
    omega

theorem gapWeight_thin {params : CChainParams} {nHeight gap : Int}
    (h : ¬ GapAgrees params nHeight gap) :
    gapWeight (thinSpacing nHeight) (thinGap params nHeight gap) = thinWeight params nHeight gap := by
  have hneg : ¬ gap < 0 := fun hneg => h (Or.inl hneg)
  have hgap : thinGap params nHeight gap =
      if params.isProtocolVFork2 nHeight then min gap (thinSpacing nHeight * 20) else gap := by
    rw [thinGap, if_neg hneg]
    cases params.isProtocolVFork2 nHeight with
    | true => exact cappedGap_true _ _
    | false => simp [cappedGap]
  rw [hgap, thinWeight]
  rcases thinSpacing_cases nHeight with ⟨hh, hs⟩ | ⟨hh, hs⟩
  · rw [hs, if_pos hh, gapWeight, show nTargetTimespan.tdiv 90 = 20 from rfl]
    split <;> omega
  · have hh' : ¬ nHeight < 390000 := by omega
    rw [hs, if_neg hh', gapWeight, show nTargetTimespan.tdiv 120 = 15 from rfl]
    split <;> omega

theorem weightTotal_full (nHeight : Int) : weightTotal (fullSpacing nHeight) = totalWeight nHeight := by
  rw [← weightTotal_thin, totalWeight]
  rcases thinSpacing_cases nHeight with ⟨hh, hs⟩ | ⟨hh, hs⟩
  · rw [hs, if_pos hh]; rfl
  · rw [hs, if_neg (by omega)]; rfl

/-- The weights of a gap that is not treated alike, as the comparison of rounded targets needs them. -/
theorem weights_spread {params : CChainParams} (hparams : params.Usual) {nHeight gap : Int}
    (h : ¬ GapAgrees params nHeight gap) :
    ∃ p q d : Nat, fullWeight nHeight gap = p ∧ thinWeight params nHeight gap = q ∧
      totalWeight nHeight = d ∧ 0 < p ∧ p ≤ 2 ^ 15 ∧ p + 2 ≤ q ∧ 0 < d ∧
      (p < d → d ≤ 2 * p ∧ q < 2 * d) := by
  have hneg : ¬ gap < 0 := fun hneg => h (Or.inl hneg)
  have hcap : nHeight < 639000 → (if nHeight < 390000 then 900 else 1200) < gap := by
    intro hheight
    by_contra hle
    exact h (Or.inr ⟨hheight, Or.inr (by omega)⟩)
  have hfork : 639000 ≤ nHeight → params.isProtocolVFork2 nHeight = true :=
    isProtocolVFork2_of_le hparams
  refine ⟨(fullWeight nHeight gap).toNat, (thinWeight params nHeight gap).toNat,
    (totalWeight nHeight).toNat, ?_⟩
  unfold fullWeight thinWeight totalWeight
  by_cases h1 : nHeight < 390000
  · have hlt := hcap (by omega)
    rw [if_pos h1] at hlt
    simp only [if_pos h1]
    split <;> omega
  · by_cases h2 : nHeight < 639000
    · have hlt := hcap h2
      rw [if_neg h1] at hlt
      simp only [if_neg h1, if_pos h2]
      split <;> omega
    · simp only [if_neg h1, if_neg h2, hfork (by omega), ↓reduceIte]
      omega

/-! ## Signs -/

theorem tdiv_nonpos {a b : Int} (ha : a ≤ 0) (hb : 0 ≤ b) : a.tdiv b ≤ 0 := by
  have hneg : 0 ≤ (-a).tdiv b := Int.tdiv_nonneg (by omega) hb
  rw [Int.neg_tdiv] at hneg
  omega

theorem totalWeight_pos (nHeight : Int) : 0 < totalWeight nHeight := by
  unfold totalWeight; split <;> decide

theorem fullGap_nonneg (params : CChainParams) (nHeight gap : Int) : 0 ≤ fullGap params nHeight gap := by
  have hpos := fullSpacing_pos nHeight
  unfold fullGap
  apply cappedGap_nonneg (by omega)
  apply cappedGap_nonneg (by omega)
  split <;> omega

theorem thinGap_nonneg (params : CChainParams) (nHeight gap : Int) : 0 ≤ thinGap params nHeight gap := by
  have hpos := thinSpacing_pos nHeight
  unfold thinGap
  apply cappedGap_nonneg (by omega)
  split <;> omega

theorem gapWeight_full_nonneg (nHeight : Int) {gap : Int} (h : 0 ≤ gap) :
    0 ≤ gapWeight (fullSpacing nHeight) gap := by
  rcases fullSpacing_cases nHeight with ⟨-, hs⟩ | ⟨-, -, hs⟩ | ⟨-, hs⟩
  · rw [hs, gapWeight, show nTargetTimespan.tdiv 90 = 20 from rfl]; omega
  · rw [hs, gapWeight, show nTargetTimespan.tdiv 120 = 15 from rfl]; omega
  · rw [hs, gapWeight, show nTargetTimespan.tdiv 240 = 7 from rfl]; omega

theorem gapWeight_thin_nonneg (nHeight : Int) {gap : Int} (h : 0 ≤ gap) :
    0 ≤ gapWeight (thinSpacing nHeight) gap := by
  rcases thinSpacing_cases nHeight with ⟨-, hs⟩ | ⟨-, hs⟩
  · rw [hs, gapWeight, show nTargetTimespan.tdiv 90 = 20 from rfl]; omega
  · rw [hs, gapWeight, show nTargetTimespan.tdiv 120 = 15 from rfl]; omega

/-- A target that is not positive stays so, whatever the gap. -/
theorem scaledTarget_nonpos {nBits : UInt32} (h : CBigNum.setCompact nBits ≤ 0) (params : CChainParams)
    (nHeight gap : Int) :
    scaledTarget nBits (fullSpacing nHeight) (fullGap params nHeight gap) ≤ 0 ∧
      scaledTarget nBits (thinSpacing nHeight) (thinGap params nHeight gap) ≤ 0 := by
  have htotal := (totalWeight_pos nHeight).le
  have hfull := gapWeight_full_nonneg nHeight (fullGap_nonneg params nHeight gap)
  have hthin := gapWeight_thin_nonneg nHeight (thinGap_nonneg params nHeight gap)
  rw [scaledTarget_eq, scaledTarget_eq, weightTotal_thin, weightTotal_full]
  exact ⟨tdiv_nonpos (Int.mul_nonpos_of_nonpos_of_nonneg h hfull) htotal,
    tdiv_nonpos (Int.mul_nonpos_of_nonpos_of_nonneg h hthin) htotal⟩

/-!
## Do thin and full nodes agree on difficulty?

The thin function misses the spacing of 240 seconds and the cap of ten spacings. The two nodes agree
exactly when neither matters for the last gap, or when the limit or the rounding hides it.
-/

/-- The last target and the last gap do not tell the two nodes apart. -/
def TargetAgrees (params : CChainParams) (fProofOfStake : Bool) (nHeight : Int) (target : CBigNum)
    (gap : Int) : Prop :=
  target ≤ 0 ∨ GapAgrees params nHeight gap ∨
  target * fullWeight nHeight gap / totalWeight nHeight =
    target * thinWeight params nHeight gap / totalWeight nHeight ∨
  (floor (targetLimit params nHeight fProofOfStake).toNat : Int) ≤
    target * fullWeight nHeight gap / totalWeight nHeight

def TargetsAgree (params : CChainParams) (fProofOfStake : Bool) (pindexLast : List CBlockIndex) : Prop :=
  match pindexLast, retargetBlocks fProofOfStake pindexLast with
  | last :: _, some (prev, prevPrev) =>
      TargetAgrees params fProofOfStake last.nHeight (CBigNum.setCompact prev.nBits)
        (prev.getBlockTime - prevPrev.getBlockTime)
  | _, _ => True

theorem retarget_thin_eq_iff {params : CChainParams} (hparams : params.Usual) (nHeight : Int)
    (fProofOfStake : Bool) (prev prevPrev : CBlockIndex) :
    retarget params nHeight fProofOfStake (thinSpacing nHeight) (thinGap params nHeight)
        (some (prev, prevPrev)) =
      retarget params nHeight fProofOfStake (fullSpacing nHeight) (fullGap params nHeight)
        (some (prev, prevPrev)) ↔
      TargetAgrees params fProofOfStake nHeight (CBigNum.setCompact prev.nBits)
        (prev.getBlockTime - prevPrev.getBlockTime) := by
  simp only [retarget]
  generalize prev.getBlockTime - prevPrev.getBlockTime = gap
  by_cases htarget : CBigNum.setCompact prev.nBits ≤ 0
  · obtain ⟨hfull, hthin⟩ := scaledTarget_nonpos htarget params nHeight gap
    rw [clampTarget_of_nonpos hfull, clampTarget_of_nonpos hthin]
    exact ⟨fun _ => Or.inl htarget, fun _ => rfl⟩
  · by_cases hgap : GapAgrees params nHeight gap
    · rw [scaledTarget_eq, scaledTarget_eq, gapWeight_of_gapAgrees hgap, weightTotal_thin]
      exact ⟨fun _ => Or.inr (Or.inl hgap), fun _ => rfl⟩
    · obtain ⟨p, q, d, hp, hq, hd, hp0, hp15, hpq, hd0, hsmall⟩ := weights_spread hparams hgap
      obtain ⟨limit, hlimit, hlimit2, hbytes⟩ := hparams.limit nHeight fProofOfStake
      obtain ⟨t, ht⟩ := Int.eq_ofNat_of_zero_le (not_le.mp htarget).le
      have ht0 : 0 < t := by
        rw [ht, Int.not_le] at htarget
        exact Int.natCast_pos.mp htarget
      have hcompare := getCompact_clampTarget_eq_iff hlimit2 hbytes ht0 hd0 hp0 hp15 hpq hsmall
      rw [scaledTarget_eq, scaledTarget_eq, gapWeight_full hparams hgap, gapWeight_thin hgap,
        weightTotal_thin, weightTotal_full]
      have htdiv : ∀ w : Nat, (t * w : Int).tdiv d = ((t * w / d : Nat) : Int) := fun w => by
        rw [← Nat.cast_mul, Int.tdiv_eq_ediv_of_nonneg (Int.natCast_nonneg _), Int.natCast_ediv]
      have hdiv : ∀ w : Nat, (t * w : Int) / d = ((t * w / d : Nat) : Int) := fun w => by push_cast; rfl
      unfold TargetAgrees
      rw [hlimit, hp, hq, hd, ht, htdiv, htdiv, eq_comm, hcompare, hdiv, hdiv, Int.toNat_natCast,
        Nat.cast_inj, Nat.cast_le]
      constructor
      · intro h
        exact Or.inr (Or.inr h)
      · rintro (h | h | h)
        · exact absurd h (by rwa [ht] at htarget)
        · exact absurd h hgap
        · exact h

/-- Thin and full nodes demand the same difficulty exactly for these chains. -/
theorem getNextTargetRequiredThin_eq_iff (network : Network) (pindexLast : List CBlockIndex)
    (fProofOfStake : Bool) :
    getNextTargetRequiredThin network.params (pindexLast.map CBlockIndex.toThin) fProofOfStake =
        getNextTargetRequired network.params pindexLast fProofOfStake ↔
      TargetsAgree network.params fProofOfStake pindexLast := by
  cases pindexLast with
  | nil => exact ⟨fun _ => trivial, fun _ => rfl⟩
  | cons last rest =>
      rw [getNextTargetRequiredThin_cons, getNextTargetRequired_cons, Option.some.injEq]
      unfold TargetsAgree
      rcases hblocks : retargetBlocks fProofOfStake (last :: rest) with _ | ⟨prev, prevPrev⟩
      · exact ⟨fun _ => trivial, fun _ => rfl⟩
      · exact retarget_thin_eq_iff network.params_usual ..

/-! ## A late block -/

/-- Three blocks over the genesis block, the last one an hour late. -/
def lateChain : List CBlockIndex :=
  [{ nHeight := 3, nFlags := 0, nTime := 1488379332, nBits := 0x1d00ffff },
   { nHeight := 2, nFlags := 0, nTime := 1488375732, nBits := 0x1d00ffff },
   { nHeight := 1, nFlags := 0, nTime := 1488375642, nBits := 0x1d00ffff },
   { nHeight := 0, nFlags := 0, nTime := 1488375552, nBits := 0x207fffff }]

theorem lateChain_ne :
    getNextTargetRequired Network.regtest.params lateChain false = some 0x1d01db6b ∧
      getNextTargetRequiredThin Network.regtest.params (lateChain.map CBlockIndex.toThin) false =
        some 0x1d02cf3a ∧
      getNextTargetRequiredThin Network.regtest.params (lateChain.map CBlockIndex.toThin) false ≠
        getNextTargetRequired Network.regtest.params lateChain false := by
  decide +kernel

end ProCurrency
