import ProCurrency.Index.Span

/-!
# The blocks behind a stake modifier

The scan of `SelectBlockFromCandidates` stops at the first candidate after the stop time once it has one, and so finds
the least selection hash up to the stop time. Over all rounds of `ComputeNextStakeModifier` the blocks are distinct, and
their entropy bits are the bits of the new modifier.
-/

namespace ProCurrency

open ByteCodec ParentTree

/-! ## Candidates -/

theorem pairLe_trans {a b c : Int × UInt256} (hab : pairLe a b = true) (hbc : pairLe b c = true) : pairLe a c = true := by
  simp only [pairLe, Bool.or_eq_true, Bool.and_eq_true, decide_eq_true_eq] at hab hbc ⊢
  rcases hab with hab | ⟨hab, hle⟩
  · rcases hbc with hbc | ⟨hbc, -⟩
    · exact .inl (hab.trans hbc)
    · exact .inl (hbc ▸ hab)
  · rcases hbc with hbc | ⟨hbc, hle'⟩
    · exact .inl (hab ▸ hbc)
    · exact .inr ⟨hab.trans hbc, BitVec.le_trans hle hle'⟩

theorem pairLe_total (a b : Int × UInt256) : (pairLe a b || pairLe b a) = true := by
  simp only [pairLe, Bool.or_eq_true, Bool.and_eq_true, decide_eq_true_eq]
  rcases lt_trichotomy a.1 b.1 with hlt | heq | hgt
  · exact .inl (.inl hlt)
  · rcases BitVec.le_total a.2 b.2 with hle | hle
    · exact .inl (.inr ⟨heq, hle⟩)
    · exact .inr (.inr ⟨heq.symm, hle⟩)
  · exact .inr (.inl hgt)

theorem fst_le_of_pairLe {a b : Int × UInt256} (h : pairLe a b = true) : a.1 ≤ b.1 := by
  simp only [pairLe, Bool.or_eq_true, Bool.and_eq_true, decide_eq_true_eq] at h
  rcases h with h | ⟨h, -⟩
  · exact h.le
  · exact h.le

namespace StakeIndex

def candidate (b : StakeIndex) : Int × UInt256 := (b.getBlockTime, b.hashBlock)

/-- In the order of `vSortedByTimestamp`. -/
def EarlierEq (a b : StakeIndex) : Prop := pairLe a.candidate b.candidate = true

theorem EarlierEq.time {a b : StakeIndex} (h : EarlierEq a b) : a.getBlockTime ≤ b.getBlockTime := fst_le_of_pairLe h

theorem EarlierEq.refl (a : StakeIndex) : EarlierEq a a := by
  simpa [EarlierEq] using pairLe_total a.candidate a.candidate

end StakeIndex

/-- The blocks from `pindexPrev` back to the start of the interval. -/
def intervalBlocks (nSelectionIntervalStart : Int) (chain : List StakeIndex) : List StakeIndex :=
  chain.takeWhile fun pindex => nSelectionIntervalStart ≤ pindex.getBlockTime

theorem stakeCandidates_eq (nStart : Int) (chain : List StakeIndex) :
    stakeCandidates nStart chain = (intervalBlocks nStart chain).map StakeIndex.candidate := by
  induction chain with
  | nil => rfl
  | cons pindex pprev ih =>
      rw [stakeCandidates, intervalBlocks, List.takeWhile_cons]
      by_cases hstart : nStart ≤ pindex.getBlockTime
      · simp [hstart, ih, intervalBlocks, StakeIndex.candidate]
      · simp [hstart]

/-! ## One round -/

section

variable (hash : List UInt8 → UInt256)

/-- The hash of the proof and the last modifier; that of a proof-of-stake block is divided by 2^32. -/
def selectionHash (nStakeModifierPrev : UInt64) (pindex : StakeIndex) : UInt256 :=
  let hashSelection := hash (writeUInt256 pindex.hashProof ++ leBytes 8 nStakeModifierPrev.toNat)
  if pindex.isProofOfStake then hashSelection >>> 32 else hashSelection

/-- The order in which a round prefers its blocks. -/
def Beats (nStakeModifierPrev : UInt64) (a b : StakeIndex) : Prop :=
  selectionHash hash nStakeModifierPrev a < selectionHash hash nStakeModifierPrev b ∨
    selectionHash hash nStakeModifierPrev a = selectionHash hash nStakeModifierPrev b ∧ a.EarlierEq b

/-- What a round takes of the blocks that are left: the one with the least selection hash up to the stop time, the
earliest of these when there are several; and the earliest of all when there is none up to the stop time. -/
structure Selects (nStakeModifierPrev : UInt64) (nSelectionIntervalStop : Int) (left : List StakeIndex)
    (pindexSelected : StakeIndex) : Prop where
  mem : pindexSelected ∈ left
  least : ∀ pindex ∈ left, pindex.getBlockTime ≤ nSelectionIntervalStop →
    pindexSelected.getBlockTime ≤ nSelectionIntervalStop ∧ Beats hash nStakeModifierPrev pindexSelected pindex
  earliest : nSelectionIntervalStop < pindexSelected.getBlockTime → ∀ pindex ∈ left, pindexSelected.EarlierEq pindex

/-- The blocks that no round has taken. -/
def unselected (mapSelectedBlocks : List UInt256) (blocks : List StakeIndex) : List StakeIndex :=
  blocks.filter fun pindex => pindex.hashBlock ∉ mapSelectedBlocks

end

theorem mem_unselected {mapSelectedBlocks : List UInt256} {blocks : List StakeIndex} {pindex : StakeIndex} :
    pindex ∈ unselected mapSelectedBlocks blocks ↔ pindex ∈ blocks ∧ pindex.hashBlock ∉ mapSelectedBlocks := by
  simp [unselected]

theorem Selects.congr {hash : List UInt8 → UInt256} {nPrev : UInt64} {nStop : Int} {left left' : List StakeIndex}
    {pindexSelected : StakeIndex} (h : Selects hash nPrev nStop left pindexSelected)
    (hmem : ∀ pindex, pindex ∈ left' ↔ pindex ∈ left) : Selects hash nPrev nStop left' pindexSelected where
  mem := (hmem _).mpr h.mem
  least pindex hp := h.least pindex ((hmem pindex).mp hp)
  earliest hlate pindex hp := h.earliest hlate pindex ((hmem pindex).mp hp)

section

variable {hash : List UInt8 → UInt256} {mapBlockIndex : UInt256 → Option StakeIndex} {mapSelectedBlocks : List UInt256}
  {nStop : Int} {nPrev : UInt64} {blocks : List StakeIndex}

/-- One candidate, once the scan has a block. -/
theorem selectBlockFromCandidates_cons_some {pindex : StakeIndex}
    (hentry : mapBlockIndex pindex.hashBlock = some pindex) (hashBest : UInt256) (best : StakeIndex)
    (items : List (Int × UInt256)) :
    selectBlockFromCandidates hash mapBlockIndex mapSelectedBlocks nStop nPrev (some (hashBest, best))
        (pindex.candidate :: items) =
      if nStop < pindex.getBlockTime then some best
      else if pindex.hashBlock ∈ mapSelectedBlocks then
        selectBlockFromCandidates hash mapBlockIndex mapSelectedBlocks nStop nPrev (some (hashBest, best)) items
      else if selectionHash hash nPrev pindex < hashBest then
        selectBlockFromCandidates hash mapBlockIndex mapSelectedBlocks nStop nPrev
          (some (selectionHash hash nPrev pindex, pindex)) items
      else selectBlockFromCandidates hash mapBlockIndex mapSelectedBlocks nStop nPrev (some (hashBest, best)) items := by
  rw [selectBlockFromCandidates, StakeIndex.candidate, hentry, ← apply_ite fun best =>
    selectBlockFromCandidates hash mapBlockIndex mapSelectedBlocks nStop nPrev best items]
  simp only [Option.isSome_some, Bool.true_and, decide_eq_true_eq, Option.map_some]
  rfl

/-- One candidate, before the scan has a block. -/
theorem selectBlockFromCandidates_cons_none {pindex : StakeIndex}
    (hentry : mapBlockIndex pindex.hashBlock = some pindex) (items : List (Int × UInt256)) :
    selectBlockFromCandidates hash mapBlockIndex mapSelectedBlocks nStop nPrev none (pindex.candidate :: items) =
      if pindex.hashBlock ∈ mapSelectedBlocks then
        selectBlockFromCandidates hash mapBlockIndex mapSelectedBlocks nStop nPrev none items
      else
        selectBlockFromCandidates hash mapBlockIndex mapSelectedBlocks nStop nPrev
          (some (selectionHash hash nPrev pindex, pindex)) items := by
  rw [selectBlockFromCandidates, StakeIndex.candidate, hentry]
  rfl

theorem unselected_cons_of_mem {pindex : StakeIndex} (h : pindex.hashBlock ∈ mapSelectedBlocks) :
    unselected mapSelectedBlocks (pindex :: blocks) = unselected mapSelectedBlocks blocks := by
  simp [unselected, h]

theorem unselected_cons_of_notMem {pindex : StakeIndex} (h : pindex.hashBlock ∉ mapSelectedBlocks) :
    unselected mapSelectedBlocks (pindex :: blocks) = pindex :: unselected mapSelectedBlocks blocks := by
  simp [unselected, h]

theorem Beats.le {a b : StakeIndex} (h : Beats hash nPrev a b) :
    selectionHash hash nPrev a ≤ selectionHash hash nPrev b := by
  rcases h with h | ⟨h, -⟩
  · exact BitVec.le_of_lt h
  · exact h ▸ BitVec.le_refl _

/-- The scan once it has a block, which stands before the ones that are left: it keeps the block or goes on to one with a
smaller hash up to the stop time. -/
theorem selectBlockFromCandidates_some (hash : List UInt8 → UInt256) (mapSelectedBlocks : List UInt256) (nStop : Int)
    (nPrev : UInt64) (hsorted : blocks.Pairwise StakeIndex.EarlierEq) (hentries : HoldsEntries mapBlockIndex blocks)
    (best : StakeIndex) (hbest : ∀ pindex ∈ blocks, best.EarlierEq pindex) :
    ∃ pindexSelected, selectBlockFromCandidates hash mapBlockIndex mapSelectedBlocks nStop nPrev
        (some (selectionHash hash nPrev best, best)) (blocks.map StakeIndex.candidate) = some pindexSelected ∧
      (pindexSelected = best ∨ pindexSelected ∈ unselected mapSelectedBlocks blocks ∧
        pindexSelected.getBlockTime ≤ nStop ∧ selectionHash hash nPrev pindexSelected < selectionHash hash nPrev best) ∧
      ∀ pindex ∈ unselected mapSelectedBlocks blocks, pindex.getBlockTime ≤ nStop →
        Beats hash nPrev pindexSelected pindex := by
  induction blocks generalizing best with
  | nil => exact ⟨best, rfl, .inl rfl, fun _ hmem => absurd hmem (by simp [unselected])⟩
  | cons pindex blocks ih =>
      obtain ⟨hpindex, hsorted⟩ := List.pairwise_cons.mp hsorted
      obtain ⟨hentry, hentries⟩ := List.forall_mem_cons.mp hentries
      obtain ⟨hfirst, hbest⟩ := List.forall_mem_cons.mp hbest
      rw [List.map_cons, selectBlockFromCandidates_cons_some hentry]
      split_ifs with hstop hselected hless
      · -- every block from here on is after the stop time
        refine ⟨best, rfl, .inl rfl, fun other hother htime => ?_⟩
        have hlate : nStop < other.getBlockTime := by
          rcases List.mem_cons.mp (mem_unselected.mp hother).1 with rfl | hmem
          · exact hstop
          · exact hstop.trans_le (hpindex other hmem).time
        exact absurd htime (not_le.mpr hlate)
      · rw [unselected_cons_of_mem hselected]
        exact ih hsorted hentries best hbest
      · obtain ⟨pindexSelected, hselect, hfrom, hleast⟩ := ih hsorted hentries pindex hpindex
        rw [unselected_cons_of_notMem hselected]
        have hle : Beats hash nPrev pindexSelected pindex := by
          rcases hfrom with rfl | ⟨-, -, hlt⟩
          · exact .inr ⟨rfl, .refl _⟩
          · exact .inl hlt
        refine ⟨pindexSelected, hselect, .inr ⟨?_, ?_, ?_⟩, List.forall_mem_cons.mpr ⟨fun _ => hle, hleast⟩⟩
        · exact List.mem_cons.mpr (hfrom.imp id And.left)
        · rcases hfrom with rfl | ⟨-, htime, -⟩
          · exact not_lt.mp hstop
          · exact htime
        · exact BitVec.lt_def.mpr ((BitVec.le_def.mp hle.le).trans_lt (BitVec.lt_def.mp hless))
      · obtain ⟨pindexSelected, hselect, hfrom, hleast⟩ := ih hsorted hentries best hbest
        rw [unselected_cons_of_notMem hselected]
        have hle : (selectionHash hash nPrev best).toNat ≤ (selectionHash hash nPrev pindex).toNat :=
          BitVec.le_def.mp (BitVec.not_lt.mp hless)
        refine ⟨pindexSelected, hselect, hfrom.imp id fun h => ⟨List.mem_cons_of_mem _ h.1, h.2⟩,
          List.forall_mem_cons.mpr ⟨fun _ => ?_, hleast⟩⟩
        rcases hfrom with rfl | ⟨-, -, hlt⟩
        · rcases hle.lt_or_eq with hlt | heq
          · exact .inl (BitVec.lt_def.mpr hlt)
          · exact .inr ⟨BitVec.eq_of_toNat_eq heq, hfirst⟩
        · exact .inl (BitVec.lt_def.mpr ((BitVec.lt_def.mp hlt).trans_le hle))

/-- A round finds its block when there is one left. -/
theorem selectBlockFromCandidates_selects (hash : List UInt8 → UInt256) (mapSelectedBlocks : List UInt256)
    (nStop : Int) (nPrev : UInt64) (hsorted : blocks.Pairwise StakeIndex.EarlierEq)
    (hentries : HoldsEntries mapBlockIndex blocks) (hleft : unselected mapSelectedBlocks blocks ≠ []) :
    ∃ pindexSelected, selectBlockFromCandidates hash mapBlockIndex mapSelectedBlocks nStop nPrev none
        (blocks.map StakeIndex.candidate) = some pindexSelected ∧
      Selects hash nPrev nStop (unselected mapSelectedBlocks blocks) pindexSelected := by
  induction blocks with
  | nil => exact absurd rfl hleft
  | cons pindex blocks ih =>
      obtain ⟨hpindex, hsorted⟩ := List.pairwise_cons.mp hsorted
      obtain ⟨hentry, hentries⟩ := List.forall_mem_cons.mp hentries
      rw [List.map_cons, selectBlockFromCandidates_cons_none hentry]
      split_ifs with hselected
      · rw [unselected_cons_of_mem hselected] at hleft ⊢
        exact ih hsorted hentries hleft
      · obtain ⟨pindexSelected, hselect, hfrom, hleast⟩ :=
          selectBlockFromCandidates_some hash mapSelectedBlocks nStop nPrev hsorted hentries pindex hpindex
        rw [unselected_cons_of_notMem hselected]
        have hearlier : ∀ other ∈ pindex :: unselected mapSelectedBlocks blocks, pindex.EarlierEq other := by
          intro other hother
          rcases List.mem_cons.mp hother with rfl | hmem
          · exact .refl _
          · exact hpindex other (mem_unselected.mp hmem).1
        refine ⟨pindexSelected, hselect, ?_, fun other hother htime => ?_, fun hlate => ?_⟩
        · exact List.mem_cons.mpr (hfrom.imp id And.left)
        · have htimeSelected : pindexSelected.getBlockTime ≤ nStop := by
            rcases hfrom with rfl | ⟨-, htime', -⟩
            · exact (hearlier other hother).time.trans htime
            · exact htime'
          refine ⟨htimeSelected, ?_⟩
          rcases List.mem_cons.mp hother with rfl | hmem
          · rcases hfrom with rfl | ⟨-, -, hlt⟩
            · exact .inr ⟨rfl, .refl _⟩
            · exact .inl hlt
          · exact hleast other hmem htime
        · rcases hfrom with rfl | ⟨-, htime, -⟩
          · exact hearlier
          · exact absurd htime (not_le.mpr hlate)

/-! ## All rounds -/

/-- The stop time when the sections of so many rounds are added. -/
def selectionIntervalStop (nSelectionIntervalStart : Int) (nRounds : Nat) : Int :=
  nSelectionIntervalStart + ((List.range nRounds).map getStakeModifierSelectionIntervalSection).sum

theorem selectionIntervalStop_succ (nStart : Int) (nRound : Nat) :
    selectionIntervalStop nStart (nRound + 1) =
      selectionIntervalStop nStart nRound + getStakeModifierSelectionIntervalSection nRound := by
  simp [selectionIntervalStop, List.range_succ, add_assoc]

theorem StakeIndex.getStakeEntropyBit_toNat (b : StakeIndex) :
    b.getStakeEntropyBit.toNat = (decide (b.getStakeEntropyBit = 1)).toNat := by
  have hflag : b.getStakeEntropyBit.toNat = (b.nFlags.toNat.testBit 1).toNat := by
    have hshift : b.getStakeEntropyBit.toNat = (b.nFlags.toNat &&& 2 ^ 1) >>> 1 := by
      simp [getStakeEntropyBit, BLOCK_STAKE_ENTROPY]
    rw [hshift, Nat.and_two_pow, Nat.shiftRight_eq_div_pow, Nat.mul_div_cancel _ (by decide)]
  cases hbit : b.nFlags.toNat.testBit 1 with
  | false =>
      rw [hbit] at hflag
      have hzero : b.getStakeEntropyBit = 0 := UInt32.toNat_inj.mp hflag
      rw [hzero]
      rfl
  | true =>
      rw [hbit] at hflag
      have hone : b.getStakeEntropyBit = 1 := UInt32.toNat_inj.mp hflag
      rw [hone]
      rfl

theorem writeEntropyBit_testBit (nNew : UInt64) (b : StakeIndex) {nRound : Nat} (h : nRound < 64) (i : Nat) :
    (nNew ||| b.getStakeEntropyBit.toUInt64 <<< UInt64.ofNat nRound).toNat.testBit i =
      (nNew.toNat.testBit i || (decide (i = nRound) && decide (b.getStakeEntropyBit = 1))) := by
  have hshift : (UInt64.ofNat nRound).toNat % 64 = nRound := by
    simp
    omega
  rw [UInt64.toNat_or, Nat.testBit_or, UInt64.toNat_shiftLeft, UInt32.toNat_toUInt64, hshift, Nat.testBit_mod_two_pow,
    Nat.testBit_shiftLeft, b.getStakeEntropyBit_toNat, Nat.testBit_bool_toNat]
  grind

theorem unselected_ne_nil (hdistinct : (blocks.map (·.hashBlock)).Nodup) (h : mapSelectedBlocks.length < blocks.length) :
    unselected mapSelectedBlocks blocks ≠ [] := by
  intro hnil
  have hsubset : blocks.map (·.hashBlock) ⊆ mapSelectedBlocks := by
    intro hashBlock hmem
    obtain ⟨pindex, hpindex, rfl⟩ := List.mem_map.mp hmem
    by_contra hnot
    have hleft : pindex ∈ unselected mapSelectedBlocks blocks := mem_unselected.mpr ⟨hpindex, hnot⟩
    rw [hnil] at hleft
    cases hleft
  have hlength := (List.subperm_of_subset hdistinct hsubset).length_le
  rw [List.length_map] at hlength
  exact absurd h (not_lt.mpr hlength)

/-- What the rounds after `before` select and write. -/
structure SelectsFrom (hash : List UInt8 → UInt256) (nPrev : UInt64) (nStart : Int) (blocks before selected : List StakeIndex)
    (nNew nStakeModifierNew : UInt64) : Prop where
  begins : before <+: selected
  distinct : (selected.map (·.hashBlock)).Nodup
  selects : ∀ i pindex, before.length ≤ i → selected[i]? = some pindex →
    Selects hash nPrev (selectionIntervalStop nStart (i + 1)) (unselected ((selected.take i).map (·.hashBlock)) blocks) pindex
  bits : ∀ i, nStakeModifierNew.toNat.testBit i =
    (nNew.toNat.testBit i || (decide (before.length ≤ i) && selected[i]?.any (·.getStakeEntropyBit = 1)))

theorem selectRounds_selects (hash : List UInt8 → UInt256) (nPrev : UInt64)
    (hsorted : blocks.Pairwise StakeIndex.EarlierEq) (hentries : HoldsEntries mapBlockIndex blocks)
    (hdistinct : (blocks.map (·.hashBlock)).Nodup) (nStart : Int) (nLeft : Nat) (before : List StakeIndex)
    (hbefore : (before.map (·.hashBlock)).Nodup) (hrounds : before.length + nLeft ≤ min 64 blocks.length) (nNew : UInt64) :
    ∃ selected nStakeModifierNew,
      selectRounds hash mapBlockIndex (blocks.map StakeIndex.candidate) nPrev nLeft before.length
        (selectionIntervalStop nStart before.length) (before.map (·.hashBlock)).reverse nNew = some nStakeModifierNew ∧
      selected.length = before.length + nLeft ∧
      SelectsFrom hash nPrev nStart blocks before selected nNew nStakeModifierNew := by
  induction nLeft generalizing before nNew with
  | zero =>
      refine ⟨before, nNew, rfl, rfl, List.prefix_refl _, hbefore, fun i pindex hi hget => ?_, fun i => ?_⟩
      · rw [List.getElem?_eq_none hi] at hget
        cases hget
      · by_cases hi : before.length ≤ i
        · simp [List.getElem?_eq_none hi]
        · simp [hi]
  | succ nLeft ih =>
      have hlength : before.length < 64 ∧ before.length < blocks.length := by omega
      have hreverse : unselected (before.map (·.hashBlock)).reverse blocks =
      unselected (before.map (·.hashBlock)) blocks := by
        simp [unselected]
      have hleft : unselected (before.map (·.hashBlock)).reverse blocks ≠ [] := by
        refine unselected_ne_nil hdistinct ?_
        simpa using hlength.2
      obtain ⟨pindex, hselect, hselects⟩ := selectBlockFromCandidates_selects hash (before.map (·.hashBlock)).reverse
        (selectionIntervalStop nStart (before.length + 1)) nPrev hsorted hentries hleft
      rw [hreverse] at hselects
      have hfresh := (mem_unselected.mp hselects.mem).2
      have hafter : ((before ++ [pindex]).map (·.hashBlock)).Nodup := by
        rw [List.map_append, List.nodup_append']
        exact ⟨hbefore, List.nodup_singleton _, by simpa using hfresh⟩
      obtain ⟨selected, nStakeModifierNew, hrest, hcount, hbegins, hdistinctSelected, hselectsRest, hbits⟩ :=
        ih (before ++ [pindex]) hafter (by simp; omega)
          (nNew ||| pindex.getStakeEntropyBit.toUInt64 <<< UInt64.ofNat before.length)
      have hget : selected[before.length]? = some pindex := by
        obtain ⟨rest, rfl⟩ := hbegins
        simp
      have htake : selected.take before.length = before := by
        obtain ⟨rest, rfl⟩ := hbegins
        simp
      refine ⟨selected, nStakeModifierNew, ?_, ?_, ?_, hdistinctSelected, fun i other hi hother => ?_, fun i => ?_⟩
      · rw [selectRounds, ← selectionIntervalStop_succ, hselect]
        simpa using hrest
      · rw [hcount, List.length_append, List.length_singleton]
        omega
      · exact (List.prefix_append before [pindex]).trans hbegins
      · rcases hi.eq_or_lt with rfl | hlt
        · rw [hget] at hother
          cases hother
          rw [htake]
          exact hselects
        · exact hselectsRest i other (by simpa using Nat.succ_le_of_lt hlt) hother
      · rw [hbits, writeEntropyBit_testBit _ _ hlength.1, List.length_append, List.length_singleton]
        rcases lt_trichotomy i before.length with hlt | rfl | hgt
        · have hne : i ≠ before.length := by omega
          have hnot : ¬ before.length ≤ i := by omega
          have hnot' : ¬ before.length + 1 ≤ i := by omega
          simp [hne, hnot, hnot']
        · simp [hget]
        · have hne : i ≠ before.length := by omega
          have hle : before.length ≤ i := by omega
          have hle' : before.length + 1 ≤ i := by omega
          simp [hne, hle, hle']

/-! ## The modifier -/

/-- A new modifier is due after `pindexPrev`: the last one is from an interval before. -/
def ModifierDue (pindexPrev : StakeIndex) (pprev : List StakeIndex) (nStakeModifier : UInt64) : Prop :=
  ∃ nModifierTime, getLastStakeModifier (pindexPrev :: pprev) = some (nStakeModifier, nModifierTime) ∧
    nModifierTime / nModifierInterval < pindexPrev.getBlockTime / nModifierInterval

def selectionIntervalStart (pindexPrev : StakeIndex) : Int :=
  pindexPrev.getBlockTime / nModifierInterval * nModifierInterval - getStakeModifierSelectionInterval

/-- The blocks of the rounds, in their order, and the modifier of their entropy bits. -/
structure Selection (hash : List UInt8 → UInt256) (nStakeModifier : UInt64) (nStart : Int) (interval : List StakeIndex)
    (selected : List StakeIndex) (nStakeModifierNew : UInt64) : Prop where
  rounds : selected.length = min 64 interval.length
  distinct : (selected.map (·.hashBlock)).Nodup
  selects : ∀ i pindex, selected[i]? = some pindex →
    Selects hash nStakeModifier (selectionIntervalStop nStart (i + 1))
      (unselected ((selected.take i).map (·.hashBlock)) interval) pindex
  bits : ∀ i, nStakeModifierNew.toNat.testBit i = selected[i]?.any (·.getStakeEntropyBit = 1)

theorem computeNextStakeModifier_due (hash : List UInt8 → UInt256) {pindexPrev : StakeIndex} {pprev : List StakeIndex}
    {nStakeModifier : UInt64} (hentries : HoldsEntries mapBlockIndex (pindexPrev :: pprev))
    (hdistinct : ((pindexPrev :: pprev).map (·.hashBlock)).Nodup) (hdue : ModifierDue pindexPrev pprev nStakeModifier) :
    ∃ selected nStakeModifierNew,
      computeNextStakeModifier hash mapBlockIndex (pindexPrev :: pprev) =
        { fOk := true, nStakeModifier := nStakeModifierNew, fGeneratedStakeModifier := true } ∧
      Selection hash nStakeModifier (selectionIntervalStart pindexPrev)
        (intervalBlocks (selectionIntervalStart pindexPrev) (pindexPrev :: pprev)) selected nStakeModifierNew := by
  obtain ⟨nModifierTime, hlast, hbefore⟩ := hdue
  set interval := intervalBlocks (selectionIntervalStart pindexPrev) (pindexPrev :: pprev) with hinterval
  set blocks := interval.reverse.mergeSort fun a b : StakeIndex => pairLe a.candidate b.candidate with hblocks
  have hmem (pindex : StakeIndex) : pindex ∈ blocks ↔ pindex ∈ interval := by simp [hblocks]
  have hperm : blocks.Perm interval := (List.mergeSort_perm _ _).trans (List.reverse_perm _)
  have hsub : interval.Sublist (pindexPrev :: pprev) := List.takeWhile_sublist _
  have hsorted : blocks.Pairwise StakeIndex.EarlierEq :=
    @List.pairwise_mergeSort StakeIndex (fun a b => pairLe a.candidate b.candidate) (fun _ _ _ => pairLe_trans)
      (fun _ _ => pairLe_total _ _) _
  have hblocksEntries : HoldsEntries mapBlockIndex blocks := fun pindex hpindex =>
    hentries pindex (hsub.subset ((hmem pindex).mp hpindex))
  have hblocksDistinct : (blocks.map (·.hashBlock)).Nodup :=
    (hperm.map _).nodup_iff.mpr (hdistinct.sublist (hsub.map _))
  have hlist : (stakeCandidates (selectionIntervalStart pindexPrev) (pindexPrev :: pprev)).reverse.mergeSort pairLe =
      blocks.map StakeIndex.candidate := by
    rw [stakeCandidates_eq, ← List.map_reverse, hblocks, List.map_mergeSort]
    intro a _ b _
    rfl
  obtain ⟨selected, nStakeModifierNew, hrounds, hcount, hselects⟩ :=
    selectRounds_selects hash nStakeModifier hsorted hblocksEntries hblocksDistinct
      (selectionIntervalStart pindexPrev) (min 64 blocks.length) [] List.nodup_nil (by simp) 0
  refine ⟨selected, nStakeModifierNew, ?_, ?_, hselects.distinct, fun i pindex hget => ?_, fun i => ?_⟩
  · rw [computeNextStakeModifier, hlast]
    dsimp only
    rw [if_neg (not_le.mpr hbefore)]
    rw [← selectionIntervalStart, hlist, List.length_map]
    have hstart : selectionIntervalStop (selectionIntervalStart pindexPrev) 0 = selectionIntervalStart pindexPrev := by
      simp [selectionIntervalStop]
    rw [List.length_nil, hstart] at hrounds
    rw [show ([] : List UInt256) = (List.map (·.hashBlock) ([] : List StakeIndex)).reverse from rfl, hrounds]
  · rw [hcount, List.length_nil, Nat.zero_add, hperm.length_eq]
  · refine (hselects.selects i pindex (Nat.zero_le i) hget).congr fun other => ?_
    rw [mem_unselected, mem_unselected, hmem]
  · simpa using hselects.bits i

end

/-! ## The index of a node -/

/-- `GetBlockHash`. -/
def StakeIndex.getBlockHash (b : StakeIndex) : UInt256 := b.hashBlock

/-- The entry that a pointer of the index names. -/
def indexEntry (index : Tree StakeIndex.getBlockHash) (hashBlock : UInt256) : Option StakeIndex :=
  (index.lookup hashBlock).bind List.head?

theorem holdsEntries_of_has {index : Tree StakeIndex.getBlockHash} {chain : List StakeIndex} (h : index.Has chain) :
    HoldsEntries (indexEntry index) chain := by
  intro pindex hmem
  obtain ⟨s, t, rfl⟩ := List.append_of_mem hmem
  have hhas := h.suffix (List.suffix_append s (pindex :: t)) (List.cons_ne_nil _ _)
  have hlookup : index.lookup pindex.hashBlock = some (pindex :: t) := hhas.lookup_head
  rw [indexEntry, hlookup]
  rfl

namespace IndexNode

/-- An entry with the hash of its proof. -/
def stakeEntry (st : IndexNode) (pindex : CBlockIndex) : StakeIndex where
  toCBlockIndex := pindex
  hashProof := (st.fields pindex.hashBlock).hashProof

def stakeChains (st : IndexNode) (hashBlock : UInt256) : Option (List StakeIndex) :=
  (st.mapBlockIndex hashBlock).map (List.map st.stakeEntry)

/-- `ComputeNextStakeModifier` in `AddToBlockIndex`. -/
def nextStakeModifier (hash : List UInt8 → UInt256) (st : IndexNode) (block : CBlock) : Option (UInt64 × Bool) :=
  let next := computeNextStakeModifier hash (fun hashBlock => (st.stakeChains hashBlock).bind List.head?)
    ((st.prevEntry block).map st.stakeEntry)
  if next.fOk then some (next.nStakeModifier, next.fGeneratedStakeModifier) else none

/-- `LoadBlockIndex` and `AcceptBlock` with the modifiers that are computed. -/
def loadGenesisStake (env : IndexEnv) (hash : List UInt8 → UInt256) (outcomes : BlockOutcomes) : Option IndexNode :=
  loadGenesis env { outcomes with nextStakeModifier := IndexNode.empty.nextStakeModifier hash env.genesisBlock }

end IndexNode

def AcceptCall.stepStake (env : ChainEnv) (hash : List UInt8 → UInt256) (call : AcceptCall) (st : IndexNode) :
    Option (IndexNode × Bool) :=
  AcceptCall.step env
    { call with outcomes := { call.outcomes with nextStakeModifier := st.nextStakeModifier hash call.block } } st

theorem generated_of_or (nFlags : UInt32) :
    ((nFlags ||| BLOCK_STAKE_MODIFIER) &&& BLOCK_STAKE_MODIFIER != 0) = true := by
  have hbits : (nFlags ||| BLOCK_STAKE_MODIFIER) &&& BLOCK_STAKE_MODIFIER = BLOCK_STAKE_MODIFIER := by
    refine UInt32.toBitVec_inj.mp (BitVec.eq_of_getLsbD_eq fun i _ => ?_)
    rw [UInt32.toBitVec_and, UInt32.toBitVec_or, BitVec.getLsbD_and, BitVec.getLsbD_or]
    cases nFlags.toBitVec.getLsbD i <;> cases BLOCK_STAKE_MODIFIER.toBitVec.getLsbD i <;> rfl
  rw [hbits]
  rfl

namespace IndexNode

/-- A node whose first block generated a modifier. -/
structure RunningStake (env : ChainEnv) (st : IndexNode) : Prop where
  running : Running env st
  generated : ∀ hash pindex, st.mapBlockIndex hash = some [pindex] → pindex.generatedStakeModifier = true

theorem RunningStake.step {env : ChainEnv} {hash : List UInt8 → UInt256} {call : AcceptCall} {st st' : IndexNode} {ok : Bool}
    (hst : RunningStake env st) (h : call.stepStake env hash st = some (st', ok)) : RunningStake env st' := by
  refine ⟨hst.running.step h, fun key pindex hmap => ?_⟩
  rcases step_spec h with ⟨rfl, -⟩ | ⟨pindexNew, pindexPrev, rest, _, _, hadds, hprev, -, -⟩
  · exact hst.generated key pindex hmap
  · rw [hadds.mapBlockIndex, Function.update_apply] at hmap
    split at hmap
    · obtain ⟨stakeModifier, -, hnew⟩ := hadds.newEntry
      rw [hnew, prevEntry, hprev] at hmap
      cases hmap
    · exact hst.generated key pindex hmap

theorem RunningStake.start {env : IndexEnv} {hash : List UInt8 → UInt256} {outcomes : BlockOutcomes} {node₀ : IndexNode}
    (h : loadGenesisStake env hash outcomes = some node₀) : RunningStake env.toChainEnv node₀ := by
  refine ⟨Running.start h, fun key pindex hmap => ?_⟩
  obtain ⟨genesis, hadds, -⟩ := loadGenesis_spec h
  obtain ⟨stakeModifier, hmodifier, hnew⟩ := hadds.newEntry
  rw [hadds.mapBlockIndex, Function.update_apply] at hmap
  split at hmap
  · have hgenerated : stakeModifier = (0, true) := (Option.some.inj hmodifier).symm
    cases hmap
    cases hnew
    rw [hgenerated]
    exact generated_of_or _
  · cases hmap

theorem getLastStakeModifier_of_last {chain : List StakeIndex} {pindex : StakeIndex} (hlast : chain.getLast? = some pindex)
    (hgenerated : pindex.generatedStakeModifier = true) : ∃ last, getLastStakeModifier chain = some last := by
  induction chain with
  | nil => cases hlast
  | cons first pprev ih =>
      cases pprev with
      | nil =>
          have hfirst : first = pindex := Option.some.inj hlast
          rw [getLastStakeModifier, hfirst, if_pos hgenerated]
          exact ⟨_, rfl⟩
      | cons pprev rest =>
          rw [getLastStakeModifier]
          split_ifs
          · exact ⟨_, rfl⟩
          · exact ih (by simpa using hlast)

theorem RunningStake.exists_last {env : ChainEnv} {st : IndexNode} (hst : RunningStake env st) {key : UInt256}
    {chain : List StakeIndex} (hchain : st.stakeChains key = some chain) :
    ∃ last, getLastStakeModifier chain = some last := by
  obtain ⟨pindexNew, hmap, rfl⟩ := Option.map_eq_some_iff.mp hchain
  obtain ⟨pindex, pprev, rfl, -⟩ := hst.running.linked.exists_cons hmap
  have hne : pindex :: pprev ≠ [] := List.cons_ne_nil _ _
  have hsuffix : [(pindex :: pprev).getLast hne] <:+ pindex :: pprev :=
    ⟨_, List.dropLast_append_getLast hne⟩
  have hlast : ((pindex :: pprev).map st.stakeEntry).getLast? = some (st.stakeEntry ((pindex :: pprev).getLast hne)) := by
    rw [List.getLast?_map, List.getLast?_eq_getLast_of_ne_nil hne]
    rfl
  exact getLastStakeModifier_of_last hlast (hst.generated _ _ (hst.running.linked.suffix hmap hsuffix))

theorem RunningStake.exists_tree {env : ChainEnv} {st : IndexNode} (hst : RunningStake env st) :
    ∃ index : Tree StakeIndex.getBlockHash, index.lookup = st.stakeChains := by
  obtain ⟨tree, htree⟩ := hst.running.linked.tree
  refine ⟨tree.map st.stakeEntry fun _ => rfl, funext fun key => ?_⟩
  rw [stakeChains, ← htree]
  rfl

end IndexNode

open IndexNode

/-- In every index a modifier that is due is made of the blocks of the interval that the rounds select. The index of a
running node is one, and each of its blocks has a last modifier. -/
theorem computeNextStakeModifier_selects (hash : List UInt8 → UInt256) :
    (∀ (index : Tree StakeIndex.getBlockHash) (pindexPrev : StakeIndex) (pprev : List StakeIndex) (nStakeModifier : UInt64),
      index.Has (pindexPrev :: pprev) → ModifierDue pindexPrev pprev nStakeModifier →
        (∀ item ∈ stakeCandidates (selectionIntervalStart pindexPrev) (pindexPrev :: pprev),
          ∃ pindex, indexEntry index item.2 = some pindex ∧ pindex.candidate = item) ∧
        ∃ selected nStakeModifierNew,
          computeNextStakeModifier hash (indexEntry index) (pindexPrev :: pprev) =
            { fOk := true, nStakeModifier := nStakeModifierNew, fGeneratedStakeModifier := true } ∧
          Selection hash nStakeModifier (selectionIntervalStart pindexPrev)
            (intervalBlocks (selectionIntervalStart pindexPrev) (pindexPrev :: pprev)) selected nStakeModifierNew) ∧
    ∀ (env : IndexEnv) (outcomes : BlockOutcomes) (calls : List AcceptCall) (node₀ node : IndexNode),
      loadGenesisStake env hash outcomes = some node₀ →
      EventRun.run (AcceptCall.stepStake env.toChainEnv hash) calls node₀ = some node →
        ∃ index : Tree StakeIndex.getBlockHash, index.lookup = node.stakeChains ∧
          ∀ chain, index.Has chain → ∃ last, getLastStakeModifier chain = some last := by
  refine ⟨fun index pindexPrev pprev nStakeModifier hhas hdue => ⟨fun item hitem => ?_, ?_⟩,
    fun env outcomes calls node₀ node hload hrun => ?_⟩
  · rw [stakeCandidates_eq] at hitem
    obtain ⟨pindex, hpindex, rfl⟩ := List.mem_map.mp hitem
    exact ⟨pindex, holdsEntries_of_has hhas pindex ((List.takeWhile_sublist _).subset hpindex), rfl⟩
  · exact computeNextStakeModifier_due hash (holdsEntries_of_has hhas) hhas.nodup hdue
  · have hnode : RunningStake env.toChainEnv node :=
      EventRun.run_keeps (fun _ _ _ _ hst hstep => hst.step hstep) (RunningStake.start hload) hrun
    obtain ⟨index, hindex⟩ := hnode.exists_tree
    refine ⟨index, hindex, fun chain hhas => ?_⟩
    obtain ⟨key, hkey⟩ := hhas
    rw [hindex] at hkey
    exact hnode.exists_last hkey

/-- The index of `staleChain`. -/
def staleIndex : Tree StakeIndex.getBlockHash where
  lookup hashBlock := if hashBlock = 3 then some staleChain else if hashBlock = 2 then some staleChain.tail
    else if hashBlock = 1 then some staleChain.tail.tail else none
  head k c h := by
    split_ifs at h with h₃ h₂ h₁
    all_goals cases h
    · exact ⟨_, _, rfl, h₃.symm⟩
    · exact ⟨_, _, rfl, h₂.symm⟩
    · exact ⟨_, _, rfl, h₁.symm⟩
  parent k a b rest h := by
    split_ifs at h
    all_goals cases h
    · rfl
    · rfl

theorem computeNextStakeModifier_selects_staleChain :
    (∃ selected nStakeModifierNew,
      computeNextStakeModifier (fun bytes => BitVec.ofNat 256 (ofLeBytes bytes)) (indexEntry staleIndex) staleChain =
        { fOk := true, nStakeModifier := nStakeModifierNew, fGeneratedStakeModifier := true } ∧
      Selection (fun bytes => BitVec.ofNat 256 (ofLeBytes bytes)) 6 (-59870)
        staleChain selected nStakeModifierNew) ∧
    ∃ node, loadGenesisStake branchEnv (fun bytes => BitVec.ofNat 256 (ofLeBytes bytes))
        (branchOutcomes 0).toBlockOutcomes = some node ∧
      ∃ index : Tree StakeIndex.getBlockHash, index.lookup = node.stakeChains ∧
        ∀ chain, index.Has chain → ∃ last, getLastStakeModifier chain = some last := by
  have hselects := computeNextStakeModifier_selects fun bytes => BitVec.ofNat 256 (ofLeBytes bytes)
  obtain ⟨node, hload⟩ : ∃ node, loadGenesisStake branchEnv (fun bytes => BitVec.ofNat 256 (ofLeBytes bytes))
      (branchOutcomes 0).toBlockOutcomes = some node := ⟨_, rfl⟩
  refine ⟨?_, node, hload, hselects.2 branchEnv _ [] node node hload rfl⟩
  have hdue := (hselects.1 staleIndex _ _ 6 ⟨3, rfl⟩ ⟨0, rfl, by decide⟩).2
  have hstart : selectionIntervalStart (staleChain.head (List.cons_ne_nil _ _)) = -59870 := by decide +kernel
  have hinterval : intervalBlocks (-59870) staleChain = staleChain := by decide +kernel
  rw [show (⟨{ hashBlock := 3, nHeight := 2, nTime := 3700, nFlags := 3 }, 8⟩ : StakeIndex) =
    staleChain.head (List.cons_ne_nil _ _) from rfl, hstart] at hdue
  rw [← hinterval]
  exact hdue

end ProCurrency
