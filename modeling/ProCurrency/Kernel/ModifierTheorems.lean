import Mathlib.Data.List.TakeWhile
import ProCurrency.Kernel.StakeModifier

/-!
# One lookup over two indexes

A thin node that comes back into its window hands the entry over that it has not looked at yet, and the search in
memory starts with the one after it. The other entry that it does not look at is the best one, when it is read from the
database.
-/

namespace ProCurrency

/-! ## One chain in both -/

/-- The full index holds the chain. -/
def HoldsFull (headers : FullHeaders) (chain : List StakeIndex) : Prop :=
  ∀ l pindex pnexts, chain = l ++ pindex :: pnexts → headers.mapBlockIndex pindex.hashBlock = some (pindex, pnexts)

/-- What the database has for a block that these ones follow. -/
def diskIndexOf (pindex : StakeIndex) (pnexts : List StakeIndex) : CDiskBlockThinIndex where
  toStakeThinIndex := pindex.toStakeThin
  hashNext := (pnexts.head?.map (·.hashBlock)).getD 0

/-- A thin node holds the chain: all of it in the database, and the blocks from the rear on in memory. No block has
the hash that stands for none. -/
structure HoldsThin (headers : ThinHeaders) (before : List StakeIndex) (rear : StakeIndex)
    (above : List StakeIndex) : Prop where
  disk : ∀ l pindex pnexts, before ++ rear :: above = l ++ pindex :: pnexts →
    headers.readBlockThinIndex pindex.hashBlock = some (diskIndexOf pindex pnexts)
  memory : ∀ l pindex pnexts, rear :: above = l ++ pindex :: pnexts →
    headers.mapBlockThinIndex pindex.hashBlock = some (pindex.toStakeThin, pnexts.map StakeIndex.toStakeThin)
  pruned : ∀ pindex ∈ before, headers.mapBlockThinIndex pindex.hashBlock = none
  pindexRear : headers.pindexRear = some rear.toStakeThin
  fThinFullIndex : headers.fThinFullIndex = true → before = []
  hash_ne : ∀ pindex ∈ before ++ rear :: above, pindex.hashBlock ≠ 0
  heights : (before ++ rear :: above).Pairwise (·.nHeight < ·.nHeight)

/-- One of these blocks ends the search. -/
def EndsSearch (nTimeEnd : Int) (pindices : List StakeIndex) : Prop :=
  ∃ pindex ∈ pindices, pindex.generatedStakeModifier ∧ nTimeEnd ≤ pindex.getBlockTime

/-- The lookup passes over one block without a look at it: the first one of the window that follows a block later than
the rear, or the best one. It does no harm when the search has ended before, when that block has generated no modifier,
and when a later one has to be found in any case. -/
def PassesOver (nTimeEnd nTimeRear : Int) (pprev : StakeIndex) : List StakeIndex → Prop
  | [] => True
  | pindex :: pnexts =>
      if pnexts = [] ∨ nTimeRear < pprev.getBlockTime then
        pindex.generatedStakeModifier →
          pindex.getBlockTime < nTimeEnd ∧ ∃ pnext ∈ pnexts, pnext.generatedStakeModifier
      else
        (pindex.generatedStakeModifier ∧ nTimeEnd ≤ pindex.getBlockTime) ∨ PassesOver nTimeEnd nTimeRear pindex pnexts

/-- The condition under which both lookups find the same for a block that `pnexts` follow. -/
def FindsSameModifier (rear : StakeIndex) (above : List StakeIndex) (pindexFrom : StakeIndex)
    (pnexts : List StakeIndex) : Prop :=
  let nTimeEnd := pindexFrom.getBlockTime + getStakeModifierSelectionInterval
  let between := pnexts.take (pnexts.length - (rear :: above).length)
  pnexts.length ≤ above.length ∨ EndsSearch nTimeEnd between ∨
    PassesOver nTimeEnd rear.getBlockTime ((pindexFrom :: between).getLast (List.cons_ne_nil _ _)) (rear :: above)

/-! ## The walk in memory -/

section

variable {nTimeEnd nHeight nHeight' nTime nTime' : Int} {pindex : StakeIndex} {pnexts : List StakeIndex}

theorem getKernelStakeModifierThinIt_map (nTimeEnd : Int) (pindex : StakeIndex) (nHeight nTime : Int)
    (pnexts : List StakeIndex) :
    getKernelStakeModifierThinIt nTimeEnd pindex.toStakeThin nHeight nTime (pnexts.map StakeIndex.toStakeThin) =
      getKernelStakeModifierFrom nTimeEnd pindex nHeight nTime pnexts := by
  induction pnexts generalizing pindex nHeight nTime with
  | nil => rfl
  | cons pnext pnexts ih =>
      rw [List.map_cons, getKernelStakeModifierThinIt, getKernelStakeModifierFrom, ih, ih]
      rfl

theorem getKernelStakeModifierFrom_height (nTimeEnd : Int) (pindex : StakeIndex) (nHeight nTime : Int)
    (pnexts : List StakeIndex) :
    (getKernelStakeModifierFrom nTimeEnd pindex nHeight nTime pnexts).nStakeModifierHeight = nHeight ∨
      ∃ pnext ∈ pnexts,
        (getKernelStakeModifierFrom nTimeEnd pindex nHeight nTime pnexts).nStakeModifierHeight = pnext.nHeight := by
  induction pnexts generalizing pindex nHeight nTime with
  | nil =>
      left
      rw [getKernelStakeModifierFrom]
      split_ifs <;> rfl
  | cons pnext pnexts ih =>
      rw [getKernelStakeModifierFrom]
      split_ifs with hend hgenerated
      · right
        rcases ih pnext pnext.nHeight pnext.getBlockTime with h | ⟨pnext', hmem, h⟩
        · exact ⟨pnext, List.mem_cons_self, h⟩
        · exact ⟨pnext', List.mem_cons_of_mem _ hmem, h⟩
      · rcases ih pnext nHeight nTime with h | ⟨pnext', hmem, h⟩
        · exact .inl h
        · exact .inr ⟨pnext', List.mem_cons_of_mem _ hmem, h⟩
      · exact .inl rfl

/-- What was found before matters only when nothing more is found. -/
theorem getKernelStakeModifierFrom_eq_iff (hend : nTime < nTimeEnd) (hend' : nTime' < nTimeEnd)
    (hne : nHeight ≠ nHeight') :
    getKernelStakeModifierFrom nTimeEnd pindex nHeight nTime pnexts =
        getKernelStakeModifierFrom nTimeEnd pindex nHeight' nTime' pnexts ↔
      ∃ pnext ∈ pnexts, pnext.generatedStakeModifier := by
  induction pnexts generalizing pindex with
  | nil =>
      rw [getKernelStakeModifierFrom, getKernelStakeModifierFrom, if_pos hend, if_pos hend']
      simp [hne]
  | cons pnext pnexts ih =>
      rw [getKernelStakeModifierFrom, getKernelStakeModifierFrom, if_pos hend, if_pos hend', List.exists_mem_cons_iff]
      split_ifs with hgenerated
      · exact iff_of_true rfl (.inl hgenerated)
      · rw [ih]
        simp [hgenerated]

/-- A block that the walk does not look at. -/
theorem getKernelStakeModifierFrom_passed (pindex : StakeIndex) {pnext : StakeIndex} (hend : nTime < nTimeEnd)
    (hnext : nHeight < pnext.nHeight) (hnexts : ∀ p ∈ pnexts, pnext.nHeight < p.nHeight) :
    getKernelStakeModifierFrom nTimeEnd pnext nHeight nTime pnexts =
        getKernelStakeModifierFrom nTimeEnd pindex nHeight nTime (pnext :: pnexts) ↔
      (pnext.generatedStakeModifier →
        pnext.getBlockTime < nTimeEnd ∧ ∃ pnext' ∈ pnexts, pnext'.generatedStakeModifier) := by
  conv_lhs => rhs; rw [getKernelStakeModifierFrom, if_pos hend]
  split_ifs with hgenerated
  · rcases lt_or_ge pnext.getBlockTime nTimeEnd with hbefore | hreached
    · rw [getKernelStakeModifierFrom_eq_iff hend hbefore hnext.ne]
      simp [hgenerated, hbefore]
    · -- The walk over all blocks ends here, at a height that the other one does not come to.
      have hfound : (getKernelStakeModifierFrom nTimeEnd pnext pnext.nHeight pnext.getBlockTime
          pnexts).nStakeModifierHeight = pnext.nHeight := by
        cases pnexts with
        | nil => rw [getKernelStakeModifierFrom, if_neg hreached.not_gt]
        | cons _ _ => rw [getKernelStakeModifierFrom, if_neg hreached.not_gt]
      refine iff_of_false (fun heq => ?_) fun h => (h hgenerated).1.not_ge hreached
      rw [← heq] at hfound
      rcases getKernelStakeModifierFrom_height nTimeEnd pnext nHeight nTime pnexts with h | ⟨p, hmem, h⟩
      · exact hnext.ne (h.symm.trans hfound)
      · exact (hnexts p hmem).ne (hfound.symm.trans h)
  · exact iff_of_true rfl fun h => absurd h hgenerated

end

/-! ## The walk over the database -/

section

variable {headers : ThinHeaders} {before above l : List StakeIndex} {rear pindex : StakeIndex}
  {nTimeEnd nHeight nTime : Int} {pnexts : List StakeIndex} {fuel : Nat}

theorem hashNext_diskIndexOf (pindex pnext : StakeIndex) (pnexts : List StakeIndex) :
    (diskIndexOf pindex (pnext :: pnexts)).hashNext = pnext.hashBlock := rfl

/-- One round that is not the last one. -/
theorem getKernelStakeModifierDisk_step (h : HoldsThin headers before rear above) {pnext : StakeIndex}
    (hsplit : before ++ rear :: above = l ++ pnext :: pnexts) (hnexts : pnexts ≠ []) (hend : nTime < nTimeEnd)
    (hback : headers.backInWindow rear.toStakeThin (diskIndexOf pindex (pnext :: pnexts)) = none) :
    headers.getKernelStakeModifierDisk nTimeEnd rear.toStakeThin (fuel + 1) (diskIndexOf pindex (pnext :: pnexts))
        nHeight nTime =
      if pnext.generatedStakeModifier then
        headers.getKernelStakeModifierDisk nTimeEnd rear.toStakeThin fuel (diskIndexOf pnext pnexts) pnext.nHeight
          pnext.getBlockTime
      else
        headers.getKernelStakeModifierDisk nTimeEnd rear.toStakeThin fuel (diskIndexOf pnext pnexts) nHeight
          nTime := by
  have hmem (p : StakeIndex) (hp : p ∈ pnext :: pnexts) : p.hashBlock ≠ 0 :=
    h.hash_ne p (hsplit ▸ List.mem_append_right _ hp)
  obtain ⟨pnext', pnexts', rfl⟩ := List.exists_cons_of_ne_nil hnexts
  rw [ThinHeaders.getKernelStakeModifierDisk, if_pos hend, hashNext_diskIndexOf,
    if_neg (hmem pnext List.mem_cons_self), hback]
  simp only [h.disk l pnext _ hsplit]
  rw [hashNext_diskIndexOf, if_neg (hmem pnext' (List.mem_cons_of_mem _ List.mem_cons_self))]
  rfl

/-- The last round. -/
theorem getKernelStakeModifierDisk_tip (h : HoldsThin headers before rear above) {pnext : StakeIndex}
    (hsplit : before ++ rear :: above = l ++ [pnext]) (hend : nTime < nTimeEnd)
    (hback : headers.backInWindow rear.toStakeThin (diskIndexOf pindex [pnext]) = none) :
    headers.getKernelStakeModifierDisk nTimeEnd rear.toStakeThin (fuel + 1) (diskIndexOf pindex [pnext]) nHeight
      nTime = some { fOk := false, nStakeModifierHeight := nHeight, nStakeModifierTime := nTime } := by
  have hne : pnext.hashBlock ≠ 0 := h.hash_ne pnext (hsplit ▸ List.mem_append_right _ List.mem_cons_self)
  rw [ThinHeaders.getKernelStakeModifierDisk, if_pos hend, hashNext_diskIndexOf, if_neg hne, hback]
  simp only [h.disk l pnext [] hsplit]
  rfl

/-- The search has ended. -/
theorem getKernelStakeModifierDisk_ended (hend : nTimeEnd ≤ nTime) :
    headers.getKernelStakeModifierDisk nTimeEnd rear.toStakeThin (fuel + 1) (diskIndexOf pindex pnexts) nHeight
      nTime = some (getKernelStakeModifierFrom nTimeEnd pindex nHeight nTime pnexts) := by
  rw [ThinHeaders.getKernelStakeModifierDisk, if_neg hend.not_gt]
  cases pnexts with
  | nil => rw [getKernelStakeModifierFrom, if_neg hend.not_gt]; rfl
  | cons _ _ => rw [getKernelStakeModifierFrom, if_neg hend.not_gt]; rfl

/-- From the last block before the window, or from one in it. -/
theorem getKernelStakeModifierDisk_window (h : HoldsThin headers before rear above) {w : List StakeIndex}
    (hsplit : rear :: above = w ++ pnexts) (hend : nTime < nTimeEnd) (hfuel : pnexts.length < fuel)
    (hheights : pnexts.Pairwise (·.nHeight < ·.nHeight)) (hbelow : ∀ p ∈ pnexts, nHeight < p.nHeight)
    (hnexts : pnexts ≠ []) :
    headers.getKernelStakeModifierDisk nTimeEnd rear.toStakeThin fuel (diskIndexOf pindex pnexts) nHeight nTime =
        some (getKernelStakeModifierFrom nTimeEnd pindex nHeight nTime pnexts) ↔
      PassesOver nTimeEnd rear.getBlockTime pindex pnexts := by
  induction pnexts generalizing fuel pindex nHeight nTime w with
  | nil => exact absurd rfl hnexts
  | cons pnext pnexts ih =>
      obtain ⟨fuel, rfl⟩ := Nat.exists_eq_succ_of_ne_zero (Nat.ne_zero_of_lt hfuel)
      obtain ⟨hnext, hheights⟩ := List.pairwise_cons.mp hheights
      obtain ⟨hbelow, hrest⟩ := List.forall_mem_cons.mp hbelow
      have hchain : before ++ rear :: above = (before ++ w) ++ pnext :: pnexts := by
        rw [hsplit, List.append_assoc]
      have hpassed := getKernelStakeModifierFrom_passed pindex hend hbelow hnext
      rw [PassesOver]
      by_cases hlate : rear.getBlockTime < pindex.getBlockTime
      · -- Back in the window.
        have hback : headers.backInWindow rear.toStakeThin (diskIndexOf pindex (pnext :: pnexts)) =
            some (pnext.toStakeThin, pnexts.map StakeIndex.toStakeThin) :=
          (if_pos hlate).trans (h.memory w pnext pnexts hsplit)
        have hne := h.hash_ne pnext (hchain ▸ List.mem_append_right _ List.mem_cons_self)
        rw [if_pos (.inr hlate), ThinHeaders.getKernelStakeModifierDisk, if_pos hend, hashNext_diskIndexOf, if_neg hne,
          hback]
        simp only [getKernelStakeModifierThinIt_map, Option.some.injEq]
        exact hpassed
      · have hback : headers.backInWindow rear.toStakeThin (diskIndexOf pindex (pnext :: pnexts)) = none :=
          if_neg hlate
        cases hpnexts : pnexts with
        | nil =>
            subst hpnexts
            rw [getKernelStakeModifierDisk_tip h hchain hend hback, if_pos (.inl rfl), ← hpassed,
              getKernelStakeModifierFrom, if_pos hend, Option.some.injEq]
        | cons pnext' pnexts' =>
            rw [← hpnexts]
            have hne : pnexts ≠ [] := hpnexts ▸ List.cons_ne_nil _ _
            have hlater : rear :: above = (w ++ [pnext]) ++ pnexts := by
              rw [hsplit, List.append_assoc, List.singleton_append]
            rw [getKernelStakeModifierDisk_step h hchain hne hend hback, if_neg (not_or.mpr ⟨hne, hlate⟩),
              getKernelStakeModifierFrom, if_pos hend]
            split_ifs with hgenerated
            · rcases lt_or_ge pnext.getBlockTime nTimeEnd with hbefore | hreached
              · rw [ih hlater hbefore (Nat.lt_of_succ_lt_succ hfuel) hheights hnext hne]
                simp [hbefore.not_ge]
              · obtain ⟨fuel, rfl⟩ := Nat.exists_eq_succ_of_ne_zero (Nat.ne_zero_of_lt (Nat.lt_of_succ_lt_succ hfuel))
                exact iff_of_true (getKernelStakeModifierDisk_ended hreached) (.inl ⟨hgenerated, hreached⟩)
            · rw [ih hlater hend (Nat.lt_of_succ_lt_succ hfuel) hheights hrest hne]
              simp [hgenerated]

/-- From a block before the window. -/
theorem getKernelStakeModifierDisk_before (nTimeEnd : Int) (pindex : StakeIndex) (between : List StakeIndex)
    (h : HoldsThin headers before rear above) (hsplit : before = l ++ between) (hend : nTime < nTimeEnd)
    (hfuel : (between ++ rear :: above).length < fuel)
    (hheights : (between ++ rear :: above).Pairwise (·.nHeight < ·.nHeight))
    (hbelow : ∀ p ∈ between ++ rear :: above, nHeight < p.nHeight) :
    headers.getKernelStakeModifierDisk nTimeEnd rear.toStakeThin fuel
          (diskIndexOf pindex (between ++ rear :: above)) nHeight nTime =
        some (getKernelStakeModifierFrom nTimeEnd pindex nHeight nTime (between ++ rear :: above)) ↔
      EndsSearch nTimeEnd between ∨
        PassesOver nTimeEnd rear.getBlockTime ((pindex :: between).getLast (List.cons_ne_nil _ _)) (rear :: above) := by
  induction between generalizing fuel pindex nHeight nTime l with
  | nil =>
      rw [List.nil_append, getKernelStakeModifierDisk_window (w := []) h rfl hend hfuel hheights hbelow
        (List.cons_ne_nil _ _)]
      simp [EndsSearch]
  | cons pnext between ih =>
      obtain ⟨fuel, rfl⟩ := Nat.exists_eq_succ_of_ne_zero (Nat.ne_zero_of_lt hfuel)
      obtain ⟨hnext, hheights⟩ := List.pairwise_cons.mp hheights
      obtain ⟨-, hrest⟩ := List.forall_mem_cons.mp hbelow
      have hchain : before ++ rear :: above = l ++ pnext :: (between ++ rear :: above) := by
        rw [hsplit, List.append_assoc, List.cons_append]
      have hpruned : headers.mapBlockThinIndex pnext.hashBlock = none :=
        h.pruned pnext (hsplit ▸ List.mem_append_right _ List.mem_cons_self)
      have hback : headers.backInWindow rear.toStakeThin
          (diskIndexOf pindex (pnext :: (between ++ rear :: above))) = none := by
        rw [ThinHeaders.backInWindow, hashNext_diskIndexOf, hpruned, ite_self]
      have hlater : before = (l ++ [pnext]) ++ between := by
        rw [hsplit, List.append_assoc, List.singleton_append]
      have hends : EndsSearch nTimeEnd (pnext :: between) ↔
          (pnext.generatedStakeModifier ∧ nTimeEnd ≤ pnext.getBlockTime) ∨ EndsSearch nTimeEnd between :=
        List.exists_mem_cons_iff _ _ _
      rw [List.cons_append, getKernelStakeModifierDisk_step h hchain (by simp) hend hback, hends, or_assoc,
        List.getLast_cons (List.cons_ne_nil _ _), getKernelStakeModifierFrom, if_pos hend]
      split_ifs with hgenerated
      · rcases lt_or_ge pnext.getBlockTime nTimeEnd with hbefore | hreached
        · rw [ih _ hlater hbefore (Nat.lt_of_succ_lt_succ hfuel) hheights hnext]
          simp [hbefore.not_ge]
        · obtain ⟨fuel, rfl⟩ := Nat.exists_eq_succ_of_ne_zero (Nat.ne_zero_of_lt (Nat.lt_of_succ_lt_succ hfuel))
          exact iff_of_true (getKernelStakeModifierDisk_ended hreached) (.inl ⟨hgenerated, hreached⟩)
      · rw [ih _ hlater hend (Nat.lt_of_succ_lt_succ hfuel) hheights hrest]
        simp [hgenerated]

end

/-! ## The lookup -/

theorem selectionInterval_pos : 0 < getStakeModifierSelectionInterval := by decide

/-- Both lookups find the same for a block of the chain exactly under this condition. -/
theorem getKernelStakeModifierThin_eq_iff (full : FullHeaders) (headers : ThinHeaders)
    (before : List StakeIndex) (rear : StakeIndex) (above l : List StakeIndex) (pindexFrom : StakeIndex)
    (pnexts : List StakeIndex) (fuel : Nat) (hfull : HoldsFull full (before ++ rear :: above))
    (hthin : HoldsThin headers before rear above)
    (hfrom : before ++ rear :: above = l ++ pindexFrom :: pnexts) (hfuel : pnexts.length < fuel) :
    headers.getKernelStakeModifierThin fuel pindexFrom.hashBlock =
        some (full.getKernelStakeModifier pindexFrom.hashBlock) ↔
      FindsSameModifier rear above pindexFrom pnexts := by
  rw [FullHeaders.getKernelStakeModifier, hfull l pindexFrom pnexts hfrom]
  have hwindow (w : List StakeIndex) (hsplit : rear :: above = w ++ pindexFrom :: pnexts) :
      headers.getKernelStakeModifierThin fuel pindexFrom.hashBlock =
          some (getKernelStakeModifierFrom (pindexFrom.getBlockTime + getStakeModifierSelectionInterval) pindexFrom
            pindexFrom.nHeight pindexFrom.getBlockTime pnexts) ↔
        FindsSameModifier rear above pindexFrom pnexts := by
    have hle : pnexts.length ≤ above.length := by
      have hlength := congrArg List.length hsplit
      simp only [List.length_cons, List.length_append] at hlength
      omega
    rw [ThinHeaders.getKernelStakeModifierThin, hthin.memory w pindexFrom pnexts hsplit]
    exact iff_of_true (congrArg some (getKernelStakeModifierThinIt_map _ _ _ _ _)) (.inl hle)
  rcases List.append_eq_append_iff.mp hfrom with ⟨w, -, hsplit⟩ | ⟨between, hbefore, hsplit⟩
  · exact hwindow w hsplit
  · cases between with
    | nil => exact hwindow [] hsplit.symm
    | cons pindex between =>
        rw [List.cons_append] at hsplit
        obtain ⟨rfl, rfl⟩ := List.cons.inj hsplit
        have hpruned := hthin.pruned pindexFrom (hbefore ▸ List.mem_append_right _ List.mem_cons_self)
        have hthinIndex : headers.fThinFullIndex = false :=
          Bool.eq_false_iff.mpr fun hset => by simp [hthin.fThinFullIndex hset] at hbefore
        have hheights : (pindexFrom :: (between ++ rear :: above)).Pairwise (·.nHeight < ·.nHeight) :=
          (List.pairwise_append.mp (hfrom ▸ hthin.heights)).2.1
        obtain ⟨hbelow, hheights⟩ := List.pairwise_cons.mp hheights
        have hnext : (diskIndexOf pindexFrom (between ++ rear :: above)).hashNext ≠ 0 := by
          obtain ⟨pnext, pnexts, hcons⟩ := List.exists_cons_of_ne_nil
            (List.append_ne_nil_of_right_ne_nil between (List.cons_ne_nil rear above))
          rw [hcons, hashNext_diskIndexOf]
          refine hthin.hash_ne pnext ?_
          rw [hfrom, hcons]
          exact List.mem_append_right _ (List.mem_cons_of_mem _ List.mem_cons_self)
        have hbetween : (between ++ rear :: above).take ((between ++ rear :: above).length - (rear :: above).length) =
            between := by
          rw [List.length_append, Nat.add_sub_cancel, List.take_left]
        have hlonger : ¬ (between ++ rear :: above).length ≤ above.length := by
          rw [List.length_append, List.length_cons]
          omega
        have hdisk := getKernelStakeModifierDisk_before
          (pindexFrom.getBlockTime + getStakeModifierSelectionInterval) pindexFrom between hthin
          (hbefore.trans (by rw [List.append_assoc, List.singleton_append] : _ = (l ++ [pindexFrom]) ++ between))
          (Int.lt_add_of_pos_right _ (Int.natCast_pos.mpr selectionInterval_pos)) hfuel hheights hbelow
        rw [ThinHeaders.getKernelStakeModifierThin, hpruned, hthinIndex, hthin.pindexRear]
        simp only [hthin.disk l pindexFrom _ hfrom]
        rw [if_neg hnext, FindsSameModifier]
        simp only [hbetween, hlonger, false_or]
        exact hdisk

/-! ## A window whose second block is passed over -/

def fullHeadersOf (chain : List StakeIndex) : FullHeaders where
  mapBlockIndex hash :=
    match chain.dropWhile (·.hashBlock ≠ hash) with
    | [] => none
    | pindex :: pnexts => some (pindex, pnexts)

def thinHeadersOf (before : List StakeIndex) (rear : StakeIndex) (above : List StakeIndex) : ThinHeaders where
  fThinFullIndex := false
  pindexRear := some rear.toStakeThin
  mapBlockThinIndex hash :=
    match (rear :: above).dropWhile (·.hashBlock ≠ hash) with
    | [] => none
    | pindex :: pnexts => some (pindex.toStakeThin, pnexts.map StakeIndex.toStakeThin)
  readBlockThinIndex hash :=
    match (before ++ rear :: above).dropWhile (·.hashBlock ≠ hash) with
    | [] => none
    | pindex :: pnexts => some (diskIndexOf pindex pnexts)

theorem dropWhile_hashBlock {chain l pnexts : List StakeIndex} {pindex : StakeIndex}
    (hnodup : (chain.map (·.hashBlock)).Nodup) (hsplit : chain = l ++ pindex :: pnexts) :
    chain.dropWhile (·.hashBlock ≠ pindex.hashBlock) = pindex :: pnexts := by
  subst hsplit
  rw [List.map_append, List.map_cons, List.nodup_append] at hnodup
  rw [List.dropWhile_append_of_pos, List.dropWhile_cons_of_neg (by simp)]
  intro p hp
  exact decide_eq_true (hnodup.2.2 _ (List.mem_map_of_mem hp) _ List.mem_cons_self)

theorem holdsFull_fullHeadersOf {chain : List StakeIndex} (hnodup : (chain.map (·.hashBlock)).Nodup) :
    HoldsFull (fullHeadersOf chain) chain := by
  intro l pindex pnexts hsplit
  rw [fullHeadersOf]
  dsimp only
  rw [dropWhile_hashBlock hnodup hsplit]

theorem holdsThin_thinHeadersOf {before above : List StakeIndex} {rear : StakeIndex}
    (hnodup : ((before ++ rear :: above).map (·.hashBlock)).Nodup)
    (hne : ∀ pindex ∈ before ++ rear :: above, pindex.hashBlock ≠ 0)
    (hheights : (before ++ rear :: above).Pairwise (·.nHeight < ·.nHeight)) :
    HoldsThin (thinHeadersOf before rear above) before rear above where
  disk l pindex pnexts hsplit := by
    rw [thinHeadersOf]
    dsimp only
    rw [dropWhile_hashBlock hnodup hsplit]
  memory l pindex pnexts hsplit := by
    rw [List.map_append, List.nodup_append] at hnodup
    rw [thinHeadersOf]
    dsimp only
    rw [dropWhile_hashBlock hnodup.2.1 hsplit]
  pruned pindex hmem := by
    rw [List.map_append, List.nodup_append] at hnodup
    have hdrop : (rear :: above).dropWhile (·.hashBlock ≠ pindex.hashBlock) = [] := by
      rw [List.dropWhile_eq_nil_iff]
      intro p hp
      exact decide_eq_true (hnodup.2.2 _ (List.mem_map_of_mem hmem) _ (List.mem_map_of_mem hp)).symm
    rw [thinHeadersOf]
    dsimp only
    rw [hdrop]
  pindexRear := rfl
  fThinFullIndex h := nomatch h
  hash_ne := hne
  heights := hheights

/-- The block of the coin, which is not in the window any more. -/
def coinHeader : StakeIndex := { hashBlock := 1, nHeight := 0, nTime := 0, nFlags := 4, nStakeModifier := 11 }

def rearHeader : StakeIndex := { hashBlock := 2, nHeight := 1, nTime := 10, nStakeModifier := 11 }

/-- The second block generates the modifier of the coin, and the third the next one. -/
def lateHeaders : List StakeIndex :=
  [{ hashBlock := 3, nHeight := 2, nTime := 20, nStakeModifier := 11 },
   { hashBlock := 4, nHeight := 3, nTime := 70000, nFlags := 4, nStakeModifier := 12 },
   { hashBlock := 5, nHeight := 4, nTime := 70010, nFlags := 4, nStakeModifier := 13 }]

theorem getKernelStakeModifierThin_eq_iff_lateHeaders :
    (thinHeadersOf [coinHeader] rearHeader lateHeaders).getKernelStakeModifierThin 5 1 =
        some ((fullHeadersOf (coinHeader :: rearHeader :: lateHeaders)).getKernelStakeModifier 1) ↔
      FindsSameModifier rearHeader lateHeaders coinHeader (rearHeader :: lateHeaders) :=
  getKernelStakeModifierThin_eq_iff _ _ [coinHeader] rearHeader lateHeaders [] coinHeader (rearHeader :: lateHeaders) 5
    (holdsFull_fullHeadersOf (by decide)) (holdsThin_thinHeadersOf (by decide) (by decide) (by decide)) rfl (by decide)

/-- The thin node stakes with the modifier of the third block. -/
theorem getKernelStakeModifierThin_ne_lateHeaders :
    HoldsFull (fullHeadersOf (coinHeader :: rearHeader :: lateHeaders)) (coinHeader :: rearHeader :: lateHeaders) ∧
      HoldsThin (thinHeadersOf [coinHeader] rearHeader lateHeaders) [coinHeader] rearHeader lateHeaders ∧
      (fullHeadersOf (coinHeader :: rearHeader :: lateHeaders)).getKernelStakeModifier 1 =
        { fOk := true, nStakeModifier := 12, nStakeModifierHeight := 3, nStakeModifierTime := 70000 } ∧
      (thinHeadersOf [coinHeader] rearHeader lateHeaders).getKernelStakeModifierThin 5 1 =
        some { fOk := true, nStakeModifier := 13, nStakeModifierHeight := 4, nStakeModifierTime := 70010 } ∧
      (thinHeadersOf [coinHeader] rearHeader lateHeaders).getKernelStakeModifierThin 5 1 ≠
        some ((fullHeadersOf (coinHeader :: rearHeader :: lateHeaders)).getKernelStakeModifier 1) :=
  ⟨holdsFull_fullHeadersOf (by decide), holdsThin_thinHeadersOf (by decide) (by decide) (by decide), by decide,
    by decide, by decide⟩

end ProCurrency
