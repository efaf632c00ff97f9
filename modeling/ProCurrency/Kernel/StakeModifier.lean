import ProCurrency.Kernel.Stake

/-!
# The next stake modifier

`ComputeNextStakeModifier` and `SelectBlockFromCandidates` (kernel.cpp), and what a thin node runs in their place. The
log and the map that is printed for it are left out.
-/

namespace ProCurrency

open ByteCodec

/-- `CBlockIndex` with the hash of its proof. -/
structure StakeIndex extends CBlockIndex where
  hashProof : UInt256 := 0
  deriving Repr, DecidableEq

/-- `CBlockThinIndex` with what the stake modifier is computed from. -/
structure StakeThinIndex extends CBlockThinIndex where
  hashBlock : UInt256
  nStakeModifier : UInt64
  hashProof : UInt256
  deriving Repr, DecidableEq

def BLOCK_STAKE_ENTROPY : UInt32 := 2

namespace StakeIndex

def getStakeEntropyBit (b : StakeIndex) : UInt32 := (b.nFlags &&& BLOCK_STAKE_ENTROPY) >>> 1

def toStakeThin (b : StakeIndex) : StakeThinIndex where
  toCBlockThinIndex := b.toThin
  hashBlock := b.hashBlock
  nStakeModifier := b.nStakeModifier
  hashProof := b.hashProof

end StakeIndex

namespace StakeThinIndex

def getStakeEntropyBit (b : StakeThinIndex) : UInt32 := (b.nFlags &&& BLOCK_STAKE_ENTROPY) >>> 1

def generatedStakeModifier (b : StakeThinIndex) : Bool := b.nFlags &&& BLOCK_STAKE_MODIFIER != 0

end StakeThinIndex

/-- The answer, and what is left in the two arguments. -/
structure NextStakeModifier where
  fOk : Bool
  nStakeModifier : UInt64
  fGeneratedStakeModifier : Bool
  deriving Repr, DecidableEq

/-- The order of `std::pair<int64_t, uint256>`. -/
def pairLe (a b : Int × UInt256) : Bool := a.1 < b.1 || (a.1 = b.1 && a.2 ≤ b.2)

/-! ## On the full index -/

def getLastStakeModifier : List StakeIndex → Option (UInt64 × Int)
  | [] => none
  | [pindex] => if pindex.generatedStakeModifier then some (pindex.nStakeModifier, pindex.getBlockTime) else none
  | pindex :: pprev :: rest =>
      if pindex.generatedStakeModifier then some (pindex.nStakeModifier, pindex.getBlockTime)
      else getLastStakeModifier (pprev :: rest)

section

variable (hash : List UInt8 → UInt256) (mapBlockIndex : UInt256 → Option StakeIndex)

/-- The loop of `SelectBlockFromCandidates`, with what `hashBest` and `pindexSelected` are once `fSelected` is set. -/
def selectBlockFromCandidates (mapSelectedBlocks : List UInt256) (nSelectionIntervalStop : Int)
    (nStakeModifierPrev : UInt64) (best : Option (UInt256 × StakeIndex)) : List (Int × UInt256) → Option StakeIndex
  | [] => best.map Prod.snd
  | item :: vSortedByTimestamp =>
      match mapBlockIndex item.2 with
      | none => none
      | some pindex =>
          if best.isSome && nSelectionIntervalStop < pindex.getBlockTime then best.map Prod.snd
          else if pindex.hashBlock ∈ mapSelectedBlocks then
            selectBlockFromCandidates mapSelectedBlocks nSelectionIntervalStop nStakeModifierPrev best
              vSortedByTimestamp
          else
            let hashSelection := hash (writeUInt256 pindex.hashProof ++ leBytes 8 nStakeModifierPrev.toNat)
            let hashSelection := if pindex.isProofOfStake then hashSelection >>> 32 else hashSelection
            let best :=
              match best with
              | none => some (hashSelection, pindex)
              | some (hashBest, pindexSelected) =>
                  if hashSelection < hashBest then some (hashSelection, pindex) else some (hashBest, pindexSelected)
            selectBlockFromCandidates mapSelectedBlocks nSelectionIntervalStop nStakeModifierPrev best
              vSortedByTimestamp

/-- The rounds that are left, from `nRound` on. -/
def selectRounds (vSortedByTimestamp : List (Int × UInt256)) (nStakeModifier : UInt64) :
    Nat → Nat → Int → List UInt256 → UInt64 → Option UInt64
  | 0, _, _, _, nStakeModifierNew => some nStakeModifierNew
  | nLeft + 1, nRound, nSelectionIntervalStop, mapSelectedBlocks, nStakeModifierNew =>
      let nSelectionIntervalStop := nSelectionIntervalStop + getStakeModifierSelectionIntervalSection nRound
      match selectBlockFromCandidates hash mapBlockIndex mapSelectedBlocks nSelectionIntervalStop nStakeModifier none
        vSortedByTimestamp with
      | none => none
      | some pindex =>
          selectRounds vSortedByTimestamp nStakeModifier nLeft (nRound + 1) nSelectionIntervalStop
            (pindex.hashBlock :: mapSelectedBlocks)
            (nStakeModifierNew ||| pindex.getStakeEntropyBit.toUInt64 <<< UInt64.ofNat nRound)

/-- The blocks from `pindex` back to the start of the interval. -/
def stakeCandidates (nSelectionIntervalStart : Int) : List StakeIndex → List (Int × UInt256)
  | [] => []
  | pindex :: pprev =>
      if nSelectionIntervalStart ≤ pindex.getBlockTime then
        (pindex.getBlockTime, pindex.hashBlock) :: stakeCandidates nSelectionIntervalStart pprev
      else []

def computeNextStakeModifier : List StakeIndex → NextStakeModifier
  | [] => { fOk := true, nStakeModifier := 0, fGeneratedStakeModifier := true }
  | pindexPrev :: pprev =>
      match getLastStakeModifier (pindexPrev :: pprev) with
      | none => { fOk := false, nStakeModifier := 0, fGeneratedStakeModifier := false }
      | some (nStakeModifier, nModifierTime) =>
          if pindexPrev.getBlockTime / nModifierInterval ≤ nModifierTime / nModifierInterval then
            { fOk := true, nStakeModifier, fGeneratedStakeModifier := false }
          else
            let nSelectionIntervalStart : Int :=
              pindexPrev.getBlockTime / nModifierInterval * nModifierInterval - getStakeModifierSelectionInterval
            let vSortedByTimestamp :=
              (stakeCandidates nSelectionIntervalStart (pindexPrev :: pprev)).reverse.mergeSort pairLe
            match selectRounds hash mapBlockIndex vSortedByTimestamp nStakeModifier
              (min 64 vSortedByTimestamp.length) 0 nSelectionIntervalStart [] 0 with
            | none => { fOk := false, nStakeModifier, fGeneratedStakeModifier := false }
            | some nStakeModifierNew =>
                { fOk := true, nStakeModifier := nStakeModifierNew, fGeneratedStakeModifier := true }

end

/-! ## On the thin index -/

def getLastStakeModifierThin : List StakeThinIndex → Option (UInt64 × Int)
  | [] => none
  | [pindex] => if pindex.generatedStakeModifier then some (pindex.nStakeModifier, pindex.getBlockTime) else none
  | pindex :: pprev :: rest =>
      if pindex.generatedStakeModifier then some (pindex.nStakeModifier, pindex.getBlockTime)
      else getLastStakeModifierThin (pprev :: rest)

section

variable (hash : List UInt8 → UInt256) (mapBlockThinIndex : UInt256 → Option StakeThinIndex)

def selectBlockFromCandidatesThin (mapSelectedBlocks : List UInt256) (nSelectionIntervalStop : Int)
    (nStakeModifierPrev : UInt64) (best : Option (UInt256 × StakeThinIndex)) :
    List (Int × UInt256) → Option StakeThinIndex
  | [] => best.map Prod.snd
  | item :: vSortedByTimestamp =>
      match mapBlockThinIndex item.2 with
      | none => none
      | some pindex =>
          if best.isSome && nSelectionIntervalStop < pindex.getBlockTime then best.map Prod.snd
          else if pindex.hashBlock ∈ mapSelectedBlocks then
            selectBlockFromCandidatesThin mapSelectedBlocks nSelectionIntervalStop nStakeModifierPrev best
              vSortedByTimestamp
          else
            let hashSelection := hash (writeUInt256 pindex.hashProof ++ leBytes 8 nStakeModifierPrev.toNat)
            let hashSelection := if pindex.isProofOfStake then hashSelection >>> 32 else hashSelection
            let best :=
              match best with
              | none => some (hashSelection, pindex)
              | some (hashBest, pindexSelected) =>
                  if hashSelection < hashBest then some (hashSelection, pindex) else some (hashBest, pindexSelected)
            selectBlockFromCandidatesThin mapSelectedBlocks nSelectionIntervalStop nStakeModifierPrev best
              vSortedByTimestamp

def selectRoundsThin (vSortedByTimestamp : List (Int × UInt256)) (nStakeModifier : UInt64) :
    Nat → Nat → Int → List UInt256 → UInt64 → Option UInt64
  | 0, _, _, _, nStakeModifierNew => some nStakeModifierNew
  | nLeft + 1, nRound, nSelectionIntervalStop, mapSelectedBlocks, nStakeModifierNew =>
      let nSelectionIntervalStop := nSelectionIntervalStop + getStakeModifierSelectionIntervalSection nRound
      match selectBlockFromCandidatesThin hash mapBlockThinIndex mapSelectedBlocks nSelectionIntervalStop
        nStakeModifier none vSortedByTimestamp with
      | none => none
      | some pindex =>
          selectRoundsThin vSortedByTimestamp nStakeModifier nLeft (nRound + 1) nSelectionIntervalStop
            (pindex.hashBlock :: mapSelectedBlocks)
            (nStakeModifierNew ||| pindex.getStakeEntropyBit.toUInt64 <<< UInt64.ofNat nRound)

def stakeCandidatesThin (nSelectionIntervalStart : Int) : List StakeThinIndex → List (Int × UInt256)
  | [] => []
  | pindex :: pprev =>
      if nSelectionIntervalStart ≤ pindex.getBlockTime then
        (pindex.getBlockTime, pindex.hashBlock) :: stakeCandidatesThin nSelectionIntervalStart pprev
      else []

def computeNextStakeModifierThin : List StakeThinIndex → NextStakeModifier
  | [] => { fOk := true, nStakeModifier := 0, fGeneratedStakeModifier := true }
  | pindexPrev :: pprev =>
      match getLastStakeModifierThin (pindexPrev :: pprev) with
      | none => { fOk := false, nStakeModifier := 0, fGeneratedStakeModifier := false }
      | some (nStakeModifier, nModifierTime) =>
          if pindexPrev.getBlockTime / nModifierInterval ≤ nModifierTime / nModifierInterval then
            { fOk := true, nStakeModifier, fGeneratedStakeModifier := false }
          else
            let nSelectionIntervalStart : Int :=
              pindexPrev.getBlockTime / nModifierInterval * nModifierInterval - getStakeModifierSelectionInterval
            let vSortedByTimestamp :=
              (stakeCandidatesThin nSelectionIntervalStart (pindexPrev :: pprev)).reverse.mergeSort pairLe
            match selectRoundsThin hash mapBlockThinIndex vSortedByTimestamp nStakeModifier
              (min 64 vSortedByTimestamp.length) 0 nSelectionIntervalStart [] 0 with
            | none => { fOk := false, nStakeModifier, fGeneratedStakeModifier := false }
            | some nStakeModifierNew =>
                { fOk := true, nStakeModifier := nStakeModifierNew, fGeneratedStakeModifier := true }

end

/-! ## One chain in both -/

section

variable {hash : List UInt8 → UInt256} {mapBlockIndex : UInt256 → Option StakeIndex}
  {mapBlockThinIndex : UInt256 → Option StakeThinIndex}

/-- Each block of the chain is found by its hash. -/
def HoldsEntries (mapBlockIndex : UInt256 → Option StakeIndex) (chain : List StakeIndex) : Prop :=
  ∀ pindex ∈ chain, mapBlockIndex pindex.hashBlock = some pindex

def HoldsThinEntries (mapBlockThinIndex : UInt256 → Option StakeThinIndex) (chain : List StakeIndex) : Prop :=
  ∀ pindex ∈ chain, mapBlockThinIndex pindex.hashBlock = some pindex.toStakeThin

theorem getLastStakeModifierThin_map (chain : List StakeIndex) :
    getLastStakeModifierThin (chain.map StakeIndex.toStakeThin) = getLastStakeModifier chain := by
  induction chain with
  | nil => rfl
  | cons pindex pprev ih =>
      cases pprev with
      | nil => rfl
      | cons pprev rest =>
          simp only [List.map_cons] at ih ⊢
          rw [getLastStakeModifierThin, getLastStakeModifier, ih]
          rfl

theorem stakeCandidatesThin_map (nStart : Int) (chain : List StakeIndex) :
    stakeCandidatesThin nStart (chain.map StakeIndex.toStakeThin) = stakeCandidates nStart chain := by
  induction chain with
  | nil => rfl
  | cons pindex pprev ih =>
      rw [List.map_cons, stakeCandidatesThin, stakeCandidates, ih]
      rfl

theorem mem_stakeCandidates {nStart : Int} {chain : List StakeIndex} {item : Int × UInt256}
    (h : item ∈ stakeCandidates nStart chain) : ∃ pindex ∈ chain, pindex.hashBlock = item.2 := by
  induction chain with
  | nil => cases h
  | cons pindex pprev ih =>
      rw [stakeCandidates] at h
      split_ifs at h
      · cases h with
        | head => exact ⟨pindex, List.mem_cons_self, rfl⟩
        | tail _ h =>
            obtain ⟨pindex', hmem, heq⟩ := ih h
            exact ⟨pindex', List.mem_cons_of_mem _ hmem, heq⟩
      · cases h

/-- The maps answer alike for each candidate. -/
def SameEntries (mapBlockIndex : UInt256 → Option StakeIndex) (mapBlockThinIndex : UInt256 → Option StakeThinIndex)
    (items : List (Int × UInt256)) : Prop :=
  ∀ item ∈ items, mapBlockThinIndex item.2 = (mapBlockIndex item.2).map StakeIndex.toStakeThin

theorem selectBlockFromCandidatesThin_map (hash : List UInt8 → UInt256) {items : List (Int × UInt256)}
    (h : SameEntries mapBlockIndex mapBlockThinIndex items) (mapSelectedBlocks : List UInt256) (nStop : Int)
    (nPrev : UInt64) (best : Option (UInt256 × StakeIndex)) :
    selectBlockFromCandidatesThin hash mapBlockThinIndex mapSelectedBlocks nStop nPrev
        (best.map (Prod.map id StakeIndex.toStakeThin)) items =
      (selectBlockFromCandidates hash mapBlockIndex mapSelectedBlocks nStop nPrev best items).map
        StakeIndex.toStakeThin := by
  have hbest (best : Option (UInt256 × StakeIndex)) :
      (best.map (Prod.map id StakeIndex.toStakeThin)).map Prod.snd =
        (best.map Prod.snd).map StakeIndex.toStakeThin := by
    cases best <;> rfl
  induction items generalizing best with
  | nil => exact hbest best
  | cons item items ih =>
      obtain ⟨hitem, hitems⟩ := List.forall_mem_cons.mp h
      rw [selectBlockFromCandidatesThin, selectBlockFromCandidates, hitem]
      cases mapBlockIndex item.2 with
      | none => rfl
      | some pindex =>
          simp only [Option.map_some, Option.isSome_map]
          rw [show pindex.toStakeThin.getBlockTime = pindex.getBlockTime from rfl,
            show pindex.toStakeThin.hashBlock = pindex.hashBlock from rfl,
            show pindex.toStakeThin.hashProof = pindex.hashProof from rfl,
            show pindex.toStakeThin.isProofOfStake = pindex.isProofOfStake from rfl]
          split_ifs with hstop hselected
          · exact hbest best
          · exact ih hitems best
          all_goals
            rw [← ih hitems]
            congr 1
            cases best with
            | none => rfl
            | some best =>
                obtain ⟨hashBest, pindexSelected⟩ := best
                simp only [Option.map_some, Prod.map_apply, id_eq]
                split_ifs <;> rfl

theorem selectRoundsThin_eq {items : List (Int × UInt256)} (h : SameEntries mapBlockIndex mapBlockThinIndex items)
    (nStakeModifier : UInt64) (nLeft nRound : Nat) (nStop : Int) (mapSelectedBlocks : List UInt256) (nNew : UInt64) :
    selectRoundsThin hash mapBlockThinIndex items nStakeModifier nLeft nRound nStop mapSelectedBlocks nNew =
      selectRounds hash mapBlockIndex items nStakeModifier nLeft nRound nStop mapSelectedBlocks nNew := by
  induction nLeft generalizing nRound nStop mapSelectedBlocks nNew with
  | zero => rfl
  | succ nLeft ih =>
      have hselect := selectBlockFromCandidatesThin_map hash h mapSelectedBlocks
        (nStop + getStakeModifierSelectionIntervalSection nRound) nStakeModifier none
      rw [Option.map_none] at hselect
      rw [selectRoundsThin, selectRounds, hselect]
      cases selectBlockFromCandidates hash mapBlockIndex mapSelectedBlocks
        (nStop + getStakeModifierSelectionIntervalSection nRound) nStakeModifier none items with
      | none => rfl
      | some pindex => exact ih _ _ _ _

/-- On one chain both functions leave the same. -/
theorem computeNextStakeModifierThin_eq (hash : List UInt8 → UInt256) (mapBlockIndex : UInt256 → Option StakeIndex)
    (mapBlockThinIndex : UInt256 → Option StakeThinIndex) (pindexPrev : List StakeIndex)
    (hfull : HoldsEntries mapBlockIndex pindexPrev) (hthin : HoldsThinEntries mapBlockThinIndex pindexPrev) :
    computeNextStakeModifierThin hash mapBlockThinIndex (pindexPrev.map StakeIndex.toStakeThin) =
      computeNextStakeModifier hash mapBlockIndex pindexPrev := by
  have hsame (nStart : Int) :
      SameEntries mapBlockIndex mapBlockThinIndex ((stakeCandidates nStart pindexPrev).reverse.mergeSort pairLe) := by
    intro item hitem
    rw [List.mem_mergeSort, List.mem_reverse] at hitem
    obtain ⟨pindex, hmem, heq⟩ := mem_stakeCandidates hitem
    rw [← heq, hfull pindex hmem, hthin pindex hmem, Option.map_some]
  cases pindexPrev with
  | nil => rfl
  | cons pindex pprev =>
      have hlast := getLastStakeModifierThin_map (pindex :: pprev)
      have hcandidates (nStart : Int) := stakeCandidatesThin_map nStart (pindex :: pprev)
      simp only [List.map_cons] at hlast hcandidates ⊢
      rw [computeNextStakeModifierThin, computeNextStakeModifier, hlast]
      cases getLastStakeModifier (pindex :: pprev) with
      | none => rfl
      | some last =>
          simp only [hcandidates, show pindex.toStakeThin.getBlockTime = pindex.getBlockTime from rfl,
            selectRoundsThin_eq (hsame _)]

end

/-! ## A chain whose modifier is due -/

def staleChain : List StakeIndex :=
  [{ hashBlock := 3, nHeight := 2, nTime := 3700, nFlags := 3, hashProof := 8 },
   { hashBlock := 2, nHeight := 1, nTime := 3600, nFlags := 2, hashProof := 5 },
   { hashBlock := 1, nHeight := 0, nTime := 0, nFlags := 4, nStakeModifier := 6, hashProof := 9 }]

theorem computeNextStakeModifierThin_staleChain :
    computeNextStakeModifierThin (fun bytes => BitVec.ofNat 256 (ofLeBytes bytes))
        (fun hash => (staleChain.map StakeIndex.toStakeThin).find? (·.hashBlock = hash))
        (staleChain.map StakeIndex.toStakeThin) =
      computeNextStakeModifier (fun bytes => BitVec.ofNat 256 (ofLeBytes bytes))
        (fun hash => staleChain.find? (·.hashBlock = hash)) staleChain :=
  computeNextStakeModifierThin_eq _ _ _ _ (fun pindex hmem => by revert pindex; decide)
    (fun pindex hmem => by revert pindex; decide)

end ProCurrency

/-!
## The stake modifier of a kernel

`GetKernelStakeModifier` on the full index, and `GetKernelStakeModifierThin` (kernel.cpp), which reads the headers
before the rear of its window from the database. A pointer is an entry with the ones that follow it through `pnext`.
The minimum age and the clock only decide whether a failure is logged.
-/

namespace ProCurrency

/-- The answer, and what is left in the three arguments; the caller has set them to zero. -/
structure KernelModifier where
  fOk : Bool
  nStakeModifier : UInt64 := 0
  nStakeModifierHeight : Int := 0
  nStakeModifierTime : Int := 0
  deriving Repr, DecidableEq

/-! ## On the full index -/

/-- The loop of `GetKernelStakeModifier`, at `pindex`. -/
def getKernelStakeModifierFrom (nTimeEnd : Int) (pindex : StakeIndex) (nStakeModifierHeight nStakeModifierTime : Int) :
    List StakeIndex → KernelModifier
  | [] =>
      if nStakeModifierTime < nTimeEnd then { fOk := false, nStakeModifierHeight, nStakeModifierTime }
      else { fOk := true, nStakeModifier := pindex.nStakeModifier, nStakeModifierHeight, nStakeModifierTime }
  | pnext :: pnexts =>
      if nStakeModifierTime < nTimeEnd then
        if pnext.generatedStakeModifier then
          getKernelStakeModifierFrom nTimeEnd pnext pnext.nHeight pnext.getBlockTime pnexts
        else getKernelStakeModifierFrom nTimeEnd pnext nStakeModifierHeight nStakeModifierTime pnexts
      else { fOk := true, nStakeModifier := pindex.nStakeModifier, nStakeModifierHeight, nStakeModifierTime }

/-- The part of a full node that the lookup reads. -/
structure FullHeaders where
  mapBlockIndex : UInt256 → Option (StakeIndex × List StakeIndex)

def FullHeaders.getKernelStakeModifier (headers : FullHeaders) (hashBlockFrom : UInt256) : KernelModifier :=
  match headers.mapBlockIndex hashBlockFrom with
  | none => { fOk := false }
  | some (pindexFrom, pnexts) =>
      getKernelStakeModifierFrom (pindexFrom.getBlockTime + getStakeModifierSelectionInterval) pindexFrom
        pindexFrom.nHeight pindexFrom.getBlockTime pnexts

/-! ## On a thin node -/

/-- `CDiskBlockThinIndex`. -/
structure CDiskBlockThinIndex extends StakeThinIndex where
  hashNext : UInt256

/-- The part of a thin node that the lookup reads. -/
structure ThinHeaders where
  fThinFullIndex : Bool
  pindexRear : Option StakeThinIndex
  mapBlockThinIndex : UInt256 → Option (StakeThinIndex × List StakeThinIndex)
  readBlockThinIndex : UInt256 → Option CDiskBlockThinIndex

/-- `GetKernelStakeModifierThinIt`. -/
def getKernelStakeModifierThinIt (nTimeEnd : Int) (pindex : StakeThinIndex) (nStakeModifierHeight nStakeModifierTime : Int) :
    List StakeThinIndex → KernelModifier
  | [] =>
      if nStakeModifierTime < nTimeEnd then { fOk := false, nStakeModifierHeight, nStakeModifierTime }
      else { fOk := true, nStakeModifier := pindex.nStakeModifier, nStakeModifierHeight, nStakeModifierTime }
  | pnext :: pnexts =>
      if nStakeModifierTime < nTimeEnd then
        if pnext.generatedStakeModifier then
          getKernelStakeModifierThinIt nTimeEnd pnext pnext.nHeight pnext.getBlockTime pnexts
        else getKernelStakeModifierThinIt nTimeEnd pnext nStakeModifierHeight nStakeModifierTime pnexts
      else { fOk := true, nStakeModifier := pindex.nStakeModifier, nStakeModifierHeight, nStakeModifierTime }

namespace ThinHeaders

/-- The entry that the lookup goes on with in memory once it has read `diskindex`. -/
def backInWindow (headers : ThinHeaders) (rear : StakeThinIndex) (diskindex : CDiskBlockThinIndex) :
    Option (StakeThinIndex × List StakeThinIndex) :=
  if rear.getBlockTime < diskindex.getBlockTime then headers.mapBlockThinIndex diskindex.hashNext else none

/-- The loop over the database, of at most `fuel` rounds. -/
def getKernelStakeModifierDisk (headers : ThinHeaders) (nTimeEnd : Int) (rear : StakeThinIndex) :
    Nat → CDiskBlockThinIndex → Int → Int → Option KernelModifier
  | 0, _, _, _ => none
  | fuel + 1, diskindex, nStakeModifierHeight, nStakeModifierTime =>
      if nStakeModifierTime < nTimeEnd then
        if diskindex.hashNext = 0 then some { fOk := false, nStakeModifierHeight, nStakeModifierTime }
        else
          match headers.backInWindow rear diskindex with
          | some (pindex, pnexts) =>
              some (getKernelStakeModifierThinIt nTimeEnd pindex nStakeModifierHeight nStakeModifierTime pnexts)
          | none =>
              match headers.readBlockThinIndex diskindex.hashNext with
              | none => some { fOk := false, nStakeModifierHeight, nStakeModifierTime }
              | some diskindex =>
                  if diskindex.hashNext = 0 then some { fOk := false, nStakeModifierHeight, nStakeModifierTime }
                  else if diskindex.generatedStakeModifier then
                    headers.getKernelStakeModifierDisk nTimeEnd rear fuel diskindex diskindex.nHeight diskindex.getBlockTime
                  else headers.getKernelStakeModifierDisk nTimeEnd rear fuel diskindex nStakeModifierHeight nStakeModifierTime
      else
        some { fOk := true, nStakeModifier := diskindex.nStakeModifier, nStakeModifierHeight, nStakeModifierTime }

def getKernelStakeModifierThin (headers : ThinHeaders) (fuel : Nat) (hashBlockFrom : UInt256) : Option KernelModifier :=
  match headers.mapBlockThinIndex hashBlockFrom with
  | some (pindexFrom, pnexts) =>
      some (getKernelStakeModifierThinIt (pindexFrom.getBlockTime + getStakeModifierSelectionInterval) pindexFrom
        pindexFrom.nHeight pindexFrom.getBlockTime pnexts)
  | none =>
      match headers.fThinFullIndex, headers.pindexRear with
      | true, _ => some { fOk := false }
      | false, none => some { fOk := false }
      | false, some rear =>
          match headers.readBlockThinIndex hashBlockFrom with
          | none => some { fOk := false }
          | some diskindex =>
              if diskindex.hashNext = 0 then some { fOk := false }
              else
                headers.getKernelStakeModifierDisk (diskindex.getBlockTime + getStakeModifierSelectionInterval) rear fuel
                  diskindex diskindex.nHeight diskindex.getBlockTime

end ThinHeaders

end ProCurrency
