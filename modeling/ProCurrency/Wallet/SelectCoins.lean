import Mathlib.Data.Finset.Basic
import ProCurrency.Lib.Masks
import ProCurrency.Staking.CoinStake

/-!
# Selecting coins

`AvailableCoins`, `ApproximateBestSubset`, `SelectCoinsMinConf` and `SelectCoins` of `CWallet` (wallet.cpp). What the
wallet and the chain tell of a transaction is part of its record. A 64-bit sum wraps.
-/

namespace ProCurrency

open Masks

/-- An output with `IsSpent` and `IsMine`. -/
structure WalletOutput where
  nValue : Int64
  fSpent : Bool
  fMine : Bool
  deriving Repr, DecidableEq

/-- A transaction of the wallet with `IsFinal`, `IsTrusted`, `IsCoinBase() || IsCoinStake()`, `GetBlocksToMaturity`,
`GetDepthInMainChain` and `IsFromMe`. -/
structure WalletTx where
  hash : UInt256
  nTime : UInt32
  vout : List WalletOutput
  fFinal : Bool
  fTrusted : Bool
  fMinted : Bool
  nBlocksToMaturity : Int
  nDepth : Int
  fFromMe : Bool
  deriving Repr, DecidableEq

/-- `mapWallet`. -/
structure MapWallet where
  txs : List WalletTx
  keys : (txs.map WalletTx.hash).Nodup

/-- A pair of a transaction and the number of an output. -/
structure WalletCoin where
  tx : WalletTx
  i : Nat
  deriving Repr, DecidableEq

def WalletCoin.nValue (coin : WalletCoin) : Int64 :=
  match coin.tx.vout[coin.i]? with
  | none => 0
  | some txout => txout.nValue

structure COutput where
  coin : WalletCoin
  nDepth : Int
  deriving Repr, DecidableEq

structure CCoinControl where
  setSelected : List COutPoint

namespace CCoinControl

def hasSelected (coinControl : CCoinControl) : Bool := !coinControl.setSelected.isEmpty

def isSelected (coinControl : CCoinControl) (hash : UInt256) (n : Nat) : Bool :=
  decide ({ hash := hash, n := UInt32.ofNat n } ∈ coinControl.setSelected)

end CCoinControl

/-! ## Available coins -/

/-- `coinControl && coinControl->HasSelected()`. -/
def coinsSelected (coinControl : Option CCoinControl) : Bool :=
  match coinControl with
  | none => false
  | some coinControl => coinControl.hasSelected

/-- The last part of the condition of `AvailableCoins`. -/
def controlAllows (coinControl : Option CCoinControl) (hash : UInt256) (n : Nat) : Bool :=
  match coinControl with
  | none => true
  | some coinControl => !coinControl.hasSelected || coinControl.isSelected hash n

/-- The outputs of one transaction. -/
def availableOf (nMinimumInputValue : Int64) (fOnlyConfirmed : Bool) (coinControl : Option CCoinControl)
    (tx : WalletTx) : List COutput :=
  if !tx.fFinal then []
  else if fOnlyConfirmed && !tx.fTrusted then []
  else if tx.fMinted && 0 < tx.nBlocksToMaturity then []
  else if tx.nDepth < 0 then []
  else
    (List.range tx.vout.length).filterMap fun i =>
      match tx.vout[i]? with
      | none => none
      | some txout =>
          if !txout.fSpent && txout.fMine && nMinimumInputValue ≤ txout.nValue && controlAllows coinControl tx.hash i then
            some { coin := { tx := tx, i := i }, nDepth := tx.nDepth }
          else none

def availableCoins (mapWallet : MapWallet) (nMinimumInputValue : Int64) (fOnlyConfirmed : Bool)
    (coinControl : Option CCoinControl) : List COutput :=
  mapWallet.txs.flatMap (availableOf nMinimumInputValue fOnlyConfirmed coinControl)

/-! ## The best subset -/

/-- What the generator of random numbers decides in one call of `SelectCoinsMinConf`, and the order in which `sort`
leaves coins of one value. -/
structure Randomness where
  shuffle : List COutput → List COutput
  shuffle_perm : ∀ vCoins, (shuffle vCoins).Perm vCoins
  sort : List WalletCoin → List WalletCoin
  sort_perm : ∀ vValue, (sort vValue).Perm vValue
  sort_desc : ∀ vValue, (sort vValue).Pairwise fun a b => b.nValue ≤ a.nValue
  /-- `rand() % 2` for an output, in a repetition of the first or the second approximation. -/
  flip : Bool → Nat → Nat → Bool

/-- The variables of a repetition. -/
structure Repetition where
  vfIncluded : List Bool
  nTotal : Int64
  fReachedTarget : Bool
  vfBest : List Bool
  nBest : Int64
  deriving Repr, DecidableEq

/-- What is done with a coin that is taken. -/
def Repetition.take (nTargetValue : Int64) (st : Repetition) (i : Nat) (coin : WalletCoin) : Repetition :=
  let nTotal := st.nTotal + coin.nValue
  let vfIncluded := st.vfIncluded.set i true
  if nTargetValue ≤ nTotal then
    { vfIncluded := vfIncluded.set i false
      nTotal := nTotal - coin.nValue
      fReachedTarget := true
      vfBest := if nTotal < st.nBest then vfIncluded else st.vfBest
      nBest := if nTotal < st.nBest then nTotal else st.nBest }
  else { st with vfIncluded, nTotal }

/-- A pass over the coins from the output `i` on; `fTake` is the test of the pass. -/
def passFrom (nTargetValue : Int64) (fTake : Nat → Bool → Bool) (i : Nat) (st : Repetition) :
    List WalletCoin → Repetition
  | [] => st
  | coin :: vValue =>
      if fTake i (st.vfIncluded.getD i false) then
        passFrom nTargetValue fTake (i + 1) (st.take nTargetValue i coin) vValue
      else passFrom nTargetValue fTake (i + 1) st vValue

/-- The repetitions that are left. -/
def approximateFrom (vValue : List WalletCoin) (nTargetValue : Int64) (flip : Nat → Nat → Bool) (nRep : Nat)
    (vfBest : List Bool) (nBest : Int64) : Nat → List Bool × Int64
  | 0 => (vfBest, nBest)
  | iterations + 1 =>
      if nBest = nTargetValue then (vfBest, nBest)
      else
        let st : Repetition :=
          { vfIncluded := List.replicate vValue.length false, nTotal := 0, fReachedTarget := false, vfBest, nBest }
        -- The first pass does not look at `vfIncluded`, which has no flag at a place that is still ahead.
        let st := passFrom nTargetValue (fun i _ => flip nRep i) 0 st vValue
        let st := if st.fReachedTarget then st else passFrom nTargetValue (fun _ fIncluded => !fIncluded) 0 st vValue
        approximateFrom vValue nTargetValue flip (nRep + 1) st.vfBest st.nBest iterations

def approximateBestSubset (vValue : List WalletCoin) (nTotalLower nTargetValue : Int64) (flip : Nat → Nat → Bool)
    (iterations : Nat) : List Bool × Int64 :=
  approximateFrom vValue nTargetValue flip 0 (List.replicate vValue.length true) nTotalLower iterations

/-! ## Selecting -/

/-- The coins below the target, and the lowest one above it. -/
structure CoinsByTarget where
  vValue : List WalletCoin
  nTotalLower : Int64
  coinLowestLarger : Option WalletCoin

/-- `coinLowestLarger.first`. -/
def CoinsByTarget.lowestLarger (st : CoinsByTarget) : Int64 :=
  match st.coinLowestLarger with
  | none => Int64.maxValue
  | some coin => coin.nValue

/-- The loop over the shuffled coins; a coin of just the target ends it. -/
def sortByTarget (nTargetValue : Int64) (nSpendTime : UInt32) (nConfMine nConfTheirs : Int) (st : CoinsByTarget) :
    List COutput → WalletCoin ⊕ CoinsByTarget
  | [] => .inr st
  | output :: vCoins =>
      let coin := output.coin
      let n := coin.nValue
      if output.nDepth < (if coin.tx.fFromMe then nConfMine else nConfTheirs) then
        sortByTarget nTargetValue nSpendTime nConfMine nConfTheirs st vCoins
      else if nSpendTime < coin.tx.nTime then sortByTarget nTargetValue nSpendTime nConfMine nConfTheirs st vCoins
      else if n = nTargetValue then .inl coin
      else if n < nTargetValue + CENT then
        sortByTarget nTargetValue nSpendTime nConfMine nConfTheirs
          { st with vValue := st.vValue ++ [coin], nTotalLower := st.nTotalLower + n } vCoins
      else if n < st.lowestLarger then
        sortByTarget nTargetValue nSpendTime nConfMine nConfTheirs { st with coinLowestLarger := some coin } vCoins
      else sortByTarget nTargetValue nSpendTime nConfMine nConfTheirs st vCoins

/-- `setCoinsRet` and `nValueRet`. -/
structure CoinsRet where
  setCoinsRet : Finset WalletCoin
  nValueRet : Int64
  deriving DecidableEq

namespace CoinsRet

/-- Both are cleared. -/
def empty : CoinsRet where
  setCoinsRet := ∅
  nValueRet := 0

def insert (ret : CoinsRet) (coin : WalletCoin) : CoinsRet where
  setCoinsRet := Insert.insert coin ret.setCoinsRet
  nValueRet := ret.nValueRet + coin.nValue

def insertAll (ret : CoinsRet) (coins : List WalletCoin) : CoinsRet := coins.foldl insert ret

end CoinsRet

def selectCoinsMinConf (nTargetValue : Int64) (nSpendTime : UInt32) (nConfMine nConfTheirs : Int)
    (vCoins : List COutput) (rand : Randomness) : Bool × CoinsRet :=
  match sortByTarget nTargetValue nSpendTime nConfMine nConfTheirs
      { vValue := [], nTotalLower := 0, coinLowestLarger := none } (rand.shuffle vCoins) with
  | .inl coin => (true, CoinsRet.empty.insert coin)
  | .inr st =>
      if st.nTotalLower = nTargetValue then (true, CoinsRet.empty.insertAll st.vValue)
      else if st.nTotalLower < nTargetValue then
        match st.coinLowestLarger with
        | none => (false, .empty)
        | some coin => (true, CoinsRet.empty.insert coin)
      else
        let vValue := rand.sort st.vValue
        let best := approximateBestSubset vValue st.nTotalLower nTargetValue (rand.flip false) 1000
        let best :=
          if best.2 ≠ nTargetValue ∧ nTargetValue + CENT ≤ st.nTotalLower then
            approximateBestSubset vValue st.nTotalLower (nTargetValue + CENT) (rand.flip true) 1000
          else best
        match st.coinLowestLarger with
        | none => (true, CoinsRet.empty.insertAll (pick best.1 vValue))
        | some coin =>
            if (best.2 ≠ nTargetValue ∧ best.2 < nTargetValue + CENT) ∨ coin.nValue ≤ best.2 then
              (true, CoinsRet.empty.insert coin)
            else (true, CoinsRet.empty.insertAll (pick best.1 vValue))

/-- `SelectCoins`, into the empty set and the zero that its caller passes; every call of `SelectCoinsMinConf` has its
own randomness. -/
def selectCoins (mapWallet : MapWallet) (nMinimumInputValue nTargetValue : Int64) (nSpendTime : UInt32)
    (coinControl : Option CCoinControl) (rand rand' rand'' : Randomness) : Bool × CoinsRet :=
  let vCoins := availableCoins mapWallet nMinimumInputValue true coinControl
  if coinsSelected coinControl then
    let ret := CoinsRet.empty.insertAll (vCoins.map COutput.coin)
    (nTargetValue ≤ ret.nValueRet, ret)
  else
    match selectCoinsMinConf nTargetValue nSpendTime 1 10 vCoins rand with
    | (true, ret) => (true, ret)
    | (false, _) =>
        match selectCoinsMinConf nTargetValue nSpendTime 1 1 vCoins rand' with
        | (true, ret) => (true, ret)
        | (false, _) => selectCoinsMinConf nTargetValue nSpendTime 0 1 vCoins rand''

end ProCurrency
