import ProCurrency.Connect.MinFee
import ProCurrency.Wallet.SelectCoins

/-!
# Creating a transaction

`CreateTransaction` of `CWallet` (wallet.cpp). `nChangePos` is read off an iterator that the insertion before it may
have invalidated, and is left out, as is `dPriority`, which nothing reads. The loop over the fees has a fuel.
-/

namespace ProCurrency

/-! ## Surroundings -/

/-- `CCoinControl` with `destChange`, which is the script of a destination here; `CNoDestination` has none. -/
structure CreateControl extends CCoinControl where
  destChange : Option CScript

/-- What is decided outside in one round of the loop: the random numbers, the next key of the change chain, and the
scripts that `SignSignature` sets. -/
structure RoundChance where
  rand : Randomness
  rand' : Randomness
  rand'' : Randomness
  getRandInt : Nat → Nat
  getRandInt_lt : ∀ nMax, 0 < nMax → getRandInt nMax < nMax
  /-- The script that pays to the key of `GetChangeAddress`. -/
  getChangeAddress : Option CScript
  signSignature : WalletCoin → CTransaction → Nat → Option CScript

structure CreateEnv where
  mapWallet : MapWallet
  nMinimumInputValue : Int64
  nTransactionFee : Int64
  nBestHeight : Int
  coinControl : Option CreateControl
  /-- A set of coins is gone through in the order of the addresses of their transactions. -/
  inOrder : Finset WalletCoin → List WalletCoin
  inOrder_nodup : ∀ setCoins, (inOrder setCoins).Nodup
  inOrder_toFinset : ∀ setCoins, (inOrder setCoins).toFinset = setCoins
  chance : Nat → RoundChance

/-! ## Change -/

/-- The change and the fee. -/
def moveToFee (nChange nFeeRet : Int64) : Int64 × Int64 :=
  if nFeeRet < MIN_TX_FEE ∧ 0 < nChange ∧ nChange < CENT then
    let nMoveToFee := min nChange (MIN_TX_FEE - nFeeRet)
    (nChange - nMoveToFee, nFeeRet + nMoveToFee)
  else (nChange, nFeeRet)

/-- `while (position > begin)`: back to an output that has a value. -/
def backToValue (vout : List CTxOut) : Nat → Nat
  | 0 => 0
  | position + 1 =>
      match vout[position + 1]? with
      | none => position + 1
      | some txout => if txout.nValue ≠ 0 then position + 1 else backToValue vout position

/-- The change is not put between a value and its narration. -/
def changePosition (vout : List CTxOut) (position : Nat) : Nat :=
  if 0 < position ∧ position < vout.length then backToValue vout position else position

/-- `vout.insert(position, txout)`. -/
def insertAt (vout : List CTxOut) (position : Nat) (txout : CTxOut) : List CTxOut :=
  vout.take position ++ txout :: vout.drop position

/-! ## Inputs -/

def fillVin (coins : List WalletCoin) : List CTxIn :=
  coins.map fun coin =>
    { prevout := { hash := coin.tx.hash, n := UInt32.ofNat coin.i }, scriptSig := [], nSequence := -1 }

/-- The loop that signs, from the input `nIn` on. -/
def signCoins (signSignature : WalletCoin → CTransaction → Nat → Option CScript) (wtxNew : CTransaction) (nIn : Nat) :
    List WalletCoin → Option CTransaction
  | [] => some wtxNew
  | coin :: coins =>
      match signSignature coin wtxNew nIn with
      | none => none
      | some scriptSig =>
          signCoins signSignature
            { wtxNew with vin := wtxNew.vin.modify nIn fun txin => { txin with scriptSig } } (nIn + 1) coins

/-! ## The loop -/

structure Created where
  wtxNew : CTransaction
  nFeeRet : Int64

/-- How a round ends. -/
inductive RoundEnd where
  | failed
  | again (nFeeRet : Int64)
  | created (created : Created)

namespace CreateEnv

variable (e : CreateEnv)

def scriptChange (k : Nat) : Option CScript :=
  match e.coinControl with
  | none => (e.chance k).getChangeAddress
  | some coinControl =>
      match coinControl.destChange with
      | none => (e.chance k).getChangeAddress
      | some script => some script

/-- The outputs, with the change if there is any. -/
def addChange (k : Nat) (vout : List CTxOut) (nChange : Int64) : Option (List CTxOut) :=
  if 0 < nChange then
    match e.scriptChange k with
    | none => none
    | some scriptPubKey =>
        let position := (e.chance k).getRandInt (vout.length + 1)
        some (insertAt vout (changePosition vout position) { nValue := nChange, scriptPubKey })
  else some vout

/-- The fee for a transaction of this size. -/
def feeOf (wtxNew : CTransaction) (nBytes : UInt32) : Int64 :=
  let nPayFee := e.nTransactionFee * (1 + Int64.ofNat (nBytes.toNat / 1000))
  let nMinFee := wtxNew.getMinFeeAt e.nBestHeight 1 .GMF_SEND nBytes
  max nPayFee nMinFee

/-- A pass through the body of `while (true)`. -/
def createRound (vecSend : List (CScript × Int64)) (wtxNew : CTransaction) (nValue : Int64) (k : Nat)
    (nFeeRet : Int64) : RoundEnd :=
  let chance := e.chance k
  let nTotalValue := nValue + nFeeRet
  let vout := vecSend.map fun s => { nValue := s.2, scriptPubKey := s.1 }
  match selectCoins e.mapWallet e.nMinimumInputValue nTotalValue wtxNew.nTime
      (e.coinControl.map CreateControl.toCCoinControl) chance.rand chance.rand' chance.rand'' with
  | (false, _) => .failed
  | (true, ret) =>
      let moved := moveToFee (ret.nValueRet - nValue - nFeeRet) nFeeRet
      match e.addChange k vout moved.1 with
      | none => .failed
      | some vout =>
          let coins := e.inOrder ret.setCoinsRet
          match signCoins chance.signSignature { wtxNew with vin := fillVin coins, vout } 0 coins with
          | none => .failed
          | some wtxNew =>
              let nBytes := UInt32.ofNat wtxNew.getSerializeSize
              if UInt32.ofNat (MAX_BLOCK_SIZE / 2 / 5) ≤ nBytes then .failed
              else if moved.2 < e.feeOf wtxNew nBytes then .again (e.feeOf wtxNew nBytes)
              else .created { wtxNew, nFeeRet := moved.2 }

/-- The rounds from number `k` on; `none` when they do not end within the fuel. -/
def createFrom (vecSend : List (CScript × Int64)) (wtxNew : CTransaction) (nValue : Int64) :
    Nat → Nat → Int64 → Option (Option Created)
  | 0, _, _ => none
  | fuel + 1, k, nFeeRet =>
      match e.createRound vecSend wtxNew nValue k nFeeRet with
      | .failed => some none
      | .again nFeeRet => createFrom vecSend wtxNew nValue fuel (k + 1) nFeeRet
      | .created created => some (some created)

end CreateEnv

/-- The sum of what is sent, unless it is seen to be negative. -/
def sumSend (nValue : Int64) : List (CScript × Int64) → Option Int64
  | [] => if nValue < 0 then none else some nValue
  | s :: vecSend => if nValue < 0 then none else sumSend (nValue + s.2) vecSend

/-- `CreateTransaction`; the outer `none` is a loop that has not ended, the inner one is `return false`. -/
def CreateEnv.createTransaction (e : CreateEnv) (vecSend : List (CScript × Int64)) (wtxNew : CTransaction)
    (fuel : Nat) : Option (Option Created) :=
  match sumSend 0 vecSend with
  | none => some none
  | some nValue =>
      if vecSend.isEmpty then some none else e.createFrom vecSend wtxNew nValue fuel 0 e.nTransactionFee

end ProCurrency
