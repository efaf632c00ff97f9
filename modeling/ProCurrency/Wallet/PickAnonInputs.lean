import ProCurrency.Connect.MinFee
import ProCurrency.Lib.Odometer
import ProCurrency.Wallet.SelectCoins
import ProCurrency.Wallet.SplitAmount

/-!
# Choosing ring coins

`ListUnspentAnonOutputs` of `CWallet` and `checkCombinations` (wallet.cpp). A read outside of a list is an outcome of
its own. A 64-bit sum or product wraps.
-/

namespace ProCurrency

/-- An `oao` record with the value that the listing puts into it. -/
structure COwnedAnonOutput where
  outpoint : COutPoint
  nValue : Int64
  deriving Repr, DecidableEq

/-! ## The listing -/

/-- A transaction of the wallet with `GetDepthInMainChain`. -/
structure AnonWalletTx where
  nVersion : Int
  vout : List WalletOutput
  nDepth : Int
  deriving Repr, DecidableEq

/-- The coin is put before the first one that is not worth less. -/
def insertAscending (oao : COwnedAnonOutput) : List COwnedAnonOutput → List COwnedAnonOutput
  | [] => [oao]
  | it :: rest => if it.nValue < oao.nValue then it :: insertAscending oao rest else oao :: it :: rest

/-- The checks of one record. -/
def spendableRecord (mapWallet : UInt256 → Option AnonWalletTx) (fMatureOnly : Bool) (outpoint : COutPoint)
    (fSpent : Bool) : Option COwnedAnonOutput :=
  if fSpent then none
  else
    match mapWallet outpoint.hash with
    | none => none
    | some wtx =>
        if wtx.nVersion ≠ ANON_TXN_VERSION then none
        else
          match wtx.vout[outpoint.n.toNat]? with
          | none => none
          | some txout =>
              if txout.fSpent then none
              else if fMatureOnly && wtx.nDepth < MIN_ANON_SPEND_DEPTH then none
              else some { outpoint := outpoint, nValue := txout.nValue }

def listUnspentAnonOutputs (mapWallet : UInt256 → Option AnonWalletTx) (fMatureOnly : Bool) :
    List (COutPoint × Bool) → List COwnedAnonOutput → List COwnedAnonOutput
  | [], lUAnonOutputs => lUAnonOutputs
  | (outpoint, fSpent) :: records, lUAnonOutputs =>
      match spendableRecord mapWallet fMatureOnly outpoint fSpent with
      | none => listUnspentAnonOutputs mapWallet fMatureOnly records lUAnonOutputs
      | some oao => listUnspentAnonOutputs mapWallet fMatureOnly records (insertAscending oao lUAnonOutputs)

/-- `insert by nValue asc`. -/
def Ascending (vData : List COwnedAnonOutput) : Prop := vData.Pairwise fun a b => a.nValue ≤ b.nValue

instance (vData : List COwnedAnonOutput) : Decidable (Ascending vData) :=
  inferInstanceAs (Decidable (vData.Pairwise fun a b => a.nValue ≤ b.nValue))

/-! ## The search -/

inductive Combination where
  | found (vecInputIndex : List Nat)
  | notFound
  | outOfRange
  deriving Repr, DecidableEq

/-- `nTotal` over the indices; `none` when one is out of range. -/
def totalFrom (vData : List COwnedAnonOutput) : Int64 → List Nat → Option Int64
  | nTotal, [] => some nTotal
  | nTotal, i :: vecInputIndex =>
      match vData[i]? with
      | none => none
      | some coin => totalFrom vData (nTotal + coin.nValue) vecInputIndex

/-- `pick better start point`: `startL` for the levels from `l` on, of which there are `levels`. -/
def startFrom (nReq : Int64) (m : Nat) (vData : List COwnedAnonOutput) : Nat → Nat → Option Nat
  | 0, _ => some 0
  | levels + 1, l =>
      match vData[l - 1]? with
      | none => none
      | some coin =>
          if coin.nValue * Int64.ofNat m < nReq then startFrom nReq m vData levels (l + 1)
          else some l

/-- What the index list holds at the beginning of a level. -/
def firstIndex (m l : Nat) : List Nat := (List.range m).reverse.set 0 (l - 1)

inductive Seek where
  | found (vecInputIndex : List Nat)
  /-- `fSeekFine`, with the indices rewound. -/
  | fine (vecInputIndex : List Nat)
  | past (vecInputIndex : List Nat)
  | outOfRange
  deriving Repr, DecidableEq

/-- All indices but the first move up by one. -/
def shiftIndex : List Nat → List Nat
  | [] => []
  | a :: rest => a :: rest.map (· + 1)

/-- `coarse`. -/
def coarseFrom (nReq : Int64) (vData : List COwnedAnonOutput) : Nat → List Nat → Option Seek
  | fuel, vecInputIndex =>
      if vecInputIndex.getD 1 0 < vecInputIndex.getD 0 0 - 1 then
        match fuel with
        | 0 => none
        | fuel + 1 =>
            match totalFrom vData 0 (shiftIndex vecInputIndex) with
            | none => some .outOfRange
            | some nTotal =>
                if nTotal = nReq then some (.found (shiftIndex vecInputIndex))
                else if nReq < nTotal then some (.fine vecInputIndex)
                else coarseFrom nReq vData fuel (shiftIndex vecInputIndex)
      else some (.past vecInputIndex)

/-- One round of `fine`: a list that does not begin with the largest coin of the level is passed over. -/
def fineTest (nReq : Int64) (vData : List COwnedAnonOutput) (l : Nat) (vecInputIndex : List Nat) :
    Option Combination :=
  if vecInputIndex.headD 0 = l - 1 then
    match totalFrom vData 0 vecInputIndex with
    | none => some .outOfRange
    | some nTotal => if nReq ≤ nTotal then some (.found vecInputIndex) else none
  else none

/-- `fine`, up to `EndInner`. -/
def fineFrom (nReq : Int64) (vData : List COwnedAnonOutput) (l fuel : Nat) (vecInputIndex : List Nat) :
    Option (Option Combination) :=
  Odometer.search (fineTest nReq vData l) l fuel vecInputIndex

/-- A level; the second `none` tells that it holds no combination. The text of `coarse seek` reads
`vecInputIndex[1]`. -/
def checkLevel (fDebugRingSig : Bool) (nReq : Int64) (m : Nat) (vData : List COwnedAnonOutput) (fuel l : Nat) :
    Option (Option Combination) :=
  if fDebugRingSig && m < 2 then some (some .outOfRange)
  else
    match if m ≤ 2 then some (Seek.fine (firstIndex m l)) else coarseFrom nReq vData fuel (firstIndex m l) with
    | none => none
    | some .outOfRange => some (some .outOfRange)
    | some (.found vecInputIndex) => some (some (.found vecInputIndex))
    | some (.fine vecInputIndex) => fineFrom nReq vData l fuel vecInputIndex
    | some (.past vecInputIndex) =>
        if l < vData.length then some none else fineFrom nReq vData l fuel vecInputIndex

/-- The levels from `l` on. The `break` after `EndInner` is not reached from the `continue`, but then there are more
than `m` coins. -/
def checkLevels (fDebugRingSig : Bool) (nReq : Int64) (m : Nat) (vData : List COwnedAnonOutput) (fuel : Nat) :
    Nat → Nat → Option Combination
  | 0, _ => some .notFound
  | levels + 1, l =>
      match checkLevel fDebugRingSig nReq m vData fuel l with
      | none => none
      | some (some c) => some c
      | some none =>
          if vData.length < m + 1 then some .notFound
          else checkLevels fDebugRingSig nReq m vData fuel levels (l + 1)

/-- `none` when the fuel is used up; `m` is not zero. -/
def checkCombinations (fDebugRingSig : Bool) (fuel : Nat) (nReq : Int64) (m : Nat)
    (vData : List COwnedAnonOutput) : Option Combination :=
  if vData.length < m then some .notFound
  else
    match startFrom nReq m vData (vData.length + 1 - m) m with
    | none => some .outOfRange
    | some startL =>
        if startL = 0 then some .notFound
        else checkLevels fDebugRingSig nReq m vData fuel (vData.length + 1 - startL) startL

/-!
## Picking ring coins

`CreateAnonOutputs` without a narration and `PickAnonInputs` of `CWallet` (wallet.cpp). A coin that is picked is
given by its number in the list of available coins.
-/

/-- What is decided outside of `PickAnonInputs`. -/
structure AnonPickEnv where
  nBestHeight : Int
  fDebugRingSig : Bool
  /-- `GetAnonChangeAddress` finds an address. -/
  fChangeAddress : Bool
  /-- `cpkTo` and `pkEphem` for an output of the change in a round, with `fTest` or without; `none` when a step on the
  way to them fails. -/
  outputKeys : Nat → Nat → Option (List UInt8 × List UInt8)

/-- The parameters of `PickAnonInputs` that it only reads. For a number that is no ring signature type, `rsType` is
`none`. -/
structure AnonPickArgs where
  rsType : Option RingSigType
  nValue : Int64
  nRingSize : Nat
  wtxNew : CTransaction
  nOutputs : Nat
  nSizeOutputs : Nat
  lAvailableCoins : List COwnedAnonOutput

/-- The parameters that it writes. -/
structure AnonPick where
  nFee : Int64
  nExpectChangeOuts : Nat
  vPickedCoins : List Nat
  vecChange : List (CScript × Int64)
  sError : String
  deriving Repr, DecidableEq

/-- The number that is returned, or a read out of range. -/
inductive PickResult where
  | outOfRange
  | returned (rv : Nat) (pick : AnonPick)
  deriving Repr, DecidableEq

/-- The outputs from number `i` on; the flag is the result. -/
def createAnonOutputsFrom (keys : Nat → Option (List UInt8 × List UInt8)) :
    Nat → List Int64 → List (CScript × Int64) → Bool × List (CScript × Int64)
  | _, [], vecSend => (true, vecSend)
  | i, nAmount :: vOutAmounts, vecSend =>
      match keys i with
      | none => (false, vecSend)
      | some (cpkTo, pkEphem) =>
          let scriptSendTo : CScript := [OP_RETURN, OP_ANON_MARKER] ++ CScript.push cpkTo ++ CScript.push pkEphem
          createAnonOutputsFrom keys (i + 1) vOutAmounts (vecSend ++ [(scriptSendTo, nAmount)])

def createAnonOutputs (keys : Nat → Option (List UInt8 × List UInt8)) (nValue : Int64)
    (vecSend : List (CScript × Int64)) : Bool × List (CScript × Int64) :=
  match splitAmount nValue with
  | none => (false, vecSend)
  | some (vOutAmounts, _) => createAnonOutputsFrom keys 0 vOutAmounts vecSend

namespace AnonPickArgs

/-- `nAmountCheck`. -/
def nAmountCheck (args : AnonPickArgs) : Int64 :=
  args.lAvailableCoins.foldl (fun nAmountCheck it => nAmountCheck + it.nValue) 0

def nByteSizePerInCoin (nRingSize : Nat) : RingSigType → Nat
  | .RING_SIG_1 =>
      (36 + 4) + CTransaction.getSizeOfCompactSize (2 + (33 + 32 + 32) * nRingSize) + 2 + (33 + 32 + 32) * nRingSize
  | .RING_SIG_2 =>
      (36 + 4) + CTransaction.getSizeOfCompactSize (2 + 32 + (33 + 32) * nRingSize) + 2 + 32 + (33 + 32) * nRingSize

/-- `nTotalBytes` for `nInputs` coins and `nChangeOuts` outputs of change. -/
def nTotalBytes (args : AnonPickArgs) (rsType : RingSigType) (nChangeOuts nInputs : Nat) : UInt32 :=
  UInt32.ofNat ((4 + 4 + 4) + CTransaction.getSizeOfCompactSize (args.nOutputs + nChangeOuts) + args.nSizeOutputs +
    (CTransaction.getSizeOfCompactSize MIN_ANON_OUT_SIZE + MIN_ANON_OUT_SIZE + 8) * nChangeOuts +
    CTransaction.getSizeOfCompactSize nInputs + nByteSizePerInCoin args.nRingSize rsType * nInputs)

/-- `wtxNew.GetMinFee(0, GMF_ANON, nTotalBytes)`. -/
def anonFee (env : AnonPickEnv) (args : AnonPickArgs) (rsType : RingSigType) (nChangeOuts nInputs : Nat) : Int64 :=
  args.wtxNew.getMinFeeAt env.nBestHeight 0 .GMF_ANON (args.nTotalBytes rsType nChangeOuts nInputs)

/-- What is done with a combination of `i + 1` coins. -/
def takeCombination (env : AnonPickEnv) (args : AnonPickArgs) (rsType : RingSigType) (i : Nat)
    (vecInputIndex : List Nat) (pick : AnonPick) : PickResult :=
  match totalFrom args.lAvailableCoins 0 vecInputIndex with
  | none => .outOfRange
  | some nTotalIn =>
      let nChange := nTotalIn - (args.nValue + pick.nFee)
      let pick := { pick with vPickedCoins := vecInputIndex }
      if !env.fChangeAddress then .returned 3 { pick with sError := "GetAnonChangeAddress() change failed." }
      else
        match createAnonOutputs (env.outputKeys i) nChange pick.vecChange with
        | (false, vecChange) =>
            .returned 3 { pick with vecChange := vecChange, sError := "CreateAnonOutputs() change failed." }
        | (true, vecChange) =>
            let nTestFee := args.anonFee env rsType vecChange.length (i + 1)
            if pick.nFee < nTestFee then
              .returned 2 { pick with vecChange := vecChange, nExpectChangeOuts := vecChange.length }
            else .returned 1 { pick with vecChange := vecChange, nFee := nTestFee }

/-- The rounds from `i` on, of which there are `rounds`. -/
def pickFrom (env : AnonPickEnv) (args : AnonPickArgs) (rsType : RingSigType) (fuel : Nat) :
    Nat → Nat → AnonPick → Option PickResult
  | 0, _, pick => some (.returned 0 pick)
  | rounds + 1, i, pick =>
      let nFee := args.anonFee env rsType pick.nExpectChangeOuts (i + 1)
      if args.nAmountCheck < args.nValue + nFee then
        some (.returned 3
          { pick with nFee := nFee, sError := "Not enough mature coins with requested ring size." })
      else
        let pick := { pick with nFee := nFee, vPickedCoins := [], vecChange := [] }
        match checkCombinations env.fDebugRingSig fuel (args.nValue + nFee) (i + 1) args.lAvailableCoins with
        | none => none
        | some .outOfRange => some .outOfRange
        | some .notFound => pickFrom env args rsType fuel rounds (i + 1) pick
        | some (.found vecInputIndex) => some (args.takeCombination env rsType i vecInputIndex pick)

/-- `none` when the fuel of a search is used up. -/
def pickAnonInputs (env : AnonPickEnv) (args : AnonPickArgs) (fuel : Nat) (pick : AnonPick) : Option PickResult :=
  match args.rsType with
  | none => some (.returned 0 { pick with sError := "Unknown ring signature type." })
  | some rsType => args.pickFrom env rsType fuel args.lAvailableCoins.length 0 pick

end AnonPickArgs

end ProCurrency
