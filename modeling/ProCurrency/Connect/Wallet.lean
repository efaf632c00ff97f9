import ProCurrency.Connect.Inputs

/-!
# Recording key images

`UpdateAnonTransaction`, `ProcessAnonTransaction` and `AddToWalletIfInvolvingMe` of `CWallet` (wallet.cpp), and
`SyncWithWallets` (main.cpp) for a transaction that is connected. The wallet's own handle on the store is a copy
that replaces the store on commit, and it reads the index without the batch of `SetBestChain`. What these
functions do to the wallet's database and to its statistics is left out.
-/

namespace ProCurrency

namespace ConnectEnv

variable {G : Type} (env : ConnectEnv G)

/-! ## A transaction that was processed before -/

/-- The loop of `UpdateAnonTransaction` over the inputs, from the input `i` on. -/
def updateInputsFrom (txnHash : UInt256) (i : Nat) (s : ConnectStore) : List CTxIn → Bool × ConnectStore
  | [] => (true, s)
  | txin :: vin =>
      if !txin.isAnonInput then updateInputsFrom txnHash (i + 1) s vin
      else
        match ringSigTypeOf txin.extractRingSize txin.scriptSig with
        | none => (false, s)
        | some type =>
            let pPubkeys := ringPubkeys txin.extractRingSize txin.scriptSig type
            match s.anonOutputs (env.pubKey (partOf pPubkeys EC_COMPRESSED_SIZE 0)) with
            | none => (false, s)
            | some ao =>
                let spentKeyImage : CKeyImageSpent := { txnHash, inputNo := i, nValue := ao.nValue }
                updateInputsFrom txnHash (i + 1) (s.writeKeyImage txin.extractKeyImage spentKeyImage) vin

/-- The loop of `UpdateAnonTransaction` over the outputs. -/
def updateOutputsFrom (nNewHeight : Int) (s : ConnectStore) : List CTxOut → Bool × ConnectStore
  | [] => (true, s)
  | txout :: vout =>
      if !txout.isAnonOutput then updateOutputsFrom nNewHeight s vout
      else
        match s.anonOutputs (env.pubKey txout.extractAnonPk) with
        | none => (false, s)
        | some ao =>
            updateOutputsFrom nNewHeight
              (s.writeAnonOutput (env.pubKey txout.extractAnonPk) { ao with nBlockHeight := nNewHeight }) vout

def updateAnonTransaction (s : ConnectStore) (tx : CTransaction) (blockHash : UInt256) : Bool × ConnectStore :=
  match env.updateInputsFrom (env.txHash tx) 0 s tx.vin with
  | (false, s) => (false, s)
  | (true, s) => env.updateOutputsFrom (env.getBlockHeightFromHash blockHash) s tx.vout

/-! ## A new transaction -/

/-- The loop of `ProcessAnonTransaction` over the outputs, from the output `i` on. -/
def processOutputsFrom (tx : CTransaction) (blockHash : UInt256) (i : Nat) (s : ConnectStore) :
    List CTxOut → Bool × ConnectStore
  | [] => (true, s)
  | txout :: vout =>
      if !txout.isAnonOutput then processOutputsFrom tx blockHash (i + 1) s vout
      else
        let pkCoin := env.pubKey txout.extractAnonPk
        match s.anonOutputs pkCoin with
        | some _ => if blockHash ≠ 0 then env.updateAnonTransaction s tx blockHash else (false, s)
        | none =>
            let ao : CAnonOutput :=
              { outpoint := { hash := env.txHash tx, n := UInt32.ofNat i }
                nValue := txout.nValue
                nBlockHeight := env.getBlockHeightFromHash blockHash
                nCompromised := 0 }
            processOutputsFrom tx blockHash (i + 1) (s.writeAnonOutput pkCoin ao) vout

variable [AddCommGroup G]

/-- `IsTokenCompromised`. -/
def isTokenCompromised (s : ConnectStore) (pkRingCoin : Bytes) (ao : CAnonOutput) (vchSpentImage : Bytes) :
    Bool × ConnectStore :=
  let pkImage := env.getOldKeyImage pkRingCoin
  if vchSpentImage = pkImage ∨ (s.getKeyImage pkImage).isSome then
    (true, s.writeAnonOutput pkRingCoin { ao with nCompromised := 1 })
  else (false, s)

/-- The loop over a ring, with the value of its coins; `none` when the input is refused. -/
def processRing (vchImage : Bytes) (nRingSize : Nat) (pPubkeys : Bytes) (nCoinValue : Int64)
    (s : ConnectStore) : List Nat → Option (Int64 × ConnectStore)
  | [] => some (nCoinValue, s)
  | ri :: ris =>
      let pkRingCoin := env.pubKey (partOf pPubkeys EC_COMPRESSED_SIZE ri)
      match s.anonOutputs pkRingCoin with
      | none => none
      | some ao =>
          match env.isTokenCompromised s pkRingCoin ao vchImage with
          | (fCompromised, s) =>
              if fCompromised && env.params.isProtocolVFork1 env.nBestHeight then none
              else if nCoinValue ≠ -1 ∧ nCoinValue ≠ ao.nValue then none
              else if ao.nBlockHeight = 0 ∨ env.nBestHeight - ao.nBlockHeight < MIN_ANON_SPEND_DEPTH then none
              else
                let s := if nRingSize = 1 then s.writeAnonOutput pkRingCoin { ao with nCompromised := 1 } else s
                processRing vchImage nRingSize pPubkeys ao.nValue s ris

/-- The loop of `ProcessAnonTransaction` over the inputs, from the input `i` on, and then its loop over the
outputs. -/
def processInputsFrom (wallet : Wallet) (tx : CTransaction) (blockHash : UInt256) (i : Nat) (s : ConnectStore) :
    List CTxIn → Bool × ConnectStore
  | [] => env.processOutputsFrom tx blockHash 0 s tx.vout
  | txin :: vin =>
      let txnHash := env.txHash tx
      let vchImage := txin.extractKeyImage
      let nRingSize := txin.extractRingSize
      let fVFork1 := env.params.isProtocolVFork1 env.nBestHeight
      if !txin.isAnonInput then processInputsFrom wallet tx blockHash (i + 1) s vin
      else if (s.getKeyImage vchImage).any fun spent => spent.txnHash = txnHash && spent.inputNo = i then
        env.updateAnonTransaction s tx blockHash
      else if (s.getKeyImage vchImage).any fun spent => env.txnHashInSystem s.diskTxIndex spent.txnHash then
        (false, s)
      else if !wallet.spendsOwned tx i then (false, s)
      else if nRingSize < (if fVFork1 then 1 else MIN_RING_SIZE) ∨
          (if fVFork1 then MAX_RING_SIZE else MAX_RING_SIZE_OLD) < nRingSize then (false, s)
      else
        match ringSigTypeOf nRingSize txin.scriptSig with
        | none => (false, s)
        | some type =>
            let pPubkeys := ringPubkeys nRingSize txin.scriptSig type
            match env.processRing vchImage nRingSize pPubkeys (-1) s (List.range nRingSize) with
            | none => (false, s)
            | some (nCoinValue, s) =>
                let spentKeyImage : CKeyImageSpent := { txnHash, inputNo := i, nValue := nCoinValue }
                if blockHash ≠ 0 then
                  processInputsFrom wallet tx blockHash (i + 1) (s.writeKeyImage vchImage spentKeyImage) vin
                else processInputsFrom wallet tx blockHash (i + 1) (s.insertKeyImage vchImage spentKeyImage) vin

def processAnonTransaction (wallet : Wallet) (s : ConnectStore) (tx : CTransaction) (blockHash : UInt256) :
    Bool × ConnectStore :=
  if !env.fFull then (false, s) else env.processInputsFrom wallet tx blockHash 0 s tx.vin

/-! ## Wallets -/

/-- `AddToWalletIfInvolvingMe` with `fUpdate`. An aborted or failed transaction of the handle leaves the store as
it was, and the memory pool as it has become. -/
def addToWalletIfInvolvingMe (wallet : Wallet) (s : ConnectStore) (tx : CTransaction) (blockHash : UInt256) :
    ConnectStore :=
  if tx.isCoinBase || tx.isCoinStake then s
  else if tx.nVersion != ANON_TXN_VERSION then s
  else
    match env.processAnonTransaction wallet s tx blockHash with
    | (true, s') => if wallet.commits tx then s' else { s with mapKeyImage := s'.mapKeyImage }
    | (false, s') => { s with mapKeyImage := s'.mapKeyImage }

/-- The loop of `SyncWithWallets`, which ignores what the wallets answer. -/
def syncWallets (tx : CTransaction) (blockHash : UInt256) (s : ConnectStore) : List Wallet → ConnectStore
  | [] => s
  | wallet :: setpwalletRegistered =>
      syncWallets tx blockHash (env.addToWalletIfInvolvingMe wallet s tx blockHash) setpwalletRegistered

def syncWithWallets (s : ConnectStore) (tx : CTransaction) (blockHash : UInt256) : ConnectStore :=
  env.syncWallets tx blockHash s env.wallets

end ConnectEnv

end ProCurrency
