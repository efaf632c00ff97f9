import ProCurrency.Connect.Wallet

/-!
# What the wallets write for a transaction that is in no block

A ring coin that was not there, or that was written anew, has height 0 and cannot be spent; others keep their value and
their height. A key image is as it was, or it is recorded under the transaction. So what is turned down for its ring
coins before is turned down after.
-/

namespace ProCurrency

/-- From `s` to `s'`, for the transaction with the hash `txnHash`. -/
structure RecordsLoose (txnHash : UInt256) (s s' : ConnectStore) : Prop where
  txIndex : s'.txIndex = s.txIndex
  keyImages : ∀ vchImage, s'.keyImages vchImage = s.keyImages vchImage ∨
    ∃ ki, s'.keyImages vchImage = some ki ∧ ki.txnHash = txnHash
  mapKeyImage : ∀ vchImage, s'.mapKeyImage vchImage = s.mapKeyImage vchImage ∨
    ∃ ki, s'.mapKeyImage vchImage = some ki ∧ ki.txnHash = txnHash
  ringCoin : ∀ pkCoin ao', s'.anonOutputs pkCoin = some ao' → ao'.nBlockHeight = 0 ∨
    ∃ ao, s.anonOutputs pkCoin = some ao ∧ ao'.nValue = ao.nValue ∧ ao'.nBlockHeight = ao.nBlockHeight

namespace RecordsLoose

variable {txnHash : UInt256} {s s' s'' : ConnectStore}

theorem refl (txnHash : UInt256) (s : ConnectStore) : RecordsLoose txnHash s s where
  txIndex := rfl
  keyImages _ := Or.inl rfl
  mapKeyImage _ := Or.inl rfl
  ringCoin _ ao h := Or.inr ⟨ao, h, rfl, rfl⟩

theorem trans (h : RecordsLoose txnHash s s') (h' : RecordsLoose txnHash s' s'') : RecordsLoose txnHash s s'' where
  txIndex := h'.txIndex.trans h.txIndex
  keyImages vchImage := by
    rcases h'.keyImages vchImage with heq | hnew
    · rw [heq]
      exact h.keyImages vchImage
    · exact Or.inr hnew
  mapKeyImage vchImage := by
    rcases h'.mapKeyImage vchImage with heq | hnew
    · rw [heq]
      exact h.mapKeyImage vchImage
    · exact Or.inr hnew
  ringCoin pkCoin ao'' hao'' := by
    rcases h'.ringCoin pkCoin ao'' hao'' with hzero | ⟨ao', hao', hvalue', hheight'⟩
    · exact Or.inl hzero
    · rcases h.ringCoin pkCoin ao' hao' with hzero | ⟨ao, hao, hvalue, hheight⟩
      · exact Or.inl (hheight'.trans hzero)
      · exact Or.inr ⟨ao, hao, hvalue'.trans hvalue, hheight'.trans hheight⟩

/-! ## Single writes -/

theorem writeKeyImage {ki : CKeyImageSpent} (s : ConnectStore) (vchImage : Bytes) (hhash : ki.txnHash = txnHash) :
    RecordsLoose txnHash s (s.writeKeyImage vchImage ki) where
  txIndex := rfl
  keyImages k := by
    rcases Decidable.em (k = vchImage) with rfl | hne
    · exact Or.inr ⟨ki, if_pos rfl, hhash⟩
    · exact Or.inl (if_neg hne)
  mapKeyImage _ := Or.inl rfl
  ringCoin _ ao h := Or.inr ⟨ao, h, rfl, rfl⟩

theorem insertKeyImage {ki : CKeyImageSpent} (s : ConnectStore) (vchImage : Bytes) (hhash : ki.txnHash = txnHash) :
    RecordsLoose txnHash s (s.insertKeyImage vchImage ki) where
  txIndex := rfl
  keyImages _ := Or.inl rfl
  mapKeyImage k := by
    rcases Decidable.em (k = vchImage) with rfl | hne
    · exact Or.inr ⟨ki, if_pos rfl, hhash⟩
    · exact Or.inl (if_neg hne)
  ringCoin _ ao h := Or.inr ⟨ao, h, rfl, rfl⟩

theorem writeAnonOutput {pkCoin : Bytes} {ao' : CAnonOutput} (txnHash : UInt256)
    (h : ao'.nBlockHeight = 0 ∨ ∃ ao, s.anonOutputs pkCoin = some ao ∧ ao'.nValue = ao.nValue ∧
      ao'.nBlockHeight = ao.nBlockHeight) : RecordsLoose txnHash s (s.writeAnonOutput pkCoin ao') where
  txIndex := rfl
  keyImages _ := Or.inl rfl
  mapKeyImage _ := Or.inl rfl
  ringCoin k ao₁ hao₁ := by
    rcases Decidable.em (k = pkCoin) with rfl | hne
    · cases Option.some.inj ((if_pos rfl).symm.trans hao₁)
      exact h
    · exact Or.inr ⟨ao₁, (if_neg hne).symm.trans hao₁, rfl, rfl⟩

/-- The handle on the store is aborted. -/
theorem abort (h : RecordsLoose txnHash s s') : RecordsLoose txnHash s { s with mapKeyImage := s'.mapKeyImage } where
  txIndex := rfl
  keyImages _ := Or.inl rfl
  mapKeyImage := h.mapKeyImage
  ringCoin _ ao hao := Or.inr ⟨ao, hao, rfl, rfl⟩

/-- `GetKeyImage` finds what it found, or the transaction. -/
theorem getKeyImage (h : RecordsLoose txnHash s s') (vchImage : Bytes) :
    s'.getKeyImage vchImage = s.getKeyImage vchImage ∨
      ∃ ki, s'.getKeyImage vchImage = some ki ∧ ki.txnHash = txnHash := by
  rw [ConnectStore.getKeyImage, ConnectStore.getKeyImage]
  rcases h.keyImages vchImage with heq | ⟨ki, hki, hhash⟩
  · rw [heq]
    cases s.keyImages vchImage with
    | some ki => exact Or.inl rfl
    | none => exact h.mapKeyImage vchImage
  · rw [hki]
    exact Or.inr ⟨ki, rfl, hhash⟩

end RecordsLoose

/-! ## What the wallets do -/

namespace ConnectEnv

variable {G : Type} {env : ConnectEnv G} {tx : CTransaction} {s s' : ConnectStore} {fOk : Bool} {txnHash : UInt256}

theorem getBlockHeightFromHash_zero : env.getBlockHeightFromHash 0 = 0 := if_pos rfl

theorem updateInputsFrom_loose {i : Nat} {vin : List CTxIn}
    (h : env.updateInputsFrom txnHash i s vin = (fOk, s')) : RecordsLoose txnHash s s' := by
  induction vin generalizing i s with
  | nil =>
      cases h
      exact .refl _ _
  | cons txin vin ih =>
      rw [updateInputsFrom] at h
      cases hanon : txin.isAnonInput with
      | false =>
          rw [hanon, Bool.not_false, if_pos rfl] at h
          exact ih h
      | true =>
          rw [hanon, Bool.not_true, if_neg Bool.false_ne_true] at h
          cases htype : ringSigTypeOf txin.extractRingSize txin.scriptSig with
          | none =>
              simp only [htype] at h
              cases h
              exact .refl _ _
          | some type =>
              simp only [htype] at h
              cases hao : s.anonOutputs (env.pubKey (partOf (ringPubkeys txin.extractRingSize txin.scriptSig type)
                  EC_COMPRESSED_SIZE 0)) with
              | none =>
                  simp only [hao] at h
                  cases h
                  exact .refl _ _
              | some ao =>
                  simp only [hao] at h
                  refine RecordsLoose.trans (.writeKeyImage s _ ?_) (ih h)
                  rfl

theorem updateOutputsFrom_loose {vout : List CTxOut} (txnHash : UInt256)
    (h : env.updateOutputsFrom 0 s vout = (fOk, s')) : RecordsLoose txnHash s s' := by
  induction vout generalizing s with
  | nil =>
      cases h
      exact .refl _ _
  | cons txout vout ih =>
      rw [updateOutputsFrom] at h
      cases hanon : txout.isAnonOutput with
      | false =>
          rw [hanon, Bool.not_false, if_pos rfl] at h
          exact ih h
      | true =>
          rw [hanon, Bool.not_true, if_neg Bool.false_ne_true] at h
          cases hao : s.anonOutputs (env.pubKey txout.extractAnonPk) with
          | none =>
              simp only [hao] at h
              cases h
              exact .refl _ _
          | some ao =>
              simp only [hao] at h
              exact (RecordsLoose.writeAnonOutput txnHash (Or.inl rfl)).trans (ih h)

theorem updateAnonTransaction_loose (h : env.updateAnonTransaction s tx 0 = (fOk, s')) :
    RecordsLoose (env.txHash tx) s s' := by
  rw [updateAnonTransaction] at h
  rcases hin : env.updateInputsFrom (env.txHash tx) 0 s tx.vin with ⟨_ | _, s₁⟩
  · rw [hin] at h
    cases h
    exact updateInputsFrom_loose hin
  · rw [hin, getBlockHeightFromHash_zero] at h
    exact (updateInputsFrom_loose hin).trans (updateOutputsFrom_loose (env.txHash tx) h)

theorem processOutputsFrom_loose {i : Nat} {vout : List CTxOut}
    (h : env.processOutputsFrom tx 0 i s vout = (fOk, s')) : RecordsLoose (env.txHash tx) s s' := by
  induction vout generalizing i s with
  | nil =>
      cases h
      exact .refl _ _
  | cons txout vout ih =>
      rw [processOutputsFrom] at h
      cases hanon : txout.isAnonOutput with
      | false =>
          rw [hanon, Bool.not_false, if_pos rfl] at h
          exact ih h
      | true =>
          rw [hanon, Bool.not_true, if_neg Bool.false_ne_true] at h
          cases hao : s.anonOutputs (env.pubKey txout.extractAnonPk) with
          | none =>
              simp only [hao] at h
              refine (RecordsLoose.writeAnonOutput (env.txHash tx) (Or.inl ?_)).trans (ih h)
              exact @getBlockHeightFromHash_zero G env
          | some ao =>
              simp only [hao] at h
              rw [if_neg (not_not_intro rfl)] at h
              cases h
              exact .refl _ _

variable [AddCommGroup G]

theorem isTokenCompromised_loose {pkRingCoin vchImage : Bytes} {ao : CAnonOutput} {fCompromised : Bool}
    (txnHash : UInt256) (hao : s.anonOutputs pkRingCoin = some ao)
    (h : env.isTokenCompromised s pkRingCoin ao vchImage = (fCompromised, s')) :
    RecordsLoose txnHash s s' ∧ ∃ ao', s'.anonOutputs pkRingCoin = some ao' ∧ ao'.nValue = ao.nValue ∧
      ao'.nBlockHeight = ao.nBlockHeight := by
  simp only [isTokenCompromised] at h
  split at h
  · cases h
    exact ⟨.writeAnonOutput txnHash (Or.inr ⟨ao, hao, rfl, rfl⟩), _, if_pos rfl, rfl, rfl⟩
  · cases h
    exact ⟨.refl txnHash s, ao, hao, rfl, rfl⟩

theorem processRing_loose {vchImage pPubkeys : Bytes} {nRingSize : Nat} {nCoinValue r : Int64} {ris : List Nat}
    (txnHash : UInt256) (h : env.processRing vchImage nRingSize pPubkeys nCoinValue s ris = some (r, s')) :
    RecordsLoose txnHash s s' := by
  induction ris generalizing s nCoinValue with
  | nil =>
      cases h
      exact .refl _ _
  | cons ri ris ih =>
      rw [processRing] at h
      cases hao : s.anonOutputs (env.pubKey (partOf pPubkeys EC_COMPRESSED_SIZE ri)) with
      | none => simp [hao] at h
      | some ao =>
          simp only [hao] at h
          rcases hcomp : env.isTokenCompromised s (env.pubKey (partOf pPubkeys EC_COMPRESSED_SIZE ri)) ao vchImage
            with ⟨fCompromised, s₁⟩
          simp only [hcomp] at h
          obtain ⟨hwrites, ao', hao', hvalue, hheight⟩ := isTokenCompromised_loose txnHash hao hcomp
          split_ifs at h with _ _ _ hone
          · refine hwrites.trans (.trans (.writeAnonOutput txnHash (Or.inr ?_)) (ih h))
            exact ⟨ao', hao', hvalue.symm, hheight.symm⟩
          · exact hwrites.trans (ih h)

theorem processInputsFrom_loose {wallet : Wallet} {i : Nat} {vin : List CTxIn}
    (h : env.processInputsFrom wallet tx 0 i s vin = (fOk, s')) : RecordsLoose (env.txHash tx) s s' := by
  induction vin generalizing i s with
  | nil => exact processOutputsFrom_loose h
  | cons txin vin ih =>
      rw [processInputsFrom] at h
      cases hanon : txin.isAnonInput with
      | false =>
          simp only [hanon, Bool.not_false, if_true] at h
          exact ih h
      | true =>
          simp only [hanon, Bool.not_true, Bool.false_eq_true, if_false] at h
          have hrefused : (false, s) = (fOk, s') → RecordsLoose (env.txHash tx) s s' := by
            intro heq
            cases heq
            exact .refl _ _
          generalize (if env.params.isProtocolVFork1 env.nBestHeight = true then 1 else MIN_RING_SIZE) = nMin at h
          generalize (if env.params.isProtocolVFork1 env.nBestHeight = true then MAX_RING_SIZE
            else MAX_RING_SIZE_OLD) = nMax at h
          split at h
          · exact updateAnonTransaction_loose h
          split at h
          · exact hrefused h
          split at h
          · exact hrefused h
          split at h
          · exact hrefused h
          cases htype : ringSigTypeOf txin.extractRingSize txin.scriptSig with
          | none =>
              rw [htype] at h
              exact hrefused h
          | some type =>
              simp only [htype] at h
              cases hring : env.processRing txin.extractKeyImage txin.extractRingSize
                  (ringPubkeys txin.extractRingSize txin.scriptSig type) (-1) s (List.range txin.extractRingSize) with
              | none =>
                  rw [hring] at h
                  exact hrefused h
              | some r =>
                  obtain ⟨nCoinValue, s₁⟩ := r
                  simp only [hring] at h
                  rw [if_neg (not_not_intro rfl)] at h
                  refine (processRing_loose (env.txHash tx) hring).trans (.trans (.insertKeyImage s₁ _ ?_) (ih h))
                  rfl

theorem syncWithWallets_loose (env : ConnectEnv G) (s : ConnectStore) (tx : CTransaction) :
    RecordsLoose (env.txHash tx) s (env.syncWithWallets s tx 0) := by
  rw [syncWithWallets]
  induction env.wallets generalizing s with
  | nil => exact .refl _ _
  | cons wallet wallets ih =>
      rw [syncWallets]
      refine RecordsLoose.trans ?_ (ih _)
      rw [addToWalletIfInvolvingMe]
      split
      · exact .refl _ _
      split
      · exact .refl _ _
      rcases hproc : env.processAnonTransaction wallet s tx 0 with ⟨fOk, s'⟩
      have hloose : RecordsLoose (env.txHash tx) s s' := by
        rw [processAnonTransaction] at hproc
        split at hproc
        · cases hproc
          exact .refl _ _
        · exact processInputsFrom_loose hproc
      cases fOk with
      | false => exact hloose.abort
      | true =>
          cases hcommit : wallet.commits tx with
          | false => exact hloose.abort
          | true => exact hloose

/-! ## What is still spendable -/

section Spendable

variable {m m' : UInt256 → Option CTransaction} {hash preimage : UInt256}

omit [AddCommGroup G] in
/-- A key image that is spendable after was spendable before, when the transaction is in the memory pool. -/
theorem keyImageSpendable_of_loose (hrec : RecordsLoose txnHash s s') (hknown : (m' txnHash).isSome = true)
    (hkept : ∀ hash, (m hash).isSome = true → (m' hash).isSome = true) (hne : hash ≠ txnHash) {vchImage : Bytes}
    (h : { env with mempoolTx := m' }.keyImageSpendable s' true hash vchImage = true) :
    { env with mempoolTx := m }.keyImageSpendable s true hash vchImage = true := by
  rw [keyImageSpendable] at h ⊢
  rcases hrec.getKeyImage vchImage with heq | ⟨ki, hki, rfl⟩
  · rw [heq] at h
    cases hki : s.getKeyImage vchImage with
    | none => rfl
    | some ki =>
        simp only [hki, Bool.or_eq_true, Bool.true_and, Bool.not_eq_true', decide_eq_true_eq] at h ⊢
        refine h.imp_right fun hout => ?_
        rw [txnHashInSystem, hrec.txIndex] at hout
        rw [txnHashInSystem]
        cases hin : (m ki.txnHash).isSome with
        | true =>
            rw [if_pos (hkept _ hin)] at hout
            cases hout
        | false =>
            rw [if_neg Bool.false_ne_true]
            split at hout
            · cases hout
            · exact hout
  · simp only [hki, Bool.or_eq_true, Bool.true_and, Bool.not_eq_true', decide_eq_true_eq] at h
    rcases h with heq | hout
    · exact absurd heq.symm hne
    · rw [txnHashInSystem, if_pos hknown] at hout
      cases hout

omit [AddCommGroup G] in
theorem ringCoinValue_of_loose (hrec : RecordsLoose txnHash s s') {pPubkeys : Bytes} {n v : Int64} {ris : List Nat}
    (h : { env with mempoolTx := m' }.ringCoinValue s' pPubkeys n ris = some v) :
    { env with mempoolTx := m }.ringCoinValue s pPubkeys n ris = some v := by
  induction ris generalizing n with
  | nil => exact h
  | cons ri ris ih =>
      rw [ringCoinValue] at h ⊢
      cases hao' : s'.anonOutputs (({ env with mempoolTx := m' } : ConnectEnv G).pubKey
          (partOf pPubkeys EC_COMPRESSED_SIZE ri)) with
      | none => simp [hao'] at h
      | some ao' =>
          simp only [hao'] at h
          split at h
          · cases h
          rename_i hvalue
          split at h
          · cases h
          rename_i hdepth
          rcases hrec.ringCoin _ ao' hao' with hzero | ⟨ao, hao, hv, hh⟩
          · exact absurd (Or.inl hzero) hdepth
          · have hao₁ : s.anonOutputs (({ env with mempoolTx := m } : ConnectEnv G).pubKey
                (partOf pPubkeys EC_COMPRESSED_SIZE ri)) = some ao := hao
            rw [hv] at hvalue h
            rw [hh] at hdepth
            simp only [hao₁]
            rw [if_neg hvalue, if_neg hdepth]
            exact ih h

theorem checkAnonInput_of_loose (hrec : RecordsLoose txnHash s s') (hknown : (m' txnHash).isSome = true)
    (hkept : ∀ hash, (m hash).isSome = true → (m' hash).isSome = true) (hne : hash ≠ txnHash) {txin : CTxIn}
    {v : Int64} (h : { env with mempoolTx := m' }.checkAnonInput s' true preimage hash txin = some v) :
    { env with mempoolTx := m }.checkAnonInput s true preimage hash txin = some v := by
  simp only [checkAnonInput] at h ⊢
  generalize (if env.params.isProtocolVFork1 env.pindexBest.nHeight = true then MAX_RING_SIZE
    else MAX_RING_SIZE_OLD) = nMax at h ⊢
  split at h
  · cases h
  rename_i hspend
  rw [Bool.not_eq_true', Bool.not_eq_false] at hspend
  rw [keyImageSpendable_of_loose hrec hknown hkept hne hspend, Bool.not_true, if_neg Bool.false_ne_true]
  split at h
  · cases h
  rename_i hsize
  rw [if_neg hsize]
  cases htype : ringSigTypeOf txin.extractRingSize txin.scriptSig with
  | none => simp [htype] at h
  | some type =>
      simp only [htype] at h ⊢
      split at h
      · cases h
      · rename_i nCoinValue hring
        rw [ringCoinValue_of_loose hrec hring]
        exact h

theorem checkAnonInputs_of_loose (hrec : RecordsLoose (env.txHash tx) s s')
    (hknown : (m' (env.txHash tx)).isSome = true)
    (hkept : ∀ hash, (m hash).isSome = true → (m' hash).isSome = true) {other : CTransaction}
    (hne : env.txHash other ≠ env.txHash tx) {v : Int64}
    (h : { env with mempoolTx := m' }.checkAnonInputs s' true other = (true, v)) :
    { env with mempoolTx := m }.checkAnonInputs s true other = (true, v) := by
  have hfrom : ∀ {preimage : UInt256} {n : Int64} {vin : List CTxIn},
      { env with mempoolTx := m' }.checkAnonInputsFrom s' true preimage (env.txHash other) n vin = (true, v) →
        { env with mempoolTx := m }.checkAnonInputsFrom s true preimage (env.txHash other) n vin = (true, v) := by
    intro preimage n vin
    induction vin generalizing n with
    | nil => exact id
    | cons txin vin ih =>
        intro h
        rw [checkAnonInputsFrom] at h ⊢
        cases hanon : txin.isAnonInput with
        | false =>
            rw [hanon, Bool.not_false, if_pos rfl] at h
            exact ih h
        | true =>
            rw [hanon, Bool.not_true, if_neg Bool.false_ne_true] at h
            rw [Bool.not_true, if_neg Bool.false_ne_true]
            split at h
            · cases h
            · rename_i nCoinValue hcheck
              rw [checkAnonInput_of_loose hrec hknown hkept hne hcheck]
              exact ih h
  rw [checkAnonInputs] at h ⊢
  have hsame : ({ env with mempoolTx := m } : ConnectEnv G).getTxnPreImage other =
      ({ env with mempoolTx := m' } : ConnectEnv G).getTxnPreImage other := rfl
  rw [hsame]
  cases hpre : ({ env with mempoolTx := m' } : ConnectEnv G).getTxnPreImage other with
  | none =>
      rw [hpre] at h
      cases h
  | some preimage =>
      rw [hpre] at h
      exact hfrom h

end Spendable

end ConnectEnv

end ProCurrency
