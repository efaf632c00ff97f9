import Mathlib.Logic.Relation
import ProCurrency.Connect.Lemmas.Balance

/-!
# What the wallets write

Everything that the wallets do to the store for one transaction is a sequence of single writes: key images of that
transaction under its hash, outputs of that transaction, and ring coins whose value is kept. What the store keeps is
read off the single writes.
-/

namespace ProCurrency

open Relation

/-- The key images of the ring inputs of a list. -/
def anonImages (vin : List CTxIn) : List Bytes := (vin.filter CTxIn.isAnonInput).map CTxIn.extractKeyImage

theorem anonImages_cons_of_pos {txin : CTxIn} (h : txin.isAnonInput = true) (vin : List CTxIn) :
    anonImages (txin :: vin) = txin.extractKeyImage :: anonImages vin := by
  rw [anonImages, List.filter_cons_of_pos h, List.map_cons, anonImages]

theorem anonImages_cons_of_neg {txin : CTxIn} (h : ¬txin.isAnonInput = true) (vin : List CTxIn) :
    anonImages (txin :: vin) = anonImages vin := by
  rw [anonImages, List.filter_cons_of_neg h, anonImages]

/-- One write of the wallets for the transaction `tx`, whose hash is `txnHash`. -/
inductive AnonWrite (tx : CTransaction) (txnHash : UInt256) : ConnectStore → ConnectStore → Prop where
  | keyImage {s vchImage ki} : vchImage ∈ anonImages tx.vin → ki.txnHash = txnHash →
      AnonWrite tx txnHash s (s.writeKeyImage vchImage ki)
  | mapKeyImage {s m} : AnonWrite tx txnHash s { s with mapKeyImage := m }
  | ringCoin {s pkCoin ao ao'} : s.anonOutputs pkCoin = some ao → ao'.nValue = ao.nValue →
      AnonWrite tx txnHash s (s.writeAnonOutput pkCoin ao')
  | output {s pkCoin ao txout} : txout ∈ tx.vout → ao.nValue = txout.nValue →
      AnonWrite tx txnHash s (s.writeAnonOutput pkCoin ao)

abbrev AnonWrites (tx : CTransaction) (txnHash : UInt256) : ConnectStore → ConnectStore → Prop :=
  ReflTransGen (AnonWrite tx txnHash)

/-! ## What the writes keep -/

section Writes

variable {tx : CTransaction} {txnHash : UInt256} {s s' : ConnectStore}

theorem AnonWrites.txIndex (h : AnonWrites tx txnHash s s') :
    s'.txIndex = s.txIndex ∧ s'.diskTxIndex = s.diskTxIndex := by
  induction h with
  | refl => exact ⟨rfl, rfl⟩
  | tail _ hstep ih => cases hstep <;> exact ih

/-- A key image is as it was, or it is one of the transaction and is recorded under its hash. -/
theorem AnonWrites.keyImages (h : AnonWrites tx txnHash s s') (vchImage : Bytes) :
    s'.keyImages vchImage = s.keyImages vchImage ∨
      vchImage ∈ anonImages tx.vin ∧ ∃ ki, s'.keyImages vchImage = some ki ∧ ki.txnHash = txnHash := by
  induction h with
  | refl => exact Or.inl rfl
  | tail _ hstep ih =>
      cases hstep with
      | @keyImage vchImage' ki hmem hhash =>
          rcases Decidable.em (vchImage = vchImage') with rfl | hne
          · exact Or.inr ⟨hmem, ki, ConnectStore.keyImages_writeKeyImage_self _ vchImage ki, hhash⟩
          · rw [ConnectStore.keyImages_writeKeyImage_of_ne hne]
            exact ih
      | mapKeyImage => exact ih
      | ringCoin => exact ih
      | output => exact ih

/-- Key images that are recorded under the hash. -/
def RecordedAs (txnHash : UInt256) (images : List Bytes) (s : ConnectStore) : Prop :=
  ∀ vchImage ∈ images, ∃ ki, s.keyImages vchImage = some ki ∧ ki.txnHash = txnHash

theorem RecordedAs.anonWrites {images : List Bytes} (hrec : RecordedAs txnHash images s)
    (h : AnonWrites tx txnHash s s') : RecordedAs txnHash images s' := by
  intro vchImage hmem
  rcases h.keyImages vchImage with heq | ⟨_, hnew⟩
  · rw [heq]
    exact hrec vchImage hmem
  · exact hnew

/-- An image that is written first, and images that are recorded later. -/
theorem RecordedAs.cons {images : List Bytes} {vchImage : Bytes} {ki : CKeyImageSpent}
    (hhash : ki.txnHash = txnHash) (h : AnonWrites tx txnHash (s.writeKeyImage vchImage ki) s')
    (hrec : RecordedAs txnHash images s') : RecordedAs txnHash (vchImage :: images) s' := by
  have hfirst : RecordedAs txnHash [vchImage] (s.writeKeyImage vchImage ki) := by
    intro k hk
    rw [List.mem_singleton.1 hk, s.keyImages_writeKeyImage_self]
    exact ⟨ki, rfl, hhash⟩
  intro k hk
  rcases List.mem_cons.1 hk with rfl | hk
  · exact hfirst.anonWrites h k List.mem_cons_self
  · exact hrec k hk

end Writes

/-! ## What the functions write -/

namespace ConnectEnv

variable {G : Type} {env : ConnectEnv G} {tx : CTransaction} {s s' : ConnectStore} {fOk : Bool}

theorem updateInputsFrom_spec {i : Nat} {vin : List CTxIn} (hsub : anonImages vin ⊆ anonImages tx.vin)
    (h : env.updateInputsFrom (env.txHash tx) i s vin = (fOk, s')) :
    AnonWrites tx (env.txHash tx) s s' ∧ (fOk = true → RecordedAs (env.txHash tx) (anonImages vin) s') := by
  induction vin generalizing i s with
  | nil =>
      cases h
      exact ⟨.refl, fun _ k hk => by cases hk⟩
  | cons txin vin ih =>
      rw [updateInputsFrom] at h
      rcases Decidable.em (txin.isAnonInput = true) with hanon | hanon
      · rw [anonImages_cons_of_pos hanon] at hsub ⊢
        rw [if_neg (by simp [hanon])] at h
        cases htype : ringSigTypeOf txin.extractRingSize txin.scriptSig with
        | none =>
            rw [htype] at h
            cases h
            exact ⟨.refl, fun hok => by cases hok⟩
        | some type =>
            simp only [htype] at h
            cases hao : s.anonOutputs (env.pubKey (partOf (ringPubkeys txin.extractRingSize txin.scriptSig type)
                EC_COMPRESSED_SIZE 0)) with
            | none =>
                rw [hao] at h
                cases h
                exact ⟨.refl, fun hok => by cases hok⟩
            | some ao =>
                simp only [hao] at h
                obtain ⟨hwrites, hrec⟩ := ih (fun k hk => hsub (List.mem_cons_of_mem _ hk)) h
                exact ⟨.head (.keyImage (hsub List.mem_cons_self) rfl) hwrites,
                  fun hok => (hrec hok).cons rfl hwrites⟩
      · rw [anonImages_cons_of_neg hanon] at hsub ⊢
        rw [if_pos (by simp [hanon])] at h
        exact ih hsub h

theorem updateOutputsFrom_spec {nNewHeight : Int} {vout : List CTxOut}
    (h : env.updateOutputsFrom nNewHeight s vout = (fOk, s')) : AnonWrites tx (env.txHash tx) s s' := by
  induction vout generalizing s with
  | nil =>
      cases h
      exact .refl
  | cons txout vout ih =>
      rw [updateOutputsFrom] at h
      rcases hanon : txout.isAnonOutput with _ | _
      · simp only [hanon, Bool.not_false, if_true] at h
        exact ih h
      · simp only [hanon, Bool.not_true, Bool.false_eq_true, if_false] at h
        cases hao : s.anonOutputs (env.pubKey txout.extractAnonPk) with
        | none =>
            rw [hao] at h
            cases h
            exact .refl
        | some ao =>
            simp only [hao] at h
            refine .head ?_ (ih h)
            exact .ringCoin hao rfl

theorem updateAnonTransaction_spec {blockHash : UInt256}
    (h : env.updateAnonTransaction s tx blockHash = (fOk, s')) :
    AnonWrites tx (env.txHash tx) s s' ∧ (fOk = true → RecordedAs (env.txHash tx) (anonImages tx.vin) s') := by
  rw [updateAnonTransaction] at h
  rcases hin : env.updateInputsFrom (env.txHash tx) 0 s tx.vin with ⟨_ | _, s₁⟩
  · rw [hin] at h
    cases h
    exact ⟨(updateInputsFrom_spec (List.Subset.refl _) hin).1, fun hok => by cases hok⟩
  · rw [hin] at h
    obtain ⟨hwrites, hrec⟩ := updateInputsFrom_spec (List.Subset.refl _) hin
    have hout : AnonWrites tx (env.txHash tx) s₁ s' := updateOutputsFrom_spec h
    exact ⟨hwrites.trans hout, fun _ => (hrec rfl).anonWrites hout⟩

theorem processOutputsFrom_spec {blockHash : UInt256} {i : Nat} {vout : List CTxOut} (hsub : vout ⊆ tx.vout)
    (h : env.processOutputsFrom tx blockHash i s vout = (fOk, s')) : AnonWrites tx (env.txHash tx) s s' := by
  induction vout generalizing i s with
  | nil =>
      cases h
      exact .refl
  | cons txout vout ih =>
      have hrest : vout ⊆ tx.vout := fun _ hmem => hsub (List.mem_cons_of_mem _ hmem)
      rw [processOutputsFrom] at h
      rcases hanon : txout.isAnonOutput with _ | _
      · simp only [hanon, Bool.not_false, if_true] at h
        exact ih hrest h
      · simp only [hanon, Bool.not_true, Bool.false_eq_true, if_false] at h
        cases hao : s.anonOutputs (env.pubKey txout.extractAnonPk) with
        | none =>
            simp only [hao] at h
            exact .head (.output (hsub List.mem_cons_self) rfl) (ih hrest h)
        | some ao =>
            simp only [hao] at h
            rcases Decidable.em (blockHash ≠ 0) with hblock | hblock
            · rw [if_pos hblock] at h
              exact (updateAnonTransaction_spec h).1
            · rw [if_neg hblock] at h
              cases h
              exact .refl

variable [AddCommGroup G]

theorem isTokenCompromised_spec (tx : CTransaction) {pkRingCoin vchImage : Bytes} {ao : CAnonOutput} {fCompromised : Bool}
    (hao : s.anonOutputs pkRingCoin = some ao)
    (h : env.isTokenCompromised s pkRingCoin ao vchImage = (fCompromised, s')) :
    AnonWrites tx (env.txHash tx) s s' ∧ ∃ ao', s'.anonOutputs pkRingCoin = some ao' ∧ ao'.nValue = ao.nValue := by
  simp only [isTokenCompromised] at h
  split_ifs at h
  · cases h
    exact ⟨.single (.ringCoin hao rfl), _, if_pos rfl, rfl⟩
  · cases h
    exact ⟨.refl, ao, hao, rfl⟩

theorem processRing_spec {vchImage pPubkeys : Bytes} {nRingSize : Nat} {nCoinValue r : Int64} {ris : List Nat}
    (h : env.processRing vchImage nRingSize pPubkeys nCoinValue s ris = some (r, s')) :
    AnonWrites tx (env.txHash tx) s s' := by
  induction ris generalizing s nCoinValue with
  | nil =>
      cases h
      exact .refl
  | cons ri ris ih =>
      rw [processRing] at h
      cases hao : s.anonOutputs (env.pubKey (partOf pPubkeys EC_COMPRESSED_SIZE ri)) with
      | none => simp [hao] at h
      | some ao =>
          simp only [hao] at h
          rcases hcomp : env.isTokenCompromised s (env.pubKey (partOf pPubkeys EC_COMPRESSED_SIZE ri)) ao vchImage
            with ⟨fCompromised, s₁⟩
          simp only [hcomp] at h
          obtain ⟨hwrites, ao', hao', hvalue⟩ :=
            isTokenCompromised_spec tx hao hcomp
          split_ifs at h with _ _ _ hone
          · refine hwrites.trans (.head ?_ (ih h))
            exact .ringCoin hao' hvalue.symm
          · exact hwrites.trans (ih h)

/-- What `ProcessAnonTransaction` does from one input on. -/
theorem processInputsFrom_spec {wallet : Wallet} {blockHash : UInt256} {i : Nat} {vin : List CTxIn}
    (hsub : anonImages vin ⊆ anonImages tx.vin)
    (h : env.processInputsFrom wallet tx blockHash i s vin = (fOk, s')) :
    AnonWrites tx (env.txHash tx) s s' ∧
      (fOk = true → blockHash ≠ 0 → RecordedAs (env.txHash tx) (anonImages vin) s') := by
  induction vin generalizing i s with
  | nil => exact ⟨processOutputsFrom_spec (List.Subset.refl _) h, fun _ _ k hk => by cases hk⟩
  | cons txin vin ih =>
      rw [processInputsFrom] at h
      rcases hanon : txin.isAnonInput with _ | _
      · rw [anonImages_cons_of_neg (by rw [hanon]; exact Bool.false_ne_true)] at hsub ⊢
        simp only [hanon, Bool.not_false, if_true] at h
        exact ih hsub h
      · rw [anonImages_cons_of_pos hanon] at hsub ⊢
        simp only [hanon, Bool.not_true, Bool.false_eq_true, if_false] at h
        have hrefused : (false, s) = (fOk, s') → AnonWrites tx (env.txHash tx) s s' ∧
            (fOk = true → blockHash ≠ 0 →
              RecordedAs (env.txHash tx) (txin.extractKeyImage :: anonImages vin) s') := by
          intro heq
          cases heq
          exact ⟨.refl, fun hok => by cases hok⟩
        generalize (if env.params.isProtocolVFork1 env.nBestHeight = true then 1 else MIN_RING_SIZE) = nMin at h
        generalize (if env.params.isProtocolVFork1 env.nBestHeight = true then MAX_RING_SIZE
          else MAX_RING_SIZE_OLD) = nMax at h
        split at h
        · obtain ⟨hwrites, hrec⟩ := updateAnonTransaction_spec h
          exact ⟨hwrites, fun hok _ k hk => hrec hok k (hsub hk)⟩
        split at h
        · exact hrefused h
        split at h
        · exact hrefused h
        split at h
        · exact hrefused h
        cases htype : ringSigTypeOf txin.extractRingSize txin.scriptSig with
        | none =>
            rw [htype] at h
            exact hrefused h
        | some type =>
            simp only [htype] at h
            cases hring : env.processRing txin.extractKeyImage txin.extractRingSize
                (ringPubkeys txin.extractRingSize txin.scriptSig type) (-1) s (List.range txin.extractRingSize) with
            | none =>
                rw [hring] at h
                exact hrefused h
            | some r =>
                obtain ⟨nCoinValue, s₁⟩ := r
                have hwrites₁ : AnonWrites tx (env.txHash tx) s s₁ := processRing_spec hring
                have hrest : anonImages vin ⊆ anonImages tx.vin := fun k hk => hsub (List.mem_cons_of_mem _ hk)
                simp only [hring] at h
                rcases Decidable.em (blockHash ≠ 0) with hblock | hblock
                · rw [if_pos hblock] at h
                  obtain ⟨hwrites, hrec⟩ := ih hrest h
                  exact ⟨hwrites₁.trans (.head (.keyImage (hsub List.mem_cons_self) rfl) hwrites),
                    fun hok hne => (hrec hok hne).cons rfl hwrites⟩
                · rw [if_neg hblock] at h
                  obtain ⟨hwrites, _⟩ := ih hrest h
                  exact ⟨hwrites₁.trans (.head .mapKeyImage hwrites), fun _ hne => absurd hne hblock⟩

theorem processAnonTransaction_spec {wallet : Wallet} {blockHash : UInt256}
    (h : env.processAnonTransaction wallet s tx blockHash = (fOk, s')) :
    AnonWrites tx (env.txHash tx) s s' ∧
      (fOk = true → blockHash ≠ 0 → RecordedAs (env.txHash tx) (anonImages tx.vin) s') := by
  rw [processAnonTransaction] at h
  split_ifs at h
  · cases h
    exact ⟨.refl, fun hok => by cases hok⟩
  · exact processInputsFrom_spec (List.Subset.refl _) h

/-- A wallet writes for a transaction of the version of ring transactions only. -/
theorem addToWallet_spec (env : ConnectEnv G) (wallet : Wallet) (s : ConnectStore) (tx : CTransaction)
    (blockHash : UInt256) :
    AnonWrites tx (env.txHash tx) s (env.addToWalletIfInvolvingMe wallet s tx blockHash) ∧
      (tx.nVersion ≠ ANON_TXN_VERSION → env.addToWalletIfInvolvingMe wallet s tx blockHash = s) := by
  rw [addToWalletIfInvolvingMe]
  split
  · exact ⟨.refl, fun _ => rfl⟩
  split
  · exact ⟨.refl, fun _ => rfl⟩
  rename_i hversion
  rw [bne_iff_ne, not_not] at hversion
  refine ⟨?_, fun hne => absurd hversion hne⟩
  rcases hproc : env.processAnonTransaction wallet s tx blockHash with ⟨_ | _, s'⟩
  · exact .single .mapKeyImage
  · rcases hcommit : wallet.commits tx with _ | _
    · exact .single .mapKeyImage
    · exact (processAnonTransaction_spec hproc).1

theorem syncWallets_spec (env : ConnectEnv G) (s : ConnectStore) (tx : CTransaction) (blockHash : UInt256)
    (wallets : List Wallet) :
    AnonWrites tx (env.txHash tx) s (env.syncWallets tx blockHash s wallets) ∧
      (tx.nVersion ≠ ANON_TXN_VERSION → env.syncWallets tx blockHash s wallets = s) := by
  induction wallets generalizing s with
  | nil => exact ⟨.refl, fun _ => rfl⟩
  | cons wallet wallets ih =>
      rw [syncWallets]
      obtain ⟨hfirst, hsame⟩ := addToWallet_spec env wallet s tx blockHash
      obtain ⟨hrest, hrestSame⟩ := ih (env.addToWalletIfInvolvingMe wallet s tx blockHash)
      exact ⟨hfirst.trans hrest, fun hne => (hrestSame hne).trans (hsame hne)⟩

end ConnectEnv

/-! ## Ring coins -/

theorem moneyRange_of_checkOutputs {tx : CTransaction} {n : Int64} {vout : List CTxOut}
    (h : tx.checkOutputs n vout = true) : ∀ txout ∈ vout, moneyRange txout.nValue = true := by
  induction vout generalizing n with
  | nil =>
      intro txout hmem
      cases hmem
  | cons first vout ih =>
      intro txout hmem
      rw [CTransaction.checkOutputs] at h
      split_ifs at h with _ hneg hmax
      rcases List.mem_cons.1 hmem with rfl | hmem
      · rw [moneyRange, Bool.and_eq_true, decide_eq_true_iff, decide_eq_true_iff]
        exact ⟨Int64.not_lt.1 hneg, Int64.not_lt.1 hmax⟩
      · exact ih h txout hmem

theorem moneyRange_of_checkTransaction {tx : CTransaction} (h : tx.checkTransaction = true) :
    ∀ txout ∈ tx.vout, moneyRange txout.nValue = true := by
  rw [CTransaction.checkTransaction] at h
  split_ifs at h with _ _ _ hout
  all_goals
    rw [Bool.not_eq_true', Bool.not_eq_false] at hout
    exact moneyRange_of_checkOutputs hout

theorem AnonWrites.ringCoinsInRange {tx : CTransaction} {txnHash : UInt256} {s s' : ConnectStore}
    (h : AnonWrites tx txnHash s s') (hout : ∀ txout ∈ tx.vout, moneyRange txout.nValue = true)
    (hs : s.RingCoinsInRange) : s'.RingCoinsInRange := by
  induction h with
  | refl => exact hs
  | @tail s₁ _ _ hstep ih =>
      have hwrite : ∀ {pkCoin : Bytes} {ao : CAnonOutput}, moneyRange ao.nValue = true →
          (s₁.writeAnonOutput pkCoin ao).RingCoinsInRange := by
        intro pkCoin ao hao k ao' hk
        rcases Decidable.em (k = pkCoin) with rfl | hne
        · cases (if_pos rfl).symm.trans hk
          exact hao
        · exact ih k ao' ((if_neg hne).symm.trans hk)
      cases hstep with
      | keyImage => exact ih
      | mapKeyImage => exact ih
      | ringCoin hold hvalue => exact hwrite (hvalue ▸ ih _ _ hold)
      | output hmem hvalue => exact hwrite (hvalue ▸ hout _ hmem)

theorem ConnectEnv.syncBlock_ringCoinsInRange {G : Type} [AddCommGroup G] {env : ConnectEnv G}
    {s : ConnectStore} {blockHash : UInt256} {vtx : List CTransaction}
    (hvtx : ∀ tx ∈ vtx, tx.checkTransaction = true) (hs : s.RingCoinsInRange) :
    (env.syncBlock blockHash s vtx).RingCoinsInRange := by
  induction vtx generalizing s with
  | nil => exact hs
  | cons tx vtx ih =>
      have hfirst := moneyRange_of_checkTransaction (hvtx tx List.mem_cons_self)
      have hwrites := (syncWallets_spec env s tx blockHash env.wallets).1
      exact ih (fun tx htx => hvtx tx (List.mem_cons_of_mem _ htx)) (hwrites.ringCoinsInRange hfirst hs)

end ProCurrency

/-!
## What the wallets erase

As the writes of the wallets are (`Connect/Lemmas/Recording`), what they undo of one transaction is a sequence of
single steps: its key images, when they are recorded under its hash, and its ring coins.
-/

namespace ProCurrency

open Relation

/-- One step of `UndoAnonTransaction` for the transaction `tx`, whose hash is `txnHash`. -/
inductive AnonErase (tx : CTransaction) (txnHash : UInt256) : ConnectStore → ConnectStore → Prop where
  | keyImage {s vchImage} : vchImage ∈ anonImages tx.vin →
      (∀ ki, s.keyImages vchImage = some ki → ki.txnHash = txnHash) →
      AnonErase tx txnHash s (s.eraseKeyImage vchImage)
  | output {s pkCoin} : AnonErase tx txnHash s (s.eraseAnonOutput pkCoin)

abbrev AnonErases (tx : CTransaction) (txnHash : UInt256) : ConnectStore → ConnectStore → Prop :=
  ReflTransGen (AnonErase tx txnHash)

section Erases

variable {tx : CTransaction} {txnHash : UInt256} {s s' : ConnectStore}

theorem AnonErases.txIndex (h : AnonErases tx txnHash s s') :
    s'.txIndex = s.txIndex ∧ s'.diskTxIndex = s.diskTxIndex := by
  induction h with
  | refl => exact ⟨rfl, rfl⟩
  | tail _ hstep ih => cases hstep <;> exact ih

/-- A key image is as it was, or it was recorded under the hash and is gone. -/
theorem AnonErases.keyImages (h : AnonErases tx txnHash s s') (vchImage : Bytes) :
    s'.keyImages vchImage = s.keyImages vchImage ∨
      s'.keyImages vchImage = none ∧ ∃ ki, s.keyImages vchImage = some ki ∧ ki.txnHash = txnHash := by
  induction h with
  | refl => exact Or.inl rfl
  | @tail s₁ _ _ hstep ih =>
      cases hstep with
      | @keyImage vchImage' hmem hhash =>
          rcases Decidable.em (vchImage = vchImage') with rfl | hne
          · rw [ConnectStore.keyImages_eraseKeyImage_self]
            rcases ih with heq | ⟨_, hold⟩
            · rw [heq] at hhash
              cases hs : s.keyImages vchImage with
              | none => exact Or.inl rfl
              | some ki => exact Or.inr ⟨rfl, ki, rfl, hhash ki hs⟩
            · exact Or.inr ⟨rfl, hold⟩
          · rw [ConnectStore.keyImages_eraseKeyImage_of_ne hne]
            exact ih
      | output => exact ih

end Erases

namespace ConnectEnv

variable {G : Type} {env : ConnectEnv G} {tx : CTransaction} {s s' : ConnectStore} {fOk : Bool}

theorem undoInputsFrom_spec {wallet : Wallet} {i : Nat} {vin : List CTxIn} (hsub : anonImages vin ⊆ anonImages tx.vin)
    (h : env.undoInputsFrom wallet tx i s vin = (fOk, s')) : AnonErases tx (env.txHash tx) s s' := by
  induction vin generalizing i s with
  | nil =>
      cases h
      exact .refl
  | cons txin vin ih =>
      rw [undoInputsFrom] at h
      rcases hanon : txin.isAnonInput with _ | _
      · rw [anonImages_cons_of_neg (by rw [hanon]; exact Bool.false_ne_true)] at hsub
        simp only [hanon, Bool.not_false, if_true] at h
        exact ih hsub h
      · rw [anonImages_cons_of_pos hanon] at hsub
        have hrest : anonImages vin ⊆ anonImages tx.vin := fun _ hk => hsub (List.mem_cons_of_mem _ hk)
        simp only [hanon, Bool.not_true, Bool.false_eq_true, if_false] at h
        cases hki : s.getKeyImage txin.extractKeyImage with
        | none =>
            simp only [hki] at h
            exact ih hrest h
        | some spentKeyImage =>
            simp only [hki] at h
            rcases Decidable.em (spentKeyImage.txnHash = env.txHash tx) with hhash | hhash
            · rw [if_neg (not_not.2 hhash)] at h
              have hrecorded : ∀ ki, s.keyImages txin.extractKeyImage = some ki → ki.txnHash = env.txHash tx := by
                intro ki hs
                rw [ConnectStore.getKeyImage, hs] at hki
                cases hki
                exact hhash
              have hfirst : AnonErase tx (env.txHash tx) s _ := .keyImage (hsub List.mem_cons_self) hrecorded
              rcases hown : wallet.unspendsOwned tx i with _ | _
              · simp only [hown, Bool.not_false, if_true] at h
                cases h
                exact .single hfirst
              · simp only [hown, Bool.not_true, Bool.false_eq_true, if_false] at h
                exact .head hfirst (ih hrest h)
            · rw [if_pos hhash] at h
              exact ih hrest h

theorem undoOutputsFrom_spec {vout : List CTxOut} (h : env.undoOutputsFrom s vout = (fOk, s')) :
    AnonErases tx (env.txHash tx) s s' := by
  induction vout generalizing s with
  | nil =>
      cases h
      exact .refl
  | cons txout vout ih =>
      rw [undoOutputsFrom] at h
      rcases hanon : txout.isAnonOutput with _ | _
      · simp only [hanon, Bool.not_false, if_true] at h
        exact ih h
      · simp only [hanon, Bool.not_true, Bool.false_eq_true, if_false] at h
        cases hao : s.anonOutputs (env.pubKey txout.extractAnonPk) with
        | none =>
            rw [hao] at h
            cases h
            exact .refl
        | some ao =>
            simp only [hao] at h
            exact .head .output (ih h)

theorem undoAnonTransaction_spec (env : ConnectEnv G) (wallet : Wallet) (s : ConnectStore) (tx : CTransaction) :
    AnonErases tx (env.txHash tx) s (env.undoAnonTransaction wallet s tx).2 := by
  rw [undoAnonTransaction]
  rcases hin : env.undoInputsFrom wallet tx 0 s tx.vin with ⟨_ | _, s₁⟩
  · exact undoInputsFrom_spec (List.Subset.refl _) hin
  · exact (undoInputsFrom_spec (List.Subset.refl _) hin).trans (undoOutputsFrom_spec rfl)

theorem undoWallets_spec (env : ConnectEnv G) (tx : CTransaction) (s : ConnectStore) (wallets : List Wallet) :
    AnonErases tx (env.txHash tx) s (env.undoWallets tx s wallets) := by
  induction wallets generalizing s with
  | nil => exact .refl
  | cons wallet wallets ih =>
      rw [undoWallets]
      exact (undoAnonTransaction_spec env wallet s tx).trans (ih _)

theorem undoTx_spec (env : ConnectEnv G) (s : ConnectStore) (tx : CTransaction) :
    AnonErases tx (env.txHash tx) s (env.undoTx s tx) := by
  rw [undoTx]
  split
  · exact undoWallets_spec env tx s env.wallets
  · exact .refl

theorem undoBlock_txIndex (env : ConnectEnv G) (s : ConnectStore) (vtx : List CTransaction) :
    (vtx.foldl env.undoTx s).txIndex = s.txIndex ∧ (vtx.foldl env.undoTx s).diskTxIndex = s.diskTxIndex := by
  induction vtx generalizing s with
  | nil => exact ⟨rfl, rfl⟩
  | cons tx vtx ih =>
      obtain ⟨hindex, hdisk⟩ := (undoTx_spec env s tx).txIndex
      rw [List.foldl_cons, (ih _).1, (ih _).2]
      exact ⟨hindex, hdisk⟩

/-! ## The index alone -/

theorem disconnectInputsFrom_frame {vin : List CTxIn} (h : disconnectInputsFrom s vin = (fOk, s')) :
    s' = { s with txIndex := s'.txIndex } := by
  induction vin generalizing s with
  | nil =>
      cases h
      rfl
  | cons txin vin ih =>
      rw [disconnectInputsFrom] at h
      cases hidx : s.txIndex txin.prevout.hash with
      | none =>
          simp only [hidx] at h
          exact ih h
      | some e =>
          simp only [hidx] at h
          split at h
          · cases h
            rfl
          · rw [ih h]
            rfl

theorem disconnectInputs_frame (h : env.disconnectInputs s tx = (fOk, s')) : s' = { s with txIndex := s'.txIndex } := by
  rw [disconnectInputs] at h
  rcases hfrom : if tx.isCoinBase then (true, s) else disconnectInputsFrom s tx.vin with ⟨fOk₁, s₁⟩
  have hfirst : s₁ = { s with txIndex := s₁.txIndex } := by
    split at hfrom
    · cases hfrom
      rfl
    · exact disconnectInputsFrom_frame hfrom
  rw [hfrom] at h
  cases fOk₁ with
  | false =>
      cases h
      exact hfirst
  | true =>
      cases h
      rw [hfirst]
      rfl

theorem disconnectTxs_frame {vtx : List CTransaction} (h : env.disconnectTxs s vtx = (fOk, s')) :
    s' = { s with txIndex := s'.txIndex } := by
  induction vtx generalizing s with
  | nil =>
      cases h
      rfl
  | cons tx vtx ih =>
      rw [disconnectTxs] at h
      rcases hstep : env.disconnectInputs s tx with ⟨fStep, s₁⟩
      have hfirst := disconnectInputs_frame hstep
      rw [hstep] at h
      cases fStep with
      | false =>
          cases h
          exact hfirst
      | true =>
          rw [ih h, hfirst]

end ConnectEnv

end ProCurrency
