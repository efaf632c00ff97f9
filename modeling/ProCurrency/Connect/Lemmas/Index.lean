import ProCurrency.Connect.Lemmas.Recording
import ProCurrency.Lib.Slots

/-!
# What connecting and disconnecting do to the index

Both leave an entry as it is but for the marks of the outputs that inputs of the block name. An entry of the block is
new after the connection and erased by the disconnection.
-/

namespace ProCurrency

/-- The outputs that the inputs of a transaction name. A coinbase names none. -/
def CTransaction.prevouts (tx : CTransaction) : List COutPoint :=
  if tx.isCoinBase then [] else tx.vin.map CTxIn.prevout

/-- The outputs of a transaction that a list names. -/
def slotsOf (prevouts : List COutPoint) (hash : UInt256) (n : Nat) : Prop :=
  ∃ prevout ∈ prevouts, prevout.hash = hash ∧ prevout.n.toNat = n

/-- An entry keeps its position and the marks that are not named. -/
structure CTxIndex.Touches (prevouts : List COutPoint) (hash : UInt256) (e e' : CTxIndex) : Prop where
  pos_eq : e'.pos = e.pos
  vSpent : Slots.AgreeOff (slotsOf prevouts hash) e.vSpent e'.vSpent

abbrev Touched (prevouts : List COutPoint) : (UInt256 → Option CTxIndex) → (UInt256 → Option CTxIndex) → Prop :=
  Slots.Related (CTxIndex.Touches prevouts)

/-- The index with the changes that wait for the end of `ConnectBlock`. -/
def queuedIndex (s : ConnectStore) (mapQueuedChanges : MapTestPool) : UInt256 → Option CTxIndex :=
  (ConnectEnv.updateTxIndex s mapQueuedChanges).txIndex

/-! ## Marks -/

section Marks

variable {prevouts prevouts' : List COutPoint} {hash : UInt256} {e e' e'' : CTxIndex}
  {idx idx' idx'' : UInt256 → Option CTxIndex}

theorem slotsOf_mono (h : prevouts ⊆ prevouts') {n : Nat} (hn : slotsOf prevouts hash n) :
    slotsOf prevouts' hash n := by
  obtain ⟨prevout, hmem, hprevout⟩ := hn
  exact ⟨prevout, h hmem, hprevout⟩

theorem CTxIndex.Touches.refl (prevouts : List COutPoint) (hash : UInt256) (e : CTxIndex) :
    e.Touches prevouts hash e := ⟨rfl, .refl _ _⟩

theorem CTxIndex.Touches.trans (h : e.Touches prevouts hash e') (h' : e'.Touches prevouts hash e'') :
    e.Touches prevouts hash e'' := ⟨h'.pos_eq.trans h.pos_eq, h.vSpent.trans h'.vSpent⟩

theorem CTxIndex.Touches.mark {prevout : COutPoint} (hmem : prevout ∈ prevouts) (e : CTxIndex)
    (pos : CDiskTxPos) :
    e.Touches prevouts prevout.hash { e with vSpent := e.vSpent.set prevout.n.toNat pos } :=
  ⟨rfl, .set ⟨prevout, hmem, rfl, rfl⟩ _ _⟩

theorem Touched.refl (prevouts : List COutPoint) (idx : UInt256 → Option CTxIndex) : Touched prevouts idx idx :=
  Slots.Related.refl (CTxIndex.Touches.refl prevouts) idx

theorem Touched.trans (h : Touched prevouts idx idx') (h' : Touched prevouts idx' idx'') :
    Touched prevouts idx idx'' := Slots.Related.trans CTxIndex.Touches.trans h h'

theorem Touched.mono (h : Touched prevouts idx idx') (hsub : prevouts ⊆ prevouts') : Touched prevouts' idx idx' :=
  Slots.Related.mono h fun _ _ _ he => ⟨he.pos_eq, he.vSpent.mono fun _ => slotsOf_mono hsub⟩

theorem Touched.mark {prevout : COutPoint} (hmem : prevout ∈ prevouts) (he : idx prevout.hash = some e)
    (pos : CDiskTxPos) :
    Touched prevouts idx (Function.update idx prevout.hash
      (some { e with vSpent := e.vSpent.set prevout.n.toNat pos })) :=
  Slots.Related.update (CTxIndex.Touches.refl prevouts) he (.mark hmem e pos)

end Marks

namespace ConnectEnv

variable {G : Type} {env : ConnectEnv G} {s s' : ConnectStore} {tx : CTransaction} {inputs : MapPrevTx}
  {mapTestPool mapTestPool' : MapTestPool} {fOk : Bool}

/-! ## Connecting -/

theorem queuedIndex_update (s : ConnectStore) (m : MapTestPool) (hash : UInt256) (txindex : CTxIndex) :
    queuedIndex s (Function.update m hash (some txindex)) =
      Function.update (queuedIndex s m) hash (some txindex) := by
  funext k
  rcases Decidable.em (k = hash) with rfl | hne
  · simp [queuedIndex, updateTxIndex]
  · simp [queuedIndex, updateTxIndex, hne]

/-- Fetched transactions come with their entries. -/
def InputsAgree (idx : UInt256 → Option CTxIndex) (inputs : MapPrevTx) : Prop :=
  ∀ hash txindex txPrev, inputs hash = some (txindex, txPrev) → idx hash = some txindex

theorem InputsAgree.update {idx : UInt256 → Option CTxIndex} (h : InputsAgree idx inputs) (hash : UInt256)
    (txindex : CTxIndex) (txPrev : CTransaction) :
    InputsAgree (Function.update idx hash (some txindex))
      (Function.update inputs hash (some (txindex, txPrev))) := by
  intro k txindex' txPrev' hk
  rcases Decidable.em (k = hash) with rfl | hne
  · rw [Function.update_self] at hk ⊢
    cases hk
    rfl
  · rw [Function.update_of_ne hne] at hk ⊢
    exact h k txindex' txPrev' hk

theorem fetchPrevTx_agrees {hash : UInt256} {txindex : CTxIndex} {txPrev : CTransaction}
    (h : env.fetchPrevTx s mapTestPool hash = some (txindex, txPrev)) :
    queuedIndex s mapTestPool hash = some txindex := by
  rw [fetchPrevTx] at h
  cases hidx : (mapTestPool hash).or (s.txIndex hash) with
  | none => simp [hidx] at h
  | some e =>
      simp only [hidx] at h
      split at h
      · cases h
      · cases h
        exact hidx

theorem fetchInputsFrom_agrees {vin : List CTxIn} (hagree : InputsAgree (queuedIndex s mapTestPool) inputs)
    {inputs' : MapPrevTx} (h : env.fetchInputsFrom s mapTestPool tx inputs vin = some inputs') :
    InputsAgree (queuedIndex s mapTestPool) inputs' := by
  induction vin generalizing inputs with
  | nil =>
      cases h
      exact hagree
  | cons txin vin ih =>
      rw [fetchInputsFrom] at h
      split at h
      · exact ih hagree h
      split at h
      · exact ih hagree h
      cases hfetch : env.fetchPrevTx s mapTestPool txin.prevout.hash with
      | none => simp [hfetch] at h
      | some prev =>
          rw [hfetch] at h
          refine ih ?_ h
          have hidx := fetchPrevTx_agrees hfetch
          have hsame : Function.update (queuedIndex s mapTestPool) txin.prevout.hash (some prev.1) =
              queuedIndex s mapTestPool := by
            rw [← hidx, Function.update_eq_self]
          rw [← hsame]
          exact hagree.update txin.prevout.hash prev.1 prev.2

theorem fetchInputs_agrees (h : env.fetchInputs s mapTestPool tx = some inputs) :
    InputsAgree (queuedIndex s mapTestPool) inputs := by
  rw [fetchInputs] at h
  split at h
  · cases h
    intro hash txindex txPrev hk
    cases hk
  · cases hfetch : env.fetchInputsFrom s mapTestPool tx (fun _ => none) tx.vin with
    | none => simp [hfetch] at h
    | some fetched =>
        simp only [hfetch] at h
        split at h
        · cases h
          exact fetchInputsFrom_agrees (fun _ _ _ hk => by cases hk) hfetch
        · cases h

/-- The second loop of `ConnectInputs` marks the outputs that the inputs name. -/
theorem spendInputsFrom_touched {posThisTx : CDiskTxPos} {flags : UInt32} {i : Nat} {vin : List CTxIn}
    (hagree : InputsAgree (queuedIndex s mapTestPool) inputs)
    (h : env.spendInputsFrom tx posThisTx flags i inputs mapTestPool vin = some mapTestPool') :
    Touched (vin.map CTxIn.prevout) (queuedIndex s mapTestPool) (queuedIndex s mapTestPool') := by
  induction vin generalizing i inputs mapTestPool with
  | nil =>
      cases h
      exact .refl _ _
  | cons txin vin ih =>
      have hrest : vin.map CTxIn.prevout ⊆ (txin :: vin).map CTxIn.prevout := List.subset_cons_self _ _
      rw [spendInputsFrom] at h
      rcases hanon : tx.spendsAnon txin with _ | _
      · simp only [hanon, Bool.false_eq_true, if_false] at h
        cases hin : inputs txin.prevout.hash with
        | none => simp [hin] at h
        | some prev =>
            obtain ⟨txindex, txPrev⟩ := prev
            simp only [hin] at h
            cases hpos : txindex.vSpent[txin.prevout.n.toNat]? with
            | none => simp [hpos] at h
            | some pos =>
                simp only [hpos] at h
                split at h
                · cases h
                split at h
                · cases h
                have hidx := hagree _ _ _ hin
                have hfirst : Touched ((txin :: vin).map CTxIn.prevout) (queuedIndex s mapTestPool) _ :=
                  Touched.mark List.mem_cons_self hidx posThisTx
                rw [← queuedIndex_update] at hfirst
                refine hfirst.trans ((ih ?_ h).mono hrest)
                rw [queuedIndex_update]
                exact hagree.update _ _ _
      · simp only [hanon, if_true] at h
        exact (ih hagree h).mono hrest

variable [AddCommGroup G] {pindex : CBlockIndex} {pprev : List CBlockIndex} {fJustCheck : Bool}
  {t t' : BlockTotals} {vtx : List CTransaction} {block : CBlock}

theorem connectTx_touched (h : env.connectTx s pindex pprev fJustCheck t tx = some t') :
    ∃ idx posThisTx, Touched tx.prevouts (queuedIndex s t.mapQueuedChanges) idx ∧
      queuedIndex s t'.mapQueuedChanges =
        Function.update idx (env.txHash tx) (some (.new posThisTx tx.vout.length)) := by
  rcases hcb : tx.isCoinBase with _ | _
  · obtain ⟨inputs, v, nValueOut, m, posThisTx, hfetch, _, _, hconn, hqueued, _⟩ := connectTx_spec hcb h
    obtain ⟨_, _, _, hspend, _⟩ := connectInputs_spec hcb hconn
    refine ⟨queuedIndex s m, posThisTx, ?_, by rw [hqueued, queuedIndex_update]⟩
    rw [CTransaction.prevouts, if_neg (by rw [hcb]; exact Bool.false_ne_true)]
    exact spendInputsFrom_touched (fetchInputs_agrees hfetch) hspend
  · obtain ⟨_, _, posThisTx, hqueued⟩ := connectTx_coinBase hcb h
    exact ⟨queuedIndex s t.mapQueuedChanges, posThisTx, .refl _ _, by rw [hqueued, queuedIndex_update]⟩

/-- An entry for each transaction of a list. -/
def HasEntries (env : ConnectEnv G) (idx : UInt256 → Option CTxIndex) (vtx : List CTransaction) : Prop :=
  ∀ tx ∈ vtx, ∃ e, idx (env.txHash tx) = some e ∧ e.vSpent.length = tx.vout.length

/-- An index that differs from another in the entries of a list of transactions, and in named marks. -/
def TouchedOff (env : ConnectEnv G) (vtx : List CTransaction) (prevouts : List COutPoint)
    (idx idx' : UInt256 → Option CTxIndex) : Prop :=
  ∀ hash ∉ vtx.map env.txHash, (idx hash = none → idx' hash = none) ∧
    ∀ e, idx hash = some e → ∃ e', idx' hash = some e' ∧ e.Touches prevouts hash e'

theorem connectTxs_touched {prevouts : List COutPoint} (hnodup : (vtx.map env.txHash).Nodup)
    (hprevouts : vtx.flatMap CTransaction.prevouts ⊆ prevouts)
    (h : env.connectTxs s pindex pprev fJustCheck t vtx = some t') :
    env.HasEntries (queuedIndex s t'.mapQueuedChanges) vtx ∧
      env.TouchedOff vtx prevouts (queuedIndex s t.mapQueuedChanges) (queuedIndex s t'.mapQueuedChanges) := by
  induction vtx generalizing t with
  | nil =>
      cases h
      exact ⟨fun tx htx => (nomatch htx), fun hash _ => ⟨id, fun e he => ⟨e, he, .refl _ _ _⟩⟩⟩
  | cons tx vtx ih =>
      obtain ⟨t₁, hstep, hrest⟩ := connectTxs_cons h
      obtain ⟨idx, posThisTx, htouched, hqueued⟩ := connectTx_touched hstep
      rw [List.map_cons, List.nodup_cons] at hnodup
      rw [List.flatMap_cons, List.append_subset] at hprevouts
      obtain ⟨hentries, hoff⟩ := ih hnodup.2 hprevouts.2 hrest
      have hfirst := htouched.mono hprevouts.1
      refine ⟨fun tx' htx' => ?_, fun hash hhash => ?_⟩
      · rcases List.mem_cons.1 htx' with rfl | htx'
        · obtain ⟨e', he', hsame⟩ := (hoff (env.txHash tx') hnodup.1).2 _ (by rw [hqueued, Function.update_self])
          exact ⟨e', he', by rw [hsame.vSpent.length_eq, CTxIndex.new, List.length_replicate]⟩
        · exact hentries tx' htx'
      · rw [List.map_cons, List.mem_cons, not_or] at hhash
        obtain ⟨hnone, hsome⟩ := hoff hash hhash.2
        rw [hqueued, Function.update_of_ne hhash.1] at hnone hsome
        refine ⟨fun hidx => hnone (hfirst.none hash hidx), fun e he => ?_⟩
        obtain ⟨e₁, he₁, hsame₁⟩ := hfirst.some hash e he
        obtain ⟨e', he', hsame⟩ := hsome e₁ he₁
        exact ⟨e', he', hsame₁.trans hsame⟩

theorem syncBlock_txIndex (env : ConnectEnv G) (blockHash : UInt256) (s : ConnectStore) (vtx : List CTransaction) :
    (env.syncBlock blockHash s vtx).txIndex = s.txIndex := by
  induction vtx generalizing s with
  | nil => rfl
  | cons tx vtx ih =>
      rw [syncBlock, ih, syncWithWallets, (syncWallets_spec env s tx blockHash env.wallets).1.txIndex.1]

/-- What `ConnectBlock` does to the index. -/
theorem connectBlock_touched (h : env.connectBlock s pindex pprev false block = some s') :
    (block.vtx.map env.txHash).Nodup ∧ env.HasEntries s'.txIndex block.vtx ∧
      env.TouchedOff block.vtx (block.vtx.flatMap CTransaction.prevouts) s.txIndex s'.txIndex := by
  obtain ⟨hcheck, t, htxs, _, rfl⟩ := connectBlock_spec h
  have hnodup := (checkUniqueTx_iff.1 (checkBlock_spec hcheck).2.2.2).2
  refine ⟨hnodup, ?_⟩
  rw [if_neg Bool.false_ne_true, syncBlock_txIndex]
  exact connectTxs_touched hnodup (List.Subset.refl _) htxs

/-! ## Disconnecting -/

/-- The output that an input names exists, if its transaction has an entry. -/
def inRange (idx : UInt256 → Option CTxIndex) (prevout : COutPoint) : Bool :=
  (idx prevout.hash).all fun e => prevout.n.toNat < e.vSpent.length

theorem inRange_eq {prevouts : List COutPoint} {idx idx' : UInt256 → Option CTxIndex}
    (h : Touched prevouts idx idx') (prevout : COutPoint) : inRange idx' prevout = inRange idx prevout := by
  rw [inRange, inRange]
  cases hidx : idx prevout.hash with
  | none => rw [h.none _ hidx]
  | some e =>
      obtain ⟨e', he', hsame⟩ := h.some _ e hidx
      rw [he', Option.all_some, Option.all_some, hsame.vSpent.length_eq]

/-- Entries whose named marks are null. -/
def Unmarked (prevouts : List COutPoint) (idx : UInt256 → Option CTxIndex) : Prop :=
  ∀ prevout ∈ prevouts, ∀ e, idx prevout.hash = some e → e.vSpent[prevout.n.toNat]? = some .null

/-- Marks that are set to null stay null when others are. -/
theorem Unmarked.append {prevouts prevouts' : List COutPoint} {idx idx' : UInt256 → Option CTxIndex}
    (h : Unmarked prevouts idx) (htouched : Touched prevouts' idx idx') (h' : Unmarked prevouts' idx') :
    Unmarked (prevouts' ++ prevouts) idx' := by
  intro prevout hmem e' he'
  rcases List.mem_append.1 hmem with hmem | hmem
  · exact h' prevout hmem e' he'
  obtain ⟨e, he, hsame⟩ := htouched.of_some he'
  rcases Classical.em (slotsOf prevouts' prevout.hash prevout.n.toNat) with ⟨other, hother, hhash, hn⟩ | hslot
  · rw [← hn]
    exact h' other hother e' (by rw [hhash, he'])
  · rw [hsame.vSpent.getElem?_eq _ hslot]
    exact h prevout hmem e he

theorem disconnectInputsFrom_spec {vin : List CTxIn} (h : disconnectInputsFrom s vin = (fOk, s')) :
    fOk = (vin.map CTxIn.prevout).all (inRange s.txIndex) ∧
      Touched (vin.map CTxIn.prevout) s.txIndex s'.txIndex ∧
      (fOk = true → Unmarked (vin.map CTxIn.prevout) s'.txIndex) := by
  induction vin generalizing s with
  | nil =>
      cases h
      exact ⟨rfl, .refl _ _, fun _ prevout hmem => (nomatch hmem)⟩
  | cons txin vin ih =>
      have hrest : vin.map CTxIn.prevout ⊆ (txin :: vin).map CTxIn.prevout := List.subset_cons_self _ _
      rw [disconnectInputsFrom] at h
      rw [List.map_cons, List.all_cons, inRange]
      cases hidx : s.txIndex txin.prevout.hash with
      | none =>
          simp only [hidx] at h
          obtain ⟨hok, htouched, hunmarked⟩ := ih h
          refine ⟨hok, htouched.mono hrest, fun hfOk => ?_⟩
          intro prevout hmem e he
          rcases List.mem_cons.1 hmem with rfl | hmem
          · rw [htouched.none _ hidx] at he
            cases he
          · exact hunmarked hfOk prevout hmem e he
      | some e =>
          simp only [hidx] at h
          rw [Option.all_some]
          split at h
          · rename_i hout
            cases h
            rw [decide_eq_false (Nat.not_lt.2 hout), Bool.false_and]
            exact ⟨rfl, .refl _ _, fun hfOk => absurd hfOk Bool.false_ne_true⟩
          · rename_i hin
            have hlt := Nat.lt_of_not_le hin
            have hfirst : Touched [txin.prevout] s.txIndex _ := Touched.mark List.mem_cons_self hidx .null
            obtain ⟨hok, htouched, hunmarked⟩ := ih h
            have hmarked : Unmarked [txin.prevout] (Function.update s.txIndex txin.prevout.hash
                (some { e with vSpent := e.vSpent.set txin.prevout.n.toNat .null })) := by
              intro prevout hmem e' he'
              rw [List.mem_singleton.1 hmem, Function.update_self] at he'
              cases he'
              rw [List.mem_singleton.1 hmem, List.getElem?_set_self hlt]
            refine ⟨?_, (hfirst.mono (List.cons_subset_cons _ (List.nil_subset _))).trans (htouched.mono hrest),
              fun hfOk => ?_⟩
            · rw [hok, decide_eq_true hlt, Bool.true_and]
              congr 1
              funext prevout
              exact inRange_eq hfirst prevout
            · intro prevout hmem
              refine (hmarked.append htouched (hunmarked hfOk)) prevout ?_
              rcases List.mem_cons.1 hmem with rfl | hmem
              · exact List.mem_append_right _ List.mem_cons_self
              · exact List.mem_append_left _ hmem

omit [AddCommGroup G] in
theorem disconnectInputs_spec (h : env.disconnectInputs s tx = (fOk, s')) :
    fOk = tx.prevouts.all (inRange s.txIndex) ∧ (fOk = true → ∃ idx, Touched tx.prevouts s.txIndex idx ∧
      Unmarked tx.prevouts idx ∧ s'.txIndex = Function.update idx (env.txHash tx) none) := by
  rw [disconnectInputs] at h
  rw [CTransaction.prevouts]
  rcases hcb : tx.isCoinBase with _ | _
  · simp only [hcb, Bool.false_eq_true, if_false] at h ⊢
    rcases hfrom : disconnectInputsFrom s tx.vin with ⟨fOk₁, s₁⟩
    obtain ⟨hok, htouched, hunmarked⟩ := disconnectInputsFrom_spec hfrom
    rw [hfrom] at h
    cases fOk₁ with
    | false =>
        cases h
        exact ⟨hok, fun hfOk => absurd hfOk Bool.false_ne_true⟩
    | true =>
        cases h
        exact ⟨hok, fun _ => ⟨s₁.txIndex, htouched, hunmarked rfl, rfl⟩⟩
  · simp only [hcb, if_true] at h ⊢
    cases h
    exact ⟨rfl, fun _ => ⟨s.txIndex, .refl _ _, fun _ hmem => absurd hmem List.not_mem_nil, rfl⟩⟩

end ConnectEnv

end ProCurrency
