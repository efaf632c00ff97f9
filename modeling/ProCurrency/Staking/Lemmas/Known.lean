import ProCurrency.Connect.Lemmas.Balance

/-!
# Transactions by their hashes

The index, the block files and the memory pool give one transaction for a hash, so that the value of what is spent does
not depend on where a transaction is read.
-/

namespace ProCurrency

open CTransaction

/-- The transaction that has a hash. -/
abbrev KnownTxs := UInt256 → Option CTransaction

def knownInputs (known : KnownTxs) : MapPrevTx := fun hash => (known hash).map (⟨.null, []⟩, ·)

namespace ConnectEnv

variable {G : Type} {env : ConnectEnv G} {s : ConnectStore} {known : KnownTxs} {tx : CTransaction}
  {inputs : MapPrevTx} {mapTestPool : MapTestPool}

/-- What `FetchInputs` reads for an index entry. -/
def readAt (env : ConnectEnv G) (hash : UInt256) (pos : CDiskTxPos) : Option CTransaction :=
  if pos = { nFile := 1, nBlockPos := 1, nTxPos := 1 } then env.mempoolTx hash else env.readTx pos

/-- What the index and the pool have is known. -/
structure Knows (env : ConnectEnv G) (s : ConnectStore) (known : KnownTxs) : Prop where
  disk : ∀ hash txindex tx, s.txIndex hash = some txindex → env.readTx txindex.pos = some tx → known hash = some tx
  pool : ∀ hash tx, env.mempoolTx hash = some tx → known hash = some tx

/-- Only the known transaction is read for the hash at this place. -/
def ReadsKnown (env : ConnectEnv G) (known : KnownTxs) (hash : UInt256) (pos : CDiskTxPos) : Prop :=
  ∀ tx, env.readAt hash pos = some tx → known hash = some tx

/-- The changes of a block point at known transactions. -/
def Backed (env : ConnectEnv G) (known : KnownTxs) (mapTestPool : MapTestPool) : Prop :=
  ∀ hash txindex, mapTestPool hash = some txindex → env.ReadsKnown known hash txindex.pos

/-- The inputs that were fetched are known transactions. -/
def Fetched (env : ConnectEnv G) (known : KnownTxs) (inputs : MapPrevTx) : Prop :=
  ∀ hash txindex tx, inputs hash = some (txindex, tx) →
    known hash = some tx ∧ env.ReadsKnown known hash txindex.pos

theorem Knows.readsKnown (h : env.Knows s known) {hash : UInt256} {txindex : CTxIndex}
    (hindex : s.txIndex hash = some txindex) : env.ReadsKnown known hash txindex.pos := by
  intro tx htx
  rw [readAt] at htx
  split at htx
  · exact h.pool hash tx htx
  · exact h.disk hash txindex tx hindex htx

theorem Backed.empty : env.Backed known fun _ => none := nofun

theorem Fetched.empty : env.Fetched known fun _ => none := fun _ _ _ h => (nomatch h)

theorem Backed.update (h : env.Backed known mapTestPool) {hash : UInt256} {txindex : CTxIndex}
    (hpos : env.ReadsKnown known hash txindex.pos) :
    env.Backed known (Function.update mapTestPool hash (some txindex)) := by
  intro hash' txindex' hindex
  rw [Function.update_apply] at hindex
  split at hindex
  · rename_i heq
    cases hindex
    exact heq ▸ hpos
  · exact h hash' txindex' hindex

/-! ## Fetching -/

theorem fetchPrevTx_some {hash : UInt256} {txindex : CTxIndex}
    (h : (mapTestPool hash).or (s.txIndex hash) = some txindex) :
    env.fetchPrevTx s mapTestPool hash = (env.readAt hash txindex.pos).map fun txPrev => (txindex, txPrev) := by
  rw [fetchPrevTx, h, readAt]
  split_ifs with hpool
  · simp only [if_pos hpool]
    cases env.mempoolTx hash <;> rfl
  · simp only [if_neg hpool]
    cases env.readTx txindex.pos <;> rfl

theorem fetchPrevTx_known (hs : env.Knows s known) (hmap : env.Backed known mapTestPool) {hash : UInt256}
    {txindex : CTxIndex} (h : env.fetchPrevTx s mapTestPool hash = some (txindex, tx)) :
    known hash = some tx ∧ env.ReadsKnown known hash txindex.pos := by
  cases hindex : (mapTestPool hash).or (s.txIndex hash) with
  | none =>
      rw [fetchPrevTx, hindex] at h
      cases h
  | some txindex' =>
      have hpos : env.ReadsKnown known hash txindex'.pos := by
        rcases Option.or_eq_some_iff.1 hindex with hindex | ⟨_, hindex⟩
        · exact hmap hash txindex' hindex
        · exact hs.readsKnown hindex
      rw [fetchPrevTx_some hindex] at h
      cases hread : env.readAt hash txindex'.pos with
      | none => simp [hread] at h
      | some txPrev =>
          rw [hread] at h
          cases h
          exact ⟨hpos tx hread, hpos⟩

theorem fetchInputsFrom_known (hs : env.Knows s known) (hmap : env.Backed known mapTestPool)
    {inputsRet : MapPrevTx} (hret : env.Fetched known inputsRet) {vin : List CTxIn}
    (h : env.fetchInputsFrom s mapTestPool tx inputsRet vin = some inputs) : env.Fetched known inputs := by
  induction vin generalizing inputsRet with
  | nil =>
      cases h
      exact hret
  | cons txin vin ih =>
      rw [fetchInputsFrom] at h
      split at h
      · exact ih hret h
      · split at h
        · exact ih hret h
        · cases hprev : env.fetchPrevTx s mapTestPool txin.prevout.hash with
          | none => simp [hprev] at h
          | some prev =>
              simp only [hprev] at h
              refine ih (fun hash txindex txPrev hin => ?_) h
              rw [Function.update_apply] at hin
              split at hin
              · rename_i heq
                cases hin
                exact heq ▸ fetchPrevTx_known hs hmap hprev
              · exact hret hash txindex txPrev hin

theorem fetchInputs_known (hs : env.Knows s known) (hmap : env.Backed known mapTestPool)
    (h : env.fetchInputs s mapTestPool tx = some inputs) : env.Fetched known inputs := by
  rw [fetchInputs] at h
  split at h
  · cases h
    exact .empty
  · cases hfrom : env.fetchInputsFrom s mapTestPool tx (fun _ => none) tx.vin with
    | none => simp [hfrom] at h
    | some inputs' =>
        simp only [hfrom] at h
        split at h
        · cases h
          exact fetchInputsFrom_known hs hmap .empty hfrom
        · cases h

/-! ## Values -/

theorem getOutputFor_known (hin : env.Fetched known inputs) {txin : CTxIn} {txout : CTxOut}
    (h : getOutputFor txin inputs = some txout) : getOutputFor txin (knownInputs known) = some txout := by
  rw [getOutputFor] at h ⊢
  cases hprev : inputs txin.prevout.hash with
  | none => simp [hprev] at h
  | some prev =>
      obtain ⟨txindex, txPrev⟩ := prev
      rw [hprev] at h
      rw [knownInputs, (hin _ txindex txPrev hprev).1]
      exact h

theorem valueInFrom_known (hin : env.Fetched known inputs) {vin : List CTxIn} {n r : Int64}
    (h : tx.valueInFrom inputs n vin = some r) : tx.valueInFrom (knownInputs known) n vin = some r := by
  induction vin generalizing n with
  | nil => exact h
  | cons txin vin ih =>
      rw [valueInFrom] at h ⊢
      split at h
      · rename_i hanon
        rw [if_pos hanon]
        exact ih h
      · rename_i hanon
        rw [if_neg hanon]
        cases hout : getOutputFor txin inputs with
        | none => simp [hout] at h
        | some txout =>
            rw [hout] at h
            rw [getOutputFor_known hin hout]
            exact ih h

theorem getValueIn_known (hin : env.Fetched known inputs) {r : Int64} (h : tx.getValueIn inputs = some r) :
    tx.getValueIn (knownInputs known) = some r := by
  rw [getValueIn] at h ⊢
  split at h
  · rename_i hcb
    rw [if_pos hcb]
    exact h
  · rename_i hcb
    rw [if_neg hcb]
    exact valueInFrom_known hin h

variable [AddCommGroup G]

theorem txValueIn_known (hin : env.Fetched known inputs) {r : Int64} (h : env.txValueIn s inputs tx = some r) :
    env.txValueIn s (knownInputs known) tx = some r := by
  rw [txValueIn] at h ⊢
  cases hval : tx.getValueIn inputs with
  | none => simp [hval] at h
  | some n =>
      rw [hval] at h
      rw [getValueIn_known hin hval]
      exact h

/-- The fee of a transaction. -/
def feeOf (env : ConnectEnv G) (s : ConnectStore) (known : KnownTxs) (tx : CTransaction) : Option Int64 :=
  match env.txValueIn s (knownInputs known) tx, tx.getValueOut with
  | some nValueIn, some nValueOut => some (nValueIn - nValueOut)
  | _, _ => none

theorem feeOf_eq {nValueIn nValueOut : Int64} (hin : env.txValueIn s (knownInputs known) tx = some nValueIn)
    (hout : tx.getValueOut = some nValueOut) : env.feeOf s known tx = some (nValueIn - nValueOut) := by
  rw [feeOf, hin, hout]

/-- The exact sum of the fees of some transactions. -/
def feesOf (env : ConnectEnv G) (s : ConnectStore) (known : KnownTxs) (vtx : List CTransaction) : Int :=
  (vtx.map fun tx => ((env.feeOf s known tx).getD 0).toInt).sum

@[simp] theorem feesOf_nil : env.feesOf s known [] = 0 := rfl

theorem feesOf_cons (tx : CTransaction) (vtx : List CTransaction) :
    env.feesOf s known (tx :: vtx) = ((env.feeOf s known tx).getD 0).toInt + env.feesOf s known vtx := by
  rw [feesOf, List.map_cons, List.sum_cons, feesOf]

theorem feesOf_append (vtx vtx' : List CTransaction) :
    env.feesOf s known (vtx ++ vtx') = env.feesOf s known vtx + env.feesOf s known vtx' := by
  rw [feesOf, List.map_append, List.sum_append, feesOf, feesOf]

/-! ## Connecting -/

omit [AddCommGroup G] in
theorem spendInputsFrom_backed {posThisTx : CDiskTxPos} {flags : UInt32} {i : Nat} {vin : List CTxIn}
    {mapTestPool' : MapTestPool} (hin : env.Fetched known inputs) (hmap : env.Backed known mapTestPool)
    (h : env.spendInputsFrom tx posThisTx flags i inputs mapTestPool vin = some mapTestPool') :
    env.Backed known mapTestPool' := by
  induction vin generalizing i inputs mapTestPool with
  | nil =>
      cases h
      exact hmap
  | cons txin vin ih =>
      rw [spendInputsFrom] at h
      split at h
      · exact ih hin hmap h
      · cases hprev : inputs txin.prevout.hash with
        | none => simp [hprev] at h
        | some prev =>
            obtain ⟨txindex, txPrev⟩ := prev
            simp only [hprev] at h
            cases hspent : txindex.vSpent[txin.prevout.n.toNat]? with
            | none => simp [hspent] at h
            | some pos =>
                simp only [hspent] at h
                split at h
                · cases h
                · split at h
                  · cases h
                  · obtain ⟨hknown, hpos⟩ := hin _ txindex txPrev hprev
                    have hspent' : env.Backed known (Function.update mapTestPool txin.prevout.hash
                        (some { txindex with vSpent := txindex.vSpent.set txin.prevout.n.toNat posThisTx })) :=
                      hmap.update hpos
                    refine ih (fun hash txindex' txPrev' hin' => ?_) hspent' h
                    rw [Function.update_apply] at hin'
                    split at hin'
                    · rename_i heq
                      cases hin'
                      exact heq ▸ ⟨hknown, hpos⟩
                    · exact hin hash txindex' txPrev' hin'

theorem connectInputs_backed {posThisTx : CDiskTxPos} {pindexBlock : CBlockIndex} {pprev : List CBlockIndex}
    {flags : UInt32} {mapTestPool' : MapTestPool} (hin : env.Fetched known inputs)
    (hmap : env.Backed known mapTestPool)
    (h : env.connectInputs s inputs mapTestPool posThisTx pindexBlock pprev flags tx = some mapTestPool') :
    env.Backed known mapTestPool' := by
  rcases hcb : tx.isCoinBase with _ | _
  · obtain ⟨_, _, _, hspend, _⟩ := connectInputs_spec hcb h
    exact spendInputsFrom_backed hin hmap hspend
  · rw [connectInputs, if_pos hcb] at h
    cases h
    exact hmap

end ConnectEnv

end ProCurrency
