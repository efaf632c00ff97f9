import Mathlib.Data.Finset.Sort
import ProCurrency.Connect.Lemmas.Unconfirmed
import ProCurrency.Connect.Minting
import ProCurrency.Orphans.TxPool
import ProCurrency.Pool.Lemmas.Index

/-!
# Orphans whose parents arrive

The handler of `tx` messages of a full node (main.cpp, `ProcessMessage`). A transaction that is accepted is announced,
and the orphans that spend from it are tried, and those that spend from these. Here `AcceptToMemoryPool` tells a
transaction whose inputs are not there from one that is turned down.
-/

namespace ProCurrency

def MAX_ORPHAN_TRANSACTIONS : Nat := MAX_BLOCK_SIZE / 100

/-- What `AcceptToMemoryPool` returns, with `*pfMissingInputs`. -/
inductive AcceptResult where
  | accepted
  | missing
  | rejected
  deriving Repr, DecidableEq

/-- What the handler asks besides. The answers of the fee, of the rate limiter and of `ConnectInputs` are those at the
tip, for the inputs that are fetched and the value of the ring coins. -/
structure RelayEnv (G : Type) where
  connect : ConnectEnv G
  isStandard : CTransaction → Bool
  /-- `AreInputsStandard`, or a test network. -/
  areInputsStandard : CTransaction → MapPrevTx → Bool
  connects : CTransaction → MapPrevTx → Int64 → Bool

/-- `SyncWithWallets` and `RelayTransaction` are recorded with what they are called with. -/
structure RelayState where
  mempool : CTxMemPool
  store : ConnectStore
  orphans : OrphanTxs
  synced : List CTransaction
  relayed : List (CTransaction × UInt256)

/-! ## Accepting -/

namespace ConnectEnv

variable {G : Type} (env : ConnectEnv G)

/-- The transaction that an input spends from, as `FetchInputs` looks it up for a loose transaction. -/
def fetchLoosePrevTx (s : ConnectStore) (hash : UInt256) : Option (CTxIndex × CTransaction) :=
  match s.txIndex hash with
  | none =>
      match env.mempoolTx hash with
      | none => none
      | some txPrev => some (.new .null txPrev.vout.length, txPrev)
  | some txindex =>
      match
        if txindex.pos = { nFile := 1, nBlockPos := 1, nTxPos := 1 } then env.mempoolTx hash
        else env.readTx txindex.pos
      with
      | none => none
      | some txPrev => some (txindex, txPrev)

def fetchLooseInputsFrom (s : ConnectStore) (tx : CTransaction) (inputsRet : MapPrevTx) :
    List CTxIn → Option MapPrevTx
  | [] => some inputsRet
  | txin :: vin =>
      if tx.spendsAnon txin then fetchLooseInputsFrom s tx inputsRet vin
      else if (inputsRet txin.prevout.hash).isSome then fetchLooseInputsFrom s tx inputsRet vin
      else
        match env.fetchLoosePrevTx s txin.prevout.hash with
        | none => none
        | some prev => fetchLooseInputsFrom s tx (Function.update inputsRet txin.prevout.hash (some prev)) vin

/-- `FetchInputs` without `fBlock` and `fMiner`, for what is no coinbase. An error is `fInvalid`. -/
def fetchLooseInputs (s : ConnectStore) (tx : CTransaction) : Except Bool MapPrevTx :=
  match env.fetchLooseInputsFrom s tx (fun _ => none) tx.vin with
  | none => .error false
  | some inputs =>
      if tx.vin.all fun txin => tx.spendsAnon txin || prevoutInRange inputs txin then .ok inputs else .error true

end ConnectEnv

namespace RelayEnv

variable {G : Type} [AddCommGroup G] (env : RelayEnv G)

/-- `AcceptToMemoryPool` but for `addUnchecked`. `CheckAnonInputs` sets `fInvalid` wherever it fails. -/
def acceptResult (s : ConnectStore) (pool : CTxMemPool) (tx : CTransaction) : AcceptResult :=
  let hash := env.connect.txHash tx
  if !tx.checkTransaction then .rejected
  else if tx.isCoinBase then .rejected
  else if tx.isCoinStake then .rejected
  else if !env.isStandard tx then .rejected
  else if pool.hasTx hash then .rejected
  else if tx.vin.any fun txin => (pool.mapNextTx txin.prevout).isSome then .rejected
  else if (s.txIndex hash).isSome then .rejected
  else
    match (pool.nodeWith env.connect).fetchLooseInputs s tx with
    | .error fInvalid => if fInvalid then .rejected else .missing
    | .ok inputs =>
        if !env.areInputsStandard tx inputs then .rejected
        else if tx.nVersion == ANON_TXN_VERSION then
          match (pool.nodeWith env.connect).checkAnonInputs (pool.storeWith s) true tx with
          | (false, _) => .rejected
          | (true, nSumAnon) => if env.connects tx inputs nSumAnon then .accepted else .rejected
        else if env.connects tx inputs 0 then .accepted else .rejected

/-! ## The handler -/

def acceptToMemoryPool (st : RelayState) (tx : CTransaction) : AcceptResult × RelayState :=
  match env.acceptResult st.store st.mempool tx with
  | .accepted => (.accepted, { st with mempool := st.mempool.addUnchecked (env.connect.txHash tx) tx })
  | r => (r, st)

/-- `SyncWithWallets(tx, NULL, true)`. The wallets write to the store and to the key images of the memory pool. -/
def syncWithWallets (st : RelayState) (tx : CTransaction) : RelayState :=
  let s := (st.mempool.nodeWith env.connect).syncWithWallets (st.mempool.storeWith st.store) tx 0
  { st with
    mempool := { st.mempool with mapKeyImage := s.mapKeyImage }
    store := s
    synced := st.synced ++ [tx] }

def relayTransaction (st : RelayState) (tx : CTransaction) (hash : UInt256) : RelayState :=
  { st with relayed := st.relayed ++ [(tx, hash)] }

end RelayEnv

/-- A set of hashes, in its order. -/
def sortedHashes (hashes : Finset UInt256) : List UInt256 :=
  ((hashes.image BitVec.toFin).sort (· ≤ ·)).map BitVec.ofFin

structure TxWork where
  st : RelayState
  vWorkQueue : List UInt256
  vEraseQueue : List UInt256

namespace RelayEnv

variable {G : Type} [AddCommGroup G] (env : RelayEnv G)

/-- One orphan that spends from what was accepted. `tx` is the transaction of the message. A hash that is not held
gives an empty transaction, which is turned down. -/
def tryOrphan (tx : CTransaction) (w : TxWork) (orphanTxHash : UInt256) : TxWork :=
  match w.st.orphans.mapOrphanTransactions.lookup orphanTxHash with
  | none => { w with vEraseQueue := w.vEraseQueue ++ [orphanTxHash] }
  | some orphanTx =>
      match env.acceptToMemoryPool w.st orphanTx with
      | (.accepted, st) =>
          { st := relayTransaction (env.syncWithWallets st tx) orphanTx orphanTxHash
            vWorkQueue := w.vWorkQueue ++ [orphanTxHash]
            vEraseQueue := w.vEraseQueue ++ [orphanTxHash] }
      | (.rejected, _) => { w with vEraseQueue := w.vEraseQueue ++ [orphanTxHash] }
      | (.missing, _) => w

/-- The loop over `itByPrev->second`. -/
def tryOrphansOf (tx : CTransaction) (w : TxWork) (hash : UInt256) : TxWork :=
  match w.st.orphans.mapOrphanTransactionsByPrev hash with
  | none => w
  | some hashes => (sortedHashes hashes).foldl (env.tryOrphan tx) w

/-- The loop over `vWorkQueue`, from `i` on; `none` when it is not over after `fuel` rounds. -/
def resolveFrom (tx : CTransaction) : Nat → Nat → TxWork → Option TxWork
  | fuel, i, w =>
      match w.vWorkQueue[i]? with
      | none => some w
      | some hash =>
          match fuel with
          | 0 => none
          | fuel + 1 => resolveFrom tx fuel (i + 1) (env.tryOrphansOf tx w hash)

/-- What is done for an accepted transaction before its orphans are tried. -/
def announce (st : RelayState) (tx : CTransaction) : RelayState :=
  relayTransaction (env.syncWithWallets st tx) tx (env.connect.txHash tx)

/-- `ProcessMessage` for `tx`. Each round of the loop is for another transaction. -/
def processTx (getRandHash : Nat → UInt256) (st : RelayState) (tx : CTransaction) : Option RelayState :=
  let hash := env.connect.txHash tx
  match env.acceptToMemoryPool st tx with
  | (.accepted, st) =>
      match env.resolveFrom tx (st.orphans.size + 1) 0
        { st := env.announce st tx, vWorkQueue := [hash], vEraseQueue := [hash] }
      with
      | none => none
      | some w => some { w.st with orphans := w.vEraseQueue.foldl OrphanTxs.eraseOrphanTx w.st.orphans }
  | (.missing, st) =>
      match (st.orphans.addOrphanTx env.connect.txHash tx).2.limitOrphanTxSize MAX_ORPHAN_TRANSACTIONS getRandHash with
      | none => none
      | some (_, orphans) => some { st with orphans }
  | (.rejected, st) => some st

/-! ## What resolution promises -/

/-- From `st`, where the handler is called, to `st'`, where it is over. -/
structure Resolves (st st' : RelayState) : Prop where
  /-- What is in the memory pool is no orphan. -/
  apart : ∀ hash, st'.mempool.hasTx hash = true → hash ∉ st'.orphans.mapOrphanTransactions
  /-- An orphan that was not acceptable is not left acceptable. -/
  complete : ∀ hash orphanTx, st.orphans.mapOrphanTransactions.lookup hash = some orphanTx →
    env.acceptResult st.store st.mempool orphanTx ≠ .accepted →
      env.acceptResult st'.store st'.mempool orphanTx ≠ .accepted
  /-- What has come into the memory pool was announced once. -/
  announced : ∀ tx, st.mempool.hasTx (env.connect.txHash tx) = false →
    st'.mempool.lookup (env.connect.txHash tx) = some tx →
      st'.synced.count tx = st.synced.count tx + 1 ∧
        st'.relayed.count (tx, env.connect.txHash tx) = st.relayed.count (tx, env.connect.txHash tx) + 1

/-- The state in which the first orphan is tried. -/
def received (st : RelayState) (tx : CTransaction) : RelayState :=
  env.announce { st with mempool := st.mempool.addUnchecked (env.connect.txHash tx) tx } tx

end RelayEnv

/-! ## Looking up -/

theorem mem_sortedHashes {hashes : Finset UInt256} {hash : UInt256} : hash ∈ sortedHashes hashes ↔ hash ∈ hashes := by
  simp only [sortedHashes, List.mem_map, Finset.mem_sort, Finset.mem_image]
  constructor
  · rintro ⟨_, ⟨k, hk, rfl⟩, rfl⟩
    exact hk
  · intro h
    exact ⟨hash.toFin, ⟨hash, h, rfl⟩, rfl⟩

namespace OrphanTxs

theorem mem_eraseOrphanTx {o : OrphanTxs} {hash k : UInt256} :
    k ∈ (o.eraseOrphanTx hash).mapOrphanTransactions ↔ k ∈ o.mapOrphanTransactions ∧ k ≠ hash := by
  rcases Decidable.em (k = hash) with rfl | hne
  · rw [eraseOrphanTx]
    cases htx : o.mapOrphanTransactions.lookup k with
    | none => simpa using AList.lookup_eq_none.1 htx
    | some tx => simp [AList.mem_erase]
  · rw [← AList.lookup_isSome, (o.eraseOrphanTx_frame hne).1, AList.lookup_isSome]
    simp [hne]

theorem mem_eraseAll {o : OrphanTxs} {hashes : List UInt256} {k : UInt256} :
    k ∈ (hashes.foldl eraseOrphanTx o).mapOrphanTransactions ↔ k ∈ o.mapOrphanTransactions ∧ k ∉ hashes := by
  induction hashes generalizing o with
  | nil => simp
  | cons hash hashes ih =>
      rw [List.foldl_cons, ih, mem_eraseOrphanTx, List.mem_cons, not_or, and_assoc]

end OrphanTxs

namespace CTxMemPool

variable {pool : CTxMemPool} {hash k : UInt256} {tx : CTransaction}

theorem hasTx_addUnchecked : (pool.addUnchecked hash tx).hasTx k = true ↔ k = hash ∨ pool.hasTx k = true := by
  rw [hasTx, hasTx, addUnchecked]
  rcases Decidable.em (k = hash) with rfl | hne
  · simp
  · simp [hne]

theorem Indexed.lookup_addUnchecked {env : PoolEnv} {txs : Set CTransaction} (h : Indexed env txs pool)
    (hnew : pool.hasTx hash = false) :
    (pool.addUnchecked hash tx).lookup = Function.update pool.lookup hash (some tx) := by
  have hnone : pool.mapTx hash = none := by simpa [hasTx] using hnew
  funext k
  rw [lookup, CTxMemPool.addUnchecked, hnone]
  rcases Decidable.em (k = hash) with rfl | hne
  · simp
  · simp only [Function.update_of_ne hne, Option.getD_none, lookup]
    cases hk : pool.mapTx k with
    | none => rfl
    | some ptx =>
        obtain ⟨tx', htx', -⟩ := (h.entry k ptx).1 hk
        have hptx : ptx ≠ pool.nextAddress := by
          rintro rfl
          rw [h.fresh _ le_rfl] at htx'
          cases htx'
        simp only [Option.bind_some, Function.update_of_ne hptx]

end CTxMemPool

/-! ## When a transaction is accepted -/

namespace ConnectEnv

variable {G : Type} {env : ConnectEnv G} {m m' : UInt256 → Option CTransaction} {s s' : ConnectStore}
  {tx : CTransaction}

/-- What is fetched is told by the transactions that are spent from. -/
theorem fetchLooseInputs_congr (hindex : s'.txIndex = s.txIndex) (hprev : ∀ prev ∈ tx.prevHashes, m' prev = m prev) :
    { env with mempoolTx := m' }.fetchLooseInputs s' tx = { env with mempoolTx := m }.fetchLooseInputs s tx := by
  have hone : ∀ prev ∈ tx.prevHashes,
      { env with mempoolTx := m' }.fetchLoosePrevTx s' prev = { env with mempoolTx := m }.fetchLoosePrevTx s prev := by
    intro prev hmem
    simp only [fetchLoosePrevTx, hindex, hprev prev hmem]
  have hfrom : ∀ (inputs : MapPrevTx) (vin : List CTxIn), (∀ txin ∈ vin, txin.prevout.hash ∈ tx.prevHashes) →
      { env with mempoolTx := m' }.fetchLooseInputsFrom s' tx inputs vin =
        { env with mempoolTx := m }.fetchLooseInputsFrom s tx inputs vin := by
    intro inputs vin hsub
    induction vin generalizing inputs with
    | nil => rfl
    | cons txin vin ih =>
        have hrest : ∀ txin ∈ vin, txin.prevout.hash ∈ tx.prevHashes :=
          fun txin hmem => hsub txin (List.mem_cons_of_mem _ hmem)
        rw [fetchLooseInputsFrom, fetchLooseInputsFrom, hone _ (hsub txin List.mem_cons_self)]
        simp only [fun inputs => ih inputs hrest]
  rw [fetchLooseInputs, fetchLooseInputs, hfrom _ tx.vin fun txin hmem => List.mem_map_of_mem hmem]

end ConnectEnv

namespace RelayEnv

variable {G : Type} [AddCommGroup G] {env : RelayEnv G} {s : ConnectStore} {pool : CTxMemPool} {tx : CTransaction}

theorem acceptResult_eq_accepted : env.acceptResult s pool tx = .accepted ↔
    tx.checkTransaction = true ∧ tx.isCoinBase = false ∧ tx.isCoinStake = false ∧ env.isStandard tx = true ∧
      pool.hasTx (env.connect.txHash tx) = false ∧ (∀ txin ∈ tx.vin, pool.mapNextTx txin.prevout = none) ∧
      s.txIndex (env.connect.txHash tx) = none ∧
      ∃ inputs, (pool.nodeWith env.connect).fetchLooseInputs s tx = .ok inputs ∧
        env.areInputsStandard tx inputs = true ∧
        ∃ nSumAnon, (if tx.nVersion = ANON_TXN_VERSION then
          (pool.nodeWith env.connect).checkAnonInputs (pool.storeWith s) true tx = (true, nSumAnon)
            else nSumAnon = 0) ∧ env.connects tx inputs nSumAnon = true := by
  have hany : (tx.vin.any fun txin => (pool.mapNextTx txin.prevout).isSome) = false ↔
      ∀ txin ∈ tx.vin, pool.mapNextTx txin.prevout = none := by
    simp
  have hindex : (s.txIndex (env.connect.txHash tx)).isSome = false ↔ s.txIndex (env.connect.txHash tx) = none := by
    simp
  rw [← hany, ← hindex, acceptResult]
  cases tx.checkTransaction with
  | false => simp
  | true => ?_
  cases tx.isCoinBase with
  | true => simp
  | false => ?_
  cases tx.isCoinStake with
  | true => simp
  | false => ?_
  cases env.isStandard tx with
  | false => simp
  | true => ?_
  cases pool.hasTx (env.connect.txHash tx) with
  | true => simp
  | false => ?_
  cases tx.vin.any fun txin => (pool.mapNextTx txin.prevout).isSome with
  | true => simp
  | false => ?_
  cases (s.txIndex (env.connect.txHash tx)).isSome with
  | true => simp
  | false => ?_
  cases (pool.nodeWith env.connect).fetchLooseInputs s tx with
  | error fInvalid => cases fInvalid <;> simp
  | ok inputs => ?_
  cases hstandard : env.areInputsStandard tx inputs with
  | false => simp [hstandard]
  | true => ?_
  rcases Decidable.em (tx.nVersion = ANON_TXN_VERSION) with hversion | hversion
  · rcases (pool.nodeWith env.connect).checkAnonInputs (pool.storeWith s) true tx with ⟨_ | _, nSumAnon⟩
    · simp [hversion, hstandard]
    · simp [hversion, hstandard]
  · simp [hversion, hstandard]

/-- What is in the memory pool is turned down. -/
theorem acceptResult_of_hasTx (h : pool.hasTx (env.connect.txHash tx) = true) :
    env.acceptResult s pool tx = .rejected := by
  simp [acceptResult, h]

variable {st : RelayState} {x : CTransaction} {hash : UInt256}

theorem hasTx_received : (env.received st tx).mempool.hasTx hash = true ↔
    hash = env.connect.txHash tx ∨ st.mempool.hasTx hash = true :=
  @CTxMemPool.hasTx_addUnchecked st.mempool _ hash tx

/-- A transaction that does not spend from the one that is received was acceptable before, if it is acceptable
after. -/
theorem acceptResult_of_received {penv : PoolEnv} {txs : Set CTransaction} (hpool : st.mempool.Indexed penv txs)
    (hnew : st.mempool.hasTx (env.connect.txHash tx) = false) (hspends : env.connect.txHash tx ∉ x.prevHashes)
    (h : env.acceptResult (env.received st tx).store (env.received st tx).mempool x = .accepted) :
    env.acceptResult st.store st.mempool x = .accepted := by
  have hrec : RecordsLoose (env.connect.txHash tx) (st.mempool.storeWith st.store) (env.received st tx).store :=
    ((st.mempool.addUnchecked (env.connect.txHash tx) tx).nodeWith env.connect).syncWithWallets_loose _ tx
  have hlookup : (env.received st tx).mempool.lookup =
      Function.update st.mempool.lookup (env.connect.txHash tx) (some tx) := hpool.lookup_addUnchecked hnew
  have hindex : (env.received st tx).store.txIndex = st.store.txIndex := hrec.txIndex
  obtain ⟨hcheck, hcoinbase, hcoinstake, hstandard, hhas, hfree, hnone, inputs, hfetch, hinputs, n, hanon, hconnects⟩ :=
    acceptResult_eq_accepted.1 h
  have hne : env.connect.txHash x ≠ env.connect.txHash tx := by
    intro heq
    rw [heq] at hhas
    exact Bool.false_ne_true (hhas.symm.trans (hasTx_received.2 (Or.inl rfl)))
  refine acceptResult_eq_accepted.2 ⟨hcheck, hcoinbase, hcoinstake, hstandard, ?_, ?_, hindex ▸ hnone, inputs, ?_,
    hinputs, n, ?_, hconnects⟩
  · cases hold : st.mempool.hasTx (env.connect.txHash x) with
    | false => rfl
    | true => exact absurd (hhas.symm.trans (hasTx_received.2 (Or.inr hold))) Bool.false_ne_true
  · intro txin hmem
    have hafter := hfree txin hmem
    rcases Decidable.em (txin.prevout ∈ tx.outPoints) with hspent | hspent
    · obtain ⟨k, -, hk⟩ := OwnerIndex.addFrom_of_mem CInPoint.mk
        ((st.mempool.mapTx (env.connect.txHash tx)).getD st.mempool.nextAddress) st.mempool.mapNextTx 0 hspent
      exact absurd (hk.symm.trans hafter) (Option.some_ne_none _)
    · exact (OwnerIndex.addFrom_of_notMem 0 hspent).symm.trans hafter
  · refine Eq.trans ?_ hfetch
    refine (ConnectEnv.fetchLooseInputs_congr hindex fun prev hprev => ?_).symm
    have hother : prev ≠ env.connect.txHash tx := by
      rintro rfl
      exact hspends hprev
    rw [hlookup, Function.update_of_ne hother]
  · split
    · rename_i hversion
      rw [if_pos hversion] at hanon
      refine ConnectEnv.checkAnonInputs_of_loose hrec ?_ ?_ hne hanon
      · rw [hlookup, Function.update_self]
        rfl
      · intro hash hhash
        rw [hlookup]
        rcases Decidable.em (hash = env.connect.txHash tx) with rfl | hother
        · rw [Function.update_self]
          rfl
        · rw [Function.update_of_ne hother]
          exact hhash
    · rename_i hversion
      rw [if_neg hversion] at hanon
      exact hanon

/-! ## The loop -/

variable {w : TxWork} {hashes : List UInt256} {o : OrphanTxs}

/-- The orphan is put into `vEraseQueue` without being accepted. -/
def turnsDown (env : RelayEnv G) (st : RelayState) (hash : UInt256) : Bool :=
  match st.orphans.mapOrphanTransactions.lookup hash with
  | none => true
  | some orphanTx => env.acceptResult st.store st.mempool orphanTx = .rejected

/-- The orphan is accepted. -/
def TakesIn (env : RelayEnv G) (st : RelayState) (hash : UInt256) : Prop :=
  ∃ orphanTx, st.orphans.mapOrphanTransactions.lookup hash = some orphanTx ∧
    env.acceptResult st.store st.mempool orphanTx = .accepted

theorem tryOrphan_of_not (h : ¬env.TakesIn w.st hash) : env.tryOrphan tx w hash =
    { w with vEraseQueue := w.vEraseQueue ++ if env.turnsDown w.st hash then [hash] else [] } := by
  rw [tryOrphan, turnsDown]
  cases hx : w.st.orphans.mapOrphanTransactions.lookup hash with
  | none => rfl
  | some orphanTx =>
      obtain ⟨result, hresult⟩ : ∃ result, env.acceptResult w.st.store w.st.mempool orphanTx = result := ⟨_, rfl⟩
      simp only [acceptToMemoryPool, hresult]
      cases result with
      | accepted => exact absurd ⟨orphanTx, hx, hresult⟩ h
      | missing => simp
      | rejected => simp

theorem tryOrphan_of_takesIn (h : env.TakesIn w.st hash) :
    ∃ orphanTx, w.st.orphans.mapOrphanTransactions.lookup hash = some orphanTx ∧
      env.acceptResult w.st.store w.st.mempool orphanTx = .accepted ∧
      env.tryOrphan tx w hash =
        { st := relayTransaction (env.syncWithWallets
            { w.st with mempool := w.st.mempool.addUnchecked (env.connect.txHash orphanTx) orphanTx } tx) orphanTx hash
          vWorkQueue := w.vWorkQueue ++ [hash]
          vEraseQueue := w.vEraseQueue ++ [hash] } := by
  obtain ⟨orphanTx, hx, hresult⟩ := h
  refine ⟨orphanTx, hx, hresult, ?_⟩
  simp only [tryOrphan, hx, acceptToMemoryPool, hresult]

/-- The first orphan that is accepted is tried in the state in which the loop began. -/
theorem tryOrphans_of_not (h : ∀ hash ∈ hashes, ¬env.TakesIn w.st hash) : hashes.foldl (env.tryOrphan tx) w =
    { w with vEraseQueue := w.vEraseQueue ++ hashes.filter (env.turnsDown w.st) } := by
  induction hashes generalizing w with
  | nil => simp
  | cons hash hashes ih =>
      rw [List.foldl_cons, tryOrphan_of_not (h hash List.mem_cons_self)]
      have hrest := @ih { w with vEraseQueue := w.vEraseQueue ++ if env.turnsDown w.st hash then [hash] else [] }
        fun hash hmem => h hash (List.mem_cons_of_mem _ hmem)
      refine hrest.trans ?_
      cases hdown : env.turnsDown w.st hash with
      | false => simp [hdown]
      | true => simp [hdown]

theorem synced_tryOrphan (env : RelayEnv G) (tx : CTransaction) (w : TxWork) (hash : UInt256) :
    ((env.tryOrphan tx w hash).st.synced = w.st.synced ∧ ¬env.TakesIn w.st hash) ∨
      (env.tryOrphan tx w hash).st.synced = w.st.synced ++ [tx] := by
  rcases Classical.em (env.TakesIn w.st hash) with htakes | htakes
  · obtain ⟨orphanTx, -, -, heq⟩ := @tryOrphan_of_takesIn _ _ env tx _ _ htakes
    rw [heq]
    exact Or.inr rfl
  · rw [tryOrphan_of_not htakes]
    exact Or.inl ⟨rfl, htakes⟩

theorem synced_tryOrphans (hashes : List UInt256) (w : TxWork) :
    w.st.synced.count tx ≤ (hashes.foldl (env.tryOrphan tx) w).st.synced.count tx := by
  induction hashes generalizing w with
  | nil => exact le_rfl
  | cons hash hashes ih =>
      refine le_trans ?_ (ih (env.tryOrphan tx w hash))
      rcases synced_tryOrphan env tx w hash with ⟨heq, -⟩ | heq
      · rw [heq]
      · rw [heq, List.count_append]
        exact Nat.le_add_right _ _

/-- The wallets are told of the received transaction once more for each orphan that is accepted. -/
theorem synced_of_takesIn (h : ∃ hash ∈ hashes, env.TakesIn w.st hash) :
    w.st.synced.count tx + 1 ≤ (hashes.foldl (env.tryOrphan tx) w).st.synced.count tx := by
  induction hashes generalizing w with
  | nil =>
      obtain ⟨hash, hmem, -⟩ := h
      cases hmem
  | cons hash hashes ih =>
      rw [List.foldl_cons]
      rcases synced_tryOrphan env tx w hash with ⟨-, hnot⟩ | heq
      · obtain ⟨k, hmem, htakes⟩ := h
        rcases List.mem_cons.1 hmem with rfl | hmem
        · exact absurd htakes hnot
        · rw [tryOrphan_of_not hnot]
          exact @ih { w with vEraseQueue := w.vEraseQueue ++ if env.turnsDown w.st hash then [hash] else [] }
            ⟨k, hmem, htakes⟩
      · refine le_trans ?_ (synced_tryOrphans hashes _)
        rw [heq, List.count_append, List.count_singleton_self]

theorem tryOrphansOf_eq (env : RelayEnv G) (tx : CTransaction) (w : TxWork) (hash : UInt256) :
    env.tryOrphansOf tx w hash =
      (sortedHashes ((w.st.orphans.mapOrphanTransactionsByPrev hash).getD ∅)).foldl (env.tryOrphan tx) w := by
  rw [tryOrphansOf]
  cases w.st.orphans.mapOrphanTransactionsByPrev hash with
  | none => simp [sortedHashes]
  | some hashes => rfl

/-- What holds of the queue, with the orphans `o`, from the acceptance of `tx` on. -/
structure Working (env : RelayEnv G) (penv : PoolEnv) (tx : CTransaction) (o : OrphanTxs) (w : TxWork) : Prop where
  indexed : w.st.mempool.Indexed penv Set.univ
  orphans : w.st.orphans = o
  taken : w.st.mempool.lookup (env.connect.txHash tx) = some tx
  nodup : w.vWorkQueue.Nodup
  queued : ∀ hash ∈ w.vWorkQueue, w.st.mempool.hasTx hash = true ∧
    (hash = env.connect.txHash tx ∨ hash ∈ o.mapOrphanTransactions)

namespace Working

variable {penv : PoolEnv}

theorem hasTx_of_lookup {pool : CTxMemPool} (h : pool.lookup hash = some tx) : pool.hasTx hash = true := by
  rw [CTxMemPool.hasTx]
  rw [CTxMemPool.lookup] at h
  cases hmap : pool.mapTx hash with
  | none =>
      rw [hmap] at h
      cases h
  | some ptx => rfl

/-- Whatever is accepted is new to the memory pool. -/
theorem indexed_accept {pool : CTxMemPool} (hindexed : pool.Indexed penv Set.univ)
    (hhash : penv.txHash = env.connect.txHash) (h : env.acceptResult s pool x = .accepted) :
    (pool.addUnchecked (env.connect.txHash x) x).Indexed penv Set.univ ∧
      (pool.addUnchecked (env.connect.txHash x) x).lookup =
        Function.update pool.lookup (env.connect.txHash x) (some x) ∧
      pool.hasTx (env.connect.txHash x) = false := by
  obtain ⟨-, -, -, -, hnew, hfree, -⟩ := acceptResult_eq_accepted.1 h
  refine ⟨?_, hindexed.lookup_addUnchecked hnew, hnew⟩
  rw [← hhash] at hnew ⊢
  refine hindexed.addUnchecked (Set.mem_univ x) hnew fun prevout hmem => ?_
  obtain ⟨txin, htxin, rfl⟩ := List.mem_map.1 hmem
  exact hfree txin htxin

theorem tryOrphan (h : env.Working penv tx o w) (hhash : penv.txHash = env.connect.txHash)
    (ho : o.Valid env.connect.txHash) (hash : UInt256) : env.Working penv tx o (env.tryOrphan tx w hash) := by
  rcases Classical.em (env.TakesIn w.st hash) with htakes | htakes
  · obtain ⟨orphanTx, hx, hresult, heq⟩ := @tryOrphan_of_takesIn _ _ env tx _ _ htakes
    rw [h.orphans] at hx
    obtain rfl := ho.keyed hash orphanTx hx
    obtain ⟨hindexed, hlookup, hnew⟩ := indexed_accept h.indexed hhash hresult
    have hne : env.connect.txHash tx ≠ env.connect.txHash orphanTx := by
      intro hsame
      rw [← hsame, hasTx_of_lookup h.taken] at hnew
      cases hnew
    have hhas : (w.st.mempool.addUnchecked (env.connect.txHash orphanTx) orphanTx).hasTx
        (env.connect.txHash orphanTx) = true := CTxMemPool.hasTx_addUnchecked.2 (Or.inl rfl)
    have hkept : ∀ k, w.st.mempool.hasTx k = true →
        (w.st.mempool.addUnchecked (env.connect.txHash orphanTx) orphanTx).hasTx k = true :=
      fun k hk => CTxMemPool.hasTx_addUnchecked.2 (Or.inr hk)
    rw [heq]
    refine ⟨⟨hindexed.index, hindexed.entry, hindexed.fresh, hindexed.known⟩, h.orphans, ?_, ?_, ?_⟩
    · refine Eq.trans (congrFun hlookup _) ?_
      rw [Function.update_of_ne hne]
      exact h.taken
    · refine List.nodup_append.2 ⟨h.nodup, List.nodup_singleton _, fun k hk k' hk' => ?_⟩
      rintro rfl
      rw [List.mem_singleton.1 hk'] at hk
      rw [(h.queued _ hk).1] at hnew
      cases hnew
    · intro k hk
      rcases List.mem_append.1 hk with hk | hk
      · exact ⟨hkept k (h.queued k hk).1, (h.queued k hk).2⟩
      · rw [List.mem_singleton.1 hk]
        exact ⟨hhas,
          Or.inr (AList.lookup_isSome.1 (Option.isSome_iff_exists.2 ⟨orphanTx, hx⟩))⟩
  · rw [tryOrphan_of_not htakes]
    exact ⟨h.indexed, h.orphans, h.taken, h.nodup, h.queued⟩

theorem tryOrphansOf (h : env.Working penv tx o w) (hhash : penv.txHash = env.connect.txHash)
    (ho : o.Valid env.connect.txHash) (hash : UInt256) : env.Working penv tx o (env.tryOrphansOf tx w hash) := by
  rw [tryOrphansOf_eq]
  generalize sortedHashes ((w.st.orphans.mapOrphanTransactionsByPrev hash).getD ∅) = hashes
  induction hashes generalizing w with
  | nil => exact h
  | cons k hashes ih => exact ih (h.tryOrphan hhash ho k)

omit [AddCommGroup G] in
/-- No hash is queued twice, so that the queue is not longer than the orphans and the received transaction. -/
theorem length_le (h : env.Working penv tx o w) : w.vWorkQueue.length ≤ o.size + 1 := by
  have hsub : w.vWorkQueue ⊆ env.connect.txHash tx :: o.mapOrphanTransactions.keys := by
    intro hash hmem
    rcases (h.queued hash hmem).2 with rfl | hheld
    · exact List.mem_cons_self
    · exact List.mem_cons_of_mem _ (AList.mem_keys.1 hheld)
  exact (List.subperm_of_subset h.nodup hsub).length_le

/-- The loop is over after as many rounds as there are hashes to queue. -/
theorem resolveFrom (h : env.Working penv tx o w) (hhash : penv.txHash = env.connect.txHash)
    (ho : o.Valid env.connect.txHash) {fuel i : Nat} (hfuel : o.size + 1 ≤ fuel + i) :
    ∃ w', env.resolveFrom tx fuel i w = some w' ∧ env.Working penv tx o w' ∧
      w.st.synced.count tx ≤ w'.st.synced.count tx := by
  induction fuel generalizing i w with
  | zero =>
      have hnone : w.vWorkQueue[i]? = none := List.getElem?_eq_none (by have := h.length_le; omega)
      rw [RelayEnv.resolveFrom, hnone]
      exact ⟨w, rfl, h, le_rfl⟩
  | succ fuel ih =>
      rw [RelayEnv.resolveFrom]
      cases hi : w.vWorkQueue[i]? with
      | none => exact ⟨w, rfl, h, le_rfl⟩
      | some hash =>
          obtain ⟨w', hrun, hwork, hcount⟩ := ih (h.tryOrphansOf hhash ho hash) (i := i + 1) (by omega)
          refine ⟨w', hrun, hwork, le_trans ?_ hcount⟩
          rw [tryOrphansOf_eq]
          exact synced_tryOrphans _ w

end Working

/-! ## When the handler keeps what resolution promises -/

/-- The queues when the received transaction is announced. -/
def receivedWork (env : RelayEnv G) (st : RelayState) (tx : CTransaction) : TxWork where
  st := env.received st tx
  vWorkQueue := [env.connect.txHash tx]
  vEraseQueue := [env.connect.txHash tx]

/-- The orphans that spend from a transaction, in the order in which they are tried. -/
def childrenOf (env : RelayEnv G) (st : RelayState) (tx : CTransaction) : List UInt256 :=
  sortedHashes ((st.orphans.mapOrphanTransactionsByPrev (env.connect.txHash tx)).getD ∅)

variable {penv : PoolEnv} {getRandHash : Nat → UInt256} {st' : RelayState}

theorem working_received (hpool : st.mempool.Indexed penv Set.univ) (hhash : penv.txHash = env.connect.txHash)
    (haccept : env.acceptResult st.store st.mempool tx = .accepted) :
    env.Working penv tx st.orphans (env.receivedWork st tx) := by
  obtain ⟨hindexed, hlookup, -⟩ := Working.indexed_accept hpool hhash haccept
  refine ⟨⟨hindexed.index, hindexed.entry, hindexed.fresh, hindexed.known⟩, rfl, ?_, List.nodup_singleton _, ?_⟩
  · refine Eq.trans (congrFun hlookup _) ?_
    rw [Function.update_self]
  · intro hash hmem
    rw [List.mem_singleton.1 hmem]
    exact ⟨hasTx_received.2 (Or.inl rfl), Or.inl rfl⟩

omit [AddCommGroup G] in
theorem mem_childrenOf (ho : st.orphans.Valid env.connect.txHash) : hash ∈ env.childrenOf st tx ↔
    ∃ x, st.orphans.mapOrphanTransactions.lookup hash = some x ∧ env.connect.txHash tx ∈ x.prevHashes := by
  rw [childrenOf, mem_sortedHashes, ho.indexes.mem_iff]

theorem processTx_eq (haccept : env.acceptResult st.store st.mempool tx = .accepted) :
    env.processTx getRandHash st tx =
      (env.resolveFrom tx (st.orphans.size + 1) 0 (env.receivedWork st tx)).map fun w =>
        { w.st with orphans := w.vEraseQueue.foldl OrphanTxs.eraseOrphanTx w.st.orphans } := by
  simp only [processTx, acceptToMemoryPool, haccept]
  change (match env.resolveFrom tx (st.orphans.size + 1) 0 (env.receivedWork st tx) with
    | none => none
    | some w => some { w.st with orphans := w.vEraseQueue.foldl OrphanTxs.eraseOrphanTx w.st.orphans }) = _
  cases env.resolveFrom tx (st.orphans.size + 1) 0 (env.receivedWork st tx) with
  | none => rfl
  | some w => rfl

theorem resolveFrom_receivedWork (fuel : Nat) : env.resolveFrom tx (fuel + 1) 0 (env.receivedWork st tx) =
    env.resolveFrom tx fuel 1 ((env.childrenOf st tx).foldl (env.tryOrphan tx) (env.receivedWork st tx)) := by
  rw [resolveFrom]
  exact congrArg (env.resolveFrom tx fuel 1) (tryOrphansOf_eq env tx _ _)

/-- The run in which no orphan is accepted. -/
theorem processTx_of_not (haccept : env.acceptResult st.store st.mempool tx = .accepted)
    (hnot : ∀ hash ∈ env.childrenOf st tx, ¬env.TakesIn (env.received st tx) hash) :
    env.processTx getRandHash st tx = some { env.received st tx with
      orphans := (env.connect.txHash tx ::
        (env.childrenOf st tx).filter (env.turnsDown (env.received st tx))).foldl OrphanTxs.eraseOrphanTx st.orphans } := by
  have hround := @tryOrphans_of_not _ _ env tx (env.receivedWork st tx) (env.childrenOf st tx) hnot
  rw [processTx_eq haccept, resolveFrom_receivedWork, hround, resolveFrom.eq_def]
  rfl

/-- The received transaction is announced for each orphan that is accepted, so that the promise is kept when there is
none, and when each orphan that is in the memory pool already spends from the received transaction. -/
theorem resolves_iff (hpool : st.mempool.Indexed penv Set.univ) (hhash : penv.txHash = env.connect.txHash)
    (ho : st.orphans.Valid env.connect.txHash) (haccept : env.acceptResult st.store st.mempool tx = .accepted) :
    (∃ st', env.processTx getRandHash st tx = some st' ∧ env.Resolves st st') ↔
      (∀ hash x, st.orphans.mapOrphanTransactions.lookup hash = some x → env.connect.txHash tx ∈ x.prevHashes →
        env.acceptResult (env.received st tx).store (env.received st tx).mempool x ≠ .accepted) ∧
      ∀ hash x, st.orphans.mapOrphanTransactions.lookup hash = some x → st.mempool.hasTx hash = true →
        env.connect.txHash tx ∈ x.prevHashes := by
  have hnew : st.mempool.hasTx (env.connect.txHash tx) = false := (acceptResult_eq_accepted.1 haccept).2.2.2.2.1
  have hnotOf : (∀ hash x, st.orphans.mapOrphanTransactions.lookup hash = some x →
      env.connect.txHash tx ∈ x.prevHashes →
        env.acceptResult (env.received st tx).store (env.received st tx).mempool x ≠ .accepted) →
      ∀ hash ∈ env.childrenOf st tx, ¬env.TakesIn (env.received st tx) hash := by
    rintro hnone hash hmem ⟨x, hx, hresult⟩
    obtain ⟨x', hx', hspends⟩ := (mem_childrenOf ho).1 hmem
    obtain rfl := Option.some.inj (hx.symm.trans hx')
    exact hnone hash x hx' hspends hresult
  constructor
  · rintro ⟨st', hrun, h⟩
    have hnone : ∀ hash x, st.orphans.mapOrphanTransactions.lookup hash = some x →
        env.connect.txHash tx ∈ x.prevHashes →
          env.acceptResult (env.received st tx).store (env.received st tx).mempool x ≠ .accepted := by
      intro hash x hx hspends hresult
      rw [processTx_eq haccept, resolveFrom_receivedWork] at hrun
      have hwork := (working_received hpool hhash haccept).tryOrphansOf hhash ho (env.connect.txHash tx)
      rw [tryOrphansOf_eq] at hwork
      obtain ⟨w, hloop, hwork', hlater⟩ := hwork.resolveFrom hhash ho (Nat.le_refl (st.orphans.size + 1))
      have hfirst := @synced_of_takesIn _ _ env tx (env.receivedWork st tx) (env.childrenOf st tx)
        ⟨hash, (mem_childrenOf ho).2 ⟨x, hx, hspends⟩, x, hx, hresult⟩
      have hreceived : (env.receivedWork st tx).st.synced.count tx = st.synced.count tx + 1 := by
        refine (List.count_append).trans ?_
        rw [List.count_singleton_self]
      have hloop' : env.resolveFrom tx st.orphans.size 1
          ((env.childrenOf st tx).foldl (env.tryOrphan tx) (env.receivedWork st tx)) = some w := hloop
      rw [hloop'] at hrun
      obtain rfl := Option.some.inj hrun
      have honce : w.st.synced.count tx = st.synced.count tx + 1 := (h.announced tx hnew hwork'.taken).1
      have htwice : st.synced.count tx + 2 ≤ w.st.synced.count tx := by
        rw [hreceived] at hfirst
        exact hfirst.trans hlater
      omega
    refine ⟨hnone, fun hash x hx hhas => ?_⟩
    rw [processTx_of_not haccept (hnotOf hnone)] at hrun
    obtain rfl := Option.some.inj hrun
    by_contra hspends
    refine h.apart hash (hasTx_received.2 (Or.inr hhas)) (OrphanTxs.mem_eraseAll.2 ⟨?_, fun hmem => ?_⟩)
    · exact AList.lookup_isSome.1 (Option.isSome_iff_exists.2 ⟨x, hx⟩)
    · rcases List.mem_cons.1 hmem with rfl | hmem
      · rw [hnew] at hhas
        cases hhas
      · obtain ⟨x', hx', hspends'⟩ := (mem_childrenOf ho).1 (List.mem_filter.1 hmem).1
        obtain rfl := Option.some.inj (hx.symm.trans hx')
        exact hspends hspends'
  · rintro ⟨hnone, hpast⟩
    refine ⟨_, processTx_of_not haccept (hnotOf hnone), ?_, ?_, ?_⟩
    · intro hash hhas hleft
      obtain ⟨hheld, hkept⟩ := OrphanTxs.mem_eraseAll.1 hleft
      rcases hasTx_received.1 hhas with rfl | hold
      · exact hkept List.mem_cons_self
      · obtain ⟨x, hx⟩ := Option.isSome_iff_exists.1 (AList.lookup_isSome.2 hheld)
        obtain rfl := ho.keyed hash x hx
        refine hkept (List.mem_cons_of_mem _ (List.mem_filter.2 ⟨(mem_childrenOf ho).2 ⟨x, hx, hpast _ x hx hold⟩, ?_⟩))
        have hlookup : (env.received st tx).orphans.mapOrphanTransactions.lookup (env.connect.txHash x) = some x := hx
        rw [turnsDown, hlookup]
        exact decide_eq_true (acceptResult_of_hasTx hhas)
    · intro hash x hx hbefore
      rcases Decidable.em (env.connect.txHash tx ∈ x.prevHashes) with hspends | hspends
      · exact hnone hash x hx hspends
      · exact fun hafter => hbefore (acceptResult_of_received hpool hnew hspends hafter)
    · intro t ht hin
      obtain ⟨-, hlookup, -⟩ := Working.indexed_accept hpool hhash haccept
      rcases hasTx_received.1 (Working.hasTx_of_lookup hin) with heq | hold
      · have htaken : (env.received st tx).mempool.lookup (env.connect.txHash t) = some tx := by
          refine Eq.trans (congrFun hlookup _) ?_
          rw [heq, Function.update_self]
        obtain rfl := Option.some.inj (htaken.symm.trans hin)
        refine ⟨(List.count_append).trans ?_, (List.count_append).trans ?_⟩
        · rw [List.count_singleton_self]
        · rw [List.count_singleton_self]
          rfl
      · rw [ht] at hold
        cases hold

end RelayEnv

/-! ## A parent and a child -/

/-- `OP_DUP OP_HASH160 <20 bytes> OP_EQUALVERIFY OP_CHECKSIG`. -/
def payToKeyScript : CScript := [0x76, 0xa9, 0x14] ++ List.replicate 20 0 ++ [0x88, 0xac]

/-- A transaction that spends the first output of another, with its lock time as its hash. -/
def relayTx (nLockTime : UInt32) (prev : UInt256) (nValue : Int64) : CTransaction where
  nVersion := 1
  nTime := 1000
  vin := [{ prevout := { hash := prev, n := 0 }, scriptSig := [1, 1, 1, 1], nSequence := -1 }]
  vout := [{ nValue, scriptPubKey := payToKeyScript }]
  nLockTime

def parentTx : CTransaction := relayTx 8 7 499990000

def childTx : CTransaction := relayTx 9 8 499980000

/-- A node that has the funding transaction in a block, and finds no fault but with the fee. -/
def relayEnv : RelayEnv (ZMod (2 ^ 256 + 297)) where
  connect := { fundedEnv with
    readTx := fun pos =>
      if pos = fundingPos then some { fundingTx with vout := [{ nValue := 500000000, scriptPubKey := payToKeyScript }] }
      else none }
  isStandard _ := true
  areInputsStandard _ _ := true
  connects tx inputs _ :=
    match tx.getValueIn inputs, tx.getValueOut with
    | some nValueIn, some nValueOut => tx.getMinFee ≤ nValueIn - nValueOut
    | _, _ => false

/-- Nothing is in the memory pool, and these are the orphans. -/
def relayState (orphans : OrphanTxs) : RelayState where
  mempool := .empty
  store := fundedStore
  orphans
  synced := []
  relayed := []

def relayPoolEnv : PoolEnv where
  txHash := relayEnv.connect.txHash
  freed := id

def childOrphaned : OrphanTxs := (OrphanTxs.empty.addOrphanTx relayEnv.connect.txHash childTx).2

theorem resolves_parent : ∃ st', relayEnv.processTx (fun _ => 0) (relayState .empty) parentTx = some st' ∧
    relayEnv.Resolves (relayState .empty) st' :=
  (@RelayEnv.resolves_iff _ _ relayEnv parentTx (relayState .empty) relayPoolEnv (fun _ => 0)
    (.empty relayPoolEnv Set.univ) rfl (.empty _) (by decide +kernel)).2
      ⟨fun _ _ h => (nomatch h), fun _ _ h => (nomatch h)⟩

/-- The wallets are told of the parent twice, and never of the child. -/
theorem child_not_announced : (relayState childOrphaned).mempool.Indexed relayPoolEnv Set.univ ∧
    childOrphaned.Valid relayEnv.connect.txHash ∧
    relayEnv.acceptResult fundedStore .empty parentTx = .accepted ∧
    ¬∃ st', relayEnv.processTx (fun _ => 0) (relayState childOrphaned) parentTx = some st' ∧
      relayEnv.Resolves (relayState childOrphaned) st' := by
  refine ⟨.empty relayPoolEnv Set.univ, (OrphanTxs.Valid.empty _).addOrphanTx childTx, by decide +kernel, ?_⟩
  rintro ⟨st', hrun, h⟩
  have hvalue : (relayEnv.processTx (fun _ => 0) (relayState childOrphaned) parentTx).map
      (fun st' => (st'.mempool.lookup 9, st'.synced)) = some (some childTx, [parentTx, parentTx]) := by
    decide +kernel
  rw [hrun] at hvalue
  obtain ⟨hlookup, hsynced⟩ := Prod.mk.inj (Option.some.inj hvalue)
  have hcount := (h.announced childTx (by decide) hlookup).1
  rw [hsynced] at hcount
  exact absurd hcount (by decide)

end ProCurrency
