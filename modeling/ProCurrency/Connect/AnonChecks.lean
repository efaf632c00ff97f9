import ProCurrency.Connect.KeyImages
import ProCurrency.Pool.TxMemPool
import ProCurrency.Staking.Lemmas.Template

/-!
# Ring inputs are verified before their value is counted

`ConnectInputs` goes on where `CheckAnonInputs` fails. The calls that put a transaction into a block or into the memory
pool have `CheckAnonInputs` answer before.
-/

namespace ProCurrency

namespace ConnectEnv

open CTransaction

variable {G : Type} [AddCommGroup G]

/-- The inputs, ring coins among them, are worth the outputs. -/
def InputsCover (env : ConnectEnv G) (s : ConnectStore) (inputs : MapPrevTx) (tx : CTransaction) : Prop :=
  ∃ nValueIn nValueOut, env.txValueIn s inputs tx = some nValueIn ∧ tx.getValueOut = some nValueOut ∧
    nValueOut ≤ nValueIn

/-- The rings are good, and with them the inputs are worth the outputs. -/
structure AnonVerified (env : ConnectEnv G) (s : ConnectStore) (inputs : MapPrevTx) (tx : CTransaction) : Prop where
  accepted : (env.checkAnonInputs s true tx).1
  covered : env.InputsCover s inputs tx

/-- What `ConnectInputs` asks of a ring transaction besides: its other inputs are to be had, and unless it is a
coinstake the value counted so far pays for its outputs and the fee. -/
def AsksBesides (env : ConnectEnv G) (s : ConnectStore) (inputs : MapPrevTx) (mapTestPool : MapTestPool)
    (posThisTx : CDiskTxPos) (pindexBlock : CBlockIndex) (pprev : List CBlockIndex) (flags : UInt32)
    (tx : CTransaction) : Prop :=
  tx.isCoinBase ∨ ∃ nValueIn, env.checkInputsFrom tx inputs pindexBlock pprev 0 tx.vin = some nValueIn ∧
    (env.spendInputsFrom tx posThisTx flags 0 inputs mapTestPool tx.vin).isSome ∧
      (tx.isCoinStake ∨ env.paysFee tx (nValueIn + (env.checkAnonInputs s true tx).2))

variable {env : ConnectEnv G} {s : ConnectStore} {tx : CTransaction} {inputs : MapPrevTx} {mapTestPool : MapTestPool}
  {posThisTx : CDiskTxPos} {pindexBlock : CBlockIndex} {pprev : List CBlockIndex} {flags : UInt32}

/-! ## What is asked -/

theorem connectInputs_isSome_iff (hanon : tx.nVersion == ANON_TXN_VERSION) :
    (env.connectInputs s inputs mapTestPool posThisTx pindexBlock pprev flags tx).isSome ↔
      env.AsksBesides s inputs mapTestPool posThisTx pindexBlock pprev flags tx := by
  rw [connectInputs, AsksBesides]
  cases hcb : tx.isCoinBase with
  | true => simp
  | false =>
      simp only [Bool.false_eq_true, if_false, false_or]
      cases hcheck : env.checkInputsFrom tx inputs pindexBlock pprev 0 tx.vin with
      | none => simp
      | some nValueIn =>
          cases hspend : env.spendInputsFrom tx posThisTx flags 0 inputs mapTestPool tx.vin with
          | none => simp
          | some mapTestPool' =>
              cases hstake : tx.isCoinStake with
              | true => simp
              | false =>
                  cases hpays : env.paysFee tx (nValueIn + (env.checkAnonInputs s true tx).2) with
                  | true => simp [hanon, hpays]
                  | false => simp [hanon, hpays]

omit [AddCommGroup G] in
/-- The sum of the first loop is what `GetValueIn` gives. -/
theorem valueInFrom_of_checkInputsFrom {vin : List CTxIn} {n r : Int64}
    (h : env.checkInputsFrom tx inputs pindexBlock pprev n vin = some r) : tx.valueInFrom inputs n vin = some r := by
  induction vin generalizing n with
  | nil => exact h
  | cons txin vin ih =>
      rw [checkInputsFrom] at h
      rw [valueInFrom]
      split_ifs at h ⊢ with hanon
      · exact ih h
      · rw [getOutputFor]
        split at h
        · cases h
        · split at h
          · cases h
          · simp only at h
            split_ifs at h
            exact ih h

theorem txValueIn_of_accepted (hanon : tx.nVersion == ANON_TXN_VERSION) (hcb : tx.isCoinBase = false) {nValueIn : Int64}
    (hcheck : env.checkInputsFrom tx inputs pindexBlock pprev 0 tx.vin = some nValueIn)
    (haccepted : (env.checkAnonInputs s true tx).1) :
    env.txValueIn s inputs tx = some (nValueIn + (env.checkAnonInputs s true tx).2) := by
  have hvalue : tx.getValueIn inputs = some nValueIn := by
    rw [getValueIn, if_neg (by simp [hcb])]
    exact valueInFrom_of_checkInputsFrom hcheck
  rw [txValueIn, hvalue]
  dsimp only
  rw [if_pos hanon]
  rcases hrings : env.checkAnonInputs s true tx with ⟨fOk, nSumAnon⟩
  rw [hrings] at haccepted
  cases haccepted
  rfl

omit [AddCommGroup G] in
theorem valueOut_le_of_paysFee {nValueIn : Int64} (h : env.paysFee tx nValueIn = true) :
    ∃ nValueOut, tx.getValueOut = some nValueOut ∧ nValueOut ≤ nValueIn := by
  obtain ⟨nValueOut, hout, hle⟩ := paysFee_spec h
  exact ⟨nValueOut, hout, Int64.le_iff_toInt_le.2 hle⟩

/-- Where all that is asked besides is met, the answer rests on the rings alone, and for a transaction that mints on
its outputs. -/
theorem anonVerified_iff (hanon : tx.nVersion == ANON_TXN_VERSION) :
    ((env.connectInputs s inputs mapTestPool posThisTx pindexBlock pprev flags tx).isSome →
        env.AnonVerified s inputs tx) ↔
      (env.AsksBesides s inputs mapTestPool posThisTx pindexBlock pprev flags tx →
        (env.checkAnonInputs s true tx).1 ∧ (tx.isCoinBase ∨ tx.isCoinStake → env.InputsCover s inputs tx)) := by
  rw [connectInputs_isSome_iff hanon]
  constructor
  · intro h hasks
    have hverified := h hasks
    exact ⟨hverified.accepted, fun _ => hverified.covered⟩
  · intro h hasks
    obtain ⟨haccepted, hmints⟩ := h hasks
    refine ⟨haccepted, ?_⟩
    rcases hcb : tx.isCoinBase with _ | _
    · obtain hcb' | ⟨nValueIn, hcheck, _, hstake | hpays⟩ := hasks
      · rw [hcb] at hcb'
        cases hcb'
      · exact hmints (.inr hstake)
      · obtain ⟨nValueOut, hout, hle⟩ := valueOut_le_of_paysFee hpays
        exact ⟨_, nValueOut, txValueIn_of_accepted hanon hcb hcheck haccepted, hout, hle⟩
    · exact hmints (.inl hcb)

/-! ## The callers -/

theorem accepted_of_txValueIn {nValueIn : Int64} (hanon : tx.nVersion == ANON_TXN_VERSION)
    (h : env.txValueIn s inputs tx = some nValueIn) : (env.checkAnonInputs s true tx).1 := by
  rw [txValueIn] at h
  cases hvalue : tx.getValueIn inputs with
  | none => simp [hvalue] at h
  | some nTxValueIn =>
      simp only [hvalue, hanon, if_true] at h
      rcases hrings : env.checkAnonInputs s true tx with ⟨_ | _, nSumAnon⟩
      · simp [hrings] at h
      · rfl

/-- `ConnectBlock` has `CheckAnonInputs` answer for each ring transaction. -/
theorem accepted_of_connectTx {pindex : CBlockIndex} {fJustCheck : Bool} {t t' : BlockTotals}
    (hanon : tx.nVersion == ANON_TXN_VERSION) (hcb : tx.isCoinBase = false)
    (h : env.connectTx s pindex pprev fJustCheck t tx = some t') : (env.checkAnonInputs s true tx).1 := by
  obtain ⟨inputs, v, _, _, _, _, hvalue, _⟩ := connectTx_spec hcb h
  exact accepted_of_txValueIn hanon hvalue

/-- `AcceptToMemoryPool` has it answer for each ring transaction. -/
theorem accepted_of_accepts {answers : AcceptAnswers} {pool : CTxMemPool} (hanon : tx.nVersion == ANON_TXN_VERSION)
    (hfull : env.fFull = true) (h : pool.accepts env s answers tx = true) :
    ((pool.nodeWith env).checkAnonInputs (pool.storeWith s) true tx).1 := by
  rw [CTxMemPool.accepts] at h
  cases hcheck : ((pool.nodeWith env).checkAnonInputs (pool.storeWith s) true tx).1 with
  | true => rfl
  | false =>
      rw [hfull, hanon, hcheck] at h
      simp at h

end ConnectEnv

namespace MinerEnv

variable {G D : Type} [AddCommGroup G] {m : MinerEnv G D} {s : ConnectStore} {tx : CTransaction}

/-- A ring transaction passes the check of its rings. -/
def Accepted (m : MinerEnv G D) (s : ConnectStore) (tx : CTransaction) : Prop :=
  tx.nVersion == ANON_TXN_VERSION → (m.connect.checkAnonInputs s true tx).1

/-- The check of the rings of an entry is done where its fee is set. -/
def EntriesChecked (m : MinerEnv G D) (s : ConnectStore) (entries : List (TxPriority D)) : Prop :=
  ∀ entry ∈ entries, entry.nFee ≠ 0 → m.Accepted s entry.ptx

theorem EntriesChecked.append {entries entries' : List (TxPriority D)} (h : m.EntriesChecked s entries)
    (h' : m.EntriesChecked s entries') : m.EntriesChecked s (entries ++ entries') := by
  intro entry hentry
  rcases List.mem_append.1 hentry with hentry | hentry
  · exact h entry hentry
  · exact h' entry hentry

theorem accepted_of_scanAnon {nSumAnon : Int64} (h : m.scanAnon s tx = some nSumAnon) : m.Accepted s tx := by
  intro hanon
  rw [scanAnon, if_pos hanon] at h
  rcases hcheck : m.connect.checkAnonInputs s false tx with ⟨_ | _, n⟩
  · simp [hcheck] at h
  · rw [ConnectEnv.checkAnonInputs_of_strict hcheck]

theorem scanTx_checked {i : Nat} {scan scan' : PoolScan D} (hscan : m.EntriesChecked s scan.vecPriority)
    (h : m.scanTx s i tx scan = some scan') : m.EntriesChecked s scan'.vecPriority := by
  rw [scanTx] at h
  split at h
  · cases h
    exact hscan
  · cases hin : m.scanInputs s tx ⟨none, [], m.double.ofInt 0, 0, false⟩ tx.vin with
    | none => simp [hin] at h
    | some inputs =>
        simp only [hin] at h
        split at h
        · cases h
          exact hscan
        · cases hanon : m.scanAnon s tx with
          | none =>
              simp only [hanon] at h
              cases h
              exact hscan
          | some nSumAnon =>
              simp only [hanon] at h
              cases hout : tx.getValueOut with
              | none => simp [hout] at h
              | some nValueOut =>
                  simp only [hout] at h
                  split at h
                  · cases h
                    exact hscan
                  · cases h
                    refine hscan.append fun entry hentry _ => ?_
                    obtain rfl := List.mem_singleton.1 hentry
                    exact accepted_of_scanAnon hanon

theorem scanPool_checked {i : Nat} {scan scan' : PoolScan D} {mapTx : List CTransaction}
    (hscan : m.EntriesChecked s scan.vecPriority) (h : m.scanPool s i scan mapTx = some scan') :
    m.EntriesChecked s scan'.vecPriority := by
  induction mapTx generalizing i scan with
  | nil =>
      cases h
      exact hscan
  | cons tx mapTx ih =>
      rw [scanPool] at h
      cases htx : m.scanTx s i tx scan with
      | none => simp [htx] at h
      | some scan₁ =>
          rw [htx] at h
          exact ih (scanTx_checked hscan htx) h

/-- An orphan comes to the queue without a fee. -/
theorem releaseOrphans_checked {hash : UInt256} {vOrphan vOrphan' : List (Nat × COrphan D)}
    {vecPriority vecPriority' : List (TxPriority D)} {is : List Nat} (hqueue : m.EntriesChecked s vecPriority)
    (h : releaseOrphans hash vOrphan vecPriority is = some (vOrphan', vecPriority')) :
    m.EntriesChecked s vecPriority' := by
  induction is generalizing vOrphan vecPriority with
  | nil =>
      cases h
      exact hqueue
  | cons i is ih =>
      rw [releaseOrphans] at h
      cases hlookup : vOrphan.lookup i with
      | none => simp [hlookup] at h
      | some orphan =>
          simp only [hlookup] at h
          split_ifs at h
          · exact ih hqueue h
          · refine ih (hqueue.append fun entry hentry hfee => ?_) h
            obtain rfl := List.mem_singleton.1 hentry
            exact absurd rfl hfee
          · exact ih hqueue h

theorem accepted_of_entryFee {inputs : MapPrevTx} {entry : TxPriority D} {nFee : Int64}
    (hentry : entry.nFee ≠ 0 → m.Accepted s entry.ptx) (h : m.entryFee s inputs entry = some (some nFee)) :
    m.Accepted s entry.ptx := by
  rw [entryFee] at h
  split at h
  · cases hvalue : entry.ptx.getValueIn inputs with
    | none => simp [hvalue] at h
    | some nValueIn =>
        cases hout : entry.ptx.getValueOut with
        | none => simp [hvalue, hout] at h
        | some nValueOut =>
            simp only [hvalue, hout, Option.some.injEq] at h
            obtain ⟨nSumAnon, hanon, _⟩ := Option.map_eq_some_iff.1 h
            exact accepted_of_scanAnon hanon
  · rename_i hset
    exact hentry hset

/-- What the loop that fills the block keeps of the checks. -/
structure AssemblyChecked (m : MinerEnv G D) (s : ConnectStore) (a : Assembly D) : Prop where
  queue : m.EntriesChecked s a.vecPriority
  block : ∀ tx ∈ a.vtx, m.Accepted s tx

theorem takeEntry_checked {pindexPrev : CBlockIndex} {pprev : List CBlockIndex} {nCoinbaseTime : UInt32}
    {mapDependers : UInt256 → List Nat} {a a' : Assembly D} {entry : TxPriority D} (ha : m.AssemblyChecked s a)
    (hentry : entry.nFee ≠ 0 → m.Accepted s entry.ptx)
    (h : m.takeEntry s pindexPrev pprev nCoinbaseTime mapDependers a entry = some a') : m.AssemblyChecked s a' := by
  rcases takeEntry_cases h with ⟨fSortedByFee, rfl⟩ | ⟨inputs, nFee, _, mapTestPool, _, _, hfee, _, _, _, _, hadd⟩
  · exact ⟨ha.queue, ha.block⟩
  · rw [addTx] at hadd
    simp only at hadd
    split at hadd
    · cases hadd
    · rename_i hrelease
      cases hadd
      refine ⟨releaseOrphans_checked ha.queue hrelease, fun tx htx => ?_⟩
      rcases List.mem_append.1 htx with htx | htx
      · exact ha.block tx htx
      · obtain rfl := List.mem_singleton.1 htx
        exact accepted_of_entryFee hentry hfee

theorem fillBlock_checked {pindexPrev : CBlockIndex} {pprev : List CBlockIndex} {nCoinbaseTime : UInt32}
    {mapDependers : UInt256 → List Nat} {rounds : Nat} {a a' : Assembly D} (ha : m.AssemblyChecked s a)
    (h : m.fillBlock s pindexPrev pprev nCoinbaseTime mapDependers rounds a = some a') : m.AssemblyChecked s a' := by
  refine fillBlock_keeps (fun a entry vecPriority a' ha hpop htake => ?_) ha h
  have hrest : m.AssemblyChecked s { a with vecPriority } :=
    ⟨fun e he => ha.queue e (mem_popHeap hpop (.inr he)), ha.block⟩
  exact takeEntry_checked hrest (ha.queue entry (mem_popHeap hpop (.inl rfl))) htake

/-- `CreateNewBlock` has it answer for each ring transaction that it takes. -/
theorem accepted_of_createNewBlock {pindexPrev : CBlockIndex} {pprev : List CBlockIndex} {mapTx : List CTransaction}
    {block : CBlock} {nFees : Int64} (h : m.createNewBlock s pindexPrev pprev mapTx = some (block, nFees)) :
    ∀ tx ∈ block.vtx.tail, m.Accepted s tx := by
  obtain ⟨scan, a, hscan, hfill, hvtx, _⟩ := createNewBlock_some h
  rw [hvtx, List.tail_cons]
  have hstart : m.EntriesChecked s (⟨[], fun _ => [], []⟩ : PoolScan D).vecPriority :=
    fun _ hentry => absurd hentry List.not_mem_nil
  have hqueue := scanPool_checked hstart hscan
  exact (fillBlock_checked ⟨hqueue, fun _ htx => absurd htx List.not_mem_nil⟩ hfill).block

end MinerEnv

/-! ## Failures go unreported -/

theorem connectInputs_verifies_anon {G : Type} [AddCommGroup G] (env : ConnectEnv G) (s : ConnectStore)
    (tx : CTransaction) (hanon : tx.nVersion == ANON_TXN_VERSION) :
    (∀ inputs mapTestPool posThisTx pindexBlock pprev flags,
      ((env.connectInputs s inputs mapTestPool posThisTx pindexBlock pprev flags tx).isSome →
          env.AnonVerified s inputs tx) ↔
        (env.AsksBesides s inputs mapTestPool posThisTx pindexBlock pprev flags tx →
          (env.checkAnonInputs s true tx).1 ∧ (tx.isCoinBase ∨ tx.isCoinStake → env.InputsCover s inputs tx))) ∧
      (∀ pindex pprev fJustCheck t t', tx.isCoinBase = false →
        env.connectTx s pindex pprev fJustCheck t tx = some t' → (env.checkAnonInputs s true tx).1) ∧
      (∀ answers (pool : CTxMemPool), env.fFull = true → pool.accepts env s answers tx = true →
        ((pool.nodeWith env).checkAnonInputs (pool.storeWith s) true tx).1) ∧
      ∀ (D : Type) (m : MinerEnv G D) pindexPrev pprev mapTx block nFees, m.connect = env →
        m.createNewBlock s pindexPrev pprev mapTx = some (block, nFees) → tx ∈ block.vtx.tail →
          (env.checkAnonInputs s true tx).1 := by
  refine ⟨fun _ _ _ _ _ _ => ConnectEnv.anonVerified_iff hanon, fun _ _ _ _ _ hcb h => ?_, fun _ _ hfull h => ?_, ?_⟩
  · exact ConnectEnv.accepted_of_connectTx hanon hcb h
  · exact ConnectEnv.accepted_of_accepts hanon hfull h
  · rintro D m pindexPrev pprev mapTx block nFees rfl h htx
    exact MinerEnv.accepted_of_createNewBlock h tx htx hanon

theorem connectInputs_verifies_ringTx :
    (ringEnv.connectInputs ringStore (fun _ => none) (fun _ => none) fundingPos secondIndex [{ nHeight := 1 }] 0
        (ringTx 3)).isSome = true ∧
      ((ringEnv.connectInputs ringStore (fun _ => none) (fun _ => none) fundingPos secondIndex [{ nHeight := 1 }] 0
          (ringTx 3)).isSome → ringEnv.AnonVerified ringStore (fun _ => none) (ringTx 3)) := by
  refine ⟨by decide +kernel, ?_⟩
  refine ((connectInputs_verifies_anon ringEnv ringStore (ringTx 3) rfl).1 _ _ _ _ _ _).2 fun _ => ⟨?_, ?_⟩
  · decide +kernel
  · rintro (h | h) <;> exact absurd h (by decide)

/-- An open coin that pays for the outputs, and a ring input whose ring coin does not exist. -/
def unbackedRingTx : CTransaction :=
  { ringTx 3 with vin := { prevout := { hash := 7, n := 0 }, scriptSig := [], nSequence := 0 } :: (ringTx 3).vin }

/-- The failing check of the ring is reported as success. -/
theorem connectInputs_unbackedRingTx :
    let inputs : MapPrevTx := fun hash => if hash = 7 then some (.new fundingPos 2, fundingTx) else none
    (ringEnv.connectInputs fundedStore inputs (fun _ => none) fundingPos secondIndex [{ nHeight := 1 }] 0
        unbackedRingTx).isSome = true ∧
      (ringEnv.checkAnonInputs fundedStore true unbackedRingTx).1 = false ∧
      ¬((ringEnv.connectInputs fundedStore inputs (fun _ => none) fundingPos secondIndex [{ nHeight := 1 }] 0
          unbackedRingTx).isSome → ringEnv.AnonVerified fundedStore inputs unbackedRingTx) := by
  have hconnects : (ringEnv.connectInputs fundedStore
      (fun hash => if hash = 7 then some (.new fundingPos 2, fundingTx) else none) (fun _ => none) fundingPos
      secondIndex [{ nHeight := 1 }] 0 unbackedRingTx).isSome = true := by decide +kernel
  have hfails : (ringEnv.checkAnonInputs fundedStore true unbackedRingTx).1 = false := by decide +kernel
  refine ⟨hconnects, hfails, fun h => ?_⟩
  have haccepted := (h hconnects).accepted
  rw [hfails] at haccepted
  cases haccepted

end ProCurrency
