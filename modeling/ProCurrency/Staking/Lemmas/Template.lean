import ProCurrency.Staking.Lemmas.Known
import ProCurrency.Staking.Template

/-!
# The fees of a block template

Every transaction that `CreateNewBlock` takes pays the fee that is counted for it, which is the least fee at least.
-/

namespace ProCurrency

open CTransaction

namespace ConnectEnv

variable {G : Type} [AddCommGroup G] {env : ConnectEnv G} {s : ConnectStore} {tx : CTransaction}

/-! ## Ring coins -/

theorem checkAnonInput_of_strict {preimage txnHash : UInt256} {txin : CTxIn} {nCoinValue : Int64}
    (h : env.checkAnonInput s false preimage txnHash txin = some nCoinValue) :
    env.checkAnonInput s true preimage txnHash txin = some nCoinValue := by
  rw [checkAnonInput] at h ⊢
  simp only at h ⊢
  cases hspendable : env.keyImageSpendable s false txnHash txin.extractKeyImage with
  | false => simp [hspendable] at h
  | true =>
      have hspendable' : env.keyImageSpendable s true txnHash txin.extractKeyImage = true := by
        rw [keyImageSpendable] at hspendable ⊢
        split at hspendable
        · rfl
        · rw [Bool.false_and, Bool.or_false] at hspendable
          simp only [hspendable, Bool.true_or]
      rw [hspendable] at h
      rw [hspendable']
      exact h

/-- What `CheckAnonInputs` counts does not depend on `fCheckExists`, where it answers without. -/
theorem checkAnonInputs_of_strict {r : Int64} (h : env.checkAnonInputs s false tx = (true, r)) :
    env.checkAnonInputs s true tx = (true, r) := by
  have hfrom : ∀ (preimage txnHash : UInt256) (vin : List CTxIn) (n : Int64),
      env.checkAnonInputsFrom s false preimage txnHash n vin = (true, r) →
        env.checkAnonInputsFrom s true preimage txnHash n vin = (true, r) := by
    intro preimage txnHash vin
    induction vin with
    | nil => exact fun n h => h
    | cons txin vin ih =>
        intro n h
        rw [checkAnonInputsFrom] at h ⊢
        split at h
        · rename_i hanon
          rw [if_pos hanon]
          exact ih n h
        · rename_i hanon
          rw [if_neg hanon]
          cases hin : env.checkAnonInput s false preimage txnHash txin with
          | none => simp [hin] at h
          | some nCoinValue =>
              rw [hin] at h
              rw [checkAnonInput_of_strict hin]
              exact ih _ h
  rw [checkAnonInputs] at h ⊢
  cases hpre : env.getTxnPreImage tx with
  | none => simp [hpre] at h
  | some preimage =>
      rw [hpre] at h
      exact hfrom preimage _ tx.vin 0 h

end ConnectEnv

variable {G D : Type} [AddCommGroup G]

/-- A transaction of a block template. -/
structure Paying (env : ConnectEnv G) (s : ConnectStore) (known : KnownTxs) (tx : CTransaction) : Prop where
  notCoinBase : tx.isCoinBase = false
  notCoinStake : tx.isCoinStake = false
  fee : ∃ nFee, env.feeOf s known tx = some nFee ∧ tx.getMinFee ≤ nFee

namespace MinerEnv

variable {m : MinerEnv G D} {s : ConnectStore} {known : KnownTxs} {tx : CTransaction}

theorem txValueIn_of_scanAnon {inputs : MapPrevTx} {nValueIn nSumAnon : Int64}
    (hin : tx.getValueIn inputs = some nValueIn) (h : m.scanAnon s tx = some nSumAnon) :
    m.connect.txValueIn s inputs tx = some (nValueIn + nSumAnon) := by
  rw [scanAnon] at h
  rw [ConnectEnv.txValueIn, hin]
  split at h
  · rename_i hanon
    simp only [hanon, if_true]
    rcases hcheck : m.connect.checkAnonInputs s false tx with ⟨_ | _, n⟩
    · simp [hcheck] at h
    · rw [hcheck] at h
      cases h
      rw [ConnectEnv.checkAnonInputs_of_strict hcheck]
  · rename_i hanon
    cases h
    simp only [hanon, Bool.false_eq_true, if_false, Int64.add_zero]

/-! ## The pool -/

/-- An entry of the queue: its fee is known where it is set. -/
structure EntryOk (env : ConnectEnv G) (s : ConnectStore) (known : KnownTxs) (entry : TxPriority D) : Prop where
  notCoinBase : entry.ptx.isCoinBase = false
  notCoinStake : entry.ptx.isCoinStake = false
  fee : entry.nFee ≠ 0 → env.feeOf s known entry.ptx = some entry.nFee

def Plain (orphan : COrphan D) : Prop := orphan.ptx.isCoinBase = false ∧ orphan.ptx.isCoinStake = false

/-- What the loop over the pool keeps of its orphans and its queue. -/
structure QueueOk (env : ConnectEnv G) (s : ConnectStore) (known : KnownTxs) (vOrphan : List (Nat × COrphan D))
    (vecPriority : List (TxPriority D)) : Prop where
  orphans : ∀ p ∈ vOrphan, Plain p.2
  entries : ∀ entry ∈ vecPriority, EntryOk env s known entry

omit [AddCommGroup G] in
theorem getOutputFor_of_readPrev (hs : m.connect.Knows s known) {txin : CTxIn} {txindex : CTxIndex} {txout : CTxOut}
    (h : m.connect.readPrev s txin.prevout = some (txindex, txout)) :
    getOutputFor txin (knownInputs known) = some txout := by
  rw [ConnectEnv.readPrev] at h
  cases hindex : s.txIndex txin.prevout.hash with
  | none => simp [hindex] at h
  | some txindex' =>
      simp only [hindex] at h
      cases hread : m.connect.readTx txindex'.pos with
      | none => simp [hread] at h
      | some txPrev =>
          simp only [hread] at h
          obtain ⟨txout', hout, heq⟩ := Option.map_eq_some_iff.1 h
          cases heq
          rw [getOutputFor, knownInputs, hs.disk _ _ _ hindex hread]
          exact hout

omit [AddCommGroup G] in
/-- A transaction that waits for no other has its inputs summed up. -/
theorem scanInputs_spec (hs : m.connect.Knows s known) {scan scan' : InputScan D} {vin : List CTxIn}
    (h : m.scanInputs s tx scan vin = some scan') (hfound : scan'.fMissingInputs = false) :
    (scan'.porphan = none → scan.porphan = none ∧
      tx.valueInFrom (knownInputs known) scan.nTotalIn vin = some scan'.nTotalIn) := by
  induction vin generalizing scan with
  | nil =>
      cases h
      exact fun horphan => ⟨horphan, rfl⟩
  | cons txin vin ih =>
      intro horphan
      rw [scanInputs] at h
      rw [valueInFrom]
      split at h
      · rename_i hanon
        rw [if_pos hanon]
        exact ih h horphan
      · rename_i hanon
        rw [if_neg hanon]
        cases hread : m.connect.readPrev s txin.prevout with
        | none =>
            simp only [hread] at h
            cases hpool : m.connect.mempoolTx txin.prevout.hash with
            | none =>
                simp only [hpool] at h
                cases h
                cases hfound
            | some txPrev =>
                simp only [hpool] at h
                cases hout : txPrev.vout[txin.prevout.n.toNat]? with
                | none => simp [hout] at h
                | some txout =>
                    simp only [hout] at h
                    cases (ih h horphan).1
        | some prev =>
            obtain ⟨txindex, txout⟩ := prev
            simp only [hread] at h
            rw [getOutputFor_of_readPrev hs hread]
            exact ih h horphan

theorem scanTx_ok (hs : m.connect.Knows s known) {i : Nat} {scan scan' : PoolScan D}
    (hscan : QueueOk m.connect s known scan.vOrphan scan.vecPriority) (h : m.scanTx s i tx scan = some scan') :
    QueueOk m.connect s known scan'.vOrphan scan'.vecPriority := by
  rw [scanTx] at h
  split at h
  · cases h
    exact hscan
  · rename_i hskip
    have hplain : tx.isCoinBase = false ∧ tx.isCoinStake = false := by
      rw [Bool.or_eq_true, Bool.or_eq_true, not_or, not_or] at hskip
      exact ⟨Bool.not_eq_true _ ▸ hskip.1.1, Bool.not_eq_true _ ▸ hskip.1.2⟩
    cases hin : m.scanInputs s tx ⟨none, [], m.double.ofInt 0, 0, false⟩ tx.vin with
    | none => simp [hin] at h
    | some inputs =>
        simp only [hin] at h
        have horphans : ∀ dPriority dFeePerKb, ∀ p ∈ addOrphan scan.vOrphan i tx inputs.porphan dPriority dFeePerKb,
            Plain p.2 := by
          intro dPriority dFeePerKb p hp
          unfold addOrphan at hp
          split at hp
          · exact hscan.orphans p hp
          · rcases List.mem_append.1 hp with hp | hp
            · exact hscan.orphans p hp
            · obtain rfl := List.mem_singleton.1 hp
              exact hplain
        split at h
        · cases h
          exact hscan
        · rename_i hfound
          cases hanon : m.scanAnon s tx with
          | none =>
              simp only [hanon] at h
              cases h
              exact ⟨horphans _ _, hscan.entries⟩
          | some nSumAnon =>
              simp only [hanon] at h
              cases hout : tx.getValueOut with
              | none => simp [hout] at h
              | some nValueOut =>
                  simp only [hout] at h
                  cases horphan : inputs.porphan with
                  | some setDependsOn =>
                      rw [horphan] at h
                      cases h
                      exact ⟨horphan ▸ horphans _ _, hscan.entries⟩
                  | none =>
                      rw [horphan] at h
                      cases h
                      refine ⟨hscan.orphans, fun entry hentry => ?_⟩
                      rcases List.mem_append.1 hentry with hentry | hentry
                      · exact hscan.entries entry hentry
                      · obtain rfl := List.mem_singleton.1 hentry
                        refine ⟨hplain.1, hplain.2, fun _ => ?_⟩
                        have hvalue : tx.getValueIn (knownInputs known) = some inputs.nTotalIn := by
                          rw [getValueIn, if_neg (by rw [hplain.1]; exact Bool.false_ne_true)]
                          exact (scanInputs_spec hs hin (Bool.not_eq_true _ ▸ hfound) horphan).2
                        exact ConnectEnv.feeOf_eq (txValueIn_of_scanAnon hvalue hanon) hout

theorem scanPool_ok (hs : m.connect.Knows s known) {i : Nat} {scan scan' : PoolScan D} {mapTx : List CTransaction}
    (hscan : QueueOk m.connect s known scan.vOrphan scan.vecPriority) (h : m.scanPool s i scan mapTx = some scan') :
    QueueOk m.connect s known scan'.vOrphan scan'.vecPriority := by
  induction mapTx generalizing i scan with
  | nil =>
      cases h
      exact hscan
  | cons tx mapTx ih =>
      rw [scanPool] at h
      cases htx : m.scanTx s i tx scan with
      | none => simp [htx] at h
      | some scan₁ =>
          rw [htx] at h
          exact ih (scanTx_ok hs hscan htx) h

/-! ## Releasing orphans -/

omit [AddCommGroup G] in
theorem setOrphan_plain {i : Nat} {orphan : COrphan D} {vOrphan : List (Nat × COrphan D)} (horphan : Plain orphan)
    (h : ∀ p ∈ vOrphan, Plain p.2) : ∀ p ∈ setOrphan i orphan vOrphan, Plain p.2 := by
  induction vOrphan with
  | nil => exact h
  | cons q vOrphan ih =>
      obtain ⟨hq, hrest⟩ := List.forall_mem_cons.1 h
      rw [setOrphan]
      split
      · exact List.forall_mem_cons.2 ⟨horphan, hrest⟩
      · exact List.forall_mem_cons.2 ⟨hq, ih hrest⟩

omit [AddCommGroup G] in
theorem mem_of_lookup {i : Nat} {orphan : COrphan D} {vOrphan : List (Nat × COrphan D)}
    (h : vOrphan.lookup i = some orphan) : (i, orphan) ∈ vOrphan := by
  obtain ⟨pre, post, rfl, _⟩ := List.lookup_eq_some_iff.1 h
  exact List.mem_append_right _ List.mem_cons_self

theorem releaseOrphans_ok {hash : UInt256} {vOrphan vOrphan' : List (Nat × COrphan D)}
    {vecPriority vecPriority' : List (TxPriority D)} {is : List Nat}
    (hqueue : QueueOk m.connect s known vOrphan vecPriority)
    (h : releaseOrphans hash vOrphan vecPriority is = some (vOrphan', vecPriority')) :
    QueueOk m.connect s known vOrphan' vecPriority' := by
  induction is generalizing vOrphan vecPriority with
  | nil =>
      cases h
      exact hqueue
  | cons i is ih =>
      rw [releaseOrphans] at h
      cases hlookup : vOrphan.lookup i with
      | none => simp [hlookup] at h
      | some orphan =>
          simp only [hlookup] at h
          have hplain : Plain orphan := hqueue.orphans _ (mem_of_lookup hlookup)
          have hset := @setOrphan_plain D i { orphan with setDependsOn := orphan.setDependsOn.erase hash } vOrphan
            hplain hqueue.orphans
          split at h
          · exact ih hqueue h
          · split at h
            · refine ih ⟨hset, fun entry hentry => ?_⟩ h
              rcases List.mem_append.1 hentry with hentry | hentry
              · exact hqueue.entries entry hentry
              · obtain rfl := List.mem_singleton.1 hentry
                exact ⟨hplain.1, hplain.2, fun hzero => absurd rfl hzero⟩
            · exact ih ⟨hset, hqueue.entries⟩ h

omit [AddCommGroup G] in
/-- The front of the heap and the rest are the entries of it. -/
theorem mem_popHeap {double : DoubleOps D} {byFee : Bool} {es rest : List (TxPriority D)} {front : TxPriority D}
    (h : popHeap double byFee es = some (front, rest)) {e : TxPriority D} (he : e = front ∨ e ∈ rest) : e ∈ es := by
  induction es generalizing front rest with
  | nil => cases h
  | cons e' es ih =>
      rw [popHeap] at h
      cases hpop : popHeap double byFee es with
      | none =>
          rw [hpop] at h
          cases h
          rcases he with rfl | he
          · exact List.mem_cons_self
          · cases he
      | some r =>
          obtain ⟨front', rest'⟩ := r
          simp only [hpop] at h
          split at h
          · cases h
            rcases he with rfl | he
            · exact List.mem_cons_of_mem _ (ih hpop (.inl rfl))
            · rcases List.mem_cons.1 he with rfl | he
              · exact List.mem_cons_self
              · exact List.mem_cons_of_mem _ (ih hpop (.inr he))
          · cases h
            rcases he with rfl | he
            · exact List.mem_cons_self
            · rcases List.mem_cons.1 he with rfl | he
              · exact List.mem_cons_of_mem _ (ih hpop (.inl rfl))
              · exact List.mem_cons_of_mem _ (ih hpop (.inr he))

/-! ## Filling the block -/

/-- What the loop that fills the block keeps. -/
structure Assembled (env : ConnectEnv G) (s : ConnectStore) (known : KnownTxs) (a : Assembly D) : Prop where
  queue : QueueOk env s known a.vOrphan a.vecPriority
  backed : env.Backed known a.mapTestPool
  paying : ∀ tx ∈ a.vtx, Paying env s known tx
  fees : a.nFees = Int64.ofInt (env.feesOf s known a.vtx)

theorem entryFee_spec {inputs : MapPrevTx} {entry : TxPriority D} {nFee : Int64}
    (hentry : EntryOk m.connect s known entry) (hin : m.connect.Fetched known inputs)
    (h : m.entryFee s inputs entry = some (some nFee)) : m.connect.feeOf s known entry.ptx = some nFee := by
  rw [entryFee] at h
  split at h
  · cases hvalue : entry.ptx.getValueIn inputs with
    | none => simp [hvalue] at h
    | some nValueIn =>
        cases hout : entry.ptx.getValueOut with
        | none => simp [hvalue, hout] at h
        | some nValueOut =>
            simp only [hvalue, hout, Option.some.injEq] at h
            obtain ⟨nSumAnon, hanon, rfl⟩ := Option.map_eq_some_iff.1 h
            have hfee := ConnectEnv.feeOf_eq
              (ConnectEnv.txValueIn_known hin (txValueIn_of_scanAnon hvalue hanon)) hout
            rw [hfee, Int64.sub_eq_add_neg, Int64.sub_eq_add_neg, Int64.add_assoc, Int64.add_comm nSumAnon,
              ← Int64.add_assoc]
  · rename_i hset
    cases h
    exact hentry.fee hset

theorem addTx_ok {mapDependers : UInt256 → List Nat} {a a' : Assembly D} {nFee : Int64} {nTxSigOps : Nat}
    {mapTestPool : MapTestPool} (hs : m.connect.Knows s known) (ha : Assembled m.connect s known a)
    (hpool : m.connect.Backed known mapTestPool) (htx : Paying m.connect s known tx)
    (hfee : m.connect.feeOf s known tx = some nFee)
    (h : m.addTx mapDependers a tx nFee nTxSigOps mapTestPool = some a') : Assembled m.connect s known a' := by
  rw [addTx] at h
  cases hrelease : releaseOrphans (m.connect.txHash tx) a.vOrphan a.vecPriority (mapDependers (m.connect.txHash tx))
    with
  | none => simp [hrelease] at h
  | some r =>
      obtain ⟨vOrphan, vecPriority⟩ := r
      simp only [hrelease] at h
      cases h
      refine ⟨releaseOrphans_ok ha.queue hrelease, hpool.update fun txPrev hread => ?_, fun tx' htx' => ?_, ?_⟩
      · exact hs.pool _ txPrev (by rw [ConnectEnv.readAt, CTxIndex.new, if_pos rfl] at hread; exact hread)
      · rcases List.mem_append.1 htx' with htx' | htx'
        · exact ha.paying tx' htx'
        · obtain rfl := List.mem_singleton.1 htx'
          exact htx
      · show a.nFees + nFee = _
        rw [ConnectEnv.feesOf_append, ConnectEnv.feesOf_cons, hfee, ConnectEnv.feesOf_nil, Int.add_zero,
          Int64.ofInt_add, ha.fees, Option.getD_some, Int64.ofInt_toInt]

variable {pindexPrev : CBlockIndex} {pprev : List CBlockIndex} {nCoinbaseTime : UInt32}
  {mapDependers : UInt256 → List Nat}

/-- A round leaves the block, or adds the transaction of the entry, which fits, whose inputs are connected and which
pays. -/
theorem takeEntry_cases {a a' : Assembly D} {entry : TxPriority D}
    (h : m.takeEntry s pindexPrev pprev nCoinbaseTime mapDependers a entry = some a') :
    (∃ fSortedByFee, a' = { a with fSortedByFee }) ∨
      ∃ inputs nFee nP2SHSigOps mapTestPool, m.fits nCoinbaseTime a entry = true ∧
        m.connect.fetchInputs s a.mapTestPool entry.ptx = some inputs ∧
        m.entryFee s inputs entry = some (some nFee) ∧ entry.ptx.getMinFee ≤ nFee ∧
        entry.ptx.getP2SHSigOpCount inputs = some nP2SHSigOps ∧
        a.nBlockSigOps + (entry.ptx.getLegacySigOpCount + nP2SHSigOps) < MAX_BLOCK_SIGOPS ∧
        m.connect.miner.connectInputs s inputs a.mapTestPool ⟨1, 1, 1⟩ pindexPrev pprev MANDATORY_SCRIPT_VERIFY_FLAGS
          entry.ptx = some mapTestPool ∧
        m.addTx mapDependers { a with fSortedByFee := m.sortedByFee a entry } entry.ptx nFee
          (entry.ptx.getLegacySigOpCount + nP2SHSigOps) mapTestPool = some a' := by
  rw [takeEntry] at h
  simp only at h
  split at h
  · cases h
    exact .inl ⟨a.fSortedByFee, rfl⟩
  · rename_i hfits
    rw [Bool.not_eq_true', Bool.not_eq_false] at hfits
    cases hfetch : m.connect.fetchInputs s a.mapTestPool entry.ptx with
    | none =>
        simp only [hfetch] at h
        cases h
        exact .inl ⟨_, rfl⟩
    | some inputs =>
        simp only [hfetch] at h
        cases hfee : m.entryFee s inputs entry with
        | none => simp [hfee] at h
        | some fee =>
            cases fee with
            | none =>
                simp only [hfee] at h
                cases h
                exact .inl ⟨_, rfl⟩
            | some nFee =>
                simp only [hfee] at h
                split at h
                · cases h
                  exact .inl ⟨_, rfl⟩
                · rename_i hpays
                  cases hops : entry.ptx.getP2SHSigOpCount inputs with
                  | none => simp [hops] at h
                  | some nP2SHSigOps =>
                      simp only [hops] at h
                      split at h
                      · cases h
                        exact .inl ⟨_, rfl⟩
                      · rename_i hmax
                        split at h
                        · cases h
                          exact .inl ⟨_, rfl⟩
                        · rename_i hconn
                          exact .inr ⟨inputs, nFee, _, _, hfits, rfl, hfee, Int64.not_lt.1 hpays, hops,
                            Nat.not_le.1 hmax, hconn, h⟩

/-- What every round keeps holds of the whole block. -/
theorem fillBlock_keeps {P : Assembly D → Prop}
    (hround : ∀ a entry vecPriority a', P a → popHeap m.double a.fSortedByFee a.vecPriority = some (entry, vecPriority) →
      m.takeEntry s pindexPrev pprev nCoinbaseTime mapDependers { a with vecPriority } entry = some a' → P a')
    {rounds : Nat} {a a' : Assembly D} (ha : P a)
    (h : m.fillBlock s pindexPrev pprev nCoinbaseTime mapDependers rounds a = some a') : P a' := by
  induction rounds generalizing a with
  | zero =>
      rw [fillBlock] at h
      split at h
      · cases h
        exact ha
      · cases h
  | succ rounds ih =>
      rw [fillBlock] at h
      cases hpop : popHeap m.double a.fSortedByFee a.vecPriority with
      | none =>
          simp only [hpop] at h
          cases h
          exact ha
      | some r =>
          obtain ⟨entry, vecPriority⟩ := r
          simp only [hpop] at h
          cases htake : m.takeEntry s pindexPrev pprev nCoinbaseTime mapDependers { a with vecPriority } entry with
          | none => simp [htake] at h
          | some a₁ =>
              simp only [htake] at h
              exact ih (hround a entry vecPriority a₁ ha hpop htake) h

theorem takeEntry_ok {a a' : Assembly D} {entry : TxPriority D} (hs : m.connect.Knows s known)
    (ha : Assembled m.connect s known a) (hentry : EntryOk m.connect s known entry)
    (h : m.takeEntry s pindexPrev pprev nCoinbaseTime mapDependers a entry = some a') :
    Assembled m.connect s known a' := by
  have ha₁ (fSortedByFee : Bool) : Assembled m.connect s known { a with fSortedByFee } :=
    ⟨ha.queue, ha.backed, ha.paying, ha.fees⟩
  rcases takeEntry_cases h with
    ⟨fSortedByFee, rfl⟩ | ⟨inputs, nFee, _, mapTestPool, _, hfetch, hfee, hmin, _, _, hconn, hadd⟩
  · exact ha₁ fSortedByFee
  · have hin := ConnectEnv.fetchInputs_known hs ha.backed hfetch
    have hfeeOf := entryFee_spec hentry hin hfee
    have hpool := @ConnectEnv.connectInputs_backed G m.connect.miner s known entry.ptx inputs a.mapTestPool _ _ _ _ _ _
      hin ha.backed hconn
    exact addTx_ok hs (ha₁ _) hpool ⟨hentry.notCoinBase, hentry.notCoinStake, nFee, hfeeOf, hmin⟩ hfeeOf hadd

theorem fillBlock_ok {rounds : Nat} {a a' : Assembly D} (hs : m.connect.Knows s known)
    (ha : Assembled m.connect s known a)
    (h : m.fillBlock s pindexPrev pprev nCoinbaseTime mapDependers rounds a = some a') :
    Assembled m.connect s known a' := by
  refine fillBlock_keeps (fun a entry vecPriority a' ha hpop htake => ?_) ha h
  have hrest : Assembled m.connect s known { a with vecPriority } :=
    ⟨⟨ha.queue.orphans, fun e he => ha.queue.entries e (mem_popHeap hpop (.inr he))⟩, ha.backed, ha.paying, ha.fees⟩
  exact takeEntry_ok hs hrest (ha.queue.entries entry (mem_popHeap hpop (.inl rfl))) htake

/-! ## The template -/

theorem createNewBlock_some {mapTx : List CTransaction} {block : CBlock} {nFees : Int64} (h : m.createNewBlock s pindexPrev pprev mapTx = some (block, nFees)) :
    ∃ scan a, m.scanPool s 0 ⟨[], fun _ => [], []⟩ mapTx = some scan ∧
      m.fillBlock s pindexPrev pprev (m.stakeCoinbase (pindexPrev.nHeight + 1)).nTime scan.mapDependers
        (scan.vecPriority.length + scan.vOrphan.length)
        { vtx := [], mapTestPool := fun _ => none, nBlockSize := 1000, nBlockSigOps := 100, nFees := 0
          fSortedByFee := m.nBlockPrioritySize ≤ 0, vOrphan := scan.vOrphan, vecPriority := scan.vecPriority } = some a ∧
      block.vtx = m.stakeCoinbase (pindexPrev.nHeight + 1) :: a.vtx ∧ nFees = a.nFees := by
  rw [createNewBlock] at h
  simp only at h
  split at h
  · cases h
  · split at h
    · rename_i nBits scan _ hscan
      split at h
      · cases h
      · rename_i a hfill
        cases h
        exact ⟨scan, a, hscan, hfill, rfl, rfl⟩
    · cases h

/-- The block is its coinbase and transactions that pay, and their fees are the ones that are returned. -/
theorem createNewBlock_spec {mapTx : List CTransaction} {block : CBlock} {nFees : Int64} (hs : m.connect.Knows s known)
    (h : m.createNewBlock s pindexPrev pprev mapTx = some (block, nFees)) :
    ∃ vtx, block.vtx = m.stakeCoinbase (pindexPrev.nHeight + 1) :: vtx ∧
      (∀ tx ∈ vtx, Paying m.connect s known tx) ∧ nFees = Int64.ofInt (m.connect.feesOf s known vtx) := by
  obtain ⟨scan, a, hscan, hfill, hvtx, rfl⟩ := createNewBlock_some h
  have hqueue := scanPool_ok hs (⟨nofun, nofun⟩ : QueueOk m.connect s known [] []) hscan
  have ha := fillBlock_ok hs ⟨hqueue, .empty, fun _ htx => absurd htx List.not_mem_nil, rfl⟩ hfill
  exact ⟨a.vtx, hvtx, ha.paying, ha.fees⟩

end MinerEnv

end ProCurrency
