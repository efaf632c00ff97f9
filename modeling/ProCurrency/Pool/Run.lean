import ProCurrency.Connect.KeyImages
import ProCurrency.Pool.Lemmas.Index

/-!
# Runs of the memory pool

A run is a list of calls. Each `AcceptToMemoryPool` meets a node, a store and answers of its own.
-/

namespace ProCurrency

inductive PoolCall (G : Type) where
  | accept (node : ConnectEnv G) (s : ConnectStore) (answers : AcceptAnswers) (tx : CTransaction)
  | addUnchecked (tx : CTransaction)
  | remove (tx : CTransaction) (fRecursive : Bool)
  | removeConflicts (tx : CTransaction)
  | clear
  | insertKeyImage (vchImage : Bytes) (kis : CKeyImageSpent)

/-- The transaction that a call is about. -/
def PoolCall.tx {G : Type} : PoolCall G → Option CTransaction
  | .accept _ _ _ tx => some tx
  | .addUnchecked tx => some tx
  | .remove tx _ => some tx
  | .removeConflicts tx => some tx
  | .clear => none
  | .insertKeyImage _ _ => none

namespace CTxMemPool

variable {G : Type} [AddCommGroup G]

def step (env : PoolEnv) (fuel : Nat) (pool : CTxMemPool) : PoolCall G → Option CTxMemPool
  | .accept node s answers tx =>
      some (pool.acceptToMemoryPool { node with txHash := env.txHash } s answers tx).2
  | .addUnchecked tx => some (pool.addUnchecked (env.txHash tx) tx)
  | .remove tx fRecursive => pool.remove env fuel tx fRecursive false
  | .removeConflicts tx => pool.removeConflicts env fuel tx
  | .clear => some pool.clear
  | .insertKeyImage vchImage kis => some (pool.insertKeyImage vchImage kis)

def run (env : PoolEnv) (fuel : Nat) (pool : CTxMemPool) : List (PoolCall G) → Option CTxMemPool
  | [] => some pool
  | call :: calls =>
      match pool.step env fuel call with
      | none => none
      | some pool => run env fuel pool calls

/-- Each call of a run is as it should be in the pool that it meets. -/
def Along (env : PoolEnv) (ok : CTxMemPool → PoolCall G → Prop) (pool : CTxMemPool) : List (PoolCall G) → Prop
  | [] => True
  | call :: calls =>
      ok pool call ∧ ∀ fuel pool', pool.step env fuel call = some pool' → Along env ok pool' calls

/-- `addUnchecked` is called for what `AcceptToMemoryPool` has looked up. -/
def Checked (env : PoolEnv) (pool : CTxMemPool) : PoolCall G → Prop
  | .addUnchecked tx =>
      pool.hasTx (env.txHash tx) = false ∧ ∀ prevout ∈ tx.outPoints, pool.mapNextTx prevout = none
  | _ => True

/-- The key images of the pool are recorded, each for the transaction that consumes it. -/
def KeyImagesRecorded (env : PoolEnv) (pool : CTxMemPool) : Prop :=
  ∀ ptx tx, pool.heap ptx = some tx → ∀ vchImage ∈ tx.keyImages,
    ∃ kis, pool.mapKeyImage vchImage = some kis ∧ kis.txnHash = env.txHash tx

/-- A transaction that consumes key images comes to a full node that has recorded those of its pool, and that has no
record of these in its store. -/
def Recorded (env : PoolEnv) (pool : CTxMemPool) : PoolCall G → Prop
  | .accept node s _ tx =>
      tx.keyImages = [] ∨
        node.fFull = true ∧ KeyImagesRecorded env pool ∧ ∀ vchImage ∈ tx.keyImages, s.keyImages vchImage = none
  | .addUnchecked tx => tx.keyImages = []
  | _ => True

/-- No two transactions of the pool consume one key image. -/
def KeyImagesApart (pool : CTxMemPool) : Prop :=
  ∀ ptx ptx' tx tx', pool.heap ptx = some tx → pool.heap ptx' = some tx' → ptx ≠ ptx' →
    ∀ vchImage ∈ tx.keyImages, vchImage ∉ tx'.keyImages

variable {env : PoolEnv} {txs : Set CTransaction} {rank : UInt256 → Nat} {pool pool' : CTxMemPool}
  {tx : CTransaction} {node : ConnectEnv G} {s : ConnectStore} {answers : AcceptAnswers} {fuel fuel' bound : Nat}
  {call : PoolCall G} {calls : List (PoolCall G)}

/-! ## Accepting -/

theorem checkAnonInputs_spendable {fee : Int64} (h : node.checkAnonInputs s true tx = (true, fee)) :
    ∀ vchImage ∈ tx.keyImages, node.keyImageSpendable s true (node.txHash tx) vchImage = true := by
  intro vchImage hmem
  rw [ConnectEnv.checkAnonInputs] at h
  cases hpreimage : node.getTxnPreImage tx with
  | none =>
      rw [hpreimage] at h
      cases h
  | some preimage =>
      rw [hpreimage] at h
      exact ConnectEnv.checkAnonInputsFrom_spendable h vchImage (ConnectEnv.keyImages_subset tx hmem)

/-- What a transaction that is accepted has passed. -/
theorem accepts_spec (h : pool.accepts node s answers tx = true) :
    pool.hasTx (node.txHash tx) = false ∧ (∀ prevout ∈ tx.outPoints, pool.mapNextTx prevout = none) ∧
      (node.fFull = true → ∀ vchImage ∈ tx.keyImages,
        (pool.nodeWith node).keyImageSpendable (pool.storeWith s) true (node.txHash tx) vchImage = true) := by
  simp only [accepts, Bool.if_false_left, Bool.and_eq_true, Bool.not_eq_true', decide_eq_false_iff_not] at h
  obtain ⟨-, -, -, -, hhas, hconflict, -, hrest⟩ := h
  refine ⟨Bool.eq_false_iff.mpr hhas, ?_, ?_⟩
  · intro prevout hp
    obtain ⟨txin, htxin, rfl⟩ := List.mem_map.mp hp
    by_contra hsome
    exact hconflict (List.any_eq_true.mpr ⟨txin, htxin, Option.isSome_iff_ne_none.mpr hsome⟩)
  · intro hfull vchImage hmem
    have hversion := ConnectEnv.version_of_mem_keyImages hmem
    simp only [hfull, Bool.true_eq_false, if_false, hversion, beq_self_eq_true, true_and, Bool.and_eq_true,
      Bool.not_eq_true', decide_eq_false_iff_not, Bool.not_eq_false] at hrest
    obtain ⟨-, hpassed, -⟩ := hrest
    exact checkAnonInputs_spendable (Prod.ext hpassed rfl) vchImage hmem

theorem step_accept (h : pool.accepts { node with txHash := env.txHash } s answers tx = true) (fuel : Nat) :
    pool.step env fuel (.accept node s answers tx) = some (pool.addUnchecked (env.txHash tx) tx) := by
  rw [step, acceptToMemoryPool, if_pos h]

/-- An accepted transaction consumes no key image that the pool has recorded. -/
theorem not_mem_keyImages_of_accepts (hindexed : Indexed env txs pool)
    (haccepts : pool.accepts { node with txHash := env.txHash } s answers tx = true)
    (hrecorded : pool.Recorded env (.accept node s answers tx)) :
    ∀ ptx tx', pool.heap ptx = some tx' → ∀ vchImage ∈ tx.keyImages, vchImage ∉ tx'.keyImages := by
  intro ptx tx' htx' vchImage hmem hmem'
  obtain hnone | ⟨hfull, hpool, hstore⟩ := hrecorded
  · rw [hnone] at hmem
    cases hmem
  · obtain ⟨hnew, -, hspendable⟩ := accepts_spec haccepts
    obtain ⟨kis, hkis, hhash⟩ := hpool ptx tx' htx' vchImage hmem'
    have hother : env.txHash tx' ≠ env.txHash tx := by
      intro heq
      rw [hindexed.hasTx_iff.mpr ⟨ptx, tx', htx', heq⟩] at hnew
      cases hnew
    have hsystem : (pool.lookup (env.txHash tx')).isSome = true := by
      rw [hindexed.lookup_of_heap htx']
      rfl
    have hcheck := hspendable hfull vchImage hmem
    simp [ConnectEnv.keyImageSpendable, ConnectStore.getKeyImage, storeWith, nodeWith, hstore vchImage hmem, hkis,
      hhash, hother, ConnectEnv.txnHashInSystem, hsystem] at hcheck

/-! ## Key images -/

theorem KeyImagesApart.within (h : pool.KeyImagesApart) (hwithin : Within pool' pool) : pool'.KeyImagesApart :=
  fun ptx ptx' tx tx' htx htx' => h ptx ptx' tx tx' (hwithin ptx tx htx) (hwithin ptx' tx' htx')

/-- A transaction comes to a pool that has none of its key images. -/
theorem KeyImagesApart.addUnchecked (h : pool.KeyImagesApart) (hash : UInt256)
    (hki : ∀ ptx tx', pool.heap ptx = some tx' → ∀ vchImage ∈ tx.keyImages, vchImage ∉ tx'.keyImages) :
    (pool.addUnchecked hash tx).KeyImagesApart := by
  intro ptx ptx' t t' ht ht' hne vchImage hmem hmem'
  have hheap : (pool.addUnchecked hash tx).heap =
      Function.update pool.heap ((pool.mapTx hash).getD pool.nextAddress) (some tx) := rfl
  rw [hheap] at ht ht'
  rcases eq_or_ne ptx ((pool.mapTx hash).getD pool.nextAddress) with rfl | hptx
  · rw [Function.update_self] at ht
    rw [Function.update_of_ne hne.symm] at ht'
    cases ht
    exact hki ptx' t' ht' vchImage hmem hmem'
  · rw [Function.update_of_ne hptx] at ht
    rcases eq_or_ne ptx' ((pool.mapTx hash).getD pool.nextAddress) with rfl | hptx'
    · rw [Function.update_self] at ht'
      cases ht'
      exact hki ptx t ht vchImage hmem' hmem
    · rw [Function.update_of_ne hptx'] at ht'
      exact h ptx ptx' t t' ht ht' hne vchImage hmem hmem'

/-! ## Steps -/

/-- What a step keeps. -/
structure Kept (env : PoolEnv) (txs : Set CTransaction) (rank : UInt256 → Nat) (pool : CTxMemPool) : Prop where
  indexed : Indexed env txs pool
  below : ∃ bound, Below env rank bound pool

theorem Kept.empty (env : PoolEnv) (txs : Set CTransaction) (rank : UInt256 → Nat) : Kept env txs rank .empty :=
  ⟨.empty env txs, 0, fun _ _ h => nomatch h⟩

theorem Kept.within (h : Kept env txs rank pool) (hindexed : Indexed env txs pool') (hwithin : Within pool' pool) :
    Kept env txs rank pool' := by
  obtain ⟨bound, hbelow⟩ := h.below
  exact ⟨hindexed, bound, hbelow.within hwithin⟩

theorem Kept.addUnchecked (h : Kept env txs rank pool) (htx : tx ∈ txs)
    (hnew : pool.hasTx (env.txHash tx) = false) (hfree : ∀ prevout ∈ tx.outPoints, pool.mapNextTx prevout = none) :
    Kept env txs rank (pool.addUnchecked (env.txHash tx) tx) := by
  obtain ⟨bound, hbelow⟩ := h.below
  refine ⟨h.indexed.addUnchecked htx hnew hfree, max bound (rank (env.txHash tx) + 1), fun ptx tx' htx' => ?_⟩
  have hheap : (pool.addUnchecked (env.txHash tx) tx).heap =
      Function.update pool.heap ((pool.mapTx (env.txHash tx)).getD pool.nextAddress) (some tx) := rfl
  rw [hheap] at htx'
  rcases eq_or_ne ptx ((pool.mapTx (env.txHash tx)).getD pool.nextAddress) with rfl | hptx
  · rw [Function.update_self] at htx'
    cases htx'
    exact lt_max_of_lt_right (Nat.lt_succ_self _)
  · rw [Function.update_of_ne hptx] at htx'
    exact lt_max_of_lt_left (hbelow ptx tx' htx')

/-- A call returns, and keeps what it should. -/
theorem Kept.step (hapart : env.HashesApart txs rank) (h : Kept env txs rank pool)
    (htx : ∀ tx, call.tx = some tx → tx ∈ txs) (hchecked : pool.Checked env call) :
    ∃ pool' bound, (∀ fuel, bound ≤ fuel → pool.step env fuel call = some pool') ∧ Kept env txs rank pool' ∧
      (pool.Recorded env call → pool.KeyImagesApart → pool'.KeyImagesApart) := by
  cases call with
  | accept node s answers tx =>
      refine ⟨_, 0, fun _ _ => rfl, ?_⟩
      rw [acceptToMemoryPool]
      split_ifs with haccepts
      · obtain ⟨hnew, hfree, -⟩ := accepts_spec haccepts
        refine ⟨h.addUnchecked (htx tx rfl) hnew hfree, fun hrecorded hki => ?_⟩
        exact hki.addUnchecked _ (not_mem_keyImages_of_accepts h.indexed haccepts hrecorded)
      · exact ⟨h, fun _ hki => hki⟩
  | addUnchecked tx =>
      refine ⟨_, 0, fun _ _ => rfl, h.addUnchecked (htx tx rfl) hchecked.1 hchecked.2, fun hnone hki => ?_⟩
      refine hki.addUnchecked _ fun ptx tx' htx' vchImage hmem => ?_
      rw [show tx.keyImages = [] from hnone] at hmem
      cases hmem
  | remove tx fRecursive =>
      obtain ⟨bound, hbelow⟩ := h.below
      have hdepth : bound ≤ rank (env.txHash tx) + bound := Nat.le_add_left _ _
      obtain ⟨pool', hremoved⟩ := h.indexed.remove_returns hapart hbelow (htx tx rfl) hdepth fRecursive false
      have hremoves := h.indexed.remove hapart.injOn (htx tx rfl) hremoved
      refine ⟨pool', bound + 1, fun fuel hle => remove_mono hle hremoved, h.within hremoves.indexed hremoves.within, ?_⟩
      exact fun _ hki => hki.within hremoves.within
  | removeConflicts tx =>
      obtain ⟨bound, hbelow⟩ := h.below
      obtain ⟨pool', hremoved⟩ := h.indexed.removeConflictsFrom_returns hapart hbelow le_rfl tx tx.vin
      obtain ⟨hindexed, hwithin, -⟩ := h.indexed.removeConflicts hapart.injOn hremoved
      refine ⟨pool', bound + 1, fun fuel hle => removeConflictsFrom_mono hle hremoved, h.within hindexed hwithin, ?_⟩
      exact fun _ hki => hki.within hwithin
  | clear =>
      have hwithin : Within pool.clear pool := fun _ _ htx => nomatch htx
      exact ⟨_, 0, fun _ _ => rfl, h.within (.clear env txs pool) hwithin, fun _ hki => hki.within hwithin⟩
  | insertKeyImage vchImage kis =>
      refine ⟨_, 0, fun _ _ => rfl, ⟨?_, h.below⟩, fun _ hki => hki⟩
      exact ⟨h.indexed.index, h.indexed.entry, h.indexed.fresh, h.indexed.known⟩

theorem Kept.run (hapart : env.HashesApart txs rank) (h : Kept env txs rank pool)
    (htxs : ∀ call ∈ calls, ∀ tx, call.tx = some tx → tx ∈ txs) (hchecked : pool.Along env (Checked env) calls) :
    ∃ pool' bound, (∀ fuel, bound ≤ fuel → pool.run env fuel calls = some pool') ∧ Kept env txs rank pool' ∧
      (pool.Along env (Recorded env) calls → pool.KeyImagesApart → pool'.KeyImagesApart) := by
  induction calls generalizing pool with
  | nil => exact ⟨pool, 0, fun _ _ => rfl, h, fun _ hki => hki⟩
  | cons call calls ih =>
      obtain ⟨pool₁, bound₁, hstep, hkept, hki₁⟩ := h.step hapart (htxs call (List.mem_cons_self)) hchecked.1
      obtain ⟨pool', bound, hrun, hkept', hki'⟩ := ih hkept
        (fun call hmem => htxs call (List.mem_cons_of_mem _ hmem)) (hchecked.2 bound₁ pool₁ (hstep bound₁ le_rfl))
      refine ⟨pool', max bound₁ bound, fun fuel hle => ?_, hkept', fun hrecorded hki => ?_⟩
      · rw [CTxMemPool.run, hstep fuel (le_of_max_le_left hle)]
        exact hrun fuel (le_of_max_le_right hle)
      · exact hki' (hrecorded.2 bound₁ pool₁ (hstep bound₁ le_rfl)) (hki₁ hrecorded.1 hki)

end CTxMemPool

/-!
## The index of the memory pool

Whatever is accepted and removed, and in which order, `mapNextTx` is the index of what the transactions of `mapTx`
spend. Ring inputs are in it like others, under the key image and the size of the ring, so that it does not tell that
two rings of different sizes consume one key image. Key images are told apart by what the wallets have recorded.
-/

namespace CTxMemPool

variable {G : Type} [AddCommGroup G]

structure Consistent (env : PoolEnv) (pool : CTxMemPool) : Prop where
  /-- What is found is an input of an entry of `mapTx`. -/
  sound : ∀ prevout it, pool.mapNextTx prevout = some it →
    ∃ hash tx, pool.mapTx hash = some it.ptx ∧ pool.heap it.ptx = some tx ∧ tx.outPoints[it.n]? = some prevout
  /-- The inputs of the entries of `mapTx` are found. -/
  complete : ∀ hash ptx, pool.mapTx hash = some ptx → ∃ tx, pool.heap ptx = some tx ∧ env.txHash tx = hash ∧
    ∀ prevout ∈ tx.outPoints, ∃ n, pool.mapNextTx prevout = some { ptx, n }
  /-- No output is spent twice. -/
  apart : ∀ hash hash' tx tx', pool.lookup hash = some tx → pool.lookup hash' = some tx' → hash ≠ hash' →
    ∀ prevout ∈ tx.outPoints, prevout ∉ tx'.outPoints

/-- The index as it would be without ring inputs. -/
def IndexesOpenInputs (pool : CTxMemPool) : Prop :=
  ∀ prevout it, pool.mapNextTx prevout = some it ↔
    ∃ tx txin, pool.heap it.ptx = some tx ∧ tx.vin[it.n]? = some txin ∧ txin.prevout = prevout ∧
      tx.spendsAnon txin = false

theorem Indexed.consistent {env : PoolEnv} {txs : Set CTransaction} {pool : CTxMemPool}
    (h : Indexed env txs pool) : pool.Consistent env := by
  have hlookup : ∀ {hash tx}, pool.lookup hash = some tx →
      ∃ ptx, pool.heap ptx = some tx ∧ env.txHash tx = hash := by
    intro hash tx hlookup
    obtain ⟨ptx, hmap, htx⟩ := Option.bind_eq_some_iff.mp hlookup
    obtain ⟨tx', htx', hhash⟩ := (h.entry _ _).mp hmap
    rw [htx] at htx'
    cases htx'
    exact ⟨ptx, htx, hhash⟩
  constructor
  · intro prevout it hit
    obtain ⟨tx, htx, hn⟩ := h.heap_of_mapNextTx hit
    exact ⟨env.txHash tx, tx, h.mapTx_of_heap htx, htx, hn⟩
  · intro hash ptx hmap
    obtain ⟨tx, htx, hhash⟩ := (h.entry _ _).mp hmap
    exact ⟨tx, htx, hhash, fun prevout hp => h.index.complete ptx tx prevout htx hp⟩
  · intro hash hash' tx tx' htx htx' hne prevout hp hp'
    obtain ⟨ptx, hheap, rfl⟩ := hlookup htx
    obtain ⟨ptx', hheap', rfl⟩ := hlookup htx'
    exact hne (congrArg env.txHash (h.spender_unique hheap hheap' hp hp').2)

/-- Every run of calls that are checked returns, with an index that fits the transactions. Where the key images of the
pool are recorded, it has none twice. -/
theorem run_keepsIndex (env : PoolEnv) (txs : Set CTransaction) (rank : UInt256 → Nat)
    (hapart : env.HashesApart txs rank) (calls : List (PoolCall G))
    (htxs : ∀ call ∈ calls, ∀ tx, call.tx = some tx → tx ∈ txs) (hchecked : empty.Along env (Checked env) calls) :
    ∃ pool bound, (∀ fuel, bound ≤ fuel → empty.run env fuel calls = some pool) ∧ pool.Consistent env ∧
      (empty.Along env (Recorded env) calls → pool.KeyImagesApart) := by
  obtain ⟨pool, bound, hrun, hkept, hki⟩ := (Kept.empty env txs rank).run hapart htxs hchecked
  refine ⟨pool, bound, hrun, hkept.indexed.consistent, fun hrecorded => hki hrecorded ?_⟩
  intro ptx ptx' tx tx' htx
  cases htx

/-! ## Rings of one and of two -/

def ringPoolEnv : PoolEnv where
  txHash := ringEnv.txHash
  freed := id

def standardAnswers : AcceptAnswers where
  isStandard := true
  fetches := true
  connects := true

/-- The key image of `ringTx`, for a ring of two. -/
def ringTxOfTwo : CTransaction :=
  { ringTx 4 with vin := [{ prevout := { hash := 2, n := 131079 }, scriptSig := ringScript, nSequence := 0 }] }

/-- A transaction comes in and is recorded, and then gives way to another. -/
def ringReplaced : List (PoolCall (ZMod (2 ^ 256 + 297))) :=
  [.accept ringEnv ringStore standardAnswers (ringTx 3),
   .insertKeyImage (writeUInt256 2 ++ [7]) { txnHash := 3, inputNo := 0, nValue := 500000000 },
   .removeConflicts (ringTx 4)]

theorem run_keepsIndex_ringReplaced :
    ∃ pool bound, (∀ fuel, bound ≤ fuel → empty.run ringPoolEnv fuel ringReplaced = some pool) ∧
      pool.Consistent ringPoolEnv ∧ pool.KeyImagesApart := by
  have hapart : ringPoolEnv.HashesApart {ringTx 3, ringTx 4} BitVec.toNat := by
    constructor
    · rintro _ (rfl | rfl) _ (rfl | rfl) heq
      · rfl
      · exact absurd heq (by decide)
      · exact absurd heq (by decide)
      · rfl
    · rintro _ (rfl | rfl) <;> decide
  have htxs : ∀ call ∈ ringReplaced, ∀ tx, call.tx = some tx → tx ∈ ({ringTx 3, ringTx 4} : Set CTransaction) := by
    intro call hmem tx htx
    simp only [ringReplaced, List.mem_cons, List.not_mem_nil, or_false] at hmem
    obtain rfl | rfl | rfl := hmem
    · exact Or.inl (Option.some.inj htx).symm
    · cases htx
    · exact Or.inr (Option.some.inj htx).symm
  obtain ⟨pool, bound, hrun, hconsistent, hki⟩ := run_keepsIndex ringPoolEnv _ _ hapart ringReplaced htxs
    ⟨trivial, fun _ _ _ => ⟨trivial, fun _ _ _ => ⟨trivial, fun _ _ _ => trivial⟩⟩⟩
  refine ⟨pool, bound, hrun, hconsistent, hki ⟨Or.inr ⟨rfl, fun _ _ h => (nomatch h), fun _ _ => rfl⟩, ?_⟩⟩
  exact fun _ _ _ => ⟨trivial, fun _ _ _ => ⟨trivial, fun _ _ _ => trivial⟩⟩

def thinRingEnv : ConnectEnv (ZMod (2 ^ 256 + 297)) := { ringEnv with fFull := false }

/-- A node without a copy of the chain accepts one key image in two rings. -/
def ringTwice : List (PoolCall (ZMod (2 ^ 256 + 297))) :=
  [.accept thinRingEnv ringStore standardAnswers (ringTx 3), .accept thinRingEnv ringStore standardAnswers ringTxOfTwo]

def ringTwicePool : CTxMemPool := (empty.addUnchecked 3 (ringTx 3)).addUnchecked 4 ringTxOfTwo

theorem not_claimed_ringTwice :
    empty.run ringPoolEnv 0 ringTwice = some ringTwicePool ∧ ¬ringTwicePool.IndexesOpenInputs ∧
      ¬ringTwicePool.KeyImagesApart := by
  refine ⟨?_, fun h => ?_, fun h => ?_⟩
  · have hfirst : empty.accepts thinRingEnv ringStore standardAnswers (ringTx 3) = true := by
      decide +kernel
    have hsecond : (empty.addUnchecked 3 (ringTx 3)).accepts thinRingEnv ringStore standardAnswers ringTxOfTwo =
        true := by
      decide +kernel
    rw [ringTwice, run, step_accept hfirst]
    dsimp only
    rw [run, step_accept hsecond]
    rfl
  · obtain ⟨tx, txin, htx, hin, -, hopen⟩ := (h { hash := 2, n := 65543 } { ptx := 0, n := 0 }).mp rfl
    cases htx
    cases hin
    cases hopen
  · exact h 0 1 (ringTx 3) ringTxOfTwo rfl rfl (by decide) (writeUInt256 2 ++ [7]) (by decide) (by decide)

end CTxMemPool

end ProCurrency
