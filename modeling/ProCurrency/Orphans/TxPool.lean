import Mathlib.Data.List.AList
import Mathlib.Data.List.MinMax
import ProCurrency.Connect.Store
import ProCurrency.Lib.SetIndex

/-!
# Orphan transactions

`AddOrphanTx`, `EraseOrphanTx` and `LimitOrphanTxSize` (main.cpp). A transaction that is told by its hash is kept
under it, and its hash is kept under the hash of each transaction that it spends from.
-/

namespace ProCurrency

/-- `mapOrphanTransactions` and `mapOrphanTransactionsByPrev`. -/
structure OrphanTxs where
  mapOrphanTransactions : AList fun _ : UInt256 => CTransaction
  mapOrphanTransactionsByPrev : UInt256 → Option (Finset UInt256)

/-- The hashes of the transactions that a transaction spends from, one for each input. -/
def CTransaction.prevHashes (tx : CTransaction) : List UInt256 := tx.vin.map fun txin => txin.prevout.hash

namespace OrphanTxs

def empty : OrphanTxs where
  mapOrphanTransactions := ∅
  mapOrphanTransactionsByPrev _ := none

def addOrphanTx (txHash : CTransaction → UInt256) (o : OrphanTxs) (tx : CTransaction) : Bool × OrphanTxs :=
  let hash := txHash tx
  if hash ∈ o.mapOrphanTransactions then (false, o)
  else if 5000 < tx.getSerializeSize then (false, o)
  else
    (true,
      { mapOrphanTransactions := o.mapOrphanTransactions.insert hash tx
        mapOrphanTransactionsByPrev := tx.prevHashes.foldl (SetIndex.add hash) o.mapOrphanTransactionsByPrev })

def eraseOrphanTx (o : OrphanTxs) (hash : UInt256) : OrphanTxs :=
  match o.mapOrphanTransactions.lookup hash with
  | none => o
  | some tx =>
      { mapOrphanTransactions := o.mapOrphanTransactions.erase hash
        mapOrphanTransactionsByPrev := tx.prevHashes.foldl (SetIndex.remove hash) o.mapOrphanTransactionsByPrev }

/-- `lower_bound`, or `begin` where there is none. -/
def lowerBound (o : OrphanTxs) (randomhash : UInt256) : Option UInt256 :=
  ((o.mapOrphanTransactions.keys.filter fun hash => randomhash ≤ hash).argmin BitVec.toNat).or
    (o.mapOrphanTransactions.keys.argmin BitVec.toNat)

/-- One round of the loop of `LimitOrphanTxSize`. -/
def evict (o : OrphanTxs) (randomhash : UInt256) : OrphanTxs :=
  match o.lowerBound randomhash with
  | none => o
  | some hash => o.eraseOrphanTx hash

def size (o : OrphanTxs) : Nat := o.mapOrphanTransactions.keys.length

/-- The loop of `LimitOrphanTxSize`; `none` when it is not over after `fuel` rounds. The random hash is a function
of the round. -/
def limitFrom (nMaxOrphans : Nat) (getRandHash : Nat → UInt256) (nEvicted : Nat) (o : OrphanTxs) :
    Nat → Option (Nat × OrphanTxs)
  | 0 => if nMaxOrphans < o.size then none else some (nEvicted, o)
  | fuel + 1 =>
      if nMaxOrphans < o.size then
        limitFrom nMaxOrphans getRandHash (nEvicted + 1) (o.evict (getRandHash nEvicted)) fuel
      else some (nEvicted, o)

/-- `LimitOrphanTxSize`. Each round evicts one transaction. -/
def limitOrphanTxSize (nMaxOrphans : Nat) (getRandHash : Nat → UInt256) (o : OrphanTxs) :
    Option (Nat × OrphanTxs) := limitFrom nMaxOrphans getRandHash 0 o o.size

end OrphanTxs

/-! ## Runs -/

inductive OrphanTxCall where
  | add (tx : CTransaction)
  | erase (hash : UInt256)
  | limit (nMaxOrphans : Nat) (getRandHash : Nat → UInt256)

namespace OrphanTxs

/-- `none` is a loop that does not end. -/
def step (txHash : CTransaction → UInt256) (o : OrphanTxs) : OrphanTxCall → Option OrphanTxs
  | .add tx => some (o.addOrphanTx txHash tx).2
  | .erase hash => some (o.eraseOrphanTx hash)
  | .limit nMaxOrphans getRandHash => (o.limitOrphanTxSize nMaxOrphans getRandHash).map Prod.snd

def run (txHash : CTransaction → UInt256) (o : OrphanTxs) : List OrphanTxCall → Option OrphanTxs
  | [] => some o
  | call :: calls =>
      match o.step txHash call with
      | none => none
      | some o => run txHash o calls

end OrphanTxs

/-!
## The orphan transactions and their index

In every run the index is that of the transactions that are held, and the limit is reached.
-/

namespace OrphanTxs

variable {txHash : CTransaction → UInt256} {o o' : OrphanTxs} {tx : CTransaction} {hash : UInt256}

/-- Each transaction is held under its hash, and the index has, under the hash of a transaction, the hashes of those
that spend from it. -/
structure Valid (txHash : CTransaction → UInt256) (o : OrphanTxs) : Prop where
  keyed : ∀ hash tx, o.mapOrphanTransactions.lookup hash = some tx → txHash tx = hash
  indexes : SetIndex.Indexes CTransaction.prevHashes (fun hash => o.mapOrphanTransactions.lookup hash)
    o.mapOrphanTransactionsByPrev

theorem Valid.empty (txHash : CTransaction → UInt256) : empty.Valid txHash :=
  ⟨fun _ _ h => (nomatch h), .empty⟩

/-! ## One transaction -/

theorem lookup_insert (m : AList fun _ : UInt256 => CTransaction) (hash : UInt256) (tx : CTransaction) :
    (fun k => (m.insert hash tx).lookup k) = Function.update (fun k => m.lookup k) hash (some tx) := by
  funext k
  rcases Decidable.em (k = hash) with rfl | hne
  · rw [AList.lookup_insert, Function.update_self]
  · rw [AList.lookup_insert_ne hne, Function.update_of_ne hne]

theorem lookup_erase (m : AList fun _ : UInt256 => CTransaction) (hash : UInt256) :
    (fun k => (m.erase hash).lookup k) = Function.update (fun k => m.lookup k) hash none := by
  funext k
  rcases Decidable.em (k = hash) with rfl | hne
  · rw [AList.lookup_erase, Function.update_self]
  · rw [AList.lookup_erase_ne hne, Function.update_of_ne hne]

theorem Valid.addOrphanTx (h : o.Valid txHash) (tx : CTransaction) : (o.addOrphanTx txHash tx).2.Valid txHash := by
  rw [OrphanTxs.addOrphanTx]
  split
  · exact h
  rename_i hnew
  split
  · exact h
  refine ⟨fun k tx' hk => ?_, ?_⟩
  · rcases Decidable.em (k = txHash tx) with rfl | hne
    · rw [AList.lookup_insert, Option.some.injEq] at hk
      rw [hk]
    · rw [AList.lookup_insert_ne hne] at hk
      exact h.keyed k tx' hk
  · rw [lookup_insert]
    exact h.indexes.insert (AList.lookup_eq_none.2 hnew)

theorem Valid.eraseOrphanTx (h : o.Valid txHash) (hash : UInt256) : (o.eraseOrphanTx hash).Valid txHash := by
  rw [OrphanTxs.eraseOrphanTx]
  cases htx : o.mapOrphanTransactions.lookup hash with
  | none => exact h
  | some tx =>
      refine ⟨fun k tx' hk => ?_, ?_⟩
      · rcases Decidable.em (k = hash) with rfl | hne
        · rw [AList.lookup_erase] at hk
          cases hk
        · rw [AList.lookup_erase_ne hne] at hk
          exact h.keyed k tx' hk
      · rw [lookup_erase]
        exact h.indexes.erase htx

/-- What is held under another hash stays, in the map and in the index. -/
theorem eraseOrphanTx_frame (o : OrphanTxs) {k : UInt256} (hne : k ≠ hash) :
    (o.eraseOrphanTx hash).mapOrphanTransactions.lookup k = o.mapOrphanTransactions.lookup k ∧
      ∀ prev, k ∈ ((o.eraseOrphanTx hash).mapOrphanTransactionsByPrev prev).getD ∅ ↔
        k ∈ (o.mapOrphanTransactionsByPrev prev).getD ∅ := by
  rw [eraseOrphanTx]
  cases htx : o.mapOrphanTransactions.lookup hash with
  | none => exact ⟨rfl, fun _ => Iff.rfl⟩
  | some tx =>
      refine ⟨AList.lookup_erase_ne hne, fun prev => ?_⟩
      rw [SetIndex.mem_removeAll]
      simp [hne]

/-! ## The limit -/

theorem size_eraseOrphanTx (hmem : hash ∈ o.mapOrphanTransactions) :
    (o.eraseOrphanTx hash).size + 1 = o.size := by
  obtain ⟨tx, htx⟩ := Option.isSome_iff_exists.1 (AList.lookup_isSome.2 hmem)
  rw [eraseOrphanTx, htx, size, size, AList.keys_erase, List.length_erase_of_mem hmem]
  exact Nat.sub_add_cancel (List.length_pos_of_mem hmem)

/-- The map has a transaction to evict. -/
theorem lowerBound_mem (hsize : 0 < o.size) (randomhash : UInt256) :
    ∃ hash, o.lowerBound randomhash = some hash ∧ hash ∈ o.mapOrphanTransactions := by
  rw [lowerBound]
  cases hfirst : (o.mapOrphanTransactions.keys.filter fun hash => randomhash ≤ hash).argmin BitVec.toNat with
  | some hash => exact ⟨hash, rfl, (List.mem_filter.1 (List.argmin_mem hfirst)).1⟩
  | none =>
      cases hleast : o.mapOrphanTransactions.keys.argmin BitVec.toNat with
      | some hash => exact ⟨hash, rfl, List.argmin_mem hleast⟩
      | none =>
          rw [List.argmin_eq_none] at hleast
          rw [size, hleast] at hsize
          cases hsize

theorem size_evict (hsize : 0 < o.size) (randomhash : UInt256) : (o.evict randomhash).size + 1 = o.size := by
  obtain ⟨hash, hhash, hmem⟩ := lowerBound_mem hsize randomhash
  rw [evict, hhash]
  exact size_eraseOrphanTx hmem

theorem Valid.evict (h : o.Valid txHash) (randomhash : UInt256) : (o.evict randomhash).Valid txHash := by
  rw [OrphanTxs.evict]
  cases o.lowerBound randomhash with
  | none => exact h
  | some hash => exact h.eraseOrphanTx hash

/-- The loop ends, and has evicted what was too much. -/
theorem limitFrom_spec (nMaxOrphans nEvicted : Nat) {fuel : Nat} (getRandHash : Nat → UInt256) (h : o.Valid txHash)
    (hfuel : o.size ≤ fuel) :
    ∃ o', limitFrom nMaxOrphans getRandHash nEvicted o fuel = some (nEvicted + (o.size - nMaxOrphans), o') ∧
      o'.Valid txHash ∧ o'.size = min o.size nMaxOrphans := by
  induction fuel generalizing o nEvicted with
  | zero =>
      rw [limitFrom]
      have hzero : o.size = 0 := Nat.le_zero.1 hfuel
      rw [if_neg (by omega)]
      exact ⟨o, by rw [hzero, Nat.zero_sub, Nat.add_zero], h, by omega⟩
  | succ fuel ih =>
      rw [limitFrom]
      rcases Nat.lt_or_ge nMaxOrphans o.size with hlt | hle
      · rw [if_pos hlt]
        have hsize := size_evict (Nat.zero_lt_of_lt hlt) (getRandHash nEvicted)
        obtain ⟨o', hloop, hvalid, hend⟩ :=
          ih (nEvicted + 1) (h.evict (getRandHash nEvicted)) (by omega)
        refine ⟨o', ?_, hvalid, by omega⟩
        rw [hloop]
        congr 2
        omega
      · rw [if_neg (Nat.not_lt.2 hle)]
        exact ⟨o, by rw [Nat.sub_eq_zero_of_le hle, Nat.add_zero], h, by omega⟩

theorem limitOrphanTxSize_spec (h : o.Valid txHash) (nMaxOrphans : Nat) (getRandHash : Nat → UInt256) :
    ∃ o', o.limitOrphanTxSize nMaxOrphans getRandHash = some (o.size - nMaxOrphans, o') ∧ o'.Valid txHash ∧
      o'.size = min o.size nMaxOrphans := by
  obtain ⟨o', hloop, hvalid, hsize⟩ := limitFrom_spec nMaxOrphans 0 getRandHash h
    (Nat.le_refl o.size)
  rw [Nat.zero_add] at hloop
  exact ⟨o', hloop, hvalid, hsize⟩

/-! ## Runs -/

theorem Valid.step (h : o.Valid txHash) (call : OrphanTxCall) :
    ∃ o', o.step txHash call = some o' ∧ o'.Valid txHash := by
  cases call with
  | add tx => exact ⟨_, rfl, h.addOrphanTx tx⟩
  | erase hash => exact ⟨_, rfl, h.eraseOrphanTx hash⟩
  | limit nMaxOrphans getRandHash =>
      obtain ⟨o', hlimit, hvalid, _⟩ := limitOrphanTxSize_spec h nMaxOrphans getRandHash
      exact ⟨o', by rw [OrphanTxs.step, hlimit, Option.map_some], hvalid⟩

theorem Valid.run (h : o.Valid txHash) (calls : List OrphanTxCall) :
    ∃ o', o.run txHash calls = some o' ∧ o'.Valid txHash := by
  induction calls generalizing o with
  | nil => exact ⟨o, rfl, h⟩
  | cons call calls ih =>
      obtain ⟨o₁, hstep, hvalid⟩ := h.step call
      rw [OrphanTxs.run, hstep]
      exact ih hvalid

/-- Every run ends in a map with its index, where the limit can be reached and a transaction can be erased without
touching the others. -/
theorem run_indexes (txHash : CTransaction → UInt256) (calls : List OrphanTxCall) :
    ∃ o, empty.run txHash calls = some o ∧ o.Valid txHash ∧
      (∀ nMaxOrphans getRandHash, ∃ nEvicted o', o.limitOrphanTxSize nMaxOrphans getRandHash = some (nEvicted, o') ∧
        o'.size ≤ nMaxOrphans ∧ o'.Valid txHash) ∧
      ∀ hash k, k ≠ hash →
        (o.eraseOrphanTx hash).mapOrphanTransactions.lookup k = o.mapOrphanTransactions.lookup k ∧
          ∀ prev, k ∈ ((o.eraseOrphanTx hash).mapOrphanTransactionsByPrev prev).getD ∅ ↔
            k ∈ (o.mapOrphanTransactionsByPrev prev).getD ∅ := by
  obtain ⟨o, hrun, hvalid⟩ := (Valid.empty txHash).run calls
  refine ⟨o, hrun, hvalid, fun nMaxOrphans getRandHash => ?_, fun hash k hne => eraseOrphanTx_frame o hne⟩
  obtain ⟨o', hlimit, hvalid', hsize⟩ := limitOrphanTxSize_spec hvalid nMaxOrphans getRandHash
  exact ⟨_, o', hlimit, hsize ▸ Nat.min_le_right _ _, hvalid'⟩

end OrphanTxs

end ProCurrency
