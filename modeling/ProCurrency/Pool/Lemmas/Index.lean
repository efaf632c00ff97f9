import Mathlib.Data.Set.Function
import ProCurrency.Pool.TxMemPool

/-!
# What the operations of the memory pool keep

The index of the spent outputs is that of the entries, whatever is removed and in which order. A removal takes entries
away and puts none there, so that what it has not reached yet is still as it was.
-/

namespace ProCurrency

/-- No two transactions have one hash, and none is spent from by one that it spends from. -/
structure PoolEnv.HashesApart (env : PoolEnv) (txs : Set CTransaction) (rank : UInt256 → Nat) : Prop where
  injOn : Set.InjOn env.txHash txs
  rank_lt : ∀ tx ∈ txs, ∀ prevout ∈ tx.outPoints, rank prevout.hash < rank (env.txHash tx)

namespace CTxMemPool

structure Indexed (env : PoolEnv) (txs : Set CTransaction) (pool : CTxMemPool) : Prop where
  index : OwnerIndex.Indexes CInPoint.mk CTransaction.outPoints pool.heap pool.mapNextTx
  entry : ∀ hash ptx, pool.mapTx hash = some ptx ↔ ∃ tx, pool.heap ptx = some tx ∧ env.txHash tx = hash
  fresh : ∀ ptx, pool.nextAddress ≤ ptx → pool.heap ptx = none
  known : ∀ ptx tx, pool.heap ptx = some tx → tx ∈ txs

/-- What is left is what was there. -/
def Within (pool' pool : CTxMemPool) : Prop := ∀ ptx tx, pool'.heap ptx = some tx → pool.heap ptx = some tx

variable {env : PoolEnv} {txs : Set CTransaction} {rank : UInt256 → Nat} {pool pool' pool'' : CTxMemPool}
  {hash : UInt256} {tx tx' txRead : CTransaction} {ptx ptx' : Nat} {fuel : Nat} {fRecursive fEntry : Bool}

theorem injective_inPoint : Function.Injective2 CInPoint.mk := by
  intro ptx ptx' n n' h
  cases h
  exact ⟨rfl, rfl⟩

theorem Within.refl (pool : CTxMemPool) : Within pool pool := fun _ _ h => h

theorem Within.trans (h' : Within pool'' pool') (h : Within pool' pool) : Within pool'' pool :=
  fun ptx tx htx => h ptx tx (h' ptx tx htx)

/-! ## Reading -/

namespace Indexed

theorem empty (env : PoolEnv) (txs : Set CTransaction) : Indexed env txs .empty where
  index := .empty
  entry _ _ := ⟨(nomatch ·), fun ⟨_, h, _⟩ => nomatch h⟩
  fresh _ _ := rfl
  known _ _ h := nomatch h

theorem mapTx_of_heap (h : Indexed env txs pool) (htx : pool.heap ptx = some tx) :
    pool.mapTx (env.txHash tx) = some ptx := (h.entry _ _).mpr ⟨tx, htx, rfl⟩

theorem hasTx_iff (h : Indexed env txs pool) :
    pool.hasTx hash = true ↔ ∃ ptx tx, pool.heap ptx = some tx ∧ env.txHash tx = hash := by
  rw [hasTx, Option.isSome_iff_exists]
  exact exists_congr fun ptx => h.entry hash ptx

theorem lookup_of_heap (h : Indexed env txs pool) (htx : pool.heap ptx = some tx) :
    pool.lookup (env.txHash tx) = some tx := by
  rw [lookup, h.mapTx_of_heap htx]
  exact htx

theorem spender_unique (h : Indexed env txs pool) (htx : pool.heap ptx = some tx)
    (htx' : pool.heap ptx' = some tx') {prevout : COutPoint} (hp : prevout ∈ tx.outPoints)
    (hp' : prevout ∈ tx'.outPoints) : ptx = ptx' ∧ tx = tx' := by
  obtain rfl := h.index.owner_unique injective_inPoint htx htx' hp hp'
  exact ⟨rfl, Option.some.inj (htx.symm.trans htx')⟩

/-- An output is in the index when a transaction of the pool spends it. -/
theorem mapNextTx_eq_none_iff (h : Indexed env txs pool) {prevout : COutPoint} :
    pool.mapNextTx prevout = none ↔ ∀ ptx tx, pool.heap ptx = some tx → prevout ∉ tx.outPoints :=
  h.index.eq_none_iff

/-- An address in the index is that of an entry. -/
theorem heap_of_mapNextTx (h : Indexed env txs pool) {prevout : COutPoint} {it : CInPoint}
    (hit : pool.mapNextTx prevout = some it) :
    ∃ tx, pool.heap it.ptx = some tx ∧ tx.outPoints[it.n]? = some prevout := by
  obtain ⟨ptx, n, tx, rfl, htx, hn⟩ := h.index.sound prevout it hit
  exact ⟨tx, htx, hn⟩

/-! ## Adding -/

theorem addUnchecked (h : Indexed env txs pool) (htx : tx ∈ txs) (hnew : pool.hasTx (env.txHash tx) = false)
    (hfree : ∀ prevout ∈ tx.outPoints, pool.mapNextTx prevout = none) :
    Indexed env txs (pool.addUnchecked (env.txHash tx) tx) := by
  have hnone : pool.mapTx (env.txHash tx) = none := Option.isSome_eq_false_iff.mp hnew |> Option.isNone_iff_eq_none.mp
  have hheap : pool.heap pool.nextAddress = none := h.fresh _ le_rfl
  have hadd : pool.addUnchecked (env.txHash tx) tx =
      { pool with
        nTransactionsUpdated := pool.nTransactionsUpdated + 1
        mapTx := Function.update pool.mapTx (env.txHash tx) (some pool.nextAddress)
        mapNextTx := OwnerIndex.addFrom CInPoint.mk pool.nextAddress 0 pool.mapNextTx tx.outPoints
        heap := Function.update pool.heap pool.nextAddress (some tx)
        nextAddress := pool.nextAddress + 1 } := by
    simp [CTxMemPool.addUnchecked, hnone, hnew]
  rw [hadd]
  constructor
  · exact h.index.insert hheap hfree
  · intro hash ptx
    rcases eq_or_ne ptx pool.nextAddress with rfl | hptx
    · rcases eq_or_ne hash (env.txHash tx) with rfl | hhash
      · simp
      · simp only [Function.update_of_ne hhash, Function.update_self, Option.some.injEq]
        constructor
        · intro hmap
          obtain ⟨tx', htx', -⟩ := (h.entry _ _).mp hmap
          rw [hheap] at htx'
          cases htx'
        · rintro ⟨tx', rfl, rfl⟩
          exact absurd rfl hhash
    · rcases eq_or_ne hash (env.txHash tx) with rfl | hhash
      · simp only [Function.update_self, Function.update_of_ne hptx, Option.some.injEq]
        constructor
        · intro heq
          exact absurd heq.symm hptx
        · intro hold
          have hmap := (h.entry _ _).mpr hold
          rw [hnone] at hmap
          cases hmap
      · simp only [Function.update_of_ne hhash, Function.update_of_ne hptx]
        exact h.entry hash ptx
  · intro ptx hle
    have hlt : pool.nextAddress < ptx := hle
    exact (Function.update_of_ne hlt.ne' _ _).trans (h.fresh ptx hlt.le)
  · intro ptx tx' htx'
    dsimp only at htx'
    rcases eq_or_ne ptx pool.nextAddress with rfl | hptx
    · rw [Function.update_self] at htx'
      cases htx'
      exact htx
    · rw [Function.update_of_ne hptx] at htx'
      exact h.known ptx tx' htx'

/-! ## Removing -/

theorem heap_eraseTx (h : Indexed env txs pool) (tx txRead : CTransaction) :
    (pool.eraseTx hash tx txRead).heap ptx = some tx' ↔ pool.heap ptx = some tx' ∧ env.txHash tx' ≠ hash := by
  rw [eraseTx]
  cases hmap : pool.mapTx hash with
  | none =>
      refine ⟨fun htx' => ⟨htx', ?_⟩, And.left⟩
      rintro rfl
      rw [h.mapTx_of_heap htx'] at hmap
      cases hmap
  | some ptx₀ =>
      obtain ⟨tx₀, htx₀, hhash⟩ := (h.entry _ _).mp hmap
      rcases eq_or_ne ptx ptx₀ with rfl | hne
      · simp only [Function.update_self, htx₀, Option.some.injEq]
        constructor
        · intro hcontra
          cases hcontra
        · rintro ⟨rfl, hcontra⟩
          exact absurd hhash hcontra
      · simp only [Function.update_of_ne hne]
        refine ⟨fun htx' => ⟨htx', ?_⟩, And.left⟩
        rintro rfl
        exact hne (Option.some.inj ((h.mapTx_of_heap htx').symm.trans hmap))

/-- An entry goes with the outputs that it alone spends. -/
theorem eraseTx (h : Indexed env txs pool) (txRead : CTransaction)
    (hother : ∀ ptx tx', pool.heap ptx = some tx' → tx' = tx ∨ ∀ prevout ∈ tx'.outPoints, prevout ∉ tx.outPoints)
    (hsame : ∀ ptx tx', pool.heap ptx = some tx' → env.txHash tx' = env.txHash tx → tx' = tx) :
    Indexed env txs (pool.eraseTx (env.txHash tx) tx txRead) := by
  constructor
  · refine h.index.eraseAll ?_ ?_
    · intro ptx tx' htx'
      obtain ⟨hheap, hne⟩ := (h.heap_eraseTx tx txRead).mp htx'
      refine ⟨hheap, ?_⟩
      obtain rfl | hout := hother ptx tx' hheap
      · exact absurd rfl hne
      · exact hout
    · intro ptx tx' hheap
      rcases eq_or_ne (env.txHash tx') (env.txHash tx) with heq | hne
      · obtain rfl := hsame ptx tx' hheap heq
        exact Or.inr fun _ hp => hp
      · exact Or.inl ((h.heap_eraseTx tx txRead).mpr ⟨hheap, hne⟩)
  · intro hash ptx
    have hmap : (pool.eraseTx (env.txHash tx) tx txRead).mapTx hash =
        Function.update pool.mapTx (env.txHash tx) none hash := rfl
    rw [hmap]
    rcases eq_or_ne hash (env.txHash tx) with rfl | hne
    · rw [Function.update_self]
      refine ⟨(nomatch ·), ?_⟩
      rintro ⟨tx', htx', heq⟩
      exact absurd heq ((h.heap_eraseTx tx txRead).mp htx').2
    · rw [Function.update_of_ne hne, h.entry]
      refine exists_congr fun tx' => ?_
      rw [h.heap_eraseTx]
      constructor
      · rintro ⟨htx', rfl⟩
        exact ⟨⟨htx', hne⟩, rfl⟩
      · rintro ⟨⟨htx', -⟩, rfl⟩
        exact ⟨htx', rfl⟩
  · intro ptx hle
    cases hheap : (pool.eraseTx (env.txHash tx) tx txRead).heap ptx with
    | none => rfl
    | some tx' =>
        have hold := ((h.heap_eraseTx tx txRead).mp hheap).1
        rw [h.fresh ptx hle] at hold
        cases hold
  · intro ptx tx' htx'
    exact h.known ptx tx' ((h.heap_eraseTx tx txRead).mp htx').1

end Indexed

/-- What `remove` makes of a pool. -/
structure Removes (env : PoolEnv) (txs : Set CTransaction) (tx : CTransaction) (pool pool' : CTxMemPool) : Prop where
  indexed : Indexed env txs pool'
  within : Within pool' pool
  gone : ∀ ptx tx', pool'.heap ptx = some tx' → env.txHash tx' ≠ env.txHash tx

/-- The loop over the outputs leaves an index, when each removal does. -/
theorem removeSpenders_within {rem : CTxMemPool → CTransaction → Option CTxMemPool} {is : List Nat}
    (hrem : ∀ pool pool' tx, Indexed env txs pool → tx ∈ txs → rem pool tx = some pool' →
      Removes env txs tx pool pool')
    (h : Indexed env txs pool) (heq : pool.removeSpenders rem hash is = some pool') :
    Indexed env txs pool' ∧ Within pool' pool := by
  induction is generalizing pool with
  | nil =>
      cases heq
      exact ⟨h, .refl _⟩
  | cons i is ih =>
      rw [removeSpenders] at heq
      cases hit : pool.mapNextTx { hash, n := UInt32.ofNat i } with
      | none =>
          rw [hit] at heq
          exact ih h heq
      | some it =>
          obtain ⟨tx, htx, -⟩ := h.heap_of_mapNextTx hit
          simp only [hit, htx] at heq
          cases hremoved : rem pool tx with
          | none =>
              rw [hremoved] at heq
              cases heq
          | some pool₁ =>
              rw [hremoved] at heq
              have hremoves := hrem pool pool₁ tx h (h.known _ _ htx) hremoved
              obtain ⟨hindexed, hwithin⟩ := ih hremoves.indexed heq
              exact ⟨hindexed, hwithin.trans hremoves.within⟩

/-- What is left once the descendants are gone can be erased, also when the transaction was among them. -/
theorem Indexed.removes_eraseTx (hinj : Set.InjOn env.txHash txs) (h : Indexed env txs pool) (htx : tx ∈ txs)
    (hhas : pool.hasTx (env.txHash tx) = true) (h' : Indexed env txs pool') (hwithin : Within pool' pool)
    (txRead : CTransaction) : Removes env txs tx pool (pool'.eraseTx (env.txHash tx) tx txRead) := by
  have hsame : ∀ ptx tx', pool.heap ptx = some tx' → env.txHash tx' = env.txHash tx → tx' = tx :=
    fun ptx tx' hheap heq => hinj (h.known ptx tx' hheap) htx heq
  obtain ⟨ptx, tx₀, hheap, hhash⟩ := h.hasTx_iff.mp hhas
  obtain rfl := hsame ptx tx₀ hheap hhash
  refine ⟨h'.eraseTx txRead ?_ fun ptx tx' htx' => hsame ptx tx' (hwithin ptx tx' htx'), ?_, ?_⟩
  · intro ptx' tx' htx'
    rcases Decidable.em (∃ prevout ∈ tx'.outPoints, prevout ∈ tx₀.outPoints) with ⟨prevout, hp', hp⟩ | hnone
    · exact Or.inl (h.spender_unique (hwithin ptx' tx' htx') hheap hp' hp).2
    · exact Or.inr fun prevout hp' hp => hnone ⟨prevout, hp', hp⟩
  · intro ptx' tx' htx'
    exact hwithin ptx' tx' ((h'.heap_eraseTx tx₀ txRead).mp htx').1
  · intro ptx' tx' htx'
    exact ((h'.heap_eraseTx tx₀ txRead).mp htx').2

theorem Indexed.remove (hinj : Set.InjOn env.txHash txs) (h : Indexed env txs pool) (htx : tx ∈ txs)
    (heq : pool.remove env fuel tx fRecursive fEntry = some pool') : Removes env txs tx pool pool' := by
  induction fuel generalizing pool pool' tx fRecursive fEntry with
  | zero => cases heq
  | succ fuel ih =>
      rw [CTxMemPool.remove] at heq
      cases hhas : pool.hasTx (env.txHash tx) with
      | false =>
          rw [hhas] at heq
          cases heq
          refine ⟨h, .refl _, fun ptx tx' htx' hcontra => ?_⟩
          rw [h.hasTx_iff.mpr ⟨ptx, tx', htx', hcontra⟩] at hhas
          cases hhas
      | true =>
          simp only [hhas, Bool.not_true, Bool.false_eq_true, if_false] at heq
          cases fRecursive with
          | false =>
              cases heq
              exact h.removes_eraseTx hinj htx hhas h (.refl pool) _
          | true =>
              simp only [if_true] at heq
              cases hspenders : pool.removeSpenders (fun pool tx => CTxMemPool.remove env fuel pool tx true true)
                  (env.txHash tx) (List.range tx.vout.length) with
              | none =>
                  rw [hspenders] at heq
                  cases heq
              | some pool₁ =>
                  rw [hspenders] at heq
                  cases heq
                  obtain ⟨hindexed, hwithin⟩ := removeSpenders_within
                    (fun pool pool' tx h htx heq => ih h htx heq) h hspenders
                  exact h.removes_eraseTx hinj htx hhas hindexed hwithin _

theorem Indexed.removeConflictsFrom (hinj : Set.InjOn env.txHash txs) (h : Indexed env txs pool) {vin : List CTxIn}
    (heq : removeConflictsFrom env fuel tx pool vin = some pool') :
    Indexed env txs pool' ∧ Within pool' pool ∧
      ∀ ptx tx', pool'.heap ptx = some tx' → ∀ txin ∈ vin, txin.prevout ∈ tx'.outPoints → tx' = tx := by
  induction vin generalizing pool with
  | nil =>
      cases heq
      exact ⟨h, .refl _, fun _ _ _ _ hmem => nomatch hmem⟩
  | cons txin vin ih =>
      rw [CTxMemPool.removeConflictsFrom] at heq
      cases hit : pool.mapNextTx txin.prevout with
      | none =>
          rw [hit] at heq
          obtain ⟨hindexed, hwithin, hleft⟩ := ih h heq
          refine ⟨hindexed, hwithin, fun ptx tx' htx' txin' hmem hspends => ?_⟩
          obtain rfl | hmem := List.mem_cons.mp hmem
          · exact absurd hspends (h.mapNextTx_eq_none_iff.mp hit ptx tx' (hwithin ptx tx' htx'))
          · exact hleft ptx tx' htx' txin' hmem hspends
      | some it =>
          obtain ⟨txConflict, hheap, hn⟩ := h.heap_of_mapNextTx hit
          have hconflict : txin.prevout ∈ txConflict.outPoints := List.mem_of_getElem? hn
          simp only [hit, hheap] at heq
          split_ifs at heq with hsame
          · obtain ⟨hindexed, hwithin, hleft⟩ := ih h heq
            refine ⟨hindexed, hwithin, fun ptx tx' htx' txin' hmem hspends => ?_⟩
            obtain rfl | hmem := List.mem_cons.mp hmem
            · exact (h.spender_unique (hwithin ptx tx' htx') hheap hspends hconflict).2.trans hsame
            · exact hleft ptx tx' htx' txin' hmem hspends
          · cases hremoved : pool.remove env fuel txConflict true true with
            | none =>
                rw [hremoved] at heq
                cases heq
            | some pool₁ =>
                rw [hremoved] at heq
                have hremoves := h.remove hinj (h.known _ _ hheap) hremoved
                obtain ⟨hindexed, hwithin, hleft⟩ := ih hremoves.indexed heq
                refine ⟨hindexed, hwithin.trans hremoves.within, fun ptx tx' htx' txin' hmem hspends => ?_⟩
                obtain rfl | hmem := List.mem_cons.mp hmem
                · have hold := hremoves.within ptx tx' (hwithin ptx tx' htx')
                  have heq := (h.spender_unique hold hheap hspends hconflict).2
                  exact absurd (congrArg env.txHash heq) (hremoves.gone ptx tx' (hwithin ptx tx' htx'))
                · exact hleft ptx tx' htx' txin' hmem hspends

/-- What `removeConflicts` leaves of the spenders of what a transaction spends is that transaction. -/
theorem Indexed.removeConflicts (hinj : Set.InjOn env.txHash txs) (h : Indexed env txs pool)
    (heq : pool.removeConflicts env fuel tx = some pool') :
    Indexed env txs pool' ∧ Within pool' pool ∧
      ∀ ptx tx', pool'.heap ptx = some tx' → ∀ prevout ∈ tx.outPoints, prevout ∈ tx'.outPoints → tx' = tx := by
  obtain ⟨hindexed, hwithin, hleft⟩ := h.removeConflictsFrom hinj heq
  refine ⟨hindexed, hwithin, fun ptx tx' htx' prevout hp hspends => ?_⟩
  obtain ⟨txin, hmem, rfl⟩ := List.mem_map.mp hp
  exact hleft ptx tx' htx' txin hmem hspends

theorem Indexed.clear (env : PoolEnv) (txs : Set CTransaction) (pool : CTxMemPool) :
    Indexed env txs pool.clear where
  index := .empty
  entry _ _ := ⟨(nomatch ·), fun ⟨_, h, _⟩ => nomatch h⟩
  fresh _ _ := rfl
  known _ _ h := nomatch h

/-! ## The depth of the recursion -/

/-- Each removal takes its descendants with it, which have a higher rank. -/
def Below (env : PoolEnv) (rank : UInt256 → Nat) (bound : Nat) (pool : CTxMemPool) : Prop :=
  ∀ ptx tx, pool.heap ptx = some tx → rank (env.txHash tx) < bound

theorem Below.within {bound : Nat} (h : Below env rank bound pool) (hwithin : Within pool' pool) :
    Below env rank bound pool' := fun ptx tx htx => h ptx tx (hwithin ptx tx htx)

theorem removeSpenders_returns {rem : CTxMemPool → CTransaction → Option CTxMemPool} {bound : Nat} {is : List Nat}
    (hapart : env.HashesApart txs rank)
    (hrem : ∀ pool tx, Indexed env txs pool → Below env rank bound pool → tx ∈ txs →
      rank hash < rank (env.txHash tx) → ∃ pool', rem pool tx = some pool' ∧ Removes env txs tx pool pool')
    (h : Indexed env txs pool) (hbelow : Below env rank bound pool) :
    ∃ pool', pool.removeSpenders rem hash is = some pool' := by
  induction is generalizing pool with
  | nil => exact ⟨pool, rfl⟩
  | cons i is ih =>
      rw [removeSpenders]
      cases hit : pool.mapNextTx { hash, n := UInt32.ofNat i } with
      | none => exact ih h hbelow
      | some it =>
          obtain ⟨tx, htx, hn⟩ := h.heap_of_mapNextTx hit
          have hlt := hapart.rank_lt tx (h.known _ _ htx) _ (List.mem_of_getElem? hn)
          obtain ⟨pool₁, hremoved, hremoves⟩ := hrem pool tx h hbelow (h.known _ _ htx) hlt
          simp only [htx, hremoved]
          exact ih hremoves.indexed (hbelow.within hremoves.within)

theorem Indexed.remove_returns {bound : Nat} (hapart : env.HashesApart txs rank) (h : Indexed env txs pool)
    (hbelow : Below env rank bound pool) (htx : tx ∈ txs) (hfuel : bound ≤ rank (env.txHash tx) + fuel)
    (fRecursive fEntry : Bool) : ∃ pool', pool.remove env (fuel + 1) tx fRecursive fEntry = some pool' := by
  induction fuel generalizing pool tx fRecursive fEntry with
  | zero =>
      rw [CTxMemPool.remove]
      cases hhas : pool.hasTx (env.txHash tx) with
      | false => exact ⟨pool, rfl⟩
      | true =>
          obtain ⟨ptx, tx', htx', heq⟩ := h.hasTx_iff.mp hhas
          have hlt := hbelow ptx tx' htx'
          rw [heq] at hlt
          omega
  | succ fuel ih =>
      rw [CTxMemPool.remove]
      cases pool.hasTx (env.txHash tx) with
      | false => exact ⟨pool, rfl⟩
      | true =>
          simp only [Bool.not_true, Bool.false_eq_true, if_false]
          cases fRecursive with
          | false => exact ⟨_, rfl⟩
          | true =>
              have hspender : ∀ pool tx', Indexed env txs pool → Below env rank bound pool → tx' ∈ txs →
                  rank (env.txHash tx) < rank (env.txHash tx') →
                  ∃ pool', pool.remove env (fuel + 1) tx' true true = some pool' ∧
                    Removes env txs tx' pool pool' := by
                intro pool tx' h hbelow htx' hlt
                obtain ⟨pool', hremoved⟩ := ih h hbelow htx' (by omega) true true
                exact ⟨pool', hremoved, h.remove hapart.injOn htx' hremoved⟩
              obtain ⟨pool₁, hspenders⟩ := removeSpenders_returns hapart hspender h hbelow
              rw [if_pos rfl, hspenders]
              exact ⟨_, rfl⟩

theorem Indexed.removeConflictsFrom_returns {bound : Nat} (hapart : env.HashesApart txs rank)
    (h : Indexed env txs pool) (hbelow : Below env rank bound pool) (hfuel : bound ≤ fuel) (tx : CTransaction)
    (vin : List CTxIn) : ∃ pool', CTxMemPool.removeConflictsFrom env (fuel + 1) tx pool vin = some pool' := by
  induction vin generalizing pool with
  | nil => exact ⟨pool, rfl⟩
  | cons txin vin ih =>
      rw [CTxMemPool.removeConflictsFrom]
      cases hit : pool.mapNextTx txin.prevout with
      | none => exact ih h hbelow
      | some it =>
          obtain ⟨txConflict, hheap, -⟩ := h.heap_of_mapNextTx hit
          have hknown := h.known _ _ hheap
          simp only [hheap]
          split_ifs
          · exact ih h hbelow
          · have hdepth : bound ≤ rank (env.txHash txConflict) + fuel := hfuel.trans (Nat.le_add_left _ _)
            obtain ⟨pool₁, hremoved⟩ := h.remove_returns hapart hbelow hknown hdepth true true
            have hremoves := h.remove hapart.injOn hknown hremoved
            simp only [hremoved]
            exact ih hremoves.indexed (hbelow.within hremoves.within)

/-! ## More fuel -/

theorem removeSpenders_mono {rem rem' : CTxMemPool → CTransaction → Option CTxMemPool} {is : List Nat}
    (hrem : ∀ pool tx pool', rem pool tx = some pool' → rem' pool tx = some pool')
    (heq : pool.removeSpenders rem hash is = some pool') : pool.removeSpenders rem' hash is = some pool' := by
  induction is generalizing pool with
  | nil => exact heq
  | cons i is ih =>
      rw [removeSpenders] at heq ⊢
      cases hit : pool.mapNextTx { hash, n := UInt32.ofNat i } with
      | none =>
          rw [hit] at heq
          exact ih heq
      | some it =>
          simp only [hit] at heq
          cases htx : pool.heap it.ptx with
          | none =>
              rw [htx] at heq
              cases heq
          | some tx =>
              simp only [htx] at heq
              cases hremoved : rem pool tx with
              | none =>
                  rw [hremoved] at heq
                  cases heq
              | some pool₁ =>
                  rw [hremoved] at heq
                  simp only [htx, hrem pool tx pool₁ hremoved]
                  exact ih heq

theorem remove_succ (heq : pool.remove env fuel tx fRecursive fEntry = some pool') :
    pool.remove env (fuel + 1) tx fRecursive fEntry = some pool' := by
  induction fuel generalizing pool pool' tx fRecursive fEntry with
  | zero => cases heq
  | succ fuel ih =>
      rw [CTxMemPool.remove] at heq ⊢
      cases hhas : pool.hasTx (env.txHash tx) with
      | false =>
          rw [hhas] at heq
          exact heq
      | true =>
          cases fRecursive with
          | false =>
              rw [hhas] at heq
              exact heq
          | true =>
              simp only [hhas, Bool.not_true, Bool.false_eq_true, if_false, if_true] at heq ⊢
              cases hspenders : pool.removeSpenders (fun pool tx => CTxMemPool.remove env fuel pool tx true true)
                  (env.txHash tx) (List.range tx.vout.length) with
              | none =>
                  rw [hspenders] at heq
                  cases heq
              | some pool₁ =>
                  rw [hspenders] at heq
                  rw [removeSpenders_mono (fun pool tx pool' h => ih h) hspenders]
                  exact heq

theorem remove_mono {fuel' : Nat} (hle : fuel ≤ fuel')
    (heq : pool.remove env fuel tx fRecursive fEntry = some pool') :
    pool.remove env fuel' tx fRecursive fEntry = some pool' := by
  induction hle with
  | refl => exact heq
  | step _ ih => exact remove_succ ih

theorem removeConflictsFrom_mono {fuel' : Nat} {vin : List CTxIn} (hle : fuel ≤ fuel')
    (heq : removeConflictsFrom env fuel tx pool vin = some pool') :
    removeConflictsFrom env fuel' tx pool vin = some pool' := by
  induction vin generalizing pool with
  | nil => exact heq
  | cons txin vin ih =>
      rw [removeConflictsFrom] at heq ⊢
      cases hit : pool.mapNextTx txin.prevout with
      | none =>
          rw [hit] at heq
          exact ih heq
      | some it =>
          simp only [hit] at heq
          cases htx : pool.heap it.ptx with
          | none =>
              rw [htx] at heq
              cases heq
          | some txConflict =>
              simp only [htx] at heq ⊢
              split_ifs at heq ⊢ with hsame
              · exact ih heq
              · cases hremoved : pool.remove env fuel txConflict true true with
                | none =>
                    rw [hremoved] at heq
                    cases heq
                | some pool₁ =>
                    rw [hremoved] at heq
                    rw [remove_mono hle hremoved]
                    exact ih heq

end CTxMemPool

end ProCurrency
