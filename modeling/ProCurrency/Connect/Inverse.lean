import ProCurrency.Connect.KeyImages
import ProCurrency.Connect.Lemmas.Index

/-!
# Disconnection undoes connection

`DisconnectBlock` after `ConnectBlock` gives back the index. `FetchInputs` and `ConnectInputs` pass over the ring
inputs of a transaction; `DisconnectInputs` does not, and takes the first bytes of a key image for the hash of a
transaction.
-/

namespace ProCurrency

namespace ConnectEnv

variable {G : Type} (env : ConnectEnv G)

/-- The marks that stand under a hash, without what the block marks: those of a transaction of a list, or those
of the index. -/
def vSpentOf (s : ConnectStore) (vtx : List CTransaction) (hash : UInt256) : Option (List CDiskTxPos) :=
  match vtx.find? fun tx => env.txHash tx = hash with
  | some tx => some (List.replicate tx.vout.length .null)
  | none => (s.txIndex hash).map CTxIndex.vSpent

/-- Each output that a transaction names, where there is one, is not spent. The transactions stand with the last
first: an input finds those behind it. -/
def undoable (s : ConnectStore) : List CTransaction → Bool
  | [] => true
  | tx :: vtx =>
      (tx.prevouts.all fun prevout =>
        (env.vSpentOf s (tx :: vtx) prevout.hash).all fun vSpent => vSpent[prevout.n.toNat]? == some .null) &&
        undoable s vtx

/-- The index while a block is disconnected: the transactions `vtx` are left, and the outputs `undone` have been
named. -/
structure Undoing (s : ConnectStore) (prevouts undone : List COutPoint) (vtx : List CTransaction)
    (idx : UInt256 → Option CTxIndex) : Prop where
  entries : env.HasEntries idx vtx
  off : env.TouchedOff vtx prevouts s.txIndex idx
  unmarked : Unmarked (undone.filter fun prevout => prevout.hash ∉ vtx.map env.txHash) idx

variable {env} {s s₁ s' : ConnectStore} {prevouts undone : List COutPoint} {tx : CTransaction}
  {vtx : List CTransaction} {idx : UInt256 → Option CTxIndex} {fOk : Bool}

theorem vSpentOf_of_mem (hnodup : (vtx.map env.txHash).Nodup) (htx : tx ∈ vtx) :
    env.vSpentOf s vtx (env.txHash tx) = some (List.replicate tx.vout.length .null) := by
  rw [vSpentOf]
  cases hfind : vtx.find? fun tx' => env.txHash tx' = env.txHash tx with
  | none => exact absurd (List.find?_eq_none.1 hfind tx htx) (by simp)
  | some tx' =>
      have hhash := List.find?_some hfind
      rw [decide_eq_true_iff] at hhash
      rw [List.inj_on_of_nodup_map hnodup (List.mem_of_find?_eq_some hfind) htx hhash]

theorem vSpentOf_of_notMem {hash : UInt256} (h : hash ∉ vtx.map env.txHash) :
    env.vSpentOf s vtx hash = (s.txIndex hash).map CTxIndex.vSpent := by
  rw [vSpentOf, List.find?_eq_none.2]
  intro tx htx hhash
  exact h (List.mem_map.2 ⟨tx, htx, of_decide_eq_true hhash⟩)

/-- An output that is named is in range when it is not spent. -/
theorem Undoing.inRange_eq (hinv : Undoing env s prevouts undone vtx idx) (hnodup : (vtx.map env.txHash).Nodup)
    (prevout : COutPoint) :
    inRange idx prevout = (env.vSpentOf s vtx prevout.hash).all fun vSpent => prevout.n.toNat < vSpent.length := by
  rw [inRange]
  rcases Decidable.em (prevout.hash ∈ vtx.map env.txHash) with hmem | hmem
  · obtain ⟨tx, htx, hhash⟩ := List.mem_map.1 hmem
    obtain ⟨e, he, hlength⟩ := hinv.entries tx htx
    rw [← hhash, vSpentOf_of_mem hnodup htx, he, Option.all_some, Option.all_some, hlength,
      List.length_replicate]
  · rw [vSpentOf_of_notMem hmem]
    obtain ⟨hnone, hsome⟩ := hinv.off prevout.hash hmem
    cases hs : s.txIndex prevout.hash with
    | none => rw [hnone hs, Option.map_none, Option.all_none, Option.all_none]
    | some e =>
        obtain ⟨e', he', hsame⟩ := hsome e hs
        rw [he', Option.map_some, Option.all_some, Option.all_some, hsame.vSpent.length_eq]

theorem Undoing.step (hinv : Undoing env s prevouts undone (tx :: vtx) s₁.txIndex)
    (hnew : s.txIndex (env.txHash tx) = none) (hnodup : ((tx :: vtx).map env.txHash).Nodup)
    (hsub : tx.prevouts ⊆ prevouts) (h : env.disconnectInputs s₁ tx = (true, s')) :
    Undoing env s prevouts (tx.prevouts ++ undone) vtx s'.txIndex := by
  obtain ⟨idx, htouched, hunmarked, hidx⟩ := (disconnectInputs_spec h).2 rfl
  rw [List.map_cons, List.nodup_cons] at hnodup
  rw [hidx]
  refine ⟨fun tx' htx' => ?_, fun hash hhash => ?_, ?_⟩
  · obtain ⟨e, he, hlength⟩ := hinv.entries tx' (List.mem_cons_of_mem _ htx')
    obtain ⟨e', he', hsame⟩ := htouched.some _ e he
    have hne : env.txHash tx' ≠ env.txHash tx := by
      intro heq
      exact hnodup.1 (heq ▸ List.mem_map_of_mem htx')
    exact ⟨e', by rw [Function.update_of_ne hne, he'], by rw [hsame.vSpent.length_eq, hlength]⟩
  · rcases Decidable.em (hash = env.txHash tx) with rfl | hne
    · rw [Function.update_self, hnew]
      exact ⟨fun _ => rfl, fun e he => (nomatch he)⟩
    · rw [Function.update_of_ne hne]
      obtain ⟨hnone, hsome⟩ := hinv.off hash (by simp [hne, hhash])
      refine ⟨fun hs => htouched.none _ (hnone hs), fun e hs => ?_⟩
      obtain ⟨e₁, he₁, hsame₁⟩ := hsome e hs
      obtain ⟨e', he', hsame⟩ := htouched.some _ e₁ he₁
      have hmono : e₁.Touches prevouts hash e' := ⟨hsame.pos_eq, hsame.vSpent.mono fun _ => slotsOf_mono hsub⟩
      exact ⟨e', he', hsame₁.trans hmono⟩
  · have hall := hinv.unmarked.append htouched hunmarked
    intro prevout hmem e he
    obtain ⟨hmem, hhash⟩ := List.mem_filter.1 hmem
    have hne : prevout.hash ≠ env.txHash tx := by
      intro heq
      rw [heq, Function.update_self] at he
      cases he
    rw [Function.update_of_ne hne] at he
    refine hall prevout (List.mem_append.2 ?_) e he
    refine (List.mem_append.1 hmem).imp id fun hmem => List.mem_filter.2 ⟨hmem, ?_⟩
    rw [decide_eq_true_iff] at hhash ⊢
    rw [List.map_cons, List.mem_cons, not_or]
    exact ⟨hne, hhash⟩

/-- Each output that a transaction names exists, where its transaction has an entry. -/
def existing (env : ConnectEnv G) (s : ConnectStore) : List CTransaction → Bool
  | [] => true
  | tx :: vtx =>
      (tx.prevouts.all fun prevout =>
        (env.vSpentOf s (tx :: vtx) prevout.hash).all fun vSpent => prevout.n.toNat < vSpent.length) &&
        existing env s vtx

theorem Undoing.run (hinv : Undoing env s prevouts undone vtx s₁.txIndex)
    (hnew : ∀ tx ∈ vtx, s.txIndex (env.txHash tx) = none) (hnodup : (vtx.map env.txHash).Nodup)
    (hsub : vtx.flatMap CTransaction.prevouts ⊆ prevouts) (h : env.disconnectTxs s₁ vtx = (fOk, s')) :
    fOk = env.existing s vtx ∧
      (fOk = true → ∃ undone', Undoing env s prevouts undone' [] s'.txIndex ∧
        vtx.flatMap CTransaction.prevouts ⊆ undone' ∧ undone ⊆ undone') := by
  induction vtx generalizing s₁ undone with
  | nil =>
      cases h
      exact ⟨rfl, fun _ => ⟨undone, hinv, List.nil_subset _, List.Subset.refl _⟩⟩
  | cons tx vtx ih =>
      rw [disconnectTxs] at h
      rw [existing]
      rw [List.flatMap_cons, List.append_subset] at hsub
      rcases hstep : env.disconnectInputs s₁ tx with ⟨fStep, s₂⟩
      rw [hstep] at h
      have hrange : fStep = _ := (disconnectInputs_spec hstep).1
      rw [funext (hinv.inRange_eq hnodup)] at hrange
      rw [← hrange]
      cases fStep with
      | false =>
          cases h
          exact ⟨rfl, fun hfOk => absurd hfOk Bool.false_ne_true⟩
      | true =>
          have hnext := hinv.step (hnew tx List.mem_cons_self) hnodup hsub.1 hstep
          rw [List.map_cons, List.nodup_cons] at hnodup
          obtain ⟨hok, hend⟩ := ih hnext (fun tx' htx' => hnew tx' (List.mem_cons_of_mem _ htx')) hnodup.2
            hsub.2 h
          refine ⟨by rw [hok, Bool.true_and], fun hfOk => ?_⟩
          obtain ⟨undone', hundoing, hvtx, hundone⟩ := hend hfOk
          rw [List.append_subset] at hundone
          exact ⟨undone', hundoing, by rw [List.flatMap_cons, List.append_subset]; exact ⟨hundone.1, hvtx⟩,
            hundone.2⟩

theorem undoable_iff (hnew : ∀ tx ∈ vtx, s.txIndex (env.txHash tx) = none)
    (hnodup : (vtx.map env.txHash).Nodup) :
    env.undoable s vtx = true ↔
      env.existing s vtx = true ∧ Unmarked (vtx.flatMap CTransaction.prevouts) s.txIndex := by
  induction vtx with
  | nil => exact ⟨fun _ => ⟨rfl, fun prevout hmem => absurd hmem List.not_mem_nil⟩, fun _ => rfl⟩
  | cons tx vtx ih =>
      have hfirst : ∀ prevout : COutPoint,
          ((env.vSpentOf s (tx :: vtx) prevout.hash).all fun vSpent => vSpent[prevout.n.toNat]? == some .null) = true ↔
            ((env.vSpentOf s (tx :: vtx) prevout.hash).all fun vSpent => prevout.n.toNat < vSpent.length) = true ∧
              ∀ e, s.txIndex prevout.hash = some e → e.vSpent[prevout.n.toNat]? = some .null := by
        intro prevout
        rcases Decidable.em (prevout.hash ∈ (tx :: vtx).map env.txHash) with hmem | hmem
        · obtain ⟨tx', htx', hhash⟩ := List.mem_map.1 hmem
          rw [← hhash, vSpentOf_of_mem hnodup htx', hnew tx' htx']
          simp [List.getElem?_replicate]
        · rw [vSpentOf_of_notMem hmem]
          cases hs : s.txIndex prevout.hash with
          | none => simp
          | some e =>
              simp only [Option.map_some, Option.all_some, beq_iff_eq, decide_eq_true_iff, Option.some.injEq,
                forall_eq']
              refine ⟨fun hnull => ⟨?_, hnull⟩, fun hnull => hnull.2⟩
              exact (List.getElem?_eq_some_iff.1 hnull).1
      rw [List.map_cons, List.nodup_cons] at hnodup
      rw [undoable, existing, Bool.and_eq_true, Bool.and_eq_true, List.all_eq_true, List.all_eq_true,
        ih (fun tx' htx' => hnew tx' (List.mem_cons_of_mem _ htx')) hnodup.2, List.flatMap_cons]
      constructor
      · rintro ⟨hall, hexists, hunmarked⟩
        refine ⟨⟨fun prevout hmem => ((hfirst prevout).1 (hall prevout hmem)).1, hexists⟩, ?_⟩
        intro prevout hmem
        rcases List.mem_append.1 hmem with hmem | hmem
        · exact ((hfirst prevout).1 (hall prevout hmem)).2
        · exact hunmarked prevout hmem
      · rintro ⟨⟨hall, hexists⟩, hunmarked⟩
        refine ⟨fun prevout hmem => (hfirst prevout).2 ⟨hall prevout hmem, ?_⟩, hexists, fun prevout hmem => ?_⟩
        · exact hunmarked prevout (List.mem_append_left _ hmem)
        · exact hunmarked prevout (List.mem_append_right _ hmem)

variable [AddCommGroup G] {pindex : CBlockIndex} {pprev : List CBlockIndex} {block : CBlock}

/-- For a block that is accepted and none of whose transactions has an entry, `DisconnectBlock` gives back the index
when each output that the block names, where there is one, is not spent before. -/
theorem disconnectBlock_restores_iff (h : env.connectBlock s pindex pprev false block = some s')
    (hnew : ∀ tx ∈ block.vtx, s.txIndex (env.txHash tx) = none) :
    ((env.disconnectBlock s' block).1 = true ∧ (env.disconnectBlock s' block).2.txIndex = s.txIndex) ↔
      env.undoable s block.vtx.reverse = true := by
  obtain ⟨hnodup, hentries, hoff⟩ := connectBlock_touched h
  have hnodup' : (block.vtx.reverse.map env.txHash).Nodup := by
    rw [List.map_reverse, List.nodup_reverse]
    exact hnodup
  have hnew' : ∀ tx ∈ block.vtx.reverse, s.txIndex (env.txHash tx) = none := fun tx htx =>
    hnew tx (List.mem_reverse.1 htx)
  have hstart : Undoing env s (block.vtx.flatMap CTransaction.prevouts) [] block.vtx.reverse s'.txIndex := by
    refine ⟨fun tx htx => hentries tx (List.mem_reverse.1 htx), fun hash hhash => hoff hash ?_,
      fun prevout hmem => absurd hmem List.not_mem_nil⟩
    rwa [List.map_reverse, List.mem_reverse] at hhash
  have hsub : block.vtx.reverse.flatMap CTransaction.prevouts ⊆ block.vtx.flatMap CTransaction.prevouts := by
    intro prevout hmem
    obtain ⟨tx, htx, hprevout⟩ := List.mem_flatMap.1 hmem
    exact List.mem_flatMap.2 ⟨tx, List.mem_reverse.1 htx, hprevout⟩
  rw [undoable_iff hnew' hnodup', disconnectBlock]
  rcases hrun : env.disconnectTxs s' block.vtx.reverse with ⟨fOk, s₁⟩
  obtain ⟨hok, hend⟩ := hstart.run hnew' hnodup' hsub hrun
  cases fOk with
  | false =>
      rw [← hok]
      exact ⟨fun hres => absurd hres.1 Bool.false_ne_true, fun hres => absurd hres.1 Bool.false_ne_true⟩
  | true =>
      obtain ⟨undone, hundoing, hundone, _⟩ := hend rfl
      have hunmarked : Unmarked (block.vtx.reverse.flatMap CTransaction.prevouts) s₁.txIndex := by
        intro prevout hmem
        exact hundoing.unmarked prevout (List.mem_filter.2 ⟨hundone hmem, decide_eq_true List.not_mem_nil⟩)
      rw [← hok, (undoBlock_txIndex env s₁ block.vtx).1]
      refine ⟨fun hres => ⟨rfl, ?_⟩, fun hres => ⟨rfl, ?_⟩⟩
      · rw [← hres.2]
        exact hunmarked
      · funext hash
        obtain ⟨hnone, hsome⟩ := hundoing.off hash List.not_mem_nil
        cases hs : s.txIndex hash with
        | none => exact hnone hs
        | some e =>
            obtain ⟨e', he', hsame⟩ := hsome e hs
            have hvSpent : e'.vSpent = e.vSpent := by
              refine hsame.vSpent.eq fun n hn => ?_
              obtain ⟨prevout, hmem, rfl, rfl⟩ := hn
              have hmem' : prevout ∈ block.vtx.reverse.flatMap CTransaction.prevouts := by
                obtain ⟨tx, htx, hprevout⟩ := List.mem_flatMap.1 hmem
                exact List.mem_flatMap.2 ⟨tx, List.mem_reverse.2 htx, hprevout⟩
              rw [hunmarked prevout hmem' e' he', hres.2 prevout hmem' e hs]
            rw [he']
            cases e
            cases e'
            cases hsame.pos_eq
            cases hvSpent
            rfl

end ConnectEnv

/-! ## A chain of spends in one block, and a key image that names a transaction -/

/-- A block whose last transaction spends what the one before it makes. -/
def chainedBlock : CBlock :=
  let tx : CTransaction :=
    { nVersion := 1
      nTime := 1000
      vin := [{ prevout := { hash := 2, n := 0 }, scriptSig := [], nSequence := 0 }]
      vout := [{ nValue := 499980000, scriptPubKey := [OP_1] }]
      nLockTime := 3 }
  { payingBlock with hashMerkleRoot := 9, vtx := payingBlock.vtx ++ [tx] }

def chainedEnv : ConnectEnv (ZMod (2 ^ 256 + 297)) :=
  { fundedEnv with readTx := fun pos => if pos = fundingPos then some fundingTx else payingBlock.vtx[1]? }

theorem disconnectBlock_restores_chainedBlock :
    ∃ s', chainedEnv.connectBlock fundedStore secondIndex [{ nHeight := 1 }] false chainedBlock = some s' ∧
      ((chainedEnv.disconnectBlock s' chainedBlock).1 = true ∧
          (chainedEnv.disconnectBlock s' chainedBlock).2.txIndex = fundedStore.txIndex ↔
        chainedEnv.undoable fundedStore chainedBlock.vtx.reverse = true) := by
  have haccepted : (chainedEnv.connectBlock fundedStore secondIndex [{ nHeight := 1 }] false
      chainedBlock).isSome = true := by decide +kernel
  obtain ⟨s', hs'⟩ := Option.isSome_iff_exists.1 haccepted
  exact ⟨s', hs', ConnectEnv.disconnectBlock_restores_iff hs' (by decide)⟩

/-- A block whose ring input has a key image that begins with the hash of the funding transaction. -/
def namingBlock : CBlock :=
  ringBlock [{ ringTx 3 with vin := [{ prevout := { hash := 7, n := 65543 }, scriptSig := ringScript, nSequence := 0 }] }]

/-- The block is accepted, and cannot be disconnected. -/
theorem not_restores_namingBlock :
    ∃ s', ringEnv.connectBlock ringStore { nHeight := 30002, nFile := 1, nBlockPos := 2000 } [{ nHeight := 30001 }]
        false namingBlock = some s' ∧
      (∀ tx ∈ namingBlock.vtx, ringStore.txIndex (ringEnv.txHash tx) = none) ∧
      (ringEnv.disconnectBlock s' namingBlock).1 = false ∧
      (ringEnv.disconnectBlock s' namingBlock).2.txIndex ≠ ringStore.txIndex := by
  have hrun : ((ringEnv.connectBlock ringStore { nHeight := 30002, nFile := 1, nBlockPos := 2000 }
      [{ nHeight := 30001 }] false namingBlock).any fun s' =>
        !(ringEnv.disconnectBlock s' namingBlock).1 &&
          ((ringEnv.disconnectBlock s' namingBlock).2.txIndex 3).isSome) = true := by decide +kernel
  obtain ⟨s', hs', hres⟩ := (Option.any_eq_true _ _).1 hrun
  rw [Bool.and_eq_true, Bool.not_eq_true'] at hres
  refine ⟨s', hs', by decide, hres.1, fun heq => ?_⟩
  rw [heq] at hres
  cases hres.2

end ProCurrency
