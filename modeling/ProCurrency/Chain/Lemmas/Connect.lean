import ProCurrency.Chain.BestChain

/-!
# What the steps of a reorganisation leave alone

Inside a transaction nothing that a restart would read changes: the globals, the committed best chain and the
committed connections stay. A commit that succeeds is the only step that changes them.
-/

namespace ProCurrency

open Overlay

namespace ChainState

/-- The committed `hashBestChain`. -/
def diskHash (st : ChainState) : Option Bytes := st.txdb.pdb.content hashBestChainKey

/-- The connections once a block is among them. -/
def withConnected (connected : UInt256 → Bool) (hash : UInt256) : UInt256 → Bool := fun h =>
  if h = hash then true else connected h

def withoutConnected (connected : UInt256 → Bool) (hash : UInt256) : UInt256 → Bool := fun h =>
  if h = hash then false else connected h

/-- No transaction is open. -/
structure Closed (st : ChainState) : Prop where
  fReadOnly : st.txdb.fReadOnly = false
  activeBatch : st.txdb.activeBatch = none

structure Open (st : ChainState) : Prop where
  fReadOnly : st.txdb.fReadOnly = false
  activeBatch : ∃ batch, st.txdb.activeBatch = some batch

/-- The globals but for the links forward. -/
def SameNames (st st' : ChainState) : Prop := ∃ pnext, st'.mem = { st.mem with pnext }

/-- Nothing durable has changed. -/
structure Framed (st st' : ChainState) : Prop where
  names : SameNames st st'
  diskHash : st'.diskHash = st.diskHash
  connected : st'.connected = st.connected

theorem SameNames.refl (st : ChainState) : SameNames st st := ⟨st.mem.pnext, rfl⟩

theorem SameNames.trans {st st' st'' : ChainState} (h : SameNames st st') (h' : SameNames st' st'') :
    SameNames st st'' := by
  obtain ⟨pnext, hmem⟩ := h
  obtain ⟨pnext', hmem'⟩ := h'
  exact ⟨pnext', by rw [hmem', hmem]⟩

theorem Framed.refl (st : ChainState) : Framed st st := ⟨SameNames.refl st, rfl, rfl⟩

theorem Framed.trans {st st' st'' : ChainState} (h : Framed st st') (h' : Framed st' st'') :
    Framed st st'' :=
  ⟨h.names.trans h'.names, h'.diskHash.trans h.diskHash, h'.connected.trans h.connected⟩

theorem andThen_eq_some {step : Option (Bool × ChainState)}
    {next : ChainState → Option (Bool × ChainState)} {ok : Bool} {st' : ChainState} :
    andThen step next = some (ok, st') ↔
      step = some (false, st') ∧ ok = false ∨ ∃ st, step = some (true, st) ∧ next st = some (ok, st') := by
  rcases step with _ | ⟨_ | _, st⟩
  · simp [andThen]
  · simp [andThen, and_comm, eq_comm]
  · simp [andThen]

/-! ## Writes -/

theorem writeDisk_diskHash {st : ChainState} {cs : WriteBatch}
    (h : ∀ c ∈ cs, c.effect hashBestChainKey = none) : (st.writeDisk cs).diskHash = st.diskHash := by
  change applyAll st.txdb.pdb.content cs hashBestChainKey = _
  induction cs generalizing st with
  | nil => rfl
  | cons c cs ih =>
      have hkey := c.apply_eq st.txdb.pdb.content hashBestChainKey
      rw [h c List.mem_cons_self] at hkey
      have hrest : ((st.writeDisk [c]).writeDisk cs).diskHash = (st.writeDisk [c]).diskHash :=
        ih fun c' hc' => h c' (List.mem_cons_of_mem c hc')
      exact hrest.trans hkey

theorem writeAll_some {cs : WriteBatch} {txdb txdb' : CTxDB} (h : writeAll txdb cs = some txdb')
    (hactive : ∃ batch, txdb.activeBatch = some batch) :
    txdb'.pdb = txdb.pdb ∧ txdb'.fReadOnly = txdb.fReadOnly ∧ ∃ batch, txdb'.activeBatch = some batch := by
  induction cs generalizing txdb with
  | nil =>
      cases h
      exact ⟨rfl, rfl, hactive⟩
  | cons c cs ih =>
      obtain ⟨batch, hbatch⟩ := hactive
      rw [writeAll, CTxDB.change] at h
      cases hro : txdb.fReadOnly with
      | true => simp [hro] at h
      | false =>
          simp only [hro, Bool.false_eq_true, ↓reduceIte, hbatch] at h
          obtain ⟨hpdb, hreadOnly, hopen⟩ := ih h ⟨batch ++ [c], rfl⟩
          exact ⟨hpdb, hreadOnly, hopen⟩

/-! ## Transactions -/

variable {st st' : ChainState} {ok : Bool}

theorem txnBegin_spec (hclosed : Closed st) (h : st.txnBegin = some (ok, st')) :
    ok = true ∧ Open st' ∧ Framed st st' ∧ st'.pendingConnected = st.connected := by
  rw [txnBegin, CTxDB.txnBegin, hclosed.activeBatch] at h
  cases h
  exact ⟨rfl, ⟨hclosed.fReadOnly, [], rfl⟩, ⟨SameNames.refl st, rfl, rfl⟩, rfl⟩

/-- The best chain is the last thing that a transaction writes. -/
theorem writeHashBestChain_spec {hash : UInt256} (hopen : Open st)
    (h : st.writeHashBestChain hash = some (ok, st')) :
    ok = true ∧ Open st' ∧ Framed st st' ∧ st'.pendingConnected = st.pendingConnected ∧
      ∃ batch, st'.txdb.activeBatch = some (batch ++ [.put hashBestChainKey (writeUInt256 hash)]) := by
  obtain ⟨batch, hbatch⟩ := hopen.activeBatch
  rw [writeHashBestChain, CTxDB.write, CTxDB.change, hopen.fReadOnly, hbatch] at h
  cases h
  exact ⟨rfl, ⟨rfl, _, rfl⟩, ⟨SameNames.refl st, rfl, rfl⟩, rfl, batch, rfl⟩

theorem txnCommit_spec {fFail : Bool} {hash : UInt256} {batch : WriteBatch}
    (hreadOnly : st.txdb.fReadOnly = false)
    (hbatch : st.txdb.activeBatch = some (batch ++ [.put hashBestChainKey (writeUInt256 hash)]))
    (h : st.txnCommit fFail = some (ok, st')) :
    ok = !fFail ∧ Closed st' ∧ SameNames st st' ∧
      (ok = false → Framed st st') ∧
      (ok = true → st'.diskHash = some (writeUInt256 hash) ∧ st'.connected = st.pendingConnected) := by
  rw [txnCommit, CTxDB.txnCommit, hbatch] at h
  cases fFail with
  | true =>
      cases h
      exact ⟨rfl, ⟨hreadOnly, rfl⟩, SameNames.refl st, fun _ => ⟨SameNames.refl st, rfl, rfl⟩,
        fun hok => Bool.noConfusion hok⟩
  | false =>
      cases h
      refine ⟨rfl, ⟨hreadOnly, rfl⟩, SameNames.refl st, fun hok => Bool.noConfusion hok, fun _ => ⟨?_, rfl⟩⟩
      change applyAll st.txdb.pdb.content _ hashBestChainKey = _
      rw [applyAll_append]
      simp [Change.apply]

/-! ## Blocks -/

theorem connectBlock_spec {outcomes : Outcomes} {block : CBlock} {pindex : List CBlockIndex}
    (hopen : Open st) (h : st.connectBlock outcomes block pindex = some (ok, st')) :
    ok = outcomes.connects block pindex ∧ Open st' ∧ Framed st st' ∧
      (ok = true →
        st'.pendingConnected = withConnected st.pendingConnected (getBlockHash pindex)) := by
  rw [connectBlock] at h
  cases hwrites : writeAll st.txdb (outcomes.batchWrites pindex) with
  | none => simp [hwrites] at h
  | some txdb =>
      obtain ⟨hpdb, hreadOnly, hbatch⟩ := writeAll_some hwrites hopen.activeBatch
      rw [hwrites] at h
      cases h
      refine ⟨rfl, ⟨hreadOnly.trans hopen.fReadOnly, hbatch⟩, ⟨SameNames.refl st, ?_, rfl⟩, ?_⟩
      · rw [writeDisk_diskHash (outcomes.diskWrites_other pindex)]
        exact congrArg (fun pdb : DB => pdb.content hashBestChainKey) hpdb
      · intro hok
        funext hash
        simp [writeDisk, withConnected, hok]

theorem disconnectBlock_spec {outcomes : Outcomes} {block : CBlock} {pindex : List CBlockIndex}
    (hopen : Open st) (h : st.disconnectBlock outcomes block pindex = some (ok, st')) :
    Open st' ∧ Framed st st' ∧
      st'.pendingConnected = withoutConnected st.pendingConnected (getBlockHash pindex) := by
  rw [disconnectBlock] at h
  cases hwrites : writeAll st.txdb (outcomes.batchWrites pindex) with
  | none => simp [hwrites] at h
  | some txdb =>
      obtain ⟨hpdb, hreadOnly, hbatch⟩ := writeAll_some hwrites hopen.activeBatch
      rw [hwrites] at h
      cases h
      refine ⟨⟨hreadOnly.trans hopen.fReadOnly, hbatch⟩, ⟨SameNames.refl st, ?_, rfl⟩, rfl⟩
      rw [writeDisk_diskHash (outcomes.diskWrites_other pindex)]
      exact congrArg (fun pdb : DB => pdb.content hashBestChainKey) hpdb

end ChainState

theorem abandon_spec {outcomes : Outcomes} {st st' : ChainState} {ok : Bool}
    {pindexNew : List CBlockIndex} (hreadOnly : st.txdb.fReadOnly = false)
    (h : abandon outcomes st pindexNew = some (ok, st')) :
    ok = false ∧ st'.Closed ∧ st.Framed st' := by
  cases h
  refine ⟨rfl, ⟨hreadOnly, rfl⟩, ChainState.SameNames.refl st, ?_, rfl⟩
  exact ChainState.writeDisk_diskHash (outcomes.diskWrites_other pindexNew)

end ProCurrency

/-!
## What a commit leaves

One lemma for each function: how the committed best chain and the committed connections end up when it
succeeds, and that nothing durable has changed when it fails.
-/

namespace ProCurrency

open ChainState

/-! ## Lists of blocks -/

def connectedAfter (connected : UInt256 → Bool) (vConnect : List (List CBlockIndex)) : UInt256 → Bool :=
  vConnect.foldl (fun connected pindex => withConnected connected (getBlockHash pindex)) connected

def connectedWithout (connected : UInt256 → Bool) (vDisconnect : List (List CBlockIndex)) :
    UInt256 → Bool :=
  vDisconnect.foldl (fun connected pindex => withoutConnected connected (getBlockHash pindex)) connected

theorem connectedAfter_iff {connected : UInt256 → Bool} {vConnect : List (List CBlockIndex)}
    {hash : UInt256} :
    connectedAfter connected vConnect hash = true ↔
      (∃ pindex ∈ vConnect, getBlockHash pindex = hash) ∨ connected hash = true := by
  induction vConnect generalizing connected with
  | nil => simp [connectedAfter]
  | cons pindex vConnect ih =>
      have hstep : connectedAfter connected (pindex :: vConnect) =
        connectedAfter (withConnected connected (getBlockHash pindex)) vConnect := rfl
      rw [hstep, ih, withConnected, List.exists_mem_cons_iff]
      rcases eq_or_ne hash (getBlockHash pindex) with heq | hne
      · simp [heq]
      · simp [hne, hne.symm]

theorem connectedWithout_iff {connected : UInt256 → Bool} {vDisconnect : List (List CBlockIndex)}
    {hash : UInt256} :
    connectedWithout connected vDisconnect hash = true ↔
      connected hash = true ∧ ∀ pindex ∈ vDisconnect, getBlockHash pindex ≠ hash := by
  induction vDisconnect generalizing connected with
  | nil => simp [connectedWithout]
  | cons pindex vDisconnect ih =>
      have hstep : connectedWithout connected (pindex :: vDisconnect) =
        connectedWithout (withoutConnected connected (getBlockHash pindex)) vDisconnect := rfl
      rw [hstep, ih, withoutConnected, List.forall_mem_cons]
      rcases eq_or_ne hash (getBlockHash pindex) with heq | hne
      · simp [heq]
      · simp [hne, hne.symm]

variable {env : ChainEnv} {outcomes : Outcomes} {st st' : ChainState} {ok : Bool}

theorem disconnectAll_spec {vDisconnect : List (List CBlockIndex)} {st : ChainState} (hopen : Open st)
    (h : disconnectAll env outcomes st vDisconnect = some (ok, st')) :
    Open st' ∧ Framed st st' ∧
      (ok = true → st'.pendingConnected = connectedWithout st.pendingConnected vDisconnect) := by
  induction vDisconnect generalizing st with
  | nil =>
      cases h
      exact ⟨hopen, Framed.refl _, fun _ => rfl⟩
  | cons pindex vDisconnect ih =>
      rw [disconnectAll] at h
      cases hread : readBlockFromDisk env outcomes pindex with
      | none =>
          simp only [hread] at h
          cases h
          exact ⟨hopen, Framed.refl _, fun hok => Bool.noConfusion hok⟩
      | some block =>
          simp only [hread] at h
          rcases andThen_eq_some.mp h with ⟨hstep, rfl⟩ | ⟨st₁, hstep, h⟩
          · obtain ⟨hopen', hframed, -⟩ := disconnectBlock_spec hopen hstep
            exact ⟨hopen', hframed, fun hok => Bool.noConfusion hok⟩
          · obtain ⟨hopen₁, hframed₁, hpending⟩ := disconnectBlock_spec hopen hstep
            obtain ⟨hopen', hframed', hrest⟩ := ih hopen₁ h
            refine ⟨hopen', hframed₁.trans hframed', fun hok => ?_⟩
            rw [hrest hok, hpending]
            rfl

theorem connectAll_spec {vConnect : List (List CBlockIndex)} {st : ChainState} (hopen : Open st)
    (h : connectAll env outcomes st vConnect = some (ok, st')) :
    Open st' ∧ Framed st st' ∧
      (ok = true → st'.pendingConnected = connectedAfter st.pendingConnected vConnect) := by
  induction vConnect generalizing st with
  | nil =>
      cases h
      exact ⟨hopen, Framed.refl _, fun _ => rfl⟩
  | cons pindex vConnect ih =>
      rw [connectAll] at h
      cases hread : readBlockFromDisk env outcomes pindex with
      | none =>
          simp only [hread] at h
          cases h
          exact ⟨hopen, Framed.refl _, fun hok => Bool.noConfusion hok⟩
      | some block =>
          simp only [hread] at h
          rcases andThen_eq_some.mp h with ⟨hstep, rfl⟩ | ⟨st₁, hstep, h⟩
          · obtain ⟨-, hopen', hframed, -⟩ := connectBlock_spec hopen hstep
            exact ⟨hopen', hframed, fun hok => Bool.noConfusion hok⟩
          · obtain ⟨-, hopen₁, hframed₁, hpending⟩ := connectBlock_spec hopen hstep
            obtain ⟨hopen', hframed', hrest⟩ := ih hopen₁ h
            refine ⟨hopen', hframed₁.trans hframed', fun hok => ?_⟩
            rw [hrest hok, hpending rfl]
            rfl

/-! ## Transactions -/

/-- A committed transaction has moved the best chain. -/
structure Moved (st st' : ChainState) (hash : UInt256) (connected : UInt256 → Bool) : Prop where
  closed : Closed st'
  names : SameNames st st'
  diskHash : st'.diskHash = some (writeUInt256 hash)
  connected : st'.connected = connected

/-- The links forward are no part of it. -/
theorem Moved.relinked {st st' : ChainState} {hash : UInt256} {connected : UInt256 → Bool}
    (h : Moved st st' hash connected) (pnext : UInt256 → Option UInt256) :
    Moved st { st' with mem := { st'.mem with pnext } } hash connected :=
  ⟨⟨h.closed.fReadOnly, h.closed.activeBatch⟩, h.names.trans ⟨pnext, rfl⟩, h.diskHash, h.connected⟩

theorem Moved.framed {st st₁ st' : ChainState} {hash : UInt256} {connected : UInt256 → Bool}
    (hframed : Framed st st₁) (h : Moved st₁ st' hash connected) : Moved st st' hash connected :=
  ⟨h.closed, hframed.names.trans h.names, h.diskHash, h.connected⟩

/-- The end of every transaction: the best chain is written, then comes the commit. -/
theorem commitHash_spec {hash : UInt256} {fFail fWrite : Bool} {st₁ : ChainState} (hopen : Open st)
    (hwrite : st.writeHashBestChain hash = some (fWrite, st₁))
    (hcommit : st₁.txnCommit fFail = some (ok, st')) :
    ok = !fFail ∧ (ok = false → Closed st' ∧ Framed st st') ∧
      (ok = true → Moved st st' hash st.pendingConnected) := by
  obtain ⟨-, hopen₁, hframed₁, hpending, batch, hbatch⟩ := writeHashBestChain_spec hopen hwrite
  obtain ⟨hok, hclosed, hnames, hfalse, htrue⟩ := txnCommit_spec hopen₁.fReadOnly hbatch hcommit
  refine ⟨hok, fun hno => ⟨hclosed, hframed₁.trans (hfalse hno)⟩, fun hyes => ?_⟩
  obtain ⟨hdisk, hconnected⟩ := htrue hyes
  exact ⟨hclosed, hframed₁.names.trans hnames, hdisk, hconnected.trans hpending⟩

theorem setBestChainInner_spec {block : CBlock} {pindexNew : List CBlockIndex} (hopen : Open st)
    (hpending : st.pendingConnected = st.connected)
    (h : setBestChainInner env outcomes st block pindexNew = some (ok, st')) :
    ok = (outcomes.connects block pindexNew && !outcomes.commitFails pindexNew) ∧
      (ok = false → Closed st' ∧ Framed st st') ∧
      (ok = true → 2 ≤ pindexNew.length ∧ Moved st st' (env.blockHash block)
        (withConnected st.connected (getBlockHash pindexNew))) := by
  rw [setBestChainInner] at h
  dsimp only at h
  cases hconnected : andThen (st.connectBlock outcomes block pindexNew) fun st =>
      st.writeHashBestChain (env.blockHash block) with
  | none => simp [hconnected] at h
  | some step =>
      obtain ⟨fConnected, st₂⟩ := step
      rw [hconnected] at h
      rcases andThen_eq_some.mp hconnected with ⟨hconnect, rfl⟩ | ⟨st₁, hconnect, hwrite⟩
      · obtain ⟨hfConnect, hopen₂, hframed₂, -⟩ := connectBlock_spec hopen hconnect
        obtain ⟨rfl, hclosed, hframed⟩ := abandon_spec hopen₂.fReadOnly h
        exact ⟨by simp [← hfConnect], fun _ => ⟨hclosed, hframed₂.trans hframed⟩,
          fun hok => Bool.noConfusion hok⟩
      · obtain ⟨hfConnect, hopen₁, hframed₁, hpending₁⟩ := connectBlock_spec hopen hconnect
        obtain ⟨rfl, -⟩ := writeHashBestChain_spec hopen₁ hwrite
        rcases andThen_eq_some.mp h with ⟨hcommit, rfl⟩ | ⟨st₃, hcommit, h⟩
        · obtain ⟨hfCommit, hfalse, -⟩ := commitHash_spec hopen₁ hwrite hcommit
          obtain ⟨hclosed, hframed⟩ := hfalse rfl
          exact ⟨by simp [← hfCommit], fun _ => ⟨hclosed, hframed₁.trans hframed⟩,
            fun hok => Bool.noConfusion hok⟩
        · obtain ⟨hfCommit, -, htrue⟩ := commitHash_spec hopen₁ hwrite hcommit
          rw [hpending₁ rfl, hpending] at htrue
          match pindexNew, h with
          | pindex :: pprev :: rest, h =>
              cases h
              exact ⟨by simp [← hfConnect, ← hfCommit], fun hok => Bool.noConfusion hok,
                fun _ => ⟨by simp, (Moved.framed hframed₁ (htrue rfl)).relinked _⟩⟩

theorem reorganize_spec {pindexNew : List CBlockIndex} (hopen : Open st)
    (hpending : st.pendingConnected = st.connected)
    (h : reorganize env outcomes st pindexNew = some (ok, st')) :
    st'.txdb.fReadOnly = false ∧ (ok = false → Framed st st') ∧
      (ok = true → ∃ pfork, findFork st.mem.pindexBest pindexNew = some pfork ∧
        Moved st st' (getBlockHash pindexNew)
          (connectedAfter (connectedWithout st.connected (branchTo pfork st.mem.pindexBest))
            (branchTo pfork pindexNew).reverse)) := by
  rw [reorganize] at h
  cases hfork : findFork st.mem.pindexBest pindexNew with
  | none =>
      simp only [hfork] at h
      cases h
      exact ⟨hopen.fReadOnly, fun _ => Framed.refl st, fun hok => Bool.noConfusion hok⟩
  | some pfork =>
      simp only [hfork] at h
      rcases andThen_eq_some.mp h with ⟨hdisconnect, rfl⟩ | ⟨st₁, hdisconnect, h⟩
      · obtain ⟨hopen', hframed, -⟩ := disconnectAll_spec hopen hdisconnect
        exact ⟨hopen'.fReadOnly, fun _ => hframed, fun hok => Bool.noConfusion hok⟩
      obtain ⟨hopen₁, hframed₁, hpending₁⟩ := disconnectAll_spec hopen hdisconnect
      rcases andThen_eq_some.mp h with ⟨hconnect, rfl⟩ | ⟨st₂, hconnect, h⟩
      · obtain ⟨hopen', hframed, -⟩ := connectAll_spec hopen₁ hconnect
        exact ⟨hopen'.fReadOnly, fun _ => hframed₁.trans hframed, fun hok => Bool.noConfusion hok⟩
      obtain ⟨hopen₂, hframed₂, hpending₂⟩ := connectAll_spec hopen₁ hconnect
      rw [hpending₁ rfl, hpending] at hpending₂
      have hframed := hframed₁.trans hframed₂
      rcases andThen_eq_some.mp h with ⟨hwrite, rfl⟩ | ⟨st₃, hwrite, h⟩
      · obtain ⟨hok, -⟩ := writeHashBestChain_spec hopen₂ hwrite
        exact Bool.noConfusion hok
      rcases andThen_eq_some.mp h with ⟨hcommit, rfl⟩ | ⟨st₄, hcommit, h⟩
      · obtain ⟨-, hfalse, -⟩ := commitHash_spec hopen₂ hwrite hcommit
        obtain ⟨hclosed, hframed'⟩ := hfalse rfl
        exact ⟨hclosed.fReadOnly, fun _ => hframed.trans hframed', fun hok => Bool.noConfusion hok⟩
      · obtain ⟨-, -, htrue⟩ := commitHash_spec hopen₂ hwrite hcommit
        rw [hpending₂ rfl] at htrue
        cases h
        have hmoved := Moved.framed hframed (htrue rfl)
        exact ⟨hmoved.closed.fReadOnly, fun hok => Bool.noConfusion hok,
          fun _ => ⟨pfork, rfl, hmoved.relinked _⟩⟩

end ProCurrency
