import ProCurrency.Connect.KeyImages
import ProCurrency.Wallet.CommitTransaction

/-!
# What a refused commit leaves behind

The aborted handles leave the databases as they were, but marks in `mapWallet` and key images in the memory pool are
no part of them, and nothing is taken back when the memory pool refuses a transaction.
-/

namespace ProCurrency

namespace ConnectEnv

/-! ## The memory pool's key images -/

variable {G : Type} {env : ConnectEnv G} {tx : CTransaction} {s s' : ConnectStore} {fOk : Bool} {blockHash : UInt256}

theorem mapKeyImage_updateInputsFrom {txnHash : UInt256} {i : Nat} {vin : List CTxIn}
    (h : env.updateInputsFrom txnHash i s vin = (fOk, s')) : s'.mapKeyImage = s.mapKeyImage := by
  induction vin generalizing i s with
  | nil =>
      cases h
      rfl
  | cons txin vin ih =>
      rw [updateInputsFrom] at h
      split at h
      · exact ih h
      cases htype : ringSigTypeOf txin.extractRingSize txin.scriptSig with
      | none =>
          rw [htype] at h
          cases h
          rfl
      | some type =>
          simp only [htype] at h
          split at h
          · cases h
            rfl
          · exact (ih h).trans rfl

theorem mapKeyImage_updateOutputsFrom {nNewHeight : Int} {vout : List CTxOut}
    (h : env.updateOutputsFrom nNewHeight s vout = (fOk, s')) : s'.mapKeyImage = s.mapKeyImage := by
  induction vout generalizing s with
  | nil =>
      cases h
      rfl
  | cons txout vout ih =>
      rw [updateOutputsFrom] at h
      split at h
      · exact ih h
      split at h
      · cases h
        rfl
      · exact (ih h).trans rfl

theorem mapKeyImage_updateAnonTransaction (h : env.updateAnonTransaction s tx blockHash = (fOk, s')) :
    s'.mapKeyImage = s.mapKeyImage := by
  rw [updateAnonTransaction] at h
  split at h
  · rename_i hinputs
    cases h
    exact mapKeyImage_updateInputsFrom hinputs
  · rename_i hinputs
    exact (mapKeyImage_updateOutputsFrom h).trans (mapKeyImage_updateInputsFrom hinputs)

theorem mapKeyImage_processOutputsFrom {i : Nat} {vout : List CTxOut}
    (h : env.processOutputsFrom tx blockHash i s vout = (fOk, s')) : s'.mapKeyImage = s.mapKeyImage := by
  induction vout generalizing i s with
  | nil =>
      cases h
      rfl
  | cons txout vout ih =>
      rw [processOutputsFrom] at h
      split at h
      · exact ih h
      dsimp only at h
      split at h
      · split at h
        · exact mapKeyImage_updateAnonTransaction h
        · cases h
          rfl
      · exact (ih h).trans rfl

end ConnectEnv

namespace CommitNode

/-! ## Marks -/

def Spent (mapWallet : CommitMap) (hash : UInt256) (n : Nat) : Prop :=
  ∃ wtx, mapWallet hash = some wtx ∧ n < wtx.tx.vout.length ∧ wtx.isSpent n = true

/-- The transactions are the same, and what was marked is marked. -/
structure Marks (mapWallet mapWallet' : CommitMap) : Prop where
  tx : ∀ hash, (mapWallet' hash).map CommitTx.tx = (mapWallet hash).map CommitTx.tx
  spent : ∀ hash n, Spent mapWallet hash n → Spent mapWallet' hash n

section Marking

variable {mapWallet mapWallet' mapWallet'' : CommitMap} {outpoint : COutPoint} {wtx : CommitTx}

theorem Marks.refl (mapWallet : CommitMap) : Marks mapWallet mapWallet := ⟨fun _ => rfl, fun _ _ h => h⟩

theorem Marks.trans (h : Marks mapWallet mapWallet') (h' : Marks mapWallet' mapWallet'') : Marks mapWallet mapWallet'' :=
  ⟨fun hash => (h'.tx hash).trans (h.tx hash), fun hash n hspent => h'.spent hash n (h.spent hash n hspent)⟩

theorem Marks.ne_none {hash : UInt256} (h : Marks mapWallet mapWallet') (hsome : mapWallet hash ≠ none) :
    mapWallet' hash ≠ none := by
  intro hnone
  have htx := h.tx hash
  rw [hnone] at htx
  exact hsome (Option.map_eq_none_iff.mp htx.symm)

theorem isSpent_markSpent {n m : Nat} (hm : m < wtx.tx.vout.length) :
    (wtx.markSpent n).isSpent m = (decide (n = m) || wtx.isSpent m) := by
  rw [CommitTx.isSpent, CommitTx.markSpent, List.getD_eq_getElem?_getD, List.getElem?_set]
  by_cases hnm : n = m
  · simp [hnm, hm]
  · simp [hnm, hm]

theorem markCoin_self (h : mapWallet outpoint.hash = some wtx) :
    markCoin mapWallet outpoint outpoint.hash = some (wtx.markSpent outpoint.n.toNat) := by
  rw [markCoin, Function.update_self, h]
  rfl

theorem marks_markCoin (mapWallet : CommitMap) (outpoint : COutPoint) : Marks mapWallet (markCoin mapWallet outpoint) := by
  constructor
  · intro hash
    rcases Decidable.em (hash = outpoint.hash) with rfl | hne
    · rw [markCoin, Function.update_self, Option.map_map]
      rfl
    · rw [markCoin, Function.update_of_ne hne]
  · rintro hash n ⟨wtx, hwtx, hn, hspent⟩
    rcases Decidable.em (hash = outpoint.hash) with rfl | hne
    · refine ⟨_, markCoin_self hwtx, hn, ?_⟩
      rw [isSpent_markSpent hn, hspent, Bool.or_true]
    · refine ⟨wtx, ?_, hn, hspent⟩
      rw [markCoin, Function.update_of_ne hne]
      exact hwtx

theorem spent_markCoin (hwtx : mapWallet outpoint.hash = some wtx) (hn : outpoint.n.toNat < wtx.tx.vout.length) :
    Spent (markCoin mapWallet outpoint) outpoint.hash outpoint.n.toNat := by
  refine ⟨_, markCoin_self hwtx, hn, ?_⟩
  rw [isSpent_markSpent hn]
  simp

end Marking

/-! ## One input -/

section Process

variable {G : Type} [AddCommGroup G] {env : ConnectEnv G} {answers : CommitAnswers} {tx : CTransaction} {i : Nat}
  {txin : CTxIn} {vin : List CTxIn} {mapWallet mapWallet' : CommitMap} {records records' : AnonRecords}
  {s s' : ConnectStore} {ok : Bool} {vchImage : Bytes}

/-- The input spends a coin of the wallet that is not marked. -/
def MarksCoin (mapWallet : CommitMap) (records : AnonRecords) (vchImage : Bytes) : Prop :=
  ∃ oao inTx, ownedRecord records vchImage = some oao ∧ mapWallet oao.outpoint.hash = some inTx ∧
    oao.outpoint.n.toNat < inTx.tx.vout.length ∧ inTx.isSpent oao.outpoint.n.toNat = false

theorem marks_spendOwned (answers : CommitAnswers) (i : Nat) (vchImage : Bytes) (mapWallet : CommitMap)
    (records : AnonRecords) : Marks mapWallet (spendOwned answers i vchImage mapWallet records).2.1 := by
  rw [spendOwned]
  split
  · exact Marks.refl _
  split
  · exact Marks.refl _
  split
  · exact Marks.refl _
  dsimp only
  have hmarks (outpoint : COutPoint) (fSpent : Bool) :
      Marks mapWallet (if fSpent = true then mapWallet else markCoin mapWallet outpoint) := by
    split
    · exact Marks.refl _
    · exact marks_markCoin _ _
  split
  · exact hmarks _ _
  split
  · exact hmarks _ _
  · exact hmarks _ _

variable (answers i) in
theorem spendOwned_unmarked (h : ¬MarksCoin mapWallet records vchImage) :
    (spendOwned answers i vchImage mapWallet records).2.1 = mapWallet := by
  rw [spendOwned]
  split
  · rfl
  rename_i oao hoao
  split
  · rfl
  rename_i inTx hinTx
  split
  · rfl
  rename_i hn
  have hspent : inTx.isSpent oao.outpoint.n.toNat = true := by
    by_contra hnot
    exact h ⟨oao, inTx, hoao, hinTx, Nat.lt_of_not_le hn, Bool.eq_false_of_not_eq_true hnot⟩
  dsimp only
  rw [hspent]
  simp only [if_true]
  split
  · rfl
  split
  · rfl
  · rfl

variable (answers i) in
theorem spendOwned_marked (h : MarksCoin mapWallet records vchImage) : ∃ hash n,
    ¬Spent mapWallet hash n ∧ Spent (spendOwned answers i vchImage mapWallet records).2.1 hash n := by
  obtain ⟨oao, inTx, hoao, hinTx, hn, hspent⟩ := h
  refine ⟨oao.outpoint.hash, oao.outpoint.n.toNat, ?_, ?_⟩
  · rintro ⟨wtx, hwtx, -, hmarked⟩
    rw [hinTx] at hwtx
    cases hwtx
    rw [hspent] at hmarked
    cases hmarked
  · have hmark := spent_markCoin hinTx hn
    rw [spendOwned, hoao]
    dsimp only
    rw [hinTx]
    dsimp only
    rw [if_neg (Nat.not_le.mpr hn), hspent]
    split
    · exact hmark
    split
    · exact hmark
    · exact hmark

/-- A key image of the transaction is in the memory pool. -/
def HasImage (txnHash : UInt256) (s : ConnectStore) : Prop :=
  ∃ vchImage ki, s.mapKeyImage vchImage = some ki ∧ ki.txnHash = txnHash

theorem HasImage.of_eq {txnHash : UInt256} (h : HasImage txnHash s) (heq : s'.mapKeyImage = s.mapKeyImage) :
    HasImage txnHash s' := by
  rw [HasImage, heq]
  exact h

theorem hasImage_insert (s : ConnectStore) (vchImage : Bytes) (ki : CKeyImageSpent) :
    HasImage ki.txnHash (s.insertKeyImage vchImage ki) := ⟨vchImage, ki, if_pos rfl, rfl⟩

/-- What the turns of the loop do: the marks stay, and a key image of the transaction stays in the memory pool. -/
theorem processInputs_keeps (h : processInputs env answers tx i mapWallet records s vin = (ok, mapWallet', records', s')) :
    Marks mapWallet mapWallet' ∧ (HasImage (env.txHash tx) s → HasImage (env.txHash tx) s') := by
  induction vin generalizing i mapWallet records s with
  | nil =>
      rw [processInputs] at h
      split at h
      rename_i hout
      cases h
      exact ⟨Marks.refl _, fun himage => himage.of_eq (ConnectEnv.mapKeyImage_processOutputsFrom hout)⟩
  | cons txin vin ih =>
      rw [processInputs] at h
      split at h
      · exact ih h
      have hmarks := marks_spendOwned answers i txin.extractKeyImage mapWallet records
      rw [processInput] at h
      by_cases hknown : knownImage env tx i txin s = true
      · rw [if_pos hknown] at h
        rcases hupdate : env.updateAnonTransaction s tx 0 with ⟨ok₁, s₁⟩
        rw [hupdate] at h
        cases h
        exact ⟨Marks.refl _, fun himage => himage.of_eq (ConnectEnv.mapKeyImage_updateAnonTransaction hupdate)⟩
      · rw [if_neg hknown] at h
        by_cases hspent : spentImage env txin s = true
        · rw [if_pos hspent] at h
          cases h
          exact ⟨Marks.refl _, id⟩
        · rw [if_neg hspent] at h
          rcases hspend : spendOwned answers i txin.extractKeyImage mapWallet records with ⟨ok₁, mapWallet₁, records₁⟩
          rw [hspend] at h hmarks
          cases ok₁ with
          | false =>
              cases h
              exact ⟨hmarks, id⟩
          | true =>
              dsimp only at h
              cases hring : checkRing env txin s with
              | none =>
                  rw [hring] at h
                  cases h
                  exact ⟨hmarks, id⟩
              | some r =>
                  obtain ⟨nCoinValue, s₁⟩ := r
                  rw [hring] at h
                  obtain ⟨hrest, himage⟩ := ih h
                  exact ⟨hmarks.trans hrest, fun _ => himage (hasImage_insert s₁ _ _)⟩

/-- The first ring input, if there is one, is not passed, and no coin is marked for it. -/
def StopsAtFirst (env : ConnectEnv G) (answers : CommitAnswers) (tx : CTransaction) (mapWallet : CommitMap)
    (records : AnonRecords) (s : ConnectStore) (i : Nat) : List CTxIn → Prop
  | [] => True
  | txin :: vin =>
      if !txin.isAnonInput then StopsAtFirst env answers tx mapWallet records s (i + 1) vin
      else
        knownImage env tx i txin s = true ∨ spentImage env txin s = true ∨
          ¬MarksCoin mapWallet records txin.extractKeyImage ∧
            ((spendOwned answers i txin.extractKeyImage mapWallet records).1 = false ∨ checkRing env txin s = none)

theorem StopsAtFirst.unchanged (hstops : StopsAtFirst env answers tx mapWallet records s i vin)
    (h : processInputs env answers tx i mapWallet records s vin = (ok, mapWallet', records', s')) :
    mapWallet' = mapWallet ∧ s'.mapKeyImage = s.mapKeyImage := by
  induction vin generalizing i with
  | nil =>
      rw [processInputs] at h
      split at h
      rename_i hout
      cases h
      exact ⟨rfl, ConnectEnv.mapKeyImage_processOutputsFrom hout⟩
  | cons txin vin ih =>
      rw [processInputs] at h
      rw [StopsAtFirst] at hstops
      by_cases hanon : (!txin.isAnonInput) = true
      · rw [if_pos hanon] at h hstops
        exact ih hstops h
      rw [if_neg hanon] at h hstops
      rw [processInput] at h
      by_cases hknown : knownImage env tx i txin s = true
      · rw [if_pos hknown] at h
        rcases hupdate : env.updateAnonTransaction s tx 0 with ⟨ok₁, s₁⟩
        rw [hupdate] at h
        cases h
        exact ⟨rfl, ConnectEnv.mapKeyImage_updateAnonTransaction hupdate⟩
      rw [if_neg hknown] at h
      by_cases hspent : spentImage env txin s = true
      · rw [if_pos hspent] at h
        cases h
        exact ⟨rfl, rfl⟩
      rw [if_neg hspent] at h
      obtain ⟨hunmarked, hrefused⟩ := (hstops.resolve_left hknown).resolve_left hspent
      have hsame := spendOwned_unmarked answers i hunmarked
      rcases hspend : spendOwned answers i txin.extractKeyImage mapWallet records with ⟨ok₁, mapWallet₁, records₁⟩
      rw [hspend] at h hsame hrefused
      cases ok₁ with
      | false =>
          cases h
          exact ⟨hsame, rfl⟩
      | true =>
          rw [hrefused.resolve_left nofun] at h
          cases h
          exact ⟨hsame, rfl⟩

/-- Where a ring input is passed or a coin is marked, it shows in the end. -/
theorem changed_of_not_stopsAtFirst (hstops : ¬StopsAtFirst env answers tx mapWallet records s i vin)
    (h : processInputs env answers tx i mapWallet records s vin = (ok, mapWallet', records', s')) :
    (∃ hash n, ¬Spent mapWallet hash n ∧ Spent mapWallet' hash n) ∨ HasImage (env.txHash tx) s' := by
  induction vin generalizing i with
  | nil => exact absurd trivial hstops
  | cons txin vin ih =>
      rw [processInputs] at h
      rw [StopsAtFirst] at hstops
      by_cases hanon : (!txin.isAnonInput) = true
      · rw [if_pos hanon] at h hstops
        exact ih hstops h
      rw [if_neg hanon] at h hstops
      push Not at hstops
      obtain ⟨hknown, hspent, hpassed⟩ := hstops
      rw [processInput, if_neg hknown, if_neg hspent] at h
      rcases hspend : spendOwned answers i txin.extractKeyImage mapWallet records with ⟨ok₁, mapWallet₁, records₁⟩
      by_cases hmarks : MarksCoin mapWallet records txin.extractKeyImage
      · -- The mark stays, whatever follows.
        obtain ⟨hash, n, hbefore, hafter⟩ := spendOwned_marked answers i hmarks
        refine Or.inl ⟨hash, n, hbefore, ?_⟩
        rw [hspend] at h hafter
        cases ok₁ with
        | false =>
            cases h
            exact hafter
        | true =>
            dsimp only at h
            cases hring : checkRing env txin s with
            | none =>
                rw [hring] at h
                cases h
                exact hafter
            | some r =>
                rw [hring] at h
                exact (processInputs_keeps h).1.spent hash n hafter
      · obtain ⟨hok, hring⟩ := hpassed hmarks
        rw [hspend] at h hok
        obtain ⟨⟨nCoinValue, s₁⟩, hring⟩ := Option.ne_none_iff_exists'.mp hring
        cases ok₁ with
        | false => exact absurd rfl hok
        | true =>
            rw [hring] at h
            exact Or.inr ((processInputs_keeps h).2 (hasImage_insert s₁ _ _))

end Process

/-! ## The commit -/

/-- No transaction of the wallet and no mark is new, and no record is written. -/
structure Unchanged (st st' : CommitNode) : Prop where
  mapWallet : ∀ hash, st.mapWallet hash = none → st'.mapWallet hash = none
  marks : ∀ hash n, Spent st'.mapWallet hash n → Spent st.mapWallet hash n
  keyImages : st'.store.keyImages = st.store.keyImages
  anonOutputs : st'.store.anonOutputs = st.store.anonOutputs
  mapKeyImage : st'.pool.mapKeyImage = st.pool.mapKeyImage
  records : st'.records = st.records

theorem Unchanged.refl (st : CommitNode) : Unchanged st st :=
  ⟨fun _ h => h, fun _ _ h => h, rfl, rfl, rfl, rfl⟩

section Commit

variable {G : Type} [AddCommGroup G] {env : ConnectEnv G} {answers : CommitAnswers} {tx : CTransaction}
  {vin : List CTxIn} {st st' : CommitNode} {mapWallet mapWallet' : CommitMap}

/-- When the commit returns false, it has changed nothing. -/
def AllOrNothing (env : ConnectEnv G) (answers : CommitAnswers) (tx : CTransaction) (st : CommitNode) : Prop :=
  ∀ st', commitTransaction env answers tx st = some (false, st') → Unchanged st st'

/-- `ProcessAnonTransaction` has marked no coin and put no key image into the memory pool when it is refused. -/
def StopsQuietly (env : ConnectEnv G) (answers : CommitAnswers) (tx : CTransaction) (st : CommitNode) : Prop :=
  env.fFull = false ∨
    StopsAtFirst env answers tx st.mapWallet st.records (st.pool.storeWith st.store) 0 tx.vin

/-- The wallet's transactions, this one among them. -/
def walletTx (hash : UInt256) (tx : CTransaction) (mapWallet : CommitMap) (h : UInt256) : Option CTransaction :=
  match mapWallet h with
  | some wtx => some wtx.tx
  | none => if h = hash then some tx else none

/-- An input names an output that no transaction of the wallet has. -/
def SpendsUnknown (env : ConnectEnv G) (tx : CTransaction) (st : CommitNode) : Prop :=
  ∃ txin ∈ tx.vin, tx.spendsAnon txin = false ∧
    ∀ prev, walletTx (env.txHash tx) tx st.mapWallet txin.prevout.hash = some prev →
      prev.vout.length ≤ txin.prevout.n.toNat

/-- The ways for a commit not to return false with something left behind. -/
inductive Clean (env : ConnectEnv G) (answers : CommitAnswers) (tx : CTransaction) (st : CommitNode) : Prop
  | invalid (h : tx.checkTransaction = false)
  | refused (st₁ : CommitNode) (h : processAnon env answers tx st = (false, st₁))
      (hstops : StopsQuietly env answers tx st)
  | throws (st₁ : CommitNode) (h : processAnon env answers tx st = (true, st₁)) (hunknown : SpendsUnknown env tx st)
  | accepted (st₁ : CommitNode) (h : processAnon env answers tx st = (true, st₁))
      (haccepts : st₁.pool.accepts env st₁.store answers.toAcceptAnswers tx = true)

/-- Neither the wallet nor a key image of the memory pool has the hash of the transaction. -/
structure IsNew (env : ConnectEnv G) (tx : CTransaction) (st : CommitNode) : Prop where
  mapWallet : st.mapWallet (env.txHash tx) = none
  mapKeyImage : ∀ vchImage ki, st.pool.mapKeyImage vchImage = some ki → ki.txnHash ≠ env.txHash tx

theorem marks_walletUpdateSpent (answers : CommitAnswers) (tx : CTransaction) (vin : List CTxIn)
    (mapWallet : CommitMap) : Marks mapWallet (walletUpdateSpent answers tx mapWallet vin) := by
  induction vin generalizing mapWallet with
  | nil => exact Marks.refl _
  | cons txin vin ih =>
      rw [walletUpdateSpent]
      split
      · exact ih mapWallet
      split
      · exact ih mapWallet
      split
      · exact ih mapWallet
      split
      · exact (marks_markCoin mapWallet txin.prevout).trans (ih _)
      · exact ih mapWallet

theorem tx_addToWallet (answers : CommitAnswers) (tx : CTransaction) (hash : UInt256) (mapWallet : CommitMap)
    (h : UInt256) : (addToWallet answers tx hash mapWallet h).map CommitTx.tx = walletTx hash tx mapWallet h := by
  rw [addToWallet, walletTx]
  cases hhash : mapWallet hash with
  | some wtx =>
      dsimp only
      rw [(marks_walletUpdateSpent answers tx tx.vin mapWallet).tx]
      cases hh : mapWallet h with
      | some _ => rfl
      | none =>
          dsimp only
          rw [if_neg fun heq => by rw [heq, hhash] at hh; cases hh]
          rfl
  | none =>
      have hadded : (Function.update mapWallet hash (some { tx, vfSpent := [] }) h).map CommitTx.tx =
          walletTx hash tx mapWallet h := by
        rw [walletTx]
        rcases Decidable.em (h = hash) with rfl | hne
        · rw [Function.update_self, hhash]
          simp
        · rw [Function.update_of_ne hne, if_neg hne]
          cases mapWallet h with
          | some _ => rfl
          | none => rfl
      rw [walletTx] at hadded
      dsimp only
      split
      · rw [(marks_walletUpdateSpent answers tx tx.vin _).tx]
        exact hadded
      · exact hadded

/-- The loop marks the coins of all inputs, or it throws at the first one that is unknown. -/
theorem spendCoins_spec (tx : CTransaction) (vin : List CTxIn) (mapWallet : CommitMap) :
    (spendCoins tx mapWallet vin = none ↔ ∃ txin ∈ vin, tx.spendsAnon txin = false ∧
        ∀ prev, (mapWallet txin.prevout.hash).map CommitTx.tx = some prev → prev.vout.length ≤ txin.prevout.n.toNat) ∧
      ∀ mapWallet', spendCoins tx mapWallet vin = some mapWallet' → Marks mapWallet mapWallet' := by
  induction vin generalizing mapWallet with
  | nil =>
      refine ⟨⟨nofun, fun ⟨_, hmem, _⟩ => by cases hmem⟩, fun mapWallet' h => ?_⟩
      cases h
      exact Marks.refl _
  | cons txin vin ih =>
      rw [spendCoins, List.exists_mem_cons_iff]
      by_cases hanon : tx.spendsAnon txin = true
      · rw [if_pos hanon]
        simp only [hanon, Bool.true_eq_false, false_and, false_or]
        exact ih mapWallet
      rw [if_neg hanon]
      have hplain := Bool.eq_false_of_not_eq_true hanon
      cases hcoin : mapWallet txin.prevout.hash with
      | none => exact ⟨⟨fun _ => Or.inl ⟨hplain, nofun⟩, fun _ => rfl⟩, nofun⟩
      | some coin =>
          dsimp only
          split
          · rename_i hn
            refine ⟨⟨fun _ => Or.inl ⟨hplain, fun prev hprev => ?_⟩, fun _ => rfl⟩, nofun⟩
            cases hprev
            exact hn
          · rename_i hn
            obtain ⟨hnone, hsome⟩ := ih (markCoin mapWallet txin.prevout)
            have hmark := marks_markCoin mapWallet txin.prevout
            refine ⟨?_, fun mapWallet' h => hmark.trans (hsome mapWallet' h)⟩
            rw [hnone]
            simp only [hmark.tx]
            refine ⟨Or.inr, fun h => h.resolve_left ?_⟩
            rintro ⟨-, hle⟩
            exact hn (hle coin.tx rfl)

theorem processAnon_refused (h : processAnon env answers tx st = (false, st')) :
    st'.store = st.store ∧ st'.records = st.records ∧
      (env.fFull = false ∧ st' = st ∨ ∃ records s, processInputs env answers tx 0 st.mapWallet st.records
        (st.pool.storeWith st.store) tx.vin = (false, st'.mapWallet, records, s) ∧
          st'.pool.mapKeyImage = s.mapKeyImage) := by
  rw [processAnon] at h
  split at h
  · cases h
  split at h
  · rename_i hfull
    cases h
    exact ⟨rfl, rfl, Or.inl ⟨by simpa using hfull, rfl⟩⟩
  rcases hprocess : processInputs env answers tx 0 st.mapWallet st.records (st.pool.storeWith st.store) tx.vin
    with ⟨ok, mapWallet, records, s⟩
  rw [hprocess] at h
  dsimp only at h
  cases ok with
  | true => cases h
  | false =>
      cases h
      exact ⟨rfl, rfl, Or.inr ⟨records, s, rfl, rfl⟩⟩

theorem marks_processAnon {ok : Bool} (h : processAnon env answers tx st = (ok, st')) :
    Marks st.mapWallet st'.mapWallet := by
  rw [processAnon] at h
  split at h
  · cases h
    exact Marks.refl _
  split at h
  · cases h
    exact Marks.refl _
  rcases hprocess : processInputs env answers tx 0 st.mapWallet st.records (st.pool.storeWith st.store) tx.vin
    with ⟨ok', mapWallet, records, s⟩
  rw [hprocess] at h
  cases h
  exact (processInputs_keeps hprocess).1

theorem unchanged_of_stopsQuietly (h : processAnon env answers tx st = (false, st'))
    (hstops : StopsQuietly env answers tx st) : Unchanged st st' := by
  obtain ⟨hstore, hrecords, ⟨-, rfl⟩ | ⟨records, s, hprocess, hpool⟩⟩ := processAnon_refused h
  · exact Unchanged.refl st'
  rcases hstops with hfull | hstops
  · -- Without full mode the loop is not entered.
    rw [processAnon, hfull] at h
    split at h
    · cases h
    · cases h
      exact Unchanged.refl st
  · obtain ⟨hwallet, himages⟩ := hstops.unchanged hprocess
    constructor
    · intro hash hnone
      rw [hwallet, hnone]
    · intro hash n hspent
      rwa [hwallet] at hspent
    · rw [hstore]
    · rw [hstore]
    · exact hpool.trans himages
    · exact hrecords

theorem changed_of_not_stopsQuietly (hnew : IsNew env tx st) (h : processAnon env answers tx st = (false, st'))
    (hstops : ¬StopsQuietly env answers tx st) : ¬Unchanged st st' := by
  rw [StopsQuietly, not_or] at hstops
  obtain ⟨-, -, ⟨hfull, -⟩ | ⟨records, s, hprocess, hpool⟩⟩ := processAnon_refused h
  · exact absurd hfull hstops.1
  intro hsame
  rcases changed_of_not_stopsAtFirst hstops.2 hprocess with ⟨hash, n, hbefore, hafter⟩ | ⟨vchImage, ki, hki, hhash⟩
  · exact hbefore (hsame.marks hash n hafter)
  · rw [← hpool, hsame.mapKeyImage] at hki
    exact hnew.mapKeyImage vchImage ki hki hhash

theorem spendCoins_eq_none_iff {st₁ : CommitNode} (h : processAnon env answers tx st = (true, st₁)) :
    spendCoins tx (addToWallet answers tx (env.txHash tx) st₁.mapWallet) tx.vin = none ↔ SpendsUnknown env tx st := by
  have hwallet (hash : UInt256) : walletTx (env.txHash tx) tx st₁.mapWallet hash =
      walletTx (env.txHash tx) tx st.mapWallet hash := by
    have htx := (marks_processAnon h).tx hash
    rw [walletTx, walletTx]
    cases h₁ : st₁.mapWallet hash with
    | none =>
        rw [h₁] at htx
        rw [Option.map_eq_none_iff.mp htx.symm]
    | some wtx =>
        rw [h₁] at htx
        obtain ⟨wtx', hwtx', heq⟩ := Option.map_eq_some_iff.mp htx.symm
        rw [hwtx']
        exact congrArg some heq.symm
  rw [(spendCoins_spec tx tx.vin _).1, SpendsUnknown]
  simp only [tx_addToWallet, hwallet]

/-- A commit that returns false has changed nothing where it is clean, and only there for a new transaction. -/
theorem commitTransaction_allOrNothing (env : ConnectEnv G) (answers : CommitAnswers) (tx : CTransaction)
    (st : CommitNode) :
    (Clean env answers tx st → AllOrNothing env answers tx st) ∧
      (IsNew env tx st → AllOrNothing env answers tx st → Clean env answers tx st) := by
  constructor
  · intro hclean st' h
    rw [commitTransaction] at h
    split at h
    · cases h
      exact Unchanged.refl st
    rename_i hcheck
    cases hclean with
    | invalid hinvalid => exact absurd hinvalid (by simpa using hcheck)
    | refused st₁ hprocess hstops =>
        rw [hprocess] at h
        cases h
        exact unchanged_of_stopsQuietly hprocess hstops
    | throws st₁ hprocess hunknown =>
        rw [hprocess] at h
        dsimp only at h
        rw [(spendCoins_eq_none_iff hprocess).mpr hunknown] at h
        cases h
    | accepted st₁ hprocess haccepts =>
        rw [hprocess] at h
        dsimp only at h
        rw [CTxMemPool.acceptToMemoryPool, if_pos haccepts] at h
        split at h
        · cases h
        · cases h
  · intro hnew hall
    by_cases hcheck : tx.checkTransaction = false
    · exact .invalid hcheck
    rcases hprocess : processAnon env answers tx st with ⟨_ | _, st₁⟩
    · by_cases hstops : StopsQuietly env answers tx st
      · exact .refused st₁ hprocess hstops
      · refine absurd (hall st₁ ?_) (changed_of_not_stopsQuietly hnew hprocess hstops)
        rw [commitTransaction, if_neg (by simpa using hcheck), hprocess]
    by_cases hunknown : SpendsUnknown env tx st
    · exact .throws st₁ hprocess hunknown
    by_cases haccepts : st₁.pool.accepts env st₁.store answers.toAcceptAnswers tx = true
    · exact .accepted st₁ hprocess haccepts
    -- The memory pool refuses the transaction, which is in the wallet by now.
    have hknown := mt (spendCoins_eq_none_iff hprocess).mp hunknown
    obtain ⟨mapWallet, hcoins⟩ := Option.ne_none_iff_exists'.mp hknown
    have hreturns : commitTransaction env answers tx st = some (false, { st₁ with mapWallet }) := by
      rw [commitTransaction, if_neg (by simpa using hcheck), hprocess]
      dsimp only
      rw [hcoins]
      dsimp only
      rw [CTxMemPool.acceptToMemoryPool, if_neg haccepts]
    have hadded : addToWallet answers tx (env.txHash tx) st₁.mapWallet (env.txHash tx) ≠ none := by
      intro hnone
      have htx := tx_addToWallet answers tx (env.txHash tx) st₁.mapWallet (env.txHash tx)
      rw [hnone, walletTx] at htx
      cases hwallet : st₁.mapWallet (env.txHash tx) with
      | none => simp [hwallet] at htx
      | some _ => simp [hwallet] at htx
    have hpresent := ((spendCoins_spec tx tx.vin _).2 mapWallet hcoins).ne_none hadded
    exact absurd ((hall _ hreturns).mapWallet _ hnew.mapWallet) hpresent

end Commit

/-! ## A payment that the memory pool refuses -/

def refusingAnswers : CommitAnswers where
  isStandard := false
  fetches := true
  connects := true
  isMine _ := true
  writeToDisk := true
  writeTx _ := true
  writeOwnedAnonOutput _ := true
  walletCommits := true
  txCommits := true
  ownedOutputs _ records := records

/-- A wallet with one coin. -/
def coinNode : CommitNode where
  mapWallet hash :=
    if hash = 1 then
      some { tx := { nVersion := 1, nTime := 0, vin := [], vout := [⟨5, [OP_1]⟩], nLockTime := 0 }, vfSpent := [] }
    else none
  records := { ownedAnonOutputs := fun _ => none, oldOutputLinks := fun _ => none }
  store := ringStore
  pool := CTxMemPool.empty

/-- The transaction that spends the coin. -/
def coinSpend : CTransaction where
  nVersion := 1
  nTime := 0
  vin := [{ prevout := { hash := 1, n := 0 }, scriptSig := [], nSequence := 0 }]
  vout := [{ nValue := 4, scriptPubKey := [OP_1] }]
  nLockTime := 0

/-- A transaction without inputs is refused before anything is changed. -/
theorem commitTransaction_allOrNothing_empty :
    AllOrNothing ringEnv refusingAnswers { coinSpend with vin := [] } coinNode :=
  (commitTransaction_allOrNothing ringEnv refusingAnswers { coinSpend with vin := [] } coinNode).1 (.invalid rfl)

/-- The pool refuses the payment as nonstandard, and the coin is marked and the payment is in the wallet. -/
theorem commitTransaction_refused :
    ∃ st', commitTransaction ringEnv refusingAnswers coinSpend coinNode = some (false, st') ∧
      Spent st'.mapWallet 1 0 ∧ ¬Spent coinNode.mapWallet 1 0 := by
  have hcheck : coinSpend.checkTransaction = true := by decide +kernel
  have haccepts : coinNode.pool.accepts ringEnv coinNode.store refusingAnswers.toAcceptAnswers coinSpend = false := by
    decide +kernel
  have hprocess : processAnon ringEnv refusingAnswers coinSpend coinNode = (true, coinNode) := by
    rw [processAnon]
    exact if_pos (by decide)
  obtain ⟨coin, hcoin, htx⟩ := Option.map_eq_some_iff.mp
    (tx_addToWallet refusingAnswers coinSpend (ringEnv.txHash coinSpend) coinNode.mapWallet 1)
  have hspend : spendCoins coinSpend (addToWallet refusingAnswers coinSpend (ringEnv.txHash coinSpend)
      coinNode.mapWallet) coinSpend.vin = some (markCoin (addToWallet refusingAnswers coinSpend
        (ringEnv.txHash coinSpend) coinNode.mapWallet) { hash := 1, n := 0 }) := by
    change spendCoins coinSpend _ [{ prevout := { hash := 1, n := 0 }, scriptSig := [], nSequence := 0 }] = _
    rw [spendCoins, if_neg (by decide)]
    dsimp only
    rw [hcoin]
    dsimp only
    rw [htx]
    rfl
  obtain ⟨mapWallet, hmapWallet⟩ : ∃ mapWallet, mapWallet = markCoin (addToWallet refusingAnswers coinSpend
      (ringEnv.txHash coinSpend) coinNode.mapWallet) { hash := 1, n := 0 } := ⟨_, rfl⟩
  rw [← hmapWallet] at hspend
  refine ⟨{ coinNode with mapWallet }, ?_, ?_, ?_⟩
  · rw [commitTransaction, hcheck, hprocess]
    dsimp only
    rw [hspend]
    dsimp only
    rw [CTxMemPool.acceptToMemoryPool, haccepts]
    rfl
  · rw [hmapWallet]
    exact spent_markCoin hcoin (by rw [htx]; decide)
  · rintro ⟨wtx, hwtx, -, hspent⟩
    cases hwtx
    cases hspent

end CommitNode

end ProCurrency
