import ProCurrency.Staking.CoinStake
import ProCurrency.Staking.Lemmas.Template

/-!
# The coinstake

`CreateCoinStake` pays out the reward of its argument beyond the coins that it spends, and takes the time of the first
kernel that has a key.
-/

namespace ProCurrency

open WrappedInt CTransaction

/-- What a transaction pays out beyond the known coins that it spends. -/
def CTransaction.stakeReward (known : KnownTxs) (tx : CTransaction) : Int64 :=
  Int64.ofInt (tx.valueOut - tx.coinsIn (knownInputs known) tx.vin)

/-! ## The coins of the wallet -/

namespace StakeCoin

def valueOf (coins : List StakeCoin) : Int := (coins.map fun coin => coin.txout.nValue.toInt).sum

theorem valueOf_cons (coin : StakeCoin) (coins : List StakeCoin) :
    valueOf (coin :: coins) = coin.txout.nValue.toInt + valueOf coins := by
  rw [valueOf, List.map_cons, List.sum_cons, valueOf]

theorem mem_insert {coin c : StakeCoin} {coins : List StakeCoin} (h : c ∈ coin.insert coins) : c = coin ∨ c ∈ coins := by
  induction coins with
  | nil => exact .inl (List.mem_singleton.1 h)
  | cons c' coins ih =>
      rw [insert] at h
      split at h
      · exact List.mem_cons.1 h
      · split at h
        · exact .inr h
        · rcases List.mem_cons.1 h with rfl | h
          · exact .inr List.mem_cons_self
          · exact (ih h).imp_right (List.mem_cons_of_mem _)

end StakeCoin

open StakeCoin (mem_insert)

theorem StakeWallet.mem_selectFrom {nTargetValue nValueRet : Int64} {setCoins coins : List StakeCoin} {c : StakeCoin}
    (h : c ∈ selectFrom nTargetValue setCoins nValueRet coins) : c ∈ setCoins ∨ c ∈ coins := by
  induction coins generalizing setCoins nValueRet with
  | nil => exact .inl h
  | cons coin coins ih =>
      have hinsert : c ∈ coin.insert setCoins → c ∈ setCoins ∨ c ∈ coin :: coins := fun hc => by
        rcases mem_insert hc with rfl | hc
        · exact .inr List.mem_cons_self
        · exact .inl hc
      rw [selectFrom] at h
      split at h
      · exact .inl h
      · split at h
        · exact hinsert h
        · split at h
          · rcases ih h with hc | hc
            · exact hinsert hc
            · exact .inr (List.mem_cons_of_mem _ hc)
          · exact (ih h).imp_right (List.mem_cons_of_mem _)

namespace StakeEnv

variable {G D K : Type} {e : StakeEnv G D K} {known : KnownTxs} {pindexPrev : CBlockIndex} {pprev : List CBlockIndex}

/-- The transactions of the coins that may be staked are known. -/
def KnowsWallet (e : StakeEnv G D K) (known : KnownTxs) : Prop :=
  ∀ nSpendTime, ∀ coin ∈ e.wallet.availableCoinsForStaking nSpendTime,
    known (e.connect.txHash coin.tx) = some coin.tx

theorem KnowsWallet.select (h : e.KnowsWallet known) {nTargetValue : Int64} {nSpendTime : UInt32} {coin : StakeCoin}
    (hcoin : coin ∈ e.wallet.selectCoinsForStaking nTargetValue nSpendTime) :
    known (e.connect.txHash coin.tx) = some coin.tx := by
  rcases StakeWallet.mem_selectFrom hcoin with hcoin | hcoin
  · exact absurd hcoin List.not_mem_nil
  · exact h nSpendTime coin hcoin

theorem prevout_ne_null (e : StakeEnv G D K) (coin : StakeCoin) : (e.prevout coin).isNull = false := by
  have hn : coin.n ≠ -1 := fun heq => absurd coin.isInt (by rw [heq]; decide)
  rw [COutPoint.isNull, Bool.and_eq_false_iff]
  exact .inr (decide_eq_false hn)

theorem fetchedValue_prevout {coin : StakeCoin} (h : known (e.connect.txHash coin.tx) = some coin.tx) {txin : CTxIn}
    (htxin : txin.prevout = e.prevout coin) : fetchedValue (knownInputs known) txin = coin.txout.nValue.toInt := by
  have hout : getOutputFor txin (knownInputs known) = some coin.txout := by
    rw [getOutputFor, htxin, knownInputs, prevout, h]
    exact List.getElem?_eq_getElem coin.inRange
  rw [fetchedValue, hout]

/-- A transaction without ring coins spends the value of its coins. -/
theorem coinsIn_of_prevouts {tx : CTransaction} (hversion : tx.nVersion ≠ ANON_TXN_VERSION) {vin : List CTxIn}
    {coins : List StakeCoin} (hvin : vin.map CTxIn.prevout = coins.map e.prevout)
    (hknown : ∀ coin ∈ coins, known (e.connect.txHash coin.tx) = some coin.tx) :
    tx.coinsIn (knownInputs known) vin = StakeCoin.valueOf coins := by
  induction vin generalizing coins with
  | nil =>
      cases coins with
      | nil => rfl
      | cons coin coins => cases hvin
  | cons txin vin ih =>
      cases coins with
      | nil => cases hvin
      | cons coin coins =>
          rw [List.map_cons, List.map_cons, List.cons.injEq] at hvin
          have hplain : tx.spendsAnon txin = false := by
            rw [spendsAnon, beq_eq_false_iff_ne.2 hversion, Bool.false_and]
          rw [coinsIn_cons_of_not hplain, StakeCoin.valueOf_cons,
            fetchedValue_prevout (hknown coin List.mem_cons_self) hvin.1,
            ih hvin.2 fun c hc => hknown c (List.mem_cons_of_mem _ hc)]

/-! ## Inputs and outputs -/

/-- Coins of a list are added to those that were chosen, and their value to the credit. -/
def Adds (coins : List StakeCoin) (r r' : List StakeCoin × Int64) : Prop :=
  ∃ more, more ⊆ coins ∧ r'.1 = r.1 ++ more ∧ r'.2 = Int64.ofInt (r.2.toInt + StakeCoin.valueOf more)

theorem Adds.refl (coins : List StakeCoin) (r : List StakeCoin × Int64) : Adds coins r r := by
  refine ⟨[], List.nil_subset _, (List.append_nil _).symm, ?_⟩
  rw [StakeCoin.valueOf, List.map_nil, List.sum_nil, Int.add_zero, Int64.ofInt_toInt]

theorem Adds.skip {coins : List StakeCoin} {r r' : List StakeCoin × Int64} (h : Adds coins r r') (coin : StakeCoin) :
    Adds (coin :: coins) r r' := by
  obtain ⟨more, hmore, hchosen, hcredit⟩ := h
  exact ⟨more, List.subset_cons_of_subset _ hmore, hchosen, hcredit⟩

theorem Adds.take {coin : StakeCoin} {coins chosen : List StakeCoin} {nCredit : Int64} {r' : List StakeCoin × Int64}
    (h : Adds coins (chosen ++ [coin], nCredit + coin.txout.nValue) r') : Adds (coin :: coins) (chosen, nCredit) r' := by
  obtain ⟨more, hmore, hchosen, hcredit⟩ := h
  refine ⟨coin :: more, List.cons_subset_cons _ hmore, ?_, ?_⟩
  · rw [hchosen, List.append_assoc]
    rfl
  · rw [hcredit, StakeCoin.valueOf_cons, ofInt_toInt_add_add]

theorem addCoins_spec (e : StakeEnv G D K) (pindexPrev : CBlockIndex) (found : FoundKernel K) (nOutputs : Nat)
    (chosen : List StakeCoin) (nCredit : Int64) (coins : List StakeCoin) :
    Adds coins (chosen, nCredit) (e.addCoins pindexPrev found nOutputs chosen nCredit coins) := by
  induction coins generalizing chosen nCredit with
  | nil => exact .refl _ _
  | cons coin coins ih =>
      rw [addCoins]
      simp only
      split
      · split
        · exact .refl _ _
        · split
          · exact .refl _ _
          · split
            · exact .refl _ _
            · split
              · exact (ih chosen nCredit).skip coin
              · split
                · exact (ih chosen nCredit).skip coin
                · exact (ih (chosen ++ [coin]) (nCredit + coin.txout.nValue)).take
      · exact (ih chosen nCredit).skip coin

/-- The outputs of the coinstake are worth its credit. -/
theorem setOutputs_value (nCredit : Int64) {marker : CTxOut} (first : CTxOut) {more : List CTxOut}
    (hmarker : marker.nValue = 0) (hmore : ∀ txout ∈ more, txout.nValue = 0) :
    Int64.ofInt ((setOutputs nCredit (marker :: first :: more)).map fun txout => txout.nValue.toInt).sum = nCredit ∧
      ∃ first' more', setOutputs nCredit (marker :: first :: more) = marker :: first' :: more' := by
  rcases more with _ | ⟨second, _ | ⟨third, more⟩⟩
  · refine ⟨?_, _, _, rfl⟩
    simp [setOutputs, hmarker]
  · refine ⟨?_, _, _, rfl⟩
    have hsum (a : Int64) : Int64.ofInt (0 + (a.toInt + ((nCredit - a).toInt + 0))) = nCredit := by
      rw [Int.zero_add, Int.add_zero, Int64.ofInt_add, Int64.ofInt_toInt, Int64.ofInt_toInt, Int64.add_comm,
        Int64.sub_add_cancel]
    simpa [setOutputs, hmarker] using hsum (nCredit / 2 / CENT * CENT)
  · refine ⟨?_, _, _, rfl⟩
    have hzero : (((second :: third :: more).map fun txout => txout.nValue.toInt).sum : Int) = 0 := by
      refine List.sum_eq_zero fun x hx => ?_
      obtain ⟨txout, htxout, rfl⟩ := List.mem_map.1 hx
      rw [hmore txout htxout, Int64.toInt_zero]
    rw [setOutputs, List.map_cons, List.map_cons, List.sum_cons, List.sum_cons, hzero, hmarker, Int64.toInt_zero,
      Int.zero_add, Int.add_zero, Int64.ofInt_toInt]
    nofun

/-- Signing changes no more than the scripts of the inputs. -/
theorem signInputs_spec {tx tx' : CTransaction} {i : Nat} {vwtxPrev : List CTransaction}
    (h : e.signInputs tx i vwtxPrev = some tx') :
    tx'.nVersion = tx.nVersion ∧ tx'.nTime = tx.nTime ∧ tx'.vout = tx.vout ∧
      tx'.vin.map CTxIn.prevout = tx.vin.map CTxIn.prevout := by
  induction vwtxPrev generalizing tx i with
  | nil =>
      cases h
      exact ⟨rfl, rfl, rfl, rfl⟩
  | cons wtx vwtxPrev ih =>
      rw [signInputs] at h
      cases hsig : e.wallet.signSignature wtx tx i with
      | none => simp [hsig] at h
      | some scriptSig =>
          simp only [hsig] at h
          obtain ⟨hversion, htime, hvout, hvin⟩ := ih h
          exact ⟨hversion, htime, hvout, hvin.trans (map_prevout_modify scriptSig tx.vin i)⟩

/-! ## The kernel -/

variable {nBits nTime : UInt32} {rounds : Nat} {coins : List StakeCoin}

/-- `CheckKernel` of a coin, `n` seconds back. -/
def kernelBack (e : StakeEnv G D K) (pindexPrev : CBlockIndex) (pprev : List CBlockIndex) (nBits nTime : UInt32)
    (coin : StakeCoin) (n : Nat) : Option Int :=
  e.kernel.checkKernel e.stores e.nStakeMinAge pindexPrev pprev nBits (nTime - UInt32.ofNat n).toNat (e.prevout coin)

/-- The first time back at which a coin is a kernel. -/
def KernelTime (e : StakeEnv G D K) (pindexPrev : CBlockIndex) (pprev : List CBlockIndex) (nBits nTime : UInt32)
    (rounds : Nat) (coin : StakeCoin) (nTimeTx : UInt32) : Prop :=
  ∃ n < rounds, nTimeTx = nTime - UInt32.ofNat n ∧
    e.kernelBack pindexPrev pprev nBits nTime coin n ≠ none ∧
    ∀ k < n, e.kernelBack pindexPrev pprev nBits nTime coin k = none

/-- The time of the first coin that is a kernel and has a key. -/
def FirstKernel (e : StakeEnv G D K) (pindexPrev : CBlockIndex) (pprev : List CBlockIndex) (nBits nTime : UInt32)
    (rounds : Nat) (coins : List StakeCoin) (nTimeTx : UInt32) : Prop :=
  ∃ before coin after, coins = before ++ coin :: after ∧
    e.KernelTime pindexPrev pprev nBits nTime rounds coin nTimeTx ∧ e.wallet.kernelKey coin.txout.scriptPubKey ≠ none ∧
    ∀ c ∈ before, ∀ t, e.KernelTime pindexPrev pprev nBits nTime rounds c t →
      e.wallet.kernelKey c.txout.scriptPubKey = none

theorem searchTime_succ (coin : StakeCoin) (n : Nat) :
    e.searchTime pindexPrev pprev nBits coin nTime (rounds + 1) n =
      match e.kernelBack pindexPrev pprev nBits nTime coin n with
      | some nBlockTime => some (nTime - UInt32.ofNat n, nBlockTime)
      | none => e.searchTime pindexPrev pprev nBits coin nTime rounds (n + 1) := rfl

theorem searchTime_spec {coin : StakeCoin} {nTimeTx : UInt32} {nBlockTime : Int} {n : Nat}
    (h : e.searchTime pindexPrev pprev nBits coin nTime rounds n = some (nTimeTx, nBlockTime)) :
    ∃ i < rounds, nTimeTx = nTime - UInt32.ofNat (n + i) ∧
      e.kernelBack pindexPrev pprev nBits nTime coin (n + i) ≠ none ∧
      ∀ k < i, e.kernelBack pindexPrev pprev nBits nTime coin (n + k) = none := by
  induction rounds generalizing n with
  | zero => cases h
  | succ rounds ih =>
      rw [searchTime_succ] at h
      cases hback : e.kernelBack pindexPrev pprev nBits nTime coin n with
      | some nBlockTime' =>
          rw [hback] at h
          cases h
          refine ⟨0, Nat.succ_pos _, rfl, ?_, fun k hk => absurd hk (Nat.not_lt_zero k)⟩
          rw [Nat.add_zero, hback]
          exact Option.some_ne_none _
      | none =>
          rw [hback] at h
          obtain ⟨i, hi, htime, hsome, hnone⟩ := ih h
          refine ⟨i + 1, Nat.succ_lt_succ hi, by rw [htime, Nat.add_right_comm]; rfl, ?_, fun k hk => ?_⟩
          · rwa [Nat.add_right_comm] at hsome
          · cases k with
            | zero => exact hback
            | succ k =>
                have := hnone k (Nat.lt_of_succ_lt_succ hk)
                rwa [Nat.add_right_comm] at this

theorem kernelBack_of_searchTime_none {coin : StakeCoin} {n : Nat}
    (h : e.searchTime pindexPrev pprev nBits coin nTime rounds n = none) {k : Nat} (hk : k < rounds) :
    e.kernelBack pindexPrev pprev nBits nTime coin (n + k) = none := by
  induction rounds generalizing n k with
  | zero => cases hk
  | succ rounds ih =>
      rw [searchTime_succ] at h
      cases hback : e.kernelBack pindexPrev pprev nBits nTime coin n with
      | some nBlockTime =>
          rw [hback] at h
          cases h
      | none =>
          rw [hback] at h
          cases k with
          | zero => exact hback
          | succ k =>
              have := ih h (Nat.lt_of_succ_lt_succ hk)
              rwa [Nat.add_right_comm] at this

/-- A coin has one time at most. -/
theorem KernelTime.unique {coin : StakeCoin} {t t' : UInt32}
    (h : e.KernelTime pindexPrev pprev nBits nTime rounds coin t)
    (h' : e.KernelTime pindexPrev pprev nBits nTime rounds coin t') : t = t' := by
  obtain ⟨n, _, rfl, hsome, hnone⟩ := h
  obtain ⟨n', _, rfl, hsome', hnone'⟩ := h'
  rcases Nat.lt_trichotomy n n' with hlt | rfl | hlt
  · exact absurd (hnone' n hlt) hsome
  · rfl
  · exact absurd (hnone n' hlt) hsome'

theorem searchTime_iff {coin : StakeCoin} {t : UInt32} :
    (∃ nBlockTime, e.searchTime pindexPrev pprev nBits coin nTime rounds 0 = some (t, nBlockTime)) ↔
      e.KernelTime pindexPrev pprev nBits nTime rounds coin t := by
  have hspec {t' : UInt32} {nBlockTime : Int}
      (h : e.searchTime pindexPrev pprev nBits coin nTime rounds 0 = some (t', nBlockTime)) :
      e.KernelTime pindexPrev pprev nBits nTime rounds coin t' := by
    obtain ⟨i, hi, htime, hsome, hnone⟩ := searchTime_spec h
    simp only [Nat.zero_add] at htime hsome hnone
    exact ⟨i, hi, htime, hsome, hnone⟩
  constructor
  · rintro ⟨nBlockTime, h⟩
    exact hspec h
  · intro h
    cases hsearch : e.searchTime pindexPrev pprev nBits coin nTime rounds 0 with
    | none =>
        obtain ⟨n, hn, _, hsome, _⟩ := h
        have hnone := kernelBack_of_searchTime_none hsearch hn
        rw [Nat.zero_add] at hnone
        exact absurd hnone hsome
    | some r =>
        obtain ⟨t', nBlockTime⟩ := r
        obtain rfl := h.unique (hspec hsearch)
        exact ⟨nBlockTime, rfl⟩

theorem searchCoins_firstKernel {found : FoundKernel K}
    (h : e.searchCoins pindexPrev pprev nBits nTime rounds coins = some found) :
    found.coin ∈ coins ∧ e.FirstKernel pindexPrev pprev nBits nTime rounds coins found.nTime := by
  induction coins with
  | nil => cases h
  | cons coin coins ih =>
      have hpass (hrest : e.searchCoins pindexPrev pprev nBits nTime rounds coins = some found)
          (hcoin : ∀ t, e.KernelTime pindexPrev pprev nBits nTime rounds coin t →
            e.wallet.kernelKey coin.txout.scriptPubKey = none) :
          found.coin ∈ coin :: coins ∧ e.FirstKernel pindexPrev pprev nBits nTime rounds (coin :: coins) found.nTime := by
        obtain ⟨hmem, before, c, after, hcoins, htime, hkey, hbefore⟩ := ih hrest
        refine ⟨List.mem_cons_of_mem _ hmem, coin :: before, c, after, by rw [hcoins]; rfl, htime, hkey, ?_⟩
        intro c' hc'
        rcases List.mem_cons.1 hc' with rfl | hc'
        · exact hcoin
        · exact hbefore c' hc'
      rw [searchCoins] at h
      cases hsearch : e.searchTime pindexPrev pprev nBits coin nTime rounds 0 with
      | none =>
          simp only [hsearch] at h
          refine hpass h fun t ht => ?_
          obtain ⟨nBlockTime, hsome⟩ := searchTime_iff.2 ht
          rw [hsearch] at hsome
          cases hsome
      | some r =>
          obtain ⟨nTimeTx, nBlockTime⟩ := r
          simp only [hsearch] at h
          cases hkey : e.wallet.kernelKey coin.txout.scriptPubKey with
          | none =>
              simp only [hkey] at h
              exact hpass h fun _ _ => hkey
          | some key =>
              simp only [hkey] at h
              cases h
              refine ⟨List.mem_cons_self, [], coin, coins, rfl, searchTime_iff.1 ⟨nBlockTime, hsearch⟩, ?_, ?_⟩
              · rw [hkey]
                exact Option.some_ne_none _
              · exact fun c hc => absurd hc List.not_mem_nil

/-- The time of the kernel is the only one. -/
theorem FirstKernel.unique {t t' : UInt32} (h : e.FirstKernel pindexPrev pprev nBits nTime rounds coins t)
    (h' : e.FirstKernel pindexPrev pprev nBits nTime rounds coins t') : t = t' := by
  obtain ⟨before, coin, after, rfl, htime, hkey, hbefore⟩ := h
  obtain ⟨before', coin', after', hcoins, htime', hkey', hbefore'⟩ := h'
  rcases List.append_eq_append_iff.1 hcoins with ⟨l, hl, hl'⟩ | ⟨l, hl, hl'⟩
  · cases l with
    | nil =>
        cases hl'
        exact htime.unique htime'
    | cons c l =>
        cases hl'
        refine absurd (hbefore' coin ?_ t htime) hkey
        rw [hl]
        exact List.mem_append_right _ List.mem_cons_self
  · cases l with
    | nil =>
        cases hl'
        exact htime.unique htime'
    | cons c l =>
        cases hl'
        refine absurd (hbefore coin' ?_ t' htime') hkey'
        rw [hl]
        exact List.mem_append_right _ List.mem_cons_self

/-! ## The transaction and the block -/

/-- The transaction that stakes: it pays the reward out, at the time of the first kernel. -/
structure Stakes (e : StakeEnv G D K) (known : KnownTxs) (pindexPrev : CBlockIndex) (pprev : List CBlockIndex)
    (nBits nTime : UInt32) (rounds : Nat) (nFees : Int64) (tx : CTransaction) : Prop where
  version : tx.nVersion = 1
  isCoinStake : tx.isCoinStake = true
  notCoinBase : tx.isCoinBase = false
  reward : tx.stakeReward known = getProofOfStakeReward pindexPrev nFees
  time : e.FirstKernel pindexPrev pprev nBits nTime rounds (e.wallet.selectCoinsForStaking e.stakeable nTime) tx.nTime

/-- A signed transaction with the inputs and outputs that `CreateCoinStake` sets. -/
theorem stakes_of_signed {nSearchTime : UInt32} {found : FoundKernel K} {more : List StakeCoin} {nFees nCredit : Int64}
    {tx : CTransaction} {marker first : CTxOut} {vout : List CTxOut} (hwallet : e.KnowsWallet known)
    (hsearch : e.searchCoins pindexPrev pprev nBits nSearchTime rounds
      (e.wallet.selectCoinsForStaking e.stakeable nSearchTime) = some found)
    (hmore : more ⊆ e.wallet.selectCoinsForStaking e.stakeable nSearchTime)
    (hcredit : nCredit = Int64.ofInt (found.coin.txout.nValue.toInt + StakeCoin.valueOf more))
    (hmarker : marker.isEmpty = true) (hvout : ∀ txout ∈ vout, txout.nValue = 0)
    (hversion : tx.nVersion = 1) (htime : tx.nTime = found.nTime)
    (hvin : tx.vin.map CTxIn.prevout = (found.coin :: more).map e.prevout)
    (houts : tx.vout = setOutputs (nCredit + getProofOfStakeReward pindexPrev nFees) (marker :: first :: vout)) :
    e.Stakes known pindexPrev pprev nBits nSearchTime rounds nFees tx := by
  obtain ⟨hmem, hfirst⟩ := searchCoins_firstKernel hsearch
  have hzero : marker.nValue = 0 := by
    rw [CTxOut.isEmpty, Bool.and_eq_true, decide_eq_true_iff] at hmarker
    exact hmarker.1
  obtain ⟨hsum, first', vout', hshape⟩ := setOutputs_value (nCredit + getProofOfStakeReward pindexPrev nFees)
    first hzero hvout
  obtain ⟨txin, vin, htxin⟩ : ∃ txin vin, tx.vin = txin :: vin := List.exists_cons_of_ne_nil fun hnil => by
    rw [hnil] at hvin
    cases hvin
  have hprevout : txin.prevout.isNull = false := by
    rw [htxin, List.map_cons, List.map_cons, List.cons.injEq] at hvin
    rw [hvin.1]
    exact e.prevout_ne_null found.coin
  refine ⟨hversion, ?_, ?_, ?_, by rw [htime]; exact hfirst⟩
  · rw [isCoinStake, htxin, houts, hshape]
    simp only [hprevout, hmarker, Bool.not_false, Bool.and_self]
  · rw [isCoinBase, htxin]
    cases vin with
    | nil => simp only [hprevout, Bool.false_and]
    | cons txin' vin => rfl
  · have hcoins : tx.coinsIn (knownInputs known) tx.vin = StakeCoin.valueOf (found.coin :: more) := by
      refine coinsIn_of_prevouts (by rw [hversion]; decide) hvin fun coin hcoin => ?_
      rcases List.mem_cons.1 hcoin with rfl | hcoin
      · exact hwallet.select hmem
      · exact hwallet.select (hmore hcoin)
    rw [stakeReward, hcoins, StakeCoin.valueOf_cons, Int64.ofInt_sub, ← hcredit, valueOut, houts, hsum, Int64.add_comm,
      Int64.add_sub_cancel]

theorem createCoinStake_spec {nSearchInterval : Int} {nFees : Int64} {tx : CTransaction} {key : K}
    (hwallet : e.KnowsWallet known)
    (h : e.createCoinStake pindexPrev pprev nBits nSearchInterval nFees nTime = some (tx, key)) :
    e.Stakes known pindexPrev pprev nBits nTime (min nSearchInterval nMaxStakeSearchInterval).toNat nFees tx := by
  rw [createCoinStake] at h
  split at h
  · cases h
  · simp only at h
    cases hsearch : e.searchCoins pindexPrev pprev nBits nTime (min nSearchInterval nMaxStakeSearchInterval).toNat
        (e.wallet.selectCoinsForStaking e.stakeable nTime) with
    | none => simp [hsearch] at h
    | some found =>
        simp only [hsearch] at h
        split at h
        · cases h
        · generalize hvsplit : (if getWeight e.connect.params e.nStakeMinAge (pindexPrev.nHeight + 1) found.nBlockTime
              found.nTime.toNat < nStakeSplitAge then
            [({ nValue := 0, scriptPubKey := found.scriptPubKeyOut } : CTxOut)] else []) = vsplit at h
          have hzero : ∀ txout ∈ vsplit, txout.nValue = 0 := fun txout htxout => by
            rw [← hvsplit] at htxout
            split at htxout
            · obtain rfl := List.mem_singleton.1 htxout
              rfl
            · exact absurd htxout List.not_mem_nil
          generalize hadd : e.addCoins pindexPrev found _ [found.coin] _ _ = added at h
          obtain ⟨more, hmore, hchosen, hcredit⟩ := hadd ▸ e.addCoins_spec pindexPrev found _ [found.coin] _ _
          split at h
          · cases h
          · split at h
            · cases h
            · split at h
              · cases h
              · rename_i tx' hsign
                split at h
                · cases h
                · cases h
                  obtain ⟨hversion, htime, hvout, hvin⟩ := signInputs_spec hsign
                  rw [List.map_map, hchosen] at hvin
                  split at hvout
                  · refine stakes_of_signed hwallet hsearch hmore hcredit rfl (fun txout htxout => ?_) hversion htime
                      hvin hvout
                    rcases List.mem_append.1 htxout with htxout | htxout
                    · exact hzero txout htxout
                    · obtain rfl := List.mem_singleton.1 htxout
                      rfl
                  · exact stakes_of_signed hwallet hsearch hmore hcredit rfl hzero hversion htime hvin hvout

/-- `SignBlock` puts the coinstake behind the coinbase, and drops the transactions that are later than it. -/
theorem signBlock_spec {nLastCoinStakeSearchTime : Int} {block block' : CBlock} {nFees : Int64}
    {coinbase : CTransaction} {vtx : List CTransaction} (hwallet : e.KnowsWallet known)
    (hvtx : block.vtx = coinbase :: vtx) (hplain : ∀ tx ∈ vtx, tx.isCoinStake = false)
    (h : e.signBlock pindexPrev pprev nLastCoinStakeSearchTime block nFees = some block') :
    ∃ tx, e.Stakes known pindexPrev pprev block.nBits e.searchFrom
        (min (e.searchInterval e.searchFrom.toNat nLastCoinStakeSearchTime) nMaxStakeSearchInterval).toNat nFees tx ∧
      block'.vtx = { coinbase with nTime := tx.nTime } :: tx :: vtx.filter fun tx' => !(tx.nTime < tx'.nTime) := by
  have hwork : block.isProofOfStake = false := by
    rw [CBlock.isProofOfStake, hvtx]
    cases vtx with
    | nil => rfl
    | cons tx vtx => exact hplain tx List.mem_cons_self
  rw [signBlock] at h
  split at h
  · cases h
  · split at h
    · cases h
    · rw [if_neg (by rw [hwork]; exact Bool.false_ne_true)] at h
      simp only at h
      split at h
      · cases h
      · split at h
        · cases h
        · rename_i tx key hcreate
          split at h
          · cases h
          · obtain ⟨vchBlockSig, _, rfl⟩ := Option.map_eq_some_iff.1 h
            refine ⟨tx, createCoinStake_spec hwallet hcreate, ?_⟩
            simp only [withCoinStake, hvtx, List.filter_cons, UInt32.lt_irrefl, decide_false, Bool.not_false, if_true]

end StakeEnv

end ProCurrency
