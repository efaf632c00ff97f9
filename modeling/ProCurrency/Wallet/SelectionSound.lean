import Mathlib.Algebra.Order.BigOperators.Group.Finset
import Mathlib.Data.List.Nodup
import ProCurrency.Wallet.Lemmas.SelectCoins

/-!
# Selections are sound

What `SelectCoins` returns is spendable, has its exact sum and reaches the target for every wallet and every random
outcome; that it is not later than the spend time is not looked at for coins that the user selects.
-/

namespace ProCurrency

open WrappedInt

/-! ## What is available -/

/-- A transaction of the wallet that is final, trusted, mature and not in conflict, and an output of it that is the
wallet's own and not spent. -/
structure Spendable (mapWallet : MapWallet) (coin : WalletCoin) : Prop where
  known : coin.tx ∈ mapWallet.txs
  final : coin.tx.fFinal = true
  trusted : coin.tx.fTrusted = true
  mature : coin.tx.fMinted = true → coin.tx.nBlocksToMaturity ≤ 0
  depth : 0 ≤ coin.tx.nDepth
  output : ∃ txout, coin.tx.vout[coin.i]? = some txout ∧ txout.fSpent = false ∧ txout.fMine = true

variable {mapWallet : MapWallet} {nMinimumInputValue nTargetValue : Int64} {nSpendTime : UInt32}
  {coinControl : Option CCoinControl}

/-- The coins of `AvailableCoins` with `fOnlyConfirmed`. -/
def available (mapWallet : MapWallet) (nMinimumInputValue : Int64) (coinControl : Option CCoinControl) :
    List WalletCoin :=
  (availableCoins mapWallet nMinimumInputValue true coinControl).map COutput.coin

theorem mem_availableOf {tx : WalletTx} {output : COutput}
    (h : output ∈ availableOf nMinimumInputValue true coinControl tx) :
    output.coin.tx = tx ∧ tx.fFinal = true ∧ tx.fTrusted = true ∧ (tx.fMinted = true → tx.nBlocksToMaturity ≤ 0) ∧
      0 ≤ tx.nDepth ∧ ∃ txout, tx.vout[output.coin.i]? = some txout ∧ txout.fSpent = false ∧ txout.fMine = true := by
  rw [availableOf] at h
  split_ifs at h with hfinal htrusted hmature hdepth
  · cases h
  · cases h
  · cases h
  · cases h
  · obtain ⟨i, _, hi⟩ := List.mem_filterMap.1 h
    cases hout : tx.vout[i]? with
    | none => rw [hout] at hi; cases hi
    | some txout =>
        rw [hout] at hi
        dsimp only at hi
        split_ifs at hi with htest
        cases hi
        simp only [Bool.and_eq_true, Bool.not_eq_true'] at htest
        refine ⟨rfl, by simpa using hfinal, by simpa using htrusted, fun hminted => ?_, Int.not_lt.1 hdepth,
          txout, hout, htest.1.1.1, htest.1.1.2⟩
        rw [hminted, Bool.true_and, decide_eq_true_iff] at hmature
        exact Int.not_lt.1 hmature

theorem spendable_of_mem {coin : WalletCoin} (h : coin ∈ available mapWallet nMinimumInputValue coinControl) :
    Spendable mapWallet coin := by
  obtain ⟨output, houtput, rfl⟩ := List.mem_map.1 h
  obtain ⟨tx, htx, hmem⟩ := List.mem_flatMap.1 houtput
  obtain ⟨rfl, hfinal, htrusted, hmature, hdepth, hout⟩ := mem_availableOf hmem
  exact ⟨htx, hfinal, htrusted, hmature, hdepth, hout⟩

theorem map_filterMap_sublist {α β : Type} {f : α → Option β} {g : β → α} (h : ∀ x y, f x = some y → g y = x)
    (l : List α) : ((l.filterMap f).map g).Sublist l := by
  induction l with
  | nil => exact .slnil
  | cons x l ih =>
      cases hx : f x with
      | none =>
          rw [List.filterMap_cons_none hx]
          exact ih.cons x
      | some y =>
          rw [List.filterMap_cons_some hx, List.map_cons, h x y hx]
          exact ih.cons_cons x

/-- No output is available twice. -/
theorem nodup_available : (available mapWallet nMinimumInputValue coinControl).Nodup := by
  rw [available, availableCoins, List.map_flatMap, List.nodup_flatMap]
  constructor
  · intro tx _
    rw [availableOf]
    split_ifs
    · exact List.nodup_nil
    · exact List.nodup_nil
    · exact List.nodup_nil
    · exact List.nodup_nil
    · refine List.Nodup.of_map WalletCoin.i ?_
      rw [List.map_map]
      refine List.nodup_range.sublist (map_filterMap_sublist (fun i output hi => ?_) _)
      cases hout : tx.vout[i]? with
      | none => rw [hout] at hi; cases hi
      | some txout =>
          rw [hout] at hi
          dsimp only at hi
          split_ifs at hi
          cases hi
          rfl
  · have htxs : mapWallet.txs.Nodup := List.Nodup.of_map WalletTx.hash mapWallet.keys
    refine htxs.imp fun {tx tx'} hne coin hcoin hcoin' => ?_
    obtain ⟨output, houtput, rfl⟩ := List.mem_map.1 hcoin
    obtain ⟨output', houtput', heq⟩ := List.mem_map.1 hcoin'
    have htx := (mem_availableOf houtput).1
    have htx' := (mem_availableOf houtput').1
    rw [heq, htx] at htx'
    exact hne htx'

/-! ## Soundness -/

/-- A selection with the exact sum of its coins as long as the money of the wallet fits, and with the image of that
sum in any case. -/
structure SoundSelection (mapWallet : MapWallet) (nMinimumInputValue nTargetValue : Int64) (nSpendTime : UInt32)
    (coinControl : Option CCoinControl) (ret : CoinsRet) : Prop where
  spendable : ∀ coin ∈ ret.setCoinsRet, Spendable mapWallet coin
  timely : ∀ coin ∈ ret.setCoinsRet, coin.tx.nTime ≤ nSpendTime
  image : ret.nValueRet = Int64.ofInt (∑ coin ∈ ret.setCoinsRet, coin.nValue.toInt)
  exact : (∀ coin ∈ available mapWallet nMinimumInputValue coinControl, 0 ≤ coin.nValue.toInt) →
    coinSum (available mapWallet nMinimumInputValue coinControl) < 2 ^ 63 →
      ret.nValueRet.toInt = ∑ coin ∈ ret.setCoinsRet, coin.nValue.toInt
  enough : nTargetValue ≤ ret.nValueRet

/-- Whatever the generator of random numbers decides. -/
def SelectsSoundly (mapWallet : MapWallet) (nMinimumInputValue nTargetValue : Int64) (nSpendTime : UInt32)
    (coinControl : Option CCoinControl) : Prop :=
  ∀ rand rand' rand'' ret,
    selectCoins mapWallet nMinimumInputValue nTargetValue nSpendTime coinControl rand rand' rand'' = (true, ret) →
      SoundSelection mapWallet nMinimumInputValue nTargetValue nSpendTime coinControl ret

/-- The user has selected coins that reach the target, and one of them is later than the spend time. -/
def SelectedLate (mapWallet : MapWallet) (nMinimumInputValue nTargetValue : Int64) (nSpendTime : UInt32)
    (coinControl : Option CCoinControl) : Prop :=
  coinsSelected coinControl = true ∧
    nTargetValue ≤ Int64.ofInt (coinSum (available mapWallet nMinimumInputValue coinControl)) ∧
    ∃ coin ∈ available mapWallet nMinimumInputValue coinControl, nSpendTime < coin.tx.nTime

theorem CoinsRet.Selects.sound {ret : CoinsRet}
    (h : ret.Selects (available mapWallet nMinimumInputValue coinControl) nTargetValue nSpendTime) :
    SoundSelection mapWallet nMinimumInputValue nTargetValue nSpendTime coinControl ret := by
  refine ⟨fun coin hcoin => spendable_of_mem (h.among coin hcoin), h.timely, h.exact, fun hpos hfits => ?_, h.enough⟩
  have hsub : ret.setCoinsRet ⊆ (available mapWallet nMinimumInputValue coinControl).toFinset :=
    fun coin hcoin => List.mem_toFinset.2 (h.among coin hcoin)
  have hle : ∑ coin ∈ ret.setCoinsRet, coin.nValue.toInt ≤
      coinSum (available mapWallet nMinimumInputValue coinControl) := by
    rw [coinSum, ← List.sum_toFinset _ nodup_available]
    exact Finset.sum_le_sum_of_subset_of_nonneg hsub fun coin hcoin _ => hpos coin (List.mem_toFinset.1 hcoin)
  have hnonneg : 0 ≤ ∑ coin ∈ ret.setCoinsRet, coin.nValue.toInt :=
    Finset.sum_nonneg fun coin hcoin => hpos coin (h.among coin hcoin)
  rw [h.exact]
  exact Int64.toInt_ofInt_of_le (by omega) (by omega)

/-- Without selected coins, one of the calls of `SelectCoinsMinConf` has succeeded. -/
theorem selectCoins_selects {rand rand' rand'' : Randomness} {ret : CoinsRet} (hfits : AddFits nTargetValue CENT)
    (hcontrol : coinsSelected coinControl = false)
    (h : selectCoins mapWallet nMinimumInputValue nTargetValue nSpendTime coinControl rand rand' rand'' = (true, ret)) :
    ret.Selects (available mapWallet nMinimumInputValue coinControl) nTargetValue nSpendTime := by
  rw [selectCoins, hcontrol, if_neg Bool.false_ne_true] at h
  rcases hfirst : selectCoinsMinConf nTargetValue nSpendTime 1 10
    (availableCoins mapWallet nMinimumInputValue true coinControl) rand with ⟨fFirst, ret₁⟩
  rcases hsecond : selectCoinsMinConf nTargetValue nSpendTime 1 1
    (availableCoins mapWallet nMinimumInputValue true coinControl) rand' with ⟨fSecond, ret₂⟩
  rw [hfirst, hsecond] at h
  cases fFirst with
  | true =>
      cases h
      exact selectCoinsMinConf_selects hfits nodup_available hfirst
  | false =>
      cases fSecond with
      | true =>
          cases h
          exact selectCoinsMinConf_selects hfits nodup_available hsecond
      | false => exact selectCoinsMinConf_selects hfits nodup_available h

/-- With selected coins, all that is available of them is returned. -/
theorem selectCoins_of_selected (hcontrol : coinsSelected coinControl = true) (rand rand' rand'' : Randomness) :
    ∃ ret, selectCoins mapWallet nMinimumInputValue nTargetValue nSpendTime coinControl rand rand' rand'' =
        (decide (nTargetValue ≤ Int64.ofInt (coinSum (available mapWallet nMinimumInputValue coinControl))), ret) ∧
      ret.setCoinsRet = (available mapWallet nMinimumInputValue coinControl).toFinset ∧
      ret.nValueRet = Int64.ofInt (coinSum (available mapWallet nMinimumInputValue coinControl)) ∧ ret.Exact := by
  obtain ⟨hset, hvalue, hexact⟩ := CoinsRet.insertAll_empty
    (@nodup_available mapWallet nMinimumInputValue coinControl)
  refine ⟨_, ?_, hset, hvalue, hexact⟩
  rw [selectCoins, hcontrol, if_pos rfl, ← hvalue]
  rfl

/-- Coins in the order in which they come, and sorted with ties as they are. -/
def plainRandomness : Randomness where
  shuffle := id
  shuffle_perm := fun vCoins => .refl vCoins
  sort := fun vValue => vValue.mergeSort fun a b => decide (b.nValue ≤ a.nValue)
  sort_perm := fun vValue => List.mergeSort_perm vValue _
  sort_desc := by
    intro vValue
    have hsorted := @List.pairwise_mergeSort _ (fun a b : WalletCoin => decide (b.nValue ≤ a.nValue))
      (fun a b c hab hbc => by
        rw [decide_eq_true_iff] at hab hbc ⊢
        exact Int64.le_trans hbc hab)
      (fun a b => by
        rw [Bool.or_eq_true, decide_eq_true_iff, decide_eq_true_iff]
        exact Int64.le_total _ _) vValue
    exact hsorted.imp fun h => of_decide_eq_true h
  flip := fun _ _ _ => true

/-- A coin of the time 100. -/
def laterTx : WalletTx where
  hash := 1
  nTime := 100
  vout := [{ nValue := 100000000, fSpent := false, fMine := true }]
  fFinal := true
  fTrusted := true
  fMinted := false
  nBlocksToMaturity := 0
  nDepth := 5
  fFromMe := true

def laterWallet : MapWallet where
  txs := [laterTx]
  keys := List.nodup_singleton _

def laterControl : CCoinControl where
  setSelected := [{ hash := 1, n := 0 }]

end ProCurrency
