import Mathlib.Algebra.BigOperators.Group.Finset.Basic
import ProCurrency.Lib.WrappedInt
import ProCurrency.Wallet.SelectCoins

/-!
# What a selection is made of

The amounts of the steps of `SelectCoins` as the images of exact sums, whatever the generator of random numbers
decides.
-/

namespace ProCurrency

open Masks WrappedInt

/-- The exact sum of some coins. -/
def coinSum (coins : List WalletCoin) : Int := (coins.map fun coin => coin.nValue.toInt).sum

theorem coinSum_append (coins coins' : List WalletCoin) : coinSum (coins ++ coins') = coinSum coins + coinSum coins' := by
  rw [coinSum, List.map_append, List.sum_append]
  rfl

theorem coinSum_perm {coins coins' : List WalletCoin} (h : coins.Perm coins') : coinSum coins = coinSum coins' :=
  (h.map _).sum_eq

/-! ## The set that is returned -/

namespace CoinsRet

theorem insertAll_eq (ret : CoinsRet) (coins : List WalletCoin) :
    (ret.insertAll coins).setCoinsRet = ret.setCoinsRet ∪ coins.toFinset ∧
      (ret.insertAll coins).nValueRet = Int64.ofInt (ret.nValueRet.toInt + coinSum coins) := by
  induction coins generalizing ret with
  | nil => simp [insertAll, coinSum]
  | cons coin coins ih =>
      obtain ⟨hset, hvalue⟩ := ih (ret.insert coin)
      constructor
      · change ((ret.insert coin).insertAll coins).setCoinsRet = _
        rw [hset, insert, List.toFinset_cons, Finset.union_insert, Finset.insert_union]
      · change ((ret.insert coin).insertAll coins).nValueRet = _
        rw [hvalue]
        change Int64.ofInt ((ret.nValueRet + coin.nValue).toInt + _) = _
        rw [ofInt_toInt_add_add]
        rfl

/-- The value is the image of the exact sum of the set. -/
def Exact (ret : CoinsRet) : Prop := ret.nValueRet = Int64.ofInt (∑ coin ∈ ret.setCoinsRet, coin.nValue.toInt)

/-- Coins that are all different are inserted with their exact sum. -/
theorem insertAll_empty {coins : List WalletCoin} (h : coins.Nodup) :
    (empty.insertAll coins).setCoinsRet = coins.toFinset ∧
      (empty.insertAll coins).nValueRet = Int64.ofInt (coinSum coins) ∧ (empty.insertAll coins).Exact := by
  obtain ⟨hset, hvalue⟩ := insertAll_eq empty coins
  have hempty : empty.setCoinsRet ∪ coins.toFinset = coins.toFinset := Finset.empty_union _
  have hzero : empty.nValueRet.toInt + coinSum coins = coinSum coins := Int.zero_add _
  rw [hempty] at hset
  rw [hzero] at hvalue
  refine ⟨hset, hvalue, ?_⟩
  rw [Exact, hset, hvalue, List.sum_toFinset _ h]
  rfl

theorem insert_empty (coin : WalletCoin) :
    (empty.insert coin).setCoinsRet = {coin} ∧ (empty.insert coin).nValueRet = coin.nValue ∧
      (empty.insert coin).Exact := by
  obtain ⟨hset, hvalue, hexact⟩ := @insertAll_empty [coin] (List.nodup_singleton coin)
  refine ⟨hset, hvalue.trans ?_, hexact⟩
  rw [coinSum, List.map_singleton, List.sum_singleton, Int64.ofInt_toInt]

end CoinsRet

/-! ## The approximation -/

/-- The totals of a repetition are those of its flags, and the best one reaches the target. -/
structure Repetition.Adds (vValue : List WalletCoin) (nTargetValue : Int64) (st : Repetition) : Prop where
  length : st.vfIncluded.length = vValue.length
  total : st.nTotal = Int64.ofInt (coinSum (pick st.vfIncluded vValue))
  best : st.nBest = Int64.ofInt (coinSum (pick st.vfBest vValue))
  reaches : nTargetValue ≤ st.nBest

variable {vValue : List WalletCoin} {nTargetValue : Int64} {st : Repetition}

theorem Repetition.Adds.take (h : st.Adds vValue nTargetValue) {i : Nat} {coin : WalletCoin}
    (hcoin : vValue[i]? = some coin) (hi : st.vfIncluded[i]? = some false) :
    (st.take nTargetValue i coin).Adds vValue nTargetValue := by
  have hsum : st.nTotal + coin.nValue = Int64.ofInt (coinSum (pick (st.vfIncluded.set i true) vValue)) := by
    rw [coinSum, sum_pick_set _ hcoin hi, h.total, Int64.ofInt_add, Int64.ofInt_toInt, Int64.add_comm]
    rfl
  unfold Repetition.take
  dsimp only
  by_cases hreached : nTargetValue ≤ st.nTotal + coin.nValue
  · rw [if_pos hreached, set_set_false hi, Int64.add_sub_cancel]
    by_cases hless : st.nTotal + coin.nValue < st.nBest
    · rw [if_pos hless, if_pos hless]
      exact ⟨h.length, h.total, hsum, hreached⟩
    · rw [if_neg hless, if_neg hless]
      exact ⟨h.length, h.total, h.best, h.reaches⟩
  · rw [if_neg hreached]
    exact ⟨by rw [List.length_set]; exact h.length, hsum, h.best, h.reaches⟩

theorem getElem?_take_of_ne {i j : Nat} {coin : WalletCoin} (hij : i ≠ j) :
    (st.take nTargetValue i coin).vfIncluded[j]? = st.vfIncluded[j]? := by
  unfold Repetition.take
  dsimp only
  by_cases hreached : nTargetValue ≤ st.nTotal + coin.nValue
  · rw [if_pos hreached, List.getElem?_set_ne hij, List.getElem?_set_ne hij]
  · rw [if_neg hreached, List.getElem?_set_ne hij]

/-- What the test of a pass takes from `i` on is not included yet. -/
def TakesNew (fTake : Nat → Bool → Bool) (n i : Nat) (vfIncluded : List Bool) : Prop :=
  ∀ j, i ≤ j → j < n → fTake j (vfIncluded.getD j false) = true → vfIncluded[j]? = some false

/-- A pass keeps the sums, by induction on the coins that are left. -/
theorem passFrom_adds {fTake : Nat → Bool → Bool} {before rest : List WalletCoin} {st : Repetition}
    (h : st.Adds (before ++ rest) nTargetValue)
    (hnew : TakesNew fTake (before ++ rest).length before.length st.vfIncluded) :
    (passFrom nTargetValue fTake before.length st rest).Adds (before ++ rest) nTargetValue := by
  induction rest generalizing before st with
  | nil => exact h
  | cons coin rest ih =>
      have happend : before ++ coin :: rest = (before ++ [coin]) ++ rest := by simp
      have hlength : before.length + 1 = (before ++ [coin]).length := by simp
      have hlt : before.length < (before ++ coin :: rest).length := by simp
      rw [passFrom, hlength]
      split_ifs with htake
      · have hi := hnew before.length (Nat.le_refl _) hlt htake
        have hcoin : (before ++ coin :: rest)[before.length]? = some coin := by simp
        have htaken := h.take hcoin hi
        rw [happend] at htaken hnew ⊢
        refine ih htaken fun j hle hj hjtake => ?_
        rw [List.length_append, List.length_singleton] at hle
        have hne : before.length ≠ j := by omega
        rw [List.getD_eq_getElem?_getD, getElem?_take_of_ne hne, ← List.getD_eq_getElem?_getD] at hjtake
        rw [getElem?_take_of_ne hne]
        exact hnew j (by omega) hj hjtake
      · rw [happend] at h hnew ⊢
        refine ih h fun j hle hj hjtake => ?_
        rw [List.length_append, List.length_singleton] at hle
        exact hnew j (by omega) hj hjtake

theorem Repetition.Adds.pass (h : st.Adds vValue nTargetValue) (fTake : Nat → Bool → Bool)
    (hnew : TakesNew fTake vValue.length 0 st.vfIncluded) :
    (passFrom nTargetValue fTake 0 st vValue).Adds vValue nTargetValue :=
  @passFrom_adds nTargetValue fTake [] vValue st h hnew

/-- Every repetition leaves the best flags with their sum, and a sum that reaches the target. -/
theorem approximateFrom_spec (flip : Nat → Nat → Bool) (iterations : Nat) {nRep : Nat} {vfBest : List Bool}
    {nBest : Int64} (hbest : nBest = Int64.ofInt (coinSum (pick vfBest vValue))) (hreaches : nTargetValue ≤ nBest) :
    (approximateFrom vValue nTargetValue flip nRep vfBest nBest iterations).2 = Int64.ofInt (coinSum
        (pick (approximateFrom vValue nTargetValue flip nRep vfBest nBest iterations).1 vValue)) ∧
      nTargetValue ≤ (approximateFrom vValue nTargetValue flip nRep vfBest nBest iterations).2 := by
  induction iterations generalizing nRep vfBest nBest with
  | zero => exact ⟨hbest, hreaches⟩
  | succ iterations ih =>
      rw [approximateFrom]
      by_cases hexact : nBest = nTargetValue
      · rw [if_pos hexact]
        exact ⟨hbest, hreaches⟩
      · rw [if_neg hexact]
        have hstart : Repetition.Adds vValue nTargetValue
            { vfIncluded := List.replicate vValue.length false, nTotal := 0, fReachedTarget := false, vfBest, nBest } := by
          refine ⟨List.length_replicate, ?_, hbest, hreaches⟩
          change (0 : Int64) = _
          rw [pick_replicate_false]
          rfl
        have hfirst := hstart.pass (fun i _ => flip nRep i) fun j _ hj _ => by
          rw [List.getElem?_replicate, if_pos hj]
        dsimp only
        generalize passFrom nTargetValue (fun i _ => flip nRep i) 0 _ vValue = st at hfirst
        split_ifs with hreached
        · exact ih hfirst.best hfirst.reaches
        · have hsecond := hfirst.pass (fun _ fIncluded => !fIncluded) fun j _ hj htake => by
            have hget : ∃ b, st.vfIncluded[j]? = some b := by
              rw [← hfirst.length] at hj
              exact ⟨_, List.getElem?_eq_getElem hj⟩
            obtain ⟨b, hb⟩ := hget
            rw [List.getD_eq_getElem?_getD, hb, Option.getD_some, Bool.not_eq_true'] at htake
            rw [hb, htake]
          exact ih hsecond.best hsecond.reaches

theorem approximateBestSubset_spec {nTotalLower : Int64} (flip : Nat → Nat → Bool) (iterations : Nat)
    (hlower : nTotalLower = Int64.ofInt (coinSum vValue)) (hreaches : nTargetValue ≤ nTotalLower) :
    (approximateBestSubset vValue nTotalLower nTargetValue flip iterations).2 = Int64.ofInt (coinSum
        (pick (approximateBestSubset vValue nTotalLower nTargetValue flip iterations).1 vValue)) ∧
      nTargetValue ≤ (approximateBestSubset vValue nTotalLower nTargetValue flip iterations).2 := by
  refine approximateFrom_spec flip iterations ?_ hreaches
  rw [pick_replicate_true]
  exact hlower

/-! ## One call -/

/-- What is returned is made of these coins, is not later than the spend time, has its exact sum and reaches the
target. -/
structure CoinsRet.Selects (coins : List WalletCoin) (nTargetValue : Int64) (nSpendTime : UInt32) (ret : CoinsRet) :
    Prop where
  among : ∀ coin ∈ ret.setCoinsRet, coin ∈ coins
  timely : ∀ coin ∈ ret.setCoinsRet, coin.tx.nTime ≤ nSpendTime
  exact : ret.Exact
  enough : nTargetValue ≤ ret.nValueRet

/-- A coin that a call may use. -/
def Usable (coins : List WalletCoin) (nSpendTime : UInt32) (coin : WalletCoin) : Prop :=
  coin ∈ coins ∧ coin.tx.nTime ≤ nSpendTime

theorem CoinsRet.Selects.single {coins : List WalletCoin} {nSpendTime : UInt32} {coin : WalletCoin}
    (h : Usable coins nSpendTime coin) (henough : nTargetValue ≤ coin.nValue) :
    (CoinsRet.empty.insert coin).Selects coins nTargetValue nSpendTime := by
  obtain ⟨hset, hvalue, hexact⟩ := CoinsRet.insert_empty coin
  refine ⟨fun c hc => ?_, fun c hc => ?_, hexact, ?_⟩
  · rw [hset, Finset.mem_singleton] at hc
    rw [hc]
    exact h.1
  · rw [hset, Finset.mem_singleton] at hc
    rw [hc]
    exact h.2
  · rw [hvalue]
    exact henough

theorem CoinsRet.Selects.several {coins picked : List WalletCoin} {nSpendTime : UInt32} (hnodup : picked.Nodup)
    (h : ∀ coin ∈ picked, Usable coins nSpendTime coin) (henough : nTargetValue ≤ Int64.ofInt (coinSum picked)) :
    (CoinsRet.empty.insertAll picked).Selects coins nTargetValue nSpendTime := by
  obtain ⟨hset, hvalue, hexact⟩ := CoinsRet.insertAll_empty hnodup
  refine ⟨fun c hc => ?_, fun c hc => ?_, hexact, ?_⟩
  · rw [hset, List.mem_toFinset] at hc
    exact (h c hc).1
  · rw [hset, List.mem_toFinset] at hc
    exact (h c hc).2
  · rw [hvalue]
    exact henough

/-- What the loop over the shuffled coins has sorted so far. -/
structure CoinsByTarget.Sorts (coins : List WalletCoin) (nTargetValue : Int64) (nSpendTime : UInt32)
    (st : CoinsByTarget) : Prop where
  usable : ∀ coin ∈ st.vValue, Usable coins nSpendTime coin
  total : st.nTotalLower = Int64.ofInt (coinSum st.vValue)
  larger : ∀ coin, st.coinLowestLarger = some coin → Usable coins nSpendTime coin ∧ nTargetValue + CENT ≤ coin.nValue

theorem sortByTarget_inl {coins : List WalletCoin} {nSpendTime : UInt32} {nConfMine nConfTheirs : Int}
    {st : CoinsByTarget} {vCoins : List COutput} {coin : WalletCoin} (hmem : ∀ output ∈ vCoins, output.coin ∈ coins)
    (h : sortByTarget nTargetValue nSpendTime nConfMine nConfTheirs st vCoins = .inl coin) :
    Usable coins nSpendTime coin ∧ coin.nValue = nTargetValue := by
  induction vCoins generalizing st with
  | nil => cases h
  | cons output vCoins ih =>
      have hrest : ∀ output ∈ vCoins, output.coin ∈ coins := fun o ho => hmem o (List.mem_cons_of_mem _ ho)
      rw [sortByTarget] at h
      by_cases hconf : output.nDepth < (if output.coin.tx.fFromMe then nConfMine else nConfTheirs)
      · rw [if_pos hconf] at h
        exact ih hrest h
      · rw [if_neg hconf] at h
        by_cases hlate : nSpendTime < output.coin.tx.nTime
        · rw [if_pos hlate] at h
          exact ih hrest h
        · rw [if_neg hlate] at h
          by_cases hexact : output.coin.nValue = nTargetValue
          · rw [if_pos hexact] at h
            cases h
            exact ⟨⟨hmem output List.mem_cons_self, UInt32.not_lt.1 hlate⟩, hexact⟩
          · rw [if_neg hexact] at h
            split_ifs at h
            · exact ih hrest h
            · exact ih hrest h
            · exact ih hrest h

theorem sortByTarget_inr {coins : List WalletCoin} {nSpendTime : UInt32} {nConfMine nConfTheirs : Int}
    {st st' : CoinsByTarget} {vCoins : List COutput} (hmem : ∀ output ∈ vCoins, output.coin ∈ coins)
    (hnodup : (st.vValue ++ vCoins.map COutput.coin).Nodup) (hst : st.Sorts coins nTargetValue nSpendTime)
    (h : sortByTarget nTargetValue nSpendTime nConfMine nConfTheirs st vCoins = .inr st') :
    st'.Sorts coins nTargetValue nSpendTime ∧ st'.vValue.Nodup := by
  induction vCoins generalizing st with
  | nil =>
      cases h
      rw [List.map_nil, List.append_nil] at hnodup
      exact ⟨hst, hnodup⟩
  | cons output vCoins ih =>
      have hrest : ∀ output ∈ vCoins, output.coin ∈ coins := fun o ho => hmem o (List.mem_cons_of_mem _ ho)
      have hskip : (st.vValue ++ vCoins.map COutput.coin).Nodup := by
        rw [List.map_cons] at hnodup
        exact hnodup.sublist (List.Sublist.append_left (List.sublist_cons_self _ _) _)
      rw [sortByTarget] at h
      by_cases hconf : output.nDepth < (if output.coin.tx.fFromMe then nConfMine else nConfTheirs)
      · rw [if_pos hconf] at h
        exact ih hrest hskip hst h
      · rw [if_neg hconf] at h
        by_cases hlate : nSpendTime < output.coin.tx.nTime
        · rw [if_pos hlate] at h
          exact ih hrest hskip hst h
        · rw [if_neg hlate] at h
          have husable : Usable coins nSpendTime output.coin :=
            ⟨hmem output List.mem_cons_self, UInt32.not_lt.1 hlate⟩
          split_ifs at h with hexact hlower hlarger
          · have hnext : CoinsByTarget.Sorts coins nTargetValue nSpendTime
                { st with vValue := st.vValue ++ [output.coin], nTotalLower := st.nTotalLower + output.coin.nValue } := by
              refine ⟨fun c hc => ?_, ?_, hst.larger⟩
              · rcases List.mem_append.1 hc with hc | hc
                · exact hst.usable c hc
                · rw [List.mem_singleton.1 hc]
                  exact husable
              · change st.nTotalLower + output.coin.nValue = Int64.ofInt (coinSum (st.vValue ++ [output.coin]))
                rw [coinSum_append, Int64.ofInt_add, hst.total, coinSum, coinSum, List.map_singleton,
                  List.sum_singleton, Int64.ofInt_toInt]
            have hmoved : (st.vValue ++ [output.coin] ++ vCoins.map COutput.coin).Nodup := by
              rw [List.map_cons] at hnodup
              rw [List.append_assoc, List.singleton_append]
              exact hnodup
            exact ih hrest hmoved hnext h
          · have hnext : CoinsByTarget.Sorts coins nTargetValue nSpendTime
                { st with coinLowestLarger := some output.coin } := by
              refine ⟨hst.usable, hst.total, fun c hc => ?_⟩
              cases hc
              exact ⟨husable, Int64.not_lt.1 hlower⟩
            refine ih hrest ?_ hnext h
            exact hskip
          · exact ih hrest hskip hst h

/-- A call that succeeds selects soundly, for every random outcome. -/
theorem selectCoinsMinConf_selects {nSpendTime : UInt32} {nConfMine nConfTheirs : Int} {vCoins : List COutput}
    {rand : Randomness} {ret : CoinsRet} (hfits : AddFits nTargetValue CENT)
    (hnodup : (vCoins.map COutput.coin).Nodup)
    (h : selectCoinsMinConf nTargetValue nSpendTime nConfMine nConfTheirs vCoins rand = (true, ret)) :
    ret.Selects (vCoins.map COutput.coin) nTargetValue nSpendTime := by
  have hcent : nTargetValue ≤ nTargetValue + CENT := by
    have hpos : CENT.toInt = 1000000 := by decide
    rw [Int64.le_iff_toInt_le, hfits.toInt_add, hpos]
    omega
  have hshuffle := rand.shuffle_perm vCoins
  have hmem : ∀ output ∈ rand.shuffle vCoins, output.coin ∈ vCoins.map COutput.coin :=
    fun output ho => List.mem_map_of_mem (hshuffle.mem_iff.1 ho)
  have hstart : ([] ++ (rand.shuffle vCoins).map COutput.coin).Nodup :=
    (hshuffle.map COutput.coin).nodup_iff.2 hnodup
  rw [selectCoinsMinConf] at h
  cases hsort : sortByTarget nTargetValue nSpendTime nConfMine nConfTheirs
      { vValue := [], nTotalLower := 0, coinLowestLarger := none } (rand.shuffle vCoins) with
  | inl coin =>
      rw [hsort] at h
      cases h
      obtain ⟨husable, heq⟩ := sortByTarget_inl hmem hsort
      exact .single husable (by rw [heq]; exact Int64.le_refl _)
  | inr st =>
      have hbase : CoinsByTarget.Sorts (vCoins.map COutput.coin) nTargetValue nSpendTime
          { vValue := [], nTotalLower := 0, coinLowestLarger := none } := by
        refine ⟨fun c hc => ?_, rfl, fun c hc => ?_⟩
        · cases hc
        · cases hc
      obtain ⟨hst, hnodup'⟩ := sortByTarget_inr hmem hstart hbase hsort
      rw [hsort] at h
      dsimp only at h
      by_cases hexact : st.nTotalLower = nTargetValue
      · rw [if_pos hexact] at h
        cases h
        exact .several hnodup' hst.usable (by rw [← hst.total, hexact]; exact Int64.le_refl _)
      · rw [if_neg hexact] at h
        by_cases hless : st.nTotalLower < nTargetValue
        · rw [if_pos hless] at h
          cases hlarger : st.coinLowestLarger with
          | none => rw [hlarger] at h; cases h
          | some coin =>
              rw [hlarger] at h
              cases h
              obtain ⟨husable, hvalue⟩ := hst.larger coin hlarger
              exact .single husable (Int64.le_trans hcent hvalue)
        · rw [if_neg hless] at h
          -- the coins are sorted, and both approximations reach the target with the sum of their flags
          have hperm := rand.sort_perm st.vValue
          have htotal : st.nTotalLower = Int64.ofInt (coinSum (rand.sort st.vValue)) := by
            rw [coinSum_perm hperm]
            exact hst.total
          have hfirst := approximateBestSubset_spec (rand.flip false) 1000 htotal (Int64.not_lt.1 hless)
          have hbest : ∃ best, best.2 = Int64.ofInt (coinSum (pick best.1 (rand.sort st.vValue))) ∧
              nTargetValue ≤ best.2 ∧
              best = (if (approximateBestSubset (rand.sort st.vValue) st.nTotalLower nTargetValue (rand.flip false)
                  1000).2 ≠ nTargetValue ∧ nTargetValue + CENT ≤ st.nTotalLower then
                approximateBestSubset (rand.sort st.vValue) st.nTotalLower (nTargetValue + CENT) (rand.flip true) 1000
                else approximateBestSubset (rand.sort st.vValue) st.nTotalLower nTargetValue (rand.flip false)
                  1000) := by
            split_ifs with hagain
            · obtain ⟨hsum, hreaches⟩ := approximateBestSubset_spec (rand.flip true) 1000 htotal hagain.2
              exact ⟨_, hsum, Int64.le_trans hcent hreaches, rfl⟩
            · exact ⟨_, hfirst.1, hfirst.2, rfl⟩
          obtain ⟨best, hsum, hreaches, heq⟩ := hbest
          rw [← heq] at h
          have hpicked : (CoinsRet.empty.insertAll (pick best.1 (rand.sort st.vValue))).Selects
              (vCoins.map COutput.coin) nTargetValue nSpendTime := by
            have hsub := pick_sublist best.1 (rand.sort st.vValue)
            refine .several ((hperm.nodup_iff.2 hnodup').sublist hsub)
              (fun c hc => hst.usable c (hperm.mem_iff.1 (hsub.mem hc))) ?_
            rw [← hsum]
            exact hreaches
          cases hlarger : st.coinLowestLarger with
          | none =>
              rw [hlarger] at h
              cases h
              exact hpicked
          | some coin =>
              rw [hlarger] at h
              obtain ⟨husable, hvalue⟩ := hst.larger coin hlarger
              dsimp only at h
              split_ifs at h
              · cases h
                exact .single husable (Int64.le_trans hcent hvalue)
              · cases h
                exact hpicked

end ProCurrency
