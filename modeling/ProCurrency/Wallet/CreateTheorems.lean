import ProCurrency.Wallet.CreateTransaction
import ProCurrency.Wallet.SelectionSound

/-!
# Created transactions balance

What `CreateTransaction` returns has the outputs of its recipients in their order, each with its narrations behind it.
Its inputs and outputs balance as long as the sum that is selected for can be held.
-/

namespace ProCurrency

open WrappedInt

/-! ## Recipients -/

/-- An amount to be sent, with the narrations that are put behind it. -/
structure Recipient where
  scriptPubKey : CScript
  amount : Int64
  narrations : List CScript
  positive : 0 < amount.toInt

def Recipient.send (recipient : Recipient) : List (CScript × Int64) :=
  (recipient.scriptPubKey, recipient.amount) :: recipient.narrations.map fun scriptN => (scriptN, 0)

def vecSend (recipients : List Recipient) : List (CScript × Int64) := recipients.flatMap Recipient.send

/-- The outputs to the recipients. -/
def payments (recipients : List Recipient) : List CTxOut :=
  (vecSend recipients).map fun s => { nValue := s.2, scriptPubKey := s.1 }

def amountSent (recipients : List Recipient) : Int := (recipients.map fun recipient => recipient.amount.toInt).sum

theorem payments_append (front back : List Recipient) : payments (front ++ back) = payments front ++ payments back := by
  rw [payments, vecSend, List.flatMap_append, List.map_append]
  rfl

theorem vecSend_cons (recipient : Recipient) (recipients : List Recipient) :
    vecSend (recipient :: recipients) = recipient.send ++ vecSend recipients := List.flatMap_cons

/-! ## The sum -/

theorem sumSend_of_neg {nValue : Int64} (h : nValue < 0) (vecSend : List (CScript × Int64)) :
    sumSend nValue vecSend = none := by
  cases vecSend with
  | nil => rw [sumSend, if_pos h]
  | cons s vecSend => rw [sumSend, if_pos h]

/-- A sum that is returned has not wrapped. -/
theorem sumSend_exact {vecSend : List (CScript × Int64)} {nValue nSum : Int64}
    (hpos : ∀ s ∈ vecSend, 0 ≤ s.2.toInt) (h : sumSend nValue vecSend = some nSum) :
    nSum.toInt = nValue.toInt + (vecSend.map fun s => s.2.toInt).sum ∧ 0 ≤ nSum.toInt := by
  induction vecSend generalizing nValue with
  | nil =>
      rw [sumSend] at h
      split_ifs at h with hneg
      cases h
      rw [Int64.lt_iff_toInt_lt] at hneg
      refine ⟨?_, Int.not_lt.1 hneg⟩
      rw [List.map_nil, List.sum_nil, Int.add_zero]
  | cons s vecSend ih =>
      rw [sumSend] at h
      split_ifs at h with hneg
      rw [Int64.lt_iff_toInt_lt] at hneg
      obtain ⟨hsum, hnonneg⟩ := ih (fun s hs => hpos s (List.mem_cons_of_mem _ hs)) h
      refine ⟨?_, hnonneg⟩
      rw [hsum, List.map_cons, List.sum_cons, ← Int.add_assoc]
      rcases toInt_add_eq_or_neg (Int.not_lt.1 hneg) (hpos s List.mem_cons_self) with heq | hwrap
      · rw [heq]
      · rw [sumSend_of_neg (Int64.lt_iff_toInt_lt.2 hwrap)] at h
        cases h

theorem send_sum (recipient : Recipient) :
    (∀ s ∈ recipient.send, 0 ≤ s.2.toInt) ∧
      (recipient.send.map fun s => s.2.toInt).sum = recipient.amount.toInt := by
  have hpos := recipient.positive
  constructor
  · intro s hs
    rcases List.mem_cons.1 hs with rfl | hnarration
    · exact Int.le_of_lt hpos
    · obtain ⟨scriptN, _, rfl⟩ := List.mem_map.1 hnarration
      exact Int.le_refl _
  · rw [Recipient.send, List.map_cons, List.sum_cons, List.map_map]
    have hzero : (recipient.narrations.map ((fun s : CScript × Int64 => s.2.toInt) ∘ fun scriptN => (scriptN, 0))).sum =
        0 := by
      refine List.sum_eq_zero fun x hx => ?_
      obtain ⟨scriptN, _, rfl⟩ := List.mem_map.1 hx
      rfl
    rw [hzero, Int.add_zero]

theorem vecSend_sum (recipients : List Recipient) :
    (∀ s ∈ vecSend recipients, 0 ≤ s.2.toInt) ∧
      ((vecSend recipients).map fun s => s.2.toInt).sum = amountSent recipients := by
  induction recipients with
  | nil => exact ⟨fun s hs => (List.not_mem_nil hs).elim, rfl⟩
  | cons recipient recipients ih =>
      obtain ⟨hpos, hsum⟩ := send_sum recipient
      rw [vecSend_cons]
      constructor
      · intro s hs
        rcases List.mem_append.1 hs with hfirst | hrest
        · exact hpos s hfirst
        · exact ih.1 s hrest
      · rw [List.map_append, List.sum_append, hsum, ih.2]
        rfl

/-! ## The place of the change -/

/-- A place in front of no narration. -/
def Apart (vout : List CTxOut) (position : Nat) : Prop :=
  position = 0 ∨ position = vout.length ∨ ∃ txout, vout[position]? = some txout ∧ txout.nValue ≠ 0

theorem backToValue_apart {vout : List CTxOut} {position : Nat} (h : position < vout.length) :
    Apart vout (backToValue vout position) := by
  induction position with
  | zero => exact Or.inl rfl
  | succ position ih =>
      have hget : vout[position + 1]? = some (vout[position + 1]) := List.getElem?_eq_getElem h
      rw [backToValue, hget]
      dsimp only
      split_ifs with hvalue
      · exact Or.inr (Or.inr ⟨_, hget, hvalue⟩)
      · exact ih (Nat.lt_of_succ_lt h)

theorem changePosition_apart {vout : List CTxOut} {position : Nat} (h : position ≤ vout.length) :
    Apart vout (changePosition vout position) := by
  rw [changePosition]
  split_ifs with hinside
  · exact backToValue_apart hinside.2
  · rcases Nat.eq_zero_or_pos position with hzero | hpos
    · exact Or.inl hzero
    · exact Or.inr (Or.inl (Nat.le_antisymm h (Nat.not_lt.1 fun hlt => hinside ⟨hpos, hlt⟩)))

/-- Behind its first output, a recipient has nothing but narrations. -/
theorem send_narration {recipient : Recipient} {i : Nat} {s : CScript × Int64} (hi : 0 < i)
    (h : recipient.send[i]? = some s) : s.2 = 0 := by
  obtain ⟨i, rfl⟩ := Nat.exists_eq_succ_of_ne_zero (Nat.ne_of_gt hi)
  rw [Recipient.send, Nat.succ_eq_add_one, List.getElem?_cons_succ] at h
  obtain ⟨scriptN, _, rfl⟩ := List.mem_map.1 (List.mem_of_getElem? h)
  rfl

/-- A place in front of no narration is a place between recipients, by induction on the recipients. -/
theorem Apart.between {recipients : List Recipient} {position : Nat} (h : Apart (payments recipients) position) :
    ∃ front back, recipients = front ++ back ∧ position = (payments front).length := by
  induction recipients generalizing position with
  | nil =>
      refine ⟨[], [], rfl, ?_⟩
      rcases h with hzero | hend | ⟨txout, hget, _⟩
      · exact hzero
      · exact hend
      · cases hget
  | cons recipient recipients ih =>
      have hcons : payments (recipient :: recipients) = payments [recipient] ++ payments recipients :=
        payments_append [recipient] recipients
      rcases Nat.eq_zero_or_pos position with hzero | hpos
      · exact ⟨[], recipient :: recipients, rfl, hzero⟩
      · have hbehind : (payments [recipient]).length ≤ position := by
          by_contra hinside
          rw [Nat.not_le] at hinside
          rw [hcons] at h
          rcases h with hzero | hend | ⟨txout, hget, hvalue⟩
          · exact Nat.ne_of_gt hpos hzero
          · rw [List.length_append] at hend
            omega
          · rw [List.getElem?_append_left hinside, payments, vecSend_cons, List.getElem?_map] at hget
            obtain ⟨s, hs, rfl⟩ := Option.map_eq_some_iff.1 hget
            rw [vecSend, List.flatMap_nil, List.append_nil] at hs
            exact hvalue (send_narration hpos hs)
        obtain ⟨rest, rfl⟩ := Nat.exists_eq_add_of_le hbehind
        have hrest : Apart (payments recipients) rest := by
          rw [hcons] at h
          rcases h with hzero | hend | ⟨txout, hget, hvalue⟩
          · exact Or.inl (by omega)
          · rw [List.length_append] at hend
            exact Or.inr (Or.inl (by omega))
          · rw [List.getElem?_append_right hbehind, Nat.add_sub_cancel_left] at hget
            exact Or.inr (Or.inr ⟨txout, hget, hvalue⟩)
        obtain ⟨front, back, rfl, hlength⟩ := ih hrest
        refine ⟨recipient :: front, back, rfl, ?_⟩
        have hfront : payments (recipient :: front) = payments [recipient] ++ payments front :=
          payments_append [recipient] front
        rw [hfront, List.length_append, hlength]

/-- The change is put between two recipients. -/
theorem insertAt_payments (recipients : List Recipient) {position : Nat}
    (h : position ≤ (payments recipients).length) (txout : CTxOut) :
    ∃ front back, recipients = front ++ back ∧
      insertAt (payments recipients) (changePosition (payments recipients) position) txout =
        payments front ++ txout :: payments back := by
  obtain ⟨front, back, rfl, hposition⟩ := (changePosition_apart h).between
  refine ⟨front, back, rfl, ?_⟩
  rw [hposition, insertAt, payments_append, List.take_left, List.drop_left]

/-! ## One round -/

/-- With a fee that is not negative, the fee grows by what the change loses. -/
theorem moveToFee_spec {nChange nFeeRet : Int64} (hfee : 0 ≤ nFeeRet.toInt) :
    nFeeRet.toInt ≤ (moveToFee nChange nFeeRet).2.toInt ∧
      (0 ≤ nChange.toInt → 0 ≤ (moveToFee nChange nFeeRet).1.toInt ∧
        (moveToFee nChange nFeeRet).1.toInt + (moveToFee nChange nFeeRet).2.toInt =
          nChange.toInt + nFeeRet.toInt) := by
  have hmin : MIN_TX_FEE.toInt = 10000 := by decide
  have hcent : CENT.toInt = 1000000 := by decide
  rw [moveToFee]
  split_ifs with hsmall
  · obtain ⟨hlow, hpos, hless⟩ := hsmall
    rw [Int64.lt_iff_toInt_lt, hmin] at hlow
    rw [Int64.lt_iff_toInt_lt, Int64.toInt_zero] at hpos
    rw [Int64.lt_iff_toInt_lt, hcent] at hless
    have hroom : (MIN_TX_FEE - nFeeRet).toInt = 10000 - nFeeRet.toInt := by
      rw [toInt_sub_of_nonneg (by omega) hfee, hmin]
    have hmove : (min nChange (MIN_TX_FEE - nFeeRet)).toInt = min nChange.toInt (10000 - nFeeRet.toInt) := by
      rw [toInt_min, hroom]
    dsimp only
    rw [toInt_sub_of_nonneg (by omega) (by omega), AddFits.toInt_add ⟨by omega, by omega⟩, hmove]
    exact ⟨by omega, fun _ => ⟨by omega, by omega⟩⟩
  · exact ⟨Int.le_refl _, fun hnonneg => ⟨hnonneg, rfl⟩⟩

theorem signCoins_keeps {signSignature : WalletCoin → CTransaction → Nat → Option CScript} {wtxNew tx : CTransaction}
    {nIn : Nat} {coins : List WalletCoin} (h : signCoins signSignature wtxNew nIn coins = some tx) :
    tx.vout = wtxNew.vout ∧ tx.vin.map CTxIn.prevout = wtxNew.vin.map CTxIn.prevout := by
  induction coins generalizing wtxNew nIn with
  | nil =>
      cases h
      exact ⟨rfl, rfl⟩
  | cons coin coins ih =>
      rw [signCoins] at h
      cases hsign : signSignature coin wtxNew nIn with
      | none => simp [hsign] at h
      | some scriptSig =>
          simp only [hsign] at h
          obtain ⟨hvout, hvin⟩ := ih h
          exact ⟨hvout, hvin.trans (map_prevout_modify scriptSig wtxNew.vin nIn)⟩

/-- The size that is held for a transaction. -/
def bytesOf (tx : CTransaction) : UInt32 := UInt32.ofNat tx.getSerializeSize

namespace CreateEnv

variable {e : CreateEnv} {recipients : List Recipient} {wtxNew : CTransaction} {nValue nChange nFeeRet : Int64}
  {k : Nat} {vout : List CTxOut} {created : Created}

/-- The change that is paid has a value. -/
theorem addChange_spec (h : e.addChange k (payments recipients) nChange = some vout) :
    ∃ (change : Option CTxOut) (front back : List Recipient), recipients = front ++ back ∧
      vout = payments front ++ (change.toList ++ payments back) ∧ (∀ txout ∈ change, 0 < txout.nValue.toInt) ∧
      (0 ≤ nChange.toInt → nChange.toInt = (change.map fun txout => txout.nValue.toInt).getD 0) := by
  rw [addChange] at h
  split_ifs at h with hpos
  · rw [Int64.lt_iff_toInt_lt, Int64.toInt_zero] at hpos
    cases hscript : e.scriptChange k with
    | none => simp [hscript] at h
    | some scriptPubKey =>
        simp only [hscript, Option.some.injEq] at h
        obtain ⟨front, back, hsplit, hinsert⟩ := insertAt_payments recipients
          (Nat.le_of_lt_succ ((e.chance k).getRandInt_lt _ (Nat.succ_pos _)))
          { nValue := nChange, scriptPubKey }
        refine ⟨some { nValue := nChange, scriptPubKey }, front, back, hsplit, h.symm.trans hinsert, ?_, fun _ => rfl⟩
        intro txout htxout
        cases htxout
        exact hpos
  · rw [Int64.lt_iff_toInt_lt, Int64.toInt_zero] at hpos
    cases h
    refine ⟨none, [], recipients, rfl, rfl, ?_, fun hnonneg => Int.le_antisymm (Int.not_lt.1 hpos) hnonneg⟩
    intro txout htxout
    cases htxout

/-- What has been done in a round that has got as far as the fee. -/
structure Priced (e : CreateEnv) (recipients : List Recipient) (wtxNew : CTransaction) (nValue : Int64) (k : Nat)
    (nFeeRet : Int64) (ret : CoinsRet) (vout : List CTxOut) (tx : CTransaction) : Prop where
  selected : selectCoins e.mapWallet e.nMinimumInputValue (nValue + nFeeRet) wtxNew.nTime
    (e.coinControl.map CreateControl.toCCoinControl) (e.chance k).rand (e.chance k).rand' (e.chance k).rand'' =
      (true, ret)
  changed : e.addChange k (payments recipients) (moveToFee (ret.nValueRet - nValue - nFeeRet) nFeeRet).1 = some vout
  signed : signCoins (e.chance k).signSignature { wtxNew with vin := fillVin (e.inOrder ret.setCoinsRet), vout } 0
    (e.inOrder ret.setCoinsRet) = some tx
  small : (bytesOf tx).toNat < 2000000

/-- A round fails, or it is about the fee. -/
theorem createRound_cases (e : CreateEnv) (recipients : List Recipient) (wtxNew : CTransaction) (nValue : Int64)
    (k : Nat) (nFeeRet : Int64) :
    e.createRound (vecSend recipients) wtxNew nValue k nFeeRet = .failed ∨
      ∃ ret vout tx, e.Priced recipients wtxNew nValue k nFeeRet ret vout tx ∧
        e.createRound (vecSend recipients) wtxNew nValue k nFeeRet =
          if (moveToFee (ret.nValueRet - nValue - nFeeRet) nFeeRet).2 < e.feeOf tx (bytesOf tx) then
            .again (e.feeOf tx (bytesOf tx))
          else .created { wtxNew := tx, nFeeRet := (moveToFee (ret.nValueRet - nValue - nFeeRet) nFeeRet).2 } := by
  rw [createRound]
  dsimp only
  cases hselect : selectCoins e.mapWallet e.nMinimumInputValue (nValue + nFeeRet) wtxNew.nTime
    (e.coinControl.map CreateControl.toCCoinControl) (e.chance k).rand (e.chance k).rand' (e.chance k).rand'' with
  | mk fFound ret =>
      cases fFound with
      | false => exact Or.inl rfl
      | true =>
          dsimp only
          cases hchange : e.addChange k (payments recipients)
            (moveToFee (ret.nValueRet - nValue - nFeeRet) nFeeRet).1 with
          | none =>
              left
              rw [payments] at hchange
              rw [hchange]
          | some vout =>
              cases hsign : signCoins (e.chance k).signSignature
                { wtxNew with vin := fillVin (e.inOrder ret.setCoinsRet), vout } 0 (e.inOrder ret.setCoinsRet) with
              | none =>
                  left
                  rw [payments] at hchange
                  rw [hchange]
                  dsimp only
                  rw [hsign]
              | some tx =>
                  rw [← payments, hchange]
                  dsimp only
                  rw [hsign]
                  dsimp only
                  by_cases hlarge : UInt32.ofNat (MAX_BLOCK_SIZE / 2 / 5) ≤ UInt32.ofNat tx.getSerializeSize
                  · exact Or.inl (if_pos hlarge)
                  · refine Or.inr ⟨ret, vout, tx, ⟨hselect, hchange, hsign, ?_⟩, if_neg hlarge⟩
                    rw [UInt32.le_iff_toNat_le, Nat.not_le] at hlarge
                    exact hlarge

/-! ## Balance -/

/-- What `AvailableCoins` finds. -/
def available (e : CreateEnv) : List WalletCoin :=
  ProCurrency.available e.mapWallet e.nMinimumInputValue (e.coinControl.map CreateControl.toCCoinControl)

/-- The wallet's coins are amounts, and `CENT` more than all of them can be held. -/
structure MoneyFits (e : CreateEnv) : Prop where
  nonneg : ∀ coin ∈ e.available, 0 ≤ coin.nValue.toInt
  fits : coinSum e.available + CENT.toInt < 2 ^ 63

/-- The transaction spends `coins`, and pays the recipients with the change between `front` and `back`. -/
structure Pays (e : CreateEnv) (recipients : List Recipient) (created : Created) (coins : List WalletCoin)
    (change : Option CTxOut) (front back : List Recipient) : Prop where
  available : ∀ coin ∈ coins, coin ∈ e.available
  nodup : coins.Nodup
  inputs : created.wtxNew.vin.map CTxIn.prevout = (fillVin coins).map CTxIn.prevout
  split : recipients = front ++ back
  outputs : created.wtxNew.vout = payments front ++ (change.toList ++ payments back)
  positive : ∀ txout ∈ change, 0 < txout.nValue.toInt
  balance : coinSum coins =
    amountSent recipients + (change.map fun txout => txout.nValue.toInt).getD 0 + created.nFeeRet.toInt
  minFee : created.wtxNew.getMinFeeAt e.nBestHeight 1 .GMF_SEND (bytesOf created.wtxNew) ≤ created.nFeeRet
  payFee : e.nTransactionFee * (1 + Int64.ofNat ((bytesOf created.wtxNew).toNat / 1000)) ≤ created.nFeeRet

/-- Inputs, outputs and fee are in balance. -/
def Balances (e : CreateEnv) (recipients : List Recipient) (created : Created) : Prop :=
  ∃ coins change front back, e.Pays recipients created coins change front back

theorem coinSum_le_available (hmoney : e.MoneyFits) {coins : List WalletCoin} (hnodup : coins.Nodup)
    (h : ∀ coin ∈ coins, coin ∈ e.available) : coinSum coins ≤ coinSum e.available := by
  have hall : e.available.Nodup := nodup_available
  rw [coinSum, coinSum, ← List.sum_toFinset _ hnodup, ← List.sum_toFinset _ hall]
  refine Finset.sum_le_sum_of_subset_of_nonneg (fun coin hcoin => ?_) fun coin hcoin _ => ?_
  · exact List.mem_toFinset.2 (h coin (List.mem_toFinset.1 hcoin))
  · exact hmoney.nonneg coin (List.mem_toFinset.1 hcoin)

/-- A selection for a sum that `CENT` can be added to. -/
theorem selected_covers (hmoney : e.MoneyFits) {nTotalValue : Int64} (hfits : AddFits nTotalValue CENT)
    {nSpendTime : UInt32} {rand rand' rand'' : Randomness} {ret : CoinsRet}
    (h : selectCoins e.mapWallet e.nMinimumInputValue nTotalValue nSpendTime
      (e.coinControl.map CreateControl.toCCoinControl) rand rand' rand'' = (true, ret)) :
    (∀ coin ∈ ret.setCoinsRet, coin ∈ e.available) ∧
      ret.nValueRet.toInt = coinSum (e.inOrder ret.setCoinsRet) ∧ nTotalValue ≤ ret.nValueRet := by
  have hselects : (∀ coin ∈ ret.setCoinsRet, coin ∈ e.available) ∧ ret.Exact ∧ nTotalValue ≤ ret.nValueRet := by
    cases hcontrol : coinsSelected (e.coinControl.map CreateControl.toCCoinControl) with
    | false =>
        have hsound := selectCoins_selects hfits hcontrol h
        exact ⟨hsound.among, hsound.exact, hsound.enough⟩
    | true =>
        obtain ⟨ret', hret', hset, hvalue, hexact⟩ := @selectCoins_of_selected e.mapWallet e.nMinimumInputValue
          nTotalValue nSpendTime _ hcontrol rand rand' rand''
        rw [hret', Prod.mk.injEq] at h
        obtain ⟨henough, rfl⟩ := h
        refine ⟨fun coin hcoin => ?_, hexact, ?_⟩
        · rw [hset, List.mem_toFinset] at hcoin
          exact hcoin
        · rw [hvalue]
          exact of_decide_eq_true henough
  obtain ⟨hamong, hexact, henough⟩ := hselects
  refine ⟨hamong, ?_, henough⟩
  have hsum : coinSum (e.inOrder ret.setCoinsRet) = ∑ coin ∈ ret.setCoinsRet, coin.nValue.toInt := by
    rw [coinSum, ← List.sum_toFinset _ (e.inOrder_nodup _), e.inOrder_toFinset]
  have hin : ∀ coin ∈ e.inOrder ret.setCoinsRet, coin ∈ e.available := by
    intro coin hcoin
    rw [← List.mem_toFinset, e.inOrder_toFinset] at hcoin
    exact hamong coin hcoin
  have hle := coinSum_le_available hmoney (e.inOrder_nodup _) hin
  have hnonneg : 0 ≤ coinSum (e.inOrder ret.setCoinsRet) :=
    List.sum_nonneg fun x hx => by
      obtain ⟨coin, hcoin, rfl⟩ := List.mem_map.1 hx
      exact hmoney.nonneg coin (hin coin hcoin)
  have hmax := hmoney.fits
  have hcent : CENT.toInt = 1000000 := by decide
  rw [hexact, ← hsum]
  exact Int64.toInt_ofInt_of_le (by omega) (by omega)

/-- The last round of a run balances exactly when `SelectCoins` could work with its sum. -/
theorem created_balances_iff (hmoney : e.MoneyFits) (hvalue : nValue.toInt = amountSent recipients)
    (hamount : 0 ≤ nValue.toInt) (hfee : 0 ≤ nFeeRet.toInt)
    (h : e.createRound (vecSend recipients) wtxNew nValue k nFeeRet = .created created) :
    e.Balances recipients created ↔ amountSent recipients + nFeeRet.toInt + CENT.toInt < 2 ^ 63 := by
  have hcent : CENT.toInt = 1000000 := by decide
  rcases createRound_cases e recipients wtxNew nValue k nFeeRet with hfailed | ⟨ret, vout, tx, hpriced, hround⟩
  · rw [hfailed] at h
    cases h
  · rw [hround] at h
    split_ifs at h with hmore
    cases h
    obtain ⟨hgrows, hmoved⟩ := @moveToFee_spec (ret.nValueRet - nValue - nFeeRet) nFeeRet hfee
    constructor
    · rintro ⟨coins, change, front, back, hpays⟩
      have hle := coinSum_le_available hmoney hpays.nodup hpays.available
      have hchange : 0 ≤ (change.map fun txout => txout.nValue.toInt).getD 0 := by
        cases change with
        | none => exact Int.le_refl _
        | some txout => exact Int.le_of_lt (hpays.positive txout rfl)
      have hbalance := hpays.balance
      have hmax := hmoney.fits
      dsimp only at hbalance
      omega
    · intro hfits
      have htotal : (nValue + nFeeRet).toInt = nValue.toInt + nFeeRet.toInt :=
        AddFits.toInt_add ⟨by omega, by omega⟩
      obtain ⟨hamong, hexact, henough⟩ := selected_covers hmoney ⟨by omega, by omega⟩ hpriced.selected
      rw [Int64.le_iff_toInt_le, htotal] at henough
      have hchange : (ret.nValueRet - nValue - nFeeRet).toInt = ret.nValueRet.toInt - nValue.toInt - nFeeRet.toInt := by
        have hfirst := @toInt_sub_of_nonneg ret.nValueRet nValue (by omega) hamount
        rw [toInt_sub_of_nonneg (by omega) hfee, hfirst]
      obtain ⟨hleft, hsum⟩ := hmoved (by omega)
      obtain ⟨change, front, back, hsplit, hvout, hpositive, hpaid⟩ := addChange_spec hpriced.changed
      obtain ⟨houtputs, hinputs⟩ := signCoins_keeps hpriced.signed
      rw [Int64.lt_iff_toInt_lt, Int.not_lt, feeOf, toInt_max] at hmore
      refine ⟨e.inOrder ret.setCoinsRet, change, front, back, ?_, e.inOrder_nodup _, hinputs, hsplit,
        houtputs.trans hvout, hpositive, ?_, ?_, ?_⟩
      · intro coin hcoin
        rw [← List.mem_toFinset, e.inOrder_toFinset] at hcoin
        exact hamong coin hcoin
      · have hamountPaid := hpaid hleft
        dsimp only
        omega
      · exact Int64.le_iff_toInt_le.2 (Int.le_trans (le_max_right _ _) hmore)
      · exact Int64.le_iff_toInt_le.2 (Int.le_trans (le_max_left _ _) hmore)

/-! ## Runs -/

/-- The rounds that a call goes through, with the fee that each begins with. -/
inductive Reaches (e : CreateEnv) (recipients : List Recipient) (wtxNew : CTransaction) (nValue : Int64) :
    Nat → Int64 → Prop
  | start : Reaches e recipients wtxNew nValue 0 e.nTransactionFee
  | again {k : Nat} {nFeeRet nFeeMore : Int64} (h : Reaches e recipients wtxNew nValue k nFeeRet)
      (hround : e.createRound (vecSend recipients) wtxNew nValue k nFeeRet = .again nFeeMore) :
      Reaches e recipients wtxNew nValue (k + 1) nFeeMore

/-- A further round begins with the fee of a transaction within the limit, which is more than the round had. -/
theorem createRound_again (hfee : 0 ≤ nFeeRet.toInt) {nFeeMore : Int64}
    (h : e.createRound (vecSend recipients) wtxNew nValue k nFeeRet = .again nFeeMore) :
    nFeeRet.toInt < nFeeMore.toInt ∧
      ∃ tx, (bytesOf tx).toNat < 2000000 ∧ nFeeMore = e.feeOf tx (bytesOf tx) := by
  rcases createRound_cases e recipients wtxNew nValue k nFeeRet with hfailed | ⟨ret, vout, tx, hpriced, hround⟩
  · rw [hfailed] at h
    cases h
  · rw [hround] at h
    split_ifs at h with hmore
    cases h
    obtain ⟨hgrows, _⟩ := @moveToFee_spec (ret.nValueRet - nValue - nFeeRet) nFeeRet hfee
    rw [Int64.lt_iff_toInt_lt] at hmore
    exact ⟨Int.lt_of_le_of_lt hgrows hmore, tx, hpriced.small, rfl⟩

theorem Reaches.nonneg (hstart : 0 ≤ e.nTransactionFee.toInt) (h : e.Reaches recipients wtxNew nValue k nFeeRet) :
    0 ≤ nFeeRet.toInt := by
  induction h with
  | start => exact hstart
  | again _ hround ih => exact Int.le_of_lt (Int.lt_of_le_of_lt ih (createRound_again ih hround).1)

/-- The fees of transactions within the limit. -/
def fees (e : CreateEnv) : Finset Int64 :=
  (Finset.range 2000).image fun n => max (e.nTransactionFee * (1 + Int64.ofNat n)) MIN_TX_FEE

/-- The fees that are left decrease, by induction on the fuel. -/
theorem createFrom_ends {fuel : Nat} (hfee : 0 ≤ nFeeRet.toInt)
    (hfuel : (e.fees.filter fun nFee => nFeeRet.toInt < nFee.toInt).card < fuel) :
    ∃ answer, e.createFrom (vecSend recipients) wtxNew nValue fuel k nFeeRet = some answer := by
  induction fuel generalizing k nFeeRet with
  | zero => exact (Nat.not_lt_zero _ hfuel).elim
  | succ fuel ih =>
      rw [createFrom]
      cases hround : e.createRound (vecSend recipients) wtxNew nValue k nFeeRet with
      | failed => exact ⟨none, rfl⟩
      | created created => exact ⟨some created, rfl⟩
      | again nFeeMore =>
          obtain ⟨hmore, tx, hsmall, hfeeOf⟩ := createRound_again hfee hround
          have hmem : nFeeMore ∈ e.fees := by
            refine Finset.mem_image.2 ⟨(bytesOf tx).toNat / 1000, Finset.mem_range.2 ?_, hfeeOf.symm⟩
            omega
          have hless : (e.fees.filter fun nFee => nFeeMore.toInt < nFee.toInt).card <
              (e.fees.filter fun nFee => nFeeRet.toInt < nFee.toInt).card := by
            refine Finset.card_lt_card (Finset.ssubset_iff_of_subset (fun nFee hnFee => ?_) |>.2 ⟨nFeeMore, ?_, ?_⟩)
            · rw [Finset.mem_filter] at hnFee ⊢
              exact ⟨hnFee.1, Int.lt_trans hmore hnFee.2⟩
            · exact Finset.mem_filter.2 ⟨hmem, hmore⟩
            · intro hself
              exact Int.lt_irrefl _ (Finset.mem_filter.1 hself).2
          exact ih (Int.le_of_lt (Int.lt_of_le_of_lt hfee hmore)) (by omega)

/-- A transaction that is returned was made in a round that is reached. -/
theorem createFrom_created {fuel : Nat} (hreaches : e.Reaches recipients wtxNew nValue k nFeeRet)
    (h : e.createFrom (vecSend recipients) wtxNew nValue fuel k nFeeRet = some (some created)) :
    ∃ k nFeeRet, e.Reaches recipients wtxNew nValue k nFeeRet ∧
      e.createRound (vecSend recipients) wtxNew nValue k nFeeRet = .created created := by
  induction fuel generalizing k nFeeRet with
  | zero => cases h
  | succ fuel ih =>
      rw [createFrom] at h
      cases hround : e.createRound (vecSend recipients) wtxNew nValue k nFeeRet with
      | failed => simp [hround] at h
      | created created' =>
          simp only [hround, Option.some.injEq] at h
          rw [h] at hround
          exact ⟨k, nFeeRet, hreaches, hround⟩
      | again nFeeMore =>
          simp only [hround] at h
          exact ih (hreaches.again hround) h

/-- With recipients and a sum that has not wrapped, the call is its loop. -/
theorem createTransaction_cases (e : CreateEnv) (recipients : List Recipient) (wtxNew : CTransaction) (fuel : Nat) :
    e.createTransaction (vecSend recipients) wtxNew fuel = some none ∨
      ∃ nValue : Int64, nValue.toInt = amountSent recipients ∧ 0 ≤ nValue.toInt ∧
        e.createTransaction (vecSend recipients) wtxNew fuel =
          e.createFrom (vecSend recipients) wtxNew nValue fuel 0 e.nTransactionFee := by
  obtain ⟨hpos, hsum⟩ := vecSend_sum recipients
  cases hvalue : sumSend 0 (vecSend recipients) with
  | none =>
      left
      rw [createTransaction, hvalue]
  | some nValue =>
      obtain ⟨hexact, hnonneg⟩ := sumSend_exact hpos hvalue
      rw [hsum, Int64.toInt_zero, Int.zero_add] at hexact
      rw [createTransaction, hvalue]
      cases hempty : (vecSend recipients).isEmpty with
      | true => exact Or.inl rfl
      | false => exact Or.inr ⟨nValue, hexact, hnonneg, rfl⟩

theorem createTransaction_ends {fuel : Nat} (hstart : 0 ≤ e.nTransactionFee.toInt) (hfuel : 2001 ≤ fuel) :
    ∃ answer, e.createTransaction (vecSend recipients) wtxNew fuel = some answer := by
  rcases createTransaction_cases e recipients wtxNew fuel with hfalse | ⟨nValue, _, _, hloop⟩
  · exact ⟨none, hfalse⟩
  · rw [hloop]
    refine createFrom_ends hstart ?_
    have hfilter := Finset.card_filter_le e.fees fun nFee => e.nTransactionFee.toInt < nFee.toInt
    have himage : e.fees.card ≤ (Finset.range 2000).card := Finset.card_image_le
    rw [Finset.card_range] at himage
    omega

theorem createTransaction_created {fuel : Nat}
    (h : e.createTransaction (vecSend recipients) wtxNew fuel = some (some created)) :
    ∃ nValue k nFeeRet, nValue.toInt = amountSent recipients ∧ 0 ≤ nValue.toInt ∧
      e.Reaches recipients wtxNew nValue k nFeeRet ∧
      e.createRound (vecSend recipients) wtxNew nValue k nFeeRet = .created created := by
  rcases createTransaction_cases e recipients wtxNew fuel with hfalse | ⟨nValue, hexact, hnonneg, hloop⟩
  · rw [hfalse] at h
    cases h
  · rw [hloop] at h
    obtain ⟨k, nFeeRet, hreaches, hround⟩ := createFrom_created .start h
    exact ⟨nValue, k, nFeeRet, hexact, hnonneg, hreaches, hround⟩

/-- A call whose first round makes the transaction. -/
theorem createTransaction_first (hvalue : sumSend 0 (vecSend recipients) = some nValue)
    (hsend : (vecSend recipients).isEmpty = false)
    (h : e.createRound (vecSend recipients) wtxNew nValue 0 e.nTransactionFee = .created created) (fuel : Nat) :
    e.createTransaction (vecSend recipients) wtxNew (fuel + 1) = some (some created) := by
  rw [createTransaction, hvalue]
  refine (if_neg (Bool.eq_false_iff.1 hsend)).trans ?_
  rw [createFrom, h]

/-- The fee of a round is at most that of the largest transaction. -/
theorem Reaches.le (hstart : 0 ≤ e.nTransactionFee.toInt) (hlargest : 2000 * e.nTransactionFee.toInt < 2 ^ 63)
    (h : e.Reaches recipients wtxNew nValue k nFeeRet) :
    nFeeRet.toInt ≤ max (2000 * e.nTransactionFee.toInt) 10000 := by
  cases h with
  | start => omega
  | again hbefore hround =>
      obtain ⟨_, tx, hsmall, rfl⟩ := createRound_again (hbefore.nonneg hstart) hround
      have hunits : (1 + Int64.ofNat ((bytesOf tx).toNat / 1000)).toInt = 1 + ((bytesOf tx).toNat / 1000 : Nat) := by
        have hone : (1 : Int64).toInt = 1 := by decide
        have hcount : (Int64.ofNat ((bytesOf tx).toNat / 1000)).toInt = ((bytesOf tx).toNat / 1000 : Nat) :=
          Int64.toInt_ofNat_of_lt (by omega)
        rw [AddFits.toInt_add ⟨by omega, by omega⟩, hone, hcount]
      have hle : e.nTransactionFee.toInt * (1 + ((bytesOf tx).toNat / 1000 : Nat)) ≤
          e.nTransactionFee.toInt * 2000 := Int.mul_le_mul_of_nonneg_left (by omega) hstart
      have hnonneg : 0 ≤ e.nTransactionFee.toInt * (1 + ((bytesOf tx).toNat / 1000 : Nat)) :=
        Int.mul_nonneg hstart (by omega)
      have hpay : (e.nTransactionFee * (1 + Int64.ofNat ((bytesOf tx).toNat / 1000))).toInt =
          e.nTransactionFee.toInt * (1 + ((bytesOf tx).toNat / 1000 : Nat)) := by
        rw [← hunits] at hle hnonneg ⊢
        exact toInt_mul_of_lt hnonneg (by omega)
      rw [feeOf, toInt_max, CTransaction.toInt_getMinFeeAt, hpay]
      omega

/-- The largest transaction that is made, at the fee that is set, is the most that has to be held. -/
theorem createTransaction_balances {fuel : Nat} (hmoney : e.MoneyFits) (hstart : 0 ≤ e.nTransactionFee.toInt)
    (hlargest : amountSent recipients + max (2000 * e.nTransactionFee.toInt) 10000 + CENT.toInt < 2 ^ 63)
    (h : e.createTransaction (vecSend recipients) wtxNew fuel = some (some created)) :
    e.Balances recipients created := by
  obtain ⟨nValue, k, nFeeRet, hexact, hnonneg, hreaches, hround⟩ := createTransaction_created h
  have hcent : CENT.toInt = 1000000 := by decide
  have hfee := hreaches.le hstart (by omega)
  exact (created_balances_iff hmoney hexact hnonneg (hreaches.nonneg hstart) hround).2 (by omega)

end CreateEnv

/-! ## Two settings -/

/-- A fee that is set, and a generator of random numbers that puts the change in front of the last output. -/
noncomputable def settingEnv (mapWallet : MapWallet) (nTransactionFee : Int64) : CreateEnv where
  mapWallet := mapWallet
  nMinimumInputValue := 0
  nTransactionFee := nTransactionFee
  nBestHeight := 1000
  coinControl := none
  inOrder := Finset.toList
  inOrder_nodup := Finset.nodup_toList
  inOrder_toFinset := Finset.toList_toFinset
  chance := fun _ =>
    { rand := plainRandomness
      rand' := plainRandomness
      rand'' := plainRandomness
      getRandInt := fun nMax => nMax - 2
      getRandInt_lt := fun _ h => Nat.sub_lt h Nat.two_pos
      getChangeAddress := some [118]
      signSignature := fun _ _ _ => some [1] }

def draftTx : CTransaction where
  nVersion := 1
  nTime := 200
  vin := []
  vout := []
  nLockTime := 0

def narratedRecipient : Recipient where
  scriptPubKey := [118]
  amount := 50000000
  narrations := [[106]]
  positive := by decide

theorem settingEnv_moneyFits (nTransactionFee : Int64) : (settingEnv laterWallet nTransactionFee).MoneyFits := by
  have hfound : (settingEnv laterWallet nTransactionFee).available = [{ tx := laterTx, i := 0 }] := rfl
  constructor
  · intro coin hcoin
    rw [hfound, List.mem_singleton] at hcoin
    rw [hcoin]
    decide
  · rw [hfound]
    decide

def emptyWallet : MapWallet where
  txs := []
  keys := List.nodup_nil

def largestRecipient : Recipient where
  scriptPubKey := [118]
  amount := MAX_MONEY
  narrations := []
  positive := by decide

end ProCurrency
