import ProCurrency.Connect.Minting

/-!
# Running sums

The additions of amounts in `CheckTransaction`, `GetValueOut`, `GetValueIn` and `ConnectInputs`, each as the pair of
numbers that are added, up to the test that stops the loop.
-/

namespace ProCurrency

open WrappedInt

namespace CTransaction

/-- `nValueOut += txout.nValue` in `GetValueOut`. -/
def valueOutAdds (nValueOut : Int64) : List CTxOut → List (Int64 × Int64)
  | [] => []
  | txout :: vout =>
      (nValueOut, txout.nValue) ::
        if !moneyRange txout.nValue || !moneyRange (nValueOut + txout.nValue) then []
        else valueOutAdds (nValueOut + txout.nValue) vout

def getValueOutAdds (tx : CTransaction) : List (Int64 × Int64) := valueOutAdds 0 tx.vout

/-- `nValueOut += txout.nValue` in `CheckTransaction`. -/
def checkOutputsAdds (tx : CTransaction) (nValueOut : Int64) : List CTxOut → List (Int64 × Int64)
  | [] => []
  | txout :: vout =>
      if txout.isEmpty && !tx.isCoinBase && !tx.isCoinStake then []
      else if txout.nValue < 0 then []
      else if MAX_MONEY < txout.nValue then []
      else
        (nValueOut, txout.nValue) ::
          if !moneyRange (nValueOut + txout.nValue) then [] else checkOutputsAdds tx (nValueOut + txout.nValue) vout

def checkTransactionAdds (tx : CTransaction) : List (Int64 × Int64) :=
  if tx.vin.isEmpty then []
  else if tx.vout.isEmpty then []
  else if MAX_BLOCK_SIZE < tx.getSerializeSize then []
  else tx.checkOutputsAdds 0 tx.vout

/-- `nResult += GetOutputFor(vin[i], inputs).nValue` in `GetValueIn`. -/
def valueInAdds (tx : CTransaction) (inputs : MapPrevTx) (nResult : Int64) : List CTxIn → List (Int64 × Int64)
  | [] => []
  | txin :: vin =>
      if tx.spendsAnon txin then valueInAdds tx inputs nResult vin
      else match getOutputFor txin inputs with
        | none => []
        | some txout => (nResult, txout.nValue) :: valueInAdds tx inputs (nResult + txout.nValue) vin

def getValueInAdds (tx : CTransaction) (inputs : MapPrevTx) : List (Int64 × Int64) :=
  if tx.isCoinBase then [] else tx.valueInAdds inputs 0 tx.vin

end CTransaction

namespace ConnectEnv

variable {G : Type} (env : ConnectEnv G)

/-- `nValueIn += txPrev.vout[prevout.n].nValue` in `ConnectInputs`. -/
def checkInputsAdds (tx : CTransaction) (inputs : MapPrevTx) (pindexBlock : CBlockIndex)
    (pprev : List CBlockIndex) (nValueIn : Int64) : List CTxIn → List (Int64 × Int64)
  | [] => []
  | txin :: vin =>
      if tx.spendsAnon txin then checkInputsAdds tx inputs pindexBlock pprev nValueIn vin
      else match inputs txin.prevout.hash with
        | none => []
        | some (txindex, txPrev) =>
            match txPrev.vout[txin.prevout.n.toNat]? with
            | none => []
            | some txout =>
                let fImmature := (txPrev.isCoinBase || txPrev.isCoinStake) &&
                  (isConfirmedInNPrevBlocks txindex pindexBlock env.nCoinbaseMaturity
                    (pindexBlock :: pprev)).isSome
                if txindex.vSpent.length ≤ txin.prevout.n.toNat then []
                else if fImmature then []
                else if tx.nTime < txPrev.nTime then []
                else if env.params.isProtocolVFork1 pindexBlock.nHeight && txout.isEmpty then []
                else
                  (nValueIn, txout.nValue) ::
                    if !moneyRange txout.nValue || !moneyRange (nValueIn + txout.nValue) then []
                    else checkInputsAdds tx inputs pindexBlock pprev (nValueIn + txout.nValue) vin

variable [AddCommGroup G]

/-- With `nValueIn += nSumAnon` behind the loops. -/
def connectInputsAdds (s : ConnectStore) (inputs : MapPrevTx) (mapTestPool : MapTestPool) (posThisTx : CDiskTxPos)
    (pindexBlock : CBlockIndex) (pprev : List CBlockIndex) (flags : UInt32) (tx : CTransaction) :
    List (Int64 × Int64) :=
  if tx.isCoinBase then []
  else
    env.checkInputsAdds tx inputs pindexBlock pprev 0 tx.vin ++
      match env.checkInputsFrom tx inputs pindexBlock pprev 0 tx.vin with
      | none => []
      | some nValueIn =>
          match env.spendInputsFrom tx posThisTx flags 0 inputs mapTestPool tx.vin with
          | none => []
          | some _ => if tx.nVersion == ANON_TXN_VERSION then [(nValueIn, (env.checkAnonInputs s true tx).2)] else []

end ConnectEnv

/-- None of these additions overflows. -/
def NoneOverflows (adds : List (Int64 × Int64)) : Prop := ∀ p ∈ adds, AddFits p.1 p.2

theorem noneOverflows_nil : NoneOverflows [] := fun _ h => by cases h

theorem noneOverflows_cons {a b : Int64} {adds : List (Int64 × Int64)} :
    NoneOverflows ((a, b) :: adds) ↔ AddFits a b ∧ NoneOverflows adds := List.forall_mem_cons

theorem noneOverflows_append {adds adds' : List (Int64 × Int64)} :
    NoneOverflows (adds ++ adds') ↔ NoneOverflows adds ∧ NoneOverflows adds' := List.forall_mem_append

/-! ## Outputs -/

/-- Behind outputs of the range that do not add up to more than it, every output leaves the sum below 2 ^ 63. -/
def TotalsFit (n : Int) (vout : List CTxOut) : Prop :=
  ∀ before txout after, vout = before ++ txout :: after → (∀ o ∈ before, moneyRange o.nValue = true) →
    n + (before.map fun o => o.nValue.toInt).sum ≤ MAX_MONEY.toInt →
      n + (before.map fun o => o.nValue.toInt).sum + txout.nValue.toInt < 2 ^ 63

theorem TotalsFit.head {n : Int} {txout : CTxOut} {vout : List CTxOut} (h : TotalsFit n (txout :: vout))
    (hn : n ≤ MAX_MONEY.toInt) : n + txout.nValue.toInt < 2 ^ 63 := by
  have hfit := h [] txout vout rfl (fun _ hmem => by cases hmem)
  simp only [List.map_nil, List.sum_nil, Int.add_zero] at hfit
  exact hfit hn

theorem TotalsFit.tail {n : Int} {txout : CTxOut} {vout : List CTxOut} (h : TotalsFit n (txout :: vout))
    (hrange : moneyRange txout.nValue = true) : TotalsFit (n + txout.nValue.toInt) vout := by
  intro before txout' after heq hbefore hsum
  have hfit := h (txout :: before) txout' after (by rw [heq, List.cons_append])
  rw [List.map_cons, List.sum_cons, ← Int.add_assoc] at hfit
  exact hfit (List.forall_mem_cons.2 ⟨hrange, hbefore⟩) hsum

/-- The head of the list, and the rest when the head and the sum are in the range. -/
theorem totalsFit_cons {n : Int} {txout : CTxOut} {vout : List CTxOut}
    (hhead : n + txout.nValue.toInt < 2 ^ 63)
    (htail : moneyRange txout.nValue = true → n + txout.nValue.toInt ≤ MAX_MONEY.toInt →
      TotalsFit (n + txout.nValue.toInt) vout) : TotalsFit n (txout :: vout) := by
  intro before txout' after heq hbefore hsum
  cases before with
  | nil =>
      cases heq
      simpa using hhead
  | cons o before =>
      cases heq
      obtain ⟨hrange, hbefore⟩ := List.forall_mem_cons.1 hbefore
      rw [List.map_cons, List.sum_cons, ← Int.add_assoc] at hsum ⊢
      have hpos : 0 ≤ (before.map fun o => o.nValue.toInt).sum := by
        refine List.sum_nonneg fun x hx => ?_
        obtain ⟨o, ho, rfl⟩ := List.mem_map.1 hx
        exact (moneyRange_iff.1 (hbefore o ho)).1
      exact htail hrange (by omega) before txout' after rfl hbefore hsum

namespace CTransaction

/-- The additions of `GetValueOut` fit if and only if the exact totals do. -/
theorem valueOutAdds_iff {vout : List CTxOut} {n : Int64} (hn : moneyRange n = true) :
    NoneOverflows (valueOutAdds n vout) ↔ TotalsFit n.toInt vout := by
  induction vout generalizing n with
  | nil =>
      constructor
      · intro _ before txout after heq
        exact absurd heq (by simp)
      · intro _
        exact noneOverflows_nil
  | cons txout vout ih =>
      have hrange := moneyRange_iff.1 hn
      rw [valueOutAdds, noneOverflows_cons, addFits_iff_of_nonneg hrange.1]
      constructor
      · rintro ⟨hfit, hrest⟩
        refine totalsFit_cons hfit fun hout hsum => ?_
        have hadd := ((addFits_iff_of_nonneg hrange.1).2 hfit).toInt_add
        have hsumRange : moneyRange (n + txout.nValue) = true := by
          rw [moneyRange_iff, hadd]
          exact ⟨Int.add_nonneg hrange.1 (moneyRange_iff.1 hout).1, hsum⟩
        rw [hout, hsumRange] at hrest
        rw [← hadd]
        exact (ih hsumRange).1 hrest
      · intro h
        have hfit := h.head hrange.2
        refine ⟨hfit, ?_⟩
        have hadd := ((addFits_iff_of_nonneg hrange.1).2 hfit).toInt_add
        split_ifs with hout
        · exact noneOverflows_nil
        · rw [Bool.or_eq_true, not_or, Bool.not_eq_true', Bool.not_eq_true', Bool.not_eq_false,
            Bool.not_eq_false] at hout
          have htail := h.tail hout.1
          rw [← hadd] at htail
          exact (ih hout.2).2 htail

theorem checkOutputsAdds_of_fit {tx : CTransaction} {vout : List CTxOut} {n : Int64} (hn : moneyRange n = true)
    (h : TotalsFit n.toInt vout) : NoneOverflows (tx.checkOutputsAdds n vout) := by
  induction vout generalizing n with
  | nil => exact noneOverflows_nil
  | cons txout vout ih =>
      have hrange := moneyRange_iff.1 hn
      have hfit := (addFits_iff_of_nonneg hrange.1).2 (h.head hrange.2)
      rw [checkOutputsAdds]
      split_ifs with hempty hneg hmax hsum
      · exact noneOverflows_nil
      · exact noneOverflows_nil
      · exact noneOverflows_nil
      · exact noneOverflows_cons.2 ⟨hfit, noneOverflows_nil⟩
      · have hout : moneyRange txout.nValue = true := by
          rw [moneyRange, Bool.and_eq_true, decide_eq_true_iff, decide_eq_true_iff]
          exact ⟨Int64.not_lt.1 hneg, Int64.not_lt.1 hmax⟩
        have htail := h.tail hout
        rw [← hfit.toInt_add] at htail
        rw [Bool.not_eq_true', Bool.not_eq_false] at hsum
        exact noneOverflows_cons.2 ⟨hfit, ih hsum htail⟩

/-- `CheckTransaction` and `GetValueOut` add without an overflow if and only if the exact totals fit. -/
theorem outputsAdds_iff (tx : CTransaction) :
    (NoneOverflows tx.checkTransactionAdds ∧ NoneOverflows tx.getValueOutAdds) ↔ TotalsFit 0 tx.vout := by
  have hzero : (0 : Int64).toInt = 0 := rfl
  have hout := @valueOutAdds_iff tx.vout 0 rfl
  rw [hzero] at hout
  rw [getValueOutAdds, hout]
  constructor
  · intro h
    exact h.2
  · intro h
    refine ⟨?_, h⟩
    rw [checkTransactionAdds]
    split_ifs
    · exact noneOverflows_nil
    · exact noneOverflows_nil
    · exact noneOverflows_nil
    · exact checkOutputsAdds_of_fit rfl h

/-- No total outside the range passes `CheckTransaction`, wrapped or not. -/
theorem checkOutputs_inRange {tx : CTransaction} {vout : List CTxOut} {n : Int64} (hn : moneyRange n = true)
    (h : tx.checkOutputs n vout = true) :
    n.toInt + (vout.map fun txout => txout.nValue.toInt).sum ≤ MAX_MONEY.toInt := by
  induction vout generalizing n with
  | nil =>
      rw [List.map_nil, List.sum_nil, Int.add_zero]
      exact (moneyRange_iff.1 hn).2
  | cons txout vout ih =>
      rw [checkOutputs] at h
      split_ifs at h with hempty hneg hmax hsum
      have hout : moneyRange txout.nValue = true := by
        rw [moneyRange, Bool.and_eq_true, decide_eq_true_iff, decide_eq_true_iff]
        exact ⟨Int64.not_lt.1 hneg, Int64.not_lt.1 hmax⟩
      rw [Bool.not_eq_true', Bool.not_eq_false] at hsum
      have hrest := ih hsum h
      rw [toInt_add_of_moneyRange hn hout hsum] at hrest
      rw [List.map_cons, List.sum_cons, ← Int.add_assoc]
      exact hrest

theorem checkTransaction_inRange {tx : CTransaction} (h : tx.checkTransaction = true) :
    tx.valueOut ≤ MAX_MONEY.toInt := by
  rw [checkTransaction] at h
  split_ifs at h with _ _ _ hout
  all_goals
    rw [Bool.not_eq_true', Bool.not_eq_false] at hout
    have hle := checkOutputs_inRange rfl hout
    rw [Int64.toInt_zero, Int.zero_add] at hle
    exact hle

end CTransaction

/-! ## Inputs -/

namespace ConnectEnv

open CTransaction

variable {G : Type} {env : ConnectEnv G} {tx : CTransaction} {inputs : MapPrevTx} {pindexBlock : CBlockIndex}
  {pprev : List CBlockIndex}

/-- An accepted set of inputs is summed up without an overflow. -/
theorem checkInputsAdds_of_accepted {vin : List CTxIn} {n r : Int64} (hn : moneyRange n = true)
    (h : env.checkInputsFrom tx inputs pindexBlock pprev n vin = some r) :
    NoneOverflows (env.checkInputsAdds tx inputs pindexBlock pprev n vin) := by
  induction vin generalizing n with
  | nil => exact noneOverflows_nil
  | cons txin vin ih =>
      rw [checkInputsFrom] at h
      rw [checkInputsAdds]
      rcases hanon : tx.spendsAnon txin with _ | _
      · rw [hanon, if_neg Bool.false_ne_true] at h
        rw [if_neg Bool.false_ne_true]
        rcases hprev : inputs txin.prevout.hash with _ | ⟨txindex, txPrev⟩
        · simp [hprev] at h
        · simp only [hprev] at h ⊢
          rcases hout : txPrev.vout[txin.prevout.n.toNat]? with _ | txout
          · simp [hout] at h
          · simp only [hout] at h ⊢
            split_ifs at h with hspent himmature hlate hempty hrange
            rw [if_neg hspent, if_neg himmature, if_neg hlate, if_neg hempty, if_neg hrange, noneOverflows_cons]
            rw [Bool.or_eq_true, not_or, Bool.not_eq_true', Bool.not_eq_true', Bool.not_eq_false,
              Bool.not_eq_false] at hrange
            exact ⟨addFits_of_nonneg (moneyRange_iff.1 hn).1 (moneyRange_iff.1 hrange.2).1, ih hrange.2 h⟩
      · rw [hanon, if_pos rfl] at h
        rw [if_pos rfl]
        exact ih hn h

/-- `GetValueIn` makes the same additions for an accepted set of inputs. -/
theorem valueInAdds_of_accepted {vin : List CTxIn} {n r : Int64}
    (h : env.checkInputsFrom tx inputs pindexBlock pprev n vin = some r) :
    tx.valueInAdds inputs n vin = env.checkInputsAdds tx inputs pindexBlock pprev n vin := by
  induction vin generalizing n with
  | nil => rfl
  | cons txin vin ih =>
      rw [checkInputsFrom] at h
      rw [checkInputsAdds, valueInAdds]
      rcases hanon : tx.spendsAnon txin with _ | _
      · rw [hanon, if_neg Bool.false_ne_true] at h
        rw [if_neg Bool.false_ne_true, if_neg Bool.false_ne_true, getOutputFor]
        rcases hprev : inputs txin.prevout.hash with _ | ⟨txindex, txPrev⟩
        · simp [hprev] at h
        · simp only [hprev] at h ⊢
          rcases hout : txPrev.vout[txin.prevout.n.toNat]? with _ | txout
          · simp [hout] at h
          · simp only [hout] at h ⊢
            split_ifs at h with hspent himmature hlate hempty hrange
            rw [if_neg hspent, if_neg himmature, if_neg hlate, if_neg hempty, if_neg hrange, ih h]
      · rw [hanon, if_pos rfl] at h
        rw [if_pos rfl, if_pos rfl]
        exact ih h

variable [AddCommGroup G] {s : ConnectStore} {mapTestPool : MapTestPool} {posThisTx : CDiskTxPos} {flags : UInt32}

/-- The sum with the ring coins, for a coin stake of the anon version: nothing compares it with the outputs. -/
def StakeSumFits (env : ConnectEnv G) (s : ConnectStore) (inputs : MapPrevTx) (tx : CTransaction) : Prop :=
  tx.isCoinStake = true → (tx.nVersion == ANON_TXN_VERSION) = true →
    tx.coinsIn inputs tx.vin + (env.checkAnonInputs s true tx).2.toInt < 2 ^ 63

theorem not_isCoinStake_of_isCoinBase (h : tx.isCoinBase = true) : tx.isCoinStake = false := by
  rw [isCoinBase] at h
  rw [isCoinStake]
  match hvin : tx.vin with
  | [] => simp
  | [txin] =>
      rw [hvin] at h
      rw [Bool.and_eq_true] at h
      cases tx.vout with
      | nil => rfl
      | cons txout vout =>
          cases vout with
          | nil => rfl
          | cons txout' vout => simp [h.1]
  | txin :: txin' :: vin =>
      rw [hvin] at h
      cases h

theorem connectInputsAdds_iff
    (h : (env.connectInputs s inputs mapTestPool posThisTx pindexBlock pprev flags tx).isSome = true) :
    (NoneOverflows (env.connectInputsAdds s inputs mapTestPool posThisTx pindexBlock pprev flags tx) ∧
        NoneOverflows (tx.getValueInAdds inputs)) ↔ env.StakeSumFits s inputs tx := by
  rw [connectInputsAdds, getValueInAdds]
  cases hcb : tx.isCoinBase with
  | true =>
      have hstake := not_isCoinStake_of_isCoinBase hcb
      refine ⟨fun _ hcs => ?_, fun _ => ⟨noneOverflows_nil, noneOverflows_nil⟩⟩
      rw [hstake] at hcs
      cases hcs
  | false =>
      rw [Option.isSome_iff_exists] at h
      obtain ⟨mapTestPool', h⟩ := h
      obtain ⟨nValueIn, hcoins, hrange, hspend, hpays⟩ := connectInputs_spec hcb h
      have hcheck : ∃ r, env.checkInputsFrom tx inputs pindexBlock pprev 0 tx.vin = some r := by
        rw [connectInputs, hcb, if_neg Bool.false_ne_true] at h
        cases hcheck : env.checkInputsFrom tx inputs pindexBlock pprev 0 tx.vin with
        | none => simp [hcheck] at h
        | some r => exact ⟨r, rfl⟩
      obtain ⟨r, hcheck⟩ := hcheck
      have hr : r = nValueIn := by
        rw [← Int64.toInt_inj, hcoins, (checkInputsFrom_eq rfl hcheck).1, Int64.toInt_zero, Int.zero_add]
      rw [if_neg Bool.false_ne_true, if_neg Bool.false_ne_true, valueInAdds_of_accepted hcheck, noneOverflows_append,
        hcheck, hspend, hr]
      have hloop := checkInputsAdds_of_accepted rfl hcheck
      have hnonneg := (moneyRange_iff.1 hrange).1
      dsimp only
      cases hanon : tx.nVersion == ANON_TXN_VERSION with
      | false =>
          refine ⟨fun _ _ hversion => ?_, fun _ => ⟨⟨hloop, noneOverflows_nil⟩, hloop⟩⟩
          rw [hanon] at hversion
          cases hversion
      | true =>
          rw [if_pos rfl, noneOverflows_cons, addFits_iff_of_nonneg hnonneg, hcoins]
          refine ⟨fun hfit _ _ => hfit.1.2.1, fun hstake => ⟨⟨hloop, ?_, noneOverflows_nil⟩, hloop⟩⟩
          cases hcs : tx.isCoinStake with
          | true => exact hstake hcs hanon
          | false =>
              have hpaid := hpays hcs
              rw [hanon, if_pos rfl] at hpaid
              obtain ⟨nValueOut, hout, hle⟩ := paysFee_spec hpaid
              have hpos := (moneyRange_iff.1 (getValueOut_eq hout).2).1
              have hfit := addFits_of_nonneg hnonneg (Int.le_trans hpos hle)
              rw [← hcoins]
              exact hfit.2

/-! ## The whole of it -/

/-- No addition leaves the 64-bit range, for the outputs of any transaction and for any set of inputs that
`ConnectInputs` accepts, and no total out of the range of money passes. -/
structure SumsInRange (env : ConnectEnv G) (s : ConnectStore) (inputs : MapPrevTx) (mapTestPool : MapTestPool)
    (posThisTx : CDiskTxPos) (pindexBlock : CBlockIndex) (pprev : List CBlockIndex) (flags : UInt32)
    (tx : CTransaction) : Prop where
  outputs : NoneOverflows tx.checkTransactionAdds ∧ NoneOverflows tx.getValueOutAdds
  accepted : (env.connectInputs s inputs mapTestPool posThisTx pindexBlock pprev flags tx).isSome = true →
    NoneOverflows (env.connectInputsAdds s inputs mapTestPool posThisTx pindexBlock pprev flags tx) ∧
      NoneOverflows (tx.getValueInAdds inputs)
  checked : tx.checkTransaction = true → tx.valueOut ≤ MAX_MONEY.toInt
  summed : ∀ nValueOut, tx.getValueOut = some nValueOut → tx.valueOut ≤ MAX_MONEY.toInt
  spent : (env.connectInputs s inputs mapTestPool posThisTx pindexBlock pprev flags tx).isSome = true →
    tx.isCoinBase = false → tx.coinsIn inputs tx.vin ≤ MAX_MONEY.toInt

/-- That no total out of the range passes holds of every transaction, the additions that leave the 64-bit range
being wrapped; that no addition leaves it holds as long as the exact totals stay below 2 ^ 63. -/
theorem sumsInRange_iff (env : ConnectEnv G) (s : ConnectStore) (inputs : MapPrevTx) (mapTestPool : MapTestPool)
    (posThisTx : CDiskTxPos) (pindexBlock : CBlockIndex) (pprev : List CBlockIndex) (flags : UInt32)
    (tx : CTransaction) :
    env.SumsInRange s inputs mapTestPool posThisTx pindexBlock pprev flags tx ↔
      TotalsFit 0 tx.vout ∧
        ((env.connectInputs s inputs mapTestPool posThisTx pindexBlock pprev flags tx).isSome = true →
          env.StakeSumFits s inputs tx) := by
  constructor
  · intro h
    exact ⟨tx.outputsAdds_iff.1 h.outputs, fun haccepted => (connectInputsAdds_iff haccepted).1 (h.accepted haccepted)⟩
  · rintro ⟨htotals, hstake⟩
    refine ⟨tx.outputsAdds_iff.2 htotals, fun haccepted => (connectInputsAdds_iff haccepted).2 (hstake haccepted),
      checkTransaction_inRange, fun nValueOut hout => ?_, fun haccepted hcb => ?_⟩
    · obtain ⟨heq, hrange⟩ := getValueOut_eq hout
      rw [← heq]
      exact (moneyRange_iff.1 hrange).2
    · obtain ⟨mapTestPool', hconnect⟩ := Option.isSome_iff_exists.1 haccepted
      obtain ⟨nValueIn, hcoins, hrange, _⟩ := connectInputs_spec hcb hconnect
      rw [← hcoins]
      exact (moneyRange_iff.1 hrange).2

/-! ## Two outputs of all the money -/

def twiceTheMoney : CTransaction where
  nVersion := 1
  nTime := 0
  vin := [{ prevout := { hash := 7, n := 0 }, scriptSig := [], nSequence := 0 }]
  vout := [{ nValue := MAX_MONEY, scriptPubKey := [OP_1] }, { nValue := MAX_MONEY, scriptPubKey := [OP_1] }]
  nLockTime := 0

/-- The second addition does not fit, and what it gives is refused. -/
theorem sums_overflow : twiceTheMoney.checkTransaction = false ∧
    ¬ fundedEnv.SumsInRange fundedStore (fun _ => none) (fun _ => none) fundingPos { nHeight := 2 } [] 0
      twiceTheMoney := by
  have hrefused : twiceTheMoney.checkTransaction = false := by decide
  refine ⟨hrefused, fun h => ?_⟩
  have hadd : (MAX_MONEY, MAX_MONEY) ∈ twiceTheMoney.checkTransactionAdds := by decide
  have hfits := h.outputs.1 _ hadd
  revert hfits
  decide

end ConnectEnv

end ProCurrency
