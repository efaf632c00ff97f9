import ProCurrency.Connect.Lemmas.Balance
import ProCurrency.Wallet.CombinationSearch

/-!
# Ring coins that are picked, and their change

What is picked is worth the payment, the fee and the change. The search goes from few coins to many, and so what it
finds is not much more than the amount.
-/

namespace ProCurrency

variable {vData : List COwnedAnonOutput} {nReq : Int64} {fDebugRingSig : Bool} {fuel : Nat}

/-! ## Sums of the largest coins -/

theorem largestSum_zero (vData : List COwnedAnonOutput) : largestSum vData 0 = 0 := by
  rw [largestSum, Nat.sub_zero, List.drop_length]
  rfl

theorem largestSum_succ {m : Nat} (hm : m < vData.length) :
    largestSum vData (m + 1) = worth vData (vData.length - 1 - m) + largestSum vData m := by
  have hlt : vData.length - (m + 1) < vData.length := by omega
  have hsucc : vData.length - (m + 1) + 1 = vData.length - m := by omega
  have hidx : vData.length - 1 - m = vData.length - (m + 1) := by omega
  rw [largestSum, List.drop_eq_getElem_cons hlt, hsucc, List.map_cons, List.sum_cons, hidx,
    worth_of_getElem? (List.getElem?_eq_getElem hlt), largestSum]

theorem largestSum_mono (hvalues : ∀ coin ∈ vData, 0 ≤ coin.nValue.toInt) {k m : Nat} (hkm : k ≤ m)
    (hm : m ≤ vData.length) : largestSum vData k ≤ largestSum vData m := by
  induction m, hkm using Nat.le_induction with
  | base => exact Int.le_refl _
  | succ m hkm ih =>
      have hle := ih (by omega)
      have hworth := worth_nonneg hvalues (vData.length - 1 - m)
      rw [largestSum_succ (by omega)]
      omega

/-- The `m` largest coins are worth at least `m` times the next one. -/
theorem mul_worth_le (hasc : Ascending vData) {m i : Nat} (hm : m ≤ vData.length) (hi : i + m < vData.length) :
    m * worth vData i ≤ largestSum vData m := by
  induction m with
  | zero =>
      rw [largestSum_zero, Int.natCast_zero, Int.zero_mul]
  | succ m ih =>
      have hle := ih (by omega) (by omega)
      have hworth : worth vData i ≤ worth vData (vData.length - 1 - m) := worth_le_worth hasc (by omega) (by omega)
      rw [largestSum_succ (by omega), Int.natCast_succ, Int.add_mul, Int.one_mul, Int.add_comm]
      exact Int.add_le_add hworth hle

/-- More coins than the `k` largest add at most the next one for each of them. -/
theorem largestSum_le_add (hasc : Ascending vData) {k m : Nat} (hkm : k ≤ m) (hm : m ≤ vData.length) :
    largestSum vData m ≤ largestSum vData k + (m - k : Nat) * worth vData (vData.length - 1 - k) := by
  induction m, hkm using Nat.le_induction with
  | base => rw [Nat.sub_self, Int.natCast_zero, Int.zero_mul, Int.add_zero]
  | succ m hkm ih =>
      have hle := ih (by omega)
      have hworth : worth vData (vData.length - 1 - m) ≤ worth vData (vData.length - 1 - k) :=
        worth_le_worth hasc (by omega) (by omega)
      rw [largestSum_succ (by omega), Nat.succ_sub hkm, Int.natCast_succ, Int.add_mul, Int.one_mul]
      omega

/-- A coin that can be the largest of `j`, with a product in range that reaches the amount. -/
theorem startable_of_worth {i j : Nat} (hj : 0 < j) (hji : j ≤ i + 1) (hi : i < vData.length)
    (hreach : nReq.toInt ≤ j * worth vData i) (hpos : 0 < worth vData i) (hfits : j * worth vData i < 2 ^ 63) :
    Startable nReq j vData := by
  obtain ⟨coin, hget⟩ : ∃ coin, vData[i]? = some coin := ⟨_, List.getElem?_eq_getElem hi⟩
  rw [worth_of_getElem? hget] at hreach hpos hfits
  have hjle : (j : Int) * 1 ≤ j * coin.nValue.toInt := Int.mul_le_mul_of_nonneg_left hpos (Int.natCast_nonneg j)
  have hjInt : (Int64.ofNat j).toInt = j := Int64.toInt_ofNat_of_lt (by omega)
  have hproduct : (coin.nValue * Int64.ofNat j).toInt = coin.nValue.toInt * j := by
    rw [← hjInt]
    rw [Int.mul_comm, ← hjInt] at hfits
    refine WrappedInt.toInt_mul_of_lt ?_ hfits
    rw [hjInt]
    exact Int.mul_nonneg (Int.le_of_lt hpos) (Int.natCast_nonneg j)
  refine ⟨coin, ?_, ?_⟩
  · refine List.mem_iff_getElem?.2 ⟨i - (j - 1), ?_⟩
    rw [List.getElem?_drop, ← hget]
    congr 1
    omega
  · rw [Int64.le_iff_toInt_le, hproduct, Int.mul_comm]
    exact hreach

/-! ## What is found after smaller searches have failed -/

/-- Searches for fewer than `m` coins have failed, and the largest coins of them reached the amount only where the
search had no start. Then the coin that first takes the sum to the amount is so small that, taken as often as there
are coins left, it does not reach it. -/
theorem mul_worth_lt_of_missed (hasc : Ascending vData) (hvalues : ∀ coin ∈ vData, 0 ≤ coin.nValue.toInt)
    (hdouble : 2 * nReq.toInt < 2 ^ 63) {k m : Nat} (hk : 0 < k) (hkm : k < m) (hmn : m ≤ vData.length)
    (hmissed : ∀ j, 0 < j → j < m → Startable nReq j vData → largestSum vData j < nReq.toInt)
    (hbelow : largestSum vData k < nReq.toInt) (hreach : nReq.toInt ≤ largestSum vData (k + 1)) :
    (m - k : Nat) * worth vData (vData.length - 1 - k) < nReq.toInt := by
  by_contra hlarge
  rw [Int.not_lt] at hlarge
  have hkWorth : k * worth vData (vData.length - 1 - k) ≤ largestSum vData k :=
    mul_worth_le hasc (by omega) (by omega)
  have hnonneg := worth_nonneg hvalues (vData.length - 1 - k)
  have hexists : ∃ j : Nat, nReq.toInt ≤ j * worth vData (vData.length - 1 - k) := ⟨m - k, hlarge⟩
  obtain ⟨j, hj, hleast⟩ : ∃ j : Nat, nReq.toInt ≤ j * worth vData (vData.length - 1 - k) ∧
      ∀ i < j, ¬ nReq.toInt ≤ i * worth vData (vData.length - 1 - k) :=
    ⟨Nat.find hexists, Nat.find_spec hexists, fun i hi => Nat.find_min hexists hi⟩
  have hjm : j ≤ m - k := Nat.le_of_not_lt fun hlt => hleast _ hlt hlarge
  have hkj : k < j := by
    by_contra hle
    have hmul : (j : Int) * worth vData (vData.length - 1 - k) ≤ k * worth vData (vData.length - 1 - k) :=
      Int.mul_le_mul_of_nonneg_right (by omega) hnonneg
    omega
  have hprev := hleast (j - 1) (by omega)
  have hsplit : (j : Int) * worth vData (vData.length - 1 - k) =
      (j - 1 : Nat) * worth vData (vData.length - 1 - k) + worth vData (vData.length - 1 - k) := by
    have hcast : (j : Int) = (j - 1 : Nat) + 1 := by omega
    rw [hcast, Int.add_mul, Int.one_mul]
  have hone : 1 * worth vData (vData.length - 1 - k) ≤ k * worth vData (vData.length - 1 - k) :=
    Int.mul_le_mul_of_nonneg_right (by omega) hnonneg
  rw [Int.one_mul] at hone
  have hpos : 0 < worth vData (vData.length - 1 - k) := by
    refine lt_of_le_of_ne hnonneg ?_
    intro hzero
    rw [← hzero, Int.mul_zero] at hj hkWorth
    omega
  have hstart : Startable nReq j vData :=
    startable_of_worth (by omega) (by omega) (by omega) hj hpos (by omega)
  have hlt := hmissed j (by omega) (by omega) hstart
  have hmono := largestSum_mono hvalues (show k + 1 ≤ j from hkj) (by omega)
  omega

/-- So no combination of `m` coins is much more than the amount. -/
theorem largestSum_lt_of_missed (hasc : Ascending vData) (hvalues : ∀ coin ∈ vData, 0 ≤ coin.nValue.toInt)
    (hreq : 0 < nReq.toInt) (hdouble : 2 * nReq.toInt < 2 ^ 63) {c : Int} (hc : ∀ i, worth vData i ≤ c)
    (hreqc : nReq.toInt ≤ c) {m : Nat} (hm : 0 < m) (hmn : m ≤ vData.length)
    (hmissed : ∀ j, 0 < j → j < m → Startable nReq j vData → largestSum vData j < nReq.toInt) :
    largestSum vData m < nReq.toInt + c := by
  have hexists : ∃ k, nReq.toInt ≤ largestSum vData (k + 1) ∨ m ≤ k + 1 := ⟨m - 1, Or.inr (by omega)⟩
  obtain ⟨k, hk, hleast⟩ : ∃ k, (nReq.toInt ≤ largestSum vData (k + 1) ∨ m ≤ k + 1) ∧
      ∀ i < k, ¬ (nReq.toInt ≤ largestSum vData (i + 1) ∨ m ≤ i + 1) :=
    ⟨Nat.find hexists, Nat.find_spec hexists, fun i hi => Nat.find_min hexists hi⟩
  have hkm : k < m := by
    by_contra hle
    exact hleast (m - 1) (by omega) (Or.inr (by omega))
  have hbelow : largestSum vData k < nReq.toInt := by
    cases k with
    | zero => rwa [largestSum_zero]
    | succ k =>
        have hnot := hleast k (Nat.lt_succ_self k)
        omega
  rcases Nat.eq_or_lt_of_le (Nat.succ_le_of_lt hkm) with heq | hlt
  · -- all smaller searches failed for want of value
    subst heq
    have hworth := hc (vData.length - 1 - k)
    rw [Nat.succ_eq_add_one, largestSum_succ (by omega)]
    omega
  · have hreach : nReq.toInt ≤ largestSum vData (k + 1) := by omega
    have hk0 : 0 < k := by
      refine Nat.pos_of_ne_zero ?_
      rintro rfl
      have hone := hreach
      rw [largestSum_succ (by omega), largestSum_zero, Int.add_zero] at hone
      have hmax := hc (vData.length - 1 - 0)
      have hfits : (1 : Nat) * worth vData (vData.length - 1 - 0) < 2 ^ 63 := by
        rw [Int.natCast_one, Int.one_mul, worth]
        cases vData[vData.length - 1 - 0]? with
        | none => decide
        | some coin => exact coin.nValue.toInt_lt
      have hstart : Startable nReq 1 vData := by
        refine startable_of_worth Nat.one_pos (by omega) (by omega) ?_ (by omega) hfits
        rw [Int.natCast_one, Int.one_mul]
        exact hone
      exact absurd hreach (Int.not_le.2 (hmissed 1 Nat.one_pos hlt hstart))
    have hadd := largestSum_le_add hasc (Nat.le_of_lt hkm) hmn
    have hmul := mul_worth_lt_of_missed hasc hvalues hdouble hk0 hkm hmn hmissed hbelow hreach
    omega

/-! ## Success -/

theorem createAnonOutputsFrom_amounts (keys : Nat → Option (List UInt8 × List UInt8)) {i : Nat}
    {vOutAmounts : List Int64} {vecSend vecOut : List (CScript × Int64)}
    (h : createAnonOutputsFrom keys i vOutAmounts vecSend = (true, vecOut)) :
    vecOut.map Prod.snd = vecSend.map Prod.snd ++ vOutAmounts := by
  induction vOutAmounts generalizing i vecSend with
  | nil =>
      cases h
      rw [List.append_nil]
  | cons nAmount vOutAmounts ih =>
      rw [createAnonOutputsFrom] at h
      cases hkeys : keys i with
      | none =>
          rw [hkeys] at h
          cases h
      | some key =>
          rw [hkeys] at h
          rw [ih h, List.map_append, List.append_assoc]
          rfl

/-- The amounts of the change are what `splitAmount` makes of it. -/
theorem createAnonOutputs_amounts {keys : Nat → Option (List UInt8 × List UInt8)} {nValue : Int64}
    {vecOut : List (CScript × Int64)} (h : createAnonOutputs keys nValue [] = (true, vecOut)) :
    ∃ fOverflow, splitAmount nValue = some (vecOut.map Prod.snd, fOverflow) := by
  rw [createAnonOutputs] at h
  cases hsplit : splitAmount nValue with
  | none =>
      rw [hsplit] at h
      cases h
  | some res =>
      obtain ⟨vOutAmounts, fOverflow⟩ := res
      rw [hsplit] at h
      have hamounts := createAnonOutputsFrom_amounts keys h
      rw [List.map_nil, List.nil_append] at hamounts
      exact ⟨fOverflow, by rw [hamounts]⟩

namespace AnonPickArgs

variable {env : AnonPickEnv} {args : AnonPickArgs} {rsType : RingSigType}

/-- What has been paid when a combination is taken. -/
structure Taken (args : AnonPickArgs) (vecInputIndex : List Nat) (pick : AnonPick) : Prop where
  picked : pick.vPickedCoins = vecInputIndex
  fee : pick.nFee = MIN_TX_FEE
  change : ∃ nTotalIn fOverflow, totalFrom args.lAvailableCoins 0 vecInputIndex = some nTotalIn ∧
    splitAmount (nTotalIn - (args.nValue + MIN_TX_FEE)) = some (pick.vecChange.map Prod.snd, fOverflow)

theorem takeCombination_taken {i : Nat} {vecInputIndex : List Nat} {pick pick' : AnonPick}
    (hfee : pick.nFee = MIN_TX_FEE) (hchange : pick.vecChange = [])
    (h : args.takeCombination env rsType i vecInputIndex pick = .returned 1 pick') :
    args.Taken vecInputIndex pick' := by
  rw [takeCombination] at h
  cases htotal : totalFrom args.lAvailableCoins 0 vecInputIndex with
  | none =>
      rw [htotal] at h
      cases h
  | some nTotalIn =>
      rw [htotal] at h
      dsimp only at h
      split_ifs at h
      · cases h
      · rw [hchange, hfee] at h
        cases hcreate : createAnonOutputs (env.outputKeys i) (nTotalIn - (args.nValue + MIN_TX_FEE)) [] with
        | mk fDone vecChange =>
            rw [hcreate] at h
            cases fDone with
            | false => cases h
            | true =>
                dsimp only at h
                split_ifs at h
                · cases h
                · cases h
                  obtain ⟨fOverflow, hsplit⟩ := createAnonOutputs_amounts hcreate
                  exact ⟨rfl, rfl, nTotalIn, fOverflow, htotal, hsplit⟩

/-- The round in which a run succeeds: the searches of the rounds before it have found nothing. -/
theorem pickFrom_success {rounds i : Nat} {pick pick' : AnonPick}
    (h : args.pickFrom env rsType fuel rounds i pick = some (.returned 1 pick')) :
    ∃ j vecInputIndex, i ≤ j ∧ j < i + rounds ∧
      checkCombinations env.fDebugRingSig fuel (args.nValue + MIN_TX_FEE) (j + 1) args.lAvailableCoins =
        some (.found vecInputIndex) ∧
      args.Taken vecInputIndex pick' ∧
      ∀ k, i ≤ k → k < j →
        checkCombinations env.fDebugRingSig fuel (args.nValue + MIN_TX_FEE) (k + 1) args.lAvailableCoins =
          some .notFound := by
  induction rounds generalizing i pick with
  | zero => cases h
  | succ rounds ih =>
      have hfee : ∀ nChangeOuts nInputs, args.anonFee env rsType nChangeOuts nInputs = MIN_TX_FEE := fun _ _ => rfl
      rw [pickFrom] at h
      simp only [hfee] at h
      split_ifs at h with hcheck
      · cases h
      · cases hsearch : checkCombinations env.fDebugRingSig fuel (args.nValue + MIN_TX_FEE) (i + 1)
            args.lAvailableCoins with
        | none =>
            rw [hsearch] at h
            cases h
        | some c =>
            rw [hsearch] at h
            cases c with
            | outOfRange => cases h
            | found vecInputIndex =>
                have htaken := takeCombination_taken rfl rfl (Option.some.inj h)
                exact ⟨i, vecInputIndex, Nat.le_refl i, by omega, hsearch, htaken, fun k hik hki => by omega⟩
            | notFound =>
                obtain ⟨j, vecInputIndex, hij, hj, hfound, htaken, hbefore⟩ := ih h
                refine ⟨j, vecInputIndex, by omega, by omega, hfound, htaken, ?_⟩
                intro k hik hkj
                rcases Nat.eq_or_lt_of_le hik with rfl | hlt
                · exact hsearch
                · exact hbefore k hlt hkj

end AnonPickArgs

/-! ## Conservation -/

/-- The coins that are picked are different, and what they are worth is what is paid. -/
structure Conserves (args : AnonPickArgs) (pick : AnonPick) : Prop where
  distinct : pick.vPickedCoins.Nodup
  inRange : ∀ i ∈ pick.vPickedCoins, i < args.lAvailableCoins.length
  sum : worths args.lAvailableCoins pick.vPickedCoins =
    args.nValue.toInt + pick.nFee.toInt + (pick.vecChange.map fun txout => txout.2.toInt).sum
  denominations : ∀ txout ∈ pick.vecChange, IsDenomination txout.2.toInt

theorem largestSum_length (vData : List COwnedAnonOutput) :
    largestSum vData vData.length = (vData.map fun coin => coin.nValue.toInt).sum := by
  rw [largestSum, Nat.sub_self, List.drop_zero]

theorem largestSum_lt (hvalues : ∀ coin ∈ vData, 0 ≤ coin.nValue.toInt)
    (htotal : (vData.map fun coin => coin.nValue.toInt).sum < 2 ^ 63) {m : Nat} (hm : m ≤ vData.length) :
    largestSum vData m < 2 ^ 63 := by
  have hmono := largestSum_mono hvalues hm (Nat.le_refl _)
  rw [largestSum_length] at hmono
  omega

theorem worth_le_of_moneyRange (hvalues : ∀ coin ∈ vData, moneyRange coin.nValue = true) (i : Nat) :
    worth vData i ≤ MAX_MONEY.toInt := by
  rw [worth]
  cases hget : vData[i]? with
  | none => decide
  | some coin => exact (moneyRange_iff.1 (hvalues coin (List.mem_of_getElem? hget))).2

/-- A run whose coins are together in range takes no more change than a coin can have. -/
theorem change_le (hasc : Ascending vData) (hvalues : ∀ coin ∈ vData, moneyRange coin.nValue = true)
    (htotal : (vData.map fun coin => coin.nValue.toInt).sum < 2 ^ 63) (hreq : 0 < nReq.toInt) {m : Nat}
    {x : List Nat} (hm : 0 < m) (hx : Reaches nReq m vData x) (hmn : m ≤ vData.length)
    (hbefore : ∀ k, 0 < k → k < m →
      checkCombinations fDebugRingSig fuel nReq k vData = some .notFound) :
    worths vData x - nReq.toInt ≤ MAX_MONEY.toInt := by
  have hMax : MAX_MONEY.toInt = 7500000000000000000 := by decide
  have hnonneg : ∀ coin ∈ vData, 0 ≤ coin.nValue.toInt := fun coin hcoin => (moneyRange_iff.1 (hvalues coin hcoin)).1
  have hle := worths_le_largestSum hasc hmn hx.below hx.length
  by_cases hlarge : 2 ^ 63 - MAX_MONEY.toInt ≤ nReq.toInt
  · have hfits := largestSum_lt hnonneg htotal hmn
    omega
  · have hmissed : ∀ k, 0 < k → k < m → Startable nReq k vData → largestSum vData k < nReq.toInt := by
      intro k hk hkm hstart
      have hkn : k ≤ vData.length := by omega
      have hshort := checkCombinations_short hk hkn hstart (hbefore k hk hkm)
      exact hshort.lt_largestSum hnonneg hkn (largestSum_lt hnonneg htotal hkn)
    have hlt := largestSum_lt_of_missed hasc hnonneg hreq (by omega) (worth_le_of_moneyRange hvalues) (by omega)
      hm hmn hmissed
    omega

/-- Success conserves value when the available coins together stay in the range of the type. -/
theorem pickAnonInputs_conserves (env : AnonPickEnv) (args : AnonPickArgs) (fuel : Nat) (pick pick' : AnonPick)
    (hasc : Ascending args.lAvailableCoins)
    (hvalues : ∀ coin ∈ args.lAvailableCoins, moneyRange coin.nValue = true) (hvalue : moneyRange args.nValue = true)
    (htotal : (args.lAvailableCoins.map fun coin => coin.nValue.toInt).sum < 2 ^ 63)
    (h : args.pickAnonInputs env fuel pick = some (.returned 1 pick')) : Conserves args pick' := by
  rw [AnonPickArgs.pickAnonInputs] at h
  cases htype : args.rsType with
  | none =>
      rw [htype] at h
      cases h
  | some rsType =>
      rw [htype] at h
      obtain ⟨j, x, _, hj, hfound, htaken, hbefore⟩ := AnonPickArgs.pickFrom_success h
      have hMax : MAX_MONEY.toInt = 7500000000000000000 := by decide
      have hfee : MIN_TX_FEE.toInt = 10000 := by decide
      have hrange := moneyRange_iff.1 hvalue
      have hreq : (args.nValue + MIN_TX_FEE).toInt = args.nValue.toInt + 10000 := by
        rw [← hfee]
        exact WrappedInt.AddFits.toInt_add ⟨by omega, by omega⟩
      have hx := checkCombinations_found (Nat.succ_pos j) hfound
      obtain ⟨nTotalIn, fOverflow, htotalIn, hsplit⟩ := htaken.change
      obtain ⟨nTotal, hnTotal, hreach⟩ := hx.total
      cases htotalIn.symm.trans hnTotal
      have hchange := change_le hasc hvalues htotal (by omega) (Nat.succ_pos j) hx (by omega)
        (fun k hk hkj => by
          have hnot := hbefore (k - 1) (Nat.zero_le _) (by omega)
          rwa [Nat.sub_add_cancel hk] at hnot)
      have hnonneg : ∀ coin ∈ args.lAvailableCoins, 0 ≤ coin.nValue.toInt :=
        fun coin hcoin => (moneyRange_iff.1 (hvalues coin hcoin)).1
      have hmn : j + 1 ≤ args.lAvailableCoins.length := by omega
      have hle := worths_le_largestSum hasc hmn hx.below hx.length
      have hfits := largestSum_lt hnonneg htotal hmn
      have hexact := toInt_total_eq hnonneg hx.below (by omega) htotalIn
      rw [Int64.le_iff_toInt_le] at hreach
      have hdiff : (nTotalIn - (args.nValue + MIN_TX_FEE)).toInt =
          nTotalIn.toInt - (args.nValue + MIN_TX_FEE).toInt :=
        WrappedInt.toInt_sub_of_nonneg (by omega) (by omega)
      have hchangeRange : moneyRange (nTotalIn - (args.nValue + MIN_TX_FEE)) = true :=
        moneyRange_iff.2 ⟨by omega, by omega⟩
      obtain ⟨vOut, hsplit', hden, hsum⟩ := splitAmount_spec hchangeRange
      rw [hsplit'] at hsplit
      cases hsplit
      rw [hdiff] at hsum
      constructor
      · rw [htaken.picked]
        exact hx.below.nodup
      · rw [htaken.picked]
        exact hx.below.lt_of_mem
      · rw [htaken.picked, htaken.fee, hfee]
        rw [List.map_map] at hsum
        change (pick'.vecChange.map fun txout => txout.2.toInt).sum = _ at hsum
        omega
      · intro txout htxout
        exact hden _ (List.mem_map_of_mem htxout)

/-! ## Runs -/

def plainPickEnv : AnonPickEnv where
  nBestHeight := 0
  fDebugRingSig := false
  fChangeAddress := true
  outputKeys := fun _ _ => some ([], [])

def plainPickArgs (nValue : Int64) (values : List Int64) : AnonPickArgs where
  rsType := some .RING_SIG_2
  nValue := nValue
  nRingSize := 3
  wtxNew := { nVersion := ANON_TXN_VERSION, nTime := 0, vin := [], vout := [], nLockTime := 0 }
  nOutputs := 1
  nSizeOutputs := 79
  lAvailableCoins := values.map ringCoin

def noPick : AnonPick where
  nFee := 0
  nExpectChangeOuts := 1
  vPickedCoins := []
  vecChange := []
  sError := ""

/-- A payment of 30000 from coins of 10000, 30000 and 50000 has 10000 as change. -/
theorem pickAnonInputs_conserves_change :
    Conserves (plainPickArgs 30000 [10000, 30000, 50000])
      { noPick with
        nFee := 10000, vPickedCoins := [2], vecChange := [([OP_RETURN, OP_ANON_MARKER, 0, 0], 10000)] } :=
  pickAnonInputs_conserves plainPickEnv _ 30 noPick _ (by decide) (by decide) (by decide) (by decide)
    (by decide +kernel)

/-- Five coins whose sum wraps to the amount are all taken, and there is no change. -/
theorem pickAnonInputs_wraps :
    let args := plainPickArgs 6553255926290438384 (List.replicate 5 5000000000000000000)
    let pick := { noPick with nFee := 10000, vPickedCoins := [4, 3, 2, 1, 0] }
    Ascending args.lAvailableCoins ∧ (∀ coin ∈ args.lAvailableCoins, moneyRange coin.nValue = true) ∧
      moneyRange args.nValue = true ∧ args.pickAnonInputs plainPickEnv 200 noPick = some (.returned 1 pick) ∧
      ¬ Conserves args pick := by
  refine ⟨by decide, by decide, by decide, by decide +kernel, ?_⟩
  intro h
  exact absurd h.sum (by decide +kernel)

end ProCurrency
