import Mathlib.Algebra.Order.BigOperators.Group.List
import ProCurrency.Wallet.PickAnonInputs

/-!
# Combinations that reach an amount

What `checkCombinations` finds for an ascending list of coins, against the sum of the largest of them.
-/

namespace ProCurrency

open Odometer WrappedInt

/-! ## The listing ascends -/

theorem insertAscending_perm (oao : COwnedAnonOutput) (vData : List COwnedAnonOutput) :
    (insertAscending oao vData).Perm (oao :: vData) := by
  induction vData with
  | nil => exact List.Perm.refl _
  | cons it rest ih =>
      rw [insertAscending]
      split_ifs
      · exact (ih.cons it).trans (List.Perm.swap oao it rest)
      · exact List.Perm.refl _

theorem Ascending.insertAscending {vData : List COwnedAnonOutput} (h : Ascending vData) (oao : COwnedAnonOutput) :
    Ascending (insertAscending oao vData) := by
  induction vData with
  | nil => exact List.pairwise_singleton _ _
  | cons it rest ih =>
      obtain ⟨hit, hrest⟩ := List.pairwise_cons.1 h
      rw [ProCurrency.insertAscending]
      split_ifs with hlt
      · refine List.pairwise_cons.2 ⟨?_, ih hrest⟩
        intro coin hcoin
        rcases List.mem_cons.1 ((insertAscending_perm oao rest).mem_iff.1 hcoin) with rfl | hmem
        · exact Int64.le_of_lt hlt
        · exact hit coin hmem
      · have hle : oao.nValue ≤ it.nValue := Int64.not_lt.1 hlt
        refine List.pairwise_cons.2 ⟨?_, h⟩
        intro coin hcoin
        rcases List.mem_cons.1 hcoin with rfl | hmem
        · exact hle
        · exact Int64.le_trans hle (hit coin hmem)

/-- Every listing that the search is called with ascends. -/
theorem listUnspentAnonOutputs_ascending (mapWallet : UInt256 → Option AnonWalletTx) (fMatureOnly : Bool)
    (records : List (COutPoint × Bool)) {lUAnonOutputs : List COwnedAnonOutput} (h : Ascending lUAnonOutputs) :
    Ascending (listUnspentAnonOutputs mapWallet fMatureOnly records lUAnonOutputs) := by
  induction records generalizing lUAnonOutputs with
  | nil => exact h
  | cons record records ih =>
      obtain ⟨outpoint, fSpent⟩ := record
      rw [listUnspentAnonOutputs]
      cases spendableRecord mapWallet fMatureOnly outpoint fSpent with
      | none => exact ih h
      | some oao => exact ih (h.insertAscending oao)

/-! ## Sums over indices -/

variable {vData : List COwnedAnonOutput}

def worth (vData : List COwnedAnonOutput) (i : Nat) : Int :=
  match vData[i]? with
  | none => 0
  | some coin => coin.nValue.toInt

/-- The exact sum over the indices. -/
def worths (vData : List COwnedAnonOutput) (vecInputIndex : List Nat) : Int := (vecInputIndex.map (worth vData)).sum

/-- The exact sum of the `m` largest coins of an ascending list. -/
def largestSum (vData : List COwnedAnonOutput) (m : Nat) : Int :=
  ((vData.drop (vData.length - m)).map fun coin => coin.nValue.toInt).sum

theorem worth_of_getElem? {i : Nat} {coin : COwnedAnonOutput} (h : vData[i]? = some coin) :
    worth vData i = coin.nValue.toInt := by
  rw [worth, h]

theorem worth_le_worth (hasc : Ascending vData) {a b : Nat} (hab : a ≤ b) (hb : b < vData.length) :
    worth vData a ≤ worth vData b := by
  have ha : a < vData.length := Nat.lt_of_le_of_lt hab hb
  rw [worth_of_getElem? (List.getElem?_eq_getElem ha), worth_of_getElem? (List.getElem?_eq_getElem hb)]
  rcases Nat.eq_or_lt_of_le hab with rfl | hlt
  · exact Int.le_refl _
  · exact Int64.le_iff_toInt_le.1 (List.pairwise_iff_getElem.1 hasc a b ha hb hlt)

theorem worth_nonneg (hvalues : ∀ coin ∈ vData, 0 ≤ coin.nValue.toInt) (i : Nat) : 0 ≤ worth vData i := by
  rw [worth]
  cases hget : vData[i]? with
  | none => exact Int.le_refl 0
  | some coin => exact hvalues coin (List.mem_of_getElem? hget)

theorem worths_nonneg (hvalues : ∀ coin ∈ vData, 0 ≤ coin.nValue.toInt) (vecInputIndex : List Nat) :
    0 ≤ worths vData vecInputIndex := by
  refine List.sum_nonneg ?_
  intro x hx
  obtain ⟨i, _, rfl⟩ := List.mem_map.1 hx
  exact worth_nonneg hvalues i

theorem map_worth_range' {s k : Nat} (h : s + k = vData.length) :
    (List.range' s k).map (worth vData) = (vData.drop s).map fun coin => coin.nValue.toInt := by
  induction k generalizing s with
  | zero =>
      rw [Nat.add_zero] at h
      rw [h, List.drop_length]
      rfl
  | succ k ih =>
      have hs : s < vData.length := by omega
      rw [List.range'_succ, List.map_cons, ih (by omega), List.drop_eq_getElem_cons hs, List.map_cons,
        worth_of_getElem? (List.getElem?_eq_getElem hs)]

theorem worths_window {m : Nat} (hmn : m ≤ vData.length) :
    worths vData (window (vData.length - m) m) = largestSum vData m := by
  rw [worths, window, List.map_reverse, List.sum_reverse, map_worth_range' (Nat.sub_add_cancel hmn), largestSum]

/-- No combination of `m` coins is worth more than the largest coins. -/
theorem worths_le_largestSum (hasc : Ascending vData) {m : Nat} (hmn : m ≤ vData.length) {x : List Nat}
    (hx : Below vData.length x) (hlength : x.length = m) : worths vData x ≤ largestSum vData m := by
  rw [← worths_window hmn]
  have hsub := Nat.sub_add_cancel hmn
  exact sum_le_window (fun a b hab hb => worth_le_worth hasc hab hb) (hsub.symm ▸ hx) hlength
    (Nat.le_of_eq hsub)

theorem totalFrom_eq {x : List Nat} (hx : ∀ i ∈ x, i < vData.length) (nTotal : Int64) :
    totalFrom vData nTotal x = some (Int64.ofInt (nTotal.toInt + worths vData x)) := by
  induction x generalizing nTotal with
  | nil =>
      rw [totalFrom, worths, List.map_nil, List.sum_nil, Int.add_zero, Int64.ofInt_toInt]
  | cons i x ih =>
      obtain ⟨coin, hget⟩ : ∃ coin, vData[i]? = some coin :=
        ⟨_, List.getElem?_eq_getElem (hx i (List.mem_cons_self ..))⟩
      rw [totalFrom, hget]
      dsimp only
      rw [ih (fun j hj => hx j (List.mem_cons_of_mem i hj)), ofInt_toInt_add_add, ← worth_of_getElem? hget]
      rfl

theorem totalFrom_of_below {x : List Nat} (hx : Below vData.length x) :
    totalFrom vData 0 x = some (Int64.ofInt (worths vData x)) := by
  rw [totalFrom_eq hx.lt_of_mem, show (0 : Int64).toInt = 0 from rfl, Int.zero_add]

/-- A sum as the code forms it is not above the exact one. -/
theorem toInt_total_le (hvalues : ∀ coin ∈ vData, 0 ≤ coin.nValue.toInt) {x : List Nat} {nTotal : Int64}
    (hx : Below vData.length x) (h : totalFrom vData 0 x = some nTotal) : nTotal.toInt ≤ worths vData x := by
  rw [totalFrom_of_below hx] at h
  cases h
  have hnonneg := worths_nonneg hvalues x
  exact toInt_ofInt_le (by omega)

theorem toInt_total_eq (hvalues : ∀ coin ∈ vData, 0 ≤ coin.nValue.toInt) {x : List Nat} {nTotal : Int64}
    (hx : Below vData.length x) (hfits : worths vData x < 2 ^ 63) (h : totalFrom vData 0 x = some nTotal) :
    nTotal.toInt = worths vData x := by
  rw [totalFrom_of_below hx] at h
  cases h
  have hnonneg := worths_nonneg hvalues x
  exact Int64.toInt_ofInt_of_le (by omega) hfits

/-! ## One level -/

/-- What an answer with indices stands for. -/
structure Reaches (nReq : Int64) (m : Nat) (vData : List COwnedAnonOutput) (vecInputIndex : List Nat) : Prop where
  below : Below vData.length vecInputIndex
  length : vecInputIndex.length = m
  total : ∃ nTotal, totalFrom vData 0 vecInputIndex = some nTotal ∧ nReq ≤ nTotal

/-- The sum over the indices, as the code forms it, is below the amount. -/
def Short (nReq : Int64) (vData : List COwnedAnonOutput) (vecInputIndex : List Nat) : Prop :=
  ∀ nTotal, totalFrom vData 0 vecInputIndex = some nTotal → nTotal < nReq

variable {nReq : Int64} {l s k fuel : Nat}

theorem firstIndex_eq (k l : Nat) : firstIndex (k + 1) l = (l - 1) :: window 0 k := by
  rw [firstIndex, List.range_eq_range']
  change (window 0 (k + 1)).set 0 (l - 1) = _
  rw [window_succ, List.set_cons_zero]

theorem below_level {b : Nat} (hs : s + k + 1 ≤ l) (hl : l ≤ b) : Below b ((l - 1) :: window s k) :=
  ⟨by omega, (below_window s k).mono (by omega)⟩

theorem shiftIndex_level (a s k : Nat) : shiftIndex (a :: window s k) = a :: window (s + 1) k := by
  rw [shiftIndex, map_succ_window]

/-- What `coarse` leaves behind on a level. -/
def Seek.Meets (nReq : Int64) (vData : List COwnedAnonOutput) (l k : Nat) : Seek → Prop
  | .found vecInputIndex =>
      ∃ s, s + k + 1 ≤ l ∧ vecInputIndex = (l - 1) :: window s k ∧ totalFrom vData 0 vecInputIndex = some nReq
  | .fine vecInputIndex =>
      ∃ s, s + 1 + k + 1 ≤ l ∧ vecInputIndex = (l - 1) :: window s k ∧
        ∃ nTotal, totalFrom vData 0 ((l - 1) :: window (s + 1) k) = some nTotal ∧ nReq < nTotal
  | .past vecInputIndex => vecInputIndex = (l - 1) :: window (l - (k + 1)) k
  | .outOfRange => False

/-- The condition of the loop of `coarse`. -/
theorem coarse_cond (hk : 0 < k) (l s : Nat) :
    (((l - 1) :: window s k).getD 1 0 < ((l - 1) :: window s k).getD 0 0 - 1) ↔ s + k + 1 < l := by
  obtain ⟨k, rfl⟩ := Nat.exists_eq_succ_of_ne_zero (Nat.pos_iff_ne_zero.1 hk)
  rw [Nat.succ_eq_add_one, window_succ, List.getD_cons_succ, List.getD_cons_zero, List.getD_cons_zero]
  omega

theorem coarseFrom_meets (hk : 0 < k) (hl : l ≤ vData.length) (hs : s + k + 1 ≤ l) {seek : Seek}
    (h : coarseFrom nReq vData fuel ((l - 1) :: window s k) = some seek) : seek.Meets nReq vData l k := by
  induction fuel generalizing s with
  | zero =>
      rw [coarseFrom] at h
      split_ifs at h with hcond
      cases h
      have heq : s = l - (k + 1) := by
        rw [coarse_cond hk] at hcond
        omega
      rw [heq]
      rfl
  | succ fuel ih =>
      rw [coarseFrom] at h
      split_ifs at h with hcond
      · rw [coarse_cond hk] at hcond
        have hnext : s + 1 + k + 1 ≤ l := by omega
        rw [shiftIndex_level] at h
        cases htotal : totalFrom vData 0 ((l - 1) :: window (s + 1) k) with
        | none =>
            rw [totalFrom_of_below (below_level hnext hl)] at htotal
            cases htotal
        | some nTotal =>
            rw [htotal] at h
            dsimp only at h
            split_ifs at h with heq hlt
            · cases h
              exact ⟨s + 1, hnext, rfl, heq ▸ htotal⟩
            · cases h
              exact ⟨s, hnext, rfl, nTotal, htotal, hlt⟩
            · exact ih hnext h
      · cases h
        have heq : s = l - (k + 1) := by
          rw [coarse_cond hk] at hcond
          omega
        rw [heq]
        rfl

theorem coarseFrom_ends (hk : 0 < k) (hs : s + k + 1 ≤ l) (hfuel : l ≤ s + k + 1 + fuel) :
    ∃ seek, coarseFrom nReq vData fuel ((l - 1) :: window s k) = some seek := by
  induction fuel generalizing s with
  | zero =>
      have hcond := (coarse_cond hk l s).not.2 (by omega)
      exact ⟨_, by rw [coarseFrom, if_neg hcond]⟩
  | succ fuel ih =>
      rw [coarseFrom]
      split_ifs with hcond
      · rw [coarse_cond hk] at hcond
        rw [shiftIndex_level]
        cases totalFrom vData 0 ((l - 1) :: window (s + 1) k) with
        | none => exact ⟨_, rfl⟩
        | some nTotal =>
            dsimp only
            split_ifs
            · exact ⟨_, rfl⟩
            · exact ⟨_, rfl⟩
            · exact ih (by omega) (by omega)
      · exact ⟨_, rfl⟩

/-! ## The fine search -/

theorem fineTest_reaches (hl : l ≤ vData.length) {x : List Nat} {c : Combination} (hl0 : 0 < l) (hx : Below (l + 1) x)
    (h : fineTest nReq vData l x = some c) : ∃ y, c = .found y ∧ Reaches nReq x.length vData y := by
  rw [fineTest] at h
  split_ifs at h with hhead
  have hbelow : Below vData.length x := by
    cases x with
    | nil => trivial
    | cons a rest =>
        rw [List.headD_cons] at hhead
        exact ⟨by omega, hx.2⟩
  rw [totalFrom_of_below hbelow] at h
  dsimp only at h
  split_ifs at h with hle
  cases h
  exact ⟨x, rfl, hbelow, rfl, _, totalFrom_of_below hbelow, hle⟩

theorem fineFrom_reaches (hl : l ≤ vData.length) (hs : s + k + 1 ≤ l) {c : Combination}
    (h : fineFrom nReq vData l fuel ((l - 1) :: window s k) = some (some c)) :
    ∃ y, c = .found y ∧ Reaches nReq (k + 1) vData y := by
  obtain ⟨x, hx, hlength, htest⟩ := search_sound (below_level hs (Nat.le_succ l)) h
  obtain ⟨y, rfl, hy⟩ := fineTest_reaches hl (by omega) hx htest
  rw [hlength, List.length_cons, length_window] at hy
  exact ⟨y, rfl, hy⟩

/-- When nothing is found, the later runs of coins are short. -/
theorem fineFrom_short {s' : Nat} (hs : s ≤ s') (hs' : s' + k + 1 ≤ l)
    (h : fineFrom nReq vData l fuel ((l - 1) :: window s k) = some none) :
    Short nReq vData ((l - 1) :: window s' k) := by
  intro nTotal htotal
  have htest := search_none (below_level (by omega) (Nat.le_succ l)) h (below_level hs' (Nat.le_succ l))
    (eq_or_before_cons_window (l - 1) hs)
  rw [fineTest, List.headD_cons, if_pos rfl, htotal] at htest
  dsimp only at htest
  split_ifs at htest with hle
  exact Int64.not_le.1 hle

theorem fineFrom_ends (hs : s + k + 1 ≤ l) (hfuel : (k + 1) * 2 ^ l < fuel) :
    ∃ res, fineFrom nReq vData l fuel ((l - 1) :: window s k) = some res := by
  refine search_ends (below_level hs (Nat.le_succ l)) (Nat.lt_of_le_of_lt (weight_le l _) ?_)
  rw [List.length_cons, length_window]
  exact hfuel

/-! ## The run over the levels -/

variable {fDebugRingSig : Bool}

theorem top_eq (hl : k + 1 ≤ l) : window (l - (k + 1)) (k + 1) = (l - 1) :: window (l - (k + 1)) k := by
  rw [window_succ]
  congr 1
  omega

/-- A level finds a combination, or the largest coins of the last level are short. -/
theorem checkLevel_cases (hdebug : ¬ (fDebugRingSig = true ∧ k + 1 < 2)) (hl : l ≤ vData.length) (hkl : k + 1 ≤ l)
    {res : Option Combination} (h : checkLevel fDebugRingSig nReq (k + 1) vData fuel l = some res) :
    (∃ x, res = some (.found x) ∧ Reaches nReq (k + 1) vData x) ∨
    (res = none ∧ (l = vData.length → Short nReq vData (window (l - (k + 1)) (k + 1)))) := by
  have hfine : ∀ {s}, s + k + 1 ≤ l → fineFrom nReq vData l fuel ((l - 1) :: window s k) = some res →
      (∃ x, res = some (.found x) ∧ Reaches nReq (k + 1) vData x) ∨
      (res = none ∧ ∀ s', s ≤ s' → s' + k + 1 ≤ l → Short nReq vData ((l - 1) :: window s' k)) := by
    intro s hs hres
    cases res with
    | none => exact Or.inr ⟨rfl, fun s' hs' hle => fineFrom_short hs' hle hres⟩
    | some c =>
        obtain ⟨x, rfl, hx⟩ := fineFrom_reaches hl hs hres
        exact Or.inl ⟨x, rfl, hx⟩
  have htop := top_eq hkl
  rw [checkLevel, if_neg (by simpa using hdebug), firstIndex_eq] at h
  by_cases hm : k + 1 ≤ 2
  · rw [if_pos hm] at h
    refine (hfine (by omega) h).imp_right (And.imp_right fun hshort _ => ?_)
    rw [htop]
    exact hshort _ (Nat.zero_le _) (by omega)
  · rw [if_neg hm] at h
    have hk : 0 < k := by omega
    cases hcoarse : coarseFrom nReq vData fuel ((l - 1) :: window 0 k) with
    | none =>
        rw [hcoarse] at h
        cases h
    | some seek =>
        rw [hcoarse] at h
        have hmeets := coarseFrom_meets hk hl (by omega) hcoarse
        cases seek with
        | outOfRange => exact hmeets.elim
        | found x =>
            obtain ⟨s, hs, rfl, htotal⟩ := hmeets
            cases h
            refine Or.inl ⟨_, rfl, below_level hs hl, ?_, nReq, htotal, Int64.le_refl _⟩
            rw [List.length_cons, length_window]
        | fine x =>
            obtain ⟨s, hs, rfl, nTotal, htotal, hlt⟩ := hmeets
            refine (hfine (by omega) h).imp_right (And.imp_right fun hshort _ => ?_)
            -- the list that ended the coarse search is tested by the fine one
            have hge := hshort (s + 1) (Nat.le_succ s) hs nTotal htotal
            exact absurd hge (Int64.not_lt.2 (Int64.le_of_lt hlt))
        | past x =>
            cases hmeets
            dsimp only at h
            split_ifs at h with hlast
            · cases h
              exact Or.inr ⟨rfl, fun heq => absurd hlast (heq ▸ Nat.lt_irrefl _)⟩
            · refine (hfine (by omega) h).imp_right (And.imp_right fun hshort _ => ?_)
              rw [htop]
              exact hshort _ (Nat.le_refl _) (by omega)

theorem checkLevel_ends (hl : l ≤ vData.length) (hkl : k + 1 ≤ l) (hfuel : (k + 1) * 2 ^ l < fuel) :
    ∃ res, checkLevel fDebugRingSig nReq (k + 1) vData fuel l = some res := by
  have hlfuel : l ≤ fuel := by
    have hpow : l < 2 ^ l := Nat.lt_two_pow_self
    have hmul : 1 * 2 ^ l ≤ (k + 1) * 2 ^ l := Nat.mul_le_mul_right _ (by omega)
    omega
  rw [checkLevel]
  by_cases hdebug : (fDebugRingSig && k + 1 < 2) = true
  · exact ⟨_, by rw [if_pos hdebug]⟩
  · rw [if_neg hdebug, firstIndex_eq]
    by_cases hm : k + 1 ≤ 2
    · rw [if_pos hm]
      exact fineFrom_ends (by omega) hfuel
    · have hk : 0 < k := by omega
      obtain ⟨seek, hseek⟩ : ∃ seek, coarseFrom nReq vData fuel ((l - 1) :: window 0 k) = some seek :=
        coarseFrom_ends hk (by omega) (by omega)
      rw [if_neg hm, hseek]
      have hmeets := coarseFrom_meets hk hl (by omega) hseek
      cases seek with
      | outOfRange => exact ⟨_, rfl⟩
      | found x => exact ⟨_, rfl⟩
      | fine x =>
          obtain ⟨s, hs, rfl, _⟩ := hmeets
          exact fineFrom_ends (by omega) hfuel
      | past x =>
          cases hmeets
          dsimp only
          split_ifs
          · exact ⟨_, rfl⟩
          · exact fineFrom_ends (by omega) hfuel

/-- The levels find a combination, or the largest coins are short. -/
theorem checkLevels_cases (hdebug : ¬ (fDebugRingSig = true ∧ k + 1 < 2)) {levels : Nat} {c : Combination}
    (hkl : k + 1 ≤ l) (hlevels : l + levels = vData.length) 
    (h : checkLevels fDebugRingSig nReq (k + 1) vData fuel (levels + 1) l = some c) :
    (∃ x, c = .found x ∧ Reaches nReq (k + 1) vData x) ∨
    (c = .notFound ∧ Short nReq vData (window (vData.length - (k + 1)) (k + 1))) := by
  induction levels generalizing l with
  | zero =>
      rw [Nat.add_zero] at hlevels
      rw [checkLevels] at h
      cases hlevel : checkLevel fDebugRingSig nReq (k + 1) vData fuel l with
      | none =>
          rw [hlevel] at h
          cases h
      | some res =>
          rw [hlevel] at h
          rcases checkLevel_cases hdebug (Nat.le_of_eq hlevels) hkl hlevel with ⟨x, rfl, hx⟩ | ⟨rfl, hshort⟩
          · cases h
            exact Or.inl ⟨x, rfl, hx⟩
          · refine Or.inr ⟨?_, hlevels ▸ hshort hlevels⟩
            dsimp only at h
            split_ifs at h
            · cases h
              rfl
            · cases h
              rfl
  | succ levels ih =>
      rw [checkLevels] at h
      cases hlevel : checkLevel fDebugRingSig nReq (k + 1) vData fuel l with
      | none =>
          rw [hlevel] at h
          cases h
      | some res =>
          rw [hlevel] at h
          rcases checkLevel_cases hdebug (by omega) hkl hlevel with ⟨x, rfl, hx⟩ | ⟨rfl, _⟩
          · cases h
            exact Or.inl ⟨x, rfl, hx⟩
          · dsimp only at h
            rw [if_neg (by omega)] at h
            exact ih (by omega) (by omega) h

theorem checkLevels_ends {levels : Nat} (hkl : k + 1 ≤ l) (hlevels : l + levels = vData.length + 1)
    (hfuel : (k + 1) * 2 ^ vData.length < fuel) :
    ∃ c, checkLevels fDebugRingSig nReq (k + 1) vData fuel levels l = some c := by
  induction levels generalizing l with
  | zero => exact ⟨_, rfl⟩
  | succ levels ih =>
      have hl : l ≤ vData.length := by omega
      have hpow : (k + 1) * 2 ^ l ≤ (k + 1) * 2 ^ vData.length :=
        Nat.mul_le_mul_left _ (Nat.pow_le_pow_right (by omega) hl)
      obtain ⟨res, hres⟩ : ∃ res, checkLevel fDebugRingSig nReq (k + 1) vData fuel l = some res :=
        checkLevel_ends hl hkl (by omega)
      rw [checkLevels, hres]
      cases res with
      | some c => exact ⟨_, rfl⟩
      | none =>
          dsimp only
          split_ifs
          · exact ⟨_, rfl⟩
          · exact ih (by omega) (by omega)

/-! ## The start -/

/-- Some coin that may be the largest of a combination gives, times `m`, the amount. -/
def Startable (nReq : Int64) (m : Nat) (vData : List COwnedAnonOutput) : Prop :=
  ∃ coin ∈ vData.drop (m - 1), nReq ≤ coin.nValue * Int64.ofNat m

instance (nReq : Int64) (m : Nat) (vData : List COwnedAnonOutput) : Decidable (Startable nReq m vData) :=
  inferInstanceAs (Decidable (∃ coin ∈ vData.drop (m - 1), nReq ≤ coin.nValue * Int64.ofNat m))

theorem startFrom_cases (nReq : Int64) (m : Nat) {levels : Nat} (hl : 0 < l) (hlevels : l + levels = vData.length + 1) :
    (startFrom nReq m vData levels l = some 0 ∧
      ∀ coin ∈ vData.drop (l - 1), ¬ nReq ≤ coin.nValue * Int64.ofNat m) ∨
    ∃ startL, startFrom nReq m vData levels l = some startL ∧ l ≤ startL ∧ startL ≤ vData.length ∧
      ∃ coin ∈ vData.drop (l - 1), nReq ≤ coin.nValue * Int64.ofNat m := by
  induction levels generalizing l with
  | zero =>
      refine Or.inl ⟨rfl, ?_⟩
      rw [List.drop_of_length_le (by omega)]
      intro coin hcoin
      cases hcoin
  | succ levels ih =>
      have hlt : l - 1 < vData.length := by omega
      obtain ⟨coin, hget⟩ : ∃ coin, vData[l - 1]? = some coin := ⟨_, List.getElem?_eq_getElem hlt⟩
      have hdrop : vData.drop (l - 1) = coin :: vData.drop l := by
        have hsucc : l - 1 + 1 = l := by omega
        rw [List.drop_eq_getElem_cons hlt, hsucc, (List.getElem?_eq_some_iff.1 hget).2]
      rw [startFrom, hget, hdrop]
      dsimp only
      split_ifs with hless
      · rcases ih (Nat.succ_pos l) (by omega) with ⟨hstart, hall⟩ | ⟨startL, hstart, hle, hn, coin', hmem, hreach⟩
        · refine Or.inl ⟨hstart, ?_⟩
          intro coin' hcoin'
          rcases List.mem_cons.1 hcoin' with rfl | hmem
          · exact Int64.not_le.2 hless
          · exact hall coin' hmem
        · exact Or.inr ⟨startL, hstart, by omega, hn, coin', List.mem_cons_of_mem _ hmem, hreach⟩
      · exact Or.inr ⟨l, rfl, Nat.le_refl l, by omega, coin, List.mem_cons_self .., Int64.not_lt.1 hless⟩

/-! ## The whole search -/

variable {m : Nat}

theorem checkCombinations_cases (hdebug : ¬ (fDebugRingSig = true ∧ m = 1)) (hm : 0 < m) (hmn : m ≤ vData.length)
    {c : Combination} (h : checkCombinations fDebugRingSig fuel nReq m vData = some c) :
    (∃ x, c = .found x ∧ Startable nReq m vData ∧ Reaches nReq m vData x) ∨
    (c = .notFound ∧ (¬ Startable nReq m vData ∨ Short nReq vData (window (vData.length - m) m))) := by
  rw [checkCombinations, if_neg (Nat.not_lt.2 hmn)] at h
  rcases startFrom_cases nReq m hm (Nat.add_sub_cancel' (Nat.le_succ_of_le hmn)) with
    ⟨hstart, hall⟩ | ⟨startL, hstart, hle, hn, hstartable⟩
  · rw [hstart] at h
    dsimp only at h
    rw [if_pos rfl] at h
    cases h
    refine Or.inr ⟨rfl, Or.inl ?_⟩
    rintro ⟨coin, hmem, hreach⟩
    exact hall coin hmem hreach
  · rw [hstart] at h
    dsimp only at h
    obtain ⟨k, rfl⟩ := Nat.exists_eq_succ_of_ne_zero (Nat.pos_iff_ne_zero.1 hm)
    rw [if_neg (by omega), Nat.succ_sub hn] at h
    rcases checkLevels_cases (fun hd => hdebug ⟨hd.1, by omega⟩) hle (Nat.add_sub_cancel' hn) h with
      ⟨x, rfl, hx⟩ | ⟨rfl, hshort⟩
    · exact Or.inl ⟨x, rfl, hstartable, hx⟩
    · exact Or.inr ⟨rfl, Or.inr hshort⟩

theorem checkCombinations_ends (hm : 0 < m) (hmn : m ≤ vData.length) (hfuel : m * 2 ^ vData.length < fuel) :
    ∃ c, checkCombinations fDebugRingSig fuel nReq m vData = some c := by
  rw [checkCombinations, if_neg (Nat.not_lt.2 hmn)]
  rcases startFrom_cases nReq m hm (Nat.add_sub_cancel' (Nat.le_succ_of_le hmn)) with
    ⟨hstart, _⟩ | ⟨startL, hstart, hle, hn, _⟩
  · exact ⟨.notFound, by rw [hstart]; rfl⟩
  · rw [hstart]
    dsimp only
    obtain ⟨k, rfl⟩ := Nat.exists_eq_succ_of_ne_zero (Nat.pos_iff_ne_zero.1 hm)
    rw [if_neg (by omega)]
    exact checkLevels_ends hle (by omega) hfuel

theorem checkCombinations_of_not_startable (hm : 0 < m) (hmn : m ≤ vData.length) (h : ¬ Startable nReq m vData) :
    checkCombinations fDebugRingSig fuel nReq m vData = some .notFound := by
  rw [checkCombinations, if_neg (Nat.not_lt.2 hmn)]
  rcases startFrom_cases nReq m hm (Nat.add_sub_cancel' (Nat.le_succ_of_le hmn)) with
    ⟨heq, _⟩ | ⟨startL, heq, _, _, hstart⟩
  · rw [heq]
    rfl
  · exact absurd hstart h

/-- For a single coin no product wraps. -/
theorem Startable.le_largestSum (hasc : Ascending vData) (h : Startable nReq 1 vData) :
    nReq.toInt ≤ largestSum vData 1 := by
  obtain ⟨coin, hmem, hreach⟩ := h
  obtain ⟨i, hget⟩ := List.mem_iff_getElem?.1 (List.mem_of_mem_drop hmem)
  have hi : i < vData.length := (List.getElem?_eq_some_iff.1 hget).1
  have hone : coin.nValue * Int64.ofNat 1 = coin.nValue := Int64.mul_one _
  rw [hone, Int64.le_iff_toInt_le, ← worth_of_getElem? hget] at hreach
  have hle : worths vData [i] ≤ largestSum vData 1 :=
    worths_le_largestSum hasc (by omega) ⟨hi, trivial⟩ rfl
  rw [worths, List.map_singleton, List.sum_singleton] at hle
  exact hreach.trans hle

/-- One coin, with the traces on: the trace reads behind the index list. -/
theorem checkCombinations_debug (hn : 0 < vData.length) (hstart : Startable nReq 1 vData) :
    checkCombinations true fuel nReq 1 vData = some .outOfRange := by
  rw [checkCombinations, if_neg (Nat.not_lt.2 hn)]
  rcases startFrom_cases nReq 1 Nat.one_pos (Nat.add_sub_cancel' (Nat.le_succ_of_le hn)) with
    ⟨_, hall⟩ | ⟨startL, heq, hle, hn, _⟩
  · obtain ⟨coin, hmem, hreach⟩ := hstart
    exact absurd hreach (hall coin hmem)
  · rw [heq]
    dsimp only
    rw [if_neg (by omega), Nat.succ_sub hn, checkLevels, checkLevel]
    rfl

theorem checkCombinations_debug_ne_found (hn : 0 < vData.length) (x : List Nat) :
    checkCombinations true fuel nReq 1 vData ≠ some (.found x) := by
  intro h
  by_cases hstart : Startable nReq 1 vData
  · rw [checkCombinations_debug hn hstart] at h
    cases h
  · rw [checkCombinations_of_not_startable Nat.one_pos hn hstart] at h
    cases h

theorem checkCombinations_found (hm : 0 < m) {x : List Nat}
    (h : checkCombinations fDebugRingSig fuel nReq m vData = some (.found x)) : Reaches nReq m vData x := by
  by_cases hmn : vData.length < m
  · rw [checkCombinations, if_pos hmn] at h
    cases h
  · rw [Nat.not_lt] at hmn
    have hdebug : ¬ (fDebugRingSig = true ∧ m = 1) := by
      rintro ⟨rfl, rfl⟩
      exact checkCombinations_debug_ne_found hmn x h
    rcases checkCombinations_cases hdebug hm hmn h with ⟨y, heq, _, hy⟩ | ⟨heq, _⟩
    · cases heq
      exact hy
    · cases heq

/-- A search that has a start and finds nothing. -/
theorem checkCombinations_short (hm : 0 < m) (hmn : m ≤ vData.length) (hstart : Startable nReq m vData)
    (h : checkCombinations fDebugRingSig fuel nReq m vData = some .notFound) :
    Short nReq vData (window (vData.length - m) m) := by
  have hdebug : ¬ (fDebugRingSig = true ∧ m = 1) := by
    rintro ⟨rfl, rfl⟩
    rw [checkCombinations_debug hmn hstart] at h
    cases h
  rcases checkCombinations_cases hdebug hm hmn h with ⟨x, heq, _⟩ | ⟨_, hnone⟩
  · cases heq
  · exact hnone.resolve_left (fun hnot => hnot hstart)

/-- The answer is right: a combination when the largest coins reach the amount and only then, and what is picked are
different coins that reach it. -/
structure RightAnswer (nReq : Int64) (m : Nat) (vData : List COwnedAnonOutput) (c : Combination) : Prop where
  inRange : c ≠ .outOfRange
  found_iff : (∃ x, c = .found x) ↔ nReq.toInt ≤ largestSum vData m
  picks : ∀ x, c = .found x →
    x.Nodup ∧ x.length = m ∧ (∀ i ∈ x, i < vData.length) ∧ nReq.toInt ≤ worths vData x

/-- Indices that the search returns are a right answer. -/
theorem Reaches.rightAnswer (hasc : Ascending vData) (hvalues : ∀ coin ∈ vData, 0 ≤ coin.nValue.toInt)
    (hmn : m ≤ vData.length) {x : List Nat} (hx : Reaches nReq m vData x) : RightAnswer nReq m vData (.found x) := by
  obtain ⟨nTotal, htotal, hreach⟩ := hx.total
  have hsum : nReq.toInt ≤ worths vData x :=
    (Int64.le_iff_toInt_le.1 hreach).trans (toInt_total_le hvalues hx.below htotal)
  constructor
  · intro h
    cases h
  · exact ⟨fun _ => hsum.trans (worths_le_largestSum hasc hmn hx.below hx.length), fun _ => ⟨x, rfl⟩⟩
  · intro y hy
    cases hy
    exact ⟨hx.below.nodup, hx.length, hx.below.lt_of_mem, hsum⟩

theorem rightAnswer_notFound (h : ¬ nReq.toInt ≤ largestSum vData m) : RightAnswer nReq m vData .notFound := by
  constructor
  · intro h
    cases h
  · refine ⟨?_, fun hreach => absurd hreach h⟩
    rintro ⟨x, hx⟩
    cases hx
  · intro x hx
    cases hx

/-- When the sum of the largest coins is in range, it is the one that the code has formed. -/
theorem Short.lt_largestSum (hvalues : ∀ coin ∈ vData, 0 ≤ coin.nValue.toInt) (hmn : m ≤ vData.length)
    (hfits : largestSum vData m < 2 ^ 63) (h : Short nReq vData (window (vData.length - m) m)) :
    largestSum vData m < nReq.toInt := by
  have hsub := Nat.sub_add_cancel hmn
  have hbelow : Below vData.length (window (vData.length - m) m) :=
    (below_window (vData.length - m) m).mono (Nat.le_of_eq hsub)
  have htotal := totalFrom_of_below hbelow
  have hlt := Int64.lt_iff_toInt_lt.1 (h _ htotal)
  rwa [toInt_total_eq hvalues hbelow (worths_window hmn ▸ hfits) htotal, worths_window hmn] at hlt

/-- From some fuel on, the search ends and its answer is right. -/
def SearchAnswers (fDebugRingSig : Bool) (nReq : Int64) (m : Nat) (vData : List COwnedAnonOutput) : Prop :=
  ∃ enough, ∀ fuel, enough ≤ fuel →
    ∃ c, checkCombinations fDebugRingSig fuel nReq m vData = some c ∧ RightAnswer nReq m vData c

/-- A coin of which only the value matters. -/
def ringCoin (nValue : Int64) : COwnedAnonOutput := { outpoint := COutPoint.null, nValue := nValue }

end ProCurrency
