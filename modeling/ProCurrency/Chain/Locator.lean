import Mathlib.Data.Nat.Log
import ProCurrency.Chain.BestChain

/-!
# Block locators

`CBlockLocator::Set` and `GetDistanceBack` (main.h). The builder doubles its stride by the number of the entries, the
reader by the distance that it has counted. A height is an `int`, and so is every distance up to an entry.
-/

namespace ProCurrency

open ParentTree

/-- `mapBlockIndex`, with the heights of its entries. -/
structure HeightIndex where
  mapBlockIndex : Tree CBlockIndex.hashBlock
  height : ∀ pindex pprev, mapBlockIndex.Has (pindex :: pprev) → pindex.nHeight = pprev.length

/-! ## The builder -/

/-- The inner loop of `Set`. -/
def stepBack : Nat → List CBlockIndex → List CBlockIndex
  | 0, pindex => pindex
  | _ + 1, [] => []
  | nStep + 1, _ :: pprev => stepBack nStep pprev

theorem stepBack_eq (nStep : Nat) (pindex : List CBlockIndex) : stepBack nStep pindex = pindex.drop nStep := by
  induction nStep generalizing pindex with
  | zero => rfl
  | succ nStep ih =>
      cases pindex with
      | nil => rfl
      | cons entry pprev => exact ih pprev

/-- The loop of `Set`, with `nSize` entries in `vHave`. -/
def locatorEntries (nStep : { n : Nat // 0 < n }) (nSize : Nat) : List CBlockIndex → List UInt256
  | [] => []
  | pindex :: pprev =>
      let nSize := nSize + 1
      pindex.hashBlock ::
        locatorEntries (if 10 < nSize then ⟨nStep.1 * 2, Nat.mul_pos nStep.2 (by decide)⟩ else nStep) nSize
          (stepBack nStep.1 (pindex :: pprev))
  termination_by pindex => pindex.length
  decreasing_by
    rw [stepBack_eq, List.length_drop, List.length_cons]
    exact Nat.sub_lt (Nat.succ_pos _) nStep.2

/-- `vHave` after `Set`. -/
def CBlockLocator.set (hashGenesisBlock : UInt256) (pindex : List CBlockIndex) : List UInt256 :=
  locatorEntries ⟨1, Nat.one_pos⟩ 0 pindex ++ [hashGenesisBlock]

/-! ## The reader -/

/-- `pnext || this == pindexBest`. -/
def ChainMemory.isInMainChain (mem : ChainMemory) (pindex : List CBlockIndex) : Bool :=
  (mem.pnext (getBlockHash pindex)).isSome || decide (pindex = mem.pindexBest)

/-- The hash is that of a block of the main chain. -/
def HeightIndex.onMainChain (index : HeightIndex) (mem : ChainMemory) (hash : UInt256) : Bool :=
  match index.mapBlockIndex.lookup hash with
  | none => false
  | some pindex => mem.isInMainChain pindex

/-- The loop of `GetDistanceBack`. -/
def distanceLoop (fMain : UInt256 → Bool) (nDistance nStep : Nat) : List UInt256 → Nat
  | [] => nDistance
  | hash :: vHave =>
      if fMain hash then nDistance
      else
        let nDistance := nDistance + nStep
        distanceLoop fMain nDistance (if 10 < nDistance then nStep * 2 else nStep) vHave

def HeightIndex.getDistanceBack (index : HeightIndex) (mem : ChainMemory) (vHave : List UInt256) : Nat :=
  distanceLoop (index.onMainChain mem) 0 1 vHave

/-! ## Strides -/

/-- How far back an entry is. -/
def locatorOffset (k : Nat) : Nat := if k ≤ 10 then k else 9 + 2 ^ (k - 10)

/-- The step from an entry to the next one. -/
def locatorStride (k : Nat) : { n : Nat // 0 < n } := ⟨2 ^ (k - 10), Nat.pow_pos (by decide)⟩

theorem locatorOffset_succ (k : Nat) : locatorOffset (k + 1) = locatorOffset k + (locatorStride k).1 := by
  change locatorOffset (k + 1) = locatorOffset k + 2 ^ (k - 10)
  rw [locatorOffset, locatorOffset]
  rcases Nat.lt_trichotomy k 10 with hlt | rfl | hgt
  · have hstride : 2 ^ (k - 10) = 1 := by rw [Nat.sub_eq_zero_of_le (Nat.le_of_lt hlt), Nat.pow_zero]
    rw [if_pos (Nat.succ_le_of_lt hlt), if_pos (Nat.le_of_lt hlt), hstride]
  · rfl
  · obtain ⟨j, rfl⟩ := Nat.exists_eq_add_of_lt hgt
    rw [if_neg (by omega), if_neg (by omega), show 10 + j + 1 + 1 - 10 = j + 1 + 1 by omega,
      show 10 + j + 1 - 10 = j + 1 by omega, Nat.pow_succ 2 (j + 1)]
    omega

theorem lt_locatorOffset (k : Nat) : 10 < locatorOffset k ↔ 10 < k := by
  rw [locatorOffset]
  split
  · exact Iff.rfl
  · rename_i hgt
    have htwo : 2 ^ 1 ≤ 2 ^ (k - 10) := Nat.pow_le_pow_right (by decide) (by omega)
    exact ⟨fun _ => Nat.lt_of_not_le hgt, fun _ => by omega⟩

/-- The stride doubles from the eleventh entry on. -/
theorem locatorStride_succ (k : Nat) :
    (locatorStride (k + 1)).1 = if 10 < k + 1 then (locatorStride k).1 * 2 else (locatorStride k).1 := by
  change 2 ^ (k + 1 - 10) = if 10 < k + 1 then 2 ^ (k - 10) * 2 else 2 ^ (k - 10)
  split
  · rw [show k + 1 - 10 = k - 10 + 1 by omega, Nat.pow_succ]
  · rw [show k + 1 - 10 = k - 10 by omega]

/-- The entries stand at their offsets. -/
theorem getElem?_locatorEntries (pindex : List CBlockIndex) (i k : Nat) :
    (locatorEntries (locatorStride k) k (pindex.drop (locatorOffset k)))[i]? =
      pindex[locatorOffset (k + i)]?.map CBlockIndex.hashBlock := by
  induction i generalizing k with
  | zero =>
      have hhead : pindex[locatorOffset k]? = (pindex.drop (locatorOffset k)).head? := List.head?_drop.symm
      rw [Nat.add_zero, hhead]
      cases pindex.drop (locatorOffset k) with
      | nil => rw [locatorEntries]; rfl
      | cons entry pprev => rw [locatorEntries]; rfl
  | succ i ih =>
      cases hdrop : pindex.drop (locatorOffset k) with
      | nil =>
          have hlength := List.drop_eq_nil_iff.mp hdrop
          have hmono : locatorOffset k ≤ locatorOffset (k + (i + 1)) := by
            have hstep : Monotone locatorOffset :=
              monotone_nat_of_le_succ fun n => (Nat.le_add_right _ _).trans_eq (locatorOffset_succ n).symm
            exact hstep (Nat.le_add_right k (i + 1))
          rw [locatorEntries, List.getElem?_eq_none (hlength.trans hmono)]
          rfl
      | cons entry pprev =>
          have hstride : (if 10 < k + 1 then (⟨(locatorStride k).1 * 2, Nat.mul_pos (locatorStride k).2 (by decide)⟩ :
              { n : Nat // 0 < n }) else locatorStride k) = locatorStride (k + 1) := by
            refine Subtype.ext ?_
            rw [locatorStride_succ]
            split <;> rfl
          rw [locatorEntries, List.getElem?_cons_succ, hstride, stepBack_eq, ← hdrop, List.drop_drop,
            ← locatorOffset_succ, ih (k + 1), Nat.add_right_comm, Nat.add_assoc]

/-- The reader counts up to the offset of the entry at which it returns. -/
theorem distanceLoop_append {fMain : UInt256 → Bool} {before : List UInt256} {hash : UInt256} (after : List UInt256)
    (hbefore : ∀ other ∈ before, fMain other = false) (hmain : fMain hash = true) (k : Nat) :
    distanceLoop fMain (locatorOffset k) (locatorStride k).1 (before ++ hash :: after) =
      locatorOffset (k + before.length) := by
  induction before generalizing k with
  | nil =>
      rw [List.nil_append, distanceLoop, if_pos hmain]
      rfl
  | cons other before ih =>
      have hother : ¬ fMain other = true := by
        rw [hbefore other List.mem_cons_self]
        exact Bool.false_ne_true
      rw [List.cons_append, distanceLoop, if_neg hother]
      dsimp only
      rw [← locatorOffset_succ, if_congr (lt_locatorOffset (k + 1)) rfl rfl, ← locatorStride_succ,
        ih (fun h hh => hbefore h (List.mem_cons_of_mem other hh)), List.length_cons, Nat.add_right_comm, Nat.add_assoc]

/-! ## Locators -/

section Locator

variable {index : HeightIndex} {mem : ChainMemory} {pindex : CBlockIndex} {pprev : List CBlockIndex}
  {hashGenesisBlock : UInt256}

theorem getElem?_set (i : Nat) :
    (locatorEntries ⟨1, Nat.one_pos⟩ 0 pprev)[i]? = pprev[locatorOffset i]?.map CBlockIndex.hashBlock := by
  have h := getElem?_locatorEntries pprev i 0
  rw [Nat.zero_add] at h
  exact h

/-- After ten entries each further one doubles the distance. -/
theorem length_set (hashGenesisBlock : UInt256) (pindex : CBlockIndex) (pprev : List CBlockIndex) :
    (CBlockLocator.set hashGenesisBlock (pindex :: pprev)).length ≤ Nat.log2 pprev.length + 12 := by
  rw [CBlockLocator.set, List.length_append, List.length_singleton]
  by_contra hgt
  obtain ⟨i, hi⟩ : ∃ i, (locatorEntries ⟨1, Nat.one_pos⟩ 0 (pindex :: pprev)).length = i + 1 :=
    ⟨(locatorEntries ⟨1, Nat.one_pos⟩ 0 (pindex :: pprev)).length - 1, by omega⟩
  have hlast : (locatorEntries ⟨1, Nat.one_pos⟩ 0 (pindex :: pprev))[i]? ≠ none := by
    rw [List.getElem?_eq_getElem (by omega)]
    exact Option.some_ne_none _
  rw [getElem?_set, Ne, Option.map_eq_none_iff, List.getElem?_eq_none_iff, List.length_cons, locatorOffset,
    if_neg (by omega)] at hlast
  have hpow : 2 ^ (i - 10) ≤ pprev.length := by omega
  have hne : pprev.length ≠ 0 := Nat.ne_of_gt ((Nat.pow_pos (by decide)).trans_le hpow)
  have hlog := (Nat.le_log2 hne).mpr hpow
  omega

/-- The entry at which the reader returns is an ancestor at the distance that it has counted. -/
theorem getDistanceBack_spec (hhas : index.mapBlockIndex.Has (pindex :: pprev)) {before after : List UInt256}
    {hash : UInt256} (hset : CBlockLocator.set hashGenesisBlock (pindex :: pprev) = before ++ hash :: after)
    (hbefore : ∀ other ∈ before, index.onMainChain mem other = false) (hmain : index.onMainChain mem hash = true)
    (hafter : after ≠ []) :
    ∃ entry rest, index.mapBlockIndex.lookup hash = some (entry :: rest) ∧
      (index.getDistanceBack mem (CBlockLocator.set hashGenesisBlock (pindex :: pprev)) : Int) =
        pindex.nHeight - entry.nHeight := by
  have hlt : before.length < (locatorEntries ⟨1, Nat.one_pos⟩ 0 (pindex :: pprev)).length := by
    have hlength := congrArg List.length hset
    rw [CBlockLocator.set, List.length_append, List.length_append, List.length_singleton, List.length_cons] at hlength
    have hpos := List.length_pos_of_ne_nil hafter
    omega
  have hentry : (locatorEntries ⟨1, Nat.one_pos⟩ 0 (pindex :: pprev))[before.length]? = some hash := by
    have hget := congrArg (fun vHave => vHave[before.length]?) hset
    rw [CBlockLocator.set, List.getElem?_append_left hlt, List.getElem?_append_right (Nat.le_refl _), Nat.sub_self] at hget
    exact hget
  rw [getElem?_set, Option.map_eq_some_iff] at hentry
  obtain ⟨entry, hentry, rfl⟩ := hentry
  obtain ⟨hoffset, -⟩ := List.getElem?_eq_some_iff.mp hentry
  obtain ⟨rest, hdrop⟩ : ∃ rest, (pindex :: pprev).drop (locatorOffset before.length) = entry :: rest := by
    rw [← List.head?_drop] at hentry
    exact List.head?_eq_some_iff.mp hentry
  have hsuffix : entry :: rest <:+ pindex :: pprev := hdrop ▸ List.drop_suffix _ _
  have hhasEntry := hhas.suffix hsuffix (List.cons_ne_nil entry rest)
  have hdistance : index.getDistanceBack mem (CBlockLocator.set hashGenesisBlock (pindex :: pprev)) =
      locatorOffset before.length := by
    rw [hset]
    have hloop := distanceLoop_append after hbefore hmain 0
    rw [Nat.zero_add] at hloop
    exact hloop
  refine ⟨entry, rest, hhasEntry.lookup_head, ?_⟩
  have hlength := congrArg List.length hdrop
  rw [List.length_drop, List.length_cons, List.length_cons] at hlength
  rw [hdistance, index.height pindex pprev hhas, index.height entry rest hhasEntry]
  rw [List.length_cons] at hoffset
  omega

/-- The distance is the difference of the heights, and a locator has few entries. -/
theorem locator_distance (index : HeightIndex) (mem : ChainMemory) (hashGenesisBlock : UInt256) (pindex : CBlockIndex)
    (pprev : List CBlockIndex) (hhas : index.mapBlockIndex.Has (pindex :: pprev)) :
    (CBlockLocator.set hashGenesisBlock (pindex :: pprev)).length ≤ Nat.log2 pindex.nHeight.toNat + 12 ∧
    ∀ before hash after, CBlockLocator.set hashGenesisBlock (pindex :: pprev) = before ++ hash :: after →
      (∀ other ∈ before, index.onMainChain mem other = false) → index.onMainChain mem hash = true → after ≠ [] →
      ∃ entry rest, index.mapBlockIndex.lookup hash = some (entry :: rest) ∧
        (index.getDistanceBack mem (CBlockLocator.set hashGenesisBlock (pindex :: pprev)) : Int) =
          pindex.nHeight - entry.nHeight := by
  constructor
  · rw [index.height pindex pprev hhas, Int.toNat_natCast]
    exact length_set hashGenesisBlock pindex pprev
  · intro before hash after hset hbefore hmain hafter
    exact getDistanceBack_spec hhas hset hbefore hmain hafter

end Locator

/-- A genesis block and a block over it. -/
def twoBlocks : HeightIndex where
  mapBlockIndex :=
    { lookup := fun hash =>
        if hash = 2 then some [{ hashBlock := 2, nHeight := 1 }, { hashBlock := 1 }]
        else if hash = 1 then some [{ hashBlock := 1 }] else none
      head := fun k c h => by
        split at h
        · cases h
          exact ⟨_, _, rfl, Eq.symm ‹_›⟩
        · split at h
          · cases h
            exact ⟨_, _, rfl, Eq.symm ‹_›⟩
          · cases h
      parent := fun k a b rest h => by
        split at h
        · cases h
          rfl
        · split at h <;> cases h }
  height pindex pprev h := by
    obtain ⟨k, hk⟩ := h
    dsimp only at hk
    split at hk
    · cases hk
      rfl
    · split at hk <;> cases hk
      rfl

/-- The block over the genesis block is not on the main chain. -/
theorem locator_distance_two : ∃ entry rest, twoBlocks.mapBlockIndex.lookup 1 = some (entry :: rest) ∧
    (twoBlocks.getDistanceBack ⟨[], 1, [{ hashBlock := 1 }], 0, 0, fun _ => none⟩
      (CBlockLocator.set 1 [{ hashBlock := 2, nHeight := 1 }, { hashBlock := 1 }]) : Int) = 1 - entry.nHeight := by
  refine (locator_distance twoBlocks ⟨[], 1, [{ hashBlock := 1 }], 0, 0, fun _ => none⟩ 1 { hashBlock := 2, nHeight := 1 }
    [{ hashBlock := 1 }] ⟨2, rfl⟩).2 [2] 1 [1] ?_ ?_ rfl (List.cons_ne_nil 1 [])
  · rw [CBlockLocator.set, locatorEntries, stepBack_eq, List.drop_one, List.tail_cons, locatorEntries, stepBack_eq,
      List.drop_eq_nil_of_le (by decide), locatorEntries]
    rfl
  · intro other hother
    cases List.mem_singleton.mp hother
    rfl

end ProCurrency
