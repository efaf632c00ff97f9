import Mathlib.Data.Finset.Option
import Mathlib.Data.Finset.Sort
import Mathlib.Data.List.AList
import Mathlib.Data.List.Lex
import Mathlib.Order.Lattice.Nat
import ProCurrency.Base.Transaction
import ProCurrency.Lib.Components

/-!
# Address groupings

`GetAddressGroupings` (wallet.cpp): the groups of the addresses that are spent together, and the merging of the groups
that overlap. The merged groups are behind pointers, and `setmap` keeps the pointer of the group of each address.
-/

namespace ProCurrency

/-- What the wallet finds out about a script by `IsMine` and `ExtractDestination`, and about an address by `IsDestMine`
and `mapAddressBook.count`, with the time of a new transaction. -/
structure GroupingEnv (D : Type) where
  isMine : CScript → Bool
  extractDestination : CScript → Option D
  isDestMine : D → Bool
  inAddressBook : D → Bool
  adjustedTime : UInt32

abbrev TxMap := AList fun _ : UInt256 => CTransaction

/-- `operator new` for sets: an address where no set is. -/
structure Allocator where
  new : Finset Nat → Nat
  new_notMem : ∀ live, new live ∉ live

section Collect

variable {D : Type} (env : GroupingEnv D)

/-- `mapWallet[hash]`. A transaction that the map does not have is added, without inputs and outputs. -/
def walletAt (mapWallet : TxMap) (hash : UInt256) : TxMap × CTransaction :=
  match mapWallet.lookup hash with
  | some tx => (mapWallet, tx)
  | none =>
      let tx : CTransaction := { nVersion := 1, nTime := env.adjustedTime, vin := [], vout := [], nLockTime := 0 }
      (mapWallet.insert hash tx, tx)

/-- `IsMine(const CTxIn&)`. -/
def isMineIn (mapWallet : TxMap) (txin : CTxIn) : Bool :=
  match mapWallet.lookup txin.prevout.hash with
  | none => false
  | some prev =>
      match prev.vout[txin.prevout.n.toNat]? with
      | none => false
      | some txout => env.isMine txout.scriptPubKey

def isChange (txout : CTxOut) : Bool :=
  match env.extractDestination txout.scriptPubKey with
  | none => false
  | some address => env.isDestMine address && !env.inAddressBook address

variable [DecidableEq D]

def insertDestination (txout : CTxOut) (grouping : Finset D) : Finset D :=
  match env.extractDestination txout.scriptPubKey with
  | none => grouping
  | some address => insert address grouping

/-- The addresses of the inputs; `none` when an output is read that does not exist. -/
def groupInputs : TxMap → List CTxIn → Finset D → Option (TxMap × Finset D)
  | mapWallet, [], grouping => some (mapWallet, grouping)
  | mapWallet, txin :: vin, grouping =>
      let (mapWallet, prev) := walletAt env mapWallet txin.prevout.hash
      match prev.vout[txin.prevout.n.toNat]? with
      | none => none
      | some txout => groupInputs mapWallet vin (insertDestination env txout grouping)

/-- The addresses of the change; `hash` is that of the first input. -/
def groupChange (hash : UInt256) : TxMap → List CTxOut → Finset D → TxMap × Finset D
  | mapWallet, [], grouping => (mapWallet, grouping)
  | mapWallet, txout :: vout, grouping =>
      if isChange env txout then
        groupChange hash (walletAt env mapWallet hash).1 vout (insertDestination env txout grouping)
      else groupChange hash mapWallet vout grouping

def groupLone : List CTxOut → Finset (Finset D) → Finset (Finset D)
  | [], groupings => groupings
  | txout :: vout, groupings =>
      if env.isMine txout.scriptPubKey then
        match env.extractDestination txout.scriptPubKey with
        | none => groupLone vout groupings
        | some address => groupLone vout (insert {address} groupings)
      else groupLone vout groupings

/-- One turn of the first loop. -/
def groupTransaction (pcoin : CTransaction) (mapWallet : TxMap) (groupings : Finset (Finset D)) :
    Option (TxMap × Finset (Finset D)) :=
  match pcoin.vin with
  | [] => some (mapWallet, groupLone env pcoin.vout groupings)
  | txin :: _ =>
      if isMineIn env mapWallet txin then
        match groupInputs env mapWallet pcoin.vin ∅ with
        | none => none
        | some (mapWallet, grouping) =>
            let (mapWallet, grouping) := groupChange env txin.prevout.hash mapWallet pcoin.vout grouping
            some (mapWallet, groupLone env pcoin.vout (insert grouping groupings))
      else some (mapWallet, groupLone env pcoin.vout groupings)

/-- The first loop. A transaction that it adds to the map has nothing to group where the loop comes to it. -/
def collectGroupings : List CTransaction → TxMap → Finset (Finset D) → Option (TxMap × Finset (Finset D))
  | [], mapWallet, groupings => some (mapWallet, groupings)
  | pcoin :: txs, mapWallet, groupings =>
      match groupTransaction env pcoin mapWallet groupings with
      | none => none
      | some (mapWallet, groupings) => collectGroupings txs mapWallet groupings

end Collect

/-! ## The groups behind their pointers -/

structure Groups (D : Type) where
  heap : Nat → Option (Finset D)
  uniqueGroupings : Finset Nat
  setmap : D → Option Nat

namespace Groups

variable {D : Type}

def empty : Groups D where
  heap _ := none
  uniqueGroupings := ∅
  setmap _ := none

variable [DecidableEq D]

/-- One turn of the second loop; `none` when a deleted group is read. -/
def merge (alloc : Allocator) (st : Groups D) (grouping : Finset D) : Option (Groups D) :=
  let hits := grouping.biUnion fun address => (st.setmap address).toFinset
  if ∀ hit ∈ hits, (st.heap hit).isSome = true then
    let merged := grouping ∪ hits.biUnion fun hit => (st.heap hit).getD ∅
    let p := alloc.new st.uniqueGroupings
    some
      { heap := fun q => if q = p then some merged else if q ∈ hits then none else st.heap q
        uniqueGroupings := insert p (st.uniqueGroupings \ hits)
        setmap := fun element => if element ∈ merged then some p else st.setmap element }
  else none

def mergeAll (alloc : Allocator) : List (Finset D) → Groups D → Option (Groups D)
  | [], st => some st
  | grouping :: groupings, st =>
      match merge alloc st grouping with
      | none => none
      | some st => mergeAll alloc groupings st

/-- What is behind the pointers. -/
def parts (st : Groups D) : Finset (Finset D) := st.uniqueGroupings.image fun p => (st.heap p).getD ∅

/-- The last loop; `none` when a deleted group is read. -/
def ret (st : Groups D) : Option (Finset (Finset D)) :=
  if ∀ p ∈ st.uniqueGroupings, (st.heap p).isSome = true then some st.parts else none

end Groups

/-! ## The function -/

section Order

variable {D : Type} [LinearOrder D]

/-- The elements of a set in the order of `set<CTxDestination>`. -/
def elements (s : Finset D) : List D := s.sort (· ≤ ·)

/-- The order of `set<set<CTxDestination>>`. -/
def GroupLE (s t : Finset D) : Prop := elements s ≤ elements t

instance : DecidableRel (GroupLE (D := D)) := fun s t => inferInstanceAs (Decidable (elements s ≤ elements t))

instance : IsTrans (Finset D) GroupLE := ⟨fun _ _ _ h h' => le_trans h h'⟩

instance : Std.Total (GroupLE (D := D)) := ⟨fun s t => le_total (elements s) (elements t)⟩

instance : Std.Antisymm (GroupLE (D := D)) := by
  refine ⟨fun s t h h' => ?_⟩
  have helements : elements s = elements t := le_antisymm h h'
  have hset := congrArg List.toFinset helements
  rwa [elements, elements, Finset.sort_toFinset, Finset.sort_toFinset] at hset

end Order

def txs (mapWallet : TxMap) : List CTransaction := mapWallet.entries.map Sigma.snd

/-- The groupings, and `mapWallet` as it is left; `none` when something is read that does not exist. -/
def getAddressGroupings {D : Type} [LinearOrder D] (env : GroupingEnv D) (alloc : Allocator) (mapWallet : TxMap) :
    Option (Finset (Finset D) × TxMap) :=
  match collectGroupings env (txs mapWallet) mapWallet ∅ with
  | none => none
  | some (mapWallet, groupings) =>
      match Groups.mergeAll alloc (groupings.sort GroupLE) Groups.empty with
      | none => none
      | some st => st.ret.map (·, mapWallet)

/-!
## The groupings are components

The groups behind the pointers are those of `Components.absorb`, and no pointer that is followed is of a deleted group.
The first loop reads outputs that exist exactly where the wallet has what its own transactions spend.
-/

open Components Relation

/-! ## Pointers -/

namespace Groups

variable {D : Type} {alloc : Allocator} {st st' : Groups D} {grouping : Finset D} {a b : D} {p : Nat}

/-- The live pointers are those of the groups, and `setmap` has the group of each address. -/
structure Inv (st : Groups D) : Prop where
  live : ∀ p, (st.heap p).isSome = true ↔ p ∈ st.uniqueGroupings
  setmap : ∀ a p, st.setmap a = some p ↔ ∃ s, st.heap p = some s ∧ a ∈ s

theorem inv_empty : (empty : Groups D).Inv := by
  refine ⟨fun p => ?_, fun a p => ?_⟩
  · simp [empty]
  · simp [empty]

theorem heap_new (alloc : Allocator) (h : st.Inv) : st.heap (alloc.new st.uniqueGroupings) = none := by
  refine Option.not_isSome_iff_eq_none.mp fun hlive => ?_
  exact alloc.new_notMem _ ((h.live _).mp hlive)

theorem getD_heap (h : st.Inv) (hp : p ∈ st.uniqueGroupings) : st.heap p = some ((st.heap p).getD ∅) := by
  obtain ⟨s, hs⟩ := Option.isSome_iff_exists.mp ((h.live p).mpr hp)
  rw [hs]
  rfl

def hits (st : Groups D) (grouping : Finset D) : Finset Nat :=
  grouping.biUnion fun address => (st.setmap address).toFinset

theorem mem_hits (h : st.Inv) : p ∈ st.hits grouping ↔ ∃ s, st.heap p = some s ∧ ¬Disjoint s grouping := by
  simp only [hits, Finset.mem_biUnion, Option.mem_toFinset, Option.mem_def, h.setmap, Finset.not_disjoint_iff]
  constructor
  · rintro ⟨a, ha, s, hs, has⟩
    exact ⟨s, hs, a, has, ha⟩
  · rintro ⟨s, hs, a, has, ha⟩
    exact ⟨a, ha, s, hs, has⟩

theorem mem_hits_iff (h : st.Inv) (hp : p ∈ st.uniqueGroupings) :
    p ∈ st.hits grouping ↔ ¬Disjoint ((st.heap p).getD ∅) grouping := by
  rw [mem_hits h, getD_heap h hp]
  simp

variable [DecidableEq D]

def merged (st : Groups D) (grouping : Finset D) : Finset D :=
  grouping ∪ (st.hits grouping).biUnion fun hit => (st.heap hit).getD ∅

theorem mem_merged (h : st.Inv) : a ∈ st.merged grouping ↔
    a ∈ grouping ∨ ∃ hit ∈ st.hits grouping, st.setmap a = some hit := by
  rw [merged, Finset.mem_union, Finset.mem_biUnion]
  refine or_congr_right ⟨?_, ?_⟩
  · rintro ⟨hit, hhit, ha⟩
    obtain ⟨s, hs, -⟩ := (mem_hits h).mp hhit
    rw [hs, Option.getD_some] at ha
    exact ⟨hit, hhit, (h.setmap a hit).mpr ⟨s, hs, ha⟩⟩
  · rintro ⟨hit, hhit, ha⟩
    obtain ⟨s, hs, has⟩ := (h.setmap a hit).mp ha
    exact ⟨hit, hhit, by rwa [hs, Option.getD_some]⟩

/-- The state after a merge. -/
def after (alloc : Allocator) (st : Groups D) (grouping : Finset D) : Groups D where
  heap q :=
    if q = alloc.new st.uniqueGroupings then some (st.merged grouping)
    else if q ∈ st.hits grouping then none else st.heap q
  uniqueGroupings := insert (alloc.new st.uniqueGroupings) (st.uniqueGroupings \ st.hits grouping)
  setmap element := if element ∈ st.merged grouping then some (alloc.new st.uniqueGroupings) else st.setmap element

theorem merge_eq (h : st.Inv) : merge alloc st grouping = some (after alloc st grouping) := by
  rw [merge]
  refine if_pos fun hit hhit => ?_
  obtain ⟨s, hs, -⟩ := (mem_hits h).mp hhit
  rw [hs]
  rfl

theorem inv_after (alloc : Allocator) (grouping : Finset D) (h : st.Inv) : (after alloc st grouping).Inv := by
  have hnew := heap_new alloc h
  refine ⟨fun q => ?_, fun a q => ?_⟩
  · rw [after]
    dsimp only
    rw [Finset.mem_insert, Finset.mem_sdiff, ← h.live]
    split_ifs with hq hhit
    · simp [hq]
    · simp [hq, hhit]
    · simp [hq, hhit]
  · rw [after]
    dsimp only
    by_cases hmerged : a ∈ st.merged grouping
    · rw [if_pos hmerged]
      constructor
      · intro hq
        cases hq
        exact ⟨_, if_pos rfl, hmerged⟩
      · rintro ⟨s, hs, has⟩
        split_ifs at hs with hq hhit
        · rw [hq]
        -- An address of a group that is left was not hit.
        · rcases (mem_merged h).mp hmerged with hgroup | ⟨hit, hmem, hset⟩
          · exact absurd ((mem_hits h).mpr ⟨s, hs, Finset.not_disjoint_iff.mpr ⟨a, has, hgroup⟩⟩) hhit
          · rw [(h.setmap a q).mpr ⟨s, hs, has⟩, Option.some.injEq] at hset
            exact absurd (hset ▸ hmem) hhit
    · rw [if_neg hmerged, h.setmap]
      refine exists_congr fun s => and_congr_left fun has => ?_
      split_ifs with hq hhit
      · rw [hq, hnew]
        refine ⟨nofun, fun hs => ?_⟩
        cases hs
        exact absurd has hmerged
      · refine ⟨fun hs => absurd ?_ hmerged, nofun⟩
        exact (mem_merged h).mpr (Or.inr ⟨q, hhit, (h.setmap a q).mpr ⟨s, hs, has⟩⟩)
      · rfl

/-- A merge is the step of the components. -/
theorem parts_after (h : st.Inv) : (after alloc st grouping).parts = absorb st.parts grouping := by
  have hmerged : st.merged grouping =
      grouping ∪ (st.parts.filter fun s => ¬Disjoint s grouping).biUnion id := by
    ext a
    rw [mem_merged h, Finset.mem_union, Finset.mem_biUnion]
    refine or_congr_right ⟨?_, ?_⟩
    · rintro ⟨hit, hhit, ha⟩
      obtain ⟨s, hs, hmeets⟩ := (mem_hits h).mp hhit
      obtain ⟨t, ht, hat⟩ := (h.setmap a hit).mp ha
      rw [hs, Option.some.injEq] at ht
      have hlive : hit ∈ st.uniqueGroupings := (h.live hit).mp (by rw [hs]; rfl)
      refine ⟨s, Finset.mem_filter.mpr ⟨Finset.mem_image.mpr ⟨hit, hlive, ?_⟩, hmeets⟩, ht ▸ hat⟩
      rw [hs]
      rfl
    · rintro ⟨s, hs, has⟩
      obtain ⟨hparts, hmeets⟩ := Finset.mem_filter.mp hs
      obtain ⟨hit, hlive, rfl⟩ := Finset.mem_image.mp hparts
      exact ⟨hit, (mem_hits_iff h hlive).mpr hmeets, (h.setmap a hit).mpr ⟨_, getD_heap h hlive, has⟩⟩
  have hrest : (st.uniqueGroupings \ st.hits grouping).image (fun q => ((after alloc st grouping).heap q).getD ∅) =
      st.parts.filter fun s => Disjoint s grouping := by
    rw [parts, Finset.filter_image]
    have hset : st.uniqueGroupings \ st.hits grouping =
        st.uniqueGroupings.filter fun q => Disjoint ((st.heap q).getD ∅) grouping := by
      ext q
      rw [Finset.mem_sdiff, Finset.mem_filter]
      exact and_congr_right fun hq => by rw [mem_hits_iff h hq, not_not]
    rw [hset]
    refine Finset.image_congr fun q hq => ?_
    obtain ⟨hlive, hapart⟩ := Finset.mem_filter.mp (Finset.mem_coe.mp hq)
    have hne : q ≠ alloc.new st.uniqueGroupings := fun hq => alloc.new_notMem _ (hq ▸ hlive)
    have hhit : q ∉ st.hits grouping := fun hhit => (mem_hits_iff h hlive).mp hhit hapart
    change (if _ then _ else if _ then _ else _ : Option (Finset D)).getD ∅ = _
    rw [if_neg hne, if_neg hhit]
  rw [parts, absorb, ← hmerged, ← hrest]
  change Finset.image _ (insert _ _) = _
  rw [Finset.image_insert]
  congr 1
  change (if _ then _ else _ : Option (Finset D)).getD ∅ = _
  rw [if_pos rfl]
  rfl

theorem mergeAll_spec (alloc : Allocator) (h : st.Inv) (groupings : List (Finset D)) :
    ∃ st', mergeAll alloc groupings st = some st' ∧ st'.Inv ∧ st'.parts = groupings.foldl absorb st.parts := by
  induction groupings generalizing st with
  | nil => exact ⟨st, rfl, h, rfl⟩
  | cons grouping groupings ih =>
      obtain ⟨st', hmerge, hinv, hparts⟩ := ih (inv_after alloc grouping h)
      refine ⟨st', ?_, hinv, ?_⟩
      · rw [mergeAll, merge_eq h]
        exact hmerge
      · rw [hparts, parts_after h]
        rfl

theorem ret_eq (h : st.Inv) : st.ret = some st.parts := if_pos fun p hp => (h.live p).mpr hp

end Groups

/-! ## What the first loop reads -/

section Collect

variable {D : Type} {env : GroupingEnv D} {mapWallet mapWallet' : TxMap} {txin : CTxIn} {txout : CTxOut}
  {tx pcoin : CTransaction} {grouping grouping' : Finset D} {groupings groupings' : Finset (Finset D)} {a b : D}

/-- The output that an input spends, where the wallet has it. -/
def prevOut (mapWallet : TxMap) (txin : CTxIn) : Option CTxOut :=
  (mapWallet.lookup txin.prevout.hash).bind fun prev => prev.vout[txin.prevout.n.toNat]?

/-- The first input is of the wallet. -/
def SpendsOwn (env : GroupingEnv D) (mapWallet : TxMap) (tx : CTransaction) : Prop :=
  ∃ txin, tx.vin.head? = some txin ∧ isMineIn env mapWallet txin = true

/-- An address of an output that is spent, or of the change. -/
def CoSpent (env : GroupingEnv D) (mapWallet : TxMap) (tx : CTransaction) (a : D) : Prop :=
  (∃ txin ∈ tx.vin, ∃ txout, prevOut mapWallet txin = some txout ∧
    env.extractDestination txout.scriptPubKey = some a) ∨
  ∃ txout ∈ tx.vout, isChange env txout = true ∧ env.extractDestination txout.scriptPubKey = some a

/-- Two addresses of the inputs and the change of one transaction of the wallet. -/
def Linked (env : GroupingEnv D) (mapWallet : TxMap) (a b : D) : Prop :=
  ∃ tx ∈ txs mapWallet, SpendsOwn env mapWallet tx ∧ CoSpent env mapWallet tx a ∧ CoSpent env mapWallet tx b

/-- The address of an output of the wallet. -/
def Owned (env : GroupingEnv D) (mapWallet : TxMap) (a : D) : Prop :=
  ∃ tx ∈ txs mapWallet, ∃ txout ∈ tx.vout, env.isMine txout.scriptPubKey = true ∧
    env.extractDestination txout.scriptPubKey = some a

/-- The wallet has all outputs that are spent together with one of its own. -/
def InputsKnown (env : GroupingEnv D) (mapWallet : TxMap) : Prop :=
  ∀ tx ∈ txs mapWallet, SpendsOwn env mapWallet tx → ∀ txin ∈ tx.vin, prevOut mapWallet txin ≠ none

theorem walletAt_vout : (walletAt env mapWallet txin.prevout.hash).2.vout[txin.prevout.n.toNat]? =
    prevOut mapWallet txin := by
  rw [walletAt, prevOut]
  cases mapWallet.lookup txin.prevout.hash with
  | none => rfl
  | some tx => rfl

theorem walletAt_fst (h : prevOut mapWallet txin ≠ none) : (walletAt env mapWallet txin.prevout.hash).1 = mapWallet := by
  rw [prevOut] at h
  rw [walletAt]
  cases hlookup : mapWallet.lookup txin.prevout.hash with
  | none =>
      rw [hlookup] at h
      exact absurd rfl h
  | some tx => rfl

theorem prevOut_of_isMineIn (h : isMineIn env mapWallet txin = true) : prevOut mapWallet txin ≠ none := by
  rw [isMineIn] at h
  rw [prevOut]
  cases hlookup : mapWallet.lookup txin.prevout.hash with
  | none =>
      rw [hlookup] at h
      cases h
  | some prev =>
      intro hnone
      rw [Option.bind_some] at hnone
      rw [hlookup] at h
      dsimp only at h
      rw [hnone] at h
      cases h

/-- What one transaction adds to the pairs that are together. -/
def Adds (env : GroupingEnv D) (mapWallet : TxMap) (tx : CTransaction) (a b : D) : Prop :=
  (SpendsOwn env mapWallet tx ∧ CoSpent env mapWallet tx a ∧ CoSpent env mapWallet tx b) ∨
    a = b ∧ ∃ txout ∈ tx.vout, env.isMine txout.scriptPubKey = true ∧
      env.extractDestination txout.scriptPubKey = some a

/-- A chain of pairs that are together is one of links, from an address that is listed. -/
theorem transGen_iff : TransGen (fun a b => ∃ tx ∈ txs mapWallet, Adds env mapWallet tx a b) a b ↔
    (Owned env mapWallet a ∨ Linked env mapWallet a a) ∧ ReflTransGen (Linked env mapWallet) a b := by
  have hadds (a b : D) : (∃ tx ∈ txs mapWallet, Adds env mapWallet tx a b) ↔
      Linked env mapWallet a b ∨ a = b ∧ Owned env mapWallet a := by
    constructor
    · rintro ⟨tx, htx, hlink | ⟨heq, hout⟩⟩
      · exact Or.inl ⟨tx, htx, hlink⟩
      · exact Or.inr ⟨heq, tx, htx, hout⟩
    · rintro (⟨tx, htx, hlink⟩ | ⟨heq, tx, htx, hout⟩)
      · exact ⟨tx, htx, Or.inl hlink⟩
      · exact ⟨tx, htx, Or.inr ⟨heq, hout⟩⟩
  simp only [hadds]
  constructor
  · intro h
    induction h with
    | single h =>
        rcases h with ⟨tx, htx, hspends, ha, hb⟩ | ⟨rfl, howned⟩
        · exact ⟨Or.inr ⟨tx, htx, hspends, ha, ha⟩, ReflTransGen.single ⟨tx, htx, hspends, ha, hb⟩⟩
        · exact ⟨Or.inl howned, ReflTransGen.refl⟩
    | tail _ hbc ih =>
        rcases hbc with hlink | ⟨rfl, -⟩
        · exact ⟨ih.1, ih.2.tail hlink⟩
        · exact ih
  · rintro ⟨hlisted, h⟩
    induction h with
    | refl => exact TransGen.single (hlisted.elim (fun howned => Or.inr ⟨rfl, howned⟩) Or.inl)
    | tail _ hlink ih => exact ih.tail (Or.inl hlink)

variable [DecidableEq D]

theorem mem_insertDestination :
    a ∈ insertDestination env txout grouping ↔ env.extractDestination txout.scriptPubKey = some a ∨ a ∈ grouping := by
  rw [insertDestination]
  cases env.extractDestination txout.scriptPubKey with
  | none => simp
  | some address =>
      rw [Finset.mem_insert, Option.some.injEq]
      exact or_congr_left eq_comm

theorem groupInputs_cons {vin : List CTxIn} (h : prevOut mapWallet txin = some txout) :
    groupInputs env mapWallet (txin :: vin) grouping =
      groupInputs env mapWallet vin (insertDestination env txout grouping) := by
  have hne : prevOut mapWallet txin ≠ none := h ▸ nofun
  rw [groupInputs]
  dsimp only
  rw [walletAt_vout, walletAt_fst hne, h]

theorem groupInputs_spec (env : GroupingEnv D) (vin : List CTxIn) (grouping : Finset D)
    (h : ∀ txin ∈ vin, prevOut mapWallet txin ≠ none) :
    ∃ grouping', groupInputs env mapWallet vin grouping = some (mapWallet, grouping') ∧ ∀ a, a ∈ grouping' ↔
      a ∈ grouping ∨ ∃ txin ∈ vin, ∃ txout, prevOut mapWallet txin = some txout ∧
        env.extractDestination txout.scriptPubKey = some a := by
  induction vin generalizing grouping with
  | nil => exact ⟨grouping, rfl, by simp⟩
  | cons txin vin ih =>
      obtain ⟨txout, hprev⟩ := Option.ne_none_iff_exists'.mp (h txin List.mem_cons_self)
      obtain ⟨grouping', hgroup, hmem⟩ := ih (insertDestination env txout grouping)
        fun txin' htxin' => h txin' (List.mem_cons_of_mem _ htxin')
      refine ⟨grouping', (groupInputs_cons hprev).trans hgroup, fun a => ?_⟩
      rw [hmem, mem_insertDestination]
      simp only [List.exists_mem_cons_iff, hprev, Option.some.injEq, exists_eq_left']
      tauto

/-- An input that is not known is read beyond the outputs that exist. -/
theorem groupInputs_eq_none {vin : List CTxIn} (h : ∃ txin ∈ vin, prevOut mapWallet txin = none) :
    groupInputs env mapWallet vin grouping = none := by
  induction vin generalizing grouping with
  | nil =>
      obtain ⟨_, hmem, -⟩ := h
      cases hmem
  | cons txin vin ih =>
      cases hprev : prevOut mapWallet txin with
      | none =>
          rw [groupInputs]
          dsimp only
          rw [walletAt_vout, hprev]
      | some txout =>
          rw [groupInputs_cons hprev]
          rw [List.exists_mem_cons_iff, hprev] at h
          exact ih (h.resolve_left nofun)

theorem groupChange_spec (env : GroupingEnv D) (vout : List CTxOut) (grouping : Finset D)
    (h : prevOut mapWallet txin ≠ none) :
    ∃ grouping', groupChange env txin.prevout.hash mapWallet vout grouping = (mapWallet, grouping') ∧
      ∀ a, a ∈ grouping' ↔ a ∈ grouping ∨ ∃ txout ∈ vout, isChange env txout = true ∧
        env.extractDestination txout.scriptPubKey = some a := by
  induction vout generalizing grouping with
  | nil => exact ⟨grouping, rfl, by simp⟩
  | cons txout vout ih =>
      rw [groupChange]
      split_ifs with hchange
      · rw [walletAt_fst h]
        obtain ⟨grouping', hgroup, hmem⟩ := ih (insertDestination env txout grouping)
        refine ⟨grouping', hgroup, fun a => ?_⟩
        rw [hmem, mem_insertDestination, List.exists_mem_cons_iff]
        tauto
      · obtain ⟨grouping', hgroup, hmem⟩ := ih grouping
        refine ⟨grouping', hgroup, fun a => ?_⟩
        rw [hmem, List.exists_mem_cons_iff]
        tauto

theorem share_insert (s : Finset D) : Share (insert s groupings : Finset (Finset D)) a b ↔
    (a ∈ s ∧ b ∈ s) ∨ Share groupings a b := by
  simp only [Share, Finset.coe_insert, Set.exists_mem_insert]

theorem share_groupLone (vout : List CTxOut) : Share (groupLone env vout groupings) a b ↔ Share groupings a b ∨
    a = b ∧ ∃ txout ∈ vout, env.isMine txout.scriptPubKey = true ∧
      env.extractDestination txout.scriptPubKey = some a := by
  induction vout generalizing groupings with
  | nil => simp [groupLone]
  | cons txout vout ih =>
      rw [groupLone, List.exists_mem_cons_iff]
      split_ifs with hmine
      · cases hdest : env.extractDestination txout.scriptPubKey with
        | none =>
            rw [ih]
            simp
        | some address =>
            rw [ih, share_insert, Finset.mem_singleton, Finset.mem_singleton, Option.some.injEq]
            constructor
            · rintro ((⟨rfl, rfl⟩ | hshare) | ⟨rfl, hout⟩)
              · exact Or.inr ⟨rfl, Or.inl ⟨hmine, rfl⟩⟩
              · exact Or.inl hshare
              · exact Or.inr ⟨rfl, Or.inr hout⟩
            · rintro (hshare | ⟨rfl, ⟨-, rfl⟩ | hout⟩)
              · exact Or.inl (Or.inr hshare)
              · exact Or.inl (Or.inl ⟨rfl, rfl⟩)
              · exact Or.inr ⟨rfl, hout⟩
      · rw [ih]
        simp [hmine]

theorem groupTransaction_spec (groupings : Finset (Finset D))
    (h : SpendsOwn env mapWallet tx → ∀ txin ∈ tx.vin, prevOut mapWallet txin ≠ none) :
    ∃ groupings', groupTransaction env tx mapWallet groupings = some (mapWallet, groupings') ∧
      ∀ a b, Share groupings' a b ↔ Share groupings a b ∨ Adds env mapWallet tx a b := by
  -- Where the first input is not of the wallet, only the lone addresses are added.
  have hlone (hnot : ¬SpendsOwn env mapWallet tx) (a b : D) : Share (groupLone env tx.vout groupings) a b ↔
      Share groupings a b ∨ Adds env mapWallet tx a b := by
    rw [share_groupLone, Adds]
    simp only [hnot, false_and, false_or]
  rw [groupTransaction]
  cases hvin : tx.vin with
  | nil => exact ⟨_, rfl, hlone fun ⟨txin, hhead, _⟩ => by rw [hvin] at hhead; cases hhead⟩
  | cons txin vin =>
      dsimp only
      split_ifs with hmine
      · have hspends : SpendsOwn env mapWallet tx := ⟨txin, by rw [hvin]; rfl, hmine⟩
        rw [← hvin]
        obtain ⟨grouping, hinputs, hmem⟩ := groupInputs_spec env tx.vin ∅ (h hspends)
        obtain ⟨grouping', hchange, hmem'⟩ := groupChange_spec env tx.vout grouping
          (prevOut_of_isMineIn hmine)
        rw [hinputs]
        dsimp only
        rw [hchange]
        refine ⟨_, rfl, fun a b => ?_⟩
        have hgroup (c : D) : c ∈ grouping' ↔ CoSpent env mapWallet tx c := by
          rw [hmem', hmem, CoSpent]
          simp only [Finset.notMem_empty, false_or]
        rw [share_groupLone, share_insert, hgroup, hgroup, Adds]
        simp only [hspends, true_and]
        tauto
      · refine ⟨_, rfl, hlone ?_⟩
        rintro ⟨txin', hhead, hmine'⟩
        rw [hvin] at hhead
        cases hhead
        exact hmine hmine'

theorem groupTransaction_eq_none (hspends : SpendsOwn env mapWallet tx)
    (h : ∃ txin ∈ tx.vin, prevOut mapWallet txin = none) : groupTransaction env tx mapWallet groupings = none := by
  obtain ⟨txin, hhead, hmine⟩ := hspends
  rw [groupTransaction]
  cases hvin : tx.vin with
  | nil =>
      rw [hvin] at hhead
      cases hhead
  | cons txin' vin =>
      rw [hvin] at hhead
      cases hhead
      dsimp only
      rw [if_pos hmine, ← hvin, groupInputs_eq_none h]

theorem collectGroupings_spec (txs : List CTransaction) (groupings : Finset (Finset D))
    (h : ∀ tx ∈ txs, SpendsOwn env mapWallet tx → ∀ txin ∈ tx.vin, prevOut mapWallet txin ≠ none) :
    ∃ groupings', collectGroupings env txs mapWallet groupings = some (mapWallet, groupings') ∧
      ∀ a b, Share groupings' a b ↔ Share groupings a b ∨ ∃ tx ∈ txs, Adds env mapWallet tx a b := by
  induction txs generalizing groupings with
  | nil => exact ⟨groupings, rfl, by simp⟩
  | cons tx txs ih =>
      obtain ⟨groupings₁, hstep, hshare₁⟩ := groupTransaction_spec groupings (h tx List.mem_cons_self)
      obtain ⟨groupings', hrun, hshare⟩ := ih groupings₁
        fun tx' htx' => h tx' (List.mem_cons_of_mem _ htx')
      refine ⟨groupings', ?_, fun a b => ?_⟩
      · rw [collectGroupings, hstep]
        exact hrun
      · rw [hshare, hshare₁, List.exists_mem_cons_iff, or_assoc]

theorem collectGroupings_eq_none (txs : List CTransaction)
    (h : ∃ tx ∈ txs, SpendsOwn env mapWallet tx ∧ ∃ txin ∈ tx.vin, prevOut mapWallet txin = none) :
    collectGroupings env txs mapWallet groupings = none := by
  induction txs generalizing groupings with
  | nil =>
      obtain ⟨_, hmem, -⟩ := h
      cases hmem
  | cons tx txs ih =>
      rw [collectGroupings]
      by_cases htx : SpendsOwn env mapWallet tx ∧ ∃ txin ∈ tx.vin, prevOut mapWallet txin = none
      · rw [groupTransaction_eq_none htx.1 htx.2]
      · obtain ⟨groupings₁, hstep, -⟩ := groupTransaction_spec groupings
          (fun hspends txin htxin hnone => htx ⟨hspends, txin, htxin, hnone⟩)
        rw [hstep]
        rw [List.exists_mem_cons_iff] at h
        exact ih (h.resolve_left htx)

end Collect

/-! ## The function -/

variable {D : Type} [LinearOrder D]

/-- The groupings are the components of the links, with the wallet as it was, exactly where the wallet has all outputs
that are spent together with its own. -/
theorem addressGroupings_components (env : GroupingEnv D) (alloc : Allocator) (mapWallet : TxMap) :
    (∃ ret, getAddressGroupings env alloc mapWallet = some (ret, mapWallet) ∧
      (ret : Set (Finset D)).PairwiseDisjoint id ∧ ∀ a b, (∃ s ∈ ret, a ∈ s ∧ b ∈ s) ↔
        (Owned env mapWallet a ∨ Linked env mapWallet a a) ∧ ReflTransGen (Linked env mapWallet) a b) ↔
      InputsKnown env mapWallet := by
  constructor
  · rintro ⟨ret, hret, -⟩ tx htx hspends txin htxin hnone
    rw [getAddressGroupings,
      collectGroupings_eq_none (txs mapWallet) ⟨tx, htx, hspends, txin, htxin, hnone⟩] at hret
    cases hret
  · intro hknown
    obtain ⟨groupings, hcollect, hshare⟩ := collectGroupings_spec (txs mapWallet) ∅ hknown
    obtain ⟨st, hmerge, hinv, hparts⟩ := Groups.mergeAll_spec alloc Groups.inv_empty (groupings.sort GroupLE)
    have hcomponents := IsComponents.empty.foldl_absorb (groupings.sort GroupLE)
    rw [getAddressGroupings, hcollect]
    dsimp only
    rw [hmerge]
    dsimp only
    rw [Groups.ret_eq hinv, hparts]
    refine ⟨_, rfl, hcomponents.disjoint, fun a b => ?_⟩
    refine (hcomponents.share_iff a b).trans ?_
    rw [← transGen_iff]
    have hgroups : (∅ ∪ {g | g ∈ groupings.sort GroupLE} : Set (Finset D)) = groupings := by
      ext g
      simp
    have hrel : Share (groupings : Set (Finset D)) = fun a b => ∃ tx ∈ txs mapWallet, Adds env mapWallet tx a b := by
      funext a b
      rw [hshare]
      simp [Share]
    rw [hgroups, hrel]

/-! ## A shared transaction -/

/-- Addresses are the first bytes of scripts, and those below 16 are of the wallet. -/
def byteEnv : GroupingEnv Nat where
  isMine script := (script.headD 0).toNat < 16
  extractDestination script := some (script.headD 0).toNat
  isDestMine address := address < 16
  inAddressBook _ := true
  adjustedTime := 0

def succAllocator : Allocator where
  new live := live.sup id + 1
  new_notMem _ hmem := Nat.not_succ_le_self _ (Finset.le_sup (f := id) hmem)

/-- A payment to the wallet, and a transaction that spends it together with an output of someone else. -/
def sharedWallet : TxMap :=
  ((∅ : TxMap).insert 1 { nVersion := 1, nTime := 0, vin := [], vout := [⟨5, [1]⟩], nLockTime := 0 }).insert 2
    { nVersion := 1, nTime := 0, vin := [⟨⟨1, 0⟩, [], 0⟩, ⟨⟨9, 0⟩, [], 0⟩], vout := [], nLockTime := 0 }

theorem getAddressGroupings_shared : getAddressGroupings byteEnv succAllocator sharedWallet = none := by
  decide

end ProCurrency
