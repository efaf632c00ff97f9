import Mathlib.Data.List.Perm.Subperm
import ProCurrency.Base.Transaction
import ProCurrency.Base.Params
import ProCurrency.Lib.LinkedChain

/-!
# The header index of a thin node

`AcceptBlockThin`, `AddToBlockThinIndex`, `SetBestThinChain`, `ReorganizeHeaders` and `FindBlockThinByHeight`
(main.cpp). A pointer is the number of its allocation, so that a freed one stays freed; `none` as a result is a
null or freed pointer that is followed. No walk takes more rounds than there were allocations. The disk, the
wallets and the log are left out but for the pointers they follow.
-/

namespace ProCurrency

/-- The fields of `CBlockThinIndex` that the functions below read, but for `pnext`. -/
structure ThinEntry where
  hashBlock : UInt256
  pprev : Option Nat
  nHeight : Int
  nChainTrust : UInt256
  deriving Repr, DecidableEq

/-- The globals of main.cpp, over the allocated entries and their `pnext`. -/
structure ThinIndex where
  heap : Nat → Option ThinEntry
  pnext : Nat → Option Nat
  nAllocated : Nat
  mapBlockThinIndex : UInt256 → Option Nat
  pindexGenesisBlockThin : Option Nat
  pindexRear : Option Nat
  pindexBestHeader : Option Nat
  hashBestChain : UInt256
  nBestHeight : Int
  nBestChainTrust : UInt256
  pblockHeaderIndexFBBHLast : Option Nat

structure ThinHeader where
  hash : UInt256
  hashPrevBlock : UInt256
  /-- `GetBlockTrust`. -/
  nBlockTrust : UInt256

/-- The network and the settings; init.cpp does not take a smaller window. -/
structure ThinEnv where
  hashGenesisBlock : UInt256
  nGenesisTrust : UInt256
  genesisTrust : 0 < nGenesisTrust
  fThinFullIndex : Bool
  nThinIndexWindow : Int
  window : 4096 ≤ nThinIndexWindow

/-- What a call meets outside the index. -/
structure ThinOutcomes where
  /-- The checks of `AcceptBlockThin` that are not about the index. -/
  fAccepted : Bool
  /-- `ComputeNextStakeModifierThin`. -/
  fStakeModifier : Bool
  /-- The commit of the new entry. -/
  fIndexCommits : Bool
  /-- The commits of `SetBestThinChain`, by the entry that becomes the best one. -/
  commits : Nat → Bool

/-! ## Walks -/

/-- The inner loop of the search for the fork; `some none` is the null pointer. -/
def lowerThinTo (heap : Nat → Option ThinEntry) (nHeight : Int) : Nat → Nat → Option (Option Nat)
  | fuel, plonger =>
      match heap plonger with
      | none => none
      | some e =>
          if nHeight < e.nHeight then
            match e.pprev with
            | none => some none
            | some pprev =>
                match fuel with
                | 0 => none
                | fuel + 1 => lowerThinTo heap nHeight fuel pprev
          else some (some plonger)

def findThinFork (heap : Nat → Option ThinEntry) (nRounds : Nat) : Nat → Nat → Nat → Option (Option Nat)
  | fuel, pfork, plonger =>
      if pfork = plonger then some (some pfork)
      else
        match heap pfork with
        | none => none
        | some e =>
            match lowerThinTo heap e.nHeight nRounds plonger with
            | none => none
            | some none => some none
            | some (some plonger) =>
                if pfork = plonger then some (some pfork)
                else
                  match e.pprev with
                  | none => some none
                  | some pprev =>
                      match fuel with
                      | 0 => none
                      | fuel + 1 => findThinFork heap nRounds fuel pprev plonger

/-- The entries from `pindex` back to `pfork`, which is not one of them. -/
def thinBranchTo (heap : Nat → Option ThinEntry) (pfork : Nat) : Nat → Nat → Option (List Nat)
  | fuel, pindex =>
      if pindex = pfork then some []
      else
        match heap pindex with
        | none => none
        | some e =>
            match e.pprev with
            | none => none
            | some pprev =>
                match fuel with
                | 0 => none
                | fuel + 1 =>
                    match thinBranchTo heap pfork fuel pprev with
                    | none => none
                    | some branch => some (pindex :: branch)

/-- The entries that are connected after the reorganisation, and the one it goes to. -/
def postponeThin (heap : Nat → Option ThinEntry) (nBestTrust : UInt256) : Nat → Nat → Option (List Nat × Nat)
  | fuel, pindex =>
      match heap pindex with
      | none => none
      | some e =>
          match e.pprev with
          | none => some ([], pindex)
          | some pprev =>
              match heap pprev with
              | none => none
              | some ePrev =>
                  if nBestTrust < ePrev.nChainTrust then
                    match fuel with
                    | 0 => none
                    | fuel + 1 =>
                        match postponeThin heap nBestTrust fuel pprev with
                        | none => none
                        | some (vpindexSecondary, pindexIntermediate) =>
                            some (pindex :: vpindexSecondary, pindexIntermediate)
                  else some ([], pindex)

namespace ThinIndex

/-- `pindex->pprev->pnext = p`, when `pprev` is not null. -/
def linkPrev (st : ThinIndex) (pindex : Nat) (p : Option Nat) : ThinIndex :=
  match (st.heap pindex).bind ThinEntry.pprev with
  | none => st
  | some pprev => { st with pnext := Function.update st.pnext pprev p }

/-- `none` when a pointer is followed that is null or freed, and `some (false, _)` when the function fails. -/
def reorganizeHeaders (commits : Nat → Bool) (st : ThinIndex) (pindexBest pindexNew : Nat) :
    Option (Bool × ThinIndex) :=
  match findThinFork st.heap st.nAllocated st.nAllocated pindexBest pindexNew with
  | none => none
  | some none => some (false, st)
  | some (some pfork) =>
      match thinBranchTo st.heap pfork st.nAllocated pindexBest,
        thinBranchTo st.heap pfork st.nAllocated pindexNew with
      | some vDisconnect, some vConnect =>
          if commits pindexNew then
            some (true,
              vConnect.reverse.foldl (fun st pindex => st.linkPrev pindex (some pindex))
                (vDisconnect.foldl (fun st pindex => st.linkPrev pindex none) st))
          else some (false, st)
      | _, _ => none

def setBestThinChainInner (commits : Nat → Bool) (st : ThinIndex) (pindexNew : Nat) :
    Option (Bool × ThinIndex) :=
  if commits pindexNew then
    match (st.heap pindexNew).bind ThinEntry.pprev with
    | none => none
    | some pprev => some (true, { st with pnext := Function.update st.pnext pprev (some pindexNew) })
  else some (false, st)

/-- The loop over the postponed entries. It ends at the first one that fails, and does not say so. -/
def connectPostponedThin (commits : Nat → Bool) (st : ThinIndex) : List Nat → Option ThinIndex
  | [] => some st
  | pindex :: rest =>
      match st.setBestThinChainInner commits pindex with
      | none => none
      | some (false, st) => some st
      | some (true, st) => connectPostponedThin commits st rest

/-- The end of `SetBestThinChain`, which also reads the trust of `pprev` above the genesis block. -/
def newBestHeader (st : ThinIndex) (hash : UInt256) (pindexNew : Nat) : Option (Bool × ThinIndex) :=
  match st.heap pindexNew with
  | none => none
  | some e =>
      if e.nHeight ≠ 0 ∧ e.pprev.bind st.heap = none then none
      else
        some (true,
          { st with
            hashBestChain := hash
            pindexBestHeader := some pindexNew
            nBestHeight := e.nHeight
            nBestChainTrust := e.nChainTrust })

def setBestThinChain (env : ThinEnv) (commits : Nat → Bool) (st : ThinIndex) (header : ThinHeader)
    (pindexNew : Nat) : Option (Bool × ThinIndex) :=
  if st.pindexGenesisBlockThin = none ∧ header.hash = env.hashGenesisBlock then
    if commits pindexNew then
      { st with pindexGenesisBlockThin := some pindexNew }.newBestHeader header.hash pindexNew
    else some (false, st)
  else if header.hashPrevBlock = st.hashBestChain then
    match st.setBestThinChainInner commits pindexNew with
    | none => none
    | some (false, st) => some (false, st)
    | some (true, st) => st.newBestHeader header.hash pindexNew
  else
    match st.pindexBestHeader with
    | none => none
    | some pindexBest =>
        match st.heap pindexBest with
        | none => none
        | some best =>
            match postponeThin st.heap best.nChainTrust st.nAllocated pindexNew with
            | none => none
            | some (vpindexSecondary, pindexIntermediate) =>
                match st.reorganizeHeaders commits pindexBest pindexIntermediate with
                | none => none
                -- `InvalidHeaderChainFound` follows `pindexBest`, which is null on a thin node.
                | some (false, _) => none
                | some (true, st) =>
                    match st.connectPostponedThin commits vpindexSecondary.reverse with
                    | none => none
                    | some st => st.newBestHeader header.hash pindexNew

/-! ## Pruning -/

/-- One round of the loop at the end of `AddToBlockThinIndex`. -/
def pruneRear (st : ThinIndex) : Option ThinIndex :=
  match st.pindexRear with
  | none => none
  | some pindexRear =>
      match st.heap pindexRear with
      | none => none
      | some e =>
          match st.pnext pindexRear with
          | none => none
          | some pnext =>
              match st.heap pnext with
              | none => none
              | some eNext =>
                  let heap := Function.update st.heap pnext (some { eNext with pprev := none })
                  match st.mapBlockThinIndex e.hashBlock with
                  | none => some { st with heap, pindexRear := some pnext }
                  | some p =>
                      some
                        { st with
                          heap := Function.update heap p none
                          pnext := Function.update st.pnext p none
                          pindexRear := some pnext
                          mapBlockThinIndex := Function.update st.mapBlockThinIndex e.hashBlock none }

/-- The height that is left at the rear, with a new entry at `nHeight`. -/
def pruneTo (env : ThinEnv) (nHeight : Int) : Nat → ThinIndex → Option ThinIndex
  | fuel, st =>
      match st.pindexRear with
      | none => some st
      | some pindexRear =>
          match st.heap pindexRear with
          | none => none
          | some e =>
              if env.fThinFullIndex = false ∧ env.nThinIndexWindow < nHeight - e.nHeight then
                match fuel with
                | 0 => none
                | fuel + 1 =>
                    match st.pruneRear with
                    | none => none
                    | some st => pruneTo env nHeight fuel st
              else some st

/-! ## New headers -/

def insertEntry (st : ThinIndex) (e : ThinEntry) : ThinIndex :=
  { st with
    heap := Function.update st.heap st.nAllocated (some e)
    pnext := Function.update st.pnext st.nAllocated none
    nAllocated := st.nAllocated + 1
    mapBlockThinIndex := Function.update st.mapBlockThinIndex e.hashBlock (some st.nAllocated) }

/-- The new entry, with the height and the trust over those of `pprev`. -/
def newEntry (st : ThinIndex) (header : ThinHeader) : Option ThinEntry :=
  match st.mapBlockThinIndex header.hashPrevBlock with
  | none => some ⟨header.hash, none, 0, header.nBlockTrust⟩
  | some pprev =>
      match st.heap pprev with
      | none => none
      | some ePrev =>
          some ⟨header.hash, some pprev, ePrev.nHeight + 1, ePrev.nChainTrust + header.nBlockTrust⟩

def addToBlockThinIndex (env : ThinEnv) (outcomes : ThinOutcomes) (st : ThinIndex) (header : ThinHeader) :
    Option (Bool × ThinIndex) :=
  if st.mapBlockThinIndex header.hash ≠ none then some (false, st)
  else
    match st.newEntry header with
    | none => none
    | some e =>
        if outcomes.fStakeModifier = false then some (false, st)
        else
          let pindexNew := st.nAllocated
          let st := st.insertEntry e
          if outcomes.fIndexCommits = false then some (false, st)
          else
            let best :=
              if st.nBestChainTrust < e.nChainTrust then
                st.setBestThinChain env outcomes.commits header pindexNew
              else some (true, st)
            match best with
            | none => none
            | some (false, st) => some (false, st)
            | some (true, st) =>
                match pruneTo env e.nHeight st.nAllocated st with
                | none => none
                | some st => some (true, st)

def acceptBlockThin (env : ThinEnv) (outcomes : ThinOutcomes) (st : ThinIndex) (header : ThinHeader) :
    Option (Bool × ThinIndex) :=
  if st.mapBlockThinIndex header.hash ≠ none then some (false, st)
  else if st.mapBlockThinIndex header.hashPrevBlock = none then some (false, st)
  else if outcomes.fAccepted = false then some (false, st)
  else st.addToBlockThinIndex env outcomes header

/-! ## Lookups -/

/-- What a walk reads of an entry. -/
def node (st : ThinIndex) (p : Nat) : Option (LinkedChain.Node Nat) :=
  match st.heap p with
  | none => none
  | some e => some ⟨e.pprev, st.pnext p, e.nHeight⟩

/-- The pointer that a lookup starts from, once the one of the last lookup has been compared. -/
def startThin (st : ThinIndex) (nHeight : Int) (pblockindex : Nat) : Option Nat :=
  match st.pblockHeaderIndexFBBHLast with
  | none => some pblockindex
  | some last =>
      match st.heap pblockindex, st.heap last with
      | some e, some eLast =>
          if (nHeight - eLast.nHeight).natAbs < (nHeight - e.nHeight).natAbs then some last else some pblockindex
      | _, _ => none

def findBlockThinByHeight (st : ThinIndex) (nHeight : Int) : Option (Option Nat × ThinIndex) :=
  match if nHeight < st.nBestHeight.tdiv 2 then st.pindexGenesisBlockThin else st.pindexBestHeader with
  | none => some (none, st)
  | some pblockindex =>
      match st.startThin nHeight pblockindex with
      | none => none
      | some p =>
          match LinkedChain.find st.node nHeight st.nAllocated p with
          | none => none
          | some none => some (none, st)
          | some (some p) => some (some p, { st with pblockHeaderIndexFBBHLast := some p })

/-! ## The start -/

def empty : ThinIndex where
  heap _ := none
  pnext _ := none
  nAllocated := 0
  mapBlockThinIndex _ := none
  pindexGenesisBlockThin := none
  pindexRear := none
  pindexBestHeader := none
  hashBestChain := 0
  nBestHeight := -1
  nBestChainTrust := 0
  pblockHeaderIndexFBBHLast := none

/-- The end of `LoadBlockIndex`, when there is nothing on disk. -/
def loadGenesis (env : ThinEnv) (outcomes : ThinOutcomes) : Option ThinIndex :=
  match empty.addToBlockThinIndex env outcomes ⟨env.hashGenesisBlock, 0, env.nGenesisTrust⟩ with
  | some (true, st) => some { st with pindexRear := st.pindexGenesisBlockThin }
  | _ => none

end ThinIndex

/-!
## The main chain of a thin node

The entries of the index form a tree, and from the best header back to the rear runs a chain of it whose links
forward are the only ones.
-/

open LinkedChain

namespace ThinIndex

/-- `q` is the `pprev` of `p`. -/
def Parent (heap : Nat → Option ThinEntry) (p q : Nat) : Prop := ∃ e, heap p = some e ∧ e.pprev = some q

/-- `q` is reached from `p` by `pprev`. -/
def Ancestor (heap : Nat → Option ThinEntry) : Nat → Nat → Prop := Relation.ReflTransGen (Parent heap)

def OnMainChain (st : ThinIndex) (p : Nat) : Prop :=
  ∃ pindexBest, st.pindexBestHeader = some pindexBest ∧ Ancestor st.heap pindexBest p

/-- The entries are filed under their hashes, allocated after their `pprev`, and one above it. -/
structure Tree (st : ThinIndex) : Prop where
  filed : ∀ hash p, st.mapBlockThinIndex hash = some p ↔ ∃ e, st.heap p = some e ∧ e.hashBlock = hash
  allocated : ∀ p e, st.heap p = some e → p < st.nAllocated
  earlier : ∀ p q, Parent st.heap p q → q < p
  graded : ∀ p q e e', st.heap p = some e → e.pprev = some q → st.heap q = some e' → e.nHeight = e'.nHeight + 1

/-- The globals are those of the best header. -/
def Names (st : ThinIndex) (pindexBest : Nat) : Prop :=
  st.pindexBestHeader = some pindexBest ∧ ∃ e, st.heap pindexBest = some e ∧
    e.hashBlock = st.hashBestChain ∧ e.nHeight = st.nBestHeight ∧ e.nChainTrust = st.nBestChainTrust

/-- The chain, from the best header back to the rear. -/
structure MainChain (st : ThinIndex) (chain : List Nat) : Prop where
  tree : Tree st
  best : ∃ pindexBest rest, chain = pindexBest :: rest ∧ st.Names pindexBest
  linked : chain.IsChain (Above st.node)
  rear : ∃ pindexRear e, chain.getLast? = some pindexRear ∧ st.pindexRear = some pindexRear ∧
    st.heap pindexRear = some e ∧ e.pprev = none
  pnext : st.pnext = successor chain
  genesis : ∃ p, st.pindexGenesisBlockThin = some p ∧ p < st.nAllocated ∧
    (st.pindexRear = some p ∨ st.heap p = none)

variable {st st' : ThinIndex} {chain l : List Nat} {p q : Nat} {e : ThinEntry}

/-! ## Nodes and entries -/

theorem node_of_heap (h : st.heap p = some e) : st.node p = some ⟨e.pprev, st.pnext p, e.nHeight⟩ := by
  rw [node, h]

theorem heap_of_node {n : LinkedChain.Node Nat} (h : st.node p = some n) :
    ∃ e, st.heap p = some e ∧ n = ⟨e.pprev, st.pnext p, e.nHeight⟩ := by
  rw [node] at h
  cases he : st.heap p with
  | none => simp [he] at h
  | some e =>
      rw [he] at h
      exact ⟨e, rfl, (Option.some.inj h).symm⟩

theorem hasHeight_iff {h : Int} : HasHeight st.node h p ↔ ∃ e, st.heap p = some e ∧ e.nHeight = h := by
  constructor
  · rintro ⟨n, hn, rfl⟩
    obtain ⟨e, he, rfl⟩ := heap_of_node hn
    exact ⟨e, he, rfl⟩
  · rintro ⟨e, he, rfl⟩
    exact ⟨_, node_of_heap he, rfl⟩

theorem above_iff : Above st.node p q ↔ ∃ e e', st.heap p = some e ∧ e.pprev = some q ∧
    st.heap q = some e' ∧ e.nHeight = e'.nHeight + 1 := by
  constructor
  · rintro ⟨n, n', hn, hprev, hn', hheight⟩
    obtain ⟨e, he, rfl⟩ := heap_of_node hn
    obtain ⟨e', he', rfl⟩ := heap_of_node hn'
    exact ⟨e, e', he, hprev, he', hheight⟩
  · rintro ⟨e, e', he, hprev, he', hheight⟩
    exact ⟨_, _, node_of_heap he, hprev, node_of_heap he', hheight⟩

theorem linked_of_heap_eq (st st' : ThinIndex) (hheap : st'.heap = st.heap) (h : l.IsChain (Above st.node)) :
    l.IsChain (Above st'.node) := by
  refine h.imp fun p q habove => ?_
  obtain ⟨e, e', he, hprev, he', hheight⟩ := above_iff.mp habove
  rw [← hheap] at he he'
  exact above_iff.mpr ⟨e, e', he, hprev, he', hheight⟩

theorem parent_of_above (h : Above st.node p q) : Parent st.heap p q := by
  obtain ⟨e, e', he, hprev, -⟩ := above_iff.mp h
  exact ⟨e, he, hprev⟩

theorem Parent.unique {heap : Nat → Option ThinEntry} {r : Nat} (h : Parent heap p q) (h' : Parent heap p r) :
    q = r := by
  obtain ⟨e, he, hprev⟩ := h
  obtain ⟨e', he', hprev'⟩ := h'
  rw [he] at he'
  cases he'
  rw [hprev] at hprev'
  exact Option.some.inj hprev'

namespace Tree

theorem above (h : Tree st) (hparent : Parent st.heap p q) (hq : ∃ e, st.heap q = some e) :
    Above st.node p q := by
  obtain ⟨e, he, hprev⟩ := hparent
  obtain ⟨e', he'⟩ := hq
  exact above_iff.mpr ⟨e, e', he, hprev, he', h.graded p q e e' he hprev he'⟩

theorem nodeGraded (h : Tree st) : Graded st.node := by
  intro p q n n' hn hprev hn'
  obtain ⟨e, he, rfl⟩ := heap_of_node hn
  obtain ⟨e', he', rfl⟩ := heap_of_node hn'
  exact h.graded p q e e' he hprev he'

theorem filed_of_heap (h : Tree st) (he : st.heap p = some e) : st.mapBlockThinIndex e.hashBlock = some p :=
  (h.filed e.hashBlock p).mpr ⟨e, he, rfl⟩

theorem ancestor_le (h : Tree st) (hpath : Ancestor st.heap p q) : q ≤ p := by
  induction hpath with
  | refl => exact le_rfl
  | tail _ hparent ih => exact (h.earlier _ _ hparent).le.trans ih

end Tree

/-! ## The chain -/

theorem alive_of_isChain (hl : l.IsChain (Above st.node)) (hlast : ∀ p ∈ l.getLast?, ∃ e, st.heap p = some e)
    (hp : p ∈ l) : ∃ e, st.heap p = some e := by
  induction l with
  | nil => cases hp
  | cons a l ih =>
      cases l with
      | nil =>
          obtain rfl := List.mem_singleton.mp hp
          exact hlast p rfl
      | cons b l =>
          obtain ⟨hab, hrest⟩ := List.isChain_cons_cons.mp hl
          rcases List.mem_cons.mp hp with rfl | hp
          · obtain ⟨e, he, -⟩ := parent_of_above hab
            exact ⟨e, he⟩
          · exact ih hrest (by simpa using hlast) hp

/-- A chain is not longer than there were allocations. -/
theorem Tree.length_le (h : Tree st) (hl : l.IsChain (Above st.node))
    (halive : ∀ p ∈ l, ∃ e, st.heap p = some e) : l.length ≤ st.nAllocated := by
  have hnodup : l.Nodup := nodup_of_isChain hl fun p hp => by
    obtain ⟨e, he⟩ := halive p hp
    exact ⟨e.nHeight, hasHeight_iff.mpr ⟨e, he, rfl⟩⟩
  have hsub : l ⊆ List.range st.nAllocated := fun p hp => by
    obtain ⟨e, he⟩ := halive p hp
    exact List.mem_range.mpr (h.allocated p e he)
  have hlength := (List.subperm_of_subset hnodup hsub).length_le
  rwa [List.length_range] at hlength

namespace MainChain

theorem alive (h : MainChain st chain) (hp : p ∈ chain) : ∃ e, st.heap p = some e := by
  refine alive_of_isChain h.linked ?_ hp
  obtain ⟨pindexRear, e, hlast, -, he, -⟩ := h.rear
  intro p hp
  rw [hlast] at hp
  cases hp
  exact ⟨e, he⟩

theorem nodup (h : MainChain st chain) : chain.Nodup := by
  refine nodup_of_isChain h.linked fun p hp => ?_
  obtain ⟨e, he⟩ := h.alive hp
  exact ⟨e.nHeight, hasHeight_iff.mpr ⟨e, he, rfl⟩⟩

theorem lt_nAllocated (h : MainChain st chain) (hp : p ∈ chain) : p < st.nAllocated := by
  obtain ⟨e, he⟩ := h.alive hp
  exact h.tree.allocated p e he

theorem length_le (h : MainChain st chain) : chain.length ≤ st.nAllocated :=
  h.tree.length_le h.linked fun _ => h.alive

theorem parents (h : MainChain st chain) : chain.IsChain (Parent st.heap) :=
  h.linked.imp fun _ _ => parent_of_above

/-- The rear is the only entry of the chain without a `pprev`. -/
theorem not_parent_last (h : MainChain st chain) : ∀ p ∈ chain.getLast?, ∀ q, ¬ Parent st.heap p q := by
  obtain ⟨pindexRear, e, hlast, -, he, hprev⟩ := h.rear
  intro p hp q hparent
  rw [hlast] at hp
  cases hp
  obtain ⟨e', he', hprev'⟩ := hparent
  rw [he] at he'
  cases he'
  rw [hprev] at hprev'
  cases hprev'

/-- A `pprev` of the chain is in the chain. -/
theorem parent_mem (h : MainChain st chain) (hp : p ∈ chain) (hparent : Parent st.heap p q) : q ∈ chain := by
  have hchain := h.parents
  have hlast := h.not_parent_last
  clear h
  induction chain with
  | nil => cases hp
  | cons a chain ih =>
      cases chain with
      | nil =>
          obtain rfl := List.mem_singleton.mp hp
          exact absurd hparent (hlast p rfl q)
      | cons b chain =>
          obtain ⟨hab, hrest⟩ := List.isChain_cons_cons.mp hchain
          rcases List.mem_cons.mp hp with rfl | hp
          · rw [hparent.unique hab]
            exact List.mem_cons_of_mem _ List.mem_cons_self
          · exact List.mem_cons_of_mem a (ih hp hrest (by simpa using hlast))

theorem ancestor_mem (h : MainChain st chain) (hp : p ∈ chain) (hpath : Ancestor st.heap p q) : q ∈ chain := by
  induction hpath with
  | refl => exact hp
  | tail _ hparent ih => exact h.parent_mem ih hparent

theorem mem_iff (h : MainChain st chain) : p ∈ chain ↔ st.OnMainChain p := by
  obtain ⟨pindexBest, rest, rfl, hbest, -⟩ := h.best
  constructor
  · intro hp
    refine ⟨pindexBest, hbest, ?_⟩
    exact h.parents.induction (Ancestor st.heap pindexBest) _ (fun _ _ hparent hpath => hpath.tail hparent)
      (fun _ => .refl) p hp
  · rintro ⟨pindexBest', hbest', hpath⟩
    rw [hbest] at hbest'
    cases hbest'
    exact h.ancestor_mem List.mem_cons_self hpath

end MainChain

end ThinIndex

end ProCurrency
