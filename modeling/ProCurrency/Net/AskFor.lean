import Mathlib.Data.Finset.Card
import Mathlib.Logic.Function.Basic
import ProCurrency.Net.LimitedMap

/-!
# Requests to peers

`CNode::AskFor` (net.h) and the `getdata` part of `SendMessages` (main.cpp), for all peers at once, as they share
`mapAlreadyAskedFor` and `nLastTime`. Times are in microseconds and do not overflow.
-/

namespace ProCurrency

inductive NodeMode
  | full
  | thin
  | unknown
deriving DecidableEq

structure CInv where
  type : Int
  hash : Nat
deriving DecidableEq

def maxInvSz : Nat := 50000

def mapAskForMaxSz : Nat := maxInvSz

/-- The fields of a `CNode` that keep its requests. -/
structure AskNode where
  setAskFor : Finset Nat := ∅
  mapAskFor : List (Int × CInv) := []

structure AskState where
  peers : Nat → AskNode := fun _ => {}
  mapAlreadyAskedFor : LimitedMap CInv Int := { nMaxSize := maxInvSz }
  nLastTime : Int := 0

namespace AskState

/-- `AskFor(inv, fImmediateRetry)` of a peer, when `GetTime()` is `nTime`. -/
def askFor (s : AskState) (peer : Nat) (inv : CInv) (fImmediateRetry : Bool) (nTime : Int) : Option AskState :=
  let node := s.peers peer
  if node.mapAskFor.length > mapAskForMaxSz then some s
  else if inv.hash ∈ node.setAskFor then some s
  else
    let it := LimitedMap.find s.mapAlreadyAskedFor.map inv
    let nNow := max ((nTime - 1) * 1000000) (s.nLastTime + 1)
    let nRequestTime := if fImmediateRetry then nNow else max (it.getD 0 + 2 * 60 * 1000000) nNow
    let asked := match it with
      | some _ => s.mapAlreadyAskedFor.update inv nRequestTime
      | none => s.mapAlreadyAskedFor.insert (inv, nRequestTime)
    asked.map fun mapAlreadyAskedFor =>
      { peers := Function.update s.peers peer
          { setAskFor := insert inv.hash node.setAskFor
            mapAskFor := LimitedMap.insertSorted (nRequestTime, inv) node.mapAskFor }
        mapAlreadyAskedFor
        nLastTime := nNow }

end AskState

/-- The last `getdata`, if there is anything to ask for. -/
def lastGetData (vGetData : List CInv) : List (List CInv) := if vGetData.isEmpty then [] else [vGetData]

/-- The loop over `mapAskFor`, with what it leaves of the fields and the `getdata` messages that are sent. -/
def getDataLoop (wanted : CInv → Bool) (nNow : Int) (setAskFor : Finset Nat) (vGetData : List CInv) :
    List (Int × CInv) → AskNode × List (List CInv)
  | [] => ({ setAskFor }, lastGetData vGetData)
  | (nTime, inv) :: mapAskFor =>
      if nTime ≤ nNow then
        if wanted inv then
          let vGetData := vGetData ++ [inv]
          if vGetData.length ≥ 1000 then
            let rest := getDataLoop wanted nNow setAskFor [] mapAskFor
            (rest.1, vGetData :: rest.2)
          else getDataLoop wanted nNow (setAskFor.erase inv.hash) vGetData mapAskFor
        else getDataLoop wanted nNow setAskFor vGetData mapAskFor
      else ({ setAskFor, mapAskFor := (nTime, inv) :: mapAskFor }, lastGetData vGetData)

/-- What the node is, and what it has, when it comes to an item. -/
structure Holdings where
  nNodeMode : NodeMode
  alreadyHave : CInv → Bool
  alreadyHaveThin : CInv → Bool

/-- Whether an item is asked for. -/
def Holdings.wanted (holdings : Holdings) (inv : CInv) : Bool :=
  holdings.nNodeMode = .full && !holdings.alreadyHave inv || holdings.nNodeMode = .thin && !holdings.alreadyHaveThin inv

/-- The `getdata` part of `SendMessages` to a peer. -/
def AskState.sendGetData (s : AskState) (peer : Nat) (holdings : Holdings) (nTime : Int) :
    AskState × List (List CInv) :=
  let node := s.peers peer
  let pass := getDataLoop holdings.wanted (nTime * 1000000) node.setAskFor [] node.mapAskFor
  ({ s with peers := Function.update s.peers peer pass.1 }, pass.2)

/-! ## Runs -/

inductive AskEvent
  | askFor (peer : Nat) (inv : CInv) (fImmediateRetry : Bool) (nTime : Int)
  | sendMessages (peer : Nat) (holdings : Holdings) (nTime : Int)
  /-- A peer sends the item: `mapAlreadyAskedFor.erase(inv)`. -/
  | answer (peer : Nat) (inv : CInv)

/-- The state with the hashes that are requested from each peer and have not come, which the code does not keep. -/
structure AskRun where
  state : AskState := {}
  awaited : Nat → Finset Nat := fun _ => ∅

namespace AskEvent

def step (e : AskEvent) (s : AskRun) : Option (AskRun × Unit) :=
  match e with
  | askFor peer inv fImmediateRetry nTime =>
      (s.state.askFor peer inv fImmediateRetry nTime).map fun state => ({ s with state }, ())
  | sendMessages peer holdings nTime =>
      let pass := s.state.sendGetData peer holdings nTime
      let requested := (pass.2.flatten.map CInv.hash).toFinset
      some ({ state := pass.1, awaited := Function.update s.awaited peer (s.awaited peer ∪ requested) }, ())
  | answer peer inv =>
      (s.state.mapAlreadyAskedFor.erase inv).map fun mapAlreadyAskedFor =>
        ({ state := { s.state with mapAlreadyAskedFor }
           awaited := Function.update s.awaited peer ((s.awaited peer).erase inv.hash) }, ())

end AskEvent

/-! ## The loop of `SendMessages` -/

section Loop

variable {wanted : CInv → Bool} {nNow : Int} {setAskFor : Finset Nat} {vGetData : List CInv}
  {mapAskFor : List (Int × CInv)}

def entryHash (e : Int × CInv) : Nat := e.2.hash

/-- What the loop does: it takes a first part of the queue, which is due, and nothing but its hashes leaves the set. -/
structure Pass (wanted : CInv → Bool) (nNow : Int) (setAskFor : Finset Nat) (vGetData : List CInv)
    (mapAskFor : List (Int × CInv)) (result : AskNode × List (List CInv)) (taken : List (Int × CInv)) : Prop where
  queue : mapAskFor = taken ++ result.1.mapAskFor
  due : ∀ e ∈ taken, e.1 ≤ nNow
  rest : ∀ e, result.1.mapAskFor.head? = some e → nNow < e.1
  sent : result.2.flatten = vGetData ++ (taken.filter fun e => wanted e.2).map Prod.snd
  sub : result.1.setAskFor ⊆ setAskFor
  kept : ∀ h ∈ setAskFor, (∀ e ∈ taken, wanted e.2 = true → e.2.hash ≠ h) → h ∈ result.1.setAskFor

theorem flatten_lastGetData (vGetData : List CInv) : (lastGetData vGetData).flatten = vGetData := by
  cases vGetData <;> simp [lastGetData]

theorem getDataLoop_pass (wanted : CInv → Bool) (nNow : Int) (setAskFor : Finset Nat) (vGetData : List CInv)
    (mapAskFor : List (Int × CInv)) :
    ∃ taken, Pass wanted nNow setAskFor vGetData mapAskFor
      (getDataLoop wanted nNow setAskFor vGetData mapAskFor) taken := by
  induction mapAskFor generalizing setAskFor vGetData with
  | nil =>
      refine ⟨[], rfl, by simp, by simp [getDataLoop], ?_, fun _ h => h, fun h hmem _ => hmem⟩
      rw [getDataLoop, flatten_lastGetData]
      simp
  | cons e mapAskFor ih =>
      obtain ⟨nTime, inv⟩ := e
      rw [getDataLoop]
      dsimp only
      split_ifs with hdue hwanted hfull
      · obtain ⟨taken, h⟩ := ih setAskFor []
        refine ⟨(nTime, inv) :: taken, ?_, ?_, h.rest, ?_, h.sub, fun hash hmem hother => ?_⟩
        · rw [List.cons_append, ← h.queue]
        · exact List.forall_mem_cons.2 ⟨hdue, h.due⟩
        · dsimp only
          rw [List.flatten_cons, h.sent, List.filter_cons_of_pos (by simpa using hwanted)]
          simp
        · exact h.kept hash hmem fun e he => hother e (List.mem_cons_of_mem _ he)
      · obtain ⟨taken, h⟩ := ih (setAskFor.erase inv.hash) (vGetData ++ [inv])
        refine ⟨(nTime, inv) :: taken, ?_, ?_, h.rest, ?_, h.sub.trans (Finset.erase_subset _ _),
          fun hash hmem hother => ?_⟩
        · rw [List.cons_append, ← h.queue]
        · exact List.forall_mem_cons.2 ⟨hdue, h.due⟩
        · rw [h.sent, List.filter_cons_of_pos (by simpa using hwanted)]
          simp
        · obtain ⟨hne, hother⟩ := List.forall_mem_cons.1 hother
          exact h.kept hash (Finset.mem_erase.2 ⟨(hne hwanted).symm, hmem⟩) hother
      · obtain ⟨taken, h⟩ := ih setAskFor vGetData
        refine ⟨(nTime, inv) :: taken, ?_, ?_, h.rest, ?_, h.sub, fun hash hmem hother => ?_⟩
        · rw [List.cons_append, ← h.queue]
        · exact List.forall_mem_cons.2 ⟨hdue, h.due⟩
        · rw [h.sent, List.filter_cons_of_neg (by simpa using hwanted)]
        · exact h.kept hash hmem fun e he => hother e (List.mem_cons_of_mem _ he)
      · refine ⟨[], rfl, by simp, ?_, ?_, fun _ h => h, fun h hmem _ => hmem⟩
        · intro e he
          cases he
          exact lt_of_not_ge hdue
        · dsimp only
          rw [flatten_lastGetData]
          simp

/-- The first item that is asked for is no longer in the set. -/
theorem getDataLoop_first {inv : CInv} {nTime : Int} (hdue : nTime ≤ nNow) (hwanted : wanted inv = true) :
    inv.hash ∉ (getDataLoop wanted nNow setAskFor [] ((nTime, inv) :: mapAskFor)).1.setAskFor := by
  rw [getDataLoop, if_pos hdue, if_pos hwanted]
  dsimp only
  rw [if_neg (by simp)]
  obtain ⟨taken, h⟩ := getDataLoop_pass wanted nNow (setAskFor.erase inv.hash) [inv] mapAskFor
  exact fun hmem => Finset.notMem_erase _ _ (h.sub hmem)

end Loop

/-! ## One event -/

/-- What holds of the requests to a peer in any run. -/
structure AskNode.Queues (node : AskNode) : Prop where
  sorted : node.mapAskFor.Pairwise fun e e' => e.1 ≤ e'.1
  once : (node.mapAskFor.map entryHash).Nodup
  sub : ∀ e ∈ node.mapAskFor, e.2.hash ∈ node.setAskFor
  bounded : node.mapAskFor.length ≤ mapAskForMaxSz + 1

/-- `mapAlreadyAskedFor` never comes to its maximum. -/
def AskState.Shared (s : AskState) : Prop :=
  s.mapAlreadyAskedFor.Indexed ∧ s.mapAlreadyAskedFor.nMaxSize = maxInvSz ∧
    s.mapAlreadyAskedFor.map.length < maxInvSz

namespace AskNode

variable {node : AskNode}

theorem Queues.ask (h : node.Queues) {nTime : Int} {inv : CInv} (hlength : node.mapAskFor.length ≤ mapAskForMaxSz)
    (hnew : inv.hash ∉ node.setAskFor) :
    Queues { setAskFor := insert inv.hash node.setAskFor
             mapAskFor := LimitedMap.insertSorted (nTime, inv) node.mapAskFor } := by
  have hperm := LimitedMap.insertSorted_perm (nTime, inv) node.mapAskFor
  refine ⟨LimitedMap.insertSorted_sorted _ h.sorted, ?_, fun e he => ?_, ?_⟩
  · refine (hperm.map entryHash).nodup_iff.2 (List.nodup_cons.2 ⟨fun hmem => ?_, h.once⟩)
    obtain ⟨e, he, hhash⟩ := List.mem_map.1 hmem
    have hhash : e.2.hash = inv.hash := hhash
    exact hnew (hhash ▸ h.sub e he)
  · rcases List.mem_cons.1 (hperm.mem_iff.1 he) with rfl | he
    · exact Finset.mem_insert_self _ _
    · exact Finset.mem_insert_of_mem (h.sub e he)
  · rw [hperm.length_eq, List.length_cons]
    exact Nat.succ_le_succ hlength

variable {wanted : CInv → Bool} {nNow : Int} {result : AskNode × List (List CInv)} {taken : List (Int × CInv)}

theorem Queues.pass (h : node.Queues) (hpass : Pass wanted nNow node.setAskFor [] node.mapAskFor result taken) :
    result.1.Queues := by
  obtain ⟨hqueue, _, _, _, _, hkept⟩ := hpass
  have honce := h.once
  rw [hqueue, List.map_append] at honce
  have hsuffix : result.1.mapAskFor.Sublist node.mapAskFor := hqueue ▸ List.sublist_append_right _ _
  refine ⟨h.sorted.sublist hsuffix, honce.of_append_right, fun e he => ?_, hsuffix.length_le.trans h.bounded⟩
  refine hkept _ (h.sub e (hsuffix.subset he)) fun e' he' _ hhash => ?_
  exact List.disjoint_of_nodup_append honce (List.mem_map.2 ⟨e', he', hhash⟩) (List.mem_map.2 ⟨e, he, rfl⟩)

end AskNode

namespace AskState

variable {s : AskState}

theorem Shared.asked (h : s.Shared) (inv : CInv) (nRequestTime : Int) :
    ∃ asked, (match LimitedMap.find s.mapAlreadyAskedFor.map inv with
      | some _ => s.mapAlreadyAskedFor.update inv nRequestTime
      | none => s.mapAlreadyAskedFor.insert (inv, nRequestTime)) = some asked ∧ asked.Indexed ∧
        asked.nMaxSize = maxInvSz ∧ asked.map.length < maxInvSz := by
  obtain ⟨hindexed, hn, hlt⟩ := h
  cases LimitedMap.find s.mapAlreadyAskedFor.map inv with
  | some _ =>
      obtain ⟨asked, hasked, h', hn', hle⟩ := hindexed.update inv nRequestTime
      exact ⟨asked, hasked, h', hn'.trans hn, lt_of_le_of_lt hle hlt⟩
  | none =>
      obtain ⟨asked, hasked, h', hn', hlt'⟩ := hindexed.insert (hn ▸ by decide) (hn ▸ hlt) (inv, nRequestTime)
      exact ⟨asked, hasked, h', hn'.trans hn, hn ▸ hlt'⟩

theorem Shared.askFor (h : s.Shared) (peer : Nat) (inv : CInv) (fImmediateRetry : Bool) (nTime : Int) :
    ∃ s', s.askFor peer inv fImmediateRetry nTime = some s' ∧ s'.Shared ∧
      ((mapAskForMaxSz < (s.peers peer).mapAskFor.length ∨ inv.hash ∈ (s.peers peer).setAskFor) ∧ s'.peers = s.peers ∨
        (s.peers peer).mapAskFor.length ≤ mapAskForMaxSz ∧ inv.hash ∉ (s.peers peer).setAskFor ∧
          ∃ nRequestTime, s'.peers = Function.update s.peers peer
            { setAskFor := insert inv.hash (s.peers peer).setAskFor
              mapAskFor := LimitedMap.insertSorted (nRequestTime, inv) (s.peers peer).mapAskFor }) := by
  rw [AskState.askFor]
  dsimp only
  by_cases hlength : (s.peers peer).mapAskFor.length > mapAskForMaxSz
  · rw [if_pos hlength]
    exact ⟨s, rfl, h, .inl ⟨.inl hlength, rfl⟩⟩
  rw [if_neg hlength]
  by_cases hmem : inv.hash ∈ (s.peers peer).setAskFor
  · rw [if_pos hmem]
    exact ⟨s, rfl, h, .inl ⟨.inr hmem, rfl⟩⟩
  · rw [if_neg hmem]
    obtain ⟨asked, hasked, hindexed, hn, hlt⟩ := h.asked inv (if fImmediateRetry = true then
      max ((nTime - 1) * 1000000) (s.nLastTime + 1)
      else max ((LimitedMap.find s.mapAlreadyAskedFor.map inv).getD 0 + 2 * 60 * 1000000)
        (max ((nTime - 1) * 1000000) (s.nLastTime + 1)))
    rw [hasked]
    exact ⟨_, rfl, ⟨hindexed, hn, hlt⟩, .inr ⟨Nat.le_of_not_lt hlength, hmem, _, rfl⟩⟩

end AskState

theorem AskEvent.step_answer {s : AskRun} (peer : Nat) {inv : CInv} {asked : LimitedMap CInv Int}
    (h : s.state.mapAlreadyAskedFor.erase inv = some asked) :
    (AskEvent.answer peer inv).step s =
      some ({ state := { s.state with mapAlreadyAskedFor := asked }
              awaited := Function.update s.awaited peer ((s.awaited peer).erase inv.hash) }, ()) := by
  rw [step, h]
  rfl

/-- What holds in every state of a run. -/
def AskRun.Valid (s : AskRun) : Prop := s.state.Shared ∧ ∀ peer, (s.state.peers peer).Queues

theorem queues_update {peers : Nat → AskNode} (h : ∀ peer, (peers peer).Queues) {peer : Nat} {node : AskNode}
    (hnode : node.Queues) (peer' : Nat) : (Function.update peers peer node peer').Queues := by
  rcases Decidable.em (peer' = peer) with rfl | hne
  · rwa [Function.update_self]
  · rw [Function.update_of_ne hne]
    exact h peer'

theorem AskRun.valid_new : ({} : AskRun).Valid :=
  ⟨⟨⟨List.nodup_nil, List.Perm.refl _, List.Pairwise.nil⟩, rfl, by decide⟩, fun _ =>
    ⟨List.Pairwise.nil, List.nodup_nil, by simp, by simp⟩⟩

theorem AskRun.Valid.step {s : AskRun} (h : s.Valid) (e : AskEvent) : ∃ s', e.step s = some (s', ()) ∧ s'.Valid := by
  obtain ⟨hshared, hqueues⟩ := h
  cases e with
  | askFor peer inv fImmediateRetry nTime =>
      obtain ⟨state, hask, hshared', hpeers⟩ := hshared.askFor peer inv fImmediateRetry nTime
      refine ⟨{ s with state }, by rw [AskEvent.step, hask]; rfl, hshared', fun peer' => ?_⟩
      rcases hpeers with ⟨_, hsame⟩ | ⟨hlength, hnew, nRequestTime, hpeers⟩
      · dsimp only
        rw [hsame]
        exact hqueues peer'
      · dsimp only
        rw [hpeers]
        exact queues_update hqueues ((hqueues peer).ask hlength hnew) peer'
  | sendMessages peer holdings nTime =>
      obtain ⟨taken, hpass⟩ := getDataLoop_pass holdings.wanted (nTime * 1000000) (s.state.peers peer).setAskFor []
        (s.state.peers peer).mapAskFor
      exact ⟨_, rfl, hshared, queues_update hqueues ((hqueues peer).pass hpass)⟩
  | answer peer inv =>
      obtain ⟨asked, herase, hindexed, hn, hle⟩ := hshared.1.erase inv
      have hstep := AskEvent.step_answer (s := s) peer herase
      exact ⟨_, hstep, ⟨hindexed, hn.trans hshared.2.1, lt_of_le_of_lt hle hshared.2.2⟩, hqueues⟩

/-! ## The set of the hashes that are asked for -/

/-- The set has what is queued and what is awaited, and an item has one place in the queue at most. -/
structure AskRun.Bookkept (s : AskRun) (peer : Nat) : Prop where
  members : ∀ h, h ∈ (s.state.peers peer).setAskFor ↔
    h ∈ (s.state.peers peer).mapAskFor.map entryHash ∨ h ∈ s.awaited peer
  once : ((s.state.peers peer).mapAskFor.map entryHash).Nodup
  bounded : (s.state.peers peer).setAskFor.card ≤ mapAskForMaxSz + 1 + (s.awaited peer).card

/-- The event is not one that takes an item off the queue of the peer. -/
def AskEvent.TakesNone (peer : Nat) (s : AskRun) : AskEvent → Prop
  | sendMessages peer' _ nTime =>
      peer' = peer → ∀ e ∈ (s.state.peers peer).mapAskFor, nTime * 1000000 < e.1
  | _ => True

theorem AskRun.Valid.bookkept {s : AskRun} (h : s.Valid) {peer : Nat}
    (hmembers : ∀ h, h ∈ (s.state.peers peer).setAskFor ↔
      h ∈ (s.state.peers peer).mapAskFor.map entryHash ∨ h ∈ s.awaited peer) : s.Bookkept peer := by
  refine ⟨hmembers, (h.2 peer).once, ?_⟩
  have hsub : (s.state.peers peer).setAskFor ⊆
      ((s.state.peers peer).mapAskFor.map entryHash).toFinset ∪ s.awaited peer := by
    intro hash hmem
    simpa using (hmembers hash).1 hmem
  have hqueue := (List.toFinset_card_le ((s.state.peers peer).mapAskFor.map entryHash)).trans
    (List.length_map _).le
  have hcard := (Finset.card_le_card hsub).trans (Finset.card_union_le _ _)
  have hbounded := (h.2 peer).bounded
  omega

theorem getDataLoop_idle {wanted : CInv → Bool} {nNow : Int} {setAskFor : Finset Nat} {mapAskFor : List (Int × CInv)}
    (h : ∀ e ∈ mapAskFor, nNow < e.1) :
    getDataLoop wanted nNow setAskFor [] mapAskFor = ({ setAskFor, mapAskFor }, []) := by
  cases mapAskFor with
  | nil => rfl
  | cons e mapAskFor =>
      rw [getDataLoop, if_neg (Int.not_le.2 (h e List.mem_cons_self))]
      rfl

theorem AskEvent.step_idle {s : AskRun} {peer : Nat} {holdings : Holdings} {nTime : Int}
    (h : ∀ e ∈ (s.state.peers peer).mapAskFor, nTime * 1000000 < e.1) :
    (AskEvent.sendMessages peer holdings nTime).step s = some (s, ()) := by
  rw [step, AskState.sendGetData, getDataLoop_idle h]
  simp

/-- Whether the first item that is taken is asked for or not, the set is wrong about it. -/
theorem AskNode.Queues.not_members {node : AskNode} (h : node.Queues) (wanted : CInv → Bool) {nNow : Int}
    {e : Int × CInv} (he : e ∈ node.mapAskFor) (hdue : e.1 ≤ nNow) :
    ¬ ∀ h, h ∈ (getDataLoop wanted nNow node.setAskFor [] node.mapAskFor).1.setAskFor ↔
      h ∈ (getDataLoop wanted nNow node.setAskFor [] node.mapAskFor).1.mapAskFor.map entryHash ∨
        h ∈ (getDataLoop wanted nNow node.setAskFor [] node.mapAskFor).2.flatten.map CInv.hash := by
  intro hmembers
  obtain ⟨setAskFor, mapAskFor⟩ := node
  obtain ⟨hsorted, honce, hsub, _⟩ := h
  dsimp only at *
  obtain ⟨first, rest, rfl⟩ := List.exists_cons_of_ne_nil (List.ne_nil_of_mem he)
  have hfirst : first.1 ≤ nNow := by
    rcases List.mem_cons.1 he with rfl | he
    · exact hdue
    · exact le_trans ((List.pairwise_cons.1 hsorted).1 e he) hdue
  obtain ⟨taken, hpass⟩ := getDataLoop_pass wanted nNow setAskFor [] (first :: rest)
  have hcases : ∃ taken', taken = first :: taken' := by
    cases taken with
    | nil =>
        have hlater := hpass.rest first (by rw [← List.nil_append (AskNode.mapAskFor _), ← hpass.queue]; rfl)
        omega
    | cons e' taken' =>
        have hhead := hpass.queue
        rw [List.cons_append, List.cons.injEq] at hhead
        exact ⟨taken', by rw [hhead.1]⟩
  obtain ⟨taken', rfl⟩ := hcases
  have hkeys := honce
  rw [hpass.queue, List.cons_append, List.map_cons, List.map_append, List.nodup_cons] at hkeys
  obtain ⟨hother, _⟩ := hkeys
  by_cases hwanted : wanted first.2 = true
  · refine getDataLoop_first hfirst hwanted ((hmembers first.2.hash).2 (.inr ?_))
    rw [hpass.sent, List.filter_cons_of_pos (p := fun e : Int × CInv => wanted e.2) hwanted]
    simp
  · have hkept := hpass.kept first.2.hash (hsub first List.mem_cons_self) fun e he hwanted' hhash => by
      rcases List.mem_cons.1 he with rfl | he
      · exact hwanted hwanted'
      · exact hother (List.mem_append_left _ (List.mem_map.2 ⟨e, he, hhash⟩))
    rcases (hmembers first.2.hash).1 hkept with hqueued | hsent
    · exact hother (List.mem_append_right _ hqueued)
    · rw [hpass.sent, List.filter_cons_of_neg (p := fun e : Int × CInv => wanted e.2) hwanted, List.nil_append,
        List.map_map] at hsent
      obtain ⟨e, he, hhash⟩ := List.mem_map.1 hsent
      exact hother (List.mem_append_left _ (List.mem_map.2 ⟨e, List.mem_of_mem_filter he, hhash⟩))

/-- Nothing is awaited, and the set is right. -/
def AskRun.Idle (s : AskRun) (peer : Nat) : Prop := s.Valid ∧ s.awaited peer = ∅ ∧ s.Bookkept peer

section Steps

variable {s s' : AskRun} {e : AskEvent} {peer : Nat} {o : Unit}

theorem AskRun.Idle.step (h : s.Idle peer) (he : e.TakesNone peer s) (hstep : e.step s = some (s', o)) :
    s'.Idle peer := by
  obtain ⟨hvalid, hawaited, hkept⟩ := h
  obtain ⟨s'', hstep', hvalid'⟩ := hvalid.step e
  rw [hstep] at hstep'
  cases hstep'
  suffices hpeer : s'.awaited peer = ∅ ∧ ∀ h, h ∈ (s'.state.peers peer).setAskFor ↔
      h ∈ (s'.state.peers peer).mapAskFor.map entryHash ∨ h ∈ s'.awaited peer from
    ⟨hvalid', hpeer.1, hvalid'.bookkept hpeer.2⟩
  cases e with
  | askFor peer' inv fImmediateRetry nTime =>
      obtain ⟨state, hask, _, hpeers⟩ := hvalid.1.askFor peer' inv fImmediateRetry nTime
      rw [AskEvent.step, hask] at hstep
      cases hstep
      refine ⟨hawaited, fun h => ?_⟩
      dsimp only
      rcases hpeers with ⟨_, hsame⟩ | ⟨_, _, nRequestTime, hpeers⟩
      · rw [hsame]
        exact hkept.members h
      · rw [hpeers]
        rcases Decidable.em (peer = peer') with rfl | hne
        · have hperm := (LimitedMap.insertSorted_perm (nRequestTime, inv) (s.state.peers peer).mapAskFor).map entryHash
          rw [Function.update_self, Finset.mem_insert, hkept.members h, hperm.mem_iff, List.map_cons, List.mem_cons,
            or_assoc]
          rfl
        · rw [Function.update_of_ne hne]
          exact hkept.members h
  | sendMessages peer' holdings nTime =>
      rcases Decidable.em (peer' = peer) with rfl | hne
      · rw [AskEvent.step_idle (he rfl)] at hstep
        cases hstep
        exact ⟨hawaited, hkept.members⟩
      · cases hstep
        dsimp only [AskState.sendGetData]
        rw [Function.update_of_ne (Ne.symm hne), Function.update_of_ne (Ne.symm hne)]
        exact ⟨hawaited, hkept.members⟩
  | answer peer' inv =>
      obtain ⟨asked, herase, _⟩ := hvalid.1.1.erase inv
      rw [AskEvent.step_answer peer' herase] at hstep
      cases hstep
      dsimp only
      have hawaited' : Function.update s.awaited peer' ((s.awaited peer').erase inv.hash) peer = ∅ := by
        rcases Decidable.em (peer = peer') with rfl | hne
        · rw [Function.update_self, hawaited, Finset.erase_empty]
        · rw [Function.update_of_ne hne, hawaited]
      refine ⟨hawaited', fun h => ?_⟩
      rw [hawaited', hkept.members h, hawaited]

theorem AskRun.Idle.takesNone (h : s.Idle peer) (hstep : e.step s = some (s', o)) (hs' : s'.Bookkept peer) :
    e.TakesNone peer s := by
  obtain ⟨hvalid, hawaited, _⟩ := h
  cases e with
  | askFor peer' inv fImmediateRetry nTime => exact trivial
  | answer peer' inv => exact trivial
  | sendMessages peer' holdings nTime =>
      rintro rfl e he
      by_contra hdue
      have hmembers := hs'.members
      cases hstep
      dsimp only [AskState.sendGetData] at hmembers
      rw [Function.update_self, Function.update_self, hawaited, Finset.empty_union] at hmembers
      refine (hvalid.2 peer').not_members holdings.wanted he (Int.not_lt.1 hdue) fun h => (hmembers h).trans ?_
      rw [List.mem_toFinset]

end Steps

/-- A run always goes on, and the set is right in all of its states exactly as long as nothing is taken off the
queue. -/
theorem askFor_bookkept_iff (peer : Nat) (events : List AskEvent) :
    (∃ s, EventRun.run AskEvent.step events {} = some s ∧ s.Valid) ∧
      (EventRun.Along AskEvent.step (fun _ _ s' _ => s'.Bookkept peer) events {} ↔
        EventRun.Along AskEvent.step (fun s e _ _ => e.TakesNone peer s) events {}) := by
  constructor
  · refine EventRun.run_total AskRun.Valid (fun s e hs _ => ?_) (fun _ _ => trivial)
      AskRun.valid_new
    obtain ⟨s', hstep, hs'⟩ := hs.step e
    exact ⟨s', (), hstep, hs'⟩
  · have hnew : ({} : AskRun).Idle peer := ⟨AskRun.valid_new, rfl, AskRun.valid_new.bookkept (by simp)⟩
    refine EventRun.along_congr_of_invariant (fun s => s.Idle peer) ?_ ?_ hnew
    · exact fun s e s' o hs hstep => ⟨hs.takesNone hstep, fun he => (hs.step he hstep).2.2⟩
    · exact fun s e s' o hs hstep hs' => hs.step (hs.takesNone hstep hs') hstep

/-- A transaction that has come before its turn stays in the set. -/
theorem askFor_held : ¬ ∀ (peer : Nat) (events : List AskEvent),
    EventRun.Along AskEvent.step (fun _ _ s' _ => s'.Bookkept peer) events {} := by
  intro h
  let inv : CInv := { type := 1, hash := 7 }
  let holdings : Holdings := { nNodeMode := .full, alreadyHave := fun _ => true, alreadyHaveThin := fun _ => true }
  obtain ⟨_, hrest⟩ := h 0 [.askFor 0 inv true 2, .sendMessages 0 holdings 3] _ () rfl
  obtain ⟨hkept, _⟩ := hrest _ () rfl
  exact absurd ((hkept.members 7).1 (by decide)) (by decide)

/-! ## Hashes that stay -/

/-- The hash is in the set and not in the queue. -/
def AskRun.Stuck (peer hash : Nat) (s : AskRun) : Prop :=
  s.Valid ∧ hash ∈ (s.state.peers peer).setAskFor ∧ hash ∉ (s.state.peers peer).mapAskFor.map entryHash

theorem AskRun.Stuck.step {s s' : AskRun} {e : AskEvent} {peer hash : Nat} {o : Unit} (h : s.Stuck peer hash)
    (hstep : e.step s = some (s', o)) : s'.Stuck peer hash := by
  obtain ⟨hvalid, hmem, hqueue⟩ := h
  obtain ⟨s'', hstep', hvalid'⟩ := hvalid.step e
  rw [hstep] at hstep'
  cases hstep'
  refine ⟨hvalid', ?_⟩
  cases e with
  | askFor peer' inv fImmediateRetry nTime =>
      obtain ⟨state, hask, _, hpeers⟩ := hvalid.1.askFor peer' inv fImmediateRetry nTime
      rw [AskEvent.step, hask] at hstep
      cases hstep
      dsimp only
      rcases hpeers with ⟨_, hsame⟩ | ⟨_, hnew, nRequestTime, hpeers⟩
      · rw [hsame]
        exact ⟨hmem, hqueue⟩
      · rw [hpeers]
        rcases Decidable.em (peer = peer') with rfl | hne
        · have hperm := (LimitedMap.insertSorted_perm (nRequestTime, inv) (s.state.peers peer).mapAskFor).map entryHash
          rw [Function.update_self]
          refine ⟨Finset.mem_insert_of_mem hmem, fun hqueued => ?_⟩
          rcases List.mem_cons.1 (hperm.mem_iff.1 hqueued) with rfl | hqueued
          · exact hnew hmem
          · exact hqueue hqueued
        · rw [Function.update_of_ne hne]
          exact ⟨hmem, hqueue⟩
  | sendMessages peer' holdings nTime =>
      cases hstep
      dsimp only [AskState.sendGetData]
      rcases Decidable.em (peer = peer') with rfl | hne
      · obtain ⟨taken, hpass⟩ := getDataLoop_pass holdings.wanted (nTime * 1000000) (s.state.peers peer).setAskFor []
          (s.state.peers peer).mapAskFor
        rw [Function.update_self]
        rw [hpass.queue, List.map_append] at hqueue
        refine ⟨hpass.kept hash hmem fun e he _ hhash => ?_, fun hqueued => hqueue (List.mem_append_right _ hqueued)⟩
        exact hqueue (List.mem_append_left _ (List.mem_map.2 ⟨e, he, hhash⟩))
      · rw [Function.update_of_ne hne]
        exact ⟨hmem, hqueue⟩
  | answer peer' inv =>
      obtain ⟨asked, herase, _⟩ := hvalid.1.1.erase inv
      rw [AskEvent.step_answer peer' herase] at hstep
      cases hstep
      exact ⟨hmem, hqueue⟩

/-- It is never asked for again. -/
theorem AskRun.Stuck.run {s s' : AskRun} {peer hash : Nat} (h : s.Stuck peer hash) {events : List AskEvent}
    (hrun : EventRun.run AskEvent.step events s = some s') : s'.Stuck peer hash :=
  EventRun.run_keeps (fun _ _ _ _ hs hstep => hs.step hstep) h hrun

/-- Whatever the hashes are, there is a run after which the set has them all, with nothing queued. -/
theorem askFor_grows (peer : Nat) (hashes : List Nat) :
    ∃ events s, EventRun.run AskEvent.step events {} = some s ∧ s.Valid ∧ (s.state.peers peer).mapAskFor = [] ∧
      ∀ h ∈ hashes, h ∈ (s.state.peers peer).setAskFor := by
  induction hashes with
  | nil => exact ⟨[], {}, rfl, AskRun.valid_new, rfl, by simp⟩
  | cons hash hashes ih =>
      obtain ⟨events, s, hrun, hvalid, hqueue, hmem⟩ := ih
      by_cases hhash : hash ∈ (s.state.peers peer).setAskFor
      · exact ⟨events, s, hrun, hvalid, hqueue, List.forall_mem_cons.2 ⟨hhash, hmem⟩⟩
      obtain ⟨state, hask, _, hpeers⟩ := hvalid.1.askFor peer ⟨1, hash⟩ true 0
      obtain ⟨s₁, hfirst, hvalid₁⟩ := hvalid.step (.askFor peer ⟨1, hash⟩ true 0)
      rw [AskEvent.step, hask] at hfirst
      cases hfirst
      obtain ⟨hbusy, _⟩ | ⟨_, _, nRequestTime, hpeers⟩ := hpeers
      · rw [hqueue] at hbusy
        exact absurd hbusy (not_or.2 ⟨Nat.not_lt_zero _, hhash⟩)
      have hnode : state.peers peer =
          { setAskFor := insert hash (s.state.peers peer).setAskFor, mapAskFor := [(nRequestTime, ⟨1, hash⟩)] } := by
        rw [hpeers, Function.update_self, hqueue, LimitedMap.insertSorted]
      let holdings : Holdings := { nNodeMode := .full, alreadyHave := fun _ => true, alreadyHaveThin := fun _ => true }
      obtain ⟨s₂, hsecond, hvalid₂⟩ := hvalid₁.step (.sendMessages peer holdings (max nRequestTime 0))
      refine ⟨events ++ [.askFor peer ⟨1, hash⟩ true 0, .sendMessages peer holdings (max nRequestTime 0)], s₂, ?_,
        hvalid₂, ?_⟩
      · rw [EventRun.run_append hrun, EventRun.run, AskEvent.step, hask]
        dsimp only [Option.map_some]
        rw [EventRun.run, hsecond]
        rfl
      · cases hsecond
        have hdue : nRequestTime ≤ max nRequestTime 0 * 1000000 := by omega
        dsimp only [AskState.sendGetData]
        rw [Function.update_self, hnode, getDataLoop, if_pos hdue, if_neg (by simp [Holdings.wanted, holdings]),
          getDataLoop]
        exact ⟨rfl, List.forall_mem_cons.2 ⟨Finset.mem_insert_self _ _, fun h hh =>
          Finset.mem_insert_of_mem (hmem h hh)⟩⟩

end ProCurrency
