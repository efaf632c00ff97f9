import ProCurrency.Thin.Pruning
import ProCurrency.Chain.Lookup

/-!
# Lookups by height on a thin node

`FindBlockThinByHeight` starts from the genesis entry, from the best header or from the entry that the last lookup
has left. `SetBestChain` takes that pointer away on a full node. On a thin one nothing does when the chain moves, and
nothing takes the pointer to the genesis entry away when it is pruned.
-/

namespace ProCurrency

open LinkedChain

namespace ThinIndex

/-! ## The condition -/

/-- The height lies between the rear and the best header. -/
def InRange (st : ThinIndex) (nHeight : Int) : Prop :=
  (∃ rear e, st.pindexRear = some rear ∧ st.heap rear = some e ∧ e.nHeight ≤ nHeight) ∧ nHeight ≤ st.nBestHeight

/-- The lookup returns the entry of the main chain that has the height. -/
def FindsMainChain (st : ThinIndex) (nHeight : Int) : Prop :=
  ∃ p st' e, st.findBlockThinByHeight nHeight = some (some p, st') ∧ st.OnMainChain p ∧
    st.heap p = some e ∧ e.nHeight = nHeight

/-- The start of a lookup before the last one is considered. -/
def defaultStart (st : ThinIndex) (nHeight : Int) : Option Nat :=
  if nHeight < st.nBestHeight.tdiv 2 then st.pindexGenesisBlockThin else st.pindexBestHeader

/-- An entry is nearer to the height than the start. -/
def Nearer (st : ThinIndex) (nHeight : Int) (eLast : ThinEntry) : Prop :=
  ∃ p e, st.defaultStart nHeight = some p ∧ st.heap p = some e ∧
    (nHeight - eLast.nHeight).natAbs < (nHeight - e.nHeight).natAbs

/-- What a lookup needs: the genesis entry when it starts there, and of the last lookup an entry that is in the
index and, when it is nearer, meets the main chain at the height or at its own. -/
structure LookupReady (st : ThinIndex) (nHeight : Int) : Prop where
  genesis : nHeight < st.nBestHeight.tdiv 2 → ∃ p e, st.pindexGenesisBlockThin = some p ∧ st.heap p = some e
  last : ∀ last, st.pblockHeaderIndexFBBHLast = some last → ∃ eLast, st.heap last = some eLast ∧
    (st.Nearer nHeight eLast → ∃ p e, Ancestor st.heap last p ∧ st.OnMainChain p ∧ st.heap p = some e ∧
      e.nHeight = min nHeight eLast.nHeight)

variable {st st' : ThinIndex} {chain : List Nat} {p q : Nat} {e : ThinEntry} {nHeight : Int} {env : ThinEnv}

/-! ## One lookup -/

theorem ancestor_of_above (h : Relation.ReflTransGen (Above st.node) p q) : Ancestor st.heap p q :=
  Relation.ReflTransGen.mono (fun _ _ => parent_of_above) _ _ h

theorem above_of_ancestor (htree : Tree st) (h : Ancestor st.heap p q) (hq : ∃ e, st.heap q = some e) :
    Relation.ReflTransGen (Above st.node) p q := by
  induction h using Relation.ReflTransGen.head_induction_on with
  | refl => exact .refl
  | @head _ r hparent hrest ih =>
      have halive : ∃ e, st.heap r = some e := by
        rcases hrest.cases_head with rfl | ⟨r, ⟨e, he, -⟩, -⟩
        · exact hq
        · exact ⟨e, he⟩
      exact .head (htree.above hparent halive) ih

/-- From an entry whose ancestor at the height, or at its own, is in the main chain, the walk finds the entry of
the chain. -/
theorem MainChain.find_some (h : MainChain st chain) (hle : nHeight ≤ st.nBestHeight) {a : Nat} {ea : ThinEntry}
    (he : st.heap q = some e) (hpath : Ancestor st.heap q a) (ha : a ∈ chain) (hea : st.heap a = some ea)
    (hheight : ea.nHeight = min nHeight e.nHeight) :
    ∃ p ∈ chain, find st.node nHeight st.nAllocated q = some (some p) ∧ HasHeight st.node nHeight p := by
  obtain ⟨pindexBest, rest, rfl, -, best, heBest, -, hbestHeight, -⟩ := h.best
  obtain ⟨l, hl, hlast⟩ := List.exists_isChain_cons_of_relationReflTransGen
    (above_of_ancestor h.tree hpath ⟨ea, hea⟩)
  have hmem : a ∈ q :: l := hlast ▸ List.getLast_mem (List.cons_ne_nil q l)
  have halive : ∀ p ∈ q :: l, ∃ e, st.heap p = some e := fun p hp => by
    refine alive_of_isChain hl (fun r hr => ?_) hp
    rw [List.getLast?_eq_some_getLast (List.cons_ne_nil q l), hlast] at hr
    cases hr
    exact ⟨ea, hea⟩
  have hlength := h.tree.length_le hl halive
  have hchain := h.length_le
  rw [List.length_cons] at hlength hchain
  have haHeight : HasHeight st.node (min nHeight e.nHeight) a := hasHeight_iff.mpr ⟨ea, hea, hheight⟩
  have hbest : HasHeight st.node st.nBestHeight pindexBest := hasHeight_iff.mpr ⟨best, heBest, hbestHeight⟩
  have hsub := height_sub_le h.linked hbest ha haHeight
  refine find_eq h.linked (fun p n hn => ?_) hbest hle hl (hasHeight_iff.mpr ⟨e, he, rfl⟩) hmem ha haHeight
    (by omega) (by omega)
  obtain ⟨d, -, rfl⟩ := heap_of_node hn
  rw [← h.pnext]

/-- Every entry of the main chain has one of the chain below it at each height down to the rear. -/
theorem MainChain.ancestor_at (h : MainChain st chain) (hrange : st.InRange nHeight) (hq : q ∈ chain)
    (he : st.heap q = some e) :
    ∃ a ea, Ancestor st.heap q a ∧ a ∈ chain ∧ st.heap a = some ea ∧ ea.nHeight = min nHeight e.nHeight := by
  rcases le_total e.nHeight nHeight with hle | hle
  · exact ⟨q, e, .refl, hq, he, (min_eq_right hle).symm⟩
  · obtain ⟨above, below, rfl⟩ := List.append_of_mem hq
    have hlinked := h.linked.right_of_append
    obtain ⟨⟨rear, eRear, hrear, heRear, hlow⟩, -⟩ := hrange
    obtain ⟨rear', -, hlast, hrear', -⟩ := h.rear
    rw [hrear] at hrear'
    cases hrear'
    have hmem : rear ∈ q :: below := by
      rw [List.getLast?_append, List.getLast?_eq_some_getLast (List.cons_ne_nil q below), Option.some_or] at hlast
      exact Option.some.inj hlast ▸ List.getLast_mem (List.cons_ne_nil q below)
    obtain ⟨a, ha, haHeight⟩ := exists_of_height hlinked (hasHeight_iff.mpr ⟨e, he, rfl⟩)
      ⟨rear, hmem, eRear.nHeight, hasHeight_iff.mpr ⟨eRear, heRear, rfl⟩, hlow⟩ hle
    obtain ⟨ea, hea, hheight⟩ := hasHeight_iff.mp haHeight
    refine ⟨a, ea, ?_, List.mem_append_right above ha, hea, by rw [hheight, min_eq_left hle]⟩
    exact h.parents.right_of_append.induction (Ancestor st.heap q) _ (fun _ _ hparent hpath => hpath.tail hparent)
      (fun _ => .refl) a ha

/-- A lookup once its start is known. -/
theorem findBlockThinByHeight_eq {start s : Nat} (hstart : st.defaultStart nHeight = some start)
    (hs : st.startThin nHeight start = some s) :
    st.findBlockThinByHeight nHeight =
      match find st.node nHeight st.nAllocated s with
      | none => none
      | some none => some (none, st)
      | some (some p) => some (some p, { st with pblockHeaderIndexFBBHLast := some p }) := by
  rw [findBlockThinByHeight, ← defaultStart, hstart]
  simp only [hs] <;> rfl

/-- The start of a lookup that returns is in the index, and so is the entry of the last lookup. -/
theorem startThin_of_finds {start : Nat} (hstart : st.defaultStart nHeight = some start)
    (hfind : st.findBlockThinByHeight nHeight = some (some p, st')) :
    ∃ s, st.startThin nHeight start = some s ∧ find st.node nHeight st.nAllocated s = some (some p) := by
  rw [findBlockThinByHeight, ← defaultStart, hstart] at hfind
  dsimp only at hfind
  cases hs : st.startThin nHeight start with
  | none => simp [hs] at hfind
  | some s =>
      simp only [hs] at hfind
      refine ⟨s, rfl, ?_⟩
      cases hwalk : find st.node nHeight st.nAllocated s with
      | none => simp [hwalk] at hfind
      | some found =>
          cases found with
          | none => simp [hwalk] at hfind
          | some r =>
              simp only [hwalk] at hfind
              cases hfind
              rfl

/-- A lookup in the range returns the entry of the main chain exactly under the condition. -/
theorem findsMainChain_iff (h : MainChain st chain) (hrange : st.InRange nHeight) :
    st.FindsMainChain nHeight ↔ st.LookupReady nHeight := by
  obtain ⟨g, hg, -, hgenesis⟩ := h.genesis
  obtain ⟨pindexBest, rest, hchain, hbest, best, heBest, -⟩ := h.best
  obtain ⟨start, hstart⟩ : ∃ start, st.defaultStart nHeight = some start := by
    rw [defaultStart]
    split_ifs
    · exact ⟨g, hg⟩
    · exact ⟨pindexBest, hbest⟩
  constructor
  · rintro ⟨p, st', e, hfind, hmain, -⟩
    obtain ⟨s, hs, hwalk⟩ := startThin_of_finds hstart hfind
    obtain ⟨n, hn⟩ := find_alive hwalk
    obtain ⟨es, hes, -⟩ := heap_of_node hn
    rw [startThin] at hs
    cases hlast : st.pblockHeaderIndexFBBHLast with
    | none =>
        simp only [hlast] at hs
        cases hs
        refine ⟨fun hlow => ⟨start, es, ?_, hes⟩, fun last hnone => ?_⟩
        · rw [defaultStart, if_pos hlow] at hstart
          exact hstart
        · rw [hlast] at hnone
          cases hnone
    | some last =>
        simp only [hlast] at hs
        cases heStart : st.heap start with
        | none => simp [heStart] at hs
        | some eStart =>
            cases heLast : st.heap last with
            | none => simp [heStart, heLast] at hs
            | some eLast =>
                simp only [heStart, heLast] at hs
                refine ⟨fun hlow => ⟨start, eStart, ?_, heStart⟩, fun last' hlast' => ?_⟩
                · rw [defaultStart, if_pos hlow] at hstart
                  exact hstart
                · rw [hlast] at hlast'
                  cases hlast'
                  refine ⟨eLast, heLast, ?_⟩
                  rintro ⟨start', eStart', hstart', heStart', hnear⟩
                  rw [hstart] at hstart'
                  cases hstart'
                  rw [heStart] at heStart'
                  cases heStart'
                  rw [if_pos hnear] at hs
                  cases hs
                  have hlinked : Linked st.node chain := fun r n hn => by
                    obtain ⟨d, -, rfl⟩ := heap_of_node hn
                    rw [← h.pnext]
                  obtain ⟨a, ha, haHeight, hpath⟩ := find_ancestor h.tree.nodeGraded hlinked
                    (hasHeight_iff.mpr ⟨eLast, heLast, rfl⟩) (h.mem_iff.mpr hmain) hwalk
                  obtain ⟨ea, hea, hheight⟩ := hasHeight_iff.mp haHeight
                  exact ⟨a, ea, ancestor_of_above hpath, h.mem_iff.mp ha, hea, hheight⟩
  · intro hready
    have hfinds : ∀ s, st.startThin nHeight start = some s →
        (∃ p ∈ chain, find st.node nHeight st.nAllocated s = some (some p) ∧ HasHeight st.node nHeight p) →
        st.FindsMainChain nHeight := by
      rintro s hs ⟨p, hp, hwalk, hheight⟩
      obtain ⟨e, he, hheight⟩ := hasHeight_iff.mp hheight
      refine ⟨p, { st with pblockHeaderIndexFBBHLast := some p }, e, ?_, h.mem_iff.mp hp, he, hheight⟩
      rw [findBlockThinByHeight_eq hstart hs, hwalk]
    have hstartMem : ∃ e, st.heap start = some e ∧ start ∈ chain := by
      rw [defaultStart] at hstart
      split_ifs at hstart with hlow
      · obtain ⟨p, e, hp, he⟩ := hready.genesis hlow
        rw [hstart] at hp
        cases hp
        rw [hstart] at hg
        cases hg
        rcases hgenesis with hrear | hfreed
        · obtain ⟨rear, -, hlast, hrear', -⟩ := h.rear
          rw [hrear] at hrear'
          cases hrear'
          exact ⟨e, he, List.mem_of_getLast? hlast⟩
        · rw [he] at hfreed
          cases hfreed
      · rw [hbest] at hstart
        cases hstart
        exact ⟨best, heBest, hchain ▸ List.mem_cons_self⟩
    obtain ⟨eStart, heStart, hmem⟩ := hstartMem
    obtain ⟨a, ea, hpath, ha, hea, hheight⟩ := h.ancestor_at hrange hmem heStart
    have hwalk := h.find_some hrange.2 heStart hpath ha hea hheight
    cases hlast : st.pblockHeaderIndexFBBHLast with
    | none => exact hfinds start (by rw [startThin, hlast]) hwalk
    | some last =>
        obtain ⟨eLast, heLast, hleads⟩ := hready.last last hlast
        rcases Decidable.em ((nHeight - eLast.nHeight).natAbs < (nHeight - eStart.nHeight).natAbs) with hnear | hfar
        · obtain ⟨b, eb, hpath', hb, heb, hheight'⟩ := hleads ⟨start, eStart, hstart, heStart, hnear⟩
          refine hfinds last ?_ (h.find_some hrange.2 heLast hpath' (h.mem_iff.mpr hb) heb hheight')
          rw [startThin, hlast]
          simp only [heStart, heLast, if_pos hnear]
        · refine hfinds start ?_ hwalk
          rw [startThin, hlast]
          simp only [heStart, heLast, if_neg hfar]

/-! ## Runs -/

inductive ThinCall where
  | accept (header : ThinHeader) (outcomes : ThinOutcomes)
  | find (nHeight : Int)

namespace ThinCall

def run (env : ThinEnv) (st : ThinIndex) : ThinCall → Option ThinIndex
  | .accept header outcomes =>
      match st.acceptBlockThin env outcomes header with
      | none => none
      | some (_, st) => some st
  | .find nHeight =>
      match st.findBlockThinByHeight nHeight with
      | none => none
      | some (_, st) => some st

/-- Every lookup of the run that is in the range returns the entry of the main chain. -/
def FindsThroughout (env : ThinEnv) (st : ThinIndex) : List ThinCall → Prop
  | [] => True
  | call :: calls =>
      (∀ nHeight, call = .find nHeight → st.InRange nHeight → st.FindsMainChain nHeight) ∧
        ∀ st', call.run env st = some st' → FindsThroughout env st' calls

/-- Every lookup of the run that is in the range meets the condition. -/
def ReadyThroughout (env : ThinEnv) (st : ThinIndex) : List ThinCall → Prop
  | [] => True
  | call :: calls =>
      (∀ nHeight, call = .find nHeight → st.InRange nHeight → st.LookupReady nHeight) ∧
        ∀ st', call.run env st = some st' → ReadyThroughout env st' calls

/-- The postponed entries of every reorganisation of the run are committed. -/
def CommitsThroughout (env : ThinEnv) (st : ThinIndex) : List ThinCall → Prop
  | [] => True
  | call :: calls =>
      (∀ header outcomes, call = .accept header outcomes → PostponedCommit outcomes st header) ∧
        ∀ st', call.run env st = some st' → CommitsThroughout env st' calls

end ThinCall

/-- A lookup leaves everything but its own pointer alone. -/
theorem MainChain.found {found : Option Nat} (h : MainChain st chain)
    (hfind : st.findBlockThinByHeight nHeight = some (found, st')) : MainChain st' chain := by
  have hkept : ∃ last, st' = { st with pblockHeaderIndexFBBHLast := last } := by
    rw [findBlockThinByHeight] at hfind
    repeat' split at hfind
    all_goals cases hfind
    all_goals exact ⟨_, rfl⟩
  obtain ⟨last, rfl⟩ := hkept
  exact ⟨⟨h.tree.filed, h.tree.allocated, h.tree.earlier, h.tree.graded⟩, h.best, linked_of_heap_eq st _ rfl h.linked,
    h.rear, h.pnext, h.genesis⟩

theorem findsThroughout_iff_of_mainChain (calls : List ThinCall) (h : MainChain st chain)
    (hcommits : ThinCall.CommitsThroughout env st calls) :
    ThinCall.FindsThroughout env st calls ↔ ThinCall.ReadyThroughout env st calls := by
  induction calls generalizing st chain with
  | nil => exact Iff.rfl
  | cons call calls ih =>
      obtain ⟨hcall, hcommits⟩ := hcommits
      have hnext : ∀ st', call.run env st = some st' → ∃ chain, MainChain st' chain := by
        intro st' hrun
        cases call with
        | accept header outcomes =>
            cases haccept : st.acceptBlockThin env outcomes header with
            | none => simp [ThinCall.run, haccept] at hrun
            | some step =>
                simp only [ThinCall.run, haccept] at hrun
                cases hrun
                exact acceptBlockThin_mainChain h (hcall header outcomes rfl) haccept
        | find nHeight =>
            cases hfind : st.findBlockThinByHeight nHeight with
            | none => simp [ThinCall.run, hfind] at hrun
            | some step =>
                simp only [ThinCall.run, hfind] at hrun
                cases hrun
                exact ⟨chain, h.found hfind⟩
      unfold ThinCall.FindsThroughout ThinCall.ReadyThroughout
      refine and_congr ?_ ?_
      · refine forall_congr' fun nHeight => forall_congr' fun _ => forall_congr' fun hrange => ?_
        exact findsMainChain_iff h hrange
      · refine forall_congr' fun st' => forall_congr' fun hrun => ?_
        obtain ⟨chain', h'⟩ := hnext st' hrun
        exact ih h' (hcommits st' hrun)

def threeIndexTree : IndexTree threeEnv where
  toBlockTree := threeTree
  root := by
    rintro pindex ⟨hash, h⟩
    dsimp only [threeTree] at h
    split_ifs at h <;> cases h
    rfl
  height := by
    rintro pindex pprev rest ⟨hash, h⟩
    dsimp only [threeTree] at h
    split_ifs at h <;> cases h <;> rfl

def emptyChain : ChainState where
  mem := .empty
  txdb := rewoundState.txdb
  connected _ := false
  pendingConnected _ := false

def genesisCalls : List NodeCall :=
  [.bestChain (.setBestChain (blockAt 0) (threeChain.drop 2) lastRefused), .findBlockByHeight 0]

def headerCalls : List ThinCall := [.accept (mainHeader 0).1 nothingFails, .find 1]

namespace ThinCall

def runAll (env : ThinEnv) (st : ThinIndex) : List ThinCall → Option ThinIndex
  | [] => some st
  | call :: calls => (call.run env st).bind fun st => runAll env st calls

theorem FindsThroughout.last {calls : List ThinCall} (h : FindsThroughout env st (calls ++ [.find nHeight]))
    (hrun : runAll env st calls = some st') (hrange : st'.InRange nHeight) : st'.FindsMainChain nHeight := by
  induction calls generalizing st with
  | nil =>
      cases hrun
      exact h.1 nHeight rfl hrange
  | cons call calls ih =>
      obtain ⟨st₁, hcall, hrest⟩ := Option.bind_eq_some_iff.mp hrun
      exact ih (h.2 st₁ hcall) hrest

end ThinCall

/-- The headers of the other branch over the genesis block. -/
def branchHeader (k : Nat) : ThinCall :=
  .accept ⟨BitVec.ofNat 256 (k + 12), if k = 0 then 1 else BitVec.ofNat 256 (k + 11), 1⟩ nothingFails

/-- A lookup on a branch of two headers, which one of three takes over. -/
def reorganizedRun : List ThinCall :=
  [.accept (mainHeader 0).1 nothingFails, .accept (mainHeader 1).1 nothingFails, .find 2,
    branchHeader 0, branchHeader 1, branchHeader 2]

/-- What the run leaves at the entries of the chain. -/
theorem runAll_reorganizedRun :
    ∃ st, ThinCall.runAll windowEnv (genesisIndex windowEnv) reorganizedRun = some st ∧
      (st.findBlockThinByHeight 2).map Prod.fst = some (some 2) ∧ st.pindexBestHeader = some 5 ∧
      st.nBestHeight = 3 ∧ st.pindexRear = some 0 ∧ (st.heap 0).map ThinEntry.nHeight = some 0 ∧
      [5, 4, 3, 0].map (fun p => (st.heap p).bind ThinEntry.pprev) = [some 4, some 3, some 0, none] := by
  have heval : ∀ st ∈ ThinCall.runAll windowEnv (genesisIndex windowEnv) reorganizedRun,
      (st.findBlockThinByHeight 2).map Prod.fst = some (some 2) ∧ st.pindexBestHeader = some 5 ∧
        st.nBestHeight = 3 ∧ st.pindexRear = some 0 ∧ (st.heap 0).map ThinEntry.nHeight = some 0 ∧
        [5, 4, 3, 0].map (fun p => (st.heap p).bind ThinEntry.pprev) = [some 4, some 3, some 0, none] := by
    decide +kernel
  have hsome : (ThinCall.runAll windowEnv (genesisIndex windowEnv) reorganizedRun).isSome := by
    decide +kernel
  obtain ⟨st, hrun⟩ := Option.isSome_iff_exists.mp hsome
  exact ⟨st, hrun, heval st hrun⟩

end ThinIndex

end ProCurrency
