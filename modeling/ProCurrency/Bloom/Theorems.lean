import ProCurrency.Bloom.Relevance
import ProCurrency.Script.Agreement

/-!
# The filter of a peer

Runs of a peer that loads, extends and clears its filter while transactions are tested against it. When the filter keeps
within its size, reports what was inserted, and inserts no outpoint of an output that does not match.
-/

namespace ProCurrency

open EventRun

inductive FilterEvent
  | filterload (vData : Bytes) (nHashFuncs nTweak : UInt32) (nFlags : UInt8)
  | filteradd (vData : Bytes)
  | filterclear
  | test (tx : CTransaction)

/-- A peer with the keys that went into its filter since it was loaded, which the code does not keep. -/
structure FilterRun where
  node : FilterNode
  watched : List Bytes
deriving DecidableEq

/-- `filteradd` takes the element. -/
def FilterNode.takes (env : FilterEnv) (node : FilterNode) (vData : Bytes) : Bool :=
  (node.becomeThin env).1 && vData.length ≤ MAX_SCRIPT_ELEMENT_SIZE && node.pfilter.isSome

namespace FilterRun

/-- A peer without a filter. -/
def start (node : FilterNode) : FilterRun := { node := { node with pfilter := none }, watched := [] }

def step (c : ScriptCrypto) (env : FilterEnv) (e : FilterEvent) (s : FilterRun) :
    Option (FilterRun × Option CBloomFilter.Tested) :=
  match e with
  | .filterload vData nHashFuncs nTweak nFlags =>
      let (fLoaded, node) := s.node.filterload env vData nHashFuncs nTweak nFlags
      some ({ node, watched := if fLoaded then [] else s.watched }, none)
  | .filteradd vData => do
      let (_, node) ← s.node.filteradd env vData
      some ({ node, watched := if s.node.takes env vData then vData :: s.watched else s.watched }, none)
  | .filterclear => some ({ node := s.node.filterclear, watched := [] }, none)
  | .test tx => do
      let (node, tested) ← s.node.test c tx
      let inserted := (tested.map CBloomFilter.Tested.inserted).getD []
      some ({ node, watched := inserted.map (outPointKey (tx.getHash c)) ++ s.watched }, tested)

/-- An output pushes an element that is watched, or that the filter reports, or an input spends such an outpoint. -/
def Touches (s : FilterRun) (f : CBloomFilter) (tx : CTransaction) : Prop :=
  (∃ txout ∈ tx.vout, ∃ data ∈ txout.scriptPubKey.opData, data ≠ [] ∧ (data ∈ s.watched ∨ f.contains data = some true)) ∨
    ∃ txin ∈ tx.vin, txin.prevout.write ∈ s.watched ∨ f.contains txin.prevout.write = some true

/-- What a step is to leave of the filter and of the transactions that are tested. -/
structure StepSafe (c : ScriptCrypto) (s : FilterRun) (e : FilterEvent) (s' : FilterRun)
    (o : Option CBloomFilter.Tested) : Prop where
  sized : ∀ f, s'.node.pfilter = some f → f.isWithinSizeConstraints = true
  reported : ∀ f, s'.node.pfilter = some f → ∀ key ∈ s'.watched, f.contains key = some true
  relevant : ∀ tx f, e = .test tx → s.node.pfilter = some f → s.Touches f tx →
    ∃ tested, o = some tested ∧ tested.relevant = true
  matched : ∀ tx f, e = .test tx → s.node.pfilter = some f →
    ∃ tested, o = some tested ∧ f.InsertsInTurn c (tx.getHash c) tx.vout tested.inserted

/-- The filter that is loaded is within its size, an element is not added to clear bytes without a hash function, and a
transaction that is tested has no output that only follows a match. -/
def StepMeets (c : ScriptCrypto) (env : FilterEnv) (s : FilterRun) : FilterEvent → Prop
  | .filterload vData nHashFuncs _ _ =>
      (s.node.becomeThin env).1 = true → vData.length ≤ MAX_BLOOM_FILTER_SIZE ∧ nHashFuncs ≤ MAX_HASH_FUNCS
  | .filteradd vData => s.node.takes env vData = true → ∀ f, s.node.pfilter = some f → ¬ f.Hashless
  | .filterclear => True
  | .test tx => ∀ f, s.node.pfilter = some f → f.ComesClean c tx

end FilterRun

/-! ## Messages -/

namespace FilterNode

variable {env : FilterEnv} {node : FilterNode}

@[simp] theorem pfilter_misbehaving (env : FilterEnv) (node : FilterNode) (howmuch : Int) :
    (node.misbehaving env howmuch).pfilter = node.pfilter := by
  rw [misbehaving]
  split <;> rfl

@[simp] theorem pfilter_becomeThin (env : FilterEnv) (node : FilterNode) :
    (node.becomeThin env).2.pfilter = node.pfilter := by
  simp only [becomeThin, setNodeType]
  split_ifs <;> rfl

/-- The filter of a message, with the flags that are left of it. -/
def loaded (vData : Bytes) (nHashFuncs nTweak : UInt32) (nFlags : UInt8) : CBloomFilter :=
  { vData, isFull := true, isEmpty := false, nHashFuncs, nTweak, nFlags }

theorem filterload_thin (vData : Bytes) (nHashFuncs nTweak : UInt32) (nFlags : UInt8)
    (h : (node.becomeThin env).1 = true) :
    (node.filterload env vData nHashFuncs nTweak nFlags).1 = true ∧
      ∃ nFlags', (node.filterload env vData nHashFuncs nTweak nFlags).2.pfilter =
        some (loaded vData nHashFuncs nTweak nFlags').updateEmptyFull := by
  simp only [filterload, h, Bool.not_true, Bool.false_eq_true, if_false]
  split_ifs
  · exact ⟨trivial, nFlags, rfl⟩
  · exact ⟨trivial, nFlags &&& ~~~BLOOM_ACCEPT_STEALTH, rfl⟩
  · exact ⟨trivial, nFlags, rfl⟩

theorem filterload_refused (vData : Bytes) (nHashFuncs nTweak : UInt32) (nFlags : UInt8)
    (h : (node.becomeThin env).1 = false) :
    (node.filterload env vData nHashFuncs nTweak nFlags).1 = false ∧
      (node.filterload env vData nHashFuncs nTweak nFlags).2.pfilter = node.pfilter := by
  simp [filterload, h]

variable {vData : Bytes}

theorem filteradd_takes {f : CBloomFilter} (hf : f.Sound) (hfilter : node.pfilter = some f)
    (h : node.takes env vData = true) :
    ∃ ret node', node.filteradd env vData = some (ret, node') ∧ node'.pfilter = some (f.added vData) := by
  simp only [takes, Bool.and_eq_true, decide_eq_true_eq] at h
  obtain ⟨⟨hthin, hsize⟩, _⟩ := h
  have hfilter' : (node.becomeThin env).2.pfilter = some f := (pfilter_becomeThin env node).trans hfilter
  simp only [filteradd, hthin, Bool.not_true, Bool.false_eq_true, if_false, Nat.not_lt.2 hsize, hfilter',
    CBloomFilter.contains_eq hf, CBloomFilter.insert_eq hf, CBloomFilter.added]
  cases hreports : f.reports vData with
  | true => exact ⟨true, _, rfl, hfilter'⟩
  | false => exact ⟨true, _, rfl, rfl⟩

theorem filteradd_refused (h : node.takes env vData = false) :
    ∃ ret node', node.filteradd env vData = some (ret, node') ∧ node'.pfilter = node.pfilter := by
  simp only [filteradd]
  cases hthin : (node.becomeThin env).1 with
  | false => exact ⟨false, _, rfl, pfilter_becomeThin env node⟩
  | true =>
      by_cases hsize : vData.length > MAX_SCRIPT_ELEMENT_SIZE
      · simp [hsize]
      · cases hfilter : node.pfilter with
        | none => simp [hsize, hfilter]
        | some f => simp [takes, hthin, hfilter, Nat.not_lt.1 hsize] at h

theorem test_none {c : ScriptCrypto} {tx : CTransaction} (hfilter : node.pfilter = none) :
    node.test c tx = some (node, none) := by
  simp [test, hfilter]

theorem test_some {c : ScriptCrypto} {tx : CTransaction} {f : CBloomFilter} {tested : CBloomFilter.Tested}
    (hfilter : node.pfilter = some f) (htested : f.isRelevantAndUpdate c tx = some tested) :
    node.test c tx = some ({ node with pfilter := some tested.filter }, some tested) := by
  simp [test, hfilter, htested]

end FilterNode

/-! ## Steps -/

namespace FilterRun

variable {c : ScriptCrypto} {env : FilterEnv} {s s' : FilterRun} {e : FilterEvent} {o : Option CBloomFilter.Tested}

/-- What a step does to the filter and to the keys that are watched. -/
inductive Moves (c : ScriptCrypto) (env : FilterEnv) (s : FilterRun) :
    FilterEvent → FilterRun → Option CBloomFilter.Tested → Prop
  | loads {vData nHashFuncs nTweak nFlags nFlags'} {s' : FilterRun} (hthin : (s.node.becomeThin env).1 = true)
      (hfilter : s'.node.pfilter = some (FilterNode.loaded vData nHashFuncs nTweak nFlags').updateEmptyFull)
      (hwatched : s'.watched = []) : Moves c env s (.filterload vData nHashFuncs nTweak nFlags) s' none
  | refuses {vData nHashFuncs nTweak nFlags} {s' : FilterRun} (hthin : (s.node.becomeThin env).1 = false)
      (hfilter : s'.node.pfilter = s.node.pfilter) (hwatched : s'.watched = s.watched) :
      Moves c env s (.filterload vData nHashFuncs nTweak nFlags) s' none
  | adds {vData f} {s' : FilterRun} (htakes : s.node.takes env vData = true) (hbefore : s.node.pfilter = some f)
      (hfilter : s'.node.pfilter = some (f.added vData)) (hwatched : s'.watched = vData :: s.watched) :
      Moves c env s (.filteradd vData) s' none
  | ignores {vData} {s' : FilterRun} (htakes : s.node.takes env vData = false) (hfilter : s'.node.pfilter = s.node.pfilter)
      (hwatched : s'.watched = s.watched) : Moves c env s (.filteradd vData) s' none
  | clears {s' : FilterRun} (hfilter : s'.node.pfilter = none) (hwatched : s'.watched = []) :
      Moves c env s .filterclear s' none
  | skips {tx} {s' : FilterRun} (hbefore : s.node.pfilter = none) (hfilter : s'.node.pfilter = none)
      (hwatched : s'.watched = s.watched) : Moves c env s (.test tx) s' none
  | tests {tx f tested} {s' : FilterRun} (hbefore : s.node.pfilter = some f) (htests : f.Tests c tx tested)
      (hfilter : s'.node.pfilter = some tested.filter)
      (hwatched : s'.watched = tested.inserted.map (outPointKey (tx.getHash c)) ++ s.watched) :
      Moves c env s (.test tx) s' (some tested)

/-- The filter has been kept up. -/
def Kept (s : FilterRun) : Prop := ∀ f, s.node.pfilter = some f → f.Updated

theorem step_moves (hs : s.Kept) (e : FilterEvent) : ∃ s' o, step c env e s = some (s', o) ∧ Moves c env s e s' o := by
  cases e with
  | filterload vData nHashFuncs nTweak nFlags =>
      rcases hload : s.node.filterload env vData nHashFuncs nTweak nFlags with ⟨fLoaded, node'⟩
      have hstep : step c env (.filterload vData nHashFuncs nTweak nFlags) s =
          some ({ node := node', watched := if fLoaded then [] else s.watched }, none) := by
        simp only [step, hload]
      refine ⟨_, _, hstep, ?_⟩
      cases hthin : (s.node.becomeThin env).1 with
      | true =>
          obtain ⟨hret, nFlags', hfilter⟩ := FilterNode.filterload_thin vData nHashFuncs nTweak nFlags hthin
          rw [hload] at hret hfilter
          exact .loads hthin hfilter (if_pos hret)
      | false =>
          obtain ⟨hret, hfilter⟩ := FilterNode.filterload_refused vData nHashFuncs nTweak nFlags hthin
          rw [hload] at hret hfilter
          exact .refuses hthin hfilter (if_neg (ne_true_of_eq_false hret))
  | filteradd vData =>
      cases htakes : s.node.takes env vData with
      | true =>
          have hsome : s.node.pfilter.isSome = true := by
            simp only [FilterNode.takes, Bool.and_eq_true] at htakes
            exact htakes.2
          obtain ⟨f, hbefore⟩ := Option.isSome_iff_exists.1 hsome
          obtain ⟨ret, node', hadd, hfilter⟩ := FilterNode.filteradd_takes (hs f hbefore).sound hbefore htakes
          exact ⟨_, _, by simp only [step, hadd]; rfl, .adds htakes hbefore hfilter (if_pos htakes)⟩
      | false =>
          obtain ⟨ret, node', hadd, hfilter⟩ := FilterNode.filteradd_refused htakes
          exact ⟨_, _, by simp only [step, hadd]; rfl, .ignores htakes hfilter (if_neg (ne_true_of_eq_false htakes))⟩
  | filterclear => exact ⟨_, _, rfl, .clears rfl rfl⟩
  | test tx =>
      cases hbefore : s.node.pfilter with
      | none => exact ⟨_, _, by simp only [step, FilterNode.test_none hbefore]; rfl, .skips hbefore hbefore rfl⟩
      | some f =>
          obtain ⟨tested, htested, htests⟩ := CBloomFilter.isRelevantAndUpdate_spec (c := c) (hs f hbefore) tx
          have hstep : step c env (.test tx) s = some ({
              node := { s.node with pfilter := some tested.filter }
              watched := tested.inserted.map (outPointKey (tx.getHash c)) ++ s.watched }, some tested) := by
            simp [step, FilterNode.test_some hbefore htested]
          exact ⟨_, _, hstep, .tests hbefore htests rfl rfl⟩

theorem moves_of_step (hs : s.Kept) (h : step c env e s = some (s', o)) : Moves c env s e s' o := by
  obtain ⟨s₁, o₁, hstep, hmoves⟩ := @step_moves c env s hs e
  cases Option.some.inj (hstep.symm.trans h)
  exact hmoves

theorem Moves.kept (hs : s.Kept) (h : Moves c env s e s' o) : s'.Kept := by
  intro f hf
  cases h with
  | loads _ hfilter _ =>
      cases hfilter.symm.trans hf
      exact CBloomFilter.updated_updateEmptyFull _
  | refuses _ hfilter _ => exact hs f (hfilter.symm.trans hf)
  | adds _ hbefore hfilter _ =>
      cases hfilter.symm.trans hf
      exact (hs _ hbefore).added _
  | ignores _ hfilter _ => exact hs f (hfilter.symm.trans hf)
  | clears hfilter _ => cases hfilter.symm.trans hf
  | skips _ hfilter _ => cases hfilter.symm.trans hf
  | tests _ htests hfilter _ =>
      cases hfilter.symm.trans hf
      exact htests.updated

/-- The filter is within its size. -/
def Sized (s : FilterRun) : Prop := ∀ f, s.node.pfilter = some f → f.isWithinSizeConstraints = true

/-- The filter reports every key that is watched. -/
def Reported (s : FilterRun) : Prop := ∀ f, s.node.pfilter = some f → ∀ key ∈ s.watched, f.contains key = some true

/-- Where nothing is tested, the filter is all there is to see. -/
theorem stepSafe_iff (hquiet : ∀ tx f, e = .test tx → s.node.pfilter ≠ some f) :
    StepSafe c s e s' o ↔ s'.Sized ∧ s'.Reported where
  mp h := ⟨h.sized, h.reported⟩
  mpr h :=
    { sized := h.1
      reported := h.2
      relevant := fun tx f he hf => absurd hf (hquiet tx f he)
      matched := fun tx f he hf => absurd hf (hquiet tx f he) }

/-- A filter that nothing happens to is as safe as before. -/
theorem sized_and_reported_of_same (hsized : s.Sized) (hreported : s.Reported)
    (hfilter : s'.node.pfilter = s.node.pfilter) (hwatched : s'.watched = s.watched) : s'.Sized ∧ s'.Reported := by
  constructor
  · intro f hf
    exact hsized f (hfilter.symm.trans hf)
  · intro f hf key hkey
    exact hreported f (hfilter.symm.trans hf) key (hwatched ▸ hkey)

theorem loads_iff {vData : Bytes} {nHashFuncs nTweak : UInt32} {nFlags : UInt8}
    (hfilter : s'.node.pfilter = some (FilterNode.loaded vData nHashFuncs nTweak nFlags).updateEmptyFull)
    (hwatched : s'.watched = []) :
    s'.Sized ∧ s'.Reported ↔ vData.length ≤ MAX_BLOOM_FILTER_SIZE ∧ nHashFuncs ≤ MAX_HASH_FUNCS := by
  have hwithin : (FilterNode.loaded vData nHashFuncs nTweak nFlags).updateEmptyFull.isWithinSizeConstraints = true ↔
      vData.length ≤ MAX_BLOOM_FILTER_SIZE ∧ nHashFuncs ≤ MAX_HASH_FUNCS := CBloomFilter.within_iff _
  rw [← hwithin]
  constructor
  · intro h
    exact h.1 _ hfilter
  · intro h
    refine ⟨fun f hf => ?_, fun f _ key hkey => ?_⟩
    · cases hfilter.symm.trans hf
      exact h
    · rw [hwatched] at hkey
      cases hkey

theorem adds_iff {vData : Bytes} {f : CBloomFilter} (hs : s.Kept) (hsized : s.Sized) (hreported : s.Reported)
    (hbefore : s.node.pfilter = some f) (hfilter : s'.node.pfilter = some (f.added vData))
    (hwatched : s'.watched = vData :: s.watched) : s'.Sized ∧ s'.Reported ↔ ¬ f.Hashless := by
  have hf := hs f hbefore
  constructor
  · intro h hhash
    have hkey := h.2 _ hfilter vData (hwatched ▸ List.mem_cons_self)
    rw [← CBloomFilter.reports_iff, CBloomFilter.not_reports_added_of_hashless hf hhash] at hkey
    cases hkey
  · intro hhash
    constructor
    · intro g hg
      cases hfilter.symm.trans hg
      rw [CBloomFilter.within_added hf.sound]
      exact hsized f hbefore
    · intro g hg key hkey
      cases hfilter.symm.trans hg
      refine CBloomFilter.reports_iff.1 (CBloomFilter.reports_added hf hhash ?_)
      rw [hwatched] at hkey
      rcases List.mem_cons.1 hkey with rfl | hkey
      · exact .inr rfl
      · exact .inl (CBloomFilter.reports_iff.2 (hreported f hbefore key hkey))

/-- A transaction that touches what is watched is found. -/
theorem relevant_of_touches {tx : CTransaction} {f : CBloomFilter} {tested : CBloomFilter.Tested}
    (hreported : s.Reported) (hbefore : s.node.pfilter = some f) (htests : f.Tests c tx tested) (h : s.Touches f tx) :
    tested.relevant = true := by
  have hkey : ∀ key, key ∈ s.watched ∨ f.contains key = some true → f.reports key = true := by
    rintro key (hkey | hkey)
    · exact CBloomFilter.reports_iff.2 (hreported f hbefore key hkey)
    · exact CBloomFilter.reports_iff.2 hkey
  rcases h with ⟨txout, hmem, data, hdata, hne, hwatched⟩ | ⟨txin, hmem, hwatched⟩
  · refine htests.output ⟨txout, hmem, List.any_eq_true.2 ⟨data, hdata, ?_⟩⟩
    simp [CBloomFilter.reportsData, hne, hkey data hwatched]
  · exact htests.input ⟨txin, hmem, hkey _ hwatched⟩

theorem tests_iff {tx : CTransaction} {f : CBloomFilter} {tested : CBloomFilter.Tested} (hsized : s.Sized)
    (hreported : s.Reported) (hbefore : s.node.pfilter = some f) (htests : f.Tests c tx tested)
    (hfilter : s'.node.pfilter = some tested.filter)
    (hwatched : s'.watched = tested.inserted.map (outPointKey (tx.getHash c)) ++ s.watched) :
    StepSafe c s (.test tx) s' (some tested) ↔ f.ComesClean c tx := by
  rw [← htests.inTurn]
  constructor
  · intro h
    obtain ⟨tested', htested, hmatched⟩ := h.matched tx f rfl hbefore
    cases htested
    exact hmatched
  · intro hmatched
    refine ⟨?_, ?_, ?_, ?_⟩
    · intro g hg
      cases hfilter.symm.trans hg
      rw [htests.grows.within]
      exact hsized f hbefore
    · intro g hg key hkey
      cases hfilter.symm.trans hg
      refine CBloomFilter.reports_iff.1 ?_
      rw [hwatched] at hkey
      rcases List.mem_append.1 hkey with hkey | hkey
      · obtain ⟨i, hi, rfl⟩ := List.mem_map.1 hkey
        exact htests.reported i hi
      · exact htests.grows.reports key (CBloomFilter.reports_iff.2 (hreported f hbefore key hkey))
    · intro tx' g he hg htouches
      cases he
      cases hbefore.symm.trans hg
      exact ⟨tested, rfl, relevant_of_touches hreported hbefore htests htouches⟩
    · intro tx' g he hg
      cases he
      cases hbefore.symm.trans hg
      exact ⟨tested, rfl, hmatched⟩

/-- One step is safe when it meets the condition. -/
theorem Moves.safe_iff (hs : s.Kept) (hsized : s.Sized) (hreported : s.Reported) (h : Moves c env s e s' o) :
    StepMeets c env s e ↔ StepSafe c s e s' o := by
  cases h with
  | loads hthin hfilter hwatched =>
      rw [stepSafe_iff (fun _ _ he => by cases he), loads_iff hfilter hwatched]
      exact ⟨fun h => h hthin, fun h _ => h⟩
  | refuses hthin hfilter hwatched =>
      rw [stepSafe_iff (fun _ _ he => by cases he)]
      exact ⟨fun _ => sized_and_reported_of_same hsized hreported hfilter hwatched,
        fun _ h => absurd (hthin.symm.trans h) Bool.false_ne_true⟩
  | adds htakes hbefore hfilter hwatched =>
      rw [stepSafe_iff (fun _ _ he => by cases he), adds_iff hs hsized hreported hbefore hfilter hwatched]
      constructor
      · intro h
        exact h htakes _ hbefore
      · intro h _ f hf
        cases hbefore.symm.trans hf
        exact h
  | ignores htakes hfilter hwatched =>
      rw [stepSafe_iff (fun _ _ he => by cases he)]
      exact ⟨fun _ => sized_and_reported_of_same hsized hreported hfilter hwatched,
        fun _ h => absurd (htakes.symm.trans h) Bool.false_ne_true⟩
  | clears hfilter hwatched =>
      rw [stepSafe_iff (fun _ _ he => by cases he)]
      refine ⟨fun _ => ⟨fun f hf => ?_, fun f hf => ?_⟩, fun _ => trivial⟩
      · cases hfilter.symm.trans hf
      · cases hfilter.symm.trans hf
  | skips hbefore hfilter hwatched =>
      rw [stepSafe_iff (fun _ f _ hf => nomatch hbefore.symm.trans hf)]
      exact ⟨fun _ => sized_and_reported_of_same hsized hreported (hfilter.trans hbefore.symm) hwatched,
        fun _ f hf => nomatch hbefore.symm.trans hf⟩
  | tests hbefore htests hfilter hwatched =>
      rw [tests_iff hsized hreported hbefore htests hfilter hwatched]
      constructor
      · intro h
        exact h _ hbefore
      · intro h f hf
        cases hbefore.symm.trans hf
        exact h

/-! ## Runs -/

/-- The filter has been kept up, within its size, and reports what is watched. -/
structure Valid (s : FilterRun) : Prop where
  kept : s.Kept
  sized : s.Sized
  reported : s.Reported

theorem valid_start (node : FilterNode) : (start node).Valid where
  kept _ hf := nomatch hf
  sized _ hf := nomatch hf
  reported _ hf := nomatch hf

/-- No step divides by zero, and a run is safe at every step exactly when each of its steps meets the condition. -/
theorem bloomFilter_safe_iff (c : ScriptCrypto) (env : FilterEnv) (node : FilterNode) (es : List FilterEvent) :
    (∃ s, run (step c env) es (start node) = some s) ∧
      (Along (step c env) (fun s e _ _ => StepMeets c env s e) es (start node) ↔
        Along (step c env) (StepSafe c) es (start node)) := by
  constructor
  · have hsteps : ∀ s e, s.Kept → True → ∃ s' o, step c env e s = some (s', o) ∧ s'.Kept := by
      intro s e hs _
      obtain ⟨s', o, hstep, hmoves⟩ := @step_moves c env s hs e
      exact ⟨s', o, hstep, hmoves.kept hs⟩
    obtain ⟨s, hrun, _⟩ := run_total Kept hsteps (fun e _ => trivial) (valid_start node).kept
    exact ⟨s, hrun⟩
  · refine along_congr_of_invariant Valid ?_ ?_ (valid_start node)
    · intro s e s' o hs hstep
      exact (moves_of_step hs.kept hstep).safe_iff hs.kept hs.sized hs.reported
    · intro s e s' o hs hstep hmeets
      have hmoves := moves_of_step hs.kept hstep
      have hsafe := (hmoves.safe_iff hs.kept hs.sized hs.reported).1 hmeets
      exact ⟨hmoves.kept hs.kept, hsafe.sized, hsafe.reported⟩

section Unsafe

def thinServer : FilterEnv where
  nLocalServices := 15
  banscore := 100

def newPeer : FilterNode where
  fLocal := false
  nTypeInd := NT_FULL
  nMisbehavior := 0
  fDisconnect := false
  fRelayTxes := true
  pfilter := none

/-- The peer once it has loaded a filter. -/
def thinPeer (filter : CBloomFilter) (nMisbehavior : Int) (fDisconnect : Bool) : FilterNode :=
  { newPeer with nTypeInd := NT_THIN, nMisbehavior, fDisconnect, pfilter := some filter }

/-- The first output pushes `aa`, the second `bb`. -/
def twoPushes : CTransaction := ⟨1, 0, [⟨⟨1, 0⟩, [], 0⟩], [⟨0, [1, 0xaa]⟩, ⟨0, [1, 0xbb]⟩], 0⟩

/-- A filter with 51 hash functions is installed; an element is lost where there are none; and an output that does not
match goes into the filter behind one that does. -/
theorem bloomFilter_not_safe :
    ¬ Along (step trustingCrypto thinServer) (StepSafe trustingCrypto) [.filterload [1] 51 0 0] (start newPeer) ∧
      ¬ Along (step trustingCrypto thinServer) (StepSafe trustingCrypto)
        [.filterload [0] 0 0 0, .filteradd [1]] (start newPeer) ∧
      ¬ Along (step trustingCrypto thinServer) (StepSafe trustingCrypto)
        [.filterload [0, 0] 1 0 1, .filteradd [0xaa], .test twoPushes] (start newPeer) := by
  refine ⟨fun h => ?_, fun h => ?_, fun h => ?_⟩
  · have hload := (h { node := thinPeer ⟨[1], false, false, 51, 0, 0⟩ 100 true, watched := [] } none
      (by decide +kernel)).1
    exact absurd (hload.sized _ rfl) (by decide)
  · have hrest := (h { node := thinPeer ⟨[0], false, true, 0, 0, 0⟩ 0 false, watched := [] } none (by decide +kernel)).2
    have hadd := (hrest { node := thinPeer ⟨[0], false, true, 0, 0, 0⟩ 0 false, watched := [[1]] } none
      (by decide +kernel)).1
    exact absurd (hadd.reported _ rfl [1] List.mem_cons_self) (by decide)
  · have hrest := (h { node := thinPeer ⟨[0, 0], false, true, 1, 0, 1⟩ 0 false, watched := [] } none
      (by decide +kernel)).2
    have htest := (hrest { node := thinPeer ⟨[0, 128], false, false, 1, 0, 1⟩ 0 false, watched := [[0xaa]] } none
      (by decide +kernel)).2
    have hsafe := (htest
      { node := thinPeer ⟨[2, 130], false, false, 1, 0, 1⟩ 0 false
        watched := [outPointKey 0 0, outPointKey 0 1, [0xaa]] }
      (some { filter := ⟨[2, 130], false, false, 1, 0, 1⟩, relevant := true, inserted := [0, 1] })
      (by decide +kernel)).1
    obtain ⟨tested, htested, hinTurn⟩ := hsafe.matched twoPushes _ rfl rfl
    cases htested
    obtain ⟨_, ⟨_, hat, hmatch, _⟩, _⟩ := hinTurn
    cases hat
    exact absurd hmatch (by decide +kernel)

end Unsafe

end FilterRun

end ProCurrency
