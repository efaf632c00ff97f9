import ProCurrency.Bloom.Lemmas.Membership

/-!
# What a test matches

`IsRelevantAndUpdate` never divides by zero, answers for every output that matches, and inserts the outpoints of outputs
that match as long as none follows a match that does not match itself.
-/

namespace ProCurrency

/-- What the opcodes of a script push, up to one that cannot be read. -/
def CScript.opDataFrom : Nat → CScript → List Bytes
  | 0, _ => []
  | rounds + 1, pc =>
      match CScript.getOp pc with
      | none => []
      | some (_, data, pc) => data :: opDataFrom rounds pc

def CScript.opData (script : CScript) : List Bytes := CScript.opDataFrom script.length script

/-- The key under which the outpoint of an output is inserted. -/
def outPointKey (hash : UInt256) (i : Nat) : Bytes := COutPoint.write { hash, n := UInt32.ofNat i }

namespace CBloomFilter

variable {c : ScriptCrypto} {f g : CBloomFilter} {hash : UInt256} {script : CScript} {vout : List CTxOut} {i : Nat}
  {fFound : Bool}

/-- Whether data of an output is an element of the filter, or a public key with the hash of one. -/
def reportsData (c : ScriptCrypto) (f : CBloomFilter) (data : Bytes) : Bool :=
  (data.length = 33 && (c.hash160 data).length ≠ 0 && f.reports (c.hash160 data)) || (data.length ≠ 0 && f.reports data)

/-- An output matches. -/
def matchesScript (c : ScriptCrypto) (f : CBloomFilter) (script : CScript) : Bool := script.opData.any (f.reportsData c)

/-- The mode asks for the outpoint of an output with the script. -/
def wants (f : CBloomFilter) (script : CScript) : Bool := f.updates script == some true

/-- Each of the outputs matches the filter with the outpoints that are inserted before it, and is one that the mode asks
for. -/
def InsertsInTurn (c : ScriptCrypto) (hash : UInt256) (vout : List CTxOut) : CBloomFilter → List Nat → Prop
  | _, [] => True
  | f, i :: inserted =>
      (∃ txout, vout[i]? = some txout ∧ f.matchesScript c txout.scriptPubKey = true ∧ f.wants txout.scriptPubKey = true) ∧
        InsertsInTurn c hash vout (f.withKey (outPointKey hash i)) inserted

/-- Behind a match, an output that has a first opcode and that the mode asks for matches itself. -/
def CleanFrom (c : ScriptCrypto) (hash : UInt256) (i : Nat) (f : CBloomFilter) (fFound : Bool) : List CTxOut → Prop
  | [] => True
  | txout :: vout =>
      let fMatch := f.matchesScript c txout.scriptPubKey
      (fFound = true → txout.scriptPubKey.opData ≠ [] → f.wants txout.scriptPubKey = true → fMatch = true) ∧
        CleanFrom c hash (i + 1)
          (if fMatch && f.wants txout.scriptPubKey then f.withKey (outPointKey hash i) else f) (fFound || fMatch) vout

/-- The transaction matches before its outputs are looked at. -/
def matchesHash (c : ScriptCrypto) (f : CBloomFilter) (tx : CTransaction) : Bool :=
  (f.nFlags &&& BLOOM_ACCEPT_STEALTH ≠ 0 && tx.hasStealthOutput) || f.reports (writeUInt256 (tx.getHash c))

/-- No output that a test comes to follows a match without matching itself, or the mode does not ask for it. -/
def ComesClean (c : ScriptCrypto) (f : CBloomFilter) (tx : CTransaction) : Prop :=
  f.isFull = false → f.isEmpty = false → CleanFrom c (tx.getHash c) 0 f (f.matchesHash c tx) tx.vout

/-! ## The loops -/

theorem findData_eq (hf : f.Sound) (data : Bytes) :
    f.findData c fFound data = some (fFound || f.reportsData c data) := by
  by_cases hpk : data.length = 33 ∧ (c.hash160 data).length ≠ 0
  · have hhash : c.hash160 data ≠ [] := fun hnil => hpk.2 (List.length_eq_zero_iff.2 hnil)
    simp only [findData, if_pos hpk, contains_eq hf, reportsData]
    cases fFound <;> cases f.reports (c.hash160 data) <;> simp [hpk.1, hhash]
  · have hpk' : (decide (data.length = 33) && decide ((c.hash160 data).length ≠ 0)) = false := by
      simpa [Bool.and_eq_false_iff] using hpk
    rw [findData, if_neg hpk, reportsData, hpk']
    by_cases hne : data.length = 0
    · simp [hne]
    · cases fFound <;> simp [hne, contains_eq hf]

/-- Whether the loop over the opcodes comes to the update. -/
theorem scanOutput_eq (hf : f.Sound) (rounds : Nat) (pc : CScript) :
    f.scanOutput c fFound rounds pc = some ((fFound && !(CScript.opDataFrom rounds pc).isEmpty) ||
      (CScript.opDataFrom rounds pc).any (f.reportsData c)) := by
  induction rounds generalizing pc fFound with
  | zero => simp [scanOutput, CScript.opDataFrom]
  | succ rounds ih =>
      rw [scanOutput, CScript.opDataFrom]
      rcases hop : CScript.getOp pc with _ | ⟨opcode, data, rest⟩
      · simp
      · simp only [findData_eq hf]
        cases hfound : (fFound || f.reportsData c data) with
        | true =>
            rcases (Bool.or_eq_true _ _).mp hfound with h | h <;> simp [h]
        | false =>
            obtain ⟨hfFound, hdata⟩ := Bool.or_eq_false_iff.1 hfound
            simp [ih, hfFound, hdata]

theorem scanOutput_script (hf : f.Sound) (script : CScript) :
    f.scanOutput c fFound script.length script = some ((fFound && !script.opData.isEmpty) || f.matchesScript c script) :=
  scanOutput_eq hf script.length script

theorem updates_eq (f : CBloomFilter) (script : CScript) : f.updates script = some (f.wants script) := by
  have hsome : (f.updates script).isSome = true := by
    rw [updates]
    split
    · rfl
    · split
      · rw [Option.isSome_map]
        exact solver_isSome script
      · rfl
  obtain ⟨b, hb⟩ := Option.isSome_iff_exists.1 hsome
  rw [wants, hb]
  cases b <;> rfl

/-- What the loop over the outputs from `i` on does. -/
structure ScansFrom (c : ScriptCrypto) (hash : UInt256) (all : List CTxOut) (i : Nat) (f : CBloomFilter) (fFound : Bool)
    (vout : List CTxOut) (scan : OutputScan) : Prop where
  grows : f.Grows scan.filter
  found : fFound = true ∨ (∃ txout ∈ vout, f.matchesScript c txout.scriptPubKey = true) → scan.fFound = true
  reported : ∀ j ∈ scan.inserted, scan.filter.reports (outPointKey hash j) = true
  inTurn : InsertsInTurn c hash all f scan.inserted ↔ CleanFrom c hash i f fFound vout

/-- An output whose outpoint is not inserted. -/
theorem ScansFrom.skip {all : List CTxOut} {txout : CTxOut} {scan : OutputScan} {fReached : Bool}
    (hreached : fReached = ((fFound && !txout.scriptPubKey.opData.isEmpty) || f.matchesScript c txout.scriptPubKey))
    (hskip : (fReached && f.wants txout.scriptPubKey) = false)
    (h : ScansFrom c hash all (i + 1) f (fFound || fReached) vout scan) :
    ScansFrom c hash all i f fFound (txout :: vout) scan where
  grows := h.grows
  found := by
    rintro (hfound | ⟨txout', hmem, hmatch⟩)
    · exact h.found (.inl (by rw [hfound, Bool.true_or]))
    · rcases List.mem_cons.1 hmem with rfl | hmem
      · exact h.found (.inl (by rw [hreached, hmatch, Bool.or_true, Bool.or_true]))
      · exact h.found (.inr ⟨txout', hmem, hmatch⟩)
  reported := h.reported
  inTurn := by
    have hnext : (fFound || fReached) = (fFound || f.matchesScript c txout.scriptPubKey) := by
      rw [hreached]
      cases fFound <;> cases txout.scriptPubKey.opData.isEmpty <;> simp
    have hnot : (f.matchesScript c txout.scriptPubKey && f.wants txout.scriptPubKey) = false := by
      cases hmatch : f.matchesScript c txout.scriptPubKey with
      | false => rfl
      | true => simpa [hreached, hmatch] using hskip
    rw [h.inTurn, CleanFrom]
    simp only [hnot, Bool.false_eq_true, if_false, hnext]
    refine ⟨fun hclean => ⟨fun hfound hdata hwants => ?_, hclean⟩, And.right⟩
    have hdata' : txout.scriptPubKey.opData.isEmpty = false := by simpa using hdata
    rw [hreached, hfound, hdata', hwants] at hskip
    simp at hskip

/-- An output whose outpoint is inserted. -/
theorem ScansFrom.insert {all : List CTxOut} {txout : CTxOut} {scan : OutputScan} (hf : f.Sound)
    (hat : all[i]? = some txout)
    (hreached : ((fFound && !txout.scriptPubKey.opData.isEmpty) || f.matchesScript c txout.scriptPubKey) = true)
    (hwants : f.wants txout.scriptPubKey = true)
    (h : ScansFrom c hash all (i + 1) (f.withKey (outPointKey hash i)) true vout scan) :
    ScansFrom c hash all i f fFound (txout :: vout) { scan with inserted := i :: scan.inserted } where
  grows := (grows_withKey hf _).trans h.grows
  found _ := h.found (.inl rfl)
  reported j hj := by
    rcases List.mem_cons.1 hj with rfl | hj
    · exact h.grows.reports _ (reports_withKey hf _)
    · exact h.reported j hj
  inTurn := by
    rw [InsertsInTurn, h.inTurn, CleanFrom]
    cases hmatch : f.matchesScript c txout.scriptPubKey with
    | true =>
        simp only [hwants, Bool.and_self, if_true, Bool.or_true, implies_true, true_and]
        exact ⟨And.right, fun hclean => ⟨⟨txout, hat, hmatch, hwants⟩, hclean⟩⟩
    | false =>
        rw [hmatch, Bool.or_false, Bool.and_eq_true] at hreached
        have hdata : txout.scriptPubKey.opData ≠ [] := by simpa using hreached.2
        constructor
        · rintro ⟨⟨txout', hat', hmatch', _⟩, _⟩
          cases hat.symm.trans hat'
          exact absurd (hmatch.symm.trans hmatch') Bool.false_ne_true
        · rintro ⟨hclean, _⟩
          exact absurd (hclean hreached.1 hdata hwants) Bool.false_ne_true

theorem scanOutputs_spec {all : List CTxOut} (hf : f.Sound) (hall : ∀ k, vout[k]? = all[i + k]?) :
    ∃ scan, scanOutputs c hash i f fFound vout = some scan ∧ ScansFrom c hash all i f fFound vout scan := by
  induction vout generalizing i f fFound with
  | nil =>
      refine ⟨_, rfl, .refl f, ?_, ?_, Iff.rfl⟩
      · rintro (hfound | ⟨_, hmem, _⟩)
        · exact hfound
        · cases hmem
      · intro j hj
        cases hj
  | cons txout vout ih =>
      have hat : all[i]? = some txout := (hall 0).symm
      have htail : ∀ k, vout[k]? = all[i + 1 + k]? := fun k => by
        have hk := hall (k + 1)
        rwa [List.getElem?_cons_succ, ← Nat.add_assoc, Nat.add_right_comm] at hk
      rw [scanOutputs, scanOutput_script hf, updates_eq]
      cases hreached : ((fFound && !txout.scriptPubKey.opData.isEmpty) || f.matchesScript c txout.scriptPubKey) with
      | false =>
          obtain ⟨scan, hrest, hspec⟩ := @ih f (i + 1) fFound hf htail
          refine ⟨scan, ?_, .skip hreached.symm (Bool.false_and _) (by rwa [Bool.or_false])⟩
          exact hrest
      | true =>
          cases hwants : f.wants txout.scriptPubKey with
          | false =>
              obtain ⟨scan, hrest, hspec⟩ := @ih f (i + 1) true hf htail
              refine ⟨scan, ?_, .skip hreached.symm (by rw [hwants, Bool.and_false]) (by rwa [Bool.or_true])⟩
              exact hrest
          | true =>
              have hinsert := insert_eq hf (outPointKey hash i)
              have hgrows := grows_withKey hf (outPointKey hash i)
              obtain ⟨scan, hrest, hspec⟩ := @ih _ (i + 1) true (hgrows.sound hf) htail
              refine ⟨{ scan with inserted := i :: scan.inserted }, ?_, .insert hf hat hreached hwants hspec⟩
              rw [outPointKey] at hinsert hrest
              simp [hinsert, hrest]

theorem scanInput_total (hf : f.Sound) (rounds : Nat) (pc : CScript) : ∃ found, f.scanInput rounds pc = some found := by
  induction rounds generalizing pc with
  | zero => exact ⟨false, rfl⟩
  | succ rounds ih =>
      rw [scanInput]
      rcases hop : CScript.getOp pc with _ | ⟨opcode, data, rest⟩
      · exact ⟨false, rfl⟩
      · obtain ⟨found, hrest⟩ := ih rest
        by_cases hdata : data.length = 0
        · exact ⟨found, by simp [hdata, hrest]⟩
        · cases hreports : f.reports data with
          | true => exact ⟨true, by simp [hdata, contains_eq hf, hreports]⟩
          | false => exact ⟨found, by simp [hdata, contains_eq hf, hreports, hrest]⟩

/-- The inputs are found by an outpoint that the filter reports. -/
theorem scanInputs_spec (hf : f.Sound) (vin : List CTxIn) :
    ∃ found, f.scanInputs vin = some found ∧ ((∃ txin ∈ vin, f.reports txin.prevout.write = true) → found = true) := by
  induction vin with
  | nil => exact ⟨false, rfl, fun ⟨_, hmem, _⟩ => nomatch hmem⟩
  | cons txin vin ih =>
      rw [scanInputs, contains_eq hf]
      cases hprevout : f.reports txin.prevout.write with
      | true => exact ⟨true, rfl, fun _ => rfl⟩
      | false =>
          obtain ⟨inScript, hscript⟩ := scanInput_total hf txin.scriptSig.length txin.scriptSig
          obtain ⟨found, hrest, hfound⟩ := ih
          cases inScript with
          | true => exact ⟨true, by simp [hscript], fun _ => rfl⟩
          | false =>
              refine ⟨found, by simp [hscript, hrest], ?_⟩
              rintro ⟨txin', hmem, hreports⟩
              rcases List.mem_cons.1 hmem with rfl | hmem
              · exact absurd (hprevout.symm.trans hreports) Bool.false_ne_true
              · exact hfound ⟨txin', hmem, hreports⟩

/-! ## A test -/

/-- What a test of a transaction does. -/
structure Tests (c : ScriptCrypto) (f : CBloomFilter) (tx : CTransaction) (tested : Tested) : Prop where
  updated : tested.filter.Updated
  grows : f.Grows tested.filter
  reported : ∀ i ∈ tested.inserted, tested.filter.reports (outPointKey (tx.getHash c) i) = true
  output : (∃ txout ∈ tx.vout, f.matchesScript c txout.scriptPubKey = true) → tested.relevant = true
  input : (∃ txin ∈ tx.vin, f.reports txin.prevout.write = true) → tested.relevant = true
  inTurn : InsertsInTurn c (tx.getHash c) tx.vout f tested.inserted ↔ f.ComesClean c tx

theorem not_reports_of_empty (hfull : f.isFull = false) (hempty : f.isEmpty = true) (key : Bytes) :
    f.reports key = false := by
  rw [reports, contains_of_empty hfull hempty]
  rfl

theorem not_matchesScript_of_empty (hfull : f.isFull = false) (hempty : f.isEmpty = true) (script : CScript) :
    f.matchesScript c script = false := by
  refine List.any_eq_false.2 fun data _ => ?_
  simp [reportsData, not_reports_of_empty hfull hempty]

/-- The hash is looked up where the stealth outputs do not settle it. -/
theorem findHash_eq (hf : f.Sound) (tx : CTransaction) : f.findHash c tx = some (f.matchesHash c tx) := by
  rw [findHash, contains_eq hf, matchesHash]
  split
  · next hstealth => simp [hstealth.1, hstealth.2]
  · next hstealth =>
      have hnot : (decide (f.nFlags &&& BLOOM_ACCEPT_STEALTH ≠ 0) && tx.hasStealthOutput) = false := by
        simpa [Bool.and_eq_false_iff] using hstealth
      rw [hnot, Bool.false_or]

theorem isRelevantAndUpdate_spec (hf : f.Updated) (tx : CTransaction) :
    ∃ tested, f.isRelevantAndUpdate c tx = some tested ∧ f.Tests c tx tested := by
  rw [isRelevantAndUpdate]
  cases hfull : f.isFull with
  | true =>
      refine ⟨_, rfl, hf, .refl f, fun i hi => (nomatch hi), fun _ => rfl, fun _ => rfl, ?_⟩
      exact ⟨fun _ hnot => absurd (hfull.symm.trans hnot) Bool.false_ne_true.symm, fun _ => trivial⟩
  | false =>
      cases hempty : f.isEmpty with
      | true =>
          refine ⟨_, rfl, hf, .refl f, fun i hi => (nomatch hi), ?_, ?_, ?_⟩
          · rintro ⟨txout, _, hmatch⟩
            exact absurd ((not_matchesScript_of_empty hfull hempty _).symm.trans hmatch) Bool.false_ne_true
          · rintro ⟨txin, _, hreports⟩
            exact absurd ((not_reports_of_empty hfull hempty _).symm.trans hreports) Bool.false_ne_true
          · exact ⟨fun _ _ hnot => absurd (hempty.symm.trans hnot) Bool.false_ne_true.symm, fun _ => trivial⟩
      | false =>
          have hscans : ∃ scan, scanOutputs c (tx.getHash c) 0 f (f.matchesHash c tx) tx.vout = some scan ∧
              ScansFrom c (tx.getHash c) tx.vout 0 f (f.matchesHash c tx) tx.vout scan :=
            scanOutputs_spec hf.sound fun k => by rw [Nat.zero_add]
          obtain ⟨scan, hscan, hspec⟩ := hscans
          have hclean : f.ComesClean c tx ↔ CleanFrom c (tx.getHash c) 0 f (f.matchesHash c tx) tx.vout :=
            ⟨fun h => h hfull hempty, fun h _ _ => h⟩
          have hupdated := hf.of_grows hfull hempty hspec.grows
          obtain ⟨found, hinputs, hfound⟩ := scanInputs_spec hupdated.sound tx.vin
          simp only [Bool.false_eq_true, if_false, findHash_eq hf.sound, Option.bind_eq_bind, Option.bind_some, hscan,
            hinputs]
          cases hfFound : scan.fFound with
          | true =>
              exact ⟨_, rfl, hupdated, hspec.grows, hspec.reported, fun _ => rfl, fun _ => rfl,
                hspec.inTurn.trans hclean.symm⟩
          | false =>
              refine ⟨_, rfl, hupdated, hspec.grows, hspec.reported, ?_, ?_, hspec.inTurn.trans hclean.symm⟩
              · intro houtput
                exact absurd (hfFound.symm.trans (hspec.found (.inr houtput))) Bool.false_ne_true
              · rintro ⟨txin, hmem, hreports⟩
                exact hfound ⟨txin, hmem, hspec.grows.reports _ hreports⟩

end CBloomFilter

end ProCurrency
