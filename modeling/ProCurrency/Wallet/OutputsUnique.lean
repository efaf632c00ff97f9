import ProCurrency.Connect.Minting

/-!
# New ring coins are unique

`AreOutputsUnique` of `CWallet` (wallet.cpp), and the check that its callers take it for.
-/

namespace ProCurrency

namespace ConnectEnv

variable {G : Type} (env : ConnectEnv G) (s : ConnectStore)

/-- `&s[2+1]` and the bytes of the key lie in the script. -/
def holdsKey (txout : CTxOut) : Bool := 3 + EC_COMPRESSED_SIZE ≤ txout.scriptPubKey.length

/-- `ReadAnonOutput` finds the key that stands in the script. -/
def keyStored (txout : CTxOut) : Bool := (s.anonOutputs (env.pubKey txout.extractAnonPk)).isSome

/-- `none` is a read past the end of a script. -/
def outputsUniqueFrom : List CTxOut → Option Bool
  | [] => some true
  | txout :: vout =>
      if txout.isAnonOutput then outputsUniqueFrom vout
      else if !holdsKey txout then none
      else if env.keyStored s txout then some false
      else outputsUniqueFrom vout

def areOutputsUnique (wtxNew : CTransaction) : Option Bool := env.outputsUniqueFrom s wtxNew.vout

/-! ## What is checked, and what is meant -/

/-- The outputs that make ring coins have keys of their own, none of which is known. -/
structure NewCoins (vout : List CTxOut) : Prop where
  distinct : ((vout.filter CTxOut.isAnonOutput).map CTxOut.extractAnonPk).Nodup
  fresh : ∀ txout ∈ vout, txout.isAnonOutput = true → env.keyStored s txout = false

structure ChecksNewCoins (wtxNew : CTransaction) : Prop where
  inside : ∃ fUnique, env.areOutputsUnique s wtxNew = some fUnique
  sound : env.areOutputsUnique s wtxNew = some true → env.NewCoins s wtxNew.vout

/-- An output that is not for a ring coin, with a script that is long enough. -/
def PlainInside (vout : List CTxOut) : Prop :=
  ∀ txout ∈ vout, txout.isAnonOutput = false → holdsKey txout = true

/-- The check stops at an output that is not for a ring coin, and that has the bytes of a known key in its
script. -/
def StopsAtPlain (vout : List CTxOut) : Prop :=
  ∃ before txout after, vout = before ++ txout :: after ∧ txout.isAnonOutput = false ∧ holdsKey txout = true ∧
    env.keyStored s txout = true ∧ PlainInside before

variable {env s}

theorem PlainInside.cons {txout : CTxOut} {vout : List CTxOut} (h : txout.isAnonOutput = false → holdsKey txout = true)
    (hvout : PlainInside vout) : PlainInside (txout :: vout) := by
  intro txout' hmem
  rcases List.mem_cons.1 hmem with rfl | hmem
  · exact h
  · exact hvout txout' hmem

theorem PlainInside.tail {txout : CTxOut} {vout : List CTxOut} (h : PlainInside (txout :: vout)) : PlainInside vout :=
  fun txout' hmem => h txout' (List.mem_cons_of_mem _ hmem)

theorem StopsAtPlain.cons {txout : CTxOut} {vout : List CTxOut} (h : txout.isAnonOutput = false → holdsKey txout = true)
    (hvout : env.StopsAtPlain s vout) : env.StopsAtPlain s (txout :: vout) := by
  obtain ⟨before, txout', after, rfl, hplain, hholds, hstored, hbefore⟩ := hvout
  exact ⟨txout :: before, txout', after, rfl, hplain, hholds, hstored, hbefore.cons h⟩

theorem outputsUniqueFrom_true {vout : List CTxOut} (h : env.outputsUniqueFrom s vout = some true) :
    PlainInside vout := by
  induction vout with
  | nil => intro txout hmem; cases hmem
  | cons txout vout ih =>
      rw [outputsUniqueFrom] at h
      split_ifs at h with hanon hholds hstored
      · exact (ih h).cons fun hplain => absurd hanon (by simp [hplain])
      · cases h
      · exact (ih h).cons fun _ => by simpa using hholds

theorem outputsUniqueFrom_false {vout : List CTxOut} (h : env.outputsUniqueFrom s vout = some false) :
    env.StopsAtPlain s vout := by
  induction vout with
  | nil => cases h
  | cons txout vout ih =>
      rw [outputsUniqueFrom] at h
      split_ifs at h with hanon hholds hstored
      · exact (ih h).cons fun hplain => absurd hanon (by simp [hplain])
      · refine ⟨[], txout, vout, rfl, by simpa using hanon, by simpa using hholds, hstored, ?_⟩
        intro txout' hmem
        cases hmem
      · exact (ih h).cons fun _ => by simpa using hholds

theorem outputsUniqueFrom_of_plainInside {vout : List CTxOut} (h : PlainInside vout) :
    ∃ fUnique, env.outputsUniqueFrom s vout = some fUnique := by
  induction vout with
  | nil => exact ⟨true, rfl⟩
  | cons txout vout ih =>
      have hhead := h txout List.mem_cons_self
      rw [outputsUniqueFrom]
      split_ifs with hanon hholds hstored
      · exact ih h.tail
      · rw [hhead (by simpa using hanon)] at hholds
        cases hholds
      · exact ⟨false, rfl⟩
      · exact ih h.tail

theorem outputsUniqueFrom_of_stops {vout : List CTxOut} (h : env.StopsAtPlain s vout) :
    env.outputsUniqueFrom s vout = some false := by
  obtain ⟨before, txout, after, rfl, hplain, hholds, hstored, hbefore⟩ := h
  induction before with
  | nil => simp [outputsUniqueFrom, hplain, hholds, hstored]
  | cons first before ih =>
      have hfirst := hbefore first List.mem_cons_self
      rw [List.cons_append, outputsUniqueFrom]
      split_ifs with hanon hshort
      · exact ih hbefore.tail
      · rw [hfirst (by simpa using hanon)] at hshort
        cases hshort
      · rfl
      · exact ih hbefore.tail

/-- The check does what it is taken for when it stops at a plain output, or when the scripts of all plain outputs
are long enough and the ring coins are new anyway. -/
theorem checksNewCoins_iff (env : ConnectEnv G) (s : ConnectStore) (wtxNew : CTransaction) :
    env.ChecksNewCoins s wtxNew ↔
      env.StopsAtPlain s wtxNew.vout ∨ (PlainInside wtxNew.vout ∧ env.NewCoins s wtxNew.vout) := by
  constructor
  · intro h
    obtain ⟨fUnique, hres⟩ := h.inside
    cases fUnique with
    | false => exact Or.inl (outputsUniqueFrom_false hres)
    | true => exact Or.inr ⟨outputsUniqueFrom_true hres, h.sound hres⟩
  · rintro (hstops | ⟨hinside, hnew⟩)
    · have hres := outputsUniqueFrom_of_stops hstops
      refine ⟨⟨false, hres⟩, fun htrue => ?_⟩
      rw [areOutputsUnique, hres] at htrue
      cases htrue
    · exact ⟨outputsUniqueFrom_of_plainInside hinside, fun _ => hnew⟩

/-! ## Two coins with one key -/

def coinOfKey (k : UInt8) : CTxOut where
  nValue := 100000000
  scriptPubKey := [OP_RETURN, OP_ANON_MARKER, 33, 2] ++ List.replicate 32 k ++ [33, 2] ++ List.replicate 32 0

def twoCoinsOfOneKey : CTransaction where
  nVersion := ANON_TXN_VERSION
  nTime := 0
  vin := []
  vout := [coinOfKey 1, coinOfKey 1]
  nLockTime := 0

/-- Two ring coins of one key pass the check. -/
theorem outputsUnique_misses_anon : fundedEnv.areOutputsUnique fundedStore twoCoinsOfOneKey = some true ∧
    ¬ fundedEnv.ChecksNewCoins fundedStore twoCoinsOfOneKey := by
  have hpass : fundedEnv.areOutputsUnique fundedStore twoCoinsOfOneKey = some true := by decide
  refine ⟨hpass, fun h => ?_⟩
  have hdistinct := (h.sound hpass).distinct
  revert hdistinct
  decide

end ConnectEnv

end ProCurrency
