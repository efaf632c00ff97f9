import Mathlib.Algebra.BigOperators.Group.List.Basic
import ProCurrency.Kernel.StakeModifier
import ProCurrency.Staking.CoinStake

/-!
# The coin age on a thin node

`GetCoinAgeThin` (main.cpp). The map of the headers, their records on disk and `GetHash` are an environment. A
result of `none` is a read past the last output of a previous transaction.
-/

namespace ProCurrency

/-- `getuint64`: the low bytes of the absolute value. -/
def CBigNum.getUInt64 (bn : CBigNum) : UInt64 := UInt64.ofNat bn.natAbs

/-- The parts of `CWalletTx` that the loop reads. -/
structure CWalletTx where
  tx : CTransaction
  hashBlock : UInt256
  deriving Repr, DecidableEq

structure CoinAgeThinEnv where
  txHash : CTransaction → UInt256
  headers : ThinHeaders
  nStakeMinAge : UInt32

/-- How the body of the loop ends. -/
inductive InputAge where
  | skipped
  | late
  | pastEnd
  | counted (bnCentSecond : CBigNum)
  deriving Repr, DecidableEq

namespace CoinAgeThinEnv

variable (env : CoinAgeThinEnv) (nTime : UInt32) (vWtxPrev : List CWalletTx)

/-- `nBlockTime`, where the header is in the chain. -/
def blockTime (hashBlock : UInt256) : Option Int :=
  match env.headers.mapBlockThinIndex hashBlock with
  | some (pindex, _) => some pindex.getBlockTime
  | none =>
      if env.headers.fThinFullIndex || env.headers.pindexRear.isNone then none
      else
        match env.headers.readBlockThinIndex hashBlock with
        | none => none
        | some diskindex => if diskindex.hashNext = 0 then none else some diskindex.getBlockTime

/-- The search of the loop: the last match stays, and without one `txPrev` is left as it was. -/
def loadPrev (txPrev : Option CWalletTx) (txin : CTxIn) : Option CWalletTx :=
  vWtxPrev.foldl (fun txPrev wtx => if env.txHash wtx.tx = txin.prevout.hash then some wtx else txPrev) txPrev

/-- The rest of the body, with the previous transaction that is loaded. -/
def inputAge (txPrev : Option CWalletTx) (txin : CTxIn) : InputAge :=
  match txPrev with
  | none => .skipped
  | some txPrev =>
      if nTime < txPrev.tx.nTime then .late
      else
        match env.blockTime txPrev.hashBlock with
        | none => .skipped
        | some nBlockTime =>
            if nTime.toNat < nBlockTime + env.nStakeMinAge.toNat then .skipped
            else
              match txPrev.tx.vout[txin.prevout.n.toNat]? with
              | none => .pastEnd
              | some txout =>
                  .counted ((txout.nValue.toInt * (nTime - txPrev.tx.nTime).toNat).tdiv CENT.toInt)

/-- The loop; `some none` is the answer that the transaction is too early. -/
def centSecondsFrom (txPrev : Option CWalletTx) (bnCentSecond : CBigNum) : List CTxIn → Option (Option CBigNum)
  | [] => some (some bnCentSecond)
  | txin :: vin =>
      let txPrev := env.loadPrev vWtxPrev txPrev txin
      match env.inputAge nTime txPrev txin with
      | .skipped => centSecondsFrom txPrev bnCentSecond vin
      | .late => some none
      | .pastEnd => none
      | .counted bn => centSecondsFrom txPrev (bnCentSecond + bn) vin

def coinDays (bnCentSecond : CBigNum) : UInt64 :=
  CBigNum.getUInt64 (((bnCentSecond * CENT.toInt).tdiv COIN).tdiv (24 * 60 * 60))

/-- The answer, and what is left in `nCoinAge`. -/
def getCoinAgeThin (txCoinStake : CTransaction) : Option (Bool × UInt64) :=
  if txCoinStake.isCoinBase then some (true, 0)
  else
    match env.centSecondsFrom txCoinStake.nTime vWtxPrev none 0 txCoinStake.vin with
    | none => none
    | some none => some (false, 0)
    | some (some bnCentSecond) => some (true, coinDays bnCentSecond)

/-! ## One input at a time -/

/-- The previous transaction of this input. -/
def ownPrev (txin : CTxIn) : Option CWalletTx := env.loadPrev vWtxPrev none txin

def ownAge (tx : CTransaction) (txin : CTxIn) : InputAge := env.inputAge tx.nTime (env.ownPrev vWtxPrev txin) txin

end CoinAgeThinEnv

/-- What an input adds. -/
def InputAge.centSeconds : InputAge → CBigNum
  | .counted bnCentSecond => bnCentSecond
  | _ => 0

namespace CoinAgeThinEnv

variable (env : CoinAgeThinEnv) (tx : CTransaction) (vWtxPrev : List CWalletTx)

/-- The age with every input counted by its own previous transaction. -/
def ageByInput : Bool × UInt64 :=
  if tx.isCoinBase then (true, 0)
  else if .late ∈ tx.vin.map (env.ownAge vWtxPrev tx) then (false, 0)
  else (true, coinDays ((tx.vin.map (env.ownAge vWtxPrev tx)).map InputAge.centSeconds).sum)

/-- The inputs that the loop goes through, each with the transaction that is loaded there. -/
def visitedFrom (nTime : UInt32) (vWtxPrev : List CWalletTx) (txPrev : Option CWalletTx) :
    List CTxIn → List (CTxIn × Option CWalletTx)
  | [] => []
  | txin :: vin =>
      let txPrev := env.loadPrev vWtxPrev txPrev txin
      (txin, txPrev) ::
        match env.inputAge nTime txPrev txin with
        | .skipped => visitedFrom nTime vWtxPrev txPrev vin
        | .late => []
        | .pastEnd => []
        | .counted _ => visitedFrom nTime vWtxPrev txPrev vin

def visited (txCoinStake : CTransaction) : List (CTxIn × Option CWalletTx) :=
  if txCoinStake.isCoinBase then [] else env.visitedFrom txCoinStake.nTime vWtxPrev none txCoinStake.vin

/-- Whatever the order of the inputs, each is looked at with its own previous transaction, and the age is the one
that these give. -/
structure AgePerInput : Prop where
  own : ∀ vin, vin.Perm tx.vin → ∀ p ∈ env.visited vWtxPrev { tx with vin := vin }, p.2 = env.ownPrev vWtxPrev p.1
  age : ∀ vin, vin.Perm tx.vin →
    env.getCoinAgeThin vWtxPrev { tx with vin := vin } = some (env.ageByInput tx vWtxPrev)

/-- An input without a previous transaction meets none that was loaded before: there is no such input, or the first
input that has one ends the loop. -/
def Separate (vin : List CTxIn) : Prop :=
  (∀ txin ∈ vin, env.ownPrev vWtxPrev txin ≠ none) ∨
    ∀ txin ∈ vin, env.ownPrev vWtxPrev txin ≠ none → env.ownAge vWtxPrev tx txin = .late

variable {env tx vWtxPrev}

theorem loadPrev_eq (txPrev : Option CWalletTx) (txin : CTxIn) :
    env.loadPrev vWtxPrev txPrev txin = (env.ownPrev vWtxPrev txin).or txPrev := by
  unfold ownPrev loadPrev
  induction vWtxPrev generalizing txPrev with
  | nil => rfl
  | cons wtx vWtxPrev ih =>
      rw [List.foldl_cons, List.foldl_cons, ih]
      by_cases hhash : env.txHash wtx.tx = txin.prevout.hash
      · rw [if_pos hhash, if_pos hhash, ih (some wtx), Option.or_assoc]
        rfl
      · rw [if_neg hhash, if_neg hhash]

/-- What the loop carries: as long as an input without a previous transaction is ahead, none is loaded and every
input that has one ends the loop. -/
def Clear (env : CoinAgeThinEnv) (tx : CTransaction) (vWtxPrev : List CWalletTx) (txPrev : Option CWalletTx)
    (vin : List CTxIn) : Prop :=
  ∀ txin ∈ vin, env.ownPrev vWtxPrev txin = none → txPrev = none ∧
    ∀ txin' ∈ vin, env.ownPrev vWtxPrev txin' ≠ none → env.ownAge vWtxPrev tx txin' = .late

theorem Separate.clear {vin : List CTxIn} (h : Separate env tx vWtxPrev vin) : Clear env tx vWtxPrev none vin := by
  intro txin hmem hnone
  rcases h with hall | hlate
  · exact absurd hnone (hall txin hmem)
  · exact ⟨rfl, hlate⟩

theorem Separate.perm {vin vin' : List CTxIn} (h : Separate env tx vWtxPrev vin) (hp : vin'.Perm vin) :
    Separate env tx vWtxPrev vin' :=
  Or.imp (fun hall txin hmem => hall txin (hp.mem_iff.1 hmem))
    (fun hlate txin hmem => hlate txin (hp.mem_iff.1 hmem)) h

theorem Clear.loadPrev {txPrev : Option CWalletTx} {txin : CTxIn} {vin : List CTxIn}
    (h : Clear env tx vWtxPrev txPrev (txin :: vin)) :
    env.loadPrev vWtxPrev txPrev txin = env.ownPrev vWtxPrev txin := by
  rw [loadPrev_eq]
  cases hown : env.ownPrev vWtxPrev txin with
  | none => rw [(h txin List.mem_cons_self hown).1, Option.or_none]
  | some wtx => rfl

/-- An input that does not end the loop leaves it clear. -/
theorem Clear.tail {txPrev : Option CWalletTx} {txin : CTxIn} {vin : List CTxIn}
    (h : Clear env tx vWtxPrev txPrev (txin :: vin)) (hlate : env.ownAge vWtxPrev tx txin ≠ .late) :
    Clear env tx vWtxPrev (env.ownPrev vWtxPrev txin) vin := by
  intro txin' hmem hnone
  obtain ⟨_, hall⟩ := h txin' (List.mem_cons_of_mem _ hmem) hnone
  constructor
  · by_contra hown
    exact hlate (hall txin List.mem_cons_self hown)
  · intro txin'' hmem'
    exact hall txin'' (List.mem_cons_of_mem _ hmem')

theorem visitedFrom_clear {txPrev : Option CWalletTx} {vin : List CTxIn} (h : Clear env tx vWtxPrev txPrev vin) :
    ∀ p ∈ env.visitedFrom tx.nTime vWtxPrev txPrev vin, p.2 = env.ownPrev vWtxPrev p.1 := by
  induction vin generalizing txPrev with
  | nil => intro p hp; cases hp
  | cons txin vin ih =>
      intro p hp
      rw [visitedFrom, h.loadPrev] at hp
      rcases List.mem_cons.1 hp with rfl | hp
      · rfl
      · have htail (hlate : env.ownAge vWtxPrev tx txin ≠ .late) := ih (h.tail hlate)
        unfold ownAge at htail
        cases hage : env.inputAge tx.nTime (env.ownPrev vWtxPrev txin) txin with
        | skipped => rw [hage] at hp htail; exact htail (by simp) p hp
        | late => rw [hage] at hp; cases hp
        | pastEnd => rw [hage] at hp; cases hp
        | counted bn => rw [hage] at hp htail; exact htail (by simp) p hp

theorem centSecondsFrom_clear {txPrev : Option CWalletTx} {vin : List CTxIn} {bnCentSecond : CBigNum}
    (h : Clear env tx vWtxPrev txPrev vin) (hend : ∀ txin ∈ vin, env.ownAge vWtxPrev tx txin ≠ .pastEnd) :
    env.centSecondsFrom tx.nTime vWtxPrev txPrev bnCentSecond vin =
      some (if .late ∈ vin.map (env.ownAge vWtxPrev tx) then none
        else some (bnCentSecond + ((vin.map (env.ownAge vWtxPrev tx)).map InputAge.centSeconds).sum)) := by
  induction vin generalizing txPrev bnCentSecond with
  | nil => simp [centSecondsFrom]
  | cons txin vin ih =>
      have htail (hlate : env.ownAge vWtxPrev tx txin ≠ .late) (bn : CBigNum) :=
        @ih _ bn (h.tail hlate) fun txin' hmem => hend txin' (List.mem_cons_of_mem _ hmem)
      have hhead := hend txin List.mem_cons_self
      rw [centSecondsFrom, h.loadPrev]
      simp only [List.map_cons, List.mem_cons, List.sum_cons]
      change (match env.ownAge vWtxPrev tx txin with
        | .skipped => env.centSecondsFrom tx.nTime vWtxPrev (env.ownPrev vWtxPrev txin) bnCentSecond vin
        | .late => some none
        | .pastEnd => none
        | .counted bn => env.centSecondsFrom tx.nTime vWtxPrev (env.ownPrev vWtxPrev txin) (bnCentSecond + bn) vin) = _
      cases hage : env.ownAge vWtxPrev tx txin with
      | skipped =>
          rw [hage] at htail
          dsimp only
          rw [htail (by simp)]
          simp [InputAge.centSeconds]
      | late => simp
      | pastEnd => exact absurd hage hhead
      | counted bn =>
          rw [hage] at htail
          dsimp only
          rw [htail (by simp)]
          simp [InputAge.centSeconds, Int.add_assoc]

/-! ## The order of the inputs -/

theorem isCoinBase_perm {vin : List CTxIn} (hp : vin.Perm tx.vin) :
    ({ tx with vin := vin } : CTransaction).isCoinBase = tx.isCoinBase := by
  unfold CTransaction.isCoinBase
  dsimp only
  match htx : tx.vin with
  | [] =>
      rw [htx] at hp
      rw [List.Perm.eq_nil hp]
  | [txin] =>
      rw [htx] at hp
      rw [List.perm_singleton.1 hp]
  | txin :: txin' :: rest =>
      rw [htx] at hp
      obtain ⟨a, b, l, rfl⟩ : ∃ a b l, vin = a :: b :: l := by
        have hlen := hp.length_eq
        match vin with
        | [] => simp at hlen
        | [a] => simp at hlen
        | a :: b :: l => exact ⟨a, b, l, rfl⟩
      rfl

theorem visited_of_not {vin : List CTxIn} (hp : vin.Perm tx.vin) (hbase : tx.isCoinBase = false) :
    env.visited vWtxPrev { tx with vin := vin } = env.visitedFrom tx.nTime vWtxPrev none vin := by
  rw [visited, isCoinBase_perm hp, hbase]
  rfl

theorem getCoinAgeThin_of_not {vin : List CTxIn} (hp : vin.Perm tx.vin) (hbase : tx.isCoinBase = false) :
    env.getCoinAgeThin vWtxPrev { tx with vin := vin } =
      match env.centSecondsFrom tx.nTime vWtxPrev none 0 vin with
      | none => none
      | some none => some (false, 0)
      | some (some bnCentSecond) => some (true, coinDays bnCentSecond) := by
  rw [getCoinAgeThin, isCoinBase_perm hp, hbase]
  rfl

theorem agePerInput_of_coinBase (hbase : tx.isCoinBase = true) : AgePerInput env tx vWtxPrev where
  own := by
    intro vin hp p hmem
    rw [visited, isCoinBase_perm hp, if_pos hbase] at hmem
    cases hmem
  age := by
    intro vin hp
    rw [getCoinAgeThin, isCoinBase_perm hp, if_pos hbase, ageByInput, if_pos hbase]

theorem agePerInput_of_separate (hbase : tx.isCoinBase = false) (hsep : Separate env tx vWtxPrev tx.vin)
    (hend : ∀ txin ∈ tx.vin, env.ownAge vWtxPrev tx txin ≠ .pastEnd) : AgePerInput env tx vWtxPrev where
  own := by
    intro vin hp
    rw [visited_of_not hp hbase]
    exact visitedFrom_clear (hsep.perm hp).clear
  age := by
    intro vin hp
    have hmap := hp.map (env.ownAge vWtxPrev tx)
    rw [getCoinAgeThin_of_not hp hbase,
      centSecondsFrom_clear (hsep.perm hp).clear fun txin hmem => hend txin (hp.mem_iff.1 hmem), ageByInput, hbase]
    simp only [hmap.mem_iff, (hmap.map InputAge.centSeconds).sum_eq, Int.zero_add]
    by_cases hlate : .late ∈ tx.vin.map (env.ownAge vWtxPrev tx)
    · rw [if_pos hlate]
      simp [hlate]
    · rw [if_neg hlate]
      simp [hlate]

/-- An input that reads past the end does so when it is the first one. -/
theorem AgePerInput.not_pastEnd (h : AgePerInput env tx vWtxPrev) (hbase : tx.isCoinBase = false) {txin : CTxIn}
    (hmem : txin ∈ tx.vin) : env.ownAge vWtxPrev tx txin ≠ .pastEnd := by
  intro hage
  have hp := (List.perm_cons_erase hmem).symm
  have hres := h.age _ hp
  rw [getCoinAgeThin_of_not hp hbase, centSecondsFrom] at hres
  change env.inputAge tx.nTime (env.loadPrev vWtxPrev none txin) txin = .pastEnd at hage
  rw [hage] at hres
  cases hres

/-- Right behind an input that is counted or skipped, an input without a previous transaction takes that of the
other. -/
theorem AgePerInput.late_of_missing (h : AgePerInput env tx vWtxPrev) (hbase : tx.isCoinBase = false)
    {txin txin' : CTxIn} (hmem : txin ∈ tx.vin) (hmissing : env.ownPrev vWtxPrev txin = none) (hmem' : txin' ∈ tx.vin)
    (hfound : env.ownPrev vWtxPrev txin' ≠ none) : env.ownAge vWtxPrev tx txin' = .late := by
  by_contra hlate
  have hend := h.not_pastEnd hbase hmem'
  have hne : txin ≠ txin' := by
    rintro rfl
    exact hfound hmissing
  have hrest := List.perm_cons_erase ((List.mem_erase_of_ne hne).2 hmem)
  have hp := ((List.perm_cons_erase hmem').trans (hrest.cons txin')).symm
  have hown := h.own _ hp
  have hload : env.loadPrev vWtxPrev (env.ownPrev vWtxPrev txin') txin = env.ownPrev vWtxPrev txin' := by
    rw [loadPrev_eq, hmissing, Option.none_or]
  rw [visited_of_not hp hbase, visitedFrom, visitedFrom] at hown
  change ∀ p ∈ (txin', env.ownPrev vWtxPrev txin') ::
    (match env.ownAge vWtxPrev tx txin' with
      | .skipped => (txin, env.loadPrev vWtxPrev (env.ownPrev vWtxPrev txin') txin) :: _
      | .late => []
      | .pastEnd => []
      | .counted _ => (txin, env.loadPrev vWtxPrev (env.ownPrev vWtxPrev txin') txin) :: _),
    p.2 = env.ownPrev vWtxPrev p.1 at hown
  have hbad : (txin, env.ownPrev vWtxPrev txin').2 = env.ownPrev vWtxPrev txin := by
    cases hage : env.ownAge vWtxPrev tx txin' with
    | skipped => rw [hage, hload] at hown; exact hown _ (by simp)
    | late => exact absurd hage hlate
    | pastEnd => exact absurd hage hend
    | counted bn => rw [hage, hload] at hown; exact hown _ (by simp)
  exact hfound (hbad.trans hmissing)

/-- The inputs are counted one by one for a coin base, and for a transaction whose inputs without a previous
transaction meet none that was loaded before and which spends no output that is not there. -/
theorem agePerInput_iff (env : CoinAgeThinEnv) (tx : CTransaction) (vWtxPrev : List CWalletTx) :
    AgePerInput env tx vWtxPrev ↔ tx.isCoinBase = true ∨ (Separate env tx vWtxPrev tx.vin ∧
      ∀ txin ∈ tx.vin, env.ownAge vWtxPrev tx txin ≠ .pastEnd) := by
  constructor
  · intro h
    cases hbase : tx.isCoinBase with
    | true => exact Or.inl rfl
    | false =>
        refine Or.inr ⟨?_, fun txin hmem => h.not_pastEnd hbase hmem⟩
        by_cases hall : ∀ txin ∈ tx.vin, env.ownPrev vWtxPrev txin ≠ none
        · exact Or.inl hall
        · simp only [not_forall, not_not] at hall
          obtain ⟨txin, hmem, hmissing⟩ := hall
          exact Or.inr fun txin' hmem' hfound => h.late_of_missing hbase hmem hmissing hmem' hfound
  · rintro (hbase | ⟨hsep, hend⟩)
    · exact agePerInput_of_coinBase hbase
    · cases hbase : tx.isCoinBase with
      | true => exact agePerInput_of_coinBase hbase
      | false => exact agePerInput_of_separate hbase hsep hend

/-! ## A missing transaction behind one that is found -/

/-- One coin, of the time zero. -/
def ownedCoin : CWalletTx where
  tx :=
    { nVersion := 1, nTime := 0, vin := [], vout := [{ nValue := 100000000, scriptPubKey := [] }], nLockTime := 0 }
  hashBlock := 5

def headerOfCoin : StakeThinIndex where
  nHeight := 1
  nFlags := 0
  nTime := 0
  nBits := 0
  hashBlock := 5
  nStakeModifier := 0
  hashProof := 0

/-- Every header is in the map, and every transaction has the hash 1. -/
def oneHeaderEnv : CoinAgeThinEnv where
  txHash := fun _ => 1
  headers :=
    { fThinFullIndex := true
      pindexRear := none
      mapBlockThinIndex := fun _ => some (headerOfCoin, [])
      readBlockThinIndex := fun _ => none }
  nStakeMinAge := 3600

def spending (hash : UInt256) : CTxIn where
  prevout := { hash := hash, n := 0 }
  scriptSig := []
  nSequence := 0

/-- A day later the coin is spent, and one that the wallet does not have. -/
def twoInputs (vin : List CTxIn) : CTransaction where
  nVersion := 1
  nTime := 86400
  vin := vin
  vout := [{ nValue := 0, scriptPubKey := [] }]
  nLockTime := 0

theorem coinAge_depends_on_order :
    oneHeaderEnv.getCoinAgeThin [ownedCoin] (twoInputs [spending 1, spending 2]) = some (true, 2) ∧
      oneHeaderEnv.getCoinAgeThin [ownedCoin] (twoInputs [spending 2, spending 1]) = some (true, 1) ∧
      ¬ AgePerInput oneHeaderEnv (twoInputs [spending 1, spending 2]) [ownedCoin] := by
  have hfirst : oneHeaderEnv.getCoinAgeThin [ownedCoin] (twoInputs [spending 1, spending 2]) = some (true, 2) := by
    decide
  have hsecond : oneHeaderEnv.getCoinAgeThin [ownedCoin] (twoInputs [spending 2, spending 1]) = some (true, 1) := by
    decide
  refine ⟨hfirst, hsecond, fun h => ?_⟩
  have hown := h.age [spending 1, spending 2] (.refl _)
  have hswap := h.age [spending 2, spending 1] (.swap _ _ _)
  rw [← hown] at hswap
  exact absurd (hsecond.symm.trans (hswap.trans hfirst)) (by decide)

end CoinAgeThinEnv

end ProCurrency
