import Mathlib.Data.ZMod.Basic
import Mathlib.Data.ZMod.Defs
import ProCurrency.Ring.Signature

/-!
# Which scheme binds the message?

The first scheme hashes the message before everything else, so a signature is accepted for one message at
most. The second scheme never reads it, so a signature is accepted for every message or for none.
-/

namespace ProCurrency

open ByteCodec

namespace RingSigEnv

variable {G : Type} (env : RingSigEnv G)

/-- The hash takes different messages, followed by the same bytes, to different scalars. -/
def MessageInjective : Prop :=
  ∀ t : List UInt8, Function.Injective fun txnHash : UInt256 =>
    env.hashToBn (writeUInt256 txnHash ++ t) % env.bnOrder

/-! ## The first scheme -/

/-- The rounds only append to the bytes that go into the hash. -/
theorem ringRounds_append (bnOrder : Nat) (member : Nat → Option (Nat × List UInt8)) (is : List Nat)
    (bnSum : Nat) (pre h : List UInt8) :
    ringRounds bnOrder member is { bnSum, ssCommitHash := pre ++ h } =
      (ringRounds bnOrder member is { bnSum, ssCommitHash := h }).map
        fun s => { s with ssCommitHash := pre ++ s.ssCommitHash } := by
  induction is generalizing bnSum h with
  | nil => rfl
  | cons i is ih =>
      rw [ringRounds, ringRounds]
      cases member i with
      | none => rfl
      | some r =>
          dsimp only
          rw [List.append_assoc, ih]

theorem bnModSub_eq_zero {a b m : Nat} (h : bnModSub a b m = 0) : a % m = b % m := by
  have hmod : (a : Int) % m = b % m := Int.emod_eq_emod_iff_emod_sub_eq_zero.mpr h
  exact_mod_cast hmod

variable [AddCommGroup G]

/-- What the rounds add up does not depend on the message. -/
theorem verifyRingSignature_accepts {keyImage : List UInt8} {nRingSize : Nat}
    {pPubkeys pSigc pSigr : List UInt8} {txnHash : UInt256}
    (h : env.verifyRingSignature keyImage txnHash nRingSize pPubkeys pSigc pSigr = 0) :
    ∃ ptKi s, env.oct2point (keyImage.take EC_COMPRESSED_SIZE) = some ptKi ∧
      ringRounds env.bnOrder (env.ringMember ptKi pPubkeys pSigc pSigr) (List.range nRingSize)
        { bnSum := 0, ssCommitHash := [] } = some s ∧
      env.hashToBn (writeUInt256 txnHash ++ s.ssCommitHash) % env.bnOrder = s.bnSum % env.bnOrder := by
  unfold verifyRingSignature at h
  cases hki : env.oct2point (keyImage.take EC_COMPRESSED_SIZE) with
  | none => simp [hki] at h
  | some ptKi =>
      have happend := ringRounds_append env.bnOrder (env.ringMember ptKi pPubkeys pSigc pSigr)
        (List.range nRingSize) 0 (writeUInt256 txnHash) []
      rw [List.append_nil] at happend
      simp only [hki, happend] at h
      cases hrounds : ringRounds env.bnOrder (env.ringMember ptKi pPubkeys pSigc pSigr)
          (List.range nRingSize) { bnSum := 0, ssCommitHash := [] } with
      | none => simp [hrounds] at h
      | some s =>
          simp only [hrounds, Option.map_some] at h
          split at h
          · have hmod := bnModSub_eq_zero ‹_›
            rw [Nat.mod_mod] at hmod
            exact ⟨ptKi, s, rfl, hrounds, hmod⟩
          · exact absurd h (by decide)

/-- A signature of the first scheme is accepted for one message at most. -/
theorem verifyRingSignature_unique {env : RingSigEnv G} (hinj : env.MessageInjective)
    {keyImage : List UInt8} {nRingSize : Nat} {pPubkeys pSigc pSigr : List UInt8} {m m' : UInt256}
    (h : env.verifyRingSignature keyImage m nRingSize pPubkeys pSigc pSigr = 0)
    (h' : env.verifyRingSignature keyImage m' nRingSize pPubkeys pSigc pSigr = 0) : m = m' := by
  obtain ⟨ptKi, s, hki, hs, hm⟩ := env.verifyRingSignature_accepts h
  obtain ⟨ptKi', s', hki', hs', hm'⟩ := env.verifyRingSignature_accepts h'
  obtain rfl := Option.some.inj (hki.symm.trans hki')
  obtain rfl := Option.some.inj (hs.symm.trans hs')
  exact hinj s.ssCommitHash (hm.trans hm'.symm)

/-! ## Both schemes -/

/-- An accepted signature is refused for every other message exactly when it is of the first scheme. -/
theorem verify_binds_iff {env : RingSigEnv G} (hinj : env.MessageInjective) {type : RingSigType}
    {sig : RingSignature} {m : UInt256} (haccept : env.verify type sig m = 0) :
    (∀ m', m' ≠ m → env.verify type sig m' ≠ 0) ↔ type = .RING_SIG_1 := by
  cases type with
  | RING_SIG_1 =>
      refine ⟨fun _ => rfl, fun _ m' hne haccept' => hne ?_⟩
      exact verifyRingSignature_unique hinj haccept' haccept
  | RING_SIG_2 =>
      refine ⟨fun hbinds => ?_, nofun⟩
      have hne : m + 1 ≠ m := by
        intro heq
        simp at heq
      exact absurd haccept (hbinds (m + 1) hne)

end RingSigEnv

/-! ## A group of prime order -/

/-- A hash that keeps the first 32 bytes, over the group of the prime order `2 ^ 256 + 297`. -/
def firstBytesEnv : RingSigEnv (ZMod (2 ^ 256 + 297)) where
  generator := 1
  bnOrder := 2 ^ 256 + 297
  oct2point p := if p.length = 33 ∧ bin2bn p ≠ 0 then some (Fin.ofNat _ (bin2bn p)) else none
  point2oct pt := if pt = 0 then [0] else CBigNum.beBytes 33 pt.val
  setCompressedCoordinates x := some (Fin.ofNat _ (x + 1))
  hash p := BitVec.ofNat 256 (ofLeBytes (p.take 32))
  fVFork1 := true

theorem firstBytesEnv_messageInjective : firstBytesEnv.MessageInjective := by
  have hhash : ∀ (m : UInt256) (t : List UInt8), firstBytesEnv.hash (writeUInt256 m ++ t) = m := by
    intro m t
    have htake : (writeUInt256 m ++ t).take 32 = writeUInt256 m := List.take_left' (length_leBytes _ _)
    have hval : ofLeBytes (writeUInt256 m) = m.toNat := ofLeBytes_leBytes m.isLt
    rw [show firstBytesEnv.hash (writeUInt256 m ++ t) =
      BitVec.ofNat 256 (ofLeBytes ((writeUInt256 m ++ t).take 32)) from rfl, htake, hval,
      BitVec.ofNat_toNat, BitVec.setWidth_eq]
  intro t m m' heq
  have hlt : ∀ m : UInt256, bin2bn (writeUInt256 m) < 2 ^ 256 + 297 := by
    intro m
    have hbound := ofLeBytes_lt (writeUInt256 m).reverse
    rw [← CBigNum.ofBeBytes_eq, List.length_reverse, writeUInt256, length_leBytes] at hbound
    exact hbound.trans (by decide)
  have hscalar : bin2bn (writeUInt256 m) = bin2bn (writeUInt256 m') := by
    simp only [RingSigEnv.hashToBn, hhash] at heq
    rwa [show firstBytesEnv.bnOrder = 2 ^ 256 + 297 from rfl, Nat.mod_eq_of_lt (hlt m),
      Nat.mod_eq_of_lt (hlt m')] at heq
  rw [bin2bn, bin2bn, CBigNum.ofBeBytes_eq, CBigNum.ofBeBytes_eq] at hscalar
  have hbytes := ofLeBytes_injective (by simp [writeUInt256]) hscalar
  have hval := congrArg ofLeBytes (List.reverse_injective hbytes)
  rw [writeUInt256, writeUInt256, ofLeBytes_leBytes m.isLt, ofLeBytes_leBytes m'.isLt] at hval
  exact BitVec.eq_of_toNat_eq hval

/-- A ring of one, whose challenge is zero and whose response is one. -/
def zeroChallenge : RingSignature where
  keyImage := 1 :: List.replicate 31 0 ++ [7]
  nRingSize := 1
  pPubkeys := 1 :: List.replicate 31 0 ++ [5]
  sigC := List.replicate 32 0
  sigR := List.replicate 31 0 ++ [1]

theorem verify_binds_iff_zeroChallenge :
    (∀ m', m' ≠ 0 → firstBytesEnv.verify .RING_SIG_1 zeroChallenge m' ≠ 0) ↔
      RingSigType.RING_SIG_1 = .RING_SIG_1 :=
  RingSigEnv.verify_binds_iff firstBytesEnv_messageInjective (by decide +kernel)

/-- A ring of two, whose first challenge is zero and whose responses are one. -/
def zeroChallengeAB : RingSignature where
  keyImage := List.replicate 32 0 ++ [7]
  nRingSize := 2
  pPubkeys := List.replicate 32 0 ++ [5] ++ List.replicate 32 0 ++ [6]
  sigC := List.replicate 32 0
  sigR := List.replicate 31 0 ++ [1] ++ List.replicate 31 0 ++ [1]

theorem verifyRingSignatureAB_lifted : firstBytesEnv.MessageInjective ∧
    firstBytesEnv.verify .RING_SIG_2 zeroChallengeAB 0 = 0 ∧
    firstBytesEnv.verify .RING_SIG_2 zeroChallengeAB 1 = 0 :=
  ⟨firstBytesEnv_messageInjective, by decide +kernel, by decide +kernel⟩

end ProCurrency
