import Mathlib.Data.Nat.Prime.Basic
import Mathlib.Data.ZMod.Basic
import ProCurrency.Ring.Lemmas.Rounds

/-!
# What is signed verifies

A signature that is made with the secret of a member is accepted, whichever member it is and whatever the random
choices were. In the second scheme the signer goes around the ring from the member after its own, and the
verification from the first one: both go through the same challenges.
-/

namespace ProCurrency

namespace RingSigEnv

variable {G : Type} [AddCommGroup G] {env : RingSigEnv G}

/-! ## The first scheme -/

theorem bnModSub_modEq {a b m : Nat} (hm : 0 < m) : b + (bnModSub a b m).toNat ≡ a [MOD m] := by
  have hnonneg : 0 ≤ bnModSub a b m := Int.emod_nonneg _ (by omega)
  rw [← Int.natCast_modEq_iff, Nat.cast_add, Int.toNat_of_nonneg hnonneg, bnModSub]
  calc (b : Int) + ((a : Int) - b) % m ≡ b + ((a : Int) - b) [ZMOD m] := (Int.mod_modEq _ _).add_left _
    _ = a := by ring

theorem bnModSub_eq_zero_of_modEq {a b m : Nat} (h : b ≡ a [MOD m]) : bnModSub a b m = 0 :=
  Int.emod_eq_zero_of_dvd (Nat.modEq_iff_dvd.mp h)

theorem verify_generateRingSignature (hgroup : ∀ pt : G, env.bnOrder • pt = 0) (hpos : 0 < env.bnOrder)
    {rand : RingRandom} {keyImage pPubkeys sigc sigr : List UInt8} {txnHash : UInt256}
    {nRingSize nSecretOffset : Nat} {secret : EcSecret} {ptKi : G} (hoffset : nSecretOffset < nRingSize)
    (hsigner : Signer env secret (partOf pPubkeys EC_COMPRESSED_SIZE nSecretOffset) keyImage ptKi)
    (h : env.generateRingSignature rand keyImage txnHash nRingSize nSecretOffset secret pPubkeys =
      some (sigc, sigr)) :
    env.verifyRingSignature keyImage txnHash nRingSize pPubkeys sigc sigr = 0 := by
  have htake : keyImage.take EC_COMPRESSED_SIZE = keyImage := List.take_of_length_le hsigner.length.le
  rw [generateRingSignature, htake] at h
  obtain ⟨scData1, -, h⟩ := Option.bind_eq_some_iff.mp h
  obtain ⟨ptKi', hki, h⟩ := Option.bind_eq_some_iff.mp h
  rw [hsigner.image] at hki
  cases hki
  obtain ⟨s, hrounds, h⟩ := Option.bind_eq_some_iff.mp h
  obtain ⟨hcs, hrs, hsome, hcommit, hsum⟩ := signRounds_eq_some hrounds
  dsimp only at h
  obtain ⟨c, hc, h⟩ := Option.bind_eq_some_iff.mp h
  obtain ⟨r, hr, h⟩ := Option.bind_eq_some_iff.mp h
  cases h
  have hmem : nSecretOffset ∈ List.range nRingSize := List.mem_range.mpr hoffset
  -- The arrays, with the parts of the member that signs in them.
  rw [List.nil_append] at hcs hrs
  rw [hcs, hrs, map_range_set, map_range_set]
  have hmember : ∀ i ∈ List.range nRingSize, env.ringMember ptKi pPubkeys
      (sigBytes ((List.range nRingSize).map (Function.update (firstPart rand nSecretOffset) nSecretOffset c)))
      (sigBytes ((List.range nRingSize).map (Function.update (secondPart rand nSecretOffset) nSecretOffset r))) i =
      some ((Function.update (firstPart rand nSecretOffset) nSecretOffset c i).bn,
        (env.signerPoints rand nSecretOffset scData1.bn ptKi pPubkeys i).getD []) := by
    intro i hi
    have hlt := List.mem_range.mp hi
    obtain ⟨oct, hoct⟩ := Option.isSome_iff_exists.mp (hsome i hi)
    have hpart : ∀ f : Nat → EcSecret, bin2bn (partOf (sigBytes ((List.range nRingSize).map f)) EC_SECRET_SIZE i) =
        (f i).bn := by
      intro f
      have hlength : i < ((List.range nRingSize).map f).length := by
        rwa [List.length_map, List.length_range]
      rw [partOf_sigBytes hlength, List.get_eq_getElem, List.getElem_map, List.getElem_range]
      rfl
    rw [ringMember_eq, hpart, hpart, hoct, Option.getD_some]
    rw [signerPoints] at hoct
    rcases eq_or_ne i nSecretOffset with rfl | hne
    · rw [if_pos rfl] at hoct
      rw [Function.update_self, Function.update_self, EcSecret.bn_ofBn hc, EcSecret.bn_ofBn hr,
        hsigner.memberPoints_eq hgroup hpos, hoct]
      rfl
    · rw [if_neg hne] at hoct
      rw [Function.update_of_ne hne, Function.update_of_ne hne, hoct]
      rfl
  obtain ⟨bnSum, hverify, htotal⟩ := ringRounds_of_members env.bnOrder hmember
    ⟨0, writeUInt256 txnHash⟩
  rw [verifyRingSignature, htake, hsigner.image]
  dsimp only
  rw [hverify, ← hcommit]
  dsimp only
  refine if_pos (bnModSub_eq_zero_of_modEq ?_)
  -- The challenge of the member that signs makes up the difference.
  have hupdate : (List.range nRingSize).map (fun i => (Function.update (firstPart rand nSecretOffset) nSecretOffset c i).bn) =
      (List.range nRingSize).map (Function.update (fun i => (firstPart rand nSecretOffset i).bn) nSecretOffset c.bn) := by
    refine List.map_congr_left fun i _ => ?_
    rw [Function.update_apply, Function.update_apply]
    split_ifs <;> rfl
  have hzero : (firstPart rand nSecretOffset nSecretOffset).bn = 0 := by
    rw [firstPart, if_pos rfl, EcSecret.bn_zero]
  rw [hupdate, sum_update List.nodup_range hmem hzero, EcSecret.bn_ofBn hc, ← Nat.add_assoc] at htotal
  exact (htotal.trans (hsum.symm.add_right _)).trans (bnModSub_modEq hpos)

/-! ## The second scheme -/

theorem length_randomParts {rand : RingRandom} {nSecretOffset : Nat} {is : List Nat} {parts : List EcSecret}
    (h : randomParts rand nSecretOffset is = some parts) : parts.length = is.length := by
  induction is generalizing parts with
  | nil =>
      cases h
      rfl
  | cons i is ih =>
      rw [randomParts] at h
      split at h
      · cases h
      · cases hrest : randomParts rand nSecretOffset is with
        | none => simp [hrest] at h
        | some rest =>
            simp only [hrest] at h
            cases h
            rw [List.length_cons, List.length_cons, ih hrest]

/-- The round of the member that signs leads from its challenge to the one that the signer has started with. -/
theorem Signer.memberAB_eq {secret : EcSecret} {keyImage pPubkeys octL octR : List UInt8} {ptKi ptT3 : G}
    {j bnA cj : Nat} {parts : List EcSecret} {bnS : EcSecret} (tmpPkHash : UInt256)
    (hgroup : ∀ pt : G, env.bnOrder • pt = 0) (hpos : 0 < env.bnOrder)
    (h : Signer env secret (partOf pPubkeys EC_COMPRESSED_SIZE j) keyImage ptKi) (hj : j < parts.length)
    (hhash : env.hashToEC (partOf pPubkeys EC_COMPRESSED_SIZE j) false = some ptT3)
    (hL : env.point2oct33 (bnA • env.generator) = some octL) (hR : env.point2oct33 (bnA • ptT3) = some octR)
    (hbnS : EcSecret.ofBn (bnModSub bnA (cj * secret.bn) env.bnOrder).toNat = some bnS) :
    memberAB env ptKi tmpPkHash pPubkeys (parts.set j bnS) j cj =
      some (env.hashToBn (writeUInt256 tmpPkHash ++ (octL ++ octR)) % env.bnOrder) := by
  obtain ⟨ptT3', hhash', rfl⟩ := h.hashToEC
  rw [hhash] at hhash'
  cases hhash'
  have hresponse : bin2bn bnS.val = (((bnA : Int) - (cj * secret.bn : Nat)) % env.bnOrder).toNat :=
    EcSecret.bn_ofBn hbnS
  rw [memberAB, ringMemberAB, partOf_set_self bnS hj, h.oct2point, hhash, hresponse]
  simp only [Option.bind_eq_bind, Option.bind_some]
  rw [add_comm, Response.closes hgroup hpos, hL, add_comm, Response.closes hgroup hpos, hR]
  rfl

theorem verify_generateRingSignatureAB (hgroup : ∀ pt : G, env.bnOrder • pt = 0) (hpos : 0 < env.bnOrder)
    {rand : RingRandom} {keyImage pPubkeys sigC pSigS : List UInt8} {txnHash : UInt256}
    {nRingSize nSecretOffset : Nat} {secret : EcSecret} {ptKi : G} (hoffset : nSecretOffset < nRingSize)
    (hsize : 2 ≤ nRingSize)
    (hsigner : Signer env secret (partOf pPubkeys EC_COMPRESSED_SIZE nSecretOffset) keyImage ptKi)
    (h : env.generateRingSignatureAB rand keyImage txnHash nRingSize nSecretOffset secret pPubkeys =
      some (sigC, pSigS)) :
    env.verifyRingSignatureAB keyImage txnHash nRingSize pPubkeys sigC pSigS = 0 := by
  have htake : keyImage.take EC_COMPRESSED_SIZE = keyImage := List.take_of_length_le hsigner.length.le
  rw [generateRingSignatureAB, htake] at h
  generalize htmp : env.hash ((List.range nRingSize).flatMap fun i => partOf pPubkeys EC_COMPRESSED_SIZE i) =
    tmpPkHash at h
  split_ifs at h
  obtain ⟨sAlpha, -, h⟩ := Option.bind_eq_some_iff.mp h
  obtain ⟨parts, hparts, h⟩ := Option.bind_eq_some_iff.mp h
  obtain ⟨ptKi', hki, h⟩ := Option.bind_eq_some_iff.mp h
  rw [hsigner.image] at hki
  cases hki
  obtain ⟨ptT3, hhash, h⟩ := Option.bind_eq_some_iff.mp h
  obtain ⟨octL, hL, h⟩ := Option.bind_eq_some_iff.mp h
  obtain ⟨octR, hR, h⟩ := Option.bind_eq_some_iff.mp h
  obtain ⟨st, hloop, h⟩ := Option.bind_eq_some_iff.mp h
  cases h
  have hlength : parts.length = nRingSize := (length_randomParts hparts).trans List.length_range
  generalize hc₁ : env.hashToBn (writeUInt256 tmpPkHash ++ (octL ++ octR)) % env.bnOrder = c₁ at hloop
  have hstart : Walked env nRingSize nSecretOffset ptKi tmpPkHash pPubkeys parts c₁ 0
      { pSigS := parts, sigC := [], bnC := c₁, bnCj := 0 } :=
    ⟨rfl, rfl, fun hzero => by omega, fun hle hne => by omega⟩
  obtain ⟨cj, bnS, c₀, part, haround, hbnS, hpSigS, hpart, hsigC, hfirst, hlast⟩ :=
    signRoundsAB_eq_some hoffset hsize (Nat.zero_add nRingSize) (Nat.zero_le _) hstart hloop
  have hclose := hsigner.memberAB_eq tmpPkHash hgroup hpos (hlength ▸ hoffset) hhash hL hR hbnS
  rw [hc₁] at hclose
  -- The other parts stay, so that the verification passes the same challenges.
  have hsame : ∀ k c, k < nRingSize → ringRoundsAB (memberAB env ptKi tmpPkHash pPubkeys (parts.set nSecretOffset bnS))
      (stepsAfter nRingSize nSecretOffset k) c =
      ringRoundsAB (memberAB env ptKi tmpPkHash pPubkeys parts) (stepsAfter nRingSize nSecretOffset k) c := by
    intro k c hk
    refine ringRoundsAB_congr c fun i hi => ?_
    obtain ⟨hlt, hne⟩ := mem_stepsAfter hoffset hk hi
    exact memberAB_set (hlength.symm ▸ hlt) hne bnS
  have hbegin : ringRoundsAB (memberAB env ptKi tmpPkHash pPubkeys (parts.set nSecretOffset bnS))
      (stepsAfter nRingSize nSecretOffset (nRingSize - 1 - nSecretOffset)) c₁ = some c₀ := by
    rcases eq_or_ne nSecretOffset (nRingSize - 1) with heq | hne
    · rw [show nRingSize - 1 - nSecretOffset = 0 by omega]
      exact hclose.symm.trans (hlast heq)
    · rw [hsame _ _ (by omega)]
      exact hfirst hne
  rw [← hsame _ _ (by omega)] at haround
  have hcycle := ringRoundsAB_cycle hoffset hbegin haround hclose
  have hc₀ : bin2bn st.sigC = c₀ := by
    rw [hsigC]
    exact EcSecret.bn_ofBn hpart
  have hsize : sigBytes (parts.set nSecretOffset bnS) = sigBytes st.pSigS := by rw [hpSigS]
  rw [verifyRingSignatureAB, htmp, if_neg (by rw [hsigC, part.property]; exact not_not_intro rfl),
    if_neg (not_not_intro hsigner.length), htake, hsigner.image]
  dsimp only
  rw [hc₀, ← hsize]
  rw [show ringRoundsAB (env.ringMemberAB ptKi tmpPkHash pPubkeys (sigBytes (parts.set nSecretOffset bnS)))
    (List.range nRingSize) c₀ = some c₀ from hcycle]
  exact if_pos (bnModSub_eq_zero_of_modEq (.refl c₀))

/-! ## Both schemes -/

/-- Whatever the ring, the member that signs, its secret, the message and the random choices are, the signature that
comes out is accepted. -/
theorem ringSignatures_complete (env : RingSigEnv G) (hprime : env.bnOrder.Prime)
    (hgroup : ∀ pt : G, env.bnOrder • pt = 0) (hform : CompressedForm env)
    (hhash : ∀ p, env.hashToEC p true = env.hashToEC p false) (rand : RingRandom) (keyImage pPubkeys : List UInt8)
    (txnHash : UInt256) (nRingSize nSecretOffset : Nat) (secret : EcSecret) (hoffset : nSecretOffset < nRingSize)
    (hkey : env.point2oct33 (secret.bn • env.generator) = some (partOf pPubkeys EC_COMPRESSED_SIZE nSecretOffset))
    (hki : env.generateKeyImage (partOf pPubkeys EC_COMPRESSED_SIZE nSecretOffset) secret = some keyImage) :
    (∀ sigc sigr,
      env.generateRingSignature rand keyImage txnHash nRingSize nSecretOffset secret pPubkeys = some (sigc, sigr) →
        env.verifyRingSignature keyImage txnHash nRingSize pPubkeys sigc sigr = 0) ∧
      (2 ≤ nRingSize → ∀ sigC sigS,
        env.generateRingSignatureAB rand keyImage txnHash nRingSize nSecretOffset secret pPubkeys =
            some (sigC, sigS) →
          env.verifyRingSignatureAB keyImage txnHash nRingSize pPubkeys sigC sigS = 0) := by
  obtain ⟨-, hoct, hbin⟩ := hform.decode_key hkey
  obtain ⟨hG, hpoint, hlength, himage⟩ := hform.generateKeyImage hki
  rw [hhash] at hpoint
  have hsigner : Signer env secret (partOf pPubkeys EC_COMPRESSED_SIZE nSecretOffset) keyImage
      (secret.bn • hG) := ⟨hbin, hoct, ⟨hG, hpoint, rfl⟩, himage, hlength⟩
  constructor
  · intro sigc sigr h
    exact verify_generateRingSignature hgroup hprime.pos hoffset hsigner h
  · intro hsize sigC sigS h
    exact verify_generateRingSignatureAB hgroup hprime.pos hoffset hsize hsigner h

end RingSigEnv

/-! ## A group of seven points -/

@[ext]
structure SevenPoint where
  num : ZMod 7
  deriving DecidableEq

namespace SevenPoint

instance : Zero SevenPoint := ⟨⟨0⟩⟩

instance : Add SevenPoint := ⟨fun p q => ⟨p.num + q.num⟩⟩

instance : Neg SevenPoint := ⟨fun p => ⟨-p.num⟩⟩

instance : Sub SevenPoint := ⟨fun p q => ⟨p.num - q.num⟩⟩

/-- A multiple is computed at once, as that of a point of a curve is. -/
instance : SMul Nat SevenPoint := ⟨fun n p => ⟨(n : ZMod 7) * p.num⟩⟩

instance : SMul Int SevenPoint := ⟨fun n p => ⟨(n : ZMod 7) * p.num⟩⟩

instance : AddCommGroup SevenPoint :=
  Function.Injective.addCommGroup num (fun _ _ h => SevenPoint.ext h) rfl (fun _ _ => rfl) (fun _ => rfl)
    (fun _ _ => rfl) (fun p n => (nsmul_eq_mul n p.num).symm) (fun p n => (zsmul_eq_mul p.num n).symm)

end SevenPoint

def SevenPoint.ofNat (n : Nat) : SevenPoint := ⟨n⟩

/-- A point is the byte two and its number; a point is hashed to from the last digit of the hash. -/
def sevenEnv : RingSigEnv SevenPoint where
  generator := .ofNat 1
  bnOrder := 7
  oct2point p := if p.length = 33 ∧ p.head? = some 2 then some (.ofNat (bin2bn p.tail)) else none
  point2oct pt := if pt = 0 then [0] else 2 :: CBigNum.beBytes 32 pt.num.val
  setCompressedCoordinates x := some (.ofNat (x % 6 + 1))
  hash p := BitVec.ofNat 256 (p.foldl (fun n b => n * 3 + b.toNat) 1)
  fVFork1 := true

theorem sevenEnv_compressedForm : sevenEnv.CompressedForm where
  form := by
    rintro ⟨num⟩
    revert num
    decide
  decode := by
    rintro ⟨num⟩
    revert num
    decide

/-- `RAND_bytes` that gives one number above `MIN_SECRET` to each call. -/
def countingRandom : RingRandom where
  own _ := some 20000
  k1 i _ := some (BitVec.ofNat 256 (30004 + i))
  k2 i _ := some (BitVec.ofNat 256 (40002 + i))

def secretThree : EcSecret := ⟨List.replicate 31 0 ++ [3], rfl⟩

/-- A ring of three, whose last key is that of the secret. -/
def sevenRing : List UInt8 :=
  2 :: CBigNum.beBytes 32 5 ++ 2 :: CBigNum.beBytes 32 1 ++ 2 :: CBigNum.beBytes 32 3

/-- The image of the last key: the secret times the point that the key is hashed to. -/
def sevenKeyImage : List UInt8 := 2 :: CBigNum.beBytes 32 3

theorem ringSignatures_complete_seven :
    ∃ sigc sigr sigC sigS,
      sevenEnv.generateRingSignature countingRandom sevenKeyImage 5 3 2 secretThree sevenRing = some (sigc, sigr) ∧
      sevenEnv.generateRingSignatureAB countingRandom sevenKeyImage 5 3 2 secretThree sevenRing =
        some (sigC, sigS) ∧
      sevenEnv.verifyRingSignature sevenKeyImage 5 3 sevenRing sigc sigr = 0 ∧
      sevenEnv.verifyRingSignatureAB sevenKeyImage 5 3 sevenRing sigC sigS = 0 := by
  obtain ⟨⟨sigc, sigr⟩, hsig⟩ := Option.isSome_iff_exists.mp
    (show (sevenEnv.generateRingSignature countingRandom sevenKeyImage 5 3 2 secretThree sevenRing).isSome by
      decide +kernel)
  obtain ⟨⟨sigC, sigS⟩, hsigAB⟩ := Option.isSome_iff_exists.mp
    (show (sevenEnv.generateRingSignatureAB countingRandom sevenKeyImage 5 3 2 secretThree sevenRing).isSome by
      decide +kernel)
  have hcomplete := RingSigEnv.ringSignatures_complete sevenEnv Nat.prime_seven
    (fun ⟨num⟩ => by revert num; decide) sevenEnv_compressedForm
    (fun p => by simp [RingSigEnv.hashToEC, sevenEnv]) countingRandom sevenKeyImage sevenRing 5 3 2 secretThree
    (by decide) (by decide +kernel) (by decide +kernel)
  exact ⟨sigc, sigr, sigC, sigS, hsig, hsigAB, hcomplete.1 sigc sigr hsig,
    hcomplete.2 (by decide) sigC sigS hsigAB⟩

end ProCurrency
