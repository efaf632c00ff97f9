import ProCurrency.Lib.Response
import ProCurrency.Ring.Theorems

/-!
# Parts of a signature, and compressed points
-/

namespace ProCurrency

open ByteCodec

/-! ## Big numbers of a part -/

namespace EcSecret

theorem bn_ofBn {n : Nat} {s : EcSecret} (h : ofBn n = some s) : s.bn = n := by
  rw [ofBn] at h
  split_ifs at h with hlt
  cases h
  exact (CBigNum.ofBeBytes_beBytes _ n).trans (Nat.mod_eq_of_lt hlt)

theorem bn_zero : zero.bn = 0 := by
  decide

end EcSecret

/-! ## Parts -/

theorem partOf_sigBytes {parts : List EcSecret} {i : Nat} (hi : i < parts.length) :
    partOf (sigBytes parts) EC_SECRET_SIZE i = (parts.get ⟨i, hi⟩).val := by
  induction parts generalizing i with
  | nil => cases hi
  | cons s parts ih =>
      have hbytes : sigBytes (s :: parts) = s.val ++ sigBytes parts := rfl
      cases i with
      | zero =>
          rw [hbytes, partOf, Nat.zero_mul, List.drop_zero]
          exact List.take_left' s.property
      | succ i =>
          have hdrop : partOf (sigBytes (s :: parts)) EC_SECRET_SIZE (i + 1) =
              partOf (sigBytes parts) EC_SECRET_SIZE i := by
            rw [hbytes, partOf, partOf, Nat.succ_mul, Nat.add_comm, ← List.drop_drop, List.drop_left' s.property]
          rw [hdrop]
          exact ih (Nat.lt_of_succ_lt_succ hi)

/-- Another part does not matter. -/
theorem partOf_set_of_ne {parts : List EcSecret} {i j : Nat} (s : EcSecret) (hi : i < parts.length) (hne : i ≠ j) :
    partOf (sigBytes (parts.set j s)) EC_SECRET_SIZE i = partOf (sigBytes parts) EC_SECRET_SIZE i := by
  have hi' : i < (parts.set j s).length := by rwa [List.length_set]
  rw [partOf_sigBytes hi, partOf_sigBytes hi', List.get_eq_getElem, List.get_eq_getElem,
    List.getElem_set_ne hne.symm]

theorem partOf_set_self {parts : List EcSecret} {j : Nat} (s : EcSecret) (hj : j < parts.length) :
    partOf (sigBytes (parts.set j s)) EC_SECRET_SIZE j = s.val := by
  have hj' : j < (parts.set j s).length := by rwa [List.length_set]
  rw [partOf_sigBytes hj', List.get_eq_getElem, List.getElem_set_self]

/-! ## Points -/

namespace RingSigEnv

variable {G : Type} {env : RingSigEnv G}

/-- The compressed form of OpenSSL: a zero byte for the point at infinity, and otherwise 33 bytes that do not start
with one and that can be read back. -/
structure CompressedForm (env : RingSigEnv G) : Prop where
  form : ∀ pt, env.point2oct pt = [0] ∨
    (env.point2oct pt).length = EC_COMPRESSED_SIZE ∧ (env.point2oct pt).head? ≠ some 0
  decode : ∀ pt, env.point2oct pt ≠ [0] → env.oct2point (env.point2oct pt) = some pt

theorem dropWhile_zero {p : List UInt8} (h : p.head? ≠ some 0) : p.dropWhile (· = 0) = p := by
  cases p with
  | nil => rfl
  | cons b p =>
      rw [List.dropWhile_cons_of_neg]
      intro hb
      exact h (congrArg some (of_decide_eq_true hb))

/-- A key can be read both ways. -/
theorem CompressedForm.decode_key (h : CompressedForm env) {pt : G} {oct : List UInt8}
    (hoct : env.point2oct33 pt = some oct) :
    oct.length = EC_COMPRESSED_SIZE ∧ env.oct2point oct = some pt ∧ env.bin2point oct = some pt := by
  rw [point2oct33] at hoct
  split_ifs at hoct with hlength
  cases hoct
  have hinfinity : env.point2oct pt ≠ [0] := by
    intro hzero
    rw [hzero] at hlength
    cases hlength
  have hhead : (env.point2oct pt).head? ≠ some 0 := by
    rcases h.form pt with hzero | ⟨-, hhead⟩
    · exact absurd hzero hinfinity
    · exact hhead
  have hdecode := h.decode pt hinfinity
  refine ⟨hlength, hdecode, ?_⟩
  rw [bin2point, dropWhile_zero hhead]
  cases hpt : env.point2oct pt with
  | nil =>
      rw [hpt] at hlength
      cases hlength
  | cons b p =>
      rw [hpt] at hdecode
      exact hdecode

/-- A key image is read back as the multiple of the point of its key. -/
theorem CompressedForm.generateKeyImage [AddCommGroup G] (h : CompressedForm env) {publicKey keyImage : List UInt8}
    {secret : EcSecret} (hki : env.generateKeyImage publicKey secret = some keyImage) :
    ∃ hG, env.hashToEC publicKey true = some hG ∧ keyImage.length = EC_COMPRESSED_SIZE ∧
      env.oct2point keyImage = some (secret.bn • hG) := by
  rw [RingSigEnv.generateKeyImage] at hki
  split_ifs at hki
  obtain ⟨hG, hhash, hki⟩ := Option.bind_eq_some_iff.mp hki
  dsimp only at hki
  split_ifs at hki with hlength
  cases hki
  refine ⟨hG, hhash, hlength, ?_⟩
  rcases h.form (secret.bn • hG) with hzero | ⟨-, hhead⟩
  · rw [hzero] at hlength
    cases hlength
  · rw [dropWhile_zero hhead] at hlength ⊢
    refine h.decode _ fun hzero => ?_
    rw [hzero] at hlength
    cases hlength

end RingSigEnv

end ProCurrency

/-!
## The rounds of the first scheme

The verification makes the points of each member from its part of the signature. For the other members these are the
points of the signer, who has taken the parts first. For the member that signs they are because its response closes
the challenge.
-/

namespace ProCurrency

namespace RingSigEnv

variable {G : Type} [AddCommGroup G] {env : RingSigEnv G}

/-! ## The points of a member -/

/-- The points `L` and `R` of a member, from its challenge and its response. -/
def memberPoints (env : RingSigEnv G) (ptKi : G) (pk : List UInt8) (bnC bnR : Nat) : Option (List UInt8) := do
  let ptPk ← env.bin2point pk
  let ptT3 ← env.hashToEC pk false
  let octL ← env.point2oct33 (bnC • ptPk + bnR • env.generator)
  let octR ← env.point2oct33 (bnC • ptKi + bnR • ptT3)
  return octL ++ octR

/-- The same points, from the scalar that the signer commits to. -/
def ownPoints (env : RingSigEnv G) (pk : List UInt8) (bnKS : Nat) : Option (List UInt8) := do
  let ptT1 ← env.hashToEC pk false
  let octL ← env.point2oct33 (bnKS • env.generator)
  let octR ← env.point2oct33 (bnKS • ptT1)
  return octL ++ octR

theorem ringMember_eq (ptKi : G) (pPubkeys pSigc pSigr : List UInt8) (i : Nat) :
    env.ringMember ptKi pPubkeys pSigc pSigr i =
      (env.memberPoints ptKi (partOf pPubkeys EC_COMPRESSED_SIZE i) (bin2bn (partOf pSigc EC_SECRET_SIZE i))
        (bin2bn (partOf pSigr EC_SECRET_SIZE i))).map fun oct => (bin2bn (partOf pSigc EC_SECRET_SIZE i), oct) := by
  rw [ringMember, memberPoints]
  cases env.bin2point (partOf pPubkeys EC_COMPRESSED_SIZE i) with
  | none => rfl
  | some ptPk =>
      cases env.hashToEC (partOf pPubkeys EC_COMPRESSED_SIZE i) false with
      | none => simp
      | some ptT3 => simp [Option.map_bind]

/-- What the secret of a member gives. -/
structure Signer (env : RingSigEnv G) (secret : EcSecret) (pk keyImage : List UInt8) (ptKi : G) : Prop where
  bin2point : env.bin2point pk = some (secret.bn • env.generator)
  oct2point : env.oct2point pk = some (secret.bn • env.generator)
  hashToEC : ∃ ptT3, env.hashToEC pk false = some ptT3 ∧ ptKi = secret.bn • ptT3
  image : env.oct2point keyImage = some ptKi
  length : keyImage.length = EC_COMPRESSED_SIZE

/-- The response closes the challenge in both points. -/
theorem Signer.memberPoints_eq {secret : EcSecret} {pk keyImage : List UInt8} {ptKi : G}
    (hgroup : ∀ pt : G, env.bnOrder • pt = 0) (hpos : 0 < env.bnOrder) (h : Signer env secret pk keyImage ptKi)
    (bnC bnKS : Nat) :
    env.memberPoints ptKi pk bnC (bnModSub bnKS (bnC * secret.bn) env.bnOrder).toNat = env.ownPoints pk bnKS := by
  obtain ⟨ptT3, hhash, rfl⟩ := h.hashToEC
  rw [memberPoints, ownPoints, h.bin2point, hhash]
  simp only [Option.bind_eq_bind, Option.bind_some]
  rw [bnModSub, Response.closes hgroup hpos, Response.closes hgroup hpos]

/-! ## The rounds -/

/-- The verification adds up the challenges, and the bytes of all members. -/
theorem ringRounds_of_members (bnOrder : Nat) {member : Nat → Option (Nat × List UInt8)} {bnC : Nat → Nat}
    {oct : Nat → List UInt8} {is : List Nat} (h : ∀ i ∈ is, member i = some (bnC i, oct i)) (s : RingSum) :
    ∃ bnSum, ringRounds bnOrder member is s = some ⟨bnSum, s.ssCommitHash ++ is.flatMap oct⟩ ∧
      bnSum ≡ s.bnSum + (is.map bnC).sum [MOD bnOrder] := by
  induction is generalizing s with
  | nil =>
      refine ⟨s.bnSum, ?_, .refl _⟩
      rw [List.flatMap_nil, List.append_nil]
      rfl
  | cons i is ih =>
      obtain ⟨hi, his⟩ := List.forall_mem_cons.mp h
      obtain ⟨bnSum, hrounds, hsum⟩ := ih his ⟨(s.bnSum + bnC i) % bnOrder, s.ssCommitHash ++ oct i⟩
      refine ⟨bnSum, ?_, hsum.trans ?_⟩
      · rw [ringRounds, hi]
        dsimp only
        rw [hrounds, List.flatMap_cons, List.append_assoc]
      · rw [List.map_cons, List.sum_cons, ← Nat.add_assoc]
        exact (Nat.mod_modEq _ _).add_right _

/-- The secrets that the signer takes for a member. -/
def firstPart (rand : RingRandom) (nSecretOffset i : Nat) : EcSecret :=
  if i = nSecretOffset then EcSecret.zero else (generateRandomSecret (rand.k1 i)).getD EcSecret.zero

def secondPart (rand : RingRandom) (nSecretOffset i : Nat) : EcSecret :=
  if i = nSecretOffset then EcSecret.zero else (generateRandomSecret (rand.k2 i)).getD EcSecret.zero

def signerPoints (env : RingSigEnv G) (rand : RingRandom) (nSecretOffset bnKS : Nat) (ptKi : G)
    (pPubkeys : List UInt8) (i : Nat) : Option (List UInt8) :=
  if i = nSecretOffset then env.ownPoints (partOf pPubkeys EC_COMPRESSED_SIZE i) bnKS
  else
    env.memberPoints ptKi (partOf pPubkeys EC_COMPRESSED_SIZE i) (firstPart rand nSecretOffset i).bn
      (secondPart rand nSecretOffset i).bn

/-- One round of the signer. -/
theorem signMember_eq_some {rand : RingRandom} {nSecretOffset bnKS : Nat} {ptKi : G} {pPubkeys : List UInt8} {i : Nat}
    {s s' : SignSum} (h : env.signMember rand nSecretOffset bnKS ptKi pPubkeys i s = some s') :
    ∃ oct, env.signerPoints rand nSecretOffset bnKS ptKi pPubkeys i = some oct ∧
      s'.pSigc = s.pSigc ++ [firstPart rand nSecretOffset i] ∧
      s'.pSigr = s.pSigr ++ [secondPart rand nSecretOffset i] ∧
      s'.ssCommitHash = s.ssCommitHash ++ oct ∧
      s'.bnSum ≡ s.bnSum + (firstPart rand nSecretOffset i).bn [MOD env.bnOrder] := by
  rw [signMember] at h
  rw [signerPoints, firstPart, secondPart]
  split_ifs at h ⊢ with hi
  · obtain ⟨ptT1, hhash, h⟩ := Option.bind_eq_some_iff.mp h
    obtain ⟨octL, hL, h⟩ := Option.bind_eq_some_iff.mp h
    obtain ⟨octR, hR, h⟩ := Option.bind_eq_some_iff.mp h
    cases h
    refine ⟨octL ++ octR, ?_, rfl, rfl, rfl, ?_⟩
    · rw [ownPoints, hhash]
      simp only [Option.bind_eq_bind, Option.bind_some, hL, hR]
      rfl
    · rw [EcSecret.bn_zero]
      exact .refl _
  · obtain ⟨scData1, hk1, h⟩ := Option.bind_eq_some_iff.mp h
    obtain ⟨scData2, hk2, h⟩ := Option.bind_eq_some_iff.mp h
    dsimp only at h
    obtain ⟨ptPk, hpk, h⟩ := Option.bind_eq_some_iff.mp h
    obtain ⟨ptT3, hhash, h⟩ := Option.bind_eq_some_iff.mp h
    obtain ⟨octL, hL, h⟩ := Option.bind_eq_some_iff.mp h
    obtain ⟨octR, hR, h⟩ := Option.bind_eq_some_iff.mp h
    cases h
    rw [hk1, hk2, Option.getD_some, Option.getD_some]
    refine ⟨octL ++ octR, ?_, rfl, rfl, rfl, Nat.mod_modEq _ _⟩
    rw [memberPoints, hpk, hhash]
    simp only [Option.bind_eq_bind, Option.bind_some, hL, hR]
    rfl

theorem signRounds_eq_some {rand : RingRandom} {nSecretOffset bnKS : Nat} {ptKi : G} {pPubkeys : List UInt8}
    {is : List Nat} {s s' : SignSum}
    (h : signRounds (env.signMember rand nSecretOffset bnKS ptKi pPubkeys) is s = some s') :
    s'.pSigc = s.pSigc ++ is.map (firstPart rand nSecretOffset) ∧
      s'.pSigr = s.pSigr ++ is.map (secondPart rand nSecretOffset) ∧
      (∀ i ∈ is, (env.signerPoints rand nSecretOffset bnKS ptKi pPubkeys i).isSome) ∧
      s'.ssCommitHash = s.ssCommitHash ++
        is.flatMap (fun i => (env.signerPoints rand nSecretOffset bnKS ptKi pPubkeys i).getD []) ∧
      s'.bnSum ≡ s.bnSum + (is.map fun i => (firstPart rand nSecretOffset i).bn).sum [MOD env.bnOrder] := by
  induction is generalizing s with
  | nil =>
      cases h
      refine ⟨?_, ?_, fun i hi => absurd hi List.not_mem_nil, ?_, .refl _⟩
      all_goals exact (List.append_nil _).symm
  | cons i is ih =>
      rw [signRounds] at h
      cases hmember : env.signMember rand nSecretOffset bnKS ptKi pPubkeys i s with
      | none => simp [hmember] at h
      | some s₁ =>
          rw [hmember] at h
          obtain ⟨oct, hoct, hc, hr, hcommit, hsum⟩ := signMember_eq_some hmember
          obtain ⟨hcs, hrs, hsome, hcommits, hsums⟩ := ih h
          rw [hc, List.append_assoc] at hcs
          rw [hr, List.append_assoc] at hrs
          rw [hcommit, List.append_assoc] at hcommits
          refine ⟨hcs, hrs, List.forall_mem_cons.mpr ⟨by rw [hoct]; rfl, hsome⟩, ?_, hsums.trans ?_⟩
          · rw [hcommits, List.flatMap_cons, hoct, Option.getD_some]
          · rw [List.map_cons, List.sum_cons, ← Nat.add_assoc]
            exact hsum.add_right _

/-! ## The challenges -/

theorem map_range_set {α : Type} (f : Nat → α) (n j : Nat) (a : α) :
    ((List.range n).map f).set j a = (List.range n).map (Function.update f j a) := by
  refine List.ext_getElem (by rw [List.length_set, List.length_map, List.length_map]) fun i hi hi' => ?_
  rw [List.getElem_set, List.getElem_map, List.getElem_map, List.getElem_range, Function.update_apply]
  split_ifs with h h' h'
  · rfl
  · exact absurd h.symm h'
  · exact absurd h'.symm h
  · rfl

theorem sum_update {f : Nat → Nat} {is : List Nat} {j a : Nat} (hnodup : is.Nodup) (hj : j ∈ is) (hzero : f j = 0) :
    (is.map (Function.update f j a)).sum = (is.map f).sum + a := by
  induction is with
  | nil => cases hj
  | cons i is ih =>
      obtain ⟨hi, hnodup⟩ := List.nodup_cons.mp hnodup
      rw [List.map_cons, List.map_cons, List.sum_cons, List.sum_cons]
      rcases List.mem_cons.mp hj with rfl | hj
      · have hrest : is.map (Function.update f j a) = is.map f := by
          refine List.map_congr_left fun i hmem => Function.update_of_ne ?_ a f
          rintro rfl
          exact hi hmem
        rw [hrest, Function.update_self, hzero]
        omega
      · have hne : i ≠ j := fun heq => hi (heq ▸ hj)
        rw [ih hnodup hj, Function.update_of_ne hne, Nat.add_assoc]

end RingSigEnv

end ProCurrency

/-!
## The rounds of the second scheme

The signer goes around the ring from the member after its own. On the way it passes the first challenge, which it
keeps, and it ends at the challenge of its own member, which its response closes.
-/

namespace ProCurrency

namespace RingSigEnv

/-! ## Around the ring -/

/-- The members after the one at `j`, as many as there are steps. -/
def stepsAfter (n j k : Nat) : List Nat := (List.range k).map fun t => (j + 1 + t) % n

theorem stepsAfter_succ (n j k : Nat) : stepsAfter n j (k + 1) = stepsAfter n j k ++ [(j + 1 + k) % n] := by
  rw [stepsAfter, List.range_succ, List.map_append, List.map_singleton]
  rfl

theorem add_mod_wrap {n j t : Nat} (hj : j < n) (ht : t < n) :
    (j + 1 + t) % n = if j + 1 + t < n then j + 1 + t else j + 1 + t - n := by
  split_ifs with h
  · exact Nat.mod_eq_of_lt h
  · rw [Nat.mod_eq_sub_mod (by omega)]
    exact Nat.mod_eq_of_lt (by omega)

theorem mem_stepsAfter {n j k i : Nat} (hj : j < n) (hk : k < n) (hi : i ∈ stepsAfter n j k) : i < n ∧ i ≠ j := by
  obtain ⟨t, ht, rfl⟩ := List.mem_map.mp hi
  have ht := List.mem_range.mp ht
  rw [add_mod_wrap hj (by omega)]
  split_ifs <;> omega

theorem stepsAfter_to_end {n j : Nat} (hj : j < n) : stepsAfter n j (n - 1 - j) = List.range' (j + 1) (n - 1 - j) := by
  rw [List.range'_eq_map_range]
  refine List.map_congr_left fun t ht => ?_
  have ht := List.mem_range.mp ht
  rw [add_mod_wrap hj (by omega), if_pos (by omega)]

theorem stepsAfter_around {n j : Nat} (hj : j < n) :
    stepsAfter n j (n - 1) = stepsAfter n j (n - 1 - j) ++ List.range j := by
  have hsplit : n - 1 = n - 1 - j + j := by omega
  rw [stepsAfter, stepsAfter, hsplit, List.range_add, List.map_append, List.map_map, Nat.add_sub_cancel]
  congr 1
  refine (List.map_congr_left fun t ht => ?_).trans (List.map_id' (List.range j))
  have ht := List.mem_range.mp ht
  dsimp only [Function.comp]
  rw [add_mod_wrap hj (by omega), if_neg (by omega)]
  omega

theorem range_split {n j : Nat} (hj : j < n) :
    List.range n = List.range j ++ j :: stepsAfter n j (n - 1 - j) := by
  have hlength : n = j + (n - 1 - j + 1) := by omega
  have happend : List.range' 0 j ++ List.range' (0 + j) (n - 1 - j + 1) = List.range' 0 n := by
    rw [List.range'_append_1, ← hlength]
  rw [List.range'_succ, Nat.zero_add, ← List.range_eq_range', ← List.range_eq_range'] at happend
  rw [stepsAfter_to_end hj, happend]

theorem ringRoundsAB_append (member : Nat → Nat → Option Nat) (is is' : List Nat) (bnC : Nat) :
    ringRoundsAB member (is ++ is') bnC = (ringRoundsAB member is bnC).bind (ringRoundsAB member is') := by
  induction is generalizing bnC with
  | nil => rfl
  | cons i is ih =>
      rw [List.cons_append, ringRoundsAB, ringRoundsAB]
      cases member i bnC with
      | none => rfl
      | some bnC => exact ih bnC

theorem ringRoundsAB_congr {member member' : Nat → Nat → Option Nat} {is : List Nat} (bnC : Nat)
    (h : ∀ i ∈ is, member i = member' i) : ringRoundsAB member is bnC = ringRoundsAB member' is bnC := by
  induction is generalizing bnC with
  | nil => rfl
  | cons i is ih =>
      obtain ⟨hi, his⟩ := List.forall_mem_cons.mp h
      rw [ringRoundsAB, ringRoundsAB, hi]
      cases member' i bnC with
      | none => rfl
      | some bnC => exact ih bnC his

/-- A verification from the first challenge comes back to it, when it passes the challenges of the signer. -/
theorem ringRoundsAB_cycle {member : Nat → Nat → Option Nat} {n j c₀ c₁ cj : Nat} (hj : j < n)
    (hfirst : ringRoundsAB member (stepsAfter n j (n - 1 - j)) c₁ = some c₀)
    (haround : ringRoundsAB member (stepsAfter n j (n - 1)) c₁ = some cj) (hclose : member j cj = some c₁) :
    ringRoundsAB member (List.range n) c₀ = some c₀ := by
  rw [stepsAfter_around hj, ringRoundsAB_append, hfirst, Option.bind_some] at haround
  rw [range_split hj, ringRoundsAB_append, haround, Option.bind_some, ringRoundsAB, hclose]
  exact hfirst

/-! ## The loop of the signer -/

section Loop

variable {G : Type} [AddCommGroup G] {env : RingSigEnv G} {n j bnA c₁ k : Nat} {secret : EcSecret} {ptKi : G}
  {tmpPkHash : UInt256} {pPubkeys : List UInt8} {parts : List EcSecret} {st st' : SignAB}

/-- One round of the verification, with these parts. -/
def memberAB (env : RingSigEnv G) (ptKi : G) (tmpPkHash : UInt256) (pPubkeys : List UInt8) (parts : List EcSecret) :
    Nat → Nat → Option Nat :=
  env.ringMemberAB ptKi tmpPkHash pPubkeys (sigBytes parts)

/-- The signer has taken `k` steps, and its own part is not written yet. -/
structure Walked (env : RingSigEnv G) (n j : Nat) (ptKi : G) (tmpPkHash : UInt256) (pPubkeys : List UInt8)
    (parts : List EcSecret) (c₁ k : Nat) (st : SignAB) : Prop where
  pSigS : st.pSigS = parts
  bnC : ringRoundsAB (memberAB env ptKi tmpPkHash pPubkeys parts) (stepsAfter n j k) c₁ = some st.bnC
  bnCj : k = n - 1 → st.bnCj = st.bnC
  sigC : n - 1 - j ≤ k → j ≠ n - 1 → ∃ c₀ part,
    ringRoundsAB (memberAB env ptKi tmpPkHash pPubkeys parts) (stepsAfter n j (n - 1 - j)) c₁ = some c₀ ∧
      EcSecret.ofBn c₀ = some part ∧ st.sigC = part.val

/-- What a round leaves. -/
theorem signRoundAB_eq_some {ib i : Nat} (h : env.signRoundAB j ptKi tmpPkHash pPubkeys ib i st = some st') :
    memberAB env ptKi tmpPkHash pPubkeys st.pSigS ib st.bnC = some st'.bnC ∧ st'.pSigS = st.pSigS ∧
      st'.bnCj = (if i = j then st'.bnC else st.bnCj) ∧
      (i ≠ 0 → st'.sigC = st.sigC) ∧
      (i = 0 → ∃ part, EcSecret.ofBn st'.bnC = some part ∧ st'.sigC = part.val) := by
  obtain ⟨bnC, hmember, h⟩ := Option.bind_eq_some_iff.mp h
  dsimp only at h
  rcases eq_or_ne i 0 with hi | hi
  · rw [if_pos hi] at h
    obtain ⟨sigC, hsigC, h⟩ := Option.bind_eq_some_iff.mp h
    obtain ⟨part, hpart, rfl⟩ := Option.map_eq_some_iff.mp hsigC
    cases h
    exact ⟨hmember, rfl, rfl, fun hne => absurd hi hne, fun _ => ⟨part, hpart, rfl⟩⟩
  · rw [if_neg hi] at h
    cases h
    exact ⟨hmember, rfl, rfl, fun _ => rfl, fun hzero => absurd hzero hi⟩

theorem Walked.step (hj : j < n) (hk : k < n - 1) (h : Walked env n j ptKi tmpPkHash pPubkeys parts c₁ k st)
    (hround : env.signRoundAB j ptKi tmpPkHash pPubkeys ((j + 1 + k) % n) ((j + 2 + k) % n) st = some st') :
    Walked env n j ptKi tmpPkHash pPubkeys parts c₁ (k + 1) st' := by
  obtain ⟨hmember, hparts, hbnCj, hkept, hfirst⟩ := signRoundAB_eq_some hround
  have hnext : (j + 2 + k) % n = if j + 2 + k < n then j + 2 + k else j + 2 + k - n := by
    rw [show j + 2 + k = j + 1 + (k + 1) by omega]
    exact add_mod_wrap hj (by omega)
  have hwalk : ringRoundsAB (memberAB env ptKi tmpPkHash pPubkeys parts) (stepsAfter n j (k + 1)) c₁ =
      some st'.bnC := by
    rw [h.pSigS] at hmember
    rw [stepsAfter_succ, ringRoundsAB_append, h.bnC, Option.bind_some, ringRoundsAB, hmember]
    rfl
  refine ⟨hparts.trans h.pSigS, hwalk, fun hlast => ?_, fun hle hne => ?_⟩
  · rw [hbnCj, if_pos]
    rw [hnext, if_neg (by omega)]
    omega
  · rcases Nat.lt_or_ge k (n - 1 - j) with hlt | hge
    · have hzero : (j + 2 + k) % n = 0 := by
        rw [hnext, if_neg (by omega)]
        omega
      obtain ⟨part, hpart, hsigC⟩ := hfirst hzero
      have hsteps : n - 1 - j = k + 1 := by omega
      exact ⟨st'.bnC, part, by rw [hsteps, hwalk], hpart, hsigC⟩
    · obtain ⟨c₀, part, hc₀, hpart, hsigC⟩ := h.sigC hge hne
      refine ⟨c₀, part, hc₀, hpart, (hkept ?_).trans hsigC⟩
      rw [hnext, if_neg (by omega)]
      omega

/-- What the loop leaves: the response to the challenge of the signer's member, and the first challenge. -/
theorem signRoundsAB_eq_some {rounds : Nat} (hj : j < n) (hn : 2 ≤ n) (hrounds : k + rounds = n) (hk : k ≤ n - 1)
    (hwalked : Walked env n j ptKi tmpPkHash pPubkeys parts c₁ k st)
    (h : env.signRoundsAB n j bnA secret ptKi tmpPkHash pPubkeys k ((j + 1 + k) % n) ((j + 2 + k) % n) rounds st =
      some st') :
    ∃ cj bnS c₀ part,
      ringRoundsAB (memberAB env ptKi tmpPkHash pPubkeys parts) (stepsAfter n j (n - 1)) c₁ = some cj ∧
      EcSecret.ofBn (bnModSub bnA (cj * secret.bn) env.bnOrder).toNat = some bnS ∧
      st'.pSigS = parts.set j bnS ∧ EcSecret.ofBn c₀ = some part ∧ st'.sigC = part.val ∧
      (j ≠ n - 1 →
        ringRoundsAB (memberAB env ptKi tmpPkHash pPubkeys parts) (stepsAfter n j (n - 1 - j)) c₁ = some c₀) ∧
      (j = n - 1 → memberAB env ptKi tmpPkHash pPubkeys (parts.set j bnS) j cj = some c₀) := by
  induction rounds generalizing k st with
  | zero => omega
  | succ rounds ih =>
      rw [signRoundsAB] at h
      rcases Nat.lt_or_eq_of_le hk with hlt | rfl
      · rw [if_neg (by omega)] at h
        dsimp only at h
        rw [if_neg (by omega)] at h
        cases hround : env.signRoundAB j ptKi tmpPkHash pPubkeys ((j + 1 + k) % n) ((j + 2 + k) % n) st with
        | none => simp [hround] at h
        | some st₁ =>
            simp only [hround] at h
            refine ih (by omega) (by omega) (hwalked.step hj hlt hround) ?_
            rw [Nat.mod_add_mod, show j + 2 + k + 1 = j + 2 + (k + 1) by omega,
              show j + 2 + k = j + 1 + (k + 1) by omega] at h
            exact h
      · rw [if_pos rfl] at h
        cases hclose : env.closeAB j bnA secret st with
        | none => simp [hclose] at h
        | some st₁ =>
            rw [hclose] at h
            dsimp only at h
            obtain ⟨bnS, hbnS, hst₁⟩ := Option.bind_eq_some_iff.mp hclose
            cases hst₁
            rw [hwalked.bnCj rfl] at hbnS
            have hparts : st.pSigS.set j bnS = parts.set j bnS := by rw [hwalked.pSigS]
            rcases eq_or_ne j (n - 1) with hlast | hne
            · rw [if_neg (fun hand => hand.2 hlast)] at h
              have hib : (j + 1 + (n - 1)) % n = j := by
                rw [add_mod_wrap hj (by omega), if_neg (by omega)]
                omega
              have hi : (j + 2 + (n - 1)) % n = 0 := by
                rw [show j + 2 + (n - 1) = n + n by omega, Nat.add_mod_left, Nat.mod_self]
              rw [hib, hi] at h
              cases hround : env.signRoundAB j ptKi tmpPkHash pPubkeys j 0
                  { st with pSigS := st.pSigS.set j bnS } with
              | none => simp [hround] at h
              | some st₂ =>
                  obtain ⟨hmember, hparts₂, -, -, hfirst⟩ := signRoundAB_eq_some hround
                  obtain ⟨part, hpart, hsigC⟩ := hfirst rfl
                  simp only [hround] at h
                  obtain rfl : rounds = 0 := by omega
                  cases h
                  dsimp only at hmember hparts₂
                  rw [hparts] at hmember hparts₂
                  exact ⟨st.bnC, bnS, st'.bnC, part, hwalked.bnC, hbnS, hparts₂, hpart, hsigC,
                    fun hne => absurd hlast hne, fun _ => hmember⟩
            · rw [if_pos ⟨rfl, hne⟩] at h
              cases h
              obtain ⟨c₀, part, hc₀, hpart, hsigC⟩ := hwalked.sigC (by omega) hne
              exact ⟨st.bnC, bnS, c₀, part, hwalked.bnC, hbnS, hparts, hpart, hsigC, fun _ => hc₀,
                fun hlast => absurd hlast hne⟩

/-- The part of another member is all that a round reads. -/
theorem memberAB_set {i : Nat} (hi : i < parts.length) (hne : i ≠ j) (bnS : EcSecret) :
    memberAB env ptKi tmpPkHash pPubkeys (parts.set j bnS) i = memberAB env ptKi tmpPkHash pPubkeys parts i := by
  funext bnC
  rw [memberAB, memberAB, ringMemberAB, ringMemberAB, partOf_set_of_ne bnS hi hne]

end Loop

end RingSigEnv

end ProCurrency
