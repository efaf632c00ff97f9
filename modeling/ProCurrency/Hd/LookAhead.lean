import ProCurrency.Hd.Lemmas.SaveKey

/-!
# Keys that are looked ahead

What `NewKeyFromAccount`, the promotion of a look-ahead key by `HaveKey`, and `AddLookAhead` keep of an account: its
two key maps are disjoint, everything up to a chain's counter is known, and so is what follows. They keep it as long
as no hardened key is derived.
-/

namespace ProCurrency

open PackedMap

variable {PK SK : Type} {ops : KeyOps PK SK}

/-- No two children of the keys have one id. -/
def DistinctIds (ops : KeyOps PK SK) (kps : List (CExtKeyPair PK SK)) : Prop :=
  ∀ (c d : UInt32) (kp kq : CExtKeyPair PK SK) (n m : UInt32) (id : CKeyID), kps[c.toNat]? = some kp →
    kps[d.toNat]? = some kq → kp.childId ops n = some id → kq.childId ops m = some id → c = d ∧ n = m

/-- Every unhardened child of the keys can be derived, and no two children have one id. -/
structure DerivesKeys (ops : KeyOps PK SK) (kps : List (CExtKeyPair PK SK)) : Prop where
  succeeds : ∀ (c : UInt32) (kp : CExtKeyPair PK SK) (n : UInt32), kps[c.toNat]? = some kp → n.toNat < 2 ^ 31 →
    (kp.childId ops n).isSome
  injective : DistinctIds ops kps

namespace CExtKeyAccount

def kps (sea : CExtKeyAccount PK SK) : List (CExtKeyPair PK SK) := sea.vExtKeys.map (·.kp)

/-- The id of the child that an entry names. -/
def idOf (ops : KeyOps PK SK) (sea : CExtKeyAccount PK SK) (ak : CEKAKey) : Option CKeyID :=
  (sea.getChain ak.nParent).bind fun pc => pc.kp.childId ops ak.nKey

def Recognised (sea : CExtKeyAccount PK SK) (id : CKeyID) : Prop := id ∈ sea.mapKeys ∨ id ∈ sea.mapLookAhead

/-- What holds of the chains of an account and its key maps. -/
structure Sound (ops : KeyOps PK SK) (sea : CExtKeyAccount PK SK) : Prop where
  disjoint : ∀ id ∈ sea.mapKeys, id ∉ sea.mapLookAhead
  keyId : ∀ id ak, sea.mapKeys[id]? = some ak → sea.idOf ops ak = some id
  aheadId : ∀ id ak, sea.mapLookAhead[id]? = some ak → sea.idOf ops ak = some id ∧ ak.nKey.toNat < 2 ^ 31
  counter : ∀ c pc, sea.getChain c = some pc → pc.nGenerated.toNat ≤ 2 ^ 31
  saved : ∀ (id : CKeyID) (ak : CEKAKey) pc, sea.mapKeys[id]? = some ak → ak.nKey.toNat < 2 ^ 31 →
    sea.getChain ak.nParent = some pc → ak.nKey.toNat < pc.nGenerated.toNat
  generated : ∀ c pc (n : UInt32) id, sea.getChain c = some pc → n.toNat < pc.nGenerated.toNat →
    n.toNat < 2 ^ 31 → pc.kp.childId ops n = some id → sea.Recognised id
  closed : ∀ c pc (n m : UInt32) id id', sea.getChain c = some pc → pc.kp.childId ops n = some id →
    sea.Recognised id → m.toNat < n.toNat → n.toNat < 2 ^ 31 → pc.kp.childId ops m = some id' → sea.Recognised id'

/-- The children that follow on a chain that receives. -/
def Ahead (ops : KeyOps PK SK) (sea : CExtKeyAccount PK SK) (c : UInt32) : Prop :=
  ∀ pc (n : UInt32) id, sea.getChain c = some pc → pc.receives →
    n.toNat < pc.nGenerated.toNat + N_DEFAULT_LOOKAHEAD → n.toNat < 2 ^ 31 → pc.kp.childId ops n = some id →
      sea.Recognised id

theorem kps_getElem {sea : CExtKeyAccount PK SK} {c : UInt32} {pc : CStoredExtKey PK SK}
    (hc : sea.getChain c = some pc) : sea.kps[c.toNat]? = some pc.kp := by
  rw [kps, List.getElem?_map]
  exact congrArg (Option.map _) hc

theorem setChain_kps {sea : CExtKeyAccount PK SK} {c : UInt32} {pc pc' : CStoredExtKey PK SK}
    (hpc : sea.getChain c = some pc) (hkp : pc'.kp = pc.kp) : (sea.setChain c pc').kps = sea.kps := by
  obtain ⟨hlt, hget⟩ := List.getElem?_eq_some_iff.1 hpc
  apply List.ext_getElem?
  intro i
  show ((sea.vExtKeys.set c.toNat pc').map (·.kp))[i]? = (sea.vExtKeys.map (·.kp))[i]?
  rw [List.getElem?_map, List.getElem?_set, List.getElem?_map]
  split
  · rename_i heq
    rw [← heq, List.getElem?_eq_getElem hlt, hget, Option.map_some, Option.map_some, hkp]
  · rfl

theorem isSome_of_mem {m : Std.ExtTreeMap CKeyID CEKAKey} {id : CKeyID} (h : id ∈ m) : ∃ ak, m[id]? = some ak :=
  Option.isSome_iff_exists.1 (Std.ExtTreeMap.mem_iff_isSome_getElem?.1 h)

theorem mem_of_getElem? {m : Std.ExtTreeMap CKeyID CEKAKey} {id : CKeyID} {ak : CEKAKey} (h : m[id]? = some ak) :
    id ∈ m := Std.ExtTreeMap.mem_iff_isSome_getElem?.2 (by rw [h]; rfl)

/-- An entry for the id of a child is an entry of that child. -/
theorem eq_of_idOf {sea : CExtKeyAccount PK SK} (hids : DistinctIds ops sea.kps) {c : UInt32}
    {pc : CStoredExtKey PK SK} {n : UInt32} {id : CKeyID} {ak : CEKAKey} (hc : sea.getChain c = some pc)
    (hid : pc.kp.childId ops n = some id) (hak : sea.idOf ops ak = some id) : ak = ⟨c, n⟩ := by
  obtain ⟨qc, hqc, hqid⟩ := Option.bind_eq_some_iff.1 hak
  obtain ⟨rfl, rfl⟩ := hids _ _ _ _ _ _ _ (kps_getElem hc) (kps_getElem hqc) hid hqid
  rfl

section Sound

variable {sea : CExtKeyAccount PK SK} (hder : DerivesKeys ops sea.kps) (hsea : sea.Sound ops)
include hder hsea

/-- No child from the counter on is in use. -/
theorem Sound.free {c : UInt32} {pc : CStoredExtKey PK SK} (hc : sea.getChain c = some pc) (n : UInt32) (id : CKeyID)
    (hle : pc.nGenerated.toNat ≤ n.toNat) (hn : n.toNat < 2 ^ 31) (hid : pc.kp.childId ops n = some id) :
    id ∉ sea.mapKeys := by
  intro hmem
  obtain ⟨ak, hak⟩ := isSome_of_mem hmem
  obtain rfl := eq_of_idOf hder.injective hc hid (hsea.keyId id ak hak)
  have := hsea.saved id ⟨c, n⟩ pc hak hn hc
  exact Nat.not_lt.2 hle this

/-- More entries may be looked ahead, if they are children that are not in use, with all that come before them. -/
theorem Sound.lookAhead {m : Std.ExtTreeMap CKeyID CEKAKey} (hold : ∀ id ∈ sea.mapLookAhead, id ∈ m)
    (hnew : ∀ id ak, m[id]? = some ak → sea.mapLookAhead[id]? = some ak ∨
      id ∉ sea.mapKeys ∧ sea.idOf ops ak = some id ∧ ak.nKey.toNat < 2 ^ 31 ∧
        ∀ pc (n : UInt32) id', sea.getChain ak.nParent = some pc → n.toNat < ak.nKey.toNat →
          pc.kp.childId ops n = some id' → id' ∈ sea.mapKeys ∨ id' ∈ m) :
    Sound ops { sea with mapLookAhead := m } where
  disjoint id hid hm := by
    obtain ⟨ak, hak⟩ := isSome_of_mem hm
    rcases hnew id ak hak with h | ⟨h, _⟩
    · exact hsea.disjoint id hid (mem_of_getElem? h)
    · exact h hid
  keyId := hsea.keyId
  aheadId id ak hak := by
    rcases hnew id ak hak with h | ⟨_, hid, hlt, _⟩
    · exact hsea.aheadId id ak h
    · exact ⟨hid, hlt⟩
  counter := hsea.counter
  saved := hsea.saved
  generated c pc n id hc hn htop hid := (hsea.generated c pc n id hc hn htop hid).imp_right (hold id)
  closed c pc n l id id' hc hid hrec hlt htop hid' := by
    have hclosed : sea.Recognised id → id' ∈ sea.mapKeys ∨ id' ∈ m := fun h =>
      (hsea.closed c pc n l id id' hc hid h hlt htop hid').imp_right (hold id')
    rcases hrec with hkeys | hm
    · exact hclosed (.inl hkeys)
    · obtain ⟨ak, hak⟩ := isSome_of_mem hm
      rcases hnew id ak hak with h | ⟨_, hakId, _, hbelow⟩
      · exact hclosed (.inr (mem_of_getElem? h))
      · obtain rfl := eq_of_idOf hder.injective hc hid hakId
        exact hbelow pc l id' hc hlt hid'

theorem Sound.addLookAhead (c : UInt32) (keys : Nat) : (sea.addLookAhead ops c keys).Sound ops := by
  cases hc : sea.getChain c with
  | none =>
      rw [CExtKeyAccount.addLookAhead, hc]
      exact hsea
  | some pc =>
      have hall : ∀ n : UInt32, n.toNat < 2 ^ 31 → (pc.kp.childId ops n).isSome :=
        fun n => hder.succeeds c pc.kp n (kps_getElem hc)
      have hfree := hsea.free hder hc
      have hout : 2 ^ 31 ≤ pc.nGenerated.toNat → 2 ^ 31 ≤ (pc.nGenerated + 1).toNat := fun htop => by
        rw [succ_toNat (hsea.counter c pc hc)]
        exact Nat.le_succ_of_le htop
      rw [CExtKeyAccount.addLookAhead, hc]
      refine hsea.lookAhead hder (fun id => mem_lookAheadFrom) fun id ak hak => ?_
      rcases lookAheadFrom_entry hak with hold | ⟨hid, rfl, htop, hchild⟩
      · exact .inl hold
      · rcases lookAheadFrom_bound hall hfree hout hak with hold | hbound
        · exact .inl hold
        · refine .inr ⟨hid, by rw [idOf, hc]; exact hchild, htop, fun qc n id' hqc hlt hid' => ?_⟩
          obtain rfl : pc = qc := Option.some.inj (hc.symm.trans hqc)
          by_cases hn : n.toNat < pc.nGenerated.toNat
          · exact (hsea.generated _ pc n id' hc hn (Nat.lt_trans hlt htop) hid').imp_right mem_lookAheadFrom
          · exact .inr (lookAheadFrom_covers hall hfree (Nat.le_of_not_lt hn) (Nat.lt_trans hlt hbound)
              (Nat.lt_trans hlt htop) hid')

theorem Sound.addLookAhead_ahead (c : UInt32) {keys : Nat} (hkeys : N_DEFAULT_LOOKAHEAD ≤ keys) :
    (sea.addLookAhead ops c keys).Ahead ops c := by
  intro pc n id hc _ hlt htop hid
  cases hc' : sea.getChain c with
  | none =>
      rw [CExtKeyAccount.addLookAhead, hc', hc'] at hc
      cases hc
  | some qc =>
      rw [CExtKeyAccount.addLookAhead, hc'] at hc ⊢
      obtain rfl : qc = pc := Option.some.inj (hc'.symm.trans hc)
      have hall : ∀ n : UInt32, n.toNat < 2 ^ 31 → (qc.kp.childId ops n).isSome :=
        fun n => hder.succeeds c qc.kp n (kps_getElem hc')
      by_cases hn : n.toNat < qc.nGenerated.toNat
      · exact (hsea.generated c qc n id hc' hn htop hid).imp_right mem_lookAheadFrom
      · exact .inr (lookAheadFrom_covers hall (hsea.free hder hc') (Nat.le_of_not_lt hn)
          (Nat.lt_of_lt_of_le hlt (Nat.add_le_add_left hkeys _)) htop hid)

end Sound

theorem addLookAhead_recognised {sea : CExtKeyAccount PK SK} {c : UInt32} {keys : Nat} {id : CKeyID}
    (h : sea.Recognised id) : (sea.addLookAhead ops c keys).Recognised id := by
  rw [CExtKeyAccount.addLookAhead]
  split
  · exact h
  · exact h.imp_right mem_lookAheadFrom

theorem addLookAhead_getChain (sea : CExtKeyAccount PK SK) (c d : UInt32) (keys : Nat) :
    (sea.addLookAhead ops c keys).getChain d = sea.getChain d := by
  rw [CExtKeyAccount.addLookAhead]
  split <;> rfl

theorem Ahead.addLookAhead {sea : CExtKeyAccount PK SK} {d : UInt32} (h : sea.Ahead ops d) (c : UInt32) (keys : Nat) :
    (sea.addLookAhead ops c keys).Ahead ops d := by
  intro pc n id hd hrec hlt htop hid
  rw [addLookAhead_getChain] at hd
  exact addLookAhead_recognised (h pc n id hd hrec hlt htop hid)

/-! ### A key is saved -/

section Saved

variable {sea : CExtKeyAccount PK SK} {id : CKeyID} {keyIn : CEKAKey} {pc : CStoredExtKey PK SK}

theorem saved_getChain (hpc : sea.getChain keyIn.nParent = some pc) (d : UInt32) :
    (sea.saved id keyIn pc).getChain d =
      if keyIn.nParent = d then some (bumped pc keyIn.nKey) else sea.getChain d :=
  @getChain_setChain PK SK { sea with
    mapKeys := (insertAll sea.mapKeys (sea.gaps id keyIn)).insert id keyIn
    mapLookAhead := eraseAll (sea.mapLookAhead.erase id) (sea.gaps id keyIn) } _ d pc _ hpc

/-- A chain after a key is saved has the same keys, and was the chain of the key or is unchanged. -/
theorem of_saved_getChain (hpc : sea.getChain keyIn.nParent = some pc) {d : UInt32} {qc : CStoredExtKey PK SK}
    (hqc : (sea.saved id keyIn pc).getChain d = some qc) :
    d = keyIn.nParent ∧ qc = bumped pc keyIn.nKey ∨ d ≠ keyIn.nParent ∧ sea.getChain d = some qc := by
  rw [saved_getChain hpc] at hqc
  split at hqc
  · rename_i heq
    exact .inl ⟨heq.symm, (Option.some.inj hqc).symm⟩
  · rename_i hne
    exact .inr ⟨fun h => hne h.symm, hqc⟩

theorem saved_idOf (hpc : sea.getChain keyIn.nParent = some pc) (ak : CEKAKey) :
    (sea.saved id keyIn pc).idOf ops ak = sea.idOf ops ak := by
  rw [idOf, idOf, saved_getChain hpc]
  split
  · rename_i heq
    rw [← heq, hpc]
    rfl
  · rfl

theorem saved_kps (hpc : sea.getChain keyIn.nParent = some pc) : (sea.saved id keyIn pc).kps = sea.kps :=
  @setChain_kps PK SK { sea with
    mapKeys := (insertAll sea.mapKeys (sea.gaps id keyIn)).insert id keyIn
    mapLookAhead := eraseAll (sea.mapLookAhead.erase id) (sea.gaps id keyIn) } _ pc _ hpc rfl

theorem bumped_toNat (pc : CStoredExtKey PK SK) {nKey : UInt32} (htop : nKey.toNat < 2 ^ 31) :
    (bumped pc nKey).nGenerated.toNat = max pc.nGenerated.toNat (nKey.toNat + 1) := by
  unfold bumped
  simp only [UInt32.le_iff_toNat_le]
  split
  · rw [succ_toNat (Nat.le_of_lt htop)]
    omega
  · omega

theorem saved_recognised (hid : id ∉ sea.mapKeys) (x : CKeyID) :
    (sea.saved id keyIn pc).Recognised x ↔ sea.Recognised x ∨ x = id := by
  constructor
  · rintro (h | h)
    · obtain ⟨ak, hak⟩ := isSome_of_mem h
      rcases (saved_mapKeys hid x ak).1 hak with h | h
      · exact .inl (.inl (mem_of_getElem? h))
      · rcases List.mem_append.1 h with h | h
        · exact .inl (.inr (mem_of_getElem? (mem_gaps.1 h).2.2.1))
        · exact .inr (Prod.mk.inj (List.mem_singleton.1 h)).1
    · obtain ⟨ak, hak⟩ := isSome_of_mem h
      exact .inl (.inr (mem_of_getElem? ((saved_mapLookAhead x ak).1 hak).1))
  · rintro ((h | h) | rfl)
    · obtain ⟨ak, hak⟩ := isSome_of_mem h
      exact .inl (mem_of_getElem? ((saved_mapKeys hid x ak).2 (.inl hak)))
    · obtain ⟨ak, hak⟩ := isSome_of_mem h
      by_cases hx : x = id
      · subst hx
        exact .inl (mem_of_getElem? ((saved_mapKeys hid x keyIn).2
          (.inr (List.mem_append_right _ (List.mem_singleton_self _)))))
      · by_cases hgap : (x, ak) ∈ sea.gaps id keyIn
        · exact .inl (mem_of_getElem? ((saved_mapKeys hid x ak).2 (.inr (List.mem_append_left _ hgap))))
        · exact .inr (mem_of_getElem? ((saved_mapLookAhead x ak).2 ⟨hak, hx, hgap⟩))
    · exact .inl (mem_of_getElem? ((saved_mapKeys hid x keyIn).2
        (.inr (List.mem_append_right _ (List.mem_singleton_self _)))))

variable (hder : DerivesKeys ops sea.kps) (hsea : sea.Sound ops) (hid : id ∉ sea.mapKeys)
  (hpc : sea.getChain keyIn.nParent = some pc) (hchild : pc.kp.childId ops keyIn.nKey = some id)
  (htop : keyIn.nKey.toNat < 2 ^ 31)
  (hbelow : ∀ (n : UInt32) x, n.toNat < keyIn.nKey.toNat → pc.kp.childId ops n = some x → sea.Recognised x)
include hder hsea hid hpc hchild htop hbelow

/-- A child that is saved leaves the account sound, if all that come before it are known. -/
theorem Sound.save : (sea.saved id keyIn pc).Sound ops where
  disjoint x hx hahead := by
    obtain ⟨ak, hak⟩ := isSome_of_mem hx
    obtain ⟨ak', hak'⟩ := isSome_of_mem hahead
    obtain ⟨hahead, hne, hgap⟩ := (saved_mapLookAhead x ak').1 hak'
    rcases (saved_mapKeys hid x ak).1 hak with h | h
    · exact hsea.disjoint x (mem_of_getElem? h) (mem_of_getElem? hahead)
    · rcases List.mem_append.1 h with h | h
      · have heq : ak = ak' := Option.some.inj ((mem_gaps.1 h).2.2.1.symm.trans hahead)
        exact hgap (heq ▸ h)
      · exact hne (Prod.mk.inj (List.mem_singleton.1 h)).1
  keyId x ak hak := by
    rw [saved_idOf hpc]
    rcases (saved_mapKeys hid x ak).1 hak with h | h
    · exact hsea.keyId x ak h
    · rcases List.mem_append.1 h with h | h
      · exact (hsea.aheadId x ak (mem_gaps.1 h).2.2.1).1
      · obtain ⟨rfl, rfl⟩ := Prod.mk.inj (List.mem_singleton.1 h)
        rw [idOf, hpc]
        exact hchild
  aheadId x ak hak := by
    rw [saved_idOf hpc]
    exact hsea.aheadId x ak ((saved_mapLookAhead x ak).1 hak).1
  counter d qc hqc := by
    rcases of_saved_getChain hpc hqc with ⟨_, rfl⟩ | ⟨_, hqc⟩
    · rw [bumped_toNat pc htop]
      have := hsea.counter _ pc hpc
      omega
    · exact hsea.counter d qc hqc
  saved x ak qc hak hlt hqc := by
    have hkeys := (saved_mapKeys hid x ak).1 hak
    rcases of_saved_getChain hpc hqc with ⟨hparent, rfl⟩ | ⟨hne, hqc⟩
    · rw [bumped_toNat pc htop]
      rcases hkeys with h | h
      · have := hsea.saved x ak pc h hlt (hparent ▸ hpc)
        omega
      · rcases List.mem_append.1 h with h | h
        · have hk := UInt32.lt_iff_toNat_lt.1 (mem_gaps.1 h).2.2.2.1
          have hk : ak.nKey.toNat < keyIn.nKey.toNat := hk
          omega
        · obtain ⟨rfl, rfl⟩ := Prod.mk.inj (List.mem_singleton.1 h)
          omega
    · rcases hkeys with h | h
      · exact hsea.saved x ak qc h hlt hqc
      · rcases List.mem_append.1 h with h | h
        · exact absurd (mem_gaps.1 h).2.2.2.2.1 hne
        · exact absurd (congrArg CEKAKey.nParent (Prod.mk.inj (List.mem_singleton.1 h)).2) hne
  generated d qc n x hqc hlt hn hx := by
    rw [saved_recognised hid]
    rcases of_saved_getChain hpc hqc with ⟨rfl, rfl⟩ | ⟨_, hqc⟩
    · rw [bumped_toNat pc htop] at hlt
      by_cases hgen : n.toNat < pc.nGenerated.toNat
      · exact .inl (hsea.generated _ pc n x hpc hgen hn hx)
      · rcases Nat.lt_or_eq_of_le (show n.toNat ≤ keyIn.nKey.toNat by omega) with h | h
        · exact .inl (hbelow n x h hx)
        · obtain rfl := UInt32.toNat_inj.1 h
          exact .inr (Option.some.inj (hx.symm.trans hchild))
    · exact .inl (hsea.generated d qc n x hqc hlt hn hx)
  closed d qc n m x y hqc hx hrec hlt hn hy := by
    rw [saved_recognised hid] at hrec ⊢
    have hchain : ∃ qc', sea.getChain d = some qc' ∧ qc'.kp = qc.kp := by
      rcases of_saved_getChain hpc hqc with ⟨rfl, rfl⟩ | ⟨_, hqc⟩
      · exact ⟨pc, hpc, rfl⟩
      · exact ⟨qc, hqc, rfl⟩
    obtain ⟨qc', hqc', hkp⟩ := hchain
    rw [← hkp] at hx hy
    rcases hrec with hrec | rfl
    · exact .inl (hsea.closed d qc' n m x y hqc' hx hrec hlt hn hy)
    · obtain ⟨rfl, rfl⟩ := hder.injective _ _ _ _ _ _ _ (kps_getElem hqc') (kps_getElem hpc) hx hchild
      obtain rfl : qc' = pc := Option.some.inj (hqc'.symm.trans hpc)
      exact .inl (hbelow m y hlt hy)

theorem Sound.saveKey {ekPak pak : List CEKAKeyPack} {sea' : CExtKeyAccount PK SK}
    (hsave : sea.saveKey ops id keyIn ekPak = some (sea', pak)) (hahead : ∀ c, sea.Ahead ops c) :
    sea'.Sound ops ∧ ∀ c, sea'.Ahead ops c := by
  have hsaved := hsea.save hder hid hpc hchild htop hbelow
  have hother : ∀ c, c ≠ keyIn.nParent → (sea.saved id keyIn pc).Ahead ops c := by
    intro c hne qc n x hqc hrec hlt hn hx
    rcases of_saved_getChain hpc hqc with ⟨heq, _⟩ | ⟨_, hqc⟩
    · exact absurd heq hne
    · exact (saved_recognised hid x).2 (.inl (hahead c qc n x hqc hrec hlt hn hx))
  rw [saveKey_eq ops ekPak hid hpc, Option.some.injEq, Prod.mk.injEq] at hsave
  obtain ⟨rfl, _⟩ := hsave
  split
  · rename_i hreceives
    have hder' : DerivesKeys ops (sea.saved id keyIn pc).kps := saved_kps hpc ▸ hder
    refine ⟨hsaved.addLookAhead hder' _ _, fun c => ?_⟩
    by_cases hc : c = keyIn.nParent
    · exact hc ▸ hsaved.addLookAhead_ahead hder' keyIn.nParent (Nat.le_refl _)
    · exact (hother c hc).addLookAhead _ _
  · rename_i hreceives
    refine ⟨hsaved, fun c => ?_⟩
    by_cases hc : c = keyIn.nParent
    · intro qc n x hqc hrec
      rcases of_saved_getChain hpc hqc with ⟨_, rfl⟩ | ⟨hne, _⟩
      · exact absurd hrec hreceives
      · exact absurd hc hne
    · exact hother c hc

end Saved

/-! ### The account without its packs -/

theorem Sound.nPack {sea : CExtKeyAccount PK SK} (h : sea.Sound ops) (n : UInt32) :
    ({ sea with nPack := n } : CExtKeyAccount PK SK).Sound ops :=
  ⟨h.disjoint, h.keyId, h.aheadId, h.counter, h.saved, h.generated, h.closed⟩

theorem saveKey_nPack (ops : KeyOps PK SK) (sea : CExtKeyAccount PK SK) (n : UInt32) (id : CKeyID) (keyIn : CEKAKey)
    (ekPak : List CEKAKeyPack) :
    ({ sea with nPack := n } : CExtKeyAccount PK SK).saveKey ops id keyIn ekPak =
      (sea.saveKey ops id keyIn ekPak).map fun r => ({ r.1 with nPack := n }, r.2) := by
  by_cases hid : id ∈ sea.mapKeys
  · rw [saveKey_of_mem ops keyIn ekPak hid]
    exact saveKey_of_mem ops keyIn ekPak hid
  · cases hpc : sea.getChain keyIn.nParent with
    | none =>
        rw [saveKey_of_no_chain ops ekPak hid hpc]
        exact saveKey_of_no_chain ops ekPak hid hpc
    | some pc =>
        rw [saveKey_eq ops ekPak hid hpc]
        refine (@saveKey_eq PK SK ops { sea with nPack := n } id keyIn pc ekPak hid hpc).trans ?_
        have hchain : (sea.saved id keyIn pc).getChain keyIn.nParent = some (bumped pc keyIn.nKey) := by
          rw [saved_getChain hpc, if_pos rfl]
        have hchain' : (({ sea with nPack := n } : CExtKeyAccount PK SK).saved id keyIn pc).getChain keyIn.nParent =
          some (bumped pc keyIn.nKey) := hchain
        simp only [addLookAhead, hchain, hchain']
        cases pc.receives <;> rfl

theorem addLookAhead_kps (ops : KeyOps PK SK) (sea : CExtKeyAccount PK SK) (c : UInt32) (keys : Nat) :
    (sea.addLookAhead ops c keys).kps = sea.kps := by
  rw [addLookAhead]
  split <;> rfl

theorem saveKey_kps {sea sea' : CExtKeyAccount PK SK} {id : CKeyID} {keyIn : CEKAKey} {ekPak pak : List CEKAKeyPack}
    (h : sea.saveKey ops id keyIn ekPak = some (sea', pak)) : sea'.kps = sea.kps := by
  by_cases hid : id ∈ sea.mapKeys
  · rw [saveKey_of_mem ops keyIn ekPak hid] at h
    cases h
  · cases hpc : sea.getChain keyIn.nParent with
    | none =>
        rw [saveKey_of_no_chain ops ekPak hid hpc] at h
        cases h
        rfl
    | some pc =>
        rw [saveKey_eq ops ekPak hid hpc, Option.some.injEq, Prod.mk.injEq] at h
        obtain ⟨rfl, _⟩ := h
        split
        · rw [addLookAhead_kps, saved_kps hpc]
        · exact saved_kps hpc

/-- No gaps are filled for a key that is not beyond the counter. -/
theorem gaps_eq_nil {sea : CExtKeyAccount PK SK} {id : CKeyID} {keyIn : CEKAKey} {pc : CStoredExtKey PK SK}
    (hpc : sea.getChain keyIn.nParent = some pc) (hle : ¬pc.nGenerated < keyIn.nKey) : sea.gaps id keyIn = [] := by
  simp only [gaps, hpc, if_neg hle]

/-- The counter that `DeriveNextKey` moved is where `SaveKey` leaves it. -/
theorem saveKey_derived (ops : KeyOps PK SK) {sea : CExtKeyAccount PK SK} {c : UInt32}
    {pc pc' : CStoredExtKey PK SK} (hpc : sea.getChain c = some pc) (htop : pc.nGenerated.toNat < 2 ^ 31)
    (hpc' : pc' = { pc with nGenerated := pc.nGenerated + 1 }) (id : CKeyID) (ekPak : List CEKAKeyPack) :
    (sea.setChain c pc').saveKey ops id ⟨c, pc.nGenerated⟩ ekPak = sea.saveKey ops id ⟨c, pc.nGenerated⟩ ekPak := by
  by_cases hid : id ∈ sea.mapKeys
  · rw [saveKey_of_mem ops _ ekPak hid]
    exact saveKey_of_mem ops _ ekPak hid
  · have hchain : (sea.setChain c pc').getChain c = some pc' := by rw [getChain_setChain hpc, if_pos rfl]
    have hlt : ¬pc'.nGenerated ≤ pc.nGenerated := by
      rw [hpc', UInt32.le_iff_toNat_le, succ_toNat (Nat.le_of_lt htop)]
      exact Nat.not_succ_le_self _
    have hbump : bumped pc' pc.nGenerated = pc' := by rw [bumped, if_neg hlt]
    have hbump' : bumped pc pc.nGenerated = pc' := by rw [bumped, if_pos (UInt32.le_refl _), hpc']
    have hgaps := @gaps_eq_nil PK SK sea id ⟨c, pc.nGenerated⟩ pc hpc (UInt32.lt_irrefl _)
    have hgaps' := @gaps_eq_nil PK SK (sea.setChain c pc') id ⟨c, pc.nGenerated⟩ pc' hchain
      fun h => hlt (UInt32.le_of_lt h)
    have hsaved : (sea.setChain c pc').saved id ⟨c, pc.nGenerated⟩ pc' = sea.saved id ⟨c, pc.nGenerated⟩ pc := by
      simp only [saved, hgaps, hgaps', hbump, hbump']
      exact setChain_setChain { sea with mapKeys := sea.mapKeys.insert id _, mapLookAhead := sea.mapLookAhead.erase id }
        c pc' pc'
    have hreceives : pc'.receives = pc.receives := by rw [hpc']; rfl
    rw [@saveKey_eq PK SK ops sea id ⟨c, pc.nGenerated⟩ pc ekPak hid hpc,
      @saveKey_eq PK SK ops (sea.setChain c pc') id ⟨c, pc.nGenerated⟩ pc' ekPak hid hchain, hsaved, hgaps, hgaps',
      hreceives]

end CExtKeyAccount

end ProCurrency
