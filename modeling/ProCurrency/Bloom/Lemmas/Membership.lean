import ProCurrency.Bloom.Filter

/-!
# What a filter reports

The operations of a filter where nothing divides by zero: what is inserted is reported, and what is reported stays so.
-/

namespace ProCurrency

namespace CBloomFilter

variable {f g : CBloomFilter} {vKey key : Bytes}

/-- `contains`, where it comes to an end. -/
def reports (f : CBloomFilter) (vKey : Bytes) : Bool := f.contains vKey == some true

/-- The filter that `insert` leaves. -/
def withKey (f : CBloomFilter) (vKey : Bytes) : CBloomFilter := (f.insert vKey).getD f

/-- No operation on the filter divides by zero. -/
def Sound (f : CBloomFilter) : Prop := f.vData = [] → f.isFull = true

def Clear (f : CBloomFilter) : Prop := ∀ byte ∈ f.vData, byte = 0

/-- The filter has bytes, all of them clear, and no hash function that could set a bit. -/
def Hashless (f : CBloomFilter) : Prop := f.nHashFuncs = 0 ∧ f.vData ≠ [] ∧ f.Clear

theorem within_iff (f : CBloomFilter) :
    f.isWithinSizeConstraints = true ↔ f.vData.length ≤ MAX_BLOOM_FILTER_SIZE ∧ f.nHashFuncs ≤ MAX_HASH_FUNCS := by
  simp [isWithinSizeConstraints]

/-! ## The bits of a key -/

def bit (f : CBloomFilter) (vKey : Bytes) (nHashNum : Nat) : Nat :=
  (murmurHash3 (UInt32.ofNat nHashNum * 0xFBA4C795 + f.nTweak) vKey).toNat % (f.vData.length * 8)

def bits (f : CBloomFilter) (vKey : Bytes) : List Nat := (List.range f.nHashFuncs.toNat).map (f.bit vKey)

theorem length_ne_zero (hne : f.vData ≠ []) : f.vData.length * 8 ≠ 0 :=
  Nat.mul_ne_zero (fun h => hne (List.length_eq_zero_iff.1 h)) (Nat.succ_ne_zero 7)

theorem hash_eq (hne : f.vData ≠ []) (i : Nat) : f.hash i vKey = some (f.bit vKey i) := if_neg (length_ne_zero hne)

theorem bits_within (hne : f.vData ≠ []) : ∀ j ∈ f.bits vKey, j / 8 < f.vData.length := by
  intro j hj
  obtain ⟨i, _, rfl⟩ := List.mem_map.1 hj
  have hlt : f.bit vKey i < f.vData.length * 8 := Nat.mod_lt _ (Nat.pos_of_ne_zero (length_ne_zero hne))
  omega

theorem bit_congr {f g : CBloomFilter} (htweak : g.nTweak = f.nTweak) (hlength : g.vData.length = f.vData.length)
    (vKey : Bytes) : g.bit vKey = f.bit vKey := by
  funext i
  rw [bit, bit, htweak, hlength]

theorem setBits_eq (hne : f.vData ≠ []) (is : List Nat) :
    f.setBits vKey is = some { f with vData := BitMarks.markAll f.vData (is.map (f.bit vKey)) } := by
  induction is generalizing f with
  | nil => rfl
  | cons i is ih =>
      have hlength := BitMarks.length_mark f.vData (f.bit vKey i)
      have hne' : BitMarks.mark f.vData (f.bit vKey i) ≠ [] := by
        rw [← List.length_pos_iff, hlength]
        exact List.length_pos_iff.2 hne
      have hbit : bit { f with vData := BitMarks.mark f.vData (f.bit vKey i) } vKey = f.bit vKey := by
        apply bit_congr
        · rfl
        · exact hlength
      simp only [setBits, hash_eq hne]
      rw [ih hne', hbit]
      rfl

theorem checkBits_eq (hne : f.vData ≠ []) (is : List Nat) :
    f.checkBits vKey is = some (BitMarks.sees f.vData (is.map (f.bit vKey))) := by
  induction is with
  | nil => rfl
  | cons i is ih =>
      simp only [checkBits, hash_eq hne, List.map_cons, BitMarks.sees, List.all_cons]
      cases hmarked : BitMarks.marked f.vData (f.bit vKey i) with
      | false => rfl
      | true => simpa [BitMarks.sees] using ih

/-- What a filter whose shortcuts do not apply says of a key. -/
theorem contains_bits (hf : f.Sound) (hfull : f.isFull = false) (hempty : f.isEmpty = false) :
    f.contains vKey = some (BitMarks.sees f.vData (f.bits vKey)) := by
  have hne : f.vData ≠ [] := fun hnil => Bool.false_ne_true (hfull.symm.trans (hf hnil))
  simp only [contains, hfull, hempty, Bool.false_eq_true, if_false]
  exact checkBits_eq hne _

theorem insert_bits (hf : f.Sound) (hfull : f.isFull = false) :
    f.insert vKey = some { f with vData := BitMarks.markAll f.vData (f.bits vKey), isEmpty := false } := by
  have hne : f.vData ≠ [] := fun hnil => Bool.false_ne_true (hfull.symm.trans (hf hnil))
  simp only [insert, hfull, Bool.false_eq_true, if_false, setBits_eq hne, Option.map_some]
  rfl

/-! ## Reports -/

theorem contains_of_full (hfull : f.isFull = true) : f.contains vKey = some true := by simp [contains, hfull]

theorem insert_of_full (hfull : f.isFull = true) : f.insert vKey = some f := by simp [insert, hfull]

theorem contains_of_empty (hfull : f.isFull = false) (hempty : f.isEmpty = true) : f.contains vKey = some false := by
  simp [contains, hfull, hempty]

theorem reports_iff : f.reports vKey = true ↔ f.contains vKey = some true := beq_iff_eq

/-- `contains` comes to an end. -/
theorem contains_eq (hf : f.Sound) (vKey : Bytes) : f.contains vKey = some (f.reports vKey) := by
  cases hfull : f.isFull with
  | true => simp [reports, contains_of_full hfull]
  | false =>
      cases hempty : f.isEmpty with
      | true => simp [reports, contains_of_empty hfull hempty]
      | false => simp [reports, contains_bits hf hfull hempty]

theorem withKey_of_full (hfull : f.isFull = true) : f.withKey vKey = f := by
  simp [withKey, insert_of_full hfull]

theorem withKey_bits (hf : f.Sound) (hfull : f.isFull = false) :
    f.withKey vKey = { f with vData := BitMarks.markAll f.vData (f.bits vKey), isEmpty := false } := by
  simp [withKey, insert_bits hf hfull]

/-- `insert` comes to an end. -/
theorem insert_eq (hf : f.Sound) (vKey : Bytes) : f.insert vKey = some (f.withKey vKey) := by
  cases hfull : f.isFull with
  | true => rw [insert_of_full hfull, withKey_of_full hfull]
  | false => rw [insert_bits hf hfull, withKey_bits hf hfull]

/-! ## Growth -/

/-- Keys have been inserted: nothing that was reported is lost. -/
structure Grows (f g : CBloomFilter) : Prop where
  length : g.vData.length = f.vData.length
  isFull : g.isFull = f.isFull
  nHashFuncs : g.nHashFuncs = f.nHashFuncs
  nFlags : g.nFlags = f.nFlags
  isEmpty : f.isEmpty = false → g.isEmpty = false
  clear : g.Clear → f.Clear
  reports : ∀ key, f.reports key = true → g.reports key = true

theorem Grows.refl (f : CBloomFilter) : f.Grows f where
  length := rfl
  isFull := rfl
  nHashFuncs := rfl
  nFlags := rfl
  isEmpty h := h
  clear h := h
  reports _ h := h

theorem Grows.trans {k : CBloomFilter} (hfg : f.Grows g) (hgk : g.Grows k) : f.Grows k where
  length := hgk.length.trans hfg.length
  isFull := hgk.isFull.trans hfg.isFull
  nHashFuncs := hgk.nHashFuncs.trans hfg.nHashFuncs
  nFlags := hgk.nFlags.trans hfg.nFlags
  isEmpty h := hgk.isEmpty (hfg.isEmpty h)
  clear h := hfg.clear (hgk.clear h)
  reports key h := hgk.reports key (hfg.reports key h)

theorem Grows.sound (h : f.Grows g) (hf : f.Sound) : g.Sound := fun hnil =>
  h.isFull.trans (hf (List.length_eq_zero_iff.1 (h.length.symm.trans (List.length_eq_zero_iff.2 hnil))))

theorem Grows.within (h : f.Grows g) : g.isWithinSizeConstraints = f.isWithinSizeConstraints := by
  rw [isWithinSizeConstraints, isWithinSizeConstraints, h.length, h.nHashFuncs]

/-- The bits of a key do not depend on what is set. -/
theorem bits_withKey (hf : f.Sound) (hfull : f.isFull = false) : (f.withKey vKey).bits key = f.bits key := by
  have hbit : (f.withKey vKey).bit key = f.bit key := by
    rw [withKey_bits hf hfull]
    apply bit_congr
    · rfl
    · exact BitMarks.length_markAll ..
  rw [bits, bits, hbit, withKey_bits hf hfull]

theorem withKey_sound_of_bytes (hf : f.Sound) (hfull : f.isFull = false) : (f.withKey vKey).Sound := by
  intro hnil
  rw [withKey_bits hf hfull] at hnil
  have hlength : f.vData.length = 0 :=
    (BitMarks.length_markAll f.vData (f.bits vKey)).symm.trans (List.length_eq_zero_iff.2 hnil)
  exact absurd (hf (List.length_eq_zero_iff.1 hlength)) (by simp [hfull])

/-- What a filter reports after an insertion, when it is not full. -/
theorem reports_withKey_bits (hf : f.Sound) (hfull : f.isFull = false) :
    (f.withKey vKey).reports key = BitMarks.sees (BitMarks.markAll f.vData (f.bits vKey)) (f.bits key) := by
  have hbits : (f.withKey vKey).bits key = f.bits key := bits_withKey hf hfull
  have hsound : (f.withKey vKey).Sound := withKey_sound_of_bytes hf hfull
  have hwith : f.withKey vKey = { f with vData := BitMarks.markAll f.vData (f.bits vKey), isEmpty := false } :=
    withKey_bits hf hfull
  have hfull' : (f.withKey vKey).isFull = false := by rw [hwith]; exact hfull
  have hempty' : (f.withKey vKey).isEmpty = false := by rw [hwith]
  rw [reports, contains_bits hsound hfull' hempty', hbits, hwith]
  simp

/-- What is inserted is reported. -/
theorem reports_withKey (hf : f.Sound) (vKey : Bytes) : (f.withKey vKey).reports vKey = true := by
  cases hfull : f.isFull with
  | true => rw [withKey_of_full hfull, reports, contains_of_full hfull]; rfl
  | false =>
      have hne : f.vData ≠ [] := fun hnil => Bool.false_ne_true (hfull.symm.trans (hf hnil))
      rw [reports_withKey_bits hf hfull]
      exact BitMarks.sees_markAll (bits_within hne)

theorem grows_withKey (hf : f.Sound) (vKey : Bytes) : f.Grows (f.withKey vKey) := by
  cases hfull : f.isFull with
  | true => rw [withKey_of_full hfull]; exact .refl f
  | false =>
      have hne : f.vData ≠ [] := fun hnil => Bool.false_ne_true (hfull.symm.trans (hf hnil))
      have hwith : f.withKey vKey = { f with vData := BitMarks.markAll f.vData (f.bits vKey), isEmpty := false } :=
        withKey_bits hf hfull
      refine ⟨?_, ?_, ?_, ?_, ?_, ?_, ?_⟩
      · rw [hwith]; exact BitMarks.length_markAll ..
      · rw [hwith]
      · rw [hwith]
      · rw [hwith]
      · intro _; rw [hwith]
      · intro hclear
        rw [hwith] at hclear
        exact BitMarks.clear_of_markAll (bits_within hne) hclear
      · intro key hkey
        cases hempty : f.isEmpty with
        | true => simp [reports, contains_of_empty hfull hempty] at hkey
        | false =>
            rw [reports, contains_bits hf hfull hempty] at hkey
            rw [reports_withKey_bits hf hfull]
            exact BitMarks.sees_markAll_of_sees (bits_within hne) (by simpa using hkey)

/-! ## Filters that are kept up -/

/-- What `UpdateEmptyFull` makes true, and the tests keep. -/
structure Updated (f : CBloomFilter) : Prop where
  sound : f.Sound
  empty_iff : f.isEmpty = true ↔ f.Clear
  full : f.isFull = true → ∀ byte ∈ f.vData, byte = 0xff

theorem updated_updateEmptyFull (f : CBloomFilter) : f.updateEmptyFull.Updated where
  sound hnil := by
    have hnil : f.vData = [] := hnil
    simp [updateEmptyFull, hnil]
  empty_iff := by simp [updateEmptyFull, Clear]
  full := by simp [updateEmptyFull]

/-- A test that comes to its outputs keeps the filter so. -/
theorem Updated.of_grows (hf : f.Updated) (hfull : f.isFull = false) (hempty : f.isEmpty = false) (h : f.Grows g) :
    g.Updated where
  sound := h.sound hf.sound
  empty_iff := by
    have hnot : ¬ f.Clear := fun hclear => Bool.false_ne_true (hempty.symm.trans (hf.empty_iff.2 hclear))
    rw [h.isEmpty hempty]
    exact ⟨fun h => absurd h Bool.false_ne_true, fun hclear => absurd (h.clear hclear) hnot⟩
  full hg := absurd (hg.symm.trans (h.isFull.trans hfull)) Bool.true_eq_false.mp

/-- A filter that is neither empty nor full. -/
theorem Updated.hashless (hf : f.Updated) (h : f.Hashless) : f.isFull = false ∧ f.isEmpty = true := by
  obtain ⟨_, hne, hclear⟩ := h
  refine ⟨?_, hf.empty_iff.2 hclear⟩
  cases hfull : f.isFull with
  | false => rfl
  | true =>
      obtain ⟨byte, bytes, hdata⟩ := List.exists_cons_of_ne_nil hne
      have hmem : byte ∈ f.vData := hdata ▸ List.mem_cons_self
      exact absurd ((hf.full hfull byte hmem).symm.trans (hclear byte hmem)) (by decide)

/-! ## `filteradd` -/

/-- What is reported, of a filter that is neither full nor empty, is reported after `UpdateEmptyFull`. -/
theorem reports_updateEmptyFull (hf : f.Sound) (hfull : f.isFull = false) (hhash : ¬ f.Hashless)
    (hkey : f.reports key = true) : f.updateEmptyFull.reports key = true := by
  have hempty : f.isEmpty = false := by
    cases hempty : f.isEmpty with
    | false => rfl
    | true => simp [reports, contains_of_empty hfull hempty] at hkey
  have hne : f.vData ≠ [] := fun hnil => Bool.false_ne_true (hfull.symm.trans (hf hnil))
  rw [reports, contains_bits hf hfull hempty] at hkey
  have hsees : BitMarks.sees f.vData (f.bits key) = true := by simpa using hkey
  cases hfull' : f.updateEmptyFull.isFull with
  | true => rw [reports, contains_of_full hfull']; rfl
  | false =>
      have hempty' : f.updateEmptyFull.isEmpty = false := by
        cases hempty' : f.updateEmptyFull.isEmpty with
        | false => rfl
        | true =>
            have hclear : f.Clear := by simpa [updateEmptyFull, Clear] using hempty'
            have hnone : f.bits key = [] := by
              by_contra hsome
              rw [BitMarks.not_sees_of_clear hclear hsome] at hsees
              exact Bool.false_ne_true hsees
            have hzero : f.nHashFuncs = 0 := by
              have hlength := congrArg List.length hnone
              rw [bits, List.length_map, List.length_range] at hlength
              exact UInt32.toNat_inj.1 hlength
            exact absurd ⟨hzero, hne, hclear⟩ hhash
      rw [reports, contains_bits (updated_updateEmptyFull f).sound hfull' hempty']
      exact beq_iff_eq.2 (congrArg some hsees)

/-- The filter after `filteradd` of an element that it does not report. -/
def added (f : CBloomFilter) (vData : Bytes) : CBloomFilter :=
  if f.reports vData then f else (f.withKey vData).updateEmptyFull

theorem added_of_reports (h : f.reports key = true) : f.added key = f := if_pos h

theorem not_full_of_not_reports (h : f.reports key = false) : f.isFull = false := by
  cases hfull : f.isFull with
  | false => rfl
  | true => rw [reports, contains_of_full hfull] at h; cases h

theorem Updated.added (hf : f.Updated) (vData : Bytes) : (f.added vData).Updated := by
  rw [CBloomFilter.added]
  split
  · exact hf
  · exact updated_updateEmptyFull _

theorem within_added (hf : f.Sound) (vData : Bytes) :
    (f.added vData).isWithinSizeConstraints = f.isWithinSizeConstraints := by
  rw [added]
  split
  · rfl
  · exact (grows_withKey hf vData).within

/-- An insertion loses nothing, and the element is reported, unless there are only clear bytes and no hash function. -/
theorem reports_added (hf : f.Updated) (hhash : ¬ f.Hashless) {vData : Bytes}
    (hkey : f.reports key = true ∨ key = vData) : (f.added vData).reports key = true := by
  cases hreports : f.reports vData with
  | true =>
      rw [added_of_reports hreports]
      rcases hkey with hkey | rfl
      · exact hkey
      · exact hreports
  | false =>
      have hgrows := grows_withKey hf.sound vData
      have hfull : (f.withKey vData).isFull = false := hgrows.isFull.trans (not_full_of_not_reports hreports)
      have hhash' : ¬ (f.withKey vData).Hashless := by
        rintro ⟨hzero, hne, hclear⟩
        refine hhash ⟨hgrows.nHashFuncs.symm.trans hzero, ?_, hgrows.clear hclear⟩
        intro hnil
        exact hne (List.length_eq_zero_iff.1 (hgrows.length.trans (List.length_eq_zero_iff.2 hnil)))
      rw [added, hreports, if_neg Bool.false_ne_true]
      refine reports_updateEmptyFull (hgrows.sound hf.sound) hfull hhash' ?_
      rcases hkey with hkey | rfl
      · exact hgrows.reports key hkey
      · exact reports_withKey hf.sound key

/-- Without hash functions the element is lost in clear bytes. -/
theorem not_reports_added_of_hashless (hf : f.Updated) (h : f.Hashless) (vData : Bytes) :
    (f.added vData).reports vData = false := by
  obtain ⟨hfull, hempty⟩ := hf.hashless h
  obtain ⟨hzero, hne, hclear⟩ := h
  have hreports : f.reports vData = false := by simp [reports, contains_of_empty hfull hempty]
  have hdata : (f.withKey vData).vData = f.vData := by
    rw [withKey_bits hf.sound hfull]
    simp [bits, hzero, BitMarks.markAll]
  have hnotall : (f.withKey vData).updateEmptyFull.isFull = false := by
    obtain ⟨byte, bytes, hcons⟩ := List.exists_cons_of_ne_nil hne
    have hbyte : byte = 0 := hclear byte (hcons ▸ List.mem_cons_self)
    simp [updateEmptyFull, hdata, hcons, hbyte]
  have hall : (f.withKey vData).updateEmptyFull.isEmpty = true := by
    simpa [updateEmptyFull, hdata, Clear] using hclear
  rw [added, hreports, if_neg Bool.false_ne_true, reports, contains_of_empty hnotall hall]
  rfl

end CBloomFilter

end ProCurrency
