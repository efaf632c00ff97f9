import ProCurrency.Hd.KeyPath
import ProCurrency.Lib.Tokens

/-!
# Key paths are read as they are printed

What the parser sees is the string up to its first zero byte.
-/

namespace ProCurrency

namespace KeyPath

open ByteCodec Tokens

/-! ## What `strtok` gives -/

section Tokens

variable {s : Bytes} {comps front rest : List Bytes} {c : Bytes} {vPath v : List UInt32}

/-- Behind the first character only the parts after the first slash count. -/
theorem slashesFrom_succ_iff (k : Nat) (s : Bytes) : slashesFrom (k + 1) s = true ↔ [] ∈ (s.splitOn slash).tail := by
  induction s generalizing k with
  | nil => exact ⟨fun h => (Bool.false_ne_true h).elim, fun h => (List.not_mem_nil h).elim⟩
  | cons b s ih =>
      have hhead : (s.splitOn slash).head? = some [] ↔ s = [] ∨ s.head? = some slash := by
        cases s with
        | nil => exact ⟨fun _ => Or.inl rfl, fun _ => rfl⟩
        | cons b' s =>
            obtain ⟨head, tail, hparts⟩ := List.exists_cons_of_ne_nil (List.splitOn_ne_nil slash s)
            rw [List.splitOn_cons_eq_if_modifyHead, hparts]
            by_cases hslash : b' = slash
            · simp [hslash]
            · simp [hslash]
      obtain ⟨head, tail, hparts⟩ := List.exists_cons_of_ne_nil (List.splitOn_ne_nil slash s)
      have ih := ih (k + 1)
      rw [hparts, List.tail_cons] at ih
      rw [hparts, List.head?_cons, Option.some.injEq] at hhead
      rw [slashesFrom, Bool.or_eq_true, ih, List.splitOn_cons_eq_if_modifyHead, hparts]
      by_cases hslash : b = slash
      · rw [if_pos (beq_iff_eq.mpr hslash), List.tail_cons, List.mem_cons, eq_comm (a := []), hhead]
        simp [hslash]
      · rw [if_neg fun h => hslash (eq_of_beq h)]
        simp [hslash]

/-- The slashes are right where no part is empty. -/
theorem slashesFrom_iff (hs : s ≠ []) : slashesFrom 0 s = true ↔ [] ∈ s.splitOn slash := by
  obtain ⟨b, s, rfl⟩ := List.exists_cons_of_ne_nil hs
  have htail := slashesFrom_succ_iff 0 s
  obtain ⟨head, tail, hparts⟩ := List.exists_cons_of_ne_nil (List.splitOn_ne_nil slash s)
  rw [hparts, List.tail_cons] at htail
  rw [slashesFrom, Bool.or_eq_true, htail, List.splitOn_cons_eq_if_modifyHead, hparts]
  by_cases hslash : b = slash
  · simp [hslash]
  · simp [hslash]

/-! ### The components of an accepted string -/

/-- The zero byte that ends the text is in the last component, behind an `m`. -/
def Consumed (comps : List Bytes) : Prop :=
  ∀ front c rest, comps = front ++ c :: rest → 0 ∈ c → rest = [] ∧ StartsM c

theorem Consumed.tail {a : Bytes} (h : Consumed (a :: comps)) : Consumed comps :=
  fun front c rest hcomps h0 => h (a :: front) c rest (congrArg (a :: ·) hcomps) h0

theorem parseTokens_ok {tokens : List Bytes} {vPath' : List UInt32} (h : parseTokens vPath tokens = .ok vPath') :
    ∃ v, vPath' = vPath ++ v ∧ tokens.map componentValue = v.map fun n => some n.toNat := by
  induction tokens generalizing vPath with
  | nil =>
      cases h
      exact ⟨[], (List.append_nil _).symm, rfl⟩
  | cons p tokens ih =>
      have hvalue := parseChild_eq p
      rw [parseTokens] at h
      split at h
      · cases h
      · rename_i nChild hchild
        rw [hchild] at hvalue
        dsimp only at h
        split at h
        · cases h
        · obtain ⟨v, hv, hvalues⟩ := ih h
          refine ⟨nChild :: v, ?_, ?_⟩
          · rw [hv, List.append_assoc, List.singleton_append]
          · rw [List.map_cons, List.map_cons, hvalues, ← hvalue]
            rfl

/-- Zero is at the end of a path, or in front of it. -/
theorem parseTokens_of_values {tokens : List Bytes} (hvalues : tokens.map componentValue = v.map fun n => some n.toNat)
    (hzero : ∀ front rest, v = front ++ 0 :: rest → vPath ++ front = [] ∨ rest = []) :
    parseTokens vPath tokens = .ok (vPath ++ v) := by
  induction tokens generalizing vPath v with
  | nil =>
      cases v with
      | nil => rw [List.append_nil]; rfl
      | cons n v => cases hvalues
  | cons p tokens ih =>
      cases v with
      | nil => cases hvalues
      | cons n v =>
          rw [List.map_cons, List.map_cons] at hvalues
          obtain ⟨hhead, htail⟩ := List.cons.inj hvalues
          have hvalue := parseChild_eq p
          rw [hhead] at hvalue
          rw [parseTokens]
          cases hchild : parseChild p with
          | error rv =>
              rw [hchild] at hvalue
              cases hvalue
          | ok nChild =>
              rw [hchild] at hvalue
              have hn : nChild = n := UInt32.toNat_inj.mp (Option.some.inj hvalue)
              subst hn
              dsimp only
              have hno : ¬(nChild = 0 ∧ (vPath ++ [nChild]).length ≠ 1 ∧ tokens ≠ []) := by
                rintro ⟨rfl, hlong, hmore⟩
                rcases hzero [] v rfl with hfront | hrest
                · rw [List.append_nil] at hfront
                  exact hlong (by rw [hfront]; rfl)
                · rw [hrest] at htail
                  exact hmore (List.map_eq_nil_iff.mp htail)
              rw [if_neg hno, ih htail, List.append_assoc, List.singleton_append]
              intro front rest hv
              rcases hzero (nChild :: front) rest (by rw [hv]; rfl) with hfront | hrest
              · cases (List.append_eq_nil_iff.mp hfront).2
              · exact Or.inr hrest

/-- What `strtok` gives has the numbers of all components. -/
theorem map_componentValue_cut (hne : [] ∉ comps) (hconsumed : Consumed comps) :
    ((cut 0 comps).filter (· ≠ [])).map componentValue = comps.map componentValue := by
  induction comps with
  | nil => rfl
  | cons c rest ih =>
      have hc : c ≠ [] := fun h => hne (by rw [h]; exact List.mem_cons_self)
      rw [cut]
      split
      · rename_i h0
        obtain ⟨rfl, hm⟩ := hconsumed [] c rest rfl h0
        obtain ⟨b, c, rfl⟩ := List.exists_cons_of_ne_nil hc
        have hb : b ≠ 0 := by
          rintro rfl
          exact hm.elim (fun h => absurd (Option.some.inj h) (by decide)) fun h => absurd (Option.some.inj h) (by decide)
        have htake : (b :: c).takeWhile (· ≠ 0) = b :: c.takeWhile (· ≠ 0) :=
          List.takeWhile_cons_of_pos (p := fun c => decide (c ≠ 0)) (decide_eq_true hb)
        have hm' : StartsM (b :: c.takeWhile (· ≠ 0)) := hm
        rw [htake, List.filter_cons_of_pos (by simp), List.filter_nil, List.map_singleton, List.map_singleton,
          componentValue, if_pos hm', componentValue, if_pos hm]
      · rw [List.filter_cons_of_pos (by simpa using hc), List.map_cons, List.map_cons,
          ih (fun h => hne (List.mem_cons_of_mem c h)) hconsumed.tail]

theorem strtok_eq (s : Bytes) : strtok s = (cut 0 (s.splitOn slash)).filter (· ≠ []) := by
  rw [strtok, splitOn_takeWhile (by decide)]

theorem extractExtKeyPath_ok (h : extractExtKeyPath s = .ok vPath) :
    [] ∉ s.splitOn slash ∧ (strtok s).map componentValue = vPath.map fun n => some n.toNat := by
  unfold extractExtKeyPath at h
  split at h
  · cases h
  split at h
  · cases h
  rename_i hlen
  split at h
  · cases h
  rename_i hslashes
  have hs : s ≠ [] := by
    rintro rfl
    exact hlen Nat.zero_lt_one
  refine ⟨mt (slashesFrom_iff hs).mpr hslashes, ?_⟩
  split at h
  · cases h
  · rename_i v hparse
    split at h
    · cases h
    · cases h
      obtain ⟨v', hv', hvalues⟩ := parseTokens_ok hparse
      rw [List.nil_append] at hv'
      rw [hv']
      exact hvalues

end Tokens
/-! ## Printed paths -/

section Printed

variable {digits : Bytes} {cH : UInt8} {v : List UInt32}

theorem range_of_decimalDigit {c : UInt8} (h : validDigit c 10 = true) : 48 ≤ c.toNat ∧ c.toNat ≤ 57 := by
  simpa only [validDigit, Bool.and_eq_true, decide_eq_true_eq] using h

theorem digitValue_ofNat : ∀ d < 10, digitValue (UInt8.ofNat (48 + d)) = d ∧ validDigit (UInt8.ofNat (48 + d)) 10 = true := by
  decide

theorem valueFrom_map (ds : List Nat) (hds : ∀ d ∈ ds, d < 10) (acc : Nat) :
    valueFrom 10 acc (ds.map fun d => UInt8.ofNat (48 + d)) = ds.foldl (fun n d => n * 10 + d) acc := by
  induction ds generalizing acc with
  | nil => rfl
  | cons d ds ih =>
      have hstep := ih (fun d' hd' => hds d' (List.mem_cons_of_mem d hd')) (acc * 10 + d)
      rw [List.map_cons, List.foldl_cons, ← hstep, valueFrom, List.foldl_cons,
        (digitValue_ofNat d (hds d List.mem_cons_self)).1]
      rfl

theorem decimal_spec (n : Nat) :
    decimal n ≠ [] ∧ (∀ c ∈ decimal n, validDigit c 10 = true) ∧ valueFrom 10 0 (decimal n) = n := by
  rw [decimal]
  split
  · rename_i hn
    subst hn
    refine ⟨List.cons_ne_nil _ _, ?_, rfl⟩
    intro c hc
    rw [List.mem_singleton.mp hc]
    rfl
  · rename_i hn
    have hdigit (d : Nat) (hd : d ∈ Radix.beDigits 10 n) : d < 10 := Radix.lt_of_mem_beDigits (by decide) hd
    refine ⟨?_, ?_, ?_⟩
    · intro hnil
      have hvalue := Radix.ofBe_beDigits 10 n
      rw [List.map_eq_nil_iff.mp hnil] at hvalue
      exact hn hvalue.symm
    · intro c hc
      obtain ⟨d, hd, rfl⟩ := List.mem_map.mp hc
      exact (digitValue_ofNat d (hdigit d hd)).2
    · exact (valueFrom_map _ hdigit 0).trans (Radix.ofBe_beDigits 10 n)

/-- Decimal digits, with a marker behind them or without. -/
theorem componentValue_digits (fHarden : Bool) (hmarker : isMarker cH = true) (hne : digits ≠ [])
    (hvalid : ∀ c ∈ digits, validDigit c 10 = true)
    (hvalue : valueFrom 10 0 digits < if fHarden then 2 ^ 31 else 2 ^ 32) :
    componentValue (digits ++ if fHarden then [cH] else []) =
      some (valueFrom 10 0 digits + if fHarden then 2 ^ 31 else 0) := by
  have hrange (c : UInt8) (hc : c ∈ digits) := range_of_decimalDigit (hvalid c hc)
  have hm : ¬StartsM (digits ++ if fHarden then [cH] else []) := by
    obtain ⟨b, digits, rfl⟩ := List.exists_cons_of_ne_nil hne
    have hb := hrange b List.mem_cons_self
    rintro (h | h)
    · rw [List.cons_append, List.head?_cons] at h
      rw [Option.some.inj h] at hb
      exact absurd hb (by decide)
    · rw [List.cons_append, List.head?_cons] at h
      rw [Option.some.inj h] at hb
      exact absurd hb (by decide)
  have hnth (i : Nat) : (digits ++ if fHarden then [cH] else []).getD i 0 ∉ [98, 66, 120, 88] := by
    intro hmem
    have hchar : ∀ c ∈ digits ++ (if fHarden then [cH] else []), c ∉ [98, 66, 120, 88] := by
      intro c hc hc'
      have hletters : ∀ d ∈ ([98, 66, 120, 88] : Bytes), ¬(48 ≤ d.toNat ∧ d.toNat ≤ 57) ∧ isMarker d = false := by
        intro d hd
        simp only [List.mem_cons, List.not_mem_nil, or_false] at hd
        rcases hd with rfl | rfl | rfl | rfl
        · exact ⟨by decide, by decide⟩
        · exact ⟨by decide, by decide⟩
        · exact ⟨by decide, by decide⟩
        · exact ⟨by decide, by decide⟩
      rcases List.mem_append.mp hc with hc | hc
      · exact (hletters c hc').1 (hrange c hc)
      · split at hc
        · have hno := (hletters c hc').2
          rw [List.mem_singleton.mp hc, hmarker] at hno
          cases hno
        · cases hc
    rcases Nat.lt_or_ge i (digits ++ if fHarden then [cH] else []).length with hi | hi
    · rw [List.getD_eq_getElem _ _ hi] at hmem
      exact hchar _ (List.getElem_mem hi) hmem
    · rw [List.getD_eq_default _ _ hi] at hmem
      exact absurd hmem (by decide)
  have hsplit : splitBase (digits ++ if fHarden then [cH] else []) = (10, digits ++ if fHarden then [cH] else []) := by
    have hone := hnth 1
    simp only [List.mem_cons, List.not_mem_nil, or_false, not_or] at hone
    rw [splitBase, if_neg fun h => h.2.elim hone.1 hone.2.1, if_neg fun h => h.2.elim hone.2.2.1 hone.2.2.2]
  have hlast : splitMarker (digits ++ if fHarden then [cH] else []) = (digits, fHarden) := by
    cases fHarden with
    | false =>
        obtain ⟨front, last, rfl⟩ : ∃ front last, digits = front ++ [last] :=
          ⟨_, _, (List.dropLast_append_getLast hne).symm⟩
        have hrangeLast := hrange last (List.mem_append_right front List.mem_cons_self)
        rw [splitMarker]
        simp only [Bool.false_eq_true, if_false, List.append_nil, List.getLast?_concat, Option.any_some]
        rw [if_neg]
        intro hlast
        rcases isMarker_iff.mp hlast with rfl | rfl | rfl
        · exact absurd hrangeLast (by decide)
        · exact absurd hrangeLast (by decide)
        · exact absurd hrangeLast (by decide)
    | true =>
        rw [splitMarker]
        simp only [if_true, List.getLast?_concat, Option.any_some, hmarker, List.dropLast_concat]
  rw [componentValue, if_neg hm, hsplit]
  dsimp only
  rw [hlast]
  exact if_pos ⟨hne, hvalid, hvalue⟩

theorem top_bit_set_iff (n : UInt32) : n >>> 31 = 1 ↔ 2 ^ 31 ≤ n.toNat := by
  have hn := n.toNat_lt
  rw [← UInt32.toNat_inj, UInt32.toNat_shiftRight]
  simp [Nat.shiftRight_eq_div_pow]
  omega

/-- What is printed says the number, and has none of the characters that would end it. -/
theorem childText_spec (hmarker : isMarker cH = true) (n : UInt32) :
    componentValue (childText cH n) = some n.toNat ∧ slash ∉ childText cH n ∧ 0 ∉ childText cH n := by
  have hno (d : UInt8) (hd : ¬(48 ≤ d.toNat ∧ d.toNat ≤ 57)) (hd' : isMarker d = false) (m : Nat) (fHarden : Bool) :
      d ∉ decimal m ++ if fHarden then [cH] else [] := by
    intro hmem
    rcases List.mem_append.mp hmem with hmem | hmem
    · exact hd (range_of_decimalDigit ((decimal_spec m).2.1 d hmem))
    · split at hmem
      · rw [List.mem_singleton.mp hmem, hmarker] at hd'
        cases hd'
      · cases hmem
  have htext (m : Nat) (fHarden : Bool) (hm : m < if fHarden then 2 ^ 31 else 2 ^ 32) :
      componentValue (decimal m ++ if fHarden then [cH] else []) = some (m + if fHarden then 2 ^ 31 else 0) ∧
        slash ∉ (decimal m ++ if fHarden then [cH] else []) ∧ 0 ∉ (decimal m ++ if fHarden then [cH] else []) := by
    obtain ⟨hne, hvalid, hvalue⟩ := decimal_spec m
    refine ⟨?_, hno slash (by decide) (by decide) m fHarden, hno 0 (by decide) (by decide) m fHarden⟩
    have hcomponent := componentValue_digits fHarden hmarker hne hvalid (by rw [hvalue]; exact hm)
    rw [hvalue] at hcomponent
    exact hcomponent
  have hn := n.toNat_lt
  rw [childText]
  split
  · rename_i hset
    have hlarge := (top_bit_set_iff n).mp hset
    have hclear : (n &&& ~~~((1 : UInt32) <<< 31)).toNat = n.toNat - 2 ^ 31 := by
      have hmask : ~~~((1 : UInt32) <<< 31) = 0x7fffffff := by decide
      rw [hmask, clear_top_toNat]
      omega
    have hspec := htext (n.toNat - 2 ^ 31) true (by rw [if_pos rfl]; omega)
    simp only [if_true] at hspec
    rw [Nat.sub_add_cancel hlarge] at hspec
    rw [hclear]
    exact hspec
  · have hspec := htext n.toNat false (by rw [if_neg Bool.false_ne_true]; exact hn)
    simp only [Bool.false_eq_true, if_false, List.append_nil, Nat.add_zero] at hspec
    exact hspec

theorem children_pack (v : List UInt32) : children (pack v) = v := by
  induction v with
  | nil => rfl
  | cons n v ih =>
      have hpack : pack (n :: v) = leBytes 4 n.toNat ++ pack v := rfl
      have hvalue : ofLeBytes (leBytes 4 n.toNat) = n.toNat := ofLeBytes_leBytes n.toNat_lt
      have hbytes : ∃ b₀ b₁ b₂ b₃, leBytes 4 n.toNat = [b₀, b₁, b₂, b₃] := ⟨_, _, _, _, rfl⟩
      obtain ⟨b₀, b₁, b₂, b₃, hbytes⟩ := hbytes
      rw [hbytes] at hvalue hpack
      rw [hpack]
      change UInt32.ofNat (ofLeBytes [b₀, b₁, b₂, b₃]) :: children (pack v) = n :: v
      rw [hvalue, ih, UInt32.ofNat_toNat]

theorem length_pack (v : List UInt32) : (pack v).length = 4 * v.length := by
  induction v with
  | nil => rfl
  | cons n v ih =>
      have hpack : pack (n :: v) = leBytes 4 n.toNat ++ pack v := rfl
      rw [hpack, List.length_append, length_leBytes, ih, List.length_cons, Nat.mul_succ, Nat.add_comm]

theorem pathToString_pack (v : List UInt32) (cH : UInt8) :
    pathToString (pack v) cH = .ok (109 :: v.flatMap fun n => slash :: childText cH n) := by
  have hfold (sPath : Bytes) : v.foldl (fun sPath n => sPath ++ [slash] ++ childText cH n) sPath =
      sPath ++ v.flatMap fun n => slash :: childText cH n := by
    induction v generalizing sPath with
    | nil => exact (List.append_nil _).symm
    | cons n v ih => rw [List.foldl_cons, ih, List.flatMap_cons, List.append_assoc, List.append_assoc]; rfl
  rw [pathToString, if_neg (by rw [length_pack, Nat.mul_mod_right]; exact fun h => h rfl), children_pack, hfold]
  rfl

/-- The slashes of a printed path are between its components. -/
theorem splitOn_printed (text : UInt32 → Bytes) (htext : ∀ n, slash ∉ text n) (first : Bytes)
    (hfirst : slash ∉ first) (v : List UInt32) :
    (first ++ v.flatMap fun n => slash :: text n).splitOn slash = first :: v.map text := by
  induction v generalizing first with
  | nil => rw [List.flatMap_nil, List.append_nil, List.splitOn_eq_singleton hfirst]; rfl
  | cons n v ih =>
      rw [List.flatMap_cons, List.cons_append, List.splitOn_append_cons_self_of_not_mem hfirst, ih _ (htext n)]
      rfl

/-- The components of a printed path are not empty and hold no zero byte. -/
theorem printed_components (hmarker : isMarker cH = true) (v : List UInt32) :
    ∀ c ∈ [109] :: v.map (childText cH), c ≠ [] ∧ 0 ∉ c := by
  intro c hc
  rcases List.mem_cons.mp hc with rfl | hc
  · decide
  · obtain ⟨n, -, rfl⟩ := List.mem_map.mp hc
    obtain ⟨hvalue, -, hzero⟩ := childText_spec hmarker n
    refine ⟨fun hnil => ?_, hzero⟩
    rw [hnil] at hvalue
    cases hvalue

theorem printed_values (hmarker : isMarker cH = true) (v : List UInt32) :
    ([109] :: v.map (childText cH)).map componentValue = ((0 : UInt32) :: v).map fun n => some n.toNat := by
  rw [List.map_cons, List.map_cons, List.map_map]
  exact congrArg (some 0 :: ·) (List.map_congr_left fun n _ => (childText_spec hmarker n).1)

theorem splitOn_printed_path (hmarker : isMarker cH = true) (v : List UInt32) :
    (109 :: v.flatMap fun n => slash :: childText cH n).splitOn slash = [109] :: v.map (childText cH) :=
  splitOn_printed (childText cH) (fun n => (childText_spec hmarker n).2.1) [109] (by decide) v

theorem strtok_printed (hmarker : isMarker cH = true) (v : List UInt32) :
    strtok (109 :: v.flatMap fun n => slash :: childText cH n) = [109] :: v.map (childText cH) := by
  have hcomps := printed_components hmarker v
  rw [strtok_eq, splitOn_printed_path hmarker, cut_eq_self fun c hc => (hcomps c hc).2]
  exact List.filter_eq_self.mpr fun c hc => decide_eq_true (hcomps c hc).1

/-- A printed path is read as the path. -/
theorem extractExtKeyPath_printed (hmarker : isMarker cH = true)
    (hzero : ∀ front rest, v = front ++ 0 :: rest → rest = []) : ∃ text, pathToString (pack v) cH = .ok text ∧
      (text.length ≤ 510 → extractExtKeyPath text = .ok (0 :: v)) := by
  refine ⟨_, pathToString_pack v cH, ?_⟩
  intro hlen
  have hslashes : ¬slashesFrom 0 (109 :: v.flatMap fun n => slash :: childText cH n) = true := by
    rw [slashesFrom_iff (List.cons_ne_nil _ _), splitOn_printed_path hmarker]
    exact fun hnil => (printed_components hmarker v _ hnil).1 rfl
  have hparse : parseTokens [] ([109] :: v.map (childText cH)) = .ok (0 :: v) := by
    refine parseTokens_of_values (printed_values hmarker v) ?_
    intro front rest hv
    cases front with
    | nil => exact Or.inl rfl
    | cons n front => exact Or.inr (hzero front rest (List.cons.inj hv).2)
  have hlong : ¬(109 :: v.flatMap fun n => slash :: childText cH n).length < 1 :=
    Nat.not_lt.mpr (Nat.succ_le_succ (Nat.zero_le _))
  rw [extractExtKeyPath, if_neg (Nat.not_lt.mpr hlen), if_neg hlong, if_neg hslashes, strtok_printed hmarker, hparse]
  exact if_neg (Nat.not_lt.mpr (Nat.succ_le_succ (Nat.zero_le _)))

/-- A string that is accepted is read to its end where no zero byte cuts it. -/
theorem components_read_iff {sPath : Bytes} {vPath : List UInt32} (haccept : extractExtKeyPath sPath = .ok vPath) :
    (sPath.splitOn slash).map componentValue = (vPath.map fun n => some n.toNat) ↔ Consumed (sPath.splitOn slash) := by
  obtain ⟨hne, hvalues⟩ := extractExtKeyPath_ok haccept
  rw [strtok_eq] at hvalues
  refine ⟨?_, ?_⟩
  · intro hall front c rest hcomps h0
    have hm : StartsM c := by
      by_contra hm
      have hmem : (none : Option Nat) ∈ vPath.map fun n => some n.toNat := by
        rw [← hall, hcomps, List.map_append, List.map_cons, componentValue_zero h0 hm]
        exact List.mem_append_right _ List.mem_cons_self
      obtain ⟨n, -, hn⟩ := List.mem_map.mp hmem
      cases hn
    refine ⟨?_, hm⟩
    have hshort := Nat.le_trans (List.length_filter_le (· ≠ []) _) (length_cut_le h0 front rest)
    have hlen := congrArg List.length (hvalues.trans hall.symm)
    rw [List.length_map, List.length_map, hcomps] at hlen
    rw [hlen, List.length_append, List.length_cons] at hshort
    exact List.eq_nil_of_length_eq_zero (by omega)
  · intro hconsumed
    rw [← map_componentValue_cut hne hconsumed]
    exact hvalues

theorem extractExtKeyPath_pathToString (sPath : Bytes) (vPath : List UInt32)
    (haccept : extractExtKeyPath sPath = .ok vPath) :
    (∀ (v : List UInt32) (cH : UInt8), isMarker cH = true → (∀ front rest, v = front ++ 0 :: rest → rest = []) →
      ∃ text, pathToString (pack v) cH = .ok text ∧ (text.length ≤ 510 → extractExtKeyPath text = .ok (0 :: v))) ∧
    ((sPath.splitOn slash).map componentValue = (vPath.map fun n => some n.toNat) ↔
      Consumed (sPath.splitOn slash)) :=
  ⟨fun _ _ => extractExtKeyPath_printed, components_read_iff haccept⟩

theorem extractExtKeyPath_pathToString_hardened :
    extractExtKeyPath [109, slash, 49, 104] = .ok [0, 0x80000001] ∧
      (List.splitOn slash [109, slash, 49]).map componentValue = [some 0, some 1] := by
  obtain ⟨hprint, hread⟩ := extractExtKeyPath_pathToString [109, slash, 49] [0, 1] rfl
  obtain ⟨sPath, hpath, hparse⟩ := hprint [0x80000001] 104 rfl fun front rest h => by
    cases front with
    | nil => cases (List.cons.inj h).1
    | cons n front => exact absurd (List.append_eq_nil_iff.mp (List.cons.inj h).2.symm).2 (List.cons_ne_nil _ _)
  have hsPath : sPath = [109, slash, 49, 104] := by
    rw [pathToString_pack] at hpath
    exact (Except.ok.inj hpath).symm
  rw [hsPath] at hparse
  refine ⟨hparse (by decide), hread.mpr ?_⟩
  intro front c rest hcomps h0
  have hc : c ∈ List.splitOn slash [109, slash, 49] := by
    rw [hcomps]
    exact List.mem_append_right front List.mem_cons_self
  exact absurd ((mem_flatten_splitOn (by decide) _).mp ⟨c, hc, h0⟩) (by decide)

/-- Behind a zero byte nothing is read. -/
theorem extractExtKeyPath_zeroByte : ¬∀ (sPath : Bytes) (vPath : List UInt32), extractExtKeyPath sPath = .ok vPath →
    (sPath.splitOn slash).map componentValue = vPath.map fun n => some n.toNat := by
  intro h
  have hshort := congrArg List.length (h [109, slash, 49, 0, slash, 50] [0, 1] rfl)
  exact absurd hshort (by decide)

end Printed

end KeyPath

end ProCurrency
