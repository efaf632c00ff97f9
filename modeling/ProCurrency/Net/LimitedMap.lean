import Mathlib.Data.List.Nodup
import Mathlib.Data.List.Perm.Basic
import Mathlib.Data.Nat.Basic
import Mathlib.Order.Lattice
import ProCurrency.Lib.EventRun

/-!
# The map of the largest values

`limitedmap` (limitedmap.h). The order of the entries of `map` is not looked at, and an iterator into it is the key of
the entry. A result is `none` where the code reads the first entry of an empty `rmap`, follows an iterator whose entry
is gone, or comes to `assert(0)`.
-/

namespace ProCurrency

/-- `limitedmap`; `rmap` is in the order of its values, later entries behind earlier ones. -/
structure LimitedMap (K V : Type) where
  map : List (K × V) := []
  rmap : List (V × K) := []
  nMaxSize : Nat := 0

namespace LimitedMap

variable {K V : Type} [DecidableEq K] [LinearOrder V]

def find (map : List (K × V)) (k : K) : Option V := (map.find? fun e => e.1 = k).map Prod.snd

/-- `map.erase(it)`. -/
def eraseKey (map : List (K × V)) (k : K) : List (K × V) := map.eraseP fun e => e.1 = k

/-- `itTarget->second = v`. -/
def setValue (map : List (K × V)) (k : K) (v : V) : List (K × V) := map.map fun e => if e.1 = k then (k, v) else e

/-- `multimap::insert`. -/
def insertSorted (e : V × K) : List (V × K) → List (V × K)
  | [] => [e]
  | e' :: rmap => if e.1 < e'.1 then e :: e' :: rmap else e' :: insertSorted e rmap

/-- The entry with the lowest value is erased. -/
def evict (m : LimitedMap K V) : Option (LimitedMap K V) :=
  match m.rmap with
  | [] => none
  | (_, k) :: rmap => if (find m.map k).isNone then none else some { m with map := eraseKey m.map k, rmap }

def insert (m : LimitedMap K V) (x : K × V) : Option (LimitedMap K V) :=
  if (find m.map x.1).isSome then some m
  else
    let m' := { m with map := m.map ++ [x] }
    (if m'.nMaxSize ≠ 0 ∧ m'.map.length = m'.nMaxSize then m'.evict else some m').map fun m' =>
      { m' with rmap := insertSorted (x.2, x.1) m'.rmap }

def erase (m : LimitedMap K V) (k : K) : Option (LimitedMap K V) :=
  match find m.map k with
  | none => some m
  | some v => if (v, k) ∈ m.rmap then some { m with map := eraseKey m.map k, rmap := m.rmap.erase (v, k) } else none

def update (m : LimitedMap K V) (k : K) (v : V) : Option (LimitedMap K V) :=
  match find m.map k with
  | none => some m
  | some v' =>
      if (v', k) ∈ m.rmap then
        some { m with map := setValue m.map k v, rmap := insertSorted (v, k) (m.rmap.erase (v', k)) }
      else none

/-- The loop of `max_size`, which ends with the map at the latest. -/
def shrinkTo (s : Nat) : Nat → LimitedMap K V → Option (LimitedMap K V)
  | 0, m => some m
  | rounds + 1, m => if s < m.map.length then m.evict.bind (shrinkTo s rounds) else some m

/-- `max_size(s)`. -/
def setMaxSize (m : LimitedMap K V) (s : Nat) : Option (LimitedMap K V) :=
  (if s ≠ 0 then shrinkTo s m.map.length m else some m).map fun m' => { m' with nMaxSize := s }

/-- `rmap` is the inverse index of `map`. -/
structure Indexed (m : LimitedMap K V) : Prop where
  nodup : (m.map.map Prod.fst).Nodup
  perm : (m.rmap.map Prod.swap).Perm m.map
  sorted : m.rmap.Pairwise fun e e' => e.1 ≤ e'.1

end LimitedMap

/-- The calls that change a map. -/
inductive LimitedMapCall (K V : Type)
  | insert (x : K × V)
  | erase (k : K)
  | update (k : K) (v : V)
  | maxSize (s : Nat)

namespace LimitedMapCall

variable {K V : Type} [DecidableEq K] [LinearOrder V]

def apply (m : LimitedMap K V) : LimitedMapCall K V → Option (LimitedMap K V)
  | insert x => m.insert x
  | erase k => m.erase k
  | update k v => m.update k v
  | maxSize s => m.setMaxSize s

/-- One call after the other; there is no map once the behaviour is undefined. -/
def step (call : LimitedMapCall K V) (m : Option (LimitedMap K V)) : Option (Option (LimitedMap K V) × Unit) :=
  some (m.bind call.apply, ())

end LimitedMapCall

/-! ## Entries -/

namespace LimitedMap

section Entries

variable {K V : Type} {map : List (K × V)} {k : K} {v v' : V}

theorem value_unique (hnodup : (map.map Prod.fst).Nodup) (h : (k, v) ∈ map) (h' : (k, v') ∈ map) : v = v' :=
  congrArg Prod.snd (List.inj_on_of_nodup_map hnodup h h' rfl)

variable [DecidableEq K]

theorem find_eq_none : find map k = none ↔ ∀ e ∈ map, e.1 ≠ k := by
  simp [find]

theorem mem_of_find (h : find map k = some v) : (k, v) ∈ map := by
  obtain ⟨⟨k', v'⟩, hfind, rfl⟩ := Option.map_eq_some_iff.1 h
  have hkey : k' = k := by simpa using List.find?_some hfind
  exact hkey ▸ List.mem_of_find?_eq_some hfind

theorem find_of_mem (hnodup : (map.map Prod.fst).Nodup) (h : (k, v) ∈ map) : find map k = some v := by
  cases hfind : find map k with
  | none => exact absurd rfl (find_eq_none.1 hfind _ h)
  | some v' => rw [value_unique hnodup h (mem_of_find hfind)]

/-- The entry of a key and the others. -/
theorem split_of_mem (hnodup : (map.map Prod.fst).Nodup) (h : (k, v) ∈ map) :
    ∃ before after, map = before ++ (k, v) :: after ∧ eraseKey map k = before ++ after ∧
      ∀ v', setValue map k v' = before ++ (k, v') :: after := by
  obtain ⟨before, after, rfl⟩ := List.append_of_mem h
  rw [List.map_append, List.map_cons, List.nodup_middle, List.nodup_cons, ← List.map_append] at hnodup
  have hother : ∀ e ∈ before ++ after, e.1 ≠ k := by
    intro e he hkey
    exact hnodup.1 (List.mem_map.2 ⟨e, he, hkey⟩)
  have hbefore : ∀ e ∈ before, e.1 ≠ k := fun e he => hother e (List.mem_append_left _ he)
  have hafter : ∀ e ∈ after, e.1 ≠ k := fun e he => hother e (List.mem_append_right _ he)
  have hkept : ∀ v' (l : List (K × V)), (∀ e ∈ l, e.1 ≠ k) → setValue l k v' = l := by
    intro v' l hl
    exact (List.map_congr_left fun e he => if_neg (hl e he)).trans (List.map_id l)
  refine ⟨before, after, rfl, ?_, fun v' => ?_⟩
  · rw [eraseKey, List.eraseP_append_right _ (by simpa using fun a b hmem => hbefore (a, b) hmem)]
    simp
  · rw [setValue, List.map_append, List.map_cons, if_pos rfl]
    change setValue before k v' ++ (k, v') :: setValue after k v' = _
    rw [hkept v' before hbefore, hkept v' after hafter]

theorem eraseKey_perm (hnodup : (map.map Prod.fst).Nodup) (h : (k, v) ∈ map) :
    map.Perm ((k, v) :: eraseKey map k) := by
  obtain ⟨before, after, rfl, herase, _⟩ := split_of_mem hnodup h
  rw [herase]
  exact List.perm_middle

theorem setValue_perm (hnodup : (map.map Prod.fst).Nodup) (h : (k, v) ∈ map) (v' : V) :
    (setValue map k v').Perm ((k, v') :: eraseKey map k) := by
  obtain ⟨before, after, rfl, herase, hset⟩ := split_of_mem hnodup h
  rw [herase, hset]
  exact List.perm_middle

theorem length_evict {m m' : LimitedMap K V} (h : m.evict = some m') : m'.map.length + 1 = m.map.length := by
  rw [evict] at h
  cases hrmap : m.rmap with
  | nil =>
      rw [hrmap] at h
      cases h
  | cons e rmap =>
      rw [hrmap] at h
      dsimp only at h
      split_ifs at h with hfind
      obtain ⟨v, hv⟩ := Option.ne_none_iff_exists'.1 (mt Option.isNone_iff_eq_none.2 hfind)
      cases h
      have hlength : (eraseKey m.map e.2).length = m.map.length - 1 :=
        List.length_eraseP_of_mem (mem_of_find hv) (by simp)
      have hpos := List.length_pos_of_mem (mem_of_find hv)
      change (eraseKey m.map e.2).length + 1 = _
      omega

theorem evict_append {m m' : LimitedMap K V} {x : K × V} (h : m.evict = some m') :
    ({ m with map := m.map ++ [x] } : LimitedMap K V).evict = some { m' with map := m'.map ++ [x] } := by
  rw [evict] at h ⊢
  cases hrmap : m.rmap with
  | nil =>
      rw [hrmap] at h
      cases h
  | cons e rmap =>
      rw [hrmap] at h
      dsimp only at h
      split_ifs at h with hfind
      obtain ⟨v, hv⟩ := Option.ne_none_iff_exists'.1 (mt Option.isNone_iff_eq_none.2 hfind)
      cases h
      have hsome : find (m.map ++ [x]) e.2 ≠ none := fun hnone =>
        find_eq_none.1 hnone (e.2, v) (List.mem_append_left _ (mem_of_find hv)) rfl
      dsimp only
      rw [if_neg (mt Option.isNone_iff_eq_none.1 hsome), eraseKey,
        List.eraseP_append_left (a := (e.2, v)) (by simp) _ (mem_of_find hv)]
      rfl

end Entries

/-! ## The index -/

variable {K V : Type} [LinearOrder V]

theorem insertSorted_perm (e : V × K) (rmap : List (V × K)) : (insertSorted e rmap).Perm (e :: rmap) := by
  induction rmap with
  | nil => exact List.Perm.refl _
  | cons e' rmap ih =>
      rw [insertSorted]
      split_ifs
      · exact List.Perm.refl _
      · exact (ih.cons e').trans (List.Perm.swap e e' rmap)

theorem insertSorted_sorted (e : V × K) {rmap : List (V × K)} (h : rmap.Pairwise fun e e' => e.1 ≤ e'.1) :
    (insertSorted e rmap).Pairwise fun e e' => e.1 ≤ e'.1 := by
  induction rmap with
  | nil => exact List.pairwise_singleton _ _
  | cons e' rmap ih =>
      obtain ⟨hfirst, hrest⟩ := List.pairwise_cons.1 h
      rw [insertSorted]
      split_ifs with hlt
      · refine List.pairwise_cons.2 ⟨fun e'' he'' => ?_, h⟩
        rcases List.mem_cons.1 he'' with rfl | he''
        · exact le_of_lt hlt
        · exact le_trans (le_of_lt hlt) (hfirst e'' he'')
      · refine List.pairwise_cons.2 ⟨fun e'' he'' => ?_, ih hrest⟩
        rcases List.mem_cons.1 ((insertSorted_perm e rmap).mem_iff.1 he'') with rfl | he''
        · exact le_of_not_gt hlt
        · exact hfirst e'' he''

variable {m m' : LimitedMap K V} {k : K} {v : V} {x : K × V}

namespace Indexed

theorem mem_iff (h : m.Indexed) : (v, k) ∈ m.rmap ↔ (k, v) ∈ m.map := by
  rw [← h.perm.mem_iff, List.mem_map]
  constructor
  · exact fun hmem => ⟨(v, k), hmem, rfl⟩
  · rintro ⟨⟨v', k'⟩, hmem, heq⟩
    cases heq
    exact hmem

/-- An entry stands in both, or in none. -/
theorem of_perm {map : List (K × V)} {rmap : List (V × K)} (hnodup : ((x :: map).map Prod.fst).Nodup)
    (hperm : (rmap.map Prod.swap).Perm map) (hsorted : rmap.Pairwise fun e e' => e.1 ≤ e'.1)
    {map' : List (K × V)} (hmap : map'.Perm (x :: map)) (n : Nat) :
    ({ map := map', rmap := insertSorted (x.2, x.1) rmap, nMaxSize := n } : LimitedMap K V).Indexed := by
  refine ⟨(hmap.map Prod.fst).nodup_iff.2 hnodup, ?_, insertSorted_sorted _ hsorted⟩
  have hindex := ((insertSorted_perm (x.2, x.1) rmap).map Prod.swap).trans (hperm.cons x)
  exact hindex.trans hmap.symm

variable [DecidableEq K]

theorem erased (h : m.Indexed) (hmem : (k, v) ∈ m.map) :
    ((eraseKey m.map k).map Prod.fst).Nodup ∧ ((m.rmap.erase (v, k)).map Prod.swap).Perm (eraseKey m.map k) ∧
      k ∉ (eraseKey m.map k).map Prod.fst := by
  have hmap := eraseKey_perm h.nodup hmem
  have hkeys := (hmap.map Prod.fst).nodup_iff.1 h.nodup
  rw [List.map_cons, List.nodup_cons] at hkeys
  refine ⟨hkeys.2, ?_, hkeys.1⟩
  have hindex : ((k, v) :: (m.rmap.erase (v, k)).map Prod.swap).Perm (m.rmap.map Prod.swap) :=
    ((List.perm_cons_erase (h.mem_iff.2 hmem)).map Prod.swap).symm
  exact (hindex.trans (h.perm.trans hmap)).cons_inv

/-- The entry that is evicted has the lowest value. -/
theorem evict (h : m.Indexed) (hne : m.map ≠ []) : ∃ k v m', m.evict = some m' ∧ m'.Indexed ∧
    m'.nMaxSize = m.nMaxSize ∧ m.map.Perm ((k, v) :: m'.map) ∧ ∀ e ∈ m'.map, v ≤ e.2 := by
  have hlength : m.rmap.length = m.map.length := by rw [← h.perm.length_eq, List.length_map]
  cases hrmap : m.rmap with
  | nil =>
      rw [hrmap] at hlength
      exact absurd (List.length_eq_zero_iff.1 hlength.symm) hne
  | cons e rmap =>
      obtain ⟨v, k⟩ := e
      have hmem : (k, v) ∈ m.map := h.mem_iff.1 (hrmap ▸ List.mem_cons_self)
      obtain ⟨hnodup, hperm, _⟩ := h.erased hmem
      have hsorted := h.sorted
      rw [hrmap] at hsorted hperm
      rw [List.erase_cons_head] at hperm
      obtain ⟨hfirst, hrest⟩ := List.pairwise_cons.1 hsorted
      refine ⟨k, v, { m with map := eraseKey m.map k, rmap }, ?_, ⟨hnodup, hperm, hrest⟩, rfl,
        eraseKey_perm h.nodup hmem, fun e he => ?_⟩
      · rw [LimitedMap.evict, hrmap]
        simp [find_of_mem h.nodup hmem]
      · obtain ⟨e', he', rfl⟩ := List.mem_map.1 (hperm.mem_iff.2 he)
        exact hfirst e' he'

theorem erase (h : m.Indexed) (k : K) : ∃ m', m.erase k = some m' ∧ m'.Indexed ∧ m'.nMaxSize = m.nMaxSize ∧
    m'.map.length ≤ m.map.length := by
  rw [LimitedMap.erase]
  cases hfind : find m.map k with
  | none => exact ⟨m, rfl, h, rfl, Nat.le_refl _⟩
  | some v =>
      have hmem := mem_of_find hfind
      obtain ⟨hnodup, hperm, _⟩ := h.erased hmem
      dsimp only
      rw [if_pos (h.mem_iff.2 hmem)]
      exact ⟨_, rfl, ⟨hnodup, hperm, h.sorted.sublist List.erase_sublist⟩, rfl,
        List.length_eraseP_le⟩

theorem update (h : m.Indexed) (k : K) (v : V) : ∃ m', m.update k v = some m' ∧ m'.Indexed ∧
    m'.nMaxSize = m.nMaxSize ∧ m'.map.length ≤ m.map.length := by
  rw [LimitedMap.update]
  cases hfind : find m.map k with
  | none => exact ⟨m, rfl, h, rfl, Nat.le_refl _⟩
  | some v' =>
      have hmem := mem_of_find hfind
      obtain ⟨hnodup, hperm, hkey⟩ := h.erased hmem
      have hset := setValue_perm h.nodup hmem v
      dsimp only
      rw [if_pos (h.mem_iff.2 hmem)]
      refine ⟨_, rfl, of_perm (x := (k, v)) (List.nodup_cons.2 ⟨hkey, hnodup⟩) hperm
        (h.sorted.sublist List.erase_sublist) hset m.nMaxSize, rfl, ?_⟩
      exact Nat.le_of_eq (List.length_map _)

theorem shrinkTo (h : m.Indexed) {s rounds : Nat} (hrounds : m.map.length ≤ s + rounds) :
    ∃ m', m.shrinkTo s rounds = some m' ∧ m'.Indexed ∧ m'.map.length ≤ s := by
  induction rounds generalizing m with
  | zero => exact ⟨m, rfl, h, hrounds⟩
  | succ rounds ih =>
      rw [LimitedMap.shrinkTo]
      split_ifs with hlong
      · obtain ⟨k, v, m', hevict, h', _, hperm, _⟩ := h.evict (List.ne_nil_of_length_pos (by omega))
        have hlength := hperm.length_eq
        rw [List.length_cons] at hlength
        rw [hevict]
        exact ih h' (by omega)
      · exact ⟨m, rfl, h, Nat.le_of_not_lt hlong⟩

theorem setMaxSize (h : m.Indexed) (s : Nat) : ∃ m', m.setMaxSize s = some m' ∧ m'.Indexed ∧ m'.nMaxSize = s ∧
    (s ≠ 0 → m'.map.length ≤ s) := by
  rw [LimitedMap.setMaxSize]
  split_ifs with hs
  · obtain ⟨m', hshrink, h', hlength⟩ := h.shrinkTo (Nat.le_add_left m.map.length s)
    rw [hshrink]
    exact ⟨_, rfl, ⟨h'.nodup, h'.perm, h'.sorted⟩, rfl, fun _ => hlength⟩
  · exact ⟨_, rfl, ⟨h.nodup, h.perm, h.sorted⟩, rfl, fun h0 => absurd h0 hs⟩

end Indexed

variable [DecidableEq K]

/-! ## A new element -/

theorem insert_known (hfind : find m.map x.1 ≠ none) : m.insert x = some m := by
  rw [insert, if_pos (Option.isSome_iff_ne_none.2 hfind)]

theorem insert_new (hfind : find m.map x.1 = none) (h : m.nMaxSize = 0 ∨ m.map.length + 1 ≠ m.nMaxSize) :
    m.insert x = some { m with map := m.map ++ [x], rmap := insertSorted (x.2, x.1) m.rmap } := by
  rw [insert, if_neg (by simp [hfind])]
  dsimp only
  rw [if_neg (by simpa using fun hn => h.resolve_left hn)]
  rfl

/-- The new element takes the place of an old one before the map is full. -/
theorem length_insert_full (hfind : find m.map x.1 = none) (hn : m.nMaxSize ≠ 0)
    (hfull : m.map.length + 1 = m.nMaxSize) (h : m.insert x = some m') : m'.map.length = m.map.length := by
  rw [insert, if_neg (by simp [hfind])] at h
  dsimp only at h
  rw [if_pos ⟨hn, by simpa using hfull⟩] at h
  obtain ⟨m₁, hevict, rfl⟩ := Option.map_eq_some_iff.1 h
  have hlength := length_evict hevict
  simpa using hlength

theorem Indexed.insert_new (h : m.Indexed) (hfind : find m.map x.1 = none) :
    ({ m with map := m.map ++ [x], rmap := insertSorted (x.2, x.1) m.rmap } : LimitedMap K V).Indexed := by
  refine Indexed.of_perm (x := x) (List.nodup_cons.2 ⟨?_, h.nodup⟩) h.perm h.sorted
    (List.perm_append_singleton x m.map) m.nMaxSize
  intro hmem
  obtain ⟨e, he, hkey⟩ := List.mem_map.1 hmem
  exact find_eq_none.1 hfind e he hkey

/-- With a maximum above one that is never raised, each element finds its place. -/
theorem Indexed.insert (h : m.Indexed) (hn : 1 < m.nMaxSize) (hlt : m.map.length < m.nMaxSize) (x : K × V) :
    ∃ m', m.insert x = some m' ∧ m'.Indexed ∧ m'.nMaxSize = m.nMaxSize ∧ m'.map.length < m.nMaxSize := by
  cases hfind : find m.map x.1 with
  | some v => exact ⟨m, insert_known (by simp [hfind]), h, rfl, hlt⟩
  | none =>
      by_cases hfull : m.map.length + 1 = m.nMaxSize
      · obtain ⟨k, v, m₁, hevict, h₁, hn₁, hperm, _⟩ := h.evict (List.ne_nil_of_length_pos (by omega))
        have hfind₁ : find m₁.map x.1 = none := find_eq_none.2 fun e he =>
          find_eq_none.1 hfind e (hperm.mem_iff.2 (List.mem_cons_of_mem _ he))
        have hlength := length_evict hevict
        refine ⟨_, ?_, h₁.insert_new hfind₁, hn₁, ?_⟩
        · rw [LimitedMap.insert, if_neg (by simp [hfind])]
          dsimp only
          rw [if_pos ⟨by omega, by simpa using hfull⟩, evict_append hevict]
          rfl
        · simp only [List.length_append, List.length_singleton]
          omega
      · refine ⟨_, LimitedMap.insert_new hfind (.inr hfull), h.insert_new hfind, rfl, ?_⟩
        simp only [List.length_append, List.length_singleton]
        omega

end LimitedMap

/-! ## What a limited map is for -/

section Limit

variable {K V : Type} [DecidableEq K] [LinearOrder V]

/-- As many of the entries as may be kept, with no higher value among the others. -/
structure HoldsHighest (nMaxSize : Nat) (entries kept : List (K × V)) : Prop where
  sub : kept.Subperm entries
  length : kept.length = if nMaxSize = 0 then entries.length else min nMaxSize entries.length
  highest : ∀ e ∈ entries, e ∉ kept → ∀ e' ∈ kept, e.2 ≤ e'.2

/-- The index is kept and the size is not above the maximum. -/
def LimitedMap.Limited (m : LimitedMap K V) : Prop :=
  m.Indexed ∧ (m.nMaxSize ≠ 0 → m.map.length ≤ m.nMaxSize)

namespace LimitedMapCall

/-- What a call is to do. -/
def Meets (m : LimitedMap K V) (call : LimitedMapCall K V) (result : Option (LimitedMap K V)) : Prop :=
  ∃ m', result = some m' ∧ m'.Limited ∧ ∀ x, call = .insert x → LimitedMap.find m.map x.1 = none →
    HoldsHighest m.nMaxSize (x :: m.map) m'.map ∧
      ((∃ e ∈ m.map, e ∉ m'.map) → m.map.length = m.nMaxSize)

/-- A new element leaves one place free. -/
def Roomy (m : LimitedMap K V) : LimitedMapCall K V → Prop
  | insert x => LimitedMap.find m.map x.1 = none → m.nMaxSize = 0 ∨ m.map.length + 1 < m.nMaxSize
  | _ => True

variable {m : LimitedMap K V} {call : LimitedMapCall K V}

theorem Roomy.meets_insert {x : K × V} (h : m.Limited) (hroom : Roomy m (.insert x)) :
    Meets m (.insert x) (m.insert x) := by
  cases hfind : LimitedMap.find m.map x.1 with
  | some v =>
      rw [LimitedMap.insert_known (by simp [hfind])]
      refine ⟨m, rfl, h, fun x' heq hnone => ?_⟩
      cases heq
      rw [hfind] at hnone
      cases hnone
  | none =>
      have hroom := hroom hfind
      rw [LimitedMap.insert_new hfind (hroom.imp_right Nat.ne_of_lt)]
      have hlength : (m.map ++ [x]).length = m.map.length + 1 := by simp
      have hkept : ∀ e ∈ x :: m.map, e ∈ m.map ++ [x] := fun e he =>
        (List.perm_append_singleton x m.map).mem_iff.2 he
      refine ⟨_, rfl, ⟨h.1.insert_new hfind, fun hn => ?_⟩, fun x' heq _ => ?_⟩
      · dsimp only at hn ⊢
        omega
      · cases heq
        refine ⟨⟨(List.perm_append_singleton x m.map).subperm, ?_, fun e he hout => absurd (hkept e he) hout⟩, ?_⟩
        · dsimp only
          rw [hlength, List.length_cons]
          split_ifs <;> omega
        · rintro ⟨e, he, hout⟩
          exact absurd (hkept e (List.mem_cons_of_mem x he)) hout

theorem Roomy.meets (h : m.Limited) (hroom : Roomy m call) : Meets m call (call.apply m) := by
  cases call with
  | insert x => exact hroom.meets_insert h
  | erase k =>
      obtain ⟨m', herase, h', hn, hlength⟩ := h.1.erase k
      exact ⟨m', herase, ⟨h', fun h0 => hn ▸ le_trans hlength (h.2 (hn ▸ h0))⟩, by simp⟩
  | update k v =>
      obtain ⟨m', hupdate, h', hn, hlength⟩ := h.1.update k v
      exact ⟨m', hupdate, ⟨h', fun h0 => hn ▸ le_trans hlength (h.2 (hn ▸ h0))⟩, by simp⟩
  | maxSize s =>
      obtain ⟨m', hset, h', hn, hlength⟩ := h.1.setMaxSize s
      exact ⟨m', hset, ⟨h', fun h0 => hn ▸ hlength (hn ▸ h0)⟩, by simp⟩

/-- Without the free place an element is evicted too early, or none is evicted. -/
theorem Meets.roomy (h : m.Limited) (hmeets : Meets m call (call.apply m)) : Roomy m call := by
  cases call with
  | erase k => exact trivial
  | update k v => exact trivial
  | maxSize s => exact trivial
  | insert x =>
      intro hfind
      obtain ⟨m', hinsert, hlimited, hnew⟩ := hmeets
      obtain ⟨hhighest, _⟩ := hnew x rfl hfind
      by_contra hroom
      obtain ⟨hn, hsize⟩ := not_or.1 hroom
      have hlength := hhighest.length
      rw [if_neg hn, List.length_cons] at hlength
      have hle := h.2 hn
      by_cases hfull : m.map.length + 1 = m.nMaxSize
      · have hsame := LimitedMap.length_insert_full hfind hn hfull hinsert
        omega
      · have hgrown := LimitedMap.insert_new hfind (.inr hfull)
        rw [show m.insert x = some m' from hinsert] at hgrown
        cases hgrown
        simp only [List.length_append, List.length_singleton] at hlength
        omega

/-- A limited map is one after every call exactly as long as each new element leaves one place free. -/
theorem limitedmap_meets_iff (nMaxSize : Nat) (calls : List (LimitedMapCall K V)) :
    EventRun.Along step (fun m call m' _ => ∀ m₀, m = some m₀ → Meets m₀ call m') calls (some { nMaxSize }) ↔
      EventRun.Along step (fun m call _ _ => ∀ m₀, m = some m₀ → Roomy m₀ call) calls (some { nMaxSize }) := by
  refine EventRun.along_congr_of_invariant (fun m => ∃ m₀, m = some m₀ ∧ m₀.Limited) ?_ ?_
    ⟨_, rfl, ⟨List.nodup_nil, List.Perm.refl _, List.Pairwise.nil⟩, fun _ => Nat.zero_le _⟩
  · rintro _ call m' o ⟨m₀, rfl, hm₀⟩ hstep
    cases hstep
    constructor
    · rintro h _ ⟨⟩
      exact (h m₀ rfl).roomy hm₀
    · rintro h _ ⟨⟩
      exact (h m₀ rfl).meets hm₀
  · rintro _ call m' o ⟨m₀, rfl, hm₀⟩ hstep h
    obtain ⟨m₁, rfl, hm₁, _⟩ := h m₀ rfl
    exact ⟨m₁, rfl, hm₁⟩

/-- The first element reads the first entry of an empty index. -/
theorem limitedmap_evicts_nothing : ¬ ∀ (nMaxSize : Nat) (calls : List (LimitedMapCall Nat Nat)),
    EventRun.Along step (fun m call m' _ => ∀ m₀, m = some m₀ → Meets m₀ call m') calls (some { nMaxSize }) := by
  intro h
  obtain ⟨hmeets, _⟩ := h 1 [.insert (7, 5)] none () rfl
  obtain ⟨m', hnone, _⟩ := hmeets _ rfl
  cases hnone

end LimitedMapCall

end Limit

end ProCurrency
