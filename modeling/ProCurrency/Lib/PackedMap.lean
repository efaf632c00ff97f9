import Mathlib.Data.List.AList

/-!
# Maps in packs

The entries of a map are written in packs, lists of entries under keys of a table, and the map is read back from all
the packs of one owner. An entry may be written more than once, as long as it is the same entry.
-/

namespace PackedMap

section Entries

variable {K V : Type} [Ord K] [Std.TransOrd K]

/-- The map with the entries of a list, the last one of a key. -/
def insertAll (m : Std.ExtTreeMap K V) (es : List (K × V)) : Std.ExtTreeMap K V :=
  es.foldl (fun m e => m.insert e.1 e.2) m

@[simp] theorem insertAll_cons (m : Std.ExtTreeMap K V) (e : K × V) (es : List (K × V)) :
    insertAll m (e :: es) = insertAll (m.insert e.1 e.2) es := rfl

variable [Std.LawfulEqOrd K] [DecidableEq K]

theorem getElem?_insert (m : Std.ExtTreeMap K V) (k a : K) (v : V) :
    (m.insert k v)[a]? = if k = a then some v else m[a]? := by
  rw [Std.ExtTreeMap.getElem?_insert]
  simp only [Std.compare_eq_iff_eq]

theorem getElem?_erase (m : Std.ExtTreeMap K V) (k a : K) :
    (m.erase k)[a]? = if k = a then none else m[a]? := by
  rw [Std.ExtTreeMap.getElem?_erase]
  simp only [Std.compare_eq_iff_eq]

theorem getElem?_modify (m : Std.ExtTreeMap K V) (k a : K) (f : V → V) :
    (m.modify k f)[a]? = if k = a then m[a]?.map f else m[a]? := by
  rw [Std.ExtTreeMap.getElem?_modify]
  simp only [Std.compare_eq_iff_eq]
  split
  · rename_i hk
    rw [hk]
  · rfl

/-- An entry of the result was there or is in the list. -/
theorem of_insertAll {m : Std.ExtTreeMap K V} {es : List (K × V)} {k : K} {v : V}
    (h : (insertAll m es)[k]? = some v) : m[k]? = some v ∨ (k, v) ∈ es := by
  induction es generalizing m with
  | nil => exact .inl h
  | cons e es ih =>
      rcases ih h with hm | hes
      · rw [getElem?_insert] at hm
        split at hm
        · cases hm
          subst k
          exact .inr List.mem_cons_self
        · exact .inl hm
      · exact .inr (List.mem_cons_of_mem e hes)

theorem isSome_insertAll {m : Std.ExtTreeMap K V} {es : List (K × V)} {k : K}
    (h : m[k]?.isSome ∨ ∃ v, (k, v) ∈ es) : (insertAll m es)[k]?.isSome := by
  induction es generalizing m with
  | nil =>
      rcases h with h | ⟨v, hv⟩
      · exact h
      · cases hv
  | cons e es ih =>
      apply ih
      rw [getElem?_insert]
      rcases h with h | ⟨v, hv⟩
      · left
        split
        · rfl
        · exact h
      · cases hv with
        | head => exact .inl (by rw [if_pos rfl]; rfl)
        | tail _ hv => exact .inr ⟨v, hv⟩

/-- Where the entries of a key agree with each other and with what was there, none of them is lost. -/
theorem getElem?_insertAll_iff {m : Std.ExtTreeMap K V} {es : List (K × V)}
    (hes : ∀ k v v', (k, v) ∈ es → (k, v') ∈ es → v = v')
    (hm : ∀ k v v', m[k]? = some v → (k, v') ∈ es → v = v') (k : K) (v : V) :
    (insertAll m es)[k]? = some v ↔ m[k]? = some v ∨ (k, v) ∈ es := by
  refine ⟨of_insertAll, fun h => ?_⟩
  have hsome : (insertAll m es)[k]?.isSome :=
    isSome_insertAll (h.imp (fun h => by rw [h]; rfl) (fun h => ⟨v, h⟩))
  obtain ⟨v', hv'⟩ := Option.isSome_iff_exists.1 hsome
  have heq : v = v' := by
    rcases h with h | h <;> rcases of_insertAll hv' with h' | h'
    · exact Option.some.inj (h.symm.trans h')
    · exact hm k v v' h h'
    · exact (hm k v' v h' h).symm
    · exact hes k v v' h h'
  rw [hv', heq]

/-- A map that has exactly the entries of a list is read back from the list. -/
theorem insertAll_eq {m : Std.ExtTreeMap K V} {es : List (K × V)}
    (h : ∀ k v, m[k]? = some v ↔ (k, v) ∈ es) : insertAll ∅ es = m := by
  have hes : ∀ k v v', (k, v) ∈ es → (k, v') ∈ es → v = v' := fun k v v' hv hv' =>
    Option.some.inj (((h k v).2 hv).symm.trans ((h k v').2 hv'))
  apply Std.ExtTreeMap.ext_getElem?
  intro k
  apply Option.ext
  intro v
  rw [getElem?_insertAll_iff hes (fun k v v' hv => by rw [Std.ExtTreeMap.getElem?_empty] at hv; cases hv),
    Std.ExtTreeMap.getElem?_empty, h k v]
  exact ⟨fun h => h.resolve_left nofun, .inr⟩

/-- The map without the keys of a list. -/
def eraseAll (m : Std.ExtTreeMap K V) (es : List (K × V)) : Std.ExtTreeMap K V :=
  es.foldl (fun m e => m.erase e.1) m

theorem getElem?_eraseAll_iff {m : Std.ExtTreeMap K V} {es : List (K × V)} {k : K} {v : V} :
    (eraseAll m es)[k]? = some v ↔ m[k]? = some v ∧ ∀ e ∈ es, e.1 ≠ k := by
  induction es generalizing m with
  | nil => exact ⟨fun h => ⟨h, nofun⟩, And.left⟩
  | cons e es ih =>
      rw [eraseAll, List.foldl_cons, ← eraseAll, ih, getElem?_erase]
      by_cases hk : e.1 = k
      · rw [if_pos hk]
        exact ⟨fun h => (nomatch h.1), fun h => absurd hk (h.2 e List.mem_cons_self)⟩
      · rw [if_neg hk]
        simp only [List.forall_mem_cons, ne_eq, hk, not_false_eq_true, true_and]

end Entries

/-! ## Packs -/

variable {P K V : Type} [Ord P] [Std.TransOrd P]

/-- A pack with entries appended; a pack that is not there is started. -/
def append (t : Std.ExtTreeMap P (List (K × V))) (p : P) (es : List (K × V)) : Std.ExtTreeMap P (List (K × V)) :=
  t.insert p (t[p]?.getD [] ++ es)

/-- The entries of the packs of one owner, in the order of the table. -/
def entries (t : Std.ExtTreeMap P (List (K × V))) (mine : P → Bool) : List (K × V) :=
  (t.toList.filter fun pack => mine pack.1).flatMap Prod.snd

variable [Std.LawfulEqOrd P]

theorem mem_entries {t : Std.ExtTreeMap P (List (K × V))} {mine : P → Bool} {e : K × V} :
    e ∈ entries t mine ↔ ∃ p es, mine p ∧ t[p]? = some es ∧ e ∈ es := by
  simp only [entries, List.mem_flatMap, List.mem_filter, Prod.exists,
    Std.ExtTreeMap.mem_toList_iff_getElem?_eq_some]
  constructor
  · rintro ⟨p, es, ⟨ht, hmine⟩, he⟩
    exact ⟨p, es, hmine, ht, he⟩
  · rintro ⟨p, es, hmine, ht, he⟩
    exact ⟨p, es, ⟨ht, hmine⟩, he⟩

variable [DecidableEq P]

theorem getElem?_append (t : Std.ExtTreeMap P (List (K × V))) (p q : P) (es : List (K × V)) :
    (append t p es)[q]? = if p = q then some (t[p]?.getD [] ++ es) else t[q]? := by
  rw [append, Std.ExtTreeMap.getElem?_insert]
  simp only [Std.compare_eq_iff_eq]

theorem mem_entries_append {t : Std.ExtTreeMap P (List (K × V))} {mine : P → Bool} {p : P} (hp : mine p)
    {es : List (K × V)} {e : K × V} : e ∈ entries (append t p es) mine ↔ e ∈ entries t mine ∨ e ∈ es := by
  simp only [mem_entries, getElem?_append]
  constructor
  · rintro ⟨q, fs, hq, ht, he⟩
    split at ht
    · cases ht
      rcases List.mem_append.1 he with he | he
      · cases htp : t[p]? with
        | none => rw [htp] at he; cases he
        | some gs => rw [htp] at he; exact .inl ⟨p, gs, hp, htp, he⟩
      · exact .inr he
    · exact .inl ⟨q, fs, hq, ht, he⟩
  · rintro (⟨q, fs, hq, ht, he⟩ | he)
    · by_cases hpq : p = q
      · subst q
        exact ⟨p, t[p]?.getD [] ++ es, hp, if_pos rfl, List.mem_append_left _ (by rw [ht]; exact he)⟩
      · exact ⟨q, fs, hq, by rw [if_neg hpq]; exact ht, he⟩
    · exact ⟨p, t[p]?.getD [] ++ es, hp, if_pos rfl, List.mem_append_right _ he⟩

variable [Ord K] [Std.TransOrd K]

/-- The packs of an owner hold exactly the entries of a map. -/
def Holds (t : Std.ExtTreeMap P (List (K × V))) (mine : P → Bool) (m : Std.ExtTreeMap K V) : Prop :=
  ∀ k v, m[k]? = some v ↔ (k, v) ∈ entries t mine

/-- Entries that are appended to a pack are entries of the map. -/
theorem Holds.append {t : Std.ExtTreeMap P (List (K × V))} {mine : P → Bool} {m m' : Std.ExtTreeMap K V}
    (h : Holds t mine m) {p : P} (hp : mine p) {es : List (K × V)}
    (hm : ∀ k v, m'[k]? = some v ↔ m[k]? = some v ∨ (k, v) ∈ es) : Holds (append t p es) mine m' := by
  intro k v
  rw [hm, h k v, mem_entries_append hp]

/-- A new key is written with its entry. -/
theorem Holds.insert [Std.LawfulEqOrd K] [DecidableEq K] {t : Std.ExtTreeMap P (List (K × V))} {mine : P → Bool}
    {m : Std.ExtTreeMap K V} (h : Holds t mine m) {p : P} (hp : mine p) {k : K} {v : V} (hk : k ∉ m) :
    Holds (PackedMap.append t p [(k, v)]) mine (m.insert k v) := by
  refine h.append hp fun a b => ?_
  rw [getElem?_insert, List.mem_singleton, Prod.mk.injEq]
  split
  · rename_i heq
    subst heq
    rw [Std.ExtTreeMap.getElem?_eq_none hk, Option.some.injEq]
    exact ⟨fun h => .inr ⟨rfl, h.symm⟩, fun h => (h.resolve_left nofun).2.symm⟩
  · rename_i hne
    exact ⟨.inl, fun h => h.resolve_right fun h => hne h.1.symm⟩

omit [Std.LawfulEqOrd P] [DecidableEq P] in
theorem Holds.load [Std.LawfulEqOrd K] [DecidableEq K] {t : Std.ExtTreeMap P (List (K × V))} {mine : P → Bool}
    {m : Std.ExtTreeMap K V} (h : Holds t mine m) : insertAll ∅ (entries t mine) = m := insertAll_eq h

end PackedMap
