import Mathlib.Data.List.Basic
import Mathlib.Logic.Function.Basic

/-!
# Trees of parents

A tree whose nodes are filed under their keys. A node is given by its chain: the list of the elements from it
back to the root. Chains of one tree that start with the same key are the same chain.
-/

namespace ParentTree

variable {K A : Type} {key : A → K}

/-- The nodes of a tree under their keys. With a node the tree has its parent. -/
structure Tree (key : A → K) where
  lookup : K → Option (List A)
  head : ∀ k c, lookup k = some c → ∃ a rest, c = a :: rest ∧ key a = k
  parent : ∀ k a b rest, lookup k = some (a :: b :: rest) → lookup (key b) = some (b :: rest)

namespace Tree

def Has (tree : Tree key) (c : List A) : Prop := ∃ k, tree.lookup k = some c

variable {tree : Tree key}

theorem Has.lookup_head {a : A} {rest : List A} (h : tree.Has (a :: rest)) :
    tree.lookup (key a) = some (a :: rest) := by
  obtain ⟨k, hk⟩ := h
  obtain ⟨a', rest', heq, hkey⟩ := tree.head k _ hk
  cases heq
  rw [hkey]
  exact hk

theorem Has.ne_nil {c : List A} (h : tree.Has c) : c ≠ [] := by
  obtain ⟨k, hk⟩ := h
  obtain ⟨a, rest, rfl, -⟩ := tree.head k c hk
  exact List.cons_ne_nil a rest

theorem Has.tail {a b : A} {rest : List A} (h : tree.Has (a :: b :: rest)) : tree.Has (b :: rest) := by
  obtain ⟨k, hk⟩ := h
  exact ⟨key b, tree.parent k a b rest hk⟩

theorem Has.suffix {c s : List A} (h : tree.Has c) (hs : s <:+ c) (hne : s ≠ []) : tree.Has s := by
  induction c with
  | nil => exact absurd (List.suffix_nil.mp hs) hne
  | cons a rest ih =>
      rcases List.suffix_cons_iff.mp hs with rfl | hrest
      · exact h
      · cases rest with
        | nil => exact absurd (List.suffix_nil.mp hrest) hne
        | cons b rest => exact ih h.tail hrest

theorem Has.eq_of_key_eq {a b : A} {rest rest' : List A} (ha : tree.Has (a :: rest))
    (hb : tree.Has (b :: rest')) (hkey : key a = key b) : a :: rest = b :: rest' := by
  have hlookup := ha.lookup_head
  rw [hkey, hb.lookup_head] at hlookup
  exact (Option.some.inj hlookup).symm

/-- A node's key is not the key of a node before it. -/
theorem Has.key_ne {a b : A} {rest : List A} (h : tree.Has (a :: rest)) (hb : b ∈ rest) :
    key b ≠ key a := by
  intro hkey
  obtain ⟨s, t, rfl⟩ := List.append_of_mem hb
  have hsuffix : b :: t <:+ a :: (s ++ b :: t) := ⟨a :: s, rfl⟩
  have heq := (h.suffix hsuffix (List.cons_ne_nil b t)).eq_of_key_eq h hkey
  have hlength := congrArg List.length heq
  simp at hlength
  omega

theorem Has.nodup {c : List A} (h : tree.Has c) : (c.map key).Nodup := by
  induction c with
  | nil => exact List.nodup_nil
  | cons a rest ih =>
      rw [List.map_cons, List.nodup_cons]
      constructor
      · intro hmem
        obtain ⟨b, hb, hkey⟩ := List.mem_map.mp hmem
        exact h.key_ne hb hkey
      · cases rest with
        | nil => exact List.nodup_nil
        | cons b rest => exact ih h.tail

/-- The keys above a node of a chain are none of the keys from that node on. -/
theorem Has.key_ne_of_append {s t : List A} {a b : A} (h : tree.Has (s ++ t)) (ha : a ∈ s)
    (hb : b ∈ t) : key b ≠ key a := by
  obtain ⟨u, v, rfl⟩ := List.append_of_mem ha
  have hsuffix : a :: (v ++ t) <:+ u ++ a :: v ++ t := ⟨u, by simp⟩
  exact (h.suffix hsuffix (List.cons_ne_nil a _)).key_ne (List.mem_append_right v hb)

/-! ## New nodes -/

/-- A tree with a new node, which is a root or whose parent the tree has. -/
def insert [DecidableEq K] (tree : Tree key) (a : A) (rest : List A) (fresh : tree.lookup (key a) = none)
    (hrest : rest = [] ∨ tree.Has rest) : Tree key where
  lookup := Function.update tree.lookup (key a) (some (a :: rest))
  head k c h := by
    rw [Function.update_apply] at h
    split at h
    · rename_i hkey
      cases h
      exact ⟨a, rest, rfl, hkey.symm⟩
    · exact tree.head k c h
  parent k a' b rest' h := by
    have hother : tree.lookup (key b) = some (b :: rest') →
        Function.update tree.lookup (key a) (some (a :: rest)) (key b) = some (b :: rest') := by
      intro hb
      rw [Function.update_of_ne]
      · exact hb
      · intro hkey
        rw [hkey, fresh] at hb
        cases hb
    rw [Function.update_apply] at h
    split at h
    · cases h
      rcases hrest with hnil | hhas
      · cases hnil
      · exact hother hhas.lookup_head
    · exact hother (tree.parent k a' b rest' h)

/-! ## Other elements -/

/-- The tree with each element replaced by one under the same key. -/
def map {B : Type} {key' : B → K} (tree : Tree key) (f : A → B) (hkey : ∀ a, key' (f a) = key a) : Tree key' where
  lookup k := (tree.lookup k).map (List.map f)
  head k c h := by
    obtain ⟨c, hc, rfl⟩ := Option.map_eq_some_iff.mp h
    obtain ⟨a, rest, rfl, rfl⟩ := tree.head k c hc
    exact ⟨f a, rest.map f, rfl, hkey a⟩
  parent k a b rest h := by
    obtain ⟨c, hc, hmap⟩ := Option.map_eq_some_iff.mp h
    match c, hmap with
    | a' :: b' :: rest', hmap =>
        cases hmap
        rw [hkey, tree.parent k a' b' rest' hc]
        rfl

end Tree

end ParentTree
