import Mathlib.Data.List.Chain
import Mathlib.Data.List.Nodup
import Mathlib.Order.Lattice
import Mathlib.Logic.Function.Basic
import Mathlib.Logic.Relation

/-!
# Doubly linked chains

A tree of nodes that know their parents and their heights, and one chain of it, listed from its tip back to its
rear, whose nodes also know which node of the chain comes after them. A walk along the links to a given height
ends at the node of the chain that has this height.
-/

namespace LinkedChain

variable {K : Type}

/-! ## The links of a chain -/

section Successor

variable [DecidableEq K]

/-- The link forward that a chain gives to a node. -/
def successor : List K → K → Option K
  | a :: b :: rest, k => if k = b then some a else successor (b :: rest) k
  | _, _ => none

theorem successor_cons (a b : K) (rest : List K) :
    successor (a :: b :: rest) = Function.update (successor (b :: rest)) b (some a) := by
  funext k
  rw [successor, Function.update_apply]

theorem successor_of_notMem {l : List K} {k : K} (h : k ∉ l.tail) : successor l k = none := by
  induction l with
  | nil => rfl
  | cons a l ih =>
      cases l with
      | nil => rfl
      | cons b rest =>
          have hb : k ≠ b := fun hk => h (hk ▸ List.mem_cons_self)
          have hrest : k ∉ rest := fun hk => h (List.mem_cons_of_mem b hk)
          rw [successor, if_neg hb]
          exact ih hrest

theorem successor_mem {l : List K} {k a : K} (h : successor l k = some a) : a ∈ l ∧ k ∈ l.tail := by
  induction l with
  | nil => cases h
  | cons c l ih =>
      cases l with
      | nil => cases h
      | cons b rest =>
          rw [successor] at h
          split_ifs at h with hk
          · cases h
            exact ⟨List.mem_cons_self, hk ▸ List.mem_cons_self⟩
          · obtain ⟨ha, hk⟩ := ih h
            exact ⟨List.mem_cons_of_mem c ha, List.mem_cons_of_mem b hk⟩

/-- The tip is taken off. -/
theorem successor_unlink {a b : K} {rest : List K} (h : (b :: rest).Nodup) :
    Function.update (successor (a :: b :: rest)) b none = successor (b :: rest) := by
  rw [successor_cons, Function.update_idem, Function.update_eq_self_iff]
  exact (successor_of_notMem (List.nodup_cons.mp h).1).symm

/-- The rear is taken off. -/
theorem successor_dropLast {l : List K} {rear : K} (h : (l ++ [rear]).Nodup) :
    Function.update (successor (l ++ [rear])) rear none = successor l := by
  induction l with
  | nil =>
      funext k
      rw [Function.update_apply]
      split_ifs <;> rfl
  | cons a l ih =>
      cases l with
      | nil => exact successor_unlink (List.nodup_singleton rear)
      | cons b l =>
          have hne : rear ≠ b := by
            rintro rfl
            simp at h
          have hrest := ih (List.nodup_cons.mp h).2
          rw [List.cons_append] at hrest
          rw [List.cons_append, List.cons_append, successor_cons, successor_cons,
            Function.update_comm hne.symm, hrest]

theorem successor_rear {l : List K} {b rear : K} (h : (l ++ [b] ++ [rear]).Nodup) :
    successor (l ++ [b] ++ [rear]) rear = some b := by
  induction l with
  | nil => exact if_pos rfl
  | cons a l ih =>
      have hrest := ih (List.nodup_cons.mp h).2
      cases l with
      | nil =>
          have hne : rear ≠ b := by
            rintro rfl
            simp at h
          exact (if_neg hne).trans hrest
      | cons c l =>
          have hne : rear ≠ c := by
            rintro rfl
            simp at h
          exact (if_neg hne).trans hrest

end Successor

/-! ## Walks -/

/-- What a walk reads of a node. -/
structure Node (K : Type) where
  prev : Option K
  next : Option K
  height : Int

/-- `while (height > h && prev) p = prev`; `none` when a node is gone, or when the rounds do not suffice. -/
def back (node : K → Option (Node K)) (h : Int) : Nat → K → Option K
  | fuel, p =>
      match node p with
      | none => none
      | some e =>
          match e.prev with
          | none => some p
          | some q =>
              if h < e.height then
                match fuel with
                | 0 => none
                | fuel + 1 => back node h fuel q
              else some p

/-- `while (height < h && next) p = next`. -/
def forth (node : K → Option (Node K)) (h : Int) : Nat → K → Option K
  | fuel, p =>
      match node p with
      | none => none
      | some e =>
          match e.next with
          | none => some p
          | some q =>
              if e.height < h then
                match fuel with
                | 0 => none
                | fuel + 1 => forth node h fuel q
              else some p

/-- Back, then forth, and the node if it has the height. -/
def find (node : K → Option (Node K)) (h : Int) (fuel : Nat) (p : K) : Option (Option K) :=
  match back node h fuel p with
  | none => none
  | some q =>
      match forth node h fuel q with
      | none => none
      | some r =>
          match node r with
          | none => none
          | some e => some (if e.height = h then some r else none)

/-- `p` comes right above `q`. -/
def Above (node : K → Option (Node K)) (p q : K) : Prop :=
  ∃ e e', node p = some e ∧ e.prev = some q ∧ node q = some e' ∧ e.height = e'.height + 1

/-- The links back that there are raise the height by one. -/
def Graded (node : K → Option (Node K)) : Prop :=
  ∀ p q e e', node p = some e → e.prev = some q → node q = some e' → e.height = e'.height + 1

def HasHeight (node : K → Option (Node K)) (h : Int) (p : K) : Prop :=
  ∃ e, node p = some e ∧ e.height = h

section Walks

variable {node : K → Option (Node K)} {l : List K} {p q : K} {h h' : Int} {fuel : Nat}

theorem HasHeight.eq (hp : HasHeight node h p) (hp' : HasHeight node h' p) : h = h' := by
  obtain ⟨e, he, rfl⟩ := hp
  obtain ⟨e', he', rfl⟩ := hp'
  rw [he] at he'
  exact congrArg Node.height (Option.some.inj he')

theorem Above.height (hpq : Above node p q) (hp : HasHeight node h p) : HasHeight node (h - 1) q := by
  obtain ⟨e, e', he, -, he', hheight⟩ := hpq
  obtain ⟨d, hd, rfl⟩ := hp
  rw [he] at hd
  cases hd
  exact ⟨e', he', by omega⟩

/-- The heights along a chain are not above the one it starts with. -/
theorem height_le_of_mem (hl : (p :: l).IsChain (Above node)) (hp : HasHeight node h p)
    (hq : q ∈ l) (hqh : HasHeight node h' q) : h' < h := by
  induction l generalizing p h with
  | nil => cases hq
  | cons a l ih =>
      obtain ⟨hpa, hrest⟩ := List.isChain_cons_cons.mp hl
      have ha := hpa.height hp
      rcases List.mem_cons.mp hq with rfl | hq
      · have := ha.eq hqh
        omega
      · have := ih hrest ha hq
        omega

/-- One node of a chain at most has a given height. -/
theorem eq_of_height_eq (hl : l.IsChain (Above node)) (hp : p ∈ l) (hq : q ∈ l)
    (hph : HasHeight node h p) (hqh : HasHeight node h q) : p = q := by
  induction l with
  | nil => cases hp
  | cons a l ih =>
      have htail : l.IsChain (Above node) := hl.tail
      rcases List.mem_cons.mp hp with rfl | hp'
      · rcases List.mem_cons.mp hq with rfl | hq
        · rfl
        · exact absurd (height_le_of_mem hl hph hq hqh) (lt_irrefl h)
      · rcases List.mem_cons.mp hq with rfl | hq
        · exact absurd (height_le_of_mem hl hqh hp' hph) (lt_irrefl h)
        · exact ih htail hp' hq

theorem nodup_of_isChain (hl : l.IsChain (Above node)) (hhas : ∀ p ∈ l, ∃ h, HasHeight node h p) : l.Nodup := by
  induction l with
  | nil => exact List.nodup_nil
  | cons a l ih =>
      refine List.nodup_cons.mpr ⟨fun ha => ?_, ih hl.tail fun p hp => hhas p (List.mem_cons_of_mem a hp)⟩
      obtain ⟨h, hah⟩ := hhas a List.mem_cons_self
      exact absurd (height_le_of_mem hl hah ha hah) (lt_irrefl h)

theorem height_sub_le (hl : (p :: l).IsChain (Above node)) (hp : HasHeight node h p) (hq : q ∈ p :: l)
    (hqh : HasHeight node h' q) : (h - h').toNat ≤ l.length := by
  induction l generalizing p h with
  | nil =>
      cases List.mem_singleton.mp hq
      have := hp.eq hqh
      omega
  | cons a l ih =>
      obtain ⟨hpa, hrest⟩ := List.isChain_cons_cons.mp hl
      rw [List.length_cons]
      rcases List.mem_cons.mp hq with rfl | hq
      · have := hp.eq hqh
        omega
      · have := ih hrest (hpa.height hp) hq
        omega

/-- Every height from the rear to the tip is the height of a node of the chain. -/
theorem exists_of_height (hl : (p :: l).IsChain (Above node)) (hp : HasHeight node h' p)
    (hrear : ∃ q ∈ p :: l, ∃ r, HasHeight node r q ∧ r ≤ h) (hle : h ≤ h') :
    ∃ q ∈ p :: l, HasHeight node h q := by
  induction l generalizing p h' with
  | nil =>
      obtain ⟨q, hq, r, hr, hrh⟩ := hrear
      obtain rfl := List.mem_singleton.mp hq
      have := hr.eq hp
      exact ⟨q, List.mem_cons_self, by rwa [show h = h' by omega]⟩
  | cons a l ih =>
      rcases Decidable.em (h = h') with rfl | hne
      · exact ⟨p, List.mem_cons_self, hp⟩
      · obtain ⟨hpa, hrest⟩ := List.isChain_cons_cons.mp hl
        obtain ⟨q, hq, r, hr, hrh⟩ := hrear
        rcases List.mem_cons.mp hq with rfl | hq
        · have := hr.eq hp
          omega
        · obtain ⟨s, hs, hsh⟩ := ih hrest (hpa.height hp) ⟨q, hq, r, hr, hrh⟩ (by omega)
          exact ⟨s, List.mem_cons_of_mem p hs, hsh⟩

/-! ### Back -/

theorem back_of_le (hp : HasHeight node h' p) (hle : h' ≤ h) : back node h fuel p = some p := by
  obtain ⟨e, he, rfl⟩ := hp
  rw [back]
  simp only [he]
  cases e.prev with
  | none => rfl
  | some q => exact if_neg (not_lt.mpr hle)

/-- Back along a chain to a height that the chain reaches. -/
theorem back_eq (hl : (p :: l).IsChain (Above node)) (hq : q ∈ p :: l) (hqh : HasHeight node h q)
    (hp : HasHeight node h' p) (hfuel : l.length ≤ fuel) : back node h fuel p = some q := by
  induction l generalizing p h' fuel with
  | nil =>
      cases List.mem_singleton.mp hq
      exact back_of_le hqh le_rfl
  | cons a l ih =>
      rcases List.mem_cons.mp hq with rfl | hq
      · exact back_of_le hqh le_rfl
      · obtain ⟨hpa, hrest⟩ := List.isChain_cons_cons.mp hl
        have hlt := height_le_of_mem hl hp hq hqh
        have ha := hpa.height hp
        obtain ⟨e, e', he, hprev, -⟩ := hpa
        obtain ⟨d, hd, rfl⟩ := hp
        rw [he] at hd
        cases hd
        rw [back]
        simp only [he, hprev, if_pos hlt]
        cases fuel with
        | zero => simp at hfuel
        | succ fuel => exact ih hrest hq ha (by simpa using hfuel)

/-- What is found by going back is an ancestor, and not lower than the height. -/
theorem back_spec (hgraded : Graded node) (hp : HasHeight node h' p) (hr : back node h fuel p = some q) :
    ∃ r, HasHeight node r q ∧ Relation.ReflTransGen (Above node) p q ∧ (h ≤ h' → h ≤ r) ∧
      (h' ≤ h → q = p) := by
  induction fuel generalizing p h' with
  | zero =>
      obtain ⟨e, he, rfl⟩ := hp
      rw [back] at hr
      simp only [he] at hr
      have hq : q = p := by
        cases hprev : e.prev with
        | none =>
            rw [hprev] at hr
            exact (Option.some.inj hr).symm
        | some a =>
            rw [hprev] at hr
            dsimp only at hr
            split_ifs at hr
            exact (Option.some.inj hr).symm
      subst hq
      exact ⟨e.height, ⟨e, he, rfl⟩, .refl, id, fun _ => rfl⟩
  | succ fuel ih =>
      obtain ⟨e, he, rfl⟩ := hp
      rw [back] at hr
      simp only [he] at hr
      cases hprev : e.prev with
      | none =>
          rw [hprev] at hr
          cases hr
          exact ⟨e.height, ⟨e, he, rfl⟩, .refl, id, fun _ => rfl⟩
      | some a =>
          rw [hprev] at hr
          dsimp only at hr
          split_ifs at hr with hlt
          · cases ha : node a with
            | none =>
                unfold back at hr
                simp [ha] at hr
            | some e' =>
                have hheight := hgraded p a e e' he hprev ha
                obtain ⟨r, hq, hpath, hle, -⟩ := ih ⟨e', ha, rfl⟩ hr
                exact ⟨r, hq, .head ⟨e, e', he, hprev, ha, hheight⟩ hpath, fun _ => hle (by omega),
                  fun _ => by omega⟩
          · cases hr
            exact ⟨e.height, ⟨e, he, rfl⟩, .refl, id, fun _ => rfl⟩

theorem back_alive (hr : back node h fuel p = some q) : ∃ e, node p = some e := by
  unfold back at hr
  cases he : node p with
  | none => simp [he] at hr
  | some e => exact ⟨e, rfl⟩

/-- Back never leaves what the links back stay in. -/
theorem back_mem (hprev : ∀ p ∈ l, ∀ e, node p = some e → ∀ q, e.prev = some q → q ∈ l) (hp : p ∈ l)
    (hr : back node h fuel p = some q) : q ∈ l := by
  fun_induction back node h fuel p with
  | case1 => cases hr
  | case2 =>
      cases hr
      exact hp
  | case3 => cases hr
  | case4 p e he a hprev' hlt fuel ih => exact ih (hprev p hp e he a hprev') hr
  | case5 =>
      cases hr
      exact hp

/-! ### Forth -/

theorem forth_of_le (hp : HasHeight node h' p) (hle : h ≤ h') : forth node h fuel p = some p := by
  obtain ⟨e, he, rfl⟩ := hp
  rw [forth]
  simp only [he]
  cases e.next with
  | none => rfl
  | some q => exact if_neg (not_lt.mpr hle)

theorem forth_of_next_none {e : Node K} (he : node p = some e) (hnext : e.next = none) :
    forth node h fuel p = some p := by
  rw [forth]
  simp only [he, hnext]

theorem find_alive {s : K} (hfind : find node h fuel q = some (some s)) : ∃ e, node q = some e := by
  rw [find] at hfind
  cases hback : back node h fuel q with
  | none => simp [hback] at hfind
  | some a => exact back_alive hback

variable [DecidableEq K]

/-- The links forward are those of the chain. -/
def Linked (node : K → Option (Node K)) (l : List K) : Prop :=
  ∀ p e, node p = some e → e.next = successor l p

theorem exists_successor (hl : (p :: l).IsChain (Above node)) (hp : HasHeight node h' p)
    (hq : q ∈ p :: l) (hqh : HasHeight node h q) (hlt : h < h') :
    ∃ r ∈ p :: l, successor (p :: l) q = some r ∧ HasHeight node (h + 1) r := by
  induction l generalizing p h' with
  | nil =>
      cases List.mem_singleton.mp hq
      have := hp.eq hqh
      omega
  | cons a l ih =>
      obtain ⟨hpa, hrest⟩ := List.isChain_cons_cons.mp hl
      have ha := hpa.height hp
      rw [successor]
      split_ifs with hqa
      · subst hqa
        have := ha.eq hqh
        refine ⟨p, List.mem_cons_self, rfl, ?_⟩
        rwa [show h + 1 = h' by omega]
      · rcases List.mem_cons.mp hq with rfl | hq
        · have := hp.eq hqh
          omega
        · rcases List.mem_cons.mp hq with rfl | hq'
          · exact absurd rfl hqa
          · have hlow := height_le_of_mem hrest ha hq' hqh
            obtain ⟨r, hr, hsucc, hrh⟩ := ih hrest ha hq hlow
            exact ⟨r, List.mem_cons_of_mem p hr, hsucc, hrh⟩

/-- Forth along a chain to a height that the chain reaches. -/
theorem forth_eq (hl : (p :: l).IsChain (Above node)) (hlinked : Linked node (p :: l))
    (hp : HasHeight node h' p) (hle : h ≤ h') {r : Int} (hq : q ∈ p :: l) (hqh : HasHeight node r q)
    (hr : r ≤ h) (hfuel : (h - r).toNat ≤ fuel) :
    ∃ s ∈ p :: l, forth node h fuel q = some s ∧ HasHeight node h s := by
  induction fuel generalizing q r with
  | zero =>
      have hrh : r = h := by omega
      subst hrh
      exact ⟨q, hq, forth_of_le hqh le_rfl, hqh⟩
  | succ fuel ih =>
      rcases Decidable.em (r = h) with rfl | hne
      · exact ⟨q, hq, forth_of_le hqh le_rfl, hqh⟩
      · obtain ⟨a, ha, hsucc, hah⟩ := exists_successor hl hp hq hqh (by omega)
        obtain ⟨s, hs, hforth, hsh⟩ := ih ha hah (by omega) (by omega)
        refine ⟨s, hs, ?_, hsh⟩
        obtain ⟨e, he, rfl⟩ := hqh
        have hnext := hlinked q e he
        rw [forth]
        simp only [he, hnext, hsucc, if_pos (show e.height < h by omega)]
        exact hforth

/-- Forth from a chain never leaves it. -/
theorem forth_mem (hlinked : Linked node l) (hq : q ∈ l) (hr : forth node h fuel q = some p) : p ∈ l := by
  induction fuel generalizing q with
  | zero =>
      rw [forth] at hr
      cases he : node q with
      | none => simp [he] at hr
      | some e =>
          simp only [he] at hr
          cases hnext : e.next with
          | none =>
              rw [hnext] at hr
              cases hr
              exact hq
          | some a =>
              rw [hnext] at hr
              dsimp only at hr
              split_ifs at hr
              cases hr
              exact hq
  | succ fuel ih =>
      rw [forth] at hr
      cases he : node q with
      | none => simp [he] at hr
      | some e =>
          simp only [he] at hr
          cases hnext : e.next with
          | none =>
              rw [hnext] at hr
              cases hr
              exact hq
          | some a =>
              rw [hnext] at hr
              dsimp only at hr
              split_ifs at hr
              · rw [hlinked q e he] at hnext
                exact ih (successor_mem hnext).1 hr
              · cases hr
                exact hq

/-! ### Both ways -/

theorem find_mem {s : K} (hlinked : Linked node l)
    (hprev : ∀ p ∈ l, ∀ e, node p = some e → ∀ q, e.prev = some q → q ∈ l) (hq : q ∈ l)
    (hfind : find node h fuel q = some (some s)) : s ∈ l := by
  rw [find] at hfind
  cases hback : back node h fuel q with
  | none => simp [hback] at hfind
  | some a =>
      simp only [hback] at hfind
      cases hforth : forth node h fuel a with
      | none => simp [hforth] at hfind
      | some b =>
          simp only [hforth] at hfind
          cases hb : node b with
          | none => simp [hb] at hfind
          | some e =>
              simp only [hb, Option.some.injEq] at hfind
              split_ifs at hfind
              cases hfind
              exact forth_mem hlinked (back_mem hprev hq hback) hforth

/-- From a node that has an ancestor in the chain, at its own height or at the height that is looked for, the walk
finds the node of the chain. -/
theorem find_eq {a : K} {rest : List K} (hl : (p :: l).IsChain (Above node)) (hlinked : Linked node (p :: l))
    (hp : HasHeight node h' p) (hle : h ≤ h') {r : Int} (hpath : (q :: rest).IsChain (Above node))
    (hq : HasHeight node r q) (ha : a ∈ q :: rest) (hal : a ∈ p :: l) (hah : HasHeight node (min h r) a)
    (hback : rest.length ≤ fuel) (hforth : (h - r).toNat ≤ fuel) :
    ∃ s ∈ p :: l, find node h fuel q = some (some s) ∧ HasHeight node h s := by
  have hbackTo : back node h fuel q = some a := by
    rcases le_total h r with hhr | hrh
    · rw [min_eq_left hhr] at hah
      exact back_eq hpath ha hah hq hback
    · rw [min_eq_right hrh] at hah
      cases eq_of_height_eq hpath ha List.mem_cons_self hah hq
      exact back_of_le hq hrh
  obtain ⟨s, hs, hforthTo, hsh⟩ := forth_eq hl hlinked hp hle hal hah (min_le_left h r)
    (show (h - min h r).toNat ≤ fuel by omega)
  refine ⟨s, hs, ?_, hsh⟩
  obtain ⟨e, he, hheight⟩ := hsh
  rw [find]
  simp only [hbackTo, hforthTo, he, if_pos hheight]

/-- From a node of a chain that reaches down to the height, the walk finds the node that has it. -/
theorem find_of_mem {above below : List K} (hl : (p :: l).IsChain (Above node)) (hlinked : Linked node (p :: l))
    (hp : HasHeight node h' p) (hle : h ≤ h') {r : Int} (hsplit : p :: l = above ++ q :: below)
    (hq : HasHeight node r q) (hrear : ∃ s ∈ q :: below, ∃ t, HasHeight node t s ∧ t ≤ h)
    (hback : below.length ≤ fuel) (hforth : (h - r).toNat ≤ fuel) :
    ∃ s ∈ p :: l, find node h fuel q = some (some s) ∧ HasHeight node h s := by
  have hpath : (q :: below).IsChain (Above node) := by
    rw [hsplit] at hl
    exact hl.right_of_append
  obtain ⟨a, ha, hah⟩ : ∃ a ∈ q :: below, HasHeight node (min h r) a := by
    rcases le_total h r with hhr | hrh
    · rw [min_eq_left hhr]
      exact exists_of_height hpath hq hrear hhr
    · rw [min_eq_right hrh]
      exact ⟨q, List.mem_cons_self, hq⟩
  have hal : a ∈ p :: l := hsplit ▸ List.mem_append_right above ha
  exact find_eq hl hlinked hp hle hpath hq ha hal hah hback hforth

/-- If the walk finds a node of the chain, it has met the chain at its start or at that height. -/
theorem find_ancestor (hgraded : Graded node) (hlinked : Linked node l) {r : Int} {s : K}
    (hq : HasHeight node r q) (hs : s ∈ l) (hfind : find node h fuel q = some (some s)) :
    ∃ a ∈ l, HasHeight node (min h r) a ∧ Relation.ReflTransGen (Above node) q a := by
  rw [find] at hfind
  cases hback : back node h fuel q with
  | none => simp [hback] at hfind
  | some a =>
      obtain ⟨t, hat, hpath, habove, hbelow⟩ := back_spec hgraded hq hback
      simp only [hback] at hfind
      cases hforth : forth node h fuel a with
      | none => simp [hforth] at hfind
      | some b =>
          simp only [hforth] at hfind
          cases hb : node b with
          | none => simp [hb] at hfind
          | some e =>
              simp only [hb, Option.some.injEq] at hfind
              split_ifs at hfind with hheight
              cases hfind
              rcases le_total h r with hhr | hrh
              · -- The walk back has ended at the height or above it, so that the walk forth stays.
                rw [forth_of_le hat (habove hhr)] at hforth
                cases hforth
                rw [min_eq_left hhr]
                exact ⟨s, hs, ⟨e, hb, hheight⟩, hpath⟩
              · obtain rfl := hbelow hrh
                rw [min_eq_right hrh]
                refine ⟨a, ?_, hq, hpath⟩
                obtain ⟨d, hd, rfl⟩ := hq
                cases hnext : d.next with
                | none =>
                    rw [forth_of_next_none hd hnext] at hforth
                    cases hforth
                    exact hs
                | some c =>
                    rw [hlinked a d hd] at hnext
                    exact List.mem_of_mem_tail (successor_mem hnext).2

end Walks

end LinkedChain
