import Mathlib.Algebra.BigOperators.Group.List.Basic
import Mathlib.Algebra.GroupWithZero.Nat
import Mathlib.Algebra.Ring.Int.Defs

/-!
# Odometers over falling lists

A falling list of numbers below a bound stands for a set of that size. The odometer steps through these lists; the
last place counts most. It stops after finitely many steps, and of two lists that it can reach it does not miss the
later one.
-/

namespace Odometer

/-- Every number is below the one before it, and the first is below the bound. -/
def Below : Nat → List Nat → Prop
  | _, [] => True
  | b, a :: rest => a < b ∧ Below a rest

/-- The first place that is under its limit moves up, and those before it start right above it. -/
def next : Nat → List Nat → Option (List Nat)
  | _, [] => none
  | b, a :: rest =>
      if a < b then some ((a + 1) :: rest)
      else
        match next (b - 1) rest with
        | none => none
        | some rest' => some ((rest'.headD 0 + 1) :: rest')

/-- The order in which the odometer visits lists of one length. -/
def Before : List Nat → List Nat → Prop
  | a :: x, b :: t => Before x t ∨ (x = t ∧ a < b)
  | _, _ => False

/-- What the odometer still has to turn, at most. -/
def weight (l : Nat) (x : List Nat) : Nat := (x.map fun a => 2 ^ (l - a)).sum

/-! ## Falling lists -/

theorem Below.mono {b c : Nat} {x : List Nat} (h : Below b x) (hle : b ≤ c) : Below c x := by
  cases x with
  | nil => trivial
  | cons a rest => exact ⟨Nat.lt_of_lt_of_le h.1 hle, h.2⟩

theorem Below.lt_of_mem {b : Nat} {x : List Nat} (h : Below b x) : ∀ a ∈ x, a < b := by
  induction x generalizing b with
  | nil => simp
  | cons a rest ih =>
      intro c hc
      rcases List.mem_cons.1 hc with rfl | hc
      · exact h.1
      · exact Nat.lt_trans (ih h.2 c hc) h.1

theorem Below.nodup {b : Nat} {x : List Nat} (h : Below b x) : x.Nodup := by
  induction x generalizing b with
  | nil => exact List.nodup_nil
  | cons a rest ih =>
      refine List.nodup_cons.2 ⟨?_, ih h.2⟩
      intro hmem
      exact Nat.lt_irrefl a (h.2.lt_of_mem a hmem)

theorem eq_nil_of_below_zero {x : List Nat} (h : Below 0 x) : x = [] := by
  cases x with
  | nil => rfl
  | cons a rest => exact absurd h.1 (Nat.not_lt_zero a)

/-! ## Steps -/

/-- A step moves the first place, or it carries into the rest. -/
theorem next_cases {b a : Nat} {rest x' : List Nat} (h : next b (a :: rest) = some x') :
    (a < b ∧ x' = (a + 1) :: rest) ∨
    (b ≤ a ∧ ∃ c t, next (b - 1) rest = some (c :: t) ∧ x' = (c + 1) :: c :: t) := by
  rw [next] at h
  by_cases hlt : a < b
  · rw [if_pos hlt] at h
    exact Or.inl ⟨hlt, (Option.some.inj h).symm⟩
  · rw [if_neg hlt] at h
    cases hrest : next (b - 1) rest with
    | none =>
        rw [hrest] at h
        cases h
    | some rest' =>
        rw [hrest] at h
        cases rest' with
        | nil =>
            cases rest with
            | nil => cases hrest
            | cons d u =>
                rw [next] at hrest
                split_ifs at hrest
                · cases hrest
                · cases hu : next (b - 1 - 1) u with
                  | none =>
                      rw [hu] at hrest
                      cases hrest
                  | some u' =>
                      rw [hu] at hrest
                      cases hrest
        | cons c t => exact Or.inr ⟨Nat.le_of_not_lt hlt, c, t, rfl, (Option.some.inj h).symm⟩

theorem next_below {b : Nat} {x x' : List Nat} (h : Below (b + 1) x) (hnext : next b x = some x') :
    Below (b + 1) x' ∧ x'.length = x.length := by
  induction x generalizing b x' with
  | nil => cases hnext
  | cons a rest ih =>
      rcases next_cases hnext with ⟨hlt, rfl⟩ | ⟨hge, c, t, hrest, rfl⟩
      · exact ⟨⟨Nat.succ_lt_succ hlt, h.2.mono (Nat.le_succ a)⟩, rfl⟩
      · have hb : Below b rest := h.2.mono (Nat.le_of_lt_succ h.1)
        cases b with
        | zero =>
            rw [eq_nil_of_below_zero hb] at hrest
            cases hrest
        | succ b =>
            obtain ⟨hbelow, hlength⟩ := ih hb hrest
            refine ⟨⟨Nat.succ_lt_succ hbelow.1, Nat.lt_succ_self c, hbelow.2⟩, ?_⟩
            rw [List.length_cons, hlength, List.length_cons]

theorem two_mul_pow_sub {l a : Nat} (h : a < l) : 2 ^ (l - (a + 1)) + 2 ^ (l - (a + 1)) = 2 ^ (l - a) := by
  rw [← Nat.two_mul, ← Nat.pow_succ']
  congr 1
  omega

/-- A step takes weight away, and more of it the lower the first place comes to stand. -/
theorem weight_next {b l c : Nat} {x t : List Nat} (h : Below (b + 1) x) (hb : b ≤ l)
    (hnext : next b x = some (c :: t)) : weight l (c :: t) + 2 ^ (l - c) ≤ weight l x := by
  induction x generalizing b c t with
  | nil => cases hnext
  | cons a rest ih =>
      have hweight : ∀ l a x, weight l (a :: x) = 2 ^ (l - a) + weight l x := fun _ _ _ => rfl
      rcases next_cases hnext with ⟨hlt, heq⟩ | ⟨hge, d, u, hrest, heq⟩
      · cases heq
        rw [hweight, hweight]
        have hpow := two_mul_pow_sub (Nat.lt_of_lt_of_le hlt hb)
        omega
      · cases heq
        have hrestBelow : Below b rest := h.2.mono (Nat.le_of_lt_succ h.1)
        cases b with
        | zero =>
            rw [eq_nil_of_below_zero hrestBelow] at hrest
            cases hrest
        | succ b =>
            have hd : d < b + 1 := (next_below hrestBelow hrest).1.1
            have hle := ih hrestBelow (by omega) hrest
            have hpow := two_mul_pow_sub (Nat.lt_of_lt_of_le hd hb)
            have hrestLe : weight l (d :: u) + 2 ^ (l - d) ≤ weight l (a :: rest) :=
              Nat.le_trans hle (Nat.le_add_left _ _)
            rw [hweight l (d + 1) (d :: u)]
            omega

theorem weight_next_lt {b l : Nat} {x x' : List Nat} (h : Below (b + 1) x) (hb : b ≤ l)
    (hnext : next b x = some x') : weight l x' < weight l x := by
  cases x' with
  | nil =>
      have hlength := (next_below h hnext).2
      cases x with
      | nil => cases hnext
      | cons a rest => cases hlength
  | cons c t =>
      have hle := weight_next h hb hnext
      have hpos : 0 < 2 ^ (l - c) := Nat.two_pow_pos _
      omega

theorem weight_le (l : Nat) (x : List Nat) : weight l x ≤ x.length * 2 ^ l := by
  induction x with
  | nil => exact Nat.zero_le _
  | cons a rest ih =>
      have hpow : 2 ^ (l - a) ≤ 2 ^ l := Nat.pow_le_pow_right (by omega) (Nat.sub_le l a)
      calc weight l (a :: rest) = 2 ^ (l - a) + weight l rest := rfl
        _ ≤ 2 ^ l + rest.length * 2 ^ l := Nat.add_le_add hpow ih
        _ = (a :: rest).length * 2 ^ l := by rw [List.length_cons, Nat.succ_mul, Nat.add_comm]

/-- Nothing lies between a list and the next one. -/
theorem exists_next {b : Nat} {x t : List Nat} (hx : Below (b + 1) x) (ht : Below (b + 1) t) (h : Before x t) :
    ∃ x', next b x = some x' ∧ (x' = t ∨ Before x' t) := by
  induction x generalizing b t with
  | nil => cases h
  | cons a xs ih =>
      cases t with
      | nil => cases h
      | cons c ts =>
          by_cases hlt : a < b
          · refine ⟨(a + 1) :: xs, by rw [next, if_pos hlt], ?_⟩
            rcases h with h | ⟨rfl, hac⟩
            · exact Or.inr (Or.inl h)
            · rcases Nat.eq_or_lt_of_le hac with heq | hac
              · exact Or.inl (by rw [← heq])
              · exact Or.inr (Or.inr ⟨rfl, hac⟩)
          · have hrest : Before xs ts := by
              rcases h with h | ⟨_, hac⟩
              · exact h
              · exact absurd (Nat.lt_of_lt_of_le hac (Nat.le_of_lt_succ ht.1)) hlt
            have hxs : Below b xs := hx.2.mono (Nat.le_of_lt_succ hx.1)
            have hts : Below b ts := ht.2.mono (Nat.le_of_lt_succ ht.1)
            cases b with
            | zero =>
                rw [eq_nil_of_below_zero hxs] at hrest
                cases hrest
            | succ b =>
                obtain ⟨x', hnext, hx'⟩ := ih hxs hts hrest
                refine ⟨(x'.headD 0 + 1) :: x', by rw [next, if_neg hlt, Nat.add_sub_cancel, hnext], ?_⟩
                rcases hx' with rfl | hx'
                · cases x' with
                  | nil => cases xs <;> cases hrest
                  | cons d u =>
                      rcases Nat.eq_or_lt_of_le (Nat.succ_le_of_lt ht.2.1) with heq | hdc
                      · exact Or.inl (by rw [← heq, List.headD_cons])
                      · exact Or.inr (Or.inr ⟨rfl, hdc⟩)
                · exact Or.inr (Or.inl hx')

/-! ## Search -/

variable {R : Type}

/-- Tests one list after the other. Without an answer within the fuel there is none at all. -/
def search (test : List Nat → Option R) (b : Nat) : Nat → List Nat → Option (Option R)
  | 0, _ => none
  | fuel + 1, x =>
      match test x with
      | some r => some (some r)
      | none =>
          match next b x with
          | none => some none
          | some x' => search test b fuel x'

/-- What the search finds passed the test. -/
theorem search_sound {test : List Nat → Option R} {b fuel : Nat} {x : List Nat} {r : R} (hx : Below (b + 1) x)
    (h : search test b fuel x = some (some r)) :
    ∃ y, Below (b + 1) y ∧ y.length = x.length ∧ test y = some r := by
  induction fuel generalizing x with
  | zero => cases h
  | succ fuel ih =>
      rw [search] at h
      cases htest : test x with
      | some r' =>
          rw [htest] at h
          cases h
          exact ⟨x, hx, rfl, htest⟩
      | none =>
          rw [htest] at h
          cases hnext : next b x with
          | none =>
              rw [hnext] at h
              cases h
          | some x' =>
              rw [hnext] at h
              obtain ⟨hbelow, hlength⟩ := next_below hx hnext
              obtain ⟨y, hy, hylength, hytest⟩ := ih hbelow h
              exact ⟨y, hy, hylength.trans hlength, hytest⟩

/-- With fuel for the weight of the first list the search ends. -/
theorem search_ends {test : List Nat → Option R} {b fuel : Nat} {x : List Nat} (hx : Below (b + 1) x)
    (hfuel : weight b x < fuel) : ∃ res, search test b fuel x = some res := by
  induction fuel generalizing x with
  | zero => exact absurd hfuel (Nat.not_lt_zero _)
  | succ fuel ih =>
      rw [search]
      cases htest : test x with
      | some r => exact ⟨some r, rfl⟩
      | none =>
          cases hnext : next b x with
          | none => exact ⟨none, rfl⟩
          | some x' =>
              have hlt := weight_next_lt hx (Nat.le_refl b) hnext
              exact ih (next_below hx hnext).1 (by omega)

/-- When nothing is found, every list from the first on failed the test. -/
theorem search_none {test : List Nat → Option R} {b fuel : Nat} {x t : List Nat} (hx : Below (b + 1) x)
    (h : search test b fuel x = some none) (ht : Below (b + 1) t) (hle : t = x ∨ Before x t) : test t = none := by
  induction fuel generalizing x with
  | zero => cases h
  | succ fuel ih =>
      rw [search] at h
      cases htest : test x with
      | some r =>
          rw [htest] at h
          cases h
      | none =>
          rw [htest] at h
          rcases hle with rfl | hbefore
          · exact htest
          · obtain ⟨x', hnext, hx'⟩ := exists_next hx ht hbefore
            rw [hnext] at h
            exact ih (next_below hx hnext).1 h (hx'.imp_left Eq.symm)

/-! ## Runs of consecutive numbers -/

/-- The `m` numbers from `s` on, falling. -/
def window (s m : Nat) : List Nat := (List.range' s m).reverse

theorem window_succ (s m : Nat) : window s (m + 1) = (s + m) :: window s m := by
  rw [window, List.range'_1_concat, List.reverse_append]
  rfl

@[simp] theorem length_window (s m : Nat) : (window s m).length = m := by
  rw [window, List.length_reverse, List.length_range']

theorem map_succ_window (s m : Nat) : (window s m).map (· + 1) = window (s + 1) m := by
  induction m with
  | zero => rfl
  | succ m ih => rw [window_succ, window_succ, List.map_cons, ih, Nat.add_right_comm]

theorem below_window (s m : Nat) : Below (s + m) (window s m) := by
  induction m with
  | zero => trivial
  | succ m ih =>
      rw [window_succ]
      exact ⟨Nat.lt_succ_self _, ih⟩

/-- A run that starts higher comes later. -/
theorem before_window {s s' m : Nat} (hlt : s < s') (hm : 0 < m) : Before (window s m) (window s' m) := by
  induction m with
  | zero => cases hm
  | succ m ih =>
      rw [window_succ, window_succ]
      cases m with
      | zero => exact Or.inr ⟨rfl, Nat.add_lt_add_right hlt 0⟩
      | succ m => exact Or.inl (ih (Nat.succ_pos m))

/-- With one first place before both. -/
theorem eq_or_before_cons_window {s s' m : Nat} (a : Nat) (hle : s ≤ s') :
    a :: window s' m = a :: window s m ∨ Before (a :: window s m) (a :: window s' m) := by
  rcases Nat.eq_or_lt_of_le hle with rfl | hlt
  · exact Or.inl rfl
  · cases m with
    | zero => exact Or.inl rfl
    | succ m => exact Or.inr (Or.inl (before_window hlt (Nat.succ_pos m)))

/-- Of all falling lists of its length below a bound, the last run has the largest sum of values that do not fall. -/
theorem sum_le_window {f : Nat → Int} {n s m : Nat} {x : List Nat} (hf : ∀ a b, a ≤ b → b < n → f a ≤ f b)
    (hx : Below (s + m) x) (hlength : x.length = m) (hn : s + m ≤ n) :
    (x.map f).sum ≤ ((window s m).map f).sum := by
  induction m generalizing x with
  | zero =>
      rw [List.length_eq_zero_iff.1 hlength]
      exact Int.le_refl 0
  | succ m ih =>
      cases x with
      | nil => cases hlength
      | cons a rest =>
          rw [window_succ, List.map_cons, List.map_cons, List.sum_cons, List.sum_cons]
          have hle : a ≤ s + m := Nat.le_of_lt_succ hx.1
          exact Int.add_le_add (hf a (s + m) hle (by omega))
            (ih (hx.2.mono hle) (Nat.succ.inj hlength) (by omega))

end Odometer
