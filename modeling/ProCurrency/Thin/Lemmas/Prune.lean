import ProCurrency.Thin.Lemmas.Reorganize

/-!
# Pruning

A round of the loop takes the rear off the main chain. When the loop returns, an upper part of the chain is left.
-/

namespace ProCurrency

open LinkedChain

namespace ThinIndex

variable {st st' : ThinIndex} {chain l : List Nat} {p q rear next fuel : Nat} {e eRear eNext : ThinEntry}

/-! ## A round -/

/-- The index without its rear. -/
def withoutRear (st : ThinIndex) (rear next : Nat) (eRear eNext : ThinEntry) (l : List Nat) : ThinIndex :=
  { st with
    heap := Function.update (Function.update st.heap next (some { eNext with pprev := none })) rear none
    pnext := successor l
    pindexRear := some next
    mapBlockThinIndex := Function.update st.mapBlockThinIndex eRear.hashBlock none }

/-- What a round meets on a chain of two entries or more. -/
structure TwoAtRear (st : ThinIndex) (l : List Nat) (rear next : Nat) (eRear eNext : ThinEntry) : Prop where
  chain : MainChain st (l ++ [next] ++ [rear])
  eRear : st.heap rear = some eRear
  eNext : st.heap next = some eNext

namespace TwoAtRear

variable (h : TwoAtRear st l rear next eRear eNext)

include h

theorem pindexRear : st.pindexRear = some rear ∧ eRear.pprev = none := by
  obtain ⟨pindexRear, e, hlast, hrear, he, hprev⟩ := h.chain.rear
  rw [List.getLast?_append, List.getLast?_singleton, Option.some_or] at hlast
  cases hlast
  rw [h.eRear] at he
  cases he
  exact ⟨hrear, hprev⟩

theorem above : eNext.nHeight = eRear.nHeight + 1 ∧ eNext.pprev = some rear := by
  have hlinked := h.chain.linked
  rw [List.append_assoc] at hlinked
  obtain ⟨e, e', he, hprev, he', hheight⟩ := above_iff.mp (List.isChain_cons_cons.mp hlinked.right_of_append).1
  rw [h.eNext] at he
  rw [h.eRear] at he'
  cases he
  cases he'
  exact ⟨hheight, hprev⟩

theorem ne : next ≠ rear := by
  rintro rfl
  have hrear := h.eRear
  rw [h.eNext] at hrear
  cases hrear
  have := h.above.1
  omega

theorem rear_notMem : rear ∉ l ++ [next] := by
  have hnodup := h.chain.nodup
  rw [List.nodup_append] at hnodup
  intro hmem
  exact hnodup.2.2 rear hmem rear (List.mem_singleton_self rear) rfl

theorem pruneRear : st.pruneRear = some (st.withoutRear rear next eRear eNext (l ++ [next])) := by
  have hpnext : st.pnext rear = some next := by
    rw [h.chain.pnext]
    exact successor_rear h.chain.nodup
  have hfiled := h.chain.tree.filed_of_heap h.eRear
  have hlinks : Function.update st.pnext rear none = successor (l ++ [next]) := by
    rw [h.chain.pnext]
    exact successor_dropLast h.chain.nodup
  rw [ThinIndex.pruneRear]
  simp only [h.pindexRear.1, h.eRear, hpnext, h.eNext, hfiled, hlinks]
  rfl

omit h in
/-- The entries after the round. -/
theorem heap_withoutRear (p : Nat) :
    (st.withoutRear rear next eRear eNext (l ++ [next])).heap p =
      if p = rear then none else if p = next then some { eNext with pprev := none } else st.heap p := by
  simp only [withoutRear, Function.update_apply]

theorem heap_of_withoutRear (hp : (st.withoutRear rear next eRear eNext (l ++ [next])).heap p = some e) :
    p ≠ rear ∧ ∃ d, st.heap p = some d ∧ e.hashBlock = d.hashBlock ∧ e.nHeight = d.nHeight ∧
      (p = next ∧ e.pprev = none ∨ p ≠ next ∧ e = d) := by
  rw [heap_withoutRear] at hp
  split_ifs at hp with hrear hnext
  · cases hp
    subst hnext
    exact ⟨hrear, eNext, h.eNext, rfl, rfl, .inl ⟨rfl, rfl⟩⟩
  · exact ⟨hrear, e, hp, rfl, rfl, .inr ⟨hnext, rfl⟩⟩

theorem parent_of_withoutRear (hp : Parent (st.withoutRear rear next eRear eNext (l ++ [next])).heap p q) :
    p ≠ rear ∧ p ≠ next ∧ Parent st.heap p q := by
  obtain ⟨e, he, hprev⟩ := hp
  obtain ⟨hrear, d, hd, -, -, ⟨rfl, hnone⟩ | ⟨hnext, rfl⟩⟩ := h.heap_of_withoutRear he
  · rw [hnone] at hprev
    cases hprev
  · exact ⟨hrear, hnext, e, hd, hprev⟩

theorem tree : Tree (st.withoutRear rear next eRear eNext (l ++ [next])) where
  filed := by
    intro hash p
    have hfiled := h.chain.tree.filed hash p
    have hrear := h.chain.tree.filed_of_heap h.eRear
    rw [heap_withoutRear]
    simp only [withoutRear, Function.update_apply]
    constructor
    · intro hmap
      split_ifs at hmap with hhash
      obtain ⟨e, he, rfl⟩ := hfiled.mp hmap
      split_ifs with hp hp'
      · subst hp
        rw [h.eRear] at he
        cases he
        exact absurd rfl hhash
      · subst hp'
        rw [h.eNext] at he
        cases he
        exact ⟨_, rfl, rfl⟩
      · exact ⟨e, he, rfl⟩
    · rintro ⟨e, he, rfl⟩
      split_ifs at he with hp hp'
      · cases he
        subst hp'
        have hne : eNext.hashBlock ≠ eRear.hashBlock := by
          intro hhash
          have hnext := h.chain.tree.filed_of_heap h.eNext
          rw [hhash, hrear] at hnext
          exact hp (Option.some.inj hnext).symm
        have hnext := h.chain.tree.filed_of_heap h.eNext
        exact (if_neg hne).trans hnext
      · have hne : e.hashBlock ≠ eRear.hashBlock := by
          intro hhash
          have hp' := h.chain.tree.filed_of_heap he
          rw [hhash, hrear] at hp'
          exact hp (Option.some.inj hp').symm
        rw [if_neg hne]
        exact h.chain.tree.filed_of_heap he
  allocated p e he := by
    obtain ⟨-, d, hd, -⟩ := h.heap_of_withoutRear he
    exact h.chain.tree.allocated p d hd
  earlier p q hparent := h.chain.tree.earlier p q (h.parent_of_withoutRear hparent).2.2
  graded p q e e' he hprev he' := by
    obtain ⟨-, -, hparent⟩ := h.parent_of_withoutRear ⟨e, he, hprev⟩
    obtain ⟨-, d, hd, -, hheight, -⟩ := h.heap_of_withoutRear he
    obtain ⟨-, d', hd', -, hheight', -⟩ := h.heap_of_withoutRear he'
    obtain ⟨c, hc, hcprev⟩ := hparent
    rw [hd] at hc
    cases hc
    rw [hheight, hheight']
    exact h.chain.tree.graded p q d d' hd hcprev hd'

theorem mainChain : MainChain (st.withoutRear rear next eRear eNext (l ++ [next])) (l ++ [next]) := by
  have hmem := h.rear_notMem
  have hlinked := h.chain.linked.left_of_append
  refine ⟨h.tree, ?_, ?_, ⟨next, { eNext with pprev := none }, ?_, rfl, ?_, rfl⟩, rfl, ?_⟩
  · obtain ⟨pindexBest, rest, hchain, hbest, e, he, hnames⟩ := h.chain.best
    obtain ⟨a, l', hl⟩ := List.exists_cons_of_ne_nil (List.append_ne_nil_of_right_ne_nil l (List.cons_ne_nil next []))
    rw [hl] at hchain hmem ⊢
    rw [List.cons_append] at hchain
    cases hchain
    have hne : pindexBest ≠ rear := fun heq => hmem (heq ▸ List.mem_cons_self)
    refine ⟨pindexBest, l', rfl, hbest, ?_⟩
    rw [← hl, heap_withoutRear, if_neg hne]
    split_ifs with hnext
    · subst hnext
      rw [h.eNext] at he
      cases he
      exact ⟨_, rfl, hnames⟩
    · exact ⟨e, he, hnames⟩
  · refine hlinked.imp_of_mem_imp fun a b ha hb hab => ?_
    obtain ⟨e, e', he, hprev, he', hheight⟩ := above_iff.mp hab
    have hb' : b ≠ rear := fun heq => hmem (heq ▸ hb)
    have ha' : a ≠ rear := fun heq => hmem (heq ▸ ha)
    have hnext : a ≠ next := by
      rintro rfl
      rw [h.eNext] at he
      cases he
      rw [h.above.2] at hprev
      exact hb' (Option.some.inj hprev).symm
    have hea : (st.withoutRear rear next eRear eNext (l ++ [next])).heap a = some e := by
      rw [heap_withoutRear, if_neg ha', if_neg hnext, he]
    rcases Decidable.em (b = next) with rfl | hbnext
    · rw [h.eNext] at he'
      cases he'
      refine above_iff.mpr ⟨e, { eNext with pprev := none }, hea, hprev, ?_, hheight⟩
      rw [heap_withoutRear, if_neg hb', if_pos rfl]
    · refine above_iff.mpr ⟨e, e', hea, hprev, ?_, hheight⟩
      rw [heap_withoutRear, if_neg hb', if_neg hbnext, he']
  · rw [List.getLast?_append, List.getLast?_singleton, Option.some_or]
  · rw [heap_withoutRear, if_neg h.ne, if_pos rfl]
  · obtain ⟨p, hp, hlt, hgenesis⟩ := h.chain.genesis
    refine ⟨p, hp, hlt, .inr ?_⟩
    rw [heap_withoutRear]
    rcases hgenesis with hrear | hfreed
    · rw [h.pindexRear.1] at hrear
      cases hrear
      exact if_pos rfl
    · split_ifs with h1 h2
      · rfl
      · subst h2
        rw [h.eNext] at hfreed
        cases hfreed
      · exact hfreed

end TwoAtRear

/-- Whoever hangs on the chain below a height is in the chain. -/
def NoForkBelow (st : ThinIndex) (chain : List Nat) (nHeight : Int) : Prop :=
  ∀ p q e, Parent st.heap p q → q ∈ chain → st.heap q = some e → e.nHeight < nHeight → p ∈ chain

/-- A round leaves the tree rooted when nothing but the next entry hangs on the rear. -/
theorem TwoAtRear.rooted {nHeight : Int} (h : TwoAtRear st l rear next eRear eNext) (hroot : Rooted st)
    (hfork : NoForkBelow st (l ++ [next] ++ [rear]) nHeight) (hlt : eRear.nHeight < nHeight) :
    Rooted (st.withoutRear rear next eRear eNext (l ++ [next])) ∧
      NoForkBelow (st.withoutRear rear next eRear eNext (l ++ [next])) (l ++ [next]) nHeight := by
  refine ⟨⟨fun p q hparent => ?_, fun p e he hprev => ?_⟩, fun p q e hparent hq he hheight => ?_⟩
  · obtain ⟨hrear, hnext, hbefore⟩ := h.parent_of_withoutRear hparent
    have hq : q ≠ rear := by
      rintro rfl
      have hp := hfork p q eRear hbefore (by simp) h.eRear hlt
      obtain ⟨e, he, hprev⟩ := hbefore
      have hheight := h.chain.tree.graded p q e eRear he hprev h.eRear
      have hpnext : p = next := by
        refine eq_of_height_eq h.chain.linked hp (by simp) (hasHeight_iff.mpr ⟨e, he, rfl⟩) ?_
        exact hasHeight_iff.mpr ⟨eNext, h.eNext, h.above.1.trans hheight.symm⟩
      exact hnext hpnext
    obtain ⟨e, he⟩ := hroot.alive p q hbefore
    rw [heap_withoutRear, if_neg hq]
    split_ifs
    · exact ⟨_, rfl⟩
    · exact ⟨e, he⟩
  · obtain ⟨hrear, d, hd, -, -, ⟨rfl, -⟩ | ⟨-, rfl⟩⟩ := h.heap_of_withoutRear he
    · rfl
    · have hp := hroot.root p e hd hprev
      rw [h.pindexRear.1] at hp
      exact absurd (Option.some.inj hp).symm hrear
  · obtain ⟨hrear, -, hparent⟩ := h.parent_of_withoutRear hparent
    obtain ⟨-, d, hd, -, hdheight, -⟩ := h.heap_of_withoutRear he
    have hp := hfork p q d hparent (List.mem_append_left [rear] hq) hd (hdheight ▸ hheight)
    rcases List.mem_append.mp hp with hp | hp
    · exact hp
    · exact absurd (List.mem_singleton.mp hp) hrear

/-! ## The loop -/

theorem MainChain.rear_cases (h : MainChain st chain) :
    (∃ rear, chain = [rear] ∧ st.pindexRear = some rear) ∨
      ∃ l rear next eRear eNext, chain = l ++ [next] ++ [rear] ∧ TwoAtRear st l rear next eRear eNext := by
  obtain ⟨rear, eRear, hlast, hrear, heRear, -⟩ := h.rear
  obtain ⟨l, rfl⟩ := List.getLast?_eq_some_iff.mp hlast
  rcases List.eq_nil_or_concat l with rfl | ⟨l, next, rfl⟩
  · exact .inl ⟨rear, rfl, hrear⟩
  · rw [List.concat_eq_append] at h ⊢
    obtain ⟨eNext, heNext⟩ := h.alive (p := next) (by simp)
    exact .inr ⟨l, rear, next, eRear, eNext, rfl, h, heRear, heNext⟩

/-- A round that returns has found two entries. -/
theorem pruneRear_cases (h : MainChain st chain) (hprune : st.pruneRear = some st') :
    ∃ l rear next eRear eNext, chain = l ++ [next] ++ [rear] ∧ TwoAtRear st l rear next eRear eNext ∧
      st' = st.withoutRear rear next eRear eNext (l ++ [next]) := by
  rcases h.rear_cases with ⟨rear, rfl, hrear⟩ | ⟨l, rear, next, eRear, eNext, rfl, htwo⟩
  · obtain ⟨eRear, heRear⟩ := h.alive List.mem_cons_self
    have hpnext : st.pnext rear = none := by
      rw [h.pnext]
      rfl
    rw [pruneRear] at hprune
    simp [hrear, heRear, hpnext] at hprune
  · rw [htwo.pruneRear] at hprune
    cases hprune
    exact ⟨l, rear, next, eRear, eNext, rfl, htwo, rfl⟩

theorem pruneTo_spec {env : ThinEnv} {nHeight : Int} (h : MainChain st chain)
    (hprune : pruneTo env nHeight fuel st = some st') : ∃ l, l <+: chain ∧ MainChain st' l := by
  fun_induction pruneTo env nHeight fuel st generalizing chain with
  | case1 => cases hprune; exact ⟨chain, List.prefix_rfl, h⟩
  | case2 => cases hprune
  | case3 => cases hprune
  | case4 => cases hprune
  | case5 st rear hrear e he _ fuel st₁ hround ih =>
      obtain ⟨l, rear, next, eRear, eNext, rfl, htwo, rfl⟩ := pruneRear_cases h hround
      obtain ⟨l', hl', hchain⟩ := ih htwo.mainChain hprune
      exact ⟨l', hl'.trans (List.prefix_append _ _), hchain⟩
  | case6 => cases hprune; exact ⟨chain, List.prefix_rfl, h⟩

/-- Where no fork hangs below the height and the chain reaches it, the loop returns. -/
theorem pruneTo_some {env : ThinEnv} {nHeight : Int} {pindexBest : Nat} {rest : List Nat} {eBest : ThinEntry}
    (h : MainChain st (pindexBest :: rest)) (hroot : Rooted st)
    (hfork : env.fThinFullIndex = false →
      NoForkBelow st (pindexBest :: rest) (nHeight - env.nThinIndexWindow))
    (heBest : st.heap pindexBest = some eBest)
    (hbest : env.fThinFullIndex = false → nHeight - env.nThinIndexWindow ≤ eBest.nHeight)
    (hfuel : rest.length ≤ fuel) :
    ∃ st' l, pruneTo env nHeight fuel st = some st' ∧ MainChain st' l ∧ Rooted st' := by
  induction fuel using Nat.strong_induction_on generalizing st rest eBest with
  | _ fuel ih =>
      unfold pruneTo
      rcases h.rear_cases with ⟨rear, hchain, hrear⟩ | ⟨l, rear, next, eRear, eNext, hchain, htwo⟩
      · cases hchain
        simp only [hrear, heBest]
        rw [if_neg]
        · exact ⟨st, [pindexBest], rfl, h, hroot⟩
        · rintro ⟨hfull, hlt⟩
          have := hbest hfull
          omega
      · simp only [htwo.pindexRear.1, htwo.eRear]
        split_ifs with hcond
        · obtain ⟨hfull, hlt⟩ := hcond
          obtain ⟨a, l', hl⟩ := List.exists_cons_of_ne_nil
            (List.append_ne_nil_of_right_ne_nil l (List.cons_ne_nil next []))
          have hmain := htwo.mainChain
          have hnotMem := htwo.rear_notMem
          have hfork' := hfork hfull
          rw [hchain] at hfork'
          obtain ⟨hroot', hnoFork⟩ := htwo.rooted hroot hfork' (by omega)
          rw [hl] at hchain hmain hnotMem hnoFork hroot'
          rw [List.cons_append] at hchain
          cases hchain
          have hheap : ∃ e, (st.withoutRear rear next eRear eNext (pindexBest :: l')).heap pindexBest = some e ∧
              e.nHeight = eBest.nHeight := by
            have hne : pindexBest ≠ rear := fun heq => hnotMem (heq ▸ List.mem_cons_self)
            rw [← hl, TwoAtRear.heap_withoutRear, if_neg hne]
            split_ifs with hnext
            · subst hnext
              rw [htwo.eNext] at heBest
              cases heBest
              exact ⟨_, rfl, rfl⟩
            · exact ⟨eBest, heBest, rfl⟩
          obtain ⟨e, he, hheight⟩ := hheap
          rw [List.length_append, List.length_singleton] at hfuel
          cases fuel with
          | zero => omega
          | succ fuel =>
              rw [htwo.pruneRear, hl]
              exact ih fuel (Nat.lt_succ_self fuel) hmain hroot' (fun _ => hnoFork) he
                (fun h => hheight ▸ hbest h) (by omega)
        · exact ⟨st, _, rfl, h, hroot⟩

end ThinIndex

end ProCurrency
