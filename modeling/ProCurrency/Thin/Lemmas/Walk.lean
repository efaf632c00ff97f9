import ProCurrency.Thin.Index

/-!
# What the walks over the header index find

The walks of `SetBestThinChain` and `ReorganizeHeaders` collect the entries along `pprev`. Where no `pprev` is freed
and the rear is the only entry without one, they come to an end.
-/

namespace ProCurrency

open LinkedChain

namespace ThinIndex

variable {st : ThinIndex} {heap : Nat → Option ThinEntry} {chain l v : List Nat}
  {p q pfork mid fuel : Nat} {e : ThinEntry}

/-! ## What is collected -/

/-- The entries from `p` back to `pfork`, which is not one of them. -/
inductive Branch (heap : Nat → Option ThinEntry) (pfork : Nat) : Nat → List Nat → Prop where
  | refl : Branch heap pfork pfork []
  | step {p q : Nat} {l : List Nat} (parent : Parent heap p q) (rest : Branch heap pfork q l) :
      Branch heap pfork p (p :: l)

theorem Branch.trans {r : Nat} (h : Branch heap q p v) (h' : Branch heap r q l) :
    Branch heap r p (v ++ l) := by
  induction h with
  | refl => exact h'
  | step parent _ ih => exact .step parent ih

theorem Branch.head (h : Branch heap pfork p l) (below : List Nat) :
    ∃ rest, l ++ pfork :: below = p :: rest := by
  cases h with
  | refl => exact ⟨below, rfl⟩
  | step parent rest => exact ⟨_, rfl⟩

theorem thinBranchTo_branch (h : thinBranchTo heap pfork fuel p = some l) : Branch heap pfork p l := by
  fun_induction thinBranchTo heap pfork fuel p generalizing l with
  | case1 => cases h; exact .refl
  | case2 => cases h
  | case3 => cases h
  | case4 => cases h
  | case5 => cases h
  | case6 p _ e he q hprev fuel branch hbranch ih =>
      cases h
      exact .step ⟨e, he, hprev⟩ (ih hbranch)

theorem postponeThin_branch {nBestTrust : UInt256} (h : postponeThin heap nBestTrust fuel p = some (v, mid)) :
    Branch heap mid p v := by
  fun_induction postponeThin heap nBestTrust fuel p generalizing v with
  | case1 => cases h
  | case2 => cases h; exact .refl
  | case3 => cases h
  | case4 => cases h
  | case5 => cases h
  | case6 p e he q hprev e' he' _ fuel v' mid' hrest ih =>
      cases h
      exact .step ⟨e, he, hprev⟩ (ih hrest)
  | case7 => cases h; exact .refl

/-- A branch from the head of a chain that ends where there is no `pprev` is the upper part of the chain. -/
theorem Branch.split {rest : List Nat} (h : Branch heap pfork p l) (hchain : (p :: rest).IsChain (Parent heap))
    (hlast : ∀ r ∈ (p :: rest).getLast?, ∀ q, ¬ Parent heap r q) :
    ∃ below, p :: rest = l ++ pfork :: below := by
  induction h generalizing rest with
  | refl => exact ⟨rest, rfl⟩
  | step parent _ ih =>
      cases rest with
      | nil => exact absurd parent (hlast _ rfl _)
      | cons r rest =>
          obtain ⟨hpr, hrest⟩ := List.isChain_cons_cons.mp hchain
          cases hpr.unique parent
          obtain ⟨below, hbelow⟩ := ih hrest (by simpa using hlast)
          exact ⟨below, by rw [hbelow]; rfl⟩

/-- A branch over a chain is a chain. -/
theorem Branch.linked {below : List Nat} (htree : Tree st) (h : Branch st.heap pfork p l)
    (hbelow : (pfork :: below).IsChain (Above st.node)) (hfork : ∃ e, st.heap pfork = some e) :
    (l ++ pfork :: below).IsChain (Above st.node) ∧ ∃ e, st.heap p = some e := by
  induction h with
  | refl => exact ⟨hbelow, hfork⟩
  | step parent rest ih =>
      obtain ⟨hchain, halive⟩ := ih
      obtain ⟨above, habove⟩ := rest.head below
      have hstep := htree.above parent halive
      obtain ⟨e, he, -⟩ := parent
      rw [habove] at hchain
      rw [List.cons_append, habove]
      exact ⟨List.isChain_cons_cons.mpr ⟨hstep, hchain⟩, e, he⟩

/-! ## Where the walks end -/

/-- No `pprev` is freed, and only the rear has none. -/
structure Rooted (st : ThinIndex) : Prop where
  alive : ∀ p q, Parent st.heap p q → ∃ e, st.heap q = some e
  root : ∀ p e, st.heap p = some e → e.pprev = none → st.pindexRear = some p

theorem Tree.height_lt_of_parent {e' : ThinEntry} (htree : Tree st) (hparent : Parent st.heap p q)
    (he : st.heap p = some e) (he' : st.heap q = some e') : e'.nHeight < e.nHeight := by
  obtain ⟨d, hd, hprev⟩ := hparent
  rw [he] at hd
  cases hd
  have := htree.graded p q e e' he hprev he'
  omega

/-- From every entry the rear is reached, and it is lower than all the others. -/
theorem Rooted.rear_of_alive (hroot : Rooted st) (htree : Tree st) (he : st.heap p = some e) :
    ∃ rear eRear, st.pindexRear = some rear ∧ st.heap rear = some eRear ∧ eRear.nHeight ≤ e.nHeight ∧
      (p = rear ∨ eRear.nHeight < e.nHeight) := by
  induction p using Nat.strong_induction_on generalizing e with
  | _ p ih =>
      cases hprev : e.pprev with
      | none => exact ⟨p, e, hroot.root p e he hprev, he, le_rfl, .inl rfl⟩
      | some q =>
          have hparent : Parent st.heap p q := ⟨e, he, hprev⟩
          obtain ⟨e', he'⟩ := hroot.alive p q hparent
          obtain ⟨rear, eRear, hrear, heRear, hle, -⟩ := ih q (htree.earlier p q hparent) he'
          have hlt := htree.height_lt_of_parent hparent he he'
          exact ⟨rear, eRear, hrear, heRear, by omega, .inr (by omega)⟩

theorem lowerThinTo_some {nHeight : Int} {rear : Nat} {eRear : ThinEntry} (hroot : Rooted st) (htree : Tree st)
    (hrear : st.pindexRear = some rear) (heRear : st.heap rear = some eRear) (hle : eRear.nHeight ≤ nHeight)
    (he : st.heap p = some e) (hfuel : p ≤ fuel) :
    ∃ q e', lowerThinTo st.heap nHeight fuel p = some (some q) ∧ Ancestor st.heap p q ∧
      st.heap q = some e' ∧ e'.nHeight ≤ nHeight := by
  induction fuel generalizing p e with
  | zero =>
      rw [lowerThinTo]
      simp only [he]
      split_ifs with hlt
      · cases hprev : e.pprev with
        | none =>
            have hp := hroot.root p e he hprev
            rw [hrear] at hp
            cases hp
            rw [heRear] at he
            cases he
            omega
        | some q =>
            have := htree.earlier p q ⟨e, he, hprev⟩
            omega
      · exact ⟨p, e, rfl, .refl, he, by omega⟩
  | succ fuel ih =>
      rw [lowerThinTo]
      simp only [he]
      split_ifs with hlt
      · cases hprev : e.pprev with
        | none =>
            have hp := hroot.root p e he hprev
            rw [hrear] at hp
            cases hp
            rw [heRear] at he
            cases he
            omega
        | some q =>
            have hparent : Parent st.heap p q := ⟨e, he, hprev⟩
            have hq := htree.earlier p q hparent
            obtain ⟨e', he'⟩ := hroot.alive p q hparent
            obtain ⟨r, e'', hr, hpath, he'', hlow⟩ := ih he' (by omega)
            exact ⟨r, e'', hr, .head hparent hpath, he'', hlow⟩
      · exact ⟨p, e, rfl, .refl, he, by omega⟩

/-- Two entries have a fork. -/
theorem findThinFork_some {nRounds : Nat} {eFork : ThinEntry} (hroot : Rooted st) (htree : Tree st)
    (hfork : st.heap pfork = some eFork) (he : st.heap p = some e) (hrounds : st.nAllocated ≤ nRounds)
    (hfuel : pfork ≤ fuel) :
    ∃ q, findThinFork st.heap nRounds fuel pfork p = some (some q) ∧ Ancestor st.heap pfork q ∧
      Ancestor st.heap p q := by
  induction fuel using Nat.strong_induction_on generalizing pfork p e eFork with
  | _ fuel ih =>
      unfold findThinFork
      split_ifs with heq
      · exact ⟨pfork, rfl, .refl, heq ▸ .refl⟩
      · obtain ⟨rear, eRear, hrear, heRear, hle, -⟩ := hroot.rear_of_alive htree hfork
        obtain ⟨q, e', hlower, hpath, he', hlow⟩ := lowerThinTo_some hroot htree hrear heRear hle he
          ((htree.allocated p e he).le.trans hrounds)
        simp only [hfork, hlower]
        split_ifs with heq'
        · exact ⟨pfork, rfl, .refl, heq' ▸ hpath⟩
        · cases hprev : eFork.pprev with
          | none =>
              -- `pfork` is the rear, and no other entry is as low.
              have hp := hroot.root pfork eFork hfork hprev
              obtain ⟨rear', eRear', hrear', heRear', -, hq⟩ := hroot.rear_of_alive htree he'
              rw [hp] at hrear'
              cases hrear'
              rw [hfork] at heRear'
              cases heRear'
              rcases hq with rfl | hlt
              · exact absurd rfl heq'
              · omega
          | some pprev =>
              have hparent : Parent st.heap pfork pprev := ⟨eFork, hfork, hprev⟩
              have hlt := htree.earlier pfork pprev hparent
              obtain ⟨ePrev, hePrev⟩ := hroot.alive pfork pprev hparent
              cases fuel with
              | zero => omega
              | succ fuel =>
                  obtain ⟨r, hr, hforkPath, hqPath⟩ := ih fuel (Nat.lt_succ_self fuel) hePrev he' (by omega)
                  exact ⟨r, hr, .head hparent hforkPath, hpath.trans hqPath⟩

theorem thinBranchTo_some (htree : Tree st) (hpath : Ancestor st.heap p pfork) (hfuel : p ≤ fuel) :
    ∃ l, thinBranchTo st.heap pfork fuel p = some l := by
  induction hpath using Relation.ReflTransGen.head_induction_on generalizing fuel with
  | refl =>
      unfold thinBranchTo
      exact ⟨[], if_pos rfl⟩
  | head hparent hrest ih =>
      rename_i p q
      have hq := htree.earlier p q hparent
      have hfork := htree.ancestor_le hrest
      obtain ⟨l, hl⟩ := ih (show q ≤ fuel - 1 by omega)
      obtain ⟨e, he, hprev⟩ := hparent
      unfold thinBranchTo
      rw [if_neg (show p ≠ pfork by omega)]
      cases fuel with
      | zero => omega
      | succ fuel =>
          rw [Nat.add_sub_cancel] at hl
          exact ⟨p :: l, by simp only [he, hprev, hl]⟩

theorem postponeThin_some {nBestTrust : UInt256} (hroot : Rooted st) (htree : Tree st)
    (he : st.heap p = some e) (hfuel : p ≤ fuel) :
    ∃ v mid e', postponeThin st.heap nBestTrust fuel p = some (v, mid) ∧ st.heap mid = some e' := by
  induction fuel using Nat.strong_induction_on generalizing p e with
  | _ fuel ih =>
      unfold postponeThin
      simp only [he]
      cases hprev : e.pprev with
      | none => exact ⟨[], p, e, rfl, he⟩
      | some q =>
          have hparent : Parent st.heap p q := ⟨e, he, hprev⟩
          have hlt := htree.earlier p q hparent
          obtain ⟨e', he'⟩ := hroot.alive p q hparent
          simp only [he']
          split_ifs with htrust
          · cases fuel with
            | zero => omega
            | succ fuel =>
                obtain ⟨v, mid, eMid, hmid, heMid⟩ := ih fuel (Nat.lt_succ_self fuel) he' (by omega)
                exact ⟨p :: v, mid, eMid, by simp only [hmid], heMid⟩
          · exact ⟨[], p, e, rfl, he⟩

end ThinIndex

end ProCurrency
