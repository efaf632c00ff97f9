import Mathlib.Init

/-!
# Runs of a machine on events

A machine takes one event after the other and puts something out for each. It may have no next state, and a run ends
there. What holds of every step of a run, and what an invariant carries to its end.
-/

namespace EventRun

variable {S E O : Type} {step : E → S → Option (S × O)}

/-- The state after the events. -/
def run (step : E → S → Option (S × O)) : List E → S → Option S
  | [], s => some s
  | e :: es, s =>
      match step e s with
      | none => none
      | some (s', _) => run step es s'

/-- Every step that a run makes has the property. -/
def Along (step : E → S → Option (S × O)) (P : S → E → S → O → Prop) : List E → S → Prop
  | [], _ => True
  | e :: es, s => ∀ s' o, step e s = some (s', o) → P s e s' o ∧ Along step P es s'

theorem run_append {es es' : List E} {s s' : S} (h : run step es s = some s') :
    run step (es ++ es') s = run step es' s' := by
  induction es generalizing s with
  | nil => rw [Option.some.inj h, List.nil_append]
  | cons e es ih =>
      rw [run] at h
      cases hstep : step e s with
      | none => rw [hstep] at h; cases h
      | some next =>
          rw [hstep] at h
          rw [List.cons_append, run, hstep]
          exact ih h

theorem run_keeps {Inv : S → Prop} (hkeep : ∀ s e s' o, Inv s → step e s = some (s', o) → Inv s') {es : List E}
    {s s' : S} (hs : Inv s) (hrun : run step es s = some s') : Inv s' := by
  induction es generalizing s with
  | nil => exact Option.some.inj hrun ▸ hs
  | cons e es ih =>
      rw [run] at hrun
      cases hstep : step e s with
      | none => rw [hstep] at hrun; cases hrun
      | some next =>
          rw [hstep] at hrun
          exact ih (hkeep s e next.1 next.2 hs hstep) hrun

/-- What holds at the end of a run and not at its start has become true in one of its steps. -/
theorem run_becomes {P : S → Prop} {es : List E} {s s' : S} (hs : ¬ P s) (hs' : P s') (hrun : run step es s = some s') :
    ∃ before e after s₁ s₂ o, es = before ++ e :: after ∧ run step before s = some s₁ ∧ step e s₁ = some (s₂, o) ∧
      ¬ P s₁ ∧ P s₂ := by
  induction es generalizing s with
  | nil => exact absurd (Option.some.inj hrun ▸ hs') hs
  | cons e es ih =>
      rw [run] at hrun
      cases hstep : step e s with
      | none => rw [hstep] at hrun; cases hrun
      | some next =>
          rw [hstep] at hrun
          by_cases hnext : P next.1
          · exact ⟨[], e, es, s, next.1, next.2, rfl, rfl, hstep, hs, hnext⟩
          · obtain ⟨before, e', after, s₁, s₂, o, rfl, hbefore, hrest⟩ := ih hnext hrun
            refine ⟨e :: before, e', after, s₁, s₂, o, rfl, ?_, hrest⟩
            rw [run, hstep]
            exact hbefore

theorem along_append {P : S → E → S → O → Prop} {es es' : List E} {s s' : S} (h : Along step P (es ++ es') s)
    (hrun : run step es s = some s') : Along step P es' s' := by
  induction es generalizing s with
  | nil => exact Option.some.inj hrun ▸ h
  | cons e es ih =>
      rw [run] at hrun
      cases hstep : step e s with
      | none => rw [hstep] at hrun; cases hrun
      | some next =>
          rw [hstep] at hrun
          exact ih (h next.1 next.2 hstep).2 hrun

theorem Along.imp {P Q : S → E → S → O → Prop} (h : ∀ s e s' o, step e s = some (s', o) → P s e s' o → Q s e s' o)
    {es : List E} {s : S} (hP : Along step P es s) : Along step Q es s := by
  induction es generalizing s with
  | nil => exact trivial
  | cons e es ih =>
      intro s' o hstep
      obtain ⟨hhead, htail⟩ := hP s' o hstep
      exact ⟨h s e s' o hstep hhead, ih htail⟩

theorem along_congr {P Q : S → E → S → O → Prop} (h : ∀ s e s' o, step e s = some (s', o) → (P s e s' o ↔ Q s e s' o))
    (es : List E) (s : S) : Along step P es s ↔ Along step Q es s :=
  ⟨.imp fun s e s' o hstep => (h s e s' o hstep).1, .imp fun s e s' o hstep => (h s e s' o hstep).2⟩

variable {P Q : S → E → S → O → Prop}

/-- An invariant that the steps of the run keep holds at its end. -/
theorem Along.run_invariant (Inv : S → Prop)
    (hkeep : ∀ s e s' o, Inv s → step e s = some (s', o) → P s e s' o → Inv s') {es : List E} {s s' : S}
    (hP : Along step P es s) (hs : Inv s) (hrun : run step es s = some s') : Inv s' := by
  induction es generalizing s with
  | nil => exact Option.some.inj hrun ▸ hs
  | cons e es ih =>
      rw [run] at hrun
      cases hstep : step e s with
      | none => rw [hstep] at hrun; cases hrun
      | some next =>
          rw [hstep] at hrun
          obtain ⟨hhead, htail⟩ := hP next.1 next.2 hstep
          exact ih htail (hkeep s e next.1 next.2 hs hstep hhead) hrun

/-- Where each event finds a next state, and the invariant in it, a run comes to its end. -/
theorem run_total {Admitted : E → Prop} (Inv : S → Prop)
    (hstep : ∀ s e, Inv s → Admitted e → ∃ s' o, step e s = some (s', o) ∧ Inv s') {es : List E} {s : S}
    (hes : ∀ e ∈ es, Admitted e) (hs : Inv s) : ∃ s', run step es s = some s' ∧ Inv s' := by
  induction es generalizing s with
  | nil => exact ⟨s, rfl, hs⟩
  | cons e es ih =>
      obtain ⟨s₁, o, hfirst, hs₁⟩ := hstep s e hs (hes e List.mem_cons_self)
      rw [run, hfirst]
      exact ih (fun e he => hes e (List.mem_cons_of_mem _ he)) hs₁

/-- What a step guarantees under the invariant holds of every step. -/
theorem Along.of_invariant (Inv : S → Prop)
    (hkeep : ∀ s e s' o, Inv s → step e s = some (s', o) → P s e s' o → Inv s' ∧ Q s e s' o)
    {es : List E} {s : S} (hP : Along step P es s) (hs : Inv s) : Along step Q es s := by
  induction es generalizing s with
  | nil => exact trivial
  | cons e es ih =>
      intro s' o hstep
      obtain ⟨hhead, htail⟩ := hP s' o hstep
      obtain ⟨hs', hQ⟩ := hkeep s e s' o hs hstep hhead
      exact ⟨hQ, ih htail hs'⟩

/-- Properties that agree under an invariant, which the first one keeps, hold of every step together. -/
theorem along_congr_of_invariant (Inv : S → Prop)
    (hiff : ∀ s e s' o, Inv s → step e s = some (s', o) → (P s e s' o ↔ Q s e s' o))
    (hkeep : ∀ s e s' o, Inv s → step e s = some (s', o) → P s e s' o → Inv s') {es : List E} {s : S} (hs : Inv s) :
    Along step P es s ↔ Along step Q es s :=
  ⟨fun hP => hP.of_invariant Inv (fun s e s' o hs hstep h =>
      ⟨hkeep s e s' o hs hstep h, (hiff s e s' o hs hstep).1 h⟩) hs,
    fun hQ => hQ.of_invariant Inv (fun s e s' o hs hstep h =>
      ⟨hkeep s e s' o hs hstep ((hiff s e s' o hs hstep).2 h), (hiff s e s' o hs hstep).2 h⟩) hs⟩

end EventRun

/-!
## Loops with a measure

A loop whose body goes on to a next state, leaves with a result, or fails. Where every round lowers a measure and does
not fail, the loop comes to its end.
-/

namespace MeasuredLoop

variable {S R : Type} {body : S → Option (S ⊕ R)} {s : S} {r r' : R} {rounds rounds' : Nat}

/-- The result, unless the body fails or the rounds do not suffice. -/
def iterate (body : S → Option (S ⊕ R)) : Nat → S → Option R
  | 0, _ => none
  | rounds + 1, s =>
      match body s with
      | none => none
      | some (.inl s') => iterate body rounds s'
      | some (.inr r) => some r

/-- The loop comes to its end. -/
def Ends (body : S → Option (S ⊕ R)) (s : S) : Prop := ∃ rounds r, iterate body rounds s = some r

theorem iterate_next {s' : S} (h : body s = some (.inl s')) : iterate body (rounds + 1) s = iterate body rounds s' := by
  rw [iterate, h]

theorem iterate_leave (h : body s = some (.inr r)) : iterate body (rounds + 1) s = some r := by
  rw [iterate, h]

/-- More rounds change nothing. -/
theorem iterate_mono (hle : rounds ≤ rounds') (h : iterate body rounds s = some r) :
    iterate body rounds' s = some r := by
  induction rounds generalizing rounds' s with
  | zero => cases h
  | succ rounds ih =>
      obtain ⟨more, rfl⟩ : ∃ more, rounds' = more + 1 := ⟨rounds' - 1, by omega⟩
      rw [iterate] at h ⊢
      match hbody : body s with
      | none => rw [hbody] at h; cases h
      | some (.inl s') =>
          rw [hbody] at h
          exact ih (Nat.le_of_succ_le_succ hle) h
      | some (.inr r') =>
          rw [hbody] at h
          exact h

theorem iterate_unique (h : iterate body rounds s = some r) (h' : iterate body rounds' s = some r') : r = r' := by
  have hmax := iterate_mono (Nat.le_max_left rounds rounds') h
  have hmax' := iterate_mono (Nat.le_max_right rounds rounds') h'
  exact Option.some.inj (hmax.symm.trans hmax')

/-- The rounds that the measure counts suffice, and what each kind of round keeps holds of the result. -/
theorem iterate_of_measure (measure : S → Nat) (Inv : S → Prop) (Post : R → Prop)
    (hbody : ∀ s, Inv s → (∃ s', body s = some (.inl s') ∧ Inv s' ∧ measure s' < measure s) ∨
      ∃ r, body s = some (.inr r) ∧ Post r) (hs : Inv s) (hrounds : measure s < rounds) :
    ∃ r, iterate body rounds s = some r ∧ Post r := by
  induction rounds generalizing s with
  | zero => cases hrounds
  | succ rounds ih =>
      rcases hbody s hs with ⟨s', hnext, hs', hlt⟩ | ⟨r, hleave, hr⟩
      · rw [iterate_next hnext]
        exact ih hs' (Nat.lt_of_lt_of_le hlt (Nat.le_of_lt_succ hrounds))
      · exact ⟨r, iterate_leave hleave, hr⟩

theorem ends_of_measure (measure : S → Nat) (Inv : S → Prop)
    (hbody : ∀ s, Inv s → (∃ s', body s = some (.inl s') ∧ Inv s' ∧ measure s' < measure s) ∨
      ∃ r, body s = some (.inr r)) (hs : Inv s) : Ends body s := by
  have hpost : ∀ s, Inv s → (∃ s', body s = some (.inl s') ∧ Inv s' ∧ measure s' < measure s) ∨
      ∃ r, body s = some (.inr r) ∧ True := fun s hs => (hbody s hs).imp id fun ⟨r, hr⟩ => ⟨r, hr, trivial⟩
  obtain ⟨r, hr, _⟩ := iterate_of_measure measure Inv (fun _ => True) hpost hs (Nat.lt_succ_self _)
  exact ⟨_, r, hr⟩

end MeasuredLoop
