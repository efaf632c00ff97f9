import Mathlib.Init

/-!
# Conditionals over flags

A flat list of items, some of which open, turn over and close conditionals, is run with a list of flags, and an item is
executed when no flag is false. A structured program has the conditionals as trees. A list that runs to its end with no
flag left is a structured program that is written out, and does what that program means.
-/

namespace Conditional

/-- What an item is to the flags. -/
inductive Kind
  | plain
  | cond
  | els
  | endif
deriving DecidableEq

variable {α β σ ε : Type}

theorem ok_of_bind {x : Except ε α} {f : α → Except ε β} {b : β} (h : x >>= f = .ok b) : ∃ a, x = .ok a ∧ f a = .ok b := by
  cases x with
  | error e => cases h
  | ok a => exact ⟨a, rfl, h⟩

theorem ok_of_map {x : Except ε α} {f : α → β} {b : β} (h : x.map f = .ok b) : ∃ a, x = .ok a ∧ f a = b := by
  cases x with
  | error e => cases h
  | ok a => cases h; exact ⟨a, rfl, rfl⟩

structure Machine (α σ ε : Type) where
  kind : α → Kind
  /-- What is done for every item before, whether it is executed or not. -/
  enter : α → σ → Except ε σ
  exec : α → σ → Except ε σ
  /-- The flag that a conditional starts with. -/
  test : α → σ → Except ε (Bool × σ)
  /-- What is done for every item after. -/
  leave : σ → Except ε σ
  unbalanced : ε

/-- No flag is false. -/
def active (flags : List Bool) : Bool := !flags.contains false

/-! ## Flat lists -/

namespace Machine

variable (m : Machine α σ ε)

def act (a : α) (s : σ) (flags : List Bool) : Except ε (σ × List Bool) :=
  match m.kind a with
  | .plain => if active flags then (m.exec a s).map (·, flags) else .ok (s, flags)
  | .cond => if active flags then (m.test a s).map fun r => (r.2, r.1 :: flags) else .ok (s, false :: flags)
  | .els =>
      match flags with
      | [] => .error m.unbalanced
      | f :: flags => .ok (s, (!f) :: flags)
  | .endif =>
      match flags with
      | [] => .error m.unbalanced
      | _ :: flags => .ok (s, flags)

def step (a : α) (s : σ) (flags : List Bool) : Except ε (σ × List Bool) := do
  let s ← m.enter a s
  let r ← m.act a s flags
  let s ← m.leave r.1
  .ok (s, r.2)

def run : List α → σ → List Bool → Except ε (σ × List Bool)
  | [], s, flags => .ok (s, flags)
  | a :: as, s, flags => do
      let r ← m.step a s flags
      run as r.1 r.2

end Machine

/-! ## Structured programs -/

mutual

inductive Prog (kind : α → Kind)
  | done
  | op (a : α) (ha : kind a = .plain) (next : Prog kind)
  | cond (a : α) (ha : kind a = .cond) (arms : Arms kind) (next : Prog kind)

/-- The arms of a conditional: each further one runs when the one before it does not. -/
inductive Arms (kind : α → Kind)
  | last (body : Prog kind) (a : α) (ha : kind a = .endif)
  | more (body : Prog kind) (a : α) (ha : kind a = .els) (rest : Arms kind)

end

variable {kind : α → Kind}

mutual

/-- The program written out. -/
def Prog.items : Prog kind → List α
  | .done => []
  | .op a _ next => a :: next.items
  | .cond a _ arms next => a :: (arms.items ++ next.items)

def Arms.items : Arms kind → List α
  | .last body a _ => body.items ++ [a]
  | .more body a _ rest => body.items ++ a :: rest.items

end

namespace Machine

variable (m : Machine α σ ε)

/-- A plain item, where code is executed or where it is not. -/
def plain (on : Bool) (a : α) (s : σ) : Except ε σ := do
  let s ← m.enter a s
  let s ← if on then m.exec a s else .ok s
  m.leave s

/-- The start of a conditional. -/
def choose (on : Bool) (a : α) (s : σ) : Except ε (Bool × σ) := do
  let s ← m.enter a s
  let r ← if on then m.test a s else .ok (false, s)
  let s ← m.leave r.2
  .ok (r.1, s)

/-- An item that stands between two arms or behind the last one. -/
def mark (a : α) (s : σ) : Except ε σ := do
  let s ← m.enter a s
  m.leave s

mutual

/-- What a program does, where code is executed or where it is not. -/
def progRun (on : Bool) : Prog m.kind → σ → Except ε σ
  | .done, s => .ok s
  | .op a _ next, s => do
      let s ← m.plain on a s
      progRun on next s
  | .cond a _ arms next, s => do
      let r ← m.choose on a s
      let s ← armsRun on r.1 arms r.2
      progRun on next s

def armsRun (on f : Bool) : Arms m.kind → σ → Except ε σ
  | .last body a _, s => do
      let s ← progRun (on && f) body s
      m.mark a s
  | .more body a _ rest, s => do
      let s ← progRun (on && f) body s
      let s ← m.mark a s
      armsRun on (!f) rest s

end

/-! ## A program written out does what it means -/

variable {m}

@[simp] theorem active_cons (f : Bool) (flags : List Bool) : active (f :: flags) = (active flags && f) := by
  cases f <;> simp [active]

theorem step_plain {a : α} (ha : m.kind a = .plain) (s : σ) (flags : List Bool) :
    m.step a s flags = (m.plain (active flags) a s).map (·, flags) := by
  rw [step, plain]
  cases m.enter a s with
  | error e => rfl
  | ok s =>
      simp only [bind, Except.bind, act, ha]
      cases active flags with
      | false =>
          simp only [Bool.false_eq_true, if_false]
          rfl
      | true =>
          simp only [if_true]
          cases m.exec a s with
          | error e => rfl
          | ok s => rfl

theorem step_cond {a : α} (ha : m.kind a = .cond) (s : σ) (flags : List Bool) :
    m.step a s flags = (m.choose (active flags) a s).map fun r => (r.2, r.1 :: flags) := by
  rw [step, choose]
  cases m.enter a s with
  | error e => rfl
  | ok s =>
      simp only [bind, Except.bind, act, ha]
      cases active flags with
      | false =>
          simp only [Bool.false_eq_true, if_false]
          cases m.leave s <;> rfl
      | true =>
          simp only [if_true]
          cases m.test a s with
          | error e => rfl
          | ok r =>
              simp only [Except.map]
              cases m.leave r.2 <;> rfl

theorem step_els {a : α} (ha : m.kind a = .els) (s : σ) (f : Bool) (flags : List Bool) :
    m.step a s (f :: flags) = (m.mark a s).map (·, (!f) :: flags) := by
  rw [step, mark]
  cases m.enter a s with
  | error e => rfl
  | ok s =>
      simp only [bind, Except.bind, act, ha]
      cases m.leave s <;> rfl

theorem step_endif {a : α} (ha : m.kind a = .endif) (s : σ) (f : Bool) (flags : List Bool) :
    m.step a s (f :: flags) = (m.mark a s).map (·, flags) := by
  rw [step, mark]
  cases m.enter a s with
  | error e => rfl
  | ok s =>
      simp only [bind, Except.bind, act, ha]
      cases m.leave s <;> rfl

mutual

/-- What is left of the list runs on from where the program ends, with the flags that it started with. -/
theorem run_items_append : (p : Prog m.kind) → (rest : List α) → (s : σ) → (flags : List Bool) →
    m.run (p.items ++ rest) s flags = m.progRun (active flags) p s >>= fun s => m.run rest s flags
  | .done, rest, s, flags => by
      rw [Prog.items, progRun]
      rfl
  | .op a ha next, rest, s, flags => by
      rw [Prog.items, List.cons_append, run, step_plain ha, progRun]
      cases m.plain (active flags) a s with
      | error e => rfl
      | ok s => exact run_items_append next rest s flags
  | .cond a ha arms next, rest, s, flags => by
      rw [Prog.items, List.cons_append, List.append_assoc, run, step_cond ha, progRun]
      cases m.choose (active flags) a s with
      | error e => rfl
      | ok r =>
          change m.run (arms.items ++ (next.items ++ rest)) r.2 (r.1 :: flags) =
            (m.armsRun (active flags) r.1 arms r.2 >>= m.progRun (active flags) next) >>= fun s => m.run rest s flags
          rw [run_arms_append arms (next.items ++ rest) r.2 r.1 flags]
          cases m.armsRun (active flags) r.1 arms r.2 with
          | error e => rfl
          | ok s => exact run_items_append next rest s flags

theorem run_arms_append : (arms : Arms m.kind) → (rest : List α) → (s : σ) → (f : Bool) → (flags : List Bool) →
    m.run (arms.items ++ rest) s (f :: flags) = m.armsRun (active flags) f arms s >>= fun s => m.run rest s flags
  | .last body a ha, rest, s, f, flags => by
      rw [Arms.items, List.append_assoc, run_items_append body, active_cons, armsRun]
      cases m.progRun (active flags && f) body s with
      | error e => rfl
      | ok s =>
          change m.run (a :: rest) s (f :: flags) = m.mark a s >>= fun s => m.run rest s flags
          rw [run, step_endif ha]
          cases m.mark a s <;> rfl
  | .more body a ha arms, rest, s, f, flags => by
      rw [Arms.items, List.append_assoc, run_items_append body, active_cons, armsRun]
      cases m.progRun (active flags && f) body s with
      | error e => rfl
      | ok s =>
          change m.run (a :: (arms.items ++ rest)) s (f :: flags) =
            (m.mark a s >>= m.armsRun (active flags) (!f) arms) >>= fun s => m.run rest s flags
          rw [run, step_els ha]
          cases m.mark a s with
          | error e => rfl
          | ok s => exact run_arms_append arms rest s (!f) flags

end

/-! ## A list that runs to its end is a program -/

/-- The rest of a conditional from the end of an arm on, and what follows the conditional. -/
structure Frame (kind : α → Kind) where
  /-- The arms, for the arm that is open. -/
  close : Prog kind → Arms kind
  next : Prog kind
  items : List α
  items_close : ∀ body, (close body).items = body.items ++ items

def Frame.ofEndif (a : α) (ha : kind a = .endif) (next : Prog kind) : Frame kind where
  close body := .last body a ha
  next := next
  items := [a]
  items_close body := by rw [Arms.items]

def Frame.ofEls (a : α) (ha : kind a = .els) (body : Prog kind) (frame : Frame kind) : Frame kind where
  close first := .more first a ha (frame.close body)
  next := frame.next
  items := a :: (body.items ++ frame.items)
  items_close first := by rw [Arms.items, frame.items_close]

/-- The items behind the program that is open: those of the conditionals around it, from the innermost one. -/
def frameItems (frames : List (Frame kind)) : List α := frames.flatMap fun frame => frame.items ++ frame.next.items

/-- No conditional is open that the item could turn over or close. -/
theorem step_nil {a : α} (ha : m.kind a = .els ∨ m.kind a = .endif) (s : σ) (r : σ × List Bool) :
    m.step a s [] ≠ .ok r := by
  intro h
  rw [step] at h
  obtain ⟨s₁, _, h⟩ := ok_of_bind h
  obtain ⟨r₁, hact, _⟩ := ok_of_bind h
  rw [act] at hact
  rcases ha with ha | ha
  · simp only [ha, reduceCtorEq] at hact
  · simp only [ha, reduceCtorEq] at hact

/-- A list that runs to its end from some flags is a program with one open conditional around it for each of them. -/
theorem exists_prog_of_run {as : List α} {s s' : σ} {flags : List Bool} (h : m.run as s flags = .ok (s', [])) :
    ∃ (p : Prog m.kind) (frames : List (Frame m.kind)), frames.length = flags.length ∧ as = p.items ++ frameItems frames := by
  induction as generalizing s flags with
  | nil =>
      cases h
      exact ⟨.done, [], rfl, by rw [Prog.items]; rfl⟩
  | cons a as ih =>
      rw [run] at h
      obtain ⟨r, hstep, h⟩ := ok_of_bind h
      obtain ⟨p, frames, hlength, has⟩ := ih h
      cases ha : m.kind a with
      | plain =>
          rw [step_plain ha] at hstep
          obtain ⟨s₁, _, rfl⟩ := ok_of_map hstep
          exact ⟨.op a ha p, frames, hlength, by rw [Prog.items, List.cons_append, has]⟩
      | cond =>
          rw [step_cond ha] at hstep
          obtain ⟨r₁, _, rfl⟩ := ok_of_map hstep
          cases frames with
          | nil => cases hlength
          | cons frame frames =>
              refine ⟨.cond a ha (frame.close p) frame.next, frames, Nat.succ.inj hlength, ?_⟩
              rw [Prog.items, frame.items_close, has, frameItems, frameItems, List.flatMap_cons]
              simp only [List.cons_append, List.append_assoc]
      | els =>
          cases flags with
          | nil => exact absurd hstep (step_nil (.inl ha) s r)
          | cons f flags =>
              rw [step_els ha] at hstep
              obtain ⟨s₁, _, rfl⟩ := ok_of_map hstep
              cases frames with
              | nil => cases hlength
              | cons frame frames =>
                  refine ⟨.done, .ofEls a ha p frame :: frames, hlength, ?_⟩
                  rw [Prog.items, has, frameItems, frameItems, List.flatMap_cons, List.flatMap_cons]
                  simp only [Frame.ofEls, List.nil_append, List.cons_append, List.append_assoc]
      | endif =>
          cases flags with
          | nil => exact absurd hstep (step_nil (.inr ha) s r)
          | cons f flags =>
              rw [step_endif ha] at hstep
              obtain ⟨s₁, _, rfl⟩ := ok_of_map hstep
              refine ⟨.done, .ofEndif a ha p :: frames, congrArg Nat.succ hlength, ?_⟩
              rw [Prog.items, has, frameItems, frameItems, List.flatMap_cons]
              simp only [Frame.ofEndif, List.nil_append, List.cons_append]

/-- A list runs to its end with no flag left if and only if it is a program written out that means as much. -/
theorem run_eq_ok_iff (as : List α) (s s' : σ) :
    m.run as s [] = .ok (s', []) ↔ ∃ p : Prog m.kind, as = p.items ∧ m.progRun true p s = .ok s' := by
  have hitems : ∀ p : Prog m.kind, m.run p.items s [] = m.progRun true p s >>= fun s => .ok (s, []) := by
    intro p
    have happend := run_items_append p [] s []
    rw [List.append_nil] at happend
    exact happend
  constructor
  · intro h
    obtain ⟨p, frames, hlength, has⟩ := exists_prog_of_run h
    obtain rfl := List.length_eq_zero_iff.1 hlength
    rw [frameItems, List.flatMap_nil, List.append_nil] at has
    subst has
    rw [hitems] at h
    obtain ⟨s₁, hrun, hs⟩ := ok_of_bind h
    cases hs
    exact ⟨p, rfl, hrun⟩
  · rintro ⟨p, rfl, hrun⟩
    rw [hitems, hrun]
    rfl

end Machine

end Conditional
