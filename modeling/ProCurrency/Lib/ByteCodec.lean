import Mathlib.Algebra.Group.Int.Defs
import Mathlib.Algebra.Group.Nat.Defs
import Mathlib.Data.Nat.Notation
import Mathlib.Order.Basic

/-!
# Reading and writing bytes

A reader takes a value from the front of a byte list. Integers are little-endian, and a writer followed by
its reader gives the value back, whatever bytes come after.
-/

namespace ByteCodec

/-- A value and the bytes that are left, `none` when the bytes do not start with a value. -/
abbrev Reader (α : Type) := List UInt8 → Option (α × List UInt8)

/-- The `size` low bytes of `n`, the least significant one first. -/
def leBytes : Nat → Nat → List UInt8
  | 0, _ => []
  | size + 1, n => UInt8.ofNat n :: leBytes size (n / 256)

def ofLeBytes : List UInt8 → Nat
  | [] => 0
  | b :: bs => b.toNat + 256 * ofLeBytes bs

def readBytes (size : Nat) : Reader (List UInt8) := fun s =>
  if s.length < size then none else some (s.take size, s.drop size)

def readLe (size : Nat) : Reader Nat := fun s =>
  match readBytes size s with
  | none => none
  | some (bs, s) => some (ofLeBytes bs, s)

/-- `n` values, one after the other. -/
def readMany {α : Type} (read : Reader α) : Nat → Reader (List α)
  | 0, s => some ([], s)
  | n + 1, s =>
      match read s with
      | none => none
      | some (a, s) =>
          match readMany read n s with
          | none => none
          | some (as, s) => some (a :: as, s)

/-- A signed number, in two's complement. -/
def leInt (size : Nat) (n : Int) : List UInt8 := leBytes size (n % 256 ^ size).toNat

def readLeInt (size : Nat) : Reader Int := fun s =>
  match readLe size s with
  | none => none
  | some (n, s) => some (Int.bmod n (256 ^ size), s)

/-- A state that takes in what is read, `n` times, while a counter runs from `k` on. -/
def readLoop {σ : Type} (read : σ → Nat → Reader σ) : Nat → Nat → σ → Reader σ
  | 0, _, st, s => some (st, s)
  | n + 1, k, st, s =>
      match read st k s with
      | none => none
      | some (st, s) => readLoop read n (k + 1) st s

/-! ## Round trips -/

@[simp] theorem length_leBytes (size n : Nat) : (leBytes size n).length = size := by
  induction size generalizing n with
  | zero => rfl
  | succ size ih => rw [leBytes, List.length_cons, ih]

theorem leBytes_succ_eq_append (size n : Nat) :
    leBytes (size + 1) n = leBytes size n ++ [UInt8.ofNat (n / 256 ^ size)] := by
  induction size generalizing n with
  | zero => simp [leBytes]
  | succ size ih =>
      rw [leBytes, ih, leBytes, List.cons_append, Nat.div_div_eq_div_mul, ← Nat.pow_succ']

theorem ofLeBytes_leBytes {size n : Nat} (h : n < 256 ^ size) : ofLeBytes (leBytes size n) = n := by
  induction size generalizing n with
  | zero =>
      rw [Nat.pow_zero] at h
      rw [leBytes, ofLeBytes]; omega
  | succ size ih =>
      have hdiv : n / 256 < 256 ^ size := by
        rw [Nat.div_lt_iff_lt_mul (by decide), ← Nat.pow_succ]; exact h
      rw [leBytes, ofLeBytes, ih hdiv, UInt8.toNat_ofNat']
      omega

theorem leBytes_ofLeBytes (bs : List UInt8) : leBytes bs.length (ofLeBytes bs) = bs := by
  induction bs with
  | nil => rfl
  | cons b bs ih =>
      have hb := b.toNat_lt
      have hlow : UInt8.ofNat (b.toNat + 256 * ofLeBytes bs) = b := by
        rw [← UInt8.toNat_inj, UInt8.toNat_ofNat']; omega
      have hhigh : (b.toNat + 256 * ofLeBytes bs) / 256 = ofLeBytes bs := by omega
      rw [ofLeBytes, List.length_cons, leBytes, hlow, hhigh, ih]

theorem ofLeBytes_lt (bs : List UInt8) : ofLeBytes bs < 256 ^ bs.length := by
  induction bs with
  | nil => exact Nat.one_pos
  | cons b bs ih =>
      have hb := b.toNat_lt
      rw [ofLeBytes, List.length_cons, Nat.pow_succ]; omega

theorem ofLeBytes_injective {bs bs' : List UInt8} (hlen : bs.length = bs'.length)
    (h : ofLeBytes bs = ofLeBytes bs') : bs = bs' := by
  rw [← leBytes_ofLeBytes bs, ← leBytes_ofLeBytes bs', hlen, h]

theorem leBytes_injective {size n n' : Nat} (hn : n < 256 ^ size) (hn' : n' < 256 ^ size)
    (h : leBytes size n = leBytes size n') : n = n' := by
  rw [← ofLeBytes_leBytes hn, h, ofLeBytes_leBytes hn']

theorem leBytes_append_injective {size n n' : Nat} {s s' : List UInt8} (hn : n < 256 ^ size) (hn' : n' < 256 ^ size)
    (h : leBytes size n ++ s = leBytes size n' ++ s') : n = n' ∧ s = s' := by
  obtain ⟨hbytes, hs⟩ := List.append_inj h ((length_leBytes size n).trans (length_leBytes size n').symm)
  exact ⟨leBytes_injective hn hn' hbytes, hs⟩

theorem readBytes_append {size : Nat} {bs : List UInt8} (h : bs.length = size) (s : List UInt8) :
    readBytes size (bs ++ s) = some (bs, s) := by
  subst h
  have hlen : ¬ (bs ++ s).length < bs.length := by rw [List.length_append]; omega
  rw [readBytes, if_neg hlen, List.take_left, List.drop_left]

theorem readLe_append {size n : Nat} (h : n < 256 ^ size) (s : List UInt8) :
    readLe size (leBytes size n ++ s) = some (n, s) := by
  rw [readLe, readBytes_append (length_leBytes size n)]
  dsimp only
  rw [ofLeBytes_leBytes h]

theorem readLe_eq_some {size n : Nat} {s rest : List UInt8} (h : readLe size s = some (n, rest)) :
    s = leBytes size n ++ rest ∧ n < 256 ^ size := by
  rw [readLe, readBytes] at h
  split_ifs at h with hlt
  cases h
  have hlen : (s.take size).length = size := List.length_take_of_le (Nat.not_lt.1 hlt)
  have hbytes := leBytes_ofLeBytes (s.take size)
  have hbound := ofLeBytes_lt (s.take size)
  rw [hlen] at hbytes hbound
  rw [hbytes, List.take_append_drop]
  exact ⟨rfl, hbound⟩

theorem readMany_append {α : Type} {read : Reader α} {write : α → List UInt8} {as : List α}
    (h : ∀ a ∈ as, ∀ s, read (write a ++ s) = some (a, s)) (s : List UInt8) :
    readMany read as.length (as.flatMap write ++ s) = some (as, s) := by
  induction as with
  | nil => rfl
  | cons a as ih =>
      rw [List.flatMap_cons, List.append_assoc, List.length_cons, readMany, h a List.mem_cons_self]
      dsimp only
      rw [ih fun b hb => h b (List.mem_cons_of_mem a hb)]

/-- A number comes back as far as it fits. -/
theorem readLeInt_append (size : Nat) (n : Int) (s : List UInt8) :
    readLeInt size (leInt size n ++ s) = some (Int.bmod n (256 ^ size), s) := by
  have hpos : (0 : Int) < 256 ^ size := Int.pow_pos (by decide)
  have hcast : ((256 ^ size : Nat) : Int) = 256 ^ size := Int.natCast_pow 256 size
  have hlow := Int.emod_nonneg n (Int.ne_of_gt hpos)
  have hhigh := Int.emod_lt_of_pos n hpos
  have hlt : (n % 256 ^ size).toNat < 256 ^ size := by
    rw [← Int.ofNat_lt, Int.toNat_of_nonneg hlow, hcast]
    exact hhigh
  rw [readLeInt, leInt, readLe_append hlt]
  dsimp only
  rw [Int.toNat_of_nonneg hlow, ← hcast, Int.emod_bmod]

theorem readLeInt_append_of_lt {size : Nat} {n : Int} (hlow : 0 ≤ n) (hhigh : 2 * n < 256 ^ size) (s : List UInt8) :
    readLeInt size (leInt size n ++ s) = some (n, s) := by
  have hcast : ((256 ^ size : Nat) : Int) = 256 ^ size := Int.natCast_pow 256 size
  have hmod : Int.bmod n (256 ^ size) = n := by
    apply Int.bmod_eq_of_le
    · omega
    · omega
  rw [readLeInt_append, hmod]

/-- What a step of the loop keeps, when it meets what was written for the next element, holds after all of them. -/
theorem readLoop_append {α σ : Type} {read : σ → Nat → Reader σ} {write : α → List UInt8} {as : List α}
    (Inv : List α → σ → Prop)
    (hstep : ∀ done a rest, as = done ++ a :: rest → ∀ st, Inv done st → ∀ s, ∃ st',
      read st done.length (write a ++ s) = some (st', s) ∧ Inv (done ++ [a]) st')
    {st : σ} (hstart : Inv [] st) (s : List UInt8) :
    ∃ st', readLoop read as.length 0 st (as.flatMap write ++ s) = some (st', s) ∧ Inv as st' := by
  suffices hrest : ∀ (rest done : List α) (st : σ), as = done ++ rest → Inv done st →
      ∃ st', readLoop read rest.length done.length st (rest.flatMap write ++ s) = some (st', s) ∧ Inv as st' from
    hrest as [] st rfl hstart
  intro rest
  induction rest with
  | nil =>
      intro done st has hinv
      rw [List.append_nil] at has
      exact ⟨st, rfl, has ▸ hinv⟩
  | cons a rest ih =>
      intro done st has hinv
      obtain ⟨st', hread, hinv'⟩ := hstep done a rest has st hinv (rest.flatMap write ++ s)
      obtain ⟨st'', hloop, hend⟩ := ih (done ++ [a]) st' (by rw [has, List.append_assoc]; rfl) hinv'
      refine ⟨st'', ?_, hend⟩
      rw [List.length_append, List.length_singleton] at hloop
      rw [List.length_cons, readLoop, List.flatMap_cons, List.append_assoc, hread]
      exact hloop

/-! ## Exact readers -/

/-- The reader takes what the writer writes of the values of `Ok`, and nothing else. -/
def Exact {α : Type} (Ok : α → Prop) (write : α → List UInt8) (read : Reader α) : Prop :=
  ∀ s a rest, read s = some (a, rest) ↔ Ok a ∧ s = write a ++ rest

theorem Exact.read_append {α : Type} {Ok : α → Prop} {write : α → List UInt8} {read : Reader α}
    (h : Exact Ok write read) {a : α} (ha : Ok a) (s : List UInt8) : read (write a ++ s) = some (a, s) :=
  (h _ a s).2 ⟨ha, rfl⟩

theorem exact_readLe (size : Nat) : Exact (fun n => n < 256 ^ size) (leBytes size) (readLe size) := by
  intro s n rest
  constructor
  · intro h
    exact (readLe_eq_some h).symm
  · rintro ⟨hn, rfl⟩
    exact readLe_append hn rest

theorem bmod_eq_self_iff {n : Int} {m : Nat} (hm : 0 < m) : Int.bmod n m = n ↔ -(m : Int) ≤ 2 * n ∧ 2 * n < m := by
  constructor
  · intro h
    have hlow := @Int.le_bmod n m hm
    have hhigh := @Int.bmod_lt n m hm
    rw [h] at hlow hhigh
    omega
  · rintro ⟨hlow, hhigh⟩
    exact Int.bmod_eq_of_le (by omega) (by omega)

theorem exact_readLeInt (size : Nat) :
    Exact (fun n => -256 ^ size ≤ 2 * n ∧ 2 * n < 256 ^ size) (leInt size) (readLeInt size) := by
  have hpos : 0 < 256 ^ size := Nat.pow_pos (by decide)
  have hcast : ((256 ^ size : Nat) : Int) = 256 ^ size := Int.natCast_pow 256 size
  intro s n rest
  constructor
  · intro h
    rw [readLeInt] at h
    cases hread : readLe size s with
    | none => rw [hread] at h; cases h
    | some r =>
        obtain ⟨k, s'⟩ := r
        rw [hread] at h
        cases h
        obtain ⟨hs, hk⟩ := readLe_eq_some hread
        have hrange := (bmod_eq_self_iff hpos).1 (Int.bmod_bmod (x := (k : Int)) (m := 256 ^ size))
        have hback : (Int.bmod (k : Int) (256 ^ size) % 256 ^ size).toNat = k := by
          rw [← hcast, Int.bmod_emod, ← Int.natCast_emod, Int.toNat_natCast, Nat.mod_eq_of_lt hk]
        rw [hcast] at hrange
        rw [leInt, hback]
        exact ⟨hrange, hs⟩
  · rintro ⟨hn, rfl⟩
    rw [← hcast] at hn
    rw [readLeInt_append, (bmod_eq_self_iff hpos).2 hn]

theorem exact_readMany {α : Type} {Ok : α → Prop} {write : α → List UInt8} {read : Reader α}
    (h : Exact Ok write read) (n : Nat) :
    Exact (fun as => as.length = n ∧ ∀ a ∈ as, Ok a) (fun as => as.flatMap write) (readMany read n) := by
  induction n with
  | zero =>
      intro s as rest
      constructor
      · intro heq
        cases heq
        exact ⟨⟨rfl, fun a ha => absurd ha List.not_mem_nil⟩, rfl⟩
      · rintro ⟨⟨hlength, -⟩, rfl⟩
        rw [List.length_eq_zero_iff.1 hlength]
        rfl
  | succ n ih =>
      intro s as rest
      constructor
      · intro heq
        rw [readMany] at heq
        split at heq
        · cases heq
        · rename_i a s' hread
          split at heq
          · cases heq
          · rename_i as' rest' hmany
            cases heq
            obtain ⟨ha, hs⟩ := (h s a s').1 hread
            obtain ⟨⟨hlength, has⟩, hs'⟩ := (ih s' as' rest).1 hmany
            refine ⟨⟨by rw [List.length_cons, hlength], List.forall_mem_cons.2 ⟨ha, has⟩⟩, ?_⟩
            dsimp only at hs' ⊢
            rw [List.flatMap_cons, List.append_assoc, ← hs', hs]
      · rintro ⟨⟨hlength, has⟩, rfl⟩
        rw [← hlength]
        exact readMany_append (fun a ha s => h.read_append (has a ha) s) rest

/-- A reader of another type that goes through this one. -/
theorem Exact.map {α β : Type} {Ok : α → Prop} {write : α → List UInt8} {read : Reader α} (h : Exact Ok write read)
    {of : α → β} {rep : β → α} (hof : ∀ a, Ok a → rep (of a) = a) (hrep : ∀ b, Ok (rep b) ∧ of (rep b) = b) :
    Exact (fun _ => True) (fun b => write (rep b)) fun s => (read s).map fun r => (of r.1, r.2) := by
  intro s b rest
  rw [Option.map_eq_some_iff]
  constructor
  · rintro ⟨⟨a, s'⟩, hread, heq⟩
    cases heq
    obtain ⟨ha, hs⟩ := (h s a s').1 hread
    dsimp only
    rw [hof a ha]
    exact ⟨trivial, hs⟩
  · rintro ⟨-, rfl⟩
    refine ⟨(rep b, rest), h.read_append (hrep b).1 rest, ?_⟩
    dsimp only
    rw [(hrep b).2]

theorem Exact.congr {α : Type} {Ok Ok' : α → Prop} {write write' : α → List UInt8} {read : Reader α}
    (h : Exact Ok write read) (hok : ∀ a, Ok a ↔ Ok' a) (hwrite : ∀ a, write a = write' a) : Exact Ok' write' read := by
  intro s a rest
  rw [h, hok, hwrite]

end ByteCodec
