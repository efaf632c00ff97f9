import Mathlib.Algebra.Group.Basic
import Mathlib.Data.Int.ModEq

/-!
# Responses in a group of finite exponent

In a commutative group that a number annihilates, a multiple depends on its factor only up to that number. A response
`k - c * x` closes the challenge `c` to the commitment `k`, whatever the base is.
-/

namespace Response

variable {G : Type} [AddCommGroup G] {order : Nat}

theorem zsmul_emod (hgroup : ∀ g : G, order • g = 0) (z : Int) (g : G) : (z % (order : Int)) • g = z • g := by
  have hzero : (z / (order : Int)) • (order : Int) • g = 0 := by
    rw [natCast_zsmul, hgroup g, zsmul_zero]
  calc (z % (order : Int)) • g
      = (z - z / (order : Int) * order) • g := by rw [mul_comm, ← Int.emod_def]
    _ = z • g - (z / (order : Int)) • (order : Int) • g := by rw [sub_zsmul, mul_zsmul, sub_eq_add_neg]
    _ = z • g := by rw [hzero, sub_zero]

/-- The response closes the challenge, over any base. -/
theorem closes (hgroup : ∀ g : G, order • g = 0) (hpos : 0 < order) (k c x : Nat) (g : G) :
    c • x • g + (((k : Int) - (c * x : Nat)) % order).toNat • g = k • g := by
  have hnonneg : 0 ≤ ((k : Int) - (c * x : Nat)) % order := Int.emod_nonneg _ (by omega)
  have hresponse : (((k : Int) - (c * x : Nat)) % order).toNat • g = k • g - (c * x) • g := by
    rw [← natCast_zsmul, Int.toNat_of_nonneg hnonneg, zsmul_emod hgroup, sub_zsmul, natCast_zsmul, natCast_zsmul,
      sub_eq_add_neg]
  rw [hresponse, ← mul_nsmul', add_sub_cancel]

end Response
