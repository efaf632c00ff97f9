import ProCurrency.Store.TxDb

/-!
# Public keys

`CPubKey` (pubkey.h): the bytes of a key, the first of which gives their number.
-/

namespace ProCurrency

/-- The bytes of a key, none of an invalid one. -/
abbrev CPubKey := Bytes

namespace CPubKey

def getLen (chHeader : UInt8) : Nat :=
  if chHeader = 2 ∨ chHeader = 3 then 33 else if chHeader = 4 ∨ chHeader = 6 ∨ chHeader = 7 then 65 else 0

/-- `CPubKey::Set`. -/
def set (vch : Bytes) : CPubKey :=
  match vch with
  | [] => []
  | chHeader :: _ => if getLen chHeader ≠ 0 ∧ getLen chHeader = vch.length then vch else []

def isValid (pubkey : CPubKey) : Bool := 0 < pubkey.length

def isCompressed (pubkey : CPubKey) : Bool := pubkey.length = 33

end CPubKey

end ProCurrency
