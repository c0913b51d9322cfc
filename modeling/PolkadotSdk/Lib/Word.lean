import Mathlib

/-! # Unsigned words of a fixed width

A word of `width` bits is a natural number below `2 ^ width`. The checked operations answer
`none` where the word overflows, the saturating ones stop at the bounds of the word.
-/

namespace PolkadotSdk.Word

def checkedAdd (width a b : Nat) : Option Nat :=
  if a + b < 2 ^ width then some (a + b) else none

def checkedMul (width a b : Nat) : Option Nat :=
  if a * b < 2 ^ width then some (a * b) else none

def checkedSub (a b : Nat) : Option Nat :=
  if b ≤ a then some (a - b) else none

def checkedDivMod (a b : Nat) : Option (Nat × Nat) :=
  if b = 0 then none else some (a / b, a % b)

def maxValue (width : Nat) : Nat := 2 ^ width - 1

def saturate (width a : Nat) : Nat := min a (maxValue width)

theorem lt_two_pow_iff_le_maxValue {width a : Nat} : a < 2 ^ width ↔ a ≤ maxValue width := by
  have := Nat.two_pow_pos width
  unfold maxValue
  omega

theorem checkedAdd_of_lt {width a b : Nat} (h : a + b < 2 ^ width) :
    checkedAdd width a b = some (a + b) := if_pos h

theorem checkedMul_of_lt {width a b : Nat} (h : a * b < 2 ^ width) :
    checkedMul width a b = some (a * b) := if_pos h

theorem checkedSub_of_le {a b : Nat} (h : b ≤ a) : checkedSub a b = some (a - b) := if_pos h

theorem checkedDivMod_of_pos {a b : Nat} (h : 0 < b) :
    checkedDivMod a b = some (a / b, a % b) := if_neg (by omega)

theorem saturate_of_lt {width a : Nat} (h : a < 2 ^ width) : saturate width a = a :=
  min_eq_left (lt_two_pow_iff_le_maxValue.mp h)

theorem saturate_saturate_add (width a b : Nat) :
    saturate width (saturate width a + b) = saturate width (a + b) := by
  unfold saturate
  omega

end PolkadotSdk.Word
