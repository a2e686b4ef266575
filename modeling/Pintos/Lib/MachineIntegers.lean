import Mathlib.Tactic

/-!
# Conversions of machine integers

What the conversions between signed and unsigned integers of one width, and the widening of a signed
integer, do to the numbers.
-/

set_option autoImplicit false

namespace Pintos.Lib.MachineIntegers

/-- A 64-bit integer, signed and unsigned. -/
theorem toInt_eq_cond (v : Int64) : v.toInt =
    if v.toUInt64.toNat < 2 ^ 63 then (v.toUInt64.toNat : Int) else v.toUInt64.toNat - 2 ^ 64 := by
  have hcond : v.toInt = if 2 * v.toUInt64.toNat < 2 ^ 64 then (v.toUInt64.toNat : Int)
      else v.toUInt64.toNat - (2 ^ 64 : Nat) := BitVec.toInt_eq_toNat_cond v.toBitVec
  split_ifs <;> omega

/-- A 32-bit integer, widened and taken as unsigned. -/
theorem toInt_eq_widened (n : Int32) : n.toInt =
    if n.toInt64.toUInt64.toNat < 2 ^ 63 then (n.toInt64.toUInt64.toNat : Int)
    else n.toInt64.toUInt64.toNat - 2 ^ 64 := by
  rw [← Int32.toInt_toInt64]
  exact toInt_eq_cond n.toInt64

/-- The lower half of a word as a signed integer. -/
theorem toInt_of_lt {m : UInt64} (h : m.toNat < 2 ^ 31) : m.toUInt32.toInt32.toInt = m.toNat := by
  have hword : m.toUInt32.toNat = m.toNat := by
    rw [UInt64.toNat_toUInt32]
    omega
  rw [Int32.toInt, BitVec.toInt_eq_toNat_bmod]
  change Int.bmod (m.toUInt32.toNat : Int) (2 ^ 32) = _
  rw [hword, Int.bmod_eq_of_le] <;> omega

end Pintos.Lib.MachineIntegers
