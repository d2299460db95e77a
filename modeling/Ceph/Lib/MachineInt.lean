import Mathlib.Order.Defs.LinearOrder
import Mathlib.Tactic

set_option autoImplicit false

/-! # Fixed-width integers as linear orders

The comparison operators of the fixed-width integer types are linear orders: unsigned types
in the order of `toNat`, signed types in the order of `toInt`. Sort keys store a signed
number as an unsigned one, shifted by half the range (`toUInt64_add_bias`,
`toUInt8_add_bias`), which turns the signed order into the unsigned one.
-/

namespace MachineInt

/-- The linear order of the comparison operators. -/
@[reducible] def linearOrder (α : Type) [LE α] [LT α] [DecidableLE α] [DecidableEq α]
    [Std.IsLinearOrder α] [Std.LawfulOrderLT α] : LinearOrder α where
  le_refl := Std.le_refl
  le_trans _ _ _ := Std.le_trans
  le_antisymm _ _ := Std.le_antisymm
  le_total _ _ := Std.le_total
  lt_iff_le_not_ge := Std.LawfulOrderLT.lt_iff
  toDecidableLE := inferInstance
  toDecidableEq := inferInstance

end MachineInt

instance UInt8.linearOrder : LinearOrder UInt8 := MachineInt.linearOrder UInt8

instance UInt32.linearOrder : LinearOrder UInt32 := MachineInt.linearOrder UInt32

instance UInt64.linearOrder : LinearOrder UInt64 := MachineInt.linearOrder UInt64

instance Int8.linearOrder : LinearOrder Int8 := MachineInt.linearOrder Int8

instance Int32.linearOrder : LinearOrder Int32 := MachineInt.linearOrder Int32

instance Int64.linearOrder : LinearOrder Int64 := MachineInt.linearOrder Int64

namespace MachineInt

/-- The order of sort keys. -/
@[reducible] def linearOrderOfKey {α κ : Type} [LinearOrder κ] [DecidableEq α] (key : α → κ)
    (hkey : Function.Injective key) : LinearOrder α where
  le a b := key a ≤ key b
  lt a b := key a < key b
  le_refl _ := le_rfl
  le_trans _ _ _ := le_trans
  lt_iff_le_not_ge _ _ := lt_iff_le_not_ge
  le_antisymm _ _ h h' := hkey (le_antisymm h h')
  le_total _ _ := le_total _ _
  toDecidableLE a b := inferInstanceAs (Decidable (key a ≤ key b))
  toDecidableLT a b := inferInstanceAs (Decidable (key a < key b))
  toDecidableEq := inferInstance

/-- Adding `2^63` to the two's complement bits of a signed number shifts its value. -/
theorem toUInt64_add_bias (x : Int64) :
    ((x.toUInt64 + 0x8000000000000000).toNat : Int) = x.toInt + 2 ^ 63 := by
  have hint : x.toInt = x.toBitVec.toInt := rfl
  have hnat : x.toUInt64.toNat = x.toBitVec.toNat := rfl
  rw [UInt64.toNat_add, hnat, hint, BitVec.toInt_eq_toNat_bmod]
  simp only [Int.bmod, UInt64.toNat_ofNat]
  omega

/-- Adding `2^7` to the two's complement bits of a signed byte shifts its value. -/
theorem toUInt8_add_bias (x : Int8) : ((x.toUInt8 + 0x80).toNat : Int) = x.toInt + 2 ^ 7 := by
  have hint : x.toInt = x.toBitVec.toInt := rfl
  have hnat : x.toUInt8.toNat = x.toBitVec.toNat := rfl
  rw [UInt8.toNat_add, hnat, hint, BitVec.toInt_eq_toNat_bmod]
  simp only [Int.bmod, UInt8.toNat_ofNat]
  omega

/-- **The biased encoding orders like the signed number.** -/
theorem toUInt64_add_bias_lt_iff (x y : Int64) :
    (x.toUInt64 + 0x8000000000000000).toNat < (y.toUInt64 + 0x8000000000000000).toNat
      ↔ x < y := by
  have hx := toUInt64_add_bias x
  have hy := toUInt64_add_bias y
  rw [Int64.lt_iff_toInt_lt]
  omega

theorem toUInt64_add_bias_inj (x y : Int64) :
    (x.toUInt64 + 0x8000000000000000).toNat = (y.toUInt64 + 0x8000000000000000).toNat
      ↔ x = y := by
  have hx := toUInt64_add_bias x
  have hy := toUInt64_add_bias y
  rw [← Int64.toInt_inj]
  omega

theorem toUInt8_add_bias_lt_iff (x y : Int8) : x.toUInt8 + 0x80 < y.toUInt8 + 0x80 ↔ x < y := by
  have hx := toUInt8_add_bias x
  have hy := toUInt8_add_bias y
  rw [Int8.lt_iff_toInt_lt, UInt8.lt_iff_toNat_lt]
  omega

theorem toUInt8_add_bias_inj (x y : Int8) : x.toUInt8 + 0x80 = y.toUInt8 + 0x80 ↔ x = y := by
  have hx := toUInt8_add_bias x
  have hy := toUInt8_add_bias y
  rw [← Int8.toInt_inj, ← UInt8.toNat_inj]
  omega

end MachineInt
