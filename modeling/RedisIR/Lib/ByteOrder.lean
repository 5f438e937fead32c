import Mathlib

/-! Bytes in the order of their values. Lists of bytes are then ordered lexicographically, the order
of `memcmp` in which the shorter of two strings comes first if it is a beginning of the other. -/

namespace ByteOrder

scoped instance instByteLinearOrder : LinearOrder UInt8 where
  le_refl := UInt8.le_refl
  le_trans _ _ _ := UInt8.le_trans
  lt_iff_le_not_ge a b := by
    simp only [UInt8.lt_iff_toNat_lt, UInt8.le_iff_toNat_le]
    omega
  le_antisymm _ _ := UInt8.le_antisymm
  le_total := UInt8.le_total
  toDecidableLE := inferInstance
  toDecidableEq := inferInstance
  toDecidableLT := inferInstance

end ByteOrder
