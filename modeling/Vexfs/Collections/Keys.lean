import Mathlib.Order.Defs.LinearOrder

/-!
# The order of the keys of a map

Machine integers are ordered as the numbers they stand for.
-/

namespace Vexfs

instance linearOrderUInt64 : LinearOrder UInt64 where
  le_refl := UInt64.le_refl
  le_trans _ _ _ := UInt64.le_trans
  le_antisymm _ _ := UInt64.le_antisymm
  le_total := UInt64.le_total
  lt_iff_le_not_ge _ _ := by rw [UInt64.not_le, and_iff_right_of_imp UInt64.le_of_lt]
  toDecidableLE := inferInstance
  toDecidableEq := inferInstance

end Vexfs
