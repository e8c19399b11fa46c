import Mathlib.Tactic

/-! The cores of the machine. -/

namespace Takibi.Smp

abbrev kernelMaxCores : ℕ := 4
abbrev Cpu := Fin kernelMaxCores

scoped instance neZeroCores : NeZero kernelMaxCores := ⟨by decide⟩

end Takibi.Smp
