import Mathlib.Algebra.Group.Nat.Defs

/-!
# The machine

The number of cores, and the difference of two 64-bit words.
-/
namespace FarMemory

abbrev kNumCPUs : ℕ := 20

def sub64 (a b : ℕ) : ℕ := if b ≤ a then a-b else a+2^64-b

end FarMemory
