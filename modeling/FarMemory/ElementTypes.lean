import FarMemory.Aggregation
import FarMemory.TimeKeys

/-!
# The element types of a column

Integral types of either sign, doubles and times, each with its order, its
`numeric_limits` and the half sum that the median uses. Integral arithmetic is done in
`int` for the narrower types and wraps around in two's complement. Doubles are an ordered
set: the rationals with both infinities, of which the representable ones are a part.
`numeric_limits` is not specialised for times, so both limits are `SimpleTime()`, whose
fields the constructor leaves as they are in memory.
-/
namespace FarMemory.DataFrame
open TimeKeys

structure IntegralType where
  signed : Bool
  width : ℕ
  standard : width = 8 ∨ width = 16 ∨ width = 32 ∨ width = 64

namespace IntegralType

def limitMin (t : IntegralType) : ℤ := if t.signed then -2^(t.width-1) else 0

def limitMax (t : IntegralType) : ℤ := t.limitMin+2^t.width-1

def Value (t : IntegralType) : Type := {x : ℤ // t.limitMin ≤ x ∧ x ≤ t.limitMax}

instance (t : IntegralType) : LinearOrder t.Value := inferInstanceAs (LinearOrder (Subtype _))

/-- Arithmetic on types narrower than `int` is done in `int`. -/
def promoted (t : IntegralType) : IntegralType := if t.width < 32 then ⟨true,32,.inr (.inr (.inl rfl))⟩ else t

/-- The value of the type that a number is congruent to. -/
def wrap (t : IntegralType) (x : ℤ) : ℤ := (x-t.limitMin)%2^t.width+t.limitMin

theorem pow_width_pos (t : IntegralType) : (0 : ℤ) < 2^t.width := by positivity

theorem wrap_mem (t : IntegralType) (x : ℤ) : t.limitMin ≤ t.wrap x ∧ t.wrap x ≤ t.limitMax := by
  have hlo := Int.emod_nonneg (x-t.limitMin) t.pow_width_pos.ne'
  unfold wrap limitMax
  omega

theorem wrap_of_mem {t : IntegralType} {x : ℤ} (hlo : t.limitMin ≤ x) (hhi : x ≤ t.limitMax) : t.wrap x = x := by
  unfold limitMax at hhi
  rw [wrap,Int.emod_eq_of_lt (by omega) (by omega)]
  omega

/-- `(a + b) / 2` with the result converted back to the type. -/
def halfSum (t : IntegralType) (a b : t.Value) : t.Value :=
  ⟨t.wrap ((t.promoted.wrap (a.val+b.val)).tdiv 2),t.wrap_mem _⟩

theorem limitMin_le_limitMax (t : IntegralType) : t.limitMin ≤ t.limitMax := by
  have := t.pow_width_pos
  unfold limitMax
  omega

instance (t : IntegralType) : Numeric t.Value where
  limitMin := ⟨t.limitMin,le_rfl,t.limitMin_le_limitMax⟩
  limitMax := ⟨t.limitMax,t.limitMin_le_limitMax,le_rfl⟩
  halfSum := t.halfSum

end IntegralType

abbrev Double : Type := WithBot (WithTop ℚ)

namespace Double

def finite (x : ℚ) : Double := ((x : WithTop ℚ) : WithBot (WithTop ℚ))

/-- `numeric_limits<double>::min()`: the smallest positive normal number. -/
def limitMin : Double := finite (1/2^1022)

/-- `numeric_limits<double>::max()`. -/
def limitMax : Double := finite ((2-1/2^52)*2^1023)

end Double

/-- An element type with what the source leaves open: how a sum of doubles is rounded, and
what memory a time is constructed in. -/
inductive ElementType
  | integral (t : IntegralType)
  | double (halfSum : Double → Double → Double)
  | simpleTime (memory : SimpleTime)

namespace ElementType

def Value : ElementType → Type
  | .integral t => t.Value
  | .double _ => Double
  | .simpleTime _ => SimpleTime

instance : (e : ElementType) → LinearOrder e.Value
  | .integral t => inferInstanceAs (LinearOrder t.Value)
  | .double _ => inferInstanceAs (LinearOrder Double)
  | .simpleTime _ => inferInstanceAs (LinearOrder SimpleTime)

/-- Times cannot be added, so their median is the upper of the two middle elements. -/
instance : (e : ElementType) → Numeric e.Value
  | .integral t => inferInstanceAs (Numeric t.Value)
  | .double halfSum => ⟨Double.limitMin,Double.limitMax,halfSum⟩
  | .simpleTime memory => ⟨memory,memory,fun upper _ => upper⟩

end ElementType

end FarMemory.DataFrame
