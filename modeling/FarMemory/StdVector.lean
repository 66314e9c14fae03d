import Mathlib

/-!
# Contiguous vectors with a size and a capacity

A vector owns `capacity` consecutive cells of which the first `size` are its
elements. A cell holds `none` while its value is indeterminate: the storage is
allocated but was never written. A reallocation carries over the elements and
nothing else, whatever was stored in the cells behind them. The capacity chosen
by a reallocation is a parameter of which only the lower bound is known.
-/
namespace FarMemory.StdVector

/-- The capacities a library chooses: for an element count that outgrows the
vector, and for an explicit reservation. -/
structure Allocator where
  grow : ℕ → ℕ → ℕ
  reserve : ℕ → ℕ
  le_grow : ∀ size n, n ≤ grow size n
  le_reserve : ∀ n, n ≤ reserve n

/-- Doubling growth and exact reservations. -/
def Allocator.doubling : Allocator where
  grow size n := max (2*size) n
  reserve n := n
  le_grow _ _ := le_max_right _ _
  le_reserve _ := le_rfl

/-- What value-initialisation stores in a new element: a value, or nothing that
could be relied on if the type's default constructor writes nothing. -/
class ValueInit (α : Type*) where
  fresh : Option α

instance : ValueInit ℕ := ⟨some 0⟩

open ValueInit

structure Vec (α : Type*) where
  size : ℕ
  capacity : ℕ
  cells : ℕ → Option α
  fits : size ≤ capacity

variable {α : Type*} (al : Allocator)

namespace Vec

theorem new_fits : 0 ≤ 0 := le_rfl

def new : Vec α := ⟨0,0,fun _ => none,new_fits⟩

/-- Move the elements to fresh storage. -/
def reallocate (v : Vec α) (c : ℕ) (h : v.size ≤ c) : Vec α :=
  ⟨v.size,c,fun i => if i < v.size then v.cells i else none,h⟩

def reserve (v : Vec α) (n : ℕ) : Vec α :=
  if h : v.capacity < n then
    v.reallocate (al.reserve n) (v.fits.trans (h.le.trans (al.le_reserve n)))
  else v

/-- The elements added by growing are value-initialised. -/
def resize [ValueInit α] (v : Vec α) (n : ℕ) : Vec α :=
  if h : n ≤ v.capacity then
    ⟨n,v.capacity,fun i => if v.size ≤ i ∧ i < n then fresh else v.cells i,h⟩
  else
    ⟨n,al.grow v.size n,
      fun i => if i < v.size then v.cells i else if i < n then fresh else none,al.le_grow _ _⟩

def pushBack (v : Vec α) (x : Option α) : Vec α :=
  if h : v.size < v.capacity then
    ⟨v.size+1,v.capacity,Function.update v.cells v.size x,h⟩
  else
    ⟨v.size+1,al.grow v.size (v.size+1),
      fun i => if i < v.size then v.cells i else if i = v.size then x else none,al.le_grow _ _⟩

/-- Reading is unchecked against the size, but storage ends at the capacity. -/
def read (v : Vec α) (i : ℕ) : Option (Option α) :=
  if i < v.capacity then some (v.cells i) else none

def store (v : Vec α) (i : ℕ) (x : Option α) : Option (Vec α) :=
  if i < v.capacity then some ⟨v.size,v.capacity,Function.update v.cells i x,v.fits⟩ else none

section Sizes
variable (v : Vec α) (n i : ℕ) (x : Option α)

@[simp] theorem reserve_size : (v.reserve al n).size = v.size := by
  unfold reserve
  split <;> rfl

theorem le_reserve_capacity : n ≤ (v.reserve al n).capacity := by
  unfold reserve
  split
  · exact al.le_reserve n
  · omega

@[simp] theorem pushBack_size : (v.pushBack al x).size = v.size+1 := by
  unfold pushBack
  split <;> rfl

theorem pushBack_cells_last : (v.pushBack al x).cells v.size = x := by
  unfold pushBack
  split <;> simp

theorem pushBack_cells (h : i < v.size) : (v.pushBack al x).cells i = v.cells i := by
  unfold pushBack
  split
  · simp [Function.update_of_ne (show i ≠ v.size by omega)]
  · simp [h]

variable [ValueInit α]

@[simp] theorem resize_size : (v.resize al n).size = n := by
  unfold resize
  split <;> rfl

theorem capacity_le_resize : v.capacity ≤ (v.resize al n).capacity := by
  unfold resize
  split
  · exact le_rfl
  · have := al.le_grow v.size n
    simp only
    omega

theorem resize_capacity (h : n ≤ v.capacity) :
    (v.resize al n).capacity = v.capacity := by
  simp [resize,h]

theorem resize_cells_of_lt (h : i < v.size) : (v.resize al n).cells i = v.cells i := by
  unfold resize
  split
  · simp [show ¬v.size ≤ i by omega]
  · simp [h]

theorem resize_cells_new (h : v.size ≤ i) (hi : i < n) :
    (v.resize al n).cells i = fresh := by
  unfold resize
  split
  · simp [h,hi]
  · simp [show ¬i < v.size by omega,hi]

end Sizes

def elements (v : Vec α) : List (Option α) := (List.range v.size).map v.cells

theorem elements_pushBack (v : Vec α) (x : Option α) :
    (v.pushBack al x).elements = v.elements++[x] := by
  simp only [elements,pushBack_size,List.range_succ,List.map_append,List.map_cons,List.map_nil,
    pushBack_cells_last]
  congr 1
  apply List.map_congr_left
  intro i hi
  exact v.pushBack_cells al i x (List.mem_range.mp hi)

theorem elements_reserve_new (n : ℕ) : ((new : Vec α).reserve al n).elements = [] := by
  simp [elements,reserve_size,new]

theorem read_eq {v : Vec α} {i : ℕ} (h : i < v.capacity) : v.read i = some (v.cells i) := if_pos h

end Vec
end FarMemory.StdVector
