import Mathlib

/-!
# A flat byte memory

Memory is a total function from addresses to cells. `store` copies a list of
cells to an address and `load` reads a number of cells back. A store is seen by
the load of the same cells and by no load of other ones. Sixteen-bit lengths are
kept in two cells, low byte first.
-/
namespace FarMemory.ByteStore
variable {α : Type*} {mem : ℕ → α} {a n : ℕ} {cells : List α}

def store (mem : ℕ → α) (a : ℕ) (cells : List α) : ℕ → α :=
  fun x => if a ≤ x then (cells[x-a]?).getD (mem x) else mem x

def load (mem : ℕ → α) (a n : ℕ) : List α := (List.range n).map fun i => mem (a+i)

@[simp] theorem load_length (mem : ℕ → α) (a n : ℕ) : (load mem a n).length = n := by
  simp [load]

theorem store_outside {x : ℕ} (h : x < a ∨ a+cells.length ≤ x) :
    store mem a cells x = mem x := by
  unfold store
  split
  · rw [List.getElem?_eq_none (by omega)]
    rfl
  · rfl

theorem store_inside {i : ℕ} (h : i < cells.length) :
    store mem a cells (a+i) = cells[i] := by
  simp [store,h]

theorem load_congr {mem' : ℕ → α} (h : ∀ i < n, mem' (a+i) = mem (a+i)) :
    load mem' a n = load mem a n := by
  unfold load
  refine List.map_congr_left ?_
  intro i hi
  exact h i (List.mem_range.mp hi)

theorem load_store (mem : ℕ → α) (a : ℕ) (cells : List α) :
    load (store mem a cells) a cells.length = cells := by
  refine List.ext_getElem (by simp) ?_
  intro i hi hi'
  simp [load,store_inside hi']

theorem load_store_outside {x : ℕ}
    (h : x+n ≤ a ∨ a+cells.length ≤ x) : load (store mem a cells) x n = load mem x n :=
  load_congr fun i hi => store_outside (by omega)

def encodeLen (n : ℕ) : List UInt8 := [UInt8.ofNat n,UInt8.ofNat (n/256)]

def decodeLen (mem : ℕ → UInt8) (a : ℕ) : ℕ := (mem a).toNat+256*(mem (a+1)).toNat

theorem decodeLen_store {mem : ℕ → UInt8} (h : n < 2^16) :
    decodeLen (store mem a (encodeLen n)) a = n := by
  have h0 : store mem a (encodeLen n) (a+0) = UInt8.ofNat n := store_inside (by simp [encodeLen])
  have h1 : store mem a (encodeLen n) (a+1) = UInt8.ofNat (n/256) :=
    store_inside (by simp [encodeLen])
  rw [Nat.add_zero] at h0
  rw [decodeLen,h0,h1]
  simp only [UInt8.toNat_ofNat']
  omega

theorem decodeLen_congr {mem mem' : ℕ → UInt8} (h0 : mem' a = mem a)
    (h1 : mem' (a+1) = mem (a+1)) : decodeLen mem' a = decodeLen mem a := by
  rw [decodeLen,decodeLen,h0,h1]

end FarMemory.ByteStore
