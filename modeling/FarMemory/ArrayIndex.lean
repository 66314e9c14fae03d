import Mathlib

/-!
# The flat index of a multi-dimensional array

`Array<T, Dims...>` keeps its elements in one `GenericArray` and computes the position of
an access by recursion over its dimensions. A dimension is a `uint64_t` constant and an index
any integer. The products of trailing dimensions wrap; the sums and products of the
index itself are signed, where an overflow is undefined and has no result here.
-/
namespace FarMemory.ArrayIndex

section RowMajor

/-- The position of a tuple when the last index varies fastest. -/
def rowMajor : List ℕ → List ℤ → ℤ
  | _ :: dims, i :: idx => i * (dims.prod : ℕ) + rowMajor dims idx
  | _, _ => 0

def InRange (dims : List ℕ) (idx : List ℤ) : Prop :=
  List.Forall₂ (fun (d : ℕ) i => 0 ≤ i ∧ i < (d : ℤ)) dims idx

theorem rowMajor_mem_Ico {dims : List ℕ} {idx : List ℤ} (h : InRange dims idx) :
    rowMajor dims idx ∈ Set.Ico 0 (dims.prod : ℤ) := by
  induction h with
  | nil => simp [rowMajor]
  | @cons d i dims idx hi _ ih =>
    obtain ⟨hnonneg,hlt⟩ := ih
    have hrow : (i+1)*(dims.prod : ℤ) ≤ d*dims.prod := mul_le_mul_of_nonneg_right hi.2 (by omega)
    have hstart : 0 ≤ i*(dims.prod : ℤ) := mul_nonneg hi.1 (by omega)
    rw [add_mul,one_mul] at hrow
    simp only [rowMajor,List.prod_cons,Nat.cast_mul,Set.mem_Ico]
    omega

theorem rowMajor_strictMonoOn (dims : List ℕ) : StrictMonoOn (rowMajor dims) {idx | InRange dims idx} := by
  induction dims with
  | nil =>
    intro x hx y hy hlt
    cases hx
    cases hy
    simp at hlt
  | cons d dims ih =>
    intro x hx y hy hlt
    cases hx with
    | @cons _ i _ x hi hx =>
      cases hy with
      | @cons _ j _ y hj hy =>
        rw [List.cons_lt_cons_iff] at hlt
        simp only [rowMajor]
        rcases hlt with hij | ⟨rfl,hxy⟩
        · -- the rows before row `j` end where it starts
          have hrow : (i+1)*(dims.prod : ℤ) ≤ j*dims.prod := mul_le_mul_of_nonneg_right hij (by omega)
          have hx := (rowMajor_mem_Ico hx).2
          have hy := (rowMajor_mem_Ico hy).1
          rw [add_mul,one_mul] at hrow
          omega
        · exact Int.add_lt_add_left (ih hx hy hxy) _

theorem exists_rowMajor_eq (dims : List ℕ) {n : ℤ} (hnonneg : 0 ≤ n) (hlt : n < dims.prod) :
    ∃ idx, InRange dims idx ∧ rowMajor dims idx = n := by
  induction dims generalizing n with
  | nil =>
    rw [List.prod_nil] at hlt
    exact ⟨[],.nil,by simp only [rowMajor]; omega⟩
  | cons d dims ih =>
    rw [List.prod_cons,Nat.cast_mul] at hlt
    have hpos : 0 < (dims.prod : ℤ) := by
      refine lt_of_le_of_ne (by omega) fun hzero => ?_
      rw [← hzero,mul_zero] at hlt
      omega
    obtain ⟨idx,hidx,heq⟩ := ih (Int.emod_nonneg n hpos.ne') (Int.emod_lt_of_pos n hpos)
    refine ⟨n/dims.prod::idx,.cons ⟨Int.ediv_nonneg hnonneg hpos.le,Int.ediv_lt_of_lt_mul hpos hlt⟩ hidx,?_⟩
    rw [rowMajor,heq]
    exact Int.ediv_mul_add_emod n _

end RowMajor

/-- The number of elements of the trailing dimensions. -/
def getDimSize : List UInt64 → UInt64
  | [] => 1
  | d :: dims => d * getDimSize dims

def sizes (dims : List UInt64) : List ℕ := dims.map UInt64.toNat

def toInt64 (x : ℤ) : ℤ := x.bmod (2^64)

/-- The result of a signed operation. -/
def signed (x : ℤ) : Option ℤ := if -2^63 ≤ x ∧ x < 2^63 then some x else none

/-- `Array::get_flat_idx`; it does not compile for another number of indices. -/
def getFlatIdx : List UInt64 → List ℤ → Option ℤ
  | [], [] => some 0
  | _ :: dims, i :: idx => do
    let row ← signed (toInt64 i * toInt64 (getDimSize dims).toNat)
    let rest ← getFlatIdx dims idx
    signed (row + toInt64 rest)
  | _, _ => none

theorem getDimSize_toNat (dims : List UInt64) : (getDimSize dims).toNat = (sizes dims).prod%2^64 := by
  induction dims with
  | nil => rfl
  | cons d dims ih =>
    rw [getDimSize,UInt64.toNat_mul,ih,Nat.mul_mod_mod]
    rfl

theorem toInt64_of_lt {x : ℤ} (hnonneg : 0 ≤ x) (hlt : x < 2^63) : toInt64 x = x :=
  Int.bmod_eq_of_le (by omega) (by omega)

theorem signed_of_lt {x : ℤ} (hnonneg : 0 ≤ x) (hlt : x < 2^63) : signed x = some x :=
  if_pos ⟨by omega,hlt⟩

theorem getFlatIdx_of_inRange {dims : List UInt64} {idx : List ℤ} (hsize : (sizes dims).prod < 2^63)
    (h : InRange (sizes dims) idx) : getFlatIdx dims idx = some (rowMajor (sizes dims) idx) := by
  induction dims generalizing idx with
  | nil =>
    cases h
    rfl
  | cons d dims ih =>
    have hpos := rowMajor_mem_Ico h
    cases h with
    | @cons _ i _ idx hi hidx =>
      have hidx : InRange (sizes dims) idx := hidx
      obtain ⟨hrest,hrestlt⟩ := rowMajor_mem_Ico hidx
      have hd : 1 ≤ d.toNat := by omega
      have hsuffix : (sizes dims).prod < 2^63 := by
        refine (Nat.le_mul_of_pos_left _ hd).trans_lt ?_
        simpa only [sizes,List.map_cons,List.prod_cons] using hsize
      have hrow : 0 ≤ i*((sizes dims).prod : ℤ) := mul_nonneg hi.1 (by omega)
      have hstep : i ≤ i*((sizes dims).prod : ℤ) := le_mul_of_one_le_right hi.1 (by omega)
      -- everything is at most the position itself, which is below the product
      have hlt : i*((sizes dims).prod : ℤ)+rowMajor (sizes dims) idx < 2^63 := hpos.2.trans (by exact_mod_cast hsize)
      have hdim : toInt64 (getDimSize dims).toNat = (sizes dims).prod := by
        rw [getDimSize_toNat,Nat.mod_eq_of_lt (by omega)]
        exact toInt64_of_lt (by omega) (by omega)
      rw [getFlatIdx,hdim,toInt64_of_lt hi.1 (by omega),signed_of_lt hrow (by omega),ih hsuffix hidx]
      simp only [Option.bind_eq_bind,Option.bind_some]
      rw [toInt64_of_lt hrest (by omega),signed_of_lt (by omega) hlt]
      rfl

/-- The flat index maps the tuples in range one to one onto the positions below the number
of elements, in lexicographic order. -/
theorem getFlatIdx_rowMajor (dims : List UInt64) (hsize : (sizes dims).prod < 2^63) :
    ∃ flat : List ℤ → ℤ, (∀ idx, InRange (sizes dims) idx → getFlatIdx dims idx = some (flat idx)) ∧
      Set.BijOn flat {idx | InRange (sizes dims) idx} (Set.Ico 0 (sizes dims).prod) ∧
      ∀ x y, InRange (sizes dims) x → InRange (sizes dims) y → (flat x < flat y ↔ x < y) := by
  have hmono := rowMajor_strictMonoOn (sizes dims)
  refine ⟨rowMajor (sizes dims),fun idx => getFlatIdx_of_inRange hsize,⟨fun idx => rowMajor_mem_Ico,hmono.injOn,?_⟩,
    fun x y hx hy => hmono.lt_iff_lt hx hy⟩
  rintro n ⟨hnonneg,hlt⟩
  exact exists_rowMajor_eq _ hnonneg hlt

theorem getFlatIdx_rowMajor_cube : ∃ flat : List ℤ → ℤ,
    (∀ idx, InRange (sizes [2,3,4]) idx → getFlatIdx [2,3,4] idx = some (flat idx)) ∧
      Set.BijOn flat {idx | InRange (sizes [2,3,4]) idx} (Set.Ico 0 (sizes [2,3,4]).prod) ∧
      ∀ x y, InRange (sizes [2,3,4]) x → InRange (sizes [2,3,4]) y → (flat x < flat y ↔ x < y) :=
  getFlatIdx_rowMajor [2,3,4] (by decide)

example : getFlatIdx [2,3,4] [1,2,3] = some 23 := by decide

end FarMemory.ArrayIndex
