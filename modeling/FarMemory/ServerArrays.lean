import FarMemory.ByteStore
import FarMemory.Execution

/-!
# The items of a server array

`ServerArray` keeps its items in one vector of bytes, whose length is a product of two
machine integers. The object interface and the method `Read` address it by index times
item size; `Read` compares the index with the length of the vector. A copy from or to
bytes beyond the vector has no outcome here.
-/
namespace FarMemory.ServerArrays
open ByteStore Execution Function

structure ServerArray where
  numItems : UInt64
  itemSize : UInt32
  size : ℕ
  vec : ℕ → UInt8

/-- The vector throws if it is asked for more than it can address. -/
def construct (numItems : UInt64) (itemSize : UInt32) : Option ServerArray :=
  let size := (numItems*itemSize.toUInt64).toNat
  if size < 2^63 then some ⟨numItems,itemSize,size,fun _ => 0⟩ else none

/-- The offset of an item in the vector. -/
def ServerArray.itemData (a : ServerArray) (index : UInt64) : ℕ := (index*a.itemSize.toUInt64).toNat

def ServerArray.copyFrom (a : ServerArray) (pos len : ℕ) : Option (List UInt8) :=
  if len = 0 ∨ pos+len ≤ a.size then some (load a.vec pos len) else none

/-- The length is narrowed to 16 bits, the copy is not. -/
def ServerArray.readObject (a : ServerArray) (index : UInt64) : Option (ℕ × List UInt8) :=
  (a.copyFrom (a.itemData index) a.itemSize.toNat).map fun data => (a.itemSize.toNat%2^16,data)

def ServerArray.writeObject (a : ServerArray) (index : UInt64) (data : List UInt8) : Option ServerArray :=
  if data.length = 0 ∨ a.itemData index+data.length ≤ a.size then
    some {a with vec := store a.vec (a.itemData index) data}
  else none

def ServerArray.read (a : ServerArray) (index : UInt64) : Option (List UInt8) :=
  if index.toNat ≥ a.size then some []
  else a.copyFrom (a.itemData index) a.itemSize.toNat

def step (a : ServerArray) (w : UInt64 × List UInt8) : Option (Unit × ServerArray) :=
  (a.writeObject w.1 w.2).map fun a => ((),a)

/-- An index of the array and an item of its size; the length of the data is a 16-bit number. -/
def Legal (a : ServerArray) (w : UInt64 × List UInt8) : Prop :=
  w.1 < a.numItems ∧ w.2.length = a.itemSize.toNat ∧ w.2.length < 2^16

instance (a : ServerArray) (w : UInt64 × List UInt8) : Decidable (Legal a w) :=
  inferInstanceAs (Decidable (_ ∧ _ ∧ _))

/-- The items as the writes leave them, zero at first. -/
def lastWritten (itemSize : UInt32) (tr : List ((UInt64 × List UInt8) × Unit)) : UInt64 → List UInt8 :=
  tr.foldl (fun items w => update items w.1.1 w.1.2) fun _ => List.replicate itemSize.toNat 0

/-- `Read` returns the item, or nothing if there is none with this index. -/
def Agrees (a : ServerArray) (items : UInt64 → List UInt8) (index : UInt64) : Prop :=
  a.read index = some (if index < a.numItems then items index else [])

instance (a : ServerArray) (items : UInt64 → List UInt8) (index : UInt64) : Decidable (Agrees a items index) :=
  inferInstanceAs (Decidable (_ = _))

section Layout
variable {a a' : ServerArray} {items : UInt64 → List UInt8} {index : UInt64} {data : List UInt8}

theorem toNat_product (x : UInt64) (k : UInt32) : (x*k.toUInt64).toNat = x.toNat*k.toNat%2^64 := by
  rw [UInt64.toNat_mul,UInt32.toNat_toUInt64]

/-- The items have their size, and the vector holds them unless the product of its length
has wrapped around. -/
structure Holds (a : ServerArray) (items : UInt64 → List UInt8) : Prop where
  size : a.size = a.numItems.toNat*a.itemSize.toNat%2^64
  sized : ∀ i, (items i).length = a.itemSize.toNat
  held : a.numItems.toNat*a.itemSize.toNat < 2^64 → ∀ i < a.numItems,
    load a.vec (i.toNat*a.itemSize.toNat) a.itemSize.toNat = items i

theorem construct_holds {numItems : UInt64} {itemSize : UInt32} (h : construct numItems itemSize = some a) :
    a.numItems = numItems ∧ a.itemSize = itemSize ∧ Holds a fun _ => List.replicate itemSize.toNat 0 := by
  unfold construct at h
  obtain ⟨-,h⟩ := Option.ite_none_right_eq_some.mp h
  cases h
  refine ⟨rfl,rfl,toNat_product _ _,fun _ => List.length_replicate,fun _ i _ => ?_⟩
  simp [load,List.map_const']

/-- Without wrap-around an item starts at its index times the size and ends within the
vector. -/
theorem item_bounds (hsmall : a.numItems.toNat*a.itemSize.toNat < 2^64) (hi : index < a.numItems) :
    a.itemData index = index.toNat*a.itemSize.toNat ∧
      index.toNat*a.itemSize.toNat+a.itemSize.toNat ≤ a.numItems.toNat*a.itemSize.toNat := by
  have hlt : index.toNat+1 ≤ a.numItems.toNat := UInt64.lt_iff_toNat_lt.mp hi
  have hle := Nat.mul_le_mul_right a.itemSize.toNat hlt
  rw [Nat.succ_mul] at hle
  refine ⟨?_,hle⟩
  rw [ServerArray.itemData,toNat_product,Nat.mod_eq_of_lt (by omega)]

theorem items_apart {i j k : ℕ} (h : i ≠ j) : i*k+k ≤ j*k ∨ j*k+k ≤ i*k := by
  rcases Nat.lt_or_gt_of_ne h with hlt | hgt
  · exact .inl (by simpa [Nat.succ_mul] using Nat.mul_le_mul_right k hlt)
  · exact .inr (by simpa [Nat.succ_mul] using Nat.mul_le_mul_right k hgt)

theorem Holds.write (h : Holds a items) (hl : Legal a (index,data)) (hw : a.writeObject index data = some a') :
    a'.numItems = a.numItems ∧ a'.itemSize = a.itemSize ∧ Holds a' (update items index data) := by
  obtain ⟨hindex,hlen,-⟩ : index < a.numItems ∧ data.length = a.itemSize.toNat ∧ data.length < 2^16 := hl
  obtain ⟨-,hw⟩ := Option.ite_none_right_eq_some.mp hw
  cases hw
  refine ⟨rfl,rfl,h.size,?_,?_⟩
  · intro i
    rcases eq_or_ne i index with rfl | hne
    · rw [update_self]
      exact hlen
    · rw [update_of_ne hne]
      exact h.sized i
  · intro hsmall i hi
    dsimp only at hsmall hi ⊢
    rw [(item_bounds hsmall hindex).1]
    rcases eq_or_ne i index with rfl | hne
    · rw [update_self,← hlen]
      exact load_store _ _ _
    · rw [update_of_ne hne,← h.held hsmall i hi]
      apply load_store_outside
      rw [hlen]
      exact items_apart fun heq => hne (UInt64.toNat_inj.mp heq)

theorem holds_run {a₀ : ServerArray} {tr : List ((UInt64 × List UInt8) × Unit)}
    (h₀ : Holds a₀ fun _ => List.replicate a₀.itemSize.toNat 0) (h : Trace step Legal a₀ tr a) :
    a.numItems = a₀.numItems ∧ a.itemSize = a₀.itemSize ∧ Holds a (lastWritten a₀.itemSize tr) := by
  refine h.simulation (I := fun a items => a.numItems = a₀.numItems ∧ a.itemSize = a₀.itemSize ∧ Holds a items)
    ⟨rfl,rfl,h₀⟩ ?_
  rintro s items ⟨index,data⟩ _ s' hok ⟨hn,hk,hs⟩ hstep
  obtain ⟨a',hw,⟨⟩⟩ := Option.map_eq_some_iff.mp hstep
  obtain ⟨hn',hk',hs'⟩ := hs.write hok hw
  exact ⟨hn'.trans hn,hk'.trans hk,hs'⟩

theorem copy_empty {c : Prop} [Decidable c] {mem : ℕ → UInt8} {pos len : ℕ}
    (h : (if c then some (load mem pos len) else none) = some []) : len = 0 := by
  obtain ⟨-,h⟩ := Option.ite_none_right_eq_some.mp h
  rw [← load_length mem pos len,Option.some.inj h]
  rfl

/-- The indices on which `Read` is right: those of the array, and those beyond the length
of the vector in bytes. -/
theorem Holds.agrees_iff (h : Holds a items) (hsmall : a.numItems.toNat*a.itemSize.toNat < 2^64) :
    Agrees a items index ↔ index < a.numItems ∨ a.numItems.toNat*a.itemSize.toNat ≤ index.toNat := by
  have hsize : a.size = a.numItems.toNat*a.itemSize.toNat := by rw [h.size,Nat.mod_eq_of_lt hsmall]
  unfold Agrees ServerArray.read ServerArray.copyFrom
  rw [hsize]
  by_cases hi : index < a.numItems
  · obtain ⟨hpos,hend⟩ := item_bounds hsmall hi
    simp only [hi,if_true,true_or,iff_true,hpos]
    rcases Nat.eq_zero_or_pos a.itemSize.toNat with hzero | hsome
    · have hnil : items index = [] := List.length_eq_zero_iff.mp ((h.sized index).trans hzero)
      rw [hnil,hzero,if_pos (by omega)]
    · have hlt : index.toNat < a.numItems.toNat := UInt64.lt_iff_toNat_lt.mp hi
      have hle := Nat.le_mul_of_pos_right a.numItems.toNat hsome
      rw [if_neg (by omega),if_pos (.inr hend),h.held hsmall index hi]
  · simp only [hi,if_false,false_or]
    constructor
    · intro hread
      by_contra hlt
      rw [not_le] at hlt
      have hsome : a.itemSize.toNat ≠ 0 := by
        intro hzero
        rw [hzero] at hlt
        omega
      rw [if_neg (by omega)] at hread
      exact hsome (copy_empty hread)
    · intro hge
      rw [if_pos hge]

theorem Holds.readObject (h : Holds a items) (hsmall : a.numItems.toNat*a.itemSize.toNat < 2^64)
    (hi : index < a.numItems) : a.readObject index = some (a.itemSize.toNat%2^16,items index) := by
  obtain ⟨hpos,hend⟩ := item_bounds hsmall hi
  rw [← Nat.mod_eq_of_lt hsmall,← h.size] at hend
  rw [ServerArray.readObject,ServerArray.copyFrom,hpos,if_pos (.inr hend),h.held hsmall index hi]
  rfl

/-- If the product wraps around, the first item that does not lie within the vector is not
returned. -/
theorem Holds.wrapped (h : Holds a items) (hlarge : 2^64 ≤ a.numItems.toNat*a.itemSize.toNat) :
    ∃ index, ¬ Agrees a items index := by
  have hN := a.numItems.toNat_lt
  have hsome : 0 < a.itemSize.toNat := Nat.pos_of_ne_zero (by
    intro hzero
    rw [hzero] at hlarge
    omega)
  have hsize : a.size < 2^64 := by
    rw [h.size]
    exact Nat.mod_lt _ (by decide)
  have hfirst : a.size/a.itemSize.toNat < a.numItems.toNat :=
    Nat.div_lt_of_lt_mul (by rw [Nat.mul_comm]; omega)
  have hdiv := Nat.div_mul_le_self a.size a.itemSize.toNat
  have hend := Nat.lt_div_mul_add (a := a.size) hsome
  refine ⟨UInt64.ofNat (a.size/a.itemSize.toNat),?_⟩
  have hindex : (UInt64.ofNat (a.size/a.itemSize.toNat)).toNat = a.size/a.itemSize.toNat :=
    UInt64.toNat_ofNat_of_lt' (hfirst.trans hN)
  have hlt : UInt64.ofNat (a.size/a.itemSize.toNat) < a.numItems :=
    UInt64.lt_iff_toNat_lt.mpr (by rwa [hindex])
  unfold Agrees ServerArray.read ServerArray.copyFrom ServerArray.itemData
  rw [if_pos hlt,toNat_product,hindex,Nat.mod_eq_of_lt (by omega)]
  split
  · intro hread
    have := congrArg List.length (Option.some.inj hread)
    rw [h.sized,List.length_nil] at this
    omega
  · rw [if_neg (by omega)]
    exact Option.some_ne_none _ ∘ Eq.symm

end Layout

/-- `Read` after any legal writes to an array that was constructed: if the length of the
vector did not wrap around, the indices on which it agrees with the writes are those below
the number of items and those that are not below the number of bytes; if it did, some
index of the array disagrees. The object interface reads back what was written. -/
theorem read_agrees_iff {numItems : UInt64} {itemSize : UInt32} {a₀ a : ServerArray}
    {tr : List ((UInt64 × List UInt8) × Unit)} (hc : construct numItems itemSize = some a₀)
    (ht : Trace step Legal a₀ tr a) :
    (numItems.toNat*itemSize.toNat < 2^64 → ∀ index,
      (Agrees a (lastWritten itemSize tr) index ↔ index < numItems ∨ numItems.toNat*itemSize.toNat ≤ index.toNat) ∧
      (index < numItems → a.readObject index = some (itemSize.toNat%2^16,lastWritten itemSize tr index))) ∧
    (2^64 ≤ numItems.toNat*itemSize.toNat → ∃ index, ¬ Agrees a (lastWritten itemSize tr) index) := by
  obtain ⟨rfl,rfl,h₀⟩ := construct_holds hc
  obtain ⟨hn,hk,h⟩ := holds_run h₀ ht
  rw [← hn,← hk] at *
  exact ⟨fun hsmall index => ⟨h.agrees_iff hsmall,h.readObject hsmall⟩,fun hlarge => h.wrapped hlarge⟩

/-- Three items of two bytes: the three indices behind the last item do not agree. -/
theorem read_agrees_three : ∃ a₀ a tr, construct 3 2 = some a₀ ∧ Trace step Legal a₀ tr a ∧
    (∀ index, Agrees a (lastWritten 2 tr) index ↔ index < 3 ∨ 6 ≤ index.toNat) ∧
      a.read 1 = some [7,8] ∧ a.read 6 = some [] := by
  obtain ⟨a₀,hc⟩ : ∃ a₀, construct 3 2 = some a₀ := ⟨_,rfl⟩
  have hrun : (exec step Legal a₀ [(1,[5,6]),(2,[1,2]),(1,[7,8])]).map
      (fun r => (r.1,r.2.read 1,r.2.read 6)) = some ([(),(),()],some [7,8],some []) := by
    cases hc
    decide +kernel
  obtain ⟨outs,a,ht,hobs⟩ := exec_observe hrun
  simp only [Prod.mk.injEq] at hobs
  obtain ⟨rfl,hread,hbehind⟩ := hobs
  exact ⟨a₀,a,_,hc,ht,fun index => ((read_agrees_iff hc ht).1 (by decide) index).1,hread,hbehind⟩

/-- An array of ten items of four bytes takes the index 10 for one of its bytes and copies
what lies behind the vector. -/
theorem read_behind_vector : ∃ a, construct 10 4 = some a ∧ a.itemData 10 = a.size ∧ a.read 10 = none ∧
    ¬ Agrees a (lastWritten 4 []) 10 := by
  refine ⟨_,rfl,by decide,by decide,?_⟩
  exact fun h => absurd h (by decide)

end FarMemory.ServerArrays
