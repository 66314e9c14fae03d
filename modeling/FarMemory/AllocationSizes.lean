import FarMemory.RegionWalk

/-!
# How much an allocation reserves

Each entry point adds up the header, the data and the identifier of the object. The sum
passes through 16-bit parameters on its way to `Region::allocate_object`, which aligns it
and stores the result in 16 bits again. What the caller writes afterwards is the full
size.
-/
namespace FarMemory.AllocationSizes
open Execution Regions RegionWalk PointerMeta

/-- The entry points with their sizes: `allocate_unique_ptr` and `allocate_shared_ptr` of a
type, the two forms of `allocate_generic_unique_ptr`, and a hash-table entry that is new
or changes its length (`reallocate_generic_unique_ptr_nb`). -/
inductive Request
  | typed (size : ℕ)
  | generic (itemSize : ℕ) (idLen : Option ℕ)
  | entry (keyLen valLen : ℕ)
  | resized (keyLen valLen : ℕ)
  deriving DecidableEq

namespace Request

/-- The 16-bit item size that is passed on. -/
def itemSize : Request → ℕ
  | typed size => size
  | generic itemSize _ => itemSize
  | entry _ valLen => (kEvacNotifierMetaSize+valLen)%2^16
  | resized _ valLen => (kEvacNotifierMetaSize+valLen)%2^16

def idLen : Request → ℕ
  | typed _ => kVanillaPtrObjectIDSize
  | generic _ idLen => idLen.getD kVanillaPtrObjectIDSize
  | entry keyLen _ => keyLen
  | resized keyLen _ => keyLen

/-- The types of the parameters and the checks on the way: the data size is asserted
except when an entry is resized. -/
def Admitted : Request → Prop
  | typed size => size ≤ kMaxObjectDataSize
  | generic itemSize idLen => itemSize ≤ kMaxObjectDataSize ∧ idLen.getD kVanillaPtrObjectIDSize ≤ kMaxObjectIDSize
  | entry keyLen valLen => keyLen ≤ kMaxObjectIDSize ∧ valLen < 2^16 ∧ (entry keyLen valLen).itemSize ≤ kMaxObjectDataSize
  | resized keyLen valLen => keyLen ≤ kMaxObjectIDSize ∧ valLen < 2^16

instance : DecidablePred Admitted
  | typed _ => inferInstanceAs (Decidable (_ ≤ _))
  | generic _ _ => inferInstanceAs (Decidable (_ ∧ _))
  | entry _ _ => inferInstanceAs (Decidable (_ ∧ _ ∧ _))
  | resized _ _ => inferInstanceAs (Decidable (_ ∧ _))

def objectSize (q : Request) : ℕ := (kHeaderSize+q.itemSize+q.idLen)%2^16

/-- Header, data and identifier as they are written. -/
def needed : Request → ℕ
  | typed size => kHeaderSize+size+kVanillaPtrObjectIDSize
  | generic itemSize idLen => kHeaderSize+itemSize+idLen.getD kVanillaPtrObjectIDSize
  | entry keyLen valLen => kHeaderSize+(kEvacNotifierMetaSize+valLen)+keyLen
  | resized keyLen valLen => kHeaderSize+(kEvacNotifierMetaSize+valLen)+keyLen

/-- The space by which the region's first free byte moves. -/
def reserved (q : Request) : ℕ := alignTo q.objectSize 8 % 2^16

end Request

/-- Requests that succeed in one region. -/
def allocate (r : LocalRegion) (q : Request) : Option (ℕ × LocalRegion) := step r q.objectSize

section Sizes
variable {q : Request}

/-- Only the item size of an entry can wrap around, and then the entry is larger than any
16-bit number. -/
theorem needed_cases (h : q.Admitted) : q.needed = kHeaderSize+q.itemSize+q.idLen ∨ 2^16 ≤ q.needed := by
  cases q with
  | typed size => exact .inl rfl
  | generic itemSize idLen => exact .inl rfl
  | entry keyLen valLen =>
    simp only [Request.needed,Request.itemSize,Request.idLen]
    omega
  | resized keyLen valLen =>
    simp only [Request.needed,Request.itemSize,Request.idLen]
    omega

theorem reserved_lt (q : Request) : q.reserved < 2^16 := Nat.mod_lt _ (by decide)

/-- The seven sizes above the largest multiple of eight are rounded up to `2^16`. -/
theorem alignTo_top {n : ℕ} (hlow : 65528 < n) (hlt : n < 2^16) : alignTo n 8 % 2^16 = 0 := by
  have hround : alignTo n 8 = 2^16 := by
    unfold alignTo
    omega
  rw [hround,Nat.mod_self]

/-- The space is enough exactly up to the largest multiple of eight below `2^16`. -/
theorem needed_le_reserved_iff (h : q.Admitted) : q.needed ≤ q.reserved ↔ q.needed ≤ 65528 := by
  rcases needed_cases h with heq | hlarge
  swap
  · have := reserved_lt q
    omega
  have hpos : 0 < q.needed := by
    rw [heq,kHeaderSize]
    omega
  rcases Nat.lt_or_ge q.needed (2^16) with hlt | hge
  swap
  · have := reserved_lt q
    omega
  have hsize : q.objectSize = q.needed := by rw [Request.objectSize,← heq,Nat.mod_eq_of_lt hlt]
  rw [Request.reserved,hsize]
  constructor
  · intro hle
    by_contra hgt
    rw [alignTo_top (by omega) hlt] at hle
    omega
  · intro hle
    obtain ⟨hbound,-,hmod⟩ := alignTo_bounds hpos hle
    rwa [hmod]

end Sizes

section Runs
variable {r r' : LocalRegion} {q : Request} {a : ℕ} {tr : List (Request × ℕ)}

theorem allocate_bump (h : allocate r q = some (a,r')) : a = r.bufPtr+r.region.firstFreeByteIdx ∧
    r'.bufPtr+r'.region.firstFreeByteIdx = a+q.reserved := by
  obtain ⟨ub,hub⟩ : ∃ ub, r.region.updateBoundaries false = ub := ⟨_,rfl⟩
  obtain ⟨k,hk⟩ : ∃ k, q.reserved = k := ⟨_,rfl⟩
  obtain ⟨rfl,-,rfl⟩ := allocateObject_bump hk hub (returned_some h)
  rw [hk]
  exact ⟨rfl,(Nat.add_assoc _ _ _).symm⟩

/-- Later objects lie behind the first free byte, and the first of them at it. -/
theorem allocate_run (h : Trace allocate (fun _ q => q.Admitted) r tr r') :
    r.bufPtr+r.region.firstFreeByteIdx ≤ r'.bufPtr+r'.region.firstFreeByteIdx ∧
      (∀ x ∈ tr, r.bufPtr+r.region.firstFreeByteIdx ≤ x.2) ∧
      (tr = [] → r' = r) ∧ (tr ≠ [] → ∃ x ∈ tr, x.2 = r.bufPtr+r.region.firstFreeByteIdx) := by
  induction h with
  | nil => exact ⟨le_rfl,by simp,fun _ => rfl,fun h => absurd rfl h⟩
  | @snoc tr s s' q a ht _ hs ih =>
    obtain ⟨hle,hbehind,hstart,hfirst⟩ := ih
    obtain ⟨rfl,hnext⟩ := allocate_bump hs
    refine ⟨by omega,?_,by simp,?_⟩
    · intro x hx
      rcases List.mem_append.mp hx with hx | hx
      · exact hbehind x hx
      · rw [List.mem_singleton.mp hx]
        exact hle
    · intro _
      cases tr with
      | nil => exact ⟨_,List.mem_singleton_self _,by rw [hstart rfl]⟩
      | cons y tr =>
        obtain ⟨x,hx,heq⟩ := hfirst (List.cons_ne_nil _ _)
        exact ⟨x,List.mem_append_left _ hx,heq⟩

end Runs

/-- For every region, every request that is admitted and gets an address, and every
sequence of requests served by the same region afterwards: the space reserved holds the
object, and no later object overlaps it, exactly if header, data and identifier take at
most 65528 bytes. -/
theorem allocation_holds_iff {r r₁ : LocalRegion} {q : Request} {a : ℕ} (hq : q.Admitted)
    (ha : allocate r q = some (a,r₁)) :
    (q.needed ≤ q.reserved ↔ q.needed ≤ 65528) ∧
      ∀ tr r₂, Trace allocate (fun _ q => q.Admitted) r₁ tr r₂ → tr ≠ [] →
        ((∀ x ∈ tr, a+q.needed ≤ x.2) ↔ q.needed ≤ 65528) := by
  have hiff := needed_le_reserved_iff hq
  refine ⟨hiff,?_⟩
  intro tr r₂ ht hne
  obtain ⟨-,hbehind,-,hfirst⟩ := allocate_run ht
  obtain ⟨-,hnext⟩ := allocate_bump ha
  obtain ⟨y,hy,hstart⟩ := hfirst hne
  rw [← hiff]
  constructor
  · intro hall
    have := hall y hy
    omega
  · intro hle x hx
    have := hbehind x hx
    omega

theorem allocation_holds_vanilla : ∃ r a r₁, allocate r (.typed 100) = some (a,r₁) ∧
    (Request.typed 100).needed ≤ (Request.typed 100).reserved := by
  obtain ⟨⟨a,r₁⟩,ha⟩ : ∃ x, allocate (fresh 0 (fun _ => 0) false) (.typed 100) = some x := ⟨_,rfl⟩
  exact ⟨_,a,r₁,ha,(allocation_holds_iff (by decide) ha).1.mpr (by decide)⟩

/-- The largest data with the longest identifier: nothing is reserved, and the next object
gets the same address. -/
theorem allocation_of_nothing : (Request.generic kMaxObjectDataSize (some kMaxObjectIDSize)).Admitted ∧
    (Request.generic kMaxObjectDataSize (some kMaxObjectIDSize)).needed = 65535 ∧
    (Request.generic kMaxObjectDataSize (some kMaxObjectIDSize)).reserved = 0 ∧
    (exec allocate (fun _ q => q.Admitted) (fresh 0 (fun _ => 0) false)
      [.generic kMaxObjectDataSize (some kMaxObjectIDSize),.typed 8]).map Prod.fst = some [6,6] := by
  decide +kernel

end FarMemory.AllocationSizes
