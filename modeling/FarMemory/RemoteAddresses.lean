import FarMemory.Execution
import FarMemory.Regions

/-!
# Addresses of far-memory objects

`allocate_remote_object` bumps the region of the calling core and refills it from the
free regions. The server's buffer has exactly `far_mem_size` bytes, while the manager
rounds the size up to whole regions. The rounded part is never handed out: the
constructor keeps back `2 * kNumSocket1CPUs` regions for the cores but gives two each
to only `kNumCPUs` of them, so the last eight regions do not exist.
-/
namespace FarMemory.RemoteAddresses
open Execution Regions PointerMeta

/-- `ceil(size / static_cast<double>(Region::kSize))`: the quotient is exact for every
size that passes the check of `FarMemManager`. -/
def regionCount (size : ℕ) : ℕ := (size+kSize-1)/kSize

/-- The far-memory manager. `RegionManager` exits when it has too few regions, and
`FarMemManager` aborts when the size does not fit an object id. -/
def construct (farMemSize : ℕ) : Option Manager :=
  if regionCount farMemSize ≤ 2*kNumSocket1CPUs then none
  else if farMemSize ≥ 2^kObjectIDBitSize then none
  else some (Manager.build false 0 (regionCount farMemSize))

structure Call where
  core : ℕ
  nt : Bool
  objectSize : ℕ
  deriving DecidableEq

/-- A call that finds no free region waits for a collector that far memory does not
have; it has no step. -/
def step (m : Manager) (c : Call) : Option (ℕ × Manager) :=
  match m.allocate c.core c.nt c.objectSize with
  | (some a,m') => some (a,m')
  | (none,_) => none

def Sized (_ : Manager) (c : Call) : Prop := 1 ≤ c.objectSize ∧ c.objectSize ≤ 65528

instance (m : Manager) (c : Call) : Decidable (Sized m c) := inferInstanceAs (Decidable (_ ∧ _))

def interval (x : Call × ℕ) : Set ℕ := Set.Ico x.2 (x.2+x.1.objectSize)

/-! ### What is handed out -/

/-- An object lies below the first free byte of one of the `n` regions. -/
def Carved (n : ℕ) (m : Manager) (x : Call × ℕ) : Prop :=
  ∃ i off, i < n ∧ x.2 = i*kSize+off ∧ off+x.1.objectSize ≤ (m.regions i).firstFreeByteIdx

/-- All `n` regions that may still be opened start at their index; what has been handed
out lies below the first free bytes. -/
structure Handed (n : ℕ) (m : Manager) (tr : List (Call × ℕ)) : Prop where
  base : m.base = 0
  free : ∀ i ∈ m.freeRegions, i < n
  core : ∀ c nt, (m.coreLocal c nt).valid = true → (m.coreLocal c nt).buf < n
  full : ∀ i, (m.regions i).firstFreeByteIdx ≤ kSize
  carved : ∀ x ∈ tr, Carved n m x
  apart : tr.Pairwise fun x y => Disjoint (interval x) (interval y)

section Handed
variable {n : ℕ} {m m' : Manager} {tr : List (Call × ℕ)}

theorem disjoint_interval {x y : Call × ℕ} (h : x.2+x.1.objectSize ≤ y.2 ∨ y.2+y.1.objectSize ≤ x.2) :
    Disjoint (interval x) (interval y) := by
  rw [interval,interval,Set.Ico_disjoint_Ico]
  rcases h with h | h
  · exact (min_le_left _ _).trans (h.trans (le_max_right _ _))
  · exact (min_le_right _ _).trans (h.trans (le_max_left _ _))

theorem Handed.congr (h : Handed n m tr) (hbase : m'.base = m.base)
    (hfree : ∀ i ∈ m'.freeRegions, i ∈ m.freeRegions)
    (hcore : ∀ c nt, (m'.coreLocal c nt).valid = true →
      (m'.coreLocal c nt).buf ∈ m.freeRegions ∨ m'.coreLocal c nt = m.coreLocal c nt)
    (hbytes : ∀ i, (m'.regions i).firstFreeByteIdx = (m.regions i).firstFreeByteIdx) : Handed n m' tr := by
  refine ⟨hbase.trans h.base,fun i hi => h.free i (hfree i hi),?_,?_,?_,h.apart⟩
  · intro c nt hv
    rcases hcore c nt hv with hi | he
    · exact h.free _ hi
    · rw [he] at hv ⊢
      exact h.core c nt hv
  · intro i
    rw [hbytes]
    exact h.full i
  · intro x hx
    obtain ⟨i,off,hi,ha,hoff⟩ := h.carved x hx
    exact ⟨i,off,hi,ha,by rwa [hbytes]⟩

theorem setRegion_bytes {i : ℕ} {r : Region} (hr : r.firstFreeByteIdx = (m.regions i).firstFreeByteIdx)
    (j : ℕ) : ((m.setRegion i r).regions j).firstFreeByteIdx = (m.regions j).firstFreeByteIdx := by
  by_cases hj : j = i
  · subst hj
    simpa [Manager.setRegion] using hr
  · rw [Manager.setRegion_other r hj]

theorem updateBoundaries_bytes (r : Region) (force : Bool) :
    (r.updateBoundaries force).firstFreeByteIdx = r.firstFreeByteIdx := by
  unfold Region.updateBoundaries
  split <;> rfl

theorem Handed.bump (h : Handed n m tr) {i size : ℕ} {r : Region} {c : Call} (hi : i < n)
    (hsize : c.objectSize ≤ size) (hfit : (m.regions i).firstFreeByteIdx+size ≤ kSize)
    (hr : r.firstFreeByteIdx = (m.regions i).firstFreeByteIdx+size) :
    Handed n (m.setRegion i r) (tr++[(c,m.addr i (m.regions i).firstFreeByteIdx)]) := by
  have hself : ((m.setRegion i r).regions i).firstFreeByteIdx = (m.regions i).firstFreeByteIdx+size := by
    simpa [Manager.setRegion] using hr
  have hmono : ∀ j, (m.regions j).firstFreeByteIdx ≤ ((m.setRegion i r).regions j).firstFreeByteIdx := by
    intro j
    by_cases hj : j = i
    · subst hj
      rw [hself]
      omega
    · rw [Manager.setRegion_other r hj]
  have haddr : m.addr i (m.regions i).firstFreeByteIdx = i*kSize+(m.regions i).firstFreeByteIdx := by
    rw [Manager.addr,h.base,Nat.zero_add]
  refine ⟨h.base,h.free,h.core,?_,?_,?_⟩
  · intro j
    by_cases hj : j = i
    · subst hj
      rw [hself]
      exact hfit
    · rw [Manager.setRegion_other r hj]
      exact h.full j
  · intro x hx
    rcases List.mem_append.mp hx with hx | hx
    · obtain ⟨j,off,hj,ha,hoff⟩ := h.carved x hx
      exact ⟨j,off,hj,ha,hoff.trans (hmono j)⟩
    · rw [List.mem_singleton.mp hx]
      refine ⟨i,_,hi,haddr,?_⟩
      rw [hself]
      exact Nat.add_le_add_left hsize _
  · refine List.pairwise_append.mpr ⟨h.apart,List.pairwise_singleton _ _,?_⟩
    intro x hx y hy
    rw [List.mem_singleton.mp hy]
    obtain ⟨j,off,-,ha,hoff⟩ := h.carved x hx
    have hfull := h.full j
    apply disjoint_interval
    simp only [haddr,ha]
    rcases Nat.lt_trichotomy j i with hlt | rfl | hlt
    · have hmul : (j+1)*kSize ≤ i*kSize := Nat.mul_le_mul_right _ hlt
      rw [Nat.add_mul,Nat.one_mul] at hmul
      omega
    · omega
    · have hmul : (i+1)*kSize ≤ j*kSize := Nat.mul_le_mul_right _ hlt
      rw [Nat.add_mul,Nat.one_mul] at hmul
      omega

theorem Handed.allocateObject (h : Handed n m tr) {c : Call} (hc : Sized m c) :
    match m.allocateObject c.core c.nt c.objectSize with
    | (some a,m') => Handed n m' (tr++[(c,a)])
    | (none,m') => Handed n m' tr := by
  obtain ⟨hle,-,hmod⟩ := alignTo_bounds hc.1 hc.2
  unfold Manager.allocateObject
  rw [hmod]
  by_cases hv : (m.coreLocal c.core c.nt).valid = true
  · by_cases hfit : (m.regions (m.coreLocal c.core c.nt).buf).firstFreeByteIdx+alignTo c.objectSize 8 > kSize
    · simp only [hv,hfit,if_true]
      exact h.congr rfl (fun _ hi => hi) (fun _ _ _ => .inr rfl)
        (setRegion_bytes (updateBoundaries_bytes _ true))
    · simp only [hv,hfit,if_true,if_false]
      exact h.bump (h.core _ _ hv) hle (by omega) rfl
  · simp only [hv]
    exact h

theorem Handed.tryRefill (h : Handed n m tr) (core : ℕ) (nt : Bool) : Handed n (m.tryRefill core nt).2 tr := by
  have hpush : Handed n (m.pushFull core nt) tr := by
    unfold Manager.pushFull
    by_cases hv : (m.coreLocal core nt).valid = true
    · simp only [hv,if_true]
      split
      all_goals
        refine h.congr rfl (fun _ hi => hi) ?_ fun _ => rfl
        intro c t hct
        simp only [Manager.setCoreLocal] at hct ⊢
        split at hct
        · cases hct
        · rename_i hne
          exact .inr (if_neg hne)
    · simp only [hv]
      exact h
  have hnt : ∀ {m : Manager} {i : ℕ}, Handed n m tr → Handed n (if nt then m.setNt i else m) tr := by
    intro m i hm
    split
    · exact hm.congr rfl (fun _ hi => hi) (fun _ _ _ => .inr rfl) (setRegion_bytes rfl)
    · exact hm
  unfold Manager.tryRefill
  cases hf : (m.pushFull core nt).freeRegions with
  | nil => simpa only [hf] using hnt hpush
  | cons i rest =>
    simp only [hf]
    refine hnt (hpush.congr rfl ?_ ?_ fun _ => rfl)
    · intro j hj
      rw [hf]
      exact List.mem_cons_of_mem _ hj
    · intro c t _
      simp only [Manager.setCoreLocal]
      split
      · exact .inl (by simp [hf])
      · exact .inr rfl

theorem Handed.step (h : Handed n m tr) {c : Call} {a : ℕ} (hc : Sized m c) (hs : step m c = some (a,m')) :
    Handed n m' (tr++[(c,a)]) := by
  have hfirst := h.allocateObject hc
  unfold RemoteAddresses.step Manager.allocate at hs
  rcases htry : m.allocateObject c.core c.nt c.objectSize with ⟨_ | a1,m1⟩
  · rw [htry] at hfirst
    have hrefill := Handed.tryRefill hfirst c.core c.nt
    rcases hr : m1.tryRefill c.core c.nt with ⟨_ | _,m2⟩
    · simp [htry,hr] at hs
    · rw [hr] at hrefill
      have hsecond := hrefill.allocateObject (c := c) hc
      rcases hlast : m2.allocateObject c.core c.nt c.objectSize with ⟨_ | a2,m3⟩
      · simp [htry,hr,hlast] at hs
      · simp only [htry,hr,hlast,Option.some.injEq,Prod.mk.injEq] at hs
        obtain ⟨rfl,rfl⟩ := hs
        rw [hlast] at hsecond
        exact hsecond
  · rw [htry] at hfirst
    simp only [htry,Option.some.injEq,Prod.mk.injEq] at hs
    obtain ⟨rfl,rfl⟩ := hs
    exact hfirst

def numRegions (count : ℕ) : ℕ := 2*kNumCPUs+(count-2*kNumSocket1CPUs)

theorem Handed.build (count : ℕ) : Handed (numRegions count) (Manager.build false 0 count) [] := by
  refine ⟨rfl,?_,?_,fun _ => by simp [Manager.build,kObjectPos,kSize],by simp,.nil⟩
  · intro i hi
    have hi' := (List.mem_range'_1.mp hi).2
    exact hi'
  · intro c nt hv
    have hc : c < kNumCPUs := of_decide_eq_true hv
    have hnt := Bool.toNat_lt nt
    change 2*c+nt.toNat < _
    unfold numRegions
    omega

end Handed

theorem numRegions_le {size : ℕ} (h : 2*kNumSocket1CPUs < regionCount size) :
    numRegions (regionCount size)*kSize ≤ size := by
  unfold numRegions regionCount at *
  have hdiv := Nat.div_mul_le_self (size+kSize-1) kSize
  have hcount : 2*kNumCPUs+((size+kSize-1)/kSize-2*kNumSocket1CPUs)+1 ≤ (size+kSize-1)/kSize := by
    unfold kNumCPUs kNumSocket1CPUs at *
    omega
  have hmul := Nat.mul_le_mul_right kSize hcount
  rw [Nat.add_mul _ 1,Nat.one_mul] at hmul
  have hpos : 0 < kSize := by decide
  omega

/-- Whatever size the constructors accept, all objects handed out are disjoint, have
addresses that fit an object id, and lie inside the server's buffer. -/
theorem remote_addresses_safe {farMemSize : ℕ} {m m' : Manager} {tr : List (Call × ℕ)}
    (hm : construct farMemSize = some m) (h : Trace step Sized m tr m') :
    (tr.Pairwise fun x y => Disjoint (interval x) (interval y)) ∧
      ∀ x ∈ tr, x.2 < 2^kObjectIDBitSize ∧ interval x ⊆ Set.Ico 0 farMemSize := by
  unfold construct at hm
  split at hm
  · cases hm
  rename_i hcount
  split at hm
  · cases hm
  rename_i hsize
  cases hm
  have hrun : Handed (numRegions (regionCount farMemSize)) m' tr := by
    induction h with
    | nil => exact Handed.build _
    | snoc _ hok hs ih => exact ih.step hok hs
  refine ⟨hrun.apart,?_⟩
  intro x hx
  obtain ⟨i,off,hi,ha,hoff⟩ := hrun.carved x hx
  have hfull := hrun.full i
  have hend := numRegions_le (by omega : 2*kNumSocket1CPUs < regionCount farMemSize)
  have hmul : (i+1)*kSize ≤ numRegions (regionCount farMemSize)*kSize := Nat.mul_le_mul_right _ hi
  rw [Nat.add_mul,Nat.one_mul] at hmul
  have hlast : x.2+x.1.objectSize ≤ farMemSize := by omega
  refine ⟨by omega,?_⟩
  rw [interval]
  exact Set.Ico_subset_Ico (Nat.zero_le _) hlast

/-- The smallest size that is accepted: its rounding up leaves a megabyte without
memory behind it. -/
theorem remote_addresses_safe_smallest : ∃ m tr m', construct (48*2^20+1) = some m ∧
    Trace step Sized m tr m' ∧ tr.map Prod.snd = [6,1048582,22] ∧
      ∀ x ∈ tr, x.2 < 2^kObjectIDBitSize ∧ interval x ⊆ Set.Ico 0 (48*2^20+1) := by
  have hrun : (exec step Sized (Manager.build false 0 49) [⟨0,false,10⟩,⟨0,true,65528⟩,⟨0,false,1⟩]).map
      (fun r => r.1) = some [6,1048582,22] := by decide +kernel
  have hm : construct (48*2^20+1) = some (Manager.build false 0 49) := by
    simp [construct,regionCount,kSize,kNumSocket1CPUs,kObjectIDBitSize]
  obtain ⟨outs,m',ht,rfl⟩ := exec_observe hrun
  exact ⟨_,_,m',hm,ht,rfl,(remote_addresses_safe hm ht).2⟩

end FarMemory.RemoteAddresses
