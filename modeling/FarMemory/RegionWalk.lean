import FarMemory.Execution
import FarMemory.ObjectBytes
import FarMemory.Regions

/-!
# The walk of the collector over a region

`Region::allocate_object` bumps the first free byte and records on the way where the
tasks of the collector begin: once past the middle, and a last time on the call that
fails. A task walks from its left to its right boundary and finds the next object by
the size in the header of the current one. The walk is total only if those sizes are
positive, so it is modelled with fuel that may run out.
-/
namespace FarMemory.RegionWalk
open Execution Regions IntervalTiling PointerMeta ByteStore ObjectBytes

structure LocalRegion where
  bufPtr : ℕ
  region : Region
  mem : Mem

/-- `atomic_inc_ref_cnt(1)` on the four bytes at the start of the region. -/
def incRefCnt (mem : Mem) (bufPtr : ℕ) : Mem :=
  let n := decodeLen mem bufPtr+2^16*decodeLen mem (bufPtr+2)+1
  store mem bufPtr (encodeLen n++encodeLen (n/2^16))

/-- The rest of the region becomes one freed object, whose length field takes only the
low 16 bits of what is left. -/
def markRest (r : LocalRegion) : Mem :=
  if r.region.firstFreeByteIdx+kHeaderSize < kSize then
    free (setDataLen r.mem (r.bufPtr+r.region.firstFreeByteIdx) (kSize-r.region.firstFreeByteIdx))
      (r.bufPtr+r.region.firstFreeByteIdx)
  else r.mem

def allocateObject (r : LocalRegion) (objectSize : ℕ) : Option ℕ × LocalRegion :=
  let size := alignTo objectSize 8 % 2^16
  let start := r.region.firstFreeByteIdx
  if start+size > kSize then
    (none,{r with region := r.region.updateBoundaries true, mem := markRest r})
  else
    (some (r.bufPtr+start),{r with
      region := {r.region.updateBoundaries false with firstFreeByteIdx := start+size}
      mem := incRefCnt r.mem r.bufPtr})

/-- The loop of a collector task: the objects it looks at. -/
def walk (mem : Mem) : ℕ → ℕ → ℕ → Option (List ℕ)
  | 0,_,_ => none
  | fuel+1,cur,right =>
    if cur+kHeaderSize < right then
      (walk mem fuel (cur+alignTo (size mem cur) 8) right).map (cur::·)
    else some []

/-- The tasks of `master_fn` for this region, walked with the memory of their time. -/
def gcWalk (r : LocalRegion) (mem : Mem) (fuel : ℕ) : Option (List ℕ) :=
  (r.region.boundaries.mapM fun t => walk mem fuel (r.bufPtr+t.1) (r.bufPtr+t.2)).map List.flatten

/-- A region as its constructor or `reset` leaves it. -/
def fresh (bufPtr : ℕ) (mem : Mem) (nt : Bool) : LocalRegion := ⟨bufPtr,⟨kObjectPos,[],nt⟩,mem⟩

def returned (c : Option ℕ × LocalRegion) : Option (ℕ × LocalRegion) := c.1.map fun a => (a,c.2)

def step (r : LocalRegion) (objectSize : ℕ) : Option (ℕ × LocalRegion) :=
  returned (allocateObject r objectSize)

def Sized (_ : LocalRegion) (objectSize : ℕ) : Prop := 11 ≤ objectSize ∧ objectSize ≤ 65528

instance (r : LocalRegion) (n : ℕ) : Decidable (Sized r n) := inferInstanceAs (Decidable (_ ∧ _))

/-- Every allocated object has the size that was asked for. -/
def Initialised (mem : Mem) (tr : List (ℕ × ℕ)) : Prop := ∀ x ∈ tr, size mem x.2 = x.1

/-- The blocks of the allocated objects, by their offset in the region. -/
def blocks (bufPtr : ℕ) (tr : List (ℕ × ℕ)) : List (ℕ × ℕ) :=
  tr.map fun x => (x.2-bufPtr,alignTo x.1 8)

section Calls
variable {r r' : LocalRegion} {n a : ℕ}

theorem returned_some {c : Option ℕ × LocalRegion} (hs : returned c = some (a,r')) : c = (some a,r') := by
  obtain ⟨o,r1⟩ := c
  obtain ⟨a1,rfl,h⟩ := Option.map_eq_some_iff.mp hs
  cases h
  rfl

theorem fst_none {c : Option ℕ × LocalRegion} (h : c.1 = none) : ∃ r', c = (none,r') := ⟨c.2,Prod.ext h rfl⟩

theorem allocateObject_none (hs : allocateObject r n = (none,r')) :
    r' = {r with region := r.region.updateBoundaries true, mem := markRest r} := by
  unfold allocateObject at hs
  generalize alignTo n 8 % 2^16 = k at hs
  dsimp only at hs
  split at hs
  · exact (congrArg Prod.snd hs).symm
  · cases hs

/-- The reserved size and the updated region are variables here: unfolding the 64-bit
wrap-around of the one and the test of the other is expensive. -/
theorem allocateObject_bump {k : ℕ} {ub : Region} (hk : alignTo n 8 % 2^16 = k)
    (hub : r.region.updateBoundaries false = ub) (hs : allocateObject r n = (some a,r')) :
    a = r.bufPtr+r.region.firstFreeByteIdx ∧ r.region.firstFreeByteIdx+k ≤ kSize ∧
      r' = {r with
        region := {ub with firstFreeByteIdx := r.region.firstFreeByteIdx+k}
        mem := incRefCnt r.mem r.bufPtr} := by
  unfold allocateObject at hs
  rw [hk,hub] at hs
  dsimp only at hs
  split at hs
  · cases hs
  · rename_i hfit
    exact ⟨(Option.some.inj (congrArg Prod.fst hs)).symm,Nat.le_of_not_gt hfit,(congrArg Prod.snd hs).symm⟩

/-- The manager allocates in the region of the core as the region by itself does. -/
theorem allocateObject_manager {m : Manager} {core : ℕ} {nt : Bool} {mem : Mem} {o : Option ℕ}
    (hv : (m.coreLocal core nt).valid = true)
    (hs : allocateObject ⟨m.base+(m.coreLocal core nt).buf*kSize,m.regions (m.coreLocal core nt).buf,mem⟩ n = (o,r')) :
    m.allocateObject core nt n = (o,m.setRegion (m.coreLocal core nt).buf r'.region) := by
  unfold allocateObject at hs
  unfold Manager.allocateObject
  generalize alignTo n 8 % 2^16 = k at hs ⊢
  simp only [hv,if_true,Manager.addr]
  dsimp only at hs
  split at hs
  · rename_i hfull
    cases hs
    exact if_pos hfull
  · rename_i hfit
    cases hs
    exact if_neg hfit

end Calls

/-! ### The layout of a region -/

/-- What holds after successful calls. Past the middle there is one boundary, and the
next one would be behind the end. -/
structure Filled (bufPtr : ℕ) (r : LocalRegion) (tr : List (ℕ × ℕ)) : Prop where
  buf : r.bufPtr = bufPtr
  split : Split kObjectPos (r.region.gcBoundaries++[r.region.firstFreeByteIdx]) (blocks bufPtr tr)
  le : r.region.firstFreeByteIdx ≤ kSize
  few : r.region.gcBoundaries.length ≤ 1
  offset : ∀ x ∈ tr, bufPtr ≤ x.2
  sized : ∀ x ∈ tr, 11 ≤ x.1 ∧ x.1 ≤ 65528

section Layout
variable {bufPtr n a : ℕ} {r r' : LocalRegion} {tr : List (ℕ × ℕ)}

theorem Filled.fresh (bufPtr : ℕ) (mem : Mem) (nt : Bool) : Filled bufPtr (fresh bufPtr mem nt) [] :=
  ⟨rfl,⟨[],[],rfl,rfl,rfl⟩,by simp [RegionWalk.fresh,kObjectPos,kSize],by simp [RegionWalk.fresh],by simp,by simp⟩

theorem updateBoundaries_cases (r : Region) : (r.updateBoundaries false).gcBoundaries = r.gcBoundaries ∨
    r.firstFreeByteIdx > kSize/kGCParallelism*(r.gcBoundaries.length+1) ∧
      (r.updateBoundaries false).gcBoundaries = r.gcBoundaries++[r.firstFreeByteIdx] := by
  unfold Region.updateBoundaries
  by_cases hpast : r.firstFreeByteIdx > kSize/kGCParallelism*(r.gcBoundaries.length+1)
  · rw [if_pos (by simpa using hpast)]
    exact .inr ⟨hpast,rfl⟩
  · rw [if_neg (by simpa using hpast)]
    exact .inl rfl

/-- A second boundary on the way would lie behind the end of the region. -/
theorem Filled.past_middle (h : Filled bufPtr r tr)
    (hpast : r.region.firstFreeByteIdx > kSize/kGCParallelism*(r.region.gcBoundaries.length+1)) :
    r.region.gcBoundaries = [] := by
  have hfull := h.le
  have hfew := h.few
  apply List.eq_nil_of_length_eq_zero
  by_contra hne
  rw [show r.region.gcBoundaries.length = 1 by omega] at hpast
  unfold kSize kGCParallelism at *
  omega

theorem Filled.bump (h : Filled bufPtr r tr) {k : ℕ} {region : Region} {mem : Mem} (hn : Sized r n)
    (hk : alignTo n 8 = k) (hpos : 0 < k) (hfit : r.region.firstFreeByteIdx+k ≤ kSize)
    (hfirst : region.firstFreeByteIdx = r.region.firstFreeByteIdx+k)
    (hbounds : region.gcBoundaries = r.region.gcBoundaries ∨
      r.region.firstFreeByteIdx > kSize/kGCParallelism*(r.region.gcBoundaries.length+1) ∧
        region.gcBoundaries = r.region.gcBoundaries++[r.region.firstFreeByteIdx]) :
    Filled bufPtr ⟨r.bufPtr,region,mem⟩ (tr++[(n,r.bufPtr+r.region.firstFreeByteIdx)]) := by
  have hblocks : blocks bufPtr (tr++[(n,r.bufPtr+r.region.firstFreeByteIdx)]) =
      blocks bufPtr tr++[(r.region.firstFreeByteIdx,k)] := by
    simp [blocks,h.buf,hk]
  refine ⟨h.buf,?_,?_,?_,?_,?_⟩
  · rw [hblocks,hfirst]
    rcases hbounds with he | ⟨-,he⟩
    · rw [he]
      exact h.split.extend hpos
    · rw [he]
      exact h.split.cut hpos
  · rw [hfirst]
    exact hfit
  · rcases hbounds with he | ⟨hpast,he⟩
    · rw [he]
      exact h.few
    · simp [he,h.past_middle hpast]
  · intro x hx
    rcases List.mem_append.mp hx with hx | hx
    · exact h.offset x hx
    · rw [List.mem_singleton.mp hx,h.buf]
      exact Nat.le_add_right _ _
  · intro x hx
    rcases List.mem_append.mp hx with hx | hx
    · exact h.sized x hx
    · rw [List.mem_singleton.mp hx]
      exact hn

theorem Filled.step (h : Filled bufPtr r tr) (hn : Sized r n) (hs : step r n = some (a,r')) :
    Filled bufPtr r' (tr++[(n,a)]) := by
  obtain ⟨hle,-,hmod⟩ := alignTo_bounds (by have := hn.1; omega) hn.2
  obtain ⟨k,hk⟩ : ∃ k, alignTo n 8 = k := ⟨_,rfl⟩
  obtain ⟨ub,hub⟩ : ∃ ub, r.region.updateBoundaries false = ub := ⟨_,rfl⟩
  have hpos : 0 < k := by
    have := hn.1
    omega
  have hbounds := updateBoundaries_cases r.region
  rw [hub] at hbounds
  obtain ⟨rfl,hfit,rfl⟩ := allocateObject_bump (hmod.trans hk) hub (returned_some hs)
  exact h.bump hn hk hpos hfit rfl hbounds

theorem filled_run {mem : Mem} {nt : Bool} (h : Trace step Sized (fresh bufPtr mem nt) tr r) : Filled bufPtr r tr := by
  induction h with
  | nil => exact Filled.fresh bufPtr mem nt
  | snoc _ hok hs ih => exact ih.step hok hs

/-! ### The walk -/

def stride (mem : Mem) (cur : ℕ) : Option ℕ := some (alignTo (size mem cur) 8)

theorem walk_eq {mem : Mem} {fuel cur right : ℕ} (h : (strideWalk (stride mem) kHeaderSize fuel cur right).length < fuel) :
    walk mem fuel cur right = some (strideWalk (stride mem) kHeaderSize fuel cur right) := by
  induction fuel generalizing cur with
  | zero => cases h
  | succ fuel ih =>
    rw [walk,strideWalk] at *
    split
    · rename_i hlt
      rw [if_pos hlt] at h
      rw [ih (Nat.lt_of_succ_lt_succ h)]
      rfl
    · rfl

theorem walks_eq {mem : Mem} {base fuel : ℕ} {ts : List (ℕ × ℕ)}
    (h : (ts.flatMap fun t => strideWalk (stride mem) kHeaderSize fuel (base+t.1) (base+t.2)).length < fuel) :
    (ts.mapM fun t => walk mem fuel (base+t.1) (base+t.2)).map List.flatten =
      some (ts.flatMap fun t => strideWalk (stride mem) kHeaderSize fuel (base+t.1) (base+t.2)) := by
  induction ts with
  | nil => rfl
  | cons t ts ih =>
    rw [List.flatMap_cons,List.length_append] at h
    obtain ⟨pieces,hp,hflat⟩ := Option.map_eq_some_iff.mp (ih (by omega))
    have hfirst : walk mem fuel (base+t.1) (base+t.2) = _ := walk_eq (by omega)
    simp [List.mapM_cons,hfirst,hp,hflat]

/-! ### The failing call -/

theorem Filled.fails (h : Filled bufPtr r tr) (hs : allocateObject r n = (none,r')) :
    r'.bufPtr = bufPtr ∧ r'.region.gcBoundaries.length ≤ kGCParallelism ∧
      Split kObjectPos r'.region.gcBoundaries (blocks bufPtr tr) := by
  obtain rfl := allocateObject_none hs
  have hb : (r.region.updateBoundaries true).gcBoundaries =
      r.region.gcBoundaries++[r.region.firstFreeByteIdx] := by simp [Region.updateBoundaries]
  refine ⟨h.buf,?_,?_⟩
  · have := h.few
    simp only [hb,List.length_append,List.length_singleton,kGCParallelism]
    omega
  · simp only [hb]
    exact h.split

/-- The freed rest lies behind every object, so no size changes. -/
theorem Filled.fails_sizes (h : Filled bufPtr r tr) (hs : allocateObject r n = (none,r'))
    (hi : Initialised r.mem tr) : Initialised r'.mem tr := by
  intro x hx
  have hend : x.2+alignTo x.1 8 ≤ bufPtr+r.region.firstFreeByteIdx := by
    have hb := (h.split.tiles_last.bounds (List.mem_map_of_mem hx)).2
    have ho := h.offset x hx
    simp only at hb
    omega
  obtain ⟨hle,-,-⟩ := alignTo_bounds (by have := (h.sized x hx).1; omega) (h.sized x hx).2
  have hmin := (h.sized x hx).1
  rw [← hi x hx]
  obtain rfl := allocateObject_none hs
  refine size_congr fun y _ hy => ?_
  unfold ServerPtr.kIDLenPos at hy
  dsimp only [markRest]
  split
  · rw [h.buf,free_outside (by omega),setDataLen_outside (by omega)]
  · rfl

theorem Filled.nodup (h : Filled bufPtr r tr) : (tr.map Prod.snd).Nodup := by
  have hstarts := h.split.tiles_last.nodup
  rw [blocks,List.map_map] at hstarts
  refine List.Nodup.of_map (fun a => a-bufPtr) ?_
  rw [List.map_map]
  exact hstarts

theorem Filled.walk (h : Filled bufPtr r tr) (hs : allocateObject r n = (none,r')) {mem : Mem}
    (hi : Initialised mem tr) {fuel : ℕ} (hf : tr.length < fuel) :
    gcWalk r' mem fuel = some (tr.map Prod.snd) := by
  obtain ⟨hbuf,-,hsplit⟩ := h.fails hs
  have haddr : ∀ x ∈ tr, bufPtr+(x.2-bufPtr) = x.2 := fun x hx => Nat.add_sub_of_le (h.offset x hx)
  have hsize : ∀ b ∈ blocks bufPtr tr, stride mem (bufPtr+b.1) = some b.2 := by
    intro b hb
    obtain ⟨x,hx,rfl⟩ := List.mem_map.mp hb
    rw [stride,haddr x hx,hi x hx]
  have hlarge : ∀ b ∈ blocks bufPtr tr, kHeaderSize < b.2 := by
    intro b hb
    obtain ⟨x,hx,rfl⟩ := List.mem_map.mp hb
    obtain ⟨hmin,hmax⟩ := h.sized x hx
    obtain ⟨hle,-,-⟩ := alignTo_bounds (by omega) hmax
    unfold kHeaderSize
    omega
  have hall := strideWalk_split hsize hlarge (by simpa [blocks] using hf) hsplit
  rw [gcWalk,hbuf,Region.boundaries,walks_eq (by simpa [hall,blocks] using hf),hall,blocks,List.map_map]
  exact congrArg some (List.map_congr_left haddr)

end Layout

/-- For every sequence of calls up to the first that fails: at most `kGCParallelism`
boundaries, which cut the allocated objects into pieces, and in any memory with the
sizes that were asked for the walks end and visit each allocated object once and
nothing else. -/
theorem region_walk_exact {bufPtr : ℕ} {mem : Mem} {nt : Bool} {tr : List (ℕ × ℕ)} {r : LocalRegion}
    (h : Trace step Sized (fresh bufPtr mem nt) tr r) :
    r.region.gcBoundaries.length ≤ kGCParallelism ∧
      ∀ n r', Sized r n → allocateObject r n = (none,r') →
        r'.region.gcBoundaries.length ≤ kGCParallelism ∧
        Split kObjectPos r'.region.gcBoundaries (blocks bufPtr tr) ∧
        (Initialised r.mem tr → Initialised r'.mem tr) ∧ (tr.map Prod.snd).Nodup ∧
        ∀ mem', Initialised mem' tr → ∃ enough, ∀ fuel ≥ enough, gcWalk r' mem' fuel = some (tr.map Prod.snd) := by
  have hfilled := filled_run h
  refine ⟨hfilled.few.trans (by decide),?_⟩
  intro n r' _ hs
  obtain ⟨-,hfew,hsplit⟩ := hfilled.fails hs
  refine ⟨hfew,hsplit,hfilled.fails_sizes hs,hfilled.nodup,?_⟩
  intro mem' hi
  exact ⟨tr.length+1,fun fuel hf => hfilled.walk hs hi hf⟩

/-- Sixteen objects fill a region up to a rest that the next request does not fit in. -/
theorem region_walk_exact_sixteen : ∃ tr r r', Trace step Sized (fresh 0 (fun _ => 253) false) tr r ∧
    tr.length = 16 ∧ allocateObject r 65284 = (none,r') ∧ Initialised (fun _ => 253) tr ∧
      Split kObjectPos r'.region.gcBoundaries (blocks 0 tr) ∧
      ∃ fuel, gcWalk r' (fun _ => 253) fuel = some (tr.map Prod.snd) := by
  have hrun : (exec step Sized (fresh 0 (fun _ => 253) false) (List.replicate 16 65284)).map
      (fun c => (c.1.length,(allocateObject c.2 65284).1)) = some (16,none) := by decide +kernel
  obtain ⟨outs,r,ht,hobs⟩ := exec_observe hrun
  simp only [Prod.mk.injEq] at hobs
  obtain ⟨hlen,hnone⟩ := hobs
  obtain ⟨r',hr⟩ := fst_none hnone
  have hsize : size (fun _ => 253) 0 = 65284 := by decide +kernel
  have hi : Initialised (fun _ => 253) ((List.replicate 16 65284).zip outs) := by
    intro x hx
    rw [List.eq_of_mem_replicate (List.of_mem_zip hx).1]
    exact hsize
  obtain ⟨-,hsplit,-,-,hwalk⟩ := (region_walk_exact ht).2 65284 r' ⟨by decide,by decide⟩ hr
  obtain ⟨enough,hfuel⟩ := hwalk _ hi
  exact ⟨_,r,r',ht,by simp [hlen],hr,hi,hsplit,enough,hfuel enough le_rfl⟩

end FarMemory.RegionWalk
