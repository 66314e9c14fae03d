import FarMemory.IntervalTiling
import FarMemory.Machine
import FarMemory.PointerMeta

/-!
# Regions and the region manager

A region is one megabyte of object space behind a six-byte header. Objects are
bumped off its front; `gc_boundaries_` remembers where the collector's tasks may
start. `RegionManager` keeps the free, used and non-temporal used regions in
first-in first-out order and one region per core and temporality for allocation.

Regions are moved by copy and invalidate, so a moved-from `Region` keeps its
buffer pointer. The model therefore names a region by its index, and a core slot
keeps the index it held last next to the validity flag. The three ring buffers
are lists: their capacity is the number of regions, and a region is in at most
one of them. Reference counts are zero whenever no operation is in progress and
are left to a model with operations in progress. The header that a failed
allocation writes behind the last object lies outside every collector task.
-/
namespace FarMemory.Regions
open IntervalTiling PointerMeta Function

def kSize : ℕ := 2^20
def kObjectPos : ℕ := 6
def kGCParallelism : ℕ := 2
def kNumSocket1CPUs : ℕ := 24

/-- `helpers::align_to`, with the wrap-around of its unsigned `n - 1`. -/
def alignTo (n factor : ℕ) : ℕ := n+(factor-1)-((n+2^64-1)%2^64)%factor

structure Region where
  firstFreeByteIdx : ℕ
  gcBoundaries : List ℕ
  nt : Bool
  deriving DecidableEq, Repr

namespace Region

def updateBoundaries (r : Region) (force : Bool) : Region :=
  if force || decide (r.firstFreeByteIdx > kSize/kGCParallelism*(r.gcBoundaries.length+1)) then
    {r with gcBoundaries := r.gcBoundaries++[r.firstFreeByteIdx]}
  else r

def reset (r : Region) : Region :=
  {r with firstFreeByteIdx := kObjectPos, gcBoundaries := [], nt := false}

/-- All tasks of `get_boundary`, as pairs of region offsets. -/
def boundaries (r : Region) : List (ℕ × ℕ) :=
  List.zip (kObjectPos::r.gcBoundaries) r.gcBoundaries

end Region

/-- A core-local `Region` value: `valid` is `region_idx_ != kInvalidIdx`, and
`buf` is the region its `buf_ptr_` still points to. -/
structure CoreSlot where
  buf : ℕ
  valid : Bool
  deriving DecidableEq, Repr

structure Manager where
  isLocal : Bool
  base : ℕ
  regions : ℕ → Region
  freeRegions : List ℕ
  usedRegions : List ℕ
  ntUsedRegions : List ℕ
  coreLocal : ℕ → Bool → CoreSlot

namespace Manager

def setRegion (m : Manager) (i : ℕ) (r : Region) : Manager :=
  {m with regions := update m.regions i r}

def setCoreLocal (m : Manager) (core : ℕ) (nt : Bool) (slot : CoreSlot) : Manager :=
  {m with coreLocal := fun c t => if c = core ∧ t = nt then slot else m.coreLocal c t}

/-- The address of offset `off` of region `i`: `buf_ptr_ + off` in the local
cache, `region_idx_ * kSize + off` in far memory. -/
def addr (m : Manager) (i off : ℕ) : ℕ := m.base+i*kSize+off

/-- `Region::allocate_object` on the region of a core. -/
def allocateObject (m : Manager) (core : ℕ) (nt : Bool) (objectSize : ℕ) : Option ℕ × Manager :=
  let size := alignTo objectSize 8 % 2^16
  let slot := m.coreLocal core nt
  if slot.valid then
    let r := m.regions slot.buf
    let start := r.firstFreeByteIdx
    if start+size > kSize then
      (none,m.setRegion slot.buf (r.updateBoundaries true))
    else
      (some (m.addr slot.buf start),
        m.setRegion slot.buf {r.updateBoundaries false with firstFreeByteIdx := start+size})
  else (none,m)

/-- The first half of a refill: a valid full region goes to one of the used
queues and leaves its core slot invalid. -/
def pushFull (m : Manager) (core : ℕ) (nt : Bool) : Manager :=
  let slot := m.coreLocal core nt
  if slot.valid then
    let m' := if m.isLocal && (m.regions slot.buf).nt then
        {m with ntUsedRegions := m.ntUsedRegions++[slot.buf]}
      else {m with usedRegions := m.usedRegions++[slot.buf]}
    m'.setCoreLocal core nt {slot with valid := false}
  else m

def setNt (m : Manager) (i : ℕ) : Manager := m.setRegion i {m.regions i with nt := true}

/-- `try_refill_core_local_free_region`, called with the core's own region as
the full one. When no free region is left the non-temporal flag still goes to
the buffer that the invalidated slot points to. -/
def tryRefill (m : Manager) (core : ℕ) (nt : Bool) : Bool × Manager :=
  let m₁ := m.pushFull core nt
  match m₁.freeRegions with
  | [] => (false,if nt then m₁.setNt (m₁.coreLocal core nt).buf else m₁)
  | i::rest =>
    let m₂ := {m₁ with freeRegions := rest}.setCoreLocal core nt ⟨i,true⟩
    (true,if nt then m₂.setNt i else m₂)

/-- `allocate_local_object_nb`, and one round of its blocking relatives: try,
refill, try again. A refilled region is empty, so the second try succeeds. -/
def allocate (m : Manager) (core : ℕ) (nt : Bool) (objectSize : ℕ) : Option ℕ × Manager :=
  match m.allocateObject core nt objectSize with
  | (some a,m₁) => (some a,m₁)
  | (none,m₁) =>
    match m₁.tryRefill core nt with
    | (false,m₂) => (none,m₂)
    | (true,m₂) => m₂.allocateObject core nt objectSize

/-- The collector takes full regions out of their queues. -/
def pickFromRegions (m : Manager) (regs : List ℕ) : Manager :=
  {m with usedRegions := m.usedRegions.filter (· ∉ regs),
          ntUsedRegions := m.ntUsedRegions.filter (· ∉ regs)}

def pushFreeRegion (m : Manager) (i : ℕ) : Manager :=
  {m.setRegion i (m.regions i).reset with freeRegions := m.freeRegions++[i]}

def pushFreeRegions (m : Manager) (regs : List ℕ) : Manager := regs.foldl pushFreeRegion m

/-- The constructor of `RegionManager`, behind its check of the region count.
Every core takes two regions, but the count of the free ones is reduced for
`kNumSocket1CPUs` cores, so a few regions are never used. -/
def build (isLocal : Bool) (base count : ℕ) : Manager where
  isLocal := isLocal
  base := base
  regions i := ⟨kObjectPos,[],isLocal && decide (i < 2*kNumCPUs) && i%2 == 1⟩
  freeRegions := List.range' (2*kNumCPUs) (count-2*kNumSocket1CPUs)
  usedRegions := []
  ntUsedRegions := []
  coreLocal c nt := ⟨2*c+nt.toNat,decide (c < kNumCPUs)⟩

/-! ### The layout invariant -/

/-- Every region that is not being allocated from, with those the collector
holds in `out`. -/
def places (m : Manager) (out : List ℕ) : List ℕ :=
  m.freeRegions++m.usedRegions++m.ntUsedRegions++out

/-- `L i` lists the objects of region `i` in allocation order, each with the
bytes reserved for it. A region is in one place only; the objects of an open
region fill it up to the first free byte, and the tasks of a full region cover
all of them. -/
structure WF (m : Manager) (count : ℕ) (L : ℕ → List (ℕ × ℕ)) (out : List ℕ) : Prop where
  nodup : (m.places out).Nodup
  index : ∀ i ∈ m.places out, i < count
  core_index : ∀ c nt, (m.coreLocal c nt).valid = true → (m.coreLocal c nt).buf < count
  core_out : ∀ c nt, (m.coreLocal c nt).valid = true → (m.coreLocal c nt).buf ∉ m.places out
  core_inj : ∀ c nt c' nt', (m.coreLocal c nt).valid = true → (m.coreLocal c' nt').valid = true →
    (m.coreLocal c nt).buf = (m.coreLocal c' nt').buf → c = c' ∧ nt = nt'
  tiles : ∀ i, ∃ hi, hi ≤ kSize ∧ Tiles kObjectPos hi (L i)
  large : ∀ i, ∀ b ∈ L i, kHeaderSize < b.2
  managed : ∀ i, L i ≠ [] → i < count
  free : ∀ i ∈ m.freeRegions, L i = [] ∧ (m.regions i).firstFreeByteIdx = kObjectPos ∧
    (m.regions i).gcBoundaries = []
  opened : ∀ c nt, (m.coreLocal c nt).valid = true →
    Split kObjectPos ((m.regions (m.coreLocal c nt).buf).gcBoundaries++
      [(m.regions (m.coreLocal c nt).buf).firstFreeByteIdx]) (L (m.coreLocal c nt).buf)
  closed : ∀ i ∈ m.usedRegions++m.ntUsedRegions++out,
    Split kObjectPos (m.regions i).gcBoundaries (L i)

end Manager

theorem alignTo_eq {n : ℕ} (hn : 0 < n) (hlt : n ≤ 65528) : alignTo n 8 = 8*((n+7)/8) := by
  unfold alignTo
  omega

theorem alignTo_bounds {n : ℕ} (hn : 0 < n) (hlt : n ≤ 65528) :
    n ≤ alignTo n 8 ∧ alignTo n 8 ≤ 65528 ∧ alignTo n 8 % 2^16 = alignTo n 8 := by
  rw [alignTo_eq hn hlt]
  omega

namespace Manager
variable {m : Manager} {count : ℕ} {L : ℕ → List (ℕ × ℕ)} {out : List ℕ}
  {i j c core size a : ℕ} {b : ℕ × ℕ} {nt : Bool} {m' : Manager}

@[simp] theorem setRegion_coreLocal (i : ℕ) (r : Region) :
    (m.setRegion i r).coreLocal = m.coreLocal := rfl

@[simp] theorem setRegion_places (i : ℕ) (r : Region) :
    (m.setRegion i r).places out = m.places out := rfl

@[simp] theorem setRegion_same (i : ℕ) (r : Region) : (m.setRegion i r).regions i = r := by
  simp [setRegion]

theorem setRegion_other (r : Region) (h : j ≠ i) :
    (m.setRegion i r).regions j = m.regions j := by
  simp [setRegion,h]

theorem WF.fits (h : m.WF count L out) (hb : b ∈ L i) :
    kObjectPos ≤ b.1 ∧ b.1+b.2 ≤ kSize := by
  obtain ⟨hi,hle,ht⟩ := h.tiles i
  have := ht.bounds hb
  omega

theorem WF.not_free_of_core (h : m.WF count L out)
    (hv : (m.coreLocal c nt).valid = true) : (m.coreLocal c nt).buf ∉ m.freeRegions := by
  have := h.core_out c nt hv
  simp only [places,List.mem_append,not_or] at this
  exact this.1.1.1

theorem WF.not_closed_of_core (h : m.WF count L out)
    (hv : (m.coreLocal c nt).valid = true) :
    (m.coreLocal c nt).buf ∉ m.usedRegions++m.ntUsedRegions++out := by
  have := h.core_out c nt hv
  simp only [places,List.mem_append,not_or] at this ⊢
  exact ⟨⟨this.1.1.2,this.1.2⟩,this.2⟩

theorem WF.firstFree_le (h : m.WF count L out)
    (hv : (m.coreLocal c nt).valid = true) :
    (m.regions (m.coreLocal c nt).buf).firstFreeByteIdx ≤ kSize := by
  obtain ⟨hi,hle,ht⟩ := h.tiles (m.coreLocal c nt).buf
  rwa [(h.opened c nt hv).tiles_last.unique ht]

theorem WF.setOpen (h : m.WF count L out) {r : Region} {l : List (ℕ × ℕ)}
    (hv : (m.coreLocal core nt).valid = true) (hle : r.firstFreeByteIdx ≤ kSize)
    (hlarge : ∀ b ∈ l, kHeaderSize < b.2)
    (hs : Split kObjectPos (r.gcBoundaries++[r.firstFreeByteIdx]) l) :
    (m.setRegion (m.coreLocal core nt).buf r).WF count
      (update L (m.coreLocal core nt).buf l) out := by
  have hfree := h.not_free_of_core hv
  have hclosed := h.not_closed_of_core hv
  refine ⟨h.nodup,h.index,h.core_index,h.core_out,h.core_inj,?_,?_,?_,?_,?_,?_⟩
  · intro i
    by_cases hi : i = (m.coreLocal core nt).buf
    · subst hi
      simpa using ⟨_,hle,hs.tiles_last⟩
    · simpa [hi] using h.tiles i
  · intro i
    by_cases hi : i = (m.coreLocal core nt).buf
    · subst hi
      simpa using hlarge
    · simpa [hi] using h.large i
  · intro i hne
    by_cases hi : i = (m.coreLocal core nt).buf
    · exact hi ▸ h.core_index core nt hv
    · exact h.managed i (by simpa [hi] using hne)
  · intro i hi
    have hne : i ≠ (m.coreLocal core nt).buf := fun he => hfree (he ▸ hi)
    rw [update_of_ne hne,setRegion_other r hne]
    exact h.free i hi
  · intro c t hct
    by_cases he : (m.coreLocal c t).buf = (m.coreLocal core nt).buf
    · simpa [he] using hs
    · rw [setRegion_coreLocal,setRegion_other r he,update_of_ne he]
      exact h.opened c t hct
  · intro i hi
    have hne : i ≠ (m.coreLocal core nt).buf := fun he => hclosed (he ▸ hi)
    rw [update_of_ne hne,setRegion_other r hne]
    exact h.closed i hi

/-- A core's region has nothing behind its last task. -/
def Exhausted (m : Manager) (L : ℕ → List (ℕ × ℕ)) (core : ℕ) (nt : Bool) : Prop :=
  (m.coreLocal core nt).valid = true →
    Split kObjectPos (m.regions (m.coreLocal core nt).buf).gcBoundaries (L (m.coreLocal core nt).buf)

/-- What an allocation has done when it returns an address. -/
structure Allocated (m m' : Manager) (count : ℕ) (L : ℕ → List (ℕ × ℕ)) (out : List ℕ) (size a : ℕ)
    (i : ℕ) (b : ℕ × ℕ) : Prop where
  address : a = m.addr i b.1
  reserved : b.2 = alignTo size 8
  outside : i ∉ out
  bound : i < count
  base : m'.base = m.base
  wf : m'.WF count (update L i (L i++[b])) out

private theorem allocateObject_eq (m : Manager) (core : ℕ) (nt : Bool) {n : ℕ}
    (hn : alignTo size 8 % 2^16 = n) :
    m.allocateObject core nt size =
      if (m.coreLocal core nt).valid = true then
        if (m.regions (m.coreLocal core nt).buf).firstFreeByteIdx+n > kSize then
          (none,m.setRegion (m.coreLocal core nt).buf
            ((m.regions (m.coreLocal core nt).buf).updateBoundaries true))
        else
          (some (m.addr (m.coreLocal core nt).buf (m.regions (m.coreLocal core nt).buf).firstFreeByteIdx),
            m.setRegion (m.coreLocal core nt).buf
              {(m.regions (m.coreLocal core nt).buf).updateBoundaries false with
                firstFreeByteIdx := (m.regions (m.coreLocal core nt).buf).firstFreeByteIdx+n})
      else (none,m) := by
  unfold allocateObject
  rw [hn]

theorem allocateObject_spec (h : m.WF count L out) (core : ℕ) (nt : Bool)
    (hmin : kHeaderSize < size) (hmax : size ≤ 65528) :
    match m.allocateObject core nt size with
    | (some a,m') => ∃ i b,Allocated m m' count L out size a i b
    | (none,m') => m'.WF count L out ∧ m'.Exhausted L core nt ∧ m'.base = m.base ∧
        m'.freeRegions = m.freeRegions := by
  obtain ⟨hle,-,hmod⟩ := alignTo_bounds (by omega) hmax
  rw [allocateObject_eq m core nt hmod]
  generalize hn : alignTo size 8 = n at hle
  by_cases hv : (m.coreLocal core nt).valid = true
  · rw [if_pos hv]
    have ho := h.opened core nt hv
    by_cases hfit : (m.regions (m.coreLocal core nt).buf).firstFreeByteIdx+n > kSize
    · rw [if_pos hfit]
      have hcut : Split kObjectPos (((m.regions (m.coreLocal core nt).buf).updateBoundaries
          true).gcBoundaries) (L (m.coreLocal core nt).buf) := by
        simpa [Region.updateBoundaries] using ho
      refine ⟨?_,fun _ => by simpa using hcut,rfl,rfl⟩
      have hopen : Split kObjectPos (((m.regions (m.coreLocal core nt).buf).updateBoundaries
          true).gcBoundaries++[(m.regions (m.coreLocal core nt).buf).firstFreeByteIdx])
            (L (m.coreLocal core nt).buf) := by
        simpa [Region.updateBoundaries] using ho.cut_nil
      have hset := h.setOpen hv
        (r := (m.regions (m.coreLocal core nt).buf).updateBoundaries true)
        (by simpa [Region.updateBoundaries] using h.firstFree_le hv) (h.large _)
        (by simpa [Region.updateBoundaries] using hopen)
      rwa [update_eq_self] at hset
    · rw [if_neg hfit]
      refine ⟨(m.coreLocal core nt).buf,(_,n),rfl,hn.symm,?_,h.core_index core nt hv,rfl,?_⟩
      · intro hmem
        exact h.not_closed_of_core hv (by simp [hmem])
      · refine h.setOpen hv (by simpa using hfit) ?_ ?_
        · intro b hb
          rcases List.mem_append.mp hb with hb | hb
          · exact h.large _ b hb
          · rw [List.mem_singleton.mp hb]
            exact hmin.trans_le hle
        · unfold Region.updateBoundaries
          split
          · exact ho.cut (by omega)
          · exact ho.extend (by omega)
  · rw [if_neg hv]
    exact ⟨h,fun hv' => absurd hv' hv,rfl,rfl⟩

/-- Full regions change their place only, so nothing but the places is at stake. -/
theorem pushFull_spec (h : m.WF count L out) (he : m.Exhausted L core nt) :
    (m.pushFull core nt).WF count L out ∧ ((m.pushFull core nt).coreLocal core nt).valid = false ∧
      (m.pushFull core nt).freeRegions = m.freeRegions ∧ (m.pushFull core nt).base = m.base := by
  unfold pushFull
  by_cases hv : (m.coreLocal core nt).valid = true
  swap
  · rw [if_neg hv]
    exact ⟨h,by simpa using hv,rfl,rfl⟩
  rw [if_pos hv]
  have hout := h.core_out core nt hv
  have hclosed := he hv
  generalize hm : (if (m.isLocal && (m.regions (m.coreLocal core nt).buf).nt) = true then
      {m with ntUsedRegions := m.ntUsedRegions++[(m.coreLocal core nt).buf]}
    else {m with usedRegions := m.usedRegions++[(m.coreLocal core nt).buf]} : Manager) = m'
  have hfields : m'.regions = m.regions ∧ m'.coreLocal = m.coreLocal ∧
      m'.freeRegions = m.freeRegions ∧ m'.base = m.base ∧
      (m'.places out).Perm ((m.coreLocal core nt).buf::m.places out) ∧
      (m'.usedRegions++m'.ntUsedRegions++out).Perm
        ((m.coreLocal core nt).buf::(m.usedRegions++m.ntUsedRegions++out)) := by
    subst hm
    split
    · refine ⟨rfl,rfl,rfl,rfl,?_,?_⟩
      · simpa [places] using @List.perm_middle _ _ (m.freeRegions++m.usedRegions++m.ntUsedRegions) _
      · simpa using @List.perm_middle _ _ (m.usedRegions++m.ntUsedRegions) _
    · refine ⟨rfl,rfl,rfl,rfl,?_,?_⟩
      · simpa [places] using @List.perm_middle _ _ (m.freeRegions++m.usedRegions) _
      · simp
  obtain ⟨hreg,hcore,hfree,hbase,hperm,hused⟩ := hfields
  have hslot : ∀ c t, ((m'.setCoreLocal core nt
      {m.coreLocal core nt with valid := false}).coreLocal c t).valid = true →
      ¬(c = core ∧ t = nt) ∧ (m.coreLocal c t).valid = true ∧
        (m'.setCoreLocal core nt {m.coreLocal core nt with valid := false}).coreLocal c t =
          m.coreLocal c t := by
    intro c t hct
    simp only [setCoreLocal] at hct ⊢
    by_cases hh : c = core ∧ t = nt
    · simp [hh] at hct
    · rw [if_neg hh,hcore] at hct ⊢
      exact ⟨hh,hct,rfl⟩
  refine ⟨⟨?_,?_,?_,?_,?_,h.tiles,h.large,h.managed,?_,?_,?_⟩,by simp [setCoreLocal],hfree,hbase⟩
  · exact hperm.nodup_iff.mpr (List.nodup_cons.mpr ⟨hout,h.nodup⟩)
  · intro i hi
    rcases List.mem_cons.mp (hperm.mem_iff.mp hi) with rfl | hi
    · exact h.core_index core nt hv
    · exact h.index i hi
  · intro c t hct
    obtain ⟨-,hc,heq⟩ := hslot c t hct
    rw [heq]
    exact h.core_index c t hc
  · intro c t hct
    obtain ⟨hne,hc,heq⟩ := hslot c t hct
    rw [heq]
    intro hmem
    rcases List.mem_cons.mp (hperm.mem_iff.mp hmem) with he' | hmem
    · exact hne (h.core_inj c t core nt hc hv he')
    · exact h.core_out c t hc hmem
  · intro c t c' t' hct hct' heq
    obtain ⟨-,hc,hs⟩ := hslot c t hct
    obtain ⟨-,hc',hs'⟩ := hslot c' t' hct'
    exact h.core_inj c t c' t' hc hc' (by rwa [hs,hs'] at heq)
  · intro i hi
    have hi' : i ∈ m.freeRegions := hfree ▸ hi
    simpa [setCoreLocal,hreg] using h.free i hi'
  · intro c t hct
    obtain ⟨-,hc,heq⟩ := hslot c t hct
    rw [heq]
    simpa [setCoreLocal,hreg] using h.opened c t hc
  · intro i hi
    have hr : (m'.setCoreLocal core nt {m.coreLocal core nt with valid := false}).regions =
        m.regions := hreg
    rw [hr]
    rcases List.mem_cons.mp (hused.mem_iff.mp hi) with rfl | hi
    · exact hclosed
    · exact h.closed i hi

theorem WF.setNt (h : m.WF count L out) (i : ℕ) : (m.setNt i).WF count L out := by
  have hreg : ∀ j, ((m.setNt i).regions j).firstFreeByteIdx = (m.regions j).firstFreeByteIdx ∧
      ((m.setNt i).regions j).gcBoundaries = (m.regions j).gcBoundaries := by
    intro j
    by_cases hj : j = i
    · subst hj
      simp [Manager.setNt]
    · simp [Manager.setNt,setRegion_other _ hj]
  refine ⟨h.nodup,h.index,h.core_index,h.core_out,h.core_inj,h.tiles,h.large,h.managed,?_,?_,?_⟩
  · intro j hj
    rw [(hreg j).1,(hreg j).2]
    exact h.free j hj
  · intro c t hct
    rw [(hreg _).1,(hreg _).2]
    exact h.opened c t hct
  · intro j hj
    rw [(hreg j).2]
    exact h.closed j hj

theorem WF.popFree (h : m.WF count L out) (core : ℕ) (nt : Bool) {rest : List ℕ}
    (hfree : m.freeRegions = i::rest) :
    ({m with freeRegions := rest}.setCoreLocal core nt ⟨i,true⟩).WF count L out := by
  have hplaces : m.places out = i::({m with freeRegions := rest} : Manager).places out := by
    simp [places,hfree]
  have hnodup := h.nodup
  rw [hplaces,List.nodup_cons] at hnodup
  have hi := h.free i (by simp [hfree])
  have hslot : ∀ c t, (({m with freeRegions := rest} : Manager).setCoreLocal core nt
        ⟨i,true⟩).coreLocal c t = if c = core ∧ t = nt then ⟨i,true⟩ else m.coreLocal c t := by
    intro c t
    rfl
  have hother : ∀ c t, ¬(c = core ∧ t = nt) → (m.coreLocal c t).valid = true →
      (m.coreLocal c t).buf ≠ i := by
    intro c t _ hct he
    exact h.core_out c t hct (by rw [hplaces,he]; simp)
  refine ⟨hnodup.2,?_,?_,?_,?_,h.tiles,h.large,h.managed,?_,?_,h.closed⟩
  · intro j hj
    exact h.index j (by rw [hplaces]; exact List.mem_cons_of_mem i hj)
  · intro c t hct
    rw [hslot] at hct ⊢
    split_ifs at hct ⊢
    · exact h.index i (by rw [hplaces]; simp)
    · exact h.core_index c t hct
  · intro c t hct
    rw [hslot] at hct ⊢
    split_ifs at hct ⊢
    · exact hnodup.1
    · intro hmem
      exact h.core_out c t hct (by rw [hplaces]; exact List.mem_cons_of_mem i hmem)
  · intro c t c' t' hct hct' he
    rw [hslot] at hct hct'
    rw [hslot,hslot] at he
    split_ifs at hct hct' he with h1 h2 h2
    · exact ⟨h1.1.trans h2.1.symm,h1.2.trans h2.2.symm⟩
    · exact absurd he.symm (hother c' t' h2 hct')
    · exact absurd he (hother c t h1 hct)
    · exact h.core_inj c t c' t' hct hct' he
  · intro j hj
    exact h.free j (by rw [hfree]; exact List.mem_cons_of_mem i hj)
  · intro c t hct
    rw [hslot] at hct ⊢
    split_ifs at hct ⊢
    · rw [hi.1]
      change Split kObjectPos ((m.regions i).gcBoundaries++[(m.regions i).firstFreeByteIdx]) []
      rw [hi.2.2,hi.2.1]
      exact ⟨[],[],rfl,rfl,rfl⟩
    · exact h.opened c t hct

private theorem tryRefill_nil (h : (m.pushFull core nt).freeRegions = []) :
    m.tryRefill core nt = (false,if nt then
      (m.pushFull core nt).setNt ((m.pushFull core nt).coreLocal core nt).buf
      else m.pushFull core nt) := by
  unfold tryRefill
  simp only [h]

private theorem tryRefill_cons {rest : List ℕ}
    (h : (m.pushFull core nt).freeRegions = i::rest) :
    m.tryRefill core nt = (true,if nt then
      ({m.pushFull core nt with freeRegions := rest}.setCoreLocal core nt ⟨i,true⟩).setNt i
      else {m.pushFull core nt with freeRegions := rest}.setCoreLocal core nt ⟨i,true⟩) := by
  unfold tryRefill
  simp only [h]

theorem tryRefill_spec (h : m.WF count L out) (he : m.Exhausted L core nt) :
    match m.tryRefill core nt with
    | (true,m') => m'.WF count L out ∧ m'.base = m.base ∧ (m'.coreLocal core nt).valid = true ∧
        (m'.regions (m'.coreLocal core nt).buf).firstFreeByteIdx = kObjectPos
    | (false,m') => m'.WF count L out ∧ m'.base = m.base ∧ m.freeRegions = [] := by
  obtain ⟨hwf,-,hfree,hbase⟩ := pushFull_spec h he
  cases hlist : (m.pushFull core nt).freeRegions with
  | nil =>
    rw [tryRefill_nil hlist]
    cases nt with
    | true => exact ⟨hwf.setNt _,hbase,hfree ▸ hlist⟩
    | false => exact ⟨hwf,hbase,hfree ▸ hlist⟩
  | cons i rest =>
    rw [tryRefill_cons hlist]
    have hi := hwf.free i (by simp [hlist])
    have hpop := hwf.popFree core nt hlist
    have hslot : ({m.pushFull core nt with freeRegions := rest}.setCoreLocal core nt
        ⟨i,true⟩).coreLocal core nt = ⟨i,true⟩ := by simp [setCoreLocal]
    cases nt with
    | true =>
      refine ⟨hpop.setNt i,hbase,?_,?_⟩
      · simp [Manager.setNt,hslot]
      · simpa [Manager.setNt,hslot,setCoreLocal] using hi.2.1
    | false =>
      refine ⟨hpop,hbase,?_,?_⟩
      · simp [hslot]
      · simpa [hslot,setCoreLocal] using hi.2.1

theorem allocateObject_fresh (hmax : size ≤ 65528) (hpos : 0 < size)
    (hv : (m.coreLocal core nt).valid = true)
    (hfirst : (m.regions (m.coreLocal core nt).buf).firstFreeByteIdx = kObjectPos) :
    ((m.allocateObject core nt size).1).isSome := by
  obtain ⟨-,hle,hmod⟩ := alignTo_bounds hpos hmax
  have hfit : ¬kObjectPos+alignTo size 8 > kSize := by
    unfold kObjectPos kSize
    omega
  rw [allocateObject_eq m core nt hmod,if_pos hv,hfirst,if_neg hfit]
  rfl

/-- A failed allocation leaves the layout as it is and means that no region was
free; a successful one extends the layout by one block. -/
theorem allocate_spec (h : m.WF count L out) (core : ℕ) (nt : Bool)
    (hmin : kHeaderSize < size) (hmax : size ≤ 65528) :
    match m.allocate core nt size with
    | (some a,m') => ∃ i b,Allocated m m' count L out size a i b
    | (none,m') => m'.WF count L out ∧ m'.base = m.base ∧ m.freeRegions = [] := by
  have hfirst := allocateObject_spec h core nt hmin hmax
  unfold allocate
  rcases htry : m.allocateObject core nt size with ⟨_ | a,m₁⟩
  · rw [htry] at hfirst
    obtain ⟨hwf,he,hbase,hfree⟩ := hfirst
    have hrefill := tryRefill_spec hwf he
    simp only
    rcases hr : m₁.tryRefill core nt with ⟨_ | _,m₂⟩
    · rw [hr] at hrefill
      exact ⟨hrefill.1,hrefill.2.1.trans hbase,hfree ▸ hrefill.2.2⟩
    · rw [hr] at hrefill
      obtain ⟨hwf2,hbase2,hv,hpos⟩ := hrefill
      have hsecond := allocateObject_spec hwf2 core nt hmin hmax
      have ha := allocateObject_fresh hmax (by omega) hv hpos
      simp only
      rcases hs : m₂.allocateObject core nt size with ⟨_ | a',m3⟩
      · simp [hs] at ha
      · rw [hs] at hsecond
        obtain ⟨i,b,hb⟩ := hsecond
        have hb2 : m₂.base = m.base := hbase2.trans hbase
        refine ⟨i,b,?_,hb.reserved,hb.outside,hb.bound,hb.base.trans hb2,hb.wf⟩
        rw [hb.address,addr,addr,hb2]
  · rw [htry] at hfirst
    exact hfirst

theorem addr_inj {b : ℕ} (ha : a < kSize) (hb : b < kSize) (h : m.addr i a = m.addr j b) :
    i = j ∧ a = b := by
  unfold addr at h
  unfold kSize at *
  omega

theorem region_of_addr {off : ℕ} (h : off < kSize) : (m.addr i off-m.base)/kSize = i := by
  have hk : 0 < kSize := by decide
  rw [addr,Nat.add_assoc,Nat.add_sub_cancel_left,Nat.add_comm,Nat.add_mul_div_right _ _ hk,
    Nat.div_eq_of_lt h,Nat.zero_add]

theorem WF.start_lt (h : m.WF count L out) (hb : b ∈ L i) : b.1 < kSize := by
  have hf := h.fits hb
  have hl := h.large i b hb
  omega

theorem WF.block_inj (h : m.WF count L out) {c : ℕ × ℕ} (hb : b ∈ L i) (hc : c ∈ L j)
    (he : m.addr i b.1 = m.addr j c.1) : i = j ∧ b = c := by
  obtain ⟨rfl,hs⟩ := addr_inj (h.start_lt hb) (h.start_lt hc) he
  obtain ⟨hi,-,ht⟩ := h.tiles i
  exact ⟨rfl,List.inj_on_of_nodup_map ht.nodup hb hc hs⟩

theorem WF.block_disjoint (h : m.WF count L out) {c : ℕ × ℕ} (hb : b ∈ L i) (hc : c ∈ L j)
    (hne : m.addr i b.1 ≠ m.addr j c.1) :
    m.addr i b.1+b.2 ≤ m.addr j c.1 ∨ m.addr j c.1+c.2 ≤ m.addr i b.1 := by
  have hfb := h.fits hb
  have hfc := h.fits hc
  by_cases hij : i = j
  · subst hij
    obtain ⟨hi,-,ht⟩ := h.tiles i
    have hor := ht.disjoint hb hc fun he => hne (by rw [he])
    unfold addr
    omega
  · unfold addr
    unfold kSize at *
    omega

theorem Allocated.mem
    (_h : Allocated m m' count L out size a i b) :
    b ∈ update L i (L i++[b]) i := by
  simp

theorem addr_congr (h : m'.base = m.base) (i off : ℕ) : m'.addr i off = m.addr i off := by
  rw [addr,addr,h]

theorem Allocated.fresh
    (h : Allocated m m' count L out size a i b) {c : ℕ × ℕ} (hc : c ∈ L j) :
    m.addr j c.1 ≠ a := by
  rw [h.address]
  intro he
  have hmem : c ∈ update L i (L i++[b]) j := by
    by_cases hj : j = i
    · subst hj
      simp [hc]
    · simpa [hj] using hc
  have heq := h.wf.block_inj hmem h.mem (by rwa [addr_congr h.base,addr_congr h.base])
  obtain ⟨rfl,rfl⟩ := heq
  obtain ⟨hi,-,ht⟩ := h.wf.tiles j
  have hn := ht.nodup
  rw [update_self,List.map_append] at hn
  exact (List.nodup_append.mp hn).2.2 c.1 (List.mem_map_of_mem hc) c.1 (by simp) rfl

theorem pickFromRegions_spec (h : m.WF count L []) {regs : List ℕ} (hn : regs.Nodup)
    (hr : ∀ i ∈ regs, i ∈ m.usedRegions++m.ntUsedRegions) :
    (m.pickFromRegions regs).WF count L regs := by
  have hnodup := h.nodup
  simp only [places,List.append_nil] at hnodup
  have hsub : ((m.pickFromRegions regs).usedRegions++(m.pickFromRegions regs).ntUsedRegions).Sublist
      (m.usedRegions++m.ntUsedRegions) := List.filter_sublist.append List.filter_sublist
  have hmem : ∀ i, i ∈ (m.pickFromRegions regs).places regs ↔ i ∈ m.places [] := by
    intro i
    simp only [places,pickFromRegions,List.mem_append,List.mem_filter,decide_eq_true_eq,
      List.not_mem_nil,or_false]
    have := hr i
    rw [List.mem_append] at this
    tauto
  refine ⟨?_,?_,h.core_index,?_,h.core_inj,h.tiles,h.large,h.managed,h.free,h.opened,?_⟩
  · simp only [places]
    rw [List.append_assoc,List.append_assoc,← List.append_assoc _ _ regs,← List.append_assoc]
    rw [List.append_assoc] at hnodup
    obtain ⟨hf,hu,hfu⟩ := List.nodup_append.mp hnodup
    refine List.nodup_append.mpr ⟨List.nodup_append.mpr ⟨hf,hu.sublist hsub,?_⟩,hn,?_⟩
    · intro a ha b hb
      exact hfu a ha b (hsub.subset hb)
    · intro a ha b hb he
      subst he
      rcases List.mem_append.mp ha with ha | ha
      · exact hfu a ha a (hr a hb) rfl
      · simp only [pickFromRegions,List.mem_append,List.mem_filter,decide_eq_true_eq] at ha
        tauto
  · intro i hi
    exact h.index i ((hmem i).mp hi)
  · intro c nt hv hi
    exact h.core_out c nt hv ((hmem _).mp hi)
  · intro i hi
    refine h.closed i ?_
    rw [List.append_nil]
    rcases List.mem_append.mp hi with hi | hi
    · exact hsub.subset hi
    · exact hr i hi

theorem pushFreeRegion_spec (h : m.WF count L (i::out)) :
    (m.pushFreeRegion i).WF count (update L i []) out := by
  have hperm : ((m.pushFreeRegion i).places out).Perm (m.places (i::out)) := by
    have : m.freeRegions++[i]++m.usedRegions++m.ntUsedRegions++out =
        m.freeRegions++i::(m.usedRegions++m.ntUsedRegions++out) := by simp
    rw [places,places,show (m.pushFreeRegion i).freeRegions = m.freeRegions++[i] from rfl]
    change (m.freeRegions++[i]++m.usedRegions++m.ntUsedRegions++out).Perm _
    rw [this]
    refine List.perm_middle.trans ?_
    simpa using (@List.perm_middle _ i (m.freeRegions++m.usedRegions++m.ntUsedRegions) out).symm
  have hnodup := h.nodup
  have hclear : i ∉ m.freeRegions++m.usedRegions++m.ntUsedRegions ∧ i ∉ out := by
    have hmid := List.nodup_middle.mp hnodup
    have := (List.nodup_cons.mp hmid).1
    rw [List.mem_append,not_or] at this
    exact this
  have hcore : ∀ c nt, (m.coreLocal c nt).valid = true → (m.coreLocal c nt).buf ≠ i := by
    intro c nt hv he
    exact h.core_out c nt hv (by simp [places,he])
  have hother : ∀ {j}, j ≠ i → (m.pushFreeRegion i).regions j = m.regions j := by
    intro j hj
    exact setRegion_other _ hj
  refine ⟨hperm.nodup_iff.mpr hnodup,?_,h.core_index,?_,h.core_inj,?_,?_,?_,?_,?_,?_⟩
  · intro j hj
    exact h.index j (hperm.mem_iff.mp hj)
  · intro c nt hv hj
    exact h.core_out c nt hv (hperm.mem_iff.mp hj)
  · intro j
    by_cases hj : j = i
    · subst hj
      exact ⟨kObjectPos,by decide,by rw [update_self]; rfl⟩
    · rw [update_of_ne hj]
      exact h.tiles j
  · intro j b hb
    by_cases hj : j = i
    · subst hj
      simp at hb
    · rw [update_of_ne hj] at hb
      exact h.large j b hb
  · intro j hne
    by_cases hj : j = i
    · subst hj
      simp at hne
    · rw [update_of_ne hj] at hne
      exact h.managed j hne
  · intro j hj
    by_cases hji : j = i
    · subst hji
      have hreg : (m.pushFreeRegion j).regions j = (m.regions j).reset := setRegion_same j _
      rw [hreg,update_self]
      exact ⟨rfl,rfl,rfl⟩
    · rw [update_of_ne hji,hother hji]
      have : j ∈ m.freeRegions++[i] := hj
      exact h.free j (by simpa [hji] using this)
  · intro c nt hv
    have hv' : (m.coreLocal c nt).valid = true := hv
    have hne := hcore c nt hv'
    change Split kObjectPos (((m.pushFreeRegion i).regions (m.coreLocal c nt).buf).gcBoundaries++
      [((m.pushFreeRegion i).regions (m.coreLocal c nt).buf).firstFreeByteIdx])
      (update L i [] (m.coreLocal c nt).buf)
    rw [hother hne,update_of_ne hne]
    exact h.opened c nt hv'
  · intro j hj
    have hj' : j ∈ m.usedRegions++m.ntUsedRegions++out := hj
    have hne : j ≠ i := by
      rintro rfl
      have h1 := hclear.1
      have h2 := hclear.2
      simp only [List.mem_append,not_or] at h1 hj'
      tauto
    rw [hother hne,update_of_ne hne]
    refine h.closed j ?_
    simp only [List.mem_append,List.mem_cons] at hj' ⊢
    tauto

theorem pushFreeRegions_base (regs : List ℕ) : (m.pushFreeRegions regs).base = m.base := by
  induction regs generalizing m with
  | nil => rfl
  | cons i regs ih => exact ih (m := m.pushFreeRegion i)

theorem pushFreeRegions_spec {regs : List ℕ} (h : m.WF count L regs) :
    (m.pushFreeRegions regs).WF count (fun i => if i ∈ regs then [] else L i) [] := by
  induction regs generalizing m L with
  | nil => simpa [pushFreeRegions] using h
  | cons i regs ih =>
    have hstep := ih (pushFreeRegion_spec h)
    have hL : (fun j => if j ∈ regs then [] else update L i [] j) =
        fun j => if j ∈ i::regs then [] else L j := by
      funext j
      by_cases hj : j = i
      · subst hj
        simp
      · simp [hj]
    rw [hL] at hstep
    exact hstep

theorem build_wf (isLocal : Bool) (base : ℕ) {count : ℕ} (hcount : 2*kNumSocket1CPUs < count) :
    (build isLocal base count).WF count (fun _ => []) [] := by
  have hlt : ∀ c nt, ((build isLocal base count).coreLocal c nt).valid = true →
      ((build isLocal base count).coreLocal c nt).buf < 2*kNumCPUs := by
    intro c nt hv
    have hc : c < kNumCPUs := of_decide_eq_true hv
    have hnt := Bool.toNat_lt nt
    change 2*c+nt.toNat < _
    omega
  have hplaces : ∀ i, i ∈ (build isLocal base count).places [] ↔
      2*kNumCPUs ≤ i ∧ i < 2*kNumCPUs+(count-2*kNumSocket1CPUs) := by
    simp [places,build,List.mem_range'_1]
  refine ⟨?_,?_,?_,?_,?_,?_,by simp,by simp,?_,?_,by simp [build]⟩
  · simp [places,build,List.nodup_range']
  · intro i hi
    have hb := (hplaces i).mp hi
    unfold kNumCPUs kNumSocket1CPUs at *
    omega
  · intro c nt hv
    have hb := hlt c nt hv
    unfold kNumCPUs kNumSocket1CPUs at *
    omega
  · intro c nt hv hi
    have hb := hlt c nt hv
    have hp := (hplaces _).mp hi
    omega
  · intro c nt c' nt' _ _ he
    change 2*c+nt.toNat = 2*c'+nt'.toNat at he
    cases nt <;> cases nt' <;> simp at he ⊢ <;> omega
  · intro i
    exact ⟨kObjectPos,by decide,rfl⟩
  · intro i _
    exact ⟨rfl,rfl,rfl⟩
  · intro c nt _
    exact ⟨[],[],rfl,rfl,rfl⟩

end Manager

end FarMemory.Regions
