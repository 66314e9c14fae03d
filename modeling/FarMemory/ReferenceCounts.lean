import FarMemory.Execution
import FarMemory.Regions

/-!
# Objects in the making and the collector

`allocate_object` counts an object in the header of its region, and whoever allocated it takes
the count back once the object is filled in. Every path that allocates locally is a thread here
that goes through its stores one by one: the checks it makes first, the rounds of allocation and
refill, and then a script with the fields of the object in the order the path writes them, the
decrement, and a step for each thing in between that does not concern the object. The collector
takes regions with `pop_used_region`, holding `region_spin_` over its retries while the counts
change under its feet, and pushes them to the free ones later.

Reference counts are kept by the address of the region: the increment goes to the buffer of the
core's region, the decrement to the object's address with the low bits cleared.
-/
namespace FarMemory.ReferenceCounts
open Regions Regions.Manager Execution Function

/-- What an object consists of besides its data. -/
inductive Field
  | ptrAddr
  | dataLen
  | dsId
  | idLen
  | objId
  deriving DecidableEq, Repr

inductive Micro
  | write (f : Field)
  /-- A remote allocation, the data, a call of a notifier, a store to a pointer. -/
  | other
  /-- `Region::atomic_inc_ref_cnt(addr, -1)`. -/
  | release
  deriving DecidableEq, Repr

inductive Kind
  | uniquePtr
  | sharedPtr
  | genericUniquePtr
  | genericUniquePtrNb
  | reallocateNb
  /-- With so many more pointers in the ring of a shared object. -/
  | swapIn (sharers : ℕ)
  | mutatorMigrate (notifier : Bool)
  | swapOutCopy (notifier : Bool)
  deriving DecidableEq, Repr

namespace Kind

/-- The path calls `allocate_local_object`, which waits for memory. -/
def blocking : Kind → Bool
  | .uniquePtr | .sharedPtr | .genericUniquePtr | .swapIn _ => true
  | _ => false

/-- The path may find before it allocates that there is nothing to do. -/
def checks : Kind → Bool
  | .swapIn _ | .mutatorMigrate _ | .swapOutCopy _ => true
  | _ => false

/-- `Object::init`. -/
def init : List Micro := [.write .dsId,.write .dataLen,.write .idLen,.write .objId]

/-- The copy of an object: its header and then the id, with the data in between or by a notifier. -/
def copy (notifier : Bool) : List Micro :=
  [.write .ptrAddr,.write .dataLen,.write .dsId,.write .idLen]++
    if notifier then [.write .objId,.other] else [.other,.write .objId]

/-- What the path does once it has the address of the new object. -/
def script : Kind → List Micro
  | .uniquePtr | .sharedPtr => .other::init++[.write .ptrAddr,.release]
  | .genericUniquePtr | .genericUniquePtrNb => [.write .ptrAddr,.other]++init++[.release]
  | .reallocateNb => [.other,.write .ptrAddr,.other]++init++[.other,.release]
  | .swapIn sharers => .other::init++List.replicate (sharers+1) (.write .ptrAddr)++[.release]
  | .mutatorMigrate notifier => copy notifier++[.release,.other,.other]
  | .swapOutCopy notifier => copy notifier++[.other,.release]

end Kind

inductive Stage
  | checking
  | allocating
  | refilling
  | writing (obj addr : ℕ) (todo : List Micro)
  | finished
  deriving DecidableEq, Repr

structure Path where
  kind : Kind
  core : Fin kNumCPUs
  nt : Bool
  objectSize : Fin (2^16)
  stage : Stage

def Path.goto (p : Path) (stage : Stage) : Path := {p with stage := stage}

@[simp] theorem Path.goto_stage (p : Path) (stage : Stage) : (p.goto stage).stage = stage := rfl

/-- An object that lies in a region, with the fields written so far. -/
structure Entry where
  addr : ℕ
  written : Field → Bool

def Entry.write (f : Field) (e : Entry) : Entry := {e with written := update e.written f true}

/-- The loops of `pop_used_region` with their retry counts. -/
inductive Pop
  | nt (retryTimes : ℕ)
  | t (retryTimes : ℕ)
  deriving DecidableEq, Repr

structure State where
  manager : Manager
  refCnt : ℕ → ℤ
  /-- The objects by the order of their allocation. -/
  objects : ℕ → Option Entry
  count : ℕ
  paths : List Path
  pop : Option Pop
  fromRegions : List ℕ

/-- The cache lies in huge pages, so the regions are aligned to their size. -/
def start (hugepage count : ℕ) : State :=
  ⟨build true (hugepage*2^21) count,fun _ => 0,fun _ => none,0,[],none,[]⟩

def regionAddr (addr : ℕ) : ℕ := addr-addr%kSize

namespace State

def setPath (s : State) (j : ℕ) (p : Path) : State := {s with paths := s.paths.set j p}

def setManager (s : State) (m : Manager) : State := {s with manager := m}

def addRefCnt (s : State) (b : ℕ) (delta : ℤ) : State :=
  {s with refCnt := update s.refCnt b (s.refCnt b+delta)}

def newObject (s : State) (addr : ℕ) : State :=
  {s with objects := update s.objects s.count (some ⟨addr,fun _ => false⟩), count := s.count+1}

def writeField (s : State) (obj : ℕ) (f : Field) : State :=
  {s with objects := update s.objects obj ((s.objects obj).map (Entry.write f))}

/-- `Region::allocate_object` on the region of the path's core. -/
def allocateObject (s : State) (j : ℕ) (p : Path) : State :=
  match s.manager.allocateObject p.core p.nt p.objectSize with
  | (some a,m) =>
    (((s.setManager m).addRefCnt (s.manager.addr (s.manager.coreLocal p.core p.nt).buf 0) 1).newObject a).setPath j
      (p.goto (.writing s.count a p.kind.script))
  | (none,m) => (s.setManager m).setPath j (p.goto .refilling)

/-- A blocking path that finds no free region waits and goes on, perhaps on another core. -/
def refill (s : State) (j : ℕ) (p : Path) (core : Fin kNumCPUs) : State :=
  match s.manager.tryRefill p.core p.nt with
  | (true,m) => (s.setManager m).setPath j (p.goto .allocating)
  | (false,m) =>
    (s.setManager m).setPath j
      (if p.kind.blocking then {p with core := core, stage := .allocating} else p.goto .finished)

def micro (s : State) (obj addr : ℕ) : Micro → State
  | .write f => s.writeField obj f
  | .other => s
  | .release => s.addRefCnt (regionAddr addr) (-1)

end State

def kPickRegionMaxRetryTimes : ℕ := 3

inductive Outcome
  | done
  | retry
  | picked (region : ℕ)
  | failed
  deriving DecidableEq, Repr

/-- One pass of a loop of `pop_used_region`: the non-temporal queue is rotated by the retries, the
front of the other one is tried again. -/
def tryPop (s : State) : Pop → Outcome × State
  | .nt retryTimes =>
    match s.manager.ntUsedRegions with
    | [] => (.retry,{s with pop := some (.t 0)})
    | i::rest =>
      if s.refCnt (s.manager.addr i 0) = 0 then
        (.picked i,{s with
          manager := {s.manager with ntUsedRegions := rest}
          pop := none
          fromRegions := s.fromRegions++[i]})
      else (.retry,{s with
        manager := {s.manager with ntUsedRegions := rest++[i]}
        pop := some (if retryTimes ≤ kPickRegionMaxRetryTimes then .nt (retryTimes+1) else .t 0)})
  | .t retryTimes =>
    match s.manager.usedRegions with
    | [] => (.failed,{s with pop := none})
    | i::rest =>
      if s.refCnt (s.manager.addr i 0) = 0 then
        (.picked i,{s with
          manager := {s.manager with usedRegions := rest}
          pop := none
          fromRegions := s.fromRegions++[i]})
      else if retryTimes ≤ kPickRegionMaxRetryTimes then (.retry,{s with pop := some (.t (retryTimes+1))})
      else (.failed,{s with pop := none})

/-- The memory of a free region is given out anew. -/
def pushFree (s : State) (i : ℕ) : State :=
  {s with
    manager := s.manager.pushFreeRegion i
    objects := fun id => (s.objects id).filter fun e => regionAddr e.addr ≠ s.manager.addr i 0
    fromRegions := s.fromRegions.erase i}

inductive Op
  | call (kind : Kind) (core : Fin kNumCPUs) (nt : Bool) (objectSize : Fin (2^16))
  | check (j : ℕ) (proceed : Bool)
  | allocate (j : ℕ)
  | refill (j : ℕ) (core : Fin kNumCPUs)
  | micro (j : ℕ)
  | lockPop
  | tryPop
  | pushFree (i : ℕ)

def step (s : State) : Op → Option (Outcome × State)
  | .call kind core nt objectSize =>
    some (.done,{s with paths := s.paths++[⟨kind,core,nt,objectSize,if kind.checks then .checking else .allocating⟩]})
  | .check j proceed =>
    match s.paths[j]? with
    | some p =>
      if p.stage = .checking then
        some (.done,s.setPath j (p.goto (if proceed then .allocating else .finished)))
      else none
    | none => none
  | .allocate j =>
    match s.paths[j]? with
    | some p => if p.stage = .allocating then some (.done,s.allocateObject j p) else none
    | none => none
  | .refill j core =>
    match s.paths[j]? with
    | some p => if p.stage = .refilling ∧ s.pop = none then some (.done,s.refill j p core) else none
    | none => none
  | .micro j =>
    match s.paths[j]? with
    | some p =>
      match p.stage with
      | .writing obj addr (c::todo) =>
        some (.done,(s.micro obj addr c).setPath j
          (p.goto (if todo = [] then .finished else .writing obj addr todo)))
      | _ => none
    | none => none
  | .lockPop => if s.pop = none then some (.done,{s with pop := some (.nt 0)}) else none
  | .tryPop => s.pop.map fun pop => ReferenceCounts.tryPop s pop
  | .pushFree i => if i ∈ s.fromRegions ∧ s.pop = none then some (.done,ReferenceCounts.pushFree s i) else none

/-! ### Objects that are finished -/

/-- Header, back pointer and id are there. -/
def Entry.Finished (e : Entry) : Prop := ∀ f, e.written f = true

/-- The object lies in the region with this index. -/
def Entry.InRegion (e : Entry) (m : Manager) (i : ℕ) : Prop := regionAddr e.addr = m.addr i 0

/-! ### Where regions are -/

/-- A region is in one place, and a core's region is in no queue. -/
structure Placed (m : Manager) (out : List ℕ) : Prop where
  nodup : (m.places out).Nodup
  core_out : ∀ c nt, (m.coreLocal c nt).valid = true → (m.coreLocal c nt).buf ∉ m.places out
  core_inj : ∀ c nt c' nt', (m.coreLocal c nt).valid = true → (m.coreLocal c' nt').valid = true →
    (m.coreLocal c nt).buf = (m.coreLocal c' nt').buf → c = c' ∧ nt = nt'

/-- The first free byte of a region lies six bytes behind a multiple of eight, so never at its end. -/
def Offsets (m : Manager) : Prop :=
  ∀ i, (m.regions i).firstFreeByteIdx%8 = 6 ∧ (m.regions i).firstFreeByteIdx ≤ kSize

section Placement
variable {m m' : Manager} {out out' : List ℕ} {core : ℕ} {nt : Bool}

theorem Placed.move (h : Placed m out) (hperm : (m'.places out').Perm (m.places out))
    (hcore : m'.coreLocal = m.coreLocal) : Placed m' out' := by
  refine ⟨hperm.nodup_iff.mpr h.nodup,?_,?_⟩
  · intro c t hv
    rw [hcore] at hv ⊢
    exact fun hmem => h.core_out c t hv (hperm.mem_iff.mp hmem)
  · rw [hcore]
    exact h.core_inj

theorem Placed.close (h : Placed m out) (hv : (m.coreLocal core nt).valid = true)
    (hperm : (m'.places out).Perm ((m.coreLocal core nt).buf::m.places out))
    (hcore : m'.coreLocal = fun c t => if c = core ∧ t = nt then {m.coreLocal core nt with valid := false}
      else m.coreLocal c t) : Placed m' out := by
  have hold : ∀ {c t}, (m'.coreLocal c t).valid = true →
      ¬ (c = core ∧ t = nt) ∧ m'.coreLocal c t = m.coreLocal c t := by
    intro c t hvalid
    rw [hcore] at hvalid ⊢
    by_cases hslot : c = core ∧ t = nt
    · simp only [hslot,and_self,if_true] at hvalid
      cases hvalid
    · simp only [hslot,if_false,not_false_eq_true,true_and]
  refine ⟨hperm.nodup_iff.mpr (List.nodup_cons.mpr ⟨h.core_out core nt hv,h.nodup⟩),?_,?_⟩
  · intro c t hvalid
    obtain ⟨hslot,heq⟩ := hold hvalid
    rw [heq] at hvalid ⊢
    rw [hperm.mem_iff,List.mem_cons,not_or]
    exact ⟨fun hbuf => hslot (h.core_inj c t core nt hvalid hv hbuf),h.core_out c t hvalid⟩
  · intro c t c' t' hvalid hvalid' hbuf
    obtain ⟨-,heq⟩ := hold hvalid
    obtain ⟨-,heq'⟩ := hold hvalid'
    rw [heq] at hvalid hbuf
    rw [heq'] at hvalid' hbuf
    exact h.core_inj c t c' t' hvalid hvalid' hbuf

theorem Placed.open (h : Placed m out) {i : ℕ} (hperm : (m.places out).Perm (i::m'.places out))
    (hcore : m'.coreLocal = fun c t => if c = core ∧ t = nt then ⟨i,true⟩ else m.coreLocal c t) :
    Placed m' out := by
  have hnodup := List.nodup_cons.mp (hperm.nodup_iff.mp h.nodup)
  have hi : i ∈ m.places out := hperm.mem_iff.mpr List.mem_cons_self
  refine ⟨hnodup.2,?_,?_⟩
  · intro c t hvalid
    rw [hcore] at hvalid ⊢
    by_cases hslot : c = core ∧ t = nt
    · simp only [hslot,and_self,if_true]
      exact hnodup.1
    · simp only [hslot,if_false] at hvalid ⊢
      exact fun hmem => h.core_out c t hvalid (hperm.mem_iff.mpr (List.mem_cons_of_mem _ hmem))
  · intro c t c' t' hvalid hvalid' hbuf
    rw [hcore] at hvalid hvalid' hbuf
    by_cases hslot : c = core ∧ t = nt <;> by_cases hslot' : c' = core ∧ t' = nt
    · exact ⟨hslot.1.trans hslot'.1.symm,hslot.2.trans hslot'.2.symm⟩
    · simp only [hslot,hslot',and_self,if_true,if_false] at hvalid' hbuf
      exact absurd (hbuf ▸ hi) (h.core_out c' t' hvalid')
    · simp only [hslot,hslot',and_self,if_true,if_false] at hvalid hbuf
      exact absurd (hbuf ▸ hi) (h.core_out c t hvalid)
    · simp only [hslot,hslot',if_false] at hvalid hvalid' hbuf
      exact h.core_inj c t c' t' hvalid hvalid' hbuf

theorem Placed.setNt (h : Placed m out) (i : ℕ) : Placed (m.setNt i) out := h.move (.refl _) rfl

theorem Offsets.setNt (h : Offsets m) (i : ℕ) : Offsets (m.setNt i) := by
  intro j
  rcases eq_or_ne j i with rfl | hne
  · simp only [Manager.setNt,setRegion,update_self]
    exact h j
  · simp only [Manager.setNt,setRegion,update_of_ne hne]
    exact h j

theorem pushFull_placed (h : Placed m out) (core : ℕ) (nt : Bool) :
    Placed (m.pushFull core nt) out ∧ (m.pushFull core nt).base = m.base ∧
      (m.pushFull core nt).regions = m.regions := by
  unfold pushFull
  dsimp only
  split
  · rename_i hv
    split
    · refine ⟨h.close hv ?_ rfl,rfl,rfl⟩
      simpa only [places,setCoreLocal,List.append_assoc,List.singleton_append] using
        @List.perm_middle _ (m.coreLocal core nt).buf (m.freeRegions++(m.usedRegions++m.ntUsedRegions)) out
    · refine ⟨h.close hv ?_ rfl,rfl,rfl⟩
      simpa only [places,setCoreLocal,List.append_assoc,List.singleton_append,List.cons_append,
        List.nil_append] using
        @List.perm_middle _ (m.coreLocal core nt).buf (m.freeRegions++m.usedRegions) (m.ntUsedRegions++out)
  · exact ⟨h,rfl,rfl⟩

theorem tryRefill_placed (h : Placed m out) (ho : Offsets m) {success : Bool}
    (hs : m.tryRefill core nt = (success,m')) : Placed m' out ∧ Offsets m' ∧ m'.base = m.base := by
  obtain ⟨h1,hbase,hreg⟩ := pushFull_placed h core nt
  have ho1 : Offsets (m.pushFull core nt) := by
    unfold Offsets
    rwa [hreg]
  unfold tryRefill at hs
  dsimp only at hs
  split at hs
  · cases hs
    split
    · exact ⟨h1.setNt _,ho1.setNt _,hbase⟩
    · exact ⟨h1,ho1,hbase⟩
  · rename_i i rest hfree
    have h2 : Placed ({m.pushFull core nt with freeRegions := rest}.setCoreLocal core nt ⟨i,true⟩) out := by
      refine h1.open ?_ rfl
      simp only [places,setCoreLocal,hfree,List.cons_append]
      exact .refl _
    cases hs
    split
    · exact ⟨h2.setNt _,Offsets.setNt ho1 _,hbase⟩
    · exact ⟨h2,ho1,hbase⟩

theorem pushFreeRegion_placed {i : ℕ} (h : Placed m out) (hi : i ∈ out) :
    Placed (m.pushFreeRegion i) (out.erase i) := by
  refine h.move ?_ rfl
  have hout := List.perm_cons_erase hi
  simp only [places,pushFreeRegion,setRegion,List.append_assoc,List.singleton_append]
  refine .append_left _ ?_
  have hmid := @List.perm_middle _ i (m.usedRegions++m.ntUsedRegions) (out.erase i)
  simp only [List.append_assoc] at hmid
  exact hmid.symm.trans (.append_left _ (.append_left _ hout.symm))

theorem Offsets.pushFreeRegion (h : Offsets m) (i : ℕ) : Offsets (m.pushFreeRegion i) := by
  intro j
  rcases eq_or_ne j i with rfl | hne
  · simp only [Manager.pushFreeRegion,setRegion,update_self,Region.reset]
    decide
  · simp only [Manager.pushFreeRegion,setRegion,update_of_ne hne]
    exact h j

theorem updateBoundaries_firstFree (r : Region) (force : Bool) :
    (r.updateBoundaries force).firstFreeByteIdx = r.firstFreeByteIdx := by
  unfold Region.updateBoundaries
  split <;> rfl

theorem alignTo_mod {n : ℕ} (h : n < 2^16) : alignTo n 8%2^16%8 = 0 := by
  unfold alignTo
  omega

theorem Offsets.setRegion (h : Offsets m) (i : ℕ) {r : Region}
    (hr : r.firstFreeByteIdx%8 = 6 ∧ r.firstFreeByteIdx ≤ kSize) : Offsets (m.setRegion i r) := by
  intro j
  rcases eq_or_ne j i with rfl | hne
  · simp only [Manager.setRegion,update_self]
    exact hr
  · simp only [Manager.setRegion,update_of_ne hne]
    exact h j

theorem allocateObject_placed {n : ℕ} {r : Option ℕ} (h : Placed m out) (ho : Offsets m) (hn : n < 2^16)
    (hs : m.allocateObject core nt n = (r,m')) :
    Placed m' out ∧ Offsets m' ∧ m'.base = m.base ∧
      ∀ a, r = some a → (m.coreLocal core nt).valid = true ∧
        ∃ off < kSize, a = m.addr (m.coreLocal core nt).buf off := by
  obtain ⟨k,hk⟩ : ∃ k, alignTo n 8%2^16 = k := ⟨_,rfl⟩
  have hk8 := alignTo_mod hn
  have hreg := ho (m.coreLocal core nt).buf
  unfold Manager.allocateObject at hs
  rw [hk] at hs hk8
  dsimp only at hs
  split at hs
  · rename_i hv
    split at hs
    · cases hs
      refine ⟨h.move (.refl _) rfl,ho.setRegion _ ?_,rfl,fun a ha => by cases ha⟩
      rwa [updateBoundaries_firstFree]
    · rename_i hfit
      cases hs
      refine ⟨h.move (.refl _) rfl,ho.setRegion _ ⟨?_,?_⟩,rfl,fun a ha => ⟨hv,_,?_,(Option.some.inj ha).symm⟩⟩
      · change ((m.regions (m.coreLocal core nt).buf).firstFreeByteIdx+k)%8 = 6
        omega
      · exact Nat.le_of_not_gt hfit
      · have hmul : kSize%8 = 0 := rfl
        omega
  · cases hs
    exact ⟨h,ho,rfl,fun a ha => by cases ha⟩

end Placement

/-! ### What the paths still owe -/

/-- The path has not taken its count back in the region at this address. -/
def Path.holds (b : ℕ) (p : Path) : Bool :=
  match p.stage with
  | .writing _ addr todo => decide (.release ∈ todo) && decide (regionAddr addr = b)
  | _ => false

/-- The path will write the field before it takes its count back. -/
def Path.Owes (obj addr : ℕ) (f : Field) (p : Path) : Prop :=
  ∃ before after, p.stage = .writing obj addr (before++.release::after) ∧ .release ∉ before ∧ .write f ∈ before

theorem Path.Owes.holds {p : Path} {obj addr : ℕ} {f : Field} (h : p.Owes obj addr f) :
    p.holds (regionAddr addr) = true := by
  obtain ⟨before,after,hstage,-⟩ := h
  simp [Path.holds,hstage]

/-- A script gives the count back once, behind the stores to all fields. -/
theorem script_spec (k : Kind) : ∃ before after, k.script = before++.release::after ∧
    .release ∉ before ∧ .release ∉ after ∧ ∀ f, .write f ∈ before := by
  cases k with
  | uniquePtr => exact ⟨.other::Kind.init++[.write .ptrAddr],[],rfl,by decide,by decide,by intro f; cases f <;> decide⟩
  | sharedPtr => exact ⟨.other::Kind.init++[.write .ptrAddr],[],rfl,by decide,by decide,by intro f; cases f <;> decide⟩
  | genericUniquePtr => exact ⟨[.write .ptrAddr,.other]++Kind.init,[],rfl,by decide,by decide,by intro f; cases f <;> decide⟩
  | genericUniquePtrNb => exact ⟨[.write .ptrAddr,.other]++Kind.init,[],rfl,by decide,by decide,by intro f; cases f <;> decide⟩
  | reallocateNb =>
    exact ⟨[.other,.write .ptrAddr,.other]++Kind.init++[.other],[],rfl,by decide,by decide,by intro f; cases f <;> decide⟩
  | swapIn sharers =>
    refine ⟨.other::Kind.init++List.replicate (sharers+1) (.write .ptrAddr),[],rfl,?_,by decide,?_⟩
    · simp [Kind.init]
    · intro f
      cases f <;> simp [Kind.init]
  | mutatorMigrate notifier =>
    exact ⟨Kind.copy notifier,[.other,.other],rfl,by cases notifier <;> decide,by decide,
      by intro f; cases notifier <;> cases f <;> decide⟩
  | swapOutCopy notifier =>
    exact ⟨Kind.copy notifier++[.other],[],by simp [Kind.script],by cases notifier <;> decide,by decide,
      by intro f; cases notifier <;> cases f <;> decide⟩

structure Inv (s : State) : Prop where
  base : s.manager.base%kSize = 0
  placed : Placed s.manager s.fromRegions
  offsets : Offsets s.manager
  refCnt : ∀ b, s.refCnt b = s.paths.countP (Path.holds b)
  once : ∀ p ∈ s.paths, ∀ obj addr todo, p.stage = .writing obj addr todo → todo.count .release ≤ 1
  bounded : ∀ obj, s.count ≤ obj → s.objects obj = none
  owed : ∀ obj e, s.objects obj = some e → ∀ f, e.written f = true ∨ ∃ p ∈ s.paths, p.Owes obj e.addr f
  away : ∀ i ∈ s.fromRegions, s.refCnt (s.manager.addr i 0) = 0

theorem Inv.nonneg {s : State} (h : Inv s) (b : ℕ) : 0 ≤ s.refCnt b := by
  rw [h.refCnt]
  exact Int.natCast_nonneg _

/-- No count is held in a region without references, so its objects are finished. -/
theorem Inv.finished {s : State} (h : Inv s) {i obj : ℕ} {e : Entry} (hzero : s.refCnt (s.manager.addr i 0) = 0)
    (he : s.objects obj = some e) (hin : e.InRegion s.manager i) : e.Finished := by
  intro f
  rcases h.owed obj e he f with hw | ⟨p,hp,howes⟩
  · exact hw
  · rw [h.refCnt,Int.natCast_eq_zero,List.countP_eq_zero] at hzero
    have hholds := howes.holds
    rw [hin] at hholds
    exact absurd hholds (hzero p hp)

section Lists
variable {l : List Path} {j : ℕ} {p p' q : Path}

theorem countP_set_path (hj : l[j]? = some p) (holds : Path → Bool) :
    ((l.set j p').countP holds : ℤ) = l.countP holds-(holds p).toNat+(holds p').toNat := by
  obtain ⟨hlt,rfl⟩ := List.getElem?_eq_some_iff.mp hj
  rw [List.countP_set hlt]
  by_cases hp : holds l[j] = true
  · have hpos : 0 < l.countP holds := List.countP_pos_iff.mpr ⟨_,List.getElem_mem hlt,hp⟩
    rw [if_pos hp,hp]
    cases holds p' <;> simp <;> omega
  · rw [if_neg hp,Bool.eq_false_iff.mpr hp]
    cases holds p' <;> simp

theorem mem_set_or (hj : l[j]? = some p) (hq : q ∈ l) : q ∈ l.set j p' ∨ q = p := by
  obtain ⟨k,hk⟩ := List.mem_iff_getElem?.mp hq
  rcases eq_or_ne j k with rfl | hne
  · exact .inr (Option.some.inj (hk.symm.trans hj))
  · exact .inl (List.mem_iff_getElem?.mpr ⟨k,by rwa [List.getElem?_set_ne hne]⟩)

theorem mem_set_self (hj : l[j]? = some p) : p' ∈ l.set j p' :=
  List.mem_set (List.getElem?_eq_some_iff.mp hj).1 p'

end Lists

section Steps
variable {s : State} {j : ℕ} {p p' : Path} {obj addr i : ℕ} {f : Field} {m : Manager} {todo : List Micro} {c : Micro}

def Path.Idle (p : Path) : Prop := ∀ obj addr todo, p.stage ≠ .writing obj addr todo

theorem Path.Idle.holds (h : p.Idle) (b : ℕ) : p.holds b = false := by
  unfold Path.holds
  split
  · rename_i obj addr todo hstage
    exact absurd hstage (h obj addr todo)
  · rfl

theorem Path.Idle.not_owes (h : p.Idle) : ¬ p.Owes obj addr f := by
  rintro ⟨before,after,hstage,-⟩
  exact h _ _ _ hstage

theorem Inv.not_holds (h : Inv s) (hi : i ∈ s.fromRegions) {q : Path} (hq : q ∈ s.paths) :
    q.holds (s.manager.addr i 0) = false := by
  have hzero := h.away i hi
  rw [h.refCnt,Int.natCast_eq_zero,List.countP_eq_zero] at hzero
  exact Bool.eq_false_iff.mpr (hzero q hq)

/-- The step of one path: `s1` is the state with its effect on the rest, and the path goes on as
`p'`. The count follows what the path holds, and what it no longer owes is written. -/
theorem Inv.advance (h : Inv s) (hj : s.paths[j]? = some p) {s1 : State} (hpaths : s1.paths = s.paths)
    (hfrom : s1.fromRegions = s.fromRegions) (hbase : s1.manager.base = s.manager.base)
    (hplaced : Placed s1.manager s.fromRegions) (hoff : Offsets s1.manager)
    (hrefs : ∀ b, s1.refCnt b = s.refCnt b-(p.holds b).toNat+(p'.holds b).toNat)
    (honce : ∀ obj addr todo, p'.stage = .writing obj addr todo → todo.count .release ≤ 1)
    (hbound : ∀ obj, s1.count ≤ obj → s1.objects obj = none)
    (howed : ∀ obj e, s1.objects obj = some e → ∀ f, e.written f = true ∨ p'.Owes obj e.addr f ∨
      ∃ q ∈ s.paths, q ≠ p ∧ q.Owes obj e.addr f)
    (hnew : ∀ i ∈ s.fromRegions, p'.holds (s.manager.addr i 0) = true → p.holds (s.manager.addr i 0) = true) :
    Inv (s1.setPath j p') := by
  have hp : p ∈ s.paths := List.mem_of_getElem? hj
  refine ⟨hbase ▸ h.base,hfrom ▸ hplaced,hoff,?_,?_,hbound,?_,?_⟩
  · intro b
    change s1.refCnt b = (s1.paths.set j p').countP (Path.holds b)
    rw [hrefs b,h.refCnt b,hpaths,countP_set_path hj]
  · intro q hq
    change q ∈ s1.paths.set j p' at hq
    rw [hpaths] at hq
    rcases List.mem_or_eq_of_mem_set hq with hold | rfl
    · exact h.once q hold
    · exact honce
  · intro obj e he f
    change e.written f = true ∨ ∃ q ∈ s1.paths.set j p', _
    rw [hpaths]
    rcases howed obj e he f with hw | ho | ⟨q,hq,hne,ho⟩
    · exact .inl hw
    · exact .inr ⟨p',mem_set_self hj,ho⟩
    · exact .inr ⟨q,(mem_set_or hj hq).resolve_right hne,ho⟩
  · intro i hi
    change i ∈ s1.fromRegions at hi
    rw [hfrom] at hi
    change s1.refCnt (s1.manager.addr i 0) = 0
    have hold := h.not_holds hi hp
    have hp' : p'.holds (s.manager.addr i 0) = false := by
      rw [Bool.eq_false_iff]
      intro hh
      rw [hnew i hi hh] at hold
      cases hold
    rw [addr_congr hbase,hrefs,h.away i hi,hold,hp']
    rfl

theorem Inv.idle (h : Inv s) (hj : s.paths[j]? = some p) (hp : p.Idle) (hp' : p'.Idle)
    (hbase : m.base = s.manager.base) (hplaced : Placed m s.fromRegions) (hoff : Offsets m) :
    Inv ((s.setManager m).setPath j p') := by
  refine h.advance hj rfl rfl hbase hplaced hoff ?_ ?_ h.bounded ?_ ?_
  · intro b
    change s.refCnt b = _
    rw [hp.holds,hp'.holds]
    simp
  · intro obj addr todo hstage
    exact absurd hstage (hp' _ _ _)
  · intro obj e he f
    rcases h.owed obj e he f with hw | ⟨q,hq,ho⟩
    · exact .inl hw
    · exact .inr (.inr ⟨q,hq,fun heq => hp.not_owes (heq ▸ ho),ho⟩)
  · intro i _ hh
    rw [hp'.holds] at hh
    cases hh

theorem regionAddr_addr (hbase : m.base%kSize = 0) {off : ℕ} (hoff : off < kSize) :
    regionAddr (m.addr i off) = m.addr i 0 := by
  have hmod : m.addr i off%kSize = off := by
    unfold addr
    rw [Nat.add_mod,Nat.add_mod m.base,hbase,Nat.mul_mod_left,Nat.mod_eq_of_lt hoff]
    simp [Nat.mod_eq_of_lt hoff]
  unfold regionAddr
  rw [hmod]
  unfold addr
  omega

theorem addr_region_inj {k : ℕ} (h : m.addr i 0 = m.addr k 0) : i = k :=
  (addr_inj (m := m) (by decide) (by decide) h).1

theorem Inv.allocateObject (h : Inv s) (hj : s.paths[j]? = some p) (hp : p.stage = .allocating) :
    Inv (s.allocateObject j p) := by
  have hidle : p.Idle := fun obj addr todo heq => by
    rw [hp] at heq
    cases heq
  unfold State.allocateObject
  rcases hs : s.manager.allocateObject p.core p.nt p.objectSize with ⟨_ | a,m⟩
  · obtain ⟨hplaced,hoff,hbase,-⟩ := allocateObject_placed h.placed h.offsets p.objectSize.isLt hs
    exact h.idle hj hidle (fun obj addr todo heq => by cases heq) hbase hplaced hoff
  · obtain ⟨hplaced,hoff,hbase,hsome⟩ := allocateObject_placed h.placed h.offsets p.objectSize.isLt hs
    obtain ⟨hvalid,off,hlt,rfl⟩ := hsome _ rfl
    obtain ⟨before,after,hscript,hbefore,hafter,hall⟩ := script_spec p.kind
    have hregion := regionAddr_addr h.base (i := (s.manager.coreLocal p.core p.nt).buf) hlt
    have hholds : ∀ b, (p.goto (.writing s.count (s.manager.addr (s.manager.coreLocal p.core p.nt).buf off)
        p.kind.script)).holds b = decide (s.manager.addr (s.manager.coreLocal p.core p.nt).buf 0 = b) := by
      intro b
      simp [Path.holds,Path.goto,hscript,hregion]
    refine h.advance hj rfl rfl hbase hplaced hoff ?_ ?_ ?_ ?_ ?_
    · intro b
      rw [hidle.holds,hholds]
      change update s.refCnt _ _ b = _
      by_cases hb : s.manager.addr (s.manager.coreLocal p.core p.nt).buf 0 = b
      · subst hb
        rw [update_self]
        simp [State.setManager]
      · rw [update_of_ne (Ne.symm hb)]
        simp [hb]
    · intro obj addr todo heq
      cases heq
      rw [hscript,List.count_append,List.count_cons_self,List.count_eq_zero_of_not_mem hbefore,
        List.count_eq_zero_of_not_mem hafter]
    · intro obj hobj
      change update s.objects s.count _ obj = none
      change s.count+1 ≤ obj at hobj
      rw [update_of_ne (by omega)]
      exact h.bounded obj (by omega)
    · intro obj e he f
      change update s.objects s.count _ obj = some e at he
      rcases eq_or_ne obj s.count with rfl | hne
      · rw [update_self] at he
        cases he
        exact .inr (.inl ⟨before,after,by rw [← hscript]; rfl,hbefore,hall f⟩)
      · rw [update_of_ne hne] at he
        rcases h.owed obj e he f with hw | ⟨q,hq,ho⟩
        · exact .inl hw
        · exact .inr (.inr ⟨q,hq,fun heq => hidle.not_owes (heq ▸ ho),ho⟩)
    · intro i hi hh
      rw [hholds,decide_eq_true_eq] at hh
      refine absurd ?_ (h.placed.core_out _ _ hvalid)
      rw [addr_region_inj hh]
      exact List.mem_append_right _ hi

def rest (obj addr : ℕ) (todo : List Micro) : Stage :=
  if todo = [] then .finished else .writing obj addr todo

theorem holds_rest (p : Path) (obj addr : ℕ) (todo : List Micro) (b : ℕ) :
    (p.goto (rest obj addr todo)).holds b = (decide (.release ∈ todo) && decide (regionAddr addr = b)) := by
  unfold rest
  split
  · rename_i hnil
    subst hnil
    rfl
  · rfl

theorem owes_rest (p : Path) {before after : List Micro}
    (h : todo = before++.release::after) (hr : .release ∉ before) (hf : .write f ∈ before) :
    (p.goto (rest obj addr todo)).Owes obj addr f := by
  refine ⟨before,after,?_,hr,hf⟩
  unfold rest
  rw [if_neg (by rw [h]; simp),h]
  rfl

/-- What a path owes before its next step, it owes afterwards or the step wrote it. -/
theorem Path.Owes.next {obj' addr' : ℕ}
    (hstage : p.stage = .writing obj addr (c::todo)) (h : p.Owes obj' addr' f) :
    obj' = obj ∧ addr' = addr ∧ c ≠ .release ∧
      (c = .write f ∨ (p.goto (rest obj addr todo)).Owes obj addr f) := by
  obtain ⟨before,after,hst,hr,hf⟩ := h
  rw [hstage] at hst
  obtain ⟨hobj,haddr,htodo⟩ := Stage.writing.inj hst
  cases before with
  | nil => cases hf
  | cons d before =>
    obtain ⟨hd,htail⟩ := List.cons.inj htodo
    rw [List.mem_cons,not_or] at hr
    refine ⟨hobj.symm,haddr.symm,fun hc => hr.1 (hc.symm.trans hd),?_⟩
    rcases List.mem_cons.mp hf with heq | hmem
    · exact .inl (hd.trans heq.symm)
    · exact .inr (owes_rest p htail hr.2 hmem)

theorem rest_once {obj' addr' : ℕ} {todo' : List Micro} (p : Path) (h : todo.count .release ≤ 1)
    (hstage : (p.goto (rest obj addr todo)).stage = .writing obj' addr' todo') : todo'.count .release ≤ 1 := by
  change rest obj addr todo = _ at hstage
  unfold rest at hstage
  split at hstage
  · cases hstage
  · cases hstage
    exact h

/-- A step that leaves the counts alone: a store to the object or something else. -/
theorem Inv.store (h : Inv s) (hj : s.paths[j]? = some p)
    (hstage : p.stage = .writing obj addr (c::todo)) (hc : c ≠ .release) {objects : ℕ → Option Entry}
    (hbound : ∀ o, s.count ≤ o → objects o = none)
    (hobjects : ∀ o e, objects o = some e → ∃ e0, s.objects o = some e0 ∧ e.addr = e0.addr ∧
      ∀ f, (e0.written f = true → e.written f = true) ∧ (o = obj → c = .write f → e.written f = true)) :
    Inv ({s with objects := objects}.setPath j (p.goto (rest obj addr todo))) := by
  have hcount : (c::todo).count .release = todo.count .release := List.count_cons_of_ne hc
  have honce := h.once p (List.mem_of_getElem? hj) _ _ _ hstage
  rw [hcount] at honce
  have hholds : ∀ b, p.holds b = (p.goto (rest obj addr todo)).holds b := by
    intro b
    rw [holds_rest]
    simp [Path.holds,hstage,hc.symm]
  refine h.advance hj rfl rfl rfl h.placed h.offsets ?_ (fun _ _ _ => rest_once p honce) hbound ?_ ?_
  · intro b
    rw [hholds b]
    simp
  · intro o e he f
    obtain ⟨e0,he0,haddr,hfield⟩ := hobjects o e he
    rcases h.owed o e0 he0 f with hw | ⟨q,hq,ho⟩
    · exact .inl ((hfield f).1 hw)
    · rw [haddr]
      by_cases hqp : q = p
      · subst hqp
        obtain ⟨rfl,haddr',-,hnow | hlater⟩ := ho.next hstage
        · exact .inl ((hfield f).2 rfl hnow)
        · rw [haddr']
          exact .inr (.inl hlater)
      · exact .inr (.inr ⟨q,hq,hqp,ho⟩)
  · intro i _ hh
    rw [hholds]
    exact hh

theorem Inv.release (h : Inv s) (hj : s.paths[j]? = some p)
    (hstage : p.stage = .writing obj addr (.release::todo)) :
    Inv ((s.addRefCnt (regionAddr addr) (-1)).setPath j (p.goto (rest obj addr todo))) := by
  have honce := h.once p (List.mem_of_getElem? hj) _ _ _ hstage
  rw [List.count_cons_self] at honce
  have hout : .release ∉ todo := List.count_eq_zero.mp (by omega)
  have hnow : ∀ b, p.holds b = decide (regionAddr addr = b) := by
    intro b
    simp [Path.holds,hstage]
  have hthen : ∀ b, (p.goto (rest obj addr todo)).holds b = false := by
    intro b
    rw [holds_rest]
    simp [hout]
  refine h.advance hj rfl rfl rfl h.placed h.offsets ?_ (fun _ _ _ => rest_once p (by omega)) h.bounded ?_ ?_
  · intro b
    rw [hnow,hthen]
    change update s.refCnt _ _ b = _
    by_cases hb : regionAddr addr = b
    · subst hb
      rw [update_self]
      simp
      rfl
    · rw [update_of_ne (Ne.symm hb)]
      simp [hb]
  · intro o e he f
    rcases h.owed o e he f with hw | ⟨q,hq,ho⟩
    · exact .inl hw
    · refine .inr (.inr ⟨q,hq,?_,ho⟩)
      rintro rfl
      obtain ⟨-,-,hne,-⟩ := ho.next hstage
      exact hne rfl
  · intro i _ hh
    rw [hthen] at hh
    cases hh

theorem Inv.micro (h : Inv s) (hj : s.paths[j]? = some p)
    (hstage : p.stage = .writing obj addr (c::todo)) :
    Inv ((s.micro obj addr c).setPath j (p.goto (rest obj addr todo))) := by
  cases c with
  | write f =>
    refine h.store hj hstage (by simp) ?_ ?_
    · intro o ho
      rcases eq_or_ne o obj with rfl | hne
      · rw [update_self,h.bounded o ho]
        rfl
      · rw [update_of_ne hne]
        exact h.bounded o ho
    · intro o e he
      rcases eq_or_ne o obj with rfl | hne
      · rw [update_self] at he
        obtain ⟨e0,he0,rfl⟩ := Option.map_eq_some_iff.mp he
        refine ⟨e0,he0,rfl,fun g => ⟨fun hg => ?_,fun _ hg => ?_⟩⟩
        · simp only [Entry.write,update_apply]
          split
          · rfl
          · exact hg
        · cases hg
          simp [Entry.write]
      · rw [update_of_ne hne] at he
        exact ⟨e,he,rfl,fun g => ⟨id,fun ho => absurd ho hne⟩⟩
  | other =>
    exact h.store hj hstage (by simp) h.bounded fun o e he =>
      ⟨e,he,rfl,fun g => ⟨id,fun _ hg => by cases hg⟩⟩
  | release => exact h.release hj hstage

theorem idle_of_stage {stage : Stage} (h : p.stage = stage)
    (hs : ∀ obj addr todo, stage ≠ .writing obj addr todo) : p.Idle := by
  intro obj addr todo
  rw [h]
  exact hs obj addr todo

theorem Inv.refill (h : Inv s) (hj : s.paths[j]? = some p) (hp : p.stage = .refilling) (core : Fin kNumCPUs) :
    Inv (s.refill j p core) := by
  have hidle : p.Idle := idle_of_stage hp (by simp)
  unfold State.refill
  rcases hs : s.manager.tryRefill p.core p.nt with ⟨_ | _,m⟩
  · obtain ⟨hplaced,hoff,hbase⟩ := tryRefill_placed h.placed h.offsets hs
    refine h.idle hj hidle ?_ hbase hplaced hoff
    split
    · exact idle_of_stage rfl (by simp)
    · exact idle_of_stage rfl (by simp)
  · obtain ⟨hplaced,hoff,hbase⟩ := tryRefill_placed h.placed h.offsets hs
    exact h.idle hj hidle (idle_of_stage rfl (by simp)) hbase hplaced hoff

theorem Inv.call (h : Inv s) (hp : p.Idle) : Inv {s with paths := s.paths++[p]} := by
  refine ⟨h.base,h.placed,h.offsets,?_,?_,h.bounded,?_,h.away⟩
  · intro b
    rw [List.countP_append,List.countP_singleton,hp.holds]
    simpa using h.refCnt b
  · intro q hq
    rcases List.mem_append.mp hq with hold | hnew
    · exact h.once q hold
    · rw [List.mem_singleton.mp hnew]
      exact fun obj addr todo hstage => absurd hstage (hp _ _ _)
  · intro obj e he f
    rcases h.owed obj e he f with hw | ⟨q,hq,ho⟩
    · exact .inl hw
    · exact .inr ⟨q,List.mem_append_left _ hq,ho⟩

/-- The queues and the collector's regions are rearranged; a region that joins the latter is not
referenced. -/
theorem Inv.requeue (h : Inv s) {pop : Option Pop} {out : List ℕ} (hbase : m.base = s.manager.base)
    (hregions : m.regions = s.manager.regions) (hcore : m.coreLocal = s.manager.coreLocal)
    (hperm : (m.places out).Perm (s.manager.places s.fromRegions))
    (hout : ∀ i ∈ out, i ∈ s.fromRegions ∨ s.refCnt (s.manager.addr i 0) = 0) :
    Inv {s with manager := m, pop := pop, fromRegions := out} := by
  refine ⟨hbase ▸ h.base,h.placed.move hperm hcore,?_,h.refCnt,h.once,h.bounded,h.owed,?_⟩
  · change Offsets m
    unfold Offsets
    rw [hregions]
    exact h.offsets
  · intro i hi
    change s.refCnt (m.addr i 0) = 0
    rw [addr_congr hbase]
    exact (hout i hi).elim (h.away i) id

theorem Inv.tryPop (h : Inv s) (pop : Pop) : Inv (tryPop s pop).2 := by
  have hkeep : ∀ i ∈ s.fromRegions, i ∈ s.fromRegions ∨ s.refCnt (s.manager.addr i 0) = 0 := fun i hi => .inl hi
  have hpick : ∀ {k : ℕ}, s.refCnt (s.manager.addr k 0) = 0 → ∀ i ∈ s.fromRegions++[k],
      i ∈ s.fromRegions ∨ s.refCnt (s.manager.addr i 0) = 0 := by
    intro k hk i hi
    rcases List.mem_append.mp hi with hold | hnew
    · exact .inl hold
    · rw [List.mem_singleton.mp hnew]
      exact .inr hk
  cases pop with
  | nt retryTimes =>
    simp only [ReferenceCounts.tryPop]
    split
    · exact h.requeue rfl rfl rfl (.refl _) hkeep
    · rename_i i rest hq
      split
      · rename_i hzero
        refine h.requeue rfl rfl rfl ?_ (hpick hzero)
        simp only [places,hq,List.append_assoc]
        refine .append_left _ (.append_left _ ?_)
        simpa [List.append_assoc] using @List.perm_middle _ i (rest++s.fromRegions) []
      · refine h.requeue rfl rfl rfl ?_ hkeep
        simp only [places,hq,List.append_assoc]
        exact .append_left _ (.append_left _ (by simp [List.perm_middle]))
  | t retryTimes =>
    simp only [ReferenceCounts.tryPop]
    split
    · exact h.requeue rfl rfl rfl (.refl _) hkeep
    · rename_i i rest hq
      split
      · rename_i hzero
        refine h.requeue rfl rfl rfl ?_ (hpick hzero)
        simp only [places,hq,List.append_assoc]
        refine .append_left _ ?_
        simpa [List.append_assoc] using @List.perm_middle _ i (rest++(s.manager.ntUsedRegions++s.fromRegions)) []
      · split
        · exact h.requeue rfl rfl rfl (.refl _) hkeep
        · exact h.requeue rfl rfl rfl (.refl _) hkeep

theorem Inv.pushFree (h : Inv s) (hi : i ∈ s.fromRegions) : Inv (pushFree s i) := by
  have hfilter : ∀ {obj e}, (ReferenceCounts.pushFree s i).objects obj = some e → s.objects obj = some e := by
    intro obj e he
    exact (Option.filter_eq_some_iff.mp he).1
  refine ⟨h.base,pushFreeRegion_placed h.placed hi,h.offsets.pushFreeRegion i,h.refCnt,h.once,?_,?_,?_⟩
  · intro obj hobj
    change (s.objects obj).filter _ = none
    rw [h.bounded obj hobj]
    rfl
  · intro obj e he f
    exact h.owed obj e (hfilter he) f
  · intro k hk
    exact h.away k (List.mem_of_mem_erase hk)

theorem step_inv {s' : State} {op : Op} {out : Outcome} (h : Inv s) (hs : step s op = some (out,s')) : Inv s' := by
  cases op with
  | call kind core nt objectSize =>
    cases hs
    refine h.call ?_
    intro obj addr todo
    dsimp only
    split <;> simp
  | check j proceed =>
    simp only [step] at hs
    split at hs
    · rename_i p hj
      obtain ⟨hp,hs⟩ := Option.ite_none_right_eq_some.mp hs
      cases hs
      refine h.idle (m := s.manager) hj (idle_of_stage hp (by simp)) ?_ rfl h.placed h.offsets
      split
      · exact idle_of_stage rfl (by simp)
      · exact idle_of_stage rfl (by simp)
    · cases hs
  | allocate j =>
    simp only [step] at hs
    split at hs
    · rename_i p hj
      obtain ⟨hp,hs⟩ := Option.ite_none_right_eq_some.mp hs
      cases hs
      exact h.allocateObject hj hp
    · cases hs
  | refill j core =>
    simp only [step] at hs
    split at hs
    · rename_i p hj
      obtain ⟨hp,hs⟩ := Option.ite_none_right_eq_some.mp hs
      cases hs
      exact h.refill hj hp.1 core
    · cases hs
  | micro j =>
    simp only [step] at hs
    split at hs
    · rename_i p hj
      split at hs
      · rename_i obj addr c todo hstage
        cases hs
        exact h.micro hj hstage
      · cases hs
    · cases hs
  | lockPop =>
    obtain ⟨-,hs⟩ := Option.ite_none_right_eq_some.mp hs
    cases hs
    exact h.requeue (m := s.manager) rfl rfl rfl (.refl _) fun i hi => .inl hi
  | tryPop =>
    simp only [step] at hs
    obtain ⟨pop,-,heq⟩ := Option.map_eq_some_iff.mp hs
    have hinv := h.tryPop pop
    rwa [heq] at hinv
  | pushFree i =>
    obtain ⟨hi,hs⟩ := Option.ite_none_right_eq_some.mp hs
    cases hs
    exact h.pushFree hi.1

/-- The region that `pop_used_region` returns joins the collector's regions. -/
theorem tryPop_picked {pop : Pop} {s' : State} (hs : tryPop s pop = (.picked i,s')) :
    i ∈ s'.fromRegions := by
  cases pop with
  | nt retryTimes =>
    simp only [ReferenceCounts.tryPop] at hs
    split at hs
    · cases hs
    · split at hs
      · cases hs
        exact List.mem_append_right _ List.mem_cons_self
      · cases hs
  | t retryTimes =>
    simp only [ReferenceCounts.tryPop] at hs
    split at hs
    · cases hs
    · split at hs
      · cases hs
        exact List.mem_append_right _ List.mem_cons_self
      · split at hs <;> cases hs

end Steps

theorem start_inv (hugepage count : ℕ) : Inv (start hugepage count) := by
  refine ⟨?_,⟨?_,?_,?_⟩,?_,?_,?_,?_,?_,?_⟩
  · change hugepage*2^21%2^20 = 0
    omega
  · simp only [start,places,build,List.append_nil]
    exact List.nodup_range'
  · intro c t hv
    change decide (c < kNumCPUs) = true at hv
    rw [decide_eq_true_eq] at hv
    simp only [start,places,build,List.append_nil,List.mem_range'_1,not_and_or,not_le]
    have ht : t.toNat ≤ 1 := Bool.toNat_le t
    left
    omega
  · intro c t c' t' _ _ hbuf
    change 2*c+t.toNat = 2*c'+t'.toNat at hbuf
    have ht : t.toNat ≤ 1 := Bool.toNat_le t
    have ht' : t'.toNat ≤ 1 := Bool.toNat_le t'
    refine ⟨by omega,?_⟩
    cases t <;> cases t' <;> simp_all <;> omega
  · intro i
    exact ⟨rfl,(by decide : kObjectPos ≤ kSize)⟩
  · intro b
    rfl
  · intro p hp
    cases hp
  · intro obj _
    rfl
  · intro obj e he
    cases he
  · intro i hi
    cases hi

/-- Every interleaving of allocating paths, refills and the collector: no reference count is ever
negative; a region that `pop_used_region` returns, and any region the collector still holds, has
only objects whose header, id and back pointer are written; and when no path is in progress all
counts are zero. -/
theorem collector_sees_finished {hugepage count : ℕ} {tr : List (Op × Outcome)} {s : State}
    (ht : Trace step (fun _ _ => True) (start hugepage count) tr s) :
    (∀ b, 0 ≤ s.refCnt b) ∧
    (∀ i s', step s .tryPop = some (.picked i,s') → ∀ obj e, s'.objects obj = some e →
      e.InRegion s'.manager i → e.Finished) ∧
    (∀ i ∈ s.fromRegions, ∀ obj e, s.objects obj = some e → e.InRegion s.manager i → e.Finished) ∧
    ((∀ p ∈ s.paths, p.stage = .finished) → ∀ b, s.refCnt b = 0) := by
  have h : Inv s := ht.invariant (start_inv hugepage count) fun s op out s' _ h hs => step_inv h hs
  refine ⟨h.nonneg,?_,?_,?_⟩
  · intro i s' hs obj e he hin
    have h' := step_inv h hs
    simp only [step] at hs
    obtain ⟨pop,-,heq⟩ := Option.map_eq_some_iff.mp hs
    exact h'.finished (h'.away i (tryPop_picked heq)) he hin
  · intro i hi obj e he hin
    exact h.finished (h.away i hi) he hin
  · intro hall b
    rw [h.refCnt,Int.natCast_eq_zero,List.countP_eq_zero]
    intro p hp
    have hidle : p.Idle := idle_of_stage (hall p hp) (by simp)
    rw [hidle.holds]
    exact Bool.false_ne_true

/-- A whole run of `allocate_unique_ptr` for the largest object. -/
def allocation (j : ℕ) : List Op :=
  [.call .uniquePtr ⟨0,by decide⟩ false 65528,.allocate j,.micro j,.micro j,.micro j,.micro j,.micro j,.micro j,.micro j]

/-- Sixteen objects fill a region; the seventeenth allocation retires it, and the collector gets it while
that allocation is in progress in the next region. -/
theorem collector_sees_finished_sixteen : ∃ (tr : List (Op × Outcome)) (s s' : State),
    Trace step (fun _ _ => True) (start 1 49) tr s ∧ step s .tryPop = some (.picked 0,s') ∧
    s.refCnt (2^21+40*2^20) = 1 ∧ ∀ obj e, s'.objects obj = some e → e.InRegion s'.manager 0 → e.Finished := by
  have hrun : (exec step (fun _ _ => True) (start 1 49) ((List.range 16).flatMap allocation++
      [.call .uniquePtr ⟨0,by decide⟩ false 65528,.allocate 16,.refill 16 ⟨0,by decide⟩,.allocate 16,.lockPop,.tryPop])).map
      (fun r => (r.2.refCnt (2^21+40*2^20),(step r.2 .tryPop).map (·.1))) = some (1,some (.picked 0)) := by
    decide +kernel
  obtain ⟨outs,s,ht,hobs⟩ := exec_observe hrun
  simp only [Prod.mk.injEq] at hobs
  obtain ⟨href,hpick⟩ := hobs
  obtain ⟨⟨out,s'⟩,hs,hout⟩ := Option.map_eq_some_iff.mp hpick
  change out = _ at hout
  subst hout
  exact ⟨_,s,s',ht,hs,href,(collector_sees_finished ht).2.1 0 s' hs⟩

end FarMemory.ReferenceCounts
