import FarMemory.Regions
import FarMemory.RingLinks
import FarMemory.ServerPtr

/-!
# The far-memory runtime

One machine for unique and shared pointers: pointer cells, the objects of the
local cache, the two region managers, the remote object array and the regions the
collector has taken. Every pointer operation is atomic, as are the three phases
of a collector round (mark, write back, recycle); anything may run between them.

Pointers are the addresses below `numPtrs`. Local objects are kept as records
under their address: the region layout shows that their bytes never overlap.
Recycling a region forgets its objects, so a stale address reads nothing. What
the source leaves to timing is an argument of the operation: the core it runs on,
the bytes that happen to lie in fresh memory, the picked regions, and for each
written back object the core and the value of `almost_empty`. An operation that
has to wait for local memory returns `wait`, with the allocator state it leaves
behind, and is tried again later. An operation that can never return, because far
memory is exhausted, has no step, and neither has one that dereferences null.
-/
namespace FarMemory.PointerRuntime
open PointerMeta FarMemPtrMeta Regions RingLinks IntervalTiling ServerPtr Function

/-- A local object: its header fields, data bytes and object id. -/
structure Object where
  ptrAddr : ℕ
  dataLen : ℕ
  dsId : ℕ
  idLen : ℕ
  data : List UInt8
  objId : ℕ
  deriving DecidableEq, Repr

namespace Object

def size (o : Object) : ℕ := (kHeaderSize+o.dataLen+o.idLen) % 2^16

/-- The last of the six address bytes doubles as the freed mark. -/
def isFreed (o : Object) : Bool := o.ptrAddr/2^40 % 256 == 255

def free (o : Object) : Object := {o with ptrAddr := o.ptrAddr % 2^40+255*2^40}

def setPtrAddr (o : Object) (address : ℕ) : Object := {o with ptrAddr := address % 2^48}

end Object

structure PtrCell where
  word : FarMemPtrMeta
  nextPtr : ℕ
  deriving DecidableEq, Repr

inductive Phase
  | idle
  | marked
  | writtenBack
  deriving DecidableEq, Repr

structure State where
  numPtrs : ℕ
  ptrs : ℕ → PtrCell
  heap : ℕ → Option Object
  cache : Manager
  farMem : Manager
  remote : ℕ → UInt8
  fromRegions : List ℕ
  phase : Phase

namespace State

def word (s : State) (p : ℕ) : FarMemPtrMeta := (s.ptrs p).word
def nextPtr (s : State) (p : ℕ) : ℕ := (s.ptrs p).nextPtr

@[simps -fullyApplied]
def setCache (s : State) (cache : Manager) : State := {s with cache := cache}

@[simps -fullyApplied]
def setFarMem (s : State) (farMem : Manager) : State := {s with farMem := farMem}

@[simps -fullyApplied]
def setRemote (s : State) (remote : ℕ → UInt8) : State := {s with remote := remote}

@[simps -fullyApplied numPtrs heap cache farMem remote fromRegions phase]
def setMeta (s : State) (p : ℕ) (m : FarMemPtrMeta) : State :=
  {s with ptrs := update s.ptrs p {s.ptrs p with word := m}}

@[simps -fullyApplied numPtrs heap cache farMem remote fromRegions phase]
def setNextPtr (s : State) (p q : ℕ) : State :=
  {s with ptrs := update s.ptrs p {s.ptrs p with nextPtr := q}}

@[simps -fullyApplied numPtrs ptrs cache farMem remote fromRegions phase]
def setObject (s : State) (a : ℕ) (o : Object) : State :=
  {s with heap := update s.heap a (some o)}

@[simps -fullyApplied numPtrs ptrs cache farMem remote fromRegions phase]
def modifyObject (s : State) (a : ℕ) (f : Object → Object) : State :=
  {s with heap := update s.heap a ((s.heap a).map f)}

/-- The pointers that `traverse` visits, or the pointer alone. -/
def members (s : State) (p : ℕ) : List ℕ :=
  if (s.word p).isShared then traverse s.nextPtr p s.numPtrs p else [p]

def mapMeta (s : State) (f : FarMemPtrMeta → FarMemPtrMeta) (g : List ℕ) : State :=
  g.foldl (fun s q => s.setMeta q (f (s.word q))) s

/-- `set_present` on one pointer, with its store to the object header. -/
def setPresent (s : State) (a p : ℕ) : State :=
  (s.modifyObject a (·.setPtrAddr p)).setMeta p ((s.word p).setPresent a)

def isNt (s : State) (m : FarMemPtrMeta) : Bool :=
  if m.getObjectDataAddr = 0 then false
  else (s.cache.regions ((m.getObjectDataAddr-s.cache.base)/kSize)).nt

/-- `false` when the blocking allocation has to wait. -/
def swapIn (s : State) (core : ℕ) (nt : Bool) (p : ℕ) : Bool × State :=
  let m := s.word p
  if m.isPresent then (true,s)
  else
    match s.cache.allocate core nt m.getObjectSize with
    | (none,cache) => (false,s.setCache cache)
    | (some a,cache) =>
      let data := readObject s.remote m.getObjectId
      let o : Object := ⟨0,data.length,m.getDsId,kVanillaPtrObjectIDSize,data,m.getObjectId⟩
      (true,(s.members p).foldl (fun s q => s.setPresent a q)
        ((s.setCache cache).setObject a o))

/-- The end of `swap_out`: a dirty object is written to the device, and the
pointers become absent. -/
def evict (s : State) (g : List ℕ) (dirty : Bool) (o : Object) : State :=
  (if dirty then s.setRemote (writeObject s.remote o.objId o.idLen o.data) else s).mapMeta
    (fun m => m.gcWb o.dsId o.size o.objId) g

def swapOut (s : State) (core : ℕ) (almostEmpty : Bool) (p : ℕ) (o : Object) : State :=
  if (s.word p).isEvacuation then
    let g := s.members p
    let hot := g.any fun q => (s.word q).isHot
    let nt := g.all fun q => s.isNt (s.word q)
    let dirty := g.any fun q => (s.word q).isDirty
    if hot && !nt && !almostEmpty then
      match s.cache.allocate core false o.size with
      | (some a,cache) =>
        ((s.setCache cache).setObject a o).mapMeta (fun m => m.gcCopy a) g
      | (none,cache) => (s.setCache cache).evict g dirty o
    else s.evict g dirty o
  else s

def mutatorMigrateObject (s : State) (core p : ℕ) : Bool × State :=
  let m := s.word p
  if m.isPresent && m.isEvacuation then
    match s.heap m.getObjectAddr with
    | none => (false,s)
    | some o =>
      match s.cache.allocate core (s.isNt m) o.size with
      | (none,cache) => (false,s.setCache cache)
      | (some a,cache) =>
        (true,((((s.setCache cache).setObject a o).mapMeta (fun m => m.mutatorCopy a)
          (s.members p)).modifyObject m.getObjectAddr Object.free))
  else (false,s)

inductive Deref
  | null
  | wait
  | addr (dataAddr : ℕ)
  deriving DecidableEq, Repr

/-- `_deref`. A failed swap-in waits, a failed migration yields; either way the
access starts over later. -/
def derefLoop (core : ℕ) (isMut nt : Bool) : ℕ → State → ℕ → Deref × State
  | 0,s,_ => (.wait,s)
  | fuel+1,s,p =>
    let m := s.word p
    if m.metadata &&& exceptions isMut != 0#64 then
      if m.metadata &&& (kPresentClear ||| kEvacuationSet) != 0#64 then
        if m.metadata &&& kPresentClear != 0#64 then
          if m.isNull then (.null,s)
          else
            match s.swapIn core nt p with
            | (true,s') => derefLoop core isMut nt fuel s' p
            | (false,s') => (.wait,s')
        else
          match s.mutatorMigrateObject core p with
          | (true,s') => derefLoop core isMut nt fuel s' p
          | (false,s') => (.wait,s')
      else (.addr m.getObjectDataAddr,s.setMeta p (m.touch isMut m.isShared))
    else (.addr m.getObjectDataAddr,s)

/-- One trip through the slow path makes the object local and unmarked, so the
second trip returns. -/
def deref (s : State) (core : ℕ) (isMut nt : Bool) (p : ℕ) : Deref × State :=
  derefLoop core isMut nt 2 s p

def flush (s : State) (p : ℕ) : State :=
  let m := s.word p
  if m.isPresent && m.isDirty then
    match s.heap m.getObjectAddr with
    | none => s
    | some o =>
      (s.setRemote (writeObject s.remote o.objId kVanillaPtrObjectIDSize o.data)).mapMeta
        clearDirty (s.members p)
  else s

/-- `GenericUniquePtr::evacuate`. -/
def evacuate (s : State) (p : ℕ) : State :=
  let m := s.word p
  if m.isPresent then
    match s.heap m.getObjectAddr with
    | none => s
    | some o =>
      let s₁ := s.flush p
      (s₁.setMeta p ((s₁.word p).gcWb o.dsId o.size o.objId)).modifyObject m.getObjectAddr
        Object.free
  else s

/-- `GenericFarMemPtr::move`, which ends by nullifying the source. -/
def move (s : State) (this other : ℕ) : State :=
  let m := s.word other
  let s₁ := s.setMeta this m
  let s₂ :=
    if m.isPresent then
      let s₂ :=
        if m.isShared then
          let prev := (traverse s₁.nextPtr other s₁.numPtrs other).getLastD other
          let s' := s₁.setNextPtr prev this
          s'.setNextPtr this (if prev ≠ other then s'.nextPtr other else this)
        else s₁
      s₂.modifyObject m.getObjectAddr (·.setPtrAddr this)
    else s₁
  s₂.setMeta other nullify

/-- `GenericUniquePtr::_free`. -/
def freeUnique (s : State) (p : ℕ) : State :=
  (s.modifyObject (s.word p).getObjectAddr Object.free).setMeta p nullify

/-- `GenericSharedPtr::_free`: the last sharer frees the object, any other one
leaves the ring and hands the back pointer on. -/
def freeShared (s : State) (p : ℕ) : State :=
  let a := (s.word p).getObjectAddr
  let next := s.nextPtr p
  let s' :=
    if next = p then s.modifyObject a Object.free
    else
      (s.setNextPtr (findPrev s.nextPtr p s.numPtrs next) next).modifyObject a
        fun o => if o.ptrAddr = p then o.setPtrAddr next else o
  s'.setMeta p nullify

/-- `GenericSharedPtr::operator=`, behind its pin of the destination. -/
def copy (s : State) (this other : ℕ) : State :=
  ((s.setMeta this (s.word other)).setNextPtr this (s.nextPtr other)).setNextPtr other this

/-- Allocation of a pointer that the caller holds in a null cell. `dataLen` is the
size of the type, and `bytes` is what lies in the fresh memory. -/
def allocate (s : State) (core : ℕ) (shared : Bool) (p dataLen : ℕ) (bytes : List UInt8) :
    Option (Bool × State) :=
  let objectSize := kHeaderSize+dataLen+kVanillaPtrObjectIDSize
  match s.cache.allocate core false objectSize with
  | (none,cache) => some (false,s.setCache cache)
  | (some a,cache) =>
    match s.farMem.allocate core false objectSize with
    | (none,_) => none
    | (some id,farMem) =>
      let o : Object :=
        ⟨p % 2^48,dataLen,kVanillaPtrDSID,kVanillaPtrObjectIDSize,bytes,id⟩
      let s₁ := ((s.setCache cache).setFarMem farMem).setObject a o
      let s₂ := s₁.setMeta p (construct shared a)
      some (true,if shared then s₂.setNextPtr p p else s₂)

/-- The allocation half of `reallocate_generic_unique_ptr_nb`, behind its
dereference. -/
def reallocateLocal (s : State) (core p : ℕ) (bytes : List UInt8) : Option (Bool × State) :=
  let a := (s.word p).getObjectAddr
  let objectSize := kHeaderSize+bytes.length+kVanillaPtrObjectIDSize
  match s.cache.allocate core false objectSize with
  | (none,cache) => some (false,s.setCache cache)
  | (some a',cache) =>
    match s.farMem.allocate core false objectSize with
    | (none,_) => none
    | (some id,farMem) =>
      let o : Object :=
        ⟨p % 2^48,bytes.length,kVanillaPtrDSID,kVanillaPtrObjectIDSize,bytes,id⟩
      let s₁ := ((s.setCache cache).setFarMem farMem).setObject a' o
      some (true,(s₁.setMeta p ((s.word p).init false a')).modifyObject a Object.free)

/-! ### The collector -/

def stride (s : State) (a : ℕ) : Option ℕ := (s.heap a).map fun o => alignTo o.size 8

/-- The objects that the tasks of a region walk over. The strides are those at
the start of the phase: neither phase changes the size of an object it walks. -/
def regionObjects (s : State) (i : ℕ) : List ℕ :=
  (s.cache.regions i).boundaries.flatMap fun t =>
    strideWalk s.stride kHeaderSize kSize (s.cache.addr i t.1) (s.cache.addr i t.2)

def gcObjects (s : State) : List ℕ := s.fromRegions.flatMap s.regionObjects

def markObject (s : State) (a : ℕ) : State :=
  match s.heap a with
  | none => s
  | some o => if o.isFreed then s else s.mapMeta setEvacuation (s.members o.ptrAddr)

def gcMark (s : State) (regs : List ℕ) : State :=
  let s₁ := {s with cache := s.cache.pickFromRegions regs, fromRegions := regs, phase := .marked}
  s₁.gcObjects.foldl markObject s₁

def writeBackObject (core : ℕ → ℕ) (almostEmpty : ℕ → Bool) (s : State) (a : ℕ) : State :=
  match s.heap a with
  | none => s
  | some o => if o.isFreed then s else s.swapOut (core a) (almostEmpty a) o.ptrAddr o

def gcWriteBack (s : State) (core : ℕ → ℕ) (almostEmpty : ℕ → Bool) : State :=
  s.gcObjects.foldl (writeBackObject core almostEmpty) {s with phase := .writtenBack}

def gcRecycle (s : State) : State :=
  {s with
    cache := s.cache.pushFreeRegions s.fromRegions
    heap := fun a => if (a-s.cache.base)/kSize ∈ s.fromRegions then none else s.heap a
    fromRegions := []
    phase := .idle}

end State

/-! ### Operations -/

inductive Op
  | allocate (core : ℕ) (shared : Bool) (p : ℕ) (bytes : List UInt8)
  | read (core : ℕ) (nt : Bool) (p : ℕ)
  | write (core : ℕ) (nt : Bool) (p : ℕ) (bytes : List UInt8)
  | move (this other : ℕ)
  | copy (core this other : ℕ)
  | flush (p : ℕ)
  | evacuate (p : ℕ)
  | swapIn (core : ℕ) (nt : Bool) (p : ℕ)
  | free (core : ℕ) (trivial : Bool) (p : ℕ)
  | reallocate (core p : ℕ) (bytes : List UInt8)
  | gcMark (regs : List ℕ)
  | gcWriteBack (core : ℕ → ℕ) (almostEmpty : ℕ → Bool)
  | gcRecycle

inductive Outcome
  | done
  | wait
  | failed
  | value (bytes : List UInt8)
  deriving DecidableEq, Repr

namespace State

/-- What an operation does once its pointer is dereferenced. -/
def withDeref (s : State) (core : ℕ) (isMut nt : Bool) (p : ℕ)
    (k : ℕ → Object → State → Option (Outcome × State)) : Option (Outcome × State) :=
  match s.deref core isMut nt p with
  | (.null,_) => none
  | (.wait,s') => some (.wait,s')
  | (.addr d,s') => (s'.heap (d-kHeaderSize)).bind fun o => k (d-kHeaderSize) o s'

def finish (r : Option (Bool × State)) (no : Outcome) : Option (Outcome × State) :=
  r.map fun (ok,s) => (if ok then .done else no,s)

/-- A pointer that the operation may be called on. -/
def live (s : State) (p : ℕ) : Bool := decide (p < s.numPtrs) && !(s.word p).isNull

/-- The two pointers have the same static type, as far as that shows. -/
def sameKind (s : State) (p q : ℕ) : Bool :=
  (s.word p).isNull || (s.word q).isNull || ((s.word p).isShared == (s.word q).isShared)

def fits (dataLen : ℕ) : Bool :=
  decide (kHeaderSize+dataLen+kVanillaPtrObjectIDSize ≤ 65528)

end State

open State in
def step (s : State) : Op → Option (Outcome × State)
  | .allocate core shared p bytes =>
    if p < s.numPtrs ∧ (s.word p).isNull ∧ fits bytes.length then
      finish (s.allocate core shared p bytes.length bytes) .wait
    else none
  | .read core nt p =>
    if s.live p then s.withDeref core false nt p fun _ o s' => some (.value o.data,s') else none
  | .write core nt p bytes =>
    if s.live p then
      s.withDeref core true nt p fun a o s' =>
        if bytes.length = o.dataLen then some (.done,s'.setObject a {o with data := bytes}) else none
    else none
  | .move this other =>
    if this < s.numPtrs ∧ other < s.numPtrs ∧ s.sameKind this other then
      some (.done,s.move this other)
    else none
  | .copy core this other =>
    if this < s.numPtrs ∧ other < s.numPtrs ∧ ((s.word this).isNull ∨ (s.word this).isShared) ∧
        ((s.word other).isNull ∨ (s.word other).isShared) then
      match s.deref core false false this with
      | (.wait,s') => some (.wait,s')
      | (_,s') => some (.done,s'.copy this other)
    else none
  | .flush p => if s.live p then some (.done,s.flush p) else none
  | .evacuate p => if s.live p ∧ ¬(s.word p).isShared then some (.done,s.evacuate p) else none
  | .swapIn core nt p => if s.live p then finish (some (s.swapIn core nt p)) .wait else none
  | .free core trivial p =>
    if s.live p then
      if (s.word p).isShared then
        s.withDeref core false false p fun _ _ s' => some (.done,s'.freeShared p)
      else if trivial && !(s.word p).isPresent then some (.done,s)
      else s.withDeref core false false p fun _ _ s' => some (.done,s'.freeUnique p)
    else none
  | .reallocate core p bytes =>
    if s.live p ∧ ¬(s.word p).isShared ∧ fits bytes.length then
      s.withDeref core false false p fun _ _ s' => finish (s'.reallocateLocal core p bytes) .failed
    else none
  | .gcMark regs =>
    if s.phase = .idle ∧ regs.Nodup ∧ (∀ i ∈ regs, i ∈ s.cache.usedRegions++s.cache.ntUsedRegions) then
      some (.done,s.gcMark regs)
    else none
  | .gcWriteBack core almostEmpty =>
    if s.phase = .marked then some (.done,s.gcWriteBack core almostEmpty) else none
  | .gcRecycle => if s.phase = .writtenBack then some (.done,s.gcRecycle) else none

/-- What a runtime is built with. The bounds are those of the address fields of
a pointer: 47 bits for local addresses and 38 for object ids. Both managers check
that they have more than `2 * kNumSocket1CPUs` regions. -/
structure Config where
  numPtrs : ℕ
  base : ℕ
  count : ℕ
  farCount : ℕ
  remote : ℕ → UInt8
  numPtrs_le : numPtrs ≤ 2^47
  cache_le : base+count*kSize ≤ 2^47
  far_le : farCount*kSize ≤ 2^38
  count_lt : 2*kNumSocket1CPUs < count
  farCount_lt : 2*kNumSocket1CPUs < farCount

def State.init (c : Config) : State where
  numPtrs := c.numPtrs
  ptrs p := ⟨nullify,p⟩
  heap _ := none
  cache := Manager.build true c.base c.count
  farMem := Manager.build false 0 c.farCount
  remote := c.remote
  fromRegions := []
  phase := .idle

/-- A runtime with four pointers and the smallest caches the managers accept. -/
def Config.small : Config where
  numPtrs := 4
  base := 2^30
  count := 49
  farCount := 49
  remote _ := 0
  numPtrs_le := by decide
  cache_le := by decide
  far_le := by decide
  count_lt := by decide
  farCount_lt := by decide

/-! ### Field lemmas -/

namespace Object

@[simp] theorem free_isFreed (o : Object) : o.free.isFreed = true := by
  simp only [isFreed,free,beq_iff_eq]
  omega

theorem setPtrAddr_ptrAddr (o : Object) {p : ℕ} (hp : p < 2^47) : (o.setPtrAddr p).ptrAddr = p := by
  simp only [setPtrAddr]
  omega

theorem isFreed_of_lt {o : Object} (h : o.ptrAddr < 2^47) : o.isFreed = false := by
  simp only [isFreed,beq_eq_false_iff_ne,ne_eq]
  omega

end Object

namespace State
variable {s : State}

@[simp] theorem setObject_heap_same (a : ℕ) (o : Object) : (s.setObject a o).heap a = some o := by
  simp [setObject]

theorem setObject_heap_of_ne {a x : ℕ} (o : Object) (h : x ≠ a) : (s.setObject a o).heap x = s.heap x := by
  simp [setObject,h]

@[simp] theorem modifyObject_heap_same (a : ℕ) (f : Object → Object) :
    (s.modifyObject a f).heap a = (s.heap a).map f := by
  simp [modifyObject]

theorem modifyObject_heap_of_ne {a x : ℕ} (f : Object → Object) (h : x ≠ a) :
    (s.modifyObject a f).heap x = s.heap x := by
  simp [modifyObject,h]

@[simp] theorem setObject_word (a : ℕ) (o : Object) : (s.setObject a o).word = s.word := rfl
@[simp] theorem modifyObject_word (a : ℕ) (f : Object → Object) : (s.modifyObject a f).word = s.word := rfl
@[simp] theorem modifyObject_nextPtr (a : ℕ) (f : Object → Object) :
    (s.modifyObject a f).nextPtr = s.nextPtr := rfl

theorem setMeta_ptrs (p : ℕ) (m : FarMemPtrMeta) (q : ℕ) :
    (s.setMeta p m).ptrs q = if q = p then {s.ptrs q with word := m} else s.ptrs q := by
  by_cases h : q = p
  · subst h
    simp [setMeta]
  · simp [setMeta,h]

theorem setNextPtr_ptrs (p n q : ℕ) :
    (s.setNextPtr p n).ptrs q = if q = p then {s.ptrs q with nextPtr := n} else s.ptrs q := by
  by_cases h : q = p
  · subst h
    simp [setNextPtr]
  · simp [setNextPtr,h]

@[simp] theorem setMeta_word_same (p : ℕ) (m : FarMemPtrMeta) : (s.setMeta p m).word p = m := by
  simp [word,setMeta_ptrs]

theorem setMeta_word_of_ne {p q : ℕ} (m : FarMemPtrMeta) (h : q ≠ p) :
    (s.setMeta p m).word q = s.word q := by
  simp [word,setMeta_ptrs,h]

@[simp] theorem setMeta_nextPtr (p : ℕ) (m : FarMemPtrMeta) : (s.setMeta p m).nextPtr = s.nextPtr := by
  funext q
  rw [nextPtr,setMeta_ptrs]
  split <;> rfl

@[simp] theorem setNextPtr_word (p n : ℕ) : (s.setNextPtr p n).word = s.word := by
  funext q
  rw [word,setNextPtr_ptrs]
  split <;> rfl

@[simp] theorem setNextPtr_nextPtr (p n : ℕ) :
    (s.setNextPtr p n).nextPtr = update s.nextPtr p n := by
  funext q
  rw [nextPtr,setNextPtr_ptrs]
  by_cases h : q = p
  · subst h
    simp
  · simp [h,nextPtr]

theorem mapMeta_ptrs {f : FarMemPtrMeta → FarMemPtrMeta} {g : List ℕ} (hg : g.Nodup) (q : ℕ) :
    (s.mapMeta f g).ptrs q = if q ∈ g then {s.ptrs q with word := f (s.word q)} else s.ptrs q := by
  induction g generalizing s with
  | nil => simp [mapMeta]
  | cons p g ih =>
    have hp := List.nodup_cons.mp hg
    have hstep := ih (s := s.setMeta p (f (s.word p))) hp.2
    rw [show s.mapMeta f (p::g) = (s.setMeta p (f (s.word p))).mapMeta f g from rfl,hstep]
    by_cases hq : q = p
    · subst hq
      simp [hp.1,setMeta_ptrs]
    · simp [hq,setMeta_ptrs,setMeta_word_of_ne]

/-- Only pointer cells change. -/
structure SameBut (s s' : State) : Prop where
  numPtrs : s'.numPtrs = s.numPtrs
  heap : s'.heap = s.heap
  cache : s'.cache = s.cache
  farMem : s'.farMem = s.farMem
  remote : s'.remote = s.remote
  fromRegions : s'.fromRegions = s.fromRegions
  phase : s'.phase = s.phase

theorem mapMeta_same (f : FarMemPtrMeta → FarMemPtrMeta) (g : List ℕ) : SameBut s (s.mapMeta f g) := by
  induction g generalizing s with
  | nil => exact ⟨rfl,rfl,rfl,rfl,rfl,rfl,rfl⟩
  | cons p g ih =>
    have h := ih (s := s.setMeta p (f (s.word p)))
    exact ⟨h.numPtrs,h.heap,h.cache,h.farMem,h.remote,h.fromRegions,h.phase⟩

theorem setPresentAll {a : ℕ} {g : List ℕ} : ∀ {s : State} {o : Object}, g.Nodup →
    s.heap a = some o → ∃ o', (g.foldl (fun s q => s.setPresent a q) s).heap =
        update s.heap a (some o') ∧ o' = {o with ptrAddr := o'.ptrAddr} ∧
      (∀ hg : g ≠ [], o'.ptrAddr = g.getLast hg % 2^48) ∧
      SameBut s {g.foldl (fun s q => s.setPresent a q) s with heap := s.heap} ∧
      ∀ q, (g.foldl (fun s q => s.setPresent a q) s).ptrs q =
        if q ∈ g then {s.ptrs q with word := (s.word q).setPresent a} else s.ptrs q := by
  induction g with
  | nil =>
    intro s o _ ho
    refine ⟨o,?_,rfl,fun hg => absurd rfl hg,⟨rfl,rfl,rfl,rfl,rfl,rfl,rfl⟩,by simp⟩
    simp [← ho]
  | cons p g ih =>
    intro s o hd ho
    have hp := List.nodup_cons.mp hd
    have hstep : (s.setPresent a p).heap a = some (o.setPtrAddr p) := by
      simp [setPresent,setMeta,modifyObject,ho]
    obtain ⟨o',hheap,heq,hlast,hsame,hptrs⟩ := ih hp.2 hstep
    refine ⟨o',?_,?_,?_,?_,?_⟩
    · rw [List.foldl_cons,hheap]
      simp [setPresent,setMeta,modifyObject]
    · rw [heq]
      rfl
    · intro _
      by_cases hg : g = []
      · subst hg
        have : o' = o.setPtrAddr p := by
          have hx := congrFun hheap a
          simpa [hstep] using hx.symm
        rw [this]
        rfl
      · rw [List.getLast_cons hg]
        exact hlast hg
    · exact ⟨hsame.numPtrs,rfl,hsame.cache,hsame.farMem,hsame.remote,hsame.fromRegions,hsame.phase⟩
    · intro q
      rw [List.foldl_cons,hptrs q]
      by_cases hq : q = p
      · subst hq
        simp [hp.1,setPresent,setMeta_ptrs,modifyObject]
      · have hw : (s.setPresent a p).word q = s.word q := setMeta_word_of_ne _ hq
        have hc : (s.setPresent a p).ptrs q = s.ptrs q := by
          simp [setPresent,setMeta_ptrs,hq,modifyObject]
        simp [hq,hw,hc]

end State

end FarMemory.PointerRuntime
