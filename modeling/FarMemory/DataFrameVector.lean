import FarMemory.CountedLoop
import FarMemory.StdVector

/-!
# Data frame columns

A `DataFrameVector` splits a column into chunks of `kRealChunkNumEntries`
elements, each owned by a unique far pointer whose object id is the chunk's
number. The server keeps the whole column in one `std::vector`, registered under
the column's data structure id, and serves a chunk by its offset in that vector's
storage, up to the vector's capacity. A column is modelled together with its
server vector. `none` as the result of an operation means undefined behaviour: a
pointer past the chunks is followed, or storage outside the server vector is
touched. Assertions are compiled out, as in the release build.
-/
namespace FarMemory.DataFrame
open CountedLoop StdVector

/-- The compile-time constants of an element type. -/
structure Layout where
  chunkNumEntries : ℕ
  numEntriesPerExpansion : ℕ
  chunkNumEntries_pos : 0 < chunkNumEntries
  numEntriesPerExpansion_pos : 0 < numEntriesPerExpansion

/-- `kRealChunkNumEntries` and `kNumEntriesPerExpansion` of an element type of
`width` bytes: chunks of about 4096 bytes, expansions of 4 MiB. -/
def Layout.ofWidth (width : ℕ) : Layout where
  chunkNumEntries := max 1 (2^Nat.clog 2 (4096/width))
  numEntriesPerExpansion := (2^22-1)/width+1
  chunkNumEntries_pos := by simp
  numEntriesPerExpansion_pos := Nat.succ_pos _

/-- What a chunk's far pointer denotes: a local object with its dirty bit, or an
object id on the server. -/
inductive Chunk (α : Type)
  | present (data : ℕ → Option α) (dirty : Bool)
  | remote

structure DataFrameVector (α : Type) where
  layout : Layout
  size : ℕ
  remoteVecCapacity : ℕ
  chunkPtrs : List (Chunk α)
  dirty : Bool
  /-- The `vec_` of the server data structure registered under `ds_id_`. -/
  server : Vec α

section Server
variable {α : Type}

/-- `chunk_size` bytes at the chunk's offset, or those left below the capacity.
An offset beyond the capacity makes the unsigned difference wrap. -/
def readObject (s : Vec α) (n i : ℕ) : Option (ℕ → Option α) :=
  if i*n ≤ s.capacity then
    some fun o => if o < n ∧ i*n+o < s.capacity then s.cells (i*n+o) else none
  else none

def writeObject (s : Vec α) (n i : ℕ) (data : ℕ → Option α) : Option (Vec α) :=
  if i*n ≤ s.capacity then
    some ⟨s.size,s.capacity,
      fun j => if i*n ≤ j ∧ j < (i+1)*n ∧ j < s.capacity then data (j-i*n) else s.cells j,s.fits⟩
  else none

def computeReserve [ValueInit α] (al : Allocator) (s : Vec α) (newCapacity : ℕ) : Vec α :=
  let s := s.resize al newCapacity
  s.resize al s.capacity

end Server

namespace DataFrameVector
variable {α : Type} [ValueInit α] (al : Allocator)

/-- A new column acquires a new data structure id and with it an empty server
vector. -/
def new (layout : Layout) : DataFrameVector α := ⟨layout,0,0,[],false,.new⟩

/-- `kRealChunkNumEntries`. -/
def entries (v : DataFrameVector α) : ℕ := v.layout.chunkNumEntries

def capacity (v : DataFrameVector α) : ℕ := v.chunkPtrs.length*v.entries

def reserveRemote (v : DataFrameVector α) (num : ℕ) : DataFrameVector α :=
  if v.remoteVecCapacity < num then
    let s := computeReserve al v.server num
    {v with server := s, remoteVecCapacity := s.capacity}
  else v

/-- `GenericDataFrameVector::expand`: new chunks are local and dirty from the
start, with indeterminate contents. -/
def expandChunks (v : DataFrameVector α) (num : ℕ) : DataFrameVector α :=
  let v' := v.reserveRemote al ((v.chunkPtrs.length+num)*v.entries)
  {v' with chunkPtrs := v'.chunkPtrs++List.replicate num (.present (fun _ => none) true)}

def expand (v : DataFrameVector α) (num : ℕ) : DataFrameVector α :=
  v.expandChunks al ((num-1)/v.entries+1)

def chunksFor (v : DataFrameVector α) (num : ℕ) : ℕ :=
  if num = 0 then 0 else (num-1)/v.entries+1

/-- The new chunks' pointers name objects that are already on the server. -/
def expandNoAlloc (v : DataFrameVector α) (num : ℕ) : DataFrameVector α :=
  {v with chunkPtrs := v.chunkPtrs++List.replicate (v.chunksFor num) .remote}

def setChunk (v : DataFrameVector α) (i : ℕ) (c : Chunk α) : DataFrameVector α :=
  {v with chunkPtrs := v.chunkPtrs.set i c}

/-- Dereference a chunk, which swaps it in if it is remote. -/
def deref (v : DataFrameVector α) (i : ℕ) : Option ((ℕ → Option α) × DataFrameVector α) :=
  match v.chunkPtrs[i]? with
  | none => none
  | some (.present d _) => some (d,v)
  | some .remote =>
    (readObject v.server v.entries i).map fun d =>
      (d,v.setChunk i (.present d false))

/-- Dereference a chunk for writing, which also sets its dirty bit. -/
def derefMut (v : DataFrameVector α) (i : ℕ) : Option ((ℕ → Option α) × DataFrameVector α) :=
  (v.deref i).map fun r =>
    (r.1,r.2.setChunk i (.present r.1 true))

def atIndex (v : DataFrameVector α) (index : ℕ) : Option (Option α × DataFrameVector α) :=
  (v.deref (index/v.entries)).map fun r => (r.1 (index%v.entries),r.2)

/-- Write `x` through the reference returned by `at_mut`. -/
def atMut (v : DataFrameVector α) (index : ℕ) (x : Option α) : Option (DataFrameVector α) :=
  (derefMut {v with dirty := true} (index/v.entries)).map fun r =>
    r.2.setChunk (index/v.entries) (.present (Function.update r.1 (index%v.entries) x) true)

def pushBack (v : DataFrameVector α) (x : Option α) : Option (DataFrameVector α) :=
  let v' := if v.chunkPtrs.length = v.size/v.entries then
    v.expand al v.layout.numEntriesPerExpansion else v
  atMut {v' with size := v.size+1} v.size x

def popBack (v : DataFrameVector α) : DataFrameVector α := {v with size := v.size-1}

def clear (v : DataFrameVector α) : DataFrameVector α := {v with size := 0}

def reserve (v : DataFrameVector α) (count : ℕ) : DataFrameVector α :=
  if v.capacity < count then v.expand al (count-v.capacity) else v

/-- The source's `resize` only ever grows the column. -/
def resize (v : DataFrameVector α) (count : ℕ) : DataFrameVector α :=
  if v.size < count then {v.reserve al count with size := count} else v

/-- Write back the dirty ones of the chunks `cs`, the first of which has number
`i`, and clear their dirty bits. -/
def flushChunks (n : ℕ) : ℕ → List (Chunk α) → Vec α → Option (List (Chunk α) × Vec α)
  | _,[],s => some ([],s)
  | i,.present d true::cs,s => do
    let s ← writeObject s n i d
    let r ← flushChunks n (i+1) cs s
    some (.present d false::r.1,r.2)
  | i,c::cs,s => (flushChunks n (i+1) cs s).map fun r => (c::r.1,r.2)

def flush (v : DataFrameVector α) : Option (DataFrameVector α) :=
  if v.dirty then
    (flushChunks v.entries 0 v.chunkPtrs v.server).map fun r =>
      {v with dirty := false, chunkPtrs := r.1, server := r.2}
  else some v

/-- The collector evicts a chunk, writing it back if it is dirty. -/
def swapOut (v : DataFrameVector α) (i : ℕ) : Option (DataFrameVector α) :=
  match v.chunkPtrs[i]? with
  | some (.present d true) =>
    (writeObject v.server v.entries i d).map fun s =>
      {v.setChunk i .remote with server := s}
  | some (.present _ false) => some (v.setChunk i .remote)
  | _ => some v

/-- Dereference the chunk a fast iterator has reached, if there is one. -/
def updateOnNewChunk (isMut : Bool) (v : DataFrameVector α) (chunk : ℕ) :
    Option (DataFrameVector α) :=
  if chunk < v.chunkPtrs.length then
    if isMut then (v.derefMut chunk).map Prod.snd else (v.deref chunk).map Prod.snd
  else some v

/-- Construct a fast iterator at element `index`. Its position is the index; the
chunk it points into is dereferenced. Without any chunk the address of the last
chunk wraps and the iterator follows a null pointer. -/
def fastIterator (isMut : Bool) (v : DataFrameVector α) (index : ℕ) :
    Option (DataFrameVector α) :=
  if v.chunkPtrs = [] then none else v.updateOnNewChunk isMut (index/v.entries)

def advance (isMut : Bool) (v : DataFrameVector α) (index : ℕ) : Option (DataFrameVector α) :=
  if (index+1)%v.entries = 0 then v.updateOnNewChunk isMut ((index+1)/v.entries) else some v

def cfbegin (v : DataFrameVector α) : Option (DataFrameVector α) := v.fastIterator false 0

def fbegin (v : DataFrameVector α) : Option (DataFrameVector α) :=
  fastIterator true {v with dirty := true} 0

/-- Write `x` through a mutable fast iterator at `index`, whose chunk is local and
dirty since the iterator reached it. -/
def iterWrite (v : DataFrameVector α) (index : ℕ) (x : Option α) : Option (DataFrameVector α) :=
  (v.derefMut (index/v.entries)).map fun r =>
    r.2.setChunk (index/v.entries) (.present (Function.update r.1 (index%v.entries) x) true)

/-- The move constructor takes over everything but the cached remote capacity. -/
def moveConstruct (other : DataFrameVector α) : DataFrameVector α :=
  {other with remoteVecCapacity := 0}

/-- Move assignment takes over everything but the cached remote capacity, which
stays that of the column the destination held before. -/
def moveAssign (v other : DataFrameVector α) : DataFrameVector α :=
  {other with remoteVecCapacity := v.remoteVecCapacity}

end DataFrameVector

section Compute
variable {α : Type} (al : Allocator)

def computeCopyDataByIdx (s : Vec α) (idx : Vec ℕ) (idxVecSize : ℕ) (ret : Vec α) :
    Option (Vec α) :=
  loop idxVecSize (fun i ret => do
    let k ← (idx.read i).join
    let x ← s.read k
    some (ret.pushBack al x)) (ret.reserve al idxVecSize)

/-- The result is written by unchecked indexing into storage that is reserved but
holds no elements. -/
def computeShuffleDataByIdx (s : Vec α) (idx : Vec ℕ) (idxVecSize : ℕ) (ret : Vec α) :
    Option (Vec α) :=
  loop idxVecSize (fun i ret => do
    let k ← (idx.read i).join
    let x ← s.read i
    ret.store k x) (ret.reserve al idxVecSize)

/-- One round of `_compute_unique`, over the table of the values seen and the vector
of results. -/
def uniqueRound [DecidableEq α] (s : Vec α) (i : ℕ) (acc : List α × Vec α) :
    Option (List α × Vec α) := do
  let x ← (s.read i).join
  some (if x ∈ acc.1 then acc else (x::acc.1,acc.2.pushBack al (some x)))

def computeUnique [DecidableEq α] (s : Vec α) (localVecSize : ℕ) (unique : Vec α) :
    Option (Vec α) :=
  (loop localVecSize (uniqueRound al s) (([] : List α),unique.reserve al localVecSize)).map Prod.snd

/-- `memcpy` of the elements `[begin, end)` of another vector's storage over those
of the resized vector. -/
def computeAssign [ValueInit α] (s src : Vec α) (beginIdx endIdx : ℕ) : Option (Vec α) :=
  loop (endIdx-beginIdx) (fun i s => do
    let x ← src.read (beginIdx+i)
    s.store i x) (s.resize al (endIdx-beginIdx))

end Compute

namespace DataFrameVector
variable {α : Type} (al : Allocator)

/-- The client's side of a result computed by the server into the vector of a new
column. -/
def adopt (layout : Layout) (size : ℕ) (s : Vec α) : DataFrameVector α :=
  expandNoAlloc {new layout with server := s, size := size, remoteVecCapacity := s.capacity}
    s.capacity

/-- Results carry the operands as the operation leaves them. -/
def copyDataByIdxRemotely (v : DataFrameVector α) (idx : DataFrameVector ℕ) :
    Option (DataFrameVector α × DataFrameVector α × DataFrameVector ℕ) := do
  let idx ← idx.flush
  let v ← v.flush
  let s ← computeCopyDataByIdx al v.server idx.server idx.size .new
  some (adopt v.layout idx.size s,v,idx)

def shuffleDataByIdxRemotely (v : DataFrameVector α) (idx : DataFrameVector ℕ) :
    Option (DataFrameVector α × DataFrameVector α × DataFrameVector ℕ) := do
  let idx ← idx.flush
  let v ← v.flush
  let s ← computeShuffleDataByIdx al v.server idx.server idx.size .new
  some (adopt v.layout idx.size s,v,idx)

def getColUniqueValuesRemotely [DecidableEq α] (v : DataFrameVector α) :
    Option (DataFrameVector α × DataFrameVector α) := do
  let v ← v.flush
  let s ← computeUnique al v.server v.size .new
  some (adopt v.layout s.size s,v)

/-- The destination's server vector is overwritten and its chunk pointers are
extended; those it has stay as they are. -/
def assignRemotely [ValueInit α] (v src : DataFrameVector α) (beginIdx endIdx : ℕ) :
    Option (DataFrameVector α × DataFrameVector α) := do
  let src ← src.flush
  let s ← computeAssign al v.server src.server beginIdx endIdx
  let v := {v with server := s, remoteVecCapacity := s.capacity, size := endIdx-beginIdx}
  some (expandNoAlloc v s.capacity,src)

/-- One round of the loop of `copy_data_by_idx_locally`. The state of the loops is
the column that is written, followed by those that are read. -/
def copyRound (i : ℕ) (st : DataFrameVector α × DataFrameVector α × DataFrameVector ℕ) :
    Option (DataFrameVector α × DataFrameVector α × DataFrameVector ℕ) := do
  let (k,idx) ← st.2.2.atIndex i
  let k ← k
  let (x,v) ← st.2.1.atIndex k
  let ret ← st.1.iterWrite i x
  let ret ← ret.advance true i
  let idx ← idx.advance false i
  some (ret,v,idx)

def shuffleRound (i : ℕ) (st : DataFrameVector α × DataFrameVector α × DataFrameVector ℕ) :
    Option (DataFrameVector α × DataFrameVector α × DataFrameVector ℕ) := do
  let (k,idx) ← st.2.2.atIndex i
  let k ← k
  let (x,v) ← st.2.1.atIndex i
  let ret ← st.1.atMut k x
  let v ← v.advance false i
  let idx ← idx.advance false i
  some (ret,v,idx)

/-- The hash set is the list of its elements in the order of their insertion. -/
def collectRound [DecidableEq α] (i : ℕ) (st : List α × DataFrameVector α) :
    Option (List α × DataFrameVector α) := do
  let (x,v) ← st.2.atIndex i
  let x ← x
  let v ← v.advance false i
  some (if x ∈ st.1 then st.1 else st.1++[x],v)

def fillRound (xs : List α) (i : ℕ) (unique : DataFrameVector α) : Option (DataFrameVector α) := do
  let unique ← unique.iterWrite i xs[i]?
  unique.advance true i

def assignRound (beginIdx i : ℕ) (st : DataFrameVector α × DataFrameVector α) :
    Option (DataFrameVector α × DataFrameVector α) := do
  let (x,src) ← st.2.atIndex (beginIdx+i)
  let v ← st.1.iterWrite i x
  let src ← src.advance false (beginIdx+i)
  let v ← v.advance true i
  some (v,src)

variable [ValueInit α]

def copyDataByIdxLocally (v : DataFrameVector α) (idx : DataFrameVector ℕ) :
    Option (DataFrameVector α × DataFrameVector α × DataFrameVector ℕ) := do
  let ret ← ((new v.layout).resize al idx.size).fbegin
  let cidx ← idx.cfbegin
  loop idx.size copyRound (ret,v,cidx)

def shuffleDataByIdxLocally (v : DataFrameVector α) (idx : DataFrameVector ℕ) :
    Option (DataFrameVector α × DataFrameVector α × DataFrameVector ℕ) := do
  let ret := (new v.layout).resize al idx.size
  let v ← v.cfbegin
  let cidx ← idx.cfbegin
  loop idx.size shuffleRound (ret,v,cidx)

/-- The iteration order of a hash set that was filled in the order of the list. -/
structure HashOrder (α : Type) where
  order : List α → List α
  perm : ∀ l, (order l).Perm l

def getColUniqueValuesLocally [DecidableEq α] (ho : HashOrder α) (v : DataFrameVector α) :
    Option (DataFrameVector α × DataFrameVector α) := do
  let v ← v.cfbegin
  let (hashset,v) ← loop v.size collectRound (([] : List α),v)
  let unique ← ((new v.layout).resize al hashset.length).fbegin
  let unique ← loop hashset.length (fillRound (ho.order hashset)) unique
  some (unique,v)

/-- Without a shrinking `resize` the size never becomes smaller here. -/
def assignLocally (v src : DataFrameVector α) (beginIdx endIdx : ℕ) :
    Option (DataFrameVector α × DataFrameVector α) := do
  let v := v.resize al (endIdx-beginIdx)
  let src ← src.fastIterator false beginIdx
  let v ← v.fbegin
  loop (endIdx-beginIdx) (assignRound beginIdx) (v,src)

end DataFrameVector
end FarMemory.DataFrame
