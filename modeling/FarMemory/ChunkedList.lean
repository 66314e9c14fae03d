import FarMemory.DoublyLinked

/-!
# The far-memory list

A local list of chunks, each with the items of up to `kNumNodesPerChunk_` nodes in far
memory. A chunk has a bitmap of its free nodes and two links for each node. The local
list has a chunk without items at either end; their count is `kInvalidCnt`.

The operations reach a chunk through the raw address that its local node keeps and
that `update_chunk_list_addr` renews. They are written over an `Access` to the chunks,
which says what renewing, reading and writing do: for chunks that are always resident
they are an ordinary table. The direction of an iterator is the parameter `rev`.

What an iterator does to the prefetching cursor is part of the model, the swapping in
by the prefetching threads is not. Items are copied; their destructors are not modelled.
-/
namespace FarMemory.ChunkedList
open DoublyLinked Function

def kMinNumNodesPerChunk : ℕ := 8
def kMaxNumNodesPerChunk : ℕ := 64
def kDefaultChunkSize : ℕ := 4096
def kInvalidCnt : ℕ := kMaxNumNodesPerChunk+1
def kReplenishNumNodes : ℕ := 8192

/-- `sizeof(ChunkList::Node)`: two packed pointers of three bytes. -/
def nodeHeaderSize : ℕ := 2*3

/-- `sizeof(ChunkList::ListData)`: the nodes of head and tail and the pointers to them. -/
def listDataSize : ℕ := 2*nodeHeaderSize+2*3

structure ChunkNodePtr where
  idx : ℕ
  addrOffset : ℕ
  deriving DecidableEq, Repr

structure Config where
  itemSize : ℕ
  numNodesPerChunk : ℕ
  enableMerge : Bool
  customizedSplit : Bool
  prefetchNumNodes : ℕ
  /-- What uninitialised memory holds. -/
  junk : Node ChunkNodePtr

namespace Config
variable (cfg : Config)

def chunkListNodeSize : ℕ := nodeHeaderSize+cfg.itemSize

def initMeta : ℕ := (2^64-1) >>> (64-cfg.numNodesPerChunk)

/-- `kNumNodesPerChunk_ * kMergeThreshRatio` with the ratio 0.75, rounded down. -/
def mergeThresh : ℕ := cfg.numNodesPerChunk*3/4

/-- The lists of a type with items of this size. -/
def ofList (itemSize : ℕ) (enableMerge customizedSplit : Bool) (prefetchNumNodes : ℕ) (junk : Node ChunkNodePtr) : Config where
  itemSize := itemSize
  numNodesPerChunk := max kMinNumNodesPerChunk
    (min kMaxNumNodesPerChunk ((kDefaultChunkSize-8-listDataSize)/(itemSize+nodeHeaderSize)))
  enableMerge := enableMerge
  customizedSplit := customizedSplit
  prefetchNumNodes := prefetchNumNodes
  junk := junk

def nodePtr (idx : ℕ) : ChunkNodePtr := ⟨idx,listDataSize+idx*cfg.chunkListNodeSize⟩

end Config

/-! ### Chunks -/

/-- The bytes of a chunk: the links are at the nodes' offsets, each item follows the links of its node. -/
structure ChunkListData (T : Type) where
  metaWord : ℕ
  headPtr : ChunkNodePtr
  tailPtr : ChunkNodePtr
  links : ℕ → Node ChunkNodePtr
  data : ℕ → Option T

namespace ChunkListData
variable {T : Type}

def headOffset : ℕ := 0
def tailOffset : ℕ := nodeHeaderSize

/-- `init_local_node` and `GenericLocalList::init`. -/
def init (cfg : Config) : ChunkListData T where
  metaWord := cfg.initMeta
  headPtr := ⟨0,headOffset⟩
  tailPtr := ⟨0,tailOffset⟩
  links := update (update (fun _ => cfg.junk) headOffset {cfg.junk with next := ⟨0,tailOffset⟩})
    tailOffset {cfg.junk with prev := ⟨0,headOffset⟩}
  data := fun _ => none

def bsf64 (w : ℕ) : ℕ := ((List.range 64).find? fun i => w.testBit i).getD 64

def allocateNode (cfg : Config) (c : ChunkListData T) : ChunkNodePtr × ChunkListData T :=
  let idx := bsf64 c.metaWord
  (cfg.nodePtr idx,{c with metaWord := c.metaWord ^^^ (1 <<< idx)})

def freeNode (p : ChunkNodePtr) (c : ChunkListData T) : ChunkListData T :=
  {c with metaWord := c.metaWord ||| (1 <<< p.idx)}

def node (c : ChunkListData T) (p : ChunkNodePtr) : Node ChunkNodePtr := c.links p.addrOffset

def item (c : ChunkListData T) (p : ChunkNodePtr) : Option T := c.data p.addrOffset

def setItem (p : ChunkNodePtr) (x : Option T) (c : ChunkListData T) : ChunkListData T :=
  {c with data := update c.data p.addrOffset x}

/-- `begin` and `rbegin`. -/
def first (rev : Bool) (c : ChunkListData T) : ChunkNodePtr :=
  if rev then (c.links tailOffset).prev else (c.links headOffset).next

/-- `end` and `rend`. -/
def last (rev : Bool) (c : ChunkListData T) : ChunkNodePtr := if rev then c.headPtr else c.tailPtr

/-- The new node, whose item is still to be written. -/
def insert (cfg : Config) (rev : Bool) (p : ChunkNodePtr) (c : ChunkListData T) : ChunkNodePtr × ChunkListData T :=
  let (new,c) := c.allocateNode cfg
  (new,{c with links := DoublyLinked.insert ChunkNodePtr.addrOffset rev c.links p new})

/-- The iterator after the node; the item stays where it was. -/
def erase (rev : Bool) (p : ChunkNodePtr) (c : ChunkListData T) : ChunkNodePtr × ChunkListData T :=
  let c := {c with links := DoublyLinked.erase ChunkNodePtr.addrOffset c.links p}
  let c := c.freeNode p
  ((c.node p).ahead rev,c)

end ChunkListData

/-! ### Lists -/

/-- What the list does with the far-memory pointers and the raw addresses of its local nodes. -/
structure Access (σ T : Type) where
  /-- `update_chunk_list_addr`, for writing or not. -/
  update : Bool → ℕ → σ → σ
  chunk : σ → ℕ → ChunkListData T
  setChunk : ℕ → ChunkListData T → σ → σ
  /-- A new far-memory pointer and its chunk. -/
  allocate : ℕ → ChunkListData T → σ → σ
  release : ℕ → σ → σ

/-- `local_list_` with the nodes 0 and 1 as its own head and tail, and the other fields. -/
structure GenericList (σ : Type) where
  links : ℕ → Node ℕ
  pool : List ℕ
  fresh : ℕ
  cnt : ℕ → ℕ
  store : σ
  size : ℕ
  enablePrefetch : Bool
  prefetchReversed : Bool
  prefetchIter : ℕ

structure GenericIterator where
  localIter : ℕ
  chunkIter : ChunkNodePtr
  deriving DecidableEq, Repr

def localHead : ℕ := 0
def localTail : ℕ := 1

namespace GenericList
variable {σ T : Type} (A : Access σ T) (cfg : Config) (rev : Bool)

/-! #### The local list -/

/-- A node from the pool, which gets a block of nodes if it is empty. -/
def allocateLocalNode (s : GenericList σ) : ℕ × GenericList σ :=
  match s.pool with
  | n::pool => (n,{s with pool := pool})
  | [] => (s.fresh+(kReplenishNumNodes-1),{s with
      pool := (List.range' s.fresh (kReplenishNumNodes-1)).reverse
      fresh := s.fresh+kReplenishNumNodes})

def insertLocal (n : ℕ) (s : GenericList σ) : GenericList σ :=
  let (new,s) := s.allocateLocalNode
  {s with links := DoublyLinked.insert id rev s.links n new, cnt := update s.cnt new 0}

def eraseLocal (n : ℕ) (s : GenericList σ) : ℕ × GenericList σ :=
  let s := {s with links := DoublyLinked.erase id s.links n}
  let s := {s with pool := n::s.pool, store := A.release n s.store}
  ((s.links n).ahead rev,s)

def initLocalNode (n : ℕ) (s : GenericList σ) : GenericList σ :=
  {s with store := A.allocate n (.init cfg) s.store}

def addLocalListNode (n : ℕ) (s : GenericList σ) : ℕ × GenericList σ :=
  let s := s.insertLocal rev n
  let new := (s.links n).behind rev
  (new,s.initLocalNode A cfg new)

def setCnt (n c : ℕ) (s : GenericList σ) : GenericList σ := {s with cnt := update s.cnt n c}

/-- The fields as they are initialised. -/
def blank (store : σ) : GenericList σ :=
  ⟨fun n => if n = localHead then ⟨localTail,0⟩ else ⟨0,localHead⟩,[],2,fun _ => 0,store,0,false,true,0⟩

def new (store : σ) : GenericList σ :=
  let s : GenericList σ := blank store
  let s := s.insertLocal true (s.links localTail).prev
  let s := s.insertLocal true (s.links localTail).prev
  let front := (s.links localHead).next
  let back := (s.links localTail).prev
  let s := s.initLocalNode A cfg front
  let s := s.initLocalNode A cfg back
  (s.setCnt front kInvalidCnt).setCnt back kInvalidCnt

/-! #### Prefetching -/

def prefetchOnce (s : GenericList σ) : GenericList σ :=
  if s.cnt s.prefetchIter = kInvalidCnt then s
  else {s with prefetchIter := (s.links s.prefetchIter).ahead s.prefetchReversed}

def prefetchFsm (n : ℕ) (s : GenericList σ) : GenericList σ :=
  if rev = s.prefetchReversed then
    if s.enablePrefetch then s.prefetchOnce
    else prefetchOnce^[cfg.prefetchNumNodes] {s with enablePrefetch := true, prefetchIter := n}
  else {s with enablePrefetch := false, prefetchReversed := rev}

/-! #### Access to the chunks -/

def updateChunkListAddr (isMut : Bool) (n : ℕ) (s : GenericList σ) : GenericList σ :=
  {s with store := A.update isMut n s.store}

def chunk (n : ℕ) (s : GenericList σ) : ChunkListData T := A.chunk s.store n

def setChunk (n : ℕ) (c : ChunkListData T) (s : GenericList σ) : GenericList σ := {s with store := A.setChunk n c s.store}

def insertChunk (n : ℕ) (p : ChunkNodePtr) (s : GenericList σ) : ChunkNodePtr × GenericList σ :=
  let (new,c) := (s.chunk A n).insert cfg rev p
  (new,s.setChunk A n c)

def eraseChunk (n : ℕ) (p : ChunkNodePtr) (s : GenericList σ) : ChunkNodePtr × GenericList σ :=
  let (next,c) := (s.chunk A n).erase rev p
  (next,s.setChunk A n c)

def writeItem (n : ℕ) (p : ChunkNodePtr) (x : Option T) (s : GenericList σ) : GenericList σ :=
  s.setChunk A n ((s.chunk A n).setItem p x)

/-! #### Iterators -/

def iterAt (n : ℕ) (s : GenericList σ) : GenericIterator × GenericList σ :=
  let s := s.updateChunkListAddr A false n
  (⟨n,(s.chunk A n).first rev⟩,s)

/-- `begin` and `rbegin`. -/
def beginIter (s : GenericList σ) : GenericIterator × GenericList σ :=
  let n := if rev then (s.links localTail).prev else (s.links localHead).next
  s.iterAt A rev ((s.links n).ahead rev)

/-- `end` and `rend`. -/
def endIter (s : GenericList σ) : GenericIterator × GenericList σ :=
  let n := if rev then localHead else localTail
  s.iterAt A rev ((s.links n).behind rev)

def inc (it : GenericIterator) (s : GenericList σ) : GenericIterator × GenericList σ :=
  -- the first step goes through the address as it is
  let chunkIter := ((s.chunk A it.localIter).node it.chunkIter).ahead rev
  let s := s.updateChunkListAddr A false it.localIter
  if chunkIter = (s.chunk A it.localIter).last rev then
    let n := (s.links it.localIter).ahead rev
    let s := s.prefetchFsm cfg rev n
    s.iterAt A rev n
  else (⟨it.localIter,chunkIter⟩,s)

def dec (it : GenericIterator) (s : GenericList σ) : GenericIterator × GenericList σ :=
  let s := s.updateChunkListAddr A false it.localIter
  if it.chunkIter = (s.chunk A it.localIter).first rev then
    let n := (s.links it.localIter).behind rev
    let s := s.prefetchFsm cfg rev n
    let s := s.updateChunkListAddr A false n
    let c := s.chunk A n
    (⟨n,(c.node (c.last rev)).behind rev⟩,s)
  else (⟨it.localIter,((s.chunk A it.localIter).node it.chunkIter).behind rev⟩,s)

/-- `deref` and, for writing, `deref_mut`. -/
def deref (isMut : Bool) (it : GenericIterator) (s : GenericList σ) : Option T × GenericList σ :=
  let s := s.updateChunkListAddr A isMut it.localIter
  ((s.chunk A it.localIter).item it.chunkIter,s)

/-- `cfront` and `cback` and, for writing, `front` and `back`. -/
def peek (isMut : Bool) (s : GenericList σ) : Option T × GenericList σ :=
  let (it,s) := s.beginIter A rev
  s.deref A isMut it

def empty (s : GenericList σ) : Bool := s.size = 0

/-! #### Inserting -/

/-- The lines that splitting and merging share: an item goes to another chunk. -/
def moveItem (src : ℕ) (cur : ChunkNodePtr) (dst : ℕ) (dstIter : ChunkNodePtr) (s : GenericList σ) :
    ChunkNodePtr × GenericList σ :=
  let (next,s) := s.eraseChunk A rev src cur
  let (p,s) := s.insertChunk A cfg rev dst dstIter
  (next,s.writeItem A dst p ((s.chunk A src).item cur))

/-- The loop of `split_local_list_node`: the first items of the chunk go to the new one. -/
def splitLoop (it : GenericIterator) (new : ℕ) (newChunkIter : ChunkNodePtr) :
    ℕ → ChunkNodePtr → GenericIterator → GenericList σ → GenericIterator × GenericList σ
  | 0,_,ret,s => (ret,s)
  | i+1,cur,ret,s =>
    let (next,s) := s.moveItem A cfg rev it.localIter cur new newChunkIter
    let ret := if cur = it.chunkIter then ⟨new,((s.chunk A new).node newChunkIter).behind rev⟩ else ret
    splitLoop it new newChunkIter i next ret s

def splitLocalListNode (it : GenericIterator) (s : GenericList σ) : GenericIterator × GenericList σ :=
  let (new,s) := s.addLocalListNode A cfg rev it.localIter
  let cur := (s.chunk A it.localIter).first rev
  let newChunkIter := (s.chunk A new).last rev
  if cfg.customizedSplit then (⟨new,newChunkIter⟩,s)
  else
    let (ret,s) := s.splitLoop A cfg rev it new newChunkIter (cfg.numNodesPerChunk/2) cur it
    (ret,(s.setCnt new (cfg.numNodesPerChunk/2)).setCnt it.localIter (cfg.numNodesPerChunk-cfg.numNodesPerChunk/2))

/-- The counting, `insert` of the iterator and the copying of the item. -/
def place (it : GenericIterator) (x : T) (s : GenericList σ) : GenericList σ :=
  let s := s.setCnt it.localIter (s.cnt it.localIter+1)
  let s := s.updateChunkListAddr A true it.localIter
  let (p,s) := s.insertChunk A cfg rev it.localIter it.chunkIter
  s.writeItem A it.localIter p (some x)

/-- The iterator may move to the new chunk. -/
def insert (it : GenericIterator) (x : T) (s : GenericList σ) : GenericIterator × GenericList σ :=
  let s := {s with size := s.size+1}
  let (it,s) := if s.cnt it.localIter = cfg.numNodesPerChunk then s.splitLocalListNode A cfg rev it else (it,s)
  (it,s.place A cfg rev it x)

/-- `new_front` and `new_back`, with the copying of the item. -/
def push (x : T) (s : GenericList σ) : GenericList σ :=
  let s := if s.empty then (s.addLocalListNode A cfg false (s.links localTail).prev).2 else s
  let (it,s) := s.beginIter A rev
  (s.insert A cfg rev it x).2

/-! #### Erasing -/

/-- The loop of `merge_local_list_node`: the items of the next chunk go to the end of this one. -/
def mergeLoop (n next : ℕ) (chunkIter : ChunkNodePtr) : ℕ → ChunkNodePtr → GenericList σ → GenericList σ
  | 0,_,s => s
  | i+1,cur,s =>
    let (cur,s) := s.moveItem A cfg rev next cur n chunkIter
    mergeLoop n next chunkIter i cur s

def mergeLocalListNode (n next : ℕ) (s : GenericList σ) : GenericList σ :=
  let s := s.updateChunkListAddr A true next
  let nextCnt := s.cnt next
  let s := s.setCnt n (s.cnt n+nextCnt)
  let s := s.mergeLoop A cfg rev n next ((s.chunk A n).last rev) nextCnt ((s.chunk A next).first rev)
  (s.eraseLocal A rev next).2

def removeLocalListNode (n : ℕ) (s : GenericList σ) : GenericIterator × GenericList σ :=
  let (next,s) := s.eraseLocal A rev n
  s.iterAt A rev next

def erase (it : GenericIterator) (s : GenericList σ) : GenericIterator × GenericList σ :=
  let s := {s with size := s.size-1}
  let s := s.updateChunkListAddr A true it.localIter
  let (chunkIter,s) := s.eraseChunk A rev it.localIter it.chunkIter
  let cnt := s.cnt it.localIter-1
  let s := s.setCnt it.localIter cnt
  let next := (s.links it.localIter).ahead rev
  if cnt = 0 then
    let s := s.prefetchFsm cfg rev next
    s.removeLocalListNode A rev it.localIter
  else if cfg.enableMerge then
    let s := s.prefetchFsm cfg rev next
    let s := if cnt+s.cnt next ≤ cfg.mergeThresh then s.mergeLocalListNode A cfg rev it.localIter next else s
    (⟨it.localIter,chunkIter⟩,s)
  else (⟨it.localIter,chunkIter⟩,s)

/-- `pop_front` and `pop_back`. -/
def pop (s : GenericList σ) : GenericList σ :=
  let (it,s) := s.beginIter A rev
  (s.erase A cfg rev it).2

end GenericList

/-- Chunks that are always resident. -/
def resident (T : Type) : Access (ℕ → ChunkListData T) T where
  update := fun _ _ store => store
  chunk := fun store n => store n
  setChunk := fun n c store => update store n c
  allocate := fun n c store => update store n c
  release := fun _ store => store

end FarMemory.ChunkedList
