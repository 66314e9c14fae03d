import FarMemory.Execution
import FarMemory.SlabAllocator

/-!
# The local skip list

Every level is a doubly linked list between two entries with the sentinel keys; the
entries of one key are linked upwards and downwards. Entries and the copies of the
keys live in slab blocks. A freed block keeps its contents until it is handed out
again and overwritten, so a read through a dangling pointer gives what was there.

An operation fails where the source has no meaning (a null pointer, a block that
holds something else, a write behind the array of level traces) or does not come to
an end. The search is the only loop over the levels' entries; it changes nothing, so
after more rounds than the area has bytes it goes in circles. An operation stays on
one core. The random decisions of an insertion are given by the level.
-/
namespace FarMemory.LocalSkiplist
open SlabAllocator

/-- Without `width` and `lock`, which no function uses. -/
structure Entry where
  up : Option ℕ
  down : Option ℕ
  left : Option ℕ
  right : Option ℕ
  key : ℕ
  deriving DecidableEq, Repr

/-- What was last written to a block. -/
inductive Cell (T : Type)
  | junk
  | entry (e : Entry)
  | item (k : T)

inductive Fault
  | noMemory
  | crash
  | overrun
  | hang
  deriving DecidableEq, Repr

structure Skiplist (T : Type) where
  itemSize : ℕ
  slab : Slab
  mem : ℕ → Cell T
  negativeInfinite : ℕ
  positiveInfinite : ℕ
  head : ℕ
  tail : ℕ
  levels : ℕ

/-- `sizeof(Entry)`: the width, five pointers and the lock, packed. -/
def entrySize : ℕ := 4+5*8+4

def kProbInv : ℕ := 4
def kMaxEntries : ℕ := 2^32-1

/-- `static_log(kProbInv, kMaxEntries)`. -/
def kMaxLevels : ℕ := 16

example : kMaxLevels = Nat.log kProbInv kMaxEntries+1 := by norm_num [kMaxLevels,kProbInv,kMaxEntries]

namespace Skiplist
variable {T : Type}

/-! ### Memory -/

def entry (s : Skiplist T) (a : ℕ) : Except Fault Entry :=
  match s.mem a with
  | .entry e => .ok e
  | _ => .error .crash

def nonNull : Option ℕ → Except Fault ℕ
  | none => .error .crash
  | some a => .ok a

def write (s : Skiplist T) (a : ℕ) (c : Cell T) : Skiplist T := {s with mem := Function.update s.mem a c}

section
variable (s : Skiplist T) (a : ℕ) (c : Cell T)

@[simp] theorem write_itemSize : (s.write a c).itemSize = s.itemSize := rfl
@[simp] theorem write_negativeInfinite : (s.write a c).negativeInfinite = s.negativeInfinite := rfl
@[simp] theorem write_positiveInfinite : (s.write a c).positiveInfinite = s.positiveInfinite := rfl
@[simp] theorem write_head : (s.write a c).head = s.head := rfl
@[simp] theorem write_tail : (s.write a c).tail = s.tail := rfl
@[simp] theorem write_levels : (s.write a c).levels = s.levels := rfl

end

def modify (s : Skiplist T) (a : ℕ) (f : Entry → Entry) : Except Fault (Skiplist T) := do
  let e ← s.entry a
  pure (s.write a (.entry (f e)))

def allocate (s : Skiplist T) (core size : ℕ) : Except Fault (ℕ × Skiplist T) :=
  match s.slab.allocate core size with
  | none => .error .crash
  | some (none,_) => .error .noMemory
  | some (some a,slab) => .ok (a,{s with slab := slab})

def free (s : Skiplist T) (core a size : ℕ) : Except Fault (Skiplist T) :=
  match s.slab.free core a size with
  | none => .error .crash
  | some slab => .ok {s with slab := slab}

def new (itemSize base len core : ℕ) : Except Fault (Skiplist T) := do
  let s : Skiplist T := ⟨itemSize,Slab.new base len,fun _ => .junk,0,0,0,0,0⟩
  let (negativeInfinite,s) ← s.allocate core itemSize
  let (positiveInfinite,s) ← s.allocate core itemSize
  let (head,s) ← s.allocate core entrySize
  let (tail,s) ← s.allocate core entrySize
  let s := s.write head (.entry ⟨none,none,none,some tail,negativeInfinite⟩)
  let s := s.write tail (.entry ⟨none,none,some head,none,positiveInfinite⟩)
  pure {s with
    negativeInfinite := negativeInfinite
    positiveInfinite := positiveInfinite
    head := head
    tail := tail}

/-! ### Searching -/

section
variable [LinearOrder T]

def isSmaller (s : Skiplist T) (key : T) (b : ℕ) : Except Fault Bool :=
  if b = s.positiveInfinite then .ok true
  else
    match s.mem b with
    | .item k => .ok (decide (key < k))
    | _ => .error .crash

def isEqual (s : Skiplist T) (key : T) (b : ℕ) : Except Fault Bool :=
  if b = s.negativeInfinite then .ok false
  else
    match s.mem b with
    | .item k => .ok (decide (key = k))
    | _ => .error .crash

/-- `record_level_trace_fn`, with the size of the array if there is one. -/
def record (limit : Option ℕ) (traces : List ℕ) (cur : ℕ) : Except Fault (List ℕ) :=
  if limit.all (traces.length < ·) then .ok (traces++[cur]) else .error .overrun

/-- Whether the search leaves the level at this entry. -/
def stops (s : Skiplist T) (key : T) (e : Entry) : Except Fault Bool :=
  match e.right with
  | none => .ok true
  | some r => do
    let next ← s.entry r
    s.isSmaller key next.key

def findLoop (s : Skiplist T) (key : T) (limit : Option ℕ) : ℕ → ℕ → List ℕ → Except Fault (ℕ × List ℕ)
  | 0,_,_ => .error .hang
  | fuel+1,cur,traces => do
    let e ← s.entry cur
    if ← s.stops key e then
      let traces ← record limit traces cur
      match e.down with
      | none => .ok (cur,traces)
      | some d => findLoop s key limit fuel d traces
    else
      let r ← nonNull e.right
      findLoop s key limit fuel r traces

/-- The closest entry of the lowest level and where each level was left. -/
def findClosest (s : Skiplist T) (key : T) (limit : Option ℕ) : Except Fault (ℕ × List ℕ) :=
  findLoop s key limit (s.slab.len+1) s.head []

def exist (s : Skiplist T) (key : T) : Except Fault Bool := do
  let (ptr,_) ← s.findClosest key none
  let e ← s.entry ptr
  s.isEqual key e.key

end

/-! ### Inserting -/

/-- Put `new` to the right of `pos`, in the order of the source's assignments. -/
def linkAfter (s : Skiplist T) (pos new : ℕ) : Except Fault (Skiplist T) := do
  let e ← s.entry pos
  let right ← nonNull e.right
  let s ← s.modify right fun e => {e with left := some new}
  let s ← s.modify new fun n => {n with right := e.right}
  let s ← s.modify pos fun e => {e with right := some new}
  s.modify new fun n => {n with left := some pos}

/-- A new top level around `new`. -/
def addLevel (s : Skiplist T) (core new : ℕ) : Except Fault (Skiplist T) := do
  let s := {s with levels := s.levels+1}
  let (newHead,s) ← s.allocate core entrySize
  let (newTail,s) ← s.allocate core entrySize
  let s := s.write newHead (.entry ⟨none,some s.head,none,some new,s.negativeInfinite⟩)
  let s := s.write newTail (.entry ⟨none,some s.tail,some new,none,s.positiveInfinite⟩)
  let s ← s.modify new fun n => {n with left := some newHead, right := some newTail}
  let s ← s.modify s.head fun e => {e with up := some newHead}
  let s := {s with head := newHead}
  let s ← s.modify s.tail fun e => {e with up := some newTail}
  pure {s with tail := newTail}

/-- The loop of `bubble_up`, with so many levels left to `kMaxLevels`. -/
def bubbleLoop (core : ℕ) (coins : ℕ → Bool) (levelTraces : List ℕ) :
    ℕ → ℕ → ℕ → Skiplist T → Except Fault (Skiplist T)
  | 0,_,_,s => pure s
  | left+1,level,downPtr,s =>
    if coins level then do
      let (new,s) ← s.allocate core entrySize
      let e ← s.entry downPtr
      let s := s.write new (.entry ⟨none,some downPtr,none,none,e.key⟩)
      let s ← s.modify downPtr fun e => {e with up := some new}
      if level+1 ≤ s.levels then do
        let trace ← nonNull levelTraces[s.levels-(level+1)]?
        let s ← s.linkAfter trace new
        bubbleLoop core coins levelTraces left (level+1) new s
      else do
        let s ← s.addLevel core new
        bubbleLoop core coins levelTraces left (level+1) new s
    else pure s

def bubbleUp (s : Skiplist T) (core : ℕ) (coins : ℕ → Bool) (downPtr : ℕ) (levelTraces : List ℕ) :
    Except Fault (Skiplist T) :=
  bubbleLoop core coins levelTraces kMaxLevels 0 downPtr s

/-- The new entry of the lowest level, with its own copy of the key. -/
def insertAfter (s : Skiplist T) (core : ℕ) (key : T) (ptr : ℕ) : Except Fault (ℕ × Skiplist T) := do
  let (new,s) ← s.allocate core entrySize
  let (newKey,s) ← s.allocate core s.itemSize
  let s := s.write newKey (.item key)
  let s := s.write new (.entry ⟨none,none,none,none,newKey⟩)
  let s ← s.linkAfter ptr new
  pure (new,s)

def insert [LinearOrder T] (s : Skiplist T) (core : ℕ) (coins : ℕ → Bool) (key : T) :
    Except Fault (Bool × Skiplist T) := do
  let (ptr,levelTraces) ← s.findClosest key (some kMaxLevels)
  let e ← s.entry ptr
  if ← s.isEqual key e.key then pure (false,s)
  else do
    let (new,s) ← s.insertAfter core key ptr
    let s ← s.bubbleUp core coins new levelTraces
    pure (true,s)

/-! ### Removing -/

/-- `p->down->up = p->up` and `p->up->down = p->down`, where there is one. -/
def bypass (s : Skiplist T) (p : ℕ) : Except Fault (Skiplist T) := do
  let e ← s.entry p
  let s ← match e.down with
    | none => pure s
    | some d => s.modify d fun below => {below with up := e.up}
  match e.up with
  | none => pure s
  | some u => s.modify u fun above => {above with down := e.down}

def pruneEmptyLevel (s : Skiplist T) (core leftBoundary rightBoundary : ℕ) : Except Fault (Skiplist T) := do
  let s ← s.bypass leftBoundary
  let s ← s.bypass rightBoundary
  let s ← s.free core leftBoundary entrySize
  s.free core rightBoundary entrySize

def unlink (s : Skiplist T) (core ptr : ℕ) : Except Fault (Skiplist T) := do
  let e ← s.entry ptr
  let left ← nonNull e.left
  let right ← nonNull e.right
  let s ← s.modify left fun l => {l with right := e.right}
  let s ← s.modify right fun r => {r with left := e.left}
  let l ← s.entry left
  let r ← s.entry right
  if l.key = s.negativeInfinite ∧ r.key = s.positiveInfinite then s.pruneEmptyLevel core left right
  else pure s

def removeLoop (core : ℕ) : ℕ → ℕ → Skiplist T → Except Fault (Skiplist T)
  | 0,_,_ => .error .hang
  | fuel+1,ptr,s => do
    let s ← s.unlink core ptr
    let e ← s.entry ptr
    let s ← s.free core ptr entrySize
    match e.up with
    | none => pure s
    | some up => removeLoop core fuel up s

def remove [LinearOrder T] (s : Skiplist T) (core : ℕ) (key : T) : Except Fault (Bool × Skiplist T) := do
  let (ptr,_) ← s.findClosest key none
  let e ← s.entry ptr
  if ← s.isEqual key e.key then do
    let s ← s.free core e.key s.itemSize
    let s ← removeLoop core (s.slab.len+1) ptr s
    pure (true,s)
  else pure (false,s)

end Skiplist

/-! ### Runs -/

inductive Op (T : Type)
  | insert (core : ℕ) (coins : ℕ → Bool) (key : T)
  | exist (key : T)
  | remove (core : ℕ) (key : T)

def perform {T : Type} [LinearOrder T] (s : Skiplist T) : Op T → Except Fault (Bool × Skiplist T)
  | .insert core coins key => s.insert core coins key
  | .exist key => (s.exist key).map fun b => (b,s)
  | .remove core key => s.remove core key

def step {T : Type} [LinearOrder T] (s : Skiplist T) (op : Op T) : Option (Bool × Skiplist T) := (perform s op).toOption

end FarMemory.LocalSkiplist
