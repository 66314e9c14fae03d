import FarMemory.ServerTable

/-!
# Lookups of the server table among concurrent writers

`LocalGenericConcurrentHopscotch` with any number of threads. Most steps are one memory access of a
table. The search that a `put` or a `remove` makes, and the test of slot and timestamp before the
removal of a `get`, are one step each, since the lock of the bucket is held. A slot holds the address
of a slab block, or a sentinel: null, or busy while a `put` has it claimed. Block contents live in
`heap`; a freed block keeps its bytes and a block nobody has written is all zero.

`get` reads a slot twice: the pointer it keeps comes from the first read, and the test against
null looks at the second.
-/
namespace FarMemory.ServerLookups
open Execution Hopscotch Keys SlabAllocator Function
open ServerTable (kNeighborhood kMaxRetries kHeaderSize numEntries dataSize)

structure Block where
  key : Key
  val : Bytes
  deriving DecidableEq

structure Memory where
  table : Table ℕ
  timestamp : ℕ → ℕ
  spin : ℕ → Bool
  heap : ℕ → Option Block
  slab : Slab

namespace Memory

def new (base len : ℕ) : Memory := ⟨.empty,fun _ => 0,fun _ => false,fun _ => none,.new base len⟩

def lock (m : Memory) (b : ℕ) : Memory := {m with spin := update m.spin b true}
def unlock (m : Memory) (b : ℕ) : Memory := {m with spin := update m.spin b false}
def setSlot (m : Memory) (i : ℕ) (x : Slot ℕ) : Memory := {m with table := m.table.setSlot i x}
def setBit (m : Memory) (b o : ℕ) : Memory := {m with table := m.table.setBit b o}
def flipBit (m : Memory) (b o : ℕ) : Memory := {m with table := m.table.flipBit b o}
def write (m : Memory) (a : ℕ) (x : Block) : Memory := {m with heap := update m.heap a (some x)}

/-- The comparison with what lies behind a header. -/
def isKey (m : Memory) (k : Key) (a : ℕ) : Bool :=
  match m.heap a with
  | none => false
  | some x => sameKey x.key k

def val (m : Memory) (a : ℕ) : Bytes :=
  match m.heap a with
  | none => []
  | some x => x.val

def blockSize (m : Memory) (a : ℕ) : ℕ :=
  match m.heap a with
  | none => kHeaderSize
  | some x => dataSize x.key.len x.val.length

def free (m : Memory) (core a : ℕ) : Option Memory :=
  (m.slab.free core a (m.blockSize a)).map fun slab => {m with slab := slab}

/-- A null pointer is a `BUG_ON` of both callers. -/
def allocate (m : Memory) (core size : ℕ) : Option (ℕ × Memory) :=
  match m.slab.allocate core size with
  | some (some a,slab) => some (a,{m with slab := slab})
  | _ => none

end Memory

/-- Where a `get` stands. `locked` tells the second instance of `get_once` from the first. -/
inductive Reader
  | stamp (locked : Bool) (retries : ℕ)
  | bitmap (locked : Bool) (retries ts : ℕ)
  | scan (locked : Bool) (retries ts : ℕ) (rest : List ℕ)
  | loaded (locked : Bool) (retries ts o : ℕ) (rest : List ℕ) (header : Slot ℕ)
  | reading (locked : Bool) (retries ts o : ℕ) (rest : List ℕ) (header : Slot ℕ)
  | again (retries ts : ℕ)
  | last (ts : ℕ)
  | lock
  | relock (o ts : ℕ) (val : Bytes)
  | checking (o ts : ℕ) (val : Bytes)
  | erasing (o : ℕ) (val : Bytes) (header : Slot ℕ)
  | deregister (o : ℕ) (val : Bytes)
  deriving DecidableEq

inductive Task
  | put (k : Key) (v : Bytes)
  | remove (k : Key)
  deriving DecidableEq

def Task.key : Task → Key
  | .put k _ => k
  | .remove k => k

/-- Where a `put` or a `remove` stands. In the hops `f` is the slot it has claimed, `f-d` the
anchor and `o` the offset of the entry that moves. -/
inductive Writer
  | lock
  | search
  | replace (o a : ℕ)
  | refill (a : ℕ)
  | probe (i : ℕ)
  | bring (f d : ℕ)
  | anchor (f d : ℕ)
  | recheck (f d : ℕ)
  | copy (f d o : ℕ)
  | register (f d o : ℕ)
  | bump (f d o : ℕ)
  | vacate (f d o : ℕ)
  | clear (f d o : ℕ)
  | publish (f : ℕ)
  | fill (f a : ℕ)
  | finish (f : ℕ)
  | erase (o a : ℕ)
  | deregister (o : ℕ)
  | unlock (result : Bool)
  deriving DecidableEq

inductive Thread
  | idle
  | get (k : Key) (remove : Bool) (pc : Reader)
  | write (task : Task) (pc : Writer)
  deriving DecidableEq

inductive Outcome
  | running
  | value (v : Bytes)
  | flag (b : Bool)
  deriving DecidableEq

/-- A `get` for key `k` of bucket `b`. No result is a wait for a lock, an abort, or an access through a
sentinel. -/
def Reader.step (m : Memory) (core b : ℕ) (k : Key) (remove : Bool) : Reader → Option (Outcome × Thread × Memory)
  | .stamp locked n => some (.running,.get k remove (.bitmap locked n (m.timestamp b)),m)
  | .bitmap locked n ts => some (.running,.get k remove (.scan locked n ts (offsets (m.table.bitmap b))),m)
  | .scan locked n ts [] =>
    if locked then some (.value [],.idle,m.unlock b) else some (.running,.get k remove (.again n ts),m)
  | .scan locked n ts (o::rest) =>
    some (.running,.get k remove (.loaded locked n ts o rest (m.table.slot (b+o))),m)
  | .loaded locked n ts o rest header =>
    if m.table.slot (b+o) = .null then some (.running,.get k remove (.scan locked n ts rest),m)
    else some (.running,.get k remove (.reading locked n ts o rest header),m)
  | .reading locked n ts o rest (.entry a) =>
    if m.isKey k a then
      let m' := if locked then m.unlock b else m
      if remove then some (.running,.get k remove (.relock o ts (m.val a)),m')
      else some (.value (m.val a),.idle,m')
    else some (.running,.get k remove (.scan locked n ts rest),m)
  | .reading _ _ _ _ _ _ => none
  | .again n ts =>
    if ts ≠ m.timestamp b ∧ n < kMaxRetries then some (.running,.get k remove (.stamp false (n+1)),m)
    else some (.running,.get k remove (.last ts),m)
  | .last ts =>
    if ts ≠ m.timestamp b then some (.running,.get k remove .lock,m) else some (.value [],.idle,m)
  | .lock => if m.spin b then none else some (.running,.get k remove (.stamp true 0),m.lock b)
  | .relock o ts v => if m.spin b then none else some (.running,.get k remove (.checking o ts v),m.lock b)
  | .checking o ts v =>
    if m.table.slot (b+o) = .null then some (.value v,.idle,m.unlock b)
    else if ts = m.timestamp b then some (.running,.get k remove (.erasing o v (m.table.slot (b+o))),m)
    -- the value has been copied out, and the rest of the call is a `remove`
    else some (.value v,.write (.remove k) .lock,m.unlock b)
  | .erasing o v (.entry a) =>
    (m.free core a).map fun m' => (.running,.get k remove (.deregister o v),m'.setSlot (b+o) .null)
  | .erasing _ _ _ => none
  | .deregister o v => some (.value v,.idle,(m.flipBit b o).unlock b)

/-- A `put` or a `remove` in bucket `b`. No result is a wait for a lock or an abort. -/
def Writer.step (shift : ℕ) (m : Memory) (core b : ℕ) (task : Task) : Writer → Option (Outcome × Thread × Memory)
  | .lock => if m.spin b then none else some (.running,.write task .search,m.lock b)
  | .search =>
    match lookup (m.isKey task.key) m.table b,task with
    | .entry o a,.put _ _ => some (.running,.write task (.replace o a),m)
    | .missing,.put _ _ => some (.running,.write task (.probe b),m)
    | .entry o a,.remove _ => some (.running,.write task (.erase o a),m)
    | .missing,.remove _ => some (.running,.write task (.unlock false),m)
    | .hole _,_ => none
  | .replace o a =>
    match task with
    | .put k v =>
      if (m.val a).length = v.length then
        some (.running,.write task (.unlock true),
          {m with heap := update m.heap a ((m.heap a).map fun x => {x with val := v})})
      else
        (m.free core a).bind fun m₁ =>
          (m₁.allocate core (dataSize k.len v.length)).map fun r =>
            (.running,.write task (.refill r.1),r.2.setSlot (b+o) (.entry r.1))
    | .remove _ => none
  | .refill a =>
    match task with
    | .put k v => some (.running,.write task (.unlock true),m.write a ⟨k,v⟩)
    | .remove _ => none
  | .probe i =>
    if i < numEntries shift then
      if m.table.slot i = .null then
        some (.running,.write task (.bring i (kNeighborhood-1)),m.setSlot i .busy)
      else some (.running,.write task (.probe (i+1)),m)
    else none
  | .bring f d =>
    if f-b < kNeighborhood then some (.running,.write task (.publish f),m)
    else if d = 0 then none
    else if m.table.bitmap (f-d) = 0#32 then some (.running,.write task (.bring f (d-1)),m)
    else some (.running,.write task (.anchor f d),m)
  | .anchor f d => if m.spin (f-d) then none else some (.running,.write task (.recheck f d),m.lock (f-d))
  | .recheck f d =>
    match offsets (m.table.bitmap (f-d)) with
    | [] => some (.running,.write task (.bring f (d-1)),m.unlock (f-d))
    | o::_ =>
      if f ≤ f-d+o then some (.running,.write task (.bring f (d-1)),m.unlock (f-d))
      else some (.running,.write task (.copy f d o),m)
  | .copy f d o => some (.running,.write task (.register f d o),m.setSlot f (m.table.slot (f-d+o)))
  | .register f d o => some (.running,.write task (.bump f d o),m.setBit (f-d) d)
  | .bump f d o =>
    some (.running,.write task (.vacate f d o),
      {m with timestamp := update m.timestamp (f-d) (m.timestamp (f-d)+1)})
  | .vacate f d o => some (.running,.write task (.clear f d o),m.setSlot (f-d+o) .busy)
  | .clear f d o =>
    some (.running,.write task (.bring (f-d+o) (kNeighborhood-1)),(m.flipBit (f-d) o).unlock (f-d))
  | .publish f =>
    match task with
    | .put k v => (m.allocate core (dataSize k.len v.length)).map fun r =>
      (.running,.write task (.fill f r.1),r.2.setSlot f (.entry r.1))
    | .remove _ => none
  | .fill f a =>
    match task with
    | .put k v => some (.running,.write task (.finish f),m.write a ⟨k,v⟩)
    | .remove _ => none
  | .finish f => some (.running,.write task (.unlock false),m.setBit b (f-b))
  | .erase o a =>
    (m.free core a).map fun m' => (.running,.write task (.deregister o),m'.setSlot (b+o) .null)
  | .deregister o => some (.running,.write task (.unlock true),m.flipBit b o)
  | .unlock result => some (.flag result,.idle,m.unlock b)

structure State where
  memory : Memory
  threads : ℕ → Thread

def State.new (base len : ℕ) : State := ⟨.new base len,fun _ => .idle⟩

inductive Call
  | get (k : Key) (remove : Bool)
  | write (task : Task)
  deriving DecidableEq

def Call.thread : Call → Thread
  | .get k remove => .get k remove (.stamp false 0)
  | .write task => .write task .lock

inductive Op
  | start (t : ℕ) (call : Call)
  | run (t core : ℕ)
  deriving DecidableEq

def threadStep (shift : ℕ) (m : Memory) (core : ℕ) : Thread → Option (Outcome × Thread × Memory)
  | .idle => none
  | .get k remove pc => pc.step m core (homeBucket shift k) k remove
  | .write task pc => pc.step shift m core (homeBucket shift task.key) task

def step (shift : ℕ) (s : State) : Op → Option (Outcome × State)
  | .start t call =>
    if s.threads t = .idle then some (.running,⟨s.memory,update s.threads t call.thread⟩) else none
  | .run t core => (threadStep shift s.memory core (s.threads t)).map fun r =>
    (r.1,⟨r.2.2,update s.threads t r.2.1⟩)

/-! ### Pointers that are read through -/

def Real (header : Slot ℕ) : Prop := ∃ a, header = .entry a

/-- What a `get` has in hand: the pointer it reads through is a header, and so is the one it will read
through unless its second look at the slot says null. -/
def Reader.Safe (m : Memory) (b : ℕ) : Reader → Prop
  | .loaded _ _ _ o _ header => m.table.slot (b+o) ≠ .null → Real header
  | .reading _ _ _ _ _ header => Real header
  | .erasing _ _ header => Real header
  | _ => True

def Thread.Safe (shift : ℕ) (m : Memory) : Thread → Prop
  | .get k _ pc => pc.Safe m (homeBucket shift k)
  | _ => True

def Safe (shift : ℕ) (s : State) : Prop := ∀ t, (s.threads t).Safe shift s.memory

/-- The slot in which the next access of a writer puts something other than null. -/
def Writer.target (m : Memory) (b : ℕ) (task : Task) : Writer → Option ℕ
  | .replace o a =>
    match task with
    | .put _ v => if (m.val a).length = v.length then none else some (b+o)
    | .remove _ => none
  | .probe i => if m.table.slot i = .null then some i else none
  | .copy f d o => if m.table.slot (f-d+o) = .null then none else some f
  | .vacate f d o => some (f-d+o)
  | .publish f => some f
  | _ => none

/-- The thread has read null from slot `i` and not yet looked again. -/
def Thread.foundEmpty (shift i : ℕ) : Thread → Bool
  | .get k _ (.loaded _ _ _ o _ .null) => homeBucket shift k+o == i
  | _ => false

/-- The slot that a `get` is about to read is not claimed by a `put`. -/
def Reader.Apart (m : Memory) (b : ℕ) : Reader → Prop
  | .scan _ _ _ (o::_) => m.table.slot (b+o) ≠ .busy
  | .checking o ts _ => ts = m.timestamp b → m.table.slot (b+o) ≠ .busy
  | _ => True

/-- The schedules that keep sentinels out of a `get`: it does not read a slot that a `put` has claimed,
and nothing is put into a slot between its reading null there and looking again. -/
def Apart (shift : ℕ) (s : State) : Op → Prop
  | .start _ _ => True
  | .run t _ =>
    match s.threads t with
    | .idle => True
    | .get k _ pc => pc.Apart s.memory (homeBucket shift k)
    | .write task pc => ∀ i, pc.target s.memory (homeBucket shift task.key) task = some i →
        ∀ t', (s.threads t').foundEmpty shift i = false

/-- No thread has a busy pointer in hand. -/
def Thread.NotBusy : Thread → Prop
  | .get _ _ (.loaded _ _ _ _ _ header) => header ≠ .busy
  | _ => True

section Steps
variable {shift core b : ℕ} {m m' : Memory} {k : Key} {remove : Bool} {task : Task} {out : Outcome} {th : Thread}

theorem real_iff {x : Slot ℕ} : Real x ↔ x ≠ .null ∧ x ≠ .busy := by
  cases x with
  | null => exact ⟨nofun,fun h => absurd rfl h.1⟩
  | busy => exact ⟨nofun,fun h => absurd rfl h.2⟩
  | entry a => exact ⟨fun _ => ⟨nofun,nofun⟩,fun _ => ⟨a,rfl⟩⟩

theorem free_table {a : ℕ} (h : m.free core a = some m') : m'.table = m.table := by
  obtain ⟨slab,-,rfl⟩ := Option.map_eq_some_iff.mp h
  rfl

theorem allocate_table {size : ℕ} {r : ℕ × Memory} (h : m.allocate core size = some r) : r.2.table = m.table := by
  unfold Memory.allocate at h
  split at h
  · cases h
    rfl
  · cases h

theorem Reader.step_slot {pc : Reader} (h : pc.step m core b k remove = some (out,th,m')) (i : ℕ) :
    m'.table.slot i = m.table.slot i ∨ m'.table.slot i = .null := by
  revert h
  cases pc with
  | erasing o v header =>
    cases header with
    | null => nofun
    | busy => nofun
    | entry a =>
      intro h
      obtain ⟨m₁,hf,⟨⟩⟩ := Option.map_eq_some_iff.mp h
      by_cases hi : i = b+o
      · subst hi
        exact .inr (setSlot_same ..)
      · refine .inl ((setSlot_of_ne _ hi).trans ?_)
        rw [free_table hf]
  | reading locked n ts o rest header =>
    cases header with
    | null => nofun
    | busy => nofun
    | entry a =>
      intro h
      left
      simp only [Reader.step] at h
      split at h
      · split at h <;> cases h <;> cases locked <;> rfl
      · cases h
        rfl
  | scan locked n ts rest =>
    cases rest with
    | nil =>
      intro h
      left
      simp only [Reader.step] at h
      split at h <;> cases h <;> rfl
    | cons o rest =>
      intro h
      cases h
      exact .inl rfl
  | stamp | bitmap | deregister =>
    intro h
    cases h
    exact .inl rfl
  | loaded | again | last | lock | relock =>
    intro h
    left
    simp only [Reader.step] at h
    split at h <;> cases h <;> rfl
  | checking =>
    intro h
    left
    simp only [Reader.step] at h
    split at h
    · cases h
      rfl
    · split at h <;> cases h <;> rfl

/-- The step of a `get` keeps it safe exactly if it does not read a claimed slot. -/
theorem Reader.step_safe_iff {pc : Reader} (hsafe : pc.Safe m (homeBucket shift k))
    (h : pc.step m core (homeBucket shift k) k remove = some (out,th,m')) :
    (th.Safe shift m' ↔ pc.Apart m (homeBucket shift k)) ∧ (pc.Apart m (homeBucket shift k) → th.NotBusy) := by
  have hfree : ∀ {x : Thread}, x.Safe shift m' → x.NotBusy →
      (x.Safe shift m' ↔ True) ∧ (True → x.NotBusy) := fun h1 h2 => ⟨⟨fun _ => trivial,fun _ => h1⟩,fun _ => h2⟩
  revert h
  cases pc with
  | scan locked n ts rest =>
    cases rest with
    | nil =>
      intro h
      simp only [Reader.step] at h
      split at h <;> cases h <;> exact hfree trivial trivial
    | cons o rest =>
      intro h
      cases h
      refine ⟨⟨fun hs hbusy => ?_,fun hne hnull => real_iff.mpr ⟨hnull,hne⟩⟩,fun hne => hne⟩
      exact (real_iff.mp (hs (by rw [hbusy]; nofun))).2 hbusy
  | loaded locked n ts o rest header =>
    intro h
    simp only [Reader.step] at h
    split at h
    · cases h
      exact hfree trivial trivial
    · rename_i hne
      cases h
      exact hfree (hsafe hne) trivial
  | reading locked n ts o rest header =>
    obtain ⟨a,rfl⟩ := hsafe
    intro h
    simp only [Reader.step] at h
    split at h
    · split at h <;> cases h <;> exact hfree trivial trivial
    · cases h
      exact hfree trivial trivial
  | checking o ts v =>
    intro h
    simp only [Reader.step] at h
    split at h
    · rename_i hnull
      cases h
      exact ⟨⟨fun _ _ => by rw [hnull]; nofun,fun _ => trivial⟩,fun _ => trivial⟩
    · rename_i hnull
      split at h
      · rename_i hts
        cases h
        exact ⟨⟨fun hs _ => (real_iff.mp hs).2,fun hne => real_iff.mpr ⟨hnull,hne hts⟩⟩,fun _ => trivial⟩
      · rename_i hts
        cases h
        exact ⟨⟨fun _ heq => absurd heq hts,fun _ => trivial⟩,fun _ => trivial⟩
  | erasing o v header =>
    obtain ⟨a,rfl⟩ := hsafe
    intro h
    obtain ⟨m₁,-,⟨⟩⟩ := Option.map_eq_some_iff.mp h
    exact hfree trivial trivial
  | stamp | bitmap | deregister =>
    intro h
    cases h
    exact hfree trivial trivial
  | again | last | lock | relock =>
    intro h
    simp only [Reader.step] at h
    split at h <;> cases h <;> exact hfree trivial trivial

theorem setSlot_target {i j : ℕ} {x : Slot ℕ} (hne : j ≠ i) :
    (m.setSlot i x).table.slot j = m.table.slot j ∨ (m.setSlot i x).table.slot j = .null :=
  .inl (setSlot_of_ne x hne)

theorem Writer.step_slot {pc : Writer} (h : pc.step shift m core b task = some (out,th,m')) :
    (∀ i, pc.target m b task ≠ some i → m'.table.slot i = m.table.slot i ∨ m'.table.slot i = .null) ∧
      (∀ i, pc.target m b task = some i → m'.table.slot i ≠ .null) ∧
      (th = .idle ∨ ∃ pc', th = .write task pc') := by
  revert h
  cases pc with
  | replace o a =>
    cases task with
    | remove k => nofun
    | put k v =>
      intro h
      simp only [Writer.step] at h
      simp only [Writer.target]
      split at h
      · rename_i hlen
        cases h
        exact ⟨fun i _ => .inl rfl,by simp [hlen],.inr ⟨_,rfl⟩⟩
      · rename_i hlen
        obtain ⟨m₁,hf,hr⟩ := Option.bind_eq_some_iff.mp h
        obtain ⟨r,ha,⟨⟩⟩ := Option.map_eq_some_iff.mp hr
        rw [if_neg hlen]
        refine ⟨fun i hi => .inl ?_,?_,.inr ⟨_,rfl⟩⟩
        · rw [← free_table hf,← allocate_table ha]
          exact setSlot_of_ne _ fun hx => hi (congrArg some hx.symm)
        · rintro i hi
          cases hi
          change ((r.2.table.setSlot (b+o) (.entry r.1)).slot (b+o)) ≠ .null
          rw [setSlot_same]
          nofun
  | probe i =>
    intro h
    simp only [Writer.step] at h
    simp only [Writer.target]
    obtain ⟨-,h⟩ := Option.ite_none_right_eq_some.mp h
    split at h
    · rename_i hnull
      cases h
      rw [if_pos hnull]
      refine ⟨fun j hj => setSlot_target fun hx => hj (congrArg some hx.symm),?_,.inr ⟨_,rfl⟩⟩
      rintro j hj
      cases hj
      change (m.table.setSlot i .busy).slot i ≠ .null
      rw [setSlot_same]
      nofun
    · rename_i hnull
      cases h
      rw [if_neg hnull]
      exact ⟨fun _ _ => .inl rfl,nofun,.inr ⟨_,rfl⟩⟩
  | copy f d o =>
    intro h
    cases h
    simp only [Writer.target]
    split
    · rename_i hnull
      refine ⟨fun j _ => ?_,nofun,.inr ⟨_,rfl⟩⟩
      by_cases hj : j = f
      · subst hj
        exact .inr ((setSlot_same ..).trans hnull)
      · exact setSlot_target hj
    · rename_i hnull
      refine ⟨fun j hj => setSlot_target fun hx => hj (congrArg some hx.symm),?_,.inr ⟨_,rfl⟩⟩
      rintro j hj
      cases hj
      change (m.table.setSlot f (m.table.slot (f-d+o))).slot f ≠ .null
      rwa [setSlot_same]
  | vacate f d o =>
    intro h
    cases h
    refine ⟨fun j hj => setSlot_target fun hx => hj (congrArg some hx.symm),?_,.inr ⟨_,rfl⟩⟩
    rintro j hj
    cases hj
    change (m.table.setSlot (f-d+o) .busy).slot (f-d+o) ≠ .null
    rw [setSlot_same]
    nofun
  | publish f =>
    cases task with
    | remove k => nofun
    | put k v =>
      intro h
      obtain ⟨r,ha,⟨⟩⟩ := Option.map_eq_some_iff.mp h
      refine ⟨fun j hj => .inl ?_,?_,.inr ⟨_,rfl⟩⟩
      · rw [← allocate_table ha]
        exact setSlot_of_ne _ fun hx => hj (congrArg some hx.symm)
      · rintro j hj
        cases hj
        change (r.2.table.setSlot f (.entry r.1)).slot f ≠ .null
        rw [setSlot_same]
        nofun
  | erase o a =>
    intro h
    obtain ⟨m₁,hf,⟨⟩⟩ := Option.map_eq_some_iff.mp h
    refine ⟨fun j _ => ?_,nofun,.inr ⟨_,rfl⟩⟩
    by_cases hj : j = b+o
    · subst hj
      exact .inr (setSlot_same ..)
    · refine .inl ((setSlot_of_ne _ hj).trans ?_)
      rw [free_table hf]
  | search =>
    intro h
    simp only [Writer.step] at h
    split at h <;> cases h <;> exact ⟨fun _ _ => .inl rfl,nofun,.inr ⟨_,rfl⟩⟩
  | refill a | fill f a =>
    cases task with
    | remove k => nofun
    | put k v =>
      intro h
      cases h
      exact ⟨fun _ _ => .inl rfl,nofun,.inr ⟨_,rfl⟩⟩
  | recheck f d =>
    intro h
    simp only [Writer.step] at h
    split at h
    · cases h
      exact ⟨fun _ _ => .inl rfl,nofun,.inr ⟨_,rfl⟩⟩
    · split at h <;> cases h <;> exact ⟨fun _ _ => .inl rfl,nofun,.inr ⟨_,rfl⟩⟩
  | bring f d =>
    intro h
    simp only [Writer.step] at h
    repeat' split at h
    all_goals cases h
    all_goals exact ⟨fun _ _ => .inl rfl,nofun,.inr ⟨_,rfl⟩⟩
  | lock | anchor =>
    intro h
    simp only [Writer.step] at h
    split at h <;> cases h
    exact ⟨fun _ _ => .inl rfl,nofun,.inr ⟨_,rfl⟩⟩
  | register | bump | clear | finish | deregister =>
    intro h
    cases h
    exact ⟨fun _ _ => .inl rfl,nofun,.inr ⟨_,rfl⟩⟩
  | unlock result =>
    intro h
    cases h
    exact ⟨fun _ _ => .inl rfl,nofun,.inl rfl⟩

/-- What a thread has in hand stays safe when slots are only emptied. -/
theorem Thread.Safe.of_slots {x : Thread} (hs : x.Safe shift m)
    (hslots : ∀ i, m'.table.slot i = m.table.slot i ∨ m'.table.slot i = .null) : x.Safe shift m' := by
  cases x with
  | idle => trivial
  | write => trivial
  | get k rm pc =>
    cases pc with
    | loaded locked n ts o rest header =>
      intro hne
      rcases hslots (homeBucket shift k+o) with h | h
      · exact hs (h ▸ hne)
      · exact absurd h hne
    | _ => exact hs

/-- When slot `i` is filled, it stays safe exactly if it has not just read null there. -/
theorem Thread.Safe.iff_filled {x : Thread} {i : ℕ} (hs : x.Safe shift m) (hbusy : x.NotBusy)
    (hfilled : m'.table.slot i ≠ .null)
    (hslots : ∀ j, j ≠ i → m'.table.slot j = m.table.slot j ∨ m'.table.slot j = .null) :
    x.Safe shift m' ↔ x.foundEmpty shift i = false := by
  cases x with
  | idle => exact ⟨fun _ => rfl,fun _ => trivial⟩
  | write => exact ⟨fun _ => rfl,fun _ => trivial⟩
  | get k rm pc =>
    cases pc with
    | loaded locked n ts o rest header =>
      cases header with
      | busy => exact absurd rfl hbusy
      | entry a => exact ⟨fun _ => rfl,fun _ _ => ⟨a,rfl⟩⟩
      | null =>
        change _ ↔ (homeBucket shift k+o == i) = false
        rw [beq_eq_false_iff_ne]
        constructor
        · rintro hsafe rfl
          obtain ⟨a,ha⟩ := hsafe hfilled
          cases ha
        · intro hempty hne
          rcases hslots _ hempty with h | h
          · exact hs (h ▸ hne)
          · exact absurd h hne
    | _ => exact ⟨fun _ => rfl,fun _ => hs⟩

end Steps

theorem safe_update {shift : ℕ} {s : State} {t : ℕ} {m' : Memory} {th : Thread} :
    Safe shift ⟨m',update s.threads t th⟩ ↔
      th.Safe shift m' ∧ ∀ t', t' ≠ t → (s.threads t').Safe shift m' := by
  change (∀ t', (update s.threads t th t').Safe shift m') ↔ _
  constructor
  · intro h
    refine ⟨?_,fun t' hne => ?_⟩
    · have ht := h t
      rwa [update_self] at ht
    · have ht := h t'
      rwa [update_of_ne hne] at ht
  · rintro ⟨hth,hother⟩ t'
    by_cases hne : t' = t
    · subst hne
      rwa [update_self]
    · rw [update_of_ne hne]
      exact hother t' hne

/-- The invariant of the runs with such a schedule. -/
structure Inv (shift : ℕ) (s : State) : Prop where
  safe : Safe shift s
  notBusy : ∀ t, (s.threads t).NotBusy

theorem notBusy_update {s : State} {t : ℕ} {th : Thread} (hth : th.NotBusy) (h : ∀ t, (s.threads t).NotBusy)
    (t' : ℕ) : (update s.threads t th t').NotBusy := by
  by_cases hne : t' = t
  · subst hne
    rwa [update_self]
  · rw [update_of_ne hne]
    exact h t'

/-- One step: the pointers in hand stay safe exactly if the step is one of those schedules, and a
schedule that is not leaves a thread that would read through a sentinel. -/
theorem Inv.step {shift : ℕ} {s s' : State} {op : Op} {out : Outcome} (h : Inv shift s)
    (hstep : step shift s op = some (out,s')) :
    (Safe shift s' ↔ Apart shift s op) ∧ (Apart shift s op → Inv shift s') := by
  cases op with
  | start t call =>
    obtain ⟨-,hstep⟩ := Option.ite_none_right_eq_some.mp hstep
    cases hstep
    have hcall : call.thread.Safe shift s.memory ∧ call.thread.NotBusy := by
      cases call <;> exact ⟨trivial,trivial⟩
    have hsafe : Safe shift ⟨s.memory,update s.threads t call.thread⟩ :=
      safe_update.mpr ⟨hcall.1,fun t' _ => h.safe t'⟩
    exact ⟨⟨fun _ => trivial,fun _ => hsafe⟩,fun _ => ⟨hsafe,notBusy_update hcall.2 h.notBusy⟩⟩
  | run t core =>
    obtain ⟨⟨o,th,m'⟩,hth,⟨⟩⟩ := Option.map_eq_some_iff.mp hstep
    have hown := h.safe t
    cases hx : s.threads t with
    | idle => simp [hx,threadStep] at hth
    | get k rm pc =>
      rw [hx] at hth hown
      obtain ⟨hiff,hbusy⟩ := Reader.step_safe_iff hown hth
      have hothers : ∀ t', t' ≠ t → (s.threads t').Safe shift m' :=
        fun t' _ => (h.safe t').of_slots (Reader.step_slot hth)
      have hsafe : Safe shift ⟨m',update s.threads t th⟩ ↔ Apart shift s (.run t core) := by
        rw [safe_update,and_iff_left hothers,hiff]
        simp only [Apart,hx]
      refine ⟨hsafe,fun hok => ⟨hsafe.mpr hok,notBusy_update (hbusy ?_) h.notBusy⟩⟩
      simpa only [Apart,hx] using hok
    | write task pc =>
      rw [hx] at hth
      obtain ⟨hslots,hfilled,hkind⟩ := Writer.step_slot hth
      have hthread : th.Safe shift m' ∧ th.NotBusy := by
        rcases hkind with rfl | ⟨pc',rfl⟩ <;> exact ⟨trivial,trivial⟩
      have hsafe : Safe shift ⟨m',update s.threads t th⟩ ↔ Apart shift s (.run t core) := by
        rw [safe_update,and_iff_right hthread.1]
        simp only [Apart,hx]
        cases htarget : pc.target s.memory (homeBucket shift task.key) task with
        | none =>
          rw [htarget] at hslots
          exact ⟨fun _ => nofun,fun _ t' _ => (h.safe t').of_slots fun i => hslots i nofun⟩
        | some i =>
          have hiff : ∀ t', (s.threads t').Safe shift m' ↔ (s.threads t').foundEmpty shift i = false := by
            intro t'
            refine (h.safe t').iff_filled (h.notBusy t') (hfilled i htarget) fun j hj => hslots j ?_
            rw [htarget]
            exact fun hij => hj (Option.some.inj hij).symm
          constructor
          · rintro hs j hj t'
            cases hj
            by_cases hne : t' = t
            · rw [hne,hx]
              rfl
            · exact (hiff t').mp (hs t' hne)
          · intro hok t' _
            exact (hiff t').mpr (hok i rfl t')
      exact ⟨hsafe,fun hok => ⟨hsafe.mpr hok,notBusy_update hthread.2 h.notBusy⟩⟩

theorem Inv.new (shift base len : ℕ) : Inv shift (.new base len) := ⟨fun _ => trivial,fun _ => trivial⟩

/-- In every run in which no `get` reads a claimed slot and nothing is put into a slot that a `get` has
just seen empty, every pointer that a `get` reads through is a header; and a step leaves it so exactly if
it is such a step. -/
theorem reads_through_headers_iff {shift base len : ℕ} {tr : List (Op × Outcome)} {s : State}
    (h : Trace (step shift) (Apart shift) (.new base len) tr s) :
    Safe shift s ∧ ∀ op out s', step shift s op = some (out,s') → (Safe shift s' ↔ Apart shift s op) := by
  have hinv : Inv shift s := h.invariant (Inv.new shift base len) fun _ _ _ _ hok hI hs => (hI.step hs).2 hok
  exact ⟨hinv.safe,fun op out s' hs => (hinv.step hs).1⟩

def testKey (x : UInt8) : Key := ⟨[x],Nat.one_pos,by simp⟩

/-- The schedule condition among the first two threads. -/
def Thread.ApartOfTwo (shift : ℕ) (s : State) : Thread → Prop
  | .idle => True
  | .get k _ pc => pc.Apart s.memory (homeBucket shift k)
  | .write task pc => ∀ t' < 2, ∀ i ∈ pc.target s.memory (homeBucket shift task.key) task,
      (s.threads t').foundEmpty shift i = false

def ApartOfTwo (shift : ℕ) (s : State) : Op → Prop
  | .start t _ => t < 2
  | .run t _ => t < 2 ∧ (s.threads t).ApartOfTwo shift s

instance (m : Memory) (b : ℕ) (pc : Reader) : Decidable (pc.Apart m b) := by
  cases pc with
  | scan locked n ts rest =>
    cases rest with
    | nil => exact inferInstanceAs (Decidable True)
    | cons o rest => exact inferInstanceAs (Decidable (_ ≠ _))
  | checking o ts v => exact inferInstanceAs (Decidable (_ → _))
  | _ => exact inferInstanceAs (Decidable True)

instance (shift : ℕ) (s : State) (x : Thread) : Decidable (x.ApartOfTwo shift s) :=
  match x with
  | .idle => inferInstanceAs (Decidable True)
  | .get k _ pc => inferInstanceAs (Decidable (pc.Apart s.memory (homeBucket shift k)))
  | .write task pc => inferInstanceAs (Decidable (∀ t' < 2,
      ∀ i ∈ pc.target s.memory (homeBucket shift task.key) task, (s.threads t').foundEmpty shift i = false))

instance (shift : ℕ) (s : State) (op : Op) : Decidable (ApartOfTwo shift s op) :=
  match op with
  | .start t _ => inferInstanceAs (Decidable (t < 2))
  | .run t _ => inferInstanceAs (Decidable (t < 2 ∧ (s.threads t).ApartOfTwo shift s))

/-- Where only two threads ever run, the condition among them is the whole condition. -/
theorem apart_of_two {shift base len : ℕ} {tr : List (Op × Outcome)} {s : State}
    (h : Trace (step shift) (ApartOfTwo shift) (.new base len) tr s) :
    Trace (step shift) (Apart shift) (.new base len) tr s ∧ ∀ t, 2 ≤ t → s.threads t = .idle := by
  induction h with
  | nil => exact ⟨.nil,fun _ _ => rfl⟩
  | @snoc tr s s' op out _ hok hs ih =>
    obtain ⟨ht,hidle⟩ := ih
    have hapart : Apart shift s op ∧ ∀ t, 2 ≤ t → s'.threads t = .idle := by
      cases op with
      | start t call =>
        obtain ⟨-,hs⟩ := Option.ite_none_right_eq_some.mp hs
        cases hs
        refine ⟨trivial,fun t' ht' => ?_⟩
        exact (update_of_ne (by rintro rfl; exact absurd hok (Nat.not_lt.mpr ht')) ..).trans
          (hidle t' ht')
      | run t core =>
        obtain ⟨hlt,hcond⟩ := hok
        obtain ⟨r,-,⟨⟩⟩ := Option.map_eq_some_iff.mp hs
        refine ⟨?_,fun t' ht' => (update_of_ne (by omega) ..).trans (hidle t' ht')⟩
        simp only [Apart]
        cases hx : s.threads t with
        | idle => trivial
        | get k rm pc =>
          rw [hx] at hcond
          exact hcond
        | write task pc =>
          rw [hx] at hcond
          intro i hi t'
          by_cases hlt' : t' < 2
          · exact hcond t' hlt' i hi
          · rw [hidle t' (by omega)]
            rfl
    exact ⟨ht.snoc hapart.1 hs,hapart.2⟩

/-- A `put` by one thread, and a `get` of the key by another up to the pointer it has loaded. -/
theorem reads_through_headers_iff_loaded : ∃ tr s a, Trace (step 0) (Apart 0) (.new 4096 65536) tr s ∧
    s.threads 1 = .get (testKey 1) false (.loaded false 0 0 0 [] (.entry a)) ∧ Safe 0 s := by
  have hrun : (exec (step 0) (ApartOfTwo 0) (.new 4096 65536)
      ([.start 0 (.write (.put (testKey 1) [5]))]++List.replicate 8 (.run 0 0)++
        [.start 1 (.get (testKey 1) false)]++List.replicate 3 (.run 1 0))).map
        (fun r => r.2.threads 1) =
      some (.get (testKey 1) false (.loaded false 0 0 0 [] (.entry 20448))) := by decide +kernel
  obtain ⟨outs,s,ht,hobs⟩ := exec_observe hrun
  obtain ⟨ht',-⟩ := apart_of_two ht
  exact ⟨_,s,20448,ht',hobs,(reads_through_headers_iff ht').1⟩

/-- A `get` has copied the bitmap when its key is removed and another `put` claims the slot: it takes
the busy sentinel for a header. -/
theorem busy_slot_read_through : ∃ tr s, Trace (step 0) (fun _ _ => True) (.new 4096 65536) tr s ∧
    s.threads 1 = .get (testKey 1) false (.reading false 0 0 0 [] .busy) := by
  have hrun : (exec (step 0) (fun _ _ => True) (.new 4096 65536)
      ([.start 0 (.write (.put (testKey 1) [5]))]++List.replicate 8 (.run 0 0)++
        [.start 1 (.get (testKey 1) false),.run 1 0,.run 1 0]++
        [.start 0 (.write (.remove (testKey 1)))]++List.replicate 5 (.run 0 0)++
        [.start 0 (.write (.put (testKey 2) [6])),.run 0 0,.run 0 0,.run 0 0]++
        [.run 1 0,.run 1 0])).map (fun r => r.2.threads 1) =
      some (.get (testKey 1) false (.reading false 0 0 0 [] .busy)) := by decide +kernel
  obtain ⟨outs,s,ht,hobs⟩ := exec_observe hrun
  exact ⟨_,s,ht,hobs⟩

end FarMemory.ServerLookups
