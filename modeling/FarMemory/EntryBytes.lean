import FarMemory.AllocationSizes
import FarMemory.ClientTable

/-!
# Entries of the hash table as bytes

The client's table again, with the objects in the memory of a region and only their
addresses in the slots. An entry is a header, the value, the metadata and the key. The
allocator gets its size in 16 bits: up to 65528 bytes an entry lies in the space reserved
for it, and whatever is stored later leaves it alone. For the next seven sizes no space is
reserved at all, and the next entry is written over it.

The reference count of the region and the pointer's address in the header are not read
here, so their updates behind the allocation are left out.
-/
namespace FarMemory.EntryBytes
open Execution Hopscotch Keys ByteStore ObjectBytes PointerMeta RegionWalk AllocationSizes ServerPtr
open ServerTable (numEntries)

structure Entry where
  addr : ℕ
  offset : ℕ

structure State where
  table : Table Entry
  region : LocalRegion
  remote : ServerTable.State

def State.new (base len : ℕ) : State := ⟨.empty,fresh 0 (fun _ => 0) false,.new base len⟩

/-- The key at the end of an object is compared by length and `strncmp`. -/
def accepts (mem : Mem) (k : Key) (e : Entry) : Bool :=
  getObjIdLen mem e.addr == k.len && strncmp (load mem (getObjId mem e.addr) k.len) k.bytes k.len == 0

def readValue (mem : Mem) (a : ℕ) : Bytes :=
  load mem (a+kHeaderSize) ((getDataLen mem a+2^16-kEvacNotifierMetaSize)%2^16)

/-- `EvacNotifierMeta`, with the index of the bucket for its address. -/
def metaBytes (b o : ℕ) : Bytes := ((List.range 6).map fun i => UInt8.ofNat (b/256^i))++[UInt8.ofNat o]

/-- What `_put` writes for a new entry: the header and the key, the metadata and the value. -/
def writeEntry (mem : Mem) (a : ℕ) (dsId : UInt8) (k : Key) (v : Bytes) (b o : ℕ) : Mem :=
  let mem := init mem a dsId ((kEvacNotifierMetaSize+v.length)%2^16) k.bytes
  store (store mem (a+kHeaderSize+v.length) (metaBytes b o)) (a+kHeaderSize) v

/-- What is written when an entry gets an object of another size: the data, the header and the key of the
old object, its freed mark and the metadata. -/
def rewriteEntry (mem : Mem) (old a : ℕ) (v : Bytes) (b o : ℕ) : Mem :=
  let size := (kEvacNotifierMetaSize+v.length)%2^16
  let mem := store mem (a+kHeaderSize) (v.take size)
  let mem := init mem a (getDsId mem old) size (load mem (getObjId mem old) (getObjIdLen mem old))
  store (free mem old) (a+kHeaderSize+v.length) (metaBytes b o)

/-- The hops of `_put`. A displaced object learns its new offset, in the last byte of its metadata. -/
def bring (b : ℕ) : ℕ → Table Entry → Mem → ℕ → Option (ℕ × Table Entry × Mem)
  | 0,_,_,_ => none
  | fuel+1,t,mem,f =>
    if f-b < 32 then some (f,t,mem)
    else
      match hop (fun o e => {e with offset := o}) t f with
      | .moved f' t' =>
        match t'.slot f with
        | .entry e => bring b fuel t' (store mem (getObjId mem e.addr-1) [UInt8.ofNat e.offset]) f'
        | _ => none
      | _ => none

def newEntry (dsId : UInt8) (r : LocalRegion) (k : Key) (v : Bytes) (b o : ℕ) : Option (ℕ × LocalRegion) :=
  (allocate r (.entry k.len v.length)).map fun x => (x.1,{x.2 with mem := writeEntry x.2.mem x.1 dsId k v b o})

section Operations
variable (shift remoteShift : ℕ) (dsId : UInt8)

def localPut (s : State) (k : Key) (v : Bytes) : Option (Bool × State) :=
  let b := homeBucket shift k
  let mem := s.region.mem
  match lookup (accepts mem k) s.table b with
  | .hole _ => none
  | .entry o e =>
    if getDataLen mem e.addr = v.length+kEvacNotifierMetaSize then
      some (true,{s with region := {s.region with mem := store mem (e.addr+kHeaderSize) v}})
    else
      (allocate s.region (.resized (getObjIdLen mem e.addr) v.length)).map fun x =>
        (true,{s with
          table := s.table.setSlot (b+o) (.entry ⟨x.1,o⟩)
          region := {x.2 with mem := rewriteEntry x.2.mem e.addr x.1 v b o}})
  | .missing => do
    let f ← probe s.table (numEntries shift) b
    let (f,t,mem) ← bring b (f+1) (s.table.setSlot f .busy) mem f
    let (a,r) ← newEntry dsId {s.region with mem := mem} k v b (f-b)
    some (false,{s with
      table := (t.setSlot f (.entry ⟨a,f-b⟩)).setBit b (f-b)
      region := r})

def put (s : State) (core : ℕ) (k : Key) (v : Bytes) : Option (Bool × State) :=
  match localPut shift dsId s k v with
  | some (false,s) => (ServerTable.remove remoteShift s.remote core k).map fun r => (false,{s with remote := r.2})
  | r => r

def localGet (s : State) (k : Key) : Option Bytes :=
  (lookupSkip (accepts s.region.mem k) s.table (homeBucket shift k)).map fun r => readValue s.region.mem r.2.addr

def get (s : State) (core : ℕ) (k : Key) : Option (Bytes × State) :=
  match localGet shift s k with
  | some v => some (v,s)
  | none =>
    match ServerTable.get remoteShift s.remote core k false with
    | none => none
    | some (v,remote) =>
      if v = [] then some ([],{s with remote := remote})
      else (localPut shift dsId {s with remote := remote} k v).map fun r => (v,r.2)

end Operations

section Memory
variable {mem : Mem} {a b o : ℕ} {dsId : UInt8} {k : Key} {v : Bytes}

theorem writeEntry_below {x : ℕ} (h : x < a) : writeEntry mem a dsId k v b o x = mem x := by
  unfold writeEntry kHeaderSize
  rw [store_outside (.inl (by omega)),store_outside (.inl (by omega)),init_below h]

/-- The header is that of the object, however large the entry is. -/
theorem writeEntry_idLen : getObjIdLen (writeEntry mem a dsId k v b o) a = k.len := by
  have hle := k.le
  unfold getObjIdLen writeEntry kHeaderSize kIDLenPos
  rw [store_outside (.inl (by omega)),store_outside (.inl (by omega))]
  exact init_idLen hle

end Memory

section Runs
variable {dsId : UInt8} {r r' r₁ r₂ : LocalRegion} {a a' b o b' o' : ℕ} {k k' : Key} {v v' : Bytes}

theorem newEntry_spec (h : newEntry dsId r k v b o = some (a,r')) : a = r.bufPtr+r.region.firstFreeByteIdx ∧
    r'.bufPtr = r.bufPtr ∧ r'.bufPtr+r'.region.firstFreeByteIdx = a+(Request.entry k.len v.length).reserved ∧
    r'.mem = writeEntry (incRefCnt r.mem r.bufPtr) a dsId k v b o := by
  obtain ⟨⟨a,r₁⟩,ha,⟨⟩⟩ := Option.map_eq_some_iff.mp h
  obtain ⟨haddr,hnext⟩ := allocate_bump ha
  obtain ⟨ub,hub⟩ : ∃ ub, r.region.updateBoundaries false = ub := ⟨_,rfl⟩
  obtain ⟨n,hn⟩ : ∃ n, (Request.entry k.len v.length).reserved = n := ⟨_,rfl⟩
  obtain ⟨-,-,rfl⟩ := allocateObject_bump hn hub (returned_some ha)
  exact ⟨haddr,rfl,hnext,rfl⟩

/-- The bytes of an entry of at most 65528 bytes stay what they are, whatever entries follow it in the region. -/
theorem entry_kept (hfit : ClientTable.Fits k v) (hlow : 4 ≤ r.region.firstFreeByteIdx)
    (hs : newEntry dsId r k v b o = some (a,r₁)) {tr : List ((Key × Bytes × ℕ × ℕ) × ℕ)}
    (ht : Trace (fun r c => newEntry dsId r c.1 c.2.1 c.2.2.1 c.2.2.2) (fun _ _ => True) r₁ tr r₂) {x : ℕ} (hx : a ≤ x)
    (hx' : x < a+(Request.entry k.len v.length).needed) : r₂.mem x = r₁.mem x := by
  obtain ⟨ha,hbuf,hnext,-⟩ := newEntry_spec hs
  obtain ⟨hdata,hsize⟩ := hfit
  have hadm : (Request.entry k.len v.length).Admitted := by
    refine ⟨k.le,by omega,?_⟩
    simp only [Request.itemSize]
    omega
  have hres := (needed_le_reserved_iff hadm).mpr hsize
  -- the entry lies between the reference count and the first free byte
  refine (ht.invariant (I := fun r => r.bufPtr+4 ≤ x ∧ x < r.bufPtr+r.region.firstFreeByteIdx ∧ r.mem x = r₁.mem x)
    ⟨by omega,by omega,rfl⟩ fun r c a' r' _ hin hstep => ?_).2.2
  obtain ⟨hlow,hhigh,hsame⟩ := hin
  obtain ⟨ha,hbuf,hnext,hmem⟩ := newEntry_spec hstep
  refine ⟨by omega,by omega,?_⟩
  rw [hmem,writeEntry_below (by omega),← hsame]
  exact store_outside (.inr (by simp only [encodeLen,List.length_append,List.length_cons,List.length_nil]; omega))

/-- For one of the next seven sizes the allocator reserves nothing, and the next entry takes the same place. -/
theorem entry_lost (hlow : 65528 < kHeaderSize+(kEvacNotifierMetaSize+v.length)+k.len)
    (hlt : kHeaderSize+(kEvacNotifierMetaSize+v.length)+k.len < 2^16) (hs : newEntry dsId r k v b o = some (a,r₁))
    (hs' : newEntry dsId r₁ k' v' b' o' = some (a',r₂)) (hne : k'.len ≠ k.len) :
    a' = a ∧ ∀ o, accepts r₂.mem k ⟨a,o⟩ = false := by
  have hzero : (Request.entry k.len v.length).reserved = 0 := by
    have hitem : (kEvacNotifierMetaSize+v.length)%2^16 = kEvacNotifierMetaSize+v.length := Nat.mod_eq_of_lt (by omega)
    rw [Request.reserved,Request.objectSize,Request.itemSize,Request.idLen,hitem,Nat.mod_eq_of_lt hlt]
    exact alignTo_top hlow hlt
  obtain ⟨-,-,hnext,-⟩ := newEntry_spec hs
  obtain ⟨ha',-,-,hmem⟩ := newEntry_spec hs'
  obtain rfl : a' = a := by omega
  refine ⟨rfl,fun o => ?_⟩
  have hid : getObjIdLen r₂.mem a' = k'.len := by rw [hmem,writeEntry_idLen]
  simp only [accepts,hid,beq_eq_false_iff_ne.mpr hne,Bool.false_and]

end Runs

section Lost
variable {shift b f a : ℕ} {dsId : UInt8} {t : Table Entry} {r r' : LocalRegion} {remote : ServerTable.State} {k : Key} {v : Bytes}

theorem localPut_new (hb : homeBucket shift k = b) (hl : lookup (accepts r.mem k) t b = .missing)
    (hp : probe t (numEntries shift) b = some f) (hf : f-b < 32) (hn : newEntry dsId r k v b (f-b) = some (a,r')) :
    localPut shift dsId ⟨t,r,remote⟩ k v =
      some (false,⟨((t.setSlot f .busy).setSlot f (.entry ⟨a,f-b⟩)).setBit b (f-b),r',remote⟩) := by
  obtain ⟨bufPtr,region,mem⟩ := r
  simp only [localPut,hb,hl,Option.bind_eq_bind]
  rw [hp,Option.bind_some,bring,if_pos hf,Option.bind_some]
  simp only
  rw [hn,Option.bind_some]

theorem homeBucket_zero (k : Key) : homeBucket 0 k = 0 := by
  unfold homeBucket
  simp

/-- A key of 255 bytes with a value of 65260 bytes is put, then another key. A get of the first key misses. -/
theorem long_entry_overwritten : ∃ (k₁ k₂ : Key) (v₁ v₂ : Bytes) (s₁ s₂ s₃ : State), k₁.len = 255 ∧ v₁.length = 65260 ∧
    (0 : UInt8) ∉ k₁.bytes ∧ (0 : UInt8) ∉ k₂.bytes ∧ put 0 0 1 (.new 4096 65536) 0 k₁ v₁ = some (false,s₁) ∧
      put 0 0 1 s₁ 0 k₂ v₂ = some (false,s₂) ∧ get 0 0 1 s₂ 0 k₁ = some ([],s₃) := by
  have hrep : (List.replicate 255 (1 : UInt8)).length = 255 := List.length_replicate
  obtain ⟨k₁,hk₁⟩ : ∃ k : Key, k.bytes = List.replicate 255 1 := ⟨⟨_,(Nat.succ_pos 254).trans_eq hrep.symm,hrep.le⟩,rfl⟩
  obtain ⟨v₁,hv₁⟩ : ∃ v : Bytes, v.length = 65260 := ⟨List.replicate 65260 1,List.length_replicate⟩
  have hlen₁ : k₁.len = 255 := by rw [Key.len,hk₁,hrep]
  set k₂ := ServerTable.plainKey 2
  have hremove : ∀ k, ServerTable.remove 0 (.new 4096 65536) 0 k = some (false,.new 4096 65536) := fun k => by
    rw [ServerTable.remove,homeBucket_zero]
    rfl
  have hget : ServerTable.get 0 (.new 4096 65536) 0 k₁ false = some ([],.new 4096 65536) := by
    rw [ServerTable.get,homeBucket_zero]
    rfl
  -- both entries get the first address of the region
  obtain ⟨m₁,hn₁⟩ : ∃ m, newEntry 1 (fresh 0 (fun _ => 0) false) k₁ v₁ 0 0 = some (6,⟨0,⟨6,[],false⟩,m⟩) := by
    refine ⟨writeEntry (incRefCnt (fun _ => 0) 0) 6 1 k₁ v₁ 0 0,?_⟩
    rw [newEntry,hlen₁,hv₁]
    rfl
  obtain ⟨m₂,hn₂⟩ : ∃ m, newEntry 1 ⟨0,⟨6,[],false⟩,m₁⟩ k₂ [6] 0 1 = some (6,⟨0,⟨30,[],false⟩,m⟩) :=
    ⟨writeEntry (incRefCnt m₁ 0) 6 1 k₂ [6] 0 1,by rw [newEntry,show k₂.len = 1 by rfl]; rfl⟩
  obtain ⟨-,hlost⟩ := entry_lost (by rw [hlen₁,hv₁]; decide) (by rw [hlen₁,hv₁]; decide) hn₁ hn₂ (by rw [hlen₁]; decide)
  have hother : accepts m₁ k₂ ⟨6,0⟩ = false := by
    obtain ⟨-,-,-,hmem⟩ := newEntry_spec hn₁
    simp only at hmem
    rw [accepts,hmem,writeEntry_idLen,hlen₁]
    rfl
  set t₁ : Table Entry := ((Table.empty.setSlot 0 .busy).setSlot 0 (.entry ⟨6,0⟩)).setBit 0 0
  set t₂ : Table Entry := ((t₁.setSlot 1 .busy).setSlot 1 (.entry ⟨6,1⟩)).setBit 0 1
  have hl₂ : lookup (accepts m₁ k₂) t₁ 0 = .missing := by
    change scan _ t₁ 0 (offsets (t₁.bitmap 0)) = _
    rw [show offsets (t₁.bitmap 0) = [0] by decide]
    change (if accepts m₁ k₂ ⟨6,0⟩ then _ else _) = _
    rw [hother]
    rfl
  have hmiss : lookupSkip (accepts m₂ k₁) t₂ 0 = none := by
    change scanSkip _ t₂ 0 (offsets (t₂.bitmap 0)) = _
    rw [show offsets (t₂.bitmap 0) = [0,1] by decide]
    change (if accepts m₂ k₁ ⟨6,0⟩ then _ else if accepts m₂ k₁ ⟨6,1⟩ then _ else _) = _
    rw [hlost,hlost]
    rfl
  refine ⟨k₁,k₂,v₁,[6],⟨t₁,⟨0,⟨6,[],false⟩,m₁⟩,.new 4096 65536⟩,⟨t₂,⟨0,⟨30,[],false⟩,m₂⟩,.new 4096 65536⟩,
    ⟨t₂,⟨0,⟨30,[],false⟩,m₂⟩,.new 4096 65536⟩,hlen₁,hv₁,?_,by decide,?_,?_,?_⟩
  · rw [hk₁]
    exact fun h => absurd (List.eq_of_mem_replicate h) (by decide)
  · rw [put,State.new,localPut_new (homeBucket_zero k₁) rfl (show _ = some 0 by decide) (by decide) hn₁]
    simp only [hremove,Option.map_some]
    rfl
  · rw [put,localPut_new (homeBucket_zero k₂) hl₂ (show _ = some 1 by decide) (by decide) hn₂]
    simp only [hremove,Option.map_some]
    rfl
  · rw [get,localGet,homeBucket_zero,hmiss]
    simp only [Option.map_none,hget,if_true]

end Lost

end FarMemory.EntryBytes
