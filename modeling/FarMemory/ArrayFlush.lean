import FarMemory.Machine
import FarMemory.PointerMeta
import FarMemory.ServerArrays

/-!
# Flushing an array

The items of a `GenericArray` are unique pointers whose object ids are their indices, so an
item is its pointer word and the data of its local object. Accesses, the collector's phases
on an item, swap-ins and the flush of an item are atomic, as the object lock makes them.
`flush` itself is not: it starts twenty threads with a range of indices each, which flush
one item after the other in any interleaving, while reads, evictions and swap-ins go on;
writes come before or after it. An assertion that fails ends the run, and so does a copy
of an item into an object of another size.
-/
namespace FarMemory.ArrayFlush
open PointerMeta FarMemPtrMeta ServerArrays ByteStore Execution Function

def kObjectIdSize : ℕ := 8

/-! ### The ranges of the flushing threads -/

def numTasksPerThreads (numItems : UInt64) : UInt64 := if numItems = 0 then 0 else (numItems-1)/20+1

def left (numItems : UInt64) (tid : Fin kNumCPUs) : UInt64 :=
  numTasksPerThreads numItems*UInt64.ofNat tid

def right (numItems : UInt64) (tid : Fin kNumCPUs) : UInt64 :=
  min (left numItems tid+numTasksPerThreads numItems) numItems

/-! ### The array -/

structure Item where
  word : FarMemPtrMeta
  data : List UInt8

structure State where
  numItems : UInt64
  itemSize : UInt32
  dsId : UInt8
  items : UInt64 → Item
  dirty : Bool
  server : ServerArray
  /-- The loop variables of the flushing threads. -/
  threads : Option (Fin kNumCPUs → UInt64)

/-- The array of pointers has to fit into the address space. The size of an item is narrowed to 16
bits on its way to the allocator; `fresh` are the bytes that lie in the new objects. -/
def construct (numItems : UInt64) (itemSize : UInt32) (dsId : UInt8) (addr : UInt64 → ℕ)
    (fresh : UInt64 → ℕ → UInt8) : Option State :=
  if 8*numItems.toNat ≤ 2^47 ∧ itemSize.toNat%2^16 ≤ kMaxObjectDataSize then
    (ServerArrays.construct numItems itemSize).map fun server =>
      ⟨numItems,itemSize,dsId,
        fun i => ⟨FarMemPtrMeta.construct false (addr i),load (fresh i) 0 (itemSize.toNat%2^16)⟩,
        false,server,none⟩
  else none

namespace State

def setItem (s : State) (i : UInt64) (it : Item) : State := {s with items := update s.items i it}

/-- `write_object` on the server, with its assertion. -/
def writeServer (s : State) (i : UInt64) (data : List UInt8) : Option ServerArray :=
  if data.length = s.itemSize.toNat then s.server.writeObject i data else none

/-- As many bytes arrive as the reply announces. -/
def readServer (s : State) (id : ℕ) : Option (List UInt8) :=
  (s.server.readObject (UInt64.ofNat id)).map fun r => r.2.take r.1

def swapIn (s : State) (i : UInt64) (addr : ℕ) : Option State :=
  let w := (s.items i).word
  if w.isPresent then some s
  else (s.readServer w.getObjectId).map fun data => s.setItem i ⟨w.setPresent addr,data⟩

def mutatorMigrateObject (s : State) (i : UInt64) (addr : ℕ) : State :=
  let it := s.items i
  if it.word.isPresent && it.word.isEvacuation then s.setItem i ⟨it.word.mutatorCopy addr,it.data⟩ else s

/-- `_deref`, where local memory is free at `addr` if the item has to be swapped in or moved. -/
def deref (s : State) (i : UInt64) (isMut : Bool) (addr : ℕ) : Option State :=
  let w := (s.items i).word
  let s' := if w.isPresent then some (s.mutatorMigrateObject i addr)
    else if w.isNull then none else s.swapIn i addr
  s'.map fun s' =>
    let it := s'.items i
    if it.word.metadata &&& exceptions isMut != 0#64 then s'.setItem i ⟨it.word.touch isMut false,it.data⟩
    else s'

def setEvacuation (s : State) (i : UInt64) : State :=
  let it := s.items i
  if it.word.isPresent then s.setItem i ⟨it.word.setEvacuation,it.data⟩ else s

/-- The end of `swap_out`. `gc_wb` asserts that the object id has 38 bits. -/
def evict (s : State) (i : UInt64) : Option State :=
  let it := s.items i
  if i.toNat < 2^kObjectIDBitSize then
    (if it.word.isDirty then s.writeServer i it.data else some s.server).map fun server =>
      {s with server := server}.setItem i
        ⟨it.word.gcWb s.dsId.toNat ((kHeaderSize+it.data.length+kObjectIdSize)%2^16) i.toNat,[]⟩
  else none

/-- A hot object may be copied instead. -/
def swapOut (s : State) (i : UInt64) (copy : Option ℕ) : Option State :=
  let it := s.items i
  if it.word.isPresent && it.word.isEvacuation then
    match copy with
    | some addr => if it.word.isHot then some (s.setItem i ⟨it.word.gcCopy addr,it.data⟩) else s.evict i
    | none => s.evict i
  else some s

/-- `GenericFarMemPtr::_flush`. -/
def flushItem (s : State) (i : UInt64) : Option State :=
  let it := s.items i
  if it.word.isPresent && it.word.isDirty then
    (s.writeServer i it.data).map fun server =>
      {s with server := server}.setItem i ⟨it.word.clearDirty,it.data⟩
  else some s

end State

inductive Op
  | at (i : UInt64) (addr : ℕ)
  | atMut (i : UInt64) (addr : ℕ) (bytes : List UInt8)
  | swapIn (i : UInt64) (addr : ℕ)
  | mark (i : UInt64)
  | swapOut (i : UInt64) (copy : Option ℕ)
  /-- The call of `flush`: it returns at once or starts the threads. -/
  | flush
  /-- A thread flushes its next item. -/
  | flushNext (tid : Fin kNumCPUs)
  /-- All threads are joined and `flush` returns. -/
  | join

inductive Outcome
  | done
  | value (bytes : List UInt8)
  | returned
  deriving DecidableEq, Repr

def State.finish (r : Option State) : Option (Outcome × State) := r.map fun s => (.done,s)

def step (s : State) : Op → Option (Outcome × State)
  | .at i addr =>
    if i < s.numItems then (s.deref i false addr).map fun s' => (.value (s'.items i).data,s') else none
  | .atMut i addr bytes =>
    if i < s.numItems ∧ bytes.length = s.itemSize.toNat ∧ s.threads = none then
      ({s with dirty := true}.deref i true addr).bind fun s' =>
        if bytes.length = (s'.items i).data.length then
          some (.done,s'.setItem i ⟨(s'.items i).word,bytes⟩)
        else none
    else none
  | .swapIn i addr => if i < s.numItems then State.finish (s.swapIn i addr) else none
  | .mark i => if i < s.numItems then some (.done,s.setEvacuation i) else none
  | .swapOut i copy => if i < s.numItems then State.finish (s.swapOut i copy) else none
  | .flush =>
    if s.threads = none then
      if s.dirty then some (.done,{s with dirty := false, threads := some (left s.numItems)})
      else some (.returned,s)
    else none
  | .flushNext tid =>
    match s.threads with
    | none => none
    | some next =>
      if next tid < right s.numItems tid then
        (s.flushItem (next tid)).map fun s' =>
          (.done,{s' with threads := some (update next tid (next tid+1))})
      else none
  | .join =>
    match s.threads with
    | none => none
    | some next =>
      if ∀ tid, ¬ next tid < right s.numItems tid then some (.returned,{s with threads := none}) else none

/-- What was written last to each item that was ever written. -/
def follow (last : UInt64 → Option (List UInt8)) : Op × Outcome → UInt64 → Option (List UInt8)
  | (.atMut i _ bytes,_) => update last i (some bytes)
  | _ => last

def lastWritten (tr : List (Op × Outcome)) : UInt64 → Option (List UInt8) := tr.foldl follow fun _ => none

def Item.Clean (it : Item) : Prop := ¬ (it.word.isPresent = true ∧ it.word.isDirty = true)

/-! ### Every index belongs to one thread -/

section Ranges
variable {n : UInt64} (hn : 8*n.toNat ≤ 2^47)
include hn

theorem numTasksPerThreads_toNat :
    (numTasksPerThreads n).toNat = if n.toNat = 0 then 0 else (n.toNat-1)/20+1 := by
  unfold numTasksPerThreads
  by_cases h : n = 0
  · subst h
    rfl
  · have hpos : n.toNat ≠ 0 := fun h0 => h (UInt64.toNat_inj.mp h0)
    have hle : (1 : UInt64) ≤ n := UInt64.le_iff_toNat_le.mpr (Nat.pos_of_ne_zero hpos)
    rw [if_neg h,if_neg hpos,UInt64.toNat_add,UInt64.toNat_div,UInt64.toNat_sub_of_le _ _ hle]
    change ((n.toNat-1)/20+1)%2^64 = _
    omega

theorem numTasksPerThreads_le : (numTasksPerThreads n).toNat ≤ 2^44 := by
  rw [numTasksPerThreads_toNat hn]
  split_ifs <;> omega

theorem left_toNat (tid : Fin kNumCPUs) : (left n tid).toNat = (numTasksPerThreads n).toNat*tid.val := by
  have htid : tid.val < 20 := tid.isLt
  have hmul : (numTasksPerThreads n).toNat*tid.val ≤ 2^44*20 := Nat.mul_le_mul (numTasksPerThreads_le hn) htid.le
  rw [left,UInt64.toNat_mul,UInt64.toNat_ofNat_of_lt' (show tid.val < UInt64.size by
    simp only [UInt64.size]; omega),Nat.mod_eq_of_lt (by omega)]

theorem right_toNat (tid : Fin kNumCPUs) :
    (right n tid).toNat = min ((numTasksPerThreads n).toNat*(tid.val+1)) n.toNat := by
  have htid : tid.val < 20 := tid.isLt
  have hmul : (numTasksPerThreads n).toNat*(tid.val+1) ≤ 2^44*20 := Nat.mul_le_mul (numTasksPerThreads_le hn) htid
  have hsum : (left n tid+numTasksPerThreads n).toNat = (numTasksPerThreads n).toNat*(tid.val+1) := by
    rw [UInt64.toNat_add,left_toNat hn,Nat.mul_succ]
    rw [Nat.mul_succ] at hmul
    exact Nat.mod_eq_of_lt (by omega)
  change (if left n tid+numTasksPerThreads n ≤ n then _ else n).toNat = _
  simp only [apply_ite UInt64.toNat,UInt64.le_iff_toNat_le,hsum,Nat.min_def]

theorem ranges_cover {i : UInt64} (hi : i < n) :
    ∃ tid : Fin kNumCPUs, (left n tid ≤ i ∧ i < right n tid) ∧
      ∀ tid' : Fin kNumCPUs, left n tid' ≤ i ∧ i < right n tid' → tid' = tid := by
  have hlt : i.toNat < n.toNat := UInt64.lt_iff_toNat_lt.mp hi
  have htask : (numTasksPerThreads n).toNat = (n.toNat-1)/20+1 := by
    rw [numTasksPerThreads_toNat hn,if_neg (by omega)]
  have hpos : 0 < (numTasksPerThreads n).toNat := by omega
  have hrange : ∀ tid : Fin kNumCPUs, left n tid ≤ i ∧ i < right n tid ↔
      i.toNat/(numTasksPerThreads n).toNat = tid.val := by
    intro tid
    rw [UInt64.le_iff_toNat_le,UInt64.lt_iff_toNat_lt,left_toNat hn,right_toNat hn,
      Nat.div_eq_iff hpos]
    rw [Nat.mul_succ,Nat.mul_comm]
    omega
  have hdiv : i.toNat/(numTasksPerThreads n).toNat < kNumCPUs := by
    rw [Nat.div_lt_iff_lt_mul hpos,htask]
    unfold kNumCPUs
    omega
  refine ⟨⟨_,hdiv⟩,(hrange _).mpr rfl,fun tid' h => ?_⟩
  exact Fin.ext ((hrange tid').mp h).symm

end Ranges

/-! ### What a run keeps -/

/-- The item holds what was written to it last: locally, and on the server as well unless it is
dirty. -/
def ItemOk (itemSize : ℕ) (i : UInt64) (held : List UInt8) (last : Option (List UInt8)) (it : Item) : Prop :=
  it.word.isShared = false ∧
    if it.word.isPresent then it.data.length = itemSize%2^16 ∧ (∀ v ∈ last, it.data = v) ∧
      (it.word.isDirty = false → it.data = held)
    else it.word.getObjectId = i.toNat ∧ itemSize < 2^16 ∧ ∀ v ∈ last, held = v

/-- The dirty flag covers the written items; behind the loop variable of a thread they are clean. -/
def Flushed (s : State) (last : UInt64 → Option (List UInt8)) : Prop :=
  match s.threads with
  | none => s.dirty = false → ∀ i, (last i).isSome → (s.items i).Clean
  | some next => s.dirty = false ∧ ∀ tid, left s.numItems tid ≤ next tid ∧
      ∀ i, left s.numItems tid ≤ i → i < next tid → (s.items i).Clean

structure Inv (s : State) (last : UInt64 → Option (List UInt8)) (held : UInt64 → List UInt8) : Prop where
  bound : 8*s.numItems.toNat ≤ 2^47
  numItems : s.server.numItems = s.numItems
  itemSize : s.server.itemSize = s.itemSize
  holds : Holds s.server held
  range : ∀ i, (last i).isSome → i < s.numItems
  item : ∀ i < s.numItems, ItemOk s.itemSize.toNat i (held i) (last i) (s.items i)
  flushed : Flushed s last

section Items
variable {k : ℕ} {i : UInt64} {held data : List UInt8} {last : Option (List UInt8)} {w w' : FarMemPtrMeta}

theorem itemOk_present (hs : w.isShared = false) (hp : w.isPresent = true) (hlen : data.length = k%2^16)
    (hlast : ∀ v ∈ last, data = v) (hclean : w.isDirty = false → data = held) :
    ItemOk k i held last ⟨w,data⟩ := by
  refine ⟨hs,?_⟩
  rw [if_pos hp]
  exact ⟨hlen,hlast,hclean⟩

theorem itemOk_absent (hs : w.isShared = false) (hp : w.isPresent = false) (hid : w.getObjectId = i.toNat)
    (hk : k < 2^16) (hlast : ∀ v ∈ last, held = v) : ItemOk k i held last ⟨w,data⟩ := by
  refine ⟨hs,?_⟩
  rw [if_neg (by rw [hp]; exact Bool.false_ne_true)]
  exact ⟨hid,hk,hlast⟩

theorem ItemOk.present (h : ItemOk k i held last ⟨w,data⟩) (hp : w.isPresent = true) :
    data.length = k%2^16 ∧ (∀ v ∈ last, data = v) ∧ (w.isDirty = false → data = held) := by
  have h' := h.2
  rwa [if_pos hp] at h'

theorem ItemOk.absent (h : ItemOk k i held last ⟨w,data⟩) (hp : w.isPresent = false) :
    w.getObjectId = i.toNat ∧ k < 2^16 ∧ ∀ v ∈ last, held = v := by
  have h' := h.2
  rwa [if_neg (by simp [hp])] at h'

theorem clean_of_isDirty (h : w.isDirty = false) : (Item.mk w data).Clean := by
  rintro ⟨-,hd⟩
  rw [h] at hd
  cases hd

theorem clean_of_absent (h : w.isPresent = false) : (Item.mk w data).Clean := by
  rintro ⟨hp,-⟩
  rw [h] at hp
  cases hp

end Items

section Steps
variable {s s' : State} {last : UInt64 → Option (List UInt8)} {held : UInt64 → List UInt8} {i : UInt64}
  {server : ServerArray} {addr : ℕ}

theorem setItem_self (s : State) (i : UInt64) (it : Item) : (s.setItem i it).items i = it :=
  update_self ..

theorem setItem_of_ne (s : State) {i j : UInt64} (h : j ≠ i) (it : Item) :
    (s.setItem i it).items j = s.items j :=
  update_of_ne h ..

/-- Everything but the items and the server. -/
structure Same (s s' : State) : Prop where
  numItems : s'.numItems = s.numItems
  itemSize : s'.itemSize = s.itemSize
  dirty : s'.dirty = s.dirty
  threads : s'.threads = s.threads

theorem Same.refl (s : State) : Same s s := ⟨rfl,rfl,rfl,rfl⟩

theorem Same.setItem (s : State) (i : UInt64) (it : Item) : Same s (s.setItem i it) := ⟨rfl,rfl,rfl,rfl⟩

section
variable (h : Inv s last held)
include h

/-- One item and its place on the server change, and a clean item stays clean. -/
theorem Inv.setItem {it : Item} {held' : UInt64 → List UInt8}
    (hn : server.numItems = s.server.numItems) (hk : server.itemSize = s.server.itemSize)
    (hserver : Holds server held') (hother : ∀ j, j ≠ i → held' j = held j)
    (hit : ItemOk s.itemSize.toNat i (held' i) (last i) it)
    (hclean : (s.items i).Clean → it.Clean) :
    Inv ({s with server := server}.setItem i it) last held' := by
  have hitems : ∀ j, (s.items j).Clean → (({s with server := server}.setItem i it).items j).Clean := by
    intro j hj
    rcases eq_or_ne j i with rfl | hne
    · rw [setItem_self]
      exact hclean hj
    · rwa [setItem_of_ne _ hne]
  refine ⟨h.bound,hn.trans h.numItems,hk.trans h.itemSize,hserver,h.range,?_,?_⟩
  · intro j hj
    rcases eq_or_ne j i with rfl | hne
    · rw [setItem_self]
      exact hit
    · rw [setItem_of_ne _ hne,hother j hne]
      exact h.item j hj
  · have hf := h.flushed
    unfold Flushed at hf ⊢
    change match s.threads with | none => _ | some next => _
    rcases hth : s.threads with _ | next
    · rw [hth] at hf
      exact fun hd j hj => hitems j (hf hd j hj)
    · rw [hth] at hf
      exact ⟨hf.1,fun tid => ⟨(hf.2 tid).1,fun j hl hlt => hitems j ((hf.2 tid).2 j hl hlt)⟩⟩

theorem Inv.setWord {it : Item}
    (hit : ItemOk s.itemSize.toNat i (held i) (last i) it) (hclean : (s.items i).Clean → it.Clean) :
    Inv (s.setItem i it) last held :=
  h.setItem rfl rfl h.holds (fun _ _ => rfl) hit hclean

/-- The word of a present item is replaced by one that is as clean. -/
theorem Inv.reword (hi : i < s.numItems) (hp : (s.items i).word.isPresent = true) {w : FarMemPtrMeta}
    (hp' : w.isPresent = true) (hs : w.isShared = (s.items i).word.isShared)
    (hd : w.isDirty = (s.items i).word.isDirty) : Inv (s.setItem i ⟨w,(s.items i).data⟩) last held := by
  have hitem := h.item i hi
  obtain ⟨hlen,hlast,hclean⟩ := hitem.present hp
  refine h.setWord (itemOk_present (hs.trans hitem.1) hp' hlen hlast fun hdirty => hclean (hd.symm.trans hdirty)) ?_
  rintro hc ⟨-,hdirty⟩
  exact hc ⟨hp,hd ▸ hdirty⟩

theorem Inv.product (hk : s.itemSize.toNat < 2^16) :
    s.server.numItems.toNat*s.server.itemSize.toNat < 2^64 := by
  have hn := h.bound
  rw [h.numItems,h.itemSize]
  have hmul : s.numItems.toNat*s.itemSize.toNat ≤ 2^44*2^16 := Nat.mul_le_mul (by omega) hk.le
  omega

theorem Inv.readServer (hk : s.itemSize.toNat < 2^16) (hi : i < s.numItems) :
    s.readServer i.toNat = some (held i) := by
  have hread := h.holds.readObject (h.product hk) (by rwa [h.numItems])
  have hlen := h.holds.sized i
  rw [State.readServer,UInt64.ofNat_toNat,hread,Option.map_some,h.itemSize,Nat.mod_eq_of_lt hk,
    List.take_of_length_le (by rw [hlen,h.itemSize])]

section
variable (hi : i < s.numItems)
include hi

theorem Inv.writeServer {data : List UInt8}
    (hdata : data.length = s.itemSize.toNat%2^16) (hw : s.writeServer i data = some server) :
    s.itemSize.toNat < 2^16 ∧ server.numItems = s.server.numItems ∧ server.itemSize = s.server.itemSize ∧
      Holds server (update held i data) := by
  obtain ⟨hlen,hw⟩ := Option.ite_none_right_eq_some.mp hw
  have hk : s.itemSize.toNat < 2^16 := by
    rw [← hlen,hdata]
    exact Nat.mod_lt _ (by decide)
  obtain ⟨hn,hk',hholds⟩ := h.holds.write
    (show Legal s.server (i,data) from ⟨by rwa [h.numItems],by rw [hlen,h.itemSize],by rw [hlen]; exact hk⟩) hw
  exact ⟨hk,hn,hk',hholds⟩

theorem Inv.swapIn (hs : s.swapIn i addr = some s') :
    Inv s' last held ∧ Same s s' ∧ (s'.items i).word.isPresent = true := by
  unfold State.swapIn at hs
  dsimp only at hs
  split at hs
  · rename_i hp
    cases hs
    exact ⟨h,.refl s,hp⟩
  · rename_i hp
    rw [Bool.not_eq_true] at hp
    have hitem := h.item i hi
    obtain ⟨hid,hk,hlast⟩ := hitem.absent hp
    rw [hid,h.readServer hk hi] at hs
    cases hs
    have hlen : (held i).length = s.itemSize.toNat%2^16 := by
      rw [Nat.mod_eq_of_lt hk,← h.itemSize]
      exact h.holds.sized i
    refine ⟨h.setWord (itemOk_present ((setPresent_isShared _ _).trans hitem.1) (setPresent_isPresent _ _)
      hlen hlast fun _ => rfl) fun _ => clean_of_isDirty (setPresent_isDirty _ _),.setItem _ _ _,?_⟩
    rw [setItem_self]
    exact setPresent_isPresent _ _

theorem Inv.mutatorMigrateObject
    (hpres : (s.items i).word.isPresent = true) (addr : ℕ) :
    Inv (s.mutatorMigrateObject i addr) last held ∧ Same s (s.mutatorMigrateObject i addr) ∧
      ((s.mutatorMigrateObject i addr).items i).word.isPresent = true := by
  unfold State.mutatorMigrateObject
  dsimp only
  split
  · refine ⟨h.reword hi hpres ((mutatorCopy_isPresent _ _).trans hpres) (mutatorCopy_isShared _ _)
      (mutatorCopy_isDirty _ _),.setItem _ _ _,?_⟩
    rw [setItem_self]
    exact (mutatorCopy_isPresent _ _).trans hpres
  · exact ⟨h,.refl s,hpres⟩

/-- The stores at the end of `_deref`. A mutable access leaves the item dirty, a read leaves the
dirty bit alone. -/
theorem Inv.touch (hp : (s.items i).word.isPresent = true)
    (isMut : Bool) :
    ∃ w : FarMemPtrMeta, w.isPresent = true ∧ w.isShared = false ∧
      w.isDirty = (isMut || (s.items i).word.isDirty) ∧
      (if (s.items i).word.metadata &&& exceptions isMut != 0#64 then
        s.setItem i ⟨(s.items i).word.touch isMut false,(s.items i).data⟩ else s) =
        s.setItem i ⟨w,(s.items i).data⟩ := by
  have hs : (s.items i).word.isShared = false := (h.item i hi).1
  rw [exceptions_test]
  split
  · refine ⟨_,?_,?_,?_,rfl⟩
    · rw [← hs]
      exact touch_isPresent _ isMut hp
    · rw [← hs,touch_isShared,hs]
    · rw [← hs]
      exact touch_isDirty _ isMut
  · rename_i hfast
    refine ⟨(s.items i).word,hp,hs,?_,?_⟩
    · cases isMut with
      | false => rfl
      | true =>
        simp only [Bool.true_and,Bool.or_eq_true,Bool.not_eq_true',not_or,Bool.not_eq_false] at hfast
        rw [hfast.2]
        rfl
    · rw [State.setItem,update_eq_self]

theorem Inv.deref {isMut : Bool}
    (hs : s.deref i isMut addr = some s') :
    ∃ s₁ w, Inv s₁ last held ∧ Same s s₁ ∧ (s₁.items i).word.isPresent = true ∧ w.isPresent = true ∧
      w.isShared = false ∧ w.isDirty = (isMut || (s₁.items i).word.isDirty) ∧
      s' = s₁.setItem i ⟨w,(s₁.items i).data⟩ := by
  unfold State.deref at hs
  dsimp only at hs
  obtain ⟨s₁,hs1,heq⟩ := Option.map_eq_some_iff.mp hs
  have hready : Inv s₁ last held ∧ Same s s₁ ∧ (s₁.items i).word.isPresent = true := by
    split at hs1
    · rename_i hp
      cases hs1
      exact h.mutatorMigrateObject hi hp addr
    · obtain ⟨-,hs1⟩ := Option.ite_none_left_eq_some.mp hs1
      exact h.swapIn hi hs1
  obtain ⟨hinv,hsame,hp⟩ := hready
  obtain ⟨w,hwp,hws,hwd,hset⟩ := hinv.touch (by rwa [hsame.numItems]) hp isMut
  exact ⟨s₁,w,hinv,hsame,hp,hwp,hws,hwd,heq.symm.trans hset⟩

theorem Inv.at
    (hs : s.deref i false addr = some s') : Inv s' last held ∧ Same s s' := by
  obtain ⟨s₁,w,hinv,hsame,hp,hwp,hws,hwd,rfl⟩ := h.deref hi hs
  have hi' : i < s₁.numItems := by rwa [hsame.numItems]
  exact ⟨hinv.reword hi' hp hwp (hws.trans (hinv.item i hi').1.symm) hwd,
    ⟨hsame.numItems,hsame.itemSize,hsame.dirty,hsame.threads⟩⟩

end

theorem Inv.setDirty (hth : s.threads = none) : Inv {s with dirty := true} last held := by
  refine ⟨h.bound,h.numItems,h.itemSize,h.holds,h.range,h.item,?_⟩
  unfold Flushed
  dsimp only
  rw [hth]
  intro hfalse
  cases hfalse

section
variable (hi : i < s.numItems)
include hi

theorem Inv.atMut {bytes : List UInt8}
    (hth : s.threads = none) (hlen : bytes.length = s.itemSize.toNat)
    (hs : {s with dirty := true}.deref i true addr = some s')
    (hfit : bytes.length = (s'.items i).data.length) :
    s.itemSize.toNat < 2^16 ∧ Same {s with dirty := true} (s'.setItem i ⟨(s'.items i).word,bytes⟩) ∧
      Inv (s'.setItem i ⟨(s'.items i).word,bytes⟩) (update last i (some bytes)) held := by
  obtain ⟨s₁,w,hinv,hsame,hp,hwp,hws,hwd,rfl⟩ := (h.setDirty hth).deref hi hs
  have hi1 : i < s₁.numItems := by rwa [hsame.numItems]
  have hk1 : s₁.itemSize = s.itemSize := hsame.itemSize
  obtain ⟨hdata,-,-⟩ := (hinv.item i hi1).present hp
  rw [setItem_self] at hfit ⊢
  dsimp only at hfit ⊢
  have hmod : bytes.length = s.itemSize.toNat%2^16 := by rw [hfit,hdata,hk1]
  have hk : s.itemSize.toNat < 2^16 := by
    rw [← hlen,hmod]
    exact Nat.mod_lt _ (by decide)
  refine ⟨hk,⟨hsame.numItems,hsame.itemSize,hsame.dirty,hsame.threads⟩,hinv.bound,hinv.numItems,
    hinv.itemSize,hinv.holds,?_,?_,?_⟩
  · intro j hj
    rcases eq_or_ne j i with rfl | hne
    · exact hi1
    · rw [update_of_ne hne] at hj
      exact hinv.range j hj
  · intro j hj
    rcases eq_or_ne j i with rfl | hne
    · rw [setItem_self,update_self]
      refine itemOk_present hws hwp (by rw [hmod]; exact hk1 ▸ rfl) (by simp) fun hclean => ?_
      rw [hwd] at hclean
      cases hclean
    · rw [setItem_of_ne _ hne,setItem_of_ne _ hne,update_of_ne hne]
      exact hinv.item j hj
  · have hth' : s₁.threads = none := hsame.threads.trans hth
    unfold Flushed
    change match s₁.threads with | none => _ | some next => _
    rw [hth']
    intro hfalse
    have hdirty : s₁.dirty = true := hsame.dirty
    cases hdirty.symm.trans hfalse

theorem Inv.setEvacuation :
    Inv (s.setEvacuation i) last held ∧ Same s (s.setEvacuation i) := by
  unfold State.setEvacuation
  dsimp only
  split
  · rename_i hp
    exact ⟨h.reword hi hp ((setEvacuation_isPresent _).trans hp) (setEvacuation_isShared _) (setEvacuation_isDirty _),
      .setItem _ _ _⟩
  · exact ⟨h,.refl s⟩

theorem Inv.writeBack
    (hp : (s.items i).word.isPresent = true)
    (hw : (if (s.items i).word.isDirty then s.writeServer i (s.items i).data else some s.server) = some server) :
    server.numItems = s.server.numItems ∧ server.itemSize = s.server.itemSize ∧
      s.itemSize.toNat < 2^16 ∧ Holds server (update held i (s.items i).data) := by
  obtain ⟨hlen,-,hclean⟩ := (h.item i hi).present hp
  split at hw
  · obtain ⟨hk,hn,hk',hholds⟩ := h.writeServer hi hlen hw
    exact ⟨hn,hk',hk,hholds⟩
  · rename_i hd
    cases hw
    have heq := hclean (Bool.not_eq_true _ ▸ hd)
    rw [heq,update_eq_self]
    refine ⟨rfl,rfl,?_,h.holds⟩
    have hsized := h.holds.sized i
    rw [← heq,hlen,h.itemSize] at hsized
    rw [← hsized]
    exact Nat.mod_lt _ (by decide)

theorem Inv.evict (hp : (s.items i).word.isPresent = true)
    (hs : s.evict i = some s') : (∃ held', Inv s' last held') ∧ Same s s' := by
  unfold State.evict at hs
  obtain ⟨hid,hs⟩ := Option.ite_none_right_eq_some.mp hs
  obtain ⟨server,hw,rfl⟩ := Option.map_eq_some_iff.mp hs
  obtain ⟨hn,hk',hk,hholds⟩ := h.writeBack hi hp hw
  have hitem := h.item i hi
  obtain ⟨hlen,hlast,-⟩ := hitem.present hp
  have hsize : (kHeaderSize+(s.items i).data.length+kObjectIdSize)%2^16 < 2^16 := Nat.mod_lt _ (by decide)
  have habsent := gcWb_isPresent (s.items i).word _ _ _ s.dsId.toNat_lt hsize hid
  refine ⟨⟨_,h.setItem hn hk' hholds (fun j hne => update_of_ne hne ..) ?_
    fun _ => clean_of_absent habsent⟩,⟨rfl,rfl,rfl,rfl⟩⟩
  rw [update_self]
  exact itemOk_absent ((gcWb_isShared _ _ _ _ s.dsId.toNat_lt hsize hid).trans hitem.1) habsent
    (gcWb_getObjectId _ _ _ _ s.dsId.toNat_lt hsize hid) hk hlast

theorem Inv.swapOut {copy : Option ℕ}
    (hs : s.swapOut i copy = some s') : (∃ held', Inv s' last held') ∧ Same s s' := by
  unfold State.swapOut at hs
  dsimp only at hs
  split at hs
  swap
  · cases hs
    exact ⟨⟨held,h⟩,.refl s⟩
  rename_i hpe
  have hp := (Bool.and_eq_true _ _ ▸ hpe).1
  split at hs
  · split at hs
    · cases hs
      exact ⟨⟨held,h.reword hi hp ((gcCopy_isPresent _ _).trans hp) (gcCopy_isShared _ _) (gcCopy_isDirty _ _)⟩,
        .setItem _ _ _⟩
    · exact h.evict hi hp hs
  · exact h.evict hi hp hs

theorem Inv.flushItem (hs : s.flushItem i = some s') :
    ∃ held', Inv s' last held' ∧ Same s s' ∧ (s'.items i).Clean ∧
      ∀ j, (s.items j).Clean → (s'.items j).Clean := by
  unfold State.flushItem at hs
  dsimp only at hs
  split at hs
  · rename_i hpd
    rw [Bool.and_eq_true] at hpd
    obtain ⟨server,hw,rfl⟩ := Option.map_eq_some_iff.mp hs
    obtain ⟨hlen,hlast,-⟩ := (h.item i hi).present hpd.1
    obtain ⟨-,hn,hk,hholds⟩ := h.writeServer hi hlen hw
    have hclean : (Item.mk (s.items i).word.clearDirty (s.items i).data).Clean :=
      clean_of_isDirty (clearDirty_isDirty _)
    refine ⟨_,h.setItem hn hk hholds (fun j hne => update_of_ne hne ..) ?_ fun _ => hclean,
      ⟨rfl,rfl,rfl,rfl⟩,?_,?_⟩
    · rw [update_self]
      exact itemOk_present ((clearDirty_isShared _).trans (h.item i hi).1)
        ((clearDirty_isPresent _).trans hpd.1) hlen hlast fun _ => rfl
    · rw [setItem_self]
      exact hclean
    · intro j hj
      rcases eq_or_ne j i with rfl | hne
      · rw [setItem_self]
        exact hclean
      · rwa [setItem_of_ne _ hne]
  · rename_i hpd
    cases hs
    refine ⟨held,h,.refl s,?_,fun j hj => hj⟩
    rintro ⟨hp,hd⟩
    exact hpd (by rw [hp,hd]; rfl)

end

theorem Inv.startFlush :
    Inv {s with dirty := false, threads := some (left s.numItems)} last held := by
  refine ⟨h.bound,h.numItems,h.itemSize,h.holds,h.range,h.item,rfl,fun tid => ⟨UInt64.le_refl _,?_⟩⟩
  intro i hle hlt
  exact absurd hlt (UInt64.not_lt.mpr hle)

end

theorem lt_of_lt_right {n : UInt64} (hn : 8*n.toNat ≤ 2^47) {tid : Fin kNumCPUs} (h : i < right n tid) : i < n := by
  rw [UInt64.lt_iff_toNat_lt,right_toNat hn] at h
  exact UInt64.lt_iff_toNat_lt.mpr (by omega)

theorem toNat_next {n : UInt64} (hn : 8*n.toNat ≤ 2^47) (hi : i < n) : (i+1).toNat = i.toNat+1 := by
  have hlt := UInt64.lt_iff_toNat_lt.mp hi
  rw [UInt64.toNat_add]
  change (i.toNat+1)%2^64 = _
  omega

theorem Inv.flushNext (h : Inv s last held) {next : Fin kNumCPUs → UInt64} (hth : s.threads = some next)
    {tid : Fin kNumCPUs} (hlt : next tid < right s.numItems tid) (hs : s.flushItem (next tid) = some s') :
    s'.itemSize = s.itemSize ∧
      ∃ held', Inv {s' with threads := some (update next tid (next tid+1))} last held' := by
  have hi := lt_of_lt_right h.bound hlt
  obtain ⟨held',hinv,hsame,hclean,hkeep⟩ := h.flushItem hi hs
  have hf := h.flushed
  unfold Flushed at hf
  rw [hth] at hf
  refine ⟨hsame.itemSize,held',hinv.bound,hinv.numItems,hinv.itemSize,hinv.holds,hinv.range,hinv.item,
    hsame.dirty.trans hf.1,fun tid' => ?_⟩
  change left s'.numItems tid' ≤ _ ∧ ∀ i, left s'.numItems tid' ≤ i → _
  rw [hsame.numItems]
  obtain ⟨hleft,hbehind⟩ := hf.2 tid'
  rcases eq_or_ne tid' tid with rfl | hne
  · rw [update_self]
    have hnext := toNat_next h.bound hi
    refine ⟨UInt64.le_iff_toNat_le.mpr ?_,fun i hl hlt' => ?_⟩
    · have := UInt64.le_iff_toNat_le.mp hleft
      omega
    · rw [UInt64.lt_iff_toNat_lt,hnext] at hlt'
      rcases Nat.lt_succ_iff_lt_or_eq.mp hlt' with hbefore | hat
      · exact hkeep i (hbehind i hl (UInt64.lt_iff_toNat_lt.mpr hbefore))
      · rw [UInt64.toNat_inj.mp hat]
        exact hclean
  · rw [update_of_ne hne]
    exact ⟨hleft,fun i hl hlt' => hkeep i (hbehind i hl hlt')⟩

theorem Inv.join (h : Inv s last held) {next : Fin kNumCPUs → UInt64} (hth : s.threads = some next)
    (hend : ∀ tid, ¬ next tid < right s.numItems tid) : Inv {s with threads := none} last held := by
  have hf := h.flushed
  unfold Flushed at hf
  rw [hth] at hf
  refine ⟨h.bound,h.numItems,h.itemSize,h.holds,h.range,h.item,fun _ i hi => ?_⟩
  obtain ⟨tid,⟨hl,hr⟩,-⟩ := ranges_cover h.bound (h.range i hi)
  refine (hf.2 tid).2 i hl (UInt64.lt_iff_toNat_lt.mpr ?_)
  have hge := UInt64.le_iff_toNat_le.mp (UInt64.not_lt.mp (hend tid))
  have hlt := UInt64.lt_iff_toNat_lt.mp hr
  omega

/-- An array with anything to flush has items that fit an object. -/
def Sized (s : State) : Prop := s.dirty = true ∨ s.threads.isSome = true → s.itemSize.toNat < 2^16

theorem Sized.same (h : Sized s) (hsame : Same s s') : Sized s' := by
  unfold Sized at *
  rwa [hsame.dirty,hsame.threads,hsame.itemSize]

theorem step_inv {op : Op} {out : Outcome} (h : Inv s last held) (hz : Sized s)
    (hs : step s op = some (out,s')) : (∃ held', Inv s' (follow last (op,out)) held') ∧ Sized s' ∧
      (out = .returned → ∀ i, (last i).isSome → (s'.items i).Clean) := by
  have hf := h.flushed
  unfold Flushed at hf
  cases op with
  | «at» i addr =>
    obtain ⟨hi,hs⟩ := Option.ite_none_right_eq_some.mp hs
    obtain ⟨s₁,hs1,⟨⟩⟩ := Option.map_eq_some_iff.mp hs
    obtain ⟨hinv,hsame⟩ := h.at hi hs1
    exact ⟨⟨held,hinv⟩,hz.same hsame,nofun⟩
  | atMut i addr bytes =>
    obtain ⟨hi,hs⟩ := Option.ite_none_right_eq_some.mp hs
    obtain ⟨s₁,hs1,heq⟩ := Option.bind_eq_some_iff.mp hs
    obtain ⟨hfit,⟨⟩⟩ := Option.ite_none_right_eq_some.mp heq
    obtain ⟨hk,hsame,hinv⟩ := h.atMut hi.1 hi.2.2 hi.2.1 hs1 hfit
    exact ⟨⟨held,hinv⟩,fun _ => by rw [hsame.itemSize]; exact hk,nofun⟩
  | swapIn i addr =>
    obtain ⟨hi,hs⟩ := Option.ite_none_right_eq_some.mp hs
    obtain ⟨s₁,hs1,⟨⟩⟩ := Option.map_eq_some_iff.mp hs
    obtain ⟨hinv,hsame,-⟩ := h.swapIn hi hs1
    exact ⟨⟨held,hinv⟩,hz.same hsame,nofun⟩
  | mark i =>
    obtain ⟨hi,⟨⟩⟩ := Option.ite_none_right_eq_some.mp hs
    obtain ⟨hinv,hsame⟩ := h.setEvacuation hi
    exact ⟨⟨held,hinv⟩,hz.same hsame,nofun⟩
  | swapOut i copy =>
    obtain ⟨hi,hs⟩ := Option.ite_none_right_eq_some.mp hs
    obtain ⟨s₁,hs1,⟨⟩⟩ := Option.map_eq_some_iff.mp hs
    obtain ⟨hinv,hsame⟩ := h.swapOut hi hs1
    exact ⟨hinv,hz.same hsame,nofun⟩
  | flush =>
    obtain ⟨hth,hs⟩ := Option.ite_none_right_eq_some.mp hs
    split at hs
    · rename_i hd
      cases hs
      exact ⟨⟨held,h.startFlush⟩,fun _ => hz (.inl hd),nofun⟩
    · rename_i hd
      cases hs
      rw [hth] at hf
      exact ⟨⟨held,h⟩,hz,fun _ => hf (Bool.eq_false_iff.mpr hd)⟩
  | flushNext tid =>
    simp only [step] at hs
    split at hs
    · cases hs
    · rename_i next hth
      obtain ⟨hlt,hs⟩ := Option.ite_none_right_eq_some.mp hs
      obtain ⟨s₁,hs1,⟨⟩⟩ := Option.map_eq_some_iff.mp hs
      obtain ⟨hk,hinv⟩ := h.flushNext hth hlt hs1
      exact ⟨hinv,fun _ => hk ▸ hz (.inr (by rw [hth]; rfl)),nofun⟩
  | join =>
    simp only [step] at hs
    split at hs
    · cases hs
    · rename_i next hth
      obtain ⟨hend,⟨⟩⟩ := Option.ite_none_right_eq_some.mp hs
      rw [hth] at hf
      have hinv := h.join hth hend
      exact ⟨⟨held,hinv⟩,fun _ => hz (.inr (by rw [hth]; rfl)),fun _ => hinv.flushed hf.1⟩

theorem Inv.onServer (h : Inv s last held) {v : List UInt8} (hv : last i = some v) (hc : (s.items i).Clean) :
    s.server.readObject i = some (v.length,v) := by
  have hi : i < s.numItems := h.range i (by rw [hv]; rfl)
  have hitem := h.item i hi
  have hheld : s.itemSize.toNat < 2^16 ∧ held i = v := by
    by_cases hp : (s.items i).word.isPresent = true
    · obtain ⟨hlen,hlast,hclean⟩ := hitem.present hp
      have hd : (s.items i).word.isDirty = false := Bool.eq_false_iff.mpr fun hd => hc ⟨hp,hd⟩
      have heq := hclean hd
      have hsized := h.holds.sized i
      rw [← heq,hlen,h.itemSize] at hsized
      exact ⟨hsized ▸ Nat.mod_lt _ (by decide),heq.symm.trans (hlast v hv)⟩
    · obtain ⟨-,hk,hlast⟩ := hitem.absent (Bool.eq_false_iff.mpr hp)
      exact ⟨hk,hlast v hv⟩
  obtain ⟨hk,rfl⟩ := hheld
  rw [h.holds.readObject (h.product hk) (by rwa [h.numItems]),h.holds.sized,h.itemSize,
    Nat.mod_eq_of_lt hk]

theorem Inv.flushItem_some (h : Inv s last held) (hi : i < s.numItems) (hk : s.itemSize.toNat < 2^16) :
    ∃ s', s.flushItem i = some s' := by
  unfold State.flushItem
  dsimp only
  split
  · rename_i hpd
    rw [Bool.and_eq_true] at hpd
    obtain ⟨hlen,-,-⟩ := (h.item i hi).present hpd.1
    rw [Nat.mod_eq_of_lt hk] at hlen
    obtain ⟨hpos,hend⟩ := item_bounds (h.product hk) (show i < s.server.numItems by rwa [h.numItems])
    rw [← Nat.mod_eq_of_lt (h.product hk),← h.holds.size] at hend
    rw [State.writeServer,if_pos hlen,ServerArray.writeObject,hpos,if_pos (.inr (by
      rw [hlen,← h.itemSize]
      exact hend))]
    exact ⟨_,rfl⟩
  · exact ⟨s,rfl⟩

end Steps

theorem construct_inv {numItems : UInt64} {itemSize : UInt32} {dsId : UInt8} {addr : UInt64 → ℕ}
    {fresh : UInt64 → ℕ → UInt8} {s : State} (h : construct numItems itemSize dsId addr fresh = some s) :
    s.numItems = numItems ∧ Sized s ∧ Inv s (fun _ => none) fun _ => List.replicate itemSize.toNat 0 := by
  obtain ⟨hb,h⟩ := Option.ite_none_right_eq_some.mp h
  obtain ⟨server,hserver,rfl⟩ := Option.map_eq_some_iff.mp h
  obtain ⟨hn,hk,hholds⟩ := construct_holds hserver
  refine ⟨rfl,?_,hb.1,hn,hk,hholds,?_,?_,?_⟩
  · rintro (hd | hth)
    · cases hd
    · cases hth
  · intro i hi
    cases hi
  · intro i _
    refine itemOk_present (construct_isShared _ _) (construct_isPresent _ _) (load_length _ _ _)
      (by simp) fun hd => ?_
    rw [construct_isDirty] at hd
    cases hd
  · intro _ i hi
    cases hi

/-- In every run of an array of any number of items: each index belongs to the range of exactly one
of the twenty threads; whenever `flush` returns, skipped or not, the server array holds what was
written last to each item ever written, and none of these items is both present and dirty; and a
`flush` that has started its threads can always go on. -/
theorem flush_complete {numItems : UInt64} {itemSize : UInt32} {dsId : UInt8} {addr : UInt64 → ℕ}
    {fresh : UInt64 → ℕ → UInt8} {s₀ s : State} {tr : List (Op × Outcome)}
    (hc : construct numItems itemSize dsId addr fresh = some s₀)
    (ht : Trace step (fun _ _ => True) s₀ tr s) :
    (∀ i < numItems, ∃! tid : Fin kNumCPUs, left numItems tid ≤ i ∧ i < right numItems tid) ∧
    (∀ op s', step s op = some (.returned,s') → ∀ i v, lastWritten tr i = some v →
      s'.server.readObject i = some (v.length,v) ∧
        ¬ ((s'.items i).word.isPresent = true ∧ (s'.items i).word.isDirty = true)) ∧
    (∀ next, s.threads = some next → (∃ s', step s .join = some (.returned,s')) ∨
      ∃ tid s', step s (.flushNext tid) = some (.done,s')) := by
  obtain ⟨rfl,hz₀,h₀⟩ := construct_inv hc
  have hrun : (∃ held, Inv s (lastWritten tr) held) ∧ Sized s := by
    refine ht.simulation (I := fun s last => (∃ held, Inv s last held) ∧ Sized s) ⟨⟨_,h₀⟩,hz₀⟩ ?_
    rintro s last op out s' - ⟨⟨held,h⟩,hz⟩ hs
    obtain ⟨hinv,hz',-⟩ := step_inv h hz hs
    exact ⟨hinv,hz'⟩
  obtain ⟨⟨held,h⟩,hz⟩ := hrun
  refine ⟨fun i hi => ranges_cover h₀.bound hi,?_,?_⟩
  · intro op s' hs i v hv
    obtain ⟨⟨held',h'⟩,-,hclean⟩ := step_inv h hz hs
    have hc' := hclean rfl i (by rw [hv]; rfl)
    have hlast : follow (lastWritten tr) (op,.returned) i = some v := by
      cases op with
      | atMut j addr bytes =>
        obtain ⟨-,hs⟩ := Option.ite_none_right_eq_some.mp hs
        obtain ⟨s₁,-,heq⟩ := Option.bind_eq_some_iff.mp hs
        cases (Option.ite_none_right_eq_some.mp heq).2
      | _ => exact hv
    exact ⟨h'.onServer hlast hc',hc'⟩
  · intro next hth
    by_cases hend : ∀ tid, ¬ next tid < right s.numItems tid
    · refine .inl ⟨{s with threads := none},?_⟩
      simp only [step,hth]
      rw [if_pos hend]
    · rw [not_forall] at hend
      obtain ⟨tid,htid⟩ := hend
      rw [not_not] at htid
      obtain ⟨s',hs'⟩ := h.flushItem_some (lt_of_lt_right h.bound htid) (hz (.inr (by rw [hth]; rfl)))
      refine .inr ⟨tid,{s' with threads := some (update next tid (next tid+1))},?_⟩
      simp only [step,hth]
      rw [if_pos htid,hs']
      rfl

/-- Two items of two bytes: an item is written, flushed by the first thread, evicted, swapped in and
written again; the second flush writes it once more. -/
theorem flush_complete_rewritten : ∃ s₀ s s' tr, construct 2 2 7 (fun i => 4096*(i.toNat+1)) (fun _ _ => 9) = some s₀ ∧
    Trace step (fun _ _ => True) s₀ tr s ∧ step s .join = some (.returned,s') ∧
    lastWritten tr 1 = some [3,4] ∧ s'.server.readObject 1 = some (2,[3,4]) := by
  obtain ⟨s₀,hc⟩ : ∃ s₀, construct 2 2 7 (fun i => 4096*(i.toNat+1)) (fun _ _ => 9) = some s₀ := ⟨_,rfl⟩
  have hrun : (exec step (fun _ _ => True) s₀
      [.atMut 1 0 [1,2],.flush,.flushNext 0,.flushNext 1,.mark 1,.join,.flush,.swapOut 1 none,.swapIn 1 8192,
        .atMut 1 0 [3,4],.flush,.flushNext 1,.flushNext 0]).map
      (fun r => (r.1,(step r.2 .join).map (·.1))) =
      some ([.done,.done,.done,.done,.done,.returned,.returned,.done,.done,.done,.done,.done,.done],
        some .returned) := by
    cases hc
    decide +kernel
  obtain ⟨outs,s,ht,hobs⟩ := exec_observe hrun
  simp only [Prod.mk.injEq] at hobs
  obtain ⟨rfl,hret⟩ := hobs
  obtain ⟨⟨out,s'⟩,hs,rfl⟩ := Option.map_eq_some_iff.mp hret
  exact ⟨s₀,s,s',_,hc,ht,hs,by decide,((flush_complete hc ht).2.1 .join s' hs 1 [3,4] (by decide)).1⟩

end FarMemory.ArrayFlush
