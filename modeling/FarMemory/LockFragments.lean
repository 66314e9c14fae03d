import FarMemory.ObjectBytes

/-!
# The lock of an object

`lock_object` locks at most eight bytes of an object id, as one 64-bit number: the first eight
bytes of a long id, or a short one filled up with zeros. The callers differ in what they pass.
The collector, migration, `_free` and `evacuate` pass the length in the object header; `_flush`
and `move` of a present pointer always pass eight, and so read on behind a short id; `move` of
an absent pointer and `swap_in` pass the id of the metadata word, which has 38 bits.
-/
namespace FarMemory.LockFragments
open ByteStore ObjectBytes PointerMeta FarMemPtrMeta

def value (bytes : List UInt8) : ℕ := Nat.ofDigits 256 (bytes.map UInt8.toNat)

def loadWord (mem : Mem) (p : ℕ) : ℕ := value (load mem p 8)

/-- `get_obj_id_fragment`. -/
def getObjIdFragment (objIdLen : ℕ) (mem : Mem) (objId : ℕ) : ℕ :=
  if 8 ≤ objIdLen then loadWord mem objId
  else value ((List.range objIdLen).foldl (fun fragment i => fragment.set i (mem (objId+i))) (List.replicate 8 0))

/-- What `gc_wb` makes of a pointer to the object at `a`. -/
def writtenBack (m : FarMemPtrMeta) (mem : Mem) (a : ℕ) : FarMemPtrMeta :=
  m.gcWb (getDsId mem a).toNat (size mem a) (loadWord mem (getObjId mem a))

inductive Operation
  | mark
  | writeBack
  | mutatorMigrateObject
  | free
  | evacuate
  | flush
  | movePresent
  | moveAbsent
  | swapIn
  deriving DecidableEq, Repr

/-- The number an operation locks for the object at `a`. The last two find the object written back,
with their own copy of the id on the stack. -/
def lockedFragment (m : FarMemPtrMeta) (mem : Mem) (a : ℕ) : Operation → ℕ
  | .mark | .writeBack | .mutatorMigrateObject | .free | .evacuate =>
    getObjIdFragment (getObjIdLen mem a) mem (getObjId mem a)
  | .flush | .movePresent => getObjIdFragment 8 mem (getObjId mem a)
  | .moveAbsent | .swapIn => (writtenBack m mem a).getObjectId

section Fragments
variable {mem : Mem} {p n : ℕ}

theorem value_inj {l l' : List UInt8} (hlen : l.length = l'.length) : value l = value l' ↔ l = l' := by
  refine ⟨fun h => ?_,fun h => h ▸ rfl⟩
  have hdigits : ∀ k : List UInt8, ∀ d ∈ k.map UInt8.toNat, d < 256 := by
    intro k d hd
    obtain ⟨b,-,rfl⟩ := List.mem_map.mp hd
    exact b.toNat_lt
  have heq := Nat.ofDigits_inj_of_len_eq (by decide) (by simpa using hlen) (hdigits l) (hdigits l') h
  exact List.map_injective_iff.mpr (fun _ _ => UInt8.toNat_inj.mp) heq

theorem foldl_set (mem : Mem) (p : ℕ) : ∀ {n k : ℕ}, n ≤ k →
    (List.range n).foldl (fun fragment i => fragment.set i (mem (p+i))) (List.replicate k 0) =
      load mem p n++List.replicate (k-n) 0 := by
  intro n
  induction n with
  | zero =>
    intro k _
    rfl
  | succ n ih =>
    intro k hk
    have hrest : List.replicate (k-n) (0 : UInt8) = 0::List.replicate (k-(n+1)) 0 := by
      rw [← List.replicate_succ]
      congr 1
      omega
    rw [List.range_succ,List.foldl_append,ih (by omega),List.foldl_cons,List.foldl_nil,
      List.set_append_right _ _ (by simp),load_length,Nat.sub_self,hrest,List.set_cons_zero,
      load,load,List.range_succ,List.map_append,List.append_assoc]
    rfl

theorem load_split (mem : Mem) (p : ℕ) {n k : ℕ} (h : n ≤ k) :
    load mem p k = load mem p n++(List.range (k-n)).map fun i => mem (p+(n+i)) := by
  obtain ⟨d,rfl⟩ := Nat.exists_eq_add_of_le h
  rw [load,List.range_add,List.map_append,List.map_map,Nat.add_sub_cancel_left]
  rfl

/-- A short id gives the same number with its own length and with eight iff zeros follow it. -/
theorem fragment_eq_word_iff :
    getObjIdFragment n mem p = loadWord mem p ↔ 8 ≤ n ∨ ∀ i, n ≤ i → i < 8 → mem (p+i) = 0 := by
  unfold getObjIdFragment
  split
  · rename_i hlong
    exact ⟨fun _ => .inl hlong,fun _ => rfl⟩
  · rename_i hshort
    have hle : n ≤ 8 := by omega
    rw [foldl_set mem p hle,loadWord,load_split mem p hle,value_inj (by simp),List.append_cancel_left_eq,
      or_iff_right hshort]
    constructor
    · intro h i hi hlt
      have hget := congrArg (fun l => l[i-n]?) h
      simp only [List.getElem?_replicate,List.getElem?_map,List.getElem?_range (show i-n < 8-n by omega),
        show i-n < 8-n by omega,if_true,Option.map_some,Option.some.injEq] at hget
      rw [show p+i = p+(n+(i-n)) by omega]
      exact hget.symm
    · intro h
      symm
      rw [List.eq_replicate_iff]
      refine ⟨by simp,fun b hb => ?_⟩
      obtain ⟨i,hi,rfl⟩ := List.mem_map.mp hb
      rw [List.mem_range] at hi
      exact h (n+i) (by omega) (by omega)

end Fragments

theorem gcWb_getObjectId_mod (m : FarMemPtrMeta) {dsId objectSize : ℕ} (hds : dsId < 2^8)
    (hsize : objectSize < 2^16) (id : ℕ) : (m.gcWb dsId objectSize id).getObjectId = id%2^38 := by
  have hshift : BitVec.ofNat 64 id <<< kObjectIDBitPos = BitVec.ofNat 64 (id%2^38) <<< kObjectIDBitPos := by
    apply BitVec.eq_of_toNat_eq
    simp only [BitVec.toNat_shiftLeft,BitVec.toNat_ofNat,kObjectIDBitPos,Nat.shiftLeft_eq]
    omega
  have hword : m.gcWb dsId objectSize id = m.gcWb dsId objectSize (id%2^38) := by
    simp only [gcWb,hshift]
  rw [hword]
  exact gcWb_getObjectId m dsId objectSize _ hds hsize (Nat.mod_lt _ (by decide))

theorem writtenBack_getObjectId (m : FarMemPtrMeta) (mem : Mem) (a : ℕ) :
    (writtenBack m mem a).getObjectId = loadWord mem (getObjId mem a)%2^38 :=
  gcWb_getObjectId_mod m (getDsId mem a).toNat_lt (Nat.mod_lt _ (by decide)) _

/-- All operations lock one number exactly for the objects whose id is not followed by a non-zero
byte within its first eight, and fits the metadata word. -/
theorem one_lock_iff (m : FarMemPtrMeta) (mem : Mem) (a : ℕ) :
    (∀ op op', lockedFragment m mem a op = lockedFragment m mem a op') ↔
      (8 ≤ getObjIdLen mem a ∨ ∀ i, getObjIdLen mem a ≤ i → i < 8 → mem (getObjId mem a+i) = 0) ∧
        loadWord mem (getObjId mem a) < 2^38 := by
  have height : getObjIdFragment 8 mem (getObjId mem a) = loadWord mem (getObjId mem a) := if_pos (le_refl 8)
  have habsent := writtenBack_getObjectId m mem a
  rw [← fragment_eq_word_iff]
  constructor
  · intro h
    have hown := h .mark .movePresent
    have habs := h .swapIn .movePresent
    simp only [lockedFragment,height,habsent] at hown habs
    exact ⟨hown,habs ▸ Nat.mod_lt _ (by decide)⟩
  · rintro ⟨hown,hsmall⟩
    have hall : ∀ op, lockedFragment m mem a op = loadWord mem (getObjId mem a) := by
      intro op
      cases op with
      | mark | writeBack | mutatorMigrateObject | free | evacuate => exact hown
      | flush | movePresent => exact height
      | moveAbsent | swapIn => exact habsent.trans (Nat.mod_eq_of_lt hsmall)
    intro op op'
    rw [hall op,hall op']

/-- An object of the hash table with a key of three bytes: the collector locks the key, and the
displacement of the entry locks it together with five bytes that lie behind it. -/
theorem short_key_two_locks : ∃ (m : FarMemPtrMeta) (mem : Mem), getObjIdLen mem 0 = 3 ∧
    load mem (getObjId mem 0) 3 = [97,98,99] ∧
    lockedFragment m mem 0 .writeBack = 0x636261 ∧ lockedFragment m mem 0 .movePresent = 0x0707070707636261 :=
  ⟨.nullify,init (fun _ => 7) 0 1 16 [97,98,99],by decide,by decide,by decide,by decide⟩

end FarMemory.LockFragments
