import Mathlib

/-!
# The 64-bit metadata word of a far-memory pointer

`FarMemPtrMeta` packs two formats into eight bytes. A present pointer keeps the
hot counter in byte 0, the present, shared and dirty bits in byte 1, the
evacuation bit at position 16 and the address of the object data from bit 17 on.
An absent pointer keeps the data structure id in byte 0, the cleared present
bit and the shared bit at positions 8 and 9, sixteen bits of object size from
bit 10 on and the object id from bit 26 on.

The transitions are the literal mask, shift and byte-store expressions of
pointer.cpp and pointer.ipp. Every later module reads the word through the
getters and the lemmas below; no later proof looks at a bit position again.
-/
namespace FarMemory.PointerMeta

def kObjectIDBitPos : ℕ := 26
def kObjectIDBitSize : ℕ := 38
def kDirtyClear : BitVec 64 := 0x400#64
def kPresentClear : BitVec 64 := 0x100#64
def kHotClear : BitVec 64 := 0x80#64
def kEvacuationSet : BitVec 64 := 0x10000#64
def kObjectDataAddrBitPos : ℕ := 17
def kObjectSizeBitPos : ℕ := 10
def kHotPos : ℕ := 0
def kPresentPos : ℕ := 1
def kEvacuationPos : ℕ := 2
def kHotThresh : BitVec 64 := 2#64
def kSharedBitPos : ℕ := 9
def kNull : BitVec 64 := kPresentClear
def kNullMask : BitVec 64 := (~~~0#64) <<< (8*kPresentPos)

/-- `Object::kHeaderSize`: the metadata word holds the address of the data,
which starts this far behind the address of the object. -/
def kHeaderSize : ℕ := 10
def kMaxObjectSize : ℕ := 65535
def kMaxObjectIDSize : ℕ := 255
def kMaxObjectDataSize : ℕ := kMaxObjectSize-kHeaderSize-kMaxObjectIDSize
def kVanillaPtrDSID : ℕ := 0
def kVanillaPtrObjectIDSize : ℕ := 8
def kEvacNotifierMetaSize : ℕ := 7

structure FarMemPtrMeta where
  metadata : BitVec 64
  deriving DecidableEq, Repr

namespace FarMemPtrMeta

/-- A store to `metadata_[pos]`. -/
def setByte (m : FarMemPtrMeta) (pos : ℕ) (b : BitVec 8) : FarMemPtrMeta :=
  ⟨(m.metadata &&& ~~~(0xFF#64 <<< (8*pos))) ||| (b.setWidth 64 <<< (8*pos))⟩

def byte (m : FarMemPtrMeta) (pos : ℕ) : BitVec 8 := (m.metadata >>> (8*pos)).setWidth 8

def isPresent (m : FarMemPtrMeta) : Bool := m.metadata &&& kPresentClear == 0#64
def isNull (m : FarMemPtrMeta) : Bool := m.metadata &&& kNullMask == kNull
def isDirty (m : FarMemPtrMeta) : Bool := m.metadata &&& kDirtyClear == 0#64
def isHot (m : FarMemPtrMeta) : Bool := m.metadata &&& kHotClear == 0#64
def isEvacuation (m : FarMemPtrMeta) : Bool := m.byte kEvacuationPos &&& 1#8 != 0#8
def isShared (m : FarMemPtrMeta) : Bool := m.metadata &&& (1#64 <<< kSharedBitPos) != 0#64

def getObjectDataAddr (m : FarMemPtrMeta) : ℕ := (m.metadata >>> kObjectDataAddrBitPos).toNat
def getObjectAddr (m : FarMemPtrMeta) : ℕ := m.getObjectDataAddr-kHeaderSize
def getObjectSize (m : FarMemPtrMeta) : ℕ := (m.metadata >>> kObjectSizeBitPos).toNat % 2^16
def getObjectId (m : FarMemPtrMeta) : ℕ := (m.metadata >>> kObjectIDBitPos).toNat
def getDsId (m : FarMemPtrMeta) : ℕ := (m.byte 0).toNat

def nullify : FarMemPtrMeta := ⟨kNull⟩

def setShared (m : FarMemPtrMeta) : FarMemPtrMeta := ⟨m.metadata ||| (1#64 <<< kSharedBitPos)⟩
def setDirty (m : FarMemPtrMeta) : FarMemPtrMeta := ⟨m.metadata &&& ~~~kDirtyClear⟩
def clearDirty (m : FarMemPtrMeta) : FarMemPtrMeta := ⟨m.metadata ||| kDirtyClear⟩

def setEvacuation (m : FarMemPtrMeta) : FarMemPtrMeta :=
  m.setByte kEvacuationPos (m.byte kEvacuationPos ||| 1#8)

/-- `static_cast<uint64_t>(is_shared()) << kSharedBitPos`. -/
def sharedBit (m : FarMemPtrMeta) : BitVec 64 :=
  (BitVec.ofBool m.isShared).setWidth 64 <<< kSharedBitPos

/-- The data address of a local object, shifted to its place. -/
def dataAddrBits (objectAddr : ℕ) : BitVec 64 :=
  BitVec.ofNat 64 (objectAddr+kHeaderSize) <<< kObjectDataAddrBitPos

/-- The metadata half of `set_present`; the caller also stores the pointer's
own address in the object header. -/
def setPresent (m : FarMemPtrMeta) (objectAddr : ℕ) : FarMemPtrMeta :=
  ⟨dataAddrBits objectAddr |||
    ((kDirtyClear ||| kHotClear)+((kHotThresh-1#64) <<< (8*kHotPos))) ||| m.sharedBit⟩

def mutatorCopy (m : FarMemPtrMeta) (newLocalObjectAddr : ℕ) : FarMemPtrMeta :=
  let objDataAddrMask : BitVec 64 := (1#64 <<< kObjectDataAddrBitPos)-1#64
  let evacuationMask : BitVec 64 := ~~~(1#64 <<< (8*kEvacuationPos))
  let maskedOldMeta := m.metadata &&& (objDataAddrMask &&& evacuationMask)
  ⟨maskedOldMeta ||| dataAddrBits newLocalObjectAddr ||| m.sharedBit⟩

def gcCopy (m : FarMemPtrMeta) (newLocalObjectAddr : ℕ) : FarMemPtrMeta :=
  ⟨dataAddrBits newLocalObjectAddr ||| (kHotClear+((kHotThresh-1#64) <<< (8*kHotPos))) |||
    (m.metadata &&& (0xFF#64 <<< (8*kPresentPos))) ||| m.sharedBit⟩

def gcWb (m : FarMemPtrMeta) (dsId objectSize objId : ℕ) : FarMemPtrMeta :=
  ⟨(BitVec.ofNat 64 objId <<< kObjectIDBitPos) |||
    ((BitVec.ofNat 16 objectSize).setWidth 64 <<< kObjectSizeBitPos) |||
    kPresentClear ||| (BitVec.ofNat 8 dsId).setWidth 64 ||| m.sharedBit⟩

/-- `FarMemPtrMeta::init`. The constructor runs it on a zeroed word. -/
def init (m : FarMemPtrMeta) (shared : Bool) (objectAddr : ℕ) : FarMemPtrMeta :=
  ((if shared then m.setShared else m).setPresent objectAddr).setDirty

def construct (shared : Bool) (objectAddr : ℕ) : FarMemPtrMeta :=
  init ⟨0#64⟩ shared objectAddr

/-- The bits that send `_deref` to its slow path. -/
def exceptions (isMut : Bool) : BitVec 64 :=
  let e := kHotClear ||| kPresentClear ||| kEvacuationSet
  if isMut then e ||| kDirtyClear else e

/-- The stores at the end of the slow path of `_deref`: the present byte is
overwritten when the access is mutable, and the hot byte is decremented. -/
def touch (m : FarMemPtrMeta) (isMut shared : Bool) : FarMemPtrMeta :=
  let m := if isMut then m.setByte kPresentPos (if shared then 2#8 else 0#8) else m
  m.setByte kHotPos (m.byte kHotPos-1#8)

theorem mask_bit (v : BitVec 64) (i : ℕ) (hi : i < 64) :
    (v &&& (1#64 <<< i) == 0#64) = !v.getLsbD i := by
  rw [← BitVec.twoPow_eq,BitVec.and_twoPow]
  have hne : BitVec.twoPow 64 i ≠ 0#64 := by
    intro h
    have hb := congrArg (fun w => w.getLsbD i) h
    simp [hi] at hb
  cases h : v.getLsbD i <;> simp [hne]

theorem isPresent_bit (m : FarMemPtrMeta) : m.isPresent = !m.metadata.getLsbD 8 :=
  mask_bit m.metadata 8 (by decide)

theorem isDirty_bit (m : FarMemPtrMeta) : m.isDirty = !m.metadata.getLsbD 10 :=
  mask_bit m.metadata 10 (by decide)

theorem isShared_bit (m : FarMemPtrMeta) : m.isShared = m.metadata.getLsbD 9 := by
  have h := mask_bit m.metadata 9 (by decide)
  simp only [isShared,kSharedBitPos,bne,h,Bool.not_not]

theorem isEvacuation_bit (m : FarMemPtrMeta) :
    m.isEvacuation = m.metadata.getLsbD 16 := by
  have h : (m.byte kEvacuationPos &&& 1#8) =
      BitVec.setWidth 8 (BitVec.ofBool (m.metadata.getLsbD 16)) := by
    apply BitVec.eq_of_getLsbD_eq
    intro i hi
    interval_cases i <;> simp [byte,kEvacuationPos]
  simp only [isEvacuation,h]
  cases m.metadata.getLsbD 16 <;> decide

theorem isPresent_of_isNull {m : FarMemPtrMeta} (h : m.isNull = true) : m.isPresent = false := by
  have hb := congrArg (fun w => w.getLsbD 8) (beq_iff_eq.mp h)
  simp only [BitVec.getLsbD_and] at hb
  have hmask : kNullMask.getLsbD 8 = true := by decide
  have hnull : kNull.getLsbD 8 = true := by decide
  rw [hmask,hnull,Bool.and_true] at hb
  rw [isPresent_bit,hb]
  rfl

theorem isNull_of_isPresent {m : FarMemPtrMeta} (h : m.isPresent = true) : m.isNull = false := by
  cases hn : m.isNull with
  | false => rfl
  | true => rw [isPresent_of_isNull hn] at h; cases h

theorem isShared_of_isNull {m : FarMemPtrMeta} (h : m.isNull = true) : m.isShared = false := by
  have hb := congrArg (fun w => w.getLsbD 9) (beq_iff_eq.mp h)
  simp only [BitVec.getLsbD_and] at hb
  have hmask : kNullMask.getLsbD 9 = true := by decide
  have hnull : kNull.getLsbD 9 = false := by decide
  rw [hmask,hnull,Bool.and_true] at hb
  rw [isShared_bit,hb]

/-! ### The tests of `_deref` -/

theorem present_test (m : FarMemPtrMeta) : (m.metadata &&& kPresentClear != 0#64) = !m.isPresent := rfl

theorem evacuation_test (m : FarMemPtrMeta) :
    (m.metadata &&& kEvacuationSet != 0#64) = m.isEvacuation := by
  have h := mask_bit m.metadata 16 (by decide)
  rw [isEvacuation_bit,bne,show kEvacuationSet = 1#64 <<< 16 from by decide,h,Bool.not_not]

theorem or_test (v a b : BitVec 64) :
    (v &&& (a ||| b) != 0#64) = (v &&& a != 0#64 || v &&& b != 0#64) := by
  rw [BitVec.and_or_distrib_left]
  simp only [bne,← Bool.not_and]
  congr 1
  rw [Bool.eq_iff_iff]
  simp only [beq_iff_eq,Bool.and_eq_true]
  constructor
  · intro h
    have hb : ∀ i, (v &&& a).getLsbD i = false ∧ (v &&& b).getLsbD i = false := by
      intro i
      have := congrArg (fun w => w.getLsbD i) h
      simpa [BitVec.getLsbD_or,Bool.or_eq_false_iff] using this
    exact ⟨BitVec.eq_of_getLsbD_eq fun i _ => by simpa using (hb i).1,
      BitVec.eq_of_getLsbD_eq fun i _ => by simpa using (hb i).2⟩
  · rintro ⟨h,h'⟩
    rw [h,h']
    rfl

theorem slow_test (m : FarMemPtrMeta) :
    (m.metadata &&& (kPresentClear ||| kEvacuationSet) != 0#64) = (!m.isPresent || m.isEvacuation) := by
  rw [or_test,present_test,evacuation_test]

theorem exceptions_test (m : FarMemPtrMeta) (isMut : Bool) :
    (m.metadata &&& exceptions isMut != 0#64) =
      (!m.isHot || !m.isPresent || m.isEvacuation || isMut && !m.isDirty) := by
  cases isMut with
  | false =>
    rw [show exceptions false = kHotClear ||| kPresentClear ||| kEvacuationSet from rfl,or_test,
      or_test,present_test,evacuation_test]
    simp [isHot,bne]
  | true =>
    rw [show exceptions true = kHotClear ||| kPresentClear ||| kEvacuationSet ||| kDirtyClear from rfl,
      or_test,or_test,or_test,present_test,evacuation_test]
    simp [isHot,isDirty,bne]

@[simp] theorem nullify_isNull : nullify.isNull = true := by decide
@[simp] theorem nullify_isPresent : nullify.isPresent = false := by decide

theorem getLsbD_setByte (m : FarMemPtrMeta) (pos : ℕ) (b : BitVec 8) (i : ℕ) (hi : i < 64) :
    (m.setByte pos b).metadata.getLsbD i =
      if 8*pos ≤ i ∧ i < 8*pos+8 then b.getLsbD (i-8*pos) else m.metadata.getLsbD i := by
  have h255 : ∀ j, (0xFF#64).getLsbD j = decide (j < 8) := by
    intro j
    by_cases hj : j < 64
    · interval_cases j <;> decide
    · rw [BitVec.getLsbD_of_ge _ _ (by omega)]
      simp only [Bool.false_eq,decide_eq_false_iff_not]
      omega
  simp only [setByte,BitVec.getLsbD_or,BitVec.getLsbD_and,BitVec.getLsbD_not,
    BitVec.getLsbD_shiftLeft,BitVec.getLsbD_setWidth,h255]
  by_cases h : 8*pos ≤ i ∧ i < 8*pos+8
  · have h₁ : ¬ i < 8*pos := by omega
    have h2 : i-8*pos < 8 := by omega
    have h3 : i-8*pos < 64 := by omega
    simp [h,hi,h₁,h2,h3]
  · by_cases h₁ : i < 8*pos
    · simp [h,hi,h₁]
    · have h2 : ¬ i-8*pos < 8 := by omega
      have h3 : b.getLsbD (i-8*pos) = false := BitVec.getLsbD_of_ge _ _ (by omega)
      simp [h,hi,h₁,h2,h3]

theorem getLsbD_sharedBit (m : FarMemPtrMeta) (i : ℕ) :
    m.sharedBit.getLsbD i = (decide (i = 9) && m.isShared) := by
  by_cases h : i = 9
  · subst h
    simp [sharedBit,kSharedBitPos]
  · by_cases h9 : i < 9
    · simp [sharedBit,kSharedBitPos,h9,h]
    · have hb : (BitVec.ofBool m.isShared).getLsbD (i-9) = false :=
        BitVec.getLsbD_of_ge _ _ (by omega)
      simp [sharedBit,kSharedBitPos,h,hb]

theorem getLsbD_dataAddrBits (a i : ℕ) (hi : i < 17) : (dataAddrBits a).getLsbD i = false := by
  simp [dataAddrBits,kObjectDataAddrBitPos,hi]

theorem getObjectDataAddr_congr {m n : FarMemPtrMeta}
    (h : ∀ i, 17 ≤ i → i < 64 → m.metadata.getLsbD i = n.metadata.getLsbD i) :
    m.getObjectDataAddr = n.getObjectDataAddr := by
  unfold getObjectDataAddr kObjectDataAddrBitPos
  congr 1
  apply BitVec.eq_of_getLsbD_eq
  intro i hi
  simp only [BitVec.getLsbD_ushiftRight]
  by_cases h64 : 17+i < 64
  · exact h _ (by omega) h64
  · rw [BitVec.getLsbD_of_ge _ _ (by omega),BitVec.getLsbD_of_ge _ _ (by omega)]

theorem getObjectAddr_of_data {m n : FarMemPtrMeta} (h : m.getObjectDataAddr = n.getObjectDataAddr) :
    m.getObjectAddr = n.getObjectAddr := by
  rw [getObjectAddr,h,getObjectAddr]

/-- A data address of 47 bits is read back as it was shifted in. -/
theorem getObjectDataAddr_of_shifted {m : FarMemPtrMeta} {d : ℕ} (hd : d < 2^47)
    (h : ∀ i, 17 ≤ i → i < 64 → m.metadata.getLsbD i = (BitVec.ofNat 64 d <<< 17).getLsbD i) :
    m.getObjectDataAddr = d := by
  have hm : m.getObjectDataAddr = getObjectDataAddr ⟨BitVec.ofNat 64 d <<< 17⟩ :=
    getObjectDataAddr_congr h
  rw [hm]
  simp only [getObjectDataAddr,kObjectDataAddrBitPos,BitVec.toNat_ushiftRight,
    BitVec.toNat_shiftLeft,BitVec.toNat_ofNat]
  rw [Nat.shiftLeft_eq,Nat.shiftRight_eq_div_pow]
  omega

theorem getObjectAddr_of_dataAddrBits {m : FarMemPtrMeta} {a : ℕ} (ha : a+kHeaderSize < 2^47)
    (h : ∀ i, 17 ≤ i → i < 64 → m.metadata.getLsbD i = (dataAddrBits a).getLsbD i) :
    m.getObjectAddr = a := by
  rw [getObjectAddr,getObjectDataAddr_of_shifted ha h]
  omega

/-! ### Installing a local object -/

/-- The constant low bits of a freshly present word. -/
def presentBits : BitVec 64 :=
  (kDirtyClear ||| kHotClear)+((kHotThresh-1#64) <<< (8*kHotPos))

/-- The constant low bits of a word after a collector copy. -/
def copiedBits : BitVec 64 := kHotClear+((kHotThresh-1#64) <<< (8*kHotPos))

section Install
variable (m : FarMemPtrMeta) (a i : ℕ)

theorem getLsbD_setPresent : (m.setPresent a).metadata.getLsbD i =
    ((dataAddrBits a).getLsbD i || presentBits.getLsbD i || (decide (i = 9) && m.isShared)) := by
  simp only [setPresent,presentBits,BitVec.getLsbD_or,getLsbD_sharedBit]

theorem getLsbD_mutatorCopy (hi : i < 64) : (m.mutatorCopy a).metadata.getLsbD i =
    ((m.metadata.getLsbD i && decide (i < 16)) || (dataAddrBits a).getLsbD i ||
      (decide (i = 9) && m.isShared)) := by
  have hmask : ((((1#64 <<< kObjectDataAddrBitPos)-1#64) &&&
      ~~~(1#64 <<< (8*kEvacuationPos))) : BitVec 64).getLsbD i = decide (i < 16) := by
    interval_cases i <;> decide
  simp only [mutatorCopy,BitVec.getLsbD_or,getLsbD_sharedBit]
  rw [BitVec.getLsbD_and,hmask]

theorem getLsbD_gcCopy (hi : i < 64) : (m.gcCopy a).metadata.getLsbD i =
    ((dataAddrBits a).getLsbD i || copiedBits.getLsbD i ||
      (m.metadata.getLsbD i && decide (8 ≤ i ∧ i < 16)) || (decide (i = 9) && m.isShared)) := by
  have hmask : (0xFF#64 <<< (8*kPresentPos)).getLsbD i = decide (8 ≤ i ∧ i < 16) := by
    interval_cases i <;> decide
  simp only [gcCopy,copiedBits,BitVec.getLsbD_or,getLsbD_sharedBit]
  rw [BitVec.getLsbD_and,hmask]

@[simp] theorem setPresent_isPresent : (m.setPresent a).isPresent = true := by
  rw [isPresent_bit,getLsbD_setPresent,getLsbD_dataAddrBits _ _ (by decide)]
  cases m.isShared <;> decide

@[simp] theorem setPresent_isDirty : (m.setPresent a).isDirty = false := by
  rw [isDirty_bit,getLsbD_setPresent,getLsbD_dataAddrBits _ _ (by decide)]
  cases m.isShared <;> decide

@[simp] theorem setPresent_isEvacuation : (m.setPresent a).isEvacuation = false := by
  rw [isEvacuation_bit,getLsbD_setPresent,getLsbD_dataAddrBits _ _ (by decide)]
  cases m.isShared <;> decide

@[simp] theorem setPresent_isShared : (m.setPresent a).isShared = m.isShared := by
  rw [isShared_bit,getLsbD_setPresent,getLsbD_dataAddrBits _ _ (by decide)]
  cases m.isShared <;> decide

theorem setPresent_high (h17 : 17 ≤ i) (h64 : i < 64) :
    (m.setPresent a).metadata.getLsbD i = (dataAddrBits a).getLsbD i := by
  have hc : presentBits.getLsbD i = false := by interval_cases i <;> decide
  have h9 : i ≠ 9 := by omega
  simp only [getLsbD_setPresent,hc,h9,decide_false,Bool.false_and,Bool.or_false]

theorem setPresent_getObjectAddr (ha : a+kHeaderSize < 2^47) :
    (m.setPresent a).getObjectAddr = a :=
  getObjectAddr_of_dataAddrBits ha (setPresent_high m a)

theorem mutatorCopy_isPresent : (m.mutatorCopy a).isPresent = m.isPresent := by
  rw [isPresent_bit,isPresent_bit,getLsbD_mutatorCopy _ _ _ (by decide),
    getLsbD_dataAddrBits _ _ (by decide)]
  cases m.metadata.getLsbD 8 <;> cases m.isShared <;> decide

@[simp] theorem mutatorCopy_isDirty : (m.mutatorCopy a).isDirty = m.isDirty := by
  rw [isDirty_bit,isDirty_bit,getLsbD_mutatorCopy _ _ _ (by decide),
    getLsbD_dataAddrBits _ _ (by decide)]
  cases m.metadata.getLsbD 10 <;> cases m.isShared <;> decide

@[simp] theorem mutatorCopy_isEvacuation : (m.mutatorCopy a).isEvacuation = false := by
  rw [isEvacuation_bit,getLsbD_mutatorCopy _ _ _ (by decide),getLsbD_dataAddrBits _ _ (by decide)]
  cases m.metadata.getLsbD 16 <;> cases m.isShared <;> decide

@[simp] theorem mutatorCopy_isShared : (m.mutatorCopy a).isShared = m.isShared := by
  rw [isShared_bit,getLsbD_mutatorCopy _ _ _ (by decide),getLsbD_dataAddrBits _ _ (by decide),
    ← isShared_bit]
  cases m.isShared <;> decide

theorem mutatorCopy_high (h17 : 17 ≤ i) (h64 : i < 64) :
    (m.mutatorCopy a).metadata.getLsbD i = (dataAddrBits a).getLsbD i := by
  have h9 : i ≠ 9 := by omega
  have h16 : ¬ i < 16 := by omega
  simp only [getLsbD_mutatorCopy _ _ _ h64,h9,h16,decide_false,Bool.false_and,Bool.and_false,
    Bool.or_false,Bool.false_or]

theorem mutatorCopy_getObjectAddr (ha : a+kHeaderSize < 2^47) :
    (m.mutatorCopy a).getObjectAddr = a :=
  getObjectAddr_of_dataAddrBits ha (mutatorCopy_high m a)

theorem gcCopy_isPresent : (m.gcCopy a).isPresent = m.isPresent := by
  rw [isPresent_bit,isPresent_bit,getLsbD_gcCopy _ _ _ (by decide),
    getLsbD_dataAddrBits _ _ (by decide)]
  cases m.metadata.getLsbD 8 <;> cases m.isShared <;> decide

@[simp] theorem gcCopy_isDirty : (m.gcCopy a).isDirty = m.isDirty := by
  rw [isDirty_bit,isDirty_bit,getLsbD_gcCopy _ _ _ (by decide),
    getLsbD_dataAddrBits _ _ (by decide)]
  cases m.metadata.getLsbD 10 <;> cases m.isShared <;> decide

@[simp] theorem gcCopy_isEvacuation : (m.gcCopy a).isEvacuation = false := by
  rw [isEvacuation_bit,getLsbD_gcCopy _ _ _ (by decide),getLsbD_dataAddrBits _ _ (by decide)]
  cases m.metadata.getLsbD 16 <;> cases m.isShared <;> decide

@[simp] theorem gcCopy_isShared : (m.gcCopy a).isShared = m.isShared := by
  rw [isShared_bit,getLsbD_gcCopy _ _ _ (by decide),getLsbD_dataAddrBits _ _ (by decide),
    ← isShared_bit m]
  cases m.isShared <;> decide

theorem gcCopy_high (h17 : 17 ≤ i) (h64 : i < 64) :
    (m.gcCopy a).metadata.getLsbD i = (dataAddrBits a).getLsbD i := by
  have hc : copiedBits.getLsbD i = false := by interval_cases i <;> decide
  have h9 : i ≠ 9 := by omega
  have h16 : ¬ (8 ≤ i ∧ i < 16) := by omega
  simp only [getLsbD_gcCopy _ _ _ h64,hc,h9,h16,decide_false,Bool.false_and,Bool.and_false,
    Bool.or_false]

theorem gcCopy_getObjectAddr (ha : a+kHeaderSize < 2^47) : (m.gcCopy a).getObjectAddr = a :=
  getObjectAddr_of_dataAddrBits ha (gcCopy_high m a)

end Install

/-! ### Writing back to the absent format -/

section WriteBack
variable (m : FarMemPtrMeta) (dsId objectSize objId : ℕ)

/-- The fields of the absent format do not overlap: the word is their sum. -/
theorem gcWb_toNat (hds : dsId < 2^8) (hsize : objectSize < 2^16) (hid : objId < 2^38) :
    (m.gcWb dsId objectSize objId).metadata.toNat =
      objId*2^26+(objectSize*2^10+((if m.isShared then 2^9 else 0)+(2^8+dsId))) := by
  have hlow : kPresentClear.toNat ||| dsId = 2^8+dsId := by
    have h := Nat.two_pow_add_eq_or_of_lt hds 1
    simpa [kPresentClear] using h.symm
  have hshared : m.sharedBit.toNat = if m.isShared then 2^9 else 0 := by
    cases h : m.isShared <;> simp [sharedBit,h,kSharedBitPos]
  have hmid : (2^8+dsId) ||| m.sharedBit.toNat =
      (if m.isShared then 2^9 else 0)+(2^8+dsId) := by
    rw [hshared,Nat.or_comm]
    split_ifs
    · have h := Nat.two_pow_add_eq_or_of_lt (i := 9) (b := 2^8+dsId) (by omega) 1
      simpa using h.symm
    · simp
  have hb : (if m.isShared then 2^9 else 0)+(2^8+dsId) < 2^10 := by split_ifs <;> omega
  have hs := Nat.two_pow_add_eq_or_of_lt hb objectSize
  have hb2 : 2^10*objectSize+((if m.isShared then 2^9 else 0)+(2^8+dsId)) < 2^26 := by omega
  have ho := Nat.two_pow_add_eq_or_of_lt hb2 objId
  simp only [gcWb,BitVec.toNat_or,BitVec.toNat_shiftLeft,BitVec.toNat_ofNat,BitVec.toNat_setWidth,
    kObjectIDBitPos,kObjectSizeBitPos,Nat.shiftLeft_eq]
  rw [Nat.mod_eq_of_lt (show objId < 2^64 by omega),
    Nat.mod_eq_of_lt (show objId*2^26 < 2^64 by omega),
    Nat.mod_eq_of_lt hsize,Nat.mod_eq_of_lt (show objectSize < 2^64 by omega),
    Nat.mod_eq_of_lt (show objectSize*2^10 < 2^64 by omega),
    Nat.mod_eq_of_lt hds,Nat.mod_eq_of_lt (show dsId < 2^64 by omega)]
  rw [Nat.or_assoc,Nat.or_assoc,Nat.or_assoc,← Nat.or_assoc kPresentClear.toNat,hlow,hmid,
    Nat.mul_comm objectSize,← hs,Nat.mul_comm objId,← ho]

theorem getLsbD_eq_div (v : BitVec 64) (i : ℕ) : v.getLsbD i = decide (v.toNat/2^i % 2 = 1) := by
  rw [BitVec.getLsbD,Nat.testBit_eq_decide_div_mod_eq]

variable (hds : dsId < 2^8) (hsize : objectSize < 2^16) (hid : objId < 2^38)
include hds hsize hid

theorem gcWb_isPresent : (m.gcWb dsId objectSize objId).isPresent = false := by
  rw [isPresent_bit,getLsbD_eq_div,gcWb_toNat m _ _ _ hds hsize hid]
  split_ifs <;> simp only [Bool.not_eq_false',decide_eq_true_eq] <;> omega

theorem gcWb_isShared : (m.gcWb dsId objectSize objId).isShared = m.isShared := by
  rw [isShared_bit,getLsbD_eq_div,gcWb_toNat m _ _ _ hds hsize hid]
  cases m.isShared
  · simp only [Bool.false_eq_true,if_false,decide_eq_false_iff_not]
    omega
  · simp only [if_true,decide_eq_true_eq]
    omega

theorem gcWb_getObjectId : (m.gcWb dsId objectSize objId).getObjectId = objId := by
  rw [getObjectId,BitVec.toNat_ushiftRight,gcWb_toNat m _ _ _ hds hsize hid,kObjectIDBitPos,
    Nat.shiftRight_eq_div_pow]
  split_ifs <;> omega

theorem gcWb_getObjectSize : (m.gcWb dsId objectSize objId).getObjectSize = objectSize := by
  rw [getObjectSize,BitVec.toNat_ushiftRight,gcWb_toNat m _ _ _ hds hsize hid,kObjectSizeBitPos,
    Nat.shiftRight_eq_div_pow]
  split_ifs <;> omega

theorem gcWb_getDsId : (m.gcWb dsId objectSize objId).getDsId = dsId := by
  rw [getDsId,byte,BitVec.toNat_setWidth,BitVec.toNat_ushiftRight,
    gcWb_toNat m _ _ _ hds hsize hid,Nat.shiftRight_eq_div_pow]
  split_ifs <;> omega

/-- A written-back word keeps its object id, so it is not the null word when the id is not zero. -/
theorem gcWb_isNull (hpos : 0 < objId) : (m.gcWb dsId objectSize objId).isNull = false := by
  rw [isNull,beq_eq_false_iff_ne]
  intro h
  have hshift := congrArg (fun w : BitVec 64 => (w >>> 26).toNat) h
  have hmask : (kNullMask >>> 26) = 0x3FFFFFFFFF#64 := by decide
  have hnull : (kNull >>> 26).toNat = 0 := by decide
  have hget := gcWb_getObjectId m dsId objectSize objId hds hsize hid
  simp only [BitVec.ushiftRight_and_distrib,hmask,hnull,BitVec.toNat_and] at hshift
  rw [getObjectId,kObjectIDBitPos] at hget
  rw [hget] at hshift
  have hand : objId &&& (0x3FFFFFFFFF#64).toNat = objId := by
    have hm : (0x3FFFFFFFFF#64).toNat = 2^38-1 := by decide
    rw [hm,Nat.and_two_pow_sub_one_eq_mod,Nat.mod_eq_of_lt hid]
  omega

end WriteBack

/-! ### Flag stores on a present word -/

section Flags
variable (m : FarMemPtrMeta)

theorem getLsbD_clearDirty (i : ℕ) (hi : i < 64) : m.clearDirty.metadata.getLsbD i =
    (m.metadata.getLsbD i || decide (i = 10)) := by
  have hc : kDirtyClear.getLsbD i = decide (i = 10) := by interval_cases i <;> decide
  rw [clearDirty,BitVec.getLsbD_or,hc]

theorem getLsbD_setDirty (i : ℕ) (hi : i < 64) : m.setDirty.metadata.getLsbD i =
    (m.metadata.getLsbD i && decide (i ≠ 10)) := by
  have hc : (~~~kDirtyClear).getLsbD i = decide (i ≠ 10) := by interval_cases i <;> decide
  rw [setDirty,BitVec.getLsbD_and,hc]

theorem getLsbD_setEvacuation (i : ℕ) (hi : i < 64) : m.setEvacuation.metadata.getLsbD i =
    (m.metadata.getLsbD i || decide (i = 16)) := by
  rw [setEvacuation,getLsbD_setByte _ _ _ _ hi,kEvacuationPos]
  split_ifs with h
  · have hb : (m.byte 2).getLsbD (i-8*2) = m.metadata.getLsbD i := by
      simp only [byte,BitVec.getLsbD_setWidth,BitVec.getLsbD_ushiftRight]
      have h₁ : i-8*2 < 8 := by omega
      have h2 : 8*2+(i-8*2) = i := by omega
      simp only [h₁,h2,decide_true,Bool.true_and]
    have ho : (1#8).getLsbD (i-8*2) = decide (i = 16) := by
      obtain ⟨h₁,h2⟩ := h
      interval_cases i <;> decide
    rw [BitVec.getLsbD_or,hb,ho]
  · have h16 : i ≠ 16 := by omega
    simp only [h16,decide_false,Bool.or_false]

theorem getLsbD_touch (isMut shared : Bool) (i : ℕ) (h8 : 8 ≤ i) (hi : i < 64) :
    (m.touch isMut shared).metadata.getLsbD i =
      if isMut && decide (i < 16) then (if shared then 2#8 else 0#8).getLsbD (i-8)
      else m.metadata.getLsbD i := by
  have h0 : ¬ (8*kHotPos ≤ i ∧ i < 8*kHotPos+8) := by simp only [kHotPos]; omega
  cases isMut with
  | false => simp only [touch,getLsbD_setByte _ _ _ _ hi,h0,if_false,Bool.false_and,Bool.false_eq_true]
  | true =>
    simp only [touch,getLsbD_setByte _ _ _ _ hi,h0,if_false,if_true,Bool.true_and,decide_eq_true_eq]
    have h1 : (8*kPresentPos ≤ i ∧ i < 8*kPresentPos+8) ↔ i < 16 := by
      simp only [kPresentPos]; omega
    simp only [h1]
    simp only [kPresentPos,Nat.mul_one]

@[simp] theorem clearDirty_isPresent : m.clearDirty.isPresent = m.isPresent := by
  rw [isPresent_bit,isPresent_bit,getLsbD_clearDirty _ _ (by decide)]
  simp

@[simp] theorem clearDirty_isDirty : m.clearDirty.isDirty = false := by
  rw [isDirty_bit,getLsbD_clearDirty _ _ (by decide)]
  simp

@[simp] theorem clearDirty_isEvacuation : m.clearDirty.isEvacuation = m.isEvacuation := by
  rw [isEvacuation_bit,isEvacuation_bit,getLsbD_clearDirty _ _ (by decide)]
  simp

@[simp] theorem clearDirty_isShared : m.clearDirty.isShared = m.isShared := by
  rw [isShared_bit,isShared_bit,getLsbD_clearDirty _ _ (by decide)]
  simp

@[simp] theorem clearDirty_getObjectDataAddr :
    m.clearDirty.getObjectDataAddr = m.getObjectDataAddr := by
  apply getObjectDataAddr_congr
  intro i h17 h64
  have h : i ≠ 10 := by omega
  simp only [getLsbD_clearDirty _ _ h64,h,decide_false,Bool.or_false]

@[simp] theorem clearDirty_getObjectAddr : m.clearDirty.getObjectAddr = m.getObjectAddr :=
  getObjectAddr_of_data (clearDirty_getObjectDataAddr m)

@[simp] theorem setDirty_isPresent : m.setDirty.isPresent = m.isPresent := by
  rw [isPresent_bit,isPresent_bit,getLsbD_setDirty _ _ (by decide)]
  simp

@[simp] theorem setDirty_isDirty : m.setDirty.isDirty = true := by
  rw [isDirty_bit,getLsbD_setDirty _ _ (by decide)]
  simp

@[simp] theorem setDirty_isEvacuation : m.setDirty.isEvacuation = m.isEvacuation := by
  rw [isEvacuation_bit,isEvacuation_bit,getLsbD_setDirty _ _ (by decide)]
  simp

@[simp] theorem setDirty_isShared : m.setDirty.isShared = m.isShared := by
  rw [isShared_bit,isShared_bit,getLsbD_setDirty _ _ (by decide)]
  simp

@[simp] theorem setDirty_getObjectDataAddr :
    m.setDirty.getObjectDataAddr = m.getObjectDataAddr := by
  apply getObjectDataAddr_congr
  intro i h17 h64
  have h : i ≠ 10 := by omega
  simp only [getLsbD_setDirty _ _ h64,ne_eq,h,not_false_eq_true,decide_true,Bool.and_true]

@[simp] theorem setDirty_getObjectAddr : m.setDirty.getObjectAddr = m.getObjectAddr :=
  getObjectAddr_of_data (setDirty_getObjectDataAddr m)

@[simp] theorem setEvacuation_isPresent : m.setEvacuation.isPresent = m.isPresent := by
  rw [isPresent_bit,isPresent_bit,getLsbD_setEvacuation _ _ (by decide)]
  simp

@[simp] theorem setEvacuation_isDirty : m.setEvacuation.isDirty = m.isDirty := by
  rw [isDirty_bit,isDirty_bit,getLsbD_setEvacuation _ _ (by decide)]
  simp

@[simp] theorem setEvacuation_isEvacuation : m.setEvacuation.isEvacuation = true := by
  rw [isEvacuation_bit,getLsbD_setEvacuation _ _ (by decide)]
  simp

@[simp] theorem setEvacuation_isShared : m.setEvacuation.isShared = m.isShared := by
  rw [isShared_bit,isShared_bit,getLsbD_setEvacuation _ _ (by decide)]
  simp

@[simp] theorem setEvacuation_getObjectDataAddr :
    m.setEvacuation.getObjectDataAddr = m.getObjectDataAddr := by
  apply getObjectDataAddr_congr
  intro i h17 h64
  have h : i ≠ 16 := by omega
  simp only [getLsbD_setEvacuation _ _ h64,h,decide_false,Bool.or_false]

@[simp] theorem setEvacuation_getObjectAddr : m.setEvacuation.getObjectAddr = m.getObjectAddr :=
  getObjectAddr_of_data (setEvacuation_getObjectDataAddr m)

theorem touch_isPresent (isMut : Bool) (h : m.isPresent = true) :
    (m.touch isMut m.isShared).isPresent = true := by
  rw [isPresent_bit,getLsbD_touch _ _ _ _ (by decide) (by decide)]
  rw [isPresent_bit] at h
  cases isMut with
  | false => simpa using h
  | true => cases m.isShared <;> rfl

theorem touch_isDirty (isMut : Bool) :
    (m.touch isMut m.isShared).isDirty = (isMut || m.isDirty) := by
  rw [isDirty_bit,isDirty_bit,getLsbD_touch _ _ _ _ (by decide) (by decide)]
  cases isMut with
  | false => simp
  | true => cases m.isShared <;> rfl

theorem touch_isEvacuation (isMut shared : Bool) :
    (m.touch isMut shared).isEvacuation = m.isEvacuation := by
  rw [isEvacuation_bit,isEvacuation_bit,getLsbD_touch _ _ _ _ (by decide) (by decide)]
  simp

theorem touch_isShared (isMut : Bool) : (m.touch isMut m.isShared).isShared = m.isShared := by
  rw [isShared_bit (m.touch isMut m.isShared),getLsbD_touch _ _ _ _ (by decide) (by decide),
    ← isShared_bit]
  cases isMut with
  | false => simp
  | true => cases m.isShared <;> rfl

theorem touch_getObjectDataAddr (isMut shared : Bool) :
    (m.touch isMut shared).getObjectDataAddr = m.getObjectDataAddr := by
  apply getObjectDataAddr_congr
  intro i h17 h64
  have h : ¬ i < 16 := by omega
  simp only [getLsbD_touch _ _ _ _ (show 8 ≤ i by omega) h64,h,decide_false,Bool.and_false,
    Bool.false_eq_true,if_false]

theorem touch_getObjectAddr (isMut shared : Bool) :
    (m.touch isMut shared).getObjectAddr = m.getObjectAddr :=
  getObjectAddr_of_data (touch_getObjectDataAddr m isMut shared)

end Flags

/-! ### Construction -/

theorem init_eq_construct {m : FarMemPtrMeta} (h : m.isShared = false) (a : ℕ) :
    m.init false a = construct false a := by
  have hz : (⟨0#64⟩ : FarMemPtrMeta).isShared = false := by decide
  simp only [init,construct,Bool.false_eq_true,if_false,setPresent,sharedBit,h,hz]

theorem construct_isPresent (shared : Bool) (a : ℕ) : (construct shared a).isPresent = true := by
  simp [construct,init]

theorem construct_isDirty (shared : Bool) (a : ℕ) : (construct shared a).isDirty = true := by
  simp [construct,init]

theorem construct_isEvacuation (shared : Bool) (a : ℕ) :
    (construct shared a).isEvacuation = false := by
  simp [construct,init]

theorem construct_isShared (shared : Bool) (a : ℕ) : (construct shared a).isShared = shared := by
  cases shared <;> simp [construct,init] <;> decide

theorem construct_getObjectAddr (shared : Bool) {a : ℕ} (ha : a+kHeaderSize < 2^47) :
    (construct shared a).getObjectAddr = a := by
  simp [construct,init,setPresent_getObjectAddr _ _ ha]

end FarMemPtrMeta
end FarMemory.PointerMeta
