import FarMemory.ServerPtr

/-!
# Objects as bytes

The header of an object is six bytes of pointer address, of which the last doubles as
the freed mark, two bytes of data length, and one byte each for the data structure id
and the length of the object id. The data follow, and behind them the object id. An
object is only an address: its fields are whatever the memory holds there now.
-/
namespace FarMemory.ObjectBytes
open ByteStore PointerMeta ServerPtr

abbrev Mem := ℕ → UInt8

def kPtrAddrSize : ℕ := 6
def kDSIDPos : ℕ := 8

def getDataLen (mem : Mem) (a : ℕ) : ℕ := decodeLen mem (a+kDataLenPos)
def getDsId (mem : Mem) (a : ℕ) : UInt8 := mem (a+kDSIDPos)
def getObjIdLen (mem : Mem) (a : ℕ) : ℕ := (mem (a+kIDLenPos)).toNat

def getObjId (mem : Mem) (a : ℕ) : ℕ := a+kHeaderSize+getDataLen mem a

def size (mem : Mem) (a : ℕ) : ℕ := (kHeaderSize+getDataLen mem a+getObjIdLen mem a) % 2^16

def free (mem : Mem) (a : ℕ) : Mem := store mem (a+(kPtrAddrSize-1)) [0xFF]

def setDataLen (mem : Mem) (a dataLen : ℕ) : Mem := store mem (a+kDataLenPos) (encodeLen dataLen)

/-- `Object::init`, which leaves the pointer address and the data as they are. -/
def init (mem : Mem) (a : ℕ) (dsId : UInt8) (dataLen : ℕ) (id : List UInt8) : Mem :=
  let mem₁ := store mem (a+kDSIDPos) [dsId]
  let mem₂ := setDataLen mem₁ a dataLen
  let mem₃ := store mem₂ (a+kIDLenPos) [UInt8.ofNat id.length]
  store mem₃ (getObjId mem₃ a) id

section Frame
variable {mem mem' : Mem} {a : ℕ}

theorem size_congr (h : ∀ x, a+kDataLenPos ≤ x → x ≤ a+kIDLenPos → mem' x = mem x) : size mem' a = size mem a := by
  have hdata : getDataLen mem' a = getDataLen mem a := by
    unfold getDataLen kDataLenPos kIDLenPos at *
    exact decodeLen_congr (h _ (by omega) (by omega)) (h _ (by omega) (by omega))
  have hid : getObjIdLen mem' a = getObjIdLen mem a := by
    unfold getObjIdLen kDataLenPos kIDLenPos at *
    rw [h _ (by omega) (by omega)]
  rw [size,size,hdata,hid]

theorem free_outside {x : ℕ} (h : x ≠ a+5) : free mem a x = mem x := by
  unfold free kPtrAddrSize
  exact store_outside (by simp only [List.length_singleton]; omega)

theorem setDataLen_outside {x n : ℕ} (h : x < a+6 ∨ a+8 ≤ x) : setDataLen mem a n x = mem x := by
  unfold setDataLen kDataLenPos
  exact store_outside (by simp only [encodeLen,List.length_cons,List.length_nil]; omega)

theorem init_below {x dataLen : ℕ} {dsId : UInt8} {id : List UInt8} (h : x < a) : init mem a dsId dataLen id x = mem x := by
  unfold init getObjId kDSIDPos kIDLenPos
  rw [store_outside (.inl (by omega)),store_outside (.inl (by omega)),setDataLen_outside (.inl (by omega)),
    store_outside (.inl (by omega))]

theorem init_idLen {dataLen : ℕ} {dsId : UInt8} {id : List UInt8} (h : id.length ≤ 255) :
    getObjIdLen (init mem a dsId dataLen id) a = id.length := by
  unfold getObjIdLen init getObjId kHeaderSize kIDLenPos
  rw [store_outside (.inl (by omega)),← Nat.add_zero (a+9),store_inside (by simp)]
  simp only [List.getElem_cons_zero,UInt8.toNat_ofNat']
  omega

end Frame

end FarMemory.ObjectBytes
