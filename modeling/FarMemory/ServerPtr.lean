import FarMemory.ByteStore
import FarMemory.PointerMeta

/-!
# The server-side object array

The server keeps the vanilla objects in one buffer, at the offset that is their
object id. A remote object has the header layout of a local one, of which the
server uses the length of the data and the length of the id. Writing an object
and reading it back gives the data, and objects whose reserved bytes are disjoint
do not disturb each other.
-/
namespace FarMemory.ServerPtr
open ByteStore PointerMeta

def kDataLenPos : ℕ := 6
def kIDLenPos : ℕ := 9

def readObject (buf : ℕ → UInt8) (id : ℕ) : List UInt8 :=
  load buf (id+kHeaderSize) (decodeLen buf (id+kDataLenPos))

def writeObject (buf : ℕ → UInt8) (id idLen : ℕ) (data : List UInt8) : ℕ → UInt8 :=
  let buf₁ := store buf (id+kHeaderSize) data
  let buf₂ := store buf₁ (id+kDataLenPos) (encodeLen data.length)
  store buf₂ (id+kIDLenPos) [UInt8.ofNat idLen]

variable {buf : ℕ → UInt8} {id idLen : ℕ} {data : List UInt8}

theorem writeObject_outside {x : ℕ} (h : x < id ∨ id+kHeaderSize+data.length ≤ x) : writeObject buf id idLen data x = buf x := by
  unfold writeObject kHeaderSize kDataLenPos kIDLenPos at *
  rw [store_outside (by simp only [List.length_singleton]; omega),
    store_outside (by simp only [encodeLen,List.length_cons,List.length_nil]; omega),
    store_outside (by omega)]

theorem readObject_writeObject_self (h : data.length < 2^16) :
    readObject (writeObject buf id idLen data) id = data := by
  unfold readObject
  have hlen : decodeLen (writeObject buf id idLen data) (id+kDataLenPos) = data.length := by
    unfold writeObject kHeaderSize kDataLenPos kIDLenPos
    rw [decodeLen_congr (store_outside (by omega)) (store_outside (by omega)),decodeLen_store h]
  rw [hlen]
  unfold writeObject kHeaderSize kDataLenPos kIDLenPos
  rw [load_store_outside (by simp only [List.length_singleton]; omega),
    load_store_outside (by simp only [encodeLen,List.length_cons,List.length_nil]; omega),load_store]

theorem readObject_writeObject_other {id' n n' : ℕ}
    (hdisj : id+n ≤ id' ∨ id'+n' ≤ id) (hn : kHeaderSize+(readObject buf id).length ≤ n)
    (hn' : kHeaderSize+data.length ≤ n') :
    readObject (writeObject buf id' idLen data) id = readObject buf id := by
  have hsame : ∀ x, id ≤ x → x < id+n → writeObject buf id' idLen data x = buf x := by
    intro x hx hx'
    exact writeObject_outside (by omega)
  unfold readObject at *
  rw [load_length] at hn
  have hlen : decodeLen (writeObject buf id' idLen data) (id+kDataLenPos) =
      decodeLen buf (id+kDataLenPos) := by
    refine decodeLen_congr (hsame _ ?_ ?_) (hsame _ ?_ ?_) <;>
    · unfold kHeaderSize kDataLenPos at *
      omega
  rw [hlen]
  refine load_congr ?_
  intro i hi
  exact hsame _ (by omega) (by omega)

end FarMemory.ServerPtr
