import Mathlib

/-!
# Buffers of the RPC layer

A buffer is a byte vector with a write and a read position. What lies between them
is readable. Appending grows the vector only when there is no room behind the write
position, and a read that drains the buffer sets both positions back to zero. Seen
through the readable bytes it is a queue: appends go to the back, reads come from
the front. Integers travel most significant byte first.
-/
namespace FarMemory.Rpc

abbrev Bytes := List UInt8

structure Buffer where
  data : Bytes
  writePos : ℕ
  readPos : ℕ
  read_le : readPos ≤ writePos
  write_le : writePos ≤ data.length
  deriving DecidableEq

namespace Buffer

def new (sz : ℕ) : Buffer := ⟨List.replicate sz 0,0,0,le_rfl,Nat.zero_le _⟩

def readable (b : Buffer) : Bytes := (b.data.take b.writePos).drop b.readPos

def readableBytes (b : Buffer) : ℕ := b.writePos-b.readPos

def writableBytes (b : Buffer) : ℕ := b.data.length-b.writePos

def ensureWritableBytes (b : Buffer) (n : ℕ) : Buffer :=
  if b.writableBytes < n then
    ⟨b.data++List.replicate (b.writePos+n-b.data.length) 0,b.writePos,b.readPos,b.read_le,by
      have := b.write_le
      simp only [List.length_append]
      omega⟩
  else b

theorem ensureWritableBytes_room (b : Buffer) (n : ℕ) :
    (b.ensureWritableBytes n).writePos+n ≤ (b.ensureWritableBytes n).data.length := by
  have := b.write_le
  unfold ensureWritableBytes writableBytes
  split
  · simp only [List.length_append,List.length_replicate]
    omega
  · omega

theorem readable_ensureWritableBytes (b : Buffer) (n : ℕ) : (b.ensureWritableBytes n).readable = b.readable := by
  unfold ensureWritableBytes
  split
  · simp only [readable]
    rw [List.take_append_of_le_length b.write_le]
  · rfl

/-- Copy bytes behind the write position, which has room for them, and move it. -/
def put (b : Buffer) (bs : Bytes) (h : b.writePos+bs.length ≤ b.data.length) : Buffer :=
  ⟨b.data.take b.writePos++bs++b.data.drop (b.writePos+bs.length),b.writePos+bs.length,b.readPos,
    b.read_le.trans (Nat.le_add_right _ _),by
      simp only [List.length_append,List.length_take,List.length_drop]
      omega⟩

def append (b : Buffer) (bs : Bytes) : Buffer :=
  (b.ensureWritableBytes bs.length).put bs (b.ensureWritableBytes_room bs.length)

theorem readable_put (b : Buffer) (bs : Bytes) (h : b.writePos+bs.length ≤ b.data.length) :
    (b.put bs h).readable = b.readable++bs := by
  have hlen : (b.data.take b.writePos).length = b.writePos := List.length_take_of_le b.write_le
  have htake : (b.data.take b.writePos++bs++b.data.drop (b.writePos+bs.length)).take (b.writePos+bs.length)
      = b.data.take b.writePos++bs := by
    rw [List.take_left' (by simp [hlen])]
  simp only [readable,put]
  rw [htake,List.drop_append_of_le_length (by rw [hlen]; exact b.read_le)]

@[simp] theorem readable_append (b : Buffer) (bs : Bytes) : (b.append bs).readable = b.readable++bs := by
  rw [append,readable_put,readable_ensureWritableBytes]

@[simp] theorem readable_new (sz : ℕ) : (new sz).readable = [] := rfl

theorem readable_length (b : Buffer) : b.readable.length = b.readableBytes := by
  simp [readable,readableBytes,Nat.min_eq_left b.write_le]

/-- A drained buffer starts over at position zero. -/
def hasRead (b : Buffer) (n : ℕ) (h : n ≤ b.readableBytes) : Buffer :=
  if b.readPos+n = b.writePos then ⟨b.data,0,0,le_rfl,Nat.zero_le _⟩
  else ⟨b.data,b.writePos,b.readPos+n,by
    have := b.read_le
    simp only [readableBytes] at h
    omega,b.write_le⟩

theorem readable_hasRead (b : Buffer) (n : ℕ) (h : n ≤ b.readableBytes) :
    (b.hasRead n h).readable = b.readable.drop n := by
  unfold hasRead
  split
  · rename_i heq
    have hlen : b.readable.length ≤ n := by
      rw [readable_length,readableBytes]
      omega
    rw [List.drop_eq_nil_of_le hlen]
    rfl
  · simp only [readable,List.drop_drop]

/-- Reading more than is readable runs past the written bytes; it has no result here. -/
def readRaw (b : Buffer) (n : ℕ) : Option (Bytes × Buffer) :=
  if h : n ≤ b.readableBytes then some (b.readable.take n,b.hasRead n h) else none

theorem readRaw_of_readable {b : Buffer} {bs rest : Bytes} (h : b.readable = bs++rest) :
    ∃ b', b.readRaw bs.length = some (bs,b') ∧ b'.readable = rest := by
  have hle : bs.length ≤ b.readableBytes := by
    rw [← readable_length,h,List.length_append]
    omega
  refine ⟨b.hasRead bs.length hle,?_,?_⟩
  · rw [readRaw,dif_pos hle,h,List.take_left]
  · rw [readable_hasRead,h,List.drop_left]

end Buffer

/-! ### Integers -/

inductive Width
  | w8
  | w16
  | w32
  | w64
  deriving DecidableEq

def Width.size : Width → ℕ
  | .w8 => 1
  | .w16 => 2
  | .w32 => 4
  | .w64 => 8

/-- A value as its bit pattern. The low byte of a shift is the same for signed and unsigned types. -/
abbrev Width.Int (w : Width) := BitVec (8*w.size)

def byteAt {n : ℕ} (v : BitVec n) (shift : ℕ) : UInt8 := ⟨(v >>> shift).setWidth 8⟩

def placeByte (n : ℕ) (x : UInt8) (shift : ℕ) : BitVec n := x.toBitVec.setWidth n <<< shift

def encode : (w : Width) → w.Int → Bytes
  | .w8,v => [byteAt v 0]
  | .w16,v => [byteAt v 8,byteAt v 0]
  | .w32,v => [byteAt v 24,byteAt v 16,byteAt v 8,byteAt v 0]
  | .w64,v => [byteAt v 56,byteAt v 48,byteAt v 40,byteAt v 32,byteAt v 24,byteAt v 16,byteAt v 8,byteAt v 0]

def decode : (w : Width) → Bytes → Option w.Int
  | .w8,[b0] => some (placeByte 8 b0 0)
  | .w16,[b0,b1] => some (placeByte 16 b0 8 ||| placeByte 16 b1 0)
  | .w32,[b0,b1,b2,b3] =>
    some (placeByte 32 b0 24 ||| placeByte 32 b1 16 ||| placeByte 32 b2 8 ||| placeByte 32 b3 0)
  | .w64,[b0,b1,b2,b3,b4,b5,b6,b7] =>
    some (placeByte 64 b0 56 ||| placeByte 64 b1 48 ||| placeByte 64 b2 40 ||| placeByte 64 b3 32
      ||| placeByte 64 b4 24 ||| placeByte 64 b5 16 ||| placeByte 64 b6 8 ||| placeByte 64 b7 0)
  | _,_ => none

@[simp] theorem encode_length (w : Width) (v : w.Int) : (encode w v).length = w.size := by
  cases w <;> rfl

/-- A byte put back at its place has the bits of the value there and no others. -/
theorem getLsbD_placeByte_byteAt {n : ℕ} (v : BitVec n) (s i : ℕ) :
    (placeByte n (byteAt v s) s).getLsbD i = (decide (s ≤ i ∧ i < s+8) && v.getLsbD i) := by
  simp only [placeByte,byteAt,BitVec.getLsbD_shiftLeft,BitVec.getLsbD_setWidth,BitVec.getLsbD_ushiftRight]
  by_cases hs : s ≤ i
  · rw [Nat.add_sub_cancel' hs]
    by_cases hi : i < n
    · by_cases h8 : i < s+8
      · simp [hs,hi,h8,show i-s < n by omega,show i-s < 8 by omega,show ¬i < s by omega]
      · simp [hs,hi,h8,show ¬i-s < 8 by omega]
    · simp [hi,BitVec.getLsbD_of_ge v i (by omega)]
  · simp [hs,show i < s by omega]

-- every bit of the value belongs to exactly one of its bytes

theorem join_w8 (v : BitVec 8) : placeByte 8 (byteAt v 0) 0 = v := by
  refine BitVec.eq_of_getLsbD_eq fun i hi => ?_
  rw [getLsbD_placeByte_byteAt]
  simp [hi]

theorem join_w16 (v : BitVec 16) : placeByte 16 (byteAt v 8) 8 ||| placeByte 16 (byteAt v 0) 0 = v := by
  refine BitVec.eq_of_getLsbD_eq fun i hi => ?_
  simp only [BitVec.getLsbD_or,getLsbD_placeByte_byteAt]
  cases v.getLsbD i <;> simp
  omega

theorem join_w32 (v : BitVec 32) :
    placeByte 32 (byteAt v 24) 24 ||| placeByte 32 (byteAt v 16) 16 ||| placeByte 32 (byteAt v 8) 8
      ||| placeByte 32 (byteAt v 0) 0 = v := by
  refine BitVec.eq_of_getLsbD_eq fun i hi => ?_
  simp only [BitVec.getLsbD_or,getLsbD_placeByte_byteAt]
  cases v.getLsbD i <;> simp
  omega

theorem join_w64 (v : BitVec 64) :
    placeByte 64 (byteAt v 56) 56 ||| placeByte 64 (byteAt v 48) 48 ||| placeByte 64 (byteAt v 40) 40
      ||| placeByte 64 (byteAt v 32) 32 ||| placeByte 64 (byteAt v 24) 24 ||| placeByte 64 (byteAt v 16) 16
      ||| placeByte 64 (byteAt v 8) 8 ||| placeByte 64 (byteAt v 0) 0 = v := by
  refine BitVec.eq_of_getLsbD_eq fun i hi => ?_
  simp only [BitVec.getLsbD_or,getLsbD_placeByte_byteAt]
  cases v.getLsbD i <;> simp
  omega

theorem decode_encode (w : Width) (v : w.Int) : decode w (encode w v) = some v := by
  cases w with
  | w8 => exact congrArg some (join_w8 v)
  | w16 => exact congrArg some (join_w16 v)
  | w32 => exact congrArg some (join_w32 v)
  | w64 => exact congrArg some (join_w64 v)

end FarMemory.Rpc
