import FarMemory.ByteStore

/-!
# Message buffers of fixed size

A message is put together in a buffer of fixed capacity whose cells start with
arbitrary bytes: fields are copied to explicit offsets and a front part is sent. It is
taken apart in such a buffer too: bytes of a stream are received at an offset and
fields are read at explicit offsets. A copy past the capacity has no result. `Holds`
says which bytes the front of a buffer has; fields copied one behind the other are held
one behind the other.
-/
namespace FarMemory.WireBuffer
open ByteStore

abbrev Bytes := List UInt8

structure Buf where
  cap : ℕ
  mem : ℕ → UInt8

namespace Buf

def copy (b : Buf) (off : ℕ) (src : Bytes) : Option Buf :=
  if off+src.length ≤ b.cap then some ⟨b.cap,store b.mem off src⟩ else none

def fill (b : Buf) : List (ℕ × Bytes) → Option Buf
  | [] => some b
  | f::fs =>
    match b.copy f.1 f.2 with
    | none => none
    | some b => fill b fs

def front (b : Buf) (n : ℕ) : Option Bytes := if n ≤ b.cap then some (load b.mem 0 n) else none

/-- Take bytes off the stream. A stream that is too short blocks, and an empty one blocks a read
of no bytes too. -/
def recv (b : Buf) (off n : ℕ) (stream : Bytes) : Option (Buf × Bytes) :=
  if stream ≠ [] ∧ n ≤ stream.length then (b.copy off (stream.take n)).map fun b => (b,stream.drop n) else none

structure Holds (b : Buf) (bs : Bytes) : Prop where
  fits : bs.length ≤ b.cap
  loads : load b.mem 0 bs.length = bs

/-- Fields whose offsets are the lengths of what stands before them. -/
def Contiguous : ℕ → List (ℕ × Bytes) → Prop
  | _,[] => True
  | n,f::fs => f.1 = n ∧ Contiguous (n+f.2.length) fs

end Buf

def fieldBytes (fs : List (ℕ × Bytes)) : Bytes := fs.flatMap Prod.snd

section
variable {b b' : Buf} {pre src bs rest : Bytes} {fs : List (ℕ × Bytes)} {cap : ℕ} {junk : ℕ → UInt8}

theorem holds_nil (b : Buf) : b.Holds [] := ⟨Nat.zero_le _,rfl⟩

theorem load_append {α : Type*} (mem : ℕ → α) (a n m : ℕ) : load mem a (n+m) = load mem a n++load mem (a+n) m := by
  simp only [load,List.range_add,List.map_append,List.map_map]
  congr 2
  funext i
  simp [Nat.add_assoc]

theorem Buf.Holds.copy (h : b.Holds pre) (hcap : pre.length+src.length ≤ b.cap) :
    ∃ b', b.copy pre.length src = some b' ∧ b'.cap = b.cap ∧ b'.Holds (pre++src) := by
  refine ⟨⟨b.cap,store b.mem pre.length src⟩,if_pos hcap,rfl,by simpa using hcap,?_⟩
  rw [List.length_append,load_append,load_store_outside (by omega),h.loads,Nat.zero_add,load_store]

theorem Buf.Holds.fill (h : b.Holds pre) (hfs : Buf.Contiguous pre.length fs)
    (hcap : pre.length+(fieldBytes fs).length ≤ b.cap) :
    ∃ b', b.fill fs = some b' ∧ b'.cap = b.cap ∧ b'.Holds (pre++fieldBytes fs) := by
  induction fs generalizing b pre with
  | nil => exact ⟨b,rfl,rfl,by simpa [fieldBytes] using h⟩
  | cons f fs ih =>
    obtain ⟨off,src⟩ := f
    obtain ⟨rfl,hfs⟩ := hfs
    simp only [fieldBytes,List.flatMap_cons,List.length_append] at hcap
    obtain ⟨b1,hcopy,hcap1,hb1⟩ : ∃ b', b.copy pre.length src = some b' ∧ b'.cap = b.cap ∧ b'.Holds (pre++src) :=
      h.copy (by omega)
    obtain ⟨b2,hfill,hcap2,hb2⟩ := ih hb1 (by simpa using hfs) (by
      simp only [fieldBytes,List.length_append]
      omega)
    refine ⟨b2,by simp only [Buf.fill,hcopy,hfill],hcap2.trans hcap1,?_⟩
    simpa [fieldBytes] using hb2

theorem fill_new (hfs : Buf.Contiguous 0 fs) (hcap : (fieldBytes fs).length ≤ cap) :
    ∃ b, Buf.fill ⟨cap,junk⟩ fs = some b ∧ b.cap = cap ∧ b.Holds (fieldBytes fs) :=
  (holds_nil ⟨cap,junk⟩).fill hfs (by simpa using hcap)

theorem Buf.Holds.front (h : b.Holds bs) : b.front bs.length = some bs := by
  rw [Buf.front,if_pos h.fits,h.loads]

theorem Buf.Holds.recv (h : b.Holds pre) (hcap : pre.length+bs.length ≤ b.cap) (hne : bs++rest ≠ []) :
    ∃ b', b.recv pre.length bs.length (bs++rest) = some (b',rest) ∧ b'.cap = b.cap ∧ b'.Holds (pre++bs) := by
  obtain ⟨b',hcopy,hcap',hb'⟩ := h.copy hcap
  refine ⟨b',?_,hcap',hb'⟩
  rw [Buf.recv,if_pos ⟨hne,by simp⟩,List.take_left,List.drop_left,hcopy]
  rfl

theorem recv_new (bs : Bytes) (hne : bs ≠ []) (hcap : bs.length ≤ cap) :
    ∃ b, Buf.recv ⟨cap,junk⟩ 0 bs.length (bs++rest) = some (b,rest) ∧ b.cap = cap ∧ b.Holds bs :=
  (holds_nil ⟨cap,junk⟩).recv (by simpa using hcap) (List.append_ne_nil_of_left_ne_nil hne _)

/-- Fields laid out one behind the other and sent. -/
theorem fill_front {n : ℕ} (hfs : Buf.Contiguous 0 fs) (hn : (fieldBytes fs).length = n)
    (hcap : n ≤ cap) : (do (← Buf.fill ⟨cap,junk⟩ fs).front n) = some (fieldBytes fs) := by
  subst hn
  obtain ⟨b,hfill,-,hb⟩ : ∃ b, Buf.fill ⟨cap,junk⟩ fs = some b ∧ _ := fill_new hfs hcap
  simp only [hfill,Option.bind_eq_bind,Option.bind_some,hb.front]

/-- A header is received, and behind it in the buffer what it announces. -/
theorem recv_parts (pre bs rest : Bytes) (hpre : pre ≠ []) (hne : bs++rest ≠ [])
    (hcap : pre.length+bs.length ≤ cap) : ∃ b b', Buf.recv ⟨cap,junk⟩ 0 pre.length (pre++(bs++rest)) = some (b,bs++rest) ∧
      b.Holds pre ∧ b.recv pre.length bs.length (bs++rest) = some (b',rest) ∧ b'.Holds (pre++bs) := by
  obtain ⟨b,hrecv,hb,hpre⟩ : ∃ b, Buf.recv ⟨cap,junk⟩ 0 pre.length (pre++(bs++rest)) = some (b,_) ∧ _ :=
    recv_new pre hpre (by omega)
  obtain ⟨b',hrecv',-,hbs⟩ := hpre.recv (by omega : _+bs.length ≤ b.cap) hne
  exact ⟨b,b',hrecv,hpre,hrecv',hbs⟩

theorem Buf.Holds.load (pre bs rest : Bytes) (h : b.Holds (pre++bs++rest)) : ByteStore.load b.mem pre.length bs.length = bs := by
  have hload := h.loads
  rw [List.length_append,List.length_append,load_append,load_append,Nat.zero_add] at hload
  have hfront := (List.append_inj hload (by simp)).1
  exact (List.append_inj hfront (by simp)).2

theorem Buf.Holds.byte (pre : Bytes) (x : UInt8) (rest : Bytes) (h : b.Holds (pre++[x]++rest)) :
    b.mem pre.length = x := by
  have := h.load pre [x] rest
  simpa [ByteStore.load] using this

theorem Buf.Holds.len (pre : Bytes) {n : ℕ} (hn : n < 2^16) (rest : Bytes) (h : b.Holds (pre++encodeLen n++rest)) :
    decodeLen b.mem pre.length = n := by
  have hload := h.load pre (encodeLen n) rest
  have hb : b.mem pre.length = UInt8.ofNat n ∧ b.mem (pre.length+1) = UInt8.ofNat (n/256) := by
    simpa [ByteStore.load,encodeLen,List.range_succ] using hload
  rw [decodeLen,hb.1,hb.2]
  simp only [UInt8.toNat_ofNat']
  omega

end

end FarMemory.WireBuffer
