import Mathlib

/-!
# Keys of the hash tables

A key is a byte string of 1 to 255 bytes. Both tables place it by `hash32` and both
compare it by its length and `strncmp`, which does not look behind a zero byte. Two
keys that agree up to their first zero byte are therefore the same key to a table,
while `hash32` reads all their bytes.
-/
namespace FarMemory.Keys

abbrev Bytes := List UInt8

structure Key where
  bytes : Bytes
  nonempty : 0 < bytes.length
  le : bytes.length ≤ 255
  deriving DecidableEq

namespace Key

def len (k : Key) : ℕ := k.bytes.length

theorem ext_bytes {a b : Key} (h : a.bytes = b.bytes) : a = b := by
  cases a
  cases b
  cases h
  rfl

end Key

/-! ### The comparison -/

def strncmp : Bytes → Bytes → ℕ → ℤ
  | _,_,0 => 0
  | a::as,b::bs,n+1 =>
    if a = b then if a = 0 then 0 else strncmp as bs n
    else a.toNat-b.toNat
  | _,_,_ => 0

/-- The test that every lookup makes of a stored key. -/
def sameKey (stored key : Key) : Bool :=
  stored.len == key.len && strncmp stored.bytes key.bytes key.len == 0

/-- What `strncmp` sees of a string. -/
def visible (bs : Bytes) : Bytes := bs.takeWhile (· ≠ 0)

theorem strncmp_eq_zero_iff {as bs : Bytes} (h : as.length = bs.length) :
    strncmp as bs bs.length = 0 ↔ visible as = visible bs := by
  induction bs generalizing as with
  | nil =>
    rw [List.length_nil,List.length_eq_zero_iff] at h
    simp [h,strncmp]
  | cons b bs ih =>
    cases as with
    | nil => cases h
    | cons a as =>
      rw [List.length_cons,strncmp]
      by_cases hab : a = b
      · subst hab
        rw [if_pos rfl]
        by_cases ha : a = 0
        · simp [ha,visible]
        · rw [if_neg ha,ih (Nat.succ.inj h)]
          simp [visible,ha]
      · rw [if_neg hab]
        have hne : (a.toNat : ℤ)-b.toNat ≠ 0 := by
          intro hz
          apply hab
          apply UInt8.toNat_inj.mp
          omega
        refine iff_of_false hne ?_
        intro hv
        by_cases ha : a = 0
        · have hb : b ≠ 0 := fun hb => hab (ha.trans hb.symm)
          simp [visible,ha,hb] at hv
        · by_cases hb : b = 0
          · simp [visible,ha,hb] at hv
          · simp only [visible,ne_eq,ha,hb,not_false_eq_true,decide_true,List.takeWhile_cons_of_pos,
              List.cons.injEq] at hv
            exact hab hv.1

theorem sameKey_iff (a k : Key) : sameKey a k = true ↔ a.len = k.len ∧ visible a.bytes = visible k.bytes := by
  rw [sameKey,Bool.and_eq_true,beq_iff_eq,beq_iff_eq]
  constructor
  · rintro ⟨hl,hs⟩
    exact ⟨hl,(strncmp_eq_zero_iff hl).mp hs⟩
  · rintro ⟨hl,hv⟩
    exact ⟨hl,(strncmp_eq_zero_iff hl).mpr hv⟩

theorem sameKey_refl (k : Key) : sameKey k k = true := (sameKey_iff k k).mpr ⟨rfl,rfl⟩

/-- The comparison tells the keys of the set apart. -/
def Distinguishable (K : Set Key) : Prop := ∀ a ∈ K, ∀ b ∈ K, sameKey a b = true → a = b

/-- A string is visible up to its first zero byte, so strings of one length that have
none, such as those of the tests, are told apart. -/
theorem distinguishable_nulFree : Distinguishable {k | (0 : UInt8) ∉ k.bytes} := by
  have hall : ∀ k : Key, (0 : UInt8) ∉ k.bytes → visible k.bytes = k.bytes := by
    intro k hk
    rw [visible,List.takeWhile_eq_self_iff]
    intro x hx
    simp only [ne_eq,decide_not,Bool.not_eq_eq_eq_not,Bool.not_true,decide_eq_false_iff_not]
    rintro rfl
    exact hk hx
  intro a ha b hb h
  obtain ⟨-,hv⟩ := (sameKey_iff a b).mp h
  rw [hall a ha,hall b hb] at hv
  exact Key.ext_bytes hv

/-! ### The hash -/

def mixC1 : BitVec 32 := 0xcc9e2d51#32
def mixC2 : BitVec 32 := 0x1b873593#32
def kHashSeed : BitVec 32 := 0xdeadbeef#32

def byte (x : UInt8) : BitVec 32 := x.toBitVec.zeroExtend 32

def mixBlock (k1 : BitVec 32) : BitVec 32 := (k1*mixC1).rotateLeft 15*mixC2

/-- The body over whole blocks of four bytes, low byte first, and the tail of at
most three. -/
def murmurBody : BitVec 32 → Bytes → BitVec 32
  | h1,a::b::c::d::rest =>
    let k1 := byte a ||| byte b <<< 8 ||| byte c <<< 16 ||| byte d <<< 24
    murmurBody ((h1 ^^^ mixBlock k1).rotateLeft 13*5#32+0xe6546b64#32) rest
  | h1,[a,b,c] => h1 ^^^ mixBlock (byte c <<< 16 ^^^ byte b <<< 8 ^^^ byte a)
  | h1,[a,b] => h1 ^^^ mixBlock (byte b <<< 8 ^^^ byte a)
  | h1,[a] => h1 ^^^ mixBlock (byte a)
  | h1,[] => h1

def fmix32 (h : BitVec 32) : BitVec 32 :=
  let h := (h ^^^ h >>> 16)*0x85ebca6b#32
  let h := (h ^^^ h >>> 13)*0xc2b2ae35#32
  h ^^^ h >>> 16

def murmurHash3 (seed : BitVec 32) (key : Bytes) : BitVec 32 :=
  fmix32 (murmurBody seed key ^^^ BitVec.ofNat 32 key.length)

example : murmurHash3 0#32 [0x21,0x43,0x65,0x87] = 0xf55b516b#32 := by decide

def hash32 (k : Key) : BitVec 32 := murmurHash3 kHashSeed k.bytes

/-- The bucket of a key: `hash & kHashMask_`, with `kHashMask_` one less than the
number of buckets. -/
@[irreducible] def homeBucket (shift : ℕ) (k : Key) : ℕ := (hash32 k &&& BitVec.ofNat 32 (2^shift-1)).toNat

end FarMemory.Keys
