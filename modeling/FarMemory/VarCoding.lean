import Mathlib

/-!
# Variable-length integers

The encoders emit seven bits a byte, lowest group first, with the high bit on every
byte but the last. The decoders shift what they have so far before each further group,
so they read the first group as the highest. The signed forms put the zig-zag map
around the unsigned ones; their decoders add to a local variable that is never
initialised, which is a parameter here.
-/
namespace FarMemory.VarCoding

section Coding
variable {w : ℕ}

/-- The bytes written; the encoders return how many they are. -/
def encodeVarUint (value : BitVec w) : List UInt8 :=
  if 0x80 ≤ value.toNat then
    UInt8.ofNat (value.toNat%128+0x80) :: encodeVarUint (value >>> 7)
  else [UInt8.ofNat value.toNat]
termination_by value.toNat
decreasing_by
  rw [BitVec.toNat_ushiftRight,Nat.shiftRight_eq_div_pow]
  omega

/-- The output afterwards and the number of bytes consumed; nothing if the source ends
inside the number. -/
def decodeVarUint : List UInt8 → BitVec w → Option (BitVec w × ℕ)
  | [],_ => none
  | b::src,value =>
    if 0x80 ≤ b.toNat then
      (decodeVarUint src ((value+BitVec.ofNat w (b.toNat%128)) <<< 7)).map fun r => (r.1,r.2+1)
    else some (value+BitVec.ofNat w b.toNat,1)

def zigZagEncode (v : BitVec w) : BitVec w := (v <<< 1) ^^^ v.sshiftRight (w-1)

def zigZagDecode (v : BitVec w) : BitVec w := (v >>> 1) ^^^ -(v &&& 1#w)

def encodeVarInt (value : BitVec w) : List UInt8 := encodeVarUint (zigZagEncode value)

/-- The output is overwritten; `uv` is what the local variable happens to hold. -/
def decodeVarInt (src : List UInt8) (uv : BitVec w) : Option (BitVec w × ℕ) :=
  (decodeVarUint src uv).map fun r => (zigZagDecode r.1,r.2)

end Coding

def encodeVarUint32 : BitVec 32 → List UInt8 := encodeVarUint
def decodeVarUint32 : List UInt8 → BitVec 32 → Option (BitVec 32 × ℕ) := decodeVarUint
def encodeVarUint64 : BitVec 64 → List UInt8 := encodeVarUint
def decodeVarUint64 : List UInt8 → BitVec 64 → Option (BitVec 64 × ℕ) := decodeVarUint
def zigZagEncode32 : BitVec 32 → BitVec 32 := zigZagEncode
def zigZagEncode64 : BitVec 64 → BitVec 64 := zigZagEncode
def encodeVarInt32 : BitVec 32 → List UInt8 := encodeVarInt
def decodeVarInt32 : List UInt8 → BitVec 32 → Option (BitVec 32 × ℕ) := decodeVarInt
def encodeVarInt64 : BitVec 64 → List UInt8 := encodeVarInt
def decodeVarInt64 : List UInt8 → BitVec 64 → Option (BitVec 64 × ℕ) := decodeVarInt

/-- The seven-bit groups of a value, lowest first. -/
def groups {w : ℕ} (v : BitVec w) : List ℕ := Nat.digits 128 v.toNat

section Unsigned
variable {w : ℕ} {v : BitVec w}

theorem groups_lt : ∀ d ∈ groups v, d < 128 := fun _ hd => Nat.digits_lt_base (by decide) hd

theorem groups_step (h : 0x80 ≤ v.toNat) : groups v = v.toNat%128 :: groups (v >>> 7) := by
  unfold groups
  rw [Nat.digits_def' (by decide) (by omega),BitVec.toNat_ushiftRight,Nat.shiftRight_eq_div_pow]

theorem groups_small (h : v.toNat < 0x80) : Nat.ofDigits 128 (groups v).reverse = v.toNat ∧ (groups v).length ≤ 1 := by
  unfold groups
  rcases Nat.eq_zero_or_pos v.toNat with h0 | hpos
  · simp [h0]
  · rw [Nat.digits_of_lt _ _ (by omega) h]
    simp

theorem groups_ne_nil (h : 0x80 ≤ v.toNat) : 1 ≤ (groups (v >>> 7)).length := by
  have hpos : (v >>> 7).toNat ≠ 0 := by
    rw [BitVec.toNat_ushiftRight,Nat.shiftRight_eq_div_pow]
    omega
  exact List.length_pos_iff.mpr (Nat.digits_ne_nil_iff_ne_zero.mpr hpos)

/-- What the decoder makes of the encoder's bytes: the groups in reverse order, over what
the output held before. -/
theorem decode_encode (suffix : List UInt8) (u : BitVec w) :
    decodeVarUint (encodeVarUint v++suffix) u =
      some (u*BitVec.ofNat w (128^((groups v).length-1))+BitVec.ofNat w (Nat.ofDigits 128 (groups v).reverse),
        (encodeVarUint v).length) := by
  induction hn : v.toNat using Nat.strong_induction_on generalizing v u with
  | _ n ih =>
    rw [encodeVarUint]
    split
    · rename_i h
      have hlt : (v >>> 7).toNat < n := by
        rw [BitVec.toNat_ushiftRight,Nat.shiftRight_eq_div_pow]
        omega
      have hne := groups_ne_nil h
      have hbyte : (UInt8.ofNat (v.toNat%128+0x80)).toNat = v.toNat%128+0x80 := by
        rw [UInt8.toNat_ofNat']
        omega
      have hgroup : (v.toNat%128+0x80)%128 = v.toNat%128 := by omega
      rw [List.cons_append,decodeVarUint,hbyte,if_pos (by omega),hgroup,ih _ hlt _ rfl,groups_step h]
      obtain ⟨k,hk⟩ : ∃ k, (groups (v >>> 7)).length = k+1 := ⟨_,(Nat.sub_add_cancel hne).symm⟩
      simp only [Option.map_some,List.length_cons,List.reverse_cons,Nat.ofDigits_append,List.length_reverse,
        Nat.ofDigits_singleton,hk,Nat.add_sub_cancel,BitVec.ofNat_add,BitVec.ofNat_mul,pow_succ,
        BitVec.shiftLeft_eq_mul_twoPow]
      have htwo : BitVec.twoPow w 7 = BitVec.ofNat w 128 := by
        apply BitVec.eq_of_toNat_eq
        simp [BitVec.toNat_twoPow]
      rw [htwo]
      congr 2
      ring
    · rename_i h
      obtain ⟨hval,hlen⟩ := groups_small (not_le.mp h)
      have hbyte : (UInt8.ofNat v.toNat).toNat = v.toNat := by
        rw [UInt8.toNat_ofNat']
        omega
      have hzero : (groups v).length-1 = 0 := by omega
      rw [List.singleton_append,decodeVarUint,hbyte,if_neg h,hval,hzero]
      simp

/-- With two groups or more the value determines its groups below the highest, also
modulo the width, and these fix the highest as well. -/
theorem reverse_of_modEq {d : List ℕ} {M U : ℕ} (hd : ∀ x ∈ d, x < 128) (hlen : 2 ≤ d.length)
    (hM : 128^(d.length-1) ∣ M)
    (h : U*128^(d.length-1)+Nat.ofDigits 128 d.reverse ≡ Nat.ofDigits 128 d [MOD M]) : d.reverse = d := by
  obtain ⟨x,rest,rfl⟩ := List.exists_cons_of_length_pos (by omega : 0 < d.length)
  obtain ⟨m,y,rfl⟩ : ∃ m y, rest = m++[y] := by
    rcases List.eq_nil_or_concat rest with rfl | ⟨m,y,rfl⟩
    · simp at hlen
    · exact ⟨m,y,by simp⟩
  have hpow : (x::(m++[y])).length-1 = (x::m).length := by simp
  have hlow : Nat.ofDigits 128 (x::(m++[y])) = Nat.ofDigits 128 (x::m)+128^(x::m).length*y := by
    rw [← List.cons_append,Nat.ofDigits_append,Nat.ofDigits_singleton]
  have hrev : Nat.ofDigits 128 (x::(m++[y])).reverse =
      Nat.ofDigits 128 (y::m.reverse)+128^(x::m).length*x := by
    have : (x::(m++[y])).reverse = (y::m.reverse)++[x] := by simp
    rw [this,Nat.ofDigits_append,Nat.ofDigits_singleton,List.length_cons,List.length_reverse,List.length_cons]
  rw [hpow] at hM h
  rw [hlow,hrev] at h
  have hmod := h.of_dvd hM
  have hcut : Nat.ofDigits 128 (y::m.reverse) ≡ Nat.ofDigits 128 (x::m) [MOD 128^(x::m).length] := by
    simpa [Nat.ModEq,Nat.add_mod,Nat.mul_mod] using hmod
  have hy : ∀ z ∈ y::m.reverse, z < 128 := by
    intro z hz
    apply hd
    simp at hz ⊢
    tauto
  have hx : ∀ z ∈ x::m, z < 128 := by
    intro z hz
    apply hd
    simp at hz ⊢
    tauto
  have hlty := Nat.ofDigits_lt_base_pow_length (by decide) hy
  have hltx := Nat.ofDigits_lt_base_pow_length (by decide) hx
  have hsame : (y::m.reverse).length = (x::m).length := by simp
  rw [hsame] at hlty
  have heq := Nat.ofDigits_inj_of_len_eq (by decide : 1 < 128) hsame hy hx (hcut.eq_of_lt_of_lt hlty hltx)
  obtain ⟨rfl,hm⟩ := List.cons_eq_cons.mp heq
  simp [hm]

theorem pow_groups_dvd (hlen : 2 ≤ (groups v).length) : 128^((groups v).length-1) ∣ 2^w := by
  have hle : 128^((groups v).length-1) ≤ v.toNat :=
    (Nat.lt_digits_length_iff (by decide) _).mp (by unfold groups at hlen ⊢; omega)
  have hseven : 128^((groups v).length-1) = 2^(7*((groups v).length-1)) := (pow_mul 2 7 _).symm
  rw [hseven] at hle ⊢
  exact Nat.pow_dvd_pow 2 (Nat.pow_lt_pow_iff_right (by decide : 1 < 2)|>.mp (hle.trans_lt v.isLt)).le

/-- The encoded value comes back exactly if its groups read the same in both directions
and what the output held is shifted out. -/
theorem roundTrip_iff (suffix : List UInt8) (u : BitVec w) :
    decodeVarUint (encodeVarUint v++suffix) u = some (v,(encodeVarUint v).length) ↔
      (groups v).reverse = groups v ∧ u*BitVec.ofNat w (128^((groups v).length-1)) = 0 := by
  rw [decode_encode]
  simp only [Option.some.injEq,Prod.mk.injEq,and_true]
  have hval : BitVec.ofNat w (Nat.ofDigits 128 (groups v)) = v := by
    rw [groups,Nat.ofDigits_digits,BitVec.ofNat_toNat,BitVec.setWidth_eq]
  constructor
  · intro h
    have hsym : (groups v).reverse = groups v := by
      rcases Nat.lt_or_ge (groups v).length 2 with hshort | hlong
      · match groups v,hshort with
        | [],_ => rfl
        | [_],_ => rfl
      · refine reverse_of_modEq groups_lt hlong (pow_groups_dvd hlong) (U := u.toNat) ?_
        have hnat := congrArg BitVec.toNat h
        rw [BitVec.toNat_add,BitVec.toNat_mul,BitVec.toNat_ofNat,BitVec.toNat_ofNat] at hnat
        have hdigits : Nat.ofDigits 128 (groups v) = v.toNat := Nat.ofDigits_digits 128 _
        rw [hdigits,Nat.ModEq,Nat.mod_eq_of_lt v.isLt]
        simpa [Nat.add_mod,Nat.mul_mod] using hnat
    rw [hsym,hval] at h
    exact ⟨hsym,by simpa using h⟩
  · rintro ⟨hsym,hu⟩
    rw [hsym,hval,hu,zero_add]

end Unsigned

section Signed
variable {w : ℕ}

theorem sshiftRight_last (v : BitVec w) :
    v.sshiftRight (w-1) = if v.msb then BitVec.allOnes w else 0#w := by
  ext i hi
  have hbit : (v.sshiftRight (w-1))[i] = v.msb := by
    rw [BitVec.getElem_sshiftRight]
    split
    · obtain rfl : i = 0 := by omega
      simp [BitVec.msb_eq_getLsbD_last,BitVec.getLsbD_eq_getElem (show w-1 < w by omega)]
    · rfl
  rw [hbit]
  cases v.msb <;> simp

theorem shiftLeft_and_one (v : BitVec w) : (v <<< 1) &&& 1#w = 0#w := by
  ext i hi
  rcases Nat.eq_zero_or_pos i with rfl | hpos
  · simp
  · have : i ≠ 0 := by omega
    simp [this]

/-- The shift back loses only the sign, which both branches know. -/
theorem shiftLeft_ushiftRight (v : BitVec w) (i : ℕ) :
    (v <<< 1 >>> 1).getLsbD i = (v.getLsbD i && decide (i+1 < w)) := by
  rw [BitVec.getLsbD_ushiftRight,BitVec.getLsbD_shiftLeft,Nat.add_comm 1 i]
  simp [Bool.and_comm]

theorem zigZagDecode_encode (v : BitVec w) : zigZagDecode (zigZagEncode v) = v := by
  unfold zigZagDecode zigZagEncode
  rw [sshiftRight_last]
  have hlast : ∀ i < w, ¬ i+1 < w → v.getLsbD i = v.msb := by
    intro i hi hlt
    obtain rfl : i = w-1 := by omega
    rw [BitVec.msb_eq_getLsbD_last]
  cases hm : v.msb with
  | false =>
    simp only [Bool.false_eq_true,if_false,BitVec.xor_zero,shiftLeft_and_one,BitVec.neg_zero]
    refine BitVec.eq_of_getLsbD_eq fun i hi => ?_
    rw [shiftLeft_ushiftRight]
    by_cases hlt : i+1 < w
    · simp [hlt]
    · simp [hlt,hlast i hi hlt,hm]
  | true =>
    rw [if_pos rfl,BitVec.xor_allOnes]
    have hone : ~~~(v <<< 1) &&& 1#w = 1#w := by
      ext i hi
      rcases Nat.eq_zero_or_pos i with rfl | hpos
      · simp
      · have : i ≠ 0 := by omega
        simp [this]
    rw [hone,BitVec.neg_one_eq_allOnes,BitVec.xor_allOnes]
    refine BitVec.eq_of_getLsbD_eq fun i hi => ?_
    rw [BitVec.getLsbD_not,BitVec.getLsbD_ushiftRight,BitVec.getLsbD_not]
    by_cases hlt : i+1 < w
    · simp [hi,hlt,Nat.add_comm 1 i]
    · have : ¬ 1+i < w := by omega
      simp [hi,this,hlast i hi hlt,hm]

/-- The map is one to one both ways, since the width is finite. -/
theorem zigZagDecode_eq_iff (u v : BitVec w) : zigZagDecode u = v ↔ u = zigZagEncode v := by
  have hinj : Function.Injective (zigZagEncode (w := w)) :=
    Function.LeftInverse.injective zigZagDecode_encode
  have hsurj : Function.Surjective (zigZagEncode (w := w)) := Finite.surjective_of_injective hinj
  obtain ⟨x,rfl⟩ := hsurj u
  rw [zigZagDecode_encode,hinj.eq_iff]

theorem signedRoundTrip_iff (suffix : List UInt8) (v uv : BitVec w) :
    decodeVarInt (encodeVarInt v++suffix) uv = some (v,(encodeVarInt v).length) ↔
      (groups (zigZagEncode v)).reverse = groups (zigZagEncode v) ∧
        uv*BitVec.ofNat w (128^((groups (zigZagEncode v)).length-1)) = 0 := by
  rw [← roundTrip_iff suffix uv,decodeVarInt,encodeVarInt]
  constructor
  · intro h
    obtain ⟨⟨r,n⟩,hr,heq⟩ := Option.map_eq_some_iff.mp h
    simp only [Prod.mk.injEq] at heq
    rw [hr,(zigZagDecode_eq_iff r v).mp heq.1,heq.2]
  · intro h
    rw [h,Option.map_some,zigZagDecode_encode]

end Signed

/-- The round trip of the four codings, for every value, every suffix and every content
of the uninitialised variable: a value comes back exactly if its seven-bit groups read
the same in both directions and, for the signed codings, nothing of that content is left
above them. The length reported by the encoder is always what the decoder consumes, and
the suffix never matters. -/
theorem var_coding_roundTrip_iff (suffix : List UInt8) :
    (∀ v : BitVec 32, decodeVarUint32 (encodeVarUint32 v++suffix) 0 = some (v,(encodeVarUint32 v).length) ↔
      (groups v).reverse = groups v) ∧
    (∀ v : BitVec 64, decodeVarUint64 (encodeVarUint64 v++suffix) 0 = some (v,(encodeVarUint64 v).length) ↔
      (groups v).reverse = groups v) ∧
    (∀ v uv : BitVec 32, decodeVarInt32 (encodeVarInt32 v++suffix) uv = some (v,(encodeVarInt32 v).length) ↔
      (groups (zigZagEncode32 v)).reverse = groups (zigZagEncode32 v) ∧
        uv*BitVec.ofNat 32 (128^((groups (zigZagEncode32 v)).length-1)) = 0) ∧
    (∀ v uv : BitVec 64, decodeVarInt64 (encodeVarInt64 v++suffix) uv = some (v,(encodeVarInt64 v).length) ↔
      (groups (zigZagEncode64 v)).reverse = groups (zigZagEncode64 v) ∧
        uv*BitVec.ofNat 64 (128^((groups (zigZagEncode64 v)).length-1)) = 0) ∧
    (∀ (w : ℕ) (v u : BitVec w), ∃ r, decodeVarUint (encodeVarUint v++suffix) u = some (r,(encodeVarUint v).length) ∧
      decodeVarUint (encodeVarUint v) u = some (r,(encodeVarUint v).length)) := by
  refine ⟨fun v => ?_,fun v => ?_,fun v uv => signedRoundTrip_iff suffix v uv,
    fun v uv => signedRoundTrip_iff suffix v uv,fun w v u => ⟨_,decode_encode suffix u,?_⟩⟩
  · exact (roundTrip_iff suffix 0).trans (by simp)
  · exact (roundTrip_iff suffix 0).trans (by simp)
  · simpa using decode_encode (v := v) [] u

/-- The first value of two bytes comes back as 1. -/
theorem decodeVarUint32_encodeVarUint32_128 :
    encodeVarUint32 128#32 = [0x80,0x01] ∧
      decodeVarUint32 (encodeVarUint32 128#32) 0 = some (1#32,2) := by
  have henc : encodeVarUint32 128#32 = [0x80,0x01] := by
    rw [encodeVarUint32,encodeVarUint,if_pos (by decide),encodeVarUint,if_neg (by decide)]
    rfl
  exact ⟨henc,by rw [henc]; decide⟩

end FarMemory.VarCoding
