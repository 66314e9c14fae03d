import FarMemory.RpcTemplates

/-!
# The type language of the RPC serializer

A type is built from scalars, strings and buffer pointers by pairs, tuples, sequences
and associative containers. Its stream operators are the overloads of its parts, put
together by recursion on the type. Floating point numbers are their bit patterns. A
buffer pointer is known by the bytes it holds: reading one makes a new buffer, so the
order of a container whose keys hold pointers is not part of its value.
-/
namespace FarMemory.Rpc

inductive Seq
  | vector
  | list
  | deque
  deriving DecidableEq

mutual
inductive Ty
  | bool
  | int (w : Width) (signed : Bool)
  | enum (w : Width) (signed : Bool)
  | float
  | double
  | string
  | buffer
  | pair (a b : Ty)
  | tuple (ts : Tys)
  | seq (c : Seq) (e : Ty)
  | coll (k : Coll) (e : Ty)
  | dict (k : Coll) (key val : Ty)
inductive Tys
  | nil
  | cons (t : Ty) (ts : Tys)
end

mutual
def Ty.Carrier : Ty → Type
  | .bool => Bool
  | .int w _ => w.Int
  | .enum w _ => w.Int
  | .float => Width.w32.Int
  | .double => Width.w64.Int
  | .string => Bytes
  | .buffer => Bytes
  | .pair a b => a.Carrier × b.Carrier
  | .tuple ts => ts.Carrier
  | .seq _ e => List e.Carrier
  | .coll _ e => List e.Carrier
  | .dict _ key val => List (key.Carrier × val.Carrier)
def Tys.Carrier : Tys → Type
  | .nil => Unit
  | .cons t ts => t.Carrier × ts.Carrier
end

/-! ### Comparisons -/

/-- A number that is not NaN, as its signed magnitude; `inf` is the pattern of infinity. -/
def floatKey {n : ℕ} (inf : ℕ) (v : BitVec n) : Option ℤ :=
  let mag := v.toNat%2^(n-1)
  if inf < mag then none else some (if v.msb then -(mag : ℤ) else mag)

def floatLt {n : ℕ} (inf : ℕ) (a b : BitVec n) : Bool :=
  match floatKey inf a,floatKey inf b with
  | some x,some y => x < y
  | _,_ => false

def floatEq {n : ℕ} (inf : ℕ) (a b : BitVec n) : Bool :=
  match floatKey inf a,floatKey inf b with
  | some x,some y => x == y
  | _,_ => false

def infFloat : ℕ := 0x7f800000
def infDouble : ℕ := 0x7ff0000000000000

def intLt {n : ℕ} (signed : Bool) (a b : BitVec n) : Bool := if signed then a.slt b else a.ult b

def lexLt {α : Type} (lt : α → α → Bool) : List α → List α → Bool
  | _,[] => false
  | [],_::_ => true
  | x::l,y::m => lt x y || (!lt y x && lexLt lt l m)

def pairLt {α β : Type} (lt : α → α → Bool) (lt' : β → β → Bool) (p q : α × β) : Bool :=
  lt p.1 q.1 || (!lt q.1 p.1 && lt' p.2 q.2)

-- pointers and unordered containers are never compared by value
mutual
def Ty.lt : (t : Ty) → t.Carrier → t.Carrier → Bool
  | .bool => fun a b => !a && b
  | .int _ s => intLt s
  | .enum _ s => intLt s
  | .float => floatLt infFloat
  | .double => floatLt infDouble
  | .string => lexLt fun a b : UInt8 => a < b
  | .buffer => fun _ _ => false
  | .pair a b => pairLt a.lt b.lt
  | .tuple ts => ts.lt
  | .seq _ e => lexLt e.lt
  | .coll _ e => lexLt e.lt
  | .dict _ key val => lexLt (pairLt key.lt val.lt)
def Tys.lt : (ts : Tys) → ts.Carrier → ts.Carrier → Bool
  | .nil => fun _ _ => false
  | .cons t ts => pairLt t.lt ts.lt
end

/-- Equality of the types that have a hash. -/
def Ty.eq : (t : Ty) → t.Carrier → t.Carrier → Bool
  | .bool => fun a b : Bool => a == b
  | .int w _ => fun a b : w.Int => a == b
  | .enum w _ => fun a b : w.Int => a == b
  | .float => floatEq infFloat
  | .double => floatEq infDouble
  | .string => fun a b : Bytes => a == b
  | .seq .vector .bool => fun a b : List Bool => a == b
  | _ => fun _ _ => false

mutual
def Ty.comparable : Ty → Bool
  | .pair a b => a.comparable && b.comparable
  | .tuple ts => ts.comparable
  | .seq _ e => e.comparable
  | .coll k e => (k == .set || k == .multiset) && e.comparable
  | .dict k key val => (k == .set || k == .multiset) && key.comparable && val.comparable
  | _ => true
def Tys.comparable : Tys → Bool
  | .nil => true
  | .cons t ts => t.comparable && ts.comparable
end

def Ty.hashable : Ty → Bool
  | .bool | .int _ _ | .enum _ _ | .float | .double | .string | .buffer => true
  | .seq .vector .bool => true
  | _ => false

mutual
/-- A value of the type can hold a buffer pointer. -/
def Ty.pointerful : Ty → Bool
  | .buffer => true
  | .pair a b => a.pointerful || b.pointerful
  | .tuple ts => ts.pointerful
  | .seq _ e => e.pointerful
  | .coll _ e => e.pointerful
  | .dict _ key val => key.pointerful || val.pointerful
  | _ => false
def Tys.pointerful : Tys → Bool
  | .nil => false
  | .cons t ts => t.pointerful || ts.pointerful
end

def Coll.keyed (k : Coll) (key : Ty) : Bool :=
  match k with
  | .set | .multiset => key.comparable
  | .unorderedSet | .unorderedMultiset => key.hashable

mutual
/-- The type exists: keys can be compared or hashed as their container asks. -/
def Ty.wellFormed : Ty → Bool
  | .pair a b => a.wellFormed && b.wellFormed
  | .tuple ts => ts.wellFormed
  | .seq _ e => e.wellFormed
  | .coll k e => k.keyed e && e.wellFormed
  | .dict k key val => k.keyed key && key.wellFormed && val.wellFormed
  | _ => true
def Tys.wellFormed : Tys → Bool
  | .nil => true
  | .cons t ts => t.wellFormed && ts.wellFormed
end

mutual
/-- The reader of the type compiles. The elements of a `std::vector<bool>` are proxies, and the loop
of the vector reader cannot bind a reference to one. -/
def Ty.instantiable : Ty → Bool
  | .pair a b => a.instantiable && b.instantiable
  | .tuple ts => ts.instantiable
  | .seq .vector .bool => false
  | .seq _ e => e.instantiable
  | .coll _ e => e.instantiable
  | .dict _ key val => key.instantiable && val.instantiable
  | _ => true
def Tys.instantiable : Tys → Bool
  | .nil => true
  | .cons t ts => t.instantiable && ts.instantiable
end

/-! ### Operators -/

def unitCodec : Codec Unit := ⟨(),fun _ b => b,fun _ b => some ((),b)⟩

mutual
def Ty.codec (P : Placement) : (t : Ty) → Codec t.Carrier
  | .bool => boolCodec
  | .int w _ => intCodec w
  | .enum w _ => intCodec w
  | .float => intCodec .w32
  | .double => intCodec .w64
  | .string => stringCodec
  | .buffer => stringCodec
  | .pair a b => pairCodec (a.codec P) (b.codec P)
  | .tuple ts => ts.codec P
  | .seq _ e => seqCodec (e.codec P)
  | .coll k e => collCodec (e.codec P) (k.emplace P e.pointerful e.lt e.eq)
  | .dict k key val => collCodec (pairCodec (key.codec P) (val.codec P))
      (k.emplace P key.pointerful (fun p q => key.lt p.1 q.1) fun p q => key.eq p.1 q.1)
def Tys.codec (P : Placement) : (ts : Tys) → Codec ts.Carrier
  | .nil => unitCodec
  | .cons t ts => pairCodec (t.codec P) (ts.codec P)
end

def Ty.write (P : Placement) (t : Ty) : t.Carrier → Buffer → Buffer := (t.codec P).write

def Ty.get (P : Placement) (t : Ty) (b : Buffer) : Option (t.Carrier × Buffer) :=
  if t.instantiable then (t.codec P).get b else none

/-! ### Values -/

mutual
/-- The values of a type: sizes within range, containers as their kind keeps them. -/
def Ty.Valid : (t : Ty) → t.Carrier → Prop
  | .string => fun s : Bytes => s.length < 2^64
  | .buffer => fun s : Bytes => s.length < 2^64
  | .pair a b => fun p : a.Carrier × b.Carrier => a.Valid p.1 ∧ b.Valid p.2
  | .tuple ts => ts.Valid
  | .seq _ e => fun l : List e.Carrier => l.length < 2^31 ∧ ∀ x ∈ l, e.Valid x
  | .coll k e => fun l : List e.Carrier => l.length < 2^31 ∧ k.Inv e.pointerful e.lt e.eq l ∧ ∀ x ∈ l, e.Valid x
  | .dict k key val => fun l : List (key.Carrier × val.Carrier) => l.length < 2^31 ∧
      k.Inv key.pointerful (fun p q => key.lt p.1 q.1) (fun p q => key.eq p.1 q.1) l ∧
      ∀ x ∈ l, key.Valid x.1 ∧ val.Valid x.2
  | .bool => fun _ => True
  | .int _ _ => fun _ => True
  | .enum _ _ => fun _ => True
  | .float => fun _ => True
  | .double => fun _ => True
def Tys.Valid : (ts : Tys) → ts.Carrier → Prop
  | .nil => fun _ => True
  | .cons t ts => fun p : t.Carrier × ts.Carrier => t.Valid p.1 ∧ ts.Valid p.2
end

mutual
/-- Equal values, unordered containers up to order. -/
def Ty.Same : (t : Ty) → t.Carrier → t.Carrier → Prop
  | .bool => Eq
  | .int _ _ => Eq
  | .enum _ _ => Eq
  | .float => Eq
  | .double => Eq
  | .string => Eq
  | .buffer => Eq
  | .pair a b => fun p q : a.Carrier × b.Carrier => a.Same p.1 q.1 ∧ b.Same p.2 q.2
  | .tuple ts => ts.Same
  | .seq _ e => List.Forall₂ e.Same
  | .coll k e => k.Same e.pointerful e.Same
  | .dict k key val => k.Same key.pointerful fun p q : key.Carrier × val.Carrier =>
    key.Same p.1 q.1 ∧ val.Same p.2 q.2
def Tys.Same : (ts : Tys) → ts.Carrier → ts.Carrier → Prop
  | .nil => Eq
  | .cons t ts => fun p q : t.Carrier × ts.Carrier => t.Same p.1 q.1 ∧ ts.Same p.2 q.2
end

/-! ### Types whose values are read back exactly -/

theorem eq_of_forall₂ {α : Type} {same : α → α → Prop} (h : ∀ {a b : α}, same a b → a = b) {l u : List α}
    (hl : List.Forall₂ same l u) : l = u := by
  induction hl with
  | nil => rfl
  | cons hab _ ih => rw [h hab,ih]

theorem Coll.eq_of_same {α : Type} {same : α → α → Prop} {k : Coll} (hk : (k == .set || k == .multiset) = true)
    (h : ∀ {a b : α}, same a b → a = b) {l u : List α} (hl : k.Same false same l u) : l = u := by
  cases k with
  | set => exact eq_of_forall₂ h hl
  | multiset => exact eq_of_forall₂ h hl
  | unorderedSet => cases hk
  | unorderedMultiset => cases hk

mutual
theorem Ty.eq_of_same_comparable : (t : Ty) → t.comparable = true → t.pointerful = false →
    ∀ {v w : t.Carrier}, t.Same v w → v = w
  | .bool,_,_,_,_,h => h
  | .int _ _,_,_,_,_,h => h
  | .enum _ _,_,_,_,_,h => h
  | .float,_,_,_,_,h => h
  | .double,_,_,_,_,h => h
  | .string,_,_,_,_,h => h
  | .buffer,_,_,_,_,h => h
  | .pair a b,hc,hp,_,_,h => by
    rw [Ty.comparable,Bool.and_eq_true] at hc
    rw [Ty.pointerful,Bool.or_eq_false_iff] at hp
    exact Prod.ext (a.eq_of_same_comparable hc.1 hp.1 h.1) (b.eq_of_same_comparable hc.2 hp.2 h.2)
  | .tuple ts,hc,hp,_,_,h => ts.eq_of_same_comparable hc hp h
  | .seq _ e,hc,hp,_,_,h => eq_of_forall₂ (e.eq_of_same_comparable hc hp) h
  | .coll k e,hc,hp,_,_,h => by
    rw [Ty.comparable,Bool.and_eq_true] at hc
    rw [Ty.pointerful] at hp
    rw [Ty.Same,hp] at h
    exact k.eq_of_same hc.1 (e.eq_of_same_comparable hc.2 hp) h
  | .dict k key val,hc,hp,_,_,h => by
    rw [Ty.comparable,Bool.and_eq_true,Bool.and_eq_true] at hc
    rw [Ty.pointerful,Bool.or_eq_false_iff] at hp
    rw [Ty.Same,hp.1] at h
    refine k.eq_of_same hc.1.1 ?_ h
    intro p q hpq
    exact Prod.ext (key.eq_of_same_comparable hc.1.2 hp.1 hpq.1) (val.eq_of_same_comparable hc.2 hp.2 hpq.2)
theorem Tys.eq_of_same_comparable : (ts : Tys) → ts.comparable = true → ts.pointerful = false →
    ∀ {v w : ts.Carrier}, ts.Same v w → v = w
  | .nil,_,_,_,_,h => h
  | .cons t ts,hc,hp,_,_,h => by
    rw [Tys.comparable,Bool.and_eq_true] at hc
    rw [Tys.pointerful,Bool.or_eq_false_iff] at hp
    exact Prod.ext (t.eq_of_same_comparable hc.1 hp.1 h.1) (ts.eq_of_same_comparable hc.2 hp.2 h.2)
end

theorem Ty.comparable_of_hashable {t : Ty} (h : t.hashable = true) : t.comparable = true := by
  cases t with
  | seq c e =>
    cases c <;> cases e <;> first | rfl | cases h
  | pair a b => cases h
  | tuple ts => cases h
  | coll k e => cases h
  | dict k key val => cases h
  | _ => rfl

theorem Coll.eq_of_keyed {k : Coll} {key : Ty} (hk : k.keyed key = true) (hp : key.pointerful = false)
    {v w : key.Carrier} (h : key.Same v w) : v = w := by
  refine key.eq_of_same_comparable ?_ hp h
  cases k with
  | set => exact hk
  | multiset => exact hk
  | unorderedSet => exact Ty.comparable_of_hashable hk
  | unorderedMultiset => exact Ty.comparable_of_hashable hk

/-! ### The operators of every type are lawful -/

theorem unitCodec_lawful : unitCodec.Lawful (fun _ => True) Eq where
  write_readable v b := by simp [unitCodec,Codec.bytesOf]
  read_back v rest b _ hb := ⟨(),b,rfl,rfl,by simpa [unitCodec,Codec.bytesOf] using hb⟩

mutual
theorem Ty.codec_lawful (P : Placement) : (t : Ty) → t.wellFormed = true → (t.codec P).Lawful t.Valid t.Same
  | .bool,_ => boolCodec_lawful
  | .int w _,_ => intCodec_lawful w
  | .enum w _,_ => intCodec_lawful w
  | .float,_ => intCodec_lawful .w32
  | .double,_ => intCodec_lawful .w64
  | .string,_ => stringCodec_lawful
  | .buffer,_ => stringCodec_lawful
  | .pair a b,h => by
    rw [Ty.wellFormed,Bool.and_eq_true] at h
    exact pairCodec_lawful (a.codec_lawful P h.1) (b.codec_lawful P h.2)
  | .tuple ts,h => ts.codec_lawful P h
  | .seq _ e,h => seqCodec_lawful (e.codec_lawful P h)
  | .coll k e,h => by
    rw [Ty.wellFormed,Bool.and_eq_true] at h
    refine collCodec_lawful P (e.codec_lawful P h.2) ?_
    intro hp a b u v hau hbv
    rw [Coll.eq_of_keyed h.1 hp hau,Coll.eq_of_keyed h.1 hp hbv]
    exact ⟨rfl,rfl⟩
  | .dict k key val,h => by
    rw [Ty.wellFormed,Bool.and_eq_true,Bool.and_eq_true] at h
    refine collCodec_lawful P (pairCodec_lawful (key.codec_lawful P h.1.2) (val.codec_lawful P h.2)) ?_
    intro hp a b u v hau hbv
    rw [Coll.eq_of_keyed h.1.1 hp hau.1,Coll.eq_of_keyed h.1.1 hp hbv.1]
    exact ⟨rfl,rfl⟩
theorem Tys.codec_lawful (P : Placement) : (ts : Tys) → ts.wellFormed = true → (ts.codec P).Lawful ts.Valid ts.Same
  | .nil,_ => unitCodec_lawful
  | .cons t ts,h => by
    rw [Tys.wellFormed,Bool.and_eq_true] at h
    exact pairCodec_lawful (t.codec_lawful P h.1) (ts.codec_lawful P h.2)
end

/-- Whatever follows a written value, reading its type gives the value back and leaves the rest. -/
theorem get_after_write (P : Placement) (t : Ty) (hwf : t.wellFormed = true) (hread : t.instantiable = true)
    (v : t.Carrier) (hv : t.Valid v) (suffix : Bytes) (b : Buffer)
    (hb : b.readable = (t.write P v (Buffer.new 64)).readable++suffix) :
    ∃ u b', t.get P b = some (u,b') ∧ t.Same v u ∧ b'.readable = suffix := by
  rw [Ty.get,if_pos hread]
  exact (t.codec_lawful P hwf).read_back v suffix b hv hb

def frontPlacement : Placement := ⟨List.cons,fun _ _ => .rfl⟩

/-- A map from pairs to sets of strings, followed by a byte. -/
def sampleTy : Ty := .dict .set (.pair (.int .w16 true) .bool) (.coll .unorderedSet .string)

def sampleMap : List ((BitVec 16 × Bool) × List Bytes) := [((0xffff#16,true),[[97],[]]),((5#16,false),[])]

def sampleValue : sampleTy.Carrier := sampleMap

theorem get_after_write_sample :
    ∃ u b', sampleTy.get frontPlacement ((sampleTy.write frontPlacement sampleValue (Buffer.new 64)).append [7])
      = some (u,b') ∧ sampleTy.Same sampleValue u ∧ b'.readable = [7] := by
  have hdistinct : ([[97],[]] : List Bytes).Pairwise fun a b => (a == b) = false := by decide
  have hshort : ∀ x ∈ ([[97],[]] : List Bytes), x.length < 2^64 := by decide
  have hset : Ty.Valid (.coll .unorderedSet .string) ([[97],[]] : List Bytes) := ⟨by decide,fun _ => hdistinct,hshort⟩
  have hempty : Ty.Valid (.coll .unorderedSet .string) ([] : List Bytes) :=
    ⟨by decide,fun _ => .nil,fun _ hx => nomatch hx⟩
  have hsorted : sampleMap.Pairwise fun p q => pairLt (intLt true) (fun a b => !a && b) p.1 q.1 = true := by decide
  have hparts : ∀ x ∈ sampleMap, (True ∧ True) ∧ Ty.Valid (.coll .unorderedSet .string) x.2 := by
    intro x hx
    rcases List.mem_cons.mp hx with rfl | hx
    · exact ⟨⟨trivial,trivial⟩,hset⟩
    · rw [List.mem_singleton.mp hx]
      exact ⟨⟨trivial,trivial⟩,hempty⟩
  have hvalid : sampleTy.Valid sampleValue :=
    ⟨by decide,fun _ => hsorted,hparts⟩
  exact get_after_write frontPlacement sampleTy (by decide) (by decide) sampleValue hvalid [7] _
    (Buffer.readable_append _ _)

/-- A vector of booleans is written but has no reader. -/
theorem vector_bool_not_read_back :
    ∃ (t : Ty) (v : t.Carrier) (b : Buffer), t.wellFormed = true ∧ t.Valid v ∧
      b.readable = (t.write frontPlacement v (Buffer.new 64)).readable++[] ∧
      ¬∃ u b', t.get frontPlacement b = some (u,b') ∧ t.Same v u ∧ b'.readable = [] := by
  refine ⟨.seq .vector .bool,[true],Ty.write frontPlacement (.seq .vector .bool) [true] (Buffer.new 64),rfl,
    ⟨by decide,fun _ _ => trivial⟩,(List.append_nil _).symm,?_⟩
  rintro ⟨u,b',hget,-⟩
  cases hget

end FarMemory.Rpc
