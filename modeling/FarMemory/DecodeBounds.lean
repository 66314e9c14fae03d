import FarMemory.RemoteCall

/-!
# Decoding what was received

The readers of the RPC layer ask the buffer for some bytes, and what they find decides
how they go on. The buffer gives them out and moves its read position without a look at
the write position: behind the bytes that were received lies other memory, and behind a
buffer that was drained lie the bytes from its start. Memory for what the lengths announce
is taken to be there. The readers stay within the received bytes exactly if these start
with an encoding of what is read.
-/
namespace FarMemory.Rpc
open RemoteCall (Router Fn)

/-- A reader, as the reads it makes. It fails where a loop counter overflows. -/
inductive Decoder (α : Type)
  | fail
  | done (x : α)
  | need (n : ℕ) (k : Bytes → Decoder α)

/-- `rpc::Buffer` with whatever lies behind it. `within` says that no read has gone past
the write position. -/
structure RawBuffer where
  mem : ℕ → UInt8
  writePos : ℕ
  readPos : ℕ
  within : Bool

namespace RawBuffer

def bytes (b : RawBuffer) (n : ℕ) : Bytes := (List.range n).map fun i => b.mem (b.readPos+i)

def hasRead (b : RawBuffer) (n : ℕ) : RawBuffer :=
  let readPos := (b.readPos+n)%2^64
  let within := b.within && decide (b.readPos+n ≤ b.writePos)
  if readPos = b.writePos then ⟨b.mem,0,0,within⟩ else ⟨b.mem,b.writePos,readPos,within⟩

/-- The buffer is as it should be, and these are its readable bytes. -/
structure Holds (b : RawBuffer) (bs : Bytes) : Prop where
  within : b.within = true
  length : b.readPos+bs.length = b.writePos
  bound : b.writePos < 2^64
  slots : ∀ i < bs.length, bs[i]? = some (b.mem (b.readPos+i))

end RawBuffer

namespace Decoder
variable {α β : Type}

def bind : Decoder α → (α → Decoder β) → Decoder β
  | .fail,_ => .fail
  | .done x,k => k x
  | .need n d,k => .need n fun bs => (d bs).bind k

/-- `Serializer::ReadRaw` and the integer reads on the buffer as it is. -/
def run : Decoder α → RawBuffer → Option (α × RawBuffer)
  | .fail,_ => none
  | .done x,b => some (x,b)
  | .need n k,b => (k (b.bytes n)).run (b.hasRead n)

/-- The same reads, if there are as many bytes. -/
def parse : Decoder α → Bytes → Option (α × Bytes)
  | .fail,_ => none
  | .done x,bs => some (x,bs)
  | .need n k,bs => if n ≤ bs.length then (k (bs.take n)).parse (bs.drop n) else none

/-- The reader comes to its end without having left the received bytes. -/
def StaysWithin (d : Decoder α) (b : RawBuffer) : Prop :=
  ∃ x b', d.run b = some (x,b') ∧ b'.within = true ∧ b'.readPos ≤ b'.writePos

end Decoder

section Bounds
variable {α : Type} {b b' : RawBuffer} {bs : Bytes} {n : ℕ}

theorem RawBuffer.hasRead_within (b : RawBuffer) (n : ℕ) :
    (b.hasRead n).within = (b.within && decide (b.readPos+n ≤ b.writePos)) := by
  unfold hasRead
  dsimp only
  split <;> rfl

theorem RawBuffer.Holds.bytes (h : b.Holds bs) (hn : n ≤ bs.length) : b.bytes n = bs.take n := by
  refine List.ext_getElem? fun i => ?_
  rw [RawBuffer.bytes,List.getElem?_map,List.getElem?_take]
  by_cases hi : i < n
  · rw [List.getElem?_range hi,if_pos hi,h.slots i (by omega)]
    rfl
  · rw [if_neg hi,List.getElem?_eq_none (by simpa using hi)]
    rfl

theorem RawBuffer.Holds.hasRead (h : b.Holds bs) (hn : n ≤ bs.length) : (b.hasRead n).Holds (bs.drop n) := by
  have hlen := h.length
  have hbound := h.bound
  have hwithin : (b.hasRead n).within = true := by
    rw [hasRead_within,h.within,Bool.true_and]
    exact decide_eq_true (by omega)
  have hpos : (b.readPos+n)%2^64 = b.readPos+n := Nat.mod_eq_of_lt (by omega)
  rw [RawBuffer.hasRead,hpos] at hwithin ⊢
  by_cases hend : b.readPos+n = b.writePos
  · rw [if_pos hend] at hwithin ⊢
    have hnil : bs.drop n = [] := List.drop_eq_nil_of_le (by omega)
    exact ⟨hwithin,by rw [hnil]; rfl,Nat.two_pow_pos 64,by simp [hnil]⟩
  · rw [if_neg hend] at hwithin ⊢
    refine ⟨hwithin,?_,hbound,fun i hi => ?_⟩
    · rw [List.length_drop]
      change b.readPos+n+_ = b.writePos
      omega
    · rw [List.length_drop] at hi
      rw [List.getElem?_drop,h.slots (n+i) (by omega)]
      exact congrArg (fun j => some (b.mem j)) (Nat.add_assoc ..).symm

theorem Decoder.run_within {d : Decoder α} {x : α} (h : d.run b = some (x,b')) (hb : b'.within = true) :
    b.within = true := by
  induction d generalizing b with
  | fail => cases h
  | done y =>
    cases h
    exact hb
  | need n k ih =>
    have := ih _ h
    rw [RawBuffer.hasRead_within,Bool.and_eq_true] at this
    exact this.1

theorem Decoder.staysWithin_iff {d : Decoder α} (h : b.Holds bs) : d.StaysWithin b ↔ ∃ r, d.parse bs = some r := by
  induction d generalizing b bs with
  | fail =>
    constructor
    · rintro ⟨x,b',hrun,-⟩
      cases hrun
    · rintro ⟨r,hr⟩
      cases hr
  | done y => exact ⟨fun _ => ⟨_,rfl⟩,fun _ => ⟨y,b,rfl,h.within,by have := h.length; omega⟩⟩
  | need n k ih =>
    by_cases hn : n ≤ bs.length
    · rw [parse,if_pos hn,← ih _ (h.hasRead hn),← h.bytes hn]
      rfl
    · rw [parse,if_neg hn]
      constructor
      · rintro ⟨x,b',hrun,hin,-⟩
        have := run_within (d := k (b.bytes n)) hrun hin
        rw [RawBuffer.hasRead_within,Bool.and_eq_true,decide_eq_true_eq] at this
        have := h.length
        omega
      · rintro ⟨r,hr⟩
        cases hr

end Bounds

/-! ### The readers -/

def decodedSize (s : Bytes) : ℕ := ((decode .w64 s).getD 0).toNat

namespace Decoder
variable {α β : Type}

def int (w : Width) : Decoder w.Int := .need w.size fun bs => .done ((decode w bs).getD 0)

def bool : Decoder Bool := .need 1 fun bs => .done ((decode .w8 bs).getD 0 != 0)

def size : Decoder ℕ := .need 8 fun s => .done (decodedSize s)

def string : Decoder Bytes := size.bind fun n => .need n .done

def pair (d : Decoder α) (e : Decoder β) : Decoder (α × β) := d.bind fun x => e.bind fun y => .done (x,y)

def each (d : α → Decoder α) : List α → Decoder (List α)
  | [] => .done []
  | x::l => (d x).bind fun y => (each d l).bind fun l => .done (y::l)

def seq (init : α) (d : α → Decoder α) (old : List α) : Decoder (List α) :=
  size.bind fun n => each d (resize init old n)

def inserting (d : Decoder α) (emplace : α → List α → List α) : ℕ → List α → Decoder (List α)
  | 0,s => .done s
  | n+1,s => d.bind fun x => inserting d emplace n (emplace x s)

def coll (d : Decoder α) (emplace : α → List α → List α) (old : List α) : Decoder (List α) :=
  size.bind fun n => if n < 2^31 then inserting d emplace n old else .fail

end Decoder

mutual
def Ty.decoder (P : Placement) : (t : Ty) → t.Carrier → Decoder t.Carrier
  | .bool => fun _ => Decoder.bool
  | .int w _ => fun _ => Decoder.int w
  | .enum w _ => fun _ => Decoder.int w
  | .float => fun _ => Decoder.int .w32
  | .double => fun _ => Decoder.int .w64
  | .string => fun _ => Decoder.string
  | .buffer => fun _ => Decoder.string
  | .pair a b => fun p : a.Carrier × b.Carrier => Decoder.pair (a.decoder P p.1) (b.decoder P p.2)
  | .tuple ts => ts.decoder P
  | .seq _ e => Decoder.seq (e.codec P).init (e.decoder P)
  | .coll k e => Decoder.coll (e.decoder P (e.codec P).init) (k.emplace P e.pointerful e.lt e.eq)
  | .dict k key val => Decoder.coll
      (Decoder.pair (key.decoder P (key.codec P).init) (val.decoder P (val.codec P).init))
      (k.emplace P key.pointerful (fun p q => key.lt p.1 q.1) fun p q => key.eq p.1 q.1)
def Tys.decoder (P : Placement) : (ts : Tys) → ts.Carrier → Decoder ts.Carrier
  | .nil => fun _ => .done ()
  | .cons t ts => fun p : t.Carrier × ts.Carrier => Decoder.pair (t.decoder P p.1) (ts.decoder P p.2)
end

/-- `process_call` and `RpcRouter::Call` up to the call of the function: the name, and the
arguments of the function that is registered under it. -/
def decodeCall {δ : Type} (P : Placement) (R : Router δ) : Decoder (Bytes × Option (Σ f : Fn δ, f.args.Carrier)) :=
  Decoder.string.bind fun method =>
    match R.find method with
    | none => .done (method,none)
    | some f => (f.args.decoder P (f.args.codec P).init).bind fun args => .done (method,some ⟨f,args⟩)

/-- The body in the buffer made for it; behind it lies what `junk` says. -/
def received (body : Bytes) (junk : ℕ → UInt8) : RawBuffer :=
  ⟨fun i => (body[i]?).getD (junk i),body.length,0,true⟩

/-! ### What they accept -/

def bytesOfLength (n : ℕ) : Language UInt8 := {w | w.length = n}

/-- A length of eight bytes, and what belongs to it. -/
def sized (L : ℕ → Language UInt8) : Language UInt8 := {w | ∃ s v, s.length = 8 ∧ v ∈ L (decodedSize s) ∧ s++v = w}

mutual
/-- The encodings of the values of a type. -/
def Ty.encodings : Ty → Language UInt8
  | .bool => bytesOfLength 1
  | .int w _ => bytesOfLength w.size
  | .enum w _ => bytesOfLength w.size
  | .float => bytesOfLength 4
  | .double => bytesOfLength 8
  | .string => sized bytesOfLength
  | .buffer => sized bytesOfLength
  | .pair a b => a.encodings*b.encodings
  | .tuple ts => ts.encodings
  | .seq _ e => sized fun n => e.encodings^n
  | .coll _ e => sized fun n => if n < 2^31 then e.encodings^n else 0
  | .dict _ key val => sized fun n => if n < 2^31 then (key.encodings*val.encodings)^n else 0
def Tys.encodings : Tys → Language UInt8
  | .nil => 1
  | .cons t ts => t.encodings*ts.encodings
end

/-- The body starts with a name, and with the arguments of a function of that name. -/
def IsCall {δ : Type} (R : Router δ) (body : Bytes) : Prop :=
  ∃ s name rest, s.length = 8 ∧ decodedSize s = name.length ∧ s++(name++rest) = body ∧
    ∀ f, R.find name = some f → ∃ w ∈ f.args.encodings, ∃ rest', w++rest' = rest

namespace Decoder
variable {α β : Type} {d : Decoder α} {L M : Language UInt8}

/-- Reading takes an encoding off the front, and every encoding can be read. -/
def Spells (d : Decoder α) (L : Language UInt8) : Prop :=
  ∀ bs rest, (∃ x, d.parse bs = some (x,rest)) ↔ ∃ w ∈ L, w++rest = bs

theorem parse_bind (d : Decoder α) (k : α → Decoder β) (bs : Bytes) :
    (d.bind k).parse bs = (d.parse bs).bind fun r => (k r.1).parse r.2 := by
  induction d generalizing bs with
  | fail => rfl
  | done x => rfl
  | need n d ih =>
    rw [bind,parse,parse]
    split
    · exact ih _ _
    · rfl

theorem spells_done (x : α) : (Decoder.done x).Spells 1 := by
  intro bs rest
  constructor
  · rintro ⟨y,hy⟩
    cases hy
    exact ⟨[],Language.nil_mem_one,rfl⟩
  · rintro ⟨w,hw,rfl⟩
    rw [(Language.mem_one w).mp hw]
    exact ⟨x,rfl⟩

theorem spells_need (n : ℕ) (f : Bytes → α) : (Decoder.need n fun bs => .done (f bs)).Spells (bytesOfLength n) := by
  intro bs rest
  simp only [parse]
  constructor
  · rintro ⟨x,hx⟩
    obtain ⟨hn,hx⟩ := Option.ite_none_right_eq_some.mp hx
    cases hx
    exact ⟨bs.take n,List.length_take_of_le hn,List.take_append_drop n bs⟩
  · rintro ⟨w,rfl,rfl⟩
    rw [if_pos (by simp),List.drop_left]
    exact ⟨_,rfl⟩

theorem Spells.bind (hd : d.Spells L) {k : α → Decoder β} (hk : ∀ x, (k x).Spells M) : (d.bind k).Spells (L*M) := by
  intro bs rest
  rw [parse_bind]
  constructor
  · rintro ⟨y,hy⟩
    obtain ⟨⟨x,mid⟩,hx,hx'⟩ := Option.bind_eq_some_iff.mp hy
    obtain ⟨w,hw,rfl⟩ := (hd bs mid).mp ⟨x,hx⟩
    obtain ⟨v,hv,rfl⟩ := (hk x mid rest).mp ⟨y,hx'⟩
    exact ⟨w++v,Language.append_mem_mul hw hv,List.append_assoc ..⟩
  · rintro ⟨wv,hwv,rfl⟩
    obtain ⟨w,hw,v,hv,rfl⟩ := Language.mem_mul.mp hwv
    obtain ⟨x,hx⟩ := (hd (w++(v++rest)) (v++rest)).mpr ⟨w,hw,rfl⟩
    obtain ⟨y,hy⟩ := (hk x (v++rest) rest).mpr ⟨v,hv,rfl⟩
    refine ⟨y,?_⟩
    rw [List.append_assoc,hx]
    exact hy

theorem Spells.map (hd : d.Spells L) (f : α → β) : (d.bind fun x => .done (f x)).Spells L := by
  have := hd.bind fun x => spells_done (f x)
  rwa [mul_one] at this

theorem Spells.pair {e : Decoder β} (hd : d.Spells L) (he : e.Spells M) : (Decoder.pair d e).Spells (L*M) :=
  hd.bind fun x => he.map (Prod.mk x)

theorem spells_sized {k : ℕ → Decoder α} {L : ℕ → Language UInt8} (hk : ∀ n, (k n).Spells (L n)) :
    (size.bind k).Spells (sized L) := by
  intro bs rest
  change (∃ x, (if 8 ≤ bs.length then (k (decodedSize (bs.take 8))).parse (bs.drop 8) else none) = _) ↔ _
  constructor
  · rintro ⟨x,hx⟩
    obtain ⟨h8,hx⟩ := Option.ite_none_right_eq_some.mp hx
    obtain ⟨v,hv,heq⟩ := (hk _ _ _).mp ⟨x,hx⟩
    refine ⟨bs.take 8++v,⟨_,v,List.length_take_of_le h8,hv,rfl⟩,?_⟩
    rw [List.append_assoc,heq,List.take_append_drop]
  · rintro ⟨_,⟨s,v,hs,hv,rfl⟩,rfl⟩
    obtain ⟨x,hx⟩ := (hk (decodedSize s) (v++rest) rest).mpr ⟨v,hv,rfl⟩
    refine ⟨x,?_⟩
    rw [List.append_assoc,if_pos (by simp [hs]),List.take_left' hs,List.drop_left' hs,hx]

theorem spells_string : string.Spells (sized bytesOfLength) := spells_sized fun n => spells_need n id

theorem spells_each {d : α → Decoder α} (hd : ∀ x, (d x).Spells L) (l : List α) : (each d l).Spells (L^l.length) := by
  induction l with
  | nil => exact spells_done []
  | cons x l ih =>
    rw [List.length_cons,pow_succ']
    exact (hd x).bind fun y => ih.map (y::·)

theorem spells_seq {d : α → Decoder α} (hd : ∀ x, (d x).Spells L) (init : α) (old : List α) :
    (seq init d old).Spells (sized fun n => L^n) := by
  refine spells_sized fun n => ?_
  have hlen : (resize init old n).length = n := by
    simp only [resize,List.length_append,List.length_take,List.length_replicate]
    omega
  have := spells_each hd (resize init old n)
  rwa [hlen] at this

theorem spells_inserting (hd : d.Spells L) (emplace : α → List α → List α) (n : ℕ) (s : List α) :
    (inserting d emplace n s).Spells (L^n) := by
  induction n generalizing s with
  | zero => exact spells_done s
  | succ n ih =>
    rw [pow_succ']
    exact hd.bind fun x => ih _

theorem spells_coll (hd : d.Spells L) (emplace : α → List α → List α) (old : List α) :
    (coll d emplace old).Spells (sized fun n => if n < 2^31 then L^n else 0) := by
  refine spells_sized fun n => ?_
  split
  · exact spells_inserting hd emplace n old
  · intro bs rest
    constructor
    · rintro ⟨x,hx⟩
      cases hx
    · rintro ⟨w,hw,-⟩
      exact absurd hw (Language.notMem_zero w)

end Decoder

open Decoder

mutual
theorem Ty.decoder_spells (P : Placement) : (t : Ty) → ∀ old, (t.decoder P old).Spells t.encodings
  | .bool,_ => spells_need _ _
  | .int _ _,_ => spells_need _ _
  | .enum _ _,_ => spells_need _ _
  | .float,_ => spells_need _ _
  | .double,_ => spells_need _ _
  | .string,_ => spells_string
  | .buffer,_ => spells_string
  | .pair a b,p => (a.decoder_spells P p.1).pair (b.decoder_spells P p.2)
  | .tuple ts,old => ts.decoder_spells P old
  | .seq _ e,old => spells_seq (e.decoder_spells P) _ old
  | .coll _ e,old => spells_coll (e.decoder_spells P _) _ old
  | .dict _ key val,old => spells_coll ((key.decoder_spells P _).pair (val.decoder_spells P _)) _ old
theorem Tys.decoder_spells (P : Placement) : (ts : Tys) → ∀ old, (ts.decoder P old).Spells ts.encodings
  | .nil,_ => spells_done _
  | .cons t ts,p => (t.decoder_spells P p.1).pair (ts.decoder_spells P p.2)
end

section Calls
variable {δ : Type} {P : Placement} {R : Router δ} {body : Bytes}

theorem received_holds (junk : ℕ → UInt8) (h : body.length < 2^64) : (received body junk).Holds body :=
  ⟨rfl,Nat.zero_add _,h,fun i hi => by simp [received,List.getElem?_eq_getElem hi]⟩

theorem parse_string {name rest : Bytes} : string.parse body = some (name,rest) ↔
    ∃ s, s.length = 8 ∧ decodedSize s = name.length ∧ s++(name++rest) = body := by
  change (if 8 ≤ body.length then if decodedSize (body.take 8) ≤ (body.drop 8).length then
    some ((body.drop 8).take (decodedSize (body.take 8)),(body.drop 8).drop (decodedSize (body.take 8))) else none else none) = _ ↔ _
  constructor
  · intro h
    obtain ⟨h8,h⟩ := Option.ite_none_right_eq_some.mp h
    split at h
    · rename_i hn
      cases h
      refine ⟨body.take 8,List.length_take_of_le h8,(List.length_take_of_le hn).symm,?_⟩
      rw [List.take_append_drop,List.take_append_drop]
    · cases h
  · rintro ⟨s,hs,hname,rfl⟩
    rw [if_pos (by simp [hs]),List.take_left' hs,List.drop_left' hs,hname,if_pos (by simp),List.take_left,List.drop_left]

theorem parse_decodeCall : (∃ r, (decodeCall P R).parse body = some r) ↔ IsCall R body := by
  rw [decodeCall,parse_bind]
  constructor
  · rintro ⟨r,hr⟩
    obtain ⟨⟨name,rest⟩,hname,hargs⟩ := Option.bind_eq_some_iff.mp hr
    obtain ⟨s,hs,hlen,heq⟩ := parse_string.mp hname
    refine ⟨s,name,rest,hs,hlen,heq,fun f hf => ?_⟩
    simp only [hf] at hargs
    obtain ⟨w,hw,hrest⟩ := ((f.args.decoder_spells P _).map _ rest r.2).mp ⟨r.1,hargs⟩
    exact ⟨w,hw,r.2,hrest⟩
  · rintro ⟨s,name,rest,hs,hlen,heq,hargs⟩
    rw [parse_string.mpr ⟨s,hs,hlen,heq⟩,Option.bind_some]
    cases hf : R.find name with
    | none => exact ⟨_,rfl⟩
    | some f =>
      obtain ⟨w,hw,rest',hrest⟩ := hargs f hf
      obtain ⟨x,hx⟩ := ((f.args.decoder_spells P (f.args.codec P).init).map
        (fun args => (name,some (⟨f,args⟩ : Σ f : Fn δ, f.args.Carrier))) rest rest').mpr ⟨w,hw,hrest⟩
      exact ⟨_,hx⟩

/-- For every body that arrives, whatever lies behind it: the name and the arguments are
read within the received bytes, and the read position ends at most at the write position,
exactly if the body starts with a name and the arguments of the function it names. Nothing
else is an error to the readers. -/
theorem reads_within_iff {δ : Type} (P : Placement) (R : Router δ) (body : Bytes) (junk : ℕ → UInt8)
    (h : body.length < 2^16) : (decodeCall P R).StaysWithin (received body junk) ↔ IsCall R body := by
  rw [staysWithin_iff (received_holds junk (by omega))]
  exact parse_decodeCall

/-- A complete call of the function with two arguments. -/
theorem reads_within_iff_add : (decodeCall frontPlacement RemoteCall.addRouter).StaysWithin
    (received ([0,0,0,0,0,0,0,3]++RemoteCall.addName++[0,0,0,2,0,0,0,3]) fun _ => 0) := by
  refine (reads_within_iff _ _ _ _ (by decide)).mpr
    ⟨[0,0,0,0,0,0,0,3],RemoteCall.addName,[0,0,0,2,0,0,0,3],rfl,by decide,rfl,fun f hf => ?_⟩
  cases hf
  refine ⟨[0,0,0,2,0,0,0,3],?_,[],rfl⟩
  exact Language.append_mem_mul (a := [0,0,0,2]) rfl (Language.append_mem_mul (a := [0,0,0,3]) rfl Language.nil_mem_one)

/-- Half of the second argument is missing. It is read from behind the body: the function
gets what lay there, and the read position ends two bytes behind the write position. -/
theorem missing_bytes_read :
    let body : Bytes := [0,0,0,0,0,0,0,3]++RemoteCall.addName++[0,0,0,2,0,0]
    ∃ (args : RemoteCall.add.args.Carrier) (b : RawBuffer),
      (decodeCall frontPlacement RemoteCall.addRouter).run (received body fun _ => 7) =
        some ((RemoteCall.addName,some ⟨RemoteCall.add,args⟩),b) ∧
      RemoteCall.addInts args = 0x0709#32 ∧ b.readPos = 19 ∧ b.writePos = 17 ∧
      ¬ (decodeCall frontPlacement RemoteCall.addRouter).StaysWithin (received body fun _ => 7) := by
  refine ⟨((2#32,0x0707#32,()) : BitVec 32 × BitVec 32 × Unit),_,rfl,rfl,rfl,rfl,?_⟩
  rintro ⟨x,b,hrun,hin,-⟩
  cases hrun
  cases hin

end Calls

end FarMemory.Rpc
