import FarMemory.DeviceWire
import FarMemory.RpcSerializer

/-!
# Calling a registered function over the network

The client sends the method's name and the written arguments as the body of one
message. The server reads the name, looks it up among the functions registered for the
data structure, reads the arguments, runs the function and sends back an error code
and the written result. Between the name and the arguments, and between the error code
and the result, there is nothing but the position in a shared buffer, which starts over
when it is drained.
-/
namespace FarMemory.RemoteCall
open ByteStore WireBuffer DeviceWire
open Rpc hiding Bytes

/-- Nothing, or a value of the type. -/
def RetCarrier : Option Ty → Type
  | none => Unit
  | some t => {v : t.Carrier // t.Valid v}

/-- A function with its types, for which both ends compile. It may change the data structure. -/
structure Fn (δ : Type) where
  args : Tys
  ret : Option Ty
  args_wf : args.wellFormed = true
  args_read : args.instantiable = true
  ret_wf : ∀ t ∈ ret, t.wellFormed = true
  ret_read : ∀ t ∈ ret, t.instantiable = true
  run : δ → args.Carrier → RetCarrier ret × δ

/-! ### The router and the server -/

abbrev Router (δ : Type) := List (Bytes × Fn δ)

variable {δ : Type}

/-- A name that is taken keeps its function. -/
def Router.register (R : Router δ) (name : Bytes) (f : Fn δ) : Router δ :=
  if R.any (·.1 == name) then R else R++[(name,f)]

def Router.find (R : Router δ) (method : Bytes) : Option (Fn δ) :=
  (R.find? (·.1 == method)).map Prod.snd

def kSuccess : Width.w32.Int := 0#32
def kMethodNotFound : Width.w32.Int := 1#32

def Fn.get (P : Placement) (f : Fn δ) (b : Buffer) : Option (f.args.Carrier × Buffer) :=
  if f.args.instantiable then (f.args.codec P).get b else none

def writeRet (P : Placement) : (t : Option Ty) → RetCarrier t → Buffer
  | none,_ => Buffer.new 0
  | some t,r => t.write P r.1 (Buffer.new 64)

def Router.call (P : Placement) (R : Router δ) (d : δ) (method : Bytes) (args : Buffer) :
    Option ((Width.w32.Int × Buffer) × δ) :=
  match R.find method with
  | none => some ((kMethodNotFound,Buffer.new 0),d)
  | some f =>
    match f.get P args with
    | none => none
    | some (u,_) => some ((kSuccess,writeRet P f.ret (f.run d u).1),(f.run d u).2)

/-- The error code, then what the function returned. -/
def arrayReply (code : Width.w32.Int) (ret : Buffer) : Buffer :=
  ((intCodec .w32).write code (Buffer.new (4+ret.readableBytes))).append ret.readable

def arrayCall (P : Placement) (R : Router δ) (d : δ) (method : Bytes) (args : Buffer) :
    Option (Buffer × δ) :=
  (R.call P d method args).map fun r => (arrayReply r.1.1 r.1.2,r.2)

/-- Arrays have a router. The call of any other data structure leaves no reply to send. -/
def withRouters (P : Placement) (router : δ → Option (Router δ)) (V : ServerDS δ) : ServerDS δ :=
  {V with call := fun d method args => (router d).bind fun R => arrayCall P R d method args}

/-! ### The client -/

def serializeArgs (P : Placement) (ts : Tys) (a : ts.Carrier) : Buffer :=
  match ts with
  | .nil => Buffer.new 0
  | .cons t ts => ((Tys.cons t ts).codec P).write a (Buffer.new 64)

def callBody (method : Bytes) (args : Buffer) : Buffer :=
  (stringCodec.write method (Buffer.new 64)).append args.readable

def callMsg (nz : Noise) (dsId : UInt8) (method : Bytes) (args : Buffer) : Option Bytes := do
  let bodyLen := (callBody method args).readableBytes%2^16
  let req ← Buf.fill ⟨kOpcodeSize+kDSIDSize+2,nz.req⟩
    [(0,[kOpCall]),(kOpcodeSize,[dsId]),(kOpcodeSize+kDSIDSize,encodeLen bodyLen)]
  let header ← req.front (kOpcodeSize+kDSIDSize+2)
  some (header++(callBody method args).readable.take bodyLen)

/-- The reply as a buffer whose error code has been read, and whether the call succeeded. -/
def receiveRet (down : Bytes) : Option ((Bool × Option Buffer) × Bytes) := do
  let (d,down) ← receiveData down
  if d.1.length = 0 then some ((false,none),down) else do
    let (code,ret) ← (intCodec .w32).get ((Buffer.new d.1.length).append d.1)
    some ((code == kSuccess,some ret),down)

def remoteCall (V : ServerDS δ) (nz : Noise) (w : Wire δ) (dsId : UInt8) (method : Bytes) (args : Buffer) :
    Option ((Bool × Option Buffer) × Wire δ) := do
  let msg ← callMsg nz dsId method args
  let (out,S,up) ← slaveFn V nz w.server (w.up++msg)
  let (r,down) ← receiveRet (w.down++out)
  some (r,⟨S,up,down⟩)

def getReturnValueFromBuffer (P : Placement) (t : Ty) (ret : Buffer) : Option t.Carrier := (t.get P ret).map Prod.fst

/-! ### The messages -/

/-- What is sent of a buffer, whose length is narrowed to 16 bits. -/
def sent (b : Buffer) : Bytes := b.readable.take (b.readableBytes%2^16)

/-- What `process_call` hands to the server: the name, and the buffer behind it. -/
def handed (method : Bytes) (args : Buffer) : Option (Bytes × Buffer) :=
  stringCodec.get ((Buffer.new (sent (callBody method args)).length).append (sent (callBody method args)))

/-- What the client makes of a reply. -/
def returned (reply : Buffer) : Option (Bool × Option Buffer) :=
  (receiveRet (encodeLen (reply.readableBytes%2^16)++sent reply)).map Prod.fst

section
variable {P : Placement} {V : ServerDS δ} {nz : Noise} {S : Server δ} {dsId : UInt8} {method : Bytes} {args : Buffer}

theorem readable_callBody : (callBody method args).readable = sizeBytes method.length++(method++args.readable) := by
  simp [callBody,stringCodec]

theorem sent_length (b : Buffer) : (sent b).length = b.readableBytes%2^16 := by
  rw [sent,List.length_take,Buffer.readable_length]
  exact Nat.min_eq_left (Nat.mod_le _ _)

theorem sent_lt (b : Buffer) : (sent b).length < 2^16 := (sent_length b).trans_lt (Nat.mod_lt _ (by decide))

theorem callMsg_sent : callMsg nz dsId method args =
    some (kOpCall::(([dsId]++encodeLen (sent (callBody method args)).length)++sent (callBody method args))) := by
  have hheader : (do (← Buf.fill ⟨kOpcodeSize+kDSIDSize+2,nz.req⟩ [(0,[kOpCall]),(kOpcodeSize,[dsId]),
      (kOpcodeSize+kDSIDSize,encodeLen (sent (callBody method args)).length)]).front (kOpcodeSize+kDSIDSize+2)) = some _ :=
    fill_front ⟨rfl,rfl,rfl,trivial⟩ rfl le_rfl
  obtain ⟨b,hfill,hfront⟩ := Option.bind_eq_some_iff.mp hheader
  rw [sent_length] at hfill hfront ⊢
  simp only [callMsg,hfill,hfront,Option.bind_eq_bind,Option.bind_some]
  rfl

theorem processCall_sent {body : Bytes} (hshort : body.length < 2^16) :
    processCall V nz S (([dsId]++encodeLen body.length)++body) =
      (stringCodec.get ((Buffer.new body.length).append body)).bind fun x => (S.call V dsId.toNat x.1 x.2).map fun y =>
        (encodeLen (y.1.readableBytes%2^16)++sent y.1,y.2,[]) := by
  obtain ⟨b,hrecv,-,hb⟩ : ∃ b, Buf.recv ⟨kDSIDSize+2,nz.srv⟩ 0 (kDSIDSize+2) (([dsId]++encodeLen body.length)++body)
      = some (b,body) ∧ b.cap = _ ∧ b.Holds ([dsId]++encodeLen body.length) :=
    recv_new ([dsId]++encodeLen body.length) (List.cons_ne_nil _ _) le_rfl
  have hds : b.mem 0 = dsId := hb.byte [] dsId _
  have hbodyLen : decodeLen b.mem kDSIDSize = body.length := Buf.Holds.len [dsId] hshort [] (by simpa using hb)
  simp only [processCall,hrecv,hbodyLen,hds,lt_irrefl,if_false,List.take_length,List.drop_length,Option.bind_eq_bind,
    Option.bind_some]
  cases stringCodec.get ((Buffer.new body.length).append body) with
  | none => rfl
  | some x =>
    simp only [Option.bind_some]
    cases S.call V dsId.toNat x.1 x.2 <;> rfl

theorem receiveRet_sent (reply : Buffer) : receiveRet (encodeLen (reply.readableBytes%2^16)++sent reply) =
    if reply.readableBytes%2^16 = 0 then some ((false,none),[])
    else ((intCodec .w32).get ((Buffer.new (reply.readableBytes%2^16)).append (sent reply))).map fun r =>
      ((r.1 == kSuccess,some r.2),[]) := by
  have hdata : receiveData (encodeLen (sent reply).length++sent reply++[]) = _ := receiveData_eq ⟨_,sent_lt reply⟩
  rw [List.append_nil,sent_length] at hdata
  rw [receiveRet,hdata]
  simp only [Option.bind_eq_bind,Option.bind_some,sent_length]
  split
  · rfl
  · cases (intCodec .w32).get ((Buffer.new (reply.readableBytes%2^16)).append (sent reply)) <;> rfl

theorem receiveRet_all (reply : Buffer) :
    receiveRet (encodeLen (reply.readableBytes%2^16)++sent reply) = (returned reply).map fun r => (r,[]) := by
  rw [returned,receiveRet_sent]
  split
  · rfl
  · rw [Option.map_map,Option.map_map]
    rfl

/-- The call as its ends see it, whatever is cut off. -/
theorem remoteCall_eq : remoteCall V nz ⟨S,[],[]⟩ dsId method args =
    (handed method args).bind fun x => (S.call V dsId.toNat x.1 x.2).bind fun y =>
      (returned y.1).map fun r => (r,⟨y.2,[],[]⟩) := by
  have hserve : slaveFn V nz S (kOpCall::(([dsId]++encodeLen (sent (callBody method args)).length)++
      sent (callBody method args))) = _ := processCall_sent (sent_lt _)
  simp only [remoteCall,callMsg_sent,List.nil_append,Option.bind_eq_bind,Option.bind_some,hserve]
  rw [← handed]
  cases handed method args with
  | none => rfl
  | some x =>
    simp only [Option.bind_some]
    cases S.call V dsId.toNat x.1 x.2 with
    | none => rfl
    | some y =>
      simp only [Option.map_some,Option.bind_some,receiveRet_all]
      cases returned y.1 <;> rfl

theorem readRaw_short {b : Buffer} {n : ℕ} (h : b.readableBytes < n) : b.readRaw n = none :=
  dif_neg (by omega)

theorem sizeBytes_length (n : ℕ) : (sizeBytes n).length = 8 := encode_length _ _

theorem callBody_length : (callBody method args).readableBytes = 8+method.length+args.readable.length := by
  rw [← Buffer.readable_length,readable_callBody,List.length_append,List.length_append,sizeBytes_length]
  omega

theorem handed_some (hlen : method.length < 2^64)
    (h : 8+method.length ≤ (callBody method args).readableBytes%2^16) :
    ∃ b, handed method args = some (method,b) ∧
      b.readable = args.readable.take ((callBody method args).readableBytes%2^16-(8+method.length)) := by
  have hsent : sent (callBody method args) = stringCodec.bytesOf method++
      args.readable.take ((callBody method args).readableBytes%2^16-(8+method.length)) := by
    have hname : (stringCodec.bytesOf method).length = 8+method.length := by
      simp [Codec.bytesOf,stringCodec,sizeBytes_length]
    have hbody : (callBody method args).readable = stringCodec.bytesOf method++args.readable := by
      rw [readable_callBody]
      simp [Codec.bytesOf,stringCodec]
    rw [sent,hbody,List.take_append,hname,List.take_of_length_le (by omega)]
  obtain ⟨m,b,hget,rfl,hb⟩ := stringCodec_lawful.read_back method _ _ hlen
    (show ((Buffer.new (sent (callBody method args)).length).append (sent (callBody method args))).readable = _ by
      rw [Buffer.readable_append,Buffer.readable_new,List.nil_append,hsent])
  exact ⟨b,hget,hb⟩

theorem returned_eq {code : Width.w32.Int} {reply : Buffer} {bs : Bytes} (hreply : reply.readable = encode .w32 code++bs) :
    (reply.readableBytes%2^16 = 0 ∧ returned reply = some (false,none)) ∨
    (0 < reply.readableBytes%2^16 ∧ reply.readableBytes%2^16 < 4 ∧ returned reply = none) ∨
    (4 ≤ reply.readableBytes%2^16 ∧ ∃ r, r.readable = bs.take (reply.readableBytes%2^16-4) ∧
      returned reply = some (code == kSuccess,some r)) := by
  rw [returned,receiveRet_sent]
  set n := reply.readableBytes%2^16
  have hread : ((Buffer.new n).append (sent reply)).readable = sent reply := by
    rw [Buffer.readable_append,Buffer.readable_new,List.nil_append]
  rcases Nat.eq_zero_or_pos n with hzero | hpos
  · exact .inl ⟨hzero,by rw [if_pos hzero]; rfl⟩
  rw [if_neg hpos.ne']
  rcases Nat.lt_or_ge n 4 with hshort | hlong
  · refine .inr (.inl ⟨hpos,hshort,?_⟩)
    have hnone : ((Buffer.new n).append (sent reply)).readRaw (Width.size .w32) = none :=
      readRaw_short (by
        rw [← Buffer.readable_length,hread,sent_length]
        exact hshort)
    simp only [Codec.get,intCodec,readInt,hnone,Option.map_none]
  · refine .inr (.inr ⟨hlong,?_⟩)
    have hcode : sent reply = encode .w32 code++bs.take (n-4) := by
      rw [sent,hreply,List.take_append,encode_length,List.take_of_length_le (by rw [encode_length]; exact hlong)]
      rfl
    obtain ⟨r,hget,hr⟩ := readInt_of_readable (hread.trans hcode)
    refine ⟨r,hr,?_⟩
    simp only [Codec.get,intCodec,hget,Option.map_some]

/-! ### The call -/

/-- The client gets the function's value out of the buffer, if there is one. -/
def Decodes (P : Placement) : (t : Option Ty) → RetCarrier t → Buffer → Prop
  | none,_,b => b.readable = []
  | some t,r,b => ∃ v, getReturnValueFromBuffer P t b = some v ∧ t.Same r.1 v

theorem serializeArgs_readable (f : Fn δ) (a : f.args.Carrier) :
    (serializeArgs P f.args a).readable = (f.args.codec P).bytesOf a := by
  cases f with
  | mk ts ret _ _ _ _ run =>
    cases ts with
    | nil => rfl
    | cons t ts => rfl

theorem Fn.get_args (f : Fn δ) {a : f.args.Carrier} (ha : f.args.Valid a) {b : Buffer}
    (hb : b.readable = (serializeArgs P f.args a).readable) : ∃ u b', f.get P b = some (u,b') ∧ f.args.Same a u := by
  rw [serializeArgs_readable] at hb
  obtain ⟨u,b',hget,hsame,-⟩ := (f.args.codec_lawful P f.args_wf).read_back a [] b ha (by rw [hb,List.append_nil])
  exact ⟨u,b',by rw [Fn.get,if_pos f.args_read]; exact hget,hsame⟩

theorem decodes_writeRet (f : Fn δ) (r : RetCarrier f.ret) {b : Buffer}
    (hb : b.readable = (writeRet P f.ret r).readable) : Decodes P f.ret r b := by
  have hwf := f.ret_wf
  have hread := f.ret_read
  generalize f.ret = t at r hb hwf hread ⊢
  cases t with
  | none => exact hb
  | some t =>
    have hb' : b.readable = (t.codec P).bytesOf r.1++[] := by
      rw [List.append_nil]
      exact hb
    obtain ⟨v,b',hget,hsame,-⟩ := (t.codec_lawful P (hwf t rfl)).read_back r.1 [] b r.2 hb'
    refine ⟨v,?_,hsame⟩
    rw [getReturnValueFromBuffer,Ty.get,if_pos (hread t rfl),hget]
    rfl

theorem arrayReply_readable (code : Width.w32.Int) (ret : Buffer) :
    (arrayReply code ret).readable = encode .w32 code++ret.readable := by
  simp [arrayReply,intCodec,writeInt]

/-- The server is called with a buffer that holds the arguments; for any reply that fits the client
gets its error code and the rest, and nothing is left on the connection. -/
theorem remoteCall_reply (V : ServerDS δ) (nz : Noise) (S : Server δ) (dsId : UInt8) 
    (hbody : (callBody method args).readableBytes ≤ 65535) :
    ∃ b : Buffer, b.readable = args.readable ∧ ∀ reply S' code bs, S.call V dsId.toNat method b = some (reply,S') →
      reply.readableBytes ≤ 65535 → reply.readable = encode .w32 code++bs →
      ∃ ret, ret.readable = bs ∧
        remoteCall V nz ⟨S,[],[]⟩ dsId method args = some ((code == kSuccess,some ret),⟨S',[],[]⟩) := by
  rw [callBody_length] at hbody
  have hmod : (8+method.length+args.readable.length)%2^16 = _ := Nat.mod_eq_of_lt (Nat.lt_succ_of_le hbody)
  obtain ⟨b,hhand,hb⟩ := handed_some (show method.length < 2^64 by omega)
    (show _ ≤ (callBody method args).readableBytes%2^16 by rw [callBody_length]; omega)
  rw [callBody_length,hmod,List.take_of_length_le (by omega)] at hb
  refine ⟨b,hb,fun reply S' code bs hreply hfits hcode => ?_⟩
  have hlen : reply.readableBytes = 4+bs.length := by
    rw [← Buffer.readable_length,hcode,List.length_append,encode_length]
    rfl
  rcases returned_eq hcode with ⟨hzero,-⟩ | ⟨-,hshort,-⟩ | ⟨-,ret,hret,hreturned⟩
  · omega
  · omega
  · rw [List.take_of_length_le (by omega)] at hret
    exact ⟨ret,hret,by simp only [remoteCall_eq,hhand,Option.bind_some,hreply,hreturned,Option.map_some]⟩

/-- The call succeeds exactly if the method is registered. The client then decodes the value that the
function has on the decoded arguments, and the data structure is as the function left it; otherwise
nothing changes. In both cases the connection is idle again. -/
theorem remote_call_eq_local (P : Placement) (V : ServerDS δ) (router : δ → Option (Router δ)) (nz : Noise)
    (S : Server δ) (dsId : UInt8) (method : Bytes) (args : Buffer) {d : δ} {R : Router δ}
    (hid : dsId.toNat < kMaxNumDSIDs) (hS : S dsId.toNat = some d) (hR : router d = some R)
    (hargs : ∀ f, R.find method = some f → ∃ a, f.args.Valid a ∧ args = serializeArgs P f.args a)
    (hbody : (callBody method args).readableBytes ≤ 65535)
    (hreply : ∀ b : Buffer, b.readable = args.readable → ∀ x ∈ arrayCall P R d method b, x.1.readableBytes ≤ 65535) :
    ∃ ok ret S', remoteCall (withRouters P router V) nz ⟨S,[],[]⟩ dsId method args = some ((ok,some ret),⟨S',[],[]⟩) ∧
      (ok = true ↔ (R.find method).isSome = true) ∧
      (R.find method = none → S' = S) ∧
      ∀ f a, R.find method = some f → f.args.Valid a → args = serializeArgs P f.args a →
        ∃ u, f.args.Same a u ∧ S' = Function.update S dsId.toNat (some (f.run d u).2) ∧
          Decodes P f.ret (f.run d u).1 ret := by
  obtain ⟨b,hb,hremote⟩ := remoteCall_reply (withRouters P router V) nz S dsId hbody
  have hlocal : S.call (withRouters P router V) dsId.toNat method b =
      (arrayCall P R d method b).map fun r => (r.1,Function.update S dsId.toNat (some r.2)) := by
    simp only [Server.call,if_pos hid,hS,withRouters,hR,Option.bind_some]
  cases hfind : R.find method with
  | none =>
    have hcall : arrayCall P R d method b = some (arrayReply kMethodNotFound (Buffer.new 0),d) := by
      simp only [arrayCall,Router.call,hfind,Option.map_some]
    have hfits := hreply b hb _ hcall
    obtain ⟨ret,-,hrun⟩ := hremote _ _ kMethodNotFound _ (by rw [hlocal,hcall]; rfl) hfits (arrayReply_readable _ _)
    refine ⟨_,ret,_,hrun,by simp [kMethodNotFound,kSuccess],?_,fun f a hf => nomatch hf⟩
    intro _
    rw [← hS,Function.update_eq_self]
  | some f =>
    obtain ⟨a,ha,harg⟩ := hargs f hfind
    obtain ⟨u,b',hget,-⟩ := f.get_args ha (b := b) (by rw [hb,harg])
    have hcall : arrayCall P R d method b =
        some (arrayReply kSuccess (writeRet P f.ret (f.run d u).1),(f.run d u).2) := by
      simp only [arrayCall,Router.call,hfind,hget,Option.map_some]
    have hfits := hreply b hb _ hcall
    obtain ⟨ret,hret,hrun⟩ := hremote _ _ kSuccess _ (by rw [hlocal,hcall]; rfl) hfits (arrayReply_readable _ _)
    refine ⟨_,ret,_,hrun,by simp,(fun h => nomatch h),?_⟩
    intro f' a' hf' ha' harg'
    cases hf'
    obtain ⟨u',b'',hget',hsame⟩ := f.get_args ha' (b := b) (by rw [hb,harg'])
    cases hget.symm.trans hget'
    exact ⟨u,hsame,rfl,decodes_writeRet f _ hret⟩

end

/-! ### A registered function -/

def intTy : Ty := .int .w32 true

def addInts (a : BitVec 32 × BitVec 32 × Unit) : BitVec 32 := a.1+a.2.1

def add : Fn Unit where
  args := .cons intTy (.cons intTy .nil)
  ret := some intTy
  args_wf := rfl
  args_read := rfl
  ret_wf := by
    rintro t ⟨⟩
    rfl
  ret_read := by
    rintro t ⟨⟩
    rfl
  run _ a := (⟨addInts a,trivial⟩,())

def addName : Bytes := [65,100,100]

def addRouter : Router Unit := Router.register [] addName add

def twoAndThree : add.args.Carrier := ((2#32,3#32,()) : BitVec 32 × BitVec 32 × Unit)

/-- Whatever the arguments, the reply is an error code and a number. -/
theorem add_reply_length (b : Buffer) {x : Buffer × Unit} (hx : x ∈ arrayCall frontPlacement addRouter () addName b) :
    x.1.readableBytes = 8 := by
  obtain ⟨r,hcall,rfl⟩ := Option.map_eq_some_iff.mp hx
  have hfind : addRouter.find addName = some add := rfl
  rw [Router.call,hfind] at hcall
  simp only at hcall
  split at hcall
  · cases hcall
  · cases hcall
    rw [← Buffer.readable_length,arrayReply_readable,List.length_append,encode_length]
    rfl

/-- A data structure with nothing but its router. -/
def routerOnly : ServerDS Unit :=
  withRouters frontPlacement (fun _ => some addRouter)
    ⟨fun _ _ => none,fun _ _ => none,fun _ _ _ => none,fun _ _ => none,fun _ _ _ => none,fun _ _ _ => none⟩

theorem remote_call_eq_local_add :
    ∃ ret S' v, remoteCall routerOnly quiet ⟨fun _ => some (),[],[]⟩ 5 addName
        (serializeArgs frontPlacement add.args twoAndThree) = some ((true,some ret),⟨S',[],[]⟩) ∧
      getReturnValueFromBuffer frontPlacement intTy ret = some v ∧ v = 5#32 := by
  have hvalid : add.args.Valid twoAndThree := ⟨trivial,trivial,trivial⟩
  have hargs : ∀ f, addRouter.find addName = some f →
      ∃ a, f.args.Valid a ∧ serializeArgs frontPlacement add.args twoAndThree = serializeArgs frontPlacement f.args a := by
    intro f hf
    cases hf
    exact ⟨twoAndThree,hvalid,rfl⟩
  obtain ⟨ok,ret,S',hrun,hok,-,hvalue⟩ := remote_call_eq_local frontPlacement _ (fun _ : Unit => some addRouter) quiet
    (fun _ => some ()) 5 addName (serializeArgs frontPlacement add.args twoAndThree) (by decide) rfl rfl hargs (by decide)
    (fun b _ x hx => by rw [add_reply_length b hx]; decide)
  cases hok.mpr rfl
  obtain ⟨u,hsame,-,v,hget,hv⟩ := hvalue add twoAndThree rfl hvalid rfl
  refine ⟨ret,S',v,hrun,hget,?_⟩
  cases add.args.eq_of_same_comparable rfl rfl hsame
  exact hv.symm

end FarMemory.RemoteCall
