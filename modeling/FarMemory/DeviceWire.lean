import FarMemory.Execution
import FarMemory.PointerMeta
import FarMemory.RpcTemplates
import FarMemory.WireBuffer

/-!
# The TCP device and the memory server

A request is written to the connection by the client, taken apart by the server's
event loop, performed on the server and answered; the client takes the answer off the
connection. Both ends lay out their messages in buffers with their own offsets, and what
a buffer holds before it is filled is arbitrary, as is the acknowledgement byte. The
stream itself delivers what is written; a read waits while it is empty. A call on the
server that aborts, or an access past a table or a buffer, has no result. The device
without a network performs the same requests on the server directly.
-/
namespace FarMemory.DeviceWire
open ByteStore WireBuffer Execution Function
open PointerMeta (kMaxObjectIDSize kMaxObjectDataSize kVanillaPtrDSID)

def kOpcodeSize : ℕ := 1
def kDSIDSize : ℕ := 1
def kIDLenSize : ℕ := 1
def kDataLenSize : ℕ := 2
def kLargeDataSize : ℕ := 512
def kMaxComputeDataLen : ℕ := 65535

def kOpReadObject : UInt8 := 2
def kOpWriteObject : UInt8 := 3
def kOpRemoveObject : UInt8 := 4
def kOpConstruct : UInt8 := 5
def kOpDeconstruct : UInt8 := 6
def kOpCompute : UInt8 := 7
def kOpCall : UInt8 := 8

def kMaxNumDSIDs : ℕ := 255

/-- Data whose length is kept in sixteen bits. -/
abbrev Data := {d : Bytes // d.length < 2^16}

/-! ### The server -/

/-- The data structures of the server: their factories and virtual functions. -/
structure ServerDS (δ : Type) where
  build : UInt8 → Bytes → Option δ
  readObject : δ → Bytes → Option (Data × δ)
  writeObject : δ → Bytes → Bytes → Option δ
  removeObject : δ → Bytes → Option (Bool × δ)
  compute : δ → UInt8 → Bytes → Option (Data × δ)
  call : δ → Bytes → Rpc.Buffer → Option (Rpc.Buffer × δ)

abbrev Server (δ : Type) := ℕ → Option δ

namespace Server
variable {δ : Type} (V : ServerDS δ) (S : Server δ)

def construct (dsType : UInt8) (dsId : ℕ) (params : Bytes) : Option (Server δ) :=
  if dsId < kMaxNumDSIDs ∧ (S dsId).isNone then
    (V.build dsType params).map fun d => update S dsId (some d)
  else none

def destruct (dsId : ℕ) : Option (Server δ) :=
  if dsId < kMaxNumDSIDs ∧ (S dsId).isSome then some (update S dsId none) else none

/-- Objects of an id that is not in use belong to the vanilla pointers. -/
def holder (dsId : ℕ) : Option (ℕ × δ) :=
  if dsId < kMaxNumDSIDs then
    match S dsId with
    | some d => some (dsId,d)
    | none => (S kVanillaPtrDSID).map fun d => (kVanillaPtrDSID,d)
  else none

def readObject (dsId : ℕ) (objId : Bytes) : Option (Data × Server δ) :=
  match S.holder dsId with
  | none => none
  | some (i,d) => (V.readObject d objId).map fun r => (r.1,update S i (some r.2))

def writeObject (dsId : ℕ) (objId data : Bytes) : Option (Server δ) :=
  match S.holder dsId with
  | none => none
  | some (i,d) => (V.writeObject d objId data).map fun d => update S i (some d)

def removeObject (dsId : ℕ) (objId : Bytes) : Option (Bool × Server δ) :=
  match S.holder dsId with
  | none => none
  | some (i,d) => (V.removeObject d objId).map fun r => (r.1,update S i (some r.2))

def compute (dsId : ℕ) (opcode : UInt8) (input : Bytes) : Option (Data × Server δ) :=
  if dsId < kMaxNumDSIDs then
    match S dsId with
    | none => none
    | some d => (V.compute d opcode input).map fun r => (r.1,update S dsId (some r.2))
  else none

def call (dsId : ℕ) (method : Bytes) (args : Rpc.Buffer) : Option (Rpc.Buffer × Server δ) :=
  if dsId < kMaxNumDSIDs then
    match S dsId with
    | none => none
    | some d => (V.call d method args).map fun r => (r.1,update S dsId (some r.2))
  else none

end Server

/-- The removal takes its id as a 64-bit number, all others as a byte. -/
inductive Request
  | readObject (dsId : UInt8) (objId : Bytes)
  | writeObject (dsId : UInt8) (objId data : Bytes)
  | removeObject (dsId : UInt64) (objId : Bytes)
  | construct (dsType dsId : UInt8) (params : Bytes)
  | destruct (dsId : UInt8)
  | compute (dsId opcode : UInt8) (input : Bytes)
  deriving DecidableEq

inductive Reply
  | data (d : Data)
  | output (d : Data)
  | existed (b : Bool)
  | ack
  deriving DecidableEq

/-- A request on the server itself, as the device without a network does it. -/
def perform {δ : Type} (V : ServerDS δ) (S : Server δ) : Request → Option (Reply × Server δ)
  | .readObject dsId objId => (S.readObject V dsId.toNat objId).map fun r => (.data r.1,r.2)
  | .writeObject dsId objId data => (S.writeObject V dsId.toNat objId data).map fun S => (.ack,S)
  | .removeObject dsId objId => (S.removeObject V dsId.toNat objId).map fun r => (.existed r.1,r.2)
  | .construct dsType dsId params => (S.construct V dsType dsId.toNat params).map fun S => (.ack,S)
  | .destruct dsId => (S.destruct dsId.toNat).map fun S => (.ack,S)
  | .compute dsId opcode input => (S.compute V dsId.toNat opcode input).map fun r => (.output r.1,r.2)

/-! ### The client's messages -/

/-- What uninitialised memory happens to hold while one request is handled. -/
structure Noise where
  req : ℕ → UInt8
  srv : ℕ → UInt8
  resp : ℕ → UInt8
  ack : UInt8

def objectFields (op dsId : UInt8) (objId : Bytes) : List (ℕ × Bytes) :=
  [(0,[op]),(kOpcodeSize,[dsId]),(kOpcodeSize+kDSIDSize,[UInt8.ofNat objId.length]),
    (kOpcodeSize+kDSIDSize+kIDLenSize,objId)]

def readObjectMsg (nz : Noise) (dsId : UInt8) (objId : Bytes) : Option Bytes := do
  let req ← Buf.fill ⟨kOpcodeSize+kDSIDSize+kIDLenSize+kMaxObjectIDSize,nz.req⟩ (objectFields kOpReadObject dsId objId)
  req.front (kOpcodeSize+kDSIDSize+kIDLenSize+objId.length)

/-- Of the 64-bit id the first byte in memory is copied. -/
def removeObjectMsg (nz : Noise) (dsId : UInt64) (objId : Bytes) : Option Bytes := do
  let req ← Buf.fill ⟨kOpcodeSize+kDSIDSize+kIDLenSize+kMaxObjectIDSize,nz.req⟩
    (objectFields kOpRemoveObject dsId.toUInt8 objId)
  req.front (kOpcodeSize+kDSIDSize+kIDLenSize+objId.length)

-- large data is not copied but sent as a second part
def writeObjectMsg (nz : Noise) (dsId : UInt8) (objId data : Bytes) : Option Bytes := do
  let req ← Buf.fill
    ⟨kOpcodeSize+kDSIDSize+kIDLenSize+kDataLenSize+kMaxObjectIDSize+kLargeDataSize,nz.req⟩
    [(0,[kOpWriteObject]),(kOpcodeSize,[dsId]),(kOpcodeSize+kDSIDSize,[UInt8.ofNat objId.length]),
      (kOpcodeSize+kDSIDSize+kIDLenSize,encodeLen data.length),(kOpcodeSize+kDSIDSize+kIDLenSize+kDataLenSize,objId)]
  if data.length ≤ kLargeDataSize then
    let req ← req.copy (kOpcodeSize+kDSIDSize+kIDLenSize+kDataLenSize+objId.length) data
    req.front (kOpcodeSize+kDSIDSize+kIDLenSize+kDataLenSize+objId.length+data.length)
  else
    let header ← req.front (kOpcodeSize+kDSIDSize+kIDLenSize+kDataLenSize+objId.length)
    some (header++data)

def constructMsg (nz : Noise) (dsType dsId : UInt8) (params : Bytes) : Option Bytes := do
  let req ← Buf.fill ⟨kOpcodeSize+1+kDSIDSize+1+255,nz.req⟩
    [(0,[kOpConstruct]),(kOpcodeSize,[dsType]),(kOpcodeSize+1,[dsId]),
      (kOpcodeSize+1+kDSIDSize,[UInt8.ofNat params.length]),(kOpcodeSize+1+kDSIDSize+1,params)]
  req.front (kOpcodeSize+1+kDSIDSize+1+params.length)

def destructMsg (nz : Noise) (dsId : UInt8) : Option Bytes := do
  let req ← Buf.fill ⟨kOpcodeSize+kDSIDSize,nz.req⟩ [(0,[kOpDeconstruct]),(kOpcodeSize,[dsId])]
  req.front (kOpcodeSize+kDSIDSize)

def computeMsg (nz : Noise) (dsId opcode : UInt8) (input : Bytes) : Option Bytes := do
  let req ← Buf.fill ⟨kOpcodeSize+kDSIDSize+1+2+kLargeDataSize,nz.req⟩
    [(0,[kOpCompute]),(kOpcodeSize,[dsId]),(kOpcodeSize+kDSIDSize,[opcode]),
      (kOpcodeSize+kDSIDSize+1,encodeLen input.length)]
  if input.length ≤ kLargeDataSize then
    let req ← req.copy (kOpcodeSize+kDSIDSize+1+2) input
    req.front (kOpcodeSize+kDSIDSize+1+2+input.length)
  else
    let header ← req.front (kOpcodeSize+kDSIDSize+1+2)
    some (header++input)

def send (nz : Noise) : Request → Option Bytes
  | .readObject dsId objId => readObjectMsg nz dsId objId
  | .writeObject dsId objId data => writeObjectMsg nz dsId objId data
  | .removeObject dsId objId => removeObjectMsg nz dsId objId
  | .construct dsType dsId params => constructMsg nz dsType dsId params
  | .destruct dsId => destructMsg nz dsId
  | .compute dsId opcode input => computeMsg nz dsId opcode input

/-! ### The server's event loop -/

/-- The two readers of a request that names an object. -/
def parseObject (nz : Noise) (up : Bytes) : Option (UInt8 × Bytes × Bytes) := do
  let (req,up) ← Buf.recv ⟨kDSIDSize+kIDLenSize+kMaxObjectIDSize,nz.srv⟩ 0 (kDSIDSize+kIDLenSize) up
  let objIdLen := (req.mem kDSIDSize).toNat
  let (req,up) ← req.recv (kDSIDSize+kIDLenSize) objIdLen up
  some (req.mem 0,load req.mem (kDSIDSize+kIDLenSize) objIdLen,up)

def parseReadObject (nz : Noise) (up : Bytes) : Option (Request × Bytes) :=
  (parseObject nz up).map fun r => (.readObject r.1 r.2.1,r.2.2)

def parseRemoveObject (nz : Noise) (up : Bytes) : Option (Request × Bytes) :=
  (parseObject nz up).map fun r => (.removeObject r.1.toUInt64 r.2.1,r.2.2)

def parseWriteObject (nz : Noise) (up : Bytes) : Option (Request × Bytes) := do
  let (req,up) ← Buf.recv ⟨kDSIDSize+kIDLenSize+kDataLenSize+kMaxObjectIDSize+kMaxObjectDataSize,nz.srv⟩ 0
    (kDSIDSize+kIDLenSize+kDataLenSize) up
  let objIdLen := (req.mem kDSIDSize).toNat
  let dataLen := decodeLen req.mem (kDSIDSize+kIDLenSize)
  let (req,up) ← req.recv (kDSIDSize+kIDLenSize+kDataLenSize) (objIdLen+dataLen) up
  some (.writeObject (req.mem 0) (load req.mem (kDSIDSize+kIDLenSize+kDataLenSize) objIdLen)
    (load req.mem (kDSIDSize+kIDLenSize+kDataLenSize+objIdLen) dataLen),up)

def parseConstruct (nz : Noise) (up : Bytes) : Option (Request × Bytes) := do
  let (req,up) ← Buf.recv ⟨1+kDSIDSize+1+255,nz.srv⟩ 0 (1+kDSIDSize+1) up
  let paramLen := (req.mem (1+kDSIDSize)).toNat
  let (req,up) ← req.recv (1+kDSIDSize+1) paramLen up
  some (.construct (req.mem 0) (req.mem 1) (load req.mem (1+kDSIDSize+1) paramLen),up)

def parseDestruct (nz : Noise) (up : Bytes) : Option (Request × Bytes) := do
  let (req,up) ← Buf.recv ⟨kDSIDSize,nz.srv⟩ 0 kDSIDSize up
  some (.destruct (req.mem 0),up)

def parseCompute (nz : Noise) (up : Bytes) : Option (Request × Bytes) := do
  let (req,up) ← Buf.recv ⟨kDSIDSize+1+2+kMaxComputeDataLen,nz.srv⟩ 0 (kDSIDSize+1+2) up
  let inputLen := decodeLen req.mem (kDSIDSize+1)
  let (req,up) ← if inputLen = 0 then some (req,up) else req.recv (kDSIDSize+1+2) inputLen up
  some (.compute (req.mem 0) (req.mem kDSIDSize) (load req.mem (kDSIDSize+1+2) inputLen),up)

/-- What the handler of an opcode takes off the stream before it calls the server. -/
def parse (nz : Noise) (op : UInt8) (up : Bytes) : Option (Request × Bytes) :=
  if op = kOpReadObject then parseReadObject nz up
  else if op = kOpWriteObject then parseWriteObject nz up
  else if op = kOpRemoveObject then parseRemoveObject nz up
  else if op = kOpConstruct then parseConstruct nz up
  else if op = kOpDeconstruct then parseDestruct nz up
  else if op = kOpCompute then parseCompute nz up
  else none

/-- Length and data, laid out in a buffer with room for `limit` bytes of data. -/
def dataMsg (nz : Noise) (limit : ℕ) (d : Data) : Option Bytes := do
  let resp ← Buf.fill ⟨kDataLenSize+limit,nz.resp⟩ [(0,encodeLen d.1.length),(kDataLenSize,d.1)]
  resp.front (kDataLenSize+decodeLen resp.mem 0)

/-- What the handler writes after the server has returned. -/
def respond (nz : Noise) : Reply → Option Bytes
  | .data d => dataMsg nz kMaxObjectDataSize d
  | .output d => dataMsg nz kMaxComputeDataLen d
  | .existed b => some [if b then 1 else 0]
  | .ack => some [nz.ack]

section
variable {δ : Type} (V : ServerDS δ)

def processCall (nz : Noise) (S : Server δ) (up : Bytes) : Option (Bytes × Server δ × Bytes) := do
  let (req,up) ← Buf.recv ⟨kDSIDSize+2,nz.srv⟩ 0 (kDSIDSize+2) up
  let bodyLen := decodeLen req.mem kDSIDSize
  if up.length < bodyLen then none
  let body := (Rpc.Buffer.new bodyLen).append (up.take bodyLen)
  let (method,args) ← Rpc.stringCodec.get body
  let (ret,S) ← S.call V (req.mem 0).toNat method args
  let retLen := ret.readableBytes%2^16
  some (encodeLen retLen++ret.readable.take retLen,S,up.drop bodyLen)

/-- One round of the event loop: the opcode, the handler, the answer. -/
def slaveFn (nz : Noise) (S : Server δ) : Bytes → Option (Bytes × Server δ × Bytes)
  | [] => none
  | op::up =>
    if op = kOpCall then processCall V nz S up else do
      let (r,up) ← parse nz op up
      let (reply,S) ← perform V S r
      let out ← respond nz reply
      some (out,S,up)

end

/-! ### The connection -/

def receiveData : Bytes → Option (Data × Bytes)
  | b0::b1::down =>
    let len := b0.toNat+256*b1.toNat
    if len ≤ down.length then
      some (⟨down.take len,by
        have := b0.toNat_lt
        have := b1.toNat_lt
        simp only [List.length_take]
        omega⟩,down.drop len)
    else none
  | _ => none

/-- What the client takes off the stream for the answer to a request. -/
def receive : Request → Bytes → Option (Reply × Bytes)
  | .readObject _ _,down => (receiveData down).map fun r => (.data r.1,r.2)
  | .compute _ _ _,down => (receiveData down).map fun r => (.output r.1,r.2)
  | .removeObject _ _,x::down => some (.existed (x != 0),down)
  | .writeObject _ _ _,_::down => some (.ack,down)
  | .construct _ _ _,_::down => some (.ack,down)
  | .destruct _,_::down => some (.ack,down)
  | _,_ => none

/-- The server and the bytes under way in both directions. -/
structure Wire (δ : Type) where
  server : Server δ
  up : Bytes
  down : Bytes

/-- A request over the network, from its first byte to the end of the answer. -/
def wireStep {δ : Type} (V : ServerDS δ) (w : Wire δ) (q : Request × Noise) : Option (Reply × Wire δ) := do
  let msg ← send q.2 q.1
  let (out,S,up) ← slaveFn V q.2 w.server (w.up++msg)
  let (reply,down) ← receive q.1 (w.down++out)
  some (reply,⟨S,up,down⟩)

/-! ### The format -/

/-- The message of a request, field after field. -/
def Request.bytes : Request → Bytes
  | .readObject dsId objId => kOpReadObject::([dsId,UInt8.ofNat objId.length]++objId)
  | .writeObject dsId objId data =>
    kOpWriteObject::([dsId,UInt8.ofNat objId.length]++encodeLen data.length++(objId++data))
  | .removeObject dsId objId => kOpRemoveObject::([dsId.toUInt8,UInt8.ofNat objId.length]++objId)
  | .construct dsType dsId params => kOpConstruct::([dsType,dsId,UInt8.ofNat params.length]++params)
  | .destruct dsId => kOpDeconstruct::[dsId]
  | .compute dsId opcode input => kOpCompute::([dsId,opcode]++encodeLen input.length++input)

/-- The sizes the format has room for. -/
def Request.Sized : Request → Prop
  | .readObject _ objId => objId.length ≤ kMaxObjectIDSize
  | .writeObject _ objId data => objId.length ≤ kMaxObjectIDSize ∧ data.length ≤ kMaxObjectDataSize
  | .removeObject dsId objId => dsId.toNat < 2^8 ∧ objId.length ≤ kMaxObjectIDSize
  | .construct _ _ params => params.length ≤ 255
  | .destruct _ => True
  | .compute _ _ input => input.length ≤ kMaxComputeDataLen

/-- Something follows the fixed fields wherever the handler reads on without looking at the length. -/
def Request.Filled : Request → Prop
  | .readObject _ objId => objId ≠ []
  | .writeObject _ objId data => objId++data ≠ []
  | .removeObject _ objId => objId ≠ []
  | .construct _ _ params => params ≠ []
  | .destruct _ => True
  | .compute _ _ _ => True

instance : (r : Request) → Decidable r.Filled
  | .readObject _ objId => inferInstanceAs (Decidable (objId ≠ []))
  | .writeObject _ objId data => inferInstanceAs (Decidable (objId++data ≠ []))
  | .removeObject _ objId => inferInstanceAs (Decidable (objId ≠ []))
  | .construct _ _ params => inferInstanceAs (Decidable (params ≠ []))
  | .destruct _ => inferInstanceAs (Decidable True)
  | .compute _ _ _ => inferInstanceAs (Decidable True)

def Reply.Sized : Reply → Prop
  | .data d => d.1.length ≤ kMaxObjectDataSize
  | _ => True

section
variable {nz : Noise} {rest : Bytes} {dsId : UInt8} {objId : Bytes} {r : Request}

@[simp] theorem encodeLen_length (n : ℕ) : (encodeLen n).length = 2 := rfl

theorem toNat_ofNat_len {n : ℕ} (h : n ≤ 255) : (UInt8.ofNat n).toNat = n := by
  rw [UInt8.toNat_ofNat']
  omega

theorem objectMsg_eq {op : UInt8} (h : objId.length ≤ kMaxObjectIDSize) :
    (do
      let req ← Buf.fill ⟨kOpcodeSize+kDSIDSize+kIDLenSize+kMaxObjectIDSize,nz.req⟩ (objectFields op dsId objId)
      req.front (kOpcodeSize+kDSIDSize+kIDLenSize+objId.length)) =
      some (op::([dsId,UInt8.ofNat objId.length]++objId)) := by
  have hbytes : fieldBytes (objectFields op dsId objId) = op::([dsId,UInt8.ofNat objId.length]++objId) := by
    simp [fieldBytes,objectFields]
  rw [← hbytes]
  refine fill_front ⟨rfl,rfl,rfl,rfl,trivial⟩ ?_ (by omega)
  simp only [hbytes,List.length_cons,List.length_append,List.length_nil,kOpcodeSize,kDSIDSize,kIDLenSize]
  omega

/-- A header in the buffer, with the payload behind it in the buffer or sent after it. -/
theorem payloadMsg_eq {b : Buf} {header : Bytes} (payload : Bytes) (hb : b.Holds header)
    (hcap : header.length+kLargeDataSize ≤ b.cap) :
    (if payload.length ≤ kLargeDataSize then do
        let req ← b.copy header.length payload
        req.front (header.length+payload.length)
      else do
        let h ← b.front header.length
        some (h++payload)) = some (header++payload) := by
  split
  · rename_i hsmall
    obtain ⟨b',hcopy,-,hb'⟩ : ∃ b', b.copy header.length payload = some b' ∧ b'.cap = b.cap ∧ b'.Holds (header++payload) :=
      hb.copy (by omega)
    simp only [hcopy,Option.bind_eq_bind,Option.bind_some]
    rw [← List.length_append]
    exact hb'.front
  · simp only [hb.front,Option.bind_eq_bind,Option.bind_some]

theorem writeObjectMsg_eq {data : Bytes} (h : objId.length ≤ kMaxObjectIDSize) :
    writeObjectMsg nz dsId objId data = some (Request.writeObject dsId objId data).bytes := by
  set header := [kOpWriteObject,dsId,UInt8.ofNat objId.length]++encodeLen data.length++objId with hheader
  have hlen : header.length = kOpcodeSize+kDSIDSize+kIDLenSize+kDataLenSize+objId.length := by
    simp only [hheader,List.length_append,List.length_cons,List.length_nil,encodeLen_length,kOpcodeSize,kDSIDSize,
      kIDLenSize,kDataLenSize]
  obtain ⟨b,hfill,hcap,hb⟩ : ∃ b, Buf.fill
      ⟨kOpcodeSize+kDSIDSize+kIDLenSize+kDataLenSize+kMaxObjectIDSize+kLargeDataSize,nz.req⟩
      [(0,[kOpWriteObject]),(kOpcodeSize,[dsId]),(kOpcodeSize+kDSIDSize,[UInt8.ofNat objId.length]),
        (kOpcodeSize+kDSIDSize+kIDLenSize,encodeLen data.length),
        (kOpcodeSize+kDSIDSize+kIDLenSize+kDataLenSize,objId)] = some b ∧ b.cap = _ ∧ b.Holds _ := by
    refine fill_new ⟨rfl,rfl,rfl,rfl,rfl,trivial⟩ ?_
    simp only [fieldBytes,List.flatMap_cons,List.flatMap_nil,List.length_append,List.length_cons,List.length_nil,
      encodeLen_length,kOpcodeSize,kDSIDSize,kIDLenSize,kDataLenSize]
    omega
  replace hb : b.Holds header := by simpa [fieldBytes,hheader] using hb
  have hmsg := payloadMsg_eq data hb (by omega)
  rw [hlen] at hmsg
  simp only [writeObjectMsg,hfill,Option.bind_eq_bind,Option.bind_some] at hmsg ⊢
  rw [hmsg]
  simp [hheader,Request.bytes]

theorem computeMsg_eq {opcode : UInt8} {input : Bytes} :
    computeMsg nz dsId opcode input = some (Request.compute dsId opcode input).bytes := by
  set header := [kOpCompute,dsId,opcode]++encodeLen input.length with hheader
  obtain ⟨b,hfill,hcap,hb⟩ : ∃ b, Buf.fill ⟨kOpcodeSize+kDSIDSize+1+2+kLargeDataSize,nz.req⟩
      [(0,[kOpCompute]),(kOpcodeSize,[dsId]),(kOpcodeSize+kDSIDSize,[opcode]),
        (kOpcodeSize+kDSIDSize+1,encodeLen input.length)] = some b ∧ b.cap = _ ∧ b.Holds _ := by
    refine fill_new ⟨rfl,rfl,rfl,rfl,trivial⟩ ?_
    simp only [fieldBytes,List.flatMap_cons,List.flatMap_nil,List.length_append,List.length_cons,List.length_nil,
      encodeLen_length,kOpcodeSize,kDSIDSize]
    omega
  replace hb : b.Holds header := by simpa [fieldBytes,hheader] using hb
  have hmsg := payloadMsg_eq input hb (by rw [hcap]; rfl)
  simp only [computeMsg,hfill,Option.bind_eq_bind,Option.bind_some] at hmsg ⊢
  exact hmsg.trans (by simp [hheader,Request.bytes])

theorem constructMsg_eq {dsType : UInt8} {params : Bytes} (h : params.length ≤ 255) :
    constructMsg nz dsType dsId params = some (Request.construct dsType dsId params).bytes := by
  have hbytes : (Request.construct dsType dsId params).bytes = fieldBytes
      [(0,[kOpConstruct]),(kOpcodeSize,[dsType]),(kOpcodeSize+1,[dsId]),
        (kOpcodeSize+1+kDSIDSize,[UInt8.ofNat params.length]),(kOpcodeSize+1+kDSIDSize+1,params)] := by
    simp [fieldBytes,Request.bytes]
  rw [hbytes]
  refine fill_front ⟨rfl,rfl,rfl,rfl,rfl,trivial⟩ ?_ (by omega)
  rw [← hbytes]
  simp only [Request.bytes,List.length_cons,List.length_append,List.length_nil,kOpcodeSize,kDSIDSize]
  omega

theorem destructMsg_eq : destructMsg nz dsId = some (Request.destruct dsId).bytes := fill_front ⟨rfl,rfl,trivial⟩ rfl le_rfl

theorem send_eq (h : r.Sized) : send nz r = some r.bytes := by
  cases r with
  | readObject dsId objId => exact objectMsg_eq h
  | writeObject dsId objId data => exact writeObjectMsg_eq h.1
  | removeObject dsId objId => exact objectMsg_eq h.2
  | construct dsType dsId params => exact constructMsg_eq h
  | destruct dsId => exact destructMsg_eq
  | compute dsId opcode input => exact computeMsg_eq

/-! ### Taking messages apart -/

theorem parseObject_eq (h : objId.length ≤ kMaxObjectIDSize) (hne : objId++rest ≠ []) :
    parseObject nz ([dsId,UInt8.ofNat objId.length]++objId++rest) = some (dsId,objId,rest) := by
  have hobj := toNat_ofNat_len h
  obtain ⟨b,b',hrecv,hb,hrecv',hb'⟩ : ∃ b b', Buf.recv ⟨kDSIDSize+kIDLenSize+kMaxObjectIDSize,nz.srv⟩ 0
      (kDSIDSize+kIDLenSize) _ = some (b,_) ∧ _ ∧ b.recv (kDSIDSize+kIDLenSize) objId.length _ = some (b',_) ∧ _ :=
    recv_parts [dsId,UInt8.ofNat objId.length] objId rest (List.cons_ne_nil _ _) hne (Nat.add_le_add_left h _)
  have hlen : b.mem kDSIDSize = UInt8.ofNat objId.length := hb.byte [dsId] _ []
  have hid : load b'.mem (kDSIDSize+kIDLenSize) objId.length = objId :=
    Buf.Holds.load [dsId,UInt8.ofNat objId.length] objId [] (by simpa using hb')
  have hds : b'.mem 0 = dsId := hb'.byte [] dsId _
  rw [List.append_assoc]
  simp only [parseObject,hrecv,hlen,hobj,hrecv',hid,hds,Option.bind_eq_bind,Option.bind_some]

theorem parseWriteObject_eq {data : Bytes} (h : objId.length ≤ kMaxObjectIDSize)
    (hd : data.length ≤ kMaxObjectDataSize) (hne : objId++data++rest ≠ []) :
    parseWriteObject nz ([dsId,UInt8.ofNat objId.length]++encodeLen data.length++(objId++data)++rest)
      = some (.writeObject dsId objId data,rest) := by
  set header := [dsId,UInt8.ofNat objId.length]++encodeLen data.length with hheader
  have hobj := toNat_ofNat_len h
  obtain ⟨b,b',hrecv,hb,hrecv',hb'⟩ : ∃ b b', Buf.recv
      ⟨kDSIDSize+kIDLenSize+kDataLenSize+kMaxObjectIDSize+kMaxObjectDataSize,nz.srv⟩ 0
      (kDSIDSize+kIDLenSize+kDataLenSize) _ = some (b,_) ∧ _ ∧
        b.recv (kDSIDSize+kIDLenSize+kDataLenSize) (objId++data).length _ = some (b',_) ∧ _ :=
    recv_parts header (objId++data) rest (List.cons_ne_nil _ _) hne (by
      change 4+(objId++data).length ≤ 4+kMaxObjectIDSize+kMaxObjectDataSize
      rw [List.length_append]
      omega)
  have hlen : b.mem kDSIDSize = UInt8.ofNat objId.length := hb.byte [dsId] _ (encodeLen data.length)
  have hdata : decodeLen b.mem (kDSIDSize+kIDLenSize) = data.length :=
    Buf.Holds.len [dsId,UInt8.ofNat objId.length] (by
      have : kMaxObjectDataSize < 2^16 := by decide
      omega) [] (by simpa [hheader] using hb)
  rw [List.length_append] at hrecv'
  have hid : load b'.mem (kDSIDSize+kIDLenSize+kDataLenSize) objId.length = objId :=
    Buf.Holds.load header objId data (by simpa using hb')
  have hdat : load b'.mem (kDSIDSize+kIDLenSize+kDataLenSize+objId.length) data.length = data := by
    have hload := Buf.Holds.load (header++objId) data [] (by simpa using hb')
    rwa [List.length_append] at hload
  have hds : b'.mem 0 = dsId := hb'.byte [] dsId _
  rw [List.append_assoc]
  simp only [parseWriteObject,hrecv,hlen,hobj,hdata,hrecv',hid,hdat,hds,Option.bind_eq_bind,Option.bind_some]

theorem parseConstruct_eq {dsType : UInt8} {params : Bytes} (h : params.length ≤ 255) (hne : params++rest ≠ []) :
    parseConstruct nz ([dsType,dsId,UInt8.ofNat params.length]++params++rest)
      = some (.construct dsType dsId params,rest) := by
  have hpar := toNat_ofNat_len h
  obtain ⟨b,b',hrecv,hb,hrecv',hb'⟩ : ∃ b b', Buf.recv ⟨1+kDSIDSize+1+255,nz.srv⟩ 0 (1+kDSIDSize+1) _ = some (b,_) ∧ _ ∧
      b.recv (1+kDSIDSize+1) params.length _ = some (b',_) ∧ _ :=
    recv_parts [dsType,dsId,UInt8.ofNat params.length] params rest (List.cons_ne_nil _ _) hne (Nat.add_le_add_left h _)
  have hlen : b.mem (1+kDSIDSize) = UInt8.ofNat params.length := hb.byte [dsType,dsId] _ []
  have hload : load b'.mem (1+kDSIDSize+1) params.length = params :=
    Buf.Holds.load [dsType,dsId,UInt8.ofNat params.length] params [] (by simpa using hb')
  have htype : b'.mem 0 = dsType := hb'.byte [] dsType _
  have hds : b'.mem 1 = dsId := hb'.byte [dsType] dsId _
  rw [List.append_assoc]
  simp only [parseConstruct,hrecv,hlen,hpar,hrecv',hload,htype,hds,Option.bind_eq_bind,Option.bind_some]

theorem parseDestruct_eq : parseDestruct nz ([dsId]++rest) = some (.destruct dsId,rest) := by
  obtain ⟨b,hrecv,-,hb⟩ : ∃ b, Buf.recv ⟨kDSIDSize,nz.srv⟩ 0 kDSIDSize ([dsId]++rest) = some (b,rest) ∧
      b.cap = _ ∧ b.Holds [dsId] := recv_new [dsId] (List.cons_ne_nil _ _) le_rfl
  have hds : b.mem 0 = dsId := hb.byte [] dsId []
  simp only [parseDestruct,hrecv,hds,Option.bind_eq_bind,Option.bind_some]

theorem parseCompute_eq {opcode : UInt8} {input : Bytes} (h : input.length ≤ kMaxComputeDataLen) :
    parseCompute nz ([dsId,opcode]++encodeLen input.length++input++rest) = some (.compute dsId opcode input,rest) := by
  set header := [dsId,opcode]++encodeLen input.length with hheader
  obtain ⟨b,hrecv,hcap,hb⟩ : ∃ b, Buf.recv ⟨kDSIDSize+1+2+kMaxComputeDataLen,nz.srv⟩ 0 (kDSIDSize+1+2)
      (header++(input++rest)) = some (b,input++rest) ∧ b.cap = _ ∧ b.Holds header :=
    recv_new header (List.cons_ne_nil _ _) (by simp [hheader,kDSIDSize])
  have hlen : decodeLen b.mem (kDSIDSize+1) = input.length :=
    Buf.Holds.len [dsId,opcode] (by
      simp only [kMaxComputeDataLen] at h
      omega) [] (by simpa [hheader] using hb)
  rw [List.append_assoc]
  by_cases hzero : input = []
  · subst hzero
    have hds : b.mem 0 = dsId := hb.byte [] dsId _
    have hop : b.mem kDSIDSize = opcode := hb.byte [dsId] opcode _
    simp only [parseCompute,hrecv,hlen,List.length_nil,if_true,hds,hop,Option.bind_eq_bind,Option.bind_some]
    rfl
  · have hne : ¬input.length = 0 := fun h0 => hzero (List.eq_nil_of_length_eq_zero h0)
    obtain ⟨b',hrecv',-,hb'⟩ : ∃ b', b.recv (kDSIDSize+1+2) input.length (input++rest) = some (b',rest) ∧
        b'.cap = b.cap ∧ b'.Holds (header++input) :=
      hb.recv (by
        rw [hcap]
        simp only [hheader,List.length_append,List.length_cons,List.length_nil,encodeLen_length,kDSIDSize]
        omega) (List.append_ne_nil_of_left_ne_nil hzero _)
    have hload : load b'.mem (kDSIDSize+1+2) input.length = input :=
      Buf.Holds.load header input [] (by simpa using hb')
    have hds : b'.mem 0 = dsId := hb'.byte [] dsId _
    have hop : b'.mem kDSIDSize = opcode := hb'.byte [dsId] opcode _
    simp only [parseCompute,hrecv,hlen,if_neg hne,hrecv',hload,hds,hop,Option.bind_eq_bind,Option.bind_some]

/-- The event loop's view of a stream that starts with a request: its opcode and what the handler takes. -/
def parseMsg (nz : Noise) : Bytes → Option (Request × Bytes)
  | [] => none
  | op::up => parse nz op up

/-- The server takes exactly the message off the stream and reads the same request, whatever follows;
something has to follow if the handler reads on for nothing. -/
theorem parseMsg_bytes (h : r.Sized) (hne : r.Filled ∨ rest ≠ []) : parseMsg nz (r.bytes++rest) = some (r,rest) := by
  have happend : ∀ bs : Bytes, bs ≠ [] ∨ rest ≠ [] → bs++rest ≠ [] := fun bs hor hnil =>
    hor.elim (· (List.append_eq_nil_iff.mp hnil).1) (· (List.append_eq_nil_iff.mp hnil).2)
  cases r with
  | readObject dsId objId =>
    change (parseObject nz ([dsId,UInt8.ofNat objId.length]++objId++rest)).map _ = _
    rw [parseObject_eq h (happend _ hne)]
    rfl
  | writeObject dsId objId data => exact parseWriteObject_eq h.1 h.2 (happend _ hne)
  | removeObject dsId objId =>
    have hds : dsId.toUInt8.toUInt64 = dsId := by
      refine UInt64.toNat_inj.mp ?_
      have := h.1
      simp only [UInt8.toNat_toUInt64,UInt64.toNat_toUInt8]
      omega
    change (parseObject nz ([dsId.toUInt8,UInt8.ofNat objId.length]++objId++rest)).map _ = _
    rw [parseObject_eq h.2 (happend _ hne),Option.map_some,hds]
  | construct dsType dsId params => exact parseConstruct_eq h (happend _ hne)
  | destruct dsId => exact parseDestruct_eq
  | compute dsId opcode input => exact parseCompute_eq h

theorem recv_nil (b : Buf) (off n : ℕ) : b.recv off n [] = none := if_neg fun h => h.1 rfl

theorem parseObject_nil (idLen : UInt8) : parseObject nz [dsId,idLen] = none := by
  obtain ⟨b,hrecv,-⟩ : ∃ b, Buf.recv ⟨kDSIDSize+kIDLenSize+kMaxObjectIDSize,nz.srv⟩ 0 (kDSIDSize+kIDLenSize)
      ([dsId,idLen]++[]) = some (b,[]) ∧ _ := recv_new [dsId,idLen] (List.cons_ne_nil _ _) (Nat.le_add_right _ _)
  rw [List.append_nil] at hrecv
  simp only [parseObject,hrecv,recv_nil,Option.bind_eq_bind,Option.bind_some,Option.bind_none]

/-- With nothing behind its message such a handler waits. -/
theorem parseMsg_blocked (h : ¬r.Filled) : parseMsg nz r.bytes = none := by
  cases r with
  | readObject dsId objId =>
    obtain rfl : objId = [] := not_not.mp h
    change parseReadObject nz [dsId,0] = none
    rw [parseReadObject,parseObject_nil]
    rfl
  | writeObject dsId objId data =>
    obtain ⟨rfl,rfl⟩ := List.append_eq_nil_iff.mp (not_not.mp h)
    obtain ⟨b,hrecv,-⟩ : ∃ b, Buf.recv
        ⟨kDSIDSize+kIDLenSize+kDataLenSize+kMaxObjectIDSize+kMaxObjectDataSize,nz.srv⟩ 0
        (kDSIDSize+kIDLenSize+kDataLenSize) ([dsId,0]++encodeLen 0++[]) = some (b,[]) ∧ _ :=
      recv_new ([dsId,0]++encodeLen 0) (List.cons_ne_nil _ _) (by
        change 4 ≤ 4+kMaxObjectIDSize+kMaxObjectDataSize
        omega)
    change parseWriteObject nz ([dsId,0]++encodeLen 0++[]) = none
    simp only [parseWriteObject,hrecv,recv_nil,Option.bind_eq_bind,Option.bind_some,Option.bind_none]
  | removeObject dsId objId =>
    obtain rfl : objId = [] := not_not.mp h
    change parseRemoveObject nz [dsId.toUInt8,0] = none
    rw [parseRemoveObject,parseObject_nil]
    rfl
  | construct dsType dsId params =>
    obtain rfl : params = [] := not_not.mp h
    obtain ⟨b,hrecv,-⟩ : ∃ b, Buf.recv ⟨1+kDSIDSize+1+255,nz.srv⟩ 0 (1+kDSIDSize+1) ([dsType,dsId,0]++[])
        = some (b,[]) ∧ _ := recv_new [dsType,dsId,0] (List.cons_ne_nil _ _) (by simp [kDSIDSize])
    change parseConstruct nz ([dsType,dsId,0]++[]) = none
    simp only [parseConstruct,hrecv,recv_nil,Option.bind_eq_bind,Option.bind_some,Option.bind_none]
  | destruct dsId => exact absurd trivial h
  | compute dsId opcode input => exact absurd trivial h

/-! ### Answers -/

theorem dataMsg_eq {limit : ℕ} {d : Data} (h : d.1.length ≤ limit) :
    dataMsg nz limit d = some (encodeLen d.1.length++d.1) := by
  obtain ⟨b,hfill,-,hb⟩ : ∃ b, Buf.fill ⟨kDataLenSize+limit,nz.resp⟩ [(0,encodeLen d.1.length),(kDataLenSize,d.1)]
      = some b ∧ b.cap = _ ∧ b.Holds _ := by
    refine fill_new ⟨rfl,rfl,trivial⟩ ?_
    simp only [fieldBytes,List.flatMap_cons,List.flatMap_nil,List.length_append,List.length_nil,encodeLen_length,
      kDataLenSize]
    omega
  replace hb : b.Holds (encodeLen d.1.length++d.1) := by simpa [fieldBytes] using hb
  have hlen : decodeLen b.mem 0 = d.1.length := Buf.Holds.len [] d.2 d.1 hb
  have hfront := hb.front
  rw [List.length_append,encodeLen_length] at hfront
  simp only [dataMsg,hfill,hlen,Option.bind_eq_bind,Option.bind_some]
  exact hfront

theorem receiveData_eq (d : Data) : receiveData (encodeLen d.1.length++d.1++rest) = some (d,rest) := by
  have hlen : (UInt8.ofNat d.1.length).toNat+256*(UInt8.ofNat (d.1.length/256)).toNat = d.1.length := by
    have := d.2
    simp only [UInt8.toNat_ofNat']
    omega
  simp only [encodeLen,List.cons_append,List.nil_append,receiveData,hlen]
  rw [if_pos (by simp)]
  simp

/-- The client takes exactly the answer to its request off the stream, whatever follows. -/
theorem receive_respond {δ : Type} {V : ServerDS δ} {S S' : Server δ} {reply : Reply}
    (h : perform V S r = some (reply,S')) (hsize : reply.Sized) :
    ∃ out, respond nz reply = some out ∧ ∀ rest, receive r (out++rest) = some (reply,rest) := by
  cases r with
  | readObject dsId objId =>
    obtain ⟨⟨d,S1⟩,-,⟨⟩⟩ := Option.map_eq_some_iff.mp h
    refine ⟨_,dataMsg_eq hsize,fun rest => ?_⟩
    rw [receive,receiveData_eq]
    rfl
  | compute dsId opcode input =>
    obtain ⟨⟨d,S1⟩,-,⟨⟩⟩ := Option.map_eq_some_iff.mp h
    refine ⟨_,dataMsg_eq (Nat.le_of_lt_succ d.2),fun rest => ?_⟩
    rw [receive,receiveData_eq]
    rfl
  | removeObject dsId objId =>
    obtain ⟨⟨b,S1⟩,-,⟨⟩⟩ := Option.map_eq_some_iff.mp h
    refine ⟨_,rfl,fun rest => ?_⟩
    cases b <;> rfl
  | writeObject dsId objId data =>
    obtain ⟨S1,-,⟨⟩⟩ := Option.map_eq_some_iff.mp h
    exact ⟨_,rfl,fun _ => rfl⟩
  | construct dsType dsId params =>
    obtain ⟨S1,-,⟨⟩⟩ := Option.map_eq_some_iff.mp h
    exact ⟨_,rfl,fun _ => rfl⟩
  | destruct dsId =>
    obtain ⟨S1,-,⟨⟩⟩ := Option.map_eq_some_iff.mp h
    exact ⟨_,rfl,fun _ => rfl⟩

end

/-! ### Whole connections -/

section
variable {δ : Type} {V : ServerDS δ}

/-- The request has a size the format admits, and so has the data that is read for it. -/
def Admitted (V : ServerDS δ) (S : Server δ) (r : Request) : Prop :=
  r.Sized ∧ ∀ x ∈ perform V S r, x.1.Sized

theorem slaveFn_bytes {nz : Noise} {S : Server δ} {r : Request} (rest : Bytes) :
    slaveFn V nz S (r.bytes++rest) = (do
      let (r,rest) ← parseMsg nz (r.bytes++rest)
      let (reply,S) ← perform V S r
      let out ← respond nz reply
      some (out,S,rest)) := by
  obtain ⟨op,up,hbytes,hop⟩ : ∃ op up, r.bytes = op::up ∧ op ≠ kOpCall := by
    cases r <;> exact ⟨_,_,rfl,by decide⟩
  rw [hbytes,List.cons_append,parseMsg]
  simp only [slaveFn,if_neg hop]

/-- On an idle connection a request that is filled has the server's own result and leaves the
connection idle; any other is not answered. -/
theorem wireStep_idle {S : Server δ} {r : Request} {nz : Noise} (h : Admitted V S r) :
    wireStep V ⟨S,[],[]⟩ (r,nz) = (if r.Filled then perform V S r else none).map fun x => (x.1,⟨x.2,[],[]⟩) := by
  have hserve : slaveFn V nz S (r.bytes++[]) = _ := slaveFn_bytes []
  by_cases hfilled : r.Filled
  swap
  · rw [List.append_nil,parseMsg_blocked hfilled] at hserve
    simp only [wireStep,send_eq h.1,List.nil_append,hserve,if_neg hfilled,Option.bind_eq_bind,Option.bind_some,
      Option.bind_none,Option.map_none]
  have hparse : parseMsg nz (r.bytes++[]) = some (r,[]) := parseMsg_bytes h.1 (.inl hfilled)
  rw [hparse,List.append_nil] at hserve
  simp only [wireStep,send_eq h.1,List.nil_append,hserve,if_pos hfilled,Option.bind_eq_bind,Option.bind_some]
  rcases hperf : perform V S r with _ | ⟨reply,S'⟩
  · rfl
  · obtain ⟨out,hout,hreceive⟩ : ∃ out, respond nz reply = some out ∧ ∀ rest, receive r (out++rest) = some (reply,rest) :=
      receive_respond hperf (h.2 _ hperf)
    have hend := hreceive []
    rw [List.append_nil] at hend
    simp only [hout,Option.bind_some,hend,Option.map_some]

/-- Whatever was sent before, the connection is idle and the server has seen the requests that were
made; the next request is read as it was made, and its result is that of a direct call, exactly if
something follows the fixed fields wherever its handler reads on. -/
theorem connection_stays_in_step (S₀ : Server δ) {tr : List ((Request × Noise) × Reply)} {w : Wire δ}
    (h : Trace (wireStep V) (fun w q => Admitted V w.server q.1) ⟨S₀,[],[]⟩ tr w) :
    w.up = [] ∧ w.down = [] ∧ Trace (perform V) (Admitted V) S₀ (tr.map fun x => (x.1.1,x.2)) w.server ∧
      ∀ r nz, Admitted V w.server r →
        (∃ msg, send nz r = some msg ∧ ∀ rest, r.Filled ∨ rest ≠ [] → parseMsg nz (msg++rest) = some (r,rest)) ∧
        (∀ reply S', perform V w.server r = some (reply,S') →
          ∃ out, respond nz reply = some out ∧ ∀ rest, receive r (out++rest) = some (reply,rest)) ∧
        wireStep V w (r,nz) = (if r.Filled then perform V w.server r else none).map fun x => (x.1,⟨x.2,[],[]⟩) := by
  have hidle : w.up = [] ∧ w.down = [] ∧
      Trace (perform V) (Admitted V) S₀ (tr.map fun x => (x.1.1,x.2)) w.server := by
    induction h with
    | nil => exact ⟨rfl,rfl,.nil⟩
    | @snoc tr w w' q reply h hok hstep ih =>
      obtain ⟨hup,hdown,htrace⟩ := ih
      obtain ⟨S,up,down⟩ := w
      obtain ⟨r,nz⟩ := q
      cases hup
      cases hdown
      rw [wireStep_idle hok] at hstep
      obtain ⟨⟨reply',S'⟩,hperf,⟨⟩⟩ := Option.map_eq_some_iff.mp hstep
      rw [List.map_append]
      exact ⟨rfl,rfl,htrace.snoc hok (Option.ite_none_right_eq_some.mp hperf).2⟩
  refine ⟨hidle.1,hidle.2.1,hidle.2.2,?_⟩
  intro r nz hr
  refine ⟨⟨r.bytes,send_eq hr.1,fun rest => parseMsg_bytes hr.1⟩,?_,?_⟩
  · intro reply S' hperf
    exact receive_respond hperf (hr.2 _ hperf)
  · obtain ⟨S,up,down⟩ := w
    obtain ⟨hup,hdown,-⟩ := hidle
    cases hup
    cases hdown
    exact wireStep_idle hr

instance : (r : Request) → Decidable r.Sized
  | .readObject _ _ => inferInstanceAs (Decidable (_ ≤ _))
  | .writeObject _ _ _ => inferInstanceAs (Decidable (_ ∧ _))
  | .removeObject _ _ => inferInstanceAs (Decidable (_ ∧ _))
  | .construct _ _ _ => inferInstanceAs (Decidable (_ ≤ _))
  | .destruct _ => inferInstanceAs (Decidable True)
  | .compute _ _ _ => inferInstanceAs (Decidable (_ ≤ _))

instance : (r : Reply) → Decidable r.Sized
  | .data _ => inferInstanceAs (Decidable (_ ≤ _))
  | .output _ => inferInstanceAs (Decidable True)
  | .existed _ => inferInstanceAs (Decidable True)
  | .ack => inferInstanceAs (Decidable True)

instance (V : ServerDS δ) (S : Server δ) (r : Request) : Decidable (Admitted V S r) :=
  inferInstanceAs (Decidable (_ ∧ ∀ x ∈ perform V S r, x.1.Sized))

/-- A data structure that keeps the last data written and answers a computation with its input. -/
def lastWritten : ServerDS Bytes where
  build _ params := some params
  readObject d _ := if h : d.length < 2^16 then some (⟨d,h⟩,d) else none
  writeObject _ _ data := some data
  removeObject d _ := some (!d.isEmpty,[])
  compute d _ input := if h : input.length < 2^16 then some (⟨input,h⟩,d) else none
  call _ _ _ := none

def quiet : Noise := ⟨fun _ => 170,fun _ => 171,fun _ => 172,173⟩

def session : List (Request × Noise) :=
  [(.construct 1 5 [1,2],quiet),(.writeObject 5 [7] [1,2,3],quiet),(.readObject 5 [7],quiet),
    (.writeObject 5 [] (List.replicate 600 9),quiet),(.compute 5 3 [4],quiet),(.removeObject 5 [7],quiet),
    (.destruct 5,quiet)]

theorem connection_stays_in_step_session :
    ∃ (tr : List ((Request × Noise) × Reply)) (w : Wire Bytes),
      tr.map (fun x => x.2) = [.ack,.ack,.data ⟨[1,2,3],by decide⟩,.ack,.output ⟨[4],by decide⟩,.existed true,.ack] ∧
      w.up = [] ∧ w.down = [] ∧ Trace (perform lastWritten) (Admitted lastWritten) (fun _ => none)
        (tr.map fun x => (x.1.1,x.2)) w.server := by
  have hrun : (exec (wireStep lastWritten) (fun w q => Admitted lastWritten w.server q.1) ⟨fun _ => none,[],[]⟩
      session).map (fun r => (session.zip r.1).map fun x => x.2) =
      some [.ack,.ack,.data ⟨[1,2,3],by decide⟩,.ack,.output ⟨[4],by decide⟩,.existed true,.ack] := by decide +kernel
  obtain ⟨outs,w,htrace,hobs⟩ := exec_observe hrun
  obtain ⟨hup,hdown,hdirect,-⟩ := connection_stays_in_step _ htrace
  exact ⟨_,w,hobs,hup,hdown,hdirect⟩

/-- A read with an empty identifier: a direct call has a result, over the connection none comes. -/
theorem empty_id_unanswered :
    (exec (wireStep lastWritten) (fun w q => Admitted lastWritten w.server q.1) ⟨fun _ => none,[],[]⟩
      [(.construct 1 5 [1,2],quiet)]).map (fun r => (decide (Admitted lastWritten r.2.server (.readObject 5 [])),
        (perform lastWritten r.2.server (.readObject 5 [])).isSome,
        (wireStep lastWritten r.2 (.readObject 5 [],quiet)).isSome)) = some (true,true,false) := by decide +kernel

end

end FarMemory.DeviceWire
