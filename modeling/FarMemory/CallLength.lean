import FarMemory.RemoteCall

/-!
# Calls that do not fit the length fields

The lengths of a request and of its reply are narrowed to 16 bits on both ends, and the
narrowed length decides how much is sent. The assertion on the length is compiled out.
What arrives is then read as if it were all there was.
-/
namespace FarMemory.CallLength
open ByteStore WireBuffer DeviceWire RemoteCall
open Rpc hiding Bytes

section
variable {δ : Type}

/-- The call ends at a request boundary. If it reports success, then the server got the
method with all the arguments and the caller has all that the server replied. -/
def Honest (V : ServerDS δ) (nz : Noise) (S : Server δ) (dsId : UInt8) (method : Bytes) (args : Buffer) : Prop :=
  ∃ ok ret S', remoteCall V nz ⟨S,[],[]⟩ dsId method args = some ((ok,ret),⟨S',[],[]⟩) ∧
    (ok = true → ∃ b reply r, handed method args = some (method,b) ∧ b.readable = args.readable ∧
      S.call V dsId.toNat method b = some (reply,S') ∧ ret = some r ∧ reply.readable = encode .w32 kSuccess++r.readable)

/-- The name arrives whole and the function returns on the arguments that arrive. Its
reply either is cut down to nothing, or keeps its error code, and that is not success
unless nothing was cut off. -/
def Fits (P : Placement) (R : Router δ) (d : δ) (method : Bytes) (args : Buffer) : Prop :=
  8+method.length ≤ (callBody method args).readableBytes%2^16 ∧
    ∃ b code ret d', handed method args = some (method,b) ∧ R.call P d method b = some ((code,ret),d') ∧
      ((4+ret.readableBytes)%2^16 = 0 ∨ 4 ≤ (4+ret.readableBytes)%2^16 ∧
        (code = kSuccess → (callBody method args).readableBytes < 2^16 ∧ 4+ret.readableBytes < 2^16))

variable {P : Placement} {V : ServerDS δ} {router : δ → Option (Router δ)} {nz : Noise} {S : Server δ}
  {dsId : UInt8} {method : Bytes} {args : Buffer} {d : δ} {R : Router δ}

theorem handed_none (hlen : method.length < 2^64)
    (h : (callBody method args).readableBytes%2^16 < 8+method.length) : handed method args = none := by
  set b := (Buffer.new (sent (callBody method args)).length).append (sent (callBody method args)) with hb
  have hread : b.readable = sent (callBody method args) := by
    rw [hb,Buffer.readable_append,Buffer.readable_new,List.nil_append]
  have hbytes : b.readableBytes = (callBody method args).readableBytes%2^16 := by
    rw [← Buffer.readable_length,hread,sent_length]
  rcases Nat.lt_or_ge ((callBody method args).readableBytes%2^16) 8 with hshort | hsize
  · have hnone : b.readRaw (Width.size .w64) = none := readRaw_short (by rw [hbytes]; exact hshort)
    simp only [handed,Codec.get,stringCodec,readSize,readInt,← hb,hnone,Option.map_none]
  · have hsent : sent (callBody method args) = sizeBytes method.length++
        (method++args.readable).take ((callBody method args).readableBytes%2^16-8) := by
      rw [sent,readable_callBody,List.take_append,sizeBytes_length,
        List.take_of_length_le (by rw [sizeBytes_length]; exact hsize)]
    obtain ⟨b',hget,hb'⟩ := readSize_of_readable hlen (hread.trans hsent)
    have hfew : b'.readableBytes < method.length := by
      rw [← Buffer.readable_length,hb',List.length_take]
      omega
    simp only [handed,Codec.get,stringCodec,← hb,hget,readRaw_short hfew]

theorem server_call_array (hid : dsId.toNat < kMaxNumDSIDs) (hS : S dsId.toNat = some d) (hR : router d = some R)
    (b : Buffer) : S.call (withRouters P router V) dsId.toNat method b =
      (R.call P d method b).map fun r => (arrayReply r.1.1 r.1.2,Function.update S dsId.toNat (some r.2)) := by
  simp only [Server.call,if_pos hid,hS,withRouters,hR,Option.bind_some,arrayCall,Option.map_map]
  rfl

theorem arrayReply_length (code : Width.w32.Int) (ret : Buffer) :
    (arrayReply code ret).readableBytes = 4+ret.readableBytes := by
  rw [← Buffer.readable_length,arrayReply_readable,List.length_append,encode_length,Buffer.readable_length]
  rfl

theorem honest_of_fits (hid : dsId.toNat < kMaxNumDSIDs) (hS : S dsId.toNat = some d) (hR : router d = some R)
    (hlen : method.length < 2^64) (h : Fits P R d method args) :
    Honest (withRouters P router V) nz S dsId method args := by
  obtain ⟨hname,b,code,ret,d',hhand,hcall,hcut⟩ := h
  obtain ⟨b',hhand',hargs⟩ := handed_some hlen hname
  cases hhand.symm.trans hhand'
  have hserver : S.call (withRouters P router V) dsId.toNat method b =
      some (arrayReply code ret,Function.update S dsId.toNat (some d')) := by
    rw [server_call_array hid hS hR,hcall]
    rfl
  unfold Honest
  rw [remoteCall_eq,hhand]
  simp only [Option.bind_some,hserver]
  have hreply := returned_eq (arrayReply_readable code ret)
  rw [arrayReply_length] at hreply
  rcases hreply with ⟨-,hret⟩ | ⟨hpos,hshort,-⟩ | ⟨hlong,r,hr,hret⟩
  · exact ⟨false,none,_,by rw [hret]; rfl,fun h => nomatch h⟩
  · omega
  · refine ⟨_,some r,_,by rw [hret]; rfl,fun hok => ?_⟩
    have hcode : code = kSuccess := by simpa using hok
    rcases hcut with hzero | ⟨-,hwhole⟩
    · omega
    obtain ⟨hbody,hreply⟩ := hwhole hcode
    rw [Nat.mod_eq_of_lt hbody,callBody_length,List.take_of_length_le (by omega)] at hargs
    rw [Nat.mod_eq_of_lt hreply,List.take_of_length_le (by rw [Buffer.readable_length]; omega)] at hr
    exact ⟨b,_,r,rfl,hargs,hserver,rfl,by rw [arrayReply_readable,hcode,hr]⟩

theorem fits_of_honest (hid : dsId.toNat < kMaxNumDSIDs) (hS : S dsId.toNat = some d) (hR : router d = some R)
    (hlen : method.length < 2^64) (h : Honest (withRouters P router V) nz S dsId method args) :
    Fits P R d method args := by
  obtain ⟨ok,ret',S',hrun,hok⟩ := h
  rw [remoteCall_eq] at hrun
  rcases Nat.lt_or_ge ((callBody method args).readableBytes%2^16) (8+method.length) with hcut | hname
  · rw [handed_none hlen hcut] at hrun
    cases hrun
  obtain ⟨b,hhand,hargs⟩ := handed_some hlen hname
  rw [hhand] at hrun
  simp only [Option.bind_some,server_call_array hid hS hR] at hrun
  cases hcall : R.call P d method b with
  | none =>
    rw [hcall] at hrun
    cases hrun
  | some x =>
    obtain ⟨⟨code,ret⟩,d'⟩ := x
    refine ⟨hname,b,code,ret,d',hhand,hcall,?_⟩
    simp only [hcall,Option.map_some,Option.bind_some] at hrun
    have hreply := returned_eq (arrayReply_readable code ret)
    rw [arrayReply_length] at hreply
    rcases hreply with ⟨hzero,-⟩ | ⟨-,-,hret⟩ | ⟨hlong,r,hr,hret⟩
    · exact .inl hzero
    · rw [hret] at hrun
      cases hrun
    · refine .inr ⟨hlong,?_⟩
      rintro rfl
      rw [hret] at hrun
      simp only [Option.map_some,Option.some.injEq,Prod.mk.injEq] at hrun
      obtain ⟨⟨hsuccess,rfl⟩,-⟩ := hrun
      obtain ⟨b',reply,r',hhand',hall,hserver,hr',hwhole⟩ := hok (by simpa using hsuccess.symm)
      cases hhand.symm.trans hhand'
      cases hr'
      rw [server_call_array hid hS hR,hcall] at hserver
      obtain ⟨rfl,-⟩ := Prod.mk.inj (Option.some.inj hserver)
      rw [arrayReply_readable] at hwhole
      have hargs' := congrArg List.length (hall.symm.trans hargs)
      have hret' := congrArg List.length ((List.append_cancel_left hwhole).trans hr)
      rw [List.length_take] at hargs' hret'
      rw [Buffer.readable_length] at hret'
      rw [callBody_length] at hargs' hname ⊢
      dsimp only at hret'
      omega

end

/-- For every method, argument buffer and registered functions of an array: the call is
honest exactly if its request and its reply fit. -/
theorem call_honest_iff {δ : Type} (P : Placement) (V : ServerDS δ) (router : δ → Option (Router δ)) (nz : Noise)
    (S : Server δ) (dsId : UInt8) (method : Bytes) (args : Buffer) {d : δ} {R : Router δ}
    (hid : dsId.toNat < kMaxNumDSIDs) (hS : S dsId.toNat = some d) (hR : router d = some R)
    (hlen : method.length < 2^64) :
    Honest (withRouters P router V) nz S dsId method args ↔ Fits P R d method args :=
  ⟨fits_of_honest hid hS hR hlen,honest_of_fits hid hS hR hlen⟩

theorem add_fits : Fits frontPlacement addRouter () addName (serializeArgs frontPlacement add.args twoAndThree) := by
  obtain ⟨b,hhand,hb⟩ : ∃ b, handed addName (serializeArgs frontPlacement add.args twoAndThree) = some (addName,b) ∧
      b.readable = _ := handed_some (by decide) (by decide)
  have hall : b.readable = (serializeArgs frontPlacement add.args twoAndThree).readable := hb.trans (by decide)
  obtain ⟨u,b',hget,-⟩ := add.get_args (show add.args.Valid twoAndThree from ⟨trivial,trivial,trivial⟩) hall
  obtain ⟨ret,hcall⟩ : ∃ ret, addRouter.call frontPlacement () addName b = some ((kSuccess,ret),()) := by
    simp only [Router.call,show addRouter.find addName = some add from rfl,hget]
    exact ⟨_,rfl⟩
  have hreply : (arrayReply kSuccess ret).readableBytes = 8 :=
    add_reply_length b (Option.map_eq_some_iff.mpr ⟨_,hcall,rfl⟩)
  rw [arrayReply_length] at hreply
  refine ⟨by decide,b,kSuccess,ret,(),hhand,hcall,?_⟩
  rw [hreply]
  exact .inr ⟨by decide,fun _ => ⟨by decide,by decide⟩⟩

theorem call_honest_add : Honest routerOnly quiet (fun _ => some ()) 5 addName
    (serializeArgs frontPlacement add.args twoAndThree) :=
  (call_honest_iff frontPlacement _ (fun _ : Unit => some addRouter) quiet (fun _ => some ()) 5 addName
    (serializeArgs frontPlacement add.args twoAndThree) (by decide) rfl rfl (by decide)).mpr add_fits

/-! ### A reply that is cut -/

/-- A function without arguments that returns a string. -/
def fetch (s : Bytes) (hs : s.length < 2^64) : Fn Unit where
  args := .nil
  ret := some .string
  args_wf := rfl
  args_read := rfl
  ret_wf := by
    rintro t ⟨⟩
    rfl
  ret_read := by
    rintro t ⟨⟩
    rfl
  run _ _ := (⟨s,hs⟩,())

def fetchName : Bytes := [70]

def fetchRouter (s : Bytes) (hs : s.length < 2^64) : Router Unit := Router.register [] fetchName (fetch s hs)

def fetchOnly (s : Bytes) (hs : s.length < 2^64) : ServerDS Unit :=
  withRouters frontPlacement (fun _ => some (fetchRouter s hs))
    ⟨fun _ _ => none,fun _ _ => none,fun _ _ _ => none,fun _ _ => none,fun _ _ _ => none,fun _ _ _ => none⟩

theorem fetch_call {s : Bytes} (hs : s.length < 2^64) (b : Buffer) :
    ∃ ret, (fetchRouter s hs).call frontPlacement () fetchName b = some ((kSuccess,ret),()) ∧
      ret.readable = sizeBytes s.length++s := by
  refine ⟨writeRet frontPlacement (some .string) ⟨s,hs⟩,rfl,?_⟩
  show (stringCodec.write s (Buffer.new 64)).readable = _
  simp [stringCodec]

/-- A reply of 65548 bytes is cut to 12: the call reports success and returns the length
of a string without its bytes. -/
theorem fetch_cut {s : Bytes} (hs : s.length < 2^64) (hlen : s.length = 65536) :
    (∃ ret S', remoteCall (fetchOnly s hs) quiet ⟨fun _ => some (),[],[]⟩ 5 fetchName (Buffer.new 0) =
      some ((true,some ret),⟨S',[],[]⟩) ∧ ret.readable = sizeBytes 65536) ∧
    ¬ Honest (fetchOnly s hs) quiet (fun _ => some ()) 5 fetchName (Buffer.new 0) := by
  obtain ⟨b,hhand,-⟩ : ∃ b, handed fetchName (Buffer.new 0) = some (fetchName,b) ∧ b.readable = _ :=
    handed_some (by decide) (by decide)
  obtain ⟨ret,hcall,hret⟩ := fetch_call hs b
  have hretLen : ret.readableBytes = 65544 := by
    rw [← Buffer.readable_length,hret,List.length_append,sizeBytes_length,hlen]
  have hserver : Server.call (fetchOnly s hs) (fun _ => some ()) (5 : UInt8).toNat fetchName b =
      some (arrayReply kSuccess ret,Function.update (fun _ => some ()) (5 : UInt8).toNat (some ())) := by
    have harray : Server.call (fetchOnly s hs) (fun _ => some ()) (5 : UInt8).toNat fetchName b =
        ((fetchRouter s hs).call frontPlacement () fetchName b).map fun r =>
          (arrayReply r.1.1 r.1.2,Function.update (fun _ => some ()) (5 : UInt8).toNat (some r.2)) :=
      server_call_array (by decide) (by rfl) (by rfl) b
    rw [harray,hcall]
    rfl
  constructor
  · have hreply := returned_eq (arrayReply_readable kSuccess ret)
    rw [arrayReply_length,hretLen] at hreply
    rcases hreply with ⟨hzero,-⟩ | ⟨-,hshort,-⟩ | ⟨-,r,hr,hreturned⟩
    · omega
    · omega
    · refine ⟨r,_,by rw [remoteCall_eq,hhand]; simp only [Option.bind_some,hserver,hreturned]; rfl,?_⟩
      rw [hr,hret,hlen,List.take_append_of_le_length (by rw [sizeBytes_length]; decide)]
      exact List.take_of_length_le (by rw [sizeBytes_length]; decide)
  · intro hhonest
    obtain ⟨-,b',code,ret',d',hhand',hcall',hfits⟩ : Fits frontPlacement (fetchRouter s hs) () fetchName (Buffer.new 0) :=
      fits_of_honest (by decide) (by rfl) (by rfl) (by decide) hhonest
    cases hhand.symm.trans hhand'
    cases hcall.symm.trans hcall'
    rw [hretLen] at hfits
    rcases hfits with hzero | ⟨-,hwhole⟩
    · omega
    · have := (hwhole rfl).2
      omega

theorem fetch_65536_cut : ∃ (s : Bytes) (hs : s.length < 2^64) (ret : Buffer) (S' : Server Unit), s.length = 65536 ∧
    remoteCall (fetchOnly s hs) quiet ⟨fun _ => some (),[],[]⟩ 5 fetchName (Buffer.new 0) =
      some ((true,some ret),⟨S',[],[]⟩) ∧ ret.readable = sizeBytes 65536 ∧
    ¬ Honest (fetchOnly s hs) quiet (fun _ => some ()) 5 fetchName (Buffer.new 0) := by
  obtain ⟨s,hlen⟩ : ∃ s : Bytes, s.length = 65536 := ⟨List.replicate 65536 0,List.length_replicate⟩
  have hs : s.length < 2^64 := by omega
  obtain ⟨⟨ret,S',hrun,hret⟩,hdishonest⟩ := fetch_cut hs hlen
  exact ⟨s,hs,ret,S',hlen,hrun,hret,hdishonest⟩

end FarMemory.CallLength
