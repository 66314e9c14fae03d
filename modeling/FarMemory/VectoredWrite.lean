import FarMemory.Machine
import Mathlib

/-!
# Writing two buffers with vectored writes

`tcp_write2_until` hands two buffers to `tcp_writev` and, as long as a call sends less
than asked for, calls again. How much each call sends is not up to it: the results are a
list that the environment chooses. An address is a buffer with an offset into it, so the
calls that are made depend on the lengths and results alone, and what they put on the
stream on the contents as well.
-/
namespace FarMemory.VectoredWrite

inductive Buf
  | buf0
  | buf1
  deriving DecidableEq

structure IoVec where
  buf : Buf
  offset : ℕ
  len : ℕ
  deriving DecidableEq

/-- A call of `tcp_writev`, or of `tcp_write` with one part, and its result. -/
structure Call where
  iovecs : List IoVec
  sent : ℕ
  deriving DecidableEq

/-- What the buffers hold, and what lies behind their ends. -/
abbrev Contents := Buf → ℕ → UInt8

def total (iovecs : List IoVec) : ℕ := (iovecs.map IoVec.len).sum

/-- A result: some of what was asked for, and nothing only if nothing was. -/
def Legal (iovecs : List IoVec) (sent : ℕ) : Prop := sent ≤ total iovecs ∧ (total iovecs ≠ 0 → 0 < sent)

instance (iovecs : List IoVec) (sent : ℕ) : Decidable (Legal iovecs sent) := inferInstanceAs (Decidable (_ ∧ _))

section Code
variable (expect0 expect1 : ℕ)

/-- The loop of the slow path. It advances the first part by all that was sent since the
beginning, in every round. -/
def slowPath : List ℕ → IoVec → ℕ → List Call → Option (List Call)
  | rs,iovec0,real,calls =>
    if real < expect0+expect1 then
      match rs with
      | [] => none
      | r::rs =>
        if expect0 ≤ real then
          let iovecs := [⟨.buf1,real-expect0,expect1-(real-expect0)⟩]
          if Legal iovecs r then slowPath rs iovec0 (real+r) (calls++[⟨iovecs,r⟩]) else none
        else
          let iovec0 := {iovec0 with offset := iovec0.offset+real, len := sub64 iovec0.len real}
          let iovecs := [iovec0,⟨.buf1,0,expect1⟩]
          if Legal iovecs r then slowPath rs iovec0 (real+r) (calls++[⟨iovecs,r⟩]) else none
    else if rs = [] then some calls else none

/-- The calls made until the function returns, if it does after just these results. -/
def tcpWrite2Until : List ℕ → Option (List Call)
  | [] => none
  | r::rs =>
    let iovecs := [⟨.buf0,0,expect0⟩,⟨.buf1,0,expect1⟩]
    if Legal iovecs r then
      if r ≠ expect0+expect1 then slowPath expect0 expect1 rs ⟨.buf0,0,expect0⟩ r [⟨iovecs,r⟩]
      else if rs = [] then some [⟨iovecs,r⟩] else none
    else none

end Code

def IoVec.bytes (mem : Contents) (v : IoVec) : List UInt8 := (List.range v.len).map fun i => mem v.buf (v.offset+i)

def gathered (mem : Contents) (iovecs : List IoVec) : List UInt8 := iovecs.flatMap (IoVec.bytes mem)

def stream (mem : Contents) (calls : List Call) : List UInt8 :=
  calls.flatMap fun c => (gathered mem c.iovecs).take c.sent

/-- Every part lies inside its buffer. -/
def InBounds (expect0 expect1 : ℕ) (calls : List Call) : Prop :=
  ∀ c ∈ calls, ∀ v ∈ c.iovecs, v.offset+v.len ≤ match v.buf with
    | .buf0 => expect0
    | .buf1 => expect1

instance (expect0 expect1 : ℕ) (calls : List Call) : Decidable (InBounds expect0 expect1 calls) :=
  inferInstanceAs (Decidable (∀ c ∈ calls, ∀ v ∈ c.iovecs, _))

def whole (mem : Contents) (expect0 expect1 : ℕ) : List UInt8 :=
  gathered mem [⟨.buf0,0,expect0⟩,⟨.buf1,0,expect1⟩]

/-- The calls deliver the buffers, whatever they hold. -/
def Delivers (expect0 expect1 : ℕ) (calls : List Call) : Prop :=
  (∀ mem, stream mem calls = whole mem expect0 expect1) ∧ InBounds expect0 expect1 calls

/-- The first two results reach the second buffer, unless one call was enough. -/
def Reaches (expect0 : ℕ) : List ℕ → Prop
  | r₁::r₂::_ => expect0 ≤ r₁+r₂
  | _ => True

section Stream
variable {mem : Contents} {expect0 expect1 : ℕ} {calls : List Call} {iovecs : List IoVec}

@[simp] theorem bytes_length (v : IoVec) : (v.bytes mem).length = v.len := by simp [IoVec.bytes]

@[simp] theorem whole_length : (whole mem expect0 expect1).length = expect0+expect1 := by
  simp [whole,gathered]

theorem bytes_drop (b : Buf) (o n k : ℕ) :
    (IoVec.bytes mem ⟨b,o,n⟩).drop k = IoVec.bytes mem ⟨b,o+k,n-k⟩ := by
  apply List.ext_getElem
  · simp
  · intro i h1 h2
    simp [IoVec.bytes,Nat.add_assoc]

theorem whole_drop_first {k : ℕ} (h : k ≤ expect0) :
    (whole mem expect0 expect1).drop k = gathered mem [⟨.buf0,k,expect0-k⟩,⟨.buf1,0,expect1⟩] := by
  simp only [whole,gathered,List.flatMap_cons,List.flatMap_nil,List.append_nil]
  rw [List.drop_append_of_le_length (by simpa using h),bytes_drop,Nat.zero_add]

theorem whole_drop_second {k : ℕ} (h : expect0 ≤ k) :
    (whole mem expect0 expect1).drop k = gathered mem [⟨.buf1,k-expect0,expect1-(k-expect0)⟩] := by
  simp only [whole,gathered,List.flatMap_cons,List.flatMap_nil,List.append_nil]
  rw [List.drop_append,bytes_drop,bytes_drop,bytes_length,Nat.zero_add,Nat.zero_add]
  have : expect0-k = 0 := by omega
  simp [this,IoVec.bytes]

theorem gathered_head (b : Buf) (o n : ℕ) (rest : List IoVec) :
    (gathered mem (⟨b,o,n⟩::rest)).head? = if n = 0 then (gathered mem rest).head? else some (mem b o) := by
  cases n with
  | zero => simp [gathered,IoVec.bytes]
  | succ n => simp [gathered,IoVec.bytes,List.range_succ_eq_map]

theorem stream_append (c : Call) :
    stream mem (calls++[c]) = stream mem calls++(gathered mem c.iovecs).take c.sent := by simp [stream]

theorem stream_rest (rest : List Call) : stream mem (calls++rest) = stream mem calls++stream mem rest := by
  simp [stream]

theorem stream_step {real r : ℕ} (hs : stream mem calls = (whole mem expect0 expect1).take real)
    (hleft : (whole mem expect0 expect1).drop real = gathered mem iovecs) :
    stream mem (calls++[⟨iovecs,r⟩]) = (whole mem expect0 expect1).take (real+r) := by
  rw [stream_append,hs,← hleft,List.take_add]

theorem inBounds_append {c : Call} (h : InBounds expect0 expect1 calls) (hc : InBounds expect0 expect1 [c]) :
    InBounds expect0 expect1 (calls++[c]) := by
  intro c' hc'
  rcases List.mem_append.mp hc' with hm | hm
  · exact h c' hm
  · exact hc c' hm

end Stream

section Loop
variable {expect0 expect1 real : ℕ} {rs : List ℕ} {iovec0 : IoVec} {calls log : List Call}

theorem slowPath_keeps (h : slowPath expect0 expect1 rs iovec0 real calls = some log) : calls <+: log := by
  induction rs generalizing iovec0 real calls with
  | nil =>
    rw [slowPath] at h
    obtain ⟨-,h⟩ := Option.ite_none_left_eq_some.mp h
    cases h
    exact List.prefix_rfl
  | cons r rs ih =>
    rw [slowPath] at h
    obtain ⟨-,h⟩ := Option.ite_none_right_eq_some.mp h
    dsimp only at h
    split at h <;> split at h
    · exact (List.prefix_append _ _).trans (ih h)
    · cases h
    · exact (List.prefix_append _ _).trans (ih h)
    · cases h

/-- Once the first buffer is done the rest goes out as it should. -/
theorem slowPath_second (hge : expect0 ≤ real) (hle : real ≤ expect0+expect1)
    (hs : ∀ mem, stream mem calls = (whole mem expect0 expect1).take real) (hb : InBounds expect0 expect1 calls)
    (h : slowPath expect0 expect1 rs iovec0 real calls = some log) : Delivers expect0 expect1 log := by
  induction rs generalizing iovec0 real calls with
  | nil =>
    rw [slowPath] at h
    split at h
    · cases h
    · cases h
      refine ⟨fun mem => ?_,hb⟩
      rw [hs mem,List.take_of_length_le (by simp; omega)]
  | cons r rs ih =>
    rw [slowPath] at h
    split at h
    swap
    · cases h
    rename_i hlt
    dsimp only at h
    split at h
    swap
    · cases h
    rename_i hlegal
    have hr : r ≤ expect1-(real-expect0) := by simpa [Legal,total] using hlegal.1
    refine ih (by omega) (by omega) (fun mem => stream_step (hs mem) (whole_drop_second hge)) ?_ h
    refine inBounds_append hb ?_
    intro c hc v hv
    cases List.mem_singleton.mp hc
    cases List.mem_singleton.mp hv
    show real-expect0+(expect1-(real-expect0)) ≤ expect1
    omega

theorem slowPath_first {r : ℕ} (hlt : real < expect0) (h : slowPath expect0 expect1 (r::rs) iovec0 real calls = some log) :
    let iovec0' : IoVec := ⟨iovec0.buf,iovec0.offset+real,sub64 iovec0.len real⟩
    Legal [iovec0',⟨.buf1,0,expect1⟩] r ∧
      slowPath expect0 expect1 rs iovec0' (real+r) (calls++[⟨[iovec0',⟨.buf1,0,expect1⟩],r⟩]) = some log := by
  rw [slowPath,if_pos (by omega)] at h
  dsimp only at h
  rw [if_neg (by omega)] at h
  obtain ⟨hlegal,h⟩ := Option.ite_none_right_eq_some.mp h
  exact ⟨hlegal,h⟩

theorem slowPath_nil (hlt : real < expect0+expect1) : slowPath expect0 expect1 [] iovec0 real calls = none := by
  rw [slowPath,if_pos hlt]

/-- The first part of a later call runs from its offset on, which is too far. -/
theorem outOfBounds {v : IoVec} {rest : List IoVec} {r : ℕ} (hp : calls++[⟨v::rest,r⟩] <+: log)
    (hv : v.buf = .buf0) (ho : expect0 < v.offset) : ¬ InBounds expect0 expect1 log := by
  intro hb
  have := hb ⟨v::rest,r⟩ (hp.subset (by simp)) v (by simp)
  rw [hv] at this
  dsimp only at this
  omega

end Loop

section Main
variable {expect0 expect1 : ℕ} {r₁ r₂ : ℕ} {rs : List ℕ} {log : List Call}

/-- The first call and, if it stays within the first buffer, the second ask for just what
is left. -/
theorem delivers_of_reaches {rs : List ℕ} (h : tcpWrite2Until expect0 expect1 rs = some log)
    (hr : Reaches expect0 rs) : Delivers expect0 expect1 log := by
  match rs,h,hr with
  | r₁::rs,h,hr =>
    rw [tcpWrite2Until] at h
    obtain ⟨hlegal,h⟩ := Option.ite_none_right_eq_some.mp h
    have hle : r₁ ≤ expect0+expect1 := by simpa [Legal,total] using hlegal.1
    have hstream : ∀ mem, stream mem [⟨[⟨.buf0,0,expect0⟩,⟨.buf1,0,expect1⟩],r₁⟩] =
        (whole mem expect0 expect1).take r₁ := fun mem => by simp [stream,whole]
    have hbound : InBounds expect0 expect1 [⟨[⟨.buf0,0,expect0⟩,⟨.buf1,0,expect1⟩],r₁⟩] := by
      simp [InBounds]
    split at h
    · rename_i hne
      rcases Nat.lt_or_ge r₁ expect0 with hlt | hge
      · match rs,h,hr with
        | [],h,_ =>
          rw [slowPath_nil (by omega)] at h
          cases h
        | r₂::rs,h,hr =>
          have hreach : expect0 ≤ r₁+r₂ := hr
          obtain ⟨hlegal2,h⟩ := slowPath_first hlt h
          have hsub : sub64 expect0 r₁ = expect0-r₁ := if_pos hlt.le
          simp only [Nat.zero_add,hsub] at hlegal2 h
          have hle2 : r₂ ≤ expect0-r₁+expect1 := by simpa [Legal,total] using hlegal2.1
          refine slowPath_second hreach (by omega) (fun mem => stream_step (hstream mem) (whole_drop_first hlt.le)) ?_ h
          refine inBounds_append hbound ?_
          intro c hc v hv
          cases List.mem_singleton.mp hc
          simp only [List.mem_cons,List.not_mem_nil,or_false] at hv
          rcases hv with rfl | rfl
          · show r₁+(expect0-r₁) ≤ expect0
            omega
          · show 0+expect1 ≤ expect1
            omega
      · exact slowPath_second hge hle hstream hbound h
    · rename_i heq
      rw [ne_eq,not_not] at heq
      obtain ⟨-,h⟩ := Option.ite_none_right_eq_some.mp h
      cases h
      refine ⟨fun mem => ?_,hbound⟩
      rw [hstream mem,List.take_of_length_le (by simp; omega)]

/-- Two results within the first buffer make the third call skip as many bytes as the
first one sent, which contents that mark the first skipped byte show. -/
theorem skips {r3 : ℕ} {rest : List Call} (hpos : 0 < r₁) (hlt : r₁+r₂ < expect0)
    (hpos3 : 0 < r3) (hle : r3 ≤ expect0-r₁-(r₁+r₂)+expect1)
    (hd : ∀ mem, stream mem ([⟨[⟨.buf0,0,expect0⟩,⟨.buf1,0,expect1⟩],r₁⟩]++
      [⟨[⟨.buf0,r₁,expect0-r₁⟩,⟨.buf1,0,expect1⟩],r₂⟩]++
      [⟨[⟨.buf0,r₁+(r₁+r₂),expect0-r₁-(r₁+r₂)⟩,⟨.buf1,0,expect1⟩],r3⟩]++rest) = whole mem expect0 expect1) : False := by
  obtain ⟨mem,hmem⟩ : ∃ mem : Contents, ∀ b o, mem b o = mem .buf0 (r₁+r₂) → b = .buf0 ∧ o = r₁+r₂ :=
    ⟨fun b i => if b = .buf0 ∧ i = r₁+r₂ then 1 else 0,by
      intro b o h
      simpa using h⟩
  have hstream := hd mem
  have hfirst : stream mem [⟨[⟨.buf0,0,expect0⟩,⟨.buf1,0,expect1⟩],r₁⟩] = (whole mem expect0 expect1).take r₁ := by
    simp [stream,whole]
  have htwo := stream_step (r := r₂) hfirst (whole_drop_first (by omega))
  rw [stream_rest,stream_append,htwo,List.append_assoc] at hstream
  have hleft := List.append_cancel_left (hstream.trans (List.take_append_drop (r₁+r₂) _).symm)
  have hhead := congrArg List.head? hleft
  rw [whole_drop_first (by omega),gathered_head,if_neg (by omega),List.head?_append,List.head?_take,
    if_neg hpos3.ne',gathered_head] at hhead
  by_cases hdone : expect0-r₁-(r₁+r₂) = 0
  · rw [if_pos hdone,gathered_head,if_neg (by omega)] at hhead
    cases (hmem _ _ (Option.some.inj hhead)).1
  · rw [if_neg hdone] at hhead
    have := (hmem _ _ (Option.some.inj hhead)).2
    omega

/-- The results have to leave the first buffer by the second call. -/
theorem reaches_of_delivers {rs : List ℕ} (h : tcpWrite2Until expect0 expect1 rs = some log)
    (hd : Delivers expect0 expect1 log) : Reaches expect0 rs := by
  match rs,h with
  | [],h => cases h
  | [_],h => trivial
  | r₁::r₂::rs,h =>
    show expect0 ≤ r₁+r₂
    by_contra hlt
    rw [not_le] at hlt
    rw [tcpWrite2Until] at h
    obtain ⟨hlegal,h⟩ := Option.ite_none_right_eq_some.mp h
    have hpos : 0 < r₁ := hlegal.2 (by simp [total]; omega)
    rw [if_pos (by omega)] at h
    obtain ⟨hlegal2,h⟩ := slowPath_first (by omega) h
    have hsub : sub64 expect0 r₁ = expect0-r₁ := if_pos (by omega)
    simp only [Nat.zero_add,hsub] at hlegal2 h
    match rs,h with
    | [],h =>
      rw [slowPath_nil (by omega)] at h
      cases h
    | r3::rs,h =>
      obtain ⟨hlegal3,h⟩ := slowPath_first hlt h
      dsimp only at hlegal3 h
      have hp := slowPath_keeps h
      rcases Nat.lt_or_ge expect0 (r₁+(r₁+r₂)) with hfar | hnear
      · exact outOfBounds hp rfl hfar hd.2
      have hsub3 : sub64 (expect0-r₁) (r₁+r₂) = expect0-r₁-(r₁+r₂) := if_pos (by omega)
      simp only [hsub3] at hlegal3 h hp
      rcases Nat.eq_zero_or_pos r3 with rfl | hpos3
      · -- nothing was left to ask for, and the round after this one goes too far
        have hnone := of_not_not fun hne => lt_irrefl 0 (hlegal3.2 hne)
        simp only [total,List.map_cons,List.map_nil,List.sum_cons,List.sum_nil] at hnone
        match rs,h with
        | [],h =>
          rw [slowPath_nil (by omega)] at h
          cases h
        | r4::rs,h =>
          obtain ⟨-,h⟩ := slowPath_first (by omega) h
          exact outOfBounds (slowPath_keeps h) rfl (by dsimp only; omega) hd.2
      · obtain ⟨rest,rfl⟩ := hp
        have hle : r3 ≤ expect0-r₁-(r₁+r₂)+expect1 := by simpa [Legal,total] using hlegal3.1
        exact skips hpos hlt hpos3 hle hd.1

end Main

/-- For all lengths and all results with which the function returns: the buffers arrive
whole, whatever they hold, and no part lies outside of them, exactly if the results leave
the first buffer by the second call. -/
theorem tcpWrite2Until_delivers_iff {expect0 expect1 : ℕ} {rs : List ℕ} {log : List Call}
    (h : tcpWrite2Until expect0 expect1 rs = some log) : Delivers expect0 expect1 log ↔ Reaches expect0 rs :=
  ⟨reaches_of_delivers h,delivers_of_reaches h⟩

theorem tcpWrite2Until_delivers_short : ∃ log, tcpWrite2Until 4 3 [1,4,2] = some log ∧ Delivers 4 3 log := by
  obtain ⟨log,hlog⟩ : ∃ log, tcpWrite2Until 4 3 [1,4,2] = some log := ⟨_,rfl⟩
  have hreach : Reaches 4 [1,4,2] := (by decide : 4 ≤ 1+4)
  exact ⟨log,hlog,(tcpWrite2Until_delivers_iff hlog).mpr hreach⟩

/-- A header of four bytes of which two calls send one each: its third byte is never sent,
and the last byte of the body twice. -/
theorem tcpWrite2Until_skips : ∃ log mem, tcpWrite2Until 4 3 [1,1,4,1] = some log ∧
    whole mem 4 3 = [0,1,2,3,10,11,12] ∧ stream mem log = [0,1,3,10,11,12,12] ∧ ¬ Delivers 4 3 log := by
  refine ⟨_,fun | .buf0,i => UInt8.ofNat i | .buf1,i => UInt8.ofNat (10+i),rfl,by decide,by decide,fun hd => ?_⟩
  exact absurd (hd.1 fun | .buf0,i => UInt8.ofNat i | .buf1,i => UInt8.ofNat (10+i)) (by decide)

end FarMemory.VectoredWrite
