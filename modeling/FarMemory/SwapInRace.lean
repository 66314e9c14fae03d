import FarMemory.ClientRefinement

/-!
# A missing get against a put or a remove of the same key

One client gets a key that it does not find locally: it looks up, reads the server and
puts what it read into the local table. Another client puts or removes the key: a
locked section on the local table, then a removal on the server, which a put that
found the key skips. Every locked section and every call of the server is one step.

The two windows are the one from the read of the server to the re-insertion and the
one from the locked section of the other client to its removal. `overlapped` is a
history variable that says whether they have overlapped. The entries of both clients take at
most 65528 bytes, as in the table itself.
-/
namespace FarMemory.SwapInRace
open Execution Hopscotch Keys
open ServerTable (Cells ClearIn Confused)
open ClientTable (Obj Good Holds Keeps localGet localPut localRemove)

inductive Writer
  | put (v : Bytes)
  | remove
  deriving DecidableEq

inductive GetPc
  | start
  | missed
  | read (v : Bytes)
  | done
  deriving DecidableEq

def GetPc.isRead : GetPc → Bool
  | .read _ => true
  | _ => false

inductive WritePc
  | start
  | pending
  | done
  deriving DecidableEq

structure State where
  base : ClientTable.State
  get : GetPc
  write : WritePc
  overlapped : Bool

def State.init (base : ClientTable.State) : State := ⟨base,.start,.start,false⟩

inductive Act
  | get (core : ℕ)
  | write (core : ℕ)
  deriving DecidableEq

section Steps
variable (shift remoteShift : ℕ) (k : Key)

def getStep (s : State) (core : ℕ) : Option State :=
  match s.get with
  | .start =>
    match localGet s.base.table (homeBucket shift k) k with
    | some _ => some {s with get := .done}
    | none => some {s with get := .missed}
  | .missed =>
    (ServerTable.get remoteShift s.base.remote core k false).map fun r =>
      if r.1 = [] then {s with get := .done}
      else {s with get := .read r.1,overlapped := s.overlapped || s.write == .pending}
  | .read v => (localPut shift true s.base.table k v).map fun r =>
    {s with
      base := {s.base with table := r.2}
      get := .done}
  | .done => none

def writeStep (w : Writer) (s : State) (core : ℕ) : Option State :=
  match s.write with
  | .start =>
    match w with
    | .put v => (localPut shift false s.base.table k v).map fun r =>
      {s with
        base := {s.base with table := r.2}
        write := if r.1 then .done else .pending
        overlapped := s.overlapped || s.get.isRead}
    | .remove => (localRemove s.base.table (homeBucket shift k) k).map fun r =>
      {s with
        base := {s.base with table := r.2}
        write := .pending
        overlapped := s.overlapped || s.get.isRead}
  | .pending => (ServerTable.remove remoteShift s.base.remote core k).map fun r =>
    {s with
      base := {s.base with remote := r.2}
      write := .done}
  | .done => none

def step (w : Writer) (s : State) : Act → Option (Unit × State)
  | .get core => (getStep shift remoteShift k s core).map fun s' => ((),s')
  | .write core => (writeStep shift remoteShift k w s core).map fun s' => ((),s')

end Steps

/-- What a later get should find. -/
def Writer.expected : Writer → Bytes
  | .put v => v
  | .remove => []

/-! ### The two copies of one key -/

/-- No other key of the table is taken for `k`. -/
theorem clearIn_iff {shift : ℕ} {t : Table Obj} {k : Key} (h : Good shift t) : ClearIn Obj.key shift t k ↔
    ∀ k' v d, Holds shift t k' v d → homeBucket shift k' = homeBucket shift k → sameKey k' k = true → k' = k := by
  constructor
  · rintro hc k' v d ⟨i,e,he,rfl,-⟩ hhome hsame
    obtain ⟨-,hi,hbit⟩ := h.placed he
    rw [hi] at he
    have hlt : e.offset < 32 := bit_lt hbit
    rw [show (ClientTable.scheme shift).key e = e.key from rfl] at hhome hsame ⊢
    rw [hhome] at he
    exact hc.eq_key hlt he hhome hsame
  · intro hk o _ hconf
    cases he : t.slot (homeBucket shift k+o) with
    | null => simp [he,Confused] at hconf
    | busy => simp [he,Confused] at hconf
    | entry e =>
      rw [he] at hconf
      exact hconf.1 (hk _ _ _ (h.holds he) hconf.2.1 hconf.2.2)

theorem clear_of_subset {remoteShift : ℕ} {r r' : ServerTable.State} {m m' : Cells} {k : Key}
    (h : ServerTable.Refines remoteShift r m) (h' : ServerTable.Refines remoteShift r' m')
    (hsub : ∀ k, m' k ≠ none → m k ≠ none) (hc : ServerTable.Clear remoteShift r k) :
    ServerTable.Clear remoteShift r' k := by
  intro o _ hconf
  cases he : r'.table.slot (homeBucket remoteShift k+o) with
  | null => simp [he,Confused] at hconf
  | busy => simp [he,Confused] at hconf
  | entry e' =>
    rw [he] at hconf
    -- the key is also in the old table, in the same bucket
    have hne : m e'.key ≠ none := hsub _ (by simp [h'.value ⟨_,he⟩])
    obtain ⟨v,hv⟩ := Option.ne_none_iff_exists'.mp hne
    obtain ⟨e,⟨i,hi⟩,hkey,-⟩ := (h.cells _ _).mp hv
    obtain ⟨o',ho',hbit,-⟩ := h.wf.entry i e hi
    change i = homeBucket remoteShift e.key+o' at ho'
    rw [ho',hkey,hconf.2.1] at hi
    have := hc.eq_key (bit_lt hbit) hi (by rw [hkey]; exact hconf.2.1) (by rw [hkey]; exact hconf.2.2)
    exact hconf.1 (hkey ▸ this)

/-- The local copy and the copy on the server of one key, whatever else there is. -/
structure Copies (shift remoteShift : ℕ) (k : Key) (s : ClientTable.State) (l r : Option Bytes) : Prop where
  good : Good shift s.table
  clear : ClearIn Obj.key shift s.table k
  locally : ∀ v, (∃ d, Holds shift s.table k v d) ↔ l = some v
  remote : ∃ mr, ServerTable.Refines remoteShift s.remote mr ∧ mr k = r
  clearRemote : ServerTable.Clear remoteShift s.remote k

section Copies
variable {shift remoteShift core : ℕ} {k : Key} {s : ClientTable.State} {l r : Option Bytes} {t : Table Obj}
  {v : Bytes} {swapIn existed removed : Bool}

section
variable (h : Copies shift remoteShift k s l r)
include h

theorem Copies.localGet : localGet s.table (homeBucket shift k) k = l := by
  cases hl : ClientTable.localGet s.table (homeBucket shift k) k with
  | some v => exact ((h.locally v).mp (ClientTable.localGet_some h.good h.clear hl)).symm
  | none =>
    cases l with
    | none => rfl
    | some v =>
      obtain ⟨d,hv⟩ := (h.locally v).mpr rfl
      exact absurd hv (ClientTable.localGet_none h.good hl v d)

theorem Copies.localPut
    (hr : localPut shift swapIn s.table k v = some (existed,t)) :
    existed = l.isSome ∧ Copies shift remoteShift k {s with table := t} (some v) r := by
  have hok := ClientTable.localPut_spec h.good h.clear hr
  obtain ⟨d,hself,-⟩ := hok.self
  refine ⟨?_,hok.good,?_,?_,h.remote,h.clearRemote⟩
  · rw [Bool.eq_iff_iff,hok.found,Option.isSome_iff_exists]
    exact exists_congr h.locally
  · rw [clearIn_iff hok.good]
    intro k' v' d' hv hhome hsame
    by_contra hne
    obtain ⟨d0,h0,-⟩ := hok.keeps.fwd k' v' d' hne hv
    exact hne ((clearIn_iff h.good).mp h.clear k' v' d0 h0 hhome hsame)
  · intro v'
    rw [Option.some.injEq]
    constructor
    · rintro ⟨d',hv⟩
      exact (hok.good.unique hself hv).1
    · rintro rfl
      exact ⟨d,hself⟩

theorem Copies.localRemove
    (hr : localRemove s.table (homeBucket shift k) k = some (removed,t)) :
    Copies shift remoteShift k {s with table := t} none r := by
  obtain ⟨removed',t',hl,hgood,-,hmaps⟩ := ClientTable.localRemove_spec h.good h.clear
  rw [hl] at hr
  cases hr
  refine ⟨hgood,?_,?_,h.remote,h.clearRemote⟩
  · rw [clearIn_iff hgood]
    intro k' v' d' hv
    exact (clearIn_iff h.good).mp h.clear k' v' d' ((hmaps k' v' d').mp hv).2
  · intro v'
    simp [hmaps]

theorem Copies.remoteGet :
    ServerTable.get remoteShift s.remote core k false = some (r.getD [],s.remote) := by
  obtain ⟨mr,hmr,rfl⟩ := h.remote
  exact hmr.get_eq h.clearRemote

theorem Copies.remoteRemove {b : Bool} {remote : ServerTable.State}
    (hr : ServerTable.remove remoteShift s.remote core k = some (b,remote)) :
    Copies shift remoteShift k {s with remote := remote} l none := by
  obtain ⟨mr,hmr,-⟩ := h.remote
  have hmr' := (hmr.remove h.clearRemote hr).2
  refine ⟨h.good,h.clear,h.locally,⟨_,hmr',Function.update_self ..⟩,clear_of_subset hmr hmr' ?_ h.clearRemote⟩
  intro k' hk'
  by_cases hkk : k' = k
  · simp [hkk] at hk'
  · rwa [Function.update_of_ne hkk] at hk'

end

end Copies

/-! ### Interleavings -/

/-- The local copy that the other client leaves. -/
def Writer.local : Writer → Option Bytes
  | .put v => some v
  | .remove => none

/-- The copies after the locked section of the other client. If the windows overlap,
the value `v` that was read from the server ends in the local table. -/
def After (w : Writer) (r₀ : Option Bytes) (get : GetPc) (overlapped : Bool) (l : Option Bytes) : Prop :=
  (overlapped = false ∧ l = w.local ∧ get.isRead = false) ∨
    (overlapped = true ∧ ∃ v, r₀ = some v ∧ v ≠ [] ∧ (get = .read v ∧ l = w.local ∨ get = .done ∧ l = some v))

/-- The copies by the positions of both clients, for the copy `r₀` that the server had. -/
def Control (w : Writer) (r₀ : Option Bytes) (get : GetPc) (overlapped : Bool) (l r : Option Bytes) : WritePc → Prop
  | .start => r = r₀ ∧ overlapped = false ∧
      match get with
      | .missed => l = none
      | .read v => l = none ∧ r₀ = some v ∧ v ≠ []
      | _ => True
  | .pending => r = r₀ ∧ After w r₀ get overlapped l
  | .done => (r = none ∨ w.local ≠ none ∧ overlapped = false ∧ get ≠ .missed) ∧ After w r₀ get overlapped l

def Inv (shift remoteShift : ℕ) (w : Writer) (k : Key) (r₀ : Option Bytes) (s : State) : Prop :=
  ∃ l r, Copies shift remoteShift k s.base l r ∧ Control w r₀ s.get s.overlapped l r s.write

section Runs
variable {shift remoteShift core : ℕ} {w : Writer} {k : Key} {r₀ : Option Bytes} {s s' : State}

/-- A position other than `read`, reached from one other than `read`, keeps the copies
after the locked section. -/
theorem After.moves {get : GetPc} (get' : GetPc) {overlapped : Bool} {l : Option Bytes} (h : After w r₀ get overlapped l)
    (hread : get.isRead = false) (hdone : get ≠ .done) (hread' : get'.isRead = false) :
    overlapped = false ∧ l = w.local ∧ After w r₀ get' overlapped l := by
  rcases h with ⟨hov,hl,-⟩ | ⟨-,v,-,-,⟨rfl,-⟩ | ⟨rfl,-⟩⟩
  · exact ⟨hov,hl,.inl ⟨hov,hl,hread'⟩⟩
  · cases hread
  · exact absurd rfl hdone

theorem Inv.getStep (h : Inv shift remoteShift w k r₀ s) (hr : getStep shift remoteShift k s core = some s') :
    Inv shift remoteShift w k r₀ s' := by
  obtain ⟨base,get,write,overlapped⟩ := s
  obtain ⟨l,r,hcopies,hctl⟩ := h
  cases get with
  | start =>
    simp only [SwapInRace.getStep,hcopies.localGet] at hr
    cases l with
    | none =>
      cases hr
      refine ⟨none,r,hcopies,?_⟩
      cases write with
      | start => exact ⟨hctl.1,hctl.2.1,rfl⟩
      | pending => exact ⟨hctl.1,(hctl.2.moves .missed rfl (by simp) rfl).2.2⟩
      | done =>
        obtain ⟨-,hl,hafter⟩ := hctl.2.moves .missed rfl (by simp) rfl
        exact ⟨hctl.1.imp_right fun hx => absurd hl.symm hx.1,hafter⟩
    | some v =>
      cases hr
      refine ⟨some v,r,hcopies,?_⟩
      cases write with
      | start => exact ⟨hctl.1,hctl.2.1,trivial⟩
      | pending => exact ⟨hctl.1,(hctl.2.moves .done rfl (by simp) rfl).2.2⟩
      | done => exact ⟨hctl.1.imp_right fun hx => ⟨hx.1,hx.2.1,by simp⟩,(hctl.2.moves .done rfl (by simp) rfl).2.2⟩
  | missed =>
    simp only [SwapInRace.getStep,hcopies.remoteGet,Option.map_some,Option.some.injEq] at hr
    subst hr
    by_cases hv : r.getD [] = []
    · rw [if_pos hv]
      refine ⟨l,r,hcopies,?_⟩
      cases write with
      | start => exact ⟨hctl.1,hctl.2.1,trivial⟩
      | pending => exact ⟨hctl.1,(hctl.2.moves .done rfl (by simp) rfl).2.2⟩
      | done => exact ⟨hctl.1.imp_right fun hx => absurd rfl hx.2.2,(hctl.2.moves .done rfl (by simp) rfl).2.2⟩
    · rw [if_neg hv]
      refine ⟨l,r,hcopies,?_⟩
      obtain ⟨v,rfl⟩ : ∃ v, r = some v := Option.isSome_iff_exists.mp (by cases r <;> simp_all)
      cases write with
      | start =>
        have hov : overlapped = false := hctl.2.1
        exact ⟨hctl.1,by simp [hov],hctl.2.2,hctl.1.symm,hv⟩
      | pending =>
        obtain ⟨-,hl,-⟩ := hctl.2.moves .done rfl (by simp) rfl
        exact ⟨hctl.1,.inr ⟨by simp,v,hctl.1.symm,hv,.inl ⟨rfl,hl⟩⟩⟩
      | done =>
        rcases hctl.1 with hx | hx
        · cases hx
        · exact absurd rfl hx.2.2
  | read v =>
    simp only [SwapInRace.getStep,Option.map_eq_some_iff] at hr
    obtain ⟨⟨existed,t⟩,hput,rfl⟩ := hr
    refine ⟨some v,r,(hcopies.localPut hput).2,?_⟩
    -- re-inserting after the other client means that the windows overlapped
    have hafter : After w r₀ (.read v) overlapped l → overlapped = true ∧ After w r₀ .done overlapped (some v) := by
      rintro (⟨-,-,hx⟩ | ⟨hov,v',hv',hne,⟨hx,-⟩ | ⟨hx,-⟩⟩)
      · cases hx
      · cases hx
        exact ⟨hov,.inr ⟨hov,v,hv',hne,.inr ⟨rfl,rfl⟩⟩⟩
      · cases hx
    cases write with
    | start => exact ⟨hctl.1,hctl.2.1,trivial⟩
    | pending => exact ⟨hctl.1,(hafter hctl.2).2⟩
    | done =>
      obtain ⟨hov,hdone⟩ := hafter hctl.2
      exact ⟨hctl.1.imp_right fun hx => absurd (hov.symm.trans hx.2.1) (by simp),hdone⟩
  | done => cases hr

theorem Inv.writeStep (h : Inv shift remoteShift w k r₀ s) (hr : writeStep shift remoteShift k w s core = some s') :
    Inv shift remoteShift w k r₀ s' := by
  obtain ⟨base,get,write,overlapped⟩ := s
  obtain ⟨l,r,hcopies,hctl⟩ := h
  cases write with
  | start =>
    cases w with
    | put v =>
      simp only [SwapInRace.writeStep,Option.map_eq_some_iff] at hr
      obtain ⟨⟨existed,t⟩,hput,rfl⟩ := hr
      obtain ⟨hex,hcopies'⟩ := hcopies.localPut hput
      refine ⟨some v,r,hcopies',?_⟩
      cases l <;> cases get <;> simp_all [Control,After,GetPc.isRead,Writer.local]
    | remove =>
      simp only [SwapInRace.writeStep,Option.map_eq_some_iff] at hr
      obtain ⟨⟨removed,t⟩,hrem,rfl⟩ := hr
      refine ⟨none,r,hcopies.localRemove hrem,?_⟩
      cases get <;> simp_all [Control,After,GetPc.isRead,Writer.local]
  | pending =>
    simp only [SwapInRace.writeStep,Option.map_eq_some_iff] at hr
    obtain ⟨⟨b,remote⟩,hrem,rfl⟩ := hr
    exact ⟨l,none,hcopies.remoteRemove hrem,.inl rfl,hctl.2⟩
  | done => cases hr

theorem Inv.run {base : ClientTable.State} {tr : List (Act × Unit)} (h0 : Inv shift remoteShift w k r₀ (.init base))
    (h : Trace (step shift remoteShift k w) (fun _ _ => True) (.init base) tr s) : Inv shift remoteShift w k r₀ s := by
  refine h.invariant h0 ?_
  intro s a _ s' _ hi hs
  cases a with
  | get core =>
    obtain ⟨s1,hg,⟨⟩⟩ := Option.map_eq_some_iff.mp hs
    exact hi.getStep hg
  | write core =>
    obtain ⟨s1,hg,⟨⟩⟩ := Option.map_eq_some_iff.mp hs
    exact hi.writeStep hg

theorem Copies.get {base : ClientTable.State} {l r : Option Bytes} (h : Copies shift remoteShift k base l r)
    (hlr : l ≠ none ∨ r = none) :
    (ClientTable.get shift remoteShift base core k).map Prod.fst = some (l.getD []) := by
  rw [ClientTable.get,h.localGet]
  cases l with
  | some v => rfl
  | none =>
    have hr : r = none := by simpa using hlr
    simp [ClientTable.forwardGet,h.remoteGet,hr]

end Runs

/-- Once both clients are done, a get finds what the put wrote, or a miss after the
remove, exactly if the windows did not overlap or the server had the value of the put
already. -/
theorem swap_in_race_iff {shift remoteShift : ℕ} {w : Writer} {k : Key} {base : ClientTable.State} {m mr : Cells}
    {tr : List (Act × Unit)} {s : State} (href : ClientTable.Refines shift remoteShift base m mr)
    (hclear : ClientTable.ClearFor shift remoteShift base (.get 0 k))
    (h : Trace (step shift remoteShift k w) (fun _ _ => True) (.init base) tr s) (hget : s.get = .done)
    (hwrite : s.write = .done) (core : ℕ) :
    (ClientTable.get shift remoteShift s.base core k).map Prod.fst = some w.expected ↔
      s.overlapped = false ∨ ∃ v, w = .put v ∧ mr k = some v := by
  have hstart : Copies shift remoteShift k base (localGet base.table (homeBucket shift k) k) (mr k) := by
    refine ⟨href.good,hclear.1,?_,⟨mr,href.remote,rfl⟩,hclear.2⟩
    intro v
    constructor
    · rintro ⟨d,hv⟩
      cases hl : localGet base.table (homeBucket shift k) k with
      | none => exact absurd hv (ClientTable.localGet_none href.good hl v d)
      | some v' =>
        obtain ⟨d',hv'⟩ := ClientTable.localGet_some href.good hclear.1 hl
        rw [(href.good.unique hv hv').1]
    · exact ClientTable.localGet_some href.good hclear.1
  obtain ⟨l,r,hcopies,hctl⟩ := Inv.run ⟨_,_,hstart,rfl,rfl,trivial⟩ h
  rw [hget,hwrite] at hctl
  obtain ⟨hr,hafter⟩ := hctl
  rcases hafter with ⟨hov,hl,-⟩ | ⟨hov,v,hmr,hne,hcase⟩
  · rw [hcopies.get (by rcases hr with hr | hr; exacts [.inr hr,.inl (hl ▸ hr.1)]),hov,hl]
    cases w <;> simp [Writer.local,Writer.expected]
  · have hl : l = some v := by simpa using hcase
    rw [hcopies.get (.inl (by simp [hl])),hov,hl,hmr]
    cases w with
    | put v₂ => simp [Writer.expected,eq_comm]
    | remove => simp [Writer.expected,hne]

/-- One key whose only copy is on the server: it was put and evicted. -/
def remoteOnly : ClientTable.State :=
  ((exec (ClientTable.step 0 0) (fun _ op => op.OnKeys {k | (0 : UInt8) ∉ k.bytes}) (.new 4096 65536)
    [.put 0 (ServerTable.plainKey 1) [5],.evict 0 0]).map Prod.snd).getD (.new 0 0)

theorem remoteOnly_refines : ∃ m mr, ClientTable.Refines 0 0 remoteOnly m mr ∧
    ClientTable.ClearFor 0 0 remoteOnly (.get 0 (ServerTable.plainKey 1)) := by
  have hrun : (exec (ClientTable.step 0 0) (fun _ op => op.OnKeys {k | (0 : UInt8) ∉ k.bytes}) (.new 4096 65536)
      [.put 0 (ServerTable.plainKey 1) [5],.evict 0 0]).isSome = true := by decide +kernel
  obtain ⟨⟨outs,base⟩,he⟩ := Option.isSome_iff_exists.mp hrun
  have hbase : remoteOnly = base := by simp [remoteOnly,he]
  obtain ⟨⟨mr,href⟩,hm⟩ := ClientTable.refines_run_onKeys distinguishable_nulFree (exec_trace he)
  rw [hbase]
  exact ⟨_,mr,href,href.clear distinguishable_nulFree hm (by decide)⟩

/-- The get is complete before the put of a longer value starts. -/
theorem swap_in_race_iff_sequential : ∃ tr s,
    Trace (step 0 0 (ServerTable.plainKey 1) (.put [6,7])) (fun _ _ => True) (.init remoteOnly) tr s ∧
      s.get = .done ∧ s.write = .done ∧
      (ClientTable.get 0 0 s.base 0 (ServerTable.plainKey 1)).map Prod.fst = some [6,7] := by
  have hrun : (exec (step 0 0 (ServerTable.plainKey 1) (.put [6,7])) (fun _ _ => True) (.init remoteOnly)
      [.get 0,.get 0,.get 0,.write 0]).map (fun r => (r.2.get,r.2.write,r.2.overlapped)) =
      some (.done,.done,false) := by decide +kernel
  obtain ⟨outs,s,ht,hobs⟩ := exec_observe hrun
  simp only [Prod.mk.injEq] at hobs
  obtain ⟨hget,hwrite,hov⟩ := hobs
  obtain ⟨m,mr,href,hclear⟩ := remoteOnly_refines
  exact ⟨_,s,ht,hget,hwrite,(swap_in_race_iff href hclear ht hget hwrite 0).mpr (.inl hov)⟩

/-- The put of a new value falls between the read of the server and the re-insertion,
and a later get finds the old value. -/
theorem swap_in_loses_put : ∃ tr s,
    Trace (step 0 0 (ServerTable.plainKey 1) (.put [6])) (fun _ _ => True) (.init remoteOnly) tr s ∧
      s.get = .done ∧ s.write = .done ∧
      (ClientTable.get 0 0 s.base 0 (ServerTable.plainKey 1)).map Prod.fst = some [5] := by
  have hrun : (exec (step 0 0 (ServerTable.plainKey 1) (.put [6])) (fun _ _ => True) (.init remoteOnly)
      [.get 0,.get 0,.write 0,.write 0,.get 0]).map (fun r => (r.2.get,r.2.write,
        (ClientTable.get 0 0 r.2.base 0 (ServerTable.plainKey 1)).map Prod.fst)) =
      some (.done,.done,some [5]) := by decide +kernel
  obtain ⟨outs,s,ht,hobs⟩ := exec_observe hrun
  simp only [Prod.mk.injEq] at hobs
  exact ⟨_,s,ht,hobs⟩

end FarMemory.SwapInRace
