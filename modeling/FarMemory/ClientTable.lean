import FarMemory.PointerMeta
import FarMemory.ServerTable

/-!
# The hash table of the client

`GenericConcurrentHopscotch` in the default, non-exclusive build. A slot points to a
local object whose data are the value and the metadata `EvacNotifierMeta`, by which
an eviction finds the slot again; the key is the object's id. Evicting an object
empties its slot, so a slot that is neither null nor busy always leads to local data:
the object stands in the slot here, with the dirty flag of its pointer.

`attempt` is one pass through the body of `_put` from the label `retry` on. The calls
of the allocator are answered by a flag. An entry that a lookup of `put` dereferences
becomes dirty even if it holds another key.

The table is one of entries of up to 65528 bytes, for which the allocator reserves enough.
-/
namespace FarMemory.ClientTable
open Execution Hopscotch Keys
open ServerTable (numEntries kNeighborhood Cells)
open PointerMeta (kHeaderSize kMaxObjectDataSize kEvacNotifierMetaSize)

structure Obj where
  key : Key
  val : Bytes
  dirty : Bool
  anchor : ℕ
  offset : ℕ
  deriving DecidableEq

def accepts (k : Key) (e : Obj) : Bool := sameKey e.key k

/-- A displaced entry only learns its new offset. -/
def relocate (o : ℕ) (e : Obj) : Obj := {e with offset := o}

/-- The offsets a lookup dereferences. -/
def visited (accept : Obj → Bool) (t : Table Obj) (b : ℕ) : List ℕ → List ℕ
  | [] => []
  | o::os =>
    match t.slot (b+o) with
    | .entry e => if accept e then [o] else o::visited accept t b os
    | _ => [o]

/-- Dereferencing for writing sets the dirty flags. -/
def touch (mutable : Bool) (accept : Obj → Bool) (t : Table Obj) (b : ℕ) : Table Obj :=
  t.mapEntries fun i e =>
    {e with dirty := e.dirty || (mutable && (visited accept t b (offsets (t.bitmap b))).any fun o => b+o == i)}

inductive Retry
  | lookupNull
  | reallocFail
  | displaceNull
  | allocFail
  deriving DecidableEq

inductive Attempt
  | done (existed : Bool) (t : Table Obj)
  | retry (why : Retry) (bucketIdx : ℕ) (t : Table Obj)
  | abort

def newObj (k : Key) (v : Bytes) (swapIn : Bool) (b o : ℕ) : Obj := ⟨k,v,!swapIn,b,o⟩

/-- The key is there: write in place, or into an object of another size, which keeps
the id of the old one. -/
def overwrite (allocOk swapIn : Bool) (t : Table Obj) (b o : ℕ) (e : Obj) (v : Bytes) : Attempt :=
  if e.val.length+kEvacNotifierMetaSize = v.length+kEvacNotifierMetaSize then
    .done true (t.setSlot (b+o) (.entry {e with val := v,dirty := e.dirty || !swapIn}))
  else if allocOk then .done true (t.setSlot (b+o) (.entry (newObj e.key v swapIn b o)))
  else .retry .reallocFail b t

/-- The key is not there: claim a slot, bring it near and publish. -/
def insertNew (n : ℕ) (allocOk swapIn : Bool) (t : Table Obj) (b : ℕ) (k : Key) (v : Bytes) : Attempt :=
  match probe t n b with
  | none => .abort
  | some f =>
    match bring relocate (t.setSlot f .busy) b f with
    | .stuck => .abort
    | .hole f' t' => .retry .displaceNull f' (t'.setSlot f' .null)
    | .ready f' t' =>
      if allocOk then
        .done false ((t'.setSlot f' (.entry (newObj k v swapIn b (f'-b)))).setBit b (f'-b))
      else .retry .allocFail f' t'

def attempt (n : ℕ) (allocOk swapIn : Bool) (t : Table Obj) (b : ℕ) (k : Key) (v : Bytes) : Attempt :=
  match lookup (accepts k) t b with
  | .hole _ => .retry .lookupNull b (touch (!swapIn) (accepts k) t b)
  | .entry o e => overwrite allocOk swapIn (touch (!swapIn) (accepts k) t b) b o e v
  | .missing => insertNew n allocOk swapIn (touch (!swapIn) (accepts k) t b) b k v

/-! ### Whole operations of one mutator -/

structure State where
  table : Table Obj
  remote : ServerTable.State

def State.new (base len : ℕ) : State := ⟨.empty,.new base len⟩

section Operations
variable (shift remoteShift : ℕ)

/-- The value is one that an object may hold, and header, value, metadata and key take no more bytes
than the allocator reserves for them. -/
def Fits (k : Key) (v : Bytes) : Prop :=
  v.length+kEvacNotifierMetaSize ≤ kMaxObjectDataSize ∧ kHeaderSize+(kEvacNotifierMetaSize+v.length)+k.len ≤ 65528

instance (k : Key) (v : Bytes) : Decidable (Fits k v) := inferInstanceAs (Decidable (_ ∧ _))

def localGet (t : Table Obj) (b : ℕ) (k : Key) : Option Bytes :=
  (lookupSkip (accepts k) t b).map fun r => r.2.val

/-- The locked section of `_put`, without failing allocations, of an entry that fits. What the
code does with any other is not a question of the table, but of the bytes in the region. -/
def localPut (swapIn : Bool) (t : Table Obj) (k : Key) (v : Bytes) : Option (Bool × Table Obj) :=
  if Fits k v then
    match attempt (numEntries shift) true swapIn t (homeBucket shift k) k v with
    | .done existed t' => some (existed,t')
    | _ => none
  else none

/-- The locked section of `_remove`. -/
def localRemove (t : Table Obj) (b : ℕ) (k : Key) : Option (Bool × Table Obj) :=
  match lookup (accepts k) t b with
  | .entry o _ => some (true,(t.setSlot (b+o) .null).flipBit b o)
  | .missing => some (false,t)
  | .hole _ => none

def put (s : State) (core : ℕ) (k : Key) (v : Bytes) : Option (Bool × State) :=
  match localPut shift false s.table k v with
  | none => none
  | some (true,t) => some (true,{s with table := t})
  | some (false,t) => (ServerTable.remove remoteShift s.remote core k).map fun r => (false,⟨t,r.2⟩)

def forwardGet (s : State) (core : ℕ) (k : Key) : Option (Bytes × State) :=
  match ServerTable.get remoteShift s.remote core k false with
  | none => none
  | some (v,remote) =>
    if v = [] then some ([],⟨s.table,remote⟩)
    else (localPut shift true s.table k v).map fun r => (v,⟨r.2,remote⟩)

/-- The empty value is a miss. -/
def get (s : State) (core : ℕ) (k : Key) : Option (Bytes × State) :=
  match localGet s.table (homeBucket shift k) k with
  | some v => some (v,s)
  | none => forwardGet shift remoteShift s core k

def remove (s : State) (core : ℕ) (k : Key) : Option (Bool × State) :=
  match localRemove s.table (homeBucket shift k) k with
  | none => none
  | some (removed,t) => (ServerTable.remove remoteShift s.remote core k).map fun r => (r.1 || removed,⟨t,r.2⟩)

/-- The collector evicts the object in slot `i`: it writes a dirty one back and tells
the table, which finds the slot by the metadata of the object. -/
def evict (s : State) (core i : ℕ) : Option State :=
  match s.table.slot i with
  | .entry e =>
    let t := (s.table.setSlot (e.anchor+e.offset) .null).flipBit e.anchor e.offset
    if e.dirty then (ServerTable.put remoteShift s.remote core e.key e.val).map fun r => ⟨t,r.2⟩
    else some {s with table := t}
  | _ => none

end Operations

inductive Op
  | put (core : ℕ) (k : Key) (v : Bytes)
  | get (core : ℕ) (k : Key)
  | remove (core : ℕ) (k : Key)
  | evict (core i : ℕ)
  deriving DecidableEq

inductive Outcome
  | flag (b : Bool)
  | value (v : Bytes)
  | unit
  deriving DecidableEq

def step (shift remoteShift : ℕ) (s : State) : Op → Option (Outcome × State)
  | .put core k v => (put shift remoteShift s core k v).map fun r => (.flag r.1,r.2)
  | .get core k => (get shift remoteShift s core k).map fun r => (.value r.1,r.2)
  | .remove core k => (remove shift remoteShift s core k).map fun r => (.flag r.1,r.2)
  | .evict core i => (evict remoteShift s core i).map fun s' => (.unit,s')

/-! ### Tables of one mutator -/

structure Copy where
  val : Bytes
  dirty : Bool
  anchor : ℕ

def scheme (shift : ℕ) : Scheme Obj Key Copy where
  key := Obj.key
  payload := fun e => ⟨e.val,e.dirty,e.anchor⟩
  home := homeBucket shift
  relocate := relocate
  Placed := fun e o => e.offset = o
  key_relocate := fun _ _ => rfl
  payload_relocate := fun _ _ => rfl
  placed_relocate := fun _ _ => rfl

def Holds (shift : ℕ) (t : Table Obj) (k : Key) (v : Bytes) (d : Bool) : Prop :=
  Maps (scheme shift) t k ⟨v,d,homeBucket shift k⟩

/-- No notice is pending, no slot is claimed, and every object names its bucket. -/
structure Good (shift : ℕ) (t : Table Obj) : Prop where
  wf : WF (scheme shift) (numEntries shift) ∅ ∅ t
  anchored : ∀ k p, Maps (scheme shift) t k p → p.anchor = homeBucket shift k

section Tables
variable {shift n b o : ℕ} {stale : Set (ℕ × ℕ)} {claimed : Set ℕ} {t t' : Table Obj} {k k' : Key} {v v' : Bytes}
  {e : Obj} {d mutable swapIn existed : Bool} {accept : Obj → Bool}

theorem Good.empty : Good shift .empty := by
  refine ⟨WF.empty,?_⟩
  rintro k p ⟨i,e,he,-⟩
  cases he

theorem Good.holds (h : Good shift t) {i : ℕ} (he : t.slot i = .entry e) : Holds shift t e.key e.val e.dirty := by
  have ha := h.anchored e.key _ ⟨i,e,he,rfl,rfl⟩
  refine ⟨i,e,he,rfl,?_⟩
  rw [← ha]
  rfl

theorem Good.unique {d' : Bool} (h : Good shift t) (hv : Holds shift t k v d) (hv' : Holds shift t k v' d') :
    v = v' ∧ d = d' := by
  have heq := Maps.unique h.wf hv hv'
  rw [Copy.mk.injEq] at heq
  exact ⟨heq.1,heq.2.1⟩

theorem touch_slot {i : ℕ} : (touch mutable accept t b).slot i = .entry e ↔ ∃ e0, t.slot i = .entry e0 ∧
    e = {e0 with dirty := e0.dirty || (mutable && (visited accept t b (offsets (t.bitmap b))).any fun o => b+o == i)} :=
  mapEntries_entry

theorem touch_wf (h : WF (scheme shift) n stale claimed t) :
    WF (scheme shift) n stale claimed (touch mutable accept t b) :=
  h.mapEntries (fun _ _ => rfl) (fun _ _ _ hp => hp)

theorem touch_maps {a : ℕ} (h : Maps (scheme shift) (touch mutable accept t b) k ⟨v,d,a⟩) :
    ∃ d₀, Maps (scheme shift) t k ⟨v,d₀,a⟩ ∧ (d = false → d₀ = false) := by
  obtain ⟨i,e,he,rfl,hp⟩ := h
  obtain ⟨e0,he0,rfl⟩ := touch_slot.mp he
  simp only [scheme,Copy.mk.injEq] at hp
  obtain ⟨rfl,hd,rfl⟩ := hp
  refine ⟨e0.dirty,⟨i,e0,he0,rfl,rfl⟩,?_⟩
  rintro rfl
  exact (Bool.or_eq_false_iff.mp hd).1

theorem maps_touch {a : ℕ} (h : Maps (scheme shift) t k ⟨v,d,a⟩) :
    ∃ d', Maps (scheme shift) (touch mutable accept t b) k ⟨v,d',a⟩ := by
  obtain ⟨i,e,he,rfl,hp⟩ := h
  simp only [scheme,Copy.mk.injEq] at hp
  obtain ⟨rfl,rfl,rfl⟩ := hp
  exact ⟨_,i,_,touch_slot.mpr ⟨e,he,rfl⟩,rfl,rfl⟩

theorem Good.touch (h : Good shift t) : Good shift (touch mutable accept t b) := by
  refine ⟨touch_wf h.wf,?_⟩
  intro k p hp
  obtain ⟨d₀,hm,-⟩ := touch_maps hp
  exact h.anchored k ⟨p.val,d₀,p.anchor⟩ hm

/-- What the other keys can notice of an operation on `k`. -/
structure Keeps (shift : ℕ) (k : Key) (t t' : Table Obj) : Prop where
  fwd : ∀ k' v d, k' ≠ k → Holds shift t' k' v d → ∃ d₀, Holds shift t k' v d₀ ∧ (d = false → d₀ = false)
  bwd : ∀ k' v d, k' ≠ k → Holds shift t k' v d → ∃ d', Holds shift t' k' v d'

theorem Keeps.touch : Keeps shift k t (touch mutable accept t b) :=
  ⟨fun _ _ _ _ => touch_maps,fun _ _ _ _ => maps_touch⟩

theorem Keeps.trans {t'' : Table Obj} (h : Keeps shift k t t') (h' : Keeps shift k t' t'') : Keeps shift k t t'' := by
  refine ⟨?_,?_⟩
  · intro k' v d hk hv
    obtain ⟨d1,h1,hd1⟩ := h'.fwd k' v d hk hv
    obtain ⟨d₀,h0,hd0⟩ := h.fwd k' v d1 hk h1
    exact ⟨d₀,h0,fun hd => hd0 (hd1 hd)⟩
  · intro k' v d hk hv
    obtain ⟨d1,h1⟩ := h.bwd k' v d hk hv
    exact h'.bwd k' v d1 hk h1

/-- The effect of a completed locked section of `_put`. -/
structure PutOk (shift : ℕ) (swapIn : Bool) (k : Key) (v : Bytes) (existed : Bool) (t t' : Table Obj) : Prop where
  good : Good shift t'
  keeps : Keeps shift k t t'
  found : existed = true ↔ ∃ v d, Holds shift t k v d
  self : ∃ d, Holds shift t' k v d ∧ (swapIn = false → d = true) ∧ (existed = false → d = !swapIn)

theorem Good.replace {i : ℕ} {e' : Obj} (h : Good shift t) (he : t.slot i = .entry e) (hkey : e'.key = e.key)
    (hanchor : e'.anchor = homeBucket shift e.key) (hoffset : e'.offset = e.offset) :
    Good shift (t.setSlot i (.entry e')) ∧ Keeps shift e.key t (t.setSlot i (.entry e')) ∧
      Holds shift (t.setSlot i (.entry e')) e.key e'.val e'.dirty := by
  have hmaps := Maps.replace h.wf he hkey
  refine ⟨⟨h.wf.replace he hkey fun o ho => hoffset.trans ho,?_⟩,⟨?_,?_⟩,?_⟩
  · intro k p hp
    rcases (hmaps k p).mp hp with ⟨rfl,rfl⟩ | ⟨-,hm⟩
    · exact hanchor
    · exact h.anchored k p hm
  · intro k' v d hk hv
    rcases (hmaps k' _).mp hv with ⟨hk',-⟩ | ⟨-,hm⟩
    · exact absurd hk' hk
    · exact ⟨d,hm,id⟩
  · intro k' v d hk hv
    exact ⟨d,(hmaps k' _).mpr (.inr ⟨hk,hv⟩)⟩
  · refine (hmaps e.key _).mpr (.inl ⟨rfl,?_⟩)
    rw [← hanchor]
    rfl

/-- A value for a key that is there: in place, or in a new object that knows its place. -/
theorem overwrite_cases {allocOk : Bool} {r : Attempt} (hr : overwrite allocOk swapIn t b o e v = r) :
    (allocOk = false ∧ r = .retry .reallocFail b t) ∨
      ∃ x, x.key = e.key ∧ x.val = v ∧ (swapIn = false → x.dirty = true) ∧
        (x.anchor = e.anchor ∧ x.offset = e.offset ∨ x.anchor = b ∧ x.offset = o) ∧
        r = .done true (t.setSlot (b+o) (.entry x)) := by
  subst hr
  rw [overwrite]
  split
  · exact .inr ⟨{e with val := v,dirty := e.dirty || !swapIn},rfl,rfl,by simp +contextual,.inl ⟨rfl,rfl⟩,rfl⟩
  · cases allocOk with
    | true => exact .inr ⟨newObj e.key v swapIn b o,rfl,rfl,by simp +contextual [newObj],.inr ⟨rfl,rfl⟩,rfl⟩
    | false => exact .inl ⟨rfl,rfl⟩

theorem overwrite_spec (h : Good shift t) (hhome : homeBucket shift e.key = b) (he : t.slot (b+o) = .entry e)
    (hr : overwrite true swapIn (touch (!swapIn) accept t b) b o e v = .done existed t') :
    PutOk shift swapIn e.key v existed t t' := by
  obtain ⟨e1,he1,hk1,ha1,ho1⟩ : ∃ e1, (touch (!swapIn) accept t b).slot (b+o) = .entry e1 ∧ e1.key = e.key ∧
      e1.anchor = e.anchor ∧ e1.offset = e.offset := ⟨_,touch_slot.mpr ⟨e,he,rfl⟩,rfl,rfl,rfl⟩
  have hhold := h.holds he
  have hanchor : e.anchor = homeBucket shift e.key := h.anchored e.key _ ⟨b+o,e,he,rfl,rfl⟩
  have hoffset : e.offset = o := by
    obtain ⟨o',ho',-,hp⟩ := h.wf.entry (b+o) e he
    change b+o = homeBucket shift e.key+o' at ho'
    change e.offset = o' at hp
    omega
  rcases overwrite_cases hr with ⟨hfail,-⟩ | ⟨x,hk,rfl,hd,hplace,hdone⟩
  · cases hfail
  cases hdone
  have hxa : x.anchor = homeBucket shift e.key := by
    rcases hplace with ⟨ha,-⟩ | ⟨ha,-⟩
    · exact ha.trans hanchor
    · exact ha.trans hhome.symm
  have hxo : x.offset = e.offset := by
    rcases hplace with ⟨-,ho⟩ | ⟨-,ho⟩
    · exact ho
    · exact ho.trans hoffset.symm
  obtain ⟨hgood,hkeeps,hself⟩ := h.touch.replace he1 (hk.trans hk1.symm) (by rw [hxa,hk1]) (hxo.trans ho1.symm)
  rw [hk1] at hkeeps hself
  exact ⟨hgood,Keeps.touch.trans hkeeps,iff_of_true rfl ⟨_,_,hhold⟩,_,hself,hd,by simp⟩

theorem insertNew_spec (h : Good shift t) (hhome : homeBucket shift k = b)
    (habs : ∀ v d, ¬Holds shift t k v d)
    (hr : insertNew (numEntries shift) true swapIn (touch mutable accept t b) b k v = .done existed t') :
    PutOk shift swapIn k v existed t t' := by
  have hg : Good shift (touch mutable accept t b) := h.touch
  have hkeeps : Keeps shift k t (touch mutable accept t b) := .touch
  have habs' : ∀ i e, (touch mutable accept t b).slot i = .entry e → e.key ≠ k := by
    rintro i e he rfl
    obtain ⟨d₀,hd0,-⟩ := touch_maps (hg.holds he)
    exact habs _ _ hd0
  generalize touch mutable accept t b = t1 at *
  rw [insertNew] at hr
  cases hp : probe t1 (numEntries shift) b with
  | none => simp [hp] at hr
  | some f =>
    simp only [hp] at hr
    obtain ⟨hle,hlt,hnull⟩ := probe_spec hp
    have hstart := Hopped.claim hg.wf hlt hnull (by simp [StaleBehind])
    cases hb : bring relocate (t1.setSlot f .busy) b f with
    | stuck => simp [hb] at hr
    | hole f' t2 => simp [hb] at hr
    | ready f' t2 =>
      simp only [hb,if_true,Attempt.done.injEq] at hr
      obtain ⟨rfl,rfl⟩ := hr
      obtain ⟨hopped,hge,hnear⟩ := hstart.ready hle hb
      have hnew : ∀ j x, t2.slot j = .entry x → x.key ≠ k := by
        intro j x hx
        obtain ⟨i,y,hy,hyk,-⟩ := (hopped.maps x.key _).mp ⟨j,x,hx,rfl,rfl⟩
        have := habs' i y hy
        rwa [← hyk]
      have hbusy : t2.slot f' = .busy := (hopped.wf.busy f').mpr rfl
      have hmaps := Maps.fill (S := scheme shift) (f := f') (e := newObj k v swapIn b (f'-b)) (b := b)
        (o := f'-b) (by simp [hbusy]) hnew
      have hwf := hopped.wf.fill rfl (e := newObj k v swapIn b (f'-b)) (o := f'-b) (by omega) (by
        change f' = homeBucket shift k+(f'-b)
        omega) rfl hnew
      rw [Set.sdiff_self] at hwf
      refine ⟨⟨hhome ▸ hwf,?_⟩,hkeeps.trans ⟨?_,?_⟩,?_,?_⟩
      · intro k' p hk'
        rcases (hmaps k' p).mp hk' with ⟨rfl,rfl⟩ | ⟨-,hm⟩
        · exact hhome.symm
        · exact hg.anchored k' p ((hopped.maps k' p).mp hm)
      · intro k' v' d hk' hv
        rcases (hmaps k' _).mp hv with ⟨heq,-⟩ | ⟨-,hm⟩
        · exact absurd heq hk'
        · exact ⟨d,(hopped.maps k' _).mp hm,id⟩
      · intro k' v' d hk' hv
        exact ⟨d,(hmaps k' _).mpr (.inr ⟨hk',(hopped.maps k' _).mpr hv⟩)⟩
      · refine iff_of_false (by simp) ?_
        rintro ⟨v',d',hv⟩
        exact habs v' d' hv
      · refine ⟨!swapIn,(hmaps k _).mpr (.inl ⟨rfl,?_⟩),by simp +contextual,fun _ => rfl⟩
        rw [hhome]
        rfl

/-! ### What a lookup says -/

theorem Good.of_entry (h : Good shift t) (hhome : homeBucket shift k = b) (hc : ServerTable.ClearIn Obj.key shift t k)
    (hl : lookup (accepts k) t b = .entry o e) : t.bit b o = true ∧ t.slot (b+o) = .entry e ∧ e.key = k := by
  subst hhome
  obtain ⟨hbit,hslot,hacc⟩ := lookup_entry hl
  have hh : homeBucket shift e.key = homeBucket shift k := h.wf.home_of_bit hbit (by simp) hslot
  exact ⟨hbit,hslot,hc.eq_key (bit_lt hbit) hslot hh hacc⟩

theorem Good.of_missing (h : Good shift t) (hhome : homeBucket shift k = b)
    (hl : lookup (accepts k) t b = .missing) (v : Bytes) (d : Bool) : ¬Holds shift t k v d := by
  subst hhome
  rintro ⟨i,e,he,hk,-⟩
  refine h.wf.absent_of_missing (k := k) hl ?_ i e he hk
  rintro y rfl
  exact sameKey_refl _

/-- Without a pending notice a pass succeeds unless it finds no slot. -/
theorem attempt_cases (h : Good shift t) (hhome : homeBucket shift k = b)
    (hc : ServerTable.ClearIn Obj.key shift t k) :
    attempt (numEntries shift) true swapIn t b k v = .abort ∨
      ∃ existed t', attempt (numEntries shift) true swapIn t b k v = .done existed t' ∧
        PutOk shift swapIn k v existed t t' := by
  rw [attempt]
  cases hl : lookup (accepts k) t b with
  | hole o => exact absurd hl (h.wf.not_hole o)
  | entry o e =>
    obtain ⟨-,he,rfl⟩ := h.of_entry hhome hc hl
    refine .inr ?_
    simp only
    rcases overwrite_cases (r := overwrite true swapIn (touch (!swapIn) (accepts e.key) t b) b o e v) rfl with
      ⟨hfail,-⟩ | ⟨x,-,-,-,-,hr⟩
    · cases hfail
    · exact ⟨true,_,hr,overwrite_spec h hhome he hr⟩
  | missing =>
    simp only
    cases hr : insertNew (numEntries shift) true swapIn (touch (!swapIn) (accepts k) t b) b k v with
    | done existed t' =>
      exact .inr ⟨existed,t',rfl,insertNew_spec h hhome (h.of_missing hhome hl) hr⟩
    | abort => exact .inl rfl
    | retry why i t' =>
      have hg : Good shift (touch (!swapIn) (accepts k) t b) := h.touch
      generalize touch (!swapIn) (accepts k) t b = t1 at hr hg
      rw [insertNew] at hr
      split at hr
      · cases hr
      rename_i f hp
      obtain ⟨hle,hlt,hnull⟩ := probe_spec hp
      have hstart := Hopped.claim hg.wf hlt hnull (by simp [StaleBehind])
      split at hr
      · cases hr
      · rename_i f' t2 hb
        obtain ⟨-,-,b',o',hs,-⟩ := hstart.hole hle hb
        exact absurd hs (Set.notMem_empty _)
      · cases hr

/-- The aborts of a locked section of `_put`: there is no slot for the key. -/
def NoRoom (shift : ℕ) (swapIn : Bool) (t : Table Obj) (k : Key) (v : Bytes) : Prop :=
  attempt (numEntries shift) true swapIn t (homeBucket shift k) k v = .abort

section
variable (h : Good shift t)
include h

theorem localPut_spec (hc : ServerTable.ClearIn Obj.key shift t k)
    (hr : localPut shift swapIn t k v = some (existed,t')) : PutOk shift swapIn k v existed t t' := by
  obtain ⟨-,hr⟩ := Option.ite_none_right_eq_some.mp hr
  have hcases : attempt (numEntries shift) true swapIn t (homeBucket shift k) k v = .abort ∨ _ := attempt_cases h rfl hc
  rcases hcases with ha | ⟨ex,t1,ha,hok⟩
  · simp [ha] at hr
  · simp only [ha,Option.some.injEq,Prod.mk.injEq] at hr
    obtain ⟨rfl,rfl⟩ := hr
    exact hok

theorem localPut_none (hc : ServerTable.ClearIn Obj.key shift t k) (hfit : Fits k v)
    (hr : localPut shift swapIn t k v = none) : NoRoom shift swapIn t k v := by
  rw [localPut,if_pos hfit] at hr
  have hcases : attempt (numEntries shift) true swapIn t (homeBucket shift k) k v = .abort ∨ _ := attempt_cases h rfl hc
  rcases hcases with ha | ⟨ex,t1,ha,hok⟩
  · exact ha
  · simp [ha] at hr

theorem localGet_some (hc : ServerTable.ClearIn Obj.key shift t k)
    (hr : localGet t (homeBucket shift k) k = some v) : ∃ d, Holds shift t k v d := by
  rw [localGet,lookupSkip_eq h.wf.not_hole] at hr
  cases hl : lookup (accepts k) t (homeBucket shift k) with
  | hole o => simp [hl] at hr
  | missing => simp [hl] at hr
  | entry o e =>
    obtain ⟨-,he,rfl⟩ := h.of_entry rfl hc hl
    simp only [hl,Option.map_some,Option.some.injEq] at hr
    subst hr
    exact ⟨_,h.holds he⟩

theorem localGet_none (hr : localGet t (homeBucket shift k) k = none) (v : Bytes) (d : Bool) :
    ¬Holds shift t k v d := by
  rw [localGet,lookupSkip_eq h.wf.not_hole] at hr
  cases hl : lookup (accepts k) t (homeBucket shift k) with
  | hole o => exact absurd hl (h.wf.not_hole o)
  | missing => exact h.of_missing rfl hl v d
  | entry o e => simp [hl] at hr

theorem Good.erase (hbit : t.bit (homeBucket shift e.key) o = true)
    (he : t.slot (homeBucket shift e.key+o) = .entry e) :
    Good shift ((t.setSlot (homeBucket shift e.key+o) .null).flipBit (homeBucket shift e.key) o) ∧
      ∀ k' v' d', Holds shift ((t.setSlot (homeBucket shift e.key+o) .null).flipBit (homeBucket shift e.key) o) k' v' d' ↔
        k' ≠ e.key ∧ Holds shift t k' v' d' := by
  have hmaps := Maps.erase (b := homeBucket shift e.key) (o := o) h.wf he
  refine ⟨⟨h.wf.erase hbit rfl he,?_⟩,fun k' v' d' => hmaps k' _⟩
  intro k p hp
  exact h.anchored k p ((hmaps k p).mp hp).2

theorem localRemove_spec (hc : ServerTable.ClearIn Obj.key shift t k) :
    ∃ removed t', localRemove t (homeBucket shift k) k = some (removed,t') ∧ Good shift t' ∧
      (removed = true ↔ ∃ v d, Holds shift t k v d) ∧
      ∀ k' v' d', Holds shift t' k' v' d' ↔ k' ≠ k ∧ Holds shift t k' v' d' := by
  rw [localRemove]
  cases hl : lookup (accepts k) t (homeBucket shift k) with
  | hole o => exact absurd hl (h.wf.not_hole o)
  | missing =>
    have habs := h.of_missing rfl hl
    refine ⟨false,t,rfl,h,?_,?_⟩
    · refine iff_of_false (by simp) ?_
      rintro ⟨v,d,hv⟩
      exact habs v d hv
    · intro k' v' d'
      refine ⟨fun hv => ⟨?_,hv⟩,fun hv => hv.2⟩
      rintro rfl
      exact habs v' d' hv
  | entry o e =>
    obtain ⟨hbit,he,rfl⟩ := h.of_entry rfl hc hl
    obtain ⟨hgood,hmaps⟩ := h.erase hbit he
    exact ⟨true,_,rfl,hgood,iff_of_true rfl ⟨_,_,h.holds he⟩,hmaps⟩

theorem Good.placed {i : ℕ} (he : t.slot i = .entry e) :
    e.anchor = homeBucket shift e.key ∧ i = homeBucket shift e.key+e.offset ∧
      t.bit (homeBucket shift e.key) e.offset = true := by
  obtain ⟨o,hi,hbit,hp⟩ := h.wf.entry i e he
  change e.offset = o at hp
  subst hp
  exact ⟨h.anchored e.key _ ⟨i,e,he,rfl,rfl⟩,hi,hbit⟩

end

end Tables

end FarMemory.ClientTable
