import FarMemory.Execution
import FarMemory.HopscotchHops
import FarMemory.Keys
import FarMemory.SlabAllocator

/-!
# The hash table of the server

`LocalGenericConcurrentHopscotch`, used by one thread at a time. A slot points to a
slab block with a header, the value and the key; the contents of the block are kept
with the slot here, and `Stored` says that the blocks of different slots never
overlap. Timestamps and bucket locks only matter to concurrent callers and are left
out. A step without a result is an abort: a full table, or a size or an allocation
that the slab refuses.
-/
namespace FarMemory.ServerTable
open Execution Hopscotch Keys SlabAllocator Function

def kNeighborhood : ℕ := 32
def kMaxRetries : ℕ := 2
def kHeaderSize : ℕ := 3

def numEntries (shift : ℕ) : ℕ := 2^shift+kNeighborhood

structure KVData where
  addr : ℕ
  key : Key
  val : Bytes
  deriving DecidableEq

def dataSize (keyLen valLen : ℕ) : ℕ := kHeaderSize+keyLen+valLen

def KVData.size (e : KVData) : ℕ := dataSize e.key.len e.val.length

structure State where
  table : Table KVData
  slab : Slab

def State.new (base len : ℕ) : State := ⟨.empty,.new base len⟩

def accepts (k : Key) (e : KVData) : Bool := sameKey e.key k

section Operations
variable (shift : ℕ)

def doRemove (s : State) (core b o : ℕ) (e : KVData) : Option State :=
  (s.slab.free core e.addr e.size).map fun slab => ⟨(s.table.setSlot (b+o) .null).flipBit b o,slab⟩

/-- The empty value is a miss. -/
def get (s : State) (core : ℕ) (k : Key) (remove : Bool) : Option (Bytes × State) :=
  match lookupSkip (accepts k) s.table (homeBucket shift k) with
  | none => some ([],s)
  | some (o,e) =>
    if remove then (doRemove s core (homeBucket shift k) o e).map fun s' => (e.val,s')
    else some (e.val,s)

/-- A new value for a key that is there: in place, or in a block of another size. -/
def overwrite (s : State) (core i : ℕ) (e : KVData) (k : Key) (v : Bytes) : Option State :=
  if e.val.length = v.length then some {s with table := s.table.setSlot i (.entry {e with val := v})}
  else
    match s.slab.free core e.addr (dataSize k.len e.val.length) with
    | none => none
    | some slab =>
      match slab.allocate core (dataSize k.len v.length) with
      | some (some a,slab') => some ⟨s.table.setSlot i (.entry ⟨a,k,v⟩),slab'⟩
      | _ => none

def insertNew (s : State) (core b : ℕ) (k : Key) (v : Bytes) : Option State :=
  match probe s.table (numEntries shift) b with
  | none => none
  | some f =>
    match bring (fun _ e => e) (s.table.setSlot f .busy) b f with
    | .ready f' t =>
      match s.slab.allocate core (dataSize k.len v.length) with
      | some (some a,slab) => some ⟨(t.setSlot f' (.entry ⟨a,k,v⟩)).setBit b (f'-b),slab⟩
      | _ => none
    | _ => none

/-- A set bit with an empty slot would be a null dereference; it never occurs here. -/
def put (s : State) (core : ℕ) (k : Key) (v : Bytes) : Option (Bool × State) :=
  match lookup (accepts k) s.table (homeBucket shift k) with
  | .entry o e => (overwrite s core (homeBucket shift k+o) e k v).map fun s' => (true,s')
  | .missing => (insertNew shift s core (homeBucket shift k) k v).map fun s' => (false,s')
  | .hole _ => none

def remove (s : State) (core : ℕ) (k : Key) : Option (Bool × State) :=
  match lookup (accepts k) s.table (homeBucket shift k) with
  | .entry o e => (doRemove s core (homeBucket shift k) o e).map fun s' => (true,s')
  | .missing => some (false,s)
  | .hole _ => none

end Operations

inductive Op
  | put (core : ℕ) (k : Key) (v : Bytes)
  | get (core : ℕ) (k : Key) (remove : Bool)
  | remove (core : ℕ) (k : Key)
  deriving DecidableEq

def Op.key : Op → Key
  | .put _ k _ => k
  | .get _ k _ => k
  | .remove _ k => k

inductive Outcome
  | flag (b : Bool)
  | value (v : Bytes)
  deriving DecidableEq

def step (shift : ℕ) (s : State) : Op → Option (Outcome × State)
  | .put core k v => (put shift s core k v).map fun r => (.flag r.1,r.2)
  | .get core k rm => (get shift s core k rm).map fun r => (.value r.1,r.2)
  | .remove core k => (remove shift s core k).map fun r => (.flag r.1,r.2)

/-! ### The finite map -/

abbrev Cells := Key → Option Bytes

def Cells.follow (m : Cells) : Op × Outcome → Cells
  | (.put _ k v,_) => update m k (some v)
  | (.get _ k rm,_) => if rm then update m k none else m
  | (.remove _ k,_) => update m k none

def Cells.answer (m : Cells) : Op → Outcome
  | .put _ k _ => .flag (m k).isSome
  | .get _ k _ => .value ((m k).getD [])
  | .remove _ k => .flag (m k).isSome

def contents (tr : List (Op × Outcome)) : Cells := tr.foldl Cells.follow fun _ => none

section Confusion
variable {ε : Type*} (keyOf : ε → Key) (shift : ℕ)

/-- The slot holds another key of the same bucket that the comparison takes for `k`. -/
def Confused (k : Key) : Slot ε → Prop
  | .entry e => keyOf e ≠ k ∧ homeBucket shift (keyOf e) = homeBucket shift k ∧ sameKey (keyOf e) k = true
  | _ => False

instance (k : Key) (x : Slot ε) : Decidable (Confused keyOf shift k x) :=
  match x with
  | .entry _ => inferInstanceAs (Decidable (_ ∧ _))
  | .null => inferInstanceAs (Decidable False)
  | .busy => inferInstanceAs (Decidable False)

def ClearIn (t : Table ε) (k : Key) : Prop :=
  ∀ o < kNeighborhood, ¬Confused keyOf shift k (t.slot (homeBucket shift k+o))

instance (t : Table ε) (k : Key) : Decidable (ClearIn keyOf shift t k) :=
  inferInstanceAs (Decidable (∀ o < kNeighborhood, _))

variable {keyOf shift}

theorem ClearIn.eq_key {t : Table ε} {k : Key} {o : ℕ} {e : ε} (h : ClearIn keyOf shift t k) (ho : o < 32)
    (he : t.slot (homeBucket shift k+o) = .entry e) (hhome : homeBucket shift (keyOf e) = homeBucket shift k)
    (hsame : sameKey (keyOf e) k = true) : keyOf e = k := by
  have hclear := h o ho
  rw [he] at hclear
  by_contra hne
  exact hclear ⟨hne,hhome,hsame⟩

end Confusion

def Clear (shift : ℕ) (s : State) (k : Key) : Prop := ClearIn KVData.key shift s.table k

instance (shift : ℕ) (s : State) (k : Key) : Decidable (Clear shift s k) :=
  inferInstanceAs (Decidable (ClearIn KVData.key shift s.table k))

/-! ### Blocks of the slots -/

def block (e : KVData) : ℕ × ℕ := (e.addr,getSlabSize ((getSlabIdx e.size).getD 0))

/-- The live blocks are those of the given entries, one for each. -/
structure Stored (slab : Slab) (H : Set KVData) : Prop where
  blocks : ∃ blocks, slab.Inv blocks (block '' H)
  classed : ∀ e ∈ H, ∃ idx, getSlabIdx e.size = some idx
  apart : Set.InjOn KVData.addr H

section Blocks
variable {slab slab' : Slab} {H : Set KVData} {e e' : KVData} {core : ℕ}

theorem Stored.new (base len : ℕ) : Stored (.new base len) ∅ :=
  ⟨⟨[],by simpa using Slab.Inv.new base len⟩,by simp,by simp⟩

theorem block_eq {idx : ℕ} (h : getSlabIdx e.size = some idx) : block e = (e.addr,getSlabSize idx) := by
  rw [block,h,Option.getD_some]

theorem Stored.release (h : Stored slab H) (he : e ∈ H) (hf : slab.free core e.addr e.size = some slab') :
    Stored slab' (H \ {e}) := by
  obtain ⟨blocks,hinv⟩ := h.blocks
  obtain ⟨idx,hidx⟩ := h.classed e he
  have himage : block '' (H \ {e}) = block '' H \ {(e.addr,getSlabSize idx)} := by
    ext b
    constructor
    · rintro ⟨x,⟨hx,hne⟩,rfl⟩
      refine ⟨⟨x,hx,rfl⟩,fun hb => hne ?_⟩
      exact h.apart hx he (congrArg Prod.fst hb)
    · rintro ⟨⟨x,hx,rfl⟩,hne⟩
      refine ⟨x,⟨hx,fun hxe => hne ?_⟩,rfl⟩
      rw [Set.mem_singleton_iff] at hxe
      rw [hxe,block_eq hidx]
      rfl
  refine ⟨⟨blocks,?_⟩,fun x hx => h.classed x hx.1,h.apart.mono Set.sdiff_subset⟩
  rw [himage]
  exact hinv.release hidx ⟨e,he,block_eq hidx⟩ hf

theorem Stored.allocate (h : Stored slab H) (ha : slab.allocate core e.size = some (some e.addr,slab')) :
    Stored slab' (insert e H) := by
  obtain ⟨blocks,hinv⟩ := h.blocks
  obtain ⟨blocks',idx,hidx,hnew,hinv'⟩ := hinv.allocate ha
  have hfresh : ∀ x ∈ H, x.addr ≠ e.addr := by
    intro x hx hxe
    -- two blocks with one address are the same block
    have hlive : block x ∈ insert (e.addr,getSlabSize idx) (block '' H) := .inr ⟨x,hx,rfl⟩
    have hne : block x ≠ (e.addr,getSlabSize idx) := fun hb => hnew (hb ▸ ⟨x,hx,rfl⟩)
    have hpos := getSlabSize_pos idx
    have hpos' := getSlabSize_pos ((getSlabIdx x.size).getD 0)
    have hd := hinv'.disjoint hlive (.inl rfl) hne
    simp only [block] at hd
    omega
  refine ⟨⟨blocks',?_⟩,?_,?_⟩
  · rwa [Set.image_insert_eq,block_eq hidx]
  · rintro x (rfl | hx)
    · exact ⟨idx,hidx⟩
    · exact h.classed x hx
  · rintro x (rfl | hx) y (rfl | hy) hxy
    · rfl
    · exact absurd hxy.symm (hfresh y hy)
    · exact absurd hxy (hfresh x hx)
    · exact h.apart hx hy hxy

theorem Stored.rewrite (h : Stored slab H) (he : e ∈ H) (haddr : e'.addr = e.addr) (hsize : e'.size = e.size) :
    Stored slab (insert e' (H \ {e})) := by
  have hblock : block e' = block e := by rw [block,block,haddr,hsize]
  refine ⟨?_,?_,?_⟩
  · rw [Set.image_insert_eq,hblock,← Set.image_insert_eq,Set.insert_sdiff_singleton,Set.insert_eq_of_mem he]
    exact h.blocks
  · rintro x (rfl | hx)
    · rw [hsize]
      exact h.classed e he
    · exact h.classed x hx.1
  · rintro x (rfl | hx) y (rfl | hy) hxy
    · rfl
    · exact absurd (h.apart hy.1 he (hxy.symm.trans haddr)) hy.2
    · exact absurd (h.apart hx.1 he (hxy.trans haddr)) hx.2
    · exact h.apart hx.1 hy.1 hxy

theorem Stored.disjoint (h : Stored slab H) (he : e ∈ H) (he' : e' ∈ H) (hne : e ≠ e') :
    e.addr+e.size ≤ e'.addr ∨ e'.addr+e'.size ≤ e.addr := by
  obtain ⟨blocks,hinv⟩ := h.blocks
  have hlen : ∀ x ∈ H, x.size ≤ (block x).2 := by
    intro x hx
    obtain ⟨idx,hidx⟩ := h.classed x hx
    rw [block_eq hidx]
    exact le_getSlabSize hidx
  have hb : block e ≠ block e' := fun hb => hne (h.apart he he' (congrArg Prod.fst hb))
  have hle := hlen e he
  have hle' := hlen e' he'
  have hd := hinv.disjoint ⟨e,he,rfl⟩ ⟨e',he',rfl⟩ hb
  simp only [block] at hd hle hle'
  omega

end Blocks

/-! ### Refinement -/

/-- Entries by a class of their key. An entry is its own payload, so that `Maps` follows the blocks too. -/
def keyScheme {C : Type} (cls : Key → C) (home : C → ℕ) : Scheme KVData C KVData where
  key := fun e => cls e.key
  payload := id
  home := home
  relocate := fun _ e => e
  Placed := fun _ _ => True
  key_relocate := fun _ _ => rfl
  payload_relocate := fun _ _ => rfl
  placed_relocate := fun _ _ => trivial

def held (t : Table KVData) : Set KVData := {e | ∃ i, t.slot i = .entry e}

/-- One entry for each class, in blocks of its own. -/
structure Consistent {C : Type} (cls : Key → C) (home : C → ℕ) (shift : ℕ) (s : State) : Prop where
  wf : WF (keyScheme cls home) (numEntries shift) ∅ ∅ s.table
  stored : Stored s.slab (held s.table)

structure Refines (shift : ℕ) (s : State) (m : Cells) : Prop
    extends Consistent (fun k => k) (homeBucket shift) shift s where
  cells : ∀ k v, m k = some v ↔ ∃ e ∈ held s.table, e.key = k ∧ e.val = v

section Classes
variable {C : Type} {cls : Key → C} {home : C → ℕ} {shift n : ℕ} {claimed : Set ℕ} {t : Table KVData} {s s' : State}
  {k : Key} {v : Bytes} {e x : KVData} {core b i o : ℕ}

theorem maps_iff {c : C} : Maps (keyScheme cls home) t c e ↔ e ∈ held t ∧ cls e.key = c := by
  constructor
  · rintro ⟨i,x,hx,hc,rfl⟩
    exact ⟨⟨i,hx⟩,hc⟩
  · rintro ⟨⟨i,hx⟩,hc⟩
    exact ⟨i,e,hx,hc,rfl⟩

section
variable (h : WF (keyScheme cls home) n ∅ claimed t)
include h

theorem eq_of_class (he : e ∈ held t) (hx : x ∈ held t)
    (hc : cls x.key = cls e.key) : x = e := by
  obtain ⟨i,hi⟩ := he
  obtain ⟨j,hj⟩ := hx
  have hij := h.unique j i x e hj hi hc
  rw [hij,hi,Slot.entry.injEq] at hj
  exact hj.symm

theorem ne_class_iff (he : e ∈ held t) (hx : x ∈ held t) :
    cls x.key ≠ cls e.key ↔ x ≠ e := by
  constructor
  · rintro hne rfl
    exact hne rfl
  · exact fun hne hc => hne (eq_of_class h he hx hc)

/-- The entries after an entry `e` was replaced by an entry `x` of its class. -/
theorem held_replaced (he : t.slot i = .entry e)
    (hc : cls x.key = cls e.key) : held (t.setSlot i (.entry x)) = insert x (held t \ {e}) := by
  ext y
  have hy := Maps.replace h he hc (cls y.key) y
  rw [maps_iff,maps_iff] at hy
  simp only [and_true] at hy
  rw [hy]
  constructor
  · rintro (⟨-,rfl⟩ | ⟨hne,hmem⟩)
    · exact .inl rfl
    · exact .inr ⟨hmem,(ne_class_iff h ⟨i,he⟩ hmem).mp hne⟩
  · rintro (rfl | ⟨hmem,hne⟩)
    · exact .inl ⟨hc,rfl⟩
    · exact .inr ⟨(ne_class_iff h ⟨i,he⟩ hmem).mpr hne,hmem⟩

theorem held_erased (he : t.slot i = .entry e) :
    held ((t.setSlot i .null).flipBit b o) = held t \ {e} := by
  ext y
  have hy := Maps.erase h (b := b) (o := o) he (cls y.key) y
  rw [maps_iff,maps_iff] at hy
  simp only [and_true] at hy
  rw [hy]
  constructor
  · rintro ⟨hne,hmem⟩
    exact ⟨hmem,(ne_class_iff h ⟨i,he⟩ hmem).mp hne⟩
  · rintro ⟨hmem,hne⟩
    exact ⟨(ne_class_iff h ⟨i,he⟩ hmem).mpr hne,hmem⟩

end

theorem held_empty : held (Table.empty : Table KVData) = ∅ := by
  ext x
  simp [held,Table.empty]

theorem Consistent.new (base len : ℕ) : Consistent cls home shift (.new base len) := by
  refine ⟨WF.empty,?_⟩
  change Stored (.new base len) (held Table.empty)
  rw [held_empty]
  exact Stored.new base len

theorem Consistent.doRemove (h : Consistent cls home shift s) (hbit : s.table.bit b o = true)
    (hhome : home (cls e.key) = b) (he : s.table.slot (b+o) = .entry e) (hr : doRemove s core b o e = some s') :
    Consistent cls home shift s' ∧ held s'.table = held s.table \ {e} := by
  obtain ⟨slab,hf,rfl⟩ := Option.map_eq_some_iff.mp hr
  have hheld : held ((s.table.setSlot (b+o) .null).flipBit b o) = held s.table \ {e} := held_erased h.wf he
  refine ⟨⟨h.wf.erase hbit hhome he,?_⟩,hheld⟩
  change Stored slab (held ((s.table.setSlot (b+o) .null).flipBit b o))
  rw [hheld]
  exact h.stored.release ⟨_,he⟩ hf

theorem Consistent.overwrite (h : Consistent cls home shift s) (he : s.table.slot i = .entry e)
    (hc : cls k = cls e.key) (hlen : k.len = e.key.len) (hr : overwrite s core i e k v = some s') :
    Consistent cls home shift s' ∧
      ∃ x, cls x.key = cls e.key ∧ x.val = v ∧ held s'.table = insert x (held s.table \ {e}) := by
  have hmem : e ∈ held s.table := ⟨i,he⟩
  -- both branches put an entry of the same class into the slot
  have hput : ∀ x : KVData, cls x.key = cls e.key → ∀ slab, Stored slab (insert x (held s.table \ {e})) →
      Consistent cls home shift ⟨s.table.setSlot i (.entry x),slab⟩ ∧
        held (s.table.setSlot i (.entry x)) = insert x (held s.table \ {e}) := by
    intro x hx slab hst
    have hheld : held (s.table.setSlot i (.entry x)) = _ := held_replaced h.wf he hx
    refine ⟨⟨h.wf.replace he hx (fun _ _ => trivial),?_⟩,hheld⟩
    change Stored slab (held (s.table.setSlot i (.entry x)))
    rwa [hheld]
  rw [ServerTable.overwrite] at hr
  split at hr
  · rename_i hval
    cases hr
    obtain ⟨h',hheld⟩ := hput {e with val := v} rfl s.slab (h.stored.rewrite hmem rfl (by simp only [KVData.size,hval]))
    exact ⟨h',{e with val := v},rfl,rfl,hheld⟩
  · cases hf : s.slab.free core e.addr (dataSize k.len e.val.length) with
    | none => simp [hf] at hr
    | some slab =>
      simp only [hf] at hr
      split at hr
      · rename_i a slab' ha
        cases hr
        rw [hlen] at hf
        obtain ⟨h',hheld⟩ := hput ⟨a,k,v⟩ hc slab' ((h.stored.release hmem hf).allocate ha)
        exact ⟨h',_,hc,rfl,hheld⟩
      · cases hr

/-- What an insertion does: every entry stays, also those that change their slot. The bucket is a
variable here: with `homeBucket` in its place the kernel would start to evaluate the hash. -/
theorem Consistent.insertNew (h : Consistent cls home shift s) (hhome : home (cls k) = b)
    (habs : ∀ x ∈ held s.table, cls x.key ≠ cls k) (hr : insertNew shift s core b k v = some s') :
    Consistent cls home shift s' ∧ ∃ a, held s'.table = insert ⟨a,k,v⟩ (held s.table) := by
  rw [ServerTable.insertNew] at hr
  cases hp : probe s.table (numEntries shift) b with
  | none => simp [hp] at hr
  | some f =>
    simp only [hp] at hr
    obtain ⟨hle,hlt,hnull⟩ := probe_spec hp
    have hstart := Hopped.claim h.wf hlt hnull (by simp [StaleBehind])
    split at hr
    swap
    · cases hr
    rename_i f' t hb
    obtain ⟨hopped,hge,hnear⟩ := hstart.ready hle hb
    split at hr
    swap
    · cases hr
    rename_i a slab ha
    cases hr
    have hheld : held t = held s.table := by
      ext x
      have hx := hopped.maps (cls x.key) x
      rw [maps_iff,maps_iff] at hx
      simpa only [and_true] using hx
    have hnew : ∀ j x, t.slot j = .entry x → cls x.key ≠ cls k := by
      intro j x hx
      apply habs x
      rw [← hheld]
      exact ⟨j,hx⟩
    have hbusy : t.slot f' = .busy := (hopped.wf.busy f').mpr rfl
    have hput : held ((t.setSlot f' (.entry ⟨a,k,v⟩)).setBit b (f'-b)) = insert ⟨a,k,v⟩ (held s.table) := by
      rw [← hheld]
      ext y
      have hy := Maps.fill (S := keyScheme cls home) (f := f') (e := ⟨a,k,v⟩) (b := b) (o := f'-b)
        (by simp [hbusy]) hnew (cls y.key) y
      rw [maps_iff,maps_iff] at hy
      simp only [and_true] at hy
      rw [hy]
      constructor
      · rintro (⟨-,rfl⟩ | ⟨-,hmem⟩)
        · exact .inl rfl
        · exact .inr hmem
      · rintro (rfl | ⟨j,hj⟩)
        · exact .inl ⟨rfl,rfl⟩
        · exact .inr ⟨hnew j y hj,j,hj⟩
    have hwf := hopped.wf.fill rfl (e := ⟨a,k,v⟩) (o := f'-b) (by omega) (by
      change f' = home (cls k)+(f'-b)
      omega) trivial hnew
    rw [Set.sdiff_self] at hwf
    refine ⟨⟨hhome ▸ hwf,?_⟩,a,hput⟩
    change Stored slab (held ((t.setSlot f' (.entry ⟨a,k,v⟩)).setBit b (f'-b)))
    rw [hput]
    exact h.stored.allocate ha

end Classes

section Refinement
variable {shift : ℕ} {R : Set KVData} {t t' : Table KVData} {s s' : State} {m : Cells} {k : Key} {v : Bytes}
  {e : KVData} {core i o : ℕ}

/-- `R` are the entries whose key an operation does not touch. -/
theorem cells_put (h : ∀ k v, m k = some v ↔ ∃ e ∈ held t, e.key = k ∧ e.val = v)
    (hR : ∀ x, x ∈ R ↔ x ∈ held t ∧ x.key ≠ e.key) (ht : held t' = insert e R) (k : Key) (v : Bytes) :
    update m e.key (some e.val) k = some v ↔ ∃ x ∈ held t', x.key = k ∧ x.val = v := by
  rw [ht]
  by_cases hk : k = e.key
  · subst hk
    rw [update_self,Option.some.injEq]
    constructor
    · rintro rfl
      exact ⟨e,.inl rfl,rfl,rfl⟩
    · rintro ⟨x,rfl | hx,hxk,rfl⟩
      · rfl
      · exact absurd hxk ((hR x).mp hx).2
  · rw [update_of_ne hk,h]
    constructor
    · rintro ⟨x,hx,rfl,rfl⟩
      exact ⟨x,.inr ((hR x).mpr ⟨hx,hk⟩),rfl,rfl⟩
    · rintro ⟨x,rfl | hx,rfl,rfl⟩
      · exact absurd rfl hk
      · exact ⟨x,((hR x).mp hx).1,rfl,rfl⟩

theorem cells_drop (h : ∀ k v, m k = some v ↔ ∃ e ∈ held t, e.key = k ∧ e.val = v)
    (ht : ∀ x, x ∈ held t' ↔ x ∈ held t ∧ x.key ≠ k) (k' : Key) (v : Bytes) :
    update m k none k' = some v ↔ ∃ x ∈ held t', x.key = k' ∧ x.val = v := by
  simp only [ht]
  by_cases hk : k' = k
  · subst hk
    rw [update_self]
    simp only [reduceCtorEq,false_iff]
    rintro ⟨x,⟨-,hne⟩,hx,-⟩
    exact hne hx
  · rw [update_of_ne hk,h]
    constructor
    · rintro ⟨x,hx,rfl,rfl⟩
      exact ⟨x,⟨hx,hk⟩,rfl,rfl⟩
    · rintro ⟨x,⟨hx,-⟩,rfl,rfl⟩
      exact ⟨x,hx,rfl,rfl⟩

theorem Refines.rest (h : Refines shift s m) (he : e ∈ held s.table) (x : KVData) :
    x ∈ held s.table \ {e} ↔ x ∈ held s.table ∧ x.key ≠ e.key :=
  and_congr_right fun hx => (ne_class_iff h.wf he hx).symm

theorem Refines.new (shift base len : ℕ) : Refines shift (.new base len) fun _ => none := by
  refine ⟨.new base len,?_⟩
  intro k v
  change _ ↔ ∃ e ∈ held Table.empty, _
  simp [held_empty]

/-! ### What a lookup says -/

theorem Refines.of_entry (h : Refines shift s m) (hc : Clear shift s k)
    (hl : lookup (accepts k) s.table (homeBucket shift k) = .entry o e) :
    s.table.bit (homeBucket shift k) o = true ∧ s.table.slot (homeBucket shift k+o) = .entry e ∧ e.key = k := by
  obtain ⟨hbit,hslot,hacc⟩ := lookup_entry hl
  have hhome : homeBucket shift e.key = homeBucket shift k := h.wf.home_of_bit hbit (by simp) hslot
  exact ⟨hbit,hslot,hc.eq_key (bit_lt hbit) hslot hhome hacc⟩

theorem Refines.of_missing (h : Refines shift s m)
    (hl : lookup (accepts k) s.table (homeBucket shift k) = .missing) : ∀ x ∈ held s.table, x.key ≠ k := by
  rintro x ⟨i,hx⟩
  refine h.wf.absent_of_missing (k := k) hl ?_ i x hx
  rintro y rfl
  exact sameKey_refl _

theorem Refines.value (h : Refines shift s m) (he : e ∈ held s.table) : m e.key = some e.val :=
  (h.cells _ _).mpr ⟨e,he,rfl,rfl⟩

theorem Refines.absent (h : Refines shift s m) (ha : ∀ x ∈ held s.table, x.key ≠ k) : m k = none := by
  cases hm : m k with
  | none => rfl
  | some v =>
    obtain ⟨x,hx,hk,-⟩ := (h.cells k v).mp hm
    exact absurd hk (ha x hx)

/-! ### The operations -/

section
variable (h : Refines shift s m)
include h

theorem Refines.doRemove {b : ℕ} (hhome : homeBucket shift e.key = b)
    (hbit : s.table.bit b o = true) (he : s.table.slot (b+o) = .entry e) (hr : doRemove s core b o e = some s') :
    Refines shift s' (update m e.key none) := by
  obtain ⟨h',hheld⟩ := h.toConsistent.doRemove hbit hhome he hr
  exact ⟨h',cells_drop h.cells (hheld ▸ h.rest ⟨_,he⟩)⟩

theorem Refines.overwrite (he : s.table.slot i = .entry e)
    (hr : overwrite s core i e e.key v = some s') : Refines shift s' (update m e.key (some v)) := by
  obtain ⟨h',x,hk,rfl,hheld⟩ := h.toConsistent.overwrite he rfl rfl hr
  refine ⟨h',hk ▸ cells_put h.cells ?_ hheld⟩
  rw [hk]
  exact h.rest ⟨_,he⟩

theorem Refines.insertNew {b : ℕ} (hhome : homeBucket shift k = b)
    (habs : ∀ x ∈ held s.table, x.key ≠ k) (hr : insertNew shift s core b k v = some s') :
    Refines shift s' (update m k (some v)) := by
  obtain ⟨h',a,hheld⟩ := h.toConsistent.insertNew hhome habs hr
  exact ⟨h',cells_put h.cells (fun x => (and_iff_left_of_imp (habs x)).symm) hheld⟩

theorem Refines.put {b : Bool} (hc : Clear shift s k)
    (hr : put shift s core k v = some (b,s')) :
    b = (m k).isSome ∧ Refines shift s' (update m k (some v)) := by
  rw [ServerTable.put] at hr
  cases hl : lookup (accepts k) s.table (homeBucket shift k) with
  | hole o => simp [hl] at hr
  | entry o e =>
    obtain ⟨-,he,rfl⟩ := h.of_entry hc hl
    simp only [hl,Option.map_eq_some_iff] at hr
    obtain ⟨s1,hs,⟨⟩⟩ := hr
    rw [h.value ⟨_,he⟩]
    exact ⟨rfl,h.overwrite he hs⟩
  | missing =>
    have habs := h.of_missing hl
    simp only [hl,Option.map_eq_some_iff] at hr
    obtain ⟨s1,hs,⟨⟩⟩ := hr
    rw [h.absent habs]
    exact ⟨rfl,h.insertNew rfl habs hs⟩

theorem Refines.remove {b : Bool} (hc : Clear shift s k)
    (hr : remove shift s core k = some (b,s')) :
    b = (m k).isSome ∧ Refines shift s' (update m k none) := by
  rw [ServerTable.remove] at hr
  cases hl : lookup (accepts k) s.table (homeBucket shift k) with
  | hole o => simp [hl] at hr
  | entry o e =>
    obtain ⟨hbit,he,rfl⟩ := h.of_entry hc hl
    simp only [hl,Option.map_eq_some_iff] at hr
    obtain ⟨s1,hs,⟨⟩⟩ := hr
    rw [h.value ⟨_,he⟩]
    exact ⟨rfl,h.doRemove rfl hbit he hs⟩
  | missing =>
    have hnone := h.absent (h.of_missing hl)
    simp only [hl] at hr
    cases hr
    rw [hnone]
    refine ⟨rfl,?_⟩
    rwa [← hnone,update_eq_self]

theorem Refines.lookupSkip_none (hc : Clear shift s k) :
    lookupSkip (accepts k) s.table (homeBucket shift k) = none ↔ m k = none := by
  rw [lookupSkip_eq h.wf.not_hole]
  cases hl : lookup (accepts k) s.table (homeBucket shift k) with
  | hole o => exact absurd hl (h.wf.not_hole o)
  | entry o e =>
    obtain ⟨-,he,rfl⟩ := h.of_entry hc hl
    simp [h.value ⟨_,he⟩]
  | missing => simp [h.absent (h.of_missing hl)]

theorem Refines.remove_total : ∃ r, ServerTable.remove shift s core k = some r := by
  rw [ServerTable.remove]
  cases hl : lookup (accepts k) s.table (homeBucket shift k) with
  | hole o => exact absurd hl (h.wf.not_hole o)
  | missing => exact ⟨_,rfl⟩
  | entry o e =>
    obtain ⟨-,he,-⟩ := lookup_entry hl
    obtain ⟨idx,hidx⟩ := h.stored.classed e ⟨_,he⟩
    simp [ServerTable.doRemove,Slab.free,hidx]

theorem Refines.get_eq (hc : Clear shift s k) :
    get shift s core k false = some ((m k).getD [],s) := by
  rw [ServerTable.get,lookupSkip_eq h.wf.not_hole]
  cases hl : lookup (accepts k) s.table (homeBucket shift k) with
  | hole o => exact absurd hl (h.wf.not_hole o)
  | entry o e =>
    obtain ⟨-,he,rfl⟩ := h.of_entry hc hl
    rw [h.value ⟨_,he⟩]
    rfl
  | missing =>
    rw [h.absent (h.of_missing hl)]
    rfl

theorem Refines.get_remove {r : Bytes} (hc : Clear shift s k)
    (hr : get shift s core k true = some (r,s')) :
    r = (m k).getD [] ∧ Refines shift s' (update m k none) := by
  rw [ServerTable.get,lookupSkip_eq h.wf.not_hole] at hr
  cases hl : lookup (accepts k) s.table (homeBucket shift k) with
  | hole o => exact absurd hl (h.wf.not_hole o)
  | entry o e =>
    obtain ⟨hbit,he,rfl⟩ := h.of_entry hc hl
    simp only [hl,if_true,Option.map_eq_some_iff] at hr
    obtain ⟨s1,hs,⟨⟩⟩ := hr
    rw [h.value ⟨_,he⟩]
    exact ⟨rfl,h.doRemove rfl hbit he hs⟩
  | missing =>
    have hnone := h.absent (h.of_missing hl)
    simp only [hl] at hr
    cases hr
    rw [hnone]
    refine ⟨rfl,?_⟩
    rwa [← hnone,update_eq_self]

theorem Refines.step {op : Op} {out : Outcome} (hc : Clear shift s op.key)
    (hr : step shift s op = some (out,s')) : out = m.answer op ∧ Refines shift s' (m.follow (op,out)) := by
  cases op with
  | put core k v =>
    obtain ⟨⟨b,s1⟩,hp,⟨⟩⟩ := Option.map_eq_some_iff.mp hr
    obtain ⟨rfl,h'⟩ := h.put hc hp
    exact ⟨rfl,h'⟩
  | get core k rm =>
    obtain ⟨⟨b,s1⟩,hp,⟨⟩⟩ := Option.map_eq_some_iff.mp hr
    cases rm with
    | false =>
      rw [h.get_eq (k := k) hc] at hp
      cases hp
      exact ⟨rfl,h⟩
    | true =>
      obtain ⟨rfl,h'⟩ := h.get_remove hc hp
      exact ⟨rfl,h'⟩
  | remove core k =>
    obtain ⟨⟨b,s1⟩,hp,⟨⟩⟩ := Option.map_eq_some_iff.mp hr
    obtain ⟨rfl,h'⟩ := h.remove hc hp
    exact ⟨rfl,h'⟩

end

end Refinement

theorem refines_run {shift base len : ℕ} {tr : List (Op × Outcome)} {s : State}
    (h : Trace (step shift) (fun s op => Clear shift s op.key) (.new base len) tr s) :
    Refines shift s (contents tr) :=
  h.simulation (Refines.new shift base len) fun _ _ _ _ _ hok hI hs => (hI.step hok hs).2

/-- As long as no operation meets a different key of its bucket that agrees with its
own up to a zero byte, every operation answers as on a finite map, and a `get` always
answers. -/
theorem server_table_is_map {shift base len : ℕ} {tr : List (Op × Outcome)} {s : State}
    (h : Trace (step shift) (fun s op => Clear shift s op.key) (.new base len) tr s) :
    (∀ op out s', Clear shift s op.key → step shift s op = some (out,s') → out = (contents tr).answer op) ∧
      ∀ core k, Clear shift s k →
        step shift s (.get core k false) = some (.value ((contents tr k).getD []),s) := by
  have hr := refines_run h
  refine ⟨fun op out s' hc hs => (hr.step hc hs).1,?_⟩
  intro core k hc
  rw [step,hr.get_eq hc]
  rfl

/-- Keys of the same bucket that agree up to a zero byte. -/
def nulKey (x : UInt8) : Key := ⟨[0,x],Nat.two_pos,by simp⟩

theorem plainKey_pos (x : UInt8) : 0 < [x].length := Nat.one_pos

theorem plainKey_le (x : UInt8) : [x].length ≤ 255 := by simp

def plainKey (x : UInt8) : Key := ⟨[x],plainKey_pos x,plainKey_le x⟩

theorem server_table_is_map_resized : ∃ tr s,
    Trace (step 0) (fun s op => Clear 0 s op.key) (.new 4096 65536) tr s ∧ contents tr (plainKey 1) = some [7,8] ∧
      step 0 s (.get 0 (plainKey 1) false) = some (.value [7,8],s) := by
  have hrun : (exec (step 0) (fun s op => Clear 0 s op.key) (.new 4096 65536)
      [.put 0 (plainKey 1) [5],.put 1 (plainKey 2) [6],.put 0 (plainKey 1) [7,8],.remove 1 (plainKey 2)]).map
        (fun r => (r.1,decide (Clear 0 r.2 (plainKey 1)))) =
      some ([.flag false,.flag false,.flag true,.flag true],true) := by decide +kernel
  obtain ⟨outs,s,ht,hobs⟩ := exec_observe hrun
  rw [Prod.mk.injEq] at hobs
  obtain ⟨rfl,hclear⟩ := hobs
  exact ⟨_,s,ht,by decide,(server_table_is_map ht).2 0 (plainKey 1) (of_decide_eq_true hclear)⟩

/-- Without the condition a `put` of one key overwrites the value of another. -/
theorem nul_keys_collide : ∃ tr s, Trace (step 4) (fun _ _ => True) (.new 4096 65536) tr s ∧
    contents tr (nulKey 0) = some [5] ∧
      (step 4 s (.get 0 (nulKey 0) false)).map Prod.fst = some (.value [6]) := by
  have hrun : (exec (step 4) (fun _ _ => True) (.new 4096 65536) [.put 0 (nulKey 0) [5],.put 0 (nulKey 1) [6]]).map
      (fun r => (r.1,(step 4 r.2 (.get 0 (nulKey 0) false)).map Prod.fst)) =
      some ([.flag false,.flag true],some (.value [6])) := by decide +kernel
  obtain ⟨outs,s,ht,hobs⟩ := exec_observe hrun
  rw [Prod.mk.injEq] at hobs
  obtain ⟨rfl,hget⟩ := hobs
  exact ⟨_,s,ht,by decide,hget⟩

/-- Keeping the bytes of a block with its slot is sound: no two slots share bytes. -/
theorem slots_disjoint_run {shift base len i j : ℕ} {tr : List (Op × Outcome)} {s : State} {e e' : KVData}
    (h : Trace (step shift) (fun s op => Clear shift s op.key) (.new base len) tr s)
    (hi : s.table.slot i = .entry e) (hj : s.table.slot j = .entry e') (hij : i ≠ j) :
    e.addr+e.size ≤ e'.addr ∨ e'.addr+e'.size ≤ e.addr := by
  have hr := refines_run h
  refine hr.stored.disjoint ⟨i,hi⟩ ⟨j,hj⟩ ?_
  rintro rfl
  exact hij (hr.wf.unique i j e e hi hj rfl)

/-- Blocks of different cores. -/
theorem slots_disjoint_run_two : ∃ tr s, Trace (step 0) (fun s op => Clear 0 s op.key) (.new 4096 65536) tr s ∧
    ∃ e e', s.table.slot 0 = .entry e ∧ s.table.slot 1 = .entry e' ∧
      (e.addr+e.size ≤ e'.addr ∨ e'.addr+e'.size ≤ e.addr) := by
  have hrun : (exec (step 0) (fun s op => Clear 0 s op.key) (.new 4096 65536)
      [.put 0 (plainKey 1) [5],.put 1 (plainKey 2) [6]]).map (fun r => (r.2.table.slot 0,r.2.table.slot 1)) =
      some (.entry ⟨20448,plainKey 1,[5]⟩,.entry ⟨36832,plainKey 2,[6]⟩) := by decide +kernel
  obtain ⟨outs,s,ht,hobs⟩ := exec_observe hrun
  rw [Prod.mk.injEq] at hobs
  exact ⟨_,s,ht,_,_,hobs.1,hobs.2,slots_disjoint_run ht hobs.1 hobs.2 Nat.zero_ne_one⟩

end FarMemory.ServerTable
