import FarMemory.ServerTable

/-!
# The bitmaps of the server table

`server_table_is_map` needs keys that the comparison tells apart. The bitmaps do not: to a bucket
two keys of one length that agree up to a zero byte are one key. With the bucket, the length and
the visible bytes as the key of an entry, the rules for one table apply to every sequence of
operations.
-/
namespace FarMemory.TableRepresentation
open Execution Hopscotch Keys SlabAllocator ServerTable

/-- What the lookups of a bucket see of a key. -/
def classOf (shift : ℕ) (k : Key) : ℕ × ℕ × Bytes := (homeBucket shift k,k.len,visible k.bytes)

abbrev Represented (shift : ℕ) (s : State) : Prop := Consistent (classOf shift) Prod.fst shift s

/-- The hops of the displacement loop: `free'` is where the empty slot goes from `free`. -/
def HopsTo (b : ℕ) (x y : ℕ × Table KVData) : Prop :=
  b+32 ≤ y.1 ∧ hop (fun _ e => e) y.2 y.1 = .moved x.1 x.2

/-- The reasons for which `put` gives up: no empty slot, none that can be brought near, or no
memory. -/
def LacksSpace (shift : ℕ) (s : State) (core b : ℕ) (k : Key) (v : Bytes) : Prop :=
  probe s.table (numEntries shift) b = none ∨
    (∃ f, probe s.table (numEntries shift) b = some f ∧ bring (fun _ e => e) (s.table.setSlot f .busy) b f = .stuck) ∨
    ∃ slab : Slab, (slab = s.slab ∨ ∃ e ∈ held s.table, s.slab.free core e.addr e.size = some slab) ∧
      ∀ a slab', slab.allocate core (dataSize k.len v.length) ≠ some (some a,slab')

section Representation
variable {shift : ℕ} {s s' : State} {k : Key} {v : Bytes} {e : KVData} {core i o : ℕ}

/-! ### Lookups -/

theorem Represented.of_entry (h : Represented shift s)
    (hl : lookup (accepts k) s.table (homeBucket shift k) = .entry o e) :
    s.table.bit (homeBucket shift k) o = true ∧ s.table.slot (homeBucket shift k+o) = .entry e ∧
      classOf shift k = classOf shift e.key := by
  obtain ⟨hbit,hslot,hacc⟩ := lookup_entry hl
  have hhome : homeBucket shift e.key = homeBucket shift k := h.wf.home_of_bit hbit (by simp) hslot
  obtain ⟨hlen,hvis⟩ := (sameKey_iff _ _).mp hacc
  refine ⟨hbit,hslot,?_⟩
  rw [classOf,classOf,hhome,hlen,hvis]

theorem Represented.of_missing (h : Represented shift s)
    (hl : lookup (accepts k) s.table (homeBucket shift k) = .missing) :
    ∀ x ∈ held s.table, classOf shift x.key ≠ classOf shift k := by
  rintro x ⟨i,hx⟩
  refine h.wf.absent_of_missing (k := classOf shift k) hl ?_ i x hx
  intro y hy
  obtain ⟨-,hrest⟩ := Prod.mk.inj hy
  exact (sameKey_iff _ _).mpr (Prod.mk.inj hrest)

theorem Represented.get_eq (h : Represented shift s) (he : e ∈ held s.table) (core : ℕ) :
    get shift s core e.key false = some (e.val,s) := by
  rw [ServerTable.get,lookupSkip_eq h.wf.not_hole]
  cases hl : lookup (accepts e.key) s.table (homeBucket shift e.key) with
  | hole o => exact absurd hl (h.wf.not_hole o)
  | entry o x =>
    obtain ⟨-,hx,hc⟩ := h.of_entry hl
    rw [eq_of_class h.wf he ⟨_,hx⟩ hc.symm]
    rfl
  | missing => exact absurd rfl (h.of_missing hl e he)

theorem Represented.bit_iff (h : Represented shift s) (b o : ℕ) :
    s.table.bit b o = true ↔ ∃ e, s.table.slot (b+o) = .entry e ∧ homeBucket shift e.key = b := by
  constructor
  · intro hb
    rcases h.wf.registered b o hb with hs | he
    · exact absurd hs (Set.notMem_empty _)
    · exact he
  · rintro ⟨e,he,rfl⟩
    obtain ⟨o',ho,hb,-⟩ := h.wf.entry _ e he
    rw [Nat.add_left_cancel ho]
    exact hb

/-! ### The operations -/

theorem Represented.put {b : Bool} (h : Represented shift s) (hr : put shift s core k v = some (b,s')) :
    Represented shift s' ∧ (b = false → ∃ a, held s'.table = insert ⟨a,k,v⟩ (held s.table)) := by
  rw [ServerTable.put] at hr
  cases hl : lookup (accepts k) s.table (homeBucket shift k) with
  | hole o => exact absurd hl (h.wf.not_hole o)
  | entry o e =>
    obtain ⟨-,he,hc⟩ := h.of_entry hl
    simp only [hl,Option.map_eq_some_iff] at hr
    obtain ⟨s1,hs,⟨⟩⟩ := hr
    exact ⟨(Consistent.overwrite h he hc (Prod.mk.inj (Prod.mk.inj hc).2).1 hs).1,fun hb => by cases hb⟩
  | missing =>
    simp only [hl,Option.map_eq_some_iff] at hr
    obtain ⟨s1,hs,⟨⟩⟩ := hr
    obtain ⟨h',hheld⟩ := Consistent.insertNew h rfl (h.of_missing hl) hs
    exact ⟨h',fun _ => hheld⟩

theorem Represented.remove {b : Bool} (h : Represented shift s) (hr : remove shift s core k = some (b,s')) :
    Represented shift s' := by
  rw [ServerTable.remove] at hr
  cases hl : lookup (accepts k) s.table (homeBucket shift k) with
  | hole o => exact absurd hl (h.wf.not_hole o)
  | entry o e =>
    obtain ⟨hbit,he,hc⟩ := h.of_entry hl
    simp only [hl,Option.map_eq_some_iff] at hr
    obtain ⟨s1,hs,⟨⟩⟩ := hr
    exact (Consistent.doRemove h hbit (Prod.mk.inj hc).1.symm he hs).1
  | missing =>
    simp only [hl] at hr
    cases hr
    exact h

theorem Represented.get {rm : Bool} {r : Bytes} (h : Represented shift s)
    (hr : get shift s core k rm = some (r,s')) : Represented shift s' := by
  rw [ServerTable.get,lookupSkip_eq h.wf.not_hole] at hr
  cases hl : lookup (accepts k) s.table (homeBucket shift k) with
  | hole o => exact absurd hl (h.wf.not_hole o)
  | missing =>
    simp only [hl] at hr
    cases hr
    exact h
  | entry o e =>
    obtain ⟨hbit,he,hc⟩ := h.of_entry hl
    cases rm with
    | false =>
      simp only [hl,Bool.false_eq_true,if_false] at hr
      cases hr
      exact h
    | true =>
      simp only [hl,if_true,Option.map_eq_some_iff] at hr
      obtain ⟨s1,hs,⟨⟩⟩ := hr
      exact (Consistent.doRemove h hbit (Prod.mk.inj hc).1.symm he hs).1

theorem Represented.step {op : Op} {out : Outcome} (h : Represented shift s)
    (hr : step shift s op = some (out,s')) : Represented shift s' := by
  cases op with
  | put core k v =>
    obtain ⟨⟨b,s1⟩,hp,⟨⟩⟩ := Option.map_eq_some_iff.mp hr
    exact (h.put hp).1
  | get core k rm =>
    obtain ⟨⟨r,s1⟩,hp,⟨⟩⟩ := Option.map_eq_some_iff.mp hr
    exact h.get hp
  | remove core k =>
    obtain ⟨⟨b,s1⟩,hp,⟨⟩⟩ := Option.map_eq_some_iff.mp hr
    exact h.remove hp

/-! ### The displacement loop -/

theorem hopsTo_lt {b : ℕ} {x y : ℕ × Table KVData} (h : HopsTo b x y) : x.1 < y.1 := by
  obtain ⟨hfar,hhop⟩ := h
  obtain ⟨b',o,d,e,⟨hf,hod,-,-⟩,-,hx,-⟩ := hop_moved (by omega) hhop
  omega

theorem hopsTo_wellFounded (b : ℕ) : WellFounded (HopsTo b) :=
  Subrelation.wf (fun h => hopsTo_lt h) (InvImage.wf Prod.fst Nat.lt_wfRel.wf)

theorem Represented.insertNew_none {b : ℕ} (h : Represented shift s)
    (hr : ServerTable.insertNew shift s core b k v = none) : LacksSpace shift s core b k v := by
  rw [ServerTable.insertNew] at hr
  cases hp : probe s.table (numEntries shift) b with
  | none => exact .inl hp
  | some f =>
    simp only [hp] at hr
    obtain ⟨hle,hlt,hnull⟩ := probe_spec hp
    have hstart := Hopped.claim h.wf hlt hnull (by simp [StaleBehind])
    cases hb : bring (fun _ e => e) (s.table.setSlot f .busy) b f with
    | stuck => exact .inr (.inl ⟨f,hp,hb⟩)
    | hole f' t' =>
      obtain ⟨-,-,b',o',hs,-⟩ := hstart.hole hle hb
      exact absurd hs (Set.notMem_empty _)
    | ready f' t' =>
      simp only [hb] at hr
      split at hr
      · cases hr
      · rename_i hne
        exact .inr (.inr ⟨s.slab,.inl rfl,fun a slab' ha => hne a slab' ha⟩)

theorem Represented.overwrite_none {b : ℕ} (h : Represented shift s) (he : e ∈ held s.table)
    (hc : classOf shift k = classOf shift e.key) (hr : ServerTable.overwrite s core i e k v = none) :
    LacksSpace shift s core b k v := by
  have hlen : k.len = e.key.len := (Prod.mk.inj (Prod.mk.inj hc).2).1
  rw [ServerTable.overwrite] at hr
  split at hr
  · cases hr
  · obtain ⟨idx,hidx⟩ := h.stored.classed e he
    obtain ⟨slab,hf⟩ : ∃ slab, s.slab.free core e.addr e.size = some slab := by simp [Slab.free,hidx]
    have hf' := hf
    rw [KVData.size,← hlen] at hf'
    simp only [hf'] at hr
    split at hr
    · cases hr
    · rename_i hne
      exact .inr (.inr ⟨slab,.inr ⟨e,he,hf⟩,fun a slab' ha => hne a slab' ha⟩)

theorem Represented.put_none (h : Represented shift s) (hr : ServerTable.put shift s core k v = none) :
    LacksSpace shift s core (homeBucket shift k) k v := by
  rw [ServerTable.put] at hr
  cases hl : lookup (accepts k) s.table (homeBucket shift k) with
  | hole o => exact absurd hl (h.wf.not_hole o)
  | entry o e =>
    obtain ⟨-,he,hc⟩ := h.of_entry hl
    simp only [hl,Option.map_eq_none_iff] at hr
    exact h.overwrite_none ⟨_,he⟩ hc hr
  | missing =>
    simp only [hl,Option.map_eq_none_iff] at hr
    exact h.insertNew_none hr

end Representation

theorem represented_run {shift base len : ℕ} {tr : List (Op × Outcome)} {s : State}
    (h : Trace (step shift) (fun _ _ => True) (.new base len) tr s) : Represented shift s :=
  h.invariant (I := Represented shift) (Consistent.new base len) fun _ _ _ _ _ hI hs => hI.step hs

/-- After every sequence of operations a bit is set exactly for an entry of its bucket, an entry has
exactly one bit, offsets are below 32 and no slot is busy. A `put` that inserts, whatever it
displaces, adds one entry to those that are there and leaves them retrievable; it gives up
only for lack of space, and its hops come to an end. -/
theorem bitmaps_represent_entries {shift base len : ℕ} {tr : List (Op × Outcome)} {s : State}
    (h : Trace (step shift) (fun _ _ => True) (.new base len) tr s) :
    (∀ b o, s.table.bit b o = true ↔ ∃ e, s.table.slot (b+o) = .entry e ∧ homeBucket shift e.key = b) ∧
    (∀ i e, s.table.slot i = .entry e → ∃! p : ℕ × ℕ, p.1+p.2 = i ∧ s.table.bit p.1 p.2 = true) ∧
    (∀ b o, s.table.bit b o = true → o < kNeighborhood) ∧
    (∀ i, s.table.slot i ≠ .busy) ∧
    (∀ core k v s', put shift s core k v = some (false,s') →
      (∃ a, held s'.table = insert ⟨a,k,v⟩ (held s.table)) ∧
      ∀ e ∈ held s.table, ∀ core', get shift s' core' e.key false = some (e.val,s')) ∧
    (∀ core k v, put shift s core k v = none → LacksSpace shift s core (homeBucket shift k) k v) ∧
    ∀ b, WellFounded (HopsTo b) := by
  have hrep := represented_run h
  refine ⟨hrep.bit_iff,?_,fun b o hb => bit_lt hb,fun i hi => (hrep.wf.busy i).mp hi,?_,fun core k v => hrep.put_none,
    hopsTo_wellFounded⟩
  · intro i e he
    obtain ⟨o,hi,hb,-⟩ := hrep.wf.entry i e he
    refine ⟨(homeBucket shift e.key,o),⟨hi.symm,hb⟩,?_⟩
    rintro ⟨b',o'⟩ ⟨hsum,hb'⟩
    obtain ⟨e',he',hhome⟩ := (hrep.bit_iff b' o').mp hb'
    change b'+o' = i at hsum
    rw [hsum,he,Slot.entry.injEq] at he'
    subst he'
    change i = homeBucket shift e.key+o at hi
    rw [Prod.mk.injEq]
    exact ⟨hhome.symm,by omega⟩
  · intro core k v s' hput
    obtain ⟨hrep',hheld⟩ := hrep.put hput
    obtain ⟨a,ha⟩ := hheld rfl
    refine ⟨⟨a,ha⟩,fun e he core' => hrep'.get_eq ?_ core'⟩
    rw [ha]
    exact .inr he

/-- Two keys that agree up to a zero byte share one entry. -/
theorem bitmaps_represent_entries_confused : ∃ tr s, Trace (step 4) (fun _ _ => True) (.new 4096 65536) tr s ∧
    s.table.bit (homeBucket 4 (nulKey 0)) 0 = true ∧
    ∃ e, s.table.slot (homeBucket 4 (nulKey 0)+0) = .entry e ∧ homeBucket 4 e.key = homeBucket 4 (nulKey 0) := by
  have hrun : (exec (step 4) (fun _ _ => True) (.new 4096 65536)
      [.put 0 (nulKey 0) [5],.put 0 (nulKey 1) [6,7],.get 0 (nulKey 0) false]).map
        (fun r => (r.1,r.2.table.bit (homeBucket 4 (nulKey 0)) 0)) =
      some ([.flag false,.flag true,.value [6,7]],true) := by decide +kernel
  obtain ⟨outs,s,ht,hobs⟩ := exec_observe hrun
  rw [Prod.mk.injEq] at hobs
  obtain ⟨rfl,hbit⟩ := hobs
  exact ⟨_,s,ht,hbit,((bitmaps_represent_entries ht).1 _ _).mp hbit⟩

end FarMemory.TableRepresentation
