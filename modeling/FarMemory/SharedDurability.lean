import FarMemory.RuntimeSteps

/-!
# Writes through shared pointers

The abstract machine gives every allocation a name; a pointer holds a name and a
name holds bytes. Copies share the name, and a write through any sharer changes
the bytes for all of them.

Every sharer has its own dirty bit, and only the bits of the pointers still in the
ring reach the collector. Freeing the only dirty sharer therefore forgets that the
local object differs from the remote one. The refinement holds for every run in
which a dirty sharer is freed only as the last one or while another one is dirty;
`freed_write_is_lost` is a run in which it does not.
-/
namespace FarMemory.SharedDurability
open PointerMeta FarMemPtrMeta Regions Execution PointerRuntime RuntimeInvariant State Function

/-- Pointers hold names, names hold bytes. Names below `fresh` are taken. -/
structure Names where
  obj : ℕ → Option ℕ
  val : ℕ → List UInt8
  fresh : ℕ

namespace Names

def empty : Names := ⟨fun _ => none,fun _ => [],0⟩

/-- What a finished operation on shared pointers does to the names. -/
def follow (t : Names) : Op × Outcome → Names
  | (.allocate _ _ p bytes,.done) =>
    ⟨update t.obj p (some t.fresh),update t.val t.fresh bytes,t.fresh+1⟩
  | (.copy _ this other,.done) => {t with obj := update t.obj this (t.obj other)}
  | (.write _ _ p bytes,.done) =>
    match t.obj p with
    | some n => {t with val := update t.val n bytes}
    | none => t
  | (.free _ _ p,.done) => {t with obj := update t.obj p none}
  | _ => t

def read (t : Names) (p : ℕ) : Option (List UInt8) := (t.obj p).map t.val

end Names

/-- The operations of shared pointers that are copy constructed from allocations. -/
def SharedOp (s : State) : Op → Prop
  | .allocate _ shared _ _ => shared = true
  | .copy _ this _ => (s.word this).isNull = true
  | .free _ _ p => (s.word p).isShared = true
  | .move .. => False
  | .evacuate _ => False
  | .reallocate .. => False
  | _ => True

/-- A free keeps the knowledge that the object is dirty. -/
def KeepsDirty (s : State) : Op → Prop
  | .free _ _ p => FreeKeeps s p
  | _ => True

instance (s : State) (p : ℕ) : Decidable (FreeKeeps s p) := by
  unfold FreeKeeps
  infer_instance

instance (s : State) : (op : Op) → Decidable (SharedOp s op)
  | .allocate _ shared _ _ => inferInstanceAs (Decidable (shared = true))
  | .copy _ _ _ | .free _ _ _ => inferInstanceAs (Decidable (_ = true))
  | .move .. | .evacuate _ | .reallocate .. => .isFalse id
  | .read .. | .write .. | .flush _ | .swapIn .. | .gcMark _ | .gcWriteBack .. | .gcRecycle => .isTrue trivial

instance (s : State) : (op : Op) → Decidable (KeepsDirty s op)
  | .free _ _ p => inferInstanceAs (Decidable (FreeKeeps s p))
  | .allocate .. | .read .. | .write .. | .move .. | .copy .. | .flush _ | .evacuate _ | .swapIn .. | .reallocate ..
  | .gcMark _ | .gcWriteBack .. | .gcRecycle => .isTrue trivial

theorem SharedOp.safe {s : State} {op : Op} (h : SharedOp s op) : Safe s op := by
  cases op with
  | move this other => exact h.elim
  | copy core this other => exact h
  | _ => trivial

/-- The sharers of a name are the ring of one id, and the id has the bytes of the
name. -/
structure Sharing (G : Ghost) (t : Names) : Prop where
  fresh : ∀ p n, t.obj p = some n → n < t.fresh
  live : ∀ p n, t.obj p = some n → ∃ id, p ∈ G.ring id
  named : ∀ id p, p ∈ G.ring id → ∃ n, t.obj p = some n ∧ G.value id = some (t.val n)
  same : ∀ id p q, p ∈ G.ring id → (q ∈ G.ring id ↔ t.obj q = t.obj p)

section Step
variable {s : State} {G G' : Ghost} {t : Names} {count farCount : ℕ}

theorem Sharing.congr (h : Sharing G t) (he : G'.ring = G.ring ∧ G'.value = G.value) :
    Sharing G' t := by
  obtain ⟨hring,hvalue⟩ := he
  refine ⟨h.fresh,?_,?_,?_⟩
  · rw [hring]
    exact h.live
  · rw [hring,hvalue]
    exact h.named
  · rw [hring]
    exact h.same

theorem Sharing.allocate (h : Sharing G t) {p id : ℕ} {bytes : List UInt8} (hp : ∀ id, p ∉ G.ring id)
    (hring : G'.ring = update G.ring id [p]) (hempty : G.ring id = [])
    (hvalue : G'.value = update G.value id (some bytes)) :
    Sharing G' ⟨update t.obj p (some t.fresh),update t.val t.fresh bytes,t.fresh+1⟩ := by
  have hnone : ∀ q, t.obj q ≠ some t.fresh := fun q hq => (h.fresh q _ hq).false
  -- away from the new pointer nothing has changed
  have hold : ∀ id' q, q ∈ G'.ring id' → q ≠ p → id' ≠ id ∧ q ∈ G.ring id' := by
    intro id' q hq hqp
    rw [hring] at hq
    by_cases hid : id' = id
    · rw [hid,update_self,List.mem_singleton] at hq
      exact absurd hq hqp
    · rw [update_of_ne hid] at hq
      exact ⟨hid,hq⟩
  have hnew : ∀ id', p ∈ G'.ring id' → id' = id := by
    intro id' hm
    by_contra hid
    rw [hring,update_of_ne hid] at hm
    exact hp id' hm
  refine ⟨?_,?_,?_,?_⟩
  · intro q n hn
    by_cases hq : q = p
    · subst hq
      simp only [update_self,Option.some.injEq] at hn
      subst hn
      exact Nat.lt_succ_self _
    · simp only [update_of_ne hq] at hn
      exact (h.fresh q n hn).trans (Nat.lt_succ_self _)
  · intro q n hn
    by_cases hq : q = p
    · exact ⟨id,by rw [hring,update_self,hq]; simp⟩
    · simp only [update_of_ne hq] at hn
      obtain ⟨id',hm⟩ := h.live q n hn
      have hid : id' ≠ id := fun he => by rw [he,hempty] at hm; cases hm
      exact ⟨id',by rwa [hring,update_of_ne hid]⟩
  · intro id' q hm
    by_cases hq : q = p
    · subst hq
      refine ⟨t.fresh,update_self ..,?_⟩
      rw [hvalue,hnew id' hm]
      simp
    · obtain ⟨hid,hm'⟩ := hold id' q hm hq
      obtain ⟨n,hn,hv⟩ := h.named id' q hm'
      have hne : n ≠ t.fresh := (h.fresh q n hn).ne
      refine ⟨n,by simpa [hq] using hn,?_⟩
      rw [hvalue,update_of_ne hid,hv]
      simp [hne]
  · intro id' q r hm
    by_cases hq : q = p
    · subst hq
      rw [hring,hnew id' hm,update_self,List.mem_singleton]
      by_cases hr : r = q
      · simp [hr]
      · simp [hr,hnone r]
    · obtain ⟨hid,hm'⟩ := hold id' q hm hq
      obtain ⟨n,hn,-⟩ := h.named id' q hm'
      rw [hring,update_of_ne hid]
      by_cases hr : r = p
      · subst hr
        simp only [update_self,update_of_ne hq]
        exact ⟨fun hx => absurd hx (hp id'),fun hx => absurd hx.symm (hnone q)⟩
      · simp only [update_of_ne hq,update_of_ne hr]
        exact h.same id' q r hm'

theorem Sharing.copy (h : Sharing G t) {this other : ℕ} (hthis : ∀ id, this ∉ G.ring id)
    (hring : ∀ id q, q ∈ G'.ring id ↔ q ∈ G.ring id ∨ (q = this ∧ other ∈ G.ring id))
    (hvalue : G'.value = G.value) : Sharing G' {t with obj := update t.obj this (t.obj other)} := by
  -- after the copy every member of a ring has the name of an old member
  have hobj : ∀ id q, q ∈ G'.ring id →
      ∃ r ∈ G.ring id, update t.obj this (t.obj other) q = t.obj r := by
    intro id q hq
    rcases (hring id q).mp hq with hm | ⟨rfl,hm⟩
    · have hne : q ≠ this := fun he => hthis id (he ▸ hm)
      exact ⟨q,hm,update_of_ne hne ..⟩
    · exact ⟨other,hm,update_self ..⟩
  have hiff : ∀ id q, q ∈ G'.ring id ↔
      ∃ r ∈ G.ring id, update t.obj this (t.obj other) q = t.obj r := by
    intro id q
    refine ⟨hobj id q,?_⟩
    rintro ⟨r,hr,he⟩
    by_cases hq : q = this
    · subst hq
      rw [update_self] at he
      exact (hring id q).mpr (.inr ⟨rfl,(h.same id r other hr).mpr he⟩)
    · rw [update_of_ne hq] at he
      exact (hring id q).mpr (.inl ((h.same id r q hr).mpr he))
  refine ⟨?_,?_,?_,?_⟩
  · intro q n hn
    by_cases hq : q = this
    · subst hq
      simp only [update_self] at hn
      exact h.fresh other n hn
    · simp only [update_of_ne hq] at hn
      exact h.fresh q n hn
  · intro q n hn
    by_cases hq : q = this
    · subst hq
      simp only [update_self] at hn
      obtain ⟨id,hm⟩ := h.live other n hn
      exact ⟨id,(hring id q).mpr (.inr ⟨rfl,hm⟩)⟩
    · simp only [update_of_ne hq] at hn
      obtain ⟨id,hm⟩ := h.live q n hn
      exact ⟨id,(hring id q).mpr (.inl hm)⟩
  · intro id q hq
    obtain ⟨r,hr,he⟩ := hobj id q hq
    obtain ⟨n,hn,hv⟩ := h.named id r hr
    exact ⟨n,he.trans hn,by rw [hvalue]; exact hv⟩
  · intro id q q' hq
    obtain ⟨r,hr,he⟩ := hobj id q hq
    rw [hiff id q']
    constructor
    · rintro ⟨r',hr',he'⟩
      exact he'.trans (((h.same id r r' hr).mp hr').trans he.symm)
    · intro he'
      exact ⟨r,hr,he'.trans he⟩

theorem Sharing.write (h : Sharing G t) {p id n : ℕ} {bytes : List UInt8} (hp : p ∈ G.ring id)
    (hn : t.obj p = some n) (hring : G'.ring = G.ring)
    (hvalue : G'.value = update G.value id (some bytes))
    (hdisjoint : ∀ p id id', p ∈ G.ring id → p ∈ G.ring id' → id = id') :
    Sharing G' {t with val := update t.val n bytes} := by
  refine ⟨h.fresh,by rw [hring]; exact h.live,?_,by rw [hring]; exact h.same⟩
  intro id' q hq
  rw [hring] at hq
  obtain ⟨m,hm,hv⟩ := h.named id' q hq
  refine ⟨m,hm,?_⟩
  by_cases hnm : m = n
  · subst hnm
    have hid : id' = id := hdisjoint q id' id hq ((h.same id p q hp).mpr (hm.trans hn.symm))
    rw [hvalue,hid]
    simp
  · have hid : id' ≠ id := by
      rintro rfl
      have he := (h.same id' p q hp).mp hq
      rw [hm,hn,Option.some.injEq] at he
      exact hnm he
    rw [hvalue,update_of_ne hid,hv]
    simp [hnm]

theorem Sharing.free (h : Sharing G t) {p : ℕ} (hring : ∀ id q, q ≠ p → (q ∈ G'.ring id ↔ q ∈ G.ring id))
    (hgone : ∀ id, p ∉ G'.ring id) (hvalue : G'.value = G.value) :
    Sharing G' {t with obj := update t.obj p none} := by
  have hne : ∀ id q, q ∈ G'.ring id → q ≠ p ∧ q ∈ G.ring id := by
    intro id q hq
    have hqp : q ≠ p := fun he => hgone id (he ▸ hq)
    exact ⟨hqp,(hring id q hqp).mp hq⟩
  refine ⟨?_,?_,?_,?_⟩
  · intro q n hn
    by_cases hq : q = p
    · subst hq
      simp at hn
    · simp only [update_of_ne hq] at hn
      exact h.fresh q n hn
  · intro q n hn
    by_cases hq : q = p
    · subst hq
      simp at hn
    · simp only [update_of_ne hq] at hn
      obtain ⟨id,hm⟩ := h.live q n hn
      exact ⟨id,(hring id q hq).mpr hm⟩
  · intro id q hq
    obtain ⟨hqp,hm⟩ := hne id q hq
    obtain ⟨n,hn,hv⟩ := h.named id q hm
    exact ⟨n,by simpa [hqp] using hn,by rw [hvalue]; exact hv⟩
  · intro id q r hq
    obtain ⟨hqp,hm⟩ := hne id q hq
    obtain ⟨n,hn,-⟩ := h.named id q hm
    by_cases hr : r = p
    · subst hr
      simp only [update_self,update_of_ne hqp,hn]
      exact ⟨fun hx => absurd hx (hgone id),fun hx => by cases hx⟩
    · simp only [update_of_ne hqp,update_of_ne hr]
      rw [hring id r hr]
      exact h.same id q r hm

theorem Sharing.step {s' : State} (h : Sharing G t) (hr : RunInv count farCount s G) {op : Op}
    {out : Outcome} (hop : SharedOp s op) (hkeep : KeepsDirty s op) (hstep : step s op = some (out,s'))
    (he : Effect s G G' op out) : Sharing G' (t.follow (op,out)) := by
  cases op with
  | allocate core shared p bytes =>
    cases out with
    | done =>
      obtain ⟨id,hempty,hring,hvalue⟩ := he
      obtain ⟨hc,hstep⟩ := Option.ite_none_right_eq_some.mp hstep
      exact h.allocate (hr.not_mem_of_isNull hc.2.1) hring hempty hvalue
    | _ => exact h.congr he
  | copy core this other =>
    cases out with
    | done => exact h.copy (hr.not_mem_of_isNull hop) he.2 he.1
    | _ => exact h.congr he
  | write core nt p bytes =>
    cases out with
    | done =>
      obtain ⟨id,hp,hring,hvalue⟩ := he
      obtain ⟨n,hn,-⟩ := h.named id p hp
      simp only [Names.follow,hn]
      exact h.write hp hn hring hvalue hr.inv.groups.disjoint
    | _ => exact h.congr he
  | free core trivial p =>
    cases out with
    | done =>
      obtain ⟨hring,-,hval,-,hgone⟩ := he
      exact h.free hring (hgone hop) (hval hkeep)
    | _ => exact h.congr he
  | move this other => exact hop.elim
  | evacuate p => exact hop.elim
  | reallocate core p bytes => exact hop.elim
  | _ => exact h.congr he

end Step

/-- In every run that never frees the only dirty sharer of an object that others
still share, a read through any sharer returns the last value written through any
of them, or waits because no region is free. -/
theorem shared_reads_last_write {cfg : Config} {tr : List (Op × Outcome)} {s : State}
    (h : Trace step (fun s op => SharedOp s op ∧ KeepsDirty s op) (State.init cfg) tr s)
    (core : ℕ) (nt : Bool) {p : ℕ} {v : List UInt8} (hv : (tr.foldl Names.follow Names.empty).read p = some v) :
    ∃ s', step s (.read core nt p) = some (.value v,s') ∨
      step s (.read core nt p) = some (.wait,s') ∧ s.cache.freeRegions = [] := by
  have hrun : ∃ G, RunInv cfg.count cfg.farCount s G ∧ Sharing G (tr.foldl Names.follow Names.empty) := by
    refine h.simulation (I := fun s t => ∃ G, RunInv cfg.count cfg.farCount s G ∧ Sharing G t) ?_ ?_
    · exact ⟨Ghost.init,RunInv.init cfg,by simp [Names.empty],by simp [Names.empty],by simp [Ghost.init],
        by simp [Ghost.init]⟩
    · rintro s t op out s' ⟨hop,hkeep⟩ ⟨G,hr,hs⟩ hstep
      obtain ⟨G',hr',he⟩ := step_effect hr op hop.safe hstep
      exact ⟨G',hr',hs.step hr hop hkeep hstep he⟩
  obtain ⟨G,hr,hs⟩ := hrun
  obtain ⟨n,hn,hval⟩ := Option.map_eq_some_iff.mp hv
  obtain ⟨id,hp⟩ := hs.live p n hn
  obtain ⟨m,hm,hvalue⟩ := hs.named id p hp
  rw [hn,Option.some.injEq] at hm
  subst hm
  exact read_value hr hp (by rw [hvalue,hval])

theorem shared_reads_last_write_copied : ∃ s, ∃ tr,
    Trace step (fun s op => SharedOp s op ∧ KeepsDirty s op) (State.init Config.small) tr s ∧
      ∃ s', step s (.read 0 false 2) = some (.value [7],s') ∨
        step s (.read 0 false 2) = some (.wait,s') ∧ s.cache.freeRegions = [] := by
  have hrun : (exec step (fun s op => SharedOp s op ∧ KeepsDirty s op) (State.init Config.small)
      [.allocate 0 true 0 [1],.copy 0 1 0,.copy 0 2 1,.write 0 false 1 [7],.flush 2,.free 0 false 1]).map
        Prod.fst = some [.done,.done,.done,.done,.done,.done] := by
    decide
  obtain ⟨_,s,ht,rfl⟩ := exec_observe hrun
  exact ⟨s,_,ht,shared_reads_last_write ht 0 false rfl⟩

/-- A write through a copy, the free of that copy, and a collector round over the
full region. -/
def lostWrite : List (Op × ℕ) :=
  [(.allocate 0 true 0 [1],1),(.copy 0 1 0,0),(.flush 0,0),(.write 0 false 1 [2],0),(.free 0 false 1,0)]
    ++fill true 1++collect

theorem lostWrite_sized : ∀ x ∈ lostWrite, Sized x := by
  simp only [lostWrite,List.forall_mem_append]
  exact ⟨⟨by simp [Sized],fill_sized true 1⟩,collect_sized⟩

/-- The write through the freed sharer is gone: the last write was `[2]`, the read
returns `[1]`. -/
theorem freed_write_is_lost : ∃ s s', ∃ tr, Trace step SharedOp (State.init Config.small) tr s ∧
    (tr.foldl Names.follow Names.empty).read 0 = some [2] ∧
      step s (.read 0 false 0) = some (.value [1],s') := by
  have hrun : (exec step SharedOp (State.init Config.small) (lostWrite.map Prod.fst)).map
      (fun r => (((lostWrite.map Prod.fst).zip r.1).foldl Names.follow Names.empty |>.read 0,
        (step r.2 (.read 0 false 0)).map Prod.fst)) = some (some [2],some (.value [1])) := by
    rw [exec_sized _ lostWrite_sized]
    decide +kernel
  obtain ⟨outs,s,ht,hobs⟩ := exec_observe hrun
  simp only [Prod.mk.injEq,Option.map_eq_some_iff] at hobs
  obtain ⟨hlast,⟨out,s'⟩,hread,rfl⟩ := hobs
  exact ⟨s,s',_,ht,hlast,hread⟩

end FarMemory.SharedDurability
