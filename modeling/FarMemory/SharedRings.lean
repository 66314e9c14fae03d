import FarMemory.RuntimeSteps

/-!
# The rings of shared pointers

The live shared pointers of an object form one cycle under `next_ptr_`: nothing
else is on it, all its members agree on where the object is, and a local object
names one of them. The collector and the swap-in walk these cycles without any
check.

Copy construction, move construction of a local pointer and every free relink the
cycle correctly. Assignment onto a live pointer does not take it out of its old
cycle, and a move of a swapped-out pointer does not relink at all. `Relinks` leaves
these out; `bad_relinks` has one run of each. The end is about where the objects lie.
-/
namespace FarMemory.SharedRings
open PointerMeta FarMemPtrMeta Regions RingLinks Execution PointerRuntime RuntimeInvariant State

/-- `g` is the cycle of the live shared pointers to the object of `p`. -/
structure Cycle (s : State) (p : ℕ) (g : List ℕ) : Prop where
  nodup : g.Nodup
  ring : Ring s.nextPtr g
  sharers : ∀ q, q ∈ g ↔ s.live q = true ∧ (s.word q).isShared = true ∧ denotes s q = denotes s p
  place : ∀ q ∈ g, (s.word q).isPresent = (s.word p).isPresent ∧
    if (s.word p).isPresent then (s.word q).getObjectAddr = (s.word p).getObjectAddr
    else (s.word q).getObjectId = (s.word p).getObjectId
  owner : (s.word p).isPresent = true → ∃ o, s.heap (s.word p).getObjectAddr = some o ∧ o.ptrAddr ∈ g

/-- A copy or a move goes into a null pointer, and a moved shared pointer is local. -/
def Relinks (s : State) : Op → Prop
  | .move this other => (s.word this).isNull = true ∧
      ((s.word other).isShared = true → (s.word other).isPresent = true)
  | .copy _ this _ => (s.word this).isNull = true
  | _ => True

instance (s : State) : (op : Op) → Decidable (Relinks s op)
  | .move _ _ => inferInstanceAs (Decidable (_ = true ∧ (_ = true → _ = true)))
  | .copy _ _ _ => inferInstanceAs (Decidable (_ = true))
  | .allocate .. | .read .. | .write .. | .flush _ | .evacuate _ | .swapIn .. | .free .. | .reallocate .. | .gcMark _
  | .gcWriteBack .. | .gcRecycle => .isTrue trivial

theorem Relinks.safe {s : State} {op : Op} (h : Relinks s op) : Safe s op := by
  cases op with
  | move this other => exact ⟨isPresent_of_isNull h.1,.inl h.1,h.2⟩
  | copy core this other => exact h
  | _ => trivial

variable {s : State} {G : Ghost} {count farCount : ℕ}

theorem mem_ring_iff (h : RunInv count farCount s G) {p id : ℕ} (hp : p ∈ G.ring id) (q : ℕ) :
    q ∈ G.ring id ↔ denotes s q = denotes s p := by
  rw [denotes_of_mem h hp]
  refine ⟨denotes_of_mem h,fun hq => ?_⟩
  by_cases hm : ∃ id', q ∈ G.ring id'
  · obtain ⟨id',hm⟩ := hm
    rw [denotes_of_mem h hm,Option.some.injEq] at hq
    exact hq ▸ hm
  · rw [not_exists] at hm
    rw [denotes_of_not_mem h hm] at hq
    cases hq

theorem cycle_of_group (h : RunInv count farCount s G) {p id : ℕ} (hp : p ∈ G.ring id)
    (hs : (s.word p).isShared = true) : Cycle s p (G.ring id) := by
  have hg := h.inv.groups.group id (Groups.ne_nil hp)
  obtain ⟨hring,hshared⟩ : Ring s.nextPtr (G.ring id) ∧ ∀ q ∈ G.ring id, (s.word q).isShared = true := by
    rcases hg.kind with ⟨q,hq,hqs⟩ | hr
    · rw [hq,List.mem_singleton] at hp
      rw [hp,hqs] at hs
      cases hs
    · exact hr
  refine ⟨hg.nodup,hring,?_,?_,?_⟩
  · intro q
    rw [mem_ring_iff h hp q]
    refine ⟨fun hq => ?_,fun hq => hq.2.2⟩
    have hm := (mem_ring_iff h hp q).mpr hq
    exact ⟨by simp [State.live,hg.bound q hm,hg.notNull hm],hshared q hm,hq⟩
  · intro q hq
    rcases hg.place with ha | ⟨a,o,hl⟩
    · simp [(ha.words p hp).1,(ha.words q hq).1,(ha.words p hp).2.2.1,(ha.words q hq).2.2.1]
    · simp [(hl.words p hp).1,(hl.words q hq).1,(hl.words p hp).2.1,(hl.words q hq).2.1]
  · intro hpr
    obtain ⟨o,hl⟩ := h.inv.groups.localOf hp hpr
    exact ⟨o,hl.object,hl.owner⟩

theorem Cycle.next {p : ℕ} {g : List ℕ} (h : Cycle s p g) (hl : s.live p = true)
    (hs : (s.word p).isShared = true) : denotes s (s.nextPtr p) = denotes s p :=
  ((h.sharers _).mp (h.ring.next_mem ((h.sharers p).mpr ⟨hl,hs,rfl⟩))).2.2

/-- In every run whose copies and moves go into null pointers, and whose moved
shared pointers are local, every live shared pointer is on the cycle of its
object. -/
theorem shared_ptrs_form_cycles {cfg : Config} {tr : List (Op × Outcome)} {s : State}
    (h : Trace step Relinks (State.init cfg) tr s) {p : ℕ} (hl : s.live p = true)
    (hs : (s.word p).isShared = true) : ∃ g, Cycle s p g := by
  obtain ⟨G,hr⟩ : ∃ G, RunInv cfg.count cfg.farCount s G := by
    refine h.invariant (I := fun s => ∃ G, RunInv cfg.count cfg.farCount s G) ⟨_,RunInv.init cfg⟩ ?_
    rintro s op out s' hop ⟨G,hr⟩ hstep
    obtain ⟨G',hr',-⟩ := step_effect hr op hop.safe hstep
    exact ⟨G',hr'⟩
  obtain ⟨id,hp⟩ := hr.live_mem hl
  exact ⟨_,cycle_of_group hr hp hs⟩

theorem shared_ptrs_form_cycles_moved : ∃ s, ∃ tr, Trace step Relinks (State.init Config.small) tr s ∧
    s.live 3 = true ∧ (s.word 3).isShared = true ∧ ∃ g, Cycle s 3 g := by
  have hrun : (exec step Relinks (State.init Config.small)
      [.allocate 0 true 0 [1],.copy 0 1 0,.copy 0 2 1,.move 3 0,.free 0 false 1]).map
        (fun r => (r.2.live 3,(r.2.word 3).isShared)) = some (true,true) := by
    decide
  obtain ⟨_,s,ht,hobs⟩ := exec_observe hrun
  simp only [Prod.mk.injEq] at hobs
  exact ⟨s,_,ht,hobs.1,hobs.2,shared_ptrs_form_cycles ht hobs.1 hobs.2⟩

/-- A copy assignment onto a pointer that has another sharer. -/
def copyAssign : List (Op × ℕ) :=
  [(.allocate 0 true 0 [1],1),(.copy 0 1 0,0),(.allocate 0 true 2 [2],1),(.copy 0 0 2,0)]

/-- A move assignment onto a pointer that has another sharer. -/
def moveAssign : List (Op × ℕ) :=
  [(.allocate 0 true 0 [1],1),(.copy 0 1 0,0),(.allocate 0 true 2 [2],1),(.move 0 2,0)]

/-- A move of a swapped-out pointer that has another sharer. -/
def moveAbsent : List (Op × ℕ) :=
  [(.allocate 0 true 0 [1],1),(.copy 0 1 0,0)]++fill true 3++collect++[(.move 2 0,0)]

/-- What shows that pointer 1 is on no cycle: it is live and shared, but the pointer
behind it stands for something else. -/
def observe (r : List Outcome × State) : ℕ × Bool × Bool × Bool :=
  (r.1.length,r.2.live 1,(r.2.word 1).isShared,decide (denotes r.2 (r.2.nextPtr 1) = denotes r.2 1))

/-- These operations leave pointer 1 live and shared, but on no cycle. -/
def LeavesCycle (ops : List Op) : Prop := ∃ s, ∃ tr, Trace step (fun _ _ => True) (State.init Config.small) tr s ∧
  tr.map Prod.fst = ops ∧ s.live 1 = true ∧ (s.word 1).isShared = true ∧ ¬∃ g, Cycle s 1 g

theorem no_cycle_of_observe {l : List (Op × ℕ)} (hl : ∀ x ∈ l, Sized x)
    (hrun : (exec stepSized (fun _ _ => True) (State.init Config.small) l).map observe =
      some (l.length,true,true,false)) : LeavesCycle (l.map Prod.fst) := by
  rw [← exec_sized (fun _ _ => True) hl] at hrun
  obtain ⟨outs,s,ht,hobs⟩ := exec_observe hrun
  simp only [observe,Prod.mk.injEq,decide_eq_false_iff_not] at hobs
  obtain ⟨hlen,hlive,hshared,hne⟩ := hobs
  refine ⟨s,_,ht,List.map_fst_zip (by rw [hlen,List.length_map]),hlive,hshared,?_⟩
  rintro ⟨g,hg⟩
  exact hne (hg.next hlive hshared)

theorem bad_relinks : LeavesCycle (copyAssign.map Prod.fst) ∧ LeavesCycle (moveAssign.map Prod.fst) ∧
    LeavesCycle (moveAbsent.map Prod.fst) := by
  refine ⟨no_cycle_of_observe (by simp [copyAssign,Sized]) (by decide +kernel),
    no_cycle_of_observe (by simp [moveAssign,Sized]) (by decide +kernel),
    no_cycle_of_observe ?_ (by decide +kernel)⟩
  simp only [moveAbsent,List.forall_mem_append]
  exact ⟨⟨⟨by simp [Sized],fill_sized true 3⟩,collect_sized⟩,by simp [Sized]⟩

/-! ### Where objects are -/

/-- The bytes that the object of a pointer takes in far memory. -/
def footprint (s : State) (p : ℕ) : ℕ :=
  if (s.word p).isPresent then ((s.heap (s.word p).getObjectAddr).map Object.size).getD 0
  else (s.word p).getObjectSize

theorem footprint_block (h : RunInv count farCount s G) {p id : ℕ} (hp : p ∈ G.ring id) :
    ∃ n, FarBlock s G id n ∧ footprint s p = sizeFor n := by
  unfold footprint
  cases hpr : (s.word p).isPresent with
  | true =>
    obtain ⟨o,hl⟩ := h.inv.groups.localOf hp hpr
    exact ⟨_,hl.far,by rw [hl.object]; exact (h.inv.layout.ok hl.object).size⟩
  | false =>
    have ha := h.inv.groups.absentOf hp hpr
    exact ⟨_,ha.far,(ha.words p hp).2.2.2.2⟩

/-- In every run that respects ownership no two local objects share bytes, a live pointer to a
local object finds it there and not freed, and what two live pointers stand for is apart in far
memory unless it is the same object. -/
theorem objects_apart {cfg : Config} {tr : List (Op × Outcome)} {s : State}
    (h : Trace step Safe (State.init cfg) tr s) :
    (∀ a o a' o', s.heap a = some o → s.heap a' = some o' → a ≠ a' →
      a+alignTo o.size 8 ≤ a' ∨ a'+alignTo o'.size 8 ≤ a) ∧
    (∀ p, s.live p = true → (s.word p).isPresent = true →
      ∃ o, s.heap (s.word p).getObjectAddr = some o ∧ o.isFreed = false) ∧
    ∀ p q, s.live p = true → s.live q = true → ∃ id id', denotes s p = some id ∧ denotes s q = some id' ∧
      (id ≠ id' → id+footprint s p ≤ id' ∨ id'+footprint s q ≤ id) := by
  obtain ⟨G,hr⟩ := runInv_of_safe (fun _ _ hop => hop) h
  refine ⟨fun a o a' o' ho ho' hne => ?_,fun p hl hpr => ?_,fun p q hp hq => ?_⟩
  · obtain ⟨i,b,hb,rfl⟩ := hr.inv.layout.block a o ho
    obtain ⟨i',b',hb',rfl⟩ := hr.inv.layout.block a' o' ho'
    obtain ⟨x,hx,-,hsize⟩ := hr.inv.layout.object i b hb
    obtain ⟨x',hx',-,hsize'⟩ := hr.inv.layout.object i' b' hb'
    cases ho.symm.trans hx
    cases ho'.symm.trans hx'
    rw [hsize,hsize']
    exact hr.inv.layout.wf.block_disjoint hb hb' hne
  · obtain ⟨id,hm⟩ := hr.live_mem hl
    obtain ⟨o,hlocal⟩ := hr.inv.groups.localOf hm hpr
    exact ⟨o,hlocal.object,hr.inv.local_isFreed hlocal⟩
  · obtain ⟨id,hm⟩ := hr.live_mem hp
    obtain ⟨id',hm'⟩ := hr.live_mem hq
    obtain ⟨n,hblock,hn⟩ := footprint_block hr hm
    obtain ⟨n',hblock',hn'⟩ := footprint_block hr hm'
    refine ⟨id,id',denotes_of_mem hr hm,denotes_of_mem hr hm',fun hne => ?_⟩
    rw [hn,hn']
    exact hr.inv.far.disjoint hblock' hblock hne

/-- A shared object and a unique one that is swapped out. -/
theorem objects_apart_shared : ∃ s, ∃ tr, Trace step Safe (State.init Config.small) tr s ∧
    s.live 1 = true ∧ s.live 2 = true ∧ denotes s 1 ≠ denotes s 2 ∧
      ∃ id id', denotes s 1 = some id ∧ denotes s 2 = some id' ∧ (id+footprint s 1 ≤ id' ∨ id'+footprint s 2 ≤ id) := by
  have hrun : (exec step Relinks (State.init Config.small) [.allocate 0 true 0 [1],.copy 0 1 0,
      .allocate 0 false 2 [2],.evacuate 2]).map (fun r => (r.2.live 1,r.2.live 2,
        decide (denotes r.2 1 = denotes r.2 2))) = some (true,true,false) := by decide
  obtain ⟨_,s,ht,hobs⟩ := exec_observe hrun
  simp only [Prod.mk.injEq,decide_eq_false_iff_not] at hobs
  have hsafe := ht.mono fun _ _ hop => hop.safe
  obtain ⟨id,id',hid,hid',hapart⟩ := (objects_apart hsafe).2.2 1 2 hobs.1 hobs.2.1
  refine ⟨s,_,hsafe,hobs.1,hobs.2.1,hobs.2.2,id,id',hid,hid',hapart fun he => hobs.2.2 ?_⟩
  rw [hid,hid',he]

end FarMemory.SharedRings
