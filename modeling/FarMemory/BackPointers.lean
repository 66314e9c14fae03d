import FarMemory.RuntimeSteps

/-!
# Back pointers of unique objects

The collector trusts the back pointer of an object: it marks whatever pointer the
header names and rewrites that pointer when the object leaves its region. Outside
a round every object that has not been freed must therefore be named back by the
pointer in its header.

Runs of unique pointers keep this as long as no pointer is moved onto one that
holds a local object. Such a move drops the only reference to that object without
freeing it, so the condition cannot be weakened: `moveAssign_iff` is exact. An
absent destination is harmless, since no local object names it.
-/
namespace FarMemory.BackPointers
open PointerMeta FarMemPtrMeta Regions Execution PointerRuntime RuntimeInvariant State

/-- Every object that is not freed names a present pointer that refers to it. -/
def NamesBack (s : State) : Prop :=
  ∀ a o, s.heap a = some o → o.isFreed = false → o.ptrAddr < s.numPtrs ∧
    (s.word o.ptrAddr).isPresent = true ∧ (s.word o.ptrAddr).getObjectAddr = a

def CollectorOp : Op → Prop
  | .gcMark _ => True
  | .gcWriteBack .. => True
  | .gcRecycle => True
  | _ => False

/-- Operations of unique pointers, moves onto live pointers included. -/
def UniqueKind (s : State) : Op → Prop
  | .allocate _ shared _ _ => shared = false
  | .move this other => (s.word this).isShared = false ∧ (s.word other).isShared = false
  | .copy .. => False
  | _ => True

/-- The destination of a move holds no local object. -/
def MoveFree (s : State) : Op → Prop
  | .move this _ => (s.word this).isPresent = false
  | _ => True

instance (s : State) (op : Op) : Decidable (UniqueKind s op) := by
  cases op <;> unfold UniqueKind <;> infer_instance

instance (s : State) (op : Op) : Decidable (MoveFree s op) := by
  cases op <;> unfold MoveFree <;> infer_instance

section Invariant
variable {s s' : State} {G : Ghost} {count farCount : ℕ}

theorem safe_of_moveFree {op : Op} (hk : UniqueKind s op) (hm : MoveFree s op) : Safe s op := by
  cases op with
  | move this other =>
    refine ⟨hm,.inr hk.1,fun hs => ?_⟩
    rw [hk.2] at hs
    cases hs
  | copy core this other => exact hk.elim
  | _ => trivial

theorem namesBack_of_idle (h : RunInv count farCount s G) (hidle : s.phase = .idle) : NamesBack s := by
  have hph := h.phase
  simp only [PhaseOk,hidle] at hph
  obtain ⟨-,hretired⟩ := h.inv.layout.marked_eq_empty hph
  intro a o ho hf
  obtain ⟨hm,hpr,ha⟩ := h.inv.groups.back a o ho hf (by simp [hretired])
  exact ⟨(h.inv.groups.group _ (Groups.ne_nil hm)).bound _ hm,hpr,ha⟩

theorem collector_denotes (h : RunInv count farCount s G) {op : Op} {out : Outcome} (hop : CollectorOp op)
    (he : step s op = some (out,s')) (p : ℕ) : denotes s' p = denotes s p := by
  have hsafe : Safe s op := by
    cases op <;> trivial
  obtain ⟨G',h',heff⟩ := step_effect h op hsafe he
  refine denotes_congr h h' ?_ p
  cases op <;> first | exact heff.1 | exact hop.elim

theorem move_unique {this other : ℕ} (hother : (s.word other).isShared = false) :
    s.move this other = ((if (s.word other).isPresent then (s.setMeta this (s.word other)).modifyObject
      (s.word other).getObjectAddr (·.setPtrAddr this) else s.setMeta this (s.word other))).setMeta other
        nullify := by
  simp only [State.move,hother,Bool.false_eq_true,if_false]

theorem move_word_this {this other : ℕ} (hother : (s.word other).isShared = false) (hne : this ≠ other) :
    (s.move this other).word this = s.word other := by
  rw [move_unique hother,setMeta_word_of_ne _ hne]
  split <;> simp

theorem move_heap_of_ne {this other a : ℕ} (hother : (s.word other).isShared = false)
    (ha : (s.word other).isPresent = true → a ≠ (s.word other).getObjectAddr) :
    (s.move this other).heap a = s.heap a := by
  rw [move_unique hother,setMeta_heap]
  split
  · rename_i hpr
    exact modifyObject_heap_of_ne _ (ha hpr)
  · rfl

theorem id_of_addr (h : RunInv count farCount s G) {p q id : ℕ} {o : Object}
    (hl : Local s G id (G.ring id) (s.word p).getObjectAddr o) (hq : (s.word q).isPresent = true)
    (ha : (s.word p).getObjectAddr = (s.word q).getObjectAddr) : q ∈ G.ring id := by
  obtain ⟨id',hm⟩ := h.inv.groups.member q (isNull_of_isPresent hq)
  obtain ⟨o',hl'⟩ := h.inv.groups.localOf hm hq
  have ho : o = o' := by
    have := hl'.object
    rwa [← ha,hl.object,Option.some.injEq] at this
  rwa [← hl.objId,ho,hl'.objId]

/-- A move onto a present pointer leaves the object of that pointer behind. -/
theorem move_orphans (h : RunInv count farCount s G) {this other : ℕ}
    (hthis : (s.word this).isShared = false) (hother : (s.word other).isShared = false)
    (hpr : (s.word this).isPresent = true) : ¬NamesBack (s.move this other) := by
  obtain ⟨id,hm⟩ := h.inv.groups.member this (isNull_of_isPresent hpr)
  obtain ⟨o,hl⟩ := h.inv.groups.localOf hm hpr
  have hone := (h.inv.groups.group id (Groups.ne_nil hm)).eq_singleton hm hthis
  have howner : o.ptrAddr = this := by
    have := hl.owner
    rwa [hone,List.mem_singleton] at this
  intro hback
  by_cases he : this = other
  · -- the pointer is moved onto itself and ends up null
    subst he
    have hbound : this < 2^47 :=
      ((h.inv.groups.group id (Groups.ne_nil hm)).bound this hm).trans_le h.inv.numPtrs
    rw [move_unique hother] at hback
    obtain ⟨-,hp,-⟩ := hback (s.word this).getObjectAddr (o.setPtrAddr this)
      (by simp [hpr,hl.object]) (Object.isFreed_of_lt (by rwa [Object.setPtrAddr_ptrAddr o hbound]))
    rw [Object.setPtrAddr_ptrAddr o hbound,setMeta_word_same,nullify_isPresent] at hp
    cases hp
  · have hne : (s.word other).isPresent = true →
        (s.word this).getObjectAddr ≠ (s.word other).getObjectAddr := by
      intro hpo ha
      have hmem := id_of_addr h hl hpo ha
      rw [hone,List.mem_singleton] at hmem
      exact he hmem.symm
    obtain ⟨-,hp,ha⟩ := hback _ o ((move_heap_of_ne hother hne).trans hl.object) (h.inv.local_isFreed hl)
    rw [howner,move_word_this hother he] at hp ha
    exact hne hp ha.symm

end Invariant

/-- The reached states of a run whose moves go into pointers without a local
object. -/
theorem runInv_of_run {cfg : Config} {tr : List (Op × Outcome)} {s : State}
    (h : Trace step (fun s op => UniqueKind s op ∧ MoveFree s op) (State.init cfg) tr s) :
    ∃ G, RunInv cfg.count cfg.farCount s G := runInv_of_safe (fun _ _ hop => safe_of_moveFree hop.1 hop.2) h

/-- Between rounds every object is named back, no step of a round changes what any
pointer denotes, and the condition on moves is exact: a move of unique pointers
keeps the back pointers if and only if its destination holds no local object. -/
theorem back_pointers_iff {cfg : Config} {tr : List (Op × Outcome)} {s : State}
    (h : Trace step (fun s op => UniqueKind s op ∧ MoveFree s op) (State.init cfg) tr s) :
    (s.phase = .idle → NamesBack s) ∧
    (∀ op out s', CollectorOp op → step s op = some (out,s') → ∀ p, denotes s' p = denotes s p) ∧
    (s.phase = .idle → ∀ this other s', UniqueKind s (.move this other) →
      step s (.move this other) = some (.done,s') → (NamesBack s' ↔ (s.word this).isPresent = false)) := by
  obtain ⟨G,hr⟩ := runInv_of_run h
  refine ⟨namesBack_of_idle hr,fun op out s' hop he p => collector_denotes hr hop he p,?_⟩
  intro hidle this other s' hk he
  constructor
  · intro hback
    by_contra hpr
    rw [Bool.not_eq_false] at hpr
    obtain ⟨-,he⟩ := Option.ite_none_right_eq_some.mp he
    simp only [Option.some.injEq,Prod.mk.injEq,true_and] at he
    exact move_orphans hr hk.1 hk.2 hpr (he ▸ hback)
  · intro hpr
    obtain ⟨G',hr',-⟩ := step_effect hr (.move this other) (safe_of_moveFree hk hpr) he
    refine namesBack_of_idle hr' ?_
    obtain ⟨-,he⟩ := Option.ite_none_right_eq_some.mp he
    simp only [Option.some.injEq,Prod.mk.injEq,true_and] at he
    rw [← he,(move_fields this other).1,hidle]

theorem back_pointers_iff_moved : ∃ s, ∃ tr,
    Trace step (fun s op => UniqueKind s op ∧ MoveFree s op) (State.init Config.small) tr s ∧
      s.phase = .idle ∧ NamesBack s := by
  have hrun : (exec step (fun s op => UniqueKind s op ∧ MoveFree s op) (State.init Config.small)
      [.allocate 0 false 0 [1],.move 1 0,.reallocate 0 1 [2,3],.evacuate 1,.read 0 false 1]).map
        (fun r => r.2.phase) = some .idle := by
    decide
  obtain ⟨_,s,ht,hidle⟩ := exec_observe hrun
  exact ⟨s,_,ht,hidle,(back_pointers_iff ht).1 hidle⟩

/-- Two allocations, a move assignment of the second pointer onto the first, and
enough allocations to fill the region. -/
def moveAssign : List (Op × ℕ) :=
  [(.allocate 0 false 0 [1],1),(.allocate 0 false 1 [2],1),(.move 0 1,0)]++fill false 2

/-- The object at an address with the place its back pointer refers to, and what
pointer 0 denotes before and after a collector round. -/
def observe (r : List Outcome × State) :
    (ℕ × Phase) × Option (Bool × ℕ) × Option ℕ × Option (Option ℕ) :=
  ((r.1.length,r.2.phase),
    (r.2.heap (2^30+6)).map fun o => (o.isFreed,(r.2.word o.ptrAddr).getObjectAddr),denotes r.2 0,
    (exec stepSized (fun _ _ => True) r.2 collect).map fun r' => denotes r'.2 0)

/-- The first object still names a pointer that refers to the second, and a
collector round over the region turns that pointer back to the first object. -/
theorem move_assign_orphans : ∃ s, ∃ tr, Trace step UniqueKind (State.init Config.small) tr s ∧
    tr.map Prod.fst = moveAssign.map Prod.fst ∧ s.phase = .idle ∧ ¬NamesBack s ∧
      ∃ outs s', exec stepSized (fun _ _ => True) s collect = some (outs,s') ∧
        denotes s 0 = some 30 ∧ denotes s' 0 = some 6 := by
  have hrun : (exec step UniqueKind (State.init Config.small) (moveAssign.map Prod.fst)).map observe =
      some ((moveAssign.length,.idle),some (false,2^30+30),some 30,some (some 6)) := by
    rw [exec_sized UniqueKind]
    · decide +kernel
    · simp only [moveAssign,List.forall_mem_append]
      exact ⟨by simp [Sized],fill_sized false 2⟩
  obtain ⟨outs,s,ht,hobs⟩ := exec_observe hrun
  simp only [observe,Prod.mk.injEq,Option.map_eq_some_iff] at hobs
  obtain ⟨⟨hlen,hidle⟩,⟨o,ho,hf,ha⟩,hbefore,⟨outs',s'⟩,hround,hafter⟩ := hobs
  refine ⟨s,_,ht,List.map_fst_zip (by rw [hlen,List.length_map]),hidle,fun hback => ?_,outs',s',hround,
    hbefore,hafter⟩
  rw [(hback _ o ho hf).2.2] at ha
  cases ha

end FarMemory.BackPointers
