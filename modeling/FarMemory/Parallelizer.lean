import FarMemory.CircularBuffer
import FarMemory.Execution

/-!
# Distribution of the collector's tasks

The master puts tasks round robin into the queues of its slaves and then raises a
flag. A slave whose queue looks empty tries to steal from the others. It leaves if
it sees the flag up and then its queue empty; otherwise it takes a task and starts
over. Every operation under a queue's lock is one step, and so is every read of the flag
and of a head or a tail outside the locks. A steal may also fail because the victim's
lock is taken or its size was read too early. The queues have at most `2^31` slots, so that no
sum of 32-bit positions wraps.
-/
namespace FarMemory.Parallelizer
open Execution CircularBuffer Function

/-- Where a slave is: reading its size, stealing from the others in turn, testing for the
exit, or taking a task. -/
inductive Pc
  | loadTail
  | loadHead (tail : ℕ)
  | steal (i : ℕ)
  | readDone
  | exitTail
  | exitHead (tail : ℕ)
  | dequeue
  | exited
  deriving DecidableEq

structure State (n : ℕ) (T : Type*) where
  taskQueues : Fin n → CircularBuffer T
  todo : List T
  enqueueThreadId : ℕ
  masterDone : Bool
  pcs : Fin n → Pc
  got : Fin n → List T

inductive Act (n : ℕ)
  | master
  | slave (tid : Fin n) (locked : Bool)
  deriving DecidableEq

section
variable {n : ℕ} {T : Type*}

def State.setPc (s : State n T) (tid : Fin n) (pc : Pc) : State n T := {s with pcs := update s.pcs tid pc}

/-- One try of `master_enqueue_task`, or the flag when all tasks are queued. -/
def master (s : State n T) : Option (State n T) :=
  match s.todo with
  | [] => if s.masterDone then none else some {s with masterDone := true}
  | x::rest =>
    if h : s.enqueueThreadId < n then
      let r := (s.taskQueues ⟨s.enqueueThreadId,h⟩).pushBack x
      some {s with
        taskQueues := update s.taskQueues ⟨s.enqueueThreadId,h⟩ r.2
        todo := if r.1 then rest else x::rest
        enqueueThreadId := if s.enqueueThreadId+1 = n then 0 else s.enqueueThreadId+1}
    else none

/-- A steal from the victim's queue, with the victim's lock. -/
def stealFrom (s : State n T) (tid victim : Fin n) : Bool × State n T :=
  let r := workSteal (s.taskQueues tid) (s.taskQueues victim)
  (r.1,{s with taskQueues := update (update s.taskQueues tid r.2.1) victim r.2.2})

def slave (s : State n T) (tid : Fin n) (locked : Bool) : Option (State n T) :=
  let queue := s.taskQueues tid
  match s.pcs tid with
  | .loadTail => some (s.setPc tid (.loadHead queue.tail))
  | .loadHead t => some (s.setPc tid (if sizeOf queue.slots t queue.head = 0 then .steal 0 else .readDone))
  | .steal i =>
    if h : i < n then
      if (⟨i,h⟩ : Fin n) ≠ tid ∧ locked = true then
        let r := stealFrom s tid ⟨i,h⟩
        some (r.2.setPc tid (if r.1 then .readDone else .steal (i+1)))
      else some (s.setPc tid (.steal (i+1)))
    else some (s.setPc tid .readDone)
  | .readDone => some (s.setPc tid (if s.masterDone then .exitTail else .dequeue))
  | .exitTail => some (s.setPc tid (.exitHead queue.tail))
  | .exitHead t => some (s.setPc tid (if sizeOf queue.slots t queue.head = 0 then .exited else .dequeue))
  | .dequeue =>
    match queue.popFront id with
    | none => some (s.setPc tid .loadTail)
    | some (x,queue') => some ({s with
        taskQueues := update s.taskQueues tid queue'
        got := update s.got tid (s.got tid++[x])}.setPc tid .loadTail)
  | .exited => none

def step (s : State n T) : Act n → Option (Unit × State n T)
  | .master => (master s).map fun s => ((),s)
  | .slave tid locked => (slave s tid locked).map fun s => ((),s)

/-- What the constructor and the end of a round leave for the next one. -/
structure Ready (tasks : List T) (s : State n T) : Prop where
  slaves : s.enqueueThreadId < n
  empty : ∀ i, (s.taskQueues i).contents = []
  todo : s.todo = tasks
  running : s.masterDone = false
  start : ∀ i, s.pcs i = .loadTail
  idle : ∀ i, s.got i = []
  narrow : ∀ i, (s.taskQueues i).slots ≤ 2^31

/-- A parallelizer with slaves and room in their queues; the constructor refuses any other. -/
def new (n depth : ℕ) (fill : T) (tasks : List T) : Option (State n T) :=
  if n = 0 ∨ depth = 0 then none
  else some ⟨fun _ => .new fill depth,tasks,0,false,fun _ => .loadTail,fun _ => []⟩

theorem new_ready {depth : ℕ} {fill : T} {tasks : List T} {s : State n T} (hdepth : depth < 2^31)
    (h : new n depth fill tasks = some s) : Ready tasks s := by
  obtain ⟨hpos,h⟩ := Option.ite_none_left_eq_some.mp h
  cases h
  have hempty : (CircularBuffer.new fill depth).contents = [] := (contents_eq_nil_iff _).mpr rfl
  exact ⟨by simp only; omega,fun _ => hempty,rfl,rfl,fun _ => rfl,fun _ => rfl,fun _ => hdepth⟩

/-! ### Where the tasks are -/

/-- The tasks not queued yet, in the queues, and taken. -/
def tasksOf (s : State n T) : Multiset T :=
  ↑s.todo+∑ i, (↑(s.taskQueues i).contents : Multiset T)+∑ i, (↑(s.got i) : Multiset T)

/-- A slave that has seen the flag knows that nobody but itself adds to its queue. -/
structure Inv (tasks : List T) (s : State n T) : Prop where
  slaves : s.enqueueThreadId < n
  all : tasksOf s = ↑tasks
  done : s.masterDone = true → s.todo = []
  testing : ∀ i, s.pcs i = .exitTail → s.masterDone = true
  loaded : ∀ i t, s.pcs i = .exitHead t → s.masterDone = true ∧ (s.taskQueues i).tail = t
  exited : ∀ i, s.pcs i = .exited → s.masterDone = true ∧ (s.taskQueues i).contents = []
  narrow : ∀ i, (s.taskQueues i).slots ≤ 2^31

variable {s s' : State n T} {tasks : List T} {tid : Fin n}

theorem sum_update_add {M : Type*} [AddCommMonoid M] {f f' : Fin n → M} {i : Fin n} {x y : M}
    (hrest : ∀ k, k ≠ i → f' k = f k) (h : f' i+x = f i+y) : ∑ k, f' k+x = ∑ k, f k+y := by
  have hsum : ∑ k ∈ Finset.univ.erase i, f' k = ∑ k ∈ Finset.univ.erase i, f k :=
    Finset.sum_congr rfl fun k hk => hrest k (Finset.ne_of_mem_erase hk)
  rw [← Finset.add_sum_erase _ f' (Finset.mem_univ i),← Finset.add_sum_erase _ f (Finset.mem_univ i),hsum,add_right_comm,h,
    add_right_comm]

theorem sum_update_two {M : Type*} [AddCommMonoid M] {f f' : Fin n → M} {i j : Fin n} (hij : j ≠ i)
    (hrest : ∀ k, k ≠ i → k ≠ j → f' k = f k) (h : f' i+f' j = f i+f j) : ∑ k, f' k = ∑ k, f k := by
  have hmem : j ∈ Finset.univ.erase i := Finset.mem_erase.mpr ⟨hij,Finset.mem_univ j⟩
  have hsum : ∑ k ∈ (Finset.univ.erase i).erase j, f' k = ∑ k ∈ (Finset.univ.erase i).erase j, f k := by
    refine Finset.sum_congr rfl fun k hk => hrest k ?_ (Finset.ne_of_mem_erase hk)
    exact Finset.ne_of_mem_erase (Finset.mem_of_mem_erase hk)
  rw [← Finset.add_sum_erase _ f' (Finset.mem_univ i),← Finset.add_sum_erase _ f (Finset.mem_univ i),
    ← Finset.add_sum_erase _ f' hmem,← Finset.add_sum_erase _ f hmem,← add_assoc,← add_assoc,h,hsum]

/-- Between its exit test and for ever after a slave relies on its queue. -/
def Relies : Pc → Prop
  | .exitHead _ => True
  | .exited => True
  | _ => False

theorem Inv.setPc (h : Inv tasks s) {pc : Pc} (htest : pc = .exitTail → s.masterDone = true)
    (hload : ∀ t, pc = .exitHead t → s.masterDone = true ∧ (s.taskQueues tid).tail = t)
    (hexit : pc = .exited → s.masterDone = true ∧ (s.taskQueues tid).contents = []) : Inv tasks (s.setPc tid pc) := by
  refine ⟨h.slaves,h.all,h.done,?_,?_,?_,h.narrow⟩
  · intro i hi
    by_cases hit : i = tid
    · subst hit
      exact htest (by simpa [State.setPc] using hi)
    · exact h.testing i (by simpa [State.setPc,hit] using hi)
  · intro i t hi
    by_cases hit : i = tid
    · subst hit
      exact hload t (by simpa [State.setPc] using hi)
    · exact h.loaded i t (by simpa [State.setPc,hit] using hi)
  · intro i hi
    by_cases hit : i = tid
    · subst hit
      exact hexit (by simpa [State.setPc] using hi)
    · exact h.exited i (by simpa [State.setPc,hit] using hi)

theorem Inv.goto (h : Inv tasks s) {pc : Pc} (htest : pc ≠ .exitTail) (hpc : ¬Relies pc) : Inv tasks (s.setPc tid pc) := by
  refine h.setPc (fun he => absurd he htest) (fun t ht => ?_) fun he => ?_
  · subst ht
    exact absurd trivial hpc
  · subst he
    exact absurd trivial hpc

/-- Tasks move around, and no queue that a slave relies on gets one. -/
theorem Inv.move (h : Inv tasks s) (hall : tasksOf s' = tasksOf s) (hid : s'.enqueueThreadId < n)
    (hdone : s'.masterDone = s.masterDone) (htodo : s.masterDone = true → s'.todo = []) (hpcs : s'.pcs = s.pcs)
    (hslots : ∀ i, (s'.taskQueues i).slots = (s.taskQueues i).slots)
    (hqueues : ∀ i, Relies (s.pcs i) → s.masterDone = true → (s'.taskQueues i).tail = (s.taskQueues i).tail ∧
      ((s.taskQueues i).contents = [] → (s'.taskQueues i).contents = [])) : Inv tasks s' := by
  refine ⟨hid,hall.trans h.all,fun hd => htodo (hdone ▸ hd),?_,?_,?_,fun i => (hslots i).trans_le (h.narrow i)⟩
  · intro i hi
    rw [hpcs] at hi
    rw [hdone]
    exact h.testing i hi
  · intro i t hi
    rw [hpcs] at hi
    obtain ⟨hd,htail⟩ := h.loaded i t hi
    exact ⟨hdone.trans hd,(hqueues i (by rw [hi]; trivial) hd).1.trans htail⟩
  · intro i hi
    rw [hpcs] at hi
    obtain ⟨hd,hempty⟩ := h.exited i hi
    exact ⟨hdone.trans hd,(hqueues i (by rw [hi]; trivial) hd).2 hempty⟩

theorem update_slots {queues : Fin n → CircularBuffer T} {i : Fin n} {c : CircularBuffer T}
    (h : c.slots = (queues i).slots) (k : Fin n) : (update queues i c k).slots = (queues k).slots := by
  rcases eq_or_ne k i with rfl | hk
  · rw [update_self,h]
  · rw [update_of_ne hk]

theorem master_inv (h : Inv tasks s) (hs : master s = some s') : Inv tasks s' := by
  rw [master] at hs
  split at hs
  · rename_i hnil
    obtain ⟨-,hs⟩ := Option.ite_none_left_eq_some.mp hs
    cases hs
    exact ⟨h.slaves,h.all,fun _ => hnil,fun _ _ => rfl,fun i t hi => ⟨rfl,(h.loaded i t hi).2⟩,
      fun i hi => ⟨rfl,(h.exited i hi).2⟩,h.narrow⟩
  · rename_i x rest htodo
    have hrunning : s.masterDone ≠ true := fun hd => by
      rw [h.done hd] at htodo
      cases htodo
    rw [dif_pos h.slaves] at hs
    cases hs
    set i : Fin n := ⟨s.enqueueThreadId,h.slaves⟩
    have hid : (if s.enqueueThreadId+1 = n then 0 else s.enqueueThreadId+1) < n := by
      have := h.slaves
      split <;> omega
    refine h.move ?_ hid rfl (fun hd => absurd hd hrunning) rfl (update_slots (pushBack_slots _ x))
      fun _ _ hd => absurd hd hrunning
    by_cases hroom : (s.taskQueues i).size < (s.taskQueues i).capacity
    · obtain ⟨hok,hcontents⟩ := pushBack_of_lt hroom x
      have hsum : ∑ k, (↑(update s.taskQueues i ((s.taskQueues i).pushBack x).2 k).contents : Multiset T)+0 =
          ∑ k, (↑(s.taskQueues k).contents : Multiset T)+{x} := by
        refine sum_update_add (i := i) (fun k hk => by rw [update_of_ne hk]) ?_
        rw [update_self,hcontents,← Multiset.coe_add,add_zero]
        rfl
      rw [add_zero] at hsum
      simp only [tasksOf,hok,if_true,hsum,htodo]
      rw [← Multiset.cons_coe,← Multiset.singleton_add]
      abel
    · rw [pushBack_full hroom]
      simp only [tasksOf,update_eq_self,Bool.false_eq_true,if_false,htodo]

/-- A steal keeps the tasks and the victim's tail, and leaves an empty queue empty. -/
theorem stealFrom_inv {victim : Fin n} (h : Inv tasks s) (hne : victim ≠ tid) (hpc : ¬Relies (s.pcs tid)) :
    Inv tasks (stealFrom s tid victim).2 := by
  obtain ⟨k,hk,hthief,hvictim,hslots,hslots',htail⟩ := workSteal_spec (s.taskQueues tid) (s.taskQueues victim)
  have hkept := fun i => (update_slots (hslots'.trans (by rw [update_of_ne hne])) i).trans (update_slots hslots i)
  refine h.move ?_ h.slaves rfl h.done rfl hkept ?_
  · have hsum : ∑ i, (↑((stealFrom s tid victim).2.taskQueues i).contents : Multiset T) =
        ∑ i, (↑(s.taskQueues i).contents : Multiset T) := by
      refine sum_update_two hne (fun i hi hi' => ?_) ?_
      · simp only [stealFrom]
        rw [update_of_ne hi',update_of_ne hi]
      · simp only [stealFrom]
        rw [update_self,update_of_ne hne.symm,update_self,hthief,hvictim,Multiset.coe_add,
          Multiset.coe_add,List.append_assoc,List.take_append_drop]
    simp only [tasksOf,hsum]
    rfl
  · intro i hi _
    have hit : i ≠ tid := fun he => hpc (he ▸ hi)
    by_cases hiv : i = victim
    · subst hiv
      simp only [stealFrom,update_self]
      refine ⟨htail,fun hempty => ?_⟩
      rw [hvictim,hempty,List.drop_nil]
    · simp only [stealFrom]
      rw [update_of_ne hiv,update_of_ne hit]
      exact ⟨rfl,id⟩

theorem dequeue_inv {x : T} {queue : CircularBuffer T} (h : Inv tasks s) (hpc : ¬Relies (s.pcs tid))
    (hpop : (s.taskQueues tid).popFront id = some (x,queue)) :
    Inv tasks {s with
      taskQueues := update s.taskQueues tid queue
      got := update s.got tid (s.got tid++[x])} := by
  obtain ⟨hcontents,-,hslots⟩ := popFront_some hpop
  refine h.move ?_ h.slaves rfl h.done rfl (update_slots hslots) ?_
  · have hqueue : ∑ i, (↑(update s.taskQueues tid queue i).contents : Multiset T)+{x} =
        ∑ i, (↑(s.taskQueues i).contents : Multiset T)+0 := by
      refine sum_update_add (i := tid) (fun i hi => by rw [update_of_ne hi]) ?_
      rw [update_self,hcontents,← Multiset.cons_coe,← Multiset.singleton_add,add_zero,add_comm]
    have hgot : ∑ i, (↑(update s.got tid (s.got tid++[x]) i) : Multiset T)+0 =
        ∑ i, (↑(s.got i) : Multiset T)+{x} := by
      refine sum_update_add (i := tid) (fun i hi => by rw [update_of_ne hi]) ?_
      rw [update_self,← Multiset.coe_add,add_zero]
      rfl
    rw [add_zero] at hqueue hgot
    simp only [tasksOf,hgot,← hqueue]
    abel
  · intro i hi _
    have hit : i ≠ tid := fun he => hpc (he ▸ hi)
    simp only [update_of_ne hit]
    exact ⟨trivial,id⟩

theorem slave_inv {locked : Bool} (h : Inv tasks s) (hs : slave s tid locked = some s') : Inv tasks s' := by
  rw [slave] at hs
  split at hs
  · cases hs
    exact h.goto nofun id
  · cases hs
    split <;> exact h.goto nofun id
  · rename_i i hpc
    split at hs
    · split at hs
      · rename_i hne
        cases hs
        have hsteal := stealFrom_inv h hne.1 (by rw [hpc]; exact id)
        split <;> exact hsteal.goto nofun id
      · cases hs
        exact h.goto nofun id
    · cases hs
      exact h.goto nofun id
  · cases hs
    split
    · rename_i hdone
      exact h.setPc (fun _ => hdone) (fun _ h => nomatch h) fun h => nomatch h
    · exact h.goto nofun id
  · rename_i hpc
    cases hs
    -- the flag is up, so nobody else moves the tail any more
    refine h.setPc (fun h => nomatch h) (fun t ht => ?_) fun h => nomatch h
    cases ht
    exact ⟨h.testing tid hpc,rfl⟩
  · rename_i t hpc
    cases hs
    obtain ⟨hdone,htail⟩ := h.loaded tid t hpc
    split
    · rename_i hzero
      refine h.setPc (fun h => nomatch h) (fun _ h => nomatch h) fun _ => ⟨hdone,?_⟩
      rw [← htail] at hzero
      rw [contents_eq_nil_iff,← sizeOf_eq_zero_iff]
      exact hzero
    · exact h.goto nofun id
  · rename_i hpc
    split at hs
    · cases hs
      exact h.goto nofun id
    · rename_i x queue hpop
      cases hs
      have hdequeue := dequeue_inv h (by rw [hpc]; exact id) hpop
      exact hdequeue.goto nofun id
  · cases hs

theorem Ready.inv (h : Ready tasks s) : Inv tasks s := by
  refine ⟨h.slaves,?_,fun hd => absurd hd (by simp [h.running]),?_,?_,?_,h.narrow⟩
  · simp [tasksOf,h.empty,h.todo,h.idle]
  · intro i hi
    simp [h.start i] at hi
  · intro i t hi
    simp [h.start i] at hi
  · intro i hi
    simp [h.start i] at hi

theorem inv_run {s₀ : State n T} (h₀ : Ready tasks s₀) {tr : List (Act n × Unit)}
    (h : Trace step (fun _ _ => True) s₀ tr s) : Inv tasks s := by
  refine h.invariant h₀.inv ?_
  intro s a b s' _ hi hstep
  cases a with
  | master =>
    obtain ⟨s1,hs,⟨⟩⟩ := Option.map_eq_some_iff.mp hstep
    exact master_inv hi hs
  | slave tid locked =>
    obtain ⟨s1,hs,⟨⟩⟩ := Option.map_eq_some_iff.mp hstep
    exact slave_inv hi hs

/-- When all slaves have left, the queues are empty and the tasks the slaves took are the master's
tasks, each as often as it was enqueued. No queue has got more slots than 32-bit positions allow. -/
theorem tasks_taken_exactly_once {s₀ : State n T} (h₀ : Ready tasks s₀) {tr : List (Act n × Unit)}
    (h : Trace step (fun _ _ => True) s₀ tr s) (hexit : ∀ tid, s.pcs tid = .exited) :
    s.todo = [] ∧ (∀ tid, (s.taskQueues tid).contents = []) ∧ ((List.finRange n).flatMap s.got).Perm tasks ∧
      ∀ tid, (s.taskQueues tid).slots ≤ 2^31 := by
  have hinv := inv_run h₀ h
  have hempty : ∀ tid, (s.taskQueues tid).contents = [] := fun tid => (hinv.exited tid (hexit tid)).2
  have htodo : s.todo = [] := hinv.done (hinv.exited ⟨s.enqueueThreadId,hinv.slaves⟩ (hexit _)).1
  refine ⟨htodo,hempty,Multiset.coe_eq_coe.mp ?_,hinv.narrow⟩
  have hall := hinv.all
  simp only [tasksOf,htodo,hempty,Multiset.coe_nil,Finset.sum_const_zero,zero_add] at hall
  rw [← hall,← Multiset.coe_bind]
  rfl

def stealingRun : List (Act 2) :=
  List.replicate 6 .master++List.replicate 34 (.slave 1 true)++List.replicate 14 (.slave 0 true)

theorem tasks_taken_exactly_once_stealing :
    ∃ (s₀ s : State 2 ℕ) (tr : List (Act 2 × Unit)), new 2 4 0 [1,2,3,4,5] = some s₀ ∧ Trace step (fun _ _ => True) s₀ tr s ∧
      s.got 0 = [5] ∧ s.got 1 = [2,4,1,3] ∧ ((List.finRange 2).flatMap s.got).Perm [1,2,3,4,5] := by
  let s₀ : State 2 ℕ := ⟨fun _ => .new 0 4,[1,2,3,4,5],0,false,fun _ => .loadTail,fun _ => []⟩
  have hnew : new 2 4 0 [1,2,3,4,5] = some s₀ := rfl
  have hrun : (exec step (fun _ _ => True) s₀ stealingRun).map
      (fun r => (r.2.pcs 0,r.2.pcs 1,r.2.got 0,r.2.got 1)) = some (.exited,.exited,[5],[2,4,1,3]) := by decide +kernel
  obtain ⟨outs,s,htrace,hobs⟩ := exec_observe hrun
  simp only [Prod.mk.injEq] at hobs
  obtain ⟨hpc₀,hpc₁,hgot₀,hgot₁⟩ := hobs
  have hexit : ∀ tid, s.pcs tid = .exited := by
    intro tid
    match tid with
    | 0 => exact hpc₀
    | 1 => exact hpc₁
  have hready := new_ready (by decide) hnew
  exact ⟨s₀,s,_,hnew,htrace,hgot₀,hgot₁,(tasks_taken_exactly_once hready htrace hexit).2.2.1⟩

end

end FarMemory.Parallelizer
