import FarMemory.Execution

/-!
# The object locker

An object is locked by an entry of its id in one of the locker's maps. A thread that finds the
entry there sleeps on the condition variable of the map and tries again when it is woken, which
an unlock does with all sleepers of the map, whatever id they wait for. Both run under the spin
lock of the map, so that each is one step. Which thread locked what is history. An unlock is by
the thread that holds the lock: no caller in the code unlocks for another.
-/
namespace FarMemory.ObjLocker
open Execution Function

def kNumMaps : ℕ := 1024

def hashFunc (x : ℕ) : ℕ := x&&&(kNumMaps-1)

/-- Where a thread is: outside, in the loop of `lock_object`, or asleep in `try_insert`. -/
inductive Phase
  | running
  | trying (objId : ℕ)
  | waiting (objId : ℕ)
  deriving DecidableEq

/-- What `SignalAll` does to a thread. -/
def Phase.signal (idx : ℕ) : Phase → Phase
  | .waiting objId => if hashFunc objId = idx then .trying objId else .waiting objId
  | phase => phase

structure State where
  maps : ℕ → Finset ℕ
  phase : ℕ → Phase
  held : Finset (ℕ × ℕ)

def init : State := ⟨fun _ => ∅,fun _ => .running,∅⟩

inductive Op
  | lockObject (t objId : ℕ)
  | tryInsert (t : ℕ)
  | unlockObject (t objId : ℕ)

def step (s : State) : Op → Option (Unit × State)
  | .lockObject t objId =>
    if s.phase t = .running then some ((),{s with phase := update s.phase t (.trying objId)}) else none
  | .tryInsert t =>
    match s.phase t with
    | .trying objId =>
      let idx := hashFunc objId
      if objId ∈ s.maps idx then some ((),{s with phase := update s.phase t (.waiting objId)})
      else some ((),{
        maps := update s.maps idx (insert objId (s.maps idx))
        phase := update s.phase t .running
        held := insert (t,objId) s.held})
    | _ => none
  | .unlockObject t objId =>
    if s.phase t = .running ∧ (t,objId) ∈ s.held then
      let idx := hashFunc objId
      some ((),{
        maps := update s.maps idx ((s.maps idx).erase objId)
        phase := fun t' => (s.phase t').signal idx
        held := s.held.erase (t,objId)})
    else none

/-- A thread that asks for a lock has none. -/
def EmptyHanded (s : State) : Op → Prop
  | .lockObject t _ => ∀ p ∈ s.held, p.1 ≠ t
  | _ => True

instance (s : State) (op : Op) : Decidable (EmptyHanded s op) :=
  match op with
  | .lockObject t _ => inferInstanceAs (Decidable (∀ p ∈ s.held, p.1 ≠ t))
  | .tryInsert _ | .unlockObject _ _ => inferInstanceAs (Decidable True)

structure Inv (s : State) : Prop where
  exclusive : ∀ t t' objId, (t,objId) ∈ s.held → (t',objId) ∈ s.held → t = t'
  entry : ∀ objId, objId ∈ s.maps (hashFunc objId) ↔ ∃ t, (t,objId) ∈ s.held
  awaited : ∀ t objId, s.phase t = .waiting objId → ∃ t', (t',objId) ∈ s.held

theorem signal_waiting {idx objId : ℕ} {phase : Phase} (h : phase.signal idx = .waiting objId) :
    phase = .waiting objId ∧ hashFunc objId ≠ idx := by
  cases phase <;> grind [Phase.signal]

section Runs
variable {s s' : State} {op : Op} {b : Unit}

theorem Inv.step (h : Inv s) (hs : step s op = some (b,s')) : Inv s' := by
  obtain ⟨hexclusive,hentry,hawaited⟩ := h
  cases op with
  | lockObject t objId =>
    obtain ⟨-,hs⟩ := Option.ite_none_right_eq_some.mp hs
    cases hs
    exact ⟨hexclusive,hentry,by grind⟩
  | tryInsert t =>
    rw [ObjLocker.step] at hs
    split at hs
    · rename_i objId _
      dsimp only at hs
      split at hs
      · cases hs
        exact ⟨hexclusive,hentry,by grind⟩
      · rename_i hout
        cases hs
        have hnone : ∀ t', (t',objId) ∉ s.held := fun t' ht' => hout ((hentry objId).mpr ⟨t',ht'⟩)
        exact ⟨by grind,by grind,by grind⟩
    · cases hs
  | unlockObject t objId =>
    obtain ⟨⟨-,hheld⟩,hs⟩ := Option.ite_none_right_eq_some.mp hs
    cases hs
    refine ⟨by grind,by grind,fun t' id hwait => ?_⟩
    -- A thread that still sleeps is one of another map, and so waits for another id.
    obtain ⟨hbefore,hother⟩ := signal_waiting hwait
    obtain ⟨u,hu⟩ := hawaited t' id hbefore
    exact ⟨u,Finset.mem_erase.mpr ⟨fun he => hother (by cases he; rfl),hu⟩⟩

/-- Threads that ask empty-handed hold nothing while they are inside. -/
theorem step_outside (hok : EmptyHanded s op) (h : ∀ t objId, (t,objId) ∈ s.held → s.phase t = .running)
    (hs : step s op = some (b,s')) : ∀ t objId, (t,objId) ∈ s'.held → s'.phase t = .running := by
  cases op with
  | lockObject t objId =>
    obtain ⟨-,hs⟩ := Option.ite_none_right_eq_some.mp hs
    cases hs
    intro t' id hheld
    exact (update_of_ne (hok _ hheld) _ _).trans (h t' id hheld)
  | tryInsert t =>
    rw [ObjLocker.step] at hs
    split at hs
    · dsimp only at hs
      split at hs <;> cases hs <;> grind
    · cases hs
  | unlockObject t objId =>
    obtain ⟨-,hs⟩ := Option.ite_none_right_eq_some.mp hs
    cases hs
    intro t' id hheld
    change (s.phase t').signal _ = _
    rw [h t' id (Finset.mem_of_mem_erase hheld),Phase.signal]
    exact fun _ h => by cases h

end Runs

/-- In every interleaving an id is locked by at most one thread and the entry an unlock looks for
is there. No wakeup is lost: the id a thread sleeps for is locked by a thread whose unlock wakes
it, and if threads ask for a lock only when they have none, that thread is awake itself. -/
theorem object_locks {ok : State → Op → Prop} {tr : List (Op × Unit)} {s : State} (h : Trace step ok init tr s) :
    (∀ t t' objId, (t,objId) ∈ s.held → (t',objId) ∈ s.held → t = t') ∧
      (∀ t objId, (t,objId) ∈ s.held → objId ∈ s.maps (hashFunc objId)) ∧
      ∀ t objId, s.phase t = .waiting objId → ∃ t', (t',objId) ∈ s.held ∧
        (∀ b s', step s (.unlockObject t' objId) = some (b,s') → s'.phase t = .trying objId) ∧
        ((∀ s op, ok s op → EmptyHanded s op) → s.phase t' = .running) := by
  have hinv : Inv s := by
    refine h.invariant ⟨?_,?_,?_⟩ fun _ _ _ _ _ hi hs => hi.step hs <;> simp [init]
  refine ⟨hinv.exclusive,fun t objId ht => (hinv.entry objId).mpr ⟨t,ht⟩,fun t objId hwait => ?_⟩
  obtain ⟨t',ht'⟩ := hinv.awaited t objId hwait
  refine ⟨t',ht',fun b s' hs => ?_,fun hok => ?_⟩
  · obtain ⟨-,hs⟩ := Option.ite_none_right_eq_some.mp hs
    cases hs
    change (s.phase t).signal _ = _
    rw [hwait,Phase.signal,if_pos rfl]
  · refine h.invariant (I := fun s => ∀ t objId, (t,objId) ∈ s.held → s.phase t = .running) ?_ ?_ t' objId ht'
    · exact fun _ _ hheld => absurd hheld (Finset.notMem_empty _)
    · exact fun s op b s' ho hs => step_outside (hok s op ho) hs

/-- Two ids of one map: the second thread sleeps for the id of the first, the third has its own. -/
theorem object_locks_three : ∃ tr s, Trace step EmptyHanded init tr s ∧ s.phase 1 = .waiting 5 ∧
    ∃ t', (t',5) ∈ s.held ∧ s.phase t' = .running := by
  have hrun : (exec step EmptyHanded init [.lockObject 0 5,.lockObject 1 5,.lockObject 2 1029,.tryInsert 0,
      .tryInsert 1,.tryInsert 2]).map (fun r => r.2.phase 1) = some (.waiting 5) := by decide
  obtain ⟨outs,s,ht,hphase⟩ := exec_observe hrun
  obtain ⟨t',hheld,-,hawake⟩ := (object_locks ht).2.2 1 5 hphase
  exact ⟨_,s,ht,hphase,t',hheld,hawake fun _ _ h => h⟩

end FarMemory.ObjLocker
