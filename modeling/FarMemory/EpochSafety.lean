import FarMemory.Execution

/-!
# The epochs of the concurrent collector

A mutator enters its scope in three steps: it loads `expected_status`, stores it as
its own status and increments the counter of that status. Inside the scope it may
obtain raw addresses into regions whose objects are not marked for evacuation. A
collector round marks regions, flips `expected_status`, waits until the counter of
the old status is zero, and then writes the regions back and recycles them. All
steps of all mutators and of the collector interleave freely; the per-CPU counters
are kept as their sum, which the collector reads at once.

A mutator that is delayed between its load and its increment enters under a status
that the collector has already retired. The next round then waits for the other
status and recycles regions under the mutator's feet. `Registered` is the condition
that excludes this, and `safe_iff_registered` shows that it is exact: whenever a
flip violates it, the run can be continued to an unsafe state.
-/
namespace FarMemory.EpochSafety
open Execution Function

inductive Status
  | outofScope
  | inScopeV0
  | inScopeV1
  | gc
  deriving DecidableEq, Repr

def flipStatus (status : Status) : Status := if status = .inScopeV0 then .inScopeV1 else .inScopeV0

/-- How far a mutator is in `DerefScope::enter`. -/
inductive Pc
  | outside
  | loaded (snapshot : Status)
  | stored (snapshot : Status)
  | inside
  deriving DecidableEq, Repr

/-- `holds` are the regions of the raw addresses obtained in the current scope. -/
structure Mutator where
  pc : Pc
  status : Status
  holds : List ℕ
  deriving DecidableEq, Repr

inductive Phase
  | idle
  | marked (regions : List ℕ)
  | waiting (old : Status) (regions : List ℕ)
  | drained (regions : List ℕ)
  | writtenBack (regions : List ℕ)
  deriving DecidableEq, Repr

structure State (ι : Type*) where
  expectedStatus : Status
  numThreadsOnStatus : Status → ℤ
  mutators : ι → Mutator
  evacuation : ℕ → Bool
  phase : Phase

inductive Act (ι : Type*)
  | load (i : ι)
  | store (i : ι)
  | increment (i : ι)
  | deref (i : ι) (region : ℕ)
  | exit (i : ι)
  | mark (regions : List ℕ)
  | flip
  | wait
  | writeBack
  | recycle

section Model
variable {ι : Type*} [DecidableEq ι]

def State.init : State ι where
  expectedStatus := .inScopeV0
  numThreadsOnStatus _ := 0
  mutators _ := ⟨.outside,.outofScope,[]⟩
  evacuation _ := false
  phase := .idle

def State.setMutator (s : State ι) (i : ι) (m : Mutator) : State ι :=
  {s with mutators := update s.mutators i m}

def State.addCount (s : State ι) (status : Status) (delta : ℤ) : State ι :=
  {s with numThreadsOnStatus :=
    update s.numThreadsOnStatus status (s.numThreadsOnStatus status+delta)}

def State.setEvacuation (s : State ι) (regions : List ℕ) (b : Bool) : State ι :=
  {s with evacuation := fun r => if r ∈ regions then b else s.evacuation r}

/-- A dereference of a marked object does not yield an address into its region; the
object is migrated first, and the address is one into another region. -/
def step (s : State ι) : Act ι → Option (Unit × State ι)
  | .load i =>
    match (s.mutators i).pc with
    | .outside => some ((),s.setMutator i {s.mutators i with pc := .loaded s.expectedStatus})
    | _ => none
  | .store i =>
    match (s.mutators i).pc with
    | .loaded snapshot =>
      some ((),s.setMutator i {s.mutators i with pc := .stored snapshot, status := snapshot})
    | _ => none
  | .increment i =>
    match (s.mutators i).pc with
    | .stored snapshot =>
      some ((),(s.addCount snapshot 1).setMutator i {s.mutators i with pc := .inside})
    | _ => none
  | .deref i region =>
    if (s.mutators i).pc = .inside ∧ s.evacuation region = false then
      some ((),s.setMutator i {s.mutators i with holds := region::(s.mutators i).holds})
    else none
  | .exit i =>
    if (s.mutators i).pc = .inside then
      some ((),(s.addCount (s.mutators i).status (-1)).setMutator i ⟨.outside,.outofScope,[]⟩)
    else none
  | .mark regions =>
    match s.phase with
    | .idle => some ((),{s.setEvacuation regions true with phase := .marked regions})
    | _ => none
  | .flip =>
    match s.phase with
    | .marked regions =>
      some ((),{s with
        expectedStatus := flipStatus s.expectedStatus
        phase := .waiting s.expectedStatus regions})
    | _ => none
  | .wait =>
    match s.phase with
    | .waiting old regions =>
      if s.numThreadsOnStatus old = 0 then some ((),{s with phase := .drained regions}) else none
    | _ => none
  | .writeBack =>
    match s.phase with
    | .drained regions => some ((),{s with phase := .writtenBack regions})
    | _ => none
  | .recycle =>
    match s.phase with
    | .writtenBack regions => some ((),{s.setEvacuation regions false with phase := .idle})
    | _ => none

/-- A mutator inside its scope holds a raw address into one of the regions. -/
def State.Holder (s : State ι) (regions : List ℕ) (i : ι) : Prop :=
  (s.mutators i).pc = .inside ∧ ∃ r ∈ regions, r ∈ (s.mutators i).holds

/-- Regions are being written back or recycled under a holder. -/
def State.Unsafe (s : State ι) : Prop :=
  ∃ regions, (s.phase = .drained regions ∨ s.phase = .writtenBack regions) ∧ ∃ i, s.Holder regions i

/-- At a flip every holder of the marked regions is counted under the status that
is being retired. -/
def Registered (s : State ι) : Act ι → Prop
  | .flip => ∀ regions, s.phase = .marked regions → ∀ i, s.Holder regions i →
      (s.mutators i).status = s.expectedStatus
  | _ => True

end Model

/-! ### What a step can do -/

section Steps
variable {ι : Type*} [DecidableEq ι] {s s' : State ι}

/-- The steps of the mutators: each replaces one of them and may count it. -/
inductive Moves (s : State ι) : Act ι → State ι → Prop
  | load {i : ι} (hpc : (s.mutators i).pc = .outside) :
      Moves s (.load i) (s.setMutator i {s.mutators i with pc := .loaded s.expectedStatus})
  | store {i : ι} {snapshot : Status} (hpc : (s.mutators i).pc = .loaded snapshot) :
      Moves s (.store i) (s.setMutator i {s.mutators i with pc := .stored snapshot, status := snapshot})
  | increment {i : ι} {snapshot : Status} (hpc : (s.mutators i).pc = .stored snapshot) :
      Moves s (.increment i) ((s.addCount snapshot 1).setMutator i {s.mutators i with pc := .inside})
  | deref {i : ι} {region : ℕ} (hpc : (s.mutators i).pc = .inside) (hclear : s.evacuation region = false) :
      Moves s (.deref i region)
        (s.setMutator i {s.mutators i with holds := region::(s.mutators i).holds})
  | exit {i : ι} (hpc : (s.mutators i).pc = .inside) :
      Moves s (.exit i)
        ((s.addCount (s.mutators i).status (-1)).setMutator i ⟨.outside,.outofScope,[]⟩)

/-- The steps of the collector: they leave the mutators and the counters alone. -/
inductive Collects (s : State ι) : Act ι → State ι → Prop
  | mark {regions : List ℕ} (hphase : s.phase = .idle) :
      Collects s (.mark regions) {s.setEvacuation regions true with phase := .marked regions}
  | flip {regions : List ℕ} (hphase : s.phase = .marked regions) :
      Collects s .flip {s with
        expectedStatus := flipStatus s.expectedStatus
        phase := .waiting s.expectedStatus regions}
  | wait {old : Status} {regions : List ℕ} (hphase : s.phase = .waiting old regions)
      (hzero : s.numThreadsOnStatus old = 0) : Collects s .wait {s with phase := .drained regions}
  | writeBack {regions : List ℕ} (hphase : s.phase = .drained regions) :
      Collects s .writeBack {s with phase := .writtenBack regions}
  | recycle {regions : List ℕ} (hphase : s.phase = .writtenBack regions) :
      Collects s .recycle {s.setEvacuation regions false with phase := .idle}

theorem step_cases {a : Act ι} {b : Unit} (h : step s a = some (b,s')) : Moves s a s' ∨ Collects s a s' := by
  cases a <;> simp only [step] at h <;> split at h <;> try split at h
  all_goals cases h
  all_goals rename_i hc
  · exact .inl (.load hc)
  · exact .inl (.store hc)
  · exact .inl (.increment hc)
  · exact .inl (.deref hc.1 hc.2)
  · exact .inl (.exit hc)
  · exact .inr (.mark hc)
  · exact .inr (.flip hc)
  · rename_i hphase
    exact .inr (.wait hphase hc)
  · exact .inr (.writeBack hc)
  · exact .inr (.recycle hc)

theorem setMutator_other {i j : ι} (m : Mutator) (h : j ≠ i) :
    (s.setMutator i m).mutators j = s.mutators j := update_of_ne h ..

theorem setMutator_self {i : ι} (m : Mutator) : (s.setMutator i m).mutators i = m :=
  update_self ..

end Steps

/-! ### The invariant -/

def Phase.regions : Phase → List ℕ
  | .idle => []
  | .marked regions => regions
  | .waiting _ regions => regions
  | .drained regions => regions
  | .writtenBack regions => regions

section Counting
variable {ι : Type*} [Fintype ι] {s : State ι}

/-- The mutators that are counted under a status. -/
def State.counted (s : State ι) (status : Status) : Finset ι :=
  Finset.univ.filter fun i => (s.mutators i).pc = .inside ∧ (s.mutators i).status = status

theorem mem_counted {i : ι} {status : Status} : i ∈ s.counted status ↔
    (s.mutators i).pc = .inside ∧ (s.mutators i).status = status := by
  rw [State.counted,Finset.mem_filter]
  simp

variable [DecidableEq ι]

theorem counted_setMutator (i : ι) (m : Mutator) (status : Status) :
    (s.setMutator i m).counted status = if m.pc = .inside ∧ m.status = status
      then insert i (s.counted status) else (s.counted status).erase i := by
  ext j
  by_cases hj : j = i
  · subst hj
    rw [mem_counted,setMutator_self]
    split <;> simp_all
  · rw [mem_counted,setMutator_other m hj]
    split <;> simp [hj,mem_counted]

theorem counted_addCount (i : ι) (m : Mutator) (status : Status) (delta : ℤ) (status' : Status) :
    ((s.addCount status delta).setMutator i m).counted status' = (s.setMutator i m).counted status' := rfl

end Counting

section Invariant
variable {ι : Type*} [DecidableEq ι] [Fintype ι] {s s' : State ι} {a : Act ι}

structure Inv (s : State ι) : Prop where
  count : ∀ status, s.numThreadsOnStatus status = (s.counted status).card
  snapshot : ∀ i snapshot, (s.mutators i).pc = .stored snapshot → (s.mutators i).status = snapshot
  empty : ∀ i, (s.mutators i).pc ≠ .inside → (s.mutators i).holds = []
  evacuation : ∀ r ∈ s.phase.regions, s.evacuation r = true

/-- After the flip only mutators of the retired status may still hold, and after the
wait nobody does. -/
def Clear (s : State ι) : Prop :=
  match s.phase with
  | .idle => True
  | .marked _ => True
  | .waiting old regions => ∀ i, s.Holder regions i → (s.mutators i).status = old
  | .drained regions => ∀ i, ¬s.Holder regions i
  | .writtenBack regions => ∀ i, ¬s.Holder regions i

omit [DecidableEq ι] in
theorem Inv.init : Inv (State.init : State ι) := by
  refine ⟨?_,?_,fun _ _ => rfl,?_⟩
  · intro status
    have hempty : (State.init : State ι).counted status = ∅ := by
      refine Finset.eq_empty_of_forall_notMem fun i hi => ?_
      exact absurd (mem_counted.mp hi).1 (by simp [State.init])
    rw [hempty]
    rfl
  · intro i snapshot h
    simp [State.init] at h
  · intro r hr
    cases hr

theorem count_moves (h : Inv s) (hm : Moves s a s') (status : Status) :
    s'.numThreadsOnStatus status = (s'.counted status).card := by
  cases hm with
  | @load i hpc =>
    rw [counted_setMutator,if_neg (by simp),Finset.erase_eq_of_notMem]
    · exact h.count status
    · simp [mem_counted,hpc]
  | @store i snapshot hpc =>
    rw [counted_setMutator,if_neg (by simp),Finset.erase_eq_of_notMem]
    · exact h.count status
    · simp [mem_counted,hpc]
  | @increment i snapshot hpc =>
    have hstatus := h.snapshot i snapshot hpc
    have hout : i ∉ s.counted status := by simp [mem_counted,hpc]
    rw [counted_addCount,counted_setMutator]
    by_cases he : snapshot = status
    · subst he
      rw [if_pos ⟨rfl,hstatus⟩,Finset.card_insert_of_notMem hout]
      simp [State.setMutator,State.addCount,h.count]
    · rw [if_neg fun hx => he (hstatus.symm.trans hx.2),Finset.erase_eq_of_notMem hout]
      simp [State.setMutator,State.addCount,Ne.symm he,h.count]
  | @deref i region hpc hclear =>
    rw [counted_setMutator]
    split
    · rename_i he
      rw [Finset.insert_eq_of_mem (mem_counted.mpr he)]
      exact h.count status
    · rename_i he
      rw [Finset.erase_eq_of_notMem fun hi => he (mem_counted.mp hi)]
      exact h.count status
  | @exit i hpc =>
    rw [counted_addCount,counted_setMutator,if_neg (by simp)]
    by_cases he : (s.mutators i).status = status
    · have hmem : i ∈ s.counted status := mem_counted.mpr ⟨hpc,he⟩
      have hcard := Finset.card_erase_add_one hmem
      have hcount := h.count status
      simp only [State.setMutator,State.addCount,he,update_self]
      omega
    · rw [Finset.erase_eq_of_notMem fun hi => he (mem_counted.mp hi).2]
      simp [State.setMutator,State.addCount,Ne.symm he,h.count]

/-- A mutator's step leaves the phase and the marks alone, and replaces one mutator
by one that is consistent in itself. -/
theorem Moves.frame (h : Inv s) (hm : Moves s a s') :
    s'.phase = s.phase ∧ s'.evacuation = s.evacuation ∧ ∃ i m, s'.mutators = update s.mutators i m ∧
      (∀ snapshot, m.pc = .stored snapshot → m.status = snapshot) ∧ (m.pc ≠ .inside → m.holds = []) ∧
      ∀ r ∈ m.holds, s.evacuation r = true → m.status = (s.mutators i).status ∧
        (s.mutators i).pc = .inside ∧ r ∈ (s.mutators i).holds := by
  cases hm with
  | @load i hpc =>
    have hempty := h.empty i (by simp [hpc])
    exact ⟨rfl,rfl,i,_,rfl,by simp,fun _ => hempty,by simp [hempty]⟩
  | @store i snapshot hpc =>
    have hempty := h.empty i (by simp [hpc])
    exact ⟨rfl,rfl,i,_,rfl,by simp,fun _ => hempty,by simp [hempty]⟩
  | @increment i snapshot hpc =>
    have hempty := h.empty i (by simp [hpc])
    exact ⟨rfl,rfl,i,_,rfl,by simp,fun _ => hempty,by simp [hempty]⟩
  | @deref i region hpc hclear =>
    refine ⟨rfl,rfl,i,_,rfl,by simp [hpc],by simp [hpc],?_⟩
    intro r hr hev
    rcases List.mem_cons.mp hr with rfl | hr
    · rw [hclear] at hev
      cases hev
    · exact ⟨rfl,hpc,hr⟩
  | @exit i hpc => exact ⟨rfl,rfl,i,_,rfl,by simp,by simp,by simp⟩

theorem Inv.moves (h : Inv s) (hm : Moves s a s') : Inv s' := by
  obtain ⟨hphase,hev,i,m,hmut,hsnap,hempty,-⟩ := hm.frame h
  refine ⟨count_moves h hm,?_,?_,?_⟩
  · intro j snapshot hj
    by_cases he : j = i
    · subst he
      rw [hmut,update_self] at hj ⊢
      exact hsnap snapshot hj
    · rw [hmut,update_of_ne he] at hj ⊢
      exact h.snapshot j snapshot hj
  · intro j hj
    by_cases he : j = i
    · subst he
      rw [hmut,update_self] at hj ⊢
      exact hempty hj
    · rw [hmut,update_of_ne he] at hj ⊢
      exact h.empty j hj
  · rw [hphase,hev]
    exact h.evacuation

omit [DecidableEq ι] in
theorem Inv.collects (h : Inv s) (hc : Collects s a s') : Inv s' := by
  cases hc with
  | mark hphase => exact ⟨h.count,h.snapshot,h.empty,fun r hr => if_pos hr⟩
  | recycle hphase => exact ⟨h.count,h.snapshot,h.empty,fun r hr => by cases hr⟩
  | flip hphase => exact ⟨h.count,h.snapshot,h.empty,by have := h.evacuation; rwa [hphase] at this⟩
  | wait hphase hzero => exact ⟨h.count,h.snapshot,h.empty,by have := h.evacuation; rwa [hphase] at this⟩
  | writeBack hphase => exact ⟨h.count,h.snapshot,h.empty,by have := h.evacuation; rwa [hphase] at this⟩

theorem Inv.step (h : Inv s) {b : Unit} (hs : step s a = some (b,s')) : Inv s' := by
  rcases step_cases hs with hm | hc
  · exact h.moves hm
  · exact h.collects hc

theorem Moves.holder (h : Inv s) (hm : Moves s a s') {regions : List ℕ}
    (hev : ∀ r ∈ regions, s.evacuation r = true) {j : ι} (hj : s'.Holder regions j) :
    s.Holder regions j ∧ (s'.mutators j).status = (s.mutators j).status := by
  obtain ⟨-,-,i,m,hmut,-,-,hholds⟩ := hm.frame h
  obtain ⟨hpc,r,hr,hin⟩ := hj
  by_cases he : j = i
  · subst he
    rw [hmut,update_self] at hin ⊢
    obtain ⟨hstatus,hpc',hold⟩ := hholds r hin (hev r hr)
    exact ⟨⟨hpc',r,hr,hold⟩,hstatus⟩
  · rw [hmut,update_of_ne he] at hpc hin ⊢
    exact ⟨⟨hpc,r,hr,hin⟩,rfl⟩

theorem Clear.step (h : Inv s) (hclear : Clear s) {b : Unit} (hreg : Registered s a)
    (hs : step s a = some (b,s')) : Clear s' := by
  rcases step_cases hs with hm | hc
  · obtain ⟨hphase,-⟩ := hm.frame h
    have hev := h.evacuation
    unfold Clear at hclear ⊢
    rw [hphase]
    cases hp : s.phase with
    | idle => trivial
    | marked regions => trivial
    | waiting old regions =>
      rw [hp] at hclear hev
      intro i hi
      obtain ⟨hold,hstatus⟩ := hm.holder h hev hi
      exact hstatus.trans (hclear i hold)
    | drained regions =>
      rw [hp] at hclear hev
      exact fun i hi => hclear i (hm.holder h hev hi).1
    | writtenBack regions =>
      rw [hp] at hclear hev
      exact fun i hi => hclear i (hm.holder h hev hi).1
  · cases hc with
    | mark hphase => trivial
    | recycle hphase => trivial
    | flip hphase => exact hreg _ hphase
    | @wait old regions hphase hzero =>
      -- nobody is counted under the old status any more
      intro i hi
      simp only [Clear,hphase] at hclear
      have hmem : i ∈ s.counted old := mem_counted.mpr ⟨hi.1,hclear i hi⟩
      have hcount := h.count old
      have hpos := Finset.card_pos.mpr ⟨i,hmem⟩
      omega
    | writeBack hphase =>
      simp only [Clear,hphase] at hclear
      exact hclear

omit [DecidableEq ι] [Fintype ι] in
theorem Clear.safe (h : Clear s) : ¬s.Unsafe := by
  rintro ⟨regions,hphase | hphase,i,hi⟩
  · simp only [Clear,hphase] at h
    exact h i hi
  · simp only [Clear,hphase] at h
    exact h i hi

/-! ### The condition is exact -/

/-- A holder that is not counted under the retired status does not keep the
collector from draining that status. -/
theorem drain {old : Status} {regions : List ℕ} {i : ι} {n : ℕ} : ∀ {s : State ι} {tr : List (Act ι × Unit)},
    Trace step (fun _ _ => True) State.init tr s → Inv s → s.phase = .waiting old regions →
    s.Holder regions i → (s.mutators i).status ≠ old → (s.counted old).card = n →
    ∃ l s', Trace step (fun _ _ => True) State.init (tr++l) s' ∧ s'.Unsafe := by
  induction n with
  | zero =>
    intro s tr ht h hphase hi hne hn
    have hzero : s.numThreadsOnStatus old = 0 := by rw [h.count,hn]; rfl
    have hwait : step s .wait = some ((),{s with phase := .drained regions}) := by
      simp only [step,hphase,if_pos hzero]
    exact ⟨[(.wait,())],_,ht.snoc trivial hwait,regions,.inl rfl,i,hi⟩
  | succ n ih =>
    -- one of the counted mutators leaves its scope
    intro s tr ht h hphase hi hne hn
    obtain ⟨j,hj⟩ := Finset.card_pos.mp (show 0 < (s.counted old).card by omega)
    obtain ⟨hpc,hstatus⟩ := mem_counted.mp hj
    have hij : i ≠ j := fun he => hne (he ▸ hstatus)
    have hexit : step s (.exit j) = some ((),
        (s.addCount (s.mutators j).status (-1)).setMutator j ⟨.outside,.outofScope,[]⟩) := by
      simp only [step,if_pos hpc]
    have hmut : ((s.addCount (s.mutators j).status (-1)).setMutator j
        ⟨.outside,.outofScope,[]⟩).mutators i = s.mutators i := setMutator_other _ hij
    have hcard : (((s.addCount (s.mutators j).status (-1)).setMutator j
        ⟨.outside,.outofScope,[]⟩).counted old).card = n := by
      rw [counted_addCount,counted_setMutator,if_neg (by simp),Finset.card_erase_of_mem hj,hn]
      rfl
    obtain ⟨l,s',ht',hbad⟩ := ih (ht.snoc trivial hexit) (h.step hexit) hphase
      (by unfold State.Holder; rw [hmut]; exact hi) (by rw [hmut]; exact hne) hcard
    exact ⟨(.exit j,())::l,s',by simpa using ht',hbad⟩

/-- As long as every flip finds the holders of the marked regions registered, no
region is written back or recycled under a holder. A flip that does not can be
continued so that one is. -/
theorem safe_iff_registered {tr : List (Act ι × Unit)} {s : State ι}
    (h : Trace step Registered State.init tr s) :
    ¬s.Unsafe ∧ (¬Registered s .flip →
      ∃ l s', Trace step (fun _ _ => True) State.init (tr++l) s' ∧ s'.Unsafe) := by
  have hinv : Inv s ∧ Clear s := by
    refine h.invariant (I := fun s => Inv s ∧ Clear s) ⟨Inv.init,trivial⟩ ?_
    rintro s a b s' hreg ⟨hi,hc⟩ hs
    exact ⟨hi.step hs,hc.step hi hreg hs⟩
  refine ⟨hinv.2.safe,fun hreg => ?_⟩
  simp only [Registered,not_forall] at hreg
  obtain ⟨regions,hphase,i,hi,hne⟩ := hreg
  have hflip : step s .flip = some ((),{s with
      expectedStatus := flipStatus s.expectedStatus
      phase := .waiting s.expectedStatus regions}) := by
    simp only [step,hphase]
  obtain ⟨l,s',ht,hbad⟩ := drain ((h.mono fun _ _ _ => trivial).snoc trivial hflip)
    (hinv.1.step hflip) rfl hi hne rfl
  exact ⟨(.flip,())::l,s',by simpa using ht,hbad⟩

end Invariant

/-- A mutator enters, dereferences and leaves while a round is waiting for it. -/
def enterAndLeave : List (Act (Fin 1)) :=
  [.load 0,.store 0,.increment 0,.deref 0 5,.mark [5],.flip,.exit 0,.wait,.writeBack]

instance (s : State (Fin 1)) (regions : List ℕ) (i : Fin 1) : Decidable (s.Holder regions i) :=
  inferInstanceAs (Decidable (_ ∧ _))

instance (s : State (Fin 1)) (a : Act (Fin 1)) : Decidable (Registered s a) :=
  match a with
  | .flip =>
    match hphase : s.phase with
    | .marked regions =>
      decidable_of_iff (∀ i, s.Holder regions i → (s.mutators i).status = s.expectedStatus)
        (by simp [Registered,hphase])
    | .idle | .waiting .. | .drained _ | .writtenBack _ => isTrue (by simp [Registered,hphase])
  | .load _ | .store _ | .increment _ | .deref .. | .exit _ | .mark _ | .wait | .writeBack | .recycle =>
    isTrue trivial

theorem safe_iff_registered_leave : ∃ s : State (Fin 1), ∃ tr,
    Trace step Registered State.init tr s ∧ s.phase = .writtenBack [5] ∧ ¬s.Unsafe := by
  have hrun : (exec step Registered State.init enterAndLeave).map (fun r => r.2.phase) =
      some (.writtenBack [5]) := by
    decide
  obtain ⟨_,s,ht,hphase⟩ := exec_observe hrun
  exact ⟨s,_,ht,hphase,(safe_iff_registered ht).1⟩

/-- The mutator loads the status, a whole round passes, and only then it enters; the
second round does not wait for it. -/
def delayedEntry : List (Act (Fin 1)) :=
  [.load 0,.mark [7],.flip,.wait,.writeBack,.recycle,.store 0,.increment 0,.deref 0 5,.mark [5],.flip,.wait]

theorem delayed_entry_unsafe : ∃ s : State (Fin 1), ∃ tr,
    Trace step (fun _ _ => True) State.init tr s ∧ tr.map Prod.fst = delayedEntry ∧ s.Unsafe := by
  have hrun : (exec step (fun _ _ => True) State.init delayedEntry).map
      (fun r => (r.1,r.2.phase,(r.2.mutators 0).pc,(r.2.mutators 0).holds)) =
      some (List.replicate 12 (),.drained [5],.inside,[5]) := by
    decide
  obtain ⟨outs,s,ht,hobs⟩ := exec_observe hrun
  simp only [Prod.mk.injEq] at hobs
  obtain ⟨rfl,hphase,hpc,hholds⟩ := hobs
  exact ⟨s,_,ht,rfl,[5],.inl hphase,0,hpc,5,by simp,by simp [hholds]⟩

end FarMemory.EpochSafety
