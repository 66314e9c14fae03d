import FarMemory.Execution
import FarMemory.Machine

/-!
# The reader-writer lock

Readers count themselves on the core they run on and test `writer_barrier_` afterwards;
they may leave on another core, so the count of one core can be negative. A writer takes
the mutex, raises the barrier and waits in `writer_sync` until the counts, read one core
after the other, sum up to zero and a second pass finds every version unchanged.

Every access to shared memory is a step of its own. A per-core counter holds count and
version in one word that only its core writes, with preemption off, so an update is one
step. Counts and versions are not bounded.
-/
namespace FarMemory.ReaderWriterLock
open Execution Function

structure Cnt where
  c : ℤ
  ver : ℕ
  deriving DecidableEq, Repr

/-- Where a reader is: in front of `sync_barrier_`, about to count itself, about to test
`writer_barrier_`, about to take its count back, in front of `writer_barrier_`, or in its critical
section. -/
inductive ReaderPc
  | outside
  | entering
  | counted
  | retreating
  | waiting
  | inside
  deriving DecidableEq, Repr

/-- Where a writer is: without the mutex, about to raise `writer_barrier_`, about to raise
`sync_barrier_`, in the first or second pass of `writer_sync`, in its critical section, or about to
give the mutex back. -/
inductive WriterPc
  | outside
  | locked
  | barred
  | reading (i : ℕ) (sum : ℤ) (snapshotVers : Fin kNumCPUs → ℕ)
  | checking (i : ℕ) (snapshotVers : Fin kNumCPUs → ℕ)
  | inside
  | unlocking

structure State (R W : Type*) where
  cnts : Fin kNumCPUs → Cnt
  syncBarrier : Bool
  writerBarrier : Bool
  mutex : Option W
  readers : R → ReaderPc
  writers : W → WriterPc

inductive Act (R W : Type*)
  | reader (r : R) (core : Fin kNumCPUs)
  | writer (w : W)

section
variable {R W : Type*} [DecidableEq R] [DecidableEq W]

def new : State R W where
  cnts _ := ⟨0,0⟩
  syncBarrier := false
  writerBarrier := false
  mutex := none
  readers _ := .outside
  writers _ := .outside

/-- The update of a core's counter that both `__reader_lock` and `reader_unlock` make. -/
def bump (s : State R W) (core : Fin kNumCPUs) (d : ℤ) : State R W :=
  {s with cnts := update s.cnts core ⟨(s.cnts core).c+d,(s.cnts core).ver+1⟩}

def goto (s : State R W) (r : R) (pc : ReaderPc) : State R W := {s with readers := update s.readers r pc}

def moveTo (s : State R W) (w : W) (pc : WriterPc) : State R W := {s with writers := update s.writers w pc}

/-- `lock_reader` and `unlock_reader`, on the core that the reader runs on at this step. -/
def reader (s : State R W) (r : R) (core : Fin kNumCPUs) : State R W :=
  match s.readers r with
  | .outside => if s.syncBarrier then s else goto s r .entering
  | .entering => goto (bump s core 1) r .counted
  | .counted => goto s r (if s.writerBarrier then .retreating else .inside)
  | .retreating => goto (bump s core (-1)) r .waiting
  | .waiting => if s.writerBarrier then s else goto s r .outside
  | .inside => goto (bump s core (-1)) r .outside

/-- `lock_writer` and `unlock_writer`, `none` while another writer has the mutex. -/
def writer (s : State R W) (w : W) : Option (State R W) :=
  match s.writers w with
  | .outside =>
    match s.mutex with
    | none => some (moveTo {s with mutex := some w} w .locked)
    | some _ => none
  | .locked => some (moveTo {s with writerBarrier := true} w .barred)
  | .barred => some (moveTo {s with syncBarrier := true} w (.reading 0 0 fun _ => 0))
  | .reading i sum vers =>
    some (moveTo s w
      (if h : i < kNumCPUs then
        .reading (i+1) (sum+(s.cnts ⟨i,h⟩).c) (update vers ⟨i,h⟩ (s.cnts ⟨i,h⟩).ver)
      else if sum ≠ 0 then .reading 0 0 vers
      else .checking 0 vers))
  | .checking i vers =>
    if h : i < kNumCPUs then
      some (moveTo s w (if (s.cnts ⟨i,h⟩).ver ≠ vers ⟨i,h⟩ then .reading 0 0 vers else .checking (i+1) vers))
    else some (moveTo {s with syncBarrier := false} w .inside)
  | .inside => some (moveTo {s with writerBarrier := false} w .unlocking)
  | .unlocking => some (moveTo {s with mutex := none} w .outside)

def step (s : State R W) : Act R W → Option (Unit × State R W)
  | .reader r core => some ((),reader s r core)
  | .writer w => (writer s w).map fun s' => ((),s')

end

/-! ### The invariant -/

section
variable {R W : Type*}

/-- A reader's share in the sum of the counts. -/
def ReaderPc.share : ReaderPc → ℤ
  | .counted => 1
  | .retreating => 1
  | .inside => 1
  | _ => 0

/-- The stretch in which `writer_barrier_` is up. -/
def WriterPc.Barring : WriterPc → Prop
  | .barred => True
  | .reading _ _ _ => True
  | .checking _ _ => True
  | .inside => True
  | _ => False

def Occupied (s : State R W) : Prop := ∃ r, s.readers r = .inside

/-- What a writer knows. In the first pass a counter that has its old version has its old count; in
the second pass, as long as a reader is inside, some version that is still to be checked has
changed. -/
def WriterPc.Knows (s : State R W) : WriterPc → Prop
  | .reading i sum vers => ∃ snap : Fin kNumCPUs → ℤ, sum = ∑ j with j.val < i, snap j ∧
      ∀ j, j.val < i → vers j ≤ (s.cnts j).ver ∧ (vers j = (s.cnts j).ver → snap j = (s.cnts j).c)
  | .checking i vers => (∀ j, vers j ≤ (s.cnts j).ver) ∧
      (Occupied s → ∃ j : Fin kNumCPUs, i ≤ j.val ∧ vers j < (s.cnts j).ver)
  | .inside => ¬Occupied s
  | _ => True

structure Inv [Fintype R] (s : State R W) : Prop where
  total : ∑ j, (s.cnts j).c = ∑ r, (s.readers r).share
  owner : ∀ w, s.writers w ≠ .outside → s.mutex = some w
  barrier : ∀ w, (s.writers w).Barring → s.writerBarrier = true
  knows : ∀ w, (s.writers w).Knows s

variable {s s' : State R W}

/-- What other threads may do while a writer's barrier is up: no counter changes without its
version, and nobody enters. -/
structure Later (s s' : State R W) : Prop where
  cnts : ∀ j, s'.cnts j = s.cnts j ∨ (s.cnts j).ver < (s'.cnts j).ver
  occupied : Occupied s' → Occupied s

theorem Later.ver_le (h : Later s s') (j : Fin kNumCPUs) : (s.cnts j).ver ≤ (s'.cnts j).ver := by
  rcases h.cnts j with heq | hlt
  · rw [heq]
  · exact hlt.le

theorem Later.knows (h : Later s s') {pc : WriterPc} (hpc : pc.Knows s) : pc.Knows s' := by
  cases pc with
  | reading i sum vers =>
    obtain ⟨snap,hsum,hsnap⟩ := hpc
    refine ⟨snap,hsum,fun j hj => ?_⟩
    obtain ⟨hle,heq⟩ := hsnap j hj
    refine ⟨hle.trans (h.ver_le j),fun hver => ?_⟩
    rcases h.cnts j with hsame | hlt
    · rw [hsame] at hver ⊢
      exact heq hver
    · omega
  | checking i vers =>
    refine ⟨fun j => (hpc.1 j).trans (h.ver_le j),fun hocc => ?_⟩
    obtain ⟨j,hij,hj⟩ := hpc.2 (h.occupied hocc)
    exact ⟨j,hij,hj.trans_le (h.ver_le j)⟩
  | inside => exact fun hocc => hpc (h.occupied hocc)
  | _ => trivial

theorem WriterPc.knows_of_not_barring {pc : WriterPc} (h : ¬pc.Barring) : pc.Knows s := by
  cases pc <;> first | trivial | exact absurd trivial h

/-- The end of the first pass with sum zero: a reader inside has its count somewhere, so some counter
is no longer the one that was read. -/
theorem WriterPc.Knows.check [Fintype R] {i : ℕ} {vers : Fin kNumCPUs → ℕ}
    (htotal : ∑ j, (s.cnts j).c = ∑ r, (s.readers r).share) (hi : kNumCPUs ≤ i)
    (h : (WriterPc.reading i 0 vers).Knows s) : (WriterPc.checking 0 vers).Knows s := by
  obtain ⟨snap,hsum,hsnap⟩ := h
  have hlt : ∀ j : Fin kNumCPUs, j.val < i := fun j => j.isLt.trans_le hi
  refine ⟨fun j => (hsnap j (hlt j)).1,fun ⟨r,hr⟩ => ?_⟩
  by_contra hnone
  push Not at hnone
  have hsame : ∀ j, snap j = (s.cnts j).c := fun j =>
    (hsnap j (hlt j)).2 (le_antisymm (hsnap j (hlt j)).1 (hnone j (Nat.zero_le _)))
  have hpos : 0 < ∑ r, (s.readers r).share := by
    refine Finset.sum_pos' (fun r _ => ?_) ⟨r,Finset.mem_univ r,by simp [hr,ReaderPc.share]⟩
    cases s.readers r <;> simp [ReaderPc.share]
  rw [Finset.filter_true_of_mem fun j _ => hlt j] at hsum
  simp only [hsame] at hsum
  omega

theorem WriterPc.Knows.read {i : ℕ} {sum : ℤ} {vers : Fin kNumCPUs → ℕ} (hi : i < kNumCPUs)
    (h : (WriterPc.reading i sum vers).Knows s) :
    (WriterPc.reading (i+1) (sum+(s.cnts ⟨i,hi⟩).c) (update vers ⟨i,hi⟩ (s.cnts ⟨i,hi⟩).ver)).Knows s := by
  obtain ⟨snap,hsum,hsnap⟩ := h
  have hother : ∀ j : Fin kNumCPUs, j.val < i → j ≠ ⟨i,hi⟩ := by
    rintro j hj rfl
    exact Nat.lt_irrefl _ hj
  refine ⟨update snap ⟨i,hi⟩ (s.cnts ⟨i,hi⟩).c,?_,fun j hj => ?_⟩
  · have hsplit : (Finset.univ.filter fun j : Fin kNumCPUs => j.val < i+1) =
        insert ⟨i,hi⟩ (Finset.univ.filter fun j : Fin kNumCPUs => j.val < i) := by
      ext j
      simp only [Finset.mem_filter,Finset.mem_univ,true_and,Finset.mem_insert,Fin.ext_iff]
      omega
    have hsame : ∑ j with j.val < i, update snap ⟨i,hi⟩ (s.cnts ⟨i,hi⟩).c j = ∑ j with j.val < i, snap j :=
      Finset.sum_congr rfl fun j hj => update_of_ne (hother j (Finset.mem_filter.mp hj).2) _ _
    rw [hsplit,Finset.sum_insert (by simp),hsame,update_self,hsum]
    omega
  · by_cases hji : j = ⟨i,hi⟩
    · subst hji
      simp only [update_self]
      exact ⟨le_refl _,fun _ => trivial⟩
    · have hlt : j.val < i := by
        have hne : j.val ≠ i := fun heq => hji (Fin.ext heq)
        omega
      simp only [update_of_ne hji]
      exact hsnap j hlt

end

/-! ### Steps -/

section
variable {R W : Type*} {s : State R W} {r : R}

theorem total_bump (s : State R W) (core : Fin kNumCPUs) (d : ℤ) :
    ∑ j, ((bump s core d).cnts j).c = ∑ j, (s.cnts j).c+d := by
  have hne : ∀ j ∈ Finset.univ.erase core, ((bump s core d).cnts j).c = (s.cnts j).c := fun j hj =>
    congrArg _ (update_of_ne (Finset.mem_erase.mp hj).1 _ _)
  rw [← Finset.add_sum_erase _ _ (Finset.mem_univ core),Finset.sum_congr rfl hne,
    ← Finset.add_sum_erase Finset.univ (fun j => (s.cnts j).c) (Finset.mem_univ core)]
  simp only [bump,update_self]
  omega

variable [DecidableEq R]

theorem occupied_goto {pc : ReaderPc} (hpc : pc ≠ .inside) : Occupied (goto s r pc) → Occupied s := by
  rintro ⟨r',hr'⟩
  change update s.readers r pc r' = .inside at hr'
  by_cases heq : r' = r
  · subst heq
    rw [update_self] at hr'
    exact absurd hr' hpc
  · rw [update_of_ne heq] at hr'
    exact ⟨r',hr'⟩

variable [Fintype R]

theorem share_goto (s : State R W) (r : R) (pc : ReaderPc) :
    ∑ r', ((goto s r pc).readers r').share = ∑ r', (s.readers r').share+(pc.share-(s.readers r).share) := by
  have hne : ∀ r' ∈ Finset.univ.erase r, ((goto s r pc).readers r').share = (s.readers r').share := fun r' hr' =>
    congrArg _ (update_of_ne (Finset.mem_erase.mp hr').1 _ _)
  rw [← Finset.add_sum_erase _ _ (Finset.mem_univ r),Finset.sum_congr rfl hne,
    ← Finset.add_sum_erase Finset.univ (fun r' => (s.readers r').share) (Finset.mem_univ r)]
  simp only [goto,update_self]
  omega

/-- A reader moves without touching a counter; it enters only past a lowered barrier. -/
theorem goto_inv {pc : ReaderPc} (h : Inv s) (hshare : pc.share = (s.readers r).share)
    (henter : pc = .inside → s.writerBarrier = false) : Inv (goto s r pc) := by
  refine ⟨?_,h.owner,h.barrier,fun w => ?_⟩
  · rw [share_goto,hshare,sub_self,add_zero]
    exact h.total
  · by_cases hpc : pc = .inside
    · refine WriterPc.knows_of_not_barring fun hbar => ?_
      have := h.barrier w hbar
      rw [henter hpc] at this
      cases this
    · have hlater : Later s (goto s r pc) := ⟨fun j => .inl rfl,occupied_goto hpc⟩
      exact hlater.knows (h.knows w)

theorem bump_inv {pc : ReaderPc} {d : ℤ} (core : Fin kNumCPUs) (h : Inv s)
    (hshare : pc.share = (s.readers r).share+d) (hpc : pc ≠ .inside) : Inv (goto (bump s core d) r pc) := by
  have hlater : Later s (goto (bump s core d) r pc) := by
    refine ⟨fun j => ?_,occupied_goto (s := bump s core d) hpc⟩
    change update s.cnts core _ j = s.cnts j ∨ _ < (update s.cnts core _ j).ver
    by_cases hj : j = core
    · subst hj
      rw [update_self]
      exact .inr (Nat.lt_succ_self _)
    · exact .inl (update_of_ne hj _ _)
  refine ⟨?_,h.owner,h.barrier,fun w => hlater.knows (h.knows w)⟩
  · have htotal := total_bump s core d
    have hreaders := share_goto (bump s core d) r pc
    have := h.total
    change ∑ j, ((bump s core d).cnts j).c = _
    rw [htotal,hreaders]
    change _ = ∑ r', (s.readers r').share+(pc.share-(s.readers r).share)
    omega

theorem reader_inv (h : Inv s) (r : R) (core : Fin kNumCPUs) : Inv (reader s r core) := by
  unfold reader
  cases hpc : s.readers r with
  | outside =>
    dsimp only
    split
    · exact h
    · exact goto_inv h (by rw [hpc]; rfl) nofun
  | entering => exact bump_inv core h (by rw [hpc]; rfl) nofun
  | counted =>
    cases hbar : s.writerBarrier with
    | true => exact goto_inv h (by rw [hpc]; rfl) nofun
    | false => exact goto_inv h (by rw [hpc]; rfl) fun _ => hbar
  | retreating => exact bump_inv core h (by rw [hpc]; rfl) nofun
  | waiting =>
    dsimp only
    split
    · exact h
    · exact goto_inv h (by rw [hpc]; rfl) nofun
  | inside => exact bump_inv core h (by rw [hpc]; rfl) nofun

omit [DecidableEq R] in
theorem new_inv : Inv (new : State R W) :=
  ⟨by simp [new,ReaderPc.share],fun w hw => absurd rfl hw,fun w hw => hw.elim,fun w => trivial⟩

end

section
variable {R W : Type*} [Fintype R] [DecidableEq W] {s s' : State R W} {w : W}

theorem moveTo_inv {pc : WriterPc} (htotal : ∑ j, (s.cnts j).c = ∑ r, (s.readers r).share)
    (halone : ∀ w' ≠ w, s.writers w' = .outside) (howner : pc ≠ .outside → s.mutex = some w)
    (hbarrier : pc.Barring → s.writerBarrier = true) (hknows : pc.Knows s) : Inv (moveTo s w pc) := by
  have hother : ∀ w' ≠ w, (moveTo s w pc).writers w' = .outside := fun w' hw' =>
    (update_of_ne hw' _ _).trans (halone w' hw')
  have hself : (moveTo s w pc).writers w = pc := update_self _ _ _
  refine ⟨htotal,fun w' hw' => ?_,fun w' hw' => ?_,fun w' => ?_⟩ <;> by_cases heq : w' = w
  · subst heq
    exact howner (hself ▸ hw')
  · exact absurd (hother w' heq) hw'
  · subst heq
    exact hbarrier (hself ▸ hw')
  · rw [hother w' heq] at hw'
    cases hw'
  · subst heq
    rw [hself]
    have hlater : Later s (moveTo s w' pc) := ⟨fun j => .inl rfl,id⟩
    exact hlater.knows hknows
  · rw [hother w' heq]
    trivial

theorem writer_inv (h : Inv s) (hstep : writer s w = some s') : Inv s' := by
  have halone : s.writers w ≠ .outside → ∀ w' ≠ w, s.writers w' = .outside := by
    intro hw w' hne
    by_contra hw'
    exact hne (Option.some.inj ((h.owner w' hw').symm.trans (h.owner w hw)))
  have howner := h.owner w
  have hbarrier := h.barrier w
  have hknows := h.knows w
  unfold writer at hstep
  cases hpc : s.writers w with
  | outside =>
    simp only [hpc] at hstep
    split at hstep
    swap
    · cases hstep
    rename_i hfree
    cases hstep
    refine moveTo_inv h.total (fun w' _ => ?_) (fun _ => rfl) (fun hb => hb.elim) trivial
    by_contra hw'
    have := h.owner w' hw'
    rw [hfree] at this
    cases this
  | locked =>
    rw [hpc] at howner halone
    simp only [hpc] at hstep
    cases hstep
    exact moveTo_inv h.total (halone nofun) (fun _ => howner nofun) (fun _ => rfl) trivial
  | barred =>
    rw [hpc] at howner halone hbarrier
    simp only [hpc] at hstep
    cases hstep
    exact moveTo_inv h.total (halone nofun) (fun _ => howner nofun) (fun _ => hbarrier trivial)
      ⟨fun _ => 0,by simp,fun j hj => absurd hj (Nat.not_lt_zero _)⟩
  | reading i sum vers =>
    rw [hpc] at howner halone hbarrier hknows
    simp only [hpc] at hstep
    cases hstep
    refine moveTo_inv h.total (halone nofun) (fun _ => howner nofun) (fun _ => hbarrier trivial) ?_
    split
    · exact hknows.read _
    · rename_i hi
      split
      · exact ⟨fun _ => 0,by simp,fun j hj => absurd hj (Nat.not_lt_zero _)⟩
      · rename_i hsum
        rw [not_not.mp hsum] at hknows
        exact hknows.check h.total (not_lt.mp hi)
  | checking i vers =>
    rw [hpc] at howner halone hbarrier hknows
    simp only [hpc] at hstep
    split at hstep
    · rename_i hi
      cases hstep
      refine moveTo_inv h.total (halone nofun) (fun _ => howner nofun) (fun _ => hbarrier trivial) ?_
      split
      · exact ⟨fun _ => 0,by simp,fun j hj => absurd hj (Nat.not_lt_zero _)⟩
      · rename_i hsame
        refine ⟨hknows.1,fun hocc => ?_⟩
        -- the core just checked is not the one that changed
        obtain ⟨j,hij,hj⟩ := hknows.2 hocc
        refine ⟨j,Nat.lt_of_le_of_ne hij fun heq => ?_,hj⟩
        have hji : j = ⟨i,hi⟩ := Fin.ext heq.symm
        rw [hji,not_not.mp hsame] at hj
        exact Nat.lt_irrefl _ hj
    · rename_i hi
      cases hstep
      refine moveTo_inv h.total (halone nofun) (fun _ => howner nofun) (fun _ => hbarrier trivial) fun hocc => ?_
      obtain ⟨j,hij,-⟩ := hknows.2 hocc
      exact hi (hij.trans_lt j.isLt)
  | inside =>
    rw [hpc] at howner halone
    simp only [hpc] at hstep
    cases hstep
    exact moveTo_inv h.total (halone nofun) (fun _ => howner nofun) (fun hb => hb.elim) trivial
  | unlocking =>
    rw [hpc] at halone
    simp only [hpc] at hstep
    cases hstep
    exact moveTo_inv h.total (halone nofun) (fun hne => absurd rfl hne) (fun hb => hb.elim) trivial

end

/-- No reader is inside while a writer is. -/
theorem readers_excluded {R W : Type*} [Fintype R] [DecidableEq R] [DecidableEq W] {s : State R W} {r : R} {w : W}
    {tr : List (Act R W × Unit)} (h : Trace step (fun _ _ => True) new tr s)
    (hw : s.writers w = .inside) : s.readers r ≠ .inside := by
  have hinv := h.invariant new_inv fun s a b s' _ hs hstep => by
    cases a with
    | reader r core =>
      cases hstep
      exact reader_inv hs r core
    | writer w =>
      obtain ⟨s₁,hs₁,⟨⟩⟩ := Option.map_eq_some_iff.mp hstep
      exact writer_inv hs hs₁
  have hknows := hinv.knows w
  rw [hw] at hknows
  exact fun hr => hknows ⟨r,hr⟩

/-- A reader enters on one core and leaves on another, a second one turns back at the barrier; the
first writer sees a changed version, looks again and gets in. -/
theorem readers_excluded_migrating : ∃ (tr : List (Act (Fin 2) (Fin 2) × Unit)) (s : State (Fin 2) (Fin 2)),
    Trace step (fun _ _ => True) new tr s ∧ s.writers 0 = .inside ∧ (s.cnts ⟨3,by decide⟩).c = 1 ∧
      (s.cnts ⟨5,by decide⟩).c = -1 ∧ s.readers 1 ≠ .inside := by
  have hrun : (exec step (fun _ _ => True) (new : State (Fin 2) (Fin 2))
      ([.reader 0 ⟨3,by decide⟩,.reader 0 ⟨3,by decide⟩,.reader 0 ⟨3,by decide⟩,.reader 1 ⟨7,by decide⟩,
        .writer 0,.writer 0,.writer 0,.writer 0,.reader 1 ⟨0,by decide⟩,.reader 1 ⟨0,by decide⟩,
        .reader 1 ⟨0,by decide⟩,.reader 0 ⟨5,by decide⟩]++List.replicate 63 (.writer 0))).map
      (fun p => (match p.2.writers 0 with | .inside => true | _ => false,(p.2.cnts ⟨3,by decide⟩).c,
        (p.2.cnts ⟨5,by decide⟩).c)) = some (true,1,-1) := by decide +kernel
  obtain ⟨outs,s,htr,hobs⟩ := exec_observe hrun
  simp only [Prod.mk.injEq] at hobs
  obtain ⟨hw,h3,h5⟩ := hobs
  have hinside : s.writers 0 = .inside := by
    split at hw
    · assumption
    · cases hw
  exact ⟨_,s,htr,hinside,h3,h5,readers_excluded htr hinside⟩

end FarMemory.ReaderWriterLock
