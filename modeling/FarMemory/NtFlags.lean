import FarMemory.RegionMoves

/-!
# The non-temporal byte of a region

The byte in the buffer of a region should say how the region was acquired since its last
reset. The acquisitions and resets are logged beside the machine that moves the regions;
the log is written from the slots before and after a step, without looking at the bytes.
-/
namespace FarMemory.NtFlags
open Regions (kSize kNumSocket1CPUs)
open Function
open RegionMoves Execution

inductive Event
  | acquired (buf : ℕ) (nt : Bool)
  | reset (buf : ℕ)
  deriving DecidableEq, Repr

/-- Whether the region of this buffer was acquired as a non-temporal one since its last
reset; the newest event comes first. -/
def acquiredNt (buf : ℕ) : List Event → Bool
  | [] => false
  | .acquired b nt::log => (nt && b == buf) || acquiredNt buf log
  | .reset b::log => b != buf && acquiredNt buf log

/-- The slot has no region of its own when it looks for a free one. -/
def Vacant (s : State) (slot : Fin kNumCPUs × Bool) (full : Bool) : Bool :=
  full || (s.coreLocalFree slot).isInvalid

def events (s s' : State) : Op → Outcome → List Event
  | .refill slot full,.refilled true =>
    if Vacant s slot full then (s'.coreLocalFree slot).bufPtr.toList.map fun b => .acquired b slot.2 else []
  | .push,_ =>
    match s.collector with
    | .pushing i => ((s.fromRegions[i]?).bind Region.bufPtr).toList.map .reset
    | _ => []
  | _,_ => []

def loggedStep (p : State × List Event) (a : Op) : Option (Outcome × State × List Event) :=
  (step p.1 a).map fun r => (r.1,r.2,events p.1 r.2 a r.1++p.2)

/-- The constructor acquires two regions for each core. -/
def builtLog (cache : ℕ) : List Event :=
  (List.finRange kNumCPUs).flatMap fun core : Fin kNumCPUs =>
    [.acquired (cache+(2*core.val)*kSize) false,.acquired (cache+(2*core.val+1)*kSize) true]

/-- Every byte says how its region was acquired. -/
def Exact (p : State × List Event) : Prop := ∀ b, p.1.isNt b = acquiredNt b p.2

/-- A non-temporal refill that finds no free region must find the region that its slot
held last still, or again, acquired as a non-temporal one. -/
def Covered (p : State × List Event) : Op → Prop
  | .refill slot full => slot.2 = true → Vacant p.1 slot full = true → p.1.freeRegions.contents = [] →
      ∀ b ∈ (p.1.coreLocalFree slot).bufPtr, acquiredNt b p.2 = true
  | _ => True

section Step
variable {s s1 s' : State} {slot : Fin kNumCPUs × Bool} {full : Bool} {o : Outcome}

theorem pushFull_slot (h : pushFull s slot = some s1) : (s1.coreLocalFree slot).isInvalid = true ∧
    (s1.coreLocalFree slot).bufPtr = (s.coreLocalFree slot).bufPtr ∧ s1.isNt = s.isNt ∧ s1.freeRegions = s.freeRegions := by
  unfold pushFull at h
  dsimp only at h
  split at h
  · rename_i hinvalid
    cases h
    exact ⟨hinvalid,rfl,rfl,rfl⟩
  · split at h <;> split at h <;> cases h <;>
      exact ⟨by simp [Region.isInvalid,Region.invalidate],by simp [Region.invalidate],rfl,rfl⟩

/-- The byte that a search for a free region writes. -/
inductive Wrote (s s' : State) (slot : Fin kNumCPUs × Bool) (r : Region) : Prop
  | temporal (h : slot.2 = false) (same : s'.isNt = s.isNt)
  | nonTemporal (h : slot.2 = true) (b : ℕ) (hb : r.bufPtr = some b) (set : s'.isNt = update s.isNt b true)

theorem wrote_of_setNt {success b : Bool}
    (h : (if slot.2 then (setNt s slot).map fun s2 => (success,s2) else some (success,s)) = some (b,s')) :
    b = success ∧ Wrote s s' slot (s.coreLocalFree slot) ∧ s'.coreLocalFree = s.coreLocalFree := by
  cases hnt : slot.2 with
  | false =>
    rw [hnt] at h
    cases h
    exact ⟨rfl,.temporal hnt rfl,rfl⟩
  | true =>
    rw [hnt,if_pos rfl] at h
    obtain ⟨s2,hset,heq⟩ := Option.map_eq_some_iff.mp h
    obtain ⟨c,hc,rfl⟩ := Option.map_eq_some_iff.mp hset
    cases heq
    exact ⟨rfl,.nonTemporal hnt c hc rfl,rfl⟩

theorem popFree_cases {success : Bool} (hslot : (s.coreLocalFree slot).isInvalid = true)
    (h : popFree s slot = some (success,s')) :
    s.freeRegions.contents = [] ∧ success = false ∧ Wrote s s' slot (s.coreLocalFree slot) ∨
    s.freeRegions.contents ≠ [] ∧ success = true ∧ Wrote s s' slot (s'.coreLocalFree slot) := by
  unfold popFree at h
  rw [if_pos hslot] at h
  cases hpop : s.freeRegions.popFront Region.invalidate with
  | none =>
    simp only [takeFree,hpop] at h
    obtain ⟨rfl,hw,-⟩ := wrote_of_setNt h
    exact .inl ⟨CircularBuffer.popFront_none hpop,rfl,hw⟩
  | some x =>
    obtain ⟨r,q⟩ := x
    simp only [takeFree,hpop] at h
    obtain ⟨rfl,hw,hsame⟩ := wrote_of_setNt h
    refine .inr ⟨?_,rfl,?_⟩
    · rw [(CircularBuffer.popFront_some hpop).1]
      exact List.cons_ne_nil _ _
    · rw [hsame]
      cases hw with
      | temporal hnt same => exact .temporal hnt same
      | nonTemporal hnt b hb set => exact .nonTemporal hnt b hb set

theorem refill_cases (h : step s (.refill slot full) = some (o,s')) :
    o = .bugOn ∧ s' = s ∨
    Vacant s slot full = false ∧ o = .refilled true ∧ s' = s ∨
    Vacant s slot full = true ∧ s.freeRegions.contents = [] ∧ o = .refilled false ∧
      Wrote s s' slot (s.coreLocalFree slot) ∨
    Vacant s slot full = true ∧ s.freeRegions.contents ≠ [] ∧ o = .refilled true ∧
      Wrote s s' slot (s'.coreLocalFree slot) := by
  unfold step tryRefillCoreLocalFreeRegion at h
  cases full with
  | false =>
    simp only [Bool.false_eq_true,if_false] at h
    obtain ⟨⟨success,s2⟩,hpop,⟨⟩⟩ := Option.map_eq_some_iff.mp h
    rw [Vacant,Bool.false_or]
    by_cases hslot : (s.coreLocalFree slot).isInvalid = true
    · right; right
      rcases popFree_cases hslot hpop with ⟨hempty,rfl,hw⟩ | ⟨hfree,rfl,hw⟩
      · exact .inl ⟨hslot,hempty,rfl,hw⟩
      · exact .inr ⟨hslot,hfree,rfl,hw⟩
    · rw [popFree,if_neg hslot] at hpop
      cases hpop
      exact .inr (.inl ⟨by simpa using hslot,rfl,rfl⟩)
  | true =>
    simp only [if_true] at h
    cases hpush : pushFull s slot with
    | none =>
      rw [hpush] at h
      cases h
      exact .inl ⟨rfl,rfl⟩
    | some s1 =>
      rw [hpush] at h
      obtain ⟨⟨success,s2⟩,hpop,⟨⟩⟩ := Option.map_eq_some_iff.mp h
      obtain ⟨hslot,hbuf,hnt,hfree⟩ := pushFull_slot hpush
      have hcarry : ∀ {r r' : Region}, r.bufPtr = r'.bufPtr → Wrote s1 s2 slot r → Wrote s s2 slot r' := by
        intro r r' hr hw
        cases hw with
        | temporal h same => exact .temporal h (same.trans hnt)
        | nonTemporal h b hb set => exact .nonTemporal h b (hr ▸ hb) (hnt ▸ set)
      right; right
      rw [← hfree]
      rcases popFree_cases hslot hpop with ⟨hempty,rfl,hw⟩ | ⟨hsome,rfl,hw⟩
      · exact .inl ⟨rfl,hempty,rfl,hcarry hbuf hw⟩
      · exact .inr ⟨rfl,hsome,rfl,hcarry rfl hw⟩

theorem push_cases (h : step s .push = some (o,s')) : ∃ b, events s s' .push o = [.reset b] ∧
    s'.isNt = update s.isNt b false ∧ o ≠ .refilled false := by
  unfold step at h
  cases hc : s.collector with
  | idle => simp [hc] at h
  | picking => simp [hc] at h
  | pushing i =>
    simp only [hc] at h
    obtain ⟨⟨o₁,s1⟩,hpush,⟨⟩⟩ := Option.map_eq_some_iff.mp h
    unfold pushFreeRegion at hpush
    cases hr : s.fromRegions[i]? with
    | none => simp [hr] at hpush
    | some r =>
      cases hb : r.bufPtr with
      | none => simp [hr,hb] at hpush
      | some b =>
        refine ⟨b,by simp [events,hc,hr,hb],?_⟩
        simp only [hr,hb] at hpush
        split at hpush <;> cases hpush <;> exact ⟨rfl,nofun⟩

theorem popUsedRegion_isNt {ntGcable gcable : ℕ → Bool} {r : Option Region}
    (h : popUsedRegion s ntGcable gcable = some (r,s')) : s'.isNt = s.isNt := by
  unfold popUsedRegion at h
  split at h
  · cases h
  · cases h
    rfl
  · obtain ⟨x,-,⟨⟩⟩ := Option.map_eq_some_iff.mp h
    rfl

theorem pick_isNt {ntGcable gcable : ℕ → Bool} {more : Bool} (h : step s (.pick ntGcable gcable more) = some (o,s')) :
    s'.isNt = s.isNt := by
  unfold step at h
  dsimp only at h
  split at h
  · split at h
    · cases h
    · rename_i hpop
      have hsame := popUsedRegion_isNt hpop
      cases h
      exact hsame
    · rename_i hpop
      have hsame := popUsedRegion_isNt hpop
      cases h
      exact hsame
  · cases h

end Step

section Exactness
variable {p p' : State × List Event} {a : Op} {o : Outcome} {s : State} {log : List Event}

theorem Exact.set {f : ℕ → Bool} {b : ℕ} (hx : ∀ x, f x = acquiredNt x log)
    (hset : s.isNt = update f b true) : Exact (s,.acquired b true::log) := by
  intro x
  rw [hset,acquiredNt]
  rcases eq_or_ne x b with rfl | hne
  · simp
  · simp [hne,hne.symm,hx x]

theorem Exact.clear {f : ℕ → Bool} {b : ℕ} (hx : ∀ x, f x = acquiredNt x log)
    (hset : s.isNt = update f b false) : Exact (s,.reset b::log) := by
  intro x
  rw [hset,acquiredNt]
  rcases eq_or_ne x b with rfl | hne
  · simp
  · simp [hne,hne.symm,hx x]

theorem Exact.temporal {bs : List ℕ} (hx : ∀ x, s.isNt x = acquiredNt x log) :
    Exact (s,bs.map (fun b => .acquired b false)++log) := by
  intro x
  induction bs with
  | nil => exact hx x
  | cons b bs ih =>
    rw [ih]
    simp [acquiredNt]

/-- The only step that can leave a byte wrong is the refill that fails. -/
theorem exact_step_iff (hx : Exact p) (hbug : o ≠ .bugOn) (h : loggedStep p a = some (o,p')) :
    Exact p' ↔ Covered p a := by
  obtain ⟨s,log⟩ := p
  obtain ⟨⟨o₁,s'⟩,hstep,heq⟩ := Option.map_eq_some_iff.mp h
  cases heq
  have hx : ∀ b, s.isNt b = acquiredNt b log := hx
  cases a with
  | clear =>
    refine iff_of_true ?_ trivial
    unfold step at hstep
    dsimp only at hstep
    split at hstep
    · cases hstep
      exact hx
    · cases hstep
  | pick ntGcable gcable more =>
    refine iff_of_true ?_ trivial
    intro b
    rw [pick_isNt hstep]
    exact hx b
  | push =>
    refine iff_of_true ?_ trivial
    obtain ⟨b,hev,hset,-⟩ := push_cases hstep
    dsimp only
    rw [hev]
    exact Exact.clear hx hset
  | refill slot full =>
    rcases refill_cases hstep with ⟨rfl,-⟩ | ⟨hvacant,rfl,rfl⟩ | ⟨hvacant,hempty,rfl,hw⟩ | ⟨hvacant,hfree,rfl,hw⟩
    · exact absurd rfl hbug
    · refine iff_of_true ?_ fun _ h => absurd (hvacant.symm.trans h) (by decide)
      intro b
      simpa [events,hvacant] using hx b
    · -- nothing is logged, so the byte is right only if it was set before
      cases hw with
      | temporal hnt same =>
        refine iff_of_true (fun b => ?_) fun h => absurd (hnt.symm.trans h) (by decide)
        exact (congrFun same b).trans (hx b)
      | nonTemporal hnt b hb set =>
        constructor
        · intro hexact _ _ _ c hc
          cases hb.symm.trans hc
          have hset := hexact b
          rw [show s'.isNt b = true by rw [set,update_self]] at hset
          exact hset.symm
        · intro hcovered x
          have hold := hcovered hnt hvacant hempty b hb
          change s'.isNt x = acquiredNt x log
          rw [set]
          rcases eq_or_ne x b with rfl | hne
          · rw [update_self,hold]
          · rw [update_of_ne hne,hx]
    · refine iff_of_true ?_ fun _ _ h => absurd h hfree
      cases hw with
      | temporal hnt same =>
        have hev : events s s' (.refill slot full) (.refilled true) =
            (s'.coreLocalFree slot).bufPtr.toList.map fun b => .acquired b false := by
          simp [events,hvacant,hnt]
        dsimp only
        rw [hev]
        exact Exact.temporal fun x => (congrFun same x).trans (hx x)
      | nonTemporal hnt b hb set =>
        have hev : events s s' (.refill slot full) (.refilled true) = [.acquired b true] := by
          simp [events,hvacant,hnt,hb]
        dsimp only
        rw [hev]
        exact Exact.set hx set

theorem builtLog_exact (cache : ℕ) (x : ℕ) : acquiredNt x (builtLog cache) =
    (List.finRange kNumCPUs).any fun core => cache+(2*core.val+1)*kSize == x := by
  unfold builtLog
  induction List.finRange kNumCPUs with
  | nil => rfl
  | cons core cores ih => simp [acquiredNt,ih]

theorem built_isNt (cache : ℕ) (x : ℕ) :
    (List.finRange kNumCPUs).foldl (fun f core => update f (cache+(2*core.val+1)*kSize) true) (fun _ => false) x =
      acquiredNt x (builtLog cache) := by
  rw [builtLog_exact]
  generalize List.finRange kNumCPUs = cores
  suffices h : ∀ f : ℕ → Bool, cores.foldl (fun f core => update f (cache+(2*core.val+1)*kSize) true) f x =
      (f x || cores.any fun core => cache+(2*core.val+1)*kSize == x) by
    simpa using h fun _ => false
  induction cores with
  | nil => simp
  | cons core cores ih =>
    intro f
    rw [List.foldl_cons,ih,List.any_cons]
    rcases eq_or_ne x (cache+(2*core.val+1)*kSize) with rfl | hne
    · simp
    · have hother : (cache+(2*core.val+1)*kSize == x) = false := beq_false_of_ne hne.symm
      rw [update_of_ne hne,hother,Bool.false_or]

theorem regionManager_isNt {size cache : ℕ} {init : State} (h : regionManager size true cache = .ready init) :
    Exact (init,builtLog cache) := by
  unfold regionManager at h
  dsimp only at h
  split at h
  · cases h
  · split at h
    · cases h
    · cases h
      exact built_isNt cache

end Exactness

/-- Along every run from the constructor of the local cache in which every failing
non-temporal refill is covered, the byte of a region is set exactly if the region was
acquired as a non-temporal one since its last reset. In such a state the next step, whatever
it is, leaves all bytes right exactly if it is covered; a covered refill that fails
changes no byte. -/
theorem nt_bytes_exact {size cache : ℕ} {init : State} (hinit : regionManager size true cache = .ready init)
    {tr : List (Op × Outcome)} {p : State × List Event} (h : Trace loggedStep Covered (init,builtLog cache) tr p) :
    Exact p ∧ ∀ a o p', loggedStep p a = some (o,p') →
      (Exact p' ↔ Covered p a) ∧ (o = .refilled false → Covered p a → p'.1.isNt = p.1.isNt) := by
  have hinv₀ : Inv (regionCount size) (madeRegions size true cache) init := by
    rcases regionManager_spec size true cache with hexit | ⟨s,hready,hs⟩
    · rw [hexit] at hinit
      cases hinit
    · rw [hready] at hinit
      cases hinit
      exact hs
  have hbug : ∀ {q : State × List Event} {a o q'}, Inv (regionCount size) (madeRegions size true cache) q.1 →
      loggedStep q a = some (o,q') → o ≠ .bugOn ∧ Inv (regionCount size) (madeRegions size true cache) q'.1 := by
    intro q a o q' hq hstep
    obtain ⟨⟨o₁,s'⟩,hs,⟨⟩⟩ := Option.map_eq_some_iff.mp hstep
    exact step_inv hq hs
  obtain ⟨hexact,hinv⟩ : Exact p ∧ Inv (regionCount size) (madeRegions size true cache) p.1 := by
    refine h.invariant (I := fun p => Exact p ∧ Inv (regionCount size) (madeRegions size true cache) p.1)
      ⟨regionManager_isNt hinit,hinv₀⟩ ?_
    intro q a o q' hok hq hstep
    obtain ⟨hne,hinv'⟩ := hbug hq.2 hstep
    exact ⟨(exact_step_iff hq.1 hne hstep).mpr hok,hinv'⟩
  refine ⟨hexact,fun a o p' hstep => ?_⟩
  have hiff := exact_step_iff hexact (hbug hinv hstep).1 hstep
  refine ⟨hiff,?_⟩
  rintro rfl hcovered
  -- nothing is logged for a refill that fails, so the bytes before and after agree with one log
  have hlog : p'.2 = p.2 := by
    obtain ⟨⟨o₁,s'⟩,hs,⟨⟩⟩ := Option.map_eq_some_iff.mp hstep
    cases a with
    | push =>
      obtain ⟨b,-,-,hne⟩ := push_cases hs
      exact absurd rfl hne
    | _ => rfl
  funext b
  rw [hiff.mpr hcovered b,hlog,hexact b]

instance (p : State × List Event) : DecidablePred (Covered p)
  | .refill _ _ => inferInstanceAs (Decidable (_ → _ → _ → ∀ b ∈ _, _))
  | .clear => .isTrue trivial
  | .pick _ _ _ => .isTrue trivial
  | .push => .isTrue trivial

theorem core_lt (n : ℕ) : n%kNumCPUs < kNumCPUs := Nat.mod_lt n (by decide)

def core (n : ℕ) : Fin kNumCPUs := ⟨n%kNumCPUs,core_lt n⟩

/-- The smallest cache, with one free region: the non-temporal slot of core 0 takes it, then
finds none; both its regions are collected and acquired by cores 1 and 2 for temporal data. -/
def reacquire : List Op :=
  [.refill (core 0,true) true,.refill (core 0,true) true,.clear,
    .pick (fun _ => true) (fun _ => true) true,.pick (fun _ => true) (fun _ => true) false,.push,.push,
    .refill (core 1,false) true,.refill (core 2,false) true]

/-- What a run shows of the region with index 40, which core 2 ends up with. -/
def observe (p : State × List Event) : Bool × Bool × Option ℕ :=
  (p.1.isNt (2^30+40*kSize),acquiredNt (2^30+40*kSize) p.2,(p.1.coreLocalFree (core 2,false)).regionIdx)

/-- Run the operations, with every step covered, and then one more operation. -/
def observed (ops : List Op) (last : Option Op) : Option (List Outcome × Bool × Bool × Option ℕ) :=
  match regionManager (49*2^20) true (2^30) with
  | .ready init =>
    (exec loggedStep Covered (init,builtLog (2^30)) ops).bind fun r =>
      match last with
      | none => some (r.1,observe r.2)
      | some a => (loggedStep r.2 a).map fun x => (r.1++[x.1],observe x.2)
  | _ => none

theorem observed_run {ops : List Op} {outs : List Outcome} {x : Bool × Bool × Option ℕ}
    (h : observed ops none = some (outs,x)) : ∃ init p, regionManager (49*2^20) true (2^30) = .ready init ∧
      Trace loggedStep Covered (init,builtLog (2^30)) (ops.zip outs) p ∧ observe p = x := by
  unfold observed at h
  split at h
  · rename_i init hinit
    obtain ⟨⟨os,p⟩,hexec,⟨⟩⟩ := Option.bind_eq_some_iff.mp h
    exact ⟨init,p,hinit,exec_trace hexec,rfl⟩
  · cases h

theorem nt_bytes_exact_reacquired : ∃ init tr p, regionManager (49*2^20) true (2^30) = .ready init ∧
    Trace loggedStep Covered (init,builtLog (2^30)) tr p ∧ tr.length = 9 ∧ Exact p := by
  have hrun : observed reacquire none = some ([.refilled true,.refilled false,.cleared,.picked true,.picked true,.pushed,
      .pushed,.refilled true,.refilled true],false,false,some 40) := by decide +kernel
  obtain ⟨init,p,hinit,htr,-⟩ := observed_run hrun
  exact ⟨init,_,p,hinit,htr,rfl,(nt_bytes_exact hinit htr).1⟩

/-- Now core 0 asks once more and fails: the byte of core 2's region is set. -/
theorem failing_refill_sets_byte : observed reacquire (some (.refill (⟨0,by decide⟩,true) true)) =
    some ([.refilled true,.refilled false,.cleared,.picked true,.picked true,.pushed,.pushed,.refilled true,
      .refilled true,.refilled false],true,false,some 40) := by decide +kernel

end FarMemory.NtFlags
