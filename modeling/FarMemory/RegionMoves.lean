import FarMemory.CircularBuffer
import FarMemory.Execution
import FarMemory.Regions

/-!
# Where the regions are

`RegionManager` moves regions between three ring buffers, two slots per core and the
collector's `from_regions_`. A move copies the `Region` and invalidates the one it
was copied from, which keeps its buffer pointer. Every function below holds
`region_spin_` from its first access to its last and is one step; the ring arrays are
modelled with the slots that hold no element.

Reference counts live in the buffers and change under the lock's feet, so each
`is_gcable` may answer either way. How many regions a round takes is left open too.
The header byte of a region that has no buffer is behind a null pointer: an access
to it ends the run.
-/
namespace FarMemory.RegionMoves
open Regions (kSize kNumSocket1CPUs)
open Function
open CircularBuffer Execution

def kPickRegionMaxRetryTimes : ℕ := 3
def kMaxNumRegionsPerGCRound : ℕ := 128

/-- The index is `none` for `kInvalidIdx`, the buffer is `none` for a null pointer. -/
structure Region where
  regionIdx : Option ℕ
  bufPtr : Option ℕ
  deriving DecidableEq, Repr

namespace Region

def empty : Region := ⟨none,none⟩

def isInvalid (r : Region) : Bool := r.regionIdx.isNone

def invalidate (r : Region) : Region := {r with regionIdx := none}

end Region

abbrev Ring := CircularBuffer Region

/-- What the collector is about to do with `from_regions_`: start a round, pick more, or push the
`i`-th region to the free ones. -/
inductive Collector
  | idle
  | picking
  | pushing (i : ℕ)
  deriving DecidableEq, Repr

/-- `coreLocalFree (core,true)` is the core's non-temporal region, `isNt` the byte in each buffer. -/
structure State where
  freeRegions : Ring
  usedRegions : Ring
  ntUsedRegions : Ring
  coreLocalFree : Fin kNumCPUs × Bool → Region
  fromRegions : List Region
  isNt : ℕ → Bool
  collector : Collector

/-! ### The constructor -/

def newRegion (isLocal : Bool) (cache idx : ℕ) : Region :=
  ⟨some idx,if isLocal then some (cache+idx*kSize) else none⟩

/-- The loop that fills `free_regions_`, `none` at its `BUG_ON`. -/
def fillFree (isLocal : Bool) (cache : ℕ) : ℕ → ℕ → Ring → Option Ring
  | 0,_,q => some q
  | n+1,idx,q =>
    match q.pushBack (newRegion isLocal cache idx) with
    | (false,_) => none
    | (true,q') => fillFree isLocal cache n (idx+1) q'

inductive Built
  | exit
  | bugOn
  | ready (s : State)

def regionCount (size : ℕ) : ℕ := (size+kSize-1)/kSize

def regionManager (size : ℕ) (isLocal : Bool) (cache : ℕ) : Built :=
  let ring : Ring := .new .empty (regionCount size)
  if regionCount size ≤ 2*kNumSocket1CPUs then .exit
  else
    match fillFree isLocal cache (regionCount size-2*kNumSocket1CPUs) (2*kNumCPUs) ring with
    | none => .bugOn
    | some free => .ready {
        freeRegions := free
        usedRegions := ring
        ntUsedRegions := ring
        coreLocalFree := fun slot => newRegion isLocal cache (2*slot.1+slot.2.toNat)
        fromRegions := List.replicate kMaxNumRegionsPerGCRound .empty
        isNt := (List.finRange kNumCPUs).foldl
          (fun f core => update f (cache+(2*core+1)*kSize) isLocal) fun _ => false
        collector := .idle}

/-! ### The functions under the lock -/

/-- Put the core's full region among the used ones, `none` at the `BUG_ON`. -/
def pushFull (s : State) (slot : Fin kNumCPUs × Bool) : Option State :=
  let r := s.coreLocalFree slot
  let moved := update s.coreLocalFree slot r.invalidate
  if r.isInvalid then some s
  else if r.bufPtr.any s.isNt then
    match s.ntUsedRegions.pushBack r with
    | (false,_) => none
    | (true,q) => some {s with ntUsedRegions := q, coreLocalFree := moved}
  else
    match s.usedRegions.pushBack r with
    | (false,_) => none
    | (true,q) => some {s with usedRegions := q, coreLocalFree := moved}

def takeFree (s : State) (slot : Fin kNumCPUs × Bool) : Bool × State :=
  match s.freeRegions.popFront Region.invalidate with
  | none => (false,s)
  | some (r,q) => (true,{s with freeRegions := q, coreLocalFree := update s.coreLocalFree slot r})

def setNt (s : State) (slot : Fin kNumCPUs × Bool) : Option State :=
  (s.coreLocalFree slot).bufPtr.map fun b => {s with isNt := update s.isNt b true}

/-- Take a free region when the core has none. The non-temporal byte is set even when there was no
free region: in the buffer that the invalid region still points to. -/
def popFree (s : State) (slot : Fin kNumCPUs × Bool) : Option (Bool × State) :=
  if (s.coreLocalFree slot).isInvalid then
    let (success,s₁) := takeFree s slot
    if slot.2 then (setNt s₁ slot).map fun s₂ => (success,s₂)
    else some (success,s₁)
  else some (true,s)

inductive Outcome
  | bugOn
  | refilled (success : Bool)
  | cleared
  | picked (region : Bool)
  | pushed
  deriving DecidableEq, Repr

/-- `full` tells whether the caller passes its core's region as the full one. -/
def tryRefillCoreLocalFreeRegion (s : State) (slot : Fin kNumCPUs × Bool) (full : Bool) :
    Option (Outcome × State) :=
  match if full then pushFull s slot else some s with
  | none => some (.bugOn,s)
  | some s₁ => (popFree s₁ slot).map fun r => (.refilled r.1,r.2)

inductive Attempt
  | fault
  | done (r : Option Region) (q : Ring)
  | again (q : Ring)

/-- One pass of a retry loop: a region that cannot be collected yet goes back to its queue. -/
def attempt (pushAgain : Ring → Region → Bool × Ring) (gcable : Bool) (q : Ring) : Attempt :=
  match q.popFront Region.invalidate with
  | none => .done none q
  | some (r,q₁) =>
    match r.bufPtr with
    | none => .fault
    | some _ => if gcable then .done (some r) q₁ else .again (pushAgain q₁ r).2

/-- A retry loop with so many retries left. -/
def popGcable (pushAgain : Ring → Region → Bool × Ring) (gcable : ℕ → Bool) : ℕ → Ring → Option (Option Region × Ring)
  | 0,q =>
    match attempt pushAgain (gcable 0) q with
    | .fault => none
    | .done r q₁ => some (r,q₁)
    | .again q₁ => some (none,q₁)
  | left+1,q =>
    match attempt pushAgain (gcable (left+1)) q with
    | .fault => none
    | .done r q₁ => some (r,q₁)
    | .again q₁ => popGcable pushAgain gcable left q₁

/-- The non-temporal queue first, which is rotated by the retries, then the other one, whose first
region is tried again and again. `retry_times++ <= kPickRegionMaxRetryTimes` allows one retry more
than the constant says. -/
def popUsedRegion (s : State) (ntGcable gcable : ℕ → Bool) : Option (Option Region × State) :=
  match popGcable pushBack ntGcable (kPickRegionMaxRetryTimes+1) s.ntUsedRegions with
  | none => none
  | some (some r,q) => some (some r,{s with ntUsedRegions := q})
  | some (none,q) =>
    (popGcable pushFront gcable (kPickRegionMaxRetryTimes+1) s.usedRegions).map fun p =>
      (p.1,{s with ntUsedRegions := q, usedRegions := p.2})

/-- `push_free_region` on the `i`-th of the collector's regions. -/
def pushFreeRegion (s : State) (i : ℕ) : Option (Outcome × State) :=
  match s.fromRegions[i]? with
  | none => none
  | some r =>
    match r.bufPtr with
    | none => none
    | some b =>
      let s₁ := {s with isNt := update s.isNt b false}
      match s.freeRegions.pushBack r with
      | (false,_) => some (.bugOn,s₁)
      | (true,q) => some (.pushed,{s₁ with freeRegions := q, fromRegions := s.fromRegions.set i r.invalidate})

/-! ### Runs -/

/-- A core refills, or the collector clears `from_regions_`, picks a region or pushes one. -/
inductive Op
  | refill (slot : Fin kNumCPUs × Bool) (full : Bool)
  | clear
  | pick (ntGcable gcable : ℕ → Bool) (more : Bool)
  | push

def step (s : State) : Op → Option (Outcome × State)
  | .refill slot full => tryRefillCoreLocalFreeRegion s slot full
  | .clear =>
    match s.collector with
    | .idle => some (.cleared,{s with fromRegions := [], collector := .picking})
    | _ => none
  | .pick ntGcable gcable more =>
    match s.collector with
    | .picking =>
      match popUsedRegion s ntGcable gcable with
      | none => none
      | some (some r,s₁) =>
        some (.picked true,{s₁ with
          fromRegions := s.fromRegions++[r]
          collector := if more then .picking else .pushing 0})
      | some (none,s₁) =>
        some (.picked false,{s₁ with collector := if s.fromRegions = [] then .idle else .pushing 0})
    | _ => none
  | .push =>
    match s.collector with
    | .pushing i =>
      (pushFreeRegion s i).map fun p =>
        (p.1,{p.2 with collector := if i+1 < s.fromRegions.length then .pushing (i+1) else .idle})
    | _ => none

def slots : List (Fin kNumCPUs × Bool) := List.finRange kNumCPUs ×ˢ [false,true]

/-- The elements of the queues, the cores' regions and the collector's. -/
def held (s : State) : List Region :=
  s.freeRegions.contents++s.usedRegions.contents++s.ntUsedRegions.contents++slots.map s.coreLocalFree++s.fromRegions

/-- The indices of the valid regions among them. -/
def indices (s : State) : List ℕ := (held s).filterMap Region.regionIdx

/-- All `Region` values there are, those in unused slots of the ring arrays included. -/
def values (s : State) : List Region :=
  s.freeRegions.array++s.usedRegions.array++s.ntUsedRegions.array++slots.map s.coreLocalFree++s.fromRegions

/-- Two values do not both claim one buffer. -/
def Apart (a b : Region) : Prop :=
  a.isInvalid = false → b.isInvalid = false → ∀ p, a.bufPtr = some p → b.bufPtr ≠ some p

def numRegions (size : ℕ) : ℕ := 2*kNumCPUs+(regionCount size-2*kNumSocket1CPUs)

/-! ### Counting valid regions -/

/-- How often `x` is among the valid regions of a list. -/
def num (x : Region) (l : List Region) : ℕ := (l.filter fun r => !r.isInvalid).count x

section
variable {x r : Region} {l l' : List Region}

@[simp] theorem num_nil : num x [] = 0 := rfl

@[simp] theorem num_append : num x (l++l') = num x l+num x l' := by
  simp only [num,List.filter_append,List.count_append]

theorem num_cons : num x (r::l) = num x [r]+num x l := num_append (l := [r])

theorem num_perm (h : l.Perm l') : num x l = num x l' := (h.filter _).count_eq x

theorem num_eq_zero (h : ∀ r ∈ l, r.isInvalid = true) : num x l = 0 := by
  have : (l.filter fun r => !r.isInvalid) = [] := List.filter_eq_nil_iff.mpr fun r hr => by simp [h r hr]
  rw [num,this]
  rfl

theorem num_eq_count (h : ∀ r ∈ l, r.isInvalid = false) : num x l = l.count x := by
  rw [num,List.filter_eq_self.mpr fun r hr => by simp [h r hr]]

@[simp] theorem num_invalidate : num x [r.invalidate] = 0 := rfl

theorem num_invalid (h : r.isInvalid = true) : num x [r] = 0 := num_eq_zero (by simpa using h)

theorem slots_nodup : slots.Nodup := (List.nodup_finRange _).product (by decide)

theorem mem_slots (slot : Fin kNumCPUs × Bool) : slot ∈ slots :=
  List.mem_product.mpr ⟨List.mem_finRange _,by cases slot.2 <;> simp⟩

theorem num_update (x : Region) (f : Fin kNumCPUs × Bool → Region) (slot : Fin kNumCPUs × Bool) (r : Region) :
    num x (slots.map (update f slot r))+num x [f slot] = num x (slots.map f)+num x [r] := by
  have hperm := List.perm_cons_erase (mem_slots slot)
  have hrest : (slots.erase slot).map (update f slot r) = (slots.erase slot).map f :=
    List.map_congr_left fun a ha => update_of_ne (slots_nodup.mem_erase_iff.mp ha).1 _ _
  have hnew := num_cons (x := x) (r := r) (l := (slots.erase slot).map f)
  have hold := num_cons (x := x) (r := f slot) (l := (slots.erase slot).map f)
  rw [num_perm (hperm.map _),num_perm (hperm.map f),List.map_cons,List.map_cons,hrest,update_self]
  omega

theorem num_set {i : ℕ} (x r' : Region) (h : l[i]? = some r) : num x (l.set i r')+num x [r] = num x l+num x [r'] := by
  obtain ⟨hlt,rfl⟩ := List.getElem?_eq_some_iff.mp h
  have hnew := num_cons (x := x) (r := r') (l := l.eraseIdx i)
  have hold := num_cons (x := x) (r := l[i]) (l := l.eraseIdx i)
  rw [num_perm (List.set_perm_cons_eraseIdx hlt r'),← num_perm (List.getElem_cons_eraseIdx_perm hlt)]
  omega

theorem num_held (s : State) : num x (held s) = num x s.freeRegions.contents+num x s.usedRegions.contents+
    num x s.ntUsedRegions.contents+num x (slots.map s.coreLocalFree)+num x s.fromRegions := by
  simp only [held,num_append]

end

/-! ### One queue -/

/-- The elements of a queue are valid, and nothing else in its array is. -/
structure Queue (capacity : ℕ) (q : Ring) : Prop where
  slots_eq : q.slots = capacity+1
  elements : ∀ r ∈ q.contents, r.isInvalid = false
  rest : ∀ r ∈ q.vacant, r.isInvalid = true

namespace Queue
variable {n : ℕ} {q q' : Ring} {r : Region}

theorem new (n : ℕ) : Queue n (.new .empty n) :=
  ⟨rfl,by simp [new_contents],fun r hr => by rw [new_vacant _ _ r hr]; rfl⟩

theorem has_room (h : Queue n q) (hroom : q.contents.length < n) : q.size < q.capacity := by
  rw [← contents_length,capacity,h.slots_eq]
  omega

theorem pushBack (h : Queue n q) (hroom : q.contents.length < n) (hr : r.isInvalid = false) :
    ∃ q', q.pushBack r = (true,q') ∧ Queue n q' ∧ q'.contents = q.contents++[r] := by
  obtain ⟨hok,hcontents⟩ := pushBack_of_lt (h.has_room hroom) r
  refine ⟨(q.pushBack r).2,Prod.ext hok rfl,⟨?_,?_,fun x hx => h.rest x (pushBack_vacant q r x hx)⟩,hcontents⟩
  · rw [pushBack_slots,h.slots_eq]
  · rw [hcontents]
    intro x hx
    rcases List.mem_append.mp hx with hx | hx
    · exact h.elements x hx
    · rwa [List.mem_singleton.mp hx]

theorem pushFront (h : Queue n q) (hroom : q.contents.length < n) (hr : r.isInvalid = false) :
    ∃ q', q.pushFront r = (true,q') ∧ Queue n q' ∧ q'.contents = r::q.contents := by
  have hlt := h.has_room hroom
  obtain ⟨hok,hcontents⟩ := pushFront_of_lt hlt r
  refine ⟨(q.pushFront r).2,Prod.ext hok rfl,⟨?_,?_,fun x hx => h.rest x (pushFront_vacant hlt r x hx)⟩,hcontents⟩
  · rw [pushFront_slots,h.slots_eq]
  · rw [hcontents]
    intro x hx
    rcases List.mem_cons.mp hx with rfl | hx
    · exact hr
    · exact h.elements x hx

theorem popFront (h : Queue n q) (hpop : q.popFront Region.invalidate = some (r,q')) :
    Queue n q' ∧ q.contents = r::q'.contents ∧ r.isInvalid = false := by
  obtain ⟨hcontents,-,hslots⟩ := popFront_some hpop
  have helements := h.elements
  rw [hcontents] at helements
  refine ⟨⟨hslots.trans h.slots_eq,fun x hx => helements x (List.mem_cons_of_mem _ hx),?_⟩,hcontents,
    helements r List.mem_cons_self⟩
  rw [popFront_vacant hpop]
  intro x hx
  rcases List.mem_append.mp hx with hx | hx
  · exact h.rest x hx
  · rw [List.mem_singleton.mp hx]
    rfl

end Queue

/-! ### The invariant -/

/-- What the collector's phase says about its regions: pushed ones are invalid, the others valid. -/
def Collector.Fits : Collector → List Region → Prop
  | .idle,l => ∀ r ∈ l, r.isInvalid = true
  | .picking,l => ∀ r ∈ l, r.isInvalid = false
  | .pushing i,l => (∀ r ∈ l.take i, r.isInvalid = true) ∧ ∀ r ∈ l.drop i, r.isInvalid = false

/-- The regions `made` by the constructor are the valid ones, each once, and the queues could hold
all of them. -/
structure Inv (capacity : ℕ) (made : List Region) (s : State) : Prop where
  free : Queue capacity s.freeRegions
  used : Queue capacity s.usedRegions
  ntUsed : Queue capacity s.ntUsedRegions
  conserved : ∀ x, num x (held s) = made.count x
  collector : s.collector.Fits s.fromRegions
  room : made.length < capacity

section
variable {n : ℕ} {made : List Region} {s s' : State} {slot : Fin kNumCPUs × Bool} {b : Bool}

section
variable (h : Inv n made s)
include h

theorem Inv.perm : ((held s).filter fun r => !r.isInvalid).Perm made :=
  List.perm_iff_count.mpr h.conserved

theorem Inv.has_room {l : List Region} (hl : l.Sublist (held s))
    (hvalid : ∀ r ∈ l, r.isInvalid = false) : l.length < n := by
  have hsub := hl.filter fun r => !r.isInvalid
  rw [List.filter_eq_self.mpr fun r hr => by simp [hvalid r hr]] at hsub
  have := hsub.length_le
  rw [h.perm.length_eq] at this
  exact lt_of_le_of_lt this h.room

theorem Inv.free_room : s.freeRegions.contents.length < n := by
  refine h.has_room ?_ h.free.elements
  simp only [held,List.append_assoc]
  exact List.sublist_append_left _ _

theorem Inv.used_room : s.usedRegions.contents.length < n := by
  refine h.has_room ?_ h.used.elements
  simp only [held,List.append_assoc]
  exact (List.sublist_append_left _ _).trans (List.sublist_append_right _ _)

theorem Inv.ntUsed_room : s.ntUsedRegions.contents.length < n := by
  refine h.has_room ?_ h.ntUsed.elements
  simp only [held,List.append_assoc]
  exact (List.sublist_append_left _ _).trans ((List.sublist_append_right _ _).trans (List.sublist_append_right _ _))

theorem pushFull_inv (slot : Fin kNumCPUs × Bool) :
    ∃ s', pushFull s slot = some s' ∧ Inv n made s' := by
  unfold pushFull
  by_cases hr : (s.coreLocalFree slot).isInvalid = true
  · exact ⟨s,if_pos hr,h⟩
  have hvalid : (s.coreLocalFree slot).isInvalid = false := Bool.not_eq_true _ ▸ hr
  have hcores := fun x => num_update x s.coreLocalFree slot (s.coreLocalFree slot).invalidate
  have hconserved := h.conserved
  simp only [num_held] at hconserved
  simp only [if_neg hr]
  split
  · obtain ⟨q,hpush,hq,hcontents⟩ := h.ntUsed.pushBack h.ntUsed_room hvalid
    simp only [hpush]
    refine ⟨_,rfl,h.free,h.used,hq,fun x => ?_,h.collector,h.room⟩
    have hall := hconserved x
    have hslot := hcores x
    simp only [num_held,hcontents,num_append]
    rw [num_invalidate] at hslot
    omega
  · obtain ⟨q,hpush,hq,hcontents⟩ := h.used.pushBack h.used_room hvalid
    simp only [hpush]
    refine ⟨_,rfl,h.free,hq,h.ntUsed,fun x => ?_,h.collector,h.room⟩
    have hall := hconserved x
    have hslot := hcores x
    simp only [num_held,hcontents,num_append]
    rw [num_invalidate] at hslot
    omega

theorem takeFree_inv (hr : (s.coreLocalFree slot).isInvalid = true) :
    Inv n made (takeFree s slot).2 := by
  unfold takeFree
  rcases hfront : s.freeRegions.popFront Region.invalidate with _ | ⟨r,q⟩
  · exact h
  obtain ⟨hq,hcontents,-⟩ := h.free.popFront hfront
  refine ⟨hq,h.used,h.ntUsed,fun x => ?_,h.collector,h.room⟩
  have hall := h.conserved x
  have hslot := num_update x s.coreLocalFree slot r
  rw [num_held,hcontents,num_cons] at hall
  rw [num_invalid hr] at hslot
  simp only [num_held]
  omega

theorem popFree_inv (hpop : popFree s slot = some (b,s')) : Inv n made s' := by
  unfold popFree at hpop
  split at hpop
  swap
  · cases hpop
    exact h
  have hs1 := takeFree_inv h ‹_›
  dsimp only at hpop
  split at hpop
  · simp only [setNt,Option.map_map,Option.map_eq_some_iff,Function.comp_apply,Prod.mk.injEq] at hpop
    obtain ⟨_,_,-,rfl⟩ := hpop
    exact ⟨hs1.free,hs1.used,hs1.ntUsed,hs1.conserved,hs1.collector,hs1.room⟩
  · cases hpop
    exact hs1

theorem refill_inv {o : Outcome} {full : Bool}
    (hstep : tryRefillCoreLocalFreeRegion s slot full = some (o,s')) : o ≠ .bugOn ∧ Inv n made s' := by
  have hfull : ∃ s₁, (if full then pushFull s slot else some s) = some s₁ ∧ Inv n made s₁ := by
    cases full with
    | true => exact pushFull_inv h slot
    | false => exact ⟨s,rfl,h⟩
  obtain ⟨s₁,heq,hs1⟩ := hfull
  rw [tryRefillCoreLocalFreeRegion,heq] at hstep
  obtain ⟨⟨b,s₂⟩,hpop,heq⟩ := Option.map_eq_some_iff.mp hstep
  cases heq
  exact ⟨nofun,popFree_inv hs1 hpop⟩

end

/-! ### Picking and pushing -/

/-- A queue after the retry loop: all its elements are still there but for the one it returns. -/
structure Popped (n : ℕ) (q : Ring) (r : Option Region) (q' : Ring) : Prop where
  queue : Queue n q'
  valid : ∀ x ∈ r, x.isInvalid = false
  perm : q.contents.Perm (r.toList++q'.contents)

/-- Putting a region back into a queue with room. -/
def Requeues (n : ℕ) (pushAgain : Ring → Region → Bool × Ring) : Prop :=
  ∀ q r, Queue n q → q.contents.length < n → r.isInvalid = false →
    Queue n (pushAgain q r).2 ∧ (r::q.contents).Perm (pushAgain q r).2.contents

theorem pushBack_requeues : Requeues n pushBack := by
  intro q r hq hroom hr
  obtain ⟨q',hpush,hq',hcontents⟩ := hq.pushBack hroom hr
  rw [hpush]
  refine ⟨hq',?_⟩
  rw [hcontents]
  exact (List.perm_append_singleton r q.contents).symm

theorem pushFront_requeues : Requeues n pushFront := by
  intro q r hq hroom hr
  obtain ⟨q',hpush,hq',hcontents⟩ := hq.pushFront hroom hr
  rw [hpush]
  refine ⟨hq',?_⟩
  rw [hcontents]

variable {pushAgain : Ring → Region → Bool × Ring} {q q' : Ring} {r : Option Region} {ok : Bool}

theorem attempt_done (hq : Queue n q) (h : attempt pushAgain ok q = .done r q') : Popped n q r q' := by
  unfold attempt at h
  rcases hpop : q.popFront Region.invalidate with _ | ⟨x,q₁⟩
  · simp only [hpop] at h
    cases h
    exact ⟨hq,nofun,.refl _⟩
  obtain ⟨hq1,hcontents,hx⟩ := hq.popFront hpop
  simp only [hpop] at h
  split at h
  · cases h
  · split at h
    · cases h
      exact ⟨hq1,fun y hy => by cases hy; exact hx,hcontents ▸ .refl _⟩
    · cases h

theorem attempt_again (hpush : Requeues n pushAgain) (hq : Queue n q) (h : attempt pushAgain ok q = .again q') :
    Queue n q' ∧ q.contents.Perm q'.contents := by
  unfold attempt at h
  rcases hpop : q.popFront Region.invalidate with _ | ⟨x,q₁⟩
  · simp only [hpop] at h
    cases h
  obtain ⟨hq1,hcontents,hx⟩ := hq.popFront hpop
  have hroom : q₁.contents.length < n := by
    have hfits := q.size_lt
    rw [← contents_length,hcontents,hq.slots_eq,List.length_cons] at hfits
    omega
  simp only [hpop] at h
  split at h
  · cases h
  · split at h
    · cases h
    · cases h
      rw [hcontents]
      exact hpush q₁ x hq1 hroom hx

/-- The induction is on the retries that are left; a failed attempt only reorders the queue. -/
theorem popGcable_spec {gcable : ℕ → Bool} {left : ℕ} (hpush : Requeues n pushAgain) (hq : Queue n q)
    (h : popGcable pushAgain gcable left q = some (r,q')) : Popped n q r q' := by
  induction left generalizing q with
  | zero =>
    rw [popGcable] at h
    rcases hattempt : attempt pushAgain (gcable 0) q with _ | ⟨r1,q₁⟩ | q₁ <;> simp only [hattempt] at h
    · cases h
    · cases h
      exact attempt_done hq hattempt
    · cases h
      obtain ⟨hq1,hperm⟩ := attempt_again hpush hq hattempt
      exact ⟨hq1,nofun,hperm⟩
  | succ left ih =>
    rw [popGcable] at h
    rcases hattempt : attempt pushAgain (gcable (left+1)) q with _ | ⟨r1,q₁⟩ | q₁ <;> simp only [hattempt] at h
    · cases h
    · cases h
      exact attempt_done hq hattempt
    · obtain ⟨hq1,hperm⟩ := attempt_again hpush hq hattempt
      obtain ⟨hq',hvalid,hrest⟩ := ih hq1 h
      exact ⟨hq',hvalid,hperm.trans hrest⟩

theorem Popped.num {x : Region} (h : Popped n q r q') : num x q.contents = num x r.toList+num x q'.contents := by
  rw [num_perm h.perm,num_append]

/-- What `pop_used_region` returns is missing afterwards and nothing else is. -/
theorem popUsedRegion_inv {ntGcable gcable : ℕ → Bool} (h : Inv n made s)
    (hpop : popUsedRegion s ntGcable gcable = some (r,s')) :
    (∀ l phase, phase.Fits l → (∀ x, num x l = num x s.fromRegions+num x r.toList) →
      Inv n made {s' with fromRegions := l, collector := phase}) ∧ (∀ x ∈ r, x.isInvalid = false) ∧
      s'.fromRegions = s.fromRegions := by
  unfold popUsedRegion at hpop
  rcases hnt : popGcable pushBack ntGcable (kPickRegionMaxRetryTimes+1) s.ntUsedRegions with _ | ⟨_ | x,q⟩
  · simp only [hnt] at hpop
    cases hpop
  · simp only [hnt] at hpop
    obtain ⟨⟨r1,q₁⟩,hused,heq⟩ := Option.map_eq_some_iff.mp hpop
    cases heq
    have hq := popGcable_spec pushBack_requeues h.ntUsed hnt
    have hq1 := popGcable_spec pushFront_requeues h.used hused
    refine ⟨fun l phase hfits hl => ⟨h.free,hq1.queue,hq.queue,fun x => ?_,hfits,h.room⟩,hq1.valid,rfl⟩
    have hall := h.conserved x
    rw [num_held,hq.num,hq1.num] at hall
    simp only [num_held,hl]
    simp only [Option.toList_none,num_nil] at hall
    omega
  · simp only [hnt] at hpop
    cases hpop
    have hq := popGcable_spec pushBack_requeues h.ntUsed hnt
    refine ⟨fun l phase hfits hl => ⟨h.free,h.used,hq.queue,fun x => ?_,hfits,h.room⟩,hq.valid,rfl⟩
    have hall := h.conserved x
    rw [num_held,hq.num] at hall
    simp only [num_held,hl]
    omega

theorem Collector.Fits.push {i : ℕ} {l : List Region} {x : Region} (h : (Collector.pushing i).Fits l)
    (hx : l[i]? = some x) :
    x.isInvalid = false ∧ (if i+1 < l.length then Collector.pushing (i+1) else .idle).Fits (l.set i x.invalidate) := by
  obtain ⟨hlt,rfl⟩ := List.getElem?_eq_some_iff.mp hx
  have hsplit := List.drop_eq_getElem_cons hlt
  have hdrop := h.2
  rw [hsplit] at hdrop
  have htake : (l.set i l[i].invalidate).take (i+1) = l.take i++[l[i].invalidate] := by
    rw [List.take_add_one,List.getElem?_set_self hlt,List.take_set_of_le (Nat.le_refl i)]
    rfl
  have hpushed : ∀ r ∈ (l.set i l[i].invalidate).take (i+1), r.isInvalid = true := by
    rw [htake]
    intro r hr
    rcases List.mem_append.mp hr with hr | hr
    · exact h.1 r hr
    · rw [List.mem_singleton.mp hr]
      rfl
  refine ⟨hdrop _ List.mem_cons_self,?_⟩
  split
  · refine ⟨hpushed,fun r hr => hdrop r (List.mem_cons_of_mem _ ?_)⟩
    rwa [List.drop_set_of_lt (Nat.lt_succ_self i)] at hr
  · rwa [List.take_of_length_le (by rw [List.length_set]; omega)] at hpushed

theorem push_inv {i : ℕ} {o : Outcome} (h : Inv n made s) (hphase : s.collector = .pushing i)
    (hstep : pushFreeRegion s i = some (o,s')) : o ≠ .bugOn ∧
      Inv n made {s' with collector := if i+1 < s.fromRegions.length then .pushing (i+1) else .idle} := by
  have hfits := h.collector
  rw [hphase] at hfits
  unfold pushFreeRegion at hstep
  split at hstep
  · cases hstep
  rename_i x hx
  obtain ⟨hvalid,hfits'⟩ := hfits.push hx
  split at hstep
  · cases hstep
  obtain ⟨q,hpush,hq,hcontents⟩ := h.free.pushBack h.free_room hvalid
  simp only [hpush] at hstep
  cases hstep
  refine ⟨nofun,hq,h.used,h.ntUsed,fun y => ?_,hfits',h.room⟩
  have hall := h.conserved y
  have hset := num_set y x.invalidate hx
  rw [num_held] at hall
  rw [num_invalidate] at hset
  simp only [num_held,hcontents,num_append]
  omega

theorem step_inv {a : Op} {o : Outcome} (h : Inv n made s) (hstep : step s a = some (o,s')) :
    o ≠ .bugOn ∧ Inv n made s' := by
  cases a with
  | refill slot full => exact refill_inv h hstep
  | clear =>
    simp only [step] at hstep
    split at hstep
    · rename_i hphase
      cases hstep
      refine ⟨nofun,h.free,h.used,h.ntUsed,fun x => ?_,nofun,h.room⟩
      -- nothing is lost: the regions of the last round have been pushed
      have hfits := h.collector
      have hall := h.conserved x
      rw [hphase] at hfits
      rw [num_held,num_eq_zero hfits] at hall
      simpa only [num_held,num_nil] using hall
    · cases hstep
  | pick ntGcable gcable more =>
    simp only [step] at hstep
    split at hstep
    swap
    · cases hstep
    rename_i hphase
    have hfits := h.collector
    rw [hphase] at hfits
    split at hstep
    · cases hstep
    · rename_i r s₁ hpop
      cases hstep
      obtain ⟨hinv,hvalid,-⟩ := popUsedRegion_inv h hpop
      have hall : ∀ x ∈ s.fromRegions++[r], x.isInvalid = false := by
        intro x hx
        rcases List.mem_append.mp hx with hx | hx
        · exact hfits x hx
        · exact hvalid x (List.mem_singleton.mp hx ▸ rfl)
      refine ⟨nofun,hinv _ _ ?_ fun x => num_append⟩
      split
      · exact hall
      · exact ⟨by simp,by simpa using hall⟩
    · rename_i s₁ hpop
      cases hstep
      obtain ⟨hinv,-,hfrom⟩ := popUsedRegion_inv h hpop
      refine ⟨nofun,hinv s₁.fromRegions _ ?_ fun x => by rw [hfrom]; rfl⟩
      rw [hfrom]
      split
      · rename_i hnil
        rw [hnil]
        exact nofun
      · exact ⟨by simp,fun r hr => hfits r (List.mem_of_mem_drop hr)⟩
  | push =>
    simp only [step] at hstep
    split at hstep
    · rename_i i hphase
      obtain ⟨⟨o1,s₁⟩,hpush,heq⟩ := Option.map_eq_some_iff.mp hstep
      cases heq
      exact push_inv h hphase hpush
    · cases hstep

end

/-! ### From the constructor on -/

section
variable {n size : ℕ} {made : List Region} {s : State}

theorem fillFree_spec (isLocal : Bool) (cache k idx : ℕ) {q : Ring} (hq : Queue n q) (hroom : q.contents.length+k ≤ n) :
    ∃ q', fillFree isLocal cache k idx q = some q' ∧ Queue n q' ∧
      q'.contents = q.contents++(List.range' idx k).map (newRegion isLocal cache) := by
  induction k generalizing idx q with
  | zero => exact ⟨q,rfl,hq,by simp⟩
  | succ k ih =>
    obtain ⟨q₁,hpush,hq1,hcontents⟩ := hq.pushBack (r := newRegion isLocal cache idx) (by omega) rfl
    have hroom1 : q₁.contents.length+k ≤ n := by
      rw [hcontents,List.length_append,List.length_singleton]
      omega
    obtain ⟨q',hfill,hq',hcontents'⟩ := ih (idx+1) hq1 hroom1
    refine ⟨q',?_,hq',?_⟩
    · simp only [fillFree,hpush,hfill]
    · rw [hcontents',hcontents,List.range'_succ,List.map_cons,List.append_assoc]
      rfl

def madeRegions (size : ℕ) (isLocal : Bool) (cache : ℕ) : List Region :=
  (List.range (numRegions size)).map (newRegion isLocal cache)

theorem slots_numbered : slots.map (fun slot => 2*slot.1.val+slot.2.toNat) = List.range (2*kNumCPUs) := by decide +kernel

/-- The constructor gives up or ends in a state with all its regions in place. -/
theorem regionManager_spec (size : ℕ) (isLocal : Bool) (cache : ℕ) :
    regionManager size isLocal cache = .exit ∨ ∃ s, regionManager size isLocal cache = .ready s ∧
      Inv (regionCount size) (madeRegions size isLocal cache) s := by
  by_cases hcount : regionCount size ≤ 2*kNumSocket1CPUs
  · exact .inl (if_pos hcount)
  refine .inr ?_
  have hring := Queue.new (regionCount size)
  obtain ⟨q,hfill,hq,hcontents⟩ := fillFree_spec isLocal cache (regionCount size-2*kNumSocket1CPUs) (2*kNumCPUs) hring
    (by rw [new_contents,List.length_nil]; omega)
  simp only [regionManager,if_neg hcount,hfill]
  refine ⟨_,rfl,hq,hring,hring,fun x => ?_,?_,?_⟩
  · have hcores : slots.map (fun slot => newRegion isLocal cache (2*slot.1.val+slot.2.toNat)) =
        (List.range (2*kNumCPUs)).map (newRegion isLocal cache) := by
      rw [← slots_numbered,List.map_map]
      rfl
    have hvalid : ∀ (l : List ℕ), num x (l.map (newRegion isLocal cache)) = (l.map (newRegion isLocal cache)).count x := by
      intro l
      refine num_eq_count fun r hr => ?_
      obtain ⟨i,-,rfl⟩ := List.mem_map.mp hr
      rfl
    have hempty : num x (List.replicate kMaxNumRegionsPerGCRound Region.empty) = 0 :=
      num_eq_zero fun r hr => by rw [List.eq_of_mem_replicate hr]; rfl
    rw [num_held]
    change num x q.contents+num x (new Region.empty (regionCount size)).contents+
      num x (new Region.empty (regionCount size)).contents+num x (slots.map fun slot => _)+num x (List.replicate _ _) = _
    rw [hcontents,new_contents,hcores,hempty,List.nil_append,num_nil,hvalid,hvalid]
    rw [madeRegions,numRegions,List.range_add,List.map_append,List.count_append,← List.range'_eq_map_range]
    omega
  · exact fun r hr => by rw [List.eq_of_mem_replicate hr]; rfl
  · rw [madeRegions,List.length_map,List.length_range,numRegions]
    unfold kNumCPUs kNumSocket1CPUs at *
    omega

theorem values_perm (s : State) : (values s).Perm
    (held s++(s.freeRegions.vacant++s.usedRegions.vacant++s.ntUsedRegions.vacant)) := by
  refine List.perm_iff_count.mpr fun x => ?_
  have hfree := s.freeRegions.array_perm.count_eq x
  have hused := s.usedRegions.array_perm.count_eq x
  have hnt := s.ntUsedRegions.array_perm.count_eq x
  simp only [List.count_append] at hfree hused hnt
  simp only [values,held,List.count_append,hfree,hused,hnt]
  omega

theorem Inv.values_perm (h : Inv n made s) : ((values s).filter fun r => !r.isInvalid).Perm made := by
  refine List.perm_iff_count.mpr fun x => ?_
  have hvacant : ∀ r ∈ s.freeRegions.vacant++s.usedRegions.vacant++s.ntUsedRegions.vacant, r.isInvalid = true := by
    intro r hr
    rcases List.mem_append.mp hr with hr | hr
    · rcases List.mem_append.mp hr with hr | hr
      · exact h.free.rest r hr
      · exact h.used.rest r hr
    · exact h.ntUsed.rest r hr
  change num x (values s) = _
  rw [num_perm (RegionMoves.values_perm s),num_append,num_eq_zero hvacant,h.conserved]
  rfl

end

theorem indices_filter (l : List Region) :
    (l.filter fun r => !r.isInvalid).filterMap Region.regionIdx = l.filterMap Region.regionIdx := by
  induction l with
  | nil => rfl
  | cons r l ih =>
    rcases hr : r.regionIdx with _ | i
    · rw [List.filter_cons_of_neg (by simp [Region.isInvalid,hr]),ih,List.filterMap_cons_none hr]
    · rw [List.filter_cons_of_pos (by simp [Region.isInvalid,hr]),List.filterMap_cons_some hr,ih,
        List.filterMap_cons_some hr]

theorem Inv.indices_perm {n size cache : ℕ} {isLocal : Bool} {s : State}
    (h : Inv n (madeRegions size isLocal cache) s) : (indices s).Perm (List.range (numRegions size)) := by
  have hidx := h.perm.filterMap Region.regionIdx
  rw [indices_filter,madeRegions,List.filterMap_map] at hidx
  rwa [show Region.regionIdx ∘ newRegion isLocal cache = some from rfl,List.filterMap_some] at hidx

theorem newRegion_apart {isLocal : Bool} {cache i j : ℕ} (h : i ≠ j) :
    Apart (newRegion isLocal cache i) (newRegion isLocal cache j) := by
  intro _ _ p hi hj
  cases isLocal with
  | false => cases hi
  | true =>
    have heq : cache+i*kSize = cache+j*kSize := Option.some.inj (hi.trans hj.symm)
    exact h (Nat.eq_of_mul_eq_mul_right (by decide) (Nat.add_left_cancel heq))

theorem Inv.apart {n size cache : ℕ} {isLocal : Bool} {s : State}
    (h : Inv n (madeRegions size isLocal cache) s) : (values s).Pairwise Apart := by
  have hsymm : ∀ {a b : Region}, Apart a b → Apart b a := fun hab hb ha p hp hp' => hab ha hb p hp' hp
  have hmade : (madeRegions size isLocal cache).Pairwise Apart := by
    rw [madeRegions,List.pairwise_map]
    exact List.nodup_range.imp fun hij => newRegion_apart hij
  have hvalid := (h.values_perm.pairwise_iff hsymm).mpr hmade
  rw [List.pairwise_filter] at hvalid
  refine hvalid.imp fun hab ha hb => ?_
  exact hab (by simp [ha]) (by simp [hb]) ha hb

/-- Along every run from the constructor, every region is in exactly one place, no buffer has two
valid regions and no `BUG_ON` fires. -/
theorem regions_conserved (size : ℕ) (isLocal : Bool) (cache : ℕ) :
    regionManager size isLocal cache ≠ .bugOn ∧
    ∀ init, regionManager size isLocal cache = .ready init →
      ∀ tr s, Trace step (fun _ _ => True) init tr s →
        (indices s).Perm (List.range (numRegions size)) ∧ (values s).Pairwise Apart ∧
          ∀ a s', step s a ≠ some (.bugOn,s') := by
  have hspec := regionManager_spec size isLocal cache
  refine ⟨?_,fun init hinit tr s htr => ?_⟩
  · rcases hspec with h | ⟨s,h,-⟩ <;> rw [h] <;> nofun
  · have hinv₀ : Inv (regionCount size) (madeRegions size isLocal cache) init := by
      rcases hspec with h | ⟨s,h,hs⟩
      · rw [h] at hinit
        cases hinit
      · rw [h] at hinit
        cases hinit
        exact hs
    have hinv := htr.invariant hinv₀ fun s a b s' _ hs hstep => (step_inv hs hstep).2
    exact ⟨hinv.indices_perm,hinv.apart,fun a s' hstep => (step_inv hinv hstep).1 rfl⟩

def outcomes (built : Built) (ops : List Op) : Option (List Outcome) :=
  match built with
  | .ready init => (exec step (fun _ _ => True) init ops).map Prod.fst
  | _ => none

theorem outcomes_spec {built : Built} {ops : List Op} {outs : List Outcome} (h : outcomes built ops = some outs) :
    ∃ init s, built = .ready init ∧ Trace step (fun _ _ => True) init (ops.zip outs) s := by
  cases built with
  | exit => cases h
  | bugOn => cases h
  | ready init =>
    obtain ⟨⟨_,s⟩,hexec,rfl⟩ := Option.map_eq_some_iff.mp h
    exact ⟨init,s,rfl,exec_trace hexec⟩

/-- A core fills its region and takes another one; the collector finds the full region busy once,
picks it and frees it. -/
theorem regions_conserved_one_round : ∃ init tr s,
    regionManager (64*2^20) true (2^30) = .ready init ∧ Trace step (fun _ _ => True) init tr s ∧
      tr.map Prod.snd = [.refilled true,.cleared,.picked true,.picked false,.pushed] ∧
      (indices s).Perm (List.range (numRegions (64*2^20))) := by
  have hrun : outcomes (regionManager (64*2^20) true (2^30)) [.refill (⟨3,by decide⟩,true) true,.clear,
      .pick (fun left => decide (left < 4)) (fun _ => true) true,.pick (fun _ => true) (fun _ => true) true,.push] =
        some [.refilled true,.cleared,.picked true,.picked false,.pushed] := by decide +kernel
  obtain ⟨init,s,hbuilt,htr⟩ := outcomes_spec hrun
  exact ⟨init,_,s,hbuilt,htr,rfl,((regions_conserved (64*2^20) true (2^30)).2 init hbuilt _ s htr).1⟩

end FarMemory.RegionMoves
