import FarMemory.StridePrefetcher

/-!
# The Leap prefetcher

It differs from the stride prefetcher in what counts as a match: every stride is a vote, and it
matches if it agrees with the candidate that the votes so far have left. Two matches in a row open
the window. The counter of the vote is a 32-bit `int`, kept as its bit pattern. The strides voted
on are history, as are the opening index and what was issued.
-/
namespace FarMemory.LeapPrefetcher
open Execution StridePrefetcher

structure BoyerMooreVote (T : Type*) where
  majority : T
  count : ℕ := 0

section Code
variable {T G : Type*} [DecidableEq T] [AddCommGroup G] [DecidableEq G] (kPrefetchWinSize : ℕ)

def BoyerMooreVote.isMode (v : BoyerMooreVote T) (elem : T) : Bool × BoyerMooreVote T :=
  if v.count = 0 then (true,⟨elem,v.count+1⟩)
  else if v.majority = elem then (true,{v with count := (v.count+1)%2^32})
  else (false,{v with count := v.count-1})

/-- A stream of votes; the candidate is not initialised. -/
def BoyerMooreVote.poll (majority : T) (elems : List T) : BoyerMooreVote T :=
  elems.foldl (fun v elem => (v.isMode elem).2) ⟨majority,0⟩

def kHitTimesThresh : ℕ := 2

def adjust (p : Prefetcher G) (isMode : Bool) (idx : G) : Prefetcher G :=
  let hitTimes := (p.hitTimes+1)%2^64
  if ¬ isMode then {p with hitTimes := 0, numObjsToPrefetch := 0}
  else if kHitTimesThresh ≤ hitTimes then
    if hitTimes = kHitTimesThresh then
      {p with
        hitTimes := hitTimes
        nextPrefetchIdx := infer idx p.pattern
        numObjsToPrefetch := kPrefetchWinSize}
    else {p with hitTimes := hitTimes, numObjsToPrefetch := (p.numObjsToPrefetch+1)%2^32}
  else {p with hitTimes := hitTimes}

structure State (G : Type*) extends StridePrefetcher.State G where
  bmVote : BoyerMooreVote G
  strides : List G := []

def step (s : State G) : Op G → Option (List G × State G)
  | .access idx =>
    if s.due then none
    else if idx = s.prefetcher.lastIdx then some ([],s)
    else
      let newPattern := induce s.prefetcher.lastIdx idx
      let vote := s.bmVote.isMode newPattern
      let p := {adjust kPrefetchWinSize s.prefetcher vote.1 idx with pattern := newPattern, lastIdx := idx}
      let strides := s.strides++[newPattern]
      if p.hitTimes = kHitTimesThresh then some ([],⟨⟨p,true,idx,[]⟩,vote.2,strides⟩)
      else some ([],⟨⟨p,true,s.opened,s.issued⟩,vote.2,strides⟩)
  -- Each round of the loop issues one index, as in the stride prefetcher.
  | .burst => (StridePrefetcher.step kPrefetchWinSize s.toState .burst).map fun r => (r.1,⟨r.2,s.bmVote,s.strides⟩)

def init (majority pattern lastIdx nextPrefetchIdx opened : G) : State G :=
  ⟨StridePrefetcher.init pattern lastIdx nextPrefetchIdx opened,⟨majority,0⟩,[]⟩

end Code

section Vote
variable {T : Type*} [DecidableEq T]

theorem poll_append (majority elem : T) (elems : List T) :
    BoyerMooreVote.poll majority (elems++[elem]) = ((BoyerMooreVote.poll majority elems).isMode elem).2 := by
  rw [BoyerMooreVote.poll,List.foldl_append]
  rfl

theorem poll_count_le (majority : T) (elems : List T) : (BoyerMooreVote.poll majority elems).count ≤ elems.length := by
  induction elems using List.reverseRecOn with
  | nil => rfl
  | append_singleton l x ih =>
    rw [poll_append,List.length_append,List.length_singleton]
    unfold BoyerMooreVote.isMode
    grind

/-- Votes for and against the candidate cancel out: no element has more than half of the votes
beyond what the counter says, as long as it cannot overflow. -/
theorem poll_bound (majority e : T) (elems : List T) (hlen : elems.length < 2^31) :
    2*elems.count e+(if e = (BoyerMooreVote.poll majority elems).majority then 0
      else (BoyerMooreVote.poll majority elems).count) ≤
    elems.length+(if e = (BoyerMooreVote.poll majority elems).majority then
      (BoyerMooreVote.poll majority elems).count else 0) := by
  induction elems using List.reverseRecOn with
  | nil => simp [BoyerMooreVote.poll]
  | append_singleton l x ih =>
    rw [List.length_append,List.length_singleton] at hlen
    specialize ih (by omega)
    have hcount := poll_count_le majority l
    have hwrap : ((BoyerMooreVote.poll majority l).count+1)%2^32 = (BoyerMooreVote.poll majority l).count+1 :=
      Nat.mod_eq_of_lt (by omega)
    rw [poll_append,List.count_append,List.length_append,List.count_singleton']
    unfold BoyerMooreVote.isMode
    rw [hwrap]
    split
    · grind
    · split <;> grind

/-- An element with more than half of the votes is the candidate in the end. -/
theorem majority_found (majority e : T) (elems : List T) (hlen : elems.length < 2^31)
    (h : elems.length < 2*elems.count e) :
    (BoyerMooreVote.poll majority elems).majority = e ∧ 0 < (BoyerMooreVote.poll majority elems).count := by
  have hbound := poll_bound majority e elems hlen
  split at hbound
  · exact ⟨Eq.symm ‹_›,by omega⟩
  · omega

/-- An element that matches is the candidate afterwards, and was before unless there was none. -/
theorem isMode_eq_true {v : BoyerMooreVote T} {elem : T} (hv : v.count < 2^31) (h : (v.isMode elem).1 = true) :
    (v.isMode elem).2.majority = elem ∧ 1 ≤ (v.isMode elem).2.count ∧ (1 ≤ v.count → v.majority = elem) := by
  have hwrap : (v.count+1)%2^32 = v.count+1 := Nat.mod_eq_of_lt (by omega)
  unfold BoyerMooreVote.isMode at *
  rw [hwrap] at *
  grind

end Vote

section Window
variable {G : Type*} [AddCommGroup G] [DecidableEq G] {W : ℕ} {s s' : State G} {out : List G} {majority : G}

structure Inv (W : ℕ) (majority : G) (s : State G) : Prop where
  poll : s.bmVote = .poll majority s.strides
  candidate : 1 ≤ s.prefetcher.hitTimes → 1 ≤ s.bmVote.count ∧ s.bmVote.majority = s.prefetcher.pattern
  window : kHitTimesThresh ≤ s.prefetcher.hitTimes → Window W s.toState

theorem Inv.access (hW : W < 2^32) (hlen : s.strides.length < 2^31) (h : Inv W majority s) {idx : G}
    (hs : step W s (.access idx) = some (out,s')) : Inv W majority s' := by
  rw [step] at hs
  by_cases hdue : s.due
  · rw [if_pos hdue] at hs
    cases hs
  rw [if_neg hdue] at hs
  split at hs
  · cases hs
    exact h
  have hpoll : (s.bmVote.isMode (induce s.prefetcher.lastIdx idx)).2 =
      .poll majority (s.strides++[induce s.prefetcher.lastIdx idx]) := by
    rw [poll_append,← h.poll]
  dsimp only at hs
  rcases hmode : (s.bmVote.isMode (induce s.prefetcher.lastIdx idx)).1
  · rw [hmode,adjust,if_pos Bool.false_ne_true] at hs
    cases hs
    exact ⟨hpoll,fun h0 => absurd h0 (Nat.not_succ_le_zero _),fun h0 => absurd h0 (Nat.not_succ_le_zero _)⟩
  have hvotes : s.bmVote.count < 2^31 := by
    rw [h.poll]
    exact (poll_count_le majority s.strides).trans_lt hlen
  obtain ⟨hmajority,hcount,hsame⟩ := isMode_eq_true hvotes hmode
  have hle := Nat.mod_le (s.prefetcher.hitTimes+1) (2^64)
  rw [hmode,adjust,if_neg (not_not.mpr rfl)] at hs
  by_cases hge : kHitTimesThresh ≤ (s.prefetcher.hitTimes+1)%2^64
  swap
  · rw [if_neg hge,if_neg (Nat.ne_of_lt (Nat.lt_of_not_le hge))] at hs
    cases hs
    exact ⟨hpoll,fun _ => ⟨hcount,hmajority⟩,fun h2 => absurd h2 hge⟩
  -- The last access matched too, so that its stride was the candidate.
  have hbefore := h.candidate (by unfold kHitTimesThresh at hge; omega)
  have hpattern : s.prefetcher.pattern = induce s.prefetcher.lastIdx idx := hbefore.2.symm.trans (hsame hbefore.1)
  rw [if_pos hge] at hs
  by_cases heq : (s.prefetcher.hitTimes+1)%2^64 = kHitTimesThresh
  · rw [if_pos heq,if_pos heq] at hs
    cases hs
    exact ⟨hpoll,fun _ => ⟨hcount,hmajority⟩,fun _ => .opening rfl (congrArg (idx+·) hpattern) rfl⟩
  · rw [if_neg heq,if_neg heq] at hs
    cases hs
    refine ⟨hpoll,fun _ => ⟨hcount,hmajority⟩,fun _ => (h.window (by omega)).lengthened hW hdue hpattern.symm ?_ rfl rfl⟩
    exact (add_sub_cancel _ _).symm

theorem Inv.burst (hW : 1 ≤ W) (h : Inv W majority s) (hs : step W s .burst = some (out,s')) : Inv W majority s' := by
  cases hs
  obtain ⟨hpoll,hcandidate,hwindow⟩ := h
  refine ⟨hpoll,?_,fun h2 => ?_⟩
  · dsimp only
    rwa [Prefetcher.generatePrefetchTasks,(issue_spec _ _).2]
  · refine (hwindow ?_).burst hW rfl
    rwa [Prefetcher.generatePrefetchTasks,(issue_spec _ _).2] at h2

theorem step_strides {op : Op G} (hs : step W s op = some (out,s')) : s.strides.length ≤ s'.strides.length := by
  cases op with
  | burst =>
    cases hs
    exact le_rfl
  | access idx =>
    rw [step] at hs
    dsimp only at hs
    split_ifs at hs <;> cases hs <;> simp

end Window

/-- In every run of fewer than `2^31` strides one that makes up more than half of them is the
candidate of the vote. Two matches in a row suffice for an exact window, which follows the candidate: it ends one
stride behind `W` strides from the last index, what was issued since it was opened are the indices
behind the opening one in order, and what a burst issues next is at most the window ahead. -/
theorem leap_window_exact {G : Type*} [AddCommGroup G] [DecidableEq G] {W : ℕ} (hW : 1 ≤ W) (hW32 : W < 2^32)
    {majority pattern lastIdx nextPrefetchIdx opened : G} {tr : List (Op G × List G)} {s : State G}
    (h : Trace (step W) (fun _ _ => True) (init majority pattern lastIdx nextPrefetchIdx opened) tr s)
    (hlen : s.strides.length < 2^31) :
    (∀ stride, s.strides.length < 2*s.strides.count stride → s.bmVote.majority = stride ∧ 0 < s.bmVote.count) ∧
      (kHitTimesThresh ≤ s.prefetcher.hitTimes →
        s.prefetcher.pattern = s.bmVote.majority ∧
        (s.prefetcher.nextPrefetchIdx+s.prefetcher.numObjsToPrefetch•s.prefetcher.pattern =
          s.prefetcher.lastIdx+(W+1)•s.prefetcher.pattern ∧ s.prefetcher.numObjsToPrefetch ≤ W) ∧
        s.issued = strided (s.opened+s.prefetcher.pattern) s.prefetcher.pattern s.issued.length ∧
        ∀ out s', step W s .burst = some (out,s') →
          ∀ idx ∈ out, ∃ m, 1 ≤ m ∧ m ≤ W ∧ idx = s.prefetcher.lastIdx+m•s.prefetcher.pattern) := by
  have hinit : Inv W majority (init majority pattern lastIdx nextPrefetchIdx opened) :=
    ⟨rfl,fun h0 => absurd h0 (Nat.not_succ_le_zero _),fun h0 => absurd h0 (Nat.not_succ_le_zero _)⟩
  have hinv : Inv W majority s := by
    refine h.invariant (I := fun s => s.strides.length < 2^31 → Inv W majority s) (fun _ => hinit) ?_ hlen
    intro s op out s' _ hi hs hlen'
    have hbefore := (step_strides hs).trans_lt hlen'
    cases op with
    | access idx => exact (hi hbefore).access hW32 hbefore hs
    | burst => exact (hi hbefore).burst hW hs
  refine ⟨fun stride hmost => ?_,fun hhit => ?_⟩
  · rw [hinv.poll]
    exact majority_found majority stride s.strides hlen hmost
  · have hw := hinv.window hhit
    refine ⟨(hinv.candidate (le_trans (by decide) hhit)).2.symm,
      ⟨hw.balance,le_trans (Nat.le_add_right _ _) hw.room⟩,hw.log,fun out s' hs idx hidx => ?_⟩
    cases hs
    exact hw.ahead rfl hidx

/-- With 64-bit indices: a stray access among strides of three closes the window, but does not
change the candidate. -/
theorem leap_window_exact_three : ∃ tr s, Trace (step 20) (fun _ _ => True) (init (0 : BitVec 64) 0 0 0 0) tr s ∧
    s.strides = [3,3,91,3,3] ∧ s.prefetcher.hitTimes = 2 ∧ s.bmVote.majority = 3 ∧ s.prefetcher.pattern = 3 ∧
      s.prefetcher.numObjsToPrefetch ≤ 20 := by
  have hrun : (exec (step 20) (fun _ _ => True) (init (0 : BitVec 64) 0 0 0 0)
      ([3,6,97,100,103].flatMap fun i => [.access i,.burst])).map
      (fun r => (r.2.strides,r.2.prefetcher.hitTimes)) = some ([3,3,91,3,3],2) := by decide +kernel
  obtain ⟨outs,s,ht,hobs⟩ := exec_observe hrun
  simp only [Prod.mk.injEq] at hobs
  obtain ⟨hmost,hwindow⟩ := leap_window_exact (by decide) (by decide) ht (by rw [hobs.1]; decide)
  have hcandidate := (hmost 3 (by rw [hobs.1]; decide)).1
  obtain ⟨hpattern,⟨-,hroom⟩,-⟩ := hwindow (by rw [hobs.2]; decide)
  exact ⟨_,s,ht,hobs.1,hobs.2,hcandidate,hpattern.trans hcandidate,hroom⟩

end FarMemory.LeapPrefetcher
