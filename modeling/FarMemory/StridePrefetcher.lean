import FarMemory.Execution

/-!
# The window of the stride prefetcher

The prefetching thread compares each accessed index with the one before. When the same
stride came often enough it opens a window behind the current index, and every further
match lengthens it by one object; bursts issue what is left of the window, a few objects
at a time. Indices and strides are taken from a commutative group, which for the code's
64-bit indices is `BitVec 64`.
-/
namespace FarMemory.StridePrefetcher
open Execution

structure Prefetcher (G : Type*) where
  pattern : G
  lastIdx : G
  nextPrefetchIdx : G
  hitTimes : ℕ := 0
  numObjsToPrefetch : ℕ := 0

def kHitTimesThresh : ℕ := 8

def kGenTasksBurstSize : ℕ := 8

section Code
variable {G : Type*} [AddCommGroup G] [DecidableEq G] (kPrefetchWinSize : ℕ)

def induce (idx₀ idx₁ : G) : G := idx₁-idx₀

def infer (idx stride : G) : G := idx+stride

/-- The matches are counted and the window is opened or lengthened. -/
def Prefetcher.adjust (p : Prefetcher G) (idx newPattern : G) : Prefetcher G :=
  let hitTimes := (p.hitTimes+1)%2^64
  if p.pattern ≠ newPattern then {p with hitTimes := 0, numObjsToPrefetch := 0}
  else if kHitTimesThresh ≤ hitTimes then
    if hitTimes = kHitTimesThresh then
      {p with
        hitTimes := hitTimes
        nextPrefetchIdx := infer idx p.pattern
        numObjsToPrefetch := kPrefetchWinSize}
    else {p with hitTimes := hitTimes, numObjsToPrefetch := (p.numObjsToPrefetch+1)%2^32}
  else {p with hitTimes := hitTimes}

/-- An access that was traced, if it is not the last one again. -/
def Prefetcher.process (p : Prefetcher G) (idx : G) : Prefetcher G :=
  let newPattern := induce p.lastIdx idx
  {p.adjust kPrefetchWinSize idx newPattern with pattern := newPattern, lastIdx := idx}

/-- At most so many rounds of the loop of a burst, with the indices they issue. -/
def Prefetcher.issue : ℕ → Prefetcher G → List G × Prefetcher G
  | 0,p => ([],p)
  | n+1,p =>
    if p.numObjsToPrefetch = 0 then ([],p)
    else
      let r := Prefetcher.issue n {p with
        numObjsToPrefetch := p.numObjsToPrefetch-1
        nextPrefetchIdx := infer p.nextPrefetchIdx p.pattern}
      (p.nextPrefetchIdx::r.1,r.2)

def Prefetcher.generatePrefetchTasks (p : Prefetcher G) : List G × Prefetcher G := p.issue kGenTasksBurstSize

/-- The prefetching thread. Whether an access still has to be followed by its burst is
its place in the loop; the last two fields are history: the index at which the window was
opened and the indices issued since. -/
structure State (G : Type*) where
  prefetcher : Prefetcher G
  due : Bool := false
  opened : G
  issued : List G := []

inductive Op (G : Type*)
  | access (idx : G)
  | burst

def step (s : State G) : Op G → Option (List G × State G)
  | .access idx =>
    if s.due then none
    else if idx = s.prefetcher.lastIdx then some ([],s)
    else
      let p := s.prefetcher.process kPrefetchWinSize idx
      if p.hitTimes = kHitTimesThresh then some ([],⟨p,true,idx,[]⟩)
      else some ([],⟨p,true,s.opened,s.issued⟩)
  | .burst =>
    let r := s.prefetcher.generatePrefetchTasks
    some (r.1,⟨r.2,false,s.opened,s.issued++r.1⟩)

/-- The pattern and the indices are not initialised. -/
def init (pattern lastIdx nextPrefetchIdx opened : G) : State G :=
  ⟨⟨pattern,lastIdx,nextPrefetchIdx,0,0⟩,false,opened,[]⟩

end Code

section Burst
variable {G : Type*} [AddCommGroup G]

/-- So many indices from one on, a stride apart. -/
def strided (start stride : G) (n : ℕ) : List G := (List.range n).map fun i => start+i•stride

theorem strided_succ (start stride : G) (n : ℕ) :
    strided start stride (n+1) = start::strided (start+stride) stride n := by
  unfold strided
  rw [List.range_succ_eq_map,List.map_cons,List.map_map,zero_nsmul,add_zero]
  congr 1
  refine List.map_congr_left fun i _ => ?_
  simp only [Function.comp_apply]
  rw [succ_nsmul']
  abel

theorem strided_append (start stride : G) (m n : ℕ) :
    strided start stride m++strided (start+m•stride) stride n = strided start stride (m+n) := by
  induction m generalizing start with
  | zero => simp [strided]
  | succ m ih =>
    rw [strided_succ,List.cons_append,Nat.succ_add,strided_succ,← ih (start+stride)]
    congr 3
    rw [succ_nsmul']
    abel

/-- Indices a stride apart differ as long as they do not go round. -/
theorem strided_nodup {start stride : G} {n : ℕ} (h : ∀ m, 0 < m → m < n → m•stride ≠ 0) :
    (strided start stride n).Nodup := by
  have hle : ∀ i j, i ≤ j → j < n → start+i•stride = start+j•stride → i = j := by
    intro i j hij hj heq
    by_contra hne
    rw [← Nat.add_sub_cancel' hij,add_nsmul] at heq
    refine h (j-i) (by omega) (by omega) ?_
    exact left_eq_add.mp (add_left_cancel heq)
  refine List.Nodup.map_on (fun i hi j hj heq => ?_) List.nodup_range
  rw [List.mem_range] at hi hj
  rcases le_total i j with hij | hji
  · exact hle i j hij hj heq
  · exact (hle j i hji hi heq.symm).symm

theorem issue_spec (n : ℕ) (p : Prefetcher G) :
    (p.issue n).1 = strided p.nextPrefetchIdx p.pattern (min n p.numObjsToPrefetch) ∧
      (p.issue n).2 = {p with
        numObjsToPrefetch := p.numObjsToPrefetch-n
        nextPrefetchIdx := p.nextPrefetchIdx+min n p.numObjsToPrefetch•p.pattern} := by
  induction n generalizing p with
  | zero => simp [Prefetcher.issue,strided]
  | succ n ih =>
    rw [Prefetcher.issue]
    by_cases h0 : p.numObjsToPrefetch = 0
    · rw [if_pos h0]
      cases p
      simp_all [strided]
    · rw [if_neg h0]
      have hmin : min (n+1) p.numObjsToPrefetch = min n (p.numObjsToPrefetch-1)+1 := by omega
      obtain ⟨hissued,hleft⟩ := ih {p with
        numObjsToPrefetch := p.numObjsToPrefetch-1
        nextPrefetchIdx := infer p.nextPrefetchIdx p.pattern}
      rw [hmin,strided_succ]
      refine ⟨congrArg _ hissued,?_⟩
      rw [hleft,succ_nsmul']
      simp only [infer,Prefetcher.mk.injEq,true_and]
      exact ⟨by abel,by omega⟩

end Burst

section Window
variable {G : Type*} [AddCommGroup G] [DecidableEq G] {W : ℕ} {s s' : State G} {op : Op G} {out : List G}

/-- What an access can do: leave the matches below the threshold, open the window or
lengthen it. -/
theorem adjust_cases (W : ℕ) (p : Prefetcher G) (idx newPattern : G) :
    (p.adjust W idx newPattern).hitTimes < kHitTimesThresh ∨
      (p.adjust W idx newPattern).hitTimes = kHitTimesThresh ∧
        (p.adjust W idx newPattern).nextPrefetchIdx = idx+newPattern ∧
        (p.adjust W idx newPattern).numObjsToPrefetch = W ∨
      ((p.adjust W idx newPattern).hitTimes ≠ kHitTimesThresh ∧ kHitTimesThresh ≤ p.hitTimes ∧ p.pattern = newPattern) ∧
        (p.adjust W idx newPattern).nextPrefetchIdx = p.nextPrefetchIdx ∧
        (p.adjust W idx newPattern).numObjsToPrefetch = (p.numObjsToPrefetch+1)%2^32 := by
  unfold Prefetcher.adjust
  by_cases hpat : p.pattern = newPattern
  swap
  · rw [if_pos hpat]
    exact .inl (by simp [kHitTimesThresh])
  rw [if_neg (not_not.mpr hpat)]
  by_cases hge : kHitTimesThresh ≤ (p.hitTimes+1)%2^64
  swap
  · rw [if_neg hge]
    exact .inl (Nat.lt_of_not_le hge)
  rw [if_pos hge]
  by_cases heq : (p.hitTimes+1)%2^64 = kHitTimesThresh
  · rw [if_pos heq]
    exact .inr (.inl ⟨heq,congrArg (idx+·) hpat,rfl⟩)
  · rw [if_neg heq]
    have hbefore : kHitTimesThresh ≤ p.hitTimes := by
      have := Nat.mod_le (p.hitTimes+1) (2^64)
      omega
    exact .inr (.inr ⟨⟨heq,hbefore,hpat⟩,rfl,rfl⟩)

/-- An open window: it ends one stride behind its length from the last index, there is
room in it for the next match once the burst is over, and what was issued since it was
opened are the indices behind the first, each once. -/
structure Window (W : ℕ) (s : State G) : Prop where
  balance : s.prefetcher.nextPrefetchIdx+s.prefetcher.numObjsToPrefetch•s.prefetcher.pattern =
    s.prefetcher.lastIdx+(W+1)•s.prefetcher.pattern
  room : s.prefetcher.numObjsToPrefetch+(if s.due then 0 else 1) ≤ W
  next : s.prefetcher.nextPrefetchIdx = s.opened+(s.issued.length+1)•s.prefetcher.pattern
  log : s.issued = strided (s.opened+s.prefetcher.pattern) s.prefetcher.pattern s.issued.length

omit [DecidableEq G] in
theorem Window.opening {p : Prefetcher G} {idx : G} (hlast : p.lastIdx = idx)
    (hnext : p.nextPrefetchIdx = idx+p.pattern) (hnum : p.numObjsToPrefetch = W) : Window W ⟨p,true,idx,[]⟩ := by
  refine ⟨?_,hnum.le,hnext.trans (congrArg (idx+·) (one_nsmul _).symm),rfl⟩
  rw [hnext,hnum,hlast,succ_nsmul']
  exact add_assoc _ _ _

omit [DecidableEq G] in
theorem Window.lengthened (hW : W < 2^32) (h : Window W s) (hdue : ¬ s.due) {p : Prefetcher G}
    (hpattern : p.pattern = s.prefetcher.pattern) (hlast : p.lastIdx = s.prefetcher.lastIdx+p.pattern)
    (hnext : p.nextPrefetchIdx = s.prefetcher.nextPrefetchIdx)
    (hnum : p.numObjsToPrefetch = (s.prefetcher.numObjsToPrefetch+1)%2^32) :
    Window W ⟨p,true,s.opened,s.issued⟩ := by
  obtain ⟨hbalance,hroom,hplace,hlog⟩ := h
  rw [if_neg hdue] at hroom
  rw [Nat.mod_eq_of_lt (by omega)] at hnum
  rw [← hpattern] at hbalance hplace hlog
  refine ⟨?_,(Nat.le_of_eq hnum).trans hroom,hnext.trans hplace,hlog⟩
  rw [hnext,hnum,hlast,succ_nsmul,← add_assoc,hbalance]
  abel

theorem Window.access (hW : W < 2^32) (h : kHitTimesThresh ≤ s.prefetcher.hitTimes → Window W s) {idx : G}
    (hs : step W s (.access idx) = some (out,s')) (hhit : kHitTimesThresh ≤ s'.prefetcher.hitTimes) : Window W s' := by
  rw [step] at hs
  by_cases hdue : s.due
  · rw [if_pos hdue] at hs
    cases hs
  rw [if_neg hdue] at hs
  split at hs
  · cases hs
    exact h hhit
  change (if (s.prefetcher.adjust W idx (induce s.prefetcher.lastIdx idx)).hitTimes = kHitTimesThresh then _ else _) =
    some (out,s') at hs
  rcases adjust_cases W s.prefetcher idx (induce s.prefetcher.lastIdx idx) with
    hlow | ⟨heq,hnext,hnum⟩ | ⟨⟨hne,hbefore,hsame⟩,hnext,hnum⟩
  · rw [if_neg hlow.ne] at hs
    cases hs
    exact absurd hlow (Nat.not_lt_of_le hhit)
  · rw [if_pos heq] at hs
    cases hs
    exact .opening rfl hnext hnum
  · rw [if_neg hne] at hs
    cases hs
    exact (h hbefore).lengthened hW hdue hsame.symm (add_sub_cancel _ _).symm hnext hnum

theorem Window.burst (hW : 1 ≤ W) (h : Window W s) (hs : step W s .burst = some (out,s')) : Window W s' := by
  cases hs
  obtain ⟨hissued,hleft⟩ := issue_spec kGenTasksBurstSize s.prefetcher
  have hroom : s.prefetcher.numObjsToPrefetch ≤ W := le_trans (Nat.le_add_right _ _) h.room
  have hmin : min kGenTasksBurstSize s.prefetcher.numObjsToPrefetch+(s.prefetcher.numObjsToPrefetch-kGenTasksBurstSize) =
      s.prefetcher.numObjsToPrefetch := by omega
  unfold Prefetcher.generatePrefetchTasks
  rw [hissued,hleft]
  have hlength : (s.issued++strided s.prefetcher.nextPrefetchIdx s.prefetcher.pattern
      (min kGenTasksBurstSize s.prefetcher.numObjsToPrefetch)).length =
      s.issued.length+min kGenTasksBurstSize s.prefetcher.numObjsToPrefetch := by
    rw [List.length_append,strided,List.length_map,List.length_range]
  refine ⟨?_,?_,?_,?_⟩
  · dsimp only
    rw [add_assoc,← add_nsmul,hmin,h.balance]
  · dsimp only
    rw [if_neg Bool.false_ne_true]
    unfold kGenTasksBurstSize
    omega
  · dsimp only
    rw [hlength,h.next,add_assoc,← add_nsmul]
    congr 2
    omega
  · dsimp only
    rw [hlength,← strided_append,← h.log,h.next,succ_nsmul']
    rw [← add_assoc]

theorem Window.ahead (h : Window W s) (hs : step W s .burst = some (out,s')) {idx : G} (hidx : idx ∈ out) :
    ∃ m, 1 ≤ m ∧ m ≤ W ∧ idx = s.prefetcher.lastIdx+m•s.prefetcher.pattern := by
  cases hs
  have hroom : s.prefetcher.numObjsToPrefetch ≤ W := le_trans (Nat.le_add_right _ _) h.room
  rw [Prefetcher.generatePrefetchTasks,(issue_spec _ _).1,strided,List.mem_map] at hidx
  obtain ⟨i,hi,rfl⟩ := hidx
  rw [List.mem_range] at hi
  refine ⟨W+1-s.prefetcher.numObjsToPrefetch+i,by omega,by omega,?_⟩
  have hsum : W+1 = W+1-s.prefetcher.numObjsToPrefetch+s.prefetcher.numObjsToPrefetch := by omega
  have hbalance := h.balance
  rw [hsum,add_nsmul,← add_assoc] at hbalance
  rw [add_right_cancel hbalance,add_nsmul,add_assoc]

end Window

/-- In every state that is reached with enough matches the window is exact: it ends one
stride behind `W` strides from the last index, and no more than its length is still to be
issued. Since the window was opened the indices behind the opening one were issued in
order, each position once, so that none came twice unless the strides go round the whole
index space. What a burst issues next is at most the window ahead. -/
theorem stride_window_exact {G : Type*} [AddCommGroup G] [DecidableEq G] {W : ℕ} (hW : 1 ≤ W) (hW32 : W < 2^32)
    {pattern lastIdx nextPrefetchIdx opened : G} {tr : List (Op G × List G)} {s : State G}
    (h : Trace (step W) (fun _ _ => True) (init pattern lastIdx nextPrefetchIdx opened) tr s)
    (hhit : kHitTimesThresh ≤ s.prefetcher.hitTimes) :
    (s.prefetcher.nextPrefetchIdx+s.prefetcher.numObjsToPrefetch•s.prefetcher.pattern =
        s.prefetcher.lastIdx+(W+1)•s.prefetcher.pattern ∧ s.prefetcher.numObjsToPrefetch ≤ W) ∧
      (s.issued = strided (s.opened+s.prefetcher.pattern) s.prefetcher.pattern s.issued.length ∧
        ((∀ m, 0 < m → m < s.issued.length → m•s.prefetcher.pattern ≠ 0) → s.issued.Nodup)) ∧
      ∀ out s', step W s .burst = some (out,s') →
        ∀ idx ∈ out, ∃ m, 1 ≤ m ∧ m ≤ W ∧ idx = s.prefetcher.lastIdx+m•s.prefetcher.pattern := by
  have hwindow : kHitTimesThresh ≤ s.prefetcher.hitTimes → Window W s := by
    refine h.invariant (I := fun s => kHitTimesThresh ≤ s.prefetcher.hitTimes → Window W s) ?_ ?_
    · exact fun hge => absurd hge (by change ¬ kHitTimesThresh ≤ 0; decide)
    · intro s op out s' _ hs hstep hge
      cases op with
      | access idx => exact Window.access hW32 hs hstep hge
      | burst =>
        refine (hs ?_).burst hW hstep
        cases hstep
        rwa [Prefetcher.generatePrefetchTasks,(issue_spec _ _).2] at hge
  have hw := hwindow hhit
  refine ⟨⟨hw.balance,le_trans (Nat.le_add_right _ _) hw.room⟩,⟨hw.log,fun hround => ?_⟩,fun out s' hs idx => hw.ahead hs⟩
  rw [hw.log]
  exact strided_nodup hround

/-- With 64-bit indices: nine accesses three apart open a window of twenty and two bursts
follow; ten more matches lengthen it. -/
theorem stride_window_exact_three : ∃ tr s,
    Trace (step 20) (fun _ _ => True) (init (0 : BitVec 64) 0 0 0) tr s ∧ s.prefetcher.hitTimes = 18 ∧
      s.issued.length = 30 ∧ s.prefetcher.numObjsToPrefetch ≤ 20 ∧
      s.prefetcher.nextPrefetchIdx+s.prefetcher.numObjsToPrefetch•s.prefetcher.pattern =
        s.prefetcher.lastIdx+21•s.prefetcher.pattern := by
  have hrun : (exec (step 20) (fun _ _ => True) (init (0 : BitVec 64) 0 0 0)
      ((List.range 19).flatMap fun i => [.access (3*BitVec.ofNat 64 (i+1)),.burst,.burst])).map
      (fun r => (r.2.prefetcher.hitTimes,r.2.issued.length)) = some (18,30) := by decide +kernel
  obtain ⟨outs,s,ht,hobs⟩ := exec_observe hrun
  simp only [Prod.mk.injEq] at hobs
  have hw := stride_window_exact (by decide) (by decide) ht (by rw [hobs.1]; decide)
  exact ⟨_,s,ht,hobs.1,hobs.2,hw.1.2,hw.1.1⟩

end FarMemory.StridePrefetcher
