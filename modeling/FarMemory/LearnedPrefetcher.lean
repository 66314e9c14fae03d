import FarMemory.TrendHistory
import FarMemory.StridePrefetcher

/-!
# The learned prefetcher

The prefetching thread hands every stride to the trend predictor. When the trend changes
the prefetcher starts over behind the current index; when a stride follows the trend the
position up to which it has predicted moves back by one, since the trend itself moves on.
That is right only if the position belongs to this trend: a prediction that fails leaves
it, and the index it belongs to, as they were.
-/
namespace FarMemory.LearnedPrefetcher
open Execution TrendPredictor

/-- The window of the predictor, not the one of the prefetcher. -/
def kMaxWinSize : ℕ := 32

structure Prefetcher (G : Type*) where
  trendPredictor : Predictor G
  predictPos : ℕ := 0
  lastIdx : G
  numObjsToPrefetch : ℕ := 0
  nextPrefetchIdx : G

section Code
variable {G : Type*} [AddCommGroup G] [DecidableEq G] (kPrefetchWinSize : ℕ)

/-- What a new stride does to the fields of the prefetcher. -/
def Prefetcher.adjust (p : Prefetcher G) (trendPredictor : Predictor G) (idx : G) : Prefetcher G :=
  if ¬ trendPredictor.matchTrend then {p with numObjsToPrefetch := 0}
  else if trendPredictor.trendChanged then
    {p with predictPos := 0, nextPrefetchIdx := idx, numObjsToPrefetch := kPrefetchWinSize}
  else {p with predictPos := (p.predictPos+(2^64-1))%2^64, numObjsToPrefetch := (p.numObjsToPrefetch+1)%2^32}

/-- An access that was traced, if it is not the last one again. -/
def Prefetcher.process (p : Prefetcher G) (idx : G) : Prefetcher G :=
  let trendPredictor := p.trendPredictor.addHistory kMaxWinSize (StridePrefetcher.induce p.lastIdx idx)
  {p.adjust kPrefetchWinSize trendPredictor idx with trendPredictor := trendPredictor, lastIdx := idx}

/-- At most so many rounds of the loop of a burst, with the indices they issue; nothing if
the trend has no length. -/
def Prefetcher.issue : ℕ → Prefetcher G → Option (List G × Prefetcher G)
  | 0,p => some ([],p)
  | n+1,p =>
    if p.numObjsToPrefetch = 0 then some ([],p)
    else
      match p.trendPredictor.getTrend kMaxWinSize p.predictPos with
      | none => none
      | some pat =>
        let idx := StridePrefetcher.infer p.nextPrefetchIdx pat
        (Prefetcher.issue n {p with
          numObjsToPrefetch := p.numObjsToPrefetch-1
          predictPos := (p.predictPos+1)%2^64
          nextPrefetchIdx := idx}).map fun r => (idx::r.1,r.2)

def Prefetcher.generatePrefetchTasks (p : Prefetcher G) : Option (List G × Prefetcher G) :=
  p.issue StridePrefetcher.kGenTasksBurstSize

/-- The prefetching thread, and whether an access still has to be followed by its burst. -/
structure State (G : Type*) where
  prefetcher : Prefetcher G
  due : Bool := false

def step (s : State G) : StridePrefetcher.Op G → Option (List G × State G)
  | .access idx =>
    if s.due then none
    else if idx = s.prefetcher.lastIdx then some ([],s)
    else some ([],⟨s.prefetcher.process kPrefetchWinSize idx,true⟩)
  | .burst => s.prefetcher.generatePrefetchTasks.map fun r => (r.1,⟨r.2,false⟩)

/-- The ring of the predictor and the indices are not initialised. -/
def init (junk : ℕ → G) (lastIdx nextPrefetchIdx : G) : State G :=
  ⟨⟨TrendPredictor.init junk,0,lastIdx,0,nextPrefetchIdx⟩,false⟩

/-- The index that the trend predicts so many accesses ahead. -/
def Prefetcher.predicted (p : Prefetcher G) (n : ℕ) : G :=
  p.lastIdx+∑ j ∈ Finset.range n, (p.trendPredictor.getTrend kMaxWinSize j).getD 0

/-- The next index to issue is the one predicted at the position, and the position and the
number still to be issued make up the window. -/
def Prefetcher.Aligned (p : Prefetcher G) : Prop :=
  p.nextPrefetchIdx = p.predicted p.predictPos ∧ p.predictPos+p.numObjsToPrefetch = kPrefetchWinSize

instance (p : Prefetcher G) : Decidable (p.Aligned kPrefetchWinSize) := inferInstanceAs (Decidable (_ ∧ _))

/-- What keeps the prefetcher aligned, as a condition on the state before an access: a
stride that follows the trend does so after a prediction that succeeded and with room in
the window, or the position left from before happens to fit. -/
def Ok (s : State G) : StridePrefetcher.Op G → Prop
  | .access idx =>
    let p := s.prefetcher
    idx ≠ p.lastIdx → p.trendPredictor.trendLen ≠ 0 →
      p.trendPredictor.Follows kMaxWinSize (StridePrefetcher.induce p.lastIdx idx) →
      1 ≤ kPrefetchWinSize ∧ p.trendPredictor.matchTrend = true ∨
        1 ≤ p.predictPos ∧ p.Aligned kPrefetchWinSize
  | .burst => True

instance (s : State G) (op : StridePrefetcher.Op G) : Decidable (Ok kPrefetchWinSize s op) :=
  match op with
  | .access _ => inferInstanceAs (Decidable (_ → _ → _ → _ ∨ _))
  | .burst => inferInstanceAs (Decidable True)

end Code

section Ring
variable {T : Type*} {W : ℕ} {p : Predictor T} {history : T}

/-- The trend ends where the next stride will be stored, counted around the ring. -/
structure Ring (W : ℕ) (p : Predictor T) : Prop where
  next : p.nextHistoryIndex < kHistorySize W
  short : p.trendLen ≤ W
  trend : p.trendLen ≠ 0 → addIndex W p.trendBeginIndex (p.posInTrend+p.trendLen) = p.nextHistoryIndex

theorem addIndex_ne {index d e : ℕ} (hlt : d < e) (hle : e ≤ d+W) : addIndex W index d ≠ addIndex W index e := by
  intro heq
  unfold addIndex kHistorySize at heq
  have hdvd : W+1 ∣ index+e-(index+d) := (Nat.modEq_iff_dvd' (by omega)).mp heq
  have := Nat.le_of_dvd (by omega) hdvd
  omega

theorem Ring.follows_record (h : Ring W p) (hlen : p.trendLen ≠ 0) :
    (p.record W history).Follows W history ↔ p.Follows W history := by
  have hne : addIndex W p.trendBeginIndex p.posInTrend ≠ p.nextHistoryIndex := by
    rw [← h.trend hlen]
    exact addIndex_ne (by omega) (Nat.add_le_add_left h.short _)
  unfold Predictor.Follows
  change history = Function.update p.histories p.nextHistoryIndex history
    (addIndex W p.trendBeginIndex p.posInTrend) ↔ _
  rw [Function.update_of_ne hne]

theorem restart_trend (p : Predictor T) (hW : 1 ≤ W) {found : Option ℕ} (hfound : ∀ k, found = some k → k < kHistorySize W) :
    (p.restart W found).trendLen ≤ W ∧ addIndex W (p.restart W found).trendBeginIndex
      ((p.restart W found).posInTrend+(p.restart W found).trendLen) = addIndex W p.nextHistoryIndex 1 := by
  cases found with
  | none => exact ⟨hW,rfl⟩
  | some k =>
    have hk := hfound k rfl
    refine ⟨Nat.le_of_lt_succ (Nat.mod_lt _ W.succ_pos),?_⟩
    change (k+(1+(p.nextHistoryIndex+kHistorySize W-k)%kHistorySize W))%kHistorySize W =
      (p.nextHistoryIndex+1)%kHistorySize W
    rw [← Nat.add_assoc,Nat.add_mod_mod,show k+1+(p.nextHistoryIndex+kHistorySize W-k) =
      p.nextHistoryIndex+1+kHistorySize W by omega,Nat.add_mod_right]

end Ring

section Predictor
variable {T : Type*} [DecidableEq T] {W : ℕ} {p : Predictor T} {history : T}

theorem addHistory_follows (hlen : p.trendLen ≠ 0) (hf : (p.record W history).Follows W history) :
    let q := p.addHistory W history
    ((q.matchTrend = true ∧ q.trendChanged = false) ∧ q.trendLen = p.trendLen ∧
        q.nextHistoryIndex = addIndex W p.nextHistoryIndex 1) ∧
      q.histories = Function.update p.histories p.nextHistoryIndex history ∧
      ∀ d, addIndex W q.trendBeginIndex (q.posInTrend+d) = addIndex W p.trendBeginIndex (p.posInTrend+1+d) := by
  unfold Predictor.addHistory Predictor.adapt
  rw [if_neg (show (p.record W history).trendLen ≠ 0 from hlen),if_pos hf,Predictor.updatePosInTrend]
  split
  · rename_i hend
    refine ⟨⟨⟨rfl,rfl⟩,rfl,rfl⟩,rfl,fun d => ?_⟩
    change p.posInTrend+1 = p.trendLen at hend
    change addIndex W (addIndex W p.trendBeginIndex p.trendLen) (0+d) = _
    rw [addIndex_addIndex,Nat.zero_add,hend]
  · exact ⟨⟨⟨rfl,rfl⟩,rfl,rfl⟩,rfl,fun d => rfl⟩

theorem addHistory_changed (hf : ¬ (p.trendLen ≠ 0 ∧ (p.record W history).Follows W history)) :
    (p.addHistory W history).trendChanged = true := by
  unfold Predictor.addHistory Predictor.adapt
  by_cases hlen : p.trendLen = 0
  · rw [if_pos (show (p.record W history).trendLen = 0 from hlen)]
  · rw [if_neg (show (p.record W history).trendLen ≠ 0 from hlen),if_neg fun h => hf ⟨hlen,h⟩]

theorem Ring.step (hW : 1 ≤ W) (h : Ring W p) : Ring W (p.addHistory W history) := by
  by_cases hf : p.trendLen ≠ 0 ∧ (p.record W history).Follows W history
  · obtain ⟨⟨-,hlen,hnext⟩,-,hslot⟩ := addHistory_follows hf.1 hf.2
    refine ⟨addIndex_lt _ _,hlen ▸ h.short,fun _ => ?_⟩
    rw [hslot,hlen,hnext,Nat.add_right_comm,← addIndex_addIndex,h.trend hf.1]
  · unfold Predictor.addHistory Predictor.adapt
    by_cases hlen : p.trendLen = 0
    · rw [if_pos (show (p.record W history).trendLen = 0 from hlen)]
      exact ⟨addIndex_lt _ _,hW,fun _ => rfl⟩
    · rw [if_neg (show (p.record W history).trendLen ≠ 0 from hlen),if_neg fun hh => hf ⟨hlen,hh⟩]
      have hfound : ∀ k, (p.record W history).lookup W history = some k → k < kHistorySize W := fun _ => lookup_lt
      obtain ⟨hshort,htrend⟩ := restart_trend (p.record W history) hW hfound
      refine ⟨addIndex_lt _ _,hshort,fun _ => htrend.trans ?_⟩
      cases (p.record W history).lookup W history <;> rfl

/-- After a stride that follows the trend, what was predicted one further on is predicted
now, and what was predicted first was that stride. -/
theorem getTrend_follows (h : Ring W p) (hlen : p.trendLen ≠ 0) (hf : p.Follows W history) :
    p.getTrend W 0 = some history ∧ ∀ d, (p.addHistory W history).getTrend W d = p.getTrend W (d+1) := by
  obtain ⟨⟨-,hsame,-⟩,hring,hslot⟩ := addHistory_follows hlen ((h.follows_record hlen).mpr hf)
  have hshort := h.short
  refine ⟨?_,fun d => ?_⟩
  · rw [Predictor.getTrend,if_neg hlen,Nat.zero_mod,Nat.add_zero]
    exact congrArg some hf.symm
  rw [Predictor.getTrend,if_neg (hsame ▸ hlen),Predictor.getTrend,if_neg hlen,hslot,hring,hsame]
  have hd : d%p.trendLen < p.trendLen := Nat.mod_lt _ (Nat.pos_of_ne_zero hlen)
  congr 1
  by_cases hlast : d%p.trendLen+1 = p.trendLen
  · -- the last stride of the trend is the new one, which equals the first
    have hwrap : (d+1)%p.trendLen = 0 := by
      rw [← Nat.mod_add_mod,hlast,Nat.mod_self]
    rw [hwrap,Nat.add_zero,show p.posInTrend+1+d%p.trendLen = p.posInTrend+p.trendLen by omega,h.trend hlen,
      Function.update_self]
    exact hf
  · have hnext : (d+1)%p.trendLen = d%p.trendLen+1 := by
      rw [← Nat.mod_add_mod,Nat.mod_eq_of_lt (by omega)]
    have hne : addIndex W p.trendBeginIndex (p.posInTrend+1+d%p.trendLen) ≠ p.nextHistoryIndex := by
      rw [← h.trend hlen]
      exact addIndex_ne (by omega) (by omega)
    rw [hnext,Function.update_of_ne hne]
    congr 2
    omega

end Predictor

section Alignment
variable {G : Type*} [AddCommGroup G] {W : ℕ} {p q : Prefetcher G} {s : State G} {out : List G}

theorem issue_aligned (hW : W < 2^32) {n : ℕ} (h : p.Aligned W) (hs : p.issue n = some (out,q)) :
    (q.trendPredictor = p.trendPredictor ∧ q.lastIdx = p.lastIdx) ∧
      (q.Aligned W ∧ q.numObjsToPrefetch = p.numObjsToPrefetch-n) ∧
      ∀ idx ∈ out, ∃ m, 1 ≤ m ∧ m ≤ W ∧ idx = p.predicted m := by
  induction n generalizing p out with
  | zero =>
    cases hs
    exact ⟨⟨rfl,rfl⟩,⟨h,rfl⟩,fun _ hmem => absurd hmem List.not_mem_nil⟩
  | succ n ih =>
    rw [Prefetcher.issue] at hs
    by_cases h0 : p.numObjsToPrefetch = 0
    · rw [if_pos h0] at hs
      cases hs
      exact ⟨⟨rfl,rfl⟩,⟨h,by omega⟩,fun _ hmem => absurd hmem List.not_mem_nil⟩
    rw [if_neg h0] at hs
    cases hpat : p.trendPredictor.getTrend kMaxWinSize p.predictPos with
    | none =>
      rw [hpat] at hs
      cases hs
    | some pat =>
      rw [hpat] at hs
      obtain ⟨⟨rest,q'⟩,hrest,⟨⟩⟩ := Option.map_eq_some_iff.mp hs
      obtain ⟨hnext,hsum⟩ := h
      have hpos : (p.predictPos+1)%2^64 = p.predictPos+1 := Nat.mod_eq_of_lt (by omega)
      have hpredicted : StridePrefetcher.infer p.nextPrefetchIdx pat = p.predicted (p.predictPos+1) := by
        rw [StridePrefetcher.infer,hnext,Prefetcher.predicted,Prefetcher.predicted,Finset.sum_range_succ,hpat,add_assoc]
        rfl
      rw [hpos] at hrest
      obtain ⟨hsame,⟨haligned,hnum⟩,hout⟩ := ih ⟨hpredicted,by dsimp only; omega⟩ hrest
      refine ⟨hsame,⟨haligned,by rw [hnum]; dsimp only; omega⟩,fun idx hidx => ?_⟩
      rcases List.mem_cons.mp hidx with rfl | hmem
      · exact ⟨p.predictPos+1,by omega,by omega,hpredicted⟩
      · exact hout idx hmem

structure Inv (W : ℕ) (s : State G) : Prop where
  ring : Ring kMaxWinSize s.prefetcher.trendPredictor
  pos : s.prefetcher.predictPos ≤ W
  failed : s.prefetcher.trendPredictor.matchTrend = false → s.prefetcher.numObjsToPrefetch = 0
  aligned : s.prefetcher.trendPredictor.matchTrend = true → s.prefetcher.Aligned W
  begun : s.due = false → s.prefetcher.trendPredictor.matchTrend = true → 1 ≤ W → 1 ≤ s.prefetcher.predictPos

theorem Inv.room (h : Inv W s) (hdue : s.due = false) :
    s.prefetcher.numObjsToPrefetch+1 ≤ W ∨ s.prefetcher.numObjsToPrefetch = 0 := by
  cases hmatch : s.prefetcher.trendPredictor.matchTrend with
  | false => exact .inr (h.failed hmatch)
  | true =>
    have hsum := (h.aligned hmatch).2
    rcases Nat.eq_zero_or_pos W with h0 | hpos
    · omega
    · have := h.begun hdue hmatch hpos
      omega

theorem init_inv (junk : ℕ → G) (lastIdx nextPrefetchIdx : G) : Inv W (init junk lastIdx nextPrefetchIdx) where
  ring := ⟨Nat.succ_pos _,Nat.zero_le _,fun h0 => absurd rfl h0⟩
  pos := Nat.zero_le _
  failed := fun _ => rfl
  aligned := fun hmatch => by cases hmatch
  begun := fun _ hmatch => by cases hmatch

end Alignment

section Access
variable {G : Type*} [AddCommGroup G] [DecidableEq G] {W : ℕ} {p : Prefetcher G} {s s' : State G} {idx : G}
  {out : List G} {op : StridePrefetcher.Op G}

/-- A stride that follows the trend: the predictions move on together with the index. -/
theorem process_follows (h : Ring kMaxWinSize p.trendPredictor) (hlen : p.trendPredictor.trendLen ≠ 0)
    (hf : p.trendPredictor.Follows kMaxWinSize (StridePrefetcher.induce p.lastIdx idx)) :
    (p.process W idx).trendPredictor.matchTrend = true ∧
      ((p.process W idx).predictPos = (p.predictPos+(2^64-1))%2^64 ∧
        (p.process W idx).numObjsToPrefetch = (p.numObjsToPrefetch+1)%2^32 ∧
        (p.process W idx).nextPrefetchIdx = p.nextPrefetchIdx) ∧
      ∀ n, (p.process W idx).predicted n = p.predicted (n+1) := by
  obtain ⟨⟨⟨hmatch,hsame⟩,-⟩,-⟩ := addHistory_follows hlen ((h.follows_record hlen).mpr hf)
  obtain ⟨hfirst,hshift⟩ := getTrend_follows h hlen hf
  refine ⟨hmatch,?_,fun n => ?_⟩
  · have hadjust : p.adjust W _ idx = {p with
        predictPos := (p.predictPos+(2^64-1))%2^64
        numObjsToPrefetch := (p.numObjsToPrefetch+1)%2^32} :=
      (if_neg (not_not.mpr hmatch)).trans (if_neg (by rw [hsame]; exact Bool.false_ne_true))
    change (p.adjust W _ idx).predictPos = _ ∧ (p.adjust W _ idx).numObjsToPrefetch = _ ∧
      (p.adjust W _ idx).nextPrefetchIdx = _
    rw [hadjust]
    exact ⟨rfl,rfl,rfl⟩
  · change idx+∑ j ∈ Finset.range n, ((p.trendPredictor.addHistory kMaxWinSize
      (StridePrefetcher.induce p.lastIdx idx)).getTrend kMaxWinSize j).getD 0 = _
    rw [Finset.sum_congr rfl fun j _ => congrArg (Option.getD · 0) (hshift j),Prefetcher.predicted,
      Finset.sum_range_succ',hfirst,Option.getD_some,StridePrefetcher.induce]
    abel

theorem process_changed (hf : ¬ (p.trendPredictor.trendLen ≠ 0 ∧
      (p.trendPredictor.record kMaxWinSize (StridePrefetcher.induce p.lastIdx idx)).Follows kMaxWinSize
        (StridePrefetcher.induce p.lastIdx idx))) :
    ((p.process W idx).trendPredictor.matchTrend = false → (p.process W idx).numObjsToPrefetch = 0 ∧
        (p.process W idx).predictPos = p.predictPos) ∧
      ((p.process W idx).trendPredictor.matchTrend = true → (p.process W idx).Aligned W ∧
        (p.process W idx).predictPos = 0) := by
  have hchanged := addHistory_changed hf
  constructor
  · intro hmatch
    have hadjust : p.adjust W (p.process W idx).trendPredictor idx = {p with numObjsToPrefetch := 0} :=
      if_pos fun htrue => Bool.false_ne_true (hmatch.symm.trans htrue)
    change (p.adjust W (p.process W idx).trendPredictor idx).numObjsToPrefetch = 0 ∧
      (p.adjust W (p.process W idx).trendPredictor idx).predictPos = _
    rw [hadjust]
    exact ⟨rfl,rfl⟩
  · intro hmatch
    have hadjust : p.adjust W (p.process W idx).trendPredictor idx =
        {p with predictPos := 0, nextPrefetchIdx := idx, numObjsToPrefetch := W} :=
      (if_neg (not_not.mpr hmatch)).trans (if_pos hchanged)
    have hprocess : p.process W idx = {p with
        trendPredictor := (p.process W idx).trendPredictor
        lastIdx := idx
        predictPos := 0
        nextPrefetchIdx := idx
        numObjsToPrefetch := W} := by
      change {p.adjust W (p.process W idx).trendPredictor idx with
        trendPredictor := (p.process W idx).trendPredictor, lastIdx := idx} = _
      rw [hadjust]
    rw [hprocess]
    exact ⟨⟨(add_zero idx).symm,Nat.zero_add W⟩,rfl⟩

/-- A stride that follows the trend keeps the prefetcher aligned if it was, and one that
does so with nothing predicted yet leaves a position outside the window. -/
theorem aligned_follows (hW : W < 2^32) (hpos : p.predictPos ≤ W) (hnum : p.numObjsToPrefetch+1 ≤ W ∨ p.numObjsToPrefetch = 0)
    (h : Ring kMaxWinSize p.trendPredictor) (hlen : p.trendPredictor.trendLen ≠ 0)
    (hf : p.trendPredictor.Follows kMaxWinSize (StridePrefetcher.induce p.lastIdx idx)) :
    (p.process W idx).Aligned W ↔ 1 ≤ p.predictPos ∧ p.Aligned W := by
  obtain ⟨-,⟨hpos',hnum',hnext'⟩,hshift⟩ := process_follows (W := W) h hlen hf
  have hnum'' : (p.process W idx).numObjsToPrefetch = p.numObjsToPrefetch+1 := by
    rw [hnum',Nat.mod_eq_of_lt (by omega)]
  unfold Prefetcher.Aligned
  rw [hnext',hnum'']
  rcases Nat.eq_zero_or_pos p.predictPos with h0 | hone
  · rw [h0,Nat.zero_add,Nat.mod_eq_of_lt (by decide)] at hpos'
    rw [hpos']
    constructor
    · rintro ⟨-,hsum⟩
      omega
    · rintro ⟨hle,-⟩
      omega
  · have hback : (p.process W idx).predictPos = p.predictPos-1 := by
      rw [hpos',show p.predictPos+(2^64-1) = p.predictPos-1+2^64 by omega,Nat.add_mod_right,Nat.mod_eq_of_lt (by omega)]
    rw [hback,hshift,Nat.sub_add_cancel hone]
    constructor
    · rintro ⟨hnext,hsum⟩
      exact ⟨hone,hnext,by omega⟩
    · rintro ⟨-,hnext,hsum⟩
      exact ⟨hnext,by omega⟩

theorem step_access (h : step W s (.access idx) = some (out,s')) :
    s.due = false ∧ (idx = s.prefetcher.lastIdx ∧ s' = s ∨
      idx ≠ s.prefetcher.lastIdx ∧ s' = ⟨s.prefetcher.process W idx,true⟩) := by
  rw [step] at h
  by_cases hdue : s.due
  · rw [if_pos hdue] at h
    cases h
  rw [if_neg hdue] at h
  refine ⟨Bool.eq_false_iff.mpr hdue,?_⟩
  split at h
  · rename_i heq
    cases h
    exact .inl ⟨heq,rfl⟩
  · rename_i hne
    cases h
    exact .inr ⟨hne,rfl⟩

/-- An access leaves the prefetcher aligned exactly if it meets the condition. -/
theorem Inv.access_iff (hW : W < 2^32) (h : Inv W s) (hs : step W s (.access idx) = some (out,s')) :
    (0 < s'.prefetcher.numObjsToPrefetch → s'.prefetcher.Aligned W) ↔ Ok W s (.access idx) := by
  obtain ⟨hdue,⟨heq,rfl⟩ | ⟨hne,rfl⟩⟩ := step_access hs
  · refine ⟨fun _ hne => absurd heq hne,fun _ hnum => ?_⟩
    cases hmatch : s'.prefetcher.trendPredictor.matchTrend with
    | false => exact absurd (h.failed hmatch) hnum.ne'
    | true => exact h.aligned hmatch
  · constructor
    · intro haligned _ hlen hf
      refine .inr ((aligned_follows hW h.pos (h.room hdue) h.ring hlen hf).mp (haligned ?_))
      dsimp only
      have hroom := h.room hdue
      rw [(process_follows h.ring hlen hf).2.1.2.1,Nat.mod_eq_of_lt (by omega)]
      exact Nat.succ_pos _
    · intro hok hnum
      by_cases hf : s.prefetcher.trendPredictor.trendLen ≠ 0 ∧
          s.prefetcher.trendPredictor.Follows kMaxWinSize (StridePrefetcher.induce s.prefetcher.lastIdx idx)
      · refine (aligned_follows hW h.pos (h.room hdue) h.ring hf.1 hf.2).mpr ?_
        rcases hok hne hf.1 hf.2 with ⟨hone,hmatch⟩ | hfits
        · exact ⟨h.begun hdue hmatch hone,h.aligned hmatch⟩
        · exact hfits
      · obtain ⟨hfailed,hrestart⟩ := process_changed (W := W) fun hh => hf ⟨hh.1,(h.ring.follows_record hh.1).mp hh.2⟩
        cases hmatch : (s.prefetcher.process W idx).trendPredictor.matchTrend with
        | false => exact absurd (hfailed hmatch).1 hnum.ne'
        | true => exact (hrestart hmatch).1

theorem Inv.access (hW : W < 2^32) (h : Inv W s) (hok : Ok W s (.access idx))
    (hs : step W s (.access idx) = some (out,s')) : Inv W s' := by
  have haligned := (h.access_iff hW hs).mpr hok
  obtain ⟨hdue,⟨heq,rfl⟩ | ⟨hne,rfl⟩⟩ := step_access hs
  · exact h
  have hring : Ring kMaxWinSize (s.prefetcher.process W idx).trendPredictor := h.ring.step (by decide)
  by_cases hf : s.prefetcher.trendPredictor.trendLen ≠ 0 ∧
      s.prefetcher.trendPredictor.Follows kMaxWinSize (StridePrefetcher.induce s.prefetcher.lastIdx idx)
  · have hroom := h.room hdue
    obtain ⟨hmatch,⟨-,hnum,-⟩,-⟩ := process_follows (W := W) h.ring hf.1 hf.2
    rw [Nat.mod_eq_of_lt (by omega)] at hnum
    have hq := haligned (Nat.lt_of_lt_of_eq (Nat.succ_pos _) hnum.symm)
    refine ⟨hring,?_,fun hfalse => ?_,fun _ => hq,fun hfalse => by cases hfalse⟩
    · exact le_trans (Nat.le_add_right _ _) hq.2.le
    · exact absurd (hmatch.symm.trans hfalse) (by decide)
  · obtain ⟨hfailed,hrestart⟩ := process_changed (W := W) fun hh => hf ⟨hh.1,(h.ring.follows_record hh.1).mp hh.2⟩
    refine ⟨hring,?_,fun hmatch => (hfailed hmatch).1,fun hmatch => (hrestart hmatch).1,fun hfalse => by cases hfalse⟩
    cases hmatch : (s.prefetcher.process W idx).trendPredictor.matchTrend with
    | false => exact (hfailed hmatch).2.trans_le h.pos
    | true => exact (hrestart hmatch).2.trans_le (Nat.zero_le W)

theorem Inv.burst (hW : W < 2^32) (h : Inv W s) (hs : step W s .burst = some (out,s')) : Inv W s' := by
  obtain ⟨⟨issued,q⟩,hissue,⟨⟩⟩ := Option.map_eq_some_iff.mp hs
  cases hmatch : s.prefetcher.trendPredictor.matchTrend with
  | false =>
    have hnone : s.prefetcher.issue 8 = some ([],s.prefetcher) := by
      rw [Prefetcher.issue,if_pos (h.failed hmatch)]
    cases hnone.symm.trans hissue
    exact ⟨h.ring,h.pos,h.failed,h.aligned,fun _ htrue => absurd (hmatch.symm.trans htrue) (by decide)⟩
  | true =>
    obtain ⟨⟨hsame,-⟩,⟨haligned,hnum⟩,-⟩ := issue_aligned hW (h.aligned hmatch) hissue
    refine ⟨hsame ▸ h.ring,le_trans (Nat.le_add_right _ _) haligned.2.le,fun hfalse => ?_,fun _ => haligned,fun _ _ hone => ?_⟩
    · rw [hsame,hmatch] at hfalse
      cases hfalse
    · -- either the burst issued something or the whole window was issued before
      have hsum := haligned.2
      have hbefore := (h.aligned hmatch).2
      change 1 ≤ q.predictPos
      unfold StridePrefetcher.kGenTasksBurstSize at hnum
      omega

end Access

/-- In a run whose accesses all meet the condition, whenever a burst starts with something
to issue the prefetcher is aligned with the access stream, and everything the burst issues
is predicted by the current trend inside the window. The condition is exact: an access
leaves the prefetcher aligned exactly if it meets it. -/
theorem aligned_with_accesses {G : Type*} [AddCommGroup G] [DecidableEq G] {W : ℕ} (hW : W < 2^32) {junk : ℕ → G}
    {lastIdx nextPrefetchIdx : G} {tr : List (StridePrefetcher.Op G × List G)} {s : State G}
    (h : Trace (step W) (Ok W) (init junk lastIdx nextPrefetchIdx) tr s) :
    (0 < s.prefetcher.numObjsToPrefetch → s.prefetcher.Aligned W ∧
        ∀ out s', step W s .burst = some (out,s') →
          ∀ idx ∈ out, ∃ m, 1 ≤ m ∧ m ≤ W ∧ idx = s.prefetcher.predicted m) ∧
      ∀ idx out s', step W s (.access idx) = some (out,s') →
        ((0 < s'.prefetcher.numObjsToPrefetch → s'.prefetcher.Aligned W) ↔ Ok W s (.access idx)) := by
  have hinv : Inv W s := by
    refine h.invariant (I := Inv W) (init_inv _ _ _) fun s op out s' hok hi hs => ?_
    cases op with
    | access idx => exact hi.access hW hok hs
    | burst => exact hi.burst hW hs
  refine ⟨fun hnum => ?_,fun idx out s' => hinv.access_iff hW⟩
  have haligned : s.prefetcher.Aligned W := by
    cases hmatch : s.prefetcher.trendPredictor.matchTrend with
    | false => exact absurd (hinv.failed hmatch) hnum.ne'
    | true => exact hinv.aligned hmatch
  refine ⟨haligned,fun out s' hs => ?_⟩
  obtain ⟨⟨issued,q⟩,hissue,⟨⟩⟩ := Option.map_eq_some_iff.mp hs
  exact (issue_aligned hW haligned hissue).2.2

/-- With 64-bit indices and a window of sixteen: strides 1 and 2 alternate, are learned
and followed. -/
theorem aligned_with_accesses_alternating : ∃ tr s,
    Trace (step 16) (Ok 16) (init (fun _ => (0 : BitVec 64)) 0 0) tr s ∧ s.prefetcher.trendPredictor.trendLen = 2 ∧
      s.prefetcher.predictPos = 15 ∧ 0 < s.prefetcher.numObjsToPrefetch ∧ s.prefetcher.Aligned 16 := by
  have hrun : (exec (step 16) (Ok 16) (init (fun _ => (0 : BitVec 64)) 0 0)
      [.access 1,.burst,.access 3,.burst,.access 4,.burst,.burst,.access 6]).map
      (fun r => (r.2.prefetcher.trendPredictor.trendLen,r.2.prefetcher.predictPos,r.2.prefetcher.numObjsToPrefetch)) =
      some (2,15,1) := by decide +kernel
  obtain ⟨outs,s,ht,hobs⟩ := exec_observe hrun
  simp only [Prod.mk.injEq] at hobs
  have hnum : 0 < s.prefetcher.numObjsToPrefetch := by omega
  exact ⟨_,s,ht,hobs.1,hobs.2.1,hnum,((aligned_with_accesses (by decide) ht).1 hnum).1⟩

/-- The accesses 1, 3 and 5: the second stride fails, the third follows it, and the next
index to issue is still the one of the first stride. -/
theorem stale_position_after_failure : ∃ tr s,
    Trace (step 16) (fun _ _ => True) (init (fun _ => (0 : BitVec 64)) 0 0) tr s ∧
      0 < s.prefetcher.numObjsToPrefetch ∧ s.prefetcher.nextPrefetchIdx = 9 ∧
      s.prefetcher.predicted s.prefetcher.predictPos = 19 ∧
      s.prefetcher.predictPos+s.prefetcher.numObjsToPrefetch = 8 ∧ ¬ s.prefetcher.Aligned 16 := by
  have hrun : (exec (step 16) (fun _ _ => True) (init (fun _ => (0 : BitVec 64)) 0 0)
      [.access 1,.burst,.access 3,.burst,.access 5]).map
      (fun r => decide (0 < r.2.prefetcher.numObjsToPrefetch ∧ r.2.prefetcher.nextPrefetchIdx = 9 ∧
        r.2.prefetcher.predicted r.2.prefetcher.predictPos = 19 ∧
        r.2.prefetcher.predictPos+r.2.prefetcher.numObjsToPrefetch = 8)) = some true := by decide +kernel
  obtain ⟨outs,s,ht,hobs⟩ := exec_observe hrun
  obtain ⟨hnum,hnext,hpredicted,hsum⟩ := of_decide_eq_true hobs
  exact ⟨_,s,ht,hnum,hnext,hpredicted,hsum,fun haligned => absurd (hsum.symm.trans haligned.2) (by decide)⟩

end FarMemory.LearnedPrefetcher
