import FarMemory.Execution
import FarMemory.Machine

/-!
# The trend predictor of the prefetcher

The last strides lie in a ring. The current trend is a part of it that is expected to
repeat; a stride that does not fit is looked up, first in a longer range that ends
before the trend and then inside the trend, and the trend restarts where it is found.
The ring is not initialised, so what it holds at first is a parameter. The stride is
stored before it is looked up, and a search that comes round to its slot finds it there.
-/
namespace FarMemory.TrendPredictor
open Execution

structure Predictor (T : Type*) where
  histories : ℕ → T
  trendBeginIndex : ℕ := 0
  trendLen : ℕ := 0
  posInTrend : ℕ := 0
  nextHistoryIndex : ℕ := 0
  filledElemNum : ℕ := 0
  success : Bool := false
  trendChanged : Bool := false

section Code
variable {T : Type*} [DecidableEq T] (kMaxWinSize : ℕ)

def kHistorySize : ℕ := kMaxWinSize+1

def addIndex (index diff : ℕ) : ℕ := (index+diff)%kHistorySize kMaxWinSize

def delIndex (index diff : ℕ) : ℕ := sub64 (index+kHistorySize kMaxWinSize) diff%kHistorySize kMaxWinSize

/-- The search loop: at most so many slots from an index on. -/
def search (histories : ℕ → T) (history : T) : ℕ → ℕ → Option ℕ
  | 0,_ => none
  | n+1,searchIndex =>
    if history = histories searchIndex then some searchIndex
    else search histories history n (addIndex kMaxWinSize searchIndex 1)

def Predictor.updatePosInTrend (p : Predictor T) : Predictor T :=
  if p.posInTrend+1 = p.trendLen then
    {p with trendBeginIndex := addIndex kMaxWinSize p.trendBeginIndex p.trendLen, posInTrend := 0}
  else {p with posInTrend := p.posInTrend+1}

/-- The two searches of a stride that does not fit. -/
def Predictor.lookup (p : Predictor T) (history : T) : Option ℕ :=
  let extendNum := sub64 p.filledElemNum (p.trendLen+1)
  match search kMaxWinSize p.histories history extendNum (delIndex kMaxWinSize p.trendBeginIndex extendNum) with
  | some i => some i
  | none => search kMaxWinSize p.histories history (p.trendLen-1) (addIndex kMaxWinSize p.trendBeginIndex 1)

def Predictor.restart (p : Predictor T) : Option ℕ → Predictor T
  | some i => {p with
      trendBeginIndex := i
      trendLen := (p.nextHistoryIndex+kHistorySize kMaxWinSize-i)%kHistorySize kMaxWinSize
      posInTrend := 1
      success := true}
  | none => {p with trendBeginIndex := p.nextHistoryIndex, trendLen := 1, posInTrend := 0, success := false}

/-- The stride is counted and stored first. -/
def Predictor.record (p : Predictor T) (history : T) : Predictor T :=
  {p with
    filledElemNum := if p.filledElemNum ≤ kMaxWinSize then p.filledElemNum+1 else p.filledElemNum
    histories := Function.update p.histories p.nextHistoryIndex history}

/-- Whether a recorded stride is the one that the trend expects. -/
def Predictor.Follows (p : Predictor T) (history : T) : Prop :=
  history = p.histories (addIndex kMaxWinSize p.trendBeginIndex p.posInTrend)

instance (p : Predictor T) (history : T) : Decidable (p.Follows kMaxWinSize history) :=
  inferInstanceAs (Decidable (_ = _))

def Predictor.adapt (p : Predictor T) (history : T) : Predictor T :=
  if p.trendLen = 0 then
    {p with
      trendBeginIndex := p.nextHistoryIndex
      trendLen := 1
      posInTrend := 0
      trendChanged := true
      success := true}
  else if p.Follows kMaxWinSize history then
    {p.updatePosInTrend kMaxWinSize with trendChanged := false, success := true}
  else {p.restart kMaxWinSize (p.lookup kMaxWinSize history) with trendChanged := true}

def Predictor.addHistory (p : Predictor T) (history : T) : Predictor T :=
  let q := (p.record kMaxWinSize history).adapt kMaxWinSize history
  {q with nextHistoryIndex := addIndex kMaxWinSize q.nextHistoryIndex 1}

def Predictor.matchTrend (p : Predictor T) : Bool := p.success

/-- Nothing if the remainder is by zero. -/
def Predictor.getTrend (p : Predictor T) (distance : ℕ) : Option T :=
  if p.trendLen = 0 then none
  else some (p.histories (addIndex kMaxWinSize p.trendBeginIndex (p.posInTrend+distance%p.trendLen)))

def step (p : Predictor T) (history : T) : Option (Unit × Predictor T) := some ((),p.addHistory kMaxWinSize history)

/-- What a matching trend has to be. -/
def WellDefined (p : Predictor T) : Prop :=
  p.matchTrend = true → (1 ≤ p.trendLen ∧ p.trendLen ≤ kMaxWinSize ∧ p.posInTrend ≤ p.trendLen) ∧
    ∀ distance, (p.getTrend kMaxWinSize distance).isSome

/-- Going over the slots from an index on, the slot of the newest stride comes before any
other with that stride. -/
def Predictor.ComesRound (p : Predictor T) (history : T) (n searchIndex : ℕ) : Prop :=
  ∃ i < n, addIndex kMaxWinSize searchIndex i = p.nextHistoryIndex ∧
    ∀ j < i, history ≠ p.histories (addIndex kMaxWinSize searchIndex j)

instance (p : Predictor T) (history : T) (n i : ℕ) : Decidable (p.ComesRound kMaxWinSize history n i) :=
  inferInstanceAs (Decidable (∃ j, j < n ∧ _))

/-- What keeps the predictor well defined, as a condition on the state with the stride
recorded: a stride that follows the trend finds it not yet complete, and the search for
one that does not follow it stays away from the slot of the stride itself. -/
def Predictor.Fits (p : Predictor T) (history : T) : Prop :=
  p.trendLen ≠ 0 →
    (p.Follows kMaxWinSize history → p.posInTrend < p.trendLen) ∧
    (¬ p.Follows kMaxWinSize history →
      let extendNum := sub64 p.filledElemNum (p.trendLen+1)
      let first := delIndex kMaxWinSize p.trendBeginIndex extendNum
      ¬ p.ComesRound kMaxWinSize history extendNum first ∧
        ((∀ i < extendNum, history ≠ p.histories (addIndex kMaxWinSize first i)) →
          ¬ p.ComesRound kMaxWinSize history (p.trendLen-1) (addIndex kMaxWinSize p.trendBeginIndex 1)))

instance (p : Predictor T) (history : T) : Decidable (p.Fits kMaxWinSize history) :=
  inferInstanceAs (Decidable (_ → (_ → _) ∧ (_ → _ ∧ (_ → _))))

def Ok (p : Predictor T) (history : T) : Prop := (p.record kMaxWinSize history).Fits kMaxWinSize history

instance (p : Predictor T) (history : T) : Decidable (Ok kMaxWinSize p history) :=
  inferInstanceAs (Decidable (Predictor.Fits _ _ _))

end Code

section Trend
variable {T : Type*} {W : ℕ} {p : Predictor T} {history : T}

theorem addIndex_lt (index diff : ℕ) : addIndex W index diff < kHistorySize W := Nat.mod_lt _ W.succ_pos

/-- What holds as long as every stride fits. A trend of one stride may be complete: it
is when the stride before the newest was found. -/
structure Inv (W : ℕ) (p : Predictor T) : Prop where
  next : p.nextHistoryIndex < kHistorySize W
  start : p.trendLen = 0 → p.success = false
  short : p.trendLen ≤ W
  pos : p.trendLen ≠ 0 → p.posInTrend < p.trendLen ∨ p.posInTrend = 1 ∧ p.trendLen = 1

theorem Inv.wellDefined (h : Inv W p) : WellDefined W p := by
  intro hm
  have hlen : p.trendLen ≠ 0 := by
    intro h0
    rw [Predictor.matchTrend,h.start h0] at hm
    cases hm
  refine ⟨⟨Nat.one_le_iff_ne_zero.mpr hlen,h.short,?_⟩,fun d => ?_⟩
  · have := h.pos hlen
    omega
  · rw [Predictor.getTrend,if_neg hlen]
    rfl

/-- The length of a trend that starts at the newest stride would be zero. -/
theorem restart_length {n k : ℕ} (hn : n < kHistorySize W) (hk : k < kHistorySize W) :
    (n+kHistorySize W-k)%kHistorySize W = 0 ↔ k = n := by
  constructor
  · intro h
    rcases Nat.lt_or_ge n k with hlt | hge
    · rw [Nat.mod_eq_of_lt (by omega)] at h
      omega
    · rw [show n+kHistorySize W-k = n-k+kHistorySize W by omega,Nat.add_mod_right,Nat.mod_eq_of_lt (by omega)] at h
      omega
  · rintro rfl
    simp

theorem record_inv (h : Inv W p) : Inv W (p.record W history) := ⟨h.next,h.start,h.short,h.pos⟩

theorem record_newest : (p.record W history).histories (p.record W history).nextHistoryIndex = history := by
  simp [Predictor.record]

theorem Inv.advance (h : Inv W p) : Inv W {p with nextHistoryIndex := addIndex W p.nextHistoryIndex 1} :=
  ⟨addIndex_lt _ _,h.start,h.short,h.pos⟩

end Trend

section Invariant
variable {T : Type*} [DecidableEq T] {W : ℕ} {p : Predictor T} {history : T} {index n k : ℕ} {histories : ℕ → T}

theorem addIndex_addIndex (index d e : ℕ) : addIndex W (addIndex W index d) e = addIndex W index (d+e) := by
  unfold addIndex
  rw [Nat.mod_add_mod,Nat.add_assoc]

theorem addIndex_zero (h : index < kHistorySize W) : addIndex W index 0 = index := Nat.mod_eq_of_lt h

theorem search_some (hi : index < kHistorySize W) :
    search W histories history n index = some k ↔
      ∃ i < n, addIndex W index i = k ∧ history = histories k ∧
        ∀ j < i, history ≠ histories (addIndex W index j) := by
  induction n generalizing index with
  | zero => simp [search]
  | succ n ih =>
    rw [search]
    split
    · rename_i heq
      constructor
      · rintro ⟨rfl⟩
        exact ⟨0,n.succ_pos,addIndex_zero hi,heq,by simp⟩
      · rintro ⟨i,-,hk,-,hne⟩
        rcases Nat.eq_zero_or_pos i with rfl | hpos
        · rw [← hk,addIndex_zero hi]
        · exact absurd (by rwa [addIndex_zero hi]) (hne 0 hpos)
    · rename_i hne
      rw [ih (addIndex_lt _ _)]
      constructor
      · rintro ⟨i,hi',hk,hh,hmin⟩
        rw [addIndex_addIndex,Nat.add_comm] at hk
        refine ⟨i+1,by omega,hk,hh,?_⟩
        intro j hj
        rcases Nat.eq_zero_or_pos j with rfl | hpos
        · rwa [addIndex_zero hi]
        · have := hmin (j-1) (by omega)
          rwa [addIndex_addIndex,Nat.add_sub_cancel' hpos] at this
      · rintro ⟨i,hi',hk,hh,hmin⟩
        rcases Nat.eq_zero_or_pos i with rfl | hpos
        · rw [addIndex_zero hi] at hk
          exact absurd (hk ▸ hh) hne
        · refine ⟨i-1,by omega,?_,hh,?_⟩
          · rwa [addIndex_addIndex,Nat.add_sub_cancel' hpos]
          · intro j hj
            have := hmin (j+1) (by omega)
            rwa [addIndex_addIndex,Nat.add_comm 1 j]

theorem search_none (hi : index < kHistorySize W) :
    search W histories history n index = none ↔ ∀ i < n, history ≠ histories (addIndex W index i) := by
  induction n generalizing index with
  | zero => simp [search]
  | succ n ih =>
    rw [search]
    split
    · rename_i heq
      simp only [reduceCtorEq,false_iff,not_forall,not_not]
      exact ⟨0,n.succ_pos,by rwa [addIndex_zero hi]⟩
    · rename_i hne
      rw [ih (addIndex_lt _ _)]
      constructor
      · intro h i hi'
        rcases Nat.eq_zero_or_pos i with rfl | hpos
        · rwa [addIndex_zero hi]
        · have := h (i-1) (by omega)
          rwa [addIndex_addIndex,Nat.add_sub_cancel' hpos] at this
      · intro h i hi'
        have := h (i+1) (by omega)
        rwa [addIndex_addIndex,Nat.add_comm 1 i]

theorem search_lt (hi : index < kHistorySize W)
    (h : search W histories history n index = some k) : k < kHistorySize W := by
  obtain ⟨i,-,rfl,-⟩ := (search_some hi).mp h
  exact addIndex_lt _ _

theorem delIndex_lt (index diff : ℕ) : delIndex W index diff < kHistorySize W := Nat.mod_lt _ W.succ_pos

theorem search_next (hi : index < kHistorySize W) (hp : p.histories p.nextHistoryIndex = history) :
    search W p.histories history n index = some p.nextHistoryIndex ↔ p.ComesRound W history n index := by
  rw [search_some hi]
  constructor
  · rintro ⟨i,hlt,hk,-,hmin⟩
    exact ⟨i,hlt,hk,hmin⟩
  · rintro ⟨i,hlt,hk,hmin⟩
    exact ⟨i,hlt,hk,hp.symm,hmin⟩

/-- A stride that does not follow the trend fits exactly if its look-up does not find the
stride itself. -/
theorem lookup_next (hp : p.histories p.nextHistoryIndex = history) (hlen : p.trendLen ≠ 0)
    (hf : ¬ p.Follows W history) : p.lookup W history ≠ some p.nextHistoryIndex ↔ p.Fits W history := by
  unfold Predictor.lookup Predictor.Fits
  simp only [hlen,ne_eq,not_false_eq_true,true_implies,hf,false_implies,true_and]
  generalize sub64 p.filledElemNum (p.trendLen+1) = e
  rw [← search_next (delIndex_lt _ _) hp,← search_next (addIndex_lt _ _) hp]
  simp only [← ne_eq]
  rw [← search_none (delIndex_lt _ _)]
  cases hs : search W p.histories history e (delIndex W p.trendBeginIndex e) with
  | some k => simp
  | none => simp

theorem lookup_lt (h : p.lookup W history = some k) : k < kHistorySize W := by
  unfold Predictor.lookup at h
  dsimp only at h
  split at h
  · rename_i hs
    cases h
    exact search_lt (delIndex_lt _ _) hs
  · exact search_lt (addIndex_lt _ _) h

/-- Under the invariant a stride that is recorded and fits keeps it, and one that does not
fit leaves a matching trend that is not well defined. -/
theorem adapt_spec (hW : 1 ≤ W) (h : Inv W p) (hp : p.histories p.nextHistoryIndex = history) :
    (p.Fits W history → Inv W (p.adapt W history)) ∧
      (¬ p.Fits W history → ¬ WellDefined W (p.adapt W history)) := by
  unfold Predictor.adapt
  by_cases hlen : p.trendLen = 0
  · rw [if_pos hlen]
    refine ⟨fun _ => ⟨h.next,by simp,hW,by simp⟩,fun hfit => ?_⟩
    exact absurd (fun hne => absurd hlen hne) hfit
  rw [if_neg hlen]
  by_cases hf : p.Follows W history
  · rw [if_pos hf]
    have hfits : p.Fits W history ↔ p.posInTrend < p.trendLen := by
      simp [Predictor.Fits,hlen,hf]
    rw [hfits,Predictor.updatePosInTrend]
    split
    · rename_i heq
      refine ⟨fun _ => ⟨h.next,fun h0 => absurd h0 hlen,h.short,fun _ => .inl (Nat.pos_of_ne_zero hlen)⟩,?_⟩
      intro hge
      omega
    · rename_i hne
      refine ⟨fun hlt => ⟨h.next,fun h0 => absurd h0 hlen,h.short,fun _ => .inl ?_⟩,?_⟩
      · show p.posInTrend+1 < p.trendLen
        omega
      · intro hge hw
        have hpos : p.posInTrend+1 ≤ p.trendLen := (hw rfl).1.2.2
        omega
  · rw [if_neg hf,← lookup_next hp hlen hf]
    cases hl : p.lookup W history with
    | none => exact ⟨fun _ => ⟨h.next,by simp [Predictor.restart],hW,by simp [Predictor.restart]⟩,fun hfit => absurd (by simp) hfit⟩
    | some k =>
      have hzero := restart_length h.next (lookup_lt hl)
      constructor
      · intro hne
        have hk : k ≠ p.nextHistoryIndex := fun heq => hne (heq ▸ rfl)
        have hpos : (p.nextHistoryIndex+kHistorySize W-k)%kHistorySize W ≠ 0 := fun h0 => hk (hzero.mp h0)
        refine ⟨h.next,fun h0 => absurd h0 hpos,Nat.le_of_lt_succ (Nat.mod_lt _ W.succ_pos),fun _ => ?_⟩
        rcases Nat.lt_or_ge 1 ((p.nextHistoryIndex+kHistorySize W-k)%kHistorySize W) with hlong | hshort
        · exact .inl hlong
        · exact .inr ⟨rfl,Nat.le_antisymm hshort (Nat.pos_of_ne_zero hpos)⟩
      · intro heq hw
        rw [ne_eq,not_not] at heq
        cases heq
        have hone := (hw rfl).1.1
        simp only [Predictor.restart] at hone
        omega

theorem Inv.step (hW : 1 ≤ W) (h : Inv W p) (hok : Ok W p history) : Inv W (p.addHistory W history) :=
  ((adapt_spec hW (record_inv h) record_newest).1 hok).advance

end Invariant

/-- A run in which every stride fits only passes through states in which a matching trend
is well defined, and the condition is exact: the next stride keeps the trend well defined
exactly if it fits. The slots of the ring that were never written may hold anything. -/
theorem trend_wellDefined {T : Type*} [DecidableEq T] {W : ℕ} (hW : 1 ≤ W) {junk : ℕ → T}
    {tr : List (T × Unit)} {p : Predictor T} (h : Trace (step W) (Ok W) ⟨junk,0,0,0,0,0,false,false⟩ tr p) :
    WellDefined W p ∧ ∀ history, WellDefined W (p.addHistory W history) ↔ Ok W p history := by
  have hinv : Inv W p := by
    refine h.invariant (I := Inv W) ⟨W.succ_pos,fun _ => rfl,Nat.zero_le _,fun h0 => absurd rfl h0⟩ ?_
    rintro p history _ _ hok hi ⟨rfl⟩
    exact hi.step hW hok
  refine ⟨hinv.wellDefined,fun history => ⟨?_,fun hok => (hinv.step hW hok).wellDefined⟩⟩
  intro hw
  by_contra hok
  exact (adapt_spec hW (record_inv hinv) record_newest).2 hok hw

/-- A trend that is taken up, left for a longer one and followed. -/
theorem trend_wellDefined_alternating : ∃ tr p, Trace (step 32) (Ok 32) ⟨fun _ => (0 : ℤ),0,0,0,0,0,false,false⟩ tr p ∧
    p.matchTrend = true ∧ p.trendLen = 3 ∧ WellDefined 32 p := by
  have hrun : (exec (step 32) (Ok 32) ⟨fun _ => (0 : ℤ),0,0,0,0,0,false,false⟩ [1,2,1,2,2,1]).map
      (fun r => (r.2.matchTrend,r.2.trendLen)) = some (true,3) := by decide +kernel
  obtain ⟨outs,p,ht,hobs⟩ := exec_observe hrun
  simp only [Prod.mk.injEq] at hobs
  exact ⟨_,p,ht,hobs.1,hobs.2,(trend_wellDefined (by decide) ht).1⟩

/-- With the window of the prefetcher: a trend of two strides until the ring is full, and
then a stride never seen before in the middle of it. -/
theorem trend_broken_at_full_ring :
    let strides := (List.range 33).map (fun i => (if i%2 = 0 then 1 else 2 : ℤ))++[9]
    let p := strides.foldl (Predictor.addHistory 32) ⟨fun _ => 0,0,0,0,0,0,false,false⟩
    p.matchTrend = true ∧ p.trendLen = 0 ∧ p.getTrend 32 0 = none ∧ ¬ WellDefined 32 p := by
  have hrun : (((List.range 33).map (fun i => (if i%2 = 0 then 1 else 2 : ℤ))++[9]).foldl (Predictor.addHistory 32)
      ⟨fun _ => 0,0,0,0,0,0,false,false⟩).matchTrend = true ∧
      (((List.range 33).map (fun i => (if i%2 = 0 then 1 else 2 : ℤ))++[9]).foldl (Predictor.addHistory 32)
      ⟨fun _ => 0,0,0,0,0,0,false,false⟩).trendLen = 0 := by decide +kernel
  refine ⟨hrun.1,hrun.2,if_pos hrun.2,fun hw => ?_⟩
  have := (hw hrun.1).1.1
  omega

end FarMemory.TrendPredictor
