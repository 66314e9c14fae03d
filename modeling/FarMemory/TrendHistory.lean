import FarMemory.TrendPredictor

/-!
# What the trend predictor reads before its ring is full

As long as no more strides than the window were passed, the strides lie in the ring in
order and the rest of it was never written. A trend of length `L` then expects the stride
that was recorded `L` positions before the next one. The range in which a stride that does
not fit is looked up reaches back by the position inside the trend too far: past the first
slot, and from there into the slots at the end of the ring.
-/
namespace FarMemory.TrendPredictor
open Execution

section History
variable {T : Type*} [DecidableEq T] (W : ℕ)

/-- A predictor whose ring holds whatever the memory held before. -/
def init (junk : ℕ → T) : Predictor T := ⟨junk,0,0,0,0,0,false,false⟩

def after (junk : ℕ → T) (strides : List T) : Predictor T := strides.foldl (Predictor.addHistory W) (init junk)

/-- What the calls leave to be seen: the trend, the two flags and every prediction. -/
def SameResults (p q : Predictor T) : Prop :=
  (p.trendBeginIndex = q.trendBeginIndex ∧ p.trendLen = q.trendLen ∧ p.posInTrend = q.posInTrend) ∧
    (p.matchTrend = q.matchTrend ∧ p.trendChanged = q.trendChanged) ∧
    ∀ distance, p.getTrend W distance = q.getTrend W distance

/-- A matching trend expects the stride that was recorded its length before the next one. -/
def Expects (strides : List T) (p : Predictor T) : Prop :=
  p.matchTrend = true → (1 ≤ p.trendLen ∧ p.trendLen ≤ strides.length) ∧
    p.getTrend W 0 = strides[strides.length-p.trendLen]?

/-- The results after these strides do not depend on what the ring held before. -/
def FromHistory (strides : List T) : Prop :=
  ∀ junk, (∀ junk', SameResults W (after W junk strides) (after W junk' strides)) ∧
    Expects W strides (after W junk strides)

/-- What keeps the predictor to the recorded strides, as a condition on the state before a
stride: one that does not follow the trend comes at the start of a repetition, or the
search meets it among the strides recorded last. -/
def StaysRecorded (p : Predictor T) (history : T) : Prop :=
  p.trendLen ≠ 0 → ¬ p.Follows W history → p.posInTrend = 0 ∨
    ∃ i < p.nextHistoryIndex, kHistorySize W ≤ i+p.posInTrend ∧ history = p.histories i

instance (p : Predictor T) (history : T) : Decidable (StaysRecorded W p history) :=
  inferInstanceAs (Decidable (_ → _ → _ ∨ ∃ i, i < p.nextHistoryIndex ∧ _))

end History

section Recorded
variable {T : Type*} {W : ℕ} {strides : List T} {p q : Predictor T} {history : T}

/-- The strides lie in the ring in order, and the trend ends with the newest of them. -/
structure Recorded (strides : List T) (p : Predictor T) : Prop where
  next : p.nextHistoryIndex = strides.length
  filled : p.filledElemNum = strides.length
  slots : ∀ i < strides.length, strides[i]? = some (p.histories i)
  start : p.trendLen = 0 → p.success = false
  trend : p.trendLen ≠ 0 → p.trendBeginIndex+p.posInTrend+p.trendLen = strides.length

/-- Two predictors that differ at most in their rings. -/
structure Twins (p q : Predictor T) : Prop where
  first : p.trendBeginIndex = q.trendBeginIndex
  len : p.trendLen = q.trendLen
  pos : p.posInTrend = q.posInTrend
  success : p.success = q.success
  changed : p.trendChanged = q.trendChanged

theorem addIndex_of_le {index diff : ℕ} (h : index+diff ≤ W) : addIndex W index diff = index+diff :=
  Nat.mod_eq_of_lt (Nat.lt_succ_of_le h)

theorem Recorded.agree (hp : Recorded strides p) (hq : Recorded strides q) {i : ℕ} (hi : i < strides.length) :
    p.histories i = q.histories i :=
  Option.some.inj ((hp.slots i hi).symm.trans (hq.slots i hi))

theorem Recorded.getTrend (hp : Recorded strides p) (hW : strides.length ≤ W) (hlen : p.trendLen ≠ 0) (d : ℕ) :
    p.getTrend W d = strides[strides.length-p.trendLen+d%p.trendLen]? := by
  have htrend := hp.trend hlen
  have hd : d%p.trendLen < p.trendLen := Nat.mod_lt _ (Nat.pos_of_ne_zero hlen)
  rw [Predictor.getTrend,if_neg hlen,addIndex_of_le (by omega),hp.slots _ (by omega)]
  congr 2
  omega

theorem Recorded.expects (hp : Recorded strides p) (hW : strides.length ≤ W) : Expects W strides p := by
  intro hm
  have hlen : p.trendLen ≠ 0 := by
    intro h0
    rw [Predictor.matchTrend,hp.start h0] at hm
    cases hm
  have htrend := hp.trend hlen
  refine ⟨⟨by omega,by omega⟩,?_⟩
  rw [hp.getTrend hW hlen,Nat.zero_mod,Nat.add_zero]

theorem Recorded.same (hp : Recorded strides p) (hq : Recorded strides q) (ht : Twins p q)
    (hW : strides.length ≤ W) : SameResults W p q := by
  refine ⟨⟨ht.first,ht.len,ht.pos⟩,⟨ht.success,ht.changed⟩,fun d => ?_⟩
  by_cases hlen : p.trendLen = 0
  · rw [Predictor.getTrend,Predictor.getTrend,if_pos hlen,if_pos (ht.len ▸ hlen)]
  · rw [hp.getTrend hW hlen,hq.getTrend hW (ht.len ▸ hlen),ht.len]

/-- Where the backwards search starts: as many slots before the first as the position
inside the trend. -/
theorem delIndex_start {b pos : ℕ} (hpos : pos ≤ W) :
    delIndex W b (b+pos) = (kHistorySize W-pos)%kHistorySize W := by
  unfold delIndex sub64
  rw [if_pos (by unfold kHistorySize; omega)]
  congr 1
  omega

theorem Recorded.extendNum (history : T) (hp : Recorded strides p) (hW : strides.length < W) (hlen : p.trendLen ≠ 0) :
    sub64 (p.record W history).filledElemNum (p.trendLen+1) = p.trendBeginIndex+p.posInTrend := by
  have htrend := hp.trend hlen
  have hfilled : (p.record W history).filledElemNum = strides.length+1 := by
    simp only [Predictor.record,hp.filled]
    rw [if_pos (by omega)]
  rw [hfilled,sub64,if_pos (by omega)]
  omega

theorem Recorded.record_old (hp : Recorded strides p) {i : ℕ} (hi : i ≠ strides.length) :
    (p.record W history).histories i = p.histories i := by
  simp only [Predictor.record,hp.next]
  exact Function.update_of_ne hi _ _

theorem Recorded.record_new (hp : Recorded strides p) : (p.record W history).histories strides.length = history := by
  simp only [Predictor.record,hp.next]
  exact Function.update_self _ _ _

theorem Recorded.record_agree (hp : Recorded strides p) (hq : Recorded strides q) {i : ℕ} (hi : i ≤ strides.length) :
    (p.record W history).histories i = (q.record W history).histories i := by
  rcases Nat.lt_or_eq_of_le hi with hlt | rfl
  · rw [hp.record_old hlt.ne,hq.record_old hlt.ne,hp.agree hq hlt]
  · rw [hp.record_new,hq.record_new]

theorem narrow_slot {b pos len n i : ℕ} (htrend : b+pos+len = n) (hW : n < W) (hi : i < len-1) :
    addIndex W (addIndex W b 1) i < n := by
  rw [addIndex_addIndex,addIndex_of_le (by omega)]
  omega

theorem Recorded.follows_record (hp : Recorded strides p) (hW : strides.length < W) (hlen : p.trendLen ≠ 0) :
    (p.record W history).Follows W history ↔ p.Follows W history := by
  have htrend := hp.trend hlen
  unfold Predictor.Follows
  change history = (p.record W history).histories (addIndex W p.trendBeginIndex p.posInTrend) ↔ _
  rw [addIndex_of_le (by omega),hp.record_old (by omega)]

/-- If the stride is met in time, the first search only looks at written slots. -/
theorem Recorded.extend_slot (hp : Recorded strides p) (hW : strides.length < W) (hlen : p.trendLen ≠ 0)
    (hs : p.posInTrend = 0 ∨ ∃ i < p.nextHistoryIndex, kHistorySize W ≤ i+p.posInTrend ∧ history = p.histories i)
    {j : ℕ} (hj : j < p.trendBeginIndex+p.posInTrend)
    (hbefore : ∀ i < j,
      history ≠ (p.record W history).histories (addIndex W ((kHistorySize W-p.posInTrend)%kHistorySize W) i)) :
    addIndex W ((kHistorySize W-p.posInTrend)%kHistorySize W) j < strides.length := by
  have htrend := hp.trend hlen
  rcases hs with h0 | ⟨i,hi,hpos,hist⟩
  · rw [h0,Nat.sub_zero,Nat.mod_self,addIndex_of_le (by omega)]
    omega
  · rw [hp.next] at hi
    rw [kHistorySize] at hpos hbefore ⊢
    rw [Nat.mod_eq_of_lt (by omega)] at hbefore ⊢
    have hji : W+1-p.posInTrend+j ≤ i := by
      by_contra hlt
      refine hbefore (i-(W+1-p.posInTrend)) (by omega) ?_
      rw [addIndex_of_le (by omega),Nat.add_sub_cancel' (by omega),hp.record_old hi.ne]
      exact hist
    rw [addIndex_of_le (by omega)]
    omega

theorem Twins.follow (ht : Twins p q) :
    Twins {p.updatePosInTrend W with trendChanged := false, success := true}
      {q.updatePosInTrend W with trendChanged := false, success := true} := by
  unfold Predictor.updatePosInTrend
  by_cases hend : p.posInTrend+1 = p.trendLen
  · rw [if_pos hend,if_pos (ht.len ▸ ht.pos ▸ hend)]
    exact ⟨congrArg₂ (addIndex W) ht.first ht.len,ht.len,rfl,rfl,rfl⟩
  · rw [if_neg hend,if_neg (ht.len ▸ ht.pos ▸ hend)]
    exact ⟨ht.first,ht.len,congrArg (·+1) ht.pos,rfl,rfl⟩

/-- The strides that two rings expect and have recorded are the same. -/
theorem Twins.follows (hp : Recorded strides p) (hq : Recorded strides q) (ht : Twins p q)
    (hW : strides.length ≤ W) (hlen : p.trendLen ≠ 0) : p.Follows W history ↔ q.Follows W history := by
  have htrend := hp.trend hlen
  unfold Predictor.Follows
  rw [← ht.first,← ht.pos,addIndex_of_le (by omega),hp.agree hq (by omega)]

theorem Twins.staysRecorded (hp : Recorded strides p) (hq : Recorded strides q) (ht : Twins p q)
    (hW : strides.length ≤ W) (hs : StaysRecorded W p history) : StaysRecorded W q history := by
  intro hlen hf
  have hplen : p.trendLen ≠ 0 := ht.len ▸ hlen
  rcases hs hplen fun h => hf ((ht.follows hp hq hW hplen).mp h) with h0 | ⟨i,hi,hpos,hist⟩
  · exact .inl (ht.pos ▸ h0)
  · rw [hp.next] at hi
    refine .inr ⟨i,hq.next ▸ hi,ht.pos ▸ hpos,?_⟩
    rw [hist,hp.agree hq hi]

theorem init_recorded (junk : ℕ → T) : Recorded [] (init junk) :=
  ⟨rfl,rfl,fun _ h => absurd h (Nat.not_lt_zero _),fun _ => rfl,fun h => absurd rfl h⟩

end Recorded

section Search
variable {T : Type*} [DecidableEq T] {W : ℕ} {strides : List T} {p q : Predictor T} {history : T}

/-- The search depends on the slots only as far as it gets. -/
theorem search_congr {R R' : ℕ → T} {n index : ℕ} (hi : index < kHistorySize W)
    (h : ∀ j < n, (∀ i < j, history ≠ R (addIndex W index i)) → R (addIndex W index j) = R' (addIndex W index j)) :
    search W R history n index = search W R' history n index := by
  induction n generalizing index with
  | zero => rfl
  | succ n ih =>
    have hfirst : R index = R' index := by
      have := h 0 n.succ_pos (by simp)
      rwa [addIndex_zero hi] at this
    rw [search,search,hfirst]
    split
    · rfl
    · rename_i hne
      refine ih (addIndex_lt _ _) fun j hj hbefore => ?_
      rw [addIndex_addIndex]
      refine h (1+j) (by omega) fun i hij => ?_
      rcases Nat.eq_zero_or_pos i with rfl | hpos
      · rwa [addIndex_zero hi,hfirst]
      · have := hbefore (i-1) (by omega)
        rwa [addIndex_addIndex,Nat.add_sub_cancel' hpos] at this

/-- The two searches of a stride that does not fit, while the ring is not full. -/
def widened (W : ℕ) (p : Predictor T) (history : T) : Option ℕ :=
  search W (p.record W history).histories history (p.trendBeginIndex+p.posInTrend)
    ((kHistorySize W-p.posInTrend)%kHistorySize W)

def narrowed (W : ℕ) (p : Predictor T) (history : T) : Option ℕ :=
  search W (p.record W history).histories history (p.trendLen-1) (addIndex W p.trendBeginIndex 1)

theorem Recorded.lookup (hp : Recorded strides p) (hW : strides.length < W) (hlen : p.trendLen ≠ 0) :
    (p.record W history).lookup W history =
      match widened W p history with
      | some i => some i
      | none => narrowed W p history := by
  have htrend := hp.trend hlen
  rw [widened,← delIndex_start (b := p.trendBeginIndex) (show p.posInTrend ≤ W by omega),← hp.extendNum history hW hlen]
  rfl

/-- A look-up that stays among the recorded strides finds the same in any ring, and finds
an older stride. -/
theorem lookup_recorded (hp : Recorded strides p) (hq : Recorded strides q) (ht : Twins p q)
    (hW : strides.length < W) (hlen : p.trendLen ≠ 0)
    (hs : p.posInTrend = 0 ∨ ∃ i < p.nextHistoryIndex, kHistorySize W ≤ i+p.posInTrend ∧ history = p.histories i) :
    (p.record W history).lookup W history = (q.record W history).lookup W history ∧
      ∀ k, (p.record W history).lookup W history = some k → k < strides.length := by
  have htrend := hp.trend hlen
  have hfirst : widened W p history = widened W q history := by
    rw [widened,widened,← ht.first,← ht.pos]
    exact search_congr (Nat.mod_lt _ W.succ_pos) fun j hj hbefore =>
      hp.record_agree hq (hp.extend_slot hW hlen hs hj hbefore).le
  have hnarrow : narrowed W p history = narrowed W q history := by
    rw [narrowed,narrowed,← ht.len,← ht.first]
    exact search_congr (addIndex_lt _ _) fun j hj _ => hp.record_agree hq (narrow_slot htrend hW hj).le
  rw [hp.lookup hW hlen,hq.lookup hW (ht.len ▸ hlen)]
  refine ⟨by rw [hfirst,hnarrow],fun k hk => ?_⟩
  cases hsearch : widened W p history with
  | some i =>
    rw [hsearch] at hk
    cases hk
    obtain ⟨j,hj,hslot,-,hbefore⟩ := (search_some (Nat.mod_lt _ W.succ_pos)).mp hsearch
    rw [← hslot]
    exact hp.extend_slot hW hlen hs hj hbefore
  | none =>
    rw [hsearch] at hk
    obtain ⟨j,hj,hslot,-⟩ := (search_some (addIndex_lt _ _)).mp hk
    rw [← hslot]
    exact narrow_slot htrend hW hj

theorem adapt_ring (p : Predictor T) (history : T) :
    (p.adapt W history).histories = p.histories ∧ (p.adapt W history).nextHistoryIndex = p.nextHistoryIndex ∧
      (p.adapt W history).filledElemNum = p.filledElemNum := by
  unfold Predictor.adapt
  split
  · exact ⟨rfl,rfl,rfl⟩
  split
  · unfold Predictor.updatePosInTrend
    split <;> exact ⟨rfl,rfl,rfl⟩
  · cases p.lookup W history <;> exact ⟨rfl,rfl,rfl⟩

theorem Recorded.snoc (hp : Recorded strides p) (hW : strides.length < W)
    (h : let q := (p.record W history).adapt W history
      q.trendLen ≠ 0 ∧ q.trendBeginIndex+q.posInTrend+q.trendLen = strides.length+1) :
    Recorded (strides++[history]) (p.addHistory W history) := by
  obtain ⟨hring,hnext,hfilled⟩ := adapt_ring (W := W) (p.record W history) history
  have hlength : (strides++[history]).length = strides.length+1 := List.length_append
  refine ⟨?_,?_,?_,fun h0 => absurd h0 h.1,fun _ => hlength ▸ h.2⟩
  · change addIndex W ((p.record W history).adapt W history).nextHistoryIndex 1 = _
    rw [hnext,hlength]
    change addIndex W p.nextHistoryIndex 1 = _
    rw [hp.next,addIndex_of_le (by omega)]
  · change ((p.record W history).adapt W history).filledElemNum = _
    rw [hfilled,hlength]
    simp only [Predictor.record,hp.filled]
    rw [if_pos hW.le]
  · intro i hi
    change _ = some (((p.record W history).adapt W history).histories i)
    rw [hlength] at hi
    rw [hring]
    rcases Nat.lt_succ_iff_lt_or_eq.mp hi with hlt | rfl
    · rw [List.getElem?_append_left hlt,hp.record_old hlt.ne,hp.slots i hlt]
    · rw [List.getElem?_append_right le_rfl,Nat.sub_self,hp.record_new]
      rfl

theorem restart_len {n k : ℕ} (hk : k < n) (hn : n ≤ W) : (n+kHistorySize W-k)%kHistorySize W = n-k := by
  rw [show n+kHistorySize W-k = n-k+kHistorySize W by unfold kHistorySize; omega,Nat.add_mod_right]
  exact Nat.mod_eq_of_lt (by unfold kHistorySize; omega)

theorem Recorded.step (hp : Recorded strides p) (hW : strides.length < W) (hs : StaysRecorded W p history) :
    Recorded (strides++[history]) (p.addHistory W history) := by
  refine hp.snoc hW ?_
  unfold Predictor.adapt
  by_cases hlen : p.trendLen = 0
  · rw [if_pos (show (p.record W history).trendLen = 0 from hlen)]
    exact ⟨Nat.one_ne_zero,congrArg (·+1) hp.next⟩
  have htrend := hp.trend hlen
  rw [if_neg (show (p.record W history).trendLen ≠ 0 from hlen)]
  by_cases hf : (p.record W history).Follows W history
  · rw [if_pos hf,Predictor.updatePosInTrend]
    split
    · rename_i hend
      change p.posInTrend+1 = p.trendLen at hend
      refine ⟨hlen,?_⟩
      change addIndex W p.trendBeginIndex p.trendLen+0+p.trendLen = _
      rw [addIndex_of_le (by omega)]
      omega
    · refine ⟨hlen,?_⟩
      change p.trendBeginIndex+(p.posInTrend+1)+p.trendLen = _
      omega
  · rw [if_neg hf]
    have hrange := hs hlen fun h => hf ((hp.follows_record hW hlen).mpr h)
    cases hl : (p.record W history).lookup W history with
    | none => exact ⟨Nat.one_ne_zero,congrArg (·+1) hp.next⟩
    | some k =>
      have hk := (lookup_recorded hp hp ⟨rfl,rfl,rfl,rfl,rfl⟩ hW hlen hrange).2 k hl
      change (p.nextHistoryIndex+kHistorySize W-k)%kHistorySize W ≠ 0 ∧
        k+1+(p.nextHistoryIndex+kHistorySize W-k)%kHistorySize W = _
      rw [hp.next,restart_len hk hW.le]
      omega

theorem Twins.step (hp : Recorded strides p) (hq : Recorded strides q) (ht : Twins p q)
    (hW : strides.length < W) (hs : StaysRecorded W p history) :
    Twins (p.addHistory W history) (q.addHistory W history) := by
  have hnext : p.nextHistoryIndex = q.nextHistoryIndex := hp.next.trans hq.next.symm
  unfold Predictor.addHistory Predictor.adapt
  by_cases hlen : p.trendLen = 0
  · rw [if_pos (show (p.record W history).trendLen = 0 from hlen),
      if_pos (show (q.record W history).trendLen = 0 from ht.len ▸ hlen)]
    exact ⟨hnext,rfl,rfl,rfl,rfl⟩
  have hfollows : (p.record W history).Follows W history ↔ (q.record W history).Follows W history := by
    rw [hp.follows_record hW hlen,hq.follows_record hW (ht.len ▸ hlen),ht.follows hp hq hW.le hlen]
  rw [if_neg (show (p.record W history).trendLen ≠ 0 from hlen),
    if_neg (show (q.record W history).trendLen ≠ 0 from ht.len ▸ hlen)]
  by_cases hf : (p.record W history).Follows W history
  · rw [if_pos hf,if_pos (hfollows.mp hf)]
    have hrec : Twins (p.record W history) (q.record W history) := ⟨ht.first,ht.len,ht.pos,ht.success,ht.changed⟩
    obtain ⟨hfirst,hlen',hpos,-,-⟩ := hrec.follow (W := W)
    exact ⟨hfirst,hlen',hpos,rfl,rfl⟩
  · rw [if_neg hf,if_neg fun h => hf (hfollows.mpr h)]
    have hrange := hs hlen fun h => hf ((hp.follows_record hW hlen).mpr h)
    rw [(lookup_recorded hp hq ht hW hlen hrange).1]
    cases (q.record W history).lookup W history with
    | none => exact ⟨hnext,rfl,rfl,rfl,rfl⟩
    | some k => exact ⟨rfl,congrArg (fun n => (n+kHistorySize W-k)%kHistorySize W) hnext,rfl,rfl,rfl⟩

/-- The state of a run is the one of its strides, and the rings of all runs over them
agree on what was recorded. -/
theorem recorded_after {junk : ℕ → T} {tr : List (T × Unit)} {p : Predictor T}
    (h : Trace (step W) (StaysRecorded W) (init junk) tr p) (hW : tr.length ≤ W) :
    p = after W junk (tr.map Prod.fst) ∧
      ∀ junk', Recorded (tr.map Prod.fst) (after W junk' (tr.map Prod.fst)) ∧
        Twins p (after W junk' (tr.map Prod.fst)) := by
  induction h with
  | nil => exact ⟨rfl,fun junk' => ⟨init_recorded junk',rfl,rfl,rfl,rfl,rfl⟩⟩
  | @snoc tr p p' history out _ hok hs ih =>
    rw [List.length_append,List.length_singleton] at hW
    obtain ⟨hp,htwins⟩ := ih (by omega)
    cases hs
    have hmap : (tr++[(history,())]).map Prod.fst = tr.map Prod.fst++[history] := List.map_append
    have hafter : ∀ junk', after W junk' (tr.map Prod.fst++[history]) =
        (after W junk' (tr.map Prod.fst)).addHistory W history := fun junk' => List.foldl_concat ..
    have hlt : (tr.map Prod.fst).length < W := by rw [List.length_map]; omega
    have hrec := (htwins junk).1
    rw [← hp] at hrec
    rw [hmap,hafter,hp]
    refine ⟨rfl,fun junk' => ?_⟩
    rw [hafter,← hp]
    obtain ⟨hrec',ht⟩ := htwins junk'
    exact ⟨hrec'.step hlt (ht.staysRecorded hrec hrec' hlt.le hok),ht.step hrec hrec' hlt hok⟩

theorem after_snoc (junk : ℕ → T) (strides : List T) (history : T) :
    after W junk (strides++[history]) = (after W junk strides).addHistory W history := List.foldl_concat ..

/-- The slots behind the strides still hold what they held before. -/
theorem after_unwritten (junk : ℕ → T) (hW : strides.length ≤ W) :
    (after W junk strides).nextHistoryIndex = strides.length ∧
      ∀ i, strides.length ≤ i → (after W junk strides).histories i = junk i := by
  induction strides using List.reverseRecOn with
  | nil => exact ⟨rfl,fun _ _ => rfl⟩
  | append_singleton strides history ih =>
    rw [List.length_append,List.length_singleton] at hW ⊢
    obtain ⟨hnext,hold⟩ := ih (by omega)
    obtain ⟨hring,hsame,-⟩ := adapt_ring (W := W) ((after W junk strides).record W history) history
    rw [after_snoc]
    constructor
    · change addIndex W (((after W junk strides).record W history).adapt W history).nextHistoryIndex 1 = _
      rw [hsame]
      change addIndex W (after W junk strides).nextHistoryIndex 1 = _
      rw [hnext,addIndex_of_le hW]
    · intro i hi
      change (((after W junk strides).record W history).adapt W history).histories i = _
      rw [hring]
      change Function.update (after W junk strides).histories (after W junk strides).nextHistoryIndex history i = _
      rw [Function.update_of_ne (by omega),hold i (by omega)]

/-- A stride that does not follow the trend restarts it where it is found. -/
theorem addHistory_restart (hlen : p.trendLen ≠ 0) (hf : ¬ (p.record W history).Follows W history) :
    (p.addHistory W history).trendBeginIndex = ((p.record W history).lookup W history).getD p.nextHistoryIndex ∧
      ∀ k, (p.record W history).lookup W history = some k →
        (p.addHistory W history).matchTrend = true ∧
          (p.addHistory W history).trendLen = (p.nextHistoryIndex+kHistorySize W-k)%kHistorySize W := by
  unfold Predictor.addHistory Predictor.adapt
  rw [if_neg (show (p.record W history).trendLen ≠ 0 from hlen),if_neg hf]
  cases (p.record W history).lookup W history with
  | none => exact ⟨rfl,fun k hk => by cases hk⟩
  | some i =>
    refine ⟨rfl,fun k hk => ?_⟩
    cases hk
    exact ⟨rfl,rfl⟩

/-- The search reaches the newest stride before any other: the trend has no length. -/
theorem Recorded.finds_newest (history : T) (hp : Recorded strides p) (hW : strides.length < W) (hlen : p.trendLen ≠ 0)
    (hround : kHistorySize W ≤ strides.length+p.posInTrend)
    (hnew : ∀ i < strides.length, kHistorySize W ≤ i+p.posInTrend → history ≠ p.histories i) :
    (p.record W history).lookup W history = some strides.length := by
  have htrend := hp.trend hlen
  have hK : kHistorySize W = W+1 := rfl
  have hfound : widened W p history = some strides.length := by
    rw [widened,Nat.mod_eq_of_lt (by omega),search_some (by omega)]
    refine ⟨strides.length-(kHistorySize W-p.posInTrend),by omega,?_,hp.record_new.symm,fun j hj => ?_⟩
    · rw [addIndex_of_le (by omega)]
      omega
    · rw [addIndex_of_le (by omega),hp.record_old (by omega)]
      exact hnew _ (by omega) (by omega)
  rw [hp.lookup hW hlen,hfound]

/-- The search starts behind the strides. If the memory there happens to hold the stride,
the trend starts there, -/
theorem Recorded.finds_junk (hp : Recorded strides p) (hW : strides.length < W) (hlen : p.trendLen ≠ 0)
    (hpos : p.posInTrend ≠ 0) (hbehind : strides.length+p.posInTrend < kHistorySize W)
    (hjunk : p.histories (kHistorySize W-p.posInTrend) = history) :
    (p.record W history).lookup W history = some (kHistorySize W-p.posInTrend) := by
  have hfound : widened W p history = some (kHistorySize W-p.posInTrend) := by
    rw [widened,Nat.mod_eq_of_lt (by omega),search_some (by omega)]
    refine ⟨0,by omega,addIndex_zero (by omega),?_,fun j hj => absurd hj (Nat.not_lt_zero _)⟩
    rw [hp.record_old (by omega),hjunk]
  rw [hp.lookup hW hlen,hfound]

/-- and if nothing there equals it, the trend starts at a recorded stride. -/
theorem Recorded.finds_recorded (history : T) (hp : Recorded strides p) (hW : strides.length < W) (hlen : p.trendLen ≠ 0)
    (hjunk : ∀ i, strides.length ≤ i → p.histories i ≠ history) :
    ((p.record W history).lookup W history).getD strides.length ≤ strides.length := by
  have htrend := hp.trend hlen
  rw [hp.lookup hW hlen]
  cases hsearch : widened W p history with
  | some k =>
    obtain ⟨j,hj,hslot,hist,-⟩ := (search_some (Nat.mod_lt _ W.succ_pos)).mp hsearch
    change k ≤ strides.length
    by_contra hgt
    rw [hp.record_old (by omega)] at hist
    exact hjunk k (by omega) hist.symm
  | none =>
    change (narrowed W p history).getD _ ≤ _
    cases hnarrow : narrowed W p history with
    | none => exact le_rfl
    | some k =>
      obtain ⟨j,hj,hslot,-⟩ := (search_some (addIndex_lt _ _)).mp hnarrow
      change k ≤ strides.length
      rw [← hslot]
      exact (narrow_slot htrend hW hj).le

/-- A stride that strays from the recorded ones gives results that depend on the memory,
or a trend without length. -/
theorem strays (hp : Recorded strides p)
    (hall : ∀ junk, Recorded strides (after W junk strides) ∧ Twins p (after W junk strides))
    (hW : strides.length < W) (hs : ¬ StaysRecorded W p history) : ¬ FromHistory W (strides++[history]) := by
  intro hfrom
  simp only [StaysRecorded,Classical.not_imp,not_or,not_exists,not_and] at hs
  obtain ⟨hlen,hf,hpos,hnone⟩ := hs
  have hbreak : ∀ junk, (after W junk strides).trendLen ≠ 0 ∧
      ¬ ((after W junk strides).record W history).Follows W history := by
    intro junk
    obtain ⟨hq,ht⟩ := hall junk
    have hqlen : (after W junk strides).trendLen ≠ 0 := ht.len ▸ hlen
    rw [hq.follows_record hW hqlen]
    exact ⟨hqlen,fun h => hf ((ht.follows hp hq hW.le hlen).mpr h)⟩
  by_cases hround : kHistorySize W ≤ strides.length+p.posInTrend
  · obtain ⟨hq,ht⟩ := hall fun _ => history
    obtain ⟨hqlen,hqf⟩ := hbreak fun _ => history
    have hlookup := hq.finds_newest history hW hqlen (ht.pos ▸ hround) fun i hi hle => by
      rw [← hp.agree hq hi]
      exact hnone i (hp.next ▸ hi) (ht.pos ▸ hle)
    obtain ⟨hmatch,hzero⟩ := (addHistory_restart hqlen hqf).2 _ hlookup
    have hexpects := (hfrom fun _ => history).2
    rw [after_snoc] at hexpects
    have hone := (hexpects hmatch).1.1
    rw [hzero,hq.next,Nat.add_sub_cancel_left,Nat.mod_self] at hone
    exact absurd hone (by decide)
  · -- the first slot that is looked at was never written
    obtain ⟨hq,ht⟩ := hall fun _ => history
    obtain ⟨hqlen,hqf⟩ := hbreak fun _ => history
    obtain ⟨hr,hu⟩ := hall fun _ => p.histories (addIndex W p.trendBeginIndex p.posInTrend)
    obtain ⟨hrlen,hrf⟩ := hbreak fun _ => p.histories (addIndex W p.trendBeginIndex p.posInTrend)
    have hsame := ((hfrom fun _ => history).1 fun _ => p.histories (addIndex W p.trendBeginIndex p.posInTrend)).1.1
    rw [after_snoc,after_snoc,(addHistory_restart hqlen hqf).1,(addHistory_restart hrlen hrf).1,
      hq.finds_junk hW hqlen (ht.pos ▸ hpos) (by rw [← ht.pos]; omega)
        ((after_unwritten _ hW.le).2 _ (by rw [← ht.pos]; omega)),hr.next,← ht.pos] at hsame
    have hle := hr.finds_recorded history hW hrlen fun i hi => by
      rw [(after_unwritten _ hW.le).2 i hi]
      exact fun heq => hf heq.symm
    rw [← hsame] at hle
    change kHistorySize W-p.posInTrend ≤ strides.length at hle
    omega

theorem fromHistory (hW : strides.length ≤ W)
    (hall : ∀ junk, Recorded strides (after W junk strides) ∧ Twins p (after W junk strides)) : FromHistory W strides := by
  intro junk
  obtain ⟨hq,ht⟩ := hall junk
  refine ⟨fun junk' => ?_,hq.expects hW⟩
  obtain ⟨hq',ht'⟩ := hall junk'
  exact hq.same hq' ⟨ht.first.symm.trans ht'.first,ht.len.symm.trans ht'.len,ht.pos.symm.trans ht'.pos,
    ht.success.symm.trans ht'.success,ht.changed.symm.trans ht'.changed⟩ hW

end Search

/-- Over any sequence of strides that fits the window, a run in which every stride keeps
to the recorded ones gives results that do not depend on the slots never written, and a
matching trend of length `L` expects the stride recorded `L` positions before the next
one. The condition is exact: the next stride leaves this true exactly if it keeps to the
recorded ones. -/
theorem predicts_from_history {T : Type*} [DecidableEq T] {W : ℕ} {junk : ℕ → T} {tr : List (T × Unit)}
    {p : Predictor T} (h : Trace (step W) (StaysRecorded W) (init junk) tr p) (hW : tr.length ≤ W) :
    FromHistory W (tr.map Prod.fst) ∧
      (tr.length < W → ∀ history, FromHistory W (tr.map Prod.fst++[history]) ↔ StaysRecorded W p history) := by
  have hlength : (tr.map Prod.fst).length = tr.length := List.length_map _
  obtain ⟨hp,hall⟩ := recorded_after h hW
  refine ⟨fromHistory (hlength ▸ hW) hall,fun hlt history => ⟨fun hh => ?_,fun hok => ?_⟩⟩
  · by_contra hs
    exact strays (hp ▸ (hall junk).1) hall (hlength ▸ hlt) hs hh
  · have hnext := (recorded_after (h.snoc hok rfl) (by rw [List.length_append]; exact hlt)).2
    rw [List.map_append] at hnext
    exact fromHistory (by rw [List.length_append,hlength]; exact hlt) hnext

/-- A trend of two strides that is left at the start of a repetition. -/
theorem predicts_from_history_alternating : ∃ tr p, Trace (step 32) (StaysRecorded 32) (init fun _ => (0 : ℤ)) tr p ∧
    p.matchTrend = true ∧ p.trendLen = 3 ∧ FromHistory 32 (tr.map Prod.fst) := by
  have hrun : (exec (step 32) (StaysRecorded 32) (init fun _ => (0 : ℤ)) [1,2,1,2,2]).map
      (fun r => (r.1.length,r.2.matchTrend,r.2.trendLen)) = some (5,true,3) := by decide +kernel
  obtain ⟨outs,p,ht,hobs⟩ := exec_observe hrun
  simp only [Prod.mk.injEq] at hobs
  have hlen : ([1,2,1,2,2].zip outs : List (ℤ × Unit)).length ≤ 32 := by
    rw [List.length_zip,hobs.1]
    decide
  exact ⟨_,p,ht,hobs.2.1,hobs.2.2,(predicts_from_history ht hlen).1⟩

/-- With the window of the prefetcher: the second repetition of two strides breaks off
with a stride never seen before. It is found if the last slot of the ring, which was never
written, happens to hold it. -/
theorem unwritten_slot_predicts :
    let strides : List ℤ := [1,2,1,9]
    (after 32 (fun _ => 0) strides).matchTrend = false ∧
      (after 32 (fun _ => 9) strides).matchTrend = true ∧
      (after 32 (fun _ => 9) strides).trendBeginIndex = 32 ∧ ¬ FromHistory 32 strides := by
  have hrun : (after 32 (fun _ => 0) [1,2,1,(9 : ℤ)]).matchTrend = false ∧
      (after 32 (fun _ => 9) [1,2,1,(9 : ℤ)]).matchTrend = true ∧
      (after 32 (fun _ => 9) [1,2,1,(9 : ℤ)]).trendBeginIndex = 32 := by decide +kernel
  refine ⟨hrun.1,hrun.2.1,hrun.2.2,fun hfrom => ?_⟩
  have hsame := ((hfrom fun _ => 0).1 fun _ => 9).2.1.1
  rw [hrun.1,hrun.2.1] at hsame
  cases hsame

end FarMemory.TrendPredictor
