import FarMemory.DataFrameAssign

/-!
# Aggregation by runs of equal keys

What aggregation computes: one value for each maximal run of equal consecutive
keys. Both implementations hold a group in an aggregator and open the next one
where the key changes. They agree on all columns but two kinds: without any
elements the server still emits a value, and the client's loop reads the key
behind the last one, for which there need not be a chunk.
-/
namespace FarMemory.DataFrame
open CountedLoop StdVector ValueInit DataFrameVector OrderStatistic ColumnSelection

section Groups
variable {α κ : Type}

/-- The maximal runs of equal consecutive keys. -/
def keyRuns [DecidableEq κ] (l : List (κ × α)) : List (List (κ × α)) :=
  l.splitBy fun p q => decide (p.1 = q.1)

/-- `cur` is a run that may go on, behind the closed runs of `closed`. -/
structure OpenRun (closed cur : List (κ × α)) (last : κ) : Prop where
  same : ∀ p ∈ cur, p.1 = last
  change : ∀ p ∈ closed.getLast?, p.1 ≠ last

namespace OpenRun
variable {closed cur : List (κ × α)} {last k : κ} {x : α}

theorem nil (last : κ) : OpenRun ([] : List (κ × α)) [] last := ⟨by simp,by simp⟩

theorem extend (h : OpenRun closed cur last) (x : α) : OpenRun closed (cur++[(last,x)]) last := by
  refine ⟨fun p hp => ?_,h.change⟩
  rcases List.mem_append.mp hp with hp | hp
  · exact h.same p hp
  · rw [List.mem_singleton.mp hp]

theorem last_key (h : OpenRun closed cur last) (hne : cur ≠ []) :
    ∀ p ∈ (closed++cur).getLast?, p.1 = last := by
  intro p hp
  rw [List.getLast?_append_of_ne_nil _ hne] at hp
  exact h.same p (List.mem_of_getLast? hp)

theorem keyRuns_eq [DecidableEq κ] (h : OpenRun closed cur last) (hne : cur ≠ []) :
    keyRuns (closed++cur) = keyRuns closed++[cur] := by
  have hchain : cur.IsChain fun p q => decide (p.1 = q.1) = true := by
    apply List.Pairwise.isChain
    rw [List.pairwise_iff_forall_sublist]
    intro p q hsub
    have hp := h.same p (hsub.subset (by simp))
    have hq := h.same q (hsub.subset (by simp))
    simp [hp,hq]
  unfold keyRuns
  rw [List.splitBy_append,List.splitBy_of_isChain hne hchain]
  intro p hp q hq
  have hq := h.same q (List.mem_of_mem_head? hq)
  simpa [hq] using h.change p hp

end OpenRun
end Groups

section Values
variable {α : Type} [LinearOrder α] [Numeric α] {g l : List α} {n : ℕ}

/-- The value of a group of one operation. -/
def groupValue (op : AggregateOp) (g : List α) : α :=
  let nth (n : ℕ) := (g.mergeSort (· ≤ ·))[n]?.getD limitMin
  match op with
  | .max => g.foldl max limitMin
  | .min => g.foldl min limitMax
  | .median =>
    if g.length%2 = 0 then halfSum (nth (g.length/2)) (nth (g.length/2-1)) else nth (g.length/2)

/-- The aggregator has been given the values of `g` since the last result. -/
def Aggregator.Holds (op : AggregateOp) (g : List α) : Aggregator α → Prop
  | .max tmp => op = .max ∧ tmp = g.foldl Max.max limitMin
  | .min tmp => op = .min ∧ tmp = g.foldl Min.min limitMax
  | .median vec => op = .median ∧ vec = g
  | .medianLimitedMem vec _ => op = .median ∧ vec = g

theorem build_holds (op : AggregateOp) (limited : Bool) :
    (Aggregator.build op limited : Aggregator α).Holds op [] := by
  cases op <;> cases limited <;> exact ⟨rfl,rfl⟩

theorem add_holds {op : AggregateOp} {ag : Aggregator α} (h : ag.Holds op g) (x : α) :
    (ag.add x).Holds op (g++[x]) := by
  cases ag <;> exact ⟨h.1,by simp [h.2]⟩

theorem isNth_mergeSort (hn : n < l.length) :
    IsNth l n ((l.mergeSort (· ≤ ·))[n]?.getD limitMin) := by
  have hlen : n < (l.mergeSort (· ≤ ·)).length := by rwa [List.length_mergeSort]
  rw [List.getElem?_eq_getElem hlen,Option.getD_some]
  exact (isNth_of_sorted (List.pairwise_mergeSort' (· ≤ ·) l) hlen).perm (List.mergeSort_perm l _)

theorem arrange_nth (lib : NthElement α) (hp : l.Perm g)
    (hn : n < g.length) :
    (lib.arrange l n)[n]? = some ((g.mergeSort (· ≤ ·))[n]?.getD limitMin) := by
  have hlen : n < (lib.arrange l n).length := by rwa [(lib.perm l n).length_eq,hp.length_eq]
  have hget := List.getElem?_eq_getElem hlen
  rw [hget]
  exact congrArg some (((lib.nth l n _ hget).perm hp).unique (isNth_mergeSort hn))

theorem select_nth (rand : ℕ → ℕ) (hp : l.Perm g) (hn : n < g.length) :
    ∃ l', Aggregator.select rand l n =
      some ((g.mergeSort (· ≤ ·))[n]?.getD limitMin,l') ∧ l'.Perm g := by
  have hwin : window (fun i => l[i]?.getD limitMin) 0 l.length = l := by
    apply List.ext_getElem
    · simp
    · intro i h1 h2
      simp [window,List.getElem?_eq_getElem h2]
  obtain ⟨r,a',hrun,hnth,hre⟩ := nthElement_spec rand (fun i => l[i]?.getD limitMin) l.length n
    (by rwa [hp.length_eq])
  rw [hwin] at hnth
  have hperm := hre.perm
  rw [hwin] at hperm
  refine ⟨window a' 0 l.length,?_,hperm.trans hp⟩
  rw [← (hnth.perm hp).unique (isNth_mergeSort hn)]
  simp only [Aggregator.select,hrun,Option.map_some]

theorem aggregate_holds (lib : NthElement α) (rand : ℕ → ℕ → ℕ) {op : AggregateOp}
    {ag : Aggregator α} (h : ag.Holds op g) (hne : g ≠ []) :
    ∃ ag', ag.aggregate lib rand = some (groupValue op g,ag') ∧ ag'.Holds op [] := by
  have hpos : 0 < g.length := List.length_pos_iff.mpr hne
  rcases ag with tmp | tmp | vec | ⟨vec,calls⟩
  · obtain ⟨rfl,rfl⟩ := h
    exact ⟨.max limitMin,rfl,rfl,rfl⟩
  · obtain ⟨rfl,rfl⟩ := h
    exact ⟨.min limitMax,rfl,rfl,rfl⟩
  · obtain ⟨rfl,rfl⟩ := h
    have h1 := arrange_nth lib (.refl vec) (n := vec.length/2) (by omega)
    have h2 := arrange_nth lib (lib.perm vec (vec.length/2)) (n := vec.length/2-1) (by omega)
    refine ⟨.median [],?_,rfl,rfl⟩
    simp only [Aggregator.aggregate,groupValue,h1,h2,Option.bind_eq_bind,Option.bind_some]
    split <;> rfl
  · obtain ⟨rfl,rfl⟩ := h
    obtain ⟨l',h1,hp⟩ := select_nth (rand calls) (.refl vec) (n := vec.length/2) (by omega)
    obtain ⟨l'',h2,_⟩ := select_nth (rand (calls+1)) hp (n := vec.length/2-1) (by omega)
    by_cases heven : vec.length%2 = 0
    · refine ⟨.medianLimitedMem [] (calls+2),?_,rfl,rfl⟩
      simp only [Aggregator.aggregate,groupValue,h1,h2,heven,if_true,Option.bind_eq_bind,
        Option.bind_some]
    · refine ⟨.medianLimitedMem [] (calls+1),?_,rfl,rfl⟩
      simp only [Aggregator.aggregate,groupValue,h1,heven,if_false,Option.bind_eq_bind,
        Option.bind_some]

end Values

section Server
variable {α κ : Type} [LinearOrder α] [Numeric α] [DecidableEq κ] (al : Allocator)
  (lib : NthElement α) (rand : ℕ → ℕ → ℕ) (op : AggregateOp) (data : Vec α) (keys : Vec κ)
  (l : List (κ × α))

/-- One value for each run of equal keys, in order. -/
def groupValues : List α := (keyRuns l).map fun g => groupValue op (g.map Prod.snd)

theorem groupValues_close {closed cur : List (κ × α)} {last : κ} (h : OpenRun closed cur last) (hne : cur ≠ []) :
    groupValues op (closed++cur) = groupValues op closed++[groupValue op (cur.map Prod.snd)] := by
  simp only [groupValues,h.keyRuns_eq hne,List.map_append,List.map_cons,List.map_nil]

/-- After `i` elements of the pass: the first group is only opened by its element. -/
def PassInv (i : ℕ) (st : Aggregator α × κ × Vec α) : Prop :=
  ∃ closed cur, l.take i = closed++cur ∧ OpenRun closed cur st.2.1 ∧
    (cur = [] → i = 0 ∧ ∀ p ∈ l.head?, p.1 = st.2.1) ∧ st.1.Holds op (cur.map Prod.snd) ∧
    st.2.2.elements = (groupValues op closed).map some

variable {l}

theorem aggregateElement_spec (hk : ∀ i (h : i < l.length), keys.read i = some (some l[i].1))
    (hd : ∀ i (h : i < l.length), data.read i = some (some l[i].2)) {i : ℕ} (hi : i < l.length)
    {st : Aggregator α × κ × Vec α} (h : PassInv op l i st) :
    ∃ st', aggregateElement al lib rand data keys i st = some st' ∧ PassInv op l (i+1) st' := by
  obtain ⟨ag,last,res⟩ := st
  obtain ⟨closed,cur,htake,hrun,hfirst,hag,hres⟩ := h
  have hnext : l.take (i+1) = l.take i++[l[i]] := (List.take_append_getElem hi).symm
  have hkey := hk i hi
  have hdata := hd i hi
  rcases hp : l[i] with ⟨k,x⟩
  rw [hp] at hkey hdata hnext
  by_cases hlast : last = k
  · subst hlast
    refine ⟨(ag.add x,last,res),?_,closed,cur++[(last,x)],?_,hrun.extend x,by simp,?_,hres⟩
    · simp [aggregateElement,hkey,hdata]
    · rw [hnext,htake,List.append_assoc]
    · rw [List.map_append]
      exact add_holds hag x
  · have hne : cur ≠ [] := by
      intro hnil
      obtain ⟨rfl,hhead⟩ := hfirst hnil
      refine hlast (hhead (k,x) ?_).symm
      rw [List.head?_eq_getElem?,List.getElem?_eq_getElem hi,hp]
      exact rfl
    obtain ⟨ag',hagg,hag'⟩ := aggregate_holds lib rand hag (by simpa using hne)
    refine ⟨(ag'.add x,k,res.pushBack al (some (groupValue op (cur.map Prod.snd)))),?_,closed++cur,
      [(k,x)],?_,⟨by simp,fun p hp => ?_⟩,by simp,add_holds hag' x,?_⟩
    · simp [aggregateElement,hkey,hdata,hlast,hagg]
    · rw [hnext,htake]
    · rw [hrun.last_key hne p hp]
      exact hlast
    · rw [Vec.elements_pushBack,hres,groupValues_close op hrun hne,List.map_append]
      rfl

theorem computeAggregate_spec (hk : ∀ i (h : i < l.length), keys.read i = some (some l[i].1))
    (hd : ∀ i (h : i < l.length), data.read i = some (some l[i].2)) (hpos : 0 < l.length) :
    ∃ s, computeAggregate al lib rand op data keys l.length .new = some s ∧
      s.elements = (groupValues op l).map some := by
  have hinit : PassInv op l 0 (Aggregator.build op false,l[0].1,Vec.new) := by
    refine ⟨[],[],rfl,.nil _,fun _ => ⟨rfl,fun p hp => ?_⟩,build_holds op false,rfl⟩
    rw [List.head?_eq_getElem?,List.getElem?_eq_getElem hpos] at hp
    rw [← Option.some.inj hp]
  obtain ⟨⟨ag,last,res⟩,hrun,closed,cur,htake,hopen,hfirst,hag,hres⟩ :=
    loop_total (PassInv op l) hinit fun i hi st h =>
      aggregateElement_spec al lib rand op data keys hk hd hi h
  rw [List.take_length] at htake
  have hne : cur ≠ [] := fun hnil => by
    have := (hfirst hnil).1
    omega
  obtain ⟨ag',hagg,_⟩ := aggregate_holds lib rand hag (by simpa using hne)
  refine ⟨res.pushBack al (some (groupValue op (cur.map Prod.snd))),?_,?_⟩
  · simp [computeAggregate,hk 0 hpos,hrun,hagg]
  · rw [Vec.elements_pushBack,hres,htake,groupValues_close op hopen hne,List.map_append]
    rfl

/-- Over no elements the pass still emits a value, if it gets that far. -/
theorem computeAggregate_empty {s : Vec α}
    (h : computeAggregate al lib rand op data keys 0 .new = some s) : s.elements.length = 1 := by
  simp only [computeAggregate,loop_zero,Option.bind_eq_bind,Option.bind_some,
    Option.bind_eq_some_iff] at h
  obtain ⟨_,_,_,_,⟨⟩⟩ := h
  rw [Vec.elements_pushBack]
  rfl

end Server

section Push
variable {α : Type} [ValueInit α] (al : Allocator) {w : DataFrameVector α}

theorem Native.pushBack (h : Native w) {xs : List α} (hc : w.contents = xs.map some) (x : α) :
    ∃ w', w.pushBack al (some x) = some w' ∧ Native w' ∧ w'.contents = (xs++[x]).map some := by
  obtain ⟨w',hw',hn,hsize,hlast,hold⟩ := h.push al (some x)
  refine ⟨w',hw',hn,?_⟩
  rw [contents,hsize,List.range_succ,List.map_append,List.map_append,← hc]
  simp only [List.map_cons,List.map_nil,hlast,contents]
  congr 1
  apply List.map_congr_left
  intro j hj
  have hj := List.mem_range.mp hj
  have hmem : w.view j ∈ xs.map some := by
    rw [← hc]
    exact List.mem_map.mpr ⟨j,List.mem_range.mpr hj,rfl⟩
  obtain ⟨y,_,hy⟩ := List.mem_map.mp hmem
  rw [← hy,hold j y (by omega) hy.symm]

end Push

theorem Kept.begin {α : Type} {v w : DataFrameVector α} (h : Kept v w) (hs : 0 < v.size) (j : ℕ) :
    ∃ w', w.fastIterator false j = some w' ∧ Kept v w' := by
  obtain ⟨w',hw',hk⟩ := fastIterator_spec h.inStep (h.inStep.chunks_ne_nil (by rwa [h.size])) j
  exact ⟨w',hw',h.trans hk⟩

section Client
variable {α κ : Type} [LinearOrder α] [Numeric α] [DecidableEq κ]
  (lib : NthElement α) (rand : ℕ → ℕ → ℕ) (op : AggregateOp)
  {v : DataFrameVector α} {keys : DataFrameVector κ} {l : List (κ × α)}

/-- The columns hold the pairs of `l`, and a key behind the last one can be read. -/
structure Columns (v : DataFrameVector α) (keys : DataFrameVector κ) (l : List (κ × α)) : Prop where
  data : InStep v
  inStep : InStep keys
  data_size : v.size = l.length
  keys_size : keys.size = l.length
  data_view : ∀ i (h : i < l.length), v.view i = some l[i].2
  keys_view : ∀ i (h : i < l.length), keys.view i = some l[i].1

variable (h : Columns v keys l) (hcap : l.length < keys.capacity) (fuel : ℕ) {i : ℕ} {ag : Aggregator α}
  {u : DataFrameVector α} {c : DataFrameVector κ} (hi : i ≤ l.length) (hf : l.length-i < fuel)
  (hu : Kept v u) (hc : Kept keys c)
include h hcap hi hf hu hc

theorem aggregateGroup_spec (last : κ) {g : List α} (hag : ag.Holds op g) :
    ∃ j cur ag' u' c', aggregateGroup l.length last fuel i (ag,u,c) = some (j,ag',u',c') ∧
      l.take j = l.take i++cur ∧ (∀ p ∈ cur, p.1 = last) ∧ j ≤ l.length ∧
      (∀ hj : j < l.length, l[j].1 ≠ last) ∧ ag'.Holds op (g++cur.map Prod.snd) ∧ Kept v u' ∧
      Kept keys c' := by
  induction fuel generalizing i g ag u c with
  | zero => omega
  | succ fuel ih =>
    obtain ⟨c1,hc1,hkc1⟩ := hc.peek (j := i) (by omega)
    rcases Nat.eq_or_lt_of_le hi with rfl | hlt
    · refine ⟨l.length,[],ag,u,c1,?_,by simp,by simp,le_rfl,by simp,by simpa using hag,hu,hkc1⟩
      simp [aggregateGroup,hc1]
    rw [h.keys_view i hlt] at hc1
    by_cases hkey : l[i].1 = last
    · obtain ⟨u1,hu1,hku1⟩ := hu.read h.data (j := i) (by rwa [h.data_size])
      rw [h.data_view i hlt] at hu1
      obtain ⟨u2,hu2,hku2⟩ := hku1.advance i
      obtain ⟨c2,hc2,hkc2⟩ := hkc1.advance i
      obtain ⟨j,cur,ag',u',c',hrun,htake,hsame,hj,hstop,hag',hu',hc'⟩ :=
        ih (i := i+1) hlt (by omega) hku2 hkc2 (add_holds hag l[i].2)
      refine ⟨j,l[i]::cur,ag',u',c',?_,?_,?_,hj,hstop,?_,hu',hc'⟩
      · simp [aggregateGroup,hc1,hlt,hkey,hu1,hu2,hc2,hrun]
      · rw [htake,← List.take_append_getElem hlt,List.append_assoc,List.singleton_append]
      · intro p hp
        rcases List.mem_cons.mp hp with rfl | hp
        · exact hkey
        · exact hsame p hp
      · simpa using hag'
    · refine ⟨i,[],ag,u,c1,?_,by simp,by simp,hi,fun _ => hkey,by simpa using hag,hu,hkc1⟩
      simp [aggregateGroup,hc1,hlt,hkey]

variable [ValueInit α] (al : Allocator)

theorem aggregateGroups_spec {result : DataFrameVector α}
    (hopen : ∀ hlt : i < l.length, ∀ p ∈ (l.take i).getLast?, p.1 ≠ l[i].1)
    (hag : ag.Holds op []) (hr : Native result)
    (hres : result.contents = (groupValues op (l.take i)).map some) :
    ∃ r st, aggregateGroups al lib rand l.length fuel i (result,ag,u,c) = some (r,st) ∧
      r.contents = (groupValues op l).map some := by
  induction fuel generalizing i result ag u c with
  | zero => omega
  | succ fuel ih =>
    rcases Nat.eq_or_lt_of_le hi with rfl | hlt
    · refine ⟨result,(u,c),by simp [aggregateGroups],?_⟩
      rwa [List.take_length] at hres
    have hvs : 0 < v.size := by
      rw [h.data_size]
      omega
    have hks : 0 < keys.size := by
      rw [h.keys_size]
      omega
    -- the two iterators of the group: at the beginning, then at its first element
    obtain ⟨u1,hu1,hku1⟩ := hu.begin hvs 0
    obtain ⟨u2,hu2,hku2⟩ := hku1.begin hvs i
    obtain ⟨c1,hc1,hkc1⟩ := hc.begin hks 0
    obtain ⟨c2,hc2,hkc2⟩ := hkc1.begin hks i
    obtain ⟨c3,hc3,hkc3⟩ := hkc2.peek (j := i) (by omega)
    rw [h.keys_view i hlt] at hc3
    obtain ⟨j,cur,ag',u',c',hrun,htake,hsame,hj,hstop,hag',hu',hc'⟩ :=
      aggregateGroup_spec op h hcap (l.length+1) hi (by omega) hku2 hkc3 l[i].1 hag
    have hne : cur ≠ [] := by
      rintro rfl
      have hji : j = i := by
        have := congrArg List.length htake
        simp only [List.append_nil,List.length_take] at this
        omega
      exact hstop (by omega) (by simp only [hji])
    have hij : i < j := by
      have := congrArg List.length htake
      have := List.length_pos_iff.mpr hne
      simp only [List.length_append,List.length_take] at *
      omega
    have hor : OpenRun (l.take i) cur l[i].1 := ⟨hsame,hopen hlt⟩
    rw [List.nil_append] at hag'
    obtain ⟨ag'',hagg,hag''⟩ := aggregate_holds lib rand hag' (by simpa using hne)
    obtain ⟨result',hpush,hr',hres'⟩ := hr.pushBack al hres (groupValue op (cur.map Prod.snd))
    rw [← groupValues_close op hor hne,← htake] at hres'
    obtain ⟨r,st,hrest,hcont⟩ := ih (i := j) hj (by omega) hu' hc'
      (fun hjl p hp => by
        rw [htake] at hp
        rw [hor.last_key hne p hp]
        exact (hstop hjl).symm) hag'' hr' hres'
    refine ⟨r,st,?_,hcont⟩
    simp [aggregateGroups,hlt,cfbegin,hu1,hu2,hc1,hc2,hc3,hrun,hagg,hpush,hrest]

end Client
section Shapes
variable {α : Type} {v v' : DataFrameVector α} {i : ℕ}

theorem updateOnNewChunk_shape
    (h : v.updateOnNewChunk false i = some v') : SameShape v v' := by
  unfold updateOnNewChunk at h
  split at h
  · simp only [Bool.false_eq_true,if_false,Option.map_eq_some_iff] at h
    obtain ⟨⟨d,w⟩,hd,rfl⟩ := h
    exact deref_shape hd
  · cases h
    exact .refl v

theorem advance_shape (h : v.advance false i = some v') :
    SameShape v v' := by
  unfold advance at h
  split at h
  · exact updateOnNewChunk_shape h
  · cases h
    exact .refl v

theorem fastIterator_shape
    (h : v.fastIterator false i = some v') : SameShape v v' := by
  obtain ⟨-,h⟩ := Option.ite_none_left_eq_some.mp h
  exact updateOnNewChunk_shape h

theorem atIndex_lt {j : ℕ} {x : Option α}
    (h : v.atIndex j = some (x,v')) : j < v.capacity := by
  rw [← v.chunk_lt_iff]
  by_contra hge
  simp [atIndex,deref,List.getElem?_eq_none (not_lt.mp hge)] at h

end Shapes

section Behind
variable {α κ : Type} [LinearOrder α] [DecidableEq κ]

theorem aggregateGroup_reads {size fuel i j : ℕ} {last : κ} {ag ag' : Aggregator α}
    {u u' : DataFrameVector α} {c c' : DataFrameVector κ}
    (h : aggregateGroup size last fuel i (ag,u,c) = some (j,ag',u',c')) :
    SameShape c c' ∧ j < c.capacity := by
  induction fuel generalizing i ag u c with
  | zero => cases h
  | succ fuel ih =>
    simp only [aggregateGroup,Option.bind_eq_bind,Option.bind_eq_some_iff] at h
    obtain ⟨⟨k,c1⟩,hc1,h⟩ := h
    have hstop : SameShape c c1 ∧ i < c.capacity := ⟨atIndex_shape hc1,atIndex_lt hc1⟩
    split at h
    · simp only [Option.bind_eq_some_iff] at h
      obtain ⟨k,_,h⟩ := h
      split at h
      · simp only [Option.bind_eq_some_iff] at h
        obtain ⟨⟨x,u1⟩,_,x,_,u2,_,c2,hc2,h⟩ := h
        obtain ⟨hshape,hj⟩ := ih h
        have hto := hstop.1.trans (advance_shape hc2)
        exact ⟨hto.trans hshape,hj.trans_eq hto.column_capacity⟩
      · cases h
        exact hstop
    · cases h
      exact hstop

/-- Without a chunk behind the last key the client's loop cannot end. -/
theorem aggregateGroups_none [Numeric α] [ValueInit α] (al : Allocator) (lib : NthElement α)
    (rand : ℕ → ℕ → ℕ) {size fuel i : ℕ} {result : DataFrameVector α} {ag : Aggregator α}
    {u : DataFrameVector α} {c : DataFrameVector κ} (hi : i < size) (hcap : c.capacity ≤ size) :
    aggregateGroups al lib rand size fuel i (result,ag,u,c) = none := by
  induction fuel generalizing i result ag u c with
  | zero => rfl
  | succ fuel ih =>
    rw [Option.eq_none_iff_forall_ne_some]
    intro res h
    simp only [aggregateGroups,if_pos hi,cfbegin,Option.bind_eq_bind,Option.bind_eq_some_iff] at h
    obtain ⟨_,_,_,_,c1,hc1,c2,hc2,⟨k,c3⟩,hc3,_,_,⟨j,ag',u',c'⟩,hrun,_,_,_,_,hrest⟩ := h
    obtain ⟨hshape,hj⟩ := aggregateGroup_reads hrun
    have hto := ((fastIterator_shape hc1).trans (fastIterator_shape hc2)).trans (atIndex_shape hc3)
    have hj' : j < size := (hj.trans_eq hto.column_capacity).trans_le hcap
    rw [ih hj' (((hto.trans hshape).column_capacity).trans_le hcap)] at hrest
    cases hrest

end Behind

/-- Sorting is one way to put the element of a rank in its place. -/
def NthElement.sorting {α : Type} [LinearOrder α] : NthElement α where
  arrange l _ := l.mergeSort (· ≤ ·)
  perm l _ := List.mergeSort_perm l _
  nth l n r h := by
    obtain ⟨hn,rfl⟩ := List.getElem?_eq_some_iff.mp h
    exact (isNth_of_sorted (List.pairwise_mergeSort' (· ≤ ·) l) hn).perm (List.mergeSort_perm l _)

end FarMemory.DataFrame
