import FarMemory.ElementTypes
import FarMemory.KeyRuns

/-!
# What aggregation returns for a group

A maximum and a minimum are right exactly if the value the accumulator starts with does
not get in the way: it is the smallest value of an integral type, but the smallest positive
double and an arbitrary time. A median of an even number of values is right exactly if the
sum of the two middle ones can be represented where it is computed.
-/
namespace FarMemory.DataFrame
open OrderStatistic TimeKeys

section Groups
variable {α : Type} [LinearOrder α] [Numeric α]

/-- One aggregator is given the values of group after group. -/
def Aggregator.feed (lib : NthElement α) (rand : ℕ → ℕ → ℕ) : Aggregator α → List (List α) → Option (List α)
  | _,[] => some []
  | ag,g::gs => do
    let (x,ag) ← (g.foldl (fun ag t => ag.add t) ag).aggregate lib rand
    let xs ← ag.feed lib rand gs
    some (x::xs)

theorem add_all_holds {op : AggregateOp} {ag : Aggregator α} {g g' : List α} (h : ag.Holds op g) :
    (g'.foldl (fun ag t => ag.add t) ag).Holds op (g++g') := by
  induction g' generalizing ag g with
  | nil => simpa using h
  | cons x g' ih =>
    have := ih (add_holds h x)
    rwa [List.append_assoc] at this

/-- What is returned for a group does not depend on the groups before. -/
theorem feed_spec (lib : NthElement α) (rand : ℕ → ℕ → ℕ) {op : AggregateOp} {ag : Aggregator α} {gs : List (List α)}
    (h : ag.Holds op []) (hne : ∀ g ∈ gs, g ≠ []) : ag.feed lib rand gs = some (gs.map (groupValue op)) := by
  induction gs generalizing ag with
  | nil => rfl
  | cons g gs ih =>
    have hg : g ≠ [] := hne g List.mem_cons_self
    have hfed : (g.foldl (fun ag t => ag.add t) ag).Holds op ([]++g) := add_all_holds h
    obtain ⟨ag',hag,hempty⟩ := aggregate_holds lib rand hfed hg
    rw [Aggregator.feed,hag]
    simp [ih hempty fun g' hmem => hne g' (List.mem_cons_of_mem g hmem)]

end Groups

section Extremes
variable {α : Type} [LinearOrder α] {g : List α} {start : α}

/-- The greatest of a group (or the least, in the dual order). -/
def IsTop (g : List α) (r : α) : Prop := r ∈ g ∧ ∀ x ∈ g, x ≤ r

def IsBottom (g : List α) (r : α) : Prop := r ∈ g ∧ ∀ x ∈ g, r ≤ x

theorem foldl_max_spec (g : List α) (start : α) :
    (g.foldl max start = start ∨ g.foldl max start ∈ g) ∧ start ≤ g.foldl max start ∧ ∀ x ∈ g, x ≤ g.foldl max start := by
  induction g generalizing start with
  | nil => simp
  | cons y g ih =>
    obtain ⟨hmem,hle,hall⟩ := ih (max start y)
    rw [List.foldl_cons]
    refine ⟨?_,(le_max_left start y).trans hle,?_⟩
    · rcases hmem with heq | hmem
      · rcases max_choice start y with hstart | hy
        · exact .inl (heq.trans hstart)
        · exact .inr (by rw [heq,hy]; exact List.mem_cons_self)
      · exact .inr (List.mem_cons_of_mem y hmem)
    · intro x hx
      rcases List.mem_cons.mp hx with rfl | hx
      · exact (le_max_right start x).trans hle
      · exact hall x hx

theorem foldl_max_isTop : IsTop g (g.foldl max start) ↔ ∃ x ∈ g, start ≤ x := by
  obtain ⟨hmem,hle,hall⟩ := foldl_max_spec g start
  constructor
  · intro h
    exact ⟨_,h.1,hle⟩
  · rintro ⟨x,hx,hstart⟩
    refine ⟨?_,hall⟩
    rcases hmem with heq | hmem
    · rw [heq,le_antisymm hstart (heq ▸ hall x hx)]
      exact hx
    · exact hmem

theorem foldl_min_isBottom : IsBottom g (g.foldl min start) ↔ ∃ x ∈ g, x ≤ start :=
  foldl_max_isTop (α := αᵒᵈ)

end Extremes

/-- Whether the start of the accumulator is beyond some value of a group: always for an
integral type; for doubles the start of a maximum is the smallest positive one, and for
times both starts are what lay in memory. -/
def StartFits : (e : ElementType) → AggregateOp → List e.Value → Prop
  | .integral _,_,_ => True
  | .double _,.max,g => ∃ x ∈ g, Double.limitMin ≤ (x : Double)
  | .double _,.min,g => ∃ x ∈ g, (x : Double) ≤ Double.limitMax
  | .simpleTime memory,.max,g => ∃ x ∈ g, memory ≤ (x : SimpleTime)
  | .simpleTime memory,.min,g => ∃ x ∈ g, (x : SimpleTime) ≤ memory
  | _,.median,_ => True

theorem max_startFits (e : ElementType) {g : List e.Value} (hne : g ≠ []) :
    (∃ x ∈ g, Numeric.limitMin ≤ x) ↔ StartFits e .max g := by
  obtain ⟨x,hx⟩ := List.exists_mem_of_ne_nil g hne
  cases e with
  | integral t => exact ⟨fun _ => trivial,fun _ => ⟨x,hx,x.property.1⟩⟩
  | double halfSum => exact Iff.rfl
  | simpleTime memory => exact Iff.rfl

theorem min_startFits (e : ElementType) {g : List e.Value} (hne : g ≠ []) :
    (∃ x ∈ g, x ≤ Numeric.limitMax) ↔ StartFits e .min g := by
  obtain ⟨x,hx⟩ := List.exists_mem_of_ne_nil g hne
  cases e with
  | integral t => exact ⟨fun _ => trivial,fun _ => ⟨x,hx,x.property.2⟩⟩
  | double halfSum => exact Iff.rfl
  | simpleTime memory => exact Iff.rfl

/-- For every element type and every sequence of groups given to one aggregator of either
kind: the result for a group is its greatest (least) element exactly if the start of the
accumulator fits the group, whatever came before. -/
theorem group_extremes_iff (e : ElementType) (lib : NthElement e.Value) (rand : ℕ → ℕ → ℕ) (limitedMem : Bool)
    (groups : List (List e.Value)) (hne : ∀ g ∈ groups, g ≠ []) :
    (∃ rs, (Aggregator.build .max limitedMem).feed lib rand groups = some rs ∧ rs.length = groups.length ∧
      ∀ (i : ℕ) (g : List e.Value) (r : e.Value), groups[i]? = some g → rs[i]? = some r →
        (IsTop g r ↔ StartFits e .max g)) ∧
    (∃ rs, (Aggregator.build .min limitedMem).feed lib rand groups = some rs ∧ rs.length = groups.length ∧
      ∀ (i : ℕ) (g : List e.Value) (r : e.Value), groups[i]? = some g → rs[i]? = some r →
        (IsBottom g r ↔ StartFits e .min g)) := by
  refine ⟨⟨_,feed_spec lib rand (build_holds .max limitedMem) hne,List.length_map _,fun i g r hg hr => ?_⟩,
    ⟨_,feed_spec lib rand (build_holds .min limitedMem) hne,List.length_map _,fun i g r hg hr => ?_⟩⟩
  · rw [List.getElem?_map,hg] at hr
    cases hr
    rw [← max_startFits e (hne g (List.mem_of_getElem? hg))]
    exact foldl_max_isTop
  · rw [List.getElem?_map,hg] at hr
    cases hr
    rw [← min_startFits e (hne g (List.mem_of_getElem? hg))]
    exact foldl_min_isBottom

/-- Two groups of signed bytes, the first all negative. -/
theorem group_extremes_iff_bytes :
    let e : ElementType := .integral ⟨true,8,.inl rfl⟩
    let g : List e.Value := [⟨-3,by decide⟩,⟨-5,by decide⟩]
    let g' : List e.Value := [⟨2,by decide⟩]
    ∃ rs, (Aggregator.build .max false).feed .sorting (fun _ _ => 0) [g,g'] = some rs ∧ rs.length = 2 ∧
      ∀ r ∈ rs[0]?, IsTop g r := by
  intro e g g'
  obtain ⟨⟨rs,hrun,hlen,hall⟩,-⟩ := group_extremes_iff e .sorting (fun _ _ => 0) false [g,g'] (by
    intro l hl
    simp only [List.mem_cons,List.not_mem_nil,or_false] at hl
    rcases hl with rfl | rfl <;> exact List.cons_ne_nil _ _)
  exact ⟨rs,hrun,hlen,fun r hr => (hall 0 g r rfl hr).mpr trivial⟩

theorem negative_lt_limitMin {x : ℚ} (hx : x < 0) : Double.finite x < Double.limitMin :=
  WithBot.coe_lt_coe.mpr (WithTop.coe_lt_coe.mpr (hx.trans (by positivity)))

/-- Two negative doubles: the maximum is the smallest positive double. -/
theorem negative_doubles_max :
    let e : ElementType := .double fun a _ => a
    let g : List e.Value := [Double.finite (-1),Double.finite (-2)]
    (Aggregator.build .max false).feed .sorting (fun _ _ => 0) [g] = some [Double.limitMin] ∧
      ¬ IsTop g Double.limitMin := by
  intro e g
  have hone : Double.finite (-1) < Double.limitMin := negative_lt_limitMin (by norm_num)
  have htwo : Double.finite (-2) < Double.limitMin := negative_lt_limitMin (by norm_num)
  constructor
  · rw [feed_spec .sorting _ (build_holds .max false) (by simp [g])]
    change some [max (max Double.limitMin (Double.finite (-1))) (Double.finite (-2))] = _
    rw [max_eq_left hone.le,max_eq_left htwo.le]
  · intro h
    rcases List.mem_cons.mp h.1 with heq | hmem
    · exact hone.ne' heq
    · exact htwo.ne' (List.mem_singleton.mp hmem)

section Medians

/-- The middle element of the sorted group, or something between the two middle ones. -/
def IsMedian {α : Type} [LinearOrder α] (g : List α) (r : α) : Prop :=
  let sorted := g.mergeSort (· ≤ ·)
  if g.length%2 = 1 then sorted[g.length/2]? = some r
  else ∃ lo hi, sorted[g.length/2-1]? = some lo ∧ sorted[g.length/2]? = some hi ∧ lo ≤ r ∧ r ≤ hi

/-- The sum of the two middle elements, if there are two, can be represented in the type
that the addition is done in. -/
def SumFits (t : IntegralType) (g : List t.Value) : Prop :=
  let sorted := g.mergeSort (· ≤ ·)
  g.length%2 = 1 ∨ ∃ lo hi, sorted[g.length/2-1]? = some lo ∧ sorted[g.length/2]? = some hi ∧
    t.promoted.limitMin ≤ hi.val+lo.val ∧ hi.val+lo.val ≤ t.promoted.limitMax

variable {t : IntegralType} {lo hi : t.Value}

theorem tdiv_two (s : ℤ) : 2*s.tdiv 2 ≤ s+1 ∧ s ≤ 2*s.tdiv 2+1 := by
  have hsum := Int.mul_tdiv_add_tmod s 2
  have hhi := Int.tmod_lt_of_pos s (b := 2) (by decide)
  have hlo := Int.lt_tmod_of_pos s (b := 2) (by decide)
  omega

theorem half_between_of_fits (h : lo ≤ hi) (hmin : t.promoted.limitMin ≤ hi.val+lo.val)
    (hmax : hi.val+lo.val ≤ t.promoted.limitMax) : lo ≤ t.halfSum hi lo ∧ t.halfSum hi lo ≤ hi := by
  have hle : lo.val ≤ hi.val := h
  have hhalf : lo.val ≤ (hi.val+lo.val).tdiv 2 ∧ (hi.val+lo.val).tdiv 2 ≤ hi.val := by
    have := tdiv_two (hi.val+lo.val)
    omega
  have hvalue : (t.halfSum hi lo).val = (hi.val+lo.val).tdiv 2 := by
    change t.wrap ((t.promoted.wrap (hi.val+lo.val)).tdiv 2) = _
    rw [IntegralType.wrap_of_mem hmin hmax,
      IntegralType.wrap_of_mem (lo.property.1.trans hhalf.1) (hhalf.2.trans hi.property.2)]
  change lo.val ≤ (t.halfSum hi lo).val ∧ (t.halfSum hi lo).val ≤ hi.val
  rwa [hvalue]

/-- A sum that wraps around lands on the other side of both elements. -/
theorem not_half_between (h : lo ≤ hi) (hs : ¬ (t.promoted.limitMin ≤ hi.val+lo.val ∧ hi.val+lo.val ≤ t.promoted.limitMax)) :
    ¬ (lo ≤ t.halfSum hi lo ∧ t.halfSum hi lo ≤ hi) := by
  have hle : lo.val ≤ hi.val := h
  have hlo := lo.property
  have hhi := hi.property
  change ¬ (lo.val ≤ t.wrap ((t.promoted.wrap (hi.val+lo.val)).tdiv 2) ∧ t.wrap ((t.promoted.wrap (hi.val+lo.val)).tdiv 2) ≤ hi.val)
  generalize hi.val = y at *
  generalize lo.val = x at *
  have hhalf := tdiv_two (t.promoted.wrap (y+x))
  generalize (t.promoted.wrap (y+x)).tdiv 2 = q at *
  obtain ⟨signed,width,hstd⟩ := t
  rcases hstd with rfl | rfl | rfl | rfl <;> cases signed <;>
    simp [IntegralType.limitMin,IntegralType.limitMax,IntegralType.wrap,IntegralType.promoted] at * <;> omega

theorem half_between_iff (h : lo ≤ hi) : (lo ≤ t.halfSum hi lo ∧ t.halfSum hi lo ≤ hi) ↔
    t.promoted.limitMin ≤ hi.val+lo.val ∧ hi.val+lo.val ≤ t.promoted.limitMax := by
  constructor
  · intro hbetween
    by_contra hs
    exact not_half_between h hs hbetween
  · rintro ⟨hmin,hmax⟩
    exact half_between_of_fits h hmin hmax

theorem middle_elements {α : Type} [LinearOrder α] {g : List α} (hne : g ≠ []) (heven : g.length%2 = 0) :
    ∃ lo hi, (g.mergeSort (· ≤ ·))[g.length/2-1]? = some lo ∧ (g.mergeSort (· ≤ ·))[g.length/2]? = some hi ∧ lo ≤ hi := by
  have hpos := List.length_pos_of_ne_nil hne
  have hlen : (g.mergeSort (· ≤ ·)).length = g.length := List.length_mergeSort g
  have hlt : g.length/2-1 < g.length/2 := by omega
  have hhi : g.length/2 < (g.mergeSort (· ≤ ·)).length := by omega
  refine ⟨_,_,List.getElem?_eq_getElem (hlt.trans hhi),List.getElem?_eq_getElem hhi,?_⟩
  have hsorted : (g.mergeSort (· ≤ ·)).Pairwise (· ≤ ·) := List.pairwise_mergeSort' (· ≤ ·) g
  exact List.pairwise_iff_getElem.mp hsorted _ _ _ hhi hlt

/-- The value that is computed for a group is a median exactly if the sum fits. -/
theorem groupValue_isMedian {g : List t.Value} (hne : g ≠ []) : IsMedian g (groupValue .median g) ↔ SumFits t g := by
  have hpos := List.length_pos_of_ne_nil hne
  have hlen : (g.mergeSort (· ≤ ·)).length = g.length := List.length_mergeSort g
  rcases Nat.mod_two_eq_zero_or_one g.length with heven | hodd
  · obtain ⟨lo,hi,hlo,hhi,hle⟩ := middle_elements hne heven
    have hvalue : groupValue .median g = t.halfSum hi lo := by
      simp only [groupValue,heven,if_true,hlo,hhi,Option.getD_some]
      rfl
    simp only [IsMedian,SumFits,heven,hvalue,hlo,hhi,Option.some.injEq,zero_ne_one,if_false,false_or]
    constructor
    · rintro ⟨_,_,rfl,rfl,hbetween⟩
      exact ⟨_,_,rfl,rfl,(half_between_iff hle).mp hbetween⟩
    · rintro ⟨_,_,rfl,rfl,hfits⟩
      exact ⟨_,_,rfl,rfl,(half_between_iff hle).mpr hfits⟩
  · have hmid : g.length/2 < (g.mergeSort (· ≤ ·)).length := by omega
    simp [IsMedian,SumFits,groupValue,hodd,List.getElem?_eq_getElem hmid]

/-- For every integral type and every group, in memory and in far memory: the result is a
median exactly if the sum of the two middle elements, if there are two, can be represented
where it is computed. -/
theorem group_median_iff (t : IntegralType) (lib : NthElement t.Value) (rand : ℕ → ℕ → ℕ) (limitedMem : Bool)
    (g : List t.Value) (hne : g ≠ []) :
    ∃ r, (Aggregator.build .median limitedMem).feed lib rand [g] = some [r] ∧ (IsMedian g r ↔ SumFits t g) := by
  refine ⟨groupValue .median g,feed_spec lib rand (build_holds .median limitedMem) ?_,groupValue_isMedian hne⟩
  intro g' hmem
  rw [List.mem_singleton.mp hmem]
  exact hne

/-- Three values near the top of `int`. -/
theorem group_median_iff_odd :
    let t : IntegralType := ⟨true,32,.inr (.inr (.inl rfl))⟩
    let g : List t.Value := [⟨2147483647,by decide⟩,⟨5,by decide⟩,⟨2147483646,by decide⟩]
    ∃ r, (Aggregator.build .median true).feed .sorting (fun _ _ => 0) [g] = some [r] ∧ IsMedian g r := by
  intro t g
  obtain ⟨r,hrun,hr⟩ := group_median_iff t .sorting (fun _ _ => 0) true g (List.cons_ne_nil _ _)
  exact ⟨r,hrun,hr.mpr (.inl (by decide))⟩

/-- Two of the greatest `int`: their sum is -2 and the result -1. -/
theorem greatest_ints_median :
    let t : IntegralType := ⟨true,32,.inr (.inr (.inl rfl))⟩
    let g : List t.Value := [⟨2147483647,by decide⟩,⟨2147483647,by decide⟩]
    (Aggregator.build .median false).feed .sorting (fun _ _ => 0) [g] = some [⟨-1,by decide⟩] ∧
      ¬ IsMedian g ⟨-1,by decide⟩ := by
  intro t g
  have hsort : g.mergeSort (· ≤ ·) = g := List.mergeSort_of_pairwise (List.pairwise_pair.mpr (by decide))
  constructor
  · rw [feed_spec .sorting _ (build_holds .median false) (by simp [g])]
    change some [groupValue .median g] = _
    simp only [groupValue,hsort]
    exact congrArg (fun x => some [x]) (Subtype.ext (by decide +kernel))
  · intro hmedian
    unfold IsMedian at hmedian
    rw [if_neg (by decide),hsort] at hmedian
    obtain ⟨lo,hi,hlo,-,hle,-⟩ := hmedian
    have hindex : g.length/2-1 = 0 := by decide
    rw [hindex] at hlo
    have hlow : 2147483647 = lo.val := congrArg (fun x : Option t.Value => x.elim 0 Subtype.val) hlo
    have hneg : lo.val ≤ -1 := hle
    omega

end Medians

end FarMemory.DataFrame
