import Mathlib

/-!
# Neighbours in a finite set

In a finite set of a linear order every element has a next and a previous one, if it
is not the last or the first. Inserting or erasing an element changes the neighbours
of its own neighbours only.
-/
namespace FarMemory.Neighbours
variable {K : Type*} [LinearOrder K] {s : Finset K} {x y k : K}

def next (s : Finset K) (x : K) : Option K :=
  if h : (s.filter (x < ·)).Nonempty then some ((s.filter (x < ·)).min' h) else none

/-- The next one in the reversed order. -/
def prev (s : Finset K) (x : K) : Option K := next (K := Kᵒᵈ) s x

theorem next_eq_some : next s x = some y ↔ y ∈ s ∧ x < y ∧ ∀ z ∈ s, x < z → y ≤ z := by
  unfold next
  constructor
  · intro h
    split at h
    · rename_i hne
      have hmem := Finset.min'_mem _ hne
      cases h
      rw [Finset.mem_filter] at hmem
      exact ⟨hmem.1,hmem.2,fun z hz hxz => Finset.min'_le _ z (Finset.mem_filter.mpr ⟨hz,hxz⟩)⟩
    · cases h
  · rintro ⟨hy,hxy,hmin⟩
    have hne : (s.filter (x < ·)).Nonempty := ⟨y,Finset.mem_filter.mpr ⟨hy,hxy⟩⟩
    rw [dif_pos hne]
    refine congrArg some (le_antisymm (Finset.min'_le _ y (Finset.mem_filter.mpr ⟨hy,hxy⟩)) ?_)
    refine Finset.le_min' _ _ _ fun z hz => ?_
    obtain ⟨hz,hxz⟩ := Finset.mem_filter.mp hz
    exact hmin z hz hxz

theorem next_eq_none : next s x = none ↔ ∀ z ∈ s, z ≤ x := by
  unfold next
  split
  · rename_i hne
    obtain ⟨z,hz⟩ := hne
    rw [Finset.mem_filter] at hz
    simp only [reduceCtorEq,false_iff,not_forall,not_le]
    exact ⟨z,hz.1,hz.2⟩
  · rename_i hne
    simp only [Finset.not_nonempty_iff_eq_empty,Finset.filter_eq_empty_iff,not_lt] at hne
    simpa using hne

theorem prev_eq_some : prev s x = some y ↔ y ∈ s ∧ y < x ∧ ∀ z ∈ s, z < x → z ≤ y := next_eq_some (K := Kᵒᵈ)

theorem prev_eq_none : prev s x = none ↔ ∀ z ∈ s, x ≤ z := next_eq_none (K := Kᵒᵈ)

theorem next_mem (h : next s x = some y) : y ∈ s := (next_eq_some.mp h).1
theorem prev_mem (h : prev s x = some y) : y ∈ s := (prev_eq_some.mp h).1
theorem lt_next (h : next s x = some y) : x < y := (next_eq_some.mp h).2.1
theorem prev_lt (h : prev s x = some y) : y < x := (prev_eq_some.mp h).2.1

/-! ### Inserting -/

theorem next_insert_self (s : Finset K) (k : K) : next (insert k s) k = next s k := by
  simp [next,Finset.filter_insert]

theorem prev_insert_self (s : Finset K) (k : K) : prev (insert k s) k = prev s k := next_insert_self (K := Kᵒᵈ) s k

theorem next_insert (hk : k ∉ s) (hx : x ∈ s) :
    next (insert k s) x = if prev s k = some x then some k else next s x := by
  split
  · rename_i hprev
    obtain ⟨-,hlt,hmax⟩ := prev_eq_some.mp hprev
    refine next_eq_some.mpr ⟨Finset.mem_insert_self k s,hlt,fun z hz hxz => ?_⟩
    rcases Finset.mem_insert.mp hz with rfl | hz
    · exact le_refl _
    · by_contra hkz
      exact absurd (hmax z hz (not_le.mp hkz)) (not_le.mpr hxz)
  · rename_i hprev
    have hne : x ≠ k := fun heq => hk (heq ▸ hx)
    -- between `x` and `k`, if `k` is above, there is another element
    have hbetween : x < k → ∃ z ∈ s, x < z ∧ z < k := by
      intro hxk
      by_contra hnone
      push Not at hnone
      refine hprev (prev_eq_some.mpr ⟨hx,hxk,fun z hz hzk => ?_⟩)
      by_contra hxz
      exact absurd hzk (not_lt.mpr (hnone z hz (not_le.mp hxz)))
    cases hnext : next s x with
    | none =>
      rw [next_eq_none] at hnext ⊢
      intro z hz
      rcases Finset.mem_insert.mp hz with rfl | hz
      · by_contra hxk
        obtain ⟨w,hw,hxw,-⟩ := hbetween (not_le.mp hxk)
        exact absurd (hnext w hw) (not_le.mpr hxw)
      · exact hnext z hz
    | some y =>
      obtain ⟨hy,hxy,hmin⟩ := next_eq_some.mp hnext
      refine next_eq_some.mpr ⟨Finset.mem_insert_of_mem hy,hxy,fun z hz hxz => ?_⟩
      rcases Finset.mem_insert.mp hz with rfl | hz
      · obtain ⟨w,hw,hxw,hwk⟩ := hbetween hxz
        exact (hmin w hw hxw).trans hwk.le
      · exact hmin z hz hxz

theorem prev_insert (hk : k ∉ s) (hx : x ∈ s) :
    prev (insert k s) x = if next s k = some x then some k else prev s x := next_insert (K := Kᵒᵈ) hk hx

/-! ### Erasing -/

theorem next_of_prev (hk : k ∉ s) (h : prev s k = some x) : next s x = next s k := by
  have hx := prev_mem h
  have hins := next_insert hk hx
  rw [if_pos h] at hins
  cases hnext : next s k with
  | none =>
    rw [next_eq_none] at hnext ⊢
    intro z hz
    rcases lt_trichotomy z k with hzk | rfl | hkz
    · exact (prev_eq_some.mp h).2.2 z hz hzk
    · exact absurd hz hk
    · exact absurd (hnext z hz) (not_le.mpr hkz)
  | some y =>
    obtain ⟨hy,hky,hmin⟩ := next_eq_some.mp hnext
    refine next_eq_some.mpr ⟨hy,(prev_lt h).trans hky,fun z hz hxz => ?_⟩
    refine hmin z hz (lt_of_le_of_ne ?_ fun heq => hk (heq ▸ hz))
    exact (next_eq_some.mp hins).2.2 z (Finset.mem_insert_of_mem hz) hxz

theorem next_erase (hk : k ∈ s) (hx : x ∈ s.erase k) :
    next (s.erase k) x = if prev s k = some x then next s k else next s x := by
  have hnot := Finset.notMem_erase k s
  have hins := next_insert hnot hx
  have hnext := next_insert_self (s.erase k) k
  have hprev := prev_insert_self (s.erase k) k
  rw [Finset.insert_erase hk] at hins hnext hprev
  rw [hprev,hnext]
  split
  · rename_i hp
    exact next_of_prev hnot hp
  · rename_i hp
    rw [if_neg hp] at hins
    exact hins.symm

theorem prev_erase (hk : k ∈ s) (hx : x ∈ s.erase k) :
    prev (s.erase k) x = if next s k = some x then prev s k else prev s x := next_erase (K := Kᵒᵈ) hk hx

/-! ### The last element up to a bound -/

/-- The greatest element of the set that is not above `k`. -/
def Floor (s : Finset K) (k x : K) : Prop := x ∈ s ∧ x ≤ k ∧ ∀ y ∈ next s x, k < y

theorem Floor.eq_of_mem (h : Floor s k x) (hk : k ∈ s) : x = k := by
  obtain ⟨-,hle,hnext⟩ := h
  refine le_antisymm hle (not_lt.mp fun hlt => ?_)
  cases hn : next s x with
  | none => exact absurd (next_eq_none.mp hn k hk) (not_le.mpr hlt)
  | some y => exact absurd ((next_eq_some.mp hn).2.2 k hk hlt) (not_le.mpr (hnext y hn))

theorem Floor.prev_of_notMem (h : Floor s k x) (hk : k ∉ s) : prev s k = some x := by
  obtain ⟨hx,hle,hnext⟩ := h
  refine prev_eq_some.mpr ⟨hx,lt_of_le_of_ne hle fun heq => hk (heq ▸ hx),fun z hz hzk => ?_⟩
  by_contra hxz
  cases hn : next s x with
  | none => exact hxz (next_eq_none.mp hn z hz)
  | some y =>
    have hyz := (next_eq_some.mp hn).2.2 z hz (not_le.mp hxz)
    exact absurd ((hnext y hn).trans_le hyz) (not_lt.mpr hzk.le)

end FarMemory.Neighbours
