import FarMemory.OrderStatistic

/-!
# Selection in a column

`DataFrameVector::_nth_element` over the contents of a column, as a function of
the index. Three iterators split the range `[begin, begin + len)`: the elements
below the key in front of `pivot`, those above it up to `i`, and the equal ones
from `j` on. The range of the larger elements starts at `pivot`. Each call takes
its pivot from the stream of random numbers.
-/
namespace FarMemory.ColumnSelection
open OrderStatistic
variable {α : Type*}

def swap (a : ℕ → α) (i j : ℕ) : ℕ → α := a ∘ Equiv.swap i j

theorem swap_left (a : ℕ → α) (i j : ℕ) : swap a i j i = a j := by simp [swap]

theorem swap_right (a : ℕ → α) (i j : ℕ) : swap a i j j = a i := by simp [swap]

theorem swap_other (a : ℕ → α) {i j k : ℕ} (hi : k ≠ i) (hj : k ≠ j) : swap a i j k = a k := by
  simp [swap,Equiv.swap_apply_of_ne_of_ne hi hj]

/-- The partition loop, with the iterators as indices. -/
def partition [LinearOrder α] (key : α) : ℕ → (ℕ → α) → ℕ → ℕ → ℕ → Option ((ℕ → α) × ℕ × ℕ)
  | 0,_,_,_,_ => none
  | fuel+1,a,i,pivot,j =>
    if i = j then some (a,pivot,j)
    else if key < a i then partition key fuel a (i+1) pivot j
    else if a i < key then partition key fuel (swap a i pivot) (i+1) (pivot+1) j
    else partition key fuel (swap a i (j-1)) i pivot (j-1)

def nthElementFrom [LinearOrder α] : ℕ → (ℕ → ℕ) → (ℕ → α) → ℕ → ℕ → ℕ → Option (α × (ℕ → α))
  | 0,_,_,_,_,_ => none
  | fuel+1,rand,a,start,len,n =>
    -- the remainder of a division by zero
    if len = 0 then none else do
    let a := swap a (start+len-1) (rand 0%len+start)
    let key := a (start+len-1)
    let (a,pivot,j) ← partition key len a start start (start+len-1)
    let pivot := pivot-start
    let j := j-start
    if pivot ≤ n ∧ n ≤ pivot+len-1-j then some (key,a)
    else if n < pivot then nthElementFrom fuel (fun k => rand (k+1)) a start pivot n
    else nthElementFrom fuel (fun k => rand (k+1)) a (start+pivot) (j-pivot) (n-pivot-(len-j))

/-- The public entry: the whole column of `size` elements. -/
def nthElement [LinearOrder α] (rand : ℕ → ℕ) (a : ℕ → α) (size n : ℕ) : Option (α × (ℕ → α)) :=
  nthElementFrom size rand a 0 size n

def window (a : ℕ → α) (start len : ℕ) : List α := (List.range' start len).map a

@[simp] theorem length_window (a : ℕ → α) (start len : ℕ) : (window a start len).length = len := by
  simp [window]

theorem window_split (a : ℕ → α) (start m n : ℕ) :
    window a start (m+n) = window a start m++window a (start+m) n := by
  rw [window,window,window,← List.map_append]
  congr 1
  simp [← List.range'_append_1]

theorem mem_window {a : ℕ → α} {start len : ℕ} {x : α} :
    x ∈ window a start len ↔ ∃ i, start ≤ i ∧ i < start+len ∧ a i = x := by
  simp only [window,List.mem_map,List.mem_range'_1,and_assoc]

theorem window_congr {a a' : ℕ → α} {start len : ℕ}
    (h : ∀ i, start ≤ i → i < start+len → a' i = a i) : window a' start len = window a start len := by
  apply List.map_congr_left
  intro i hi
  obtain ⟨h1,h2⟩ := List.mem_range'_1.mp hi
  exact h i h1 h2

/-- `a'` holds the elements of `a` rearranged inside a range and unchanged outside. -/
structure Rearranged (a a' : ℕ → α) (start len : ℕ) : Prop where
  perm : (window a' start len).Perm (window a start len)
  outside : ∀ i, i < start ∨ start+len ≤ i → a' i = a i

namespace Rearranged
variable {a b c : ℕ → α} {start len start' len' i j : ℕ}

theorem refl (a : ℕ → α) (start len : ℕ) : Rearranged a a start len := ⟨.refl _,fun _ _ => rfl⟩

theorem trans (h : Rearranged a b start len) (h' : Rearranged b c start len) :
    Rearranged a c start len :=
  ⟨h'.perm.trans h.perm,fun i hi => (h'.outside i hi).trans (h.outside i hi)⟩

theorem widen (h : Rearranged a b start' len') (hs : start ≤ start')
    (he : start'+len' ≤ start+len) : Rearranged a b start len := by
  obtain ⟨m,rfl⟩ := Nat.exists_eq_add_of_le hs
  obtain ⟨n,hn⟩ := Nat.exists_eq_add_of_le he
  have hlen : len = m+len'+n := by omega
  subst hlen
  refine ⟨?_,fun i hi => h.outside i (by omega)⟩
  have hfront : window b start m = window a start m :=
    window_congr fun i _ hi => h.outside i (by omega)
  have hback : window b (start+(m+len')) n = window a (start+(m+len')) n :=
    window_congr fun i hi _ => h.outside i (by omega)
  rw [window_split b start (m+len') n,window_split a start (m+len') n,hback,
    window_split b start m len',window_split a start m len',hfront]
  exact (h.perm.append_left _).append_right _

theorem swap (a : ℕ → α) (hi : start ≤ i) (hi' : i < start+len) (hj : start ≤ j)
    (hj' : j < start+len) : Rearranged a (swap a i j) start len := by
  constructor
  · have hperm : ((List.range' start len).map (Equiv.swap i j)).Perm (List.range' start len) := by
      rw [List.perm_ext_iff_of_nodup
        (List.Nodup.map (Equiv.swap i j).injective List.nodup_range') List.nodup_range']
      intro k
      rw [List.mem_map]
      constructor
      · rintro ⟨x,hx,rfl⟩
        rw [List.mem_range'_1] at hx ⊢
        rw [Equiv.swap_apply_def]
        split_ifs <;> omega
      · intro hk
        refine ⟨Equiv.swap i j k,?_,Equiv.swap_apply_self i j k⟩
        rw [List.mem_range'_1] at hk ⊢
        rw [Equiv.swap_apply_def]
        split_ifs <;> omega
    unfold window ColumnSelection.swap
    rw [← List.map_map]
    exact hperm.map a
  · intro k hk
    exact swap_other a (by omega) (by omega)

end Rearranged

section Partition
variable [LinearOrder α] {a a' : ℕ → α} {key : α} {start len i pivot j fuel : ℕ}

/-- What the partition loop keeps: the three classes are in their places. -/
structure Partitioned (key : α) (a : ℕ → α) (start len i pivot j : ℕ) : Prop where
  start_le : start ≤ pivot
  pivot_le : pivot ≤ i
  i_le : i ≤ j
  j_lt : j < start+len
  below : ∀ k, start ≤ k → k < pivot → a k < key
  above : ∀ k, pivot ≤ k → k < i → key < a k
  equal : ∀ k, j ≤ k → k < start+len → a k = key

theorem Partitioned.keep_above (h : Partitioned key a start len i pivot j) (hij : i ≠ j)
    (hk : key < a i) : Partitioned key a start len (i+1) pivot j where
  start_le := h.start_le
  pivot_le := h.pivot_le.trans (Nat.le_succ i)
  i_le := by have := h.i_le; omega
  j_lt := h.j_lt
  below := h.below
  above k hp hi := by
    rcases Nat.lt_succ_iff_lt_or_eq.mp hi with hlt | rfl
    · exact h.above k hp hlt
    · exact hk
  equal := h.equal

theorem Partitioned.move_below (h : Partitioned key a start len i pivot j) (hij : i ≠ j)
    (hk : a i < key) : Partitioned key (swap a i pivot) start len (i+1) (pivot+1) j where
  start_le := h.start_le.trans (Nat.le_succ pivot)
  pivot_le := Nat.succ_le_succ h.pivot_le
  i_le := by have := h.i_le; omega
  j_lt := h.j_lt
  below k hs hp := by
    have := h.pivot_le
    rcases Nat.lt_succ_iff_lt_or_eq.mp hp with hlt | rfl
    · rw [swap_other a (by omega) (by omega)]
      exact h.below k hs hlt
    · rw [swap_right]
      exact hk
  above k hp hi := by
    rcases Nat.lt_succ_iff_lt_or_eq.mp hi with hlt | rfl
    · rw [swap_other a (by omega) (by omega)]
      exact h.above k (by omega) hlt
    · rw [swap_left]
      exact h.above pivot le_rfl (by omega)
  equal k hj hl := by
    have := h.i_le
    have := h.pivot_le
    rw [swap_other a (by omega) (by omega)]
    exact h.equal k hj hl

theorem Partitioned.move_equal (h : Partitioned key a start len i pivot j) (hij : i ≠ j)
    (hk : a i = key) : Partitioned key (swap a i (j-1)) start len i pivot (j-1) where
  start_le := h.start_le
  pivot_le := h.pivot_le
  i_le := by have := h.i_le; omega
  j_lt := by have := h.j_lt; omega
  below k hs hp := by
    have := h.pivot_le
    have := h.i_le
    rw [swap_other a (by omega) (by omega)]
    exact h.below k hs hp
  above k hp hi := by
    have := h.i_le
    rw [swap_other a (by omega) (by omega)]
    exact h.above k hp hi
  equal k hj hl := by
    have := h.i_le
    rcases Nat.eq_or_lt_of_le hj with rfl | hlt
    · rw [swap_right]
      exact hk
    · rw [swap_other a (by omega) (by omega)]
      exact h.equal k (by omega) hl

/-- The loop ends within `j - i` rounds, with the classes side by side. -/
theorem partition_spec (h : Partitioned key a start len i pivot j) (hf : j-i < fuel) :
    ∃ a' pivot' j', partition key fuel a i pivot j = some (a',pivot',j') ∧
      Partitioned key a' start len j' pivot' j' ∧ Rearranged a a' start len := by
  induction fuel generalizing a i pivot j with
  | zero => omega
  | succ fuel ih =>
    have hs := h.start_le
    have hp := h.pivot_le
    have hi := h.i_le
    have hj := h.j_lt
    rw [partition]
    by_cases hij : i = j
    · subst hij
      exact ⟨a,pivot,i,if_pos rfl,h,.refl _ _ _⟩
    rw [if_neg hij]
    rcases lt_trichotomy key (a i) with hlt | heq | hgt
    · rw [if_pos hlt]
      exact ih (h.keep_above hij hlt) (by omega)
    · rw [if_neg (by simp [heq]),if_neg (by simp [heq])]
      obtain ⟨a',p',j',hrun,hpart,hre⟩ := ih (h.move_equal hij heq.symm) (by omega)
      exact ⟨a',p',j',hrun,hpart,
        (Rearranged.swap a (by omega) (by omega) (by omega) (by omega)).trans hre⟩
    · rw [if_neg hgt.not_gt,if_pos hgt]
      obtain ⟨a',p',j',hrun,hpart,hre⟩ := ih (h.move_below hij hgt) (by omega)
      exact ⟨a',p',j',hrun,hpart,
        (Rearranged.swap a (by omega) (by omega) (by omega) (by omega)).trans hre⟩

theorem Partitioned.window_eq (h : Partitioned key a start len j pivot j) :
    window a start len = window a start (pivot-start)++window a pivot (j-pivot)++
      window a j (start+len-j) := by
  have hs := h.start_le
  have hp := h.pivot_le
  have hj := h.j_lt
  have hmid : start+(pivot-start) = pivot := by omega
  have hend : start+(pivot-start+(j-pivot)) = j := by omega
  calc window a start len = window a start (pivot-start+(j-pivot)+(start+len-j)) := by
        congr 1
        omega
    _ = _ := by rw [window_split,window_split,hmid,hend]

end Partition

theorem nthElementFrom_spec [LinearOrder α] (fuel : ℕ) (rand : ℕ → ℕ) (a : ℕ → α) (start len n : ℕ) (hn : n < len)
    (hf : len ≤ fuel) :
    ∃ r a', nthElementFrom fuel rand a start len n = some (r,a') ∧
      IsNth (window a start len) n r ∧ Rearranged a a' start len := by
  induction fuel generalizing rand a start len n with
  | zero => omega
  | succ fuel ih =>
    have hmod : rand 0%len < len := Nat.mod_lt _ (by omega)
    have hpivot : Rearranged a (swap a (start+len-1) (rand 0%len+start)) start len :=
      .swap a (by omega) (by omega) (by omega) (by omega)
    rw [nthElementFrom,if_neg (by omega)]
    generalize swap a (start+len-1) (rand 0%len+start) = b at hpivot ⊢
    have hinit : Partitioned (b (start+len-1)) b start len start start (start+len-1) :=
      ⟨le_rfl,le_rfl,by omega,by omega,by omega,by omega,fun k hk hk' => by
        rw [show k = start+len-1 by omega]⟩
    obtain ⟨c,p,j,hrun,hpart,hre⟩ := partition_spec hinit (show _ < len by omega)
    simp only [hrun,Option.bind_eq_bind,Option.bind_some]
    have hsp := hpart.start_le
    have hpj := hpart.pivot_le
    have hjl := hpart.j_lt
    have hall := hpivot.trans hre
    have hwin := hpart.window_eq
    have hlt : ∀ x ∈ window c start (p-start), x < b (start+len-1) := by
      intro x hx
      obtain ⟨k,h1,h2,rfl⟩ := mem_window.mp hx
      exact hpart.below k h1 (by omega)
    have hgt : ∀ x ∈ window c p (j-p), b (start+len-1) < x := by
      intro x hx
      obtain ⟨k,h1,h2,rfl⟩ := mem_window.mp hx
      exact hpart.above k h1 (by omega)
    have heq : ∀ x ∈ window c j (start+len-j), x = b (start+len-1) := by
      intro x hx
      obtain ⟨k,h1,h2,rfl⟩ := mem_window.mp hx
      exact hpart.equal k h1 (by omega)
    split_ifs with hkey hless
    · refine ⟨_,_,rfl,?_,hall⟩
      apply IsNth.perm _ hall.perm
      rw [hwin]
      exact isNth_key hlt hgt heq (by simpa using hkey.1) (by simp only [length_window]; omega)
    · obtain ⟨r,d,hrec,hnth,hre'⟩ := ih (fun k => rand (k+1)) c start (p-start) n hless (by omega)
      refine ⟨r,d,hrec,?_,hall.trans (hre'.widen le_rfl (by omega))⟩
      apply IsNth.perm _ hall.perm
      rw [hwin]
      exact isNth_below hlt hgt heq hnth
    · obtain ⟨r,d,hrec,hnth,hre'⟩ := ih (fun k => rand (k+1)) c (start+(p-start)) (j-start-(p-start))
        (n-(p-start)-(len-(j-start))) (by omega) (by omega)
      refine ⟨r,d,hrec,?_,hall.trans (hre'.widen (by omega) (by omega))⟩
      have hstart : start+(p-start) = p := by omega
      have hcount : j-start-(p-start) = j-p := by omega
      rw [hstart,hcount] at hnth
      have habove := isNth_above hlt hgt heq hnth
      rw [← hwin] at habove
      simp only [length_window] at habove
      apply IsNth.perm _ hall.perm
      convert habove using 1
      omega

theorem nthElement_spec [LinearOrder α] (rand : ℕ → ℕ) (a : ℕ → α) (size n : ℕ) (hn : n < size) :
    ∃ r a', nthElement rand a size n = some (r,a') ∧ IsNth (window a 0 size) n r ∧
      Rearranged a a' 0 size :=
  nthElementFrom_spec size rand a 0 size n hn le_rfl

/-- For any random numbers the selection returns, and returns what stands at the position
in the sorted column; the column is rearranged, and nothing behind it is touched. -/
theorem nth_element_correct [LinearOrder α] (rand : ℕ → ℕ) (a : ℕ → α) (size n : ℕ) (hn : n < size) :
    ∃ r a', nthElement rand a size n = some (r,a') ∧
      ((window a 0 size).mergeSort (· ≤ ·))[n]? = some r ∧
      (window a' 0 size).Perm (window a 0 size) ∧ ∀ k, size ≤ k → a' k = a k := by
  obtain ⟨r,a',hrun,hnth,hre⟩ := nthElement_spec rand a size n hn
  refine ⟨r,a',hrun,?_,hre.perm,fun k hk => hre.outside k (.inr ((Nat.zero_add size).trans_le hk))⟩
  have hlen : n < ((window a 0 size).mergeSort (· ≤ ·)).length := by
    rwa [List.length_mergeSort,length_window]
  have hsorted := isNth_of_sorted (List.pairwise_mergeSort' (· ≤ ·) (window a 0 size)) hlen
  rw [List.getElem?_eq_getElem hlen,(hsorted.perm (List.mergeSort_perm _ _)).unique hnth]

theorem nth_element_correct_seven : ∃ r a',
    nthElement (fun k => 5*k+3) (fun i => [4,1,3,1,5,9,2].getD i 0) 7 3 = some (r,a') ∧
      (window a' 0 7).Perm (window (fun i => [4,1,3,1,5,9,2].getD i 0) 0 7) ∧ r = 3 := by
  obtain ⟨r,a',hrun,-,hperm,-⟩ := nth_element_correct (fun k => 5*k+3) (fun i => [4,1,3,1,5,9,2].getD i 0) 7 3 (by decide)
  have hvalue : (nthElement (fun k => 5*k+3) (fun i => [4,1,3,1,5,9,2].getD i 0) 7 3).map Prod.fst = some 3 := by
    decide +kernel
  rw [hrun] at hvalue
  exact ⟨r,a',hrun,hperm,Option.some.inj hvalue⟩

end FarMemory.ColumnSelection
