import FarMemory.DataFrameAssign
import FarMemory.ElementTypes
import FarMemory.ScopeRenewals

/-!
# Sorting a column by rank

`get_sorted_indices` counts how often each value of a small integral type occurs, sums the
counts up and goes backwards over the column: each element takes the last free place of
its value. The place is the element's rank, the number of elements that come before it by
value or, among equal ones, by position. The hint that the column is sorted fills the
indices in advance, but the counting sort overwrites them in any case.

The iterator that stores the places is not renewed with the scope. Once the scope has been
renewed, the collector may move the chunk away from the address that the iterator has, and
what is stored there from then on is lost; `moved` says in which rounds it does.
-/
namespace FarMemory.DataFrame
open CountedLoop StdVector Function
open ScopeRenewals (FastIterator renewAt)

section Ranks
variable {b : ℕ → ℕ} {n m i j c : ℕ}

/-- The elements below `c`, and those equal to it in front of `m`. -/
def below (b : ℕ → ℕ) (n m c : ℕ) : ℕ := ((Finset.range n).filter fun j => b j < c ∨ b j = c ∧ j < m).card

def rank (b : ℕ → ℕ) (n i : ℕ) : ℕ := below b n i (b i)

def occurrences (b : ℕ → ℕ) (n c : ℕ) : ℕ := ((Finset.range n).filter fun j => b j = c).card

theorem rank_lt (hi : i < n) : rank b n i < n := by
  have hsub : (Finset.range n).filter (fun j => b j < b i ∨ b j = b i ∧ j < i) ⊂ Finset.range n :=
    Finset.filter_ssubset.mpr ⟨i,Finset.mem_range.mpr hi,by simp⟩
  have := Finset.card_lt_card hsub
  rwa [Finset.card_range] at this

theorem rank_lt_rank (hi : i < n) (h : b i < b j ∨ b i = b j ∧ i < j) : rank b n i < rank b n j := by
  unfold rank below
  refine Finset.card_lt_card ((Finset.ssubset_iff_of_subset fun k hk => ?_).mpr ⟨i,?_,?_⟩)
  · simp only [Finset.mem_filter,Finset.mem_range] at hk ⊢
    omega
  · exact Finset.mem_filter.mpr ⟨Finset.mem_range.mpr hi,h⟩
  · simp

theorem rank_inj (hi : i < n) (hj : j < n) (h : rank b n i = rank b n j) : i = j := by
  by_contra hne
  have horder : (b i < b j ∨ b i = b j ∧ i < j) ∨ b j < b i ∨ b j = b i ∧ j < i := by omega
  rcases horder with hlt | hlt
  · exact (rank_lt_rank hi hlt).ne h
  · exact (rank_lt_rank hj hlt).ne' h

theorem below_succ (hm : m < n) : below b n (m+1) c = below b n m c+if b m = c then 1 else 0 := by
  unfold below
  split
  · rename_i hc
    have hins : (Finset.range n).filter (fun j => b j < c ∨ b j = c ∧ j < m+1) =
        insert m ((Finset.range n).filter fun j => b j < c ∨ b j = c ∧ j < m) := by
      ext k
      simp only [Finset.mem_filter,Finset.mem_insert,Finset.mem_range]
      constructor
      · rintro ⟨hk,h⟩
        omega
      · rintro (rfl | ⟨hk,h⟩)
        · omega
        · omega
    rw [hins,Finset.card_insert_of_notMem (by simp [hc])]
  · rename_i hc
    refine congrArg Finset.card (Finset.filter_congr fun k _ => ?_)
    constructor
    · rintro (h | ⟨h,hk⟩)
      · exact .inl h
      · refine .inr ⟨h,lt_of_le_of_ne (Nat.lt_succ_iff.mp hk) ?_⟩
        rintro rfl
        exact hc h
    · omega

theorem below_next : below b n n (c+1) = occurrences b n (c+1)+below b n n c := by
  rw [below,occurrences,below,← Finset.card_union_of_disjoint]
  · congr 1
    ext k
    simp only [Finset.mem_filter,Finset.mem_union,Finset.mem_range]
    omega
  · rw [Finset.disjoint_filter]
    omega

theorem below_zero : below b n n 0 = occurrences b n 0 := by
  refine congrArg Finset.card (Finset.filter_congr fun k hk => ?_)
  rw [Finset.mem_range] at hk
  omega

theorem occurrences_succ : occurrences b (i+1) c = occurrences b i c+if b i = c then 1 else 0 := by
  rw [occurrences,Finset.range_add_one,Finset.filter_insert]
  split
  · exact Finset.card_insert_of_notMem (by simp)
  · rfl

/-- `cnts[i] += cnts[i - 1]` for `i` from one to `k`. -/
def prefixSums (cnts : ℕ → ℕ) : ℕ → ℕ → ℕ
  | 0 => cnts
  | k+1 => update (prefixSums cnts k) (k+1) (prefixSums cnts k (k+1)+prefixSums cnts k k)

theorem prefixSums_spec {cnts : ℕ → ℕ} (h : ∀ c, cnts c = occurrences b n c) (k c : ℕ) :
    prefixSums cnts k c = if c ≤ k then below b n n c else occurrences b n c := by
  induction k generalizing c with
  | zero =>
    rw [prefixSums,h]
    split
    · rename_i hc
      rw [Nat.le_zero.mp hc,below_zero]
    · rfl
  | succ k ih =>
    rw [prefixSums,update_apply]
    by_cases hc : c = k+1
    · rw [if_pos hc,ih,ih,if_neg (by omega),if_pos le_rfl,hc,if_pos le_rfl,below_next]
    · rw [if_neg hc,ih]
      by_cases hk : c ≤ k
      · rw [if_pos hk,if_pos (by omega)]
      · rw [if_neg hk,if_neg (by omega)]

end Ranks

namespace DataFrameVector
variable {α : Type}

/-- Move a fast iterator back from `index`. -/
def retreat (isMut : Bool) (v : DataFrameVector α) (index : ℕ) : Option (DataFrameVector α) :=
  if index%v.entries = 0 then v.updateOnNewChunk isMut (index/v.entries-1) else some v

def cfend (v : DataFrameVector α) : Option (DataFrameVector α) := v.fastIterator false v.size

def fend (v : DataFrameVector α) : Option (DataFrameVector α) := fastIterator true {v with dirty := true} v.size

variable {t : IntegralType}

/-- `x - T_min`. -/
def bucket (x : t.Value) : ℕ := (x.val-t.limitMin).toNat

def countRound (i : ℕ) (st : (ℕ → ℕ) × DataFrameVector t.Value) : Option ((ℕ → ℕ) × DataFrameVector t.Value) := do
  let (x,v) ← st.2.atIndex i
  let x ← x
  let v ← v.advance false i
  some (update st.1 (bucket x) (st.1 (bucket x)+1),v)

end DataFrameVector

/-- `idx_it` with the vector it stores into. It gets another address only by a step into
another chunk; `stale` says that the collector has moved the chunk away from the one it has. -/
structure IndexIterator where
  indices : DataFrameVector ℕ
  it : FastIterator
  now : ℕ
  stale : Bool

namespace IndexIterator

def dec (s : IndexIterator) : Option IndexIterator :=
  (s.indices.retreat true s.it.idx).map fun indices =>
    {s with indices := indices, it := s.it.dec s.now, stale := s.stale && s.it.idx%s.it.entries != 0}

/-- What `scope.renew()` in round `i` does to an iterator that is not renewed with it. -/
def outlive (moved : ℕ → Bool) (i : ℕ) (s : IndexIterator) : IndexIterator :=
  {s with now := renewAt i s.now, stale := s.stale || moved i && !s.it.fresh (renewAt i s.now)}

def store (s : IndexIterator) (x : ℕ) : Option IndexIterator :=
  if s.stale then some s else (s.indices.iterWrite s.it.idx (some x)).map fun indices => {s with indices := indices}

end IndexIterator

namespace DataFrameVector
variable {t : IntegralType}

/-- Round `r` is for element `size - 1 - r`. -/
def placeRound (moved : ℕ → Bool) (ascending : Bool) (size r : ℕ) (st : (ℕ → ℕ) × DataFrameVector t.Value × IndexIterator) :
    Option ((ℕ → ℕ) × DataFrameVector t.Value × IndexIterator) := do
  let i := size-1-r
  let idxIt ← st.2.2.dec
  let v ← st.2.1.retreat false (i+1)
  let (x,v) ← v.atIndex i
  let x ← x
  let idx := st.1 (bucket x)-1
  let idxIt ← (idxIt.outlive moved i).store (if ascending then idx else size-idx-1)
  some (update st.1 (bucket x) idx,v,idxIt)

def countingSort (moved : ℕ → Bool) (al : Allocator) (ascending : Bool) (v : DataFrameVector t.Value) (indices : DataFrameVector ℕ) :
    Option (DataFrameVector ℕ × DataFrameVector t.Value) := do
  let indices := indices.resize al v.size
  let it ← v.cfbegin
  let (cnts,it) ← loop v.size countRound (fun _ => 0,it)
  let cnts := prefixSums cnts (2^t.width-1)
  let it ← it.cfend
  let indices ← indices.fend
  let (_,it,idxIt) ← loop v.size (placeRound moved ascending v.size) (cnts,it,⟨indices,⟨indices.entries,v.size,0⟩,0,false⟩)
  some (idxIt.indices,it)

def hintRound (al : Allocator) (ascending : Bool) (size i : ℕ) (indices : DataFrameVector ℕ) :
    Option (DataFrameVector ℕ) := indices.pushBack al (some (if ascending then i else size-i-1))

def hintedIndices (al : Allocator) (layout : Layout) (ascending alreadySortedAsc : Bool) (size : ℕ) :
    Option (DataFrameVector ℕ) :=
  if alreadySortedAsc then loop size (hintRound al ascending size) (new layout) else some (new layout)

/-- Wider types are a bug in the source. -/
def getSortedIndices (moved : ℕ → Bool) (al : Allocator) (layout : Layout) (ascending alreadySortedAsc : Bool)
    (v : DataFrameVector t.Value) : Option (DataFrameVector ℕ × DataFrameVector t.Value) := do
  let indices ← hintedIndices al layout ascending alreadySortedAsc v.size
  if t.width ≤ 16 then countingSort moved al ascending v indices else none

end DataFrameVector

open DataFrameVector

section Iterators
variable {α : Type} {v w : DataFrameVector α} {n : ℕ}

theorem Peeked.retreat (h : Peeked v w) (j : ℕ) : ∃ w', w.retreat false j = some w' ∧ Peeked v w' := by
  unfold DataFrameVector.retreat
  split
  · obtain ⟨w',hw',hk,hin⟩ := updateOnNewChunk_view h.later false (j/w.entries-1)
    exact ⟨w',hw',h.then_same hk fun hw => hin hw (by simp)⟩
  · exact ⟨w,rfl,h⟩

theorem Target.retreat (h : Target w n) (j : ℕ) :
    ∃ w', w.retreat true j = some w' ∧ Target w' n ∧ ∀ k, w'.view k = w.view k := by
  unfold DataFrameVector.retreat
  split
  · obtain ⟨w',hw',hk,hin⟩ := updateOnNewChunk_view h.inStep.addressable true (j/w.entries-1)
    exact ⟨w',hw',⟨hin h.inStep fun _ => h.dirty,hk.dirty.trans h.dirty,hk.size.trans h.size⟩,hk.view⟩
  · exact ⟨w,rfl,h,fun _ => rfl⟩

theorem fend_spec (h : InStep w) (hs : 0 < w.size) : ∃ w', w.fend = some w' ∧ Target w' w.size := by
  obtain ⟨w',hw',hk,hin⟩ := fastIterator_view h.raise.addressable true (h.chunks_ne_nil hs) w.size
  exact ⟨w',hw',hin h.raise fun _ => rfl,hk.dirty,hk.size⟩

/-- While the collector leaves the chunk alone, a step back and a store are what they seem to be. -/
theorem IndexIterator.round {s : IndexIterator} {moved : ℕ → Bool} {i : ℕ} (ht : Target s.indices n) (hs : s.stale = false)
    (hidx : s.it.idx = i+1) (hi : i < n) (hmoved : moved i = false) (x : ℕ) :
    ∃ s₁ s₂, s.dec = some s₁ ∧ (s₁.outlive moved i).store x = some s₂ ∧ Target s₂.indices n ∧ s₂.stale = false ∧
      s₂.it.idx = i ∧ ∀ k, s₂.indices.view k = if k = i then some x else s.indices.view k := by
  obtain ⟨w₁,hw₁,ht₁,hview₁⟩ := ht.retreat s.it.idx
  obtain ⟨w₂,hw₂,ht₂,hview₂⟩ := ht₁.write hi (some x)
  set s₁ : IndexIterator := ⟨w₁,s.it.dec s.now,s.now,s.stale && s.it.idx%s.it.entries != 0⟩ with hs₁
  have hdec : (s₁.outlive moved i).it.idx = i := Nat.sub_eq_of_eq_add hidx
  have hfresh : (s₁.outlive moved i).stale = false := by simp only [outlive,hs₁,hs,hmoved,Bool.false_and,Bool.or_self]
  refine ⟨s₁,{s₁.outlive moved i with indices := w₂},by rw [dec,hw₁]; rfl,?_,ht₂,hfresh,hdec,fun k => ?_⟩
  · have hwrite : (s₁.outlive moved i).indices.iterWrite i (some x) = some w₂ := hw₂
    simp only [store,hfresh,hdec,Bool.false_eq_true,if_false,hwrite,Option.map_some]
  · rw [hview₂,hview₁]

end Iterators

section Hint

theorem hint_spec (al : Allocator) (layout : Layout) (ascending : Bool) (size : ℕ) :
    ∃ indices, loop size (hintRound al ascending size) (.new layout) = some indices ∧ Native indices ∧ indices.size = size :=
  loop_total (fun i indices => Native indices ∧ indices.size = i) ⟨.new layout,rfl⟩ fun i _ indices h => by
    obtain ⟨indices',hpush,hn,hsize,-⟩ := h.1.push al (some (if ascending then i else size-i-1))
    exact ⟨indices',hpush,hn,hsize.trans (congrArg (·+1) h.2)⟩

end Hint

section Sorting
variable {t : IntegralType} {v w : DataFrameVector t.Value} {g : ℕ → t.Value} {al : Allocator}

theorem bucket_lt (x : t.Value) : bucket x < 2^t.width := by
  have hlo := x.property.1
  have hhi := x.property.2
  simp only [IntegralType.limitMax] at hhi
  have hpow : ((2^t.width : ℕ) : ℤ) = 2^t.width := by push_cast; rfl
  unfold bucket
  omega

theorem bucket_lt_bucket {x y : t.Value} : bucket x < bucket y ↔ x < y := by
  have hx := x.property.1
  have hy := y.property.1
  change (x.val-t.limitMin).toNat < (y.val-t.limitMin).toNat ↔ x.val < y.val
  omega

theorem count_spec (hw : Peeked v w) (hg : ∀ i < v.size, v.view i = some (g i)) :
    ∃ cnts w', loop v.size countRound (fun _ => 0,w) = some (cnts,w') ∧ Peeked v w' ∧
      ∀ c, cnts c = occurrences (fun j => bucket (g j)) v.size c := by
  have hstep : ∀ i < v.size, ∀ st : (ℕ → ℕ) × DataFrameVector t.Value,
      Peeked v st.2 ∧ (∀ c, st.1 c = occurrences (fun j => bucket (g j)) i c) →
      ∃ st', countRound i st = some st' ∧ Peeked v st'.2 ∧ ∀ c, st'.1 c = occurrences (fun j => bucket (g j)) (i+1) c := by
    rintro i h ⟨cnts,u⟩ ⟨hu,hcnts⟩
    obtain ⟨u1,hu1,hku1⟩ := hu.read h
    obtain ⟨u2,hu2,hku2⟩ := hku1.advance i
    refine ⟨_,by simp only [countRound,hu1,hg i h,hu2,Option.bind_eq_bind,Option.bind_some]; rfl,hku2,fun c => ?_⟩
    rw [occurrences_succ,← hcnts c]
    simp only [update_apply,eq_comm (a := c)]
    split
    · rename_i hc
      rw [hc]
    · rfl
  obtain ⟨⟨cnts,w'⟩,hrun,hk,hc⟩ := loop_total (s := ((fun _ => 0 : ℕ → ℕ),w)) (fun i st => Peeked v st.2 ∧
    ∀ c, st.1 c = occurrences (fun j => bucket (g j)) i c) ⟨hw,fun c => rfl⟩ hstep
  exact ⟨cnts,w',hrun,hk,hc⟩

def place (ascending : Bool) (g : ℕ → t.Value) (n i : ℕ) : ℕ :=
  if ascending then rank (fun j => bucket (g j)) n i else n-rank (fun j => bucket (g j)) n i-1

/-- After `r` rounds the counts leave out the last `r` elements, whose places are known. -/
structure Placing (ascending : Bool) (v : DataFrameVector t.Value) (g : ℕ → t.Value) (r : ℕ)
    (st : (ℕ → ℕ) × DataFrameVector t.Value × IndexIterator) : Prop where
  kept : Peeked v st.2.1
  target : Target st.2.2.indices v.size
  current : st.2.2.stale = false
  idx : st.2.2.it.idx = v.size-r
  counts : ∀ c < 2^t.width, st.1 c = below (fun j => bucket (g j)) v.size (v.size-r) c
  placed : ∀ i < v.size, v.size-r ≤ i → st.2.2.indices.view i = some (place ascending g v.size i)

theorem Placing.round {ascending : Bool} {r : ℕ} {st : (ℕ → ℕ) × DataFrameVector t.Value × IndexIterator}
    (h : Placing ascending v g r st) (hg : ∀ i < v.size, v.view i = some (g i)) {moved : ℕ → Bool}
    (hgc : ∀ i < v.size, moved i = false) (hr : r < v.size) :
    ∃ st', placeRound moved ascending v.size r st = some st' ∧ Placing ascending v g (r+1) st' := by
  obtain ⟨cnts,u,idxIt⟩ := st
  obtain ⟨i,hi⟩ : ∃ i, i = v.size-1-r := ⟨_,rfl⟩
  have hlt : i < v.size := by omega
  obtain ⟨x1,x2,hx1,hx2,htx2,hcur,hidx2,hview2⟩ := IndexIterator.round h.target h.current (h.idx.trans (by omega)) hlt
    (hgc i hlt) (place ascending g v.size i)
  obtain ⟨u1,hu1,hku1⟩ := h.kept.retreat (i+1)
  obtain ⟨u2,hu2,hku2⟩ := hku1.read hlt
  have hcount : cnts (bucket (g i)) = _ := h.counts _ (bucket_lt (g i))
  rw [show v.size-r = i+1 by omega,below_succ hlt,if_pos rfl] at hcount
  have hidx : cnts (bucket (g i))-1 = rank (fun j => bucket (g j)) v.size i := by
    rw [hcount,Nat.add_sub_cancel]
    rfl
  refine ⟨(update cnts (bucket (g i)) (cnts (bucket (g i))-1),u2,x2),?_,hku2,htx2,hcur,hidx2.trans (by omega),
    fun c hc => ?_,fun j hj hle => ?_⟩
  · have hwrite : (if ascending then cnts (bucket (g i))-1 else v.size-(cnts (bucket (g i))-1)-1) =
        place ascending g v.size i := by rw [hidx]; rfl
    simp only [placeRound,← hi,hx1,hu1,hu2,hg i hlt,Option.bind_eq_bind,Option.bind_some,hwrite,hx2]
  · rw [show v.size-(r+1) = i by omega]
    simp only [update_apply]
    split
    · rename_i heq
      rw [hidx,heq]
      rfl
    · rename_i hne
      have := h.counts c hc
      rw [show v.size-r = i+1 by omega,below_succ hlt,if_neg (Ne.symm hne)] at this
      exact this
  · change x2.indices.view j = _
    rw [hview2]
    split
    · rename_i heq
      rw [heq]
    · exact h.placed j hj (by omega)

theorem place_spec (ascending : Bool) (g : ℕ → t.Value) (n : ℕ) :
    (∀ i < n, place ascending g n i < n) ∧
    (∀ i < n, ∀ j < n, place ascending g n i = place ascending g n j → i = j) ∧
    ∀ i < n, ∀ j < n, (g i < g j ∨ g i = g j ∧ i < j) →
      if ascending then place ascending g n i < place ascending g n j else place ascending g n j < place ascending g n i := by
  have hrank : ∀ i < n, ∀ j < n, (g i < g j ∨ g i = g j ∧ i < j) →
      rank (fun j => bucket (g j)) n i < rank (fun j => bucket (g j)) n j := by
    rintro i hi j hj (h | ⟨h,hij⟩)
    · exact rank_lt_rank hi (.inl (bucket_lt_bucket.mpr h))
    · exact rank_lt_rank hi (.inr ⟨congrArg bucket h,hij⟩)
  cases ascending with
  | true => exact ⟨fun i hi => rank_lt hi,fun i hi j hj h => rank_inj hi hj h,hrank⟩
  | false =>
    refine ⟨fun i hi => ?_,fun i hi j hj h => rank_inj (b := fun j => bucket (g j)) hi hj ?_,fun i hi j hj h => ?_⟩
    · simp only [place,Bool.false_eq_true,if_false]
      omega
    · have hri := rank_lt (b := fun j => bucket (g j)) hi
      have hrj := rank_lt (b := fun j => bucket (g j)) hj
      simp only [place,Bool.false_eq_true,if_false] at h
      omega
    · have hrj := rank_lt (b := fun j => bucket (g j)) hj
      have := hrank i hi j hj h
      simp only [place,Bool.false_eq_true,if_false]
      omega

theorem indices_spec (al : Allocator) (layout : Layout) (ascending hint : Bool) (n : ℕ) :
    ∃ indices, hintedIndices al layout ascending hint n = some indices ∧
      InStep (indices.resize al n) ∧ (indices.resize al n).size = n := by
  cases hint with
  | true =>
    obtain ⟨indices,hrun,hn,hsize⟩ := hint_spec al layout ascending n
    have hsame : indices.resize al n = indices := if_neg (by rw [hsize]; omega)
    refine ⟨indices,hrun,?_⟩
    rw [hsame]
    exact ⟨hn.inStep,hsize⟩
  | false => exact ⟨_,rfl,new_resize_spec al layout n⟩

theorem getSortedIndices_spec (hw : t.width ≤ 16) (ha : Addressable v) (hh : v.size ≤ v.capacity) (hn : 0 < v.size)
    (hg : ∀ i < v.size, v.view i = some (g i)) {moved : ℕ → Bool} (hgc : ∀ i < v.size, moved i = false)
    (al : Allocator) (layout : Layout) (ascending hint : Bool) :
    ∃ indices v', v.getSortedIndices moved al layout ascending hint = some (indices,v') ∧ Peeked v v' ∧
      Target indices v.size ∧ ∀ i < v.size, indices.view i = some (place ascending g v.size i) := by
  obtain ⟨indices,hrun,hin,hsize⟩ := indices_spec al layout ascending hint v.size
  obtain ⟨it,hit,hkit⟩ : ∃ it, v.cfbegin = some it ∧ Peeked v it := (Peeked.refl ha hh).iterator hn 0
  obtain ⟨cnts,it1,hcount,hkit1,hcnts⟩ := count_spec hkit hg
  obtain ⟨it2,hend,hkit2⟩ := hkit1.iterator hn it1.size
  obtain ⟨x,hfend,htx⟩ := fend_spec hin (hn.trans_eq hsize.symm)
  have hpow : 2^t.width-1+1 = 2^t.width := Nat.sub_add_cancel Nat.one_le_two_pow
  obtain ⟨⟨c,v',y⟩,hplace,hdone⟩ := loop_total
    (s := (prefixSums cnts (2^t.width-1),it2,⟨x,⟨x.entries,v.size,0⟩,0,false⟩))
    (Placing ascending v g) ⟨hkit2,hsize ▸ htx,rfl,rfl,fun c hc =>
      (prefixSums_spec hcnts _ c).trans (if_pos (by omega)),fun i hi hle => by omega⟩
    fun r hr st h => h.round hg hgc hr
  refine ⟨y.indices,v',?_,hdone.kept,hdone.target,fun i hi => hdone.placed i hi (by omega)⟩
  simp only [getSortedIndices,hrun,countingSort,hit,hcount,cfend,hend,hfend,hplace,if_pos hw,Option.bind_eq_bind,Option.bind_some]

instance : ValueInit t.Value := ⟨some ⟨t.wrap 0,t.wrap_mem 0⟩⟩

/-- The elements of a column in order, the `i`-th one at place `k i`. -/
structure Arranged (ascending : Bool) (g : ℕ → t.Value) (n : ℕ) (k : ℕ → ℕ) (l : DataFrameVector t.Value) : Prop where
  size : l.size = n
  moved : ∀ i < n, l.view (k i) = some (g i)
  sorted : ∀ p q, p < q → q < n → ∃ x y, l.view p = some x ∧ l.view q = some y ∧ if ascending then x ≤ y else y ≤ x

theorem bijOn_place (ascending : Bool) (g : ℕ → t.Value) (n : ℕ) :
    Set.BijOn (place ascending g n) (Finset.range n) (Finset.range n) := by
  obtain ⟨hlt,hinj,-⟩ := place_spec ascending g n
  have hmaps : Set.MapsTo (place ascending g n) (Finset.range n) (Finset.range n) := fun i hi => by
    simpa using hlt i (by simpa using hi)
  have hinjOn : Set.InjOn (place ascending g n) (Finset.range n) := fun i hi j hj h =>
    hinj i (by simpa using hi) j (by simpa using hj) h
  exact ⟨hmaps,hinjOn,Finset.surjOn_of_injOn_of_card_le _ hmaps hinjOn le_rfl⟩

theorem Arranged.of_moved {ascending : Bool} {n : ℕ} {l : DataFrameVector t.Value} (hs : l.size = n)
    (hmoved : ∀ i < n, l.view (place ascending g n i) = some (g i)) :
    Arranged ascending g n (place ascending g n) l := by
  refine ⟨hs,hmoved,fun p q hpq hq => ?_⟩
  have hsurj := (bijOn_place ascending g n).surjOn
  obtain ⟨i,hi,rfl⟩ := hsurj (show p ∈ (Finset.range n : Set ℕ) by simp; omega)
  obtain ⟨j,hj,rfl⟩ := hsurj (show q ∈ (Finset.range n : Set ℕ) by simpa using hq)
  replace hi : i < n := by simpa using hi
  replace hj : j < n := by simpa using hj
  refine ⟨_,_,hmoved i hi,hmoved j hj,?_⟩
  -- a smaller element would have been put on the other side
  have horder := (place_spec ascending g n).2.2
  cases ascending with
  | true => exact le_of_not_gt fun h => absurd (horder j hj i hi (.inl h)) (by simpa using hpq.le)
  | false => exact le_of_not_gt fun h => absurd (horder i hi j hj (.inl h)) (by simpa using hpq.le)

end Sorting

end FarMemory.DataFrame
