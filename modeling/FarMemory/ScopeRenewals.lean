import FarMemory.ColumnSelection

/-!
# Raw addresses across renewals of the scope

A fast iterator keeps the address of its chunk in local memory. It obtains it when it is
made, when it steps into another chunk and when it is renewed; renewing the scope ends the
protection of every address obtained before. Each loop is modelled by what it does to its
scope and its iterators and returns whether every element it read or wrote was reached
through an address obtained since the last renewal. What the elements are matters only
where it decides how a loop goes on. An end iterator without a chunk counts as up to date:
it is not used before it has stepped back.
-/
namespace FarMemory.ScopeRenewals
open ColumnSelection

def kNumElementsPerScope : ℕ := 1024

/-- `entries` is the number of elements in a chunk of the column, and `since` the number of
renewals of the scope when the address was obtained. -/
structure FastIterator where
  entries : ℕ
  idx : ℕ
  since : ℕ

namespace FastIterator

def inc (now : ℕ) (it : FastIterator) : FastIterator :=
  {it with idx := it.idx+1, since := if (it.idx+1)%it.entries = 0 then now else it.since}

def dec (now : ℕ) (it : FastIterator) : FastIterator :=
  {it with idx := it.idx-1, since := if it.idx%it.entries = 0 then now else it.since}

def renew (now : ℕ) (it : FastIterator) : FastIterator := {it with since := now}

def fresh (now : ℕ) (it : FastIterator) : Bool := it.since == now

theorem fresh_inc {now : ℕ} {it : FastIterator} (h : it.fresh now = true) : (it.inc now).fresh now = true := by
  simp only [fresh,inc,beq_iff_eq] at h ⊢
  split
  · rfl
  · exact h

theorem fresh_dec {now : ℕ} {it : FastIterator} (h : it.fresh now = true) : (it.dec now).fresh now = true := by
  simp only [fresh,dec,beq_iff_eq] at h ⊢
  split
  · rfl
  · exact h

end FastIterator

/-- The number of renewals after the test at the start of round `i`. -/
def renewAt (i now : ℕ) : ℕ := if i%kNumElementsPerScope = 0 then now+1 else now

/-- An iterator that is renewed if the scope was. -/
def FastIterator.renewAt (i now : ℕ) (it : FastIterator) : FastIterator :=
  if i%kNumElementsPerScope = 0 then it.renew (now+1) else it

theorem FastIterator.fresh_renewAt {i now : ℕ} {it : FastIterator} (h : it.fresh now = true) :
    (it.renewAt i now).fresh (ScopeRenewals.renewAt i now) = true := by
  unfold FastIterator.renewAt ScopeRenewals.renewAt
  split
  · exact beq_self_eq_true _
  · exact h

open FastIterator (fresh_inc fresh_dec fresh_renewAt)

/-! ### The loops that go forward together -/

/-- `n` more rounds from index `i`: the scope and all iterators are renewed every
`kNumElementsPerScope` rounds, all are used and all move on. -/
def forwardLoop : ℕ → ℕ → ℕ → List FastIterator → Bool
  | 0,_,_,_ => true
  | n+1,i,now,its =>
    let its := its.map (·.renewAt i now)
    let now := renewAt i now
    its.all (·.fresh now) && forwardLoop n (i+1) now (its.map (·.inc now))

/-- The values are collected in one loop and written in another. -/
def getColUniqueValuesLocally (entries size numUnique : ℕ) : Bool :=
  forwardLoop size 0 0 [⟨entries,0,0⟩] && forwardLoop numUnique 0 0 [⟨entries,0,0⟩]

def copyDataByIdxLocally (entries idxEntries size : ℕ) : Bool := forwardLoop size 0 0 [⟨entries,0,0⟩,⟨idxEntries,0,0⟩]

def shuffleDataByIdxLocally (entries idxEntries size : ℕ) : Bool :=
  forwardLoop size 0 0 [⟨entries,0,0⟩,⟨idxEntries,0,0⟩]

def assignLocally (entries start size : ℕ) : Bool := forwardLoop size 0 0 [⟨entries,start,0⟩,⟨entries,0,0⟩]

/-! ### Aggregation -/

section
variable {κ : Type} [DecidableEq κ] (keys : ℕ → κ) (size : ℕ)

/-- The inner loop, from index `i` on; the key is read before `i` is compared with the size. -/
def aggregateGroup (lastKey : κ) : ℕ → ℕ → ℕ → FastIterator → FastIterator → Bool × ℕ
  | 0,i,_,_,_ => (true,i)
  | fuel+1,i,now,dataIt,keyIt =>
    if keyIt.fresh now then
      if keys i = lastKey ∧ i < size then
        let dataIt := dataIt.renewAt i now
        let keyIt := keyIt.renewAt i now
        let now := renewAt i now
        if dataIt.fresh now then aggregateGroup lastKey fuel (i+1) now (dataIt.inc now) (keyIt.inc now)
        else (false,i)
      else (true,i)
    else (false,i)

/-- Every group has a scope of its own. -/
def aggregateGroups (entries keyEntries : ℕ) : ℕ → ℕ → Bool
  | 0,_ => true
  | fuel+1,i =>
    if i < size then
      let r := aggregateGroup keys size (keys i) (size+1) i 0 ⟨entries,i,0⟩ ⟨keyEntries,i,0⟩
      r.1 && aggregateGroups entries keyEntries fuel r.2
    else true

def aggregateLocally (entries keyEntries : ℕ) : Bool := aggregateGroups keys size entries keyEntries size 0

end

/-! ### Selection -/

section
variable {α : Type} [LinearOrder α] (entries : ℕ)

def partitionLoop (key : α) : ℕ → (ℕ → α) → ℕ → ℕ → FastIterator → FastIterator → FastIterator → Bool
  | 0,_,_,_,_,_,_ => true
  | fuel+1,a,cnt,now,i,pivot,j =>
    if i.idx = j.idx then true
    else
      let i := i.renewAt cnt now
      let j := j.renewAt cnt now
      let pivot := pivot.renewAt cnt now
      let now := renewAt cnt now
      i.fresh now &&
        if key < a i.idx then partitionLoop key fuel a (cnt+1) now (i.inc now) pivot j
        else if a i.idx < key then
          pivot.fresh now &&
            partitionLoop key fuel (swap a i.idx pivot.idx) (cnt+1) now (i.inc now) (pivot.inc now) j
        else
          let j := j.dec now
          j.fresh now && partitionLoop key fuel (swap a i.idx j.idx) (cnt+1) now i pivot j

/-- `_nth_element`, which goes on as `nthElementFrom` does, with a new scope in each call. -/
def nthElementScopes : ℕ → (ℕ → ℕ) → (ℕ → α) → ℕ → ℕ → ℕ → Bool
  | 0,_,_,_,_,_ => true
  | fuel+1,rand,a,start,len,n =>
    let a := swap a (start+len-1) (rand 0%len+start)
    let key := a (start+len-1)
    let i : FastIterator := ⟨entries,start,0⟩
    let j : FastIterator := ⟨entries,start+len-1,0⟩
    j.fresh 0 && partitionLoop key len a 0 0 i i j &&
      match partition key len a start start (start+len-1) with
      | none => true
      | some (a,pivot,j) =>
        let pivot := pivot-start
        let j := j-start
        if pivot ≤ n ∧ n ≤ pivot+len-1-j then true
        else if n < pivot then nthElementScopes fuel (fun k => rand (k+1)) a start pivot n
        else nthElementScopes fuel (fun k => rand (k+1)) a (start+pivot) (j-pivot) (n-pivot-(len-j))

end

/-! ### The counting sort -/

/-- The loop that goes backwards from index `i`: the iterator of the indices is not renewed. -/
def backwardLoop : ℕ → ℕ → FastIterator → FastIterator → Bool
  | 0,_,_,_ => true
  | i+1,now,it,idxIt =>
    let idxIt := idxIt.dec now
    let it := it.dec now
    let it := it.renewAt i now
    let now := renewAt i now
    it.fresh now && idxIt.fresh now && backwardLoop i now it idxIt

/-- How often the scope was renewed in the first loop. -/
def renewals (size : ℕ) : ℕ := (size+kNumElementsPerScope-1)/kNumElementsPerScope

def getSortedIndicesCountingSort (entries idxEntries size : ℕ) : Bool :=
  forwardLoop size 0 0 [⟨entries,0,0⟩] &&
    backwardLoop size (renewals size) ⟨entries,size,renewals size⟩ ⟨idxEntries,size,renewals size⟩

/-! ### All of them -/

inductive Operation (α κ : Type)
  | nthElement (entries : ℕ) (rand : ℕ → ℕ) (a : ℕ → α) (size n : ℕ)
  | uniqueValues (entries size numUnique : ℕ)
  | copyDataByIdx (entries idxEntries size : ℕ)
  | shuffleDataByIdx (entries idxEntries size : ℕ)
  | assign (entries start size : ℕ)
  | aggregate (entries keyEntries : ℕ) (keys : ℕ → κ) (size : ℕ)
  | countingSort (entries idxEntries size : ℕ)

/-- No element is reached through an address from before the last renewal. -/
def Operation.noStale {α κ : Type} [LinearOrder α] [DecidableEq κ] : Operation α κ → Bool
  | .nthElement entries rand a size n => nthElementScopes entries size rand a 0 size n
  | .uniqueValues entries size numUnique => getColUniqueValuesLocally entries size numUnique
  | .copyDataByIdx entries idxEntries size => copyDataByIdxLocally entries idxEntries size
  | .shuffleDataByIdx entries idxEntries size => shuffleDataByIdxLocally entries idxEntries size
  | .assign entries start size => assignLocally entries start size
  | .aggregate entries keyEntries keys size => aggregateLocally keys size entries keyEntries
  | .countingSort entries idxEntries size => getSortedIndicesCountingSort entries idxEntries size

section Proofs
variable {now i n : ℕ} {its : List FastIterator}

theorem forwardLoop_fresh (h : ∀ it ∈ its, it.fresh now = true) : forwardLoop n i now its = true := by
  induction n generalizing i now its with
  | zero => rfl
  | succ n ih =>
    have hall : ∀ it ∈ its.map (·.renewAt i now), it.fresh (renewAt i now) = true := by
      intro it hit
      obtain ⟨it,hmem,rfl⟩ := List.mem_map.mp hit
      exact fresh_renewAt (h it hmem)
    simp only [forwardLoop]
    rw [List.all_eq_true.mpr hall,Bool.true_and]
    refine ih fun it hit => ?_
    obtain ⟨it,hmem,rfl⟩ := List.mem_map.mp hit
    exact fresh_inc (hall it hmem)

theorem forwardLoop_start {l : List (ℕ × ℕ)} : forwardLoop n i now (l.map fun p => ⟨p.1,p.2,now⟩) = true := by
  refine forwardLoop_fresh fun it hit => ?_
  obtain ⟨p,-,rfl⟩ := List.mem_map.mp hit
  exact beq_self_eq_true now

section
variable {κ : Type} [DecidableEq κ] {keys : ℕ → κ} {size : ℕ}

theorem aggregateGroup_fresh {lastKey : κ} {fuel : ℕ} {d k : FastIterator} (hd : d.fresh now = true)
    (hk : k.fresh now = true) : (aggregateGroup keys size lastKey fuel i now d k).1 = true := by
  induction fuel generalizing i now d k with
  | zero => rfl
  | succ fuel ih =>
    rw [aggregateGroup,if_pos hk]
    split
    · simp only [fresh_renewAt hd,if_true]
      exact ih (fresh_inc (fresh_renewAt hd)) (fresh_inc (fresh_renewAt hk))
    · rfl

theorem aggregateGroups_fresh {entries keyEntries fuel : ℕ} :
    aggregateGroups keys size entries keyEntries fuel i = true := by
  induction fuel generalizing i with
  | zero => rfl
  | succ fuel ih =>
    simp only [aggregateGroups,ih,Bool.and_true]
    split
    · exact aggregateGroup_fresh rfl rfl
    · rfl

end

section
variable {α : Type} [LinearOrder α]

theorem partitionLoop_fresh {key : α} {fuel cnt : ℕ} {a : ℕ → α} {i pivot j : FastIterator} (hi : i.fresh now = true)
    (hp : pivot.fresh now = true) (hj : j.fresh now = true) : partitionLoop key fuel a cnt now i pivot j = true := by
  induction fuel generalizing a cnt now i pivot j with
  | zero => rfl
  | succ fuel ih =>
    have hi := fresh_renewAt (i := cnt) hi
    have hp := fresh_renewAt (i := cnt) hp
    have hj := fresh_renewAt (i := cnt) hj
    rw [partitionLoop]
    split
    · rfl
    simp only [hi,Bool.true_and]
    split
    · exact ih (fresh_inc hi) hp hj
    split
    · rw [hp,Bool.true_and]
      exact ih (fresh_inc hi) (fresh_inc hp) hj
    · rw [fresh_dec hj,Bool.true_and]
      exact ih hi hp (fresh_dec hj)

theorem nthElementScopes_fresh {entries fuel start len n : ℕ} {rand : ℕ → ℕ} {a : ℕ → α} :
    nthElementScopes entries fuel rand a start len n = true := by
  induction fuel generalizing rand a start len n with
  | zero => rfl
  | succ fuel ih =>
    have hloop : ∀ (key : α) a, partitionLoop key len a 0 0 ⟨entries,start,0⟩ ⟨entries,start,0⟩
        ⟨entries,start+len-1,0⟩ = true := fun _ _ => partitionLoop_fresh rfl rfl rfl
    simp only [nthElementScopes,hloop,ih,ite_self]
    split <;> rfl

end

/-- The last round renews the scope after the iterator of the indices has moved. -/
theorem backwardLoop_stale {it idxIt : FastIterator} (h : idxIt.since ≤ now) (hn : n ≠ 0) :
    backwardLoop n now it idxIt = false := by
  induction n generalizing now it idxIt with
  | zero => exact absurd rfl hn
  | succ i ih =>
    have hdec : (idxIt.dec now).since ≤ now := by
      simp only [FastIterator.dec]
      split
      · exact le_rfl
      · exact h
    simp only [backwardLoop]
    by_cases h0 : i = 0
    · subst h0
      have hstale : (idxIt.dec now).fresh (renewAt 0 now) = false := by
        rw [FastIterator.fresh,beq_eq_false_iff_ne,renewAt,if_pos (Nat.zero_mod _)]
        omega
      rw [hstale,Bool.and_false,Bool.false_and]
    · have hnow : now ≤ renewAt i now := by
        unfold renewAt
        split <;> omega
      rw [ih (hdec.trans hnow) h0,Bool.and_false]

end Proofs

/-- For columns of every length and every size of their chunks: the elements are reached
through current addresses in every operation but the counting sort, and there only if
there is nothing to sort. -/
theorem addresses_current_iff {α κ : Type} [LinearOrder α] [DecidableEq κ] (op : Operation α κ) :
    op.noStale = true ↔ ∀ entries idxEntries size, op = .countingSort entries idxEntries size → size = 0 := by
  cases op with
  | countingSort entries idxEntries size =>
    constructor
    · rintro h _ _ _ ⟨⟩
      by_contra hne
      have hstale : backwardLoop size (renewals size) ⟨entries,size,renewals size⟩ ⟨idxEntries,size,renewals size⟩ = false :=
        backwardLoop_stale le_rfl hne
      rw [Operation.noStale,getSortedIndicesCountingSort,hstale,Bool.and_false] at h
      cases h
    · intro h
      obtain rfl := h _ _ _ rfl
      rfl
  | nthElement entries rand a size n => exact iff_of_true nthElementScopes_fresh (by rintro _ _ _ ⟨⟩)
  | uniqueValues entries size numUnique =>
    have hloop : ∀ n, forwardLoop n 0 0 [⟨entries,0,0⟩] = true := fun n => forwardLoop_start (l := [(entries,0)])
    refine iff_of_true ?_ (by rintro _ _ _ ⟨⟩)
    rw [Operation.noStale,getColUniqueValuesLocally,hloop,hloop]
    rfl
  | copyDataByIdx entries idxEntries size =>
    exact iff_of_true (forwardLoop_start (l := [(entries,0),(idxEntries,0)])) (by rintro _ _ _ ⟨⟩)
  | shuffleDataByIdx entries idxEntries size =>
    exact iff_of_true (forwardLoop_start (l := [(entries,0),(idxEntries,0)])) (by rintro _ _ _ ⟨⟩)
  | assign entries start size =>
    exact iff_of_true (forwardLoop_start (l := [(entries,start),(entries,0)])) (by rintro _ _ _ ⟨⟩)
  | aggregate entries keyEntries keys size => exact iff_of_true aggregateGroups_fresh (by rintro _ _ _ ⟨⟩)

/-- The smallest column there is to sort: its only index is written through an address from
before the renewal. -/
theorem one_element_sort_stale : (Operation.countingSort 1024 512 1 : Operation ℕ ℕ).noStale = false := by
  decide +kernel

end FarMemory.ScopeRenewals
