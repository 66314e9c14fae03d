import FarMemory.ColumnSelection
import FarMemory.DataFrameVector

/-!
# Aggregating a column by keys

The aggregators of an element type, and the two implementations of aggregation
over a column of data and a column of keys: on the server in one pass over both
vectors, which emits a value whenever the key changes and once more at the end;
and on the client, group by group through fast iterators. The median of the
latter keeps a group in a column of its own, of which only the contents are
modelled, and selects with random pivots.
-/
namespace FarMemory.DataFrame
open CountedLoop StdVector ColumnSelection OrderStatistic

/-- `numeric_limits<T>::min()` and `max()`, and `(a + b) / 2` computed in `T`. -/
class Numeric (α : Type) where
  limitMin : α
  limitMax : α
  halfSum : α → α → α

export Numeric (limitMin limitMax halfSum)

/-- `unsigned long long`. -/
instance : Numeric ℕ where
  limitMin := 0
  limitMax := 2^64-1
  halfSum a b := (a+b)%2^64/2

/-- `std::nth_element`. -/
structure NthElement (α : Type) [LinearOrder α] where
  arrange : List α → ℕ → List α
  perm : ∀ l n, (arrange l n).Perm l
  nth : ∀ l n r, (arrange l n)[n]? = some r → IsNth l n r

inductive AggregateOp
  | max
  | min
  | median
deriving DecidableEq, Repr

inductive Aggregator (α : Type)
  | max (tmp : α)
  | min (tmp : α)
  | median (vec : List α)
  /-- `calls` numbers the selections made so far. -/
  | medianLimitedMem (vec : List α) (calls : ℕ)

namespace Aggregator
variable {α : Type} [LinearOrder α] [Numeric α]

/-- `AggregatorFactory::build`. -/
def build (op : AggregateOp) (limitedMem : Bool) : Aggregator α :=
  match op with
  | .max => .max limitMin
  | .min => .min limitMax
  | .median => if limitedMem then .medianLimitedMem [] 0 else .median []

def add (t : α) : Aggregator α → Aggregator α
  | .max tmp => .max (Max.max tmp t)
  | .min tmp => .min (Min.min tmp t)
  | .median vec => .median (vec++[t])
  | .medianLimitedMem vec calls => .medianLimitedMem (vec++[t]) calls

/-- `nth_element` of the column that holds `vec`, which it rearranges. -/
def select (rand : ℕ → ℕ) (vec : List α) (n : ℕ) : Option (α × List α) :=
  (nthElement rand (fun i => vec[i]?.getD limitMin) vec.length n).map fun r =>
    (r.1,window r.2 0 vec.length)

/-- `rand k` is the stream of random numbers seen by selection `k`. The median of
no values reads an element that does not exist. -/
def aggregate (lib : NthElement α) (rand : ℕ → ℕ → ℕ) : Aggregator α → Option (α × Aggregator α)
  | .max tmp => some (tmp,.max limitMin)
  | .min tmp => some (tmp,.min limitMax)
  | .median vec => do
    let n := vec.length/2
    let vec₁ := lib.arrange vec n
    let ret ← vec₁[n]?
    if vec.length%2 = 0 then
      let x ← (lib.arrange vec₁ (n-1))[n-1]?
      some (halfSum ret x,.median [])
    else some (ret,.median [])
  | .medianLimitedMem vec calls => do
    let n := vec.length/2
    let (ret,vec₁) ← select (rand calls) vec n
    if vec.length%2 = 0 then
      let (x,_) ← select (rand (calls+1)) vec₁ (n-1)
      some (halfSum ret x,.medianLimitedMem [] (calls+2))
    else some (ret,.medianLimitedMem [] (calls+1))

end Aggregator

section Server
variable {α κ : Type} [LinearOrder α] [Numeric α] [DecidableEq κ] (al : Allocator)
  (lib : NthElement α) (rand : ℕ → ℕ → ℕ)

/-- The state of the pass: the aggregator, the last key and the results. -/
def aggregateElement (data : Vec α) (keys : Vec κ) (i : ℕ)
    (st : Aggregator α × κ × Vec α) : Option (Aggregator α × κ × Vec α) := do
  let cur ← (keys.read i).join
  let (ag,result) ←
    if st.2.1 ≠ cur then do
      let (x,ag) ← st.1.aggregate lib rand
      some (ag,st.2.2.pushBack al (some x))
    else some (st.1,st.2.2)
  let x ← (data.read i).join
  some (ag.add x,cur,result)

/-- `_compute_aggregate`: the key of element 0 is read before the loop, and the
last group is emitted after it, whatever `size` is. -/
def computeAggregate (op : AggregateOp) (data : Vec α) (keys : Vec κ) (size : ℕ)
    (result : Vec α) : Option (Vec α) := do
  let lastKey ← (keys.read 0).join
  let (ag,_,result) ← loop size (aggregateElement al lib rand data keys)
    (Aggregator.build op false,lastKey,result)
  let (x,_) ← ag.aggregate lib rand
  some (result.pushBack al (some x))

end Server

namespace DataFrameVector
variable {α κ : Type} [LinearOrder α] [Numeric α] [DecidableEq κ] (al : Allocator)
  (lib : NthElement α) (rand : ℕ → ℕ → ℕ)

def aggregateRemotely (op : AggregateOp) (v : DataFrameVector α) (keys : DataFrameVector κ) :
    Option (DataFrameVector α × DataFrameVector α × DataFrameVector κ) := do
  let keys ← keys.flush
  let v ← v.flush
  let s ← computeAggregate al lib rand op v.server keys.server v.size .new
  some (adopt v.layout s.size s,v,keys)

/-- The inner loop of `aggregate_locally`, from element `i` on: the key under the
iterator is read before `i` is compared with the size. -/
def aggregateGroup (size : ℕ) (lastKey : κ) : ℕ → ℕ →
    Aggregator α × DataFrameVector α × DataFrameVector κ →
    Option (ℕ × Aggregator α × DataFrameVector α × DataFrameVector κ)
  | 0,_,_ => none
  | fuel+1,i,(ag,v,keys) => do
    let (k,keys) ← keys.atIndex i
    if i < size then
      let k ← k
      if k = lastKey then
        let (x,v) ← v.atIndex i
        let x ← x
        let v ← v.advance false i
        let keys ← keys.advance false i
        aggregateGroup size lastKey fuel (i+1) (ag.add x,v,keys)
      else some (i,ag,v,keys)
    else some (i,ag,v,keys)

variable [ValueInit α]

def aggregateGroups (size : ℕ) : ℕ → ℕ →
    DataFrameVector α × Aggregator α × DataFrameVector α × DataFrameVector κ →
    Option (DataFrameVector α × DataFrameVector α × DataFrameVector κ)
  | 0,_,_ => none
  | fuel+1,i,(result,ag,v,keys) =>
    if i < size then do
      let v ← v.cfbegin
      let v ← v.fastIterator false i
      let keys ← keys.cfbegin
      let keys ← keys.fastIterator false i
      let (lastKey,keys) ← keys.atIndex i
      let lastKey ← lastKey
      let (i,ag,v,keys) ← aggregateGroup size lastKey (size+1) i (ag,v,keys)
      let (x,ag) ← ag.aggregate lib rand
      let result ← result.pushBack al (some x)
      aggregateGroups size fuel i (result,ag,v,keys)
    else some (result,v,keys)

def aggregateLocally (op : AggregateOp) (v : DataFrameVector α) (keys : DataFrameVector κ) :
    Option (DataFrameVector α × DataFrameVector α × DataFrameVector κ) :=
  aggregateGroups al lib rand v.size (v.size+1) 0
    (new v.layout,Aggregator.build op true,v,keys)

end DataFrameVector
end FarMemory.DataFrame
