import FarMemory.Aggregation

/-!
# Capacity of the server's copy

The runs of a column: what its owner does to it, from its construction or from
the offloaded operation that made it, with evictions in between. Columns meet
only as operands, so an operand is any column that was reached the same way.
The server vector must cover every chunk the client can name. Growing it keeps
exactly what the vector counts as its elements.
-/
namespace FarMemory.DataFrame
open CountedLoop StdVector ValueInit

inductive ColumnOp (α : Type)
  | pushBack (x : α)
  | popBack
  | clear
  | reserve (count : ℕ)
  | resize (count : ℕ)
  | read (index : ℕ)
  | write (index : ℕ) (x : α)
  | flush
  | swapOut (chunk : ℕ)
  | moveConstruct
  | moveAssign (other : DataFrameVector α)
  | assign (src : DataFrameVector α) (beginIdx endIdx : ℕ)

/-- The columns an operation reads besides the one it is applied to. -/
def ColumnOp.operands {α : Type} : ColumnOp α → List (DataFrameVector α)
  | .moveAssign other => [other]
  | .assign src _ _ => [src]
  | _ => []

/-- Popping from an empty column is an error of the caller. -/
def columnStep {α : Type} [ValueInit α] (al : Allocator) (v : DataFrameVector α) :
    ColumnOp α → Option (DataFrameVector α)
  | .pushBack x => v.pushBack al (some x)
  | .popBack => if v.size = 0 then none else some v.popBack
  | .clear => some v.clear
  | .reserve count => some (v.reserve al count)
  | .resize count => some (v.resize al count)
  | .read index => (v.atIndex index).map Prod.snd
  | .write index x => v.atMut index (some x)
  | .flush => v.flush
  | .swapOut chunk => v.swapOut chunk
  | .moveConstruct => some v.moveConstruct
  | .moveAssign other => some (v.moveAssign other)
  | .assign src beginIdx endIdx => (v.assignRemotely al src beginIdx endIdx).map Prod.fst

/-- The columns that runs lead to in which every step meets the condition `ok`. -/
inductive Reachable (al : Allocator) (ok : ∀ α : Type, DataFrameVector α → ColumnOp α → Prop) :
    ∀ {α : Type}, DataFrameVector α → Prop
  | new {α : Type} (layout : Layout) : Reachable al ok (.new layout : DataFrameVector α)
  | copied {α : Type} {v v' r : DataFrameVector α} {idx idx' : DataFrameVector ℕ}
      (hv : Reachable al ok v) (hi : Reachable al ok idx)
      (h : v.copyDataByIdxRemotely al idx = some (r,v',idx')) : Reachable al ok r
  | shuffled {α : Type} {v v' r : DataFrameVector α} {idx idx' : DataFrameVector ℕ}
      (hv : Reachable al ok v) (hi : Reachable al ok idx)
      (h : v.shuffleDataByIdxRemotely al idx = some (r,v',idx')) : Reachable al ok r
  | unique {α : Type} [DecidableEq α] {v v' r : DataFrameVector α} (hv : Reachable al ok v)
      (h : v.getColUniqueValuesRemotely al = some (r,v')) : Reachable al ok r
  | aggregated {α κ : Type} [LinearOrder α] [Numeric α] [DecidableEq κ] (lib : NthElement α)
      (rand : ℕ → ℕ → ℕ) (op : AggregateOp) {v v' r : DataFrameVector α}
      {keys keys' : DataFrameVector κ} (hv : Reachable al ok v) (hk : Reachable al ok keys)
      (h : DataFrameVector.aggregateRemotely al lib rand op v keys = some (r,v',keys')) :
      Reachable al ok r
  | step {α : Type} [ValueInit α] {v v' : DataFrameVector α} {op : ColumnOp α}
      (hv : Reachable al ok v) (hops : ∀ w ∈ op.operands, Reachable al ok w) (hok : ok α v op)
      (h : columnStep al v op = some v') : Reachable al ok v'

section Reserve
variable {α : Type} [ValueInit α] (al : Allocator) (s : Vec α)

theorem computeReserve_size (n : ℕ) :
    (computeReserve al s n).size = (computeReserve al s n).capacity := by
  unfold computeReserve
  rw [Vec.resize_size,Vec.resize_capacity al _ _ le_rfl]

theorem capacity_le_computeReserve (n : ℕ) : s.capacity ≤ (computeReserve al s n).capacity :=
  (s.capacity_le_resize al n).trans (Vec.capacity_le_resize al _ _)

theorem le_computeReserve (n : ℕ) : n ≤ (computeReserve al s n).capacity := by
  have h := (s.resize al n).fits
  rw [Vec.resize_size] at h
  exact h.trans (Vec.capacity_le_resize al _ _)

/-- Growing carries over the elements and value-initialises every other cell. -/
theorem computeReserve_cells {n i : ℕ} (hn : s.capacity < n) (hi : i < s.capacity) :
    (computeReserve al s n).cells i = if i < s.size then s.cells i else fresh := by
  have hin : i < (s.resize al n).size := by
    rw [Vec.resize_size]
    omega
  unfold computeReserve
  rw [Vec.resize_cells_of_lt al _ _ _ hin]
  split
  · rename_i h
    exact Vec.resize_cells_of_lt al _ _ _ h
  · exact Vec.resize_cells_new al _ _ _ (by omega) (by omega)

end Reserve

/-- Growing the server vector keeps every written position below the old capacity
exactly if the positions written at or above the vector's size hold what growing
writes there. -/
theorem computeReserve_keeps_iff {α : Type} [ValueInit α] (al : Allocator) (s : Vec α) (n : ℕ)
    (hn : s.capacity < n) :
    (∀ i < s.capacity, ∀ x, s.cells i = some x →
      (computeReserve al s n).read i = some (some x)) ↔
    ∀ i < s.capacity, s.size ≤ i → ∀ x, s.cells i = some x → fresh = some x := by
  have hread : ∀ i < s.capacity, (computeReserve al s n).read i =
      some (if i < s.size then s.cells i else fresh) := by
    intro i hi
    rw [Vec.read_eq (hi.trans_le (capacity_le_computeReserve al s n)),
      computeReserve_cells al s hn hi]
  constructor
  · intro h i hi hs x hx
    have := h i hi x hx
    rw [hread i hi,if_neg (by omega)] at this
    exact Option.some.inj this
  · intro h i hi x hx
    rw [hread i hi]
    split
    · rw [hx]
    · rename_i hs
      rw [h i hi (by omega) x hx]

theorem computeReserve_keeps_iff_reserved :
    (computeReserve .doubling (Vec.new : Vec ℕ) 2).capacity < 4 ∧
    ∀ i < 2, ∀ x, (computeReserve .doubling (Vec.new : Vec ℕ) 2).cells i = some x →
      (computeReserve .doubling (computeReserve .doubling (Vec.new : Vec ℕ) 2) 4).read i =
        some (some x) := by
  refine ⟨by decide,?_⟩
  have h := (computeReserve_keeps_iff .doubling (computeReserve .doubling (Vec.new : Vec ℕ) 2) 4
    (by decide)).mpr
  refine h fun i hi hs => ?_
  exact absurd (hs.trans_lt hi) (by decide)

/-- A shuffled column of one element, whose server vector has no elements, loses
its contents when the vector grows to the capacity of a chunk. -/
theorem shuffled_lost_by_reserve :
    ∃ data idx s : Vec ℕ,
      writeObject (computeReserve .doubling .new 512) 512 0 (fun _ => some 7) = some data ∧
      writeObject (computeReserve .doubling .new 512) 512 0 (fun _ => some 0) = some idx ∧
      computeShuffleDataByIdx .doubling data idx 1 .new = some s ∧
      s.capacity < 512 ∧ s.cells 0 = some 7 ∧
      (computeReserve .doubling s 512).read 0 = some (some 0) :=
  ⟨_,_,_,rfl,rfl,rfl,by decide,by decide,by decide⟩

section Shape
variable {α : Type} {v v' : DataFrameVector α} {i index : ℕ} {d : ℕ → Option α} {x : Option α}

/-- What decides which remote storage exists and which is addressed. -/
structure SameShape (v v' : DataFrameVector α) : Prop where
  layout : v'.layout = v.layout
  length : v'.chunkPtrs.length = v.chunkPtrs.length
  remote : v'.remoteVecCapacity = v.remoteVecCapacity
  capacity : v'.server.capacity = v.server.capacity

theorem SameShape.refl (v : DataFrameVector α) : SameShape v v := ⟨rfl,rfl,rfl,rfl⟩

theorem SameShape.trans {v'' : DataFrameVector α} (h : SameShape v v') (h' : SameShape v' v'') :
    SameShape v v'' :=
  ⟨h'.layout.trans h.layout,h'.length.trans h.length,h'.remote.trans h.remote,
    h'.capacity.trans h.capacity⟩

theorem SameShape.setChunk (v : DataFrameVector α) (i : ℕ) (c : Chunk α) :
    SameShape v (v.setChunk i c) :=
  ⟨rfl,by simp [DataFrameVector.setChunk],rfl,rfl⟩

theorem writeObject_some {s s' : Vec α} {n : ℕ} (h : writeObject s n i d = some s') :
    i*n ≤ s.capacity ∧ s'.capacity = s.capacity ∧ s'.size = s.size ∧
      s'.cells = fun j => if i*n ≤ j ∧ j < (i+1)*n ∧ j < s.capacity then d (j-i*n) else s.cells j := by
  obtain ⟨hi,h⟩ := Option.ite_none_right_eq_some.mp h
  cases h
  exact ⟨hi,rfl,rfl,rfl⟩

namespace DataFrameVector

theorem deref_shape (h : v.deref i = some (d,v')) : SameShape v v' := by
  unfold deref at h
  split at h
  · cases h
  · cases h
    exact .refl v
  · obtain ⟨e,_,⟨⟩⟩ := Option.map_eq_some_iff.mp h
    exact .setChunk v i _

theorem derefMut_shape (h : v.derefMut i = some (d,v')) : SameShape v v' := by
  obtain ⟨⟨e,w⟩,hd,⟨⟩⟩ := Option.map_eq_some_iff.mp h
  exact (deref_shape hd).trans (.setChunk w i _)

theorem atIndex_shape (h : v.atIndex index = some (x,v')) : SameShape v v' := by
  obtain ⟨⟨d,w⟩,hd,⟨⟩⟩ := Option.map_eq_some_iff.mp h
  exact deref_shape hd

theorem atMut_shape (h : v.atMut index x = some v') : SameShape v v' := by
  obtain ⟨⟨d,w⟩,hd,⟨⟩⟩ := Option.map_eq_some_iff.mp h
  have hflag : SameShape v {v with dirty := true} := ⟨rfl,rfl,rfl,rfl⟩
  exact (hflag.trans (derefMut_shape hd)).trans (.setChunk w _ _)

theorem flushChunks_shape {n : ℕ} {cs cs' : List (Chunk α)} {i : ℕ} {s s' : Vec α}
    (h : flushChunks n i cs s = some (cs',s')) :
    cs'.length = cs.length ∧ s'.capacity = s.capacity := by
  induction cs generalizing i s cs' s' with
  | nil =>
    cases h
    exact ⟨rfl,rfl⟩
  | cons c cs ih =>
    rcases c with ⟨d,_ | _⟩ | _
    · obtain ⟨⟨ds,t⟩,hr,⟨⟩⟩ := Option.map_eq_some_iff.mp h
      have := ih hr
      exact ⟨by simpa using this.1,this.2⟩
    · simp only [flushChunks,Option.bind_eq_bind,Option.bind_eq_some_iff] at h
      obtain ⟨t,hw,⟨ds,u⟩,hr,⟨⟩⟩ := h
      have := ih hr
      exact ⟨by simpa using this.1,this.2.trans (writeObject_some hw).2.1⟩
    · obtain ⟨⟨ds,t⟩,hr,⟨⟩⟩ := Option.map_eq_some_iff.mp h
      have := ih hr
      exact ⟨by simpa using this.1,this.2⟩

theorem flush_shape (h : v.flush = some v') : SameShape v v' := by
  unfold flush at h
  split at h
  · obtain ⟨⟨cs,s⟩,hf,⟨⟩⟩ := Option.map_eq_some_iff.mp h
    have := flushChunks_shape hf
    exact ⟨rfl,this.1,rfl,this.2⟩
  · cases h
    exact .refl v

theorem swapOut_shape {i : ℕ} (h : v.swapOut i = some v') : SameShape v v' := by
  unfold swapOut at h
  split at h
  · obtain ⟨s,hw,⟨⟩⟩ := Option.map_eq_some_iff.mp h
    exact ⟨rfl,by simp [setChunk],rfl,(writeObject_some hw).2.1⟩
  · cases h
    exact .setChunk v i _
  · cases h
    exact .refl v

end DataFrameVector
end Shape

/-- The client addresses existing storage only. -/
structure Addressable {α : Type} (v : DataFrameVector α) : Prop where
  known : v.remoteVecCapacity ≤ v.server.capacity
  ids : ∀ i < v.chunkPtrs.length, i*v.entries < v.server.capacity

namespace Addressable
variable {α : Type} {v v' : DataFrameVector α}

theorem of_shape (h : Addressable v) (hs : SameShape v v') : Addressable v' where
  known := by
    rw [hs.remote,hs.capacity]
    exact h.known
  ids i hi := by
    rw [hs.length] at hi
    rw [hs.capacity,DataFrameVector.entries,hs.layout]
    exact h.ids i hi

theorem new (layout : Layout) : Addressable (.new layout : DataFrameVector α) :=
  ⟨le_rfl,fun i hi => absurd hi (Nat.not_lt_zero i)⟩

/-- The chunks made for a server vector start below its capacity, if they are the
column's only ones. -/
theorem expandNoAlloc (h : v.chunkPtrs = []) (hk : v.remoteVecCapacity ≤ v.server.capacity) :
    Addressable (v.expandNoAlloc v.server.capacity) where
  known := hk
  ids i hi := by
    simp only [DataFrameVector.expandNoAlloc,h,List.nil_append,List.length_replicate,
      DataFrameVector.chunksFor] at hi
    split at hi
    · omega
    · rename_i hc
      have hdiv := Nat.div_mul_le_self (v.server.capacity-1) v.entries
      have hmul := Nat.mul_le_mul_right v.entries (Nat.lt_succ_iff.mp hi)
      have hlt : i*v.entries < v.server.capacity := by omega
      exact hlt

theorem adopt (layout : Layout) (size : ℕ) (s : Vec α) :
    Addressable (DataFrameVector.adopt layout size s) :=
  expandNoAlloc (v := {DataFrameVector.new layout with
    server := s, size := size, remoteVecCapacity := s.capacity}) rfl le_rfl

theorem moveAssign_iff (h : Addressable v') :
    Addressable (v.moveAssign v') ↔ v.remoteVecCapacity ≤ v'.server.capacity :=
  ⟨fun hm => hm.known,fun hk => ⟨hk,h.ids⟩⟩

variable [ValueInit α] (al : Allocator)

theorem reserveRemote (h : Addressable v) (num : ℕ) :
    Addressable (v.reserveRemote al num) ∧ num ≤ (v.reserveRemote al num).server.capacity ∧
      (v.reserveRemote al num).chunkPtrs = v.chunkPtrs ∧
      (v.reserveRemote al num).layout = v.layout := by
  unfold DataFrameVector.reserveRemote
  split
  · refine ⟨⟨le_rfl,fun i hi => ?_⟩,le_computeReserve al _ _,rfl,rfl⟩
    exact (h.ids i hi).trans_le (capacity_le_computeReserve al _ _)
  · rename_i hn
    exact ⟨h,(not_lt.mp hn).trans h.known,rfl,rfl⟩

theorem expandChunks (h : Addressable v) (num : ℕ) : Addressable (v.expandChunks al num) := by
  obtain ⟨ha,hcap,hchunks,hlayout⟩ := h.reserveRemote al ((v.chunkPtrs.length+num)*v.entries)
  refine ⟨ha.known,fun i hi => ?_⟩
  have hlen : i < v.chunkPtrs.length+num := by
    simpa [DataFrameVector.expandChunks,hchunks] using hi
  have hpos : 0 < v.entries := v.layout.chunkNumEntries_pos
  have hlt : i*v.entries < (v.chunkPtrs.length+num)*v.entries := Nat.mul_lt_mul_of_pos_right hlen hpos
  have hentries : (v.expandChunks al num).entries = v.entries := congrArg Layout.chunkNumEntries hlayout
  rw [hentries]
  exact hlt.trans_le hcap

theorem reserve (h : Addressable v) (count : ℕ) : Addressable (v.reserve al count) := by
  unfold DataFrameVector.reserve
  split
  · exact h.expandChunks al _
  · exact h

theorem resize (h : Addressable v) (count : ℕ) : Addressable (v.resize al count) := by
  unfold DataFrameVector.resize
  split
  · exact ⟨(h.reserve al count).known,(h.reserve al count).ids⟩
  · exact h

theorem pushBack (h : Addressable v) {x : Option α} (hs : v.pushBack al x = some v') :
    Addressable v' := by
  unfold DataFrameVector.pushBack at hs
  refine of_shape ?_ (DataFrameVector.atMut_shape hs)
  split
  · exact ⟨(h.expandChunks al _).known,(h.expandChunks al _).ids⟩
  · exact ⟨h.known,h.ids⟩

end Addressable

section Columns
variable {α : Type} [ValueInit α] {al : Allocator} {v v' : DataFrameVector α}

theorem computeAssign_some {s src s' : Vec α} {b e : ℕ}
    (h : computeAssign al s src b e = some s') : s'.capacity = (s.resize al (e-b)).capacity := by
  refine loop_partial (fun _ t => t.capacity = (s.resize al (e-b)).capacity) rfl ?_ h
  intro i _ t t' ht hb
  simp only [Option.bind_eq_bind,Option.bind_eq_some_iff] at hb
  obtain ⟨x,_,hstore⟩ := hb
  obtain ⟨-,hstore⟩ := Option.ite_none_right_eq_some.mp hstore
  cases hstore
  exact ht

/-- Assignment appends chunks for the whole server vector to those it finds. -/
theorem Addressable.assign_iff {src src' : DataFrameVector α} {b e : ℕ} (h : Addressable v)
    (hs : v.assignRemotely al src b e = some (v',src')) : Addressable v' ↔ v.chunkPtrs = [] := by
  simp only [DataFrameVector.assignRemotely,Option.bind_eq_bind,Option.bind_eq_some_iff] at hs
  obtain ⟨w,_,s,hc,⟨⟩⟩ := hs
  constructor
  · intro ha
    by_contra hne
    have hlen : 0 < v.chunkPtrs.length := List.length_pos_iff.mpr hne
    have hcap : v.server.capacity ≤ s.capacity := by
      rw [computeAssign_some hc]
      exact Vec.capacity_le_resize al _ _
    have h0 := h.ids 0 hlen
    -- the last chunk lies behind those that cover the vector
    have hlast := ha.ids ((s.capacity-1)/v.entries+1) (by
      simp only [DataFrameVector.expandNoAlloc,DataFrameVector.chunksFor,List.length_append,
        List.length_replicate]
      rw [if_neg (by omega)]
      change _ < _+((s.capacity-1)/v.entries+1)
      omega)
    have hlast' : ((s.capacity-1)/v.entries+1)*v.entries < s.capacity := hlast
    have hover := Nat.lt_div_mul_add (a := s.capacity-1) v.layout.chunkNumEntries_pos
    rw [Nat.add_mul,Nat.one_mul] at hlast'
    change _ < (s.capacity-1)/v.entries*v.entries+v.entries at hover
    omega
  · intro hnil
    exact .expandNoAlloc (v := {v with
      server := s, remoteVecCapacity := s.capacity, size := e-b}) hnil le_rfl

/-- Assignment finds no chunks, and move assignment a cached capacity that the
other column's server vector has. -/
def GrowsSafely (α : Type) (v : DataFrameVector α) : ColumnOp α → Prop
  | .moveAssign other => v.remoteVecCapacity ≤ other.server.capacity
  | .assign _ _ _ => v.chunkPtrs = []
  | _ => True

theorem columnStep_addressable_iff {op : ColumnOp α} (h : Addressable v)
    (hops : ∀ w ∈ op.operands, Addressable w) (hs : columnStep al v op = some v') :
    Addressable v' ↔ GrowsSafely α v op := by
  have keep {w : DataFrameVector α} (hw : Addressable w) : Addressable w ↔ True := iff_true_intro hw
  cases op with
  | pushBack x => exact keep (h.pushBack al hs)
  | popBack =>
    obtain ⟨-,hs⟩ := Option.ite_none_left_eq_some.mp hs
    cases hs
    exact keep ⟨h.known,h.ids⟩
  | clear =>
    cases hs
    exact keep ⟨h.known,h.ids⟩
  | reserve count =>
    cases hs
    exact keep (h.reserve al count)
  | resize count =>
    cases hs
    exact keep (h.resize al count)
  | read index =>
    obtain ⟨⟨x,w⟩,hr,⟨⟩⟩ := Option.map_eq_some_iff.mp hs
    exact keep (h.of_shape (DataFrameVector.atIndex_shape hr))
  | write index x => exact keep (h.of_shape (DataFrameVector.atMut_shape hs))
  | flush => exact keep (h.of_shape (DataFrameVector.flush_shape hs))
  | swapOut chunk => exact keep (h.of_shape (DataFrameVector.swapOut_shape hs))
  | moveConstruct =>
    cases hs
    exact keep ⟨Nat.zero_le _,h.ids⟩
  | moveAssign other =>
    cases hs
    exact Addressable.moveAssign_iff (hops other (by simp [ColumnOp.operands]))
  | assign src b e =>
    obtain ⟨⟨w,src'⟩,hr,⟨⟩⟩ := Option.map_eq_some_iff.mp hs
    exact h.assign_iff hr

omit [ValueInit α] in
theorem Reachable.addressable (h : Reachable al GrowsSafely v) : Addressable v := by
  induction h with
  | new layout => exact .new layout
  | copied _ _ h =>
    simp only [DataFrameVector.copyDataByIdxRemotely,Option.bind_eq_bind,
      Option.bind_eq_some_iff] at h
    obtain ⟨_,_,_,_,s,_,⟨⟩⟩ := h
    exact .adopt _ _ s
  | shuffled _ _ h =>
    simp only [DataFrameVector.shuffleDataByIdxRemotely,Option.bind_eq_bind,
      Option.bind_eq_some_iff] at h
    obtain ⟨_,_,_,_,s,_,⟨⟩⟩ := h
    exact .adopt _ _ s
  | unique _ h =>
    simp only [DataFrameVector.getColUniqueValuesRemotely,Option.bind_eq_bind,
      Option.bind_eq_some_iff] at h
    obtain ⟨_,_,s,_,⟨⟩⟩ := h
    exact .adopt _ _ s
  | aggregated lib rand op _ _ h =>
    simp only [DataFrameVector.aggregateRemotely,Option.bind_eq_bind,
      Option.bind_eq_some_iff] at h
    obtain ⟨_,_,_,_,s,_,⟨⟩⟩ := h
    exact .adopt _ _ s
  | step _ _ hok hs ih ihops => exact (columnStep_addressable_iff ih ihops hs).mpr hok

end Columns

/-- In every run whose assignments and move assignments meet the condition, no
column addresses storage that its server vector does not have; and no other step
can make it do so. -/
theorem remote_storage_exists (al : Allocator) :
    (∀ {α : Type} (v : DataFrameVector α), Reachable al GrowsSafely v → Addressable v) ∧
    ∀ {α : Type} [ValueInit α] (v v' : DataFrameVector α) (op : ColumnOp α), Addressable v →
      (∀ w ∈ op.operands, Addressable w) → columnStep al v op = some v' →
      (Addressable v' ↔ GrowsSafely α v op) :=
  ⟨fun _ h => h.addressable,fun _ _ _ h hops hs => columnStep_addressable_iff h hops hs⟩

/-- Apply operations to a column, one after the other, checking the condition. -/
def runColumn {α : Type} [ValueInit α] (al : Allocator)
    (ok : ∀ α : Type, DataFrameVector α → ColumnOp α → Prop) [∀ v op, Decidable (ok α v op)]
    (v : DataFrameVector α) (ops : List (ColumnOp α)) : Option (DataFrameVector α) :=
  ops.foldlM (fun v op => if ok α v op then columnStep al v op else none) v

theorem Reachable.run {α : Type} [ValueInit α] {al : Allocator}
    {ok : ∀ α : Type, DataFrameVector α → ColumnOp α → Prop} [∀ v op, Decidable (ok α v op)]
    {ops : List (ColumnOp α)} (hops : ∀ op ∈ ops, ∀ w ∈ op.operands, Reachable al ok w)
    {v v' : DataFrameVector α} (hv : Reachable al ok v) (h : runColumn al ok v ops = some v') :
    Reachable al ok v' := by
  induction ops generalizing v with
  | nil =>
    cases h
    exact hv
  | cons op ops ih =>
    simp only [runColumn,List.foldlM_cons,Option.bind_eq_bind,Option.bind_eq_some_iff] at h
    obtain ⟨w,hw,hrest⟩ := h
    obtain ⟨hok,hw⟩ := Option.ite_none_right_eq_some.mp hw
    exact ih (fun op hop => hops op (.tail _ hop)) (hv.step (hops op (.head _)) hok hw) hrest

theorem chunkPtrs_isEmpty {α : Type} (v : DataFrameVector α) : v.chunkPtrs.isEmpty = true ↔ v.chunkPtrs = [] := List.isEmpty_iff

instance {α : Type} (v : DataFrameVector α) (op : ColumnOp α) : Decidable (GrowsSafely α v op) :=
  match op with
  | .moveAssign other => inferInstanceAs (Decidable (v.remoteVecCapacity ≤ other.server.capacity))
  | .assign _ _ _ => decidable_of_iff (v.chunkPtrs.isEmpty = true) (chunkPtrs_isEmpty v)
  | .pushBack _ | .popBack | .clear | .reserve _ | .resize _ | .read _ | .write _ _ | .flush
  | .swapOut _ | .moveConstruct => .isTrue trivial

theorem remote_storage_exists_grown :
    ∃ v : DataFrameVector ℕ, Reachable .doubling GrowsSafely v ∧ v.chunkPtrs.length = 1172 ∧
      Addressable v := by
  have hrun : (runColumn .doubling GrowsSafely (.new (.ofWidth 8))
      [.pushBack 7,.moveConstruct,.reserve 600000]).map (fun v : DataFrameVector ℕ =>
        v.chunkPtrs.length) = some 1172 := by
    decide +kernel
  obtain ⟨v,hv,hl⟩ := Option.map_eq_some_iff.mp hrun
  have hreach : Reachable .doubling GrowsSafely v :=
    Reachable.run (by simp [ColumnOp.operands]) (.new _) hv
  exact ⟨v,hreach,hl,(remote_storage_exists .doubling).1 v hreach⟩

/-- A column that grew once and is then move-assigned a new one keeps the old
capacity, so that the next growth makes 1024 chunks without any server storage. -/
theorem moveAssign_stale_capacity :
    ∃ v : DataFrameVector ℕ, Reachable .doubling (fun _ _ _ => True) v ∧
      v.remoteVecCapacity = 524288 ∧ v.chunkPtrs.length = 1024 ∧ v.server.capacity = 0 ∧
      ¬Addressable v := by
  have hrun : (runColumn .doubling (fun _ _ _ => True) (.new (.ofWidth 8))
      [.pushBack 7,.moveAssign (.new (.ofWidth 8)),.pushBack 8]).map (fun v : DataFrameVector ℕ =>
        (v.remoteVecCapacity,v.chunkPtrs.length,v.server.capacity)) = some (524288,1024,0) := by
    decide +kernel
  obtain ⟨v,hv,hobs⟩ := Option.map_eq_some_iff.mp hrun
  simp only [Prod.mk.injEq] at hobs
  obtain ⟨hr,hl,hc⟩ := hobs
  refine ⟨v,Reachable.run ?_ (.new _) hv,hr,hl,hc,fun h => ?_⟩
  · simp [ColumnOp.operands,Reachable.new]
  · have := h.known
    omega

end FarMemory.DataFrame
