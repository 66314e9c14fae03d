import FarMemory.DataFrameOffload

/-!
# Assigning a range of one column to another

`assign_remotely` overwrites the destination's server vector but not the chunks
that the client has cached, so what is read afterwards is the source exactly
where no such chunk stands in front of it. `assign_locally` writes every element
through the destination's chunks, but gets its size from a `resize` that never
shrinks, and cannot take iterators into a column without chunks.
-/
namespace FarMemory.DataFrame
open CountedLoop StdVector ValueInit DataFrameVector

section Reading
variable {α : Type} {v : DataFrameVector α}

/-- An index is read if its chunk exists and starts inside the server vector. -/
theorem atIndex_eq {j : ℕ} (hj : j < v.capacity) (hc : j < v.server.capacity) :
    ∃ w, v.atIndex j = some (v.view j,w) := by
  have hlen := (v.chunk_lt_iff j).mpr hj
  have hstart : j/v.entries*v.entries ≤ v.server.capacity :=
    (Nat.div_mul_le_self j v.entries).trans hc.le
  rcases hch : v.chunkPtrs[j/v.entries]? with _ | ⟨d,b⟩ | _
  · rw [List.getElem?_eq_none_iff] at hch
    omega
  · exact ⟨v,by rw [view_present hch]; simp [atIndex,deref,hch]⟩
  · obtain ⟨d,hd,hcell⟩ : ∃ d, readObject v.server v.entries (j/v.entries) = some d ∧
        d (j%v.entries) = v.server.cells j := by
      refine ⟨_,if_pos hstart,?_⟩
      rw [if_pos ⟨Nat.mod_lt _ v.entries_pos,by rwa [index_eq]⟩,index_eq]
    refine ⟨v.setChunk (j/v.entries) (.present d false),?_⟩
    rw [view_remote hch,if_pos hc,← hcell]
    simp only [atIndex,deref,hch,hd,Option.map_some]

end Reading

/-- What assignment is for: the destination has the size of the range and reads
as the range does. -/
def Assigned {α : Type} (v src : DataFrameVector α) (beginIdx endIdx : ℕ) : Prop :=
  v.size = endIdx-beginIdx ∧
    ∀ i < endIdx-beginIdx, ∃ w, v.atIndex i = some (src.view (beginIdx+i),w)

section Remote
variable {α : Type} [ValueInit α] (al : Allocator) {v src : DataFrameVector α} {b e : ℕ}

theorem computeAssign_spec (s src : Vec α) {n b e : ℕ} {f : ℕ → Option α} (hn : e-b = n)
    (hf : ∀ i < n, src.read (b+i) = some (f i)) :
    ∃ s', computeAssign al s src b e = some s' ∧ n ≤ s'.capacity ∧ ∀ i < n, s'.cells i = f i := by
  have hfits : n ≤ (s.resize al n).capacity := by
    have := (s.resize al n).fits
    rwa [Vec.resize_size] at this
  unfold computeAssign
  rw [hn]
  refine loop_total (fun i (t : Vec α) => n ≤ t.capacity ∧ ∀ j < i, t.cells j = f j)
    ⟨hfits,by omega⟩ ?_
  intro i hi t ⟨hcap,hcells⟩
  have hstore : t.store i (f i) = some ⟨t.size,t.capacity,Function.update t.cells i (f i),t.fits⟩ :=
    if_pos (hi.trans_le hcap)
  refine ⟨⟨t.size,t.capacity,Function.update t.cells i (f i),t.fits⟩,by simp [hf i hi,hstore],hcap,
    fun j hj => ?_⟩
  simp only [Function.update_apply]
  split
  · rename_i heq
    rw [heq]
  · exact hcells j (by omega)

theorem assignRemotely_spec (hs : InStep src)
    (hw : ∀ j, b ≤ j → j < e → ∃ x, src.view j = some x) :
    ∃ s src', v.assignRemotely al src b e =
        some (expandNoAlloc {v with
          server := s, remoteVecCapacity := s.capacity, size := e-b} s.capacity,src') ∧
      e-b ≤ s.capacity ∧ ∀ i < e-b, s.cells i = src.view (b+i) := by
  obtain ⟨src',hf,hflush⟩ := flush_spec hs
  obtain ⟨s,hc,hcap,hcells⟩ := computeAssign_spec al v.server src'.server (b := b) (e := e) rfl
    (f := fun i => src.view (b+i)) fun i hi => by
      obtain ⟨x,hx⟩ := hw (b+i) (by omega) (by omega)
      rw [hflush.read hs hx,hx]
  exact ⟨s,src',by simp [assignRemotely,hf,hc],hcap,hcells⟩

theorem assignRemotely_iff (hs : InStep src)
    (hw : ∀ j, b ≤ j → j < e → ∃ x, src.view j = some x) :
    (∃ v' src', v.assignRemotely al src b e = some (v',src') ∧ Assigned v' src b e) ↔
      ∀ i < e-b, ∀ d dirty, v.chunkPtrs[i/v.entries]? = some (.present d dirty) →
        d (i%v.entries) = src.view (b+i) := by
  obtain ⟨s,src',hrun,hcap,hcells⟩ := assignRemotely_spec al (v := v) hs hw
  set u := {v with server := s, remoteVecCapacity := s.capacity, size := e-b}
  have hread : ∀ i < e-b, ∃ w, (u.expandNoAlloc s.capacity).atIndex i =
      some ((u.expandNoAlloc s.capacity).view i,w) := by
    intro i hi
    have hlt := hi.trans_le hcap
    refine atIndex_eq ?_ hlt
    refine hlt.trans_le ((chunksFor_mul_ge u s.capacity).trans ?_)
    refine Nat.mul_le_mul_right _ ?_
    simp [expandNoAlloc]
  have hview : ∀ i < e-b, (∀ d dirty, v.chunkPtrs[i/v.entries]? ≠ some (.present d dirty)) →
      (u.expandNoAlloc s.capacity).view i = src.view (b+i) := by
    intro i hi hnone
    have hlt := hi.trans_le hcap
    have hchunk : (u.expandNoAlloc s.capacity).chunkPtrs[i/v.entries]? = some .remote := by
      change (v.chunkPtrs++List.replicate (u.chunksFor s.capacity) Chunk.remote)[i/v.entries]? = _
      rcases hc : v.chunkPtrs[i/v.entries]? with _ | ⟨d,dirty⟩ | _
      · rw [List.getElem?_append_right (List.getElem?_eq_none_iff.mp hc),List.getElem?_replicate,
          if_pos]
        have : i/v.entries < u.chunksFor s.capacity := by
          rw [Nat.div_lt_iff_lt_mul v.entries_pos]
          exact hlt.trans_le (chunksFor_mul_ge u s.capacity)
        exact (Nat.sub_le _ _).trans_lt this
      · exact absurd hc (hnone d dirty)
      · rw [List.getElem?_append_left (List.getElem?_eq_some_iff.mp hc).1,hc]
    refine (view_remote hchunk).trans ?_
    exact (if_pos hlt).trans (hcells i hi)
  have hpresent : ∀ i d dirty, v.chunkPtrs[i/v.entries]? = some (.present d dirty) →
      (u.expandNoAlloc s.capacity).view i = d (i%v.entries) := by
    intro i d dirty hc
    refine view_present (v := u.expandNoAlloc s.capacity) (b := dirty) ?_
    change (v.chunkPtrs++List.replicate (u.chunksFor s.capacity) Chunk.remote)[i/v.entries]? = _
    rw [List.getElem?_append_left (List.getElem?_eq_some_iff.mp hc).1,hc]
  constructor
  · rintro ⟨v',w,hrun',hsize,hat⟩ i hi d dirty hc
    cases hrun.symm.trans hrun'
    obtain ⟨_,h1⟩ := hread i hi
    obtain ⟨_,h2⟩ := hat i hi
    rw [h1] at h2
    rw [← hpresent i d dirty hc]
    exact congrArg Prod.fst (Option.some.inj h2)
  · intro hcached
    refine ⟨_,src',hrun,rfl,fun i hi => ?_⟩
    obtain ⟨w,h1⟩ := hread i hi
    refine ⟨w,?_⟩
    rw [h1]
    congr 2
    by_cases hp : ∃ d dirty, v.chunkPtrs[i/v.entries]? = some (.present d dirty)
    · obtain ⟨d,dirty,hc⟩ := hp
      rw [hpresent i d dirty hc,hcached i hi d dirty hc]
    · exact hview i hi fun d dirty hc => hp ⟨d,dirty,hc⟩

end Remote
section Held
variable {α : Type} [ValueInit α] {al : Allocator} {v v' : DataFrameVector α} {j : ℕ} {x : Option α}

omit [ValueInit α] in
theorem SameShape.column_capacity (h : SameShape v v') : v'.capacity = v.capacity := by
  rw [DataFrameVector.capacity,h.length,h.entries]
  rfl

omit [ValueInit α] in
theorem atMut_lt (h : v.atMut j x = some v') : j < v.capacity := by
  rw [← v.chunk_lt_iff]
  by_contra hge
  simp [atMut,derefMut,deref,List.getElem?_eq_none (not_lt.mp hge)] at h

omit [ValueInit α] in
theorem deref_same {i : ℕ} {d : ℕ → Option α} (h : v.deref i = some (d,v')) :
    v'.size = v.size ∧ v'.server = v.server := by
  unfold deref at h
  split at h
  · cases h
  · cases h
    exact ⟨rfl,rfl⟩
  · obtain ⟨_,_,⟨⟩⟩ := Option.map_eq_some_iff.mp h
    exact ⟨rfl,rfl⟩

omit [ValueInit α] in
theorem atMut_same (h : v.atMut j x = some v') :
    v'.size = v.size ∧ v'.server = v.server := by
  obtain ⟨⟨d,w⟩,hd,⟨⟩⟩ := Option.map_eq_some_iff.mp h
  obtain ⟨⟨d',u⟩,hu,⟨⟩⟩ := Option.map_eq_some_iff.mp hd
  have hsame := deref_same hu
  exact ⟨hsame.1,hsame.2⟩

theorem pushBack_held (h : v.pushBack al x = some v') : v'.size ≤ v'.capacity := by
  unfold DataFrameVector.pushBack at h
  rw [(atMut_same h).1,(atMut_shape h).column_capacity]
  exact atMut_lt h

theorem resize_held (al : Allocator) (h : v.size ≤ v.capacity) (count : ℕ) :
    (v.resize al count).size = max v.size count ∧
      (v.resize al count).size ≤ (v.resize al count).capacity := by
  unfold DataFrameVector.resize
  split
  · rename_i hlt
    exact ⟨(max_eq_right hlt.le).symm,le_reserve_capacity v al count⟩
  · rename_i hge
    exact ⟨(max_eq_left (not_lt.mp hge)).symm,h⟩

theorem assign_held {src src' : DataFrameVector α} {b e : ℕ}
    (h : v.assignRemotely al src b e = some (v',src')) : v'.size ≤ v'.capacity := by
  simp only [assignRemotely,Option.bind_eq_bind,Option.bind_eq_some_iff] at h
  obtain ⟨_,_,s,hc,⟨⟩⟩ := h
  have hfits : e-b ≤ s.capacity := by
    rw [computeAssign_some hc]
    exact (Vec.resize_size al v.server (e-b)).symm.le.trans (v.server.resize al (e-b)).fits
  refine hfits.trans ((chunksFor_mul_ge v s.capacity).trans (Nat.mul_le_mul_right _ ?_))
  simp only [expandNoAlloc,List.length_append,List.length_replicate]
  exact Nat.le_add_left _ _

omit [ValueInit α] in
theorem flush_size (h : v.flush = some v') : v'.size = v.size := by
  unfold flush at h
  split at h
  · obtain ⟨_,_,⟨⟩⟩ := Option.map_eq_some_iff.mp h
    rfl
  · cases h
    rfl

omit [ValueInit α] in
theorem swapOut_size {i : ℕ} (h : v.swapOut i = some v') : v'.size = v.size := by
  unfold swapOut at h
  split at h
  · obtain ⟨_,_,⟨⟩⟩ := Option.map_eq_some_iff.mp h
    rfl
  · cases h
    rfl
  · cases h
    rfl

omit [ValueInit α] in
theorem atIndex_size (h : v.atIndex j = some (x,v')) : v'.size = v.size := by
  obtain ⟨⟨d,w⟩,hd,⟨⟩⟩ := Option.map_eq_some_iff.mp h
  exact (deref_same hd).1

/-- Whatever the steps, every element has its chunk. -/
theorem columnStep_held {op : ColumnOp α} (h : v.size ≤ v.capacity)
    (hops : ∀ w ∈ op.operands, w.size ≤ w.capacity) (hs : columnStep al v op = some v') :
    v'.size ≤ v'.capacity := by
  cases op with
  | pushBack x => exact pushBack_held hs
  | popBack =>
    obtain ⟨-,hs⟩ := Option.ite_none_left_eq_some.mp hs
    cases hs
    exact (Nat.sub_le _ _).trans h
  | clear =>
    cases hs
    exact Nat.zero_le _
  | reserve count =>
    cases hs
    rw [reserve_size]
    exact h.trans (capacity_le_reserve v al count)
  | resize count =>
    cases hs
    exact (resize_held _ h count).2
  | read index =>
    obtain ⟨⟨x,w⟩,hr,⟨⟩⟩ := Option.map_eq_some_iff.mp hs
    rwa [atIndex_size hr,(atIndex_shape hr).column_capacity]
  | write index x => rwa [(atMut_same hs).1,(atMut_shape hs).column_capacity]
  | flush => rwa [flush_size hs,(flush_shape hs).column_capacity]
  | swapOut chunk => rwa [swapOut_size hs,(swapOut_shape hs).column_capacity]
  | moveConstruct =>
    cases hs
    exact h
  | moveAssign other =>
    cases hs
    exact hops other (by simp [ColumnOp.operands])
  | assign src b e =>
    obtain ⟨⟨w,src'⟩,hr,⟨⟩⟩ := Option.map_eq_some_iff.mp hs
    exact assign_held hr

end Held

theorem Reachable.held {al : Allocator} {ok : ∀ α : Type, DataFrameVector α → ColumnOp α → Prop}
    {α : Type} {v : DataFrameVector α} (h : Reachable al ok v) : v.size ≤ v.capacity := by
  induction h with
  | new layout => exact Nat.zero_le _
  | copied _ _ h =>
    simp only [copyDataByIdxRemotely,Option.bind_eq_bind,Option.bind_eq_some_iff] at h
    obtain ⟨_,_,_,_,s,hc,⟨⟩⟩ := h
    exact (InStep.adopt _ ((computeCopyDataByIdx_size hc).symm.le.trans s.fits)).held
  | shuffled _ _ h =>
    simp only [shuffleDataByIdxRemotely,Option.bind_eq_bind,Option.bind_eq_some_iff] at h
    obtain ⟨_,_,_,_,s,hc,⟨⟩⟩ := h
    exact (InStep.adopt _ (computeShuffleDataByIdx_capacity hc)).held
  | unique _ h =>
    simp only [getColUniqueValuesRemotely,Option.bind_eq_bind,Option.bind_eq_some_iff] at h
    obtain ⟨_,_,s,_,⟨⟩⟩ := h
    exact (InStep.adopt _ s.fits).held
  | aggregated lib rand op _ _ h =>
    simp only [aggregateRemotely,Option.bind_eq_bind,Option.bind_eq_some_iff] at h
    obtain ⟨_,_,_,_,s,_,⟨⟩⟩ := h
    exact (InStep.adopt _ s.fits).held
  | step _ _ _ hs ih ihops => exact columnStep_held ih ihops hs

section Local
variable {α : Type} {v src : DataFrameVector α} {b e : ℕ}

structure AssignInv (src : DataFrameVector α) (size b e i : ℕ)
    (st : DataFrameVector α × DataFrameVector α) : Prop where
  size : st.1.size = size
  addressable : Addressable st.1
  held : e-b ≤ st.1.capacity
  view : ∀ j < i, st.1.view j = src.view (b+j)
  source : Kept src st.2

theorem assignRound_spec {size i : ℕ} {st : DataFrameVector α × DataFrameVector α} (hs : InStep src)
    (he : e ≤ src.size) (hi : i < e-b) (h : AssignInv src size b e i st) :
    ∃ st', assignRound b i st = some st' ∧ AssignInv src size b e (i+1) st' := by
  obtain ⟨src1,h1,hk1⟩ := h.source.read hs (j := b+i) (by omega)
  obtain ⟨w1,hw1,hwr,_⟩ := iterWrite_view h.addressable (hi.trans_le h.held) (src.view (b+i))
  obtain ⟨src2,h2,hk2⟩ := hk1.advance (b+i)
  obtain ⟨w2,hw2,hk,_⟩ := advance_view (h.addressable.of_shape hwr.shape) true i
  have hshape := hwr.shape.trans hk.shape
  refine ⟨(w2,src2),by simp [assignRound,h1,hw1,h2,hw2],hk.size.trans (hwr.size.trans h.size),
    h.addressable.of_shape hshape,h.held.trans_eq hshape.column_capacity.symm,fun j hj => ?_,hk2⟩
  rw [hk.view,hwr.view]
  split
  · rename_i heq
    rw [heq]
  · exact h.view j (by omega)

variable [ValueInit α] (al : Allocator)

theorem assignLocally_spec (hv : Addressable v) (hheld : v.size ≤ v.capacity) (hs : InStep src)
    (he : e ≤ src.size) (hne : (v.resize al (e-b)).chunkPtrs ≠ []) (hne' : src.chunkPtrs ≠ []) :
    ∃ v' src', v.assignLocally al src b e = some (v',src') ∧ v'.size = max v.size (e-b) ∧
      ∀ i < e-b, ∃ w, v'.atIndex i = some (src.view (b+i),w) := by
  obtain ⟨hsize,hcap⟩ := resize_held al hheld (e-b)
  obtain ⟨src1,hsrc1,hk1⟩ := fastIterator_spec hs hne' b
  have hr : Addressable {v.resize al (e-b) with dirty := true} :=
    ⟨(hv.resize al (e-b)).known,(hv.resize al (e-b)).ids⟩
  obtain ⟨w,hw,hk,_⟩ := fastIterator_view hr true hne 0
  have hinit : AssignInv src (max v.size (e-b)) b e 0 (w,src1) := by
    refine ⟨hk.size.trans hsize,hr.of_shape hk.shape,?_,by omega,hk1⟩
    refine le_trans ?_ (hcap.trans_eq hk.shape.column_capacity.symm)
    rw [hsize]
    exact le_max_right _ _
  obtain ⟨⟨v',src'⟩,hrun,hinv⟩ := loop_total (AssignInv src (max v.size (e-b)) b e) hinit
    fun i hi st h => assignRound_spec hs he hi h
  refine ⟨v',src',?_,hinv.size,fun i hi => ?_⟩
  · simp only [assignLocally,hsrc1,fbegin,hw,Option.bind_eq_bind,Option.bind_some]
    exact hrun
  · obtain ⟨w',hw',_⟩ := atIndex_view hinv.addressable (hi.trans_le hinv.held)
    exact ⟨w',by rw [hw',hinv.view i hi]⟩

theorem assignLocally_iff (hv : Addressable v) (hheld : v.size ≤ v.capacity) (hs : InStep src)
    (hbe : b ≤ e) (he : e ≤ src.size) :
    (∃ v' src', v.assignLocally al src b e = some (v',src') ∧ Assigned v' src b e) ↔
      v.size ≤ e-b ∧ (b = e → v.chunkPtrs ≠ [] ∧ src.chunkPtrs ≠ []) := by
  constructor
  · rintro ⟨v',src',hrun,hsize,_⟩
    have hne' : src.chunkPtrs ≠ [] := by
      intro hnil
      simp [assignLocally,fastIterator,hnil] at hrun
    have hne : (v.resize al (e-b)).chunkPtrs ≠ [] := by
      intro hnil
      obtain ⟨src1,hsrc1,_⟩ := fastIterator_spec hs hne' b
      simp [assignLocally,hsrc1,fbegin_no_chunks hnil] at hrun
    obtain ⟨w,w',hrun',hsize',_⟩ := assignLocally_spec al hv hheld hs he hne hne'
    cases hrun.symm.trans hrun'
    refine ⟨by omega,?_⟩
    rintro rfl
    rw [Nat.sub_self] at hne
    exact ⟨hne,hne'⟩
  · rintro ⟨hsize,hchunks⟩
    obtain ⟨hrsize,hrcap⟩ := resize_held al hheld (e-b)
    have hboth : (v.resize al (e-b)).chunkPtrs ≠ [] ∧ src.chunkPtrs ≠ [] := by
      rcases Nat.eq_or_lt_of_le hbe with rfl | hlt
      · rw [Nat.sub_self]
        exact hchunks rfl
      · refine ⟨fun hnil => ?_,hs.chunks_ne_nil (by omega)⟩
        simp only [DataFrameVector.capacity,hnil,List.length_nil,Nat.zero_mul] at hrcap
        omega
    obtain ⟨v',src',hrun,hsize',hat⟩ := assignLocally_spec al hv hheld hs he hboth.1 hboth.2
    exact ⟨v',src',hrun,by rw [hsize',max_eq_right hsize],hat⟩

end Local

section Native
variable {α : Type} [ValueInit α] (al : Allocator) {w : DataFrameVector α}

/-- A column whose server vector has grown with its chunks. -/
structure Native (w : DataFrameVector α) : Prop where
  inStep : InStep w
  full : w.server.size = w.server.capacity
  covered : w.capacity ≤ w.server.capacity

omit [ValueInit α] in
theorem Native.new (layout : Layout) : Native (.new layout : DataFrameVector α) :=
  ⟨.new layout,rfl,by simp [DataFrameVector.new,DataFrameVector.capacity]⟩

theorem expandChunks_full (h : w.server.size = w.server.capacity) (num : ℕ) :
    (w.expandChunks al num).server.size = (w.expandChunks al num).server.capacity := by
  change (w.reserveRemote al _).server.size = (w.reserveRemote al _).server.capacity
  unfold reserveRemote
  split
  · exact computeReserve_size al _ _
  · exact h

theorem Native.push (h : Native w) (x : Option α) : ∃ w', w.pushBack al x = some w' ∧ Native w' ∧
    w'.size = w.size+1 ∧ w'.view w.size = x ∧ ∀ j y, j ≠ w.size → w.view j = some y → w'.view j = some y := by
  have hroom : if w.chunkPtrs.length = w.size/w.entries then w.server.size = w.server.capacity
      else w.size < w.server.capacity := by
    split
    · exact h.full
    · rename_i hne
      have hdiv : w.size/w.entries ≤ w.chunkPtrs.length := by
        have := Nat.div_le_div_right (c := w.entries) h.inStep.held
        rwa [DataFrameVector.capacity,Nat.mul_div_cancel _ w.entries_pos] at this
      have hlt : w.size < w.capacity := (w.chunk_lt_iff w.size).mp (by omega)
      exact hlt.trans_le h.covered
  obtain ⟨w',hw',hin,-,hrest⟩ := pushBack_spec al h.inStep x hroom
  have hserver := (atMut_same hw').2
  refine ⟨w',hw',⟨hin,?_,?_⟩,hrest⟩
  · rw [hserver]
    split
    · exact expandChunks_full al h.full _
    · exact h.full
  · rw [hserver,(atMut_shape hw').column_capacity]
    split
    · exact (expandChunks_spec al h.inStep h.full _).covered
    · exact h.covered

end Native

/-- When the two assignments make the destination equal to the range: the offloaded
one if every chunk that the destination has cached there already reads like the
range, the local one if the destination is not longer than the range and, for an
empty range, both columns have chunks. -/
theorem assign_equals_source_iff (al : Allocator) {α : Type} [ValueInit α]
    (v src : DataFrameVector α) (hv : Reachable al GrowsSafely v) (hsrc : Reachable al Careful src)
    (b e : ℕ) (hbe : b ≤ e) (he : e ≤ src.size)
    (hw : ∀ j, b ≤ j → j < e → ∃ x, src.view j = some x) :
    ((∃ v' src', v.assignRemotely al src b e = some (v',src') ∧ Assigned v' src b e) ↔
      ∀ i < e-b, ∀ d dirty, v.chunkPtrs[i/v.entries]? = some (.present d dirty) →
        d (i%v.entries) = src.view (b+i)) ∧
    ((∃ v' src', v.assignLocally al src b e = some (v',src') ∧ Assigned v' src b e) ↔
      v.size ≤ e-b ∧ (b = e → v.chunkPtrs ≠ [] ∧ src.chunkPtrs ≠ [])) :=
  ⟨assignRemotely_iff al hsrc.inStep hw,
    assignLocally_iff al (Reachable.addressable hv) hv.held hsrc.inStep hbe he⟩

theorem assign_equals_source_new :
    ∃ src r l : DataFrameVector ℕ, src.contents = [some 7] ∧
      (∃ st, (DataFrameVector.new (.ofWidth 8)).assignRemotely .doubling src 0 1 = some (r,st)) ∧
      (∃ st, (DataFrameVector.new (.ofWidth 8)).assignLocally .doubling src 0 1 = some (l,st)) ∧
      Assigned r src 0 1 ∧ Assigned l src 0 1 := by
  have hrun : (runColumn .doubling Careful (.new (.ofWidth 8)) [ColumnOp.pushBack 7]).map
      (fun src : DataFrameVector ℕ => (src.contents,src.size)) = some ([some 7],1) := by
    decide +kernel
  obtain ⟨src,hsrc,hobs⟩ := Option.map_eq_some_iff.mp hrun
  simp only [Prod.mk.injEq] at hobs
  have hview : src.view 0 = some 7 := by simpa [contents,hobs.2] using hobs.1
  obtain ⟨hremote,hlocal⟩ := assign_equals_source_iff .doubling (.new (.ofWidth 8)) src (.new _)
    (.run (by simp [ColumnOp.operands]) (.new _) hsrc) 0 1 (by omega) hobs.2.ge
    (fun j _ hj => ⟨7,by rwa [show j = 0 by omega]⟩)
  obtain ⟨r,st,hr,hra⟩ := hremote.mpr (by simp [DataFrameVector.new])
  obtain ⟨l,st',hl,hla⟩ := hlocal.mpr (by simp [DataFrameVector.new])
  exact ⟨src,r,l,hobs.1,⟨st,hr⟩,⟨st',hl⟩,hra,hla⟩

/-- A destination of two cached elements and a range of one: the offloaded
assignment leaves the old element to be read, the local one the old size. -/
theorem assign_over_cached :
    ∃ v src r l : DataFrameVector ℕ, Reachable .doubling GrowsSafely v ∧
      Reachable .doubling Careful src ∧ v.contents = [some 1,some 2] ∧ src.contents = [some 7] ∧
      (∃ st, v.assignRemotely .doubling src 0 1 = some (r,st)) ∧ r.size = 1 ∧
      (∃ w, r.atIndex 0 = some (some 1,w)) ∧
      (∃ st, v.assignLocally .doubling src 0 1 = some (l,st)) ∧ l.size = 2 := by
  have hrun : ((runColumn .doubling GrowsSafely (.new (.ofWidth 8)) [ColumnOp.pushBack 1,.pushBack 2]).bind fun v =>
      (runColumn .doubling Careful (.new (.ofWidth 8)) [ColumnOp.pushBack 7]).bind fun src =>
      (v.assignRemotely .doubling src 0 1).bind fun r => (r.1.atIndex 0).bind fun x =>
      (v.assignLocally .doubling src 0 1).bind fun l =>
      some (v.contents,src.contents,r.1.size,x.1,l.1.size)) =
      some ([some 1,some 2],[some (7 : ℕ)],1,some 1,2) := by
    decide +kernel
  simp only [Option.bind_eq_some_iff,Option.some.injEq,Prod.mk.injEq] at hrun
  obtain ⟨v,hv,src,hsrc,⟨r,st⟩,hr,⟨x,w⟩,hx,⟨l,st'⟩,hl,hvc,hsc,hrs,rfl,hls⟩ := hrun
  exact ⟨v,src,r,l,.run (by simp [ColumnOp.operands]) (.new _) hv,
    .run (by simp [ColumnOp.operands]) (.new _) hsrc,hvc,hsc,⟨st,hr⟩,hrs,⟨w,hx⟩,⟨st',hl⟩,hls⟩

end FarMemory.DataFrame
