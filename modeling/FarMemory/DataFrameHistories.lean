import FarMemory.DataFrameResidency

/-!
# Columns that stay in step

What growth, eviction and the operations of a column's owner do to a column that
is in step with its server vector. Growth is safe if the vector counts all its
storage as elements; using the rest of a partial last chunk is safe up to the
vector's capacity; assignment is safe while the column has no chunks.
-/
namespace FarMemory.DataFrame
open CountedLoop StdVector ValueInit DataFrameVector

section Growth
variable {α : Type} {v v' : DataFrameVector α}

/-- Everything determinate is still read. -/
def Retains (v v' : DataFrameVector α) : Prop := ∀ j x, v.view j = some x → v'.view j = some x

theorem InStep.setSize (h : InStep v) {n : ℕ} (hn : n ≤ v.capacity) (hs : n ≤ v.server.capacity) :
    InStep {v with size := n} :=
  ⟨⟨h.addressable.known,h.addressable.ids⟩,hn,hs,h.inside,h.flag,h.clean⟩

/-- The column after chunk `i` went remote and the server vector became `s`. -/
def DataFrameVector.evictedTo (v : DataFrameVector α) (i : ℕ) (s : Vec α) : DataFrameVector α :=
  {v.setChunk i .remote with server := s}

/-- A chunk may go remote once the server holds what the client read there. -/
theorem evicted_spec (h : InStep v) {i : ℕ} {s : Vec α} (hcap : s.capacity = v.server.capacity)
    (hother : ∀ j < v.server.capacity, j/v.entries ≠ i → s.cells j = v.server.cells j)
    (hchunk : ∀ j x, j/v.entries = i → v.view j = some x → s.cells j = some x) :
    InStep (v.evictedTo i s) ∧ Retains v (v.evictedTo i s) := by
  have hshape : SameShape v (v.evictedTo i s) := ⟨rfl,by simp [evictedTo,setChunk],rfl,hcap⟩
  constructor
  · refine ⟨h.addressable.of_shape hshape,?_,h.covered.trans hcap.ge,?_,?_,?_⟩
    · simpa [evictedTo,setChunk,capacity,entries] using h.held
    · intro k d b hk o ho x hx
      rcases setChunk_get_cases hk with ⟨_,hc⟩ | ⟨_,hold⟩
      · cases hc
      · exact (h.inside k d b hold o ho x hx).trans_eq hcap.symm
    · intro hf k d hk
      rcases setChunk_get_cases hk with ⟨_,hc⟩ | ⟨_,hold⟩
      · cases hc
      · exact h.flag hf k d hold
    · intro k d hk o ho x hx
      rcases setChunk_get_cases hk with ⟨_,hc⟩ | ⟨hne,hold⟩
      · cases hc
      · have hlt := h.inside k d false hold o ho x hx
        refine (hother _ hlt ?_).trans (h.clean k d hold o ho x hx)
        rwa [index_div v k ho]
  · intro j x hx
    have hlt := h.view_lt hx
    by_cases hj : j/v.entries = i
    · have hlen : i < v.chunkPtrs.length := by
        by_contra hge
        rw [view_absent (List.getElem?_eq_none (by omega))] at hx
        cases hx
      have hget : (v.evictedTo i s).chunkPtrs[j/v.entries]? = some .remote := by
        rw [hj]
        exact setChunk_get hlen _
      refine (view_remote hget).trans ?_
      change (if j < s.capacity then s.cells j else none) = _
      rw [if_pos (hlt.trans_eq hcap.symm),hchunk j x hj hx]
    · have hget : (v.evictedTo i s).chunkPtrs[j/v.entries]? = v.chunkPtrs[j/v.entries]? :=
        setChunk_get_ne hj _
      rcases hc : v.chunkPtrs[j/v.entries]? with _ | ⟨d,b⟩ | _
      · rw [view_absent hc] at hx
        cases hx
      · rw [view_present hc] at hx
        exact (view_present (hget.trans hc)).trans hx
      · rw [view_remote hc,if_pos hlt] at hx
        refine (view_remote (hget.trans hc)).trans ?_
        change (if j < s.capacity then s.cells j else none) = _
        rw [if_pos (hlt.trans_eq hcap.symm),hother j hlt hj,hx]

theorem swapOut_spec (h : InStep v) (i : ℕ) :
    ∃ v', v.swapOut i = some v' ∧ InStep v' ∧ v'.size = v.size ∧ Retains v v' := by
  rcases hc : v.chunkPtrs[i]? with _ | ⟨d,_ | _⟩ | _
  · exact ⟨v,by simp only [swapOut,hc],h,rfl,fun _ _ hx => hx⟩
  · have hev := evicted_spec h (i := i) (s := v.server) rfl (fun _ _ _ => rfl) fun j x hj hx => by
      rw [view_present (hj ▸ hc)] at hx
      have := h.clean i d hc _ (Nat.mod_lt j v.entries_pos) x hx
      rwa [← hj,index_eq] at this
    exact ⟨v.evictedTo i v.server,by simp only [swapOut,hc]; rfl,hev.1,rfl,hev.2⟩
  · have hi : i < v.chunkPtrs.length := (List.getElem?_eq_some_iff.mp hc).1
    obtain ⟨s,hs⟩ : ∃ s, writeObject v.server v.entries i d = some s :=
      ⟨_,if_pos (h.addressable.ids i hi).le⟩
    have hev := evicted_spec h (i := i) (s := s) (writeObject_some hs).2.1
      (fun j hj hne => by rw [writeObject_cells v.entries_pos hs hj,if_neg hne])
      (fun j x hj hx => by
        rw [writeObject_cells v.entries_pos hs (h.view_lt hx),if_pos hj]
        rwa [view_present (hj ▸ hc)] at hx)
    exact ⟨v.evictedTo i s,by simp only [swapOut,hc,hs,Option.map_some]; rfl,hev.1,rfl,hev.2⟩
  · exact ⟨v,by simp only [swapOut,hc],h,rfl,fun _ _ hx => hx⟩

def DataFrameVector.regrown (v : DataFrameVector α) (s : Vec α) : DataFrameVector α :=
  {v with server := s, remoteVecCapacity := s.capacity}

def DataFrameVector.extended (v : DataFrameVector α) (num : ℕ) : DataFrameVector α :=
  {v with chunkPtrs := v.chunkPtrs++List.replicate num (.present (fun _ => none) true)}

variable [ValueInit α] (al : Allocator)

theorem computeReserve_cells_of_lt (s : Vec α) {n i : ℕ} (hs : i < s.size) (hn : i < n) :
    (computeReserve al s n).cells i = s.cells i := by
  have hin : i < (s.resize al n).size := by rwa [Vec.resize_size]
  unfold computeReserve
  rw [Vec.resize_cells_of_lt al _ _ _ hin,Vec.resize_cells_of_lt al _ _ _ hs]

omit [ValueInit α] in
/-- A larger server vector with the same contents below the chunks' storage. -/
theorem InStep.regrown (h : InStep v) {s : Vec α} (hmono : v.server.capacity ≤ s.capacity)
    (hcell : ∀ j < v.capacity, j < v.server.capacity → s.cells j = v.server.cells j) :
    InStep (v.regrown s) ∧ Retains v (v.regrown s) := by
  have hindex : ∀ i o, i < v.chunkPtrs.length → o < v.entries → i*v.entries+o < v.capacity := by
    intro i o hi ho
    exact (v.chunk_lt_iff _).mp (by rwa [index_div v i ho])
  refine ⟨⟨⟨le_rfl,fun i hi => (h.addressable.ids i hi).trans_le hmono⟩,h.held,
    h.covered.trans hmono,?_,h.flag,?_⟩,?_⟩
  · intro i d b hi o ho x hx
    exact (h.inside i d b hi o ho x hx).trans_le hmono
  · intro i d hi o ho x hx
    have hlen := (List.getElem?_eq_some_iff.mp hi).1
    exact (hcell _ (hindex i o hlen ho) (h.inside i d false hi o ho x hx)).trans
      (h.clean i d hi o ho x hx)
  · intro j x hx
    have hj := h.view_lt hx
    rcases hc : v.chunkPtrs[j/v.entries]? with _ | ⟨d,b⟩ | _
    · rw [view_absent hc] at hx
      cases hx
    · rw [view_present hc] at hx
      exact (view_present (v := v.regrown s) hc).trans hx
    · have hlen := (List.getElem?_eq_some_iff.mp hc).1
      rw [view_remote hc,if_pos hj] at hx
      refine (view_remote (v := v.regrown s) hc).trans ?_
      change (if j < s.capacity then s.cells j else none) = _
      rw [if_pos (hj.trans_le hmono)]
      exact (hcell j ((v.chunk_lt_iff j).mp hlen) hj).trans hx

/-- A reservation of at least the chunks' storage loses nothing if the vector
counts all its storage as elements. -/
theorem InStep.reserveRemote (h : InStep v) (hw : v.server.size = v.server.capacity) {num : ℕ}
    (hnum : v.capacity ≤ num) :
    InStep (v.reserveRemote al num) ∧ Retains v (v.reserveRemote al num) := by
  unfold DataFrameVector.reserveRemote
  split
  · exact h.regrown (capacity_le_computeReserve al v.server num) fun j hj hc =>
      computeReserve_cells_of_lt al v.server (hc.trans_eq hw.symm) (hj.trans_le hnum)
  · exact ⟨h,fun _ _ hx => hx⟩

omit [ValueInit α] in
theorem append_chunk_cases {cs : List (Chunk α)} {c c' : Chunk α} {n i : ℕ}
    (h : (cs++List.replicate n c)[i]? = some c') : cs[i]? = some c' ∨ c' = c := by
  rw [List.getElem?_append] at h
  split at h
  · exact .inl h
  · rw [List.getElem?_replicate] at h
    obtain ⟨-,h⟩ := Option.ite_none_right_eq_some.mp h
    exact .inr (Option.some.inj h).symm

omit [ValueInit α] in
theorem extended_view {num j : ℕ} (h : j/v.entries < v.chunkPtrs.length) :
    (v.extended num).view j = v.view j := by
  have hget : (v.extended num).chunkPtrs[j/v.entries]? = v.chunkPtrs[j/v.entries]? :=
    List.getElem?_append_left h
  rcases hc : v.chunkPtrs[j/v.entries]? with _ | ⟨d,b⟩ | _
  · rw [view_absent hc]
    exact view_absent (hget.trans hc)
  · rw [view_present hc]
    exact view_present (hget.trans hc)
  · rw [view_remote hc]
    exact view_remote (hget.trans hc)

omit [ValueInit α] in
theorem InStep.extended (h : InStep v) {num : ℕ} (ha : Addressable (v.extended num)) :
    InStep (v.extended num) where
  addressable := ha
  held := by
    refine h.held.trans (Nat.mul_le_mul_right _ ?_)
    simp [DataFrameVector.extended]
  covered := h.covered
  inside i d b hi o ho x hx := by
    rcases append_chunk_cases hi with hold | hnew
    · exact h.inside i d b hold o ho x hx
    · cases hnew
      cases hx
  flag hf i d hi o := by
    rcases append_chunk_cases hi with hold | hnew
    · exact h.flag hf i d hold o
    · cases hnew
      rfl
  clean i d hi o ho x hx := by
    rcases append_chunk_cases hi with hold | hnew
    · exact h.clean i d hold o ho x hx
    · cases hnew

variable (v) in
theorem reserveRemote_same (num : ℕ) :
    (v.reserveRemote al num).layout = v.layout ∧ (v.reserveRemote al num).chunkPtrs = v.chunkPtrs ∧
      (v.reserveRemote al num).size = v.size ∧ (v.reserveRemote al num).dirty = v.dirty := by
  unfold DataFrameVector.reserveRemote
  split <;> exact ⟨rfl,rfl,rfl,rfl⟩

variable (v) in
theorem expandChunks_capacity (num : ℕ) :
    (v.expandChunks al num).capacity = v.capacity+num*v.entries := by
  obtain ⟨hlayout,hchunks,_,_⟩ := reserveRemote_same v al ((v.chunkPtrs.length+num)*v.entries)
  have hentries : (v.expandChunks al num).entries = v.entries := congrArg Layout.chunkNumEntries hlayout
  rw [DataFrameVector.capacity,hentries,DataFrameVector.capacity,← Nat.add_mul,expandChunks]
  simp only [hchunks,List.length_append,List.length_replicate]

/-- What growth by new chunks leaves. -/
structure Grown (v v' : DataFrameVector α) : Prop where
  inStep : InStep v'
  layout : v'.layout = v.layout
  size : v'.size = v.size
  dirty : v'.dirty = v.dirty
  covered : v'.capacity ≤ v'.server.capacity
  retains : Retains v v'

theorem expandChunks_spec (h : InStep v) (hw : v.server.size = v.server.capacity) (num : ℕ) :
    Grown v (v.expandChunks al num) := by
  have hle : v.capacity ≤ (v.chunkPtrs.length+num)*v.entries :=
    Nat.mul_le_mul_right _ (Nat.le_add_right _ _)
  have hcap := (h.addressable.reserveRemote al ((v.chunkPtrs.length+num)*v.entries)).2.1
  obtain ⟨hlayout,hchunks,hsize,hdirty⟩ :=
    reserveRemote_same v al ((v.chunkPtrs.length+num)*v.entries)
  obtain ⟨hr,hret⟩ := h.reserveRemote al hw hle
  have hcovered : (v.expandChunks al num).capacity ≤
      (v.reserveRemote al ((v.chunkPtrs.length+num)*v.entries)).server.capacity := by
    rw [expandChunks_capacity]
    exact (Nat.add_mul _ _ _).symm.le.trans hcap
  refine ⟨hr.extended (h.addressable.expandChunks al num),hlayout,hsize,hdirty,hcovered,
    fun j x hx => ?_⟩
  have hx' := hret j x hx
  refine (extended_view ?_).trans hx'
  by_contra hge
  rw [view_absent (List.getElem?_eq_none (by omega))] at hx'
  cases hx'

end Growth
/-- Growth happens only while the server vector counts all its storage as
elements, the rest of a chunk is used only as far as the server vector reaches,
writes are to elements, and assignments meet what they need. -/
def Careful (α : Type) (v : DataFrameVector α) : ColumnOp α → Prop
  | .pushBack _ =>
    if v.chunkPtrs.length = v.size/v.entries then v.server.size = v.server.capacity
    else v.size < v.server.capacity
  | .reserve count => v.capacity < count → v.server.size = v.server.capacity
  | .resize count => v.size < count →
      if v.capacity < count then v.server.size = v.server.capacity else count ≤ v.server.capacity
  | .write index _ => index < v.size
  | .moveAssign other => v.remoteVecCapacity ≤ other.server.capacity
  | .assign _ _ _ => v.chunkPtrs = []
  | _ => True

instance {α : Type} (v : DataFrameVector α) (op : ColumnOp α) : Decidable (Careful α v op) :=
  match op with
  | .pushBack _ => inferInstanceAs (Decidable (if v.chunkPtrs.length = v.size/v.entries then
      v.server.size = v.server.capacity else v.size < v.server.capacity))
  | .reserve count => inferInstanceAs (Decidable (v.capacity < count →
      v.server.size = v.server.capacity))
  | .resize count => inferInstanceAs (Decidable (v.size < count →
      if v.capacity < count then v.server.size = v.server.capacity
      else count ≤ v.server.capacity))
  | .write index _ => inferInstanceAs (Decidable (index < v.size))
  | .moveAssign other => inferInstanceAs (Decidable (v.remoteVecCapacity ≤ other.server.capacity))
  | .assign _ _ _ => decidable_of_iff (v.chunkPtrs.isEmpty = true) (chunkPtrs_isEmpty v)
  | .popBack | .clear | .read _ | .flush | .swapOut _ | .moveConstruct => .isTrue trivial

section Operations
variable {α : Type} {v v' : DataFrameVector α}

theorem chunksFor_mul_ge (v : DataFrameVector α) (num : ℕ) : num ≤ v.chunksFor num*v.entries := by
  unfold chunksFor
  split
  · omega
  · have hover := Nat.lt_div_mul_add (a := num-1) v.entries_pos
    rw [Nat.add_mul,Nat.one_mul]
    omega

theorem InStep.expandNoAlloc (h : v.chunkPtrs = []) (hk : v.remoteVecCapacity ≤ v.server.capacity)
    (hs : v.size ≤ v.server.capacity) : InStep (v.expandNoAlloc v.server.capacity) := by
  have hremote {i : ℕ} {c : Chunk α} (hi : (v.expandNoAlloc v.server.capacity).chunkPtrs[i]? = some c) :
      c = .remote := by
    rcases append_chunk_cases hi with hold | hnew
    · simp [h] at hold
    · exact hnew
  refine ⟨.expandNoAlloc h hk,?_,hs,?_,?_,?_⟩
  · refine hs.trans ((chunksFor_mul_ge v v.server.capacity).trans_eq ?_)
    change _ = (v.expandNoAlloc v.server.capacity).chunkPtrs.length*v.entries
    simp [DataFrameVector.expandNoAlloc,h]
  · intro i d b hi
    cases hremote hi
  · intro _ i d hi
    cases hremote hi
  · intro i d hi
    cases hremote hi

theorem InStep.new (layout : Layout) : InStep (.new layout : DataFrameVector α) :=
  ⟨.new layout,by simp [DataFrameVector.new],by simp [DataFrameVector.new],
    by simp [DataFrameVector.new],by simp [DataFrameVector.new],by simp [DataFrameVector.new]⟩

theorem InStep.adopt (layout : Layout) {size : ℕ} {s : Vec α} (hs : size ≤ s.capacity) :
    InStep (DataFrameVector.adopt layout size s) :=
  .expandNoAlloc (v := {DataFrameVector.new layout with
    server := s, size := size, remoteVecCapacity := s.capacity}) rfl le_rfl hs

variable [ValueInit α] (al : Allocator)

variable (v) in
theorem le_reserve_capacity (count : ℕ) : count ≤ (v.reserve al count).capacity := by
  unfold DataFrameVector.reserve
  split
  · have hover := Nat.lt_div_mul_add (a := count-v.capacity-1) v.entries_pos
    rw [DataFrameVector.expand,expandChunks_capacity,Nat.add_mul,Nat.one_mul]
    omega
  · omega

variable (v) in
theorem capacity_le_reserve (count : ℕ) : v.capacity ≤ (v.reserve al count).capacity := by
  unfold DataFrameVector.reserve
  split
  · rw [DataFrameVector.expand,expandChunks_capacity]
    exact Nat.le_add_right _ _
  · exact le_rfl

variable (v) in
theorem reserve_size (count : ℕ) : (v.reserve al count).size = v.size := by
  unfold DataFrameVector.reserve
  split
  · exact (reserveRemote_same v al _).2.2.1
  · rfl

theorem InStep.reserve (h : InStep v) (count : ℕ)
    (hw : v.capacity < count → v.server.size = v.server.capacity) :
    InStep (v.reserve al count) ∧
      (v.capacity < count → count ≤ (v.reserve al count).server.capacity) := by
  have hle := le_reserve_capacity v al count
  unfold DataFrameVector.reserve at hle ⊢
  split
  · rename_i hlt
    rw [if_pos hlt] at hle
    have hg := expandChunks_spec al h (hw hlt) ((count-v.capacity-1)/v.entries+1)
    exact ⟨hg.inStep,fun _ => hle.trans hg.covered⟩
  · rename_i hge
    exact ⟨h,fun hlt => absurd hlt hge⟩

theorem InStep.resize (h : InStep v) {count : ℕ}
    (hc : v.size < count → if v.capacity < count then v.server.size = v.server.capacity
      else count ≤ v.server.capacity) : InStep (v.resize al count) := by
  unfold DataFrameVector.resize
  split
  swap
  · exact h
  rename_i hlt
  have hc := hc hlt
  have hr := h.reserve al count fun hcap => by rwa [if_pos hcap] at hc
  refine hr.1.setSize (le_reserve_capacity v al count) ?_
  by_cases hcap : v.capacity < count
  · exact hr.2 hcap
  · rw [if_neg hcap] at hc
    unfold DataFrameVector.reserve
    rwa [if_neg hcap]

theorem pushBack_spec (h : InStep v) (x : Option α)
    (hc : if v.chunkPtrs.length = v.size/v.entries then v.server.size = v.server.capacity
      else v.size < v.server.capacity) :
    ∃ v', v.pushBack al x = some v' ∧ InStep v' ∧ v'.layout = v.layout ∧ v'.size = v.size+1 ∧
      v'.view v.size = x ∧ ∀ j y, j ≠ v.size → v.view j = some y → v'.view j = some y := by
  set w := if v.chunkPtrs.length = v.size/v.entries then
    v.expand al v.layout.numEntriesPerExpansion else v with hw
  have hspec : InStep w ∧ w.layout = v.layout ∧ v.size < w.capacity ∧ v.size < w.server.capacity ∧
      Retains v w := by
    by_cases hfull : v.chunkPtrs.length = v.size/v.entries
    · rw [if_pos hfull] at hc hw
      have hg := expandChunks_spec al h hc ((v.layout.numEntriesPerExpansion-1)/v.entries+1)
      have hlt : v.size < w.capacity := by
        rw [hw]
        change _ < (v.expandChunks al ((v.layout.numEntriesPerExpansion-1)/v.entries+1)).capacity
        have hmod := Nat.lt_div_mul_add (a := v.size) v.entries_pos
        rw [expandChunks_capacity,Nat.add_mul,DataFrameVector.capacity,hfull]
        omega
      rw [hw] at hlt ⊢
      exact ⟨hg.inStep,hg.layout,hlt,hlt.trans_le hg.covered,hg.retains⟩
    · rw [if_neg hfull] at hc hw
      have hdiv : v.size/v.entries ≤ v.chunkPtrs.length := by
        have := Nat.div_le_div_right (c := v.entries) h.held
        rwa [DataFrameVector.capacity,Nat.mul_div_cancel _ v.entries_pos] at this
      have hlt : v.size < v.capacity := (v.chunk_lt_iff v.size).mp (by omega)
      rw [hw]
      exact ⟨h,rfl,hlt,hc,fun _ _ hx => hx⟩
  obtain ⟨hin,hlayout,hcap,hserver,hret⟩ := hspec
  obtain ⟨v',hv',hwr,hin'⟩ := atMut_spec (hin.setSize hcap hserver) (j := v.size) hcap hserver x
  refine ⟨v',hv',hin',hwr.shape.layout.trans hlayout,hwr.size,?_,fun j y hne hy => ?_⟩
  · rw [hwr.view,if_pos rfl]
  · rw [hwr.view,if_neg hne]
    exact hret j y hy

theorem columnStep_inStep {op : ColumnOp α} (h : InStep v) (hops : ∀ w ∈ op.operands, InStep w)
    (hok : Careful α v op) (hs : columnStep al v op = some v') : InStep v' := by
  cases op with
  | pushBack x =>
    obtain ⟨w,hw,hin,_⟩ := pushBack_spec al h (some x) hok
    cases hw.symm.trans hs
    exact hin
  | popBack =>
    obtain ⟨-,hs⟩ := Option.ite_none_left_eq_some.mp hs
    cases hs
    have hle : v.size-1 ≤ v.size := Nat.sub_le _ _
    exact h.setSize (hle.trans h.held) (hle.trans h.covered)
  | clear =>
    cases hs
    exact h.setSize (Nat.zero_le _) (Nat.zero_le _)
  | reserve count =>
    cases hs
    exact (h.reserve al count hok).1
  | resize count =>
    cases hs
    exact h.resize al hok
  | read index =>
    obtain ⟨⟨x,w⟩,hr,⟨⟩⟩ := Option.map_eq_some_iff.mp hs
    have hlt : index < v.capacity := by
      rw [← v.chunk_lt_iff]
      by_contra hge
      simp [atIndex,deref,List.getElem?_eq_none (not_lt.mp hge)] at hr
    obtain ⟨w',hw',hk⟩ := atIndex_spec h hlt
    cases hw'.symm.trans hr
    exact hk.inStep
  | write index x =>
    obtain ⟨w,hw,_,hin⟩ := atMut_spec h (lt_of_lt_of_le hok h.held) (lt_of_lt_of_le hok h.covered)
      (some x)
    cases hw.symm.trans hs
    exact hin
  | flush =>
    obtain ⟨w,hw,hf⟩ := flush_spec h
    cases hw.symm.trans hs
    exact hf.inStep
  | swapOut chunk =>
    obtain ⟨w,hw,hin,_⟩ := swapOut_spec h chunk
    cases hw.symm.trans hs
    exact hin
  | moveConstruct =>
    cases hs
    exact ⟨⟨Nat.zero_le _,h.addressable.ids⟩,h.held,h.covered,h.inside,h.flag,h.clean⟩
  | moveAssign other =>
    cases hs
    have ho := hops other (by simp [ColumnOp.operands])
    exact ⟨⟨hok,ho.addressable.ids⟩,ho.held,ho.covered,ho.inside,ho.flag,ho.clean⟩
  | assign src b e =>
    obtain ⟨⟨w,src'⟩,hr,⟨⟩⟩ := Option.map_eq_some_iff.mp hs
    simp only [assignRemotely,Option.bind_eq_bind,Option.bind_eq_some_iff] at hr
    obtain ⟨_,_,s,hc,⟨⟩⟩ := hr
    refine .expandNoAlloc (v := {v with
      server := s, remoteVecCapacity := s.capacity, size := e-b}) hok le_rfl ?_
    change e-b ≤ s.capacity
    rw [computeAssign_some hc]
    exact (Vec.resize_size al v.server (e-b)).symm.le.trans (v.server.resize al (e-b)).fits

end Operations

section Results
variable {α : Type} {al : Allocator} {s s' : Vec α} {idx : Vec ℕ} {n : ℕ}

theorem computeCopyDataByIdx_size (h : computeCopyDataByIdx al s idx n .new = some s') :
    s'.size = n := by
  refine loop_partial (fun i t => t.size = i) (Vec.reserve_size al _ n) ?_ h
  intro i _ t t' ht hb
  simp only [Option.bind_eq_bind,Option.bind_eq_some_iff] at hb
  obtain ⟨k,_,x,_,⟨⟩⟩ := hb
  simp [ht]

theorem computeShuffleDataByIdx_capacity (h : computeShuffleDataByIdx al s idx n .new = some s') :
    n ≤ s'.capacity := by
  refine loop_partial (fun _ t => n ≤ t.capacity) (Vec.le_reserve_capacity al _ n) ?_ h
  intro i _ t t' ht hb
  simp only [Option.bind_eq_bind,Option.bind_eq_some_iff] at hb
  obtain ⟨k,_,x,_,hstore⟩ := hb
  obtain ⟨-,hstore⟩ := Option.ite_none_right_eq_some.mp hstore
  cases hstore
  exact ht

end Results

/-- Every column of a careful run is in step with its server vector. -/
theorem Reachable.inStep {al : Allocator} {α : Type} {v : DataFrameVector α}
    (h : Reachable al Careful v) : InStep v := by
  induction h with
  | new layout => exact .new layout
  | copied _ _ h =>
    simp only [copyDataByIdxRemotely,Option.bind_eq_bind,Option.bind_eq_some_iff] at h
    obtain ⟨_,_,_,_,s,hc,⟨⟩⟩ := h
    exact .adopt _ ((computeCopyDataByIdx_size hc).symm.le.trans s.fits)
  | shuffled _ _ h =>
    simp only [shuffleDataByIdxRemotely,Option.bind_eq_bind,Option.bind_eq_some_iff] at h
    obtain ⟨_,_,_,_,s,hc,⟨⟩⟩ := h
    exact .adopt _ (computeShuffleDataByIdx_capacity hc)
  | unique _ h =>
    simp only [getColUniqueValuesRemotely,Option.bind_eq_bind,Option.bind_eq_some_iff] at h
    obtain ⟨_,_,s,_,⟨⟩⟩ := h
    exact .adopt _ s.fits
  | aggregated lib rand op _ _ h =>
    simp only [aggregateRemotely,Option.bind_eq_bind,Option.bind_eq_some_iff] at h
    obtain ⟨_,_,_,_,s,_,⟨⟩⟩ := h
    exact .adopt _ s.fits
  | step _ _ hok hs ih ihops => exact columnStep_inStep _ ih ihops hok hs

end FarMemory.DataFrame
