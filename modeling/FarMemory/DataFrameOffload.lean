import FarMemory.DataFrameHistories

/-!
# Offloaded and local column operations

Copying by indices, shuffling and deduplication, each once on the server's
vectors after a flush and once on the client through fast iterators. For columns
in step with their server vectors both give the same elements. The local copy
cannot make an empty column: it takes an iterator into a column without chunks.
-/
namespace FarMemory.DataFrame
open CountedLoop StdVector ValueInit DataFrameVector

section Distinct
variable {α : Type} [BEq α] [LawfulBEq α] {l : List α} {x : α}

theorem eraseDups_snoc_of_mem (h : x ∈ l) : (l++[x]).eraseDups = l.eraseDups := by
  simp [List.eraseDups_append,List.removeAll,h]

theorem eraseDups_snoc_of_notMem (h : x ∉ l) : (l++[x]).eraseDups = l.eraseDups++[x] := by
  simp [List.eraseDups_append,List.removeAll,h,List.eraseDups_cons]

theorem nodup_eraseDups (l : List α) : l.eraseDups.Nodup := by
  induction l using List.reverseRecOn with
  | nil => simp
  | append_singleton l x ih =>
    by_cases hx : x ∈ l
    · rwa [eraseDups_snoc_of_mem hx]
    · rw [eraseDups_snoc_of_notMem hx]
      exact ih.append (by simp) (by simpa [List.mem_eraseDups] using hx)

theorem eraseDups_map_some (l : List α) : (l.map some).eraseDups = l.eraseDups.map some := by
  induction l using List.reverseRecOn with
  | nil => simp
  | append_singleton l x ih =>
    rw [List.map_append,List.map_cons,List.map_nil]
    by_cases hx : x ∈ l
    · rw [eraseDups_snoc_of_mem hx,eraseDups_snoc_of_mem (by simpa using hx),ih]
    · rw [eraseDups_snoc_of_notMem hx,eraseDups_snoc_of_notMem (by simpa using hx),ih]
      simp

end Distinct

section Server
variable {α : Type} (al : Allocator) (s : Vec α) (idx : Vec ℕ) {n : ℕ} {k : ℕ → ℕ} {f : ℕ → Option α}

theorem computeCopyDataByIdx_spec (hk : ∀ i < n, (idx.read i).join = some (k i))
    (hf : ∀ i < n, s.read (k i) = some (f i)) :
    ∃ s', computeCopyDataByIdx al s idx n .new = some s' ∧ s'.size = n ∧
      ∀ i < n, s'.cells i = f i := by
  refine loop_total (fun i (t : Vec α) => t.size = i ∧ ∀ j < i, t.cells j = f j)
    ⟨Vec.reserve_size al _ n,by omega⟩ ?_
  intro i hi t ⟨hsize,hcells⟩
  refine ⟨t.pushBack al (f i),by simp [hk i hi,hf i hi],by simp [hsize],fun j hj => ?_⟩
  rcases Nat.lt_succ_iff_lt_or_eq.mp hj with hlt | rfl
  · rw [Vec.pushBack_cells al t j _ (hsize ▸ hlt),hcells j hlt]
  · have := Vec.pushBack_cells_last al t (f j)
    rwa [hsize] at this

theorem computeShuffleDataByIdx_spec (hk : ∀ i < n, (idx.read i).join = some (k i))
    (hlt : ∀ i < n, k i < n) (hinj : ∀ i < n, ∀ j < n, k i = k j → i = j)
    (hf : ∀ i < n, s.read i = some (f i)) :
    ∃ s', computeShuffleDataByIdx al s idx n .new = some s' ∧ n ≤ s'.capacity ∧
      ∀ i < n, s'.cells (k i) = f i := by
  refine loop_total (fun i (t : Vec α) => n ≤ t.capacity ∧ ∀ j < i, t.cells (k j) = f j)
    ⟨Vec.le_reserve_capacity al _ n,by omega⟩ ?_
  intro i hi t ⟨hcap,hcells⟩
  have hstore : t.store (k i) (f i) =
      some ⟨t.size,t.capacity,Function.update t.cells (k i) (f i),t.fits⟩ :=
    if_pos ((hlt i hi).trans_le hcap)
  refine ⟨⟨t.size,t.capacity,Function.update t.cells (k i) (f i),t.fits⟩,
    by simp [hk i hi,hf i hi,hstore],hcap,fun j hj => ?_⟩
  rcases Nat.lt_succ_iff_lt_or_eq.mp hj with hji | rfl
  · have hne : k j ≠ k i := fun heq => by
      have := hinj j (by omega) i hi heq
      omega
    simp only [Function.update_of_ne hne,hcells j hji]
  · simp only [Function.update_self]

/-- The result holds the distinct values in the order of their first occurrence. -/
theorem computeUnique_spec [DecidableEq α] {g : ℕ → α} (hg : ∀ i < n, (s.read i).join = some (g i)) :
    ∃ s', computeUnique al s n .new = some s' ∧
      s'.elements = ((List.range n).map g).eraseDups.map some := by
  let P (i : ℕ) (acc : List α × Vec α) : Prop :=
    (∀ x, x ∈ acc.1 ↔ x ∈ (List.range i).map g) ∧
      acc.2.elements = ((List.range i).map g).eraseDups.map some
  have hstep : ∀ i < n, ∀ acc, P i acc → ∃ acc', uniqueRound al s i acc = some acc' ∧
      P (i+1) acc' := by
    rintro i hi ⟨seen,t⟩ ⟨hseen,hlist⟩
    refine ⟨_,by simp only [uniqueRound,hg i hi,Option.bind_eq_bind,Option.bind_some]; rfl,?_⟩
    simp only [P,List.range_succ,List.map_append,List.map_cons,List.map_nil]
    by_cases hx : g i ∈ seen
    · have hmem := (hseen (g i)).mp hx
      rw [eraseDups_snoc_of_mem hmem]
      simp only [hx,if_true]
      refine ⟨fun x => ?_,hlist⟩
      rw [hseen,List.mem_append,List.mem_singleton]
      constructor
      · exact .inl
      · rintro (h | rfl)
        · exact h
        · exact hmem
    · have hmem := (hseen (g i)).not.mp hx
      rw [eraseDups_snoc_of_notMem hmem]
      simp only [hx,if_false]
      refine ⟨fun x => ?_,?_⟩
      · rw [List.mem_cons,hseen,List.mem_append,List.mem_singleton]
        exact or_comm
      · rw [Vec.elements_pushBack,hlist,List.map_append]
        rfl
  obtain ⟨⟨seen,t⟩,hrun,_,hlist⟩ := loop_total (n := n) P
    (s := (([] : List α),(Vec.new : Vec α).reserve al n))
    ⟨by simp,by simp [Vec.elements_reserve_new]⟩ hstep
  exact ⟨t,by simp only [computeUnique,hrun,Option.map_some],hlist⟩

end Server

section Adopted
variable {α : Type}

theorem adopt_view (layout : Layout) (size : ℕ) (s : Vec α) {j : ℕ} (hj : j < s.capacity) :
    (adopt layout size s).view j = s.cells j := by
  set w : DataFrameVector α := {DataFrameVector.new layout with
    server := s, size := size, remoteVecCapacity := s.capacity}
  have hget : (adopt layout size s).chunkPtrs[j/w.entries]? = some .remote := by
    change ([]++List.replicate (w.chunksFor s.capacity) Chunk.remote)[j/w.entries]? = _
    rw [List.nil_append,List.getElem?_replicate,if_pos]
    rw [Nat.div_lt_iff_lt_mul w.entries_pos]
    exact hj.trans_le (chunksFor_mul_ge w s.capacity)
  refine (view_remote hget).trans ?_
  exact if_pos hj

theorem adopt_contents (layout : Layout) {size : ℕ} {s : Vec α} (hs : size ≤ s.capacity) :
    (adopt layout size s).contents = (List.range size).map s.cells := by
  change (List.range size).map _ = _
  apply List.map_congr_left
  intro j hj
  exact adopt_view layout size s ((List.mem_range.mp hj).trans_le hs)

theorem adopt_elements (layout : Layout) (s : Vec α) :
    (adopt layout s.size s).contents = s.elements := adopt_contents layout s.fits

theorem Flushed.read {v v' : DataFrameVector α} (h : Flushed v v') (hv : InStep v) {j : ℕ} {x : α}
    (hx : v.view j = some x) : v'.server.read j = some (some x) := by
  rw [Vec.read_eq ((hv.view_lt hx).trans_eq h.shape.capacity.symm),h.current j x hx]

end Adopted
section Iterators
variable {α : Type} {v w : DataFrameVector α} {n : ℕ}

theorem chunks_ne_nil (h : v.size ≤ v.capacity) (hs : 0 < v.size) : v.chunkPtrs ≠ [] := by
  intro hnil
  have := hs.trans_le h
  simp [DataFrameVector.capacity,hnil] at this

theorem InStep.chunks_ne_nil (h : InStep v) (hs : 0 < v.size) : v.chunkPtrs ≠ [] :=
  DataFrame.chunks_ne_nil h.held hs

/-- A column `v` after iterators have read it, whether or not its server has all of it. -/
structure Peeked (v w : DataFrameVector α) : Prop extends SameView v w where
  addressable : Addressable v
  held : v.size ≤ v.capacity
  inStep : InStep v → InStep w

namespace Peeked

theorem refl (ha : Addressable v) (hh : v.size ≤ v.capacity) : Peeked v v := ⟨.refl v,ha,hh,id⟩

theorem then_same {w' : DataFrameVector α} (h : Peeked v w) (hk : SameView w w') (hin : InStep w → InStep w') :
    Peeked v w' := ⟨h.toSameView.trans hk,h.addressable,h.held,hin ∘ h.inStep⟩

theorem later (h : Peeked v w) : Addressable w := h.addressable.of_shape h.shape

theorem iterator (h : Peeked v w) (hn : 0 < v.size) (j : ℕ) : ∃ w', w.fastIterator false j = some w' ∧ Peeked v w' := by
  have hne : w.chunkPtrs ≠ [] := by
    rw [← List.length_pos_iff,h.shape.length,List.length_pos_iff]
    exact chunks_ne_nil h.held hn
  obtain ⟨w',hw',hk,hin⟩ := fastIterator_view h.later false hne j
  exact ⟨w',hw',h.then_same hk fun hw => hin hw (by simp)⟩

theorem read (h : Peeked v w) {j : ℕ} (hj : j < v.size) : ∃ w', w.atIndex j = some (v.view j,w') ∧ Peeked v w' := by
  have hcap : j < w.capacity := by
    rw [DataFrameVector.capacity,h.shape.length,h.shape.entries]
    exact hj.trans_le h.held
  obtain ⟨w',hw',hk,hin⟩ := atIndex_view h.later hcap
  exact ⟨w',by rw [hw',h.view],h.then_same hk hin⟩

theorem advance (h : Peeked v w) (j : ℕ) : ∃ w', w.advance false j = some w' ∧ Peeked v w' := by
  obtain ⟨w',hw',hk,hin⟩ := advance_view h.later false j
  exact ⟨w',hw',h.then_same hk fun hw => hin hw (by simp)⟩

end Peeked

theorem cfbegin_spec (h : InStep v) (hs : 0 < v.size) : ∃ w, v.cfbegin = some w ∧ Kept v w :=
  fastIterator_spec h (h.chunks_ne_nil hs) 0

theorem Kept.peek (h : Kept v w) {j : ℕ} (hj : j < v.capacity) :
    ∃ w', w.atIndex j = some (v.view j,w') ∧ Kept v w' := by
  have hcap : j < w.capacity := by
    rw [DataFrameVector.capacity,h.shape.length,h.shape.entries]
    exact hj
  obtain ⟨w',hw',hk⟩ := atIndex_spec h.inStep hcap
  exact ⟨w',by rw [hw',h.view],h.trans hk⟩

theorem Kept.read (h : Kept v w) (hv : InStep v) {j : ℕ} (hj : j < v.size) :
    ∃ w', w.atIndex j = some (v.view j,w') ∧ Kept v w' := h.peek (hj.trans_le hv.held)

theorem Kept.advance (h : Kept v w) (j : ℕ) :
    ∃ w', w.advance false j = some w' ∧ Kept v w' := by
  obtain ⟨w',hw',hk⟩ := advance_spec h.inStep j
  exact ⟨w',hw',h.trans hk⟩

/-- A column of `n` elements under a mutable iterator. -/
structure Target (w : DataFrameVector α) (n : ℕ) : Prop where
  inStep : InStep w
  dirty : w.dirty = true
  size : w.size = n

theorem Target.write (h : Target w n) {j : ℕ} (hj : j < n) (x : Option α) :
    ∃ w', w.iterWrite j x = some w' ∧ Target w' n ∧
      ∀ k, w'.view k = if k = j then x else w.view k := by
  have hs : j < w.size := by rwa [h.size]
  obtain ⟨w',hw',hwr,hd,hin⟩ := iterWrite_view h.inStep.addressable (hs.trans_le h.inStep.held) x
  exact ⟨w',hw',⟨hin h.inStep h.dirty (hs.trans_le h.inStep.covered),hd.trans h.dirty,
    hwr.size.trans h.size⟩,hwr.view⟩

theorem Target.advance (h : Target w n) (j : ℕ) :
    ∃ w', w.advance true j = some w' ∧ Target w' n ∧ ∀ k, w'.view k = w.view k := by
  obtain ⟨w',hw',hk,hin⟩ := advance_view h.inStep.addressable true j
  exact ⟨w',hw',⟨hin h.inStep fun _ => h.dirty,hk.dirty.trans h.dirty,hk.size.trans h.size⟩,hk.view⟩

theorem Target.emit (h : Target w n) {j : ℕ} (hj : j < n) (x : Option α) :
    ∃ w1 w2, w.iterWrite j x = some w1 ∧ w1.advance true j = some w2 ∧ Target w2 n ∧
      ∀ k, w2.view k = if k = j then x else w.view k := by
  obtain ⟨w1,h1,ht1,hv1⟩ := h.write hj x
  obtain ⟨w2,h2,ht2,hv2⟩ := ht1.advance j
  exact ⟨w1,w2,h1,h2,ht2,fun k => (hv2 k).trans (hv1 k)⟩

theorem fbegin_spec (h : InStep w) (hs : 0 < w.size) :
    ∃ w', w.fbegin = some w' ∧ Target w' w.size ∧ ∀ k, w'.view k = w.view k := by
  obtain ⟨w',hw',hk,hin⟩ := fastIterator_view h.raise.addressable true (h.chunks_ne_nil hs) 0
  exact ⟨w',hw',⟨hin h.raise fun _ => rfl,hk.dirty,hk.size⟩,hk.view⟩

theorem fbegin_no_chunks (h : w.chunkPtrs = []) : w.fbegin = none := by
  simp [fbegin,fastIterator,h]

variable [ValueInit α] (al : Allocator)

theorem new_resize_spec (layout : Layout) (n : ℕ) :
    InStep ((DataFrameVector.new layout : DataFrameVector α).resize al n) ∧
      ((DataFrameVector.new layout : DataFrameVector α).resize al n).size = n := by
  refine ⟨(InStep.new layout).resize al fun hn => ?_,?_⟩
  · rw [if_pos (by simpa [DataFrameVector.capacity,DataFrameVector.new] using hn)]
    rfl
  · unfold DataFrameVector.resize
    split
    · rfl
    · rename_i hn
      have : n = 0 := by simpa [DataFrameVector.new] using hn
      rw [this]
      rfl

end Iterators

section Copy
variable {α : Type} {v : DataFrameVector α} {idx : DataFrameVector ℕ} {k : ℕ → ℕ} (al : Allocator)

theorem copyRemotely_spec (hv : InStep v) (hi : InStep idx)
    (hk : ∀ i < idx.size, idx.view i = some (k i))
    (hx : ∀ i < idx.size, ∃ x, v.view (k i) = some x) :
    ∃ r st, v.copyDataByIdxRemotely al idx = some (r,st) ∧
      r.contents = (List.range idx.size).map fun i => v.view (k i) := by
  obtain ⟨idx',hfi,hflushi⟩ := flush_spec hi
  obtain ⟨v',hfv,hflushv⟩ := flush_spec hv
  obtain ⟨s,hs,hsize,hcells⟩ := computeCopyDataByIdx_spec al v'.server idx'.server
    (n := idx.size) (k := k) (f := fun i => v.view (k i))
    (fun i h => by rw [hflushi.read hi (hk i h)]; rfl)
    (fun i h => by
      obtain ⟨x,hx⟩ := hx i h
      rw [hflushv.read hv hx,hx])
  have hrun : v.copyDataByIdxRemotely al idx = some (adopt v'.layout idx'.size s,v',idx') := by
    simp [copyDataByIdxRemotely,hfi,hfv,hflushi.size,hs]
  refine ⟨_,_,hrun,?_⟩
  rw [hflushi.size,adopt_contents _ (hsize ▸ s.fits)]
  apply List.map_congr_left
  intro i h
  exact hcells i (List.mem_range.mp h)

def CopyInv (v : DataFrameVector α) (idx : DataFrameVector ℕ) (k : ℕ → ℕ) (i : ℕ)
    (st : DataFrameVector α × DataFrameVector α × DataFrameVector ℕ) : Prop :=
  Target st.1 idx.size ∧ (∀ j < i, st.1.view j = v.view (k j)) ∧ Kept v st.2.1 ∧ Kept idx st.2.2

variable [ValueInit α]

theorem copyLocally_spec (hv : InStep v) (hi : InStep idx) (hn : 0 < idx.size)
    (hk : ∀ i < idx.size, idx.view i = some (k i)) (hlt : ∀ i < idx.size, k i < v.size) :
    ∃ l st, v.copyDataByIdxLocally al idx = some (l,st) ∧
      l.contents = (List.range idx.size).map fun i => v.view (k i) := by
  obtain ⟨hret,hsize⟩ := new_resize_spec (α := α) al v.layout idx.size
  obtain ⟨ret,hbegin,htarget,_⟩ := fbegin_spec hret (by rwa [hsize])
  rw [hsize] at htarget
  obtain ⟨cidx,hcbegin,hcidx⟩ := cfbegin_spec hi hn
  have hstep : ∀ i < idx.size, ∀ st, CopyInv v idx k i st → ∃ st', copyRound i st = some st' ∧
      CopyInv v idx k (i+1) st' := by
    rintro i h ⟨r,u,c⟩ ⟨ht,hview,hu,hc⟩
    obtain ⟨c1,hc1,hkc1⟩ := hc.read hi h
    obtain ⟨u1,hu1,hku1⟩ := hu.read hv (hlt i h)
    obtain ⟨r1,r2,hr1,hr2,ht2,hview2⟩ := ht.emit h (v.view (k i))
    obtain ⟨c2,hc2,hkc2⟩ := hkc1.advance i
    refine ⟨(r2,u1,c2),by simp [copyRound,hc1,hk i h,hu1,hr1,hr2,hc2],ht2,fun j hj => ?_,hku1,hkc2⟩
    rw [hview2]
    split
    · rename_i heq
      rw [heq]
    · exact hview j (by omega)
  obtain ⟨⟨l,u,c⟩,hrun,ht,hview,_⟩ :=
    loop_total (s := (ret,v,cidx)) (CopyInv v idx k) ⟨htarget,by omega,.refl hv,hcidx⟩ hstep
  refine ⟨l,(u,c),?_,?_⟩
  · simp only [copyDataByIdxLocally,hbegin,hcbegin,Option.bind_eq_bind,Option.bind_some]
    exact hrun
  · rw [contents,ht.size]
    apply List.map_congr_left
    intro i h
    exact hview i (List.mem_range.mp h)

theorem copyLocally_empty (hn : idx.size = 0) : v.copyDataByIdxLocally al idx = none := by
  have hnil : ((DataFrameVector.new v.layout : DataFrameVector α).resize al idx.size).chunkPtrs = [] := by
    rw [hn]
    rfl
  simp [copyDataByIdxLocally,fbegin_no_chunks hnil]

end Copy
section Shuffle
variable {α : Type} {v : DataFrameVector α} {idx : DataFrameVector ℕ} {k : ℕ → ℕ} (al : Allocator)
  (hv : InStep v) (hi : InStep idx) (hsize : idx.size = v.size)
  (hk : ∀ i < idx.size, idx.view i = some (k i)) (hlt : ∀ i < idx.size, k i < idx.size)
  (hinj : ∀ i < idx.size, ∀ j < idx.size, k i = k j → i = j)

include hv hi hsize hk hlt hinj

theorem shuffleRemotely_spec (hx : ∀ i < v.size, ∃ x, v.view i = some x) :
    ∃ r st, v.shuffleDataByIdxRemotely al idx = some (r,st) ∧ r.size = idx.size ∧
      ∀ i < idx.size, r.view (k i) = v.view i := by
  obtain ⟨idx',hfi,hflushi⟩ := flush_spec hi
  obtain ⟨v',hfv,hflushv⟩ := flush_spec hv
  obtain ⟨s,hs,hcap,hcells⟩ := computeShuffleDataByIdx_spec al v'.server idx'.server
    (n := idx.size) (k := k) (f := v.view)
    (fun i h => by rw [hflushi.read hi (hk i h)]; rfl) hlt hinj
    (fun i h => by
      obtain ⟨x,hx⟩ := hx i (hsize ▸ h)
      rw [hflushv.read hv hx,hx])
  have hrun : v.shuffleDataByIdxRemotely al idx = some (adopt v'.layout idx'.size s,v',idx') := by
    simp [shuffleDataByIdxRemotely,hfi,hfv,hflushi.size,hs]
  refine ⟨_,_,hrun,hflushi.size,fun i h => ?_⟩
  rw [adopt_view _ _ _ ((hlt i h).trans_le hcap),hcells i h]

def ShuffleInv (v : DataFrameVector α) (idx : DataFrameVector ℕ) (k : ℕ → ℕ) (i : ℕ)
    (st : DataFrameVector α × DataFrameVector α × DataFrameVector ℕ) : Prop :=
  (InStep st.1 ∧ st.1.size = idx.size) ∧ (∀ j < i, st.1.view (k j) = v.view j) ∧
    Peeked v st.2.1 ∧ Kept idx st.2.2

omit hv in
theorem shuffleLocally_spec [ValueInit α] (ha : Addressable v) (hh : v.size ≤ v.capacity) (hn : 0 < v.size) :
    ∃ l st, v.shuffleDataByIdxLocally al idx = some (l,st) ∧ l.size = idx.size ∧
      ∀ i < idx.size, l.view (k i) = v.view i := by
  obtain ⟨hret,hrsize⟩ := new_resize_spec (α := α) al v.layout idx.size
  obtain ⟨cv,hvbegin,hcv⟩ : ∃ w, v.cfbegin = some w ∧ Peeked v w := (Peeked.refl ha hh).iterator hn 0
  obtain ⟨cidx,hcbegin,hcidx⟩ := cfbegin_spec hi (by rwa [hsize])
  have hstep : ∀ i < idx.size, ∀ st, ShuffleInv v idx k i st → ∃ st', shuffleRound i st = some st' ∧
      ShuffleInv v idx k (i+1) st' := by
    rintro i h ⟨r,u,c⟩ ⟨⟨hr,hrs⟩,hview,hu,hc⟩
    have hki : k i < r.size := (hlt i h).trans_eq hrs.symm
    obtain ⟨c1,hc1,hkc1⟩ := hc.read hi h
    obtain ⟨u1,hu1,hku1⟩ := hu.read (h.trans_eq hsize)
    obtain ⟨r1,hr1,hwr,hinr⟩ := atMut_spec hr (hki.trans_le hr.held) (hki.trans_le hr.covered) (v.view i)
    obtain ⟨u2,hu2,hku2⟩ := hku1.advance i
    obtain ⟨c2,hc2,hkc2⟩ := hkc1.advance i
    refine ⟨(r1,u2,c2),by simp [shuffleRound,hc1,hk i h,hu1,hr1,hu2,hc2],
      ⟨hinr,hwr.size.trans hrs⟩,fun j hj => ?_,hku2,hkc2⟩
    rw [hwr.view]
    split
    · rename_i heq
      rw [hinj j (by omega) i h heq]
    · rename_i hne
      refine hview j (lt_of_le_of_ne (Nat.lt_succ_iff.mp hj) ?_)
      rintro rfl
      exact hne rfl
  obtain ⟨⟨l,u,c⟩,hrun,⟨_,hls⟩,hview,_⟩ :=
    loop_total (s := ((DataFrameVector.new v.layout).resize al idx.size,cv,cidx))
      (ShuffleInv v idx k) ⟨⟨hret,hrsize⟩,by omega,hcv,hcidx⟩ hstep
  refine ⟨l,(u,c),?_,hls,hview⟩
  simp only [shuffleDataByIdxLocally,hvbegin,hcbegin,Option.bind_eq_bind,Option.bind_some]
  exact hrun

end Shuffle

section Unique
variable {α : Type} [DecidableEq α] {v : DataFrameVector α} {g : ℕ → α} (al : Allocator)

theorem uniqueRemotely_spec (hv : InStep v) (hg : ∀ i < v.size, v.view i = some (g i)) :
    ∃ r st, v.getColUniqueValuesRemotely al = some (r,st) ∧
      r.contents = ((List.range v.size).map g).eraseDups.map some := by
  obtain ⟨v',hfv,hflushv⟩ := flush_spec hv
  obtain ⟨s,hs,hlist⟩ := computeUnique_spec al v'.server (n := v.size) (g := g)
    fun i h => by rw [hflushv.read hv (hg i h)]; rfl
  have hrun : v.getColUniqueValuesRemotely al = some (adopt v'.layout s.size s,v') := by
    simp [getColUniqueValuesRemotely,hfv,hflushv.size,hs]
  exact ⟨_,_,hrun,(adopt_elements _ s).trans hlist⟩

theorem collect_spec {w : DataFrameVector α} (hv : InStep v) (hw : Kept v w)
    (hg : ∀ i < v.size, v.view i = some (g i)) :
    ∃ w', loop v.size collectRound ([],w) = some (((List.range v.size).map g).eraseDups,w') ∧
      Kept v w' := by
  have hstep : ∀ i < v.size, ∀ st : List α × DataFrameVector α,
      st.1 = ((List.range i).map g).eraseDups ∧ Kept v st.2 → ∃ st', collectRound i st = some st' ∧
      st'.1 = ((List.range (i+1)).map g).eraseDups ∧ Kept v st'.2 := by
    rintro i h ⟨seen,u⟩ ⟨rfl,hu⟩
    obtain ⟨u1,hu1,hku1⟩ := hu.read hv h
    obtain ⟨u2,hu2,hku2⟩ := hku1.advance i
    refine ⟨_,by simp only [collectRound,hu1,hg i h,hu2,Option.bind_eq_bind,Option.bind_some]; rfl,
      ?_,hku2⟩
    simp only [List.range_succ,List.map_append,List.map_cons,List.map_nil]
    by_cases hx : g i ∈ (List.range i).map g
    · rw [eraseDups_snoc_of_mem hx,if_pos (List.mem_eraseDups.mpr hx)]
    · rw [eraseDups_snoc_of_notMem hx,if_neg (List.mem_eraseDups.not.mpr hx)]
  obtain ⟨⟨seen,u⟩,hrun,hseen,hu⟩ := loop_total (s := (([] : List α),w))
    (fun i st => st.1 = ((List.range i).map g).eraseDups ∧ Kept v st.2) ⟨by simp,hw⟩ hstep
  simp only at hseen
  exact ⟨u,by rw [hrun,hseen],hu⟩

theorem uniqueLocally_spec [ValueInit α] (ho : HashOrder α) (hv : InStep v) (hn : 0 < v.size)
    (hg : ∀ i < v.size, v.view i = some (g i)) :
    ∃ l st, v.getColUniqueValuesLocally al ho = some (l,st) ∧
      l.contents.Perm (((List.range v.size).map g).eraseDups.map some) := by
  obtain ⟨w,hbegin,hw⟩ := cfbegin_spec hv hn
  obtain ⟨w',hcollect,hw'⟩ := collect_spec hv hw hg
  set L := ((List.range v.size).map g).eraseDups with hL
  have hLpos : 0 < L.length := by
    apply List.length_pos_of_mem (a := g 0)
    rw [hL,List.mem_eraseDups]
    exact List.mem_map.mpr ⟨0,List.mem_range.mpr hn,rfl⟩
  obtain ⟨hret,hrsize⟩ := new_resize_spec (α := α) al w'.layout L.length
  obtain ⟨ret,hrbegin,htarget,_⟩ := fbegin_spec hret (by rwa [hrsize])
  rw [hrsize] at htarget
  have hstep : ∀ i < L.length, ∀ u : DataFrameVector α,
      Target u L.length ∧ (∀ j < i, u.view j = (ho.order L)[j]?) →
      ∃ u', fillRound (ho.order L) i u = some u' ∧ Target u' L.length ∧
        ∀ j < i+1, u'.view j = (ho.order L)[j]? := by
    rintro i h u ⟨ht,hview⟩
    obtain ⟨u1,u2,hu1,hu2,ht2,hview2⟩ := ht.emit h (ho.order L)[i]?
    refine ⟨u2,by simp [fillRound,hu1,hu2],ht2,fun j hj => ?_⟩
    rw [hview2]
    split
    · rename_i heq
      rw [heq]
    · exact hview j (by omega)
  obtain ⟨l,hrun,ht,hview⟩ := loop_total (s := ret)
    (fun i u => Target u L.length ∧ ∀ j < i, u.view j = (ho.order L)[j]?) ⟨htarget,by omega⟩ hstep
  refine ⟨l,w',?_,?_⟩
  · simp only [getColUniqueValuesLocally,hbegin,hw.size,hcollect,hrbegin,hrun,Option.bind_eq_bind,
      Option.bind_some]
  · have hlist : l.contents = (ho.order L).map some := by
      apply List.ext_getElem?
      intro j
      rw [contents,ht.size,List.getElem?_map,List.getElem?_map]
      by_cases hj : j < L.length
      · have hj' : j < (ho.order L).length := by rwa [(ho.perm L).length_eq]
        rw [List.getElem?_range hj,Option.map_some,hview j hj,List.getElem?_eq_getElem hj']
        rfl
      · rw [List.getElem?_eq_none (by simpa using hj),
          List.getElem?_eq_none (by rw [(ho.perm L).length_eq]; omega)]
        rfl
    rw [hlist]
    exact (ho.perm L).map some

end Unique
/-- A permutation index vector sends the positions to each other one to one. -/
theorem permutation_indices {idx : DataFrameVector ℕ}
    (h : idx.contents.Perm ((List.range idx.size).map some)) :
    ∃ k : ℕ → ℕ, (∀ i < idx.size, idx.view i = some (k i)) ∧ (∀ i < idx.size, k i < idx.size) ∧
      (∀ i < idx.size, ∀ j < idx.size, k i = k j → i = j) ∧
      ∀ m < idx.size, ∃ i < idx.size, k i = m := by
  have hex : ∀ i, ∃ m, i < idx.size → idx.view i = some m ∧ m < idx.size := by
    intro i
    by_cases hi : i < idx.size
    · have hmem : idx.view i ∈ (List.range idx.size).map some :=
        h.mem_iff.mp (List.mem_map.mpr ⟨i,List.mem_range.mpr hi,rfl⟩)
      obtain ⟨m,hm,heq⟩ := List.mem_map.mp hmem
      exact ⟨m,fun _ => ⟨heq.symm,List.mem_range.mp hm⟩⟩
    · exact ⟨0,fun hlt => absurd hlt hi⟩
  choose k hk using hex
  have hnodup : idx.contents.Nodup := h.nodup_iff.mpr
    (List.nodup_range.map (Option.some_injective ℕ))
  refine ⟨k,fun i hi => (hk i hi).1,fun i hi => (hk i hi).2,fun i hi j hj heq => ?_,fun m hm => ?_⟩
  · refine List.inj_on_of_nodup_map hnodup (List.mem_range.mpr hi) (List.mem_range.mpr hj) ?_
    rw [(hk i hi).1,(hk j hj).1,heq]
  · have hmem : some m ∈ idx.contents :=
      h.mem_iff.mpr (List.mem_map.mpr ⟨m,List.mem_range.mpr hm,rfl⟩)
    obtain ⟨i,hi,heq⟩ := List.mem_map.mp hmem
    have hi := List.mem_range.mp hi
    exact ⟨i,hi,Option.some.inj ((hk i hi).1.symm.trans heq)⟩

/-- For columns of careful runs the offloaded operations give what the local ones
give: copies for every index vector with an element, shuffles for every
permutation, and each distinct value once. -/
theorem offloaded_agree (al : Allocator) {α : Type} [ValueInit α] [DecidableEq α]
    (ho : HashOrder α) (v : DataFrameVector α) (hv : Reachable al Careful v) (hn : 0 < v.size)
    (hw : ∀ j < v.size, ∃ x, v.view j = some x) :
    (∀ idx : DataFrameVector ℕ, Reachable al Careful idx →
      (∀ i < idx.size, ∃ k < v.size, idx.view i = some k) →
      ((∃ r l st st', v.copyDataByIdxRemotely al idx = some (r,st) ∧
        v.copyDataByIdxLocally al idx = some (l,st') ∧ r.contents = l.contents) ↔ 0 < idx.size)) ∧
    (∀ idx : DataFrameVector ℕ, Reachable al Careful idx → idx.size = v.size →
      idx.contents.Perm ((List.range idx.size).map some) →
      ∃ r l st st', v.shuffleDataByIdxRemotely al idx = some (r,st) ∧
        v.shuffleDataByIdxLocally al idx = some (l,st') ∧ r.contents = l.contents) ∧
    ∃ r l st st', v.getColUniqueValuesRemotely al = some (r,st) ∧
      v.getColUniqueValuesLocally al ho = some (l,st') ∧ r.contents = v.contents.eraseDups ∧
      l.contents.Perm r.contents ∧ r.contents.Nodup ∧ ∀ x, x ∈ r.contents ↔ x ∈ v.contents := by
  have hin := hv.inStep
  refine ⟨fun idx hidx hk => ?_,fun idx hidx hsize hperm => ?_,?_⟩
  · constructor
    · rintro ⟨r,l,st,st',_,hlocal,_⟩
      by_contra hzero
      rw [copyLocally_empty al (by omega)] at hlocal
      cases hlocal
    · intro hpos
      have hex : ∀ i, ∃ k, i < idx.size → k < v.size ∧ idx.view i = some k := by
        intro i
        by_cases hi : i < idx.size
        · obtain ⟨k,hlt,heq⟩ := hk i hi
          exact ⟨k,fun _ => ⟨hlt,heq⟩⟩
        · exact ⟨0,fun hlt => absurd hlt hi⟩
      choose k hk using hex
      obtain ⟨r,st,hr,hrc⟩ := copyRemotely_spec al hin hidx.inStep (fun i hi => (hk i hi).2)
        (fun i hi => hw _ (hk i hi).1)
      obtain ⟨l,st',hl,hlc⟩ := copyLocally_spec al hin hidx.inStep hpos (fun i hi => (hk i hi).2)
        (fun i hi => (hk i hi).1)
      exact ⟨r,l,st,st',hr,hl,hrc.trans hlc.symm⟩
  · obtain ⟨k,hk,hlt,hinj,hsurj⟩ := permutation_indices hperm
    obtain ⟨r,st,hr,hrs,hrv⟩ :=
      shuffleRemotely_spec al hin hidx.inStep hsize hk hlt hinj hw
    obtain ⟨l,st',hl,hls,hlv⟩ :=
      shuffleLocally_spec al hidx.inStep hsize hk hlt hinj hin.addressable hin.held hn
    refine ⟨r,l,st,st',hr,hl,?_⟩
    rw [contents,contents,hrs,hls]
    apply List.map_congr_left
    intro m hm
    obtain ⟨i,hi,rfl⟩ := hsurj m (List.mem_range.mp hm)
    rw [hrv i hi,hlv i hi]
  · have hex : ∀ i, ∃ x : α, i < v.size → v.view i = some x := by
      intro i
      by_cases hi : i < v.size
      · obtain ⟨x,hx⟩ := hw i hi
        exact ⟨x,fun _ => hx⟩
      · obtain ⟨x,_⟩ := hw 0 hn
        exact ⟨x,fun hlt => absurd hlt hi⟩
    choose g hg using hex
    have hcontents : v.contents = ((List.range v.size).map g).map some := by
      rw [contents,List.map_map]
      apply List.map_congr_left
      intro i hi
      exact hg i (List.mem_range.mp hi)
    have herase : v.contents.eraseDups = ((List.range v.size).map g).eraseDups.map some := by
      rw [hcontents,eraseDups_map_some]
    obtain ⟨r,st,hr,hrc⟩ := uniqueRemotely_spec al hin hg
    obtain ⟨l,st',hl,hlc⟩ := uniqueLocally_spec al ho hin hn hg
    rw [← herase] at hrc hlc
    refine ⟨r,l,st,st',hr,hl,hrc,hrc ▸ hlc,hrc ▸ nodup_eraseDups _,fun x => ?_⟩
    rw [hrc,List.mem_eraseDups]

theorem offloaded_agree_evicted :
    ∃ v idx r l : DataFrameVector ℕ, Reachable .doubling Careful v ∧
      Reachable .doubling Careful idx ∧ v.contents = [some 5] ∧ idx.contents = [some 0] ∧
      (∃ st st', v.copyDataByIdxRemotely .doubling idx = some (r,st) ∧
        v.copyDataByIdxLocally .doubling idx = some (l,st')) ∧ r.contents = l.contents := by
  have hrun : (do
      let v ← runColumn .doubling Careful (.new (.ofWidth 8)) [ColumnOp.pushBack 5,.swapOut 0]
      let idx ← runColumn .doubling Careful (.new (.ofWidth 8)) [ColumnOp.pushBack 0]
      some (v.contents,idx.contents,v.size,idx.size)) = some ([some 5],[some 0],1,1) := by
    decide +kernel
  simp only [Option.bind_eq_bind,Option.bind_eq_some_iff,Option.some.injEq,Prod.mk.injEq] at hrun
  obtain ⟨v,hv,idx,hidx,hvc,hic,hvs,his⟩ := hrun
  have hreach : Reachable .doubling Careful v := .run (by simp [ColumnOp.operands]) (.new _) hv
  have hreachi : Reachable .doubling Careful idx := .run (by simp [ColumnOp.operands]) (.new _) hidx
  have hview : v.view 0 = some 5 := by simpa [contents,hvs] using hvc
  have hidx0 : idx.view 0 = some 0 := by simpa [contents,his] using hic
  have hw : ∀ j < v.size, ∃ x, v.view j = some x := by
    intro j hj
    rw [show j = 0 by omega]
    exact ⟨5,hview⟩
  have hagree := offloaded_agree .doubling ⟨id,fun _ => .refl _⟩ v hreach (by omega) hw
  obtain ⟨r,l,st,st',hr,hl,heq⟩ := (hagree.1 idx hreachi fun i hi => by
    rw [show i = 0 by omega]
    exact ⟨0,by omega,hidx0⟩).mpr (by omega)
  exact ⟨v,idx,r,l,hreach,hreachi,hvc,hic,⟨st,st',hr,hl⟩,heq⟩

/-- A copied column of one element has a server vector of that capacity. An
element appended to its chunk is there for the client only: a copy of it on the
server reads outside the vector. -/
theorem copied_then_appended :
    ∃ (v : DataFrameVector ℕ) (idx : DataFrameVector ℕ),
      Reachable .doubling (fun _ _ _ => True) v ∧ Reachable .doubling (fun _ _ _ => True) idx ∧
      v.contents = [some 5,some 6] ∧ idx.contents = [some 1] ∧
      v.copyDataByIdxRemotely .doubling idx = none ∧
      ∃ l st, v.copyDataByIdxLocally .doubling idx = some (l,st) ∧ l.contents = [some 6] := by
  let ok : ∀ α : Type, DataFrameVector α → ColumnOp α → Prop := fun _ _ _ => True
  let column (x : ℕ) := runColumn .doubling ok (.new (.ofWidth 8)) [ColumnOp.pushBack x]
  have hrun : (do
      let v₀ ← column 5
      let idx₀ ← column 0
      let (r,_) ← v₀.copyDataByIdxRemotely .doubling idx₀
      let v ← runColumn .doubling ok r [.pushBack 6]
      let idx ← column 1
      let (l,_) ← v.copyDataByIdxLocally .doubling idx
      some (v.contents,idx.contents,(v.copyDataByIdxRemotely .doubling idx).isNone,l.contents)) =
      some ([some 5,some 6],[some 1],true,[some 6]) := by
    decide +kernel
  simp only [Option.bind_eq_bind,Option.bind_eq_some_iff,Option.some.injEq,Prod.mk.injEq] at hrun
  obtain ⟨v₀,hv₀,idx₀,hidx₀,⟨r,st₀⟩,hr,v,hv,idx,hidx,⟨l,st⟩,hl,hvc,hic,hnone,hlc⟩ := hrun
  have hcolumn {x : ℕ} {w : DataFrameVector ℕ} (hw : column x = some w) :
      Reachable .doubling ok w := .run (by simp [ColumnOp.operands]) (.new _) hw
  have hreach : Reachable .doubling ok v :=
    .run (by simp [ColumnOp.operands]) (.copied (hcolumn hv₀) (hcolumn hidx₀) hr) hv
  exact ⟨v,idx,hreach,hcolumn hidx,hvc,hic,Option.isNone_iff_eq_none.mp hnone,l,st,hl,hlc⟩

end FarMemory.DataFrame
