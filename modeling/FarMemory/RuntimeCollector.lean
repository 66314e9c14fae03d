import FarMemory.RuntimeAccess

/-!
# A collector round keeps the invariant

Marking sets the evacuation bit of every pointer to an object in a picked region;
writing back retires each of those objects, either by copying it to fresh memory
or by making its pointers absent; recycling forgets the regions. The two walks
are folds over the objects of the picked regions, so a step lemma for one object
gives the phase by induction on the list, with the marked or retired set as the
part of the invariant that grows. The tasks of a full region visit each of its
objects exactly once.
-/
namespace FarMemory.RuntimeInvariant
open PointerMeta FarMemPtrMeta Regions RingLinks IntervalTiling ServerPtr PointerRuntime State

variable {s s' : State} {G : Ghost} {id : ℕ} {count farCount : ℕ} {a : ℕ} {G' : Ghost}

/-- The tasks of a full region visit the objects of its layout, in order. -/
theorem Layout.regionObjects (h : Layout count s G) {i : ℕ}
    (hi : i ∈ s.cache.usedRegions++s.cache.ntUsedRegions++s.fromRegions) :
    s.regionObjects i = (G.layout i).map fun b => s.cache.addr i b.1 := by
  obtain ⟨hi',hle,ht⟩ := h.wf.tiles i
  have hlen := ht.length_le
  have hlo := ht.le
  unfold State.regionObjects Region.boundaries
  refine strideWalk_split ?_ (h.wf.large i) ?_ (h.wf.closed i hi)
  · intro b hb
    obtain ⟨o,ho,-,hs⟩ := h.object i b hb
    rw [stride,show s.cache.base+i*kSize+b.1 = s.cache.addr i b.1 from rfl,ho,← hs]
    rfl
  · unfold kObjectPos at *
    omega

def fromAddr (s : State) (a : ℕ) : Prop :=
  ∃ i ∈ s.fromRegions, ∃ off, off < kSize ∧ a = s.cache.addr i off

theorem Layout.mem_gcObjects (h : Layout count s G) (a : ℕ) :
    a ∈ s.gcObjects ↔ ∃ i ∈ s.fromRegions, ∃ b ∈ G.layout i, a = s.cache.addr i b.1 := by
  simp only [State.gcObjects,List.mem_flatMap]
  refine exists_congr fun i => and_congr_right fun hi => ?_
  rw [h.regionObjects (by simp [hi])]
  simp only [List.mem_map,eq_comm]

theorem Layout.fromAddr_of_mem (h : Layout count s G) (ha : a ∈ s.gcObjects) : fromAddr s a := by
  obtain ⟨i,hi,b,hb,he⟩ := (h.mem_gcObjects a).mp ha
  exact ⟨i,hi,b.1,h.wf.start_lt hb,he⟩

theorem Layout.nodup_gcObjects (h : Layout count s G) : s.gcObjects.Nodup := by
  have hn : s.fromRegions.Nodup := (List.nodup_append.mp h.wf.nodup).2.1
  refine List.nodup_flatMap.mpr ⟨?_,?_⟩
  · intro i hi
    rw [h.regionObjects (by simp [hi])]
    obtain ⟨hi',-,ht⟩ := h.wf.tiles i
    have hm : ((G.layout i).map fun b => s.cache.addr i b.1) =
        ((G.layout i).map Prod.fst).map (s.cache.addr i) := by simp
    rw [hm]
    refine ht.nodup.map ?_
    intro x y hxy
    unfold Manager.addr at hxy
    omega
  · refine (List.Pairwise.and_mem.mp hn).imp ?_
    rintro i j ⟨hi,hj,hne⟩
    rw [Function.onFun,h.regionObjects (by simp [hi]),h.regionObjects (by simp [hj])]
    intro a ha hb
    obtain ⟨b,hb',rfl⟩ := List.mem_map.mp ha
    obtain ⟨c,hc,he⟩ := List.mem_map.mp hb
    exact hne (h.wf.block_inj hc hb' he).1.symm

/-- Marks and retirement may change where no live object is. -/
theorem Inv.reghost (h : Inv count farCount s G) {M D : Set ℕ}
    (hlive : ∀ x o, s.heap x = some o → o.isFreed = false → x ∉ G.retired →
      (x ∈ M ↔ x ∈ G.marked) ∧ x ∉ D)
    (hsub : G.retired ⊆ D) (hDM : D ⊆ M) (hM : ∀ x ∈ M, fromAddr s x) :
    Inv count farCount s {G with marked := M, retired := D} := by
  refine ⟨h.layout.inPlace rfl rfl rfl hM hDM fun _ => .inl rfl,h.far.same rfl rfl,
    ⟨?_,h.groups.member,h.groups.disjoint,?_⟩,h.numPtrs⟩
  · intro id hne
    refine (h.groups.group id hne).frame rfl (fun _ => List.Subset.refl _) rfl (fun _ _ => rfl) ?_
      (fun _ => rfl) rfl
    intro a o hl
    exact ⟨hl.object,hlive a o hl.object (h.local_isFreed hl) hl.current⟩
  · intro a o ho hf hr
    exact h.groups.back a o ho hf fun hx => hr (hsub hx)

/-- What a walk over the picked regions leaves alone. -/
structure KeepsRegions (s s' : State) (G G' : Ghost) : Prop where
  ring : G'.ring = G.ring
  farLayout : G'.farLayout = G.farLayout
  value : G'.value = G.value
  fromRegions : s'.fromRegions = s.fromRegions
  phase : s'.phase = s.phase
  base : s'.cache.base = s.cache.base
  layout : ∀ i ∈ s.fromRegions, G'.layout i = G.layout i

theorem KeepsRegions.trans {s'' : State} {G'' : Ghost} (h : KeepsRegions s s' G G')
    (h' : KeepsRegions s' s'' G' G'') : KeepsRegions s s'' G G'' :=
  ⟨h'.ring.trans h.ring,h'.farLayout.trans h.farLayout,h'.value.trans h.value,
    h'.fromRegions.trans h.fromRegions,h'.phase.trans h.phase,h'.base.trans h.base,
    fun i hi => (h'.layout i (h.fromRegions ▸ hi)).trans (h.layout i hi)⟩

theorem KeepsRegions.fromAddr (h : KeepsRegions s s' G G') (ha : fromAddr s a) :
    fromAddr s' a := by
  obtain ⟨i,hi,off,hoff,he⟩ := ha
  exact ⟨i,h.fromRegions ▸ hi,off,hoff,by rw [he,Manager.addr_congr h.base]⟩

theorem Inv.markObject (h : Inv count farCount s G) (ha : fromAddr s a) (hr : G.retired = ∅) :
    Inv count farCount (s.markObject a) {G with marked := insert a G.marked} ∧
      KeepsRegions s (s.markObject a) G {G with marked := insert a G.marked} := by
  have hM : ∀ x ∈ insert a G.marked, RuntimeInvariant.fromAddr s x := by
    rintro x (rfl | hx)
    · exact ha
    · exact h.layout.marked x hx
  -- an address without a live object is marked in the ghost state only
  have hnone : (∀ o, s.heap a = some o → o.isFreed = true) →
      Inv count farCount s {G with marked := insert a G.marked} := by
    intro hdead
    refine h.reghost ?_ (fun _ hx => hx) (fun x hx => .inr (h.layout.retired hx)) hM
    intro x o ho hf hx
    have hne : x ≠ a := by
      rintro rfl
      rw [hdead o ho] at hf
      cases hf
    exact ⟨by simp [hne],hx⟩
  have hkeep : KeepsRegions s s G {G with marked := insert a G.marked} :=
    ⟨rfl,rfl,rfl,rfl,rfl,rfl,fun _ _ => rfl⟩
  unfold State.markObject
  cases ho : s.heap a with
  | none => exact ⟨hnone (by simp [ho]),hkeep⟩
  | some o =>
    cases hf : o.isFreed with
    | true =>
      simp only [hf,if_true]
      exact ⟨hnone fun o' ho' => by rw [ho] at ho'; cases ho'; exact hf,hkeep⟩
    | false =>
      simp only [hf,Bool.false_eq_true,if_false]
      obtain ⟨hp,hpr,haddr⟩ := h.groups.back a o ho hf (by simp [hr])
      obtain ⟨o',hl⟩ := h.groups.localOf hp hpr
      rw [haddr] at hl
      have hg := h.groups.group _ (Groups.ne_nil hp)
      have hsame : SameBut (s.setRemote s.remote) (s.mapMeta setEvacuation (s.members o.ptrAddr)) :=
        mapMeta_same (s := s) setEvacuation (s.members o.ptrAddr)
      have hmaps := mapMeta_maps (s := s) (f := setEvacuation) (hg.members hp) hg.nodup
      refine ⟨?_,⟨rfl,rfl,rfl,hsame.fromRegions,hsame.phase,congrArg Manager.base hsame.cache,
        fun _ _ => rfl⟩⟩
      refine h.rewords hl hsame hmaps.ptrs (hmaps.cells (by simp)) (fun _ _ _ => rfl)
        (fun x hx => by simp [hx]) (fun _ => .inr ha) (fun x hx => .inr (h.layout.retired hx)) ?_ ?_ ?_
      · intro q hq
        rw [hmaps.word q hq]
        simpa using ⟨(hl.words q hq).1,(hl.words q hq).2.1⟩
      · intro q hq
        rw [hmaps.word q hq,setEvacuation_isDirty]
        exact hl.length q hq
      · intro v hv hc
        refine (hl.value v hv).2 fun q hq => ?_
        have := hc q hq
        rwa [hmaps.word q hq,setEvacuation_isDirty] at this

theorem Inv.markObjects (l : List ℕ) : ∀ {s : State} {G : Ghost}, Inv count farCount s G →
    (∀ a ∈ l, fromAddr s a) → G.retired = ∅ →
    ∃ M, Inv count farCount (l.foldl State.markObject s) {G with marked := M} ∧
      KeepsRegions s (l.foldl State.markObject s) G {G with marked := M} ∧
      ∀ x, x ∈ M ↔ x ∈ G.marked ∨ x ∈ l := by
  induction l with
  | nil =>
    intro s G h _ _
    exact ⟨G.marked,h,⟨rfl,rfl,rfl,rfl,rfl,rfl,fun _ _ => rfl⟩,by simp⟩
  | cons a l ih =>
    intro s G h hl hr
    obtain ⟨h1,hk1⟩ := h.markObject (hl a (by simp)) hr
    obtain ⟨M,h2,hk2,hM⟩ := ih h1 (fun x hx => hk1.fromAddr (hl x (by simp [hx]))) hr
    refine ⟨M,h2,⟨hk2.ring,hk2.farLayout,hk2.value,hk2.fromRegions.trans hk1.fromRegions,
      hk2.phase.trans hk1.phase,hk2.base.trans hk1.base,fun _ _ => rfl⟩,?_⟩
    intro x
    rw [hM]
    simp only [Set.mem_insert_iff,List.mem_cons]
    tauto

theorem Layout.retire (h : Layout count s G) (hm : a ∈ G.marked) : insert a G.retired ⊆ G.marked := by
  rintro x (rfl | hx)
  · exact hm
  · exact h.retired hx

/-- The hot path of `swap_out`: the object is copied to fresh memory and the old
copy left behind. -/
theorem Inv.gcCopy (h : Inv count farCount s G) {a' : ℕ} {o : Object} {cache : Manager} {size i : ℕ}
    {b : ℕ × ℕ} {g : List ℕ} (hl : Local s G id (G.ring id) a o) (hm : a ∈ G.marked)
    (hg : g.Perm (G.ring id))
    (hal : s.cache.Allocated cache count G.layout s.fromRegions size a' i b) (hsize : o.size = size) :
    Inv count farCount (((s.setCache cache).setObject a' o).mapMeta (fun m => m.gcCopy a') g)
      {G with layout := Function.update G.layout i (G.layout i++[b]), retired := insert a G.retired} := by
  obtain ⟨hnone,-,-,haddr⟩ := h.layout.alloc_fresh hal
  have hne : a ≠ a' := fun hx => by have := hl.object; rw [hx,hnone] at this; cases this
  have hsame := mapMeta_same (s := (s.setCache cache).setObject a' o) (fun m => m.gcCopy a') g
  have hmaps := mapMeta_maps (s := (s.setCache cache).setObject a' o) (f := fun m => m.gcCopy a') hg
    (h.groups.group id (Groups.ne_nil hl.owner)).nodup
  refine h.relocate (f := fun m => m.gcCopy a') hl hal hsize
    ⟨hsame.numPtrs,rfl,hsame.cache,hsame.farMem,hsame.remote,hsame.fromRegions,hsame.phase⟩
    ⟨hmaps.word,hmaps.ptrs,hmaps.next⟩ (by simp) (by simp) ?_ (by rw [hsame.heap,setObject_heap_same]) ?_
    ⟨⟨o,?_,h.layout.ok hl.object,rfl,.inr (.inl rfl)⟩,fun x hx => by simp [hx],h.layout.retire hm⟩
  · intro m hpr
    exact ⟨by rw [gcCopy_isPresent,hpr],gcCopy_getObjectAddr _ _ haddr,by simp⟩
  · intro x hx _
    rw [hsame.heap,setObject_heap_of_ne _ hx,setCache_heap]
  · rw [hsame.heap,setObject_heap_of_ne _ hne,setCache_heap,hl.object]

/-- The cold path of `swap_out`: the remote copy is brought up to date if some
pointer is dirty, and all pointers become absent. -/
theorem Inv.gcEvict (h : Inv count farCount s G) {o : Object} {g : List ℕ}
    (hl : Local s G id (G.ring id) a o) (hm : a ∈ G.marked) (hg : g.Perm (G.ring id)) {dirty : Bool}
    (hd : dirty = g.any fun q => (s.word q).isDirty) :
    Inv count farCount (s.evict g dirty o) {G with retired := insert a G.retired} := by
  have hok := h.layout.ok hl.object
  obtain ⟨hself,hother⟩ := h.writeRemote hl o.idLen
  have hs : (if dirty then s.setRemote (writeObject s.remote o.objId o.idLen o.data) else s) =
      s.setRemote (if dirty then writeObject s.remote id o.idLen o.data else s.remote) := by
    cases dirty with
    | true => rw [if_pos rfl,if_pos rfl,hl.objId]
    | false => rfl
  have hremote : (∀ id', id' ≠ id → FarBlock s G id' (readObject s.remote id').length →
        readObject (if dirty then writeObject s.remote id o.idLen o.data else s.remote) id' =
          readObject s.remote id') ∧
      (readObject (if dirty then writeObject s.remote id o.idLen o.data else s.remote) id).length =
        o.dataLen ∧
      ∀ v, G.value id = some v →
        readObject (if dirty then writeObject s.remote id o.idLen o.data else s.remote) id = v := by
    cases dirty with
    | true =>
      refine ⟨hother,by rw [if_pos rfl,hself,hok.dataLen],fun v hv => ?_⟩
      rw [if_pos rfl,hself]
      exact (hl.value v hv).1
    | false =>
      have hclean : ∀ q ∈ G.ring id, (s.word q).isDirty = false := by
        intro q hq
        simpa using List.any_eq_false.mp hd.symm q (hg.mem_iff.mpr hq)
      exact ⟨fun _ _ _ => rfl,hl.length _ hl.owner (hclean _ hl.owner),
        fun v hv => (hl.value v hv).2 hclean⟩
  rw [State.evict,hs]
  generalize (if dirty then writeObject s.remote id o.idLen o.data else s.remote) = r at hremote
  obtain ⟨hothers,hlength,hvalue⟩ := hremote
  have hsame := mapMeta_same (s := s.setRemote r) (fun m => m.gcWb o.dsId o.size o.objId) g
  have hr : ((s.setRemote r).mapMeta (fun m => m.gcWb o.dsId o.size o.objId) g).remote = r := hsame.remote
  have hmaps := mapMeta_maps (s := s.setRemote r) (f := fun m => m.gcWb o.dsId o.size o.objId) hg
    (h.groups.group id (Groups.ne_nil hl.owner)).nodup
  exact h.evict hl ⟨hsame.numPtrs,rfl,hsame.cache,hsame.farMem,rfl,hsame.fromRegions,hsame.phase⟩
    ⟨hmaps.word,hmaps.ptrs,hmaps.next⟩ (fun x _ => by rw [hsame.heap]; rfl)
    ⟨⟨o,by rw [hsame.heap]; exact hl.object,hok,rfl,.inr (.inl rfl)⟩,fun x hx => by simp [hx],
      h.layout.retire hm⟩ (by rw [hr]; exact hothers) (by rw [hr]; exact hlength) (by rw [hr]; exact hvalue)

theorem evict_keeps (s : State) (g : List ℕ) (dirty : Bool) (o : Object) (G : Ghost) (D : Set ℕ) :
    KeepsRegions s (s.evict g dirty o) G {G with retired := D} := by
  have hsame := mapMeta_same (s := if dirty then
    s.setRemote (writeObject s.remote o.objId o.idLen o.data) else s)
    (fun m => m.gcWb o.dsId o.size o.objId) g
  refine ⟨rfl,rfl,rfl,hsame.fromRegions.trans ?_,hsame.phase.trans ?_,
    (congrArg Manager.base hsame.cache).trans ?_,fun _ _ => rfl⟩ <;> cases dirty <;> rfl

theorem Inv.writeBackObject (h : Inv count farCount s G) (core : ℕ → ℕ) (almostEmpty : ℕ → Bool)
    (hm : a ∈ G.marked) (hr : a ∉ G.retired) :
    ∃ L, Inv count farCount (writeBackObject core almostEmpty s a)
        {G with layout := L, retired := insert a G.retired} ∧
      KeepsRegions s (writeBackObject core almostEmpty s a) G
        {G with layout := L, retired := insert a G.retired} := by
  have hnone : (∀ o, s.heap a = some o → o.isFreed = true) →
      Inv count farCount s {G with retired := insert a G.retired} := by
    intro hdead
    refine h.reghost ?_ (fun x hx => .inr hx) (h.layout.retire hm) h.layout.marked
    intro x o ho hf hx
    have hne : x ≠ a := by
      rintro rfl
      rw [hdead o ho] at hf
      cases hf
    exact ⟨Iff.rfl,by simp [hne,hx]⟩
  have hkeep : KeepsRegions s s G {G with retired := insert a G.retired} :=
    ⟨rfl,rfl,rfl,rfl,rfl,rfl,fun _ _ => rfl⟩
  unfold State.writeBackObject
  cases ho : s.heap a with
  | none => exact ⟨G.layout,hnone (by simp [ho]),hkeep⟩
  | some o =>
    cases hf : o.isFreed with
    | true =>
      simp only [hf,if_true]
      exact ⟨G.layout,hnone fun o' ho' => by rw [ho] at ho'; cases ho'; exact hf,hkeep⟩
    | false =>
      simp only [hf,Bool.false_eq_true,if_false]
      obtain ⟨hp,hpr,haddr⟩ := h.groups.back a o ho hf hr
      obtain ⟨o',hl⟩ := h.groups.localOf hp hpr
      rw [haddr] at hl
      have hoo : o' = o := by
        have := hl.object
        rw [ho] at this
        cases this
        rfl
      subst hoo
      have hperm := (h.groups.group _ (Groups.ne_nil hp)).members hp
      have hev : (s.word o'.ptrAddr).isEvacuation = true := (hl.words _ hp).2.2.mpr hm
      have hok := h.layout.ok ho
      simp only [State.swapOut,hev,if_true]
      split
      · have hspec := Manager.allocate_spec h.layout.wf (core a) false hok.size_large hok.size_le
        rcases hal : s.cache.allocate (core a) false o'.size with ⟨_ | a',cache⟩
        · rw [hal] at hspec
          have hl' : Local (s.setCache cache) G o'.objId (G.ring o'.objId) a o' :=
            ⟨hl.object,hl.objId,hl.owner,hl.current,hl.far,hl.words,hl.length,hl.value⟩
          have hk : KeepsRegions s (s.setCache cache) G G :=
            ⟨rfl,rfl,rfl,rfl,rfl,hspec.2.1,fun _ _ => rfl⟩
          exact ⟨G.layout,(h.setCache hspec.1 hspec.2.1).gcEvict hl' hm hperm rfl,
            hk.trans (evict_keeps _ _ _ _ _ _)⟩
        · rw [hal] at hspec
          obtain ⟨i,b,hb⟩ := hspec
          have hsame := mapMeta_same (s := (s.setCache cache).setObject a' o')
            (fun m => m.gcCopy a') (s.members o'.ptrAddr)
          exact ⟨_,h.gcCopy hl hm hperm hb rfl,⟨rfl,rfl,rfl,hsame.fromRegions,hsame.phase,
            (congrArg Manager.base hsame.cache).trans hb.base,alloc_layout hb⟩⟩
      · exact ⟨G.layout,h.gcEvict hl hm hperm rfl,evict_keeps _ _ _ _ _ _⟩

theorem Inv.writeBackObjects (core : ℕ → ℕ) (almostEmpty : ℕ → Bool) (l : List ℕ) :
    ∀ {s : State} {G : Ghost}, Inv count farCount s G → l.Nodup → (∀ a ∈ l, a ∈ G.marked) →
    (∀ a ∈ l, a ∉ G.retired) →
    ∃ L D, Inv count farCount (l.foldl (State.writeBackObject core almostEmpty) s)
        {G with layout := L, retired := D} ∧
      KeepsRegions s (l.foldl (State.writeBackObject core almostEmpty) s) G {G with layout := L, retired := D} ∧
      ∀ x, x ∈ D ↔ x ∈ G.retired ∨ x ∈ l := by
  induction l with
  | nil =>
    intro s G h _ _ _
    exact ⟨G.layout,G.retired,h,⟨rfl,rfl,rfl,rfl,rfl,rfl,fun _ _ => rfl⟩,by simp⟩
  | cons a l ih =>
    intro s G h hd hm hr
    obtain ⟨ha,hd'⟩ := List.nodup_cons.mp hd
    obtain ⟨L1,h1,hk1⟩ := h.writeBackObject core almostEmpty (hm a (by simp)) (hr a (by simp))
    obtain ⟨L2,D,h2,hk2,hD⟩ := ih h1 hd' (fun x hx => hm x (by simp [hx])) (by
      intro x hx
      have hne : x ≠ a := fun he => ha (he ▸ hx)
      simpa [hne] using hr x (by simp [hx]))
    refine ⟨L2,D,h2,hk1.trans hk2,?_⟩
    intro x
    rw [hD]
    simp only [Set.mem_insert_iff,List.mem_cons]
    tauto

/-! ### The phases -/

/-- Between the phases, every object of the picked regions is marked, or already
retired. -/
def PhaseOk (s : State) (G : Ghost) : Prop :=
  match s.phase with
  | .idle => s.fromRegions = []
  | .marked => G.retired = ∅ ∧ ∀ i ∈ s.fromRegions, ∀ b ∈ G.layout i, s.cache.addr i b.1 ∈ G.marked
  | .writtenBack => ∀ i ∈ s.fromRegions, ∀ b ∈ G.layout i, s.cache.addr i b.1 ∈ G.retired

/-- A step that leaves the collector's regions alone keeps the phase. -/
theorem PhaseOk.regions (h : PhaseOk s G) (hphase : s'.phase = s.phase)
    (hfrom : s'.fromRegions = s.fromRegions) (hbase : s'.cache.base = s.cache.base)
    (hlayout : ∀ i ∈ s.fromRegions, G'.layout i = G.layout i) (hm : G'.marked = G.marked)
    (hr : G'.retired = G.retired) : PhaseOk s' G' := by
  unfold PhaseOk at *
  rw [hphase,hfrom]
  cases hph : s.phase with
  | idle => simpa [hph] using h
  | marked =>
    simp only [hph] at h ⊢
    refine ⟨by rw [hr]; exact h.1,fun i hi b hb => ?_⟩
    rw [hm,Manager.addr_congr hbase]
    exact h.2 i hi b (by rwa [hlayout i hi] at hb)
  | writtenBack =>
    simp only [hph] at h ⊢
    intro i hi b hb
    rw [hr,Manager.addr_congr hbase]
    exact h i hi b (by rwa [hlayout i hi] at hb)

theorem PhaseOk.keeps (h : PhaseOk s G) (hk : Keeps s s' G G') : PhaseOk s' G' :=
  h.regions hk.phase hk.fromRegions hk.base hk.layout hk.marked hk.retired

theorem Layout.marked_eq_empty (h : Layout count s G) (hf : s.fromRegions = []) :
    G.marked = ∅ ∧ G.retired = ∅ := by
  have hm : G.marked = ∅ := by
    refine Set.eq_empty_iff_forall_notMem.mpr fun x hx => ?_
    obtain ⟨i,hi,-⟩ := h.marked x hx
    simp [hf] at hi
  exact ⟨hm,Set.subset_empty_iff.mp (hm ▸ h.retired)⟩

section
variable (h : Inv count farCount s G)
include h

theorem Inv.pick (hf : s.fromRegions = []) {regs : List ℕ} (hn : regs.Nodup)
    (hr : ∀ i ∈ regs, i ∈ s.cache.usedRegions++s.cache.ntUsedRegions) (phase : Phase) :
    Inv count farCount {s with cache := s.cache.pickFromRegions regs, fromRegions := regs, phase := phase}
      G := by
  obtain ⟨hm,-⟩ := h.layout.marked_eq_empty hf
  have hwf := h.layout.wf
  rw [hf] at hwf
  refine ⟨⟨Manager.pickFromRegions_spec hwf hn hr,h.layout.bound,h.layout.object,h.layout.block,?_,
    h.layout.retired⟩,h.far.same rfl rfl,h.groups.same rfl rfl rfl rfl rfl,h.numPtrs⟩
  intro a ha
  simp [hm] at ha

theorem Inv.gcMark (hph : PhaseOk s G) (hidle : s.phase = .idle)
    {regs : List ℕ} (hn : regs.Nodup)
    (hr : ∀ i ∈ regs, i ∈ s.cache.usedRegions++s.cache.ntUsedRegions) :
    ∃ M, Inv count farCount (s.gcMark regs) {G with marked := M} ∧
      PhaseOk (s.gcMark regs) {G with marked := M} := by
  have hf : s.fromRegions = [] := by
    simpa [PhaseOk,hidle] using hph
  obtain ⟨-,hret⟩ := h.layout.marked_eq_empty hf
  have hp := h.pick hf hn hr .marked
  generalize hs1 : ({s with cache := s.cache.pickFromRegions regs, fromRegions := regs, phase := .marked} :
    State) = s1 at hp
  have hgc : s.gcMark regs = s1.gcObjects.foldl State.markObject s1 := by rw [← hs1]; rfl
  obtain ⟨M,hM,hk,hmem⟩ := Inv.markObjects s1.gcObjects hp
    (fun a ha => hp.layout.fromAddr_of_mem ha) hret
  rw [hgc]
  refine ⟨M,hM,?_⟩
  have hphase : (s1.gcObjects.foldl State.markObject s1).phase = .marked := by
    rw [hk.phase,← hs1]
  simp only [PhaseOk,hphase]
  refine ⟨hret,fun i hi b hb => ?_⟩
  rw [hk.fromRegions] at hi
  rw [Manager.addr_congr hk.base,hmem]
  exact .inr ((hp.layout.mem_gcObjects _).mpr ⟨i,hi,b,hb,rfl⟩)

theorem Inv.setPhase (phase : Phase) :
    Inv count farCount {s with phase := phase} G :=
  ⟨h.layout.inPlace rfl rfl rfl h.layout.marked h.layout.retired fun _ => .inl rfl,h.far.same rfl rfl,
    h.groups.same rfl rfl rfl rfl rfl,h.numPtrs⟩

theorem Inv.gcWriteBack (hph : PhaseOk s G) (hmk : s.phase = .marked)
    (core : ℕ → ℕ) (almostEmpty : ℕ → Bool) :
    ∃ L D, Inv count farCount (s.gcWriteBack core almostEmpty) {G with layout := L, retired := D} ∧
      PhaseOk (s.gcWriteBack core almostEmpty) {G with layout := L, retired := D} := by
  obtain ⟨hret,hall⟩ : G.retired = ∅ ∧ ∀ i ∈ s.fromRegions, ∀ b ∈ G.layout i,
      s.cache.addr i b.1 ∈ G.marked := by simpa only [PhaseOk,hmk] using hph
  have h1 := h.setPhase .writtenBack
  have hmarked : ∀ a ∈ s.gcObjects, a ∈ G.marked := by
    intro a ha
    obtain ⟨i,hi,b,hb,rfl⟩ := (h.layout.mem_gcObjects a).mp ha
    exact hall i hi b hb
  obtain ⟨L,D,h2,hk,hD⟩ := Inv.writeBackObjects core almostEmpty s.gcObjects h1 h.layout.nodup_gcObjects
    hmarked (by simp [hret])
  refine ⟨L,D,h2,?_⟩
  have hphase : (s.gcWriteBack core almostEmpty).phase = .writtenBack := hk.phase
  simp only [PhaseOk,hphase]
  intro i hi b hb
  have hi' : i ∈ s.fromRegions := by
    rw [State.gcWriteBack,hk.fromRegions] at hi
    exact hi
  rw [State.gcWriteBack,Manager.addr_congr hk.base]
  refine (hD _).mpr (.inr ?_)
  have hb' : b ∈ G.layout i := by
    have := hk.layout i hi'
    rwa [← this]
  exact (h.layout.mem_gcObjects _).mpr ⟨i,hi',b,hb',rfl⟩

theorem Inv.gcRecycle (hph : PhaseOk s G) (hwb : s.phase = .writtenBack) :
    Inv count farCount s.gcRecycle {G with
      layout := fun i => if i ∈ s.fromRegions then [] else G.layout i, marked := ∅, retired := ∅} ∧
    PhaseOk s.gcRecycle {G with
      layout := fun i => if i ∈ s.fromRegions then [] else G.layout i, marked := ∅, retired := ∅} := by
  have hall : ∀ i ∈ s.fromRegions, ∀ b ∈ G.layout i, s.cache.addr i b.1 ∈ G.retired := by
    simpa only [PhaseOk,hwb] using hph
  have hbase : s.gcRecycle.cache.base = s.cache.base := Manager.pushFreeRegions_base _
  have hheap : ∀ {i b}, b ∈ G.layout i → i ∉ s.fromRegions →
      s.gcRecycle.heap (s.cache.addr i b.1) = s.heap (s.cache.addr i b.1) := by
    intro i b hb hi
    have hreg := Manager.region_of_addr (m := s.cache) (i := i) (h.layout.wf.start_lt hb)
    simp only [State.gcRecycle,hreg,hi,if_false]
  -- what is still there lies outside the recycled regions
  have hkept : ∀ {a o}, s.gcRecycle.heap a = some o → s.heap a = some o ∧
      ∃ i b, i ∉ s.fromRegions ∧ b ∈ G.layout i ∧ a = s.cache.addr i b.1 := by
    intro a o ho
    have ho' : (if (a-s.cache.base)/kSize ∈ s.fromRegions then none else s.heap a) = some o := ho
    split at ho'
    · cases ho'
    · rename_i hout
      obtain ⟨i,b,hb,rfl⟩ := h.layout.block a o ho'
      rw [Manager.region_of_addr (h.layout.wf.start_lt hb)] at hout
      exact ⟨ho',i,b,hout,hb,rfl⟩
  have hout : ∀ {i b}, b ∈ G.layout i → i ∉ s.fromRegions → s.cache.addr i b.1 ∉ G.marked := by
    intro i b hb hi hm
    obtain ⟨j,hj,off,hoff,he⟩ := h.layout.marked _ hm
    obtain ⟨rfl,-⟩ := Manager.addr_inj (h.layout.wf.start_lt hb) hoff he
    exact hi hj
  refine ⟨⟨⟨?_,?_,?_,?_,?_,?_⟩,h.far.same rfl rfl,
    ⟨?_,h.groups.member,h.groups.disjoint,?_⟩,h.numPtrs⟩,rfl⟩
  · exact Manager.pushFreeRegions_spec h.layout.wf
  · rw [hbase]
    exact h.layout.bound
  · intro i b hb
    by_cases hi : i ∈ s.fromRegions
    · simp [hi] at hb
    · simp only [hi,if_false] at hb
      rw [Manager.addr_congr hbase,hheap hb hi]
      exact h.layout.object i b hb
  · intro a o ho
    obtain ⟨-,i,b,hi,hb,rfl⟩ := hkept ho
    exact ⟨i,b,by simpa [hi] using hb,by rw [Manager.addr_congr hbase]⟩
  · exact fun a ha => absurd ha (Set.notMem_empty a)
  · exact Set.empty_subset _
  · intro id hne
    refine (h.groups.group id hne).frame rfl (fun _ => List.Subset.refl _) rfl (fun _ _ => rfl) ?_
      (fun _ => rfl) rfl
    intro a o hl
    obtain ⟨i,b,hb,rfl⟩ := h.layout.block a o hl.object
    have hi : i ∉ s.fromRegions := fun hi => hl.current (hall i hi b hb)
    exact ⟨by rw [hheap hb hi]; exact hl.object,by simpa using hout hb hi,Set.notMem_empty _⟩
  · intro a o ho hf _
    obtain ⟨ho',i,b,hi,hb,rfl⟩ := hkept ho
    exact h.groups.back _ o ho' hf fun hr => hout hb hi (h.layout.retired hr)

end

end FarMemory.RuntimeInvariant
