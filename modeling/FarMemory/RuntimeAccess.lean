import FarMemory.RuntimeInvariant

/-!
# Accesses keep the invariant

Swapping in, migrating an object off a marked region, dereferencing, flushing and
evacuating move the bytes of one id between the local cache and far memory. Each
of them keeps the invariant for the same rings and values. Besides that, each
lemma says what the access does to the metadata words of the group, which is all
that the operations built on it need.
-/
namespace FarMemory.RuntimeInvariant
open PointerMeta FarMemPtrMeta Regions RingLinks ServerPtr PointerRuntime State Function

variable {s s' : State} {G : Ghost} {id p : ℕ} {count farCount : ℕ} {o : Object} {D : Set ℕ} {a : ℕ}

theorem sizeFor_large (n : ℕ) : kHeaderSize < sizeFor n := by
  unfold sizeFor kVanillaPtrObjectIDSize
  omega

theorem ObjectOk.size_large (h : ObjectOk o) : kHeaderSize < o.size :=
  h.size ▸ sizeFor_large _

theorem ObjectOk.size_le (h : ObjectOk o) : o.size ≤ 65528 := h.size ▸ h.fits

theorem Inv.live (h : Inv count farCount s G) :
    ∀ id a o, Local s G id (G.ring id) a o → o.isFreed = false :=
  fun _ _ _ hl => h.local_isFreed hl

/-- The words of the pointers in `r` go through `f`. Every other cell stays, and so do all links. -/
structure Maps (f : FarMemPtrMeta → FarMemPtrMeta) (r : List ℕ) (s s' : State) : Prop where
  word : ∀ q ∈ r, s'.word q = f (s.word q)
  ptrs : ∀ q, q ∉ r → s'.ptrs q = s.ptrs q
  next : ∀ q, s'.nextPtr q = s.nextPtr q

section Maps
variable {f : FarMemPtrMeta → FarMemPtrMeta} {g r : List ℕ}

theorem Maps.of_ptrs (hg : g.Perm r)
    (h : ∀ q, s'.ptrs q = if q ∈ g then {s.ptrs q with word := f (s.word q)} else s.ptrs q) :
    Maps f r s s' := by
  refine ⟨fun q hq => ?_,fun q hq => ?_,fun q => ?_⟩
  · rw [State.word,h,if_pos (hg.mem_iff.mpr hq)]
  · rw [h,if_neg fun hm => hq (hg.mem_iff.mp hm)]
  · rw [nextPtr,h]
    split <;> rfl

theorem mapMeta_maps (hg : g.Perm r) (hr : r.Nodup) : Maps f r s (s.mapMeta f g) :=
  .of_ptrs hg (mapMeta_ptrs (hg.nodup_iff.mpr hr))

theorem Maps.cells (h : Maps f r s s') (hf : ∀ m, (f m).isShared = m.isShared) :
    ∀ q ∈ r, s'.nextPtr q = s.nextPtr q ∧ (s'.word q).isShared = (s.word q).isShared :=
  fun q hq => ⟨h.next q,by rw [h.word q hq,hf]⟩

theorem Maps.shared (h : Maps f r s s') (hf : ∀ m, (f m).isShared = m.isShared) (q : ℕ) :
    (s'.word q).isShared = (s.word q).isShared :=
  shared_of_cells h.ptrs (fun q hq => (h.cells hf q hq).2) q

end Maps

theorem Inv.swapIn (h : Inv count farCount s G) (hp : p ∈ G.ring id) (core : ℕ) (nt : Bool) {ok : Bool}
    (he : s.swapIn core nt p = (ok,s')) :
    ∃ G', Inv count farCount s' G' ∧ Keeps s s' G G' ∧
      ((s.word p).isPresent = true → ok = true ∧ s' = s) ∧
      (ok = false → s.cache.freeRegions = [] ∧ s'.ptrs = s.ptrs) ∧
      (ok = true → (s.word p).isPresent = false → ∀ q ∈ G.ring id,
        (s'.word q).isPresent = true ∧ (s'.word q).isEvacuation = false ∧
          (s'.word q).isDirty = false) := by
  unfold State.swapIn at he
  cases hpr : (s.word p).isPresent with
  | true =>
    simp only [hpr,if_true,Prod.mk.injEq] at he
    obtain ⟨rfl,rfl⟩ := he
    exact ⟨G,h,.refl _ _,fun _ => ⟨rfl,rfl⟩,by simp,by simp⟩
  | false =>
    have ha := h.groups.absentOf hp hpr
    have hg := h.groups.group id (Groups.ne_nil hp)
    obtain ⟨-,-,hid,hds,hsize⟩ := ha.words p hp
    have hspec := Manager.allocate_spec h.layout.wf core nt (sizeFor_large _) ha.fits
    simp only [hpr,Bool.false_eq_true,if_false,hid,hds,hsize] at he
    rcases hal : s.cache.allocate core nt (sizeFor (readObject s.remote id).length) with ⟨_ | a,cache⟩
    · rw [hal] at hspec
      simp only [hal,Prod.mk.injEq] at he
      obtain ⟨rfl,rfl⟩ := he
      exact ⟨G,h.setCache hspec.1 hspec.2.1,.setCache s G hspec.2.1,by simp,
        fun _ => ⟨hspec.2.2,rfl⟩,by simp⟩
    · rw [hal] at hspec
      simp only [hal,Prod.mk.injEq] at he
      obtain ⟨rfl,he⟩ := he
      obtain ⟨i,b,hb⟩ := hspec
      subst he
      have hperm := hg.members hp
      obtain ⟨hnone,hunmarked,hcurrent,haddr⟩ := h.layout.alloc_fresh hb
      obtain ⟨o',hheap,ho',hlast,hsame,hptrs⟩ := setPresentAll (hperm.nodup_iff.mpr hg.nodup)
        (setObject_heap_same (s := s.setCache cache) a ⟨0,(readObject s.remote id).length,
          kVanillaPtrDSID,kVanillaPtrObjectIDSize,readObject s.remote id,id⟩)
      have howner : o'.ptrAddr ∈ G.ring id := by
        have hne : s.members p ≠ [] := List.ne_nil_of_mem (hperm.mem_iff.mpr hp)
        have hin := hperm.mem_iff.mp (List.getLast_mem hne)
        have hlt := (hg.bound _ hin).trans_le h.numPtrs
        rwa [hlast hne,Nat.mod_eq_of_lt (by omega)]
      have hmaps := Maps.of_ptrs (s := s) (f := fun m => m.setPresent a) hperm hptrs
      generalize (s.members p).foldl (fun s q => s.setPresent a q)
        ((s.setCache cache).setObject a ⟨0,(readObject s.remote id).length,kVanillaPtrDSID,
          kVanillaPtrObjectIDSize,readObject s.remote id,id⟩) = s' at *
      have hok : ObjectOk o' := by
        rw [ho']
        exact ⟨rfl,rfl,rfl,ha.fits⟩
      have hlen : o'.dataLen = (readObject s.remote id).length := by rw [ho']
      have hdata : o'.data = readObject s.remote id := by rw [ho']
      have hheapOf : ∀ x, x ≠ a → s'.heap x = s.heap x := by
        intro x hx
        rw [hheap,update_of_ne hx,setObject_heap_of_ne _ hx]
        rfl
      have hheapSame : s'.heap a = some o' := by rw [hheap,update_self]
      refine ⟨{G with layout := update G.layout i (G.layout i++[b])},?_,
        ⟨rfl,rfl,rfl,rfl,rfl,hsame.numPtrs,hsame.farMem,hsame.fromRegions,hsame.phase,
          (congrArg Manager.base hsame.cache).trans hb.base,alloc_layout hb,hmaps.shared (by simp)⟩,
        by simp,by simp,fun _ _ q hq => by rw [hmaps.word q hq]; simp⟩
      have hfarBase : s'.farMem.base = s.farMem.base := by rw [hsame.farMem]; rfl
      refine ⟨?_,h.far.same hsame.farMem rfl,?_,by rw [hsame.numPtrs]; exact h.numPtrs⟩
      · exact h.layout.alloc hb hok (by rw [hok.size,hlen]) hsame.cache hsame.fromRegions rfl rfl
          h.layout.retired hheapSame fun x hx => .inl (hheapOf x hx)
      · refine h.groups.keep (Groups.ne_nil hp) hsame.numPtrs rfl hfarBase rfl (fun _ _ => rfl)
          hmaps.ptrs (hmaps.cells (by simp)) ?_ ?_ ?_ h.live
        · intro x o ho hf hr hne
          have hx : x ≠ a := fun hxa => by rw [hxa,hnone] at ho; cases ho
          exact ⟨by rw [hheapOf x hx]; exact ho,Iff.rfl,hr⟩
        · intro id' _ _
          rw [hsame.remote]
          rfl
        · refine .inr ⟨a,o',⟨hheapSame,by rw [ho'],howner,hcurrent,?_,?_,?_,?_⟩,?_⟩
          · rw [hlen]
            exact ha.far.same rfl hfarBase
          · intro q hq
            rw [hmaps.word q hq,setPresent_getObjectAddr _ _ haddr]
            simpa using hunmarked
          · intro q _ _
            rw [hsame.remote,hlen]
            rfl
          · intro v hv
            rw [hdata,hsame.remote]
            exact ⟨ha.value v hv,fun _ => ha.value v hv⟩
          · intro x o ho hf hr
            by_cases hx : x = a
            · subst hx
              rw [hheapSame] at ho
              cases ho
              exact .inr ⟨rfl,rfl⟩
            · rw [hheapOf x hx] at ho
              exact .inl ⟨ho,hr,h.groups.none_of_absent ha ho hf hr⟩

theorem ObjectOk.free (h : ObjectOk o) : ObjectOk o.free :=
  ⟨h.dataLen,h.dsId,h.idLen,h.fits⟩

/-- The object at `a` stops counting: it is freed, or retired by the collector. -/
structure Retires (s s' : State) (G : Ghost) (D : Set ℕ) (a : ℕ) (o : Object) : Prop where
  left : ∃ o', s'.heap a = some o' ∧ ObjectOk o' ∧ o'.size = o.size ∧ (o'.isFreed = true ∨ a ∈ D)
  others : ∀ x, x ≠ a → (x ∈ D ↔ x ∈ G.retired)
  marked : D ⊆ G.marked

theorem Retires.ne {x : ℕ} {o' : Object} (h : Retires s s' G D a o)
    (ho : s'.heap x = some o') (hf : o'.isFreed = false) (hx : x ∉ D) : x ≠ a := by
  rintro rfl
  obtain ⟨o1,ho1,-,-,hgone⟩ := h.left
  rw [ho1] at ho
  cases ho
  rcases hgone with hfreed | hin
  · rw [hfreed] at hf
    cases hf
  · exact hx hin

theorem Retires.sameSize (h : Retires s s' G D a o)
    (ho : s.heap a = some o) : SameSize s s' a := by
  obtain ⟨o1,ho1,hok,hsize,-⟩ := h.left
  exact .inr ⟨o,o1,ho,ho1,hok,hsize⟩

/-- The object of a group moves to fresh memory. -/
theorem Inv.relocate (h : Inv count farCount s G) {a' size i : ℕ} {cache : Manager}
    {b : ℕ × ℕ} {f : FarMemPtrMeta → FarMemPtrMeta} (hl : Local s G id (G.ring id) a o)
    (hal : s.cache.Allocated cache count G.layout s.fromRegions size a' i b) (hsize : o.size = size)
    (hsame : SameBut (s.setCache cache) {s' with heap := s.heap}) (hmaps : Maps f (G.ring id) s s')
    (hshared : ∀ m, (f m).isShared = m.isShared) (hdirty : ∀ m, (f m).isDirty = m.isDirty)
    (hwords : ∀ m : FarMemPtrMeta, m.isPresent = true →
      (f m).isPresent = true ∧ (f m).getObjectAddr = a' ∧ (f m).isEvacuation = false)
    (hnew : s'.heap a' = some o) (hof : ∀ x, x ≠ a' → x ≠ a → s'.heap x = s.heap x)
    (hret : Retires s s' G D a o) :
    Inv count farCount s' {G with layout := update G.layout i (G.layout i++[b]), retired := D} := by
  obtain ⟨hnone,hunmarked,hcurrent,-⟩ := h.layout.alloc_fresh hal
  have hne : a' ≠ a := fun hx => by rw [hx,hl.object] at hnone; cases hnone
  have hremote : s'.remote = s.remote := hsame.remote
  have hfarMem : s'.farMem = s.farMem := hsame.farMem
  refine ⟨?_,h.far.same hfarMem rfl,?_,hsame.numPtrs.trans_le h.numPtrs⟩
  · refine h.layout.alloc hal (h.layout.ok hl.object) hsize hsame.cache hsame.fromRegions rfl rfl
      hret.marked hnew fun x hx => ?_
    by_cases hxa : x = a
    · rw [hxa]
      exact hret.sameSize hl.object
    · exact .inl (hof x hx hxa)
  · refine h.groups.keep (Groups.ne_nil hl.owner) hsame.numPtrs rfl (by rw [hfarMem]) rfl (fun _ _ => rfl)
      hmaps.ptrs (hmaps.cells hshared) ?_ (fun _ _ _ => by rw [hremote]) (.inr ⟨a',o,⟨hnew,hl.objId,hl.owner,
        fun hD => hcurrent ((hret.others a' hne).mp hD),hl.far.same rfl
          (by rw [hfarMem]),?_,?_,?_⟩,?_⟩) h.live
    · intro x o' ho' hf hr hid
      have hx : x ≠ a' := fun he => by rw [he,hnone] at ho'; cases ho'
      have hxa := hl.ne_of_objId ho' hid
      exact ⟨by rw [hof x hx hxa,ho'],Iff.rfl,fun hD => hr ((hret.others x hxa).mp hD)⟩
    · intro q hq
      obtain ⟨hpr,haddr,hev⟩ := hwords _ (hl.words q hq).1
      rw [hmaps.word q hq,hev]
      exact ⟨hpr,haddr,by simpa using hunmarked⟩
    · intro q hq
      rw [hmaps.word q hq,hremote,hdirty]
      exact hl.length q hq
    · intro v hv
      refine ⟨(hl.value v hv).1,fun hc => ?_⟩
      rw [hremote]
      refine (hl.value v hv).2 fun q hq => ?_
      rw [← hdirty,← hmaps.word q hq]
      exact hc q hq
    · intro x o' ho' hf hr
      by_cases hx : x = a'
      · subst hx
        rw [hnew] at ho'
        cases ho'
        exact .inr ⟨rfl,rfl⟩
      · have hxa := hret.ne ho' hf hr
        have hr' : x ∉ G.retired := fun hxr => hr ((hret.others x hxa).mpr hxr)
        rw [hof x hx hxa] at ho'
        exact .inl ⟨ho',hr',fun hid => hxa (h.groups.unique hl ho' hf hr' hid).1⟩

/-- The object of a group in a marked region moves to fresh memory and the old
copy is freed. -/
theorem Inv.mutatorMigrateObject (h : Inv count farCount s G) (hp : p ∈ G.ring id) (core : ℕ) {ok : Bool}
    (he : s.mutatorMigrateObject core p = (ok,s')) :
    ∃ G', Inv count farCount s' G' ∧ Keeps s s' G G' ∧
      (ok = false → s'.ptrs = s.ptrs ∧ ((s.word p).isPresent = true → (s.word p).isEvacuation = true →
        s.cache.freeRegions = [])) ∧
      (ok = true → ∀ q ∈ G.ring id, (s'.word q).isPresent = true ∧
        (s'.word q).isEvacuation = false ∧ (s'.word q).isDirty = (s.word q).isDirty) := by
  unfold State.mutatorMigrateObject at he
  by_cases hpe : ((s.word p).isPresent && (s.word p).isEvacuation) = true
  swap
  · simp only [hpe,Bool.false_eq_true,if_false,Prod.mk.injEq] at he
    obtain ⟨rfl,rfl⟩ := he
    refine ⟨G,h,.refl _ _,fun _ => ⟨rfl,fun h1 h2 => ?_⟩,by simp⟩
    rw [h1,h2] at hpe
    exact absurd rfl hpe
  have hpr : (s.word p).isPresent = true := (Bool.and_eq_true_iff.mp hpe).1
  obtain ⟨o,hl⟩ := h.groups.localOf hp hpr
  have hg := h.groups.group id (Groups.ne_nil hp)
  have hok := h.layout.ok hl.object
  simp only [hpe,if_true,hl.object] at he
  have hspec := Manager.allocate_spec h.layout.wf core (s.isNt (s.word p))
    hok.size_large hok.size_le
  rcases hal : s.cache.allocate core (s.isNt (s.word p)) o.size with ⟨_ | a,cache⟩
  · rw [hal] at hspec
    simp only [hal,Prod.mk.injEq] at he
    obtain ⟨rfl,rfl⟩ := he
    exact ⟨G,h.setCache hspec.1 hspec.2.1,.setCache s G hspec.2.1,
      fun _ => ⟨rfl,fun _ _ => hspec.2.2⟩,by simp⟩
  rw [hal] at hspec
  simp only [hal,Prod.mk.injEq] at he
  obtain ⟨rfl,he⟩ := he
  obtain ⟨i,b,hb⟩ := hspec
  obtain ⟨hnone,-,-,haddr⟩ := h.layout.alloc_fresh hb
  generalize ha0 : (s.word p).getObjectAddr = a0 at hl he
  have hne : a0 ≠ a := fun hx => by have := hl.object; rw [hx,hnone] at this; cases this
  have hsame := mapMeta_same (s := (s.setCache cache).setObject a o) (fun m => m.mutatorCopy a)
    (s.members p)
  have hmaps : Maps (fun m => m.mutatorCopy a) (G.ring id) s s' := by
    have hm := mapMeta_maps (s := (s.setCache cache).setObject a o) (f := fun m => m.mutatorCopy a)
      (hg.members hp) hg.nodup
    rw [← he]
    exact ⟨hm.word,hm.ptrs,hm.next⟩
  have hsame' : SameBut (s.setCache cache) {s' with heap := s.heap} := by
    rw [← he]
    exact ⟨hsame.numPtrs,rfl,hsame.cache,hsame.farMem,hsame.remote,hsame.fromRegions,hsame.phase⟩
  have hheap0 : s'.heap a0 = some o.free := by
    rw [← he,modifyObject_heap_same,hsame.heap,setObject_heap_of_ne _ hne,setCache_heap,hl.object]
    rfl
  have hheapNew : s'.heap a = some o := by
    rw [← he,modifyObject_heap_of_ne _ hne.symm,hsame.heap,setObject_heap_same]
  have hheapOf : ∀ x, x ≠ a → x ≠ a0 → s'.heap x = s.heap x := by
    intro x hx hx0
    rw [← he,modifyObject_heap_of_ne _ hx0,hsame.heap,setObject_heap_of_ne _ hx,setCache_heap]
  refine ⟨{G with layout := update G.layout i (G.layout i++[b])},?_,
    ⟨rfl,rfl,rfl,rfl,rfl,hsame'.numPtrs,hsame'.farMem,hsame'.fromRegions,hsame'.phase,
      (congrArg Manager.base hsame'.cache).trans hb.base,alloc_layout hb,hmaps.shared (by simp)⟩,by simp,
    fun _ q hq => by rw [hmaps.word q hq,mutatorCopy_isPresent,(hl.words q hq).1]; simp⟩
  refine h.relocate hl hb rfl hsame' hmaps (by simp) (by simp) ?_ hheapNew hheapOf
    ⟨⟨_,hheap0,hok.free,rfl,.inl (Object.free_isFreed o)⟩,fun _ _ => Iff.rfl,h.layout.retired⟩
  intro m hm
  exact ⟨by rw [mutatorCopy_isPresent,hm],mutatorCopy_getObjectAddr _ _ haddr,by simp⟩

/-- The words of a local group change, and with them possibly the mark of its
object and its remote copy; the object stays where it is. -/
theorem Inv.rewords (h : Inv count farCount s G) {remote : ℕ → UInt8} {M : Set ℕ}
    (hl : Local s G id (G.ring id) a o) (hsame : SameBut (s.setRemote remote) s')
    (hptrs : ∀ q, q ∉ G.ring id → s'.ptrs q = s.ptrs q)
    (hcells : ∀ q ∈ G.ring id, s'.nextPtr q = s.nextPtr q ∧
      (s'.word q).isShared = (s.word q).isShared)
    (hremote : ∀ id', id' ≠ id → FarBlock s G id' (readObject s.remote id').length →
      readObject remote id' = readObject s.remote id')
    (hM : ∀ x, x ≠ a → (x ∈ M ↔ x ∈ G.marked)) (hfromM : a ∈ M → a ∈ G.marked ∨
      ∃ i ∈ s.fromRegions, ∃ off, off < kSize ∧ a = s.cache.addr i off)
    (hretired : G.retired ⊆ M)
    (hwords : ∀ q ∈ G.ring id, (s'.word q).isPresent = true ∧ (s'.word q).getObjectAddr = a ∧
      ((s'.word q).isEvacuation = true ↔ a ∈ M))
    (hlength : ∀ q ∈ G.ring id, (s'.word q).isDirty = false →
      (readObject remote id).length = o.dataLen)
    (hvalue : ∀ v, G.value id = some v → (∀ q ∈ G.ring id, (s'.word q).isDirty = false) →
      readObject remote id = v) : Inv count farCount s' {G with marked := M} := by
  have hfarBase : s'.farMem.base = s.farMem.base := by rw [hsame.farMem]; rfl
  refine ⟨h.layout.inPlace hsame.cache hsame.fromRegions rfl ?_ hretired fun x => .inl (by rw [hsame.heap]; rfl),
    h.far.same hsame.farMem rfl,?_,hsame.numPtrs.trans_le h.numPtrs⟩
  · intro x hx
    by_cases hxa : x = a
    · subst hxa
      exact (hfromM hx).elim (h.layout.marked x) fun hi => hi
    · exact h.layout.marked x ((hM x hxa).mp hx)
  · refine h.groups.keep (Groups.ne_nil hl.owner) hsame.numPtrs rfl hfarBase rfl (fun _ _ => rfl) hptrs
      hcells ?_ ?_ ?_ h.live
    · intro x o' ho' hf hr hne
      exact ⟨by rw [hsame.heap]; exact ho',hM x (hl.ne_of_objId ho' hne),hr⟩
    · rw [hsame.remote]
      exact hremote
    · refine .inr ⟨a,o,⟨by rw [hsame.heap]; exact hl.object,hl.objId,hl.owner,hl.current,
        hl.far.same rfl hfarBase,hwords,?_,?_⟩,?_⟩
      · rw [hsame.remote]
        exact hlength
      · rw [hsame.remote]
        exact fun v hv => ⟨(hl.value v hv).1,hvalue v hv⟩
      · intro x o' ho' hf hr
        rw [hsame.heap] at ho'
        by_cases hid : o'.objId = id
        · exact .inr (h.groups.unique hl ho' hf hr hid)
        · exact .inl ⟨ho',hr,hid⟩

theorem setMeta_same (p : ℕ) (m : FarMemPtrMeta) : SameBut (s.setRemote s.remote) (s.setMeta p m) :=
  ⟨rfl,rfl,rfl,rfl,rfl,rfl,rfl⟩

section
variable (h : Inv count farCount s G)
include h

/-- The end of the slow path: the hot counter moves, and a mutable access sets
the dirty bit. -/
theorem Inv.touch (hp : p ∈ G.ring id) (hpr : (s.word p).isPresent = true)
    (isMut : Bool) :
    Inv count farCount (s.setMeta p ((s.word p).touch isMut (s.word p).isShared)) G := by
  obtain ⟨o,hl⟩ := h.groups.localOf hp hpr
  have hword : ∀ q, ((s.setMeta p ((s.word p).touch isMut (s.word p).isShared)).word q) =
      if q = p then (s.word q).touch isMut (s.word q).isShared else s.word q := by
    intro q
    by_cases hq : q = p
    · subst hq
      simp
    · rw [setMeta_word_of_ne _ hq,if_neg hq]
  have hdirty : ∀ q, ((s.setMeta p ((s.word p).touch isMut (s.word p).isShared)).word q).isDirty =
      false → (s.word q).isDirty = false := by
    intro q hq
    rw [hword] at hq
    split at hq
    · rw [touch_isDirty,Bool.or_eq_false_iff] at hq
      exact hq.2
    · exact hq
  refine h.rewords hl (setMeta_same p _) ?_ ?_ (fun _ _ _ => rfl) (fun _ _ => Iff.rfl) (fun hm => .inl hm)
    h.layout.retired ?_ ?_ ?_
  · intro q hq
    have hne : q ≠ p := fun he => hq (he ▸ hp)
    rw [setMeta_ptrs,if_neg hne]
  · intro q hq
    rw [setMeta_nextPtr,hword]
    refine ⟨rfl,?_⟩
    split
    · exact touch_isShared _ isMut
    · rfl
  · intro q hq
    rw [hword]
    split
    · rw [touch_isPresent _ isMut (hl.words q hq).1,touch_getObjectAddr,touch_isEvacuation]
      exact ⟨rfl,(hl.words q hq).2⟩
    · exact hl.words q hq
  · intro q hq hd
    exact hl.length q hq (hdirty q hd)
  · intro v hv hc
    exact (hl.value v hv).2 fun q hq => hdirty q (hc q hq)

/-- A present pointer to an unmarked object is dereferenced at once, and its word
is left as the access wants it. -/
theorem Inv.derefLoop_ready (hp : p ∈ G.ring id) (core fuel : ℕ)
    (isMut nt : Bool) (hpr : (s.word p).isPresent = true) (hev : (s.word p).isEvacuation = false)
    {r : Deref} (he : derefLoop core isMut nt (fuel+1) s p = (r,s')) :
    Inv count farCount s' G ∧ Keeps s s' G G ∧ r = .addr (s.word p).getObjectDataAddr ∧
      (s'.word p).isPresent = true ∧ (s'.word p).getObjectAddr = (s.word p).getObjectAddr ∧
      ∀ q, (s'.word q).isDirty = (decide (q = p) && isMut || (s.word q).isDirty) := by
  rw [derefLoop] at he
  simp only [slow_test,hpr,hev,Bool.not_true,Bool.or_false,Bool.false_eq_true,if_false] at he
  split at he
  · cases he
    refine ⟨h.touch hp hpr isMut,⟨rfl,rfl,rfl,rfl,rfl,rfl,rfl,rfl,rfl,rfl,fun _ _ => rfl,?_⟩,rfl,?_,?_,?_⟩
    · intro q
      by_cases hq : q = p
      · rw [hq,setMeta_word_same,touch_isShared]
      · rw [setMeta_word_of_ne _ hq]
    · rw [setMeta_word_same,touch_isPresent _ isMut hpr]
    · rw [setMeta_word_same,touch_getObjectAddr]
    · intro q
      by_cases hq : q = p
      · subst hq
        rw [setMeta_word_same,touch_isDirty]
        simp
      · rw [setMeta_word_of_ne _ hq]
        simp [hq]
  · rename_i hfast
    cases he
    refine ⟨h,.refl _ _,rfl,hpr,rfl,?_⟩
    intro q
    by_cases hq : q = p
    · subst hq
      rw [exceptions_test] at hfast
      cases isMut with
      | true =>
        simp only [Bool.not_eq_true,Bool.or_eq_false_iff,Bool.true_and,Bool.not_eq_false'] at hfast
        simp [hfast.2]
      | false => simp
    · simp [hq]

theorem Inv.deref (hp : p ∈ G.ring id) (core : ℕ) (isMut nt : Bool)
    {r : Deref} (he : s.deref core isMut nt p = (r,s')) :
    ∃ G', Inv count farCount s' G' ∧ Keeps s s' G G' ∧
      ((r = .wait ∧ s.cache.freeRegions = [] ∧ s'.ptrs = s.ptrs) ∨
        ∃ d, r = .addr d ∧ (s'.word p).isPresent = true ∧
          d-kHeaderSize = (s'.word p).getObjectAddr ∧
          ∀ q ∈ G.ring id, (s'.word q).isDirty =
            (decide (q = p) && isMut || (s.word p).isPresent && (s.word q).isDirty)) := by
  have hnull := (h.groups.group id (Groups.ne_nil hp)).notNull hp
  unfold State.deref at he
  cases hpr : (s.word p).isPresent with
  | false =>
    rw [derefLoop] at he
    simp only [exceptions_test,slow_test,present_test,hpr,hnull,Bool.not_false,Bool.true_or,
      Bool.or_true,if_true,Bool.false_eq_true,if_false] at he
    rcases hsw : s.swapIn core nt p with ⟨_ | _,s1⟩
    · obtain ⟨G1,h₁,hk1,-,hfree,-⟩ := h.swapIn hp core nt hsw
      simp only [hsw,Prod.mk.injEq] at he
      obtain ⟨rfl,rfl⟩ := he
      exact ⟨G1,h₁,hk1,.inl ⟨rfl,hfree rfl⟩⟩
    · obtain ⟨G1,h₁,hk1,-,-,hw⟩ := h.swapIn hp core nt hsw
      simp only [hsw] at he
      have hp1 : p ∈ G1.ring id := by rwa [hk1.ring]
      obtain ⟨hpr1,hev1,-⟩ := hw rfl hpr p hp
      obtain ⟨h₂,hk2,hr,hpr2,haddr,hdirty⟩ := h₁.derefLoop_ready hp1 core 0 isMut nt hpr1 hev1 he
      refine ⟨G1,h₂,hk1.trans hk2,.inr ⟨_,hr,hpr2,haddr.symm,?_⟩⟩
      intro q hq
      rw [hdirty,(hw rfl hpr q hq).2.2]
      simp
  | true =>
    cases hev : (s.word p).isEvacuation with
    | false =>
      obtain ⟨h₂,hk2,hr,hpr2,haddr,hdirty⟩ := h.derefLoop_ready hp core 1 isMut nt hpr hev he
      refine ⟨G,h₂,hk2,.inr ⟨_,hr,hpr2,haddr.symm,?_⟩⟩
      intro q _
      rw [hdirty]
      simp
    | true =>
      rw [derefLoop] at he
      simp only [exceptions_test,slow_test,present_test,hpr,hev,Bool.not_true,Bool.true_or,
        Bool.or_true,if_true,Bool.false_eq_true,if_false] at he
      rcases hmg : s.mutatorMigrateObject core p with ⟨_ | _,s1⟩
      · obtain ⟨G1,h₁,hk1,hno,-⟩ := h.mutatorMigrateObject hp core hmg
        simp only [hmg,Prod.mk.injEq] at he
        obtain ⟨rfl,rfl⟩ := he
        exact ⟨G1,h₁,hk1,.inl ⟨rfl,(hno rfl).2 hpr hev,(hno rfl).1⟩⟩
      · obtain ⟨G1,h₁,hk1,-,hw⟩ := h.mutatorMigrateObject hp core hmg
        simp only [hmg] at he
        have hp1 : p ∈ G1.ring id := by rwa [hk1.ring]
        obtain ⟨hpr1,hev1,-⟩ := hw rfl p hp
        obtain ⟨h₂,hk2,hr,hpr2,haddr,hdirty⟩ := h₁.derefLoop_ready hp1 core 0 isMut nt hpr1 hev1 he
        refine ⟨G1,h₂,hk1.trans hk2,.inr ⟨_,hr,hpr2,haddr.symm,?_⟩⟩
        intro q hq
        rw [hdirty,(hw rfl q hq).2.2]
        simp

/-- Writing the remote copy of one id does not disturb the others. -/
theorem Inv.writeRemote
    (hl : Local s G id (G.ring id) a o) (idLen : ℕ) :
    readObject (writeObject s.remote id idLen o.data) id = o.data ∧
      ∀ id', id' ≠ id → FarBlock s G id' (readObject s.remote id').length →
        readObject (writeObject s.remote id idLen o.data) id' = readObject s.remote id' := by
  have hok := h.layout.ok hl.object
  have hfits := hok.fits
  have hlen := hok.dataLen
  refine ⟨readObject_writeObject_self ?_,?_⟩
  · unfold sizeFor at hfits
    omega
  · intro id' hne hb
    refine readObject_writeObject_other (h.far.disjoint hl.far hb hne) ?_ ?_
    · unfold sizeFor
      omega
    · unfold sizeFor
      omega

theorem Inv.flush (hp : p ∈ G.ring id) :
    Inv count farCount (s.flush p) G ∧ Keeps s (s.flush p) G G ∧ (s.flush p).heap = s.heap ∧
      (∀ q, q ∉ G.ring id → (s.flush p).ptrs q = s.ptrs q) ∧
      ∀ q ∈ G.ring id, ((s.flush p).word q).isPresent = (s.word q).isPresent ∧
        ((s.flush p).word q).getObjectAddr = (s.word q).getObjectAddr ∧
        ((s.word p).isPresent = true → ((s.flush p).word p).isDirty = false) := by
  by_cases hpd : ((s.word p).isPresent && (s.word p).isDirty) = true
  swap
  · have he : s.flush p = s := by
      rw [State.flush,if_neg hpd]
    rw [he]
    refine ⟨h,.refl _ _,rfl,fun _ _ => rfl,fun q _ => ⟨rfl,rfl,fun hpr => ?_⟩⟩
    simpa [hpr] using hpd
  obtain ⟨hpr,-⟩ := Bool.and_eq_true_iff.mp hpd
  obtain ⟨o,hl⟩ := h.groups.localOf hp hpr
  have hg := h.groups.group id (Groups.ne_nil hp)
  obtain ⟨hself,hother⟩ := h.writeRemote hl kVanillaPtrObjectIDSize
  have he : s.flush p = (s.setRemote (writeObject s.remote id kVanillaPtrObjectIDSize o.data)).mapMeta
      clearDirty (s.members p) := by
    simp only [State.flush,if_pos hpd,hl.object,hl.objId]
  have hsame := mapMeta_same (s := s.setRemote (writeObject s.remote id kVanillaPtrObjectIDSize o.data))
    clearDirty (s.members p)
  have hmaps : Maps clearDirty (G.ring id) s (s.flush p) := by
    have hm := mapMeta_maps (s := s.setRemote (writeObject s.remote id kVanillaPtrObjectIDSize o.data))
      (f := clearDirty) (hg.members hp) hg.nodup
    rw [he]
    exact ⟨hm.word,hm.ptrs,hm.next⟩
  rw [← he] at hsame
  refine ⟨?_,⟨rfl,rfl,rfl,rfl,rfl,hsame.numPtrs,hsame.farMem,hsame.fromRegions,hsame.phase,
    congrArg Manager.base hsame.cache,fun _ _ => rfl,hmaps.shared (by simp)⟩,hsame.heap,
    hmaps.ptrs,fun q hq => ?_⟩
  · refine h.rewords hl hsame hmaps.ptrs (hmaps.cells (by simp)) hother (fun _ _ => Iff.rfl)
      (fun hm => .inl hm) h.layout.retired ?_ ?_ ?_
    · intro q hq
      rw [hmaps.word q hq]
      simpa using hl.words q hq
    · intro _ _ _
      rw [hself,(h.layout.ok hl.object).dataLen]
    · intro v hv _
      rw [hself]
      exact (hl.value v hv).1
  · rw [hmaps.word q hq,hmaps.word p hp]
    simp

end

/-- The value an id stands for changes with the bytes of its local object. -/
def Ghost.setValue (G : Ghost) (id : ℕ) (v : Option (List UInt8)) : Ghost :=
  {G with value := update G.value id v}

theorem Inv.setData (h : Inv count farCount s G) (hl : Local s G id (G.ring id) a o)
    {bytes : List UInt8} (hlen : bytes.length = o.dataLen)
    (hdirty : ∃ q ∈ G.ring id, (s.word q).isDirty = true) :
    Inv count farCount (s.setObject a {o with data := bytes}) (G.setValue id (some bytes)) := by
  have hok := h.layout.ok hl.object
  have hok' : ObjectOk {o with data := bytes} := ⟨hlen.symm,hok.dsId,hok.idLen,hok.fits⟩
  refine ⟨?_,h.far.same rfl rfl,?_,h.numPtrs⟩
  · exact h.layout.inPlace rfl rfl rfl h.layout.marked h.layout.retired
      (hl.sameSize (setObject_heap_same a _) (fun x hx => setObject_heap_of_ne _ hx) hok' rfl)
  · refine h.groups.keep (Groups.ne_nil hl.owner) rfl rfl rfl rfl ?_ (fun _ _ => rfl)
      (fun _ _ => ⟨rfl,rfl⟩) ?_ (fun _ _ _ => rfl) ?_ h.live
    · intro id' hne
      exact update_of_ne hne ..
    · intro x o' ho' hf hr hne
      exact ⟨by rw [setObject_heap_of_ne _ (hl.ne_of_objId ho' hne),ho'],Iff.rfl,hr⟩
    · refine .inr ⟨a,{o with data := bytes},⟨setObject_heap_same a _,hl.objId,hl.owner,hl.current,
        hl.far.same rfl rfl,hl.words,hl.length,?_⟩,?_⟩
      · intro v hv
        simp only [Ghost.setValue,update_self,Option.some.injEq] at hv
        refine ⟨hv,fun hc => ?_⟩
        obtain ⟨q,hq,hd⟩ := hdirty
        have := hc q hq
        rw [setObject_word] at this
        rw [hd] at this
        cases this
      · intro x o' ho' hf hr
        by_cases hx : x = a
        · subst hx
          rw [setObject_heap_same] at ho'
          cases ho'
          exact .inr ⟨rfl,rfl⟩
        · rw [setObject_heap_of_ne _ hx] at ho'
          refine .inl ⟨ho',hr,fun hid => hx ?_⟩
          exact (h.groups.unique hl ho' hf hr hid).1

/-- All pointers of a local group become absent. The old object is freed or left
to the collector. -/
theorem Inv.evict (h : Inv count farCount s G)
    (hl : Local s G id (G.ring id) a o)
    (hsame : SameBut (s.setRemote s'.remote) {s' with heap := s.heap})
    (hmaps : Maps (fun m => m.gcWb o.dsId o.size o.objId) (G.ring id) s s')
    (hheap : ∀ x, x ≠ a → s'.heap x = s.heap x) (hret : Retires s s' G D a o)
    (hremote : ∀ id', id' ≠ id → FarBlock s G id' (readObject s.remote id').length →
      readObject s'.remote id' = readObject s.remote id')
    (hlength : (readObject s'.remote id).length = o.dataLen)
    (hvalue : ∀ v, G.value id = some v → readObject s'.remote id = v) :
    Inv count farCount s' {G with retired := D} := by
  have hok := h.layout.ok hl.object
  have hfarMem : s'.farMem = s.farMem := hsame.farMem
  obtain ⟨hpos,hid⟩ := h.far.id_bounds hl.far
  have hds : kVanillaPtrDSID < 2^8 := by decide
  have hfit : sizeFor o.dataLen < 2^16 := hok.fits.trans_lt (by decide)
  rw [hok.size,hok.dsId,hl.objId] at hmaps
  refine ⟨?_,h.far.same hfarMem rfl,?_,hsame.numPtrs.trans_le h.numPtrs⟩
  · refine h.layout.inPlace hsame.cache hsame.fromRegions rfl h.layout.marked hret.marked fun x => ?_
    by_cases hxa : x = a
    · rw [hxa]
      exact hret.sameSize hl.object
    · exact .inl (hheap x hxa)
  · refine h.groups.keep (Groups.ne_nil hl.owner) hsame.numPtrs rfl (by rw [hfarMem]) rfl (fun _ _ => rfl)
      hmaps.ptrs (hmaps.cells fun m => gcWb_isShared _ _ _ _ hds hfit hid) ?_ hremote
      (.inl ⟨⟨?_,?_,?_,hvalue⟩,?_⟩) h.live
    · intro x o'' hx hf hr hne
      have hxa := hl.ne_of_objId hx hne
      exact ⟨by rw [hheap x hxa]; exact hx,Iff.rfl,fun hxD => hr ((hret.others x hxa).mp hxD)⟩
    · intro q hq
      rw [hmaps.word q hq,hlength]
      exact ⟨gcWb_isPresent _ _ _ _ hds hfit hid,gcWb_isNull _ _ _ _ hds hfit hid hpos,
        gcWb_getObjectId _ _ _ _ hds hfit hid,gcWb_getDsId _ _ _ _ hds hfit hid,
        gcWb_getObjectSize _ _ _ _ hds hfit hid⟩
    · rw [hlength]
      exact hl.far.same rfl (by rw [hfarMem])
    · rw [hlength]
      exact hok.fits
    · intro x o'' hx hf hr
      have hxa := hret.ne hx hf hr
      rw [hheap x hxa] at hx
      have hr' : x ∉ G.retired := fun hxr => hr ((hret.others x hxa).mpr hxr)
      exact ⟨hx,hr',fun hid' => hxa (h.groups.unique hl hx hf hr' hid').1⟩

/-- `evacuate` flushes first, so the remote copy is current when the local one goes. -/
theorem Inv.evacuate (h : Inv count farCount s G) (hp : G.ring id = [p]) :
    Inv count farCount (s.evacuate p) G ∧ Keeps s (s.evacuate p) G G := by
  have hmem : p ∈ G.ring id := by simp [hp]
  cases hpr : (s.word p).isPresent with
  | false =>
    have he : s.evacuate p = s := by simp [State.evacuate,hpr]
    rw [he]
    exact ⟨h,.refl _ _⟩
  | true =>
    obtain ⟨o,hl⟩ := h.groups.localOf hmem hpr
    obtain ⟨hf,hk,hheap,-,hwords⟩ := h.flush hmem
    obtain ⟨hpr',haddr,hclean⟩ := hwords p hmem
    obtain ⟨o1,hl1⟩ := hf.groups.localOf hmem (hpr'.trans hpr)
    rw [haddr] at hl1
    have hoo : o1 = o := by
      have := hl1.object
      rw [hheap,hl.object] at this
      cases this
      rfl
    subst hoo
    have hok := h.layout.ok hl.object
    have he : s.evacuate p = ((s.flush p).setMeta p (((s.flush p).word p).gcWb o1.dsId o1.size
        o1.objId)).modifyObject (s.word p).getObjectAddr Object.free := by
      simp only [State.evacuate,hpr,if_true,hl.object]
    have hG : {G with retired := G.retired} = G := rfl
    refine ⟨?_,?_⟩
    · rw [he,← hG]
      refine hf.evict hl1 ⟨rfl,rfl,rfl,rfl,rfl,rfl,rfl⟩ (.of_ptrs (by rw [hp]) fun q => ?_) ?_
        ⟨⟨o1.free,?_,hok.free,rfl,.inl (Object.free_isFreed _)⟩,fun _ _ => Iff.rfl,h.layout.retired⟩
        (fun _ _ _ => rfl) ?_ ?_
      · simp only [modifyObject_ptrs,setMeta_ptrs,List.mem_singleton]
        split
        · rename_i hq
          rw [hq]
        · rfl
      · intro x hx
        rw [modifyObject_heap_of_ne _ hx]
        rfl
      · rw [modifyObject_heap_same,setMeta_heap,hheap,hl.object]
        rfl
      · exact hl1.length p hmem (hclean hpr)
      · intro v hv
        refine (hl1.value v hv).2 ?_
        intro q hq
        rw [hp,List.mem_singleton] at hq
        rw [hq]
        exact hclean hpr
    · rw [he]
      refine hk.trans ⟨rfl,rfl,rfl,rfl,rfl,rfl,rfl,rfl,rfl,rfl,fun _ _ => rfl,fun q => ?_⟩
      obtain ⟨-,hid⟩ := h.far.id_bounds hl.far
      by_cases hq : q = p
      · rw [hq,modifyObject_word,setMeta_word_same,hok.size,hok.dsId,hl.objId]
        exact gcWb_isShared _ _ _ _ (by decide) (hok.fits.trans_lt (by decide)) hid
      · rw [modifyObject_word,setMeta_word_of_ne _ hq]

end FarMemory.RuntimeInvariant
