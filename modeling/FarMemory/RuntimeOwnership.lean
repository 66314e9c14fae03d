import FarMemory.RuntimeCollector

/-!
# Allocation, moves, copies and frees keep the invariant

These operations change which pointers belong to an id. Allocation starts a group
of one under a fresh id; a move puts one pointer in the place of another; a copy
adds a pointer to a ring and a free takes one out. The side conditions under which
a move or a copy keeps the invariant are part of the statements: the destination
must not belong to a ring of its own, and a shared source must be local.
-/
namespace FarMemory.RuntimeInvariant
open PointerMeta FarMemPtrMeta Regions RingLinks ServerPtr PointerRuntime State Function

variable {s s' : State} {G : Ghost} {id p : ℕ} {count farCount : ℕ} {bytes : List UInt8} {ok : Bool} {this other : ℕ}

theorem Group.far {g : List ℕ} (h : Group s G id g) : ∃ n, FarBlock s G id n := by
  rcases h.place with ha | ⟨a,o,hl⟩
  · exact ⟨_,ha.far⟩
  · exact ⟨_,hl.far⟩

section
variable (h : Inv count farCount s G)
include h

theorem Inv.fresh_id {farMem : Manager} {size j : ℕ} {c : ℕ × ℕ}
    (hal : s.farMem.Allocated farMem farCount G.farLayout [] size id j c) : G.ring id = [] := by
  by_contra hne
  obtain ⟨n,j',c',hc',hid,-⟩ := (h.groups.group id hne).far
  exact hal.fresh hc' hid.symm

theorem Inv.newGroup (shared : Bool) {cache farMem : Manager} {a i j size : ℕ}
    {b c : ℕ × ℕ} (hp : p < s.numPtrs)
    (hnull : (s.word p).isNull = true) (hsize : size = sizeFor bytes.length) (hfit : size ≤ 65528)
    (hal : s.cache.Allocated cache count G.layout s.fromRegions size a i b)
    (hfar : s.farMem.Allocated farMem farCount G.farLayout [] size id j c)
    (hheapA : s'.heap a = some ⟨p % 2^48,bytes.length,kVanillaPtrDSID,kVanillaPtrObjectIDSize,bytes,id⟩)
    (hheap : ∀ x, x ≠ a → s'.heap x = s.heap x) (hcache : s'.cache = cache) (hfarMem : s'.farMem = farMem)
    (hnum : s'.numPtrs = s.numPtrs) (hremote : s'.remote = s.remote)
    (hfrom : s'.fromRegions = s.fromRegions) (hptrs : ∀ q, q ≠ p → s'.ptrs q = s.ptrs q)
    (hword : s'.word p = construct shared a) (hnext : shared = true → s'.nextPtr p = p) :
    Inv count farCount s'
      {G with
        ring := update G.ring id [p]
        layout := update G.layout i (G.layout i++[b])
        farLayout := update G.farLayout j (G.farLayout j++[c])
        value := update G.value id (some bytes)} := by
  obtain ⟨hnone,hunmarked,hcurrent,haddr⟩ := h.layout.alloc_fresh hal
  have hring := h.fresh_id hfar
  have hmod : p % 2^48 = p := Nat.mod_eq_of_lt (by have := hp.trans_le h.numPtrs; omega)
  rw [hmod] at hheapA
  subst hsize
  have hok : ObjectOk ⟨p,bytes.length,kVanillaPtrDSID,kVanillaPtrObjectIDSize,bytes,id⟩ :=
    ⟨rfl,rfl,rfl,hfit⟩
  have hfarSub : ∀ j', G.farLayout j' ⊆ update G.farLayout j (G.farLayout j++[c]) j' := by
    intro j' x hx
    by_cases hj : j' = j
    · subst hj
      simp [hx]
    · simpa [hj] using hx
  refine ⟨?_,⟨by rw [hfarMem]; exact hfar.wf,by rw [hfarMem,hfar.base]; exact h.far.base,h.far.bound⟩,?_,
    by rw [hnum]; exact h.numPtrs⟩
  · exact h.layout.alloc hal hok hok.size hcache hfrom rfl rfl h.layout.retired hheapA
      fun x hx => .inl (hheap x hx)
  · refine h.groups.replace id [p] hnum hfarSub (by rw [hfarMem,hfar.base]) rfl
      (fun id' hne => update_of_ne hne ..) ?_ ?_ ?_ ?_ (fun _ _ _ => by rw [hremote]) ?_ ?_ h.live
    · intro q hq _
      exact hptrs q (by simpa using hq)
    · intro q hq
      rw [List.mem_singleton] at hq
      exact .inr (hq ▸ hnull)
    · intro q hq
      rw [hring] at hq
      cases hq
    · intro x o ho hf hr _
      have hx : x ≠ a := fun he => by rw [he,hnone] at ho; cases ho
      exact ⟨by rw [hheap x hx]; exact ho,Iff.rfl,hr⟩
    · intro _
      refine ⟨by simp,fun q hq => by rw [List.mem_singleton] at hq; rw [hnum,hq]; exact hp,?_,?_⟩
      · cases shared with
        | false => exact .inl ⟨p,rfl,by rw [hword,construct_isShared]⟩
        | true =>
          refine .inr ⟨hnext rfl,fun q hq => ?_⟩
          rw [List.mem_singleton] at hq
          rw [hq,hword,construct_isShared]
      · refine .inr ⟨a,_,hheapA,rfl,by simp,hcurrent,?_,?_,?_,?_⟩
        · refine ⟨j,c,by simp,?_,?_⟩
          · rw [hfarMem,Manager.addr_congr hfar.base]
            exact hfar.address
          · rw [hfar.reserved]
            exact (alignTo_bounds (by have := sizeFor_large bytes.length; omega) hfit).1
        · intro q hq
          rw [List.mem_singleton] at hq
          rw [hq,hword,construct_isPresent,construct_isEvacuation,construct_getObjectAddr shared haddr]
          exact ⟨rfl,rfl,by simpa using hunmarked⟩
        · intro q hq hd
          rw [List.mem_singleton] at hq
          rw [hq,hword,construct_isDirty] at hd
          cases hd
        · intro v hv
          simp only [update_self,Option.some.injEq] at hv
          refine ⟨hv,fun hc => ?_⟩
          have := hc p (by simp)
          rw [hword,construct_isDirty] at this
          cases this
    · intro x o ho hf hr
      by_cases hx : x = a
      · subst hx
        rw [hheapA] at ho
        cases ho
        refine .inr ⟨rfl,by simp,?_,?_⟩
        · rw [hword,construct_isPresent]
        · rw [hword,construct_getObjectAddr shared haddr]
      · rw [hheap x hx] at ho
        refine .inl ⟨ho,hr,fun hid => ?_⟩
        have hm := (h.groups.back x o ho hf hr).1
        rw [hid,hring] at hm
        cases hm

theorem Inv.allocations (core : ℕ) {n : ℕ} (hfit : sizeFor n ≤ 65528)
    {f : ℕ → Manager → ℕ → Manager → State}
    (he : (match s.cache.allocate core false (sizeFor n) with
      | (none,cache) => some (false,s.setCache cache)
      | (some a,cache) =>
        match s.farMem.allocate core false (sizeFor n) with
        | (none,_) => none
        | (some id,farMem) => some (true,f a cache id farMem)) = some (ok,s')) :
    (ok = false ∧ Inv count farCount s' G ∧ Keeps s s' G G ∧ s'.ptrs = s.ptrs) ∨
    (ok = true ∧ ∃ a cache i b id farMem j c, f a cache id farMem = s' ∧
      s.cache.Allocated cache count G.layout s.fromRegions (sizeFor n) a i b ∧
      s.farMem.Allocated farMem farCount G.farLayout [] (sizeFor n) id j c) := by
  have hcacheSpec := Manager.allocate_spec h.layout.wf core false (sizeFor_large n) hfit
  have hfarSpec := Manager.allocate_spec h.far.wf core false (sizeFor_large n) hfit
  rcases hal : s.cache.allocate core false (sizeFor n) with ⟨_ | a,cache⟩
  · rw [hal] at hcacheSpec
    simp only [hal,Option.some.injEq,Prod.mk.injEq] at he
    obtain ⟨rfl,rfl⟩ := he
    exact .inl ⟨rfl,h.setCache hcacheSpec.1 hcacheSpec.2.1,.setCache s G hcacheSpec.2.1,rfl⟩
  · rw [hal] at hcacheSpec
    obtain ⟨i,b,hb⟩ := hcacheSpec
    simp only [hal] at he
    rcases hfa : s.farMem.allocate core false (sizeFor n) with ⟨_ | id,farMem⟩
    · simp [hfa] at he
    · rw [hfa] at hfarSpec
      obtain ⟨j,c,hc⟩ := hfarSpec
      simp only [hfa,Option.some.injEq,Prod.mk.injEq] at he
      exact .inr ⟨he.1.symm,a,cache,i,b,id,farMem,j,c,he.2,hb,hc⟩

theorem Inv.allocate (core : ℕ) (shared : Bool)
    (hp : p < s.numPtrs) (hnull : (s.word p).isNull = true) (hfit : sizeFor bytes.length ≤ 65528)
    (he : s.allocate core shared p bytes.length bytes = some (ok,s')) :
    (ok = false ∧ Inv count farCount s' G ∧ Keeps s s' G G ∧ s'.ptrs = s.ptrs) ∨
    (ok = true ∧ ∃ id L F, G.ring id = [] ∧
      Inv count farCount s' {G with
        ring := update G.ring id [p], layout := L, farLayout := F,
        value := update G.value id (some bytes)} ∧
      s'.fromRegions = s.fromRegions ∧ s'.phase = s.phase ∧ s'.cache.base = s.cache.base ∧
      ∀ i ∈ s.fromRegions, L i = G.layout i) := by
  refine (h.allocations core hfit he).imp_right ?_
  rintro ⟨rfl,a,cache,i,b,id,farMem,j,c,he,hb,hc⟩
  generalize ho : (⟨p % 2^48,bytes.length,kVanillaPtrDSID,kVanillaPtrObjectIDSize,bytes,id⟩ : Object) =
    o at he
  have hfields : s'.heap = update s.heap a (some o) ∧ s'.cache = cache ∧
      s'.farMem = farMem ∧ s'.numPtrs = s.numPtrs ∧ s'.remote = s.remote ∧
      s'.fromRegions = s.fromRegions ∧ s'.phase = s.phase := by
    rw [← he]
    cases shared <;> exact ⟨rfl,rfl,rfl,rfl,rfl,rfl,rfl⟩
  obtain ⟨hheap,hcache,hfarMem,hnum,hremote,hfrom,hphase⟩ := hfields
  refine ⟨rfl,id,_,_,h.fresh_id hc,h.newGroup shared hp hnull rfl hfit hb hc
    (by rw [hheap,update_self,ho]) (fun x hx => by rw [hheap,update_of_ne hx])
    hcache hfarMem hnum hremote hfrom ?_ ?_ ?_,hfrom,hphase,by rw [hcache,hb.base],alloc_layout hb⟩
  · intro q hq
    rw [← he]
    cases shared <;> simp [setMeta_ptrs,setNextPtr_ptrs,hq]
  · rw [← he]
    cases shared <;> simp
  · rintro rfl
    rw [← he]
    simp

theorem Inv.forget (id : ℕ) : Inv count farCount s (G.setValue id none) := by
  refine ⟨h.layout.inPlace rfl rfl rfl h.layout.marked h.layout.retired fun _ => .inl rfl,h.far.same rfl rfl,
    ⟨?_,h.groups.member,h.groups.disjoint,h.groups.back⟩,h.numPtrs⟩
  intro id' hne
  by_cases hid : id' = id
  · subst hid
    have hg := h.groups.group id' hne
    have hnone : (G.setValue id' none).value id' = none := update_self ..
    refine ⟨hg.nodup,hg.bound,hg.kind,?_⟩
    rcases hg.place with ha | ⟨a,o,hl⟩
    · exact .inl ⟨ha.words,ha.far,ha.fits,fun v hv => by rw [hnone] at hv; cases hv⟩
    · exact .inr ⟨a,o,hl.object,hl.objId,hl.owner,hl.current,hl.far,hl.words,hl.length,
        fun v hv => by rw [hnone] at hv; cases hv⟩
  · exact (h.groups.group id' hne).frame rfl (fun _ => List.Subset.refl _) rfl (fun _ _ => rfl)
      (fun a o hl => ⟨hl.object,Iff.rfl,hl.current⟩) (fun _ => rfl) (update_of_ne hid ..)

/-- Cells of null pointers may change as long as they stay null. -/
theorem Inv.scratch (hsame : SameBut s s')
    (hptrs : ∀ q, s'.ptrs q = s.ptrs q ∨ (s.word q).isNull = true ∧ (s'.word q).isNull = true) :
    Inv count farCount s' G := by
  have hcell : ∀ {id q}, q ∈ G.ring id → s'.ptrs q = s.ptrs q := by
    intro id q hq
    refine (hptrs q).resolve_right fun hn => ?_
    rw [(h.groups.group id (Groups.ne_nil hq)).notNull hq] at hn
    cases hn.1
  refine ⟨h.layout.inPlace hsame.cache hsame.fromRegions rfl h.layout.marked h.layout.retired
      fun x => .inl (by rw [hsame.heap]),h.far.same hsame.farMem rfl,⟨?_,?_,h.groups.disjoint,?_⟩,
    hsame.numPtrs.trans_le h.numPtrs⟩
  · intro id hne
    exact (h.groups.group id hne).frame hsame.numPtrs (fun _ => List.Subset.refl _)
      (by rw [hsame.farMem]) (fun q hq => hcell hq)
      (fun a o hl => ⟨by rw [hsame.heap]; exact hl.object,Iff.rfl,hl.current⟩)
      (fun _ => by rw [hsame.remote]) rfl
  · intro q hq
    refine h.groups.member q ?_
    rcases hptrs q with he | hn
    · rwa [word,he] at hq
    · rw [hn.2] at hq
      cases hq
  · intro a o ho hf hr
    rw [hsame.heap] at ho
    obtain ⟨hm,hpr,ha⟩ := h.groups.back a o ho hf hr
    rw [word,hcell hm]
    exact ⟨hm,hpr,ha⟩

end

def Ghost.setRing (G : Ghost) (id : ℕ) (g : List ℕ) : Ghost :=
  {G with ring := update G.ring id g}

section
variable (h : Inv count farCount s G)
include h

/-- The pointers of an id become `g`. Their words are words of the old ones, and a local
object changes its back pointer at most: to one of them, or to none if there are none. -/
theorem Inv.regroup {g : List ℕ} (hsame : SameBut s {s' with heap := s.heap})
    (hptrs : ∀ q, q ∉ g → q ∉ G.ring id → s'.ptrs q = s.ptrs q)
    (hleft : ∀ q ∈ G.ring id, q ∉ g → (s'.word q).isNull = true)
    (hfresh : ∀ q ∈ g, q ∈ G.ring id ∨ (q < s.numPtrs ∧ (s.word q).isNull = true))
    (hsrc : ∀ q ∈ g, ∃ q' ∈ G.ring id, s'.word q = s.word q') (hnodup : g.Nodup)
    (hkind : g ≠ [] → (∃ q, g = [q] ∧ (s'.word q).isShared = false) ∨
      (Ring s'.nextPtr g ∧ ∀ q ∈ g, (s'.word q).isShared = true))
    (hobj : (Absent s G id (G.ring id) ∧ s'.heap = s.heap) ∨ ∃ a o r, Local s G id (G.ring id) a o ∧
      s'.heap a = some {o with ptrAddr := r} ∧ (∀ x, x ≠ a → s'.heap x = s.heap x) ∧
      ((g = [] ∧ ({o with ptrAddr := r} : Object).isFreed = true) ∨ (r ∈ g ∧ ∀ v, G.value id = some v →
        (∀ q ∈ g, (s'.word q).isDirty = false) → ∀ q ∈ G.ring id, (s.word q).isDirty = false))) :
    Inv count farCount s' (G.setRing id g) := by
  have hfarMem : s'.farMem = s.farMem := hsame.farMem
  have hremote : s'.remote = s.remote := hsame.remote
  have hgroup : g ≠ [] → (Absent s' (G.setRing id g) id g ∨ ∃ a o, Local s' (G.setRing id g) id g a o) →
      Group s' (G.setRing id g) id g := by
    refine fun hne hplace => ⟨hnodup,fun q hq => ?_,hkind hne,hplace⟩
    rw [show s'.numPtrs = s.numPtrs from hsame.numPtrs]
    exact (hfresh q hq).elim (fun hin => (h.groups.group id (Groups.ne_nil hin)).bound q hin) And.left
  have hreplace := h.groups.replace id g (show s'.numPtrs = s.numPtrs from hsame.numPtrs)
    (show ∀ j, G.farLayout j ⊆ (G.setRing id g).farLayout j from fun _ => List.Subset.refl _)
    (by rw [hfarMem]) rfl (fun _ _ => rfl) hptrs (fun q hq => (hfresh q hq).imp_right And.right) hleft
  have hother : ∀ id', id' ≠ id → FarBlock s G id' (readObject s.remote id').length →
      readObject s'.remote id' = readObject s.remote id' := fun _ _ _ => by rw [hremote]
  rcases hobj with ⟨ha,hheap⟩ | ⟨a,o,r,hl,hat,hof,hr⟩
  · refine ⟨h.layout.inPlace hsame.cache hsame.fromRegions rfl h.layout.marked h.layout.retired
        fun x => .inl (by rw [hheap]),h.far.same hfarMem rfl,
      hreplace (fun x o ho _ hr _ => ⟨by rw [hheap,ho],Iff.rfl,hr⟩) hother ?_ ?_ h.live,
      hsame.numPtrs.trans_le h.numPtrs⟩
    · refine fun hne => hgroup hne (.inl ⟨?_,?_,?_,?_⟩)
      · intro q hq
        obtain ⟨q',hq',he⟩ := hsrc q hq
        rw [he,hremote]
        exact ha.words q' hq'
      · rw [hremote]
        exact ha.far.same rfl (by rw [hfarMem])
      · rw [hremote]
        exact ha.fits
      · rw [hremote]
        exact ha.value
    · intro x o ho hf hr
      rw [hheap] at ho
      exact .inl ⟨ho,hr,h.groups.none_of_absent ha ho hf hr⟩
  · have hok := h.layout.ok hl.object
    have hlocal : r ∈ g → (∀ v, G.value id = some v → (∀ q ∈ g, (s'.word q).isDirty = false) →
        ∀ q ∈ G.ring id, (s.word q).isDirty = false) →
        Local s' (G.setRing id g) id g a {o with ptrAddr := r} := by
      refine fun howner hdirty => ⟨hat,hl.objId,howner,hl.current,
        hl.far.same rfl (by rw [hfarMem]),?_,?_,?_⟩
      · intro q hq
        obtain ⟨q',hq',he⟩ := hsrc q hq
        rw [he]
        exact hl.words q' hq'
      · intro q hq
        obtain ⟨q',hq',he⟩ := hsrc q hq
        rw [he,hremote]
        exact hl.length q' hq'
      · intro v hv
        refine ⟨(hl.value v hv).1,fun hc => ?_⟩
        rw [hremote]
        exact (hl.value v hv).2 (hdirty v hv hc)
    refine ⟨h.layout.inPlace hsame.cache hsame.fromRegions rfl h.layout.marked h.layout.retired
        (hl.sameSize hat hof ⟨hok.dataLen,hok.dsId,hok.idLen,hok.fits⟩ rfl),h.far.same hfarMem rfl,
      hreplace ?_ hother ?_ ?_ h.live,hsame.numPtrs.trans_le h.numPtrs⟩
    · intro x o' ho' _ hr' hid
      exact ⟨by rw [hof x (hl.ne_of_objId ho' hid),ho'],Iff.rfl,hr'⟩
    · intro hne
      rcases hr with ⟨hnil,-⟩ | ⟨howner,hdirty⟩
      · exact absurd hnil hne
      · exact hgroup hne (.inr ⟨a,_,hlocal howner hdirty⟩)
    · intro x o' ho' hf hr'
      by_cases hx : x = a
      · rw [hx,hat] at ho'
        cases ho'
        rcases hr with ⟨-,hfreed⟩ | ⟨howner,hdirty⟩
        · rw [hfreed] at hf
          cases hf
        · have hw := (hlocal howner hdirty).words r howner
          exact .inr ⟨hl.objId,howner,hw.1,by rw [hx]; exact hw.2.1⟩
      · rw [hof x hx] at ho'
        exact .inl ⟨ho',hr',fun hid => hx (h.groups.unique hl ho' hf hr' hid).1⟩

/-- The last pointer of an id becomes null. Its object, if it is local, is freed. -/
theorem Inv.dropGroup (hring : G.ring id = [p])
    (hsame : SameBut s {s' with heap := s.heap}) (hptrs : ∀ q, q ≠ p → s'.ptrs q = s.ptrs q)
    (hnull : (s'.word p).isNull = true)
    (hheap : ((s.word p).isPresent = false ∧ s'.heap = s.heap) ∨ ((s.word p).isPresent = true ∧
      s'.heap = (s.modifyObject (s.word p).getObjectAddr Object.free).heap)) :
    Inv count farCount s' (G.setRing id []) := by
  have hp : p ∈ G.ring id := by simp [hring]
  refine h.regroup hsame (fun q _ hq => hptrs q (by simpa [hring] using hq)) ?_ (by simp) (by simp)
    List.nodup_nil (fun hne => absurd rfl hne) ?_
  · intro q hq _
    rw [hring,List.mem_singleton] at hq
    rw [hq]
    exact hnull
  · rcases hheap with ⟨hpr,hh⟩ | ⟨hpr,hh⟩
    · exact .inl ⟨h.groups.absentOf hp hpr,hh⟩
    · obtain ⟨o,hl⟩ := h.groups.localOf hp hpr
      refine .inr ⟨_,o,o.free.ptrAddr,hl,?_,?_,.inl ⟨rfl,Object.free_isFreed o⟩⟩
      · rw [hh,modifyObject_heap_same,hl.object]
        rfl
      · intro x hx
        rw [hh,modifyObject_heap_of_ne _ hx]

theorem Inv.freeUnique (hring : G.ring id = [p])
    (hpr : (s.word p).isPresent = true) : Inv count farCount (s.freeUnique p) (G.setRing id []) := by
  refine h.dropGroup hring ⟨rfl,rfl,rfl,rfl,rfl,rfl,rfl⟩ ?_ ?_ (.inr ⟨hpr,rfl⟩)
  · intro q hq
    rw [State.freeUnique,setMeta_ptrs,if_neg hq]
    rfl
  · rw [State.freeUnique,setMeta_word_same,nullify_isNull]

/-- Reallocation drops the old object and starts a group of one under a fresh id. -/
theorem Inv.reallocateLocal (core : ℕ)
    (hring : G.ring id = [p]) (hsh : (s.word p).isShared = false) (hpr : (s.word p).isPresent = true)
    (hfit : sizeFor bytes.length ≤ 65528)
    (he : s.reallocateLocal core p bytes = some (ok,s')) :
    (ok = false ∧ Inv count farCount s' G ∧ Keeps s s' G G) ∨
    (ok = true ∧ ∃ id' L F, (G.setRing id []).ring id' = [] ∧
      Inv count farCount s' {G with
        ring := update (G.setRing id []).ring id' [p], layout := L, farLayout := F,
        value := update G.value id' (some bytes)} ∧
      s'.fromRegions = s.fromRegions ∧ s'.phase = s.phase ∧ s'.cache.base = s.cache.base ∧
      ∀ i ∈ s.fromRegions, L i = G.layout i) := by
  have hp : p ∈ G.ring id := by simp [hring]
  have hlt := (h.groups.group id (Groups.ne_nil hp)).bound p hp
  rcases h.allocations core hfit he with ⟨rfl,h',hk,-⟩ | ⟨rfl,a,cache,i,b,id',farMem,j,c,he,hb,hc⟩
  · exact .inl ⟨rfl,h',hk⟩
  obtain ⟨hnone,-,-,-⟩ := h.layout.alloc_fresh hb
  obtain ⟨o,hl⟩ := h.groups.localOf hp hpr
  have hne : (s.word p).getObjectAddr ≠ a := fun hx => by
    have := hl.object
    rw [hx,hnone] at this
    cases this
  have h1 := h.freeUnique hring hpr
  subst he
  refine .inr ⟨rfl,id',_,_,h1.fresh_id hc,h1.newGroup false hlt ?_ rfl hfit hb hc ?_ ?_ rfl rfl rfl rfl rfl ?_ ?_
    (by simp),rfl,rfl,hb.base,alloc_layout hb⟩
  · rw [State.freeUnique,setMeta_word_same,nullify_isNull]
  · rw [modifyObject_heap_of_ne _ hne.symm,setMeta_heap,setObject_heap_same]
  · intro x hx
    by_cases hxa : x = (s.word p).getObjectAddr
    · rw [hxa,modifyObject_heap_same,setMeta_heap,setObject_heap_of_ne _ hne,State.freeUnique,
        setMeta_heap,modifyObject_heap_same]
      rfl
    · rw [modifyObject_heap_of_ne _ hxa,setMeta_heap,setObject_heap_of_ne _ hx,State.freeUnique,
        setMeta_heap,modifyObject_heap_of_ne _ hxa]
      rfl
  · intro q hq
    rw [modifyObject_ptrs,setMeta_ptrs,if_neg hq,State.freeUnique,setMeta_ptrs,if_neg hq]
    rfl
  · rw [modifyObject_word,setMeta_word_same,init_eq_construct hsh]

/-- A pointer joins the ring of a local or absent group with the word of a member. -/
theorem Inv.copy {k : List ℕ} (hthis : this < s.numPtrs)
    (hnull : (s.word this).isNull = true) (hperm : (other::k).Perm (G.ring id))
    (hring : Ring s.nextPtr (other::k)) (hsh : ∀ q ∈ G.ring id, (s.word q).isShared = true) :
    Inv count farCount (s.copy this other) (G.setRing id (other::this::k)) := by
  have hother : other ∈ G.ring id := hperm.mem_iff.mp (by simp)
  have hg := h.groups.group id (Groups.ne_nil hother)
  have hnodup : (other::k).Nodup := hperm.nodup_iff.mpr hg.nodup
  have hout : this ∉ other::k := by
    intro hm
    have hn := hg.notNull (hperm.mem_iff.mp hm)
    rw [hnull] at hn
    cases hn
  have hword : ∀ q, (s.copy this other).word q = if q = this then s.word other else s.word q := by
    intro q
    simp only [State.copy,setNextPtr_word]
    by_cases hq : q = this
    · rw [hq,setMeta_word_same,if_pos rfl]
    · rw [setMeta_word_of_ne _ hq,if_neg hq]
  have hnext : (s.copy this other).nextPtr =
      update (update s.nextPtr this (s.nextPtr other)) other this := by
    simp [State.copy]
  have hsrc : ∀ q ∈ other::this::k, ∃ q' ∈ G.ring id, (s.copy this other).word q = s.word q' := by
    intro q hq
    rw [hword]
    split
    · exact ⟨other,hother,rfl⟩
    · rename_i hq'
      refine ⟨q,?_,rfl⟩
      simp only [List.mem_cons,hq',false_or] at hq
      exact hperm.mem_iff.mp (by simpa using hq)
  have hall : ∀ q ∈ G.ring id, q ∈ other::this::k ∧ (s.copy this other).word q = s.word q := by
    intro q hq
    have hq' := hperm.mem_iff.mpr hq
    have hqt : q ≠ this := fun he => hout (he ▸ hq')
    refine ⟨?_,by rw [hword,if_neg hqt]⟩
    simp only [List.mem_cons] at hq' ⊢
    tauto
  refine h.regroup ⟨rfl,rfl,rfl,rfl,rfl,rfl,rfl⟩ ?_ (fun q hq hq' => absurd (hall q hq).1 hq') ?_ hsrc ?_
    (fun _ => .inr ⟨?_,?_⟩) ?_
  · intro q hq _
    simp only [List.mem_cons,not_or] at hq
    simp only [State.copy,setNextPtr_ptrs,setMeta_ptrs,hq.1,hq.2.1,if_false]
  · intro q hq
    by_cases hqt : q = this
    · exact .inr ⟨hqt ▸ hthis,hqt ▸ hnull⟩
    · refine .inl (hperm.mem_iff.mp ?_)
      simp only [List.mem_cons,hqt,false_or] at hq
      simpa using hq
  · have hd := List.nodup_cons.mpr ⟨hout,hnodup⟩
    exact (List.Perm.swap other this k).nodup_iff.mp hd
  · rw [hnext]
    exact hring.insert hnodup hout
  · intro q hq
    obtain ⟨q',hq',he⟩ := hsrc q hq
    rw [he]
    exact hsh q' hq'
  · rcases hg.place with ha | ⟨a,o,hl⟩
    · exact .inl ⟨ha,rfl⟩
    · refine .inr ⟨a,o,o.ptrAddr,hl,hl.object,fun _ _ => rfl,.inr ⟨(hall _ hl.owner).1,fun _ _ hc q hq => ?_⟩⟩
      rw [← (hall q hq).2]
      exact hc q (hall q hq).1

/-- A null pointer takes the place of a member, with its word and, if the object is
local, with its back pointer. -/
theorem Inv.substitute {k : List ℕ}
    (hthis : this < s.numPtrs) (hnull : (s.word this).isNull = true)
    (hperm : (other::k).Perm (G.ring id)) (hsame : SameBut s {s' with heap := s.heap})
    (hptrs : ∀ q, q ≠ this → q ≠ other → q ∉ k → s'.ptrs q = s.ptrs q)
    (hwordThis : s'.word this = s.word other) (hwordOther : (s'.word other).isNull = true)
    (hwordK : ∀ q ∈ k, s'.word q = s.word q)
    (hkind : (k = [] ∧ (s.word other).isShared = false) ∨
      (Ring s'.nextPtr (this::k) ∧ ∀ q ∈ G.ring id, (s.word q).isShared = true))
    (hheap : ((s.word other).isPresent = false ∧ s'.heap = s.heap) ∨ ((s.word other).isPresent = true ∧
      s'.heap = (s.modifyObject (s.word other).getObjectAddr (·.setPtrAddr this)).heap)) :
    Inv count farCount s' (G.setRing id (this::k)) := by
  have hother : other ∈ G.ring id := hperm.mem_iff.mp (by simp)
  have hg := h.groups.group id (Groups.ne_nil hother)
  have hnodup : (other::k).Nodup := hperm.nodup_iff.mpr hg.nodup
  have hk : ∀ {q}, q ∈ k → q ∈ G.ring id := fun hq => hperm.mem_iff.mp (by simp [hq])
  have hout : this ∉ G.ring id := by
    intro hm
    have hn := hg.notNull hm
    rw [hnull] at hn
    cases hn
  have hlt : this < 2^47 := hthis.trans_le h.numPtrs
  have hsrc : ∀ q ∈ this::k, ∃ q' ∈ G.ring id, s'.word q = s.word q' := by
    intro q hq
    rcases List.mem_cons.mp hq with rfl | hq
    · exact ⟨other,hother,hwordThis⟩
    · exact ⟨q,hk hq,hwordK q hq⟩
  have hdst : ∀ q ∈ G.ring id, ∃ q' ∈ this::k, s'.word q' = s.word q := by
    intro q hq
    rcases List.mem_cons.mp (hperm.mem_iff.mpr hq) with rfl | hq
    · exact ⟨this,by simp,hwordThis⟩
    · exact ⟨q,by simp [hq],hwordK q hq⟩
  refine h.regroup hsame ?_ ?_ ?_ hsrc
    (List.nodup_cons.mpr ⟨fun hm => hout (hk hm),(List.nodup_cons.mp hnodup).2⟩) (fun _ => ?_) ?_
  · intro q hq hq'
    rw [List.mem_cons,not_or] at hq
    exact hptrs q hq.1 (fun he => hq' (he ▸ hother)) hq.2
  · intro q hq hq'
    rw [List.mem_cons,not_or] at hq'
    rcases List.mem_cons.mp (hperm.mem_iff.mpr hq) with rfl | hq
    · exact hwordOther
    · exact absurd hq hq'.2
  · intro q hq
    rcases List.mem_cons.mp hq with rfl | hq
    · exact .inr ⟨hthis,hnull⟩
    · exact .inl (hk hq)
  · rcases hkind with ⟨rfl,hs⟩ | ⟨hr,hs⟩
    · exact .inl ⟨this,rfl,by rw [hwordThis,hs]⟩
    · refine .inr ⟨hr,fun q hq => ?_⟩
      obtain ⟨q',hq',he⟩ := hsrc q hq
      rw [he]
      exact hs q' hq'
  · rcases hheap with ⟨hpr,hh⟩ | ⟨hpr,hh⟩
    · exact .inl ⟨h.groups.absentOf hother hpr,hh⟩
    · obtain ⟨o,hl⟩ := h.groups.localOf hother hpr
      refine .inr ⟨_,o,(o.setPtrAddr this).ptrAddr,hl,?_,?_,.inr ⟨?_,fun _ _ hc q hq => ?_⟩⟩
      · rw [hh,modifyObject_heap_same,hl.object]
        rfl
      · intro x hx
        rw [hh,modifyObject_heap_of_ne _ hx]
      · rw [Object.setPtrAddr_ptrAddr o hlt]
        simp
      · obtain ⟨q',hq',he⟩ := hdst q hq
        rw [← he]
        exact hc q' hq'

end

/-- The last node of a nonempty list, as `move` finds it. -/
theorem getLastD_cons_cons (x z : ℕ) (l : List ℕ) :
    (x::z::l).getLastD x = (z::l).getLast (by simp) := by
  rw [List.getLastD_cons,List.getLastD_cons,List.getLast_eq_getLastD]

/-- Moving a group's pointer into a null pointer. A shared source must be local:
only then does `move` splice the ring. -/
theorem Inv.moveNull (h : Inv count farCount s G) (hthis : this < s.numPtrs)
    (hnull : (s.word this).isNull = true) (hother : other ∈ G.ring id)
    (hsrc : (s.word other).isShared = true → (s.word other).isPresent = true) :
    ∃ k, (other::k).Perm (G.ring id) ∧ Inv count farCount (s.move this other) (G.setRing id (this::k)) := by
  have hg := h.groups.group id (Groups.ne_nil hother)
  have hne : other ≠ this := by
    rintro rfl
    have hn := hg.notNull hother
    rw [hnull] at hn
    cases hn
  cases hsh : (s.word other).isShared with
  | false =>
    have hring := hg.eq_singleton hother hsh
    refine ⟨[],by rw [hring],?_⟩
    have hword : ∀ q, (s.move this other).word q =
        if q = other then nullify else if q = this then s.word other else s.word q := by
      intro q
      simp only [State.move,hsh,Bool.false_eq_true,if_false]
      by_cases hqo : q = other
      · rw [hqo,setMeta_word_same,if_pos rfl]
      · rw [setMeta_word_of_ne _ hqo,if_neg hqo]
        by_cases hqt : q = this
        · rw [hqt,if_pos rfl]
          split <;> simp
        · rw [if_neg hqt]
          split
          · rw [modifyObject_word,setMeta_word_of_ne _ hqt]
          · rw [setMeta_word_of_ne _ hqt]
    refine h.substitute hthis hnull (by rw [hring]) ?_ ?_ ?_ ?_ (by simp) (.inl ⟨rfl,hsh⟩) ?_
    · simp only [State.move,hsh,Bool.false_eq_true,if_false]
      split <;> exact ⟨rfl,rfl,rfl,rfl,rfl,rfl,rfl⟩
    · intro q hqt hqo _
      simp only [State.move,hsh,Bool.false_eq_true,if_false]
      rw [setMeta_ptrs,if_neg hqo]
      split
      · rw [modifyObject_ptrs,setMeta_ptrs,if_neg hqt]
      · rw [setMeta_ptrs,if_neg hqt]
    · rw [hword,if_neg hne.symm,if_pos rfl]
    · rw [hword,if_pos rfl,nullify_isNull]
    · simp only [State.move,hsh,Bool.false_eq_true,if_false]
      cases hpr : (s.word other).isPresent with
      | false => exact .inl ⟨rfl,rfl⟩
      | true => exact .inr ⟨rfl,rfl⟩
  | true =>
    have hpr := hsrc hsh
    obtain ⟨k,hk,hperm,hnodup,hlen,hall⟩ := hg.ringAt hother hsh
    have hout : this ∉ other::k := by
      intro hm
      have hn := hg.notNull (hperm.mem_iff.mp hm)
      rw [hnull] at hn
      cases hn
    have htrav : traverse (s.setMeta this (s.word other)).nextPtr other
        (s.setMeta this (s.word other)).numPtrs other = other::k := by
      rw [setMeta_nextPtr]
      exact traverse_ring hk hnodup hlen
    refine ⟨k,hperm,?_⟩
    generalize hprev : (other::k).getLastD other = prev
    have hmove : s.move this other = ((((s.setMeta this (s.word other)).setNextPtr prev this).setNextPtr
        this (if prev ≠ other then ((s.setMeta this (s.word other)).setNextPtr prev this).nextPtr other
          else this)).modifyObject (s.word other).getObjectAddr (·.setPtrAddr this)).setMeta other
            nullify := by
      simp only [State.move,hpr,hsh,if_true,htrav,hprev]
    have hprevMem : prev ∈ other::k := by
      rw [← hprev]
      cases k with
      | nil => simp
      | cons z l =>
        rw [getLastD_cons_cons]
        exact List.mem_cons_of_mem _ (List.getLast_mem _)
    have hword : ∀ q, (s.move this other).word q =
        if q = other then nullify else if q = this then s.word other else s.word q := by
      intro q
      rw [hmove]
      by_cases hqo : q = other
      · rw [hqo,setMeta_word_same,if_pos rfl]
      · rw [setMeta_word_of_ne _ hqo,if_neg hqo,modifyObject_word,setNextPtr_word,setNextPtr_word]
        by_cases hqt : q = this
        · rw [hqt,setMeta_word_same,if_pos rfl]
        · rw [setMeta_word_of_ne _ hqt,if_neg hqt]
    refine h.substitute hthis hnull hperm ?_ ?_ ?_ ?_ ?_ (.inr ⟨?_,hall⟩) (.inr ⟨hpr,by rw [hmove]; rfl⟩)
    · rw [hmove]
      exact ⟨rfl,rfl,rfl,rfl,rfl,rfl,rfl⟩
    · intro q hqt hqo hqk
      have hqp : q ≠ prev := fun he => by
        rcases List.mem_cons.mp (he ▸ hprevMem) with hq | hq
        · exact hqo hq
        · exact hqk hq
      rw [hmove,setMeta_ptrs,if_neg hqo,modifyObject_ptrs,setNextPtr_ptrs,if_neg hqt,setNextPtr_ptrs,
        if_neg hqp,setMeta_ptrs,if_neg hqt]
    · rw [hword,if_neg hne.symm,if_pos rfl]
    · rw [hword,if_pos rfl,nullify_isNull]
    · intro q hq
      have hqo : q ≠ other := fun he => (List.nodup_cons.mp hnodup).1 (he ▸ hq)
      have hqt : q ≠ this := fun he => hout (he ▸ List.mem_cons_of_mem _ hq)
      rw [hword,if_neg hqo,if_neg hqt]
    · rw [hmove,setMeta_nextPtr,modifyObject_nextPtr,setNextPtr_nextPtr,setNextPtr_nextPtr,
        setMeta_nextPtr]
      cases k with
      | nil =>
        have hp : prev = other := by rw [← hprev]; rfl
        rw [if_neg (by simp [hp])]
        exact update_self ..
      | cons z l =>
        have hp : prev = (z::l).getLast (by simp) := by rw [← hprev,getLastD_cons_cons]
        have hpo : prev ≠ other := fun he =>
          (List.nodup_cons.mp hnodup).1 (by rw [← he,hp]; exact List.getLast_mem _)
        rw [if_pos hpo,update_of_ne hpo.symm,hp]
        exact hk.replace hnodup hout

/-- Moving out of a null pointer, or from a pointer into itself while it is
absent, leaves null pointers behind. -/
theorem Inv.moveFromNull (h : Inv count farCount s G)
    (hthis : (s.word this).isNull = true) (hother : (s.word other).isNull = true) :
    Inv count farCount (s.move this other) G := by
  have hpr := isPresent_of_isNull hother
  have hmove : s.move this other = (s.setMeta this (s.word other)).setMeta other nullify := by
    simp only [State.move,hpr,Bool.false_eq_true,if_false]
  rw [hmove]
  refine h.scratch ⟨rfl,rfl,rfl,rfl,rfl,rfl,rfl⟩ ?_
  intro q
  by_cases hqo : q = other
  · rw [hqo,setMeta_word_same]
    exact .inr ⟨hother,nullify_isNull⟩
  · by_cases hqt : q = this
    · rw [hqt] at hqo ⊢
      rw [setMeta_word_of_ne _ hqo,setMeta_word_same]
      exact .inr ⟨hthis,hother⟩
    · rw [setMeta_ptrs,if_neg hqo,setMeta_ptrs,if_neg hqt]
      exact .inl rfl

theorem setMeta_setMeta (p : ℕ) (m m' : FarMemPtrMeta) : (s.setMeta p m).setMeta p m' = s.setMeta p m' := by
  simp [setMeta]

/-- What the destination held before a move does not matter to the result. -/
theorem setMeta_move (hne : other ≠ this) (m : FarMemPtrMeta) :
    (s.setMeta this m).move this other = s.move this other := by
  have hw : (s.setMeta this m).word other = s.word other := setMeta_word_of_ne _ hne
  simp only [State.move,hw,setMeta_setMeta]

/-- The absent destination of a move gives up its id. -/
theorem Inv.dropAbsent (h : Inv count farCount s G) (hring : G.ring id = [p])
    (hpr : (s.word p).isPresent = false) : Inv count farCount (s.setMeta p nullify) (G.setRing id []) := by
  refine h.dropGroup hring ⟨rfl,rfl,rfl,rfl,rfl,rfl,rfl⟩ ?_ ?_ (.inl ⟨hpr,rfl⟩)
  · intro q hq
    rw [setMeta_ptrs,if_neg hq]
  · rw [setMeta_word_same,nullify_isNull]

/-- One of several sharers leaves the ring. The bytes stay current if it was clean
or some other sharer is dirty. -/
theorem Inv.unlinkShared (h : Inv count farCount s G) {z : ℕ} {l : List ℕ}
    (hperm : (p::z::l).Perm (G.ring id)) (hring : Ring s.nextPtr (p::z::l))
    (hlen : (z::l).length < s.numPtrs) (hall : ∀ q ∈ G.ring id, (s.word q).isShared = true)
    (hpr : (s.word p).isPresent = true)
    (hdirty : G.value id = none ∨ (s.word p).isDirty = false ∨
      ∃ q ∈ z::l, (s.word q).isDirty = true) :
    Inv count farCount (s.freeShared p) (G.setRing id (z::l)) := by
  have hp : p ∈ G.ring id := hperm.mem_iff.mp (by simp)
  have hg := h.groups.group id (Groups.ne_nil hp)
  have hnodup : (p::z::l).Nodup := hperm.nodup_iff.mpr hg.nodup
  have hpk : p ∉ z::l := (List.nodup_cons.mp hnodup).1
  have hk : ∀ {q}, q ∈ z::l → q ∈ G.ring id := fun hq =>
    hperm.mem_iff.mp (List.mem_cons_of_mem _ hq)
  have hnextp : s.nextPtr p = z := hring.1
  have hzp : z ≠ p := fun he => hpk (by simp [he])
  obtain ⟨o,hl⟩ := h.groups.localOf hp hpr
  have hprev : findPrev s.nextPtr p s.numPtrs z = (z::l).getLast (by simp) :=
    findPrev_path hring.2 (fun hm => hpk (List.mem_cons_of_mem _ hm)) (by simpa using Nat.lt_of_succ_lt hlen)
  have hfree : s.freeShared p = ((s.setNextPtr ((z::l).getLast (by simp)) z).modifyObject
      (s.word p).getObjectAddr fun o => if o.ptrAddr = p then o.setPtrAddr z else o).setMeta p nullify := by
    simp only [State.freeShared,hnextp,hzp,if_false,hprev]
  have hwordK : ∀ q ∈ z::l, (s.freeShared p).word q = s.word q := by
    intro q hq
    have hqp : q ≠ p := fun he => hpk (he ▸ hq)
    rw [hfree,setMeta_word_of_ne _ hqp,modifyObject_word,setNextPtr_word]
  refine h.regroup (by rw [hfree]; exact ⟨rfl,rfl,rfl,rfl,rfl,rfl,rfl⟩) ?_ ?_ (fun q hq => .inl (hk hq))
    (fun q hq => ⟨q,hk hq,hwordK q hq⟩) (List.nodup_cons.mp hnodup).2 (fun _ => .inr ⟨?_,?_⟩)
    (.inr ⟨_,o,(if o.ptrAddr = p then o.setPtrAddr z else o).ptrAddr,hl,?_,?_,.inr ⟨?_,?_⟩⟩)
  · intro q _ hq
    have hqp : q ≠ p := fun he => hq (he ▸ hp)
    have hql : q ≠ (z::l).getLast (by simp) := fun he => hq (he ▸ hk (List.getLast_mem _))
    rw [hfree,setMeta_ptrs,if_neg hqp,modifyObject_ptrs,setNextPtr_ptrs,if_neg hql]
  · intro q hq hq'
    rcases List.mem_cons.mp (hperm.mem_iff.mpr hq) with rfl | hm
    · rw [hfree,setMeta_word_same,nullify_isNull]
    · exact absurd hm hq'
  · rw [hfree,setMeta_nextPtr,modifyObject_nextPtr,setNextPtr_nextPtr]
    have hr := hring.unlink hnodup
    rwa [hnextp] at hr
  · intro q hq
    rw [hwordK q hq]
    exact hall q (hk hq)
  · rw [hfree,setMeta_heap,modifyObject_heap_same,setNextPtr_heap,hl.object]
    simp only [Option.map_some]
    split <;> rfl
  · intro x hx
    rw [hfree,setMeta_heap,modifyObject_heap_of_ne _ hx]
    rfl
  · split
    · rw [Object.setPtrAddr_ptrAddr o ((hg.bound z (hk (by simp))).trans_le h.numPtrs)]
      simp
    · rename_i hne
      exact (List.mem_cons.mp (hperm.mem_iff.mpr hl.owner)).resolve_left hne
  · intro v hv hc q hq
    rcases List.mem_cons.mp (hperm.mem_iff.mpr hq) with rfl | hm
    · rcases hdirty with hnone | hclean | ⟨q',hq',hd⟩
      · rw [hnone] at hv
        cases hv
      · exact hclean
      · have hcq := hc q' hq'
        rw [hwordK q' hq',hd] at hcq
        cases hcq
    · rw [← hwordK q hm]
      exact hc q hm

theorem Inv.freeShared (h : Inv count farCount s G) (hp : p ∈ G.ring id)
    (hsh : (s.word p).isShared = true) (hpr : (s.word p).isPresent = true)
    (hdirty : G.value id = none ∨ (s.word p).isDirty = false ∨ G.ring id = [p] ∨
      ∃ q ∈ G.ring id, q ≠ p ∧ (s.word q).isDirty = true) :
    ∃ k, (p::k).Perm (G.ring id) ∧ Inv count farCount (s.freeShared p) (G.setRing id k) := by
  have hg := h.groups.group id (Groups.ne_nil hp)
  obtain ⟨k,hk,hperm,hnodup,hlen,hall⟩ := hg.ringAt hp hsh
  refine ⟨k,hperm,?_⟩
  cases k with
  | nil =>
    have hring : G.ring id = [p] := (List.singleton_perm.mp hperm).symm
    have hnext : s.nextPtr p = p := hk
    have hfree : s.freeShared p = (s.modifyObject (s.word p).getObjectAddr Object.free).setMeta p
        nullify := by
      simp only [State.freeShared,hnext,if_true]
    rw [hfree]
    exact h.freeUnique hring hpr
  | cons z l =>
    refine h.unlinkShared hperm hk hlen hall hpr ?_
    rcases hdirty with hnone | hclean | hone | ⟨q,hq,hne,hd⟩
    · exact .inl hnone
    · exact .inr (.inl hclean)
    · rw [hone] at hperm
      have := hperm.length_eq
      simp at this
    · refine .inr (.inr ⟨q,?_,hd⟩)
      rcases List.mem_cons.mp (hperm.mem_iff.mpr hq) with he | hm
      · exact absurd he hne
      · exact hm

end FarMemory.RuntimeInvariant
