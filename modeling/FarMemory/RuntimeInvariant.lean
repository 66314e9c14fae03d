import FarMemory.PointerRuntime

/-!
# The invariant of the runtime

The ghost state names what the concrete state only implies: for every object id
the pointers that share it, for every region its objects, which objects are
marked and which are already retired by the collector, and the bytes an id is
supposed to stand for. The pointers of an id are either all absent, with the data
in far memory, or all present at one local object that points back to one of
them.

`Groups.replace` is the only place where the pointers of several ids are looked
at together: an operation that touches the pointers, objects and remote bytes of
one id leaves every other id alone. The value of an id may be left open, so the
structure can be followed without the data.
-/
namespace FarMemory.RuntimeInvariant
open PointerMeta FarMemPtrMeta Regions RingLinks IntervalTiling ServerPtr PointerRuntime State Function

structure Ghost where
  ring : ℕ → List ℕ
  layout : ℕ → List (ℕ × ℕ)
  farLayout : ℕ → List (ℕ × ℕ)
  marked : Set ℕ
  retired : Set ℕ
  value : ℕ → Option (List UInt8)

/-- `Object::size` of a vanilla object with `n` bytes of data. -/
def sizeFor (n : ℕ) : ℕ := kHeaderSize+n+kVanillaPtrObjectIDSize

structure ObjectOk (o : Object) : Prop where
  dataLen : o.dataLen = o.data.length
  dsId : o.dsId = kVanillaPtrDSID
  idLen : o.idLen = kVanillaPtrObjectIDSize
  fits : sizeFor o.dataLen ≤ 65528

theorem ObjectOk.size {o : Object} (h : ObjectOk o) : o.size = sizeFor o.dataLen := by
  have hf := h.fits
  rw [Object.size,h.idLen]
  unfold sizeFor at *
  omega

/-- The id has far memory for `n` bytes of data. -/
def FarBlock (s : State) (G : Ghost) (id n : ℕ) : Prop :=
  ∃ j, ∃ c ∈ G.farLayout j, id = s.farMem.addr j c.1 ∧ sizeFor n ≤ c.2

structure Absent (s : State) (G : Ghost) (id : ℕ) (g : List ℕ) : Prop where
  words : ∀ p ∈ g, (s.word p).isPresent = false ∧ (s.word p).isNull = false ∧
    (s.word p).getObjectId = id ∧ (s.word p).getDsId = kVanillaPtrDSID ∧
    (s.word p).getObjectSize = sizeFor (readObject s.remote id).length
  far : FarBlock s G id (readObject s.remote id).length
  fits : sizeFor (readObject s.remote id).length ≤ 65528
  value : ∀ v, G.value id = some v → readObject s.remote id = v

structure Local (s : State) (G : Ghost) (id : ℕ) (g : List ℕ) (a : ℕ) (o : Object) : Prop where
  object : s.heap a = some o
  objId : o.objId = id
  owner : o.ptrAddr ∈ g
  current : a ∉ G.retired
  far : FarBlock s G id o.dataLen
  words : ∀ p ∈ g, (s.word p).isPresent = true ∧ (s.word p).getObjectAddr = a ∧
    ((s.word p).isEvacuation = true ↔ a ∈ G.marked)
  length : ∀ p ∈ g, (s.word p).isDirty = false → (readObject s.remote id).length = o.dataLen
  value : ∀ v, G.value id = some v → o.data = v ∧
    ((∀ p ∈ g, (s.word p).isDirty = false) → readObject s.remote id = v)

structure Group (s : State) (G : Ghost) (id : ℕ) (g : List ℕ) : Prop where
  nodup : g.Nodup
  bound : ∀ p ∈ g, p < s.numPtrs
  kind : (∃ p, g = [p] ∧ (s.word p).isShared = false) ∨
    (Ring s.nextPtr g ∧ ∀ p ∈ g, (s.word p).isShared = true)
  place : Absent s G id g ∨ ∃ a o, Local s G id g a o

structure Groups (s : State) (G : Ghost) : Prop where
  group : ∀ id, G.ring id ≠ [] → Group s G id (G.ring id)
  member : ∀ p, (s.word p).isNull = false → ∃ id, p ∈ G.ring id
  disjoint : ∀ p id id', p ∈ G.ring id → p ∈ G.ring id' → id = id'
  back : ∀ a o, s.heap a = some o → o.isFreed = false → a ∉ G.retired →
    o.ptrAddr ∈ G.ring o.objId ∧ (s.word o.ptrAddr).isPresent = true ∧
      (s.word o.ptrAddr).getObjectAddr = a

/-- The local cache holds the objects of the layout and nothing else. -/
structure Layout (count : ℕ) (s : State) (G : Ghost) : Prop where
  wf : s.cache.WF count G.layout s.fromRegions
  bound : s.cache.base+count*kSize ≤ 2^47
  object : ∀ i, ∀ b ∈ G.layout i, ∃ o, s.heap (s.cache.addr i b.1) = some o ∧ ObjectOk o ∧
    alignTo o.size 8 = b.2
  block : ∀ a o, s.heap a = some o → ∃ i, ∃ b ∈ G.layout i, a = s.cache.addr i b.1
  marked : ∀ a ∈ G.marked, ∃ i ∈ s.fromRegions, ∃ off, off < kSize ∧ a = s.cache.addr i off
  retired : G.retired ⊆ G.marked

structure FarLayout (farCount : ℕ) (s : State) (G : Ghost) : Prop where
  wf : s.farMem.WF farCount G.farLayout []
  base : s.farMem.base = 0
  bound : farCount*kSize ≤ 2^38

structure Inv (count farCount : ℕ) (s : State) (G : Ghost) : Prop where
  layout : Layout count s G
  far : FarLayout farCount s G
  groups : Groups s G
  numPtrs : s.numPtrs ≤ 2^47

section Basic
variable {s s' : State} {G G' : Ghost} {id : ℕ} {g : List ℕ} {count farCount : ℕ}
  {p n a size i : ℕ} {o o' : Object} {cache : Manager} {b : ℕ × ℕ}

theorem Group.notNull (h : Group s G id g) (hp : p ∈ g) : (s.word p).isNull = false := by
  rcases h.place with ha | ⟨a,o,hl⟩
  · exact (ha.words p hp).2.1
  · exact isNull_of_isPresent (hl.words p hp).1

theorem Groups.ne_nil (hp : p ∈ G.ring id) : G.ring id ≠ [] := List.ne_nil_of_mem hp

theorem Groups.localOf (h : Groups s G) (hp : p ∈ G.ring id) (hpr : (s.word p).isPresent = true) :
    ∃ o, Local s G id (G.ring id) (s.word p).getObjectAddr o := by
  rcases (h.group id (Groups.ne_nil hp)).place with ha | ⟨a,o,hl⟩
  · rw [(ha.words p hp).1] at hpr
    cases hpr
  · exact ⟨o,(hl.words p hp).2.1 ▸ hl⟩

theorem Groups.absentOf (h : Groups s G) (hp : p ∈ G.ring id)
    (hpr : (s.word p).isPresent = false) : Absent s G id (G.ring id) := by
  rcases (h.group id (Groups.ne_nil hp)).place with ha | ⟨a,o,hl⟩
  · exact ha
  · rw [(hl.words p hp).1] at hpr
    cases hpr

/-- A ring that starts at a given member, within the fuel of a traversal. -/
theorem Group.ringAt (h : Group s G id g) (hp : p ∈ g) (hs : (s.word p).isShared = true) :
    ∃ k, Ring s.nextPtr (p::k) ∧ (p::k).Perm g ∧ (p::k).Nodup ∧ k.length < s.numPtrs ∧
      ∀ q ∈ g, (s.word q).isShared = true := by
  rcases h.kind with ⟨q,rfl,hq⟩ | ⟨hr,hsh⟩
  · rw [List.mem_singleton.mp hp,hq] at hs
    cases hs
  · obtain ⟨k,hk,hperm⟩ := hr.startAt hp
    have hnodup : (p::k).Nodup := hperm.nodup_iff.mpr h.nodup
    have hsub : p::k ⊆ List.range s.numPtrs := by
      intro q hq
      exact List.mem_range.mpr (h.bound q (hperm.mem_iff.mp hq))
    have hlen := (hnodup.subperm hsub).length_le
    simp only [List.length_cons,List.length_range] at hlen
    exact ⟨k,hk,hperm,hnodup,hlen,hsh⟩

theorem Group.eq_singleton (h : Group s G id g) (hp : p ∈ g) (hs : (s.word p).isShared = false) :
    g = [p] := by
  rcases h.kind with ⟨q,rfl,-⟩ | ⟨-,hsh⟩
  · rw [List.mem_singleton.mp hp]
  · rw [hsh p hp] at hs
    cases hs

theorem Group.members (h : Group s G id g) (hp : p ∈ g) : (s.members p).Perm g := by
  cases hs : (s.word p).isShared with
  | false =>
    rw [h.eq_singleton hp hs]
    simp [State.members,hs]
  | true =>
    obtain ⟨k,hk,hperm,hnodup,hlen,-⟩ := h.ringAt hp hs
    rw [State.members,if_pos hs,traverse_ring hk hnodup hlen]
    exact hperm

theorem FarBlock.mono (h : FarBlock s G id n) (hf : ∀ j, G.farLayout j ⊆ G'.farLayout j)
    (hb : s'.farMem.base = s.farMem.base) : FarBlock s' G' id n := by
  obtain ⟨j,c,hc,hid,hn⟩ := h
  exact ⟨j,c,hf j hc,by rw [hid,Manager.addr_congr hb],hn⟩

theorem FarBlock.same (h : FarBlock s G id n) (hf : G'.farLayout = G.farLayout)
    (hb : s'.farMem.base = s.farMem.base) : FarBlock s' G' id n := h.mono (by simp [hf]) hb

theorem Group.frame (h : Group s G id g) (hnum : s'.numPtrs = s.numPtrs)
    (hfar : ∀ j, G.farLayout j ⊆ G'.farLayout j) (hbase : s'.farMem.base = s.farMem.base)
    (hptrs : ∀ p ∈ g, s'.ptrs p = s.ptrs p)
    (hheap : ∀ a o, Local s G id g a o → s'.heap a = some o ∧ (a ∈ G'.marked ↔ a ∈ G.marked) ∧
      a ∉ G'.retired)
    (hremote : FarBlock s G id (readObject s.remote id).length →
      readObject s'.remote id = readObject s.remote id)
    (hvalue : G'.value id = G.value id) : Group s' G' id g := by
  have hword : ∀ p ∈ g, s'.word p = s.word p := fun p hp => congrArg PtrCell.word (hptrs p hp)
  refine ⟨h.nodup,fun p hp => hnum ▸ h.bound p hp,?_,?_⟩
  · rcases h.kind with ⟨p,rfl,hp⟩ | ⟨hr,hs⟩
    · exact .inl ⟨p,rfl,by rwa [hword p (by simp)]⟩
    · refine .inr ⟨hr.congr fun q hq => congrArg PtrCell.nextPtr (hptrs q hq),?_⟩
      intro p hp
      rw [hword p hp]
      exact hs p hp
  · rcases h.place with ha | ⟨a,o,hl⟩
    · have hread := hremote ha.far
      refine .inl ⟨?_,?_,?_,?_⟩
      · intro p hp
        rw [hword p hp,hread]
        exact ha.words p hp
      · rw [hread]
        exact ha.far.mono hfar hbase
      · rw [hread]
        exact ha.fits
      · rw [hread,hvalue]
        exact ha.value
    · obtain ⟨ho,hm,hr⟩ := hheap a o hl
      -- the remote copy matters only once some pointer is clean
      have hread : ∀ p ∈ g, (s.word p).isDirty = false →
          readObject s'.remote id = readObject s.remote id := by
        intro p hp hc
        exact hremote (by rw [hl.length p hp hc]; exact hl.far)
      refine .inr ⟨a,o,ho,hl.objId,hl.owner,hr,hl.far.mono hfar hbase,?_,?_,?_⟩
      · intro p hp
        rw [hword p hp,hm]
        exact hl.words p hp
      · intro p hp hc
        rw [hword p hp] at hc
        rw [hread p hp hc]
        exact hl.length p hp hc
      · intro v hv
        rw [hvalue] at hv
        refine ⟨(hl.value v hv).1,fun hc => ?_⟩
        have hc' : ∀ p ∈ g, (s.word p).isDirty = false := by
          intro p hp
          rw [← hword p hp]
          exact hc p hp
        rw [hread _ hl.owner (hc' _ hl.owner)]
        exact (hl.value v hv).2 hc'

/-- The groups see only the cells, the objects, the remote bytes and where far memory starts. -/
theorem Groups.same (h : Groups s G) (hnum : s'.numPtrs = s.numPtrs) (hptrs : s'.ptrs = s.ptrs)
    (hheap : s'.heap = s.heap) (hremote : s'.remote = s.remote) (hbase : s'.farMem.base = s.farMem.base) :
    Groups s' G := by
  refine ⟨?_,?_,h.disjoint,?_⟩
  · intro id hne
    exact (h.group id hne).frame hnum (fun _ => List.Subset.refl _) hbase (fun _ _ => by rw [hptrs])
      (fun a o hl => ⟨by rw [hheap]; exact hl.object,Iff.rfl,hl.current⟩) (fun _ => by rw [hremote]) rfl
  · simpa only [word,hptrs] using h.member
  · simpa only [word,hptrs,hheap] using h.back

/-- The pointers of `id` are replaced by `g`; every other id is left alone. -/
theorem Groups.replace (h : Groups s G) (id : ℕ) (g : List ℕ) (hnum : s'.numPtrs = s.numPtrs)
    (hfar : ∀ j, G.farLayout j ⊆ G'.farLayout j) (hbase : s'.farMem.base = s.farMem.base)
    (hring : G'.ring = update G.ring id g)
    (hvalue : ∀ id', id' ≠ id → G'.value id' = G.value id')
    (hptrs : ∀ p, p ∉ g → p ∉ G.ring id → s'.ptrs p = s.ptrs p)
    (hfresh : ∀ p ∈ g, p ∈ G.ring id ∨ (s.word p).isNull = true)
    (hleft : ∀ p ∈ G.ring id, p ∉ g → (s'.word p).isNull = true)
    (hheap : ∀ a o, s.heap a = some o → o.isFreed = false → a ∉ G.retired → o.objId ≠ id →
      s'.heap a = some o ∧ (a ∈ G'.marked ↔ a ∈ G.marked) ∧ a ∉ G'.retired)
    (hremote : ∀ id', id' ≠ id → FarBlock s G id' (readObject s.remote id').length →
      readObject s'.remote id' = readObject s.remote id')
    (hgroup : g ≠ [] → Group s' G' id g)
    (hback : ∀ a o, s'.heap a = some o → o.isFreed = false → a ∉ G'.retired →
      (s.heap a = some o ∧ a ∉ G.retired ∧ o.objId ≠ id) ∨
      (o.objId = id ∧ o.ptrAddr ∈ g ∧ (s'.word o.ptrAddr).isPresent = true ∧
        (s'.word o.ptrAddr).getObjectAddr = a))
    (hlive : ∀ id' a o, Local s G id' (G.ring id') a o → o.isFreed = false) : Groups s' G' := by
  have hsame : ∀ {id'}, id' ≠ id → G'.ring id' = G.ring id' := by
    intro id' hne
    rw [hring,update_of_ne hne]
  have hself : G'.ring id = g := by rw [hring,update_self]
  -- a member of another id is neither in the old nor in the new group
  have hother : ∀ {id' p}, id' ≠ id → p ∈ G.ring id' → p ∉ g ∧ p ∉ G.ring id := by
    intro id' p hne hp
    have hout : p ∉ G.ring id := fun hp' => hne (h.disjoint p id' id hp hp')
    refine ⟨fun hg => ?_,hout⟩
    rcases hfresh p hg with hin | hnull
    · exact hout hin
    · rw [(h.group id' (Groups.ne_nil hp)).notNull hp] at hnull
      cases hnull
  have hcell : ∀ {id' p}, id' ≠ id → p ∈ G.ring id' → s'.ptrs p = s.ptrs p := by
    intro id' p hne hp
    exact hptrs p (hother hne hp).1 (hother hne hp).2
  refine ⟨?_,?_,?_,?_⟩
  · intro id' hne
    by_cases hid : id' = id
    · subst hid
      rw [hself] at hne ⊢
      exact hgroup hne
    · rw [hsame hid] at hne ⊢
      refine (h.group id' hne).frame hnum hfar hbase (fun p hp => hcell hid hp) ?_
        (hremote id' hid) (hvalue id' hid)
      intro a o hl
      exact hheap a o hl.object (hlive id' a o hl) hl.current (by rw [hl.objId]; exact hid)
  · intro p hnull
    by_cases hg : p ∈ g
    · exact ⟨id,by rwa [hself]⟩
    · by_cases hold : p ∈ G.ring id
      · rw [hleft p hold hg] at hnull
        cases hnull
      · have hp := hptrs p hg hold
        obtain ⟨id',hid'⟩ := h.member p (by rwa [word,hp] at hnull)
        have hne : id' ≠ id := fun he => hold (he ▸ hid')
        exact ⟨id',by rwa [hsame hne]⟩
  · intro p id1 id2 h1 h2
    by_cases he1 : id1 = id <;> by_cases he2 : id2 = id
    · rw [he1,he2]
    · subst he1
      rw [hself] at h1
      rw [hsame he2] at h2
      exact absurd h1 (hother he2 h2).1
    · subst he2
      rw [hself] at h2
      rw [hsame he1] at h1
      exact absurd h2 (hother he1 h1).1
    · rw [hsame he1] at h1
      rw [hsame he2] at h2
      exact h.disjoint p id1 id2 h1 h2
  · intro a o ho hf hr
    rcases hback a o ho hf hr with ⟨ho',hr',hne⟩ | ⟨rfl,hg,hpr,ha⟩
    · obtain ⟨hm,hpr,ha⟩ := h.back a o ho' hf hr'
      rw [hsame hne,word,hcell hne hm]
      exact ⟨hm,hpr,ha⟩
    · rw [hself]
      exact ⟨hg,hpr,ha⟩

theorem Inv.local_isFreed (h : Inv count farCount s G)
    (hl : Local s G id (G.ring id) a o) : o.isFreed = false := by
  have hb := (h.groups.group id (Groups.ne_nil hl.owner)).bound _ hl.owner
  exact Object.isFreed_of_lt (hb.trans_le h.numPtrs)

theorem Layout.ok (h : Layout count s G) (ho : s.heap a = some o) : ObjectOk o := by
  obtain ⟨i,b,hb,rfl⟩ := h.block a o ho
  obtain ⟨o',ho',hok,-⟩ := h.object i b hb
  rw [ho] at ho'
  cases ho'
  exact hok

theorem FarLayout.disjoint (h : FarLayout farCount s G) {id' n' : ℕ} (hb : FarBlock s G id n)
    (hb' : FarBlock s G id' n') (hne : id' ≠ id) :
    id'+sizeFor n' ≤ id ∨ id+sizeFor n ≤ id' := by
  obtain ⟨j,c,hc,rfl,hn⟩ := hb
  obtain ⟨j',c',hc',rfl,hn'⟩ := hb'
  rcases h.wf.block_disjoint hc' hc hne with hd | hd <;> omega

theorem FarLayout.id_bounds (h : FarLayout farCount s G) (hb : FarBlock s G id n) :
    0 < id ∧ id < 2^38 := by
  obtain ⟨j,c,hc,rfl,-⟩ := hb
  have hf := h.wf.fits hc
  have hl := h.wf.large j c hc
  have hj := h.wf.managed j (List.ne_nil_of_mem hc)
  have hmul : (j+1)*kSize ≤ farCount*kSize := Nat.mul_le_mul_right _ hj
  rw [Nat.add_mul,Nat.one_mul] at hmul
  have hbound := h.bound
  rw [Manager.addr,h.base]
  unfold kObjectPos at hf
  omega

theorem FarLayout.same (h : FarLayout farCount s G) (hfarMem : s'.farMem = s.farMem)
    (hF : G'.farLayout = G.farLayout) : FarLayout farCount s' G' :=
  ⟨by rw [hfarMem,hF]; exact h.wf,by rw [hfarMem]; exact h.base,h.bound⟩

/-- What is at an address stays there, or is replaced by an object of the same size. -/
def SameSize (s s' : State) (a : ℕ) : Prop :=
  s'.heap a = s.heap a ∨
    ∃ o o', s.heap a = some o ∧ s'.heap a = some o' ∧ ObjectOk o' ∧ o'.size = o.size

theorem Layout.inPlace (h : Layout count s G) (hcache : s'.cache = s.cache)
    (hfrom : s'.fromRegions = s.fromRegions) (hL : G'.layout = G.layout)
    (hmarked : ∀ a ∈ G'.marked, ∃ i ∈ s.fromRegions, ∃ off, off < kSize ∧ a = s.cache.addr i off)
    (hretired : G'.retired ⊆ G'.marked) (hheap : ∀ a, SameSize s s' a) : Layout count s' G' := by
  refine ⟨?_,?_,?_,?_,?_,hretired⟩
  · rw [hcache,hfrom,hL]
    exact h.wf
  · rw [hcache]
    exact h.bound
  · intro i b hb
    rw [hL] at hb
    obtain ⟨o,ho,hok,hsize⟩ := h.object i b hb
    rw [hcache]
    rcases hheap (s.cache.addr i b.1) with he | ⟨o0,o',ho0,ho',hok',hs⟩
    · exact ⟨o,he.trans ho,hok,hsize⟩
    · rw [ho] at ho0
      cases ho0
      exact ⟨o',ho',hok',by rw [hs,hsize]⟩
  · intro a o' ho'
    rw [hL,hcache]
    rcases hheap a with he | ⟨o,-,ho,-⟩
    · exact h.block a o' (he.symm.trans ho')
    · exact h.block a o ho
  · rw [hcache,hfrom]
    exact hmarked

theorem Layout.setCache (h : Layout count s G)
    (hwf : cache.WF count G.layout s.fromRegions) (hbase : cache.base = s.cache.base) :
    Layout count (s.setCache cache) G := by
  refine ⟨hwf,by rw [setCache_cache,hbase]; exact h.bound,?_,?_,?_,h.retired⟩
  · intro i b hb
    rw [setCache_cache,Manager.addr_congr hbase]
    exact h.object i b hb
  · intro a o ho
    obtain ⟨i,b,hb,ha⟩ := h.block a o ho
    exact ⟨i,b,hb,by rw [ha,setCache_cache,Manager.addr_congr hbase]⟩
  · intro a ha
    obtain ⟨i,hi,off,hoff,he⟩ := h.marked a ha
    exact ⟨i,hi,off,hoff,by rw [he,setCache_cache,Manager.addr_congr hbase]⟩

/-- A new object in the block an allocation has returned; the others may change
in place. -/
theorem Layout.alloc (h : Layout count s G)
    (hal : s.cache.Allocated cache count G.layout s.fromRegions size a i b) (hok : ObjectOk o)
    (hsize : o.size = size) (hcache : s'.cache = cache) (hfrom : s'.fromRegions = s.fromRegions)
    (hL : G'.layout = update G.layout i (G.layout i++[b])) (hmarked : G'.marked = G.marked)
    (hretired : G'.retired ⊆ G'.marked) (hnew : s'.heap a = some o)
    (hheap : ∀ x, x ≠ a → SameSize s s' x) : Layout count s' G' := by
  have hmem : ∀ {j c}, c ∈ G'.layout j ↔ c ∈ G.layout j ∨ (j = i ∧ c = b) := by
    intro j c
    rw [hL]
    by_cases hj : j = i
    · subst hj
      simp
    · simp [hj]
  have haddr : ∀ j off, s'.cache.addr j off = s.cache.addr j off := by
    intro j off
    rw [hcache,Manager.addr_congr hal.base]
  refine ⟨by rw [hcache,hfrom,hL]; exact hal.wf,by rw [hcache,hal.base]; exact h.bound,?_,?_,?_,
    hretired⟩
  · intro j c hc
    rw [haddr]
    rcases hmem.mp hc with hc | ⟨rfl,rfl⟩
    · obtain ⟨o',ho',hok',hs⟩ := h.object j c hc
      rcases hheap _ (hal.fresh hc) with he | ⟨o0,o'',ho0,ho'',hok'',hs''⟩
      · exact ⟨o',he.trans ho',hok',hs⟩
      · rw [ho'] at ho0
        cases ho0
        exact ⟨o'',ho'',hok'',by rw [hs'',hs]⟩
    · exact ⟨o,by rw [← hal.address,hnew],hok,by rw [hsize,hal.reserved]⟩
  · intro x o' ho'
    by_cases hx : x = a
    · exact ⟨i,b,hmem.mpr (.inr ⟨rfl,rfl⟩),by rw [hx,hal.address,haddr]⟩
    · obtain ⟨o'',ho⟩ : ∃ o'', s.heap x = some o'' := by
        rcases hheap x hx with he | ⟨o'',-,ho,-⟩
        · exact ⟨o',he.symm.trans ho'⟩
        · exact ⟨o'',ho⟩
      obtain ⟨j,c,hc,he⟩ := h.block x o'' ho
      exact ⟨j,c,hmem.mpr (.inl hc),by rw [he,haddr]⟩
  · intro x hx
    obtain ⟨j,hj,off,hoff,he⟩ := h.marked x (hmarked ▸ hx)
    exact ⟨j,hfrom ▸ hj,off,hoff,by rw [he,haddr]⟩

theorem alloc_layout
    (hal : s.cache.Allocated cache count G.layout s.fromRegions size a i b) :
    ∀ j ∈ s.fromRegions, update G.layout i (G.layout i++[b]) j = G.layout j := by
  intro j hj
  have hne : j ≠ i := fun he => hal.outside (he ▸ hj)
  rw [update_of_ne hne]

/-- The block an allocation returns is unused, unmarked and within reach of a
metadata word. -/
theorem Layout.alloc_fresh (h : Layout count s G)
    (hal : s.cache.Allocated cache count G.layout s.fromRegions size a i b) :
    s.heap a = none ∧ a ∉ G.marked ∧ a ∉ G.retired ∧ a+kHeaderSize < 2^47 := by
  have hfits := hal.wf.fits hal.mem
  have hlarge := hal.wf.large i b hal.mem
  have hmark : a ∉ G.marked := by
    intro ha
    obtain ⟨j,hj,off,hoff,he⟩ := h.marked a ha
    rw [hal.address] at he
    obtain ⟨rfl,-⟩ := Manager.addr_inj (by omega) hoff he
    exact hal.outside hj
  refine ⟨?_,hmark,fun hr => hmark (h.retired hr),?_⟩
  · cases ho : s.heap a with
    | none => rfl
    | some o =>
      obtain ⟨j,c,hc,he⟩ := h.block a o ho
      exact absurd he.symm (hal.fresh hc)
  · have hb := h.bound
    have hmul : (i+1)*kSize ≤ count*kSize := Nat.mul_le_mul_right _ hal.bound
    rw [Nat.add_mul,Nat.one_mul] at hmul
    rw [hal.address]
    unfold Manager.addr
    omega

theorem Local.ne_of_objId {x : ℕ} (hl : Local s G id g a o) (ho : s.heap x = some o')
    (hne : o'.objId ≠ id) : x ≠ a := by
  rintro rfl
  rw [hl.object] at ho
  cases ho
  exact hne hl.objId

theorem Local.sameSize (hl : Local s G id g a o) (hat : s'.heap a = some o')
    (hof : ∀ x, x ≠ a → s'.heap x = s.heap x) (hok : ObjectOk o') (hsize : o'.size = o.size) (x : ℕ) :
    SameSize s s' x := by
  by_cases hx : x = a
  · subst hx
    exact .inr ⟨o,o',hl.object,hat,hok,hsize⟩
  · exact .inl (hof x hx)

theorem Groups.unique (h : Groups s G) {a' : ℕ}
    (hl : Local s G id (G.ring id) a o) (ho : s.heap a' = some o') (hf : o'.isFreed = false)
    (hr : a' ∉ G.retired) (hid : o'.objId = id) : a' = a ∧ o' = o := by
  obtain ⟨hm,-,ha⟩ := h.back a' o' ho hf hr
  rw [hid] at hm
  have haddr := (hl.words _ hm).2.1
  have he : a' = a := by rw [← ha,haddr]
  subst he
  rw [hl.object] at ho
  cases ho
  exact ⟨rfl,rfl⟩

theorem Groups.none_of_absent (h : Groups s G) (ha : Absent s G id (G.ring id))
    (ho : s.heap a = some o) (hf : o.isFreed = false) (hr : a ∉ G.retired) : o.objId ≠ id := by
  intro hid
  obtain ⟨hm,hpr,-⟩ := h.back a o ho hf hr
  rw [hid] at hm
  rw [(ha.words _ hm).1] at hpr
  cases hpr

/-- An operation that moves, rewrites or marks the object of one id, for all its
pointers at once. -/
theorem Groups.keep (h : Groups s G) (hne : G.ring id ≠ []) (hnum : s'.numPtrs = s.numPtrs)
    (hfar : G'.farLayout = G.farLayout) (hbase : s'.farMem.base = s.farMem.base)
    (hring : G'.ring = G.ring) (hvalue : ∀ id', id' ≠ id → G'.value id' = G.value id')
    (hptrs : ∀ p, p ∉ G.ring id → s'.ptrs p = s.ptrs p)
    (hcells : ∀ p ∈ G.ring id, s'.nextPtr p = s.nextPtr p ∧
      (s'.word p).isShared = (s.word p).isShared)
    (hheap : ∀ a o, s.heap a = some o → o.isFreed = false → a ∉ G.retired → o.objId ≠ id →
      s'.heap a = some o ∧ (a ∈ G'.marked ↔ a ∈ G.marked) ∧ a ∉ G'.retired)
    (hremote : ∀ id', id' ≠ id → FarBlock s G id' (readObject s.remote id').length →
      readObject s'.remote id' = readObject s.remote id')
    (hplace : Absent s' G' id (G.ring id) ∧ (∀ a o, s'.heap a = some o → o.isFreed = false →
        a ∉ G'.retired → s.heap a = some o ∧ a ∉ G.retired ∧ o.objId ≠ id) ∨
      ∃ a0 o0, Local s' G' id (G.ring id) a0 o0 ∧ ∀ a o, s'.heap a = some o → o.isFreed = false →
        a ∉ G'.retired → (s.heap a = some o ∧ a ∉ G.retired ∧ o.objId ≠ id) ∨ (a = a0 ∧ o = o0))
    (hlive : ∀ id' a o, Local s G id' (G.ring id') a o → o.isFreed = false) : Groups s' G' := by
  have hg := h.group id hne
  refine h.replace id (G.ring id) hnum (fun j => by rw [hfar]; exact List.Subset.refl _) hbase
    (by rw [hring,update_eq_self]) hvalue (fun p hp _ => hptrs p hp) (fun p hp => .inl hp)
    (fun p hp hp' => absurd hp hp') hheap hremote ?_ ?_ hlive
  · intro _
    refine ⟨hg.nodup,fun p hp => hnum ▸ hg.bound p hp,?_,?_⟩
    · rcases hg.kind with ⟨p,hp,hs⟩ | ⟨hr,hs⟩
      · exact .inl ⟨p,hp,by rw [(hcells p (by simp [hp])).2,hs]⟩
      · exact .inr ⟨hr.congr fun q hq => (hcells q hq).1,fun p hp => by rw [(hcells p hp).2,hs p hp]⟩
    · rcases hplace with ⟨ha,-⟩ | ⟨a0,o0,hl,-⟩
      · exact .inl ha
      · exact .inr ⟨a0,o0,hl⟩
  · intro a o ho hf hr
    rcases hplace with ⟨-,hall⟩ | ⟨a0,o0,hl,hall⟩
    · exact .inl (hall a o ho hf hr)
    · rcases hall a o ho hf hr with hold | ⟨rfl,rfl⟩
      · exact .inl hold
      · exact .inr ⟨hl.objId,hl.owner,(hl.words _ hl.owner).1,(hl.words _ hl.owner).2.1⟩

/-- What the accesses that move data around leave alone. -/
structure Keeps (s s' : State) (G G' : Ghost) : Prop where
  ring : G'.ring = G.ring
  farLayout : G'.farLayout = G.farLayout
  marked : G'.marked = G.marked
  retired : G'.retired = G.retired
  value : G'.value = G.value
  numPtrs : s'.numPtrs = s.numPtrs
  farMem : s'.farMem = s.farMem
  fromRegions : s'.fromRegions = s.fromRegions
  phase : s'.phase = s.phase
  base : s'.cache.base = s.cache.base
  layout : ∀ i ∈ s.fromRegions, G'.layout i = G.layout i
  shared : ∀ p, (s'.word p).isShared = (s.word p).isShared

/-- Words that keep the shared bit inside a group and stay as they are outside. -/
theorem shared_of_cells {g : List ℕ} (hptrs : ∀ q, q ∉ g → s'.ptrs q = s.ptrs q)
    (hg : ∀ q ∈ g, (s'.word q).isShared = (s.word q).isShared) (q : ℕ) :
    (s'.word q).isShared = (s.word q).isShared := by
  by_cases hq : q ∈ g
  · exact hg q hq
  · rw [word,hptrs q hq]
    rfl

theorem Keeps.refl (s : State) (G : Ghost) : Keeps s s G G :=
  ⟨rfl,rfl,rfl,rfl,rfl,rfl,rfl,rfl,rfl,rfl,fun _ _ => rfl,fun _ => rfl⟩

theorem Keeps.trans {s'' : State} {G'' : Ghost} (h : Keeps s s' G G') (h' : Keeps s' s'' G' G'') :
    Keeps s s'' G G'' :=
  ⟨h'.ring.trans h.ring,h'.farLayout.trans h.farLayout,h'.marked.trans h.marked,
    h'.retired.trans h.retired,h'.value.trans h.value,h'.numPtrs.trans h.numPtrs,
    h'.farMem.trans h.farMem,h'.fromRegions.trans h.fromRegions,h'.phase.trans h.phase,
    h'.base.trans h.base,fun i hi => (h'.layout i (h.fromRegions ▸ hi)).trans (h.layout i hi),
    fun p => (h'.shared p).trans (h.shared p)⟩

theorem Inv.setCache (h : Inv count farCount s G)
    (hwf : cache.WF count G.layout s.fromRegions) (hbase : cache.base = s.cache.base) :
    Inv count farCount (s.setCache cache) G :=
  ⟨h.layout.setCache hwf hbase,h.far.same rfl rfl,h.groups.same rfl rfl rfl rfl rfl,h.numPtrs⟩

theorem Keeps.setCache (s : State) (G : Ghost) (h : cache.base = s.cache.base) :
    Keeps s (s.setCache cache) G G :=
  ⟨rfl,rfl,rfl,rfl,rfl,rfl,rfl,rfl,rfl,h,fun _ _ => rfl,fun _ => rfl⟩

end Basic

end FarMemory.RuntimeInvariant
