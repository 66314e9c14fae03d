import FarMemory.ListPositions

/-!
# Inserting and erasing

For resident chunks. An insertion at an item, with or without a split, and an erasure,
with the removal of the chunk or a merge, lead from one list of chunks to another whose
items are as expected.
-/
namespace FarMemory.ChunkedList
open DoublyLinked ChunkListData Function

structure Config.Valid (cfg : Config) : Prop where
  min : kMinNumNodesPerChunk ≤ cfg.numNodesPerChunk
  max : cfg.numNodesPerChunk ≤ kMaxNumNodesPerChunk

theorem Config.ofList_valid (itemSize : ℕ) (enableMerge customizedSplit : Bool) (prefetchNumNodes : ℕ)
    (junk : Node ChunkNodePtr) : (Config.ofList itemSize enableMerge customizedSplit prefetchNumNodes junk).Valid := by
  constructor
  · exact le_max_left _ _
  · exact max_le (by decide) (min_le_left _ _)

section
variable {T : Type} {cfg : Config} {rev : Bool} {s : Resident T} {front back n new : ℕ} {L L1 L2 : List ChunkEntry}
  {ps ps1 ps2 : List ChunkNodePtr} {it : GenericIterator} {xs ys : List (Option T)} {c0 : ChunkListData T}
  {s' : Resident T} {j : ℕ}

theorem Shape.fields (h : Shape cfg rev s front back L) (cnt : ℕ → ℕ) (size : ℕ) :
    Shape cfg rev {s with cnt := cnt, size := size} front back L :=
  ⟨h.linked,h.ends,h.chunks,h.pool,h.pooled,h.fresh⟩

structure Counted (s : Resident T) (front back : ℕ) (L : List ChunkEntry) : Prop where
  ends : s.cnt front = kInvalidCnt ∧ s.cnt back = kInvalidCnt
  chunks : ∀ e ∈ L, s.cnt e.1 = e.2.length

def Filled (cfg : Config) (L : List ChunkEntry) : Prop := ∀ e ∈ L, e.2 ≠ [] ∧ e.2.length ≤ cfg.numNodesPerChunk

theorem flat_length (L : List ChunkEntry) : (flat L).length = (L.map fun e => e.2.length).sum := by
  simp [flat,List.length_flatMap]

theorem Inv.counted (h : Inv cfg rev s front back L) : Counted s front back L := ⟨h.cnt_ends,h.cnt⟩

theorem Inv.of_parts (h : Shape cfg rev s front back L) (hcnt : Counted s front back L) (hfilled : Filled cfg L)
    (hsize : s.size = (flat L).length) : Inv cfg rev s front back L :=
  ⟨h,hcnt.ends,hcnt.chunks,hfilled,hsize.trans (flat_length L)⟩

theorem Counted.setCnt {s0 : Resident T} {ps0 ps' : List ChunkNodePtr} (hs : Shape cfg rev s0 front back (L1++(n,ps0)::L2))
    (h : Counted s front back (L1++(n,ps)::L2)) (hcnt : s'.cnt = update s.cnt n ps'.length) :
    Counted s' front back (L1++(n,ps')::L2) := by
  obtain ⟨hfront,hback,hothers⟩ := hs.nodup
  refine ⟨⟨?_,?_⟩,fun e he => ?_⟩
  · rw [hcnt,update_of_ne hfront.symm]
    exact h.ends.1
  · rw [hcnt,update_of_ne hback.symm]
    exact h.ends.2
  · rcases (by simpa [or_left_comm] using he : e = (n,ps') ∨ e ∈ L1 ∨ e ∈ L2) with rfl | he
    · rw [hcnt,update_self]
    · rw [hcnt,update_of_ne (hothers e (List.mem_append.mpr he))]
      exact h.chunks e (by simp only [List.mem_append,List.mem_cons]; tauto)

theorem Counted.add (h : Counted s front back (L1++L2)) (hcnt : s'.cnt = update s.cnt new 0)
    (hnew : new ∉ front::((L1++L2).map Prod.fst++[back])) : Counted s' front back (L1++(new,[])::L2) := by
  have hkeep : ∀ m ∈ front::((L1++L2).map Prod.fst++[back]), s'.cnt m = s.cnt m := by
    intro m hm
    rw [hcnt,update_of_ne (fun heq : m = new => hnew (heq ▸ hm))]
  refine ⟨⟨?_,?_⟩,fun e he => ?_⟩
  · rw [hkeep front (by simp)]
    exact h.ends.1
  · rw [hkeep back (by simp)]
    exact h.ends.2
  · rcases (by simpa [or_left_comm] using he : e = (new,[]) ∨ e ∈ L1 ∨ e ∈ L2) with rfl | he
    · rw [hcnt,update_self]
      rfl
    · have he' : e ∈ L1++L2 := List.mem_append.mpr he
      rw [hkeep e.1 (List.mem_cons_of_mem _ (List.mem_append_left _ (List.mem_map_of_mem he')))]
      exact h.chunks e he'

theorem Shape.place (h : Shape cfg rev s front back (L1++(n,ps1++ps2)::L2)) (hcnt : Counted s front back (L1++(n,ps1++ps2)::L2))
    (hk : cfg.numNodesPerChunk ≤ 64) (hlen : (ps1++ps2).length < cfg.numNodesPerChunk) (x : T) :
    ∃ p s', s.place (resident T) cfg rev ⟨n,ps2.headD (lastPtr rev)⟩ x = s' ∧ s'.size = s.size ∧
      Shape cfg rev s' front back (L1++(n,ps1++p::ps2)::L2) ∧ Counted s' front back (L1++(n,ps1++p::ps2)::L2) ∧
      items s' (L1++(n,ps1++p::ps2)::L2) = (flat L1++ps1.map (GenericIterator.mk n)).map (itemOf s)++some x::
        (ps2.map (GenericIterator.mk n)++flat L2).map (itemOf s) ∧
      ∀ it ∈ flat (L1++(n,ps1++ps2)::L2), itemOf s' it = itemOf s it := by
  have hn : s.cnt n = (ps1++ps2).length := hcnt.chunks (n,ps1++ps2) (by simp)
  obtain ⟨p,c,hinsert,hwrite⟩ := (h.fields (update s.cnt n (s.cnt n+1)) s.size).insertItem hk hlen
  obtain ⟨store,hstore,h',hnew,hitems⟩ := hwrite (some x)
  refine ⟨p,{s with cnt := update s.cnt n (s.cnt n+1), store := store},?_,rfl,h',?_,?_,hitems⟩
  · simp only [GenericList.place,GenericList.setCnt,update_resident]
    rw [hinsert]
    exact hstore
  · refine hcnt.setCnt h ?_
    change update s.cnt n (s.cnt n+1) = _
    rw [hn]
    congr 1
    simp only [List.length_append,List.length_cons]
    omega
  · have hflat : flat (L1++(n,ps1++p::ps2)::L2) = (flat L1++ps1.map (GenericIterator.mk n))++⟨n,p⟩::
        (ps2.map (GenericIterator.mk n)++flat L2) := by simp
    have hbehind := List.map_congr_left (l := flat L1++ps1.map (GenericIterator.mk n)) fun it hit => hitems it (by
      simp only [flat_append,flat_cons,List.map_append,List.mem_append] at hit ⊢
      tauto)
    have hahead := List.map_congr_left (l := ps2.map (GenericIterator.mk n)++flat L2) fun it hit => hitems it (by
      simp only [flat_append,flat_cons,List.map_append,List.mem_append] at hit ⊢
      tauto)
    rw [items,hflat,List.map_append,List.map_cons,hnew,hbehind,hahead]
    rfl

/-! ### Splitting -/

theorem getElem?_replace {α : Type} [DecidableEq α] {A B : List α} {x y z : α} (hnodup : (A++x::B).Nodup)
    (h : (A++x::B)[j]? = some z) : (A++y::B)[j]? = some (if z = x then y else z) := by
  obtain hj | rfl | hj := lt_trichotomy j A.length
  · rw [List.getElem?_append_left hj] at h ⊢
    rw [h,if_neg]
    rintro rfl
    exact (List.nodup_middle.mp hnodup |> List.nodup_cons.mp).1 (List.mem_append_left _ (List.mem_of_getElem? h))
  · rw [List.getElem?_append_right le_rfl,Nat.sub_self,List.getElem?_cons_zero] at h ⊢
    rw [if_pos (Option.some.inj h).symm]
  · rw [List.getElem?_append_right hj.le,show j-A.length = (j-A.length-1)+1 by omega,List.getElem?_cons_succ] at h ⊢
    rw [h,if_neg]
    rintro rfl
    exact (List.nodup_middle.mp hnodup |> List.nodup_cons.mp).1 (List.mem_append_right _ (List.mem_of_getElem? h))

theorem flat_moved {qs rs : List ChunkNodePtr} {p q : ChunkNodePtr}
    (hnew : itemOf s' ⟨new,q⟩ = itemOf s ⟨n,p⟩) (hitems : ∀ it ∈ flat (L1++(new,qs)::(n,rs)::L2), itemOf s' it = itemOf s it) :
    ∃ A B, flat (L1++(new,qs)::(n,p::rs)::L2) = A++⟨n,p⟩::B ∧ flat (L1++(new,qs++[q])::(n,rs)::L2) = A++⟨new,q⟩::B ∧
      items s' (L1++(new,qs++[q])::(n,rs)::L2) = items s (L1++(new,qs)::(n,p::rs)::L2) := by
  have hflat : flat (L1++(new,qs)::(n,p::rs)::L2) = (flat L1++qs.map (GenericIterator.mk new))++⟨n,p⟩::
      (rs.map (GenericIterator.mk n)++flat L2) := by simp
  have hflat' : flat (L1++(new,qs++[q])::(n,rs)::L2) = (flat L1++qs.map (GenericIterator.mk new))++⟨new,q⟩::
      (rs.map (GenericIterator.mk n)++flat L2) := by simp
  refine ⟨_,_,hflat,hflat',?_⟩
  have hkeep : ∀ l : List GenericIterator, l ⊆ flat (L1++(new,qs)::(n,rs)::L2) → l.map (itemOf s') = l.map (itemOf s) :=
    fun l hl => List.map_congr_left fun it hit => hitems it (hl hit)
  have hbehind := hkeep (flat L1++qs.map (GenericIterator.mk new)) (by
    intro it hit
    simp only [flat_append,flat_cons,List.mem_append] at hit ⊢
    tauto)
  have hahead := hkeep (rs.map (GenericIterator.mk n)++flat L2) (by
    intro it hit
    simp only [flat_append,flat_cons,List.mem_append] at hit ⊢
    tauto)
  rw [items,items,hflat,hflat',List.map_append,List.map_cons,hbehind,hahead,hnew,← List.map_cons,← List.map_append]

theorem splitLoop_spec (hk : cfg.numNodesPerChunk ≤ 64) {p : ChunkNodePtr} (i : ℕ) : ∀ (s : Resident T)
    (qs rs : List ChunkNodePtr) (ret : GenericIterator), Shape cfg rev s front back (L1++(new,qs)::(n,rs)::L2) →
    qs.length+i ≤ cfg.numNodesPerChunk → i ≤ rs.length → (flat (L1++(new,qs)::(n,rs)::L2))[j]? = some ret →
    (p ∈ rs → ret = ⟨n,p⟩) → (p ∉ rs → ret.localIter = new) →
    ∃ ret' store qs' rs', s.splitLoop (resident T) cfg rev ⟨n,p⟩ new (lastPtr rev) i (rs.headD (lastPtr rev)) ret =
        (ret',{s with store := store}) ∧
      Shape cfg rev {s with store := store} front back (L1++(new,qs')::(n,rs')::L2) ∧ qs'.length = qs.length+i ∧
      rs'.length = rs.length-i ∧ (flat (L1++(new,qs')::(n,rs')::L2))[j]? = some ret' ∧
      (ret'.localIter = new ∨ ret'.localIter = n) ∧
      items {s with store := store} (L1++(new,qs')::(n,rs')::L2) = items s (L1++(new,qs)::(n,rs)::L2) := by
  induction i with
  | zero =>
    intro s qs rs ret h _ _ hj hstay hgone
    refine ⟨ret,s.store,qs,rs,rfl,h,rfl,rfl,hj,?_,rfl⟩
    by_cases hp : p ∈ rs
    · rw [hstay hp]
      exact .inr rfl
    · exact .inl (hgone hp)
  | succ i ih =>
    intro s qs rs ret h hlen hi hj hstay hgone
    cases rs with
    | nil => simp at hi
    | cons c rs =>
      obtain ⟨q,store,hmove,h1,hnew,hitems⟩ := h.moveItem hk (by omega)
      obtain ⟨A,B,hflat,hflat',hsame⟩ := flat_moved hnew hitems
      have hj' := getElem?_replace (y := ⟨new,q⟩) (hflat ▸ h.flat_nodup) (hflat ▸ hj)
      rw [← hflat'] at hj'
      have hne : n ≠ new := fun heq => h.nodup.2.2 (n,c::rs) (by simp) heq
      have hcs : c ∉ rs := (List.nodup_cons.mp (h.chunks (n,c::rs) (by simp)).nodup).1
      have hlast : ((store new).node (lastPtr rev)).behind rev = q := by
        have hwf := h1.chunk
        have hbehind : ((store new).node (([] : List ChunkNodePtr).headD ((store new).last rev))).behind rev = q := hwf.behind
        rwa [List.headD_nil,hwf.last_eq] at hbehind
      -- the iterator follows its item
      have hret : (if c = p then (⟨new,((store new).node (lastPtr rev)).behind rev⟩ : GenericIterator) else ret) =
          if ret = ⟨n,c⟩ then ⟨new,q⟩ else ret := by
        rw [hlast]
        by_cases hcp : c = p
        · subst hcp
          rw [if_pos rfl,if_pos (hstay (by simp))]
        · rw [if_neg hcp,if_neg]
          rintro rfl
          by_cases hp : p ∈ c::rs
          · exact hcp (GenericIterator.mk.inj (hstay hp)).2
          · exact hne (hgone hp)
      have hstay' : p ∈ rs → (if ret = ⟨n,c⟩ then (⟨new,q⟩ : GenericIterator) else ret) = ⟨n,p⟩ := by
        intro hp
        have hcp : c ≠ p := fun heq => hcs (heq ▸ hp)
        have hret := hstay (List.mem_cons_of_mem c hp)
        rw [if_neg fun heq => hcp (GenericIterator.mk.inj (heq.symm.trans hret)).2]
        exact hret
      have hgone' : p ∉ rs → (if ret = ⟨n,c⟩ then (⟨new,q⟩ : GenericIterator) else ret).localIter = new := by
        intro hp
        by_cases hcp : ret = ⟨n,c⟩
        · rw [if_pos hcp]
        · rw [if_neg hcp]
          by_cases hp' : p = c
          · subst hp'
            exact absurd (hstay (by simp)) hcp
          · exact hgone (by simp [hp',hp])
      obtain ⟨ret',store',qs',rs',hloop,h2,hqs,hrs,hj2,hside,hitems2⟩ := ih {s with store := store} (qs++[q]) rs _ h1
        (by simp only [List.length_append,List.length_singleton]; omega)
        (by simp only [List.length_cons] at hi; omega) hj' hstay' hgone'
      refine ⟨ret',store',qs',rs',?_,h2,?_,?_,hj2,hside,hitems2.trans hsame⟩
      · simp only [GenericList.splitLoop,List.headD_cons,hmove,chunk_resident,hret]
        exact hloop
      · rw [hqs,List.length_append,List.length_singleton]
        omega
      · rw [hrs,List.length_cons]
        omega

theorem items_new (hnew : new ∉ L.map Prod.fst) (hstore : s'.store = update s.store new c0) :
    ∀ it ∈ flat L, itemOf s' it = itemOf s it := by
  intro it hit
  obtain ⟨e,he,hn,-⟩ := mem_flat.mp hit
  have hne : it.localIter ≠ new := fun heq => hnew (heq ▸ hn ▸ List.mem_map_of_mem he)
  rw [itemOf,hstore,update_of_ne hne,itemOf]

theorem Shape.splitLocalListNode (h : Shape cfg rev s front back L) (hcnt : Counted s front back L) (hfilled : Filled cfg L)
    (hcfg : cfg.Valid) (hplain : cfg.customizedSplit = false) (hj : (flat L)[j]? = some it) (hfull : s.cnt it.localIter = cfg.numNodesPerChunk) :
    ∃ it' s' L', s.splitLocalListNode (resident T) cfg rev it = (it',s') ∧ s'.size = s.size ∧
      Shape cfg rev s' front back L' ∧ Counted s' front back L' ∧ Filled cfg L' ∧ (flat L')[j]? = some it' ∧
      items s' L' = items s L ∧ s'.cnt it'.localIter < cfg.numNodesPerChunk := by
  obtain ⟨F1,F2,hF⟩ := List.append_of_mem (List.mem_of_getElem? hj)
  obtain ⟨L1,ps1,ps2,L2,hL,-,-⟩ := flat_split hF
  obtain ⟨n,p⟩ := it
  dsimp only at hL hfull
  generalize hps : ps1++p::ps2 = ps at hL
  subst hL
  have hp : p ∈ ps := by simp [← hps]
  have hlen : ps.length = cfg.numNodesPerChunk := (hcnt.chunks (n,ps) (by simp)).symm.trans hfull
  have hmin : 8 ≤ cfg.numNodesPerChunk := hcfg.min
  obtain ⟨new,s1,hadd,h1,hstore,hcnt1,hsize,hnew⟩ := h.addLocalListNode hcfg.max
    (rfl : (((n,ps)::L2).map Prod.fst).headD back = n)
  change s.addLocalListNode (resident T) cfg rev n = _ at hadd
  have hfirst : (s1.store n).first rev = ps.headD (lastPtr rev) := by
    have hwf := h1.chunks (n,ps) (by simp)
    rw [hwf.first,hwf.last_eq]
  have hlast : (s1.store new).last rev = lastPtr rev := h1.chunk.last_eq rev
  have hflat : flat (L1++(new,[])::(n,ps)::L2) = flat (L1++(n,ps)::L2) := by simp
  obtain ⟨it',store,qs,rs,hloop,h2,hqs,hrs,hj',hside,hitems⟩ := splitLoop_spec hcfg.max (cfg.numNodesPerChunk/2) s1 [] ps ⟨n,p⟩ h1
    (by simp; omega) (by omega) (hflat ▸ hj) (fun _ => rfl) (fun hnot => absurd hp hnot)
  rw [List.length_nil,Nat.zero_add] at hqs
  rw [hlen] at hrs
  have hne : n ≠ new := fun heq => hnew (by simp [heq])
  have hcounted1 : Counted {s1 with cnt := update s1.cnt new (cfg.numNodesPerChunk/2)} front back
      (L1++(new,qs)::(n,ps)::L2) := (hcnt.add hcnt1 hnew).setCnt h1 (by rw [hqs])
  refine ⟨it',_,_,?_,?_,h2.fields (update (update s1.cnt new (cfg.numNodesPerChunk/2)) n
    (cfg.numNodesPerChunk-cfg.numNodesPerChunk/2)) s1.size,?_,?_,hj',?_,?_⟩
  · simp only [GenericList.splitLocalListNode,hadd,chunk_resident,hfirst,hlast,hplain,Bool.false_eq_true,if_false,hloop,
      GenericList.setCnt]
  · exact hsize
  · rw [List.append_cons] at h2 hcounted1 ⊢
    exact hcounted1.setCnt h2 (by rw [hrs])
  · intro e he
    rcases (by simpa [or_left_comm] using he : e = (new,qs) ∨ e = (n,rs) ∨ e ∈ L1 ∨ e ∈ L2) with rfl | rfl | he
    · change qs ≠ [] ∧ qs.length ≤ _
      exact ⟨List.ne_nil_of_length_pos (by omega),by omega⟩
    · change rs ≠ [] ∧ rs.length ≤ _
      exact ⟨List.ne_nil_of_length_pos (by omega),by omega⟩
    · exact hfilled e (by simp only [List.mem_append,List.mem_cons]; tauto)
  · refine hitems.trans ?_
    rw [items,hflat]
    refine List.map_congr_left (items_new ?_ hstore)
    exact fun hmem => hnew (List.mem_cons_of_mem _ (List.mem_append_left _ hmem))
  · change update (update s1.cnt new (cfg.numNodesPerChunk/2)) n
      (cfg.numNodesPerChunk-cfg.numNodesPerChunk/2) it'.localIter < _
    rcases hside with hit | hit
    · rw [hit,update_of_ne hne.symm,update_self]
      omega
    · rw [hit,update_self]
      omega

/-! ### Inserting -/

theorem Filled.update {ps' : List ChunkNodePtr} (h : Filled cfg (L1++(n,ps)::L2))
    (hps : ps' ≠ [] ∧ ps'.length ≤ cfg.numNodesPerChunk) : Filled cfg (L1++(n,ps')::L2) := by
  intro e he
  rcases (by simpa [or_left_comm] using he : e = (n,ps') ∨ e ∈ L1 ∨ e ∈ L2) with rfl | he
  · exact hps
  · exact h e (by simp only [List.mem_append,List.mem_cons]; tauto)

theorem Inv.place_item (h : Shape cfg rev s front back L) (hcnt : Counted s front back L) (hfilled : Filled cfg L)
    (hsize : s.size = (flat L).length+1) (hk : cfg.numNodesPerChunk ≤ 64) {F1 F2 : List GenericIterator}
    (hF : flat L = F1++it::F2) (hroom : s.cnt it.localIter < cfg.numNodesPerChunk) (x : T) :
    ∃ s' L', s.place (resident T) cfg rev it x = s' ∧ Inv cfg rev s' front back L' ∧
      Position s' rev back L' it (F1.map (itemOf s)++[some x]) ((it::F2).map (itemOf s)) := by
  obtain ⟨L1,ps1,ps2,L2,rfl,rfl,rfl⟩ := flat_split hF
  have hlen : s.cnt it.localIter = (ps1++it.chunkIter::ps2).length := hcnt.chunks (_,ps1++it.chunkIter::ps2) (by simp)
  obtain ⟨p,s',hplace,hsize',h',hcnt',hitems,hkeep⟩ := h.place hcnt hk (hlen ▸ hroom) x
  have hflat : flat (L1++(it.localIter,ps1++p::it.chunkIter::ps2)::L2) =
      ((flat L1++ps1.map (GenericIterator.mk it.localIter))++[⟨it.localIter,p⟩])++it::
        (ps2.map (GenericIterator.mk it.localIter)++flat L2) := by simp
  refine ⟨s',_,hplace,.of_parts h' hcnt' (hfilled.update ⟨by simp,?_⟩) ?_,?_⟩
  · simp only [List.length_append,List.length_cons] at hlen ⊢
    omega
  · rw [hsize',hsize]
    simp only [flat_append,flat_cons,List.map_append,List.map_cons,List.length_append,List.length_cons]
    omega
  · have hpos : Position s' rev back _ it _ _ := .item hflat
    rw [items,hflat,List.append_assoc,List.map_append] at hitems
    obtain ⟨hbehind,hahead⟩ := List.append_inj hitems (by simp)
    rw [List.singleton_append,List.map_cons,List.cons.injEq] at hahead
    have hnew : itemOf s' ⟨it.localIter,p⟩ = some x := hahead.1
    rw [List.map_append,hbehind,hahead.2,List.map_singleton,hnew] at hpos
    exact hpos

theorem split_of_getElem? {α : Type} {l : List α} {x : α} (h : l[j]? = some x) : ∃ l1 l2, l = l1++x::l2 ∧ l1.length = j := by
  obtain ⟨hlt,hget⟩ := List.getElem?_eq_some_iff.mp h
  refine ⟨l.take j,l.drop (j+1),?_,?_⟩
  · rw [← hget,List.getElem_cons_drop,List.take_append_drop]
  · rw [List.length_take,min_eq_left hlt.le]

theorem Position.getElem? {y : Option T} (hp : Position s rev back L it xs (y::ys)) : (flat L)[xs.length]? = some it := by
  cases hp with
  | item hL => simp [hL]

theorem Inv.insert_item {y : Option T} (h : Inv cfg rev s front back L) (hcfg : cfg.Valid)
    (hplain : s.cnt it.localIter = cfg.numNodesPerChunk → cfg.customizedSplit = false)
    (hp : Position s rev back L it xs (y::ys)) (x : T) :
    ∃ it' s' L', s.insert (resident T) cfg rev it x = (it',s') ∧ Inv cfg rev s' front back L' ∧
      Position s' rev back L' it' (xs++[some x]) (y::ys) := by
  have hsize : s.size = (flat L).length := h.size.trans (flat_length L).symm
  have h0 := h.toShape.fields s.cnt (s.size+1)
  have hcnt0 : Counted {s with size := s.size+1} front back L := ⟨h.cnt_ends,h.cnt⟩
  by_cases hfull : s.cnt it.localIter = cfg.numNodesPerChunk
  · obtain ⟨it',s1,L1,hsplit,hsize1,h1,hcnt1,hfilled1,hj,hitems,hroom⟩ :=
      h0.splitLocalListNode hcnt0 h.filled hcfg (hplain hfull) hp.getElem? hfull
    obtain ⟨F1,F2,hF,hlen⟩ := split_of_getElem? hj
    have happend : F1.map (itemOf s1)++(it'::F2).map (itemOf s1) = xs++y::ys := by
      rw [← List.map_append,← hF]
      exact hitems.trans hp.append.symm
    obtain ⟨hxs,hys⟩ := List.append_inj happend (by rw [List.length_map,hlen])
    have hlen1 : (flat L1).length = (flat L).length := by simpa only [items,List.length_map] using congrArg List.length hitems
    obtain ⟨s',L',hplace,h',hpos⟩ := Inv.place_item h1 hcnt1 hfilled1 (by rw [hsize1,hlen1,hsize]) hcfg.max hF hroom x
    rw [hxs,hys] at hpos
    refine ⟨it',s',L',?_,h',hpos⟩
    simp only [GenericList.insert,if_pos hfull]
    rw [hsplit,hplace]
  · cases hp with
    | @item _ F1 F2 hF =>
      have hroom : s.cnt it.localIter < cfg.numNodesPerChunk := by
        obtain ⟨L1,ps1,ps2,L2,rfl,-,-⟩ := flat_split hF
        have := h.filled (it.localIter,ps1++it.chunkIter::ps2) (by simp)
        rw [h.cnt (it.localIter,ps1++it.chunkIter::ps2) (by simp)] at hfull ⊢
        omega
      obtain ⟨s',L',hplace,h',hpos⟩ := Inv.place_item h0 hcnt0 h.filled (congrArg (·+1) hsize) hcfg.max hF hroom x
      refine ⟨it,s',L',?_,h',hpos⟩
      simp only [GenericList.insert,if_neg hfull]
      rw [hplace]

theorem Shape.place_first (h : Shape cfg rev s front back ((new,[])::L)) (hcnt : Counted s front back ((new,[])::L))
    (hfilled : Filled cfg L) (hsize : s.size = (flat L).length+1) (hcfg : cfg.Valid) (x : T) :
    ∃ s' L', s.place (resident T) cfg rev ⟨new,lastPtr rev⟩ x = s' ∧ Inv cfg rev s' front back L' ∧
      items s' L' = some x::items s L := by
  have hmin : 8 ≤ cfg.numNodesPerChunk := hcfg.min
  obtain ⟨p,s',hplace,hsize',h',hcnt',hitems,-⟩ := Shape.place
    (show Shape cfg rev s front back ([]++(new,[]++[])::L) from h) hcnt hcfg.max (by simp; omega) x
  refine ⟨s',_,hplace,.of_parts h' hcnt' ?_ ?_,hitems⟩
  · intro e he
    rcases List.mem_cons.mp he with rfl | he
    · refine ⟨List.cons_ne_nil _ _,?_⟩
      change 1 ≤ _
      omega
    · exact hfilled e he
  · rw [hsize',hsize]
    simp [Nat.add_comm]

theorem Inv.size_eq (h : Inv cfg rev s front back L) : s.size = (flat L).length := h.size.trans (flat_length L).symm

theorem Inv.size_ne_zero {e : ChunkEntry} (h : Inv cfg rev s front back (e::L)) : s.size ≠ 0 := by
  have hne := (h.filled e (by simp)).1
  rw [h.size_eq,flat_cons,List.length_append,List.length_map]
  have := List.length_pos_iff.mpr hne
  omega

/-- The chunk for the first item, which is put in front of the back of the local list in the forward direction. -/
theorem Inv.addFirst (h : Inv cfg rev s front back []) (hcfg : cfg.Valid) :
    ∃ new s', s.addLocalListNode (resident T) cfg false (s.links localTail).prev = (new,s') ∧ s'.size = s.size ∧
      Shape cfg rev s' front back [(new,[])] ∧ Counted s' front back [(new,[])] := by
  have key : ∀ front back, Inv cfg false s front back [] →
      ∃ new s', s.addLocalListNode (resident T) cfg false (s.links localTail).prev = (new,s') ∧ s'.size = s.size ∧
      Shape cfg false s' front back [(new,[])] ∧ Counted s' front back [(new,[])] := by
    intro front back h
    have hback : (s.links localTail).prev = back := h.linked.behind (A := [localHead,front])
    obtain ⟨new,s',hadd,h',-,hcnt,hsize,hnew⟩ := Shape.addLocalListNode
      (show Shape cfg false s front back ([]++[]) from h.toShape) hcfg.max rfl
    have hcnt' : Counted s front back ([]++[]) := h.counted
    exact ⟨new,s',by rw [hback]; exact hadd,hsize,h',hcnt'.add hcnt hnew⟩
  cases rev with
  | false => exact key front back h
  | true =>
    obtain ⟨new,s',hadd,hsize,h',hcnt⟩ := key back front h.mirror
    exact ⟨new,s',hadd,hsize,h'.mirror,hcnt.ends.symm,hcnt.chunks⟩

theorem Inv.push (h : Inv cfg rev s front back L) (hcfg : cfg.Valid) (x : T) :
    ∃ s' L', s.push (resident T) cfg rev x = s' ∧ Inv cfg rev s' front back L' ∧ items s' L' = some x::items s L := by
  have hmin : 8 ≤ cfg.numNodesPerChunk := hcfg.min
  cases L with
  | nil =>
    have hsize : s.size = 0 := h.size
    obtain ⟨new,s1,hadd,hsize1,h1,hcnt1⟩ := h.addFirst hcfg
    have hbegin : s1.beginIter (resident T) rev = (⟨new,lastPtr rev⟩,s1) := by
      rw [h1.beginIter]
      change ((⟨new,(s1.store new).first rev⟩ : GenericIterator),s1) = _
      have hwf := h1.chunks (new,[]) (by simp)
      rw [hwf.first,hwf.last_eq]
      rfl
    have hroom : s1.cnt new ≠ cfg.numNodesPerChunk := by
      rw [hcnt1.chunks (new,[]) (by simp)]
      change 0 ≠ _
      omega
    obtain ⟨s',L',hplace,h',hitems⟩ := (h1.fields s1.cnt (s1.size+1)).place_first ⟨hcnt1.ends,hcnt1.chunks⟩
      (by simp [Filled]) (by simp [hsize1,hsize]) hcfg x
    refine ⟨s',L',?_,h',hitems⟩
    simp only [GenericList.push,GenericList.empty,hsize,decide_true,if_true,hadd,hbegin,GenericList.insert,if_neg hroom]
    exact hplace
  | cons e L =>
    have hsize := h.size_ne_zero
    obtain ⟨it,hbegin,hpos⟩ := h.beginIter
    by_cases hcustom : s.cnt it.localIter = cfg.numNodesPerChunk ∧ cfg.customizedSplit = true
    · have hit : it.localIter = e.1 := congrArg (fun r => r.1.localIter) (hbegin.symm.trans h.toShape.beginIter)
      obtain ⟨new,s1,hadd,h1,hstore,hcnt1,hsize1,hnew⟩ := Shape.addLocalListNode
        (show Shape cfg rev {s with size := s.size+1} front back ([]++e::L) from h.toShape.fields s.cnt (s.size+1)) hcfg.max
        (show ((e::L).map Prod.fst).headD back = it.localIter from hit.symm)
      have hcnt : Counted {s with size := s.size+1} front back ([]++e::L) := ⟨h.cnt_ends,h.cnt⟩
      obtain ⟨s',L',hplace,h',hitems⟩ := h1.place_first (hcnt.add hcnt1 hnew) h.filled (by rw [hsize1,h.size_eq]) hcfg x
      have hlast : (s1.store new).last rev = lastPtr rev := (h1.chunks (new,[]) (by simp)).last_eq rev
      refine ⟨s',L',?_,h',?_⟩
      · simp only [GenericList.push,GenericList.empty,decide_eq_true_eq,if_neg hsize,hbegin,GenericList.insert,if_pos hcustom.1,GenericList.splitLocalListNode,
          hadd,chunk_resident,hlast,hcustom.2,if_true]
        exact hplace
      · rw [hitems,items,items,List.map_congr_left (items_new ?_ hstore)]
        · rfl
        · exact fun hmem => hnew (List.mem_cons_of_mem _ (List.mem_append_left _ hmem))
    · cases hitems : items s (e::L) with
      | nil =>
        rw [h.size_eq,← List.length_map (itemOf s)] at hsize
        exact absurd (congrArg List.length hitems) hsize
      | cons y ys =>
        rw [hitems] at hpos
        obtain ⟨it',s',L',hinsert,h',hpos'⟩ := h.insert_item hcfg
          (fun hfull => Bool.eq_false_iff.mpr fun hc => hcustom ⟨hfull,hc⟩) hpos x
        refine ⟨s',L',?_,h',hpos'.append.symm⟩
        simp only [GenericList.push,GenericList.empty,decide_eq_true_eq,if_neg hsize,hbegin,hinsert]

end

end FarMemory.ChunkedList
