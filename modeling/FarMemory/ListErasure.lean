import FarMemory.ListOperations

/-!
# Erasing

For resident chunks. An erasure takes one item out, with the removal of its chunk or a
merge with the next one. Where the erased item was the last of a chunk with other items,
the iterator that comes back is at the end of the chunk, which is no position of the list.
-/
namespace FarMemory.ChunkedList
open DoublyLinked ChunkListData Function

section
variable {T : Type} {cfg : Config} {rev : Bool} {s : Resident T} {front back n next : ℕ} {L L1 L2 : List ChunkEntry}
  {ps ps1 ps2 : List ChunkNodePtr} {it : GenericIterator} {xs ys : List (Option T)}

theorem Position.of_items {F1 F2 : List GenericIterator} (hF : flat L = F1++it::F2) (hitems : items s L = xs++ys)
    (hlen : F1.length = xs.length) : Position s rev back L it xs ys := by
  have hpos : Position s rev back L it _ _ := .item hF
  obtain ⟨hxs,hys⟩ := List.append_inj (hpos.append.trans hitems) (by rw [List.length_map,hlen])
  rwa [hxs,hys] at hpos

/-! ### Merging -/

theorem mergeLoop_spec (hk : cfg.numNodesPerChunk ≤ 64) (rs : List ChunkNodePtr) : ∀ (s : Resident T) (qs : List ChunkNodePtr),
    Shape cfg rev s front back (L1++(n,qs)::(next,rs)::L2) → qs.length+rs.length ≤ cfg.numNodesPerChunk →
    ∃ store ts, s.mergeLoop (resident T) cfg rev n next (lastPtr rev) rs.length (rs.headD (lastPtr rev)) =
        {s with store := store} ∧
      Shape cfg rev {s with store := store} front back (L1++(n,qs++ts)::(next,[])::L2) ∧ ts.length = rs.length ∧
      items {s with store := store} (L1++(n,qs++ts)::(next,[])::L2) = items s (L1++(n,qs)::(next,rs)::L2) := by
  induction rs with
  | nil =>
    intro s qs h _
    exact ⟨s.store,[],rfl,by rwa [List.append_nil],rfl,by rw [List.append_nil]⟩
  | cons c rs ih =>
    intro s qs h hlen
    rw [List.length_cons] at hlen
    obtain ⟨q,store,hmove,h1,hnew,hitems⟩ := h.moveItem hk (by omega)
    obtain ⟨A,B,-,-,hsame⟩ := flat_moved hnew hitems
    obtain ⟨store',ts,hloop,h2,hts,hitems2⟩ := ih {s with store := store} (qs++[q]) h1
      (by rw [List.length_append,List.length_singleton]; omega)
    rw [List.append_assoc,List.singleton_append] at h2 hitems2
    refine ⟨store',q::ts,?_,h2,?_,hitems2.trans hsame⟩
    · simp only [List.length_cons,GenericList.mergeLoop,List.headD_cons,hmove]
      exact hloop
    · rw [List.length_cons,List.length_cons,hts]

theorem Counted.sub {L' : List ChunkEntry} {s' : Resident T} (h : Counted s front back L) (hsub : L' ⊆ L)
    (hcnt : s'.cnt = s.cnt) : Counted s' front back L' := by
  refine ⟨?_,fun e he => ?_⟩
  · rw [hcnt]
    exact h.ends
  · rw [hcnt]
    exact h.chunks e (hsub he)

theorem Inv.mergeLocalListNode {qs rs : List ChunkNodePtr} (h : Inv cfg rev s front back (L1++(n,qs)::(next,rs)::L2))
    (hk : cfg.numNodesPerChunk ≤ 64) (hsum : qs.length+rs.length ≤ cfg.numNodesPerChunk) :
    ∃ s' ts, s.mergeLocalListNode (resident T) cfg rev n next = s' ∧ Inv cfg rev s' front back (L1++(n,qs++ts)::L2) ∧
      items s' (L1++(n,qs++ts)::L2) = items s (L1++(n,qs)::(next,rs)::L2) := by
  have hcntn : s.cnt n = qs.length := h.cnt (n,qs) (by simp)
  have hcnt : s.cnt next = rs.length := h.cnt (next,rs) (by simp)
  have hlast : (s.store n).last rev = lastPtr rev := (h.chunks (n,qs) (by simp)).last_eq rev
  have hfirst : (s.store next).first rev = rs.headD (lastPtr rev) := by
    have hwf := h.chunks (next,rs) (by simp)
    rw [hwf.first,hwf.last_eq]
  obtain ⟨store,ts,hloop,h1,hts,hitems⟩ := mergeLoop_spec hk rs {s with cnt := update s.cnt n (s.cnt n+s.cnt next)} qs
    (h.toShape.fields _ s.size) hsum
  rw [List.append_cons] at h1
  obtain ⟨s',herase,h2,hstore,hcnt',hsize⟩ := h1.eraseLocal
  rw [← List.append_cons] at h2
  have hcounted : Counted {s with cnt := update s.cnt n (s.cnt n+s.cnt next)} front back
      (L1++(n,qs++ts)::(next,rs)::L2) := by
    refine h.counted.setCnt h.toShape ?_
    rw [hcntn,hcnt,List.length_append,hts]
  have hitems' : items s' (L1++(n,qs++ts)::L2) = items s (L1++(n,qs)::(next,rs)::L2) := by
    refine Eq.trans ?_ hitems
    have hof : itemOf s' = itemOf {s with cnt := update s.cnt n (s.cnt n+s.cnt next), store := store} := by
      funext it
      rw [itemOf,hstore]
      rfl
    rw [items,items,hof]
    simp
  refine ⟨s',ts,?_,.of_parts h2 (hcounted.sub ?_ hcnt') ?_ ?_,hitems'⟩
  · simp only [GenericList.mergeLocalListNode,update_resident,GenericList.setCnt,chunk_resident,hlast,hfirst]
    rw [hcnt] at hloop ⊢
    rw [hloop]
    rw [hcnt] at herase
    rw [herase]
  · intro e he
    simp only [List.mem_append,List.mem_cons] at he ⊢
    tauto
  · intro e he
    rcases (by simpa [or_left_comm] using he : e = (n,qs++ts) ∨ e ∈ L1 ∨ e ∈ L2) with rfl | he
    · have hqs := (h.filled (n,qs) (by simp)).1
      change qs++ts ≠ [] ∧ (qs++ts).length ≤ _
      refine ⟨by simp [hqs],?_⟩
      rw [List.length_append,hts]
      exact hsum
    · exact h.filled e (by simp only [List.mem_append,List.mem_cons]; tauto)
  · have hlen := congrArg List.length hitems'
    rw [items,items,List.length_map,List.length_map] at hlen
    rw [hlen,hsize,← h.size_eq]

/-! ### Erasing -/

/-- The item is the last of its chunk, and not the only one. -/
def EndsChunk (s : Resident T) (rev : Bool) (it : GenericIterator) : Prop :=
  ((s.store it.localIter).node it.chunkIter).ahead rev = (s.store it.localIter).last rev ∧ s.cnt it.localIter ≠ 1

instance (s : Resident T) (rev : Bool) (it : GenericIterator) : Decidable (EndsChunk s rev it) :=
  inferInstanceAs (Decidable (_ ∧ _))

theorem Config.Valid.mergeThresh_le (hcfg : cfg.Valid) :
    cfg.mergeThresh ≤ cfg.numNodesPerChunk ∧ cfg.mergeThresh < kInvalidCnt := by
  have hmax : cfg.numNodesPerChunk ≤ 64 := hcfg.max
  simp only [Config.mergeThresh,kInvalidCnt,kMaxNumNodesPerChunk]
  omega

/-- The part of `erase` after the item is out, for a chunk with other items: there may be a merge. -/
theorem Inv.merge (h : Inv cfg rev s front back (L1++(n,ps)::L2)) (hcfg : cfg.Valid)
    (hnext : next = (L2.map Prod.fst).headD back) :
    ∃ s' ts L', (if s.cnt n+s.cnt next ≤ cfg.mergeThresh then s.mergeLocalListNode (resident T) cfg rev n next else s) = s' ∧
      Inv cfg rev s' front back (L1++(n,ps++ts)::L') ∧ items s' (L1++(n,ps++ts)::L') = items s (L1++(n,ps)::L2) := by
  obtain ⟨hle,hlt⟩ := hcfg.mergeThresh_le
  by_cases hmerge : s.cnt n+s.cnt next ≤ cfg.mergeThresh
  · rw [if_pos hmerge]
    cases L2 with
    | nil =>
      -- the chunks at the ends have a count beyond the threshold
      rw [hnext] at hmerge
      have := h.cnt_ends.2
      change s.cnt n+s.cnt back ≤ _ at hmerge
      omega
    | cons e L2 =>
      obtain ⟨m,rs⟩ := e
      change next = m at hnext
      subst hnext
      have hn : s.cnt n = ps.length := h.cnt (n,ps) (by simp)
      have hm : s.cnt next = rs.length := h.cnt (next,rs) (by simp)
      obtain ⟨s',ts,hs',h',hitems⟩ := h.mergeLocalListNode hcfg.max (by omega)
      exact ⟨s',ts,L2,hs',h',hitems⟩
  · rw [if_neg hmerge]
    exact ⟨s,[],L2,rfl,by rwa [List.append_nil],by rw [List.append_nil]⟩

theorem Inv.endsChunk_iff {p : ChunkNodePtr} (h : Inv cfg rev s front back (L1++(n,ps1++p::ps2)::L2)) :
    EndsChunk s rev ⟨n,p⟩ ↔ ps2 = [] ∧ ps1 ≠ [] := by
  have hwf := h.toShape.chunk
  have hn : s.cnt n = (ps1++p::ps2).length := h.cnt (n,ps1++p::ps2) (by simp)
  change (((s.store n).node p).ahead rev = (s.store n).last rev ∧ s.cnt n ≠ 1) ↔ _
  rw [hwf.ahead,hn]
  cases ps2 with
  | nil => simp
  | cons q ps2 =>
    have hne : q ≠ (s.store n).last rev := hwf.ne_last (by simp) rev
    simp [hne]

theorem Inv.eraseOnly {p : ChunkNodePtr} (h : Inv cfg rev s front back (L1++(n,[p])::L2)) :
    ∃ it' s', s.erase (resident T) cfg rev ⟨n,p⟩ = (it',s') ∧ Inv cfg rev s' front back (L1++L2) ∧
      Position s' rev back (L1++L2) it' (items s L1) (items s L2) := by
  have hn : s.cnt n = 1 := h.cnt (n,[p]) (by simp)
  obtain ⟨store,herase,h1,hitems1⟩ := Shape.eraseItem
    (show Shape cfg rev {s with size := s.size-1} front back (L1++(n,[]++[p])::L2) from h.toShape.fields s.cnt (s.size-1))
  have h2 := h1.fields (update s.cnt n 0) (s.size-1)
  have hsame := prefetchFsm_same cfg rev ((s.links n).ahead rev) {s with size := s.size-1, store := store, cnt := update s.cnt n 0}
  obtain ⟨s',hlocal,h',hstore,hcnt,hsize⟩ := (hsame.shape h2).eraseLocal
  have hcounted : Counted s' front back (L1++L2) := by
    have hzero : Counted {s with cnt := update s.cnt n 0} front back (L1++(n,[])::L2) := h.counted.setCnt h.toShape rfl
    refine hzero.sub ?_ (hcnt.trans hsame.cnt)
    intro e he
    simp only [List.mem_append,List.mem_cons] at he ⊢
    tauto
  have hinv : Inv cfg rev s' front back (L1++L2) := by
    refine .of_parts h' hcounted (fun e he => h.filled e ?_) ?_
    · simp only [List.mem_append,List.mem_cons] at he ⊢
      tauto
    · rw [hsize,hsame.size]
      change s.size-1 = _
      rw [h.size_eq]
      simp only [flat_append,flat_cons,List.length_append,List.length_map,List.length_singleton]
      omega
  have hof : itemOf s' = itemOf s := by
    funext it
    refine Eq.trans ?_ (hitems1 it)
    rw [itemOf,hstore,hsame.store]
    rfl
  have hpos := hinv.first rfl
  refine ⟨⟨(L2.map Prod.fst).headD back,(s'.store ((L2.map Prod.fst).headD back)).first rev⟩,s',?_,hinv,?_⟩
  · simp only [GenericList.erase,update_resident,herase,GenericList.setCnt,hn,Nat.sub_self,if_true,
      GenericList.removeLocalListNode,hlocal]
    exact iterAt_resident _ _ _
  · rw [items,items,hof] at hpos
    exact hpos

theorem Inv.erase {y : Option T} (h : Inv cfg rev s front back L) (hcfg : cfg.Valid)
    (hp : Position s rev back L it xs (y::ys)) :
    ∃ it' s' L', s.erase (resident T) cfg rev it = (it',s') ∧ Inv cfg rev s' front back L' ∧ items s' L' = xs++ys ∧
      (¬EndsChunk s rev it → Position s' rev back L' it' xs ys) ∧
      (EndsChunk s rev it → it' = ⟨it.localIter,lastPtr rev⟩ ∧ it.localIter ∈ L'.map Prod.fst) := by
  cases hp with
  | @item _ F1 F2 hF =>
    obtain ⟨L1,ps1,ps2,L2,hL,rfl,rfl⟩ := flat_split hF
    obtain ⟨n,p⟩ := it
    dsimp only at hL
    subst hL
    by_cases hnil : ps1 = [] ∧ ps2 = []
    · obtain ⟨rfl,rfl⟩ := hnil
      obtain ⟨it',s',herase,h',hpos⟩ := Inv.eraseOnly (show Inv cfg rev s front back (L1++(n,[p])::L2) from h)
      refine ⟨it',s',L1++L2,herase,h',?_,fun _ => ?_,fun hends => absurd rfl (h.endsChunk_iff.mp hends).2⟩
      · rw [← hpos.append,List.map_nil,List.append_nil]
        rfl
      · rw [List.map_nil,List.append_nil]
        exact hpos
    · have hpos : 0 < (ps1++ps2).length := List.length_pos_iff.mpr (by simpa using hnil)
      have hn : s.cnt n = (ps1++p::ps2).length := h.cnt (n,ps1++p::ps2) (by simp)
      have hcnt : s.cnt n-1 = (ps1++ps2).length := by
        rw [hn]
        simp only [List.length_append,List.length_cons]
        omega
      have hcnt0 : s.cnt n-1 ≠ 0 := by omega
      obtain ⟨store,herase,h1,hitems1⟩ := (h.toShape.fields s.cnt (s.size-1)).eraseItem
      have hinv : Inv cfg rev {s with size := s.size-1, store := store, cnt := update s.cnt n (s.cnt n-1)} front back
          (L1++(n,ps1++ps2)::L2) := by
        refine .of_parts (h1.fields _ _) (h.counted.setCnt h.toShape (by rw [hcnt])) (Filled.update h.filled ⟨?_,?_⟩) ?_
        · exact List.length_pos_iff.mp hpos
        · have := (h.filled (n,ps1++p::ps2) (by simp)).2
          simp only [List.length_append,List.length_cons] at this ⊢
          omega
        · change s.size-1 = _
          rw [h.size_eq]
          simp only [flat_append,flat_cons,List.length_append,List.length_map,List.length_cons]
          omega
      have hahead : (s.links n).ahead rev = (L2.map Prod.fst).headD back := h.toShape.ahead
      have hmerge : ∃ s' ts L', s.erase (resident T) cfg rev ⟨n,p⟩ = (⟨n,ps2.headD (lastPtr rev)⟩,s') ∧
          Inv cfg rev s' front back (L1++(n,(ps1++ps2)++ts)::L') ∧
          items s' (L1++(n,(ps1++ps2)++ts)::L') = (flat (L1++(n,ps1++ps2)::L2)).map (itemOf s) := by
        have hof := List.map_congr_left (l := flat (L1++(n,ps1++ps2)::L2)) fun it _ => hitems1 it
        cases hm : cfg.enableMerge with
        | true =>
          have hsame := prefetchFsm_same cfg rev ((s.links n).ahead rev)
            {s with size := s.size-1, store := store, cnt := update s.cnt n (s.cnt n-1)}
          obtain ⟨s',ts,L',hs',h',hitems'⟩ := (hsame.inv hinv).merge hcfg hahead
          refine ⟨s',ts,L',?_,h',hitems'.trans ((hsame.items _).trans hof)⟩
          simp only [hsame.cnt,update_self] at hs'
          simp only [GenericList.erase,update_resident,herase,GenericList.setCnt,if_neg hcnt0,hm,if_true,hsame.cnt]
          exact congrArg (Prod.mk _) hs'
        | false =>
          refine ⟨_,[],L2,?_,by rwa [List.append_nil],by rw [List.append_nil]; exact hof⟩
          simp only [GenericList.erase,update_resident,herase,GenericList.setCnt,if_neg hcnt0,hm,Bool.false_eq_true,if_false]
      obtain ⟨s',ts,L',herase',h',hitems'⟩ := hmerge
      refine ⟨_,s',_,herase',h',?_,fun hends => ?_,fun hends => ?_⟩
      · rw [hitems']
        simp
      · cases ps2 with
        | nil => exact absurd (h.endsChunk_iff.mpr ⟨rfl,by simpa using hnil⟩) hends
        | cons q ps2 =>
          have hF' : flat (L1++(n,(ps1++q::ps2)++ts)::L') = (flat L1++ps1.map (GenericIterator.mk n))++⟨n,q⟩::
              (ps2.map (GenericIterator.mk n)++ts.map (GenericIterator.mk n)++flat L') := by simp
          refine Position.of_items hF' (hitems'.trans ?_) (by simp)
          simp
      · obtain ⟨rfl,-⟩ := h.endsChunk_iff.mp hends
        exact ⟨rfl,by simp⟩

theorem Inv.pop {y : Option T} (h : Inv cfg rev s front back L) (hcfg : cfg.Valid) (hitems : items s L = y::ys) :
    ∃ s' L', s.pop (resident T) cfg rev = s' ∧ Inv cfg rev s' front back L' ∧ items s' L' = ys := by
  obtain ⟨it,hbegin,hpos⟩ := h.beginIter
  rw [hitems] at hpos
  obtain ⟨it',s',L',herase,h',hitems',-⟩ := h.erase hcfg hpos
  refine ⟨s',L',?_,h',hitems'⟩
  simp only [GenericList.pop,hbegin,herase]

/-! ### The constructor -/

theorem Inv.new (hk : cfg.numNodesPerChunk ≤ 64) (store : ℕ → ChunkListData T) :
    ∃ front back, Inv cfg false (GenericList.new (resident T) cfg store) front back [] := by
  have hl0 : Linked id true (GenericList.blank store).links ([localTail]++localHead::[]) :=
    ⟨by decide,.cons_cons ⟨rfl,rfl⟩ (.singleton _)⟩
  obtain ⟨front,s1,hinsert1,hnew1,hl1,hpool1,hpooled1,hfresh1,hcnt1,hstore1,hsize1⟩ := insertLocal_spec hl0
    (List.cons_ne_nil _ _) List.nodup_nil (by simp [GenericList.blank])
    (by simp [GenericList.blank,localTail,localHead])
  have hprev : (s1.links localTail).prev = front := hl1.ahead (A := [])
  obtain ⟨back,s2,hinsert2,hnew2,hl2,hpool2,hpooled2,hfresh2,hcnt2,hstore2,hsize2⟩ := insertLocal_spec hl1
    (List.cons_ne_nil _ _) hpool1 hpooled1 hfresh1
  have hback : (s2.links localTail).prev = back := hl2.ahead (A := [])
  have hfront : (s2.links localHead).next = front := hl2.behind (A := [localTail,back])
  have hne : front ≠ back := fun heq => hnew2 (by simp [heq])
  have hnew : GenericList.new (resident T) cfg store =
      {s2 with
        store := update (update s2.store front (.init cfg)) back (.init cfg)
        cnt := update (update s2.cnt front kInvalidCnt) back kInvalidCnt} := by
    have hprev0 : ((GenericList.blank store).links localTail).prev = localHead := rfl
    simp only [GenericList.new,hprev0,hinsert1,hprev,hinsert2,hfront,hback]
    rfl
  rw [hnew]
  have hshape : Shape cfg true {s2 with
      store := update (update s2.store front (.init cfg)) back (.init cfg)
      cnt := update (update s2.cnt front kInvalidCnt) back kInvalidCnt} back front [] := by
    refine ⟨hl2,⟨?_,?_⟩,by simp,hpool2,hpooled2,hfresh2⟩
    · simp only [update_self]
      exact ChunkListData.WF.init hk
    · simp only [update_of_ne hne,update_self]
      exact ChunkListData.WF.init hk
  refine ⟨front,back,.of_parts hshape.mirror ⟨⟨?_,?_⟩,by simp⟩ (by simp [Filled]) ?_⟩
  · change update (update s2.cnt front kInvalidCnt) back kInvalidCnt front = _
    rw [update_of_ne hne,update_self]
  · exact update_self _ _ _
  · exact (hsize2.trans hsize1)

end

end FarMemory.ChunkedList
