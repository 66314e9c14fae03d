import FarMemory.ChunkInvariant

/-!
# Lists as lists of chunks

For resident chunks. A `Shape` names the chunks between the two at the ends, with the
nodes that each of them links, all read in one direction. The functions on the local
list and on a chunk change one entry of it; the counts come on top in `Inv`.
-/
namespace FarMemory.ChunkedList
open DoublyLinked ChunkListData Function

/-- A list whose chunks are resident. -/
abbrev Resident (T : Type) := GenericList (ℕ → ChunkListData T)

/-- A local node and the nodes its chunk links. -/
abbrev ChunkEntry := ℕ × List ChunkNodePtr

/-- The end of the local list itself. -/
def outer (rev : Bool) : ℕ := if rev then localHead else localTail

structure Shape {T : Type} (cfg : Config) (rev : Bool) (s : Resident T) (front back : ℕ) (L : List ChunkEntry) : Prop where
  linked : Linked id rev s.links (outer (!rev)::front::(L.map Prod.fst++[back,outer rev]))
  ends : (s.store front).WF cfg rev [] ∧ (s.store back).WF cfg rev []
  chunks : ∀ e ∈ L, (s.store e.1).WF cfg rev e.2
  pool : s.pool.Nodup
  pooled : ∀ n ∈ s.pool, n < s.fresh ∧ n ∉ outer (!rev)::front::(L.map Prod.fst++[back,outer rev])
  fresh : ∀ n ∈ outer (!rev)::front::(L.map Prod.fst++[back,outer rev]), n < s.fresh

structure Inv {T : Type} (cfg : Config) (rev : Bool) (s : Resident T) (front back : ℕ) (L : List ChunkEntry) : Prop
    extends Shape cfg rev s front back L where
  cnt_ends : s.cnt front = kInvalidCnt ∧ s.cnt back = kInvalidCnt
  cnt : ∀ e ∈ L, s.cnt e.1 = e.2.length
  filled : ∀ e ∈ L, e.2 ≠ [] ∧ e.2.length ≤ cfg.numNodesPerChunk
  size : s.size = (L.map fun e => e.2.length).sum

section
variable {T : Type} {cfg : Config} {rev : Bool} {s : Resident T} {front back n : ℕ} {L L1 L2 : List ChunkEntry}
  {ps ps1 ps2 : List ChunkNodePtr} {c : ChunkListData T}

def flat (L : List ChunkEntry) : List GenericIterator := L.flatMap fun e => e.2.map (GenericIterator.mk e.1)

@[simp] theorem flat_nil : flat [] = [] := rfl

@[simp] theorem flat_cons {e : ChunkEntry} : flat (e::L) = e.2.map (GenericIterator.mk e.1)++flat L := rfl

@[simp] theorem flat_append : flat (L1++L2) = flat L1++flat L2 := List.flatMap_append

theorem flat_split {it : GenericIterator} {F1 F2 : List GenericIterator} (h : flat L = F1++it::F2) :
    ∃ L1 ps1 ps2 L2, L = L1++(it.localIter,ps1++it.chunkIter::ps2)::L2 ∧
      F1 = flat L1++ps1.map (GenericIterator.mk it.localIter) ∧ F2 = ps2.map (GenericIterator.mk it.localIter)++flat L2 := by
  induction L generalizing F1 with
  | nil => simp at h
  | cons e L ih =>
    obtain ⟨n,ps⟩ := e
    rw [flat_cons] at h
    rcases List.append_eq_append_iff.mp h with ⟨G,hF,hG⟩ | ⟨G,hps,hG⟩
    · obtain ⟨L1,ps1,ps2,L2,rfl,hF1,hF2⟩ := ih hG
      exact ⟨(n,ps)::L1,ps1,ps2,L2,rfl,by rw [hF,hF1,flat_cons,List.append_assoc],hF2⟩
    · cases G with
      | nil =>
        have hnil : flat L = []++it::F2 := by simpa using hG.symm
        obtain ⟨L1,ps1,ps2,L2,rfl,hF1,hF2⟩ := ih hnil
        refine ⟨(n,ps)::L1,ps1,ps2,L2,rfl,?_,hF2⟩
        rw [flat_cons,List.append_assoc,← hF1,hps]
        simp
      | cons it' G =>
        rw [List.cons_append,List.cons.injEq] at hG
        obtain ⟨rfl,hF2⟩ := hG
        obtain ⟨ps1,ps',hps',rfl,hrest⟩ := List.map_eq_append_iff.mp hps
        obtain ⟨p,ps2,rfl,rfl,rfl⟩ := List.map_eq_cons_iff.mp hrest
        exact ⟨[],ps1,ps2,L,congrArg (fun l => (n,l)::L) hps',rfl,hF2⟩

def itemOf (s : Resident T) (it : GenericIterator) : Option T := (s.store it.localIter).item it.chunkIter

def items (s : Resident T) (L : List ChunkEntry) : List (Option T) := (flat L).map (itemOf s)

/-- The chunks in the other direction. -/
def mirror (L : List ChunkEntry) : List ChunkEntry := (L.map fun e => (e.1,e.2.reverse)).reverse

theorem flat_mirror (L : List ChunkEntry) : flat (mirror L) = (flat L).reverse := by
  induction L with
  | nil => rfl
  | cons e L ih =>
    rw [mirror,List.map_cons,List.reverse_cons,flat_append]
    change flat (mirror L)++(e.2.reverse.map _++[]) = (e.2.map _++flat L).reverse
    rw [ih,List.append_nil,List.reverse_append,List.map_reverse]

theorem map_fst_mirror (L : List ChunkEntry) : (mirror L).map Prod.fst = (L.map Prod.fst).reverse := by
  rw [mirror,List.map_reverse,List.map_map]
  rfl

theorem mem_mirror {e : ChunkEntry} : e ∈ mirror L ↔ (e.1,e.2.reverse) ∈ L := by
  rw [mirror,List.mem_reverse,List.mem_map]
  constructor
  · rintro ⟨e',he',rfl⟩
    simpa using he'
  · intro he
    exact ⟨_,he,by simp⟩

theorem nodes_mirror : outer (!(!rev))::back::((mirror L).map Prod.fst++[front,outer (!rev)]) =
    (outer (!rev)::front::(L.map Prod.fst++[back,outer rev])).reverse := by
  rw [map_fst_mirror,Bool.not_not]
  simp

theorem Shape.mirror (h : Shape cfg rev s front back L) : Shape cfg (!rev) s back front (mirror L) := by
  refine ⟨?_,⟨h.ends.2.reverse,h.ends.1.reverse⟩,fun e he => ?_,h.pool,?_,?_⟩
  · rw [nodes_mirror]
    exact h.linked.reverse
  · have := (h.chunks _ (mem_mirror.mp he)).reverse
    rwa [List.reverse_reverse] at this
  · rw [nodes_mirror]
    simpa only [List.mem_reverse] using h.pooled
  · rw [nodes_mirror]
    simpa only [List.mem_reverse] using h.fresh

theorem Inv.mirror (h : Inv cfg rev s front back L) : Inv cfg (!rev) s back front (mirror L) := by
  refine ⟨h.toShape.mirror,h.cnt_ends.symm,fun e he => ?_,fun e he => ?_,?_⟩
  · rw [h.cnt _ (mem_mirror.mp he),List.length_reverse]
  · have := h.filled _ (mem_mirror.mp he)
    rwa [List.length_reverse,ne_eq,List.reverse_eq_nil_iff] at this
  · rw [h.size,ChunkedList.mirror,List.map_reverse,List.sum_reverse,List.map_map]
    congr 1
    exact List.map_congr_left fun e _ => (List.length_reverse).symm

/-! ### One chunk changes -/

theorem Shape.nodup (h : Shape cfg rev s front back (L1++(n,ps)::L2)) :
    n ≠ front ∧ n ≠ back ∧ (∀ e ∈ L1++L2, e.1 ≠ n) := by
  have hl : Linked id rev s.links ((outer (!rev)::front::L1.map Prod.fst)++n::(L2.map Prod.fst++[back,outer rev])) := by
    have := h.linked
    rwa [List.map_append,List.map_cons,List.append_assoc] at this
  refine ⟨(hl.ne_of_mem (p := front) (by simp)).symm,(hl.ne_of_mem (p := back) (by simp)).symm,fun e he => ?_⟩
  refine hl.ne_of_mem ?_
  rcases List.mem_append.mp he with he | he
  · simp [List.mem_map_of_mem he]
  · simp [List.mem_map_of_mem he]

@[simp] theorem chunk_resident (n : ℕ) (s : Resident T) : s.chunk (resident T) n = s.store n := rfl

theorem store_setChunk (n m : ℕ) (c : ChunkListData T) (s : Resident T) :
    (s.setChunk (resident T) n c).store m = if m = n then c else s.store m := update_apply _ _ _ _

theorem Shape.setChunk (h : Shape cfg rev s front back (L1++(n,ps)::L2)) {ps' : List ChunkNodePtr} (hc : c.WF cfg rev ps') :
    Shape cfg rev (s.setChunk (resident T) n c) front back (L1++(n,ps')::L2) := by
  obtain ⟨hfront,hback,hothers⟩ := h.nodup
  have hfst : (L1++(n,ps')::L2).map Prod.fst = (L1++(n,ps)::L2).map Prod.fst := by simp
  refine ⟨?_,⟨?_,?_⟩,fun e he => ?_,h.pool,?_,?_⟩
  · rw [hfst]
    exact h.linked
  · rw [store_setChunk,if_neg hfront.symm]
    exact h.ends.1
  · rw [store_setChunk,if_neg hback.symm]
    exact h.ends.2
  · rw [store_setChunk]
    rcases List.mem_append.mp he with he' | he'
    · rw [if_neg (hothers e (List.mem_append_left _ he'))]
      exact h.chunks e (List.mem_append_left _ he')
    rcases List.mem_cons.mp he' with rfl | he'
    · rw [if_pos rfl]
      exact hc
    · rw [if_neg (hothers e (List.mem_append_right _ he'))]
      exact h.chunks e (by simp [he'])
  · rw [hfst]
    exact h.pooled
  · rw [hfst]
    exact h.fresh

theorem Shape.chunk (h : Shape cfg rev s front back (L1++(n,ps)::L2)) : (s.store n).WF cfg rev ps :=
  h.chunks (n,ps) (by simp)

theorem mem_flat {it : GenericIterator} : it ∈ flat L ↔ ∃ e ∈ L, it.localIter = e.1 ∧ it.chunkIter ∈ e.2 := by
  rw [flat,List.mem_flatMap]
  constructor
  · rintro ⟨e,he,hit⟩
    obtain ⟨p,hp,rfl⟩ := List.mem_map.mp hit
    exact ⟨e,he,rfl,hp⟩
  · rintro ⟨e,he,hn,hp⟩
    refine ⟨e,he,List.mem_map.mpr ⟨it.chunkIter,hp,?_⟩⟩
    rw [← hn]

theorem Shape.mem_chunk {it : GenericIterator} (h : Shape cfg rev s front back (L1++(n,ps)::L2))
    (hit : it ∈ flat (L1++(n,ps)::L2)) (hn : it.localIter = n) : it.chunkIter ∈ ps := by
  obtain ⟨e,he,he1,he2⟩ := mem_flat.mp hit
  by_cases heq : e = (n,ps)
  · subst heq
    exact he2
  · refine absurd (he1.symm.trans hn) (h.nodup.2.2 e ?_)
    simp only [List.mem_append,List.mem_cons] at he ⊢
    tauto

theorem Shape.insertItem (h : Shape cfg rev s front back (L1++(n,ps1++ps2)::L2)) (hk : cfg.numNodesPerChunk ≤ 64)
    (hlen : (ps1++ps2).length < cfg.numNodesPerChunk) :
    ∃ p c, s.insertChunk (resident T) cfg rev n (ps2.headD (lastPtr rev)) = (p,s.setChunk (resident T) n c) ∧ ∀ x, ∃ store,
      (s.setChunk (resident T) n c).writeItem (resident T) n p x = {s with store := store} ∧
      Shape cfg rev {s with store := store} front back (L1++(n,ps1++p::ps2)::L2) ∧
      itemOf {s with store := store} ⟨n,p⟩ = x ∧
      ∀ it ∈ flat (L1++(n,ps1++ps2)::L2), itemOf {s with store := store} it = itemOf s it := by
  obtain ⟨p,c,hinsert,hc,hp,hdata,-⟩ := h.chunk.insert hk hlen
  rw [h.chunk.last_eq] at hinsert
  have hmem : p ∈ ps1++p::ps2 := by simp
  refine ⟨p,c,by simp only [GenericList.insertChunk,chunk_resident,hinsert],fun x => ?_⟩
  refine ⟨update s.store n (c.setItem p x),?_,h.setChunk (hc.setItem hmem x),?_,fun it hit => ?_⟩
  · simp only [GenericList.writeItem,chunk_resident,store_setChunk,if_true]
    change {s with store := update (update s.store n c) n (c.setItem p x)} = _
    rw [update_idem]
  · change (update s.store n (c.setItem p x) n).item p = x
    rw [update_self,hc.item_setItem hmem hmem,if_pos rfl]
  · change (update s.store n (c.setItem p x) it.localIter).item it.chunkIter = _
    by_cases hn : it.localIter = n
    · have hq := h.mem_chunk hit hn
      have hne : it.chunkIter ≠ p := fun heq => hp (heq ▸ hq)
      rw [hn,update_self,hc.item_setItem hmem (by simp only [List.mem_append,List.mem_cons] at hq ⊢; tauto),
        if_neg hne,itemOf,hn]
      exact congrFun hdata it.chunkIter.addrOffset
    · rw [update_of_ne hn]
      rfl

theorem Shape.eraseItem {p : ChunkNodePtr} (h : Shape cfg rev s front back (L1++(n,ps1++p::ps2)::L2)) :
    ∃ store, s.eraseChunk (resident T) rev n p = (ps2.headD (lastPtr rev),{s with store := store}) ∧
      Shape cfg rev {s with store := store} front back (L1++(n,ps1++ps2)::L2) ∧
      ∀ it, itemOf {s with store := store} it = itemOf s it := by
  obtain ⟨c,herase,hc,hdata,-⟩ := h.chunk.erase
  rw [h.chunk.last_eq] at herase
  refine ⟨update s.store n c,?_,h.setChunk hc,fun it => ?_⟩
  · simp only [GenericList.eraseChunk,chunk_resident,herase]
    rfl
  · change (update s.store n c it.localIter).item it.chunkIter = _
    by_cases hn : it.localIter = n
    · rw [hn,update_self,itemOf,hn]
      exact congrFun hdata it.chunkIter.addrOffset
    · rw [update_of_ne hn]
      rfl

theorem Shape.moveItem {m : ℕ} {qs rs : List ChunkNodePtr} {p : ChunkNodePtr}
    (h : Shape cfg rev s front back (L1++(m,qs)::(n,p::rs)::L2)) (hk : cfg.numNodesPerChunk ≤ 64)
    (hlen : qs.length < cfg.numNodesPerChunk) :
    ∃ q store, s.moveItem (resident T) cfg rev n p m (lastPtr rev) = (rs.headD (lastPtr rev),{s with store := store}) ∧
      Shape cfg rev {s with store := store} front back (L1++(m,qs++[q])::(n,rs)::L2) ∧
      itemOf {s with store := store} ⟨m,q⟩ = itemOf s ⟨n,p⟩ ∧
      ∀ it ∈ flat (L1++(m,qs)::(n,rs)::L2), itemOf {s with store := store} it = itemOf s it := by
  rw [List.append_cons] at h
  obtain ⟨store1,herase,h1,hitems1⟩ := Shape.eraseItem (show Shape cfg rev s front back ((L1++[(m,qs)])++(n,[]++p::rs)::L2) from h)
  rw [← List.append_cons,List.nil_append] at h1
  have h1' : Shape cfg rev {s with store := store1} front back (L1++(m,qs++[])::(n,rs)::L2) := by rwa [List.append_nil]
  obtain ⟨q,c,hinsert,hwrite⟩ := h1'.insertItem hk (by rwa [List.append_nil])
  obtain ⟨store,hstore,h2,hnew,hitems⟩ := hwrite (itemOf s ⟨n,p⟩)
  rw [List.append_nil] at hitems
  refine ⟨q,store,?_,h2,hnew,fun it hit => (hitems it hit).trans (hitems1 it)⟩
  have hne : n ≠ m := fun heq => h1.nodup.2.2 (n,rs) (by simp) heq
  have hitem : ((GenericList.setChunk (resident T) m c {s with store := store1}).store n).item p = itemOf s ⟨n,p⟩ := by
    rw [store_setChunk,if_neg hne]
    exact hitems1 ⟨n,p⟩
  rw [List.headD_nil] at hinsert
  simp only [GenericList.moveItem,herase,hinsert,chunk_resident,hitem,hstore]

/-! ### Chunks come and go -/

theorem allocateLocalNode_spec {nodes : List ℕ} (hpool : s.pool.Nodup) (hpooled : ∀ n ∈ s.pool, n < s.fresh ∧ n ∉ nodes)
    (hfresh : ∀ n ∈ nodes, n < s.fresh) :
    ∃ new pool fresh, s.allocateLocalNode = (new,{s with pool := pool, fresh := fresh}) ∧ new ∉ nodes ∧ new < fresh ∧
      s.fresh ≤ fresh ∧ pool.Nodup ∧ ∀ n ∈ pool, n < fresh ∧ n ∉ nodes ∧ n ≠ new := by
  unfold GenericList.allocateLocalNode
  cases hp : s.pool with
  | nil =>
    refine ⟨_,_,_,rfl,fun hmem => ?_,?_,by omega,?_,fun n hn => ?_⟩
    · have := hfresh _ hmem
      omega
    · simp only [kReplenishNumNodes]
      omega
    · exact List.nodup_reverse.mpr List.nodup_range'
    · rw [List.mem_reverse,List.mem_range'_1] at hn
      simp only [kReplenishNumNodes] at hn ⊢
      refine ⟨by omega,fun hmem => ?_,by omega⟩
      have := hfresh n hmem
      omega
  | cons m pool =>
    rw [hp] at hpool hpooled
    obtain ⟨hm,hnodup⟩ := List.nodup_cons.mp hpool
    refine ⟨m,pool,s.fresh,rfl,(hpooled m (by simp)).2,(hpooled m (by simp)).1,le_rfl,hnodup,fun n hn => ?_⟩
    obtain ⟨hlt,hnot⟩ := hpooled n (List.mem_cons_of_mem m hn)
    exact ⟨hlt,hnot,fun heq => hm (heq ▸ hn)⟩

theorem insertLocal_spec {A V : List ℕ} (hl : Linked id rev s.links (A++n::V)) (hA : A ≠ []) (hpool : s.pool.Nodup)
    (hpooled : ∀ m ∈ s.pool, m < s.fresh ∧ m ∉ A++n::V) (hfresh : ∀ m ∈ A++n::V, m < s.fresh) :
    ∃ new s', s.insertLocal rev n = s' ∧ new ∉ A++n::V ∧ Linked id rev s'.links (A++new::n::V) ∧ s'.pool.Nodup ∧
      (∀ m ∈ s'.pool, m < s'.fresh ∧ m ∉ A++new::n::V) ∧ (∀ m ∈ A++new::n::V, m < s'.fresh) ∧
      s'.cnt = update s.cnt new 0 ∧ s'.store = s.store ∧ s'.size = s.size := by
  obtain ⟨new,pool,fresh,halloc,hnew,hlt,hle,hnodup,hpooled'⟩ := allocateLocalNode_spec hpool hpooled hfresh
  have hmem : ∀ m, m ∈ A++new::n::V ↔ m = new ∨ m ∈ A++n::V := by
    intro m
    simp only [List.mem_append,List.mem_cons]
    tauto
  refine ⟨new,{s with
      links := DoublyLinked.insert id rev s.links n new
      pool := pool
      fresh := fresh
      cnt := update s.cnt new 0},?_,hnew,?_,hnodup,fun m hm => ?_,fun m hm => ?_,rfl,rfl,rfl⟩
  · simp only [GenericList.insertLocal,halloc]
  · refine hl.insert_cut hA ?_
    rw [List.map_id]
    exact hnew
  · obtain ⟨hmlt,hmnot,hmne⟩ := hpooled' m hm
    refine ⟨hmlt,fun hmem' => ?_⟩
    exact ((hmem m).mp hmem').elim hmne hmnot
  · rcases (hmem m).mp hm with rfl | hm
    · exact hlt
    · exact (hfresh m hm).trans_le hle

theorem Shape.addLocalListNode (h : Shape cfg rev s front back (L1++L2)) (hk : cfg.numNodesPerChunk ≤ 64)
    (hn : (L2.map Prod.fst).headD back = n) :
    ∃ new s', s.addLocalListNode (resident T) cfg rev n = (new,s') ∧ Shape cfg rev s' front back (L1++(new,[])::L2) ∧
      s'.store = update s.store new (.init cfg) ∧ s'.cnt = update s.cnt new 0 ∧ s'.size = s.size ∧
      new ∉ front::((L1++L2).map Prod.fst++[back]) := by
  have hcut : ∃ V, L2.map Prod.fst++[back,outer rev] = n::V := by
    subst hn
    cases L2 with
    | nil => exact ⟨[outer rev],rfl⟩
    | cons e L2 => exact ⟨L2.map Prod.fst++[back,outer rev],rfl⟩
  obtain ⟨V,hV⟩ := hcut
  have hnodes : outer (!rev)::front::((L1++L2).map Prod.fst++[back,outer rev]) =
      (outer (!rev)::front::L1.map Prod.fst)++n::V := by
    rw [List.map_append,List.append_assoc,hV]
    rfl
  obtain ⟨new,s1,hinsert,hnew,hlinked,hpool,hpooled,hfresh,hcnt,hstore,hsize⟩ := insertLocal_spec (hnodes ▸ h.linked)
    (List.cons_ne_nil _ _) h.pool (hnodes ▸ h.pooled) (hnodes ▸ h.fresh)
  have hnodes' : outer (!rev)::front::((L1++(new,[])::L2).map Prod.fst++[back,outer rev]) =
      (outer (!rev)::front::L1.map Prod.fst)++new::n::V := by
    rw [List.map_append,List.map_cons,List.append_assoc,List.cons_append,hV]
    rfl
  rw [← hnodes] at hnew
  rw [← hnodes'] at hpooled hfresh
  have hbehind : (s1.links n).behind rev = new := hlinked.behind
  rw [← hnodes'] at hlinked
  have hkeep : ∀ m ∈ outer (!rev)::front::((L1++L2).map Prod.fst++[back,outer rev]), ∀ qs,
      (s.store m).WF cfg rev qs → (update s1.store new (.init cfg) m).WF cfg rev qs := by
    intro m hm qs hwf
    rwa [update_of_ne (fun heq : m = new => hnew (heq ▸ hm)),hstore]
  refine ⟨new,{s1 with store := update s1.store new (.init cfg)},?_,
    ⟨hlinked,⟨?_,?_⟩,fun e he => ?_,hpool,hpooled,hfresh⟩,by rw [hstore],hcnt,hsize,fun hm => hnew ?_⟩
  · simp only [GenericList.addLocalListNode,hinsert,hbehind]
    rfl
  · exact hkeep front (by simp) _ h.ends.1
  · exact hkeep back (by simp) _ h.ends.2
  · rcases (by simpa [or_left_comm] using he : e = (new,[]) ∨ e ∈ L1 ∨ e ∈ L2) with rfl | he
    · change (update s1.store new (.init cfg) new).WF cfg rev []
      rw [update_self]
      exact ChunkListData.WF.init hk
    · have he' : e ∈ L1++L2 := List.mem_append.mpr he
      have hfst : e.1 ∈ outer (!rev)::front::((L1++L2).map Prod.fst++[back,outer rev]) := by
        have := List.mem_map_of_mem (f := Prod.fst) he'
        simp only [List.mem_cons,List.mem_append]
        exact .inr (.inr (.inl this))
      exact hkeep e.1 hfst _ (h.chunks e he')
  · simp only [List.mem_cons,List.mem_append,List.not_mem_nil,or_false] at hm ⊢
    tauto

theorem Shape.eraseLocal (h : Shape cfg rev s front back (L1++(n,ps)::L2)) :
    ∃ s', s.eraseLocal (resident T) rev n = ((L2.map Prod.fst).headD back,s') ∧ Shape cfg rev s' front back (L1++L2) ∧
      s'.store = s.store ∧ s'.cnt = s.cnt ∧ s'.size = s.size := by
  have hnodes : outer (!rev)::front::((L1++(n,ps)::L2).map Prod.fst++[back,outer rev]) =
      (outer (!rev)::front::L1.map Prod.fst)++n::(L2.map Prod.fst++[back,outer rev]) := by simp
  have hnodes' : outer (!rev)::front::((L1++L2).map Prod.fst++[back,outer rev]) =
      (outer (!rev)::front::L1.map Prod.fst)++(L2.map Prod.fst++[back,outer rev]) := by simp
  have hl := h.linked
  rw [hnodes] at hl
  have hnext : (DoublyLinked.erase id s.links n n).ahead rev = (L2.map Prod.fst).headD back := by
    obtain ⟨A,a,ha⟩ := (List.eq_nil_or_concat' (outer (!rev)::front::L1.map Prod.fst)).resolve_left (List.cons_ne_nil _ _)
    rw [ha,List.append_assoc,List.singleton_append] at hl
    cases L2 with
    | nil => exact hl.erase_self
    | cons e L2 => exact hl.erase_self
  have hmem : ∀ m, m ∈ (outer (!rev)::front::L1.map Prod.fst)++n::(L2.map Prod.fst++[back,outer rev]) ↔
      m = n ∨ m ∈ (outer (!rev)::front::L1.map Prod.fst)++(L2.map Prod.fst++[back,outer rev]) := by
    intro m
    simp only [List.mem_append,List.mem_cons]
    tauto
  have hself : n ∉ (outer (!rev)::front::L1.map Prod.fst)++(L2.map Prod.fst++[back,outer rev]) := fun hn =>
    hl.ne_of_mem hn rfl
  refine ⟨_,Prod.ext hnext rfl,⟨?_,h.ends,fun e he => ?_,?_,?_,?_⟩,rfl,rfl,rfl⟩
  · rw [hnodes']
    exact hl.erase_cut (List.cons_ne_nil _ _) (by simp)
  · refine h.chunks e ?_
    simp only [List.mem_append,List.mem_cons] at he ⊢
    tauto
  · refine List.nodup_cons.mpr ⟨fun hn => (h.pooled n hn).2 ?_,h.pool⟩
    rw [hnodes,hmem]
    exact .inl rfl
  · intro m hm
    rw [hnodes']
    rcases List.mem_cons.mp hm with rfl | hm
    · refine ⟨h.fresh m ?_,hself⟩
      rw [hnodes,hmem]
      exact .inl rfl
    · obtain ⟨hlt,hnot⟩ := h.pooled m hm
      rw [hnodes,hmem,not_or] at hnot
      exact ⟨hlt,hnot.2⟩
  · intro m hm
    refine h.fresh m ?_
    rw [hnodes'] at hm
    rw [hnodes,hmem]
    exact .inr hm

theorem Shape.flat_nodup (h : Shape cfg rev s front back L) : (flat L).Nodup := by
  refine List.nodup_flatMap.mpr ⟨fun e he => ?_,?_⟩
  · exact (h.chunks e he).nodup.map fun p q hpq => (GenericIterator.mk.inj hpq).2
  · have hnodup : (L.map Prod.fst).Nodup := by
      have := h.linked.1
      rw [List.map_id,List.nodup_cons,List.nodup_cons,List.nodup_append] at this
      exact this.2.2.1
    refine (List.pairwise_map.mp hnodup).imp fun hne it hit hit' => hne ?_
    obtain ⟨p,-,rfl⟩ := List.mem_map.mp hit
    obtain ⟨q,-,heq⟩ := List.mem_map.mp hit'
    exact (GenericIterator.mk.inj heq).1.symm

end

end FarMemory.ChunkedList
