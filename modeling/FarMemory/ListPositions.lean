import FarMemory.ListInvariant

/-!
# Positions

An iterator denotes an item of the list or the end. The iterator functions move from
one position to the next; for resident chunks they change nothing but the prefetching
cursor.
-/
namespace FarMemory.ChunkedList
open DoublyLinked ChunkListData

section
variable {T : Type} {cfg : Config} {rev : Bool} {s : Resident T} {front back n : ℕ} {L L1 L2 : List ChunkEntry}
  {ps : List ChunkNodePtr} {it : GenericIterator} {xs ys : List (Option T)}

/-- The iterator has the items `xs` behind it and the items `ys` ahead. -/
inductive Position (s : Resident T) (rev : Bool) (back : ℕ) (L : List ChunkEntry) :
    GenericIterator → List (Option T) → List (Option T) → Prop
  | item {it : GenericIterator} {F₁ F₂ : List GenericIterator} (hL : flat L = F₁++it::F₂) :
      Position s rev back L it (F₁.map (itemOf s)) ((it::F₂).map (itemOf s))
  | last : Position s rev back L ⟨back,lastPtr rev⟩ (items s L) []

theorem Position.append (h : Position s rev back L it xs ys) : xs++ys = items s L := by
  cases h with
  | item hL => rw [items,hL,List.map_append]
  | last => rw [List.append_nil]

/-! ### The prefetching cursor -/

/-- The states of the prefetching cursor are of no consequence. -/
def SameList (s s' : Resident T) : Prop := ∃ e r i, s' = {s with enablePrefetch := e, prefetchReversed := r, prefetchIter := i}

theorem SameList.refl (s : Resident T) : SameList s s := ⟨_,_,_,rfl⟩

theorem prefetchOnce_same (s : Resident T) : SameList s s.prefetchOnce := by
  unfold GenericList.prefetchOnce
  split
  · exact .refl s
  · exact ⟨_,_,_,rfl⟩

theorem prefetchFsm_same (cfg : Config) (rev : Bool) (n : ℕ) (s : Resident T) : SameList s (s.prefetchFsm cfg rev n) := by
  have hiter : ∀ (k : ℕ) (s : Resident T), SameList s (GenericList.prefetchOnce^[k] s) := by
    intro k
    induction k with
    | zero => exact fun s => .refl s
    | succ k ih =>
      intro s
      obtain ⟨e,r,i,hs⟩ := prefetchOnce_same s
      obtain ⟨e',r',i',hs'⟩ := ih s.prefetchOnce
      rw [Function.iterate_succ_apply,hs',hs]
      exact ⟨_,_,_,rfl⟩
  unfold GenericList.prefetchFsm
  split
  · split
    · exact prefetchOnce_same s
    · obtain ⟨e,r,i,hs⟩ := hiter cfg.prefetchNumNodes {s with enablePrefetch := true, prefetchIter := n}
      rw [hs]
      exact ⟨_,_,_,rfl⟩
  · exact ⟨_,_,_,rfl⟩

namespace SameList
variable {s' : Resident T}

section
variable (h : SameList s s')
include h

theorem store : s'.store = s.store := by
  obtain ⟨e,r,i,rfl⟩ := h
  rfl

theorem cnt : s'.cnt = s.cnt := by
  obtain ⟨e,r,i,rfl⟩ := h
  rfl

theorem size : s'.size = s.size := by
  obtain ⟨e,r,i,rfl⟩ := h
  rfl

theorem items (L : List ChunkEntry) : ChunkedList.items s' L = ChunkedList.items s L := by
  obtain ⟨e,r,i,rfl⟩ := h
  rfl

theorem shape (hs : Shape cfg rev s front back L) : Shape cfg rev s' front back L := by
  obtain ⟨e,r,i,rfl⟩ := h
  exact ⟨hs.linked,hs.ends,hs.chunks,hs.pool,hs.pooled,hs.fresh⟩

theorem inv (hs : Inv cfg rev s front back L) : Inv cfg rev s' front back L := by
  have hshape := h.shape hs.toShape
  obtain ⟨e,r,i,rfl⟩ := h
  exact ⟨hshape,hs.cnt_ends,hs.cnt,hs.filled,hs.size⟩

theorem position (hp : Position s rev back L it xs ys) : Position s' rev back L it xs ys := by
  obtain ⟨e,r,i,rfl⟩ := h
  cases hp with
  | item hL => exact .item hL
  | last => exact .last

end

end SameList

/-! ### Iterators -/

@[simp] theorem update_resident (isMut : Bool) (n : ℕ) (s : Resident T) :
    s.updateChunkListAddr (resident T) isMut n = s := rfl

@[simp] theorem iterAt_resident (rev : Bool) (n : ℕ) (s : Resident T) :
    s.iterAt (resident T) rev n = (⟨n,(s.store n).first rev⟩,s) := rfl

theorem Inv.first (h : Inv cfg rev s front back L) (hL : L = L1++L2) :
    Position s rev back L ⟨(L2.map Prod.fst).headD back,(s.store ((L2.map Prod.fst).headD back)).first rev⟩
      (items s L1) (items s L2) := by
  subst hL
  cases L2 with
  | nil =>
    rw [List.append_nil]
    change Position s rev back L1 ⟨back,(s.store back).first rev⟩ _ _
    rw [h.ends.2.first,h.ends.2.last_eq]
    exact .last
  | cons e L2 =>
    obtain ⟨n,ps⟩ := e
    have hwf := h.toShape.chunk
    cases ps with
    | nil => exact absurd rfl (h.filled (n,[]) (by simp)).1
    | cons p ps =>
      change Position s rev back _ ⟨n,(s.store n).first rev⟩ _ _
      rw [hwf.first]
      exact .item (show _ = flat L1++⟨n,p⟩::(ps.map (GenericIterator.mk n)++flat L2) by simp)

theorem Shape.ahead_front (h : Shape cfg rev s front back L) :
    (s.links front).ahead rev = (L.map Prod.fst).headD back := by
  have hl := h.linked
  cases L with
  | nil => exact hl.ahead (A := [outer (!rev)])
  | cons e L => exact hl.ahead (A := [outer (!rev)])

theorem Shape.ahead (h : Shape cfg rev s front back (L1++(n,ps)::L2)) :
    (s.links n).ahead rev = (L2.map Prod.fst).headD back := by
  have hl := h.linked
  rw [List.map_append,List.map_cons,List.append_assoc,List.cons_append,← List.cons_append,← List.cons_append] at hl
  cases L2 with
  | nil => exact hl.ahead
  | cons e L2 => exact hl.ahead

theorem Shape.beginIter (h : Shape cfg rev s front back L) : s.beginIter (resident T) rev =
    (⟨(L.map Prod.fst).headD back,(s.store ((L.map Prod.fst).headD back)).first rev⟩,s) := by
  have hfront : (if rev then (s.links localTail).prev else (s.links localHead).next) = front := by
    have hl := h.linked.ahead (A := [])
    cases rev
    · exact hl
    · exact hl
  simp only [GenericList.beginIter,hfront,h.ahead_front,iterAt_resident]

theorem Inv.beginIter (h : Inv cfg rev s front back L) :
    ∃ it, s.beginIter (resident T) rev = (it,s) ∧ Position s rev back L it [] (items s L) :=
  ⟨_,h.toShape.beginIter,h.first (List.nil_append L).symm⟩

theorem Shape.behind_outer (h : Shape cfg rev s front back L) : (s.links (outer rev)).behind rev = back := by
  have hl := h.linked
  rw [← List.cons_append,← List.cons_append] at hl
  exact hl.behind

theorem endIter_resident (rev : Bool) (s : Resident T) : s.endIter (resident T) rev =
    (⟨(s.links (outer rev)).behind rev,(s.store ((s.links (outer rev)).behind rev)).first rev⟩,s) := rfl

theorem Shape.endIter (h : Shape cfg rev s front back L) :
    s.endIter (resident T) rev = (⟨back,lastPtr rev⟩,s) := by
  rw [endIter_resident,h.behind_outer,h.ends.2.first,h.ends.2.last_eq]
  rfl

theorem Shape.mem_ne (h : Shape cfg rev s front back L) (hit : it ∈ flat L) (q : ChunkNodePtr) : it ≠ ⟨back,q⟩ := by
  obtain ⟨F₁,F₂,hF⟩ := List.append_of_mem hit
  obtain ⟨L1,ps1,ps2,L2,rfl,-,-⟩ := flat_split hF
  exact fun heq => h.nodup.2.1 (congrArg GenericIterator.localIter heq)

theorem Position.deref {x : Option T} (hp : Position s rev back L it xs (x::ys)) (isMut : Bool) :
    s.deref (resident T) isMut it = (x,s) := by
  cases hp
  rfl

theorem Inv.inc {x : Option T} (h : Inv cfg rev s front back L) (hp : Position s rev back L it xs (x::ys)) :
    ∃ it' s', s.inc (resident T) cfg rev it = (it',s') ∧ SameList s s' ∧ Position s rev back L it' (xs++[x]) ys := by
  cases hp with
  | @item _ F₁ F₂ hF =>
    obtain ⟨L1,ps1,ps2,L2,rfl,rfl,rfl⟩ := flat_split hF
    have hwf := h.toShape.chunk
    simp only [GenericList.inc,chunk_resident,update_resident,hwf.ahead]
    cases ps2 with
    | cons q ps2 =>
      have hne : (q::ps2).headD ((s.store it.localIter).last rev) ≠ (s.store it.localIter).last rev :=
        hwf.ne_last (by simp) rev
      rw [if_neg hne]
      refine ⟨_,_,rfl,.refl s,?_⟩
      have hpos : Position s rev back _ ⟨it.localIter,q⟩ _ _ := .item (hF.trans (List.append_cons _ it _))
      rwa [List.map_append,List.map_singleton] at hpos
    | nil =>
      simp only [List.headD_nil,if_true]
      have hsame := prefetchFsm_same cfg rev ((s.links it.localIter).ahead rev) s
      refine ⟨_,_,iterAt_resident _ _ _,hsame,?_⟩
      rw [hsame.store,h.toShape.ahead]
      have hpos := h.first (List.append_cons L1 (it.localIter,ps1++[it.chunkIter]) L2)
      simp only [items,flat_append,flat_cons,flat_nil,List.append_nil,List.map_append,List.map_cons,List.map_nil] at hpos
      rw [← List.append_assoc] at hpos
      simp only [List.map_append]
      exact hpos

theorem Shape.behind (h : Shape cfg rev s front back (L1++(n,ps)::L2)) :
    (s.links ((L2.map Prod.fst).headD back)).behind rev = n := by
  have hl := h.linked
  rw [List.map_append,List.map_cons,List.append_assoc,List.cons_append,← List.cons_append,← List.cons_append] at hl
  cases L2 with
  | nil => exact hl.behind
  | cons e L2 => exact hl.behind

theorem Inv.dec_first {x : Option T} (h : Inv cfg rev s front back L) (hL : L = L1++L2) (hxs : items s L1 = xs++[x])
    (hit : it = ⟨(L2.map Prod.fst).headD back,(s.store ((L2.map Prod.fst).headD back)).first rev⟩) :
    ∃ it' s', s.dec (resident T) cfg rev it = (it',s') ∧ SameList s s' ∧ Position s rev back L it' xs (x::items s L2) := by
  obtain rfl | ⟨L1,⟨n,ps⟩,rfl⟩ := List.eq_nil_or_concat' L1
  · simp [items] at hxs
  obtain rfl | ⟨ps,p,rfl⟩ := List.eq_nil_or_concat' ps
  · exact absurd rfl (h.filled (n,[]) (by simp [hL])).1
  rw [List.append_assoc,List.singleton_append] at hL
  subst hL hit
  have hsame := prefetchFsm_same cfg rev n s
  have hwf := h.toShape.chunk
  refine ⟨⟨n,p⟩,_,?_,hsame,?_⟩
  · simp only [GenericList.dec,update_resident,chunk_resident,if_true,h.toShape.behind,hsame.store]
    rw [show (s.store n).last rev = ([] : List ChunkNodePtr).headD ((s.store n).last rev) from rfl,hwf.behind]
  · have hpos : Position s rev back (L1++(n,ps++[p])::L2) ⟨n,p⟩ _ _ :=
      .item (show _ = (flat L1++ps.map (GenericIterator.mk n))++⟨n,p⟩::flat L2 by simp)
    simp only [items,flat_append,flat_cons,flat_nil,List.append_nil,List.map_append,List.map_cons,List.map_nil,
      ← List.append_assoc] at hxs
    obtain ⟨hxs,hx⟩ := List.append_inj' hxs rfl
    rw [List.map_append,hxs,List.map_cons,(List.cons.inj hx).1] at hpos
    exact hpos

theorem Inv.dec {x : Option T} (h : Inv cfg rev s front back L) (hp : Position s rev back L it (xs++[x]) ys) :
    ∃ it' s', s.dec (resident T) cfg rev it = (it',s') ∧ SameList s s' ∧ Position s rev back L it' xs (x::ys) := by
  generalize hzs : xs++[x] = zs at hp
  cases hp with
  | last =>
    refine h.dec_first (List.append_nil L).symm hzs.symm ?_
    change _ = (⟨back,(s.store back).first rev⟩ : GenericIterator)
    rw [h.ends.2.first,h.ends.2.last_eq]
    rfl
  | @item _ F₁ F₂ hF =>
    obtain ⟨L1,ps1,ps2,L2,rfl,rfl,rfl⟩ := flat_split hF
    have hwf := h.toShape.chunk
    obtain rfl | ⟨ps,q,rfl⟩ := List.eq_nil_or_concat' ps1
    · rw [List.map_nil,List.append_nil] at hzs
      have hfirst : it = ⟨it.localIter,(s.store it.localIter).first rev⟩ := by
        rw [hwf.first]
        rfl
      have hstep := h.dec_first rfl hzs.symm hfirst
      simp only [items,flat_cons,List.nil_append,List.map_append,List.map_cons] at hstep ⊢
      exact hstep
    · have hne : it.chunkIter ≠ (s.store it.localIter).first rev := by
        have hnodup := hwf.nodup
        rw [hwf.first]
        intro heq
        cases ps with
        | nil =>
          have heq' : it.chunkIter = q := heq
          exact (List.nodup_cons.mp hnodup).1 (by simp [heq'])
        | cons q' ps =>
          have heq' : it.chunkIter = q' := heq
          exact (List.nodup_cons.mp hnodup).1 (by simp [heq'])
      rw [List.append_assoc,List.singleton_append] at hwf
      have hbehind := hwf.behind
      change ((s.store it.localIter).node it.chunkIter).behind rev = q at hbehind
      refine ⟨⟨it.localIter,q⟩,s,?_,.refl s,?_⟩
      · simp only [GenericList.dec,update_resident,chunk_resident,if_neg hne,hbehind]
      · have hpos : Position s rev back (L1++(it.localIter,ps++[q]++it.chunkIter::ps2)::L2) ⟨it.localIter,q⟩ _ _ :=
          .item (show _ = (flat L1++ps.map (GenericIterator.mk it.localIter))++⟨it.localIter,q⟩::it::
            (ps2.map (GenericIterator.mk it.localIter)++flat L2) by simp)
        simp only [List.map_append,List.map_cons,List.map_nil,← List.append_assoc] at hzs
        obtain ⟨hxs,hx⟩ := List.append_inj' hzs rfl
        rw [List.map_append,← hxs,List.map_cons,← (List.cons.inj hx).1] at hpos
        exact hpos

end

end FarMemory.ChunkedList
