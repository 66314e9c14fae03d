import FarMemory.ChunkedList

/-!
# Chunks as lists of nodes

A well-formed chunk links some of its nodes in both directions; the bitmap has exactly
the others. The functions of the chunk list act on the list of linked nodes: an insertion
takes a free node, an erasure gives one back, and both leave the items where they are.
-/
namespace FarMemory.ChunkedList
open DoublyLinked

theorem Config.nodePtr_inj {cfg : Config} {i j : ℕ} : cfg.nodePtr i = cfg.nodePtr j ↔ i = j := by
  simp only [Config.nodePtr,ChunkNodePtr.mk.injEq]
  constructor
  · exact fun h => h.1
  · rintro rfl
    exact ⟨rfl,rfl⟩

theorem Config.offset_inj {cfg : Config} {i j : ℕ} (h : (cfg.nodePtr i).addrOffset = (cfg.nodePtr j).addrOffset) : i = j := by
  have hpos : 0 < cfg.chunkListNodeSize := by
    simp only [Config.chunkListNodeSize,nodeHeaderSize]
    omega
  exact Nat.eq_of_mul_eq_mul_right hpos (Nat.add_left_cancel h)

theorem Config.offset_ge (cfg : Config) (i : ℕ) : listDataSize ≤ (cfg.nodePtr i).addrOffset := Nat.le_add_right _ _

theorem initMeta_testBit {cfg : Config} (hk : cfg.numNodesPerChunk ≤ 64) (i : ℕ) :
    cfg.initMeta.testBit i = decide (i < cfg.numNodesPerChunk) := by
  rw [Config.initMeta,Nat.testBit_shiftRight,Nat.testBit_two_pow_sub_one]
  congr 1
  exact propext (by omega)

theorem Config.exists_free {cfg : Config} {ps : List ChunkNodePtr} (hlen : ps.length < cfg.numNodesPerChunk) :
    ∃ i < cfg.numNodesPerChunk, cfg.nodePtr i ∉ ps := by
  by_contra hall
  have hsub : (List.range cfg.numNodesPerChunk).map cfg.nodePtr ⊆ ps := by
    intro p hp
    obtain ⟨i,hi,rfl⟩ := List.mem_map.mp hp
    by_contra hnot
    exact hall ⟨i,List.mem_range.mp hi,hnot⟩
  have hnodup : ((List.range cfg.numNodesPerChunk).map cfg.nodePtr).Nodup :=
    List.nodup_range.map fun i j hij => Config.nodePtr_inj.mp hij
  have hle := (List.subperm_of_subset hnodup hsub).length_le
  rw [List.length_map,List.length_range] at hle
  omega

namespace ChunkListData
variable {T : Type}

theorem bsf64_spec {w i : ℕ} (hi : i < 64) (hbit : w.testBit i = true) : w.testBit (bsf64 w) = true := by
  unfold bsf64
  cases hfind : (List.range 64).find? fun i => w.testBit i with
  | none => exact absurd hbit (by simpa using List.find?_eq_none.mp hfind i (List.mem_range.mpr hi))
  | some j => exact List.find?_some hfind

/-- Where `end` and `rend` of every chunk point. -/
def lastPtr (rev : Bool) : ChunkNodePtr := ⟨0,if rev then headOffset else tailOffset⟩

/-- The chunk links the nodes `ps`, read in this direction. -/
structure WF (cfg : Config) (rev : Bool) (c : ChunkListData T) (ps : List ChunkNodePtr) : Prop where
  linked : Linked ChunkNodePtr.addrOffset rev c.links (c.last (!rev)::(ps++[c.last rev]))
  headPtr : c.headPtr = ⟨0,headOffset⟩
  tailPtr : c.tailPtr = ⟨0,tailOffset⟩
  nodes : ∀ p ∈ ps, ∃ i < cfg.numNodesPerChunk, p = cfg.nodePtr i
  free : ∀ i, c.metaWord.testBit i = decide (i < cfg.numNodesPerChunk ∧ cfg.nodePtr i ∉ ps)
  blank : c.data headOffset = none ∧ c.data tailOffset = none

namespace WF
variable {cfg : Config} {rev : Bool} {c : ChunkListData T} {ps ps1 ps2 : List ChunkNodePtr} {p : ChunkNodePtr}

theorem reverse (h : WF cfg rev c ps) : WF cfg (!rev) c ps.reverse := by
  refine ⟨?_,h.headPtr,h.tailPtr,?_,?_,h.blank⟩
  · have := h.linked.reverse
    rw [List.reverse_cons,List.reverse_append,List.reverse_singleton,List.singleton_append,List.cons_append] at this
    rwa [Bool.not_not]
  · intro p hp
    exact h.nodes p (List.mem_reverse.mp hp)
  · simpa only [List.mem_reverse] using h.free

theorem init (hk : cfg.numNodesPerChunk ≤ 64) : WF cfg rev (ChunkListData.init cfg : ChunkListData T) [] := by
  refine ⟨⟨?_,?_⟩,rfl,rfl,by simp,fun i => ?_,rfl,rfl⟩
  · cases rev
    · exact (by decide : [headOffset,tailOffset].Nodup)
    · exact (by decide : [tailOffset,headOffset].Nodup)
  · cases rev
    · exact .cons_cons ⟨rfl,rfl⟩ (.singleton _)
    · exact .cons_cons ⟨rfl,rfl⟩ (.singleton _)
  · change cfg.initMeta.testBit i = _
    rw [initMeta_testBit hk]
    simp

theorem last_eq (h : WF cfg rev c ps) (r : Bool) : c.last r = lastPtr r := by
  cases r
  · exact h.tailPtr
  · exact h.headPtr

theorem last_offset (h : WF cfg rev c ps) (r : Bool) : (c.last r).addrOffset < listDataSize := by
  rw [h.last_eq]
  cases r
  · decide
  · decide

theorem last_item (h : WF cfg rev c ps) (r : Bool) : c.item (c.last r) = none := by
  rw [h.last_eq]
  cases r
  · exact h.blank.2
  · exact h.blank.1

theorem offset_ne_last (h : WF cfg rev c ps) (i : ℕ) (r : Bool) : (cfg.nodePtr i).addrOffset ≠ (c.last r).addrOffset := by
  have := h.last_offset r
  have := cfg.offset_ge i
  omega

theorem first (h : WF cfg rev c ps) : c.first rev = ps.headD (c.last rev) := by
  have hfirst : c.first rev = (c.node (c.last (!rev))).ahead rev := by
    cases rev
    · change (c.links headOffset).next = (c.links c.headPtr.addrOffset).next
      rw [h.headPtr]
    · change (c.links tailOffset).prev = (c.links c.tailPtr.addrOffset).prev
      rw [h.tailPtr]
  rw [hfirst]
  cases ps with
  | nil => exact h.linked.ahead (A := [])
  | cons p ps => exact h.linked.ahead (A := [])

theorem ahead (h : WF cfg rev c (ps1++p::ps2)) : (c.node p).ahead rev = ps2.headD (c.last rev) := by
  have hl := h.linked
  cases ps2 with
  | nil =>
    rw [List.append_assoc,List.singleton_append,← List.cons_append] at hl
    exact hl.ahead
  | cons q ps2 =>
    rw [List.append_assoc,List.cons_append,List.cons_append,← List.cons_append] at hl
    exact hl.ahead

theorem behind (h : WF cfg rev c (ps1++p::ps2)) : (c.node (ps2.headD (c.last rev))).behind rev = p := by
  have hl := h.linked
  cases ps2 with
  | nil =>
    rw [List.append_assoc,List.singleton_append,← List.cons_append] at hl
    exact hl.behind
  | cons q ps2 =>
    rw [List.append_assoc,List.cons_append,List.cons_append,← List.cons_append] at hl
    exact hl.behind

theorem nodup (h : WF cfg rev c ps) : ps.Nodup := by
  have := h.linked.1
  rw [List.map_cons,List.map_append,List.nodup_cons,List.nodup_append] at this
  exact this.2.1.of_map

theorem ne_last (h : WF cfg rev c ps) (hp : p ∈ ps) (r : Bool) : p ≠ c.last r := by
  obtain ⟨i,-,rfl⟩ := h.nodes p hp
  exact fun heq => h.offset_ne_last i r (congrArg ChunkNodePtr.addrOffset heq)

theorem insert (h : WF cfg rev c (ps1++ps2)) (hk : cfg.numNodesPerChunk ≤ 64)
    (hlen : (ps1++ps2).length < cfg.numNodesPerChunk) :
    ∃ p c', c.insert cfg rev (ps2.headD (c.last rev)) = (p,c') ∧ WF cfg rev c' (ps1++p::ps2) ∧ p ∉ ps1++ps2 ∧
      c'.data = c.data ∧ ∀ r, c'.last r = c.last r := by
  obtain ⟨i,hi,hfree⟩ := Config.exists_free hlen
  have hbit : c.metaWord.testBit (bsf64 c.metaWord) = true :=
    bsf64_spec (show i < 64 by omega) (by rw [h.free,decide_eq_true ⟨hi,hfree⟩])
  set idx := bsf64 c.metaWord
  rw [h.free,decide_eq_true_eq] at hbit
  obtain ⟨hlt,hnot⟩ := hbit
  refine ⟨cfg.nodePtr idx,_,rfl,⟨?_,h.headPtr,h.tailPtr,?_,?_,h.blank⟩,hnot,rfl,fun _ => rfl⟩
  · have hoffset : (cfg.nodePtr idx).addrOffset ∉ (c.last (!rev)::(ps1++ps2++[c.last rev])).map ChunkNodePtr.addrOffset := by
      intro hmem
      obtain ⟨q,hq,heq⟩ := List.mem_map.mp hmem
      simp only [List.mem_cons,List.mem_append,List.not_mem_nil,or_false] at hq
      rcases hq with rfl | hq | rfl
      · exact h.offset_ne_last idx _ heq.symm
      · obtain ⟨j,-,rfl⟩ := h.nodes q (List.mem_append.mpr hq)
        exact hnot (Config.offset_inj heq ▸ List.mem_append.mpr hq)
      · exact h.offset_ne_last idx _ heq.symm
    have hl := h.linked
    have hcut : ∃ V, ps2++[c.last rev] = ps2.headD (c.last rev)::V := by
      cases ps2 with
      | nil => exact ⟨[],rfl⟩
      | cons q ps2 => exact ⟨ps2++[c.last rev],rfl⟩
    obtain ⟨V,hV⟩ := hcut
    rw [List.append_assoc,← List.cons_append,hV] at hl hoffset
    have := hl.insert_cut (List.cons_ne_nil _ _) hoffset
    rw [← hV] at this
    rw [List.append_assoc,List.cons_append,← List.cons_append]
    exact this
  · intro p hp
    rcases List.mem_append.mp hp with hp | hp
    · exact h.nodes p (List.mem_append_left _ hp)
    rcases List.mem_cons.mp hp with rfl | hp
    · exact ⟨idx,hlt,rfl⟩
    · exact h.nodes p (List.mem_append_right _ hp)
  · intro j
    change (c.metaWord ^^^ (1 <<< idx)).testBit j = _
    rw [Nat.testBit_xor,h.free,Nat.one_shiftLeft,Nat.testBit_two_pow]
    by_cases hj : idx = j
    · subst hj
      simp [hlt,hnot]
    · have hne : cfg.nodePtr j ≠ cfg.nodePtr idx := fun heq => hj (Config.nodePtr_inj.mp heq).symm
      simp [hj,hne]

theorem erase (h : WF cfg rev c (ps1++p::ps2)) :
    ∃ c', c.erase rev p = (ps2.headD (c.last rev),c') ∧ WF cfg rev c' (ps1++ps2) ∧ c'.data = c.data ∧
      ∀ r, c'.last r = c.last r := by
  obtain ⟨i,hi,rfl⟩ := h.nodes p (by simp)
  have hnodup := h.nodup
  rw [List.nodup_middle,List.nodup_cons] at hnodup
  have hl := h.linked
  rw [List.append_assoc,List.cons_append,← List.cons_append] at hl
  have hl' := hl.erase_cut (List.cons_ne_nil _ _) (by simp)
  have hnext : (DoublyLinked.erase ChunkNodePtr.addrOffset c.links (cfg.nodePtr i) (cfg.nodePtr i).addrOffset).ahead rev =
      ps2.headD (c.last rev) := by
    obtain ⟨A,a,ha⟩ := (List.eq_nil_or_concat' (c.last (!rev)::ps1)).resolve_left (List.cons_ne_nil _ _)
    rw [ha,List.append_assoc,List.singleton_append] at hl
    cases ps2 with
    | nil => exact hl.erase_self
    | cons q ps2 => exact hl.erase_self
  refine ⟨_,Prod.ext hnext rfl,⟨?_,h.headPtr,h.tailPtr,?_,?_,h.blank⟩,rfl,fun _ => rfl⟩
  · rw [List.append_assoc,← List.cons_append]
    exact hl'
  · intro q hq
    refine h.nodes q ?_
    simp only [List.mem_append,List.mem_cons] at hq ⊢
    tauto
  · intro j
    change (c.metaWord ||| (1 <<< i)).testBit j = _
    rw [Nat.testBit_or,h.free,Nat.one_shiftLeft,Nat.testBit_two_pow]
    by_cases hj : i = j
    · subst hj
      simp [hi,hnodup.1]
    · have hne : cfg.nodePtr j ≠ cfg.nodePtr i := fun heq => hj (Config.nodePtr_inj.mp heq).symm
      simp [hj,hne]

theorem setItem (h : WF cfg rev c ps) (hp : p ∈ ps) (x : Option T) : WF cfg rev (c.setItem p x) ps := by
  obtain ⟨i,-,rfl⟩ := h.nodes p hp
  have hge := cfg.offset_ge i
  refine ⟨h.linked,h.headPtr,h.tailPtr,h.nodes,h.free,?_,?_⟩
  · exact (Function.update_of_ne (by simp only [headOffset,listDataSize] at hge ⊢; omega) _ _).trans h.blank.1
  · exact (Function.update_of_ne (by simp only [tailOffset,nodeHeaderSize,listDataSize] at hge ⊢; omega) _ _).trans h.blank.2

theorem item_setItem (h : WF cfg rev c ps) (hp : p ∈ ps) {q : ChunkNodePtr} (hq : q ∈ ps) (x : Option T) :
    (c.setItem p x).item q = if q = p then x else c.item q := by
  obtain ⟨i,-,rfl⟩ := h.nodes p hp
  obtain ⟨j,-,rfl⟩ := h.nodes q hq
  by_cases heq : cfg.nodePtr j = cfg.nodePtr i
  · rw [if_pos heq,heq]
    exact Function.update_self _ _ _
  · rw [if_neg heq]
    exact Function.update_of_ne (fun hoff => heq (congrArg cfg.nodePtr (Config.offset_inj hoff))) _ _

end WF

end ChunkListData

end FarMemory.ChunkedList
