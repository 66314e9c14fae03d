import FarMemory.SkiplistGrid

/-!
# Linking and unlinking an entry

An entry that is put into its level, a new level on top and an entry that is taken out
of its level each lead from one grid to another. The proofs compare the pointers of
the two layouts field by field.
-/
namespace FarMemory.LocalSkiplist
open SlabAllocator Neighbours Function

/-- Everything but the memory and the allocator. -/
structure SameFields {T : Type} (s s' : Skiplist T) : Prop where
  itemSize : s'.itemSize = s.itemSize
  negativeInfinite : s'.negativeInfinite = s.negativeInfinite
  positiveInfinite : s'.positiveInfinite = s.positiveInfinite
  head : s'.head = s.head
  tail : s'.tail = s.tail
  levels : s'.levels = s.levels

namespace Layout
variable {T : Type} [LinearOrder T]

def insertAt (G : Layout T) (l : ℕ) (x : Key T) (addr : Obj T → ℕ) : Layout T where
  rows := update G.rows l (insert x (G.rows l))
  keys := if l = 0 then insert x G.keys else G.keys
  addr := addr

variable {G : Layout T} {levels l j : ℕ} {x y : Key T} {addr : Obj T → ℕ}

theorem insertAt_row (G : Layout T) (l : ℕ) (x : Key T) (addr : Obj T → ℕ) :
    (G.insertAt l x addr).rows l = insert x (G.rows l) := update_self _ _ _

theorem insertAt_row_of_ne (h : j ≠ l) : (G.insertAt l x addr).rows j = G.rows j := update_of_ne h _ _

theorem mem_insertAt : y ∈ (G.insertAt l x addr).rows j ↔ (j = l ∧ y = x) ∨ y ∈ G.rows j := by
  by_cases hj : j = l
  · subst hj
    rw [insertAt_row,Finset.mem_insert]
    simp
  · rw [insertAt_row_of_ne hj]
    simp [hj]

theorem has_insertAt {o : Obj T} (hl : l ≤ levels) : (G.insertAt l x addr).Has levels o ↔
    G.Has levels o ∨ o = .node l x ∨ (l = 0 ∧ o = .key x) := by
  cases o with
  | node j y =>
    simp only [Has,mem_insertAt,Obj.node.injEq,reduceCtorEq,and_false,or_false]
    constructor
    · rintro ⟨hj,hnew | hold⟩
      · exact .inr hnew
      · exact .inl ⟨hj,hold⟩
    · rintro (⟨hj,hold⟩ | hnew)
      · exact ⟨hj,.inr hold⟩
      · exact ⟨hnew.1 ▸ hl,.inl hnew⟩
  | key y =>
    simp only [Has,insertAt,reduceCtorEq,Obj.key.injEq,false_or]
    by_cases h0 : l = 0
    · simp [h0,or_comm]
    · simp [h0]

section
variable (haddr : ∀ o, G.Has levels o → addr o = G.addr o)
include haddr

theorem right_insertAt (hx : x ∉ G.rows l) (hj : j ≤ levels) (hy : y ∈ G.rows j) :
    (G.insertAt l x addr).rightOf j y =
      if j = l ∧ prev (G.rows l) x = some y then some (addr (.node l x)) else G.rightOf j y := by
  have hmap : (next (G.rows j) y).map (fun z => addr (.node j z)) = G.rightOf j y :=
    Option.map_congr fun z hz => haddr (.node j z) ⟨hj,next_mem hz⟩
  by_cases hjl : j = l
  · subst hjl
    rw [rightOf,insertAt_row,next_insert hx hy,apply_ite (Option.map _)]
    simp only [true_and,← hmap]
    rfl
  · rw [rightOf,insertAt_row_of_ne hjl,if_neg fun h => hjl h.1]
    exact hmap

theorem left_insertAt (hx : x ∉ G.rows l) (hj : j ≤ levels) (hy : y ∈ G.rows j) :
    (G.insertAt l x addr).leftOf j y =
      if j = l ∧ next (G.rows l) x = some y then some (addr (.node l x)) else G.leftOf j y := by
  have hmap : (prev (G.rows j) y).map (fun z => addr (.node j z)) = G.leftOf j y :=
    Option.map_congr fun z hz => haddr (.node j z) ⟨hj,prev_mem hz⟩
  by_cases hjl : j = l
  · subst hjl
    rw [leftOf,insertAt_row,prev_insert hx hy,apply_ite (Option.map _)]
    simp only [true_and,← hmap]
    rfl
  · rw [leftOf,insertAt_row_of_ne hjl,if_neg fun h => hjl h.1]
    exact hmap

theorem up_insertAt (hl : l ≤ levels) : (G.insertAt l x addr).upOf levels j y =
    if j+1 = l ∧ y = x then some (addr (.node l x)) else G.upOf levels j y := by
  by_cases hnew : j+1 = l ∧ y = x
  · obtain ⟨rfl,rfl⟩ := hnew
    rw [upOf,if_pos ⟨hl,mem_insertAt.mpr (.inl ⟨rfl,rfl⟩)⟩,if_pos ⟨rfl,rfl⟩]
    rfl
  · rw [if_neg hnew,upOf,upOf]
    have hiff : (j < levels ∧ y ∈ (G.insertAt l x addr).rows (j+1)) ↔ (j < levels ∧ y ∈ G.rows (j+1)) := by
      rw [mem_insertAt]
      simp [hnew]
    by_cases hup : j < levels ∧ y ∈ G.rows (j+1)
    · rw [if_pos (hiff.mpr hup),if_pos hup]
      exact congrArg some (haddr (.node (j+1) y) ⟨hup.1,hup.2⟩)
    · rw [if_neg fun h => hup (hiff.mp h),if_neg hup]

theorem down_insertAt (hbelow : j ≠ 0 → G.Has levels (.node (j-1) y)) :
    (G.insertAt l x addr).downOf j y = G.downOf j y := by
  unfold downOf
  split
  · rfl
  · exact congrArg some (haddr _ (hbelow ‹_›))

end

@[simp] theorem content_key : G.content levels (.key x) = (unkey x).map Cell.item := rfl

/-- The contents with an entry for `x` that its level does not know yet. -/
def linking (G : Layout T) (levels l : ℕ) (x : Key T) (addr : Obj T → ℕ) (o : Obj T) : Option (Cell T) :=
  if o = .node l x then some (.entry ⟨none,(G.insertAt l x addr).downOf l x,none,none,addr (.key x)⟩)
  else if l ≠ 0 ∧ o = .node (l-1) x then some (.entry {G.cell levels (l-1) x with up := some (addr (.node l x))})
  else G.content levels o

end Layout

section
variable {T : Type} [LinearOrder T] {s s1 : Skiplist T} {G : Layout T} {l : ℕ} {x p n : Key T} {addr : Obj T → ℕ}

theorem Good.below (h : Good s G) {j : ℕ} {y : Key T} (hy : G.Has s.levels (.node j y)) (hj : j ≠ 0) :
    G.Has s.levels (.node (j-1) y) := by
  obtain ⟨i,rfl⟩ := Nat.exists_eq_succ_of_ne_zero hj
  exact ⟨(Nat.le_succ i).trans hy.1,h.nested i hy.1 hy.2⟩

theorem Good.cell_insertAt (h : Good s G) (haddr : ∀ o, G.Has s.levels o → addr o = G.addr o) (hl : l ≤ s.levels)
    (hx : x ∉ G.rows l) {j : ℕ} {y : Key T} (hy : G.Has s.levels (.node j y)) :
    (G.insertAt l x addr).cell s.levels j y = {G.cell s.levels j y with
      up := if j+1 = l ∧ y = x then some (addr (.node l x)) else (G.cell s.levels j y).up
      left := if j = l ∧ next (G.rows l) x = some y then some (addr (.node l x)) else (G.cell s.levels j y).left
      right := if j = l ∧ prev (G.rows l) x = some y then some (addr (.node l x)) else (G.cell s.levels j y).right} := by
  have hkey : (G.insertAt l x addr).addr (.key y) = G.addr (.key y) := haddr (.key y) (h.mem_keys hy.1 hy.2)
  simp only [Layout.cell,Layout.up_insertAt haddr hl,Layout.down_insertAt haddr (h.below hy),
    Layout.left_insertAt haddr hx hy.1 hy.2,Layout.right_insertAt haddr hx hy.1 hy.2,hkey]

theorem Good.cell_new (h : Good s G) (haddr : ∀ o, G.Has s.levels o → addr o = G.addr o) (hl : l ≤ s.levels)
    (hx : x ∉ G.rows l) (hp : prev (G.rows l) x = some p) (hn : next (G.rows l) x = some n) :
    (G.insertAt l x addr).cell s.levels l x = ⟨none,(G.insertAt l x addr).downOf l x,some (addr (.node l p)),
      some (addr (.node l n)),addr (.key x)⟩ := by
  have hup : (G.insertAt l x addr).upOf s.levels l x = none := by
    rw [Layout.up_insertAt haddr hl,if_neg (by omega),Layout.upOf,if_neg]
    rintro ⟨hlt,hmem⟩
    exact hx (h.nested l hlt hmem)
  simp only [Layout.cell,hup,Layout.leftOf,Layout.rightOf,Layout.insertAt_row,prev_insert_self,next_insert_self,hp,hn,
    Option.map_some]
  rfl

theorem Good.link (h : Good s G) (hs : SameFields s s1) (hl : l ≤ s.levels) (hx : x ∉ G.rows l)
    (hbelow : l ≠ 0 → x ∈ G.rows (l-1)) (hp : prev (G.rows l) x = some p) (hn : next (G.rows l) x = some n)
    (haddr : ∀ o, G.Has s.levels o → addr o = G.addr o)
    (h1 : Heap s1 ((G.insertAt l x addr).objs s.levels) addr (G.linking s.levels l x addr)) :
    ∃ mem, s1.linkAfter (addr (.node l p)) (addr (.node l x)) = .ok {s1 with mem := mem} ∧
      Good {s1 with mem := mem} (G.insertAt l x addr) := by
  have hpl := prev_mem hp
  have hnl := next_mem hn
  have hnew : ∀ y ∈ G.rows l, y ≠ x := fun y hy heq => hx (heq ▸ hy)
  have hpn : p ≠ n := ((prev_lt hp).trans (lt_next hn)).ne
  have hlevel : ∀ y ∈ G.rows l, G.linking s.levels l x addr (.node l y) = some (.entry (G.cell s.levels l y)) := by
    intro y hy
    rw [Layout.linking,if_neg (by simp [hnew y hy]),if_neg (by simp only [Obj.node.injEq]; omega)]
    rfl
  have hself : G.linking s.levels l x addr (.node l x) =
      some (.entry ⟨none,(G.insertAt l x addr).downOf l x,none,none,addr (.key x)⟩) := if_pos rfl
  have hright : (G.cell s.levels l p).right = some (addr (.node l n)) := by
    simp only [Layout.cell,Layout.rightOf,next_of_prev hx hp,hn,Option.map_some]
    rw [haddr (.node l n) ⟨hl,hnl⟩]
  have hhas : ∀ {o}, G.Has s.levels o → o ∈ (G.insertAt l x addr).objs s.levels := fun ho =>
    (Layout.has_insertAt hl).mpr (.inl ho)
  obtain ⟨mem,hlink,hheap⟩ := h1.linkAfter (p := .node l p) (n := .node l n) (hhas ⟨hl,hpl⟩) (hhas ⟨hl,hnl⟩) ((Layout.has_insertAt hl).mpr (.inr (.inl rfl)))
    (hlevel p hpl) (hlevel n hnl) hself hright (by simpa using hpn) (by simp [hnew p hpl]) (by simp [hnew n hnl])
  refine ⟨mem,hlink,⟨⟨?_,?_,?_,?_,?_,?_,?_,?_,?_⟩,?_,?_,?_⟩⟩
  · -- the contents are those of the new layout, object by object
    refine hheap.congr (by rw [hs.levels]) (fun _ _ => rfl) fun o ho c hc => ?_
    rw [hs.levels] at hc
    rcases (Layout.has_insertAt hl).mp ho with hold | rfl | ⟨rfl,rfl⟩
    · cases o with
      | key y => simpa [Layout.linking] using hc
      | node j y =>
        have hne : Obj.node j y ≠ .node l x := by
          rintro ⟨⟩
          exact hx hold.2
        simp only [Layout.content,Option.mem_def,Option.some.injEq] at hc
        rw [← hc,h.cell_insertAt haddr hl hx hold,update_of_ne hne]
        by_cases hjp : Obj.node j y = .node l p
        · cases hjp
          rw [update_self,if_neg (by omega),if_neg (by rw [hn]; simpa using hpn.symm),if_pos ⟨rfl,hp⟩]
        rw [update_of_ne hjp]
        have hright' : ¬(j = l ∧ prev (G.rows l) x = some y) := by
          rintro ⟨rfl,hy⟩
          cases hp.symm.trans hy
          exact hjp rfl
        by_cases hjn : Obj.node j y = .node l n
        · cases hjn
          rw [update_self,if_neg (by omega),if_pos ⟨rfl,hn⟩,if_neg hright']
        have hleft' : ¬(j = l ∧ next (G.rows l) x = some y) := by
          rintro ⟨rfl,hy⟩
          cases hn.symm.trans hy
          exact hjn rfl
        rw [update_of_ne hjn,if_neg hleft',if_neg hright',Layout.linking,if_neg hne]
        by_cases hup : j+1 = l ∧ y = x
        · obtain ⟨rfl,rfl⟩ := hup
          rw [if_pos ⟨Nat.succ_ne_zero j,rfl⟩,if_pos ⟨rfl,rfl⟩]
          rfl
        · rw [if_neg hup,if_neg]
          · rfl
          · rintro ⟨h0,⟨⟩⟩
            exact hup ⟨Nat.sub_add_cancel (Nat.one_le_iff_ne_zero.mpr h0),rfl⟩
    · rw [update_self,← hc,Layout.content,h.cell_new haddr hl hx hp hn]
    · simpa [Layout.linking] using hc
  · intro j hj
    exact Layout.mem_insertAt.mpr (.inr (h.bot j (hs.levels ▸ hj)))
  · intro j hj
    exact Layout.mem_insertAt.mpr (.inr (h.top j (hs.levels ▸ hj)))
  · exact hhas (o := .key ⊥) h.bot_key
  · exact hhas (o := .key ⊤) h.top_key
  · exact hs.head.trans (h.head.trans (hs.levels.symm ▸ (haddr (.node s.levels ⊥) ⟨le_rfl,h.bot _ le_rfl⟩).symm))
  · exact hs.tail.trans (h.tail.trans (hs.levels.symm ▸ (haddr (.node s.levels ⊤) ⟨le_rfl,h.top _ le_rfl⟩).symm))
  · exact hs.negativeInfinite.trans (h.negInf.trans (haddr (.key ⊥) h.bot_key).symm)
  · exact hs.positiveInfinite.trans (h.posInf.trans (haddr (.key ⊤) h.top_key).symm)
  · intro j hj y hy
    have hj' : j < s.levels := hs.levels ▸ hj
    rw [Layout.mem_insertAt] at hy ⊢
    rcases hy with ⟨rfl,rfl⟩ | hy
    · exact .inr (hbelow (Nat.succ_ne_zero j))
    · exact .inr (h.nested j hj' hy)
  · change (if l = 0 then insert x G.keys else G.keys) = _
    by_cases h0 : l = 0
    · subst h0
      rw [if_pos rfl,Layout.insertAt_row,h.keys_eq]
    · rw [if_neg h0,Layout.insertAt_row_of_ne (Ne.symm h0),h.keys_eq]
  · intro hne
    rw [hs.levels] at hne ⊢
    obtain ⟨k,hk⟩ := h.crowned hne
    exact ⟨k,Layout.mem_insertAt.mpr (.inr hk)⟩

end

/-! ### Taking an entry out -/

namespace Layout
variable {T : Type} [LinearOrder T]

def eraseAt (G : Layout T) (l : ℕ) (x : Key T) : Layout T :=
  {G with rows := update G.rows l ((G.rows l).erase x)}

variable {G : Layout T} {levels l j : ℕ} {x y : Key T}

theorem eraseAt_row (G : Layout T) (l : ℕ) (x : Key T) : (G.eraseAt l x).rows l = (G.rows l).erase x :=
  update_self _ _ _

theorem eraseAt_row_of_ne (h : j ≠ l) : (G.eraseAt l x).rows j = G.rows j := update_of_ne h _ _

theorem mem_eraseAt : y ∈ (G.eraseAt l x).rows j ↔ ¬(j = l ∧ y = x) ∧ y ∈ G.rows j := by
  by_cases hj : j = l
  · subst hj
    rw [eraseAt_row,Finset.mem_erase]
    simp
  · rw [eraseAt_row_of_ne hj]
    simp [hj]

theorem objs_eraseAt (G : Layout T) (levels l : ℕ) (x : Key T) :
    (G.eraseAt l x).objs levels = G.objs levels \ {.node l x} := by
  ext o
  cases o with
  | node j y =>
    change (j ≤ levels ∧ y ∈ (G.eraseAt l x).rows j) ↔ (j ≤ levels ∧ y ∈ G.rows j) ∧ Obj.node j y ≠ .node l x
    rw [mem_eraseAt]
    simp only [ne_eq,Obj.node.injEq]
    tauto
  | key y =>
    change y ∈ G.keys ↔ y ∈ G.keys ∧ Obj.key y ≠ .node l x
    simp

theorem right_eraseAt (hx : x ∈ G.rows l) (hy : y ∈ (G.eraseAt l x).rows j) : (G.eraseAt l x).rightOf j y =
    if j = l ∧ prev (G.rows l) x = some y then G.rightOf l x else G.rightOf j y := by
  by_cases hj : j = l
  · subst hj
    rw [eraseAt_row] at hy
    rw [rightOf,eraseAt_row,next_erase hx hy,apply_ite (Option.map _)]
    simp only [true_and]
    rfl
  · rw [rightOf,eraseAt_row_of_ne hj,if_neg fun h => hj h.1]
    rfl

theorem left_eraseAt (hx : x ∈ G.rows l) (hy : y ∈ (G.eraseAt l x).rows j) : (G.eraseAt l x).leftOf j y =
    if j = l ∧ next (G.rows l) x = some y then G.leftOf l x else G.leftOf j y := by
  by_cases hj : j = l
  · subst hj
    rw [eraseAt_row] at hy
    rw [leftOf,eraseAt_row,prev_erase hx hy,apply_ite (Option.map _)]
    simp only [true_and]
    rfl
  · rw [leftOf,eraseAt_row_of_ne hj,if_neg fun h => hj h.1]
    rfl

theorem up_eraseAt (h : ¬(j+1 = l ∧ y = x)) : (G.eraseAt l x).upOf levels j y = G.upOf levels j y := by
  unfold upOf
  simp only [mem_eraseAt,h,not_false_eq_true,true_and]
  rfl

end Layout

section
variable {T : Type} [LinearOrder T] {s : Skiplist T} {G : Layout T} {l : ℕ} {x p n : Key T}

/-- An entry leaves its level, when nothing below points up to it and its level does not become empty. -/
theorem Grid.unlink (h : Grid s G) (core : ℕ) (hl : l ≤ s.levels) (hx : x ∈ G.rows l)
    (hfree : ∀ j, j+1 = l → x ∉ G.rows j) (hp : prev (G.rows l) x = some p) (hn : next (G.rows l) x = some n)
    (hkeys : p ∈ G.keys ∧ n ∈ G.keys) (hother : ¬(p = ⊥ ∧ n = ⊤)) :
    ∃ mem slab, s.unlink core (G.addr (.node l x)) = .ok {s with mem := mem} ∧
      Skiplist.entry {s with mem := mem} (G.addr (.node l x)) = .ok (G.cell s.levels l x) ∧
      Skiplist.free {s with mem := mem} core (G.addr (.node l x)) entrySize = .ok {s with mem := mem, slab := slab} ∧
      Grid {s with mem := mem, slab := slab} (G.eraseAt l x) ∧ slab.len = s.slab.len := by
  have hpl := prev_mem hp
  have hnl := next_mem hn
  have hpx : p ≠ x := (prev_lt hp).ne
  have hnx : n ≠ x := (lt_next hn).ne'
  have hpn : p ≠ n := ((prev_lt hp).trans (lt_next hn)).ne
  have hleft : (G.cell s.levels l x).left = some (G.addr (.node l p)) := by
    simp only [Layout.cell,Layout.leftOf,hp,Option.map_some]
  have hright : (G.cell s.levels l x).right = some (G.addr (.node l n)) := by
    simp only [Layout.cell,Layout.rightOf,hn,Option.map_some]
  have hop : Obj.node l p ∈ G.objs s.levels := ⟨hl,hpl⟩
  have hon : Obj.node l n ∈ G.objs s.levels := ⟨hl,hnl⟩
  have hox : Obj.node l x ∈ G.objs s.levels := ⟨hl,hx⟩
  -- the two assignments
  have h1 := h.heap.write hop (.entry {G.cell s.levels l p with right := (G.cell s.levels l x).right})
  have hcn : update (G.content s.levels) (.node l p)
      (some (.entry {G.cell s.levels l p with right := (G.cell s.levels l x).right})) (.node l n) =
      some (.entry (G.cell s.levels l n)) := by
    rw [update_of_ne (by simpa using hpn.symm)]
    rfl
  have h2 := h1.write hon (.entry {G.cell s.levels l n with left := (G.cell s.levels l x).left})
  have hcp2 := h2.entry (e := {G.cell s.levels l p with right := (G.cell s.levels l x).right}) hop
    (by rw [update_of_ne (by simpa using hpn),update_self])
  have hcn2 := h2.entry (e := {G.cell s.levels l n with left := (G.cell s.levels l x).left}) hon
    (by rw [update_self])
  have hcx2 := h2.entry (e := G.cell s.levels l x) hox (by
    rw [update_of_ne (by simpa using hnx.symm),update_of_ne (by simpa using hpx.symm)]
    rfl)
  -- the level keeps a key, so it is not pruned
  have hprune : ¬((G.cell s.levels l p).key = s.negativeInfinite ∧ (G.cell s.levels l n).key = s.positiveInfinite) := by
    rintro ⟨hpk,hnk⟩
    rw [h.negInf] at hpk
    rw [h.posInf] at hnk
    have hpb := h.heap.inj (show Obj.key p ∈ G.objs s.levels from hkeys.1) (show Obj.key ⊥ ∈ G.objs s.levels from h.bot_key) hpk
    have hnt := h.heap.inj (show Obj.key n ∈ G.objs s.levels from hkeys.2) (show Obj.key ⊤ ∈ G.objs s.levels from h.top_key) hnk
    cases hpb
    cases hnt
    exact hother ⟨rfl,rfl⟩
  obtain ⟨slab,hfreed,h3,hlen⟩ := h2.free hox core
  refine ⟨_,slab,?_,hcx2,hfreed,⟨?_,?_,?_,h.bot_key,h.top_key,h.head,h.tail,h.negInf,h.posInf⟩,hlen⟩
  · simp only [Skiplist.unlink,h.entry hl hx,bind_ok,hleft,hright,Skiplist.nonNull,h.heap.modify hop rfl]
    rw [hright] at hcn h1 hcp2 hcn2
    rw [hleft] at hcn2 hcp2
    simp only [h1.modify hon hcn,bind_ok,hcp2,hcn2]
    exact if_neg hprune
  · refine h3.congr (Layout.objs_eraseAt G s.levels l x) (fun _ _ => rfl) fun o ho c hc => ?_
    rw [← Layout.objs_eraseAt] at ho
    cases o with
    | key y => simpa using hc
    | node j y =>
      have hy : y ∈ (G.eraseAt l x).rows j := ho.2
      have hup : ¬(j+1 = l ∧ y = x) := by
        rintro ⟨hj,rfl⟩
        exact hfree j hj (Layout.mem_eraseAt.mp hy).2
      have hcell : (G.eraseAt l x).cell s.levels j y = {G.cell s.levels j y with
          left := if j = l ∧ next (G.rows l) x = some y then (G.cell s.levels l x).left else (G.cell s.levels j y).left
          right := if j = l ∧ prev (G.rows l) x = some y then (G.cell s.levels l x).right
            else (G.cell s.levels j y).right} := by
        simp only [Layout.cell,Layout.up_eraseAt hup,Layout.left_eraseAt hx hy,Layout.right_eraseAt hx hy]
        rfl
      rw [← hc,Layout.content,hcell]
      by_cases hjn : Obj.node j y = .node l n
      · cases hjn
        rw [update_self,if_pos ⟨rfl,hn⟩,if_neg (by rw [hp]; simpa using hpn)]
      have hleft' : ¬(j = l ∧ next (G.rows l) x = some y) := by
        rintro ⟨rfl,hy'⟩
        cases hn.symm.trans hy'
        exact hjn rfl
      rw [update_of_ne hjn,if_neg hleft']
      by_cases hjp : Obj.node j y = .node l p
      · cases hjp
        rw [update_self,if_pos ⟨rfl,hp⟩]
      · rw [update_of_ne hjp,if_neg]
        · rfl
        · rintro ⟨rfl,hy'⟩
          cases hp.symm.trans hy'
          exact hjp rfl
  · intro j hj
    refine Layout.mem_eraseAt.mpr ⟨?_,h.bot j hj⟩
    rintro ⟨-,rfl⟩
    exact not_lt_bot (prev_lt hp)
  · intro j hj
    refine Layout.mem_eraseAt.mpr ⟨?_,h.top j hj⟩
    rintro ⟨-,rfl⟩
    exact not_top_lt (lt_next hn)

end

end FarMemory.LocalSkiplist
