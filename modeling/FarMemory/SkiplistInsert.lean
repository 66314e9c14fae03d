import FarMemory.SkiplistLinks

/-!
# Inserting a key

A key is put into the lowest level and bubbles up as long as the coin says so: into the
levels there are, next to where the search left them, and then into new levels on top.
After every round the memory is a grid again, so the loop is an induction with the grid
as invariant. The only way to fail is that the slab is exhausted.
-/
namespace FarMemory.LocalSkiplist
open SlabAllocator Neighbours Function

namespace Layout
variable {T : Type} [LinearOrder T]

def raise (G : Layout T) (levels : ℕ) (x : Key T) (addr : Obj T → ℕ) : Layout T where
  rows := update G.rows (levels+1) {⊥,x,⊤}
  keys := G.keys
  addr := addr

variable {G : Layout T} {levels j : ℕ} {x y : Key T} {addr : Obj T → ℕ}

theorem raise_row (G : Layout T) (levels : ℕ) (x : Key T) (addr : Obj T → ℕ) :
    (G.raise levels x addr).rows (levels+1) = {⊥,x,⊤} := update_self _ _ _

theorem raise_row_of_le (h : j ≤ levels) : (G.raise levels x addr).rows j = G.rows j :=
  update_of_ne (by omega) _ _

theorem mem_top_row : y ∈ (G.raise levels x addr).rows (levels+1) ↔ y = ⊥ ∨ y = x ∨ y = ⊤ := by
  rw [raise_row]
  simp

theorem has_raise {o : Obj T} : (G.raise levels x addr).Has (levels+1) o ↔
    G.Has levels o ∨ ∃ y, (y = ⊥ ∨ y = x ∨ y = ⊤) ∧ o = .node (levels+1) y := by
  cases o with
  | node j y =>
    change (j ≤ levels+1 ∧ y ∈ (G.raise levels x addr).rows j) ↔ _
    by_cases hj : j = levels+1
    · subst hj
      rw [mem_top_row]
      simp [Has]
    · constructor
      · rintro ⟨hle,hy⟩
        rw [raise_row_of_le (by omega)] at hy
        exact .inl ⟨by omega,hy⟩
      · rintro (⟨hle,hy⟩ | ⟨z,-,heq⟩)
        · exact ⟨by omega,by rwa [raise_row_of_le hle]⟩
        · cases heq
          exact absurd rfl hj
  | key y => simp [Has,raise]

section
variable (haddr : ∀ o, G.Has levels o → addr o = G.addr o)
include haddr

/-- The pointers of the old entries: those of the old top level that are in the new one point up. -/
theorem cell_raise (hy : G.Has levels (.node j y)) (hbelow : j ≠ 0 → G.Has levels (.node (j-1) y)) (hkey : y ∈ G.keys) :
    (G.raise levels x addr).cell (levels+1) j y = {G.cell levels j y with
      up := if j = levels ∧ (y = ⊥ ∨ y = x ∨ y = ⊤) then some (addr (.node (levels+1) y))
        else (G.cell levels j y).up} := by
  have hrow : (G.raise levels x addr).rows j = G.rows j := raise_row_of_le hy.1
  have hup : (G.raise levels x addr).upOf (levels+1) j y =
      if j = levels ∧ (y = ⊥ ∨ y = x ∨ y = ⊤) then some (addr (.node (levels+1) y)) else G.upOf levels j y := by
    by_cases hj : j = levels
    · subst hj
      simp only [upOf,mem_top_row,Nat.lt_succ_self,true_and,lt_irrefl,false_and,if_false]
      rfl
    · have hlt : j < levels := lt_of_le_of_ne hy.1 hj
      rw [if_neg fun h => hj h.1,upOf,upOf]
      simp only [raise_row_of_le (show j+1 ≤ levels from hlt),hlt,hlt.trans (Nat.lt_succ_self levels),true_and]
      by_cases hmem : y ∈ G.rows (j+1)
      · rw [if_pos hmem,if_pos hmem]
        exact congrArg some (haddr (.node (j+1) y) ⟨hlt,hmem⟩)
      · rw [if_neg hmem,if_neg hmem]
  have hdown : (G.raise levels x addr).downOf j y = G.downOf j y := by
    unfold downOf
    split
    · rfl
    · exact congrArg some (haddr _ (hbelow ‹_›))
  have hleft : (G.raise levels x addr).leftOf j y = G.leftOf j y := by
    rw [leftOf,hrow]
    exact Option.map_congr fun z hz => haddr (.node j z) ⟨hy.1,prev_mem hz⟩
  have hright : (G.raise levels x addr).rightOf j y = G.rightOf j y := by
    rw [rightOf,hrow]
    exact Option.map_congr fun z hz => haddr (.node j z) ⟨hy.1,next_mem hz⟩
  have hkey' : (G.raise levels x addr).addr (.key y) = G.addr (.key y) := haddr (.key y) hkey
  simp only [cell,hup,hdown,hleft,hright,hkey']

end

theorem upOf_top (G : Layout T) (levels : ℕ) (x : Key T) : G.upOf levels levels x = none := by
  simp [upOf]

theorem cell_new_head (hbot : ⊥ < x) : (G.raise levels x addr).cell (levels+1) (levels+1) ⊥ =
    ⟨none,some (addr (.node levels ⊥)),none,some (addr (.node (levels+1) x)),addr (.key ⊥)⟩ := by
  have hprev : prev ({⊥,x,⊤} : Finset (Key T)) ⊥ = none := prev_eq_none.mpr fun z _ => bot_le
  have hnext : next ({⊥,x,⊤} : Finset (Key T)) ⊥ = some x := next_eq_some.mpr (by simp [hbot])
  simp only [cell,upOf_top,leftOf,rightOf,raise_row,hprev,hnext,Option.map_none,Option.map_some]
  rfl

theorem cell_new_tail (htop : x < ⊤) : (G.raise levels x addr).cell (levels+1) (levels+1) ⊤ =
    ⟨none,some (addr (.node levels ⊤)),some (addr (.node (levels+1) x)),none,addr (.key ⊤)⟩ := by
  have hprev : prev ({⊥,x,⊤} : Finset (Key T)) ⊤ = some x := prev_eq_some.mpr (by simp [htop])
  have hnext : next ({⊥,x,⊤} : Finset (Key T)) ⊤ = none := next_eq_none.mpr fun z _ => le_top
  simp only [cell,upOf_top,leftOf,rightOf,raise_row,hprev,hnext,Option.map_none,Option.map_some]
  rfl

theorem cell_new_key (hbot : ⊥ < x) (htop : x < ⊤) : (G.raise levels x addr).cell (levels+1) (levels+1) x =
    ⟨none,some (addr (.node levels x)),some (addr (.node (levels+1) ⊥)),some (addr (.node (levels+1) ⊤)),addr (.key x)⟩ := by
  have hprev : prev ({⊥,x,⊤} : Finset (Key T)) x = some ⊥ := prev_eq_some.mpr (by simp [hbot])
  have hnext : next ({⊥,x,⊤} : Finset (Key T)) x = some ⊤ := next_eq_some.mpr (by simp [htop])
  simp only [cell,upOf_top,leftOf,rightOf,raise_row,hprev,hnext,Option.map_some]
  rfl

end Layout

section
variable {T : Type} [LinearOrder T] {s s1 : Skiplist T} {G : Layout T} {x : Key T} {addr addr1 : Obj T → ℕ}

theorem Good.heap_raise (h : Good s G) (hbot : ⊥ < x) (htop : x < ⊤)
    (haddr : ∀ o, G.Has s.levels o → addr o = G.addr o) {s' : Skiplist T} {content : Obj T → Option (Cell T)}
    (h1 : Heap s' ((G.raise s.levels x addr).objs (s.levels+1)) addr content)
    (hkey : ∀ y ∈ G.keys, content (.key y) = G.content s.levels (.key y))
    (hold : ∀ j y, G.Has s.levels (.node j y) → content (.node j y) = some (.entry {G.cell s.levels j y with
      up := if j = s.levels ∧ (y = ⊥ ∨ y = x ∨ y = ⊤) then some (addr (.node (s.levels+1) y))
        else (G.cell s.levels j y).up}))
    (hhead : content (.node (s.levels+1) ⊥) =
      some (.entry ⟨none,some (addr (.node s.levels ⊥)),none,some (addr (.node (s.levels+1) x)),addr (.key ⊥)⟩))
    (htail : content (.node (s.levels+1) ⊤) =
      some (.entry ⟨none,some (addr (.node s.levels ⊤)),some (addr (.node (s.levels+1) x)),none,addr (.key ⊤)⟩))
    (hnew : content (.node (s.levels+1) x) =
      some (.entry ⟨none,some (addr (.node s.levels x)),some (addr (.node (s.levels+1) ⊥)),
        some (addr (.node (s.levels+1) ⊤)),addr (.key x)⟩)) :
    Heap s' ((G.raise s.levels x addr).objs (s.levels+1)) addr ((G.raise s.levels x addr).content (s.levels+1)) := by
  refine h1.congr rfl (fun _ _ => rfl) fun o ho c hc => ?_
  rcases Layout.has_raise.mp ho with ho | ⟨y,hy,rfl⟩
  · cases o with
    | key y =>
      rw [hkey y ho]
      exact hc
    | node j y =>
      rw [hold j y ho,← hc,Layout.content,Layout.cell_raise haddr ho (h.below ho) (h.mem_keys ho.1 ho.2)]
  · rw [Layout.content,Option.mem_def] at hc
    rcases hy with rfl | rfl | rfl
    · rw [hhead,← hc,Layout.cell_new_head hbot]
    · rw [hnew,← hc,Layout.cell_new_key hbot htop]
    · rw [htail,← hc,Layout.cell_new_tail htop]

/-- A new level costs two blocks; the old top level is then below. -/
theorem Heap.addLevel {objs : Set (Obj T)} {content : Obj T → Option (Cell T)} {o p q : Obj T} {eo eh et : Entry}
    {i : ℕ} {y z : Key T} (h : Heap s objs addr content) (ho : o ∈ objs) (hh : p ∈ objs) (ht : q ∈ objs)
    (hco : content o = some (.entry eo)) (hch : content p = some (.entry eh)) (hct : content q = some (.entry et))
    (hhead : addr p = s.head) (htail : addr q = s.tail) (hoh : o ≠ p) (hot : o ≠ q) (hht : p ≠ q)
    (hy : Obj.node i y ∉ objs) (hz : Obj.node i z ∉ objs) (hyz : y ≠ z) (core : ℕ) :
    s.addLevel core (addr o) = .error .noMemory ∨ ∃ s' addr', s.addLevel core (addr o) = .ok s' ∧
      (∀ o' ∈ objs, addr' o' = addr o') ∧
      Heap s' (insert (.node i z) (insert (.node i y) objs)) addr' (update (update (update
        (update (update content
          (.node i y) (some (.entry ⟨none,some s.head,none,some (addr o),s.negativeInfinite⟩)))
          (.node i z) (some (.entry ⟨none,some s.tail,some (addr o),none,s.positiveInfinite⟩)))
          o (some (.entry {eo with left := some (addr' (.node i y)), right := some (addr' (.node i z))})))
          p (some (.entry {eh with up := some (addr' (.node i y))})))
          q (some (.entry {et with up := some (addr' (.node i z))}))) ∧
      s'.levels = s.levels+1 ∧ s'.head = addr' (.node i y) ∧ s'.tail = addr' (.node i z) ∧
      s'.negativeInfinite = s.negativeInfinite ∧ s'.positiveInfinite = s.positiveInfinite := by
  have h2 := h.fields s.head s.tail (s.levels+1)
  rcases h2.allocate_total core (.node i y) with he | ⟨⟨a,s3⟩,ha⟩
  · left
    change Skiplist.allocate {s with levels := s.levels+1} core entrySize = _ at he
    simp only [Skiplist.addLevel,he,bind_error]
  obtain ⟨h3,slab3,rfl⟩ := h2.allocate hy ha
  change Skiplist.allocate {s with levels := s.levels+1} core entrySize = _ at ha
  rcases h3.allocate_total core (.node i z) with he | ⟨⟨b,s4⟩,hb⟩
  · left
    change Skiplist.allocate {s with levels := s.levels+1, slab := slab3} core entrySize = _ at he
    simp only [Skiplist.addLevel,ha,bind_ok,he,bind_error]
  have hz' : Obj.node i z ∉ insert (.node i y) objs := by
    rintro (heq | hmem)
    · exact hyz (by simpa using heq.symm)
    · exact hz hmem
  obtain ⟨h4,slab4,rfl⟩ := h3.allocate hz' hb
  change Skiplist.allocate {s with levels := s.levels+1, slab := slab3} core entrySize = _ at hb
  right
  set addr' := update (update addr (.node i y) a) (.node i z) b with haddr
  have hay : addr' (.node i y) = a := by simp [haddr,hyz]
  have haz : addr' (.node i z) = b := by simp [haddr]
  have hney : ∀ {o'}, o' ∈ objs → o' ≠ .node i y := fun ho' heq => hy (heq ▸ ho')
  have hnez : ∀ {o'}, o' ∈ objs → o' ≠ .node i z := fun ho' heq => hz (heq ▸ ho')
  have hsame : ∀ o' ∈ objs, addr' o' = addr o' := by
    intro o' ho'
    rw [haddr,update_of_ne (hnez ho'),update_of_ne (hney ho')]
  have hold : ∀ {o'}, o' ∈ objs → o' ∈ insert (.node i z) (insert (.node i y) objs) := fun ho' => .inr (.inr ho')
  -- the assignments
  have w1 := h4.write (o := .node i y) (.inr (.inl rfl)) (.entry ⟨none,some s.head,none,some (addr o),s.negativeInfinite⟩)
  have w2 := w1.write (o := .node i z) (.inl rfl) (.entry ⟨none,some s.tail,some (addr o),none,s.positiveInfinite⟩)
  have m3 := w2.modify (e := eo) (hold ho) (by simp [hney ho,hnez ho,hco]) fun n => {n with left := some a, right := some b}
  have w3 := w2.write (hold ho) (.entry {eo with left := some a, right := some b})
  have m4 := w3.modify (e := eh) (hold hh) (by simp [hney hh,hnez hh,hoh.symm,hch]) fun e => {e with up := some a}
  have w4 := (w3.write (hold hh) (.entry {eh with up := some a})).fields a s.tail (s.levels+1)
  have m5 := w4.modify (e := et) (hold ht) (by simp [hney ht,hnez ht,hot.symm,hht.symm,hct]) fun e => {e with up := some b}
  have w5 := (w4.write (hold ht) (.entry {et with up := some b})).fields a b (s.levels+1)
  rw [hay,haz,hsame o ho] at m3
  rw [hay,haz,hsame o ho,hsame p hh,hhead] at m4
  rw [hay,haz,hsame o ho,hsame p hh,hhead,hsame q ht,htail] at m5 w5
  refine ⟨_,addr',?_,hsame,w5.congr rfl (fun _ _ => rfl) fun o' _ c hc => ?_,rfl,hay.symm,haz.symm,rfl,rfl⟩
  · simp only [Skiplist.addLevel,ha,hb,bind_ok,Skiplist.write_head,Skiplist.write_tail,Skiplist.write_negativeInfinite,
      Skiplist.write_positiveInfinite,m3]
    rw [m4]
    exact congrArg (fun r => r >>= fun s => pure {s with tail := b}) m5
  · rw [hay,haz] at hc
    simp only [update_apply,Option.mem_def] at hc ⊢
    grind

theorem Good.addLevel (h : Good s G) (hs : SameFields s s1) (hbot : ⊥ < x) (htop : x < ⊤)
    (haddr1 : ∀ o, G.Has s.levels o → addr1 o = G.addr o)
    (h1 : Heap s1 (insert (.node (s.levels+1) x) (G.objs s.levels)) addr1 (G.linking s.levels (s.levels+1) x addr1))
    (hx : x ∈ G.rows s.levels) (core : ℕ) :
    s1.addLevel core (addr1 (.node (s.levels+1) x)) = .error .noMemory ∨
      ∃ s' addr, s1.addLevel core (addr1 (.node (s.levels+1) x)) = .ok s' ∧ Good s' (G.raise s.levels x addr) ∧
        s'.levels = s.levels+1 ∧ addr (.node (s.levels+1) x) = addr1 (.node (s.levels+1) x) := by
  have hB : G.Has s.levels (.node s.levels ⊥) := ⟨le_rfl,h.bot _ le_rfl⟩
  have hT : G.Has s.levels (.node s.levels ⊤) := ⟨le_rfl,h.top _ le_rfl⟩
  have hfresh : ∀ y ≠ x, Obj.node (s.levels+1) y ∉ insert (.node (s.levels+1) x) (G.objs s.levels) := by
    rintro y hne (heq | hmem)
    · exact hne (by simpa using heq)
    · exact absurd hmem.1 (by omega)
  have hself : G.linking s.levels (s.levels+1) x addr1 (.node (s.levels+1) x) =
      some (.entry ⟨none,some (addr1 (.node s.levels x)),none,none,addr1 (.key x)⟩) := if_pos rfl
  have hlink : ∀ y ≠ x, G.linking s.levels (s.levels+1) x addr1 (.node s.levels y) =
      some (.entry (G.cell s.levels s.levels y)) := by
    intro y hne
    rw [Layout.linking,if_neg (by simp),if_neg (by simp [hne])]
    rfl
  rcases h1.addLevel (o := .node (s.levels+1) x) (p := .node s.levels ⊥) (q := .node s.levels ⊤) (.inl rfl) (.inr hB) (.inr hT) hself (hlink ⊥ hbot.ne)
    (hlink ⊤ htop.ne') ((haddr1 _ hB).trans (h.head.symm.trans hs.head.symm))
    ((haddr1 _ hT).trans (h.tail.symm.trans hs.tail.symm)) (by simp) (by simp) (by simp) (hfresh ⊥ hbot.ne)
    (hfresh ⊤ htop.ne') (by simp) core with he | ⟨s',addr,hadd,hsame,hheap,hlevels,hhead,htail,hneg,hpos⟩
  · exact .inl he
  right
  have haddr : ∀ o, G.Has s.levels o → addr o = G.addr o := fun o ho => (hsame o (.inr ho)).trans (haddr1 o ho)
  have hself' : addr (.node (s.levels+1) x) = addr1 (.node (s.levels+1) x) := hsame _ (.inl rfl)
  have hkeyB : s1.negativeInfinite = addr (.key ⊥) := by
    rw [hs.negativeInfinite,h.negInf,haddr (.key ⊥) h.bot_key]
  have hkeyT : s1.positiveInfinite = addr (.key ⊤) := by
    rw [hs.positiveInfinite,h.posInf,haddr (.key ⊤) h.top_key]
  have hheadB : s1.head = addr (.node s.levels ⊥) := by rw [hs.head,h.head,haddr _ hB]
  have htailT : s1.tail = addr (.node s.levels ⊤) := by rw [hs.tail,h.tail,haddr _ hT]
  have hobjs : (G.raise s.levels x addr).objs (s.levels+1) =
      insert (.node (s.levels+1) ⊤) (insert (.node (s.levels+1) ⊥) (insert (.node (s.levels+1) x) (G.objs s.levels))) := by
    ext o
    refine Layout.has_raise.trans ?_
    simp only [Set.mem_insert_iff]
    constructor
    · rintro (ho | ⟨y,rfl | rfl | rfl,rfl⟩)
      · exact .inr (.inr (.inr ho))
      · exact .inr (.inl rfl)
      · exact .inr (.inr (.inl rfl))
      · exact .inl rfl
    · rintro (rfl | rfl | rfl | ho)
      · exact .inr ⟨⊤,.inr (.inr rfl),rfl⟩
      · exact .inr ⟨⊥,.inl rfl,rfl⟩
      · exact .inr ⟨x,.inr (.inl rfl),rfl⟩
      · exact .inl ho
  rw [← hobjs] at hheap
  have hraised := h.heap_raise hbot htop haddr hheap ?_ ?_ ?_ ?_ ?_
  · have hlevel : s'.levels = s.levels+1 := by rw [hlevels,hs.levels]
    refine ⟨s',addr,hadd,⟨⟨by rw [hlevel]; exact hraised,?_,?_,h.bot_key,h.top_key,?_,?_,?_,?_⟩,?_,?_,?_⟩,hlevel,hself'⟩
    · intro j hj
      rcases Nat.lt_or_ge s.levels j with hj' | hj'
      · obtain rfl : j = s.levels+1 := by omega
        exact Layout.mem_top_row.mpr (.inl rfl)
      · rw [Layout.raise_row_of_le hj']
        exact h.bot j hj'
    · intro j hj
      rcases Nat.lt_or_ge s.levels j with hj' | hj'
      · obtain rfl : j = s.levels+1 := by omega
        exact Layout.mem_top_row.mpr (.inr (.inr rfl))
      · rw [Layout.raise_row_of_le hj']
        exact h.top j hj'
    · rw [hhead,hlevel]
      rfl
    · rw [htail,hlevel]
      rfl
    · rw [hneg,hkeyB]
      rfl
    · rw [hpos,hkeyT]
      rfl
    · intro j hj y hy
      rw [Layout.raise_row_of_le (by omega)]
      rcases Nat.lt_or_ge j s.levels with hj' | hj'
      · rw [Layout.raise_row_of_le hj'] at hy
        exact h.nested j hj' hy
      · obtain rfl : j = s.levels := by omega
        rcases Layout.mem_top_row.mp hy with rfl | rfl | rfl
        · exact hB.2
        · exact hx
        · exact hT.2
    · rw [Layout.raise_row_of_le (Nat.zero_le _)]
      exact h.keys_eq
    · intro _
      rcases Key.cases x with rfl | rfl | ⟨k,rfl⟩
      · exact absurd hbot (lt_irrefl _)
      · exact absurd htop (lt_irrefl _)
      · exact ⟨k,by rw [hlevel]; exact Layout.mem_top_row.mpr (.inr (.inl rfl))⟩
  · intro y hy
    simp [Layout.linking]
  · intro j y hy
    have hj : j ≠ s.levels+1 := by
      have := hy.1
      omega
    by_cases hjl : j = s.levels
    · subst hjl
      by_cases hyB : y = ⊥
      · simp [hyB]
      by_cases hyT : y = ⊤
      · simp [hyT]
      by_cases hyx : y = x
      · subst hyx
        simp [hyB,hyT,Layout.linking,hself']
      · simp [hyB,hyT,hyx,Layout.linking,Layout.content]
    · simp [hj,hjl,Layout.linking,Layout.content]
  · simp [hheadB,hself',hkeyB,hbot.ne]
  · simp [htailT,hself',hkeyT,htop.ne']
  · simp [hsame (.node s.levels x) (.inr ⟨le_rfl,hx⟩),hsame (.key x) (.inr (h.mem_keys le_rfl hx))]

theorem Good.prepare (h : Good s G) {level : ℕ} (hlevel : level ≤ s.levels) (hx : x ∈ G.rows level)
    (hnew : ¬G.Has s.levels (.node (level+1) x)) {core a : ℕ} (ha : s.allocate core entrySize = .ok (a,s1)) :
    ∃ s2 addr, s1.entry (G.addr (.node level x)) = .ok (G.cell s.levels level x) ∧
      (s1.write a (.entry ⟨none,some (G.addr (.node level x)),none,none,G.addr (.key x)⟩)).modify
        (G.addr (.node level x)) (fun e => {e with up := some a}) = .ok s2 ∧ SameFields s s2 ∧
      addr (.node (level+1) x) = a ∧ (∀ o, G.Has s.levels o → addr o = G.addr o) ∧
      Heap s2 (insert (.node (level+1) x) (G.objs s.levels)) addr (G.linking s.levels (level+1) x addr) := by
  have hne : ∀ {o}, G.Has s.levels o → o ≠ .node (level+1) x := fun ho heq => hnew (heq ▸ ho)
  have hold : G.Has s.levels (.node level x) := ⟨hlevel,hx⟩
  obtain ⟨h1,slab,rfl⟩ := h.heap.allocate (o := .node (level+1) x) hnew ha
  set addr := update G.addr (.node (level+1) x) a with haddr
  have hself : addr (.node (level+1) x) = a := by simp [haddr]
  have hsame : ∀ o, G.Has s.levels o → addr o = G.addr o := fun o ho => update_of_ne (hne ho) _ _
  have w1 := h1.write (o := .node (level+1) x) (.inl rfl)
    (.entry ⟨none,some (G.addr (.node level x)),none,none,G.addr (.key x)⟩)
  have m2 := w1.modify (o := .node level x) (e := G.cell s.levels level x) (.inr hold)
    (by simp [Layout.content]) fun e => {e with up := some a}
  have w2 := w1.write (o := .node level x) (.inr hold) (.entry {G.cell s.levels level x with up := some a})
  rw [hself,hsame _ hold] at m2
  have hentry := h1.entry (o := .node level x) (e := G.cell s.levels level x) (.inr hold) (by simp [Layout.content])
  rw [hsame _ hold] at hentry
  refine ⟨_,addr,hentry,m2,⟨rfl,rfl,rfl,rfl,rfl,rfl⟩,hself,hsame,?_⟩
  rw [hself,hsame _ hold] at w2
  refine w2.congr rfl (fun _ _ => rfl) fun o _ c hc => ?_
  by_cases hon : o = .node (level+1) x
  · subst hon
    rw [Layout.linking,if_pos rfl] at hc
    rw [← hc]
    simp [Layout.downOf,Layout.insertAt,hsame _ hold,hsame (.key x) (h.mem_keys hlevel hx)]
  rw [Layout.linking,if_neg hon] at hc
  by_cases hod : o = .node level x
  · subst hod
    rw [if_pos ⟨Nat.succ_ne_zero level,rfl⟩,hself] at hc
    rw [update_self,← hc]
    rfl
  · rw [if_neg fun h => hod h.2] at hc
    rw [update_of_ne hod,update_of_ne hon,update_of_ne hon]
    exact hc

/-- Where the search left each of the upper levels. -/
def Traced (s : Skiplist T) (G : Layout T) (traces : List ℕ) (level : ℕ) (x : Key T) : Prop :=
  ∀ j, level < j → j ≤ s.levels → x ∉ G.rows j ∧ ∃ p, prev (G.rows j) x = some p ∧
    traces[s.levels-j]? = some (G.addr (.node j p))

theorem Good.bubbleLoop (core : ℕ) (coins : ℕ → Bool) (traces : List ℕ) (hbot : ⊥ < x) (htop : x < ⊤) (left : ℕ) :
    ∀ (level : ℕ) (s : Skiplist T) (G : Layout T), Good s G → level ≤ s.levels → x ∈ G.rows level →
      Traced s G traces level x →
      Skiplist.bubbleLoop core coins traces left level (G.addr (.node level x)) s = .error .noMemory ∨
        ∃ s' G', Skiplist.bubbleLoop core coins traces left level (G.addr (.node level x)) s = .ok s' ∧ Good s' G' ∧
          G'.rows 0 = G.rows 0 := by
  induction left with
  | zero =>
    intro level s G h _ _ _
    exact .inr ⟨s,G,rfl,h,rfl⟩
  | succ left ih =>
    intro level s G h hlevel hx htraced
    by_cases hcoin : coins level
    case neg => exact .inr ⟨s,G,by simp only [Skiplist.bubbleLoop,hcoin]; rfl,h,rfl⟩
    simp only [Skiplist.bubbleLoop,hcoin,if_true]
    rcases h.heap.allocate_total core (.node (level+1) x) with he | ⟨⟨a,s1⟩,ha⟩
    · change s.allocate core entrySize = _ at he
      left
      rw [he]
      rfl
    change s.allocate core entrySize = _ at ha
    have hnew : ¬G.Has s.levels (.node (level+1) x) := fun hold =>
      (htraced (level+1) (Nat.lt_succ_self level) hold.1).1 hold.2
    obtain ⟨s2,addr,hentry,hmodify,hs,rfl,haddr,hheap⟩ := h.prepare hlevel hx hnew ha
    have hkey : (G.cell s.levels level x).key = G.addr (.key x) := rfl
    simp only [ha,bind_ok,hentry,hkey,hmodify,hs.levels]
    by_cases hup : level+1 ≤ s.levels
    · rw [if_pos hup]
      obtain ⟨hfresh,p,hp,htrace⟩ := htraced (level+1) (Nat.lt_succ_self level) hup
      obtain ⟨n,hn⟩ := h.next_of_lt hup htop
      have hobjs : (G.insertAt (level+1) x addr).objs s.levels = insert (.node (level+1) x) (G.objs s.levels) := by
        ext o
        refine (Layout.has_insertAt hup).trans ?_
        simp [Layout.objs,or_comm]
      obtain ⟨mem,hlink,hgood⟩ := h.link hs hup hfresh (fun _ => hx) hp hn haddr (hobjs ▸ hheap)
      rw [haddr (.node (level+1) p) ⟨hup,prev_mem hp⟩] at hlink
      simp only [htrace,Skiplist.nonNull,bind_ok,hlink]
      have hlevels : Skiplist.levels {s2 with mem := mem} = s.levels := hs.levels
      -- the levels above have not changed
      have htraced' : Traced {s2 with mem := mem} (G.insertAt (level+1) x addr) traces (level+1) x := by
        intro j hlt hle
        rw [hlevels] at hle ⊢
        obtain ⟨hfresh',p',hp',htrace'⟩ := htraced j (by omega) hle
        rw [Layout.insertAt_row_of_ne (by omega)]
        exact ⟨hfresh',p',hp',htrace'.trans (congrArg some (haddr (.node j p') ⟨hle,prev_mem hp'⟩).symm)⟩
      rcases ih (level+1) _ _ hgood (hlevels ▸ hup) (Layout.mem_insertAt.mpr (.inl ⟨rfl,rfl⟩)) htraced' with
        herr | ⟨s',G',hok,hgood',hrow⟩
      · exact .inl herr
      · exact .inr ⟨s',G',hok,hgood',by rw [hrow,Layout.insertAt_row_of_ne (Nat.succ_ne_zero level).symm]⟩
    · rw [if_neg hup]
      obtain rfl : level = s.levels := by omega
      rcases h.addLevel hs hbot htop haddr hheap hx core with he | ⟨s3,addr',hadd,hgood,hlevels,hsame⟩
      · left
        rw [he]
        rfl
      simp only [hadd,bind_ok]
      rw [← hsame]
      have htraced' : Traced s3 (G.raise s.levels x addr') traces (s.levels+1) x := fun j hlt hle => by omega
      rcases ih (s.levels+1) s3 _ hgood hlevels.ge (Layout.mem_top_row.mpr (.inr (.inl rfl))) htraced' with
        herr | ⟨s',G',hok,hgood',hrow⟩
      · exact .inl herr
      · exact .inr ⟨s',G',hok,hgood',by rw [hrow,Layout.raise_row_of_le (Nat.zero_le _)]⟩

theorem Good.insertAfter (h : Good s G) {key : T} {p : Key T} (hx : Key.of key ∉ G.rows 0)
    (hp : prev (G.rows 0) (Key.of key) = some p) (core : ℕ) :
    s.insertAfter core key (G.addr (.node 0 p)) = .error .noMemory ∨
      ∃ s' addr, s.insertAfter core key (G.addr (.node 0 p)) = .ok (addr (.node 0 (Key.of key)),s') ∧
        Good s' (G.insertAt 0 (Key.of key) addr) ∧ s'.levels = s.levels ∧ ∀ o, G.Has s.levels o → addr o = G.addr o := by
  have hnode : Obj.node 0 (Key.of key) ∉ G.objs s.levels := fun hold => hx hold.2
  have hkey : Obj.key (Key.of key) ∉ insert (Obj.node 0 (Key.of key)) (G.objs s.levels) := by
    rintro (heq | hold)
    · cases heq
    · exact hx (h.keys_eq ▸ hold)
  rcases h.heap.allocate_total core (.node 0 (Key.of key)) with he | ⟨⟨a,s1⟩,ha⟩
  · change s.allocate core entrySize = _ at he
    left
    simp only [Skiplist.insertAfter,he,bind_error]
  obtain ⟨h1,slab,rfl⟩ := h.heap.allocate hnode ha
  change s.allocate core entrySize = _ at ha
  rcases h1.allocate_total core (.key (Key.of key)) with he | ⟨⟨b,s2⟩,hb⟩
  · change Skiplist.allocate {s with slab := slab} core s.itemSize = _ at he
    left
    simp only [Skiplist.insertAfter,ha,bind_ok,he,bind_error]
  obtain ⟨h2,slab',rfl⟩ := h1.allocate hkey hb
  change Skiplist.allocate {s with slab := slab} core s.itemSize = _ at hb
  right
  set addr := update (update G.addr (.node 0 (Key.of key)) a) (.key (Key.of key)) b with haddr
  have hselfNode : addr (.node 0 (Key.of key)) = a := by simp [haddr]
  have hselfKey : addr (.key (Key.of key)) = b := by simp [haddr]
  have hsame : ∀ o, G.Has s.levels o → addr o = G.addr o := by
    intro o ho
    rw [haddr,update_of_ne (fun heq : o = .key (Key.of key) => hkey (.inr (heq ▸ ho))),
      update_of_ne (fun heq : o = .node 0 (Key.of key) => hnode (heq ▸ ho))]
  have w1 := h2.write (o := .key (Key.of key)) (.inl rfl) (.item key)
  have w2 := w1.write (o := .node 0 (Key.of key)) (.inr (.inl rfl)) (.entry ⟨none,none,none,none,b⟩)
  rw [hselfNode,hselfKey] at w2
  have hobjs : (G.insertAt 0 (Key.of key) addr).objs s.levels =
      insert (.key (Key.of key)) (insert (.node 0 (Key.of key)) (G.objs s.levels)) := by
    ext o
    refine (Layout.has_insertAt (Nat.zero_le _)).trans ?_
    change _ ↔ o = _ ∨ o = _ ∨ G.Has s.levels o
    tauto
  have hheap := w2.congr hobjs (fun o _ => (rfl : addr o = addr o))
    (show ∀ o ∈ _, ∀ c ∈ G.linking s.levels 0 (Key.of key) addr o, _ from ?_)
  · obtain ⟨n,hn⟩ := h.next_of_lt (Nat.zero_le _) (Key.of_lt_top key)
    obtain ⟨mem,hlink,hgood⟩ := h.link (by constructor <;> rfl) (Nat.zero_le _) hx (by simp) hp hn hsame hheap
    rw [hsame (.node 0 p) ⟨Nat.zero_le _,prev_mem hp⟩,hselfNode] at hlink
    refine ⟨_,addr,?_,hgood,rfl,hsame⟩
    simp only [Skiplist.insertAfter,ha,hb,bind_ok,hselfNode]
    exact congrArg (fun r => r >>= fun s => pure (a,s)) hlink
  · intro o _ c hc
    by_cases hon : o = .node 0 (Key.of key)
    · subst hon
      rw [Layout.linking,if_pos rfl] at hc
      rw [update_self,← hc,hselfKey]
      rfl
    rw [Layout.linking,if_neg hon,if_neg fun h => h.1 rfl] at hc
    rw [update_of_ne hon]
    by_cases hok : o = .key (Key.of key)
    · subst hok
      rw [update_self,← hc]
      rfl
    · rw [update_of_ne hok,update_of_ne hok,update_of_ne hon]
      exact hc

end

end FarMemory.LocalSkiplist
