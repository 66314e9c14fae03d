import FarMemory.SkiplistGrid

/-!
# Searching a key

The search goes right as long as the next key is not greater and then down. Every step
leaves an entry behind that it never comes back to, so it ends after as many steps as
there are entries, and these are fewer than the bytes of the area.
-/
namespace FarMemory.LocalSkiplist
open SlabAllocator Neighbours

section
variable {T : Type} [LinearOrder T] {s : Skiplist T} {G : Layout T} {l : ℕ} {x y : Key T} {key : T}

theorem Grid.key_addr_inj (h : Grid s G) (hx : x ∈ G.keys) (hy : y ∈ G.keys) (heq : G.addr (.key x) = G.addr (.key y)) :
    x = y := by
  have := h.heap.inj (show Obj.key x ∈ G.objs s.levels from hx) (show Obj.key y ∈ G.objs s.levels from hy) heq
  simpa using this

theorem Grid.mem_key (h : Grid s G) {k : T} (hk : Key.of k ∈ G.keys) : s.mem (G.addr (.key (Key.of k))) = .item k :=
  h.heap.holds (.key (Key.of k)) hk _ rfl

theorem Key.of_lt_of {k k' : T} : Key.of k < Key.of k' ↔ k < k' := by simp [Key.of]

omit [LinearOrder T] in
theorem Key.of_inj {k k' : T} : Key.of k = Key.of k' ↔ k = k' := by simp [Key.of]

theorem Grid.isSmaller (h : Grid s G) (hy : y ∈ G.keys) (hne : y ≠ ⊥) :
    s.isSmaller key (G.addr (.key y)) = .ok (decide (Key.of key < y)) := by
  unfold Skiplist.isSmaller
  rw [h.posInf]
  rcases Key.cases y with rfl | rfl | ⟨k,rfl⟩
  · exact absurd rfl hne
  · rw [if_pos rfl,decide_eq_true (Key.of_lt_top key)]
  · rw [if_neg fun heq => (Key.of_lt_top k).ne (h.key_addr_inj hy h.top_key heq),h.mem_key hy]
    simp only [Key.of_lt_of]

theorem Grid.isEqual (h : Grid s G) (hy : y ∈ G.keys) (hne : y ≠ ⊤) :
    s.isEqual key (G.addr (.key y)) = .ok (decide (Key.of key = y)) := by
  unfold Skiplist.isEqual
  rw [h.negInf]
  rcases Key.cases y with rfl | rfl | ⟨k,rfl⟩
  · rw [if_pos rfl,decide_eq_false (Key.bot_lt_of key).ne']
  · exact absurd rfl hne
  · rw [if_neg fun heq => (Key.bot_lt_of k).ne' (h.key_addr_inj hy h.bot_key heq),h.mem_key hy]
    simp only [Key.of_inj]

/-- The entries from here on in this level and the ones below. -/
def Layout.remaining (G : Layout T) (l : ℕ) (x : Key T) : ℕ :=
  ∑ j ∈ Finset.range (l+1), ((G.rows j).filter (x ≤ ·)).card

theorem Layout.remaining_right {n : Key T} (hx : x ∈ G.rows l) (hn : x < n) : G.remaining l n < G.remaining l x := by
  refine Finset.sum_lt_sum (fun j _ => ?_) ⟨l,Finset.mem_range.mpr (Nat.lt_succ_self l),?_⟩
  · exact Finset.card_le_card (Finset.monotone_filter_right _ fun z _ (hz : n ≤ z) => hn.le.trans hz)
  · refine Finset.card_lt_card (Finset.ssubset_iff_of_subset ?_ |>.mpr ⟨x,?_,?_⟩)
    · exact Finset.monotone_filter_right _ fun z _ (hz : n ≤ z) => hn.le.trans hz
    · exact Finset.mem_filter.mpr ⟨hx,le_rfl⟩
    · intro hmem
      exact absurd (Finset.mem_filter.mp hmem).2 (not_le.mpr hn)

theorem Layout.remaining_down (hx : x ∈ G.rows (l+1)) : G.remaining l x < G.remaining (l+1) x := by
  have hpos : 0 < ((G.rows (l+1)).filter (x ≤ ·)).card := Finset.card_pos.mpr ⟨x,Finset.mem_filter.mpr ⟨hx,le_rfl⟩⟩
  rw [Layout.remaining,Layout.remaining,Finset.sum_range_succ _ (l+1)]
  omega

theorem Layout.remaining_pos (hx : x ∈ G.rows l) : 0 < G.remaining l x := by
  refine Finset.sum_pos' (fun _ _ => Nat.zero_le _) ⟨l,Finset.mem_range.mpr (Nat.lt_succ_self l),?_⟩
  exact Finset.card_pos.mpr ⟨x,Finset.mem_filter.mpr ⟨hx,le_rfl⟩⟩

theorem Grid.remaining_le (h : Grid s G) : G.remaining s.levels x ≤ s.slab.len := by
  have hcard : G.remaining s.levels x = ((Finset.range (s.levels+1)).sigma fun j => (G.rows j).filter (x ≤ ·)).card :=
    (Finset.card_sigma _ _).symm
  have hinj : Function.Injective fun p : (_ : ℕ) × Key T => Obj.node p.1 p.2 := by
    rintro ⟨j,y⟩ ⟨j',y'⟩ heq
    cases heq
    rfl
  rw [hcard,← Finset.card_map ⟨_,hinj⟩]
  refine h.heap.card_le fun o ho => ?_
  obtain ⟨⟨j,y⟩,hmem,rfl⟩ := Finset.mem_map.mp ho
  obtain ⟨hj,hy⟩ := Finset.mem_sigma.mp hmem
  exact ⟨Nat.lt_succ_iff.mp (Finset.mem_range.mp hj),(Finset.mem_filter.mp hy).1⟩

theorem Good.stops (h : Good s G) (hl : l ≤ s.levels) {n : Key T} (hn : next (G.rows l) x = some n) :
    s.stops key (G.cell s.levels l x) = .ok (decide (Key.of key < n)) := by
  have hnl := next_mem hn
  have hright : (G.cell s.levels l x).right = some (G.addr (.node l n)) := by
    simp only [Layout.cell,Layout.rightOf,hn,Option.map_some]
  have hkey : (G.cell s.levels l n).key = G.addr (.key n) := rfl
  simp only [Skiplist.stops,hright,h.entry hl hnl,bind_ok,hkey]
  exact h.isSmaller (h.mem_keys hl hnl) fun heq => not_lt_bot (heq ▸ lt_next hn)

/-- `path` has the entries where the search for a key left the levels from `l` down. -/
def Path (G : Layout T) (key : T) (l : ℕ) (path : List ℕ) : Prop :=
  path.length = l+1 ∧ ∀ j ≤ l, ∃ z, Floor (G.rows j) (Key.of key) z ∧ path[l-j]? = some (G.addr (.node j z))

theorem Path.cons {path : List ℕ} (h : Path G key l path) (hx : Floor (G.rows (l+1)) (Key.of key) x) :
    Path G key (l+1) (G.addr (.node (l+1) x)::path) := by
  refine ⟨by rw [List.length_cons,h.1],fun j hj => ?_⟩
  by_cases hjl : j = l+1
  · subst hjl
    exact ⟨x,hx,by simp⟩
  · obtain ⟨z,hz,hpath⟩ := h.2 j (by omega)
    refine ⟨z,hz,?_⟩
    rw [show l+1-j = (l-j)+1 by omega,List.getElem?_cons_succ,hpath]

/-- A round of the search goes right, or it leaves the level at the last key that is not greater. -/
theorem Good.findLoop_succ (h : Good s G) (limit : Option ℕ) (fuel : ℕ) (traces : List ℕ) (hl : l ≤ s.levels) (hx : x ∈ G.rows l)
    (hle : x ≤ Key.of key) :
    (∃ n ∈ G.rows l, x < n ∧ n ≤ Key.of key ∧ s.findLoop key limit (fuel+1) (G.addr (.node l x)) traces =
      s.findLoop key limit fuel (G.addr (.node l n)) traces) ∨
    Floor (G.rows l) (Key.of key) x ∧ s.findLoop key limit (fuel+1) (G.addr (.node l x)) traces =
      (Skiplist.record limit traces (G.addr (.node l x))).bind fun traces =>
        match l with
        | 0 => .ok (G.addr (.node 0 x),traces)
        | l+1 => s.findLoop key limit fuel (G.addr (.node l x)) traces := by
  obtain ⟨n,hn⟩ := h.next_of_lt hl (hle.trans_lt (Key.of_lt_top key))
  simp only [Skiplist.findLoop,h.entry hl hx,bind_ok,h.stops hl hn]
  by_cases hstop : Key.of key < n
  · refine .inr ⟨⟨hx,hle,fun y hy => ?_⟩,?_⟩
    · cases hn.symm.trans hy
      exact hstop
    · simp only [hstop,decide_true,if_true]
      cases l <;> rfl
  · have hright : (G.cell s.levels l x).right = some (G.addr (.node l n)) := by
      simp only [Layout.cell,Layout.rightOf,hn,Option.map_some]
    refine .inl ⟨n,next_mem hn,lt_next hn,not_lt.mp hstop,?_⟩
    simp only [hstop,decide_false,Bool.false_eq_true,if_false,hright,Skiplist.nonNull,bind_ok]

theorem record_of_lt {limit : Option ℕ} {traces : List ℕ} (h : ∀ m ∈ limit, traces.length < m) (cur : ℕ) :
    Skiplist.record limit traces cur = .ok (traces++[cur]) := by
  refine if_pos ?_
  cases limit with
  | none => rfl
  | some m => simpa using h m rfl

section
variable (traces : List ℕ) {fuel : ℕ} (h : Good s G) (hl : l ≤ s.levels) (hx : x ∈ G.rows l) (hle : x ≤ Key.of key)
  (hfuel : G.remaining l x ≤ fuel)
include h hl hx hle hfuel

theorem Good.findLoop {limit : Option ℕ} (hlimit : ∀ m ∈ limit, traces.length+l < m) :
    ∃ y path, s.findLoop key limit fuel (G.addr (.node l x)) traces = .ok (G.addr (.node 0 y),traces++path) ∧
      Floor (G.rows 0) (Key.of key) y ∧ Path G key l path := by
  induction fuel generalizing l x traces with
  | zero => exact absurd (Layout.remaining_pos hx) (by omega)
  | succ fuel ih =>
    rcases h.findLoop_succ limit fuel traces hl hx hle with ⟨n,hn,hlt,hnle,heq⟩ | ⟨hfloor,heq⟩
    · rw [heq]
      exact ih traces hl hn hnle (by have := Layout.remaining_right hx hlt; omega) hlimit
    · rw [heq,record_of_lt fun m hm => (Nat.le_add_right _ l).trans_lt (hlimit m hm)]
      cases l with
      | zero =>
        refine ⟨x,[G.addr (.node 0 x)],rfl,hfloor,rfl,fun j hj => ?_⟩
        obtain rfl : j = 0 := by omega
        exact ⟨x,hfloor,rfl⟩
      | succ l =>
        obtain ⟨y,path,hfind,hy,hpath⟩ := ih (traces++[G.addr (.node (l+1) x)]) (by omega) (h.nested l hl hx)
          hle (by have := Layout.remaining_down hx; omega) (fun m hm => by
            have := hlimit m hm
            rw [List.length_append,List.length_singleton]
            omega)
        refine ⟨y,_,hfind.trans ?_,hy,hpath.cons hfloor⟩
        rw [List.append_assoc,List.singleton_append]

/-- With as many levels as the array has places the search writes behind its end. -/
theorem Good.findLoop_overrun {m : ℕ} (hm : m ≤ traces.length+l) :
    s.findLoop key (some m) fuel (G.addr (.node l x)) traces = .error .overrun := by
  induction fuel generalizing l x traces with
  | zero => exact absurd (Layout.remaining_pos hx) (by omega)
  | succ fuel ih =>
    rcases h.findLoop_succ (some m) fuel traces hl hx hle with ⟨n,hn,hlt,hnle,heq⟩ | ⟨-,heq⟩
    · rw [heq]
      exact ih traces hl hn hnle (by have := Layout.remaining_right hx hlt; omega) hm
    · by_cases hlen : traces.length < m
      · rw [heq,record_of_lt fun _ hm' => Option.mem_some.mp hm' ▸ hlen]
        cases l with
        | zero => omega
        | succ l =>
          refine ih _ (by omega) (h.nested l hl hx) hle (by have := Layout.remaining_down hx; omega) ?_
          rw [List.length_append,List.length_singleton]
          omega
      · rw [heq,Skiplist.record,if_neg (by simpa using hlen)]
        rfl

end

theorem Good.findClosest (h : Good s G) (key : T) {limit : Option ℕ} (hlimit : ∀ m ∈ limit, s.levels < m) :
    ∃ y path, s.findClosest key limit = .ok (G.addr (.node 0 y),path) ∧ Floor (G.rows 0) (Key.of key) y ∧
      Path G key s.levels path := by
  have hloop := h.findLoop [] le_rfl (h.bot _ le_rfl) (bot_le : ⊥ ≤ Key.of key)
    (h.remaining_le.trans (Nat.le_succ s.slab.len)) (fun m hm => by simpa using hlimit m hm)
  rw [← h.head] at hloop
  simpa only [Skiplist.findClosest,List.nil_append] using hloop

theorem Good.findClosest_overrun (h : Good s G) (key : T) {m : ℕ} (hm : m ≤ s.levels) :
    s.findClosest key (some m) = .error .overrun := by
  rw [Skiplist.findClosest,h.head]
  exact h.findLoop_overrun [] le_rfl (h.bot _ le_rfl) bot_le (h.remaining_le.trans (Nat.le_succ _)) (by simpa using hm)

theorem Good.isEqual_closest (h : Good s G) (hy : Floor (G.rows 0) (Key.of key) y) :
    s.entry (G.addr (.node 0 y)) = .ok (G.cell s.levels 0 y) ∧
      s.isEqual key (G.cell s.levels 0 y).key = .ok (decide (Key.of key ∈ G.rows 0)) := by
  refine ⟨h.entry (Nat.zero_le _) hy.1,?_⟩
  have hkey : (G.cell s.levels 0 y).key = G.addr (.key y) := rfl
  have hne : y ≠ ⊤ := fun heq => absurd (heq ▸ hy.2.1) (not_le.mpr (Key.of_lt_top key))
  rw [hkey,h.isEqual (h.mem_keys (Nat.zero_le _) hy.1) hne]
  congr 1
  rw [decide_eq_decide]
  constructor
  · rintro rfl
    exact hy.1
  · exact fun hmem => (hy.eq_of_mem hmem).symm

theorem Good.exist (h : Good s G) (key : T) : s.exist key = .ok (decide (Key.of key ∈ G.rows 0)) := by
  obtain ⟨y,path,hfind,hy,-⟩ := h.findClosest key fun m (hm : m ∈ none) => nomatch hm
  obtain ⟨hentry,hequal⟩ := h.isEqual_closest hy
  simp only [Skiplist.exist,hfind,bind_ok,hentry,hequal]

end

end FarMemory.LocalSkiplist
