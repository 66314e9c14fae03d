import FarMemory.SkiplistInsert
import FarMemory.SkiplistSearch

/-!
# The local skip list refines a finite set

The operations lead from one grid to another as long as no removal empties the top
level and no insertion finds `kMaxLevels` levels above the lowest. A removal that
empties the top level gives the boundary entries back to the slab, `head_` and `tail_`
among them, without setting these to the level below; an insertion records the level
traces in an array that is too short for one more level.
-/
namespace FarMemory.LocalSkiplist
open SlabAllocator Neighbours Execution Function

/-! ### Removing -/

namespace Layout
variable {T : Type} [LinearOrder T]

/-- The layout when the copy of `x` and its entries below level `l` are gone. -/
def without (G : Layout T) (x : Key T) (l : ℕ) : Layout T where
  rows := fun j => if j < l then (G.rows j).erase x else G.rows j
  keys := G.keys.erase x
  addr := G.addr

variable {G : Layout T} {l j : ℕ} {x y : Key T}

theorem without_row_of_lt (h : j < l) : (G.without x l).rows j = (G.rows j).erase x := if_pos h

theorem without_row_of_le (h : l ≤ j) : (G.without x l).rows j = G.rows j := if_neg (not_lt.mpr h)

theorem mem_without : y ∈ (G.without x l).rows j ↔ (j < l → y ≠ x) ∧ y ∈ G.rows j := by
  rcases Nat.lt_or_ge j l with h | h
  · rw [without_row_of_lt h,Finset.mem_erase]
    simp [h]
  · rw [without_row_of_le h]
    simp [Nat.not_lt.mpr h]

theorem without_eraseAt (G : Layout T) (x : Key T) (l : ℕ) : (G.without x l).eraseAt l x = G.without x (l+1) := by
  have hrows : ((G.without x l).eraseAt l x).rows = (G.without x (l+1)).rows := by
    funext j
    ext y
    rw [mem_eraseAt,mem_without,mem_without]
    constructor
    · rintro ⟨hne,hlt,hy⟩
      refine ⟨fun hj heq => ?_,hy⟩
      rcases Nat.lt_succ_iff_lt_or_eq.mp hj with hj | rfl
      · exact hlt hj heq
      · exact hne ⟨rfl,heq⟩
    · rintro ⟨hlt,hy⟩
      exact ⟨fun heq => hlt (by omega) heq.2,fun hj => hlt (by omega),hy⟩
  exact congrArg (fun rows => (⟨rows,G.keys.erase x,G.addr⟩ : Layout T)) hrows

end Layout

section
variable {T : Type} [LinearOrder T] {s : Skiplist T} {G : Layout T} {x : Key T}

/-- What a removal needs: the top level has another key, then so have all levels. -/
def Accompanied (G : Layout T) (levels : ℕ) (x : Key T) : Prop := ∃ k, Key.of k ∈ G.rows levels ∧ Key.of k ≠ x

theorem Accompanied.neighbours {l levels : ℕ} {p n : Key T} (h : Accompanied G levels x)
    (hsub : G.rows levels ⊆ G.rows l) (hp : prev (G.rows l) x = some p) (hn : next (G.rows l) x = some n) :
    ¬(p = ⊥ ∧ n = ⊤) := by
  rintro ⟨rfl,rfl⟩
  obtain ⟨k,hk,hne⟩ := h
  rcases lt_or_gt_of_ne hne with hlt | hgt
  · exact absurd ((prev_eq_some.mp hp).2.2 _ (hsub hk) hlt) (not_le.mpr (Key.bot_lt_of k))
  · exact absurd ((next_eq_some.mp hn).2.2 _ (hsub hk) hgt) (not_le.mpr (Key.of_lt_top k))

theorem removeLoop_grid (hbot : ⊥ < x) (htop : x < ⊤) (hnested : ∀ l < s.levels, G.rows (l+1) ⊆ G.rows l)
    (hkeys : G.keys = G.rows 0) (hother : Accompanied G s.levels x) (core fuel : ℕ) :
    ∀ (l : ℕ) (s' : Skiplist T), Grid s' (G.without x l) → s'.levels = s.levels → l ≤ s.levels → x ∈ G.rows l →
      s.levels < fuel+l → ∃ s'' m, Skiplist.removeLoop core fuel (G.addr (.node l x)) s' = .ok s'' ∧
        Grid s'' (G.without x (m+1)) ∧ s''.levels = s.levels ∧ l ≤ m ∧ (m < s.levels → x ∉ G.rows (m+1)) := by
  have hdown : ∀ {i j}, i ≤ j → j ≤ s.levels → G.rows j ⊆ G.rows i := by
    intro i j hij hj
    induction j, hij using Nat.le_induction with
    | base => exact subset_rfl
    | succ j _ ih => exact (hnested j hj).trans (ih (by omega))
  induction fuel with
  | zero =>
    intro l s' _ _ hl _ hfuel
    omega
  | succ fuel ih =>
    intro l s' h hlevels hl hx hfuel
    have hl' : l ≤ s'.levels := hlevels ▸ hl
    have hrow : (G.without x l).rows l = G.rows l := Layout.without_row_of_le le_rfl
    obtain ⟨p,hp⟩ := h.prev_of_lt hl' hbot
    obtain ⟨n,hn⟩ := h.next_of_lt hl' htop
    have hp' := hp
    have hn' := hn
    rw [hrow] at hp' hn'
    have hcopy : ∀ y ∈ G.rows l, y ≠ x → y ∈ (G.without x l).keys := fun y hy hne =>
      Finset.mem_erase.mpr ⟨hne,hkeys ▸ hdown (Nat.zero_le l) hl hy⟩
    obtain ⟨mem,slab,hunlink,hentry,hfree,hgrid,-⟩ := h.unlink core hl' (hrow.symm ▸ hx)
      (fun j hj hmem => (Layout.mem_without.mp hmem).1 (by omega) rfl) hp hn
      ⟨hcopy p (prev_mem hp') (prev_lt hp').ne,hcopy n (next_mem hn') (lt_next hn').ne'⟩
      (hother.neighbours (hdown hl le_rfl) hp' hn')
    rw [Layout.without_eraseAt] at hgrid
    change s'.unlink core (G.addr (.node l x)) = _ at hunlink
    change Skiplist.entry {s' with mem := mem} (G.addr (.node l x)) = _ at hentry
    change Skiplist.free {s' with mem := mem} core (G.addr (.node l x)) entrySize = _ at hfree
    simp only [Skiplist.removeLoop,hunlink,bind_ok,hentry,hfree]
    have hup : ((G.without x l).cell s'.levels l x).up =
        if l < s.levels ∧ x ∈ G.rows (l+1) then some (G.addr (.node (l+1) x)) else none := by
      simp only [Layout.cell,Layout.upOf,hlevels,Layout.without_row_of_le (Nat.le_succ l)]
      rfl
    rw [hup]
    by_cases hmore : l < s.levels ∧ x ∈ G.rows (l+1)
    · simp only [if_pos hmore]
      obtain ⟨s'',m,hloop,hgrid',hlevels',hm,hlast⟩ := ih (l+1) _ hgrid hlevels hmore.1 hmore.2 (by omega)
      exact ⟨s'',m,hloop,hgrid',hlevels',by omega,hlast⟩
    · simp only [if_neg hmore]
      exact ⟨_,l,rfl,hgrid,hlevels,le_rfl,fun hlt hmem => hmore ⟨hlt,hmem⟩⟩

theorem Grid.levels_lt (h : Grid s G) : s.levels < s.slab.len := by
  have hcard := h.heap.card_le (F := (Finset.range (s.levels+1)).map ⟨fun j => Obj.node j ⊥,fun i j hij => by
    cases hij
    rfl⟩) fun o ho => by
      obtain ⟨j,hj,rfl⟩ := Finset.mem_map.mp ho
      have hj' : j ≤ s.levels := Nat.lt_succ_iff.mp (Finset.mem_range.mp hj)
      exact ⟨hj',h.bot j hj'⟩
  rwa [Finset.card_map,Finset.card_range] at hcard

theorem Good.free_key (h : Good s G) {key : T} (hkey : Key.of key ∈ G.rows 0) (core : ℕ) :
    ∃ slab, s.free core (G.addr (.key (Key.of key))) s.itemSize = .ok {s with slab := slab} ∧
      slab.len = s.slab.len ∧ Grid {s with slab := slab} (G.without (Key.of key) 0) := by
  obtain ⟨slab,hfree,hheap,hlen⟩ := h.heap.free (o := .key (Key.of key)) (show Key.of key ∈ G.keys from h.keys_eq ▸ hkey) core
  refine ⟨slab,hfree,hlen,⟨hheap.congr ?_ (fun _ _ => rfl) fun o _ c hc => ?_,h.bot,h.top,?_,?_,h.head,h.tail,h.negInf,h.posInf⟩⟩
  · ext o
    cases o with
    | node j y =>
      change G.Has s.levels (.node j y) ↔ G.Has s.levels (.node j y) ∧ Obj.node j y ≠ .key (Key.of key)
      simp
    | key y =>
      change y ∈ G.keys.erase (Key.of key) ↔ y ∈ G.keys ∧ Obj.key y ≠ .key (Key.of key)
      simp [and_comm]
  · cases o with
    | node j y => exact hc
    | key y => exact hc
  · exact Finset.mem_erase.mpr ⟨(Key.bot_lt_of key).ne,h.bot_key⟩
  · exact Finset.mem_erase.mpr ⟨(Key.of_lt_top key).ne',h.top_key⟩

theorem Good.remove (h : Good s G) (core : ℕ) (key : T)
    (hother : Key.of key ∈ G.rows 0 → Accompanied G s.levels (Key.of key)) :
    ∃ s' G', s.remove core key = .ok (decide (Key.of key ∈ G.rows 0),s') ∧ Good s' G' ∧
      G'.rows 0 = (G.rows 0).erase (Key.of key) := by
  obtain ⟨y,path,hfind,hy,-⟩ := h.findClosest key fun m (hm : m ∈ none) => nomatch hm
  obtain ⟨hentry,hequal⟩ := h.isEqual_closest hy
  simp only [Skiplist.remove,hfind,bind_ok,hentry,hequal]
  by_cases hmem : Key.of key ∈ G.rows 0
  case neg =>
    simp only [hmem,decide_false,Bool.false_eq_true,if_false]
    exact ⟨s,G,rfl,h,(Finset.erase_eq_of_notMem hmem).symm⟩
  obtain rfl := hy.eq_of_mem hmem
  simp only [hmem,decide_true,if_true]
  obtain ⟨slab,hfree,hlen,hgrid⟩ := h.free_key hmem core
  change s.free core (G.cell s.levels 0 (Key.of key)).key s.itemSize = _ at hfree
  simp only [hfree,bind_ok]
  have hfuel := h.levels_lt
  obtain ⟨s',m,hloop,hgrid',hlevels,-,hlast⟩ := removeLoop_grid (Key.bot_lt_of key) (Key.of_lt_top key) h.nested h.keys_eq
    (hother hmem) core (slab.len+1) 0 _ hgrid rfl (Nat.zero_le _) hmem (by omega)
  simp only [hloop,bind_ok]
  refine ⟨s',_,rfl,⟨hgrid',?_,?_,?_⟩,Layout.without_row_of_lt (Nat.succ_pos m)⟩
  · intro j hj z hz
    rw [hlevels] at hj
    rw [Layout.mem_without] at hz ⊢
    refine ⟨fun hjm heq => ?_,h.nested j hj hz.2⟩
    rcases Nat.lt_succ_iff_lt_or_eq.mp hjm with hjm | rfl
    · exact hz.1 (by omega) heq
    · exact hlast hj (heq ▸ hz.2)
  · rw [Layout.without_row_of_lt (Nat.succ_pos m),← h.keys_eq]
    rfl
  · intro _
    obtain ⟨k,hk,hne⟩ := hother hmem
    rw [hlevels]
    exact ⟨k,Layout.mem_without.mpr ⟨fun _ => hne,hk⟩⟩

/-! ### Inserting -/

theorem Good.insert (h : Good s G) (hlevels : s.levels < kMaxLevels) (core : ℕ) (coins : ℕ → Bool) (key : T) :
    s.insert core coins key = .error .noMemory ∨ ∃ s' G', s.insert core coins key = .ok (decide (Key.of key ∉ G.rows 0),s') ∧
      Good s' G' ∧ G'.rows 0 = Insert.insert (Key.of key) (G.rows 0) := by
  obtain ⟨y,path,hfind,hy,hpath⟩ := h.findClosest key fun m (hm : m ∈ some kMaxLevels) => by
    cases hm
    exact hlevels
  obtain ⟨hentry,hequal⟩ := h.isEqual_closest hy
  simp only [Skiplist.insert,hfind,bind_ok,hentry,hequal]
  by_cases hmem : Key.of key ∈ G.rows 0
  · simp only [hmem,decide_true,if_true,not_true,decide_false]
    exact .inr ⟨s,G,rfl,h,(Finset.insert_eq_of_mem hmem).symm⟩
  simp only [hmem,decide_false,Bool.false_eq_true,if_false,not_false_eq_true,decide_true]
  rcases h.insertAfter hmem (hy.prev_of_notMem hmem) core with he | ⟨s1,addr,hafter,hgood,hsame,haddr⟩
  · exact .inl (by simp only [he,bind_error])
  have htraced : Traced s1 (G.insertAt 0 (Key.of key) addr) path 0 (Key.of key) := by
    intro j hj hle
    rw [hsame] at hle ⊢
    have hfresh : Key.of key ∉ G.rows j := fun hold => hmem (h.rows_subset hle hold)
    obtain ⟨z,hz,hget⟩ := hpath.2 j hle
    rw [Layout.insertAt_row_of_ne (by omega)]
    exact ⟨hfresh,z,hz.prev_of_notMem hfresh,hget.trans (congrArg some (haddr (.node j z) ⟨hle,hz.1⟩).symm)⟩
  simp only [hafter,bind_ok,Skiplist.bubbleUp]
  rcases Good.bubbleLoop core coins path (Key.bot_lt_of key) (Key.of_lt_top key) kMaxLevels 0 s1 _ hgood (Nat.zero_le _)
    (Layout.mem_insertAt.mpr (.inl ⟨rfl,rfl⟩)) htraced with he | ⟨s',G',hbubble,hgood',hrow⟩
  · change Skiplist.bubbleLoop core coins path kMaxLevels 0 (addr (.node 0 (Key.of key))) s1 = _ at he
    exact .inl (by simp only [he,bind_error])
  · change Skiplist.bubbleLoop core coins path kMaxLevels 0 (addr (.node 0 (Key.of key))) s1 = _ at hbubble
    simp only [hbubble,bind_ok]
    exact .inr ⟨s',G',rfl,hgood',by rw [hrow,Layout.insertAt_row]⟩

end

/-! ### The constructor -/

section
variable {T : Type} [LinearOrder T] {s : Skiplist T}

theorem new_good {itemSize base len core : ℕ} (h : Skiplist.new itemSize base len core = .ok s) :
    ∃ G : Layout T, Good s G ∧ G.rows 0 = {⊥,⊤} := by
  set s0 : Skiplist T := ⟨itemSize,Slab.new base len,fun _ => .junk,0,0,0,0,0⟩ with hs0
  simp only [Skiplist.new,← hs0] at h
  rcases ha1 : s0.allocate core itemSize with e | ⟨a1,s1⟩
  · simp only [ha1,bind_error] at h
    cases h
  simp only [ha1,bind_ok] at h
  have hidx : ∃ idx, getSlabIdx itemSize = some idx := by
    cases hnone : getSlabIdx itemSize with
    | none => simp [Skiplist.allocate,Slab.allocate,hnone] at ha1
    | some idx => exact ⟨idx,rfl⟩
  have h0 : Heap s0 ∅ (fun _ => 0) (fun _ => none) :=
    ⟨Set.injOn_empty _,fun o ho => absurd ho (Set.notMem_empty o),⟨[],by rw [Set.image_empty]; exact Slab.Inv.new base len⟩,hidx⟩
  obtain ⟨h1,slab1,rfl⟩ := h0.allocate (o := .key ⊥) (Set.notMem_empty _) ha1
  rcases ha2 : Skiplist.allocate {s0 with slab := slab1} core itemSize with e | ⟨a2,s2⟩
  · simp only [ha2,bind_error] at h
    cases h
  simp only [ha2,bind_ok] at h
  obtain ⟨h2,slab2,rfl⟩ := h1.allocate (o := .key ⊤) (by simp) ha2
  rcases ha3 : Skiplist.allocate {s0 with slab := slab2} core entrySize with e | ⟨a3,s3⟩
  · simp only [ha3,bind_error] at h
    cases h
  simp only [ha3,bind_ok] at h
  obtain ⟨h3,slab3,rfl⟩ := h2.allocate (o := .node 0 ⊥) (by simp) ha3
  rcases ha4 : Skiplist.allocate {s0 with slab := slab3} core entrySize with e | ⟨a4,s4⟩
  · simp only [ha4,bind_error] at h
    cases h
  simp only [ha4,bind_ok] at h
  obtain ⟨h4,slab4,rfl⟩ := h3.allocate (o := .node 0 ⊤) (by simp) ha4
  set addr := update (update (update (update (fun _ : Obj T => 0) (.key ⊥) a1)
    (.key ⊤) a2) (.node 0 ⊥) a3) (.node 0 ⊤) a4 with haddr
  have hkeyB : addr (.key ⊥) = a1 := by simp [haddr]
  have hkeyT : addr (.key ⊤) = a2 := by simp [haddr]
  have hnodeB : addr (.node 0 ⊥) = a3 := by simp [haddr]
  have hnodeT : addr (.node 0 ⊤) = a4 := by simp [haddr]
  have w1 := h4.write (o := .node 0 ⊥) (by simp) (.entry ⟨none,none,none,some a4,a1⟩)
  have w2 := w1.write (o := .node 0 ⊤) (by simp) (.entry ⟨none,none,some a3,none,a2⟩)
  rw [hnodeB,hnodeT] at w2
  set G : Layout T := ⟨fun _ => {⊥,⊤},{⊥,⊤},addr⟩ with hG
  have hright : next ({⊥,⊤} : Finset (Key T)) ⊥ = some ⊤ := by
    refine next_eq_some.mpr ⟨by simp,bot_lt_top,fun z hz hlt => ?_⟩
    rcases (by simpa using hz : z = ⊥ ∨ z = ⊤) with rfl | rfl
    · exact absurd hlt (lt_irrefl _)
    · exact le_rfl
  have hleft : prev ({⊥,⊤} : Finset (Key T)) ⊤ = some ⊥ := by
    refine prev_eq_some.mpr ⟨by simp,bot_lt_top,fun z hz hlt => ?_⟩
    rcases (by simpa using hz : z = ⊥ ∨ z = ⊤) with rfl | rfl
    · exact le_rfl
    · exact absurd hlt (lt_irrefl _)
  have hnone : prev ({⊥,⊤} : Finset (Key T)) ⊥ = none := prev_eq_none.mpr fun z _ => bot_le
  have hnone' : next ({⊥,⊤} : Finset (Key T)) ⊤ = none := next_eq_none.mpr fun z _ => le_top
  have hcellB : G.cell 0 0 ⊥ = ⟨none,none,none,some a4,a1⟩ := by
    simp [hG,Layout.cell,Layout.upOf,Layout.downOf,Layout.leftOf,Layout.rightOf,hright,hnone,hnodeT,hkeyB]
  have hcellT : G.cell 0 0 ⊤ = ⟨none,none,some a3,none,a2⟩ := by
    simp [hG,Layout.cell,Layout.upOf,Layout.downOf,Layout.leftOf,Layout.rightOf,hleft,hnone',hnodeB,hkeyT]
  have hobjs : G.objs 0 = insert (.node 0 ⊤) (insert (.node 0 ⊥) (insert (.key ⊤) (insert (.key ⊥) ∅))) := by
    ext o
    cases o with
    | node j y =>
      change (j ≤ 0 ∧ y ∈ ({⊥,⊤} : Finset (Key T))) ↔ _
      simp only [Nat.le_zero,Finset.mem_insert,Finset.mem_singleton,Set.mem_insert_iff,Obj.node.injEq,reduceCtorEq,
        Set.mem_empty_iff_false,or_false]
      tauto
    | key y =>
      change y ∈ ({⊥,⊤} : Finset (Key T)) ↔ _
      simp [or_comm]
  have hheap := w2.congr hobjs (fun o _ => (rfl : addr o = addr o)) (show ∀ o ∈ _, ∀ c ∈ G.content 0 o, _ from ?_)
  · cases h
    refine ⟨G,⟨⟨⟨hheap.inj,hheap.holds,hheap.slab,hheap.classed⟩,?_,?_,?_,?_,hnodeB.symm,hnodeT.symm,hkeyB.symm,hkeyT.symm⟩,
      fun l hl => absurd hl (Nat.not_lt_zero l),rfl,fun hne => absurd rfl hne⟩,rfl⟩
    all_goals simp [hG]
  · intro o ho c hc
    rcases ho with rfl | rfl | rfl | rfl | ho
    · rw [update_self,← hc,Layout.content,hcellT]
    · rw [update_of_ne (by simp),update_self,← hc,Layout.content,hcellB]
    · cases hc
    · cases hc
    · exact absurd ho (Set.notMem_empty o)

end

/-! ### The levels and entries in memory -/

namespace Skiplist
variable {T : Type} (s : Skiplist T)

/-- The key of an entry, none for a sentinel. -/
def keyOf (e : Entry) : List T :=
  if e.key = s.negativeInfinite ∨ e.key = s.positiveInfinite then []
  else
    match s.mem e.key with
    | .item k => [k]
    | _ => []

/-- The keys from an entry on, to the right. -/
def walk : ℕ → ℕ → List T
  | 0,_ => []
  | fuel+1,a =>
    match s.entry a with
    | .error _ => []
    | .ok e =>
      match e.right with
      | none => s.keyOf e
      | some r => s.keyOf e++walk fuel r

/-- The first entry of a level, counted from the top. -/
def boundary : ℕ → Option ℕ
  | 0 => some s.head
  | i+1 => (boundary i).bind fun a => (s.entry a).toOption.bind Entry.down

/-- The keys of a level, counted from the top. -/
def level (i : ℕ) : List T :=
  match s.boundary i with
  | none => []
  | some a => s.walk (s.slab.len+1) a

/-- The entries that pointers lead to. -/
inductive Reachable : ℕ → Prop
  | head : Reachable s.head
  | follow {a b : ℕ} {e : Entry} (h : Reachable a) (he : s.entry a = .ok e)
      (hb : e.up = some b ∨ e.down = some b ∨ e.left = some b ∨ e.right = some b) : Reachable b

/-- The block has been returned to the slab and not been handed out since. -/
def Returned (a : ℕ) : Prop := ∃ core idx, a ∈ s.slab.slabs core idx

end Skiplist

section
variable {T : Type} [LinearOrder T] {s : Skiplist T} {G : Layout T} {l : ℕ} {x : Key T}

theorem Grid.keyOf (h : Grid s G) (hx : x ∈ G.keys) : s.keyOf (G.cell s.levels l x) = (unkey x).toList := by
  have hkey : (G.cell s.levels l x).key = G.addr (.key x) := rfl
  unfold Skiplist.keyOf
  rw [hkey,h.negInf,h.posInf]
  rcases Key.cases x with rfl | rfl | ⟨k,rfl⟩
  · rw [if_pos (.inl rfl)]
    rfl
  · rw [if_pos (.inr rfl)]
    rfl
  · rw [if_neg,h.mem_key hx]
    · rfl
    · rintro (heq | heq)
      · exact (Key.bot_lt_of k).ne' (h.key_addr_inj hx h.bot_key heq)
      · exact (Key.of_lt_top k).ne (h.key_addr_inj hx h.top_key heq)

theorem mem_unkey {k : T} : k ∈ (unkey x).toList ↔ x = Key.of k := by
  rcases Key.cases x with rfl | rfl | ⟨k',rfl⟩
  · simp [show unkey (⊥ : Key T) = none from rfl,(Key.bot_lt_of k).ne]
  · simp [show unkey (⊤ : Key T) = none from rfl,(Key.of_lt_top k).ne']
  · simp [show unkey (Key.of k') = some k' from rfl,Key.of_inj,eq_comm]

omit [LinearOrder T] in
theorem pairwise_unkey (x : Key T) (R : T → T → Prop) : (unkey x).toList.Pairwise R := by
  cases unkey x with
  | none => exact .nil
  | some k => exact List.pairwise_singleton R k

theorem Good.walk (h : Good s G) (hl : l ≤ s.levels) (fuel : ℕ) : ∀ x ∈ G.rows l, G.remaining l x ≤ fuel →
    (s.walk fuel (G.addr (.node l x))).Pairwise (· < ·) ∧
      ∀ k, k ∈ s.walk fuel (G.addr (.node l x)) ↔ Key.of k ∈ G.rows l ∧ x ≤ Key.of k := by
  induction fuel with
  | zero =>
    intro x hx hfuel
    exact absurd (Layout.remaining_pos hx) (by omega)
  | succ fuel ih =>
    intro x hx hfuel
    have hkey := h.keyOf (l := l) (h.mem_keys hl hx)
    cases hn : next (G.rows l) x with
    | none =>
      have hright : (G.cell s.levels l x).right = none := by
        simp only [Layout.cell,Layout.rightOf,hn,Option.map_none]
      simp only [Skiplist.walk,h.entry hl hx,hright,hkey,mem_unkey]
      refine ⟨pairwise_unkey x _,fun k => ⟨?_,fun hk => ?_⟩⟩
      · rintro rfl
        exact ⟨hx,le_rfl⟩
      · exact le_antisymm hk.2 (next_eq_none.mp hn _ hk.1)
    | some n =>
      have hright : (G.cell s.levels l x).right = some (G.addr (.node l n)) := by
        simp only [Layout.cell,Layout.rightOf,hn,Option.map_some]
      obtain ⟨hsorted,hmem⟩ := ih n (next_mem hn) (by have := Layout.remaining_right hx (lt_next hn); omega)
      simp only [Skiplist.walk,h.entry hl hx,hright,hkey,List.mem_append,mem_unkey,hmem]
      refine ⟨List.pairwise_append.mpr ⟨pairwise_unkey x _,hsorted,fun k hk k' hk' => ?_⟩,fun k => ⟨?_,fun hk => ?_⟩⟩
      · rw [← Key.of_lt_of,← mem_unkey.mp hk]
        exact (lt_next hn).trans_le ((hmem k').mp hk').2
      · rintro (rfl | ⟨hk,hle⟩)
        · exact ⟨hx,le_rfl⟩
        · exact ⟨hk,(lt_next hn).le.trans hle⟩
      · rcases hk.2.eq_or_lt with heq | hlt
        · exact .inl heq
        · exact .inr ⟨hk.1,(next_eq_some.mp hn).2.2 _ hk.1 hlt⟩

theorem Good.boundary (h : Good s G) : ∀ i ≤ s.levels, s.boundary i = some (G.addr (.node (s.levels-i) ⊥)) := by
  intro i
  induction i with
  | zero => exact fun _ => congrArg some h.head
  | succ i ih =>
    intro hi
    have hle : s.levels-i ≤ s.levels := Nat.sub_le _ _
    have hdown : (G.cell s.levels (s.levels-i) ⊥).down = some (G.addr (.node (s.levels-(i+1)) ⊥)) :=
      if_neg (by omega)
    simp only [Skiplist.boundary,ih (by omega),Option.bind_some,h.entry hle (h.bot _ hle),Except.toOption]
    exact hdown

theorem Good.level (h : Good s G) {i : ℕ} (hi : i ≤ s.levels) : (s.level i).Pairwise (· < ·) ∧
    ∀ k, k ∈ s.level i ↔ Key.of k ∈ G.rows (s.levels-i) := by
  have hle : s.levels-i ≤ s.levels := Nat.sub_le _ _
  have hfuel : G.remaining (s.levels-i) ⊥ ≤ s.slab.len+1 := by
    have hmono : G.remaining (s.levels-i) ⊥ ≤ G.remaining s.levels ⊥ :=
      Finset.sum_le_sum_of_subset (Finset.range_subset_range.mpr (by omega))
    exact hmono.trans (h.remaining_le.trans (Nat.le_succ _))
  obtain ⟨hsorted,hmem⟩ := h.walk hle _ ⊥ (h.bot _ hle) hfuel
  simp only [Skiplist.level,h.boundary i hi]
  exact ⟨hsorted,fun k => (hmem k).trans (and_iff_left bot_le)⟩

theorem Good.level_sublist (h : Good s G) {i : ℕ} (hi : i < s.levels) : (s.level i).Sublist (s.level (i+1)) := by
  obtain ⟨hsorted,hmem⟩ := h.level hi.le
  obtain ⟨hsorted',hmem'⟩ := h.level (i := i+1) hi
  have hsub : s.level i ⊆ s.level (i+1) := by
    intro k hk
    rw [hmem',show s.levels-(i+1) = s.levels-i-1 by omega]
    rw [hmem,show s.levels-i = s.levels-i-1+1 by omega] at hk
    exact h.nested _ (by omega) hk
  exact List.sublist_of_subperm_of_pairwise (List.subperm_of_subset hsorted.nodup hsub) hsorted hsorted'

theorem Good.reachable (h : Good s G) {a : ℕ} (ha : s.Reachable a) :
    ∃ l x, Obj.node l x ∈ G.objs s.levels ∧ a = G.addr (.node l x) := by
  induction ha with
  | head => exact ⟨s.levels,⊥,⟨le_rfl,h.bot _ le_rfl⟩,h.head⟩
  | follow _ he hb ih =>
    obtain ⟨l,x,hmem,rfl⟩ := ih
    cases (h.entry hmem.1 hmem.2).symm.trans he
    rcases hb with hb | hb | hb | hb
    · simp only [Layout.cell,Layout.upOf,Option.ite_none_right_eq_some,Option.some.injEq] at hb
      exact ⟨l+1,x,hb.1,hb.2.symm⟩
    · simp only [Layout.cell,Layout.downOf,Option.ite_none_left_eq_some,Option.some.injEq] at hb
      exact ⟨l-1,x,h.below hmem hb.1,hb.2.symm⟩
    · simp only [Layout.cell,Layout.leftOf,Option.map_eq_some_iff] at hb
      obtain ⟨p,hp,rfl⟩ := hb
      exact ⟨l,p,⟨hmem.1,prev_mem hp⟩,rfl⟩
    · simp only [Layout.cell,Layout.rightOf,Option.map_eq_some_iff] at hb
      obtain ⟨n,hn,rfl⟩ := hb
      exact ⟨l,n,⟨hmem.1,next_mem hn⟩,rfl⟩

end

/-! ### Runs -/

section
variable {T : Type} [LinearOrder T]

def follow (m : Finset T) : Op T × Bool → Finset T
  | (.insert _ _ key,_) => insert key m
  | (.exist _,_) => m
  | (.remove _ key,_) => m.erase key

def contents (tr : List (Op T × Bool)) : Finset T := tr.foldl follow ∅

def answer (m : Finset T) : Op T → Bool
  | .insert _ _ key => decide (key ∉ m)
  | .exist key => decide (key ∈ m)
  | .remove _ key => decide (key ∈ m)

/-- No insertion into `kMaxLevels` levels above the lowest, and no removal of the only key of the top level. -/
def Admissible (s : Skiplist T) : Op T → Prop
  | .insert _ _ _ => s.levels < kMaxLevels
  | .exist _ => True
  | .remove _ key => s.level 0 ≠ [key]

instance (s : Skiplist T) : (op : Op T) → Decidable (Admissible s op)
  | .insert _ _ _ => inferInstanceAs (Decidable (s.levels < kMaxLevels))
  | .exist _ => inferInstanceAs (Decidable True)
  | .remove _ key => inferInstanceAs (Decidable (s.level 0 ≠ [key]))

variable {s : Skiplist T} {G : Layout T} {m : Finset T}

theorem Good.accompanied (h : Good s G) {key : T} (hkey : Key.of key ∈ G.rows 0) (hother : s.level 0 ≠ [key]) :
    Accompanied G s.levels (Key.of key) := by
  obtain ⟨hsorted,hmem⟩ := h.level (Nat.zero_le s.levels)
  rw [Nat.sub_zero] at hmem
  by_contra hnone
  have hall : ∀ k ∈ s.level 0, k = key := by
    intro k hk
    by_contra hne
    exact hnone ⟨k,(hmem k).mp hk,fun heq => hne (Key.of_inj.mp heq)⟩
  cases hlevel : s.level 0 with
  | nil =>
    -- an empty top level is the only one
    have hzero : s.levels = 0 := by
      by_contra hne
      obtain ⟨k,hk⟩ := h.crowned hne
      exact List.not_mem_nil (hlevel ▸ (hmem k).mpr hk)
    exact List.not_mem_nil (hlevel ▸ (hmem key).mpr (hzero ▸ hkey))
  | cons k rest =>
    rw [hlevel] at hall hsorted hother
    cases rest with
    | nil => exact hother (by rw [hall k (by simp)])
    | cons k' rest =>
      have hlt : k < k' := List.rel_of_pairwise_cons hsorted (by simp)
      exact absurd (hall k (by simp)) ((hall k' (by simp)) ▸ hlt.ne)

/-- The memory is a grid that has the keys of the set in its lowest level. -/
def Refines (s : Skiplist T) (m : Finset T) : Prop := ∃ G, Good s G ∧ ∀ k, k ∈ m ↔ Key.of k ∈ G.rows 0

theorem perform_refines (h : Refines s m) {op : Op T} (hop : Admissible s op) :
    (∃ s', perform s op = .ok (answer m op,s') ∧ Refines s' (follow m (op,answer m op))) ∨
      ∃ core coins key, op = .insert core coins key ∧ perform s op = .error .noMemory := by
  obtain ⟨G,hG,hm⟩ := h
  cases op with
  | insert core coins key =>
    rcases hG.insert hop core coins key with he | ⟨s',G',hok,hG',hrow⟩
    · exact .inr ⟨core,coins,key,rfl,he⟩
    · refine .inl ⟨s',?_,G',hG',fun k => ?_⟩
      · simp only [perform,answer,hm]
        exact hok
      · simp only [follow,Finset.mem_insert,hrow,hm,Key.of_inj]
  | exist key =>
    refine .inl ⟨s,?_,G,hG,hm⟩
    simp only [perform,answer,hm,hG.exist key]
    rfl
  | remove core key =>
    obtain ⟨s',G',hok,hG',hrow⟩ := hG.remove core key fun hkey => hG.accompanied hkey hop
    refine .inl ⟨s',?_,G',hG',fun k => ?_⟩
    · simp only [perform,answer,hm]
      exact hok
    · simp only [follow,Finset.mem_erase,hrow,hm,ne_eq,Key.of_inj]

theorem step_refines {s' : Skiplist T} {op : Op T} {b : Bool} (hop : Admissible s op) (h : Refines s m)
    (hstep : step s op = some (b,s')) : b = answer m op ∧ Refines s' (follow m (op,b)) := by
  rcases perform_refines h hop with ⟨s1,hok,href⟩ | ⟨core,coins,key,rfl,he⟩
  · rw [step,hok] at hstep
    cases hstep
    exact ⟨rfl,href⟩
  · rw [step,he] at hstep
    cases hstep

theorem Refines.sound (h : Refines s m) : (∀ i ≤ s.levels, (s.level i).Pairwise (· < ·)) ∧
    (∀ i < s.levels, (s.level i).Sublist (s.level (i+1))) ∧ (∀ k, k ∈ s.level s.levels ↔ k ∈ m) ∧
    ∀ a, s.Reachable a ∨ a = s.head ∨ a = s.tail → ¬s.Returned a := by
  obtain ⟨G,hG,hm⟩ := h
  refine ⟨fun i hi => (hG.level hi).1,fun i hi => hG.level_sublist hi,fun k => ?_,?_⟩
  · rw [(hG.level le_rfl).2,Nat.sub_self,hm]
  · rintro a ha ⟨core,idx,hfree⟩
    obtain ⟨l,x,hmem,rfl⟩ : ∃ l x, Obj.node l x ∈ G.objs s.levels ∧ a = G.addr (.node l x) := by
      rcases ha with ha | rfl | rfl
      · exact hG.reachable ha
      · exact hG.reachable .head
      · exact ⟨s.levels,⊤,⟨le_rfl,hG.top _ le_rfl⟩,hG.tail⟩
    exact hG.heap.not_freed hmem core idx hfree

theorem Refines.run {itemSize base len core : ℕ} {init : Skiplist T} (hnew : Skiplist.new itemSize base len core = .ok init)
    {tr : List (Op T × Bool)} (htr : Trace step Admissible init tr s) : Refines s (contents tr) := by
  have hinit : Refines init ∅ := by
    obtain ⟨G,hG,hrow⟩ := new_good hnew
    refine ⟨G,hG,fun k => ?_⟩
    rw [hrow]
    simp [(Key.bot_lt_of k).ne',(Key.of_lt_top k).ne]
  exact htr.simulation hinit fun s m op b s' hop hs hstep => (step_refines hop hs hstep).2

/-- In every run in which no insertion finds `kMaxLevels` levels above the lowest and no removal takes the
only key of the top level, the skip list answers as the set does, every level is strictly increasing and a
subsequence of the one below, and nothing reachable has been returned to the slab. Only an insertion can
fail, when the slab is exhausted. -/
theorem refines_finite_set {itemSize base len core : ℕ} {init : Skiplist T}
    (hnew : Skiplist.new itemSize base len core = .ok init) {tr : List (Op T × Bool)} (htr : Trace step Admissible init tr s) :
    (∀ i ≤ s.levels, (s.level i).Pairwise (· < ·)) ∧ (∀ i < s.levels, (s.level i).Sublist (s.level (i+1))) ∧
      (∀ k, k ∈ s.level s.levels ↔ k ∈ contents tr) ∧
      (∀ a, s.Reachable a ∨ a = s.head ∨ a = s.tail → ¬s.Returned a) ∧
      ∀ op, Admissible s op → (∃ s', perform s op = .ok (answer (contents tr) op,s')) ∨
        ∃ core coins key, op = .insert core coins key ∧ perform s op = .error .noMemory := by
  have href := Refines.run hnew htr
  obtain ⟨hsorted,hsub,hmem,hsafe⟩ := href.sound
  refine ⟨hsorted,hsub,hmem,hsafe,fun op hop => ?_⟩
  rcases perform_refines href hop with ⟨s',hok,-⟩ | he
  · exact .inl ⟨s',hok⟩
  · exact .inr he

end

theorem exec_new (itemSize base len core : ℕ) (ok : Skiplist ℕ → Op ℕ → Prop) [∀ s op, Decidable (ok s op)]
    (ops : List (Op ℕ)) {γ : Type} {f : List Bool × Skiplist ℕ → γ} {x : γ}
    (h : ((Skiplist.new itemSize base len core).toOption.bind fun init => (exec step ok init ops).map f) = some x) :
    ∃ init outs s, Skiplist.new itemSize base len core = .ok init ∧ Trace step ok init (ops.zip outs) s ∧ f (outs,s) = x := by
  obtain ⟨init,hnew,hrun⟩ := Option.bind_eq_some_iff.mp h
  obtain ⟨outs,s,htr,hobs⟩ := exec_observe hrun
  refine ⟨init,outs,s,?_,htr,hobs⟩
  cases hok : (Skiplist.new itemSize base len core : Except Fault (Skiplist ℕ)) with
  | error e =>
    rw [hok] at hnew
    cases hnew
  | ok init' =>
    rw [hok] at hnew
    cases hnew
    rfl

theorem refines_finite_set_two_levels : ∃ (init : Skiplist ℕ) (tr : List (Op ℕ × Bool)) (s : Skiplist ℕ),
    Skiplist.new 48 0 1024 0 = .ok init ∧ Trace step Admissible init tr s ∧ s.levels = 1 ∧ s.level 0 = [7] ∧
      (∀ a, s.Reachable a ∨ a = s.head ∨ a = s.tail → ¬s.Returned a) := by
  obtain ⟨init,outs,s,hnew,htr,hobs⟩ := exec_new 48 0 1024 0 Admissible
    [.insert 0 (fun _ => false) 5,.insert 0 (fun level => level == 0) 7,.exist 5,.remove 0 5]
    (f := fun r => (r.2.levels,r.2.level 0)) (x := (1,[7])) (by decide +kernel)
  exact ⟨init,_,s,hnew,htr,(Prod.ext_iff.mp hobs).1,(Prod.ext_iff.mp hobs).2,(refines_finite_set hnew htr).2.2.2.1⟩

/-- The only key is inserted and removed: the boundary entries go back to the slab. -/
theorem remove_returns_head : ∃ (init : Skiplist ℕ) (tr : List (Op ℕ × Bool)) (s : Skiplist ℕ),
    Skiplist.new 48 0 1024 0 = .ok init ∧ Trace step (fun _ _ => True) init tr s ∧ s.Returned s.head ∧ s.Returned s.tail := by
  obtain ⟨init,outs,s,hnew,htr,hobs⟩ := exec_new 48 0 1024 0 (fun _ _ => True)
    [.insert 0 (fun _ => false) 5,.remove 0 5]
    (f := fun r => (r.2.slab.slabs 0 1).contains r.2.head && (r.2.slab.slabs 0 1).contains r.2.tail) (x := true) (by decide +kernel)
  rw [Bool.and_eq_true,List.contains_iff_mem,List.contains_iff_mem] at hobs
  exact ⟨init,_,s,hnew,htr,⟨0,1,hobs.1⟩,⟨0,1,hobs.2⟩⟩

end FarMemory.LocalSkiplist
