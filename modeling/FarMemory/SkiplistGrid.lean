import FarMemory.LocalSkiplist
import FarMemory.Adjacency

/-!
# The grid of a skip list

The blocks of a skip list are its entries, one for each level and key of the level,
and the copies of the keys. A `Heap` says where each of them is and what it holds;
the functions of the source act on it block by block. In a `Grid` the entries hold
the pointers to the neighbours in their level and to the entries above and below.
-/
namespace FarMemory.LocalSkiplist
open SlabAllocator Neighbours Function

/-- The keys with the sentinels. -/
abbrev Key (T : Type) := WithBot (WithTop T)

inductive Obj (T : Type)
  | node (l : ℕ) (x : Key T)
  | key (x : Key T)
  deriving DecidableEq

def Obj.size {T : Type} (itemSize : ℕ) : Obj T → ℕ
  | .node _ _ => entrySize
  | .key _ => itemSize

def block {T : Type} (itemSize : ℕ) (addr : Obj T → ℕ) (o : Obj T) : ℕ × ℕ :=
  (addr o,getSlabSize ((getSlabIdx (o.size itemSize)).getD 0))

/-- The objects `objs` have blocks of their own, at `addr`, with these contents. -/
structure Heap {T : Type} (s : Skiplist T) (objs : Set (Obj T)) (addr : Obj T → ℕ) (content : Obj T → Option (Cell T)) :
    Prop where
  inj : Set.InjOn addr objs
  holds : ∀ o ∈ objs, ∀ c ∈ content o, s.mem (addr o) = c
  slab : ∃ blocks, s.slab.Inv blocks (Set.image (block s.itemSize addr) objs)
  classed : ∃ idx, getSlabIdx s.itemSize = some idx

theorem bind_ok {α β : Type} (a : α) (f : α → Except Fault β) : (Except.ok a >>= f) = f a := rfl

theorem bind_error {α β : Type} (e : Fault) (f : α → Except Fault β) : (Except.error e >>= f) = .error e := rfl

namespace Heap
variable {T : Type} {s : Skiplist T} {objs : Set (Obj T)} {addr : Obj T → ℕ} {content : Obj T → Option (Cell T)}
  {o o' : Obj T} {e : Entry} {core a : ℕ}

theorem size_classed (h : Heap s objs addr content) (o : Obj T) : ∃ idx, getSlabIdx (o.size s.itemSize) = some idx := by
  cases o with
  | node l x => exact ⟨1,(by decide +kernel : getSlabIdx entrySize = some 1)⟩
  | key x => exact h.classed

theorem entry (h : Heap s objs addr content) (ho : o ∈ objs) (hc : content o = some (.entry e)) :
    s.entry (addr o) = .ok e := by
  rw [Skiplist.entry,h.holds o ho _ hc]

theorem fields (h : Heap s objs addr content) (head tail levels : ℕ) :
    Heap {s with head := head, tail := tail, levels := levels} objs addr content :=
  ⟨h.inj,h.holds,h.slab,h.classed⟩

variable [DecidableEq T]

theorem write (h : Heap s objs addr content) (ho : o ∈ objs) (c : Cell T) :
    Heap (s.write (addr o) c) objs addr (update content o (some c)) := by
  refine ⟨h.inj,fun o' ho' c' hc' => ?_,h.slab,h.classed⟩
  change update s.mem (addr o) c (addr o') = c'
  by_cases heq : o' = o
  · subst heq
    rw [update_self] at hc' ⊢
    exact Option.some.inj hc'
  · rw [update_of_ne heq] at hc'
    rw [update_of_ne fun ha => heq (h.inj ho' ho ha)]
    exact h.holds o' ho' c' hc'

omit [DecidableEq T] in
theorem modify (h : Heap s objs addr content) (ho : o ∈ objs) (hc : content o = some (.entry e)) (f : Entry → Entry) :
    s.modify (addr o) f = .ok (s.write (addr o) (.entry (f e))) := by
  rw [Skiplist.modify,h.entry ho hc]
  rfl

omit [DecidableEq T] in
theorem congr (h : Heap s objs addr content) {objs' : Set (Obj T)} {addr' : Obj T → ℕ}
    {content' : Obj T → Option (Cell T)} (hobjs : objs' = objs) (haddr : ∀ o ∈ objs, addr' o = addr o)
    (hcontent : ∀ o ∈ objs, ∀ c ∈ content' o, content o = some c) : Heap s objs' addr' content' := by
  subst hobjs
  obtain ⟨blocks,hinv⟩ := h.slab
  refine ⟨fun x hx y hy hxy => ?_,fun o ho c hc => ?_,⟨blocks,?_⟩,h.classed⟩
  · rw [haddr x hx,haddr y hy] at hxy
    exact h.inj hx hy hxy
  · rw [haddr o ho]
    exact h.holds o ho c (hcontent o ho c hc)
  · rwa [Set.image_congr fun o ho => show block s.itemSize addr' o = block s.itemSize addr o by
      rw [block,block,haddr o ho]]

theorem allocate {s' : Skiplist T} (h : Heap s objs addr content) (ho : o ∉ objs)
    (ha : s.allocate core (o.size s.itemSize) = .ok (a,s')) :
    Heap s' (insert o objs) (update addr o a) (update content o none) ∧
      (∃ slab, s' = {s with slab := slab}) := by
  obtain ⟨idx,hidx⟩ := h.size_classed o
  obtain ⟨blocks,hinv⟩ := h.slab
  unfold Skiplist.allocate at ha
  split at ha
  · cases ha
  · cases ha
  rename_i a' slab hslab
  cases ha
  obtain ⟨blocks',idx',hidx',hnew,hinv'⟩ := hinv.allocate hslab
  cases hidx.symm.trans hidx'
  have hblock : block s.itemSize (update addr o a) o = (a,getSlabSize idx) := by
    rw [block,update_self,hidx]
    rfl
  have hsame : ∀ o' ∈ objs, update addr o a o' = addr o' := fun o' ho' =>
    update_of_ne (fun heq : o' = o => ho (heq ▸ ho')) _ _
  have himage : Set.image (block s.itemSize (update addr o a)) (insert o objs) =
      insert (a,getSlabSize idx) (Set.image (block s.itemSize addr) objs) := by
    rw [Set.image_insert_eq,hblock]
    congr 1
    exact Set.image_congr fun o' ho' => by rw [block,block,hsame o' ho']
  have hfresh : ∀ o' ∈ objs, addr o' ≠ a := by
    intro o' ho' heq
    have hlive : block s.itemSize addr o' ∈ insert (a,getSlabSize idx) (Set.image (block s.itemSize addr) objs) :=
      .inr ⟨o',ho',rfl⟩
    have hne : block s.itemSize addr o' ≠ (a,getSlabSize idx) := fun hb => hnew (hb ▸ ⟨o',ho',rfl⟩)
    have hpos := getSlabSize_pos idx
    have hpos' := getSlabSize_pos ((getSlabIdx (o'.size s.itemSize)).getD 0)
    have hdisj := hinv'.disjoint hlive (.inl rfl) hne
    simp only [block] at hdisj
    omega
  refine ⟨⟨?_,fun o' ho' c hc => ?_,⟨blocks',himage ▸ hinv'⟩,h.classed⟩,slab,rfl⟩
  · rintro x (rfl | hx) y (rfl | hy) hxy
    · rfl
    · rw [update_self,hsame y hy] at hxy
      exact absurd hxy.symm (hfresh y hy)
    · rw [update_self,hsame x hx] at hxy
      exact absurd hxy (hfresh x hx)
    · rw [hsame x hx,hsame y hy] at hxy
      exact h.inj hx hy hxy
  · rcases ho' with rfl | ho'
    · rw [update_self] at hc
      cases hc
    · rw [update_of_ne fun heq : o' = o => ho (heq ▸ ho')] at hc
      rw [hsame o' ho']
      exact h.holds o' ho' c hc

omit [DecidableEq T] in
theorem allocate_total (h : Heap s objs addr content) (core : ℕ) (o : Obj T) :
    s.allocate core (o.size s.itemSize) = .error .noMemory ∨ ∃ r, s.allocate core (o.size s.itemSize) = .ok r := by
  obtain ⟨idx,hidx⟩ := h.size_classed o
  unfold Skiplist.allocate
  split
  · rename_i hnone
    simp only [Slab.allocate,hidx] at hnone
    split at hnone <;> cases hnone
  · exact .inl rfl
  · exact .inr ⟨_,rfl⟩

omit [DecidableEq T] in
theorem free (h : Heap s objs addr content) (ho : o ∈ objs) (core : ℕ) :
    ∃ slab, s.free core (addr o) (o.size s.itemSize) = .ok {s with slab := slab} ∧
      Heap {s with slab := slab} (objs \ {o}) addr content ∧ slab.len = s.slab.len := by
  obtain ⟨idx,hidx⟩ := h.size_classed o
  obtain ⟨blocks,hinv⟩ := h.slab
  have hblock : block s.itemSize addr o = (addr o,getSlabSize idx) := by
    rw [block,hidx]
    rfl
  have hfree : s.slab.free core (addr o) (o.size s.itemSize) =
      some (s.slab.setList core idx (addr o::s.slab.slabs core idx)) := by
    simp only [Slab.free,hidx]
  have himage : Set.image (block s.itemSize addr) (objs \ {o}) =
      Set.image (block s.itemSize addr) objs \ {(addr o,getSlabSize idx)} := by
    have hinj : Set.InjOn (block s.itemSize addr) objs := fun x hx y hy hxy => h.inj hx hy (Prod.ext_iff.mp hxy).1
    rw [hinj.image_sdiff_subset (Set.singleton_subset_iff.mpr ho),Set.image_singleton,hblock]
  refine ⟨s.slab.setList core idx (addr o::s.slab.slabs core idx),by simp only [Skiplist.free,hfree],⟨h.inj.mono Set.sdiff_subset,fun o' ho' => h.holds o' ho'.1,⟨blocks,?_⟩,h.classed⟩,rfl⟩
  rw [himage]
  exact hinv.release hidx (hblock ▸ ⟨o,ho,rfl⟩) hfree

omit [DecidableEq T] in
theorem not_freed (h : Heap s objs addr content) (ho : o ∈ objs) (core idx : ℕ) : addr o ∉ s.slab.slabs core idx := by
  intro hfree
  obtain ⟨blocks,hinv⟩ := h.slab
  obtain ⟨hmem,hdead⟩ := hinv.free core idx _ hfree
  have hlive : block s.itemSize addr o ∈ Set.image (block s.itemSize addr) objs := ⟨o,ho,rfl⟩
  have hne : (addr o,getSlabSize idx) ≠ block s.itemSize addr o := fun heq => hdead (heq ▸ hlive)
  have hdisj := hinv.tiles.disjoint hmem (hinv.live _ hlive) hne
  have hpos := getSlabSize_pos idx
  have hpos' := getSlabSize_pos ((getSlabIdx (o.size s.itemSize)).getD 0)
  simp only [block] at hdisj
  omega

omit [DecidableEq T] in
theorem card_le (h : Heap s objs addr content) {F : Finset (Obj T)} (hF : ∀ o ∈ F, o ∈ objs) :
    F.card ≤ s.slab.len := by
  obtain ⟨blocks,hinv⟩ := h.slab
  have hmaps : ∀ o ∈ F, addr o ∈ Finset.Ico s.slab.base (s.slab.base+s.slab.len) := by
    intro o ho
    have hlive : block s.itemSize addr o ∈ blocks := hinv.live _ ⟨o,hF o ho,rfl⟩
    have hbounds := hinv.tiles.bounds hlive
    have hpos := hinv.tiles.pos hlive
    have hinside := hinv.inside
    simp only [block] at hbounds hpos
    rw [Finset.mem_Ico]
    omega
  have hcard := Finset.card_le_card_of_injOn addr hmaps fun x hx y hy hxy => h.inj (hF x hx) (hF y hy) hxy
  rwa [Nat.card_Ico,Nat.add_sub_cancel_left] at hcard

end Heap

/-! ### Symbolic execution of the link functions -/

namespace Heap
variable {T : Type} [DecidableEq T] {s : Skiplist T} {objs : Set (Obj T)} {addr : Obj T → ℕ}
  {content : Obj T → Option (Cell T)} {o p n : Obj T} {e ep en : Entry}

theorem linkAfter (h : Heap s objs addr content) (hp : p ∈ objs) (hn : n ∈ objs) (ho : o ∈ objs)
    (hcp : content p = some (.entry ep)) (hcn : content n = some (.entry en)) (hco : content o = some (.entry e))
    (hright : ep.right = some (addr n)) (hpn : p ≠ n) (hpo : p ≠ o) (hno : n ≠ o) :
    ∃ mem, s.linkAfter (addr p) (addr o) = .ok {s with mem := mem} ∧
      Heap {s with mem := mem} objs addr (update (update (update content
        n (some (.entry {en with left := some (addr o)}))) p (some (.entry {ep with right := some (addr o)})))
        o (some (.entry {e with left := some (addr p), right := some (addr n)}))) := by
  have h₁ := h.write hn (.entry {en with left := some (addr o)})
  have hco1 : update content n (some (.entry {en with left := some (addr o)})) o = some (.entry e) := by
    rw [update_of_ne hno.symm,hco]
  have h₂ := h₁.write ho (.entry {e with right := ep.right})
  have hcp2 : update (update content n (some (.entry {en with left := some (addr o)})))
      o (some (.entry {e with right := ep.right})) p = some (.entry ep) := by
    rw [update_of_ne hpo,update_of_ne hpn,hcp]
  have h3 := h₂.write hp (.entry {ep with right := some (addr o)})
  have hco3 : update (update (update content n (some (.entry {en with left := some (addr o)})))
      o (some (.entry {e with right := ep.right}))) p (some (.entry {ep with right := some (addr o)})) o =
      some (.entry {e with right := ep.right}) := by
    rw [update_of_ne hpo.symm,update_self]
  have h4 := h3.write ho (.entry {e with right := ep.right, left := some (addr p)})
  refine ⟨_,?_,h4.congr rfl (fun _ _ => rfl) fun o' _ c hc => ?_⟩
  · simp only [Skiplist.linkAfter,h.entry hp hcp,hright,Skiplist.nonNull,bind_ok,h.modify hn hcn]
    rw [hright] at h₂ h3 hcp2 hco3
    simp only [h₁.modify ho hco1,bind_ok,h₂.modify hp hcp2,h3.modify ho hco3]
    rfl
  · by_cases h1 : o' = o
    · subst h1
      rw [update_self] at hc ⊢
      rw [hright]
      exact hc
    rw [update_of_ne h1] at hc ⊢
    by_cases h2 : o' = p
    · subst h2
      rw [update_self] at hc ⊢
      exact hc
    rw [update_of_ne h2] at hc ⊢
    rw [update_of_ne h1]
    exact hc

end Heap

/-! ### Layouts -/

def Key.of {T : Type} (t : T) : Key T := ((t : WithTop T) : WithBot (WithTop T))

theorem Key.cases {T : Type} (y : Key T) : y = ⊥ ∨ y = ⊤ ∨ ∃ k, y = Key.of k := by
  rcases y with _ | _ | k
  · exact .inl rfl
  · exact .inr (.inl rfl)
  · exact .inr (.inr ⟨k,rfl⟩)

theorem Key.bot_lt_of {T : Type} [LinearOrder T] (t : T) : ⊥ < Key.of t := WithBot.bot_lt_coe _

theorem Key.of_lt_top {T : Type} [LinearOrder T] (t : T) : Key.of t < ⊤ := WithBot.coe_lt_coe.mpr (WithTop.coe_lt_top t)

def unkey {T : Type} (x : Key T) : Option T := (show Option (Option T) from x).join

/-- The keys of each level, those whose copy is there, and where the blocks are. -/
structure Layout (T : Type) where
  rows : ℕ → Finset (Key T)
  keys : Finset (Key T)
  addr : Obj T → ℕ

namespace Layout
variable {T : Type} [LinearOrder T]

def Has (G : Layout T) (levels : ℕ) : Obj T → Prop
  | .node l x => l ≤ levels ∧ x ∈ G.rows l
  | .key x => x ∈ G.keys

def objs (G : Layout T) (levels : ℕ) : Set (Obj T) := {o | G.Has levels o}

def upOf (G : Layout T) (levels l : ℕ) (x : Key T) : Option ℕ :=
  if l < levels ∧ x ∈ G.rows (l+1) then some (G.addr (.node (l+1) x)) else none

def downOf (G : Layout T) (l : ℕ) (x : Key T) : Option ℕ := if l = 0 then none else some (G.addr (.node (l-1) x))

def leftOf (G : Layout T) (l : ℕ) (x : Key T) : Option ℕ := (prev (G.rows l) x).map fun y => G.addr (.node l y)

def rightOf (G : Layout T) (l : ℕ) (x : Key T) : Option ℕ := (next (G.rows l) x).map fun y => G.addr (.node l y)

def cell (G : Layout T) (levels l : ℕ) (x : Key T) : Entry :=
  ⟨G.upOf levels l x,G.downOf l x,G.leftOf l x,G.rightOf l x,G.addr (.key x)⟩

/-- The block of a sentinel key is never read. -/
def content (G : Layout T) (levels : ℕ) : Obj T → Option (Cell T)
  | .node l x => some (.entry (G.cell levels l x))
  | .key x => (unkey x).map Cell.item

end Layout

/-- The memory of a skip list with this layout. -/
structure Grid {T : Type} [LinearOrder T] (s : Skiplist T) (G : Layout T) : Prop where
  heap : Heap s (G.objs s.levels) G.addr (G.content s.levels)
  bot : ∀ l ≤ s.levels, ⊥ ∈ G.rows l
  top : ∀ l ≤ s.levels, ⊤ ∈ G.rows l
  bot_key : ⊥ ∈ G.keys
  top_key : ⊤ ∈ G.keys
  head : s.head = G.addr (.node s.levels ⊥)
  tail : s.tail = G.addr (.node s.levels ⊤)
  negInf : s.negativeInfinite = G.addr (.key ⊥)
  posInf : s.positiveInfinite = G.addr (.key ⊤)

/-- Every level has keys of the level below only, the keys of the lowest level have their copies, and a level
on top of others is not empty. -/
structure Good {T : Type} [LinearOrder T] (s : Skiplist T) (G : Layout T) : Prop extends Grid s G where
  nested : ∀ l < s.levels, G.rows (l+1) ⊆ G.rows l
  keys_eq : G.keys = G.rows 0
  crowned : s.levels ≠ 0 → ∃ k, Key.of k ∈ G.rows s.levels

section
variable {T : Type} [LinearOrder T] {s : Skiplist T} {G : Layout T} {l : ℕ} {x : Key T}

theorem Grid.entry (h : Grid s G) (hl : l ≤ s.levels) (hx : x ∈ G.rows l) :
    s.entry (G.addr (.node l x)) = .ok (G.cell s.levels l x) := h.heap.entry (o := .node l x) ⟨hl,hx⟩ rfl

theorem Grid.next_of_lt (h : Grid s G) (hl : l ≤ s.levels) (hx : x < ⊤) : ∃ n, next (G.rows l) x = some n := by
  cases hnone : next (G.rows l) x with
  | none => exact absurd (next_eq_none.mp hnone ⊤ (h.top l hl)) (not_le.mpr hx)
  | some n => exact ⟨n,rfl⟩

theorem Grid.prev_of_lt (h : Grid s G) (hl : l ≤ s.levels) (hx : ⊥ < x) : ∃ p, prev (G.rows l) x = some p := by
  cases hnone : prev (G.rows l) x with
  | none => exact absurd (prev_eq_none.mp hnone ⊥ (h.bot l hl)) (not_le.mpr hx)
  | some p => exact ⟨p,rfl⟩

theorem Good.rows_subset (h : Good s G) (hl : l ≤ s.levels) : G.rows l ⊆ G.rows 0 := by
  induction l with
  | zero => exact subset_rfl
  | succ l ih => exact (h.nested l hl).trans (ih (by omega))

theorem Good.mem_keys (h : Good s G) (hl : l ≤ s.levels) (hx : x ∈ G.rows l) : x ∈ G.keys := by
  rw [h.keys_eq]
  exact h.rows_subset hl hx

end

end FarMemory.LocalSkiplist
