import FarMemory.CircularBuffer
import FarMemory.Execution
import FarMemory.Machine

/-!
# The pool of connections

Every core keeps a few items of its own; a core that runs out takes as many from the global
buffer, one that has too many gives them back. An operation runs with preemption disabled on
its core and with the global lock where it touches the global buffer, so it is one step. A
`BUG_ON` that fires has no outcome.
-/
namespace FarMemory
open CircularBuffer Execution Function

def SharedPool.kNumCachedItemsPerCPU : ℕ := 8

structure SharedPool (T : Type*) where
  cache : Fin kNumCPUs → CircularBuffer T
  globalPool : CircularBuffer T

namespace SharedPool
variable {T : Type*}

/-- `rest` is what lies in the arrays at first. -/
def new (rest : T) (capacity : ℕ) : SharedPool T :=
  ⟨fun _ => .new rest kNumCachedItemsPerCPU,.new rest capacity⟩

/-- The migration loop between two buffers. -/
def migrate (moved : T → T) : ℕ → CircularBuffer T → CircularBuffer T → Option (CircularBuffer T × CircularBuffer T)
  | 0,src,dst => some (src,dst)
  | n+1,src,dst =>
    match src.popFront moved with
    | none => none
    | some (migrated,src') =>
      match dst.pushFront migrated with
      | (false,_) => none
      | (true,dst') => migrate moved n src' dst'

def set (p : SharedPool T) (core : Fin kNumCPUs) (cache globalPool : CircularBuffer T) : SharedPool T :=
  ⟨update p.cache core cache,globalPool⟩

def push (moved : T → T) (p : SharedPool T) (core : Fin kNumCPUs) (item : T) : Option (SharedPool T) :=
  let spilled :=
    if (p.cache core).size = kNumCachedItemsPerCPU then
      migrate moved kNumCachedItemsPerCPU (p.cache core) p.globalPool
    else some (p.cache core,p.globalPool)
  match spilled with
  | none => none
  | some (cache,globalPool) =>
    match cache.pushFront item with
    | (false,_) => none
    | (true,cache') => some (p.set core cache' globalPool)

def pop (moved : T → T) (p : SharedPool T) (core : Fin kNumCPUs) : Option (T × SharedPool T) :=
  let refilled :=
    if (p.cache core).size = 0 then migrate moved kNumCachedItemsPerCPU p.globalPool (p.cache core)
    else some (p.globalPool,p.cache core)
  match refilled with
  | none => none
  | some (globalPool,cache) =>
    match cache.popFront moved with
    | none => none
    | some (item,cache') => some (item,p.set core cache' globalPool)

/-- Pushes that fill the pool, each from some core. -/
def fill (moved : T → T) : SharedPool T → List (Fin kNumCPUs × T) → Option (SharedPool T)
  | p,[] => some p
  | p,(core,item)::rest =>
    match p.push moved core item with
    | none => none
    | some p' => fill moved p' rest

/-! ### Holders -/

structure Holders (T : Type*) where
  pool : SharedPool T
  held : List T

inductive Op
  | pop (core : Fin kNumCPUs)
  /-- The `i`-th of the held items is given back. -/
  | push (core : Fin kNumCPUs) (i : ℕ)

def step (moved : T → T) (s : Holders T) : Op → Option (Unit × Holders T)
  | .pop core => (s.pool.pop moved core).map fun r => ((),⟨r.2,r.1::s.held⟩)
  | .push core i =>
    match s.held[i]? with
    | none => none
    | some item => (s.pool.push moved core item).map fun pool => ((),⟨pool,s.held.eraseIdx i⟩)

/-- A pop leaves room for full caches on all cores; a pushed item is one that is held. -/
def Within (capacity : ℕ) (s : Holders T) : Op → Prop
  | .pop _ => s.held.length+kNumCPUs*kNumCachedItemsPerCPU ≤ capacity
  | .push _ i => i < s.held.length

instance (capacity : ℕ) (s : Holders T) : (op : Op) → Decidable (Within capacity s op)
  | .pop _ => inferInstanceAs (Decidable (_ ≤ _))
  | .push _ _ => inferInstanceAs (Decidable (_ < _))

def items (p : SharedPool T) : Multiset T :=
  (∑ core, ((p.cache core).contents : Multiset T))+(p.globalPool.contents : Multiset T)

def Holders.total (s : Holders T) : Multiset T := s.pool.items+s.held

/-! ### The loops -/

section Operations
variable {moved : T → T} {p : SharedPool T} {capacity : ℕ}

theorem migrate_spec (moved : T → T) : ∀ {n : ℕ} {src dst : CircularBuffer T}, n ≤ src.size →
    dst.size+n ≤ dst.capacity → ∃ src' dst', migrate moved n src dst = some (src',dst') ∧
      src'.contents = src.contents.drop n ∧ dst'.contents = (src.contents.take n).reverse++dst.contents ∧
      src'.slots = src.slots ∧ dst'.slots = dst.slots := by
  intro n
  induction n with
  | zero =>
    intro src dst _ _
    exact ⟨src,dst,rfl,rfl,rfl,rfl,rfl⟩
  | succ n ih =>
    intro src dst hsrc hdst
    rcases hpop : src.popFront moved with _ | ⟨x,src1⟩
    · have hnil := popFront_none hpop
      rw [← contents_length,hnil,List.length_nil] at hsrc
      omega
    · obtain ⟨hcons,-,hslots⟩ := popFront_some hpop
      obtain ⟨hok,hcontents⟩ := pushFront_of_lt (show dst.size < dst.capacity by omega) x
      rcases hpush : dst.pushFront x with ⟨ok,dst1⟩
      rw [hpush] at hok hcontents
      dsimp only at hok hcontents
      subst hok
      have hslots1 : dst1.slots = dst.slots := by
        have := pushFront_slots dst x
        rwa [hpush] at this
      have hsize : src1.size+1 = src.size := by
        rw [← contents_length,← contents_length,hcons,List.length_cons]
      have hsize1 : dst1.size = dst.size+1 := by
        rw [← contents_length,hcontents,List.length_cons,contents_length]
      obtain ⟨src',dst',hm,hs,hd,hss,hds⟩ := @ih src1 dst1 (by omega) (by
        unfold capacity at *
        omega)
      refine ⟨src',dst',?_,?_,?_,hss.trans hslots,hds.trans hslots1⟩
      · simp only [migrate,hpop,hpush]
        exact hm
      · rw [hs,hcons,List.drop_succ_cons]
      · rw [hd,hcontents,hcons,List.take_succ_cons,List.reverse_cons,List.append_assoc]
        rfl

structure Sized (capacity : ℕ) (p : SharedPool T) : Prop where
  cache : ∀ core, (p.cache core).capacity = kNumCachedItemsPerCPU
  globalPool : p.globalPool.capacity = capacity

theorem size_le_capacity (c : CircularBuffer T) : c.size ≤ c.capacity := by
  have := c.size_lt
  unfold CircularBuffer.capacity
  omega

theorem capacity_congr {c c' : CircularBuffer T} (h : c'.slots = c.slots) : c'.capacity = c.capacity := by
  rw [CircularBuffer.capacity,h,CircularBuffer.capacity]

theorem Sized.set (h : Sized capacity p) {core : Fin kNumCPUs} {cache globalPool : CircularBuffer T}
    (hc : cache.capacity = kNumCachedItemsPerCPU) (hg : globalPool.capacity = capacity) :
    Sized capacity (p.set core cache globalPool) := by
  refine ⟨fun core' => ?_,hg⟩
  rcases eq_or_ne core' core with rfl | hne
  · simp only [SharedPool.set,update_self]
    exact hc
  · simp only [SharedPool.set,update_of_ne hne]
    exact h.cache core'

def others (p : SharedPool T) (core : Fin kNumCPUs) : Multiset T :=
  ∑ core' ∈ Finset.univ \ {core}, ((p.cache core').contents : Multiset T)

theorem items_set (p : SharedPool T) (core : Fin kNumCPUs) (cache globalPool : CircularBuffer T) :
    (p.set core cache globalPool).items = p.others core+((cache.contents++globalPool.contents : List T) : Multiset T) := by
  have hupdate : (fun core' => ((update p.cache core cache core').contents : Multiset T)) =
      update (fun core' => ((p.cache core').contents : Multiset T)) core cache.contents := by
    funext core'
    exact Function.apply_update (fun _ (c : CircularBuffer T) => (c.contents : Multiset T)) p.cache core cache core'
  simp only [items,SharedPool.set,hupdate]
  rw [Finset.sum_update_of_mem (Finset.mem_univ core),← Multiset.coe_add,← add_assoc,add_comm (cache.contents : Multiset T)]
  rfl

theorem items_eq (p : SharedPool T) (core : Fin kNumCPUs) :
    p.items = p.others core+(((p.cache core).contents++p.globalPool.contents : List T) : Multiset T) := by
  rw [← items_set,SharedPool.set,update_eq_self]

theorem card_others_le (h : Sized capacity p) (core : Fin kNumCPUs) :
    (p.others core).card ≤ 19*kNumCachedItemsPerCPU := by
  have hcard : (Finset.univ \ {core}).card = 19 := by
    rw [Finset.card_sdiff_of_subset (Finset.subset_univ _),Finset.card_univ,Fintype.card_fin,Finset.card_singleton]
    rfl
  rw [others,Multiset.card_sum,← hcard,← smul_eq_mul]
  refine Finset.sum_le_card_nsmul _ _ _ fun core' _ => ?_
  rw [Multiset.coe_card,contents_length,← h.cache core']
  exact size_le_capacity _

theorem card_items (p : SharedPool T) (core : Fin kNumCPUs) :
    p.items.card = (p.others core).card+((p.cache core).size+p.globalPool.size) := by
  rw [items_eq p core,Multiset.card_add,Multiset.coe_card,List.length_append,contents_length,contents_length]

theorem pushFront_spec {c : CircularBuffer T} (h : c.size < c.capacity) (x : T) :
    ∃ c', c.pushFront x = (true,c') ∧ c'.contents = x::c.contents ∧ c'.capacity = c.capacity := by
  obtain ⟨hok,hcontents⟩ := pushFront_of_lt h x
  refine ⟨(c.pushFront x).2,Prod.ext hok rfl,hcontents,capacity_congr (pushFront_slots c x)⟩

theorem spill_spec (moved : T → T) (h : Sized capacity p) (hroom : p.items.card ≤ capacity) (core : Fin kNumCPUs) :
    ∃ cache globalPool, (if (p.cache core).size = kNumCachedItemsPerCPU then
        migrate moved kNumCachedItemsPerCPU (p.cache core) p.globalPool
      else some (p.cache core,p.globalPool)) = some (cache,globalPool) ∧
      cache.size < cache.capacity ∧ cache.capacity = kNumCachedItemsPerCPU ∧ globalPool.capacity = capacity ∧
      (cache.contents++globalPool.contents).Perm ((p.cache core).contents++p.globalPool.contents) := by
  have hcard := p.card_items core
  have hcap := h.cache core
  have hle := size_le_capacity (p.cache core)
  split
  · rename_i hfull
    obtain ⟨cache,globalPool,hm,hc,hg,hcs,hgs⟩ := migrate_spec moved hfull.ge
      (show p.globalPool.size+kNumCachedItemsPerCPU ≤ p.globalPool.capacity by rw [h.globalPool]; omega)
    have hnil : cache.contents = [] := by
      rw [hc]
      exact List.drop_eq_nil_of_le (by rw [contents_length,hfull])
    have hall : (p.cache core).contents.take kNumCachedItemsPerCPU = (p.cache core).contents :=
      List.take_of_length_le (by rw [contents_length,hfull])
    have hsize : cache.size = 0 := by rw [← contents_length,hnil,List.length_nil]
    have hcapacity := (capacity_congr hcs).trans hcap
    refine ⟨cache,globalPool,hm,?_,hcapacity,(capacity_congr hgs).trans h.globalPool,?_⟩
    · rw [hsize,hcapacity]
      decide
    · rw [hnil,hg,hall,List.nil_append]
      exact .append_right _ (List.reverse_perm _)
  · rename_i hne
    exact ⟨_,_,rfl,by omega,hcap,h.globalPool,.refl _⟩

theorem push_spec (moved : T → T) (h : Sized capacity p) (hroom : p.items.card ≤ capacity) (core : Fin kNumCPUs)
    (item : T) : ∃ p', p.push moved core item = some p' ∧ Sized capacity p' ∧ p'.items = item ::ₘ p.items := by
  obtain ⟨cache,globalPool,hspill,hlt,hc,hg,hperm⟩ := spill_spec moved h hroom core
  obtain ⟨cache',hpush,hcontents,hc'⟩ := pushFront_spec hlt item
  refine ⟨p.set core cache' globalPool,?_,h.set (hc'.trans hc) hg,?_⟩
  · simp only [push,hspill,hpush]
  · rw [items_set,hcontents,List.cons_append,← Multiset.cons_coe,Multiset.add_cons,items_eq p core,
      Multiset.coe_eq_coe.mpr hperm]

theorem refill_spec (moved : T → T) (h : Sized capacity p)
    (hroom : kNumCPUs*kNumCachedItemsPerCPU ≤ p.items.card) (core : Fin kNumCPUs) :
    ∃ globalPool cache, (if (p.cache core).size = 0 then
        migrate moved kNumCachedItemsPerCPU p.globalPool (p.cache core)
      else some (p.globalPool,p.cache core)) = some (globalPool,cache) ∧
      cache.contents ≠ [] ∧ cache.capacity = kNumCachedItemsPerCPU ∧ globalPool.capacity = capacity ∧
      (cache.contents++globalPool.contents).Perm ((p.cache core).contents++p.globalPool.contents) := by
  have hcard := p.card_items core
  have hcap := h.cache core
  have hothers := card_others_le h core
  split
  · rename_i hempty
    have hglobal : kNumCachedItemsPerCPU ≤ p.globalPool.size := by
      unfold kNumCPUs kNumCachedItemsPerCPU at hroom
      unfold kNumCachedItemsPerCPU at hothers ⊢
      omega
    obtain ⟨globalPool,cache,hm,hg,hc,hgs,hcs⟩ := migrate_spec moved hglobal
      (show (p.cache core).size+kNumCachedItemsPerCPU ≤ (p.cache core).capacity by omega)
    have hnil : (p.cache core).contents = [] := List.eq_nil_of_length_eq_zero (by rw [contents_length,hempty])
    refine ⟨globalPool,cache,hm,?_,(capacity_congr hcs).trans hcap,(capacity_congr hgs).trans h.globalPool,?_⟩
    · intro hfalse
      have hlen := congrArg List.length hc
      rw [hfalse,List.length_append,List.length_reverse,List.length_take,contents_length,
        Nat.min_eq_left hglobal,List.length_nil] at hlen
      unfold kNumCachedItemsPerCPU at hlen
      omega
    · rw [hc,hg,hnil,List.append_nil,List.nil_append]
      exact (List.Perm.append_right _ (List.reverse_perm _)).trans (.of_eq (List.take_append_drop _ _))
  · rename_i hne
    refine ⟨_,_,rfl,?_,hcap,h.globalPool,.refl _⟩
    intro hnil
    exact hne (by rw [← contents_length,hnil,List.length_nil])

theorem pop_spec (moved : T → T) (h : Sized capacity p) (hroom : kNumCPUs*kNumCachedItemsPerCPU ≤ p.items.card)
    (core : Fin kNumCPUs) :
    ∃ item p', p.pop moved core = some (item,p') ∧ Sized capacity p' ∧ p.items = item ::ₘ p'.items := by
  obtain ⟨globalPool,cache,hrefill,hne,hc,hg,hperm⟩ := refill_spec moved h hroom core
  rcases hpop : cache.popFront moved with _ | ⟨item,cache'⟩
  · exact absurd (popFront_none hpop) hne
  · obtain ⟨hcons,-,hslots⟩ := popFront_some hpop
    refine ⟨item,p.set core cache' globalPool,?_,h.set ((capacity_congr hslots).trans hc) hg,?_⟩
    · simp only [pop,hrefill,hpop]
    · rw [items_set,items_eq p core,← Multiset.coe_eq_coe.mpr hperm,hcons,List.cons_append,
        ← Multiset.cons_coe,Multiset.add_cons]

theorem new_sized (rest : T) (capacity : ℕ) : Sized capacity (new rest capacity) ∧ (new rest capacity).items = 0 := by
  refine ⟨⟨fun _ => rfl,rfl⟩,?_⟩
  simp [items,new,new_contents]

theorem fill_spec (moved : T → T) : ∀ (start : List (Fin kNumCPUs × T)) {p : SharedPool T}, Sized capacity p →
    p.items.card+start.length ≤ capacity → ∃ p', p.fill moved start = some p' ∧ Sized capacity p' ∧
      p'.items = ↑(start.map Prod.snd)+p.items := by
  intro start
  induction start with
  | nil =>
    intro p h _
    exact ⟨p,rfl,h,by simp⟩
  | cons x start ih =>
    intro p h hroom
    obtain ⟨core,item⟩ := x
    rw [List.length_cons] at hroom
    obtain ⟨p1,hpush,h₁,hitems⟩ := push_spec moved h (by omega) core item
    obtain ⟨p',hfill,h',hitems'⟩ := ih h₁ (by rw [hitems,Multiset.card_cons]; omega)
    refine ⟨p',?_,h',?_⟩
    · simp only [fill,hpush]
      exact hfill
    · rw [hitems',hitems,Multiset.add_cons,List.map_cons,← Multiset.cons_coe,Multiset.cons_add]

end Operations

/-! ### Every run -/

/-- The pool and the holders together have the items of the beginning. -/
structure Inv (capacity : ℕ) (all : Multiset T) (s : Holders T) : Prop where
  sized : Sized capacity s.pool
  total : s.total = all
  full : all.card = capacity

section Runs
variable {capacity : ℕ} {all : Multiset T} {s s' : Holders T}

theorem Inv.card (h : Inv capacity all s) : s.pool.items.card+s.held.length = capacity := by
  rw [← h.full,← h.total,Holders.total,Multiset.card_add,Multiset.coe_card]

/-- A step within the budget has an outcome, and keeps everything together. -/
theorem Inv.step (moved : T → T) (h : Inv capacity all s) {op : Op} (hop : Within capacity s op) :
    ∃ s', step moved s op = some ((),s') ∧ Inv capacity all s' := by
  have hcard := h.card
  cases op with
  | pop core =>
    have hroom : s.held.length+kNumCPUs*kNumCachedItemsPerCPU ≤ capacity := hop
    obtain ⟨item,p',hpop,hsized,hitems⟩ := pop_spec moved h.sized (by omega) core
    refine ⟨⟨p',item::s.held⟩,by simp only [SharedPool.step,hpop,Option.map_some],hsized,?_,h.full⟩
    rw [← h.total,Holders.total,Holders.total,hitems,← Multiset.cons_coe,Multiset.add_cons,Multiset.cons_add]
  | push core i =>
    have hi : i < s.held.length := hop
    have hget : s.held[i]? = some s.held[i] := List.getElem?_eq_getElem hi
    obtain ⟨p',hpush,hsized,hitems⟩ := push_spec moved h.sized (by omega) core s.held[i]
    refine ⟨⟨p',s.held.eraseIdx i⟩,by simp only [SharedPool.step,hget,hpush,Option.map_some],hsized,?_,h.full⟩
    have hheld : (s.held : Multiset T) = s.held[i] ::ₘ (s.held.eraseIdx i : Multiset T) := by
      rw [Multiset.cons_coe]
      exact Multiset.coe_eq_coe.mpr (List.getElem_cons_eraseIdx_perm hi).symm
    rw [← h.total,Holders.total,Holders.total,hitems,hheld,Multiset.add_cons,Multiset.cons_add]

/-- A pool of fewer than `2^31` items that was filled from any cores. In every run within the budget
no `BUG_ON` is reached, the caches, the global buffer and the holders have exactly the items of the
beginning, and different items have different holders. No buffer has more than `2^31` slots, so that
the 32-bit positions of the code are those of the model. -/
theorem pool_exact (moved : T → T) (rest : T) (start : List (Fin kNumCPUs × T)) (hcap : start.length < 2^31) :
    ∃ pool, (new rest start.length).fill moved start = some pool ∧
      ∀ tr s, Trace (SharedPool.step moved) (Within start.length) ⟨pool,[]⟩ tr s →
        (s.total = ↑(start.map Prod.snd) ∧
          ((start.map Prod.snd).Nodup → s.held.Nodup ∧ ∀ item ∈ s.held, item ∉ s.pool.items)) ∧
        (s.pool.globalPool.slots ≤ 2^31 ∧ ∀ core, (s.pool.cache core).slots ≤ 2^31) ∧
        ∀ op, Within start.length s op → ∃ s', SharedPool.step moved s op = some ((),s') := by
  obtain ⟨hsized,hzero⟩ := new_sized rest start.length
  obtain ⟨pool,hfill,hsized',hitems⟩ := fill_spec moved start hsized (by rw [hzero,Multiset.card_zero,Nat.zero_add])
  rw [hzero,add_zero] at hitems
  refine ⟨pool,hfill,fun tr s ht => ?_⟩
  have h₀ : Inv start.length (↑(start.map Prod.snd)) (⟨pool,[]⟩ : Holders T) := by
    refine ⟨hsized',?_,by rw [Multiset.coe_card,List.length_map]⟩
    rw [Holders.total,hitems]
    exact add_zero _
  have h : Inv start.length (↑(start.map Prod.snd)) s := by
    refine ht.invariant h₀ fun s op out s' hop h hs => ?_
    obtain ⟨s₁,hs₁,h₁⟩ := h.step moved hop
    cases hs.symm.trans hs₁
    exact h₁
  refine ⟨⟨h.total,fun hnodup => ?_⟩,?_,fun op hop => ?_⟩
  · have htotal : s.total.Nodup := by
      rw [h.total]
      exact Multiset.coe_nodup.mpr hnodup
    rw [Holders.total,Multiset.nodup_add] at htotal
    refine ⟨Multiset.coe_nodup.mp htotal.2.1,fun item hheld hpool => ?_⟩
    exact Multiset.disjoint_left.mp htotal.2.2 hpool (Multiset.mem_coe.mpr hheld)
  · have hglobal := h.sized.globalPool
    have hcache := h.sized.cache
    simp only [CircularBuffer.capacity,kNumCachedItemsPerCPU] at hglobal hcache
    exact ⟨by omega,fun core => by have := hcache core; omega⟩
  · obtain ⟨s',hs',-⟩ := h.step moved hop
    exact ⟨s',hs'⟩

/-- A pool of 168 connections, all dialled from core 3, gives one to core 5 and takes it back on
core 7. -/
theorem pool_exact_borrowed : ∃ (pool : SharedPool ℕ) (s s' : Holders ℕ),
    (new 0 168).fill id ((List.range 168).map fun i => (3,i)) = some pool ∧
    SharedPool.step id ⟨pool,[]⟩ (.pop 5) = some ((),s) ∧ SharedPool.step id s (.push 7 0) = some ((),s') ∧
    s.held.length = 1 ∧ s'.total = ↑(List.range 168) := by
  obtain ⟨pool,hfill,hruns⟩ := pool_exact id 0 ((List.range 168).map fun i => ((3 : Fin kNumCPUs),i)) (by simp)
  have hlen : ((List.range 168).map fun i => ((3 : Fin kNumCPUs),i)).length = 168 := by simp
  have hall : ((List.range 168).map fun i => ((3 : Fin kNumCPUs),i)).map Prod.snd = List.range 168 := by
    rw [List.map_map]
    exact List.map_id _
  rw [hlen] at hfill hruns
  rw [hall] at hruns
  have hpop : Within 168 (⟨pool,[]⟩ : Holders ℕ) (.pop 5) := show 0+20*8 ≤ 168 by decide
  obtain ⟨s,hs⟩ := (hruns [] _ .nil).2.2 (.pop 5) hpop
  have hheld : s.held.length = 1 := by
    obtain ⟨r,-,⟨⟩⟩ := Option.map_eq_some_iff.mp hs
    rfl
  have hpush : Within 168 s (.push 7 0) := show 0 < s.held.length by omega
  have ht := Trace.snoc (.nil : Trace (SharedPool.step id) (Within 168) ⟨pool,[]⟩ _ _) hpop hs
  obtain ⟨s',hs'⟩ := (hruns _ s ht).2.2 (.push 7 0) hpush
  exact ⟨pool,s,s',hfill,hs,hs',hheld,(hruns _ s' (ht.snoc hpush hs')).1.1⟩

end Runs

end SharedPool
end FarMemory
