import FarMemory.Execution
import FarMemory.SlabAllocator

/-!
# Blocks in use along a run of the slab allocator

Any core allocates and frees; a block is freed on whatever core has it last, with a size
of the class it was allocated for. An operation runs with preemption disabled on a list of its own
core, and cuts new blocks off under the lock, so calls of different cores are a sequence.
-/
namespace FarMemory.SlabRuns
open Execution SlabAllocator

/-- A block in use and the size it was asked for. -/
structure Grant where
  addr : ℕ
  size : ℕ
deriving DecidableEq

def Grant.len (g : Grant) : ℕ := ((getSlabIdx g.size).map getSlabSize).getD 0

def Grant.block (g : Grant) : ℕ × ℕ := (g.addr,g.len)

structure Heap where
  slab : Slab
  live : List Grant

inductive Call where
  | allocate (core size : ℕ)
  | free (core ptr size : ℕ)

def step (s : Heap) : Call → Option (Option ℕ × Heap)
  | .allocate core size =>
    match s.slab.allocate core size with
    | none => none
    | some (none,slab) => some (none,{s with slab := slab})
    | some (some a,slab) => some (some a,⟨slab,⟨a,size⟩::s.live⟩)
  | .free core ptr size =>
    match s.slab.free core ptr size with
    | none => none
    | some slab => some (none,⟨slab,s.live.eraseP (·.addr = ptr)⟩)

def ValidSize (size : ℕ) : Prop := 1 ≤ size ∧ size ≤ kMaxSlabClassSize

/-- A block is freed once, with a size of the class it was allocated for. -/
def Allowed (s : Heap) : Call → Prop
  | .allocate _ size => ValidSize size
  | .free _ ptr size => ValidSize size ∧ ∃ g ∈ s.live, g.addr = ptr ∧ getSlabIdx g.size = getSlabIdx size

instance (s : Heap) : DecidablePred (Allowed s)
  | .allocate _ size => inferInstanceAs (Decidable (1 ≤ size ∧ size ≤ kMaxSlabClassSize))
  | .free _ ptr size => inferInstanceAs (Decidable ((1 ≤ size ∧ size ≤ kMaxSlabClassSize) ∧
      ∃ g ∈ s.live, g.addr = ptr ∧ getSlabIdx g.size = getSlabIdx size))

/-! ### Refilling a list -/

section Refill
variable {s s' : Slab} {core idx size n : ℕ}

/-- Every size up to the greatest class has a class. -/
theorem getSlabIdx_total (h : ValidSize size) : ∃ idx, getSlabIdx size = some idx := by
  obtain ⟨hpos,hmax⟩ := h
  have hmax : size ≤ 2^11 := hmax
  have hround : roundUpPowerOfTwo size ≤ 2^11 := by
    rw [roundUpPowerOfTwo]
    split
    · norm_num
    · rw [Nat.one_shiftLeft]
      exact Nat.pow_le_pow_right (by norm_num) ((Nat.log2_lt (by omega)).mpr (by omega))
  exact ⟨_,if_neg (not_lt.mpr hround)⟩

theorem replenishLoop_area : (s.replenishLoop core idx n).base = s.base ∧ (s.replenishLoop core idx n).len = s.len := by
  induction n generalizing s with
  | zero => exact ⟨rfl,rfl⟩
  | succ n ih =>
    rw [Slab.replenishLoop]
    split
    · exact ih
    · exact ⟨rfl,rfl⟩

theorem replenishLoop_ne_nil (h : s.slabs core idx ≠ []) : (s.replenishLoop core idx n).slabs core idx ≠ [] := by
  induction n generalizing s with
  | zero => exact h
  | succ n ih =>
    rw [Slab.replenishLoop]
    split
    · exact ih (by simp [Slab.setList])
    · exact h

theorem replenish_eq_nil : (s.replenish core idx).slabs core idx = [] ↔
    s.slabs core idx = [] ∧ s.base+s.len < s.cur+getSlabSize idx := by
  rw [Slab.replenish,kReplenishChunkSize,Slab.replenishLoop]
  split
  · rename_i hroom
    exact iff_of_false (replenishLoop_ne_nil (by simp [Slab.setList])) fun h => absurd h.2 (not_lt.mpr hroom)
  · rename_i hroom
    exact ⟨fun h => ⟨h,not_le.mp hroom⟩,And.left⟩

/-- What an allocation does: it takes the head of its list, refilled if it was empty. -/
theorem allocate_cases (core : ℕ) (hi : getSlabIdx size = some idx) : ∃ r s', s.allocate core size = some (r,s') ∧
    s'.base = s.base ∧ s'.len = s.len ∧ (r = none ↔ s.slabs core idx = [] ∧ s.base+s.len < s.cur+getSlabSize idx) ∧
    (r = none → s' = s.replenish core idx) := by
  rcases hl : s.slabs core idx with _ | ⟨a,l⟩
  · rcases hr : (s.replenish core idx).slabs core idx with _ | ⟨a,l⟩
    · refine ⟨none,s.replenish core idx,by simp [Slab.allocate,hi,hl,hr],replenishLoop_area.1,replenishLoop_area.2,
        iff_of_true rfl ?_,fun _ => rfl⟩
      exact ⟨rfl,(replenish_eq_nil.mp hr).2⟩
    · refine ⟨some a,(s.replenish core idx).setList core idx l,by simp [Slab.allocate,hi,hl,hr],replenishLoop_area.1,
        replenishLoop_area.2,iff_of_false (by simp) fun h => ?_,by simp⟩
      rw [replenish_eq_nil.mpr ⟨hl,h.2⟩] at hr
      cases hr
  · exact ⟨some a,s.setList core idx l,by simp [Slab.allocate,hi,hl],rfl,rfl,by simp,by simp⟩

end Refill

/-! ### Runs -/

section Runs
variable {base len : ℕ} {s s' : Heap}

structure Heap.Inv (base len : ℕ) (s : Heap) : Prop where
  area : s.slab.base = base ∧ s.slab.len = len
  slab : ∃ blocks, s.slab.Inv blocks {b | b ∈ s.live.map Grant.block}
  nodup : (s.live.map Grant.block).Nodup
  valid : ∀ g ∈ s.live, ValidSize g.size

theorem Grant.len_of_idx {g : Grant} {idx : ℕ} (h : getSlabIdx g.size = some idx) : g.len = getSlabSize idx := by
  rw [Grant.len,h]
  rfl

theorem Heap.Inv.disjoint (h : s.Inv base len) :
    s.live.Pairwise fun g g' => g.addr+g.len ≤ g'.addr ∨ g'.addr+g'.len ≤ g.addr := by
  obtain ⟨blocks,hs⟩ := h.slab
  refine (List.pairwise_map.mp h.nodup).imp_of_mem fun hg hg' hne => ?_
  exact hs.disjoint (List.mem_map_of_mem hg) (List.mem_map_of_mem hg') hne

theorem Heap.Inv.inside (h : s.Inv base len) {g : Grant} (hg : g ∈ s.live) :
    base ≤ g.addr ∧ g.addr+g.len ≤ base+len ∧ g.size ≤ g.len := by
  obtain ⟨blocks,hs⟩ := h.slab
  obtain ⟨idx,hi⟩ := getSlabIdx_total (h.valid g hg)
  have hb := hs.tiles.bounds (hs.live _ (List.mem_map_of_mem hg))
  have hcur := hs.inside
  rw [h.area.1,h.area.2] at hcur
  rw [h.area.1] at hb
  exact ⟨hb.1,hb.2.trans hcur,(le_getSlabSize hi).trans_eq (Grant.len_of_idx hi).symm⟩

theorem Heap.Inv.eq_of_addr (h : s.Inv base len) {g g' : Grant} (hg : g ∈ s.live) (hg' : g' ∈ s.live)
    (ha : g.addr = g'.addr) : g.block = g'.block := by
  obtain ⟨blocks,hs⟩ := h.slab
  by_contra hne
  have hpos := hs.tiles.pos (hs.live _ (List.mem_map_of_mem hg))
  have hpos' := hs.tiles.pos (hs.live _ (List.mem_map_of_mem hg'))
  have := hs.disjoint (List.mem_map_of_mem hg) (List.mem_map_of_mem hg') hne
  simp only [Grant.block] at hpos hpos' this
  omega

theorem Heap.Inv.new : Heap.Inv base len ⟨Slab.new base len,[]⟩ :=
  ⟨⟨rfl,rfl⟩,⟨[],by simpa using Slab.Inv.new base len⟩,by simp,by simp⟩

theorem Heap.Inv.allocate {core size : ℕ} {r : Option ℕ} (h : s.Inv base len) (hv : ValidSize size)
    (hstep : step s (.allocate core size) = some (r,s')) : s'.Inv base len := by
  obtain ⟨idx,hi⟩ := getSlabIdx_total hv
  obtain ⟨r,slab,ha,hbase,hlen,-,hnull⟩ := allocate_cases (s := s.slab) core hi
  obtain ⟨blocks,hs⟩ := h.slab
  have harea : slab.base = base ∧ slab.len = len := ⟨hbase.trans h.area.1,hlen.trans h.area.2⟩
  cases r with
  | none =>
    simp only [step,ha,Option.some.injEq,Prod.mk.injEq] at hstep
    obtain ⟨-,rfl⟩ := hstep
    cases hnull rfl
    exact ⟨harea,hs.replenishLoop,h.nodup,h.valid⟩
  | some a =>
    simp only [step,ha,Option.some.injEq,Prod.mk.injEq] at hstep
    obtain ⟨-,rfl⟩ := hstep
    obtain ⟨blocks,idx',hi',hnew,hs'⟩ := hs.allocate ha
    rw [← Grant.len_of_idx (g := ⟨a,size⟩) hi'] at hnew hs'
    refine ⟨harea,⟨blocks,by simpa only [List.map_cons,List.mem_cons] using! hs'⟩,
      List.nodup_cons.mpr ⟨hnew,h.nodup⟩,?_⟩
    rw [List.forall_mem_cons]
    exact ⟨hv,h.valid⟩

theorem Heap.Inv.free {core ptr size : ℕ} {r : Option ℕ} (h : s.Inv base len)
    (hok : Allowed s (.free core ptr size)) (hstep : step s (.free core ptr size) = some (r,s')) : s'.Inv base len := by
  obtain ⟨hv,g,hg,rfl,hclass⟩ := hok
  obtain ⟨idx,hi⟩ := getSlabIdx_total hv
  obtain ⟨blocks,hs⟩ := h.slab
  have hf : s.slab.free core g.addr size = some (s.slab.setList core idx (g.addr::s.slab.slabs core idx)) := by
    rw [Slab.free,hi]
  simp only [step,hf,Option.some.injEq,Prod.mk.injEq] at hstep
  obtain ⟨-,rfl⟩ := hstep
  have hsub : (s.live.eraseP (·.addr = g.addr)).Sublist s.live := List.eraseP_sublist
  have hmem : (g.addr,getSlabSize idx) ∈ {b | b ∈ s.live.map Grant.block} := by
    rw [← Grant.len_of_idx (hclass.trans hi)]
    exact List.mem_map_of_mem (f := Grant.block) hg
  refine ⟨h.area,⟨blocks,?_⟩,h.nodup.sublist (hsub.map _),fun g' hg' => h.valid g' (hsub.subset hg')⟩
  convert hs.release hi hmem hf using 1
  -- the one block at that address is the one that goes
  obtain ⟨g',l1,l2,hout,haddr,hlive,hrest⟩ := List.exists_of_eraseP hg (p := (·.addr = g.addr)) (by simp)
  have hblock : g'.block = g.block := h.eq_of_addr (by simp [hlive]) hg (by simpa using haddr)
  have hnd := h.nodup
  rw [hlive,List.map_append,List.map_cons,List.nodup_middle,List.nodup_cons,hblock] at hnd
  rw [hrest,hlive,← Grant.len_of_idx (hclass.trans hi)]
  ext b
  simp only [List.map_append,List.map_cons,hblock,Set.mem_ofPred_eq,Set.mem_sdiff,List.mem_append,List.mem_cons,
    Set.mem_singleton_iff] at hnd ⊢
  constructor
  · intro hb
    refine ⟨hb.imp_right .inr,?_⟩
    rintro rfl
    exact hnd.1 hb
  · rintro ⟨hb | hb | hb,hne⟩
    · exact .inl hb
    · exact absurd hb hne
    · exact .inr hb

theorem Heap.Inv.run {tr : List (Call × Option ℕ)} (h : Trace step Allowed ⟨Slab.new base len,[]⟩ tr s) :
    s.Inv base len := by
  refine h.invariant Heap.Inv.new fun s call r s' hok hinv hstep => ?_
  cases call with
  | allocate core size => exact hinv.allocate hok hstep
  | free core ptr size => exact hinv.free hok hstep

end Runs

/-- Blocks in use are disjoint, inside the area and long enough. An allocation returns, and
it returns null exactly if its core has no block of the class and the rest of the area holds none. -/
theorem blocks_disjoint (base len : ℕ) {tr : List (Call × Option ℕ)} {s : Heap}
    (h : Trace step Allowed ⟨Slab.new base len,[]⟩ tr s) :
    s.live.Pairwise (fun g g' => g.addr+g.len ≤ g'.addr ∨ g'.addr+g'.len ≤ g.addr) ∧
    (∀ g ∈ s.live, base ≤ g.addr ∧ g.addr+g.len ≤ base+len ∧ g.size ≤ g.len) ∧
    ∀ core size, 1 ≤ size → size ≤ kMaxSlabClassSize → ∃ idx r s', getSlabIdx size = some idx ∧
      step s (.allocate core size) = some (r,s') ∧
      (r = none ↔ s.slab.slabs core idx = [] ∧ base+len < s.slab.cur+getSlabSize idx) := by
  have hinv := Heap.Inv.run h
  refine ⟨hinv.disjoint,fun g => hinv.inside,fun core size hpos hmax => ?_⟩
  obtain ⟨idx,hi⟩ := getSlabIdx_total ⟨hpos,hmax⟩
  obtain ⟨r,slab,ha,-,-,hnull,-⟩ := allocate_cases (s := s.slab) core hi
  rw [hinv.area.1,hinv.area.2] at hnull
  cases r with
  | none => exact ⟨idx,none,_,hi,by rw [step,ha],hnull⟩
  | some a => exact ⟨idx,some a,_,hi,by rw [step,ha],hnull⟩

/-- One core takes a block, another one finds none, is given that block back and takes it. -/
theorem blocks_disjoint_two_cores : ∃ bs, ∃ s : Heap, bs = [some 4224,none,none,some 4224] ∧
    s.live.Pairwise (fun g g' => g.addr+g.len ≤ g'.addr ∨ g'.addr+g'.len ≤ g.addr) := by
  have hrun : (exec step Allowed ⟨Slab.new 4096 300,[]⟩
      [.allocate 0 100,.allocate 1 128,.free 1 4224 65,.allocate 1 128]).map Prod.fst =
      some [some 4224,none,none,some 4224] := by decide
  obtain ⟨bs,s,h,hbs⟩ := exec_observe hrun
  exact ⟨bs,s,hbs,(blocks_disjoint 4096 300 h).1⟩

end FarMemory.SlabRuns
