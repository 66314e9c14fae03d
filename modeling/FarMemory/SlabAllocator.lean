import FarMemory.IntervalTiling

/-!
# The slab allocator of the server

A block of a size class comes from the free list of the running core. An empty list
is replenished by cutting blocks off the end of what has been used so far; a freed
block goes to the list of whatever core frees it. The source keeps a list as a
vector used at its back, which is the head here.
-/
namespace FarMemory.SlabAllocator
open IntervalTiling

def kNumSlabClasses : ℕ := 7
def kMinSlabClassShift : ℕ := 5
def kMinSlabClassSize : ℕ := 1 <<< kMinSlabClassShift
def kMaxSlabClassSize : ℕ := kMinSlabClassSize <<< (kNumSlabClasses-1)
def kReplenishChunkSize : ℕ := 512

structure Slab where
  base : ℕ
  len : ℕ
  cur : ℕ
  slabs : ℕ → ℕ → List ℕ

namespace Slab

def new (base len : ℕ) : Slab := ⟨base,len,base,fun _ _ => []⟩

end Slab

/-- For sizes of at least one, as in the source; a size is given with its header. -/
def roundUpPowerOfTwo (a : ℕ) : ℕ := if a = 1 then 1 else 1 <<< (Nat.log2 (a-1)+1)

/-- `none` is the `BUG_ON` of a size that no class holds. -/
def getSlabIdx (size : ℕ) : Option ℕ :=
  let rounded := roundUpPowerOfTwo size
  if kMaxSlabClassSize < rounded then none
  else some (Nat.log2 (max (rounded >>> kMinSlabClassShift) 1))

def getSlabSize (idx : ℕ) : ℕ := 1 <<< (kMinSlabClassShift+idx)

namespace Slab

def setList (s : Slab) (core idx : ℕ) (l : List ℕ) : Slab :=
  {s with slabs := Function.update s.slabs core (Function.update (s.slabs core) idx l)}

def replenishLoop (core idx : ℕ) : ℕ → Slab → Slab
  | 0,s => s
  | n+1,s =>
    if s.cur+getSlabSize idx ≤ s.base+s.len then
      replenishLoop core idx n
        {s.setList core idx (s.cur::s.slabs core idx) with cur := s.cur+getSlabSize idx}
    else s

def replenish (s : Slab) (core idx : ℕ) : Slab := replenishLoop core idx kReplenishChunkSize s

def allocate (s : Slab) (core size : ℕ) : Option (Option ℕ × Slab) :=
  match getSlabIdx size with
  | none => none
  | some idx =>
    let s := if (s.slabs core idx).isEmpty then s.replenish core idx else s
    match s.slabs core idx with
    | [] => some (none,s)
    | a::l => some (some a,s.setList core idx l)

def free (s : Slab) (core ptr size : ℕ) : Option Slab :=
  match getSlabIdx size with
  | none => none
  | some idx => some (s.setList core idx (ptr::s.slabs core idx))

end Slab

/-! ### Size classes -/

theorem getSlabSize_pos (idx : ℕ) : 0 < getSlabSize idx := by
  rw [getSlabSize,Nat.one_shiftLeft]
  exact Nat.two_pow_pos _

theorem le_roundUpPowerOfTwo (a : ℕ) : a ≤ roundUpPowerOfTwo a := by
  rw [roundUpPowerOfTwo]
  split
  · omega
  · rw [Nat.one_shiftLeft]
    have := Nat.lt_log2_self (n := a-1)
    omega

theorem le_getSlabSize {size idx : ℕ} (h : getSlabIdx size = some idx) : size ≤ getSlabSize idx := by
  rw [getSlabIdx] at h
  split at h
  · cases h
  cases h
  refine (le_roundUpPowerOfTwo size).trans ?_
  rw [getSlabSize,Nat.one_shiftLeft,kMinSlabClassShift,Nat.shiftRight_eq_div_pow,Nat.pow_add]
  -- a power of two is either below the least class or divided exactly by it
  obtain ⟨m,hm⟩ : ∃ m, roundUpPowerOfTwo size = 2^m := by
    rw [roundUpPowerOfTwo]
    split
    · exact ⟨0,rfl⟩
    · exact ⟨_,Nat.one_shiftLeft _⟩
  rw [hm]
  by_cases hlt : m < 5
  · have : 2^m ≤ 2^5 := Nat.pow_le_pow_right (by omega) (by omega)
    have := Nat.two_pow_pos (Nat.log2 (max (2^m/2^5) 1))
    nlinarith
  · obtain ⟨j,rfl⟩ : ∃ j, m = 5+j := ⟨m-5,by omega⟩
    rw [Nat.pow_add,Nat.mul_div_cancel_left _ (by norm_num),max_eq_left (Nat.one_le_two_pow),Nat.log2_two_pow]

/-! ### Blocks -/

/-- Everything that was ever cut off tiles the used part of the area. A block is in
one free list, once, or it is live. -/
structure Slab.Inv (s : Slab) (blocks : List (ℕ × ℕ)) (live : Set (ℕ × ℕ)) : Prop where
  tiles : Tiles s.base s.cur blocks
  inside : s.cur ≤ s.base+s.len
  free : ∀ core idx a, a ∈ s.slabs core idx → (a,getSlabSize idx) ∈ blocks ∧ (a,getSlabSize idx) ∉ live
  nodup : ∀ core idx, (s.slabs core idx).Nodup
  owner : ∀ core core' idx a, a ∈ s.slabs core idx → a ∈ s.slabs core' idx → core = core'
  live : ∀ b ∈ live, b ∈ blocks

section Blocks
variable {s : Slab} {blocks : List (ℕ × ℕ)} {live : Set (ℕ × ℕ)} {core idx : ℕ}

theorem mem_setList {l : List ℕ} {core' idx' a : ℕ} : a ∈ (s.setList core idx l).slabs core' idx' ↔
    (core' = core ∧ idx' = idx ∧ a ∈ l) ∨ (¬(core' = core ∧ idx' = idx) ∧ a ∈ s.slabs core' idx') := by
  rw [Slab.setList]
  by_cases hc : core' = core
  · subst hc
    by_cases hi : idx' = idx
    · subst hi
      simp
    · simp [hi]
  · simp [hc]

theorem nodup_setList {l : List ℕ} (hl : l.Nodup) (h : ∀ core idx, (s.slabs core idx).Nodup) (core' idx' : ℕ) :
    ((s.setList core idx l).slabs core' idx').Nodup := by
  rw [Slab.setList]
  by_cases hc : core' = core
  · subst hc
    by_cases hi : idx' = idx
    · subst hi
      simpa using hl
    · simpa [hi] using h core' idx'
  · simpa [hc] using h core' idx'

theorem Slab.Inv.new (base len : ℕ) : Slab.Inv (Slab.new base len) [] ∅ := by
  refine ⟨rfl,Nat.le_add_right base len,?_,?_,?_,by simp⟩ <;> simp [Slab.new]

theorem Slab.Inv.push {a : ℕ} (h : s.Inv blocks live) (hlive : (a,getSlabSize idx) ∈ live) :
    (s.setList core idx (a::s.slabs core idx)).Inv blocks (live \ {(a,getSlabSize idx)}) := by
  have hnot : ∀ core', a ∉ s.slabs core' idx := fun core' hm => (h.free core' idx a hm).2 hlive
  have hcases : ∀ core' idx' b, b ∈ (s.setList core idx (a::s.slabs core idx)).slabs core' idx' →
      (core' = core ∧ idx' = idx ∧ b = a) ∨ b ∈ s.slabs core' idx' := by
    intro core' idx' b hb
    rcases mem_setList.mp hb with ⟨rfl,rfl,hm⟩ | ⟨-,hm⟩
    · rcases List.mem_cons.mp hm with rfl | hm
      · exact .inl ⟨rfl,rfl,rfl⟩
      · exact .inr hm
    · exact .inr hm
  refine ⟨h.tiles,h.inside,?_,nodup_setList (List.nodup_cons.mpr ⟨hnot core,h.nodup core idx⟩) h.nodup,?_,?_⟩
  · intro core' idx' b hb
    rcases hcases core' idx' b hb with ⟨rfl,rfl,rfl⟩ | hm
    · exact ⟨h.live _ hlive,by simp⟩
    · exact ⟨(h.free _ _ b hm).1,fun hl => (h.free _ _ b hm).2 hl.1⟩
  · intro core1 core2 idx' b h1 h2
    rcases hcases core1 idx' b h1 with ⟨rfl,rfl,rfl⟩ | hm1
    · rcases hcases core2 _ _ h2 with ⟨rfl,-,-⟩ | hm2
      · rfl
      · exact absurd hm2 (hnot _)
    · rcases hcases core2 idx' b h2 with ⟨rfl,rfl,rfl⟩ | hm2
      · exact absurd hm1 (hnot _)
      · exact h.owner _ _ _ b hm1 hm2
  · exact fun b hb => h.live b hb.1

theorem Slab.Inv.cut (h : s.Inv blocks live) (hroom : s.cur+getSlabSize idx ≤ s.base+s.len) :
    Slab.Inv {s.setList core idx (s.cur::s.slabs core idx) with cur := s.cur+getSlabSize idx}
      (blocks++[(s.cur,getSlabSize idx)]) live := by
  have hnew : ∀ n, (s.cur,n) ∉ blocks := fun n hn => by
    have hpos := h.tiles.pos hn
    have hend := (h.tiles.bounds hn).2
    dsimp only at hpos hend
    omega
  have hext : Slab.Inv {s with cur := s.cur+getSlabSize idx} (blocks++[(s.cur,getSlabSize idx)])
      (insert (s.cur,getSlabSize idx) live) := by
    refine ⟨h.tiles.snoc (getSlabSize_pos idx),hroom,?_,h.nodup,h.owner,?_⟩
    · intro core' idx' a ha
      obtain ⟨hb,hl⟩ := h.free core' idx' a ha
      refine ⟨List.mem_append_left _ hb,?_⟩
      rintro (heq | hmem)
      · rw [Prod.mk.injEq] at heq
        rw [heq.1] at hb
        exact hnew _ hb
      · exact hl hmem
    · rintro b (rfl | hb)
      · simp
      · exact List.mem_append_left _ (h.live b hb)
  have hpush := (hext.push (Set.mem_insert _ _) : Slab.Inv (Slab.setList _ core _ _) _ _)
  rwa [Set.insert_sdiff_self_of_notMem (fun hl => hnew _ (h.live _ hl))] at hpush

theorem Slab.Inv.replenishLoop : ∀ {n : ℕ} {s : Slab} {blocks : List (ℕ × ℕ)}, s.Inv blocks live →
    ∃ blocks', (Slab.replenishLoop core idx n s).Inv blocks' live := by
  intro n
  induction n with
  | zero => exact fun h => ⟨_,h⟩
  | succ n ih =>
    intro s blocks h
    rw [Slab.replenishLoop]
    split
    · rename_i hroom
      exact ih (h.cut hroom)
    · exact ⟨_,h⟩

theorem Slab.Inv.pop {a : ℕ} {l : List ℕ} (h : s.Inv blocks live) (hl : s.slabs core idx = a::l) :
    (s.setList core idx l).Inv blocks (insert (a,getSlabSize idx) live) := by
  have hmem : a ∈ s.slabs core idx := by simp [hl]
  have hnd := h.nodup core idx
  rw [hl,List.nodup_cons] at hnd
  have hsub : ∀ core' idx' b, b ∈ (s.setList core idx l).slabs core' idx' →
      b ∈ s.slabs core' idx' ∧ ¬(idx' = idx ∧ b = a) := by
    intro core' idx' b hb
    rcases mem_setList.mp hb with ⟨rfl,rfl,hm⟩ | ⟨hne,hm⟩
    · refine ⟨by simp [hl,hm],?_⟩
      rintro ⟨-,rfl⟩
      exact hnd.1 hm
    · refine ⟨hm,?_⟩
      rintro ⟨rfl,rfl⟩
      exact hne ⟨h.owner _ _ _ _ hm hmem,rfl⟩
  refine ⟨h.tiles,h.inside,?_,nodup_setList hnd.2 h.nodup,?_,?_⟩
  · intro core' idx' b hb
    obtain ⟨hold,hne⟩ := hsub core' idx' b hb
    refine ⟨(h.free _ _ b hold).1,?_⟩
    rintro (heq | hlive)
    · rw [Prod.mk.injEq] at heq
      apply hne
      refine ⟨?_,heq.1⟩
      have := heq.2
      rw [getSlabSize,getSlabSize,Nat.one_shiftLeft,Nat.one_shiftLeft] at this
      have := Nat.pow_right_injective (le_refl 2) this
      omega
    · exact (h.free _ _ b hold).2 hlive
  · intro core1 core2 idx' b h1 h2
    exact h.owner _ _ _ b (hsub _ _ b h1).1 (hsub _ _ b h2).1
  · rintro b (rfl | hb)
    · exact (h.free _ _ a hmem).1
    · exact h.live b hb

theorem Slab.Inv.allocate {s' : Slab} {size a : ℕ} (h : s.Inv blocks live)
    (ha : s.allocate core size = some (some a,s')) : ∃ blocks' idx, getSlabIdx size = some idx ∧
      (a,getSlabSize idx) ∉ live ∧ s'.Inv blocks' (insert (a,getSlabSize idx) live) := by
  rw [Slab.allocate] at ha
  cases hi : getSlabIdx size with
  | none => simp [hi] at ha
  | some idx =>
    simp only [hi] at ha
    obtain ⟨blocks',h'⟩ : ∃ blocks',
        (if (s.slabs core idx).isEmpty then s.replenish core idx else s).Inv blocks' live := by
      split
      · exact h.replenishLoop
      · exact ⟨blocks,h⟩
    generalize (if (s.slabs core idx).isEmpty then s.replenish core idx else s) = s1 at *
    cases hl : s1.slabs core idx with
    | nil => simp [hl] at ha
    | cons a' l =>
      simp only [hl,Option.some.injEq,Prod.mk.injEq] at ha
      obtain ⟨rfl,rfl⟩ := ha
      exact ⟨blocks',idx,rfl,(h'.free core idx a' (by simp [hl])).2,h'.pop hl⟩

theorem Slab.Inv.release {s' : Slab} {size a : ℕ} (h : s.Inv blocks live) (hidx : getSlabIdx size = some idx)
    (hlive : (a,getSlabSize idx) ∈ live) (hf : s.free core a size = some s') :
    s'.Inv blocks (live \ {(a,getSlabSize idx)}) := by
  rw [Slab.free,hidx] at hf
  cases hf
  exact h.push hlive

theorem Slab.Inv.disjoint (h : s.Inv blocks live) {b c : ℕ × ℕ} (hb : b ∈ live) (hc : c ∈ live) (hne : b ≠ c) :
    b.1+b.2 ≤ c.1 ∨ c.1+c.2 ≤ b.1 :=
  h.tiles.disjoint (h.live b hb) (h.live c hc) hne

end Blocks

end FarMemory.SlabAllocator
