import Mathlib

/-!
# Blocks laid end to end

A bump allocator hands out consecutive blocks. `Tiles lo hi l` says that the
blocks of `l`, given as pairs of a start and a positive length, fill the
interval from `lo` to `hi` in order. `Split` cuts such a sequence at a list of
block starts. `strideWalk` visits a tiled interval by reading the length of each
block where it stands; on a tiling it visits every start exactly once.
-/
namespace FarMemory.IntervalTiling

def Tiles : ℕ → ℕ → List (ℕ × ℕ) → Prop
  | lo,hi,[] => lo = hi
  | lo,hi,b::l => b.1 = lo ∧ 0 < b.2 ∧ Tiles (lo+b.2) hi l

variable {lo hi e n : ℕ} {l : List (ℕ × ℕ)} {bs : List ℕ}

theorem Tiles.append {mid : ℕ} {k : List (ℕ × ℕ)} (h : Tiles lo mid l) (h' : Tiles mid hi k) : Tiles lo hi (l++k) := by
  induction l generalizing lo with
  | nil => cases h; exact h'
  | cons b l ih => exact ⟨h.1,h.2.1,ih h.2.2⟩

section
variable (h : Tiles lo hi l)
include h

theorem Tiles.snoc (hn : 0 < n) : Tiles lo (hi+n) (l++[(hi,n)]) :=
  h.append ⟨rfl,hn,rfl⟩

theorem Tiles.le : lo ≤ hi := by
  induction l generalizing lo with
  | nil => exact Nat.le_of_eq h
  | cons b l ih => exact (Nat.le_add_right lo b.2).trans (ih h.2.2)

theorem Tiles.bounds {b : ℕ × ℕ} (hb : b ∈ l) : lo ≤ b.1 ∧ b.1+b.2 ≤ hi := by
  induction l generalizing lo with
  | nil => cases hb
  | cons c l ih =>
    rcases List.mem_cons.mp hb with rfl | hb
    · have hle := h.2.2.le
      have hs := h.1
      omega
    · have hi := ih h.2.2 hb
      omega

theorem Tiles.pairwise : l.Pairwise fun b c => b.1+b.2 ≤ c.1 := by
  induction l generalizing lo with
  | nil => exact List.Pairwise.nil
  | cons b l ih =>
    refine List.Pairwise.cons ?_ (ih h.2.2)
    intro c hc
    have hb := h.2.2.bounds hc
    have hs := h.1
    omega

theorem Tiles.pos {b : ℕ × ℕ} (hb : b ∈ l) : 0 < b.2 := by
  induction l generalizing lo with
  | nil => cases hb
  | cons c l ih =>
    rcases List.mem_cons.mp hb with rfl | hb
    · exact h.2.1
    · exact ih h.2.2 hb

theorem Tiles.nodup : (l.map Prod.fst).Nodup := by
  rw [List.Nodup,List.pairwise_map]
  refine (List.Pairwise.and_mem.mp h.pairwise).imp ?_
  rintro b c ⟨hb,-,hle⟩ he
  have hp := h.pos hb
  omega

theorem Tiles.disjoint {b c : ℕ × ℕ} (hb : b ∈ l) (hc : c ∈ l) (hne : b ≠ c) :
    b.1+b.2 ≤ c.1 ∨ c.1+c.2 ≤ b.1 := by
  have hsymm : Std.Symm fun b c : ℕ × ℕ => b.1+b.2 ≤ c.1 ∨ c.1+c.2 ≤ b.1 := ⟨fun _ _ => Or.symm⟩
  exact (h.pairwise.imp Or.inl : l.Pairwise fun b c => b.1+b.2 ≤ c.1 ∨ c.1+c.2 ≤ b.1).forall hb hc hne

theorem Tiles.length_le : l.length ≤ hi-lo := by
  induction l generalizing lo with
  | nil => simp
  | cons b l ih =>
    have hi' := ih h.2.2
    have hle := h.2.2.le
    have hp := h.2.1
    simp only [List.length_cons]
    omega

theorem Tiles.unique {hi' : ℕ} (h' : Tiles lo hi' l) : hi = hi' := by
  induction l generalizing lo with
  | nil => exact h.symm.trans h'
  | cons b l ih => exact ih h.2.2 h'.2.2

end

/-- The list is cut at the given positions, each a block boundary, and nothing
is left behind the last cut. -/
def Split : ℕ → List ℕ → List (ℕ × ℕ) → Prop
  | _,[],l => l = []
  | lo,b::bs,l => ∃ l₁ l₂, l = l₁++l₂ ∧ Tiles lo b l₁ ∧ Split b bs l₂

section
variable (h : Split lo (bs++[e]) l)
include h

theorem Split.extend (hn : 0 < n) : Split lo (bs++[e+n]) (l++[(e,n)]) := by
  induction bs generalizing lo l with
  | nil =>
    obtain ⟨l₁,l₂,rfl,ht,rfl⟩ := h
    exact ⟨l₁++[(e,n)],[],by simp,ht.snoc hn,rfl⟩
  | cons b bs ih =>
    obtain ⟨l₁,l₂,rfl,ht,hs⟩ := h
    exact ⟨l₁,l₂++[(e,n)],by simp,ht,ih hs⟩

theorem Split.append {bs' : List ℕ} {l' : List (ℕ × ℕ)} (h' : Split e bs' l') :
    Split lo ((bs++[e])++bs') (l++l') := by
  induction bs generalizing lo l with
  | nil =>
    obtain ⟨l₁,l₂,rfl,ht,rfl⟩ := h
    exact ⟨l₁,l',by simp,ht,h'⟩
  | cons b bs ih =>
    obtain ⟨l₁,l₂,rfl,ht,hs⟩ := h
    exact ⟨l₁,l₂++l',by simp,ht,ih hs⟩

theorem Split.cut (hn : 0 < n) : Split lo ((bs++[e])++[e+n]) (l++[(e,n)]) :=
  h.append ⟨[(e,n)],[],rfl,⟨rfl,hn,rfl⟩,rfl⟩

theorem Split.cut_nil : Split lo ((bs++[e])++[e]) l := by
  have hnil : Split e [e] [] := ⟨[],[],rfl,rfl,rfl⟩
  simpa using h.append hnil

theorem Split.tiles_last : Tiles lo e l := by
  induction bs generalizing lo l with
  | nil =>
    obtain ⟨l₁,l₂,rfl,ht,rfl⟩ := h
    simpa using ht
  | cons b bs ih =>
    obtain ⟨l₁,l₂,rfl,ht,hs⟩ := h
    exact ht.append (ih hs)

end

/-- Walk from `cur` towards `right`, reading each stride in place. The walk
stops as soon as fewer than `slack+1` cells are left. -/
def strideWalk (stride : ℕ → Option ℕ) (slack : ℕ) : ℕ → ℕ → ℕ → List ℕ
  | 0,_,_ => []
  | fuel+1,cur,right =>
    if cur+slack < right then
      match stride cur with
      | none => []
      | some n => cur::strideWalk stride slack fuel (cur+n) right
    else []

theorem strideWalk_tiles {stride : ℕ → Option ℕ} {slack base : ℕ}
    (hstride : ∀ b ∈ l, stride (base+b.1) = some b.2) (hslack : ∀ b ∈ l, slack < b.2) :
    ∀ {fuel lo hi : ℕ}, l.length < fuel → Tiles lo hi l →
      strideWalk stride slack fuel (base+lo) (base+hi) = l.map fun b => base+b.1 := by
  induction l with
  | nil =>
    intro fuel lo hi hf ht
    obtain ⟨fuel,rfl⟩ := Nat.exists_eq_add_one.mpr hf
    cases ht
    rw [strideWalk,if_neg (by omega)]
    rfl
  | cons b l ih =>
    intro fuel lo hi hf ht
    obtain ⟨fuel,rfl⟩ := Nat.exists_eq_add_one.mpr (Nat.zero_lt_of_lt hf)
    obtain ⟨rfl,-,ht⟩ := ht
    have hle := ht.le
    have hb := hslack b (by simp)
    have htail := ih (fun c hc => hstride c (by simp [hc])) (fun c hc => hslack c (by simp [hc]))
      (by simpa using hf) ht
    rw [strideWalk,if_pos (by omega),hstride b (by simp)]
    simp only [List.map_cons,Nat.add_assoc,htail]

/-- Walking the pieces of a cut one after another visits every block once. -/
theorem strideWalk_split {stride : ℕ → Option ℕ} {slack base fuel : ℕ} : ∀ {lo : ℕ} {l : List (ℕ × ℕ)}, (∀ b ∈ l, stride (base+b.1) = some b.2) →
      (∀ b ∈ l, slack < b.2) → l.length < fuel → Split lo bs l →
      ((lo::bs).zip bs).flatMap (fun t => strideWalk stride slack fuel (base+t.1) (base+t.2)) =
        l.map fun b => base+b.1 := by
  induction bs with
  | nil =>
    intro lo l _ _ _ hs
    rw [show l = [] from hs]
    rfl
  | cons b bs ih =>
    intro lo l hstride hslack hf hs
    obtain ⟨l₁,l₂,rfl,ht,hs⟩ := hs
    rw [List.length_append] at hf
    have hfirst := strideWalk_tiles (fun c hc => hstride c (by simp [hc]))
      (fun c hc => hslack c (by simp [hc])) (show l₁.length < fuel by omega) ht
    have hrest := ih (fun c hc => hstride c (by simp [hc])) (fun c hc => hslack c (by simp [hc]))
      (by omega) hs
    rw [List.zip_cons_cons,List.flatMap_cons,hrest,List.map_append]
    exact congrArg (· ++ _) hfirst

end FarMemory.IntervalTiling
