import Mathlib

/-!
# Circular lists given by a successor function

`Path next x l y` says that following `next` from `x` passes through the nodes of
`l` and arrives at `y`; `Ring` closes a path on its first node. The edits below
insert a node behind another one, put a node in the place of another one and
unlink a node, each by at most two assignments to `next`. Nodes are compared by
identity, and a ring is only fixed up to its starting node.
-/
namespace FarMemory.RingLinks
open Function
variable {α : Type*} {next next' : α → α} {x y : α} {l g : List α}

def Path (next : α → α) : α → List α → α → Prop
  | x,[],y => next x = y
  | x,z::l,y => next x = z ∧ Path next z l y

def Ring (next : α → α) : List α → Prop
  | [] => False
  | x::l => Path next x l x

theorem Path.congr (h : Path next x l y)
    (hn : ∀ z ∈ x::l, next' z = next z) : Path next' x l y := by
  induction l generalizing x with
  | nil => exact (hn x (by simp)).trans h
  | cons z l ih =>
    refine ⟨(hn x (by simp)).trans h.1,ih h.2 ?_⟩
    intro w hw
    exact hn w (by simp only [List.mem_cons] at hw ⊢; tauto)

theorem Path.append {z : α} {k : List α} (h : Path next x l y) (h' : Path next y k z) :
    Path next x (l++y::k) z := by
  induction l generalizing x with
  | nil => exact ⟨h,h'⟩
  | cons w l ih => exact ⟨h.1,ih h.2⟩

theorem Path.split {z : α} {k : List α} (h : Path next x (l++y::k) z) :
    Path next x l y ∧ Path next y k z := by
  induction l generalizing x with
  | nil => exact h
  | cons w l ih => exact ⟨⟨h.1,(ih h.2).1⟩,(ih h.2).2⟩

theorem Path.redirect [DecidableEq α] {w : α} (h : Path next x l y)
    (hn : (x::l).Nodup) : Path (update next ((x::l).getLast (by simp)) w) x l w := by
  induction l generalizing x with
  | nil => exact update_self ..
  | cons z l ih =>
    have hx : x ≠ (z::l).getLast (by simp) := by
      intro he
      exact (List.nodup_cons.mp hn).1 (he ▸ List.getLast_mem _)
    simp only [List.getLast_cons_cons]
    refine ⟨?_,ih h.2 (List.nodup_cons.mp hn).2⟩
    rw [update_of_ne hx]
    exact h.1

theorem Ring.congr (h : Ring next g) (hn : ∀ z ∈ g, next' z = next z) :
    Ring next' g := by
  cases g with
  | nil => exact h
  | cons x l => exact Path.congr h hn

theorem Ring.startAt (h : Ring next g) {p : α} (hp : p ∈ g) :
    ∃ k, Ring next (p::k) ∧ (p::k).Perm g := by
  cases g with
  | nil => cases hp
  | cons x l =>
    rcases List.mem_cons.mp hp with rfl | hp
    · exact ⟨l,h,List.Perm.refl _⟩
    · obtain ⟨l1,l2,rfl⟩ := List.append_of_mem hp
      obtain ⟨h1,h2⟩ := Path.split h
      exact ⟨l2++x::l1,h2.append h1,by
        simpa using (@List.perm_append_comm _ (p::l2) (x::l1))⟩

theorem Ring.next_mem (h : Ring next g) {p : α} (hp : p ∈ g) : next p ∈ g := by
  obtain ⟨k,hk,hperm⟩ := h.startAt hp
  refine hperm.mem_iff.mp ?_
  cases k with
  | nil =>
    rw [show next p = p from hk]
    simp
  | cons q k =>
    rw [show next p = q from hk.1]
    simp


section Edits
variable [DecidableEq α] {x : α} {l : List α}

theorem Ring.insert {n : α} (h : Ring next (x::l)) (hd : (x::l).Nodup)
    (hn : n ∉ x::l) : Ring (update (update next n (next x)) x n) (x::n::l) := by
  have hxn : n ≠ x := fun he => hn (by simp [he])
  refine ⟨update_self ..,?_⟩
  have hfirst : update (update next n (next x)) x n n = next x := by
    rw [update_of_ne hxn,update_self]
  cases l with
  | nil => exact hfirst.trans h
  | cons z l =>
    refine ⟨hfirst.trans h.1,h.2.congr ?_⟩
    intro w hw
    have hwx : w ≠ x := fun he => (List.nodup_cons.mp hd).1 (he ▸ hw)
    have hwn : w ≠ n := fun he => hn (he ▸ List.mem_cons_of_mem x hw)
    rw [update_of_ne hwx,update_of_ne hwn]

/-- Node `n` takes the place of `x`: the predecessor of `x` is redirected and
the successor taken over. -/
theorem Ring.replace {n z : α} (h : Ring next (x::z::l)) (hd : (x::z::l).Nodup)
    (hn : n ∉ x::z::l) :
    Ring (update (update next ((z::l).getLast (by simp)) n) n (next x))
      (n::z::l) := by
  have hnz : n ∉ z::l := fun hm => hn (List.mem_cons_of_mem x hm)
  refine ⟨(update_self ..).trans h.1,?_⟩
  refine (Path.redirect h.2 (List.nodup_cons.mp hd).2).congr ?_
  intro w hw
  have hwn : w ≠ n := fun he => hnz (he ▸ hw)
  rw [update_of_ne hwn]

theorem Ring.unlink {z : α} (h : Ring next (x::z::l)) (hd : (x::z::l).Nodup) :
    Ring (update next ((z::l).getLast (by simp)) (next x)) (z::l) := by
  have hr := Path.redirect (w := next x) h.2 (List.nodup_cons.mp hd).2
  have hx : next x = z := h.1
  rw [hx] at hr ⊢
  exact hr

/-- Visit a node and its successors until `start` comes next. -/
def traverse (next : α → α) (start : α) : ℕ → α → List α
  | 0,cur => [cur]
  | fuel+1,cur => cur::if next cur = start then [] else traverse next start fuel (next cur)

theorem traverse_path {start : α} {fuel : ℕ} (h : Path next x l start) (hs : start ∉ l) (hf : l.length < fuel) :
    traverse next start fuel x = x::l := by
  induction l generalizing x fuel with
  | nil =>
    obtain ⟨fuel,rfl⟩ := Nat.exists_eq_succ_of_ne_zero (by omega : fuel ≠ 0)
    rw [traverse,if_pos (show next x = start from h)]
  | cons z l ih =>
    obtain ⟨fuel,rfl⟩ := Nat.exists_eq_succ_of_ne_zero (by omega : fuel ≠ 0)
    rw [List.mem_cons,not_or] at hs
    rw [traverse,h.1,if_neg (Ne.symm hs.1),ih h.2 hs.2 (by simpa using hf)]

theorem traverse_ring {fuel : ℕ} (h : Ring next (x::l)) (hd : (x::l).Nodup)
    (hf : l.length < fuel) : traverse next x fuel x = x::l :=
  traverse_path h (List.nodup_cons.mp hd).1 hf

/-- Follow `next` until the node in front of `target`. -/
def findPrev (next : α → α) (target : α) : ℕ → α → α
  | 0,cur => cur
  | fuel+1,cur => if next cur = target then cur else findPrev next target fuel (next cur)

theorem findPrev_path {target : α} {fuel : ℕ} (h : Path next x l target) (hs : target ∉ l) (hf : l.length < fuel) :
    findPrev next target fuel x = (x::l).getLast (by simp) := by
  induction l generalizing x fuel with
  | nil =>
    obtain ⟨fuel,rfl⟩ := Nat.exists_eq_succ_of_ne_zero (by omega : fuel ≠ 0)
    rw [findPrev,if_pos (show next x = target from h)]
    rfl
  | cons z l ih =>
    obtain ⟨fuel,rfl⟩ := Nat.exists_eq_succ_of_ne_zero (by omega : fuel ≠ 0)
    rw [List.mem_cons,not_or] at hs
    rw [findPrev,h.1,if_neg (Ne.symm hs.1),ih h.2 hs.2 (by simpa using hf),
      List.getLast_cons_cons]

end Edits

end FarMemory.RingLinks
