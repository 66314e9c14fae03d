import Mathlib

/-!
# Order statistics of a list

`IsNth l n r` says by counting that `r` is the element of rank `n`: at most `n`
elements are below it and more than `n` are not above it. The counts do not see
the order of the list, determine the element, and split over a concatenation
whose parts are separated by a key.
-/
namespace FarMemory.OrderStatistic
variable {α : Type*} [LinearOrder α]

def IsNth (l : List α) (n : ℕ) (r : α) : Prop :=
  l.countP (· < r) ≤ n ∧ n < l.countP (· ≤ r)

variable {l l' : List α} {n : ℕ} {r r' key : α}

theorem IsNth.mem (h : IsNth l n r) : r ∈ l := by
  by_contra hr
  have hsame : l.countP (· ≤ r) = l.countP (· < r) := by
    apply List.countP_congr
    intro x hx
    have hne : x ≠ r := fun heq => hr (heq ▸ hx)
    simp [lt_iff_le_and_ne,hne]
  have := h.1
  have := h.2
  omega

private theorem IsNth.not_below (h : IsNth l n r) (h' : IsNth l n r') : ¬r < r' := by
  intro hlt
  have hle : l.countP (· ≤ r) ≤ l.countP (· < r') := by
    apply List.countP_mono_left
    intro x _ hx
    simpa using (of_decide_eq_true hx).trans_lt hlt
  have := h.2
  have := h'.1
  omega

theorem IsNth.unique (h : IsNth l n r) (h' : IsNth l n r') : r = r' :=
  le_antisymm (not_lt.mp (h'.not_below h)) (not_lt.mp (h.not_below h'))

theorem IsNth.perm (h : IsNth l n r) (hp : l.Perm l') : IsNth l' n r := by
  unfold IsNth
  rw [← hp.countP_eq,← hp.countP_eq]
  exact h

theorem isNth_of_sorted (hs : l.Pairwise (· ≤ ·)) (hn : n < l.length) : IsNth l n l[n] := by
  have hcount (p : α → Bool) : l.countP p = (l.take n).countP p+(l.drop n).countP p := by
    rw [← List.countP_append,List.take_append_drop]
  have hlt : ∀ x ∈ l.drop n, l[n] ≤ x := by
    intro x hx
    obtain ⟨i,hi,rfl⟩ := List.mem_iff_getElem.mp hx
    rw [List.getElem_drop]
    rcases Nat.eq_zero_or_pos i with rfl | hpos
    · simp
    · exact List.pairwise_iff_getElem.mp hs _ _ _ _ (by omega)
  have hle : ∀ x ∈ l.take n, x ≤ l[n] := by
    intro x hx
    obtain ⟨i,hi,rfl⟩ := List.mem_iff_getElem.mp hx
    rw [List.length_take] at hi
    rw [List.getElem_take]
    exact List.pairwise_iff_getElem.mp hs _ _ _ _ (by omega)
  constructor
  · have hz : (l.drop n).countP (· < l[n]) = 0 :=
      List.countP_eq_zero.mpr fun x hx => by simpa using hlt x hx
    rw [hcount,hz]
    simpa using List.countP_le_length.trans (List.length_take_le n l)
  · have hall : (l.take n).countP (· ≤ l[n]) = (l.take n).length :=
      List.countP_eq_length.mpr fun x hx => by simpa using hle x hx
    have hpos : 0 < (l.drop n).countP (· ≤ l[n]) :=
      List.countP_pos_iff.mpr ⟨l[n],List.mem_iff_getElem.mpr ⟨0,by simpa using hn,by simp⟩,by simp⟩
    rw [hcount,hall,List.length_take]
    omega

section Separated
variable {lt gt eq : List α} (hlt : ∀ x ∈ lt, x < key) (hgt : ∀ x ∈ gt, key < x)
  (heq : ∀ x ∈ eq, x = key)

include hlt hgt heq

theorem isNth_below (h : IsNth lt n r) : IsNth (lt++gt++eq) n r := by
  have hr := hlt r h.mem
  have hg : gt.countP (· ≤ r) = 0 := List.countP_eq_zero.mpr fun x hx => by
    simpa using hr.trans (hgt x hx)
  have hg' : gt.countP (· < r) = 0 := List.countP_eq_zero.mpr fun x hx => by
    simpa using (hr.trans (hgt x hx)).le
  have he : eq.countP (· ≤ r) = 0 := List.countP_eq_zero.mpr fun x hx => by
    simpa [heq x hx] using hr
  have he' : eq.countP (· < r) = 0 := List.countP_eq_zero.mpr fun x hx => by
    simpa [heq x hx] using hr.le
  unfold IsNth at h ⊢
  simp only [List.countP_append]
  omega

theorem isNth_key (h : lt.length ≤ n) (h' : n < lt.length+eq.length) :
    IsNth (lt++gt++eq) n key := by
  have hl : lt.countP (· ≤ key) = lt.length := List.countP_eq_length.mpr fun x hx => by
    simpa using (hlt x hx).le
  have hl' : lt.countP (· < key) = lt.length := List.countP_eq_length.mpr fun x hx => by
    simpa using hlt x hx
  have hg : gt.countP (· < key) = 0 := List.countP_eq_zero.mpr fun x hx => by
    simpa using (hgt x hx).le
  have he : eq.countP (· ≤ key) = eq.length := List.countP_eq_length.mpr fun x hx => by
    simp [heq x hx]
  have he' : eq.countP (· < key) = 0 := List.countP_eq_zero.mpr fun x hx => by
    simp [heq x hx]
  unfold IsNth
  simp only [List.countP_append]
  omega

theorem isNth_above (h : IsNth gt n r) : IsNth (lt++gt++eq) (n+lt.length+eq.length) r := by
  have hr := hgt r h.mem
  have hl : lt.countP (· ≤ r) = lt.length := List.countP_eq_length.mpr fun x hx => by
    simpa using ((hlt x hx).trans hr).le
  have hl' : lt.countP (· < r) = lt.length := List.countP_eq_length.mpr fun x hx => by
    simpa using (hlt x hx).trans hr
  have he : eq.countP (· ≤ r) = eq.length := List.countP_eq_length.mpr fun x hx => by
    simpa [heq x hx] using hr.le
  have he' : eq.countP (· < r) = eq.length := List.countP_eq_length.mpr fun x hx => by
    simpa [heq x hx] using hr
  unfold IsNth at h ⊢
  simp only [List.countP_append]
  omega

end Separated
end FarMemory.OrderStatistic
