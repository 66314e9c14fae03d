import Mathlib

/-!
# Counted loops

`for (i = 0; i < n; i++) body` over a state, where the body may fail. The rules
derive what holds after the loop from what one round does to an assertion that
may name the round.
-/
namespace FarMemory.CountedLoop
variable {σ τ : Type}

def loop (n : ℕ) (body : ℕ → σ → Option σ) (s : σ) : Option σ :=
  (List.range n).foldlM (fun s i => body i s) s

@[simp] theorem loop_zero (body : ℕ → σ → Option σ) (s : σ) : loop 0 body s = some s := rfl

theorem loop_succ (n : ℕ) (body : ℕ → σ → Option σ) (s : σ) :
    loop (n+1) body s = (loop n body s).bind (body n) := by
  simp only [loop,List.range_succ,List.foldlM_append,List.foldlM_cons,List.foldlM_nil]
  cases (List.range n).foldlM (fun s i => body i s) s with
  | none => rfl
  | some t =>
    change (body n t).bind some = body n t
    cases body n t <;> rfl

/-- Total correctness: every round succeeds and leads to the next assertion. -/
theorem loop_total {n : ℕ} {body : ℕ → σ → Option σ} {s : σ} (P : ℕ → σ → Prop) (h0 : P 0 s)
    (hstep : ∀ i < n, ∀ t, P i t → ∃ t', body i t = some t' ∧ P (i+1) t') :
    ∃ t, loop n body s = some t ∧ P n t := by
  induction n with
  | zero => exact ⟨s,rfl,h0⟩
  | succ n ih =>
    obtain ⟨t,ht,hP⟩ := ih fun i hi => hstep i (by omega)
    obtain ⟨t',ht',hP'⟩ := hstep n (by omega) t hP
    refine ⟨t',?_,hP'⟩
    rw [loop_succ,ht]
    exact ht'

/-- Partial correctness: a loop that succeeds passed every assertion. -/
theorem loop_partial {n : ℕ} {body : ℕ → σ → Option σ} {s t : σ} (P : ℕ → σ → Prop) (h0 : P 0 s)
    (hstep : ∀ i < n, ∀ t t', P i t → body i t = some t' → P (i+1) t')
    (h : loop n body s = some t) : P n t := by
  induction n generalizing t with
  | zero =>
    cases h
    exact h0
  | succ n ih =>
    rw [loop_succ] at h
    obtain ⟨u,hu,hb⟩ := Option.bind_eq_some_iff.mp h
    exact hstep n (by omega) u t (ih (fun i hi => hstep i (by omega)) hu) hb

end FarMemory.CountedLoop
