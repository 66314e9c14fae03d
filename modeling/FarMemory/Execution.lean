import Mathlib

/-!
# Runs of a labelled machine

A machine is a partial step function that consumes a label and produces an
outcome. A `Trace` is a finite run in which every step also meets a side
condition on the state it starts from; with the trivial condition it is any run.
The two rules below turn a statement about one step into one about whole runs:
an invariant, and a simulation by a machine that follows the labels and outcomes.
-/
namespace FarMemory.Execution
variable {σ α β τ : Type*}

inductive Trace (step : σ → α → Option (β × σ)) (ok : σ → α → Prop) (init : σ) :
    List (α × β) → σ → Prop
  | nil : Trace step ok init [] init
  | snoc {tr : List (α × β)} {s s' : σ} {a : α} {b : β} (h : Trace step ok init tr s) (hok : ok s a)
      (hstep : step s a = some (b,s')) : Trace step ok init (tr++[(a,b)]) s'

variable {step : σ → α → Option (β × σ)} {ok ok' : σ → α → Prop} {init s s' : σ}
  {tr : List (α × β)}

theorem Trace.invariant {I : σ → Prop} (hinit : I init)
    (hstep : ∀ s a b s', ok s a → I s → step s a = some (b,s') → I s')
    (h : Trace step ok init tr s) : I s := by
  induction h with
  | nil => exact hinit
  | snoc _ hok hs ih => exact hstep _ _ _ _ hok ih hs

theorem Trace.simulation {I : σ → τ → Prop} {follow : τ → α × β → τ} {t : τ} (hinit : I init t)
    (hstep : ∀ s t a b s', ok s a → I s t → step s a = some (b,s') → I s' (follow t (a,b)))
    (h : Trace step ok init tr s) : I s (tr.foldl follow t) := by
  induction h with
  | nil => exact hinit
  | snoc _ hok hs ih =>
    rw [List.foldl_append]
    exact hstep _ _ _ _ _ hok ih hs

theorem Trace.mono (hok : ∀ s a, ok s a → ok' s a) (h : Trace step ok init tr s) :
    Trace step ok' init tr s := by
  induction h with
  | nil => exact .nil
  | snoc _ ho hs ih => exact .snoc ih (hok _ _ ho) hs

/-- Run a list of labels, checking the side condition, and collect the outcomes. -/
def exec (step : σ → α → Option (β × σ)) (ok : σ → α → Prop) [∀ s a, Decidable (ok s a)] :
    σ → List α → Option (List β × σ)
  | s,[] => some ([],s)
  | s,a::l =>
    if ok s a then
      match step s a with
      | none => none
      | some (b,s') => (exec step ok s' l).map fun r => (b::r.1,r.2)
    else none

private theorem Trace.extend [∀ s a, Decidable (ok s a)] {l : List α} :
    ∀ {s : σ} {bs : List β} {tr : List (α × β)}, Trace step ok init tr s →
      exec step ok s l = some (bs,s') → Trace step ok init (tr++l.zip bs) s' := by
  induction l with
  | nil =>
    intro s bs tr h he
    cases he
    simpa using h
  | cons a l ih =>
    intro s bs tr h he
    rw [exec] at he
    obtain ⟨hok,he⟩ := Option.ite_none_right_eq_some.mp he
    rcases hs : step s a with _ | ⟨b,s1⟩
    · simp [hs] at he
    · simp only [hs,Option.map_eq_some_iff] at he
      obtain ⟨⟨cs,s2⟩,hrest,⟨⟩⟩ := he
      have := ih (h.snoc hok hs) hrest
      rwa [List.append_assoc,List.singleton_append] at this

theorem exec_trace [∀ s a, Decidable (ok s a)] {l : List α} {bs : List β}
    (h : exec step ok init l = some (bs,s)) : Trace step ok init (l.zip bs) s := by
  simpa using Trace.extend .nil h

/-- Evaluating a run and observing its end gives a run that ends so. -/
theorem exec_observe {γ : Type*} [∀ s a, Decidable (ok s a)] {l : List α} {f : List β × σ → γ} {x : γ}
    (h : (exec step ok init l).map f = some x) :
    ∃ bs s, Trace step ok init (l.zip bs) s ∧ f (bs,s) = x := by
  obtain ⟨⟨bs,s⟩,he,hx⟩ := Option.map_eq_some_iff.mp h
  exact ⟨bs,s,exec_trace he,hx⟩

end FarMemory.Execution
