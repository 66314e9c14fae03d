import FarMemory.Hopscotch

/-!
# Hops

An insertion brings the slot it has claimed into the neighbourhood of its bucket. A
hop looks at the buckets before the slot, farthest first, for an entry that may take
it. The slot comes nearer with every hop, and every key keeps its payload.
-/
namespace FarMemory.Hopscotch
variable {ε κ π : Type*}

inductive Hop (ε : Type*)
  | moved (free : ℕ) (t : Table ε)
  | hole
  | stuck

/-- Try the buckets at the given distances before the empty slot. -/
def hopOver (relocate : ℕ → ε → ε) (t : Table ε) (free : ℕ) : List ℕ → Hop ε
  | [] => .stuck
  | d::ds =>
    match offsets (t.bitmap (free-d)) with
    | [] => hopOver relocate t free ds
    | o::_ =>
      if free ≤ free-d+o then hopOver relocate t free ds
      else
        match t.slot (free-d+o) with
        | .entry e => .moved (free-d+o) (relocateEntry relocate t (free-d) o d e)
        | _ => .hole

def hop (relocate : ℕ → ε → ε) (t : Table ε) (free : ℕ) : Hop ε :=
  hopOver relocate t free (List.range' 1 31).reverse

inductive Brought (ε : Type*)
  | ready (free : ℕ) (t : Table ε)
  | hole (free : ℕ) (t : Table ε)
  | stuck

/-- Hop until the empty slot is in the neighbourhood of the bucket. Every hop moves
it down, so its index is enough fuel. -/
def bringLoop (relocate : ℕ → ε → ε) (b : ℕ) : ℕ → Table ε → ℕ → Brought ε
  | 0,_,_ => .stuck
  | fuel+1,t,free =>
    if free-b < 32 then .ready free t
    else
      match hop relocate t free with
      | .moved free' t' => bringLoop relocate b fuel t' free'
      | .hole => .hole free t
      | .stuck => .stuck

def bring (relocate : ℕ → ε → ε) (t : Table ε) (b free : ℕ) : Brought ε :=
  bringLoop relocate b (free+1) t free

section Hops
variable {relocate : ℕ → ε → ε} {t t' : Table ε} {f j : ℕ}

/-- A place in front of the empty slot from which a hop starts. -/
def HopFrom (t : Table ε) (f b o d : ℕ) : Prop :=
  f = b+d ∧ o < d ∧ d < 32 ∧ t.bit b o = true

theorem hopOver_spec (relocate : ℕ → ε → ε) (hf : 32 ≤ f) {ds : List ℕ} (hds : ∀ d ∈ ds, d < 32) :
    match hopOver relocate t f ds with
    | .moved j t' => ∃ b o d e, HopFrom t f b o d ∧ t.slot (b+o) = .entry e ∧ j = b+o ∧
        t' = relocateEntry relocate t b o d e
    | .hole => ∃ b o d, HopFrom t f b o d ∧ ∀ e, t.slot (b+o) ≠ .entry e
    | .stuck => True := by
  induction ds with
  | nil => trivial
  | cons d ds ih =>
    have ih' := ih fun d' hd' => hds d' (by simp [hd'])
    have hd := hds d (by simp)
    rw [hopOver]
    cases ho : offsets (t.bitmap (f-d)) with
    | nil => exact ih'
    | cons o os =>
      have hbit : t.bit (f-d) o = true := mem_offsets.mp (by rw [ho]; simp)
      by_cases hle : f ≤ f-d+o
      · simp only [if_pos hle]
        exact ih'
      · have hfrom : HopFrom t f (f-d) o d := ⟨by omega,by omega,hd,hbit⟩
        simp only [if_neg hle]
        cases hs : t.slot (f-d+o) with
        | entry e => exact ⟨f-d,o,d,e,hfrom,hs,rfl,rfl⟩
        | null => exact ⟨f-d,o,d,hfrom,by simp [hs]⟩
        | busy => exact ⟨f-d,o,d,hfrom,by simp [hs]⟩

theorem distance_lt {d : ℕ} (hd : d ∈ (List.range' 1 31).reverse) : d < 32 := by
  rw [List.mem_reverse,List.mem_range'_1] at hd
  omega

theorem hop_moved (hf : 32 ≤ f) (h : hop relocate t f = .moved j t') :
    ∃ b o d e, HopFrom t f b o d ∧ t.slot (b+o) = .entry e ∧ j = b+o ∧
      t' = relocateEntry relocate t b o d e := by
  have hspec := hopOver_spec relocate (t := t) hf fun d hd => distance_lt hd
  unfold hop at h
  rwa [h] at hspec

theorem hop_hole (hf : 32 ≤ f) (h : hop relocate t f = .hole) :
    ∃ b o d, HopFrom t f b o d ∧ ∀ e, t.slot (b+o) ≠ .entry e := by
  have hspec := hopOver_spec relocate (t := t) hf fun d hd => distance_lt hd
  unfold hop at h
  rwa [h] at hspec

end Hops

section Bring
variable {S : Scheme ε κ π} {n : ℕ} {stale : Set (ℕ × ℕ)} {t : Table ε} {f f' b f0 : ℕ} {t' t0 : Table ε}

/-- Stale bits do not point to entries in front of `f`. -/
def StaleBehind (stale : Set (ℕ × ℕ)) (t : Table ε) (f : ℕ) : Prop :=
  ∀ b o e, (b,o) ∈ stale → t.slot (b+o) = .entry e → f ≤ b+o

/-- What holds after some hops that started with `f` claimed in `t`. -/
structure Hopped (S : Scheme ε κ π) (n : ℕ) (stale : Set (ℕ × ℕ)) (t : Table ε) (f f' : ℕ) (t' : Table ε) :
    Prop where
  wf : WF S n stale {f'} t'
  le : f' ≤ f
  maps : ∀ k v, Maps S t' k v ↔ Maps S t k v
  behind : StaleBehind stale t' f'
  fresh : f' < f → ∀ b o, (b,o) ∈ stale → b+o ≠ f'

theorem Hopped.step {f'' : ℕ} {t'' : Table ε} (h : Hopped S n stale t f f' t') (hf : 32 ≤ f')
    (hh : hop S.relocate t' f' = .moved f'' t'') : Hopped S n stale t f f'' t'' ∧ f'' < f' ∧ f' < f''+32 := by
  obtain ⟨b,o,d,e,⟨rfl,hod,hd,hbit⟩,he,rfl,rfl⟩ := hop_moved hf hh
  have hstale : (b,o) ∉ stale := fun hs => by
    have := h.behind b o e hs he
    omega
  have hhome := h.wf.home_of_bit hbit hstale he
  have hbusy : t'.slot (b+d) = .busy := (h.wf.busy _).mpr rfl
  have hwf := h.wf.relocate rfl hod hd hbit hhome he
  rw [Set.sdiff_self,insert_empty_eq] at hwf
  have hle := h.le
  refine ⟨⟨hwf,by omega,?_,?_,?_⟩,by omega,by omega⟩
  · intro k v
    rw [Maps.relocate hbusy hod he,h.maps]
  · intro b' o' e' hs he'
    rw [relocateEntry_slot] at he'
    split at he'
    · cases he'
    · split at he'
      · omega
      · have := h.behind b' o' e' hs he'
        omega
  · intro _ b' o' hs hx
    have := h.behind b' o' e hs (by rw [hx]; exact he)
    omega

/-- The empty slot ends in the neighbourhood, or in front of an empty slot that a
stale bit points to. -/
theorem Hopped.hops : ∀ (fuel : ℕ) {f : ℕ} {t : Table ε},
    Hopped S n stale t0 f0 f t → b ≤ f →
    match bringLoop S.relocate b fuel t f with
    | .ready f' t' => Hopped S n stale t0 f0 f' t' ∧ b ≤ f' ∧ f' < b+32
    | .hole f' t' => Hopped S n stale t0 f0 f' t' ∧ b+32 ≤ f' ∧ ∃ b' o', (b',o') ∈ stale ∧ t'.bit b' o' = true
    | .stuck => True := by
  intro fuel
  induction fuel with
  | zero =>
    intro f t _ _
    trivial
  | succ fuel ih =>
    intro f t h hb
    rw [bringLoop]
    by_cases hle : f-b < 32
    · rw [if_pos hle]
      exact ⟨h,hb,by omega⟩
    · rw [if_neg hle]
      cases hh : hop S.relocate t f with
      | moved f' t' =>
        obtain ⟨h',hlt,hback⟩ := h.step (by omega) hh
        exact ih h' (by omega)
      | hole =>
        obtain ⟨b',o',d,⟨-,-,-,hbit⟩,hne⟩ := hop_hole (by omega) hh
        refine ⟨h,by omega,b',o',?_,hbit⟩
        rcases h.wf.registered b' o' hbit with hs | ⟨e,he,-⟩
        · exact hs
        · exact absurd he (hne e)
      | stuck => trivial

theorem Hopped.claim (h : WF S n stale ∅ t) (hf : f < n) (hnull : t.slot f = .null)
    (hbehind : StaleBehind stale t f) : Hopped S n stale t f f (t.setSlot f .busy) := by
  have hslot : ∀ j e, (t.setSlot f .busy).slot j = .entry e ↔ t.slot j = .entry e := by
    intro j e
    by_cases hj : j = f
    · subst hj
      simp [hnull]
    · rw [setSlot_of_ne _ hj]
  have hwf := h.claim hf hnull
  rw [insert_empty_eq] at hwf
  refine ⟨hwf,le_rfl,?_,?_,by simp⟩
  · intro k v
    simp only [Maps,hslot]
  · intro b' o' e hs he
    exact hbehind b' o' e hs ((hslot _ _).mp he)

theorem Hopped.ready (h : Hopped S n stale t0 f0 f t) (hb : b ≤ f)
    (hr : bring S.relocate t b f = .ready f' t') : Hopped S n stale t0 f0 f' t' ∧ b ≤ f' ∧ f' < b+32 := by
  rw [Hopscotch.bring] at hr
  simpa only [hr] using Hopped.hops (f+1) h hb

theorem Hopped.hole (h : Hopped S n stale t0 f0 f t) (hb : b ≤ f)
    (hr : bring S.relocate t b f = .hole f' t') :
    Hopped S n stale t0 f0 f' t' ∧ b+32 ≤ f' ∧ ∃ b' o', (b',o') ∈ stale ∧ t'.bit b' o' = true := by
  rw [Hopscotch.bring] at hr
  simpa only [hr] using Hopped.hops (f+1) h hb

end Bring

end FarMemory.Hopscotch
