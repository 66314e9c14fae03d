import FarMemory.SkiplistRefinement

/-!
# The height of the skip list and the array of level traces

Only an insertion has an array for the level traces, with `kMaxLevels` places. A search
writes one trace for each level, the lowest included, and an insertion can add
levels until there are `kMaxLevels` above the lowest.
-/
namespace FarMemory.LocalSkiplist
open Execution

section
variable {T α β : Type}

/-- Nothing is written behind the end of the array. -/
def Within (x : Except Fault α) : Prop := x ≠ .error .overrun

theorem within_ok (a : α) : Within (.ok a) := fun h => by cases h

theorem Within.bind {x : Except Fault α} {f : α → Except Fault β} (hx : Within x) (hf : ∀ a, Within (f a)) : Within (x >>= f) := by
  cases x with
  | error e => exact fun heq => hx (by cases heq; rfl)
  | ok a => exact hf a

theorem within_entry (s : Skiplist T) (a : ℕ) : Within (s.entry a) := by
  rw [Skiplist.entry]
  split <;> exact fun h => by cases h

theorem within_nonNull (p : Option ℕ) : Within (Skiplist.nonNull p) := by
  cases p <;> exact fun h => by cases h

theorem within_modify (s : Skiplist T) (a : ℕ) (f : Entry → Entry) : Within (s.modify a f) :=
  (within_entry s a).bind fun _ => within_ok _

theorem within_free (s : Skiplist T) (core a size : ℕ) : Within (s.free core a size) := by
  rw [Skiplist.free]
  split <;> exact fun h => by cases h

theorem within_bypass (s : Skiplist T) (p : ℕ) : Within (s.bypass p) := by
  refine (within_entry s p).bind fun e => ?_
  cases e.down with
  | none =>
    cases e.up with
    | none => exact within_ok _
    | some u => exact within_modify _ _ _
  | some d =>
    refine (within_modify _ _ _).bind fun s => ?_
    cases e.up with
    | none => exact within_ok _
    | some u => exact within_modify _ _ _

theorem within_unlink (s : Skiplist T) (core ptr : ℕ) : Within (s.unlink core ptr) := by
  refine (within_entry s ptr).bind fun e => (within_nonNull _).bind fun left => (within_nonNull _).bind fun right =>
    (within_modify _ _ _).bind fun s => (within_modify _ _ _).bind fun s => (within_entry _ _).bind fun l =>
    (within_entry _ _).bind fun r => ?_
  split
  · exact (within_bypass _ _).bind fun s => (within_bypass _ _).bind fun s => (within_free _ _ _ _).bind fun s =>
      within_free _ _ _ _
  · exact within_ok _

theorem within_removeLoop (core : ℕ) : ∀ (fuel ptr : ℕ) (s : Skiplist T), Within (Skiplist.removeLoop core fuel ptr s) := by
  intro fuel
  induction fuel with
  | zero => exact fun _ _ h => by cases h
  | succ fuel ih =>
    intro ptr s
    refine (within_unlink s core ptr).bind fun s => (within_entry _ _).bind fun e => (within_free _ _ _ _).bind fun s => ?_
    cases e.up with
    | none => exact within_ok _
    | some up => exact ih up s

variable [LinearOrder T]

theorem within_isSmaller (s : Skiplist T) (key : T) (b : ℕ) : Within (s.isSmaller key b) := by
  rw [Skiplist.isSmaller]
  split
  · exact nofun
  · split <;> exact nofun

theorem within_isEqual (s : Skiplist T) (key : T) (b : ℕ) : Within (s.isEqual key b) := by
  rw [Skiplist.isEqual]
  split
  · exact nofun
  · split <;> exact nofun

/-- A search that records nothing, whatever the memory holds. -/
theorem within_findLoop (s : Skiplist T) (key : T) : ∀ (fuel cur : ℕ) (traces : List ℕ), Within (s.findLoop key none fuel cur traces) := by
  intro fuel
  induction fuel with
  | zero => exact fun _ _ h => by cases h
  | succ fuel ih =>
    intro cur traces
    refine (within_entry s cur).bind fun e => Within.bind ?_ fun b => ?_
    · rw [Skiplist.stops]
      split
      · exact within_ok _
      · exact (within_entry _ _).bind fun _ => within_isSmaller _ _ _
    · cases b with
      | true =>
        refine Within.bind (within_ok _) fun traces => ?_
        cases e.down with
        | none => exact within_ok _
        | some d => exact ih d traces
      | false => exact (within_nonNull _).bind fun r => ih r traces

theorem within_exist (s : Skiplist T) (key : T) : Within (s.exist key) :=
  (within_findLoop s key _ _ _).bind fun _ => (within_entry _ _).bind fun _ => within_isEqual _ _ _

theorem within_remove (s : Skiplist T) (core : ℕ) (key : T) : Within (s.remove core key) := by
  refine (within_findLoop s key _ _ _).bind fun _ => (within_entry _ _).bind fun _ => (within_isEqual _ _ _).bind fun b => ?_
  cases b with
  | true => exact (within_free _ _ _ _).bind fun s => (within_removeLoop _ _ _ _).bind fun _ => within_ok _
  | false => exact within_ok _

/-- In every run in which no insertion finds `kMaxLevels` levels above the lowest and no removal takes the
only key of the top level, the next insertion writes behind the array exactly if there are that many
levels; `exist` and `remove` have no array. -/
theorem traces_within_array {itemSize base len core : ℕ} {init s : Skiplist T}
    (hnew : Skiplist.new itemSize base len core = .ok init) {tr : List (Op T × Bool)} (htr : Trace step Admissible init tr s) :
    (∀ core coins key, perform s (.insert core coins key) = .error .overrun ↔ kMaxLevels ≤ s.levels) ∧
      (∀ key, perform s (.exist key) ≠ .error .overrun) ∧ ∀ core key, perform s (.remove core key) ≠ .error .overrun := by
  obtain ⟨G,hG,-⟩ := Refines.run hnew htr
  refine ⟨fun core coins key => ⟨fun he => ?_,fun hfull => ?_⟩,fun key he => ?_,within_remove s⟩
  · by_contra hlt
    rcases hG.insert (not_le.mp hlt) core coins key with hno | ⟨s',G',hok,-⟩
    · cases hno.symm.trans he
    · cases hok.symm.trans he
  · simp only [perform,Skiplist.insert,hG.findClosest_overrun key hfull,bind_error]
  · refine within_exist s key ?_
    rcases hex : s.exist key with e | b
    · rw [perform,hex] at he
      cases he
      rfl
    · rw [perform,hex] at he
      cases he

end

theorem traces_within_array_one_level : ∃ (init : Skiplist ℕ) (tr : List (Op ℕ × Bool)) (s : Skiplist ℕ),
    Skiplist.new 48 0 1024 0 = .ok init ∧ Trace step Admissible init tr s ∧ s.levels = 1 ∧
      ∀ core coins key, perform s (.insert core coins key) ≠ .error .overrun := by
  obtain ⟨init,outs,s,hnew,htr,hobs⟩ := exec_new 48 0 1024 0 Admissible [.insert 0 (fun level => level == 0) 7]
    (f := fun r => r.2.levels) (x := 1) (by decide +kernel)
  refine ⟨init,_,s,hnew,htr,hobs,fun core coins key he => ?_⟩
  have hfull := ((traces_within_array hnew htr).1 core coins key).mp he
  rw [show s.levels = 1 from hobs,kMaxLevels] at hfull
  omega

/-- Sixteen heads in a row, and the next insertion writes a seventeenth trace. -/
theorem insert_overruns : ∃ (init : Skiplist ℕ) (tr : List (Op ℕ × Bool)) (s : Skiplist ℕ),
    Skiplist.new 48 0 4096 0 = .ok init ∧ Trace step Admissible init tr s ∧ s.levels = kMaxLevels ∧
      perform s (.insert 0 (fun _ => false) 7) = .error .overrun := by
  obtain ⟨init,outs,s,hnew,htr,hobs⟩ := exec_new 48 0 4096 0 Admissible [.insert 0 (fun _ => true) 5]
    (f := fun r => (r.2.levels,(perform r.2 (.insert 0 (fun _ => false) 7)).map Prod.fst)) (x := (kMaxLevels,.error .overrun))
    (by decide +kernel)
  obtain ⟨hlevels,hover⟩ := Prod.ext_iff.mp hobs
  dsimp only at hover
  refine ⟨init,_,s,hnew,htr,hlevels,?_⟩
  rcases hp : perform s (.insert 0 (fun _ => false) 7) with e | r
  · rw [hp] at hover
    cases hover
    rfl
  · rw [hp] at hover
    cases hover

end FarMemory.LocalSkiplist
