import FarMemory.RuntimeSteps

/-!
# A unique pointer is a memory cell

The abstract machine has one optional value per pointer and no runtime: it only
looks at the labels and outcomes of a run. The concrete run refines it. A cell
that holds a value can be read back through its pointer, whatever the collector,
the swap-ins and the migrations have done in between; the only other outcome of a
read is to wait, and then no region is free.

The runs use unique pointers only and move them into null pointers. The bytes of a
fresh object count as written, since they are what a first read returns.
-/
namespace FarMemory.UniqueCell
open PointerMeta FarMemPtrMeta Regions ServerPtr Execution PointerRuntime RuntimeInvariant State Function

/-- One plain memory cell per pointer. -/
def Cells : Type := ℕ → Option (List UInt8)

namespace Cells

def empty : Cells := fun _ => none

def set (c : Cells) (p : ℕ) (v : Option (List UInt8)) : Cells := fun q => if q = p then v else c q

def follow (c : Cells) : Op × Outcome → Cells
  | (.allocate _ _ p bytes,.done) => c.set p (some bytes)
  | (.write _ _ p bytes,.done) => c.set p (some bytes)
  | (.reallocate _ p bytes,.done) => c.set p (some bytes)
  | (.move this other,.done) => (c.set this (c other)).set other none
  | (.free _ _ p,.done) => c.set p none
  | _ => c

theorem set_eq_some {c : Cells} {p q : ℕ} {v : Option (List UInt8)} {w : List UInt8}
    (h : c.set p v q = some w) : (q = p ∧ v = some w) ∨ (q ≠ p ∧ c q = some w) := by
  unfold set at h
  split at h
  · exact .inl ⟨‹_›,h⟩
  · exact .inr ⟨‹_›,h⟩

end Cells

def UniqueOp (s : State) : Op → Prop
  | .allocate _ shared _ _ => shared = false
  | .move this other => (s.word this).isNull = true ∧ (s.word other).isShared = false
  | .copy .. => False
  | _ => True

instance (s : State) : (op : Op) → Decidable (UniqueOp s op)
  | .allocate _ shared _ _ => inferInstanceAs (Decidable (shared = false))
  | .move _ _ => inferInstanceAs (Decidable (_ = true ∧ _ = false))
  | .copy .. => .isFalse id
  | .read .. | .write .. | .flush _ | .evacuate _ | .swapIn .. | .free .. | .reallocate .. | .gcMark _ | .gcWriteBack ..
  | .gcRecycle => .isTrue trivial

theorem UniqueOp.safe {s : State} {op : Op} (h : UniqueOp s op) : Safe s op := by
  cases op with
  | move this other =>
    refine ⟨isPresent_of_isNull h.1,.inl h.1,fun hs => ?_⟩
    rw [h.2] at hs
    cases hs
  | copy core this other => exact h.elim
  | _ => trivial

/-- Every id has at most one pointer, and a known value if it has one. -/
structure Owned (G : Ghost) : Prop where
  single : ∀ id p q, p ∈ G.ring id → q ∈ G.ring id → p = q
  valued : ∀ id p, p ∈ G.ring id → ∃ v, G.value id = some v

def Holds (G : Ghost) (c : Cells) : Prop :=
  ∀ p v, c p = some v → ∃ id, p ∈ G.ring id ∧ G.value id = some v

section Step
variable {s : State} {G G' : Ghost} {c : Cells} {count farCount : ℕ}

/-- A free never loses the value of another pointer. -/
theorem Owned.freeKeeps (ho : Owned G) (h : RunInv count farCount s G) (p : ℕ) : FreeKeeps s p := by
  intro hsh _ _
  have hnull : (s.word p).isNull = false := by
    cases hn : (s.word p).isNull with
    | false => rfl
    | true => rw [isShared_of_isNull hn] at hsh; cases hsh
  obtain ⟨id,hp⟩ := h.inv.groups.member p hnull
  have hg := h.inv.groups.group id (Groups.ne_nil hp)
  have hperm := hg.members hp
  -- a nodup list whose members all equal p
  have hone : G.ring id = [p] := by
    have hrep := List.eq_replicate_of_mem fun q hq => ho.single id q p hq hp
    have hlen : (G.ring id).length ≤ 1 := by
      have hn := hg.nodup
      rw [hrep] at hn
      exact List.nodup_replicate.mp hn
    have hpos := List.length_pos_of_mem hp
    rw [hrep,show (G.ring id).length = 1 by omega]
    rfl
  rw [hone] at hperm
  exact .inl (List.perm_singleton.mp hperm)

theorem Owned.step (ho : Owned G) (h : RunInv count farCount s G) {op : Op} {out : Outcome}
    (hop : UniqueOp s op) (he : Effect s G G' op out) : Owned G' := by
  have hsame : G'.ring = G.ring ∧ G'.value = G.value → Owned G' := fun hx =>
    ⟨by rw [hx.1]; exact ho.single,by rw [hx.1,hx.2]; exact ho.valued⟩
  cases op with
  | allocate core shared p bytes =>
    cases out with
    | done =>
      obtain ⟨id,-,hring,hvalue⟩ := he
      refine ⟨fun id' q q' hq hq' => ?_,fun id' q hq => ?_⟩
      all_goals by_cases hid : id' = id
      · subst hid
        rw [hring,update_self,List.mem_singleton] at hq hq'
        rw [hq,hq']
      · rw [hring,update_of_ne hid] at hq hq'
        exact ho.single id' q q' hq hq'
      · exact ⟨bytes,by rw [hvalue,hid,update_self]⟩
      · rw [hring,update_of_ne hid] at hq
        rw [hvalue,update_of_ne hid]
        exact ho.valued id' q hq
    | _ => exact hsame he
  | write core nt p bytes =>
    cases out with
    | done =>
      obtain ⟨id,-,hring,hvalue⟩ := he
      refine ⟨by rw [hring]; exact ho.single,fun id' q hq => ?_⟩
      by_cases hid : id' = id
      · exact ⟨bytes,by rw [hvalue,hid,update_self]⟩
      · rw [hring] at hq
        rw [hvalue,update_of_ne hid]
        exact ho.valued id' q hq
    | _ => exact hsame he
  | move this other =>
    cases out with
    | done =>
      obtain ⟨hvalue,hring⟩ := he
      refine ⟨fun id q q' hq hq' => ?_,fun id q hq => ?_⟩
      · rcases (hring id q).mp hq with ⟨-,hqo,hm⟩ | ⟨rfl,-,hm⟩ <;>
          rcases (hring id q').mp hq' with ⟨-,hqo',hm'⟩ | ⟨rfl,-,hm'⟩
        · exact ho.single id q q' hm hm'
        · exact absurd (ho.single id q other hm hm') hqo
        · exact absurd (ho.single id q' other hm' hm) hqo'
        · rfl
      · rw [hvalue]
        rcases (hring id q).mp hq with ⟨-,-,hm⟩ | ⟨-,-,hm⟩
        · exact ho.valued id q hm
        · exact ho.valued id other hm
    | _ => exact hsame he
  | free core trivial p =>
    cases out with
    | done =>
      obtain ⟨hring,hp,hkeep,-⟩ := he
      have hsub : ∀ id q, q ∈ G'.ring id → q ∈ G.ring id := by
        intro id q hq
        by_cases hqp : q = p
        · subst hqp
          exact hp id hq
        · exact (hring id q hqp).mp hq
      refine ⟨fun id q q' hq hq' => ho.single id q q' (hsub id q hq) (hsub id q' hq'),?_⟩
      intro id q hq
      rw [hkeep (ho.freeKeeps h p)]
      exact ho.valued id q (hsub id q hq)
    | _ => exact hsame he
  | reallocate core p bytes =>
    cases out with
    | done =>
      obtain ⟨id',hring,hout,hvalue⟩ := he
      refine ⟨fun id q q' hq hq' => ?_,fun id q hq => ?_⟩
      · rcases (hring id q).mp hq with ⟨hqp,hm⟩ | ⟨rfl,rfl⟩ <;>
          rcases (hring _ q').mp hq' with ⟨hqp',hm'⟩ | ⟨rfl,hid⟩
        · exact ho.single id q q' hm hm'
        · exact absurd (hid ▸ hm) (hout q hqp)
        · exact absurd hm' (hout q' hqp')
        · rfl
      · by_cases hid : id = id'
        · exact ⟨bytes,by rw [hvalue,hid,update_self]⟩
        · rw [hvalue,update_of_ne hid]
          rcases (hring id q).mp hq with ⟨-,hm⟩ | ⟨-,hx⟩
          · exact ho.valued id q hm
          · exact absurd hx hid
    | _ => exact hsame he
  | copy core this other => exact hop.elim
  | _ => exact hsame he

theorem Holds.set (hc : Holds G c) {p id : ℕ} {bytes : List UInt8} (hp : p ∈ G'.ring id)
    (hring : ∀ id' q, q ≠ p → q ∈ G.ring id' → q ∈ G'.ring id' ∧ id' ≠ id)
    (hvalue : G'.value = update G.value id (some bytes)) : Holds G' (c.set p (some bytes)) := by
  intro q v hq
  rcases Cells.set_eq_some hq with ⟨rfl,hv⟩ | ⟨hqp,hv⟩
  · exact ⟨id,hp,by rw [hvalue,update_self,hv]⟩
  · obtain ⟨id',hm,hval⟩ := hc q v hv
    obtain ⟨hm',hne⟩ := hring id' q hqp hm
    exact ⟨id',hm',by rw [hvalue,update_of_ne hne,hval]⟩

theorem Holds.step (hc : Holds G c) (ho : Owned G) (h : RunInv count farCount s G) {op : Op}
    {out : Outcome} (hop : UniqueOp s op) (he : Effect s G G' op out) :
    Holds G' (c.follow (op,out)) := by
  have hsame : G'.ring = G.ring ∧ G'.value = G.value → Holds G' c := by
    intro hx
    unfold Holds
    rw [hx.1,hx.2]
    exact hc
  cases op with
  | allocate core shared p bytes =>
    cases out with
    | done =>
      obtain ⟨id,hempty,hring,hvalue⟩ := he
      refine hc.set (by rw [hring,update_self]; simp) (fun id' q hq hm => ?_) hvalue
      have hne : id' ≠ id := by
        rintro rfl
        rw [hempty] at hm
        cases hm
      exact ⟨by rwa [hring,update_of_ne hne],hne⟩
    | _ => exact hsame he
  | write core nt p bytes =>
    cases out with
    | done =>
      obtain ⟨id,hp,hring,hvalue⟩ := he
      refine hc.set (by rwa [hring]) (fun id' q hq hm => ⟨by rwa [hring],?_⟩) hvalue
      rintro rfl
      exact hq (ho.single id' q p hm hp)
    | _ => exact hsame he
  | reallocate core p bytes =>
    cases out with
    | done =>
      obtain ⟨id,hring,hout,hvalue⟩ := he
      refine hc.set ((hring id p).mpr (.inr ⟨rfl,rfl⟩)) (fun id' q hq hm => ?_) hvalue
      refine ⟨(hring id' q).mpr (.inl ⟨hq,hm⟩),?_⟩
      rintro rfl
      exact hout q hq hm
    | _ => exact hsame he
  | move this other =>
    cases out with
    | done =>
      obtain ⟨hvalue,hring⟩ := he
      intro q v hq
      rcases Cells.set_eq_some hq with ⟨-,hv⟩ | ⟨hqo,hq⟩
      · cases hv
      rcases Cells.set_eq_some hq with ⟨rfl,hv⟩ | ⟨hqt,hv⟩
      · obtain ⟨id,hm,hval⟩ := hc other v hv
        exact ⟨id,(hring id q).mpr (.inr ⟨rfl,hqo,hm⟩),by rw [hvalue,hval]⟩
      · obtain ⟨id,hm,hval⟩ := hc q v hv
        exact ⟨id,(hring id q).mpr (.inl ⟨hqt,hqo,hm⟩),by rw [hvalue,hval]⟩
    | _ => exact hsame he
  | free core trivial p =>
    cases out with
    | done =>
      obtain ⟨hring,-,hkeep,-⟩ := he
      intro q v hq
      rcases Cells.set_eq_some hq with ⟨-,hv⟩ | ⟨hqp,hv⟩
      · cases hv
      obtain ⟨id,hm,hval⟩ := hc q v hv
      exact ⟨id,(hring id q hqp).mpr hm,by rw [hkeep (ho.freeKeeps h p),hval]⟩
    | _ => exact hsame he
  | copy core this other => exact hop.elim
  | _ => exact hsame he

end Step

/-! ### Whole runs -/

/-- What is kept between a runtime state and the cells. -/
def Refines (count farCount : ℕ) (s : State) (c : Cells) : Prop :=
  ∃ G, RunInv count farCount s G ∧ Owned G ∧ Holds G c

theorem refines_run {cfg : Config} {tr : List (Op × Outcome)} {s : State}
    (h : Trace step UniqueOp (State.init cfg) tr s) :
    Refines cfg.count cfg.farCount s (tr.foldl Cells.follow Cells.empty) := by
  refine h.simulation ?_ ?_
  · refine ⟨Ghost.init,RunInv.init cfg,⟨?_,?_⟩,?_⟩
    · intro id p q hp
      cases hp
    · intro id p hp
      cases hp
    · intro p v hv
      cases hv
  · rintro s c op out s' hop ⟨G,hr,ho,hc⟩ hstep
    obtain ⟨G',hr',he⟩ := step_effect hr op hop.safe hstep
    exact ⟨G',hr',ho.step hr hop he,hc.step ho hr hop he⟩

/-- Reads return the last value written, a clean object equals its remote copy, and
present pointers refer to objects in regions that are neither free nor about to be
recycled. -/
theorem unique_ptr_is_cell {cfg : Config} {tr : List (Op × Outcome)} {s : State}
    (h : Trace step UniqueOp (State.init cfg) tr s) :
    (∀ p v core nt, tr.foldl Cells.follow Cells.empty p = some v →
      ∃ s', step s (.read core nt p) = some (.value v,s') ∨
        step s (.read core nt p) = some (.wait,s') ∧ s.cache.freeRegions = []) ∧
    (∀ p, (s.word p).isPresent = true → (s.word p).isDirty = false →
      ∃ o, s.heap (s.word p).getObjectAddr = some o ∧ readObject s.remote o.objId = o.data) ∧
    ∀ p, (s.word p).isPresent = true → ∃ i off o, i < cfg.count ∧ off < kSize ∧
      (s.word p).getObjectAddr = s.cache.addr i off ∧ s.heap (s.word p).getObjectAddr = some o ∧
      o.isFreed = false ∧ i ∉ s.cache.freeRegions ∧ (s.phase = .writtenBack → i ∉ s.fromRegions) := by
  obtain ⟨G,hr,ho,hc⟩ := refines_run h
  refine ⟨?_,?_,fun p hpr => hr.placed hpr⟩
  · intro p v core nt hv
    obtain ⟨id,hp,hval⟩ := hc p v hv
    exact read_value hr hp hval
  · intro p hpr hclean
    obtain ⟨id,hp⟩ := hr.inv.groups.member p (isNull_of_isPresent hpr)
    obtain ⟨o,hl⟩ := hr.inv.groups.localOf hp hpr
    obtain ⟨v,hv⟩ := ho.valued id p hp
    refine ⟨o,hl.object,?_⟩
    obtain ⟨hdata,hremote⟩ := hl.value v hv
    rw [hl.objId,hdata]
    refine hremote fun q hq => ?_
    rw [ho.single id q p hq hp]
    exact hclean

theorem unique_ptr_is_cell_moved : ∃ s, ∃ tr, Trace step UniqueOp (State.init Config.small) tr s ∧
    ∃ s', step s (.read 0 false 1) = some (.value [3,4],s') ∨
      step s (.read 0 false 1) = some (.wait,s') ∧ s.cache.freeRegions = [] := by
  have hrun : (exec step UniqueOp (State.init Config.small)
      [.allocate 0 false 0 [1,2],.write 0 false 0 [3,4],.evacuate 0,.move 1 0,.swapIn 0 false 1]).map
        Prod.fst = some [.done,.done,.done,.done,.done] := by
    decide
  obtain ⟨_,s,ht,rfl⟩ := exec_observe hrun
  exact ⟨s,_,ht,(unique_ptr_is_cell ht).1 1 [3,4] 0 false rfl⟩

end FarMemory.UniqueCell
