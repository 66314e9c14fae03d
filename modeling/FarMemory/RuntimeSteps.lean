import FarMemory.RuntimeOwnership
import FarMemory.Execution

/-!
# What a step of the runtime can do

`step_effect` says once, for every operation, how the rings and the values of the
ids change; every property of whole runs is derived from it. It covers the
operations that respect ownership (`Safe`): a move goes into a pointer that holds
no local object and no place in a ring, a shared source is local, and a copy goes
into a null pointer. All other operations are always safe.

A free can lose the bytes of an object that still has sharers, if the freed
pointer was the only dirty one; `FreeKeeps` is the condition under which it does
not.
-/
namespace FarMemory.RuntimeInvariant
open PointerMeta FarMemPtrMeta Regions RingLinks ServerPtr PointerRuntime State Function

variable {s s' : State} {G : Ghost} {count farCount : ℕ} {p id : ℕ}

structure RunInv (count farCount : ℕ) (s : State) (G : Ghost) : Prop where
  inv : Inv count farCount s G
  phase : PhaseOk s G

theorem RunInv.keeps {G' : Ghost} (h : RunInv count farCount s G) (h' : Inv count farCount s' G')
    (hk : Keeps s s' G G') : RunInv count farCount s' G' :=
  ⟨h',h.phase.keeps hk⟩

/-- Freeing this pointer does not lose bytes that a sharer still needs. -/
def FreeKeeps (s : State) (p : ℕ) : Prop :=
  (s.word p).isShared = true → (s.word p).isPresent = true → (s.word p).isDirty = true →
    s.members p = [p] ∨ ∃ q ∈ s.members p, q ≠ p ∧ (s.word q).isDirty = true

def Safe (s : State) : Op → Prop
  | .move this other => (s.word this).isPresent = false ∧
      ((s.word this).isNull = true ∨ (s.word this).isShared = false) ∧
      ((s.word other).isShared = true → (s.word other).isPresent = true)
  | .copy _ this _ => (s.word this).isNull = true
  | _ => True

def Effect (s : State) (G G' : Ghost) : Op → Outcome → Prop
  | .allocate _ _ p bytes,.done => ∃ id, G.ring id = [] ∧ G'.ring = update G.ring id [p] ∧
      G'.value = update G.value id (some bytes)
  | .write _ _ p bytes,.done => ∃ id, p ∈ G.ring id ∧ G'.ring = G.ring ∧
      G'.value = update G.value id (some bytes)
  | .move this other,.done => G'.value = G.value ∧ ∀ id q, q ∈ G'.ring id ↔
      (q ≠ this ∧ q ≠ other ∧ q ∈ G.ring id) ∨ (q = this ∧ this ≠ other ∧ other ∈ G.ring id)
  | .copy _ this other,.done => G'.value = G.value ∧ ∀ id q, q ∈ G'.ring id ↔
      q ∈ G.ring id ∨ (q = this ∧ other ∈ G.ring id)
  | .free _ _ p,.done => (∀ id q, q ≠ p → (q ∈ G'.ring id ↔ q ∈ G.ring id)) ∧
      (∀ id, p ∈ G'.ring id → p ∈ G.ring id) ∧ (FreeKeeps s p → G'.value = G.value) ∧
      (∀ id, p ∉ G.ring id → G'.value id = G.value id) ∧
      ((s.word p).isShared = true → ∀ id, p ∉ G'.ring id)
  | .reallocate _ p bytes,.done => ∃ id', (∀ id q, q ∈ G'.ring id ↔
        (q ≠ p ∧ q ∈ G.ring id) ∨ (q = p ∧ id = id')) ∧ (∀ q, q ≠ p → q ∉ G.ring id') ∧
      G'.value = update G.value id' (some bytes)
  | _,_ => G'.ring = G.ring ∧ G'.value = G.value

theorem RunInv.not_mem_of_isNull (h : RunInv count farCount s G) {q : ℕ} (hn : (s.word q).isNull = true)
    (id : ℕ) : q ∉ G.ring id := by
  intro hm
  rw [(h.inv.groups.group id (Groups.ne_nil hm)).notNull hm] at hn
  cases hn

theorem RunInv.live_mem (h : RunInv count farCount s G) (hl : s.live p = true) :
    ∃ id, p ∈ G.ring id := by
  simp only [State.live,Bool.and_eq_true,Bool.not_eq_true'] at hl
  exact h.inv.groups.member p hl.2

/-- An operation behind a dereference either waits, because no region is free, or
continues at the object of its group. -/
theorem RunInv.withDeref (h : RunInv count farCount s G) {core : ℕ} {isMut nt : Bool}
    {k : ℕ → Object → State → Option (Outcome × State)} {out : Outcome} (hp : p ∈ G.ring id)
    (he : s.withDeref core isMut nt p k = some (out,s')) :
    ∃ s1 G1, RunInv count farCount s1 G1 ∧ Keeps s s1 G G1 ∧
      ((out = .wait ∧ s' = s1 ∧ s.cache.freeRegions = []) ∨
        ∃ o, Local s1 G1 id (G1.ring id) (s1.word p).getObjectAddr o ∧ (s1.word p).isPresent = true ∧
          (∀ q ∈ G.ring id, (s1.word q).isDirty =
            (decide (q = p) && isMut || (s.word p).isPresent && (s.word q).isDirty)) ∧
          k (s1.word p).getObjectAddr o s1 = some (out,s')) := by
  unfold State.withDeref at he
  rcases hd : s.deref core isMut nt p with ⟨r,s1⟩
  obtain ⟨G1,h1,hk,hcase⟩ := h.inv.deref hp core isMut nt hd
  refine ⟨s1,G1,h.keeps h1 hk,hk,?_⟩
  rcases hcase with ⟨rfl,hfree,-⟩ | ⟨d,rfl,hpr,haddr,hdirty⟩
  · simp only [hd,Option.some.injEq,Prod.mk.injEq] at he
    exact .inl ⟨he.1.symm,he.2.symm,hfree⟩
  · obtain ⟨o,hl⟩ := h1.groups.localOf (by rwa [hk.ring]) hpr
    simp only [hd,haddr,hl.object,Option.bind_some] at he
    exact .inr ⟨o,hl,hpr,hdirty,he⟩

/-- Whether `_deref` returns does not depend on what the operation does next. -/
theorem RunInv.withDeref_some (h : RunInv count farCount s G) (core : ℕ) (isMut nt : Bool)
    (k : ℕ → Object → State → Option (Outcome × State)) (hp : p ∈ G.ring id)
    (hk : ∀ a o s1, ∃ r, k a o s1 = some r) : ∃ r, s.withDeref core isMut nt p k = some r := by
  unfold State.withDeref
  rcases hd : s.deref core isMut nt p with ⟨r,s1⟩
  obtain ⟨G1,h1,hkeep,hcase⟩ := h.inv.deref hp core isMut nt hd
  rcases hcase with ⟨rfl,-,-⟩ | ⟨d,rfl,hpr,haddr,-⟩
  · exact ⟨_,rfl⟩
  · obtain ⟨o,hl⟩ := h1.groups.localOf (by rwa [hkeep.ring]) hpr
    simp only [haddr,hl.object,Option.bind_some]
    exact hk _ _ _

theorem finish_some {r : Option (Bool × State)} {no out : Outcome} (h : finish r no = some (out,s')) :
    ∃ ok, r = some (ok,s') ∧ out = if ok then .done else no := by
  unfold finish at h
  obtain ⟨⟨ok,s1⟩,hr,⟨⟩⟩ := Option.map_eq_some_iff.mp h
  exact ⟨ok,hr,rfl⟩

section Steps
variable {core p : ℕ} {out : Outcome} {bytes : List UInt8} {nt trivial : Bool} {id this other : ℕ} {k : List ℕ}

section
variable (h : RunInv count farCount s G)
include h

theorem allocate_effect {shared : Bool}
    (he : step s (.allocate core shared p bytes) = some (out,s')) :
    ∃ G', RunInv count farCount s' G' ∧ Effect s G G' (.allocate core shared p bytes) out := by
  obtain ⟨hc,he⟩ := Option.ite_none_right_eq_some.mp he
  obtain ⟨ok,hr,rfl⟩ := finish_some he
  have hfit : sizeFor bytes.length ≤ 65528 := of_decide_eq_true hc.2.2
  rcases h.inv.allocate core shared hc.1 hc.2.1 hfit hr with ⟨rfl,hi,hk,-⟩ |
    ⟨rfl,id,L,F,hid,hi,hfrom,hphase,hbase,hL⟩
  · exact ⟨G,h.keeps hi hk,rfl,rfl⟩
  · exact ⟨_,⟨hi,h.phase.regions hphase hfrom hbase hL rfl rfl⟩,id,hid,rfl,rfl⟩

theorem read_effect
    (he : step s (.read core nt p) = some (out,s')) :
    ∃ G', RunInv count farCount s' G' ∧ Effect s G G' (.read core nt p) out := by
  obtain ⟨hl,he⟩ := Option.ite_none_right_eq_some.mp he
  obtain ⟨id,hp⟩ := h.live_mem hl
  obtain ⟨s1,G1,h1,hk,⟨rfl,rfl,-⟩ | ⟨o,-,-,-,hkont⟩⟩ := h.withDeref hp he
  · exact ⟨G1,h1,hk.ring,hk.value⟩
  · cases hkont
    exact ⟨G1,h1,hk.ring,hk.value⟩

/-- Reading a pointer whose id has a value gives that value, unless there is no
local memory to swap it in. -/
theorem read_value (hp : p ∈ G.ring id)
    {v : List UInt8} (hv : G.value id = some v) :
    ∃ s', step s (.read core nt p) = some (.value v,s') ∨
      step s (.read core nt p) = some (.wait,s') ∧ s.cache.freeRegions = [] := by
  have hg := h.inv.groups.group id (Groups.ne_nil hp)
  have hlive : s.live p = true := by
    simp [State.live,hg.bound p hp,hg.notNull hp]
  obtain ⟨⟨out,s'⟩,hr⟩ := h.withDeref_some core false nt
    (fun _ o s' => some (.value o.data,s')) hp (fun _ _ _ => ⟨_,rfl⟩)
  refine ⟨s',?_⟩
  have hstep : step s (.read core nt p) = some (out,s') := by
    simp only [step,hlive,if_true,hr]
  rw [hstep]
  obtain ⟨s1,G1,h1,hk,⟨rfl,rfl,hfree⟩ | ⟨o,hl,-,-,hkont⟩⟩ := h.withDeref hp hr
  · exact .inr ⟨rfl,hfree⟩
  · cases hkont
    rw [(hl.value v (by rw [hk.value]; exact hv)).1]
    exact .inl rfl

theorem write_effect
    (he : step s (.write core nt p bytes) = some (out,s')) :
    ∃ G', RunInv count farCount s' G' ∧ Effect s G G' (.write core nt p bytes) out := by
  obtain ⟨hl,he⟩ := Option.ite_none_right_eq_some.mp he
  obtain ⟨id,hp⟩ := h.live_mem hl
  obtain ⟨s1,G1,h1,hk,⟨rfl,rfl,-⟩ | ⟨o,hl,-,hdirty,hkont⟩⟩ := h.withDeref hp he
  · exact ⟨G1,h1,hk.ring,hk.value⟩
  · obtain ⟨hlen,hkont⟩ := Option.ite_none_right_eq_some.mp hkont
    cases hkont
    have hd : ∃ q ∈ G1.ring id, (s1.word q).isDirty = true := by
      refine ⟨p,by rwa [hk.ring],?_⟩
      rw [hdirty p hp]
      simp
    refine ⟨_,⟨h1.inv.setData hl hlen hd,h1.phase⟩,id,hp,hk.ring,?_⟩
    change update G1.value id (some bytes) = _
    rw [hk.value]

theorem copy_effect (hsafe : Safe s (.copy core this other))
    (he : step s (.copy core this other) = some (out,s')) :
    ∃ G', RunInv count farCount s' G' ∧ Effect s G G' (.copy core this other) out := by
  have hnull : (s.word this).isNull = true := hsafe
  have hpr := isPresent_of_isNull hnull
  have hderef : s.deref core false false this = (.null,s) := by
    rw [State.deref,derefLoop]
    simp only [exceptions_test,slow_test,present_test,hpr,hnull,Bool.not_false,Bool.true_or,Bool.or_true,
      if_true]
  obtain ⟨hc,he⟩ := Option.ite_none_right_eq_some.mp he
  simp only [hderef,Option.some.injEq,Prod.mk.injEq] at he
  obtain ⟨rfl,rfl⟩ := he
  rcases hon : (s.word other).isNull with _ | _
  · obtain ⟨id,hother⟩ := h.inv.groups.member other hon
    have hg := h.inv.groups.group id (Groups.ne_nil hother)
    have hsh : (s.word other).isShared = true := by
      rcases hc.2.2.2 with hn | hs
      · rw [hon] at hn
        cases hn
      · exact hs
    obtain ⟨k,hk,hperm,-,-,hall⟩ := hg.ringAt hother hsh
    refine ⟨_,⟨h.inv.copy hc.1 hnull hperm hk hall,h.phase⟩,rfl,?_⟩
    intro id' q
    by_cases hid : id' = id
    · subst hid
      change q ∈ update G.ring id' _ id' ↔ _
      rw [update_self,← hperm.mem_iff,← hperm.mem_iff]
      simp only [List.mem_cons]
      tauto
    · change q ∈ update G.ring id _ id' ↔ _
      rw [update_of_ne hid]
      have hout : other ∉ G.ring id' := fun hm => hid (h.inv.groups.disjoint other id' id hm hother)
      tauto
  · refine ⟨G,⟨h.inv.scratch ⟨rfl,rfl,rfl,rfl,rfl,rfl,rfl⟩ ?_,h.phase⟩,rfl,?_⟩
    · intro q
      by_cases hqt : q = this
      · refine .inr ⟨hqt ▸ hnull,?_⟩
        rw [hqt]
        simp [State.copy,hon]
      · by_cases hqo : q = other
        · refine .inr ⟨hqo ▸ hon,?_⟩
          rw [State.copy,setNextPtr_word,setNextPtr_word,setMeta_word_of_ne _ hqt,hqo]
          exact hon
        · refine .inl ?_
          rw [State.copy,setNextPtr_ptrs,if_neg hqo,setNextPtr_ptrs,if_neg hqt,setMeta_ptrs,if_neg hqt]
    · intro id q
      have hout := h.not_mem_of_isNull hon id
      tauto

end

theorem move_fields (this other : ℕ) : (s.move this other).phase = s.phase ∧
    (s.move this other).fromRegions = s.fromRegions ∧
    (s.move this other).cache.base = s.cache.base := by
  unfold State.move
  dsimp only
  split_ifs <;> exact ⟨rfl,rfl,rfl⟩

theorem mem_ring_move {G0 : Ghost} (hperm : (other::k).Perm (G0.ring id))
    (hk : other ∉ k) (hunique : ∀ id', other ∈ G.ring id' → id' = id) (hother : other ∈ G.ring id)
    (hne : this ≠ other) (hring : ∀ id q, q ∈ G0.ring id ↔ q ≠ this ∧ q ∈ G.ring id) (id' q : ℕ) :
    q ∈ (G0.setRing id (this::k)).ring id' ↔
      (q ≠ this ∧ q ≠ other ∧ q ∈ G.ring id') ∨ (q = this ∧ this ≠ other ∧ other ∈ G.ring id') := by
  change q ∈ update G0.ring id (this::k) id' ↔ _
  by_cases hid : id' = id
  · subst hid
    have hq : q ∈ k ↔ q ≠ other ∧ q ∈ G0.ring id' := by
      rw [← hperm.mem_iff]
      constructor
      · intro hm
        exact ⟨fun he => hk (he ▸ hm),by simp [hm]⟩
      · rintro ⟨hqo,hm⟩
        exact (List.mem_cons.mp hm).resolve_left hqo
    rw [update_self,List.mem_cons,hq,hring]
    clear hq hring hunique hperm hk
    tauto
  · have hout : other ∉ G.ring id' := fun hm => hid (hunique id' hm)
    have hqo : q ∈ G.ring id' → q ≠ other := fun hm he => hout (he ▸ hm)
    rw [update_of_ne hid,hring]
    clear hring hunique hperm hk
    tauto

/-- A pointer without a local object and outside all rings of several pointers can
be nullified. -/
theorem RunInv.vacate (h : RunInv count farCount s G) (hpr : (s.word p).isPresent = false)
    (hkind : (s.word p).isNull = true ∨ (s.word p).isShared = false) :
    ∃ G0, RunInv count farCount (s.setMeta p nullify) G0 ∧ G0.value = G.value ∧
      ∀ id q, q ∈ G0.ring id ↔ q ≠ p ∧ q ∈ G.ring id := by
  rcases hon : (s.word p).isNull with _ | _
  · obtain ⟨id,hp⟩ := h.inv.groups.member p hon
    have hg := h.inv.groups.group id (Groups.ne_nil hp)
    have hring := hg.eq_singleton hp (hkind.resolve_left (by simp [hon]))
    refine ⟨_,⟨h.inv.dropAbsent hring hpr,h.phase⟩,rfl,fun id' q => ?_⟩
    change q ∈ update G.ring id [] id' ↔ _
    by_cases hid : id' = id
    · subst hid
      rw [update_self,hring]
      simp
    · rw [update_of_ne hid]
      have hne : q ∈ G.ring id' → q ≠ p := fun hm he =>
        hid (h.inv.groups.disjoint p id' id (he ▸ hm) hp)
      exact ⟨fun hm => ⟨hne hm,hm⟩,fun hm => hm.2⟩
  · refine ⟨G,⟨h.inv.scratch ⟨rfl,rfl,rfl,rfl,rfl,rfl,rfl⟩ ?_,h.phase⟩,rfl,fun id q => ?_⟩
    · intro q
      by_cases hq : q = p
      · exact .inr ⟨hq ▸ hon,by rw [hq,setMeta_word_same,nullify_isNull]⟩
      · exact .inl (by rw [setMeta_ptrs,if_neg hq])
    · exact ⟨fun hm => ⟨fun he => h.not_mem_of_isNull hon id (he ▸ hm),hm⟩,fun hm => hm.2⟩

theorem move_effect (h : RunInv count farCount s G) (hsafe : Safe s (.move this other))
    (he : step s (.move this other) = some (out,s')) :
    ∃ G', RunInv count farCount s' G' ∧ Effect s G G' (.move this other) out := by
  obtain ⟨hpr,hkind,hsrc⟩ := hsafe
  obtain ⟨hc,⟨⟩⟩ := Option.ite_none_right_eq_some.mp he
  obtain ⟨G0,h0,hval0,hring0⟩ := h.vacate hpr hkind
  by_cases hself : this = other
  · -- a move of an absent or null pointer into itself only nullifies it
    subst hself
    have hmove : s.move this this = s.setMeta this nullify := by
      simp only [State.move,hpr,Bool.false_eq_true,if_false,setMeta_setMeta]
    rw [hmove]
    refine ⟨G0,h0,hval0,fun id q => ?_⟩
    rw [hring0]
    exact ⟨fun hq => .inl ⟨hq.1,hq.1,hq.2⟩,fun hq => hq.elim (fun hq => ⟨hq.1,hq.2.2⟩)
      fun hq => absurd rfl hq.2.1⟩
  have hword0 : (s.setMeta this nullify).word other = s.word other :=
    setMeta_word_of_ne _ (Ne.symm hself)
  have hnull0 : ((s.setMeta this nullify).word this).isNull = true := by
    rw [setMeta_word_same,nullify_isNull]
  rw [← setMeta_move (Ne.symm hself) nullify]
  obtain ⟨hphase,hfrom,hbase⟩ := move_fields (s := s.setMeta this nullify) this other
  rcases hon : (s.word other).isNull with _ | _
  · obtain ⟨id,hother⟩ := h0.inv.groups.member other (by rw [hword0]; exact hon)
    obtain ⟨k,hperm,hi⟩ := h0.inv.moveNull hc.1 hnull0 hother (by rw [hword0]; exact hsrc)
    have hg := h0.inv.groups.group id (Groups.ne_nil hother)
    have hnodup := List.nodup_cons.mp (hperm.nodup_iff.mpr hg.nodup)
    have hother' : other ∈ G.ring id := ((hring0 id other).mp hother).2
    exact ⟨_,⟨hi,h0.phase.regions hphase hfrom hbase (fun _ _ => rfl) rfl rfl⟩,hval0,
      mem_ring_move hperm hnodup.1 (fun id' hm => h.inv.groups.disjoint other id' id hm hother') hother'
        hself hring0⟩
  · refine ⟨G0,⟨h0.inv.moveFromNull hnull0 (by rw [hword0]; exact hon),
      h0.phase.regions hphase hfrom hbase (fun _ _ => rfl) rfl rfl⟩,hval0,fun id q => ?_⟩
    have hout := h.not_mem_of_isNull hon id
    rw [hring0]
    exact ⟨fun hq => .inl ⟨hq.1,fun he => hout (he ▸ hq.2),hq.2⟩,fun hq =>
      hq.elim (fun hq => ⟨hq.1,hq.2.2⟩) fun hq => absurd hq.2.2 hout⟩

theorem Ghost.mem_setRing_other {id' : ℕ} {g : List ℕ} (hne : id' ≠ id) :
    (G.setRing id g).ring id' = G.ring id' := update_of_ne hne ..

theorem mem_ring_drop (hperm : (p::k).Perm (G.ring id)) (id' q : ℕ) :
    (q ≠ p → (q ∈ (G.setRing id k).ring id' ↔ q ∈ G.ring id')) ∧
      (q ∈ (G.setRing id k).ring id' → q ∈ G.ring id') := by
  by_cases hid : id' = id
  · subst hid
    rw [show (G.setRing id' k).ring id' = k from update_self ..,← hperm.mem_iff,List.mem_cons]
    exact ⟨fun hq => ⟨.inr,fun hm => hm.resolve_left hq⟩,.inr⟩
  · rw [Ghost.mem_setRing_other hid]
    exact ⟨fun _ => Iff.rfl,fun hm => hm⟩

theorem not_mem_ring_drop (hperm : (p::k).Perm (G.ring id))
    (hg : Groups s G) (id' : ℕ) : p ∉ (G.setRing id k).ring id' := by
  have hp : p ∈ G.ring id := hperm.mem_iff.mp (by simp)
  intro hm
  by_cases hid : id' = id
  · subst hid
    rw [show (G.setRing id' k).ring id' = k from update_self ..] at hm
    have hnodup := hperm.nodup_iff.mpr (hg.group id' (Groups.ne_nil hp)).nodup
    exact (List.nodup_cons.mp hnodup).1 hm
  · rw [Ghost.mem_setRing_other hid] at hm
    exact hid (hg.disjoint p id' id hm hp)

section
variable (h : RunInv count farCount s G)
include h

theorem freeUnique_effect (hl : s.live p = true)
    (hsh : (s.word p).isShared = false)
    (he : (s.withDeref core false false p fun _ _ s' => some (.done,s'.freeUnique p)) = some (out,s')) :
    ∃ G', RunInv count farCount s' G' ∧ Effect s G G' (.free core trivial p) out := by
  obtain ⟨id,hp⟩ := h.live_mem hl
  obtain ⟨s1,G1,h1,hk,⟨rfl,rfl,-⟩ | ⟨o,-,hpr,-,hkont⟩⟩ := h.withDeref hp he
  · exact ⟨G1,h1,hk.ring,hk.value⟩
  · cases hkont
    have hring : G1.ring id = [p] := by
      rw [hk.ring]
      exact (h.inv.groups.group id (Groups.ne_nil hp)).eq_singleton hp hsh
    have hmem := mem_ring_drop (G := G1) (k := []) (by rw [hring] : [p].Perm (G1.ring id))
    rw [hk.ring] at hmem
    exact ⟨_,⟨h1.inv.freeUnique hring hpr,h1.phase⟩,fun id' q hq => (hmem id' q).1 hq,
      fun id' => (hmem id' p).2,fun _ => hk.value,fun _ _ => congrFun hk.value _,
      fun hs => by rw [hsh] at hs; cases hs⟩

theorem freeShared_effect (hl : s.live p = true)
    (hsh : (s.word p).isShared = true)
    (he : (s.withDeref core false false p fun _ _ s' => some (.done,s'.freeShared p)) = some (out,s')) :
    ∃ G', RunInv count farCount s' G' ∧ Effect s G G' (.free core trivial p) out := by
  obtain ⟨id,hp⟩ := h.live_mem hl
  obtain ⟨s1,G1,h1,hk,⟨rfl,rfl,-⟩ | ⟨o,-,hpr,hdirty,hkont⟩⟩ := h.withDeref hp he
  · exact ⟨G1,h1,hk.ring,hk.value⟩
  cases hkont
  have hmembers := (h.inv.groups.group id (Groups.ne_nil hp)).members hp
  have hp1 : p ∈ G1.ring id := by rwa [hk.ring]
  have hsh1 : (s1.word p).isShared = true := (hk.shared p).trans hsh
  have hphase : ∀ {G'}, PhaseOk s1 G' → PhaseOk (s1.freeShared p) G' := by
    intro G' hph
    refine hph.regions ?_ ?_ ?_ (fun _ _ => rfl) rfl rfl <;>
    · unfold State.freeShared
      dsimp only
      split_ifs <;> rfl
  by_cases hkeep : FreeKeeps s p
  · have hcond : G1.value id = none ∨ (s1.word p).isDirty = false ∨ G1.ring id = [p] ∨
        ∃ q ∈ G1.ring id, q ≠ p ∧ (s1.word q).isDirty = true := by
      rw [hk.ring]
      cases hd : (s1.word p).isDirty with
      | false => exact .inr (.inl rfl)
      | true =>
        rw [hdirty p hp] at hd
        simp only [Bool.and_false,Bool.false_or,Bool.and_eq_true] at hd
        rcases hkeep hsh hd.1 hd.2 with hone | ⟨q,hq,hne,hqd⟩
        · rw [hone] at hmembers
          exact .inr (.inr (.inl (List.singleton_perm.mp hmembers).symm))
        · refine .inr (.inr (.inr ⟨q,hmembers.mem_iff.mp hq,hne,?_⟩))
          rw [hdirty q (hmembers.mem_iff.mp hq),hd.1,hqd]
          simp
    obtain ⟨k,hperm,hi⟩ := h1.inv.freeShared hp1 hsh1 hpr hcond
    have hmem := mem_ring_drop hperm
    rw [hk.ring] at hmem
    exact ⟨_,⟨hi,hphase h1.phase⟩,fun id' q hq => (hmem id' q).1 hq,fun id' => (hmem id' p).2,
      fun _ => hk.value,fun _ _ => congrFun hk.value _,fun _ => not_mem_ring_drop hperm h1.inv.groups⟩
  · -- the value is given up before the free
    have hforget := h1.inv.forget id
    obtain ⟨k,hperm,hi⟩ := hforget.freeShared hp1 hsh1 hpr (.inl (update_self ..))
    have hmem := mem_ring_drop (G := G1) hperm
    rw [hk.ring] at hmem
    refine ⟨_,⟨hi,hphase (h1.phase.regions rfl rfl rfl (fun _ _ => rfl) rfl rfl)⟩,
      fun id' q hq => (hmem id' q).1 hq,fun id' => (hmem id' p).2,fun hx => absurd hx hkeep,?_,
      fun _ => not_mem_ring_drop hperm hforget.groups⟩
    intro id' hout
    have hne : id' ≠ id := fun he => hout (he ▸ hp)
    change update G1.value id none id' = _
    rw [update_of_ne hne,hk.value]

theorem free_effect
    (he : step s (.free core trivial p) = some (out,s')) :
    ∃ G', RunInv count farCount s' G' ∧ Effect s G G' (.free core trivial p) out := by
  obtain ⟨hl,he⟩ := Option.ite_none_right_eq_some.mp he
  split at he
  · rename_i hsh
    exact freeShared_effect h hl hsh he
  · rename_i hsh
    rw [Bool.not_eq_true] at hsh
    split at he
    · cases he
      exact ⟨G,h,fun _ _ _ => Iff.rfl,fun _ hp => hp,fun _ => rfl,fun _ _ => rfl,
        fun hs => by rw [hsh] at hs; cases hs⟩
    · exact freeUnique_effect h hl hsh he

theorem reallocate_effect
    (he : step s (.reallocate core p bytes) = some (out,s')) :
    ∃ G', RunInv count farCount s' G' ∧ Effect s G G' (.reallocate core p bytes) out := by
  obtain ⟨hc,he⟩ := Option.ite_none_right_eq_some.mp he
  obtain ⟨id,hp⟩ := h.live_mem hc.1
  have hsh : (s.word p).isShared = false := by simpa using hc.2.1
  have hfit : sizeFor bytes.length ≤ 65528 := of_decide_eq_true hc.2.2
  obtain ⟨s1,G1,h1,hk,⟨rfl,rfl,-⟩ | ⟨o,-,hpr,-,hkont⟩⟩ := h.withDeref hp he
  · exact ⟨G1,h1,hk.ring,hk.value⟩
  obtain ⟨ok,hr,rfl⟩ := finish_some hkont
  have hring : G1.ring id = [p] := by
    rw [hk.ring]
    exact (h.inv.groups.group id (Groups.ne_nil hp)).eq_singleton hp hsh
  rcases h1.inv.reallocateLocal core hring ((hk.shared p).trans hsh) hpr hfit hr with ⟨rfl,hi,hk'⟩ |
    ⟨rfl,id',L,F,hid,hi,hfrom,hphase,hbase,hL⟩
  · exact ⟨G1,h1.keeps hi hk',hk.ring,hk.value⟩
  · refine ⟨_,⟨hi,h1.phase.regions hphase hfrom hbase hL rfl rfl⟩,id',?_,?_,?_⟩
    · intro id'' q
      have hdrop : ∀ q, q ∈ (G1.setRing id []).ring id'' ↔ q ≠ p ∧ q ∈ G.ring id'' := by
        intro q
        by_cases hx : id'' = id
        · subst hx
          rw [show (G1.setRing id'' []).ring id'' = [] from update_self ..,← hk.ring,hring]
          simp
        · rw [Ghost.mem_setRing_other hx,hk.ring]
          exact ⟨fun hm => ⟨fun he => hx (h.inv.groups.disjoint p id'' id (he ▸ hm) hp),hm⟩,fun hm => hm.2⟩
      change q ∈ update (G1.setRing id []).ring id' [p] id'' ↔ _
      by_cases hx : id'' = id'
      · subst hx
        rw [update_self,List.mem_singleton]
        refine ⟨fun he => .inr ⟨he,rfl⟩,fun hq => hq.elim (fun hq => ?_) fun hq => hq.1⟩
        have hm := (hdrop q).mpr hq
        rw [hid] at hm
        cases hm
      · rw [update_of_ne hx,hdrop]
        exact ⟨.inl,fun hq => hq.elim (fun hq => hq) fun hq => absurd hq.2 hx⟩
    · intro q hq hm
      by_cases hx : id' = id
      · rw [hx,← hk.ring,hring] at hm
        exact hq (List.mem_singleton.mp hm)
      · rw [Ghost.mem_setRing_other hx,hk.ring] at hid
        rw [hid] at hm
        cases hm
    · change update G1.value id' (some bytes) = _
      rw [hk.value]

/-- Every safe operation keeps the invariant and has the effect it should have. -/
theorem step_effect (op : Op) (hsafe : Safe s op)
    (he : step s op = some (out,s')) :
    ∃ G', RunInv count farCount s' G' ∧ Effect s G G' op out := by
  cases op with
  | allocate core shared p bytes => exact allocate_effect h he
  | read core nt p => exact read_effect h he
  | write core nt p bytes => exact write_effect h he
  | move this other => exact move_effect h hsafe he
  | copy core this other => exact copy_effect h hsafe he
  | flush p =>
    obtain ⟨hl,⟨⟩⟩ := Option.ite_none_right_eq_some.mp he
    obtain ⟨id,hp⟩ := h.live_mem hl
    obtain ⟨hi,hk,-⟩ := h.inv.flush hp
    exact ⟨G,h.keeps hi hk,rfl,rfl⟩
  | evacuate p =>
    obtain ⟨hc,⟨⟩⟩ := Option.ite_none_right_eq_some.mp he
    obtain ⟨id,hp⟩ := h.live_mem hc.1
    obtain ⟨hi,hk⟩ := h.inv.evacuate
      ((h.inv.groups.group id (Groups.ne_nil hp)).eq_singleton hp (by simpa using hc.2))
    exact ⟨G,h.keeps hi hk,rfl,rfl⟩
  | swapIn core nt p =>
    obtain ⟨hl,he⟩ := Option.ite_none_right_eq_some.mp he
    obtain ⟨ok,hr,rfl⟩ := finish_some he
    obtain ⟨id,hp⟩ := h.live_mem hl
    simp only [Option.some.injEq] at hr
    obtain ⟨G',hi,hk,-⟩ := h.inv.swapIn hp core nt hr
    refine ⟨G',h.keeps hi hk,?_⟩
    cases ok <;> exact ⟨hk.ring,hk.value⟩
  | free core trivial p => exact free_effect h he
  | reallocate core p bytes => exact reallocate_effect h he
  | gcMark regs =>
    obtain ⟨hc,⟨⟩⟩ := Option.ite_none_right_eq_some.mp he
    obtain ⟨M,hi,hph⟩ := h.inv.gcMark h.phase hc.1 hc.2.1 hc.2.2
    exact ⟨_,⟨hi,hph⟩,rfl,rfl⟩
  | gcWriteBack core almostEmpty =>
    obtain ⟨hc,⟨⟩⟩ := Option.ite_none_right_eq_some.mp he
    obtain ⟨L,D,hi,hph⟩ := h.inv.gcWriteBack h.phase hc core almostEmpty
    exact ⟨_,⟨hi,hph⟩,rfl,rfl⟩
  | gcRecycle =>
    obtain ⟨hc,⟨⟩⟩ := Option.ite_none_right_eq_some.mp he
    obtain ⟨hi,hph⟩ := h.inv.gcRecycle h.phase hc
    exact ⟨_,⟨hi,hph⟩,rfl,rfl⟩

end

end Steps

/-- A present pointer refers to an object that has not been freed, in a region
that is not free, and not among those about to be recycled once they are written
back. -/
theorem RunInv.placed (h : RunInv count farCount s G) (hpr : (s.word p).isPresent = true) :
    ∃ i off o, i < count ∧ off < kSize ∧ (s.word p).getObjectAddr = s.cache.addr i off ∧
      s.heap (s.word p).getObjectAddr = some o ∧ o.isFreed = false ∧ i ∉ s.cache.freeRegions ∧
      (s.phase = .writtenBack → i ∉ s.fromRegions) := by
  obtain ⟨id,hp⟩ := h.inv.groups.member p (isNull_of_isPresent hpr)
  obtain ⟨o,hl⟩ := h.inv.groups.localOf hp hpr
  obtain ⟨i,b,hb,ha⟩ := h.inv.layout.block _ o hl.object
  have hne : G.layout i ≠ [] := List.ne_nil_of_mem hb
  refine ⟨i,b.1,o,h.inv.layout.wf.managed i hne,h.inv.layout.wf.start_lt hb,ha,hl.object,
    h.inv.local_isFreed hl,?_,?_⟩
  · intro hfree
    exact hne (h.inv.layout.wf.free i hfree).1
  · intro hph hfrom
    have hphase := h.phase
    simp only [PhaseOk,hph] at hphase
    exact hl.current (ha ▸ hphase i hfrom b hb)

/-- The id of the object that a pointer stands for. -/
def denotes (s : State) (p : ℕ) : Option ℕ :=
  if (s.word p).isNull then none
  else if (s.word p).isPresent then (s.heap (s.word p).getObjectAddr).map Object.objId
  else some (s.word p).getObjectId

theorem denotes_of_mem (h : RunInv count farCount s G) (hp : p ∈ G.ring id) :
    denotes s p = some id := by
  have hnull := (h.inv.groups.group id (Groups.ne_nil hp)).notNull hp
  rw [denotes,if_neg (by simp [hnull])]
  cases hpr : (s.word p).isPresent with
  | true =>
    obtain ⟨o,hl⟩ := h.inv.groups.localOf hp hpr
    rw [if_pos rfl,hl.object,Option.map_some,hl.objId]
  | false =>
    rw [if_neg Bool.false_ne_true,((h.inv.groups.absentOf hp hpr).words p hp).2.2.1]

theorem denotes_of_not_mem (h : RunInv count farCount s G) (hp : ∀ id, p ∉ G.ring id) :
    denotes s p = none := by
  cases hnull : (s.word p).isNull with
  | true => rw [denotes,if_pos hnull]
  | false =>
    obtain ⟨id,hm⟩ := h.inv.groups.member p hnull
    exact absurd hm (hp id)

theorem denotes_congr {G' : Ghost} (h : RunInv count farCount s G) (h' : RunInv count farCount s' G')
    (hring : G'.ring = G.ring) (p : ℕ) : denotes s' p = denotes s p := by
  by_cases hp : ∃ id, p ∈ G.ring id
  · obtain ⟨id,hp⟩ := hp
    rw [denotes_of_mem h hp,denotes_of_mem h' (by rwa [hring])]
  · rw [not_exists] at hp
    rw [denotes_of_not_mem h hp,denotes_of_not_mem h' (by rwa [hring])]

def Ghost.init : Ghost := ⟨fun _ => [],fun _ => [],fun _ => [],∅,∅,fun _ => none⟩

theorem RunInv.init (c : Config) : RunInv c.count c.farCount (State.init c) Ghost.init where
  inv :=
    { layout := ⟨Manager.build_wf true c.base c.count_lt,c.cache_le,by simp [Ghost.init],
        by simp [State.init],by simp [Ghost.init],by simp [Ghost.init]⟩
      far := ⟨Manager.build_wf false 0 c.farCount_lt,rfl,c.far_le⟩
      groups := ⟨fun _ hne => absurd rfl hne,by simp [State.init,State.word],by simp [Ghost.init],
        by simp [State.init]⟩
      numPtrs := c.numPtrs_le }
  phase := rfl

theorem runInv_of_safe {cfg : Config} {ok : State → Op → Prop} {tr : List (Op × Outcome)}
    (hok : ∀ s op, ok s op → Safe s op) (h : Execution.Trace step ok (State.init cfg) tr s) :
    ∃ G, RunInv cfg.count cfg.farCount s G := by
  refine h.invariant (I := fun s => ∃ G, RunInv cfg.count cfg.farCount s G) ⟨_,RunInv.init cfg⟩ ?_
  rintro s op out s' hop ⟨G,hr⟩ hstep
  obtain ⟨G',hr',-⟩ := step_effect hr op (hok s op hop) hstep
  exact ⟨G',hr'⟩

/-! ### Evaluating runs with large objects -/

/-- `step`, with the data size of an allocation given next to it, so that a run can
be evaluated without counting the bytes of a large object. -/
def stepSized (s : State) : Op × ℕ → Option (Outcome × State)
  | (.allocate core shared p bytes,n) =>
    if p < s.numPtrs ∧ (s.word p).isNull ∧ fits n then
      finish (s.allocate core shared p n bytes) .wait
    else none
  | (op,_) => step s op

def Sized : Op × ℕ → Prop
  | (.allocate _ _ _ bytes,n) => bytes.length = n
  | _ => True

theorem stepSized_eq {x : Op × ℕ} (h : Sized x) : stepSized s x = step s x.1 := by
  obtain ⟨op,n⟩ := x
  cases op with
  | allocate core shared p bytes => rw [← show bytes.length = n from h]; rfl
  | _ => rfl

theorem exec_sized (ok : State → Op → Prop) [∀ s op, Decidable (ok s op)] {l : List (Op × ℕ)}
    (hl : ∀ x ∈ l, Sized x) (s : State) :
    Execution.exec step ok s (l.map Prod.fst) = Execution.exec stepSized (fun s x => ok s x.1) s l := by
  induction l generalizing s with
  | nil => rfl
  | cons x l ih =>
    have htail := ih fun y hy => hl y (by simp [hy])
    rw [List.map_cons,Execution.exec,Execution.exec,stepSized_eq (hl x (by simp))]
    split
    · split
      · rfl
      · rw [htail]
    · rfl

/-- Fill the first region of core 0 with large objects that are freed at once. -/
def fill (shared : Bool) (p : ℕ) : List (Op × ℕ) :=
  (List.replicate 17 [(.allocate 0 shared p (List.replicate 65000 0),65000),(.free 0 false p,0)]).flatten

/-- A collector round over that region which keeps nothing local. -/
def collect : List (Op × ℕ) :=
  [(.gcMark [0],0),(.gcWriteBack (fun _ => 0) (fun _ => true),0),(.gcRecycle,0)]

theorem fill_sized (shared : Bool) (p : ℕ) : ∀ x ∈ fill shared p, Sized x := by
  intro x hx
  obtain ⟨l,hl,hx⟩ := List.mem_flatten.mp hx
  rw [List.eq_of_mem_replicate hl] at hx
  simp only [List.mem_cons,List.not_mem_nil,or_false] at hx
  rcases hx with rfl | rfl
  · exact List.length_replicate
  · trivial

theorem collect_sized : ∀ x ∈ collect, Sized x := by
  simp [collect,Sized]

end FarMemory.RuntimeInvariant
