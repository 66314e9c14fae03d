import FarMemory.ClientTable
import FarMemory.Execution

/-!
# Deferred eviction notices

Any number of puts run on the client's table while the collector evicts entries. A put
holds the lock of its bucket from the lookup to the publication. An eviction empties
the slot at once; if it cannot lock the bucket, it leaves the bit and stashes the
notice, and a later replay empties the slot again and clears the bit.

A put takes these steps: it waits for its bucket, looks its key up, claims an empty
slot behind the bucket, hops, and publishes. A claim may take any empty slot and a hop
any of the buckets before it, which covers every way in which probing and the search
for an anchor can be overtaken. An object belongs to the bucket in its metadata: after
a retry that is not always the home of its key.
-/
namespace FarMemory.EvacNotices
open Execution Hopscotch Keys ClientTable
open ServerTable (numEntries)

/-- A put. Its entry takes at most 65528 bytes, so that the allocator reserves enough for it. -/
structure Call where
  key : Key
  val : Bytes
  swapIn : Bool
  fits : Fits key val
  deriving DecidableEq

inductive Pc
  | idle
  | waiting (c : Call) (b : ℕ)
  | locked (c : Call) (b : ℕ)
  | searching (c : Call) (b : ℕ)
  | claimed (c : Call) (b f : ℕ)
  deriving DecidableEq

/-- The bucket whose lock the put holds. -/
def Pc.lock : Pc → Option ℕ
  | .locked _ b => some b
  | .searching _ b => some b
  | .claimed _ b _ => some b
  | _ => none

structure State (m : ℕ) where
  table : Table Obj
  puts : Fin m → Pc
  stash : List (ℕ × ℕ)

def State.init (m : ℕ) : State m := ⟨.empty,fun _ => .idle,[]⟩

def State.isLocked {m : ℕ} (s : State m) (b : ℕ) : Bool := decide (∃ p, (s.puts p).lock = some b)

def State.setPut {m : ℕ} (s : State m) (p : Fin m) (pc : Pc) (t : Table Obj) : State m :=
  {s with table := t,puts := Function.update s.puts p pc}

inductive Act (m : ℕ)
  | call (p : Fin m) (c : Call)
  | lock (p : Fin m)
  | look (p : Fin m) (allocOk : Bool)
  | claim (p : Fin m) (f : ℕ)
  | hop (p : Fin m) (d : ℕ)
  | publish (p : Fin m) (allocOk : Bool)
  | evict (i : ℕ)
  | replay
  deriving DecidableEq

section Steps
variable (shift : ℕ) {m : ℕ}

def lookStep (s : State m) (p : Fin m) (allocOk : Bool) : Option (State m) :=
  match s.puts p with
  | .locked c b =>
    let t := touch (!c.swapIn) (accepts c.key) s.table b
    match lookup (accepts c.key) s.table b with
    | .hole _ => some (s.setPut p (.waiting c b) t)
    | .missing => some (s.setPut p (.searching c b) t)
    | .entry o e =>
      match overwrite allocOk c.swapIn t b o e c.val with
      | .done _ t' => some (s.setPut p .idle t')
      | .retry _ b' t' => some (s.setPut p (.waiting c b') t')
      | .abort => none
  | _ => none

/-- One displacement with the anchor at distance `d`, which has to be unlocked. -/
def hopStep (s : State m) (p : Fin m) (d : ℕ) : Option (State m) :=
  match s.puts p with
  | .claimed c b f =>
    if b+32 ≤ f ∧ 0 < d ∧ d < 32 ∧ s.isLocked (f-d) = false then
      match offsets (s.table.bitmap (f-d)) with
      | [] => none
      | o::_ =>
        if f ≤ f-d+o then none
        else
          match s.table.slot (f-d+o) with
          | .entry e => some (s.setPut p (.claimed c b (f-d+o)) (relocateEntry relocate s.table (f-d) o d e))
          | _ => some (s.setPut p (.waiting c f) (s.table.setSlot f .null))
    else none
  | _ => none

def publishStep (s : State m) (p : Fin m) (allocOk : Bool) : Option (State m) :=
  match s.puts p with
  | .claimed c b f =>
    if f < b+32 then
      if allocOk then
        some (s.setPut p .idle ((s.table.setSlot f (.entry (newObj c.key c.val c.swapIn b (f-b)))).setBit b (f-b)))
      else some (s.setPut p (.waiting c f) s.table)
    else none
  | _ => none

/-- `do_evac_notifier`. -/
def notify (s : State m) (b o : ℕ) : State m :=
  let t := s.table.setSlot (b+o) .null
  if s.isLocked b then {s with table := t,stash := s.stash++[(b,o)]}
  else {s with table := t.flipBit b o}

def step (s : State m) : Act m → Option (Unit × State m)
  | .call p c =>
    match s.puts p with
    | .idle => some ((),s.setPut p (.waiting c (homeBucket shift c.key)) s.table)
    | _ => none
  | .lock p =>
    match s.puts p with
    | .waiting c b => if s.isLocked b then none else some ((),s.setPut p (.locked c b) s.table)
    | _ => none
  | .look p allocOk => (lookStep s p allocOk).map fun s' => ((),s')
  | .claim p f =>
    match s.puts p with
    | .searching c b =>
      if b ≤ f ∧ f < numEntries shift ∧ s.table.slot f = .null then
        some ((),s.setPut p (.claimed c b f) (s.table.setSlot f .busy))
      else none
    | _ => none
  | .hop p d => (hopStep s p d).map fun s' => ((),s')
  | .publish p allocOk => (publishStep s p allocOk).map fun s' => ((),s')
  | .evict i =>
    match s.table.slot i with
    | .entry e => some ((),notify s e.anchor e.offset)
    | _ => none
  | .replay =>
    match s.stash with
    | [] => none
    | (b,o)::l => some ((),notify {s with stash := l} b o)

end Steps

/-- No put claims a slot that a stashed notice names. -/
def Unnoticed {m : ℕ} (s : State m) : Act m → Prop
  | .claim _ f => ∀ a ∈ s.stash, a.1+a.2 ≠ f
  | _ => True

instance {m : ℕ} (s : State m) (a : Act m) : Decidable (Unnoticed s a) :=
  match a with
  | .claim _ f => inferInstanceAs (Decidable (∀ a ∈ s.stash, a.1+a.2 ≠ f))
  | .call _ _ | .lock _ | .look _ _ | .hop _ _ | .publish _ _ | .evict _ | .replay =>
    inferInstanceAs (Decidable True)

/-! ### The invariant -/

theorem offset_relocate (o : ℕ) (e : Obj) : (relocate o e).offset = o := rfl

/-- Objects by the bucket in their metadata. -/
def anchorScheme : Scheme Obj (Key × ℕ) Unit where
  key := fun e => (e.key,e.anchor)
  payload := fun _ => ()
  home := Prod.snd
  relocate := relocate
  Placed := fun e o => e.offset = o
  key_relocate := fun _ _ => rfl
  payload_relocate := fun _ _ => rfl
  placed_relocate := offset_relocate

/-- What a put that found its key missing is going to insert. -/
def Pc.inserts : Pc → Option (Key × ℕ)
  | .searching c b => some (c.key,b)
  | .claimed c b _ => some (c.key,b)
  | _ => none

structure Inv (shift : ℕ) {m : ℕ} (s : State m) : Prop where
  wf : WF anchorScheme (numEntries shift) {a | a ∈ s.stash} {i | s.table.slot i = .busy} s.table
  stash : ∀ a ∈ s.stash, s.table.bit a.1 a.2 = true ∧ s.table.slot (a.1+a.2) = .null
  nodup : s.stash.Nodup
  claimed : ∀ p c b f, s.puts p = .claimed c b f → s.table.slot f = .busy ∧ b ≤ f
  distinct : ∀ p q c c' b b' f, s.puts p = .claimed c b f → s.puts q = .claimed c' b' f → p = q
  locks : ∀ p q b, (s.puts p).lock = some b → (s.puts q).lock = some b → p = q
  fresh : ∀ p x, (s.puts p).inserts = some x → ∀ i e, s.table.slot i = .entry e → (e.key,e.anchor) ≠ x

section Steps
variable {shift m : ℕ} {s s' : State m} {t t' : Table Obj} {p : Fin m} {pc : Pc} {c : Call} {b f i o d : ℕ} {e : Obj}
  {allocOk mutable : Bool} {accept : Obj → Bool}

theorem Inv.init : Inv shift (.init m) := by
  refine ⟨?_,by simp [State.init],by simp [State.init],by simp [State.init],by simp [State.init],
    by simp [State.init,Pc.lock],by simp [State.init,Pc.inserts]⟩
  have hempty : {a : ℕ × ℕ | a ∈ (State.init m).stash} = ∅ := by
    ext a
    simp [State.init]
  rw [hempty]
  exact WF.empty.rebusy

theorem lock_of_inserts {x : Key × ℕ} (h : pc.inserts = some x) : pc.lock = some x.2 := by
  cases pc <;> simp_all [Pc.inserts,Pc.lock] <;> simp [← h]

section
variable (h : Inv shift s)
include h

/-- The part of the invariant that all steps of a put share: nobody else's slot, lock
or key is touched. -/
theorem Inv.setPut
    (hwf : WF anchorScheme (numEntries shift) {a | a ∈ s.stash} {i | t.slot i = .busy} t)
    (hstash : ∀ a ∈ s.stash, t.bit a.1 a.2 = true ∧ t.slot (a.1+a.2) = .null)
    (hbusy : ∀ q c b f, q ≠ p → s.puts q = .claimed c b f → t.slot f = .busy)
    (hself : ∀ c b f, pc = .claimed c b f → t.slot f = .busy ∧ b ≤ f ∧
      ∀ q c' b', q ≠ p → s.puts q ≠ .claimed c' b' f)
    (hlock : ∀ b, pc.lock = some b → (s.puts p).lock = some b ∨ ∀ q, (s.puts q).lock ≠ some b)
    (hfresh : ∀ x, pc.inserts = some x → ∀ i e, t.slot i = .entry e → (e.key,e.anchor) ≠ x)
    (hkeys : ∀ i e, t.slot i = .entry e →
      (∃ j e0, s.table.slot j = .entry e0 ∧ (e0.key,e0.anchor) = (e.key,e.anchor)) ∨
        (s.puts p).lock = some e.anchor) : Inv shift (s.setPut p pc t) := by
  have hputs : ∀ q, q ≠ p → (s.setPut p pc t).puts q = s.puts q := fun q hq => Function.update_of_ne hq _ _
  have hputp : (s.setPut p pc t).puts p = pc := Function.update_self ..
  refine ⟨hwf,hstash,h.nodup,?_,?_,?_,?_⟩
  · intro q c b f hq
    by_cases hqp : q = p
    · subst hqp
      rw [hputp] at hq
      exact ⟨(hself c b f hq).1,(hself c b f hq).2.1⟩
    · rw [hputs q hqp] at hq
      exact ⟨hbusy q c b f hqp hq,(h.claimed q c b f hq).2⟩
  · intro q r c c' b b' f hq hr
    by_cases hqp : q = p
    · by_cases hrp : r = p
      · rw [hqp,hrp]
      · subst hqp
        rw [hputp] at hq
        rw [hputs r hrp] at hr
        exact absurd hr ((hself c b f hq).2.2 r c' b' hrp)
    · rw [hputs q hqp] at hq
      by_cases hrp : r = p
      · subst hrp
        rw [hputp] at hr
        exact absurd hq ((hself c' b' f hr).2.2 q c b hqp)
      · rw [hputs r hrp] at hr
        exact h.distinct q r c c' b b' f hq hr
  · intro q r b hq hr
    have hcase : ∀ {q}, q ≠ p → (s.puts q).lock = some b → pc.lock = some b → False := by
      intro q hqp hq hpc
      rcases hlock b hpc with hp | hnone
      · exact hqp (h.locks q p b hq hp)
      · exact hnone q hq
    by_cases hqp : q = p
    · by_cases hrp : r = p
      · rw [hqp,hrp]
      · rw [hqp,hputp] at hq
        rw [hputs r hrp] at hr
        exact (hcase hrp hr hq).elim
    · rw [hputs q hqp] at hq
      by_cases hrp : r = p
      · rw [hrp,hputp] at hr
        exact (hcase hqp hq hr).elim
      · rw [hputs r hrp] at hr
        exact h.locks q r b hq hr
  · intro q x hq i e he
    by_cases hqp : q = p
    · subst hqp
      rw [hputp] at hq
      exact hfresh x hq i e he
    · rw [hputs q hqp] at hq
      rcases hkeys i e he with ⟨j,e0,he0,hkey⟩ | hp
      · rw [← hkey]
        exact h.fresh q x hq j e0 he0
      · rintro rfl
        exact hqp (h.locks q p _ (lock_of_inserts hq) hp)

theorem touch_spec (mutable : Bool) (accept : Obj → Bool) (b : ℕ) :
    WF anchorScheme (numEntries shift) {a | a ∈ s.stash} {i | (touch mutable accept s.table b).slot i = .busy}
        (touch mutable accept s.table b) ∧
      (∀ a ∈ s.stash, (touch mutable accept s.table b).bit a.1 a.2 = true ∧
        (touch mutable accept s.table b).slot (a.1+a.2) = .null) ∧
      (∀ i, s.table.slot i = .busy → (touch mutable accept s.table b).slot i = .busy) ∧
      ∀ i e, (touch mutable accept s.table b).slot i = .entry e →
        ∃ e0, s.table.slot i = .entry e0 ∧ (e0.key,e0.anchor) = (e.key,e.anchor) ∧ e0.offset = e.offset := by
  have hwf : WF anchorScheme (numEntries shift) {a | a ∈ s.stash} {i | s.table.slot i = .busy}
      (touch mutable accept s.table b) := h.wf.mapEntries (fun _ _ => rfl) fun _ _ _ hp => hp
  refine ⟨hwf.rebusy,?_,?_,?_⟩
  · intro a ha
    refine ⟨(h.stash a ha).1,?_⟩
    simp [touch,Table.mapEntries,(h.stash a ha).2]
  · intro i hi
    simp [touch,Table.mapEntries,hi]
  · intro i e he
    obtain ⟨e0,he0,rfl⟩ := touch_slot.mp he
    exact ⟨e0,he0,rfl,rfl⟩

theorem Inv.own_bit (hbit : s.table.bit b o = true) (he : s.table.slot (b+o) = .entry e) :
    e.anchor = b ∧ e.offset = o := by
  have hanchor : e.anchor = b := by
    refine WF.home_of_bit h.wf hbit ?_ he
    intro hs
    have := (h.stash (b,o) hs).2
    rw [he] at this
    cases this
  obtain ⟨o',ho',-,hp⟩ := h.wf.entry _ e he
  change b+o = e.anchor+o' at ho'
  change e.offset = o' at hp
  exact ⟨hanchor,by omega⟩

theorem Inv.lookStep (hr : lookStep s p allocOk = some s') : Inv shift s' := by
  rw [EvacNotices.lookStep] at hr
  cases hpc : s.puts p with
  | idle => simp [hpc] at hr
  | waiting c b => simp [hpc] at hr
  | searching c b => simp [hpc] at hr
  | claimed c b f => simp [hpc] at hr
  | locked c b =>
    simp only [hpc] at hr
    obtain ⟨hwf,hstash,hbusy,hentry⟩ := touch_spec h (!c.swapIn) (accepts c.key) b
    have hlock : (s.puts p).lock = some b := by rw [hpc]; rfl
    have hothers : ∀ q c' b' f, q ≠ p → s.puts q = .claimed c' b' f →
        (touch (!c.swapIn) (accepts c.key) s.table b).slot f = .busy := fun q c' b' f _ hq =>
      hbusy f (h.claimed q c' b' f hq).1
    have hkeys : ∀ i e, (touch (!c.swapIn) (accepts c.key) s.table b).slot i = .entry e →
        (∃ j e0, s.table.slot j = .entry e0 ∧ (e0.key,e0.anchor) = (e.key,e.anchor)) ∨
          (s.puts p).lock = some e.anchor := by
      intro i e he
      obtain ⟨e0,he0,hkey,-⟩ := hentry i e he
      exact .inl ⟨i,e0,he0,hkey⟩
    cases hl : lookup (accepts c.key) s.table b with
    | hole o =>
      simp only [hl,Option.some.injEq] at hr
      subst hr
      exact h.setPut hwf hstash hothers (by simp) (by simp [Pc.lock]) (by simp [Pc.inserts]) hkeys
    | missing =>
      simp only [hl,Option.some.injEq] at hr
      subst hr
      refine h.setPut hwf hstash hothers (by simp) ?_ ?_ hkeys
      · intro b' hb'
        exact .inl (hlock.trans hb')
      · -- the lookup has seen every object of the bucket
        intro x hx i e he
        obtain ⟨e0,he0,hkey,-⟩ := hentry i e he
        rw [← hkey]
        cases hx
        refine h.wf.absent_of_missing (k := (c.key,b)) hl ?_ i e0 he0
        intro y hy
        have hyk : y.key = c.key := congrArg Prod.fst hy
        rw [accepts,hyk]
        exact sameKey_refl _
    | entry o e =>
      simp only [hl] at hr
      obtain ⟨hbit,hslot,-⟩ := lookup_entry hl
      obtain ⟨hanchor,hoffset⟩ := h.own_bit hbit hslot
      obtain ⟨e1,he1,hkey1,hoff1⟩ : ∃ e1, (touch (!c.swapIn) (accepts c.key) s.table b).slot (b+o) = .entry e1 ∧
          (e1.key,e1.anchor) = (e.key,e.anchor) ∧ e1.offset = e.offset :=
        ⟨_,touch_slot.mpr ⟨e,hslot,rfl⟩,rfl,rfl⟩
      -- both ways to write keep the key, the bucket and the offset
      have hput : ∀ x : Obj, (x.key,x.anchor) = (e.key,e.anchor) → x.offset = e.offset →
          Inv shift (s.setPut p .idle ((touch (!c.swapIn) (accepts c.key) s.table b).setSlot (b+o) (.entry x))) := by
        intro x hxk hxo
        have hwf' := (hwf.replace he1 (hxk.trans hkey1.symm) fun o' ho' => (hxo.trans hoff1.symm).trans ho').rebusy
        refine h.setPut hwf' ?_ ?_ (by simp) (by simp [Pc.lock]) (by simp [Pc.inserts]) ?_
        · intro a ha
          refine ⟨(hstash a ha).1,?_⟩
          have hne : a.1+a.2 ≠ b+o := by
            intro hx
            have := (hstash a ha).2
            rw [hx,he1] at this
            cases this
          rw [setSlot_of_ne _ hne]
          exact (hstash a ha).2
        · intro q c' b' f hq hqc
          have hne : f ≠ b+o := by
            rintro rfl
            have := hothers q c' b' _ hq hqc
            rw [he1] at this
            cases this
          rw [setSlot_of_ne _ hne]
          exact hothers q c' b' f hq hqc
        · intro i y hy
          by_cases hi : i = b+o
          · subst hi
            rw [setSlot_same,Slot.entry.injEq] at hy
            subst hy
            exact .inl ⟨b+o,e,hslot,hxk.symm⟩
          · rw [setSlot_of_ne _ hi] at hy
            exact hkeys i y hy
      rcases overwrite_cases (r := overwrite allocOk c.swapIn (touch (!c.swapIn) (accepts c.key) s.table b) b o e c.val)
        rfl with ⟨-,hw⟩ | ⟨x,hxk,-,-,hplace,hw⟩
      · rw [hw] at hr
        cases hr
        exact h.setPut hwf hstash hothers (by simp) (by simp [Pc.lock]) (by simp [Pc.inserts]) hkeys
      · rw [hw] at hr
        cases hr
        rcases hplace with ⟨ha,ho⟩ | ⟨ha,ho⟩
        · exact hput x (by rw [hxk,ha]) ho
        · exact hput x (by rw [hxk,ha,hanchor]) (ho.trans hoffset.symm)

theorem Inv.claim (hpc : s.puts p = .searching c b) (hb : b ≤ f) (hf : f < numEntries shift)
    (hnull : s.table.slot f = .null) (hnotice : ∀ a ∈ s.stash, a.1+a.2 ≠ f) :
    Inv shift (s.setPut p (.claimed c b f) (s.table.setSlot f .busy)) := by
  have hentry : ∀ {i e}, (s.table.setSlot f .busy).slot i = .entry e → s.table.slot i = .entry e := by
    intro i e he
    by_cases hi : i = f
    · subst hi
      simp at he
    · rwa [setSlot_of_ne _ hi] at he
  have hother : ∀ q c' b' f', s.puts q = .claimed c' b' f' → f' ≠ f := by
    rintro q c' b' f' hq rfl
    rw [(h.claimed q c' b' f' hq).1] at hnull
    cases hnull
  refine h.setPut (h.wf.claim hf hnull).rebusy ?_ ?_ ?_ ?_ ?_ ?_
  · intro a ha
    rw [setSlot_of_ne _ (hnotice a ha)]
    exact h.stash a ha
  · intro q c' b' f' _ hq
    rw [setSlot_of_ne _ (hother q c' b' f' hq)]
    exact (h.claimed q c' b' f' hq).1
  · intro c' b' f' heq
    cases heq
    exact ⟨setSlot_same ..,hb,fun q c' b' _ hq => hother q c' b' f hq rfl⟩
  · intro b' hb'
    exact .inl (by rw [hpc]; exact hb')
  · intro x hx i e he
    exact h.fresh p x (by rw [hpc]; exact hx) i e (hentry he)
  · intro i e he
    exact .inl ⟨i,e,hentry he,rfl⟩

theorem Inv.giveUp (hpc : s.puts p = .claimed c b f) :
    Inv shift (s.setPut p (.waiting c f) (s.table.setSlot f .null)) := by
  obtain ⟨hbusy,-⟩ := h.claimed p c b f hpc
  have hentry : ∀ {i e}, (s.table.setSlot f .null).slot i = .entry e → s.table.slot i = .entry e := by
    intro i e he
    by_cases hi : i = f
    · subst hi
      simp at he
    · rwa [setSlot_of_ne _ hi] at he
  refine h.setPut (h.wf.release hbusy).rebusy ?_ ?_ (by simp) (by simp [Pc.lock]) (by simp [Pc.inserts]) ?_
  · intro a ha
    refine ⟨(h.stash a ha).1,?_⟩
    by_cases hx : a.1+a.2 = f
    · rw [hx,setSlot_same]
    · rw [setSlot_of_ne _ hx]
      exact (h.stash a ha).2
  · intro q c' b' f' hq hqc
    have hne : f' ≠ f := by
      rintro rfl
      exact hq (h.distinct q p c' c b' b f' hqc hpc)
    rw [setSlot_of_ne _ hne]
    exact (h.claimed q c' b' f' hqc).1
  · intro i e he
    exact .inl ⟨i,e,hentry he,rfl⟩

theorem Inv.hopStep (hr : hopStep s p d = some s') : Inv shift s' := by
  rw [EvacNotices.hopStep] at hr
  cases hpc : s.puts p with
  | idle => simp [hpc] at hr
  | waiting c b => simp [hpc] at hr
  | locked c b => simp [hpc] at hr
  | searching c b => simp [hpc] at hr
  | claimed c b f =>
    simp only [hpc] at hr
    split at hr
    swap
    · cases hr
    rename_i hguard
    obtain ⟨hfar,-,hd,-⟩ := hguard
    obtain ⟨hbusy,-⟩ := h.claimed p c b f hpc
    have hother : ∀ q c' b' f', q ≠ p → s.puts q = .claimed c' b' f' → f' ≠ f := by
      rintro q c' b' f' hq hqc rfl
      exact hq (h.distinct q p c' c b' b f' hqc hpc)
    have hnotice : ∀ a ∈ s.stash, a.1+a.2 ≠ f := by
      intro a ha hx
      have := (h.stash a ha).2
      rw [hx,hbusy] at this
      cases this
    obtain ⟨b1,rfl⟩ : ∃ b1, f = b1+d := ⟨f-d,by omega⟩
    rw [Nat.add_sub_cancel] at hr
    cases hoff : offsets (s.table.bitmap b1) with
    | nil => simp [hoff] at hr
    | cons o os =>
      simp only [hoff] at hr
      split at hr
      · cases hr
      rename_i hlt
      have hbit : s.table.bit b1 o = true := mem_offsets.mp (by simp [hoff])
      have hod : o < d := by omega
      cases hslot : s.table.slot (b1+o) with
      | entry e =>
        simp only [hslot,Option.some.injEq] at hr
        subst hr
        obtain ⟨hanchor,-⟩ := h.own_bit hbit hslot
        have hwf : WF anchorScheme (numEntries shift) {a | a ∈ s.stash} _
          (relocateEntry relocate s.table b1 o d e) := h.wf.relocate hbusy hod hd hbit hanchor hslot
        have hentry : ∀ {i y}, (relocateEntry relocate s.table b1 o d e).slot i = .entry y →
            ∃ j y0, s.table.slot j = .entry y0 ∧ (y0.key,y0.anchor) = (y.key,y.anchor) := by
          intro i y hy
          rw [relocateEntry_slot] at hy
          split at hy
          · cases hy
          · split at hy
            · cases hy
              exact ⟨b1+o,e,hslot,rfl⟩
            · exact ⟨i,y,hy,rfl⟩
        refine h.setPut hwf.rebusy ?_ ?_ ?_ ?_ ?_ ?_
        · intro a ha
          obtain ⟨habit,hanull⟩ := h.stash a ha
          have hne : a.1+a.2 ≠ b1+o := by
            intro hx
            rw [hx,hslot] at hanull
            cases hanull
          refine ⟨?_,?_⟩
          · rw [relocateEntry_bit (hod.trans hd) hd,habit]
            have : ¬(a.1 = b1 ∧ a.2 = o) := fun hx => hne (by rw [hx.1,hx.2])
            simp [this]
          · rwa [relocateEntry_slot,if_neg hne,if_neg (hnotice a ha)]
        · intro q c' b' f' hq hqc
          have hb := (h.claimed q c' b' f' hqc).1
          have hne : f' ≠ b1+o := by
            rintro rfl
            rw [hslot] at hb
            cases hb
          rwa [relocateEntry_slot,if_neg hne,if_neg (hother q c' b' f' hq hqc)]
        · intro c' b' f' heq
          cases heq
          refine ⟨by rw [relocateEntry_slot,if_pos rfl],by omega,?_⟩
          intro q c' b' _ hqc
          have hb := (h.claimed q c' b' _ hqc).1
          rw [hslot] at hb
          cases hb
        · intro b' hb'
          exact .inl (by rw [hpc]; exact hb')
        · intro x hx i y hy
          obtain ⟨j,y0,hy0,hkey⟩ := hentry hy
          rw [← hkey]
          exact h.fresh p x (by rw [hpc]; exact hx) j y0 hy0
        · intro i y hy
          exact .inl (hentry hy)
      | null =>
        simp only [hslot,Option.some.injEq] at hr
        subst hr
        exact h.giveUp hpc
      | busy =>
        simp only [hslot,Option.some.injEq] at hr
        subst hr
        exact h.giveUp hpc

theorem Inv.publishStep (hr : publishStep s p allocOk = some s') : Inv shift s' := by
  rw [EvacNotices.publishStep] at hr
  cases hpc : s.puts p with
  | idle => simp [hpc] at hr
  | waiting c b => simp [hpc] at hr
  | locked c b => simp [hpc] at hr
  | searching c b => simp [hpc] at hr
  | claimed c b f =>
    simp only [hpc] at hr
    obtain ⟨hnear,hr⟩ := Option.ite_none_right_eq_some.mp hr
    obtain ⟨hbusy,hle⟩ := h.claimed p c b f hpc
    have hlock : (s.puts p).lock = some b := by rw [hpc]; rfl
    cases allocOk with
    | false =>
      simp only [Bool.false_eq_true,if_false,Option.some.injEq] at hr
      subst hr
      refine h.setPut h.wf h.stash (fun q c' b' f' _ hq => (h.claimed q c' b' f' hq).1) (by simp) (by simp [Pc.lock])
        (by simp [Pc.inserts]) ?_
      intro i e he
      exact .inl ⟨i,e,he,rfl⟩
    | true =>
      simp only [if_true,Option.some.injEq] at hr
      subst hr
      have hnew : ∀ i e', s.table.slot i = .entry e' → (e'.key,e'.anchor) ≠ (c.key,b) :=
        h.fresh p (c.key,b) (by rw [hpc]; rfl)
      have hwf := h.wf.fill hbusy (e := newObj c.key c.val c.swapIn b (f-b)) (o := f-b) (by omega)
        (by change f = b+(f-b); omega) rfl hnew
      have hslot : ∀ i, i ≠ f → ((s.table.setSlot f (.entry (newObj c.key c.val c.swapIn b (f-b)))).setBit b
          (f-b)).slot i = s.table.slot i := by
        intro i hi
        rw [setBit_slot,setSlot_of_ne _ hi]
      refine h.setPut hwf.rebusy ?_ ?_ (by simp) (by simp [Pc.lock]) (by simp [Pc.inserts]) ?_
      · intro a ha
        obtain ⟨habit,hanull⟩ := h.stash a ha
        have hne : a.1+a.2 ≠ f := by
          intro hx
          rw [hx,hbusy] at hanull
          cases hanull
        exact ⟨by rw [bit_setBit (by omega),setSlot_bit,habit]; simp,by rwa [hslot _ hne]⟩
      · intro q c' b' f' hq hqc
        have hne : f' ≠ f := by
          rintro rfl
          exact hq (h.distinct q p c' c b' b f' hqc hpc)
        rw [hslot f' hne]
        exact (h.claimed q c' b' f' hqc).1
      · intro i y hy
        by_cases hi : i = f
        · subst hi
          rw [setBit_slot,setSlot_same,Slot.entry.injEq] at hy
          subst hy
          exact .inr hlock
        · rw [hslot i hi] at hy
          exact .inl ⟨i,y,hy,rfl⟩

theorem Inv.notify_entry (he : s.table.slot i = .entry e) :
    Inv shift (notify s e.anchor e.offset) := by
  obtain ⟨o,hi,hbit,hp⟩ := h.wf.entry i e he
  change e.offset = o at hp
  subst hp
  change s.table.bit e.anchor e.offset = true at hbit
  change i = e.anchor+e.offset at hi
  subst hi
  have hout : ∀ a ∈ s.stash, a.1+a.2 ≠ e.anchor+e.offset := by
    intro a ha hx
    have := (h.stash a ha).2
    rw [hx,he] at this
    cases this
  have hnot : (e.anchor,e.offset) ∉ s.stash := fun hmem => hout _ hmem rfl
  have hclaimed : ∀ p c b f, s.puts p = .claimed c b f → (s.table.setSlot (e.anchor+e.offset) .null).slot f = .busy ∧
      b ≤ f := by
    intro p c b f hpc
    obtain ⟨hb,hle⟩ := h.claimed p c b f hpc
    have hne : f ≠ e.anchor+e.offset := by
      rintro rfl
      rw [he] at hb
      cases hb
    exact ⟨by rwa [setSlot_of_ne _ hne],hle⟩
  have hentry : ∀ {j y}, (s.table.setSlot (e.anchor+e.offset) .null).slot j = .entry y → s.table.slot j = .entry y := by
    intro j y hy
    by_cases hj : j = e.anchor+e.offset
    · subst hj
      simp at hy
    · rwa [setSlot_of_ne _ hj] at hy
  rw [notify]
  split
  · have hset : {a | a ∈ s.stash++[(e.anchor,e.offset)]} = insert (e.anchor,e.offset) {a | a ∈ s.stash} := by
      ext a
      simp [or_comm]
    refine ⟨?_,?_,?_,hclaimed,h.distinct,h.locks,?_⟩
    · rw [hset]
      exact (h.wf.defer rfl he).rebusy
    · intro a ha
      rcases List.mem_append.mp ha with ha | ha
      · exact ⟨(h.stash a ha).1,by rw [setSlot_of_ne _ (hout a ha)]; exact (h.stash a ha).2⟩
      · rw [List.mem_singleton] at ha
        subst ha
        exact ⟨hbit,setSlot_same ..⟩
    · exact List.nodup_append.mpr ⟨h.nodup,List.nodup_singleton _,by
        rintro a ha b hb rfl
        rw [List.mem_singleton] at hb
        exact hnot (hb ▸ ha)⟩
    · intro p x hx j y hy
      exact h.fresh p x hx j y (hentry hy)
  · refine ⟨(h.wf.erase hbit rfl he).rebusy,?_,h.nodup,hclaimed,h.distinct,h.locks,?_⟩
    · intro a ha
      obtain ⟨habit,hanull⟩ := h.stash a ha
      refine ⟨?_,by rwa [flipBit_slot,setSlot_of_ne _ (hout a ha)]⟩
      rw [bit_flipBit (bit_lt hbit),setSlot_bit,habit]
      have : ¬(a.1 = e.anchor ∧ a.2 = e.offset) := fun hx => hout a ha (by rw [hx.1,hx.2])
      simp [this]
    · intro p x hx j y hy
      exact h.fresh p x hx j y (hentry hy)

theorem Inv.replay {l : List (ℕ × ℕ)} (hs : s.stash = (b,o)::l) :
    Inv shift (notify {s with stash := l} b o) ∧ (notify {s with stash := l} b o).table.slot = s.table.slot := by
  obtain ⟨hbit,hnull⟩ := h.stash (b,o) (by simp [hs])
  have hnd := h.nodup
  rw [hs,List.nodup_cons] at hnd
  have hsub : ∀ a ∈ l, a ∈ s.stash := fun a ha => by simp [hs,ha]
  rw [notify]
  simp only [setSlot_eq_self hnull]
  split
  · have hset : {a | a ∈ l++[(b,o)]} = {a | a ∈ s.stash} := by
      ext a
      simp [hs,or_comm]
    refine ⟨⟨?_,?_,?_,h.claimed,h.distinct,h.locks,h.fresh⟩,rfl⟩
    · rw [hset]
      exact h.wf
    · intro a ha
      have hmem : a ∈ {a | a ∈ l++[(b,o)]} := ha
      rw [hset] at hmem
      exact h.stash a hmem
    · exact List.nodup_append.mpr ⟨hnd.2,List.nodup_singleton _,by
        rintro a ha b hb rfl
        rw [List.mem_singleton] at hb
        exact hnd.1 (hb ▸ ha)⟩
  · have hset : {a | a ∈ l} = {a | a ∈ s.stash} \ {(b,o)} := by
      ext a
      rw [hs]
      constructor
      · intro ha
        refine ⟨List.mem_cons_of_mem _ ha,?_⟩
        rintro rfl
        exact hnd.1 ha
      · rintro ⟨ha,hne⟩
        exact (List.mem_cons.mp ha).resolve_left hne
    refine ⟨⟨?_,?_,hnd.2,h.claimed,h.distinct,h.locks,h.fresh⟩,rfl⟩
    · rw [hset]
      exact (h.wf.settle hbit (by simp [hnull])).rebusy
    · intro a ha
      obtain ⟨habit,hanull⟩ := h.stash a (hsub a ha)
      refine ⟨?_,hanull⟩
      rw [bit_flipBit (bit_lt hbit),habit]
      have : ¬(a.1 = b ∧ a.2 = o) := fun hx => hnd.1 (by rwa [← hx.1,← hx.2])
      simp [this]

theorem Inv.step {a : Act m} {u : Unit} (hok : Unnoticed s a)
    (hr : step shift s a = some (u,s')) : Inv shift s' := by
  cases a with
  | call p c =>
    rw [EvacNotices.step] at hr
    cases hpc : s.puts p <;> simp only [hpc] at hr <;> cases hr
    refine h.setPut h.wf h.stash (fun q c' b' f' _ hq => (h.claimed q c' b' f' hq).1) (by simp) (by simp [Pc.lock])
      (by simp [Pc.inserts]) ?_
    intro i e he
    exact .inl ⟨i,e,he,rfl⟩
  | lock p =>
    rw [EvacNotices.step] at hr
    cases hpc : s.puts p <;> simp only [hpc] at hr <;> try cases hr
    rename_i c b
    split at hr
    · cases hr
    rename_i hfree
    cases hr
    refine h.setPut h.wf h.stash (fun q c' b' f' _ hq => (h.claimed q c' b' f' hq).1) (by simp) ?_
      (by simp [Pc.inserts]) ?_
    · rintro b' hb'
      cases hb'
      refine .inr fun q hq => hfree ?_
      exact decide_eq_true ⟨q,hq⟩
    · intro i e he
      exact .inl ⟨i,e,he,rfl⟩
  | look p allocOk =>
    obtain ⟨s1,hl,⟨⟩⟩ := Option.map_eq_some_iff.mp hr
    exact h.lookStep hl
  | claim p f =>
    rw [EvacNotices.step] at hr
    cases hpc : s.puts p <;> simp only [hpc] at hr <;> try cases hr
    obtain ⟨hguard,hr⟩ := Option.ite_none_right_eq_some.mp hr
    cases hr
    exact h.claim hpc hguard.1 hguard.2.1 hguard.2.2 hok
  | hop p d =>
    obtain ⟨s1,hl,⟨⟩⟩ := Option.map_eq_some_iff.mp hr
    exact h.hopStep hl
  | publish p allocOk =>
    obtain ⟨s1,hl,⟨⟩⟩ := Option.map_eq_some_iff.mp hr
    exact h.publishStep hl
  | evict i =>
    rw [EvacNotices.step] at hr
    cases he : s.table.slot i <;> simp only [he] at hr <;> cases hr
    exact h.notify_entry he
  | replay =>
    rw [EvacNotices.step] at hr
    cases hs : s.stash with
    | nil => simp [hs] at hr
    | cons a l =>
      simp only [hs] at hr
      cases hr
      exact (h.replay hs).1

end

end Steps

/-- As long as no put claims a slot that a stashed notice names, a replay leaves every
object in its slot with its bit, and without pending notices a bit is set exactly if
its slot holds an object of the bucket. -/
theorem notices_spare_entries {shift m : ℕ} {tr : List (Act m × Unit)} {s : State m}
    (h : Trace (step shift) Unnoticed (.init m) tr s) :
    (∀ s' i e, step shift s .replay = some ((),s') → s.table.slot i = .entry e →
      s'.table.slot i = .entry e ∧ i = e.anchor+e.offset ∧ s'.table.bit e.anchor e.offset = true) ∧
      (s.stash = [] → ∀ b o, s.table.bit b o = true ↔ ∃ e, s.table.slot (b+o) = .entry e ∧ e.anchor = b) := by
  have hinv : Inv shift s := h.invariant Inv.init fun s a _ s' hok hi hs => hi.step hok hs
  refine ⟨?_,?_⟩
  · intro s' i e hr he
    have hinv' : Inv shift s' := hinv.step (a := .replay) trivial hr
    have hslot : s'.table.slot = s.table.slot := by
      rw [step] at hr
      cases hs : s.stash with
      | nil => simp [hs] at hr
      | cons a l =>
        simp only [hs] at hr
        cases hr
        exact (hinv.replay hs).2
    rw [← hslot] at he
    obtain ⟨o,hi,hbit,hp⟩ := hinv'.wf.entry i e he
    change e.offset = o at hp
    subst hp
    exact ⟨he,hi,hbit⟩
  · intro hs b o
    constructor
    · intro hbit
      rcases hinv.wf.registered b o hbit with hstale | hentry
      · simp [hs] at hstale
      · exact hentry
    · rintro ⟨e,he,rfl⟩
      obtain ⟨o',ho',hbit,-⟩ := hinv.wf.entry _ e he
      change e.anchor+o = e.anchor+o' at ho'
      rw [Nat.add_left_cancel ho']
      exact hbit

/-- A put of one key, and a second put during which the first key is evicted and which
then claims slot `f`. -/
def evictedDuringPut (f : ℕ) : List (Act 1) :=
  [.call (.last 0) ⟨ServerTable.plainKey 1,[5],false,by decide⟩,.lock (.last 0),.look (.last 0) true,.claim (.last 0) 0,
    .publish (.last 0) true,.call (.last 0) ⟨ServerTable.plainKey 2,[6],false,by decide⟩,.lock (.last 0),.look (.last 0) true,
    .evict 0,.claim (.last 0) f,.publish (.last 0) true]

theorem notices_spare_entries_replayed : ∃ tr s s',
    Trace (step 0) Unnoticed (.init 1) tr s ∧ s.stash = [(0,0)] ∧ step 0 s .replay = some ((),s') ∧
      s'.table.slot 1 = .entry (newObj (ServerTable.plainKey 2) [6] false 0 1) := by
  have hrun : (exec (step 0) Unnoticed (.init 1) (evictedDuringPut 1)).map
      (fun r => (r.2.stash,r.2.table.slot 1,(step 0 r.2 .replay).isSome)) =
      some ([(0,0)],.entry (newObj (ServerTable.plainKey 2) [6] false 0 1),true) := by decide +kernel
  obtain ⟨outs,s,ht,hobs⟩ := exec_observe hrun
  simp only [Prod.mk.injEq] at hobs
  obtain ⟨hstash,hslot,hsome⟩ := hobs
  obtain ⟨⟨u,s'⟩,hs'⟩ := Option.isSome_iff_exists.mp hsome
  exact ⟨_,s,s',ht,hstash,hs',((notices_spare_entries ht).1 s' 1 _ hs' hslot).1⟩

/-- The second put claims the slot that was just emptied, and the replay of the notice
destroys its entry. -/
theorem replay_destroys_entry : ∃ tr s s',
    Trace (step 0) (fun _ _ => True) (.init 1) tr s ∧
      s.table.slot 0 = .entry (newObj (ServerTable.plainKey 2) [6] false 0 0) ∧
      step 0 s .replay = some ((),s') ∧ s'.table.slot 0 = .null ∧ s'.table.bit 0 0 = false := by
  have hrun : (exec (step 0) (fun _ _ => True) (.init 1) (evictedDuringPut 0)).map
      (fun r => (r.2.table.slot 0,(step 0 r.2 .replay).map fun r' => (r'.2.table.slot 0,r'.2.table.bit 0 0))) =
      some (.entry (newObj (ServerTable.plainKey 2) [6] false 0 0),some (.null,false)) := by decide +kernel
  obtain ⟨outs,s,ht,hobs⟩ := exec_observe hrun
  rw [Prod.mk.injEq] at hobs
  obtain ⟨hslot,hreplay⟩ := hobs
  obtain ⟨⟨u,s'⟩,hs',hend⟩ := Option.map_eq_some_iff.mp hreplay
  rw [Prod.mk.injEq] at hend
  exact ⟨_,s,s',ht,hslot,hs',hend⟩

end FarMemory.EvacNotices
