import FarMemory.ClientTable

/-!
# The retries of a put

`_put` computes the bucket of its key once, before the label `retry`, and then uses
the same variable for probing and displacement. A pass that gives up after it has
claimed a slot therefore restarts at that slot's index, and one whose allocation fails
leaves the slot busy. Between two passes the collector may evict entries and pending
notices may be replayed; `Interferes` allows any number of both on slots that no put
has claimed.
-/
namespace FarMemory.PutRetries
open Hopscotch Keys ClientTable
open ServerTable (numEntries)

/-- The collector empties slots, and a bit goes only with its entry or after it. -/
structure Interferes (t t' : Table Obj) : Prop where
  slot : ∀ i, t'.slot i = t.slot i ∨ (∃ e, t.slot i = .entry e) ∧ t'.slot i = .null
  bit : ∀ b o, t'.bit b o = true → t.bit b o = true
  keepsBit : ∀ b o, t.bit b o = true → t'.bit b o = true ∨ t'.slot (b+o) = .null

/-- The bits that point to an empty slot. -/
def staleBits (t : Table Obj) : Set (ℕ × ℕ) := {p | t.slot (p.1+p.2) = .null}

/-- Between operations only evicted entries leave stale bits, and no slot is busy. -/
def Idle (shift : ℕ) (t : Table Obj) : Prop := WF (scheme shift) (numEntries shift) (staleBits t) ∅ t

/-- One call: the passes with their reasons to retry, and the table and the bucket of
the last one. -/
inductive PutRun (n : ℕ) (swapIn : Bool) (k : Key) (v : Bytes) :
    Table Obj → ℕ → List Retry → Table Obj → ℕ → Table Obj → Prop
  | done {t t' : Table Obj} {b : ℕ} {allocOk existed : Bool}
      (h : attempt n allocOk swapIn t b k v = .done existed t') : PutRun n swapIn k v t b [] t b t'
  | retry {t t₁ t₂ tl t' : Table Obj} {b b' bl : ℕ} {allocOk : Bool} {why : Retry} {rs : List Retry}
      (h : attempt n allocOk swapIn t b k v = .retry why b' t₁) (hi : Interferes t₁ t₂)
      (hrest : PutRun n swapIn k v t₂ b' rs tl bl t') : PutRun n swapIn k v t b (why::rs) tl bl t'

def Registered (t : Table Obj) (k : Key) (b o : ℕ) : Prop :=
  t.bit b o = true ∧ ∃ e, t.slot (b+o) = .entry e ∧ e.key = k

/-- What a put leaves behind for its key. -/
def Transparent (shift : ℕ) (t : Table Obj) (k : Key) : Prop :=
  (∃ o, Registered t k (homeBucket shift k) o) ∧
    (∀ b o, Registered t k b o → b = homeBucket shift k) ∧ ∀ i, t.slot i ≠ .busy

def Stored (t : Table Obj) (k : Key) : Prop := ∃ i e, t.slot i = .entry e ∧ e.key = k

/-- The condition on the last pass: an entry that the lookup takes for the key is not
another key's, and a slot that is claimed at once has no bit of another bucket. -/
def Direct (shift : ℕ) (t : Table Obj) (k : Key) : Prop :=
  match lookup (accepts k) t (homeBucket shift k) with
  | .entry _ _ => Stored t k
  | _ => ∀ f, probe t (numEntries shift) (homeBucket shift k) = some f → f < homeBucket shift k+32 →
      ∀ b o, t.bit b o = true → b+o = f → b = homeBucket shift k

section Tables
variable {shift n b b' f f' : ℕ} {t t' t₁ : Table Obj} {k : Key} {v : Bytes} {e : Obj}
  {allocOk swapIn existed mutable : Bool} {accept : Obj → Bool} {why : Retry}

theorem touch_null (i : ℕ) : (touch mutable accept t b).slot i = .null ↔ t.slot i = .null := by
  cases h : t.slot i <;> simp [touch,Table.mapEntries,h]

theorem touch_busy (i : ℕ) : (touch mutable accept t b).slot i = .busy ↔ t.slot i = .busy := by
  cases h : t.slot i <;> simp [touch,Table.mapEntries,h]

theorem touch_stored : Stored (touch mutable accept t b) k ↔ Stored t k := by
  constructor
  · rintro ⟨i,e,he,rfl⟩
    obtain ⟨e0,he0,rfl⟩ := touch_slot.mp he
    exact ⟨i,e0,he0,rfl⟩
  · rintro ⟨i,e,he,rfl⟩
    exact ⟨i,_,touch_slot.mpr ⟨e,he,rfl⟩,rfl⟩

theorem Idle.touch (h : Idle shift t) : Idle shift (touch mutable accept t b) := by
  have hstale : staleBits (ClientTable.touch mutable accept t b) = staleBits t := by
    ext p
    exact touch_null _
  rw [Idle,hstale]
  exact touch_wf h

theorem Idle.interferes (h : Idle shift t) (hi : Interferes t t') : Idle shift t' := by
  have hentry : ∀ {i e}, t'.slot i = .entry e → t.slot i = .entry e := by
    intro i e he
    rcases hi.slot i with hs | ⟨-,hs⟩
    · rwa [hs] at he
    · rw [hs] at he
      cases he
  refine ⟨?_,?_,?_,?_,?_⟩
  · intro i hne
    apply h.bound i
    rcases hi.slot i with hs | ⟨⟨e,he⟩,-⟩
    · rwa [← hs]
    · simp [he]
  · intro b o hb
    rcases h.registered b o (hi.bit b o hb) with hs | ⟨e,he,hh⟩
    · refine .inl ?_
      rcases hi.slot (b+o) with hs' | ⟨-,hs'⟩
      · exact hs'.trans hs
      · exact hs'
    · rcases hi.slot (b+o) with hs' | ⟨-,hs'⟩
      · exact .inr ⟨e,hs'.trans he,hh⟩
      · exact .inl hs'
  · intro i e he
    obtain ⟨o,hi',hbit,hp⟩ := h.entry i e (hentry he)
    refine ⟨o,hi',?_,hp⟩
    rcases hi.keepsBit _ _ hbit with hb | hb
    · exact hb
    · rw [← hi',he] at hb
      cases hb
  · intro i j e e' he he'
    exact h.unique i j e e' (hentry he) (hentry he')
  · intro i
    rw [← h.busy i]
    rcases hi.slot i with hs | ⟨⟨e,he⟩,hs⟩
    · rw [hs]
    · simp [hs,he]

/-! ### Passes of any table -/

/-- Displacement keeps the keys and the other busy slots. -/
structure Moved (b f : ℕ) (t : Table Obj) (f' : ℕ) (t' : Table Obj) : Prop where
  le : b ≤ f'
  claimed : t'.slot f' = .busy
  stored : ∀ k, Stored t' k → Stored t k
  busy : ∀ i, i ≠ f → t.slot i = .busy → i ≠ f' ∧ t'.slot i = .busy

theorem Moved.step {f'' : ℕ} {t'' : Table Obj} (h : Moved b f t f' t') (hf : b+32 ≤ f')
    (hh : hop relocate t' f' = .moved f'' t'') : Moved b f t f'' t'' := by
  obtain ⟨b1,o,d,e,⟨rfl,hod,hd,-⟩,he,rfl,rfl⟩ := hop_moved (by omega) hh
  refine ⟨by omega,by rw [relocateEntry_slot,if_pos rfl],?_,?_⟩
  · rintro k ⟨j,x,hx,rfl⟩
    apply h.stored
    rw [relocateEntry_slot] at hx
    split at hx
    · cases hx
    · split at hx
      · cases hx
        exact ⟨b1+o,e,he,rfl⟩
      · exact ⟨j,x,hx,rfl⟩
  · intro i hi hb
    obtain ⟨hne,hb'⟩ := h.busy i hi hb
    have hio : i ≠ b1+o := by
      rintro rfl
      rw [he] at hb'
      cases hb'
    exact ⟨hio,by rwa [relocateEntry_slot,if_neg hio,if_neg hne]⟩

theorem Moved.loop : ∀ (fuel : ℕ) {f' : ℕ} {t' : Table Obj}, Moved b f t f' t' →
    match bringLoop relocate b fuel t' f' with
    | .ready f'' t'' => Moved b f t f'' t'' ∧ f'' < b+32
    | .hole f'' t'' => Moved b f t f'' t'' ∧ b+32 ≤ f''
    | .stuck => True := by
  intro fuel
  induction fuel with
  | zero =>
    intro f' t' _
    trivial
  | succ fuel ih =>
    intro f' t' h
    have hle := h.le
    rw [bringLoop]
    by_cases hnear : f'-b < 32
    · rw [if_pos hnear]
      exact ⟨h,by omega⟩
    · rw [if_neg hnear]
      cases hh : hop relocate t' f' with
      | moved f'' t'' => exact ih (h.step (by omega) hh)
      | hole => exact ⟨h,by omega⟩
      | stuck => trivial

theorem moved_claim (hb : b ≤ f) (hnull : t.slot f = .null) : Moved b f t f (t.setSlot f .busy) := by
  refine ⟨hb,by simp,?_,?_⟩
  · rintro k ⟨j,x,hx,hk⟩
    by_cases hj : j = f
    · subst hj
      simp at hx
    · rw [setSlot_of_ne _ hj] at hx
      exact ⟨j,x,hx,hk⟩
  · intro i hi hbusy
    exact ⟨hi,by rwa [setSlot_of_ne _ hi]⟩

theorem insertNew_cases {r : Attempt} (hr : insertNew n allocOk swapIn t b k v = r) :
    r = .abort ∨ ∃ f f' t', probe t n b = some f ∧ Moved b f t f' t' ∧
      (r = .retry .displaceNull f' (t'.setSlot f' .null) ∧ b+32 ≤ f' ∨
        bring relocate (t.setSlot f .busy) b f = .ready f' t' ∧ f' < b+32 ∧
          (r = .retry .allocFail f' t' ∨
            r = .done false ((t'.setSlot f' (.entry (newObj k v swapIn b (f'-b)))).setBit b (f'-b)))) := by
  subst hr
  rw [insertNew]
  cases hp : probe t n b with
  | none => exact .inl rfl
  | some f =>
    obtain ⟨hle,-,hnull⟩ := probe_spec hp
    have hloop := (moved_claim hle hnull).loop (f+1)
    simp only
    cases hb : bring relocate (t.setSlot f .busy) b f with
    | stuck => exact .inl rfl
    | hole f' t' =>
      rw [bring] at hb
      rw [hb] at hloop
      exact .inr ⟨f,f',t',rfl,hloop.1,.inl ⟨rfl,hloop.2⟩⟩
    | ready f' t' =>
      have hb' := hb
      rw [bring] at hb'
      rw [hb'] at hloop
      refine .inr ⟨f,f',t',rfl,hloop.1,.inr ⟨hb,hloop.2,?_⟩⟩
      cases allocOk with
      | true => exact .inr rfl
      | false => exact .inl rfl

theorem stored_setSlot {i : ℕ} {x : Obj} (he : t.slot i = .entry e) (hk : x.key = e.key) :
    Stored (t.setSlot i (.entry x)) k ↔ Stored t k := by
  constructor
  · rintro ⟨j,y,hy,rfl⟩
    by_cases hj : j = i
    · subst hj
      rw [setSlot_same,Slot.entry.injEq] at hy
      exact ⟨j,e,he,by rw [← hy,hk]⟩
    · rw [setSlot_of_ne _ hj] at hy
      exact ⟨j,y,hy,rfl⟩
  · rintro ⟨j,y,hy,rfl⟩
    by_cases hj : j = i
    · subst hj
      rw [he,Slot.entry.injEq] at hy
      exact ⟨j,x,setSlot_same .. ,by rw [hk,hy]⟩
    · exact ⟨j,y,by rwa [setSlot_of_ne _ hj],rfl⟩

theorem registered_new (hle : b ≤ f') (hnear : f' < b+32) :
    Registered ((t.setSlot f' (.entry (newObj k v swapIn b (f'-b)))).setBit b (f'-b)) k b (f'-b) := by
  refine ⟨?_,newObj k v swapIn b (f'-b),?_,rfl⟩
  · rw [bit_setBit (by omega)]
    simp
  · rw [setBit_slot,Nat.add_sub_cancel' hle,setSlot_same]

/-! ### After a pass that gave up its slot -/

/-- The call works on a wrong bucket with its key nowhere, or a slot stays busy. -/
def Astray (shift : ℕ) (k : Key) (t : Table Obj) (b : ℕ) : Prop :=
  homeBucket shift k < b ∧ ¬Stored t k ∨ ∃ i, t.slot i = .busy

theorem Astray.interferes (h : Astray shift k t b) (hi : Interferes t t') : Astray shift k t' b := by
  rcases h with ⟨hlt,habs⟩ | ⟨i,hb⟩
  · refine .inl ⟨hlt,?_⟩
    rintro ⟨i,e,he,hk⟩
    rcases hi.slot i with hs | ⟨-,hs⟩
    · exact habs ⟨i,e,hs ▸ he,hk⟩
    · rw [hs] at he
      cases he
  · refine .inr ⟨i,?_⟩
    rcases hi.slot i with hs | ⟨⟨e,he⟩,-⟩
    · rwa [hs]
    · rw [hb] at he
      cases he

theorem Astray.touched (h : Astray shift k t b) : Astray shift k (touch mutable accept t b') b := by
  rcases h with ⟨hlt,habs⟩ | ⟨i,hb⟩
  · exact .inl ⟨hlt,fun hs => habs (touch_stored.mp hs)⟩
  · exact .inr ⟨i,(touch_busy i).mpr hb⟩

/-- A slot that stays busy, or a key that stays away. -/
theorem Astray.moved (h : Astray shift k t b) (hnull : t.slot f = .null) (hm : Moved b f t f' t') :
    (homeBucket shift k < f' ∧ homeBucket shift k < b ∧ ¬Stored t' k) ∨ ∃ i, i ≠ f' ∧ t'.slot i = .busy := by
  rcases h with ⟨hlt,habs⟩ | ⟨i,hb⟩
  · have := hm.le
    exact .inl ⟨by omega,hlt,fun hs => habs (hm.stored k hs)⟩
  · have hif : i ≠ f := by
      rintro rfl
      rw [hnull] at hb
      cases hb
    exact .inr ⟨i,hm.busy i hif hb⟩

theorem Astray.retry (h : Astray shift k t b) (hr : attempt n allocOk swapIn t b k v = .retry why b' t₁) :
    Astray shift k t₁ b' := by
  rw [attempt] at hr
  split at hr
  · cases hr
    exact h.touched
  · rcases overwrite_cases hr with ⟨-,hr⟩ | ⟨x,-,-,-,-,hr⟩
    · cases hr
      exact h.touched
    · cases hr
  · have ht : Astray shift k (touch (!swapIn) (accepts k) t b) b := h.touched
    rcases insertNew_cases hr with hr | ⟨f,f',t',hp,hm,⟨hr,-⟩ | ⟨-,hnear,hr | hr⟩⟩
    · cases hr
    · cases hr
      obtain ⟨-,-,hnull⟩ := probe_spec hp
      rcases ht.moved hnull hm with ⟨hlt,-,habs⟩ | ⟨i,hi,hb⟩
      · refine .inl ⟨hlt,?_⟩
        rintro ⟨j,x,hx,hk⟩
        by_cases hj : j = b'
        · subst hj
          simp at hx
        · rw [setSlot_of_ne _ hj] at hx
          exact habs ⟨j,x,hx,hk⟩
      · exact .inr ⟨i,by rwa [setSlot_of_ne _ hi]⟩
    · cases hr
      exact .inr ⟨b',hm.claimed⟩
    · cases hr

theorem Astray.done (h : Astray shift k t b) (hr : attempt n allocOk swapIn t b k v = .done existed t') :
    ¬Transparent shift t' k := by
  rintro ⟨⟨o,-,e,he,hek⟩,hunique,hidle⟩
  have ht : Astray shift k (touch (!swapIn) (accepts k) t b) b := h.touched
  rw [attempt] at hr
  split at hr
  · cases hr
  · rename_i o' e' hl
    obtain ⟨-,hslot,-⟩ := lookup_entry hl
    obtain ⟨e1,he1,hk1⟩ : ∃ e1, (ClientTable.touch (!swapIn) (accepts k) t b).slot (b+o') = .entry e1 ∧
        e1.key = e'.key := ⟨_,touch_slot.mpr ⟨e',hslot,rfl⟩,rfl⟩
    rcases overwrite_cases hr with ⟨-,hr⟩ | ⟨x,hx,-,-,-,hr⟩
    · cases hr
    · cases hr
      rcases ht with ⟨-,habs⟩ | ⟨i,hb⟩
      · exact habs ((stored_setSlot he1 (hx.trans hk1.symm)).mp ⟨_,e,he,hek⟩)
      · have hi : i ≠ b+o' := by
          rintro rfl
          rw [he1] at hb
          cases hb
        exact hidle i (by rwa [setSlot_of_ne _ hi])
  · rcases insertNew_cases hr with hr | ⟨f,f',t₂,hp,hm,⟨hr,-⟩ | ⟨-,hnear,hr | hr⟩⟩
    · cases hr
    · cases hr
    · cases hr
    · cases hr
      obtain ⟨-,-,hnull⟩ := probe_spec hp
      rcases ht.moved hnull hm with ⟨-,hlt,-⟩ | ⟨i,hi,hb⟩
      · -- the new entry is registered with the wrong bucket
        have := hunique _ _ (registered_new hm.le hnear)
        omega
      · exact hidle i (by rwa [setBit_slot,setSlot_of_ne _ hi])

/-! ### Passes of an idle table -/

theorem Idle.not_busy (h : Idle shift t) (i : ℕ) : t.slot i ≠ .busy := by
  intro hb
  exact (h.busy i).mp hb

theorem Idle.home_of_bit {o : ℕ} (h : Idle shift t) (hbit : t.bit b o = true) (he : t.slot (b+o) = .entry e) :
    homeBucket shift e.key = b := by
  refine WF.home_of_bit h hbit ?_ he
  intro hs
  rw [staleBits,Set.mem_ofPred_eq,he] at hs
  cases hs

theorem Idle.absent (h : Idle shift t) (hhome : homeBucket shift k = b) (hl : lookup (accepts k) t b = .missing) :
    ¬Stored t k := by
  subst hhome
  rintro ⟨i,y,hy,hyk⟩
  refine WF.absent_of_missing (k := k) h hl ?_ i y hy hyk
  rintro z rfl
  exact sameKey_refl _

/-- A retry either restarts on the same bucket with an idle table or leads astray. -/
theorem Idle.retry (h : Idle shift t) (hhome : homeBucket shift k = b)
    (hr : attempt (numEntries shift) allocOk swapIn t b k v = .retry why b' t₁) :
    (why ≠ .displaceNull ∧ why ≠ .allocFail ∧ b' = b ∧ Idle shift t₁) ∨
      ((why = .displaceNull ∨ why = .allocFail) ∧ Astray shift k t₁ b') := by
  have ht : Idle shift (ClientTable.touch (!swapIn) (accepts k) t b) := h.touch
  rw [attempt] at hr
  split at hr
  · cases hr
    exact .inl ⟨by simp,by simp,rfl,ht⟩
  · rcases overwrite_cases hr with ⟨-,hr⟩ | ⟨x,-,-,-,-,hr⟩
    · cases hr
      exact .inl ⟨by simp,by simp,rfl,ht⟩
    · cases hr
  · rename_i hl
    refine .inr ?_
    rcases insertNew_cases hr with hr | ⟨f,f',t',hp,hm,⟨hr,hfar⟩ | ⟨-,-,hr | hr⟩⟩
    · cases hr
    · cases hr
      refine ⟨.inl rfl,.inl ⟨by omega,?_⟩⟩
      rintro ⟨j,x,hx,hk⟩
      by_cases hj : j = b'
      · subst hj
        simp at hx
      · rw [setSlot_of_ne _ hj] at hx
        exact h.absent hhome hl (touch_stored.mp (hm.stored k ⟨j,x,hx,hk⟩))
    · cases hr
      exact ⟨.inr rfl,.inr ⟨b',hm.claimed⟩⟩
    · cases hr

/-- Overwriting what the lookup found registers the key exactly if it was stored. -/
theorem Idle.overwrite {i : ℕ} {x : Obj} (h : Idle shift t) (he : t.slot i = .entry e) (hk : x.key = e.key) :
    Transparent shift (t.setSlot i (.entry x)) k ↔ Stored t k := by
  have hentry : ∀ {j y}, (t.setSlot i (.entry x)).slot j = .entry y → ∃ y0, t.slot j = .entry y0 ∧ y.key = y0.key := by
    intro j y hy
    by_cases hj : j = i
    · subst hj
      rw [setSlot_same,Slot.entry.injEq] at hy
      exact ⟨e,he,by rw [← hy,hk]⟩
    · rw [setSlot_of_ne _ hj] at hy
      exact ⟨y,hy,rfl⟩
  constructor
  · rintro ⟨⟨o,-,y,hy,hyk⟩,-⟩
    exact (stored_setSlot he hk).mp ⟨_,y,hy,hyk⟩
  · intro hs
    refine ⟨?_,?_,?_⟩
    · obtain ⟨j,y,hy,rfl⟩ := (stored_setSlot he hk).mpr hs
      obtain ⟨y0,hy0,hkey⟩ := hentry hy
      obtain ⟨o,ho,hbit,-⟩ := WF.entry h j y0 hy0
      change j = homeBucket shift y0.key+o at ho
      refine ⟨o,?_,y,?_,rfl⟩
      · rw [hkey]
        exact hbit
      · rw [hkey,← ho]
        exact hy
    · rintro b o ⟨hbit,y,hy,rfl⟩
      obtain ⟨y0,hy0,hkey⟩ := hentry hy
      rw [hkey]
      exact (h.home_of_bit hbit hy0).symm
    · intro j hj
      by_cases hji : j = i
      · subst hji
        simp at hj
      · rw [setSlot_of_ne _ hji] at hj
        exact h.not_busy j hj

/-- An insertion registers the key with its bucket only, unless it took a slot as it
was and another bucket has a bit there. -/
theorem Idle.insertNew (h : Idle shift t) (hhome : homeBucket shift k = b) (habs : ¬Stored t k)
    (hp : probe t (numEntries shift) b = some f)
    (hb : bring relocate (t.setSlot f .busy) b f = .ready f' t') (hm : Moved b f t f' t') (hnear : f' < b+32) :
    Transparent shift ((t'.setSlot f' (.entry (newObj k v swapIn b (f'-b)))).setBit b (f'-b)) k ↔
      (f < b+32 → ∀ b' o', t.bit b' o' = true → b'+o' = f → b' = b) := by
  obtain ⟨hle,hlt,hnull⟩ := probe_spec hp
  have hbehind : StaleBehind (staleBits t) t f := by
    intro b' o' e hs he
    rw [staleBits,Set.mem_ofPred_eq,he] at hs
    cases hs
  obtain ⟨hopped,-,-⟩ := (Hopped.claim h hlt hnull hbehind).ready hle hb
  have hself : Registered ((t'.setSlot f' (.entry (newObj k v swapIn b (f'-b)))).setBit b (f'-b)) k b (f'-b) :=
    registered_new hm.le hnear
  -- the slot was claimed as it was, or it was left by an entry
  have hdirect : f < b+32 → f' = f ∧ t'.bit = t.bit := by
    intro hf
    rw [bring,bringLoop,if_pos (by omega)] at hb
    cases hb
    exact ⟨rfl,rfl⟩
  constructor
  · rintro ⟨-,hunique,-⟩ hf b' o' hbit hbo
    obtain ⟨rfl,hbits⟩ := hdirect hf
    rw [← hhome]
    refine hunique b' o' ⟨?_,newObj k v swapIn b (f'-b),?_,rfl⟩
    · rw [bit_setBit (by omega),setSlot_bit,hbits,hbit]
      simp
    · rw [setBit_slot,hbo,setSlot_same]
  · intro hclean
    refine ⟨⟨f'-b,hhome ▸ hself⟩,?_,?_⟩
    · rintro b' o' ⟨hbit,y,hy,hyk⟩
      have hbo : b'+o' = f' := by
        by_contra hne
        rw [setBit_slot,setSlot_of_ne _ hne] at hy
        exact habs (hm.stored k ⟨_,y,hy,hyk⟩)
      rw [bit_setBit (by omega),Bool.or_eq_true,decide_eq_true_eq,setSlot_bit] at hbit
      rw [hhome]
      rcases hbit with hbit | ⟨rfl,-⟩
      · by_cases hf : f < b+32
        · obtain ⟨rfl,hbits⟩ := hdirect hf
          rw [hbits] at hbit
          exact hclean hf b' o' hbit hbo
        · -- after a hop no bit points to the slot
          rcases hopped.wf.registered b' o' hbit with hs | ⟨y',hy',-⟩
          · exact absurd hbo (hopped.fresh (by omega) b' o' hs)
          · rw [hbo,hm.claimed] at hy'
            cases hy'
      · rfl
    · intro i hi
      by_cases hif : i = f'
      · subst hif
        simp at hi
      · rw [setBit_slot,setSlot_of_ne _ hif,hopped.wf.busy i] at hi
        exact hif hi

theorem probe_touch : probe (touch mutable accept t b') n b = probe t n b := by
  unfold probe
  congr 1
  funext j
  cases h : t.slot j <;> simp [touch,Table.mapEntries,h,Slot.isNull]

theorem Idle.done (h : Idle shift t)
    (hr : attempt (numEntries shift) allocOk swapIn t (homeBucket shift k) k v = .done existed t') :
    Transparent shift t' k ↔ Direct shift t k := by
  have ht : Idle shift (ClientTable.touch (!swapIn) (accepts k) t (homeBucket shift k)) := h.touch
  rw [attempt] at hr
  rw [Direct]
  generalize hhome : homeBucket shift k = b at *
  cases hl : lookup (accepts k) t b with
  | hole o => simp [hl] at hr
  | entry o e =>
    simp only [hl] at hr ⊢
    obtain ⟨-,hslot,-⟩ := lookup_entry hl
    obtain ⟨e1,he1,hk1⟩ : ∃ e1, (ClientTable.touch (!swapIn) (accepts k) t b).slot (b+o) = .entry e1 ∧
        e1.key = e.key := ⟨_,touch_slot.mpr ⟨e,hslot,rfl⟩,rfl⟩
    rcases overwrite_cases hr with ⟨-,hr⟩ | ⟨x,hx,-,-,-,hr⟩
    · cases hr
    · cases hr
      rw [ht.overwrite he1 (hx.trans hk1.symm),touch_stored]
  | missing =>
    simp only [hl] at hr ⊢
    have habs := h.absent hhome hl
    rcases insertNew_cases hr with hr | ⟨f,f',t₂,hp,hm,⟨hr,-⟩ | ⟨hb,hnear,hr | hr⟩⟩
    · cases hr
    · cases hr
    · cases hr
    · cases hr
      rw [ht.insertNew hhome (fun hs => habs (touch_stored.mp hs)) hp hb hm hnear]
      rw [probe_touch] at hp
      simp only [hp,Option.some.injEq,forall_eq']
      rfl

/-! ### Whole calls -/

theorem Astray.run {tl : Table Obj} {bl : ℕ} {rs : List Retry} (h : Astray shift k t b)
    (hr : PutRun n swapIn k v t b rs tl bl t') : ¬Transparent shift t' k := by
  induction hr with
  | done ha => exact h.done ha
  | retry ha hi _ ih => exact ih ((h.retry ha).interferes hi)

end Tables

/-- A call registers its key with its bucket only and leaves no slot busy exactly if no
pass gave up a slot it had claimed and the last pass was direct. -/
theorem put_transparent_iff {shift : ℕ} {swapIn : Bool} {k : Key} {v : Bytes} {t tl t' : Table Obj} {bl : ℕ}
    {rs : List Retry} (h : Idle shift t)
    (hr : PutRun (numEntries shift) swapIn k v t (homeBucket shift k) rs tl bl t') :
    Transparent shift t' k ↔ (.displaceNull ∉ rs ∧ .allocFail ∉ rs) ∧ Direct shift tl k := by
  generalize hhome : homeBucket shift k = b at hr
  induction hr with
  | done ha =>
    subst hhome
    simpa using h.done ha
  | @retry t t₁ t₂ tl t' b b' bl allocOk why rs ha hi hrest ih =>
    rcases h.retry hhome ha with ⟨hd,hf,rfl,hidle⟩ | ⟨hwhy,hastray⟩
    · rw [ih (hidle.interferes hi) hhome]
      simp [Ne.symm hd,Ne.symm hf]
    · refine iff_of_false ((hastray.interferes hi).run hrest) ?_
      rintro ⟨⟨hd,hf⟩,-⟩
      rcases hwhy with rfl | rfl
      · exact hd List.mem_cons_self
      · exact hf List.mem_cons_self

structure PutResult where
  retries : List Retry
  last : Table Obj
  bucketIdx : ℕ
  table : Table Obj

/-- A call without interference, by the answers of the allocator. -/
def runPut (n : ℕ) (swapIn : Bool) (k : Key) (v : Bytes) : List Bool → Table Obj → ℕ → Option PutResult
  | [],_,_ => none
  | allocOk::as,t,b =>
    match attempt n allocOk swapIn t b k v with
    | .done _ t' => some ⟨[],t,b,t'⟩
    | .retry why b' t₁ => (runPut n swapIn k v as t₁ b').map fun r => {r with retries := why::r.retries}
    | .abort => none

theorem putRun_of_runPut {n : ℕ} {swapIn : Bool} {k : Key} {v : Bytes} {as : List Bool} :
    ∀ {t : Table Obj} {b : ℕ} {r : PutResult}, runPut n swapIn k v as t b = some r →
      PutRun n swapIn k v t b r.retries r.last r.bucketIdx r.table := by
  induction as with
  | nil =>
    intro t b r h
    cases h
  | cons allocOk as ih =>
    intro t b r h
    rw [runPut] at h
    cases ha : attempt n allocOk swapIn t b k v with
    | abort => simp [ha] at h
    | done existed t₁ =>
      simp only [ha,Option.some.injEq] at h
      subst h
      exact .done ha
    | retry why b' t₁ =>
      simp only [ha,Option.map_eq_some_iff] at h
      obtain ⟨r',hrest,rfl⟩ := h
      exact .retry ha ⟨fun _ => .inl rfl,fun _ _ => id,fun _ _ => .inl⟩ (ih hrest)

/-- A table of one bucket with one key. -/
def oneKey : Table Obj := ((localPut 0 false .empty (ServerTable.plainKey 1) [5]).map Prod.snd).getD .empty

theorem oneKey_idle : Idle 0 oneKey := by
  have hsome : (localPut 0 false .empty (ServerTable.plainKey 1) [5]).isSome = true := by decide +kernel
  obtain ⟨⟨existed,t⟩,ht⟩ := Option.isSome_iff_exists.mp hsome
  have hone : oneKey = t := by simp [oneKey,ht]
  have hclear : ServerTable.ClearIn Obj.key 0 .empty (ServerTable.plainKey 1) := by decide +kernel
  have hgood := (localPut_spec Good.empty hclear ht).good.wf
  rw [hone]
  exact ⟨hgood.bound,fun b o hb => .inr ((hgood.registered b o hb).resolve_left (Set.notMem_empty _)),hgood.entry,
    hgood.unique,hgood.busy⟩

/-- A failed reallocation is harmless. -/
theorem put_transparent_iff_realloc : ∃ tl bl t',
    PutRun (numEntries 0) false (ServerTable.plainKey 1) [6,7] oneKey (homeBucket 0 (ServerTable.plainKey 1))
      [.reallocFail] tl bl t' ∧ Transparent 0 t' (ServerTable.plainKey 1) := by
  have hrun : (runPut (numEntries 0) false (ServerTable.plainKey 1) [6,7] [false,true] oneKey
      (homeBucket 0 (ServerTable.plainKey 1))).map (fun r => (r.retries,
        lookup (accepts (ServerTable.plainKey 1)) r.last (homeBucket 0 (ServerTable.plainKey 1)))) =
      some ([.reallocFail],.entry 0 (newObj (ServerTable.plainKey 1) [5] false 0 0)) := by decide +kernel
  obtain ⟨r,hput,hobs⟩ := Option.map_eq_some_iff.mp hrun
  rw [Prod.mk.injEq] at hobs
  obtain ⟨hretries,hl⟩ := hobs
  have hr := putRun_of_runPut hput
  rw [hretries] at hr
  refine ⟨_,_,_,hr,(put_transparent_iff oneKey_idle hr).mpr ⟨by decide,?_⟩⟩
  rw [Direct,hl]
  exact ⟨_,_,(lookup_entry hl).2.1,rfl⟩

/-- A failed allocation leaves a busy slot, and the key ends in the bucket of that slot. -/
theorem failed_allocation_leaves_busy : ∃ tl bl t',
    Idle 0 oneKey ∧ PutRun (numEntries 0) false (ServerTable.plainKey 2) [6] oneKey
      (homeBucket 0 (ServerTable.plainKey 2)) [.allocFail] tl bl t' ∧
      homeBucket 0 (ServerTable.plainKey 2) = 0 ∧ t'.slot 1 = .busy ∧ Registered t' (ServerTable.plainKey 2) 1 1 := by
  have hrun : (runPut (numEntries 0) false (ServerTable.plainKey 2) [6] [false,true] oneKey
      (homeBucket 0 (ServerTable.plainKey 2))).map (fun r => (r.retries,r.table.slot 1,r.table.bit 1 1,r.table.slot 2)) =
      some ([.allocFail],.busy,true,.entry (newObj (ServerTable.plainKey 2) [6] false 1 1)) := by decide +kernel
  obtain ⟨r,hput,hobs⟩ := Option.map_eq_some_iff.mp hrun
  simp only [Prod.mk.injEq] at hobs
  obtain ⟨hretries,hbusy,hbit,hentry⟩ := hobs
  have hr := putRun_of_runPut hput
  rw [hretries] at hr
  exact ⟨_,_,_,oneKey_idle,hr,by decide +kernel,hbusy,hbit,_,hentry,rfl⟩

end FarMemory.PutRetries
