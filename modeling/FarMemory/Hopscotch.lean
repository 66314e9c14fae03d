import Mathlib

/-!
# Hopscotch tables

A table is an array of slots. Every bucket owns a bitmap over the 32 slots that
start at its own index; a set bit registers the entry in that slot with the bucket.
An insertion claims the first empty slot behind its bucket and moves it closer by
hops, each of which puts an entry of an earlier bucket into the empty slot.

The library is about one table that nobody else changes. What an entry is stays
open: a `Scheme` gives its key, its payload, the bucket of a key and what happens to
an entry that changes its place. `WF` also covers tables with stale bits, whose slot
holds nothing or something else, so that its rules can be used where deregistration
is deferred.
-/
namespace FarMemory.Hopscotch
variable {ε κ π : Type*}

inductive Slot (ε : Type*)
  | null
  | busy
  | entry (e : ε)
  deriving DecidableEq, Repr

structure Table (ε : Type*) where
  bitmap : ℕ → BitVec 32
  slot : ℕ → Slot ε

namespace Table

def empty : Table ε := ⟨fun _ => 0#32,fun _ => .null⟩

def bit (t : Table ε) (b o : ℕ) : Bool := (t.bitmap b).getLsbD o

def setSlot (t : Table ε) (i : ℕ) (x : Slot ε) : Table ε := {t with slot := Function.update t.slot i x}

def setBit (t : Table ε) (b o : ℕ) : Table ε :=
  {t with bitmap := Function.update t.bitmap b (t.bitmap b ||| 1#32 <<< o)}

def flipBit (t : Table ε) (b o : ℕ) : Table ε :=
  {t with bitmap := Function.update t.bitmap b (t.bitmap b ^^^ 1#32 <<< o)}

def mapEntries (t : Table ε) (g : ℕ → ε → ε) : Table ε :=
  {t with slot := fun i => match t.slot i with
    | .entry e => .entry (g i e)
    | x => x}

end Table

/-- The set bits in ascending order, as a loop that takes the lowest set bit and
clears it visits them. -/
def offsets (m : BitVec 32) : List ℕ := (List.range 32).filter m.getLsbD

inductive Found (ε : Type*)
  | entry (offset : ℕ) (e : ε)
  | hole (offset : ℕ)
  | missing
  deriving DecidableEq, Repr

/-- The first registered entry that is accepted, unless an empty slot comes first. -/
def scan (accept : ε → Bool) (t : Table ε) (b : ℕ) : List ℕ → Found ε
  | [] => .missing
  | o::os =>
    match t.slot (b+o) with
    | .entry e => if accept e then .entry o e else scan accept t b os
    | _ => .hole o

def lookup (accept : ε → Bool) (t : Table ε) (b : ℕ) : Found ε := scan accept t b (offsets (t.bitmap b))

/-- The same scan, passing over empty slots. -/
def scanSkip (accept : ε → Bool) (t : Table ε) (b : ℕ) : List ℕ → Option (ℕ × ε)
  | [] => none
  | o::os =>
    match t.slot (b+o) with
    | .entry e => if accept e then some (o,e) else scanSkip accept t b os
    | _ => scanSkip accept t b os

def lookupSkip (accept : ε → Bool) (t : Table ε) (b : ℕ) : Option (ℕ × ε) :=
  scanSkip accept t b (offsets (t.bitmap b))

def Slot.isNull : Slot ε → Bool
  | .null => true
  | _ => false

/-- The first empty slot from `i` on. -/
def probe (t : Table ε) (n i : ℕ) : Option ℕ := (List.range' i (n-i)).find? fun j => (t.slot j).isNull

/-- Put the entry at offset `o` of the bucket into its empty slot at offset `d`. -/
def relocateEntry (relocate : ℕ → ε → ε) (t : Table ε) (b o d : ℕ) (e : ε) : Table ε :=
  (((t.setBit b d).setSlot (b+d) (.entry (relocate d e))).setSlot (b+o) .busy).flipBit b o

/-! ### Bits and scans -/

section Basic
variable {t : Table ε} {o b i : ℕ} {accept : ε → Bool} {os : List ℕ}

theorem getLsbD_single (ho : o < 32) (j : ℕ) : (1#32 <<< o).getLsbD j = decide (j = o) := by
  by_cases h : j = o
  · subst h
    simp [ho]
  · simp only [BitVec.getLsbD_shiftLeft,h,decide_false]
    by_cases hlt : j < o
    · simp [hlt]
    · have : j-o ≠ 0 := by omega
      simp [BitVec.getLsbD_one,this]

theorem bit_setBit (ho : o < 32) (b' o' : ℕ) :
    (t.setBit b o).bit b' o' = (t.bit b' o' || decide (b' = b ∧ o' = o)) := by
  by_cases hb : b' = b
  · subst hb
    simp [Table.setBit,Table.bit,getLsbD_single ho]
  · simp [Table.setBit,Table.bit,hb]

theorem bit_flipBit (ho : o < 32) (b' o' : ℕ) :
    (t.flipBit b o).bit b' o' = (t.bit b' o' ^^ decide (b' = b ∧ o' = o)) := by
  by_cases hb : b' = b
  · subst hb
    simp [Table.flipBit,Table.bit,getLsbD_single ho]
  · simp [Table.flipBit,Table.bit,hb]

@[simp] theorem setBit_slot (b o : ℕ) : (t.setBit b o).slot = t.slot := rfl
@[simp] theorem flipBit_slot (b o : ℕ) : (t.flipBit b o).slot = t.slot := rfl
@[simp] theorem setSlot_bit (i : ℕ) (x : Slot ε) : (t.setSlot i x).bit = t.bit := rfl

theorem setSlot_eq_self {x : Slot ε} (h : t.slot i = x) : t.setSlot i x = t := by
  cases t
  subst h
  simp [Table.setSlot]

@[simp] theorem setSlot_same (i : ℕ) (x : Slot ε) : (t.setSlot i x).slot i = x := Function.update_self ..

theorem setSlot_of_ne {j : ℕ} (x : Slot ε) (h : j ≠ i) : (t.setSlot i x).slot j = t.slot j :=
  Function.update_of_ne h ..

theorem mem_offsets {m : BitVec 32} : o ∈ offsets m ↔ m.getLsbD o = true := by
  simp only [offsets,List.mem_filter,List.mem_range,and_iff_right_iff_imp]
  exact BitVec.lt_of_getLsbD

theorem bit_lt (h : t.bit b o = true) : o < 32 := BitVec.lt_of_getLsbD h

theorem scan_entry {e : ε}
    (h : scan accept t b os = .entry o e) : o ∈ os ∧ t.slot (b+o) = .entry e ∧ accept e = true := by
  induction os with
  | nil => cases h
  | cons o' os ih =>
    rw [scan] at h
    split at h
    · rename_i e' he'
      split at h
      · cases h
        exact ⟨by simp,he',‹_›⟩
      · obtain ⟨hm,hrest⟩ := ih h
        exact ⟨by simp [hm],hrest⟩
    · cases h

theorem scan_hole (h : scan accept t b os = .hole o) :
    o ∈ os ∧ ∀ e, t.slot (b+o) ≠ .entry e := by
  induction os with
  | nil => cases h
  | cons o' os ih =>
    rw [scan] at h
    split at h
    · split at h
      · cases h
      · obtain ⟨hm,hrest⟩ := ih h
        exact ⟨by simp [hm],hrest⟩
    · rename_i hne
      cases h
      exact ⟨by simp,hne⟩

theorem scan_missing (h : scan accept t b os = .missing) :
    ∀ o ∈ os, ∃ e, t.slot (b+o) = .entry e ∧ accept e = false := by
  induction os with
  | nil =>
    intro o ho
    cases ho
  | cons o' os ih =>
    rw [scan] at h
    split at h
    · rename_i e he
      split at h
      · cases h
      · rename_i ha
        intro o ho
        rcases List.mem_cons.mp ho with rfl | ho
        · exact ⟨e,he,by simpa using ha⟩
        · exact ih h o ho
    · cases h

theorem lookup_entry {e : ε} (h : lookup accept t b = .entry o e) :
    t.bit b o = true ∧ t.slot (b+o) = .entry e ∧ accept e = true := by
  obtain ⟨hm,hrest⟩ := scan_entry h
  exact ⟨mem_offsets.mp hm,hrest⟩

theorem lookup_hole (h : lookup accept t b = .hole o) :
    t.bit b o = true ∧ ∀ e, t.slot (b+o) ≠ .entry e := by
  obtain ⟨hm,hrest⟩ := scan_hole h
  exact ⟨mem_offsets.mp hm,hrest⟩

theorem lookup_missing (h : lookup accept t b = .missing)
    (ho : t.bit b o = true) : ∃ e, t.slot (b+o) = .entry e ∧ accept e = false :=
  scan_missing h o (mem_offsets.mpr ho)

theorem lookupSkip_eq (h : ∀ o, lookup accept t b ≠ .hole o) :
    lookupSkip accept t b = match lookup accept t b with
      | .entry o e => some (o,e)
      | _ => none := by
  unfold lookup lookupSkip at *
  generalize offsets (t.bitmap b) = os at *
  induction os with
  | nil => rfl
  | cons o os ih =>
    rw [scan] at h ⊢
    rw [scanSkip]
    cases hs : t.slot (b+o) with
    | entry e =>
      simp only [hs] at h ⊢
      by_cases ha : accept e = true
      · simp [ha]
      · simp only [ha] at h ⊢
        exact ih h
    | null => simp [hs] at h
    | busy => simp [hs] at h

theorem probe_spec {n j : ℕ} (h : probe t n i = some j) :
    i ≤ j ∧ j < n ∧ t.slot j = .null := by
  have hm := List.mem_of_find?_eq_some h
  have hs := List.find?_some h
  rw [List.mem_range'_1] at hm
  refine ⟨hm.1,by omega,?_⟩
  cases hj : t.slot j with
  | null => rfl
  | busy => simp [hj,Slot.isNull] at hs
  | entry e => simp [hj,Slot.isNull] at hs

end Basic

/-! ### The invariant -/

/-- What a table needs to know of its entries. `Placed e o` says that the entry knows
its offset `o`, if it records one at all. -/
structure Scheme (ε κ π : Type*) where
  key : ε → κ
  payload : ε → π
  home : κ → ℕ
  relocate : ℕ → ε → ε
  Placed : ε → ℕ → Prop
  key_relocate : ∀ o e, key (relocate o e) = key e
  payload_relocate : ∀ o e, payload (relocate o e) = payload e
  placed_relocate : ∀ o e, Placed (relocate o e) o

/-- Bits and entries correspond, apart from the stale bits, every key occurs once,
and exactly the claimed slots are busy. -/
structure WF (S : Scheme ε κ π) (n : ℕ) (stale : Set (ℕ × ℕ)) (claimed : Set ℕ) (t : Table ε) :
    Prop where
  bound : ∀ i, t.slot i ≠ .null → i < n
  registered : ∀ b o, t.bit b o = true → (b,o) ∈ stale ∨ ∃ e, t.slot (b+o) = .entry e ∧ S.home (S.key e) = b
  entry : ∀ i e, t.slot i = .entry e → ∃ o, i = S.home (S.key e)+o ∧ t.bit (S.home (S.key e)) o = true ∧
    S.Placed e o
  unique : ∀ i j e e', t.slot i = .entry e → t.slot j = .entry e' → S.key e = S.key e' → i = j
  busy : ∀ i, t.slot i = .busy ↔ i ∈ claimed

def Maps (S : Scheme ε κ π) (t : Table ε) (k : κ) (v : π) : Prop :=
  ∃ i e, t.slot i = .entry e ∧ S.key e = k ∧ S.payload e = v

section Rules
variable {S : Scheme ε κ π} {n : ℕ} {stale : Set (ℕ × ℕ)} {claimed : Set ℕ} {t : Table ε}
  {b i o d : ℕ} {e : ε} {g : ℕ → ε → ε}

theorem WF.empty : WF S n ∅ ∅ (Table.empty : Table ε) := by
  refine ⟨by simp [Table.empty],by simp [Table.empty,Table.bit],?_,?_,by simp [Table.empty]⟩
  · intro i e h
    simp [Table.empty] at h
  · intro i j e e' h
    simp [Table.empty] at h

theorem Maps.unique {k : κ} {v v' : π} (h : WF S n stale claimed t) (hv : Maps S t k v) (hv' : Maps S t k v') :
    v = v' := by
  obtain ⟨i,e,he,hk,rfl⟩ := hv
  obtain ⟨j,e',he',hk',rfl⟩ := hv'
  have hij := h.unique i j e e' he he' (hk.trans hk'.symm)
  rw [hij,he',Slot.entry.injEq] at he
  rw [he]

theorem WF.rebusy (h : WF S n stale claimed t) : WF S n stale {i | t.slot i = .busy} t :=
  ⟨h.bound,h.registered,h.entry,h.unique,fun _ => Iff.rfl⟩

theorem WF.not_hole (h : WF S n ∅ claimed t) {accept : ε → Bool} (o : ℕ) :
    lookup accept t b ≠ .hole o := by
  intro hl
  obtain ⟨hbit,hne⟩ := lookup_hole hl
  rcases h.registered b o hbit with hs | ⟨e,he,-⟩
  · exact hs
  · exact hne e he

section
variable (h : WF S n stale claimed t)
include h

theorem WF.absent_of_missing {accept : ε → Bool} {k : κ}
    (hmiss : lookup accept t (S.home k) = .missing) (haccept : ∀ e, S.key e = k → accept e = true)
    (i : ℕ) (e : ε) (he : t.slot i = .entry e) : S.key e ≠ k := by
  rintro rfl
  obtain ⟨o,rfl,hbit,-⟩ := h.entry i e he
  obtain ⟨e',he',ha⟩ := lookup_missing hmiss hbit
  rw [he,Slot.entry.injEq] at he'
  rw [haccept e' (by rw [he'])] at ha
  cases ha

theorem WF.setIdle {x : Slot ε} {claimed' : Set ℕ} (hi : i < n)
    (hold : ∀ e, t.slot i ≠ .entry e) (hx : ∀ e, x ≠ .entry e)
    (hbusy : ∀ j, (t.setSlot i x).slot j = .busy ↔ j ∈ claimed') :
    WF S n stale claimed' (t.setSlot i x) := by
  have hslot : ∀ j e, (t.setSlot i x).slot j = .entry e ↔ t.slot j = .entry e := by
    intro j e
    by_cases hj : j = i
    · subst hj
      rw [setSlot_same]
      exact ⟨fun hx' => absurd hx' (hx e),fun hx' => absurd hx' (hold e)⟩
    · rw [setSlot_of_ne _ hj]
  refine ⟨?_,?_,?_,?_,hbusy⟩
  · intro j hj
    by_cases hji : j = i
    · exact hji ▸ hi
    · rw [setSlot_of_ne _ hji] at hj
      exact h.bound j hj
  · intro b o hb
    simpa only [hslot] using h.registered b o hb
  · intro j e he
    exact h.entry j e ((hslot j e).mp he)
  · intro j j' e e' he he'
    exact h.unique j j' e e' ((hslot j e).mp he) ((hslot j' e').mp he')

theorem WF.claim (hi : i < n) (hnull : t.slot i = .null) :
    WF S n stale (insert i claimed) (t.setSlot i .busy) := by
  refine h.setIdle hi (by simp [hnull]) (by simp) ?_
  intro j
  by_cases hji : j = i
  · subst hji
    simp
  · rw [setSlot_of_ne _ hji,h.busy j]
    simp [hji]

theorem WF.release (hi : i ∈ claimed) :
    WF S n stale (claimed \ {i}) (t.setSlot i .null) := by
  have hbusy : t.slot i = .busy := (h.busy i).mpr hi
  refine h.setIdle (h.bound i (by simp [hbusy])) (by simp [hbusy]) (by simp) ?_
  intro j
  by_cases hji : j = i
  · subst hji
    simp
  · rw [setSlot_of_ne _ hji,h.busy j]
    simp [hji]

theorem WF.fill {f : ℕ} (hclaimed : f ∈ claimed) {e : ε} {o : ℕ} (ho : o < 32)
    (hf : f = S.home (S.key e)+o) (hplaced : S.Placed e o)
    (hnew : ∀ i e', t.slot i = .entry e' → S.key e' ≠ S.key e) :
    WF S n stale (claimed \ {f}) ((t.setSlot f (.entry e)).setBit (S.home (S.key e)) o) := by
  have hbusy : t.slot f = .busy := (h.busy f).mpr hclaimed
  have hcases : ∀ j e', ((t.setSlot f (.entry e)).setBit (S.home (S.key e)) o).slot j = .entry e' →
      (j = f ∧ e' = e) ∨ (j ≠ f ∧ t.slot j = .entry e') := by
    intro j e' he
    by_cases hj : j = f
    · subst hj
      simp only [setBit_slot,setSlot_same,Slot.entry.injEq] at he
      exact .inl ⟨rfl,he.symm⟩
    · rw [setBit_slot,setSlot_of_ne _ hj] at he
      exact .inr ⟨hj,he⟩
  refine ⟨?_,?_,?_,?_,?_⟩
  · intro j hj
    by_cases hjf : j = f
    · subst hjf
      exact h.bound j (by simp [hbusy])
    · rw [setBit_slot,setSlot_of_ne _ hjf] at hj
      exact h.bound j hj
  · intro b o' hb
    rw [bit_setBit ho,Bool.or_eq_true,decide_eq_true_eq] at hb
    rcases hb with hb | ⟨rfl,rfl⟩
    · rcases h.registered b o' hb with hs | ⟨e',he',hhome⟩
      · exact .inl hs
      · have hne : b+o' ≠ f := fun hx => by rw [hx,hbusy] at he'; cases he'
        exact .inr ⟨e',by rw [setBit_slot,setSlot_of_ne _ hne]; exact he',hhome⟩
    · exact .inr ⟨e,by rw [setBit_slot,← hf,setSlot_same],rfl⟩
  · intro j e' he
    rcases hcases j e' he with ⟨rfl,rfl⟩ | ⟨-,he'⟩
    · exact ⟨o,hf,by rw [bit_setBit ho]; simp,hplaced⟩
    · obtain ⟨o',hj,hbit,hp⟩ := h.entry j e' he'
      exact ⟨o',hj,by rw [bit_setBit ho,setSlot_bit,hbit]; simp,hp⟩
  · intro j j' e1 e2 h1 h2 hk
    rcases hcases j e1 h1 with ⟨rfl,rfl⟩ | ⟨-,h1'⟩ <;> rcases hcases j' e2 h2 with ⟨rfl,rfl⟩ | ⟨-,h2'⟩
    · rfl
    · exact absurd hk.symm (hnew j' e2 h2')
    · exact absurd hk (hnew j e1 h1')
    · exact h.unique j j' e1 e2 h1' h2' hk
  · intro j
    by_cases hjf : j = f
    · subst hjf
      simp
    · rw [setBit_slot,setSlot_of_ne _ hjf,h.busy j]
      simp [hjf]

end

theorem Maps.fill {f : ℕ} (hold : ∀ e, t.slot f ≠ .entry e)
    (hnew : ∀ i e', t.slot i = .entry e' → S.key e' ≠ S.key e) (k : κ) (v : π) :
    Maps S ((t.setSlot f (.entry e)).setBit b o) k v ↔
      (k = S.key e ∧ v = S.payload e) ∨ (k ≠ S.key e ∧ Maps S t k v) := by
  constructor
  · rintro ⟨i,e',he,rfl,rfl⟩
    by_cases hi : i = f
    · subst hi
      simp only [setBit_slot,setSlot_same,Slot.entry.injEq] at he
      exact .inl ⟨by rw [he],by rw [he]⟩
    · rw [setBit_slot,setSlot_of_ne _ hi] at he
      exact .inr ⟨hnew i e' he,i,e',he,rfl,rfl⟩
  · rintro (⟨rfl,rfl⟩ | ⟨-,i,e',he,rfl,rfl⟩)
    · exact ⟨f,e,by simp,rfl,rfl⟩
    · have hi : i ≠ f := fun hx => hold e' (hx ▸ he)
      exact ⟨i,e',by rw [setBit_slot,setSlot_of_ne _ hi]; exact he,rfl,rfl⟩

theorem mapEntries_entry :
    (t.mapEntries g).slot i = .entry e ↔ ∃ e0, t.slot i = .entry e0 ∧ e = g i e0 := by
  cases h : t.slot i <;> simp [Table.mapEntries,h,eq_comm]

section
variable (h : WF S n stale claimed t)
include h

theorem WF.mapEntries (hkey : ∀ i e, S.key (g i e) = S.key e)
    (hplaced : ∀ i e o, S.Placed e o → S.Placed (g i e) o) : WF S n stale claimed (t.mapEntries g) := by
  refine ⟨?_,?_,?_,?_,?_⟩
  · intro i hi
    apply h.bound i
    intro hnull
    simp [Table.mapEntries,hnull] at hi
  · intro b o hb
    rcases h.registered b o hb with hs | ⟨e,he,hh⟩
    · exact .inl hs
    · exact .inr ⟨g (b+o) e,mapEntries_entry.mpr ⟨e,he,rfl⟩,by rw [hkey]; exact hh⟩
  · intro i e he
    obtain ⟨e0,he0,rfl⟩ := mapEntries_entry.mp he
    obtain ⟨o,hi,hb,hp⟩ := h.entry i e0 he0
    rw [hkey]
    exact ⟨o,hi,hb,hplaced i e0 o hp⟩
  · intro i j e e' he he' hk
    obtain ⟨e0,he0,rfl⟩ := mapEntries_entry.mp he
    obtain ⟨e1,he1,rfl⟩ := mapEntries_entry.mp he'
    rw [hkey,hkey] at hk
    exact h.unique i j e0 e1 he0 he1 hk
  · intro i
    rw [← h.busy i]
    cases hi : t.slot i <;> simp [Table.mapEntries,hi]

theorem WF.replace {e' : ε} (he : t.slot i = .entry e)
    (hkey : S.key e' = S.key e) (hplaced : ∀ o, S.Placed e o → S.Placed e' o) :
    WF S n stale claimed (t.setSlot i (.entry e')) := by
  have hcases : ∀ j d, (t.setSlot i (.entry e')).slot j = .entry d →
      ∃ d', t.slot j = .entry d' ∧ S.key d = S.key d' ∧ ∀ o, S.Placed d' o → S.Placed d o := by
    intro j d hd
    by_cases hj : j = i
    · subst hj
      rw [setSlot_same,Slot.entry.injEq] at hd
      subst hd
      exact ⟨e,he,hkey,hplaced⟩
    · rw [setSlot_of_ne _ hj] at hd
      exact ⟨d,hd,rfl,fun _ hp => hp⟩
  refine ⟨?_,?_,?_,?_,?_⟩
  · intro j hj
    by_cases hji : j = i
    · subst hji
      exact h.bound j (by simp [he])
    · rw [setSlot_of_ne _ hji] at hj
      exact h.bound j hj
  · intro b o hb
    rcases h.registered b o hb with hs | ⟨d,hd,hhome⟩
    · exact .inl hs
    · by_cases hj : b+o = i
      · rw [hj,he,Slot.entry.injEq] at hd
        exact .inr ⟨e',by rw [hj,setSlot_same],by rw [hkey,hd]; exact hhome⟩
      · exact .inr ⟨d,by rw [setSlot_of_ne _ hj]; exact hd,hhome⟩
  · intro j d hd
    obtain ⟨d',hd',hk,hp⟩ := hcases j d hd
    obtain ⟨o,hj,hbit,hpl⟩ := h.entry j d' hd'
    rw [hk]
    exact ⟨o,hj,hbit,hp o hpl⟩
  · intro j j' d1 d2 h1 h2 hk
    obtain ⟨d1',h1',hk1,-⟩ := hcases j d1 h1
    obtain ⟨d2',h2',hk2,-⟩ := hcases j' d2 h2
    exact h.unique j j' d1' d2' h1' h2' (hk1.symm.trans (hk.trans hk2))
  · intro j
    by_cases hji : j = i
    · subst hji
      rw [setSlot_same,← h.busy j,he]
      simp
    · rw [setSlot_of_ne _ hji,h.busy j]

theorem Maps.replace {e' : ε} (he : t.slot i = .entry e)
    (hkey : S.key e' = S.key e) (k : κ) (v : π) : Maps S (t.setSlot i (.entry e')) k v ↔
      (k = S.key e ∧ v = S.payload e') ∨ (k ≠ S.key e ∧ Maps S t k v) := by
  constructor
  · rintro ⟨j,d,hd,rfl,rfl⟩
    by_cases hj : j = i
    · subst hj
      rw [setSlot_same,Slot.entry.injEq] at hd
      subst hd
      exact .inl ⟨hkey,rfl⟩
    · rw [setSlot_of_ne _ hj] at hd
      exact .inr ⟨fun hk => hj (h.unique j i d e hd he hk),j,d,hd,rfl,rfl⟩
  · rintro (⟨rfl,rfl⟩ | ⟨hk,j,d,hd,rfl,rfl⟩)
    · exact ⟨i,e',by simp,hkey,rfl⟩
    · have hj : j ≠ i := by
        rintro rfl
        rw [he,Slot.entry.injEq] at hd
        exact hk (by rw [hd])
      exact ⟨j,d,by rw [setSlot_of_ne _ hj]; exact hd,rfl,rfl⟩

theorem WF.home_of_bit (hbit : t.bit b o = true)
    (hstale : (b,o) ∉ stale) (he : t.slot (b+o) = .entry e) : S.home (S.key e) = b := by
  rcases h.registered b o hbit with hs | ⟨e',he',hh⟩
  · exact absurd hs hstale
  · rw [he,Slot.entry.injEq] at he'
    rw [he']
    exact hh

theorem WF.erase (hbit : t.bit b o = true)
    (hhome : S.home (S.key e) = b) (he : t.slot (b+o) = .entry e) :
    WF S n stale claimed ((t.setSlot (b+o) .null).flipBit b o) := by
  have ho := bit_lt hbit
  have hold : ∀ j d, ((t.setSlot (b+o) .null).flipBit b o).slot j = .entry d → j ≠ b+o ∧ t.slot j = .entry d := by
    intro j d hd
    by_cases hj : j = b+o
    · subst hj
      simp at hd
    · rw [flipBit_slot,setSlot_of_ne _ hj] at hd
      exact ⟨hj,hd⟩
  refine ⟨?_,?_,?_,?_,?_⟩
  · intro j hj
    by_cases hji : j = b+o
    · subst hji
      simp at hj
    · rw [flipBit_slot,setSlot_of_ne _ hji] at hj
      exact h.bound j hj
  · intro b' o' hb
    rw [bit_flipBit ho,setSlot_bit] at hb
    by_cases hsame : b' = b ∧ o' = o
    · obtain ⟨rfl,rfl⟩ := hsame
      simp [hbit] at hb
    · simp only [hsame,decide_false,Bool.xor_false] at hb
      rcases h.registered b' o' hb with hs | ⟨d,hd,hh⟩
      · exact .inl hs
      · -- a bit of another bucket on this slot would be one of the dropped entry
        have hj : b'+o' ≠ b+o := by
          intro hx
          rw [hx,he,Slot.entry.injEq] at hd
          have hbb : b' = b := by rw [← hh,← hd,hhome]
          exact hsame ⟨hbb,by omega⟩
        exact .inr ⟨d,by rw [flipBit_slot,setSlot_of_ne _ hj]; exact hd,hh⟩
  · intro j d hd
    obtain ⟨hj,hd'⟩ := hold j d hd
    obtain ⟨o',hjo,hb,hp⟩ := h.entry j d hd'
    refine ⟨o',hjo,?_,hp⟩
    rw [bit_flipBit ho,setSlot_bit,hb]
    have hne : ¬(S.home (S.key d) = b ∧ o' = o) := fun hx => hj (by rw [hjo,hx.1,hx.2])
    simp [hne]
  · intro j j' d1 d2 h1 h2
    exact h.unique j j' d1 d2 (hold j d1 h1).2 (hold j' d2 h2).2
  · intro j
    by_cases hj : j = b+o
    · subst hj
      rw [← h.busy (b+o),he]
      simp
    · rw [flipBit_slot,setSlot_of_ne _ hj]
      exact h.busy j

theorem Maps.erase (he : t.slot i = .entry e) (k : κ) (v : π) :
    Maps S ((t.setSlot i .null).flipBit b o) k v ↔ k ≠ S.key e ∧ Maps S t k v := by
  constructor
  · rintro ⟨j,d,hd,rfl,rfl⟩
    by_cases hj : j = i
    · subst hj
      simp at hd
    · rw [flipBit_slot,setSlot_of_ne _ hj] at hd
      exact ⟨fun hk => hj (h.unique j i d e hd he hk),j,d,hd,rfl,rfl⟩
  · rintro ⟨hk,j,d,hd,rfl,rfl⟩
    have hj : j ≠ i := by
      rintro rfl
      rw [he,Slot.entry.injEq] at hd
      exact hk (by rw [hd])
    exact ⟨j,d,by rw [flipBit_slot,setSlot_of_ne _ hj]; exact hd,rfl,rfl⟩

end

/-! ### Hops -/

/-- Dropping an entry whose bit has to wait: the bit becomes stale. -/
theorem WF.defer (h : WF S n stale claimed t) (hhome : S.home (S.key e) = b)
    (he : t.slot (b+o) = .entry e) : WF S n (insert (b,o) stale) claimed (t.setSlot (b+o) .null) := by
  have hold : ∀ {j d}, (t.setSlot (b+o) .null).slot j = .entry d → t.slot j = .entry d := by
    intro j d hd
    by_cases hj : j = b+o
    · subst hj
      simp at hd
    · rwa [setSlot_of_ne _ hj] at hd
  refine ⟨?_,?_,?_,?_,?_⟩
  · intro j hj
    apply h.bound j
    by_cases hji : j = b+o
    · subst hji
      simp at hj
    · rwa [setSlot_of_ne _ hji] at hj
  · intro b' o' hb
    rcases h.registered b' o' hb with hs | ⟨d,hd,hh⟩
    · exact .inl (.inr hs)
    · by_cases hj : b'+o' = b+o
      · -- a bit on this slot that is not stale is the entry's own
        rw [hj,he,Slot.entry.injEq] at hd
        have hbb : b' = b := by rw [← hh,← hd,hhome]
        exact .inl (.inl (by rw [hbb,show o' = o by omega]))
      · exact .inr ⟨d,by rwa [setSlot_of_ne _ hj],hh⟩
  · intro j d hd
    exact h.entry j d (hold hd)
  · intro j j' d d' hd hd'
    exact h.unique j j' d d' (hold hd) (hold hd')
  · intro j
    rw [← h.busy j]
    by_cases hj : j = b+o
    · subst hj
      simp [he]
    · rw [setSlot_of_ne _ hj]

theorem WF.settle (h : WF S n stale claimed t) (hbit : t.bit b o = true) (hslot : ∀ e, t.slot (b+o) ≠ .entry e) :
    WF S n (stale \ {(b,o)}) claimed (t.flipBit b o) := by
  have ho := bit_lt hbit
  refine ⟨h.bound,?_,?_,h.unique,h.busy⟩
  · intro b' o' hb
    rw [bit_flipBit ho] at hb
    by_cases hsame : b' = b ∧ o' = o
    · obtain ⟨rfl,rfl⟩ := hsame
      simp [hbit] at hb
    · simp only [hsame,decide_false,Bool.xor_false] at hb
      refine (h.registered b' o' hb).imp_left fun hs => ⟨hs,?_⟩
      simpa using hsame
  · intro j d hd
    obtain ⟨o',hj,hb,hp⟩ := h.entry j d hd
    refine ⟨o',hj,?_,hp⟩
    have hne : ¬(S.home (S.key d) = b ∧ o' = o) := by
      rintro ⟨hx,rfl⟩
      rw [hj,hx] at hd
      exact hslot d hd
    rw [bit_flipBit ho,hb]
    simp [hne]

theorem relocateEntry_slot (j : ℕ) :
    (relocateEntry g t b o d e).slot j =
      if j = b+o then .busy else if j = b+d then .entry (g d e) else t.slot j := by
  unfold relocateEntry
  rw [flipBit_slot]
  by_cases hj : j = b+o
  · subst hj
    simp
  · rw [setSlot_of_ne _ hj,if_neg hj]
    by_cases hj' : j = b+d
    · subst hj'
      simp
    · rw [setSlot_of_ne _ hj',if_neg hj',setBit_slot]

theorem relocateEntry_bit (ho : o < 32) (hd : d < 32) (b' o' : ℕ) :
    (relocateEntry g t b o d e).bit b' o' =
      ((t.bit b' o' || decide (b' = b ∧ o' = d)) ^^ decide (b' = b ∧ o' = o)) := by
  unfold relocateEntry
  rw [bit_flipBit ho,setSlot_bit,setSlot_bit,bit_setBit hd]

/-- One hop: the entry takes the claimed slot and leaves its own one claimed. Stale
bits may point to entries behind the claimed slot only. -/
theorem WF.relocate (h : WF S n stale claimed t) (hclaimed : b+d ∈ claimed) (hod : o < d)
    (hd : d < 32) (hbit : t.bit b o = true) (hhome : S.home (S.key e) = b) (he : t.slot (b+o) = .entry e) :
    WF S n stale (insert (b+o) (claimed \ {b+d})) (relocateEntry S.relocate t b o d e) := by
  have ho : o < 32 := hod.trans hd
  have hbusy : t.slot (b+d) = .busy := (h.busy _).mpr hclaimed
  have hcases : ∀ j e', (relocateEntry S.relocate t b o d e).slot j = .entry e' →
      (j = b+d ∧ e' = S.relocate d e) ∨ (j ≠ b+o ∧ j ≠ b+d ∧ t.slot j = .entry e') := by
    intro j e' hj
    rw [relocateEntry_slot] at hj
    split at hj
    · cases hj
    · rename_i hne
      split at hj
      · rename_i heq
        rw [Slot.entry.injEq] at hj
        exact .inl ⟨heq,hj.symm⟩
      · rename_i hne'
        exact .inr ⟨hne,hne',hj⟩
  refine ⟨?_,?_,?_,?_,?_⟩
  · intro j hj
    rw [relocateEntry_slot] at hj
    split at hj
    · rename_i heq
      exact h.bound j (by rw [heq,he]; simp)
    · split at hj
      · rename_i heq
        exact h.bound j (by rw [heq,hbusy]; simp)
      · exact h.bound j hj
  · intro b' o' hb
    rw [relocateEntry_bit ho hd] at hb
    by_cases hsame : b' = b ∧ o' = d
    · obtain ⟨rfl,rfl⟩ := hsame
      refine .inr ⟨S.relocate o' e,?_,by rw [S.key_relocate,hhome]⟩
      rw [relocateEntry_slot,if_neg (by omega),if_pos rfl]
    · by_cases hold : b' = b ∧ o' = o
      · obtain ⟨rfl,rfl⟩ := hold
        simp [hbit] at hb
      · simp only [hsame,hold,decide_false,Bool.or_false,Bool.xor_false] at hb
        rcases h.registered b' o' hb with hs | ⟨e',he',hh⟩
        · exact .inl hs
        · have hne : b'+o' ≠ b+o := by
            intro hx
            rw [hx,he,Slot.entry.injEq] at he'
            have hbb : b' = b := by rw [← hh,← he',hhome]
            exact hold ⟨hbb,by omega⟩
          have hne' : b'+o' ≠ b+d := by
            intro hx
            rw [hx,hbusy] at he'
            cases he'
          refine .inr ⟨e',?_,hh⟩
          rw [relocateEntry_slot,if_neg hne,if_neg hne']
          exact he'
  · intro j e' hj
    rcases hcases j e' hj with ⟨rfl,rfl⟩ | ⟨hne,-,hj'⟩
    · rw [S.key_relocate,hhome]
      refine ⟨d,rfl,?_,S.placed_relocate d e⟩
      rw [relocateEntry_bit ho hd]
      have hdo : d ≠ o := by omega
      simp [hdo]
    · obtain ⟨o',hjo,hb,hp⟩ := h.entry j e' hj'
      refine ⟨o',hjo,?_,hp⟩
      rw [relocateEntry_bit ho hd,hb]
      have hno : ¬(S.home (S.key e') = b ∧ o' = o) := fun hx => hne (by rw [hjo,hx.1,hx.2])
      simp [hno]
  · intro j j' e1 e2 h1 h2 hk
    rcases hcases j e1 h1 with ⟨rfl,rfl⟩ | ⟨hne1,-,h1'⟩ <;>
      rcases hcases j' e2 h2 with ⟨rfl,rfl⟩ | ⟨hne2,-,h2'⟩
    · rfl
    · rw [S.key_relocate] at hk
      exact absurd (h.unique _ _ _ _ he h2' hk).symm hne2
    · rw [S.key_relocate] at hk
      exact absurd (h.unique _ _ _ _ h1' he hk) hne1
    · exact h.unique j j' e1 e2 h1' h2' hk
  · intro j
    rw [relocateEntry_slot]
    by_cases hj : j = b+o
    · simp [hj]
    · rw [if_neg hj]
      by_cases hj' : j = b+d
      · simp [hj']
        omega
      · rw [if_neg hj',h.busy j]
        simp [hj,hj']

theorem Maps.relocate (hbusy : t.slot (b+d) = .busy) (hod : o < d)
    (he : t.slot (b+o) = .entry e) (k : κ) (v : π) :
    Maps S (relocateEntry S.relocate t b o d e) k v ↔ Maps S t k v := by
  constructor
  · rintro ⟨j,e',hj,rfl,rfl⟩
    rw [relocateEntry_slot] at hj
    split at hj
    · cases hj
    · split at hj
      · cases hj
        exact ⟨b+o,e,he,by rw [S.key_relocate],by rw [S.payload_relocate]⟩
      · exact ⟨j,e',hj,rfl,rfl⟩
  · rintro ⟨j,e',hj,rfl,rfl⟩
    by_cases hjo : j = b+o
    · subst hjo
      rw [he,Slot.entry.injEq] at hj
      subst hj
      refine ⟨b+d,S.relocate d e,?_,S.key_relocate d e,S.payload_relocate d e⟩
      rw [relocateEntry_slot,if_neg (by omega),if_pos rfl]
    · have hjd : j ≠ b+d := by
        rintro rfl
        rw [hbusy] at hj
        cases hj
      exact ⟨j,e',by rw [relocateEntry_slot,if_neg hjo,if_neg hjd]; exact hj,rfl,rfl⟩

end Rules

end FarMemory.Hopscotch
