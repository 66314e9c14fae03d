import FarMemory.Execution
import FarMemory.PointerMeta

/-!
# The hot byte of a local pointer

`set_present` and `gc_copy` set the hot byte to one less than the threshold above its top bit, which
says that the pointer is not hot. Every dereference that takes the slow path decrements it. A
hot pointer takes the slow path only for a mutable access that finds the dirty bit
cleared, and then the byte is decremented all the same.
-/
namespace FarMemory.Hotness
open Execution PointerMeta FarMemPtrMeta

inductive Op where
  | deref (isMut : Bool)
  | flush
deriving DecidableEq

/-- `_deref` of a pointer; an absent object or one that is being evacuated is brought in or moved
first, which is not an access of this kind. -/
def deref (m : FarMemPtrMeta) (isMut : Bool) : Option FarMemPtrMeta :=
  if m.metadata &&& exceptions isMut != 0#64 then
    if m.metadata &&& (kPresentClear ||| kEvacuationSet) != 0#64 then none
    else some (m.touch isMut m.isShared)
  else some m

/-- What `_flush` does to the word. -/
def flush (m : FarMemPtrMeta) : FarMemPtrMeta := if m.isPresent && m.isDirty then m.clearDirty else m

def step (m : FarMemPtrMeta) : Op → Option (Unit × FarMemPtrMeta)
  | .deref isMut => (deref m isMut).map ((),·)
  | .flush => some ((),flush m)

/-- Just after `set_present`, or after `gc_copy` of a local object. -/
inductive Fresh : FarMemPtrMeta → Prop
  | setPresent (m : FarMemPtrMeta) (a : ℕ) : Fresh (m.setPresent a)
  | gcCopy (m : FarMemPtrMeta) (a : ℕ) (h : m.isPresent = true) : Fresh (m.gcCopy a)

def derefs (tr : List (Op × Unit)) : ℕ := tr.countP fun x => x.1 ≠ .flush

def hotByte (m : FarMemPtrMeta) : ℕ := (m.byte kHotPos).toNat

/-- A mutable access does not find the dirty bit cleared and the hot byte at zero. -/
def KeepsHot (m : FarMemPtrMeta) (op : Op) : Prop := op = .deref true → m.isDirty = false → hotByte m ≠ 0

instance (m : FarMemPtrMeta) (op : Op) : Decidable (KeepsHot m op) :=
  inferInstanceAs (Decidable (op = .deref true → m.isDirty = false → hotByte m ≠ 0))

section
variable {m : FarMemPtrMeta}

theorem getLsbD_byte (m : FarMemPtrMeta) {i : ℕ} (hi : i < 8) : (m.byte kHotPos).getLsbD i = m.metadata.getLsbD i := by
  simp [byte,kHotPos,hi]

theorem byte_congr {m m' : FarMemPtrMeta} (h : ∀ i < 8, m.metadata.getLsbD i = m'.metadata.getLsbD i) : hotByte m = hotByte m' := by
  refine congrArg BitVec.toNat (BitVec.eq_of_getLsbD_eq fun i hi => ?_)
  rw [getLsbD_byte m hi,getLsbD_byte m' hi,h i hi]

theorem isHot_iff (m : FarMemPtrMeta) : m.isHot = true ↔ hotByte m < 128 := by
  have hbit : m.isHot = !(m.byte kHotPos).msb := by
    rw [BitVec.msb_eq_getLsbD_last,getLsbD_byte m (by decide)]
    exact mask_bit m.metadata 7 (by decide)
  rw [hbit,BitVec.msb_eq_decide,hotByte]
  simp

theorem hotByte_touch (m : FarMemPtrMeta) (isMut shared : Bool) : hotByte (m.touch isMut shared) = (hotByte m+255)%256 := by
  have hset : ∀ (n : FarMemPtrMeta) (b : BitVec 8), (n.setByte kHotPos b).byte kHotPos = b := by
    refine fun n b => BitVec.eq_of_getLsbD_eq fun i hi => ?_
    rw [getLsbD_byte _ hi,getLsbD_setByte _ _ _ _ (by omega),kHotPos]
    simp [hi]
  have hkeep : hotByte (if isMut then m.setByte kPresentPos (if shared then 2#8 else 0#8) else m) = hotByte m := by
    refine byte_congr fun i hi => ?_
    cases isMut with
    | false => rfl
    | true => rw [if_pos rfl,getLsbD_setByte _ _ _ _ (by omega),kPresentPos,if_neg (by omega)]
  rw [hotByte,touch,hset,BitVec.toNat_sub]
  change (2^8-1+hotByte _)%2^8 = _
  rw [hkeep]
  omega

theorem hotByte_clearDirty (m : FarMemPtrMeta) : hotByte m.clearDirty = hotByte m :=
  byte_congr fun i hi => by
    have h10 : i ≠ 10 := by omega
    rw [getLsbD_clearDirty _ _ (by omega)]
    simp [h10]

theorem Fresh.spec (h : Fresh m) : m.isPresent = true ∧ m.isEvacuation = false ∧ hotByte m = 129 := by
  cases h with
  | setPresent m a =>
    refine ⟨m.setPresent_isPresent a,m.setPresent_isEvacuation a,?_⟩
    refine (byte_congr fun i hi => ?_ : hotByte _ = hotByte ⟨presentBits⟩).trans (by decide)
    have h9 : i ≠ 9 := by omega
    rw [getLsbD_setPresent,getLsbD_dataAddrBits _ _ (by omega)]
    simp [h9]
  | gcCopy m a h =>
    refine ⟨(m.gcCopy_isPresent a).trans h,m.gcCopy_isEvacuation a,?_⟩
    refine (byte_congr fun i hi => ?_ : hotByte _ = hotByte ⟨copiedBits⟩).trans (by decide)
    have h9 : i ≠ 9 := by omega
    have h8 : ¬(8 ≤ i ∧ i < 16) := by omega
    rw [getLsbD_gcCopy _ _ _ (by omega),getLsbD_dataAddrBits _ _ (by omega)]
    simp [h9,h8]

/-- Where a run has come to: the byte counts down to the threshold, and after that the pointer is hot. -/
structure Inv (start : FarMemPtrMeta) (n : ℕ) (m : FarMemPtrMeta) : Prop where
  present : m.isPresent = true
  evacuation : m.isEvacuation = false
  high : ∀ i, 16 ≤ i → i < 64 → m.metadata.getLsbD i = start.metadata.getLsbD i
  count : n < 2 → hotByte m = 129-n
  hot : 2 ≤ n → hotByte m < 128

theorem deref_of_present (hp : m.isPresent = true) (he : m.isEvacuation = false) (isMut : Bool) :
    deref m isMut = some (if m.isHot && !(isMut && !m.isDirty) then m else m.touch isMut m.isShared) := by
  unfold deref
  rw [exceptions_test,slow_test,hp,he]
  cases m.isHot <;> cases isMut <;> cases m.isDirty <;> rfl

variable {start : FarMemPtrMeta} {n : ℕ}

theorem Inv.isHot_iff (h : Inv start n m) : m.isHot = true ↔ 2 ≤ n := by
  rw [Hotness.isHot_iff]
  refine ⟨fun hlt => ?_,h.hot⟩
  by_contra hn
  have := h.count (by omega)
  omega

theorem Inv.flush (h : Inv start n m) : Inv start n (flush m) := by
  unfold Hotness.flush
  split
  · refine ⟨by rw [clearDirty_isPresent,h.present],by rw [clearDirty_isEvacuation,h.evacuation],fun i h16 h64 => ?_,?_,?_⟩
    · have h10 : i ≠ 10 := by omega
      rw [getLsbD_clearDirty _ _ h64,h.high i h16 h64]
      simp [h10]
    · rw [hotByte_clearDirty]
      exact h.count
    · rw [hotByte_clearDirty]
      exact h.hot
  · exact h

theorem Inv.touch (h : Inv start n m) (isMut : Bool) (hpos : hotByte m ≠ 0) : Inv start (n+1) (m.touch isMut m.isShared) := by
  have hbyte : hotByte (m.touch isMut m.isShared) = hotByte m-1 := by
    have hlt : hotByte m < 2^8 := (m.byte kHotPos).isLt
    rw [hotByte_touch]
    omega
  refine ⟨touch_isPresent m isMut h.present,by rw [touch_isEvacuation,h.evacuation],fun i h16 h64 => ?_,fun hn => ?_,
    fun hn => ?_⟩
  · have hhigh : ¬i < 16 := by omega
    rw [getLsbD_touch _ _ _ _ (by omega) h64,← h.high i h16 h64]
    simp [hhigh]
  · have := h.count (by omega)
    omega
  · by_cases hlt : n < 2
    · have := h.count hlt
      omega
    · have := h.hot (by omega)
      omega

theorem Inv.deref (h : Inv start n m) (isMut : Bool) : ∃ m', deref m isMut = some m' ∧
    (KeepsHot m (.deref isMut) → Inv start (n+1) m') ∧ (¬KeepsHot m (.deref isMut) → m'.isHot = false) := by
  refine ⟨_,deref_of_present h.present h.evacuation isMut,fun hkeep => ?_,fun hwrap => ?_⟩
  · by_cases hfast : (m.isHot && !(isMut && !m.isDirty)) = true
    · rw [if_pos hfast]
      have hhot : 2 ≤ n := h.isHot_iff.mp (Bool.and_eq_true_iff.mp hfast).1
      exact ⟨h.present,h.evacuation,h.high,by omega,fun _ => h.hot hhot⟩
    · rw [if_neg hfast]
      refine h.touch isMut fun hzero => ?_
      have hhot : m.isHot = true := (Hotness.isHot_iff m).mpr (by omega)
      rw [hhot,Bool.true_and,Bool.not_eq_true',Bool.not_eq_false,Bool.and_eq_true,Bool.not_eq_true'] at hfast
      exact hkeep (by rw [hfast.1]) hfast.2 hzero
  · obtain ⟨hop,hdirty,hzero⟩ : isMut = true ∧ m.isDirty = false ∧ hotByte m = 0 := by
      simpa [KeepsHot] using hwrap
    rw [hop,hdirty,if_neg (by simp),Bool.eq_false_iff,ne_eq,Hotness.isHot_iff,hotByte_touch,hzero]
    decide

theorem Inv.step (h : Inv start n m) (op : Op) : ∃ m', step m op = some ((),m') ∧
    (KeepsHot m op → Inv start (n+if op = .flush then 0 else 1) m') ∧ (¬KeepsHot m op → m'.isHot = false) := by
  cases op with
  | deref isMut =>
    obtain ⟨m',hd,hkeep⟩ := h.deref isMut
    exact ⟨m',by rw [Hotness.step,hd]; rfl,hkeep⟩
  | flush => exact ⟨_,rfl,fun _ => h.flush,fun hno => absurd (fun hop => nomatch hop) hno⟩

theorem derefs_snoc (tr : List (Op × Unit)) (op : Op) : derefs (tr++[(op,())]) = derefs tr+if op = .flush then 0 else 1 := by
  cases op <;> simp [derefs]

theorem Inv.run (hstart : Fresh start) {tr : List (Op × Unit)} (htr : Trace Hotness.step KeepsHot start tr m) :
    Inv start (derefs tr) m := by
  induction htr with
  | nil =>
    obtain ⟨hp,he,hbyte⟩ := hstart.spec
    exact ⟨hp,he,fun _ _ _ => rfl,fun _ => hbyte,fun hn => absurd hn (by decide)⟩
  | @snoc tr s s' op _ _ hok hs ih =>
    obtain ⟨m',hm',hkeep,-⟩ := ih.step op
    cases hm'.symm.trans hs
    rw [derefs_snoc]
    exact hkeep hok

end

/-- In every run in which no mutable access finds the dirty bit cleared and the hot byte at zero, the
pointer is hot exactly from the `kHotThresh`-th dereference on, and no bit outside the two low bytes
changes. The next operation is defined, and after it this is so exactly if it meets the condition. -/
theorem hot_from_threshold {start m : FarMemPtrMeta} (hstart : Fresh start) {tr : List (Op × Unit)}
    (htr : Trace step KeepsHot start tr m) : (m.isHot = true ↔ kHotThresh.toNat ≤ derefs tr) ∧
      (∀ i, 16 ≤ i → m.metadata.getLsbD i = start.metadata.getLsbD i) ∧
      ∀ op, ∃ m', step m op = some ((),m') ∧
        (m'.isHot = true ↔ kHotThresh.toNat ≤ derefs (tr++[(op,())]) ∧ KeepsHot m op) := by
  have hinv := Inv.run hstart htr
  refine ⟨hinv.isHot_iff,fun i h16 => ?_,fun op => ?_⟩
  · by_cases h64 : i < 64
    · exact hinv.high i h16 h64
    · rw [BitVec.getLsbD_of_ge _ _ (by omega),BitVec.getLsbD_of_ge _ _ (by omega)]
  · obtain ⟨m',hm',hkeep,hwrap⟩ := hinv.step op
    refine ⟨m',hm',?_⟩
    by_cases hop : KeepsHot m op
    · rw [derefs_snoc]
      exact (hkeep hop).isHot_iff.trans (and_iff_left hop).symm
    · rw [hwrap hop]
      exact iff_of_false Bool.false_ne_true fun h => hop h.2

theorem hot_from_threshold_third_access : ∃ tr m, Trace step KeepsHot (setPresent ⟨0#64⟩ 4096) tr m ∧
    derefs tr = 3 ∧ m.isHot = true := by
  have hrun : (exec step KeepsHot (setPresent ⟨0#64⟩ 4096) [.deref true,.flush,.deref false,.deref true]).map (fun r => r.1) =
    some [(),(),(),()] := by decide
  obtain ⟨bs,m,htr,hobs⟩ := exec_observe hrun
  cases hobs
  exact ⟨_,m,htr,by decide,(hot_from_threshold (.setPresent _ _) htr).1.mpr (by decide)⟩

/-- Flushes and writes in turn bring the byte of a hot pointer down to zero, and the next write makes
it wrap. -/
theorem hot_pointer_cools : ∃ tr m, Trace step (fun _ _ => True) (setPresent ⟨0#64⟩ 4096) tr m ∧
    derefs tr = 130 ∧ m.isHot = false := by
  have hrun : (exec step (fun _ _ => True) (setPresent ⟨0#64⟩ 4096)
      (.deref true::.deref true::(List.replicate 128 [.flush,.deref true]).flatten)).map (fun r => (r.1,r.2.isHot)) =
    some (List.replicate 258 (),false) := by decide +kernel
  obtain ⟨bs,m,htr,hobs⟩ := exec_observe hrun
  obtain ⟨hbs,hhot⟩ := Prod.ext_iff.mp hobs
  cases hbs
  exact ⟨_,m,htr,by decide +kernel,hhot⟩

end FarMemory.Hotness
