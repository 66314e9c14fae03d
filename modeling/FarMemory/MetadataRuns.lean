import FarMemory.Execution
import FarMemory.PointerMeta

/-!
# Sequences of metadata updates

One word is updated by whole-word stores (`set_present`, `gc_wb` and the two
copies), by 16-bit stores (the dirty bit), by single-byte stores (the evacuation
bit and the two stores at the end of `_deref`), in two overlapping formats. Each
update establishes some of the fields of the pointer. `Established` follows what
was established last, without looking at the word, and `Reads` says that every
getter of the current format returns it.
-/
namespace FarMemory.MetadataRuns
open Execution PointerMeta FarMemPtrMeta

/-- The address of an object in front of a data address, as 64-bit arithmetic gives it. -/
def objectOf (d : Fin (2^47)) : ℕ := (d.val+2^64-kHeaderSize) % 2^64

/-- The store of `_deref` to the present byte when the access is mutable. -/
def storePresent (m : FarMemPtrMeta) (shared : Bool) : FarMemPtrMeta :=
  m.setByte kPresentPos (if shared then 2#8 else 0#8)

/-- The decrement of the hot byte at the end of the slow path of `_deref`. -/
def decrementHot (m : FarMemPtrMeta) : FarMemPtrMeta :=
  m.setByte kHotPos (m.byte kHotPos-1#8)

/-- `gc_wb` receives the size of a whole object, which has a header. -/
abbrev ObjectSize := {n : ℕ // 0 < n ∧ n < 2^16}

inductive Op where
  | init (shared : Bool) (dataAddr : Fin (2^47))
  | setPresent (dataAddr : Fin (2^47))
  | gcWb (dsId : Fin (2^8)) (objectSize : ObjectSize) (objId : Fin (2^38))
  | gcCopy (dataAddr : Fin (2^47))
  | mutatorCopy (dataAddr : Fin (2^47))
  | setEvacuation
  | setDirty
  | clearDirty
  | storePresent (shared : Bool)
  | decrementHot

def update (m : FarMemPtrMeta) : Op → FarMemPtrMeta
  | .init shared d => m.init shared (objectOf d)
  | .setPresent d => m.setPresent (objectOf d)
  | .gcWb dsId objectSize objId => m.gcWb dsId objectSize objId
  | .gcCopy d => m.gcCopy (objectOf d)
  | .mutatorCopy d => m.mutatorCopy (objectOf d)
  | .setEvacuation => m.setEvacuation
  | .setDirty => m.setDirty
  | .clearDirty => m.clearDirty
  | .storePresent shared => storePresent m shared
  | .decrementHot => decrementHot m

/-! ### What an update establishes -/

inductive Contents where
  | present (dataAddr : ℕ) (dirty evacuation : Bool)
  | absent (dsId objectSize objId : ℕ)
  deriving DecidableEq, Repr

structure Established where
  shared : Bool
  contents : Contents
  deriving DecidableEq, Repr

/-- The updates which are defined on the present format alone. -/
def Contents.establish : Contents → Op → Contents
  | .present _ dirty _,.gcCopy d => .present d dirty false
  | .present _ dirty _,.mutatorCopy d => .present d dirty false
  | .present a dirty _,.setEvacuation => .present a dirty true
  | .present a _ evacuation,.setDirty => .present a true evacuation
  | .present a _ evacuation,.clearDirty => .present a false evacuation
  | .present a _ evacuation,.storePresent _ => .present a true evacuation
  | c,_ => c

/-- `none` stands for a word that no constructor has filled in yet. -/
def establish : Option Established → Op → Option Established
  | _,.init shared d => some ⟨shared,.present d true false⟩
  | none,.gcWb dsId objectSize objId => some ⟨false,.absent dsId objectSize objId⟩
  | some e,.gcWb dsId objectSize objId => some ⟨e.shared,.absent dsId objectSize objId⟩
  | some e,.setPresent d => some ⟨e.shared,.present d false false⟩
  | some e,op => some ⟨e.shared,e.contents.establish op⟩
  | none,_ => none

/-- Every getter that the current format has returns what was established last. -/
def Reads (m : FarMemPtrMeta) (e : Established) : Prop :=
  m.isShared = e.shared ∧ m.isNull = false ∧
    match e.contents with
    | .present d dirty evacuation => m.isPresent = true ∧ m.getObjectDataAddr = d ∧
        m.isDirty = dirty ∧ m.isEvacuation = evacuation
    | .absent dsId objectSize objId => m.isPresent = false ∧ m.getDsId = dsId ∧
        m.getObjectSize = objectSize ∧ m.getObjectId = objId

structure State where
  word : FarMemPtrMeta
  established : Option Established

def State.start (word : FarMemPtrMeta) : State := ⟨word,none⟩

def step (s : State) (op : Op) : Option (Unit × State) :=
  some ((),⟨update s.word op,establish s.established op⟩)

/-- Where the runtime applies an update. A pointer is born by `init` or, in a data frame column, by
`gc_wb`; `init` and `_deref` are instantiated with the kind of the pointer; the copies, the flag
stores and the stores of `_deref` follow a test of the present bit. -/
def Applies (s : State) : Op → Prop
  | .init shared _ => ∀ e ∈ s.established, shared = e.shared
  | .gcWb _ _ _ => True
  | .setPresent _ => s.established.isSome
  | .storePresent shared => s.word.isPresent = true ∧ ∃ e ∈ s.established, shared = e.shared
  | _ => s.word.isPresent = true ∧ s.established.isSome

/-! ### The byte stores of `_deref` -/

section Stores
variable (m : FarMemPtrMeta)

theorem getLsbD_storePresent (shared : Bool) (i : ℕ) (hi : i < 64) :
    (storePresent m shared).metadata.getLsbD i =
      if 8 ≤ i ∧ i < 16 then (if shared then 2#8 else 0#8).getLsbD (i-8) else m.metadata.getLsbD i := by
  rw [storePresent,getLsbD_setByte _ _ _ _ hi,kPresentPos]

theorem storePresent_isPresent (shared : Bool) : (storePresent m shared).isPresent = true := by
  rw [isPresent_bit,getLsbD_storePresent _ _ _ (by decide)]
  cases shared <;> rfl

theorem storePresent_isDirty (shared : Bool) : (storePresent m shared).isDirty = true := by
  rw [isDirty_bit,getLsbD_storePresent _ _ _ (by decide)]
  cases shared <;> rfl

theorem storePresent_isShared (shared : Bool) : (storePresent m shared).isShared = shared := by
  rw [isShared_bit,getLsbD_storePresent _ _ _ (by decide)]
  cases shared <;> rfl

theorem storePresent_isEvacuation (shared : Bool) :
    (storePresent m shared).isEvacuation = m.isEvacuation := by
  rw [isEvacuation_bit,isEvacuation_bit,getLsbD_storePresent _ _ _ (by decide)]
  simp

theorem storePresent_getObjectDataAddr (shared : Bool) :
    (storePresent m shared).getObjectDataAddr = m.getObjectDataAddr := by
  apply getObjectDataAddr_congr
  intro i h17 h64
  have h : ¬ (8 ≤ i ∧ i < 16) := by omega
  rw [getLsbD_storePresent _ _ _ h64,if_neg h]

theorem decrementHot_eq : decrementHot m = m.touch false m.isShared := rfl

end Stores

/-! ### The fields survive the updates -/

theorem dataAddrBits_objectOf (d : Fin (2^47)) :
    dataAddrBits (objectOf d) = BitVec.ofNat 64 d <<< 17 := by
  have h : BitVec.ofNat 64 (objectOf d+kHeaderSize) = BitVec.ofNat 64 d := by
    apply BitVec.eq_of_toNat_eq
    simp only [BitVec.toNat_ofNat,objectOf,kHeaderSize]
    omega
  rw [dataAddrBits,h,kObjectDataAddrBitPos]

variable {m : FarMemPtrMeta} {s : State} {shared dirty evacuation : Bool} {a : ℕ} {c : Contents} {op : Op}

theorem getObjectDataAddr_of_objectOf {d : Fin (2^47)}
    (h : ∀ i, 17 ≤ i → i < 64 → m.metadata.getLsbD i = (dataAddrBits (objectOf d)).getLsbD i) :
    m.getObjectDataAddr = d := by
  rw [dataAddrBits_objectOf] at h
  exact getObjectDataAddr_of_shifted d.isLt h

theorem getObjectSize_of_isNull (h : m.isNull = true) : m.getObjectSize = 0 := by
  have hz : m.metadata >>> kObjectSizeBitPos = 0#64 := by
    apply BitVec.eq_of_getLsbD_eq
    intro i hi
    rw [BitVec.getLsbD_ushiftRight,kObjectSizeBitPos,BitVec.getLsbD_zero]
    by_cases h64 : 10+i < 64
    · have hb := congrArg (fun w => w.getLsbD (10+i)) (beq_iff_eq.mp h)
      have hmask : kNullMask.getLsbD (10+i) = true := by
        have hi54 : i < 54 := by omega
        interval_cases i <;> decide
      have hnull : kNull.getLsbD (10+i) = false := by
        have hi54 : i < 54 := by omega
        interval_cases i <;> decide
      simpa only [BitVec.getLsbD_and,hmask,hnull,Bool.and_true] using hb
    · exact BitVec.getLsbD_of_ge _ _ (by omega)
  rw [getObjectSize,hz]
  rfl

theorem reads_gcWb (m : FarMemPtrMeta) (dsId : Fin (2^8)) (objectSize : ObjectSize)
    (objId : Fin (2^38)) :
    Reads (m.gcWb dsId objectSize objId) ⟨m.isShared,.absent dsId objectSize objId⟩ := by
  obtain ⟨n,hpos,hsize⟩ := objectSize
  have hget := gcWb_getObjectSize m dsId n objId dsId.isLt hsize objId.isLt
  refine ⟨gcWb_isShared m _ _ _ dsId.isLt hsize objId.isLt,?_,
    gcWb_isPresent m _ _ _ dsId.isLt hsize objId.isLt,
    gcWb_getDsId m _ _ _ dsId.isLt hsize objId.isLt,hget,
    gcWb_getObjectId m _ _ _ dsId.isLt hsize objId.isLt⟩
  rw [Bool.eq_false_iff]
  intro hnull
  have hzero := getObjectSize_of_isNull hnull
  exact hpos.ne' (hget.symm.trans hzero)

theorem reads_present {d : ℕ}
    (hshared : m.isShared = shared) (hpresent : m.isPresent = true) (hd : m.getObjectDataAddr = d)
    (hdirty : m.isDirty = dirty) (hevac : m.isEvacuation = evacuation) :
    Reads m ⟨shared,.present d dirty evacuation⟩ :=
  ⟨hshared,isNull_of_isPresent hpresent,hpresent,hd,hdirty,hevac⟩

theorem reads_setPresent (m : FarMemPtrMeta) (d : Fin (2^47)) :
    Reads (m.setPresent (objectOf d)) ⟨m.isShared,.present d false false⟩ :=
  reads_present (setPresent_isShared _ _) (setPresent_isPresent _ _)
    (getObjectDataAddr_of_objectOf (setPresent_high m _)) (setPresent_isDirty _ _)
    (setPresent_isEvacuation _ _)

/-- `init` can set the shared bit but not clear it. -/
theorem reads_init (h : m.isShared = true → shared = true)
    (d : Fin (2^47)) : Reads (m.init shared (objectOf d)) ⟨shared,.present d true false⟩ := by
  have hset : m.setShared.isShared = true := by
    rw [isShared_bit,setShared,BitVec.getLsbD_or]
    simp [kSharedBitPos]
  have hs : (if shared then m.setShared else m).isShared = shared := by
    cases shared with
    | true => exact hset
    | false => exact Bool.eq_false_iff.mpr fun hm => Bool.noConfusion (h hm)
  obtain ⟨hshared,-,hpresent,hd,-,hevac⟩ := reads_setPresent (if shared then m.setShared else m) d
  rw [hs] at hshared
  exact reads_present (by rw [init,setDirty_isShared,hshared])
    (by rw [init,setDirty_isPresent,hpresent]) (by rw [init,setDirty_getObjectDataAddr,hd])
    (by rw [init,setDirty_isDirty]) (by rw [init,setDirty_isEvacuation,hevac])

section PresentFormat

variable (h : Reads m ⟨shared,.present a dirty evacuation⟩)
include h

theorem Reads.gcCopy (d : Fin (2^47)) :
    Reads (m.gcCopy (objectOf d)) ⟨shared,.present d dirty false⟩ := by
  obtain ⟨hshared,-,hpresent,-,hdirty,-⟩ := h
  exact reads_present ((gcCopy_isShared _ _).trans hshared) ((gcCopy_isPresent _ _).trans hpresent)
    (getObjectDataAddr_of_objectOf (gcCopy_high m _)) ((gcCopy_isDirty _ _).trans hdirty)
    (gcCopy_isEvacuation _ _)

theorem Reads.mutatorCopy (d : Fin (2^47)) :
    Reads (m.mutatorCopy (objectOf d)) ⟨shared,.present d dirty false⟩ := by
  obtain ⟨hshared,-,hpresent,-,hdirty,-⟩ := h
  exact reads_present ((mutatorCopy_isShared _ _).trans hshared)
    ((mutatorCopy_isPresent _ _).trans hpresent)
    (getObjectDataAddr_of_objectOf (mutatorCopy_high m _)) ((mutatorCopy_isDirty _ _).trans hdirty)
    (mutatorCopy_isEvacuation _ _)

theorem Reads.setEvacuation :
    Reads m.setEvacuation ⟨shared,.present a dirty true⟩ := by
  obtain ⟨hshared,-,hpresent,hd,hdirty,-⟩ := h
  exact reads_present ((setEvacuation_isShared m).trans hshared)
    ((setEvacuation_isPresent m).trans hpresent) ((setEvacuation_getObjectDataAddr m).trans hd)
    ((setEvacuation_isDirty m).trans hdirty) (setEvacuation_isEvacuation m)

theorem Reads.setDirty :
    Reads m.setDirty ⟨shared,.present a true evacuation⟩ := by
  obtain ⟨hshared,-,hpresent,hd,-,hevac⟩ := h
  exact reads_present ((setDirty_isShared m).trans hshared) ((setDirty_isPresent m).trans hpresent)
    ((setDirty_getObjectDataAddr m).trans hd) (setDirty_isDirty m)
    ((setDirty_isEvacuation m).trans hevac)

theorem Reads.clearDirty :
    Reads m.clearDirty ⟨shared,.present a false evacuation⟩ := by
  obtain ⟨hshared,-,hpresent,hd,-,hevac⟩ := h
  exact reads_present ((clearDirty_isShared m).trans hshared)
    ((clearDirty_isPresent m).trans hpresent) ((clearDirty_getObjectDataAddr m).trans hd)
    (clearDirty_isDirty m) ((clearDirty_isEvacuation m).trans hevac)

theorem Reads.storePresent :
    Reads (storePresent m shared) ⟨shared,.present a true evacuation⟩ := by
  obtain ⟨-,-,-,hd,-,hevac⟩ := h
  exact reads_present (storePresent_isShared m _) (storePresent_isPresent m _)
    ((storePresent_getObjectDataAddr m _).trans hd) (storePresent_isDirty m _)
    ((storePresent_isEvacuation m _).trans hevac)

theorem Reads.decrementHot :
    Reads (decrementHot m) ⟨shared,.present a dirty evacuation⟩ := by
  obtain ⟨hshared,-,hpresent,hd,hdirty,hevac⟩ := h
  rw [decrementHot_eq]
  exact reads_present ((touch_isShared m false).trans hshared) (touch_isPresent m false hpresent)
    ((touch_getObjectDataAddr m false _).trans hd) ((touch_isDirty m false).trans hdirty)
    ((touch_isEvacuation m false _).trans hevac)

end PresentFormat

theorem Reads.contents_present (h : Reads m ⟨shared,c⟩) (hp : m.isPresent = true) :
    ∃ a dirty evacuation, c = .present a dirty evacuation := by
  cases c with
  | present a dirty evacuation => exact ⟨a,dirty,evacuation,rfl⟩
  | absent dsId objectSize objId =>
    have habsent : m.isPresent = false := h.2.2.1
    rw [hp] at habsent
    cases habsent

theorem reads_update (he : s.established = some ⟨shared,c⟩) (h : Reads s.word ⟨shared,c⟩) (happ : Applies s op) :
    ∃ c', establish s.established op = some ⟨shared,c'⟩ ∧ Reads (update s.word op) ⟨shared,c'⟩ := by
  rw [he]
  cases op with
  | init sh d =>
    have hsh : sh = shared := happ _ he
    subst hsh
    exact ⟨_,rfl,reads_init (fun hw => h.1.symm.trans hw) d⟩
  | setPresent d =>
    have hset := reads_setPresent s.word d
    rw [h.1] at hset
    exact ⟨_,rfl,hset⟩
  | gcWb dsId objectSize objId =>
    have hwb := reads_gcWb s.word dsId objectSize objId
    rw [h.1] at hwb
    exact ⟨_,rfl,hwb⟩
  | gcCopy d =>
    obtain ⟨_,_,_,rfl⟩ := h.contents_present happ.1
    exact ⟨_,rfl,h.gcCopy d⟩
  | mutatorCopy d =>
    obtain ⟨_,_,_,rfl⟩ := h.contents_present happ.1
    exact ⟨_,rfl,h.mutatorCopy d⟩
  | setEvacuation =>
    obtain ⟨_,_,_,rfl⟩ := h.contents_present happ.1
    exact ⟨_,rfl,h.setEvacuation⟩
  | setDirty =>
    obtain ⟨_,_,_,rfl⟩ := h.contents_present happ.1
    exact ⟨_,rfl,h.setDirty⟩
  | clearDirty =>
    obtain ⟨_,_,_,rfl⟩ := h.contents_present happ.1
    exact ⟨_,rfl,h.clearDirty⟩
  | storePresent sh =>
    obtain ⟨_,_,_,rfl⟩ := h.contents_present happ.1
    obtain ⟨e,hmem,hsh⟩ := happ.2
    rw [he] at hmem
    cases hmem
    subst hsh
    exact ⟨_,rfl,h.storePresent⟩
  | decrementHot =>
    obtain ⟨_,_,_,rfl⟩ := h.contents_present happ.1
    exact ⟨_,rfl,h.decrementHot⟩

theorem reads_first (he : s.established = none) (hw : s.word.isShared = false)
    (happ : Applies s op) :
    ∃ e, establish s.established op = some e ∧ Reads (update s.word op) e := by
  rw [he]
  cases op with
  | init sh d =>
    refine ⟨_,rfl,reads_init (fun hs => ?_) d⟩
    rw [hw] at hs
    cases hs
  | gcWb dsId objectSize objId =>
    have hwb := reads_gcWb s.word dsId objectSize objId
    rw [hw] at hwb
    exact ⟨_,rfl,hwb⟩
  | setPresent d =>
    have hsome : s.established.isSome := happ
    rw [he] at hsome
    cases hsome
  | storePresent sh =>
    obtain ⟨e,hmem,-⟩ := happ.2
    rw [he] at hmem
    cases hmem
  | gcCopy | mutatorCopy | setEvacuation | setDirty | clearDirty | decrementHot =>
    have hsome := happ.2
    rw [he] at hsome
    cases hsome

/-- The updates after which a present word is not marked for evacuation. -/
def Op.resetsEvacuation : Op → Bool
  | .init _ _ | .setPresent _ | .gcWb _ _ _ | .gcCopy _ | .mutatorCopy _ => true
  | _ => false

theorem Reads.marked (h : Reads m ⟨shared,.present a dirty evacuation⟩) :
    (m.isPresent && m.isEvacuation) = evacuation := by
  obtain ⟨-,-,hpresent,-,-,hevac⟩ := h
  rw [hpresent,hevac,Bool.true_and]

theorem reads_resetsEvacuation (he : s.established = some ⟨shared,c⟩) (h : Reads s.word ⟨shared,c⟩) (happ : Applies s op)
    (hp : s.word.isPresent = true) (hev : s.word.isEvacuation = true) :
    ((update s.word op).isPresent && (update s.word op).isEvacuation) = false ↔
      op.resetsEvacuation = true := by
  obtain ⟨a,dirty,evacuation,rfl⟩ := h.contents_present hp
  have hmark : evacuation = true := h.2.2.2.2.2.symm.trans hev
  subst hmark
  obtain ⟨c',hc,hr⟩ := reads_update he h happ
  rw [he] at hc
  cases op with
  | gcWb dsId objectSize objId =>
    cases hc
    have habsent : (update s.word (.gcWb dsId objectSize objId)).isPresent = false := hr.2.2.1
    rw [habsent]
    exact ⟨fun _ => rfl,fun _ => rfl⟩
  | init _ _ | setPresent _ | gcCopy _ | mutatorCopy _ =>
    cases hc
    exact ⟨fun _ => rfl,fun _ => hr.marked⟩
  | setEvacuation | setDirty | clearDirty | storePresent _ | decrementHot =>
    cases hc
    rw [hr.marked]
    exact ⟨fun hfalse => Bool.noConfusion hfalse,fun hfalse => Bool.noConfusion hfalse⟩

/-- Every sequence of updates, from a word without the shared bit (the zeroed, the null and the busy
word are such): each getter returns what was established last, a pointer that was filled in is not
null, and the next update keeps the kind, keeps the dirty bit if it is a copy, and takes the
evacuation mark of a present word away exactly if it is a copy or installs a new word. -/
theorem metadata_lossless {w : FarMemPtrMeta} (hw : w.isShared = false) {tr : List (Op × Unit)}
    {s : State} (ht : Trace step Applies (State.start w) tr s) :
    (s.established = none → tr = []) ∧ ∀ e, s.established = some e → Reads s.word e ∧
      ∀ op, Applies s op →
        (update s.word op).isShared = s.word.isShared ∧
        (∀ d, op = .gcCopy d ∨ op = .mutatorCopy d →
          (update s.word op).isDirty = s.word.isDirty) ∧
        (s.word.isPresent = true → s.word.isEvacuation = true →
          (((update s.word op).isPresent && (update s.word op).isEvacuation) = false ↔
            op.resetsEvacuation = true)) := by
  have hreads : (s.established = none → tr = [] ∧ s.word = w) ∧
      ∀ e, s.established = some e → Reads s.word e := by
    induction ht with
    | nil => exact ⟨fun _ => ⟨rfl,rfl⟩,fun e he => by cases he⟩
    | @snoc tr s s' op b ht happ hs ih =>
      cases hs
      have hnew : ∃ e, establish s.established op = some e ∧ Reads (update s.word op) e := by
        rcases hest : s.established with _ | ⟨shared,c⟩
        · rw [← hest]
          exact reads_first hest (by rw [(ih.1 hest).2,hw]) happ
        · rw [← hest]
          obtain ⟨c',he,hr⟩ := reads_update hest (ih.2 _ hest) happ
          exact ⟨_,he,hr⟩
      obtain ⟨e,he,hr⟩ := hnew
      constructor
      · intro hnone
        cases he.symm.trans hnone
      · intro e' he'
        cases he.symm.trans he'
        exact hr
  refine ⟨fun hnone => (hreads.1 hnone).1,fun ⟨shared,c⟩ he => ⟨hreads.2 _ he,fun op happ => ?_⟩⟩
  have hr := hreads.2 _ he
  obtain ⟨c',-,hr'⟩ := reads_update he hr happ
  refine ⟨hr'.1.trans hr.1.symm,?_,reads_resetsEvacuation he hr happ⟩
  rintro d (rfl | rfl)
  · exact gcCopy_isDirty _ _
  · exact mutatorCopy_isDirty _ _

/-- A null word of a data frame column is written back, swapped in, marked and copied twice. -/
theorem metadata_lossless_copied :
    ∃ (tr : List (Op × Unit)) (s : State),
      Trace step Applies (State.start FarMemPtrMeta.nullify) tr s ∧ tr.length = 6 ∧
      s.word.isDirty = true ∧ s.word.getObjectDataAddr = 4096 ∧ s.word.isEvacuation = false := by
  have h₁ : Trace step Applies (State.start FarMemPtrMeta.nullify) [(.gcWb 3 ⟨34,by decide⟩ 0,())] _ :=
    Trace.snoc .nil trivial rfl
  have h₂ := h₁.snoc (show Applies _ (.setPresent 1024) from rfl) rfl
  have h₃ := h₂.snoc (show Applies _ (.storePresent false) from ⟨by decide,_,rfl,rfl⟩) rfl
  have h₄ := h₃.snoc (show Applies _ .decrementHot from ⟨by decide,rfl⟩) rfl
  have h₅ := h₄.snoc (show Applies _ .setEvacuation from ⟨by decide,rfl⟩) rfl
  have h₆ := h₅.snoc (show Applies _ (.mutatorCopy 4096) from ⟨by decide,rfl⟩) rfl
  obtain ⟨-,hreads⟩ := metadata_lossless (by decide) h₆
  obtain ⟨⟨-,-,-,haddr,hdirty,hevac⟩,-⟩ := hreads _ rfl
  exact ⟨_,_,h₆,rfl,hdirty,haddr,hevac⟩

end FarMemory.MetadataRuns
