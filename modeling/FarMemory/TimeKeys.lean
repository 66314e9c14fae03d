import Mathlib

/-!
# Times as keys of a column

A `SimpleTime` has seven bytes of fields and, for its alignment, a byte of padding. The
three relations on it are computed in three ways: the order compares field by field, the
equality compares the bytes of the objects as C strings, and the hash is the eight bytes
themselves. A C string ends at its first zero byte, so what comes behind a zero hour, say,
does not count for the equality.
-/
namespace FarMemory.TimeKeys

/-- The fields are a `short` and five `char`s, which are signed. -/
structure SimpleTime where
  year : BitVec 16
  month : BitVec 8
  day : BitVec 8
  hour : BitVec 8
  min : BitVec 8
  second : BitVec 8
deriving DecidableEq, Repr

/-- Walk over two objects field by field and decide at the first that differs. -/
def firstDifference (r : ℤ → ℤ → Bool) : List ℤ → List ℤ → Bool
  | x::xs,y::ys => if x ≠ y then r x y else firstDifference r xs ys
  | _,_ => false

/-- `__builtin_strncmp`, over at most the bytes given. -/
def strncmp : List (BitVec 8) → List (BitVec 8) → ℤ
  | a::as,b::bs => if a ≠ b then a.toNat-b.toNat else if a = 0 then 0 else strncmp as bs
  | _,_ => 0

/-- `__builtin_memcpy` of bytes into an unsigned number, the lowest byte first. -/
def memcpyValue : List (BitVec 8) → ℕ
  | [] => 0
  | b::bs => b.toNat+256*memcpyValue bs

namespace SimpleTime

/-- The fields in the order of their declaration, as the comparisons see them. -/
def fields (t : SimpleTime) : List ℤ :=
  [t.year.toInt,t.month.toInt,t.day.toInt,t.hour.toInt,t.min.toInt,t.second.toInt]

/-- `operator<`. -/
def lt (t o : SimpleTime) : Bool := firstDifference (· < ·) t.fields o.fields

/-- `operator>`. -/
def gt (t o : SimpleTime) : Bool := firstDifference (· > ·) t.fields o.fields

/-- The bytes of the fields, with the lower byte of the year first. -/
def bytes (t : SimpleTime) : List (BitVec 8) :=
  [t.year.setWidth 8,(t.year >>> 8).setWidth 8,t.month,t.day,t.hour,t.min,t.second]

end SimpleTime

/-- An object in memory: the constructors leave the padding as it was. -/
structure Stored where
  time : SimpleTime
  padding : BitVec 8
deriving DecidableEq, Repr

namespace Stored

def bytes (a : Stored) : List (BitVec 8) := a.time.bytes++[a.padding]

/-- `operator==`. -/
def eq (a b : Stored) : Bool := strncmp a.bytes b.bytes = 0

/-- `std::hash`. -/
def hash (a : Stored) : ℕ := memcpyValue a.bytes

/-- What a key needs of a pair: exactly one of the three relations, equality for equal
fields only, and then equal hashes. -/
def Lawful (a b : Stored) : Prop :=
  ((a.time.lt b.time = true ∧ a.eq b = false ∧ a.time.gt b.time = false) ∨
    (a.time.lt b.time = false ∧ a.eq b = true ∧ a.time.gt b.time = false) ∨
    (a.time.lt b.time = false ∧ a.eq b = false ∧ a.time.gt b.time = true)) ∧
  (a.eq b = true ↔ a.time = b.time) ∧ (a.eq b = true → a.hash = b.hash)

/-- What a pair has to be like: equal times have equal padding, and different times differ
before any zero byte. -/
def Plain (a b : Stored) : Prop :=
  (a.time = b.time → a.padding = b.padding) ∧
    (a.time ≠ b.time → ∃ i < 7, a.bytes[i]? ≠ b.bytes[i]? ∧
      ∀ j < i, a.bytes[j]? = b.bytes[j]? ∧ a.bytes[j]? ≠ some 0)

end Stored

section Order

theorem firstDifference_lt {xs ys : List ℤ} (h : xs.length = ys.length) :
    firstDifference (· < ·) xs ys = true ↔ xs < ys := by
  induction xs generalizing ys with
  | nil =>
    cases ys with
    | nil => simp [firstDifference]
    | cons y ys => cases h
  | cons x xs ih =>
    cases ys with
    | nil => cases h
    | cons y ys =>
      rw [firstDifference,List.cons_lt_cons_iff]
      by_cases heq : x = y
      · rw [if_neg (not_not.mpr heq),ih (Nat.succ.inj h)]
        simp [heq]
      · rw [if_pos heq]
        simp [heq]

theorem firstDifference_gt {xs ys : List ℤ} : firstDifference (· > ·) xs ys = firstDifference (· < ·) ys xs := by
  induction xs generalizing ys with
  | nil => cases ys <;> rfl
  | cons x xs ih =>
    cases ys with
    | nil => rfl
    | cons y ys =>
      rw [firstDifference,firstDifference,ih]
      by_cases heq : x = y
      · rw [if_neg (not_not.mpr heq),if_neg (not_not.mpr heq.symm)]
      · rw [if_pos heq,if_pos (Ne.symm heq)]

namespace SimpleTime

theorem fields_injective : Function.Injective SimpleTime.fields := by
  intro t o h
  simp only [SimpleTime.fields,List.cons.injEq,BitVec.toInt_inj,and_true] at h
  obtain ⟨hyear,hmonth,hday,hhour,hmin,hsecond⟩ := h
  cases t
  cases o
  simp_all

instance : LinearOrder SimpleTime := LinearOrder.lift' SimpleTime.fields fields_injective

theorem length_fields (t : SimpleTime) : t.fields.length = 6 := rfl

theorem lt_iff (t o : SimpleTime) : t.lt o = true ↔ t < o :=
  firstDifference_lt ((length_fields t).trans (length_fields o).symm)

theorem gt_iff (t o : SimpleTime) : t.gt o = true ↔ o < t := by
  rw [SimpleTime.gt,firstDifference_gt]
  exact lt_iff o t

end SimpleTime

end Order

section Bytes
variable {as bs : List (BitVec 8)}

/-- The bytes before the first zero. -/
def cString : List (BitVec 8) → List (BitVec 8)
  | [] => []
  | a::as => if a = 0 then [] else a::cString as

theorem strncmp_eq_zero (h : as.length = bs.length) : strncmp as bs = 0 ↔ cString as = cString bs := by
  induction as generalizing bs with
  | nil =>
    cases bs with
    | nil => simp [strncmp]
    | cons b bs => cases h
  | cons a as ih =>
    cases bs with
    | nil => cases h
    | cons b bs =>
      rw [strncmp,cString,cString]
      by_cases heq : a = b
      · rw [if_neg (not_not.mpr heq),← heq]
        split
        · simp
        · rw [ih (Nat.succ.inj h)]
          simp
      · have hne : (a.toNat : ℤ)-b.toNat ≠ 0 := by
          intro h0
          exact heq (BitVec.eq_of_toNat_eq (by omega))
        rw [if_pos heq]
        refine ⟨fun h0 => absurd h0 hne,fun hstr => ?_⟩
        split at hstr <;> split at hstr <;> simp_all

/-- The comparison finds a difference exactly if one comes before any zero byte. -/
theorem strncmp_ne_zero (h : as.length = bs.length) :
    strncmp as bs ≠ 0 ↔ ∃ i : ℕ, as[i]? ≠ bs[i]? ∧ ∀ j < i, as[j]? = bs[j]? ∧ as[j]? ≠ some 0 := by
  induction as generalizing bs with
  | nil =>
    cases bs with
    | nil => simp [strncmp]
    | cons b bs => cases h
  | cons a as ih =>
    cases bs with
    | nil => cases h
    | cons b bs =>
      rw [strncmp]
      by_cases heq : a = b
      swap
      · have hne : (a.toNat : ℤ)-b.toNat ≠ 0 := by
          intro h0
          exact heq (BitVec.eq_of_toNat_eq (by omega))
        rw [if_pos heq]
        exact ⟨fun _ => ⟨0,by simpa using heq,fun j hj => absurd hj (Nat.not_lt_zero j)⟩,fun _ => hne⟩
      rw [if_neg (not_not.mpr heq)]
      by_cases h0 : a = 0
      · rw [if_pos h0]
        refine ⟨fun hne => absurd rfl hne,fun hdiff => ?_⟩
        obtain ⟨i,hi,hbefore⟩ := hdiff
        cases i with
        | zero => exact absurd (by simp [heq]) hi
        | succ i => exact absurd (by simp [h0]) (hbefore 0 (Nat.succ_pos i)).2
      · rw [if_neg h0,ih (Nat.succ.inj h)]
        constructor
        · intro hdiff
          obtain ⟨i,hi,hbefore⟩ := hdiff
          refine ⟨i+1,hi,fun j hj => ?_⟩
          cases j with
          | zero => exact ⟨by simp [heq],by simpa using h0⟩
          | succ j => exact hbefore j (Nat.lt_of_succ_lt_succ hj)
        · intro hdiff
          obtain ⟨i,hi,hbefore⟩ := hdiff
          cases i with
          | zero => exact absurd (by simp [heq]) hi
          | succ i => exact ⟨i,hi,fun j hj => hbefore (j+1) (Nat.succ_lt_succ hj)⟩

theorem memcpyValue_inj (h : as.length = bs.length) (heq : memcpyValue as = memcpyValue bs) : as = bs := by
  induction as generalizing bs with
  | nil =>
    cases bs with
    | nil => rfl
    | cons b bs => cases h
  | cons a as ih =>
    cases bs with
    | nil => cases h
    | cons b bs =>
      rw [memcpyValue,memcpyValue] at heq
      rw [ih (Nat.succ.inj h) (by omega),BitVec.eq_of_toNat_eq (by omega : a.toNat = b.toNat)]

end Bytes

section Keys
variable {a b c : Stored}

theorem bytes_injective : Function.Injective SimpleTime.bytes := by
  intro t o h
  simp only [SimpleTime.bytes,List.cons.injEq,and_true] at h
  obtain ⟨hlow,hhigh,hmonth,hday,hhour,hmin,hsecond⟩ := h
  have hyear : t.year = o.year := by
    have ht := t.year.isLt
    have ho := o.year.isLt
    have hlow' := congrArg BitVec.toNat hlow
    have hhigh' := congrArg BitVec.toNat hhigh
    simp only [BitVec.toNat_setWidth,BitVec.toNat_ushiftRight,Nat.shiftRight_eq_div_pow] at hlow' hhigh'
    exact BitVec.eq_of_toNat_eq (by omega)
  cases t
  cases o
  simp_all

theorem length_bytes (a : Stored) : a.bytes.length = 8 := rfl

theorem same_length (a b : Stored) : a.bytes.length = b.bytes.length := (length_bytes a).trans (length_bytes b).symm

theorem eq_iff : a.eq b = true ↔ cString a.bytes = cString b.bytes := by
  rw [Stored.eq,decide_eq_true_iff,strncmp_eq_zero (same_length a b)]

theorem eq_false_iff : a.eq b = false ↔
    ∃ i : ℕ, a.bytes[i]? ≠ b.bytes[i]? ∧ ∀ j < i, a.bytes[j]? = b.bytes[j]? ∧ a.bytes[j]? ≠ some 0 := by
  rw [Stored.eq,decide_eq_false_iff_not]
  exact strncmp_ne_zero (same_length a b)

theorem stored_eq_of_bytes (h : a.bytes = b.bytes) : a = b := by
  obtain ⟨htime,hpadding⟩ := List.append_inj h rfl
  cases a
  cases b
  simp_all [bytes_injective.eq_iff]

theorem lawful_of_time_eq (htime : a.time = b.time) : a.Lawful b ↔ a.padding = b.padding := by
  have hlt : a.time.lt b.time = false := by
    rw [← Bool.not_eq_true,SimpleTime.lt_iff,htime]
    exact lt_irrefl _
  have hgt : a.time.gt b.time = false := by
    rw [← Bool.not_eq_true,SimpleTime.gt_iff,htime]
    exact lt_irrefl _
  constructor
  · intro h
    have hhash := h.2.2 (h.2.1.mpr htime)
    exact congrArg Stored.padding (stored_eq_of_bytes (memcpyValue_inj (same_length a b) hhash))
  · intro hpadding
    have hab : a = b := by
      cases a
      cases b
      simp_all
    have heq : a.eq b = true := eq_iff.mpr (by rw [hab])
    exact ⟨.inr (.inl ⟨hlt,heq,hgt⟩),⟨fun _ => htime,fun _ => heq⟩,fun _ => by rw [hab]⟩

theorem lawful_of_time_ne (htime : a.time ≠ b.time) : a.Lawful b ↔ a.eq b = false := by
  constructor
  · intro h
    rw [← Bool.not_eq_true,h.2.1]
    exact htime
  · intro heq
    refine ⟨?_,⟨fun htrue => ?_,fun h => absurd h htime⟩,fun htrue => ?_⟩
    · rcases lt_or_gt_of_ne htime with hlt | hgt
      · refine .inl ⟨(SimpleTime.lt_iff _ _).mpr hlt,heq,?_⟩
        rw [← Bool.not_eq_true,SimpleTime.gt_iff]
        exact hlt.asymm
      · refine .inr (.inr ⟨?_,heq,(SimpleTime.gt_iff _ _).mpr hgt⟩)
        rw [← Bool.not_eq_true,SimpleTime.lt_iff]
        exact hgt.asymm
    · rw [heq] at htrue
      cases htrue
    · rw [heq] at htrue
      cases htrue

theorem difference_lt {i : ℕ} (htime : a.time ≠ b.time)
    (hbefore : ∀ j < i, a.bytes[j]? = b.bytes[j]?) : i < 7 := by
  by_contra hge
  refine htime (bytes_injective (List.ext_getElem? fun j => ?_))
  by_cases hj : j < 7
  · have := hbefore j (by omega)
    rwa [Stored.bytes,Stored.bytes,List.getElem?_append_left hj,List.getElem?_append_left hj] at this
  · rw [List.getElem?_eq_none (Nat.le_of_not_lt hj),List.getElem?_eq_none (Nat.le_of_not_lt hj)]

end Keys

/-- The equality is an equivalence. A pair of times is lawful, that is exactly one of the
three relations holds, equality means equal fields and implies equal hashes, exactly if
equal times have equal padding and different ones differ before any zero byte. -/
theorem lawful_keys_iff (a b : Stored) : Equivalence (fun a b : Stored => a.eq b = true) ∧ (a.Lawful b ↔ a.Plain b) := by
  refine ⟨⟨fun a => eq_iff.mpr rfl,fun h => eq_iff.mpr (eq_iff.mp h).symm,
    fun h h' => eq_iff.mpr ((eq_iff.mp h).trans (eq_iff.mp h'))⟩,?_⟩
  by_cases htime : a.time = b.time
  · rw [lawful_of_time_eq htime]
    exact ⟨fun hpadding => ⟨fun _ => hpadding,fun hne => absurd htime hne⟩,fun h => h.1 htime⟩
  · rw [lawful_of_time_ne htime,eq_false_iff]
    constructor
    · intro hdiff
      obtain ⟨i,hi,hbefore⟩ := hdiff
      exact ⟨fun h => absurd h htime,fun _ =>
        ⟨i,difference_lt htime fun j hj => (hbefore j hj).1,hi,hbefore⟩⟩
    · intro h
      obtain ⟨i,-,hi,hbefore⟩ := h.2 htime
      exact ⟨i,hi,hbefore⟩

/-- Midnight and one second past it on the same day are equal, and in order as well. -/
theorem midnight_equals_next_second :
    let a : Stored := ⟨⟨2016,1,1,0,0,0⟩,0⟩
    let b : Stored := ⟨⟨2016,1,1,0,0,1⟩,0⟩
    a.eq b = true ∧ a.time.lt b.time = true ∧ a.time ≠ b.time ∧ a.hash ≠ b.hash ∧ ¬ a.Lawful b := by
  have hrun : (⟨⟨2016,1,1,0,0,0⟩,0⟩ : Stored).eq ⟨⟨2016,1,1,0,0,1⟩,0⟩ = true ∧
      (⟨2016,1,1,0,0,0⟩ : SimpleTime).lt ⟨2016,1,1,0,0,1⟩ = true ∧
      (⟨2016,1,1,0,0,0⟩ : SimpleTime) ≠ ⟨2016,1,1,0,0,1⟩ ∧
      (⟨⟨2016,1,1,0,0,0⟩,0⟩ : Stored).hash ≠ (⟨⟨2016,1,1,0,0,1⟩,0⟩ : Stored).hash := by decide
  exact ⟨hrun.1,hrun.2.1,hrun.2.2.1,hrun.2.2.2,fun h => hrun.2.2.1 (h.2.1.mp hrun.1)⟩

end FarMemory.TimeKeys
