import FarMemory.CircularBuffer

/-!
# Circular buffers as bounded double-ended queues

Positions and the number of slots are 32-bit words. A step forward stays below the number of
slots, but the step backward of `push_front` adds that number first, and the sum may wrap. Two
buffers work side by side, and either one steals from the other; their specification is a
pair of lists of bounded length.
-/
namespace FarMemory.RingDeque
open Function CircularBuffer

section Buffer
variable {T : Type*}

/-- No buffer works with zero slots: every operation divides by their number. -/
def create (fill : T) (size : ℕ) : Option (CircularBuffer T) :=
  if h : 0 < (size+1)%2^32 then some ⟨fun _ => fill,0,0,(size+1)%2^32,h,h⟩ else none

def size (c : CircularBuffer T) : ℕ :=
  if c.tail < c.head then ((c.tail+c.slots)%2^32+2^32-c.head)%2^32 else c.tail-c.head

def prevHead (c : CircularBuffer T) : ℕ := ((c.head+c.slots)%2^32+2^32-1)%2^32%c.slots

def pushFront (c : CircularBuffer T) (x : T) : Bool × CircularBuffer T :=
  if prevHead c ≠ c.tail then
    (true,{c with
      items := update c.items (prevHead c) x
      head := prevHead c
      head_lt := Nat.mod_lt _ c.slots_pos})
  else (false,c)

theorem next_lt (c : CircularBuffer T) : (c.head+1)%c.slots < c.slots := Nat.mod_lt _ c.slots_pos

/-- The first element goes if there is no room. -/
def makeRoom (moved : T → T) (c : CircularBuffer T) : Option T × CircularBuffer T :=
  if (c.tail+1)%c.slots = c.head then
    (some (c.items c.head),{c with
      items := update c.items c.head (moved (c.items c.head))
      head := (c.head+1)%c.slots
      head_lt := next_lt c})
  else (none,c)

def pushBackOverride (moved : T → T) (c : CircularBuffer T) (x : T) : Option T × CircularBuffer T :=
  let r := makeRoom moved c
  (r.1,{r.2 with
    items := update r.2.items r.2.tail x
    tail := (r.2.tail+1)%r.2.slots
    tail_lt := Nat.mod_lt _ r.2.slots_pos})

def clear (c : CircularBuffer T) : CircularBuffer T := {c with head := c.tail, head_lt := c.tail_lt}

/-- The elements that are visited from a position on; `none` if the walk does not end. -/
def visit (items : ℕ → T) (slots tail : ℕ) : ℕ → ℕ → Option (List T)
  | 0,idx => if idx = tail then some [] else none
  | n+1,idx => if idx = tail then some [] else (visit items slots tail n ((idx+1)%slots)).map (items idx::·)

def forEach (c : CircularBuffer T) : Option (List T) := visit c.items c.slots c.tail c.slots c.head

end Buffer

inductive Op (T : Type*) where
  | pushFront (i : Bool) (x : T)
  | pushBack (i : Bool) (x : T)
  | pushBackOverride (i : Bool) (x : T)
  | popFront (i : Bool)
  | clear (i : Bool)
  | forEach (i : Bool)
  | size (i : Bool)
  | workSteal (thief : Bool)

inductive Out (T : Type*) where
  | success (b : Bool)
  | item (x : Option T)
  | visited (l : Option (List T))
  | size (n : ℕ)
  | unit
deriving DecidableEq

section
variable {T : Type*}

def perform (moved : T → T) (s : Bool → CircularBuffer T) : Op T → Out T × (Bool → CircularBuffer T)
  | .pushFront i x => (.success (pushFront (s i) x).1,update s i (pushFront (s i) x).2)
  | .pushBack i x => (.success ((s i).pushBack x).1,update s i ((s i).pushBack x).2)
  | .pushBackOverride i x => (.item (pushBackOverride moved (s i) x).1,update s i (pushBackOverride moved (s i) x).2)
  | .popFront i =>
    match (s i).popFront moved with
    | none => (.item none,s)
    | some (x,c) => (.item (some x),update s i c)
  | .clear i => (.unit,update s i (clear (s i)))
  | .forEach i => (.visited (forEach (s i)),s)
  | .size i => (.size (size (s i)),s)
  | .workSteal i =>
    let r := workSteal (s i) (s !i)
    (.success r.1,update (update s i r.2.1) (!i) r.2.2)

/-- Two lists of bounded length. Stealing takes half of the victim, or as much as there is room for. -/
def deque (cap : Bool → ℕ) (l : Bool → List T) : Op T → Out T × (Bool → List T)
  | .pushFront i x => if (l i).length < cap i then (.success true,update l i (x::l i)) else (.success false,l)
  | .pushBack i x => if (l i).length < cap i then (.success true,update l i (l i++[x])) else (.success false,l)
  | .pushBackOverride i x =>
    if (l i).length < cap i then (.item none,update l i (l i++[x]))
    else (.item (l i).head?,update l i ((l i).tail++[x]))
  | .popFront i => (.item (l i).head?,update l i (l i).tail)
  | .clear i => (.unit,update l i [])
  | .forEach i => (.visited (some (l i)),l)
  | .size i => (.size (l i).length,l)
  | .workSteal i =>
    let k := min ((l !i).length/2) (cap i-(l i).length)
    (.success (decide ((l !i).length/2 ≠ 0)),update (update l i (l i++(l !i).take k)) (!i) ((l !i).drop k))

def run {σ : Type*} (f : σ → Op T → Out T × σ) : σ → List (Op T) → List (Out T) × σ
  | s,[] => ([],s)
  | s,op::ops => ((f s op).1::(run f (f s op).2 ops).1,(run f (f s op).2 ops).2)

/-! ### One operation -/

variable {c c' : CircularBuffer T} {moved : T → T} {x : T}

theorem size_eq (h : c.slots < 2^32) : size c = c.size := by
  have := c.head_lt
  have := c.tail_lt
  unfold size CircularBuffer.size CircularBuffer.sizeOf
  split <;> omega

theorem prevHead_eq (h : c.slots ≤ 2^31) : prevHead c = (c.head+c.slots-1)%c.slots := by
  have := c.head_lt
  have hsum : ((c.head+c.slots)%2^32+2^32-1)%2^32 = c.head+c.slots-1 := by omega
  rw [prevHead,hsum]

theorem pushFront_eq (h : c.slots ≤ 2^31) (x : T) : pushFront c x = c.pushFront x := by
  unfold pushFront CircularBuffer.pushFront
  simp only [prevHead_eq h]

theorem pushFront_full (h : ¬c.size < c.capacity) (x : T) : c.pushFront x = (false,c) := by
  have hprev : (c.head+c.slots-1)%c.slots = c.tail := by
    have hh := c.head_lt
    have ht := c.tail_lt
    rw [prev_head]
    unfold CircularBuffer.size CircularBuffer.sizeOf capacity at h
    split at h <;> split <;> omega
  rw [CircularBuffer.pushFront,if_neg (not_not.mpr hprev)]

theorem makeRoom_spec (moved : T → T) (hcap : 1 ≤ c.capacity) : (makeRoom moved c).2.size < (makeRoom moved c).2.capacity ∧
    (makeRoom moved c).2.slots = c.slots ∧ (makeRoom moved c).1 = (if c.size < c.capacity then none else c.contents.head?) ∧
    (makeRoom moved c).2.contents = if c.size < c.capacity then c.contents else c.contents.tail := by
  by_cases h : c.size < c.capacity
  · rw [makeRoom,if_neg (c.next_tail_ne_head_iff.mpr h),if_pos h,if_pos h]
    exact ⟨h,rfl,rfl,rfl⟩
  · have hne : c.head ≠ c.tail := fun heq => h (by rw [c.sizeOf_eq_zero_iff.mpr heq.symm]; omega)
    -- a full buffer has an element to give up, as a pop would
    have hpop : c.popFront moved = some (c.items c.head,(makeRoom moved c).2) := by
      rw [makeRoom,if_pos (not_not.mp fun hn => h (c.next_tail_ne_head_iff.mp hn)),CircularBuffer.popFront,if_pos hne]
    obtain ⟨hc,-,hslots⟩ := popFront_some hpop
    have hlen := congrArg List.length hc
    rw [contents_length,List.length_cons,contents_length] at hlen
    have hfst : (makeRoom moved c).1 = some (c.items c.head) := by
      rw [makeRoom,if_pos (not_not.mp fun hn => h (c.next_tail_ne_head_iff.mp hn))]
    have hlt := c.size_lt
    rw [if_neg h,if_neg h,hfst,hc]
    refine ⟨?_,hslots,rfl,rfl⟩
    unfold capacity
    omega

theorem pushBackOverride_spec (moved : T → T) (hcap : 1 ≤ c.capacity) (x : T) :
    (pushBackOverride moved c x).1 = (if c.size < c.capacity then none else c.contents.head?) ∧
    (pushBackOverride moved c x).2.contents = (if c.size < c.capacity then c.contents else c.contents.tail)++[x] ∧
    (pushBackOverride moved c x).2.slots = c.slots := by
  obtain ⟨hroom,hslots,hout,hcont⟩ := makeRoom_spec moved hcap
  refine ⟨hout,?_,hslots⟩
  rw [← hcont]
  exact contents_extend hroom x _

theorem clear_contents (c : CircularBuffer T) : (clear c).contents = [] := (contents_eq_nil_iff _).mpr rfl

theorem visit_eq {n : ℕ} (h : c.size ≤ n) : visit c.items c.slots c.tail n c.head = some c.contents := by
  induction n generalizing c with
  | zero =>
    have htail := c.sizeOf_eq_zero_iff.mp (by omega)
    rw [visit,if_pos htail.symm,c.contents_eq_nil_iff.mpr htail]
  | succ n ih =>
    rw [visit]
    split
    · rename_i heq
      rw [c.contents_eq_nil_iff.mpr heq.symm]
    · rename_i hne
      have hsize := size_next_head hne
      have hnext := ih (c := ⟨c.items,(c.head+1)%c.slots,c.tail,c.slots,Nat.mod_lt _ c.slots_pos,c.tail_lt⟩)
        (by change CircularBuffer.sizeOf c.slots c.tail ((c.head+1)%c.slots) ≤ n; omega)
      rw [hnext,contents_advance hne (Nat.mod_lt _ c.slots_pos)]
      rfl

theorem workSteal_eq (thief victim : CircularBuffer T) :
    let k := min (victim.size/2) (thief.capacity-thief.size)
    (workSteal thief victim).1 = decide (victim.size/2 ≠ 0) ∧
      (workSteal thief victim).2.1.contents = thief.contents++victim.contents.take k ∧
      (workSteal thief victim).2.2.contents = victim.contents.drop k ∧
      (workSteal thief victim).2.1.slots = thief.slots ∧ (workSteal thief victim).2.2.slots = victim.slots := by
  have hcap : thief.size ≤ thief.capacity := by
    have := thief.size_lt
    unfold capacity
    omega
  intro k
  unfold workSteal
  split
  · rename_i hzero
    have hk : k = 0 := by omega
    simp [hzero,hk]
  · rename_i hpos
    have hthief : thief.size+k ≤ thief.capacity := by omega
    have hvictim : k ≤ victim.size := by omega
    obtain ⟨h1,h2,h3,h4,-⟩ := stealLoop_spec hthief hvictim
    exact ⟨by simp [hpos],h1,h2,h3,h4⟩

/-! ### Whole runs -/

variable {cap : Bool → ℕ} {s : Bool → CircularBuffer T} {l : Bool → List T}

def Rel (cap : Bool → ℕ) (s : Bool → CircularBuffer T) (l : Bool → List T) : Prop :=
  ∀ i, (s i).contents = l i ∧ (s i).capacity = cap i

theorem Rel.update (h : Rel cap s l) (i : Bool) {m : List T} (hc : c.contents = m) (hcap : c.slots = (s i).slots) :
    Rel cap (update s i c) (update l i m) := by
  intro j
  by_cases hj : j = i
  · subst hj
    rw [update_self,update_self]
    exact ⟨hc,(congrArg (·-1) hcap).trans (h j).2⟩
  · rw [update_of_ne hj,update_of_ne hj]
    exact h j

theorem Rel.size_eq_length (h : Rel cap s l) (i : Bool) : (s i).size = (l i).length := by
  rw [← contents_length,(h i).1]

theorem perform_deque (hcap : ∀ i, 1 ≤ cap i ∧ cap i < 2^31) (h : Rel cap s l) (op : Op T) :
    (perform moved s op).1 = (deque cap l op).1 ∧ Rel cap (perform moved s op).2 (deque cap l op).2 := by
  have hroom : ∀ i, (s i).size < (s i).capacity ↔ (l i).length < cap i := fun i => by rw [h.size_eq_length,(h i).2]
  have hslots : ∀ i, (s i).slots ≤ 2^31 := fun i => by
    have := (hcap i).2
    rw [← (h i).2,capacity] at this
    omega
  cases op with
  | pushFront i x =>
    simp only [perform,deque,pushFront_eq (hslots i),← hroom i]
    split
    · rename_i hlt
      obtain ⟨hok,hc⟩ := pushFront_of_lt hlt x
      exact ⟨by rw [hok],h.update i (hc.trans (by rw [(h i).1])) (pushFront_slots _ _)⟩
    · rename_i hfull
      rw [pushFront_full hfull,update_eq_self]
      exact ⟨rfl,h⟩
  | pushBack i x =>
    simp only [perform,deque,← hroom i]
    split
    · rename_i hlt
      obtain ⟨hok,hc⟩ := pushBack_of_lt hlt x
      exact ⟨by rw [hok],h.update i (hc.trans (by rw [(h i).1])) (pushBack_slots _ _)⟩
    · rename_i hfull
      rw [pushBack_full hfull,update_eq_self]
      exact ⟨rfl,h⟩
  | pushBackOverride i x =>
    obtain ⟨hout,hc,hs⟩ := pushBackOverride_spec moved ((hcap i).1.trans_eq (h i).2.symm) x
    simp only [perform,deque,← hroom i]
    rw [(h i).1] at hout hc
    split
    · rename_i hlt
      rw [if_pos hlt] at hout hc
      exact ⟨congrArg _ hout,h.update i hc hs⟩
    · rename_i hfull
      rw [if_neg hfull] at hout hc
      exact ⟨congrArg _ hout,h.update i hc hs⟩
  | popFront i =>
    simp only [perform,deque]
    rcases hp : (s i).popFront moved with _ | ⟨x,c⟩
    · have hnil := popFront_none hp
      rw [(h i).1] at hnil
      rw [hnil,List.tail_nil,← hnil,update_eq_self]
      exact ⟨by simp [hnil],h⟩
    · obtain ⟨hc,-,hs⟩ := popFront_some hp
      rw [(h i).1] at hc
      rw [hc]
      exact ⟨rfl,h.update i rfl hs⟩
  | clear i => exact ⟨rfl,h.update i (clear_contents _) rfl⟩
  | forEach i => exact ⟨by rw [perform,deque,forEach,visit_eq (s i).size_lt.le,(h i).1],h⟩
  | size i => exact ⟨by rw [perform,deque,size_eq ((hslots i).trans_lt (by norm_num)),h.size_eq_length],h⟩
  | workSteal i =>
    obtain ⟨hok,hthief,hvictim,hs,hs'⟩ := workSteal_eq (s i) (s !i)
    simp only [h.size_eq_length,(h i).1,(h !i).1,(h i).2] at hok hthief hvictim
    refine ⟨by rw [perform,deque,hok],(h.update i hthief hs).update (!i) hvictim ?_⟩
    rw [update_of_ne (by simp),hs']

theorem run_deque (moved : T → T) (hcap : ∀ i, 1 ≤ cap i ∧ cap i < 2^31) (ops : List (Op T)) (h : Rel cap s l) :
    (run (perform moved) s ops).1 = (run (deque cap) l ops).1 ∧
      Rel cap (run (perform moved) s ops).2 (run (deque cap) l ops).2 := by
  induction ops generalizing s l with
  | nil => exact ⟨rfl,h⟩
  | cons op ops ih =>
    obtain ⟨hout,hrel⟩ := perform_deque hcap h op
    obtain ⟨houts,hrels⟩ := ih hrel
    exact ⟨by rw [run,run,hout,houts],hrels⟩

/-! ### Buffers too large for their positions -/

theorem create_eq_some {fill : T} {n : ℕ} (h : create fill n = some c) : c.head = 0 ∧ c.tail = 0 ∧ c.slots = (n+1)%2^32 := by
  rw [create] at h
  split at h
  · cases h
    exact ⟨rfl,rfl,rfl⟩
  · cases h

theorem pushFront_of_ne (h : prevHead c ≠ c.tail) : (pushFront c x).1 = true ∧ (pushFront c x).2.head = prevHead c ∧
    (pushFront c x).2.tail = c.tail ∧ (pushFront c x).2.slots = c.slots := by
  rw [pushFront,if_pos h]
  exact ⟨rfl,rfl,rfl,rfl⟩

/-- The first step backward of a new buffer leads to its last slot, the second one wraps. -/
theorem pushFront_twice {fill : T} {n : ℕ} (h : create fill n = some c) (hbig : 2^31 ≤ n) (hword : n < 2^32) (x : T) :
    ¬((pushFront (pushFront c x).2 x).1 = true ∧ size (pushFront (pushFront c x).2 x).2 = 2) := by
  obtain ⟨hhead,htail,hslots⟩ := create_eq_some h
  have hpos := c.slots_pos
  have hn : c.slots = n+1 := by omega
  have hlast : prevHead c = n := by
    have hsum : ((0+(n+1))%2^32+2^32-1)%2^32 = n := by omega
    rw [prevHead,hhead,hn,hsum,Nat.mod_eq_of_lt (by omega)]
  obtain ⟨-,hd,hdt,hds⟩ := pushFront_of_ne (c := c) (x := x) (by omega)
  generalize (pushFront c x).2 = d at *
  rw [hlast] at hd
  rw [hn] at hds
  rw [htail] at hdt
  have hwrap : prevHead d = 2*n-2^32 := by
    have hsum : ((n+(n+1))%2^32+2^32-1)%2^32 = 2*n-2^32 := by omega
    rw [prevHead,hd,hds,hsum,Nat.mod_eq_of_lt (by omega)]
  rintro ⟨hok,hsize⟩
  by_cases hne : prevHead d = d.tail
  · rw [pushFront,if_neg (not_not.mpr hne)] at hok
    cases hok
  · obtain ⟨-,he,het,hes⟩ := pushFront_of_ne (x := x) hne
    rw [size,he,het,hes,hwrap,hdt,hds,if_pos (by omega)] at hsize
    omega

theorem deque_pushBack_length (i : Bool) (x : T) (k : ℕ) (h : (l i).length+k ≤ cap i) :
    ((run (deque cap) l (List.replicate k (.pushBack i x))).2 i).length = (l i).length+k := by
  induction k generalizing l with
  | zero => rfl
  | succ k ih =>
    rw [List.replicate_succ,run,deque,if_pos (by omega)]
    rw [ih (by simp; omega)]
    simp
    omega

theorem perform_pushBack_slots (i : Bool) (x : T) (k : ℕ) :
    ((run (perform moved) s (List.replicate k (.pushBack i x))).2 i).slots = (s i).slots := by
  induction k generalizing s with
  | zero => rfl
  | succ k ih =>
    rw [List.replicate_succ,run,ih]
    simp [perform]

/-- New buffers answer every sequence of operations as bounded double-ended queues do, and hold
their elements, exactly if their capacities are below `2^31`. -/
theorem refines_bounded_deque (moved : T → T) (fill : T) (cap : Bool → ℕ) (hpos : ∀ i, 1 ≤ cap i) :
    (∃ s, (∀ i, create fill (cap i) = some (s i)) ∧ ∀ ops,
      (run (perform moved) s ops).1 = (run (deque cap) (fun _ => []) ops).1 ∧
      ∀ i, ((run (perform moved) s ops).2 i).contents = (run (deque cap) (fun _ => []) ops).2 i) ↔
    ∀ i, cap i < 2^31 := by
  constructor
  · rintro ⟨s,hs,hops⟩ i
    by_contra hbig
    rw [not_lt] at hbig
    by_cases hword : cap i < 2^32
    · refine pushFront_twice (hs i) hbig hword fill ?_
      have hout := (hops [.pushFront i fill,.pushFront i fill,.size i]).1
      have hone : 1 < cap i := by omega
      have hzero : 0 < cap i := by omega
      simp only [run,perform,deque,update_self,List.length_nil,hone,hzero,if_true,
        List.cons.injEq,Out.success.injEq,Out.size.injEq,List.length_cons] at hout
      exact ⟨hout.2.1,hout.2.2.1⟩
    · -- more elements than the buffer has slots
      obtain ⟨k,hk⟩ : ∃ k, k = 2^32 := ⟨_,rfl⟩
      have hlen := congrArg List.length ((hops (List.replicate k (.pushBack i fill))).2 i)
      rw [contents_length,deque_pushBack_length i fill k (by simp; omega)] at hlen
      have hlt := size_lt ((run (perform moved) s (List.replicate k (.pushBack i fill))).2 i)
      rw [perform_pushBack_slots,(create_eq_some (hs i)).2.2,hlen,List.length_nil] at hlt
      omega
  · intro hlt
    have hslots : ∀ i, (cap i+1)%2^32 = cap i+1 := fun i => by
      have := hlt i
      omega
    refine ⟨fun i => ⟨fun _ => fill,0,0,cap i+1,by omega,by omega⟩,fun i => ?_,fun ops => ?_⟩
    · simp only [create,hslots]
      rw [dif_pos (by omega)]
    · obtain ⟨hout,hrel⟩ := run_deque moved (fun i => ⟨hpos i,hlt i⟩) ops
        (fun _ => ⟨rfl,rfl⟩ : Rel cap (fun i => ⟨fun _ => fill,0,0,cap i+1,by omega,by omega⟩) fun _ => [])
      exact ⟨hout,fun i => (hrel i).1⟩

theorem refines_bounded_deque_small : (∃ s, (∀ i, create 0 4 = some (s i)) ∧ ∀ ops,
      (run (perform id) s ops).1 = (run (deque fun _ => 4) (fun _ => []) ops).1 ∧
      ∀ i, ((run (perform id) s ops).2 i).contents = (run (deque fun _ => 4) (fun _ => ([] : List ℕ)) ops).2 i) :=
  (refines_bounded_deque id 0 (fun _ => 4) (by simp)).mpr (by simp)

/-- With `2^31` elements of capacity, the second element pushed to the front does not go in. -/
theorem second_pushFront_fails : ∃ s : Bool → CircularBuffer ℕ, (∀ i, create 0 (2^31) = some (s i)) ∧
    (run (perform id) s [.pushFront true 1,.pushFront true 2]).1 = [.success true,.success false] ∧
    (run (deque fun _ => 2^31) (fun _ => []) [.pushFront true 1,.pushFront true 2]).1 =
      [.success true,.success true] :=
  ⟨fun _ => ⟨fun _ => 0,0,0,2^31+1,by decide,by decide⟩,fun _ => rfl,by decide,by decide⟩

end

end FarMemory.RingDeque
