import FarMemory.Execution

/-!
# swap_in against the owner of a pointer

`swap_in` takes a snapshot of a pointer's metadata, locks the object id of the snapshot, fetches that
object and marks the pointer present. It runs in mutators and in prefetch threads, while the owner of
the pointer moves, evacuates or frees it. These three also lock the id of a snapshot, and then compare
the metadata with it (`_free` does not); `swap_in` only tests that the pointer is still not present.

A word is null, absent with the id of its object, or present with a local address. Reading the id or
the data structure of null gives zero. A locked section of the owner is one step once the lock is
taken; `swap_in` goes access by access.
-/
namespace FarMemory.SwapInInstalls
open Execution Function

abbrev Bytes := List UInt8

structure Ident where
  ds : ℕ
  id : ℕ
  deriving DecidableEq, Repr

structure Obj where
  ident : Ident
  data : Bytes
  deriving DecidableEq, Repr

inductive Word
  | null
  | absent (i : Ident)
  | present (addr : ℕ) (dirty : Bool)
  deriving DecidableEq, Repr

namespace Word

def isPresent : Word → Bool
  | present _ _ => true
  | _ => false

def getObjectId : Word → ℕ
  | absent i => i.id
  | _ => 0

def getDsId : Word → ℕ
  | absent i => i.ds
  | _ => 0

end Word

/-- What the owner of a pointer does: move it to another pointer, evacuate it or free it. -/
inductive Act
  | move (p q : ℕ)
  | evacuate (p : ℕ)
  | free (p : ℕ)
  deriving DecidableEq, Repr

inductive Thread
  | idle
  | waiting (p : ℕ) (snapshot : Word)
  | locked (p : ℕ) (snapshot : Word)
  | fetching (p : ℕ) (snapshot : Word)
  | installing (p : ℕ) (snapshot : Word) (addr : ℕ)
  | unlocking (id : ℕ)
  | acting (act : Act) (snapshot : Word)
  | committing (act : Act) (snapshot : Word) (id : ℕ)
  deriving DecidableEq, Repr

/-- `next` is the next local address; the memory of freed objects stays readable. -/
structure State where
  word : ℕ → Word
  obj : ℕ → Option Obj
  next : ℕ
  remote : Ident → Bytes
  lock : ℕ → Option ℕ
  threads : ℕ → Thread

namespace State

def setWord (s : State) (p : ℕ) (w : Word) : State := {s with word := update s.word p w}
def setThread (s : State) (t : ℕ) (x : Thread) : State := {s with threads := update s.threads t x}
def acquire (s : State) (t id : ℕ) : State := {s with lock := update s.lock id (some t)}
def release (s : State) (id : ℕ) : State := {s with lock := update s.lock id none}

def setRemote (s : State) (i : Ident) (data : Bytes) : State := {s with remote := update s.remote i data}

/-- A new local copy of a remote object. -/
def fetch (s : State) (i : Ident) : State :=
  {s with
    obj := update s.obj s.next (some ⟨i,s.remote i⟩)
    next := s.next+1}

def setData (s : State) (a : ℕ) (data : Bytes) : State :=
  {s with obj := update s.obj a ((s.obj a).map fun x => ⟨x.ident,data⟩)}

/-- The object id that the owner locks for a snapshot. -/
def lockId (s : State) : Word → ℕ
  | .present a _ =>
    match s.obj a with
    | some x => x.ident.id
    | none => 0
  | w => w.getObjectId

end State

/-- The locked section of the owner, with the lock on `id` held. -/
def commit (s : State) (t : ℕ) (act : Act) (snapshot : Word) (id : ℕ) : Option State :=
  match act with
  | .move p q =>
    if s.word p = snapshot then
      some ((((s.setWord q (s.word p)).setWord p .null).release id).setThread t .idle)
    else some ((s.release id).setThread t (.acting act (s.word p)))
  | .evacuate p =>
    if s.word p = snapshot then
      match snapshot with
      | .present a dirty =>
        match s.obj a with
        | some x =>
          let s₁ := if dirty then s.setRemote x.ident x.data else s
          some (((s₁.setWord p (.absent x.ident)).release id).setThread t .idle)
        | none => none
      | _ => none
    else
      if (s.word p).isPresent then some ((s.release id).setThread t (.acting act (s.word p)))
      else some ((s.release id).setThread t .idle)
  | .free p => some (((s.setWord p .null).release id).setThread t .idle)

/-- The next access of a thread. No result is a wait for a lock, or an assertion. -/
def run (s : State) (t : ℕ) : Option State :=
  match s.threads t with
  | .idle => none
  | .waiting p snapshot =>
    if s.lock snapshot.getObjectId = none then
      some ((s.acquire t snapshot.getObjectId).setThread t (.locked p snapshot))
    else none
  | .locked p snapshot =>
    if (s.word p).isPresent then some (s.setThread t (.unlocking snapshot.getObjectId))
    else some (s.setThread t (.fetching p snapshot))
  | .fetching p snapshot =>
    if (s.word p).isPresent then none
    else some ((s.fetch ⟨(s.word p).getDsId,snapshot.getObjectId⟩).setThread t (.installing p snapshot s.next))
  | .installing p snapshot a =>
    some ((s.setWord p (.present a false)).setThread t (.unlocking snapshot.getObjectId))
  | .unlocking id => some ((s.release id).setThread t .idle)
  | .acting act snapshot =>
    if s.lock (s.lockId snapshot) = none then
      some ((s.acquire t (s.lockId snapshot)).setThread t (.committing act snapshot (s.lockId snapshot)))
    else none
  | .committing act snapshot id => commit s t act snapshot id

inductive Op
  | swapIn (t p : ℕ)
  | act (t : ℕ) (act : Act)
  | write (p : ℕ) (data : Bytes)
  | run (t : ℕ)
  deriving DecidableEq, Repr

def step (s : State) : Op → Option (Unit × State)
  | .swapIn t p =>
    if s.threads t = .idle then
      some ((),if (s.word p).isPresent then s else s.setThread t (.waiting p (s.word p)))
    else none
  | .act t act =>
    if s.threads t = .idle then
      match act with
      | .move p _ => some ((),s.setThread t (.acting act (s.word p)))
      -- the other two return at once unless the pointer is present
      | .evacuate p | .free p =>
        some ((),if (s.word p).isPresent then s.setThread t (.acting act (s.word p)) else s)
    else none
  | .write p data =>
    match s.word p with
    | .present a _ => some ((),(s.setData a data).setWord p (.present a true))
    | _ => none
  | .run t => (run s t).map fun s' => ((),s')

/-! ### Ownership -/

/-- The remote object that a pointer stands for. -/
def denotes (s : State) (p : ℕ) : Option Ident :=
  match s.word p with
  | .null => none
  | .absent i => some i
  | .present a _ => (s.obj a).map Obj.ident

/-- No two pointers own the same remote object. -/
def Unique (s : State) : Prop := ∀ p q i, denotes s p = some i → denotes s q = some i → p = q

/-- Marking `p` present with the object at `a` is right: `p` is absent, and `a` is a copy of its object. -/
def RightCopy (s : State) (p a : ℕ) : Prop :=
  ∃ i, s.word p = .absent i ∧ s.obj a = some ⟨i,s.remote i⟩

/-- The pointer is absent with the id of the snapshot and the data structure that the object at `a` was
read for. -/
def StillDenotes (s : State) (p : ℕ) (snapshot : Word) (a : ℕ) : Prop :=
  match s.word p,s.obj a with
  | .absent i,some x => i.id = snapshot.getObjectId ∧ i.ds = x.ident.ds
  | _,_ => False

/-- Every installation of a `swap_in` finds the pointer so. -/
def Denoting (s : State) : Op → Prop
  | .run t =>
    match s.threads t with
    | .installing p snapshot a => StillDenotes s p snapshot a
    | _ => True
  | _ => True

def Thread.holds : Thread → Option ℕ
  | .locked _ snapshot => some snapshot.getObjectId
  | .fetching _ snapshot => some snapshot.getObjectId
  | .installing _ snapshot _ => some snapshot.getObjectId
  | .unlocking id => some id
  | .committing _ _ id => some id
  | _ => none

structure Inv (s : State) : Prop where
  unique : Unique s
  bound : ∀ a x, s.obj a = some x → a < s.next
  present : ∀ p a d, s.word p = .present a d → ∃ x, s.obj a = some x
  holds : ∀ t id, (s.threads t).holds = some id → s.lock id = some t
  ready : ∀ t p w a, s.threads t = .installing p w a →
    (∃ ds, s.obj a = some ⟨⟨ds,w.getObjectId⟩,s.remote ⟨ds,w.getObjectId⟩⟩) ∧ (∀ q d, s.word q ≠ .present a d) ∧
    ∀ t' p' w', s.threads t' = .installing p' w' a → t' = t
  acting : ∀ t act a d, s.threads t = .acting act (.present a d) → ∃ x, s.obj a = some x
  locked : ∀ t act a d id, s.threads t = .committing act (.present a d) id →
    ∃ x, s.obj a = some x ∧ x.ident.id = id

/-- Where the machine starts: ownership is unique, and no operation is in progress. -/
structure Quiet (s : State) : Prop where
  unique : Unique s
  bound : ∀ a x, s.obj a = some x → a < s.next
  present : ∀ p a d, s.word p = .present a d → ∃ x, s.obj a = some x
  idle : ∀ t, s.threads t = .idle

theorem Quiet.inv {s : State} (h : Quiet s) : Inv s := by
  have hidle : ∀ {t : ℕ} {x : Thread}, x ≠ .idle → s.threads t ≠ x := fun hne ht => hne (ht.symm.trans (h.idle _))
  refine ⟨h.unique,h.bound,h.present,?_,?_,?_,?_⟩
  · intro t id ht
    rw [h.idle t] at ht
    cases ht
  · intro t p w a ht
    exact absurd ht (hidle nofun)
  · intro t act a d ht
    exact absurd ht (hidle nofun)
  · intro t act a d id ht
    exact absurd ht (hidle nofun)

section Steps
variable {s s' : State} {t p a id : ℕ} {w : Word} {x : Thread}

theorem denotes_setWord (s : State) (p : ℕ) (w : Word) (q : ℕ) :
    denotes (s.setWord p w) q = if q = p then
      (match w with
      | .null => none
      | .absent i => some i
      | .present a _ => (s.obj a).map Obj.ident) else denotes s q := by
  unfold denotes State.setWord
  by_cases hq : q = p
  · subst hq
    simp only [update_self,if_true]
  · simp only [update_of_ne hq,if_neg hq]

/-- What the threads other than `t` are at. -/
theorem setThread_iff {t' : ℕ} {y : Thread} :
    (s.setThread t x).threads t' = y ↔ (t' = t ∧ x = y) ∨ (t' ≠ t ∧ s.threads t' = y) := by
  change update s.threads t x t' = y ↔ _
  by_cases hne : t' = t
  · subst hne
    simp
  · simp [hne]

/-- What a thread may go to: its snapshots are of objects, and it is not about to install one. -/
structure Plain (s : State) (x : Thread) : Prop where
  ready : ∀ p w a, x ≠ .installing p w a
  acting : ∀ act a d, x = .acting act (.present a d) → ∃ y, s.obj a = some y
  locked : ∀ act a d id, x = .committing act (.present a d) id → ∃ y, s.obj a = some y ∧ y.ident.id = id

theorem Inv.goto {lock : ℕ → Option ℕ} (h : Inv s) (hplain : Plain s x)
    (hothers : ∀ t' id, t' ≠ t → (s.threads t').holds = some id → lock id = some t')
    (hown : ∀ id, x.holds = some id → lock id = some t) : Inv ({s with lock := lock}.setThread t x) := by
  refine ⟨h.unique,h.bound,h.present,?_,?_,?_,?_⟩
  · intro t' id' ht'
    change (update s.threads t x t').holds = some id' at ht'
    by_cases hne : t' = t
    · subst hne
      rw [update_self] at ht'
      exact hown id' ht'
    · rw [update_of_ne hne] at ht'
      exact hothers t' id' hne ht'
  · intro t' p' w' a' ht'
    rcases setThread_iff.mp ht' with ⟨-,hx⟩ | ⟨-,hs⟩
    · exact absurd hx (hplain.ready p' w' a')
    · obtain ⟨hobj,hword,honly⟩ := h.ready t' p' w' a' hs
      refine ⟨hobj,hword,fun t'' p'' w'' ht'' => ?_⟩
      rcases setThread_iff.mp ht'' with ⟨-,hx⟩ | ⟨-,hs'⟩
      · exact absurd hx (hplain.ready p'' w'' a')
      · exact honly t'' p'' w'' hs'
  · intro t' act a' d ht'
    rcases setThread_iff.mp ht' with ⟨-,hx⟩ | ⟨-,hs⟩
    · exact hplain.acting act a' d hx
    · exact h.acting t' act a' d hs
  · intro t' act a' d id' ht'
    rcases setThread_iff.mp ht' with ⟨-,hx⟩ | ⟨-,hs⟩
    · exact hplain.locked act a' d id' hx
    · exact h.locked t' act a' d id' hs

theorem Inv.stay (h : Inv s) (hplain : Plain s x) (hholds : x.holds = none ∨ x.holds = (s.threads t).holds) :
    Inv (s.setThread t x) := by
  refine h.goto hplain (fun t' id' _ ht' => h.holds t' id' ht') fun id' hx => ?_
  rcases hholds with hnone | hsame
  · rw [hnone] at hx
    cases hx
  · rw [hsame] at hx
    exact h.holds t id' hx

theorem Inv.acquire (h : Inv s) (hplain : Plain s x) (hfree : s.lock id = none) (hx : x.holds = some id) :
    Inv ((s.acquire t id).setThread t x) := by
  refine h.goto hplain (fun t' id' _ ht' => ?_) fun id' hid' => ?_
  · have hlock := h.holds t' id' ht'
    have hne : id' ≠ id := by
      rintro rfl
      rw [hfree] at hlock
      cases hlock
    rwa [update_of_ne hne]
  · rw [hx,Option.some.injEq] at hid'
    subst hid'
    exact update_self ..

theorem Inv.release (h : Inv s) (hplain : Plain s x) (hheld : (s.threads t).holds = some id) (hx : x.holds = none) :
    Inv ((s.release id).setThread t x) := by
  refine h.goto hplain (fun t' id' hne ht' => ?_) fun id' hid' => ?_
  · have hlock := h.holds t' id' ht'
    have hid : id' ≠ id := by
      rintro rfl
      rw [h.holds t id' hheld,Option.some.injEq] at hlock
      exact hne hlock.symm
    rwa [update_of_ne hid]
  · rw [hx] at hid'
    cases hid'

theorem Inv.setWord (h : Inv s) (hunique : Unique (s.setWord p w))
    (hpresent : ∀ a d, w = .present a d → ∃ y, s.obj a = some y)
    (hready : ∀ t' p' w' a d, s.threads t' = .installing p' w' a → w ≠ .present a d) : Inv (s.setWord p w) := by
  have hcases : ∀ {q : ℕ} {v : Word}, (s.setWord p w).word q = v → (q = p ∧ w = v) ∨ s.word q = v := by
    intro q v hq
    change update s.word p w q = v at hq
    by_cases hne : q = p
    · subst hne
      rw [update_self] at hq
      exact .inl ⟨rfl,hq⟩
    · rw [update_of_ne hne] at hq
      exact .inr hq
  refine ⟨hunique,h.bound,?_,h.holds,?_,h.acting,h.locked⟩
  · intro q a d hq
    rcases hcases hq with ⟨-,hw⟩ | hq
    · exact hpresent a d hw
    · exact h.present q a d hq
  · intro t' p' w' a ht'
    obtain ⟨hobj,hword,honly⟩ := h.ready t' p' w' a ht'
    refine ⟨hobj,fun q d hq => ?_,honly⟩
    rcases hcases hq with ⟨-,hw⟩ | hq
    · exact hready t' p' w' a d ht' hw
    · exact hword q d hq

theorem Unique.setWord (h : Unique s)
    (hp : ∀ i, denotes (s.setWord p w) p = some i → denotes s p = some i) : Unique (s.setWord p w) := by
  have hall : ∀ q i, denotes (s.setWord p w) q = some i → denotes s q = some i := by
    intro q i hq
    by_cases hne : q = p
    · subst hne
      exact hp i hq
    · rwa [denotes_setWord,if_neg hne] at hq
  intro q r i hq hr
  exact h q r i (hall q i hq) (hall r i hr)

theorem Unique.move (h : Unique s) (q : ℕ) : Unique ((s.setWord q (s.word p)).setWord p .null) := by
  have hall : ∀ r i, denotes ((s.setWord q (s.word p)).setWord p .null) r = some i →
      r ≠ p ∧ ((r = q ∧ denotes s p = some i) ∨ (r ≠ q ∧ denotes s r = some i)) := by
    intro r i hr
    rw [denotes_setWord] at hr
    by_cases hrp : r = p
    · rw [if_pos hrp] at hr
      cases hr
    · rw [if_neg hrp,denotes_setWord] at hr
      by_cases hrq : r = q
      · rw [if_pos hrq] at hr
        exact ⟨hrp,.inl ⟨hrq,hr⟩⟩
      · rw [if_neg hrq] at hr
        exact ⟨hrp,.inr ⟨hrq,hr⟩⟩
  intro r r' i hr hr'
  obtain ⟨hrp,hr⟩ := hall r i hr
  obtain ⟨hrp',hr'⟩ := hall r' i hr'
  rcases hr with ⟨rfl,hd⟩ | ⟨hrq,hd⟩ <;> rcases hr' with ⟨rfl,hd'⟩ | ⟨hrq',hd'⟩
  · rfl
  · exact absurd (h _ _ i hd' hd) hrp'
  · exact absurd (h _ _ i hd hd') hrp
  · exact h r r' i hd hd'

theorem denotes_of_objs (hword : s'.word = s.word) (hpresent : ∀ p a d, s.word p = .present a d → ∃ y, s.obj a = some y)
    (hobj : ∀ a y, s.obj a = some y → ∃ y', s'.obj a = some y' ∧ y'.ident = y.ident) (q : ℕ) :
    denotes s' q = denotes s q := by
  unfold denotes
  rw [hword]
  cases hq : s.word q with
  | null => rfl
  | absent i => rfl
  | present b d =>
    obtain ⟨y,hy⟩ := hpresent q b d hq
    obtain ⟨y',hy',hident⟩ := hobj b y hy
    simp only [hy,hy',Option.map_some,hident]

theorem Inv.setData (h : Inv s) {d : Bool} (hp : s.word p = .present a d) (data : Bytes) : Inv (s.setData a data) := by
  have hother : ∀ b, b ≠ a → (s.setData a data).obj b = s.obj b := fun b hb => update_of_ne hb ..
  have hself : (s.setData a data).obj a = (s.obj a).map fun x => ⟨x.ident,data⟩ := update_self ..
  have hobj : ∀ b y, s.obj b = some y → ∃ y', (s.setData a data).obj b = some y' ∧ y'.ident = y.ident := by
    intro b y hy
    by_cases hb : b = a
    · subst hb
      exact ⟨⟨y.ident,data⟩,by rw [hself,hy]; rfl,rfl⟩
    · exact ⟨y,by rw [hother b hb,hy],rfl⟩
  have hdenotes : ∀ q, denotes (s.setData a data) q = denotes s q := denotes_of_objs rfl h.present hobj
  refine ⟨?_,?_,?_,h.holds,?_,?_,?_⟩
  · intro q r i hq hr
    rw [hdenotes] at hq hr
    exact h.unique q r i hq hr
  · intro b y hy
    by_cases hb : b = a
    · obtain ⟨z,hz⟩ := h.present p a d hp
      rw [hb]
      exact h.bound a z hz
    · rw [hother b hb] at hy
      exact h.bound b y hy
  · intro q b d' hq
    obtain ⟨y,hy⟩ := h.present q b d' hq
    obtain ⟨y',hy',-⟩ := hobj b y hy
    exact ⟨y',hy'⟩
  · intro t' p' w' b ht'
    obtain ⟨⟨ds,hx⟩,hword,honly⟩ := h.ready t' p' w' b ht'
    have hb : b ≠ a := by
      rintro rfl
      exact hword p d hp
    exact ⟨⟨ds,by rw [hother b hb,hx]; rfl⟩,hword,honly⟩
  · intro t' act b d' ht'
    obtain ⟨y,hy⟩ := h.acting t' act b d' ht'
    obtain ⟨y',hy',-⟩ := hobj b y hy
    exact ⟨y',hy'⟩
  · intro t' act b d' id' ht'
    obtain ⟨y,hy,hid⟩ := h.locked t' act b d' id' ht'
    obtain ⟨y',hy',hident⟩ := hobj b y hy
    exact ⟨y',hy',by rw [hident,hid]⟩

/-- The owner writes its object back: nobody is about to install a copy of it. -/
theorem Inv.setRemote (h : Inv s) {i : Ident} (data : Bytes)
    (hi : ∀ t' p' w' a', s.threads t' = .installing p' w' a' → w'.getObjectId ≠ i.id) : Inv (s.setRemote i data) := by
  refine ⟨h.unique,h.bound,h.present,h.holds,?_,h.acting,h.locked⟩
  intro t' p' w' b ht'
  obtain ⟨⟨ds,hx⟩,hrest⟩ := h.ready t' p' w' b ht'
  refine ⟨⟨ds,?_⟩,hrest⟩
  have hne : (⟨ds,w'.getObjectId⟩ : Ident) ≠ i := fun heq => hi t' p' w' b ht' (congrArg Ident.id heq)
  rw [show (s.setRemote i data).remote ⟨ds,w'.getObjectId⟩ = s.remote ⟨ds,w'.getObjectId⟩ from
    update_of_ne hne ..]
  exact hx

theorem Inv.fetch (h : Inv s) (ht : (s.threads t).holds = some w.getObjectId) (ds : ℕ) :
    Inv ((s.fetch ⟨ds,w.getObjectId⟩).setThread t (.installing p w s.next)) := by
  let i : Ident := ⟨ds,w.getObjectId⟩
  have hother : ∀ b, b ≠ s.next → (s.fetch i).obj b = s.obj b := fun b hb => update_of_ne hb ..
  have hnew : (s.fetch i).obj s.next = some ⟨i,s.remote i⟩ := update_self ..
  have hold : ∀ {b y}, s.obj b = some y → (s.fetch i).obj b = some y := by
    intro b y hy
    rw [hother b (Nat.ne_of_lt (h.bound b y hy)),hy]
  have hdenotes : ∀ q, denotes (s.fetch i) q = denotes s q :=
    denotes_of_objs rfl h.present fun b y hy => ⟨y,hold hy,rfl⟩
  have hfresh : ∀ {b y}, s.obj b = some y → b ≠ s.next := fun hy => Nat.ne_of_lt (h.bound _ _ hy)
  refine ⟨?_,?_,?_,?_,?_,?_,?_⟩
  · intro q r j hq hr
    exact h.unique q r j ((hdenotes q).symm.trans hq) ((hdenotes r).symm.trans hr)
  · intro b y hy
    change b < s.next+1
    by_cases hb : b = s.next
    · omega
    · have := h.bound b y ((hother b hb).symm.trans hy)
      omega
  · intro q b d hq
    obtain ⟨y,hy⟩ := h.present q b d hq
    exact ⟨y,hold hy⟩
  · intro t' id' ht'
    change (update s.threads t _ t').holds = some id' at ht'
    by_cases hne : t' = t
    · subst hne
      rw [update_self] at ht'
      exact h.holds t' id' (ht.trans ht')
    · rw [update_of_ne hne] at ht'
      exact h.holds t' id' ht'
  · intro t' p' w' b ht'
    rcases setThread_iff.mp ht' with ⟨rfl,hx⟩ | ⟨hne,hs⟩
    · cases hx
      refine ⟨⟨ds,hnew⟩,?_,?_⟩
      · intro q d hq
        obtain ⟨y,hy⟩ := h.present q s.next d hq
        exact hfresh hy rfl
      · intro t'' p'' w'' ht''
        rcases setThread_iff.mp ht'' with ⟨heq,-⟩ | ⟨-,hs⟩
        · exact heq
        · obtain ⟨⟨ds',hy⟩,-⟩ := h.ready t'' p'' w'' _ hs
          exact absurd rfl (hfresh hy)
    · obtain ⟨⟨ds',hy⟩,hword,honly⟩ := h.ready t' p' w' b hs
      refine ⟨⟨ds',hold hy⟩,hword,?_⟩
      intro t'' p'' w'' ht''
      rcases setThread_iff.mp ht'' with ⟨-,hx⟩ | ⟨-,hs'⟩
      · cases hx
        exact absurd rfl (hfresh hy)
      · exact honly t'' p'' w'' hs'
  · intro t' act b d ht'
    rcases setThread_iff.mp ht' with ⟨-,hx⟩ | ⟨-,hs⟩
    · cases hx
    · obtain ⟨y,hy⟩ := h.acting t' act b d hs
      exact ⟨y,hold hy⟩
  · intro t' act b d id' ht'
    rcases setThread_iff.mp ht' with ⟨-,hx⟩ | ⟨-,hs⟩
    · cases hx
    · obtain ⟨y,hy,hid⟩ := h.locked t' act b d id' hs
      exact ⟨y,hold hy,hid⟩

end Steps

theorem Plain.idle (s : State) : Plain s .idle := ⟨nofun,nofun,nofun⟩

section Commit
variable {s s' : State} {t p id : ℕ} {act : Act} {w : Word}

/-- Starting an operation of the owner, or starting it anew. -/
theorem Inv.plain_acting (h : Inv s) (act : Act) (p : ℕ) : Plain s (.acting act (s.word p)) := by
  refine ⟨nofun,?_,nofun⟩
  intro act' a d hx
  rw [Thread.acting.injEq] at hx
  exact h.present p a d hx.2

theorem Inv.nullify (h : Inv s) (p : ℕ) : Inv (s.setWord p .null) := by
  refine h.setWord (h.unique.setWord ?_) nofun fun _ _ _ _ _ _ => nofun
  intro i hi
  rw [denotes_setWord,if_pos rfl] at hi
  cases hi

theorem Inv.move (h : Inv s) (p q : ℕ) : Inv ((s.setWord q (s.word p)).setWord p .null) := by
  by_cases hqp : q = p
  · subst hqp
    have heq : (s.setWord q (s.word q)).setWord q .null = s.setWord q .null := by simp [State.setWord]
    rw [heq]
    exact h.nullify q
  · have heq : (s.setWord q (s.word p)).setWord p .null = (s.setWord p .null).setWord q (s.word p) := by
      unfold State.setWord
      rw [update_comm hqp]
    have hunique := h.unique.move (p := p) q
    rw [heq] at hunique ⊢
    refine (h.nullify p).setWord hunique (fun a d hw => h.present p a d hw) fun t' p' w' a d ht' => ?_
    obtain ⟨-,hword,-⟩ := h.ready t' p' w' a ht'
    exact hword p d

theorem Inv.evict (h : Inv s) {a : ℕ} {d : Bool} {x : Obj} (hp : s.word p = .present a d) (hx : s.obj a = some x) :
    Inv (s.setWord p (.absent x.ident)) := by
  refine h.setWord (h.unique.setWord ?_) nofun fun _ _ _ _ _ _ => nofun
  intro i hi
  rw [denotes_setWord,if_pos rfl] at hi
  simp only [denotes,hp,hx,Option.map_some]
  exact hi

theorem Inv.commit (h : Inv s) (ht : s.threads t = .committing act w id) (hc : commit s t act w id = some s') :
    Inv s' := by
  have hheld : (s.threads t).holds = some id := by
    rw [ht]
    rfl
  have hidle : Inv ((s.release id).setThread t .idle) := h.release (.idle s) hheld rfl
  unfold SwapInInstalls.commit at hc
  cases act with
  | move p q =>
    simp only at hc
    split at hc <;> cases hc
    · exact hidle.move p q
    · exact h.release (h.plain_acting _ p) hheld rfl
  | free p =>
    cases hc
    exact hidle.nullify p
  | evacuate p =>
    simp only at hc
    split at hc
    · rename_i hword
      cases w with
      | null => cases hc
      | absent i => cases hc
      | present a d =>
        obtain ⟨x,hx,hid⟩ := h.locked t _ a d id ht
        simp only [hx] at hc
        cases d with
        | false =>
          cases hc
          exact hidle.evict hword hx
        | true =>
          cases hc
          -- a thread that is about to install has the lock of another id
          have hremote : Inv (((s.release id).setThread t .idle).setRemote x.ident x.data) := by
            refine hidle.setRemote _ fun t' p' w' a' ht' hsame => ?_
            rcases setThread_iff.mp ht' with ⟨-,hbad⟩ | ⟨hne,hs⟩
            · cases hbad
            · have hs' : s.threads t' = .installing p' w' a' := hs
              have hlock := h.holds t' w'.getObjectId (by rw [hs']; rfl)
              rw [hsame,hid,h.holds t id hheld,Option.some.injEq] at hlock
              exact hne hlock.symm
          exact hremote.evict hword hx
    · split at hc <;> cases hc
      · exact h.release (h.plain_acting _ p) hheld rfl
      · exact hidle

end Commit

section Machine
variable {s s' : State} {t : ℕ} {op : Op}

theorem Inv.install {p a : ℕ} {w : Word} (h : Inv s) (ht : s.threads t = .installing p w a)
    (hstill : StillDenotes s p w a) :
    Inv ((s.setWord p (.present a false)).setThread t (.unlocking w.getObjectId)) ∧ RightCopy s p a := by
  obtain ⟨⟨ds,hobj⟩,hword,honly⟩ := h.ready t p w a ht
  obtain ⟨i,hp,hi⟩ : ∃ i, s.word p = .absent i ∧ i = ⟨ds,w.getObjectId⟩ := by
    unfold StillDenotes at hstill
    rw [hobj] at hstill
    cases hp : s.word p with
    | null => simp [hp] at hstill
    | present b d => simp [hp] at hstill
    | absent i =>
      simp only [hp] at hstill
      refine ⟨i,rfl,?_⟩
      cases i
      simp only [Ident.mk.injEq]
      exact ⟨hstill.2,hstill.1⟩
  subst hi
  have hplain : Plain s (.unlocking w.getObjectId) := ⟨nofun,nofun,nofun⟩
  have hgone : Inv (s.setThread t (.unlocking w.getObjectId)) := by
    refine h.stay hplain (.inr ?_)
    rw [ht]
    rfl
  refine ⟨hgone.setWord (hgone.unique.setWord ?_) ?_ ?_,⟨_,hp,hobj⟩⟩
  · intro j hj
    rw [denotes_setWord,if_pos rfl] at hj
    change (s.obj a).map Obj.ident = some j at hj
    rw [hobj] at hj
    change denotes s p = some j
    simp only [denotes,hp]
    exact hj
  · intro b d hb
    cases hb
    exact ⟨_,hobj⟩
  · intro t' p' w' b d ht' hb
    cases hb
    rcases setThread_iff.mp ht' with ⟨-,hbad⟩ | ⟨hne,hs⟩
    · cases hbad
    · exact hne (honly t' p' w' hs)

theorem Inv.run (h : Inv s) (hok : Denoting s (.run t)) (hr : run s t = some s') : Inv s' := by
  unfold SwapInInstalls.run at hr
  simp only [Denoting] at hok
  cases ht : s.threads t with
  | idle => simp [ht] at hr
  | waiting p w =>
    simp only [ht] at hr
    split at hr <;> cases hr
    exact h.acquire ⟨nofun,nofun,nofun⟩ ‹_› rfl
  | locked p w =>
    simp only [ht] at hr
    split at hr <;> cases hr <;> exact h.stay ⟨nofun,nofun,nofun⟩ (.inr (by rw [ht]; rfl))
  | fetching p w =>
    simp only [ht] at hr
    split at hr <;> cases hr
    exact h.fetch (by rw [ht]; rfl) _
  | installing p w a =>
    simp only [ht] at hr hok
    cases hr
    exact (h.install ht hok).1
  | unlocking id =>
    simp only [ht] at hr
    cases hr
    exact h.release (.idle s) (by rw [ht]; rfl) rfl
  | acting act w =>
    simp only [ht] at hr
    split at hr <;> cases hr
    refine h.acquire ⟨nofun,nofun,?_⟩ ‹_› rfl
    intro act' a d id hx
    cases hx
    obtain ⟨y,hy⟩ := h.acting t act a d ht
    exact ⟨y,hy,by simp only [State.lockId,hy]⟩
  | committing act w id =>
    simp only [ht] at hr
    exact h.commit ht hr

theorem Inv.step (h : Inv s) (hok : Denoting s op) (hs : step s op = some ((),s')) : Inv s' := by
  cases op with
  | swapIn t p =>
    obtain ⟨-,hs⟩ := Option.ite_none_right_eq_some.mp hs
    cases hs
    split
    · exact h
    · exact h.stay ⟨nofun,nofun,nofun⟩ (.inl rfl)
  | act t act =>
    obtain ⟨-,hs⟩ := Option.ite_none_right_eq_some.mp hs
    cases act with
    | move p q =>
      cases hs
      exact h.stay (h.plain_acting _ p) (.inl rfl)
    | evacuate p | free p =>
      cases hs
      split
      · exact h.stay (h.plain_acting _ p) (.inl rfl)
      · exact h
  | write p data =>
    simp only [SwapInInstalls.step] at hs
    split at hs
    swap
    · cases hs
    rename_i a d hp
    cases hs
    have hdata := h.setData hp data
    refine hdata.setWord (hdata.unique.setWord ?_) ?_ ?_
    · intro i hi
      rw [denotes_setWord,if_pos rfl] at hi
      simp only [denotes]
      rw [show (s.setData a data).word p = .present a d from hp]
      exact hi
    · intro b d' hb
      cases hb
      exact hdata.present p a d hp
    · intro t' p' w' b d' ht' hb
      cases hb
      obtain ⟨-,hword,-⟩ := hdata.ready t' p' w' a ht'
      exact hword p d hp
  | run t =>
    obtain ⟨s₁,hr,⟨⟩⟩ := Option.map_eq_some_iff.mp hs
    exact h.run hok hr

end Machine

/-- In every run from a quiet state in which each installation finds its pointer absent with the id of
the snapshot, no two pointers own one remote object; and an installation is right, and leaves it so,
exactly if it finds its pointer so. -/
theorem swap_in_installs_iff {init s : State} {tr : List (Op × Unit)} (hinit : Quiet init)
    (h : Trace step Denoting init tr s) :
    Unique s ∧ ∀ t p w a s', s.threads t = .installing p w a → step s (.run t) = some ((),s') →
      (RightCopy s p a ∧ Unique s' ↔ StillDenotes s p w a) := by
  have hinv : Inv s := h.invariant hinit.inv fun _ _ _ _ hok hI hs => hI.step hok hs
  refine ⟨hinv.unique,?_⟩
  intro t p w a s' ht hs
  constructor
  · rintro ⟨⟨i,hp,hobj⟩,-⟩
    obtain ⟨⟨ds,hobj'⟩,-⟩ := hinv.ready t p w a ht
    rw [hobj,Option.some.injEq,Obj.mk.injEq] at hobj'
    simp only [StillDenotes,hp,hobj,hobj'.1,and_self]
  · intro hstill
    obtain ⟨hinv',hright⟩ := hinv.install ht hstill
    refine ⟨hright,?_⟩
    simp only [step,run,ht,Option.map_some,Option.some.injEq,Prod.mk.injEq,true_and] at hs
    subst hs
    exact hinv'.unique

/-- Pointer 0 owns object 5, which is remote; the other pointers are null. -/
def oneObject : State where
  word := fun p => if p = 0 then .absent ⟨0,5⟩ else .null
  obj := fun _ => none
  next := 0
  remote := fun _ => [1,2]
  lock := fun _ => none
  threads := fun _ => .idle

theorem oneObject_quiet : Quiet oneObject := by
  have hword : ∀ p, oneObject.word p = if p = 0 then .absent ⟨0,5⟩ else .null := fun _ => rfl
  refine ⟨?_,nofun,?_,fun _ => rfl⟩
  · intro p q i hp hq
    have hzero : ∀ r, denotes oneObject r = some i → r = 0 := by
      intro r hr
      by_contra hne
      simp [denotes,hword,hne] at hr
    rw [hzero p hp,hzero q hq]
  · intro p a d hp
    rw [hword] at hp
    split at hp <;> cases hp

instance (s : State) (p : ℕ) (w : Word) (a : ℕ) : Decidable (StillDenotes s p w a) := by
  unfold StillDenotes
  cases s.word p <;> cases s.obj a <;> infer_instance

instance (s : State) (op : Op) : Decidable (Denoting s op) := by
  cases op with
  | run t =>
    unfold Denoting
    dsimp only
    cases s.threads t <;> infer_instance
  | _ => exact inferInstanceAs (Decidable True)

theorem swap_in_installs_iff_alone : ∃ tr s s', Trace step Denoting oneObject tr s ∧
    s.threads 1 = .installing 0 (.absent ⟨0,5⟩) 0 ∧ step s (.run 1) = some ((),s') ∧ RightCopy s 0 0 ∧ Unique s' := by
  have hrun : (exec step Denoting oneObject [.swapIn 1 0,.run 1,.run 1,.run 1]).map
      (fun r => (r.2.threads 1,(step r.2 (.run 1)).isSome,decide (StillDenotes r.2 0 (.absent ⟨0,5⟩) 0))) =
      some (.installing 0 (.absent ⟨0,5⟩) 0,true,true) := by decide +kernel
  obtain ⟨outs,s,htr,hobs⟩ := exec_observe hrun
  simp only [Prod.mk.injEq,Option.isSome_iff_exists] at hobs
  obtain ⟨ht,⟨⟨u,s'⟩,hs⟩,hstill⟩ := hobs
  exact ⟨_,s,s',htr,ht,hs,((swap_in_installs_iff oneObject_quiet htr).2 1 0 _ 0 s' ht hs).mpr
    (of_decide_eq_true hstill)⟩

/-- The pointer is moved away between the snapshot of a `swap_in` and its lock: the `swap_in` makes the
null pointer present, and two pointers own the object. -/
theorem swap_in_revives_moved_pointer : ∃ tr s s', Trace step (fun _ _ => True) oneObject tr s ∧
    s.threads 1 = .installing 0 (.absent ⟨0,5⟩) 0 ∧ s.word 0 = .null ∧ step s (.run 1) = some ((),s') ∧
    s'.word 0 = .present 0 false ∧ denotes s' 0 = some ⟨0,5⟩ ∧ denotes s' 1 = some ⟨0,5⟩ := by
  have hrun : (exec step (fun _ _ => True) oneObject
      [.swapIn 1 0,.act 2 (.move 0 1),.run 2,.run 2,.run 1,.run 1,.run 1]).map
      (fun r => (r.2.threads 1,r.2.word 0,(run r.2 1).map fun s' => decide (s'.word 0 = .present 0 false ∧
        denotes s' 0 = some ⟨0,5⟩ ∧ denotes s' 1 = some ⟨0,5⟩))) =
      some (.installing 0 (.absent ⟨0,5⟩) 0,.null,some true) := by decide +kernel
  obtain ⟨outs,s,htr,hobs⟩ := exec_observe hrun
  simp only [Prod.mk.injEq] at hobs
  obtain ⟨ht,hword,hafter⟩ := hobs
  obtain ⟨s',hr,hall⟩ := Option.map_eq_some_iff.mp hafter
  exact ⟨_,s,s',htr,ht,hword,by simp only [step,hr,Option.map_some],of_decide_eq_true hall⟩

end FarMemory.SwapInInstalls
