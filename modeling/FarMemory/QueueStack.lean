import FarMemory.ListRefinement

/-!
# Queues and stacks

Both are lists with the customized split: a push at a full chunk opens a new one. The
queue pops from the front, the stack from the back. For resident chunks they do what
the first-in first-out and last-in first-out sequences do.
-/
namespace FarMemory.ChunkedList
open DoublyLinked

inductive Op (T : Type)
  | push (x : T)
  | pop
  deriving DecidableEq, Repr

namespace Queue
variable {σ T : Type} (A : Access σ T) (cfg : Config)

def config (itemSize prefetchNumNodes : ℕ) (junk : Node ChunkNodePtr) : Config :=
  .ofList itemSize false true prefetchNumNodes junk

def empty (q : GenericList σ) : Bool := GenericList.empty q

def size (q : GenericList σ) : ℕ := GenericList.size q

/-- `cfront` and, for writing, `front`. -/
def front (isMut : Bool) (q : GenericList σ) : Option T × GenericList σ := q.peek A false isMut

/-- `cback` and, for writing, `back`. -/
def back (isMut : Bool) (q : GenericList σ) : Option T × GenericList σ := q.peek A true isMut

def push (x : T) (q : GenericList σ) : GenericList σ := GenericList.push A cfg true x q

def pop (q : GenericList σ) : GenericList σ := GenericList.pop A cfg false q

def step (q : GenericList σ) : Op T → GenericList σ
  | .push x => push A cfg x q
  | .pop => pop A cfg q

def run (store : σ) (ops : List (Op T)) : GenericList σ := ops.foldl (step A cfg) (.new A cfg store)

end Queue

namespace Stack
variable {σ T : Type} (A : Access σ T) (cfg : Config)

def config (itemSize prefetchNumNodes : ℕ) (junk : Node ChunkNodePtr) : Config :=
  .ofList itemSize false true prefetchNumNodes junk

def empty (s : GenericList σ) : Bool := GenericList.empty s

def size (s : GenericList σ) : ℕ := GenericList.size s

/-- `ctop` and, for writing, `top`. -/
def top (isMut : Bool) (s : GenericList σ) : Option T × GenericList σ := s.peek A true isMut

def push (x : T) (s : GenericList σ) : GenericList σ := GenericList.push A cfg true x s

def pop (s : GenericList σ) : GenericList σ := GenericList.pop A cfg true s

def step (s : GenericList σ) : Op T → GenericList σ
  | .push x => push A cfg x s
  | .pop => pop A cfg s

def run (store : σ) (ops : List (Op T)) : GenericList σ := ops.foldl (step A cfg) (.new A cfg store)

end Stack

/-! ### The abstract queue and stack -/

def fifo {T : Type} (l : List T) : Op T → Option (List T)
  | .push x => some (l++[x])
  | .pop => if l = [] then none else some l.tail

def lifo {T : Type} (l : List T) : Op T → Option (List T)
  | .push x => some (x::l)
  | .pop => if l = [] then none else some l.tail

section
variable {T : Type} {cfg : Config} {rev : Bool} {s : Resident T} {l : List T}

theorem foldl_simulates {S α β : Type} {step : S → β → S} {spec : α → β → Option α} {R : S → α → Prop}
    (hstep : ∀ s a op a', R s a → spec a op = some a' → R (step s op) a') (ops : List β) :
    ∀ s a a', R s a → ops.foldlM spec a = some a' → R (ops.foldl step s) a' := by
  induction ops with
  | nil =>
    intro s a a' h hspec
    obtain rfl : a = a' := Option.some.inj hspec
    exact h
  | cons op ops ih =>
    intro s a a' h hspec
    rw [List.foldlM_cons] at hspec
    obtain ⟨b,hb,hspec⟩ := Option.bind_eq_some_iff.mp hspec
    exact ih _ _ _ (hstep s a op b h hb) hspec

theorem Represents.size_eq (h : Represents cfg rev s l) : s.size = l.length := by
  obtain ⟨front,back,L,h,hitems⟩ := h
  rw [h.size_eq,← List.length_map (itemOf s)]
  exact (congrArg List.length hitems).trans ((List.length_map _).trans (length_orient rev l))

theorem Represents.peek (h : Represents cfg rev s l) (hne : l ≠ []) (isMut : Bool) :
    s.peek (resident T) rev isMut = ((orient rev l).head?,s) := by
  obtain ⟨front,back,L,h,hitems⟩ := h
  obtain ⟨it,hbegin,hp⟩ := h.beginIter
  cases hl : orient rev l with
  | nil =>
    have hlen := length_orient rev l
    rw [hl] at hlen
    exact absurd (List.eq_nil_of_length_eq_zero hlen.symm) hne
  | cons x m =>
    rw [hitems,hl,List.map_cons] at hp
    simp only [GenericList.peek,hbegin,hp.deref]
    rfl

theorem Represents.new (hcfg : cfg.Valid) (store : ℕ → ChunkListData T) (rev : Bool) :
    Represents cfg rev (GenericList.new (resident T) cfg store) [] := by
  obtain ⟨front,back,hinv⟩ := Inv.new hcfg.max store
  have h : Represents cfg false (GenericList.new (resident T) cfg store) [] := ⟨front,back,[],hinv,rfl⟩
  exact h.dir rev

theorem Queue.step_simulates (hcfg : cfg.Valid) {op : Op T} {l' : List T} (h : Represents cfg true s l)
    (hop : fifo l op = some l') : Represents cfg true (Queue.step (resident T) cfg s op) l' := by
  cases op with
  | push x =>
    obtain rfl : l++[x] = l' := Option.some.inj hop
    have := h.push hcfg x
    rwa [show orient true (x::orient true l) = l++[x] by simp [orient]] at this
  | pop =>
    rw [fifo] at hop
    split at hop
    · simp at hop
    · obtain rfl : l.tail = l' := Option.some.inj hop
      exact ((h.dir false).pop hcfg ‹_›).dir true

theorem Stack.step_simulates (hcfg : cfg.Valid) {op : Op T} {l' : List T} (h : Represents cfg true s l.reverse)
    (hop : lifo l op = some l') : Represents cfg true (Stack.step (resident T) cfg s op) l'.reverse := by
  cases op with
  | push x =>
    obtain rfl : x::l = l' := Option.some.inj hop
    have := h.push hcfg x
    rwa [show orient true (x::orient true l.reverse) = (x::l).reverse by simp [orient]] at this
  | pop =>
    rw [lifo] at hop
    split at hop
    · simp at hop
    · obtain rfl : l.tail = l' := Option.some.inj hop
      have := h.pop hcfg (by simpa using ‹¬l = []›)
      rwa [show orient true (orient true l.reverse).tail = l.tail.reverse by simp [orient]] at this

end

end FarMemory.ChunkedList
