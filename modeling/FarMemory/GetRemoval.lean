import FarMemory.TableRepresentation

/-!
# A get that removes, among puts and removes

`get` with `remove` set looks its key up without the lock of the bucket, one access at a time, and
then removes what it has found in a locked section of its own. Here every locked section is one step:
`put`, `remove`, the second lookup of `get` and its removal. The removal looks at the slot and the
timestamp of the bucket, and not at the key.
-/
namespace FarMemory.GetRemoval
open Execution Hopscotch Keys SlabAllocator ServerTable TableRepresentation

/-! ### Timestamps -/

/-- The anchor of the hop that `hop` makes. -/
def anchorOver {ε : Type*} (t : Table ε) (free : ℕ) : List ℕ → Option ℕ
  | [] => none
  | d::ds =>
    match offsets (t.bitmap (free-d)) with
    | [] => anchorOver t free ds
    | o::_ => if free ≤ free-d+o then anchorOver t free ds else some (free-d)

/-- The anchors of all hops of a displacement. -/
def bringAnchors (b : ℕ) : ℕ → Table KVData → ℕ → List ℕ
  | 0,_,_ => []
  | fuel+1,t,free =>
    if free-b < 32 then []
    else
      match hop (fun _ e => e) t free with
      | .moved free' t' => (anchorOver t free (List.range' 1 31).reverse).toList++bringAnchors b fuel t' free'
      | _ => []

/-- The buckets whose timestamp a `put` increments, with repetitions. -/
def bumped (shift : ℕ) (s : ServerTable.State) (k : Key) : List ℕ :=
  match lookup (accepts k) s.table (homeBucket shift k) with
  | .missing =>
    match probe s.table (numEntries shift) (homeBucket shift k) with
    | none => []
    | some f => bringAnchors (homeBucket shift k) (f+1) (s.table.setSlot f .busy) f
  | _ => []

/-! ### The machine -/

inductive Reader
  | idle
  | stamp (k : Key) (remove : Bool) (retries : ℕ)
  | bitmap (k : Key) (remove : Bool) (retries ts : ℕ)
  | scan (k : Key) (remove : Bool) (retries ts : ℕ) (rest : List ℕ)
  | loaded (k : Key) (remove : Bool) (retries ts o : ℕ) (rest : List ℕ) (header : Slot KVData)
  | reading (k : Key) (remove : Bool) (retries ts o : ℕ) (rest : List ℕ) (header : Slot KVData)
  | again (k : Key) (remove : Bool) (retries ts : ℕ)
  | last (k : Key) (remove : Bool) (ts : ℕ)
  | slow (k : Key) (remove : Bool)
  | removing (k : Key) (o ts : ℕ) (val : Bytes)
  deriving DecidableEq

/-- `written` is what was last written to a block; a freed block keeps it. -/
structure State where
  server : ServerTable.State
  timestamp : ℕ → ℕ
  written : ℕ → Option KVData
  readers : ℕ → Reader

def State.new (base len : ℕ) : State := ⟨.new base len,fun _ => 0,fun _ => none,fun _ => .idle⟩

inductive Op
  | put (core : ℕ) (k : Key) (v : Bytes)
  | remove (core : ℕ) (k : Key)
  | get (r : ℕ) (k : Key) (remove : Bool)
  | run (r core : ℕ)
  deriving DecidableEq

inductive Outcome
  | running
  | flag (b : Bool)
  | value (v : Bytes)
  deriving DecidableEq

section Steps
variable (shift : ℕ)

/-- The locked section of a `get` that has found its key at offset `o`. -/
def removal (s : State) (core : ℕ) (k : Key) (o ts : ℕ) : Option ServerTable.State :=
  match s.server.table.slot (homeBucket shift k+o) with
  | .null => some s.server
  | .busy => none
  | .entry e =>
    if ts = s.timestamp (homeBucket shift k) then doRemove s.server core (homeBucket shift k) o e
    else (ServerTable.remove shift s.server core k).map Prod.snd

/-- A match ends the lookup; with `remove` set the removal is still to come. -/
def hit (k : Key) (remove : Bool) (o ts : ℕ) (v : Bytes) : Outcome × Reader :=
  if remove then (.running,.removing k o ts v) else (.value v,.idle)

/-- One access of a `get`. A sentinel that is read through has no result. -/
def Reader.step (s : State) : Reader → Option (Outcome × Reader)
  | .idle => none
  | .stamp k rm n => some (.running,.bitmap k rm n (s.timestamp (homeBucket shift k)))
  | .bitmap k rm n ts => some (.running,.scan k rm n ts (offsets (s.server.table.bitmap (homeBucket shift k))))
  | .scan k rm n ts [] => some (.running,.again k rm n ts)
  | .scan k rm n ts (o::rest) =>
    some (.running,.loaded k rm n ts o rest (s.server.table.slot (homeBucket shift k+o)))
  | .loaded k rm n ts o rest header =>
    if s.server.table.slot (homeBucket shift k+o) = .null then some (.running,.scan k rm n ts rest)
    else some (.running,.reading k rm n ts o rest header)
  | .reading k rm n ts o rest (.entry e) =>
    match s.written e.addr with
    | none => some (.running,.scan k rm n ts rest)
    | some x => if accepts k x then some (hit k rm o ts x.val) else some (.running,.scan k rm n ts rest)
  | .reading _ _ _ _ _ _ _ => none
  | .again k rm n ts =>
    if ts ≠ s.timestamp (homeBucket shift k) ∧ n < kMaxRetries then some (.running,.stamp k rm (n+1))
    else some (.running,.last k rm ts)
  | .last k rm ts =>
    if ts ≠ s.timestamp (homeBucket shift k) then some (.running,.slow k rm) else some (.value [],.idle)
  | .slow k rm =>
    match lookupSkip (accepts k) s.server.table (homeBucket shift k) with
    | none => some (.value [],.idle)
    | some (o,e) => some (hit k rm o (s.timestamp (homeBucket shift k)) e.val)
  | .removing _ _ _ _ => none

def step (s : State) : Op → Option (Outcome × State)
  | .put core k v => (ServerTable.put shift s.server core k v).map fun r =>
    (.flag r.1,{s with
      server := r.2
      timestamp := fun b => s.timestamp b+(bumped shift s.server k).count b
      written := match lookup (accepts k) r.2.table (homeBucket shift k) with
        | .entry _ e => Function.update s.written e.addr (some e)
        | _ => s.written})
  | .remove core k => (ServerTable.remove shift s.server core k).map fun r => (.flag r.1,{s with server := r.2})
  | .get r k remove =>
    if s.readers r = .idle then
      some (.running,{s with readers := Function.update s.readers r (.stamp k remove 0)})
    else none
  | .run r core =>
    match s.readers r with
    | .removing k o ts v => (removal shift s core k o ts).map fun server =>
      (.value v,{s with
        server := server
        readers := Function.update s.readers r .idle})
    | pc => (pc.step shift s).map fun x => (x.1,{s with readers := Function.update s.readers r x.2})

end Steps

/-! ### The removal -/

def Stores (s : ServerTable.State) (k : Key) (v : Bytes) : Prop := ∃ e ∈ held s.table, e.key = k ∧ e.val = v

/-- A bit is set exactly for an entry of its bucket. -/
def BitsExact (shift : ℕ) (t : Table KVData) : Prop :=
  ∀ b o, t.bit b o = true ↔ ∃ e, t.slot (b+o) = .entry e ∧ homeBucket shift e.key = b

/-- At most the entry of `k` is gone, and the bitmaps are right. -/
def OnlyOwn (shift : ℕ) (k : Key) (s s' : ServerTable.State) : Prop :=
  (∀ k' v, k' ≠ k → (Stores s' k' v ↔ Stores s k' v)) ∧ BitsExact shift s'.table

/-- The slot of the lookup is empty again; or it holds `k`, with the timestamp as it was; or the
timestamp has changed and a lookup under the lock finds `k` or nothing. -/
def Owns (shift : ℕ) (s : State) (k : Key) (o ts : ℕ) : Prop :=
  match s.server.table.slot (homeBucket shift k+o) with
  | .null => True
  | .busy => False
  | .entry e =>
    if ts = s.timestamp (homeBucket shift k) then e.key = k
    else ∀ o' e', lookup (accepts k) s.server.table (homeBucket shift k) = .entry o' e' → e'.key = k

def OwnsAt (shift : ℕ) (s : State) : Op → Prop
  | .run r _ =>
    match s.readers r with
    | .removing k o ts _ => Owns shift s k o ts
    | _ => True
  | _ => True

section Removal
variable {shift core o ts : ℕ} {s : State} {srv srv' : ServerTable.State} {k : Key} {e : KVData}

theorem stores_erased (h : Represented shift srv) (he : e ∈ held srv.table)
    (hheld : held srv'.table = held srv.table \ {e}) (k' : Key) (v : Bytes) :
    Stores srv' k' v ↔ k' ≠ e.key ∧ Stores srv k' v := by
  constructor
  · rintro ⟨x,hx,rfl,rfl⟩
    rw [hheld] at hx
    refine ⟨fun hk => hx.2 (eq_of_class h.wf he hx.1 (by rw [hk])),x,hx.1,rfl,rfl⟩
  · rintro ⟨hne,x,hx,rfl,rfl⟩
    refine ⟨x,?_,rfl,rfl⟩
    rw [hheld]
    refine ⟨hx,?_⟩
    rintro rfl
    exact hne rfl

/-- A removal of `e` for `k` is right exactly if `e` is the entry of `k`. -/
theorem doRemove_own_iff {b : ℕ} (h : Represented shift srv) (hb : homeBucket shift k = b)
    (he : srv.table.slot (b+o) = .entry e) (hr : doRemove srv core b o e = some srv') :
    (OnlyOwn shift k srv srv' ↔ e.key = k) ∧ (e.key = k → Represented shift srv') := by
  have hmem : e ∈ held srv.table := ⟨_,he⟩
  obtain ⟨slab,hf,rfl⟩ := Option.map_eq_some_iff.mp hr
  have hstores := @stores_erased _ _ ⟨(srv.table.setSlot (b+o) .null).flipBit b o,slab⟩ _ h hmem (held_erased h.wf he)
  have hrep : e.key = k → Represented shift ⟨(srv.table.setSlot (b+o) .null).flipBit b o,slab⟩ := by
    rintro rfl
    have hbit := (h.bit_iff b o).mpr ⟨e,he,hb⟩
    exact (Consistent.doRemove h hbit hb he hr).1
  refine ⟨⟨fun hown => ?_,fun hk => ⟨fun k' v hne => ?_,(hrep hk).bit_iff⟩⟩,hrep⟩
  · by_contra hne
    have hgone := (hstores e.key e.val).mp ((hown.1 e.key e.val hne).mpr ⟨e,hmem,rfl,rfl⟩)
    exact hgone.1 rfl
  · rw [hstores,and_iff_right]
    rw [hk]
    exact hne

theorem OnlyOwn.refl (h : Represented shift srv) (k : Key) : OnlyOwn shift k srv srv :=
  ⟨fun _ _ _ => Iff.rfl,h.bit_iff⟩

theorem remove_own_iff {r : Bool × ServerTable.State} (h : Represented shift srv)
    (hr : ServerTable.remove shift srv core k = some r) :
    OnlyOwn shift k srv r.2 ↔ ∀ o e, lookup (accepts k) srv.table (homeBucket shift k) = .entry o e → e.key = k := by
  rw [ServerTable.remove] at hr
  cases hl : lookup (accepts k) srv.table (homeBucket shift k) with
  | hole o => exact absurd hl (h.wf.not_hole o)
  | missing =>
    simp only [hl] at hr
    cases hr
    exact ⟨fun _ _ _ hentry => (by cases hentry),fun _ => OnlyOwn.refl h k⟩
  | entry o e =>
    simp only [hl,Option.map_eq_some_iff] at hr
    obtain ⟨s1,hs,rfl⟩ := hr
    obtain ⟨-,he,-⟩ := h.of_entry hl
    rw [(doRemove_own_iff h rfl he hs).1]
    constructor
    · rintro hk o' e' heq
      cases heq
      exact hk
    · intro hall
      exact hall o e rfl

/-- The removal of a `get` is right exactly if what it meets is its own. -/
theorem removal_own_iff (h : Represented shift s.server) (hr : removal shift s core k o ts = some srv') :
    (OnlyOwn shift k s.server srv' ↔ Owns shift s k o ts) ∧ (Owns shift s k o ts → Represented shift srv') := by
  unfold removal at hr
  unfold Owns
  cases he : s.server.table.slot (homeBucket shift k+o) with
  | null =>
    simp only [he] at hr
    cases hr
    exact ⟨⟨fun _ => trivial,fun _ => OnlyOwn.refl h k⟩,fun _ => h⟩
  | busy => simp [he] at hr
  | entry e =>
    simp only [he] at hr ⊢
    by_cases hts : ts = s.timestamp (homeBucket shift k)
    · rw [if_pos hts] at hr
      simp only [if_pos hts]
      exact doRemove_own_iff h rfl he hr
    · rw [if_neg hts] at hr
      simp only [if_neg hts]
      obtain ⟨r,hrem,rfl⟩ := Option.map_eq_some_iff.mp hr
      exact ⟨remove_own_iff h hrem,fun _ => h.remove hrem⟩

end Removal

/-! ### Runs -/

section Runs
variable {shift base len : ℕ} {s s' : State} {tr : List (Op × Outcome)} {op : Op} {out : Outcome}

theorem represented_step (h : Represented shift s.server) (hok : OwnsAt shift s op)
    (hs : step shift s op = some (out,s')) : Represented shift s'.server := by
  cases op with
  | put core k v =>
    obtain ⟨⟨b,srv⟩,hp,⟨⟩⟩ := Option.map_eq_some_iff.mp hs
    exact (h.put hp).1
  | remove core k =>
    obtain ⟨⟨b,srv⟩,hp,⟨⟩⟩ := Option.map_eq_some_iff.mp hs
    exact h.remove hp
  | get r k remove =>
    simp only [step] at hs
    split at hs <;> cases hs
    exact h
  | run r core =>
    simp only [step] at hs
    simp only [OwnsAt] at hok
    split at hs
    · rename_i k o ts v hpc
      rw [hpc] at hok
      obtain ⟨srv,hr,⟨⟩⟩ := Option.map_eq_some_iff.mp hs
      exact (removal_own_iff h hr).2 hok
    · obtain ⟨x,-,⟨⟩⟩ := Option.map_eq_some_iff.mp hs
      exact h

theorem represented_of_run (h : Trace (step shift) (OwnsAt shift) (.new base len) tr s) :
    Represented shift s.server :=
  h.invariant (I := fun s => Represented shift s.server) (Consistent.new base len)
    fun _ _ _ _ hok hI hs => represented_step hI hok hs

/-- In every run whose removals all meet their own key, the bitmaps are right, and the next removal
keeps them so and leaves every other key alone exactly if it meets its own key too. -/
theorem get_removes_own_iff (h : Trace (step shift) (OwnsAt shift) (.new base len) tr s) :
    BitsExact shift s.server.table ∧ ∀ r core k o ts v out s', s.readers r = .removing k o ts v →
      step shift s (.run r core) = some (out,s') →
      (OnlyOwn shift k s.server s'.server ↔ Owns shift s k o ts) := by
  have hrep := represented_of_run h
  refine ⟨hrep.bit_iff,?_⟩
  intro r core k o ts v out s' hpc hs
  simp only [step,hpc] at hs
  obtain ⟨srv,hr,⟨⟩⟩ := Option.map_eq_some_iff.mp hs
  exact (removal_own_iff hrep hr).1

end Runs

instance (shift : ℕ) (s : State) (k : Key) (o ts : ℕ) : Decidable (Owns shift s k o ts) := by
  unfold Owns
  cases s.server.table.slot (homeBucket shift k+o) with
  | null => exact inferInstanceAs (Decidable True)
  | busy => exact inferInstanceAs (Decidable False)
  | entry e =>
    dsimp only
    cases lookup (accepts k) s.server.table (homeBucket shift k) with
    | entry o' e' =>
      refine decidable_of_iff (if ts = s.timestamp (homeBucket shift k) then e.key = k else e'.key = k) ?_
      split
      · exact Iff.rfl
      · exact ⟨fun h _ _ heq => by cases heq; exact h,fun h => h o' e' rfl⟩
    | _ =>
      refine decidable_of_iff (if ts = s.timestamp (homeBucket shift k) then e.key = k else True) ?_
      split
      · exact Iff.rfl
      · exact ⟨fun _ => nofun,fun _ => trivial⟩

instance (shift : ℕ) (s : State) (op : Op) : Decidable (OwnsAt shift s op) := by
  cases op with
  | run r core =>
    unfold OwnsAt
    dsimp only
    cases s.readers r with
    | removing k o ts v => exact inferInstanceAs (Decidable (Owns shift s k o ts))
    | _ => exact inferInstanceAs (Decidable True)
  | _ => exact inferInstanceAs (Decidable True)

/-- A `get` of the only key, up to its removal. -/
def getToRemoval : List Op := [.put 0 (plainKey 1) [5],.get 0 (plainKey 1) true]++List.replicate 5 (.run 0 0)

theorem get_removes_own_iff_alone : ∃ tr s s', Trace (step 0) (OwnsAt 0) (.new 4096 65536) tr s ∧
    s.readers 0 = .removing (plainKey 1) 0 0 [5] ∧ step 0 s (.run 0 0) = some (.value [5],s') ∧
    OnlyOwn 0 (plainKey 1) s.server s'.server := by
  have hrun : (exec (step 0) (OwnsAt 0) (.new 4096 65536) getToRemoval).map
      (fun r => (r.2.readers 0,(step 0 r.2 (.run 0 0)).map Prod.fst,decide (Owns 0 r.2 (plainKey 1) 0 0))) =
      some (.removing (plainKey 1) 0 0 [5],some (.value [5]),true) := by decide +kernel
  obtain ⟨outs,s,ht,hobs⟩ := exec_observe hrun
  simp only [Prod.mk.injEq,Option.map_eq_some_iff] at hobs
  obtain ⟨hpc,⟨⟨out,s'⟩,hs,hout⟩,howns⟩ := hobs
  cases hout
  exact ⟨_,s,s',ht,hpc,hs,((get_removes_own_iff ht).2 0 0 _ _ _ _ _ _ hpc hs).mpr (of_decide_eq_true howns)⟩

/-- Between the lookup and the removal the key is removed and its slot filled with another key, which
the removal then takes away. -/
theorem get_removes_other_key : ∃ tr s s', Trace (step 0) (fun _ _ => True) (.new 4096 65536) tr s ∧
    s.readers 0 = .removing (plainKey 1) 0 0 [5] ∧ step 0 s (.run 0 0) = some (.value [5],s') ∧
    (ServerTable.get 0 s.server 0 (plainKey 2) false).map Prod.fst = some [6] ∧
    (ServerTable.get 0 s'.server 0 (plainKey 2) false).map Prod.fst = some [] := by
  have hrun : (exec (step 0) (fun _ _ => True) (.new 4096 65536)
      (getToRemoval++[.remove 0 (plainKey 1),.put 0 (plainKey 2) [6]])).map
        (fun r => (r.2.readers 0,(ServerTable.get 0 r.2.server 0 (plainKey 2) false).map Prod.fst,
          (step 0 r.2 (.run 0 0)).map fun x =>
            (x.1,(ServerTable.get 0 x.2.server 0 (plainKey 2) false).map Prod.fst))) =
      some (.removing (plainKey 1) 0 0 [5],some [6],some (.value [5],some [])) := by decide +kernel
  obtain ⟨outs,s,ht,hobs⟩ := exec_observe hrun
  simp only [Prod.mk.injEq] at hobs
  obtain ⟨hpc,hbefore,hstep⟩ := hobs
  obtain ⟨⟨out,s'⟩,hs,heq⟩ := Option.map_eq_some_iff.mp hstep
  rw [Prod.mk.injEq] at heq
  obtain ⟨rfl,hafter⟩ := heq
  exact ⟨_,s,s',ht,hpc,hs,hbefore,hafter⟩

end FarMemory.GetRemoval
