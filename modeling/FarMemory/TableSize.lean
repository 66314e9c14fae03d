import FarMemory.ClientRefinement
import FarMemory.Machine

/-!
# Counting the keys of the far-memory table

`ConcurrentHopscotch<K,V>` counts its keys in one signed counter for each core. An
insertion adds one if `_put` reports a new key and an erasure subtracts one if
`_remove` reports a key, so a counter may become negative and only their sum means
anything. The counters are integers here: 64 bits do not overflow. An inserted entry takes at
most 65528 bytes.
-/
namespace FarMemory.TableSize
open Execution Hopscotch Keys
open ServerTable (Cells)
open ClientTable (Refines ClearFor Holds)

instance : NeZero kNumCPUs := ⟨by decide⟩

structure State where
  table : ClientTable.State
  perCoreSize : Fin kNumCPUs → ℤ

def State.new (base len : ℕ) : State := ⟨.new base len,fun _ => 0⟩

def State.bump (s : State) (cpu : Fin kNumCPUs) (x : ℤ) : Fin kNumCPUs → ℤ :=
  Function.update s.perCoreSize cpu (s.perCoreSize cpu+x)

def size (s : State) : ℤ := ∑ i, s.perCoreSize i

section Operations
variable (shift remoteShift : ℕ)

def insert (s : State) (cpu : Fin kNumCPUs) (core : ℕ) (k : Key) (v : Bytes) : Option State :=
  (ClientTable.put shift remoteShift s.table core k v).map fun r =>
    ⟨r.2,if r.1 then s.perCoreSize else s.bump cpu 1⟩

def erase (s : State) (cpu : Fin kNumCPUs) (core : ℕ) (k : Key) : Option (Bool × State) :=
  (ClientTable.remove shift remoteShift s.table core k).map fun r =>
    (r.1,⟨r.2,if r.1 then s.bump cpu (-1) else s.perCoreSize⟩)

def find (s : State) (core : ℕ) (k : Key) : Option (Bytes × State) :=
  (ClientTable.get shift remoteShift s.table core k).map fun r => (r.1,{s with table := r.2})

end Operations

inductive Op
  | insert (cpu : Fin kNumCPUs) (core : ℕ) (k : Key) (v : Bytes)
  | erase (cpu : Fin kNumCPUs) (core : ℕ) (k : Key)
  | find (core : ℕ) (k : Key)
  | evict (core i : ℕ)
  deriving DecidableEq

/-- The operation of the untyped table. -/
def Op.base : Op → ClientTable.Op
  | .insert _ core k v => .put core k v
  | .erase _ core k => .remove core k
  | .find core k => .get core k
  | .evict core i => .evict core i

inductive Outcome
  | done
  | erased (b : Bool)
  | found (v : Bytes)
  deriving DecidableEq

def step (shift remoteShift : ℕ) (s : State) : Op → Option (Outcome × State)
  | .insert cpu core k v => (insert shift remoteShift s cpu core k v).map fun s' => (.done,s')
  | .erase cpu core k => (erase shift remoteShift s cpu core k).map fun r => (.erased r.1,r.2)
  | .find core k => (find shift remoteShift s core k).map fun r => (.found r.1,r.2)
  | .evict core i => (ClientTable.evict remoteShift s.table core i).map fun t => (.done,{s with table := t})

def follow (K : Set Key) (a : Op × Outcome) : Set Key :=
  match a.1 with
  | .insert _ _ k _ => Insert.insert k K
  | .erase _ _ k => K \ {k}
  | _ => K

/-- The keys inserted and not erased since. -/
def keys (tr : List (Op × Outcome)) : Set Key := tr.foldl follow ∅

/-- The key is not on the server while it has no local copy. -/
def NotRemoteOnly (shift remoteShift : ℕ) (s : State) (k : Key) : Prop :=
  (ClientTable.localGet s.table.table (homeBucket shift k) k).isSome = true ∨
    lookupSkip (ServerTable.accepts k) s.table.remote.table (homeBucket remoteShift k) = none

instance (shift remoteShift : ℕ) (s : State) (k : Key) : Decidable (NotRemoteOnly shift remoteShift s k) :=
  inferInstanceAs (Decidable (_ ∨ _ = none))

/-- The condition on one operation: it compares no confusable keys, and it does not
insert an entry that is too large or a key that is on the server only. -/
def Counted (shift remoteShift : ℕ) (s : State) (op : Op) : Prop :=
  ClearFor shift remoteShift s.table op.base ∧
    match op with
    | .insert _ _ k v => ClientTable.Fits k v ∧ NotRemoteOnly shift remoteShift s k
    | _ => True

instance (shift remoteShift : ℕ) (s : State) (op : Op) : Decidable (Counted shift remoteShift s op) :=
  match op with
  | .insert _ _ _ _ => inferInstanceAs (Decidable (_ ∧ _ ∧ NotRemoteOnly ..))
  | .erase _ _ _ => inferInstanceAs (Decidable (_ ∧ True))
  | .find _ _ => inferInstanceAs (Decidable (_ ∧ True))
  | .evict _ _ => inferInstanceAs (Decidable (_ ∧ True))

/-- The table refines a map with the given finite domain. -/
structure Domain (shift remoteShift : ℕ) (s : State) (K : Set Key) : Prop where
  refines : ∃ m mr, Refines shift remoteShift s.table m mr ∧ K = {k | m k ≠ none}
  finite : K.Finite

section Counting
variable {shift remoteShift core i : ℕ} {cpu : Fin kNumCPUs} {s s' : State} {K : Set Key} {k : Key} {v : Bytes}

theorem size_bump (x : ℤ) : ∑ i, s.bump cpu x i = size s+x := by
  rw [State.bump,Finset.sum_update_of_mem (Finset.mem_univ cpu),size,← Finset.add_sum_erase _ _ (Finset.mem_univ cpu),
    Finset.sdiff_singleton_eq_erase]
  omega

section
variable (h : Domain shift remoteShift s K)
include h

theorem Domain.insert
    (hc : ClearFor shift remoteShift s.table (.put core k v))
    (hr : insert shift remoteShift s cpu core k v = some s') :
    Domain shift remoteShift s' (Insert.insert k K) ∧
      size s' = size s+(if (ClientTable.localGet s.table.table (homeBucket shift k) k).isSome then 0 else 1) := by
  obtain ⟨⟨m,mr,href,rfl⟩,hfin⟩ := h
  obtain ⟨⟨b,t⟩,hp,rfl⟩ := Option.map_eq_some_iff.mp hr
  obtain ⟨hb,mr',href'⟩ := href.put hc.1 hc.2 hp
  refine ⟨⟨⟨_,mr',href',?_⟩,hfin.insert k⟩,?_⟩
  · ext k'
    by_cases hk : k' = k
    · simp [hk]
    · simp [hk]
  · cases hl : ClientTable.localGet s.table.table (homeBucket shift k) k with
    | some w =>
      obtain ⟨d,hv⟩ := ClientTable.localGet_some href.good hc.1 hl
      have hbt : b = true := hb.mpr ⟨w,d,hv⟩
      subst hbt
      simp [size]
    | none =>
      have habs := ClientTable.localGet_none href.good hl
      have hbf : b = false := by
        rw [← Bool.not_eq_true,hb]
        rintro ⟨w,d,hv⟩
        exact habs w d hv
      subst hbf
      exact size_bump 1

theorem Domain.erase {b : Bool}
    (hc : ClearFor shift remoteShift s.table (.remove core k))
    (hr : erase shift remoteShift s cpu core k = some (b,s')) :
    Domain shift remoteShift s' (K \ {k}) ∧ size s'-(K \ {k}).ncard = size s-K.ncard := by
  obtain ⟨⟨m,mr,href,rfl⟩,hfin⟩ := h
  obtain ⟨⟨b',t⟩,hp,⟨⟩⟩ := Option.map_eq_some_iff.mp hr
  obtain ⟨hb,mr',href'⟩ := href.remove hc.1 hc.2 hp
  refine ⟨⟨⟨_,mr',href',?_⟩,hfin.subset Set.sdiff_subset⟩,?_⟩
  · ext k'
    by_cases hk : k' = k
    · simp [hk]
    · simp [hk]
  · cases hm : m k with
    | none =>
      have hbf : b' = false := by simp [hb,hm]
      subst hbf
      rw [Set.sdiff_singleton_eq_self (by simp [hm])]
      simp [size]
    | some w =>
      have hbt : b' = true := by simp [hb,hm]
      subst hbt
      have hmem : k ∈ {k | m k ≠ none} := by simp [hm]
      have hcard := Set.ncard_sdiff_singleton_add_one hmem hfin
      have hsize : size ⟨t,s.bump cpu (-1)⟩ = size s+-1 := size_bump (-1)
      simp only [if_true] at hsize ⊢
      omega

/-- A key without a local copy is counted once more exactly if the server has it. -/
theorem Domain.localGet_iff
    (hc : ClearFor shift remoteShift s.table (.put core k v)) :
    NotRemoteOnly shift remoteShift s k ↔
      ((ClientTable.localGet s.table.table (homeBucket shift k) k).isSome = true ↔ k ∈ K) := by
  obtain ⟨⟨m,mr,href,rfl⟩,-⟩ := h
  rw [NotRemoteOnly,href.remote.lookupSkip_none hc.2]
  cases hl : ClientTable.localGet s.table.table (homeBucket shift k) k with
  | some w =>
    obtain ⟨d,hv⟩ := ClientTable.localGet_some href.good hc.1 hl
    simp [href.of_holds hv]
  | none =>
    rw [← href.of_absent (ClientTable.localGet_none href.good hl)]
    simp

theorem Domain.insert_exact (hsize : size s = K.ncard)
    (hc : ClearFor shift remoteShift s.table (.put core k v))
    (hr : TableSize.insert shift remoteShift s cpu core k v = some s') :
    size s' = (Insert.insert k K).ncard ↔ NotRemoteOnly shift remoteShift s k := by
  rw [h.localGet_iff hc,(h.insert hc hr).2,hsize]
  by_cases hk : k ∈ K
  · rw [Set.insert_eq_of_mem hk]
    split <;> simp_all
  · rw [Set.ncard_insert_of_notMem hk h.finite]
    split <;> simp_all

theorem Domain.step {op : Op} {out : Outcome}
    (hc : ClearFor shift remoteShift s.table op.base) (hr : step shift remoteShift s op = some (out,s')) :
    Domain shift remoteShift s' (follow K (op,out)) := by
  cases op with
  | insert cpu core k v =>
    obtain ⟨s1,hp,⟨⟩⟩ := Option.map_eq_some_iff.mp hr
    exact (h.insert hc hp).1
  | erase cpu core k =>
    obtain ⟨⟨b,s1⟩,hp,⟨⟩⟩ := Option.map_eq_some_iff.mp hr
    exact (h.erase hc hp).1
  | find core k =>
    obtain ⟨⟨m,mr,href,rfl⟩,hfin⟩ := h
    obtain ⟨⟨w,s1⟩,hp,⟨⟩⟩ := Option.map_eq_some_iff.mp hr
    obtain ⟨⟨w',t⟩,hg,⟨⟩⟩ := Option.map_eq_some_iff.mp hp
    exact ⟨⟨m,mr,(href.get hc.1 hc.2 hg).2,rfl⟩,hfin⟩
  | evict core i =>
    obtain ⟨⟨m,mr,href,rfl⟩,hfin⟩ := h
    obtain ⟨t,hp,⟨⟩⟩ := Option.map_eq_some_iff.mp hr
    obtain ⟨mr',href'⟩ := href.evict hc hp
    exact ⟨⟨m,mr',href',rfl⟩,hfin⟩

theorem size_step {op : Op} {out : Outcome} (hsize : size s = K.ncard)
    (hc : Counted shift remoteShift s op) (hr : TableSize.step shift remoteShift s op = some (out,s')) :
    size s' = (follow K (op,out)).ncard := by
  cases op with
  | insert cpu core k v =>
    obtain ⟨s1,hp,⟨⟩⟩ := Option.map_eq_some_iff.mp hr
    exact (h.insert_exact hsize hc.1 hp).mpr hc.2.2
  | erase cpu core k =>
    obtain ⟨⟨b,s1⟩,hp,⟨⟩⟩ := Option.map_eq_some_iff.mp hr
    have := (h.erase hc.1 hp).2
    change size s1 = (K \ {k}).ncard
    omega
  | find core k =>
    obtain ⟨⟨w,s1⟩,hp,⟨⟩⟩ := Option.map_eq_some_iff.mp hr
    obtain ⟨⟨w',t⟩,hg,⟨⟩⟩ := Option.map_eq_some_iff.mp hp
    exact hsize
  | evict core i =>
    obtain ⟨t,hp,⟨⟩⟩ := Option.map_eq_some_iff.mp hr
    exact hsize

end

end Counting

theorem domain_run {shift remoteShift base len : ℕ} {tr : List (Op × Outcome)} {s : State}
    (h : Trace (step shift remoteShift) (Counted shift remoteShift) (.new base len) tr s) :
    Domain shift remoteShift s (keys tr) ∧ size s = (keys tr).ncard := by
  refine h.simulation (I := fun s K => Domain shift remoteShift s K ∧ size s = K.ncard) ?_ ?_
  · refine ⟨⟨⟨_,_,Refines.new shift remoteShift base len,by simp⟩,Set.finite_empty⟩,?_⟩
    simp [size,State.new]
  · rintro s K op out s' hc ⟨hd,hsize⟩ hs
    exact ⟨hd.step hc.1 hs,size_step hd hsize hc hs⟩

/-- Along every run that inserts no key while it is on the server only and no entry of more than
65528 bytes, and meets no confusable keys, the size is the number of keys. The condition on an insertion is
exact: without it the size is wrong afterwards. -/
theorem size_exact {shift remoteShift base len : ℕ} {tr : List (Op × Outcome)} {s : State}
    (h : Trace (step shift remoteShift) (Counted shift remoteShift) (.new base len) tr s) :
    size s = (keys tr).ncard ∧
      ∀ cpu core k v s', ClearFor shift remoteShift s.table (.put core k v) →
        insert shift remoteShift s cpu core k v = some s' →
        (size s' = (Insert.insert k (keys tr)).ncard ↔ NotRemoteOnly shift remoteShift s k) := by
  obtain ⟨hd,hsize⟩ := domain_run h
  exact ⟨hsize,fun cpu core k v s' hc hr => hd.insert_exact hsize hc hr⟩

theorem size_exact_erased : ∃ tr s,
    Trace (step 0 0) (Counted 0 0) (.new 4096 65536) tr s ∧ keys tr = {ServerTable.plainKey 2} ∧ size s = 1 := by
  have hrun : (exec (step 0 0) (Counted 0 0) (.new 4096 65536)
      [.insert 0 0 (ServerTable.plainKey 1) [5],.insert 1 0 (ServerTable.plainKey 2) [6],.evict 0 0,
        .erase 2 0 (ServerTable.plainKey 1)]).map (fun r => r.1) =
      some [.done,.done,.done,.erased true] := by decide +kernel
  obtain ⟨outs,s,ht,rfl⟩ := exec_observe hrun
  have hkeys : keys ([.insert 0 0 (ServerTable.plainKey 1) [5],.insert 1 0 (ServerTable.plainKey 2) [6],.evict 0 0,
      .erase 2 0 (ServerTable.plainKey 1)].zip [.done,.done,.done,.erased true]) = {ServerTable.plainKey 2} := by
    have hne : ServerTable.plainKey 1 ≠ ServerTable.plainKey 2 := by decide
    simp [keys,follow,Set.pair_sdiff_right hne.symm]
  refine ⟨_,s,ht,hkeys,?_⟩
  have hsize := (size_exact ht).1
  rwa [hkeys,Set.ncard_singleton] at hsize

/-- One key, inserted again after it was evicted, is counted twice. -/
theorem evicted_key_counted_twice : ∃ tr s, Trace (step 0 0) (fun _ _ => True) (.new 4096 65536) tr s ∧
    (keys tr).ncard = 1 ∧ size s = 2 := by
  have hrun : (exec (step 0 0) (fun _ _ => True) (.new 4096 65536)
      [.insert 0 0 (ServerTable.plainKey 1) [5],.evict 0 0,.insert 0 0 (ServerTable.plainKey 1) [5]]).map
        (fun r => (r.1,size r.2)) = some ([.done,.done,.done],2) := by decide +kernel
  obtain ⟨outs,s,ht,hobs⟩ := exec_observe hrun
  rw [Prod.mk.injEq] at hobs
  obtain ⟨rfl,hsize⟩ := hobs
  refine ⟨_,s,ht,?_,hsize⟩
  simp [keys,follow]

end FarMemory.TableSize
