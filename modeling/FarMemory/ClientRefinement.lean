import FarMemory.ClientTable

/-!
# The far-memory table as a finite map

A key is local and dirty, local and clean with the same value on the server, or only
on the server; under a dirty copy the server may hold an old value. `Refines` relates
both tables to the map of what was put. Each operation and each eviction keeps it,
provided that neither table holds a key it would take for the operation's own.
-/
namespace FarMemory.ClientTable
open Execution Hopscotch Keys Function
open ServerTable (numEntries Cells ClearIn)

/-- `mr` is the contents of the server. -/
structure Refines (shift remoteShift : ℕ) (s : State) (m mr : Cells) : Prop where
  good : Good shift s.table
  remote : ServerTable.Refines remoteShift s.remote mr
  clean : ∀ k v, Holds shift s.table k v false → mr k = some v
  cells : ∀ k v, m k = some v ↔
    (∃ d, Holds shift s.table k v d) ∨ (∀ v d, ¬Holds shift s.table k v d) ∧ mr k = some v

section Refinement
variable {shift remoteShift core i : ℕ} {s s' : State} {m mr mr' : Cells} {t : Table Obj} {k : Key}
  {v : Bytes} {d : Bool}

theorem Refines.new (shift remoteShift base len : ℕ) :
    Refines shift remoteShift (.new base len) (fun _ => none) fun _ => none := by
  have hnone : ∀ k v d, ¬Holds shift Table.empty k v d := by
    rintro k v d ⟨i,e,he,-⟩
    cases he
  refine ⟨Good.empty,ServerTable.Refines.new remoteShift base len,?_,?_⟩
  · intro k v hv
    exact absurd hv (hnone k v false)
  · intro k v
    simp [State.new,hnone]

section
variable (h : Refines shift remoteShift s m mr)
include h

theorem Refines.of_holds (hv : Holds shift s.table k v d) : m k = some v :=
  (h.cells k v).mpr (.inl ⟨d,hv⟩)

theorem Refines.of_absent (ha : ∀ v d, ¬Holds shift s.table k v d) :
    m k = mr k := by
  apply Option.ext
  intro v
  rw [h.cells]
  constructor
  · rintro (⟨d,hv⟩ | ⟨-,hv⟩)
    · exact absurd hv (ha v d)
    · exact hv
  · intro hv
    exact .inr ⟨ha,hv⟩

theorem Refines.of_remote (hr : mr k ≠ none) : m k ≠ none := by
  by_cases hl : ∃ v d, Holds shift s.table k v d
  · obtain ⟨v,d,hv⟩ := hl
    simp [h.of_holds hv]
  · push Not at hl
    rwa [h.of_absent hl]

/-- A put or a swap-in gives the key a local copy; a clean copy agrees with the server. -/
theorem Refines.store {remote : ServerTable.State} (hgood : Good shift t)
    (hkeeps : Keeps shift k s.table t) (hself : Holds shift t k v d)
    (hremote : ServerTable.Refines remoteShift remote mr') (hclean : d = false → mr' k = some v)
    (hother : ∀ k', k' ≠ k → mr' k' = mr k') :
    Refines shift remoteShift ⟨t,remote⟩ (update m k (some v)) mr' := by
  refine ⟨hgood,hremote,?_,?_⟩
  · intro k' v' hv
    by_cases hk : k' = k
    · subst hk
      obtain ⟨rfl,rfl⟩ := hgood.unique hself hv
      exact hclean rfl
    · obtain ⟨d0,h0,hd0⟩ := hkeeps.fwd k' v' false hk hv
      rw [hother k' hk]
      rw [hd0 rfl] at h0
      exact h.clean k' v' h0
  · intro k' v'
    by_cases hk : k' = k
    · subst hk
      rw [update_self,Option.some.injEq]
      constructor
      · rintro rfl
        exact .inl ⟨d,hself⟩
      · rintro (⟨d',hv⟩ | ⟨hnone,-⟩)
        · exact (hgood.unique hself hv).1
        · exact absurd hself (hnone v d)
    · have hiff : ∀ v, (∃ d, Holds shift t k' v d) ↔ ∃ d, Holds shift s.table k' v d := by
        intro v
        constructor
        · rintro ⟨d',hv⟩
          obtain ⟨d0,h0,-⟩ := hkeeps.fwd k' v d' hk hv
          exact ⟨d0,h0⟩
        · rintro ⟨d',hv⟩
          exact hkeeps.bwd k' v d' hk hv
      rw [update_of_ne hk,h.cells,hother k' hk]
      simp only [← not_exists,hiff]

theorem Refines.put {b : Bool} (hcl : ClearIn Obj.key shift s.table k)
    (hcr : ServerTable.Clear remoteShift s.remote k) (hr : put shift remoteShift s core k v = some (b,s')) :
    (b = true ↔ ∃ v d, Holds shift s.table k v d) ∧
      ∃ mr', Refines shift remoteShift s' (update m k (some v)) mr' := by
  rw [ClientTable.put] at hr
  cases hl : localPut shift false s.table k v with
  | none => simp [hl] at hr
  | some r =>
    obtain ⟨existed,t⟩ := r
    have hok := localPut_spec h.good hcl hl
    obtain ⟨d,hself,hd,-⟩ := hok.self
    have hdirty : d = true := hd rfl
    cases existed with
    | true =>
      simp only [hl,Option.some.injEq,Prod.mk.injEq] at hr
      obtain ⟨rfl,rfl⟩ := hr
      exact ⟨hok.found,mr,h.store hok.good hok.keeps hself h.remote (by simp [hdirty]) fun _ _ => rfl⟩
    | false =>
      simp only [hl,Option.map_eq_some_iff] at hr
      obtain ⟨⟨b',remote⟩,hrem,⟨⟩⟩ := hr
      refine ⟨hok.found,_,h.store hok.good hok.keeps hself (h.remote.remove hcr hrem).2 (by simp [hdirty]) ?_⟩
      intro k' hk
      exact update_of_ne hk _ _

theorem Refines.get (hcl : ClearIn Obj.key shift s.table k)
    (hcr : ServerTable.Clear remoteShift s.remote k) (hr : get shift remoteShift s core k = some (v,s')) :
    v = (m k).getD [] ∧ Refines shift remoteShift s' m mr := by
  rw [ClientTable.get] at hr
  cases hl : localGet s.table (homeBucket shift k) k with
  | some w =>
    simp only [hl] at hr
    cases hr
    obtain ⟨d,hv⟩ := localGet_some h.good hcl hl
    rw [h.of_holds hv]
    exact ⟨rfl,h⟩
  | none =>
    have habs := localGet_none h.good hl
    simp only [hl,forwardGet,h.remote.get_eq hcr] at hr
    rw [h.of_absent habs]
    split at hr
    · rename_i hnil
      cases hr
      exact ⟨hnil.symm,h⟩
    · rename_i hne
      obtain ⟨⟨existed,t⟩,hput,⟨⟩⟩ := Option.map_eq_some_iff.mp hr
      cases hm : mr k with
      | none => simp [hm] at hne
      | some w =>
        simp only [hm,Option.getD_some] at hput ⊢
        have hok := localPut_spec h.good hcl hput
        obtain ⟨d,hself,-,-⟩ := hok.self
        refine ⟨trivial,?_⟩
        have hstore := h.store hok.good hok.keeps hself h.remote (fun _ => hm) fun _ _ => rfl
        rwa [update_eq_self_iff.mpr (by rw [h.of_absent habs,hm])] at hstore

theorem Refines.remove {b : Bool} (hcl : ClearIn Obj.key shift s.table k)
    (hcr : ServerTable.Clear remoteShift s.remote k) (hr : remove shift remoteShift s core k = some (b,s')) :
    b = (m k).isSome ∧ ∃ mr', Refines shift remoteShift s' (update m k none) mr' := by
  obtain ⟨removed,t,hl,hgood,hremoved,hmaps⟩ := localRemove_spec h.good hcl
  simp only [ClientTable.remove,hl,Option.map_eq_some_iff] at hr
  obtain ⟨⟨b',remote⟩,hrem,⟨⟩⟩ := hr
  obtain ⟨hb,hremote⟩ := h.remote.remove hcr hrem
  refine ⟨?_,_,hgood,hremote,?_,?_⟩
  · -- the key is reported by the table that holds it
    by_cases hloc : ∃ v d, Holds shift s.table k v d
    · obtain ⟨v,d,hv⟩ := hloc
      rw [hremoved.mpr ⟨v,d,hv⟩,h.of_holds hv]
      simp
    · rw [← hremoved,Bool.not_eq_true] at hloc
      have habs : ∀ v d, ¬Holds shift s.table k v d := by
        intro v d hv
        rw [hremoved.mpr ⟨v,d,hv⟩] at hloc
        cases hloc
      simp only [hloc,Bool.or_false]
      rw [hb,h.of_absent habs]
  · intro k' v' hv
    obtain ⟨hk,hv'⟩ := (hmaps k' v' false).mp hv
    rw [update_of_ne hk]
    exact h.clean k' v' hv'
  · intro k' v'
    by_cases hk : k' = k
    · subst hk
      simp [hmaps]
    · rw [update_of_ne hk,update_of_ne hk,h.cells]
      simp [hmaps,hk]

theorem Refines.evict
    (hcr : ∀ e, s.table.slot i = .entry e → ServerTable.Clear remoteShift s.remote e.key)
    (hr : evict remoteShift s core i = some s') : ∃ mr', Refines shift remoteShift s' m mr' := by
  rw [ClientTable.evict] at hr
  cases he : s.table.slot i with
  | null => simp [he] at hr
  | busy => simp [he] at hr
  | entry e =>
    have hhold := h.good.holds he
    obtain ⟨hanchor,hi,hbit⟩ := h.good.placed he
    obtain ⟨hgood,hmaps⟩ := h.good.erase hbit (hi ▸ he)
    rw [hi] at he
    simp only [hi,he,hanchor] at hr
    -- afterwards the server has the value, written now or before
    have hdone : ∀ remote mr', ServerTable.Refines remoteShift remote mr' → mr' e.key = some e.val →
        (∀ k', k' ≠ e.key → mr' k' = mr k') → Refines shift remoteShift
          ⟨(s.table.setSlot (homeBucket shift e.key+e.offset) .null).flipBit (homeBucket shift e.key) e.offset,
            remote⟩ m mr' := by
      intro remote mr' hremote hself hother
      refine ⟨hgood,hremote,?_,?_⟩
      · intro k' v' hv
        obtain ⟨hk,hv'⟩ := (hmaps k' v' false).mp hv
        rw [hother k' hk]
        exact h.clean k' v' hv'
      · intro k' v'
        by_cases hk : k' = e.key
        · subst hk
          rw [h.of_holds hhold,hself]
          simp [hmaps]
        · rw [h.cells,hother k' hk]
          simp [hmaps,hk]
    cases hd : e.dirty with
    | true =>
      simp only [hd,if_true,Option.map_eq_some_iff] at hr
      obtain ⟨⟨b',remote⟩,hput,rfl⟩ := hr
      rw [← hi] at he
      refine ⟨_,hdone remote _ (h.remote.put (hcr e he) hput).2 (update_self ..) ?_⟩
      intro k' hk
      exact update_of_ne hk _ _
    | false =>
      simp only [hd,Bool.false_eq_true,if_false,Option.some.injEq] at hr
      subst hr
      rw [hd] at hhold
      exact ⟨mr,hdone s.remote mr h.remote (h.clean _ _ hhold) fun _ _ => rfl⟩

end

/-- The operations on keys of `K`; what is put is not empty and fits. -/
def Op.OnKeys (K : Set Key) : Op → Prop
  | .put _ k v => k ∈ K ∧ v ≠ [] ∧ Fits k v
  | .get _ k => k ∈ K
  | .remove _ k => k ∈ K
  | .evict _ _ => True

instance (K : Set Key) [DecidablePred (· ∈ K)] (op : Op) : Decidable (op.OnKeys K) :=
  match op with
  | .put _ k v => inferInstanceAs (Decidable (k ∈ K ∧ v ≠ [] ∧ Fits k v))
  | .get _ k => inferInstanceAs (Decidable (k ∈ K))
  | .remove _ k => inferInstanceAs (Decidable (k ∈ K))
  | .evict _ _ => inferInstanceAs (Decidable True)

/-- A map of keys of `K` and values that fit. -/
def Within (K : Set Key) (m : Cells) : Prop := ∀ k v, m k = some v → k ∈ K ∧ Fits k v

/-- Where an operation finds no room: no slot for the key, also of a value that the server has
returned, or no room on the server for an object that is evicted. -/
def Exhausted (shift remoteShift : ℕ) (s : State) : Op → Prop
  | .put _ k v => NoRoom shift false s.table k v
  | .get core k => ∃ v remote, ServerTable.get remoteShift s.remote core k false = some (v,remote) ∧ v ≠ [] ∧
      NoRoom shift true s.table k v
  | .remove _ _ => False
  | .evict core i => ∀ e, s.table.slot i = .entry e →
      ServerTable.put remoteShift s.remote core e.key e.val = none

/-- The keys that an operation compares. -/
def ClearFor (shift remoteShift : ℕ) (s : State) : Op → Prop
  | .put _ k _ => ClearIn Obj.key shift s.table k ∧ ServerTable.Clear remoteShift s.remote k
  | .get _ k => ClearIn Obj.key shift s.table k ∧ ServerTable.Clear remoteShift s.remote k
  | .remove _ k => ClearIn Obj.key shift s.table k ∧ ServerTable.Clear remoteShift s.remote k
  | .evict _ i => ∀ e, s.table.slot i = .entry e → ServerTable.Clear remoteShift s.remote e.key

instance (shift remoteShift : ℕ) (s : State) (op : Op) : Decidable (ClearFor shift remoteShift s op) :=
  match op with
  | .put _ _ _ => inferInstanceAs (Decidable (_ ∧ _))
  | .get _ _ => inferInstanceAs (Decidable (_ ∧ _))
  | .remove _ _ => inferInstanceAs (Decidable (_ ∧ _))
  | .evict _ i =>
    match h : s.table.slot i with
    | .entry e => decidable_of_iff (ServerTable.Clear remoteShift s.remote e.key) (by simp [ClearFor,h])
    | .null => isTrue (by simp [ClearFor,h])
    | .busy => isTrue (by simp [ClearFor,h])

theorem Refines.exhausted {K : Set Key} {op : Op} (h : Refines shift remoteShift s m mr) (hm : Within K m)
    (hop : op.OnKeys K) (hc : ClearFor shift remoteShift s op)
    (hr : step shift remoteShift s op = none) : Exhausted shift remoteShift s op := by
  cases op with
  | put core k v =>
    rw [step,Option.map_eq_none_iff,ClientTable.put] at hr
    cases hl : localPut shift false s.table k v with
    | none => exact localPut_none h.good hc.1 hop.2.2 hl
    | some r =>
      obtain ⟨existed,t⟩ := r
      obtain ⟨r',hr'⟩ : ∃ r, ServerTable.remove remoteShift s.remote core k = some r := h.remote.remove_total
      cases existed <;> simp [hl,hr'] at hr
  | get core k =>
    rw [step,Option.map_eq_none_iff,ClientTable.get] at hr
    cases hl : localGet s.table (homeBucket shift k) k with
    | some w => simp [hl] at hr
    | none =>
      have hget : ServerTable.get remoteShift s.remote core k false = some _ := h.remote.get_eq hc.2
      simp only [hl,forwardGet,hget] at hr
      split at hr
      · cases hr
      · rename_i hne
        have hfit : Fits k ((mr k).getD []) := by
          rw [← h.of_absent (localGet_none h.good hl)] at hne ⊢
          cases hmk : m k with
          | none => exact absurd (by rw [hmk]; rfl) hne
          | some v => exact (hm k v hmk).2
        exact ⟨_,_,hget,hne,localPut_none h.good hc.1 hfit (Option.map_eq_none_iff.mp hr)⟩
  | remove core k =>
    obtain ⟨removed,t,hl,-⟩ := localRemove_spec h.good hc.1
    obtain ⟨r',hr'⟩ : ∃ r, ServerTable.remove remoteShift s.remote core k = some r := h.remote.remove_total
    simp [step,ClientTable.remove,hl,hr'] at hr
  | evict core i =>
    intro e he
    rw [step,Option.map_eq_none_iff,ClientTable.evict] at hr
    simp only [he] at hr
    split at hr
    · exact Option.map_eq_none_iff.mp hr
    · cases hr

/-! ### Runs -/

def follow (m : Cells) : Op × Outcome → Cells
  | (.put _ k v,_) => update m k (some v)
  | (.remove _ k,_) => update m k none
  | _ => m

def contents (tr : List (Op × Outcome)) : Cells := tr.foldl follow fun _ => none

/-- What the map says about the result of an operation. The result of a put depends
on where the key is. -/
def Answers (m : Cells) : Op → Outcome → Prop
  | .put _ _ _,out => ∃ b, out = .flag b
  | .get _ k,out => out = .value ((m k).getD [])
  | .remove _ k,out => out = .flag (m k).isSome
  | .evict _ _,out => out = .unit

theorem Refines.step {op : Op} {out : Outcome} (h : Refines shift remoteShift s m mr)
    (hc : ClearFor shift remoteShift s op) (hr : step shift remoteShift s op = some (out,s')) :
    Answers m op out ∧ ∃ mr', Refines shift remoteShift s' (follow m (op,out)) mr' := by
  cases op with
  | put core k v =>
    obtain ⟨⟨b,s1⟩,hp,⟨⟩⟩ := Option.map_eq_some_iff.mp hr
    exact ⟨⟨b,rfl⟩,(h.put hc.1 hc.2 hp).2⟩
  | get core k =>
    obtain ⟨⟨w,s1⟩,hp,⟨⟩⟩ := Option.map_eq_some_iff.mp hr
    obtain ⟨rfl,h'⟩ := h.get hc.1 hc.2 hp
    exact ⟨rfl,mr,h'⟩
  | remove core k =>
    obtain ⟨⟨b,s1⟩,hp,⟨⟩⟩ := Option.map_eq_some_iff.mp hr
    obtain ⟨rfl,h'⟩ := h.remove hc.1 hc.2 hp
    exact ⟨rfl,h'⟩
  | evict core i =>
    obtain ⟨s1,hp,⟨⟩⟩ := Option.map_eq_some_iff.mp hr
    exact ⟨rfl,h.evict hc hp⟩

/-! ### Keys that are told apart -/

theorem Refines.clear {K : Set Key} {op : Op} (h : Refines shift remoteShift s m mr) (hK : Distinguishable K)
    (hm : Within K m) (hop : op.OnKeys K) : ClearFor shift remoteShift s op := by
  have hlocal : ∀ {i e}, s.table.slot i = .entry e → e.key ∈ K := fun he =>
    (hm _ _ (h.of_holds (h.good.holds he))).1
  have hboth : ∀ k ∈ K, ClearIn Obj.key shift s.table k ∧ ServerTable.Clear remoteShift s.remote k := by
    intro k hk
    constructor
    · intro o _ hconf
      cases he : s.table.slot (homeBucket shift k+o) with
      | null => simp [he,ServerTable.Confused] at hconf
      | busy => simp [he,ServerTable.Confused] at hconf
      | entry e =>
        rw [he] at hconf
        exact hconf.1 (hK _ (hlocal he) k hk hconf.2.2)
    · intro o _ hconf
      cases he : s.remote.table.slot (homeBucket remoteShift k+o) with
      | null => simp [he,ServerTable.Confused] at hconf
      | busy => simp [he,ServerTable.Confused] at hconf
      | entry e =>
        rw [he] at hconf
        have hmr : mr e.key ≠ none := by simp [h.remote.value ⟨_,he⟩]
        obtain ⟨v,hv⟩ := Option.ne_none_iff_exists'.mp (h.of_remote hmr)
        have hmem : e.key ∈ K := (hm _ v hv).1
        exact hconf.1 (hK _ hmem k hk hconf.2.2)
  cases op with
  | put core k v => exact hboth k hop.1
  | get core k => exact hboth k hop
  | remove core k => exact hboth k hop
  | evict core i => exact fun e he => (hboth _ (hlocal he)).2

theorem Within.follow {K : Set Key} {op : Op} {out : Outcome} (hm : Within K m) (hop : op.OnKeys K) :
    Within K (follow m (op,out)) := by
  intro k v hk
  cases op with
  | put core k' v' =>
    by_cases hkk : k = k'
    · subst hkk
      rw [ClientTable.follow,update_self,Option.some.injEq] at hk
      exact hk ▸ ⟨hop.1,hop.2.2⟩
    · rw [ClientTable.follow,update_of_ne hkk] at hk
      exact hm k v hk
  | get core k' => exact hm k v hk
  | remove core k' =>
    by_cases hkk : k = k'
    · subst hkk
      simp [ClientTable.follow] at hk
    · rw [ClientTable.follow,update_of_ne hkk] at hk
      exact hm k v hk
  | evict core i => exact hm k v hk

end Refinement

theorem refines_run_onKeys {shift remoteShift base len : ℕ} {K : Set Key} (hK : Distinguishable K)
    {tr : List (Op × Outcome)} {s : State}
    (h : Trace (step shift remoteShift) (fun _ op => op.OnKeys K) (.new base len) tr s) :
    (∃ mr, Refines shift remoteShift s (contents tr) mr) ∧ Within K (contents tr) := by
  refine h.simulation (I := fun s m => (∃ mr, Refines shift remoteShift s m mr) ∧ Within K m) ?_ ?_
  · exact ⟨⟨_,Refines.new shift remoteShift base len⟩,fun _ _ h => nomatch h⟩
  · rintro s m op out s' hop ⟨⟨mr,hr⟩,hm⟩ hs
    exact ⟨(hr.step (hr.clear hK hm hop) hs).2,hm.follow hop⟩

/-- On keys that the comparison tells apart and with entries of at most 65528 bytes the far-memory table
is a finite map, and it answers every operation for which there is room. -/
theorem client_table_is_map {shift remoteShift base len : ℕ} {K : Set Key} (hK : Distinguishable K)
    {tr : List (Op × Outcome)} {s : State}
    (h : Trace (step shift remoteShift) (fun _ op => op.OnKeys K) (.new base len) tr s) (op : Op)
    (hop : op.OnKeys K) :
    (∀ out s', step shift remoteShift s op = some (out,s') → Answers (contents tr) op out) ∧
      (step shift remoteShift s op = none → Exhausted shift remoteShift s op) := by
  obtain ⟨⟨mr,hr⟩,hm⟩ := refines_run_onKeys hK h
  have hc := hr.clear hK hm hop
  exact ⟨fun out s' hs => (hr.step hc hs).1,hr.exhausted hm hop hc⟩

/-- A key that is evicted, swapped in again and overwritten by a longer value. -/
theorem client_table_is_map_evicted : ∃ tr s out s',
    Trace (step 0 0) (fun _ op => op.OnKeys {k | (0 : UInt8) ∉ k.bytes}) (.new 4096 65536) tr s ∧
      contents tr (ServerTable.plainKey 1) = some [7,8] ∧
      step 0 0 s (.get 0 (ServerTable.plainKey 1)) = some (out,s') ∧ out = .value [7,8] := by
  have hrun : (exec (step 0 0) (fun _ op => op.OnKeys {k | (0 : UInt8) ∉ k.bytes}) (.new 4096 65536)
      [.put 0 (ServerTable.plainKey 1) [5],.put 0 (ServerTable.plainKey 2) [6],.evict 0 0,
        .get 0 (ServerTable.plainKey 1),.put 0 (ServerTable.plainKey 1) [7,8],.evict 0 0]).map
        (fun r => (r.1,(step 0 0 r.2 (.get 0 (ServerTable.plainKey 1))).isSome)) =
      some ([.flag false,.flag false,.unit,.value [5],.flag true,.unit],true) := by decide +kernel
  obtain ⟨outs,s,ht,hobs⟩ := exec_observe hrun
  rw [Prod.mk.injEq] at hobs
  obtain ⟨rfl,hsome⟩ := hobs
  obtain ⟨⟨out,s'⟩,hstep⟩ := Option.isSome_iff_exists.mp hsome
  exact ⟨_,s,out,s',ht,by decide,hstep,
    (client_table_is_map distinguishable_nulFree ht _ (by decide)).1 out s' hstep⟩

end FarMemory.ClientTable
