import FarMemory.DataFrameCapacity

/-!
# Residency of a column's chunks

`view` is what the client reads at an index, wherever the chunk is. A column is
in step with the server if everything written lies in the server vector's
storage, what a clean chunk holds is on the server as well, and the dirty flag is
up whenever a dirty chunk holds anything. Dereferences, flushes and evictions
then leave what was written as it is, and a flush makes the server's copy current.
-/
namespace FarMemory.DataFrame
open CountedLoop StdVector ValueInit

namespace DataFrameVector
variable {α : Type} {v : DataFrameVector α} {j i : ℕ}

def view (v : DataFrameVector α) (j : ℕ) : Option α :=
  match v.chunkPtrs[j/v.entries]? with
  | none => none
  | some (.present d _) => d (j%v.entries)
  | some .remote => if j < v.server.capacity then v.server.cells j else none

def contents (v : DataFrameVector α) : List (Option α) := (List.range v.size).map v.view

theorem entries_pos (v : DataFrameVector α) : 0 < v.entries := v.layout.chunkNumEntries_pos

theorem index_div (v : DataFrameVector α) (i : ℕ) {o : ℕ} (ho : o < v.entries) :
    (i*v.entries+o)/v.entries = i := by
  rw [Nat.mul_comm,Nat.mul_add_div v.entries_pos,Nat.div_eq_of_lt ho,Nat.add_zero]

theorem index_mod (v : DataFrameVector α) (i : ℕ) {o : ℕ} (ho : o < v.entries) :
    (i*v.entries+o)%v.entries = o := by
  rw [Nat.mul_add_mod_self_right,Nat.mod_eq_of_lt ho]

theorem index_eq (v : DataFrameVector α) (j : ℕ) : j/v.entries*v.entries+j%v.entries = j :=
  Nat.div_add_mod' j v.entries

theorem chunk_lt_iff (v : DataFrameVector α) (j : ℕ) :
    j/v.entries < v.chunkPtrs.length ↔ j < v.capacity :=
  Nat.div_lt_iff_lt_mul v.entries_pos

theorem view_absent
    (h : v.chunkPtrs[j/v.entries]? = none) : v.view j = none := by
  simp only [view,h]

theorem view_present {d : ℕ → Option α} {b : Bool}
    (h : v.chunkPtrs[j/v.entries]? = some (.present d b)) : v.view j = d (j%v.entries) := by
  simp only [view,h]

theorem view_remote
    (h : v.chunkPtrs[j/v.entries]? = some .remote) :
    v.view j = if j < v.server.capacity then v.server.cells j else none := by
  simp only [view,h]

theorem setChunk_get (hi : i < v.chunkPtrs.length) (c : Chunk α) :
    (v.setChunk i c).chunkPtrs[i]? = some c := by
  simp [setChunk,hi]

theorem setChunk_get_ne {k : ℕ} (h : k ≠ i) (c : Chunk α) :
    (v.setChunk i c).chunkPtrs[k]? = v.chunkPtrs[k]? := by
  simp [setChunk,List.getElem?_set_ne (Ne.symm h)]

theorem setChunk_get_cases {k : ℕ} {c c' : Chunk α}
    (h : (v.setChunk i c).chunkPtrs[k]? = some c') :
    (k = i ∧ c' = c) ∨ (k ≠ i ∧ v.chunkPtrs[k]? = some c') := by
  by_cases hki : k = i
  · subst hki
    have hlt : k < v.chunkPtrs.length := by
      obtain ⟨hlt,_⟩ := List.getElem?_eq_some_iff.mp h
      simpa [setChunk] using hlt
    rw [setChunk_get hlt] at h
    exact .inl ⟨rfl,(Option.some.inj h).symm⟩
  · rw [setChunk_get_ne hki] at h
    exact .inr ⟨hki,h⟩

theorem setChunk_view_ne (h : j/v.entries ≠ i) (c : Chunk α) :
    (v.setChunk i c).view j = v.view j := by
  simp only [view]
  rw [show (v.setChunk i c).entries = v.entries from rfl,setChunk_get_ne h]
  rfl

theorem setChunk_view_present (hi : i < v.chunkPtrs.length)
    (h : j/v.entries = i) (d : ℕ → Option α) (b : Bool) :
    (v.setChunk i (.present d b)).view j = d (j%v.entries) := by
  refine view_present (b := b) ?_
  change (v.setChunk i (.present d b)).chunkPtrs[j/v.entries]? = _
  rw [h]
  exact setChunk_get hi _

end DataFrameVector

open DataFrameVector

structure InStep {α : Type} (v : DataFrameVector α) : Prop where
  addressable : Addressable v
  held : v.size ≤ v.capacity
  covered : v.size ≤ v.server.capacity
  inside : ∀ (i : ℕ) (d : ℕ → Option α) (b : Bool), v.chunkPtrs[i]? = some (.present d b) →
    ∀ o < v.entries, ∀ x, d o = some x → i*v.entries+o < v.server.capacity
  flag : v.dirty = false → ∀ (i : ℕ) (d : ℕ → Option α),
    v.chunkPtrs[i]? = some (.present d true) → ∀ o, d o = none
  clean : ∀ (i : ℕ) (d : ℕ → Option α), v.chunkPtrs[i]? = some (.present d false) →
    ∀ o < v.entries, ∀ x, d o = some x → v.server.cells (i*v.entries+o) = some x

/-- The client's view is untouched, and with it everything but where chunks are. -/
structure SameView {α : Type} (v v' : DataFrameVector α) : Prop where
  shape : SameShape v v'
  size : v'.size = v.size
  dirty : v'.dirty = v.dirty
  server : v'.server = v.server
  view : ∀ j, v'.view j = v.view j

structure Kept {α : Type} (v v' : DataFrameVector α) : Prop extends SameView v v' where
  inStep : InStep v'

section Chunks
variable {α : Type} {v v' : DataFrameVector α} {i : ℕ} {j : ℕ}

theorem SameShape.entries (h : SameShape v v') : v'.entries = v.entries :=
  congrArg Layout.chunkNumEntries h.layout

theorem SameView.refl (v : DataFrameVector α) : SameView v v :=
  ⟨.refl v,rfl,rfl,rfl,fun _ => rfl⟩

theorem SameView.trans {v'' : DataFrameVector α} (h : SameView v v') (h' : SameView v' v'') :
    SameView v v'' :=
  ⟨h.shape.trans h'.shape,h'.size.trans h.size,h'.dirty.trans h.dirty,h'.server.trans h.server,
    fun j => (h'.view j).trans (h.view j)⟩

theorem Kept.refl (h : InStep v) : Kept v v := ⟨.refl v,h⟩

theorem Kept.trans {v'' : DataFrameVector α} (h : Kept v v') (h' : Kept v' v'') : Kept v v'' :=
  ⟨h.toSameView.trans h'.toSameView,h'.inStep⟩

namespace InStep

theorem view_lt (h : InStep v) {j : ℕ} {x : α} (hx : v.view j = some x) :
    j < v.server.capacity := by
  rcases hc : v.chunkPtrs[j/v.entries]? with _ | ⟨d,b⟩ | _
  · simp [view,hc] at hx
  · rw [view_present hc] at hx
    have := h.inside _ d b hc _ (Nat.mod_lt j v.entries_pos) x hx
    rwa [index_eq] at this
  · rw [view_remote hc] at hx
    split at hx
    · assumption
    · cases hx

theorem setPresent (h : InStep v) (i : ℕ) (d : ℕ → Option α) {b : Bool} (hb : b = true → v.dirty = true)
    (hin : ∀ o < v.entries, ∀ x, d o = some x →
      i*v.entries+o < v.server.capacity ∧ (b = false → v.server.cells (i*v.entries+o) = some x)) :
    InStep (v.setChunk i (.present d b)) where
  addressable := h.addressable.of_shape (.setChunk v i _)
  held := by simpa [setChunk,capacity,entries] using h.held
  covered := h.covered
  inside k e b hk := by
    rcases setChunk_get_cases hk with ⟨rfl,hc⟩ | ⟨_,hold⟩
    · cases hc
      exact fun o ho x hx => (hin o ho x hx).1
    · exact h.inside k e b hold
  flag hf k e hk := by
    rcases setChunk_get_cases hk with ⟨_,hc⟩ | ⟨_,hold⟩
    · cases hc
      cases hf.symm.trans (hb rfl)
    · exact h.flag hf k e hold
  clean k e hk := by
    rcases setChunk_get_cases hk with ⟨rfl,hc⟩ | ⟨_,hold⟩
    · cases hc
      exact fun o ho x hx => (hin o ho x hx).2 rfl
    · exact h.clean k e hold

end InStep
theorem setChunk_view_same {d : ℕ → Option α} {b : Bool} (hi : i < v.chunkPtrs.length)
    (hd : ∀ o < v.entries, d o = v.view (i*v.entries+o)) (j : ℕ) :
    (v.setChunk i (.present d b)).view j = v.view j := by
  by_cases hj : j/v.entries = i
  · rw [setChunk_view_present hi hj,hd _ (Nat.mod_lt _ v.entries_pos),← hj,index_eq]
  · exact setChunk_view_ne hj _

theorem deref_view (h : Addressable v) (hi : i < v.chunkPtrs.length) :
    ∃ d v' b, v.deref i = some (d,v') ∧ SameView v v' ∧
      v'.chunkPtrs[i]? = some (.present d b) ∧ (InStep v → InStep v') := by
  rcases hc : v.chunkPtrs[i]? with _ | ⟨d,b⟩ | _
  · rw [List.getElem?_eq_none_iff] at hc
    omega
  · exact ⟨d,v,b,by simp only [deref,hc],.refl v,hc,id⟩
  · let d : ℕ → Option α := fun o =>
      if o < v.entries ∧ i*v.entries+o < v.server.capacity then
        v.server.cells (i*v.entries+o) else none
    have hread : readObject v.server v.entries i = some d := if_pos (h.ids i hi).le
    have hdata : ∀ o < v.entries, d o = v.view (i*v.entries+o) := by
      intro o ho
      rw [view_remote (by rw [index_div v i ho,hc])]
      simp only [d,ho,true_and]
    refine ⟨d,v.setChunk i (.present d false),false,by simp only [deref,hc,hread,Option.map_some],
      ⟨.setChunk v i _,rfl,rfl,rfl,setChunk_view_same hi hdata⟩,setChunk_get hi _,fun hs => ?_⟩
    refine hs.setPresent i d (by simp) fun o ho x hx => ?_
    simp only [d,ho,true_and] at hx
    obtain ⟨hlt,hx⟩ := Option.ite_none_right_eq_some.mp hx
    exact ⟨hlt,fun _ => hx⟩

theorem derefMut_view (h : Addressable v) (hi : i < v.chunkPtrs.length) :
    ∃ d v', v.derefMut i = some (d,v') ∧ SameView v v' ∧
      v'.chunkPtrs[i]? = some (.present d true) ∧ (InStep v → v.dirty = true → InStep v') := by
  obtain ⟨d,w,b,hderef,hk,hchunk,hin⟩ := deref_view h hi
  have hiw : i < w.chunkPtrs.length := by
    rw [hk.shape.length]
    exact hi
  refine ⟨d,w.setChunk i (.present d true),by simp only [derefMut,hderef,Option.map_some],
    hk.trans ⟨.setChunk w i _,rfl,rfl,rfl,setChunk_view_same hiw fun o ho => ?_⟩,
    setChunk_get hiw _,fun hs hd => ?_⟩
  · have := view_present (v := w) (j := i*w.entries+o) (by rw [index_div w i ho,hchunk])
    rw [this,index_mod w i ho]
  · exact (hin hs).setPresent i d (fun _ => hk.dirty.trans hd)
      fun o ho x hx => ⟨(hin hs).inside i d b hchunk o ho x hx,by simp⟩

theorem atIndex_view (h : Addressable v) (hj : j < v.capacity) :
    ∃ v', v.atIndex j = some (v.view j,v') ∧ SameView v v' ∧ (InStep v → InStep v') := by
  obtain ⟨d,w,b,hderef,hk,hchunk,hin⟩ := deref_view h ((v.chunk_lt_iff j).mpr hj)
  refine ⟨w,?_,hk,hin⟩
  rw [← hk.shape.entries] at hchunk
  rw [atIndex,hderef,← hk.view j,view_present hchunk,hk.shape.entries]
  rfl

/-- `v'` is `v` with `x` at index `j`. -/
structure Written (v v' : DataFrameVector α) (j : ℕ) (x : Option α) : Prop where
  shape : SameShape v v'
  size : v'.size = v.size
  server : v'.server = v.server
  view : ∀ k, v'.view k = if k = j then x else v.view k

theorem iterWrite_view (h : Addressable v) (hj : j < v.capacity) (x : Option α) :
    ∃ v', v.iterWrite j x = some v' ∧ Written v v' j x ∧ v'.dirty = v.dirty ∧
      (InStep v → v.dirty = true → j < v.server.capacity → InStep v') := by
  obtain ⟨d,w,hderef,hk,hchunk,hin⟩ := derefMut_view h ((v.chunk_lt_iff j).mpr hj)
  have hiw : j/w.entries < w.chunkPtrs.length := by
    rw [hk.shape.length,hk.shape.entries]
    exact (v.chunk_lt_iff j).mpr hj
  rw [← hk.shape.entries] at hchunk
  refine ⟨w.setChunk (j/w.entries) (.present (Function.update d (j%w.entries) x) true),?_,
    ⟨hk.shape.trans (.setChunk w _ _),hk.size,hk.server,fun k => ?_⟩,hk.dirty,fun hs hd hlt => ?_⟩
  · simp only [iterWrite,hderef,Option.map_some,hk.shape.entries]
  · by_cases hkj : k/w.entries = j/w.entries
    · rw [setChunk_view_present hiw hkj,← hk.view,Function.update_apply]
      split
      · rename_i hmod
        have heq : k = j := by rw [← index_eq w k,hkj,hmod,index_eq]
        rw [if_pos heq]
      · rename_i hmod
        have hne : k ≠ j := fun heq => hmod (heq ▸ rfl)
        rw [if_neg hne,view_present (hkj ▸ hchunk)]
    · have hne : k ≠ j := fun heq => hkj (heq ▸ rfl)
      rw [setChunk_view_ne hkj,if_neg hne,hk.view]
  · have hsw := hin hs hd
    refine hsw.setPresent _ _ (fun _ => hk.dirty.trans hd) fun o ho y hy => ⟨?_,by simp⟩
    rw [Function.update_apply] at hy
    split at hy
    · rename_i hmod
      rw [hmod,index_eq,hk.shape.capacity]
      exact hlt
    · exact hsw.inside _ d true hchunk o ho y hy

theorem updateOnNewChunk_view (h : Addressable v) (isMut : Bool) (i : ℕ) :
    ∃ v', v.updateOnNewChunk isMut i = some v' ∧ SameView v v' ∧
      (InStep v → (isMut = true → v.dirty = true) → InStep v') := by
  unfold updateOnNewChunk
  split
  · rename_i hi
    cases isMut with
    | true =>
      obtain ⟨d,v',hderef,hk,_,hin⟩ := derefMut_view h hi
      exact ⟨v',by simp [hderef],hk,fun hs hd => hin hs (hd rfl)⟩
    | false =>
      obtain ⟨d,v',b,hderef,hk,_,hin⟩ := deref_view h hi
      exact ⟨v',by simp [hderef],hk,fun hs _ => hin hs⟩
  · exact ⟨v,rfl,.refl v,fun hs _ => hs⟩

theorem advance_view (h : Addressable v) (isMut : Bool) (j : ℕ) :
    ∃ v', v.advance isMut j = some v' ∧ SameView v v' ∧
      (InStep v → (isMut = true → v.dirty = true) → InStep v') := by
  unfold advance
  split
  · exact updateOnNewChunk_view h isMut _
  · exact ⟨v,rfl,.refl v,fun hs _ => hs⟩

theorem fastIterator_view (h : Addressable v) (isMut : Bool) (hne : v.chunkPtrs ≠ []) (j : ℕ) :
    ∃ v', v.fastIterator isMut j = some v' ∧ SameView v v' ∧
      (InStep v → (isMut = true → v.dirty = true) → InStep v') := by
  unfold fastIterator
  rw [if_neg hne]
  exact updateOnNewChunk_view h isMut _

theorem atIndex_spec (h : InStep v) (hj : j < v.capacity) :
    ∃ v', v.atIndex j = some (v.view j,v') ∧ Kept v v' := by
  obtain ⟨v',hv',hk,hin⟩ := atIndex_view h.addressable hj
  exact ⟨v',hv',hk,hin h⟩

theorem InStep.raise (h : InStep v) : InStep {v with dirty := true} :=
  ⟨⟨h.addressable.known,h.addressable.ids⟩,h.held,h.covered,h.inside,
    fun hf => absurd hf (by simp),h.clean⟩

theorem atMut_spec (h : InStep v) (hj : j < v.capacity) (hc : j < v.server.capacity)
    (x : Option α) : ∃ v', v.atMut j x = some v' ∧ Written v v' j x ∧ InStep v' := by
  obtain ⟨v',hw,hs,_,hin⟩ := iterWrite_view h.raise.addressable hj x
  exact ⟨v',hw,⟨⟨hs.shape.layout,hs.shape.length,hs.shape.remote,hs.shape.capacity⟩,hs.size,
    hs.server,hs.view⟩,hin h.raise rfl hc⟩

theorem advance_spec (h : InStep v) (j : ℕ) : ∃ v', v.advance false j = some v' ∧ Kept v v' := by
  obtain ⟨v',hv',hk,hin⟩ := advance_view h.addressable false j
  exact ⟨v',hv',hk,hin h (by simp)⟩

theorem fastIterator_spec (h : InStep v) (hne : v.chunkPtrs ≠ []) (j : ℕ) :
    ∃ v', v.fastIterator false j = some v' ∧ Kept v v' := by
  obtain ⟨v',hv',hk,hin⟩ := fastIterator_view h.addressable false hne j
  exact ⟨v',hv',hk,hin h (by simp)⟩

end Chunks
section Flush
variable {α : Type} {v v' : DataFrameVector α} {n i j : ℕ} {d : ℕ → Option α} {b : Bool} {x : α}

def Chunk.cleaned : Chunk α → Chunk α
  | .present d _ => .present d false
  | .remote => .remote

/-- What a flush of the chunk leaves at offset `o` of its storage, which held `old`. -/
def Chunk.flushed (o : ℕ) (old : Option α) : Chunk α → Option α
  | .present d true => d o
  | _ => old

/-- The storage after a flush of the chunks `cs`, the first of which has number `i`. -/
def flushedCells (n i : ℕ) (cs : List (Chunk α)) (cells : ℕ → Option α) (j : ℕ) : Option α :=
  if i ≤ j/n then
    match cs[j/n-i]? with
    | some c => c.flushed (j%n) (cells j)
    | none => cells j
  else cells j

theorem flushedCells_cons (n i : ℕ) (c : Chunk α) (cs : List (Chunk α)) (cells : ℕ → Option α)
    (j : ℕ) :
    flushedCells n i (c::cs) cells j =
      if j/n = i then c.flushed (j%n) (cells j) else flushedCells n (i+1) cs cells j := by
  unfold flushedCells
  rcases lt_trichotomy (j/n) i with hlt | heq | hgt
  · rw [if_neg (by omega),if_neg (by omega),if_neg (by omega)]
  · rw [if_pos (by omega),if_pos heq,show j/n-i = 0 by omega,List.getElem?_cons_zero]
  · rw [if_pos (by omega),if_neg (by omega),if_pos (by omega),
      show j/n-i = (j/n-(i+1))+1 by omega,List.getElem?_cons_succ]

theorem flushedCells_congr {cs : List (Chunk α)} {f g : ℕ → Option α} (h : f j = g j) :
    flushedCells n i cs f j = flushedCells n i cs g j := by
  simp only [flushedCells,h]

theorem writeObject_cells {s s' : Vec α} (hn : 0 < n)
    (h : writeObject s n i d = some s') (hj : j < s.capacity) :
    s'.cells j = if j/n = i then d (j%n) else s.cells j := by
  rw [(writeObject_some h).2.2.2]
  have hiff : (i*n ≤ j ∧ j < (i+1)*n ∧ j < s.capacity) ↔ j/n = i := by
    rw [Nat.div_eq_iff hn]
    have : (i+1)*n = i*n+n := by ring
    omega
  by_cases hi : j/n = i
  · rw [if_pos hi]
    simp only
    rw [if_pos (hiff.mpr hi),← hi]
    congr 1
    have := Nat.div_add_mod' j n
    omega
  · rw [if_neg hi]
    simp only
    rw [if_neg (hiff.not.mpr hi)]

theorem flushChunks_spec (hn : 0 < n) (cs : List (Chunk α)) (i : ℕ) (s : Vec α)
    (hcap : ∀ k < cs.length, (i+k)*n < s.capacity) :
    ∃ s', flushChunks n i cs s = some (cs.map Chunk.cleaned,s') ∧ s'.capacity = s.capacity ∧
      ∀ j < s.capacity, s'.cells j = flushedCells n i cs s.cells j := by
  induction cs generalizing i s with
  | nil => exact ⟨s,rfl,rfl,fun j _ => by simp [flushedCells]⟩
  | cons c cs ih =>
    have hrest : ∀ k < cs.length, (i+1+k)*n < s.capacity := by
      intro k hk
      have := hcap (k+1) (by simpa using hk)
      rwa [show i+1+k = i+(k+1) by omega]
    rcases c with ⟨d,_ | _⟩ | _
    · obtain ⟨s',hf,hc,hcells⟩ := ih (i+1) s hrest
      refine ⟨s',by simp [flushChunks,hf,Chunk.cleaned],hc,fun j hj => ?_⟩
      rw [hcells j hj,flushedCells_cons]
      split
      · rename_i hi
        simp [flushedCells,hi,Chunk.flushed]
      · rfl
    · have hwrite : ∃ t, writeObject s n i d = some t :=
        ⟨_,if_pos (by simpa using (hcap 0 (by simp)).le)⟩
      obtain ⟨t,ht⟩ := hwrite
      have htc := (writeObject_some ht).2.1
      obtain ⟨s',hf,hc,hcells⟩ := ih (i+1) t (by rwa [htc])
      refine ⟨s',by simp [flushChunks,ht,hf,Chunk.cleaned],hc.trans htc,fun j hj => ?_⟩
      have hjt := writeObject_cells hn ht hj
      rw [hcells j (by rwa [htc]),flushedCells_cons]
      split
      · rename_i hi
        rw [if_pos hi] at hjt
        simp [flushedCells,hi,Chunk.flushed,hjt]
      · rename_i hi
        rw [if_neg hi] at hjt
        exact flushedCells_congr hjt
    · obtain ⟨s',hf,hc,hcells⟩ := ih (i+1) s hrest
      refine ⟨s',by simp [flushChunks,hf,Chunk.cleaned],hc,fun j hj => ?_⟩
      rw [hcells j hj,flushedCells_cons]
      split
      · rename_i hi
        simp [flushedCells,hi,Chunk.flushed]
      · rfl

/-- What a flush leaves: the same view, and a current server copy. -/
structure Flushed (v v' : DataFrameVector α) : Prop where
  shape : SameShape v v'
  size : v'.size = v.size
  inStep : InStep v'
  view : ∀ j, v'.view j = v.view j
  current : ∀ j x, v.view j = some x → v'.server.cells j = some x

theorem InStep.current (h : InStep v) (hd : v.dirty = false) (hx : v.view j = some x) : v.server.cells j = some x := by
  have hj := h.view_lt hx
  rcases hc : v.chunkPtrs[j/v.entries]? with _ | ⟨d,_ | _⟩ | _
  · simp [view,hc] at hx
  · rw [view_present hc] at hx
    have := h.clean _ d hc _ (Nat.mod_lt j v.entries_pos) x hx
    rwa [index_eq] at this
  · rw [view_present hc,h.flag hd _ d hc] at hx
    cases hx
  · rw [view_remote hc,if_pos hj] at hx
    exact hx

/-- The column whose dirty chunks have been written to the server vector `s`. -/
def DataFrameVector.flushedTo (v : DataFrameVector α) (s : Vec α) : DataFrameVector α :=
  {v with dirty := false, chunkPtrs := v.chunkPtrs.map Chunk.cleaned, server := s}

theorem flushedTo_get {s : Vec α} (h : (v.flushedTo s).chunkPtrs[i]? = some (.present d b)) :
    b = false ∧ ∃ b', v.chunkPtrs[i]? = some (.present d b') := by
  simp only [flushedTo,List.getElem?_map,Option.map_eq_some_iff] at h
  obtain ⟨c,hc,heq⟩ := h
  rcases c with ⟨e,b'⟩ | _
  · cases heq
    exact ⟨rfl,b',hc⟩
  · cases heq

section
variable {s : Vec α} (h : InStep v) (hcap : s.capacity = v.server.capacity)
  (hcell : ∀ j < v.server.capacity, ∀ c, v.chunkPtrs[j/v.entries]? = some c →
    s.cells j = c.flushed (j%v.entries) (v.server.cells j))

include h hcell

private theorem flushed_present {o : ℕ} (hc : v.chunkPtrs[i]? = some (.present d b)) (ho : o < v.entries) (hx : d o = some x) :
    s.cells (i*v.entries+o) = some x := by
  rw [hcell _ (h.inside i d b hc o ho x hx) _ (by rw [index_div v i ho,hc]),index_mod v i ho]
  cases b with
  | false => exact h.clean i d hc o ho x hx
  | true => exact hx

theorem flushedTo_current (hx : v.view j = some x) : s.cells j = some x := by
  have hj := h.view_lt hx
  rcases hc : v.chunkPtrs[j/v.entries]? with _ | ⟨d,b⟩ | _
  · simp [view,hc] at hx
  · rw [view_present hc] at hx
    have := flushed_present h hcell hc (Nat.mod_lt j v.entries_pos) hx
    rwa [index_eq] at this
  · rw [hcell j hj _ hc,← hx,view_remote hc,if_pos hj]
    rfl

include hcap

theorem flushedTo_inStep : InStep (v.flushedTo s) where
  addressable := h.addressable.of_shape ⟨rfl,by simp [flushedTo],rfl,hcap⟩
  held := by simpa [flushedTo,capacity,entries] using h.held
  covered := h.covered.trans hcap.ge
  inside i d b hi o ho x hx := by
    obtain ⟨_,b',hc⟩ := flushedTo_get hi
    exact (h.inside i d b' hc o ho x hx).trans_eq hcap.symm
  flag _ i d hi := by
    cases (flushedTo_get hi).1
  clean i d hi o ho x hx := by
    obtain ⟨_,b,hc⟩ := flushedTo_get hi
    exact flushed_present h hcell hc ho hx

omit h in
theorem flushedTo_view (j : ℕ) : (v.flushedTo s).view j = v.view j := by
  have hget : (v.flushedTo s).chunkPtrs[j/v.entries]? =
      v.chunkPtrs[j/v.entries]?.map Chunk.cleaned := List.getElem?_map
  rcases hc : v.chunkPtrs[j/v.entries]? with _ | ⟨d,b⟩ | _
  · rw [hc] at hget
    rw [view_absent hc]
    exact view_absent hget
  · rw [hc] at hget
    rw [view_present hc]
    exact view_present hget
  · rw [hc] at hget
    rw [view_remote hc,view_remote hget]
    change (if j < s.capacity then s.cells j else none) = _
    rw [hcap]
    split
    · rename_i hj
      exact hcell j hj _ hc
    · rfl

end

theorem flush_spec (h : InStep v) : ∃ v', v.flush = some v' ∧ Flushed v v' := by
  rcases hd : v.dirty with _ | _
  · exact ⟨v,by simp [flush,hd],.refl v,rfl,h,fun _ => rfl,fun j x hx => h.current hd hx⟩
  obtain ⟨s,hf,hcap,hcells⟩ := flushChunks_spec v.entries_pos v.chunkPtrs 0 v.server
    (by simpa using h.addressable.ids)
  have hcell : ∀ j < v.server.capacity, ∀ c, v.chunkPtrs[j/v.entries]? = some c →
      s.cells j = c.flushed (j%v.entries) (v.server.cells j) := by
    intro j hj c hc
    simp [hcells j hj,flushedCells,hc]
  exact ⟨v.flushedTo s,by simp [flush,hd,hf,flushedTo],⟨rfl,by simp [flushedTo],rfl,hcap⟩,rfl,
    flushedTo_inStep h hcap hcell,flushedTo_view hcap hcell,fun j x hx => flushedTo_current h hcell hx⟩

end Flush
end FarMemory.DataFrame
