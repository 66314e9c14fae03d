import FarMemory.ListRefinement

/-!
# What iterators denote after an operation

For resident chunks. An insertion at an item leaves the iterator with its item; one at
`end` goes to the chunk at the end, which holds no items, so that the iterator is no
longer at the end. An erasure returns the position after the item, but for the last item
of a chunk with others: what it returns then is the end of that chunk.
-/
namespace FarMemory.ChunkedList
open DoublyLinked ChunkListData

section
variable {T : Type} {cfg : Config} {rev : Bool} {s s' : Resident T} {front back : ℕ} {L : List ChunkEntry}
  {it it' : GenericIterator} {xs ys : List (Option T)} {l : List T}

/-- A loop from `it` visits exactly these items and then is at the end. -/
def Visits (cfg : Config) (rev : Bool) (s : Resident T) (it : GenericIterator) (l : List T) : Prop :=
  ∃ fuel, s.visit (resident T) cfg rev fuel it = some (l.map some)

/-- `insert` puts the item right before the position with this index and the iterator stays there. -/
def InsertKeeps (cfg : Config) (rev : Bool) (s : Resident T) (l : List T) (i : ℕ) (it : GenericIterator) (x : T) : Prop :=
  (s.insert (resident T) cfg rev it x).2.traverse (resident T) cfg rev = some (((orient rev l).insertIdx i x).map some) ∧
    Visits cfg rev (s.insert (resident T) cfg rev it x).2 (s.insert (resident T) cfg rev it x).1 ((orient rev l).drop i)

/-- `erase` returns the position after the item with this index. -/
def EraseAdvances (cfg : Config) (rev : Bool) (s : Resident T) (l : List T) (i : ℕ) (it : GenericIterator) : Prop :=
  Visits cfg rev (s.erase (resident T) cfg rev it).2 (s.erase (resident T) cfg rev it).1 ((orient rev l).drop (i+1))

theorem Position.eq_last (hp : Position s rev back L it xs []) : it = ⟨back,lastPtr rev⟩ := by
  cases hp
  rfl

/-! ### Where the loop goes wrong -/

theorem not_visits_nil (hne : (s.endIter (resident T) rev).1 ≠ it) : ¬Visits cfg rev s it [] := by
  rintro ⟨fuel,hfuel⟩
  cases fuel with
  | zero => simp [GenericList.visit] at hfuel
  | succ fuel =>
    simp only [GenericList.visit,if_neg (Ne.symm hne)] at hfuel
    simp at hfuel

theorem Inv.not_visits_last (h : Inv cfg rev s front back L) {n : ℕ} (hn : n ∈ L.map Prod.fst) (l : List T) :
    ¬Visits cfg rev s ⟨n,lastPtr rev⟩ l := by
  obtain ⟨⟨n,ps⟩,he,rfl⟩ := List.mem_map.mp hn
  obtain ⟨L1,L2,rfl⟩ := List.append_of_mem he
  have hne : (⟨n,lastPtr rev⟩ : GenericIterator) ≠ ⟨back,lastPtr rev⟩ :=
    fun heq => h.toShape.nodup.2.1 (congrArg GenericIterator.localIter heq)
  have hitem : (s.store n).item (lastPtr rev) = none := by
    have hwf := h.toShape.chunk
    rw [← hwf.last_eq]
    exact hwf.last_item rev
  rintro ⟨fuel,hfuel⟩
  cases fuel with
  | zero => simp [GenericList.visit] at hfuel
  | succ fuel =>
    simp only [GenericList.visit,h.toShape.endIter,if_neg hne,GenericList.deref,update_resident,chunk_resident,hitem] at hfuel
    cases l with
    | nil => simp at hfuel
    | cons x l => simp at hfuel

/-- An insertion at the end: the chunk there gets an item, and what was its end is none. -/
theorem Inv.insert_last (h : Inv cfg rev s front back L) (hcfg : cfg.Valid) (x : T) :
    (s.insert (resident T) cfg rev ⟨back,lastPtr rev⟩ x).1 = ⟨back,lastPtr rev⟩ ∧
      ((s.insert (resident T) cfg rev ⟨back,lastPtr rev⟩ x).2.endIter (resident T) rev).1 ≠ ⟨back,lastPtr rev⟩ := by
  have hmin : 8 ≤ cfg.numNodesPerChunk := hcfg.min
  have hmax : cfg.numNodesPerChunk ≤ 64 := hcfg.max
  have hroom : s.cnt back ≠ cfg.numNodesPerChunk := by
    rw [h.cnt_ends.2]
    simp only [kInvalidCnt,kMaxNumNodesPerChunk]
    omega
  obtain ⟨p,c,hinsert,hc,-⟩ := ChunkListData.WF.insert (show (s.store back).WF cfg rev ([]++[]) from h.ends.2) hmax
    (by simp; omega)
  rw [List.headD_nil,h.ends.2.last_eq] at hinsert
  obtain ⟨s',hplace,hlinks,hstore⟩ : ∃ s', (s.insert (resident T) cfg rev ⟨back,lastPtr rev⟩ x) = (⟨back,lastPtr rev⟩,s') ∧
      s'.links = s.links ∧ s'.store back = c.setItem p (some x) := by
    simp only [GenericList.insert,if_neg hroom,GenericList.place,GenericList.setCnt,update_resident,GenericList.insertChunk,
      chunk_resident,hinsert,GenericList.writeItem]
    refine ⟨_,rfl,rfl,?_⟩
    rw [store_setChunk,if_pos rfl,store_setChunk,if_pos rfl]
  have hwf := hc.setItem (show p ∈ []++[p] by simp) (some x)
  rw [hplace]
  refine ⟨rfl,fun heq => ?_⟩
  rw [endIter_resident,hlinks,h.toShape.behind_outer,hstore,hwf.first] at heq
  refine hwf.ne_last (show p ∈ []++[p] by simp) rev ?_
  rw [hwf.last_eq]
  exact congrArg GenericIterator.chunkIter heq

theorem Represents.insertKeeps_iff (h : Represents cfg rev s l) (hcfg : cfg.Valid) (hplain : cfg.customizedSplit = false)
    {i : ℕ} (hi : i ≤ l.length) (hit : (s.nthIter (resident T) cfg rev i).1 = it) (x : T) :
    InsertKeeps cfg rev s l i it x ↔ it ≠ (s.endIter (resident T) rev).1 := by
  obtain ⟨front,back,L,hinv,hitems⟩ := id h
  rw [hinv.toShape.endIter]
  rcases hi.lt_or_eq with hi | rfl
  · obtain ⟨it',s₁,y,hnth,hp,hdrop⟩ := hinv.nthItem hitems hi
    rw [hnth] at hit
    obtain rfl : it' = it := hit
    have hne : it' ≠ ⟨back,lastPtr rev⟩ := hinv.toShape.mem_ne (List.mem_of_getElem? hp.getElem?) _
    obtain ⟨front',back',L',hinv',hitems'⟩ := h.insert hcfg hplain hi (congrArg Prod.fst hnth) x
    obtain ⟨it1,s',L1,hinsert,hinv1,hp'⟩ := hinv.insert_item hcfg (fun _ => hplain) hp x
    refine iff_of_true ⟨?_,?_⟩ hne
    · rw [hinv'.traverse,hitems',orient_orient]
    · have hvisit := hinv1.visit hp' (Nat.lt_succ_self _)
      rw [hdrop] at hvisit
      rw [hinsert]
      exact ⟨_,hvisit⟩
  · have hlen : (items s L).length = l.length := by rw [hitems,List.length_map,length_orient]
    obtain ⟨it',s₁,hnth,-,hp⟩ := hinv.nthIter hlen.ge
    rw [hnth] at hit
    obtain rfl : it' = it := hit
    rw [List.drop_eq_nil_of_le hlen.le] at hp
    obtain rfl := hp.eq_last
    refine iff_of_false (fun hkeeps => ?_) (fun hne => hne rfl)
    obtain ⟨hsame,hmoved⟩ := hinv.insert_last hcfg x
    have hvisits := hkeeps.2
    rw [List.drop_eq_nil_of_le (length_orient rev l).le,hsame] at hvisits
    exact not_visits_nil hmoved hvisits

theorem Represents.eraseAdvances_iff (h : Represents cfg rev s l) (hcfg : cfg.Valid) {i : ℕ} (hi : i < l.length)
    (hit : (s.nthIter (resident T) cfg rev i).1 = it) : EraseAdvances cfg rev s l i it ↔ ¬EndsChunk s rev it := by
  obtain ⟨front,back,L,hinv,hitems⟩ := h
  obtain ⟨it',s₁,y,hnth,hp,-⟩ := hinv.nthItem hitems hi
  rw [hnth] at hit
  obtain rfl : it' = it := hit
  obtain ⟨it1,s',L',herase,hinv',-,hgood,hbad⟩ := hinv.erase hcfg hp
  rw [EraseAdvances,herase]
  constructor
  · intro hvisits hends
    obtain ⟨rfl,hmem⟩ := hbad hends
    exact hinv'.not_visits_last hmem _ hvisits
  · intro hends
    exact ⟨_,hinv'.visit (hgood hends) (Nat.lt_succ_self _)⟩

end

/-- In every list that a run leads to: an insertion is right except at the end, and the position an erasure
returns is right except after the last of several items of a chunk. Items have at most 8149 bytes, so that the
sizes and offsets of a chunk fit the code's integers. -/
theorem iterators_meaningful_iff {T : Type} {itemSize : Fin 8150} {prefetchNumNodes : ℕ} {enableMerge : Bool} {junk : Node ChunkNodePtr}
    {s : Resident T} {l : List T} (h : Run (.ofList itemSize enableMerge false prefetchNumNodes junk) s l) (rev : Bool)
    {i : ℕ} {it : GenericIterator}
    (hit : (s.nthIter (resident T) (.ofList itemSize enableMerge false prefetchNumNodes junk) rev i).1 = it) :
    (i ≤ l.length → ∀ x, InsertKeeps (.ofList itemSize enableMerge false prefetchNumNodes junk) rev s l i it x ↔
      it ≠ (s.endIter (resident T) rev).1) ∧
    (i < l.length → (EraseAdvances (.ofList itemSize enableMerge false prefetchNumNodes junk) rev s l i it ↔
      ¬EndsChunk s rev it)) := by
  have hcfg := Config.ofList_valid itemSize enableMerge false prefetchNumNodes junk
  have hr := (h.represents hcfg rfl).dir rev
  exact ⟨fun hi => hr.insertKeeps_iff hcfg rfl hi hit,fun hi => hr.eraseAdvances_iff hcfg hi hit⟩

/-- Two items: an insertion at the first and its erasure. -/
theorem iterators_meaningful_first :
    let cfg := Config.ofList 4 true false 0 ⟨⟨0,0⟩,⟨0,0⟩⟩
    let s := ((GenericList.new (resident ℕ) cfg fun _ => .init cfg).push (resident ℕ) cfg true 1).push (resident ℕ) cfg true 2
    let it := (s.nthIter (resident ℕ) cfg false 0).1
    InsertKeeps cfg false s [1,2] 0 it 3 ∧ EraseAdvances cfg false s [1,2] 0 it := by
  intro cfg s it
  have hrun : Run (.ofList (4 : Fin 8150) true false 0 ⟨⟨0,0⟩,⟨0,0⟩⟩) s [1,2] := .push true 2 (.push true 1 (.new _))
  have h := iterators_meaningful_iff hrun false (show (s.nthIter (resident ℕ) cfg false 0).1 = it from rfl)
  exact ⟨(h.1 (by decide) 3).mpr (by decide +kernel),(h.2 (by decide)).mpr (by decide +kernel)⟩

/-- An item inserted at `end` is not visited; the iterator returned when the last of two items is erased is not `end`. -/
theorem insert_end_lost_and_erase_last_not_end :
    let cfg := Config.ofList 4 true false 0 ⟨⟨0,0⟩,⟨0,0⟩⟩
    let s := (GenericList.new (resident ℕ) cfg fun _ => .init cfg).push (resident ℕ) cfg true 1
    let s₁ := (s.insert (resident ℕ) cfg false (s.endIter (resident ℕ) false).1 2).2
    let s₂ := s.push (resident ℕ) cfg true 2
    let r := s₂.erase (resident ℕ) cfg false (s₂.nthIter (resident ℕ) cfg false 1).1
    (s₁.size = 2 ∧ s₁.traverse (resident ℕ) cfg false = some [some 1]) ∧
      r.2.size = 1 ∧ r.1 ≠ (r.2.endIter (resident ℕ) false).1 := by
  decide +kernel

end FarMemory.ChunkedList
