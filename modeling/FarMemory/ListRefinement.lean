import FarMemory.ListErasure

/-!
# Lists refine sequences

For resident chunks. A run starts from a new list and takes any of the operations, at
iterators that denote an item. Next to the list it keeps the sequence that the list
stands for; traversals in both directions and the size agree with it, and the chunks
between the two at the ends are neither empty nor over-full.
-/
namespace FarMemory.ChunkedList
open DoublyLinked ChunkListData

namespace GenericList
variable {σ T : Type} (A : Access σ T) (cfg : Config) (rev : Bool)

/-- `begin` or `rbegin` and some `inc`s. -/
def nthIter : ℕ → GenericList σ → GenericIterator × GenericList σ
  | 0,s => s.beginIter A rev
  | i+1,s =>
    let (it,s) := s.nthIter i
    s.inc A cfg rev it

/-- The items that a loop up to the end reads, for a number of rounds. -/
def visit : ℕ → GenericIterator → GenericList σ → Option (List (Option T))
  | 0,_,_ => none
  | fuel+1,it,s =>
    let (last,s) := s.endIter A rev
    if it = last then some []
    else
      let (x,s) := s.deref A false it
      let (it,s) := s.inc A cfg rev it
      (visit fuel it s).map (x::·)

def traverse (s : GenericList σ) : Option (List (Option T)) :=
  let (it,s) := s.beginIter A rev
  s.visit A cfg rev (s.size+1) it

/-- The nodes of the local list, the two at the ends included. -/
def localNodes (s : GenericList σ) : Option (List ℕ) :=
  follow (fun n => (s.links n).next) localTail (s.size+3) (s.links localHead).next

end GenericList

def ChunkListData.linkedNodes {T : Type} (cfg : Config) (c : ChunkListData T) : Option (List ChunkNodePtr) :=
  follow (fun p => (c.node p).next) c.tailPtr (cfg.numNodesPerChunk+1) (c.first false)

/-- The bits of `kInitMeta_` that are cleared. -/
def ChunkListData.clearedBits {T : Type} (cfg : Config) (c : ChunkListData T) : ℕ :=
  (List.range cfg.numNodesPerChunk).countP fun i => !c.metaWord.testBit i

def orient {α : Type} (rev : Bool) (l : List α) : List α := if rev then l.reverse else l

/-- The lists that some operations lead to, with the sequences they stand for. -/
inductive Run {T : Type} (cfg : Config) : Resident T → List T → Prop
  | new (store : ℕ → ChunkListData T) : Run cfg (.new (resident T) cfg store) []
  | push {s : Resident T} {l : List T} (rev : Bool) (x : T) (h : Run cfg s l) :
      Run cfg (s.push (resident T) cfg rev x) (orient rev (x::orient rev l))
  | pop {s : Resident T} {l : List T} (rev : Bool) (h : Run cfg s l) (hne : l ≠ []) :
      Run cfg (s.pop (resident T) cfg rev) (orient rev (orient rev l).tail)
  | insert {s : Resident T} {l : List T} {it : GenericIterator} {i : ℕ} (rev : Bool) (x : T) (h : Run cfg s l) (hi : i < l.length)
      (hit : (s.nthIter (resident T) cfg rev i).1 = it) :
      Run cfg (s.insert (resident T) cfg rev it x).2 (orient rev ((orient rev l).insertIdx i x))
  | erase {s : Resident T} {l : List T} {it : GenericIterator} {i : ℕ} (rev : Bool) (h : Run cfg s l) (hi : i < l.length)
      (hit : (s.nthIter (resident T) cfg rev i).1 = it) :
      Run cfg (s.erase (resident T) cfg rev it).2 (orient rev ((orient rev l).eraseIdx i))
  | inc {s : Resident T} {l : List T} {it : GenericIterator} {i : ℕ} (rev : Bool) (h : Run cfg s l) (hi : i < l.length)
      (hit : (s.nthIter (resident T) cfg rev i).1 = it) : Run cfg (s.inc (resident T) cfg rev it).2 l
  | dec {s : Resident T} {l : List T} {it : GenericIterator} {i : ℕ} (rev : Bool) (h : Run cfg s l) (hi : i < l.length)
      (hit : (s.nthIter (resident T) cfg rev (i+1)).1 = it) : Run cfg (s.dec (resident T) cfg rev it).2 l

section
variable {T : Type} {cfg : Config} {rev : Bool} {s s' : Resident T} {front back n : ℕ} {L : List ChunkEntry}
  {it : GenericIterator} {xs ys : List (Option T)} {l : List T} {α : Type} {i : ℕ}

/-! ### Sequences and directions -/

@[simp] theorem orient_orient (rev : Bool) (l : List α) : orient rev (orient rev l) = l := by
  cases rev
  · rfl
  · exact List.reverse_reverse l

@[simp] theorem length_orient (rev : Bool) (l : List α) : (orient rev l).length = l.length := by
  cases rev
  · rfl
  · exact List.length_reverse

def Represents (cfg : Config) (rev : Bool) (s : Resident T) (l : List T) : Prop :=
  ∃ front back L, Inv cfg rev s front back L ∧ items s L = (orient rev l).map some

theorem Represents.not (h : Represents cfg rev s l) : Represents cfg (!rev) s l := by
  obtain ⟨front,back,L,h,hitems⟩ := h
  refine ⟨back,front,mirror L,h.mirror,?_⟩
  rw [items,flat_mirror,List.map_reverse]
  change (items s L).reverse = _
  rw [hitems]
  cases rev
  · exact (List.map_reverse).symm
  · simp [orient]

theorem Represents.dir (h : Represents cfg rev s l) (r : Bool) : Represents cfg r s l := by
  by_cases hr : r = rev
  · rwa [hr]
  · rw [Bool.eq_not_of_ne hr]
    exact h.not

theorem SameList.trans {s'' : Resident T} (h : SameList s s') (h' : SameList s' s'') : SameList s s'' := by
  obtain ⟨e,r,i,rfl⟩ := h
  obtain ⟨e',r',i',rfl⟩ := h'
  exact ⟨_,_,_,rfl⟩

theorem SameList.symm (h : SameList s s') : SameList s' s := by
  obtain ⟨e,r,i,rfl⟩ := h
  exact ⟨_,_,_,rfl⟩

theorem SameList.represents (h : SameList s s') (hr : Represents cfg rev s l) : Represents cfg rev s' l := by
  obtain ⟨front,back,L,hinv,hitems⟩ := hr
  exact ⟨front,back,L,h.inv hinv,(h.items L).trans hitems⟩

/-! ### Loops over a list -/

theorem Inv.visit (h : Inv cfg rev s front back L) (hp : Position s rev back L it xs ys) {fuel : ℕ} (hfuel : ys.length < fuel) :
    s.visit (resident T) cfg rev fuel it = some ys := by
  induction ys generalizing s it xs fuel with
  | nil =>
    obtain ⟨fuel,rfl⟩ := Nat.exists_eq_add_of_lt hfuel
    cases hp
    simp only [GenericList.visit,h.toShape.endIter,if_true]
  | cons y ys ih =>
    obtain ⟨fuel,rfl⟩ := Nat.exists_eq_add_of_lt hfuel
    have hne : it ≠ ⟨back,lastPtr rev⟩ := h.toShape.mem_ne (List.mem_of_getElem? hp.getElem?) _
    obtain ⟨it',s',hinc,hsame,hp'⟩ := h.inc hp
    have hrest : s'.visit (resident T) cfg rev ((y::ys).length+fuel) it' = some ys :=
      ih (hsame.inv h) (hsame.position hp') (by simp; omega)
    simp only [GenericList.visit,h.toShape.endIter,if_neg hne,hp.deref,hinc,hrest]
    rfl

theorem Inv.traverse (h : Inv cfg rev s front back L) : s.traverse (resident T) cfg rev = some (items s L) := by
  obtain ⟨it,hbegin,hp⟩ := h.beginIter
  simp only [GenericList.traverse,hbegin]
  refine h.visit hp ?_
  rw [items,List.length_map,h.size_eq]
  exact Nat.lt_succ_self _

theorem Inv.nthIter (h : Inv cfg rev s front back L) (hi : i ≤ (items s L).length) :
    ∃ it s', s.nthIter (resident T) cfg rev i = (it,s') ∧ SameList s s' ∧
      Position s rev back L it ((items s L).take i) ((items s L).drop i) := by
  induction i with
  | zero =>
    obtain ⟨it,hbegin,hp⟩ := h.beginIter
    exact ⟨it,s,hbegin,.refl s,hp⟩
  | succ i ih =>
    obtain ⟨it,s',hit,hsame,hp⟩ := ih (by omega)
    rw [List.drop_eq_getElem_cons (by omega)] at hp
    obtain ⟨it',s'',hinc,hsame',hp'⟩ := (hsame.inv h).inc (hsame.position hp)
    refine ⟨it',s'',?_,hsame.trans hsame',?_⟩
    · simp only [GenericList.nthIter,hit,hinc]
    · rw [List.take_append_getElem] at hp'
      exact hsame.symm.position hp'

/-! ### Runs -/

theorem insertIdx_eq (l : List α) (hi : i ≤ l.length) (x : α) :
    l.insertIdx i x = l.take i++x::l.drop i := by
  induction l generalizing i with
  | nil =>
    obtain rfl := Nat.le_zero.mp hi
    rfl
  | cons a l ih =>
    cases i with
    | zero => rfl
    | succ i => exact congrArg (a::·) (ih (Nat.le_of_succ_le_succ hi))

theorem Inv.nthItem (h : Inv cfg rev s front back L) (hitems : items s L = (orient rev l).map some) (hi : i < l.length) :
    ∃ it s' y, s.nthIter (resident T) cfg rev i = (it,s') ∧
      Position s rev back L it (((orient rev l).take i).map some) (y::((orient rev l).drop (i+1)).map some) ∧
      y::((orient rev l).drop (i+1)).map some = ((orient rev l).drop i).map some := by
  have hlen : (items s L).length = l.length := by rw [hitems,List.length_map,length_orient]
  obtain ⟨it,s',hit,-,hp⟩ := h.nthIter (show i ≤ (items s L).length by omega)
  have hi' : i < (orient rev l).length := by rwa [length_orient]
  rw [hitems,← List.map_take,← List.map_drop,List.drop_eq_getElem_cons hi',List.map_cons] at hp
  refine ⟨it,s',_,hit,hp,?_⟩
  rw [List.drop_eq_getElem_cons hi',List.map_cons]

section
variable (hcfg : cfg.Valid)
include hcfg

theorem Represents.push (h : Represents cfg rev s l) (x : T) :
    Represents cfg rev (s.push (resident T) cfg rev x) (orient rev (x::orient rev l)) := by
  obtain ⟨front,back,L,h,hitems⟩ := h
  obtain ⟨s',L',rfl,h',hitems'⟩ := h.push hcfg x
  refine ⟨front,back,L',h',?_⟩
  rw [hitems',hitems,orient_orient]
  rfl

theorem Represents.pop (h : Represents cfg rev s l) (hne : l ≠ []) :
    Represents cfg rev (s.pop (resident T) cfg rev) (orient rev (orient rev l).tail) := by
  obtain ⟨front,back,L,h,hitems⟩ := h
  rw [Represents,orient_orient]
  cases hl : orient rev l with
  | nil =>
    have hlen := length_orient rev l
    rw [hl] at hlen
    exact absurd (List.eq_nil_of_length_eq_zero hlen.symm) hne
  | cons x m =>
    rw [hl,List.map_cons] at hitems
    obtain ⟨s',L',rfl,h',hitems'⟩ := h.pop hcfg hitems
    exact ⟨front,back,L',h',hitems'⟩

theorem Represents.insert (hplain : cfg.customizedSplit = false) (h : Represents cfg rev s l) {i : ℕ} (hi : i < l.length)
    (hit : (s.nthIter (resident T) cfg rev i).1 = it) (x : T) :
    Represents cfg rev (s.insert (resident T) cfg rev it x).2 (orient rev ((orient rev l).insertIdx i x)) := by
  obtain ⟨front,back,L,h,hitems⟩ := h
  obtain ⟨it',s1,y,hnth,hp,hdrop⟩ := h.nthItem hitems hi
  rw [hnth] at hit
  obtain rfl : it' = it := hit
  obtain ⟨it',s',L',hinsert,h',hp'⟩ := h.insert_item hcfg (fun _ => hplain) hp x
  refine ⟨front,back,L',by rwa [hinsert],?_⟩
  rw [hinsert,orient_orient,insertIdx_eq _ (by rw [length_orient]; omega),← hp'.append,hdrop,List.map_append,List.map_cons,
    List.append_assoc]
  rfl

theorem Represents.erase (h : Represents cfg rev s l) {i : ℕ} (hi : i < l.length)
    (hit : (s.nthIter (resident T) cfg rev i).1 = it) :
    Represents cfg rev (s.erase (resident T) cfg rev it).2 (orient rev ((orient rev l).eraseIdx i)) := by
  obtain ⟨front,back,L,h,hitems⟩ := h
  obtain ⟨it',s1,y,hnth,hp,-⟩ := h.nthItem hitems hi
  rw [hnth] at hit
  obtain rfl : it' = it := hit
  obtain ⟨it',s',L',herase,h',hitems',-⟩ := h.erase hcfg hp
  refine ⟨front,back,L',by rwa [herase],?_⟩
  rw [herase,orient_orient,List.eraseIdx_eq_take_drop_succ,List.map_append]
  exact hitems'

end

theorem Represents.inc (h : Represents cfg rev s l) (hi : i < l.length)
    (hit : (s.nthIter (resident T) cfg rev i).1 = it) : Represents cfg rev (s.inc (resident T) cfg rev it).2 l := by
  have h' := h
  obtain ⟨front,back,L,h,hitems⟩ := h
  obtain ⟨it',s1,y,hnth,hp,-⟩ := h.nthItem hitems hi
  rw [hnth] at hit
  obtain rfl : it' = it := hit
  obtain ⟨it',s',hinc,hsame,-⟩ := h.inc hp
  rw [hinc]
  exact hsame.represents h'

theorem Represents.dec (h : Represents cfg rev s l) (hi : i < l.length)
    (hit : (s.nthIter (resident T) cfg rev (i+1)).1 = it) : Represents cfg rev (s.dec (resident T) cfg rev it).2 l := by
  have h' := h
  obtain ⟨front,back,L,h,hitems⟩ := h
  have hlen : (items s L).length = l.length := by rw [hitems,List.length_map,length_orient]
  obtain ⟨it',s1,hnth,-,hp⟩ := h.nthIter (show i+1 ≤ (items s L).length by omega)
  rw [hnth] at hit
  obtain rfl : it' = it := hit
  rw [← List.take_append_getElem (by omega)] at hp
  obtain ⟨it',s',hdec,hsame,-⟩ := h.dec hp
  rw [hdec]
  exact hsame.represents h'

theorem Run.represents (hcfg : cfg.Valid) (hplain : cfg.customizedSplit = false) (h : Run cfg s l) :
    Represents cfg false s l := by
  induction h with
  | new store =>
    obtain ⟨front,back,hinv⟩ := Inv.new hcfg.max store
    exact ⟨front,back,[],hinv,rfl⟩
  | push r x _ ih => exact ((ih.dir r).push hcfg x).dir false
  | pop r _ hne ih => exact ((ih.dir r).pop hcfg hne).dir false
  | insert r x _ hi hit ih => exact ((ih.dir r).insert hcfg hplain hi hit x).dir false
  | erase r _ hi hit ih => exact ((ih.dir r).erase hcfg hi hit).dir false
  | inc r _ hi hit ih => exact ((ih.dir r).inc hi hit).dir false
  | dec r _ hi hit ih => exact ((ih.dir r).dec hi hit).dir false

/-! ### Counts -/

theorem ChunkListData.WF.linkedNodes {c : ChunkListData T} {ps : List ChunkNodePtr} (h : WF cfg false c ps)
    (hlen : ps.length ≤ cfg.numNodesPerChunk) : c.linkedNodes cfg = some ps := by
  have hfollow := h.linked.follow (Nat.lt_succ_of_le hlen)
  have hhead : c.first false = (c.links (c.last true).addrOffset).ahead false := by
    change (c.links headOffset).next = (c.links c.headPtr.addrOffset).next
    rw [h.headPtr]
  rw [ChunkListData.linkedNodes,hhead]
  exact hfollow

theorem ChunkListData.WF.clearedBits {c : ChunkListData T} {ps : List ChunkNodePtr} (h : WF cfg rev c ps) :
    c.clearedBits cfg = ps.length := by
  have hperm : (((List.range cfg.numNodesPerChunk).filter fun i => !c.metaWord.testBit i).map cfg.nodePtr).Perm ps := by
    refine (List.perm_ext_iff_of_nodup ?_ h.nodup).mpr fun p => ?_
    · exact (List.nodup_range.filter _).map fun i j hij => Config.nodePtr_inj.mp hij
    · simp only [List.mem_map,List.mem_filter,List.mem_range,h.free,Bool.not_eq_true',decide_eq_false_iff_not,not_and,not_not]
      constructor
      · rintro ⟨i,⟨hi,hmem⟩,rfl⟩
        exact hmem hi
      · intro hp
        obtain ⟨i,hi,rfl⟩ := h.nodes p hp
        exact ⟨i,⟨hi,fun _ => hp⟩,rfl⟩
  rw [ChunkListData.clearedBits,List.countP_eq_length_filter,← hperm.length_eq,List.length_map]

theorem Inv.localNodes (h : Inv cfg false s front back L) : s.localNodes = some (front::(L.map Prod.fst++[back])) := by
  have hlen : L.length ≤ s.size := by
    have hone : ∀ k ∈ L.map fun e => e.2.length, 1 ≤ k := by
      intro k hk
      obtain ⟨e,he,rfl⟩ := List.mem_map.mp hk
      exact List.length_pos_iff.mpr (h.filled e he).1
    have := List.length_le_sum_of_one_le _ hone
    rwa [List.length_map,← h.size] at this
  have hl : Linked id false s.links (localHead::((front::(L.map Prod.fst++[back]))++[localTail])) := by
    have := h.linked
    rwa [show L.map Prod.fst++[back,outer false] = (L.map Prod.fst++[back])++[localTail] by simp [outer],← List.cons_append] at this
  refine hl.follow ?_
  simp only [List.length_cons,List.length_append,List.length_map,List.length_nil]
  omega

/-- The nodes of the local list but for the two at the ends have chunks with as many items as they count. -/
def ChunksCounted (cfg : Config) (s : Resident T) : Prop :=
  ∃ front ns back, s.localNodes = some (front::(ns++[back])) ∧ ∀ n ∈ ns, ∃ ps,
    (s.chunk (resident T) n).linkedNodes cfg = some ps ∧ 1 ≤ s.cnt n ∧ s.cnt n ≤ cfg.numNodesPerChunk ∧
      s.cnt n = ps.length ∧ s.cnt n = (s.chunk (resident T) n).clearedBits cfg

theorem Inv.chunksCounted (h : Inv cfg false s front back L) : ChunksCounted cfg s := by
  refine ⟨front,L.map Prod.fst,back,h.localNodes,fun n hn => ?_⟩
  obtain ⟨⟨n,ps⟩,he,rfl⟩ := List.mem_map.mp hn
  have hwf := h.chunks _ he
  obtain ⟨hne,hle⟩ := h.filled _ he
  have hcnt : s.cnt n = ps.length := h.cnt _ he
  refine ⟨ps,hwf.linkedNodes hle,?_,?_,hcnt,?_⟩
  · rw [hcnt]
    exact List.length_pos_iff.mpr hne
  · rw [hcnt]
    exact hle
  · rw [hcnt]
    exact hwf.clearedBits.symm

end

/-- Whatever the run, traversals and the size are those of the sequence and the chunks are counted. -/
theorem refines_sequence {T : Type} {itemSize prefetchNumNodes : ℕ} {enableMerge : Bool} {junk : Node ChunkNodePtr}
    {s : Resident T} {l : List T} (h : Run (.ofList itemSize enableMerge false prefetchNumNodes junk) s l) :
    s.traverse (resident T) (.ofList itemSize enableMerge false prefetchNumNodes junk) false = some (l.map some) ∧
      s.traverse (resident T) (.ofList itemSize enableMerge false prefetchNumNodes junk) true = some (l.reverse.map some) ∧
      s.size = l.length ∧ ChunksCounted (.ofList itemSize enableMerge false prefetchNumNodes junk) s := by
  have hr := h.represents (Config.ofList_valid _ _ _ _ _) rfl
  obtain ⟨back,front,L',h',hitems'⟩ := hr.dir true
  obtain ⟨front,back,L,h,hitems⟩ := hr
  refine ⟨?_,?_,?_,h.chunksCounted⟩
  · rw [h.traverse,hitems]
    rfl
  · rw [h'.traverse,hitems']
    rfl
  · rw [h.size_eq,← List.length_map (itemOf s)]
    exact (congrArg List.length hitems).trans (List.length_map _)

/-- Two items pushed back, another inserted at `rbegin`, and the first popped. -/
theorem refines_sequence_rbegin :
    let cfg := Config.ofList 4 true false 0 ⟨⟨0,0⟩,⟨0,0⟩⟩
    let s := ((GenericList.new (resident ℕ) cfg fun _ => .init cfg).push (resident ℕ) cfg true 1).push (resident ℕ) cfg true 2
    let s := (s.insert (resident ℕ) cfg true (s.nthIter (resident ℕ) cfg true 0).1 3).2
    let s := s.pop (resident ℕ) cfg false
    s.traverse (resident ℕ) cfg false = some [some 2,some 3] ∧ s.traverse (resident ℕ) cfg true = some [some 3,some 2] ∧
      s.size = 2 ∧ ChunksCounted cfg s :=
  refines_sequence (.pop false (.insert true 3 (.push true 2 (.push true 1 (.new _))) (by decide) rfl) (by decide))

end FarMemory.ChunkedList
