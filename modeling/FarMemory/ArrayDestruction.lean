import FarMemory.DataStructures
import FarMemory.ServerPtr

/-!
# Write-backs around the end of an array

The destructor of an array drops the remote part first and releases the items after
that. The collector may write back a dirty item in between. The server then finds no
data structure under the array's id and takes the item's index for an address in the
store of the vanilla pointers, or finds a new data structure that was given the id.
-/
namespace FarMemory.ArrayDestruction
open DataStructures DeviceWire Execution WireBuffer ByteStore
open PointerMeta (kVanillaPtrDSID)

/-- Slot `j` is the remote part of the data structure at position `c`. -/
def Own {δ : Type} (s : State δ) (c j : ℕ) : Prop := ∃ cl, s.clients[c]? = some cl ∧ cl.dsId = j ∧ cl.occupies = true

def Receives {δ : Type} (V : ServerDS δ) (s s' : State δ) (i : ℕ) (item : Item) (j : ℕ) : Prop :=
  ∃ d d', s.server j = some d ∧ V.writeObject d (objId i) item.data = some d' ∧ s'.server j = some d'

section
variable {δ : Type} {V : ServerDS δ} {s s' : State δ} {c i : ℕ} {cl : Client} {item : Item} {o : Outcome}

theorem writeBack_clean (hstep : writeBack V s c cl i = some (o,s')) (hitem : cl.items i = some item)
    (hclean : item.dirty = false) : s'.server = s.server := by
  simp only [writeBack,hitem,hclean] at hstep
  cases hstep
  rfl

/-- A dirty item goes to one slot: its own if there is something, else that of the vanilla pointers. -/
theorem writeBack_dirty (hstep : writeBack V s c cl i = some (o,s')) (hitem : cl.items i = some item)
    (hdirty : item.dirty = true) :
    ∃ j, (j = cl.dsId ∨ s.server cl.dsId = none ∧ j = kVanillaPtrDSID) ∧ Receives V s s' i item j ∧
      ∀ k ≠ j, s'.server k = s.server k := by
  simp only [writeBack,hitem,hdirty,if_true] at hstep
  obtain ⟨S,hS,⟨⟩⟩ := Option.map_eq_some_iff.mp hstep
  obtain ⟨j,d,d',hholder,hwrite,rfl⟩ := writeObject_some hS
  obtain ⟨hd,hj⟩ := holder_some hholder
  refine ⟨j,?_,⟨d,d',hd,hwrite,Function.update_self _ _ _⟩,fun k hk => Function.update_of_ne hk _ _⟩
  rcases hj with ⟨-,rfl⟩ | hj
  · exact .inl rfl
  · exact .inr hj

/-- In every reachable state, a write-back leaves all other data alone if the item is clean or the remote
part of its data structure is there; else another data structure receives the item. -/
theorem write_back_stays_home (vanilla : δ) {tr : List (Op δ × Outcome)}
    (htr : Trace (step V) (fun _ _ => True) (init vanilla) tr s) (hc : s.clients[c]? = some cl)
    (hitem : cl.items i = some item) (hstep : step V s (.writeBack c i) = some (o,s')) :
    ((item.dirty = true → cl.occupies = true) → ∀ j, ¬Own s c j → s'.server j = s.server j) ∧
    (¬(item.dirty = true → cl.occupies = true) → ∃ j, ¬Own s c j ∧ Receives V s s' i item j) := by
  have hinv : Inv s := htr.invariant (init_inv vanilla) fun s a b s' _ hs hstep => step_inv hs hstep
  have hback : writeBack V s c cl i = some (o,s') := by
    obtain ⟨-,hstep⟩ := Option.ite_none_left_eq_some.mp hstep
    simpa only [hc,Option.bind_some] using hstep
  constructor
  · intro hsafe j hj
    cases hdirty : item.dirty with
    | false => rw [writeBack_clean hback hitem hdirty]
    | true =>
      have hocc := hsafe hdirty
      have hsome := hinv.occupied (List.mem_of_getElem? hc) hocc
      obtain ⟨k,hk,-,hothers⟩ := writeBack_dirty hback hitem hdirty
      refine hothers j fun hjk => hj ?_
      rcases hk with rfl | ⟨hnone,-⟩
      · exact ⟨cl,hc,hjk.symm,hocc⟩
      · rw [hnone] at hsome
        cases hsome
  · intro hunsafe
    rw [Classical.not_imp] at hunsafe
    obtain ⟨j,-,hreceives,-⟩ := writeBack_dirty hback hitem hunsafe.1
    refine ⟨j,?_,hreceives⟩
    rintro ⟨cl',hc',-,hocc⟩
    cases hc.symm.trans hc'
    exact hunsafe.2 hocc

end

/-! ### The store of the vanilla pointers and arrays -/

inductive Store
  | ptr (buf : ℕ → UInt8)
  | array (numItems itemSize : ℕ) (vec : ℕ → UInt8)

/-- The number that lies in memory as these bytes. -/
def littleEndian (bs : Bytes) : ℕ := bs.foldr (fun b n => b.toNat+256*n) 0

theorem readObject_length (buf : ℕ → UInt8) (id : ℕ) : (ServerPtr.readObject buf id).length < 2^16 := by
  rw [ServerPtr.readObject,load_length,decodeLen]
  have := (buf (id+ServerPtr.kDataLenPos)).toNat_lt
  have := (buf (id+ServerPtr.kDataLenPos+1)).toNat_lt
  omega

def kVanillaPtrDSType : UInt8 := 0
def kArrayDSType : UInt8 := 3

/-- `ServerPtr` and `ServerArray`, without the calls of the latter. A copy beyond the end of the array
has no meaning. -/
def stores : ServerDS Store where
  build dsType params :=
    if dsType = kVanillaPtrDSType ∧ params.length = 8 then some (.ptr fun _ => 0)
    else if dsType = kArrayDSType then
      some (.array (littleEndian (params.take 8)) (littleEndian ((params.drop 8).take 4)) fun _ => 0)
    else none
  readObject d id :=
    match d with
    | .ptr buf => some (⟨ServerPtr.readObject buf (littleEndian id),readObject_length _ _⟩,d)
    | .array n k vec =>
      if h : k < 2^16 ∧ (littleEndian id+1)*k ≤ n*k then
        some (⟨load vec (littleEndian id*k) k,by rw [load_length]; exact h.1⟩,d)
      else none
  writeObject d id data :=
    match d with
    | .ptr buf => some (.ptr (ServerPtr.writeObject buf (littleEndian id) id.length data))
    | .array n k vec =>
      if littleEndian id*k+data.length ≤ n*k then some (.array n k (store vec (littleEndian id*k) data)) else none
  removeObject _ _ := none
  compute _ _ _ := none
  call _ _ _ := none

/-- A vanilla object at address 6, the first one of a region, with its length and data. -/
def vanillaStore : Store := .ptr (ServerPtr.writeObject (fun _ => 0) 6 8 [7,7,7,7])

def vanillaObject (s : State Store) : List UInt8 :=
  match s.server kVanillaPtrDSID with
  | some (.ptr buf) => ServerPtr.readObject buf 6
  | _ => []

/-- An array of seven items of four bytes, the last of which has been changed. -/
def useArray : List (Op Store) :=
  [.allocateDsId,.construct 0 kArrayDSType (objId 7++[4,0,0,0]),.load 0 6 ⟨[1,2,3,4],true⟩]

/-- What the runs below look at: the array, the vanilla object, and the object after the write-back. -/
def observe (s : State Store) : List (Bool × Option Item) × List UInt8 × Option (List UInt8) :=
  (s.clients.map fun cl => (cl.occupies,cl.items 6),vanillaObject s,
    (step stores s (.writeBack 0 6)).map fun r => vanillaObject r.2)

theorem observe_spec {s : State Store} {occ : Bool} {item : Item} {before after : List UInt8}
    (h : observe s = ([(occ,some item)],before,some after)) :
    ∃ cl o s', s.clients[0]? = some cl ∧ cl.occupies = occ ∧ cl.items 6 = some item ∧ vanillaObject s = before ∧
      step stores s (.writeBack 0 6) = some (o,s') ∧ vanillaObject s' = after := by
  simp only [observe,Prod.mk.injEq] at h
  obtain ⟨hclients,hbefore,hafter⟩ := h
  obtain ⟨⟨o,s'⟩,hstep,heq⟩ := Option.map_eq_some_iff.mp hafter
  obtain ⟨cl,hcl,hobs⟩ := List.map_eq_singleton_iff.mp hclients
  simp only [Prod.mk.injEq] at hobs
  exact ⟨cl,o,s',by rw [hcl]; rfl,hobs.1,hobs.2,hbefore,hstep,heq⟩

theorem write_back_stays_home_live : ∃ (tr : List (Op Store × Outcome)) (s s' : State Store) (o : Outcome),
    Trace (step stores) (fun _ _ => True) (init vanillaStore) tr s ∧
      step stores s (.writeBack 0 6) = some (o,s') ∧ ∀ j, ¬Own s 0 j → s'.server j = s.server j := by
  have hrun : (exec (step stores) (fun _ _ => True) (init vanillaStore) useArray).map (fun p => observe p.2) =
      some ([(true,some ⟨[1,2,3,4],true⟩)],[7,7,7,7],some [7,7,7,7]) := by decide +kernel
  obtain ⟨outs,s,htr,hobs⟩ := exec_observe hrun
  obtain ⟨cl,o,s',hc,hocc,hitem,-,hstep,-⟩ := observe_spec hobs
  exact ⟨_,s,s',o,htr,hstep,(write_back_stays_home vanillaStore htr hc hitem hstep).1 fun _ => hocc⟩

/-- The array is destroyed; its dirty item overwrites the vanilla object at the address that is the
item's index. -/
theorem write_back_overwrites_vanilla : ∃ (tr : List (Op Store × Outcome)) (s s' : State Store) (o : Outcome),
    Trace (step stores) (fun _ _ => True) (init vanillaStore) tr s ∧
      step stores s (.writeBack 0 6) = some (o,s') ∧ ¬Own s 0 kVanillaPtrDSID ∧
      vanillaObject s = [7,7,7,7] ∧ vanillaObject s' = [1,2,3,4] := by
  have hrun : (exec (step stores) (fun _ _ => True) (init vanillaStore) (useArray++[.freeDsId 0,.destruct 0])).map
      (fun p => observe p.2) = some ([(false,some ⟨[1,2,3,4],true⟩)],[7,7,7,7],some [1,2,3,4]) := by decide +kernel
  obtain ⟨outs,s,htr,hobs⟩ := exec_observe hrun
  obtain ⟨cl,o,s',hc,hocc,-,hbefore,hstep,hafter⟩ := observe_spec hobs
  refine ⟨_,s,s',o,htr,hstep,?_,hbefore,hafter⟩
  rintro ⟨cl',hc',-,hocc'⟩
  cases hc.symm.trans hc'
  rw [hocc] at hocc'
  cases hocc'

end FarMemory.ArrayDestruction
