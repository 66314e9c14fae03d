import FarMemory.DeviceWire
import FarMemory.Execution

/-!
# The life of a data structure

A client data structure takes an id from the queue of available ones, has the server
build its remote part under this id, and on its end gives the id back and has the
server drop the remote part. Whoever takes the id next may reach the server first.

An array has its items behind far-memory pointers. They are released one by one after
the remote part is gone; until then the collector writes back those that are present
and dirty, under the array's id, and an id without a remote part stands for the
vanilla pointers.

Every call of `allocate_ds_id`, `free_ds_id` and of the device is one step. What other
data structures do with their own remote part is left open. Items that stay where they
are, because the collector copies them to another region, take no step.
-/
namespace FarMemory.DataStructures
open DeviceWire Execution WireBuffer Function
open PointerMeta (kVanillaPtrDSID)

/-- The constructor's loop stops before the largest value of its counter. -/
def availableDsIds : List ℕ := (List.range (2^8-1)).filter (· ≠ kVanillaPtrDSID)

inductive Phase
  | allocated
  | constructed
  | freed
  | destructed
  deriving DecidableEq, Repr

structure Item where
  data : Bytes
  dirty : Bool
  deriving DecidableEq, Repr

structure Client where
  dsId : ℕ
  phase : Phase
  items : ℕ → Option Item

namespace Client

/-- The id has not been given back. -/
def holds (cl : Client) : Bool := cl.phase == .allocated || cl.phase == .constructed

/-- The remote part has been built and not been dropped. -/
def occupies (cl : Client) : Bool := cl.phase == .constructed || cl.phase == .freed

def setItem (cl : Client) (i : ℕ) (item : Option Item) : Client := {cl with items := update cl.items i item}

end Client

/-- A `BUG_ON` of the server takes it `down`. -/
structure State (δ : Type) where
  available : List ℕ
  server : Server δ
  clients : List Client
  down : Bool

inductive Op (δ : Type)
  | allocateDsId
  | construct (c : ℕ) (dsType : UInt8) (params : Bytes)
  | freeDsId (c : ℕ)
  | destruct (c : ℕ)
  | load (c i : ℕ) (item : Item)
  | writeBack (c i : ℕ)
  | release (c i : ℕ)
  | access (dsId : ℕ) (d : δ)

inductive Outcome
  | done
  | bugOn
  deriving DecidableEq, Repr

/-- The eight bytes of an index, as they lie in memory. -/
def objId (i : ℕ) : Bytes := (List.range 8).map fun k => UInt8.ofNat (i/256^k)

section
variable {δ : Type} (V : ServerDS δ)

def init (vanilla : δ) : State δ where
  available := availableDsIds
  server := fun j => if j = kVanillaPtrDSID then some vanilla else none
  clients := []
  down := false

def allocateDsId (s : State δ) : Option (Outcome × State δ) :=
  match s.available with
  | [] => none
  | dsId::rest => some (.done,{s with available := rest, clients := s.clients++[⟨dsId,.allocated,fun _ => none⟩]})

def setPhase (s : State δ) (c : ℕ) (cl : Client) (phase : Phase) : State δ :=
  {s with clients := s.clients.set c {cl with phase := phase}}

def construct (s : State δ) (c : ℕ) (cl : Client) (dsType : UInt8) (params : Bytes) : Option (Outcome × State δ) :=
  if (s.server cl.dsId).isSome then some (.bugOn,{s with down := true})
  else (s.server.construct V dsType cl.dsId params).map fun S =>
    (.done,{setPhase s c cl .constructed with server := S})

def freeDsId (s : State δ) (c : ℕ) (cl : Client) : State δ :=
  {setPhase s c cl .freed with available := s.available++[cl.dsId]}

def destruct (s : State δ) (c : ℕ) (cl : Client) : Outcome × State δ :=
  match s.server.destruct cl.dsId with
  | none => (.bugOn,{s with down := true})
  | some S => (.done,{setPhase s c cl .destructed with server := S})

def setItem (s : State δ) (c : ℕ) (cl : Client) (i : ℕ) (item : Option Item) : State δ :=
  {s with clients := s.clients.set c (cl.setItem i item)}

/-- `swap_out` of an item: the write to the device, if it is dirty, and the pointer made remote. -/
def writeBack (s : State δ) (c : ℕ) (cl : Client) (i : ℕ) : Option (Outcome × State δ) :=
  match cl.items i with
  | none => none
  | some item =>
    if item.dirty then
      (s.server.writeObject V cl.dsId (objId i) item.data).map fun S =>
        (.done,{setItem s c cl i none with server := S})
    else some (.done,setItem s c cl i none)

/-- A step of the data structure `cl` at position `c`. -/
def clientStep (s : State δ) (c : ℕ) (phase : Phase) (f : Client → Option (Outcome × State δ)) :
    Option (Outcome × State δ) :=
  match s.clients[c]? with
  | none => none
  | some cl => if cl.phase = phase then f cl else none

def step (s : State δ) (op : Op δ) : Option (Outcome × State δ) :=
  if s.down then none
  else
    match op with
    | .allocateDsId => allocateDsId s
    | .construct c dsType params => clientStep s c .allocated fun cl => construct V s c cl dsType params
    | .freeDsId c => clientStep s c .constructed fun cl => some (.done,freeDsId s c cl)
    | .destruct c => clientStep s c .freed fun cl => some (destruct s c cl)
    -- an item is allocated, swapped in, written to or flushed
    | .load c i item => clientStep s c .constructed fun cl => some (.done,setItem s c cl i (some item))
    | .writeBack c i => (s.clients[c]?).bind fun cl => writeBack V s c cl i
    | .release c i => clientStep s c .destructed fun cl => some (.done,setItem s c cl i none)
    | .access j d => if (s.server j).isSome then some (.done,{s with server := update s.server j (some d)}) else none

/-- How many ids are taken, and how many data structures have not come to their end. -/
def holding (s : State δ) : ℕ := s.clients.countP Client.holds
def unfinished (s : State δ) : ℕ := s.clients.countP fun cl => cl.phase != .destructed

/-- With this data structure no more than so many are live. -/
def Below (live : State δ → ℕ) (n : ℕ) (s : State δ) : Op δ → Prop
  | .allocateDsId => live s < n
  | _ => True

instance (live : State δ → ℕ) (n : ℕ) (s : State δ) (op : Op δ) : Decidable (Below live n s op) :=
  match op with
  | .allocateDsId => inferInstanceAs (Decidable (live s < n))
  | .construct _ _ _ => inferInstanceAs (Decidable True)
  | .freeDsId _ => inferInstanceAs (Decidable True)
  | .destruct _ => inferInstanceAs (Decidable True)
  | .load _ _ _ => inferInstanceAs (Decidable True)
  | .writeBack _ _ => inferInstanceAs (Decidable True)
  | .release _ _ => inferInstanceAs (Decidable True)
  | .access _ _ => inferInstanceAs (Decidable True)

end

/-! ### Ids and slots -/

def tally (p : Client → Bool) (x : ℕ) (l : List Client) : ℕ := l.countP fun cl => p cl && cl.dsId == x

section
variable {p : Client → Bool} {x c : ℕ} {l : List Client} {cl : Client}

def share (p : Client → Bool) (x : ℕ) (cl : Client) : ℕ := if p cl && cl.dsId == x then 1 else 0

theorem tally_set (p : Client → Bool) (x : ℕ) (cl' : Client) (h : l[c]? = some cl) :
    tally p x (l.set c cl')+share p x cl = tally p x l+share p x cl' := by
  obtain ⟨hlt,rfl⟩ := List.getElem?_eq_some_iff.mp h
  have hpos : share p x l[c] ≤ tally p x l := by
    unfold share tally
    split
    · exact List.countP_pos_iff.mpr ⟨l[c],List.getElem_mem hlt,‹_›⟩
    · exact Nat.zero_le _
  rw [tally,List.countP_set hlt]
  change tally p x l-share p x l[c]+share p x cl'+share p x l[c] = _
  omega

theorem tally_append : tally p x (l++[cl]) = tally p x l+share p x cl := by
  simp only [tally,share,List.countP_append,List.countP_singleton]

theorem nodup_of_tally (h : ∀ x, tally p x l ≤ 1) : ((l.filter p).map Client.dsId).Nodup := by
  refine List.nodup_iff_count_le_one.mpr fun x => ?_
  rw [List.count_eq_countP,List.countP_map,List.countP_filter]
  refine le_trans (le_of_eq (List.countP_congr fun cl _ => ?_)) (h x)
  simp [and_comm]

theorem exists_of_tally (h : tally p x l ≠ 0) : ∃ cl ∈ l, p cl = true ∧ cl.dsId = x := by
  obtain ⟨cl,hcl,hp⟩ := List.countP_pos_iff.mp (Nat.pos_of_ne_zero h)
  simp only [Bool.and_eq_true,beq_iff_eq] at hp
  exact ⟨cl,hcl,hp⟩

theorem tally_ne_zero (hcl : cl ∈ l) (hp : p cl = true) : tally p cl.dsId l ≠ 0 :=
  Nat.ne_of_gt (List.countP_pos_iff.mpr ⟨cl,hcl,by simp [hp]⟩)

end

/-- Every id is either available or taken, by one data structure. The occupied slots of the server
are those of the vanilla pointers and of the data structures whose remote part is there. -/
structure Inv {δ : Type} (s : State δ) : Prop where
  ids : ∀ cl ∈ s.clients, cl.dsId ∈ availableDsIds
  pool : ∀ x, s.available.count x+tally Client.holds x s.clients = availableDsIds.count x
  vanilla : (s.server kVanillaPtrDSID).isSome = true
  slots : ∀ x ∈ availableDsIds, tally Client.occupies x s.clients = (s.server x).isSome.toNat

theorem mem_availableDsIds {x : ℕ} : x ∈ availableDsIds ↔ x ≠ kVanillaPtrDSID ∧ x < kMaxNumDSIDs := by
  simp only [availableDsIds,List.mem_filter,List.mem_range,decide_eq_true_eq,kMaxNumDSIDs]
  omega

theorem availableDsIds_length : availableDsIds.length = 254 := by decide +kernel

theorem availableDsIds_nodup : availableDsIds.Nodup := List.nodup_range.filter _

section
variable {δ : Type} {V : ServerDS δ} {s s' : State δ} {c : ℕ} {cl : Client} {S : Server δ} {o : Outcome}

theorem init_inv (vanilla : δ) : Inv (init vanilla) := by
  refine ⟨nofun,fun x => ?_,rfl,fun x hx => ?_⟩
  · rfl
  · have hne := (mem_availableDsIds.mp hx).1
    simp [init,hne,tally]

theorem Inv.update (cl' : Client) (h : Inv s) (hc : s.clients[c]? = some cl) (hid : cl'.dsId = cl.dsId)
    (hclients : s'.clients = s.clients.set c cl')
    (hpool : s'.available.count cl.dsId+cl'.holds.toNat = s.available.count cl.dsId+cl.holds.toNat)
    (hothers : ∀ x, x ≠ cl.dsId → s'.available.count x = s.available.count x ∧ (s'.server x).isSome = (s.server x).isSome)
    (hslot : (s'.server cl.dsId).isSome.toNat+cl.occupies.toNat = (s.server cl.dsId).isSome.toNat+cl'.occupies.toNat) :
    Inv s' := by
  have hmem : cl ∈ s.clients := List.mem_of_getElem? hc
  have hshare : ∀ (p : Client → Bool) (cl : Client), share p cl.dsId cl = (p cl).toNat := by
    intro p cl
    cases hp : p cl <;> simp [share,hp]
  have hother : ∀ (p : Client → Bool) (cl : Client) x, x ≠ cl.dsId → share p x cl = 0 := by
    intro p cl x hx
    simp [share,Ne.symm hx]
  refine ⟨fun cl1 h₁ => ?_,fun x => ?_,?_,fun x hx => ?_⟩
  · rw [hclients] at h₁
    rcases List.mem_or_eq_of_mem_set h₁ with h₁ | rfl
    · exact h.ids cl1 h₁
    · rw [hid]
      exact h.ids cl hmem
  · have hset := tally_set Client.holds x cl' hc
    have hall := h.pool x
    rw [hclients]
    by_cases hx : x = cl.dsId
    · subst hx
      rw [hshare,← hid,hshare,hid] at hset
      omega
    · rw [hother _ _ _ hx,hother _ cl' _ (hid ▸ hx)] at hset
      have := (hothers x hx).1
      omega
  · rw [(hothers _ (Ne.symm (mem_availableDsIds.mp (h.ids cl hmem)).1)).2]
    exact h.vanilla
  · have hset := tally_set Client.occupies x cl' hc
    have hall := h.slots x hx
    rw [hclients]
    by_cases hx' : x = cl.dsId
    · subst hx'
      rw [hshare,← hid,hshare,hid] at hset
      omega
    · rw [hother _ _ _ hx',hother _ cl' _ (hid ▸ hx')] at hset
      rw [(hothers x hx').2]
      omega

theorem Inv.setDown (h : Inv s) (down : Bool) : Inv {s with down := down} := ⟨h.ids,h.pool,h.vanilla,h.slots⟩

/-! ### Steps -/

theorem clientStep_some {phase : Phase} {f : Client → Option (Outcome × State δ)} {r : Outcome × State δ}
    (h : clientStep s c phase f = some r) : ∃ cl, s.clients[c]? = some cl ∧ cl.phase = phase ∧ f cl = some r := by
  unfold clientStep at h
  split at h
  · cases h
  · rename_i cl hc
    split at h
    · exact ⟨cl,hc,‹_›,h⟩
    · cases h

theorem holder_some {dsId j : ℕ} {d : δ} (h : S.holder dsId = some (j,d)) :
    S j = some d ∧ (S dsId = some d ∧ j = dsId ∨ S dsId = none ∧ j = kVanillaPtrDSID) := by
  obtain ⟨-,h⟩ := Option.ite_none_right_eq_some.mp h
  split at h
  · rename_i hS
    cases h
    exact ⟨hS,.inl ⟨hS,rfl⟩⟩
  · rename_i hS
    obtain ⟨d',hd',⟨⟩⟩ := Option.map_eq_some_iff.mp h
    exact ⟨hd',.inr ⟨hS,rfl⟩⟩

theorem writeObject_some {S' : Server δ} {dsId : ℕ} {id data : Bytes} (h : S.writeObject V dsId id data = some S') :
    ∃ j d d', S.holder dsId = some (j,d) ∧ V.writeObject d id data = some d' ∧ S' = update S j (some d') := by
  unfold Server.writeObject at h
  split at h
  · cases h
  · rename_i j d hholder
    obtain ⟨d',hd',rfl⟩ := Option.map_eq_some_iff.mp h
    exact ⟨j,d,d',hholder,hd',rfl⟩

theorem isSome_update {j : ℕ} {d : δ} (h : (S j).isSome = true) (x : ℕ) :
    (update S j (some d) x).isSome = (S x).isSome := by
  by_cases hx : x = j
  · subst hx
    rw [update_self,h]
    rfl
  · rw [update_of_ne hx]

theorem Inv.contents (h : Inv s) (hS : ∀ x, (S x).isSome = (s.server x).isSome) :
    Inv {s with server := S} := by
  refine ⟨h.ids,h.pool,?_,fun x hx => ?_⟩
  · rw [hS]
    exact h.vanilla
  · rw [hS]
    exact h.slots x hx

theorem Inv.setItem (h : Inv s) (hc : s.clients[c]? = some cl) (i : ℕ) (item : Option Item) :
    Inv (setItem s c cl i item) :=
  h.update (cl.setItem i item) hc rfl rfl rfl (fun _ _ => ⟨rfl,rfl⟩) rfl

theorem allocateDsId_inv (h : Inv s) (hstep : allocateDsId s = some (o,s')) : Inv s' := by
  unfold allocateDsId at hstep
  split at hstep
  · cases hstep
  rename_i dsId rest havail
  cases hstep
  have hpool := h.pool
  rw [havail] at hpool
  have hmem : dsId ∈ availableDsIds := by
    refine List.count_pos_iff.mp ?_
    have := hpool dsId
    rw [List.count_cons_self] at this
    omega
  refine ⟨fun cl hcl => ?_,fun x => ?_,h.vanilla,fun x hx => ?_⟩
  · rcases List.mem_append.mp hcl with hcl | hcl
    · exact h.ids cl hcl
    · rw [List.mem_singleton.mp hcl]
      exact hmem
  · have := hpool x
    rw [List.count_cons] at this
    rw [tally_append]
    simp only [share,Client.holds,beq_self_eq_true,Bool.true_or,Bool.true_and]
    omega
  · rw [tally_append,h.slots x hx]
    rfl

theorem construct_inv {dsType : UInt8} {params : Bytes} (h : Inv s) (hc : s.clients[c]? = some cl)
    (hphase : cl.phase = .allocated) (hstep : construct V s c cl dsType params = some (o,s')) : Inv s' := by
  unfold construct at hstep
  split at hstep
  · cases hstep
    exact h.setDown true
  rename_i hfree
  obtain ⟨S,hS,⟨⟩⟩ := Option.map_eq_some_iff.mp hstep
  obtain ⟨-,hS⟩ := Option.ite_none_right_eq_some.mp hS
  obtain ⟨d,-,rfl⟩ := Option.map_eq_some_iff.mp hS
  refine h.update {cl with phase := .constructed} hc rfl rfl ?_ (fun x hx => ⟨rfl,?_⟩) ?_
  · simp [setPhase,Client.holds,hphase]
  · exact congrArg _ (update_of_ne hx _ _)
  · simp [Client.occupies,hphase,Bool.not_eq_true _ ▸ hfree]

theorem freeDsId_inv (h : Inv s) (hc : s.clients[c]? = some cl) (hphase : cl.phase = .constructed) :
    Inv (freeDsId s c cl) := by
  refine h.update {cl with phase := .freed} hc rfl rfl ?_ (fun x hx => ⟨?_,rfl⟩) ?_
  · simp [freeDsId,Client.holds,hphase]
  · simp [freeDsId,List.count_append,Ne.symm hx]
  · simp [Client.occupies,hphase,freeDsId,setPhase]

theorem Inv.occupied (h : Inv s) (hcl : cl ∈ s.clients) (ho : cl.occupies = true) :
    (s.server cl.dsId).isSome = true := by
  have hslot := h.slots _ (h.ids cl hcl)
  have hne := tally_ne_zero hcl ho
  cases hs : (s.server cl.dsId).isSome with
  | true => rfl
  | false =>
    rw [hs] at hslot
    exact absurd hslot hne

theorem destruct_inv (h : Inv s) (hc : s.clients[c]? = some cl) (hphase : cl.phase = .freed)
    (hstep : destruct s c cl = (o,s')) : o = .done ∧ Inv s' := by
  have hmem : cl ∈ s.clients := List.mem_of_getElem? hc
  have hsome := h.occupied hmem (by simp [Client.occupies,hphase])
  have hlt := (mem_availableDsIds.mp (h.ids cl hmem)).2
  have hS : s.server.destruct cl.dsId = some (update s.server cl.dsId none) := if_pos ⟨hlt,hsome⟩
  rw [destruct,hS] at hstep
  cases hstep
  refine ⟨rfl,h.update {cl with phase := .destructed} hc rfl rfl ?_ (fun x hx => ⟨rfl,?_⟩) ?_⟩
  · simp only [setPhase,Client.holds,hphase]
    rfl
  · exact congrArg _ (update_of_ne hx _ _)
  · simp [Client.occupies,hphase,hsome]

theorem writeBack_inv {i : ℕ} (h : Inv s) (hc : s.clients[c]? = some cl)
    (hstep : writeBack V s c cl i = some (o,s')) : Inv s' := by
  unfold writeBack at hstep
  split at hstep
  · cases hstep
  split at hstep
  · obtain ⟨S,hS,⟨⟩⟩ := Option.map_eq_some_iff.mp hstep
    obtain ⟨j,d,d',hholder,-,rfl⟩ := writeObject_some hS
    have hj : (s.server j).isSome = true := by rw [(holder_some hholder).1]; rfl
    exact (h.setItem hc i none).contents fun x => isSome_update hj x
  · cases hstep
    exact h.setItem hc i none

theorem step_inv {op : Op δ} (h : Inv s) (hstep : step V s op = some (o,s')) : Inv s' := by
  unfold step at hstep
  split at hstep
  · cases hstep
  cases op with
  | allocateDsId => exact allocateDsId_inv h hstep
  | construct c dsType params =>
    obtain ⟨cl,hc,hphase,hcl⟩ := clientStep_some hstep
    exact construct_inv h hc hphase hcl
  | freeDsId c =>
    obtain ⟨cl,hc,hphase,hcl⟩ := clientStep_some hstep
    cases hcl
    exact freeDsId_inv h hc hphase
  | destruct c =>
    obtain ⟨cl,hc,hphase,hcl⟩ := clientStep_some hstep
    exact (destruct_inv h hc hphase (Option.some.inj hcl)).2
  | load c i item =>
    obtain ⟨cl,hc,-,hcl⟩ := clientStep_some hstep
    cases hcl
    exact h.setItem hc i _
  | writeBack c i =>
    obtain ⟨cl,hc,hcl⟩ := Option.bind_eq_some_iff.mp hstep
    exact writeBack_inv h hc hcl
  | release c i =>
    obtain ⟨cl,hc,-,hcl⟩ := clientStep_some hstep
    cases hcl
    exact h.setItem hc i _
  | access j d =>
    dsimp only at hstep
    split at hstep
    · cases hstep
      exact h.contents fun x => isSome_update ‹_› x
    · cases hstep

/-! ### Handing out ids -/

theorem Inv.live_nodup (h : Inv s) : ((s.clients.filter Client.holds).map Client.dsId).Nodup := by
  refine nodup_of_tally fun x => ?_
  have hpool := h.pool x
  have hone := List.nodup_iff_count_le_one.mp availableDsIds_nodup x
  omega

theorem Inv.available_length (h : Inv s) : s.available.length+holding s = 254 := by
  have hperm : (s.available++(s.clients.filter Client.holds).map Client.dsId).Perm availableDsIds := by
    refine List.perm_iff_count.mpr fun x => ?_
    rw [List.count_append,← h.pool x,List.count_eq_countP (l := List.map _ _),List.countP_map,List.countP_filter]
    congr 1
    refine List.countP_congr fun cl _ => ?_
    simp [and_comm]
  have hlen := hperm.length_eq
  rw [List.length_append,List.length_map,← List.countP_eq_length_filter,availableDsIds_length] at hlen
  exact hlen

/-- A data structure with an id of its own finds its slot occupied exactly while one that gave this id
back has not had its remote part dropped. -/
theorem Inv.occupied_iff (h : Inv s) (hc : s.clients[c]? = some cl) (hphase : cl.phase = .allocated) :
    (s.server cl.dsId).isSome = true ↔ ∃ cl' ∈ s.clients, cl'.phase = .freed ∧ cl'.dsId = cl.dsId := by
  have hmem : cl ∈ s.clients := List.mem_of_getElem? hc
  have hid := h.ids cl hmem
  have hslot := h.slots _ hid
  constructor
  · intro hsome
    rw [hsome] at hslot
    obtain ⟨cl',hcl',ho,hsame⟩ := exists_of_tally (by rw [hslot]; decide : tally Client.occupies cl.dsId s.clients ≠ 0)
    refine ⟨cl',hcl',?_,hsame⟩
    -- it cannot still hold the id, which has one holder
    have hinj := List.inj_on_of_nodup_map h.live_nodup
    simp only [Client.occupies,Bool.or_eq_true,beq_iff_eq] at ho
    rcases ho with ho | ho
    · have heq := hinj (List.mem_filter.mpr ⟨hcl',by simp [Client.holds,ho]⟩)
        (List.mem_filter.mpr ⟨hmem,by simp [Client.holds,hphase]⟩) hsame
      rw [heq,hphase] at ho
      cases ho
    · exact ho
  · rintro ⟨cl',hcl',hfreed,hsame⟩
    rw [← hsame]
    exact h.occupied hcl' (by simp [Client.occupies,hfreed])

theorem construct_bugOn_iff (hc : s.clients[c]? = some cl) (hphase : cl.phase = .allocated) (hup : s.down = false)
    (dsType : UInt8) (params : Bytes) :
    (∃ s', step V s (.construct c dsType params) = some (.bugOn,s')) ↔ (s.server cl.dsId).isSome = true := by
  have hstep : step V s (.construct c dsType params) = construct V s c cl dsType params := by
    simp [step,hup,clientStep,hc,hphase]
  rw [hstep,construct]
  constructor
  · rintro ⟨s',hs'⟩
    split at hs'
    · assumption
    · obtain ⟨S,-,⟨⟩⟩ := Option.map_eq_some_iff.mp hs'
  · intro hsome
    exact ⟨_,if_pos hsome⟩

/-- Along every run with at most 254 ids taken, there is an id for every new data structure, the ids in
use are distinct and not zero, and the server finds a slot occupied exactly if the data structure that
gave the id back has not been dropped yet. -/
theorem ids_in_use (vanilla : δ) {tr : List (Op δ × Outcome)}
    (htr : Trace (step V) (Below holding 254) (init vanilla) tr s) :
    ((s.clients.filter Client.holds).map Client.dsId).Nodup ∧ (∀ cl ∈ s.clients, cl.dsId ≠ 0) ∧
      (holding s < 254 → s.available ≠ []) ∧
      ∀ c cl dsType params, s.clients[c]? = some cl → cl.phase = .allocated → s.down = false →
        ((∃ s', step V s (.construct c dsType params) = some (.bugOn,s')) ↔
          ∃ cl' ∈ s.clients, cl'.phase = .freed ∧ cl'.dsId = cl.dsId) := by
  have hinv : Inv s := htr.invariant (init_inv vanilla) fun s a b s' _ hs hstep => step_inv hs hstep
  refine ⟨hinv.live_nodup,fun cl hcl => (mem_availableDsIds.mp (hinv.ids cl hcl)).1,fun hlt hnil => ?_,
    fun c cl dsType params hc hphase hup => ?_⟩
  · have hlen := hinv.available_length
    rw [hnil,List.length_nil] at hlen
    omega
  · rw [construct_bugOn_iff hc hphase hup,hinv.occupied_iff hc hphase]

end

theorem ids_in_use_two_lives : ∃ (tr : List (Op Bytes × Outcome)) (s : State Bytes),
    Trace (step lastWritten) (Below holding 254) (init []) tr s ∧
      ((s.clients.filter Client.holds).map Client.dsId).Nodup ∧ s.clients.map Client.dsId = [1,2] := by
  have hrun : (exec (step lastWritten) (Below holding 254) (init []) [.allocateDsId,.construct 0 0 [],
      .allocateDsId,.freeDsId 0,.construct 1 0 [],.destruct 0]).map
      (fun p => p.2.clients.map Client.dsId) = some [1,2] := by decide +kernel
  obtain ⟨outs,s,htr,hobs⟩ := exec_observe hrun
  exact ⟨_,s,htr,(ids_in_use [] htr).1,hobs⟩

/-! ### The id that comes round again -/

section
variable {tr : List (Op Bytes × Outcome)} {s : State Bytes} {x : ℕ} {rest : List ℕ}

/-- A run in which no more than two data structures exist at any time. -/
abbrev Run (tr : List (Op Bytes × Outcome)) (s : State Bytes) : Prop :=
  Trace (step lastWritten) (Below unfinished 2) (init []) tr s

/-- A data structure that is made and dropped puts the first available id last. -/
theorem life_rotates (h : Run tr s) (havail : s.available = x::rest) (hx : x < kMaxNumDSIDs) (hfree : s.server x = none)
    (hup : s.down = false) (hlive : unfinished s < 2) :
    ∃ tr' s', Run tr' s' ∧ s'.available = rest++[x] ∧ s'.server = s.server ∧ s'.down = false ∧
      unfinished s' = unfinished s := by
  let c := s.clients.length
  have hget : ∀ cl : Client, (s.clients++[cl])[c]? = some cl := fun cl => by simp [c]
  have hset : ∀ cl cl' : Client, (s.clients++[cl]).set c cl' = s.clients++[cl'] := fun cl cl' => by simp [c]
  let s₁ : State Bytes := ⟨rest,s.server,s.clients++[⟨x,.allocated,fun _ => none⟩],false⟩
  let s₂ : State Bytes := ⟨rest,update s.server x (some []),s.clients++[⟨x,.constructed,fun _ => none⟩],false⟩
  let s3 : State Bytes := ⟨rest++[x],s₂.server,s.clients++[⟨x,.freed,fun _ => none⟩],false⟩
  let s4 : State Bytes := ⟨rest++[x],s.server,s.clients++[⟨x,.destructed,fun _ => none⟩],false⟩
  have h₁ : step lastWritten s .allocateDsId = some (.done,s₁) := by
    simp [step,hup,allocateDsId,havail,s₁]
  have h2 : step lastWritten s₁ (.construct c 0 []) = some (.done,s₂) := by
    simp [step,clientStep,construct,Server.construct,lastWritten,setPhase,hget,hset,hfree,hx,s₁,s₂]
  have h3 : step lastWritten s₂ (.freeDsId c) = some (.done,s3) := by
    simp [step,clientStep,freeDsId,setPhase,hget,hset,s₂,s3]
  have h4 : step lastWritten s3 (.destruct c) = some (.done,s4) := by
    have hback : update (update s.server x (some [])) x none = s.server := by
      rw [update_idem,← hfree,update_eq_self]
    simp [step,clientStep,destruct,Server.destruct,setPhase,hget,hset,hx,hback,s₂,s3,s4]
  have hbelow : Below unfinished 2 s .allocateDsId := hlive
  have t1 := h.snoc hbelow h₁
  have t2 := t1.snoc (by trivial) h2
  have t3 := t2.snoc (by trivial) h3
  have t4 := t3.snoc (by trivial) h4
  refine ⟨_,s4,t4,rfl,rfl,rfl,?_⟩
  simp [unfinished,s4]

/-- The induction is on the ids that are passed by. -/
theorem lives_rotate {passed : List ℕ} (h : Run tr s) (havail : s.available = passed++rest)
    (hpassed : ∀ x ∈ passed, x < kMaxNumDSIDs ∧ s.server x = none) (hup : s.down = false) (hlive : unfinished s < 2) :
    ∃ tr' s', Run tr' s' ∧ s'.available = rest++passed ∧ s'.server = s.server ∧ s'.down = false ∧
      unfinished s' = unfinished s := by
  induction passed generalizing tr s rest with
  | nil => exact ⟨tr,s,h,by simp [havail],rfl,hup,rfl⟩
  | cons x passed ih =>
    obtain ⟨hx,hfree⟩ := hpassed x List.mem_cons_self
    obtain ⟨tr₁,s₁,h₁,havail₁,hserver₁,hup₁,hlive₁⟩ := life_rotates h (havail.trans (List.cons_append ..)) hx hfree hup
      hlive
    rw [List.append_assoc] at havail₁
    have hpassed1 : ∀ y ∈ passed, y < kMaxNumDSIDs ∧ s₁.server y = none := by
      rw [hserver₁]
      exact fun y hy => hpassed y (List.mem_cons_of_mem x hy)
    obtain ⟨tr2,s₂,h2,havail2,hserver2,hup2,hlive2⟩ := ih h₁ havail₁ hpassed1 hup₁ (hlive₁ ▸ hlive)
    refine ⟨tr2,s₂,h2,?_,hserver2.trans hserver₁,hup2,hlive2.trans hlive₁⟩
    rw [havail2,List.append_assoc,List.singleton_append]

/-- One data structure gives its id back and is interrupted there. Another thread makes and drops one
data structure after the other until it is handed the same id, and runs into the server's `BUG_ON`. -/
theorem construct_finds_slot_occupied : ∃ (tr : List (Op Bytes × Outcome)) (s s' : State Bytes),
    Run tr s ∧ step lastWritten s (.construct (s.clients.length-1) 0 []) = some (.bugOn,s') := by
  have hrun : (exec (step lastWritten) (Below unfinished 2) (init []) [.allocateDsId,.construct 0 0 [],.freeDsId 0]).map
      (fun p => (p.2.available,p.2.down,unfinished p.2,(p.2.server 1).isSome,
        decide (∀ x ∈ List.range' 2 253, x < kMaxNumDSIDs ∧ p.2.server x = none))) =
      some (List.range' 2 253++[1],false,1,true,true) := by decide +kernel
  obtain ⟨outs,s,htr,hobs⟩ := exec_observe hrun
  simp only [Prod.mk.injEq,decide_eq_true_eq] at hobs
  obtain ⟨havail,hup,hlive,hone,hpassed⟩ := hobs
  obtain ⟨tr₁,s₁,h₁,havail₁,hserver₁,hup₁,hlive₁⟩ := lives_rotate htr havail hpassed hup (by omega)
  let s₂ : State Bytes := ⟨List.range' 2 253,s₁.server,s₁.clients++[⟨1,.allocated,fun _ => none⟩],false⟩
  have hstep : step lastWritten s₁ .allocateDsId = some (.done,s₂) := by
    simp [step,hup₁,allocateDsId,havail₁,s₂]
  refine ⟨_,s₂,{s₂ with down := true},h₁.snoc (by change unfinished s₁ < 2; omega) hstep,?_⟩
  have hsome : (s₂.server 1).isSome = true := by
    change (s₁.server 1).isSome = true
    rw [hserver₁,hone]
  simp [step,clientStep,construct,hsome,s₂]

end

end FarMemory.DataStructures
