import Mathlib

/-!
# Circular buffers

A buffer of `capacity` elements has one slot more, and is empty when head and tail
meet. Its content is read off from head to tail. Pushing at the back or at the front
and popping at the front are those of a list, as long as the list is shorter than
the capacity. Stealing moves up to half of another buffer over, one element at a time.

The slots that hold no element keep what was left there: popping moves an element
out, and `moved` says what a move leaves behind.
-/
namespace FarMemory
open Function

structure CircularBuffer (T : Type*) where
  items : ℕ → T
  head : ℕ
  tail : ℕ
  slots : ℕ
  head_lt : head < slots
  tail_lt : tail < slots

namespace CircularBuffer
variable {T : Type*}

def new (fill : T) (size : ℕ) : CircularBuffer T := ⟨fun _ => fill,0,0,size+1,by omega,by omega⟩

def capacity (c : CircularBuffer T) : ℕ := c.slots-1

/-- The size a reader of both positions computes. -/
def sizeOf (slots tail head : ℕ) : ℕ := if tail < head then tail+slots-head else tail-head

def size (c : CircularBuffer T) : ℕ := sizeOf c.slots c.tail c.head

/-- The next `n` elements from a position on. -/
def window (items : ℕ → T) (slots head n : ℕ) : List T := (List.range n).map fun i => items ((head+i)%slots)

def contents (c : CircularBuffer T) : List T := window c.items c.slots c.head c.size

/-- The slots without an element, from the tail on. -/
def vacant (c : CircularBuffer T) : List T := window c.items c.slots c.tail (c.slots-c.size)

def array (c : CircularBuffer T) : List T := (List.range c.slots).map c.items

theorem slots_pos (c : CircularBuffer T) : 0 < c.slots := Nat.zero_lt_of_lt c.head_lt

def pushBack (c : CircularBuffer T) (x : T) : Bool × CircularBuffer T :=
  if (c.tail+1)%c.slots ≠ c.head then
    (true,{c with
      items := update c.items c.tail x
      tail := (c.tail+1)%c.slots
      tail_lt := Nat.mod_lt _ c.slots_pos})
  else (false,c)

def pushFront (c : CircularBuffer T) (x : T) : Bool × CircularBuffer T :=
  if (c.head+c.slots-1)%c.slots ≠ c.tail then
    (true,{c with
      items := update c.items ((c.head+c.slots-1)%c.slots) x
      head := (c.head+c.slots-1)%c.slots
      head_lt := Nat.mod_lt _ c.slots_pos})
  else (false,c)

def popFront (moved : T → T) (c : CircularBuffer T) : Option (T × CircularBuffer T) :=
  if c.head ≠ c.tail then
    some (c.items c.head,{c with
      items := update c.items c.head (moved (c.items c.head))
      head := (c.head+1)%c.slots
      head_lt := Nat.mod_lt _ c.slots_pos})
  else none

/-- One round of the stealing loop: the front of the victim goes behind the thief's tail. -/
def stealOne (thief victim : CircularBuffer T) : CircularBuffer T × CircularBuffer T :=
  ({thief with
      items := update thief.items thief.tail (victim.items victim.head)
      tail := (thief.tail+1)%thief.slots
      tail_lt := Nat.mod_lt _ thief.slots_pos},
   {victim with
      head := (victim.head+1)%victim.slots
      head_lt := Nat.mod_lt _ victim.slots_pos})

def stealLoop : ℕ → CircularBuffer T → CircularBuffer T → CircularBuffer T × CircularBuffer T
  | 0,thief,victim => (thief,victim)
  | n+1,thief,victim => stealLoop n (stealOne thief victim).1 (stealOne thief victim).2

/-- `work_steal` with both locks held. -/
def workSteal (thief victim : CircularBuffer T) : Bool × CircularBuffer T × CircularBuffer T :=
  if victim.size/2 = 0 then (false,thief,victim)
  else (true,stealLoop (min (victim.size/2) (thief.capacity-thief.size)) thief victim)

section
variable {c c' thief victim : CircularBuffer T} {moved : T → T} {x : T} {l : List T}

theorem window_succ (items : ℕ → T) (slots head n : ℕ) :
    window items slots head (n+1) = window items slots head n++[items ((head+n)%slots)] := by
  simp only [window,List.range_succ,List.map_append,List.map_singleton]

theorem window_succ_front (items : ℕ → T) (slots head n : ℕ) :
    window items slots head (n+1) = items (head%slots)::window items slots ((head+1)%slots) n := by
  simp only [window,List.range_succ_eq_map,List.map_cons,List.map_map,Nat.add_zero]
  congr 1
  refine List.map_congr_left fun i _ => ?_
  simp only [Function.comp_apply,Nat.mod_add_mod]
  rw [Nat.add_assoc,Nat.add_comm 1 i]

theorem window_update {items : ℕ → T} {slots head n j : ℕ} (x : T) (h : ∀ i < n, (head+i)%slots ≠ j) :
    window (update items j x) slots head n = window items slots head n :=
  List.map_congr_left fun i hi => update_of_ne (h i (List.mem_range.mp hi)) _ _

theorem mod_slots {a n : ℕ} (h : a < 2*n) : a%n = if a < n then a else a-n := by
  split
  · exact Nat.mod_eq_of_lt ‹_›
  · rw [Nat.mod_eq_sub_mod (by omega),Nat.mod_eq_of_lt (by omega)]

theorem size_lt (c : CircularBuffer T) : c.size < c.slots := by
  have := c.head_lt
  have := c.tail_lt
  unfold size sizeOf
  split <;> omega

theorem sizeOf_eq_zero_iff (c : CircularBuffer T) : c.size = 0 ↔ c.tail = c.head := by
  have := c.head_lt
  have := c.tail_lt
  unfold size sizeOf
  split <;> omega

@[simp] theorem contents_length (c : CircularBuffer T) : c.contents.length = c.size := by simp [contents,window]

theorem contents_eq_nil_iff (c : CircularBuffer T) : c.contents = [] ↔ c.tail = c.head := by
  rw [← List.length_eq_zero_iff,contents_length,sizeOf_eq_zero_iff]

theorem head_add_size (c : CircularBuffer T) : (c.head+c.size)%c.slots = c.tail := by
  have := c.head_lt
  have := c.tail_lt
  rw [mod_slots (by have := c.size_lt; omega)]
  unfold size sizeOf
  split <;> split <;> omega

theorem slot_ne_tail (c : CircularBuffer T) {i : ℕ} (hi : i < c.size) : (c.head+i)%c.slots ≠ c.tail := by
  have := c.head_lt
  have := c.tail_lt
  have := c.size_lt
  rw [← c.head_add_size,mod_slots (by omega),mod_slots (by omega)]
  split <;> split <;> omega

theorem next_tail_ne_head_iff (c : CircularBuffer T) : (c.tail+1)%c.slots ≠ c.head ↔ c.size < c.capacity := by
  have := c.head_lt
  have := c.tail_lt
  rw [mod_slots (by omega)]
  unfold size sizeOf capacity
  split <;> split <;> omega

theorem size_next_tail (h : c.size < c.capacity) : sizeOf c.slots ((c.tail+1)%c.slots) c.head = c.size+1 := by
  have := c.head_lt
  have := c.tail_lt
  unfold capacity size sizeOf at h
  rw [mod_slots (by omega)]
  unfold size sizeOf
  split at h <;> split <;> split <;> omega

theorem contents_extend (h : c.size < c.capacity) (x : T) (hlt : (c.tail+1)%c.slots < c.slots) :
    contents ⟨update c.items c.tail x,c.head,(c.tail+1)%c.slots,c.slots,c.head_lt,hlt⟩ = c.contents++[x] := by
  change window (update c.items c.tail x) c.slots c.head (sizeOf c.slots ((c.tail+1)%c.slots) c.head) = _
  rw [size_next_tail h,window_succ,c.head_add_size,update_self,window_update x fun i hi => c.slot_ne_tail hi]
  rfl

theorem pushBack_of_lt (h : c.size < c.capacity) (x : T) :
    (c.pushBack x).1 = true ∧ (c.pushBack x).2.contents = c.contents++[x] := by
  rw [pushBack,if_pos (c.next_tail_ne_head_iff.mpr h)]
  exact ⟨rfl,contents_extend h x _⟩

theorem pushBack_full (h : ¬c.size < c.capacity) (x : T) : c.pushBack x = (false,c) := by
  rw [pushBack,if_neg (fun hne => h (c.next_tail_ne_head_iff.mp hne))]

theorem size_next_head (h : c.head ≠ c.tail) : sizeOf c.slots c.tail ((c.head+1)%c.slots)+1 = c.size := by
  have := c.head_lt
  have := c.tail_lt
  rw [mod_slots (by omega)]
  unfold size sizeOf
  split <;> split <;> split <;> omega

theorem contents_advance (h : c.head ≠ c.tail) (hlt : (c.head+1)%c.slots < c.slots) :
    c.contents = c.items c.head::contents ⟨c.items,(c.head+1)%c.slots,c.tail,c.slots,hlt,c.tail_lt⟩ := by
  rw [contents,← size_next_head h,window_succ_front,Nat.mod_eq_of_lt c.head_lt]
  rfl

theorem next_slot_ne_head (h : c.head ≠ c.tail) {i : ℕ}
    (hi : i < sizeOf c.slots c.tail ((c.head+1)%c.slots)) : ((c.head+1)%c.slots+i)%c.slots ≠ c.head := by
  have := c.head_lt
  have := c.size_lt
  have := size_next_head h
  rw [Nat.mod_add_mod,mod_slots (by omega)]
  split <;> omega

theorem popFront_some (h : c.popFront moved = some (x,c')) :
    c.contents = x::c'.contents ∧ c'.tail = c.tail ∧ c'.slots = c.slots := by
  rw [popFront] at h
  obtain ⟨hne,h⟩ := Option.ite_none_right_eq_some.mp h
  cases h
  refine ⟨?_,rfl,rfl⟩
  rw [contents_advance hne (Nat.mod_lt _ c.slots_pos)]
  exact congrArg _ (window_update _ fun i hi => next_slot_ne_head hne hi).symm

theorem popFront_none (h : c.popFront moved = none) : c.contents = [] := by
  rw [popFront] at h
  split at h
  · cases h
  · rename_i heq
    rw [contents_eq_nil_iff]
    exact (not_not.mp heq).symm

theorem prev_head (c : CircularBuffer T) :
    (c.head+c.slots-1)%c.slots = if c.head = 0 then c.slots-1 else c.head-1 := by
  have := c.head_lt
  rw [mod_slots (by omega)]
  split <;> split <;> omega

theorem size_prev_head (h : c.size < c.capacity) :
    (c.head+c.slots-1)%c.slots ≠ c.tail ∧ sizeOf c.slots c.tail ((c.head+c.slots-1)%c.slots) = c.size+1 := by
  have := c.head_lt
  have := c.tail_lt
  rw [prev_head]
  unfold capacity size sizeOf at h
  unfold size sizeOf
  by_cases h0 : c.head = 0
  · rw [if_pos h0]
    split at h <;> split <;> omega
  · rw [if_neg h0]
    split at h <;> split <;> omega

theorem pushFront_of_lt (h : c.size < c.capacity) (x : T) :
    (c.pushFront x).1 = true ∧ (c.pushFront x).2.contents = x::c.contents := by
  have hh := c.head_lt
  have hback : ((c.head+c.slots-1)%c.slots+1)%c.slots = c.head := by
    rw [Nat.mod_add_mod,Nat.sub_add_cancel (by omega),Nat.add_mod_right,Nat.mod_eq_of_lt hh]
  have hprev := size_prev_head h
  have hfresh : ∀ i < c.size, (c.head+i)%c.slots ≠ (c.head+c.slots-1)%c.slots := by
    intro i hi
    unfold capacity at h
    rw [mod_slots (by omega),mod_slots (by omega)]
    split <;> split <;> omega
  rw [pushFront,if_pos hprev.1]
  refine ⟨rfl,?_⟩
  change window (update c.items ((c.head+c.slots-1)%c.slots) x) c.slots ((c.head+c.slots-1)%c.slots)
    (sizeOf c.slots c.tail ((c.head+c.slots-1)%c.slots)) = _
  rw [hprev.2,window_succ_front,Nat.mod_mod,update_self,hback,window_update x hfresh]
  rfl

@[simp] theorem pushBack_slots (c : CircularBuffer T) (x : T) : (c.pushBack x).2.slots = c.slots := by
  unfold pushBack
  split <;> rfl

@[simp] theorem pushFront_slots (c : CircularBuffer T) (x : T) : (c.pushFront x).2.slots = c.slots := by
  unfold pushFront
  split <;> rfl

/-! ### The slots without an element -/

theorem window_append (items : ℕ → T) (slots head n m : ℕ) :
    window items slots head (n+m) = window items slots head n++window items slots ((head+n)%slots) m := by
  simp only [window,List.range_add,List.map_append,List.map_map]
  congr 1
  refine List.map_congr_left fun i _ => ?_
  simp only [Function.comp_apply,Nat.mod_add_mod,Nat.add_assoc]

theorem window_perm (items : ℕ → T) {slots head : ℕ} (h : head < slots) :
    (window items slots head slots).Perm ((List.range slots).map items) := by
  have hzero : window items slots 0 slots = (List.range slots).map items := by
    refine List.map_congr_left fun i hi => ?_
    rw [Nat.zero_add,Nat.mod_eq_of_lt (List.mem_range.mp hi)]
  have hsplit := window_append items slots 0 head (slots-head)
  have hturn := window_append items slots head (slots-head) head
  rw [Nat.add_sub_cancel' h.le,Nat.zero_add,Nat.mod_eq_of_lt h] at hsplit
  rw [Nat.sub_add_cancel h.le,Nat.add_sub_cancel' h.le,Nat.mod_self] at hturn
  rw [hturn,← hzero,hsplit]
  exact List.perm_append_comm

theorem array_perm (c : CircularBuffer T) : c.array.Perm (c.contents++c.vacant) := by
  have hall := window_append c.items c.slots c.head c.size (c.slots-c.size)
  rw [Nat.add_sub_cancel' c.size_lt.le,c.head_add_size] at hall
  rw [contents,vacant,← hall]
  exact (window_perm c.items c.head_lt).symm

theorem vacant_ne_tail (c : CircularBuffer T) {i : ℕ} (hi : i < c.slots-c.size-1) :
    ((c.tail+1)%c.slots+i)%c.slots ≠ c.tail := by
  have := c.tail_lt
  rw [Nat.mod_add_mod,mod_slots (by omega)]
  split <;> omega

theorem vacant_ne_head (c : CircularBuffer T) {i : ℕ} (hi : i < c.slots-c.size) (hne : c.head ≠ c.tail) :
    (c.tail+i)%c.slots ≠ c.head := by
  have := c.head_lt
  have := c.tail_lt
  rw [mod_slots (by omega)]
  unfold size sizeOf at hi
  split at hi <;> split <;> omega

theorem pushBack_vacant (c : CircularBuffer T) (x : T) : ∀ y ∈ (c.pushBack x).2.vacant, y ∈ c.vacant := by
  by_cases h : c.size < c.capacity
  swap
  · rw [pushBack_full h]
    exact fun y hy => hy
  have hslots : c.slots-c.size = c.slots-(c.size+1)+1 := by
    have := c.size_lt
    omega
  rw [pushBack,if_pos (c.next_tail_ne_head_iff.mpr h)]
  change ∀ y ∈ window (update c.items c.tail x) c.slots ((c.tail+1)%c.slots)
    (c.slots-sizeOf c.slots ((c.tail+1)%c.slots) c.head),_
  rw [size_next_tail h,window_update x fun i hi => c.vacant_ne_tail (by omega),vacant,hslots,window_succ_front]
  exact fun y hy => List.mem_cons_of_mem _ hy

theorem pushFront_vacant (h : c.size < c.capacity) (x : T) : ∀ y ∈ (c.pushFront x).2.vacant, y ∈ c.vacant := by
  have hprev := size_prev_head h
  have hslots : c.slots-c.size = c.slots-(c.size+1)+1 := by
    have := c.size_lt
    omega
  have hfresh : ∀ i < c.slots-(c.size+1), (c.tail+i)%c.slots ≠ (c.head+c.slots-1)%c.slots := by
    intro i hi
    have := c.head_lt
    have := c.tail_lt
    unfold size sizeOf at hi
    rw [mod_slots (by omega),prev_head]
    by_cases h0 : c.head = 0
    · rw [if_pos h0]
      split at hi <;> split <;> omega
    · rw [if_neg h0]
      split at hi <;> split <;> omega
  rw [pushFront,if_pos hprev.1]
  change ∀ y ∈ window (update c.items ((c.head+c.slots-1)%c.slots) x) c.slots c.tail
    (c.slots-sizeOf c.slots c.tail ((c.head+c.slots-1)%c.slots)),_
  rw [hprev.2,window_update x hfresh,vacant,hslots,window_succ]
  exact fun y hy => List.mem_append_left _ hy

theorem popFront_vacant (h : c.popFront moved = some (x,c')) : c'.vacant = c.vacant++[moved x] := by
  rw [popFront] at h
  obtain ⟨hne,h⟩ := Option.ite_none_right_eq_some.mp h
  cases h
  have hsize := size_next_head hne
  have hslots : c.slots-sizeOf c.slots c.tail ((c.head+1)%c.slots) = c.slots-c.size+1 := by
    have := c.size_lt
    omega
  have hlast : (c.tail+(c.slots-c.size))%c.slots = c.head := by
    rw [← c.head_add_size,Nat.mod_add_mod,Nat.add_assoc,Nat.add_sub_cancel' c.size_lt.le,Nat.add_mod_right,
      Nat.mod_eq_of_lt c.head_lt]
  change window (update c.items c.head (moved (c.items c.head))) c.slots c.tail
    (c.slots-sizeOf c.slots c.tail ((c.head+1)%c.slots)) = _
  rw [hslots,window_succ,hlast,update_self,window_update _ fun i hi => c.vacant_ne_head hi hne]
  rfl

theorem new_contents (fill : T) (size : ℕ) : (new fill size).contents = [] := rfl

theorem new_vacant (fill : T) (size : ℕ) : ∀ y ∈ (new fill size).vacant, y = fill := by
  intro y hy
  obtain ⟨_,_,rfl⟩ := List.mem_map.mp hy
  rfl

/-! ### Stealing -/

theorem stealOne_spec (hthief : thief.size < thief.capacity) (hvictim : victim.contents = x::l) :
    (stealOne thief victim).1.contents = thief.contents++[x] ∧ (stealOne thief victim).2.contents = l := by
  have hne : victim.head ≠ victim.tail := by
    intro heq
    rw [victim.contents_eq_nil_iff.mpr heq.symm] at hvictim
    cases hvictim
  have hfront := contents_advance hne (Nat.mod_lt _ victim.slots_pos)
  rw [hvictim] at hfront
  obtain ⟨hx,hl⟩ := List.cons.inj hfront
  refine ⟨?_,hl.symm⟩
  rw [hx]
  exact contents_extend hthief _ _

/-- The loop moves the first elements over in their order and touches neither the thief's head nor
the victim's tail. -/
theorem stealLoop_spec {n : ℕ} (hthief : thief.size+n ≤ thief.capacity) (hvictim : n ≤ victim.size) :
    (stealLoop n thief victim).1.contents = thief.contents++victim.contents.take n ∧
      (stealLoop n thief victim).2.contents = victim.contents.drop n ∧
      (stealLoop n thief victim).1.slots = thief.slots ∧ (stealLoop n thief victim).2.slots = victim.slots ∧
      (stealLoop n thief victim).2.tail = victim.tail := by
  induction n generalizing thief victim with
  | zero => simp [stealLoop]
  | succ n ih =>
    cases hl : victim.contents with
    | nil =>
      rw [← contents_length,hl] at hvictim
      simp at hvictim
    | cons x l =>
      have hroom : thief.size < thief.capacity := by omega
      obtain ⟨h1,h2⟩ := stealOne_spec hroom hl
      have hsize1 : (stealOne thief victim).1.size = thief.size+1 := by
        rw [← contents_length,h1,List.length_append,contents_length]
        rfl
      have hsize2 : n ≤ (stealOne thief victim).2.size := by
        rw [← contents_length,hl,List.length_cons] at hvictim
        rw [← contents_length,h2]
        omega
      have hcap : (stealOne thief victim).1.size+n ≤ (stealOne thief victim).1.capacity := by
        change _ ≤ thief.capacity
        omega
      obtain ⟨hthief',hvictim',hslots,hslots',htail⟩ := ih hcap hsize2
      refine ⟨?_,?_,hslots,hslots',htail⟩
      · rw [stealLoop,hthief',h1,h2]
        simp
      · rw [stealLoop,hvictim',h2]
        rfl

theorem workSteal_spec (thief victim : CircularBuffer T) :
    ∃ k ≤ victim.size/2, (workSteal thief victim).2.1.contents = thief.contents++victim.contents.take k ∧
      (workSteal thief victim).2.2.contents = victim.contents.drop k ∧
      (workSteal thief victim).2.1.slots = thief.slots ∧ (workSteal thief victim).2.2.slots = victim.slots ∧
      (workSteal thief victim).2.2.tail = victim.tail := by
  unfold workSteal
  split
  · exact ⟨0,Nat.zero_le _,by simp⟩
  · have hcap : thief.size ≤ thief.capacity := by
      have := thief.size_lt
      unfold capacity
      omega
    exact ⟨_,min_le_left _ _,stealLoop_spec (by omega) (by omega)⟩

end

end CircularBuffer

end FarMemory
