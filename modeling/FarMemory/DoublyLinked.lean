import Mathlib

/-!
# Doubly linked nodes

Nodes with two links each, in a memory `m` that is read at the address `addr p` of a
pointer `p`. A direction (`rev`) says which link is ahead and which behind, so that one
argument does for both. `Linked` says that a list of pointers is a chain of nodes with
different addresses, linked in both directions; putting a node in and taking one out
keep it.
-/
namespace FarMemory.DoublyLinked
open Function
variable {P K : Type*}

structure Node (P : Type*) where
  next : P
  prev : P
  deriving DecidableEq, Repr

namespace Node

def ahead (rev : Bool) (n : Node P) : P := if rev then n.prev else n.next

def behind (rev : Bool) (n : Node P) : P := if rev then n.next else n.prev

def setAhead (rev : Bool) (p : P) (n : Node P) : Node P := if rev then {n with prev := p} else {n with next := p}

def setBehind (rev : Bool) (p : P) (n : Node P) : Node P := if rev then {n with next := p} else {n with prev := p}

variable (rev : Bool) (p : P) (n : Node P)

@[simp] theorem ahead_setAhead : (n.setAhead rev p).ahead rev = p := by cases rev <;> rfl
@[simp] theorem behind_setAhead : (n.setAhead rev p).behind rev = n.behind rev := by cases rev <;> rfl
@[simp] theorem behind_setBehind : (n.setBehind rev p).behind rev = p := by cases rev <;> rfl
@[simp] theorem ahead_setBehind : (n.setBehind rev p).ahead rev = n.ahead rev := by cases rev <;> rfl
@[simp] theorem ahead_not : n.ahead (!rev) = n.behind rev := by cases rev <;> rfl
@[simp] theorem behind_not : n.behind (!rev) = n.ahead rev := by cases rev <;> rfl

end Node

section
variable [DecidableEq K] (addr : P → K)

def modify (m : K → Node P) (k : K) (f : Node P → Node P) : K → Node P := update m k (f (m k))

/-- Put `new` behind `p`. -/
def insert (rev : Bool) (m : K → Node P) (p new : P) : K → Node P :=
  let m := modify m (addr new) (.setBehind rev ((m (addr p)).behind rev))
  let m := modify m (addr ((m (addr p)).behind rev)) (.setAhead rev new)
  let m := modify m (addr new) (.setAhead rev p)
  modify m (addr p) (.setBehind rev new)

/-- Link the neighbours of `p` to each other. -/
def erase (m : K → Node P) (p : P) : K → Node P :=
  let m := modify m (addr (m (addr p)).prev) fun n => {n with next := (m (addr p)).next}
  modify m (addr (m (addr p)).next) fun n => {n with prev := (m (addr p)).prev}

variable {addr} {rev : Bool} {m : K → Node P} {p new a b : P} {k : K}

theorem insert_links (hbehind : (m (addr p)).behind rev = a) (hnew : addr new ≠ addr p) (hna : addr new ≠ addr a)
    (hap : addr a ≠ addr p) (k : K) :
    (insert addr rev m p new k).ahead rev = (if k = addr new then p else if k = addr a then new else (m k).ahead rev) ∧
      (insert addr rev m p new k).behind rev =
        if k = addr new then a else if k = addr p then new else (m k).behind rev := by
  have hp : update m (addr new) (.setBehind rev a (m (addr new))) (addr p) = m (addr p) :=
    update_of_ne hnew.symm _ _
  simp only [insert,modify,hbehind,hp]
  by_cases h1 : k = addr p
  · subst h1
    simp [update_of_ne,hnew.symm,hap.symm]
  by_cases h2 : k = addr new
  · subst h2
    simp [update_of_ne,hnew,hna]
  by_cases h3 : k = addr a
  · subst h3
    simp [update_of_ne,hap,h2]
  simp [update_of_ne,h1,h2,h3]

theorem erase_links (hbehind : (m (addr p)).behind rev = a) (hahead : (m (addr p)).ahead rev = b)
    (hap : addr a ≠ addr p) (hbp : addr b ≠ addr p) (hab : addr a ≠ addr b) (k : K) :
    (erase addr m p k).ahead rev = (if k = addr a then b else (m k).ahead rev) ∧
      (erase addr m p k).behind rev = if k = addr b then a else (m k).behind rev := by
  cases rev with
  | false =>
    change (m (addr p)).prev = a at hbehind
    change (m (addr p)).next = b at hahead
    simp only [erase,modify,hbehind,hahead,update_of_ne hap.symm]
    by_cases h1 : k = addr a
    · subst h1
      simp [update_of_ne,hab,Node.ahead,Node.behind]
    by_cases h2 : k = addr b
    · subst h2
      simp [update_of_ne,hab.symm,Node.ahead,Node.behind]
    simp [update_of_ne,h1,h2,Node.ahead,Node.behind]
  | true =>
    change (m (addr p)).next = a at hbehind
    change (m (addr p)).prev = b at hahead
    simp only [erase,modify,hbehind,hahead,update_of_ne hbp.symm]
    by_cases h1 : k = addr a
    · subst h1
      simp [update_of_ne,hab,Node.ahead,Node.behind]
    by_cases h2 : k = addr b
    · subst h2
      simp [update_of_ne,hab.symm,Node.ahead,Node.behind]
    simp [update_of_ne,h1,h2,Node.ahead,Node.behind]

end

def follow [DecidableEq P] (next : P → P) (stop : P) : ℕ → P → Option (List P)
  | 0,_ => none
  | fuel+1,p => if p = stop then some [] else (follow next stop fuel (next p)).map (p::·)

/-- The pointers of a chain have different addresses and neighbours point to each other. -/
def Linked (addr : P → K) (rev : Bool) (m : K → Node P) (l : List P) : Prop :=
  (l.map addr).Nodup ∧ l.IsChain fun a b => (m (addr a)).ahead rev = b ∧ (m (addr b)).behind rev = a

namespace Linked
variable {addr : P → K} {rev : Bool} {m m' : K → Node P} {A B l : List P} {a b p n x : P}

theorem reverse (h : Linked addr rev m l) : Linked addr (!rev) m l.reverse := by
  refine ⟨by rw [List.map_reverse,List.nodup_reverse]; exact h.1,List.isChain_reverse.mpr (h.2.imp fun a b hab => ?_)⟩
  rw [Node.ahead_not,Node.behind_not]
  exact hab.symm

theorem ahead (h : Linked addr rev m (A++a::b::B)) : (m (addr a)).ahead rev = b :=
  (List.isChain_append_cons_cons.mp h.2).2.1.1

theorem behind (h : Linked addr rev m (A++a::b::B)) : (m (addr b)).behind rev = a :=
  (List.isChain_append_cons_cons.mp h.2).2.1.2

theorem ne_of_mem (h : Linked addr rev m (A++a::B)) (hp : p ∈ A++B) : addr p ≠ addr a := by
  have hnodup := h.1
  rw [List.map_append,List.map_cons,List.nodup_middle,List.nodup_cons,← List.map_append] at hnodup
  exact fun heq => hnodup.1 (heq ▸ List.mem_map_of_mem hp)

/-- The nodes between `a` and `b` are replaced, the others keep their outer links. -/
theorem splice (M M' : List P) (h : Linked addr rev m (A++a::(M++b::B)))
    (hahead : ∀ p ∈ A++b::B, (m' (addr p)).ahead rev = (m (addr p)).ahead rev)
    (hbehind : ∀ p ∈ A++a::B, (m' (addr p)).behind rev = (m (addr p)).behind rev)
    (hmid : (a::(M'++[b])).IsChain fun a b => (m' (addr a)).ahead rev = b ∧ (m' (addr b)).behind rev = a)
    (hnodup : ((A++a::(M'++b::B)).map addr).Nodup) : Linked addr rev m' (A++a::(M'++b::B)) := by
  obtain ⟨hleft,hright⟩ := List.isChain_split.mp h.2
  obtain ⟨-,hright⟩ := List.isChain_cons_split.mp hright
  refine ⟨hnodup,List.isChain_split.mpr ⟨?_,List.isChain_cons_split.mpr ⟨hmid,?_⟩⟩⟩
  · -- seen from behind, the last node of this part is its first
    rw [← List.reverse_reverse (A++[a]),List.isChain_reverse] at hleft ⊢
    rw [List.reverse_append,List.reverse_singleton,List.singleton_append] at hleft ⊢
    refine hleft.imp_of_mem_tail_imp fun q p hq hp hpq => ?_
    have hp' : p ∈ A := List.mem_reverse.mp hp
    have hq' : q ∈ A++a::B := by
      rcases List.mem_cons.mp hq with rfl | hq
      · simp
      · simp [List.mem_reverse.mp hq]
    rw [hahead p (by simp [hp']),hbehind q hq']
    exact hpq
  · refine hright.imp_of_mem_tail_imp fun p q hp hq hpq => ?_
    have hq' : q ∈ B := hq
    rw [hahead p (List.mem_append_right A hp),hbehind q (by simp [hq'])]
    exact hpq

theorem follow [DecidableEq P] (h : Linked addr rev m (a::(l++[b]))) {fuel : ℕ} (hfuel : l.length < fuel) :
    DoublyLinked.follow (fun p => (m (addr p)).ahead rev) b fuel ((m (addr a)).ahead rev) = some l := by
  induction l generalizing a fuel with
  | nil =>
    obtain ⟨fuel,rfl⟩ := Nat.exists_eq_add_of_lt hfuel
    have hb := h.ahead (A := [])
    rw [hb]
    exact if_pos rfl
  | cons x l ih =>
    obtain ⟨fuel,rfl⟩ := Nat.exists_eq_add_of_lt hfuel
    have hx := h.ahead (A := [])
    have htail : Linked addr rev m (x::(l++[b])) := ⟨(List.nodup_cons.mp h.1).2,h.2.tail⟩
    have hne : x ≠ b := fun heq => htail.ne_of_mem (A := []) (p := b) (by simp) (congrArg addr heq.symm)
    rw [hx,DoublyLinked.follow,if_neg hne,ih htail (by simp; omega)]
    rfl

variable [DecidableEq K]

theorem insert (h : Linked addr rev m (A++a::b::B)) (hn : addr n ∉ (A++a::b::B).map addr) :
    Linked addr rev (DoublyLinked.insert addr rev m b n) (A++a::n::b::B) := by
  have hne : ∀ p ∈ A++a::b::B, addr p ≠ addr n := fun p hp heq => hn (heq ▸ List.mem_map_of_mem hp)
  have hb : ∀ p ∈ A++a::B, addr p ≠ addr b := by
    have h' : Linked addr rev m ((A++[a])++b::B) := by rwa [List.append_assoc]
    intro p hp
    exact h'.ne_of_mem (by simpa using hp)
  have ha : ∀ p ∈ A++b::B, addr p ≠ addr a := fun p hp => h.ne_of_mem hp
  have hlinks := insert_links h.behind (hne b (by simp)).symm (hne a (by simp)).symm (hb a (by simp))
  refine splice [] [n] h (fun p hp => ?_) (fun p hp => ?_) ?_ ?_
  · rw [(hlinks (addr p)).1,if_neg (hne p (by simp only [List.mem_append,List.mem_cons] at hp ⊢; tauto)),if_neg (ha p hp)]
  · rw [(hlinks (addr p)).2,if_neg (hne p (by simp only [List.mem_append,List.mem_cons] at hp ⊢; tauto)),if_neg (hb p hp)]
  · have hnew := hlinks (addr n)
    have hold := hlinks (addr a)
    have hold' := hlinks (addr b)
    rw [if_pos rfl,if_pos rfl] at hnew
    rw [if_neg (hne a (by simp)),if_pos rfl] at hold
    rw [if_neg (hne b (by simp)),if_neg (hne b (by simp)),if_pos rfl] at hold'
    exact .cons_cons ⟨hold.1,hnew.2⟩ (.cons_cons ⟨hnew.1,hold'.2⟩ (.singleton b))
  · have hnodup := h.1
    rw [List.map_append,List.map_cons] at hnodup hn ⊢
    change (A.map addr++(addr a::addr n::(b::B).map addr)).Nodup
    rw [show A.map addr++(addr a::addr n::(b::B).map addr) = (A.map addr++[addr a])++addr n::(b::B).map addr by simp,
      List.nodup_middle,List.nodup_cons]
    rw [show A.map addr++addr a::(b::B).map addr = (A.map addr++[addr a])++(b::B).map addr by simp] at hnodup hn
    exact ⟨hn,hnodup⟩

theorem erase (h : Linked addr rev m (A++a::x::b::B)) : Linked addr rev (DoublyLinked.erase addr m x) (A++a::b::B) := by
  have h₁ : Linked addr rev m ((A++[a])++x::b::B) := by rwa [List.append_assoc]
  have h₂ : Linked addr rev m ((A++[a,x])++b::B) := by rwa [List.append_assoc]
  have ha : ∀ p ∈ A++x::b::B, addr p ≠ addr a := fun p hp => h.ne_of_mem hp
  have hx : ∀ p ∈ A++a::b::B, addr p ≠ addr x := fun p hp => h₁.ne_of_mem (by simpa using hp)
  have hb : ∀ p ∈ A++a::B, addr p ≠ addr b := by
    intro p hp
    refine h₂.ne_of_mem ?_
    simp only [List.mem_append,List.mem_cons] at hp ⊢
    tauto
  have hlinks := erase_links h.behind h₁.ahead (hx a (by simp)) (hx b (by simp)) (hb a (by simp))
  refine splice [x] [] h (fun p hp => ?_) (fun p hp => ?_) ?_ ?_
  · rw [(hlinks (addr p)).1,if_neg (ha p (by simp only [List.mem_append,List.mem_cons] at hp ⊢; tauto))]
  · rw [(hlinks (addr p)).2,if_neg (hb p hp)]
  · have hold := hlinks (addr a)
    have hold' := hlinks (addr b)
    rw [if_pos rfl] at hold
    rw [if_pos rfl] at hold'
    exact .cons_cons ⟨hold.1,hold'.2⟩ (.singleton b)
  · refine h.1.sublist (List.Sublist.map addr ?_)
    exact (List.Sublist.refl A).append ((List.sublist_cons_self x (b::B)).cons_cons a)

theorem erase_self (h : Linked addr rev m (A++a::x::b::B)) :
    (DoublyLinked.erase addr m x (addr x)).ahead rev = b := by
  have h₁ : Linked addr rev m ((A++[a])++x::b::B) := by rwa [List.append_assoc]
  have h₂ : Linked addr rev m ((A++[a,x])++b::B) := by rwa [List.append_assoc]
  have hxa : addr x ≠ addr a := h.ne_of_mem (by simp)
  have hlinks := erase_links h.behind h₁.ahead hxa.symm (h₁.ne_of_mem (by simp)) (h₂.ne_of_mem (by simp)) (addr x)
  rw [hlinks.1,if_neg hxa]
  exact h₁.ahead

theorem insert_cut {W V : List P} (h : Linked addr rev m (W++b::V)) (hW : W ≠ []) (hn : addr n ∉ (W++b::V).map addr) :
    Linked addr rev (DoublyLinked.insert addr rev m b n) (W++n::b::V) := by
  obtain ⟨A,a,rfl⟩ := (List.eq_nil_or_concat' W).resolve_left hW
  rw [List.append_assoc,List.singleton_append] at h hn ⊢
  exact h.insert hn

theorem erase_cut {W V : List P} (h : Linked addr rev m (W++x::V)) (hW : W ≠ []) (hV : V ≠ []) :
    Linked addr rev (DoublyLinked.erase addr m x) (W++V) := by
  obtain ⟨A,a,rfl⟩ := (List.eq_nil_or_concat' W).resolve_left hW
  cases V with
  | nil => exact absurd rfl hV
  | cons b B =>
    rw [List.append_assoc,List.singleton_append] at h ⊢
    exact h.erase

end Linked

end FarMemory.DoublyLinked
