import FarMemory.RpcBuffer

/-!
# Stream operators for containers

Each overload of the stream operators is a function of the operators of its element
types. A reader gets the target's old value, as the source reads into a reference: a
sequence is resized and then overwritten element by element, an associative
container is only added to. `Lawful` says that a codec writes bytes of its own at the
end of a buffer and reads them back from the front; every overload keeps it.
-/
namespace FarMemory.Rpc
variable {α β : Type}

structure Codec (α : Type) where
  init : α
  write : α → Buffer → Buffer
  read : α → Buffer → Option (α × Buffer)

namespace Codec

/-- The bytes a value is written as. -/
def bytesOf (c : Codec α) (v : α) : Bytes := (c.write v (Buffer.new 64)).readable

def get (c : Codec α) (b : Buffer) : Option (α × Buffer) := c.read c.init b

structure Lawful (c : Codec α) (valid : α → Prop) (same : α → α → Prop) : Prop where
  write_readable : ∀ v b, (c.write v b).readable = b.readable++c.bytesOf v
  read_back : ∀ v rest b, valid v → b.readable = c.bytesOf v++rest →
    ∃ u b', c.get b = some (u,b') ∧ same v u ∧ b'.readable = rest

end Codec

/-! ### Scalars, strings and buffers -/

def writeInt (w : Width) (v : w.Int) (b : Buffer) : Buffer := b.append (encode w v)

def readInt (w : Width) (b : Buffer) : Option (w.Int × Buffer) :=
  match b.readRaw w.size with
  | none => none
  | some (bs,b) => (decode w bs).map fun v => (v,b)

theorem readInt_of_readable {w : Width} {v : w.Int} {b : Buffer} {rest : Bytes}
    (h : b.readable = encode w v++rest) : ∃ b', readInt w b = some (v,b') ∧ b'.readable = rest := by
  obtain ⟨b',hr,hrest⟩ := Buffer.readRaw_of_readable h
  rw [encode_length] at hr
  exact ⟨b',by simp [readInt,hr,decode_encode],hrest⟩

def intCodec (w : Width) : Codec w.Int := ⟨0,writeInt w,fun _ => readInt w⟩

def boolInt (v : Bool) : BitVec 8 := if v then 1 else 0

def boolCodec : Codec Bool :=
  ⟨false,fun v => writeInt .w8 (boolInt v),fun _ b => (readInt .w8 b).map fun r => (r.1 != 0,r.2)⟩

def writeSize (n : ℕ) : Buffer → Buffer := writeInt .w64 (BitVec.ofNat 64 n)

def readSize (b : Buffer) : Option (ℕ × Buffer) := (readInt .w64 b).map fun r => (r.1.toNat,r.2)

def sizeBytes (n : ℕ) : Bytes := encode .w64 (BitVec.ofNat 64 n)

@[simp] theorem readable_writeSize (n : ℕ) (b : Buffer) : (writeSize n b).readable = b.readable++sizeBytes n :=
  Buffer.readable_append _ _

theorem readSize_of_readable {n : ℕ} {b : Buffer} {rest : Bytes} (hn : n < 2^64)
    (h : b.readable = sizeBytes n++rest) : ∃ b', readSize b = some (n,b') ∧ b'.readable = rest := by
  obtain ⟨b',hr,hrest⟩ := readInt_of_readable h
  refine ⟨b',?_,hrest⟩
  rw [readSize,hr]
  exact congrArg (fun m => some (m,b')) (Nat.mod_eq_of_lt hn)

/-- A string and the content of a buffer pointer travel alike. -/
def stringCodec : Codec Bytes where
  init := []
  write s b := (writeSize s.length b).append s
  read _ b :=
    match readSize b with
    | none => none
    | some (len,b) => b.readRaw len

theorem intCodec_lawful (w : Width) : (intCodec w).Lawful (fun _ => True) Eq where
  write_readable v b := by simp [intCodec,writeInt,Codec.bytesOf]
  read_back v rest b _ hb := by
    have hb' : b.readable = encode w v++rest := by
      simpa [intCodec,writeInt,Codec.bytesOf] using hb
    obtain ⟨b',hr,hrest⟩ := readInt_of_readable hb'
    exact ⟨v,b',hr,rfl,hrest⟩

theorem boolCodec_lawful : boolCodec.Lawful (fun _ => True) Eq where
  write_readable v b := by simp [boolCodec,writeInt,Codec.bytesOf]
  read_back v rest b _ hb := by
    have hb' : b.readable = encode .w8 (boolInt v)++rest := by
      simpa [boolCodec,writeInt,Codec.bytesOf] using hb
    obtain ⟨b',hr,hrest⟩ := readInt_of_readable hb'
    refine ⟨v,b',?_,rfl,hrest⟩
    rw [Codec.get,boolCodec]
    simp only [hr,Option.map_some]
    cases v <;> rfl

theorem stringCodec_lawful : stringCodec.Lawful (fun s => s.length < 2^64) Eq where
  write_readable v b := by simp [stringCodec,Codec.bytesOf]
  read_back v rest b hv hb := by
    have hb' : b.readable = sizeBytes v.length++(v++rest) := by
      simpa [stringCodec,Codec.bytesOf] using hb
    obtain ⟨b1,hsize,hb1⟩ := readSize_of_readable hv hb'
    obtain ⟨b2,hraw,hb2⟩ := Buffer.readRaw_of_readable hb1
    exact ⟨v,b2,by simp [Codec.get,stringCodec,hsize,hraw],rfl,hb2⟩

/-! ### Pairs and sequences -/

def pairCodec (c : Codec α) (d : Codec β) : Codec (α × β) where
  init := (c.init,d.init)
  write p b := d.write p.2 (c.write p.1 b)
  read p b :=
    match c.read p.1 b with
    | none => none
    | some (x,b) => (d.read p.2 b).map fun r => ((x,r.1),r.2)

def writeEach (c : Codec α) (l : List α) (b : Buffer) : Buffer := l.foldl (fun b x => c.write x b) b

/-- The common body of all container writers: the size, then the elements in iteration order. -/
def writeContainer (c : Codec α) (l : List α) (b : Buffer) : Buffer := writeEach c l (writeSize l.length b)

def resize (fill : α) (l : List α) (n : ℕ) : List α := l.take n++List.replicate (n-l.length) fill

/-- Read every element of the target in place. -/
def readEach (c : Codec α) : List α → Buffer → Option (List α × Buffer)
  | [],b => some ([],b)
  | x::l,b =>
    match c.read x b with
    | none => none
    | some (y,b) => (readEach c l b).map fun r => (y::r.1,r.2)

/-- Vectors, lists and deques. -/
def seqCodec (c : Codec α) : Codec (List α) where
  init := []
  write := writeContainer c
  read old b :=
    match readSize b with
    | none => none
    | some (n,b) => readEach c (resize c.init old n) b

section
variable {c : Codec α} {d : Codec β} {valid : α → Prop} {same : α → α → Prop} {valid' : β → Prop}
  {same' : β → β → Prop}

theorem pairCodec_bytesOf (hd : d.Lawful valid' same') (p : α × β) :
    (pairCodec c d).bytesOf p = c.bytesOf p.1++d.bytesOf p.2 :=
  hd.write_readable p.2 _

theorem pairCodec_lawful (hc : c.Lawful valid same) (hd : d.Lawful valid' same') :
    (pairCodec c d).Lawful (fun p => valid p.1 ∧ valid' p.2) (fun p q => same p.1 q.1 ∧ same' p.2 q.2) where
  write_readable p b := by
    rw [pairCodec_bytesOf hd,pairCodec]
    simp only [hd.write_readable p.2,hc.write_readable p.1,List.append_assoc]
  read_back p rest b hv hb := by
    rw [pairCodec_bytesOf hd,List.append_assoc] at hb
    obtain ⟨x,b1,hx,hsx,hb1⟩ := hc.read_back p.1 _ b hv.1 hb
    obtain ⟨y,b2,hy,hsy,hb2⟩ := hd.read_back p.2 _ b1 hv.2 hb1
    rw [Codec.get] at hx hy
    exact ⟨(x,y),b2,by simp [Codec.get,pairCodec,hx,hy],⟨hsx,hsy⟩,hb2⟩

theorem readable_writeEach (hc : c.Lawful valid same) (l : List α) (b : Buffer) :
    (writeEach c l b).readable = b.readable++l.flatMap c.bytesOf := by
  induction l generalizing b with
  | nil => simp [writeEach]
  | cons x l ih =>
    have hstep : writeEach c (x::l) b = writeEach c l (c.write x b) := rfl
    rw [hstep,ih,hc.write_readable,List.flatMap_cons,List.append_assoc]

theorem readable_writeContainer (hc : c.Lawful valid same) (l : List α) (b : Buffer) :
    (writeContainer c l b).readable = b.readable++(sizeBytes l.length++l.flatMap c.bytesOf) := by
  rw [writeContainer,readable_writeEach hc,readable_writeSize,List.append_assoc]

theorem readEach_fresh (hc : c.Lawful valid same) {l : List α} (hl : ∀ x ∈ l, valid x) {b : Buffer} {rest : Bytes}
    (hb : b.readable = l.flatMap c.bytesOf++rest) :
    ∃ u b', readEach c (List.replicate l.length c.init) b = some (u,b') ∧ List.Forall₂ same l u ∧ b'.readable = rest := by
  induction l generalizing b with
  | nil => exact ⟨[],b,rfl,.nil,by simpa using hb⟩
  | cons x l ih =>
    rw [List.flatMap_cons,List.append_assoc] at hb
    obtain ⟨y,b1,hy,hsame,hb1⟩ := hc.read_back x _ b (hl x (by simp)) hb
    obtain ⟨u,b2,hu,hall,hb2⟩ := ih (fun z hz => hl z (by simp [hz])) hb1
    rw [Codec.get] at hy
    exact ⟨y::u,b2,by simp [List.replicate_succ,readEach,hy,hu],.cons hsame hall,hb2⟩

theorem seqCodec_lawful (hc : c.Lawful valid same) :
    (seqCodec c).Lawful (fun l => l.length < 2^31 ∧ ∀ x ∈ l, valid x) (List.Forall₂ same) where
  write_readable l b := by
    rw [Codec.bytesOf,seqCodec]
    simp only [readable_writeContainer hc,Buffer.readable_new,List.nil_append]
  read_back l rest b hv hb := by
    rw [Codec.bytesOf,seqCodec] at hb
    simp only [readable_writeContainer hc,Buffer.readable_new,List.nil_append,List.append_assoc] at hb
    obtain ⟨b1,hsize,hb1⟩ := readSize_of_readable (by omega) hb
    obtain ⟨u,b2,hu,hall,hb2⟩ := readEach_fresh hc hv.2 hb1
    exact ⟨u,b2,by simp [Codec.get,seqCodec,hsize,resize,hu],hall,hb2⟩

end

/-! ### Associative containers -/

/-- Where a hash table, or a tree ordered by addresses, puts a new element is up to it. -/
structure Placement where
  place : {ε : Type} → ε → List ε → List ε
  perm : ∀ {ε : Type} (x : ε) (l : List ε), (place x l).Perm (x::l)

inductive Coll
  | set
  | multiset
  | unorderedSet
  | unorderedMultiset
  deriving DecidableEq

def emplaceUnique (lt : α → α → Bool) (x : α) : List α → List α
  | [] => [x]
  | y::l => if lt y x then y::emplaceUnique lt x l else if lt x y then x::y::l else y::l

def emplaceMulti (lt : α → α → Bool) (x : α) : List α → List α
  | [] => [x]
  | y::l => if lt x y then x::y::l else y::emplaceMulti lt x l

def emplaceHashed (P : Placement) (eq : α → α → Bool) (x : α) (l : List α) : List α :=
  if l.any (eq · x) then l else P.place x l

/-- Keys that hold buffer pointers are compared by address. A pointer that was just read is fresh: it
equals no other, and its address says nothing about its content. -/
def Coll.emplace (P : Placement) (byAddress : Bool) (lt eq : α → α → Bool) (k : Coll) : α → List α → List α :=
  if byAddress then P.place else
    match k with
    | .set => emplaceUnique lt
    | .multiset => emplaceMulti lt
    | .unorderedSet => emplaceHashed P eq
    | .unorderedMultiset => P.place

/-- What the container keeps of its elements, in iteration order. -/
def Coll.Inv (byAddress : Bool) (lt eq : α → α → Bool) (k : Coll) (l : List α) : Prop :=
  byAddress = false →
    match k with
    | .set => l.Pairwise fun a b => lt a b = true
    | .multiset => l.Pairwise fun a b => lt b a = false
    | .unorderedSet => l.Pairwise fun a b => eq a b = false
    | .unorderedMultiset => True

def SamePerm (same : α → α → Prop) (l u : List α) : Prop := ∃ w, List.Forall₂ same l w ∧ w.Perm u

def Coll.Same (byAddress : Bool) (same : α → α → Prop) (k : Coll) : List α → List α → Prop :=
  if byAddress then SamePerm same else
    match k with
    | .set | .multiset => List.Forall₂ same
    | .unorderedSet | .unorderedMultiset => SamePerm same

/-- The loop that gets one element after the other and puts it in. -/
def readInserting (c : Codec α) (emplace : α → List α → List α) : ℕ → List α → Buffer → Option (List α × Buffer)
  | 0,s,b => some (s,b)
  | n+1,s,b =>
    match c.get b with
    | none => none
    | some (x,b) => readInserting c emplace n (emplace x s) b

/-- The loop counts in an `int`. -/
def collCodec (c : Codec α) (emplace : α → List α → List α) : Codec (List α) where
  init := []
  write := writeContainer c
  read old b :=
    match readSize b with
    | none => none
    | some (n,b) => if n < 2^31 then readInserting c emplace n old b else none

section
variable {c : Codec α} {valid : α → Prop} {same : α → α → Prop} {lt eq : α → α → Bool}
  {s us l : List α} {R : α → α → Prop} {emplace : α → List α → List α}

theorem emplaceUnique_last {x : α} (h : ∀ y ∈ s, lt y x = true) : emplaceUnique lt x s = s++[x] := by
  induction s with
  | nil => rfl
  | cons y s ih =>
    rw [emplaceUnique,if_pos (h y (by simp)),ih fun z hz => h z (by simp [hz])]
    rfl

theorem emplaceMulti_last {x : α} (h : ∀ y ∈ s, lt x y = false) : emplaceMulti lt x s = s++[x] := by
  induction s with
  | nil => rfl
  | cons y s ih =>
    rw [emplaceMulti,if_neg (by simp [h y]),ih fun z hz => h z (by simp [hz])]
    rfl

theorem foldl_emplace_sorted
    (hlast : ∀ x s, (∀ y ∈ s, R y x) → emplace x s = s++[x]) (h : (s++us).Pairwise R) :
    us.foldl (fun s x => emplace x s) s = s++us := by
  induction us generalizing s with
  | nil => simp
  | cons x us ih =>
    have hx : ∀ y ∈ s, R y x := fun y hy => (List.pairwise_append.mp h).2.2 y hy x (by simp)
    rw [List.foldl_cons,hlast x s hx,ih (by simpa using h)]
    simp

theorem foldl_emplace_perm
    (hperm : ∀ x s, (∀ y ∈ s, R y x) → (emplace x s).Perm (x::s))
    (hs : ∀ x ∈ us, ∀ y ∈ s, R y x) (h : us.Pairwise R) :
    (us.foldl (fun s x => emplace x s) s).Perm (us++s) := by
  induction us generalizing s with
  | nil => exact .rfl
  | cons x us ih =>
    have hx := hperm x s (hs x (by simp))
    rw [List.pairwise_cons] at h
    have hs' : ∀ z ∈ us, ∀ y ∈ emplace x s, R y z := by
      intro z hz y hy
      rcases List.mem_cons.mp (hx.mem_iff.mp hy) with rfl | hy
      · exact h.1 z hz
      · exact hs z (by simp [hz]) y hy
    exact (ih hs' h.2).trans ((hx.append_left us).trans List.perm_middle)

theorem pairwise_of_same {S : α → α → Prop} (hR : ∀ a b u v, same a u → same b v → R a b → S u v)
    (h : List.Forall₂ same l us) (hl : l.Pairwise R) : us.Pairwise S := by
  induction h with
  | nil => exact .nil
  | @cons a u l us hau hall ih =>
    rw [List.pairwise_cons] at hl
    refine List.pairwise_cons.mpr ⟨?_,ih hl.2⟩
    intro v hv
    obtain ⟨i,hi,rfl⟩ := List.mem_iff_getElem.mp hv
    have hi' : i < l.length := by rwa [hall.length_eq]
    exact hR _ _ _ _ hau (List.forall₂_iff_get.mp hall |>.2 i hi' hi) (hl.1 _ (List.getElem_mem hi'))

theorem readInserting_spec (hc : c.Lawful valid same)
    (hl : ∀ x ∈ l, valid x) {b : Buffer} {rest : Bytes} (hb : b.readable = l.flatMap c.bytesOf++rest) :
    ∃ us b', List.Forall₂ same l us ∧
      readInserting c emplace l.length s b = some (us.foldl (fun s x => emplace x s) s,b') ∧ b'.readable = rest := by
  induction l generalizing s b with
  | nil => exact ⟨[],b,.nil,rfl,by simpa using hb⟩
  | cons x l ih =>
    rw [List.flatMap_cons,List.append_assoc] at hb
    obtain ⟨y,b1,hy,hsame,hb1⟩ := hc.read_back x _ b (hl x (by simp)) hb
    obtain ⟨us,b2,hall,hu,hb2⟩ := ih (s := emplace y s) (fun z hz => hl z (by simp [hz])) hb1
    exact ⟨y::us,b2,.cons hsame hall,by simp [readInserting,hy,hu],hb2⟩

/-- The container that is put together again is the same, if its comparisons do not see the
difference between an element and the one that was read for it. -/
theorem foldl_emplace_same (P : Placement) {byAddress : Bool} {k : Coll}
    (hcmp : byAddress = false → ∀ a b u v, same a u → same b v → lt u v = lt a b ∧ eq u v = eq a b)
    (hinv : k.Inv byAddress lt eq l) (h : List.Forall₂ same l us) :
    k.Same byAddress same l (us.foldl (fun s x => k.emplace P byAddress lt eq x s) []) := by
  have hplace : ∀ us : List α, (us.foldl (fun s x => P.place x s) []).Perm us := fun us => by
    have hall : (us.foldl (fun s x => P.place x s) []).Perm (us++[]) :=
      foldl_emplace_perm (R := fun _ _ => True) (fun x s _ => P.perm x s) (fun _ _ _ _ => trivial)
        (List.pairwise_of_forall fun _ _ => trivial)
    rwa [List.append_nil] at hall
  cases byAddress with
  | true => exact ⟨us,h,(hplace us).symm⟩
  | false =>
    have hcmp := hcmp rfl
    have hinv := hinv rfl
    cases k with
    | set =>
      have hus : us.Pairwise fun a b => lt a b = true :=
        pairwise_of_same (fun a b u v ha hb hab => (hcmp a b u v ha hb).1.trans hab) h hinv
      have hlast : ∀ x s, (∀ y ∈ s, lt y x = true) → emplaceUnique lt x s = s++[x] := fun _ _ => emplaceUnique_last
      have hfold : us.foldl (fun s x => emplaceUnique lt x s) [] = us := foldl_emplace_sorted hlast hus
      exact hfold.symm ▸ h
    | multiset =>
      have hus : us.Pairwise fun a b => lt b a = false :=
        pairwise_of_same (fun a b u v ha hb hab => (hcmp b a v u hb ha).1.trans hab) h hinv
      have hlast : ∀ x s, (∀ y ∈ s, lt x y = false) → emplaceMulti lt x s = s++[x] := fun _ _ => emplaceMulti_last
      have hfold : us.foldl (fun s x => emplaceMulti lt x s) [] = us := foldl_emplace_sorted hlast hus
      exact hfold.symm ▸ h
    | unorderedSet =>
      have hus : us.Pairwise fun a b => eq a b = false :=
        pairwise_of_same (fun a b u v ha hb hab => (hcmp a b u v ha hb).2.trans hab) h hinv
      have hperm : (us.foldl (fun s x => emplaceHashed P eq x s) []).Perm us := by
        have hone : ∀ x s, (∀ y ∈ s, eq y x = false) → (emplaceHashed P eq x s).Perm (x::s) := by
          intro x s hx
          rw [emplaceHashed,if_neg (by simpa using hx)]
          exact P.perm x s
        have hall : (us.foldl (fun s x => emplaceHashed P eq x s) []).Perm (us++[]) :=
          foldl_emplace_perm hone (fun _ _ _ hy => nomatch hy) hus
        rwa [List.append_nil] at hall
      exact ⟨us,h,hperm.symm⟩
    | unorderedMultiset => exact ⟨us,h,(hplace us).symm⟩

theorem collCodec_lawful (P : Placement) {byAddress : Bool} {k : Coll} (hc : c.Lawful valid same)
    (hcmp : byAddress = false → ∀ a b u v, same a u → same b v → lt u v = lt a b ∧ eq u v = eq a b) :
    (collCodec c (k.emplace P byAddress lt eq)).Lawful
      (fun l => l.length < 2^31 ∧ k.Inv byAddress lt eq l ∧ ∀ x ∈ l, valid x) (k.Same byAddress same) where
  write_readable l b := by
    rw [Codec.bytesOf,collCodec]
    simp only [readable_writeContainer hc,Buffer.readable_new,List.nil_append]
  read_back l rest b hv hb := by
    rw [Codec.bytesOf,collCodec] at hb
    simp only [readable_writeContainer hc,Buffer.readable_new,List.nil_append,List.append_assoc] at hb
    obtain ⟨b1,hsize,hb1⟩ := readSize_of_readable (by omega) hb
    obtain ⟨us,b2,hall,hu,hb2⟩ : ∃ us b', List.Forall₂ same l us ∧
        readInserting c (k.emplace P byAddress lt eq) l.length [] b1
          = some (us.foldl (fun s x => k.emplace P byAddress lt eq x s) [],b') ∧ b'.readable = rest :=
      readInserting_spec hc hv.2.2 hb1
    refine ⟨_,b2,?_,foldl_emplace_same P hcmp hv.2.1 hall,hb2⟩
    rw [Codec.get,collCodec]
    simp only [hsize,if_pos hv.1,hu]

end

end FarMemory.Rpc
