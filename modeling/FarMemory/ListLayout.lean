import FarMemory.AllocationSizes
import FarMemory.ChunkedList

/-!
# The bytes of a list's chunk

A chunk is one far-memory object: the word of its free nodes, the sentinels and the pointers
to them, and the nodes, each with two links and an item. `List<T>` computes how many
nodes there are; the constructor stores every size in 16 bits, and a node's offset is
kept in 16 bits too.
-/
namespace FarMemory.ListLayout
open AllocationSizes ChunkedList IntervalTiling
open PointerMeta (kMaxObjectDataSize)

/-- `sizeof(ChunkListData)`. -/
def chunkListDataSize : ℕ := 8

section
variable (size : ℕ)

def kItemSize : ℕ := size%2^16

def kNumNodesPerChunk : ℕ :=
  max kMinNumNodesPerChunk (min kMaxNumNodesPerChunk
    ((kDefaultChunkSize-chunkListDataSize-listDataSize)/(size+nodeHeaderSize)%2^16))

def kChunkListNodeSize : ℕ := (nodeHeaderSize+kItemSize size)%2^16

def kChunkSize : ℕ := (chunkListDataSize+listDataSize+kNumNodesPerChunk size*kChunkListNodeSize size)%2^16

/-- The pointer of `allocate_node`, with its 8-bit index and its 16-bit offset from the list data. -/
def allocatedPtr (idx : ℕ) : ChunkNodePtr := ⟨idx%2^8,(listDataSize+idx*kChunkListNodeSize size)%2^16⟩

/-- The word of free nodes, head and tail, and the pointers to them: where each starts and its length. -/
def header : List (ℕ × ℕ) := [(0,8),(8,6),(14,6),(20,3),(23,3)]

def nodes : List (ℕ × ℕ) :=
  (List.range (kNumNodesPerChunk size)).map fun idx =>
    (chunkListDataSize+(allocatedPtr size idx).addrOffset,kChunkListNodeSize size)

/-- Every stored size and pointer is the one that is meant, the chunk is an object that can be
allocated, and its parts do not overlap. -/
structure Exact (cfg : Config) : Prop where
  item : kItemSize size = cfg.itemSize
  count : kNumNodesPerChunk size = cfg.numNodesPerChunk
  node : kChunkListNodeSize size = cfg.chunkListNodeSize
  chunk : kChunkSize size = chunkListDataSize+listDataSize+cfg.numNodesPerChunk*cfg.chunkListNodeSize
  ptr : ∀ idx < cfg.numNodesPerChunk, allocatedPtr size idx = cfg.nodePtr idx
  fits : kChunkSize size ≤ kMaxObjectDataSize
  disjoint : (header++nodes size).Pairwise fun b c => b.1+b.2 ≤ c.1 ∨ c.1+c.2 ≤ b.1
  inside : ∀ b ∈ header++nodes size, b.1+b.2 ≤ kChunkSize size

end

theorem tiles_stride (lo n : ℕ) {d : ℕ} (hd : 0 < d) : Tiles lo (lo+n*d) ((List.range n).map fun i => (lo+i*d,d)) := by
  induction n with
  | zero => simp [Tiles]
  | succ n ih =>
    rw [List.range_succ,List.map_append,List.map_singleton,Nat.add_mul,Nat.one_mul,← Nat.add_assoc]
    exact ih.snoc hd

section
variable {size : ℕ}

theorem kNumNodesPerChunk_eq (size : ℕ) : kNumNodesPerChunk size = max 8 (min 64 (4070/(size+6))) :=
  congrArg (fun q => max 8 (min 64 q)) (Nat.mod_eq_of_lt ((Nat.div_le_self 4070 _).trans_lt (by norm_num)))

theorem kNumNodesPerChunk_of_large (h : 503 ≤ size) : kNumNodesPerChunk size = 8 := by
  have hdiv : 4070/(size+6) ≤ 7 := by
    rw [← Nat.lt_succ_iff,Nat.div_lt_iff_lt_mul (by omega)]
    omega
  rw [kNumNodesPerChunk_eq]
  omega

theorem kNumNodesPerChunk_bounds (size : ℕ) :
    kNumNodesPerChunk size ≤ 64 ∧ kNumNodesPerChunk size*(size+6) ≤ max 4070 (8*(size+6)) := by
  have hdiv := Nat.div_mul_le_self 4070 (size+6)
  have hmin : min 64 (4070/(size+6))*(size+6) ≤ 4070/(size+6)*(size+6) := Nat.mul_le_mul_right _ (min_le_right _ _)
  rw [kNumNodesPerChunk_eq,max_mul_of_nonneg _ _ (Nat.zero_le _)]
  omega

/-- The layout is exact up to items of 8149 bytes and no further. -/
theorem chunk_layout_exact (size : ℕ) (enableMerge customizedSplit : Bool) (prefetchNumNodes : ℕ)
    (junk : DoublyLinked.Node ChunkNodePtr) :
    Exact size (Config.ofList size enableMerge customizedSplit prefetchNumNodes junk) ↔ size ≤ 8149 := by
  constructor
  · intro h
    by_contra hlarge
    have hcount := kNumNodesPerChunk_of_large (show 503 ≤ size by omega)
    have hchunk := h.chunk
    rw [← h.count,hcount] at hchunk
    have hfits := h.fits
    simp only [Config.chunkListNodeSize,Config.ofList,chunkListDataSize,listDataSize,nodeHeaderSize] at hchunk
    change kChunkSize size ≤ 65270 at hfits
    omega
  · intro hsize
    obtain ⟨hcount,hbytes⟩ := kNumNodesPerChunk_bounds size
    have hitem : kItemSize size = size := Nat.mod_eq_of_lt (by omega)
    have hnode : kChunkListNodeSize size = size+6 := by
      rw [kChunkListNodeSize,hitem,nodeHeaderSize,Nat.mod_eq_of_lt (by omega)]
      omega
    have hchunk : kChunkSize size = 26+kNumNodesPerChunk size*(size+6) := by
      rw [kChunkSize,hnode]
      exact Nat.mod_eq_of_lt (show 26+kNumNodesPerChunk size*(size+6) < 2^16 by omega)
    have hptr : ∀ idx < kNumNodesPerChunk size, allocatedPtr size idx = ⟨idx,18+idx*(size+6)⟩ := by
      intro idx hidx
      have hle : idx*(size+6) ≤ kNumNodesPerChunk size*(size+6) := Nat.mul_le_mul_right _ hidx.le
      rw [allocatedPtr,hnode,Nat.mod_eq_of_lt (show idx < 2^8 by omega)]
      exact congrArg _ (Nat.mod_eq_of_lt (show 18+idx*(size+6) < 2^16 by omega))
    have hnum : (Config.ofList size enableMerge customizedSplit prefetchNumNodes junk).numNodesPerChunk = kNumNodesPerChunk size :=
      (kNumNodesPerChunk_eq size).symm
    have htiles : Tiles 0 (kChunkSize size) (header++nodes size) := by
      have hnodes : nodes size = (List.range (kNumNodesPerChunk size)).map fun i => (26+i*(size+6),size+6) := by
        refine List.map_congr_left fun i hi => ?_
        rw [hptr i (List.mem_range.mp hi),hnode]
        exact congrArg (·,size+6) (show 8+(18+i*(size+6)) = 26+i*(size+6) by omega)
      rw [hnodes,hchunk]
      exact Tiles.append (by simp [header,Tiles]) (tiles_stride 26 _ (by omega))
    refine ⟨hitem,hnum.symm,hnode.trans (Nat.add_comm _ _),?_,fun idx hidx => ?_,?_,?_,fun b hb => (htiles.bounds hb).2⟩
    · rw [hchunk,hnum]
      exact congrArg (26+kNumNodesPerChunk size*·) (Nat.add_comm _ _)
    · rw [hptr idx (hnum ▸ hidx)]
      exact congrArg (fun d => (⟨idx,18+idx*d⟩ : ChunkNodePtr)) (Nat.add_comm _ _)
    · change kChunkSize size ≤ 65270
      omega
    · exact htiles.pairwise.imp .inl

end

/-- A chunk for items of 8183 bytes is allocated with two bytes. -/
theorem chunk_of_two_bytes : kNumNodesPerChunk 8183 = 8 ∧ kChunkListNodeSize 8183 = 8189 ∧ kChunkSize 8183 = 2 ∧
    ¬∀ b ∈ header++nodes 8183, b.1+b.2 ≤ kChunkSize 8183 := by decide

end FarMemory.ListLayout
