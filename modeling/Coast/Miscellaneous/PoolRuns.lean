import Coast.Miscellaneous.PoolAlloc

/-!
# Runs of a pool and its clients

`Refresh` starts over when its trackers say that nothing is allocated; the
tracker that is used without statistics always says so.
-/

namespace Coast

open Chunks LinkedChain PoolAllocator List Option Nat

def Handed.Apart (first second : Handed) : Prop :=
  match first.block, second.block with
  | .pool mh, .pool mh' =>
    mh + alignedSize + first.fUsableSize ≤ mh' ∨ mh' + alignedSize + second.fUsableSize ≤ mh
  | .heap mh, .heap mh' => mh ≠ mh'
  | _, _ => True

namespace PoolSystem

/-- Live blocks are apart, inside the memory, and as large as was asked for. -/
structure Safe (this : PoolSystem) : Prop where
  apart : this.live.Pairwise Handed.Apart
  inside : ∀ handed ∈ this.live, ∀ mh, handed.block = .pool mh →
    mh + alignedSize + handed.fUsableSize ≤ this.pool.fAllocSz
  stored : ∀ handed ∈ this.live,
    usableSize this.pool this.heap handed.block = some handed.fUsableSize
  enough : ∀ handed ∈ this.live, handed.requested ≤ handed.fUsableSize
  notFree : ∀ handed ∈ this.live, ∀ mh, handed.block = .pool mh →
    ∀ bucket ∈ this.pool.fPoolBuckets, ¬ Reaches (link this.pool.memory) bucket.fFirstFree mh

def poolInterval (handed : Handed) : Option (Nat × Nat) :=
  match handed.block with
  | .pool mh => some (mh, handed.fUsableSize)
  | .heap _ => none

def heapInterval (handed : Handed) : Option (Nat × Nat) :=
  match handed.block with
  | .pool _ => none
  | .heap mh => some (mh, handed.fUsableSize)

def poolPayload (live : List Handed) : Nat := total ((live.filterMap poolInterval).map Prod.snd)

def heapPayload (live : List Handed) : Nat := total ((live.filterMap heapInterval).map Prod.snd)

def heapBytes (live : List Handed) : Nat :=
  total ((live.filterMap heapInterval).map fun interval =>
    interval.2 + alignedSize)

theorem heapPayload_le (live : List Handed) : heapPayload live ≤ heapBytes live := by
  unfold heapPayload heapBytes
  induction live.filterMap heapInterval with
  | nil => exact le_refl _
  | cons interval intervals ih =>
    rw [map_cons, map_cons, total_cons, total_cons]
    omega

theorem perm_given_back {live : List Handed} {handed : Handed}
    (distinct : (live.map Handed.block).Nodup) (member : handed ∈ live) :
    live.Perm (handed :: live.filter fun other =>
      other.block ≠ handed.block) := by
  induction live with
  | nil => cases member
  | cons first rest ih =>
    rw [map_cons, nodup_cons] at distinct
    rcases mem_cons.mp member with same | later
    · rw [← same] at distinct ⊢
      have others : rest.filter (fun other =>
          decide (other.block ≠ handed.block)) = rest := by
        rw [filter_eq_self]
        intro other inRest
        rw [decide_eq_true_eq]
        intro sameBlock
        apply distinct.1
        rw [← sameBlock]
        exact mem_map_of_mem inRest
      rw [filter_cons_of_neg (by
        rw [decide_eq_true_eq]
        exact not_not.mpr rfl), others]
    · have different : first.block ≠ handed.block := by
        intro sameBlock
        apply distinct.1
        rw [sameBlock]
        exact mem_map_of_mem later
      rw [filter_cons_of_pos (by
        rw [decide_eq_true_eq]
        exact different)]
      exact ((ih distinct.2 later).cons first).trans (.swap ..)

def Counted (pool : PoolAllocator) (live : List Handed) : Prop :=
  (pool.fTracker = none ∧ pool.fpPoolTotalExcessTracker = none) ∨
    (pool.fTracker = some (BitVec.ofNat 64 (poolPayload live)) ∧
      pool.fpPoolTotalExcessTracker = some (BitVec.ofNat 64 (heapPayload live)))

/-- The blocks of the pool that are in use are chunks in use. -/
def Held (sizes : List (Nat × Nat)) (chunks : ChunkMap) (live : List Handed) : Prop :=
  ∀ handed ∈ live, ∀ mh, handed.block = .pool mh →
    ∃ order, chunks mh = some (order, true) ∧ handed.fUsableSize + alignedSize = sizeAt sizes order

/-- The pool is in order, and its used chunks are those that clients have. -/
structure SystemInv (sizes : List (Nat × Nat)) (this : PoolSystem) : Prop where
  pool : ∃ chunks frees, PoolInv sizes this.pool chunks frees ∧ Held sizes chunks this.live
  heap : ∀ handed ∈ this.live, ∀ mh, handed.block = .heap mh →
    mh < this.heap.count ∧ ∃ header, this.heap.blocks mh = some header ∧
      header.fUsableSize = handed.fUsableSize ∧
      header.fState = .eUsedNotPooled
  distinct : (this.live.map Handed.block).Nodup
  enough : ∀ handed ∈ this.live, handed.requested ≤ handed.fUsableSize
  matched : Matched sizes
  origin : sizes = (bucketsFrom (this.pool.fgMinPayloadSize % sizeLimit)
    sizes.length).map PoolBucket.sizes
  inUse : this.heap.inUse = heapBytes this.live
  room : this.heap.inUse + this.pool.fAllocSz < sizeLimit
  counted : Counted this.pool this.live

section

variable {sizes : List (Nat × Nat)} {this : PoolSystem}

variable {pool : PoolAllocator} {chunks : ChunkMap} {live : List Handed}

theorem apart_of_held {frees : Nat → List Nat} (inv : PoolInv sizes pool chunks frees)
    (held : Held sizes chunks live) (distinct : (live.map Handed.block).Nodup) :
    live.Pairwise Handed.Apart := by
  have blocks : live.Pairwise fun first second =>
      first.block ≠ second.block := pairwise_map.mp distinct
  apply List.Pairwise.imp_of_mem _ blocks
  intro first second isFirst isSecond different
  unfold Handed.Apart
  split
  · rename_i mh mh' here there
    rcases held first isFirst mh here with ⟨order, chunk, size⟩
    rcases held second isSecond mh' there with ⟨order', chunk', size'⟩
    have apart : mh ≠ mh' := by
      intro same
      rw [here, there, same] at different
      exact different rfl
    rcases inv.far chunk chunk' apart with before | behind
    · left
      unfold chunkSize at before
      dsimp only at before
      omega
    · right
      unfold chunkSize at behind
      dsimp only at behind
      omega
  · rename_i mh mh' here there
    intro same
    rw [here, there, same] at different
    exact different rfl
  · trivial

theorem SystemInv.safe (inv : SystemInv sizes this) : Safe this := by
  rcases inv.pool with ⟨chunks, frees, poolInv, held⟩
  have header : ∀ handed ∈ this.live, ∀ mh, handed.block = .pool mh →
      mh + alignedSize + handed.fUsableSize ≤ this.pool.fAllocSz ∧
        (this.pool.memory mh).map MemoryHeader.fUsableSize = some handed.fUsableSize := by
    intro handed member mh block
    rcases held handed member mh block with ⟨order, chunk, size⟩
    rcases poolInv.inside mh order true chunk with ⟨_, inPool⟩
    rcases poolInv.header mh order true chunk with ⟨header, stored, headerSize, _⟩
    refine ⟨by omega, ?_⟩
    rw [stored, map_some]
    congr 1
    omega
  exact {
    apart := apart_of_held poolInv held inv.distinct
    inside := fun handed member mh block =>
      (header handed member mh block).1
    stored := by
      intro handed member
      cases block : handed.block with
      | pool mh => exact (header handed member mh block).2
      | heap mh =>
        rcases inv.heap handed member mh block with ⟨_, header, stored, same, _⟩
        rw [usableSize, stored, ← same]
        rfl
    enough := inv.enough
    notFree := by
      intro handed member mh block bucket inBuckets reaches
      rcases held handed member mh block with ⟨order, chunk, _⟩
      rcases getElem?_of_mem inBuckets with ⟨order', found⟩
      have free := (poolInv.chain order' bucket found).mem_of_reaches
        reaches
      rw [poolInv.free, chunk] at free
      cases free }

theorem poolPayload_le {frees : Nat → List Nat} (inv : PoolInv sizes pool chunks frees)
    (held : Held sizes chunks live) (distinct : (live.map Handed.block).Nodup) :
    poolPayload live ≤ pool.fAllocSz := by
  apply sum_lengths_le
  · rw [pairwise_filterMap]
    apply List.Pairwise.imp _ (apart_of_held inv held distinct)
    intro first second apart interval here interval' there
    unfold Handed.Apart at apart
    unfold poolInterval at here there
    split at here
    · rename_i mh block
      split at there
      · rename_i mh' block'
        rw [block, block'] at apart
        cases here
        cases there
        rcases apart with before | behind
        · exact Or.inl (by dsimp only; omega)
        · exact Or.inr (by dsimp only; omega)
      · cases there
    · cases here
  · intro interval member
    rcases mem_filterMap.mp member with ⟨handed, isLive, here⟩
    unfold poolInterval at here
    split at here
    · rename_i mh block
      cases here
      rcases held handed isLive mh block with ⟨order, chunk, size⟩
      rcases inv.inside mh order true chunk with ⟨_, inPool⟩
      dsimp only
      omega
    · cases here

variable {mh : Nat}

theorem poolPayload_cons_pool (handed : Handed)
    (block : handed.block = .pool mh) (live : List Handed) :
    poolPayload (handed :: live) = handed.fUsableSize + poolPayload live ∧
      heapPayload (handed :: live) = heapPayload live ∧
      heapBytes (handed :: live) = heapBytes live := by
  have here : poolInterval handed = some (mh, handed.fUsableSize) := by
    rw [poolInterval, block]
  have there : heapInterval handed = none := by
    rw [heapInterval, block]
  unfold poolPayload heapPayload heapBytes
  rw [filterMap_cons_some here, filterMap_cons_none there]
  exact ⟨rfl, rfl, rfl⟩

theorem poolPayload_cons_heap (handed : Handed)
    (block : handed.block = .heap mh) (live : List Handed) :
    poolPayload (handed :: live) = poolPayload live ∧
      heapPayload (handed :: live) = handed.fUsableSize + heapPayload live ∧
      heapBytes (handed :: live) = handed.fUsableSize + alignedSize + heapBytes live := by
  have here : heapInterval handed = some (mh, handed.fUsableSize) := by
    rw [heapInterval, block]
  have there : poolInterval handed = none := by
    rw [poolInterval, block]
  unfold poolPayload heapPayload heapBytes
  rw [filterMap_cons_some here, filterMap_cons_none there]
  exact ⟨rfl, rfl, rfl⟩

section

variable (inv : SystemInv sizes this)
include inv

theorem SystemInv.joinPool {chunks' : ChunkMap} {frees' : Nat → List Nat}
    (held : Held sizes chunks this.live) {order : Nat}
    (served : Served sizes this.pool pool chunks chunks' frees' mh order)
    {requested : Nat} (enough : requested + alignedSize ≤ sizeAt sizes order) :
    ∃ handed : Handed, handed.block = .pool mh ∧ handed.requested = requested ∧
      usableSize pool this.heap (.pool mh) = some handed.fUsableSize ∧
      requested ≤ handed.fUsableSize ∧
      SystemInv sizes ⟨pool, this.heap, handed :: this.live⟩ := by
  rcases served.tracked with ⟨header, stored, tracked⟩
  rcases served.inv.header mh order true served.used with ⟨header', stored', size, _⟩
  have same : header' = header := by
    rw [stored] at stored'
    exact Option.some.inj stored'.symm
  rw [same] at size
  have bound : requested ≤ header.fUsableSize := by omega
  rcases poolPayload_cons_pool
    ⟨.pool mh, requested, header.fUsableSize⟩ rfl this.live with ⟨poolSum, heapSum, bytesSum⟩
  refine ⟨⟨.pool mh, requested, header.fUsableSize⟩, rfl, rfl, ?_, bound, ?_⟩
  · rw [usableSize, stored]
    rfl
  · exact {
      pool := by
        refine ⟨chunks', frees', served.inv, ?_⟩
        intro other member mh' block
        rcases mem_cons.mp member with isNew | isOld
        · rw [isNew] at block ⊢
          cases block
          exact ⟨order, served.used, size⟩
        · rcases held other isOld mh' block with ⟨order', chunk, size'⟩
          exact ⟨order', served.keeps mh' order' chunk, size'⟩
      heap := by
        intro other member mh' block
        rcases mem_cons.mp member with isNew | isOld
        · rw [isNew] at block
          cases block
        · exact inv.heap other isOld mh' block
      distinct := by
        rw [map_cons, nodup_cons]
        refine ⟨?_, inv.distinct⟩
        intro member
        rcases mem_map.mp member with ⟨other, isOld, block⟩
        rcases held other isOld mh block with ⟨order', chunk, _⟩
        exact served.fresh order' chunk
      enough := by
        intro other member
        rcases mem_cons.mp member with isNew | isOld
        · rw [isNew]
          exact bound
        · exact inv.enough other isOld
      matched := inv.matched
      origin := by
        rw [served.minimum]
        exact inv.origin
      inUse := inv.inUse.trans bytesSum.symm
      room := by
        rw [served.allocSz]
        exact inv.room
      counted := by
        unfold Counted
        rw [served.excess, tracked, poolSum, heapSum]
        rcases inv.counted with ⟨noTracker, noExcess⟩ | ⟨total, excess⟩
        · left
          rw [noTracker]
          exact ⟨rfl, noExcess⟩
        · right
          rw [total, BitVec.ofNat_add, BitVec.add_comm]
          exact ⟨rfl, excess⟩ }

theorem SystemInv.joinHeap {requested : Nat}
    (room : this.heap.inUse + (requested + alignedSize) + this.pool.fAllocSz < sizeLimit) :
    SystemInv sizes
      ⟨{ this.pool with
          fpPoolTotalExcessTracker :=
            this.pool.fpPoolTotalExcessTracker.trackAlloc
              ⟨requested, .eUsedNotPooled, none⟩ },
        ⟨fun o =>
            if o = this.heap.count then
              some ⟨requested, .eUsedNotPooled, none⟩
            else this.heap.blocks o,
          this.heap.count + 1,
          this.heap.inUse + (requested + alignedSize)⟩,
        ⟨.heap this.heap.count, requested, requested⟩ :: this.live⟩ := by
  rcases inv.pool with ⟨chunks, frees, poolInv, held⟩
  rcases poolPayload_cons_heap
    ⟨.heap this.heap.count, requested, requested⟩ rfl this.live with ⟨poolSum, heapSum, bytesSum⟩
  exact {
    pool := by
      refine ⟨chunks, frees, { poolInv with shape := poolInv.shape }, ?_⟩
      intro other member mh block
      rcases mem_cons.mp member with isNew | isOld
      · rw [isNew] at block
        cases block
      · exact held other isOld mh block
    heap := by
      intro other member mh block
      rcases mem_cons.mp member with isNew | isOld
      · rw [isNew] at block ⊢
        cases block
        exact ⟨lt_succ_self _, _, if_pos rfl, rfl, rfl⟩
      · rcases inv.heap other isOld mh block with ⟨known, header, stored, facts⟩
        refine ⟨lt_succ_of_lt known, header, ?_, facts⟩
        exact (if_neg (Nat.ne_of_lt known)).trans stored
    distinct := by
      rw [map_cons, nodup_cons]
      refine ⟨?_, inv.distinct⟩
      intro member
      rcases mem_map.mp member with ⟨other, isOld, block⟩
      rcases inv.heap other isOld _ block with ⟨known, _⟩
      exact lt_irrefl _ known
    enough := by
      intro other member
      rcases mem_cons.mp member with isNew | isOld
      · rw [isNew]
      · exact inv.enough other isOld
    matched := inv.matched
    origin := inv.origin
    inUse := by
      rw [bytesSum, ← inv.inUse]
      exact add_comm _ _
    room := room
    counted := by
      unfold Counted
      rw [poolSum, heapSum]
      rcases inv.counted with ⟨noTracker, noExcess⟩ | ⟨total, excess⟩
      · left
        rw [noExcess]
        exact ⟨noTracker, rfl⟩
      · right
        rw [excess, BitVec.ofNat_add, BitVec.add_comm]
        exact ⟨total, rfl⟩ }

theorem request_inv (requested : Nat) (granted : Bool)
    (suits : Suits this.pool.fPoolBuckets (requested + alignedSize)) :
    ∃ after result,
      this.request requested (requested + alignedSize) granted = some (after, result) ∧
      SystemInv sizes after ∧
      ∀ handed, result = some handed → handed ∈ after.live ∧ requested ≤ handed.fUsableSize := by
  rcases inv.pool with ⟨chunks, frees, poolInv, held⟩
  rcases poolInv.alloc inv.matched this.heap suits granted with
    ⟨pool, mh, order, chunks', frees', allocs, served, enough⟩ | onHeap
  · rcases inv.joinPool held served enough with ⟨handed, block, asked, usable, bound, joined⟩
    refine ⟨_, some handed, ?_, joined, ?_⟩
    · simp only [request, allocs, usable, bind_eq_bind, bind_some]
      rw [← block, ← asked]
    · intro other same
      cases same
      exact ⟨mem_cons_self, bound⟩
  · unfold allocOnHeap at onHeap
    split at onHeap
    · rename_i grants
      rw [if_neg (by omega), Nat.add_sub_cancel] at onHeap
      refine ⟨_, some ⟨.heap this.heap.count, requested, requested⟩, ?_, inv.joinHeap grants.2, ?_⟩
      · simp only [request, onHeap, usableSize, if_true, map_some, bind_eq_bind, bind_some]
      · intro other same
        cases same
        exact ⟨mem_cons_self, le_refl _⟩
    · refine ⟨this, none, ?_, inv, nofun⟩
      simp only [request, onHeap, bind_eq_bind, bind_some]

theorem write_inv {handed : Handed} (member : handed ∈ this.live) {len : Nat}
    (fits : len ≤ handed.fUsableSize) (contents : Nat → Option MemoryHeader) :
    ∃ after, this.write handed len contents = some after ∧ SystemInv sizes after := by
  rcases inv.pool with ⟨chunks, frees, poolInv, held⟩
  unfold write
  rw [if_pos fits]
  cases block : handed.block with
  | heap mh => exact ⟨this, rfl, inv⟩
  | pool mh =>
    rcases held handed member mh block with ⟨order, chunk, size⟩
    have inChunk : len + alignedSize ≤ chunkSize sizes (order, true) := by
      unfold chunkSize
      dsimp only
      omega
    refine ⟨_, rfl, ?_⟩
    exact { inv with
      pool := ⟨chunks, frees, poolInv.scribble chunk inChunk contents, held⟩ }

end

theorem payload_perm {live' : List Handed} (perm : live.Perm live') :
    poolPayload live = poolPayload live' ∧ heapPayload live = heapPayload live' ∧
      heapBytes live = heapBytes live' :=
  ⟨total_perm ((perm.filterMap _).map _), total_perm ((perm.filterMap _).map _),
    total_perm ((perm.filterMap _).map _)⟩

def without (live : List Handed) (block : Block) : List Handed :=
  live.filter fun handed => handed.block ≠ block

theorem mem_without {block : Block} {other : Handed} (member : other ∈ without live block) :
    other ∈ live ∧ other.block ≠ block := by
  have both := mem_filter.mp member
  rw [decide_eq_true_eq] at both
  exact both

theorem distinct_without (distinct : (live.map Handed.block).Nodup) (block : Block) :
    ((without live block).map Handed.block).Nodup :=
  List.Nodup.sublist (filter_sublist.map _) distinct

theorem sub_of_add (freed rest : Nat) :
    BitVec.ofNat 64 (freed + rest) - BitVec.ofNat 64 freed = BitVec.ofNat 64 rest := by
  rw [BitVec.ofNat_add, BitVec.add_comm, BitVec.add_sub_cancel]

theorem freePool_inv (inv : SystemInv sizes this) {handed : Handed}
    (member : handed ∈ this.live) (block : handed.block = .pool mh) :
    ∃ after, this.step (.free (.pool mh)) = some after ∧ SystemInv sizes after := by
  rcases inv.pool with ⟨chunks, frees, poolInv, held⟩
  rcases held handed member mh block with ⟨order, chunk, size⟩
  rcases poolInv.free' this.heap chunk with
      ⟨pool, header, chunks', frees', frees_, stored, headerSize, poolInv',
       others, tracked, minimum, allocSz, excess⟩
  have same : header.fUsableSize = handed.fUsableSize := by omega
  rcases payload_perm (perm_given_back inv.distinct member) with ⟨poolSum, heapSum, bytesSum⟩
  rcases poolPayload_cons_pool handed block (without this.live handed.block) with
      ⟨poolCons, heapCons, bytesCons⟩
  refine ⟨⟨pool, this.heap, without this.live handed.block⟩, ?_, ?_⟩
  · simp only [step, frees_, bind_eq_bind, bind_some, block]
    rfl
  · exact {
      pool := by
        refine ⟨chunks', frees', poolInv', ?_⟩
        intro other isLeft mh' there
        rcases mem_without isLeft with ⟨isLive, different⟩
        rcases held other isLive mh' there with ⟨order', chunk', size'⟩
        refine ⟨order', others mh' order' ?_ chunk', size'⟩
        intro sameBlock
        rw [there, block, sameBlock] at different
        exact different rfl
      heap := fun other isLeft =>
        inv.heap other (mem_without isLeft).1
      distinct := distinct_without inv.distinct _
      enough := fun other isLeft =>
        inv.enough other (mem_without isLeft).1
      matched := inv.matched
      origin := by
        rw [minimum]
        exact inv.origin
      inUse := inv.inUse.trans (bytesSum.trans bytesCons)
      room := by
        rw [allocSz]
        exact inv.room
      counted := by
        have poolTotal := poolSum.trans poolCons
        have heapTotal := heapSum.trans heapCons
        unfold Counted
        rw [excess, tracked]
        rcases inv.counted with ⟨noTracker, noExcess⟩ | ⟨total, excess'⟩
        · left
          rw [noTracker]
          exact ⟨rfl, noExcess⟩
        · right
          rw [total, poolTotal, ← same]
          refine ⟨congrArg some (sub_of_add _ _), ?_⟩
          rw [excess', heapTotal] }

theorem freeHeap_inv (inv : SystemInv sizes this) {handed : Handed}
    (member : handed ∈ this.live) (block : handed.block = .heap mh) :
    ∃ after, this.step (.free (.heap mh)) = some after ∧ SystemInv sizes after := by
  rcases inv.pool with ⟨chunks, frees, poolInv, held⟩
  rcases inv.heap handed member mh block with ⟨known, header, stored, same, state⟩
  rcases payload_perm (perm_given_back inv.distinct member) with ⟨poolSum, heapSum, bytesSum⟩
  rcases poolPayload_cons_heap handed block (without this.live handed.block) with
      ⟨poolCons, heapCons, bytesCons⟩
  have inUse := inv.inUse.trans (bytesSum.trans bytesCons)
  have freed : this.step (.free (.heap mh)) = some
      ⟨{ this.pool with
          fpPoolTotalExcessTracker := this.pool.fpPoolTotalExcessTracker.trackFree header },
        { this.heap with
          blocks := fun o => if o = mh then none else this.heap.blocks o
          inUse := this.heap.inUse - (header.fUsableSize + alignedSize) },
        without this.live handed.block⟩ := by
    simp only [step, PoolAllocator.free, stored, state, bind_eq_bind, bind_some, block]
    rfl
  refine ⟨_, freed, ?_⟩
  exact {
    pool := by
      refine ⟨chunks, frees, { poolInv with shape := poolInv.shape }, ?_⟩
      intro other isLeft
      exact held other (mem_without isLeft).1
    heap := by
      intro other isLeft mh' there
      rcases mem_without isLeft with ⟨isLive, different⟩
      rcases inv.heap other isLive mh' there with ⟨known', header', stored', facts⟩
      have apart : mh' ≠ mh := by
        intro sameBlock
        rw [there, block, sameBlock] at different
        exact different rfl
      exact ⟨known', header', (if_neg apart).trans stored', facts⟩
    distinct := distinct_without inv.distinct _
    enough := fun other isLeft =>
      inv.enough other (mem_without isLeft).1
    matched := inv.matched
    origin := inv.origin
    inUse := by
      dsimp only
      rw [inUse, same, Nat.add_sub_cancel_left]
    room := by
      have bound := inv.room
      dsimp only
      omega
    counted := by
      have poolTotal := poolSum.trans poolCons
      have heapTotal := heapSum.trans heapCons
      unfold Counted
      dsimp only
      rcases inv.counted with ⟨noTracker, noExcess⟩ | ⟨total, excess⟩
      · left
        rw [noExcess]
        exact ⟨noTracker, rfl⟩
      · right
        rw [excess, heapTotal, ← same]
        refine ⟨?_, congrArg some (sub_of_add _ _)⟩
        rw [total, poolTotal] }

/-! ## A pool without chunks -/

theorem mem_bucketsFrom {sz number : Nat} {bucket : PoolBucket}
    (member : bucket ∈ bucketsFrom sz number) :
    bucket.fFirstFree = none ∧ bucket.fSize = (bucket.fUsableSize + alignedSize) % sizeLimit := by
  induction number generalizing sz with
  | zero => cases member
  | succ number ih =>
    rcases mem_cons.mp member with first | later
    · rw [first]
      exact ⟨rfl, rfl⟩
    · exact ih later

theorem length_bucketsFrom (sz number : Nat) : (bucketsFrom sz number).length = number := by
  induction number generalizing sz with
  | zero => rfl
  | succ number ih => exact congrArg Nat.succ (ih _)

theorem empty_inv (buckets : pool.fPoolBuckets.map PoolBucket.sizes = sizes)
    (unused : ∀ bucket ∈ pool.fPoolBuckets, bucket.fFirstFree = none)
    (whole : pool.fFirstFree = pool.fAllocSz) :
    PoolInv sizes pool (fun _ => none) fun _ => [] where
  shape := buckets
  bound := le_of_eq whole
  apart := nofun
  untouched := nofun
  inside := nofun
  header := nofun
  chain := by
    intro order bucket found
    rw [unused bucket (mem_of_getElem? found)]
    exact Chain.nil
  free := by
    intro order o
    constructor
    · nofun
    · nofun
  nodup := fun _ => nodup_nil

theorem unused_of_zero (inv : SystemInv sizes this) (zero : this.pool.currentlyAllocated = 0)
    (tracked : this.pool.fTracker.isSome = true) :
    ∀ handed ∈ this.live, ∀ mh, handed.block ≠ .pool mh := by
  rcases inv.pool with ⟨chunks, frees, poolInv, held⟩
  have poolBound := poolPayload_le poolInv held inv.distinct
  have heapBound := heapPayload_le this.live
  have room := inv.room
  rw [inv.inUse] at room
  have limit : sizeLimit = 18446744073709551616 := rfl
  rcases inv.counted with ⟨noTracker, _⟩ | ⟨total, excess⟩
  · rw [noTracker] at tracked
    cases tracked
  · have sum : BitVec.ofNat 64
        (poolPayload this.live + heapPayload this.live) = 0 := by
      rw [BitVec.ofNat_add, ← zero, currentlyAllocated, total, excess]
      rfl
    have value := congrArg BitVec.toNat sum
    rw [BitVec.toNat_ofNat, mod_eq_of_lt (by omega)] at value
    have noPayload : poolPayload this.live = 0 := Nat.eq_zero_of_add_eq_zero_right value
    intro handed member mh block
    rcases held handed member mh block with ⟨order, chunk, size⟩
    have large := poolInv.header_lt chunk
    rcases payload_perm (perm_given_back inv.distinct member) with ⟨poolSum, _⟩
    rcases poolPayload_cons_pool handed block (without this.live handed.block) with ⟨poolCons, _⟩
    have total := poolSum.trans poolCons
    unfold chunkSize at large
    dsimp only at large
    omega

theorem refresh_inv (inv : SystemInv sizes this)
    (known : this.pool.fTracker.isSome = true ∨
      ∀ handed ∈ this.live, ∀ mh, handed.block ≠ .pool mh) :
    SystemInv sizes { this with pool := this.pool.refresh } := by
  unfold refresh
  split
  · rename_i zero
    have unused : ∀ handed ∈ this.live, ∀ mh, handed.block ≠ .pool mh := by
      rcases known with tracked | unused
      · exact unused_of_zero inv zero tracked
      · exact unused
    rcases inv.pool with ⟨chunks, frees, poolInv, held⟩
    have sameLength : this.pool.fPoolBuckets.length = sizes.length := by
      rw [← poolInv.shape, length_map]
    have shape : (this.pool.initializePool).fPoolBuckets.map
        PoolBucket.sizes = sizes := by
      rw [inv.origin, ← sameLength]
      rfl
    exact { inv with
      pool := by
        refine ⟨_, _, empty_inv shape ?_ rfl, ?_⟩
        · intro bucket member
          exact (mem_bucketsFrom member).1
        · intro handed member mh block
          exact absurd block (unused handed member mh) }
  · exact inv

def created (fgMinPayloadSize poolSize maxPoolBuckets : Nat) (level : Int) : PoolSystem :=
  ⟨create fgMinPayloadSize poolSize maxPoolBuckets level, ⟨fun _ => none, 0, 0⟩, []⟩

theorem created_inv (fgMinPayloadSize poolSize maxPoolBuckets : Nat) (level : Int) :
    ∃ sizes, SystemInv sizes
      (created fgMinPayloadSize poolSize maxPoolBuckets level) := by
  refine ⟨(bucketsFrom (fgMinPayloadSize % sizeLimit)
    maxPoolBuckets).map PoolBucket.sizes, ?_⟩
  exact {
    pool := by
      refine ⟨_, _, empty_inv rfl ?_ rfl, nofun⟩
      intro bucket member
      exact (mem_bucketsFrom member).1
    heap := nofun
    distinct := nodup_nil
    enough := nofun
    matched := by
      intro order size found
      have member := mem_of_getElem? found
      rcases mem_map.mp member with ⟨bucket, inBuckets, same⟩
      rw [← same]
      exact (mem_bucketsFrom inBuckets).2
    origin := by
      rw [length_map, length_bucketsFrom]
      rfl
    inUse := rfl
    room := by
      dsimp only [created, create]
      rw [zero_add]
      exact mod_lt _ (by decide)
    counted := by
      unfold Counted
      dsimp only [created, create, makeTracker]
      split
      · exact Or.inr ⟨rfl, rfl⟩
      · exact Or.inl ⟨rfl, rfl⟩ }

end

/-- The size of a request with its header is a `size_t`, and the bucket for
it has a size without overflow. -/
def Requestable (this : PoolSystem) (requested : Nat) : Prop :=
  requested + alignedSize < sizeLimit ∧ Suits this.pool.fPoolBuckets (requested + alignedSize)

/-- Blocks that are freed or written are in use, and `Refresh` is called
with statistics or when no block of the pool is in use. -/
def Meets (this : PoolSystem) : Op → Prop
  | .malloc size _ => this.Requestable size
  | .calloc n size _ => this.Requestable (toSize n * size)
  | .free block => ∃ handed ∈ this.live, handed.block = block
  | .refresh => this.pool.fTracker.isSome = true ∨
      ∀ handed ∈ this.live, ∀ mh, handed.block ≠ .pool mh
  | .write handed _ => handed ∈ this.live

theorem step_inv {sizes : List (Nat × Nat)} {this : PoolSystem} {op : Op}
    (inv : SystemInv sizes this) (meets : this.Meets op) :
    ∃ after, this.step op = some after ∧ SystemInv sizes after := by
  cases op with
  | malloc size granted =>
    rcases meets with ⟨fits, suits⟩
    rcases request_inv inv size granted suits with ⟨after, result, requests, afterInv, _⟩
    refine ⟨after, ?_, afterInv⟩
    simp only [step, allocSize, mul_one, mod_eq_of_lt fits, requests, bind_eq_bind, bind_some]
  | calloc n size granted =>
    rcases meets with ⟨fits, suits⟩
    rcases request_inv inv (toSize n * size) granted suits with
        ⟨after, result, requests, afterInv, joined⟩
    simp only [step, allocSize, mod_eq_of_lt fits, requests, bind_eq_bind, bind_some]
    cases result with
    | none => exact ⟨after, rfl, afterInv⟩
    | some handed =>
      rcases joined handed rfl with ⟨isLive, enough⟩
      have small : toSize n * size % sizeLimit ≤ handed.fUsableSize := (mod_le _ _).trans enough
      exact write_inv afterInv isLive small _
  | free block =>
    rcases meets with ⟨handed, member, isBlock⟩
    cases block with
    | pool mh => exact freePool_inv inv member isBlock
    | heap mh => exact freeHeap_inv inv member isBlock
  | refresh => exact ⟨_, rfl, refresh_inv inv meets⟩
  | write handed contents =>
    have isLive : handed ∈ this.live := meets
    simp only [step, if_pos isLive]
    exact write_inv inv isLive (le_refl _) contents

/-- Every operation meets its condition in the state that it finds. -/
def RunMeets (this : PoolSystem) : List Op → Prop
  | [] => True
  | op :: ops => this.Meets op ∧ ∀ after, this.step op = some after → after.RunMeets ops

theorem run_inv {sizes : List (Nat × Nat)} {this : PoolSystem}
    {ops : List Op} (inv : SystemInv sizes this) (meets : this.RunMeets ops) :
    ∃ after, this.run ops = some after ∧ SystemInv sizes after := by
  induction ops generalizing this with
  | nil => exact ⟨this, rfl, inv⟩
  | cons op ops ih =>
    rcases step_inv inv meets.1 with ⟨after, steps, afterInv⟩
    rcases ih afterInv (meets.2 after steps) with ⟨last, runs, lastInv⟩
    refine ⟨last, ?_, lastInv⟩
    rw [run, steps]
    exact runs

/-- Every run of operations that meet their conditions leaves the clients
with blocks that they can rely on. -/
theorem created_run_safe (fgMinPayloadSize poolSize maxPoolBuckets : Nat)
    (level : Int) (ops : List Op)
    (meets : (created fgMinPayloadSize poolSize maxPoolBuckets
      level).RunMeets ops) :
    ∃ after, (created fgMinPayloadSize poolSize maxPoolBuckets level).run
        ops = some after ∧ Safe after := by
  rcases created_inv fgMinPayloadSize poolSize maxPoolBuckets level with ⟨sizes, inv⟩
  rcases run_inv inv meets with ⟨after, runs, afterInv⟩
  exact ⟨after, runs, afterInv.safe⟩

/-- With statistics a block in use stays apart from what is handed out after
`Refresh`. -/
theorem created_run_safe_tracked :
    (created 16 1 1 1).RunMeets [.malloc 16 true, .refresh] ∧
      ∃ after, (created 16 1 1 1).run [.malloc 16 true, .refresh] = some after ∧ Safe after := by
  have meets : (created 16 1 1 1).RunMeets [.malloc 16 true, .refresh] := by
    refine ⟨⟨by decide, ?_⟩, ?_⟩
    · intro order bucket _ found
      have member := mem_of_getElem? found
      have small : ∀ bucket ∈ (created 16 1 1 1).pool.fPoolBuckets,
          0 < bucket.fUsableSize ∧ bucket.fUsableSize + alignedSize < 9223372036854775808 := by
        decide +kernel
      exact small bucket member
    · intro after steps
      refine ⟨Or.inl ?_, fun _ _ => trivial⟩
      have tracked : ((created 16 1 1 1).step (.malloc 16 true)).map
          (fun after => after.pool.fTracker.isSome) = some true := by
        decide +kernel
      rw [steps] at tracked
      exact Option.some.inj tracked
  exact ⟨meets, created_run_safe 16 1 1 1 _ meets⟩

/-- Without statistics the block in use is handed out once more. -/
theorem not_created_run_safe :
    ∃ after, (created 16 1 1 0).run
        [.malloc 16 true, .refresh, .malloc 16 true] = some after ∧
      after.live = [⟨.pool 976, 16, 16⟩, ⟨.pool 976, 16, 16⟩] ∧
      ¬ Safe after := by
  have blocks : ((created 16 1 1 0).run
      [.malloc 16 true, .refresh, .malloc 16 true]).map PoolSystem.live =
        some [⟨.pool 976, 16, 16⟩, ⟨.pool 976, 16, 16⟩] := by
    decide +kernel
  rcases map_eq_some_iff.mp blocks with ⟨after, runs, live⟩
  refine ⟨after, runs, live, ?_⟩
  intro safe
  have apart := safe.apart
  rw [live] at apart
  have overlap := rel_of_pairwise_cons apart mem_cons_self
  rcases overlap with before | behind
  · exact absurd before (by decide)
  · exact absurd behind (by decide)

end PoolSystem

end Coast
