import Coast.Library.Chunks
import Coast.Miscellaneous.PoolAllocator

/-!
# What holds of the pool

Every chunk of the pool is in use or on the free list of its bucket, the
chunks lie apart, and each one starts with its header.
-/

namespace Coast

open Chunks LinkedChain List Function

def PoolBucket.sizes (bucket : PoolBucket) : Nat × Nat := (bucket.fSize, bucket.fUsableSize)

namespace PoolAllocator

def sizeAt (sizes : List (Nat × Nat)) (order : Nat) : Nat := (sizes[order]?.map Prod.fst).getD 0

/-- The size of a bucket is one of a `long` and larger than those of the
buckets before it. -/
structure Usable (sizes : List (Nat × Nat)) (order : Nat) : Prop where
  here : ∃ usable, sizes[order]? = some (usable + alignedSize, usable) ∧
    0 < usable ∧ usable + alignedSize < 9223372036854775808
  smaller : ∀ before, before < order → sizeAt sizes before < sizeAt sizes order

theorem Usable.sizeAt_eq {sizes : List (Nat × Nat)} {order : Nat} (usable : Usable sizes order) :
    ∃ payload, sizes[order]? = some (payload + alignedSize, payload) ∧
      0 < payload ∧ sizeAt sizes order = payload + alignedSize ∧
      payload + alignedSize < 9223372036854775808 := by
  rcases usable.here with ⟨payload, found, positive, small⟩
  refine ⟨payload, found, positive, ?_, small⟩
  rw [sizeAt, found]
  rfl

theorem Usable.header_le {sizes : List (Nat × Nat)} {order : Nat}
    (usable : Usable sizes order) : alignedSize < sizeAt sizes order := by
  rcases usable.sizeAt_eq with ⟨payload, _, positive, same, _⟩
  omega

/-- The order of its bucket, and whether it is used. -/
abbrev Chunk := Nat × Bool

/-- The chunks by the places of their headers. -/
abbrev ChunkMap := Nat → Option Chunk

def chunkSize (sizes : List (Nat × Nat)) (chunk : Chunk) : Nat := sizeAt sizes chunk.1

def link (memory : Nat → Option MemoryHeader) : Nat → Option (Option Nat) :=
  fun o => (memory o).map MemoryHeader.fNextFree

def stateOf (used : Bool) : EMemState := if used then .eUsed else .eFree

/-- The memory is cut into chunks, and the free ones are in the lists of their buckets. -/
structure PoolInv (sizes : List (Nat × Nat)) (this : PoolAllocator)
    (chunks : ChunkMap) (frees : Nat → List Nat) : Prop where
  shape : this.fPoolBuckets.map PoolBucket.sizes = sizes
  bound : this.fFirstFree ≤ this.fAllocSz
  apart : Apart (chunkSize sizes) chunks
  untouched : Gap (chunkSize sizes) chunks 0 this.fFirstFree
  inside : ∀ o order used, chunks o = some (order, used) →
    Usable sizes order ∧ o + sizeAt sizes order ≤ this.fAllocSz
  header : ∀ o order used, chunks o = some (order, used) → ∃ header, this.memory o = some header ∧
      header.fUsableSize + alignedSize = sizeAt sizes order ∧
      header.fState = stateOf used
  chain : ∀ order bucket, this.fPoolBuckets[order]? = some bucket →
    Chain (link this.memory) bucket.fFirstFree (frees order)
  free : ∀ order o, o ∈ frees order ↔ chunks o = some (order, false)
  nodup : ∀ order, (frees order).Nodup

section

variable {sizes : List (Nat × Nat)} {this : PoolAllocator}
  {chunks : ChunkMap} {frees : Nat → List Nat}

variable {o mh : Nat} {chunk : Chunk}

theorem PoolInv.far (inv : PoolInv sizes this chunks frees) {chunk' : Chunk}
    (here : chunks o = some chunk) (there : chunks mh = some chunk') (different : o ≠ mh) :
    o + chunkSize sizes chunk ≤ mh ∨ mh + chunkSize sizes chunk' ≤ o := by
  rcases Nat.lt_or_gt_of_ne different with before | behind
  · exact Or.inl (inv.apart o mh chunk chunk' here there before)
  · exact Or.inr (inv.apart mh o chunk' chunk there here behind)

theorem PoolInv.header_lt (inv : PoolInv sizes this chunks frees) (here : chunks o = some chunk) :
    alignedSize < chunkSize sizes chunk :=
  (inv.inside o chunk.1 chunk.2 here).1.header_le

theorem writeHeader_far (memory : Nat → Option MemoryHeader) (header : MemoryHeader)
    (far : o + alignedSize ≤ mh ∨ mh + alignedSize ≤ o) :
    writeHeader memory mh header o = memory o := by
  unfold writeHeader
  rw [if_neg (by unfold alignedSize at far; omega), if_neg (by omega)]

theorem writeHeader_here (memory : Nat → Option MemoryHeader) (mh : Nat)
    (header : MemoryHeader) : writeHeader memory mh header mh = some header := by
  unfold writeHeader
  rw [if_pos rfl]

theorem PoolInv.writeHeader_other (inv : PoolInv sizes this chunks frees)
    {chunk' : Chunk} (header : MemoryHeader)
    (here : chunks o = some chunk) (there : chunks mh = some chunk') (different : o ≠ mh) :
    writeHeader this.memory mh header o = this.memory o := by
  apply writeHeader_far
  have large := inv.header_lt here
  have large' := inv.header_lt there
  rcases inv.far here there different with before | behind
  · exact Or.inl (by omega)
  · exact Or.inr (by omega)

theorem link_congr {memory memory' : Nat → Option MemoryHeader}
    (same : memory' o = memory o) : link memory' o = link memory o := by
  unfold link
  rw [same]

theorem PoolInv.memory (inv : PoolInv sizes this chunks frees) {memory : Nat → Option MemoryHeader}
    (same : ∀ o chunk, chunks o = some chunk → memory o = this.memory o) :
    PoolInv sizes { this with memory := memory } chunks frees where
  shape := inv.shape
  bound := inv.bound
  apart := inv.apart
  untouched := inv.untouched
  inside := inv.inside
  header := by
    intro o order used here
    rcases inv.header o order used here with ⟨header, stored, facts⟩
    exact ⟨header, (same o _ here).trans stored, facts⟩
  chain := by
    intro order bucket found
    apply (inv.chain order bucket found).congr
    intro o member
    exact link_congr (same o _ ((inv.free order o).mp member))
  free := inv.free
  nodup := inv.nodup

theorem PoolInv.scribble (inv : PoolInv sizes this chunks frees)
    {len : Nat} (here : chunks mh = some chunk)
    (fits : len + alignedSize ≤ chunkSize sizes chunk) (contents : Nat → Option MemoryHeader) :
    PoolInv sizes
      { this with
        memory := scribble this.memory (mh + alignedSize) len contents }
      chunks frees := by
  apply inv.memory
  intro o other there
  unfold Coast.scribble
  rw [if_neg]
  have large := inv.header_lt there
  by_cases same : o = mh
  · omega
  · rcases inv.far there here same with before | behind
    · omega
    · omega

theorem getElem?_setFirstFree (order : Nat) (first : Option Nat) (order' : Nat) :
    (this.setFirstFree order first).fPoolBuckets[order']? =
      if order = order' then
        this.fPoolBuckets[order']?.map fun bucket =>
          { bucket with fFirstFree := first }
      else this.fPoolBuckets[order']? := by
  unfold setFirstFree
  dsimp only
  rw [getElem?_modify]
  split
  · rfl
  · exact Option.map_id'

theorem sizes_setFirstFree (order : Nat) (first : Option Nat) :
    (this.setFirstFree order first).fPoolBuckets.map PoolBucket.sizes =
      this.fPoolBuckets.map PoolBucket.sizes := by
  apply ext_getElem?
  intro i
  rw [getElem?_map, getElem?_setFirstFree, getElem?_map]
  split
  · rw [Option.map_map]
    rfl
  · rfl

theorem PoolInv.retag (inv : PoolInv sizes this chunks frees)
    {order : Nat} {used used' : Bool} {header : MemoryHeader}
    {first : Option Nat} {elements : List Nat} (here : chunks mh = some (order, used))
    (size : header.fUsableSize + alignedSize = sizeAt sizes order)
    (state : header.fState = stateOf used')
    (chain : Chain (link (writeHeader this.memory mh header)) first elements)
    (members : ∀ o, o ∈ elements ↔
      Function.update chunks mh (some (order, used')) o = some (order, false))
    (nodup : elements.Nodup) :
    PoolInv sizes ((this.setHeader mh header).setFirstFree order first)
      (Function.update chunks mh (some (order, used'))) (Function.update frees order elements) where
  shape := (sizes_setFirstFree order first).trans inv.shape
  bound := inv.bound
  apart := inv.apart.retag here rfl
  untouched := by
    intro o chunk there
    rw [update_apply] at there
    split at there
    · rename_i same
      cases there
      rw [same]
      exact inv.untouched mh (order, used) here
    · exact inv.untouched o chunk there
  inside := by
    intro o order' used'' there
    rw [update_apply] at there
    split at there
    · rename_i same
      cases there
      rw [same]
      exact inv.inside mh order used here
    · exact inv.inside o order' used'' there
  header := by
    intro o order' used'' there
    rw [update_apply] at there
    split at there
    · rename_i same
      cases there
      rw [same]
      exact ⟨header, writeHeader_here _ _ _, size, state⟩
    · rename_i different
      rcases inv.header o order' used'' there with ⟨other, stored, facts⟩
      exact ⟨other, (inv.writeHeader_other header there here different).trans stored, facts⟩
  chain := by
    intro order' bucket found
    rw [getElem?_setFirstFree] at found
    split at found
    · rename_i same
      rw [Option.map_eq_some_iff] at found
      rcases found with ⟨old, _, now⟩
      rw [← now, ← same, update_self]
      exact chain
    · rename_i different
      rw [update_of_ne (Ne.symm different)]
      apply (inv.chain order' bucket found).congr
      intro o member
      have there := (inv.free order' o).mp member
      apply link_congr
      apply inv.writeHeader_other header there here
      intro same
      rw [same, here] at there
      cases there
      exact different rfl
  free := by
    intro order' o
    by_cases same : order' = order
    · rw [same, update_self]
      exact members o
    · rw [update_of_ne same, inv.free, update_apply]
      split
      · rename_i isHere
        rw [isHere, here]
        constructor
        · intro wrong
          cases wrong
          exact absurd rfl same
        · intro wrong
          cases wrong
          exact absurd rfl same
      · rfl
  nodup := by
    intro order'
    by_cases same : order' = order
    · rw [same, update_self]
      exact nodup
    · rw [update_of_ne same]
      exact inv.nodup order'

end

end PoolAllocator

/-!
## What the operations of the pool do

`RemoveHeaderFromBucket`, `MakeHeaderFromBucket` and
`InsertFreeHeaderIntoBucket` move a chunk; `Alloc` and `Free` are made of
them.
-/

open Option

namespace PoolAllocator

/-- What a call leaves as it was. -/
structure SameRest (this after : PoolAllocator) : Prop where
  minimum : after.fgMinPayloadSize = this.fgMinPayloadSize
  allocSz : after.fAllocSz = this.fAllocSz
  tracker : after.fTracker = this.fTracker
  excess : after.fpPoolTotalExcessTracker = this.fpPoolTotalExcessTracker

theorem SameRest.refl (this : PoolAllocator) : SameRest this this := ⟨rfl, rfl, rfl, rfl⟩

theorem SameRest.trans {first second third : PoolAllocator}
    (before : SameRest first second) (after : SameRest second third) :
    SameRest first third where
  minimum := after.minimum.trans before.minimum
  allocSz := after.allocSz.trans before.allocSz
  tracker := after.tracker.trans before.tracker
  excess := after.excess.trans before.excess

def Keeps (chunks chunks' : ChunkMap) : Prop :=
  ∀ o order, chunks o = some (order, true) → chunks' o = some (order, true)

theorem Keeps.update {chunks : ChunkMap} {mh : Nat} (free : ∀ order, chunks mh ≠ some (order, true))
    (chunk : Option Chunk) : Keeps chunks (Function.update chunks mh chunk) := by
  intro o order here
  have different : o ≠ mh := by
    intro same
    rw [same] at here
    exact free order here
  rw [update_of_ne different]
  exact here

section

variable {sizes : List (Nat × Nat)} {this : PoolAllocator}
  {chunks : ChunkMap} {frees : Nat → List Nat}

variable {order : Nat}

variable (inv : PoolInv sizes this chunks frees)
include inv

theorem PoolInv.bucket {size : Nat × Nat} (found : sizes[order]? = some size) :
    ∃ bucket, this.fPoolBuckets[order]? = some bucket ∧
      bucket.fSize = size.1 ∧ bucket.fUsableSize = size.2 := by
  rw [← inv.shape, getElem?_map, map_eq_some_iff] at found
  rcases found with ⟨bucket, here, same⟩
  exact ⟨bucket, here, congrArg Prod.fst same, congrArg Prod.snd same⟩

theorem PoolInv.size_of_bucket {bucket : PoolBucket}
    (found : this.fPoolBuckets[order]? = some bucket) :
    sizes[order]? = some (bucket.fSize, bucket.fUsableSize) := by
  rw [← inv.shape, getElem?_map, found]
  rfl

theorem PoolInv.remove {bucket : PoolBucket}
    (found : this.fPoolBuckets[order]? = some bucket) (filled : bucket.fFirstFree.isSome = true) :
    ∃ after mh frees', this.removeHeaderFromBucket order = some (after, mh) ∧
      chunks mh = some (order, false) ∧
      PoolInv sizes after
        (Function.update chunks mh (some (order, true))) frees' ∧
      after.fFirstFree = this.fFirstFree ∧ SameRest this after := by
  have chain := inv.chain order bucket found
  cases first : bucket.fFirstFree with
  | none =>
    rw [first] at filled
    cases filled
  | some mh =>
    rw [first] at chain
    rcases chain.pop with ⟨next, rest, elements, goesOn, tail⟩
    have free : chunks mh = some (order, false) := by
      apply (inv.free order mh).mp
      rw [elements]
      exact mem_cons_self
    rcases inv.header mh order false free with ⟨header, stored, size, _⟩
    have noRepeat := inv.nodup order
    rw [elements, nodup_cons] at noRepeat
    have nextIs : header.fNextFree = next := by
      unfold link at goesOn
      rw [stored] at goesOn
      exact Option.some.inj goesOn
    have removed : this.removeHeaderFromBucket order =
        some ((this.setHeader mh { header with fState := .eUsed }).setFirstFree
          order header.fNextFree, mh) := by
      simp only [removeHeaderFromBucket, found, first, stored, bind_eq_bind, bind_some]
    refine ⟨_, mh, Function.update frees order rest, removed, free, ?_, rfl, ⟨rfl, rfl, rfl, rfl⟩⟩
    apply inv.retag free
    · exact size
    · rfl
    · rw [nextIs]
      apply tail.congr
      intro o member
      have there : chunks o = some (order, false) := by
        apply (inv.free order o).mp
        rw [elements]
        exact mem_cons_of_mem _ member
      apply link_congr
      apply inv.writeHeader_other _ there free
      intro same
      rw [same] at member
      exact noRepeat.1 member
    · intro o
      rw [update_apply]
      split
      · rename_i same
        rw [same]
        constructor
        · intro member
          exact absurd member noRepeat.1
        · nofun
      · rename_i different
        rw [← inv.free, elements, mem_cons]
        constructor
        · exact Or.inr
        · intro either
          rcases either with same | later
          · exact absurd same different
          · exact later
    · exact noRepeat.2

theorem PoolInv.insert {mh : Nat} (used : chunks mh = some (order, true)) :
    ∃ after, this.insertFreeHeaderIntoBucket mh order = some after ∧
      PoolInv sizes after (Function.update chunks mh (some (order, false)))
        (Function.update frees order (mh :: frees order)) ∧
      after.fFirstFree = this.fFirstFree ∧ SameRest this after := by
  rcases inv.inside mh order true used with ⟨usable, _⟩
  rcases usable.here with ⟨payload, found, _⟩
  rcases inv.bucket found with ⟨bucket, here, _, _⟩
  rcases inv.header mh order true used with ⟨header, stored, size, _⟩
  have chain := inv.chain order bucket here
  have notFree : mh ∉ frees order := by
    rw [inv.free, used]
    nofun
  have inserted : this.insertFreeHeaderIntoBucket mh order = some ((this.setHeader mh
        ⟨header.fUsableSize, .eFree, bucket.fFirstFree⟩).setFirstFree order (some mh)) := by
    simp only [insertFreeHeaderIntoBucket, here, stored, bind_eq_bind, bind_some]
  refine ⟨_, inserted, ?_, rfl, ⟨rfl, rfl, rfl, rfl⟩⟩
  apply inv.retag used
  · exact size
  · rfl
  · apply chain.push
    · rw [link, writeHeader_here]
      rfl
    · intro o member
      have there := (inv.free order o).mp member
      apply link_congr
      apply inv.writeHeader_other _ there used
      intro same
      rw [same] at member
      exact notFree member
  · intro o
    rw [mem_cons, update_apply]
    split
    · rename_i same
      constructor
      · intro _
        rfl
      · intro _
        exact Or.inl same
    · rename_i different
      rw [← inv.free]
      constructor
      · intro either
        rcases either with same | later
        · exact absurd same different
        · exact later
      · exact Or.inr
  · exact nodup_cons.mpr ⟨notFree, inv.nodup order⟩

theorem PoolInv.none_of_gap {low high o : Nat} (gap : Gap (chunkSize sizes) chunks low high)
    (above : low ≤ o) (below : o < high) : chunks o = none := by
  cases here : chunks o with
  | none => rfl
  | some chunk =>
    have large := inv.header_lt here
    rcases gap o chunk here with before | behind
    · omega
    · omega

/-- A chunk is cut off what is left. -/
theorem PoolInv.make {low high : Nat} (usable : Usable sizes order)
    (gap : Gap (chunkSize sizes) chunks low high) (fits : low + sizeAt sizes order ≤ high)
    (inPool : high ≤ this.fAllocSz) (touched : this.fFirstFree ≤ low) :
    ∃ after, this.makeHeaderFromBucket order high = some (after, high - sizeAt sizes order) ∧
      PoolInv sizes after
        (Function.update chunks (high - sizeAt sizes order)
          (some (order, true))) frees ∧
      after.fFirstFree = this.fFirstFree ∧ SameRest this after := by
  rcases usable.sizeAt_eq with ⟨payload, found, positive, size, _⟩
  rcases inv.bucket found with ⟨bucket, here, bucketSize, bucketUsable⟩
  have sameSize : bucket.fSize = sizeAt sizes order := bucketSize.trans size.symm
  have made : this.makeHeaderFromBucket order high =
      some (this.setHeader (high - sizeAt sizes order)
        ⟨bucket.fUsableSize, .eUsed, none⟩,
        high - sizeAt sizes order) := by
    unfold makeHeaderFromBucket
    simp only [here, bind_eq_bind, bind_some, sameSize]
    rw [if_pos (by omega)]
  have narrow : Gap (chunkSize sizes) chunks (high - sizeAt sizes order)
      (high - sizeAt sizes order + chunkSize sizes (order, true)) := by
    have same : chunkSize sizes (order, true) = sizeAt sizes order := rfl
    apply gap.mono (by omega)
    omega
  have far : ∀ o chunk, chunks o = some chunk →
      o + chunkSize sizes chunk ≤ high - sizeAt sizes order ∨ high ≤ o := by
    intro o chunk there
    rcases gap o chunk there with before | behind
    · exact Or.inl (by omega)
    · exact Or.inr behind
  have other : ∀ o chunk, chunks o = some chunk → ∀ header,
      writeHeader this.memory (high - sizeAt sizes order) header o = this.memory o := by
    intro o chunk there header
    apply writeHeader_far
    have large := inv.header_lt there
    rcases far o chunk there with before | behind
    · exact Or.inl (by omega)
    · exact Or.inr (by omega)
  have notThere : chunks (high - sizeAt sizes order) = none :=
    inv.none_of_gap gap (by omega) (by omega)
  refine ⟨_, made, ?_, rfl, ⟨rfl, rfl, rfl, rfl⟩⟩
  exact {
    shape := inv.shape
    bound := inv.bound
    apart := inv.apart.add narrow
    untouched := by
      intro o chunk there
      rw [update_apply] at there
      split at there
      · rename_i same
        exact Or.inr (by
          rw [same]
          exact touched.trans (by omega))
      · exact inv.untouched o chunk there
    inside := by
      intro o order' used there
      rw [update_apply] at there
      split at there
      · rename_i same
        cases there
        refine ⟨usable, ?_⟩
        rw [same]
        exact (by omega : _ ≤ high).trans inPool
      · exact inv.inside o order' used there
    header := by
      intro o order' used there
      rw [update_apply] at there
      split at there
      · rename_i same
        cases there
        rw [same]
        refine ⟨_, writeHeader_here _ _ _, ?_, rfl⟩
        rw [bucketUsable, size]
      · rcases inv.header o order' used there with ⟨header, stored, facts⟩
        exact ⟨header, (other o _ there _).trans stored, facts⟩
    chain := by
      intro order' bucket' found'
      apply (inv.chain order' bucket' found').congr
      intro o member
      have there := (inv.free order' o).mp member
      exact link_congr (other o _ there _)
    free := by
      intro order' o
      rw [inv.free, update_apply]
      split
      · rename_i same
        rw [same, notThere]
        constructor
        · nofun
        · nofun
      · rfl
    nodup := inv.nodup }

/-- A used chunk is no longer one. -/
theorem PoolInv.drop {mh : Nat} (used : chunks mh = some (order, true)) :
    PoolInv sizes this (Function.update chunks mh none) frees where
  shape := inv.shape
  bound := inv.bound
  apart := inv.apart.drop mh
  untouched := by
    intro o chunk there
    rw [update_apply] at there
    split at there
    · cases there
    · exact inv.untouched o chunk there
  inside := by
    intro o order' used' there
    rw [update_apply] at there
    split at there
    · cases there
    · exact inv.inside o order' used' there
  header := by
    intro o order' used' there
    rw [update_apply] at there
    split at there
    · cases there
    · exact inv.header o order' used' there
  chain := inv.chain
  free := by
    intro order' o
    rw [inv.free, update_apply]
    split
    · rename_i same
      rw [same, used]
      constructor
      · nofun
      · nofun
    · rfl
  nodup := inv.nodup

end

end PoolAllocator

end Coast
