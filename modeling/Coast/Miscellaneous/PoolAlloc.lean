import Coast.Miscellaneous.PoolInvariant

/-!
# `Alloc` and `Free`

A block that `Alloc` hands out is a chunk that nobody had; a larger free
block is cut into chunks first when the pool is used up.
-/

namespace Coast

open Chunks LinkedChain List Option Nat Function

namespace PoolAllocator

section

variable {sizes : List (Nat × Nat)} {this : PoolAllocator}
  {chunks : ChunkMap} {frees : Nat → List Nat}

variable {order : Nat} {bucket : PoolBucket}

theorem PoolInv.filled (inv : PoolInv sizes this chunks frees)
    (found : this.fPoolBuckets[order]? = some bucket)
    (some' : frees order ≠ []) : bucket.fFirstFree.isSome = true := by
  have chain := inv.chain order bucket found
  cases first : bucket.fFirstFree with
  | none =>
    rw [first] at chain
    cases same : frees order with
    | nil => exact absurd same some'
    | cons o rest =>
      rw [same] at chain
      cases chain
  | some mh => rfl

theorem PoolInv.splitBucket (inv : PoolInv sizes this chunks frees)
    {requested low : Nat} (usable : Usable sizes requested) (nbuckets : Nat)
    (gap : Gap (chunkSize sizes) chunks low (low + sizeAt sizes requested * nbuckets))
    (inPool : low + sizeAt sizes requested * nbuckets ≤ this.fAllocSz)
    (touched : this.fFirstFree ≤ low) :
    ∃ after chunks' frees', this.splitBucket requested (sizeAt sizes requested)
          (low + sizeAt sizes requested * nbuckets) nbuckets =
        some after ∧
      PoolInv sizes after chunks' frees' ∧ Keeps chunks chunks' ∧
      (frees requested ≠ [] ∨ 0 < nbuckets → frees' requested ≠ []) ∧
      SameRest this after := by
  induction nbuckets generalizing this chunks frees with
  | zero =>
    refine ⟨this, chunks, frees, rfl, inv, fun _ _ used => used, ?_, SameRest.refl this⟩
    intro either
    rcases either with some' | positive
    · exact some'
    · exact absurd positive (lt_irrefl 0)
  | succ nbuckets ih =>
    have product : sizeAt sizes requested * (nbuckets + 1) =
        sizeAt sizes requested * nbuckets + sizeAt sizes requested :=
      mul_succ _ _
    rcases inv.make usable gap (by omega) inPool touched with
        ⟨made, makes, madeInv, madeFirst, madeRest⟩
    have lower : low + sizeAt sizes requested * (nbuckets + 1) -
        sizeAt sizes requested = low + sizeAt sizes requested * nbuckets := by omega
    have large := usable.header_le
    have notThere := inv.none_of_gap gap
      (le_add_right low (sizeAt sizes requested * nbuckets))
      (by omega)
    rw [lower] at makes madeInv
    rcases madeInv.insert (update_self _ _ _) with
        ⟨inserted, inserts, insertedInv, insertedFirst, insertedRest⟩
    rw [update_idem] at insertedInv
    have nextGap := gap.add (k := (requested, false)) (by
      unfold chunkSize
      dsimp only
      omega)
    have sameSize : chunkSize sizes (requested, false) = sizeAt sizes requested := rfl
    rw [sameSize, lower] at nextGap
    have rest := madeRest.trans insertedRest
    rcases ih insertedInv nextGap
      (by rw [rest.allocSz]; omega)
      (by rw [insertedFirst, madeFirst]; exact touched) with
        ⟨after, chunks', frees', splits, afterInv, keeps, some', afterRest⟩
    refine ⟨after, chunks', frees', ?_, afterInv, ?_, ?_, rest.trans afterRest⟩
    · simp only [PoolAllocator.splitBucket, makes, inserts, lower, bind_eq_bind, bind_some]
      exact splits
    · intro o order used
      apply keeps
      apply Keeps.update _ _ o order used
      intro other wrong
      rw [notThere] at wrong
      cases wrong
    · intro _
      apply some'
      left
      rw [update_self]
      nofun

/-- What holds after a chunk was handed out, and what stays. -/
structure Served (sizes : List (Nat × Nat)) (this after : PoolAllocator)
    (chunks chunks' : ChunkMap) (frees' : Nat → List Nat) (mh order : Nat) :
    Prop where
  inv : PoolInv sizes after chunks' frees'
  used : chunks' mh = some (order, true)
  fresh : ∀ order, chunks mh ≠ some (order, true)
  keeps : Keeps chunks chunks'
  tracked : ∃ header, after.memory mh = some header ∧
    after.fTracker = this.fTracker.trackAlloc header
  minimum : after.fgMinPayloadSize = this.fgMinPayloadSize
  allocSz : after.fAllocSz = this.fAllocSz
  excess : after.fpPoolTotalExcessTracker = this.fpPoolTotalExcessTracker

section

variable (inv : PoolInv sizes this chunks frees)
include inv

theorem PoolInv.trackAlloc {mh : Nat} {used : Bool} (here : chunks mh = some (order, used)) :
    ∃ header, this.memory mh = some header ∧
      this.trackAlloc mh = some { this with fTracker := this.fTracker.trackAlloc header } ∧
      PoolInv sizes { this with fTracker := this.fTracker.trackAlloc header } chunks frees := by
  rcases inv.header mh order used here with ⟨header, stored, _⟩
  refine ⟨header, stored, ?_, ?_⟩
  · simp only [PoolAllocator.trackAlloc, stored, bind_eq_bind, bind_some]
  · exact ⟨inv.shape, inv.bound, inv.apart, inv.untouched, inv.inside,
      inv.header, inv.chain, inv.free, inv.nodup⟩

variable (heap : GlobalHeap)
include heap

theorem PoolInv.reuse
    (found : this.fPoolBuckets[order]? = some bucket) (filled : bucket.fFirstFree.isSome = true) :
    ∃ after mh chunks' frees', this.reuse heap order = some (after, heap, some (.pool mh)) ∧
      Served sizes this after chunks chunks' frees' mh order := by
  rcases inv.remove found filled with ⟨removed, mh, frees', removes, free, removedInv, _, rest⟩
  have used := update_self mh (some (order, true)) chunks
  rcases removedInv.trackAlloc used with ⟨header, stored, tracks, trackedInv⟩
  have fresh : ∀ other, chunks mh ≠ some (other, true) := by
    intro other wrong
    rw [free] at wrong
    cases wrong
  refine ⟨_, mh, _, frees', ?_, trackedInv, used, fresh,
    Keeps.update fresh _, ⟨header, stored, ?_⟩, rest.minimum,
    rest.allocSz, rest.excess⟩
  · simp only [PoolAllocator.reuse, removes, tracks, bind_eq_bind, bind_some]
  · rw [← rest.tracker]

theorem PoolInv.carve
    (usable : Usable sizes order) (fits : sizeAt sizes order ≤ this.fFirstFree) :
    ∃ after mh chunks' frees', this.carve heap order = some (after, heap, some (.pool mh)) ∧
      Served sizes this after chunks chunks' frees' mh order := by
  have large := usable.header_le
  have lowered : PoolInv sizes
      { this with fFirstFree := this.fFirstFree - sizeAt sizes order }
      chunks frees :=
    { inv with
      bound := (sub_le _ _).trans inv.bound
      untouched := inv.untouched.mono (Nat.le_refl 0) (sub_le _ _) }
  have gap : Gap (chunkSize sizes) chunks
      (this.fFirstFree - sizeAt sizes order) this.fFirstFree :=
    inv.untouched.mono (zero_le _) (Nat.le_refl _)
  have fit : this.fFirstFree - sizeAt sizes order + sizeAt sizes order ≤ this.fFirstFree := by omega
  rcases lowered.make usable gap fit inv.bound (Nat.le_refl _) with
      ⟨made, makes, madeInv, madeFirst, rest⟩
  have used := update_self
    (this.fFirstFree - sizeAt sizes order) (some (order, true)) chunks
  rcases madeInv.trackAlloc used with ⟨header, stored, tracks, trackedInv⟩
  have notThere : chunks (this.fFirstFree - sizeAt sizes order) = none :=
    inv.none_of_gap gap (Nat.le_refl _) (by omega)
  have fresh : ∀ other, chunks (this.fFirstFree - sizeAt sizes order) ≠ some (other, true) := by
    intro other wrong
    rw [notThere] at wrong
    cases wrong
  have moved : ∃ early, this.makeHeaderFromBucket order this.fFirstFree =
        some (early, this.fFirstFree - sizeAt sizes order) ∧
      { early with
        fFirstFree := this.fFirstFree - sizeAt sizes order } = made := by
    rcases usable.here with ⟨payload, found, _⟩
    rcases inv.bucket found with ⟨bucket, here, _⟩
    unfold makeHeaderFromBucket at makes ⊢
    simp only [here, bind_eq_bind, bind_some] at makes ⊢
    split at makes
    · rename_i inPool
      simp only [Option.some.injEq, Prod.mk.injEq] at makes
      rw [if_pos inPool, makes.2]
      refine ⟨_, rfl, ?_⟩
      rw [← makes.1, makes.2]
      rfl
    · cases makes
  rcases moved with ⟨early, makesEarly, same⟩
  refine ⟨_, _, _, frees, ?_, trackedInv, used, fresh,
    Keeps.update fresh _, ⟨header, stored, ?_⟩, rest.minimum,
    rest.allocSz, rest.excess⟩
  · simp only [PoolAllocator.carve, makesEarly, same, tracks, bind_eq_bind, bind_some]
  · rw [rest.tracker]

/-- A larger chunk is split into smaller ones. -/
theorem PoolInv.split {requested larger : Nat} (usable : Usable sizes requested)
    (found : this.fPoolBuckets[larger]? = some bucket) (filled : bucket.fFirstFree.isSome = true)
    (less : requested < larger) :
    ∃ after mh chunks' frees',
      this.split heap requested larger = some (after, heap, some (.pool mh)) ∧
      Served sizes this after chunks chunks' frees' mh requested := by
  rcases inv.remove found filled with ⟨removed, mh, frees₁, removes, free, removedInv, first, rest⟩
  rcases inv.inside mh larger false free with ⟨largerUsable, inPool⟩
  rcases usable.sizeAt_eq with ⟨payload, here, _, requestedSize, _⟩
  rcases inv.bucket here with ⟨requestedBucket, requestedFound, bucketSize, _⟩
  have sameRequested : requestedBucket.fSize = sizeAt sizes requested :=
    bucketSize.trans requestedSize.symm
  have sameLarger : bucket.fSize = sizeAt sizes larger := by
    rw [sizeAt, inv.size_of_bucket found]
    rfl
  have smaller := largerUsable.smaller requested less
  have positive := usable.header_le
  have some' : 0 < sizeAt sizes larger / sizeAt sizes requested :=
    div_pos (le_of_lt smaller) (by omega)
  have within : sizeAt sizes requested *
      (sizeAt sizes larger / sizeAt sizes requested) ≤ sizeAt sizes larger := mul_div_le _ _
  have dropped := removedInv.drop (update_self _ _ _)
  rw [update_idem] at dropped
  have gap := (inv.apart.gap_drop free).mono (Nat.le_refl mh) (Nat.add_le_add_left within mh)
  have touched : removed.fFirstFree ≤ mh := by
    rw [first]
    rcases inv.untouched mh (larger, false) free with before | behind
    · have large := inv.header_lt free
      omega
    · exact behind
  have inPool' : mh + sizeAt sizes requested *
      (sizeAt sizes larger / sizeAt sizes requested) ≤ removed.fAllocSz := by
    rw [rest.allocSz]
    omega
  rcases dropped.splitBucket usable _ gap inPool' touched with
      ⟨cut, chunks₂, frees₂, splits, cutInv, keeps, cutFilled, cutRest⟩
  rcases cutInv.bucket here with ⟨cutBucket, cutFound, _⟩
  rcases cutInv.reuse heap cutFound (cutInv.filled cutFound (cutFilled (Or.inr some'))) with
      ⟨after, taken, chunks₃, frees₃, reuses, served⟩
  have fresh : ∀ other, chunks mh ≠ some (other, true) := by
    intro other wrong
    rw [free] at wrong
    cases wrong
  have whole := rest.trans cutRest
  have keepsAll : Keeps chunks chunks₂ := by
    intro o order used
    exact keeps o order (Keeps.update fresh none o order used)
  rcases served.tracked with ⟨header, stored, tracked⟩
  refine ⟨after, taken, chunks₃, frees₃, ?_, served.inv, served.used, ?_,
    ?_, ⟨header, stored, ?_⟩, served.minimum.trans whole.minimum,
    served.allocSz.trans whole.allocSz, served.excess.trans whole.excess⟩
  · simp only [PoolAllocator.split, requestedFound, found, removes, sameRequested, sameLarger,
      splits, bind_eq_bind, bind_some]
    exact reuses
  · intro order used
    exact served.fresh order (keepsAll taken order used)
  · intro o order used
    exact served.keeps o order (keepsAll o order used)
  · rw [tracked, whole.tracker]

end

def Suits (buckets : List PoolBucket) (allocSize : Nat) : Prop :=
  ∀ order bucket, findBucketBySize buckets allocSize = some order → buckets[order]? = some bucket →
    0 < bucket.fUsableSize ∧ bucket.fUsableSize + alignedSize < 9223372036854775808

/-- The sizes of a bucket belong together up to an overflow. -/
def Matched (sizes : List (Nat × Nat)) : Prop :=
  ∀ (order : Nat) (size : Nat × Nat), sizes[order]? = some size →
    size.1 = (size.2 + alignedSize) % sizeLimit

variable (inv : PoolInv sizes this chunks frees)
include inv

theorem PoolInv.usable_of_found
    (matched : Matched sizes) {allocSize : Nat} (suits : Suits this.fPoolBuckets allocSize)
    (found : findBucketBySize this.fPoolBuckets allocSize = some order) :
    ∃ bucket, this.fPoolBuckets[order]? = some bucket ∧
      bucket.fSize = sizeAt sizes order ∧ Usable sizes order ∧
      allocSize ≤ sizeAt sizes order := by
  have fits := found
  unfold findBucketBySize at fits
  rw [findIdx?_eq_some_iff_getElem] at fits
  rcases fits with ⟨inList, enough, earlier⟩
  have here : this.fPoolBuckets[order]? =
      some this.fPoolBuckets[order] := getElem?_eq_getElem inList
  rcases suits order _ found here with ⟨positive, small⟩
  have size := inv.size_of_bucket here
  have matchedHere := matched order _ size
  dsimp only at matchedHere
  have limit : sizeLimit = 18446744073709551616 := rfl
  rw [mod_eq_of_lt (by omega)] at matchedHere
  have sameSize : this.fPoolBuckets[order].fSize = sizeAt sizes order := by
    rw [sizeAt, size]
    rfl
  rw [decide_eq_true_eq, sameSize] at enough
  refine ⟨_, here, sameSize, ⟨?_, ?_⟩, enough⟩
  · rw [matchedHere] at size
    exact ⟨_, size, positive, small⟩
  · intro before less
    have notEnough := earlier before less
    have there : this.fPoolBuckets[before]? = some this.fPoolBuckets[before] :=
      getElem?_eq_getElem (less.trans inList)
    have sameBefore : this.fPoolBuckets[before].fSize = sizeAt sizes before := by
      rw [sizeAt, inv.size_of_bucket there]
      rfl
    rw [decide_eq_true_eq, sameBefore] at notEnough
    omega

theorem PoolInv.alloc (matched : Matched sizes) (heap : GlobalHeap) {allocSize : Nat}
    (suits : Suits this.fPoolBuckets allocSize) (granted : Bool) :
    (∃ after mh order chunks' frees',
      this.alloc heap allocSize granted = some (after, heap, some (.pool mh)) ∧
      Served sizes this after chunks chunks' frees' mh order ∧
      allocSize ≤ sizeAt sizes order) ∨
    this.alloc heap allocSize granted = this.allocOnHeap heap allocSize granted := by
  unfold PoolAllocator.alloc
  cases found : findBucketBySize this.fPoolBuckets allocSize with
  | none => exact Or.inr rfl
  | some order =>
    rcases inv.usable_of_found matched suits found with ⟨bucket, here, size, usable, enough⟩
    simp only [here, bind_eq_bind, bind_some]
    by_cases filled : bucket.fFirstFree.isSome = true
    · rw [if_pos filled]
      rcases inv.reuse heap here filled with ⟨after, mh, chunks', frees', reuses, served⟩
      exact Or.inl ⟨after, mh, order, chunks', frees', reuses, served, enough⟩
    · rw [if_neg filled]
      rcases usable.sizeAt_eq with ⟨payload, _, _, sizeIs, small⟩
      have signed : toLong bucket.fSize = (sizeAt sizes order : Int) := by
        rw [toLong, size, if_pos (by omega)]
      by_cases roomy : toLong bucket.fSize < (this.fFirstFree : Int)
      · rw [if_pos roomy]
        rcases inv.carve heap usable (by omega) with ⟨after, mh, chunks', frees', carves, served⟩
        exact Or.inl ⟨after, mh, order, chunks', frees', carves, served, enough⟩
      · rw [if_neg roomy]
        cases next : firstFilled this.fPoolBuckets order with
        | none => exact Or.inr rfl
        | some larger =>
          unfold firstFilled at next
          rw [map_eq_some_iff] at next
          rcases next with ⟨k, later, sum⟩
          rw [findIdx?_eq_some_iff_getElem] at later
          rcases later with ⟨inRest, isFilled, _⟩
          have there : this.fPoolBuckets[larger]? = some (this.fPoolBuckets.drop order)[k] := by
            rw [← sum, ← getElem?_drop]
            exact getElem?_eq_getElem inRest
          have less : order < larger := by
            cases k with
            | zero =>
              rw [← sum, add_zero, here, Option.some.injEq] at there
              rw [← there] at isFilled
              exact absurd isFilled filled
            | succ k => omega
          simp only [there, bind_some]
          split
          · rcases inv.split heap usable there isFilled less with
                ⟨after, mh, chunks', frees', splits, served⟩
            exact Or.inl ⟨after, mh, order, chunks', frees', splits, served, enough⟩
          · exact Or.inr rfl

theorem PoolInv.free' (heap : GlobalHeap) {mh : Nat} (used : chunks mh = some (order, true)) :
    ∃ after header chunks' frees', this.free heap (.pool mh) = some (after, heap) ∧
      this.memory mh = some header ∧
      header.fUsableSize + alignedSize = sizeAt sizes order ∧
      PoolInv sizes after chunks' frees' ∧
      (∀ o order, o ≠ mh → chunks o = some (order, true) → chunks' o = some (order, true)) ∧
      after.fTracker = this.fTracker.trackFree header ∧
      after.fgMinPayloadSize = this.fgMinPayloadSize ∧
      after.fAllocSz = this.fAllocSz ∧
      after.fpPoolTotalExcessTracker = this.fpPoolTotalExcessTracker := by
  rcases inv.header mh order true used with ⟨header, stored, size, state⟩
  rcases inv.inside mh order true used with ⟨usable, _⟩
  rcases usable.sizeAt_eq with ⟨payload, found, _, sizeIs, _⟩
  rcases inv.bucket found with ⟨bucket, here, bucketSize, _⟩
  have sameSize : bucket.fSize = sizeAt sizes order := bucketSize.trans sizeIs.symm
  have back : findBucketBySize this.fPoolBuckets
      (header.fUsableSize + alignedSize) = some order := by
    rcases List.getElem?_eq_some_iff.mp here with ⟨inList, atOrder⟩
    unfold findBucketBySize
    rw [findIdx?_eq_some_iff_getElem]
    refine ⟨inList, ?_, ?_⟩
    · rw [decide_eq_true_eq, atOrder, sameSize, size]
    · intro before less
      have there : this.fPoolBuckets[before]? = some this.fPoolBuckets[before] :=
        getElem?_eq_getElem (less.trans inList)
      have sameBefore : this.fPoolBuckets[before].fSize = sizeAt sizes before := by
        rw [sizeAt, inv.size_of_bucket there]
        rfl
      have smaller := usable.smaller before less
      rw [decide_eq_true_eq, sameBefore, size]
      omega
  have counted : PoolInv sizes
      { this with fTracker := this.fTracker.trackFree header } chunks
        frees :=
    ⟨inv.shape, inv.bound, inv.apart, inv.untouched, inv.inside,
      inv.header, inv.chain, inv.free, inv.nodup⟩
  rcases counted.insert used with ⟨after, inserts, afterInv, _, rest⟩
  refine ⟨after, header, _, _, ?_, stored, size, afterInv, ?_,
    rest.tracker, rest.minimum, rest.allocSz, rest.excess⟩
  · have isUsed : header.fState = .eUsed := state
    have same : header.fUsableSize + alignedSize = bucket.fSize := size.trans sameSize.symm
    rw [same] at back
    simp only [PoolAllocator.free, stored, isUsed, back, here, same,
      if_true, inserts, bind_eq_bind, bind_some]
  · intro o order different there
    rw [update_of_ne different]
    exact there

end

end PoolAllocator

end Coast
