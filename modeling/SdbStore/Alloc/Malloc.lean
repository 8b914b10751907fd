import SdbStore.Alloc.Memory

/-!
# The allocator

`heap.c`, function by function.  A call has no result when it reads something that is not there, and
nothing is said of a loop that does not come to an end.  What `mmap` returns for each size is given
to the calls that may need it.
-/

namespace SdbStore.Alloc

/-! ## Sizes -/

/-- `HEADER_SIZE`. -/
def headerSize : Nat := 8

/-- `FOOTER_SIZE`. -/
def footerSize : Nat := 8

/-- `META_SIZE`. -/
def metaSize : Nat := 16

/-- `MIN_SIZE`. -/
def minSize : Nat := 32

/-- `SDB_PAGE_SIZE`. -/
def sdbPageSize : Nat := 131072

/-- `INT_MAX`, and `MAX_BLOCK_SIZE`. -/
def intMax : Nat := 2147483647

/-- `MAX_MAPPED_PAGES`. -/
def maxMappedPages : Nat := intMax / sdbPageSize

/-- `ALIGN`. -/
def align (size : Nat) : Nat := (size + 7) / 8 * 8

/-- `PAGES`. -/
def pages (size : Nat) : Nat := (size + sdbPageSize - 1) / sdbPageSize

/-- `size_to_block_size`. -/
def sizeToBlockSize (size : Nat) : Option Nat :=
  if size = 0 ∨ size > intMax - metaSize then none
  else
    let total := align (size + metaSize)
    let total := if total < minSize then minSize else total
    if total > intMax then none else some total

/-- `clamp_mapped_pages`. -/
def clampMappedPages (mappedPages : Nat) : Nat :=
  if mappedPages > maxMappedPages then maxMappedPages else mappedPages

/-- `grow_mapped_pages`. -/
def growMappedPages (mappedPages : Nat) : Nat :=
  if mappedPages ≥ maxMappedPages / 2 then maxMappedPages else mappedPages * 2

/-! ## Blocks -/

/-- `add_offset`. -/
def addOffset (ptr : Nat) : Nat := ptr + headerSize

/-- `remove_offset`. -/
def removeOffset (ptr : Nat) : Nat := ptr - headerSize

/-- `get_footer`, of a block with the header `b`. -/
def getFooter (ptr : Nat) (b : Header) : Nat := ptr + b.size - footerSize

/-- `write_footer`. -/
def writeFooter (h : SdbHeap) (ptr : Nat) : Option SdbHeap := do
  let b ← h.header ptr
  h.store (getFooter ptr b) (.footer ⟨b.size, b.free⟩)

/-- `get_prev_footer`. -/
def getPrevFooter (h : SdbHeap) (ptr : Nat) : Option Nat := do
  let b ← h.header ptr
  some (if b.hasPrev then ptr - footerSize else 0)

/-- `get_prev_header`. -/
def getPrevHeader (h : SdbHeap) (ptr : Nat) : Option Nat := do
  let prevFooter ← getPrevFooter h ptr
  if prevFooter = 0 then some 0
  else do
    let f ← h.footer prevFooter
    some (ptr - f.size)

/-- `get_next_header`. -/
def getNextHeader (h : SdbHeap) (ptr : Nat) : Option Nat := do
  let b ← h.header ptr
  some (if b.hasNext then ptr + b.size else 0)

/-- `setFree`. -/
def setFree (h : SdbHeap) (ptr : Nat) (val : Bool) : Option SdbHeap := do
  let h ← h.setHeader ptr fun b ↦ { b with free := val }
  writeFooter h ptr

/-- `has_prev` of a block that is not `NULL` is written. -/
def setHasPrev (h : SdbHeap) (ptr : Nat) (val : Bool) : Option SdbHeap :=
  if ptr = 0 then some h else h.setHeader ptr fun b ↦ { b with hasPrev := val }

/-- `has_next` of a block that is not `NULL` is written. -/
def setHasNext (h : SdbHeap) (ptr : Nat) (val : Bool) : Option SdbHeap :=
  if ptr = 0 then some h else h.setHeader ptr fun b ↦ { b with hasNext := val }

/-! ## The free list -/

/-- `remove_from_free_list`. -/
def removeFromFreeList (h : SdbHeap) (block : Nat) : Option SdbHeap := do
  let h ← setFree h block false
  let freeBlock := addOffset block
  let next ← h.ptr freeBlock
  let prev ← h.ptr (freeBlock + 8)
  if prev = 0 then
    if next = 0 then some { h with freeListStart := 0 }
    else ({ h with freeListStart := next } : SdbHeap).store (next + 8) (.ptr 0)
  else if next = 0 then h.store prev (.ptr 0)
  else do
    let h ← h.store prev (.ptr next)
    h.store (next + 8) (.ptr prev)

/-- `append_to_free_list`. -/
def appendToFreeList (h : SdbHeap) (ptr : Nat) : Option SdbHeap := do
  let h ← setFree h ptr true
  let newPtr := addOffset ptr
  let h ← h.store newPtr (.ptr 0)
  let h ← h.store (newPtr + 8) (.ptr 0)
  if h.freeListStart ≠ 0 then do
    let h ← h.store newPtr (.ptr h.freeListStart)
    let h ← h.store (newPtr + 8) (.ptr 0)
    let h ← h.store (h.freeListStart + 8) (.ptr newPtr)
    some { h with freeListStart := newPtr }
  else do
    let h := { h with freeListStart := newPtr }
    let h ← h.store (newPtr + 8) (.ptr 0)
    h.store newPtr (.ptr 0)

/-- A turn of the loop of `find_free_block`: the next node, or what is returned. -/
def findFreeBlockTurn (h : SdbHeap) (size : Nat) (current : Nat) : Option (Nat ⊕ Nat) :=
  if current = 0 then some (.inr 0)
  else do
    let b ← h.header (removeOffset current)
    if b.size ≥ size then some (.inr current)
    else do
      let next ← h.ptr current
      some (.inl next)

/-- The loop of `find_free_block`. -/
def findFreeBlock (h : SdbHeap) (size : Nat) (current : Nat) : Option Nat :=
  repeatM (findFreeBlockTurn h size) current

/-- `split`. -/
def split (h : SdbHeap) (start : Nat) (total requested : Nat) : Option SdbHeap :=
  let newBlock := start + requested
  let blockSize := total - requested
  if blockSize < minSize then some h
  else do
    let b ← h.header start
    let hadNext := b.hasNext
    let h ← h.setHeader start fun b ↦ { b with size := requested }
    let h ← setHasNext h start true
    let h ← writeFooter h start
    let h ← h.store newBlock (.header ⟨blockSize, true, true, hadNext⟩)
    let h ← writeFooter h newBlock
    let nextHeader ← getNextHeader h newBlock
    let h ← setHasPrev h nextHeader true
    appendToFreeList h newBlock

/-! ## `malloc` -/

/-- The end of `sdb_heap_malloc`: a new region. -/
def mallocRegion (h : SdbHeap) (newRegion bytes requiredSize : Nat) : Option (Nat × SdbHeap) := do
  let h := h.map newRegion bytes
  let h ← h.store newRegion (.header ⟨bytes, false, false, false⟩)
  let h ← writeFooter h newRegion
  let h ←
    if newRegion = h.lastAddress ∧ h.lastAddress ≠ 0 then do
      let h ← setHasPrev h newRegion true
      let prevFooter ← getPrevFooter h newRegion
      let prevHeader ← getPrevHeader h newRegion
      if prevFooter ≠ 0 ∧ prevHeader ≠ 0 then setHasNext h prevHeader true else some h
    else some h
  let h ← split h newRegion bytes requiredSize
  some (addOffset newRegion, { h with lastAddress := newRegion + bytes })

/-- `sdb_heap_malloc`. -/
def sdbHeapMalloc (h : SdbHeap) (mmap : Nat → Option Nat) (size : Nat) : Option (Nat × SdbHeap) :=
  match sizeToBlockSize size with
  | none => some (0, h)
  | some requiredSize => do
      let freeBlock ← findFreeBlock h requiredSize h.freeListStart
      if freeBlock ≠ 0 then do
        let address := removeOffset freeBlock
        let h ← setFree h address false
        let b ← h.header address
        let h ← split h address b.size requiredSize
        let h ← removeFromFreeList h address
        some (addOffset address, h)
      else
        let requiredPages := pages requiredSize
        if requiredPages > maxMappedPages then some (0, h)
        else
          let mappedPages := clampMappedPages
            (if requiredPages > h.lastMappedSize then requiredPages else h.lastMappedSize)
          let bytes := mappedPages * sdbPageSize
          let h := { h with lastMappedSize := growMappedPages mappedPages }
          match mmap bytes with
          | none => some (0, h)
          | some newRegion => mallocRegion h newRegion bytes requiredSize

/-! ## `free` -/

/-- `can_merge`. -/
def canMerge (h₁ h₂ : Header) : Prop := h₁.size + h₂.size ≤ intMax

instance (h₁ h₂ : Header) : Decidable (canMerge h₁ h₂) := inferInstanceAs (Decidable (_ ≤ _))

/-- The first half of `coalesce`: the block in front. -/
def coalescePrev (h : SdbHeap) (merged : Nat) : Option (Nat × SdbHeap) := do
  let b ← h.header merged
  if b.hasPrev then do
    let prevFooter ← getPrevFooter h merged
    let prevHeader ← getPrevHeader h merged
    let f ← h.footer prevFooter
    if prevFooter ≠ 0 ∧ f.free ∧ prevHeader ≠ 0 then do
      let p ← h.header prevHeader
      if ¬ canMerge p b then some (merged, h)
      else do
        let h ← removeFromFreeList h merged
        let b ← h.header merged
        let h ← h.setHeader prevHeader fun p ↦ { p with size := p.size + b.size }
        let h ← setHasNext h prevHeader b.hasNext
        some (prevHeader, h)
    else some (merged, h)
  else some (merged, h)

/-- The block behind is merged with a block: what `coalesce` and `sdb_heap_realloc` have in
common. -/
def mergeNext (h : SdbHeap) (merged nextHeader : Nat) : Option SdbHeap := do
  let h ← removeFromFreeList h nextHeader
  let n ← h.header nextHeader
  let h ← h.setHeader merged fun b ↦ { b with size := b.size + n.size }
  let h ← setHasNext h merged n.hasNext
  let afterNext ← getNextHeader h merged
  setHasPrev h afterNext true

/-- The second half of `coalesce`: the block behind. -/
def coalesceNext (h : SdbHeap) (merged : Nat) : Option SdbHeap := do
  let b ← h.header merged
  if b.hasNext then do
    let nextHeader ← getNextHeader h merged
    let n ← h.header nextHeader
    if nextHeader ≠ 0 ∧ n.free then
      if ¬ canMerge b n then some h else mergeNext h merged nextHeader
    else some h
  else some h

/-- `coalesce`. -/
def coalesce (h : SdbHeap) (current : Nat) : Option (Nat × SdbHeap) := do
  let (merged, h) ← coalescePrev h current
  let h ← coalesceNext h merged
  let h ← setFree h merged true
  some (merged, h)

/-- `unmap`. -/
def unmap (h : SdbHeap) (start : Nat) (size : Nat) : Option SdbHeap := do
  let h ← removeFromFreeList h start
  let prevHeader ← getPrevHeader h start
  let h ← setHasNext h prevHeader false
  let nextHeader ← getNextHeader h start
  let h ← setHasPrev h nextHeader false
  let h :=
    if h.lastAddress = start + size then
      if prevHeader ≠ 0 then { h with lastAddress := start }
      else { h with lastAddress := 0, lastMappedSize := 1 }
    else h
  some (h.munmap start size)

/-- The end of `sdb_heap_free`: whole pages at the beginning of a free block are given back. -/
def freePages (h : SdbHeap) (start : Nat) : Option SdbHeap := do
  let b ← h.header start
  let size := b.size
  if size ≥ sdbPageSize ∧ start % sdbPageSize = 0 then
    let unmapSize := size / sdbPageSize * sdbPageSize
    if unmapSize = size ∨ size - unmapSize ≥ minSize then do
      let h ← if unmapSize ≠ size then split h start size unmapSize else some h
      unmap h start unmapSize
    else some h
  else some h

/-- `sdb_heap_free`. -/
def sdbHeapFree (h : SdbHeap) (ptr : Nat) : Option SdbHeap :=
  if ptr = 0 then some h
  else do
    let startHeader := removeOffset ptr
    let b ← h.header startHeader
    if b.free then some h
    else do
      let h ← appendToFreeList h startHeader
      let (startHeader, h) ← coalesce h startHeader
      freePages h startHeader

/-! ## `realloc` -/

/-- The part of `sdb_heap_realloc` that makes a block larger where it is, when that can be done. -/
def growBlock (h : SdbHeap) (current : Nat) (requiredSize : Nat) : Option (Option SdbHeap) := do
  let b ← h.header current
  let nextHeader ← getNextHeader h current
  if nextHeader = 0 then some none
  else do
    let n ← h.header nextHeader
    if n.free ∧ canMerge b n ∧ b.size + n.size ≥ requiredSize then do
      let h ← mergeNext h current nextHeader
      let c ← h.header current
      let h ← h.store (getFooter current c) (.footer ⟨c.size, false⟩)
      let h ← split h current (b.size + n.size) requiredSize
      let h ← setFree h current false
      some (some h)
    else some none

/-- `sdb_heap_realloc`. -/
def sdbHeapRealloc (h : SdbHeap) (mmap : Nat → Option Nat) (ptr : Nat) (size : Nat) :
    Option (Nat × SdbHeap) :=
  if ptr = 0 then sdbHeapMalloc h mmap size
  else if size = 0 then do
    let h ← sdbHeapFree h ptr
    some (0, h)
  else
    match sizeToBlockSize size with
    | none => some (0, h)
    | some requiredSize => do
        let current := removeOffset ptr
        let b ← h.header current
        let payloadSize := b.size - headerSize - footerSize
        if size ≤ payloadSize then some (ptr, h)
        else do
          let grown ← growBlock h current requiredSize
          match grown with
          | some h => some (ptr, h)
          | none => do
              let (newPtr, h) ← sdbHeapMalloc h mmap size
              if newPtr = 0 then some (0, h)
              else do
                let copySize := if payloadSize < size then payloadSize else size
                let h ← memcpy h newPtr ptr copySize
                let h ← sdbHeapFree h ptr
                some (newPtr, h)

/-- `sdb_heap_init`, and nothing mapped. -/
def sdbHeapInit : SdbHeap where
  mem := fun _ ↦ none
  range := fun _ ↦ 0
  ranges := 0
  lastAddress := 0
  freeListStart := 0
  lastMappedSize := 1

end SdbStore.Alloc
