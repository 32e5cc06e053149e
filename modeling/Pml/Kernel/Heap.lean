import Pml.Basic
import Pml.Lib.ByteMemory

/-!
# The kernel heap (`kernel/heap.c`)

The heap is a range of memory filled with blocks.  A block is a header (`struct kh_header`), its data bytes and a
tail (`struct kh_tail`) that points back to the header.  The functions below are `kh_init`, `kh_alloc_aligned`,
`kh_realloc` and `kh_free` on a byte memory: every field access is a little-endian access at the offset of the
field, and every pointer computation wraps at `2 ^ 64`.  The lock is left out, since each function holds it from
its first to its last access.
-/

namespace Pml.Kernel

open ByteMemory

abbrev khHeaderMagic : Nat := 0x07242005

abbrev khTailMagic : Nat := 0xdeadc0de

abbrev khDefaultAlign : Nat := 16

abbrev khMinBlockSplitSize : Nat := 32

/-- `sizeof (struct kh_header)` -/
abbrev khHeaderSize : Nat := 16

/-- `sizeof (struct kh_tail)` -/
abbrev khTailSize : Nat := 16

/-! ### Fields of headers and tails -/

def hdrMagic (m : Mem) (h : Nat) : Nat := readLE m h 4
def hdrFlags (m : Mem) (h : Nat) : Nat := readLE m (h + 4) 4
def hdrSize (m : Mem) (h : Nat) : Nat := readLE m (h + 8) 8
def tailMagic (m : Mem) (t : Nat) : Nat := readLE m t 4
def tailHeader (m : Mem) (t : Nat) : Nat := readLE m (t + 8) 8

def setHdrMagic (m : Mem) (h v : Nat) : Mem := writeLE m h 4 v
def setHdrFlags (m : Mem) (h v : Nat) : Mem := writeLE m (h + 4) 4 v
def setHdrSize (m : Mem) (h v : Nat) : Mem := writeLE m (h + 8) 8 v
def setTailMagic (m : Mem) (t v : Nat) : Mem := writeLE m t 4 v
def setTailReserved (m : Mem) (t v : Nat) : Mem := writeLE m (t + 4) 4 v
def setTailHeader (m : Mem) (t v : Nat) : Mem := writeLE m (t + 8) 8 v

def initTail (m : Mem) (t h : Nat) : Mem :=
  setTailHeader (setTailReserved (setTailMagic m t khTailMagic) t 0) t h

def initHeader (m : Mem) (h flags size : Nat) : Mem :=
  setHdrSize (setHdrFlags (setHdrMagic m h khHeaderMagic) h flags) h size

/-- `flags & KH_FLAG_ALLOC` -/
def flagAlloc (flags : Nat) : Bool := flags &&& 1 != 0

/-- `flags & ~KH_FLAG_ALLOC` -/
def clearAlloc (flags : Nat) : Nat := flags &&& 0xfffffffe

/-- The memory, the two bounds of the heap and the error number of the running thread. -/
structure Heap where
  mem : Mem
  khBaseAddr : Nat
  khEndAddr : Nat
  errno : Option Errno := none

/-- `kh_init`: one free block over the whole range. -/
def khInit (m : Mem) (base size : Nat) : Heap :=
  let m := initHeader m base 0 (sub64 (sub64 size khHeaderSize) khTailSize)
  let endAddr := add64 base size
  { mem := initTail m (sub64 endAddr khTailSize) base, khBaseAddr := base, khEndAddr := endAddr }

/-! ### Allocation -/

/-- The outcome of the search loop of `kh_alloc_aligned`. -/
inductive Search
  | fail (e : Errno)
  | found (header tail block : Nat)
  deriving DecidableEq

/-- The search loop of `kh_alloc_aligned`, starting at `header`.  The loop changes no memory, so if it has not
ended after as many rounds as there are addresses it never ends. -/
def khSearch (h : Heap) (size align : Nat) : Nat → Nat → Option Search
  | 0, _ => none
  | fuel + 1, header =>
    if h.khEndAddr ≤ header then some (.fail .ENOMEM)
    else if hdrMagic h.mem header ≠ khHeaderMagic then some (.fail .EUCLEAN)
    else
      let tail := add64 (add64 header (hdrSize h.mem header)) khHeaderSize
      if tailMagic h.mem tail ≠ khTailMagic ∨ tailHeader h.mem tail ≠ header then some (.fail .EUCLEAN)
      else
        let block := alignUp (add64 header khHeaderSize) align
        if flagAlloc (hdrFlags h.mem header) = false ∧ block < tail ∧ size ≤ sub64 tail block then
          some (.found header tail block)
        else khSearch h size align fuel (add64 tail khTailSize)

/-- The alignment fix-up of `kh_alloc_aligned`: moves the header of the free block at `header` to the aligned
position and gives the bytes before it to a new free block or to the preceding block.  Returns the memory and the
aligned header. -/
def khPlace (m : Mem) (base align header tail block : Nat) : Mem × Nat :=
  let alignedHeader := sub64 block khHeaderSize
  let diff := sub64 alignedHeader header
  -- no space to fit an empty block: move to the next possible pointer
  let bump := 0 < diff ∧ diff < khHeaderSize + khTailSize ∧ header = base
  let alignedHeader := if bump then add64 alignedHeader align else alignedHeader
  let diff := if bump then add64 diff align else diff
  let m := copy m alignedHeader header khHeaderSize
  let m := setHdrSize m alignedHeader (sub64 (hdrSize m alignedHeader) diff)
  if khMinBlockSplitSize + khHeaderSize + khTailSize < diff then
    let m := setHdrSize m header (sub64 (sub64 diff khHeaderSize) khTailSize)
    (initTail m (sub64 alignedHeader khTailSize) header, alignedHeader)
  else if 0 < diff then
    let prevTail := sub64 header khTailSize
    let m :=
      if prevTail < base then
        let m := initHeader m base 0 (sub64 (sub64 diff khHeaderSize) khTailSize)
        initTail m (add64 (add64 base khHeaderSize) (hdrSize m base)) base
      else
        let prevHeader := tailHeader m prevTail
        let m := setHdrSize m prevHeader (add64 (hdrSize m prevHeader) diff)
        copy m (sub64 alignedHeader khTailSize) prevTail khTailSize
    (setTailHeader m tail alignedHeader, alignedHeader)
  else (m, alignedHeader)

/-- The end of `kh_alloc_aligned`: shrinks the block at `header` to `size` bytes if the rest is large enough for
another block. -/
def khSplit (m : Mem) (header tail size : Nat) : Mem :=
  if add64 size (khHeaderSize + khTailSize + khMinBlockSplitSize) ≤ hdrSize m header then
    let newTail := add64 (add64 header khHeaderSize) size
    let m := initTail m newTail header
    let newHeader := add64 newTail khTailSize
    let m := initHeader m newHeader (hdrFlags m header)
      (sub64 (sub64 (sub64 (hdrSize m header) size) khHeaderSize) khTailSize)
    let m := setTailHeader m tail newHeader
    setHdrSize m header size
  else m

/-- `kh_alloc_aligned` after its search loop. -/
def khTake (h : Heap) (size align : Nat) : Search → Heap × Nat
  | .fail e => ({ h with errno := some e }, 0)
  | .found header tail block =>
    let placed := khPlace h.mem h.khBaseAddr align header tail block
    let header := placed.2
    let m := khSplit placed.1 header tail size
    ({ h with mem := setHdrFlags m header (hdrFlags m header ||| 1) }, block)

/-- `kh_alloc_aligned`.  `none` is a call that does not return; a null pointer is `0`. -/
def khAllocAligned (h : Heap) (size align : Nat) : Option (Heap × Nat) :=
  if isP2 align = false then some ({ h with errno := some .EINVAL }, 0)
  else
    let size := alignUp size khDefaultAlign
    (khSearch h size align (2 ^ 64) h.khBaseAddr).map (khTake h size align)

/-! ### Release -/

/-- `kh_free` unifies the block with a preceding free block.  Returns the memory and the header of the block. -/
def khJoinPrev (m : Mem) (base header : Nat) : Mem × Nat :=
  let tail := sub64 header khTailSize
  if base ≤ tail ∧ hdrFlags m header = hdrFlags m (tailHeader m tail) then
    let prev := tailHeader m tail
    let m := setHdrSize m prev (add64 (hdrSize m prev) (add64 (hdrSize m header) (khHeaderSize + khTailSize)))
    let nextTail := add64 (add64 header khHeaderSize) (hdrSize m header)
    let m := setTailHeader m nextTail (tailHeader m tail)
    (m, tailHeader m tail)
  else (m, header)

/-- `kh_free` unifies the block with a following free block. -/
def khJoinNext (m : Mem) (endAddr header : Nat) : Mem :=
  let nextHeader := add64 (add64 header (khHeaderSize + khTailSize)) (hdrSize m header)
  if nextHeader < endAddr ∧ hdrFlags m header = hdrFlags m nextHeader then
    let m := setHdrSize m header
      (add64 (hdrSize m header) (add64 (khHeaderSize + khTailSize) (hdrSize m nextHeader)))
    setTailHeader m (add64 (add64 nextHeader khHeaderSize) (hdrSize m nextHeader)) header
  else m

def khFree (h : Heap) (ptr : Nat) : Heap :=
  if ptr = 0 then h
  else
    let header := sub64 ptr khHeaderSize
    if hdrMagic h.mem header ≠ khHeaderMagic then { h with errno := some .EFAULT }
    else
      let m := setHdrFlags h.mem header (clearAlloc (hdrFlags h.mem header))
      let joined := khJoinPrev m h.khBaseAddr header
      { h with mem := khJoinNext joined.1 h.khEndAddr joined.2 }

/-! ### Resizing -/

/-- The growth of a block into the free block after it, with room left for a smaller free block. -/
def khGrowSplit (m : Mem) (header nextTail size : Nat) : Mem :=
  let nextHeader := add64 (add64 header (khHeaderSize + khTailSize)) (hdrSize m header)
  let nextSize := hdrSize m nextHeader
  let newTail := add64 (add64 header khHeaderSize) size
  let m := initTail m newTail header
  let newHeader := add64 newTail khTailSize
  let m := initHeader m newHeader (clearAlloc (hdrFlags m header))
    (sub64 (add64 (hdrSize m header) nextSize) size)
  let m := setHdrSize m header size
  setTailHeader m nextTail newHeader

/-- The shrinking of a block, with a new free block after it. -/
def khShrink (m : Mem) (header size : Nat) : Mem :=
  let tail := add64 (add64 header khHeaderSize) size
  let m := initTail m tail header
  let nextHeader := add64 tail khTailSize
  let m := initHeader m nextHeader (clearAlloc (hdrFlags m header))
    (sub64 (sub64 (sub64 (hdrSize m header) size) khHeaderSize) khTailSize)
  let m := setTailHeader m (add64 (add64 header khHeaderSize) (hdrSize m header)) nextHeader
  setHdrSize m header size

/-- The test of `kh_realloc` whether the block after `header` is free and large enough to take `size` bytes. -/
def khNextFits (h : Heap) (header size : Nat) : Prop :=
  let nextHeader := add64 (add64 header (khHeaderSize + khTailSize)) (hdrSize h.mem header)
  nextHeader < h.khEndAddr ∧ flagAlloc (hdrFlags h.mem nextHeader) = false ∧
    size ≤ add64 (add64 (hdrSize h.mem header) (khHeaderSize + khTailSize)) (hdrSize h.mem nextHeader)

instance (h : Heap) (header size : Nat) : Decidable (khNextFits h header size) := by
  unfold khNextFits; exact inferInstance

def khGrow (m : Mem) (header size : Nat) : Mem :=
  let nextHeader := add64 (add64 header (khHeaderSize + khTailSize)) (hdrSize m header)
  let nextTail := add64 (add64 nextHeader khHeaderSize) (hdrSize m nextHeader)
  let extra := add64 (khHeaderSize + khTailSize) (hdrSize m nextHeader)
  let needed := sub64 size (hdrSize m header)
  if khHeaderSize + khTailSize + khMinBlockSplitSize ≤ sub64 extra needed then khGrowSplit m header nextTail size
  else
    let m := setTailHeader m nextTail header
    setHdrSize m header (add64 (hdrSize m header) extra)

/-- The end of `kh_realloc` when the block has to move: the data is copied and the old block is released. -/
def khMove (ptr header : Nat) : Heap × Nat → Heap × Nat
  | (h, newPtr) =>
    if newPtr = 0 then (h, 0)
    else (khFree { h with mem := copy h.mem newPtr ptr (hdrSize h.mem header) } ptr, newPtr)

def khRealloc (h : Heap) (ptr size : Nat) : Option (Heap × Nat) :=
  let header := sub64 ptr khHeaderSize
  if ptr = 0 then khAllocAligned h size khDefaultAlign
  else
    let size := alignUp size khDefaultAlign
    if hdrMagic h.mem header ≠ khHeaderMagic then some ({ h with errno := some .EFAULT }, 0)
    else if flagAlloc (hdrFlags h.mem header) = false then khAllocAligned h size khDefaultAlign
    else if hdrSize h.mem header < size then
      if khNextFits h header size then some ({ h with mem := khGrow h.mem header size }, ptr)
      else (khAllocAligned h size khDefaultAlign).map (khMove ptr header)
    else if khHeaderSize + khTailSize + khMinBlockSplitSize ≤ sub64 (hdrSize h.mem header) size then
      some ({ h with mem := khShrink h.mem header size }, ptr)
    else some (h, ptr)

end Pml.Kernel
