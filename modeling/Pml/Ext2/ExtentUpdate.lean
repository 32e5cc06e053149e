import Pml.Ext2.Extents

/-!
# Changing an extent tree (`drivers/fs/ext2/extent.c`)

Replacing, inserting and deleting the entry at the cursor, splitting a full node, and `ext3_extent_set_bmap`, the
operation on logical blocks that is made of them.
No caller passes `EXT2_EXTENT_INSERT_NOSPLIT` or `EXT2_EXTENT_DELETE_KEEP_EMPTY`, which are left out.
-/

namespace Pml.Ext2

/-! ### Storing -/

/-- `ext2_update_inode` of the inode of the handle. -/
def ext2UpdateInode : ExtM Unit := fun h =>
  if h.fs.rdonly then .error (.errno .EROFS) h else .ok () { h with saved := h.inode }

/-- `ext3_extent_update_path`.  Without `METADATA_CSUM` the function `ext3_extent_block_checksum_update` returns 1. -/
def ext3ExtentUpdatePath : ExtM Unit := fun h =>
  if h.level = 0 then ext2UpdateInode h
  else
    match (h.path (h.level - 1)).curr with
    | none => .error .undefined h
    | some i =>
      if h.fs.metadataCsum = false then .error .one h
      else
        let block := ((h.node (h.level - 1)).slot i).ptr
        .ok () { h with fs := { h.fs with nodes := Function.update h.fs.nodes block ⟨h.nd, true⟩ } }

def ExtHandle.put (h : ExtHandle) (nd : ExtNode) (p : ExtPath) : ExtHandle :=
  if h.level = 0 then { h.setPath 0 p with inode := { h.inode with root := nd } }
  else h.setPath h.level { p with buffer := .node nd }

def ExtNode.setSlot (nd : ExtNode) (i : Nat) (e : ExtEntry) : ExtNode :=
  { nd with slot := Function.update nd.slot i e }

def GenExt.entry (extent : GenExt) : ExtEntry :=
  ExtEntry.of extent.lblk extent.pblk (extent.len + if extent.uninit then initMaxLen else 0)

def maxLen (uninit : Bool) : Nat := if uninit then uninitMaxLen else initMaxLen

/-- `ext3_extent_replace`.  The block numbers are stored before the length is checked, and the result of
`ext3_extent_update_path` is not used. -/
def ext3ExtentReplace (extent : GenExt) : ExtM Unit := fun h =>
  if h.fs.rdonly then .error (.errno .EROFS) h
  else
    match h.cur.curr with
    | none => .error (.errno .ENOENT) h
    | some i =>
      let store (e : ExtEntry) := h.put (h.nd.setSlot i e) h.cur
      let update : ExtM Unit := do
        let _ ← attempt ext3ExtentUpdatePath
      if h.level = h.maxDepth then
        if maxLen extent.uninit < extent.len then
          .error (.errno .EUCLEAN) (store (ExtEntry.of extent.lblk extent.pblk (h.nd.slot i).len))
        else update (store extent.entry)
      else update (store (ExtEntry.of extent.lblk extent.pblk 0))

/-! ### Deleting -/

/-- The slots after `memmove (slot i, slot (i + 1), n)`. -/
def ExtNode.shiftDown (nd : ExtNode) (i n : Nat) : Nat → ExtEntry := fun j =>
  if i ≤ j ∧ j < i + n then nd.slot (j + 1) else nd.slot j

/-- The end of `ext3_extent_delete` for a node whose last entry was deleted: the count of the inode goes down and the
block of the node is freed. -/
def dropNode (b : Nat) : ExtM Unit := fun h =>
  let iBlocks := (h.inode.base.iBlocks + 2 ^ 32 - h.fs.blksize / 512) % 2 ^ 32
  let h := { h with inode := { h.inode with base := { h.inode.base with iBlocks } } }
  let release (h : ExtHandle) := { h with fs := { h.fs with toFs := h.fs.toFs.unmarkBlock b } }
  match ext2UpdateInode h with
  | .ok () h => .ok () (release h)
  | .error e h => .error e (release h)

/-- `ext3_extent_delete`, with the number of levels that remain.  A `memmove` of a negative size and a cursor before
the first of several entries are undefined. -/
def deleteLoop : Nat → ExtM Unit
  | 0 => throw .undefined
  | n + 1 => fun h =>
    if h.fs.rdonly then .error (.errno .EROFS) h
    else
      match h.cur.curr with
      | none => .error (.errno .ENOENT) h
      | some i =>
        let path := h.cur
        let count := h.nd.count - 1
        if path.left < 0 ∨ (path.left = 0 ∧ i = 0 ∧ count ≠ 0) then .error .undefined h
        else
          let curr := if count = 0 then none else some (if path.left = 0 then i - 1 else i)
          let path := { path with curr, left := if path.left = 0 then 0 else path.left - 1 }
          let nd := { h.nd with count, slot := h.nd.shiftDown i h.cur.left.toNat }
          if count = 0 ∧ h.level ≠ 0 then
            (do
              let extent ← ext3ExtentGet .up
              let _ ← attempt (deleteLoop n)
              dropNode extent.pblk) (h.put nd path)
          else if count = 0 then ext3ExtentUpdatePath { h.put { nd with depth := 0 } path with maxDepth := 0 }
          else ext3ExtentUpdatePath (h.put nd path)

def ext3ExtentDelete : ExtM Unit := fun h => deleteLoop (h.level + 1) h

/-! ### Inserting -/

/-- The slots after `memmove (slot (i + 1), slot i, n)`. -/
def ExtNode.shiftUp (nd : ExtNode) (i n : Nat) : Nat → ExtEntry := fun j =>
  if i < j ∧ j ≤ i + n then nd.slot (j - 1) else nd.slot j

/-- The slot for the new entry at the cursor or, if `after` is set, after it.  Without a cursor it is the first slot,
and no entries are moved. -/
def openSlot (after : Bool) : ExtM Unit := fun h =>
  let path := h.cur
  let place : Nat × Int := match path.curr with
    | some i => if after then (i + 1, path.left - 1) else (i, path.left)
    | none => (0, -1)
  let nd := { h.nd with count := h.nd.count + 1, slot := h.nd.shiftUp place.1 (place.2 + 1).toNat }
  .ok () (h.put nd { path with curr := some place.1, left := place.2 + 1 })

/-- The new entry, which is deleted again if it cannot be stored. -/
def fillSlot (extent : GenExt) : ExtM Unit := do
  match ← attempt (ext3ExtentReplace extent >>= fun _ => ext3ExtentUpdatePath) with
  | .ok () => pure ()
  | .error e => do
    let _ ← attempt ext3ExtentDelete
    throw e

def splitIfFull (split : ExtM Unit) : ExtM Unit := fun h =>
  if h.nd.max ≤ h.nd.count then split h else .ok () h

/-- `ext3_extent_insert`, with the function that splits a full node. -/
def insertWith (split : ExtM Unit) (after : Bool) (extent : GenExt) : ExtM Unit := fun h =>
  if h.fs.rdonly then .error (.errno .EROFS) h
  else
    (do
      splitIfFull split
      openSlot after
      fillSlot extent) h

def ExtHandle.splittingEof (h : ExtHandle) : Bool :=
  decide (h.level ≠ 0) && (List.range (h.level + 1)).all fun i => decide ((h.path i).left = 0)

/-- `ext2_find_inode_goal` for block 0 of a file with extents. -/
def extentInodeGoal : ExtM Nat := fun h =>
  let noblocks := inodeGroupGoal h.fs.toFs h.inode.base.ino
  match ext3ExtentOpen h.fs h.inode h.saved h.garbage with
  | .error _ => .ok noblocks h
  | .ok h1 =>
    match (do
      ext3ExtentGoto 0 0
      let extent ← ext3ExtentGet .current
      ext3ExtentFree
      pure extent) h1 with
    | .ok extent _ => .ok (extent.pblk - extent.lblk) h
    | .error .undefined _ => .error .undefined h
    | .error _ _ => .ok noblocks h

/-- The new node of a split: the last `toCopy` entries of the node. -/
def ExtNode.upperPart (nd : ExtNode) (toCopy blksize : Nat) : ExtNode :=
  { nd with
    count := toCopy
    max := (blksize - 12) / 12
    slot := fun i => if i < toCopy then nd.slot (nd.count - toCopy + i) else ExtEntry.of 0 0 0 }

/-- `ext2_alloc_block` for a node. -/
def allocNode (goal : Nat) : ExtM Nat := fun h =>
  match ext2AllocBlock h.fs.toFs goal with
  | .error e => .error (.errno e) h
  | .ok (fs, b) => .ok b { h with fs := { h.fs with toFs := fs } }

/-- The new array of paths of a root that is split.  Its memory has `max_paths + 1` times 24 bytes, the size of
`struct ext3_generic_extent`, while a path has 48 bytes. -/
def growPaths : ExtM Unit := fun h =>
  let cap := (h.maxPaths + 1) * 24 / 48
  if cap < h.maxPaths then .error .undefined h
  else
    .ok () { h with
      cap
      path := fun i =>
        if i = 0 then { h.path 0 with left := h.inode.root.max - 1 }
        else if i < h.maxPaths then h.path i
        else ⟨.null, 0, 0, 0, none⟩
      maxDepth := h.maxDepth + 1
      maxPaths := h.maxPaths + 1
      inode := { h.inode with root := { h.inode.root with depth := h.maxDepth + 1, count := 1 } } }

/-- The part of `ext3_extent_node_split` after the new node was written to the block `b`, for the root. -/
def splitRoot (start b : Nat) : ExtM Unit := do
  growPaths
  ext3ExtentUpdatePath
  let extent ← ext3ExtentGet .firstSib
  let h ← get
  ext3ExtentReplace { extent with lblk := start, pblk := b, len := sub64 (h.path 0).endBlock start % 2 ^ 32 }

/-- The same part for another node, which loses `toCopy` entries. -/
def splitInner (insert : GenExt → ExtM Unit) (toCopy start b : Nat) : ExtM Unit := do
  modify fun h : ExtHandle =>
    h.put { h.nd with count := h.nd.count - toCopy } { h.cur with left := h.cur.left - toCopy }
  ext3ExtentUpdatePath
  let extent ← ext3ExtentGet .up
  let newNodeLen := sub64 start extent.lblk % 2 ^ 32
  ext3ExtentReplace { extent with len := (extent.len + 2 ^ 32 - newNodeLen) % 2 ^ 32 }
  insert { extent with lblk := start, pblk := b, len := newNodeLen }

/-- Writes a node with its checksum, which cannot be stored without `METADATA_CSUM`. -/
def storeNode (b : Nat) (nd : ExtNode) : ExtM Unit := fun h =>
  if h.fs.metadataCsum = false then .error .one h
  else .ok () { h with fs := { h.fs with nodes := Function.update h.fs.nodes b ⟨nd, true⟩ } }

/-- The new node of a split, written to a block of its own; the result is its first key and the block. -/
def writeNewNode (goal toCopy : Nat) : ExtM (Nat × Nat) := do
  let h ← get
  let goal ← (if goal = 0 then extentInodeGoal else pure goal : ExtM Nat)
  let b ← allocNode goal
  let newNode := h.nd.upperPart toCopy h.fs.blksize
  storeNode b newNode
  pure ((newNode.slot 0).block, b)

def ExtHandle.toCopy (h : ExtHandle) (canexpand : Bool) : Nat :=
  if h.level = 0 then h.nd.count else if canexpand && h.splittingEof then 1 else h.nd.count / 2

/-- The end of `ext3_extent_node_split`: the count of the inode. -/
def countNewNode : ExtM Unit := fun h =>
  ext2UpdateInode { h with inode := { h.inode with base := (ext2IblkAddBlocks h.fs.toFs h.inode.base 1).1 } }

/-- `ext3_extent_node_split` from the point on where the parent has room. -/
def splitNode (insert : GenExt → ExtM Unit) (canexpand : Bool) (origHeight origBlock goal : Nat) : ExtM Unit := do
  let h ← get
  if h.cur.curr = none then fail .ENOENT
  else if h.toCopy canexpand = 0 then fail .ENOSPC
  else do
    let (start, b) ← writeNewNode goal (h.toCopy canexpand)
    (if h.level = 0 then splitRoot start b else splitInner insert (h.toCopy canexpand) start b : ExtM Unit)
    ext3ExtentGoto origHeight origBlock
    countNewNode

/-- `ext3_extent_node_split`, with the number of levels that remain. -/
def nodeSplitLoop : Nat → Bool → ExtM Unit
  | 0, _ => throw .undefined
  | n + 1, canexpand => fun h =>
    if h.fs.rdonly then .error (.errno .EROFS) h
    else
      (do
        let extent ← ext3ExtentGet .current
        let origHeight := h.maxDepth - h.level
        let split := splitNode (insertWith (nodeSplitLoop n true) true) canexpand origHeight extent.lblk
          (sub64 (h.nd.slot 0).ptr 1)
        if h.level ≠ 0 ∧ (h.node (h.level - 1)).max ≤ (h.node (h.level - 1)).count then do
          let _ ← ext3ExtentGet .up
          nodeSplitLoop n canexpand
          ext3ExtentGoto origHeight extent.lblk
          split
        else split) h

def ext3ExtentNodeSplit (canexpand : Bool) : ExtM Unit := fun h => nodeSplitLoop (h.maxDepth + 2) canexpand h

def ext3ExtentInsert (after : Bool) (extent : GenExt) : ExtM Unit :=
  insertWith (ext3ExtentNodeSplit true) after extent

/-! ### Parents -/

/-- The loop of `ext3_extent_fix_parents`, with the number of levels that remain. -/
def fixParentsLoop (start : Nat) : Nat → ExtM Unit
  | 0 => pure ()
  | n + 1 => do
    let h ← get
    if 0 < h.level ∧ h.cur.left = (h.nd.count : Int) - 1 then do
      let extent ← ext3ExtentGet .up
      if extent.lblk = start then pure ()
      else do
        ext3ExtentReplace { extent with lblk := start, len := (extent.len + sub64 extent.lblk start) % 2 ^ 32 }
        let _ ← attempt ext3ExtentUpdatePath
        fixParentsLoop start n
    else pure ()

def ext3ExtentFixParents : ExtM Unit := do
  let h ← get
  if h.fs.rdonly then fail .EROFS
  else if h.cur.curr = none then fail .ENOENT
  else do
    let extent ← ext3ExtentGet .current
    fixParentsLoop extent.lblk h.level
    ext3ExtentGoto (h.maxDepth - h.level) extent.lblk

/-! ### Mapping a block -/

/-- The local `new_extent` of `ext3_extent_set_bmap`, which is not set if the physical block is 0. -/
def newExtent (g : Garbage) (logical physical : Nat) (uninit : Bool) : GenExt :=
  if physical ≠ 0 then ⟨physical, logical, 1, true, uninit, false⟩ else g.extent

/-- `ext3_extent_goto`, where only an error other than `ENOENT` counts; whether the block was found. -/
def gotoFound (block : Nat) : ExtM Bool := do
  match ← attempt (ext3ExtentGoto 0 block) with
  | .ok () => pure true
  | .error (.errno .ENOENT) => pure false
  | .error e => throw e

/-- `ext3_extent_get` for a neighbour, which is missing on `ESRCH`. -/
def getNeighbour (op : ExtOp) : ExtM (Option GenExt) := do
  match ← attempt (ext3ExtentGet op) with
  | .ok extent => pure (some extent)
  | .error (.errno .ESRCH) => pure none
  | .error e => throw e

def GenExt.endsBefore (e : GenExt) (logical physical : Nat) (uninit : Bool) : Bool :=
  decide (logical = e.lblk + e.len) && decide (physical = e.pblk + e.len) && uninit == e.uninit &&
    decide (e.len + 1 < maxLen uninit)

def GenExt.startsAfter (e : GenExt) (logical physical : Nat) (uninit : Bool) : Bool :=
  decide (logical + 1 = e.lblk) && decide (physical + 1 = e.pblk) && uninit == e.uninit &&
    decide (e.len + 1 < maxLen uninit)

def GenExt.growDown (e : GenExt) : GenExt := { e with len := e.len + 1, lblk := e.lblk - 1, pblk := e.pblk - 1 }

def growNext : ExtM Unit := do
  let next ← ext3ExtentGet .nextLeaf
  ext3ExtentReplace next.growDown

def canGrow (next : Option GenExt) (logical physical : Nat) (uninit : Bool) : Bool :=
  next.any fun e => e.startsAfter logical physical uninit

/-- The branch for a block without a mapping; `found` is the result of the last `ext3_extent_goto`. -/
def setUnmapped (extent new : GenExt) (next : Option GenExt) (logical physical : Nat) (uninit found : Bool) :
    ExtM Unit := do
  (if extent.endsBefore logical physical uninit then ext3ExtentReplace { extent with len := extent.len + 1 }
  -- the extent grows here, but it is not stored
  else if extent.startsAfter logical physical uninit then (if found then pure () else fail .ENOENT)
  else if canGrow next logical physical uninit then growNext
  else ext3ExtentInsert (decide (extent.lblk ≤ logical)) new : ExtM Unit)
  ext3ExtentFixParents

/-- The branch for the only block of an extent. -/
def setOnly (new : GenExt) (physical : Nat) : ExtM Unit :=
  if physical ≠ 0 then ext3ExtentReplace new
  else do
    ext3ExtentDelete
    match ← attempt ext3ExtentFixParents with
    | .error (.errno .ENOENT) => pure ()
    | .error (.errno e) => fail e
    | _ => pure ()

def setLast (extent new : GenExt) (next : Option GenExt) (logical physical : Nat) (uninit : Bool) : ExtM Unit :=
  if physical ≠ 0 then do
    (if canGrow next logical physical uninit then growNext else ext3ExtentInsert true new : ExtM Unit)
    ext3ExtentFixParents
    ext3ExtentGoto 0 logical
    let extent ← ext3ExtentGet .current
    ext3ExtentReplace { extent with len := extent.len - 1 }
  else ext3ExtentReplace { extent with len := extent.len - 1 }

/-- The extent without its first block, as the code computes it: `e_lblk` goes down, not up. -/
def GenExt.dropFirst (e : GenExt) : GenExt := { e with pblk := e.pblk + 1, lblk := sub64 e.lblk 1, len := e.len - 1 }

def setFirst (extent new : GenExt) (prev : Option GenExt) (logical physical : Nat) (uninit : Bool) : ExtM Unit :=
  if physical ≠ 0 then do
    (if prev.any fun e => e.endsBefore logical physical uninit then do
      let prev ← ext3ExtentGet .prevLeaf
      ext3ExtentReplace { prev with len := prev.len + 1 }
    else ext3ExtentInsert false new : ExtM Unit)
    ext3ExtentFixParents
    let extent ← ext3ExtentGet .nextLeaf
    ext3ExtentReplace extent.dropFirst
    ext3ExtentFixParents
  else do
    ext3ExtentReplace extent.dropFirst
    ext3ExtentFixParents

/-- A call with steps that undo earlier changes if it fails. -/
def orUndo (x undo : ExtM Unit) : ExtM Unit := do
  match ← attempt x with
  | .ok () => pure ()
  | .error e => do
    let _ ← attempt undo
    throw e

def setMiddle (extent new : GenExt) (logical physical : Nat) : ExtM Unit := do
  let len := logical - extent.lblk
  let restore : ExtM Unit := do
    ext3ExtentGoto 0 extent.lblk
    ext3ExtentReplace extent
  ext3ExtentReplace { extent with len }
  (if physical ≠ 0 then orUndo (ext3ExtentInsert true new) restore else pure () : ExtM Unit)
  orUndo
    (ext3ExtentInsert true { extent with
      pblk := extent.pblk + len + 1, lblk := extent.lblk + len + 1, len := extent.len - len - 1 })
    (do
      let _ ← attempt (if physical ≠ 0 then (do
        ext3ExtentGoto 0 new.lblk
        ext3ExtentDelete) else pure () : ExtM Unit)
      restore)

def setMapped (extent new : GenExt) (next prev : Option GenExt) (logical physical : Nat) (uninit : Bool) :
    ExtM Unit :=
  if logical = extent.lblk ∧ extent.len = 1 then setOnly new physical
  else if logical = extent.lblk + extent.len - 1 then setLast extent new next logical physical uninit
  else if logical = extent.lblk then setFirst extent new prev logical physical uninit
  else setMiddle extent new logical physical

/-- `ext3_extent_set_bmap` between the first call of `ext3_extent_goto` and the label `end`. -/
def setBmapBody (logical physical : Nat) (uninit : Bool) : ExtM Unit := do
  let h ← get
  let new := newExtent h.garbage logical physical uninit
  let mapped ← gotoFound logical
  if mapped = false ∧ physical = 0 then pure ()
  else do
    let extent ← ext3ExtentGet .current
    let next ← getNeighbour .nextLeaf
    let _ ← gotoFound logical
    let prev ← getNeighbour .prevLeaf
    let found ← gotoFound logical
    if mapped = true ∧ uninit = extent.uninit ∧ extent.pblk + logical - extent.lblk = physical then pure ()
    else if mapped = false then setUnmapped extent new next logical physical uninit found
    else setMapped extent new next prev logical physical uninit

/-- The extent at the cursor, or zeros if there is none. -/
def currentOrZero : ExtM GenExt := do
  match ← attempt (ext3ExtentGet .current) with
  | .ok extent => pure extent
  | .error (.errno .ENOENT) => pure ⟨0, 0, 0, false, false, false⟩
  | .error e => throw e

/-- `ext3_extent_set_bmap`; `uninit` is the flag `EXT2_EXTENT_SET_BMAP_UNINIT`. -/
def ext3ExtentSetBmap (logical physical : Nat) (uninit : Bool) : ExtM Unit := fun h =>
  if h.fs.rdonly then .error (.errno .EROFS) h
  else if h.maxDepth = 0 ∧ h.nd.count = 0 then ext3ExtentInsert false (newExtent h.garbage logical physical uninit) h
  else
    (do
      let orig ← currentOrZero
      let r ← attempt (setBmapBody logical physical uninit)
      let h' ← get
      let _ ← attempt (ext3ExtentGoto (min (h.maxDepth - h.level) h'.maxDepth) orig.lblk)
      match r with
      | .ok () => pure ()
      | .error e => throw e) h

end Pml.Ext2
