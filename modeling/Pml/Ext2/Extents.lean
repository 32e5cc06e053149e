import Pml.Ext2.FileSystem

/-!
# The cursor of an extent tree (`drivers/fs/ext2/extent.c`)

A file with extents keeps the root of a tree in the 60 bytes of `i_block`; the other nodes are blocks of the device.
A node is a header and a row of slots of 12 bytes, which hold extents at the leaves and index entries above them.  A
handle reads the tree through a cursor, which has one path structure for each level.

The functions return `-1` and set `errno`, or return `1` where a checksum is not in use, and they keep what they
have changed until then.  The outcome `undefined` stands for an access outside an object or through a pointer that
was never set.  Reads and writes of the device and allocations of memory succeed, and a cluster is one block.
-/

namespace Pml.Ext2

abbrev initMaxLen : Nat := 2 ^ 15

abbrev uninitMaxLen : Nat := initMaxLen - 1

abbrev extentMagic : Nat := 0xf30a

/-- `struct ext3_extent`, or `struct ext3_extent_index` with `ei_leaf` as `ptr`. -/
structure ExtEntry where
  block : Nat
  ptr : Nat
  len : Nat
  block_lt : block < 2 ^ 32
  ptr_lt : ptr < 2 ^ 48
  len_lt : len < 2 ^ 16
  deriving DecidableEq

def ExtEntry.of (block ptr len : Nat) : ExtEntry :=
  ⟨block % 2 ^ 32, ptr % 2 ^ 48, len % 2 ^ 16, Nat.mod_lt _ (by omega), Nat.mod_lt _ (by omega),
    Nat.mod_lt _ (by omega)⟩

/-- `struct ext3_extent_header` with the slots after it. -/
structure ExtNode where
  magic : Nat
  count : Nat
  max : Nat
  depth : Nat
  generation : Nat
  slot : Nat → ExtEntry

/-- A block with a node, and whether the checksum in its tail is the one of its contents. -/
structure ExtBlock where
  node : ExtNode
  sumOk : Bool

/-- The file system with the blocks that hold nodes. -/
structure ExtFs extends Fs where
  rdonly : Bool
  metadataCsum : Bool
  nodes : Nat → ExtBlock

/-- `struct ext2_inode` of a file with extents.  The pointers of `base` are not used: `i_block` holds the root. -/
structure ExtInode where
  base : Inode
  size : Nat
  extentsFl : Bool
  root : ExtNode

/-- `struct ext3_generic_extent` -/
structure GenExt where
  pblk : Nat
  lblk : Nat
  len : Nat
  leaf : Bool
  uninit : Bool
  secondVisit : Bool
  deriving DecidableEq

/-- The field `buffer` of a path: not set, a pointer that was never stored there, or the copy of a block. -/
inductive Buffer
  | null
  | stray
  | node (nd : ExtNode)

/-- `struct ext3_generic_extent_path`.  `curr` is the number of a slot; `entries` and `max_entries` are those of the
buffer. -/
structure ExtPath where
  buffer : Buffer
  left : Int
  visitNum : Nat
  endBlock : Nat
  curr : Option Nat

/-- What memory holds that is used before it is set: the fields of the paths that `ext3_extent_open` leaves as
`malloc` returns them (whether `buffer` differs from `NULL`, and `visit_num`), and a local extent. -/
structure Garbage where
  buffer : Nat → Bool
  visitNum : Nat → Nat
  extent : GenExt

/-- `struct ext3_extent_handle`, with the inode of the inode table (`saved`) and the number of path structures in
the memory at `handle->path` (`cap`).  The buffer of path 0 is the root in `inode`. -/
structure ExtHandle where
  fs : ExtFs
  inode : ExtInode
  saved : ExtInode
  garbage : Garbage
  level : Nat
  maxDepth : Nat
  maxPaths : Nat
  cap : Nat
  path : Nat → ExtPath

/-- How a function fails. -/
inductive Fault
  | errno (e : Errno)
  | one
  | undefined
  deriving DecidableEq

abbrev ExtM := EStateM Fault ExtHandle

def attempt {α : Type} (x : ExtM α) : ExtM (Except Fault α) := fun h =>
  match x h with
  | .ok a h => .ok (.ok a) h
  | .error .undefined h => .error .undefined h
  | .error e h => .ok (.error e) h

/-- `RETV_ERROR` -/
def fail {α : Type} (e : Errno) : ExtM α := throw (.errno e)

/-! ### Opening -/

/-- `ext3_extent_header_valid`; both kinds of entries have 12 bytes. -/
def ExtNode.headerValid (nd : ExtNode) (size : Nat) : Bool :=
  let hmax := (size - 12) / 12
  decide (nd.magic = extentMagic) && decide (nd.count ≤ nd.max) &&
    decide (nd.max ≤ hmax) && decide (hmax ≤ nd.max + 2)

/-- Whether all words of `i_block` are zero. -/
def ExtNode.isZero (nd : ExtNode) : Bool :=
  decide (nd.magic = 0) && decide (nd.count = 0) && decide (nd.max = 0) && decide (nd.depth = 0) &&
    decide (nd.generation = 0) && (List.range 4).all fun i => nd.slot i == ExtEntry.of 0 0 0

/-- The inode as `ext3_extent_open` goes on with it: an empty root is written if all words of `i_block` are zero. -/
def ExtInode.initRoot (inode : ExtInode) : ExtInode :=
  if inode.root.isZero then
    { inode with
      root := { inode.root with magic := extentMagic, depth := 0, count := 0, max := 4 }, extentsFl := true }
  else inode

/-- The size of `i_block`. -/
abbrev rootSize : Nat := 60

/-- The handle that `ext3_extent_open` returns. -/
def freshHandle (fs : ExtFs) (inode saved : ExtInode) (g : Garbage) : ExtHandle where
  fs := fs
  inode := inode
  saved := saved
  garbage := g
  level := 0
  maxDepth := inode.root.depth
  maxPaths := inode.root.depth + 1
  cap := inode.root.depth + 1
  path := fun i =>
    if i = 0 then ⟨.null, inode.root.count, 1, (inode.size + fs.blksize - 1) / fs.blksize, none⟩
    else ⟨if g.buffer i then .stray else .null, 0, g.visitNum i, 0, none⟩

/-- `ext3_extent_open` with an inode. -/
def ext3ExtentOpen (fs : ExtFs) (inode saved : ExtInode) (g : Garbage) : Except Errno ExtHandle :=
  let inode := inode.initRoot
  if inode.extentsFl = false then .error .EINVAL
  else if inode.root.headerValid rootSize = false then .error .EUCLEAN
  else .ok (freshHandle fs inode saved g)

/-- `ext3_extent_free`, which frees the buffers that are not `NULL`. -/
def ext3ExtentFree : ExtM Unit := fun h =>
  if (List.range h.maxPaths).any fun i => i != 0 && (match (h.path i).buffer with
    | .stray => true
    | _ => false) then .error .undefined h
  else .ok () h

/-! ### Moving -/

def ExtHandle.node (h : ExtHandle) (i : Nat) : ExtNode :=
  if i = 0 then h.inode.root
  else
    match (h.path i).buffer with
    | .node nd => nd
    | _ => ⟨0, 0, 0, 0, 0, fun _ => ExtEntry.of 0 0 0⟩

def ExtHandle.cur (h : ExtHandle) : ExtPath := h.path h.level

def ExtHandle.nd (h : ExtHandle) : ExtNode := h.node h.level

def ExtHandle.setPath (h : ExtHandle) (i : Nat) (p : ExtPath) : ExtHandle :=
  { h with path := Function.update h.path i p }

/-- `EXT2_EXTENT_CURRENT` and the other values of `EXT2_EXTENT_MOVE_MASK`. -/
inductive ExtOp
  | current | root | lastLeaf | firstSib | lastSib | nextSib | prevSib | nextLeaf | prevLeaf | next | prev
  | up | down | downLast
  deriving DecidableEq

def pickMove (op : ExtOp) : ExtM ExtOp := fun h =>
  let path := h.cur
  if op = .next ∨ op = .nextLeaf then
    if h.level < h.maxDepth ∧ path.visitNum = 0 then
      .ok .down (h.setPath h.level { path with visitNum := 1 })
    else if 0 < path.left then .ok .nextSib h
    else if 0 < h.level then .ok .up h
    else .error (.errno .ESRCH) h
  else if op = .prev ∨ op = .prevLeaf then
    if h.level < h.maxDepth ∧ 0 < path.visitNum then .ok .downLast h
    else if path.left < (h.nd.count : Int) - 1 then .ok .prevSib h
    else if 0 < h.level then .ok .up h
    else .error (.errno .ESRCH) h
  else if op = .lastLeaf then
    if h.level < h.maxDepth ∧ path.left = 0 then .ok .down h else .ok .lastSib h
  else .ok op h

/-- `EXT2_EXTENT_NEXT_SIB` -/
def moveNextSib : ExtM (Option Nat × Bool) := fun h =>
  let path := h.cur
  if path.left ≤ 0 then .error (.errno .ESRCH) h
  else
    let i := match path.curr with
      | some i => i + 1
      | none => 0
    .ok (some i, false) (h.setPath h.level { path with left := path.left - 1, curr := some i, visitNum := 0 })

/-- `EXT2_EXTENT_FIRST_SIB` -/
def moveFirstSib : ExtM (Option Nat × Bool) := fun h =>
  moveNextSib (h.setPath h.level { h.cur with left := h.nd.count, curr := none })

/-- `EXT2_EXTENT_PREV_SIB` -/
def movePrevSib : ExtM (Option Nat × Bool) := fun h =>
  let path := h.cur
  match path.curr with
  | none => .error (.errno .ESRCH) h
  | some i =>
    if path.left + 1 ≥ h.nd.count then .error (.errno .ESRCH) h
    else
      .ok (some (i - 1), false) (h.setPath h.level
        { path with
          curr := some (i - 1)
          left := path.left + 1
          visitNum := if h.level < h.maxDepth then 1 else path.visitNum })

/-- `EXT2_EXTENT_LAST_SIB`; in a node without entries the pointer would be before the first slot. -/
def moveLastSib : ExtM (Option Nat × Bool) := fun h =>
  if h.nd.count = 0 then .error .undefined h
  else
    .ok (some (h.nd.count - 1), false)
      (h.setPath h.level { h.cur with curr := some (h.nd.count - 1), left := 0, visitNum := 0 })

/-- `EXT2_EXTENT_UP`, where `orig` is the operation that was asked for. -/
def moveUp (orig : ExtOp) : ExtM (Option Nat × Bool) := fun h =>
  if h.level = 0 then .error (.errno .EINVAL) h
  else
    let path := h.path (h.level - 1)
    let visitNum := if orig = .prev ∨ orig = .prevLeaf then 0 else path.visitNum
    .ok (path.curr, false) { h.setPath (h.level - 1) { path with visitNum } with level := h.level - 1 }

def ExtFs.checksumValid (fs : ExtFs) (b : ExtBlock) : Bool := !fs.metadataCsum || b.sumOk

/-- The path of a level below the cursor, after the block of the child was read and its header found valid. -/
def downPath (h : ExtHandle) (i : Nat) (nd : ExtNode) (last : Bool) : ExtPath where
  buffer := .node nd
  endBlock := if 0 < h.cur.left then (h.nd.slot (i + 1)).block else h.cur.endBlock
  curr := some (if last then nd.count - 1 else 0)
  left := if last then 0 else (nd.count : Int) - 1
  visitNum :=
    if last then (if h.level + 1 < h.maxDepth then 1 else (h.path (h.level + 1)).visitNum) else 0

/-- `EXT2_EXTENT_DOWN` and `EXT2_EXTENT_DOWN_LAST`.  The new buffer is allocated only if `newpath->buffer` is
`NULL`. -/
def moveDown (last : Bool) : ExtM (Option Nat × Bool) := fun h =>
  match h.cur.curr with
  | none => .error (.errno .EINVAL) h
  | some i =>
    let newpath := h.path (h.level + 1)
    if h.maxDepth ≤ h.level then .error (.errno .EINVAL) h
    else if h.cap ≤ h.level + 1 then .error .undefined h
    else
      match newpath.buffer with
      | .stray => .error .undefined h
      | _ =>
        let b := h.fs.nodes (h.nd.slot i).ptr
        if b.node.headerValid h.fs.blksize = false then
          .error (.errno .EUCLEAN) (h.setPath (h.level + 1) { newpath with buffer := .node b.node })
        else if last = true ∧ b.node.count = 0 then .error .undefined h
        else
          let path := downPath h i b.node last
          .ok (path.curr, !h.fs.checksumValid b) { h.setPath (h.level + 1) path with level := h.level + 1 }

/-- The `switch` of `ext3_extent_get`: the slot that the cursor is on then, and `fail_csum`. -/
def move (orig op : ExtOp) : ExtM (Option Nat × Bool) :=
  match op with
  | .current => fun h => .ok (h.cur.curr, false) h
  | .root => fun h => moveFirstSib { h with level := 0 }
  | .firstSib => moveFirstSib
  | .nextSib => moveNextSib
  | .prevSib => movePrevSib
  | .lastSib => moveLastSib
  | .up => moveUp orig
  | .down => moveDown false
  | .downLast => moveDown true
  | _ => fail .EINVAL

def ExtEntry.gen (e : ExtEntry) (second : Bool) : GenExt where
  pblk := e.ptr
  lblk := e.block
  len := if initMaxLen < e.len then e.len - initMaxLen else e.len
  leaf := true
  uninit := decide (initMaxLen < e.len)
  secondVisit := second

/-- What `ext3_extent_get` stores in `extent` for the slot `i` of the node at the cursor. -/
def ExtHandle.read (h : ExtHandle) (i : Nat) : GenExt :=
  let e := h.nd.slot i
  let second := decide (h.cur.visitNum ≠ 0)
  if h.level = h.maxDepth then e.gen second
  else
    let endBlock := if 0 < h.cur.left then (h.nd.slot (i + 1)).block else h.cur.endBlock
    ⟨e.ptr, e.block, sub64 endBlock e.block % 2 ^ 32, false, false, second⟩

/-- Whether `ext3_extent_get` goes back to `retry`. -/
def ExtHandle.retry (h : ExtHandle) (orig : ExtOp) : Bool :=
  ((orig = .nextLeaf ∨ orig = .prevLeaf) ∧ h.level ≠ h.maxDepth) ∨
    (orig = .lastLeaf ∧ (h.level ≠ h.maxDepth ∨ h.cur.left ≠ 0))

/-- The body of `ext3_extent_get`, with the number of rounds that remain. -/
def getLoop (orig : ExtOp) : Nat → Bool → ExtM GenExt
  | 0, _ => throw .undefined
  | n + 1, failCsum => do
    let op ← pickMove orig
    let (index, bad) ← move orig op
    match index with
    | none => fail .ENOENT
    | some i =>
      let h ← get
      if h.retry orig then getLoop orig n (failCsum || bad)
      else if failCsum || bad then fail .EUCLEAN
      else pure (h.read i)

/-- `ext3_extent_get`.  A move to another leaf goes up and down once at most. -/
def ext3ExtentGet (op : ExtOp) : ExtM GenExt := fun h => getLoop op (2 * h.maxDepth + 3) false h

/-! ### Looking a block up -/

/-- The loop of `ext3_extent_goto`, with the number of rounds that remain. -/
def gotoLoop (leaflvl block : Nat) : Nat → GenExt → ExtM Unit
  | 0, _ => throw .undefined
  | n + 1, extent => do
    let h ← get
    let goDown : ExtM Unit := ext3ExtentGet .down >>= gotoLoop leaflvl block n
    if h.maxDepth - h.level = leaflvl then
      if extent.lblk ≤ block ∧ block < extent.lblk + extent.len then pure ()
      else if block < extent.lblk then do
        let _ ← attempt (ext3ExtentGet .prevSib)
        fail .ENOENT
      else do
        match ← attempt (ext3ExtentGet .nextSib) with
        | .ok extent => gotoLoop leaflvl block n extent
        | .error (.errno .ESRCH) => fail .ENOENT
        | .error e => throw e
    else do
      match ← attempt (ext3ExtentGet .nextSib) with
      | .error (.errno .ESRCH) => goDown
      | .error e => throw e
      | .ok extent =>
        if block = extent.lblk then goDown
        else if extent.lblk < block then gotoLoop leaflvl block n extent
        else do
          let _ ← ext3ExtentGet .prevSib
          goDown

/-- `ext3_extent_goto`.  Each level has at most 65535 entries. -/
def ext3ExtentGoto (leaflvl block : Nat) : ExtM Unit := do
  match ← attempt (ext3ExtentGet .root) with
  | .error (.errno .ESRCH) => fail .ENOENT
  | .error e => throw e
  | .ok extent =>
    let h ← get
    if h.maxDepth < leaflvl then fail .ENOTSUP
    else gotoLoop leaflvl block ((h.maxDepth + 1) * 2 ^ 17) extent

/-! ### Paths -/

section

variable (h : ExtHandle) (i : Nat) (p : ExtPath)

@[simp] theorem setPath_path_self : (h.setPath i p).path i = p := Function.update_self ..

theorem setPath_path_of_ne {j : Nat} (hj : j ≠ i) : (h.setPath i p).path j = h.path j := Function.update_of_ne hj ..

@[simp] theorem setPath_fs : (h.setPath i p).fs = h.fs := rfl

@[simp] theorem setPath_inode : (h.setPath i p).inode = h.inode := rfl

@[simp] theorem setPath_level : (h.setPath i p).level = h.level := rfl

@[simp] theorem setPath_maxDepth : (h.setPath i p).maxDepth = h.maxDepth := rfl

@[simp] theorem setPath_cap : (h.setPath i p).cap = h.cap := rfl

end

theorem node_congr {h h' : ExtHandle} {j : Nat} (hi : h'.inode = h.inode)
    (hp : (h'.path j).buffer = (h.path j).buffer) : h'.node j = h.node j := by
  unfold ExtHandle.node
  rw [hi, hp]

/-! ### Rules for calls -/

theorem bind_ok {α β : Type} {x : ExtM α} {f : α → ExtM β} {h h1 : ExtHandle} {a : α} (hx : x h = .ok a h1) :
    (x >>= f) h = f a h1 := by
  simp only [bind, EStateM.bind, hx]

theorem bind_error {α β : Type} {x : ExtM α} {f : α → ExtM β} {h h1 : ExtHandle} {e : Fault}
    (hx : x h = .error e h1) : (x >>= f) h = .error e h1 := by
  simp only [bind, EStateM.bind, hx]

theorem attempt_ok {α : Type} {x : ExtM α} {h h1 : ExtHandle} {a : α} (hx : x h = .ok a h1) :
    attempt x h = .ok (.ok a) h1 := by
  simp only [attempt, hx]

theorem attempt_errno {α : Type} {x : ExtM α} {h h1 : ExtHandle} {e : Errno} (hx : x h = .error (.errno e) h1) :
    attempt x h = .ok (.error (.errno e)) h1 := by
  simp only [attempt, hx]

theorem attempt_undefined {α : Type} {x : ExtM α} {h h1 : ExtHandle} (hx : x h = .error .undefined h1) :
    attempt x h = .error .undefined h1 := by
  simp only [attempt, hx]

theorem attempt_eq_ok {α : Type} {x : ExtM α} {h h1 : ExtHandle} {a : α} (hx : attempt x h = .ok (.ok a) h1) :
    ∃ h1, x h = .ok a h1 := by
  unfold attempt at hx
  split at hx
  · rename_i b h2 hb
    cases hx
    exact ⟨h1, hb⟩
  · cases hx
  · cases hx

theorem get_bind {β : Type} (f : ExtHandle → ExtM β) (h : ExtHandle) :
    ((get : ExtM ExtHandle) >>= f) h = f h h := rfl

theorem get_of_move {op op' : ExtOp} {h h1 h2 : ExtHandle} {i : Nat} (hp : pickMove op h = .ok op' h1)
    (hm : move op op' h1 = .ok (some i, false) h2) (hr : h2.retry op = false) :
    ext3ExtentGet op h = .ok (h2.read i) h2 := by
  refine (bind_ok hp).trans ((bind_ok hm).trans ?_)
  simp only []
  rw [get_bind]
  simp only [hr, Bool.or_self, Bool.false_eq_true, ↓reduceIte]
  rfl

theorem get_of_pick_error {op : ExtOp} {h h1 : ExtHandle} {e : Fault} (hp : pickMove op h = .error e h1) :
    ext3ExtentGet op h = .error e h1 := bind_error hp

theorem get_of_move_error {op op' : ExtOp} {h h1 h2 : ExtHandle} {e : Fault} (hp : pickMove op h = .ok op' h1)
    (hm : move op op' h1 = .error e h2) : ext3ExtentGet op h = .error e h2 :=
  (bind_ok hp).trans (bind_error hm)

end Pml.Ext2
