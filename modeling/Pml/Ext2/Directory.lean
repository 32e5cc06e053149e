import Pml.Ext2.Checksums

/-!
# Directories (`drivers/fs/ext2/link.c`, `drivers/fs/ext2/util.c`)

A directory block is cut into records.  A record has an inode number, which is 0 if the record is free, its length and
a name.  With metadata checksums a tail of 12 bytes ends the block.

`ext2_dir_iterate` reads the blocks one after the other and calls a function for each record.  The function can change
the buffer; then the block is written back.  The directories here have direct blocks only.  Blocks can be read and
written, and the inode of the directory can be updated, so that `ext2_block_iterate` returns 0.

`ext2_dir_rec_len` takes the length of a name as an `unsigned char`, but `ext2_process_link` copies the whole name.
-/

namespace Pml.Ext2

open ByteMemory

/-! ### Records -/

/-- `ext2_dir_rec_len`; the length is an `unsigned char`. -/
def dirRecLen (nameLen : Nat) : Nat := (nameLen % 256 + 8 + 3) / 4 * 4

def getRecLen (blksize len : Nat) : Nat :=
  if blksize < 65536 then len
  else if len = 65535 ∨ len = 0 then blksize
  else (len &&& 65532) ||| ((len &&& 3) <<< 16)

/-- The value that `ext2_set_rec_len` stores. -/
def recLenField (blksize len : Nat) : Nat :=
  if len < 65536 then len
  else if len = blksize then if blksize = 65536 then 65535 else 0
  else (len &&& 65532) ||| ((len >>> 16) &&& 3)

def setRecLen (blksize len : Nat) (m : Mem) (offset : Nat) : Except Errno Mem :=
  if blksize < len ∨ 262144 < blksize ∨ len % 4 ≠ 0 then .error .EINVAL
  else .ok (writeLE m (offset + 4) 2 (recLenField blksize len))

def dInode (m : Mem) (offset : Nat) : Nat := readLE m offset 4

def dRecLen (m : Mem) (offset : Nat) : Nat := readLE m (offset + 4) 2

/-- `d_name_len`; the high byte is the file type. -/
def dNameLen (m : Mem) (offset : Nat) : Nat := readLE m (offset + 6) 2

/-- The bytes of `d_name` that belong to the name. -/
def dName (m : Mem) (offset : Nat) : List UInt8 := copyOut m (offset + 8) (dNameLen m offset % 256)

def copyName (m : Mem) (offset : Nat) (name : List UInt8) : Mem :=
  copyIn m offset (fun x => name.getD x 0) name.length

/-- The file system, the number and the generation of a directory, the FILETYPE feature and the flag
`EXT2_INDEX_FL`. -/
structure Dir where
  vol : Volume
  id : Volume.DirId
  filetype : Bool
  indexed : Bool

namespace Dir

def blksize (d : Dir) : Nat := d.vol.super.blksize

def csumSize (d : Dir) : Nat := if d.vol.super.metadataCsum then 12 else 0

/-! ### The iteration -/

/-- What a function returns: `DIRENT_CHANGED` and `DIRENT_ABORT`. -/
structure Ret where
  changed : Bool
  abort : Bool

/-- A function for the records: offset, buffer and private data; undefined if it writes outside of the buffer. -/
abbrev Func (σ : Type) := Nat → Mem → σ → Option (Mem × σ × Ret)

/-- The end of the loop over the records of a block. -/
structure Pass (σ : Type) where
  buf : Mem
  state : σ
  changed : Bool
  abort : Bool
  bad : Bool

/-- The loop of `ext2_process_dir_block`; `empty` is `DIRENT_FLAG_EMPTY`.  A record with a bad length ends it.  With
fuel `0` there is no result. -/
def loop {σ : Type} (d : Dir) (empty : Bool) (func : Func σ) : Nat → Nat → Mem → σ → Bool → Option (Pass σ)
  | 0, _, _, _, _ => none
  | fuel + 1, offset, m, s, changed =>
    if offset < d.blksize - 8 then
      let recLen := getRecLen d.blksize (dRecLen m offset)
      if d.blksize < offset + recLen ∨ recLen < 8 ∨ recLen % 4 ≠ 0 ∨ recLen < dNameLen m offset % 256 + 8 then
        some ⟨m, s, changed, true, true⟩
      else if dInode m offset = 0 ∧ (empty = false ∨
        (offset = d.blksize - d.csumSize ∧ dRecLen m offset = d.csumSize ∧ dNameLen m offset = 0xde00)) then
        loop d empty func fuel (offset + recLen) m s changed
      else
        match func offset m s with
        | none => none
        | some (m, s, r) =>
          let recLen := if r.changed then getRecLen d.blksize (dRecLen m offset) else recLen
          if r.abort then some ⟨m, s, changed || r.changed, true, false⟩
          else loop d empty func fuel (offset + recLen) m s (changed || r.changed)
    else some ⟨m, s, changed, false, false⟩

variable (crc : Crc)

/-- `ext2_process_dir_block`: the block on the disk, the private data, whether the iteration ends, and its error. -/
def processDirBlock {σ : Type} (d : Dir) (empty : Bool) (func : Func σ) (m : Mem) (s : σ) :
    Option (Mem × σ × Bool × Option Errno) :=
  if d.vol.dirBlockChecksumValid crc d.id m then
    (loop d empty func (d.blksize + 1) 0 m s false).map fun p =>
      if p.bad then (m, p.state, true, some .EUCLEAN)
      else if p.changed then
        let r := d.vol.dirBlockChecksumUpdate crc d.id p.buf
        if r.2 = 0 then (r.1, p.state, p.abort, none) else (m, p.state, true, some .ENOSPC)
      else (m, p.state, p.abort, none)
  else some (m, s, true, some .EUCLEAN)

/-- `ext2_dir_iterate` over the direct blocks; a slot without a block is passed. -/
def dirIterate {σ : Type} (d : Dir) (empty : Bool) (func : Func σ) :
    List (Option Mem) → σ → Option (List (Option Mem) × σ × Option Errno)
  | [], s => some ([], s, none)
  | none :: slots, s => (dirIterate d empty func slots s).map fun r => (none :: r.1, r.2)
  | some m :: slots, s =>
    match processDirBlock crc d empty func m s with
    | none => none
    | some (m, s, true, e) => some (some m :: slots, s, e)
    | some (m, s, false, _) => (dirIterate d empty func slots s).map fun r => (some m :: r.1, r.2)

/-! ### Lookup -/

/-- `ext2_process_lookup`; the private data is the inode that has been found. -/
def processLookup (name : List UInt8) : Func (Option Nat) := fun offset m s =>
  if dName m offset = name then some (m, some (dInode m offset), ⟨false, true⟩) else some (m, s, ⟨false, false⟩)

def lookupInode (d : Dir) (slots : List (Option Mem)) (name : List UInt8) : Option (Except Errno Nat) :=
  (dirIterate crc d false (processLookup name) slots none).map fun r =>
    match r with
    | (_, _, some e) => .error e
    | (_, some ino, none) => .ok ino
    | (_, none, none) => .error .ENOENT

/-! ### Adding an entry -/

/-- The members of `struct ext2_link_ctx` that change. -/
structure LinkCtx where
  prev : Nat
  done : Bool
  err : Option Errno

/-- The name, the inode number and the file type of a new entry. -/
structure Link where
  name : List UInt8
  inode : Nat
  flags : Nat

/-- The first part of `ext2_process_link`: a free record after the record is made a part of it. -/
def mergeNext (d : Dir) (offset : Nat) (m : Mem) : Except Errno (Mem × Nat × Bool) :=
  let curr := getRecLen d.blksize (dRecLen m offset)
  let next := offset + curr
  if next + d.csumSize + 8 < d.blksize ∧ dInode m next = 0 ∧ next + dRecLen m next ≤ d.blksize then
    (setRecLen d.blksize (curr + dRecLen m next) m offset).map fun m' => (m', curr + dRecLen m next, true)
  else .ok (m, curr, false)

/-- The record keeps `min` bytes, and the rest becomes a free record. -/
def splitRecord (d : Dir) (offset min rest : Nat) (m : Mem) : Except Errno Mem :=
  match setRecLen d.blksize min m offset with
  | .error e => .error e
  | .ok m =>
    let next := offset + dRecLen m offset
    setRecLen d.blksize rest (writeLE (writeLE m next 4 0) (next + 6) 2 0) next

def fillRecord (d : Dir) (l : Link) (offset : Nat) (m : Mem) : Mem :=
  let m := writeLE m offset 4 l.inode
  let m := writeLE m (offset + 6) 2 ((dNameLen m offset &&& 0xff00) ||| (l.name.length &&& 0xff))
  let m := copyName m (offset + 8) l.name
  if d.filetype then writeLE m (offset + 6) 2 ((dNameLen m offset &&& 0xff) ||| ((l.flags &&& 7) <<< 8)) else m

/-- `ext2_process_link`; undefined if the name does not fit in the block. -/
def processLink (d : Dir) (l : Link) : Func LinkCtx := fun offset m s =>
  if s.done then some (m, s, ⟨false, true⟩)
  else
    let recLen := dirRecLen l.name.length
    match mergeNext d offset m with
    | .error e => some (m, { s with err := some e }, ⟨false, true⟩)
    | .ok (m, curr, changed) =>
      if dInode m offset ≠ 0 then
        let min := dirRecLen (dNameLen m offset)
        if curr < min + recLen then some (m, s, ⟨changed, false⟩)
        else
          match splitRecord d offset min (curr - min) m with
          | .error e => some (m, { s with err := some e }, ⟨false, true⟩)
          | .ok m => some (m, s, ⟨true, false⟩)
      else if curr < recLen then some (m, s, ⟨changed, false⟩)
      else if d.blksize < offset + 8 + l.name.length then none
      else some (fillRecord d l offset m, { s with done := true }, ⟨true, true⟩)

def initDirentTail (m : Mem) (t : Nat) : Mem := writeLE (writeLE (fill m t 12 0) (t + 4) 2 12) (t + 6) 2 0xde00

/-- `ext2_new_dir_block` if there is memory for the block. -/
def newDirBlock (d : Dir) (ino parent : Nat) : Except Errno Mem :=
  match setRecLen d.blksize (d.blksize - d.csumSize) (fun _ => 0) 0 with
  | .error e => .error e
  | .ok m =>
    let type := if d.filetype then 2 else 0
    let r : Except Errno Mem :=
      if ino = 0 then .ok m
      else
        let m := writeLE (writeLE (copyName m 8 [46]) 0 4 ino) 6 2 (type <<< 8 ||| 1)
        let m := writeLE m 4 2 (dirRecLen 1)
        match setRecLen d.blksize (d.blksize - d.csumSize - dirRecLen 1) m (dRecLen m 0) with
        | .error e => .error e
        | .ok m' =>
          .ok (copyName (writeLE (writeLE m' (dRecLen m 0) 4 parent) (dRecLen m 0 + 6) 2 (type <<< 8 ||| 2))
            (dRecLen m 0 + 8) [46, 46])
    r.map fun m => if d.vol.super.metadataCsum then initDirentTail m (d.blksize - 12) else m

/-- `ext2_expand_dir`: the first slot without a block gets an empty directory block, but slot 0 gets a block of
zeros.  `alloc` says for which slots there is a block.  Indirect blocks, which come after the direct ones, are not
modelled. -/
def expandDir (d : Dir) (alloc : Nat → Bool) : Nat → List (Option Mem) → Option (List (Option Mem) × Option Errno)
  | _, [] => none
  | i, some m :: slots => (expandDir d alloc (i + 1) slots).map fun r => (some m :: r.1, r.2)
  | i, none :: slots =>
    if alloc i then
      if 0 < i then
        match newDirBlock d 0 0 with
        | .error e => some (none :: slots, some e)
        | .ok m =>
          let r := d.vol.dirBlockChecksumUpdate crc d.id m
          if r.2 = 0 then some (some r.1 :: slots, none) else some (none :: slots, some .ENOSPC)
      else (expandDir d alloc (i + 1) slots).map fun r => (some (fun _ => 0) :: r.1, r.2)
    else some (none :: slots, some .ENOSPC)

def addLink (d : Dir) (alloc : Nat → Bool) (l : Link) (slots : List (Option Mem)) :
    Option (List (Option Mem) × Option Errno) :=
  if d.vol.readOnly then some (slots, some .EROFS)
  else if d.indexed then some (slots, some .ENOTSUP)
  else
    match dirIterate crc d true (processLink d l) slots ⟨0, false, none⟩ with
    | none => none
    | some (slots, _, some e) => some (slots, some e)
    | some (slots, ⟨_, _, some e⟩, none) => some (slots, some e)
    | some (slots, ⟨_, true, none⟩, none) => some (slots, none)
    | some (slots, s, none) =>
      match expandDir crc d alloc 0 slots with
      | none => none
      | some (slots, some _) => some (slots, some .ENOSPC)
      | some (slots, none) =>
        match dirIterate crc d true (processLink d l) slots s with
        | none => none
        | some (slots, _, some e) => some (slots, some e)
        | some (slots, ⟨_, _, some e⟩, none) => some (slots, some e)
        | some (slots, ⟨_, true, none⟩, none) => some (slots, none)
        | some (slots, _, none) => some (slots, some .ENOSPC)

/-! ### Removing an entry -/

def isDots (m : Mem) (offset : Nat) : Bool :=
  m (offset + 8) == 46 && (m (offset + 9) == 0 || (m (offset + 9) == 46 && m (offset + 10) == 0))

def checkEmpty : Func Bool := fun offset m s =>
  if isDots m offset then some (m, s, ⟨false, false⟩) else some (m, false, ⟨false, true⟩)

def isEmpty (d : Dir) (slots : List (Option Mem)) : Option Bool :=
  (dirIterate crc d true checkEmpty slots true).map fun r => r.2.1

/-- `ext2_process_unlink`: `vnode` gives for an inode number whether it is a directory, and its number of links.  The
record is made a part of the record before it.  The last link of an inode also frees its blocks; the buffer is the
same then, also for the last link of the directory itself. -/
def processUnlink (d : Dir) (vnode : Nat → Option (Bool × Nat)) (slots : List (Option Mem)) (name : List UInt8) :
    Func LinkCtx := fun offset m s =>
  let prev := s.prev
  let s := { s with prev := offset }
  if dName m offset ≠ name ∨ dInode m offset = 0 then some (m, s, ⟨false, false⟩)
  else
    match vnode (dInode m offset) with
    | none => some (m, s, ⟨true, true⟩)
    | some (isDir, _) =>
      match if isDir then isEmpty crc d slots else some true with
      | none => none
      | some false => some (m, { s with err := some .ENOTEMPTY }, ⟨false, true⟩)
      | some true =>
        let m := if offset ≠ 0 then writeLE m (prev + 4) 2 (dRecLen m prev + dRecLen m offset)
          else writeLE m offset 4 0
        some (m, { s with done := true }, ⟨true, true⟩)

def unlinkDirent (d : Dir) (vnode : Nat → Option (Bool × Nat)) (name : List UInt8) (slots : List (Option Mem)) :
    Option (List (Option Mem) × Option Errno) :=
  if d.vol.readOnly then some (slots, some .EROFS)
  else
    match dirIterate crc d true (processUnlink crc d vnode slots name) slots ⟨0, false, none⟩ with
    | none => none
    | some (slots, _, some e) => some (slots, some e)
    | some (slots, ⟨_, _, some e⟩, none) => some (slots, some e)
    | some (slots, ⟨_, true, none⟩, none) => some (slots, none)
    | some (slots, _, none) => some (slots, some .ENOENT)

end Dir

end Pml.Ext2
