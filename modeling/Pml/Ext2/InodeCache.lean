import Pml.Ext2.Checksums
import Pml.Lib.Machine

/-!
# The inode cache (`drivers/fs/ext2/util.c`)

Four slots hold inodes under their numbers and are filled in turn; a buffer holds the block that was read last.
`ext2_read_inode` fills the next slot before it knows whether the checksum is right, and leaves the number of the slot
as it was if it is not.  `ext2_update_inode` changes the slot and the buffer before the block is written, and stores
zeros after the first 128 bytes of a larger inode.

A function is undefined (`none`) for a descriptor outside of the array.
-/

namespace Pml.Ext2

open ByteMemory

/-- `struct ext2_inode_cache_entry` -/
structure InodeSlot where
  ino : Nat
  inode : Mem

/-- `struct ext2_inode_cache`, with one reference. -/
structure InodeCache where
  buffer : Mem
  block : Nat
  cacheLast : Int
  cacheSize : Nat
  slot : Nat → InodeSlot

/-- The device and `fs->icache`. -/
structure InodeStore where
  disk : Disk
  icache : Option InodeCache

/-- What the device does with each block: an access that fails leaves other bytes in the buffer or in the block. -/
structure Device where
  read : Nat → Option Mem
  write : Nat → Option Mem

namespace InodeCache

/-- `ext2_flush_inode_cache` -/
def flush (c : InodeCache) : InodeCache := { c with block := 0, slot := fun i => { c.slot i with ino := 0 } }

/-- The cache that `ext2_create_inode_cache` makes in memory that holds `garbage`. -/
def create (cacheSize : Nat) (garbage : Mem) : InodeCache :=
  ({ buffer := garbage, block := 0, cacheLast := -1, cacheSize, slot := fun _ => ⟨0, garbage⟩ } : InodeCache).flush

def lookup (c : InodeCache) (ino : Nat) : Option Nat :=
  (List.range c.cacheSize).find? fun i => decide ((c.slot i).ino = ino)

/-- `cache_slot` -/
def next (c : InodeCache) : Nat := ((c.cacheLast + 1) % (c.cacheSize : Int)).toNat

def setInode (c : InodeCache) (i : Nat) (inode : Mem) : InodeCache :=
  { c with slot := Function.update c.slot i { c.slot i with inode } }

/-- The first `n` bytes of the inode are changed in its slot, if it has one. -/
def touch (c : InodeCache) (ino : Nat) (inode : Mem) (n : Nat) : InodeCache :=
  match c.lookup ino with
  | some i => c.setInode i (paste (c.slot i).inode 0 inode 0 n)
  | none => c

/-- The block is in the buffer, or is read; the Boolean tells whether that succeeds. -/
def load (read : Nat → Option Mem) (disk : Disk) (blockno : Nat) (c : InodeCache) : InodeCache × Bool :=
  if blockno ≠ c.block then
    match read blockno with
    | none => ({ c with buffer := disk blockno, block := blockno }, true)
    | some junk => ({ c with buffer := junk }, false)
  else (c, true)

/-- The loop of `ext2_read_inode`, which fills the slot `i` from `ptr` on.  A round copies at least one byte. -/
def fillSlot (read : Nat → Option Mem) (disk : Disk) (blksize i : Nat) :
    Nat → (len offset blockno ptr : Nat) → InodeCache → InodeCache × Bool
  | 0, _, _, _, _, c => (c, true)
  | fuel + 1, len, offset, blockno, ptr, c =>
    if len = 0 then (c, true)
    else
      let clen := if blksize < offset + len then blksize - offset else len
      match c.load read disk blockno with
      | (c, false) => (c, false)
      | (c, true) =>
        fillSlot read disk blksize i fuel (len - clen) 0 (blockno + 1) (ptr + clen)
          (c.setInode i (paste (c.slot i).inode ptr c.buffer offset clen))

/-- The loop of `ext2_update_inode`, which stores `winode` from `ptr` on. -/
def storeInode (dev : Device) (winode : Mem) (blksize : Nat) :
    Nat → (len offset blockno ptr : Nat) → InodeCache × Disk → (InodeCache × Disk) × Bool
  | 0, _, _, _, _, s => (s, true)
  | fuel + 1, len, offset, blockno, ptr, (c, disk) =>
    if len = 0 then ((c, disk), true)
    else
      let clen := if blksize < offset + len then blksize - offset else len
      match c.load dev.read disk blockno with
      | (c, false) => ((c, disk), false)
      | (c, true) =>
        let c := { c with buffer := paste c.buffer offset winode ptr clen }
        match dev.write blockno with
        | some junk => ((c, Function.update disk blockno junk), false)
        | none =>
          storeInode dev winode blksize fuel (len - clen) 0 (blockno + 1) (ptr + clen)
            (c, Function.update disk blockno c.buffer)

end InodeCache

/-- `ext2_create_inode_cache (fs, 4)`, if there is no cache: `mem` is what the memory holds, if there is any. -/
def InodeStore.cache (s : InodeStore) (mem : Option Mem) : Option InodeCache :=
  match s.icache with
  | some c => some c
  | none => mem.map (InodeCache.create 4)

namespace Volume

variable (crc : Crc)

def inodeOffset (v : Volume) (ino : Nat) : Nat := sub64 ino 1 % v.super.inodesPerGroup * v.super.inodeSize

def TableValid (v : Volume) (group : Nat) : Prop :=
  let blockno := v.inodeTableLoc group
  blockno ≠ 0 ∧ v.super.firstDataBlock ≤ blockno ∧
    sub64 (add64 blockno v.super.inodeBlocksPerGroup) 1 < v.super.blocksCount

instance (v : Volume) (group : Nat) : Decidable (v.TableValid group) := inferInstanceAs (Decidable (_ ∧ _))

def inodePlace (v : Volume) (ino : Nat) : Nat × Nat :=
  (add64 (v.inodeTableLoc (v.super.groupOfInode ino)) (v.inodeOffset ino >>> (v.super.logBlockSize + 10)),
    v.inodeOffset ino &&& (v.super.blksize - 1))

/-- `ext2_read_inode`.  The caller gets the first 128 bytes of the inode that is returned. -/
def readInode (v : Volume) (read : Nat → Option Mem) (mem : Option Mem) (s : InodeStore) (ino : Nat) :
    Option (InodeStore × Except Errno Mem) :=
  if ino = 0 ∨ v.super.inodesCount < ino then some (s, .error .EINVAL)
  else
    match s.cache mem with
    | none => some (s, .error .ENOMEM)
    | some c =>
      match c.lookup ino with
      | some i => some ({ s with icache := some c }, .ok (c.slot i).inode)
      | none =>
        let group := v.super.groupOfInode ino
        if v.groupDescCount < group then some ({ s with icache := some c }, .error .EINVAL)
        else if ¬ v.HasDesc group then none
        else if ¬ v.TableValid group then some ({ s with icache := some c }, .error .EUCLEAN)
        else
          let (blockno, offset) := v.inodePlace ino
          let len := v.super.inodeSize
          let i := c.next
          match c.fillSlot read s.disk v.super.blksize i len len offset blockno 0 with
          | (c, false) => some ({ s with icache := some c }, .error Errno.EIO)
          | (c, true) =>
            let iptr := (c.slot i).inode
            if v.inodeChecksumValid crc ino iptr then
              some ({ s with icache := some { c with
                        cacheLast := i
                        slot := Function.update c.slot i { c.slot i with ino } } }, .ok iptr)
            else some ({ s with icache := some c }, .error .EUCLEAN)

/-- The first part of `ext2_update_inode`, where `n` bytes of the inode are given: the inode is changed in the
cache. -/
def updateSlot (mem : Option Mem) (s : InodeStore) (ino : Nat) (inode : Mem) (n : Nat) : Option InodeCache :=
  match s.icache with
  | some c => some (c.touch ino inode n)
  | none => s.cache mem

/-- The second part of `ext2_update_inode`, where `winode` holds what was read. -/
def storeInode (v : Volume) (dev : Device) (mem : Option Mem) (s : InodeStore) (ino : Nat) (inode : Mem)
    (bufsize : Nat) (winode : Mem) : Option (InodeStore × Except Errno Unit) :=
  let len := v.super.inodeSize
  match updateSlot mem s ino inode (min bufsize len) with
  | none => some (s, .error .ENOMEM)
  | some c =>
    let winode := v.inodeChecksumUpdate crc ino (paste winode 0 inode 0 (min bufsize len))
    let group := v.super.groupOfInode ino
    if ¬ v.HasDesc group then none
    else if ¬ v.TableValid group then some ({ s with icache := some c }, .error .EUCLEAN)
    else
      let (blockno, offset) := v.inodePlace ino
      match InodeCache.storeInode dev winode v.super.blksize len len offset blockno 0 (c, s.disk) with
      | ((c, disk), ok) => some (⟨disk, some c⟩, if ok then .ok () else .error Errno.EIO)

/-- `ext2_update_inode`, where `calloc` tells whether there is memory for a copy of the inode. -/
def updateInode (v : Volume) (dev : Device) (mem : Option Mem) (calloc : Bool) (s : InodeStore) (ino : Nat)
    (inode : Mem) (bufsize : Nat) : Option (InodeStore × Except Errno Unit) :=
  if v.readOnly then some (s, .error .EROFS)
  else if ¬ calloc then some (s, .error .ENOMEM)
  else if bufsize < v.super.inodeSize then
    match v.readInode crc dev.read mem s ino with
    | none => none
    | some (s, .error e) => some (s, .error e)
    | some (s, .ok m) =>
      v.storeInode crc dev mem s ino inode bufsize (paste (fun _ => 0) 0 m 0 (min 128 v.super.inodeSize))
  else v.storeInode crc dev mem s ino inode bufsize fun _ => 0

end Volume

end Pml.Ext2
