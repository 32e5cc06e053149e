import Pml.Ext2.DirectoryMap
import Pml.Ext2.InodeBlocks

/-!
# Symbolic links (`drivers/fs/ext2/inode.c`)

`ext2_symlink` stores a target of less than 60 bytes in the 60 bytes of `i_block`, and a longer one in a block that
`i_block` maps, by a pointer or by an extent.  `ext2_readlink` takes the target from `i_block` if it has at most 60
bytes.

The results of `ext2_new_block` and `ext2_new_inode` are given, and the bitmaps and counts that `ext2_symlink` brings
up to date are left out, as is the inode of the directory.
-/

namespace Pml.Ext2

open ByteMemory

/-! ### `ext2_symlink` -/

abbrev symlinkMode : Nat := 0o120755

/-- The features of the file system that decide where a target is stored, and what the block functions see. -/
structure LinkFs where
  extents : Bool
  inlineData : Bool
  largeFile : Bool
  view : ExtFs

/-- What a call of `ext2_symlink` meets: the calls of the other functions, the block and the inode that are free, the
process, the time, the memory for a large inode, and what is left in the block of the target if it cannot be
written. -/
structure LinkEnv where
  lookup : CallEnv
  fileBuffer : Bool
  blockbuf : Bool
  newBlock : Except Errno Nat
  newInode : Except Errno Nat
  euid : Nat
  egid : Nat
  time : Nat
  create : CallEnv
  large : Option Mem
  garbage : Garbage
  bmapBuffer : Bool
  map : CallEnv × CallEnv
  write : Option Mem
  alloc : Nat → Bool

/-- The block and the inode are ones of the file system: the block is neither block 0 nor the one of the inode, and an
inode can hold its number. -/
structure LinkEnv.Fresh (env : LinkEnv) (v : Volume) (extents : Bool) : Prop where
  inode : ∀ ino, env.newInode = .ok ino → v.HasInode ino
  block : ∀ block, env.newBlock = .ok block → block ≠ 0 ∧ block < 2 ^ 48 ∧ (extents = false → block < 2 ^ 32)
  place : ∀ block ino, env.newBlock = .ok block → env.newInode = .ok ino → block ≠ (v.inodePlace ino).1

/-- `ext2_lookup` -/
def lookupVnode (crc : Crc) (d : Dir) (largeFile buffer : Bool) (env : CallEnv) (s : InodeStore)
    (slots : List (Option Mem)) (name : List UInt8) : Option (InodeStore × Except Errno FileVnode) :=
  match Dir.lookupInode crc d slots name with
  | none => none
  | some (.error e) => some (s, .error e)
  | some (.ok ino) => d.vol.fill crc largeFile buffer env s ino

def stringBytes (target : List UInt8) : Mem := fun x => target.getD x 0

def iblkSet (v : Volume) (hugeFile : Bool) (m : Mem) (nblocks : Nat) : Mem :=
  let n := if hugeFile && flagHuge m then nblocks else nblocks * (v.super.blksize / 512)
  let n := n <<< v.super.clusterRatioBits
  let m := writeLE m 28 4 n
  if hugeFile then writeLE m 116 2 (n >>> 32) else m

/-- The inode of a new link.  A link is too short for `ext2_inode_set_size` to change the features. -/
def linkInode (v : Volume) (f : LinkFs) (euid egid : Nat) (fast : Bool) (target : List UInt8) : Mem :=
  let m : Mem := fun _ => 0
  let m := writeLE m 0 2 symlinkMode
  let m := writeLE m 2 2 euid
  let m := writeLE m 24 2 egid
  let m := writeLE m 26 2 1
  let m := writeLE (writeLE m 4 4 target.length) 108 4 (target.length >>> 32)
  if fast then copyIn m 40 (stringBytes target) (target.length + 1)
  else
    let m := iblkSet v f.view.hugeFile m 1
    if f.extents then writeLE m 32 4 (readLE m 32 4 ||| 1 <<< 19) else m

def stampField (t a : Nat) (m : Mem) : Mem := if readLE m a 4 = 0 then writeLE m a 4 t else m

/-- The times that `ext2_write_new_inode` sets if they are zero. -/
def stampInode (t : Nat) (m : Mem) : Mem := stampField t 8 (stampField t 16 (stampField t 12 m))

/-- `ext2_write_new_inode` of an inode with times.  `large` is what the memory for a large inode holds. -/
def writeNewInode (crc : Crc) (v : Volume) (env : CallEnv) (large : Option Mem) (t : Nat) (s : InodeStore) (ino : Nat)
    (m : Mem) : Option (InodeStore × Except Errno Unit) :=
  let size := v.super.inodeSize
  if size = 128 then v.updateInode crc env.dev env.mem env.calloc s ino m 128
  else
    match large with
    | none => some (s, .error .ENOMEM)
    | some garbage =>
      let buffer := writeLE (paste garbage 0 m 0 128) 128 2 32
      let buffer := if readLE buffer 144 4 = 0 then writeLE buffer 144 4 t else buffer
      v.updateInode crc env.dev env.mem env.calloc s ino buffer size

/-- The block is mapped, and the target is written to it. -/
def writeTarget (crc : Crc) (v : Volume) (f : LinkFs) (env : LinkEnv) (s : InodeStore) (ino : Nat) (m : Mem)
    (block : Nat) (target : List UInt8) : Option (InodeStore × Except Fault Unit) :=
  match bmapSet crc v f.view env.garbage env.bmapBuffer env.map s ino m 0 block with
  | none => none
  | some (s, .error e) => some (s, .error e)
  | some (s, .ok _) =>
    match env.write with
    | some junk => some ({ s with disk := Function.update s.disk block junk }, .error (.errno Errno.EIO))
    | none => some ({ s with disk := Function.update s.disk block (stringBytes target) }, .ok ())

def symlink (crc : Crc) (d : Dir) (f : LinkFs) (env : LinkEnv) (s : InodeStore) (slots : List (Option Mem))
    (name target : List UInt8) : Option ((InodeStore × List (Option Mem)) × Except Fault Unit) :=
  match lookupVnode crc d f.largeFile env.fileBuffer env.lookup s slots name with
  | none => none
  | some (s, .ok _) => some ((s, slots), .error (.errno .EEXIST))
  | some (s, .error _) =>
    let fail (s : InodeStore) (e : Fault) : Option ((InodeStore × List (Option Mem)) × Except Fault Unit) :=
      some ((s, slots), .error e)
    if d.vol.super.blksize ≤ target.length then fail s (.errno .ENAMETOOLONG)
    else if ¬ env.blockbuf then fail s (.errno .ENOMEM)
    else
      let fast := decide (target.length < 60)
      match if fast then .ok 0 else env.newBlock with
      | .error e => fail s (.errno e)
      | .ok block =>
        match env.newInode with
        | .error e => fail s (.errno e)
        | .ok ino =>
          if ¬ fast ∧ f.inlineData then fail s (.errno .ENOTSUP)
          else
            let m := stampInode env.time (linkInode d.vol f env.euid env.egid fast target)
            match writeNewInode crc d.vol env.create env.large env.time s ino m with
            | none => none
            | some (s, .error e) => fail s (.errno e)
            | some (s, .ok ()) =>
              match if fast then some (s, .ok ()) else writeTarget crc d.vol f env s ino m block target with
              | none => none
              | some (s, .error e) => fail s e
              | some (s, .ok ()) =>
                match Dir.addLink crc d env.alloc ⟨name, ino, 7⟩ slots with
                | none => none
                | some (slots, some e) => some ((s, slots), .error (.errno e))
                | some (slots, none) => some ((s, slots), .ok ())

/-! ### `ext2_readlink` -/

/-- `ext2_load_file_buffer` of a file without a valid buffer. -/
def loadFileBuffer (fs : ExtFs) (g : Garbage) (read : Nat → Option Mem) (disk : Disk) (vp : FileVnode) (block : Nat) :
    Option (Except Fault Mem) :=
  match bmapGet fs g vp.ino vp.inode block with
  | none => none
  | some (.error e) => some (.error e)
  | some (.ok (physblock, uninit)) =>
    if physblock ≠ 0 ∧ uninit = false then
      match read physblock with
      | some _ => some (.error (.errno Errno.EIO))
      | none => some (.ok (disk physblock))
    else some (.ok fun _ => 0)

/-- The loop of `ext2_read` on a file that has just been opened, with the number of rounds that remain and the buffer,
if it is valid.  The file is at its first block, and a read of another block, which `ext2_file_flush` comes before, is
not modelled. -/
def readLoop (fs : ExtFs) (g : Garbage) (read : Nat → Option Mem) (disk : Disk) (vp : FileVnode) :
    Nat → (pos len : Nat) → Option Mem → Option (Except Fault (List UInt8))
  | 0, _, _, _ => none
  | fuel + 1, pos, len, buffer =>
    if iSize vp.inode ≤ pos ∨ len = 0 then some (.ok [])
    else if fs.blksize ≤ pos then none
    else
      match (match buffer with
        | some b => some (Except.ok b)
        | none => loadFileBuffer fs g read disk vp (pos / fs.blksize)) with
      | none => none
      | some (.error e) => some (.error e)
      | some (.ok b) =>
        let start := pos % fs.blksize
        let c := min (min (fs.blksize - start) len) (iSize vp.inode - pos)
        (readLoop fs g read disk vp fuel (pos + c) (len - c) (some b)).map
          (Except.map (copyOut b start c ++ ·))

def readlink (fs : ExtFs) (g : Garbage) (read : Nat → Option Mem) (disk : Disk) (vp : FileVnode) (len : Nat) :
    Option (Except Fault (List UInt8)) :=
  if vp.size ≤ 60 then some (.ok (copyOut vp.inode 40 (min len vp.size)))
  else if flagInline vp.inode then some (.error (.errno .ENOTSUP))
  else
    let len := min len vp.size
    readLoop fs g read disk vp (len + 1) 0 len none

/-! ### The inode of a link -/

private theorem stampField_outside {t a : Nat} {m : Mem} {x : Nat} (h : x < a ∨ a + 4 ≤ x) :
    stampField t a m x = m x := by
  unfold stampField
  split
  · exact writeLE_outside h
  · rfl

private theorem stampInode_outside {t : Nat} {m : Mem} {x : Nat} (h : x < 8 ∨ 20 ≤ x) : stampInode t m x = m x := by
  unfold stampInode
  rw [stampField_outside (by omega), stampField_outside (by omega), stampField_outside (by omega)]

private theorem iblkSet_outside {v : Volume} {hugeFile : Bool} {m : Mem} {n x : Nat} (h1 : x < 28 ∨ 32 ≤ x)
    (h2 : x < 116 ∨ 118 ≤ x) :
    iblkSet v hugeFile m n x = m x := by
  unfold iblkSet
  split
  · rw [writeLE_outside (by omega), writeLE_outside (by omega)]
  · exact writeLE_outside (by omega)

/-- What the reader takes from an inode. -/
structure LinkHeader (m : Mem) (size : Nat) (extents : Bool) : Prop where
  low : readLE m 4 4 = size
  high : readLE m 108 4 = 0
  extents : flagExtents m = extents
  inline : flagInline m = false

theorem LinkHeader.congr {m m' : Mem} {size : Nat} {extents : Bool} (h : LinkHeader m size extents)
    (heq : ∀ x, (4 ≤ x ∧ x < 8) ∨ (32 ≤ x ∧ x < 36) ∨ (108 ≤ x ∧ x < 112) → m' x = m x) :
    LinkHeader m' size extents := by
  have h1 : readLE m' 4 4 = readLE m 4 4 := readLE_congr fun x _ hx => heq x (by omega)
  have h2 : readLE m' 108 4 = readLE m 108 4 := readLE_congr fun x _ hx => heq x (by omega)
  have h3 : readLE m' 32 4 = readLE m 32 4 := readLE_congr fun x _ hx => heq x (by omega)
  refine ⟨h1.trans h.low, h2.trans h.high, ?_, ?_⟩
  · rw [← h.extents, flagExtents, flagExtents, h3]
  · rw [← h.inline, flagInline, flagInline, h3]

theorem LinkHeader.iSize {m : Mem} {size : Nat} {extents : Bool} (h : LinkHeader m size extents) :
    iSize m = size := by
  rw [Ext2.iSize, h.low, h.high, Nat.zero_shiftLeft, Nat.or_zero]

section

variable {v : Volume} {f : LinkFs} {euid egid : Nat} {target : List UInt8}

private theorem linkInode_header (hlen : target.length < 2 ^ 32) {fast : Bool}
    (hfast : fast = true → target.length < 60) (t : Nat) :
    LinkHeader (stampInode t (linkInode v f euid egid fast target)) target.length (!fast && f.extents) := by
  have hhigh : target.length >>> 32 = 0 := by
    rw [Nat.shiftRight_eq_div_pow]
    omega
  unfold linkInode
  dsimp only
  generalize hbase :
    writeLE (writeLE (writeLE (writeLE (writeLE (writeLE (fun _ => 0) 0 2 symlinkMode) 2 2 euid) 24 2 egid)
    26 2 1) 4 4 target.length) 108 4 (target.length >>> 32) = base
  have hlow : readLE base 4 4 = target.length := by
    rw [← hbase, readLE_writeLE_disjoint (by decide), readLE_writeLE_self]
    exact Nat.mod_eq_of_lt hlen
  have hhi : readLE base 108 4 = 0 := by
    rw [← hbase, readLE_writeLE_self, hhigh]
    rfl
  have hflags : readLE base 32 4 = 0 := by
    rw [← hbase, readLE_writeLE_disjoint (by decide), readLE_writeLE_disjoint (by decide),
      readLE_writeLE_disjoint (by decide), readLE_writeLE_disjoint (by decide), readLE_writeLE_disjoint (by decide),
      readLE_writeLE_disjoint (by decide)]
    exact readLE_eq_zero.2 fun _ _ => rfl
  have hplain : LinkHeader base target.length false := by
    refine ⟨hlow, hhi, ?_, ?_⟩
    · rw [flagExtents, hflags]
      decide
    · rw [flagInline, hflags]
      decide
  cases fast with
  | true =>
    have hshort := hfast rfl
    refine hplain.congr fun x hx => ?_
    rw [stampInode_outside (by omega), if_pos rfl, copyIn, if_neg (by omega)]
  | false =>
    rw [if_neg (by decide)]
    generalize hmid : iblkSet v f.view.hugeFile base 1 = mid
    have hmid' : LinkHeader mid target.length false := by
      refine hplain.congr fun x hx => ?_
      rw [← hmid, iblkSet_outside (by omega) (by omega)]
    have hflags' : readLE mid 32 4 = 0 := by
      rw [← hflags]
      refine readLE_congr fun x _ hx => ?_
      rw [← hmid, iblkSet_outside (by omega) (by omega)]
    rw [Bool.not_false, Bool.true_and]
    split
    · rename_i hext
      have hset : LinkHeader (writeLE mid 32 4 (readLE mid 32 4 ||| 1 <<< 19)) target.length true := by
        have hword : readLE (writeLE mid 32 4 (readLE mid 32 4 ||| 1 <<< 19)) 32 4 = 1 <<< 19 := by
          rw [readLE_writeLE_self, hflags']
          rfl
        refine ⟨(readLE_writeLE_disjoint (by decide)).trans hmid'.low,
          (readLE_writeLE_disjoint (by decide)).trans hmid'.high, ?_, ?_⟩
        · rw [flagExtents, hword]
          decide
        · rw [flagInline, hword]
          decide
      rw [hext]
      exact hset.congr fun x hx => stampInode_outside (by omega)
    · rename_i hext
      rw [Bool.not_eq_true] at hext
      rw [hext]
      exact hmid'.congr fun x hx => stampInode_outside (by omega)

private theorem linkInode_zero {x : Nat} (h1 : 40 ≤ x) (h2 : x < 100) (t : Nat) :
    stampInode t (linkInode v f euid egid false target) x = 0 := by
  rw [stampInode_outside (by omega)]
  unfold linkInode
  dsimp only
  rw [if_neg (by decide)]
  have hblocks : ∀ m : Mem, m x = 0 → (if f.extents = true then writeLE (iblkSet v f.view.hugeFile m 1) 32 4
      (readLE (iblkSet v f.view.hugeFile m 1) 32 4 ||| 1 <<< 19) else iblkSet v f.view.hugeFile m 1) x = 0 := by
    intro m hm
    split
    · rw [writeLE_outside (by omega), iblkSet_outside (by omega) (by omega), hm]
    · rw [iblkSet_outside (by omega) (by omega), hm]
  refine hblocks _ ?_
  rw [writeLE_outside (by omega), writeLE_outside (by omega), writeLE_outside (by omega), writeLE_outside (by omega),
    writeLE_outside (by omega), writeLE_outside (by omega)]

private theorem linkInode_target {i : Nat} (hi : i < target.length) (t : Nat) :
    stampInode t (linkInode v f euid egid true target) (40 + i) = target.getD i 0 := by
  rw [stampInode_outside (by omega)]
  unfold linkInode
  dsimp only
  rw [if_pos rfl, copyIn, if_pos (by omega), Nat.add_sub_cancel_left, stringBytes]

end

/-! ### What `ext2_symlink` leaves -/

/-- The inode `ino` is a link to `target`, which is in `i_block` if it is short, and in the block `block`
otherwise. -/
structure Linked (crc : Crc) (v : Volume) (extents : Bool) (s : InodeStore) (ino : Nat) (target : List UInt8)
    (block : Nat) (m : Mem) : Prop where
  reads : v.ReadsAs crc s ino m
  header : LinkHeader m target.length (!decide (target.length < 60) && extents)
  short : target.length < 60 → ∀ i < target.length, m (40 + i) = target.getD i 0
  zero : 60 ≤ target.length → m 46 = 0
  data : 60 ≤ target.length → s.disk block = stringBytes target
  leaf : 60 ≤ target.length → extents = true → LeafRoot (rootOf m) block
  pointer : 60 ≤ target.length → extents = false → readLE m 40 4 = block % 2 ^ 32

section

variable {crc : Crc} {d : Dir} {v : Volume} {f : LinkFs} {env : LinkEnv} {s s' : InodeStore} {ino block : Nat}
    {m : Mem}
  {target : List UInt8}

private theorem writeNewInode_readsAs (hopen : openfs v.super = some (.ok v.groupDescCount))
    (hwf : v.super.inodesCount < 2 ^ 32) (hino : v.HasInode ino) {ce : CallEnv} {large : Option Mem} {t : Nat}
    (h : writeNewInode crc v ce large t s ino m = some (s', .ok ())) : v.ReadsAs crc s' ino m := by
  have hsize := (openfs_inodesFit hopen).size
  unfold writeNewInode at h
  dsimp only at h
  split at h
  · exact Volume.updateInode_readsAs hopen hwf hino (Nat.le_refl 128) h
  · split at h
    · cases h
    · rename_i garbage
      intro read mem s'' m' hread x hx hp
      rw [Volume.updateInode_readsAs hopen hwf hino hsize h read mem s'' m' hread x hx hp]
      split
      · rw [writeLE_outside (by omega), writeLE_outside (by omega), paste_inside (Nat.zero_le x) (by omega),
          Nat.zero_add, Nat.sub_zero]
      · rw [writeLE_outside (by omega), paste_inside (Nat.zero_le x) (by omega), Nat.zero_add, Nat.sub_zero]

private theorem writeTarget_linked (hopen : openfs v.super = some (.ok v.groupDescCount))
    (hwf : v.super.inodesCount < 2 ^ 32)
    (hino : v.HasInode ino) (hblock : block ≠ 0) (hplace : block ≠ (v.inodePlace ino).1) (hlong : ¬target.length < 60)
    (hheader : LinkHeader m target.length f.extents) (hzero : ∀ x, 40 ≤ x → x < 100 → m x = 0)
    (h : writeTarget crc v f env s ino m block target = some (s', .ok ())) :
    ∃ m', Linked crc v f.extents s' ino target block m' := by
  unfold writeTarget at h
  split at h
  · cases h
  · cases h
  · rename_i s₁ m' hset
    split at h
    · cases h
    · cases h
      obtain ⟨hfirst, ce, s₂, hupd⟩ := bmapSet_ok hzero hblock hset
      have hread := Volume.updateInode_readsAs hopen hwf hino (Nat.le_refl 128) hupd
      have hlong' : (!decide (target.length < 60)) = true := by rw [decide_eq_false hlong]; rfl
      refine ⟨m', hread.store hopen hplace _, ?_, fun hs => absurd hs hlong, fun _ => hfirst.zero,
        fun _ => Function.update_self _ _ _, fun _ he => hfirst.leaf (hheader.extents.trans he),
        fun _ he => hfirst.pointer (hheader.extents.trans he)⟩
      rw [hlong', Bool.true_and]
      exact hheader.congr fun x hx => hfirst.same x (by omega)

private theorem symlink_ok {slots slots' : List (Option Mem)} {name : List UInt8}
    (hopen : openfs d.vol.super = some (.ok d.vol.groupDescCount)) (hwf : d.vol.super.inodesCount < 2 ^ 32)
    (hsize : d.vol.super.blksize ≤ 2 ^ 32) (hfresh : env.Fresh d.vol f.extents)
    (h : symlink crc d f env s slots name target = some ((s', slots'), .ok ())) :
    target.length < d.vol.super.blksize ∧ ∃ ino block m, env.newInode = .ok ino ∧
      Dir.addLink crc d env.alloc ⟨name, ino, 7⟩ slots = some (slots', none) ∧
      Linked crc d.vol f.extents s' ino target block m ∧ (60 ≤ target.length → env.newBlock = .ok block) := by
  unfold symlink at h
  split at h
  · cases h
  · cases h
  rename_i s₁ e₁ hlookup
  dsimp only at h
  split at h
  · cases h
  rename_i hlen
  split at h
  · cases h
  split at h
  · cases h
  rename_i block hnew
  split at h
  · cases h
  rename_i ino hino
  split at h
  · cases h
  split at h
  · cases h
  · cases h
  rename_i s₂ hwrite
  split at h
  · cases h
  · cases h
  rename_i s₃ htarget
  split at h
  · cases h
  · cases h
  rename_i slots₁ hadd
  cases h
  have hhas := hfresh.inode ino hino
  have hlt : target.length < 2 ^ 32 := by omega
  have hread := writeNewInode_readsAs hopen hwf hhas hwrite
  by_cases hshort : target.length < 60
  · have hfast : decide (target.length < 60) = true := decide_eq_true hshort
    rw [hfast] at hread htarget
    cases htarget
    refine ⟨Nat.lt_of_not_le hlen, ino, block, _, hino, hadd,
      ⟨hread, ?_, fun _ i hi => linkInode_target hi _, ?_, ?_, ?_, ?_⟩, fun hl => by omega⟩
    · rw [hfast]
      exact linkInode_header hlt (fun _ => hshort) _
    · exact fun hl => by omega
    · exact fun hl => by omega
    · exact fun hl => by omega
    · exact fun hl => by omega
  · have hslow : decide (target.length < 60) = false := decide_eq_false hshort
    rw [hslow] at htarget hnew
    have hheader := @linkInode_header d.vol f env.euid env.egid target hlt false (fun hc => by cases hc) env.time
    rw [Bool.not_false, Bool.true_and] at hheader
    obtain ⟨m', hlinked⟩ := writeTarget_linked hopen hwf hhas (hfresh.block block hnew).1
      (hfresh.place block ino hnew hino) hshort hheader
      (fun x h1 h2 => linkInode_zero h1 h2 env.time) htarget
    exact ⟨Nat.lt_of_not_le hlen, ino, block, m', hino, hadd, hlinked, fun _ => hnew⟩

end

/-! ### Reading it back -/

private theorem copyOut_string {m : Mem} {a : Nat} {target : List UInt8}
    (h : ∀ i < target.length, m (a + i) = target.getD i 0) :
    copyOut m a target.length = target := by
  refine List.ext_getElem (length_copyOut m a _) fun i h1 h2 => ?_
  simp only [copyOut, List.getElem_map, List.getElem_range]
  rw [h i h2, List.getD_eq_getElem?_getD, List.getElem?_eq_getElem h2, Option.getD_some]

section

variable {crc : Crc} {v : Volume} {fs : ExtFs} {g : Garbage} {s : InodeStore} {ino block len : Nat} {m : Mem}
  {extents : Bool} {target : List UInt8} {vp : FileVnode} {read : Nat → Option Mem}

private theorem readLoop_block {disk : Disk} {data : Mem} {size : Nat} (hsize : iSize vp.inode = size)
    (hpos : 0 < size) (hfit : size < fs.blksize) (hload : loadFileBuffer fs g read disk vp 0 = some (.ok data)) :
    readLoop fs g read disk vp (size + 1) 0 size none = some (.ok (copyOut data 0 size)) := by
  have hend : ∀ b, readLoop fs g read disk vp size size 0 b = some (.ok []) := by
    intro b
    obtain ⟨n, rfl⟩ : ∃ n, size = n + 1 := ⟨size - 1, by omega⟩
    unfold readLoop
    rw [if_pos (Or.inr rfl)]
  unfold readLoop
  rw [if_neg (by omega), if_neg (by omega), Nat.zero_div]
  dsimp only
  rw [hload]
  dsimp only
  have hc : min (min (fs.blksize - 0 % fs.blksize) size) (iSize vp.inode - 0) = size := by
    rw [hsize, Nat.zero_mod]
    omega
  rw [hc, Nat.zero_add, Nat.sub_self, hend, Nat.zero_mod]
  simp [Except.map]

/-- The target of a link is read back if and only if it has not 60 bytes. -/
private theorem readlink_linked_iff (hl : Linked crc v extents s ino target block m) (hsmall : target.length < 2 ^ 32)
    (hfit : target.length < fs.blksize) (hchars : 0 ∉ target)
    (hblock : 60 ≤ target.length → block ≠ 0 ∧ block < 2 ^ 48 ∧ (extents = false → block < 2 ^ 32))
    (hmem : ∀ x < 124, vp.inode x = m x) (hsize : vp.size = target.length) (hread : ∀ b, read b = none)
    (hlen : target.length ≤ len) :
    readlink fs g read s.disk vp len = some (.ok target) ↔ target.length ≠ 60 := by
  have hheader : LinkHeader vp.inode target.length (!decide (target.length < 60) && extents) :=
    hl.header.congr fun x hx => hmem x (by omega)
  unfold readlink
  rw [hsize]
  by_cases hle : target.length ≤ 60
  · rw [if_pos hle, Nat.min_eq_right hlen]
    by_cases hshort : target.length < 60
    · refine iff_of_true ?_ (by omega)
      rw [copyOut_string fun i hi => (hmem _ (by omega)).trans (hl.short hshort i hi)]
    · -- the bytes of `i_block` are not those of a string
      refine iff_of_false (fun h => ?_) (by omega)
      have h60 : target.length = 60 := by omega
      have heq : copyOut vp.inode 40 target.length = target := Except.ok.inj (Option.some.inj h)
      refine hchars ?_
      rw [← heq, copyOut, List.mem_map]
      refine ⟨6, List.mem_range.2 (by omega), ?_⟩
      rw [hmem _ (by decide)]
      exact hl.zero (by omega)
  · refine iff_of_true ?_ (by omega)
    have hlong : 60 ≤ target.length := by omega
    obtain ⟨hb0, hb48, hb32⟩ := hblock hlong
    have hext : flagExtents vp.inode = extents := by
      rw [hheader.extents, decide_eq_false (by omega)]
      rfl
    have hget : bmapGet fs g vp.ino vp.inode 0 = some (.ok (block, false)) := by
      cases extents with
      | true =>
        have hroot := (hl.leaf hlong rfl).congr fun x _ hx => (hmem x (by omega)).symm
        rw [bmapGet_leaf hext hheader.inline hroot, Nat.mod_eq_of_lt hb48]
      | false =>
        have hptr : readLE vp.inode 40 4 = block := by
          rw [readLE_congr fun x _ hx => hmem x (by omega), hl.pointer hlong rfl, Nat.mod_eq_of_lt (hb32 rfl)]
        rw [bmapGet_pointer hext hheader.inline, hptr]
    have hload : loadFileBuffer fs g read s.disk vp 0 = some (.ok (stringBytes target)) := by
      unfold loadFileBuffer
      rw [hget]
      dsimp only
      rw [if_pos ⟨hb0, rfl⟩, hread block, hl.data hlong]
    rw [if_neg hle, if_neg (by rw [hheader.inline]; decide), Nat.min_eq_right hlen,
      readLoop_block hheader.iSize (by omega) hfit hload,
      copyOut_string fun i _ => by rw [Nat.zero_add, stringBytes]]

end

/-- After `ext2_symlink` with a new name has succeeded in a well-formed directory, with a block and an inode of the
file system: the link that is found under the name is read back exactly if and only if its target has not 60 bytes. -/
theorem symlink_roundtrip_iff (crc : Crc) {d : Dir} (hopen : openfs d.vol.super = some (.ok d.vol.groupDescCount))
    (hwf : d.vol.super.inodesCount < 2 ^ 32) {f : LinkFs} {env : LinkEnv} (hfresh : env.Fresh d.vol f.extents)
    {s s' : InodeStore} {slots slots' : List (Option Mem)} {es : List (List UInt8 × Nat)}
    (hdir : Dir.HoldsAll crc d slots es) {name target : List UInt8} (hname : 1 ≤ name.length ∧ name.length ≤ 255)
    (habsent : Dir.lookupInode crc d slots name = some (.error .ENOENT)) (hchars : 0 ∉ target)
    (hsym : symlink crc d f env s slots name target = some ((s', slots'), .ok ())) {largeFile buffer : Bool}
    {lookupEnv : CallEnv} {s'' : InodeStore} {vp : FileVnode}
    (hlook : lookupVnode crc d largeFile buffer lookupEnv s' slots' name = some (s'', .ok vp)) {fs : ExtFs}
    (g : Garbage)
    {read : Nat → Option Mem} {len : Nat} (hblk : fs.blksize = d.vol.super.blksize) (hread : ∀ b, read b = none)
    (hlen : target.length ≤ len) :
    readlink fs g read s''.disk vp len = some (.ok target) ↔ target.length ≠ 60 := by
  have hs := sized_of_openfs hopen
  have hblksize : d.vol.super.blksize ≤ 65536 := hs.le
  have hne : name ≠ [] := fun he => by
    rw [he] at hname
    exact absurd hname.1 (by decide)
  obtain ⟨hfit, ino, block, m, hino, hadd, hlinked, hnew⟩ := symlink_ok hopen hwf (by omega) hfresh hsym
  have hhas := hfresh.inode ino hino
  -- the name is found
  obtain ⟨l1, l2, rfl, hall, hgone⟩ := addLink_absent hs hname hne hdir (Nat.pos_of_ne_zero hhas.1)
    (Nat.lt_of_le_of_lt hhas.2 hwf) habsent hadd
  have hfound : Dir.lookupInode crc d slots' name = some (.ok ino) := by
    rw [lookupInode_eq hs hne hall, lookup_insert_self]
    rw [List.map_append, List.mem_append, not_or] at hgone
    exact hgone.1
  unfold lookupVnode at hlook
  rw [hfound] at hlook
  -- and its inode is the one that has been stored
  obtain ⟨inode, hinode, hvp⟩ := fill_spec hlook
  obtain ⟨-, c', -, rfl, -⟩ := Volume.readInode_ok hopen hwf hhas hinode
  have hmem : ∀ x < 124, vp.inode x = m x := fun x hx => by
    rw [hvp]
    exact hlinked.reads _ _ _ _ hinode x (by omega) (Or.inl hx)
  have hheader := hlinked.header.congr fun x hx => hmem x (by omega)
  have hsize : vp.size = target.length := by
    have hinode' : vp.inode = inode := by rw [hvp]; rfl
    rw [hinode'] at hheader
    rw [hvp, ← hheader.low]
    change (if largeFile then _ else _) = _
    rw [hheader.high, Nat.zero_shiftLeft, Nat.or_zero, ite_self]
  change readlink fs g read s'.disk vp len = some (.ok target) ↔ _
  exact readlink_linked_iff hlinked (by omega) (by omega) hchars (fun hl => hfresh.block block (hnew hl)) hmem
    hsize hread hlen

def linkDir : Dir := { smallDir with vol := tableVolume }

private theorem linkDir_holds : Dir.HoldsAll zeroCrc linkDir [some twiceBlock] [([97], 11), ([97], 1)] := by
  have hrec1 : linkDir.HasRec twiceBlock 0 ⟨11, 512, 1, [97]⟩ := ⟨rfl, by decide, by decide⟩
  have hrec2 : linkDir.HasRec twiceBlock 512 ⟨1, 512, 1, [97]⟩ := ⟨rfl, by decide, by decide⟩
  have htail : linkDir.HasTail twiceBlock := fun hcsum => by cases hcsum
  exact ⟨_, [], (List.append_nil _).symm, ⟨[⟨11, 512, 1, [97]⟩, ⟨1, 512, 1, [97]⟩], ⟨hrec1, hrec2, rfl⟩, htail, rfl⟩,
    rfl, rfl⟩

def smallLinkFs (extents : Bool) : LinkFs := ⟨extents, false, false, smallExtFs⟩

def goodLinkEnv : LinkEnv where
  lookup := goodEnv
  fileBuffer := true
  blockbuf := true
  newBlock := .ok 50
  newInode := .ok 1
  euid := 0
  egid := 0
  time := 1000
  create := goodEnv
  large := none
  garbage := ⟨fun _ => false, fun _ => 0, ⟨0, 0, 0, false, false, false⟩⟩
  bmapBuffer := true
  map := (goodEnv, goodEnv)
  write := none
  alloc := fun _ => true

private theorem goodLinkEnv_fresh (extents : Bool) : goodLinkEnv.Fresh tableVolume extents where
  inode ino h := by
    cases h
    exact ⟨by decide, by decide⟩
  block block h := by
    cases h
    exact ⟨by decide, by decide, fun _ => by decide⟩
  place block ino h h' := by
    cases h
    cases h'
    decide

/-- A link with the name `b` is made and looked up. -/
def linkAndLookup (extents : Bool) (target : List UInt8) :
    Option ((InodeStore × List (Option Mem)) × InodeStore × FileVnode) :=
  match symlink zeroCrc linkDir (smallLinkFs extents) goodLinkEnv ⟨fun _ _ => 0, none⟩ [some twiceBlock]
    [98] target with
  | some ((s, slots), .ok ()) =>
    match lookupVnode zeroCrc linkDir false true goodEnv s slots [98] with
    | some (s', .ok vp) => some ((s, slots), s', vp)
    | _ => none
  | _ => none

private theorem linkAndLookup_spec {extents : Bool} {target : List UInt8} {s s' : InodeStore}
    {slots : List (Option Mem)} {vp : FileVnode} (h : linkAndLookup extents target = some ((s, slots), s', vp)) :
    symlink zeroCrc linkDir (smallLinkFs extents) goodLinkEnv ⟨fun _ _ => 0, none⟩ [some twiceBlock] [98] target =
        some ((s, slots), .ok ()) ∧
      lookupVnode zeroCrc linkDir false true goodEnv s slots [98] = some (s', .ok vp) := by
  unfold linkAndLookup at h
  split at h
  · rename_i hsym
    split at h
    · rename_i hlook
      cases h
      exact ⟨hsym, hlook⟩
    · cases h
  · cases h

/-- A target of 61 bytes is in a block with an extent. -/
theorem symlink_roundtrip_extent : ∃ s slots s' vp,
    symlink zeroCrc linkDir (smallLinkFs true) goodLinkEnv ⟨fun _ _ => 0, none⟩ [some twiceBlock] [98]
        (List.replicate 61 97) = some ((s, slots), .ok ()) ∧
      lookupVnode zeroCrc linkDir false true goodEnv s slots [98] = some (s', .ok vp) ∧
      readlink smallExtFs goodLinkEnv.garbage (fun _ => none) s'.disk vp 100 = some (.ok (List.replicate 61 97)) := by
  have hsome : (linkAndLookup true (List.replicate 61 97)).isSome = true := by decide
  obtain ⟨⟨⟨s, slots⟩, s', vp⟩, hrun⟩ := Option.isSome_iff_exists.1 hsome
  obtain ⟨hsym, hlook⟩ := linkAndLookup_spec hrun
  exact ⟨s, slots, s', vp, hsym, hlook,
    (symlink_roundtrip_iff zeroCrc (by decide) (by decide) (goodLinkEnv_fresh true)
    linkDir_holds (by decide) (by decide) (by decide) hsym hlook goodLinkEnv.garbage rfl (fun _ => rfl) (by decide)).2
    (by decide)⟩

/-- A target of 60 bytes is in a block, and the pointer to that block is read. -/
theorem not_symlink_roundtrip : ∃ s slots s' vp bytes,
    symlink zeroCrc linkDir (smallLinkFs false) goodLinkEnv ⟨fun _ _ => 0, none⟩ [some twiceBlock] [98]
        (List.replicate 60 97) = some ((s, slots), .ok ()) ∧
      lookupVnode zeroCrc linkDir false true goodEnv s slots [98] = some (s', .ok vp) ∧
      readlink smallExtFs goodLinkEnv.garbage (fun _ => none) s'.disk vp 100 = some (.ok bytes) ∧
      bytes = 50 :: List.replicate 59 0 ∧ bytes ≠ List.replicate 60 97 := by
  have hread : ((linkAndLookup false (List.replicate 60 97)).map fun r => (decide (r.2.2.size ≤ 60),
      copyOut r.2.2.inode 40 (min 100 r.2.2.size))) = some (true, 50 :: List.replicate 59 0) := by decide +kernel
  obtain ⟨⟨⟨s, slots⟩, s', vp⟩, hrun, hbytes⟩ := Option.map_eq_some_iff.1 hread
  obtain ⟨hsym, hlook⟩ := linkAndLookup_spec hrun
  obtain ⟨hsize, hcopy⟩ := Prod.mk.inj hbytes
  refine ⟨s, slots, s', vp, _, hsym, hlook, ?_, rfl, by decide⟩
  unfold readlink
  rw [if_pos (of_decide_eq_true hsize), hcopy]

end Pml.Ext2
