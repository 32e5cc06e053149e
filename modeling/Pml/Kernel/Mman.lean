import Pml.Arch.Mapping
import Pml.Kernel.FileTable

/-!
# Memory mappings (`kernel/mman.c`)

The table of a process lists its mapped regions by base address.  `sys_mmap` chooses an address, maps new pages and
inserts a region; `clear_mappings` truncates or removes the regions of a range and unmaps their pages; `expand_mmap`
lengthens a region.  Sizes and addresses wrap at `2 ^ 64`.  Calls into other parts of the kernel are inputs
(`MmapEnv`): what is known about a vnode, the outcome of `vfs_read` and `vfs_write` and of `realloc`.

A function is undefined (`none`) where the code reads outside of a table or follows a null vnode.  The loops over
pages run over page-aligned bounds.  The current thread's translation cache, which the code clears, is left out.
-/

namespace Pml.Kernel

open Arch ByteMemory

abbrev userMmapBaseVma : Nat := 0x400000000000

abbrev userMemTopVma : Nat := 0x800000000000

def protRead : Nat := 1 <<< 0
def protWrite : Nat := 1 <<< 1

def mapShared : Nat := 1 <<< 0
def mapPrivate : Nat := 1 <<< 1
def mapAnonymous : Nat := 1 <<< 2
def mapFixed : Nat := 1 <<< 6

def oRdonly : Nat := 0
def oWronly : Nat := 1

/-- `struct mmap`.  The file is an index in `system_fd_table`, and the offset is the word of an `off_t`. -/
structure Region where
  base : Nat
  len : Nat
  prot : Nat
  file : Option Nat
  fd : Int
  offset : Nat
  flags : Nat
  deriving DecidableEq, Repr

/-- `region->base + region->len` -/
def Region.stop (r : Region) : Nat := add64 r.base r.len

/-- The current process, with the memory and the open files of the system. -/
structure MmState where
  vm : Vm
  files : Files
  fds : FdTable
  mmaps : List Region
  pml4t : Nat

/-- What the code finds outside of this file. -/
structure MmapEnv where
  /-- `S_ISREG (vp->mode)` -/
  isReg : Nat → Bool
  /-- `vp->size` -/
  size : Nat → Nat
  /-- The error of `vfs_write (vp, buffer, len, offset)`. -/
  vfsWrite : Option Nat → Nat → Nat → Nat → Option Errno
  /-- The bytes that `vfs_read` stores. -/
  vfsRead : Except Errno (List UInt8)
  /-- `realloc` succeeds. -/
  mem : Bool

/-! ### Searching the table -/

def findRegionBefore (mmaps : List Region) (base : Nat) : Int := (mmaps.findIdx fun r => base ≤ r.base) - 1

def findRegionBeforeEqual (mmaps : List Region) (base : Nat) : Int := (mmaps.findIdx fun r => base < r.base) - 1

/-- `mmaps->table + ri`, if `ri` is not negative. -/
def regionAt (mmaps : List Region) (ri : Int) : Option Region := if ri < 0 then none else mmaps[ri.toNat]?

/-! ### Writing back -/

def syncRegion (env : MmapEnv) (files : Files) (r : Region) (ptr len offset : Nat) : Option Errno :=
  r.file.bind fun i => env.vfsWrite (files.entry i).vnode ptr len offset

/-- The loop of `sync_mappings` over the regions that remain, for the end `e` of the area. -/
def syncRest (env : MmapEnv) (files : Files) (e : Nat) : List Region → Option Errno
  | [] => none
  | r :: rs =>
    if r.stop ≤ e then (syncRegion env files r r.base r.len r.offset).or (syncRest env files e rs)
    else if r.base < e then (syncRegion env files r r.base (sub64 e r.base) r.offset).or (syncRest env files e rs)
    else none

def syncMappings (env : MmapEnv) (s : MmState) (ptr len : Nat) : Option Errno :=
  let ri := findRegionBefore s.mmaps ptr
  let first := (regionAt s.mmaps ri).bind fun r =>
    if ptr < r.stop then syncRegion env s.files r ptr (sub64 r.stop ptr) (sub64 (add64 r.offset ptr) r.base) else none
  first.or (syncRest env s.files (add64 ptr len) (s.mmaps.drop (ri + 1).toNat))

/-! ### Unmapping -/

/-- The values of `p` in `for (p = lo; p < hi; p += PAGE_SIZE)`. -/
def pages (lo hi : Nat) : List Nat := List.range' lo (if lo < hi then (hi - lo - 1) / pageSize + 1 else 0) pageSize

/-- The loops of `clear_mappings` over pages: each page is unmapped, and the frame that it leads to then is freed. -/
def unmapPages (pml4t : Nat) : Vm → List Nat → Vm × Option Errno
  | vm, [] => (vm, none)
  | vm, v :: vs =>
    let u := vmUnmapPage vm.mem pml4t v
    if u.2 = false then ({ vm with mem := u.1 }, some .EFAULT)
    else unmapPages pml4t ⟨u.1, freePage vm.frames (vmPhysAddr u.1 pml4t v)⟩ vs

def freeProcfd (files : Files) (fds : FdTable) (fd : Int) : Option (Files × FdTable) :=
  if fd < 0 then none else freeAltprocfd files fds fd.toNat

/-- The first part of `clear_mappings`: the region before the area is truncated if it reaches into it. -/
def truncateBefore (s : MmState) (ptr : Nat) : MmState × Option Errno :=
  let ri := findRegionBefore s.mmaps ptr
  match regionAt s.mmaps ri with
  | none => (s, none)
  | some r =>
    if ptr < r.stop then
      let r' := { r with len := sub64 ptr r.base }
      let u := unmapPages s.pml4t s.vm (pages r'.stop ptr)
      ({ s with vm := u.1, mmaps := s.mmaps.set ri.toNat r' }, u.2)
    else (s, none)

/-- The region without the part before `e`. -/
def Region.from (r : Region) (e : Nat) : Region :=
  let diff := sub64 e r.base
  { r with base := e, len := sub64 r.len diff, offset := add64 r.offset diff }

/-- What the second loop of `clear_mappings` leaves. -/
structure Cleared where
  vm : Vm
  files : Files
  fds : FdTable
  rest : List Region
  err : Option Errno

/-- The loop of `clear_mappings` over the regions that remain, for the end `e` of the area. -/
def clearRest (pml4t e : Nat) : Vm → Files → FdTable → List Region → Option Cleared
  | vm, files, fds, [] => some ⟨vm, files, fds, [], none⟩
  | vm, files, fds, r :: rs =>
    if r.stop ≤ e then
      match unmapPages pml4t vm (pages r.base r.stop) with
      | (vm, some err) => some ⟨vm, files, fds, r :: rs, some err⟩
      | (vm, none) =>
        match r.file with
        | none => clearRest pml4t e vm files fds rs
        | some _ =>
          match freeProcfd files fds r.fd with
          | none => none
          | some (files, fds) => clearRest pml4t e vm files fds rs
    else if r.base < e then
      match unmapPages pml4t vm (pages r.base e) with
      | (vm, some err) => some ⟨vm, files, fds, r :: rs, some err⟩
      | (vm, none) => (clearRest pml4t e vm files fds rs).map fun c => { c with rest := r.from e :: c.rest }
    else some ⟨vm, files, fds, r :: rs, none⟩

def clearMappings (env : MmapEnv) (s : MmState) (ptr len : Nat) (sync : Bool) : Option (MmState × Option Errno) :=
  match if sync then syncMappings env s ptr len else none with
  | some err => some (s, some err)
  | none =>
    let n := (findRegionBefore s.mmaps ptr + 1).toNat
    match truncateBefore s ptr with
    | (s, some err) => some (s, some err)
    | (s, none) =>
      (clearRest s.pml4t (add64 ptr len) s.vm s.files s.fds (s.mmaps.drop n)).map fun c =>
        ({ s with vm := c.vm, files := c.files, fds := c.fds, mmaps := s.mmaps.take n ++ c.rest }, c.err)

def sysMunmap (env : MmapEnv) (s : MmState) (addr len : Nat) : Option (MmState × Option Errno) :=
  if addr &&& (pageSize - 1) ≠ 0 ∨ len &&& (pageSize - 1) ≠ 0 then some (s, some .EINVAL)
  else clearMappings env s addr len false

/-! ### Mapping -/

/-- The loops that map new pages; the second component is the page where there is no memory.  `zero` tells whether the
pages are cleared. -/
def mapPages (pml4t flags : Nat) (zero : Bool) : Vm → List Nat → Vm × Option Nat
  | vm, [] => (vm, none)
  | vm, v :: vs =>
    let a := allocPage vm.frames
    if a.2 = 0 then ({ vm with frames := a.1 }, some v)
    else
      let m := if zero then fill vm.mem a.2 pageSize 0 else vm.mem
      let r := vmMapPage ⟨m, a.1⟩ pml4t a.2 v flags
      if r.2 = false then ({ r.1 with frames := freePage r.1.frames a.2 }, some v)
      else mapPages pml4t flags zero r.1 vs

def releasePages (pml4t : Nat) (vm : Vm) (vs : List Nat) : Vm :=
  vs.foldl (fun vm v => ⟨(vmUnmapPage vm.mem pml4t v).1, freePage vm.frames (vmPhysAddr vm.mem pml4t v)⟩) vm

def remapPages (pml4t pflags : Nat) : Vm → List Nat → Vm × Bool
  | vm, [] => (vm, true)
  | vm, v :: vs =>
    let r := vmMapPage vm pml4t (vmPhysAddr vm.mem pml4t v) v pflags
    if r.2 = false then r else remapPages pml4t pflags r.1 vs

def storeData (pml4t base : Nat) (m : Mem) (data : List UInt8) : Mem :=
  data.zipIdx.foldl (fun m x => setByte m (vmPhysAddr m pml4t (base + x.2)) x.1) m

/-- The part of `expand_mmap` after the region `r` has been found at the index `ri`, with the length in pages. -/
def expandRegion (s : MmState) (pml4t ri : Nat) (r : Region) (len : Nat) : MmState × Option Errno :=
  match mapPages pml4t (pageFlagUser ||| pageFlagRw) false s.vm (pages r.stop (add64 r.base len)) with
  | (vm, some ptr) => ({ s with vm := releasePages s.pml4t vm (pages r.base ptr) }, some .ENOMEM)
  | (vm, none) => ({ s with vm := vm, mmaps := s.mmaps.set ri { r with len := len } }, none)

def expandMmap (s : MmState) (pml4t addr len : Nat) : MmState × Option Errno :=
  let ri := findRegionBeforeEqual s.mmaps addr
  match regionAt s.mmaps ri with
  | none => (s, some .ENOMEM)
  | some r => expandRegion s pml4t ri.toNat r (alignUp len pageSize)

/-- The checks of `sys_mmap` on its arguments; the result is the file. -/
def checkMmap (env : MmapEnv) (s : MmState) (len prot flags : Nat) (fd : Int) (offset : Nat) :
    Option (Except Errno (Option Nat)) :=
  let kind : Except Errno (Option Nat) :=
    if len = 0 then .error .EINVAL
    else if (flags &&& mapShared != 0) = (flags &&& mapPrivate != 0) then .error .EINVAL
    else .ok none
  if flags &&& mapAnonymous ≠ 0 then some kind
  else
    match fileFd s.fds fd with
    | none => some (.error .EBADF)
    | some file =>
      match (s.files.entry file).vnode with
      | none => none
      | some vp =>
        if env.isReg vp = false then some (.error .EACCES)
        else if 2 ^ 63 ≤ offset ∨ env.size vp < offset ∨ offset &&& (pageSize - 1) ≠ 0 then some (.error .EINVAL)
        else if len = 0 then some (.error .EINVAL)
        else if prot &&& protWrite = 0 ∧ (s.files.entry file).flags &&& oAccmode = oWronly then some (.error .EACCES)
        else if prot &&& protRead = 0 ∧ (s.files.entry file).flags &&& oAccmode = oRdonly then some (.error .EACCES)
        else some (kind.map fun _ => some file)

/-- The loop that looks for a gap behind the regions from index `ri` on. -/
def findGap (len : Nat) : List Region → Nat → Nat × Nat
  | [], ri => (0, ri)
  | [r], ri => (r.stop, ri)
  | r :: next :: rs, ri => if len ≤ sub64 next.base r.stop then (r.stop, ri) else findGap len (next :: rs) (ri + 1)

/-- The base and the index of a region that is not at a fixed address. -/
def placeRegion (mmaps : List Region) (base len : Nat) : Nat × Nat :=
  let ri := findRegionBeforeEqual mmaps base
  if ri < 0 then (base, 0)
  else
    let g := findGap len (mmaps.drop ri.toNat) ri.toNat
    (g.1, g.2 + 1)

/-- The part of `sys_mmap` after the address has been chosen. -/
def mapRegion (env : MmapEnv) (s : MmState) (base ri len prot : Nat) (file : Option Nat) (fd : Int)
    (offset flags : Nat) : MmState × Except Errno Nat :=
  let stop := add64 base len
  if userMemTopVma ≤ stop then (s, .error .EINVAL)
  else
    let pflags := (if prot ≠ 0 then pageFlagUser else 0) ||| (if prot &&& protWrite ≠ 0 then pageFlagRw else 0)
    match mapPages s.pml4t pageFlagRw true s.vm (pages base stop) with
    | (vm, some ptr) =>
        ({ s with vm := releasePages s.pml4t vm (pages (alignDown base pageSize) ptr) }, .error .ENOMEM)
    | (vm, none) =>
      match if file.isSome then env.vfsRead else .ok [] with
      | .error e => ({ s with vm := vm }, .error e)
      | .ok data =>
        let r := remapPages s.pml4t pflags { vm with mem := storeData s.pml4t base vm.mem data } (pages base stop)
        if r.2 = false ∨ env.mem = false then
          ({ s with vm := releasePages s.pml4t r.1 (pages (alignDown base pageSize) stop) }, .error .ENOMEM)
        else
          ({ s with
              vm := r.1
              files := match file with
                | some i => s.files.ref i
                | none => s.files
              mmaps := s.mmaps.insertIdx ri ⟨base, len, prot, file, fd, offset, flags⟩ }, .ok base)

def sysMmap (env : MmapEnv) (s : MmState) (addr len prot flags : Nat) (fd : Int) (offset : Nat) :
    Option (MmState × Except Errno Nat) :=
  match checkMmap env s len prot flags fd offset with
  | none => none
  | some (.error e) => some (s, .error e)
  | some (.ok file) =>
    let len := alignUp len pageSize
    if addr &&& (pageSize - 1) ≠ 0 then some (s, .error .EINVAL)
    else
      let base := if addr ≠ 0 then addr else userMmapBaseVma
      if flags &&& mapFixed ≠ 0 then
        match clearMappings env s addr len true with
        | none => none
        | some (s, some err) => some (s, .error err)
        | some (s, none) =>
          some (mapRegion env s base (findRegionBefore s.mmaps base + 1).toNat len prot file fd offset flags)
      else
        let p := placeRegion s.mmaps base len
        some (mapRegion env s p.1 p.2 len prot file fd offset flags)

end Pml.Kernel
