import Pml.Arch.FrameRuns
import Pml.Kernel.MapLoops
import Pml.Lib.Words
import Pml.Vfs.Permissions

/-!
# Loading the segments of an ELF file (`kernel/exec.c`)

`elf_load_phdrs` reads the program headers one after the other.  For each loadable segment it maps new pages, reads
the part of the file through them, and maps the pages again with the protection of the segment.  The fields of a
header are numbers of 64 bits; their sums wrap.

The pages that are mapped for each segment and the addresses that bytes are stored to are recorded.  A store to an
address that is not mapped is a page fault of the kernel.
-/

namespace Pml.Kernel

open Arch ByteMemory Words

/-! ### The file -/

/-- The vnode of the executable and the process that reads it.  `ops->read` stores bytes of the file in the buffer and
fails, or returns how many. -/
structure ElfFile where
  cred : Credentials
  vnode : Vfs.Vnode
  read : Option (Nat → Nat → List UInt8 × Option Errno)
  read_le : ∀ f, read = some f → ∀ len offset, (f len offset).1.length ≤ len

def vfsRead (file : ElfFile) (len offset : Nat) : List UInt8 × Option Errno :=
  if Vfs.vfsCanRead file.cred file.vnode false = false then ([], some .EACCES)
  else if Vfs.sIsdir file.vnode.mode then ([], some .EISDIR)
  else if len = 0 then ([], none)
  else
    match file.read with
    | some f => f len offset
    | none => ([], some .ENOTSUP)

/-- The members of `Elf64_Ehdr` that the loader of the segments reads. -/
structure ElfEhdr where
  phoff : Nat
  phentsize : Nat
  phnum : Nat

/-- The members of `Elf64_Phdr` that are read. -/
structure ElfPhdr where
  type : Nat
  flags : Nat
  offset : Nat
  vaddr : Nat
  filesz : Nat
  memsz : Nat
  deriving DecidableEq

/-- `sizeof (Elf64_Phdr)` -/
def sizeofPhdr : Nat := 56

def ptLoad : Nat := 1

def pfX : Nat := 1
def pfW : Nat := 2
def pfR : Nat := 4

def protExec : Nat := 1 <<< 2

abbrev userMemoryLimit : Nat := 0x7fffffffffff

def phdrOf (bytes : List UInt8) : ElfPhdr :=
  let field k n := leNat ((bytes.drop k).take n)
  ⟨field 0 4, field 4 4, field 8 8, field 16 8, field 32 8, field 40 8⟩

def phdrAt (file : ElfFile) (ehdr : ElfEhdr) (i : Nat) : Option ElfPhdr :=
  let r := vfsRead file sizeofPhdr (add64 ehdr.phoff (i * ehdr.phentsize))
  if r.2.isSome ∨ r.1.length ≠ sizeofPhdr then none else some (phdrOf r.1)

/-- The `PROT` flags. -/
def ElfPhdr.prot (ph : ElfPhdr) : Nat :=
  (if ph.flags &&& pfR ≠ 0 then protRead else 0) ||| (if ph.flags &&& pfW ≠ 0 then protWrite else 0) |||
    if ph.flags &&& pfX ≠ 0 then protExec else 0

/-! ### The code -/

/-- How a part of the loader ends; a number is stored in `errno` only by some of the functions. -/
inductive ElfStatus
  | ok
  | error (e : Option Errno)
  | fault
  deriving DecidableEq

/-- Stores bytes at a virtual address: the memory, the addresses that are stored to, and whether all of them are
mapped. -/
def storeUser (pml4t : Nat) : Mem → Nat → List UInt8 → Mem × List Nat × Bool
  | m, _, [] => (m, [], true)
  | m, a, b :: bs =>
    if leaf m pml4t a = none then (m, [a], false)
    else
      let r := storeUser pml4t (setByte m (vmPhysAddr m pml4t a) b) (add64 a 1) bs
      (r.1, a :: r.2.1, r.2.2)

/-- The second loop of `elf_mmap`; the second component is the page where it fails. -/
def protectPages (pml4t flags : Nat) : Vm → List Nat → Vm × Option Nat
  | vm, [] => (vm, none)
  | vm, v :: vs =>
    let r := vmMapPage vm pml4t (vmPhysAddr vm.mem pml4t v) v flags
    if r.2 = false then (r.1, some v) else protectPages pml4t flags r.1 vs

def freePages (pml4t : Nat) (vm : Vm) (vs : List Nat) : Vm :=
  { vm with frames := vs.foldl (fun f v => freePage f (vmPhysAddr vm.mem pml4t v)) vm.frames }

/-- What `elf_mmap` leaves, with the pages it has mapped and the addresses it has stored to. -/
structure ElfMapped where
  vm : Vm
  pages : List Nat
  stores : List Nat
  status : ElfStatus

/-- The read of `elf_mmap`, which is not made if nothing is asked for. -/
def readSegment (file : ElfFile) (filesz offset : Nat) : List UInt8 × Option Errno :=
  if filesz = 0 then ([], none) else vfsRead file filesz offset

def readResult (data : List UInt8 × Option Errno) : Nat := if data.2.isSome then 2 ^ 64 - 1 else data.1.length

/-- The body of `elf_mmap`, for the pages `ps` from `lo` on. -/
def mmapPages (pml4t : Nat) (file : ElfFile) (vm : Vm) (lo : Nat) (ps : List Nat) (flags base filesz offset : Nat) :
    ElfMapped :=
  match mapPages pml4t pageFlagRw true vm ps with
  | (vm, some ptr) => ⟨freePages pml4t vm (pages lo ptr), pages lo ptr, [], .error none⟩
  | (vm, none) =>
    let data := readSegment file filesz offset
    let w := storeUser pml4t vm.mem base data.1
    let vm := { vm with mem := w.1 }
    if w.2.2 = false then ⟨vm, ps, w.2.1, .fault⟩
    else if readResult data ≠ filesz then ⟨freePages pml4t vm ps, ps, w.2.1, .error data.2⟩
    else
      match protectPages pml4t flags vm ps with
      | (vm, some ptr) => ⟨freePages pml4t vm (pages lo ptr), ps, w.2.1, .error none⟩
      | (vm, none) => ⟨vm, ps, w.2.1, .ok⟩

def elfMmap (pml4t : Nat) (file : ElfFile) (vm : Vm) (base len prot filesz offset : Nat) : ElfMapped :=
  let flags := pageFlagUser ||| if prot &&& protWrite ≠ 0 then pageFlagRw else 0
  let lo := alignDown base pageSize
  mmapPages pml4t file vm lo (pages lo (alignUp (add64 base len) pageSize)) flags base filesz offset

/-- What has been done for a segment. -/
structure ElfLoad where
  phdr : ElfPhdr
  pages : List Nat
  stores : List Nat
  status : ElfStatus

/-- The memory, `brk.base` of the process and the segments so far. -/
structure ElfState where
  vm : Vm
  base : Nat
  log : List ElfLoad

def raiseBase (base brk : Nat) : Nat := if brk > base then brk else base

/-- The part of `elf_load_phdrs` after `elf_mmap` has returned. -/
def endSegment (s : ElfState) (ph : ElfPhdr) (r : ElfMapped) : ElfState × ElfStatus :=
  ({ vm := r.vm
     base := if r.status = .ok then raiseBase s.base (alignUp (add64 ph.vaddr ph.memsz) pageSize) else s.base
     log := s.log ++ [⟨ph, r.pages, r.stores, r.status⟩] }, r.status)

/-- The part of `elf_load_phdrs` for a loadable segment. -/
def loadSegment (pml4t : Nat) (file : ElfFile) (s : ElfState) (ph : ElfPhdr) : ElfState × ElfStatus :=
  if add64 ph.vaddr ph.memsz > userMemoryLimit then
    ({ s with log := s.log ++ [⟨ph, [], [], .error (some .EFAULT)⟩] }, .error (some .EFAULT))
  else endSegment s ph (elfMmap pml4t file s.vm ph.vaddr ph.memsz ph.prot ph.filesz ph.offset)

/-- The loop of `elf_load_phdrs` over the indices that remain. -/
def loadPhdrs (pml4t : Nat) (file : ElfFile) (ehdr : ElfEhdr) : List Nat → ElfState → ElfState × ElfStatus
  | [], s => (s, .ok)
  | i :: is, s =>
    match phdrAt file ehdr i with
    | none => (s, .error (some Errno.EIO))
    | some ph =>
      if ph.type = ptLoad then
        let r := loadSegment pml4t file s ph
        if r.2 = .ok then loadPhdrs pml4t file ehdr is r.1 else r
      else loadPhdrs pml4t file ehdr is s

def elfLoadPhdrs (pml4t : Nat) (file : ElfFile) (ehdr : ElfEhdr) (s : ElfState) : ElfState × ElfStatus :=
  loadPhdrs pml4t file ehdr (List.range ehdr.phnum) s

/-! ### Segments -/

def ElfPhdr.pagesStart (ph : ElfPhdr) : Nat := ph.vaddr / pageSize * pageSize

def ElfPhdr.pagesStop (ph : ElfPhdr) : Nat := (ph.vaddr + ph.memsz + (pageSize - 1)) / pageSize * pageSize

def ElfPhdr.delivered (ph : ElfPhdr) (file : ElfFile) : Nat := (vfsRead file ph.filesz ph.offset).1.length

def ElfEhdr.loads (ehdr : ElfEhdr) (file : ElfFile) : List ElfPhdr :=
  ((List.range ehdr.phnum).filterMap (phdrAt file ehdr)).filter fun ph => ph.type = ptLoad

/-- Everything that is done for the segment is done in its pages and below the limit, and a segment that does not end
below the limit is rejected before anything is done for it. -/
def ElfLoad.InSegment (l : ElfLoad) : Prop :=
  (∀ a ∈ l.pages ++ l.stores, a < userMemoryLimit ∧ l.phdr.pagesStart ≤ a ∧ a < l.phdr.pagesStop) ∧
    (userMemoryLimit < l.phdr.vaddr + l.phdr.memsz → l.pages = [] ∧ l.stores = [] ∧ ∃ e, l.status = .error e)

/-- The end of the segment does not wrap to a number that is accepted, and if the segment ends below the limit then
what is read for it ends in its pages and below the limit. -/
def ElfPhdr.Fits (ph : ElfPhdr) (file : ElfFile) : Prop :=
  (2 ^ 64 ≤ ph.vaddr + ph.memsz → userMemoryLimit < ph.vaddr + ph.memsz - 2 ^ 64) ∧
    (ph.vaddr + ph.memsz ≤ userMemoryLimit → ph.vaddr + ph.delivered file ≤ min userMemoryLimit ph.pagesStop)

/-- The fields are 64-bit numbers. -/
structure ElfPhdr.Wf (ph : ElfPhdr) : Prop where
  vaddr_lt : ph.vaddr < 2 ^ 64
  memsz_lt : ph.memsz < 2 ^ 64

private theorem phdrOf_wf (bytes : List UInt8) : (phdrOf bytes).Wf := by
  have hfield : ∀ k, leNat ((bytes.drop k).take 8) < 2 ^ 64 := by
    intro k
    have hlen : ((bytes.drop k).take 8).length ≤ 8 := List.length_take_le 8 _
    exact Nat.lt_of_lt_of_le (leNat_lt _) (Nat.pow_le_pow_right (by decide) (by omega))
  exact ⟨hfield 16, hfield 40⟩

private theorem phdrAt_wf {file : ElfFile} {ehdr : ElfEhdr} {i : Nat} {ph : ElfPhdr}
    (h : phdrAt file ehdr i = some ph) : ph.Wf := by
  unfold phdrAt at h
  dsimp only at h
  split at h
  · cases h
  · obtain rfl := Option.some.inj h
    exact phdrOf_wf _

/-- The pages that `elf_mmap` goes through. -/
def ElfPhdr.pages (ph : ElfPhdr) : List Nat :=
  Kernel.pages (alignDown ph.vaddr pageSize) (alignUp (add64 ph.vaddr ph.memsz) pageSize)

section

variable {ph : ElfPhdr}

theorem ElfPhdr.mem_pages (h : ph.vaddr + ph.memsz ≤ userMemoryLimit) {v : Nat} :
    v ∈ ph.pages ↔ pageSize ∣ v ∧ ph.pagesStart ≤ v ∧ v < ph.pagesStop := by
  have hlimit : ph.vaddr + ph.memsz ≤ 0x7fffffffffff := h
  have hadd : add64 ph.vaddr ph.memsz = ph.vaddr + ph.memsz := add64_of_lt (by omega)
  have hdown : alignDown ph.vaddr pageSize = ph.pagesStart := alignDown_page (by omega)
  rw [ElfPhdr.pages, mem_pages_aligned (pageSize_dvd_alignDown _), hadd, hdown]
  refine and_congr_right fun hd => and_congr_right fun _ => ?_
  rw [lt_alignUp_page (by simp only [pageSize]; omega) hd]
  obtain ⟨k, rfl⟩ := hd
  unfold ElfPhdr.pagesStop
  simp only [pageSize]
  omega

theorem ElfPhdr.pages_apart (ph : ElfPhdr) : PagesApart ph.pages := Kernel.pages_apart (pageSize_dvd_alignDown _)

theorem ElfPhdr.page_mem (h : ph.vaddr + ph.memsz ≤ userMemoryLimit) {a : Nat} (h1 : ph.pagesStart ≤ a)
    (h2 : a < ph.pagesStop) :
    a / pageSize * pageSize ∈ ph.pages := by
  rw [ElfPhdr.mem_pages h]
  unfold ElfPhdr.pagesStart ElfPhdr.pagesStop at *
  simp only [pageSize] at *
  omega

end

/-! ### What is stored -/

theorem storeUser_stores {pml4t : Nat} {m : Mem} {a : Nat} {data : List UInt8} (ha : a < 2 ^ 64) :
    ∀ x ∈ (storeUser pml4t m a data).2.1, ∃ k < data.length, x = (a + k) % 2 ^ 64 := by
  induction data generalizing m a with
  | nil => exact fun x hx => by cases hx
  | cons b bs ih =>
    intro x hx
    unfold storeUser at hx
    split at hx
    · obtain rfl := List.mem_singleton.1 hx
      exact ⟨0, by simp, (Nat.mod_eq_of_lt ha).symm⟩
    · rcases List.mem_cons.1 hx with rfl | hx
      · exact ⟨0, by simp, (Nat.mod_eq_of_lt ha).symm⟩
      · obtain ⟨k, hk, rfl⟩ := ih (add64_lt a 1) x hx
        refine ⟨k + 1, by simpa using hk, ?_⟩
        unfold add64
        omega

private theorem vfsRead_length (file : ElfFile) (len offset : Nat) : (vfsRead file len offset).1.length ≤ len := by
  unfold vfsRead
  split
  · exact Nat.zero_le _
  split
  · exact Nat.zero_le _
  split
  · exact Nat.zero_le _
  split
  · rename_i f hf
    exact file.read_le f hf len offset
  · exact Nat.zero_le _

theorem readSegment_fst (file : ElfFile) (filesz offset : Nat) :
    (readSegment file filesz offset).1 = (vfsRead file filesz offset).1 := by
  unfold readSegment
  split
  · rename_i h0
    have hlen := vfsRead_length file filesz offset
    exact (List.length_eq_zero_iff.1 (by omega)).symm
  · rfl

/-- How `elf_mmap` ends once all pages are mapped: what is stored, and the status. -/
inductive ElfStored (pml4t flags : Nat) (ps : List Nat) (vm : Vm) (base : Nat) (data : List UInt8 × Option Errno)
    (filesz : Nat) : ElfMapped → Prop
  | fault (stored : (storeUser pml4t vm.mem base data.1).2.2 = false) :
      ElfStored pml4t flags ps vm base data filesz
        ⟨{ vm with mem := (storeUser pml4t vm.mem base data.1).1 }, ps, (storeUser pml4t vm.mem base data.1).2.1,
          .fault⟩
  | short (stored : (storeUser pml4t vm.mem base data.1).2.2 = true) (fails : readResult data ≠ filesz) (vm' : Vm) :
      ElfStored pml4t flags ps vm base data filesz ⟨vm', ps, (storeUser pml4t vm.mem base data.1).2.1, .error data.2⟩
  | unprotected (ptr : Nat) (stored : (storeUser pml4t vm.mem base data.1).2.2 = true)
      (protect : (protectPages pml4t flags { vm with mem := (storeUser pml4t vm.mem base data.1).1 } ps).2 = some ptr)
      (vm' : Vm) :
      ElfStored pml4t flags ps vm base data filesz ⟨vm', ps, (storeUser pml4t vm.mem base data.1).2.1, .error none⟩
  | ok (stored : (storeUser pml4t vm.mem base data.1).2.2 = true) (reads : readResult data = filesz)
      (protect : (protectPages pml4t flags { vm with mem := (storeUser pml4t vm.mem base data.1).1 } ps).2 = none) :
      ElfStored pml4t flags ps vm base data filesz
        ⟨(protectPages pml4t flags { vm with mem := (storeUser pml4t vm.mem base data.1).1 } ps).1, ps,
          (storeUser pml4t vm.mem base data.1).2.1, .ok⟩

section

variable {pml4t : Nat} {file : ElfFile} {vm : Vm} {lo : Nat} {ps : List Nat} {flags base filesz offset : Nat}

theorem mmapPages_unmapped {ptr : Nat} (h : (mapPages pml4t pageFlagRw true vm ps).2 = some ptr) : ∃ vm',
    mmapPages pml4t file vm lo ps flags base filesz offset = ⟨vm', pages lo ptr, [], .error none⟩ := by
  unfold mmapPages
  generalize mapPages pml4t pageFlagRw true vm ps = s at h
  obtain ⟨vm', res⟩ := s
  obtain rfl : res = some ptr := h
  exact ⟨_, rfl⟩

theorem mmapPages_stored (h : (mapPages pml4t pageFlagRw true vm ps).2 = none) :
    ElfStored pml4t flags ps (mapPages pml4t pageFlagRw true vm ps).1 base (readSegment file filesz offset) filesz
      (mmapPages pml4t file vm lo ps flags base filesz offset) := by
  unfold mmapPages
  generalize mapPages pml4t pageFlagRw true vm ps = s at h ⊢
  obtain ⟨vm', res⟩ := s
  obtain rfl : res = none := h
  generalize readSegment file filesz offset = data
  dsimp only
  by_cases hstored : (storeUser pml4t vm'.mem base data.1).2.2 = false
  case pos =>
    rw [if_pos hstored]
    exact .fault hstored
  rw [if_neg hstored]
  have hstored := Bool.eq_true_of_not_eq_false hstored
  by_cases hread : readResult data ≠ filesz
  case pos =>
    rw [if_pos hread]
    exact .short hstored hread _
  rw [if_neg hread]
  have hok := @ElfStored.ok pml4t flags ps vm' base data filesz hstored (not_not.1 hread)
  have hun := fun ptr => @ElfStored.unprotected pml4t flags ps vm' base data filesz ptr hstored
  generalize protectPages pml4t flags { vm' with mem := (storeUser pml4t vm'.mem base data.1).1 } ps = t at hok hun ⊢
  obtain ⟨vm'', res⟩ := t
  cases res with
  | none => exact hok rfl
  | some ptr => exact hun ptr rfl _

end

def ElfPhdr.pageFlags (ph : ElfPhdr) : Nat := pageFlagUser ||| if ph.prot &&& protWrite ≠ 0 then pageFlagRw else 0

theorem elfMmap_eq (pml4t : Nat) (file : ElfFile) (vm : Vm) (ph : ElfPhdr) :
    elfMmap pml4t file vm ph.vaddr ph.memsz ph.prot ph.filesz ph.offset =
      mmapPages pml4t file vm (alignDown ph.vaddr pageSize) ph.pages ph.pageFlags ph.vaddr ph.filesz ph.offset := rfl

/-- The pages are some of those that the loop goes through, and bytes are stored to as many addresses as are read at
most. -/
private theorem elfMmap_inside {pml4t : Nat} {file : ElfFile} {vm : Vm} {ph : ElfPhdr} (hv : ph.vaddr < 2 ^ 64)
    {r : ElfMapped} (h : elfMmap pml4t file vm ph.vaddr ph.memsz ph.prot ph.filesz ph.offset = r) :
    (∀ p ∈ r.pages, p ∈ ph.pages) ∧ ∀ a ∈ r.stores, ∃ k < ph.delivered file, a = (ph.vaddr + k) % 2 ^ 64 := by
  rw [elfMmap_eq] at h
  cases hres : (mapPages pml4t pageFlagRw true vm ph.pages).2 with
  | some ptr =>
    obtain ⟨vm', heq⟩ :=
      @mmapPages_unmapped pml4t file vm (alignDown ph.vaddr pageSize) ph.pages ph.pageFlags ph.vaddr
      ph.filesz ph.offset ptr hres
    obtain rfl := h.symm.trans heq
    refine ⟨fun p hp => ?_, fun a ha => by cases ha⟩
    have hd : pageSize ∣ alignDown ph.vaddr pageSize := pageSize_dvd_alignDown _
    obtain ⟨-, -, hlt⟩ := (mem_pages_aligned hd).1 (mapPages_mem hres)
    obtain ⟨h1, h2, h3⟩ := (mem_pages_aligned hd).1 hp
    exact (mem_pages_aligned hd).2 ⟨h1, h2, Nat.lt_trans h3 hlt⟩
  | none =>
    have hstored :=
      @mmapPages_stored pml4t file vm (alignDown ph.vaddr pageSize) ph.pages ph.pageFlags ph.vaddr ph.filesz
      ph.offset hres
    have hstores := @storeUser_stores pml4t (mapPages pml4t pageFlagRw true vm ph.pages).1.mem ph.vaddr
      (readSegment file ph.filesz ph.offset).1 hv
    rw [h] at hstored
    have hlen : ph.delivered file = (readSegment file ph.filesz ph.offset).1.length := by
      rw [readSegment_fst]
      rfl
    rw [hlen]
    cases hstored with
    | fault stored => exact ⟨fun _ hp => hp, hstores⟩
    | short stored fails vm' => exact ⟨fun _ hp => hp, hstores⟩
    | unprotected ptr stored protect vm' => exact ⟨fun _ hp => hp, hstores⟩
    | ok stored reads protect => exact ⟨fun _ hp => hp, hstores⟩

/-! ### One segment -/

section

variable {pml4t : Nat} {file : ElfFile} {s : ElfState} {ph : ElfPhdr}

private theorem loadSegment_log : (add64 ph.vaddr ph.memsz > userMemoryLimit ∧
      (loadSegment pml4t file s ph).1.log = s.log ++ [⟨ph, [], [], .error (some .EFAULT)⟩]) ∨
    (add64 ph.vaddr ph.memsz ≤ userMemoryLimit ∧ ∃ r : ElfMapped,
      elfMmap pml4t file s.vm ph.vaddr ph.memsz ph.prot ph.filesz ph.offset = r ∧
      (loadSegment pml4t file s ph).1.log = s.log ++ [⟨ph, r.pages, r.stores, r.status⟩]) := by
  unfold loadSegment
  by_cases hrej : add64 ph.vaddr ph.memsz > userMemoryLimit
  case pos =>
    rw [if_pos hrej]
    exact Or.inl ⟨hrej, rfl⟩
  rw [if_neg hrej]
  exact Or.inr ⟨Nat.not_lt.1 hrej, _, rfl, rfl⟩

private theorem loadSegment_inSegment (hwf : ph.Wf) (hfits : ph.Fits file) : ∃ l : ElfLoad,
    (loadSegment pml4t file s ph).1.log = s.log ++ [l] ∧ l.InSegment := by
  obtain ⟨hv, hm⟩ := hwf
  obtain ⟨hwrap, hread⟩ := hfits
  obtain ⟨hrej, hlog⟩ | ⟨hle, r, hr, hlog⟩ := @loadSegment_log pml4t file s ph
  · exact ⟨_, hlog, (fun a ha => by cases ha), fun _ => ⟨rfl, rfl, _, rfl⟩⟩
  refine ⟨_, hlog, ?_⟩
  have hin : ph.vaddr + ph.memsz ≤ userMemoryLimit := by
    by_contra hout
    by_cases h64 : ph.vaddr + ph.memsz < 2 ^ 64
    · rw [add64_of_lt h64] at hle
      exact hout hle
    · have hover := hwrap (Nat.not_lt.1 h64)
      unfold add64 at hle
      omega
  obtain ⟨hpages, hstores⟩ := elfMmap_inside hv hr
  have hdelivered := hread hin
  refine ⟨fun a ha => ?_, fun hout => absurd hin (Nat.not_le.2 hout)⟩
  rcases List.mem_append.1 ha with ha | ha
  · obtain ⟨hd, hlo, hhi⟩ := (ElfPhdr.mem_pages hin).1 (hpages a ha)
    refine ⟨?_, hlo, hhi⟩
    obtain ⟨k, rfl⟩ := hd
    unfold ElfPhdr.pagesStop at hhi
    have hlimit : ph.vaddr + ph.memsz ≤ 0x7fffffffffff := hin
    show pageSize * k < 0x7fffffffffff
    simp only [pageSize] at hhi ⊢
    omega
  · obtain ⟨k, hk, rfl⟩ := hstores a ha
    have hlimit : userMemoryLimit = 0x7fffffffffff := rfl
    have hmod : (ph.vaddr + k) % 2 ^ 64 = ph.vaddr + k := Nat.mod_eq_of_lt (by omega)
    have hstart : ph.pagesStart ≤ ph.vaddr := Nat.div_mul_le_self _ _
    rw [hmod]
    dsimp only
    omega

end

/-! ### All segments -/

private theorem mem_loads {ehdr : ElfEhdr} {file : ElfFile} {i : Nat} {ph : ElfPhdr} (hi : i < ehdr.phnum)
    (h : phdrAt file ehdr i = some ph) (hload : ph.type = ptLoad) : ph ∈ ehdr.loads file :=
  List.mem_filter.2 ⟨List.mem_filterMap.2 ⟨i, List.mem_range.2 hi, h⟩, decide_eq_true hload⟩

private theorem loadPhdrs_rule {pml4t : Nat} {file : ElfFile} {ehdr : ElfEhdr} {P : ElfState → Prop}
    (hstep : ∀ s ph, P s → ph.Wf → ph ∈ ehdr.loads file → P (loadSegment pml4t file s ph).1) {is : List Nat}
    (his : ∀ i ∈ is, i < ehdr.phnum) {s : ElfState} (h : P s) : P (loadPhdrs pml4t file ehdr is s).1 := by
  induction is generalizing s with
  | nil => exact h
  | cons i is ih =>
    have his' : ∀ j ∈ is, j < ehdr.phnum := fun j hj => his j (List.mem_cons_of_mem i hj)
    unfold loadPhdrs
    cases hph : phdrAt file ehdr i with
    | none => exact h
    | some ph =>
      dsimp only
      by_cases hload : ph.type = ptLoad
      case neg =>
        rw [if_neg hload]
        exact ih his' h
      rw [if_pos hload]
      have hnext := hstep s ph h (phdrAt_wf hph) (mem_loads (his i List.mem_cons_self) hph hload)
      split
      · exact ih his' hnext
      · exact hnext

private theorem elfLoadPhdrs_inSegment {pml4t : Nat} {file : ElfFile} {ehdr : ElfEhdr} {s : ElfState}
    (hlog : s.log = []) (hfits : ∀ ph ∈ ehdr.loads file, ph.Fits file) :
    ∀ l ∈ (elfLoadPhdrs pml4t file ehdr s).1.log, l.InSegment := by
  refine @loadPhdrs_rule pml4t file ehdr (fun t => ∀ l ∈ t.log, l.InSegment) (fun t ph ht hwf hmem => ?_) _
    (fun i hi => List.mem_range.1 hi) s (fun l hl => by rw [hlog] at hl; cases hl)
  obtain ⟨l, hl, hin⟩ := @loadSegment_inSegment pml4t file t ph hwf (hfits ph hmem)
  rw [hl]
  intro l' hl'
  rcases List.mem_append.1 hl' with hl' | hl'
  · exact ht l' hl'
  · rw [List.mem_singleton.1 hl']
    exact hin

/-! ### Stores to pages that are mapped -/

section

variable {r : Nat} {ps : List (Nat × Nat)} {ℓ : Nat → Option (Nat × Nat)} {c : Nat → Nat} {f : Frames}

/-- Bytes that are stored to pages on held frames: no store faults, the pages show the bytes, and no other byte of
memory changes. -/
structure Stored (r : Nat) (ps : List (Nat × Nat)) (ℓ : Nat → Option (Nat × Nat)) (c : Nat → Nat) (f : Frames)
    (m : Mem) (a : Nat) (data : List UInt8) : Prop where
  mapped : (storeUser r m a data).2.2 = true
  added : Added ⟨(storeUser r m a data).1, f⟩ r ps ℓ c
  leaf : ∀ w, leaf (storeUser r m a data).1 r w = leaf m r w
  shows : ∀ p ∈ ps, ∀ w, w / pageSize = p.1 / pageSize → (storeUser r m a data).1 (p.2 + w % pageSize) =
    if a ≤ w ∧ w < a + data.length then data.getD (w - a) 0 else m (p.2 + w % pageSize)
  outside : ∀ x, (∀ p ∈ ps, x < p.2 ∨ p.2 + pageSize ≤ x) → (storeUser r m a data).1 x = m x

private theorem storeUser_cons {m : Mem} {a : Nat} (b : UInt8) (bs : List UInt8) (h : leaf m r a ≠ none)
    (hlt : a + 1 < 2 ^ 64) :
    storeUser r m a (b :: bs) = ((storeUser r (setByte m (vmPhysAddr m r a) b) (a + 1) bs).1,
      a :: (storeUser r (setByte m (vmPhysAddr m r a) b) (a + 1) bs).2.1,
      (storeUser r (setByte m (vmPhysAddr m r a) b) (a + 1) bs).2.2) := by
  rw [storeUser, if_neg h, add64_of_lt hlt]

private theorem place_inj {m : Mem} (h : Added ⟨m, f⟩ r ps ℓ c) {p q : Nat × Nat} (hp : p ∈ ps) (hq : q ∈ ps)
    {v w : Nat} (hv : v / pageSize = p.1 / pageSize) (hw : w / pageSize = q.1 / pageSize)
    (heq : p.2 + v % pageSize = q.2 + w % pageSize) : v = w := by
  have hpa := (h.holds.frame p.2 (List.mem_map_of_mem hp)).2.1
  have hqa := (h.holds.frame q.2 (List.mem_map_of_mem hq)).2.1
  have hvlt : v % pageSize < pageSize := Nat.mod_lt _ (by decide)
  have hwlt : w % pageSize < pageSize := Nat.mod_lt _ (by decide)
  have hframe : p.2 = q.2 := by
    by_contra hne
    have hap := page_apart hpa hqa hne
    omega
  obtain rfl : p = q := List.inj_on_of_nodup_map h.holds.nodup hp hq hframe
  have hdiv : v / pageSize = w / pageSize := hv.trans hw.symm
  have hv' := Nat.div_add_mod v pageSize
  have hw' := Nat.div_add_mod w pageSize
  rw [hdiv] at hv'
  omega

private theorem storeUser_stored {m : Mem} {a : Nat} {data : List UInt8} (h : Added ⟨m, f⟩ r ps ℓ c)
    (hlt : a + data.length < 2 ^ 64) (hin : ∀ k < data.length, ∃ p ∈ ps, (a + k) / pageSize = p.1 / pageSize) :
    Stored r ps ℓ c f m a data := by
  induction data generalizing m a with
  | nil =>
    refine ⟨rfl, h, fun _ => rfl, fun p _ w _ => ?_, fun _ _ => rfl⟩
    rw [if_neg (by rw [List.length_nil]; omega)]
    rfl
  | cons b bs ih =>
    rw [List.length_cons] at hlt hin
    obtain ⟨p0, hp0, hpage⟩ := hin 0 (Nat.zero_lt_succ _)
    rw [Nat.add_zero] at hpage
    obtain ⟨hphys, hleaf, hadd, hsame⟩ := storeByte_added h hp0 hpage b
    dsimp only at hphys hleaf hadd hsame
    have hrest := @ih _ (a + 1) hadd (by omega) fun k hk => by
      obtain ⟨p, hp, hk'⟩ := hin (k + 1) (by omega)
      exact ⟨p, hp, by rw [← hk', Nat.add_right_comm, Nat.add_assoc]⟩
    have hcons := storeUser_cons (r := r) b bs hleaf (by omega)
    rw [hphys] at hrest hsame hcons
    obtain ⟨h1, h2, h3, h4, h5⟩ := hrest
    refine ⟨by rw [hcons]; exact h1, by rw [hcons]; exact h2, fun w => by rw [hcons]; exact (h3 w).trans (hsame w),
      fun p hp w hw => ?_, fun x hx => ?_⟩
    · rw [hcons, h4 p hp w hw, List.length_cons]
      by_cases hwa : w = a
      · subst hwa
        have hp' : p = p0 := h.maps.unique hp hp0 (hw.symm.trans hpage)
        subst hp'
        rw [if_neg (by omega), if_pos (by omega), Nat.sub_self]
        exact if_pos rfl
      · have hne : p.2 + w % pageSize ≠ p0.2 + a % pageSize := fun he => hwa (place_inj h hp hp0 hw hpage he)
        by_cases hin' : a + 1 ≤ w ∧ w < a + 1 + bs.length
        · rw [if_pos hin', if_pos (by omega)]
          have hsub : w - a = w - (a + 1) + 1 := by omega
          rw [hsub]
          rfl
        · rw [if_neg hin', if_neg (by omega), setByte_of_ne hne]
    · rw [hcons, h5 x hx, setByte_of_ne fun he => ?_]
      have hout := hx p0 hp0
      have hoff : a % pageSize < pageSize := Nat.mod_lt _ (by decide)
      omega

theorem storeUser_added {vm : Vm} {a : Nat} {data : List UInt8} (h : Added vm r ps ℓ c)
    (hlt : a + data.length < 2 ^ 64)
    (hin : ∀ k < data.length, ∃ p ∈ ps, (a + k) / pageSize = p.1 / pageSize) :
    Stored r ps ℓ c vm.frames vm.mem a data :=
  @storeUser_stored r ps ℓ c vm.frames vm.mem a data h hlt hin

end

private theorem next_store {r : Nat} {m : Mem} {a : Nat} {xs : List UInt8} (y : UInt8) (ys : List UInt8)
    (h : (storeUser r m a xs).2.2 = true) (hlt : a + xs.length < 2 ^ 64) :
    a + xs.length ∈ (storeUser r m a (xs ++ y :: ys)).2.1 := by
  induction xs generalizing m a with
  | nil =>
    rw [List.nil_append, storeUser]
    split
    · exact List.mem_singleton_self _
    · exact List.mem_cons_self
  | cons x xs ih =>
    rw [List.length_cons] at hlt ⊢
    by_cases hleaf : leaf m r a = none
    case pos =>
      rw [storeUser, if_pos hleaf] at h
      cases h
    rw [storeUser_cons x xs hleaf (by omega)] at h
    rw [List.cons_append, storeUser_cons x _ hleaf (by omega)]
    have hnext := ih h (by omega)
    rw [show a + (xs.length + 1) = a + 1 + xs.length by omega]
    exact List.mem_cons_of_mem _ hnext

/-! ### The condition is exact -/

section

variable {pml4t : Nat} {file : ElfFile} {s : ElfState} {ph : ElfPhdr}

private theorem ElfStored.recorded {flags base filesz : Nat} {ps : List Nat} {vm : Vm}
    {data : List UInt8 × Option Errno} {r : ElfMapped} (h : ElfStored pml4t flags ps vm base data filesz r) :
    r.pages = ps ∧ r.stores = (storeUser pml4t vm.mem base data.1).2.1 := by
  cases h with
  | fault stored => exact ⟨rfl, rfl⟩
  | short stored fails vm' => exact ⟨rfl, rfl⟩
  | unprotected ptr stored protect vm' => exact ⟨rfl, rfl⟩
  | ok stored reads protect => exact ⟨rfl, rfl⟩

theorem ElfStored.trivial {flags base : Nat} {vm : Vm} {r : ElfMapped}
    (h : ElfStored pml4t flags [] vm base ([], none) 0 r) : r.status = .ok := by
  cases h with
  | fault stored => cases stored
  | short stored fails vm' => exact absurd rfl fails
  | unprotected ptr stored protect vm' => cases protect
  | ok stored reads protect => rfl

private theorem storeUser_eq_nil {m : Mem} {a : Nat} {data : List UInt8} (h : (storeUser pml4t m a data).2.1 = []) :
    data = [] := by
  cases data with
  | nil => rfl
  | cons b bs =>
    unfold storeUser at h
    split at h
    · cases h
    · cases h

theorem mapFlags_rw : MapFlags pageFlagRw := ⟨by decide, by decide, by decide⟩

private theorem ElfPhdr.page_of {qs : List (Nat × Nat)} (hqs : qs.map Prod.fst = ph.pages)
    (hin : ph.vaddr + ph.memsz ≤ userMemoryLimit) {a : Nat} (h1 : ph.pagesStart ≤ a) (h2 : a < ph.pagesStop) :
    ∃ q ∈ qs, a / pageSize = q.1 / pageSize := by
  have hmem := ElfPhdr.page_mem hin h1 h2
  rw [← hqs] at hmem
  obtain ⟨q, hq, heq⟩ := List.mem_map.1 hmem
  refine ⟨q, hq, ?_⟩
  rw [heq]
  exact (Nat.mul_div_cancel _ (by decide)).symm

private theorem store_past {vm : Vm} {qs : List (Nat × Nat)} {ℓ : Nat → Option (Nat × Nat)} {c : Nat → Nat}
    (hadd : Added vm pml4t qs ℓ c) (hqs : qs.map Prod.fst = ph.pages) (hin : ph.vaddr + ph.memsz ≤ userMemoryLimit)
    {data : List UInt8} {a : Nat} (h1 : ph.vaddr ≤ a) (h2 : a ≤ ph.pagesStop) (h3 : a < ph.vaddr + data.length) :
    a ∈ (storeUser pml4t vm.mem ph.vaddr data).2.1 := by
  have hlimit : ph.vaddr + ph.memsz ≤ 0x7fffffffffff := hin
  have hstop : ph.pagesStop ≤ 0x800000000000 := by
    unfold ElfPhdr.pagesStop
    simp only [pageSize]
    omega
  have hstart : ph.pagesStart ≤ ph.vaddr := Nat.div_mul_le_self _ _
  obtain ⟨k, rfl⟩ := Nat.exists_eq_add_of_le h1
  have hk : k < data.length := by omega
  have htake : (data.take k).length = k := List.length_take_of_le hk.le
  have hlt : ph.vaddr + (data.take k).length < 2 ^ 64 := by omega
  have hpages : ∀ j < (data.take k).length, ∃ q ∈ qs, (ph.vaddr + j) / pageSize = q.1 / pageSize := fun j hj =>
    ElfPhdr.page_of hqs hin (Nat.le_trans hstart (Nat.le_add_right _ _)) (by omega)
  have hstored := storeUser_added hadd hlt hpages
  have hnext := next_store data[k] (data.drop (k + 1)) hstored.mapped hlt
  rwa [List.getElem_cons_drop, List.take_append_drop, htake] at hnext

theorem store_outside (hspace : Space s.vm pml4t) (hin : ph.vaddr + ph.memsz ≤ userMemoryLimit)
    (hmap : (mapPages pml4t pageFlagRw true s.vm ph.pages).2 = none) {a : Nat} (h1 : ph.vaddr ≤ a)
    (h2 : a ≤ ph.pagesStop)
    (h3 : a < ph.vaddr + ph.delivered file) :
    a ∈ (storeUser pml4t (mapPages pml4t pageFlagRw true s.vm ph.pages).1.mem ph.vaddr
      (readSegment file ph.filesz ph.offset).1).2.1 := by
  obtain ⟨qs, hadd, hcase⟩ :=
    mapPages_added mapFlags_rw true (.start hspace) ph.pages_apart fun _ _ p hp => by cases hp
  rw [List.append_nil] at hadd
  obtain ⟨-, hqs⟩ := hcase.resolve_right fun ⟨_, _, _, hsome⟩ => by
    rw [hmap] at hsome
    cases hsome
  rw [ElfPhdr.delivered, ← readSegment_fst] at h3
  exact store_past hadd hqs hin h1 h2 h3

/-- If there is memory for the pages of the segment and something is read when it is asked for, then the segment is
treated right exactly if it fits. -/
private theorem loadSegment_iff (hwf : ph.Wf) (hspace : Space s.vm pml4t)
    (hmap : (mapPages pml4t pageFlagRw true s.vm ph.pages).2 = none) (hread : ph.filesz ≠ 0 → ph.delivered file ≠ 0) :
    ∃ l : ElfLoad, (loadSegment pml4t file s ph).1.log = s.log ++ [l] ∧ (l.InSegment ↔ ph.Fits file) := by
  by_cases hfits : ph.Fits file
  case pos =>
    obtain ⟨l, hl, hin⟩ := @loadSegment_inSegment pml4t file s ph hwf hfits
    exact ⟨l, hl, iff_of_true hin hfits⟩
  obtain ⟨hv, hm⟩ := hwf
  obtain ⟨hrej, hlog⟩ | ⟨hle, r, hr, hlog⟩ := @loadSegment_log pml4t file s ph
  · refine absurd ⟨fun h64 => ?_, fun hin => ?_⟩ hfits
    · unfold add64 at hrej
      omega
    · rw [add64_of_lt (Nat.lt_of_le_of_lt hin (by decide))] at hrej
      exact absurd hin (Nat.not_le.2 hrej)
  refine ⟨_, hlog, iff_of_false (fun hseg => hfits (And.intro (fun h64 => ?_) fun hin => ?_)) hfits⟩
  · -- the sum wraps, and nothing has been done although the segment was not rejected
    exfalso
    obtain ⟨-, hout⟩ := hseg
    have hlimit : userMemoryLimit = 0x7fffffffffff := rfl
    obtain ⟨hpages, hstores, e, hstatus⟩ := hout (by dsimp only; omega)
    dsimp only at hpages hstores hstatus
    have hstored :=
      @mmapPages_stored pml4t file s.vm (alignDown ph.vaddr pageSize) ph.pages ph.pageFlags ph.vaddr ph.filesz
      ph.offset hmap
    rw [← elfMmap_eq, hr] at hstored
    obtain ⟨hps, hdata⟩ := hstored.recorded
    have hnil : (readSegment file ph.filesz ph.offset).1 = [] := storeUser_eq_nil (hdata.symm.trans hstores)
    have h0 : ph.filesz = 0 := by
      by_contra hne
      refine hread hne ?_
      rw [ElfPhdr.delivered, ← readSegment_fst, hnil]
      rfl
    have hdata0 : readSegment file ph.filesz ph.offset = ([], none) := if_pos h0
    rw [hdata0, ← hps, hpages, h0] at hstored
    rw [hstored.trivial] at hstatus
    cases hstatus
  · by_contra hover
    have hlimit : userMemoryLimit = 0x7fffffffffff := rfl
    have hstored :=
      @mmapPages_stored pml4t file s.vm (alignDown ph.vaddr pageSize) ph.pages ph.pageFlags ph.vaddr ph.filesz
      ph.offset hmap
    rw [← elfMmap_eq, hr] at hstored
    obtain ⟨-, hdata⟩ := hstored.recorded
    have hstop : ph.vaddr ≤ ph.pagesStop := by
      unfold ElfPhdr.pagesStop
      simp only [pageSize]
      omega
    obtain ⟨a, ha⟩ : ∃ a, min userMemoryLimit ph.pagesStop = a := ⟨_, rfl⟩
    have hbad := @store_outside pml4t file s ph hspace hin hmap a (by omega) (by omega) (by omega)
    rw [← hdata] at hbad
    obtain ⟨h1, -, h2⟩ := hseg.1 a (List.mem_append_right _ hbad)
    dsimp only at h1 h2
    omega

end

/-- If every loadable segment fits then the loader stays in the segments and below the limit, whatever the state of
the memory. For a segment that does not fit, this is not so as soon as there is memory for its pages and something is
read for it. -/
theorem elf_load_in_segments (pml4t : Nat) (file : ElfFile) (ehdr : ElfEhdr) :
    (∀ s : ElfState, s.log = [] → (∀ ph ∈ ehdr.loads file, ph.Fits file) →
      ∀ l ∈ (elfLoadPhdrs pml4t file ehdr s).1.log, l.InSegment) ∧
    ∀ (s : ElfState) (ph : ElfPhdr), ph.Wf → Space s.vm pml4t →
    (mapPages pml4t pageFlagRw true s.vm ph.pages).2 = none →
      (ph.filesz ≠ 0 → ph.delivered file ≠ 0) →
      ∃ l : ElfLoad, (loadSegment pml4t file s ph).1.log = s.log ++ [l] ∧ (l.InSegment ↔ ph.Fits file) :=
  ⟨fun _ hlog hfits => elfLoadPhdrs_inSegment hlog hfits, fun _ _ hwf hspace hmap hread =>
    loadSegment_iff hwf hspace hmap hread⟩

def fileOf (bytes : List UInt8) : ElfFile :=
  { cred := ⟨⟨0, 0, 0⟩, ⟨0, 0, 0⟩, []⟩
    vnode := ⟨0o100644, 0, 0, ⟨false, false, false, false, false, false, false, false⟩⟩
    read := some fun len offset => ((bytes.drop offset).take len, none)
    read_le := fun f hf len offset => by
      cases hf
      exact List.length_take_le _ _ }

def phdrBytes (flags offset vaddr filesz memsz : Nat) : List UInt8 :=
  let field k n := (List.range n).map fun i => UInt8.ofNat (k / 2 ^ (8 * i))
  field 1 4 ++ field flags 4 ++ field offset 8 ++ field vaddr 8 ++ field vaddr 8 ++ field filesz 8 ++ field memsz 8 ++
    field 0x1000 8

/-- A segment of one page with the bytes of its own header. -/
theorem elf_load_in_segments_small : ∀ l ∈ (elfLoadPhdrs 0x1000 (fileOf (phdrBytes 5 0 0x400000 56 0x1000)) ⟨0, 56, 1⟩
    ⟨emptyVm, 0, []⟩).1.log, l.InSegment := by
  refine (elf_load_in_segments 0x1000 (fileOf (phdrBytes 5 0 0x400000 56 0x1000)) ⟨0, 56, 1⟩).1 _ rfl fun ph hph => ?_
  have hloads : (⟨0, 56, 1⟩ : ElfEhdr).loads (fileOf (phdrBytes 5 0 0x400000 56 0x1000)) =
      [⟨1, 5, 0, 0x400000, 56, 0x1000⟩] := by
    decide
  rw [hloads] at hph
  obtain rfl := List.mem_singleton.1 hph
  refine ⟨fun h => absurd h (by decide), fun _ => ?_⟩
  show 0x400000 + ElfPhdr.delivered _ _ ≤ _
  decide

/-- A segment in the part of memory that belongs to the kernel, with a size for which its end wraps: the byte of the
file is stored there. -/
theorem not_elf_load_in_segments : ¬ ∀ (pml4t : Nat) (file : ElfFile) (ehdr : ElfEhdr) (s : ElfState), s.log = [] →
    ∀ l ∈ (elfLoadPhdrs pml4t file ehdr s).1.log, l.InSegment := by
  intro hall
  obtain ⟨file, hfile⟩ : ∃ file, fileOf (phdrBytes 6 0 0xfffffe0000000000 1 0x20000001000) = file := ⟨_, rfl⟩
  obtain ⟨ph, hph⟩ : ∃ ph : ElfPhdr, ⟨1, 6, 0, 0xfffffe0000000000, 1, 0x20000001000⟩ = ph := ⟨_, rfl⟩
  have hread : phdrAt file ⟨0, 56, 1⟩ 0 = some ph := by
    subst hfile hph
    decide
  have hdelivered : ph.delivered file ≠ 0 := by
    subst hfile hph
    decide
  have hpages : ph.pages = [] := by
    subst hph
    decide
  have hwf : ph.Wf := phdrAt_wf hread
  have hfits : ¬ ph.Fits file := fun h => absurd (h.1 (by subst hph; decide)) (by subst hph; decide)
  have hload : ph.type = ptLoad := by
    subst hph
    rfl
  obtain ⟨l, hlog, hin⟩ := @loadSegment_iff 0x1000 file ⟨emptyVm, 0, []⟩ ph hwf emptyVm_space (by rw [hpages]; rfl)
    fun _ => hdelivered
  refine hfits (hin.1 (hall 0x1000 file ⟨0, 56, 1⟩ ⟨emptyVm, 0, []⟩ rfl l ?_))
  have hrun :
    (elfLoadPhdrs 0x1000 file ⟨0, 56, 1⟩ ⟨emptyVm, 0, []⟩).1 = (loadSegment 0x1000 file ⟨emptyVm, 0, []⟩ ph).1 := by
    rw [elfLoadPhdrs, List.range_one, loadPhdrs, hread]
    dsimp only
    rw [if_pos hload]
    split
    · rfl
    · rfl
  rw [hrun, hlog]
  exact List.mem_singleton_self l

end Pml.Kernel
