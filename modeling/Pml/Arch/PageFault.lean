import Pml.Arch.PageTables

/-!
# Fork and copy-on-write (`arch/x86_64/thread.c`, `arch/x86_64/page-fault.c`)

`threadClone` is the part of `thread_clone` with `copy` set that builds the new PML4 table: the user half of the
parent is marked copy-on-write, all its page frames get another reference and the table is copied.  `intPageFault` is
the copy-on-write branch of `int_page_fault` for a user-mode fault of a process.  The thread-local tables in the
kernel half, which `thread_clone` fills afterwards, are left out.  The page tables are read directly: `fork` reloads
`cr3` and the handler invalidates the page it has copied, and a stale translation of another page is read-only and
leads to the frame that the page still has.
-/

namespace Pml.Arch

open ByteMemory Radix

/-- Physical memory and the frame allocator. -/
structure Vm where
  mem : Mem
  frames : Frames

def pml4tIndex (v : Nat) : Nat := v >>> 39 &&& 0x1ff

def pdptIndex (v : Nat) : Nat := v >>> 30 &&& 0x1ff

def pdtIndex (v : Nat) : Nat := v >>> 21 &&& 0x1ff

def ptIndex (v : Nat) : Nat := v >>> 12 &&& 0x1ff

abbrev hugePageSize : Nat := 0x40000000

abbrev largePageSize : Nat := 0x200000

abbrev threadLocalBaseVma : Nat := 0xfffffd0000000000

/-! ### The page fault handler -/

/-- One copy-on-write step of `int_page_fault` at the entry `t[i]`, where `dup` copies the page that the entry leads
to.  The second component is false if no page could be allocated. -/
def unshare (dup : Mem → Nat → Nat → Mem) (vm : Vm) (t i : Nat) : Vm × Bool :=
  if hasFlag (ptEntry vm.mem t i) pageFlagCow = false then (vm, true)
  else
    let a := allocPage vm.frames
    if a.2 = 0 then ({ vm with frames := a.1 }, false)
    else
      let m := dup vm.mem a.2 (alignDown (ptEntry vm.mem t i) pageSize)
      let f := freePage a.1 (ptEntry m t i)
      (⟨setEntry m t i (copiedEntry a.2 (ptEntry m t i)), f⟩, true)

def copyPage (m : Mem) (np cp : Nat) : Mem := copy m np cp pageSize

/-- `int_page_fault` for a user-mode fault at `addr` in the address space `pml4t`.  The second component tells
whether the fault was handled; otherwise the process gets a signal. -/
def intPageFault (vm : Vm) (pml4t addr : Nat) : Vm × Bool :=
  let pml4e := pml4tIndex addr
  if addr >>> 48 ≠ (if pml4e &&& 0x100 ≠ 0 then 0xffff else 0) then (vm, false)
  else if hasFlag (ptEntry vm.mem pml4t pml4e) pageFlagPresent = false then (vm, false)
  else
    let s := unshare copyTable vm pml4t pml4e
    if s.2 = false then s
    else
      let vm := s.1
      let pdpt := alignDown (ptEntry vm.mem pml4t pml4e) pageSize
      let pdpe := pdptIndex addr
      if hasFlag (ptEntry vm.mem pdpt pdpe) pageFlagSize ∨
          hasFlag (ptEntry vm.mem pdpt pdpe) pageFlagPresent = false then (vm, false)
      else
        let s := unshare copyTable vm pdpt pdpe
        if s.2 = false then s
        else
          let vm := s.1
          let pdt := alignDown (ptEntry vm.mem pdpt pdpe) pageSize
          let pde := pdtIndex addr
          if hasFlag (ptEntry vm.mem pdt pde) pageFlagSize ∨
              hasFlag (ptEntry vm.mem pdt pde) pageFlagPresent = false then (vm, false)
          else
            let s := unshare copyTable vm pdt pde
            if s.2 = false then s
            else
              let vm := s.1
              let pt := alignDown (ptEntry vm.mem pdt pde) pageSize
              let pte := ptIndex addr
              if hasFlag (ptEntry vm.mem pt pte) pageFlagPresent = false then (vm, false)
              else if hasFlag (ptEntry vm.mem pt pte) pageFlagCow = false then (vm, false)
              else unshare copyPage vm pt pte

/-! ### Fork -/

/-- The loop of `thread_clone` that marks the user half of a table copy-on-write. -/
def markUser (m : Mem) (pml4t : Nat) : Mem :=
  (List.range 256).foldl (fun m i =>
    if hasFlag (ptEntry m pml4t i) pageFlagPresent then setEntry m pml4t i (markCow (ptEntry m pml4t i)) else m) m

/-- The loop of `thread_clone` that adds a reference to all user pages. -/
def refUser (m : Mem) (f : Frames) (pml4t : Nat) : Frames :=
  (List.range 256).foldl (fun f i =>
    let e := ptEntry m pml4t i
    if hasFlag e pageFlagPresent then refPdpt m (refPage f e) (alignDown e pageSize) else f) f

/-- The new PML4 table of `thread_clone (thread, 1)`, or zero if there is no memory. -/
def threadClone (vm : Vm) (parent : Nat) : Vm × Nat :=
  let a := allocPage vm.frames
  if a.2 = 0 then ({ vm with frames := a.1 }, 0)
  else
    let b := allocPage a.1
    if b.2 = 0 then ({ vm with frames := freePage b.1 a.2 }, 0)
    else
      let m := markUser (fill vm.mem b.2 pageSize 0) parent
      let f := refUser m b.1 parent
      let m := copy m a.2 parent pageSize
      (⟨setEntry m a.2 (pml4tIndex threadLocalBaseVma)
        (b.2 ||| pageFlagPresent ||| pageFlagRw ||| pageFlagUser), f⟩, a.2)

/-! ### Accesses from user mode -/

/-- The physical address of a user-mode access that needs the flags `need` at every level. -/
def userAddr (m : Mem) (need pml4t v : Nat) : Option Nat :=
  let pml4e := ptEntry m pml4t (pml4tIndex v)
  if pml4e &&& need ≠ need then none
  else
    let pdpe := ptEntry m (alignDown pml4e pageSize) (pdptIndex v)
    if pdpe &&& need ≠ need then none
    else if hasFlag pdpe pageFlagSize then some (alignDown pdpe hugePageSize ||| (v &&& (hugePageSize - 1)))
    else
      let pde := ptEntry m (alignDown pdpe pageSize) (pdtIndex v)
      if pde &&& need ≠ need then none
      else if hasFlag pde pageFlagSize then some (alignDown pde largePageSize ||| (v &&& (largePageSize - 1)))
      else
        let pte := ptEntry m (alignDown pde pageSize) (ptIndex v)
        if pte &&& need ≠ need then none
        else some (alignDown pte pageSize ||| (v &&& (pageSize - 1)))

def userLoad (m : Mem) (pml4t v : Nat) : Option UInt8 :=
  (userAddr m (pageFlagPresent ||| pageFlagUser) pml4t v).map m

def userStore (m : Mem) (pml4t v : Nat) (b : UInt8) : Option Mem :=
  (userAddr m (pageFlagPresent ||| pageFlagUser ||| pageFlagRw) pml4t v).map fun a => setByte m a b

end Pml.Arch
