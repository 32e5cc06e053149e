import Pml.Arch.Isolation

/-!
# Mapping and unmapping pages (`arch/x86_64/mm.c`)

`vm_map_page` and `vm_unmap_page` walk the tables of an address space and write the last one in place, whether it is
shared with other address spaces or not.  `vm_phys_addr` is the walk that only reads, and depends on the entries it
reads (`vmPhysAddr_congr`).
-/

namespace Pml.Arch

open ByteMemory Radix

def nonCanonical (v : Nat) : Prop := v >>> 48 ≠ if pml4tIndex v &&& 0x100 ≠ 0 then 0xffff else 0

instance (v : Nat) : Decidable (nonCanonical v) := inferInstanceAs (Decidable (_ ≠ _))

def vmPhysAddr (m : Mem) (pml4t v : Nat) : Nat :=
  if nonCanonical v then 0
  else
    let pml4e := ptEntry m pml4t (pml4tIndex v)
    if hasFlag pml4e pageFlagPresent = false then 0
    else
      let pdpe := ptEntry m (alignDown pml4e pageSize) (pdptIndex v)
      if hasFlag pdpe pageFlagPresent = false then 0
      else if hasFlag pdpe pageFlagSize then alignDown pdpe hugePageSize ||| (v &&& (hugePageSize - 1))
      else
        let pde := ptEntry m (alignDown pdpe pageSize) (pdtIndex v)
        if hasFlag pde pageFlagPresent = false then 0
        else if hasFlag pde pageFlagSize then alignDown pde largePageSize ||| (v &&& (largePageSize - 1))
        else
          let pte := ptEntry m (alignDown pde pageSize) (ptIndex v)
          if hasFlag pte pageFlagPresent = false then 0
          else alignDown pte pageSize ||| (v &&& (pageSize - 1))

/-- `vm_unmap_page`; the second component is false for the error. -/
def vmUnmapPage (m : Mem) (pml4t v : Nat) : Mem × Bool :=
  if nonCanonical v then (m, false)
  else
    let pml4e := ptEntry m pml4t (pml4tIndex v)
    if hasFlag pml4e pageFlagPresent = false then (m, true)
    else
      let pdpt := alignDown pml4e pageSize
      let pdpe := ptEntry m pdpt (pdptIndex v)
      if hasFlag pdpe pageFlagPresent = false then (m, true)
      else if hasFlag pdpe pageFlagSize then (setEntry m pdpt (pdptIndex v) 0, true)
      else
        let pdt := alignDown pdpe pageSize
        let pde := ptEntry m pdt (pdtIndex v)
        if hasFlag pde pageFlagPresent = false then (m, true)
        else if hasFlag pde pageFlagSize then (setEntry m pdt (pdtIndex v) 0, true)
        else (setEntry m (alignDown pde pageSize) (ptIndex v) 0, true)

/-- One level of `vm_map_page`: an entry `t[i]` that is not present gets a new table. -/
def makeTable (vm : Vm) (t i flags : Nat) : Vm × Bool :=
  if hasFlag (ptEntry vm.mem t i) pageFlagPresent then (vm, true)
  else
    let a := allocPage vm.frames
    let m := setEntry vm.mem t i a.2
    if a.2 = 0 then (⟨m, a.1⟩, false)
    else
      let m := fill m a.2 pageSize 0
      (⟨setEntry m t i (ptEntry m t i ||| (pageFlagPresent ||| pageFlagRw ||| pageFlagUser ||| flags)), a.1⟩, true)

/-- `vm_map_page`; the second component is false for an error. -/
def vmMapPage (vm : Vm) (pml4t physAddr v flags : Nat) : Vm × Bool :=
  if nonCanonical v then (vm, false)
  else
    let s := makeTable vm pml4t (pml4tIndex v) flags
    if s.2 = false then s
    else
      let vm := s.1
      let pdpt := alignDown (ptEntry vm.mem pml4t (pml4tIndex v)) pageSize
      let s := makeTable vm pdpt (pdptIndex v) flags
      if s.2 = false then s
      else
        let vm := s.1
        if hasFlag (ptEntry vm.mem pdpt (pdptIndex v)) pageFlagSize then (vm, false)
        else
          let pdt := alignDown (ptEntry vm.mem pdpt (pdptIndex v)) pageSize
          let s := makeTable vm pdt (pdtIndex v) flags
          if s.2 = false then s
          else
            let vm := s.1
            if hasFlag (ptEntry vm.mem pdt (pdtIndex v)) pageFlagSize then (vm, false)
            else
              let pt := alignDown (ptEntry vm.mem pdt (pdtIndex v)) pageSize
              let m := setEntry vm.mem pt (ptIndex v) (alignDown physAddr pageSize ||| pageFlagPresent ||| flags)
              ({ vm with mem := m }, true)

/-! ### Translations and walks -/

theorem walk_present {m : Mem} {r t i : Nat} {q : List Nat} (ht : walk (ptEntry m) child r q = some t)
    (hp : ¬hasFlag (ptEntry m t i) pageFlagPresent = false) :
    walk (ptEntry m) child r (q ++ [i]) = some (alignDown (ptEntry m t i) pageSize) := by
  rw [walk_append_of ht, walk_singleton]
  exact child_eq_some.2 ⟨Bool.eq_true_of_not_eq_false hp, rfl⟩

theorem vmPhysAddr_congr {m m' : Mem} {r v : Nat}
    (h : ∀ q i s g, userPath v = q ++ i :: s → walk (ptEntry m) child r q = some g → ptEntry m' g i = ptEntry m g i) :
    vmPhysAddr m' r v = vmPhysAddr m r v := by
  unfold vmPhysAddr
  by_cases hc : nonCanonical v
  · rw [if_pos hc, if_pos hc]
  rw [if_neg hc, if_neg hc]
  simp only [h [] (pml4tIndex v) _ r rfl rfl]
  split
  · rfl
  rename_i hp1
  have w1 := walk_present (q := []) rfl hp1
  simp only [h _ (pdptIndex v) _ _ rfl w1]
  split
  · rfl
  rename_i hp2
  have w2 := walk_present w1 hp2
  split
  · rfl
  simp only [h _ (pdtIndex v) _ _ rfl w2]
  split
  · rfl
  rename_i hp3
  have w3 := walk_present w2 hp3
  split
  · rfl
  simp only [h _ (ptIndex v) _ _ rfl w3]

/-! ### New tables -/

theorem alignDown_or_flags {n x : Nat} (hn : n < 2 ^ 64) (hd : pageSize ∣ n) (hx : x < pageSize) :
    alignDown (n ||| x) pageSize = n := by
  rw [← alignDown_of_dvd hn hd]
  refine (alignDown_eq_of_testBit fun i h1 _ => ?_).trans (by rw [alignDown_of_dvd hn hd])
  have hb : x.testBit i = false :=
    Nat.testBit_lt_two_pow (Nat.lt_of_lt_of_le hx (Nat.pow_le_pow_right (show 0 < 2 by decide) h1))
  rw [Nat.testBit_or, hb, alignDown_of_dvd hn hd, Bool.or_false]

end Pml.Arch
