import Mathlib.Data.List.TakeWhile
import Pml.Arch.Permissions

/-!
# The exits of the page fault handler (`arch/x86_64/page-fault.c`)

For a user-mode fault `int_page_fault` sets `thread_switch_lock` and clears it after the page has been copied; all
other exits send `SIGSEGV` and leave it set.  So the lock has its old value afterwards exactly if it was clear before
a fault that is handled, or was set before one that is not.  The entries that a fault changes keep the copy-on-write
discipline in every case, also when `alloc_page` fails halfway.

Whether a fault is handled is told from the tables before it (`CopyFault`): the page has to be mapped, an entry on the
way to it has to be marked, and there has to be memory for the copies from the first marked entry on.
-/

namespace Pml.Arch

open ByteMemory Radix

/-! ### The handler -/

def pageErrPresent : Nat := 1 <<< 0

def pageErrUser : Nat := 1 <<< 2

/-- The fields of `siginfo_t` that the handler sets. -/
structure SigInfo where
  siSigno : Nat
  siCode : Nat
  siErrno : Nat
  siAddr : Nat

/-- The memory, `thread_switch_lock`, and the records that have been passed to `send_signal_thread`. -/
structure FaultState where
  vm : Vm
  lock : Int
  sent : List SigInfo

/-- `SIGSEGV` with `SEGV_ACCERR` or `SEGV_MAPERR` -/
def segvInfo (err addr : Nat) : SigInfo := ⟨11, if hasFlag err pageErrPresent then 0x401 else 0x400, 0, addr⟩

/-- `int_page_fault`, where the kernel panics for the process with the number 0. -/
def pageFault (s : FaultState) (pid pml4t err addr : Nat) : Option FaultState :=
  if pid = 0 then none
  else if hasFlag err pageErrUser then
    let r := intPageFault s.vm pml4t addr
    if r.2 then some { s with vm := r.1, lock := 0 }
    else some { vm := r.1, lock := 1, sent := s.sent ++ [segvInfo err addr] }
  else some { s with sent := s.sent ++ [segvInfo err addr] }

/-! ### Faults that are handled -/

/-- `alloc_page` succeeds for each of these entries, and the page of the entry is freed after it. -/
def Copies : Frames → List Nat → Prop
  | _, [] => True
  | f, e :: es => (allocPage f).2 ≠ 0 ∧ Copies (freePage (allocPage f).1 e) es

def fromMarked (es : List Nat) : List Nat := es.dropWhile fun e => !hasFlag e pageFlagCow

/-- From the table `t` on, the page at the indices `p` is mapped with a mark on the way, and there is memory to copy
it. -/
structure CopiesFrom (vm : Vm) (t : Nat) (p : List Nat) : Prop where
  mapped : (walk (ptEntry vm.mem) child t p).isSome
  marked : fromMarked (trail (ptEntry vm.mem) child t p) ≠ []
  memory : Copies vm.frames (fromMarked (trail (ptEntry vm.mem) child t p))

/-- `PML4T_INDEX` has the sign of the address. -/
def SignExtended (addr : Nat) : Prop := addr >>> 48 = if pml4tIndex addr &&& 0x100 ≠ 0 then 0xffff else 0

def CopyFault (vm : Vm) (pml4t addr : Nat) : Prop := SignExtended addr ∧ CopiesFrom vm pml4t (userPath addr)

/-- `int_page_fault` below the PML4 table. -/
def faultFrom : Vm → Nat → List Nat → Vm × Bool
  | vm, _, [] => (vm, false)
  | vm, t, [i] =>
    if hasFlag (ptEntry vm.mem t i) pageFlagPresent = false then (vm, false)
    else if hasFlag (ptEntry vm.mem t i) pageFlagCow = false then (vm, false)
    else unshare copyPage vm t i
  | vm, t, i :: j :: p =>
    if hasFlag (ptEntry vm.mem t i) pageFlagSize ∨
      hasFlag (ptEntry vm.mem t i) pageFlagPresent = false then (vm, false)
    else if (unshare copyTable vm t i).2 = false then unshare copyTable vm t i
    else faultFrom (unshare copyTable vm t i).1 (alignDown (ptEntry (unshare copyTable vm t i).1.mem t i) pageSize)
      (j :: p)

private theorem intPageFault_eq (vm : Vm) (r v : Nat) : intPageFault vm r v =
    if v >>> 48 ≠ (if pml4tIndex v &&& 0x100 ≠ 0 then 0xffff else 0) then (vm, false)
    else if hasFlag (ptEntry vm.mem r (pml4tIndex v)) pageFlagPresent = false then (vm, false)
    else if (unshare copyTable vm r (pml4tIndex v)).2 = false then unshare copyTable vm r (pml4tIndex v)
    else faultFrom (unshare copyTable vm r (pml4tIndex v)).1
      (alignDown (ptEntry (unshare copyTable vm r (pml4tIndex v)).1.mem r (pml4tIndex v)) pageSize)
      [pdptIndex v, pdtIndex v, ptIndex v] := rfl

private theorem freePage_congr (f : Frames) {a b : Nat} (ha : a ≠ 0) (hb : b ≠ 0)
    (h : alignDown a pageSize = alignDown b pageSize) :
    freePage f a = freePage f b := by
  unfold freePage
  rw [if_neg ha, if_neg hb, h]

private theorem ne_zero_of_present {e : Nat} (h : hasFlag e pageFlagPresent = true) : e ≠ 0 := by
  rintro rfl
  exact absurd h (by decide)

private theorem fromMarked_marked {e : Nat} (es : List Nat) (h : hasFlag e pageFlagCow = true) :
    fromMarked (e :: es) = e :: es :=
  List.dropWhile_cons_of_neg (by rw [h]; decide)

private theorem fromMarked_unmarked {e : Nat} (es : List Nat) (h : hasFlag e pageFlagCow = false) :
    fromMarked (e :: es) = fromMarked es :=
  List.dropWhile_cons_of_pos (by rw [h]; decide)

private theorem copies_cowEntry (f : Frames) {e : Nat} (he : e < 2 ^ 64) (hpres : hasFlag e pageFlagPresent = true)
    (es : List Nat) :
    Copies f (cowEntry e :: es) ↔ Copies f (e :: es) := by
  have hchild := (child_cowEntry he).trans (child_eq_some.2 ⟨hpres, rfl⟩)
  obtain ⟨hpres', halign⟩ := child_eq_some.1 hchild
  rw [Copies, Copies, freePage_congr _ (ne_zero_of_present hpres') (ne_zero_of_present hpres) halign.symm]

section

variable {vm : Vm} {roots : List Nat} {r i t : Nat} {q : List Nat} (hs : Sharing vm roots)
  (hr : r ∈ roots) (hp : UserPath (q ++ [i])) (ht : walk (ptEntry vm.mem) child r q = some t)
  (hpres : hasFlag (ptEntry vm.mem t i) pageFlagPresent = true)
include hs hr hp ht hpres

private theorem unshare_frames {dup : Mem → Nat → Nat → Mem} (hd : Dup dup (q ++ [i]).length)
    (hcow : hasFlag (ptEntry vm.mem t i) pageFlagCow = true) (h0 : (allocPage vm.frames).2 ≠ 0) :
    (unshare dup vm t i).2 = true ∧
      (unshare dup vm t i).1.frames = freePage (allocPage vm.frames).1 (ptEntry vm.mem t i) := by
  have hreach : Reach vm.mem r (q ++ [i]) (alignDown (ptEntry vm.mem t i) pageSize) :=
    ⟨hp, by rw [walk_append_of ht, walk_singleton, child_eq_some.2 ⟨hpres, rfl⟩]⟩
  obtain ⟨hnd, hnle, hn, -⟩ := (allocPage_spec hs.wf).2.resolve_left fun h => h0 h.1
  unfold unshare
  rw [if_neg (by simp [hcow])]
  generalize allocPage vm.frames = a at *
  have hn64 : a.2 < 2 ^ 64 := by
    simp only [pageSize] at hnle
    omega
  obtain ⟨hnroot, hnreach⟩ := hs.fresh hn
  have hnf : a.2 ≠ alignDown (ptEntry vm.mem t i) pageSize := fun h => hnreach r hr _ (h ▸ hreach)
  have hnt : a.2 ≠ t := by
    intro h
    rcases visited hp ht with ⟨-, h'⟩ | h'
    · exact hnroot (h ▸ h' ▸ hr)
    · exact hnreach r hr _ (h ▸ h')
  have hent :=
    (retarget_of_dup hd (m := vm.mem) (hp.lt i (by simp)) (hs.visited_aligned hr hp ht) hreach.aligned hnd hn64 hnt
    hnf).1
  simp only [h0, ↓reduceIte, hent]
  exact ⟨trivial, trivial⟩

omit hs hr hp ht hpres in
private theorem unshare_noMemory {dup : Mem → Nat → Nat → Mem}
    (hcow : hasFlag (ptEntry vm.mem t i) pageFlagCow = true)
    (h0 : (allocPage vm.frames).2 = 0) : (unshare dup vm t i).2 = false := by
  unfold unshare
  rw [if_neg (by rw [hcow]; decide)]
  dsimp only
  rw [if_pos h0]

end

/-- One level: the copies from a table on are the copy of the entry and those from the next table on. -/
private theorem copiesFrom_cons {vm : Vm} {roots : List Nat} {r i j t : Nat} {q p : List Nat} (hs : Sharing vm roots)
    (hr : r ∈ roots)
    (hp : UserPath (q ++ i :: j :: p)) (ht : walk (ptEntry vm.mem) child r q = some t) (hpriv : Private vm.mem r q)
    (hpres : hasFlag (ptEntry vm.mem t i) pageFlagPresent = true) :
    CopiesFrom vm t (i :: j :: p) ↔ (unshare copyTable vm t i).2 = true ∧ CopiesFrom (unshare copyTable vm t i).1
      (alignDown (ptEntry (unshare copyTable vm t i).1.mem t i) pageSize) (j :: p) := by
  have hsplit : q ++ i :: j :: p = (q ++ [i]) ++ j :: p := by simp
  have hpi : UserPath (q ++ [i]) := (hsplit ▸ hp).left (by simp)
  have hlen : (q ++ [i]).length < 4 := by
    have hl := hp.len
    rw [hsplit, List.length_append, List.length_cons] at hl
    omega
  have hchild : child (ptEntry vm.mem t i) = some (alignDown (ptEntry vm.mem t i) pageSize) :=
    child_eq_some.2 ⟨hpres, rfl⟩
  have hwalk : walk (ptEntry vm.mem) child t (i :: j :: p) =
      walk (ptEntry vm.mem) child (alignDown (ptEntry vm.mem t i) pageSize) (j :: p) := by
    rw [walk_cons, hchild, Option.bind_some]
  have htrail : trail (ptEntry vm.mem) child t (i :: j :: p) =
      ptEntry vm.mem t i :: trail (ptEntry vm.mem) child (alignDown (ptEntry vm.mem t i) pageSize) (j :: p) := by
    rw [trail_cons, hchild, Option.elim_some]
  cases hcow : hasFlag (ptEntry vm.mem t i) pageFlagCow with
  | false =>
    have hiff : CopiesFrom vm t (i :: j :: p) ↔ CopiesFrom vm (alignDown (ptEntry vm.mem t i) pageSize) (j :: p) := by
      have hdrop := fromMarked_unmarked
        (trail (ptEntry vm.mem) child (alignDown (ptEntry vm.mem t i) pageSize) (j :: p)) hcow
      rw [← htrail] at hdrop
      constructor
      · rintro ⟨hmapped, hmarked, hmemory⟩
        rw [hwalk] at hmapped
        rw [hdrop] at hmarked hmemory
        exact ⟨hmapped, hmarked, hmemory⟩
      · rintro ⟨hmapped, hmarked, hmemory⟩
        rw [← hwalk] at hmapped
        rw [← hdrop] at hmarked hmemory
        exact ⟨hmapped, hmarked, hmemory⟩
    rw [unshare_unmarked hcow, hiff]
    exact (and_iff_right rfl).symm
  | true =>
    have hdrop := fromMarked_marked
      (trail (ptEntry vm.mem) child (alignDown (ptEntry vm.mem t i) pageSize) (j :: p)) hcow
    rw [← htrail] at hdrop
    by_cases h0 : (allocPage vm.frames).2 = 0
    · refine ⟨fun h => ?_, fun h => ?_⟩
      · have hmemory := h.memory
        rw [hdrop, htrail] at hmemory
        exact absurd h0 hmemory.1
      · rw [unshare_noMemory hcow h0] at h
        cases h.1
    obtain ⟨hdone, hframes⟩ := unshare_frames hs hr hpi ht hpres (dup_copyTable hlen) hcow h0
    rcases unshare_cases hs hr hpi ht hpres (dup_copyTable hlen) with
      ⟨hplain, -⟩ | ⟨frames, -, he, -⟩ | ⟨m', frames, n, -, he, -, -, hn, hn64, hnd, -, hm, -⟩
    · rw [hcow] at hplain
      cases hplain
    · rw [he] at hdone
      cases hdone
    rw [he] at hframes ⊢
    have hnext : alignDown (ptEntry m' t i) pageSize = n := by
      have hd' := child_copiedEntry (ptEntry vm.mem t i) hn64 hnd hpres
      rw [hm.entry, ← (child_eq_some.1 hd').2]
    obtain ⟨hself, hselftrail⟩ := retarget_self hs hr hpi ht hpriv hchild hn hn64 hnd hm
    obtain ⟨hbelow, rest, hold, hnew⟩ := retarget_below hs hr hpi ht hpriv hchild hn hn64 hnd hm hp
    have hbefore : walk (ptEntry vm.mem) child r (q ++ [i]) = some (alignDown (ptEntry vm.mem t i) pageSize) := by
      rw [walk_append_of ht, walk_singleton, hchild]
    have hbeforetrail :
      trail (ptEntry vm.mem) child r (q ++ [i]) = trail (ptEntry vm.mem) child r q ++ [ptEntry vm.mem t i] := by
      rw [trail_append ht, trail_singleton]
    rw [hsplit, walk_append_of hself, walk_append_of hbefore] at hbelow
    rw [hsplit, trail_append hself, hselftrail, List.append_assoc] at hnew
    rw [hsplit, trail_append hbefore, hbeforetrail, List.append_assoc] at hold
    have hnew' : trail (ptEntry m') child n (j :: p) = _ := (List.cons.inj (List.append_cancel_left hnew)).2
    have hold' : trail (ptEntry vm.mem) child (alignDown (ptEntry vm.mem t i) pageSize) (j :: p) = _ :=
      (List.cons.inj (List.append_cancel_left hold)).2
    dsimp only at hframes ⊢
    rw [hnext]
    generalize hg : ptEntry vm.mem (alignDown (ptEntry vm.mem t i) pageSize) j = e at hold' hnew'
    have he64 : e < 2 ^ 64 := hg ▸ ptEntry_lt _ _ _
    -- The first entry of the copied table is marked.
    have hmarked (hmapped : (walk (ptEntry vm.mem) child (alignDown (ptEntry vm.mem t i) pageSize) (j :: p)).isSome) :
        hasFlag e pageFlagPresent = true ∧ sharedEntry e = cowEntry e := by
      obtain ⟨g, hw⟩ := Option.isSome_iff_exists.1 hmapped
      have hpe : hasFlag e pageFlagPresent = true := present_of_mem_trail hw (hold' ▸ List.mem_cons_self)
      exact ⟨hpe, if_pos hpe⟩
    constructor
    · intro h
      have hmapped := h.mapped
      rw [hwalk] at hmapped
      obtain ⟨hpe, hshared⟩ := hmarked hmapped
      have hdrop' := fromMarked_marked rest (cowEntry_cow he64)
      rw [← hshared, ← hnew'] at hdrop'
      have hmemory := h.memory
      rw [hdrop, htrail, hold'] at hmemory
      rw [← hbelow] at hmapped
      refine ⟨rfl, hmapped, ?_, ?_⟩
      · change fromMarked (trail (ptEntry m') child n (j :: p)) ≠ []
        rw [hdrop', hnew']
        exact List.cons_ne_nil _ _
      · change Copies frames (fromMarked (trail (ptEntry m') child n (j :: p)))
        rw [hdrop', hnew', hshared, copies_cowEntry _ he64 hpe, hframes]
        exact hmemory.2
    · rintro ⟨-, h⟩
      have hmapped : (walk (ptEntry m') child n (j :: p)).isSome := h.mapped
      rw [hbelow] at hmapped
      obtain ⟨hpe, hshared⟩ := hmarked hmapped
      have hdrop' := fromMarked_marked rest (cowEntry_cow he64)
      rw [← hshared, ← hnew'] at hdrop'
      have hmemory : Copies frames (fromMarked (trail (ptEntry m') child n (j :: p))) := h.memory
      rw [hdrop', hnew', hshared, copies_cowEntry _ he64 hpe, hframes] at hmemory
      rw [← hwalk] at hmapped
      refine ⟨hmapped, ?_, ?_⟩
      · rw [hdrop, htrail]
        exact List.cons_ne_nil _ _
      · rw [hdrop, htrail, hold']
        exact ⟨h0, hmemory⟩

private theorem isSome_cons_iff {m : Mem} {t i : Nat} {p : List Nat}
    (h : (walk (ptEntry m) child t (i :: p)).isSome) :
    hasFlag (ptEntry m t i) pageFlagPresent = true := by
  obtain ⟨f, hf⟩ := Option.isSome_iff_exists.1 h
  rw [walk_cons, Option.bind_eq_some_iff] at hf
  obtain ⟨g, hg, -⟩ := hf
  exact (child_eq_some.1 hg).1

private theorem copiesFrom_singleton {vm : Vm} {t i : Nat}
    (hpres : hasFlag (ptEntry vm.mem t i) pageFlagPresent = true) :
    CopiesFrom vm t [i] ↔ hasFlag (ptEntry vm.mem t i) pageFlagCow = true ∧ (allocPage vm.frames).2 ≠ 0 := by
  have htrail : trail (ptEntry vm.mem) child t [i] = [ptEntry vm.mem t i] := trail_singleton
  constructor
  · intro h
    have hmarked := h.marked
    have hmemory := h.memory
    rw [htrail] at hmarked hmemory
    cases hcow : hasFlag (ptEntry vm.mem t i) pageFlagCow with
    | false => exact absurd (fromMarked_unmarked [] hcow) hmarked
    | true =>
      rw [fromMarked_marked [] hcow] at hmemory
      exact ⟨rfl, hmemory.1⟩
  · rintro ⟨hcow, h0⟩
    refine ⟨?_, ?_, ?_⟩
    · rw [walk_singleton, child_eq_some.2 ⟨hpres, rfl⟩]
      rfl
    · rw [htrail, fromMarked_marked [] hcow]
      exact List.cons_ne_nil _ _
    · rw [htrail, fromMarked_marked [] hcow]
      exact ⟨h0, trivial⟩

/-- The levels below the PML4 table copy the page exactly if there is a mark on the way and memory. -/
private theorem faultFrom_handled_iff {vm : Vm} {roots : List Nat} {r t : Nat} {q p : List Nat}
    (hs : Sharing vm roots) (hr : r ∈ roots)
    (hp : UserPath (q ++ p)) (hp0 : p ≠ []) (hq : q ≠ []) (ht : walk (ptEntry vm.mem) child r q = some t)
    (hpriv : Private vm.mem r q) : (faultFrom vm t p).2 = true ↔ CopiesFrom vm t p := by
  induction p generalizing vm q t with
  | nil => exact absurd rfl hp0
  | cons i p ih =>
    by_cases hpres : hasFlag (ptEntry vm.mem t i) pageFlagPresent = true
    case neg =>
      -- an entry that is not present ends the walk before anything is copied
      refine iff_of_false (fun h => ?_) (fun h => hpres (isSome_cons_iff h.mapped))
      have hno := Bool.eq_false_of_not_eq_true hpres
      cases p with
      | nil =>
        rw [faultFrom, if_pos hno] at h
        cases h
      | cons j p =>
        rw [faultFrom, if_pos (.inr hno)] at h
        cases h
    have hno : ¬hasFlag (ptEntry vm.mem t i) pageFlagPresent = false := by rw [hpres]; decide
    cases p with
    | nil =>
      rw [copiesFrom_singleton hpres, faultFrom, if_neg hno]
      cases hcow : hasFlag (ptEntry vm.mem t i) pageFlagCow with
      | false =>
        rw [if_pos rfl]
        exact ⟨nofun, fun h => nomatch h.1⟩
      | true =>
        rw [if_neg (by decide)]
        by_cases h0 : (allocPage vm.frames).2 = 0
        · rw [unshare_noMemory hcow h0]
          exact ⟨nofun, fun h => absurd h0 h.2⟩
        · refine iff_of_true ?_ ⟨rfl, h0⟩
          unfold unshare
          simp only [hcow, h0, Bool.true_eq_false, ↓reduceIte]
    | cons j p =>
      have hsplit : q ++ i :: j :: p = (q ++ [i]) ++ j :: p := by simp
      have hpi : UserPath (q ++ [i]) := (hsplit ▸ hp).left (by simp)
      have hlen : q.length ≤ 2 := by
        have hl := hp.len
        rw [List.length_append, List.length_cons, List.length_cons] at hl
        omega
      -- user memory has no large pages
      have hsize : hasFlag (ptEntry vm.mem t i) pageFlagSize = false := by
        have hreach : Reach vm.mem r (q ++ [i]) (alignDown (ptEntry vm.mem t i) pageSize) :=
          ⟨hpi, by rw [walk_append_of ht, walk_singleton, child_eq_some.2 ⟨hpres, rfl⟩]⟩
        have hpos := List.length_pos_iff.2 hq
        refine hs.small r hr _ _ hreach ?_ ?_ _ ?_
        · rw [List.length_append, List.length_singleton]
          omega
        · rw [List.length_append, List.length_singleton]
          omega
        · rw [trail_append ht, trail_singleton, List.getLast?_append, List.getLast?_singleton]
          rfl
      have hlevel : (q ++ [i]).length < 4 := by
        rw [List.length_append, List.length_singleton]
        omega
      -- the entry is led to a copy, and the walk goes on from there
      obtain ⟨hun, hnext⟩ := unshare_spec hs hr hpi ht hpriv hpres (dup_copyTable hlevel)
      rw [copiesFrom_cons hs hr hp ht hpriv hpres, faultFrom, if_neg (by rw [hsize, hpres]; decide)]
      cases hdone : (unshare copyTable vm t i).2 with
      | false =>
        rw [if_pos rfl, hdone]
        exact ⟨nofun, fun h => nomatch h.1⟩
      | true =>
        obtain ⟨hwalk, hprivate⟩ := hnext hdone
        rw [if_neg (by decide), ih hun.sharing (hsplit ▸ hp) (List.cons_ne_nil _ _) (by simp) hwalk hprivate]
        exact (and_iff_right rfl).symm

theorem SignExtended.lt {v : Nat} (h : SignExtended v) (hlow : pml4tIndex v < 2 ^ 8) : v < 2 ^ 47 := by
  have hindex : pml4tIndex v = v / 2 ^ 39 % 512 := index_eq v 39
  have hbit : pml4tIndex v &&& 0x100 = 0 := by
    rw [show (0x100 : Nat) = 2 ^ 8 from rfl, Nat.and_two_pow, Nat.testBit_lt_two_pow hlow]
    rfl
  rw [SignExtended, hbit, if_neg (by decide), Nat.shiftRight_eq_div_pow] at h
  omega

private theorem intPageFault_handled_iff {vm : Vm} {roots : List Nat} {r v : Nat} (hs : Sharing vm roots)
    (hr : r ∈ roots) (hkernel : ∀ w, 256 ≤ pml4tIndex w → Unmarked vm.mem r w) :
    (intPageFault vm r v).2 = true ↔ CopyFault vm r v := by
  by_cases hhigh : 256 ≤ pml4tIndex v
  · have hun := hkernel v hhigh
    rw [intPageFault_unmarked hun]
    refine iff_of_false nofun fun h => h.2.marked ?_
    exact List.dropWhile_eq_nil_iff.2 fun e he => by rw [hun e he]; rfl
  rw [intPageFault_eq]
  by_cases hother : v >>> 48 ≠ if pml4tIndex v &&& 0x100 ≠ 0 then 0xffff else 0
  · rw [if_pos hother]
    exact iff_of_false nofun fun h => hother h.1
  have hsign : SignExtended v := not_not.1 hother
  rw [if_neg hother, CopyFault, and_iff_right hsign]
  have huser : UserPath (userPath v) := userPath_user (hsign.lt (Nat.lt_of_not_le hhigh))
  unfold userPath at huser ⊢
  by_cases hpres : hasFlag (ptEntry vm.mem r (pml4tIndex v)) pageFlagPresent = true
  case neg =>
    rw [if_pos (Bool.eq_false_of_not_eq_true hpres)]
    exact iff_of_false nofun fun h => hpres (isSome_cons_iff h.mapped)
  have hpriv : Private vm.mem r [] := fun e he => absurd he List.not_mem_nil
  obtain ⟨hun, hnext⟩ := unshare_spec (q := []) hs hr (huser.left (p := [_]) (by simp)) (walk_nil r) hpriv hpres
    (dup_copyTable (by simp))
  rw [if_neg (by rw [hpres]; decide), copiesFrom_cons (q := []) hs hr huser (walk_nil r) hpriv hpres]
  cases hdone : (unshare copyTable vm r (pml4tIndex v)).2 with
  | false =>
    rw [if_pos rfl, hdone]
    exact ⟨nofun, fun h => nomatch h.1⟩
  | true =>
    obtain ⟨hwalk, hprivate⟩ := hnext hdone
    rw [if_neg (by decide), and_iff_right rfl]
    exact faultFrom_handled_iff (q := [pml4tIndex v]) hun.sharing hr huser (List.cons_ne_nil _ _)
      (by simp) hwalk hprivate

/-! ### The entries that change -/

/-- An entry in the user half of an address space after a fault that is present, writable and not as it was before. -/
structure MadeWritable (vm vm' : Vm) (r : Nat) (q : List Nat) (i t : Nat) : Prop where
  path : UserPath (q ++ [i])
  table : walk (ptEntry vm'.mem) child r q = some t
  changed : ptEntry vm'.mem t i ≠ ptEntry vm.mem t i
  present : hasFlag (ptEntry vm'.mem t i) pageFlagPresent = true
  writable : hasFlag (ptEntry vm'.mem t i) pageFlagRw = true

/-- Among the entries that have changed, those that lead to a table or page of another address space too are not
writable. -/
def ChangesDisciplined (vm vm' : Vm) (roots : List Nat) : Prop :=
  ∀ r ∈ roots, ∀ q i t, MadeWritable vm vm' r q i t →
    ∀ r' ∈ roots, ∀ p, Reach vm'.mem r' p (alignDown (ptEntry vm'.mem t i) pageSize) → r' = r

def ChangesPrivate (vm vm' : Vm) (roots : List Nat) : Prop :=
  ∀ r ∈ roots, ∀ q i t, MadeWritable vm vm' r q i t → Private vm'.mem r (q ++ [i])

private theorem ChangesPrivate.disciplined {vm vm' : Vm} {roots : List Nat} (hs : Sharing vm' roots)
    (h : ChangesPrivate vm vm' roots) :
    ChangesDisciplined vm vm' roots := by
  intro r hr q i t hw r' hr' p hreach
  have hown : Reach vm'.mem r (q ++ [i]) (alignDown (ptEntry vm'.mem t i) pageSize) :=
    ⟨hw.path, by rw [walk_append_of hw.table, walk_singleton, child_eq_some.2 ⟨hw.present, rfl⟩]⟩
  obtain rfl := hs.unique r hr r' hr' _ _ _ hown hreach
  exact hs.owner r hr r' hr' _ _ hown (h r hr q i t hw) hreach

theorem MadeWritable.before {vm vm' vm'' : Vm} {r i t : Nat} {q : List Nat} (h : MadeWritable vm vm'' r q i t)
    (ht : walk (ptEntry vm'.mem) child r q = some t) (hsame : ptEntry vm''.mem t i = ptEntry vm'.mem t i) :
    MadeWritable vm vm' r q i t := by
  obtain ⟨hp, -, hchanged, hpresent, hwritable⟩ := h
  rw [hsame] at hchanged hpresent hwritable
  exact ⟨hp, ht, hchanged, hpresent, hwritable⟩

private theorem ChangesPrivate.retarget {vm vm' vm'' : Vm} {roots : List Nat} {r i t f n : Nat} {q : List Nat}
    (h : ChangesPrivate vm vm' roots) (hs : Sharing vm' roots) (hr : r ∈ roots) (hp : UserPath (q ++ [i]))
    (ht : walk (ptEntry vm'.mem) child r q = some t) (hpriv : Private vm'.mem r q)
    (hchild : child (ptEntry vm'.mem t i) = some f) (hcow : hasFlag (ptEntry vm'.mem t i) pageFlagCow = true)
    (hn : vm'.frames.count (n / pageSize) = 0) (hn64 : n < 2 ^ 64) (hdvd : pageSize ∣ n)
    (hm : Retarget vm'.mem vm''.mem t i f n (q ++ [i]).length) : ChangesPrivate vm vm'' roots := by
  intro r₁ hr₁ q₁ i₁ t₁ hw
  have hi₁ : i₁ < 512 := hw.path.lt i₁ (by simp)
  obtain ⟨hroot, hreach⟩ := hs.fresh hn
  obtain ⟨hself, -⟩ := retarget_self hs hr hp ht hpriv hchild hn hn64 hdvd hm
  -- The entries of the copied table are not writable.
  by_cases hcopy : t₁ = n
  · subst hcopy
    have hreach₁ : Reach vm''.mem r₁ q₁ t₁ := by
      rcases visited hw.path hw.table with ⟨-, rfl⟩ | h₁
      · exact absurd hr₁ hroot
      · exact h₁
    rcases (retarget_reach hs hr hp ht hpriv hchild hn hn64 hdvd hm hr₁).1 hreach₁ with ⟨-, rfl, -⟩ | ⟨-, h₁⟩
    · have hlen : (q ++ [i]).length < 4 := by
        have hl := hw.path.len
        rw [List.length_append, List.length_singleton] at hl
        omega
      have hentry := hm.table hlen i₁ hi₁
      have hwritable := hw.writable
      have hpresent := hw.present
      rw [hentry, sharedEntry] at hwritable hpresent
      split at hwritable
      · rw [cowEntry_rw (ptEntry_lt _ _ _)] at hwritable
        cases hwritable
      · exact absurd hwritable (by decide)
    · exact absurd h₁ (hreach r₁ hr₁ _)
  have hdvd₁ : pageSize ∣ t₁ := by
    rcases visited hw.path hw.table with ⟨-, rfl⟩ | h₁
    · exact (hs.root _ hr₁).1
    · exact h₁.aligned
  -- The walk to the table is the one before the copy.
  have hbefore : walk (ptEntry vm'.mem) child r₁ q₁ = some t₁ := by
    rcases visited hw.path hw.table with ⟨rfl, rfl⟩ | h₁
    · rfl
    · rcases (retarget_reach hs hr hp ht hpriv hchild hn hn64 hdvd hm hr₁).1 h₁ with ⟨-, -, heq⟩ | ⟨-, h₁⟩
      · exact absurd heq hcopy
      · exact h₁.walk
  rcases retarget_walk hs hr hp ht hpriv hchild hn hn64 hdvd hm hr₁ hw.path with
    ⟨hother, -, htrail⟩ | ⟨rfl, heq, -, -⟩ | ⟨rfl, -, -, j, rest, hold, -⟩
  · have hne : ¬(t₁ = t ∧ i₁ = i) := by
      rintro ⟨rfl, rfl⟩
      obtain ⟨rfl, rfl⟩ := hs.visited_unique hr hr₁ hp hw.path ht hbefore hpriv
      exact hother ⟨rfl, [], rfl⟩
    have hsame := hm.look t₁ i₁ hdvd₁ hi₁ hcopy hne
    have hw' := hw.before hbefore hsame
    rw [Private, htrail]
    exact h r₁ hr₁ q₁ i₁ t₁ hw'
  · rw [heq]
    exact retarget_private hs hr hp ht hpriv hchild hn hn64 hdvd hm
  · have hne : ¬(t₁ = t ∧ i₁ = i) := by
      rintro ⟨rfl, rfl⟩
      obtain ⟨-, rfl⟩ := hs.visited_unique hr hr₁ hp hw.path ht hbefore hpriv
      have hl := congrArg List.length hold
      rw [trail_append ht, trail_singleton, List.length_append, List.length_append, List.length_singleton,
        List.length_cons, List.length_cons] at hl
      omega
    have hsame := hm.look t₁ i₁ hdvd₁ hi₁ hcopy hne
    have hw' := hw.before hbefore hsame
    -- The way goes through the entry that was marked.
    have hmark := h r₁ hr₁ q₁ i₁ t₁ hw' (ptEntry vm'.mem t i) (hold ▸ by simp)
    rw [hcow] at hmark
    cases hmark

/-- A page fault in one address space makes no shared table or page writable. -/
private theorem intPageFault_disciplined {vm : Vm} {roots : List Nat} {r v : Nat} (hs : Sharing vm roots)
    (hr : r ∈ roots) (hkernel : ∀ w, 256 ≤ pml4tIndex w → Unmarked vm.mem r w) :
    ChangesDisciplined vm (intPageFault vm r v).1 roots := by
  have hnone : ChangesPrivate vm vm roots := fun _ _ _ _ _ hw => absurd rfl hw.changed
  by_cases hlow : v < 2 ^ 47
  case neg =>
    have hsame : (intPageFault vm r v).1 = vm := by
      by_cases hhigh : 256 ≤ pml4tIndex v
      · rw [intPageFault_unmarked (hkernel v hhigh)]
      · have hother : ¬SignExtended v := fun hsign => hlow (hsign.lt (Nat.lt_of_not_le hhigh))
        rw [intPageFault_eq, if_pos (show v >>> 48 ≠ _ from hother)]
    rw [hsame]
    exact hnone.disciplined hs
  have hrule : Sharing (intPageFault vm r v).1 roots ∧ ChangesPrivate vm (intPageFault vm r v).1 roots := by
    refine intPageFault_rule (P := fun vm' => Sharing vm' roots ∧ ChangesPrivate vm vm' roots) hs hr hlow ?_
      ⟨hs, hnone⟩
    rintro vm' dup q i rest t hs' ⟨-, h⟩ hsplit ht hpriv hpres hd
    have hp : UserPath (q ++ [i]) := by
      have hp := userPath_user hlow
      rw [hsplit, show q ++ i :: rest = (q ++ [i]) ++ rest by simp] at hp
      exact hp.left (by simp)
    refine ⟨(unshare_spec hs' hr hp ht hpriv hpres hd).1.sharing, ?_⟩
    rcases unshare_cases hs' hr hp ht hpres hd with
      ⟨-, he⟩ | ⟨frames, -, he, -⟩ | ⟨m', frames, n, hcow, he, -, -, hn, hn64, hnd, -, hm, -⟩
    · rw [he]
      exact h
    · rw [he]
      exact fun r₁ hr₁ q₁ i₁ t₁ hw => h r₁ hr₁ q₁ i₁ t₁ ⟨hw.path, hw.table, hw.changed, hw.present, hw.writable⟩
    · rw [he]
      exact h.retarget hs' hr hp ht hpriv (child_eq_some.2 ⟨hpres, rfl⟩) hcow hn hn64 hnd hm
  exact hrule.2.disciplined hrule.1

/-! ### The exits -/

/-- Whenever `int_page_fault` returns, the lock has its old value and the entries that have changed keep the
discipline. -/
def FaultRestores (s : FaultState) (pid pml4t err addr : Nat) (roots : List Nat) : Prop :=
  ∀ s', pageFault s pid pml4t err addr = some s' → s'.lock = s.lock ∧ ChangesDisciplined s.vm s'.vm roots

/-- `int_page_fault` restores the lock exactly if it does not return, the fault is not one of user mode, or the lock
was clear before a fault that ends with a copy, or it was set before one that does not.  The discipline is always
kept. -/
theorem faultRestores_iff {s : FaultState} {roots : List Nat} {pml4t : Nat} (hs : Sharing s.vm roots)
    (hr : pml4t ∈ roots) (hkernel : ∀ w, 256 ≤ pml4tIndex w → Unmarked s.vm.mem pml4t w) (pid err addr : Nat) :
    FaultRestores s pid pml4t err addr roots ↔ pid = 0 ∨ hasFlag err pageErrUser = false ∨
      CopyFault s.vm pml4t addr ∧ s.lock = 0 ∨ ¬CopyFault s.vm pml4t addr ∧ s.lock = 1 := by
  have hdisciplined := intPageFault_disciplined (v := addr) hs hr hkernel
  have hhandled := intPageFault_handled_iff (v := addr) hs hr hkernel
  have hnone : ChangesDisciplined s.vm s.vm roots := fun _ _ _ _ _ hw => absurd rfl hw.changed
  unfold FaultRestores pageFault
  by_cases hpid : pid = 0
  · rw [if_pos hpid]
    exact iff_of_true nofun (.inl hpid)
  rw [if_neg hpid, or_iff_right hpid]
  cases huser : hasFlag err pageErrUser with
  | false =>
    rw [if_neg (by decide)]
    refine iff_of_true (fun s' h => ?_) (.inl rfl)
    obtain rfl := Option.some.inj h
    exact ⟨rfl, hnone⟩
  | true =>
    rw [if_pos rfl, or_iff_right (by decide)]
    dsimp only
    by_cases hcopy : CopyFault s.vm pml4t addr
    · rw [if_pos (hhandled.2 hcopy)]
      constructor
      · intro h
        exact .inl ⟨hcopy, (h _ rfl).1.symm⟩
      · rintro (⟨-, hlock⟩ | ⟨hno, -⟩) s' h
        · obtain rfl := Option.some.inj h
          exact ⟨hlock.symm, hdisciplined⟩
        · exact absurd hcopy hno
    · rw [if_neg fun h => hcopy (hhandled.1 h)]
      constructor
      · intro h
        exact .inr ⟨hcopy, (h _ rfl).1.symm⟩
      · rintro (⟨hyes, -⟩ | ⟨-, hlock⟩) s' h
        · exact absurd hyes hcopy
        · obtain rfl := Option.some.inj h
          exact ⟨hlock.symm, hdisciplined⟩

private theorem smallTree_unmarked {w : Nat} (hw : pml4tIndex w ≠ 0) : Unmarked smallTree 0x1000 w := by
  have hentry : ptEntry smallTree 0x1000 (pml4tIndex w) = 0 := by
    have h := smallTree_entry (k := 0) (i := pml4tIndex w) (by decide) ?_
    · rw [if_neg hw] at h
      exact h
    · rw [pml4tIndex, index_eq]
      exact Nat.mod_lt _ (by decide)
  intro e he
  rw [userPath, trail_cons, hentry, child_zero, Option.elim_none, List.mem_singleton] at he
  rw [he]
  rfl

/-- No entry of the kernel half is present after the fork. -/
private theorem forkedTree_unmarked {w : Nat} (hw : 256 ≤ pml4tIndex w) :
    Unmarked (forkedTree 0x14007) 0x10000 w := by
  have hi : pml4tIndex w < 512 := by
    rw [pml4tIndex, index_eq]
    exact Nat.mod_lt _ (by decide)
  have hm := markUser_spec (m := fill (chainTree 0x14007) 0x3000 pageSize 0) (t := 0x10000) (by decide)
  obtain ⟨hout, -⟩ := copiedRoot_spec (markUser (fill (chainTree 0x14007) 0x3000 pageSize 0) 0x10000) (r := 0x10000)
    (n := 0x2000) (0x3000 ||| pageFlagPresent ||| pageFlagRw ||| pageFlagUser) (by decide)
  have hroot : ptEntry (chainTree 0x14007) 0x10000 (pml4tIndex w) = 0 :=
    ((chainTree_chain (Or.inr rfl)).entry 0 (by decide) _ hi).trans (if_neg (by omega))
  have hentry : ptEntry (forkedTree 0x14007) 0x10000 (pml4tIndex w) = 0 := by
    refine (ptEntry_congr hi fun x h1 _ => hout x (by simp only [pageSize]; omega)).trans
      ((hm.upper _ hw hi).trans ?_)
    refine (ptEntry_congr hi fun x h1 _ => fill_outside (by simp only [pageSize]; omega)).trans hroot
  intro e he
  rw [userPath, trail_cons, hentry, child_zero, Option.elim_none, List.mem_singleton] at he
  rw [he]
  rfl

/-- The parent writes to a page after a fork, and the page is copied with all its tables. -/
theorem faultRestores_small : ∃ s s' : FaultState, s.lock = 0 ∧ CopyFault s.vm 0x10000 0x10 ∧
    pageFault s 1 0x10000 7 0x10 = some s' ∧ FaultRestores s 1 0x10000 7 0x10 [0x2000, 0x10000] := by
  obtain ⟨frames, hstep, hb⟩ := chainVm_step (e := 0x14007)
  obtain ⟨hroot, htable⟩ := forkedTree_entry (e := 0x14007) (Or.inr rfl)
  have hs : Sharing ⟨forkedTree 0x14007, frames⟩ [0x2000, 0x10000] := by
    have h := run_sharing (s := ⟨chainVm 0x14007, [0x10000]⟩) (chainVm_tree (Or.inr rfl)).sharing [.fork 0x10000]
    rwa [run, List.foldl_cons, hstep, List.foldl_nil] at h
  obtain ⟨m', frames', hfault, -⟩ :=
    hb.fault (e := 0x14007) (Or.inr rfl) (r := 0x10000) (by decide) (by decide) (by decide)
    (by decide) (by decide) (by decide) (hroot 0 (by decide)).2 (htable 1 (by decide) (by decide))
    (htable 2 (by decide) (by decide)) (htable 3 (by decide) (by decide))
  have hr : 0x10000 ∈ [0x2000, 0x10000] := by simp
  have hcopy : CopyFault ⟨forkedTree 0x14007, frames⟩ 0x10000 0x10 :=
    (intPageFault_handled_iff hs hr fun _ hw => forkedTree_unmarked hw).1 (by rw [hfault])
  refine ⟨⟨⟨forkedTree 0x14007, frames⟩, 0, []⟩, ⟨⟨m', frames'⟩, 0, []⟩, rfl, hcopy, ?_, ?_⟩
  · unfold pageFault
    rw [if_neg (by decide), if_pos (by decide), hfault]
    rfl
  · exact (@faultRestores_iff ⟨⟨forkedTree 0x14007, frames⟩, 0, []⟩ [0x2000, 0x10000] 0x10000 hs hr
      (fun _ hw => forkedTree_unmarked hw) 1 7 0x10).2 (.inr (.inr (.inl ⟨hcopy, rfl⟩)))

private theorem pageFault_refused {s : FaultState} {pid r err v : Nat} (hpid : pid ≠ 0)
    (huser : hasFlag err pageErrUser = true) (h : intPageFault s.vm r v = (s.vm, false)) :
    pageFault s pid r err v = some { s with lock := 1, sent := s.sent ++ [segvInfo err v] } := by
  unfold pageFault
  rw [if_neg hpid, if_pos huser]
  dsimp only
  rw [h]
  rfl

/-- A user program that reads an address which is not mapped leaves the lock set. -/
theorem not_faultRestores : ¬FaultRestores ⟨smallVm, 0, []⟩ 1 0x1000 4 0x8000000000 [0x1000] := by
  intro h
  have hreturns := @pageFault_refused ⟨smallVm, 0, []⟩ 1 0x1000 4 0x8000000000 (show 1 ≠ 0 by decide) (by decide)
    (intPageFault_unmarked (smallTree_unmarked (show pml4tIndex 0x8000000000 ≠ 0 by decide)))
  have hlock := (h _ hreturns).1
  exact absurd hlock (show ¬(1 : Int) = 0 by decide)

end Pml.Arch
