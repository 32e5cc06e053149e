import Pml.Ext2.DirectoryWf
import Pml.Lib.Assoc

/-!
# A directory as a map

The entries of a directory are an association list, block after block.  `ext2_lookup_inode` reads it, `ext2_add_link`
inserts one pair somewhere, and `ext2_unlink_dirent` takes out the first pair with the name.  If a name occurs twice
then `ext2_unlink_dirent` leaves the second entry.
-/

namespace Pml.Ext2

open ByteMemory

/-- Well-formed blocks with valid checksums that hold the entries `es` one block after the other. -/
def Dir.HoldsAll (crc : Crc) (d : Dir) : List (Option Mem) → List (List UInt8 × Nat) → Prop
  | [], es => es = []
  | none :: slots, es => Dir.HoldsAll crc d slots es
  | some m :: slots, es => ∃ es1 es2, es = es1 ++ es2 ∧ d.Holds m es1 ∧
      d.vol.dirBlockChecksumValid crc d.id m = true ∧ Dir.HoldsAll crc d slots es2

section

variable {crc : Crc} {d : Dir} {m : Mem} {o fuel : Nat} {rs : List Dirent} {slots : List (Option Mem)}
  {es : List (List UInt8 × Nat)} {name : List UInt8}

/-! ### The iteration as a search -/

theorem holdsAll_append {before after : List (Option Mem)} {es1 es2 : List (List UInt8 × Nat)}
    (h1 : Dir.HoldsAll crc d before es1) (h2 : Dir.HoldsAll crc d after es2) :
    Dir.HoldsAll crc d (before ++ after) (es1 ++ es2) := by
  induction before generalizing es1 with
  | nil =>
    obtain rfl : es1 = [] := h1
    exact h2
  | cons slot before ih =>
    cases slot with
    | none => exact ih h1
    | some m =>
      obtain ⟨a, b, rfl, hholds, hvalid, hrest⟩ := h1
      exact ⟨a, b ++ es2, List.append_assoc a b es2, hholds, hvalid, ih hrest⟩

/-- The rule for a function that changes no block until it ends the iteration.  `K` holds of the blocks before, their
entries and the private data at each block. -/
theorem dirIterate_search {σ : Type} {func : Dir.Func σ} {empty : Bool}
    {K : List (Option Mem) → List (List UInt8 × Nat) → σ → Prop}
    (hhole : ∀ before es s, K before es s → K (before ++ [none]) es s)
    (hblock : ∀ before es m es' s, d.Holds m es' → d.vol.dirBlockChecksumValid crc d.id m = true → K before es s →
      ∃ m' s' stop, Dir.processDirBlock crc d empty func m s = some (m', s', stop, none) ∧
        (stop = false → m' = m ∧ K (before ++ [some m]) (es ++ es') s'))
    {before : List (Option Mem)} {pre : List (List UInt8 × Nat)} {s : σ} (h : Dir.HoldsAll crc d slots es)
    (hK : K before pre s) :
    ∃ slots' s', Dir.dirIterate crc d empty func slots s = some (slots', s', none) ∧
      ((slots' = slots ∧ K (before ++ slots) (pre ++ es) s') ∨
        ∃ slots1 m m' slots2 es1 es2 es3 s1, slots = slots1 ++ some m :: slots2 ∧
        slots' = slots1 ++ some m' :: slots2 ∧
          es = es1 ++ es2 ++ es3 ∧ Dir.HoldsAll crc d slots1 es1 ∧ d.Holds m es2 ∧
          d.vol.dirBlockChecksumValid crc d.id m = true ∧ Dir.HoldsAll crc d slots2 es3 ∧
          K (before ++ slots1) (pre ++ es1) s1 ∧
          Dir.processDirBlock crc d empty func m s1 = some (m', s', true, none)) := by
  induction slots generalizing before pre es s with
  | nil =>
    obtain rfl : es = [] := h
    refine ⟨[], s, rfl, Or.inl ⟨rfl, ?_⟩⟩
    rwa [List.append_nil, List.append_nil]
  | cons slot slots ih =>
    cases slot with
    | none =>
      obtain ⟨slots', s', hrun, hres⟩ := ih h (hhole before pre s hK)
      refine ⟨none :: slots', s', ?_, ?_⟩
      · rw [Dir.dirIterate, hrun]
        rfl
      · rcases hres with ⟨rfl, hK'⟩ | ⟨a, m, m', b, es1, es2, es3, s1, rfl, rfl, he, ha, hm, hv, hb, hK1, hstop⟩
        · refine Or.inl ⟨rfl, ?_⟩
          rwa [List.append_assoc, List.singleton_append] at hK'
        · refine Or.inr ⟨none :: a, m, m', b, es1, es2, es3, s1, rfl, rfl, he, ha, hm, hv, hb, ?_, hstop⟩
          rwa [List.append_assoc, List.singleton_append] at hK1
    | some m =>
      obtain ⟨e1, e2, rfl, hholds, hvalid, hrest⟩ := h
      obtain ⟨m', s', stop, hstep, hnext⟩ := hblock before pre m e1 s hholds hvalid hK
      cases stop with
      | true =>
        refine ⟨some m' :: slots, s', ?_,
          Or.inr ⟨[], m, m', slots, [], e1, e2, s, rfl, rfl, rfl, rfl, hholds, hvalid, hrest, ?_, hstep⟩⟩
        · rw [Dir.dirIterate, hstep]
        · rwa [List.append_nil, List.append_nil]
      | false =>
        obtain ⟨rfl, hK'⟩ := hnext rfl
        obtain ⟨slots', s'', hrun, hres⟩ := ih hrest hK'
        refine ⟨some m' :: slots', s'', ?_, ?_⟩
        · rw [Dir.dirIterate, hstep]
          simp only [hrun, Option.map_some]
        · rw [List.append_assoc, List.singleton_append] at hres
          rcases hres with ⟨rfl, hK''⟩ | ⟨a, m1, m2, b, es1, es2, es3, s1, rfl, rfl, rfl, ha, hm, hv, hb, hK1, hstop⟩
          · refine Or.inl ⟨rfl, ?_⟩
            rwa [List.append_assoc] at hK''
          · refine Or.inr ⟨some m' :: a, m1, m2, b, e1 ++ es1, es2, es3, s1, rfl, rfl, ?_,
              ⟨e1, es1, rfl, hholds, hvalid, ha⟩, hm, hv, hb, ?_, hstop⟩
            · simp only [List.append_assoc]
            · rwa [List.append_assoc, List.append_assoc, List.singleton_append] at hK1

/-! ### `ext2_lookup_inode` -/

private theorem entries_skip {r : Dirent} (h : ¬(r.name = name ∧ r.ino ≠ 0)) :
    (entries (r :: rs)).lookup name = (entries rs).lookup name := by
  rw [entries_cons, List.lookup_append]
  by_cases h0 : r.ino = 0
  · rw [entries_free h0]
    rfl
  · have hne : (name == r.name) = false := by
      have hname : r.name ≠ name := fun hn => h ⟨hn, h0⟩
      simpa using Ne.symm hname
    simp [entries, h0, List.lookup_cons, hne]

private theorem entries_found {r : Dirent} (h : r.name = name ∧ r.ino ≠ 0) :
    (entries (r :: rs)).lookup name = some r.ino := by
  rw [entries_cons, entries_match h, List.singleton_append, List.lookup_cons_self]

private theorem loop_lookup (hs : d.Sized) (hname : name ≠ []) (hrs : d.Tiled m o rs d.top) (htail : d.HasTail m)
    (hfuel : d.blksize ≤ o + 8 * fuel) :
    d.loop false (Dir.processLookup name) (fuel + 1) o m none false =
      some ⟨m, (entries rs).lookup name, false, ((entries rs).lookup name).isSome, false⟩ := by
  have hend : ∀ rs, (∀ r ∈ rs, ¬(r.name = name ∧ r.ino ≠ 0)) → (entries rs).lookup name = none := fun rs hno =>
    lookup_eq_none_iff.2 (not_mem_entries hno)
  have hshort : ∀ rs, d.Tiled m o rs d.top → (∀ r ∈ rs, r.nameLen % 256 = 0) → (entries rs).lookup name = none :=
    fun rs hrs hzero => hend rs fun r hr hmatch => hname (hmatch.1 ▸ tiled_nameless hrs hzero r hr)
  induction fuel generalizing o rs with
  | zero =>
    rcases tiled_cases hs hrs with ⟨rfl, -⟩ | ⟨_, _, _, _, _, ho⟩ | ⟨ho, hzero⟩
    · exact loop_end hs htail (by omega) hfuel
    · omega
    · rw [hshort rs hrs hzero]
      exact loop_end hs htail (Or.inr ho) hfuel
  | succ fuel ih =>
    rcases tiled_cases hs hrs with ⟨rfl, ho⟩ | ⟨r, rs', rfl, hrec, hrest, ho⟩ | ⟨ho, hzero⟩
    · exact loop_end hs htail (Or.inl ho) hfuel
    · have h8 := hrec.2.eight_le
      have hnext := ih hrest (by omega) fun rs hrs hzero => hend rs fun r hr hmatch =>
        hname (hmatch.1 ▸ tiled_nameless hrs hzero r hr)
      have hino : dInode m o = r.ino := by rw [← hrec.1]; rfl
      have hat : dName m o = r.name := by rw [← hrec.1]; rfl
      rw [loop_tiled hs hrec hrest ho]
      by_cases h0 : r.ino = 0
      · rw [if_pos ⟨h0, rfl⟩, hnext, entries_skip fun hm => hm.2 h0]
      · rw [if_neg fun hc => h0 hc.1, Dir.processLookup, hino, hat]
        by_cases hmatch : r.name = name
        · rw [if_pos hmatch, entries_found ⟨hmatch, h0⟩]
          rfl
        · rw [if_neg hmatch, entries_skip fun hm => hmatch hm.1]
          exact hnext
    · rw [hshort rs hrs hzero]
      exact loop_end hs htail (Or.inr ho) hfuel

private theorem lookupBlock (hs : d.Sized) (hname : name ≠ []) (h : d.Holds m es)
    (hvalid : d.vol.dirBlockChecksumValid crc d.id m = true) :
    Dir.processDirBlock crc d false (Dir.processLookup name) m none =
      some (m, es.lookup name, (es.lookup name).isSome, none) := by
  obtain ⟨rs, hrs, htail, rfl⟩ := h
  unfold Dir.processDirBlock
  rw [if_pos hvalid, loop_lookup hs hname hrs htail (by omega)]
  rfl

private theorem dirIterate_lookup (hs : d.Sized) (hname : name ≠ []) (h : Dir.HoldsAll crc d slots es) :
    Dir.dirIterate crc d false (Dir.processLookup name) slots none = some (slots, es.lookup name, none) := by
  induction slots generalizing es with
  | nil =>
    obtain rfl : es = [] := h
    rfl
  | cons slot slots ih =>
    cases slot with
    | none =>
      rw [Dir.dirIterate, ih h]
      rfl
    | some m =>
      obtain ⟨es1, es2, rfl, hholds, hvalid, hrest⟩ := h
      rw [Dir.dirIterate, lookupBlock hs hname hholds hvalid, List.lookup_append]
      cases hfound : es1.lookup name with
      | some ino => rfl
      | none =>
        simp only [Option.isSome_none, ih hrest, Option.map_some, Option.none_or]

theorem lookupInode_eq (hs : d.Sized) (hname : name ≠ []) (h : Dir.HoldsAll crc d slots es) :
    Dir.lookupInode crc d slots name = some (match es.lookup name with
      | some ino => .ok ino
      | none => .error .ENOENT) := by
  unfold Dir.lookupInode
  rw [dirIterate_lookup hs hname h]
  cases es.lookup name with
  | some ino => rfl
  | none => rfl

/-! ### `ext2_add_link` -/

variable {l : Dir.Link} {s : Dir.LinkCtx} {alloc : Nat → Bool}

theorem dirIterate_link (hs : d.Sized) (hlen : l.name.length ≤ 255) (h : Dir.HoldsAll crc d slots es)
    (hdone : s.done = false) :
    ∃ slots' s', Dir.dirIterate crc d true (Dir.processLink d l) slots s = some (slots', s', none) ∧ s'.err = s.err ∧
      ((s'.done = false ∧ Dir.HoldsAll crc d slots' es) ∨
        (s'.done = true ∧ ∃ l1 l2, es = l1 ++ l2 ∧ Dir.HoldsAll crc d slots' (l1 ++ added l ++ l2))) := by
  induction slots generalizing es s with
  | nil => exact ⟨[], s, rfl, rfl, Or.inl ⟨hdone, h⟩⟩
  | cons slot slots ih =>
    cases slot with
    | none =>
      obtain ⟨slots', s', hrun, herr, hres⟩ := ih h hdone
      refine ⟨none :: slots', s', ?_, herr, hres⟩
      rw [Dir.dirIterate, hrun]
      rfl
    | some m =>
      obtain ⟨es1, es2, rfl, hholds, hvalid, hrest⟩ := h
      obtain ⟨m', s', es1', hblock, herr, hholds', hvalid', hcase⟩ := linkBlock hs hlen hholds hvalid hdone
      rcases hcase with ⟨hd, rfl⟩ | ⟨hd, l1, l2, rfl, rfl⟩
      · obtain ⟨slots', s'', hrun, herr', hres⟩ := ih hrest hd
        refine ⟨some m' :: slots', s'', ?_, herr'.trans herr, ?_⟩
        · rw [Dir.dirIterate, hblock, hd]
          simp only [hrun, Option.map_some]
        · rcases hres with ⟨hd', hall⟩ | ⟨hd', l1, l2, rfl, hall⟩
          · exact Or.inl ⟨hd', _, _, rfl, hholds', hvalid', hall⟩
          · refine Or.inr ⟨hd', es1' ++ l1, l2, (List.append_assoc _ _ _).symm, ?_⟩
            refine ⟨es1', l1 ++ added l ++ l2, ?_, hholds', hvalid', hall⟩
            simp only [List.append_assoc]
      · refine ⟨some m' :: slots, s', ?_, herr, Or.inr ⟨hd, l1, l2 ++ es2, List.append_assoc _ _ _, ?_⟩⟩
        · rw [Dir.dirIterate, hblock, hd]
        · refine ⟨l1 ++ added l ++ l2, es2, ?_, hholds', hvalid', hrest⟩
          simp only [List.append_assoc]

/-- A block of zeros is refused, or it is an empty directory block of 64 KiB. -/
private theorem zeroBlock_cases (crc : Crc) (hs : d.Sized) :
    (d.Holds (fun _ => 0) [] ∧ d.vol.dirBlockChecksumValid crc d.id (fun _ => 0) = true) ∨
    ∀ (func : Dir.Func Dir.LinkCtx) s,
      Dir.processDirBlock crc d true func (fun _ => 0) s = some (fun _ => 0, s, true, some .EUCLEAN) := by
  have hzero : ∀ a n, readLE (fun _ => (0 : UInt8)) a n = 0 := by
    intro a n
    induction n generalizing a with
    | zero => rfl
    | succ n ih =>
      rw [readLE, ih]
      rfl
  rcases csumSize_cases d with ⟨hcsum, hsize⟩ | ⟨hcsum, hsize⟩
  · -- with checksums a block of zeros has neither a tail nor a count and limit
    have htail : ∀ t, d.vol.getDirentTail (fun _ => 0) ≠ .ok t := by
      intro t ht
      unfold Volume.getDirentTail at ht
      simp only [hzero] at ht
      split at ht
      · cases ht
      · split at ht
        · cases ht
        · split at ht
          · cases ht
          · split at ht
            · cases ht
            · rename_i hno
              exact hno (Or.inr (Or.inl (by decide)))
    have hdx : ∀ t, d.vol.getDxCountLimit (fun _ => 0) ≠ .ok t := by
      intro t ht
      have hge := (blksize_ge d.vol.super).1
      unfold Volume.getDxCountLimit Volume.dxOffset at ht
      simp only [hzero] at ht
      rw [if_neg (by omega), if_neg (by decide)] at ht
      cases ht
    refine Or.inr fun func s => ?_
    have hvalid : d.vol.dirBlockChecksumValid crc d.id (fun _ => 0) = false := by
      unfold Volume.dirBlockChecksumValid
      rw [if_pos hcsum]
      cases ht : d.vol.getDirentTail (fun _ => 0) with
      | ok t => exact absurd ht (htail t)
      | error e =>
        cases hx : d.vol.getDxCountLimit (fun _ => 0) with
        | ok t => exact absurd hx (hdx t)
        | error e => rfl
    unfold Dir.processDirBlock
    rw [hvalid]
    rfl
  · have hvalid : d.vol.dirBlockChecksumValid crc d.id (fun _ => 0) = true := by
      unfold Volume.dirBlockChecksumValid
      rw [hcsum]
      rfl
    have hge := hs.ge
    have hle := hs.le
    have hget : getRecLen d.blksize (dRecLen (fun _ => 0) 0) = if d.blksize < 65536 then 0 else d.blksize := by
      rw [dRecLen, hzero]
      unfold getRecLen
      split
      · rfl
      · rfl
    by_cases hsmall : d.blksize < 65536
    · -- a record without a length is an error
      rw [if_pos hsmall] at hget
      refine Or.inr fun func s => ?_
      unfold Dir.processDirBlock
      rw [if_pos hvalid, Dir.loop, if_pos (by omega)]
      simp only [hget]
      rw [if_pos (by omega)]
      rfl
    · -- in a block of 65536 bytes the length 0 stands for the whole block
      rw [if_neg hsmall] at hget
      refine Or.inl ⟨⟨[d.direntAt (fun _ => 0) 0], ⟨⟨rfl, ?_, ?_⟩, ?_⟩, fun h => ?_, ?_⟩, hvalid⟩
      · change getRecLen d.blksize (dRecLen (fun _ => 0) 0) % 4 = 0
        rw [hget]
        exact hs.mod
      · change dirRecLen (dNameLen (fun _ => 0) 0) ≤ getRecLen d.blksize (dRecLen (fun _ => 0) 0)
        rw [hget, dNameLen, hzero]
        exact Nat.le_trans (by decide) hge
      · change 0 + getRecLen d.blksize (dRecLen (fun _ => 0) 0) = d.blksize - d.csumSize
        rw [hget, hsize]
        omega
      · rw [hcsum] at h
        cases h
      · refine entries_free ?_
        exact hzero 0 4

theorem expandDir_holds {i : Nat} {slots' : List (Option Mem)} (hs : d.Sized) (h : Dir.HoldsAll crc d slots es)
    (hexp : Dir.expandDir crc d alloc i slots = some (slots', none)) : Dir.HoldsAll crc d slots' es ∨
      (i = 0 ∧ ∃ rest, slots' = some (fun _ => 0) :: rest ∧ Dir.HoldsAll crc d rest es) := by
  induction slots generalizing i es slots' with
  | nil => cases hexp
  | cons slot slots ih =>
    cases slot with
    | some m =>
      obtain ⟨es1, es2, rfl, hholds, hvalid, hrest⟩ := h
      rw [Dir.expandDir] at hexp
      obtain ⟨⟨rest, e⟩, hrun, hres⟩ := Option.map_eq_some_iff.1 hexp
      cases hres
      rcases ih hrest hrun with hall | ⟨hi, -⟩
      · exact Or.inl ⟨es1, es2, rfl, hholds, hvalid, hall⟩
      · omega
    | none =>
      rw [Dir.expandDir] at hexp
      split at hexp
      · split at hexp
        · obtain ⟨b, hb, rs, hrs, htail, hempty⟩ := newDirBlock_empty hs
          obtain ⟨b', hupd, hrs', htail', hvalid'⟩ := checksumUpdate_tiled crc hs hrs htail
          rw [hb] at hexp
          simp only [hupd, ↓reduceIte] at hexp
          cases hexp
          exact Or.inl ⟨[], es, rfl, ⟨rs, hrs', htail', hempty⟩, hvalid', h⟩
        · rename_i hi
          obtain ⟨⟨rest, e⟩, hrun, hres⟩ := Option.map_eq_some_iff.1 hexp
          cases hres
          rcases ih h hrun with hall | ⟨hi', -⟩
          · exact Or.inr ⟨by omega, rest, rfl, hall⟩
          · omega
      · cases hexp

private theorem addLink_second {slots' : List (Option Mem)} {prev : Nat} (hs : d.Sized) (hlen : l.name.length ≤ 255)
    (h : Dir.HoldsAll crc d slots es)
    (hadd : (match Dir.dirIterate crc d true (Dir.processLink d l) slots ⟨prev, false, none⟩ with
      | none => none
      | some (slots, _, some e) => some (slots, some e)
      | some (slots, ⟨_, _, some e⟩, none) => some (slots, some e)
      | some (slots, ⟨_, true, none⟩, none) => some (slots, none)
      | some (slots, _, none) => some (slots, some Errno.ENOSPC)) = some (slots', none)) :
    ∃ l1 l2, es = l1 ++ l2 ∧ Dir.HoldsAll crc d slots' (l1 ++ added l ++ l2) := by
  obtain ⟨slots1, ⟨prev1, done1, err1⟩, hrun, herr, hres⟩ := dirIterate_link (s := ⟨prev, false, none⟩) hs hlen h rfl
  obtain rfl : err1 = none := herr
  rw [hrun] at hadd
  rcases hres with ⟨hd, -⟩ | ⟨hd, hins⟩
  · obtain rfl : done1 = false := hd
    cases hadd
  · obtain rfl : done1 = true := hd
    cases hadd
    exact hins

private theorem addLink_inserts {slots' : List (Option Mem)} (hs : d.Sized) (hlen : l.name.length ≤ 255)
    (h : Dir.HoldsAll crc d slots es) (hadd : Dir.addLink crc d alloc l slots = some (slots', none)) :
    ∃ l1 l2, es = l1 ++ l2 ∧ Dir.HoldsAll crc d slots' (l1 ++ added l ++ l2) := by
  unfold Dir.addLink at hadd
  split at hadd
  · cases hadd
  · split at hadd
    · cases hadd
    · obtain ⟨slots1, ⟨prev1, done1, err1⟩, hrun, herr, hres⟩ := dirIterate_link (s := ⟨0, false, none⟩) hs hlen h rfl
      obtain rfl : err1 = none := herr
      rw [hrun] at hadd
      rcases hres with ⟨hd, hall⟩ | ⟨hd, hins⟩
      · obtain rfl : done1 = false := hd
        simp only at hadd
        cases hexp : Dir.expandDir crc d alloc 0 slots1 with
        | none =>
          rw [hexp] at hadd
          cases hadd
        | some r =>
          obtain ⟨slots2, e2⟩ := r
          rw [hexp] at hadd
          cases e2 with
          | some e => cases hadd
          | none =>
            simp only at hadd
            -- After the expansion there is room, unless a block of zeros is refused.
            rcases expandDir_holds hs hall hexp with hall2 | ⟨-, rest, rfl, hall2⟩
            · exact addLink_second hs hlen hall2 hadd
            · rcases zeroBlock_cases crc hs with ⟨hholds, hvalid⟩ | hrefused
              · exact addLink_second hs hlen (show Dir.HoldsAll crc d (some (fun _ => 0) :: rest) es from
                  ⟨[], es, rfl, hholds, hvalid, hall2⟩) hadd
              · rw [Dir.dirIterate, hrefused] at hadd
                cases hadd
      · obtain rfl : done1 = true := hd
        cases hadd
        exact hins

/-! ### `ext2_unlink_dirent` -/

variable {vnode : Nat → Option (Bool × Nat)}

private theorem dirIterate_unlink (vnode : Nat → Option (Bool × Nat)) (before : List (Option Mem)) (name : List UInt8)
    (hs : d.Sized) (h : Dir.HoldsAll crc d slots es) (hsearch : Searching s) :
    ∃ slots' s', Dir.dirIterate crc d true (Dir.processUnlink crc d vnode before name) slots s =
        some (slots', s', none) ∧ (s'.done = true → s'.err = none →
      ∃ l1 x l2, es = l1 ++ (name, x) :: l2 ∧ Dir.HoldsAll crc d slots' (l1 ++ l2)) := by
  induction slots generalizing es s with
  | nil =>
    refine ⟨[], s, rfl, fun hd _ => ?_⟩
    rw [hsearch.1] at hd
    cases hd
  | cons slot slots ih =>
    cases slot with
    | none =>
      obtain ⟨slots', s', hrun, hres⟩ := ih h hsearch
      refine ⟨none :: slots', s', ?_, hres⟩
      rw [Dir.dirIterate, hrun]
      rfl
    | some m =>
      obtain ⟨es1, es2, rfl, hholds, hvalid, hrest⟩ := h
      obtain ⟨m', s', stop, hblock, hvalid', hcase⟩ :=
        unlinkBlock vnode before name hs hholds hvalid hsearch.1 hsearch.2
      rcases hcase with ⟨hd, hholds', hnext⟩ | ⟨-, -, rfl, l1, x, l2, rfl, -, hholds'⟩
      · cases stop with
        | true =>
          refine ⟨some m' :: slots, s', ?_, fun hd' => ?_⟩
          · rw [Dir.dirIterate, hblock]
          · rw [hd] at hd'
            cases hd'
        | false =>
          obtain ⟨slots', s'', hrun, hres⟩ := ih hrest ⟨hd, (hnext rfl).1⟩
          refine ⟨some m' :: slots', s'', ?_, fun hd' herr' => ?_⟩
          · rw [Dir.dirIterate, hblock]
            simp only [hrun, Option.map_some]
          · obtain ⟨l1, x, l2, rfl, hall⟩ := hres hd' herr'
            refine ⟨es1 ++ l1, x, l2, (List.append_assoc _ _ _).symm, es1, l1 ++ l2, List.append_assoc _ _ _, hholds',
              hvalid', hall⟩
      · refine ⟨some m' :: slots, s', ?_,
          fun _ _ => ⟨l1, x, l2 ++ es2, ?_, l1 ++ l2, es2, ?_, hholds', hvalid', hrest⟩⟩
        · rw [Dir.dirIterate, hblock]
        · simp only [List.append_assoc, List.cons_append]
        · simp only [List.append_assoc]

private theorem unlinkDirent_erases {slots' : List (Option Mem)} (hs : d.Sized) (h : Dir.HoldsAll crc d slots es)
    (hunlink : Dir.unlinkDirent crc d vnode name slots = some (slots', none)) :
    ∃ l1 x l2, es = l1 ++ (name, x) :: l2 ∧ Dir.HoldsAll crc d slots' (l1 ++ l2) := by
  unfold Dir.unlinkDirent at hunlink
  split at hunlink
  · cases hunlink
  · obtain ⟨slots1, ⟨prev1, done1, err1⟩, hrun, hres⟩ := dirIterate_unlink vnode slots name hs h
      (show Searching ⟨0, false, none⟩ from ⟨rfl, rfl⟩)
    rw [hrun] at hunlink
    cases err1 with
    | some e => cases hunlink
    | none =>
      cases done1 with
      | false => cases hunlink
      | true =>
        cases hunlink
        exact hres rfl rfl

theorem addLink_absent {inode flags : Nat} {slots' : List (Option Mem)} (hs : d.Sized)
    (hname : 1 ≤ name.length ∧ name.length ≤ 255) (hne : name ≠ []) (h : Dir.HoldsAll crc d slots es)
    (hpos : 0 < inode)
    (hlt : inode < 2 ^ 32) (habsent : Dir.lookupInode crc d slots name = some (.error .ENOENT))
    (hadd : Dir.addLink crc d alloc ⟨name, inode, flags⟩ slots = some (slots', none)) :
    ∃ l1 l2, es = l1 ++ l2 ∧ Dir.HoldsAll crc d slots' (l1 ++ (name, inode) :: l2) ∧
    name ∉ (l1 ++ l2).map Prod.fst := by
  obtain ⟨l1, l2, rfl, hall⟩ := addLink_inserts hs (show name.length ≤ 255 from hname.2) h hadd
  have hnew : added ⟨name, inode, flags⟩ = [(name, inode)] := by
    unfold added
    simp only [Nat.mod_eq_of_lt hlt]
    exact entries_match ⟨rfl, Nat.ne_of_gt hpos⟩
  rw [hnew, List.append_assoc, List.singleton_append] at hall
  rw [lookupInode_eq hs hne h] at habsent
  refine ⟨l1, l2, rfl, hall, ?_⟩
  rw [← lookup_eq_none_iff]
  cases hfound : (l1 ++ l2).lookup name with
  | none => rfl
  | some ino =>
    rw [hfound] at habsent
    cases habsent

end

/-! ### The map -/

/-- A directory in a file system that can be mounted.  For a name that is absent, a successful `ext2_add_link` makes
`ext2_lookup_inode` find the inode.  A successful `ext2_unlink_dirent` makes it fail with `ENOENT` if the name occurs
once, where the last link of the directory itself, which also frees its blocks, is not removed.  The lookups of other
names stay, and if no name occurs twice before then none does after. -/
theorem directory_map (crc : Crc) {d : Dir} {count : Nat} (hopen : openfs d.vol.super = some (.ok count))
    {slots : List (Option Mem)} {es : List (List UInt8 × Nat)} (h : Dir.HoldsAll crc d slots es) {name : List UInt8}
    (hname : 1 ≤ name.length ∧ name.length ≤ 255) :
    (∀ inode flags alloc slots', 0 < inode → inode < 2 ^ 32 →
      Dir.lookupInode crc d slots name = some (.error .ENOENT) →
      Dir.addLink crc d alloc ⟨name, inode, flags⟩ slots = some (slots', none) →
      Dir.lookupInode crc d slots' name = some (.ok inode) ∧
      (∀ other, other ≠ [] → other ≠ name → Dir.lookupInode crc d slots' other = Dir.lookupInode crc d slots other) ∧
      ∃ es', Dir.HoldsAll crc d slots' es' ∧ ((es.map Prod.fst).Nodup → (es'.map Prod.fst).Nodup)) ∧
    ∀ vnode slots', (∀ isDir, vnode d.id.ino ≠ some (isDir, 1)) →
      Dir.unlinkDirent crc d vnode name slots = some (slots', none) →
      ((es.map Prod.fst).count name ≤ 1 → Dir.lookupInode crc d slots' name = some (.error .ENOENT)) ∧
      (∀ other, other ≠ [] → other ≠ name → Dir.lookupInode crc d slots' other = Dir.lookupInode crc d slots other) ∧
      ∃ es', Dir.HoldsAll crc d slots' es' ∧ ((es.map Prod.fst).Nodup → (es'.map Prod.fst).Nodup) := by
  have hs := sized_of_openfs hopen
  have hne : name ≠ [] := fun he => by
    rw [he] at hname
    exact absurd hname.1 (by decide)
  constructor
  · intro inode flags alloc slots' hpos hlt habsent hadd
    obtain ⟨l1, l2, rfl, hall, hgone⟩ := addLink_absent hs hname hne h hpos hlt habsent hadd
    refine ⟨?_, fun other ho hother => ?_, _, hall, fun hn => nodup_insert hgone hn⟩
    · rw [lookupInode_eq hs hne hall, lookup_insert_self]
      rw [List.map_append, List.mem_append, not_or] at hgone
      exact hgone.1
    · rw [lookupInode_eq hs ho hall, lookupInode_eq hs ho h, lookup_insert_of_ne hother]
  · intro vnode slots' _ hunlink
    obtain ⟨l1, x, l2, rfl, hall⟩ := unlinkDirent_erases hs h hunlink
    refine ⟨fun hone => ?_, fun other ho hother => ?_, _, hall, nodup_erase⟩
    · rw [lookupInode_eq hs hne hall, lookup_erase_self hone]
    · rw [lookupInode_eq hs ho hall, lookupInode_eq hs ho h, lookup_insert_of_ne hother]

def twiceBlock : Mem :=
  setByte (setByte (liveRecord (writeLE (liveRecord (fun _ => 0) 0 512 9) 0 4 11) 512 512 9) 8 97) 520 97

private theorem twiceBlock_holds : Dir.HoldsAll zeroCrc smallDir [some twiceBlock] [([97], 11), ([97], 1)] := by
  have hrec1 : smallDir.HasRec twiceBlock 0 ⟨11, 512, 1, [97]⟩ := ⟨rfl, by decide, by decide⟩
  have hrec2 : smallDir.HasRec twiceBlock 512 ⟨1, 512, 1, [97]⟩ := ⟨rfl, by decide, by decide⟩
  have htail : smallDir.HasTail twiceBlock := fun hcsum => by cases hcsum
  exact ⟨_, [], (List.append_nil _).symm, ⟨[⟨11, 512, 1, [97]⟩, ⟨1, 512, 1, [97]⟩], ⟨hrec1, hrec2, rfl⟩, htail, rfl⟩,
    rfl, rfl⟩

/-- A third name is added to the block. -/
theorem directory_map_small : ∃ slots', Dir.addLink zeroCrc smallDir (fun _ => true) ⟨[98], 7, 1⟩ [some twiceBlock] =
    some (slots', none) ∧ Dir.lookupInode zeroCrc smallDir slots' [98] = some (.ok 7) := by
  have hopen : openfs smallDir.vol.super = some (.ok 1) := by decide
  obtain ⟨hadd, -⟩ := directory_map zeroCrc hopen twiceBlock_holds (show 1 ≤ [(98 : UInt8)].length ∧ _ by decide)
  exact ⟨_, rfl, (hadd 7 1 (fun _ => true) _ (by decide) (by decide) rfl rfl).1⟩

/-- If a name occurs twice then it is still found after `ext2_unlink_dirent`. -/
theorem not_directory_map : Dir.HoldsAll zeroCrc smallDir [some twiceBlock] [([97], 11), ([97], 1)] ∧
    ∃ slots', Dir.unlinkDirent zeroCrc smallDir (fun ino => some (ino == 2, 2)) [97] [some twiceBlock] = some
    (slots', none) ∧
      Dir.lookupInode zeroCrc smallDir slots' [97] = some (.ok 1) :=
  ⟨twiceBlock_holds, _, rfl, rfl⟩

end Pml.Ext2
