import Pml.Ext2.ReadDir
import Pml.Ext2.Unlink

/-!
# Renaming (`drivers/fs/ext2/inode.c`)

`ext2_rename` removes the new name, makes a link with it and removes the old name.  Each step can fail, and then the
steps before it stay.  If both names are the same entry then the last step removes the link that has just been made.
If they name a directory then the last step fails with `ENOTEMPTY`.
-/

namespace Pml.Ext2

open ByteMemory

/-- What `ext2_link` does to the vnode; nothing is written. -/
def Node.link (n : Node) : Node :=
  { n with nlink := (n.nlink + 1) % 2 ^ 64, linksCount := (n.linksCount + 1) % 2 ^ 16 }

namespace Dir

variable (crc : Crc)

/-- Whether `ext2_lookup` succeeds; `fill` says for which inodes it gets a vnode and can read the inode. -/
def lookup (d : Dir) (fill : Nat → Bool) (slots : List (Option Mem)) (name : List UInt8) : Option Bool :=
  (lookupInode crc d slots name).map fun r =>
    match r with
    | .ok ino => fill ino
    | .error _ => false

/-- `ext2_link`; the inode has number `ino` and the vnode `n`. -/
def link (d : Dir) (alloc fill : Nat → Bool) (t : Tree) (ino : Nat) (n : Node) (name : List UInt8) :
    Option (Tree × Option Errno) :=
  match lookup crc d fill (t.blocks d.id.ino) name with
  | none => none
  | some true => some (t, some .EEXIST)
  | some false =>
    match addLink crc d alloc ⟨name, ino, dirType n.mode⟩ (t.blocks d.id.ino) with
    | none => none
    | some (slots, some e) => some (⟨t.node, Function.update t.blocks d.id.ino slots⟩, some e)
    | some (slots, none) =>
      some (⟨Function.update t.node ino (some n.link), Function.update t.blocks d.id.ino slots⟩, none)

/-- `ext2_rename`; `ENOMEM` stands for an error of `ext2_lookup_or_read`. -/
def rename (olddir newdir : Dir) (alloc fill : Nat → Bool) (t : Tree) (oldname newname : List UInt8) :
    Option (Tree × Option Errno) :=
  match lookupInode crc olddir (t.blocks olddir.id.ino) oldname with
  | none => none
  | some (.error e) => some (t, some e)
  | some (.ok ino) =>
    match unlink crc newdir t newname with
    | none => none
    | some (t, e) =>
      if e ≠ none ∧ e ≠ some .ENOENT then some (t, e)
      else
        match t.node ino with
        | none => some (t, some .ENOMEM)
        | some n =>
          match link crc newdir alloc fill t ino n newname with
          | none => none
          | some (t, some e) => some (t, some e)
          | some (t, none) => unlink crc olddir t oldname

end Dir

section

variable {crc : Crc} {d : Dir} {m : Mem} {slots : List (Option Mem)} {es : List (List UInt8 × Nat)}
    {name : List UInt8}
  {l : Dir.Link} {s : Dir.LinkCtx} {alloc : Nat → Bool}

/-! ### Room for an entry -/

private theorem linkBlock_room {m' : Mem} {s' : Dir.LinkCtx} {stop : Bool} {e : Option Errno} (hs : d.Sized)
    (hname : 1 ≤ l.name.length ∧ l.name.length ≤ 255) (hvalid : d.vol.dirBlockChecksumValid crc d.id m = true)
    (htail : d.HasTail m) (hdone : s.done = false) {rs : List Dirent} (hrs : d.Tiled m 0 rs d.top)
    (hroom : ∃ r ∈ rs, r.HasRoom (dirRecLen l.name.length))
    (h : Dir.processDirBlock crc d true (Dir.processLink d l) m s = some (m', s', stop, e)) : s'.done = true := by
  obtain ⟨p, rs', hloop, -⟩ : ∃ p rs', d.loop true (Dir.processLink d l) (d.blksize + 1) 0 m s false = some p ∧
      LinkPass d l m 0 rs s false p rs' := loop_link hs hname.2 hrs htail hdone (by omega)
  have hpdone := loop_link_room hs hname hrs htail hdone (by omega) hroom hloop
  unfold Dir.processDirBlock at h
  rw [if_pos hvalid, hloop, Option.map_some] at h
  have hstate : s' = p.state := by
    split at h
    · cases h
      rfl
    · split at h
      · dsimp only at h
        split at h
        · cases h
          rfl
        · cases h
          rfl
      · cases h
        rfl
  rw [hstate]
  exact hpdone

/-- If a record of the directory has room for the entry then it is stored. -/
private theorem dirIterate_link_room {slots' : List (Option Mem)} {s' : Dir.LinkCtx} {e : Option Errno} (hs : d.Sized)
    (hname : 1 ≤ l.name.length ∧ l.name.length ≤ 255) (h : Dir.HoldsAll crc d slots es) (hdone : s.done = false)
    (hroom : d.Roomy slots (dirRecLen l.name.length))
    (hrun : Dir.dirIterate crc d true (Dir.processLink d l) slots s = some (slots', s', e)) : s'.done = true := by
  induction slots generalizing es s slots' s' e with
  | nil =>
    obtain ⟨m, hm, -⟩ := hroom
    cases hm
  | cons slot slots ih =>
    cases slot with
    | none =>
      rw [Dir.dirIterate] at hrun
      obtain ⟨⟨a, b, c⟩, hrest, heq⟩ := Option.map_eq_some_iff.1 hrun
      cases heq
      obtain ⟨m, hm, hm'⟩ := hroom
      refine ih h hdone ⟨m, ?_, hm'⟩ hrest
      simpa using hm
    | some m =>
      obtain ⟨es1, es2, rfl, hholds, hvalid, hrest⟩ := h
      obtain ⟨m', s1, es1', hblock, -, -, -, -⟩ := linkBlock hs hname.2 hholds hvalid hdone
      rw [Dir.dirIterate, hblock] at hrun
      cases hd : s1.done with
      | true =>
        rw [hd] at hrun
        cases hrun
        exact hd
      | false =>
        rw [hd] at hrun
        dsimp only at hrun
        obtain ⟨⟨a, b, c⟩, hnext, heq⟩ := Option.map_eq_some_iff.1 hrun
        cases heq
        obtain ⟨m1, hm1, rs, hrs, hr⟩ := hroom
        rcases List.mem_cons.1 hm1 with heq | hm1
        · cases heq
          obtain ⟨rs', hrs', htail, -⟩ := hholds
          rw [linkBlock_room hs hname hvalid htail hdone hrs hr hblock] at hd
          cases hd
        · exact ih hrest hd ⟨m1, hm1, rs, hrs, hr⟩ hnext

private theorem addLink_room (hs : d.Sized) (hname : 1 ≤ l.name.length ∧ l.name.length ≤ 255)
    (hwrite : d.vol.readOnly = false) (hindex : d.indexed = false) (h : Dir.HoldsAll crc d slots es)
    (hroom : d.Roomy slots (dirRecLen l.name.length)) :
    ∃ slots', Dir.addLink crc d alloc l slots = some (slots', none) := by
  obtain ⟨slots', ⟨prev, done, err⟩, hrun, herr, -⟩ := dirIterate_link (s := ⟨0, false, none⟩) hs hname.2 h rfl
  obtain rfl : err = none := herr
  obtain rfl : done = true := dirIterate_link_room hs hname h rfl hroom hrun
  refine ⟨slots', ?_⟩
  unfold Dir.addLink
  rw [hwrite, hindex, hrun]
  rfl

/-! ### An entry that is not added -/

private theorem dirIterate_first {σ : Type} {func : Dir.Func σ} {empty : Bool} {st st' : σ}
    {slots' : List (Option Mem)}
    {e : Option Errno} (h : Dir.dirIterate crc d empty func (some m :: slots) st = some (slots', st', e)) :
    ∃ m' rest, slots' = some m' :: rest := by
  rw [Dir.dirIterate] at h
  split at h
  · cases h
  · cases h
    exact ⟨_, _, rfl⟩
  · obtain ⟨⟨rest, r⟩, -, heq⟩ := Option.map_eq_some_iff.1 h
    cases heq
    exact ⟨_, rest, rfl⟩

private theorem expandDir_fails {i : Nat} {slots' : List (Option Mem)} {e : Errno} (hi : 0 < i)
    (h : Dir.expandDir crc d alloc i slots = some (slots', some e)) : slots' = slots := by
  induction slots generalizing i slots' with
  | nil => cases h
  | cons slot slots ih =>
    cases slot with
    | some m =>
      rw [Dir.expandDir] at h
      obtain ⟨⟨rest, e'⟩, hrun, heq⟩ := Option.map_eq_some_iff.1 h
      cases heq
      rw [ih (Nat.succ_pos i) hrun]
    | none =>
      rw [Dir.expandDir, if_pos hi] at h
      split at h
      · split at h
        · cases h
          rfl
        · dsimp only at h
          split at h
          · cases h
          · cases h
            rfl
      · cases h
        rfl

private theorem expandDir_entries {slots' : List (Option Mem)} {e : Option Errno} (hs : d.Sized)
    (h : Dir.HoldsAll crc d (some m :: slots) es)
    (hexp : Dir.expandDir crc d alloc 0 (some m :: slots) = some (slots', e)) : Dir.HoldsAll crc d slots' es := by
  rw [Dir.expandDir] at hexp
  obtain ⟨⟨rest, e'⟩, hrun, heq⟩ := Option.map_eq_some_iff.1 hexp
  cases heq
  obtain ⟨es1, es2, rfl, hholds, hvalid, hrest⟩ := h
  refine ⟨es1, es2, rfl, hholds, hvalid, ?_⟩
  cases e' with
  | some e =>
    rw [expandDir_fails (Nat.succ_pos 0) hrun]
    exact hrest
  | none =>
    rcases expandDir_holds hs hrest hrun with hall | ⟨hi, -⟩
    · exact hall
    · omega

private theorem addLink_fails {slots' : List (Option Mem)} {e : Errno} (hs : d.Sized) (hlen : l.name.length ≤ 255)
    (h : Dir.HoldsAll crc d (some m :: slots) es)
    (hadd : Dir.addLink crc d alloc l (some m :: slots) = some (slots', some e)) : Dir.HoldsAll crc d slots' es := by
  unfold Dir.addLink at hadd
  split at hadd
  · cases hadd
    exact h
  · split at hadd
    · cases hadd
      exact h
    · obtain ⟨slots1, ⟨prev1, done1, err1⟩, hrun, herr, hres⟩ := dirIterate_link (s := ⟨0, false, none⟩) hs hlen h rfl
      obtain rfl : err1 = none := herr
      obtain ⟨m1, rest1, rfl⟩ := dirIterate_first hrun
      rw [hrun] at hadd
      rcases hres with ⟨hd, hall⟩ | ⟨hd, -⟩
      · obtain rfl : done1 = false := hd
        dsimp only at hadd
        cases hexp : Dir.expandDir crc d alloc 0 (some m1 :: rest1) with
        | none =>
          rw [hexp] at hadd
          cases hadd
        | some r =>
          obtain ⟨slots2, e2⟩ := r
          have hall2 := expandDir_entries hs hall hexp
          rw [hexp] at hadd
          cases e2 with
          | some e2 =>
            cases hadd
            exact hall2
          | none =>
            obtain ⟨slots3, ⟨prev3, done3, err3⟩, hrun3, herr3, hres3⟩ :=
              dirIterate_link (l := l) (s := ⟨prev1, false, none⟩) hs hlen hall2 rfl
            obtain rfl : err3 = none := herr3
            dsimp only at hadd
            rw [hrun3] at hadd
            rcases hres3 with ⟨hd3, hall3⟩ | ⟨hd3, -⟩
            · obtain rfl : done3 = false := hd3
              cases hadd
              exact hall3
            · obtain rfl : done3 = true := hd3
              cases hadd
      · obtain rfl : done1 = true := hd
        cases hadd

/-! ### Counting names -/

def refs (es : List (List UInt8 × Nat)) (ino : Nat) : Nat := (es.map Prod.snd).count ino

private theorem refs_append (es1 es2 : List (List UInt8 × Nat)) (ino : Nat) :
    refs (es1 ++ es2) ino = refs es1 ino + refs es2 ino := by
  unfold refs
  rw [List.map_append, List.count_append]

private theorem refs_insert (l1 l2 : List (List UInt8 × Nat)) (name : List UInt8) (i ino : Nat) :
    refs (l1 ++ (name, i) :: l2) ino = refs (l1 ++ l2) ino + if i = ino then 1 else 0 := by
  rw [refs_append, refs_append]
  unfold refs
  rw [List.map_cons, List.count_cons]
  simp only [beq_iff_eq]
  omega

theorem refs_pos {ino : Nat} (h : (name, ino) ∈ es) : 1 ≤ refs es ino :=
  List.count_pos_iff.2 (List.mem_map.2 ⟨_, h, rfl⟩)

/-- The inode is allocated, and all three link counts are `k`. -/
structure Node.Counted (n : Node) (k : Nat) : Prop where
  used : n.used = true
  nlink : n.nlink = k
  linksCount : n.linksCount = k
  stored : n.stored = k
  lt : k < 2 ^ 16

/-- The vnode with other link counts, which are stored, where the last link frees the inode. -/
def Node.withLinks (n : Node) (nlink linksCount : Nat) : Node :=
  let n := { n with nlink := nlink, linksCount := linksCount }
  let n := if n.nlink = 0 then { n with used := false } else n
  { n with stored := n.linksCount }

-- The arithmetic of `ext2_process_unlink` is kept apart, since the kernel would count up to `2 ^ 64`.
private theorem Node.unlink_eq (n : Node) :
    n.unlink = n.withLinks ((n.nlink + (2 ^ 64 - 1)) % 2 ^ 64) ((n.linksCount + (2 ^ 16 - 1)) % 2 ^ 16) := rfl

private theorem Node.withLinks_eq (n : Node) (nlink linksCount : Nat) :
    n.withLinks nlink linksCount = ⟨n.mode, nlink, linksCount, linksCount, if nlink = 0 then false else n.used⟩ := by
  unfold Node.withLinks
  dsimp only
  split
  · rfl
  · rfl

private theorem Node.unlink_mode (n : Node) : n.unlink.mode = n.mode := by
  rw [Node.unlink_eq, Node.withLinks_eq]

private theorem Node.unlink_counted {n : Node} {k : Nat} (hused : n.used = true)
    (hnlink : (n.nlink + (2 ^ 64 - 1)) % 2 ^ 64 = k) (hlinks : (n.linksCount + (2 ^ 16 - 1)) % 2 ^ 16 = k)
    (hpos : 1 ≤ k)
    (hlt : k < 2 ^ 16) : n.unlink.Counted k := by
  rw [Node.unlink_eq, hnlink, hlinks, Node.withLinks_eq, if_neg (by omega)]
  exact ⟨hused, rfl, rfl, rfl, hlt⟩

theorem Node.Counted.unlink {n : Node} {k : Nat} (h : n.Counted (k + 1)) (hpos : 1 ≤ k) : n.unlink.Counted k := by
  have hlt := h.lt
  refine Node.unlink_counted h.used ?_ ?_ hpos (by omega)
  · rw [h.nlink]
    omega
  · rw [h.linksCount]
    omega

private theorem Node.link_nlink (n : Node) : n.link.nlink = (n.nlink + 1) % 2 ^ 64 := rfl

private theorem Node.link_linksCount (n : Node) : n.link.linksCount = (n.linksCount + 1) % 2 ^ 16 := rfl

private theorem Node.Counted.link_unlink {n : Node} {k : Nat} (h : n.Counted k) (hpos : 1 ≤ k) :
    n.link.unlink.Counted k := by
  have hlt := h.lt
  refine Node.unlink_counted h.used ?_ ?_ hpos hlt
  · rw [Node.link_nlink, h.nlink]
    omega
  · rw [Node.link_linksCount, h.linksCount]
    omega

private theorem ino_of_entry {ino : Nat} (h : Dir.HoldsAll crc d slots es) (hmem : (name, ino) ∈ es) :
    0 < ino ∧ ino < 2 ^ 32 := by
  induction slots generalizing es with
  | nil =>
    obtain rfl : es = [] := h
    cases hmem
  | cons slot slots ih =>
    cases slot with
    | none => exact ih h hmem
    | some m =>
      obtain ⟨es1, es2, rfl, ⟨rs, hrs, -, rfl⟩, -, hrest⟩ := h
      rcases List.mem_append.1 hmem with hmem | hmem
      · obtain ⟨r, hr, he⟩ := List.mem_filterMap.1 hmem
        obtain ⟨o, ho⟩ := exists_placed 0 hr
        obtain ⟨⟨rfl, -⟩, -, -⟩ := hrs.of_mem_placed ho
        split at he
        · cases he
        · rename_i hne
          cases he
          exact ⟨Nat.pos_of_ne_zero hne, readLE_lt m o 4⟩
      · exact ih hrest hmem

end

/-! ### A move -/

def nameCount (olddir newdir : Dir) (others : Nat → Nat) (es1 es2 : List (List UInt8 × Nat)) (ino : Nat) : Nat :=
  others ino + refs es1 ino + if olddir.id.ino = newdir.id.ino then 0 else refs es2 ino

/-- `S_ISDIR` of an inode. -/
def Tree.IsDir (t : Tree) (ino : Nat) : Prop := ∃ n, t.node ino = some n ∧ n.isDir = true

/-- A name of a file. -/
structure FileName (name : List UInt8) : Prop where
  pos : 1 ≤ name.length
  le : name.length ≤ 255
  zero : 0 ∉ name

namespace Dir

variable (crc : Crc) (olddir newdir : Dir)

/-- Two directories of a file system, which can be the same, with the entries `es1` and `es2`.  No name occurs twice.
The link counts are the numbers of names, and the directories have a link more than the one that can be removed. -/
structure Consistent (t : Tree) (es1 es2 : List (List UInt8 × Nat)) (others : Nat → Nat) : Prop where
  vol : newdir.vol = olddir.vol
  same : olddir.id.ino = newdir.id.ino → newdir = olddir
  old : HoldsAll crc olddir (t.blocks olddir.id.ino) es1
  new : HoldsAll crc newdir (t.blocks newdir.id.ino) es2
  oldNames : (es1.map Prod.fst).Nodup
  newNames : (es2.map Prod.fst).Nodup
  first : ∃ m rest, t.blocks newdir.id.ino = some m :: rest
  links : ∀ e ∈ es1 ++ es2, ∃ n, t.node e.2 = some n ∧ n.Counted (nameCount olddir newdir others es1 es2 e.2)
  own : ∀ n, t.node olddir.id.ino = some n ∨ t.node newdir.id.ino = some n → 2 ≤ n.nlink

variable (t : Tree) (oldname newname : List UInt8)

/-- The new name refers to the inode of the old name, which is gone unless it is the new name, and the link counts of
the inode are its number of names. -/
def Moved (others : Nat → Nat) (t' : Tree) : Prop :=
  ∃ ino n es1 es2, lookupInode crc olddir (t.blocks olddir.id.ino) oldname = some (.ok ino) ∧
    lookupInode crc newdir (t'.blocks newdir.id.ino) newname = some (.ok ino) ∧
    ((olddir.id.ino = newdir.id.ino ∧ oldname = newname) ∨
      lookupInode crc olddir (t'.blocks olddir.id.ino) oldname = some (.error .ENOENT)) ∧
    HoldsAll crc olddir (t'.blocks olddir.id.ino) es1 ∧ HoldsAll crc newdir (t'.blocks newdir.id.ino) es2 ∧
    t'.node ino = some n ∧ n.Counted (nameCount olddir newdir others es1 es2 ino)

def Stayed (t' : Tree) : Prop :=
  lookupInode crc olddir (t'.blocks olddir.id.ino) oldname = lookupInode crc olddir (t.blocks olddir.id.ino) oldname ∧
  lookupInode crc newdir (t'.blocks newdir.id.ino) newname = lookupInode crc newdir (t.blocks newdir.id.ino) newname

/-- `ext2_rename` is a move: it returns 0 and the inode has been moved, or it fails and the names stay. -/
def RenameMoves (alloc fill : Nat → Bool) (others : Nat → Nat) : Prop :=
  ∀ t' e, rename crc olddir newdir alloc fill t oldname newname = some (t', e) →
    (e = none → Moved crc olddir newdir t oldname newname others t') ∧
    (e ≠ none → Stayed crc olddir newdir t oldname newname t')

/-- The last step can remove the old name of the inode: it is not a directory, or it is moved to another directory and
the old one has only records with the names `.` and `..`. -/
def OldNameGoes (ino : Nat) : Prop :=
  ¬ t.IsDir ino ∨ (olddir.id.ino ≠ newdir.id.ino ∧ ¬ olddir.OtherRecord (t.blocks olddir.id.ino))

def NoRoom (alloc : Nat → Bool) (ino : Nat) : Prop :=
  ∀ n, t.node ino = some n → ∀ slots,
    addLink crc newdir alloc ⟨newname, ino, dirType n.mode⟩ (t.blocks newdir.id.ino) ≠ some (slots, none)

/-- When `ext2_rename` is a move: the old name is absent, or nothing can be written; the new name is absent, and there
is no room for it or the old name goes; or the new name is a directory that is not removed, or it is not the old name
and can be replaced, where the old name goes or both names are links to a directory. -/
def RenameFine (alloc : Nat → Bool) (es1 es2 : List (List UInt8 × Nat)) : Prop :=
  ∀ ino, es1.lookup oldname = some ino → olddir.vol.readOnly = true ∨
    (es2.lookup newname = none ∧ (NoRoom crc newdir t newname alloc ino ∨ OldNameGoes olddir newdir t ino)) ∨
    ∃ target, es2.lookup newname = some target ∧
      ((t.IsDir target ∧ newdir.OtherRecord (t.blocks newdir.id.ino)) ∨
        (newdir.indexed = false ∧ ¬(olddir.id.ino = newdir.id.ino ∧ oldname = newname) ∧
          (OldNameGoes olddir newdir t ino ∨ (olddir.id.ino ≠ newdir.id.ino ∧ target = ino))))

end Dir

section

variable {crc : Crc} {olddir newdir : Dir} {t t1 t2 : Tree} {es es1 es2 : List (List UInt8 × Nat)}
    {others : Nat → Nat}
  {oldname newname : List UInt8} {alloc fill : Nat → Bool} {ino : Nat} {node : Node}

private theorem FileName.ne_nil {name : List UInt8} (h : FileName name) : name ≠ [] := fun hc => by
  have := h.pos
  rw [hc] at this
  exact absurd this (by decide)

private theorem lookupInode_some {d : Dir} {slots : List (Option Mem)} {name : List UInt8} (hs : d.Sized)
    (hname : FileName name) (h : Dir.HoldsAll crc d slots es) (hlookup : es.lookup name = some ino) :
    Dir.lookupInode crc d slots name = some (.ok ino) := by
  rw [lookupInode_eq hs hname.ne_nil h, hlookup]

private theorem lookupInode_none {d : Dir} {slots : List (Option Mem)} {name : List UInt8} (hs : d.Sized)
    (hname : FileName name) (h : Dir.HoldsAll crc d slots es) (hlookup : es.lookup name = none) :
    Dir.lookupInode crc d slots name = some (.error .ENOENT) := by
  rw [lookupInode_eq hs hname.ne_nil h, hlookup]

private theorem link_eq {d : Dir} {name : List UInt8} (hs : d.Sized) (hname : FileName name)
    (h : Dir.HoldsAll crc d (t.blocks d.id.ino) es) (hlookup : es.lookup name = none) :
    Dir.link crc d alloc fill t ino node name =
      match Dir.addLink crc d alloc ⟨name, ino, dirType node.mode⟩ (t.blocks d.id.ino) with
      | none => none
      | some (slots, some e) => some (⟨t.node, Function.update t.blocks d.id.ino slots⟩, some e)
      | some (slots, none) =>
        some (⟨Function.update t.node ino (some node.link), Function.update t.blocks d.id.ino slots⟩, none) := by
  unfold Dir.link Dir.lookup
  rw [lookupInode_none hs hname h hlookup]
  rfl

/-! ### The new name is removed -/

/-- The state before `ext2_link`: the entries `es` of the new directory do not have the new name. -/
structure Vacant (crc : Crc) (newdir : Dir) (t t1 : Tree) (newname : List UInt8) (ino k : Nat)
    (es2 es : List (List UInt8 × Nat)) : Prop where
  run : ∃ e, Dir.unlink crc newdir t newname = some (t1, e) ∧ ¬(e ≠ none ∧ e ≠ some .ENOENT)
  holds : Dir.HoldsAll crc newdir (t1.blocks newdir.id.ino) es
  gone : es.lookup newname = none
  names : (es.map Prod.fst).Nodup
  rest : ∀ name, name ≠ newname → es.lookup name = es2.lookup name
  refs : refs es2 ino = refs es ino + if es2.lookup newname = some ino then 1 else 0
  blocks : ∀ i, i ≠ newdir.id.ino → t1.blocks i = t.blocks i
  node : ∃ n n1, t.node ino = some n ∧ t1.node ino = some n1 ∧ n1.mode = n.mode ∧
    (1 ≤ k → n.Counted (k + if es2.lookup newname = some ino then 1 else 0) → n1.Counted k)

private theorem vacant_absent (hs : newdir.Sized) (hname : FileName newname) (hwrite : newdir.vol.readOnly = false)
    (h : Dir.HoldsAll crc newdir (t.blocks newdir.id.ino) es2) (hn : (es2.map Prod.fst).Nodup)
    (hlookup : es2.lookup newname = none) (hnode : t.node ino = some node) (k : Nat) :
    Vacant crc newdir t t newname ino k es2 es2 where
  run := ⟨_, unlink_absent hs hname.ne_nil hwrite h hlookup, fun hc => hc.2 rfl⟩
  holds := h
  gone := hlookup
  names := hn
  rest _ _ := rfl
  refs := by
    rw [hlookup]
    rfl
  blocks _ _ := rfl
  node := ⟨node, node, hnode, hnode, rfl, fun _ hc => by rwa [hlookup] at hc⟩

private theorem vacant_removed {target : Nat} {tnode : Node} (hs : newdir.Sized) (hname : FileName newname)
    (hwrite : newdir.vol.readOnly = false) (h : Dir.HoldsAll crc newdir (t.blocks newdir.id.ino) es2)
    (hn : (es2.map Prod.fst).Nodup) (hlookup : es2.lookup newname = some target)
    (htarget : t.node target = some tnode)
    (hok : tnode.isDir = true → ¬ newdir.OtherRecord (t.blocks newdir.id.ino)) (hnode : t.node ino = some node)
    (k : Nat) :
    ∃ t1 es, Vacant crc newdir t t1 newname ino k es2 es ∧
      newdir.Roomy (t1.blocks newdir.id.ino) (dirRecLen newname.length) := by
  obtain ⟨slots', l1, l2, rfl, hall, hroom, hrun⟩ := unlink_removes hs hname.ne_nil hwrite h hlookup htarget hok
  refine ⟨_, l1 ++ l2, ⟨⟨none, hrun, fun hc => hc.1 rfl⟩, ?_, ?_, nodup_erase hn, ?_, ?_, ?_, ?_⟩, ?_⟩
  · dsimp only
    rw [Function.update_self]
    exact hall
  · exact lookup_erase_self (List.nodup_iff_count_le_one.1 hn newname)
  · exact fun name hne => (lookup_insert_of_ne hne).symm
  · rw [refs_insert, hlookup]
    simp only [Option.some.injEq]
  · exact fun i hi => Function.update_of_ne hi _ _
  · by_cases hi : target = ino
    · subst hi
      obtain rfl : tnode = node := Option.some.inj (htarget.symm.trans hnode)
      refine ⟨_, tnode.unlink, hnode, Function.update_self _ _ _, Node.unlink_mode tnode, fun hpos hc => ?_⟩
      rw [hlookup, if_pos rfl] at hc
      exact hc.unlink hpos
    · refine ⟨_, node, hnode, (Function.update_of_ne (Ne.symm hi) _ _).trans hnode, rfl, fun _ hc => ?_⟩
      rw [hlookup, if_neg fun he => hi (Option.some.inj he)] at hc
      exact hc
  · dsimp only
    rw [Function.update_self]
    exact hroom

private theorem rename_vacant {k : Nat} {n1 : Node} (hs : newdir.Sized) (hname : FileName newname)
    (hlookup : Dir.lookupInode crc olddir (t.blocks olddir.id.ino) oldname = some (.ok ino))
    (hv : Vacant crc newdir t t1 newname ino k es2 es) (hnode : t1.node ino = some n1) :
    Dir.rename crc olddir newdir alloc fill t oldname newname =
      match Dir.addLink crc newdir alloc ⟨newname, ino, dirType n1.mode⟩ (t1.blocks newdir.id.ino) with
      | none => none
      | some (slots, some e) => some (⟨t1.node, Function.update t1.blocks newdir.id.ino slots⟩, some e)
      | some (slots, none) => Dir.unlink crc olddir
          ⟨Function.update t1.node ino (some n1.link), Function.update t1.blocks newdir.id.ino slots⟩ oldname := by
  obtain ⟨e, hrun, hgo⟩ := hv.run
  unfold Dir.rename
  rw [hlookup]
  dsimp only
  rw [hrun]
  dsimp only
  rw [if_neg hgo, hnode]
  dsimp only
  rw [link_eq hs hname hv.holds hv.gone]
  cases Dir.addLink crc newdir alloc ⟨newname, ino, dirType n1.mode⟩ (t1.blocks newdir.id.ino) with
  | none => rfl
  | some r =>
    obtain ⟨slots, e⟩ := r
    cases e with
    | none => rfl
    | some e => rfl

/-! ### The old name is removed -/

/-- The state after `ext2_link`. -/
structure Relinked (crc : Crc) (newdir : Dir) (t t2 : Tree) (newname : List UInt8) (ino k : Nat)
    (es2 l1 l2 : List (List UInt8 × Nat)) : Prop where
  holds : Dir.HoldsAll crc newdir (t2.blocks newdir.id.ino) (l1 ++ (newname, ino) :: l2)
  blocks : ∀ i, i ≠ newdir.id.ino → t2.blocks i = t.blocks i
  node : ∃ n n2, t.node ino = some n ∧ t2.node ino = some n2 ∧ n2.mode = n.mode ∧
    (1 ≤ k → n.Counted (k + if es2.lookup newname = some ino then 1 else 0) → n2.unlink.Counted k)

private theorem linked_of_addLink {k : Nat} {n1 : Node} {slots : List (Option Mem)} (hs : newdir.Sized)
    (hname : FileName newname)
    (hv : Vacant crc newdir t t1 newname ino k es2 es) (hnode : t1.node ino = some n1) (hino : 0 < ino ∧ ino < 2 ^ 32)
    (hadd : Dir.addLink crc newdir alloc ⟨newname, ino, dirType n1.mode⟩ (t1.blocks newdir.id.ino) = some
      (slots, none)) :
    ∃ l1 l2, es = l1 ++ l2 ∧ newname ∉ (l1 ++ l2).map Prod.fst ∧ Relinked crc newdir t
      ⟨Function.update t1.node ino (some n1.link), Function.update t1.blocks newdir.id.ino slots⟩ newname ino k es2 l1
      l2 := by
  obtain ⟨l1, l2, rfl, hall, hgone⟩ := addLink_absent hs ⟨hname.pos, hname.le⟩ hname.ne_nil hv.holds hino.1 hino.2
    (lookupInode_none hs hname hv.holds hv.gone) hadd
  refine ⟨l1, l2, rfl, hgone, ?_, fun i hi => ?_, ?_⟩
  · dsimp only
    rw [Function.update_self]
    exact hall
  · dsimp only
    rw [Function.update_of_ne hi]
    exact hv.blocks i hi
  · obtain ⟨n, n1', hn, hn1, hmode, hcount⟩ := hv.node
    obtain rfl : n1' = n1 := Option.some.inj (hn1.symm.trans hnode)
    exact ⟨n, n1'.link, hn, Function.update_self _ _ _, hmode, fun hpos hc => (hcount hpos hc).link_unlink hpos⟩

theorem Relinked.old {k : Nat} {l1 l2 : List (List UInt8 × Nat)}
    (hc : Dir.Consistent crc olddir newdir t es1 es2 others) (hl : Relinked crc newdir t t2 newname ino k es2 l1 l2) :
    (olddir.id.ino = newdir.id.ino → es1 = es2 ∧
      Dir.HoldsAll crc olddir (t2.blocks olddir.id.ino) (l1 ++ (newname, ino) :: l2)) ∧
    (olddir.id.ino ≠ newdir.id.ino → Dir.HoldsAll crc olddir (t2.blocks olddir.id.ino) es1) := by
  refine ⟨fun hsame => ?_, fun hdiff => ?_⟩
  · obtain rfl := hc.same hsame
    exact ⟨holdsAll_unique hc.old hc.new, hl.holds⟩
  · rw [hl.blocks _ hdiff]
    exact hc.old

private theorem last_moves {k : Nat} {l1 l2 : List (List UInt8 × Nat)} (hs : olddir.Sized) (hs' : newdir.Sized)
    (hold : FileName oldname) (hnew : FileName newname) (hwrite : olddir.vol.readOnly = false)
    (hc : Dir.Consistent crc olddir newdir t es1 es2 others)
    (hv : Vacant crc newdir t t1 newname ino k es2 (l1 ++ l2))
    (hgone : newname ∉ (l1 ++ l2).map Prod.fst) (hl : Relinked crc newdir t t2 newname ino k es2 l1 l2)
    (hlookup : es1.lookup oldname = some ino) (hgoes : Dir.OldNameGoes olddir newdir t ino)
    (hne : ¬(olddir.id.ino = newdir.id.ino ∧ oldname = newname))
    (hk : k + (if es2.lookup newname = some ino then 1 else 0) = nameCount olddir newdir others es1 es2 ino)
    (hpos : 1 ≤ k) :
    ∃ t', Dir.unlink crc olddir t2 oldname = some (t', none) ∧
    Dir.Moved crc olddir newdir t oldname newname others t' := by
  obtain ⟨n, n2, hn, hn2, hmode, hcount⟩ := hl.node
  have hmem : (oldname, ino) ∈ es1 := (lookup_eq_some_iff hc.oldNames).1 hlookup
  obtain ⟨n', hn', hcounted⟩ := hc.links (oldname, ino) (List.mem_append_left _ hmem)
  obtain rfl : n' = n := Option.some.inj (hn'.symm.trans hn)
  dsimp only at hcounted
  rw [← hk] at hcounted
  have hfinal := hcount hpos hcounted
  have hnames := nodup_insert (v := ino) hgone hv.names
  have hnewat : newname ∉ l1.map Prod.fst := fun hm => hgone (by
    rw [List.map_append]
    exact List.mem_append_left _ hm)
  have hrefs := hv.refs
  have hlinked := refs_insert l1 l2 newname ino ino
  rw [if_pos rfl] at hlinked
  unfold nameCount at hk
  by_cases hsame : olddir.id.ino = newdir.id.ino
  · -- in one directory the record is removed from the blocks that have the new name already
    have hneq : oldname ≠ newname := fun he => hne ⟨hsame, he⟩
    obtain ⟨rfl, hall⟩ := (hl.old hc).1 hsame
    obtain rfl := hc.same hsame
    rw [if_pos rfl] at hk
    have hfound : (l1 ++ (newname, ino) :: l2).lookup oldname = some ino := by
      rw [lookup_insert_of_ne hneq, hv.rest oldname hneq, hlookup]
    have hfile : n2.isDir = true → ¬ newdir.OtherRecord (t2.blocks newdir.id.ino) := fun hdir => by
      rcases hgoes with hfile | ⟨hdiff, -⟩
      · refine absurd ⟨n', hn, ?_⟩ hfile
        unfold Node.isDir at hdir ⊢
        rwa [← hmode]
      · exact absurd rfl hdiff
    obtain ⟨slots', a1, a2, heq, hall', -, hrun⟩ := unlink_removes hs hold.ne_nil hwrite hall hfound hn2 hfile
    have hnames' := hnames
    rw [heq] at hnames'
    have hrefs' := refs_insert a1 a2 oldname ino ino
    rw [if_pos rfl, ← heq] at hrefs'
    refine ⟨_, hrun, ino, n2.unlink, a1 ++ a2, a1 ++ a2, lookupInode_some hs hold hc.old hlookup, ?_, Or.inr ?_,
      ?_, ?_, Function.update_self _ _ _, ?_⟩
    · dsimp only
      rw [Function.update_self]
      refine lookupInode_some hs hnew hall' ?_
      rw [← lookup_insert_of_ne (v := ino) (Ne.symm hneq), ← heq, lookup_insert_self hnewat]
    · dsimp only
      rw [Function.update_self]
      exact lookupInode_none hs hold hall' (lookup_erase_self (List.nodup_iff_count_le_one.1 hnames' oldname))
    · dsimp only
      rw [Function.update_self]
      exact hall'
    · dsimp only
      rw [Function.update_self]
      exact hall'
    · unfold nameCount
      rw [if_pos rfl]
      have hsum : k = others ino + refs (a1 ++ a2) ino + 0 := by omega
      rw [← hsum]
      exact hfinal
  · -- the blocks of another directory have not changed so far
    have hall := (hl.old hc).2 hsame
    rw [if_neg hsame] at hk
    have hfile : n2.isDir = true → ¬ olddir.OtherRecord (t2.blocks olddir.id.ino) := fun hdir => by
      rcases hgoes with hfile | ⟨-, hno⟩
      · refine absurd ⟨n', hn, ?_⟩ hfile
        unfold Node.isDir at hdir ⊢
        rwa [← hmode]
      · rwa [hl.blocks _ hsame]
    obtain ⟨slots', a1, a2, rfl, hall', -, hrun⟩ := unlink_removes hs hold.ne_nil hwrite hall hlookup hn2 hfile
    have hrefs' := refs_insert a1 a2 oldname ino ino
    rw [if_pos rfl] at hrefs'
    refine ⟨_, hrun, ino, n2.unlink, a1 ++ a2, l1 ++ (newname, ino) :: l2, lookupInode_some hs hold hc.old hlookup,
      ?_, Or.inr ?_, ?_, ?_, Function.update_self _ _ _, ?_⟩
    · dsimp only
      rw [Function.update_of_ne (Ne.symm hsame)]
      exact lookupInode_some hs' hnew hl.holds (lookup_insert_self hnewat)
    · dsimp only
      rw [Function.update_self]
      exact lookupInode_none hs hold hall' (lookup_erase_self (List.nodup_iff_count_le_one.1 hc.oldNames oldname))
    · dsimp only
      rw [Function.update_self]
      exact hall'
    · dsimp only
      rw [Function.update_of_ne (Ne.symm hsame)]
      exact hl.holds
    · unfold nameCount
      rw [if_neg hsame]
      have hsum : k = others ino + refs (a1 ++ a2) ino + refs (l1 ++ (newname, ino) :: l2) ino := by omega
      rw [← hsum]
      exact hfinal

private theorem last_refused {k : Nat} {l1 l2 : List (List UInt8 × Nat)} (hs : olddir.Sized) (hold : FileName oldname)
    (hwrite : olddir.vol.readOnly = false) (hl : Relinked crc newdir t t2 newname ino k es2 l1 l2)
    (h : Dir.HoldsAll crc olddir (t2.blocks olddir.id.ino) es) (hlookup : es.lookup oldname = some ino)
    (hdir : t.IsDir ino) (hother : olddir.OtherRecord (t2.blocks olddir.id.ino)) :
    Dir.unlink crc olddir t2 oldname = some (t2, some .ENOTEMPTY) := by
  obtain ⟨n, n2, hn, hn2, hmode, -⟩ := hl.node
  obtain ⟨n', hn', hdir⟩ := hdir
  obtain rfl : n' = n := Option.some.inj (hn'.symm.trans hn)
  refine unlink_notEmpty hs hold.ne_nil hwrite h hlookup hn2 ?_ hother
  unfold Node.isDir at hdir ⊢
  rwa [hmode]

/-! ### When a move is made -/

private theorem nameCount_rest (hc : Dir.Consistent crc olddir newdir t es1 es2 others)
    (hlookup : es1.lookup oldname = some ino) (hne : ¬(olddir.id.ino = newdir.id.ino ∧ oldname = newname)) :
    ∃ k, 1 ≤ k ∧
      k + (if es2.lookup newname = some ino then 1 else 0) = nameCount olddir newdir others es1 es2 ino := by
  have hmem : (oldname, ino) ∈ es1 := (lookup_eq_some_iff hc.oldNames).1 hlookup
  have hpos := refs_pos hmem
  unfold nameCount
  by_cases hb : es2.lookup newname = some ino
  · rw [if_pos hb]
    have hmem2 : (newname, ino) ∈ es2 := (lookup_eq_some_iff hc.newNames).1 hb
    by_cases hsame : olddir.id.ino = newdir.id.ino
    · obtain rfl := hc.same hsame
      obtain rfl := holdsAll_unique hc.old hc.new
      obtain ⟨l1, l2, rfl⟩ := List.append_of_mem hmem2
      have hrest : (oldname, ino) ∈ l1 ++ l2 := by
        rcases List.mem_append.1 hmem with h | h
        · exact List.mem_append_left _ h
        · rcases List.mem_cons.1 h with h | h
          · exact absurd ⟨hsame, (Prod.mk.inj h).1⟩ hne
          · exact List.mem_append_right _ h
      have hpos' := refs_pos hrest
      rw [refs_insert, if_pos rfl, if_pos rfl]
      exact ⟨others ino + refs (l1 ++ l2) ino, by omega, by omega⟩
    · rw [if_neg hsame]
      have hpos' := refs_pos hmem2
      exact ⟨others ino + refs es1 ino + refs es2 ino - 1, by omega, by omega⟩
  · rw [if_neg hb]
    exact ⟨_, Nat.le_trans hpos (Nat.le_trans (Nat.le_add_left _ _) (Nat.le_add_right _ _)), rfl⟩

private theorem rename_refused {e : Errno}
    (hlookup : Dir.lookupInode crc olddir (t.blocks olddir.id.ino) oldname = some (.ok ino))
    (hrun : Dir.unlink crc newdir t newname = some (t, some e)) (he : e ≠ .ENOENT) :
    Dir.rename crc olddir newdir alloc fill t oldname newname = some (t, some e) := by
  unfold Dir.rename
  rw [hlookup]
  dsimp only
  rw [hrun]
  dsimp only
  rw [if_pos ⟨Option.some_ne_none e, fun hc => he (Option.some.inj hc)⟩]

theorem Dir.Stayed.refl : Dir.Stayed crc olddir newdir t oldname newname t := ⟨rfl, rfl⟩

private theorem stayed_of_entries {slots : List (Option Mem)} (hs : olddir.Sized) (hs' : newdir.Sized)
    (hold : FileName oldname) (hnew : FileName newname) (hc : Dir.Consistent crc olddir newdir t es1 es2 others)
    (h : Dir.HoldsAll crc newdir slots es2) :
    Dir.Stayed crc olddir newdir t oldname newname ⟨t.node, Function.update t.blocks newdir.id.ino slots⟩ := by
  unfold Dir.Stayed
  dsimp only
  rw [Function.update_self, lookupInode_eq hs' hnew.ne_nil h, lookupInode_eq hs' hnew.ne_nil hc.new]
  refine ⟨?_, rfl⟩
  by_cases hsame : olddir.id.ino = newdir.id.ino
  · obtain rfl := hc.same hsame
    rw [Function.update_self, lookupInode_eq hs hold.ne_nil h, lookupInode_eq hs hold.ne_nil hc.new]
  · rw [Function.update_of_ne hsame]

private theorem exists_linked {target : Nat} (alloc fill : Nat → Bool) (k : Nat) (hs' : newdir.Sized)
    (hnew : FileName newname)
    (hwrite : newdir.vol.readOnly = false) (hc : Dir.Consistent crc olddir newdir t es1 es2 others)
    (hfound : Dir.lookupInode crc olddir (t.blocks olddir.id.ino) oldname = some (.ok ino))
    (hlookup : es1.lookup oldname = some ino) (hb : es2.lookup newname = some target)
    (hok : ¬(t.IsDir target ∧ newdir.OtherRecord (t.blocks newdir.id.ino))) :
    ∃ t1 es, Vacant crc newdir t t1 newname ino k es2 es ∧
      (newdir.indexed = true → ∃ t', Dir.rename crc olddir newdir alloc fill t oldname newname = some
        (t', some .ENOTSUP) ∧ t'.blocks newdir.id.ino = t1.blocks newdir.id.ino) ∧
      (newdir.indexed = false → ∃ t2 l1 l2, es = l1 ++ l2 ∧ newname ∉ (l1 ++ l2).map Prod.fst ∧
        Relinked crc newdir t t2 newname ino k es2 l1 l2 ∧
        Dir.rename crc olddir newdir alloc fill t oldname newname = Dir.unlink crc olddir t2 oldname) := by
  have hmem : (oldname, ino) ∈ es1 := (lookup_eq_some_iff hc.oldNames).1 hlookup
  have hmem2 : (newname, target) ∈ es2 := (lookup_eq_some_iff hc.newNames).1 hb
  obtain ⟨n, hn, -⟩ := hc.links _ (List.mem_append_left es2 hmem)
  obtain ⟨tn, htn, -⟩ := hc.links _ (List.mem_append_right es1 hmem2)
  obtain ⟨t1, es, hv, hroom⟩ := vacant_removed hs' hnew hwrite hc.new hc.newNames hb htn
    (fun hdir hother => hok ⟨⟨tn, htn, hdir⟩, hother⟩) hn k
  obtain ⟨-, n1, -, hn1, -, -⟩ := hv.node
  refine ⟨t1, es, hv, fun hindex => ?_, fun hindex => ?_⟩
  · rw [rename_vacant hs' hnew hfound hv hn1]
    unfold Dir.addLink
    rw [hwrite, hindex]
    refine ⟨_, rfl, ?_⟩
    dsimp only
    rw [Function.update_self]
  · obtain ⟨slots, hadd⟩ : ∃ slots, Dir.addLink crc newdir alloc ⟨newname, ino, dirType n1.mode⟩
        (t1.blocks newdir.id.ino) = some (slots, none) :=
      addLink_room hs' ⟨hnew.pos, hnew.le⟩ hwrite hindex hv.holds hroom
    obtain ⟨l1, l2, rfl, hgone, hl⟩ := linked_of_addLink hs' hnew hv hn1 (ino_of_entry hc.old hmem) hadd
    refine ⟨_, l1, l2, rfl, hgone, hl, ?_⟩
    rw [rename_vacant hs' hnew hfound hv hn1, hadd]

private theorem rename_absent (alloc fill : Nat → Bool) (hs : olddir.Sized) (hs' : newdir.Sized)
    (hold : FileName oldname) (hnew : FileName newname)
    (hwrite : newdir.vol.readOnly = false) (hc : Dir.Consistent crc olddir newdir t es1 es2 others)
    (hlookup : es1.lookup oldname = some ino) (hb : es2.lookup newname = none) (k : Nat) :
    (Dir.NoRoom crc newdir t newname alloc ino ∧
      ∀ t' e, Dir.rename crc olddir newdir alloc fill t oldname newname = some (t', e) →
        e ≠ none ∧ Dir.Stayed crc olddir newdir t oldname newname t') ∨
    ∃ t2 l1 l2, ¬ Dir.NoRoom crc newdir t newname alloc ino ∧ es2 = l1 ++ l2 ∧ newname ∉ (l1 ++ l2).map Prod.fst ∧
      Vacant crc newdir t t newname ino k es2 es2 ∧ Relinked crc newdir t t2 newname ino k es2 l1 l2 ∧
      Dir.rename crc olddir newdir alloc fill t oldname newname = Dir.unlink crc olddir t2 oldname := by
  have hmem : (oldname, ino) ∈ es1 := (lookup_eq_some_iff hc.oldNames).1 hlookup
  obtain ⟨n, hn, -⟩ := hc.links _ (List.mem_append_left es2 hmem)
  have hfound := lookupInode_some hs hold hc.old hlookup
  have hv := vacant_absent hs' hnew hwrite hc.new hc.newNames hb hn k
  have hrename : Dir.rename crc olddir newdir alloc fill t oldname newname = _ := rename_vacant hs' hnew hfound hv hn
  have hroom : ∀ r, Dir.addLink crc newdir alloc ⟨newname, ino, dirType n.mode⟩ (t.blocks newdir.id.ino) = r →
      (∀ slots, r ≠ some (slots, none)) → Dir.NoRoom crc newdir t newname alloc ino := by
    rintro r hr hno n' hn' slots
    obtain rfl : n' = n := Option.some.inj (hn'.symm.trans hn)
    rw [hr]
    exact hno slots
  cases hadd : Dir.addLink crc newdir alloc ⟨newname, ino, dirType n.mode⟩ (t.blocks newdir.id.ino) with
  | none =>
    rw [hadd] at hrename
    refine Or.inl ⟨hroom none hadd (fun _ hr => by cases hr), fun t' e hrun => ?_⟩
    rw [hrename] at hrun
    cases hrun
  | some r =>
    obtain ⟨slots, e⟩ := r
    rw [hadd] at hrename
    cases e with
    | some e =>
      refine Or.inl ⟨hroom _ hadd (fun _ hr => by cases hr), fun t' e' hrun => ?_⟩
      rw [hrename] at hrun
      cases hrun
      obtain ⟨m, rest, hfirst⟩ := hc.first
      have hnewdir := hc.new
      rw [hfirst] at hadd hnewdir
      exact ⟨Option.some_ne_none e, stayed_of_entries hs hs' hold hnew hc (addLink_fails hs' hnew.le hnewdir hadd)⟩
    | none =>
      obtain ⟨l1, l2, rfl, hgone, hl⟩ := linked_of_addLink hs' hnew hv hn (ino_of_entry hc.old hmem) hadd
      exact Or.inr ⟨_, l1, l2, fun hno => hno n hn slots hadd, rfl, hgone, hv, hl, hrename⟩

private theorem moves_of_linked {k : Nat} {l1 l2 : List (List UInt8 × Nat)} {t' : Tree} {e : Option Errno}
    (hs : olddir.Sized)
    (hs' : newdir.Sized) (hold : FileName oldname) (hnew : FileName newname) (hwrite : olddir.vol.readOnly = false)
    (hc : Dir.Consistent crc olddir newdir t es1 es2 others)
    (hv : Vacant crc newdir t t1 newname ino k es2 (l1 ++ l2))
    (hgone : newname ∉ (l1 ++ l2).map Prod.fst) (hl : Relinked crc newdir t t2 newname ino k es2 l1 l2)
    (hlookup : es1.lookup oldname = some ino) (hgoes : Dir.OldNameGoes olddir newdir t ino)
    (hne : ¬(olddir.id.ino = newdir.id.ino ∧ oldname = newname))
    (hk : k + (if es2.lookup newname = some ino then 1 else 0) = nameCount olddir newdir others es1 es2 ino)
    (hpos : 1 ≤ k)
    (hrename : Dir.rename crc olddir newdir alloc fill t oldname newname = Dir.unlink crc olddir t2 oldname)
    (hrun : Dir.rename crc olddir newdir alloc fill t oldname newname = some (t', e)) :
    (e = none → Dir.Moved crc olddir newdir t oldname newname others t') ∧
      (e ≠ none → Dir.Stayed crc olddir newdir t oldname newname t') := by
  obtain ⟨t3, hlast, hmoved⟩ := last_moves hs hs' hold hnew hwrite hc hv hgone hl hlookup hgoes hne hk hpos
  rw [hrename, hlast] at hrun
  cases hrun
  exact ⟨fun _ => hmoved, fun he => absurd rfl he⟩

private theorem old_after {k : Nat} {l1 l2 : List (List UInt8 × Nat)}
    (hc : Dir.Consistent crc olddir newdir t es1 es2 others)
    (hv : Vacant crc newdir t t1 newname ino k es2 (l1 ++ l2)) (hl : Relinked crc newdir t t2 newname ino k es2 l1 l2)
    (hlookup : es1.lookup oldname = some ino) (hne : ¬(olddir.id.ino = newdir.id.ino ∧ oldname = newname)) :
    ∃ es, Dir.HoldsAll crc olddir (t2.blocks olddir.id.ino) es ∧ es.lookup oldname = some ino ∧
      (olddir.id.ino = newdir.id.ino → es = l1 ++ (newname, ino) :: l2) := by
  by_cases hsame : olddir.id.ino = newdir.id.ino
  · have hneq : oldname ≠ newname := fun he => hne ⟨hsame, he⟩
    obtain ⟨rfl, hall⟩ := (hl.old hc).1 hsame
    refine ⟨_, hall, ?_, fun _ => rfl⟩
    rw [lookup_insert_of_ne hneq, hv.rest oldname hneq, hlookup]
  · exact ⟨es1, (hl.old hc).2 hsame, hlookup, fun hc' => absurd hc' hsame⟩

private theorem moves_of_fine (hs : olddir.Sized) (hs' : newdir.Sized) (hold : FileName oldname)
    (hnew : FileName newname) (hc : Dir.Consistent crc olddir newdir t es1 es2 others)
    (hfine : Dir.RenameFine crc olddir newdir t oldname newname alloc es1 es2) :
    Dir.RenameMoves crc olddir newdir t oldname newname alloc fill others := by
  intro t' e hrun
  cases hlookup : es1.lookup oldname with
  | none =>
    unfold Dir.rename at hrun
    rw [lookupInode_none hs hold hc.old hlookup] at hrun
    cases hrun
    exact ⟨(fun he => by cases he), fun _ => Dir.Stayed.refl⟩
  | some ino =>
    have hfound := lookupInode_some hs hold hc.old hlookup
    have hrefused : ∀ e', Dir.unlink crc newdir t newname = some (t, some e') → e' ≠ .ENOENT →
        (e = none → Dir.Moved crc olddir newdir t oldname newname others t') ∧
        (e ≠ none → Dir.Stayed crc olddir newdir t oldname newname t') := fun e' hun hne => by
      rw [rename_refused hfound hun hne] at hrun
      cases hrun
      exact ⟨(fun he => by cases he), fun _ => Dir.Stayed.refl⟩
    cases hro : olddir.vol.readOnly with
    | true =>
      refine hrefused .EROFS ?_ (by decide)
      unfold Dir.unlink
      rw [hc.vol, hro]
      rfl
    | false =>
      have hwrite : newdir.vol.readOnly = false := by rw [hc.vol, hro]
      rcases hfine ino hlookup with hro' | ⟨hb, hcase⟩ | ⟨target, hb, hcase⟩
      · rw [hro] at hro'
        cases hro'
      · have hne : ¬(olddir.id.ino = newdir.id.ino ∧ oldname = newname) := by
          rintro ⟨hsame, rfl⟩
          obtain rfl := hc.same hsame
          rw [holdsAll_unique hc.old hc.new, hb] at hlookup
          cases hlookup
        obtain ⟨k, hpos, hk⟩ := nameCount_rest hc hlookup hne
        rcases rename_absent alloc fill hs hs' hold hnew hwrite hc hlookup hb k with ⟨-, hstay⟩ |
          ⟨t2, l1, l2, hroom, rfl, hgone, hv, hl, hrename⟩
        · obtain ⟨he, hstayed⟩ := hstay t' e hrun
          exact ⟨fun hnone => absurd hnone he, fun _ => hstayed⟩
        · rcases hcase with hno | hgoes
          · exact absurd hno hroom
          · exact moves_of_linked hs hs' hold hnew hro hc hv hgone hl hlookup hgoes hne hk hpos hrename hrun
      · by_cases hrefuse : t.IsDir target ∧ newdir.OtherRecord (t.blocks newdir.id.ino)
        · obtain ⟨⟨n, hn, hdir⟩, hother⟩ := hrefuse
          exact hrefused .ENOTEMPTY (unlink_notEmpty hs' hnew.ne_nil hwrite hc.new hb hn hdir hother) (by decide)
        · rcases hcase with hcase | ⟨hindex, hne, hcase⟩
          · exact absurd hcase hrefuse
          · obtain ⟨k, hpos, hk⟩ := nameCount_rest hc hlookup hne
            obtain ⟨t1, es, hv, -, hlinked⟩ := exists_linked alloc fill k hs' hnew hwrite hc hfound hlookup hb hrefuse
            obtain ⟨t2, l1, l2, rfl, hgone, hl, hrename⟩ := hlinked hindex
            by_cases hgoes : Dir.OldNameGoes olddir newdir t ino
            · exact moves_of_linked hs hs' hold hnew hro hc hv hgone hl hlookup hgoes hne hk hpos hrename hrun
            · -- Both names are links to a directory, and the new one is made again.
              rcases hcase with hgoes' | ⟨hdiff, rfl⟩
              · exact absurd hgoes' hgoes
              · have hall := (hl.old hc).2 hdiff
                have hstuck : t.IsDir target ∧ olddir.OtherRecord (t.blocks olddir.id.ino) := by
                  unfold Dir.OldNameGoes at hgoes
                  tauto
                have hother : olddir.OtherRecord (t2.blocks olddir.id.ino) := by
                  rw [hl.blocks _ hdiff]
                  exact hstuck.2
                have hlast := last_refused hs hold hro hl hall hlookup hstuck.1 hother
                rw [hrename, hlast] at hrun
                cases hrun
                refine ⟨(fun he => by cases he), fun _ => ⟨by rw [hl.blocks _ hdiff], ?_⟩⟩
                have hnewat : newname ∉ l1.map Prod.fst := fun hm => hgone (by
                  rw [List.map_append]
                  exact List.mem_append_left _ hm)
                rw [lookupInode_some hs' hnew hl.holds (lookup_insert_self hnewat),
                  lookupInode_some hs' hnew hc.new hb]

/-- A directory that keeps its old name because of another record makes the last step fail. -/
private theorem stuck_after {k : Nat} {l1 l2 : List (List UInt8 × Nat)} (hs : olddir.Sized) (hold : FileName oldname)
    (hwrite : olddir.vol.readOnly = false) (hc : Dir.Consistent crc olddir newdir t es1 es2 others)
    (hv : Vacant crc newdir t t1 newname ino k es2 (l1 ++ l2)) (hl : Relinked crc newdir t t2 newname ino k es2 l1 l2)
    (hlookup : es1.lookup oldname = some ino) (hne : ¬(olddir.id.ino = newdir.id.ino ∧ oldname = newname))
    (hstuck : ¬ Dir.OldNameGoes olddir newdir t ino)
    (hnames : olddir.id.ino = newdir.id.ino → t.IsDir ino → Ordinary oldname ∨ Ordinary newname) :
    Dir.unlink crc olddir t2 oldname = some (t2, some .ENOTEMPTY) := by
  obtain ⟨hdir, hrest⟩ := not_or.1 hstuck
  rw [not_not] at hdir
  obtain ⟨es, hall, hfound, hes⟩ := old_after hc hv hl hlookup hne
  refine last_refused hs hold hwrite hl hall hfound hdir ?_
  by_cases hsame : olddir.id.ino = newdir.id.ino
  · obtain rfl := hes hsame
    have hfound' : (oldname, ino) ∈ l1 ++ (newname, ino) :: l2 := by
      obtain ⟨a1, a2, heq, -⟩ := List.lookup_eq_some_iff.1 hfound
      rw [heq]
      exact List.mem_append_right _ List.mem_cons_self
    rcases hnames hsame hdir with hord | hord
    · exact otherRecord_of_entry hs hall hfound' hord
    · exact otherRecord_of_entry hs hall (List.mem_append_right l1 List.mem_cons_self) hord
  · rw [hl.blocks _ hsame]
    by_contra hno
    exact hrest ⟨hsame, hno⟩

private theorem same_entry_lost {k : Nat} {l1 l2 : List (List UInt8 × Nat)} {d : Dir} (hs : d.Sized)
    (hname : FileName newname) (hwrite : d.vol.readOnly = false) (hv : Vacant crc d t t1 newname ino k es2 (l1 ++ l2))
    (hgone : newname ∉ (l1 ++ l2).map Prod.fst) (hl : Relinked crc d t t2 newname ino k es2 l1 l2)
    (hfile : ¬ t.IsDir ino) :
    ∃ t' es, Dir.unlink crc d t2 newname = some (t', none) ∧ Dir.HoldsAll crc d (t'.blocks d.id.ino) es ∧
      es.lookup newname = none := by
  obtain ⟨n, n2, hn, hn2, hmode, -⟩ := hl.node
  have hnewat : newname ∉ l1.map Prod.fst := fun hm => hgone (by
    rw [List.map_append]
    exact List.mem_append_left _ hm)
  have hok : n2.isDir = true → ¬ d.OtherRecord (t2.blocks d.id.ino) := fun hdir => by
    refine absurd ⟨n, hn, ?_⟩ hfile
    unfold Node.isDir at hdir ⊢
    rwa [← hmode]
  have hnames := nodup_insert (v := ino) hgone hv.names
  obtain ⟨slots', a1, a2, heq, hall, -, hrun⟩ :=
    unlink_removes hs hname.ne_nil hwrite hl.holds (lookup_insert_self hnewat)
    hn2 hok
  rw [heq] at hnames
  refine ⟨_, a1 ++ a2, hrun, ?_, lookup_erase_self (List.nodup_iff_count_le_one.1 hnames newname)⟩
  dsimp only
  rw [Function.update_self]
  exact hall

private theorem fine_of_moves (hs : olddir.Sized) (hs' : newdir.Sized) (hold : FileName oldname)
    (hnew : FileName newname) (hc : Dir.Consistent crc olddir newdir t es1 es2 others)
    (hnames : ∀ ino, es1.lookup oldname = some ino → olddir.id.ino = newdir.id.ino → t.IsDir ino →
      Ordinary oldname ∨ Ordinary newname)
    (hmoves : Dir.RenameMoves crc olddir newdir t oldname newname alloc fill others) :
    Dir.RenameFine crc olddir newdir t oldname newname alloc es1 es2 := by
  intro ino hlookup
  have hmem : (oldname, ino) ∈ es1 := (lookup_eq_some_iff hc.oldNames).1 hlookup
  have hfound := lookupInode_some hs hold hc.old hlookup
  have hentries : ∀ {l1 l2 : List (List UInt8 × Nat)}, newname ∉ (l1 ++ l2).map Prod.fst →
    newname ∉ l1.map Prod.fst :=
    fun {l1 l2} hgone hm => hgone (by
      rw [List.map_append]
      exact List.mem_append_left _ hm)
  cases hro : olddir.vol.readOnly with
  | true => exact Or.inl rfl
  | false =>
    have hwrite : newdir.vol.readOnly = false := by rw [hc.vol, hro]
    refine Or.inr ?_
    cases hb : es2.lookup newname with
    | none =>
      -- the new name is absent, so the two names differ
      have hne : ¬(olddir.id.ino = newdir.id.ino ∧ oldname = newname) := by
        rintro ⟨hsame, rfl⟩
        obtain rfl := hc.same hsame
        rw [holdsAll_unique hc.old hc.new, hb] at hlookup
        cases hlookup
      rcases rename_absent alloc fill hs hs' hold hnew hwrite hc hlookup hb 0 with ⟨hno, -⟩ |
        ⟨t2, l1, l2, -, rfl, hgone, hv, hl, hrename⟩
      · exact Or.inl ⟨rfl, Or.inl hno⟩
      · refine Or.inl ⟨rfl, Or.inr ?_⟩
        -- if the old name cannot be removed the call fails, and the new name stays
        by_contra hstuck
        have hlast := stuck_after hs hold hro hc hv hl hlookup hne hstuck (hnames ino hlookup)
        obtain ⟨-, hstayed⟩ := hmoves t2 _ (hrename.trans hlast)
        have hsame := (hstayed (Option.some_ne_none _)).2
        rw [lookupInode_some hs' hnew hl.holds (lookup_insert_self (hentries hgone)),
          lookupInode_none hs' hnew hc.new hb] at hsame
        cases hsame
    | some target =>
      refine Or.inr ⟨target, rfl, ?_⟩
      have hmem2 : (newname, target) ∈ es2 := (lookup_eq_some_iff hc.newNames).1 hb
      by_cases hrefuse : t.IsDir target ∧ newdir.OtherRecord (t.blocks newdir.id.ino)
      · exact Or.inl hrefuse
      · refine Or.inr ?_
        obtain ⟨t1, es, hv, hindexed, hlinked⟩ :=
          exists_linked alloc fill 0 hs' hnew hwrite hc hfound hlookup hb hrefuse
        cases hindex : newdir.indexed with
        | true =>
          -- the old target is gone when the link fails
          obtain ⟨t', hrename, hblocks⟩ := hindexed hindex
          obtain ⟨-, hstayed⟩ := hmoves t' _ hrename
          have hsame := (hstayed (Option.some_ne_none _)).2
          rw [hblocks, lookupInode_none hs' hnew hv.holds hv.gone, lookupInode_some hs' hnew hc.new hb] at hsame
          cases hsame
        | false =>
          obtain ⟨t2, l1, l2, rfl, hgone, hl, hrename⟩ := hlinked hindex
          -- with one name for both the file would lose its only record
          have hne : ¬(olddir.id.ino = newdir.id.ino ∧ oldname = newname) := by
            rintro ⟨hsame, rfl⟩
            obtain rfl := hc.same hsame
            obtain rfl := holdsAll_unique hc.old hc.new
            have hfile : ¬ t.IsDir ino := fun hdir => by
              have hord : Ordinary oldname := (hnames ino hlookup hsame hdir).elim id id
              obtain rfl : ino = target := Option.some.inj (hlookup.symm.trans hb)
              exact hrefuse ⟨hdir, otherRecord_of_entry hs hc.old hmem hord⟩
            obtain ⟨t', es, hlast, hall, hlost⟩ := same_entry_lost hs hold hro hv hgone hl hfile
            obtain ⟨hmoved, -⟩ := hmoves t' _ (hrename.trans hlast)
            obtain ⟨ino', -, -, -, -, hnewname, -⟩ := hmoved rfl
            rw [lookupInode_none hs hold hall hlost] at hnewname
            cases hnewname
          refine ⟨rfl, hne, ?_⟩
          -- if the old name cannot be removed the call fails, and the new name leads to `ino`
          by_contra hstuck
          rw [not_or] at hstuck
          have hlast := stuck_after hs hold hro hc hv hl hlookup hne hstuck.1 (hnames ino hlookup)
          obtain ⟨-, hstayed⟩ := hmoves t2 _ (hrename.trans hlast)
          have heq := (hstayed (Option.some_ne_none _)).2
          rw [lookupInode_some hs' hnew hl.holds (lookup_insert_self (hentries hgone)),
            lookupInode_some hs' hnew hc.new hb] at heq
          cases heq
          have hsame : olddir.id.ino = newdir.id.ino := by
            by_contra hdiff
            exact hstuck.2 ⟨hdiff, rfl⟩
          have hdir : t.IsDir ino := not_not.1 (not_or.1 hstuck.1).1
          obtain rfl := hc.same hsame
          obtain rfl := holdsAll_unique hc.old hc.new
          refine hrefuse ⟨hdir, ?_⟩
          rcases hnames _ hlookup hsame hdir with hord | hord
          · exact otherRecord_of_entry hs hc.old hmem hord
          · exact otherRecord_of_entry hs hc.old hmem2 hord

/-! ### The call is defined -/

private theorem unlink_defined {d : Dir} {name : List UInt8} (hs : d.Sized) (hname : FileName name)
    (h : Dir.HoldsAll crc d (t.blocks d.id.ino) es) : ∃ r, Dir.unlink crc d t name = some r := by
  obtain ⟨b, hempty, -⟩ := isEmpty_iff hs h
  obtain ⟨slots', s', hrun, -⟩ := dirIterate_unlinkNode t.node hs hname.ne_nil h hempty
  unfold Dir.unlink
  split
  · exact ⟨_, rfl⟩
  · rw [hrun]
    exact ⟨_, rfl⟩

private theorem rename_defined (hs : olddir.Sized) (hs' : newdir.Sized) (hold : FileName oldname)
    (hnew : FileName newname) (hc : Dir.Consistent crc olddir newdir t es1 es2 others)
    (hhole : ∃ i, 0 < i ∧ (t.blocks newdir.id.ino)[i]? = some none) :
    ∃ r, Dir.rename crc olddir newdir alloc fill t oldname newname = some r := by
  cases hlookup : es1.lookup oldname with
  | none =>
    unfold Dir.rename
    rw [lookupInode_none hs hold hc.old hlookup]
    exact ⟨_, rfl⟩
  | some ino =>
    have hmem : (oldname, ino) ∈ es1 := (lookup_eq_some_iff hc.oldNames).1 hlookup
    have hfound := lookupInode_some hs hold hc.old hlookup
    have hlast : ∀ {t2 : Tree} {k : Nat} {l1 l2 : List (List UInt8 × Nat)},
        Relinked crc newdir t t2 newname ino k es2 l1 l2 → ∃ r, Dir.unlink crc olddir t2 oldname = some r :=
      fun {t2 k l1 l2} hl => by
        by_cases hsame : olddir.id.ino = newdir.id.ino
        · exact unlink_defined hs hold ((hl.old hc).1 hsame).2
        · exact unlink_defined hs hold ((hl.old hc).2 hsame)
    cases hro : olddir.vol.readOnly with
    | true =>
      -- the removal of the new name fails before anything changes
      have hun : Dir.unlink crc newdir t newname = some (t, some .EROFS) := by
        unfold Dir.unlink
        rw [hc.vol, hro]
        rfl
      exact ⟨_, rename_refused hfound hun (by decide)⟩
    | false =>
      have hwrite : newdir.vol.readOnly = false := by rw [hc.vol, hro]
      cases hb : es2.lookup newname with
      | none =>
        -- the new name is absent, so that nothing has to be removed
        obtain ⟨n, hn, -⟩ := hc.links _ (List.mem_append_left es2 hmem)
        have hv := vacant_absent hs' hnew hwrite hc.new hc.newNames hb hn 0
        obtain ⟨⟨slots, e⟩, hadd, -⟩ : KeepsWf newdir (Dir.addLink crc newdir alloc ⟨newname, ino, dirType n.mode⟩)
            (t.blocks newdir.id.ino) := addLink_keeps hs' hnew.le hhole
        cases e with
        | some e =>
          rw [rename_vacant hs' hnew hfound hv hn, hadd]
          exact ⟨_, rfl⟩
        | none =>
          obtain ⟨l1, l2, -, -, hl⟩ := linked_of_addLink hs' hnew hv hn (ino_of_entry hc.old hmem) hadd
          rw [rename_vacant hs' hnew hfound hv hn, hadd]
          exact hlast hl
      | some target =>
        by_cases hrefuse : t.IsDir target ∧ newdir.OtherRecord (t.blocks newdir.id.ino)
        · -- the target is a directory with entries
          obtain ⟨⟨n, hn, hdir⟩, hother⟩ := hrefuse
          exact ⟨_, rename_refused hfound (unlink_notEmpty hs' hnew.ne_nil hwrite hc.new hb hn hdir hother)
            (by decide)⟩
        · obtain ⟨t1, es, -, hindexed, hlinked⟩ :=
            exists_linked alloc fill 0 hs' hnew hwrite hc hfound hlookup hb hrefuse
          cases hindex : newdir.indexed with
          | true =>
            obtain ⟨t', hrename, -⟩ := hindexed hindex
            exact ⟨_, hrename⟩
          | false =>
            obtain ⟨t2, l1, l2, -, -, hl, hrename⟩ := hlinked hindex
            rw [hrename]
            exact hlast hl

end

/-- Two directories of a file system that can be mounted.  The call is defined if the new directory has a free slot
for a block.  Under the condition it is a move.  It is one under no other condition, unless both names are `.` or `..`
in one directory. -/
theorem rename_moves_iff (crc : Crc) {olddir newdir : Dir} {count : Nat}
    (hopen : openfs olddir.vol.super = some (.ok count))
    {t : Tree} {es1 es2 : List (List UInt8 × Nat)} {others : Nat → Nat}
    (hc : Dir.Consistent crc olddir newdir t es1 es2 others) (alloc fill : Nat → Bool) {oldname newname : List UInt8}
    (hold : FileName oldname) (hnew : FileName newname) :
    ((∃ i, 0 < i ∧ (t.blocks newdir.id.ino)[i]? = some none) →
      ∃ r, Dir.rename crc olddir newdir alloc fill t oldname newname = some r) ∧
    (Dir.RenameFine crc olddir newdir t oldname newname alloc es1 es2 →
      Dir.RenameMoves crc olddir newdir t oldname newname alloc fill others) ∧
    ((∀ ino, es1.lookup oldname = some ino → olddir.id.ino = newdir.id.ino → t.IsDir ino →
        Ordinary oldname ∨ Ordinary newname) →
      Dir.RenameMoves crc olddir newdir t oldname newname alloc fill others →
      Dir.RenameFine crc olddir newdir t oldname newname alloc es1 es2) := by
  have hs := sized_of_openfs hopen
  have hs' : newdir.Sized := sized_of_openfs (by rw [hc.vol]; exact hopen)
  exact ⟨rename_defined hs hs' hold hnew hc, moves_of_fine hs hs' hold hnew hc, fine_of_moves hs hs' hold hnew hc⟩

def fileTree : Tree :=
  ⟨fun ino => if ino = 2 then some ⟨0x4000, 2, 2, 2, true⟩ else some ⟨0x8000, 1, 1, 1, true⟩,
    fun _ => [some entryBlock, none]⟩

private theorem fileTree_consistent :
    Dir.Consistent zeroCrc smallDir smallDir fileTree [([97], 11)] [([97], 11)] (fun _ => 0) := by
  have hrec : smallDir.HasRec entryBlock 0 ⟨11, 1024, 1, [97]⟩ := ⟨rfl, by decide, by decide⟩
  have hall : Dir.HoldsAll zeroCrc smallDir [some entryBlock, none] [([97], 11)] :=
    ⟨_, [], rfl, ⟨[⟨11, 1024, 1, [97]⟩], ⟨hrec, rfl⟩, (fun hc => by cases hc), rfl⟩, rfl, rfl⟩
  refine ⟨rfl, fun _ => rfl, hall,
    hall, by decide, by decide, ⟨entryBlock, [none], rfl⟩, fun e he => ?_, fun n hn => ?_⟩
  · have heq : e = ([97], 11) := by simpa using he
    subst heq
    exact ⟨_, rfl, rfl, rfl, rfl, rfl, by decide⟩
  · have hn2 : fileTree.node 2 = some n := hn.elim id id
    cases hn2
    decide

/-- The file gets another name. -/
theorem rename_moves_small :
    (∃ r, Dir.rename zeroCrc smallDir smallDir (fun _ => true) (fun _ => true) fileTree [97] [98] =
      some r) ∧
    Dir.RenameMoves zeroCrc smallDir smallDir fileTree [97] [98] (fun _ => true) (fun _ => true) (fun _ => 0) := by
  have hopen : openfs smallDir.vol.super = some (.ok 1) := by decide
  obtain ⟨hdefined, hmoves, -⟩ := rename_moves_iff zeroCrc hopen fileTree_consistent (fun _ => true) (fun _ => true)
    (show FileName [97] from ⟨by decide, by decide, by decide⟩)
    (show FileName [98] from ⟨by decide, by decide, by decide⟩)
  refine ⟨hdefined ⟨1, by decide, rfl⟩, hmoves fun ino hino => Or.inr (Or.inl ⟨rfl, Or.inr (Or.inl ?_)⟩)⟩
  obtain rfl : 11 = ino := Option.some.inj hino
  rintro ⟨n, hn, hdir⟩
  cases hn
  revert hdir
  decide

/-- The file gets its own name, and loses it. -/
theorem not_rename_moves :
    (∃ t', Dir.rename zeroCrc smallDir smallDir (fun _ => true) (fun _ => true) fileTree [97] [97] =
      some (t', none) ∧ Dir.lookupInode zeroCrc smallDir (t'.blocks 2) [97] = some (.error .ENOENT)) ∧
    ¬ Dir.RenameMoves zeroCrc smallDir smallDir fileTree [97] [97] (fun _ => true) (fun _ => true) (fun _ => 0) := by
  have hrun : ∃ t', Dir.rename zeroCrc smallDir smallDir (fun _ => true) (fun _ => true) fileTree [97] [97] =
      some (t', none) ∧ Dir.lookupInode zeroCrc smallDir (t'.blocks 2) [97] = some (.error .ENOENT) := ⟨_, rfl, rfl⟩
  refine ⟨hrun, fun hmoves => ?_⟩
  obtain ⟨t', hrename, hlost⟩ := hrun
  obtain ⟨hmoved, -⟩ := hmoves t' none hrename
  obtain ⟨ino, -, -, -, -, hnew, -⟩ := hmoved rfl
  cases hlost.symm.trans hnew

end Pml.Ext2
