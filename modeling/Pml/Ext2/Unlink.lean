import Pml.Ext2.DirectoryMap

/-!
# Unlinking (`drivers/fs/ext2/link.c`)

`ext2_process_unlink` takes a link from the vnode of the entry that it removes.  The last link frees the inode and its
blocks.  A directory is removed only if it is empty, but `ext2_process_unlink` goes through the directory that holds
the entry.  `ext2_check_empty` is called for deleted records also, and it compares the name up to a zero byte.  So the
record of the entry itself is in the way, whatever the directory that it names contains.
-/

namespace Pml.Ext2

open ByteMemory

/-- A vnode with its inode: the mode, the number of links in the vnode, in its inode and in the inode on the disk, and
whether the inode and its blocks are allocated. -/
structure Node where
  mode : Nat
  nlink : Nat
  linksCount : Nat
  stored : Nat
  used : Bool
deriving DecidableEq

def Node.isDir (n : Node) : Bool := n.mode &&& 0xf000 == 0x4000

/-- What `ext2_process_unlink` does to the vnode. -/
def Node.unlink (n : Node) : Node :=
  let n := { n with nlink := (n.nlink + (2 ^ 64 - 1)) % 2 ^ 64, linksCount := (n.linksCount + (2 ^ 16 - 1)) % 2 ^ 16 }
  let n := if n.nlink = 0 then { n with used := false } else n
  { n with stored := n.linksCount }

/-- The vnodes that `ext2_lookup_or_read` gives, and the blocks of the directories. -/
structure Tree where
  node : Nat → Option Node
  blocks : Nat → List (Option Mem)

namespace Dir

variable (crc : Crc) (d : Dir)

/-- `ext2_process_unlink` with the vnode of the record: if the record is removed then its vnode has a link less. -/
def processUnlinkNode (slots : List (Option Mem)) (name : List UInt8) : Func (LinkCtx × (Nat → Option Node)) :=
  fun offset m s =>
    (processUnlink crc d (fun ino => (s.2 ino).map fun n => (n.isDir, n.nlink)) slots name offset m s.1).map fun r =>
      (r.1, (r.2.1, if r.2.1.done then
        Function.update s.2 (dInode m offset) ((s.2 (dInode m offset)).map Node.unlink) else s.2), r.2.2)

/-- `ext2_unlink_dirent` with the vnodes. -/
def unlink (t : Tree) (name : List UInt8) : Option (Tree × Option Errno) :=
  if d.vol.readOnly then some (t, some .EROFS)
  else
    (dirIterate crc d true (processUnlinkNode crc d (t.blocks d.id.ino) name) (t.blocks d.id.ino)
      (⟨0, false, none⟩, t.node)).map fun r =>
        (⟨r.2.1.2, Function.update t.blocks d.id.ino r.1⟩,
          match r.2.2, r.2.1.1.err, r.2.1.1.done with
          | some e, _, _ => some e
          | none, some e, _ => some e
          | none, none, true => none
          | none, none, false => some .ENOENT)

def HasOther (m : Mem) : Prop :=
  ∃ rs, d.Tiled m 0 rs d.top ∧ ∃ x ∈ placed Dirent.recLen 0 rs, x.1 + 8 < d.blksize ∧ isDots m x.1 = false

def OtherRecord (slots : List (Option Mem)) : Prop := ∃ m, some m ∈ slots ∧ d.HasOther m

def Roomy (slots : List (Option Mem)) (need : Nat) : Prop :=
  ∃ m, some m ∈ slots ∧ ∃ rs, d.Tiled m 0 rs d.top ∧ ∃ r ∈ rs, r.HasRoom need

end Dir

section

variable {crc : Crc} {d : Dir} {m : Mem} {slots : List (Option Mem)} {es : List (List UInt8 × Nat)}
    {name : List UInt8}

/-! ### The check for an empty directory -/

private theorem tiled_unique {rs rs' : List Dirent} {lo hi : Nat} (h : d.Tiled m lo rs hi)
    (h' : d.Tiled m lo rs' hi) :
    rs = rs' := by
  refine h.unique (fun a b b' hb hb' => hb.1.symm.trans hb'.1) (fun a b hb => ?_) h'
  have := hb.2.eight_le
  omega

private theorem placed_snoc {rs : List Dirent} {r : Dirent} {lo o : Nat} (h : d.Tiled m lo rs o) :
    placed Dirent.recLen lo (rs ++ [r]) = placed Dirent.recLen lo rs ++ [(o, r)] :=
  h.placed_append

private theorem processDirBlock_same {σ : Type} {func : Dir.Func σ} {empty : Bool} {st : σ} {p : Dir.Pass σ}
    (hvalid : d.vol.dirBlockChecksumValid crc d.id m = true)
    (hloop : d.loop empty func (d.blksize + 1) 0 m st false = some p) (hgood : p.bad = false)
    (hch : p.changed = false) :
    Dir.processDirBlock crc d empty func m st = some (m, p.state, p.abort, none) := by
  unfold Dir.processDirBlock
  rw [if_pos hvalid, hloop, Option.map_some, hgood, hch]
  rfl

private theorem checkBlock (hs : d.Sized) (h : d.Holds m es)
    (hvalid : d.vol.dirBlockChecksumValid crc d.id m = true) :
    ∃ b, Dir.processDirBlock crc d true Dir.checkEmpty m true = some (m, b, !b, none) ∧
    (b = true ↔ ¬ d.HasOther m) := by
  obtain ⟨rs, hrs, htail, rfl⟩ := h
  obtain ⟨p, hloop, hgood, hcase⟩ : ∃ p, d.loop true Dir.checkEmpty (d.blksize + 1) 0 m true false = some p ∧
      p.bad = false ∧ _ := loop_search
    (I := fun pre o b => b = true ∧ ∀ x ∈ placed Dirent.recLen 0 pre, Dir.isDots m x.1 = true) hs htail
    (fun _ _ _ _ hc => by cases hc)
    (by
      rintro pre r post o b hpre hrec - - ⟨rfl, hdots⟩
      unfold Dir.checkEmpty
      by_cases hd : Dir.isDots m o = true
      · rw [if_pos hd]
        refine ⟨m, true, _, rfl, fun _ => ⟨rfl, rfl, rfl, fun x hx => ?_⟩⟩
        rw [placed_snoc hpre, List.mem_append, List.mem_singleton] at hx
        rcases hx with hx | rfl
        · exact hdots x hx
        · exact hd
      · rw [if_neg hd]
        exact ⟨m, false, _, rfl, fun hc => by cases hc⟩)
    (show d.Tiled m 0 [] 0 from rfl) hrs ⟨rfl, fun x hx => by cases hx⟩ (by omega)
  rcases hcase with ⟨hab, hch, hbuf, all, rest, o', rfl, hall, hrest, ho', hb, hdots⟩ |
    ⟨hab, all, r, rest, o', b, rfl, hall, hrec, hrest, hlt, ⟨rfl, -⟩, hcall⟩
  · refine ⟨true, ?_, fun _ => ?_, fun _ => rfl⟩
    · rw [processDirBlock_same hvalid hloop hgood hch, hab, hb]
      rfl
    · rintro ⟨rs', hrs', x, hx, hlt, hother⟩
      obtain rfl := tiled_unique hrs hrs'
      rw [hall.placed_append, List.mem_append] at hx
      rcases hx with hx | hx
      · rw [hdots x hx] at hother
        cases hother
      · obtain ⟨hrec, hle, htop⟩ := hrest.of_mem_placed hx
        have h8 := hrec.2.eight_le
        omega
  · unfold Dir.checkEmpty at hcall
    split at hcall
    · rw [Option.some.injEq, Prod.mk.injEq, Prod.mk.injEq, Dir.Ret.mk.injEq] at hcall
      exact absurd hcall.2.2.2 (by decide)
    · rename_i hother
      rw [Option.some.injEq, Prod.mk.injEq, Prod.mk.injEq, Dir.Ret.mk.injEq] at hcall
      obtain ⟨-, hstate, hch, -⟩ := hcall
      refine ⟨false, ?_, (fun hc => by cases hc), fun hno => absurd ⟨_, hrs, (o', r), ?_, hlt, ?_⟩ hno⟩
      · rw [processDirBlock_same hvalid hloop hgood hch.symm, hab, ← hstate]
        rfl
      · rw [hall.placed_append]
        exact List.mem_append_right _ List.mem_cons_self
      · simpa using hother

theorem isEmpty_iff (hs : d.Sized) (h : Dir.HoldsAll crc d slots es) :
    ∃ b, Dir.isEmpty crc d slots = some b ∧ (b = true ↔ ¬ d.OtherRecord slots) := by
  have hrun : ∃ slots' b, Dir.dirIterate crc d true Dir.checkEmpty slots true = some (slots', b, none) ∧
      (b = true ↔ ¬ d.OtherRecord slots) := by
    induction slots generalizing es with
    | nil => exact ⟨[], true, rfl, by simp [Dir.OtherRecord]⟩
    | cons slot slots ih =>
      cases slot with
      | none =>
        obtain ⟨slots', b, hrun, hb⟩ := ih h
        refine ⟨none :: slots', b, ?_, ?_⟩
        · rw [Dir.dirIterate, hrun]
          rfl
        · rw [hb]
          simp [Dir.OtherRecord]
      | some m =>
        obtain ⟨es1, es2, rfl, hholds, hvalid, hrest⟩ := h
        obtain ⟨b, hblock, hb⟩ := checkBlock hs hholds hvalid
        cases b with
        | false =>
          refine ⟨some m :: slots, false, ?_, ?_⟩
          · rw [Dir.dirIterate, hblock]
            rfl
          · have hother : d.HasOther m := by
              by_contra hno
              cases hb.2 hno
            simp [Dir.OtherRecord, hother]
        | true =>
          obtain ⟨slots', b, hrun, hb'⟩ := ih hrest
          refine ⟨some m :: slots', b, ?_, ?_⟩
          · rw [Dir.dirIterate, hblock]
            simp only [Bool.not_true, hrun, Option.map_some]
          · rw [hb']
            simp [Dir.OtherRecord, hb.1 rfl]
  obtain ⟨slots', b, hrun, hb⟩ := hrun
  refine ⟨b, ?_, hb⟩
  unfold Dir.isEmpty
  rw [hrun]
  rfl

def Ordinary (name : List UInt8) : Prop := name ≠ [] ∧ name ≠ [46] ∧ name ≠ [46, 46] ∧ 0 ∉ name

private theorem mem_copyOut {a n i : Nat} (hi : i < n) : m (a + i) ∈ copyOut m a n :=
  List.mem_map.2 ⟨i, List.mem_range.2 hi, rfl⟩

private theorem isDots_ordinary {o n : Nat} (h : Ordinary (copyOut m (o + 8) n)) : Dir.isDots m o = false := by
  obtain ⟨hnil, hdot, hdots, hzero⟩ := h
  by_contra hc
  have hbytes : m (o + 8) = 46 ∧ (m (o + 9) = 0 ∨ (m (o + 9) = 46 ∧ m (o + 10) = 0)) := by
    simpa only [Dir.isDots, Bool.not_eq_false, Bool.and_eq_true, Bool.or_eq_true, beq_iff_eq] using hc
  obtain ⟨h0, h1⟩ := hbytes
  have hno : ∀ i, i < n → m (o + 8 + i) ≠ 0 := fun i hi h => hzero (h ▸ mem_copyOut hi)
  have hone : n ≠ 1 := fun hn => by
    subst hn
    exact hdot (show [m (o + 8)] = [46] by rw [h0])
  have hpos : n ≠ 0 := fun hn => by
    subst hn
    exact hnil rfl
  rcases h1 with h1 | ⟨h1, h2⟩
  · exact hno 1 (by omega) h1
  · have htwo : n ≠ 2 := fun hn => by
      subst hn
      exact hdots (show [m (o + 8), m (o + 9)] = [46, 46] by rw [h0, h1])
    exact hno 2 (by omega) h2

theorem exists_placed {rs : List Dirent} {r : Dirent} (lo : Nat) (h : r ∈ rs) :
    ∃ o, (o, r) ∈ placed Dirent.recLen lo rs := by
  induction rs generalizing lo with
  | nil => cases h
  | cons r' rs ih =>
    rcases List.mem_cons.1 h with rfl | h
    · exact ⟨lo, List.mem_cons_self⟩
    · obtain ⟨o, ho⟩ := ih (lo + r'.recLen) h
      exact ⟨o, List.mem_cons_of_mem _ ho⟩

private theorem hasOther_of_entry {ino : Nat} (hs : d.Sized) (h : d.Holds m es) (hmem : (name, ino) ∈ es)
    (hname : Ordinary name) : d.HasOther m := by
  obtain ⟨rs, hrs, -, rfl⟩ := h
  obtain ⟨r, hr, he⟩ := List.mem_filterMap.1 hmem
  obtain ⟨o, ho⟩ := exists_placed 0 hr
  obtain ⟨hrec, -, htop⟩ := hrs.of_mem_placed ho
  have hrname : r.name = name := by
    split at he
    · cases he
    · cases he
      rfl
  have hbytes : copyOut m (o + 8) (dNameLen m o % 256) = name := by
    rw [← hrname, ← hrec.1]
    rfl
  refine ⟨rs, hrs, (o, r), ho, ?_, isDots_ordinary (hbytes ▸ hname)⟩
  have h8 := hrec.2.eight_le
  have hmod := hrec.2.mod
  have hlen := hrec.length
  have hpos : 0 < r.name.length := List.length_pos_iff.2 (hrname ▸ hname.1)
  obtain ⟨htopadd, -, -⟩ := top_add hs
  change o + 8 < d.blksize
  change o + r.recLen ≤ d.top at htop
  omega

theorem otherRecord_of_entry {ino : Nat} (hs : d.Sized) (h : Dir.HoldsAll crc d slots es) (hmem : (name, ino) ∈ es)
    (hname : Ordinary name) : d.OtherRecord slots := by
  induction slots generalizing es with
  | nil =>
    obtain rfl : es = [] := h
    cases hmem
  | cons slot slots ih =>
    cases slot with
    | none =>
      obtain ⟨m, hm, hother⟩ := ih h hmem
      exact ⟨m, List.mem_cons_of_mem _ hm, hother⟩
    | some m =>
      obtain ⟨es1, es2, rfl, hholds, -, hrest⟩ := h
      rcases List.mem_append.1 hmem with hmem | hmem
      · exact ⟨m, List.mem_cons_self, hasOther_of_entry hs hholds hmem hname⟩
      · obtain ⟨m', hm, hother⟩ := ih hrest hmem
        exact ⟨m', List.mem_cons_of_mem _ hm, hother⟩

theorem holdsAll_unique {es' : List (List UInt8 × Nat)} (h : Dir.HoldsAll crc d slots es)
    (h' : Dir.HoldsAll crc d slots es') : es = es' := by
  induction slots generalizing es es' with
  | nil => exact h.trans h'.symm
  | cons slot slots ih =>
    cases slot with
    | none => exact ih h h'
    | some m =>
      obtain ⟨es1, es2, rfl, ⟨rs, hrs, -, rfl⟩, -, hrest⟩ := h
      obtain ⟨es1', es2', rfl, ⟨rs', hrs', -, rfl⟩, -, hrest'⟩ := h'
      rw [tiled_unique hrs hrs', ih hrest hrest']

/-! ### The iteration of `ext2_unlink_dirent` -/

variable {nodes : Nat → Option Node} {o : Nat} {r : Dirent} {s : Dir.LinkCtx}

private theorem processUnlinkNode_pass (h : d.HasRec m o r) (hno : ¬(r.name = name ∧ r.ino ≠ 0))
    (hdone : s.done = false) :
    Dir.processUnlinkNode crc d slots name o m (s, nodes) = some
    (m, ({ s with prev := o }, nodes), ⟨false, false⟩) := by
  have hino : dInode m o = r.ino := by rw [← h.1]; rfl
  have hname : dName m o = r.name := by rw [← h.1]; rfl
  have hskip : dName m o ≠ name ∨ dInode m o = 0 := by
    rw [hname, hino]
    by_cases hn : r.name = name
    · exact Or.inr (by_contra fun h0 => hno ⟨hn, h0⟩)
    · exact Or.inl hn
  unfold Dir.processUnlinkNode Dir.processUnlink
  dsimp only
  rw [if_pos hskip, Option.map_some, hdone]
  rfl

private theorem processUnlink_entry {vnode : Nat → Option (Bool × Nat)} {isDir b : Bool} {nlink : Nat}
    (h : d.HasRec m o r) (hmatch : r.name = name ∧ r.ino ≠ 0) (hvnode : vnode r.ino = some (isDir, nlink))
    (hempty : Dir.isEmpty crc d slots = some b) :
    Dir.processUnlink crc d vnode slots name o m s = some (if isDir = true ∧ b = false then
      (m, { s with prev := o, err := some .ENOTEMPTY }, ⟨false, true⟩)
    else (removeRecord m s.prev o, { s with prev := o, done := true }, ⟨true, true⟩)) := by
  have hino : dInode m o = r.ino := by rw [← h.1]; rfl
  have hname : dName m o = r.name := by rw [← h.1]; rfl
  have hskip : ¬(r.name ≠ name ∨ r.ino = 0) := fun hc => hc.elim (fun hn => hn hmatch.1) hmatch.2
  unfold Dir.processUnlink
  dsimp only
  rw [hino, hname, if_neg hskip, hvnode, hempty]
  cases isDir with
  | false => rfl
  | true =>
    cases b with
    | false => rfl
    | true => rfl

private theorem processUnlinkNode_entry {node : Node} {b : Bool} (h : d.HasRec m o r)
    (hmatch : r.name = name ∧ r.ino ≠ 0)
    (hdone : s.done = false) (hnode : nodes r.ino = some node) (hempty : Dir.isEmpty crc d slots = some b) :
    Dir.processUnlinkNode crc d slots name o m (s, nodes) = some (if node.isDir = true ∧ b = false then
      (m, ({ s with prev := o, err := some .ENOTEMPTY }, nodes), ⟨false, true⟩)
    else (removeRecord m s.prev o,
      ({ s with prev := o, done := true }, Function.update nodes r.ino (some node.unlink)), ⟨true, true⟩)) := by
  have hino : dInode m o = r.ino := by rw [← h.1]; rfl
  have hvnode : ((nodes r.ino).map fun n => (n.isDir, n.nlink)) = some (node.isDir, node.nlink) := by
    rw [hnode]
    rfl
  unfold Dir.processUnlinkNode
  rw [processUnlink_entry h hmatch hvnode hempty, Option.map_some, hino]
  dsimp only
  rw [hnode]
  by_cases hfull : node.isDir = true ∧ b = false
  · simp only [if_pos hfull, hdone, Bool.false_eq_true, ↓reduceIte]
  · simp only [if_neg hfull, ↓reduceIte, Option.map_some]

private theorem processUnlinkNode_unread (h : d.HasRec m o r) (hmatch : r.name = name ∧ r.ino ≠ 0)
    (hdone : s.done = false) (hnode : nodes r.ino = none) :
    Dir.processUnlinkNode crc d slots name o m (s, nodes) = some
    (m, ({ s with prev := o }, nodes), ⟨true, true⟩) := by
  have hino : dInode m o = r.ino := by rw [← h.1]; rfl
  have hname : dName m o = r.name := by rw [← h.1]; rfl
  have hskip : ¬(r.name ≠ name ∨ r.ino = 0) := fun hc => hc.elim (fun hn => hn hmatch.1) hmatch.2
  unfold Dir.processUnlinkNode Dir.processUnlink
  dsimp only
  rw [hino, hname, if_neg hskip, hnode]
  simp only [Option.map_none, Option.map_some, hdone, Bool.false_eq_true, ↓reduceIte]

private theorem rest_nameless {rest : List Dirent} (hs : d.Sized) (h : d.Tiled m o rest d.top)
    (ho : o = d.top ∨ d.blksize ≤ o + 8) : ∀ r ∈ rest, r.name = [] := by
  rcases tiled_cases hs h with ⟨rfl, -⟩ | ⟨r, rest', rfl, hrec, hrest, hlt⟩ | ⟨-, hzero⟩
  · exact fun r hr => absurd hr List.not_mem_nil
  · have h8 := hrec.2.eight_le
    have hle := hrest.le
    omega
  · exact tiled_nameless h hzero

/-- `ext2_unlink_dirent` at one block; `b` is the result of the check for an empty directory. -/
private theorem unlinkNodeBlock {b : Bool} (hs : d.Sized) (hname : name ≠ []) (h : d.Holds m es)
    (hvalid : d.vol.dirBlockChecksumValid crc d.id m = true) (hsearch : Searching s)
    (hempty : Dir.isEmpty crc d slots = some b) :
    (name ∉ es.map Prod.fst ∧ ∃ s', Dir.processDirBlock crc d true (Dir.processUnlinkNode crc d slots name) m
      (s, nodes) =
      some (m, (s', nodes), false, none) ∧ Searching s') ∨
    ∃ l1 ino l2, es = l1 ++ (name, ino) :: l2 ∧ name ∉ l1.map Prod.fst ∧ (nodes ino = none →
      ∃ m' s', Dir.processDirBlock crc d true (Dir.processUnlinkNode crc d slots name) m (s, nodes) =
        some (m', (s', nodes), true, none)) ∧ ∀ node, nodes ino = some node →
      (node.isDir = true ∧ b = false ∧ ∃ s', Dir.processDirBlock crc d true (Dir.processUnlinkNode crc d slots name) m
          (s, nodes) = some (m, (s', nodes), true, none) ∧ s'.err = some .ENOTEMPTY) ∨
      (¬(node.isDir = true ∧ b = false) ∧ ∃ m' s', Dir.processDirBlock crc d true
          (Dir.processUnlinkNode crc d slots name) m (s, nodes) =
            some (m', (s', Function.update nodes ino (some node.unlink)), true, none) ∧ s'.done = true ∧
            s'.err = none ∧
          d.vol.dirBlockChecksumValid crc d.id m' = true ∧ ∃ rs, d.Tiled m' 0 rs d.top ∧ d.HasTail m' ∧
            entries rs = l1 ++ l2 ∧ ∃ r ∈ rs, r.HasRoom (dirRecLen name.length)) := by
  obtain ⟨rs, hrs, htail, rfl⟩ := h
  -- no record that has been passed has the name, and the vnodes are as they were
  obtain ⟨p, hloop, hgood, hcase⟩ :
    ∃ p, d.loop true (Dir.processUnlinkNode crc d slots name) (d.blksize + 1) 0 m (s, nodes)
      false = some p ∧ p.bad = false ∧ _ := loop_search
    (I := fun pre o st => st.2 = nodes ∧ Searching st.1 ∧ Before d m pre o st.1.prev ∧
      ∀ r ∈ pre, ¬(r.name = name ∧ r.ino ≠ 0)) hs htail
    (fun _ _ _ _ hc => by cases hc)
    (by
      rintro pre r post o ⟨s, nodes'⟩ hpre hrec - - ⟨rfl, hsearch, hbefore, hno⟩
      rcases processUnlink_cases crc (fun ino => (nodes' ino).map fun n => (n.isDir, n.nlink)) slots name s hrec with
        ⟨-, hmiss⟩ | ⟨s', c, hcall, -⟩ | ⟨hcall, -⟩
      · refine ⟨m, _, _, processUnlinkNode_pass hrec hmiss hsearch.1,
          fun _ => ⟨rfl, rfl, rfl, hsearch, hbefore.snoc hrec, ?_⟩⟩
        intro x hx
        rcases List.mem_append.1 hx with hx | hx
        · exact hno x hx
        · rw [List.mem_singleton.1 hx]
          exact hmiss
      · unfold Dir.processUnlinkNode
        rw [hcall]
        exact ⟨_, _, _, rfl, fun hc => by cases hc⟩
      · unfold Dir.processUnlinkNode
        rw [hcall]
        exact ⟨_, _, _, rfl, fun hc => by cases hc⟩)
    (show d.Tiled m 0 [] 0 from rfl) hrs ⟨rfl, hsearch, ⟨rfl, Or.inl ⟨rfl, rfl⟩⟩, fun x hx => by cases hx⟩ (by omega)
  rcases hcase with ⟨hab, hch, hbuf, all, rest, o', rfl, hall, hrest, ho', hnodes, hsearch', -, hno⟩ |
    ⟨hab, all, r, rest, o', ⟨s1, nodes1⟩, rfl, hall, hrec, hrest, hlt, ⟨hnodes, hsearch1, hbefore, hno⟩, hcall⟩
  · -- the loop has passed all records
    refine Or.inl ⟨not_mem_entries fun r hr hmatch => ?_, p.state.1, ?_, hsearch'⟩
    · rcases List.mem_append.1 hr with hr | hr
      · exact hno r hr hmatch
      · exact hname (hmatch.1 ▸ rest_nameless hs hrest ho' r hr)
    · rw [processDirBlock_same hvalid hloop hgood hch, hab, ← hnodes]
  · -- the loop has stopped at a record with the name
    have hmatch : r.name = name ∧ r.ino ≠ 0 := by
      by_contra hmiss
      rw [processUnlinkNode_pass hrec hmiss hsearch1.1, Option.some.injEq, Prod.mk.injEq, Prod.mk.injEq,
        Dir.Ret.mk.injEq] at hcall
      exact absurd hcall.2.2.2 (by decide)
    obtain rfl : nodes1 = nodes := hnodes
    refine Or.inr ⟨entries all, r.ino, entries rest, ?_, not_mem_entries hno, fun hnode => ?_, fun node hnode => ?_⟩
    · rw [entries_append, entries_cons, entries_match hmatch]
      rfl
    · rw [processUnlinkNode_unread hrec hmatch hsearch1.1 hnode, Option.some.injEq, Prod.mk.injEq, Prod.mk.injEq,
        Dir.Ret.mk.injEq] at hcall
      obtain ⟨hbuf, hstate, hch, -⟩ := hcall
      obtain ⟨m', hblock, -, -⟩ := processDirBlock_of_loop hs hvalid hloop hgood (fun _ => hbuf.symm) (hbuf ▸ hrs)
        (hbuf ▸ htail)
      refine ⟨m', { s1 with prev := o' }, ?_⟩
      rw [hblock, hab, ← hstate]
    · rw [processUnlinkNode_entry hrec hmatch hsearch1.1 hnode hempty] at hcall
      by_cases hfull : node.isDir = true ∧ b = false
      · -- a directory with entries stays
        rw [if_pos hfull, Option.some.injEq, Prod.mk.injEq, Prod.mk.injEq, Dir.Ret.mk.injEq] at hcall
        obtain ⟨-, hstate, hch, -⟩ := hcall
        refine Or.inl ⟨hfull.1, hfull.2, { s1 with prev := o', err := some .ENOTEMPTY }, ?_, rfl⟩
        rw [processDirBlock_same hvalid hloop hgood hch.symm, hab, ← hstate]
      · rw [if_neg hfull, Option.some.injEq, Prod.mk.injEq, Prod.mk.injEq, Dir.Ret.mk.injEq] at hcall
        obtain ⟨hbuf, hstate, hch, -⟩ := hcall
        obtain ⟨⟨rs', htile, hent, hroom⟩, hout⟩ := removeRecord_tiled hs hbefore hrec hrest
        rw [hbuf] at htile hout
        obtain ⟨m', hblock, ⟨htile', htail'⟩, hvalid'⟩ := processDirBlock_of_loop hs hvalid hloop hgood
          (fun hc => by rw [← hch] at hc; cases hc) htile (htail.congr fun x hx _ => hout x hx)
        refine Or.inr ⟨hfull, m', { s1 with prev := o', done := true }, ?_, rfl, hsearch1.2, hvalid', rs', htile',
          htail', ?_, ?_⟩
        · rw [hblock, hab, ← hstate]
        · rw [hent, entries_append]
        · obtain ⟨x, hx, hroom⟩ := hroom
          refine ⟨x, hx, Nat.le_trans (Nat.add_le_add_left ?_ _) hroom⟩
          have hlen : dirRecLen name.length = dirRecLen r.nameLen := by
            have hmod := hrec.length
            rw [hmatch.1] at hmod
            unfold dirRecLen
            omega
          rw [hlen]
          exact hrec.2.le

/-- The entry is not in the blocks before, and nothing has changed. -/
def UnlinkSearch (nodes : Nat → Option Node) (name : List UInt8) (_ : List (Option Mem))
    (pre : List (List UInt8 × Nat)) (st : Dir.LinkCtx × (Nat → Option Node)) : Prop :=
  st.2 = nodes ∧ Searching st.1 ∧ name ∉ pre.map Prod.fst

theorem dirIterate_unlinkNode {b : Bool} (nodes : Nat → Option Node) (hs : d.Sized) (hname : name ≠ [])
    (h : Dir.HoldsAll crc d slots es) (hempty : Dir.isEmpty crc d slots = some b) :
    ∃ slots' s', Dir.dirIterate crc d true (Dir.processUnlinkNode crc d slots name) slots (⟨0, false, none⟩, nodes) =
      some (slots', s', none) ∧
      (es.lookup name = none → slots' = slots ∧ Searching s'.1 ∧ s'.2 = nodes) ∧
      ∀ ino node, es.lookup name = some ino → nodes ino = some node →
        (node.isDir = true ∧ b = false ∧ slots' = slots ∧ s'.1.err = some .ENOTEMPTY ∧ s'.2 = nodes) ∨
        (¬(node.isDir = true ∧ b = false) ∧ s'.1.done = true ∧ s'.1.err = none ∧
          s'.2 = Function.update nodes ino (some node.unlink) ∧ d.Roomy slots' (dirRecLen name.length) ∧
          ∃ l1 l2, es = l1 ++ (name, ino) :: l2 ∧ Dir.HoldsAll crc d slots' (l1 ++ l2)) := by
  have hstart : UnlinkSearch nodes name [] [] (⟨0, false, none⟩, nodes) := ⟨rfl, ⟨rfl, rfl⟩, fun hc => by cases hc⟩
  obtain ⟨slots', s', hrun, hcase⟩ :
    ∃ slots' s', Dir.dirIterate crc d true (Dir.processUnlinkNode crc d slots name) slots
      (⟨0, false, none⟩, nodes) = some (slots', s', none) ∧ _ := dirIterate_search (K := UnlinkSearch nodes name)
    (fun _ _ _ hK => hK)
    (by
      rintro before pre m es' ⟨s, nodes'⟩ hholds hvalid ⟨rfl, hsearch, hno⟩
      rcases unlinkNodeBlock hs hname hholds hvalid hsearch hempty with
        ⟨hmiss, s', hblock, hsearch'⟩ | ⟨l1, ino, l2, -, -, hunread, hread⟩
      · refine ⟨m, _, _, hblock, fun _ => ⟨rfl, rfl, hsearch', ?_⟩⟩
        rw [List.map_append, List.mem_append, not_or]
        exact ⟨hno, hmiss⟩
      · cases hnode : nodes' ino with
        | none =>
          obtain ⟨m', s', hblock⟩ := hunread hnode
          exact ⟨m', _, _, hblock, fun hc => by cases hc⟩
        | some node =>
          rcases hread node hnode with ⟨-, -, s', hblock, -⟩ | ⟨-, m', s', hblock, -⟩
          · exact ⟨m, _, _, hblock, fun hc => by cases hc⟩
          · exact ⟨m', _, _, hblock, fun hc => by cases hc⟩)
    h hstart
  refine ⟨slots', s', hrun, ?_⟩
  rcases hcase with ⟨rfl, hnodes, hsearch, hno⟩ |
    ⟨slots1, m, m', slots2, es1, es2, es3, ⟨s1, nodes1⟩, rfl, rfl, rfl, h1, hholds, hvalid, h2,
      ⟨hnodes, hsearch, hno⟩, hstop⟩
  · have hnone : es.lookup name = none := lookup_eq_none_iff.2 hno
    refine ⟨fun _ => ⟨rfl, hsearch, hnodes⟩, fun ino node hlookup => ?_⟩
    rw [hnone] at hlookup
    cases hlookup
  · obtain rfl : nodes1 = nodes := hnodes
    rw [List.nil_append] at hno
    rcases unlinkNodeBlock hs hname hholds hvalid hsearch hempty with ⟨-, s2, hblock, -⟩ |
      ⟨l1, ino', l2, rfl, hbefore, -, hread⟩
    · rw [hblock] at hstop
      cases hstop
    · have hfound : (es1 ++ (l1 ++ (name, ino') :: l2) ++ es3).lookup name = some ino' := by
        rw [List.append_assoc, List.lookup_append, lookup_eq_none_iff.2 hno, List.lookup_append,
          lookup_insert_self hbefore]
        rfl
      refine ⟨fun hlookup => ?_, fun ino node hlookup hnode => ?_⟩
      · rw [hfound] at hlookup
        cases hlookup
      · obtain rfl : ino' = ino := Option.some.inj (hfound.symm.trans hlookup)
        rcases hread node hnode with ⟨hdir, hb, s2, hblock, herr⟩ |
          ⟨hok, m2, s2, hblock, hdone, herr, hvalid', rs, hrs, htail, hent, hroom⟩
        · rw [hblock] at hstop
          cases hstop
          exact Or.inl ⟨hdir, hb, rfl, herr, rfl⟩
        · rw [hblock] at hstop
          cases hstop
          refine Or.inr ⟨hok, hdone, herr, rfl, ⟨m', List.mem_append_right _ List.mem_cons_self, rs, hrs, hroom⟩,
            es1 ++ l1, l2 ++ es3, ?_, ?_⟩
          · simp only [List.append_assoc, List.cons_append]
          · have hmid : Dir.HoldsAll crc d (some m' :: slots2) (l1 ++ l2 ++ es3) :=
              ⟨l1 ++ l2, es3, rfl, ⟨rs, hrs, htail, hent⟩, hvalid', h2⟩
            have hall := holdsAll_append h1 hmid
            simpa only [List.append_assoc] using hall

/-! ### `ext2_unlink_dirent` -/

variable {t : Tree} {ino : Nat} {node : Node}

private theorem Tree.update_blocks_self (t : Tree) (i : Nat) :
    (⟨t.node, Function.update t.blocks i (t.blocks i)⟩ : Tree) = t := by
  rw [Function.update_eq_self]

theorem unlink_absent (hs : d.Sized) (hname : name ≠ []) (hwrite : d.vol.readOnly = false)
    (h : Dir.HoldsAll crc d (t.blocks d.id.ino) es) (hlookup : es.lookup name = none) :
    Dir.unlink crc d t name = some (t, some .ENOENT) := by
  obtain ⟨b, hempty, -⟩ := isEmpty_iff hs h
  obtain ⟨slots', ⟨s', nodes'⟩, hrun, hmiss, -⟩ := dirIterate_unlinkNode t.node hs hname h hempty
  obtain ⟨rfl, ⟨hdone, herr⟩, rfl⟩ := hmiss hlookup
  unfold Dir.unlink
  rw [if_neg (by rw [hwrite]; exact Bool.false_ne_true), hrun, Option.map_some]
  dsimp only at hdone herr ⊢
  rw [hdone, herr, Tree.update_blocks_self]

theorem unlink_notEmpty (hs : d.Sized) (hname : name ≠ []) (hwrite : d.vol.readOnly = false)
    (h : Dir.HoldsAll crc d (t.blocks d.id.ino) es) (hlookup : es.lookup name = some ino)
    (hnode : t.node ino = some node) (hdir : node.isDir = true) (hother : d.OtherRecord (t.blocks d.id.ino)) :
    Dir.unlink crc d t name = some (t, some .ENOTEMPTY) := by
  obtain ⟨b, hempty, hb⟩ := isEmpty_iff hs h
  obtain ⟨slots', ⟨s', nodes'⟩, hrun, -, hfound⟩ := dirIterate_unlinkNode t.node hs hname h hempty
  rcases hfound ino node hlookup hnode with ⟨-, -, rfl, herr, rfl⟩ | ⟨hok, -⟩
  · unfold Dir.unlink
    rw [if_neg (by rw [hwrite]; exact Bool.false_ne_true), hrun, Option.map_some]
    dsimp only at herr ⊢
    rw [herr, Tree.update_blocks_self]
  · refine absurd ⟨hdir, ?_⟩ hok
    by_contra hne
    exact hb.1 (by simpa using hne) hother

theorem unlink_removes (hs : d.Sized) (hname : name ≠ []) (hwrite : d.vol.readOnly = false)
    (h : Dir.HoldsAll crc d (t.blocks d.id.ino) es) (hlookup : es.lookup name = some ino)
    (hnode : t.node ino = some node) (hok : node.isDir = true → ¬ d.OtherRecord (t.blocks d.id.ino)) :
    ∃ slots' l1 l2, es = l1 ++ (name, ino) :: l2 ∧ Dir.HoldsAll crc d slots' (l1 ++ l2) ∧
      d.Roomy slots' (dirRecLen name.length) ∧ Dir.unlink crc d t name =
        some (⟨Function.update t.node ino (some node.unlink), Function.update t.blocks d.id.ino slots'⟩, none) := by
  obtain ⟨b, hempty, hb⟩ := isEmpty_iff hs h
  obtain ⟨slots', ⟨s', nodes'⟩, hrun, -, hfound⟩ := dirIterate_unlinkNode t.node hs hname h hempty
  rcases hfound ino node hlookup hnode with ⟨hdir, rfl, -⟩ | ⟨-, hdone, herr, rfl, hroom, l1, l2, rfl, hall⟩
  · cases hb.2 (hok hdir)
  · refine ⟨slots', l1, l2, rfl, hall, hroom, ?_⟩
    unfold Dir.unlink
    rw [if_neg (by rw [hwrite]; exact Bool.false_ne_true), hrun, Option.map_some]
    dsimp only at hdone herr ⊢
    rw [hdone, herr]

end

/-! ### Directory removal -/

def Dir.HasEntries (crc : Crc) (d : Dir) (slots : List (Option Mem)) : Prop :=
  ∃ es, Dir.HoldsAll crc d slots es ∧ ∃ e ∈ es, e.1 ≠ [46] ∧ e.1 ≠ [46, 46]

/-- The entry of `sub` in the directory `d` with the entries `es` is removed if `sub` is empty.  Otherwise the call
fails with `ENOTEMPTY`, and nothing changes. -/
def Dir.RemovesDir (crc : Crc) (d sub : Dir) (t : Tree) (name : List UInt8) (es : List (List UInt8 × Nat)) : Prop :=
  (sub.HasEntries crc (t.blocks sub.id.ino) → Dir.unlink crc d t name = some (t, some .ENOTEMPTY)) ∧
  (¬ sub.HasEntries crc (t.blocks sub.id.ino) → ∃ t' l1 l2, Dir.unlink crc d t name = some (t', none) ∧
    es = l1 ++ (name, sub.id.ino) :: l2 ∧ Dir.HoldsAll crc d (t'.blocks d.id.ino) (l1 ++ l2))

/-- An entry that names the directory `sub`, in the directory `d` of a file system that can be mounted.  The removal
is right exactly if the file system can be written, and `sub` has other entries than `.` and `..` exactly if there is
a record with another name in `d`, where deleted records count.  Unless the entry is called `.` or `..`, its own
record is one. -/
theorem removesDir_iff (crc : Crc) {d sub : Dir} {count : Nat} (hopen : openfs d.vol.super = some (.ok count))
    {t : Tree}
    {es : List (List UInt8 × Nat)} (h : Dir.HoldsAll crc d (t.blocks d.id.ino) es) {name : List UInt8}
    (hname : name ≠ [])
    {node : Node} (hentry : es.lookup name = some sub.id.ino) (hnode : t.node sub.id.ino = some node)
    (hdir : node.isDir = true) :
    (Dir.RemovesDir crc d sub t name es ↔ d.vol.readOnly = false ∧
      (sub.HasEntries crc (t.blocks sub.id.ino) ↔ d.OtherRecord (t.blocks d.id.ino))) ∧
    (Ordinary name → d.OtherRecord (t.blocks d.id.ino)) := by
  have hs := sized_of_openfs hopen
  have hmem : (name, sub.id.ino) ∈ es := by
    obtain ⟨l1, l2, rfl, -⟩ := List.lookup_eq_some_iff.1 hentry
    simp
  refine ⟨?_, otherRecord_of_entry hs h hmem⟩
  cases hwrite : d.vol.readOnly with
  | true =>
    have hro : Dir.unlink crc d t name = some (t, some .EROFS) := by
      unfold Dir.unlink
      rw [if_pos hwrite]
    refine ⟨fun ⟨hfull, hempty⟩ => ?_, fun hc => by cases hc.1⟩
    rw [hro] at hfull hempty
    by_cases hents : sub.HasEntries crc (t.blocks sub.id.ino)
    · cases hfull hents
    · obtain ⟨t', l1, l2, hun, -⟩ := hempty hents
      cases hun
  | false =>
    rw [eq_self_iff_true, true_and]
    by_cases hother : d.OtherRecord (t.blocks d.id.ino)
    · have hrefused := unlink_notEmpty hs hname hwrite h hentry hnode hdir hother
      refine ⟨fun ⟨_, hempty⟩ => iff_of_true ?_ hother, fun hiff => ⟨fun _ => hrefused, fun hno => ?_⟩⟩
      · by_contra hno
        obtain ⟨t', l1, l2, hun, -⟩ := hempty hno
        rw [hrefused] at hun
        cases hun
      · exact absurd (hiff.2 hother) hno
    · obtain ⟨slots', l1, l2, hes, hall, -, hremoved⟩ := unlink_removes hs hname hwrite h hentry hnode fun _ => hother
      refine ⟨fun ⟨hfull, _⟩ => iff_of_false (fun hents => ?_) hother, fun hiff => ⟨fun hents => ?_, fun _ => ?_⟩⟩
      · rw [hremoved] at hfull
        cases (Prod.mk.inj (Option.some.inj (hfull hents))).2
      · exact absurd (hiff.1 hents) hother
      · refine ⟨_, l1, l2, hremoved, hes, ?_⟩
        dsimp only
        rw [Function.update_self]
        exact hall

def entryBlock : Mem := setByte (writeLE (liveRecord (fun _ => 0) 0 1024 9) 0 4 11) 8 97

def freeBlock : Mem := writeLE (fun _ => 0) 4 2 1024

def subDir : Dir := { smallDir with id := ⟨11, 0⟩ }

def dirTree (inner : Mem) : Tree :=
  ⟨fun _ => some ⟨0x4000, 2, 2, 2, true⟩, fun ino => if ino = 2 then [some entryBlock] else [some inner]⟩

private theorem entryBlock_holds : Dir.HoldsAll zeroCrc smallDir [some entryBlock] [([97], 11)] ∧
    Dir.HoldsAll zeroCrc subDir [some entryBlock] [([97], 11)] := by
  have hrec : smallDir.HasRec entryBlock 0 ⟨11, 1024, 1, [97]⟩ := ⟨rfl, by decide, by decide⟩
  have hrec' : subDir.HasRec entryBlock 0 ⟨11, 1024, 1, [97]⟩ := ⟨rfl, by decide, by decide⟩
  exact ⟨⟨_, [], rfl, ⟨[⟨11, 1024, 1, [97]⟩], ⟨hrec, rfl⟩, (fun hc => by cases hc), rfl⟩, rfl, rfl⟩,
    ⟨_, [], rfl, ⟨[⟨11, 1024, 1, [97]⟩], ⟨hrec', rfl⟩, (fun hc => by cases hc), rfl⟩, rfl, rfl⟩⟩

/-- The directory `a` has an entry, and stays. -/
theorem removesDir_full : Dir.RemovesDir zeroCrc smallDir subDir (dirTree entryBlock) [97] [([97], 11)] := by
  have hopen : openfs smallDir.vol.super = some (.ok 1) := by decide
  obtain ⟨hiff, hother⟩ := removesDir_iff zeroCrc (t := dirTree entryBlock) hopen entryBlock_holds.1
    (show ([97] : List UInt8) ≠ [] by decide)
    (show [(([97] : List UInt8), 11)].lookup [97] = some subDir.id.ino from rfl)
    rfl (by decide)
  refine hiff.2 ⟨rfl, iff_of_true ⟨_, entryBlock_holds.2, _, List.mem_cons_self, ?_⟩ (hother ?_)⟩
  · decide
  · unfold Ordinary
    decide

/-- The directory `a` is empty, and stays. -/
theorem not_removesDir : ¬ subDir.HasEntries zeroCrc [some freeBlock] ∧
    Dir.unlink zeroCrc smallDir (dirTree freeBlock) [97] = some (dirTree freeBlock, some .ENOTEMPTY) ∧
    ¬ Dir.RemovesDir zeroCrc smallDir subDir (dirTree freeBlock) [97] [([97], 11)] := by
  have hrec : subDir.HasRec freeBlock 0 ⟨0, 1024, 0, []⟩ := ⟨rfl, by decide, by decide⟩
  have hholds : Dir.HoldsAll zeroCrc subDir [some freeBlock] [] :=
    ⟨[], [], rfl, ⟨[⟨0, 1024, 0, []⟩], ⟨hrec, rfl⟩, (fun hc => by cases hc), rfl⟩, rfl, rfl⟩
  have hents : ¬ subDir.HasEntries zeroCrc [some freeBlock] := by
    rintro ⟨es, hes, e, he, -⟩
    rw [holdsAll_unique hes hholds] at he
    cases he
  have hother : smallDir.OtherRecord [some entryBlock] :=
    otherRecord_of_entry smallDir_sized entryBlock_holds.1
      (show (([97] : List UInt8), 11) ∈ [(([97] : List UInt8), 11)] from List.mem_cons_self) (by
        unfold Ordinary
        decide)
  have hrefused : Dir.unlink zeroCrc smallDir (dirTree freeBlock) [97] = some (dirTree freeBlock, some .ENOTEMPTY) :=
    unlink_notEmpty (t := dirTree freeBlock) smallDir_sized (by decide) rfl entryBlock_holds.1 rfl rfl
      (by decide) hother
  refine ⟨hents, hrefused, fun ⟨_, hempty⟩ => ?_⟩
  obtain ⟨t', l1, l2, hun, -⟩ := hempty hents
  rw [hrefused] at hun
  cases hun

end Pml.Ext2
