import Pml.Ext2.DirectoryMap
import Pml.Vfs.Getdents

/-!
# Enumerating a directory (`drivers/fs/ext2/inode.c`)

`ext2_readdir` iterates over the directory with a function that stores the first entry from an offset on and then ends
the iteration.  The offset is one inside of a block, and it is left in the private data.  What `ext2_readdir` returns
is the value of `ext2_dir_iterate`, which is 0 or an error, so a caller sees the end of the directory at once.  The
name is copied up to the next zero byte, which the record does not have to contain.
-/

namespace Pml.Ext2

open ByteMemory

def cString (m : Mem) : Nat → Nat → Option (List UInt8)
  | 0, _ => none
  | n + 1, a => if m a = 0 then some [] else (cString m n (a + 1)).map (m a :: ·)

def dirType (mode : Nat) : Nat :=
  match mode >>> 12 % 16 with
  | 8 => 1
  | 4 => 2
  | 2 => 3
  | 6 => 4
  | 1 => 5
  | 12 => 6
  | 10 => 7
  | _ => 0

namespace Dir

variable (crc : Crc) (d : Dir)

/-- `ext2_readdir_iter`; the private data is the offset and the entry.  Undefined if the string of the name does not
end in the block, or does not fit in `d_name`. -/
def readdirIter : Func (Int × Vfs.Dirent) := fun offset m s =>
  if (offset : Int) < s.1 then some (m, s, ⟨false, false⟩)
  else
    match cString m (d.blksize - (offset + 8)) (offset + 8) with
    | none => none
    | some name =>
      if 256 ≤ name.length then none
      else
        some (m,
          (offset, ⟨dInode m offset, dNameLen m offset % 256, dirType ((dNameLen m offset >>> 8) <<< 12), name⟩),
          ⟨false, true⟩)

/-- `ext2_readdir`: what it returns and the entry; `dirent` is what the entry is before. -/
def readdir (slots : List (Option Mem)) (dirent : Vfs.Dirent) (offset : Int) : Option (Int × Vfs.Dirent) :=
  (dirIterate crc d false (readdirIter d) slots (offset, dirent)).map fun r =>
    (match r.2.2 with
      | none => 0
      | some _ => -1, r.2.1.2)

/-- The entries of the calls that return a positive offset, each call with the offset that the one before it returned.
With fuel `0` there is no result. -/
def listing (slots : List (Option Mem)) : Nat → Int → Vfs.Dirent → Option (List Vfs.Dirent)
  | 0, _, _ => none
  | fuel + 1, offset, dirent =>
    match readdir crc d slots dirent offset with
    | none => none
    | some (next, dirent) => if 0 < next then (listing slots fuel next dirent).map (dirent :: ·) else some []

/-- The calls give the entries of the directory, each once and with its exact name. -/
def Enumerates (slots : List (Option Mem)) (es : List (List UInt8 × Nat)) : Prop :=
  ∀ dirent, ∃ fuel l, listing crc d slots fuel 0 dirent = some l ∧ (l.map fun e => (e.name, e.ino)).Perm es ∧
    ∀ e ∈ l, e.namlen = e.name.length

end Dir

section

variable {crc : Crc} {d : Dir} {m : Mem} {o fuel : Nat} {rs : List Dirent} {slots : List (Option Mem)}
  {es : List (List UInt8 × Nat)}

private theorem readdir_nonpos {dirent dirent' : Vfs.Dirent} {offset next : Int}
    (h : Dir.readdir crc d slots dirent offset = some (next, dirent')) : ¬ 0 < next := by
  obtain ⟨⟨slots', s, e⟩, -, heq⟩ := Option.map_eq_some_iff.1 h
  cases e with
  | none =>
    cases heq
    exact Int.lt_irrefl 0
  | some e =>
    cases heq
    exact (by decide : ¬ (0 : Int) < -1)

private theorem listing_nil {dirent : Vfs.Dirent} {offset : Int} {l : List Vfs.Dirent}
    (h : Dir.listing crc d slots fuel offset dirent = some l) : l = [] := by
  cases fuel with
  | zero => cases h
  | succ fuel =>
    unfold Dir.listing at h
    cases hr : Dir.readdir crc d slots dirent offset with
    | none =>
      rw [hr] at h
      cases h
    | some r =>
      obtain ⟨next, dirent'⟩ := r
      rw [hr] at h
      dsimp only at h
      rw [if_neg (readdir_nonpos hr)] at h
      cases h
      rfl

/-! ### A directory without entries -/

variable {σ : Type} {func : Dir.Func σ} {s : σ}

private theorem loop_dead (hs : d.Sized) (hrs : d.Tiled m o rs d.top) (htail : d.HasTail m)
    (hdead : ∀ r ∈ rs, r.ino = 0) (hfuel : d.blksize ≤ o + 8 * fuel) :
    d.loop false func (fuel + 1) o m s false = some ⟨m, s, false, false, false⟩ := by
  induction fuel generalizing o rs with
  | zero =>
    rcases tiled_cases hs hrs with ⟨rfl, -⟩ | ⟨_, _, _, _, _, ho⟩ | ⟨ho, -⟩
    · exact loop_end hs htail (by omega) hfuel
    · omega
    · exact loop_end hs htail (Or.inr ho) hfuel
  | succ fuel ih =>
    rcases tiled_cases hs hrs with ⟨rfl, ho⟩ | ⟨r, rs', rfl, hrec, hrest, ho⟩ | ⟨ho, -⟩
    · exact loop_end hs htail (Or.inl ho) hfuel
    · have h8 := hrec.2.eight_le
      rw [loop_tiled hs hrec hrest ho, if_pos ⟨hdead r List.mem_cons_self, rfl⟩]
      exact ih hrest (fun r hr => hdead r (List.mem_cons_of_mem _ hr)) (by omega)
    · exact loop_end hs htail (Or.inr ho) hfuel

private theorem dead_of_entries (h : entries rs = []) : ∀ r ∈ rs, r.ino = 0 := by
  intro r hr
  by_contra h0
  have hmem : (r.name, r.ino) ∈ entries rs := List.mem_filterMap.2 ⟨r, hr, if_neg h0⟩
  rw [h] at hmem
  cases hmem

private theorem dirIterate_dead (hs : d.Sized) (h : Dir.HoldsAll crc d slots []) :
    Dir.dirIterate crc d false func slots s = some (slots, s, none) := by
  induction slots with
  | nil => rfl
  | cons slot slots ih =>
    cases slot with
    | none =>
      rw [Dir.dirIterate, ih h]
      rfl
    | some m =>
      obtain ⟨es1, es2, heq, ⟨rs, hrs, htail, hentries⟩, hvalid, hrest⟩ := h
      obtain ⟨rfl, rfl⟩ := List.append_eq_nil_iff.1 heq.symm
      have hblock : Dir.processDirBlock crc d false func m s = some (m, s, false, none) := by
        unfold Dir.processDirBlock
        rw [if_pos hvalid, loop_dead hs hrs htail (dead_of_entries hentries) (by omega)]
        rfl
      rw [Dir.dirIterate, hblock]
      dsimp only
      rw [ih hrest]
      rfl

end

/-- The calls enumerate a directory of well-formed blocks exactly if it has no entries. -/
theorem readdir_enumerates_iff (crc : Crc) {d : Dir} {count : Nat} (hopen : openfs d.vol.super = some (.ok count))
    {slots : List (Option Mem)} {es : List (List UInt8 × Nat)} (h : Dir.HoldsAll crc d slots es) :
    Dir.Enumerates crc d slots es ↔ es = [] := by
  constructor
  · intro henum
    obtain ⟨fuel, l, hl, hperm, -⟩ := henum ⟨0, 0, 0, []⟩
    rw [listing_nil hl] at hperm
    exact List.nil_perm.1 hperm
  · rintro rfl dirent
    refine ⟨1, [], ?_, List.Perm.refl _, by simp⟩
    unfold Dir.listing Dir.readdir
    rw [dirIterate_dead (sized_of_openfs hopen) h]
    rfl

/-- A block with one free record. -/
theorem readdir_enumerates_free : Dir.Enumerates zeroCrc smallDir [some (writeLE (fun _ => 0) 4 2 1024)] [] := by
  have hopen : openfs smallDir.vol.super = some (.ok 1) := by decide
  have hrec : smallDir.HasRec (writeLE (fun _ => 0) 4 2 1024) 0 ⟨0, 1024, 0, []⟩ := ⟨rfl, by decide, by decide⟩
  have htail : smallDir.HasTail (writeLE (fun _ => 0) 4 2 1024) := fun hcsum => by cases hcsum
  have hholds : Dir.HoldsAll zeroCrc smallDir [some (writeLE (fun _ => 0) 4 2 1024)] [] :=
    ⟨[], [], rfl, ⟨[⟨0, 1024, 0, []⟩], ⟨hrec, rfl⟩, htail, rfl⟩, rfl, rfl⟩
  exact (readdir_enumerates_iff zeroCrc hopen hholds).2 rfl

def dotsBlock : Mem :=
  setByte (setByte (setByte (liveRecord (liveRecord (fun _ => 0) 0 12 9) 12 1012 10) 8 46) 20 46) 21 46

/-- The first call gives the entry `.` and returns 0. -/
theorem not_readdir_enumerates : Dir.HoldsAll zeroCrc smallDir [some dotsBlock] [([46], 1), ([46, 46], 1)] ∧
    Dir.readdir zeroCrc smallDir [some dotsBlock] ⟨0, 0, 0, []⟩ 0 = some (0, ⟨1, 1, 0, [46]⟩) ∧
    ¬ Dir.Enumerates zeroCrc smallDir [some dotsBlock] [([46], 1), ([46, 46], 1)] := by
  have hrec1 : smallDir.HasRec dotsBlock 0 ⟨1, 12, 1, [46]⟩ := ⟨rfl, by decide, by decide⟩
  have hrec2 : smallDir.HasRec dotsBlock 12 ⟨1, 1012, 2, [46, 46]⟩ := ⟨rfl, by decide, by decide⟩
  have htail : smallDir.HasTail dotsBlock := fun hcsum => by cases hcsum
  refine ⟨⟨_, [], (List.append_nil _).symm,
    ⟨[⟨1, 12, 1, [46]⟩, ⟨1, 1012, 2, [46, 46]⟩], ⟨hrec1, hrec2, rfl⟩, htail, rfl⟩, rfl, rfl⟩, rfl, fun h => ?_⟩
  obtain ⟨fuel, l, hl, hperm, -⟩ := h ⟨0, 0, 0, []⟩
  rw [listing_nil hl] at hperm
  cases List.nil_perm.1 hperm

end Pml.Ext2
