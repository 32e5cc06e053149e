import Pml.Ext2.BitmapFile

/-!
# Groups with copies of the superblock (`drivers/fs/ext2/util.c`)

In the format every group has a copy of the superblock and of the descriptors; with the SPARSE_SUPER feature only the
groups 0, 1 and the powers of 3, 5 and 7 have them, and with the compatible feature SPARSE_SUPER2 only group 0 and the
two groups in `s_backup_bgs`.  `ext2_bg_has_super` does not look at SPARSE_SUPER2: it takes the two groups if
SPARSE_SUPER is set and the powers if it is not.

The division loop finds the powers (`testRoot_iff`).  A file system is flushed to the blocks that the format reserves
exactly when none of its groups is one of those where the two rules differ (`followsFormat_iff`).
-/

namespace Pml.Ext2

variable {group : Nat}

def SparseGroup (group : Nat) : Prop := ∃ k, group = 3 ^ k ∨ group = 5 ^ k ∨ group = 7 ^ k

namespace Super

variable (s : Super) (sparseSuper2 : Bool)

/-- A group that `s_backup_bgs` names. -/
def BackupGroup (group : Nat) : Prop := group = s.backupBgs.1 ∨ group = s.backupBgs.2

def FormatHasSuper (group : Nat) : Prop :=
  group = 0 ∨
    if sparseSuper2 then s.BackupGroup group
    else if s.sparseSuper then SparseGroup group
    else True

/-- The two rules agree on a group: it is the first one, or both features are set, or one of them is and the group is
in `s_backup_bgs` if it is sparse and only then, or none of them is and it is sparse. -/
def RulesAgree (group : Nat) : Prop :=
  group = 0 ∨
    if s.sparseSuper ∧ sparseSuper2 then True
    else if s.sparseSuper ∨ sparseSuper2 then (s.BackupGroup group ↔ SparseGroup group)
    else SparseGroup group

end Super

/-! ### The powers -/

private theorem testRoot_iff {x fuel : Nat} (hx : 1 < x) (hpos : 0 < group) (hfuel : group ≤ fuel) :
    testRoot fuel group x = true ↔ ∃ k, 0 < k ∧ group = x ^ k := by
  induction fuel generalizing group with
  | zero => omega
  | succ fuel ih =>
    unfold testRoot
    by_cases hlt : group < x
    · rw [if_pos hlt]
      refine iff_of_false Bool.false_ne_true ?_
      rintro ⟨k, hk, rfl⟩
      have hle : x ^ 1 ≤ x ^ k := Nat.pow_le_pow_right (by omega) hk
      rw [Nat.pow_one] at hle
      omega
    · rw [if_neg hlt]
      by_cases heq : group = x
      · rw [if_pos heq]
        exact iff_of_true rfl ⟨1, Nat.one_pos, by rw [heq, Nat.pow_one]⟩
      · rw [if_neg heq]
        by_cases hmod : group % x = 0
        · rw [if_neg (not_not.2 hmod)]
          have hmul : x * (group / x) = group := Nat.mul_div_cancel' (Nat.dvd_of_mod_eq_zero hmod)
          have hdiv : group / x < group := Nat.div_lt_self hpos hx
          have hdpos : 0 < group / x := Nat.div_pos (by omega) (by omega)
          rw [ih hdpos (by omega)]
          constructor
          · rintro ⟨k, hk, hpow⟩
            exact ⟨k + 1, Nat.succ_pos k, by rw [Nat.pow_succ', ← hpow, hmul]⟩
          · rintro ⟨k, hk, hpow⟩
            obtain ⟨j, rfl⟩ := Nat.exists_eq_succ_of_ne_zero (Nat.ne_of_gt hk)
            refine ⟨j, Nat.pos_of_ne_zero ?_, ?_⟩
            · rintro rfl
              exact heq (by rw [hpow, Nat.pow_one])
            · rw [hpow, Nat.pow_succ', Nat.mul_div_cancel_left _ (by omega)]
        · rw [if_pos hmod]
          refine iff_of_false Bool.false_ne_true ?_
          rintro ⟨k, hk, rfl⟩
          exact hmod (Nat.mod_eq_zero_of_dvd (dvd_pow_self x (Nat.ne_of_gt hk)))

private theorem odd_of_pow {x k : Nat} (hx : x % 2 = 1) : x ^ k % 2 = 1 := by
  rw [Nat.pow_mod, hx, Nat.one_pow]

private theorem SparseGroup.odd (h : SparseGroup group) : group % 2 = 1 := by
  obtain ⟨k, rfl | rfl | rfl⟩ := h
  · exact odd_of_pow rfl
  · exact odd_of_pow rfl
  · exact odd_of_pow rfl

private theorem sparseGroup_iff (hgroup : 1 < group) :
    SparseGroup group ↔ (testRoot group group 3 || testRoot group group 5 || testRoot group group 7) = true := by
  have hone : ∀ {x k : Nat}, group = x ^ k → 0 < k := by
    rintro x k rfl
    refine Nat.pos_of_ne_zero ?_
    rintro rfl
    rw [Nat.pow_zero] at hgroup
    omega
  rw [Bool.or_eq_true, Bool.or_eq_true, testRoot_iff (by decide) (by omega) le_rfl,
    testRoot_iff (by decide) (by omega) le_rfl, testRoot_iff (by decide) (by omega) le_rfl]
  constructor
  · rintro ⟨k, h | h | h⟩
    · exact Or.inl (Or.inl ⟨k, hone h, h⟩)
    · exact Or.inl (Or.inr ⟨k, hone h, h⟩)
    · exact Or.inr ⟨k, hone h, h⟩
  · rintro ((⟨k, -, h⟩ | ⟨k, -, h⟩) | ⟨k, -, h⟩)
    · exact ⟨k, Or.inl h⟩
    · exact ⟨k, Or.inr (Or.inl h)⟩
    · exact ⟨k, Or.inr (Or.inr h)⟩

namespace Super

variable (s : Super) (sparseSuper2 : Bool)

private theorem bgHasSuper_iff (group : Nat) : s.bgHasSuper group = true ↔
    group = 0 ∨ if s.sparseSuper then s.BackupGroup group else SparseGroup group := by
  unfold bgHasSuper
  by_cases h0 : group = 0
  · rw [if_pos h0]
    exact iff_of_true rfl (Or.inl h0)
  · rw [if_neg h0, or_iff_right h0]
    by_cases hs : s.sparseSuper = true
    · rw [if_pos hs, if_pos hs, Bool.or_eq_true, beq_iff_eq, beq_iff_eq]
      exact Iff.rfl
    · rw [if_neg hs, if_neg hs]
      by_cases h1 : group ≤ 1
      · rw [if_pos h1]
        exact iff_of_true rfl ⟨0, Or.inl (by rw [Nat.pow_zero]; omega)⟩
      · rw [if_neg h1]
        by_cases heven : group % 2 = 0
        · rw [if_pos heven]
          refine iff_of_false Bool.false_ne_true fun h => ?_
          have hodd := h.odd
          omega
        · rw [if_neg heven]
          exact (sparseGroup_iff (by omega)).symm

private theorem bgHasSuper_format_iff (group : Nat) :
    (s.bgHasSuper group = true ↔ s.FormatHasSuper sparseSuper2 group) ↔ s.RulesAgree sparseSuper2 group := by
  rw [bgHasSuper_iff]
  unfold FormatHasSuper RulesAgree
  by_cases h0 : group = 0
  · simp only [h0, true_or]
  · simp only [h0, false_or]
    cases hs : s.sparseSuper <;> cases sparseSuper2 <;> simp [iff_comm]

end Super

/-! ### The copies that are written -/

/-- A copy of the superblock to a block, or of descriptors to a number of blocks. -/
inductive Backup
  | super (group block : Nat)
  | desc (group block count : Nat)

namespace Volume

variable (v : Volume)

def superStart (group : Nat) : Nat :=
  if v.super.firstDataBlock + v.super.blocksPerGroup * group = 0 ∧ v.super.blksize = 1024 then 1
  else v.super.firstDataBlock + v.super.blocksPerGroup * group

def OldDescriptors (group : Nat) : Prop := !v.super.metaBg ∨ group / v.super.descPerBlock < v.super.firstMetaBg

instance (group : Nat) : Decidable (v.OldDescriptors group) :=
  inferInstanceAs (Decidable (_ ∨ _))

/-- The copies for one group in the loop of `ext2_flush_fs`. -/
def groupBackups (group : Nat) : List Backup :=
  let (superBlock, oldDesc, newDesc) := v.superBgdLoc group
  let oldDescBlocks := if v.super.metaBg then min v.super.firstMetaBg v.descBlocks else v.descBlocks
  (if 0 < group ∧ superBlock ≠ 0 then [.super group superBlock] else []) ++
    (if oldDesc ≠ 0 then [.desc group oldDesc oldDescBlocks] else []) ++
    if newDesc ≠ 0 then [.desc group newDesc 1] else []

def untilFailure (ok : Backup → Bool) : List Backup → List Backup
  | [] => []
  | w :: ws => if ok w then w :: untilFailure ok ws else [w]

/-- The copies that the loop of `ext2_flush_fs` writes; what comes before the loop can only end the call. -/
def flushBackups (ok : Backup → Bool) : List Backup :=
  untilFailure ok ((List.range v.groupDescCount).flatMap v.groupBackups)

variable (sparseSuper2 : Bool)

/-- The format reserves the blocks for a copy of descriptors: together with a copy of the superblock, or in the first
two groups and the last one of a meta block group. -/
def DescReserved (group block count : Nat) : Prop :=
  if v.OldDescriptors group then
    v.super.FormatHasSuper sparseSuper2 group ∧ v.superStart group < block ∧ block + count ≤ v.superStart group + 1 +
      if v.super.metaBg then v.super.firstMetaBg else v.descBlocks + v.super.reservedGdtBlocks
  else
    (group % v.super.descPerBlock = 0 ∨ group % v.super.descPerBlock = 1 ∨
      group % v.super.descPerBlock = v.super.descPerBlock - 1) ∧ count = 1 ∧
    (v.super.FormatHasSuper sparseSuper2 group → block = v.superStart group + 1) ∧
    (¬ v.super.FormatHasSuper sparseSuper2 group → block = v.superStart group)

def Reserved : Backup → Prop
  | .super group block => v.super.FormatHasSuper sparseSuper2 group ∧ block = v.superStart group
  | .desc group block count => v.DescReserved sparseSuper2 group block count

/-- The groups with copies are those of the format, and all copies go to the blocks that the format reserves. -/
def FollowsFormat : Prop :=
  (∀ i < v.groupDescCount, v.super.bgHasSuper i = true ↔ v.super.FormatHasSuper sparseSuper2 i) ∧
    ∀ ok, ∀ w ∈ v.flushBackups ok, v.Reserved sparseSuper2 w

variable {v sparseSuper2}

private theorem mem_of_mem_untilFailure {ok : Backup → Bool} {w : Backup} {ws : List Backup}
    (h : w ∈ untilFailure ok ws) :
    w ∈ ws := by
  induction ws with
  | nil => exact h
  | cons x ws ih =>
    unfold untilFailure at h
    split at h
    · rcases List.mem_cons.1 h with rfl | h
      · exact List.mem_cons_self
      · exact List.mem_cons_of_mem _ (ih h)
    · rw [List.mem_singleton.1 h]
      exact List.mem_cons_self

private theorem superBgdLoc_eq (group : Nat) : v.superBgdLoc group =
    (if v.super.bgHasSuper group then v.superStart group else 0,
      if v.OldDescriptors group then if v.super.bgHasSuper group then v.superStart group + 1 else 0 else 0,
      if v.OldDescriptors group then 0
      else if group % v.super.descPerBlock = 0 ∨ group % v.super.descPerBlock = 1 ∨
          group % v.super.descPerBlock = v.super.descPerBlock - 1 then
        v.superStart group + if v.super.bgHasSuper group then 1 else 0
      else 0) := by
  unfold superBgdLoc superStart OldDescriptors
  dsimp only
  split_ifs <;> rfl

/-- The copies for a group that the code takes right go to their blocks. -/
private theorem groupBackups_reserved
    (h : v.super.bgHasSuper group = true ↔ v.super.FormatHasSuper sparseSuper2 group)
    {w : Backup} (hw : w ∈ v.groupBackups group) : v.Reserved sparseSuper2 w := by
  unfold groupBackups at hw
  rw [superBgdLoc_eq] at hw
  simp only [List.mem_append, List.mem_ite_nil_right, List.mem_singleton] at hw
  rcases hw with (⟨⟨-, hne⟩, rfl⟩ | ⟨hne, rfl⟩) | ⟨hne, rfl⟩
  · have hs : v.super.bgHasSuper group = true := by
      by_contra hs
      exact hne (if_neg hs)
    exact ⟨h.1 hs, if_pos hs⟩
  · by_cases hold : v.OldDescriptors group
    · rw [if_pos hold] at hne ⊢
      have hs : v.super.bgHasSuper group = true := by
        by_contra hs
        exact hne (if_neg hs)
      change v.DescReserved sparseSuper2 group _ _
      unfold DescReserved
      rw [if_pos hold, if_pos hs]
      refine ⟨h.1 hs, Nat.lt_succ_self _, ?_⟩
      split
      · exact Nat.add_le_add_left (Nat.min_le_left _ _) _
      · omega
    · exact absurd (if_neg hold) hne
  · by_cases hold : v.OldDescriptors group
    · exact absurd (if_pos hold) hne
    · rw [if_neg hold] at hne ⊢
      change v.DescReserved sparseSuper2 group _ _
      unfold DescReserved
      rw [if_neg hold]
      by_cases hpos : group % v.super.descPerBlock = 0 ∨ group % v.super.descPerBlock = 1 ∨
          group % v.super.descPerBlock = v.super.descPerBlock - 1
      · rw [if_pos hpos]
        refine ⟨hpos, rfl, fun hf => ?_, fun hf => ?_⟩
        · rw [if_pos (h.2 hf)]
        · rw [if_neg fun hs => hf (h.1 hs), Nat.add_zero]
      · exact absurd (if_neg hpos) hne

end Volume

/-- The code takes a group for a group with copies as the format does exactly if the two rules agree on the group, and
a file system has its copies where the format reserves blocks for them exactly if they agree on all its groups. -/
theorem followsFormat_iff (v : Volume) (sparseSuper2 : Bool) :
    (∀ group, (v.super.bgHasSuper group = true ↔ v.super.FormatHasSuper sparseSuper2 group) ↔
      v.super.RulesAgree sparseSuper2 group) ∧
    (v.FollowsFormat sparseSuper2 ↔ ∀ i < v.groupDescCount, v.super.RulesAgree sparseSuper2 i) := by
  refine ⟨v.super.bgHasSuper_format_iff sparseSuper2, ?_, fun h => ?_⟩
  · rintro ⟨h, -⟩ i hi
    exact (v.super.bgHasSuper_format_iff sparseSuper2 i).1 (h i hi)
  · have hsuper : ∀ i < v.groupDescCount,
        (v.super.bgHasSuper i = true ↔ v.super.FormatHasSuper sparseSuper2 i) :=
      fun i hi => (v.super.bgHasSuper_format_iff sparseSuper2 i).2 (h i hi)
    refine ⟨hsuper, fun ok w hw => ?_⟩
    obtain ⟨i, hi, hw⟩ := List.mem_flatMap.1 (Volume.mem_of_mem_untilFailure hw)
    exact Volume.groupBackups_reserved (hsuper i (List.mem_range.1 hi)) hw

/-- A volume with the SPARSE_SUPER feature, and no groups in `s_backup_bgs`. -/
def sparseVolume : Volume :=
  { smallVolume with
    super := { smallVolume.super with sparseSuper := true, blocksCountLo := 24 }, groupDescCount := 3 }

/-- Group 1 has a copy of the superblock, and the code does not write it. -/
theorem sparse_group_missed : sparseVolume.super.FormatHasSuper false 1 ∧ sparseVolume.super.bgHasSuper 1 = false ∧
    ¬ sparseVolume.FollowsFormat false := by
  have hformat : sparseVolume.super.FormatHasSuper false 1 := Or.inr ⟨0, Or.inl rfl⟩
  have hcode : sparseVolume.super.bgHasSuper 1 = false := rfl
  refine ⟨hformat, hcode, fun h => ?_⟩
  have htrue := (h.1 1 (by decide)).2 hformat
  rw [hcode] at htrue
  cases htrue

end Pml.Ext2
