import Pml.Ext2.AllocStats

/-!
# The search for a free block (`ext2_new_block`)

`ext2_find_first_zero_bitmap` is sound and complete in a range inside of the bitmap (`findFirstZero_cases`), also
where the numbers are clusters.  `ext2_new_block` searches from the goal to the last block and then from the first
block to the goal.  A goal that is no block is meant to be replaced, but only the bits below the cluster size are
cleared, so that the first search fails with an error that ends the call.  `newBlock_complete_iff` says for which
goals a free block is found.
-/

namespace Pml.Ext2

open ByteMemory

/-! ### Searches in a bitmap -/

def Bitmap.InRange : Bitmap → Nat → Nat → Prop
  | .narrow b, first, stop => b.start ≤ first ∧ stop ≤ b.last ∧ first ≤ stop
  | .wide b, first, stop => b.start ≤ first >>> b.clusterBits ∧ stop >>> b.clusterBits ≤ b.last ∧ first ≤ stop

instance (b : Bitmap) (first stop : Nat) : Decidable (b.InRange first stop) :=
  match b with
  | .narrow _ => inferInstanceAs (Decidable (_ ∧ _))
  | .wide _ => inferInstanceAs (Decidable (_ ∧ _))

theorem Bitmap.InRange.le {b : Bitmap} {first stop : Nat} (h : b.InRange first stop) : first ≤ stop := by
  cases b with
  | narrow b => exact h.2.2
  | wide b => exact h.2.2

def Bitmap.Fits : Bitmap → Prop
  | .narrow b => b.last < 2 ^ 32
  | .wide _ => True

private theorem findFirstZero_clusters {b : Bitmap64} (first stop : Nat) : findFirstZero (.wide b) first stop =
    if first >>> b.clusterBits < b.start ∨ b.last < stop >>> b.clusterBits ∨ stop < first then .error .EUCLEAN
    else match zeroBit b.bitarray (first >>> b.clusterBits - b.start)
        (stop >>> b.clusterBits - first >>> b.clusterBits + 1) with
      | some i => .ok (max first ((i + b.start) <<< b.clusterBits))
      | none => .error .ENOENT := by
  rw [findFirstZero]
  simp only [bitarrayFindZero_eq]
  split
  · rfl
  · cases zeroBit b.bitarray (first >>> b.clusterBits - b.start) _ with
    | none => rfl
    | some i =>
      dsimp only
      split
      · rename_i hle
        rw [Nat.max_eq_right hle]
      · rename_i hle
        rw [Nat.max_eq_left (Nat.le_of_not_le hle)]

private theorem zeroBit_first {m : Mem} {bitpos count i : Nat} (h : zeroBit m bitpos count = some i) :
    bitpos ≤ i ∧ i < bitpos + count ∧ testBit m i = 0 ∧ ∀ j, bitpos ≤ j → j < i → testBit m j ≠ 0 := by
  obtain ⟨h1, h2, h3⟩ := zeroBit_some h
  refine ⟨h1, h2, h3, fun j hj hlt => ?_⟩
  simpa using (List.find?_range'_eq_some.1 h).2.2 j hj hlt

private theorem zeroBit_none {m : Mem} {bitpos count : Nat} (h : zeroBit m bitpos count = none) (j : Nat)
    (h1 : bitpos ≤ j) (h2 : j < bitpos + count) : testBit m j ≠ 0 := by
  simpa using List.find?_range'_eq_none.1 h j h1 h2

/-- The first free number of the range is found, or there is none, if the range lies in the bitmap. -/
theorem findFirstZero_cases {b : Bitmap} (hb : b.Fits) (first stop : Nat) :
    (¬b.InRange first stop ∧ findFirstZero b first stop = .error .EUCLEAN) ∨
    (b.InRange first stop ∧ ∃ i, findFirstZero b first stop = .ok i ∧ first ≤ i ∧ i ≤ stop ∧ testBitmap b i = 0 ∧
      ∀ j, first ≤ j → j < i → testBitmap b j ≠ 0) ∨
    (b.InRange first stop ∧ findFirstZero b first stop = .error .ENOENT ∧
      ∀ j, first ≤ j → j ≤ stop → testBitmap b j ≠ 0) := by
  by_cases hr : b.InRange first stop
  swap
  · refine Or.inl ⟨hr, ?_⟩
    cases b with
    | narrow b =>
      rw [findFirstZero_narrow hb, if_pos]
      simp only [Bitmap.InRange] at hr
      omega
    | wide b =>
      rw [findFirstZero_clusters, if_pos]
      simp only [Bitmap.InRange] at hr
      omega
  right
  cases b with
  | narrow b =>
    obtain ⟨h1, h2, h3⟩ := id hr
    have hfits : b.last < 2 ^ 32 := hb
    have htest : ∀ x, first ≤ x → x ≤ stop → testBitmap (.narrow b) x = testBit b.bitmap (x - b.start) :=
      fun x hx hx' => if_neg (by omega)
    rw [findFirstZero_narrow hb, if_neg (by omega)]
    rcases hz : zeroBit b.bitmap (first - b.start) (stop - first + 1) with _ | i
    · refine Or.inr ⟨hr, rfl, fun j hj hj' => ?_⟩
      rw [htest j hj hj']
      exact zeroBit_none hz _ (by omega) (by omega)
    · obtain ⟨h4, h5, h6, h7⟩ := zeroBit_first hz
      refine Or.inl ⟨hr, _, rfl, by omega, by omega, ?_, fun j hj hj' => ?_⟩
      · rw [htest _ (by omega) (by omega), Nat.add_sub_cancel]
        exact h6
      · rw [htest j hj (by omega)]
        exact h7 _ (by omega) (by omega)
  | wide b =>
    obtain ⟨h1, h2, h3⟩ := id hr
    have hmono : ∀ {x y : Nat}, x ≤ y → x >>> b.clusterBits ≤ y >>> b.clusterBits := fun h => by
      rw [Nat.shiftRight_eq_div_pow, Nat.shiftRight_eq_div_pow]
      exact Nat.div_le_div_right h
    have htest : ∀ x, first ≤ x → x ≤ stop →
        testBitmap (.wide b) x = testBit b.bitarray (x >>> b.clusterBits - b.start) := fun x hx hx' => by
      have h4 := hmono hx
      have h5 := hmono hx'
      exact if_neg (by omega)
    have hfs := hmono h3
    rw [findFirstZero_clusters, if_neg (by omega)]
    rcases hz : zeroBit b.bitarray (first >>> b.clusterBits - b.start)
        (stop >>> b.clusterBits - first >>> b.clusterBits + 1) with _ | i
    · refine Or.inr ⟨hr, rfl, fun j hj hj' => ?_⟩
      have h4 := hmono hj
      have h5 := hmono hj'
      rw [htest j hj hj']
      exact zeroBit_none hz _ (by omega) (by omega)
    · obtain ⟨h4, h5, h6, h7⟩ := zeroBit_first hz
      obtain ⟨c, hc⟩ : ∃ c, i + b.start = c := ⟨_, rfl⟩
      -- the cluster that is found starts in the range, or the range starts in it
      have hpos : 0 < 2 ^ b.clusterBits := Nat.two_pow_pos _
      have hstop : c <<< b.clusterBits ≤ stop := by
        rw [Nat.shiftLeft_eq, ← Nat.le_div_iff_mul_le hpos, ← Nat.shiftRight_eq_div_pow]
        omega
      have hback : max first (c <<< b.clusterBits) >>> b.clusterBits = c := by
        rcases Nat.le_total first (c <<< b.clusterBits) with hle | hle
        · rw [Nat.max_eq_right hle, Nat.shiftLeft_shiftRight]
        · have h8 := hmono hle
          rw [Nat.shiftLeft_shiftRight] at h8
          rw [Nat.max_eq_left hle]
          omega
      dsimp only
      rw [hc]
      refine Or.inl ⟨hr, _, rfl, Nat.le_max_left _ _, max_le h3 hstop, ?_, fun j hj hj' => ?_⟩
      · rw [htest _ (Nat.le_max_left _ _) (max_le h3 hstop), hback, ← hc, Nat.add_sub_cancel]
        exact h6
      · have hlt : j < c <<< b.clusterBits := (lt_max_iff.1 hj').resolve_left (by omega)
        have h8 := hmono hj
        have h9 : j >>> b.clusterBits < c := by
          rw [Nat.shiftRight_eq_div_pow, Nat.div_lt_iff_lt_mul hpos, ← Nat.shiftLeft_eq]
          exact hlt
        rw [htest j hj (by omega)]
        exact h7 _ (by omega) (by omega)

/-! ### `ext2_new_block` -/

/-- The block bitmap is as `ext2_allocate_block_bitmap` makes it. -/
def BlockBitmapOf (s : Super) : Bitmap → Prop
  | .narrow b => b.start = s.firstDataBlock >>> s.clusterRatioBits ∧
    b.last = (s.blocksCount - 1) >>> s.clusterRatioBits ∧ b.last < 2 ^ 32
  | .wide b => b.start = s.firstDataBlock >>> s.clusterRatioBits ∧
    b.last = (s.blocksCount - 1) >>> s.clusterRatioBits ∧ b.clusterBits = s.clusterRatioBits

def Volume.searchGoal (v : Volume) (goal : Nat) : Nat :=
  if goal = 0 ∨ v.super.blocksCount ≤ goal then alignDown goal (2 ^ v.super.clusterRatioBits) else goal

def Volume.FreeBlock (v : Volume) (b : Nat) : Prop :=
  v.super.firstDataBlock ≤ b ∧ b < v.super.blocksCount ∧ testBitmap v.blockBitmap b = 0

/-- A free block is found if there is one, and the call fails if there is none. -/
def NewBlockComplete (v : Volume) (crc : Crc) (goal : Nat) : Prop :=
  ((∃ b, v.FreeBlock b) → ∃ w b, v.newBlock crc goal = .ok (w, b) ∧ v.FreeBlock b) ∧
    ((¬∃ b, v.FreeBlock b) → ∃ e, v.newBlock crc goal = .error e)

/-- There is no free block; or the search starts in the bitmap, and not at a free number before the first block. -/
def GoalFine (v : Volume) (goal : Nat) : Prop :=
  (∀ b, ¬v.FreeBlock b) ∨ v.blockBitmap.InRange (v.searchGoal goal) (v.super.blocksCount - 1) ∧
    (v.super.firstDataBlock ≤ v.searchGoal goal ∨ testBitmap v.blockBitmap (v.searchGoal goal) ≠ 0)

theorem BlockBitmapOf.fits {s : Super} {b : Bitmap} (h : BlockBitmapOf s b) : b.Fits := by
  cases b with
  | narrow b => exact h.2.2
  | wide b => trivial

private theorem Opened.ratio_lt {s : Super} {count : Nat} (h : Opened s count) : s.clusterRatioBits < 32 := by
  by_contra hge
  have hpos := h.blocks_pos
  obtain ⟨k, hk⟩ := Nat.exists_eq_add_of_le (Nat.le_of_not_lt hge)
  rw [h.perGroup, Nat.shiftLeft_eq, hk, Nat.pow_add, Nat.mul_left_comm, Nat.mul_mod_right] at hpos
  exact Nat.lt_irrefl 0 hpos

section

variable {s : Super} {b : Bitmap} {count g : Nat} (h : BlockBitmapOf s b) (ho : Opened s count)
include h ho

/-- Where the search starts before the first block, it starts in the cluster of the first block. -/
private theorem BlockBitmapOf.same_cluster (hr : b.InRange g (s.blocksCount - 1)) {x : Nat} (h1 : g ≤ x)
    (h2 : x ≤ s.firstDataBlock) : testBitmap b x = testBitmap b g := by
  have hfirst := ho.first_lt
  cases b with
  | narrow b =>
    obtain ⟨hs, hl, -⟩ := h
    obtain ⟨h3, h4, -⟩ := hr
    rcases Nat.eq_zero_or_pos s.clusterRatioBits with h0 | hpos
    · rw [hs, h0, Nat.shiftRight_zero] at h3
      rw [show x = g by omega]
    · -- no cluster has more than one block
      have hpow : 2 ^ 1 ≤ 2 ^ s.clusterRatioBits := Nat.pow_le_pow_right (by decide) hpos
      have hle : (s.blocksCount - 1) / 2 ^ s.clusterRatioBits ≤ (s.blocksCount - 1) / 2 ^ 1 :=
        Nat.div_le_div_left hpow (by decide)
      rw [hl, Nat.shiftRight_eq_div_pow] at h4
      rw [show x = g by omega]
  | wide b =>
    obtain ⟨hs, hl, hc⟩ := h
    obtain ⟨h3, h4, h5⟩ := hr
    rw [hs, hc] at h3
    have hmono : ∀ {y z : Nat}, y ≤ z → y >>> s.clusterRatioBits ≤ z >>> s.clusterRatioBits := fun hyz => by
      rw [Nat.shiftRight_eq_div_pow, Nat.shiftRight_eq_div_pow]
      exact Nat.div_le_div_right hyz
    have h6 := hmono h1
    have h7 := hmono h2
    simp only [testBitmap, hc]
    rw [show x >>> s.clusterRatioBits = g >>> s.clusterRatioBits by omega]

omit ho in
theorem BlockBitmapOf.before (h1 : s.firstDataBlock < g) (h2 : b.InRange g (s.blocksCount - 1)) :
    b.InRange s.firstDataBlock (g - 1) := by
  cases b with
  | narrow b =>
    obtain ⟨hs, hl, -⟩ := h
    obtain ⟨-, h4, h5⟩ := h2
    have h6 : s.firstDataBlock >>> s.clusterRatioBits ≤ s.firstDataBlock := by
      rw [Nat.shiftRight_eq_div_pow]
      exact Nat.div_le_self _ _
    exact ⟨by omega, by omega, by omega⟩
  | wide b =>
    obtain ⟨hs, hl, hc⟩ := h
    obtain ⟨-, h4, h5⟩ := h2
    have h6 : (g - 1) >>> s.clusterRatioBits ≤ (s.blocksCount - 1) >>> s.clusterRatioBits := by
      rw [Nat.shiftRight_eq_div_pow, Nat.shiftRight_eq_div_pow]
      exact Nat.div_le_div_right (by omega)
    exact ⟨by rw [hs, hc], by rw [hc, hl]; exact h6, by omega⟩

private theorem BlockBitmapOf.not_before (hg : g < s.firstDataBlock) : ¬b.InRange s.firstDataBlock (sub64 g 1) := by
  have hfirst := ho.first_lt
  have hcount := ho.count_lt
  intro hr
  have h3 := hr.le
  have hg0 : sub64 g 1 = 2 ^ 64 - 1 := by
    unfold sub64 at *
    omega
  rw [hg0] at hr
  cases b with
  | narrow b =>
    obtain ⟨-, -, hl⟩ := h
    have h4 := hr.2.1
    omega
  | wide b =>
    obtain ⟨-, hl, hc⟩ := h
    have h4 := hr.2.1
    rw [hl, hc, Nat.shiftRight_eq_div_pow, Nat.shiftRight_eq_div_pow] at h4
    -- the number of the last cluster is smaller
    have hpos : 0 < 2 ^ s.clusterRatioBits := Nat.two_pow_pos _
    have h5 : (s.blocksCount - 1) / 2 ^ s.clusterRatioBits < (2 ^ 64 - 1) / 2 ^ s.clusterRatioBits := by
      rw [Nat.div_lt_iff_lt_mul hpos]
      have h6 := Nat.lt_div_mul_add hpos (a := 2 ^ 64 - 1)
      have h7 : 2 ^ s.clusterRatioBits ≤ 2 ^ 32 := Nat.pow_le_pow_right (by decide) ho.ratio_lt.le
      omega
    omega

end

section

variable {v : Volume} {crc : Crc} {goal : Nat}

private theorem newBlock_cases (hcount : v.super.blocksCount < 2 ^ 63) (hpos : 0 < v.super.blocksCount) :
    v.newBlock crc goal =
    (match findFirstZero v.blockBitmap (v.searchGoal goal) (v.super.blocksCount - 1) with
      | .error .ENOENT =>
        if v.searchGoal goal ≠ v.super.firstDataBlock then
          findFirstZero v.blockBitmap v.super.firstDataBlock (sub64 (v.searchGoal goal) 1)
        else .error .ENOENT
      | r => r).map fun b => (v.clearBlockUninit crc (v.super.groupOfBlock b), b) := by
  unfold Volume.newBlock
  rw [sub64_of_le (by omega) (by omega)]
  rfl

/-- A free block is found for exactly the goals where the first search is in range. -/
theorem newBlock_complete_iff (h : BlockBitmapOf v.super v.blockBitmap) (ho : Opened v.super v.groupDescCount) :
    NewBlockComplete v crc goal ↔ GoalFine v goal := by
  have hfirst := ho.first_lt
  have hcount := ho.count_lt
  have hcall := @newBlock_cases v crc goal hcount (by omega)
  unfold NewBlockComplete GoalFine
  generalize v.searchGoal goal = g at hcall ⊢
  have hfails : ∀ e, v.newBlock crc goal = .error e →
      (((∃ b, v.FreeBlock b) → ∃ w b, v.newBlock crc goal = .ok (w, b) ∧ v.FreeBlock b) ∧
        ((¬∃ b, v.FreeBlock b) → ∃ e, v.newBlock crc goal = .error e) ↔ ∀ b, ¬v.FreeBlock b) := by
    intro e he
    rw [he]
    constructor
    · intro h1 b hb
      obtain ⟨w, b, h2, -⟩ := h1.1 ⟨b, hb⟩
      cases h2
    · exact fun h1 => ⟨fun ⟨b, hb⟩ => absurd hb (h1 b), fun _ => ⟨e, rfl⟩⟩
  have hfinds : ∀ w b, v.newBlock crc goal = .ok (w, b) →
      (((∃ b, v.FreeBlock b) → ∃ w b, v.newBlock crc goal = .ok (w, b) ∧ v.FreeBlock b) ∧
        ((¬∃ b, v.FreeBlock b) → ∃ e, v.newBlock crc goal = .error e) ↔ v.FreeBlock b) := by
    intro w b hb
    rw [hb]
    constructor
    · rintro ⟨h1, h2⟩
      by_cases hex : ∃ b, v.FreeBlock b
      · obtain ⟨w', b', h3, h4⟩ := h1 hex
        cases h3
        exact h4
      · obtain ⟨e, h3⟩ := h2 hex
        cases h3
    · exact fun h1 => ⟨fun _ => ⟨w, b, rfl, h1⟩, fun h2 => absurd ⟨b, h1⟩ h2⟩
  rcases findFirstZero_cases h.fits g (v.super.blocksCount - 1) with ⟨hr, hf⟩ | ⟨hr, i, hf, h1, h2, h3, h4⟩
    | ⟨hr, hf, h1⟩
  · -- the goal is no block
    rw [hf] at hcall
    rw [hfails _ hcall]
    simp only [hr, false_and, or_false]
  · rw [hf] at hcall
    rw [hfinds _ _ hcall]
    have hsame := fun x => h.same_cluster ho hr (x := x)
    have hfree : v.FreeBlock i ↔ v.super.firstDataBlock ≤ i := ⟨And.left, fun h5 => ⟨h5, by omega, h3⟩⟩
    rw [hfree]
    constructor
    · intro h5
      refine Or.inr ⟨hr, ?_⟩
      by_contra hno
      obtain ⟨h6, h7⟩ := not_or.1 hno
      exact h4 g (Nat.le_refl _) (by omega) (not_not.1 h7)
    · intro hfine
      by_contra hlt
      have h5 := hsame i h1 (by omega)
      rcases hfine with h6 | ⟨-, h6 | h6⟩
      · -- the first block would be free
        refine h6 v.super.firstDataBlock ⟨Nat.le_refl _, hfirst, ?_⟩
        rw [hsame _ (by omega) (Nat.le_refl _), ← h5]
        exact h3
      · omega
      · exact h6 (h5.symm.trans h3)
  · -- no block from the goal on is free
    have hgc := hr.le
    have hin : v.blockBitmap.InRange g (v.super.blocksCount - 1) ∧
        (v.super.firstDataBlock ≤ g ∨ testBitmap v.blockBitmap g ≠ 0) := ⟨hr, Or.inr (h1 g (Nat.le_refl _) hgc)⟩
    have hbehind : ∀ b, g ≤ b → ¬v.FreeBlock b := fun b hb hfree => h1 b hb (by have := hfree.2.1; omega) hfree.2.2
    rw [hf] at hcall
    dsimp only at hcall
    rcases Nat.lt_trichotomy g v.super.firstDataBlock with hlt | heq | hgt
    · rw [if_pos (by omega)] at hcall
      have hno := h.not_before ho hlt
      rcases findFirstZero_cases h.fits v.super.firstDataBlock (sub64 g 1) with ⟨-, hf2⟩ | ⟨hr2, -⟩ | ⟨hr2, -⟩
      · rw [hf2] at hcall
        rw [hfails _ hcall]
        exact iff_of_true (fun b hb => hbehind b (by have := hb.1; omega) hb) (Or.inr hin)
      · exact absurd hr2 hno
      · exact absurd hr2 hno
    · rw [if_neg (by omega)] at hcall
      rw [hfails _ hcall]
      exact iff_of_true (fun b hb => hbehind b (by have := hb.1; omega) hb) (Or.inr hin)
    · rw [if_pos (by omega), sub64_of_le (by omega) (by omega)] at hcall
      have hr2 := h.before hgt hr
      rcases findFirstZero_cases h.fits v.super.firstDataBlock (g - 1) with ⟨hno, -⟩ | ⟨-, i, hf2, h5, h6, h7, -⟩ |
        ⟨-, hf2, h5⟩
      · exact absurd hr2 hno
      · rw [hf2] at hcall
        rw [hfinds _ _ hcall]
        exact iff_of_true ⟨h5, by omega, h7⟩ (Or.inr hin)
      · rw [hf2] at hcall
        rw [hfails _ hcall]
        refine iff_of_true (fun b hb => ?_) (Or.inr hin)
        rcases Nat.lt_or_ge b g with hlt | hge
        · exact h5 b hb.1 (by omega) hb.2.2
        · exact hbehind b hge hb

/-- Where a cluster is one block, the goal must be a block of the file system. -/
private theorem goalFine_iff (h : BlockBitmapOf v.super v.blockBitmap) (ho : Opened v.super v.groupDescCount)
    (h0 : v.super.clusterRatioBits = 0) (hg : goal < 2 ^ 64) : GoalFine v goal ↔
      (∀ b, ¬v.FreeBlock b) ∨ v.super.firstDataBlock ≤ goal ∧ goal < v.super.blocksCount := by
  have hfirst := ho.first_lt
  have hsearch : v.searchGoal goal = goal := by
    unfold Volume.searchGoal
    rw [h0]
    split
    · exact Nat.and_two_pow_sub_one_of_lt_two_pow hg
    · rfl
  have hrange : v.blockBitmap.InRange goal (v.super.blocksCount - 1) ↔
      v.super.firstDataBlock ≤ goal ∧ goal < v.super.blocksCount := by
    cases hb : v.blockBitmap with
    | narrow b =>
      rw [hb] at h
      obtain ⟨hs, hl, -⟩ := h
      rw [h0, Nat.shiftRight_zero] at hs hl
      simp only [Bitmap.InRange]
      omega
    | wide b =>
      rw [hb] at h
      obtain ⟨hs, hl, hc⟩ := h
      rw [h0, Nat.shiftRight_zero] at hs hl
      simp only [Bitmap.InRange, hc, h0, Nat.shiftRight_zero]
      omega
  unfold GoalFine
  rw [hsearch, hrange]
  exact or_congr_right ⟨And.left, fun h1 => ⟨h1, Or.inl h1.1⟩⟩

end

/-- A goal inside of a file system with free blocks. -/
theorem newBlock_complete_small : NewBlockComplete smallVolume zeroCrc 2 := by
  have hmap : BlockBitmapOf smallVolume.super smallVolume.blockBitmap := ⟨rfl, rfl, by decide⟩
  refine (newBlock_complete_iff hmap smallVolume_mounted.opened).2 ?_
  exact (goalFine_iff hmap smallVolume_mounted.opened (by decide) (by decide)).2 (Or.inr (by decide))

/-- The goal 0 is no block of a file system whose first block is 1, and no free block is found. -/
theorem not_newBlock_complete : Opened smallVolume.super smallVolume.groupDescCount ∧
    BlockBitmapOf smallVolume.super smallVolume.blockBitmap ∧ ¬NewBlockComplete smallVolume zeroCrc 0 := by
  refine ⟨smallVolume_mounted.opened, ⟨rfl, rfl, by decide⟩, fun h => ?_⟩
  obtain ⟨w, b, hcall, -⟩ := h.1 ⟨4, by decide, by decide, by decide⟩
  have hfail : (smallVolume.newBlock zeroCrc 0).map Prod.snd = .error Errno.EUCLEAN := by decide
  rw [hcall] at hfail
  cases hfail

end Pml.Ext2
