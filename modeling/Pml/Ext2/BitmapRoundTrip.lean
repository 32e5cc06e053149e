import Pml.Ext2.Checksums

/-!
# Bitmaps are read back as they were written (`drivers/fs/ext2/bitmap.c`)

The writer and the reader meet at what the disk holds: the block of each group has the bytes of its part of the
bitmap, and a checksum in its descriptor that matches them (`Saved`).  A bit comes back if it is read from where it
was written, or if it is clear and nothing is read for it (`ComesBack`).
-/

namespace Pml.Ext2

open ByteMemory

/-! ### The array of a bitmap -/

def Bitmap.array : Bitmap → Mem
  | .narrow b => b.bitmap
  | .wide b => b.bitarray

def Bitmap.withArray (m : Mem) : Bitmap → Bitmap
  | .narrow b => .narrow { b with bitmap := m }
  | .wide b => .wide { b with bitarray := m }

def Bitmap.index : Bitmap → Nat → Option Nat
  | .narrow b, arg => if 2 ^ 32 ≤ arg ∨ arg < b.start ∨ b.last < arg then none else some (arg - b.start)
  | .wide b, arg =>
    if arg >>> b.clusterBits < b.start ∨ b.last < arg >>> b.clusterBits then none
    else some (arg >>> b.clusterBits - b.start)

def Bitmap.firstByte : Bitmap → Nat → Nat
  | .narrow b, first => (first - b.start) >>> 3
  | .wide _, first => first >>> 3

/-- The range is inside of the bitmap; the 64-bit form does not check it. -/
def Bitmap.RangeOk : Bitmap → Nat → Nat → Prop
  | .narrow b, first, num =>
    ¬(2 ^ 32 ≤ sub64 (add64 first num) 1 ∨ first < b.start ∨ b.realEnd < sub64 (add64 first num) 1)
  | .wide _, _, _ => True

def SameBounds : Bitmap → Bitmap → Prop
  | .narrow b, .narrow b' => b'.start = b.start ∧ b'.last = b.last ∧ b'.realEnd = b.realEnd
  | .wide b, .wide b' =>
    b'.start = b.start ∧ b'.last = b.last ∧ b'.realEnd = b.realEnd ∧ b'.clusterBits = b.clusterBits
  | _, _ => False

section

variable {b b' : Bitmap}

@[simp] theorem Bitmap.array_withArray (m : Mem) : (b.withArray m).array = m := by
  cases b with
  | narrow b => rfl
  | wide b => rfl

@[simp] theorem Bitmap.withArray_withArray (m m' : Mem) : (b.withArray m).withArray m' = b.withArray m' := by
  cases b with
  | narrow b => rfl
  | wide b => rfl

@[simp] theorem Bitmap.withArray_array : b.withArray b.array = b := by
  cases b with
  | narrow b => rfl
  | wide b => rfl

@[simp] theorem Bitmap.index_withArray (m : Mem) (arg : Nat) : (b.withArray m).index arg = b.index arg := by
  cases b with
  | narrow b => rfl
  | wide b => rfl

@[simp] theorem Bitmap.firstByte_withArray (m : Mem) (first : Nat) :
    (b.withArray m).firstByte first = b.firstByte first := by
  cases b with
  | narrow b => rfl
  | wide b => rfl

theorem Bitmap.rangeOk_withArray (m : Mem) (first num : Nat) :
    (b.withArray m).RangeOk first num ↔ b.RangeOk first num := by
  cases b with
  | narrow b => exact Iff.rfl
  | wide b => exact Iff.rfl

private theorem testBitmap_eq (b : Bitmap) (arg : Nat) :
    testBitmap b arg = match b.index arg with | some i => testBit b.array i | none => 0 := by
  cases b with
  | narrow b =>
    rw [testBitmap, Bitmap.index]
    split
    · rfl
    · rfl
  | wide b =>
    simp only [testBitmap, Bitmap.index]
    split
    · rfl
    · rfl

private theorem markBitmap_eq (b : Bitmap) (arg : Nat) :
    markBitmap b arg = match b.index arg with | some i => b.withArray (setBit b.array i) | none => b := by
  cases b with
  | narrow b =>
    rw [markBitmap, Bitmap.index]
    split
    · rfl
    · rfl
  | wide b =>
    simp only [markBitmap, Bitmap.index]
    split
    · rfl
    · rfl

private theorem bytes_of_bits {nbytes : Nat} (h : nbytes ≤ 2 ^ 16) :
    ((nbytes * 8 + 7) % 2 ^ 32) >>> 3 = nbytes ∧ (nbytes * 8 + 7) >>> 3 = nbytes := by
  rw [Nat.shiftRight_eq_div_pow, Nat.shiftRight_eq_div_pow]
  omega

private theorem getBitmapRange_ok {first nbytes : Nat} (hn : nbytes ≤ 2 ^ 16) (h : b.RangeOk first (nbytes * 8)) :
    getBitmapRange b first (nbytes * 8) = .ok (copyOut b.array (b.firstByte first) nbytes) := by
  obtain ⟨h1, h2⟩ := bytes_of_bits hn
  cases b with
  | narrow b => exact getBitmapRange_narrow rfl h1 h
  | wide b => rw [getBitmapRange, h2]; rfl

private theorem getBitmapRange_error {first num : Nat} (h : ¬b.RangeOk first num) :
    getBitmapRange b first num = .error .EUCLEAN := by
  cases b with
  | narrow b =>
    rw [getBitmapRange]
    exact if_pos (not_not.1 h)
  | wide b => exact absurd trivial h

private theorem setBitmapRange_ok {first nbytes : Nat} (data : Mem) (hn : nbytes ≤ 2 ^ 16)
    (h : b.RangeOk first (nbytes * 8)) : setBitmapRange b first (nbytes * 8) data =
      .ok (b.withArray (copyIn b.array (b.firstByte first) data nbytes)) := by
  obtain ⟨h1, h2⟩ := bytes_of_bits hn
  cases b with
  | narrow b => exact setBitmapRange_narrow data rfl h1 h
  | wide b => rw [setBitmapRange, h2]; rfl

/-! ### Bits at one place -/

/-- The two bitmaps have the same bounds, and the same bit for `arg`. -/
structure AgreeAt (arg : Nat) (b b' : Bitmap) : Prop where
  bounds : SameBounds b b'
  bit : testBitmap b' arg = 0 ↔ testBitmap b arg = 0

variable {arg : Nat}

theorem SameBounds.withArray (h : SameBounds b b') (m m' : Mem) : SameBounds (b.withArray m) (b'.withArray m') := by
  cases b with
  | narrow b => cases b' with
    | narrow b' => exact h
    | wide b' => exact h
  | wide b => cases b' with
    | narrow b' => exact h
    | wide b' => exact h

theorem SameBounds.index (h : SameBounds b b') (x : Nat) : b'.index x = b.index x := by
  cases b with
  | narrow b => cases b' with
    | narrow b' => simp only [Bitmap.index, h.1, h.2.1]
    | wide b' => exact h.elim
  | wide b => cases b' with
    | narrow b' => exact h.elim
    | wide b' => simp only [Bitmap.index, h.1, h.2.1, h.2.2.2]

theorem AgreeAt.update (h : AgreeAt arg b b') {m m' : Mem}
    (hbit : ∀ i, b.index arg = some i → (testBit b'.array i = 0 ↔ testBit b.array i = 0) →
      (testBit m' i = 0 ↔ testBit m i = 0)) : AgreeAt arg (b.withArray m) (b'.withArray m') := by
  have hold := h.bit
  rw [testBitmap_eq, testBitmap_eq, h.bounds.index] at hold
  refine ⟨h.bounds.withArray m m', ?_⟩
  rw [testBitmap_eq, testBitmap_eq, Bitmap.index_withArray, Bitmap.index_withArray, h.bounds.index]
  cases hi : b.index arg with
  | none => simp
  | some i =>
    simp only [hi] at hold
    simp only [Bitmap.array_withArray]
    exact hbit i hi hold

theorem AgreeAt.mark (h : AgreeAt arg b b') (x : Nat) : AgreeAt arg (markBitmap b x) (markBitmap b' x) := by
  rw [markBitmap_eq, markBitmap_eq, h.bounds.index]
  cases b.index x with
  | none => exact h
  | some j =>
    refine h.update fun i _ hbit => ?_
    rw [testBit_setBit, testBit_setBit, hbit]

private theorem testBit_setBits {m m' : Mem} {i : Nat} (h : testBit m' i = 0 ↔ testBit m i = 0) (j n : Nat) :
    testBit (setBits m' j n) i = 0 ↔ testBit (setBits m j n) i = 0 := by
  unfold setBits
  induction n with
  | zero => exact h
  | succ n ih => rw [List.range_succ, List.foldl_append, List.foldl_append, List.foldl_cons, List.foldl_cons,
      List.foldl_nil, List.foldl_nil, testBit_setBit, testBit_setBit, ih]

def KeepsAgree (arg : Nat) (f : Bitmap → Option Bitmap) : Prop :=
  ∀ b b' x, AgreeAt arg b b' → f b = some x → ∃ y, f b' = some y ∧ AgreeAt arg x y

theorem KeepsAgree.pure {f : Bitmap → Bitmap} (h : ∀ b b', AgreeAt arg b b' → AgreeAt arg (f b) (f b')) :
    KeepsAgree arg fun b => some (f b) := by
  intro b b' x hb hx
  cases hx
  exact ⟨_, rfl, h b b' hb⟩

theorem KeepsAgree.bind {f g : Bitmap → Option Bitmap} (hf : KeepsAgree arg f) (hg : KeepsAgree arg g) :
    KeepsAgree arg fun b => (f b).bind g := by
  intro b b' x hb hx
  obtain ⟨z, hz, hzx⟩ := Option.bind_eq_some_iff.1 hx
  obtain ⟨z', hz', hagree⟩ := hf b b' z hb hz
  obtain ⟨y, hy, hagree'⟩ := hg z z' x hagree hzx
  exact ⟨y, Option.bind_eq_some_iff.2 ⟨z', hz', hy⟩, hagree'⟩

theorem KeepsAgree.ite {p : Prop} [Decidable p] {f g : Bitmap → Option Bitmap} (hf : KeepsAgree arg f)
    (hg : KeepsAgree arg g) : KeepsAgree arg fun b => if p then f b else g b := by
  intro b b' x hb hx
  by_cases hp : p
  · simp only [hp, ↓reduceIte] at hx ⊢
    exact hf b b' x hb hx
  · simp only [hp, ↓reduceIte] at hx ⊢
    exact hg b b' x hb hx

theorem KeepsAgree.mark (x : Nat) : KeepsAgree arg fun b => some (markBitmap b x) :=
  KeepsAgree.pure fun _ _ h => h.mark x

theorem KeepsAgree.id : KeepsAgree arg fun b => some b := KeepsAgree.pure fun _ _ h => h

theorem KeepsAgree.markRange (block : Nat) (num : Int) :
    KeepsAgree arg fun b => markBlockBitmapRange b block num := by
  intro b b' x h hx
  have hb := h.bounds
  cases b with
  | narrow c => cases b' with
    | wide c' => exact hb.elim
    | narrow c' =>
      obtain ⟨start, last, realEnd, m⟩ := c
      obtain ⟨start', last', realEnd', m'⟩ := c'
      obtain ⟨rfl, rfl, rfl⟩ := hb
      simp only [markBlockBitmapRange] at hx ⊢
      split at hx
      · rename_i hout
        cases hx
        exact ⟨_, if_pos hout, h⟩
      · rename_i hout
        split at hx
        · cases hx
        · rename_i hint
          cases hx
          refine ⟨_, by rw [if_neg hout, if_neg hint], ?_⟩
          exact h.update fun i _ hbit => testBit_setBits hbit _ _
  | wide c => cases b' with
    | narrow c' => exact hb.elim
    | wide c' =>
      obtain ⟨start, last, realEnd, bits, addr, m⟩ := c
      obtain ⟨start', last', realEnd', bits', addr', m'⟩ := c'
      obtain ⟨rfl, rfl, rfl, rfl⟩ := hb
      simp only [markBlockBitmapRange] at hx ⊢
      split at hx
      · rename_i hout
        cases hx
        exact ⟨_, if_pos hout, h⟩
      · rename_i hout
        cases hx
        refine ⟨_, if_neg hout, ?_⟩
        exact h.update fun i _ hbit => testBit_setBits hbit _ _

theorem KeepsAgree.markIf (p : Prop) [Decidable p] (block : Nat) : KeepsAgree arg (Volume.markIf p block) :=
  KeepsAgree.ite (KeepsAgree.mark block) KeepsAgree.id

theorem KeepsAgree.reserveSuperBgd (v : Volume) (group : Nat) : KeepsAgree arg (v.reserveSuperBgd group) := by
  unfold Volume.reserveSuperBgd
  obtain ⟨superBlock, oldDesc, newDesc⟩ := v.superBgdLoc group
  exact (KeepsAgree.markIf _ _).bind ((KeepsAgree.markIf _ _).bind
    ((KeepsAgree.ite (KeepsAgree.markRange _ _) KeepsAgree.id).bind (KeepsAgree.markIf _ _)))

theorem KeepsAgree.markUninitGroup (v : Volume) (i : Nat) : KeepsAgree arg fun b => v.markUninitGroup b i := by
  unfold Volume.markUninitGroup
  exact KeepsAgree.ite KeepsAgree.id ((KeepsAgree.reserveSuperBgd v i).bind
    ((KeepsAgree.ite (KeepsAgree.markRange _ _) KeepsAgree.id).bind
      ((KeepsAgree.markIf _ _).bind (KeepsAgree.markIf _ _))))

theorem KeepsAgree.markUninit (v : Volume) : KeepsAgree arg v.markUninit := by
  unfold Volume.markUninit
  generalize List.range v.groupDescCount = is
  induction is with
  | nil => exact KeepsAgree.id
  | cons i is ih =>
    simp only [List.foldlM_cons]
    exact (KeepsAgree.markUninitGroup v i).bind ih

end

/-! ### The two bitmaps of a group -/

/-- The bitmap of the blocks or of the inodes. -/
inductive Part
  | block
  | inode
  deriving DecidableEq

def Part.flag : Part → Nat
  | .block => 2
  | .inode => 1

def Part.lo : Part → Nat
  | .block => 24
  | .inode => 26

def Part.hi : Part → Nat
  | .block => 56
  | .inode => 58

def Part.locLo : Part → Nat
  | .block => 0
  | .inode => 4

def Part.locHi : Part → Nat
  | .block => 32
  | .inode => 36

theorem Part.lo_le (p : Part) : 24 ≤ p.lo ∧ p.lo + 2 ≤ 28 := by
  cases p with
  | _ => decide

theorem Part.hi_le (p : Part) : 56 ≤ p.hi ∧ p.hi + 2 ≤ 60 := by
  cases p with
  | _ => decide

namespace Volume

def Skips (v : Volume) (p : Part) (g : Nat) : Prop := v.super.hasGroupDescChecksum = true ∧ v.bgTestFlags g p.flag ≠ 0

instance (v : Volume) (p : Part) (g : Nat) : Decidable (v.Skips p g) := inferInstanceAs (Decidable (_ ∧ _))

def partLoc (v : Volume) (p : Part) (g : Nat) : Nat := v.bgLoc p.locLo p.locHi g

def partBitmap (v : Volume) : Part → Bitmap
  | .block => v.blockBitmap
  | .inode => v.inodeBitmap

def written (v : Volume) : Part → Nat
  | .block => v.super.clustersPerGroup / 8
  | .inode => (v.super.inodesPerGroup + 7) / 8

def nread (v : Volume) : Part → Nat
  | .block => v.super.clustersPerGroup / 8
  | .inode => v.super.inodesPerGroup / 8

def partStart (v : Volume) : Part → Nat
  | .block => v.super.firstDataBlock >>> v.super.clusterRatioBits
  | .inode => 1

def partBuf (v : Volume) (p : Part) (g : Nat) (bytes : List UInt8) : Mem :=
  match p with
  | .block => v.padLast g (bitmapBuf (v.written .block) bytes)
  | .inode => bitmapBuf (v.written .inode) bytes

end Volume

section

variable (crc : Crc) (io : Nat → Bool)

def sealed (p : Part) (v : Volume) (g : Nat) (data : List UInt8) : Volume :=
  (v.bitmapChecksumUpdate crc p.lo p.hi g data).groupDescChecksumUpdate crc g

/-- The parts of `ext2_write_bitmaps` for blocks and for inodes do the same. -/
def writePart (p : Part) (v : Volume) (disk : Disk) (g : Nat) : (Volume × Disk) × Option Errno :=
  if v.Skips p g then ((v, disk), none)
  else
    match getBitmapRange (v.partBitmap p) (v.partStart p + g * (v.written p * 8)) (v.written p * 8) with
    | .error e => ((v, disk), some e)
    | .ok bytes =>
      let w := sealed crc p v g (copyOut (v.partBuf p g bytes) 0 (v.written p))
      let r := Volume.storeBlock io disk (w.partLoc p g) (v.partBuf p g bytes)
      ((w, r.1), r.2)

private theorem writeBlockGroup_eq (v : Volume) (disk : Disk) (g : Nat) :
    v.writeBlockGroup crc io disk g = writePart crc io .block v disk g := rfl

private theorem writeInodeGroup_eq (v : Volume) (disk : Disk) (g : Nat) :
    v.writeInodeGroup crc io disk g = writePart crc io .inode v disk g := rfl

def writeParts : List (Part × Nat) → Volume × Disk → (Volume × Disk) × Option Errno
  | [], s => (s, none)
  | j :: js, s =>
    match writePart crc io j.1 s.1 s.2 j.2 with
    | (s, some e) => (s, some e)
    | (s, none) => writeParts js s

private theorem writeGroups_eq (is : List Nat) (s : Volume × Disk) : Volume.writeGroups crc io true true is s =
    writeParts crc io (is.flatMap fun i => [(.block, i), (.inode, i)]) s := by
  induction is generalizing s with
  | nil => rfl
  | cons i is ih =>
    rw [Volume.writeGroups, List.flatMap_cons, List.cons_append, List.cons_append, List.nil_append, writeParts]
    simp only [↓reduceIte, writeBlockGroup_eq]
    rcases writePart crc io .block s.1 s.2 i with ⟨s1, _ | e⟩
    · simp only [writeParts, writeInodeGroup_eq]
      rcases writePart crc io .inode s1.1 s1.2 i with ⟨s2, _ | e⟩
      · exact ih s2
      · rfl
    · rfl

end

section

variable {v w : Volume} {g g' x : Nat} {p q : Part} {crc : Crc} {data : List UInt8}

def Part.Touches (p : Part) (off : Nat) : Prop :=
  (p.lo ≤ off ∧ off < p.lo + 2) ∨ (p.hi ≤ off ∧ off < p.hi + 2) ∨ (30 ≤ off ∧ off < 32)

private theorem sealed_only (h : Opened v.super v.groupDescCount) : OnlyDesc v (sealed crc p v g data) g := by
  have ho : OnlyDesc v (v.bitmapChecksumUpdate crc p.lo p.hi g data) g :=
    OnlyDesc.bitmapChecksum h (Nat.le_trans p.lo_le.2 (by decide))
  exact ho.trans (OnlyDesc.checksum (ho.super ▸ h) crc)

private theorem sealed_plain (h : v.super.hasGroupDescChecksum = false) : sealed crc p v g data = v := by
  have hm : v.super.metadataCsum = false := by
    rw [Super.hasGroupDescChecksum, Bool.or_eq_false_iff] at h
    exact h.2
  have hb : v.bitmapChecksumUpdate crc p.lo p.hi g data = v := by
    rw [Volume.bitmapChecksumUpdate, if_neg (by simp [hm])]
  rw [sealed, hb, Volume.groupDescChecksumUpdate, if_neg (by simp [h])]

private theorem sealed_bytes {off : Nat} (hoff : ¬p.Touches off) :
    (sealed crc p v g data).groupDesc (v.descAt g + off) = v.groupDesc (v.descAt g + off) := by
  unfold Part.Touches at hoff
  have hcsum : (v.bitmapChecksumUpdate crc p.lo p.hi g data).groupDesc (v.descAt g + off) =
      v.groupDesc (v.descAt g + off) := by
    unfold Volume.bitmapChecksumUpdate
    split
    · simp only
      split
      · rw [writeLE_outside (by omega), writeLE_outside (by omega)]
      · exact writeLE_outside (by omega)
    · rfl
  have hat : (v.bitmapChecksumUpdate crc p.lo p.hi g data).descAt g = v.descAt g := by
    unfold Volume.bitmapChecksumUpdate
    split
    · rfl
    · rfl
  rw [← hcsum]
  unfold sealed Volume.groupDescChecksumUpdate
  split
  · unfold Volume.bgChecksumUpdate
    simp only
    rw [hat]
    exact writeLE_outside (by omega)
  · rfl

private theorem bitmapChecksumValid_congr {v' : Volume} {lo hi : Nat} (hs : v'.super = v.super)
    (hseed : v'.checksumSeed = v.checksumSeed)
    (hlo : readLE v'.groupDesc (v.descAt g + lo) 2 = readLE v.groupDesc (v.descAt g + lo) 2)
    (hhi : hi + 2 ≤ v.super.descSize →
      readLE v'.groupDesc (v.descAt g + hi) 2 = readLE v.groupDesc (v.descAt g + hi) 2) :
    v'.bitmapChecksumValid crc lo hi g data = v.bitmapChecksumValid crc lo hi g data := by
  have hat : v'.descAt g = v.descAt g := by rw [Volume.descAt, Volume.descAt, hs]
  unfold Volume.bitmapChecksumValid
  simp only [hs, hseed, hat, hlo]
  by_cases hfit : hi + 2 ≤ v.super.descSize
  · rw [hhi hfit]
  · simp only [hfit, ↓reduceIte]

private theorem sealed_valid (h : Opened v.super v.groupDescCount) :
    (sealed crc p v g data).bitmapChecksumValid crc p.lo p.hi g data = true := by
  have hlo := p.lo_le
  have hhi := p.hi_le
  have ho : OnlyDesc v (v.bitmapChecksumUpdate crc p.lo p.hi g data) g :=
    OnlyDesc.bitmapChecksum h (Nat.le_trans p.lo_le.2 (by decide))
  have hacc := bitmapChecksum_accepted (v := v) (g := g) crc (show p.lo + 2 ≤ p.hi by omega) data
  rw [sealed]
  generalize v.bitmapChecksumUpdate crc p.lo p.hi g data = u at ho hacc
  have hsum := OnlyDesc.checksum (v := u) (g := g) (ho.super ▸ h) crc
  rw [← hacc]
  have hfield :
    ∀ off, off + 2 ≤ 30 ∨ 32 ≤ off → readLE (u.groupDescChecksumUpdate crc g).groupDesc (u.descAt g + off) 2 =
      readLE u.groupDesc (u.descAt g + off) 2 := fun off hoff => by
    unfold Volume.groupDescChecksumUpdate
    split
    · exact readLE_writeLE_disjoint (by omega)
    · rfl
  exact bitmapChecksumValid_congr hsum.super (by rw [hsum.frame]) (hfield _ (by omega)) fun _ => hfield _ (by omega)

/-! ### Writing the parts -/

def Volume.savedBuf (v : Volume) (p : Part) (g : Nat) : Mem :=
  v.partBuf p g (copyOut (v.partBitmap p).array
    ((v.partBitmap p).firstByte (v.partStart p + g * (v.written p * 8))) (v.written p))

variable {io : Nat → Bool} {disk disk' : Disk}

private theorem writePart_cases (hn : v.written p ≤ 2 ^ 16) (h : writePart crc io p v disk g = ((w, disk'), none)) :
    (v.Skips p g ∧ w = v ∧ disk' = disk) ∨
    (¬v.Skips p g ∧ (v.partBitmap p).RangeOk (v.partStart p + g * (v.written p * 8)) (v.written p * 8) ∧
      w = sealed crc p v g (copyOut (v.savedBuf p g) 0 (v.written p)) ∧
      disk' = if w.partLoc p g = 0 then disk else Function.update disk (w.partLoc p g) (v.savedBuf p g)) := by
  unfold writePart at h
  by_cases hskip : v.Skips p g
  · rw [if_pos hskip] at h
    cases h
    exact Or.inl ⟨hskip, rfl, rfl⟩
  · rw [if_neg hskip] at h
    by_cases hrange : (v.partBitmap p).RangeOk (v.partStart p + g * (v.written p * 8)) (v.written p * 8)
    · rw [getBitmapRange_ok hn hrange] at h
      simp only [Prod.mk.injEq] at h
      obtain ⟨⟨hw, hdisk⟩, herr⟩ := h
      rw [hw] at hdisk herr
      refine Or.inr ⟨hskip, hrange, hw.symm, ?_⟩
      rw [← hdisk]
      unfold Volume.storeBlock at herr ⊢
      split
      · rfl
      · rename_i h0
        rw [if_neg h0] at herr
        split
        · rfl
        · rename_i hio
          rw [if_neg hio] at herr
          cases herr
    · rw [getBitmapRange_error hrange] at h
      cases h

def Volume.OffsetsFit (v : Volume) : Prop :=
  v.super.hasGroupDescChecksum = true → v.groupDescCount * v.super.descSize ≤ 2 ^ 32

/-- What writing some of the parts does to the volume. -/
structure Writing (crc : Crc) (v w : Volume) : Prop where
  frame : w = { v with groupDesc := w.groupDesc, bbDirty := w.bbDirty, ibDirty := w.ibDirty }
  bytes : ∀ g < v.groupDescCount, ∀ off < v.super.descSize, (∀ p : Part, ¬p.Touches off) →
    w.groupDesc (v.descAt g + off) = v.groupDesc (v.descAt g + off)
  valid : ∀ g < v.groupDescCount, v.groupDescChecksumValid crc g = true → w.groupDescChecksumValid crc g = true

theorem Writing.refl (crc : Crc) (v : Volume) : Writing crc v v := ⟨rfl, fun _ _ _ _ _ => rfl, fun _ _ h => h⟩

theorem Writing.super (h : Writing crc v w) : w.super = v.super := by rw [h.frame]

theorem Writing.count (h : Writing crc v w) : w.groupDescCount = v.groupDescCount := by rw [h.frame]

theorem Writing.descAt (h : Writing crc v w) : w.descAt g = v.descAt g := by
  rw [Volume.descAt, Volume.descAt, h.super]

private theorem untouched {off : Nat} (h : off < 24 ∨ (32 ≤ off ∧ off < 56)) (p : Part) : ¬p.Touches off := by
  have hlo := p.lo_le
  have hhi := p.hi_le
  unfold Part.Touches
  omega

theorem Writing.readLE (h : Writing crc v w) (hg : g < v.groupDescCount) {off n : Nat}
    (hoff : off + n ≤ 24 ∨ (32 ≤ off ∧ off + n ≤ 56)) (hsize : off + n ≤ v.super.descSize) :
    readLE w.groupDesc (v.descAt g + off) n = readLE v.groupDesc (v.descAt g + off) n := by
  refine readLE_congr fun x h1 h2 => ?_
  obtain ⟨k, rfl⟩ : ∃ k, x = v.descAt g + k := ⟨x - v.descAt g, by omega⟩
  exact h.bytes g hg k (by omega) (untouched (by omega))

theorem Writing.bgTestFlags (h : Writing crc v w) (ho : Opened v.super v.groupDescCount) (hg : g < v.groupDescCount)
    (flags : Nat) : w.bgTestFlags g flags = v.bgTestFlags g flags := by
  have hsize := ho.le_descSize.1
  rw [Volume.bgTestFlags, Volume.bgTestFlags, Volume.bgFlags, Volume.bgFlags, h.descAt,
    h.readLE hg (by omega) (by omega)]

private theorem Writing.skips (h : Writing crc v w) (ho : Opened v.super v.groupDescCount)
    (hg : g < v.groupDescCount) :
    w.Skips p g ↔ v.Skips p g := by
  rw [Volume.Skips, Volume.Skips, h.super, h.bgTestFlags ho hg]

theorem Writing.bgLoc (h : Writing crc v w) (ho : Opened v.super v.groupDescCount) (hg : g < v.groupDescCount)
    {lo hi : Nat} (hlo : lo + 4 ≤ 24) (hhi : 32 ≤ hi ∧ hi + 4 ≤ 56) : w.bgLoc lo hi g = v.bgLoc lo hi g := by
  obtain ⟨hsize, hsize64⟩ := ho.le_descSize
  unfold Volume.bgLoc
  rw [h.descAt, h.super, h.readLE hg (Or.inl hlo) (by omega)]
  split
  · rename_i h64
    have := hsize64 h64
    rw [h.readLE hg (Or.inr hhi) (by omega)]
  · rfl

private theorem Writing.partLoc (h : Writing crc v w) (ho : Opened v.super v.groupDescCount)
    (hg : g < v.groupDescCount) :
    w.partLoc p g = v.partLoc p g := by
  cases p with
  | _ => exact h.bgLoc ho hg (by decide) (by decide)

theorem Writing.written (h : Writing crc v w) : w.written p = v.written p := by
  rw [h.frame]
  cases p with
  | _ => rfl

theorem Writing.partStart (h : Writing crc v w) : w.partStart p = v.partStart p := by
  rw [h.frame]
  cases p with
  | _ => rfl

private theorem Writing.partBitmap (h : Writing crc v w) : w.partBitmap p = v.partBitmap p := by
  rw [h.frame]
  cases p with
  | _ => rfl

private theorem Writing.savedBuf (h : Writing crc v w) : w.savedBuf p g = v.savedBuf p g := by
  rw [h.frame]
  cases p with
  | _ => rfl

private theorem Writing.sealed (h : Writing crc v w) (ho : Opened v.super v.groupDescCount) (hoff : v.OffsetsFit)
    (hg : g < v.groupDescCount) : Writing crc v (sealed crc p w g data) := by
  cases hsum : v.super.hasGroupDescChecksum with
  | false =>
    rw [sealed_plain (by rw [h.super, hsum])]
    exact h
  | true =>
  have hoff := hoff hsum
  have how : Opened w.super w.groupDescCount := by
    rw [h.super, h.count]
    exact ho
  have hall : OnlyDesc w (Ext2.sealed crc p w g data) g := sealed_only how
  refine ⟨?_, ?_, ?_⟩
  · have hframe := hall.frame
    generalize Ext2.sealed crc p w g data = u at hframe
    rw [hframe, h.frame]
  · intro x hx off hoff' htouch
    rw [← h.bytes x hx off hoff' htouch]
    by_cases hxg : x = g
    · subst hxg
      rw [← h.descAt]
      exact sealed_bytes (htouch p)
    · have hapart := descAt_apart hoff hx hg hxg
      refine hall.bytes _ ?_
      rw [h.descAt, h.super]
      omega
  · intro x hx hvalid
    by_cases hxg : x = g
    · subst hxg
      exact groupDescChecksum_accepted crc
    · have hapart := descAt_apart hoff hx hg hxg
      rw [groupDescChecksumValid_congr crc (v := w) ⟨by rw [hall.super]⟩ (by rw [hall.frame]) how.le_descSize.1
        fun y h1 h2 => hall.bytes y ?_]
      · exact h.valid x hx hvalid
      · rw [h.descAt] at h1
        rw [h.descAt, h.super] at h2 ⊢
        omega

def WrittenBefore (i j : Part × Nat) : Prop := i.2 < j.2 ∨ (i.2 = j.2 ∧ i.1 = .block ∧ j.1 = .inode)

def Volume.Keeps (v : Volume) (p : Part) (g : Nat) : Prop :=
  ∀ q, ∀ g' < v.groupDescCount, ¬v.Skips q g' → WrittenBefore (p, g) (q, g') → v.partLoc q g' = v.partLoc p g →
    v.savedBuf q g' = v.savedBuf p g

/-- The disk has the bytes of a part, and its descriptor has checksums that match. -/
structure Saved (crc : Crc) (v w : Volume) (disk : Disk) (p : Part) (g : Nat) : Prop where
  range : (v.partBitmap p).RangeOk (v.partStart p + g * (v.written p * 8)) (v.written p * 8)
  stored : v.Keeps p g → v.partLoc p g ≠ 0 → disk (v.partLoc p g) = v.savedBuf p g
  sum : w.bitmapChecksumValid crc p.lo p.hi g (copyOut (v.savedBuf p g) 0 (v.written p)) = true
  desc : w.groupDescChecksumValid crc g = true

private theorem sealed_sum (ho : Opened v.super v.groupDescCount) (hoff : v.OffsetsFit) (hg : g < v.groupDescCount)
    (hg' : g' < v.groupDescCount) (hne : ¬(p = q ∧ g = g')) (bytes : List UInt8) :
    (sealed crc p v g data).bitmapChecksumValid crc q.lo q.hi g' bytes =
      v.bitmapChecksumValid crc q.lo q.hi g' bytes := by
  cases hsum : v.super.hasGroupDescChecksum with
  | false => rw [sealed_plain hsum]
  | true =>
  have hoff := hoff hsum
  have hall : OnlyDesc v (sealed crc p v g data) g := sealed_only ho
  have hlo := q.lo_le
  have hhi := q.hi_le
  have hsize := ho.le_descSize.1
  have hfield : ∀ off, off + 2 ≤ v.super.descSize → (off = q.lo ∨ off = q.hi) →
      readLE (sealed crc p v g data).groupDesc (v.descAt g' + off) 2 =
        readLE v.groupDesc (v.descAt g' + off) 2 := by
    intro off hfit hcase
    refine readLE_congr fun x h1 h2 => ?_
    by_cases hgg : g = g'
    · subst hgg
      obtain ⟨k, rfl⟩ : ∃ k, x = v.descAt g + k := ⟨x - v.descAt g, by omega⟩
      refine sealed_bytes fun ht => ?_
      have hpq : p ≠ q := fun h => hne ⟨h, rfl⟩
      unfold Part.Touches at ht
      cases p with
      | block => cases q with
        | block => exact hpq rfl
        | inode => simp only [Part.lo, Part.hi] at ht hcase; omega
      | inode => cases q with
        | block => simp only [Part.lo, Part.hi] at ht hcase; omega
        | inode => exact hpq rfl
    · have hapart := descAt_apart hoff hg hg' hgg
      exact hall.bytes x (by omega)
  exact bitmapChecksumValid_congr hall.super (by rw [hall.frame]) (hfield _ (by omega) (Or.inl rfl))
    fun hfit => hfield _ hfit (Or.inr rfl)

/-- One part is written: it is saved then, and those before it are as before. -/
private theorem writePart_saved {u : Volume} (hw : Writing crc v w) (ho : Opened v.super v.groupDescCount)
    (hoff : v.OffsetsFit) (hn : v.written p ≤ 2 ^ 16) (hg : g < v.groupDescCount)
    (h : writePart crc io p w disk g = ((u, disk'), none)) :
    Writing crc v u ∧ (¬v.Skips p g → Saved crc v u disk' p g) ∧
      ∀ q g', g' < v.groupDescCount → WrittenBefore (q, g') (p, g) → Saved crc v w disk q g' →
      Saved crc v u disk' q g' := by
  have how : Opened w.super w.groupDescCount := by
    rw [hw.super, hw.count]
    exact ho
  have hoffw : w.OffsetsFit := by
    unfold Volume.OffsetsFit
    rw [hw.super, hw.count]
    exact hoff
  rcases writePart_cases (hw.written ▸ hn) h with ⟨hskip, rfl, rfl⟩ | ⟨hskip, hrange, hu, hdisk⟩
  · exact ⟨hw, fun hns => absurd ((hw.skips ho hg).1 hskip) hns, fun _ _ _ _ hs => hs⟩
  · rw [hw.skips ho hg] at hskip
    rw [hw.partBitmap, hw.partStart, hw.written] at hrange
    rw [hw.savedBuf, hw.written] at hu
    have hwu : Writing crc v u := by
      rw [hu]
      exact hw.sealed ho hoff hg
    rw [hwu.partLoc ho hg, hw.savedBuf] at hdisk
    have hgw : g < w.groupDescCount := by rwa [hw.count]
    refine ⟨hwu, fun _ => ⟨hrange, fun _ h0 => ?_, ?_, ?_⟩, fun q g' hg' hbefore hs => ?_⟩
    · rw [hdisk, if_neg h0, Function.update_self]
    · rw [hu]
      exact sealed_valid how
    · rw [hu]
      exact groupDescChecksum_accepted crc
    · refine ⟨hs.range, fun hkeeps h0 => ?_, ?_, ?_⟩
      · rw [← hs.stored hkeeps h0, hdisk]
        split
        · rfl
        · by_cases heq : v.partLoc p g = v.partLoc q g'
          · rw [heq, Function.update_self, hkeeps p g hg hskip hbefore heq, hs.stored hkeeps h0]
          · exact Function.update_of_ne (Ne.symm heq) _ _
      · rw [← hs.sum, hu]
        refine sealed_sum how hoffw hgw (by rwa [hw.count]) ?_ _
        rintro ⟨rfl, rfl⟩
        rcases hbefore with hlt | ⟨-, h1, h2⟩
        · exact absurd hlt (Nat.lt_irrefl _)
        · exact absurd (h1.symm.trans h2) (by decide)
      · by_cases hgg : g' = g
        · rw [hgg, hu]
          exact groupDescChecksum_accepted crc
        · have hw' : Writing crc w u := by
            rw [hu]
            exact (Writing.refl crc w).sealed how hoffw hgw
          exact hw'.valid g' (by rwa [hw.count]) hs.desc

private theorem writeParts_saved {js : List (Part × Nat)} {s : Volume × Disk} {u : Volume} (hw : Writing crc v s.1)
    (ho : Opened v.super v.groupDescCount) (hoff : v.OffsetsFit) (hn : ∀ p, v.written p ≤ 2 ^ 16)
    (hjs : ∀ j ∈ js, j.2 < v.groupDescCount) (hsorted : js.Pairwise WrittenBefore)
    (h : writeParts crc io js s = ((u, disk'), none)) :
    Writing crc v u ∧ ∀ p g, g < v.groupDescCount → ¬v.Skips p g →
      ((p, g) ∈ js ∨ Saved crc v s.1 s.2 p g ∧ ∀ j ∈ js, WrittenBefore (p, g) j) → Saved crc v u disk' p g := by
  induction js generalizing s with
  | nil =>
    cases h
    exact ⟨hw, fun p g _ _ hs => (hs.resolve_left List.not_mem_nil).1⟩
  | cons j js ih =>
    obtain ⟨hfirst, hrest⟩ := List.pairwise_cons.1 hsorted
    rw [writeParts] at h
    rcases hr : writePart crc io j.1 s.1 s.2 j.2 with ⟨t, _ | e⟩
    · rw [hr] at h
      obtain ⟨hwt, hown, hothers⟩ := writePart_saved hw ho hoff (hn j.1) (hjs j List.mem_cons_self) hr
      obtain ⟨hwu, hall⟩ := ih hwt (fun i hi => hjs i (List.mem_cons_of_mem _ hi)) hrest h
      refine ⟨hwu, fun p g hg hns hs => hall p g hg hns ?_⟩
      rcases hs with hmem | ⟨hs, hlater⟩
      · rcases List.mem_cons.1 hmem with hj | hmem
        · subst hj
          exact Or.inr ⟨hown hns, hfirst⟩
        · exact Or.inl hmem
      · exact Or.inr
          ⟨hothers p g hg (hlater j List.mem_cons_self) hs, fun i hi => hlater i (List.mem_cons_of_mem _ hi)⟩
    · rw [hr] at h
      cases h

private theorem parts_sorted (n : Nat) :
    ((List.range n).flatMap fun i => [(Part.block, i), (.inode, i)]).Pairwise WrittenBefore := by
  rw [List.pairwise_flatMap]
  refine ⟨fun i _ => ?_, List.pairwise_lt_range.imp fun {i j} hlt a ha b hb => ?_⟩
  · simp [WrittenBefore]
  · left
    simp only [List.mem_cons, List.not_mem_nil, or_false] at ha hb
    rcases ha with rfl | rfl <;> rcases hb with rfl | rfl <;> exact hlt

theorem Writing.clean (h : Writing crc v w) : Writing crc v { w with bbDirty := false, ibDirty := false } := by
  refine ⟨?_, h.bytes, h.valid⟩
  rw [h.frame]

theorem Saved.clean (h : Saved crc v w disk p g) :
    Saved crc v { w with bbDirty := false, ibDirty := false } disk p g := ⟨h.range, h.stored, h.sum, h.desc⟩

private theorem writeBitmaps_saved (hopen : Opened v.super v.groupDescCount) (hoff : v.OffsetsFit)
    (hblk : v.super.blksize ≤ 2 ^ 16) (hbb : v.bbDirty = true) (hib : v.ibDirty = true)
    (h : v.writeBitmaps crc io disk = some ((w, disk'), none)) :
    (∀ p, v.written p ≤ v.super.blksize) ∧ Writing crc v w ∧
      ∀ p g, g < v.groupDescCount → ¬v.Skips p g → Saved crc v w disk' p g := by
  unfold Volume.writeBitmaps at h
  simp only [hbb, hib, true_and] at h
  split at h
  · cases h
  · split at h
    · cases h
    · rename_i hfit
      have hn : ∀ p, v.written p ≤ v.super.blksize := fun p => by
        cases p with
        | block => exact Nat.le_of_not_lt fun hlt => hfit (Or.inl hlt)
        | inode => exact Nat.le_of_not_lt fun hlt => hfit (Or.inr hlt)
      rw [writeGroups_eq] at h
      rcases hr : writeParts crc io ((List.range v.groupDescCount).flatMap fun i => [(.block, i), (.inode, i)])
        (v, disk) with ⟨⟨u, d⟩, _ | e⟩
      · rw [hr] at h
        cases h
        obtain ⟨hwu, hall⟩ := writeParts_saved (Writing.refl crc v) hopen hoff
          (fun p => Nat.le_trans (hn p) hblk) (fun j hj => by
            obtain ⟨i, hi, hj⟩ := List.mem_flatMap.1 hj
            rcases List.mem_cons.1 hj with rfl | hj
            · exact List.mem_range.1 hi
            · rw [List.mem_singleton] at hj
              subst hj
              exact List.mem_range.1 hi) (parts_sorted _) hr
        refine ⟨hn, hwu.clean, fun p g hg hns => (hall p g hg hns (Or.inl ?_)).clean⟩
        refine List.mem_flatMap.2 ⟨g, List.mem_range.2 hg, ?_⟩
        cases p with
        | block => exact List.mem_cons_self
        | inode => exact List.mem_cons_of_mem _ List.mem_cons_self
      · rw [hr] at h
        cases h

/-! ### Reading the parts -/

def fillArray (place : Nat → Nat) (data : Nat → Mem) (n : Nat) (m : Mem) (is : List Nat) : Mem :=
  is.foldl (fun m g => copyIn m (place g) (data g) n) m

private theorem fillArray_byte {base n k : Nat} {data : Nat → Mem} {m : Mem} {place : Nat → Nat}
    (hplace : ∀ g, place g = base + g * n) (hg : g < k) (hx : x < n) :
    fillArray place data n m (List.range k) (base + g * n + x) = data g x := by
  unfold fillArray
  induction k with
  | zero => exact absurd hg (Nat.not_lt_zero g)
  | succ k ih =>
    rw [List.range_succ, List.foldl_append, List.foldl_cons, List.foldl_nil, copyIn, hplace]
    by_cases hlast : g = k
    · subst hlast
      rw [if_pos (by omega), Nat.add_sub_cancel_left]
    · have hlt : g < k := by omega
      have hle := Nat.mul_le_mul_right n (Nat.succ_le_of_lt hlt)
      rw [Nat.succ_mul] at hle
      rw [if_neg (by omega)]
      exact ih hlt

private theorem fillArray_outside {n y : Nat} {place : Nat → Nat} {data : Nat → Mem} {m : Mem} {is : List Nat}
    (h : ∀ g ∈ is, ¬(place g ≤ y ∧ y < place g + n)) : fillArray place data n m is y = m y := by
  unfold fillArray
  induction is generalizing m with
  | nil => rfl
  | cons g is ih =>
    rw [List.foldl_cons, ih fun i hi => h i (List.mem_cons_of_mem _ hi), copyIn]
    exact if_neg (h g List.mem_cons_self)

variable {b bb ib : Bitmap}

private theorem readGroup_next {block first n : Nat} {valid : List UInt8 → Bool} (hn : n ≤ 2 ^ 16)
    (hrange : b.RangeOk first (n * 8)) (hvalid : block = 0 ∨ valid (copyOut (disk block) 0 n) = true) :
    Volume.readGroup disk b block first n valid =
      .next (b.withArray (copyIn b.array (b.firstByte first) (if block = 0 then fun _ => 0 else disk block) n)) := by
  unfold Volume.readGroup
  simp only [setBitmapRange_ok _ hn hrange]
  by_cases h0 : block = 0
  · simp [h0]
  · simp [h0, hvalid.resolve_left h0]

def Volume.partBlock (crc : Crc) (v : Volume) (p : Part) (g : Nat) : Nat := v.bitmapBlock crc g p.flag (v.partLoc p g)

def Volume.readBuf (crc : Crc) (v : Volume) (disk : Disk) (p : Part) (g : Nat) : Mem :=
  if v.partBlock crc p g = 0 then fun _ => 0 else disk (v.partBlock crc p g)

/-- The part can be read into the bitmap. -/
structure ReadOk (crc : Crc) (v : Volume) (disk : Disk) (b : Bitmap) (p : Part) (g : Nat) : Prop where
  range : b.RangeOk (v.partStart p + g * (v.nread p * 8)) (v.nread p * 8)
  valid : v.partBlock crc p g = 0 ∨
    v.bitmapChecksumValid crc p.lo p.hi g (copyOut (disk (v.partBlock crc p g)) 0 (v.nread p)) = true

def Volume.readArray (crc : Crc) (v : Volume) (disk : Disk) (b : Bitmap) (p : Part) (m : Mem) (is : List Nat) : Mem :=
  fillArray (fun g => b.firstByte (v.partStart p + g * (v.nread p * 8))) (v.readBuf crc disk p) (v.nread p) m is

private theorem readGroups_ok {is : List Nat} (m m' : Mem) (hn : ∀ p, v.nread p ≤ 2 ^ 16)
    (hbb : ∀ g ∈ is, ReadOk crc v disk bb .block g) (hib : ∀ g ∈ is, ReadOk crc v disk ib .inode g) :
    v.readGroups crc disk is (bb.withArray m) (ib.withArray m') =
      .ok (bb.withArray (v.readArray crc disk bb .block m is),
        ib.withArray (v.readArray crc disk ib .inode m' is)) := by
  induction is generalizing m m' with
  | nil => rfl
  | cons i is ih =>
    have hb := hbb i List.mem_cons_self
    have hi := hib i List.mem_cons_self
    have hb1 := readGroup_next (hn .block) ((bb.rangeOk_withArray m _ _).2 hb.range) hb.valid
    have hi1 := readGroup_next (hn .inode) ((ib.rangeOk_withArray m' _ _).2 hi.range) hi.valid
    have hrest := ih
      (copyIn m (bb.firstByte (v.partStart .block + i * (v.nread .block * 8))) (v.readBuf crc disk .block i)
        (v.nread .block))
      (copyIn m' (ib.firstByte (v.partStart .inode + i * (v.nread .inode * 8))) (v.readBuf crc disk .inode i)
        (v.nread .inode))
      (fun g hg => hbb g (List.mem_cons_of_mem _ hg)) (fun g hg => hib g (List.mem_cons_of_mem _ hg))
    simp only [Bitmap.array_withArray, Bitmap.withArray_withArray, Bitmap.firstByte_withArray] at hb1 hi1
    rw [Volume.readGroups]
    erw [hb1]
    simp only
    erw [hi1]
    exact hrest

/-! ### The bits that come back -/

def Volume.readPlace (v : Volume) (p : Part) (g : Nat) : Nat :=
  (v.partBitmap p).firstByte (v.partStart p + g * (v.nread p * 8))

def Volume.savePlace (v : Volume) (p : Part) (g : Nat) : Nat :=
  (v.partBitmap p).firstByte (v.partStart p + g * (v.written p * 8))

def Volume.Covers (v : Volume) (p : Part) (g i : Nat) : Prop :=
  8 * v.readPlace p g ≤ i ∧ i < 8 * v.readPlace p g + 8 * v.nread p

/-- Nothing is read from the disk for the part: it has no block, or it is skipped and its descriptor has a valid
checksum after the other part has been written or anyway. -/
def Volume.ReadsZero (crc : Crc) (v : Volume) (p : Part) (g : Nat) : Prop :=
  v.partLoc p g = 0 ∨ v.super.blocksCount ≤ v.partLoc p g ∨
    v.Skips p g ∧ (v.groupDescChecksumValid crc g = true ∨ ∃ q, ¬v.Skips q g)

/-- The part is written to a block, and nothing else is written there later. -/
structure Volume.OwnBlock (v : Volume) (p : Part) (g : Nat) : Prop where
  saved : ¬v.Skips p g
  keeps : v.Keeps p g
  block : v.partLoc p g ≠ 0 ∧ v.partLoc p g < v.super.blocksCount

/-- The bit comes back.  It is read from where it was written, before the padding of the last group or set like the
padding; or it is clear, and zeros are read for it or nothing. -/
inductive Volume.ComesBack (crc : Crc) (v : Volume) (p : Part) (i : Nat) : Prop
  | saved (g : Nat) (hg : g < v.groupDescCount) (own : v.OwnBlock p g) (place : v.readPlace p g = v.savePlace p g)
      (covers : v.Covers p g i) (pad : p = .block → g = v.groupDescCount - 1 → v.lastBits ≠ 0 →
        i - 8 * v.savePlace p g < v.lastBits ∨ testBit (v.partBitmap p).array i ≠ 0)
  | zeros (g : Nat) (hg : g < v.groupDescCount) (zero : v.ReadsZero crc p g) (covers : v.Covers p g i)
      (clear : testBit (v.partBitmap p).array i = 0)
  | unread (outside : ∀ g < v.groupDescCount, ¬v.Covers p g i) (clear : testBit (v.partBitmap p).array i = 0)

private theorem testBit_shift {m m' : Mem} {k i : Nat} (h : m' (i / 8) = m (k + i / 8)) :
    testBit m' i = testBit m (8 * k + i) := by
  have h1 : (8 * k + i) / 8 = k + i / 8 := by omega
  have h2 : (8 * k + i) % 8 = i % 8 := by omega
  rw [testBit, testBit, (index_byte i).1, (index_byte i).2, (index_byte _).1, (index_byte _).2, h1, h2, h]

private theorem testBit_zero_byte {m : Mem} {i : Nat} (h : m (i / 8) = 0) : testBit m i = 0 := by
  rw [testBit, (index_byte i).1, h]
  exact Nat.zero_and _

private theorem testBit_setBits_before {m : Mem} {i j n : Nat} (h : i < j) :
    testBit (setBits m j n) i = 0 ↔ testBit m i = 0 := by
  unfold setBits
  induction n with
  | zero => rfl
  | succ n ih =>
    rw [List.range_succ, List.foldl_append, List.foldl_cons, List.foldl_nil, testBit_setBit, ih]
    constructor
    · exact fun h => h.2
    · exact fun h' => ⟨by omega, h'⟩

private theorem testBit_of_setBits {m : Mem} {i j n : Nat} (h : testBit (setBits m j n) i = 0) : testBit m i = 0 := by
  unfold setBits at h
  induction n with
  | zero => exact h
  | succ n ih =>
    rw [List.range_succ, List.foldl_append, List.foldl_cons, List.foldl_nil, testBit_setBit] at h
    exact ih h.2

private theorem savedBuf_bit {j : Nat} (hj : j < 8 * v.written p) (hpad : p = .block → g = v.groupDescCount - 1 →
    v.lastBits ≠ 0 → j < v.lastBits ∨ testBit (v.partBitmap p).array (8 * v.savePlace p g + j) ≠ 0) :
    testBit (v.savedBuf p g) j = 0 ↔ testBit (v.partBitmap p).array (8 * v.savePlace p g + j) = 0 := by
  have hbuf :
    testBit (Volume.bitmapBuf (v.written p) (copyOut (v.partBitmap p).array (v.savePlace p g) (v.written p))) j =
      testBit (v.partBitmap p).array (8 * v.savePlace p g + j) := by
    refine testBit_shift ?_
    have hlt : j / 8 < v.written p := by omega
    rw [Volume.bitmapBuf, if_pos hlt]
    simp [copyOut, List.getD_eq_getElem?_getD, hlt]
  show testBit (v.partBuf p g (copyOut (v.partBitmap p).array (v.savePlace p g) (v.written p))) j = 0 ↔ _
  rw [← hbuf] at hpad ⊢
  cases p with
  | inode => exact Iff.rfl
  | block =>
    simp only [Volume.partBuf, Volume.padLast]
    split
    · rename_i hlast
      rcases hpad rfl hlast.1 hlast.2 with hlt | hset
      · exact testBit_setBits_before hlt
      · exact iff_of_false (fun h => hset (testBit_of_setBits h)) hset
    · exact Iff.rfl

private theorem Saved.readBuf (h : Saved crc v w disk p g) (hw : Writing crc v w)
    (hopen : Opened v.super v.groupDescCount) (hg : g < v.groupDescCount) (hown : v.OwnBlock p g) :
    w.partBlock crc p g = v.partLoc p g ∧ w.readBuf crc disk p g = v.savedBuf p g := by
  have hblock : w.partBlock crc p g = v.partLoc p g := by
    unfold Volume.partBlock Volume.bitmapBlock
    rw [hw.partLoc hopen hg, hw.super, hw.bgTestFlags hopen hg, if_neg]
    rintro (⟨h1, h2, -⟩ | hle)
    · exact hown.saved ⟨h1, h2⟩
    · exact absurd hown.block.2 (Nat.not_lt.2 hle)
  refine ⟨hblock, ?_⟩
  rw [Volume.readBuf, hblock, if_neg hown.block.1, h.stored hown.keeps hown.block.1]

theorem Volume.ReadsZero.partBlock (h : v.ReadsZero crc p g) (hw : Writing crc v w)
    (hopen : Opened v.super v.groupDescCount) (hg : g < v.groupDescCount)
    (hsaved : ∀ q, ¬v.Skips q g → Saved crc v w disk q g) : w.partBlock crc p g = 0 := by
  unfold Volume.partBlock Volume.bitmapBlock
  rw [hw.partLoc hopen hg, hw.super, hw.bgTestFlags hopen hg]
  rcases h with h0 | hle | ⟨hskip, hvalid⟩
  · rw [h0]
    exact ite_self 0
  · exact if_pos (Or.inr hle)
  · refine if_pos (Or.inl ⟨hskip.1, hskip.2, ?_⟩)
    rcases hvalid with hvalid | ⟨q, hq⟩
    · exact hw.valid g hg hvalid
    · exact (hsaved q hq).desc

/-- The bitmap begins no later than `first`; a 64-bit one counts its ranges from 0. -/
def Bitmap.Begins (first : Nat) : Bitmap → Prop
  | .narrow b => b.start ≤ first
  | .wide _ => True

theorem Bitmap.Begins.firstByte {first n : Nat} (h : b.Begins first) (g : Nat) :
    b.firstByte (first + g * (n * 8)) = b.firstByte first + g * n := by
  have hmul : g * (n * 8) = 8 * (g * n) := by rw [← Nat.mul_assoc, Nat.mul_comm]
  cases b with
  | narrow b =>
    have h' : b.start ≤ first := h
    simp only [Bitmap.firstByte, Nat.shiftRight_eq_div_pow, hmul]
    omega
  | wide b =>
    simp only [Bitmap.firstByte, Nat.shiftRight_eq_div_pow, hmul]
    omega

private theorem readArray_bit {i : Nat} (hb : b.Begins (v.partStart p)) (hzero : ∀ y, b.array y = 0)
    (hsame : ∀ g, b.firstByte g = (v.partBitmap p).firstByte g) (hw : Writing crc v w)
    (hopen : Opened v.super v.groupDescCount)
    (hsaved : ∀ q, ∀ g < v.groupDescCount, ¬v.Skips q g → Saved crc v w disk q g) (hi : v.ComesBack crc p i) :
    testBit (w.readArray crc disk b p b.array (List.range w.groupDescCount)) i = 0 ↔
      testBit (v.partBitmap p).array i = 0 := by
  have hnw : w.nread p = v.nread p := by
    rw [hw.frame]
    cases p with
    | _ => rfl
  have hread : w.readArray crc disk b p b.array (List.range w.groupDescCount) =
      fillArray (v.readPlace p) (w.readBuf crc disk p) (v.nread p) b.array (List.range v.groupDescCount) := by
    rw [Volume.readArray, hnw, hw.count, hw.partStart]
    refine congrArg (fun place => fillArray place _ _ _ _) (funext fun g => ?_)
    rw [Volume.readPlace, hsame]
  have hplace : ∀ g, v.readPlace p g = v.readPlace p 0 + g * v.nread p := by
    intro g
    rw [Volume.readPlace, Volume.readPlace, ← hsame, ← hsame, hb.firstByte, hb.firstByte, Nat.zero_mul, Nat.add_zero]
  -- the bit of a group comes from the bytes that are read for it
  have hbit : ∀ g j, g < v.groupDescCount → i = 8 * v.readPlace p g + j → j < 8 * v.nread p →
      testBit (w.readArray crc disk b p b.array (List.range w.groupDescCount)) i =
        testBit (w.readBuf crc disk p g) j := by
    intro g j hg hij hj
    rw [hread, hij]
    refine (testBit_shift ?_).symm
    rw [hplace g]
    exact (fillArray_byte hplace hg (by omega)).symm
  have hnle : v.nread p ≤ v.written p := by
    cases p with
    | block => exact Nat.le_refl _
    | inode => exact Nat.div_le_div_right (Nat.le_add_right _ 7)
  cases hi with
  | saved g hg own place covers pad =>
    obtain ⟨j, rfl⟩ : ∃ j, i = 8 * v.readPlace p g + j := ⟨_, (Nat.add_sub_of_le covers.1).symm⟩
    have hj : j < 8 * v.nread p := by
      have := covers.2
      omega
    rw [place, Nat.add_sub_cancel_left] at pad
    rw [hbit g j hg rfl hj, ((hsaved p g hg own.saved).readBuf hw hopen hg own).2, place]
    exact savedBuf_bit (by omega) pad
  | zeros g hg zero covers clear =>
    obtain ⟨j, rfl⟩ : ∃ j, i = 8 * v.readPlace p g + j := ⟨_, (Nat.add_sub_of_le covers.1).symm⟩
    have hj : j < 8 * v.nread p := by
      have := covers.2
      omega
    rw [hbit g j hg rfl hj, Volume.readBuf, if_pos (zero.partBlock hw hopen hg fun q hq => hsaved q g hg hq), clear]
    exact iff_of_true (testBit_zero_byte rfl) rfl
  | unread outside clear =>
    have hbyte : w.readArray crc disk b p b.array (List.range w.groupDescCount) (i / 8) = 0 := by
      rw [hread, fillArray_outside fun g hg hin => outside g (List.mem_range.1 hg) ⟨by omega, by omega⟩, hzero]
    exact iff_of_true (testBit_zero_byte hbyte) clear

/-! ### New bitmaps -/

theorem SameBounds.of {c d : Bitmap} (h : SameBounds b c) (h' : SameBounds b d) : SameBounds c d := by
  cases b with
  | narrow b => cases c with
    | wide c => exact h.elim
    | narrow c => cases d with
      | wide d => exact h'.elim
      | narrow d => exact ⟨h'.1.trans h.1.symm, h'.2.1.trans h.2.1.symm, h'.2.2.trans h.2.2.symm⟩
  | wide b => cases c with
    | narrow c => exact h.elim
    | wide c => cases d with
      | narrow d => exact h'.elim
      | wide d => exact ⟨h'.1.trans h.1.symm, h'.2.1.trans h.2.1.symm, h'.2.2.1.trans h.2.2.1.symm,
          h'.2.2.2.trans h.2.2.2.symm⟩

theorem SameBounds.firstByte {c : Bitmap} (h : SameBounds b c) (first : Nat) :
    c.firstByte first = b.firstByte first := by
  cases b with
  | narrow b => cases c with
    | wide c => exact h.elim
    | narrow c => simp only [Bitmap.firstByte, h.1]
  | wide b => cases c with
    | narrow c => exact h.elim
    | wide c => rfl

def newBitmap (flag64 : Bool) (start last realEnd clusterBits addr : Nat) : Except Errno Bitmap :=
  if flag64 then .ok (makeBitmap64 start last realEnd clusterBits addr)
  else if 2 ^ 32 ≤ last ∨ 2 ^ 32 ≤ realEnd then .error .EUCLEAN
  else .ok (makeBitmap32 start last realEnd)

private theorem allocateBlockBitmap_eq (v : Volume) (addr : Nat) : v.allocateBlockBitmap addr =
    newBitmap v.flag64 (v.partStart .block) ((v.super.blocksCount - 1) >>> v.super.clusterRatioBits)
      (sub64 (v.super.clustersPerGroup * v.groupDescCount) 1 + v.partStart .block) v.super.clusterRatioBits addr :=
      rfl

private theorem allocateInodeBitmap_eq (v : Volume) (addr : Nat) : v.allocateInodeBitmap addr =
    newBitmap v.flag64 (v.partStart .inode) v.super.inodesCount (v.super.inodesPerGroup * v.groupDescCount) 0 addr :=
    rfl

section

variable {flag64 : Bool} {start last realEnd clusterBits addr : Nat}

private theorem newBitmap_cases (h : newBitmap flag64 start last realEnd clusterBits addr = .ok b) :
    (flag64 = true ∧ b = makeBitmap64 start last realEnd clusterBits addr) ∨
    (flag64 = false ∧ last < 2 ^ 32 ∧ realEnd < 2 ^ 32 ∧ b = makeBitmap32 start last realEnd) := by
  unfold newBitmap at h
  cases flag64 with
  | true =>
    cases h
    exact Or.inl ⟨rfl, rfl⟩
  | false =>
    simp only [Bool.false_eq_true, ↓reduceIte] at h
    split at h
    · cases h
    · cases h
      exact Or.inr ⟨rfl, by omega, by omega, rfl⟩

private theorem newBitmap_any (h : newBitmap flag64 start last realEnd clusterBits addr = .ok b) (addr' : Nat) :
    ∃ c, newBitmap flag64 start last realEnd clusterBits addr' = .ok c ∧ SameBounds b c := by
  rcases newBitmap_cases h with ⟨rfl, rfl⟩ | ⟨rfl, h1, h2, rfl⟩
  · exact ⟨_, rfl, rfl, rfl, rfl, rfl⟩
  · refine ⟨makeBitmap32 start last realEnd, ?_, rfl, rfl, rfl⟩
    unfold newBitmap
    rw [if_neg (by decide), if_neg (by omega)]

private theorem newBitmap_begins (h : newBitmap flag64 start last realEnd clusterBits addr = .ok b) :
    b.Begins start := by
  rcases newBitmap_cases h with ⟨rfl, rfl⟩ | ⟨rfl, -, -, rfl⟩
  · exact trivial
  · exact Nat.le_refl start

private theorem newBitmap_zero (h : newBitmap flag64 start last realEnd clusterBits addr = .ok b) (y : Nat) :
    b.array y = 0 := by
  rcases newBitmap_cases h with ⟨rfl, rfl⟩ | ⟨rfl, -, -, rfl⟩
  · rfl
  · rfl

private theorem newBitmap_place (h : newBitmap flag64 start last realEnd clusterBits addr = .ok b)
    (h8 : flag64 = true → start < 8) (g n : Nat) : b.firstByte (start + g * (n * 8)) = g * n := by
  rw [(newBitmap_begins h).firstByte]
  rcases newBitmap_cases h with ⟨rfl, rfl⟩ | ⟨rfl, -, -, rfl⟩
  · have := h8 rfl
    simp only [makeBitmap64, Bitmap.firstByte, Nat.shiftRight_eq_div_pow]
    omega
  · simp [makeBitmap32, Bitmap.firstByte]

private theorem newBitmap_index (h : newBitmap flag64 start last realEnd 0 addr = .ok b) {i : Nat}
    (hi : b.index x = some i) :
    i = x - start := by
  rcases newBitmap_cases h with ⟨rfl, rfl⟩ | ⟨rfl, -, -, rfl⟩
  · simp only [makeBitmap64, Bitmap.index, Nat.shiftRight_zero] at hi
    split at hi
    · cases hi
    · cases hi
      rfl
  · simp only [makeBitmap32, Bitmap.index] at hi
    split at hi
    · cases hi
    · cases hi
      rfl

private theorem newBitmap_range (h : newBitmap flag64 start last realEnd clusterBits addr = .ok b) {off num : Nat}
    (hpos : flag64 = false → 0 < start + num) (hend : start + off + num ≤ realEnd + 1) :
    b.RangeOk (start + off) num := by
  rcases newBitmap_cases h with ⟨rfl, rfl⟩ | ⟨rfl, -, hreal, rfl⟩
  · exact trivial
  · have hpos := hpos rfl
    have hstop : sub64 (add64 (start + off) num) 1 = start + off + num - 1 := by
      rw [add64_of_lt (by omega), sub64_of_le (by omega) (by omega)]
    simp only [makeBitmap32, Bitmap.RangeOk, hstop]
    omega

end

private theorem clusters_pos (hopen : Opened v.super v.groupDescCount) : 0 < v.super.clustersPerGroup := by
  refine Nat.pos_of_ne_zero fun h0 => ?_
  have hper := hopen.perGroup
  rw [h0, Nat.zero_shiftLeft] at hper
  exact absurd hopen.blocks_pos (by omega)

private theorem bytes_le {n per count : Nat} (hn : n * 8 ≤ per) (hg : g < count) :
    g * (n * 8) + n * 8 ≤ per * count := by
  rw [← Nat.succ_mul, Nat.mul_comm]
  exact Nat.mul_le_mul hn hg

private theorem allocateBlockBitmap_range {addr : Nat} (hwf : v.super.Wf) (hopen : Opened v.super v.groupDescCount)
    (hstart : v.flag64 = false → 8 ≤ v.super.clustersPerGroup ∨ v.partStart .block ≠ 0)
    (h : v.allocateBlockBitmap addr = .ok b) (hg : g < v.groupDescCount) :
    b.RangeOk (v.partStart .block + g * (v.nread .block * 8)) (v.nread .block * 8) := by
  have hpos := clusters_pos hopen
  have hle := bytes_le (n := v.nread .block) (Nat.div_mul_le_self v.super.clustersPerGroup 8) hg
  have hmax : v.super.clustersPerGroup * v.groupDescCount < 2 ^ 64 :=
    Nat.lt_of_lt_of_le (Nat.mul_lt_mul'' hwf.clustersPerGroup hopen.groups_lt) (by decide)
  have hone : 1 ≤ v.super.clustersPerGroup * v.groupDescCount := Nat.mul_pos hpos (by omega)
  rw [allocateBlockBitmap_eq] at h
  refine newBitmap_range h (fun hflag => ?_) ?_
  · rcases hstart hflag with h8 | h0
    · have : 0 < v.nread .block := Nat.div_pos h8 (by decide)
      omega
    · omega
  · rw [sub64_of_le hone hmax]
    omega

private theorem allocateInodeBitmap_range {addr : Nat} (h : v.allocateInodeBitmap addr = .ok b)
    (hg : g < v.groupDescCount) :
    b.RangeOk (v.partStart .inode + g * (v.nread .inode * 8)) (v.nread .inode * 8) := by
  have hle := bytes_le (n := v.nread .inode) (Nat.div_mul_le_self v.super.inodesPerGroup 8) hg
  rw [allocateInodeBitmap_eq] at h
  refine newBitmap_range h (fun _ => ?_) ?_
  · simp only [Volume.partStart]
    omega
  · simp only [Volume.partStart]
    omega

/-! ### The round trip -/

/-- The bitmaps in memory have the bounds that `ext2_read_bitmaps` gives them. -/
structure Loaded (v : Volume) : Prop where
  block : ∃ addr b, v.allocateBlockBitmap addr = .ok b ∧ SameBounds b v.blockBitmap
  inode : ∃ addr b, v.allocateInodeBitmap addr = .ok b ∧ SameBounds b v.inodeBitmap

/-- The file systems whose bitmaps come back.  The offsets of the descriptors fit in 32 bits, and the block bitmap
begins where its form can address it.  With metadata checksums nothing is read but what was written.  The bits of the
groups without a flag come back, and the metadata of groups without a block bitmap is marked already if it is in other
groups. -/
structure Persistent (crc : Crc) (v : Volume) : Prop where
  offsets : v.OffsetsFit
  first32 : v.flag64 = false → (∀ g < v.groupDescCount, v.Skips .block g) →
    8 ≤ v.super.clustersPerGroup ∨ v.partStart .block ≠ 0
  first64 : v.flag64 = true → v.partStart .block < 8
  sums : v.super.metadataCsum = true → ∀ p, ∀ g < v.groupDescCount,
    v.ReadsZero crc p g ∨ v.OwnBlock p g ∧ v.nread p = v.written p
  blocks : ∀ g < v.groupDescCount, v.bgTestFlags g 2 = 0 → ∀ x ∈ v.super.groupBlocks g, ∀ i,
    v.blockBitmap.index x = some i → v.ComesBack crc .block i
  inodes : ∀ g < v.groupDescCount, v.bgTestFlags g 1 = 0 → ∀ x ∈ v.super.groupInodes g, ∀ i,
    v.inodeBitmap.index x = some i → v.ComesBack crc .inode i
  marked : ∃ b, v.markUninit v.blockBitmap = some b ∧ ∀ g < v.groupDescCount, v.bgTestFlags g 2 = 0 →
    ∀ x ∈ v.super.groupBlocks g, (testBitmap b x = 0 ↔ testBitmap v.blockBitmap x = 0)

private theorem markUninit_congr (hw : Writing crc v w) (hopen : Opened v.super v.groupDescCount) (b : Bitmap) :
    w.markUninit b = v.markUninit b := by
  have hgroup : ∀ i < v.groupDescCount, ∀ b, w.markUninitGroup b i = v.markUninitGroup b i := by
    intro i hi b
    have hreserve : w.reserveSuperBgd i = v.reserveSuperBgd i := by
      rw [hw.frame]
      rfl
    have htable : w.inodeTableLoc i = v.inodeTableLoc i := hw.bgLoc hopen hi (by decide) (by decide)
    have hblock : w.blockBitmapLoc i = v.blockBitmapLoc i := hw.bgLoc hopen hi (by decide) (by decide)
    have hinode : w.inodeBitmapLoc i = v.inodeBitmapLoc i := hw.bgLoc hopen hi (by decide) (by decide)
    unfold Volume.markUninitGroup
    rw [hw.bgTestFlags hopen hi, hreserve, htable, hblock, hinode, hw.super]
  have hall : ∀ is : List Nat, (∀ i ∈ is, i < v.groupDescCount) → ∀ b : Bitmap,
      is.foldlM (fun b i => w.markUninitGroup b i) b = is.foldlM (fun b i => v.markUninitGroup b i) b := by
    intro is his
    induction is with
    | nil => exact fun b => rfl
    | cons i is ih =>
      intro b
      rw [List.foldlM_cons, List.foldlM_cons, hgroup i (his i List.mem_cons_self)]
      refine bind_congr fun c => ih (fun j hj => his j (List.mem_cons_of_mem _ hj)) c
  rw [Volume.markUninit, Volume.markUninit, hw.count]
  exact hall _ (fun i hi => List.mem_range.1 hi) b

private theorem Bitmap.exists_outside (b : Bitmap) : ∃ x, b.index x = none := by
  cases b with
  | narrow b => exact ⟨2 ^ 32, if_pos (Or.inl (Nat.le_refl _))⟩
  | wide b =>
    refine ⟨(b.last + 1) <<< b.clusterBits, ?_⟩
    simp only [Bitmap.index, Nat.shiftLeft_shiftRight]
    exact if_pos (Or.inr (Nat.lt_succ_self _))

private theorem bitmapChecksumValid_plain (h : v.super.metadataCsum = false) {lo hi : Nat} :
    v.bitmapChecksumValid crc lo hi g data = true := by
  rw [Volume.bitmapChecksumValid, if_neg (by simp [h])]

private theorem Persistent.readOk (h : Persistent crc v) (hopen : Opened v.super v.groupDescCount)
    (hw : Writing crc v w)
    (hsaved : ∀ q, ∀ g < v.groupDescCount, ¬v.Skips q g → Saved crc v w disk q g) (hg : g < v.groupDescCount)
    (hrange : b.RangeOk (v.partStart p + g * (v.nread p * 8)) (v.nread p * 8)) : ReadOk crc w disk b p g := by
  have hn : w.nread p = v.nread p := by
    rw [hw.frame]
    cases p with
    | _ => rfl
  refine ⟨?_, ?_⟩
  · rw [hw.partStart, hn]
    exact hrange
  · cases hsum : v.super.metadataCsum with
    | false => exact Or.inr (bitmapChecksumValid_plain (by rw [hw.super, hsum]))
    | true =>
      rcases h.sums hsum p g hg with hzero | ⟨hown, hnread⟩
      · exact Or.inl (hzero.partBlock hw hopen hg fun q hq => hsaved q g hg hq)
      · have hs := hsaved p g hg hown.saved
        right
        rw [(hs.readBuf hw hopen hg hown).1, hs.stored hown.keeps hown.block.1, hn, hnread]
        exact hs.sum

/-- A group that has been written shows that the 32-bit block bitmap can be addressed. -/
theorem Persistent.start (h : Persistent crc v) (hload : Loaded v)
    (hsaved : ∀ g < v.groupDescCount, ¬v.Skips .block g → Saved crc v w disk .block g) (hflag : v.flag64 = false) :
    8 ≤ v.super.clustersPerGroup ∨ v.partStart .block ≠ 0 := by
  by_cases hall : ∀ g < v.groupDescCount, v.Skips .block g
  · exact h.first32 hflag hall
  · obtain ⟨g, hg, hskip⟩ : ∃ g < v.groupDescCount, ¬v.Skips .block g := by simpa using hall
    by_contra hno
    obtain ⟨hsmall, hzero⟩ := not_or.1 hno
    rw [not_not] at hzero
    have hrange := (hsaved g hg hskip).range
    have hwritten : v.written .block = 0 := Nat.div_eq_of_lt (by omega)
    rw [hwritten, hzero, Nat.zero_mul, Nat.mul_zero, Nat.add_zero] at hrange
    obtain ⟨addr, b, hnew, hb⟩ := hload.block
    rw [allocateBlockBitmap_eq, hflag] at hnew
    rcases newBitmap_cases hnew with ⟨h1, -⟩ | ⟨-, -, -, rfl⟩
    · cases h1
    · change v.blockBitmap.RangeOk 0 0 at hrange
      cases hv : v.blockBitmap with
      | wide c =>
        rw [hv] at hb
        exact hb.elim
      | narrow c =>
        rw [hv] at hrange
        exact hrange (Or.inl (by decide))

private theorem inode_place (hload : Loaded v) (n : Nat) :
    v.inodeBitmap.firstByte (v.partStart .inode + g * (n * 8)) = g * n := by
  obtain ⟨addr, b, hnew, hb⟩ := hload.inode
  rw [allocateInodeBitmap_eq] at hnew
  rw [hb.firstByte]
  exact newBitmap_place hnew (fun _ => show 1 < 8 by decide) g _

/-- With whole bytes of inodes in a group, the inodes of a group with a block of its own come back. -/
private theorem inode_comesBack (hdvd : 8 ∣ v.super.inodesPerGroup) (hload : Loaded v) (hg : g < v.groupDescCount)
    (hown : v.OwnBlock .inode g) (hx : x ∈ v.super.groupInodes g) {i : Nat} (hi : v.inodeBitmap.index x = some i) :
    v.ComesBack crc .inode i := by
  obtain ⟨addr, b, hnew, hb⟩ := hload.inode
  rw [allocateInodeBitmap_eq] at hnew
  have hindex : i = x - 1 := newBitmap_index hnew (hb.index x ▸ hi)
  have hread : v.readPlace .inode g = g * v.nread .inode := inode_place hload _
  have hsave : v.savePlace .inode g = g * v.written .inode := inode_place hload _
  have hper : 8 * v.nread .inode = v.super.inodesPerGroup ∧ v.nread .inode = v.written .inode := by
    simp only [Volume.nread, Volume.written]
    omega
  have hmul : 8 * (g * v.nread .inode) = g * v.super.inodesPerGroup := by
    rw [← hper.1, Nat.mul_left_comm]
  rw [Super.groupInodes, Finset.mem_Ico] at hx
  refine .saved g hg hown (by rw [hread, hsave, hper.2]) ⟨?_, ?_⟩ fun hp => by cases hp
  · rw [hread]
    omega
  · rw [hread]
    omega

private theorem ComesBack.agreeAt (hopen : Opened v.super v.groupDescCount) (hw : Writing crc v w)
    (hsaved : ∀ q, ∀ g < v.groupDescCount, ¬v.Skips q g → Saved crc v w disk q g) (hb : SameBounds (v.partBitmap p) b)
    (hbegins : b.Begins (v.partStart p)) (hzero : ∀ y, b.array y = 0)
    (hback : ∀ i, (v.partBitmap p).index x = some i → v.ComesBack crc p i) :
    AgreeAt x (v.partBitmap p)
      (b.withArray (w.readArray crc disk b p b.array (List.range w.groupDescCount))) := by
  have hbounds := hb.withArray (v.partBitmap p).array (w.readArray crc disk b p b.array (List.range w.groupDescCount))
  rw [Bitmap.withArray_array] at hbounds
  refine ⟨hbounds, ?_⟩
  rw [testBitmap_eq, testBitmap_eq, hbounds.index, Bitmap.array_withArray]
  cases hi : (v.partBitmap p).index x with
  | none => exact Iff.rfl
  | some i => exact readArray_bit hbegins hzero hb.firstByte hw hopen hsaved (hback i hi)

private theorem openfs_blksize {s : Super} {count : Nat} (h : openfs s = some (.ok count)) : s.blksize ≤ 2 ^ 16 := by
  obtain ⟨h6, -⟩ := check_passed h
  rw [Super.blksize, Nat.shiftLeft_eq]
  calc 1024 * 2 ^ s.logBlockSize ≤ 1024 * 2 ^ 6 := Nat.mul_le_mul_left _ (Nat.pow_le_pow_right (by decide) (by omega))
    _ = 2 ^ 16 := by decide

end

/-- The bitmaps of a persistent file system come back: if `ext2_write_bitmaps` succeeds with both bitmaps, then
`ext2_read_bitmaps` succeeds, and it gives the same bits for the blocks and inodes of the groups that have no flag. -/
theorem bitmaps_persist {crc : Crc} {io : Nat → Bool} {v w : Volume} {disk disk' : Disk} (hwf : v.super.Wf)
    (hopen : openfs v.super = some (.ok v.groupDescCount)) (hload : Loaded v) (hbb : v.bbDirty = true)
    (hib : v.ibDirty = true) (hwrite : v.writeBitmaps crc io disk = some ((w, disk'), none)) (h : Persistent crc v)
    (addr : Nat × Nat) : ∃ u, w.readBitmaps crc disk' addr = some (.ok u) ∧
      (∀ g < v.groupDescCount, v.bgTestFlags g 2 = 0 → ∀ x ∈ v.super.groupBlocks g,
        (testBitmap u.blockBitmap x = 0 ↔ testBitmap v.blockBitmap x = 0)) ∧
      (∀ g < v.groupDescCount, v.bgTestFlags g 1 = 0 → ∀ x ∈ v.super.groupInodes g,
        (testBitmap u.inodeBitmap x = 0 ↔ testBitmap v.inodeBitmap x = 0)) := by
  have hblk := openfs_blksize hopen
  have hopened := openfs_ok hopen
  obtain ⟨hn, hw, hsaved⟩ := writeBitmaps_saved hopened h.offsets hblk hbb hib hwrite
  obtain ⟨addr1, b1, hnew1, hb1⟩ := hload.block
  obtain ⟨addr2, b2, hnew2, hb2⟩ := hload.inode
  rw [allocateBlockBitmap_eq] at hnew1
  rw [allocateInodeBitmap_eq] at hnew2
  obtain ⟨bb, hbbnew, hsame1⟩ := newBitmap_any hnew1 addr.1
  obtain ⟨ib, hibnew, hsame2⟩ := newBitmap_any hnew2 addr.2
  rw [← allocateBlockBitmap_eq] at hbbnew
  rw [← allocateInodeBitmap_eq] at hibnew
  have hbounds1 := hb1.of hsame1
  have hbounds2 := hb2.of hsame2
  have hnread : ∀ p, v.nread p ≤ v.super.blksize := fun p => by
    cases p with
    | block => exact hn .block
    | inode => exact Nat.le_trans (Nat.div_le_div_right (Nat.le_add_right _ 7)) (hn .inode)
  have hnw : ∀ p, w.nread p = v.nread p := fun p => by
    rw [hw.frame]
    cases p with
    | _ => rfl
  -- Both bitmaps are read, group after group.
  have hbbok : ∀ g ∈ List.range w.groupDescCount, ReadOk crc w disk' bb .block g := fun g hg => by
    rw [List.mem_range, hw.count] at hg
    exact h.readOk hopened hw hsaved hg (allocateBlockBitmap_range hwf hopened
      (h.start hload (hsaved .block)) hbbnew hg)
  have hibok : ∀ g ∈ List.range w.groupDescCount, ReadOk crc w disk' ib .inode g := fun g hg => by
    rw [List.mem_range, hw.count] at hg
    exact h.readOk hopened hw hsaved hg (allocateInodeBitmap_range hibnew hg)
  have hread := readGroups_ok bb.array ib.array (fun p => by rw [hnw]; exact Nat.le_trans (hnread p) hblk) hbbok hibok
  rw [Bitmap.withArray_array, Bitmap.withArray_array] at hread
  have hagree1 : ∀ x, (∀ i, v.blockBitmap.index x = some i → v.ComesBack crc .block i) → AgreeAt x v.blockBitmap
      (bb.withArray (w.readArray crc disk' bb .block bb.array (List.range w.groupDescCount))) := fun x hx =>
    ComesBack.agreeAt (p := .block) hopened hw hsaved hbounds1 (newBitmap_begins hbbnew) (newBitmap_zero hbbnew) hx
  have hagree2 : ∀ x, (∀ i, v.inodeBitmap.index x = some i → v.ComesBack crc .inode i) → AgreeAt x v.inodeBitmap
      (ib.withArray (w.readArray crc disk' ib .inode ib.array (List.range w.groupDescCount))) := fun x hx =>
    ComesBack.agreeAt (p := .inode) hopened hw hsaved hbounds2 (newBitmap_begins hibnew) (newBitmap_zero hibnew) hx
  -- The blocks of the groups without a bitmap are marked.
  obtain ⟨marked, hmark, hkeep⟩ := h.marked
  obtain ⟨out, hout⟩ := v.blockBitmap.exists_outside
  obtain ⟨final, hfinal, -⟩ := KeepsAgree.markUninit v _ _ _ (hagree1 out (by simp [hout])) hmark
  refine ⟨{ w with
    blockBitmap := final
    inodeBitmap := ib.withArray (w.readArray crc disk' ib .inode ib.array (List.range w.groupDescCount)) }, ?_,
      ?_, ?_⟩
  · have hsize :
      ¬(w.super.blksize < w.super.clustersPerGroup / 8 ∨ w.super.blksize < w.super.inodesPerGroup / 8) := by
      rw [hw.super]
      exact not_or.2 ⟨Nat.not_lt.2 (hnread .block), Nat.not_lt.2 (hnread .inode)⟩
    have halloc1 : w.allocateBlockBitmap addr.1 = .ok bb := by
      rw [← hbbnew, hw.frame]
      rfl
    have halloc2 : w.allocateInodeBitmap addr.2 = .ok ib := by
      rw [← hibnew, hw.frame]
      rfl
    unfold Volume.readBitmaps
    rw [if_neg hsize, halloc1, halloc2]
    simp only [hread, markUninit_congr hw hopened, hfinal, Option.map_some]
  · intro g hg hflag x hx
    obtain ⟨final', hfinal', hagree⟩ := KeepsAgree.markUninit v _ _ _ (hagree1 x (h.blocks g hg hflag x hx)) hmark
    rw [hfinal] at hfinal'
    cases hfinal'
    exact hagree.bit.trans (hkeep g hg hflag x hx)
  · intro g hg hflag x hx
    exact (hagree2 x (h.inodes g hg hflag x hx)).bit

/-- With one block in a cluster and whole bytes of clusters in a group, the blocks of a group with a block of its own
come back. -/
private theorem block_comesBack {crc : Crc} {v : Volume} {g x i : Nat} (hwf : v.super.Wf)
    (hopen : Opened v.super v.groupDescCount)
    (hload : Loaded v) (hratio : v.super.clusterRatioBits = 0) (hdvd : 8 ∣ v.super.clustersPerGroup)
    (h64 : v.flag64 = true → v.partStart .block < 8) (hg : g < v.groupDescCount) (hown : v.OwnBlock .block g)
    (hx : x ∈ v.super.groupBlocks g) (hi : v.blockBitmap.index x = some i) : v.ComesBack crc .block i := by
  obtain ⟨addr, b, hnew, hb⟩ := hload.block
  rw [allocateBlockBitmap_eq] at hnew
  have hstart : v.partStart .block = v.super.firstDataBlock := by
    rw [Volume.partStart, hratio, Nat.shiftRight_zero]
  have hper : v.super.blocksPerGroup = v.super.clustersPerGroup := by
    rw [hopen.perGroup, hratio, Nat.shiftLeft_zero, Nat.mod_eq_of_lt hwf.clustersPerGroup]
  have hpos := hopen.blocks_pos
  have hplace : v.savePlace .block g = g * v.written .block := by
    show v.blockBitmap.firstByte _ = _
    rw [hb.firstByte]
    exact newBitmap_place hnew h64 g _
  have hindex : i = x - v.super.firstDataBlock := by
    rw [hratio] at hnew
    rw [← hstart]
    exact newBitmap_index hnew (hb.index x ▸ hi)
  have hbytes : 8 * v.written .block = v.super.blocksPerGroup := by
    simp only [Volume.written]
    omega
  have hmul : 8 * (g * v.written .block) = g * v.super.blocksPerGroup := by
    rw [← hbytes, Nat.mul_left_comm]
  rw [Super.groupBlocks, Finset.mem_Ico, Nat.lt_min] at hx
  obtain ⟨hx1, hx2, hx3⟩ := hx
  have hread : v.readPlace .block g = v.savePlace .block g := rfl
  have hnread : v.nread .block = v.written .block := rfl
  refine .saved g hg hown hread ⟨?_, ?_⟩ fun _ hlast hbits => Or.inl ?_
  · rw [hread, hplace]
    omega
  · rw [hread, hplace, hnread]
    omega
  · have hcount := hopen.groups
    have hfirst := hopen.first_lt
    have hlt := Nat.mod_lt (v.super.blocksCount - v.super.firstDataBlock) hpos
    have hword := hwf.blocksPerGroup
    have hnum : v.lastBits = (v.super.blocksCount - v.super.firstDataBlock) % v.super.blocksPerGroup := by
      simp only [Volume.lastBits, hratio, Nat.pow_zero, Nat.sub_self, Nat.add_zero, Nat.shiftRight_zero]
      exact Nat.mod_eq_of_lt (by omega)
    rw [hnum] at hbits ⊢
    rw [hplace, hmul]
    -- The last group begins after all full groups.
    have hdiv : g = (v.super.blocksCount - v.super.firstDataBlock) / v.super.blocksPerGroup := by
      have hmod := Nat.div_add_mod (v.super.blocksCount - v.super.firstDataBlock) v.super.blocksPerGroup
      rw [hlast, hcount, Nat.add_sub_cancel]
      exact div_unique hpos (by rw [Nat.mul_comm]; omega) (by rw [Nat.mul_comm]; omega)
    have hmod := Nat.div_add_mod (v.super.blocksCount - v.super.firstDataBlock) v.super.blocksPerGroup
    rw [← hdiv, Nat.mul_comm] at hmod
    omega

/-- A file system of one group with bitmaps in the blocks 3 and 4, which are marked. -/
def dirtyVolume : Volume :=
  { smallVolume with
    groupDesc := writeLE (writeLE (fun _ => 0) 0 4 3) 4 4 4
    blockBitmap := .narrow ⟨1, 4, 8, fun x => if x = 0 then 12 else 0⟩
    bbDirty := true
    ibDirty := true }

private theorem dirtyVolume_loaded : Loaded dirtyVolume where
  block := ⟨0, _, rfl, rfl, rfl, rfl⟩
  inode := ⟨0, _, rfl, rfl, rfl, rfl⟩

private theorem dirtyVolume_own {g : Nat} (hg : g < 1) (p : Part) : dirtyVolume.OwnBlock p g := by
  obtain rfl := Nat.lt_one_iff.1 hg
  refine ⟨fun h => absurd h.1 (by decide), fun q g' hg' _ _ hloc => ?_, ?_⟩
  · obtain rfl := Nat.lt_one_iff.1 hg'
    have hpq : q = p := by
      revert hloc
      cases p with
      | block => cases q with
        | block => exact fun _ => rfl
        | inode => exact fun h => absurd h (by decide)
      | inode => cases q with
        | block => exact fun h => absurd h (by decide)
        | inode => exact fun _ => rfl
    rw [hpq]
  · cases p with
    | _ => decide

private theorem dirtyVolume_persistent : Persistent zeroCrc dirtyVolume where
  offsets := fun h => absurd h (by decide)
  first32 := fun _ _ => Or.inl (by decide)
  first64 := fun h => by cases h
  sums := fun h => absurd h (by decide)
  blocks :=
    fun _ hg _ _ hx _ hi => block_comesBack smallVolume_mounted.wf (openfs_ok (by decide)) dirtyVolume_loaded rfl
    (by decide) (fun h => by cases h) hg (dirtyVolume_own hg .block) hx hi
  inodes :=
    fun _ hg _ _ hx _ hi => inode_comesBack (by decide) dirtyVolume_loaded hg (dirtyVolume_own hg .inode) hx hi
  marked := ⟨_, rfl, fun _ _ _ _ _ => Iff.rfl⟩

/-- The blocks 3 and 4 are still in use, and no inode is. -/
theorem bitmaps_persist_small : ∃ w disk' u,
    dirtyVolume.writeBitmaps zeroCrc (fun _ => true) (fun _ _ => 0) = some ((w, disk'), none) ∧
    w.readBitmaps zeroCrc disk' (0, 0) = some (.ok u) ∧
    (∀ g < 1, dirtyVolume.bgTestFlags g 2 = 0 → ∀ x ∈ dirtyVolume.super.groupBlocks g,
      (testBitmap u.blockBitmap x = 0 ↔ testBitmap dirtyVolume.blockBitmap x = 0)) ∧
    (∀ g < 1, dirtyVolume.bgTestFlags g 1 = 0 → ∀ x ∈ dirtyVolume.super.groupInodes g,
      (testBitmap u.inodeBitmap x = 0 ↔ testBitmap dirtyVolume.inodeBitmap x = 0)) := by
  obtain ⟨w, disk', hw⟩ : ∃ w disk', dirtyVolume.writeBitmaps zeroCrc (fun _ => true) (fun _ _ => 0) =
      some ((w, disk'), none) := ⟨_, _, rfl⟩
  obtain ⟨u, hu⟩ :=
    bitmaps_persist (v := dirtyVolume) smallVolume_mounted.wf (by decide) dirtyVolume_loaded rfl rfl hw
    dirtyVolume_persistent (0, 0)
  exact ⟨w, disk', u, hw, hu⟩

/-- The file system with 12 clusters in its group; the last one is in use. -/
def oddVolume : Volume :=
  { dirtyVolume with
    super := { smallVolume.super with blocksCountLo := 13, blocksPerGroup := 12, clustersPerGroup := 12 }
    blockBitmap := .narrow ⟨1, 12, 12, fun x => if x = 0 then 12 else if x = 1 then 8 else 0⟩ }

/-- Only one byte is stored for 12 clusters, and block 12 is free after the bitmaps have been read. -/
theorem not_bitmaps_persist : openfs oddVolume.super = some (.ok oddVolume.groupDescCount) ∧ Loaded oddVolume ∧
    oddVolume.bgTestFlags 0 2 = 0 ∧ 12 ∈ oddVolume.super.groupBlocks 0 ∧ ∃ w disk' u,
      oddVolume.writeBitmaps zeroCrc (fun _ => true) (fun _ _ => 0) = some ((w, disk'), none) ∧
      w.readBitmaps zeroCrc disk' (0, 0) = some (.ok u) ∧
      testBitmap oddVolume.blockBitmap 12 ≠ 0 ∧ testBitmap u.blockBitmap 12 = 0 := by
  refine ⟨by decide, ⟨⟨0, _, rfl, rfl, rfl, rfl⟩, ⟨0, _, rfl, rfl, rfl, rfl⟩⟩, by decide, by decide, _, _, _, rfl,
    rfl, by decide, by decide⟩

end Pml.Ext2
