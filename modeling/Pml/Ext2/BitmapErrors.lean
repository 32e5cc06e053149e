import Pml.Ext2.BitmapRoundTrip

/-!
# Errors while bitmaps are read (`ext2_read_bitmap`)

`ext2_read_bitmap` makes the requested bitmaps, reads their parts group by group, and drops the bitmaps if one of
these steps fails.  All errors of the loop leave it by one label, and the value that is returned there is the value of
the step before.  For a block that cannot be read this is an error, but for a checksum that does not match it is the
value of the read, which has succeeded: the rest of the bitmap is then free, and the call succeeds.
`readBitmap_reports_iff` says for which devices a bad block is reported.
-/

namespace Pml.Ext2

open ByteMemory

/-- The two bitmaps of `struct ext2_fs`, which may be `NULL`. -/
abbrev BitmapTable := Part → Option Bitmap

/-- A call of `ext2_read_bitmap`: the parts and the groups, the memory for the bitmaps and for the buffers, and the
blocks that cannot be read. -/
structure ReadCall where
  want : Part → Bool
  first : Nat
  last : Nat
  mem : Part → Option Nat
  buffers : Bool
  fails : Part → Nat → Bool

namespace Volume

variable (crc : Crc)

/-- `ext2_allocate_block_bitmap` or `ext2_allocate_inode_bitmap`. -/
def allocatePart (v : Volume) (mem : Part → Option Nat) (p : Part) : Except Errno Bitmap :=
  let make := match p with
    | .block => v.allocateBlockBitmap
    | .inode => v.allocateInodeBitmap
  match mem p with
  | some addr => make addr
  | none => (make 0).bind fun _ => .error .ENOMEM

/-- The part of `ext2_prepare_read_bitmap` for one bitmap.  If there is a bitmap and no new one can be made then the
old one is freed twice, which is undefined. -/
def preparePart (v : Volume) (call : ReadCall) (maps : BitmapTable) (p : Part) :
    Option (BitmapTable × Option Errno) :=
  if !call.want p then some (maps, none)
  else
    match v.allocatePart call.mem p with
    | .ok b => some (Function.update maps p (some b), none)
    | .error e => if (maps p).isSome then none else some (maps, some e)

def prepareReadBitmap (v : Volume) (call : ReadCall) (maps : BitmapTable) : Option (BitmapTable × Option Errno) :=
  if v.super.blksize < v.super.clustersPerGroup / 8 ∨ v.super.blksize < v.super.inodesPerGroup / 8 then
    some (maps, some .EUCLEAN)
  else
    match v.preparePart call maps .block with
    | some (maps, none) => v.preparePart call maps .inode
    | r => r

def partFirst (v : Volume) (p : Part) (g : Nat) : Nat := v.partStart p + g * (v.nread p * 8)

/-- One bitmap of one group in the loop of `ext2_read_bitmap_start`. -/
def readPart (v : Volume) (disk : Disk) (fails : Part → Nat → Bool) (p : Part) (g : Nat) (b : Bitmap) : Read :=
  if v.partBlock crc p g ≠ 0 ∧ fails p g then .fail Errno.EIO
  else readGroup disk b (v.partBlock crc p g) (v.partFirst p g) (v.nread p) (v.bitmapChecksumValid crc p.lo p.hi g)

/-- The loop of `ext2_read_bitmap_start`, over the parts of the groups.  A checksum that does not match ends it
without an error. -/
def readParts (v : Volume) (disk : Disk) (fails : Part → Nat → Bool) :
    List (Part × Nat) → BitmapTable → Option (BitmapTable × Option Errno)
  | [], maps => some (maps, none)
  | (p, g) :: js, maps =>
    match maps p with
    | none => none
    | some b =>
      match v.readPart crc disk fails p g b with
      | .next b => readParts v disk fails js (Function.update maps p (some b))
      | .stop => some (maps, none)
      | .fail e => some (maps, some e)

end Volume

/-- The parts that a call reads, in this order. -/
def ReadCall.parts (call : ReadCall) : List (Part × Nat) :=
  (List.range' call.first (call.last + 1 - call.first)).flatMap fun g =>
    ([.block, .inode].filter call.want).map (·, g)

namespace Volume

variable (crc : Crc)

/-- `ext2_read_bitmap_start`; undefined if there is no memory for the buffers or nothing to read, where the value that
is returned has not been set. -/
def readBitmapStart (v : Volume) (disk : Disk) (call : ReadCall) (maps : BitmapTable) :
    Option (BitmapTable × Option Errno) :=
  if !call.buffers ∨ call.parts = [] then none else v.readParts crc disk call.fails call.parts maps

def readBitmapEnd (v : Volume) (call : ReadCall) (maps : BitmapTable) : Option BitmapTable :=
  if call.want .block then
    (maps .block).bind fun b => (v.markUninit b).map fun b => Function.update maps .block (some b)
  else some maps

def cleanBitmap (call : ReadCall) (maps : BitmapTable) : BitmapTable := fun p => if call.want p then none else maps p

def readBitmap (v : Volume) (disk : Disk) (call : ReadCall) (maps : BitmapTable) :
    Option (BitmapTable × Option Errno) :=
  match v.prepareReadBitmap call maps with
  | some (maps, none) =>
    match v.readBitmapStart crc disk call maps with
    | some (maps, none) => (v.readBitmapEnd call maps).map fun maps => (maps, none)
    | some (maps, some e) => some (cleanBitmap call maps, some e)
    | none => none
  | r => r

/-! ### What can happen to a part -/

def Unread (v : Volume) (call : ReadCall) (j : Part × Nat) : Prop :=
  v.partBlock crc j.1 j.2 ≠ 0 ∧ call.fails j.1 j.2 = true

/-- The block of the part can be read, but its checksum does not match. -/
def Mismatch (v : Volume) (disk : Disk) (call : ReadCall) (j : Part × Nat) : Prop :=
  v.partBlock crc j.1 j.2 ≠ 0 ∧ call.fails j.1 j.2 = false ∧
    v.bitmapChecksumValid crc j.1.lo j.1.hi j.2 (copyOut (disk (v.partBlock crc j.1 j.2)) 0 (v.nread j.1)) = false

def Refused (v : Volume) (maps : BitmapTable) (j : Part × Nat) : Prop :=
  ∃ b, maps j.1 = some b ∧ ¬b.RangeOk (v.partFirst j.1 j.2) (v.nread j.1 * 8)

def Starts (v : Volume) (call : ReadCall) (maps maps' : BitmapTable) : Prop :=
  v.prepareReadBitmap call maps = some (maps', none) ∧ call.buffers = true

/-- If a block that is needed cannot be read or its checksum does not match, then the call fails, and there are no
requested bitmaps afterwards. -/
def ErrorsReported (v : Volume) (disk : Disk) (call : ReadCall) (maps : BitmapTable) : Prop :=
  ∀ maps', v.Starts call maps maps' → (∃ j ∈ call.parts, v.Unread crc call j ∨ v.Mismatch crc disk call j) →
    ∃ maps'' e, v.readBitmap crc disk call maps = some (maps'', some e) ∧ ∀ p, call.want p = true → maps'' p = none

/-- A checksum that does not match comes after a block that cannot be read, or after a part without room. -/
def MismatchLate (v : Volume) (disk : Disk) (call : ReadCall) (maps : BitmapTable) : Prop :=
  ∀ maps', v.Starts call maps maps' → ∀ pre j post, call.parts = pre ++ j :: post → v.Mismatch crc disk call j →
    ∃ i ∈ pre, v.Unread crc call i ∨ v.Refused maps' i

end Volume

/-! ### The loop -/

private theorem setBitmapRange_cases (b : Bitmap) (first num : Nat) (data : Mem) :
    (b.RangeOk first num ∧ ∃ m, setBitmapRange b first num data = .ok (b.withArray m)) ∨
    (¬b.RangeOk first num ∧ setBitmapRange b first num data = .error .EUCLEAN) := by
  cases b with
  | narrow b =>
    rw [setBitmapRange]
    by_cases h : 2 ^ 32 ≤ sub64 (add64 first num) 1 ∨ first < b.start ∨ b.realEnd < sub64 (add64 first num) 1
    · exact Or.inr ⟨not_not.2 h, if_pos h⟩
    · exact Or.inl ⟨h, _, if_neg h⟩
  | wide b => exact Or.inl ⟨trivial, _, rfl⟩

section

variable {crc : Crc} {v : Volume} {disk : Disk} {call : ReadCall} {maps maps' : BitmapTable}

private theorem readPart_cases (p : Part) (g : Nat) (b : Bitmap) :
    (v.Unread crc call (p, g) ∧ v.readPart crc disk call.fails p g b = .fail Errno.EIO) ∨
    (v.Mismatch crc disk call (p, g) ∧ v.readPart crc disk call.fails p g b = .stop) ∨
    (¬v.Unread crc call (p, g) ∧ ¬v.Mismatch crc disk call (p, g) ∧
      ((¬b.RangeOk (v.partFirst p g) (v.nread p * 8) ∧ v.readPart crc disk call.fails p g b = .fail .EUCLEAN) ∨
       (b.RangeOk (v.partFirst p g) (v.nread p * 8) ∧
        ∃ m, v.readPart crc disk call.fails p g b = .next (b.withArray m)))) := by
  unfold Volume.readPart
  by_cases hu : v.partBlock crc p g ≠ 0 ∧ call.fails p g = true
  · rw [if_pos hu]
    exact Or.inl ⟨hu, rfl⟩
  rw [if_neg hu]
  right
  by_cases hm : v.Mismatch crc disk call (p, g)
  · obtain ⟨h0, -, hcsum⟩ := id hm
    refine Or.inl ⟨hm, ?_⟩
    dsimp only at h0 hcsum
    unfold Volume.readGroup
    dsimp only
    rw [if_pos]
    rw [if_neg h0, hcsum]
    exact ⟨h0, rfl⟩
  · refine Or.inr ⟨hu, hm, ?_⟩
    unfold Volume.readGroup
    dsimp only
    rw [if_neg]
    · rcases setBitmapRange_cases b (v.partFirst p g) (v.nread p * 8)
        (if v.partBlock crc p g = 0 then fun _ => 0 else disk (v.partBlock crc p g)) with ⟨hr, m, hs⟩ | ⟨hr, hs⟩
      · rw [hs]
        exact Or.inr ⟨hr, m, rfl⟩
      · rw [hs]
        exact Or.inl ⟨hr, rfl⟩
    · rintro ⟨h0, hcsum⟩
      rw [if_neg h0] at hcsum
      refine hm ⟨h0, ?_, by simpa using hcsum⟩
      by_contra hf
      exact hu ⟨h0, by simpa using hf⟩

def SameTable (maps maps' : BitmapTable) : Prop :=
  ∀ p, (maps p).isSome = (maps' p).isSome ∧
    ∀ b b', maps p = some b → maps' p = some b' → ∀ first num, b'.RangeOk first num ↔ b.RangeOk first num

theorem SameTable.refl (maps : BitmapTable) : SameTable maps maps := fun _ => ⟨rfl, fun b b' h h' _ _ => by
  rw [h] at h'
  cases h'
  exact Iff.rfl⟩

theorem SameTable.put (h : SameTable maps maps') {p : Part} {b : Bitmap} (hb : maps' p = some b) (m : Mem) :
    SameTable maps (Function.update maps' p (some (b.withArray m))) := by
  intro q
  obtain ⟨h1, h2⟩ := h q
  by_cases hq : q = p
  · subst hq
    rw [Function.update_self]
    refine ⟨by rw [h1, hb]; rfl, fun c c' hc hc' first num => ?_⟩
    cases hc'
    rw [Bitmap.rangeOk_withArray]
    exact h2 c b hc hb first num
  · rw [Function.update_of_ne hq]
    exact ⟨h1, h2⟩

private theorem readParts_cases (start : BitmapTable) {js : List (Part × Nat)}
    (hsome : ∀ j ∈ js, (start j.1).isSome = true) (hsame : SameTable start maps) :
    (∃ pre j post, js = pre ++ j :: post ∧ v.Mismatch crc disk call j ∧
      (∀ i ∈ pre, ¬v.Unread crc call i ∧ ¬v.Mismatch crc disk call i ∧ ¬v.Refused start i) ∧
      ∃ maps', v.readParts crc disk call.fails js maps = some (maps', none)) ∨
    (∃ pre j post, js = pre ++ j :: post ∧ (v.Unread crc call j ∨ v.Refused start j) ∧
      (∀ i ∈ pre, ¬v.Mismatch crc disk call i) ∧ ¬v.Mismatch crc disk call j ∧
      ∃ maps' e, v.readParts crc disk call.fails js maps = some (maps', some e)) ∨
    (∀ j ∈ js, ¬v.Unread crc call j ∧ ¬v.Mismatch crc disk call j) := by
  induction js generalizing maps with
  | nil => exact Or.inr (Or.inr fun j hj => by cases hj)
  | cons j js ih =>
    obtain ⟨p, g⟩ := j
    obtain ⟨hiso, hrange⟩ := hsame p
    rw [hsome _ List.mem_cons_self] at hiso
    obtain ⟨b, hb⟩ := Option.isSome_iff_exists.1 hiso.symm
    obtain ⟨b₀, hb₀⟩ := Option.isSome_iff_exists.1 (hsome _ List.mem_cons_self)
    rw [Volume.readParts, hb]
    dsimp only
    rcases @readPart_cases crc v disk call p g b with
      ⟨hu, hread⟩ | ⟨hm, hread⟩ | ⟨hu, hm, ⟨hr, hread⟩ | ⟨hr, m, hread⟩⟩
    · rw [hread]
      refine Or.inr (Or.inl ⟨[], (p, g), js, rfl, Or.inl hu, fun i hi => (by cases hi), fun hm => ?_, _, _, rfl⟩)
      exact absurd (hm.2.1.symm.trans hu.2) (by decide)
    · rw [hread]
      exact Or.inl ⟨[], (p, g), js, rfl, hm, fun i hi => (by cases hi), _, rfl⟩
    · rw [hread]
      exact Or.inr (Or.inl ⟨[], (p, g), js, rfl, Or.inr ⟨b₀, hb₀, fun h => hr ((hrange b₀ b hb₀ hb _ _).2 h)⟩,
        fun i hi => (by cases hi), hm, _, _, rfl⟩)
    · rw [hread]
      dsimp only
      have hfine : ¬v.Refused start (p, g) := fun ⟨c, hc, hno⟩ => by
        rw [hb₀] at hc
        cases hc
        exact hno ((hrange b₀ b hb₀ hb _ _).1 hr)
      rcases ih (fun j hj => hsome j (List.mem_cons_of_mem _ hj)) (hsame.put hb m) with
        ⟨pre, j, post, rfl, h1, h2, h3⟩ | ⟨pre, j, post, rfl, h1, h2, h3⟩ | h1
      · refine Or.inl ⟨(p, g) :: pre, j, post, rfl, h1, fun i hi => ?_, h3⟩
        rcases List.mem_cons.1 hi with rfl | hi
        · exact ⟨hu, hm, hfine⟩
        · exact h2 i hi
      · refine Or.inr (Or.inl ⟨(p, g) :: pre, j, post, rfl, h1, fun i hi => ?_, h3⟩)
        rcases List.mem_cons.1 hi with rfl | hi
        · exact hm
        · exact h2 i hi
      · refine Or.inr (Or.inr fun i hi => ?_)
        rcases List.mem_cons.1 hi with rfl | hi
        · exact ⟨hu, hm⟩
        · exact h1 i hi

/-! ### The call -/

private theorem preparePart_some {p q : Part} (h : v.preparePart call maps p = some (maps', none)) :
    (call.want p = true → (maps' p).isSome = true) ∧ (q ≠ p → maps' q = maps q) := by
  unfold Volume.preparePart at h
  split at h
  · rename_i hw
    cases h
    exact ⟨fun hp => by simp [hp] at hw, fun _ => rfl⟩
  · split at h
    · cases h
      exact ⟨fun _ => by rw [Function.update_self]; rfl, fun hq => Function.update_of_ne hq _ _⟩
    · split at h
      · cases h
      · cases h

private theorem prepareReadBitmap_some (h : v.prepareReadBitmap call maps = some (maps', none)) (p : Part)
    (hp : call.want p = true) : (maps' p).isSome = true := by
  unfold Volume.prepareReadBitmap at h
  split at h
  · cases h
  · split at h
    · rename_i maps₁ hb
      cases p with
      | block =>
        rw [(preparePart_some h).2 (by decide)]
        exact (@preparePart_some _ _ _ _ .block .block hb).1 hp
      | inode => exact (@preparePart_some _ _ _ _ .inode .inode h).1 hp
    · rename_i hno
      exact absurd h (hno _)

private theorem parts_wanted {j : Part × Nat} (h : j ∈ call.parts) : call.want j.1 = true := by
  unfold ReadCall.parts at h
  obtain ⟨g, -, hj⟩ := List.mem_flatMap.1 h
  obtain ⟨p, hp, rfl⟩ := List.mem_map.1 hj
  exact (List.mem_filter.1 hp).2

private theorem readBitmap_of_ok {w : BitmapTable} (h : v.Starts call maps maps') (hne : call.parts ≠ [])
    (hr : v.readParts crc disk call.fails call.parts maps' = some (w, none)) :
    v.readBitmap crc disk call maps = (v.readBitmapEnd call w).map fun maps => (maps, none) := by
  unfold Volume.readBitmap Volume.readBitmapStart
  rw [h.1]
  dsimp only
  rw [if_neg (by simp [h.2, hne]), hr]

private theorem readBitmap_of_error {w : BitmapTable} {e : Errno} (h : v.Starts call maps maps')
    (hne : call.parts ≠ []) (hr : v.readParts crc disk call.fails call.parts maps' = some (w, some e)) :
    v.readBitmap crc disk call maps = some (Volume.cleanBitmap call w, some e) := by
  unfold Volume.readBitmap Volume.readBitmapStart
  rw [h.1]
  dsimp only
  rw [if_neg (by simp [h.2, hne]), hr]

/-- Bad blocks are reported if and only if no checksum that does not match ends the loop. -/
theorem readBitmap_reports_iff : v.ErrorsReported crc disk call maps ↔ v.MismatchLate crc disk call maps := by
  constructor
  · intro h maps' hstart pre j post hparts hm
    have hsome : ∀ j ∈ call.parts, (maps' j.1).isSome = true := fun j hj =>
      prepareReadBitmap_some hstart.1 j.1 (parts_wanted hj)
    have hne : call.parts ≠ [] := by
      rw [hparts]
      exact List.append_ne_nil_of_right_ne_nil _ (List.cons_ne_nil _ _)
    have hj : j ∈ call.parts := by
      rw [hparts]
      exact List.mem_append_right _ List.mem_cons_self
    obtain ⟨maps'', e, hcall, -⟩ := h maps' hstart ⟨j, hj, Or.inr hm⟩
    rcases @readParts_cases crc v disk call _ maps' _ hsome (SameTable.refl maps') with
      ⟨pre', j', post', h1, h2, h3, w, hrun⟩ | ⟨pre', j', post', h1, h2, h3, h4, -⟩ | h1
    · -- the call succeeds
      rw [readBitmap_of_ok hstart hne hrun] at hcall
      obtain ⟨w', -, hw⟩ := Option.map_eq_some_iff.1 hcall
      cases hw
    · -- the part that ends the loop with an error is before the mismatch
      rw [hparts] at h1
      rcases List.append_eq_append_iff.1 h1 with ⟨as, rfl, has⟩ | ⟨as, rfl, has⟩
      · rcases as with _ | ⟨a, as⟩
        · rw [List.nil_append] at has
          cases has
          exact absurd hm h4
        · rw [List.cons_append] at has
          cases has
          exact absurd hm (h3 _ (List.mem_append_right _ List.mem_cons_self))
      · rcases as with _ | ⟨a, as⟩
        · rw [List.nil_append] at has
          cases has
          exact absurd hm h4
        · rw [List.cons_append] at has
          cases has
          exact ⟨j', List.mem_append_right _ List.mem_cons_self, h2⟩
    · exact absurd hm (h1 j hj).2
  · intro h maps' hstart hbad
    have hsome : ∀ j ∈ call.parts, (maps' j.1).isSome = true := fun j hj =>
      prepareReadBitmap_some hstart.1 j.1 (parts_wanted hj)
    obtain ⟨j₀, hj₀, hbad⟩ := hbad
    have hne : call.parts ≠ [] := List.ne_nil_of_mem hj₀
    rcases @readParts_cases crc v disk call _ maps' _ hsome (SameTable.refl maps') with
      ⟨pre, j, post, h1, h2, h3, -⟩ | ⟨pre, j, post, h1, h2, h3, h4, w, e, hrun⟩ | h1
    · -- nothing before the mismatch has ended the loop
      obtain ⟨i, hi, hi'⟩ := h maps' hstart pre j post h1 h2
      obtain ⟨h4, -, h5⟩ := h3 i hi
      exact absurd hi' (not_or.2 ⟨h4, h5⟩)
    · rw [readBitmap_of_error hstart hne hrun]
      exact ⟨_, e, rfl, fun p hp => if_pos hp⟩
    · exact absurd hbad (not_or.2 (h1 j₀ hj₀))

end

/-! ### All bitmaps -/

def bitmapTable (bb ib : Bitmap) : BitmapTable
  | .block => some bb
  | .inode => some ib

private theorem bitmapTable_block (bb ib b : Bitmap) :
    Function.update (bitmapTable bb ib) .block (some b) = bitmapTable b ib := by
  funext p
  cases p with
  | block => rfl
  | inode => rfl

private theorem bitmapTable_inode (bb ib b : Bitmap) :
    Function.update (bitmapTable bb ib) .inode (some b) = bitmapTable bb b := by
  funext p
  cases p with
  | block => rfl
  | inode => rfl

/-- The call that `ext2_read_bitmaps` makes if there are no bitmaps. -/
def allBitmaps (v : Volume) (addr : Nat × Nat) : ReadCall where
  want := fun _ => true
  first := 0
  last := v.groupDescCount - 1
  mem
    | .block => some addr.1
    | .inode => some addr.2
  buffers := true
  fails := fun _ _ => false

section

variable {crc : Crc} {v w : Volume} {disk : Disk} {addr : Nat × Nat}

private theorem readPart_block (g : Nat) (b : Bitmap) : v.readPart crc disk (fun _ _ => false) .block g b =
    Volume.readGroup disk b (v.bitmapBlock crc g 2 (v.blockBitmapLoc g)) (v.blkitr g) (v.super.clustersPerGroup / 8)
      (v.blockBitmapChecksumValid crc g) := by
  unfold Volume.readPart
  rw [if_neg fun h => Bool.false_ne_true h.2]
  rfl

private theorem readPart_inode (g : Nat) (b : Bitmap) : v.readPart crc disk (fun _ _ => false) .inode g b =
    Volume.readGroup disk b (v.bitmapBlock crc g 1 (v.inodeBitmapLoc g)) (1 + g * (v.super.inodesPerGroup / 8 * 8))
      (v.super.inodesPerGroup / 8) (v.inodeBitmapChecksumValid crc g) := by
  unfold Volume.readPart
  rw [if_neg fun h => Bool.false_ne_true h.2]
  rfl

private theorem readGroups_parts {gs : List Nat} {bb ib bb' ib' : Bitmap}
    (h : v.readGroups crc disk gs bb ib = .ok (bb', ib')) :
    v.readParts crc disk (fun _ _ => false) (gs.flatMap fun g => [(.block, g), (.inode, g)]) (bitmapTable bb ib) =
      some (bitmapTable bb' ib', none) := by
  induction gs generalizing bb ib with
  | nil =>
    cases h
    rfl
  | cons g gs ih =>
    change v.readParts crc disk _ ((.block, g) :: (.inode, g) :: gs.flatMap _) _ = _
    rw [Volume.readParts, bitmapTable]
    dsimp only
    rw [readPart_block]
    rw [Volume.readGroups] at h
    split at h
    · cases h
    · rename_i hb
      cases h
      rw [hb]
    · rename_i bb₁ hb
      rw [hb]
      dsimp only
      rw [bitmapTable_block, Volume.readParts, bitmapTable]
      dsimp only
      rw [readPart_inode]
      dsimp only at h
      split at h
      · cases h
      · rename_i hi
        cases h
        rw [hi]
      · rename_i ib₁ hi
        rw [hi]
        dsimp only
        rw [bitmapTable_inode]
        exact ih h

/-- On a device without failures the call is the one that reads all bitmaps. -/
theorem readBitmap_all (hpos : 0 < v.groupDescCount) (h : v.readBitmaps crc disk addr = some (.ok w)) :
    v.readBitmap crc disk (allBitmaps v addr) (fun _ => none) =
      some (bitmapTable w.blockBitmap w.inodeBitmap, none) := by
  unfold Volume.readBitmaps at h
  split at h
  · cases h
  rename_i hfits
  split at h
  · rename_i bb ib hbb hib
    have hstart : v.Starts (allBitmaps v addr) (fun _ => none) (bitmapTable bb ib) := by
      refine ⟨?_, rfl⟩
      have h1 : v.preparePart (allBitmaps v addr) (fun _ => none) .block =
          some (Function.update (fun _ => none) .block (some bb), none) := by
        simp only [Volume.preparePart, Volume.allocatePart, allBitmaps, hbb, Bool.not_true, Bool.false_eq_true,
          if_false]
      have h2 : v.preparePart (allBitmaps v addr) (Function.update (fun _ => none) .block (some bb)) .inode =
          some (bitmapTable bb ib, none) := by
        simp only [Volume.preparePart, Volume.allocatePart, allBitmaps, hib, Bool.not_true, Bool.false_eq_true,
          if_false]
        congr 2
        funext p
        cases p with
        | block => rfl
        | inode => rfl
      unfold Volume.prepareReadBitmap
      rw [if_neg hfits, h1]
      exact h2
    have hparts : (allBitmaps v addr).parts =
        (List.range v.groupDescCount).flatMap fun g => [(.block, g), (.inode, g)] := by
      unfold ReadCall.parts allBitmaps
      dsimp only
      rw [Nat.sub_zero, Nat.sub_add_cancel hpos, List.range_eq_range']
      rfl
    have hne : (allBitmaps v addr).parts ≠ [] := by
      rw [hparts, List.range_eq_range', ← Nat.sub_add_cancel hpos, List.range'_succ, List.flatMap_cons]
      exact List.cons_ne_nil _ _
    split at h
    · cases h
    · rename_i bb₁ ib₁ hgroups
      obtain ⟨bb₂, hmark, hw⟩ := Option.map_eq_some_iff.1 h
      cases hw
      have hrun := readGroups_parts hgroups
      rw [← hparts] at hrun
      rw [readBitmap_of_ok hstart hne hrun]
      have hend : v.readBitmapEnd (allBitmaps v addr) (bitmapTable bb₁ ib₁) = some (bitmapTable bb₂ ib₁) := by
        change (v.markUninit bb₁).map _ = _
        rw [hmark, Option.map_some, bitmapTable_block]
      rw [hend]
      rfl
  · cases h

end

/-- The file system with checksums, where the checksum of the block bitmap is wrong. -/
def wrongSumVolume : Volume :=
  { dirtyVolume with
    super := { smallVolume.super with metadataCsum := true }
    groupDesc := writeLE dirtyVolume.groupDesc 24 2 1 }

/-- The bitmaps are read without an error, and the block 3, where the block bitmap is, is free. -/
theorem not_readBitmap_reports : openfs wrongSumVolume.super = some (.ok wrongSumVolume.groupDescCount) ∧
    ¬wrongSumVolume.ErrorsReported zeroCrc (fun _ _ => 255) (allBitmaps wrongSumVolume (0, 0)) (fun _ => none) ∧
    ((wrongSumVolume.readBitmap zeroCrc (fun _ _ => 255) (allBitmaps wrongSumVolume (0, 0)) fun _ => none).map
      fun r =>
      (r.2, (r.1 .block).map fun b => testBitmap b 3)) = some (none, some 0) := by
  refine ⟨by decide, fun h => ?_, by decide⟩
  have hbad : wrongSumVolume.Mismatch zeroCrc (fun _ _ => 255) (allBitmaps wrongSumVolume (0, 0)) (.block, 0) :=
    ⟨by decide, rfl, by decide⟩
  have hok : (wrongSumVolume.readBitmap zeroCrc (fun _ _ => 255) (allBitmaps wrongSumVolume (0, 0)) fun _ => none).map
      Prod.snd = some none := by decide
  obtain ⟨w, e, hcall, -⟩ := h _ ⟨rfl, rfl⟩ ⟨(.block, 0), by decide, Or.inr hbad⟩
  rw [hcall] at hok
  cases hok

end Pml.Ext2
