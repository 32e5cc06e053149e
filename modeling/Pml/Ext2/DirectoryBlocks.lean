import Pml.Ext2.Directory
import Pml.Lib.Segments

/-!
# The records of a directory block

A block is well formed if its records tile it up to the tail (`WfBlock`).  Each call of `ext2_process_link` changes
one record and the free record after it, so that the records still tile the block and hold the same entries, or one
more.  `ext2_process_unlink` makes a record a part of the one before it.
-/

namespace Pml.Ext2

open ByteMemory

/-! ### Lengths of records -/

theorem dirRecLen_spec (n : Nat) :
    8 + n % 256 ≤ dirRecLen n ∧ dirRecLen n % 4 = 0 ∧ dirRecLen n ≤ 264 ∧ dirRecLen n < 8 + n % 256 + 4 := by
  have := Nat.mod_lt n (show 0 < 256 by decide)
  unfold dirRecLen
  omega

private theorem and_65532 {n : Nat} (hn : n < 65536) (h : n % 4 = 0) : n &&& 65532 = n := by
  apply Nat.eq_of_testBit_eq
  intro i
  rw [Nat.testBit_and]
  by_cases hi : i < 16
  · by_cases hlo : i < 2
    · have hbit : n.testBit i = false := by
        rw [show n = 2 ^ 2 * (n / 4) by omega, Nat.testBit_two_pow_mul]
        simp
        omega
      simp [hbit]
    · have hall : ∀ i < 16, ¬i < 2 → (65532).testBit i = true := by decide
      rw [hall i hi hlo, Bool.and_true]
  · have hlt : n < 2 ^ i := Nat.lt_of_lt_of_le hn (Nat.pow_le_pow_right (show 0 < 2 by decide) (show 16 ≤ i by omega))
    simp [Nat.testBit_lt_two_pow hlt]

private theorem and_three (n : Nat) : n &&& 3 = n % 4 := Nat.and_two_pow_sub_one_eq_mod n 2

section

variable {b len : Nat}

private theorem getRecLen_field (hb : b ≤ 65536) (hle : len ≤ b) (hmod : len % 4 = 0) (hpos : 0 < len) :
    getRecLen b (recLenField b len) = len ∧ recLenField b len < 65536 := by
  unfold recLenField
  by_cases hlen : len < 65536
  · rw [if_pos hlen]
    refine ⟨?_, hlen⟩
    unfold getRecLen
    by_cases hlt : b < 65536
    · rw [if_pos hlt]
    · rw [if_neg hlt, if_neg (by omega), and_65532 hlen hmod, and_three, hmod, Nat.zero_shiftLeft, Nat.or_zero]
  · obtain rfl : len = 65536 := by omega
    obtain rfl : b = 65536 := by omega
    decide

private theorem field_of_getRecLen {raw : Nat} (hb : b ≤ 65536) (hraw : raw < 65536) (h : getRecLen b raw < 65536) :
    getRecLen b raw = raw := by
  unfold getRecLen at h ⊢
  by_cases hlt : b < 65536
  · rw [if_pos hlt]
  · rw [if_neg hlt] at h ⊢
    by_cases hspecial : raw = 65535 ∨ raw = 0
    · rw [if_pos hspecial] at h
      omega
    · rw [if_neg hspecial] at h ⊢
      rw [and_three] at h ⊢
      have hmod : raw % 4 = 0 := by
        by_contra hne
        have hhigh : 65536 ≤ (raw % 4) <<< 16 := by
          rw [Nat.shiftLeft_eq]
          omega
        exact Nat.not_lt.2 (Nat.le_trans hhigh Nat.right_le_or) h
      rw [hmod, Nat.zero_shiftLeft, Nat.or_zero, and_65532 hraw hmod]

end

/-! ### Well-formed blocks -/

/-- A record. -/
structure Dirent where
  ino : Nat
  recLen : Nat
  nameLen : Nat
  name : List UInt8

/-- The length is a multiple of 4, and the name fits. -/
structure Dirent.Wf (r : Dirent) : Prop where
  mod : r.recLen % 4 = 0
  le : dirRecLen r.nameLen ≤ r.recLen

def Dirent.HasRoom (r : Dirent) (need : Nat) : Prop :=
  (if r.ino = 0 then 0 else dirRecLen r.nameLen) + need ≤ r.recLen

def entries (rs : List Dirent) : List (List UInt8 × Nat) :=
  rs.filterMap fun r => if r.ino = 0 then none else some (r.name, r.ino)

namespace Dir

def direntAt (d : Dir) (m : Mem) (offset : Nat) : Dirent :=
  ⟨dInode m offset, getRecLen d.blksize (dRecLen m offset), dNameLen m offset, dName m offset⟩

def HasRec (d : Dir) (m : Mem) (offset : Nat) (r : Dirent) : Prop := d.direntAt m offset = r ∧ r.Wf

def top (d : Dir) : Nat := d.blksize - d.csumSize

abbrev Tiled (d : Dir) (m : Mem) (lo : Nat) (rs : List Dirent) (hi : Nat) : Prop :=
  Segments (d.HasRec m) Dirent.recLen lo rs hi

def HasTail (d : Dir) (m : Mem) : Prop :=
  d.vol.super.metadataCsum = true → dInode m d.top = 0 ∧ dRecLen m d.top = 12 ∧ dNameLen m d.top = 0xde00

def WfBlock (d : Dir) (m : Mem) : Prop := (∃ rs, d.Tiled m 0 rs d.top) ∧ d.HasTail m

/-- The block sizes that `ext2_openfs` accepts. -/
structure Sized (d : Dir) : Prop where
  ge : 1024 ≤ d.blksize
  le : d.blksize ≤ 65536
  mod : d.blksize % 4 = 0

end Dir

section

variable {d : Dir} {m m' : Mem} {o : Nat} {r : Dirent} {rs : List Dirent}

theorem sized_of_openfs {count : Nat} (h : openfs d.vol.super = some (.ok count)) : d.Sized := by
  obtain ⟨hge, hmod⟩ := blksize_ge d.vol.super
  obtain ⟨h6, -⟩ := check_passed h
  refine ⟨hge, ?_, hmod⟩
  change 1024 <<< d.vol.super.logBlockSize ≤ 65536
  rw [Nat.shiftLeft_eq]
  calc 1024 * 2 ^ d.vol.super.logBlockSize
      ≤ 1024 * 2 ^ 6 := Nat.mul_le_mul_left _ (Nat.pow_le_pow_right (by decide) (by omega))
    _ = 65536 := by decide

theorem csumSize_cases (d : Dir) : (d.vol.super.metadataCsum = true ∧ d.csumSize = 12) ∨
    (d.vol.super.metadataCsum = false ∧ d.csumSize = 0) := by
  unfold Dir.csumSize
  cases d.vol.super.metadataCsum with
  | true => exact Or.inl ⟨rfl, rfl⟩
  | false => exact Or.inr ⟨rfl, rfl⟩

theorem Dirent.Wf.eight_le (h : r.Wf) : 8 + r.nameLen % 256 ≤ r.recLen :=
  Nat.le_trans (dirRecLen_spec r.nameLen).1 h.le

private theorem dRecLen_lt (m : Mem) (o : Nat) : dRecLen m o < 65536 := readLE_lt m (o + 4) 2

theorem Dir.HasRec.congr (h : d.HasRec m o r) (hm : ∀ x, o ≤ x → x < o + r.recLen → m' x = m x) :
    d.HasRec m' o r := by
  obtain ⟨rfl, hwf⟩ := h
  have h8 := hwf.eight_le
  have hfield : ∀ a n, a + n ≤ 8 → readLE m' (o + a) n = readLE m (o + a) n := fun a n ha =>
    readLE_congr fun x h1 h2 => hm x (by omega) (by omega)
  have hlen : dNameLen m' o = dNameLen m o := hfield 6 2 (by decide)
  refine ⟨?_, hwf⟩
  have hname : dName m' o = dName m o := by
    unfold dName
    rw [hlen]
    exact copyOut_congr fun x h1 h2 => hm x (by omega) (Nat.lt_of_lt_of_le h2 (by
      rw [Nat.add_assoc]
      exact Nat.add_le_add_left h8 o))
  have hino : dInode m' o = dInode m o := hfield 0 4 (by decide)
  have hrec : dRecLen m' o = dRecLen m o := hfield 4 2 (by decide)
  unfold Dir.direntAt
  rw [hino, hrec, hlen, hname]

private theorem tiled_congr {hi : Nat} (h : d.Tiled m o rs hi) (hm : ∀ x, o ≤ x → x < hi → m' x = m x) :
    d.Tiled m' o rs hi :=
  h.mono fun _ _ _ h1 h2 hr => hr.congr fun x h3 h4 => hm x (by omega) (by omega)

theorem Dir.HasTail.congr (h : d.HasTail m) (hm : ∀ x, d.top ≤ x → x < d.top + 8 → m' x = m x) :
    d.HasTail m' := by
  intro hc
  obtain ⟨h1, h2, h3⟩ := h hc
  have hfield : ∀ a n, a + n ≤ 8 → readLE m' (d.top + a) n = readLE m (d.top + a) n := fun a n ha =>
    readLE_congr fun x _ _ => hm x (by omega) (by omega)
  exact ⟨(hfield 0 4 (by decide)).trans h1, (hfield 4 2 (by decide)).trans h2, (hfield 6 2 (by decide)).trans h3⟩

private theorem Dir.HasRec.setRaw (h : d.HasRec m o r) {raw len : Nat}
    (hget : getRecLen d.blksize (raw % 65536) = len) (hmod : len % 4 = 0) (hname : dirRecLen r.nameLen ≤ len) :
    d.HasRec (writeLE m (o + 4) 2 raw) o { r with recLen := len } := by
  obtain ⟨rfl, hwf⟩ := h
  refine ⟨?_, ⟨hmod, hname⟩⟩
  have hfield : ∀ a n, a + n ≤ 4 ∨ 6 ≤ a → readLE (writeLE m (o + 4) 2 raw) (o + a) n = readLE m (o + a) n :=
    fun a n ha =>
    readLE_writeLE_disjoint (by omega)
  have hino : dInode (writeLE m (o + 4) 2 raw) o = dInode m o := hfield 0 4 (by decide)
  have hlen : dNameLen (writeLE m (o + 4) 2 raw) o = dNameLen m o := hfield 6 2 (by decide)
  have hrec : dRecLen (writeLE m (o + 4) 2 raw) o = raw % 65536 := readLE_writeLE_self m (o + 4) 2 raw
  have hbytes : dName (writeLE m (o + 4) 2 raw) o = dName m o := by
    unfold dName
    rw [hlen]
    exact copyOut_congr fun x h1 _ => writeLE_outside (by omega)
  unfold Dir.direntAt
  rw [hino, hrec, hlen, hbytes, hget]

private theorem Dir.HasRec.setLen (hs : d.Sized) (h : d.HasRec m o r) {len : Nat} (hle : len ≤ d.blksize)
    (hmod : len % 4 = 0) (hname : dirRecLen r.nameLen ≤ len) :
    d.HasRec (writeLE m (o + 4) 2 (recLenField d.blksize len)) o { r with recLen := len } := by
  have h8 := (dirRecLen_spec r.nameLen).1
  obtain ⟨hget, hlt⟩ := getRecLen_field hs.le hle hmod (by omega)
  exact h.setRaw (by rw [Nat.mod_eq_of_lt hlt, hget]) hmod hname

/-! ### Adding an entry: one record -/

private theorem loop_check (d : Dir) (m : Mem) (o : Nat) :
    ¬(d.blksize < o + getRecLen d.blksize (dRecLen m o) ∨ getRecLen d.blksize (dRecLen m o) < 8 ∨
      getRecLen d.blksize (dRecLen m o) % 4 ≠ 0 ∨ getRecLen d.blksize (dRecLen m o) < dNameLen m o % 256 + 8) ↔
    d.HasRec m o (d.direntAt m o) ∧ o + (d.direntAt m o).recLen ≤ d.blksize := by
  have hspec := dirRecLen_spec (dNameLen m o)
  unfold Dir.HasRec
  constructor
  · intro h
    refine ⟨⟨rfl, ⟨?_, ?_⟩⟩, ?_⟩
    · change getRecLen d.blksize (dRecLen m o) % 4 = 0
      omega
    · change dirRecLen (dNameLen m o) ≤ getRecLen d.blksize (dRecLen m o)
      omega
    · change o + getRecLen d.blksize (dRecLen m o) ≤ d.blksize
      omega
  · rintro ⟨⟨-, hwf⟩, hle⟩
    have h8 : 8 + dNameLen m o % 256 ≤ getRecLen d.blksize (dRecLen m o) := hwf.eight_le
    have hmod : getRecLen d.blksize (dRecLen m o) % 4 = 0 := hwf.mod
    have hle' : o + getRecLen d.blksize (dRecLen m o) ≤ d.blksize := hle
    omega

/-- The first part of `ext2_process_link`: nothing is merged, the length is no multiple of 4, or the free record after
the record is a part of it. -/
private theorem mergeNext_cases (hs : d.Sized) (h : d.HasRec m o r) (hle : o + r.recLen ≤ d.blksize) :
    (Dir.mergeNext d o m = .ok (m, r.recLen, false)) ∨
    (Dir.mergeNext d o m = .error .EINVAL ∧ o + r.recLen + d.csumSize + 8 < d.blksize ∧
      dRecLen m (o + r.recLen) % 4 ≠ 0) ∨
    (∃ len, len = r.recLen + dRecLen m (o + r.recLen) ∧ o + len ≤ d.blksize ∧ len % 4 = 0 ∧
      o + r.recLen + d.csumSize + 8 < d.blksize ∧ dInode m (o + r.recLen) = 0 ∧
      Dir.mergeNext d o m = .ok (writeLE m (o + 4) 2 (recLenField d.blksize len), len, true)) := by
  obtain ⟨rfl, hwf⟩ := h
  have hmod : getRecLen d.blksize (dRecLen m o) % 4 = 0 := hwf.mod
  have hmax := hs.le
  unfold Dir.mergeNext
  simp only [Dir.direntAt] at hle ⊢
  generalize getRecLen d.blksize (dRecLen m o) = curr at hmod hle
  by_cases hcond : o + curr + d.csumSize + 8 < d.blksize ∧ dInode m (o + curr) = 0 ∧
      o + curr + dRecLen m (o + curr) ≤ d.blksize
  · rw [if_pos hcond]
    by_cases hbad : dRecLen m (o + curr) % 4 = 0
    · refine Or.inr (Or.inr ⟨_, rfl, by omega, by omega, hcond.1, hcond.2.1, ?_⟩)
      unfold setRecLen
      rw [if_neg (by omega)]
      rfl
    · refine Or.inr (Or.inl ⟨?_, hcond.1, hbad⟩)
      unfold setRecLen
      rw [if_pos (by omega)]
      rfl
  · rw [if_neg hcond]
    exact Or.inl rfl

theorem splitRecord_ok (hs : d.Sized) (h : d.HasRec m o r) {rest : Nat} (hle : dirRecLen r.nameLen + rest ≤ d.blksize)
    (hmod : rest % 4 = 0) (h8 : 8 ≤ rest) : ∃ m', Dir.splitRecord d o (dirRecLen r.nameLen) rest m = .ok m' ∧
      d.HasRec m' o { r with recLen := dirRecLen r.nameLen } ∧
      d.HasRec m' (o + dirRecLen r.nameLen) ⟨0, rest, 0, []⟩ ∧
      ∀ x, x < o ∨ o + dirRecLen r.nameLen + 8 ≤ x → m' x = m x := by
  obtain ⟨hspec, hspec4, hspec264, -⟩ := dirRecLen_spec r.nameLen
  have hset := h.setLen hs (show dirRecLen r.nameLen ≤ d.blksize by omega) hspec4 (Nat.le_refl _)
  generalize hmin : dirRecLen r.nameLen = min at *
  generalize hm1 : writeLE m (o + 4) 2 (recLenField d.blksize min) = m1 at hset
  have hraw : dRecLen m1 o = min := by
    rw [← hm1, dRecLen, readLE_writeLE_self, recLenField, if_pos (by omega)]
    exact Nat.mod_eq_of_lt (by omega)
  obtain ⟨hget, hfield⟩ := getRecLen_field hs.le (show rest ≤ d.blksize by omega) hmod (by omega)
  refine ⟨writeLE (writeLE (writeLE m1 (o + min) 4 0) (o + min + 6) 2 0) (o + min + 4) 2 (recLenField d.blksize rest),
    ?_, ?_, ?_, ?_⟩
  · unfold Dir.splitRecord setRecLen
    have hmax := hs.le
    rw [if_neg (by omega)]
    simp only [hm1, hraw]
    rw [if_neg (by omega)]
  · refine hset.congr fun x h1 h2 => ?_
    have h2' : x < o + min := h2
    rw [writeLE_outside (by omega), writeLE_outside (by omega), writeLE_outside (by omega)]
  · refine ⟨?_, ⟨hmod, show dirRecLen 0 ≤ rest from h8⟩⟩
    have hino : ∀ m2 : Mem, dInode (writeLE (writeLE (writeLE m2 (o + min) 4 0) (o + min + 6) 2 0) (o + min + 4) 2
        (recLenField d.blksize rest)) (o + min) = 0 := fun m2 => by
      rw [dInode, readLE_writeLE_disjoint (by omega), readLE_writeLE_disjoint (by omega), readLE_writeLE_self]
      rfl
    have hlen : ∀ m2 : Mem, dNameLen (writeLE (writeLE m2 (o + min + 6) 2 0) (o + min + 4) 2
        (recLenField d.blksize rest)) (o + min) = 0 := fun m2 => by
      rw [dNameLen, readLE_writeLE_disjoint (by omega), readLE_writeLE_self]
      rfl
    have hrec : ∀ m2 : Mem, dRecLen (writeLE m2 (o + min + 4) 2 (recLenField d.blksize rest)) (o + min) =
        recLenField d.blksize rest := fun m2 => by
      rw [dRecLen, readLE_writeLE_self]
      exact Nat.mod_eq_of_lt hfield
    unfold Dir.direntAt dName
    rw [hino, hlen, hrec, hget]
    rfl
  · intro x hx
    rw [writeLE_outside (by omega), writeLE_outside (by omega), writeLE_outside (by omega), ← hm1,
      writeLE_outside (by omega)]

private theorem lowByte_set (a n : Nat) : ((a &&& 0xff00) ||| (n &&& 0xff)) % 256 = n % 256 := by
  have hn : n &&& 0xff = n % 256 := Nat.and_two_pow_sub_one_eq_mod n 8
  have hmod : (256 : Nat) = 2 ^ 8 := rfl
  rw [hn, hmod, Nat.or_mod_two_pow, Nat.and_mod_two_pow]
  simp

private theorem lowByte_type (n t : Nat) : ((n &&& 0xff) ||| (t <<< 8)) % 256 = n % 256 := by
  have hn : n &&& 0xff = n % 256 := Nat.and_two_pow_sub_one_eq_mod n 8
  have hmod : (256 : Nat) = 2 ^ 8 := rfl
  rw [hn, hmod, Nat.or_mod_two_pow, Nat.shiftLeft_eq, Nat.mul_mod_left, Nat.or_zero, Nat.mod_mod]

private theorem copyName_outside {name : List UInt8} {x : Nat} (h : x < o ∨ o + name.length ≤ x) :
    copyName m o name x = m x := if_neg (by omega)

private theorem copyOut_copyName (m : Mem) (o : Nat) (name : List UInt8) :
    copyOut (copyName m o name) o name.length = name := by
  unfold copyOut copyName copyIn
  apply List.ext_getElem
  · simp
  · intro i h1 h2
    simp [h2]

private theorem fillRecord_ok {l : Dir.Link} (h : d.HasRec m o r) (hlen : l.name.length ≤ 255)
    (hfit : dirRecLen l.name.length ≤ r.recLen) : ∃ nl, d.HasRec (Dir.fillRecord d l o m) o
      ⟨l.inode % 2 ^ 32, r.recLen, nl, l.name⟩ ∧
      ∀ x, x < o ∨ o + 8 + l.name.length ≤ x → Dir.fillRecord d l o m x = m x := by
  have hlow : l.name.length % 256 = l.name.length := Nat.mod_eq_of_lt (by omega)
  obtain ⟨rfl, hwf⟩ := h
  obtain ⟨m1, hm1⟩ : ∃ m1, writeLE m o 4 l.inode = m1 := ⟨_, rfl⟩
  obtain ⟨m2, hm2⟩ : ∃ m2, writeLE m1 (o + 6) 2 ((dNameLen m1 o &&& 0xff00) ||| (l.name.length &&& 0xff)) = m2 :=
    ⟨_, rfl⟩
  obtain ⟨m3, hm3⟩ : ∃ m3, copyName m2 (o + 8) l.name = m3 := ⟨_, rfl⟩
  -- The low byte of `d_name_len` is the length, with or without a file type.
  have hnl2 : dNameLen m2 o % 256 = l.name.length := by
    rw [← hm2, dNameLen, readLE_writeLE_self, show (256 : Nat) ^ 2 = 256 * 256 from rfl, Nat.mod_mul_right_mod,
      lowByte_set, hlow]
  have hnl3 : dNameLen m3 o = dNameLen m2 o := by
    rw [← hm3]
    exact readLE_congr fun x _ _ => copyName_outside (by omega)
  obtain ⟨m4, hm4⟩ : ∃ m4, Dir.fillRecord d l o m = m4 := ⟨_, rfl⟩
  have hm4' : m4 = if d.filetype then
      writeLE m3 (o + 6) 2 ((dNameLen m3 o &&& 0xff) ||| ((l.flags &&& 7) <<< 8)) else m3 := by
    rw [← hm4, Dir.fillRecord]
    simp only [hm1, hm2, hm3]
  have hnl4 : dNameLen m4 o % 256 = l.name.length := by
    rw [hm4']
    split
    · rw [dNameLen, readLE_writeLE_self, show (256 : Nat) ^ 2 = 256 * 256 from rfl, Nat.mod_mul_right_mod,
        lowByte_type, hnl3, hnl2]
    · rw [hnl3, hnl2]
  have hout4 : ∀ x, x < o + 6 ∨ o + 8 ≤ x → m4 x = m3 x := fun x hx => by
    rw [hm4']
    split
    · exact writeLE_outside (by omega)
    · rfl
  have hout3 : ∀ x, x < o + 6 → m3 x = m1 x := fun x hx => by
    rw [← hm3, copyName_outside (by omega), ← hm2, writeLE_outside (by omega)]
  refine ⟨dNameLen m4 o, ⟨?_, ⟨hwf.mod, ?_⟩⟩, ?_⟩
  · have hino : dInode m4 o = l.inode % 2 ^ 32 := by
      have hsame : dInode m4 o = dInode m1 o := readLE_congr fun x _ h2 => by
        rw [hout4 x (by omega), hout3 x (by omega)]
      rw [hsame, ← hm1, dInode, readLE_writeLE_self]
      rfl
    have hrec : dRecLen m4 o = dRecLen m o := readLE_congr fun x h1 h2 => by
      rw [hout4 x (by omega), hout3 x (by omega), ← hm1, writeLE_outside (by omega)]
    have hname : dName m4 o = l.name := by
      have hcopy : copyOut m4 (o + 8) l.name.length = copyOut m3 (o + 8) l.name.length :=
        copyOut_congr fun x h1 _ => hout4 x (by omega)
      rw [dName, hnl4, hcopy, ← hm3]
      exact copyOut_copyName m2 (o + 8) l.name
    unfold Dir.direntAt
    rw [hm4, hino, hrec, hname]
  · have hsame : dirRecLen (dNameLen m4 o) = dirRecLen l.name.length := by
      unfold dirRecLen
      rw [hnl4, hlow]
    exact hsame ▸ hfit
  · intro x hx
    rw [hm4, hout4 x (by omega), ← hm3, copyName_outside (by omega), ← hm2, writeLE_outside (by omega), ← hm1,
      writeLE_outside (by omega)]

/-- The second part of `ext2_process_link`. -/
def linkStage (d : Dir) (l : Dir.Link) (o : Nat) (m : Mem) (curr : Nat) (changed : Bool) (s : Dir.LinkCtx) :
    Option (Mem × Dir.LinkCtx × Dir.Ret) :=
  if dInode m o ≠ 0 then
    if curr < dirRecLen (dNameLen m o) + dirRecLen l.name.length then some (m, s, ⟨changed, false⟩)
    else
      match Dir.splitRecord d o (dirRecLen (dNameLen m o)) (curr - dirRecLen (dNameLen m o)) m with
      | .error e => some (m, { s with err := some e }, ⟨false, true⟩)
      | .ok m => some (m, s, ⟨true, false⟩)
  else if curr < dirRecLen l.name.length then some (m, s, ⟨changed, false⟩)
  else if d.blksize < o + 8 + l.name.length then none
  else some (Dir.fillRecord d l o m, { s with done := true }, ⟨true, true⟩)

theorem processLink_eq (l : Dir.Link) (s : Dir.LinkCtx) (hdone : s.done = false) : Dir.processLink d l o m s =
    match Dir.mergeNext d o m with
    | .error e => some (m, { s with err := some e }, ⟨false, true⟩)
    | .ok (m, curr, changed) => linkStage d l o m curr changed s := by
  unfold Dir.processLink
  rw [if_neg (by simp [hdone])]
  rfl

variable {l : Dir.Link} {s : Dir.LinkCtx}

/-- The second part leaves the record, splits it, or stores the entry in it. -/
private theorem linkStage_cases (hs : d.Sized) (h : d.HasRec m o r) (hle : o + r.recLen ≤ d.blksize)
    (hlen : l.name.length ≤ 255) (changed : Bool) :
    (linkStage d l o m r.recLen changed s = some (m, s, ⟨changed, false⟩) ∧ ¬ r.HasRoom (dirRecLen l.name.length)) ∨
    (∃ m' rest, linkStage d l o m r.recLen changed s = some (m', s, ⟨true, false⟩) ∧ r.ino ≠ 0 ∧
      (dirRecLen r.nameLen + rest = r.recLen ∧ dirRecLen l.name.length ≤ rest) ∧
      d.HasRec m' o { r with recLen := dirRecLen r.nameLen } ∧
      d.HasRec m' (o + dirRecLen r.nameLen) ⟨0, rest, 0, []⟩ ∧
      ∀ x, x < o ∨ o + r.recLen ≤ x → m' x = m x) ∨
    (∃ m' nl, linkStage d l o m r.recLen changed s = some (m', { s with done := true }, ⟨true, true⟩) ∧ r.ino = 0 ∧
      d.HasRec m' o ⟨l.inode % 2 ^ 32, r.recLen, nl, l.name⟩ ∧ ∀ x, x < o ∨ o + r.recLen ≤ x → m' x = m x) := by
  have hino : dInode m o = r.ino := by rw [← h.1]; rfl
  have hnl : dNameLen m o = r.nameLen := by rw [← h.1]; rfl
  have hspec := dirRecLen_spec l.name.length
  have hspec' := dirRecLen_spec r.nameLen
  have hlow : l.name.length % 256 = l.name.length := Nat.mod_eq_of_lt (by omega)
  have hmod := h.2.mod
  unfold linkStage
  rw [hino, hnl]
  by_cases h0 : r.ino = 0
  · rw [if_neg (not_not.2 h0)]
    by_cases hshort : r.recLen < dirRecLen l.name.length
    · rw [if_pos hshort]
      refine Or.inl ⟨rfl, ?_⟩
      unfold Dirent.HasRoom
      rw [if_pos h0]
      omega
    · rw [if_neg hshort, if_neg (by omega)]
      obtain ⟨nl, hrec, hout⟩ := fillRecord_ok h hlen (Nat.le_of_not_lt hshort)
      exact Or.inr (Or.inr ⟨_, nl, rfl, h0, hrec, fun x hx => hout x (by omega)⟩)
  · rw [if_pos h0]
    by_cases hshort : r.recLen < dirRecLen r.nameLen + dirRecLen l.name.length
    · rw [if_pos hshort]
      refine Or.inl ⟨rfl, ?_⟩
      unfold Dirent.HasRoom
      rw [if_neg h0]
      omega
    · rw [if_neg hshort]
      obtain ⟨m', hsplit, hrec, hrest, hout⟩ := splitRecord_ok hs h
        (show dirRecLen r.nameLen + (r.recLen - dirRecLen r.nameLen) ≤ d.blksize by omega) (by omega) (by omega)
      rw [hsplit]
      exact Or.inr (Or.inl ⟨m', _, rfl, h0, ⟨by omega, by omega⟩, hrec, hrest, fun x hx => hout x (by omega)⟩)

/-- `ext2_process_link` does not write outside of the block, and the loop makes progress after it. -/
theorem processLink_defined (hs : d.Sized) (h : d.HasRec m o r) (hle : o + r.recLen ≤ d.blksize)
    (hlen : l.name.length ≤ 255) : ∃ m' s' ret, Dir.processLink d l o m s = some (m', s', ret) ∧
      (ret.abort = false → 8 ≤ if ret.changed then getRecLen d.blksize (dRecLen m' o) else r.recLen) ∧
      ∀ x, d.blksize ≤ x → m' x = m x := by
  have h8 := h.2.eight_le
  by_cases hdone : s.done = true
  · refine ⟨m, s, ⟨false, true⟩, ?_, (fun hab => by cases hab), fun _ _ => rfl⟩
    unfold Dir.processLink
    rw [if_pos hdone]
  · rw [processLink_eq l s (by simpa using hdone)]
    have hstage : ∀ m1 r1 changed, d.HasRec m1 o r1 → o + r1.recLen ≤ d.blksize →
        ∃ m' s' ret, linkStage d l o m1 r1.recLen changed s = some (m', s', ret) ∧
          (ret.abort = false → 8 ≤ if ret.changed then getRecLen d.blksize (dRecLen m' o) else r.recLen) ∧
          ∀ x, d.blksize ≤ x → m' x = m1 x := by
      intro m1 r1 changed h1 hle1
      have h81 := h1.2.eight_le
      have hget : ∀ m' r', d.HasRec m' o r' → getRecLen d.blksize (dRecLen m' o) = r'.recLen := fun m' r' hr => by
        rw [← hr.1]
        rfl
      rcases linkStage_cases hs h1 hle1 hlen changed with ⟨hA, -⟩ | ⟨m', rest, hB, -, -, hrec, -, hout⟩ |
        ⟨m', nl, hC, -, -, hout⟩
      · refine ⟨m1, s, _, hA, fun _ => ?_, fun _ _ => rfl⟩
        rw [hget m1 r1 h1]
        split
        · omega
        · omega
      · refine ⟨m', s, _, hB, fun _ => ?_, fun x hx => hout x (by omega)⟩
        rw [hget m' _ hrec]
        have := (dirRecLen_spec r1.nameLen).1
        simp only [↓reduceIte]
        omega
      · exact ⟨m', _, _, hC, (fun hab => by cases hab), fun x hx => hout x (by omega)⟩
    rcases mergeNext_cases hs h hle with hm | ⟨hm, -⟩ | ⟨len, hlen', hend, hmod, -, -, hm⟩
    · rw [hm]
      exact hstage m r false h hle
    · rw [hm]
      exact ⟨m, _, _, rfl, (fun hab => by cases hab), fun _ _ => rfl⟩
    · rw [hm]
      obtain ⟨m', s', ret, hf, hprog, hout⟩ := hstage _ { r with recLen := len } true
        (h.setLen hs (by omega) hmod (Nat.le_trans h.2.le (by omega))) hend
      exact ⟨m', s', ret, hf, hprog, fun x hx => (hout x hx).trans (writeLE_outside (by omega))⟩

theorem entries_cons (r : Dirent) (rs : List Dirent) : entries (r :: rs) = entries [r] ++ entries rs := by
  unfold entries
  rw [← List.filterMap_append, List.singleton_append]

theorem entries_free (h : r.ino = 0) : entries [r] = [] := by simp [entries, h]

private theorem entries_congr {r' : Dirent} (h1 : r'.ino = r.ino) (h2 : r'.name = r.name) :
    entries [r'] = entries [r] := by
  unfold entries
  simp only [List.filterMap_cons, h1, h2]

def added (l : Dir.Link) : List (List UInt8 × Nat) := entries [⟨l.inode % 2 ^ 32, 0, 0, l.name⟩]

theorem top_add (hs : d.Sized) : d.top + d.csumSize = d.blksize ∧ d.top % 4 = 0 ∧ 1012 ≤ d.top := by
  have h1 := hs.ge
  have h2 := hs.mod
  unfold Dir.top
  rcases csumSize_cases d with ⟨-, h⟩ | ⟨-, h⟩
  · rw [h]
    omega
  · rw [h]
    omega

theorem Dir.HasRec.raw (hs : d.Sized) (h : d.HasRec m o r) (hlt : r.recLen < 65536) : dRecLen m o = r.recLen := by
  have hget : getRecLen d.blksize (dRecLen m o) = r.recLen := by
    rw [← h.1]
    rfl
  rw [← hget]
  exact (field_of_getRecLen hs.le (dRecLen_lt m o) (by omega)).symm

private theorem mergeNext_tiled (hs : d.Sized) (h : d.HasRec m o r) (hrs : d.Tiled m (o + r.recLen) rs d.top) :
    ∃ m1 r1 rs1 changed, Dir.mergeNext d o m = .ok (m1, r1.recLen, changed) ∧ d.HasRec m1 o r1 ∧
      d.Tiled m1 (o + r1.recLen) rs1 d.top ∧ (∀ x, x < o ∨ d.top ≤ x → m1 x = m x) ∧ (changed = false → m1 = m) ∧
      r1.ino = r.ino ∧ r1.name = r.name ∧ entries rs1 = entries rs ∧
      ∀ need, (∃ x ∈ r :: rs, x.HasRoom need) → ∃ x ∈ r1 :: rs1, x.HasRoom need := by
  obtain ⟨htop, -, -⟩ := top_add hs
  have hle := hrs.le
  have h8 := h.2.eight_le
  have hnext : o + r.recLen + d.csumSize + 8 < d.blksize → ∃ f rs', rs = f :: rs' ∧ d.HasRec m (o + r.recLen) f ∧
      d.Tiled m (o + r.recLen + f.recLen) rs' d.top ∧ dRecLen m (o + r.recLen) = f.recLen := by
    intro hlt
    cases rs with
    | nil =>
      have hend : o + r.recLen = d.top := hrs
      omega
    | cons f rs' =>
      have hle' := hrs.2.le
      have hmax := hs.le
      exact ⟨f, rs', rfl, hrs.1, hrs.2, hrs.1.raw hs (by omega)⟩
  rcases mergeNext_cases hs h (by omega) with hm | ⟨-, hlt, hodd⟩ | ⟨len, hlen, hend, hmod, hlt, hfree, hm⟩
  · exact ⟨m, r, rs, false, hm, h, hrs, fun _ _ => rfl, fun _ => rfl, rfl, rfl, rfl, fun _ hroom => hroom⟩
  · obtain ⟨f, rs', -, hf, -, hraw⟩ := hnext hlt
    rw [hraw] at hodd
    exact absurd hf.2.mod hodd
  · obtain ⟨f, rs', rfl, hf, hrest, hraw⟩ := hnext hlt
    rw [hraw] at hlen
    have hino : f.ino = 0 := by
      rw [← hfree, ← hf.1]
      rfl
    refine ⟨_, { r with recLen := len }, rs', true, hm, h.setLen hs (by omega) hmod (Nat.le_trans h.2.le (by omega)),
      ?_, ?_, (fun hc => by cases hc), rfl, rfl, ?_, ?_⟩
    · change d.Tiled _ (o + len) rs' d.top
      rw [hlen, ← Nat.add_assoc]
      exact tiled_congr hrest fun x _ _ => writeLE_outside (by omega)
    · exact fun x _ => writeLE_outside (by omega)
    · rw [entries_cons f rs', entries_free hino, List.nil_append]
    · rintro need ⟨x, hx, hroom⟩
      have hused : (if r.ino = 0 then 0 else dirRecLen r.nameLen) ≤ r.recLen := by
        split
        · exact Nat.zero_le _
        · exact h.2.le
      have hmerged : need ≤ f.recLen ∨ r.HasRoom need → Dirent.HasRoom { r with recLen := len } need := by
        unfold Dirent.HasRoom
        dsimp only
        omega
      rcases List.mem_cons.1 hx with rfl | hx
      · exact ⟨_, List.mem_cons_self, hmerged (Or.inr hroom)⟩
      · rcases List.mem_cons.1 hx with rfl | hx
        · refine ⟨_, List.mem_cons_self, hmerged (Or.inl ?_)⟩
          exact Nat.le_trans (Nat.le_add_left _ _) hroom
        · exact ⟨x, List.mem_cons_of_mem _ hx, hroom⟩

/-- One call of `ext2_process_link` on a block that is tiled: the records still tile the block, with the same entries
or with the new one. -/
private theorem processLink_tiled (hs : d.Sized) (h : d.HasRec m o r) (hrs : d.Tiled m (o + r.recLen) rs d.top)
    (hlen : l.name.length ≤ 255) (hdone : s.done = false) : ∃ m' s' ret r' rs',
      Dir.processLink d l o m s = some (m', s', ret) ∧ d.HasRec m' o r' ∧ d.Tiled m' (o + r'.recLen) rs' d.top ∧
      (∀ x, x < o ∨ d.top ≤ x → m' x = m x) ∧ (ret.changed = false → m' = m) ∧ s'.err = s.err ∧
      ((s'.done = false ∧ ret.abort = false ∧ entries (r' :: rs') = entries (r :: rs) ∧
          ((∃ x ∈ r :: rs, x.HasRoom (dirRecLen l.name.length)) → ∃ x ∈ rs', x.HasRoom (dirRecLen l.name.length))) ∨
        (s'.done = true ∧ ret = ⟨true, true⟩ ∧ entries (r' :: rs') = added l ++ entries (r :: rs))) := by
  obtain ⟨htop, -, -⟩ := top_add hs
  obtain ⟨m1, r1, rs1, changed, hm, h1, hrs1, hout1, hsame1, hino, hname, hent, hroom⟩ := mergeNext_tiled hs h hrs
  have hle := hrs1.le
  have hent1 : entries (r1 :: rs1) = entries (r :: rs) := by
    rw [entries_cons r1, entries_cons r, hent, entries_congr hino hname]
  rw [processLink_eq l s hdone, hm]
  simp only
  rcases linkStage_cases hs h1 (by omega) hlen changed with ⟨hA, hfull⟩ |
    ⟨m', rest, hB, -, ⟨hsum, hrest⟩, hrec, hfree, hout⟩ | ⟨m', nl, hC, hzero, hrec, hout⟩
  · refine ⟨m1, s, _, r1, rs1, hA, h1, hrs1, hout1, hsame1, rfl, Or.inl ⟨hdone, rfl, hent1, fun hx => ?_⟩⟩
    obtain ⟨x, hx, hxroom⟩ := hroom _ hx
    rcases List.mem_cons.1 hx with rfl | hx
    · exact absurd hxroom hfull
    · exact ⟨x, hx, hxroom⟩
  · refine ⟨m', s, _, _, ⟨0, rest, 0, []⟩ :: rs1, hB, hrec, ⟨hfree, ?_⟩, ?_, (fun hc => by cases hc), rfl,
      Or.inl ⟨hdone, rfl, ?_, fun _ => ⟨_, List.mem_cons_self, ?_⟩⟩⟩
    · change d.Tiled m' (o + dirRecLen r1.nameLen + rest) rs1 d.top
      rw [Nat.add_assoc, hsum]
      exact tiled_congr hrs1 fun x hx _ => hout x (Or.inr hx)
    · exact fun x hx => (hout x (by omega)).trans (hout1 x hx)
    · rw [← hent1, entries_cons, entries_cons ⟨0, rest, 0, []⟩, entries_cons r1]
      rfl
    · exact (Nat.zero_add _).le.trans hrest
  · refine ⟨m', _, _, _, rs1, hC, hrec, ?_, ?_, (fun hc => by cases hc), rfl, Or.inr ⟨rfl, rfl, ?_⟩⟩
    · exact tiled_congr hrs1 fun x hx _ => hout x (Or.inr hx)
    · exact fun x hx => (hout x (by omega)).trans (hout1 x hx)
    · rw [← hent1, entries_cons, entries_cons r1, entries_free hzero, List.nil_append]
      rfl

/-! ### The loop over the records -/

variable {σ : Type} {func : Dir.Func σ} {st : σ} {empty changed : Bool} {fuel : Nat}

theorem loop_rec (h : d.HasRec m o r) (hle : o + r.recLen ≤ d.blksize) (ho : o < d.blksize - 8) :
    d.loop empty func (fuel + 1) o m st changed =
      if r.ino = 0 ∧ (empty = false ∨
        (o = d.blksize - d.csumSize ∧ dRecLen m o = d.csumSize ∧ dNameLen m o = 0xde00)) then
        d.loop empty func fuel (o + r.recLen) m st changed
      else
        match func o m st with
        | none => none
        | some (m', st', ret) =>
          if ret.abort then some ⟨m', st', changed || ret.changed, true, false⟩
          else d.loop empty func fuel (o + if ret.changed then getRecLen d.blksize (dRecLen m' o) else r.recLen)
            m' st' (changed || ret.changed) := by
  obtain ⟨rfl, hwf⟩ := h
  have hcheck := (loop_check d m o).2 ⟨⟨rfl, hwf⟩, hle⟩
  rw [Dir.loop, if_pos ho]
  simp only
  rw [if_neg hcheck]
  rfl

/-- A function that is defined at all records that the loop comes to, and makes progress, gives a loop that ends.  `I`
holds of the offset, the buffer and the private data. -/
theorem loop_defined {I : Nat → Mem → σ → Prop}
    (hskip : ∀ o m st r, d.HasRec m o r → o + r.recLen ≤ d.blksize → o < d.blksize - 8 → r.ino = 0 →
      empty = false ∨ o = d.top → I o m st → I (o + r.recLen) m st)
    (hfunc : ∀ o m st r, d.HasRec m o r → o + r.recLen ≤ d.blksize → o < d.blksize - 8 →
      ¬(r.ino = 0 ∧ empty = false) → I o m st → ∃ m' st' ret, func o m st = some (m', st', ret) ∧
        (ret.abort = false → ∀ n, n = (if ret.changed then getRecLen d.blksize (dRecLen m' o) else r.recLen) →
          8 ≤ n ∧ I (o + n) m' st'))
    (hI : I o m st) (hfuel : d.blksize ≤ o + 8 * fuel) :
    ∃ p, d.loop empty func (fuel + 1) o m st changed = some p := by
  induction fuel generalizing o m st changed with
  | zero =>
    rw [Dir.loop, if_neg (by omega)]
    exact ⟨_, rfl⟩
  | succ fuel ih =>
    by_cases ho : o < d.blksize - 8
    · by_cases hbad : d.blksize < o + getRecLen d.blksize (dRecLen m o) ∨ getRecLen d.blksize (dRecLen m o) < 8 ∨
          getRecLen d.blksize (dRecLen m o) % 4 ≠ 0 ∨ getRecLen d.blksize (dRecLen m o) < dNameLen m o % 256 + 8
      · rw [Dir.loop, if_pos ho]
        simp only
        rw [if_pos hbad]
        exact ⟨_, rfl⟩
      · obtain ⟨hrec, hle⟩ := (loop_check d m o).1 hbad
        have h8 := hrec.2.eight_le
        rw [loop_rec hrec hle ho]
        split
        · rename_i hfree
          exact ih (hskip _ _ _ _ hrec hle ho hfree.1 (hfree.2.imp_right And.left) hI) (by omega)
        · rename_i hcall
          obtain ⟨m', st', ret, hf, hprog⟩ := hfunc o m st _ hrec hle ho (fun hc => hcall ⟨hc.1, Or.inl hc.2⟩) hI
          rw [hf]
          simp only
          cases hab : ret.abort with
          | true => exact ⟨_, rfl⟩
          | false =>
            obtain ⟨hn, hI'⟩ := hprog hab _ rfl
            exact ih hI' (by omega)
    · rw [Dir.loop, if_neg ho]
      exact ⟨_, rfl⟩

theorem loop_end (hs : d.Sized) (htail : d.HasTail m) (ho : o = d.top ∨ d.blksize ≤ o + 8)
    (hfuel : d.blksize ≤ o + 8 * fuel) :
    d.loop empty func (fuel + 1) o m st changed = some ⟨m, st, changed, false, false⟩ := by
  have hge := hs.ge
  by_cases hlt : o < d.blksize - 8
  · obtain rfl : o = d.top := by omega
    obtain ⟨htop, hmod, -⟩ := top_add hs
    rcases csumSize_cases d with ⟨hcsum, hsize⟩ | ⟨-, hsize⟩
    · obtain ⟨h1, h2, h3⟩ := htail hcsum
      have hget : getRecLen d.blksize (dRecLen m d.top) = 12 := by
        rw [h2]
        unfold getRecLen
        split
        · rfl
        · rfl
      have hrec : d.HasRec m d.top (d.direntAt m d.top) := by
        refine ⟨rfl, ⟨?_, ?_⟩⟩
        · change getRecLen d.blksize (dRecLen m d.top) % 4 = 0
          rw [hget]
        · change dirRecLen (dNameLen m d.top) ≤ getRecLen d.blksize (dRecLen m d.top)
          rw [hget, h3]
          decide
      have hlen : (d.direntAt m d.top).recLen = 12 := hget
      rw [loop_rec hrec (by omega) hlt, if_pos ⟨h1, Or.inr ⟨rfl, by rw [h2, hsize], h3⟩⟩, hlen]
      obtain ⟨fuel, rfl⟩ : ∃ k, fuel = k + 1 := ⟨fuel - 1, by omega⟩
      rw [Dir.loop, if_neg (by omega)]
    · omega
  · rw [Dir.loop, if_neg hlt]

theorem loop_tiled (hs : d.Sized) (h : d.HasRec m o r) (hrs : d.Tiled m (o + r.recLen) rs d.top)
    (ho : o < d.blksize - 8) : d.loop empty func (fuel + 1) o m st changed =
      if r.ino = 0 ∧ empty = false then d.loop empty func fuel (o + r.recLen) m st changed
      else
        match func o m st with
        | none => none
        | some (m', st', ret) =>
          if ret.abort then some ⟨m', st', changed || ret.changed, true, false⟩
          else d.loop empty func fuel (o + if ret.changed then getRecLen d.blksize (dRecLen m' o) else r.recLen)
            m' st' (changed || ret.changed) := by
  obtain ⟨htop, -, -⟩ := top_add hs
  have hle := hrs.le
  have h8 := h.2.eight_le
  have hnot : ¬(o = d.blksize - d.csumSize ∧ dRecLen m o = d.csumSize ∧ dNameLen m o = 0xde00) := fun hc => by omega
  rw [loop_rec h (by omega) ho]
  simp only [hnot, or_false]

/-- What is left of a block: nothing, or a record that the loop visits, or one of 8 bytes at the end. -/
theorem tiled_cases (hs : d.Sized) (h : d.Tiled m o rs d.top) : (rs = [] ∧ o = d.top) ∨
    (∃ r rs', rs = r :: rs' ∧ d.HasRec m o r ∧ d.Tiled m (o + r.recLen) rs' d.top ∧ o < d.blksize - 8) ∨
    (d.blksize ≤ o + 8 ∧ ∀ r ∈ rs, r.nameLen % 256 = 0) := by
  obtain ⟨htop, hmod, -⟩ := top_add hs
  cases rs with
  | nil => exact Or.inl ⟨rfl, h⟩
  | cons r rs' =>
    by_cases ho : o < d.blksize - 8
    · exact Or.inr (Or.inl ⟨r, rs', rfl, h.1, h.2, ho⟩)
    · refine Or.inr (Or.inr ⟨by omega, ?_⟩)
      have hle := h.2.le
      have h8 := h.1.2.eight_le
      intro r' hr'
      cases rs' with
      | nil =>
        rw [List.mem_singleton] at hr'
        subst hr'
        have hend : o + r'.recLen = d.top := h.2
        omega
      | cons r2 rs2 =>
        have hle2 := h.2.2.le
        have h82 := h.2.1.2.eight_le
        omega

/-- The rule for a function that changes nothing until it ends the iteration.  `I` holds of the records before, the
offset and the private data at each record that the loop comes to. -/
theorem loop_search {I : List Dirent → Nat → σ → Prop} (hs : d.Sized) (htail : d.HasTail m)
    (hskip : ∀ pre r o st, empty = false → r.ino = 0 → I pre o st → I (pre ++ [r]) (o + r.recLen) st)
    (hcall : ∀ pre r post o st, d.Tiled m 0 pre o → d.HasRec m o r → d.Tiled m (o + r.recLen) post d.top →
      ¬(r.ino = 0 ∧ empty = false) → I pre o st → ∃ m' st' ret, func o m st = some (m', st', ret) ∧
        (ret.abort = false → m' = m ∧ ret.changed = false ∧ I (pre ++ [r]) (o + r.recLen) st'))
    {pre : List Dirent} (hpre : d.Tiled m 0 pre o) (hrs : d.Tiled m o rs d.top) (hI : I pre o st)
    (hfuel : d.blksize ≤ o + 8 * fuel) :
    ∃ p, d.loop empty func (fuel + 1) o m st false = some p ∧ p.bad = false ∧
      ((p.abort = false ∧ p.changed = false ∧ p.buf = m ∧ ∃ all rest o', pre ++ rs = all ++ rest ∧
        d.Tiled m 0 all o' ∧
          d.Tiled m o' rest d.top ∧ (o' = d.top ∨ d.blksize ≤ o' + 8) ∧ I all o' p.state) ∨
        (p.abort = true ∧ ∃ all r rest o' st', pre ++ rs = all ++ r :: rest ∧ d.Tiled m 0 all o' ∧ d.HasRec m o' r ∧
          d.Tiled m (o' + r.recLen) rest d.top ∧ o' + 8 < d.blksize ∧ I all o' st' ∧
          func o' m st' = some (p.buf, p.state, ⟨p.changed, true⟩))) := by
  have hend : ∀ {pre rs o st}, d.Tiled m 0 pre o → d.Tiled m o rs d.top → I pre o st →
    (o = d.top ∨ d.blksize ≤ o + 8) →
      ∃ all rest o', pre ++ rs = all ++ rest ∧ d.Tiled m 0 all o' ∧ d.Tiled m o' rest d.top ∧
        (o' = d.top ∨ d.blksize ≤ o' + 8) ∧ I all o' st := fun {pre rs o st} hpre hrs hI ho =>
    ⟨pre, rs, o, rfl, hpre, hrs, ho, hI⟩
  induction fuel generalizing o pre rs st with
  | zero =>
    have ho : o = d.top ∨ d.blksize ≤ o + 8 := by omega
    exact ⟨_, loop_end hs htail ho hfuel, rfl, Or.inl ⟨rfl, rfl, rfl, hend hpre hrs hI ho⟩⟩
  | succ fuel ih =>
    rcases tiled_cases hs hrs with ⟨rfl, ho⟩ | ⟨r, rs', rfl, hrec, hrest, ho⟩ | ⟨ho, -⟩
    · exact ⟨_, loop_end hs htail (Or.inl ho) hfuel, rfl, Or.inl ⟨rfl, rfl, rfl, hend hpre hrs hI (Or.inl ho)⟩⟩
    · have h8 := hrec.2.eight_le
      have hpre' : d.Tiled m 0 (pre ++ [r]) (o + r.recLen) := segments_append.2 ⟨o, hpre, hrec, rfl⟩
      have happ : pre ++ r :: rs' = pre ++ [r] ++ rs' := by rw [List.append_assoc, List.singleton_append]
      rw [loop_tiled hs hrec hrest ho, happ]
      by_cases hfree : r.ino = 0 ∧ empty = false
      · rw [if_pos hfree]
        exact ih hpre' hrest (hskip pre r o st hfree.2 hfree.1 hI) (by omega)
      · rw [if_neg hfree]
        obtain ⟨m', st', ret, hf, hnext⟩ := hcall pre r rs' o st hpre hrec hrest hfree hI
        rw [hf]
        obtain ⟨c, a⟩ := ret
        cases a with
        | true =>
            exact ⟨_, rfl, rfl, Or.inr ⟨rfl, pre, r, rs', o, st, happ.symm, hpre, hrec, hrest, by omega, hI, hf⟩⟩
        | false =>
          obtain ⟨rfl, hc, hI'⟩ := hnext rfl
          obtain rfl : c = false := hc
          simp only [Bool.false_eq_true, ↓reduceIte, Bool.or_self]
          exact ih hpre' hrest hI' (by omega)
    · exact ⟨_, loop_end hs htail (Or.inr ho) hfuel, rfl, Or.inl ⟨rfl, rfl, rfl, hend hpre hrs hI (Or.inr ho)⟩⟩

/-- What the loop of `ext2_add_link` does to the records `rs` from `o` on. -/
structure LinkPass (d : Dir) (l : Dir.Link) (m : Mem) (o : Nat) (rs : List Dirent) (s : Dir.LinkCtx) (changed : Bool)
    (p : Dir.Pass Dir.LinkCtx) (rs' : List Dirent) : Prop where
  good : p.bad = false
  tiled : d.Tiled p.buf o rs' d.top
  outside : ∀ x, x < o ∨ d.top ≤ x → p.buf x = m x
  same : p.changed = false → changed = false ∧ p.buf = m
  err : p.state.err = s.err
  abort : p.abort = p.state.done
  entries : (p.state.done = false ∧ entries rs' = entries rs) ∨ (p.state.done = true ∧ p.changed = true ∧
    ∃ l1 l2, Ext2.entries rs = l1 ++ l2 ∧ Ext2.entries rs' = l1 ++ added l ++ l2)

private theorem loop_link_end (hs : d.Sized) (hrs : d.Tiled m o rs d.top) (htail : d.HasTail m)
    (hdone : s.done = false) (ho : o = d.top ∨ d.blksize ≤ o + 8) (hfuel : d.blksize ≤ o + 8 * fuel) :
    ∃ p rs', d.loop true (Dir.processLink d l) (fuel + 1) o m s changed = some p ∧
      LinkPass d l m o rs s changed p rs' :=
  ⟨_, rs, loop_end hs htail ho hfuel, rfl, hrs, fun _ _ => rfl, fun h => ⟨h, rfl⟩, rfl, hdone.symm,
    Or.inl ⟨hdone, rfl⟩⟩

private theorem processLink_next {r' : Dirent} {ret : Dir.Ret} (hrec : d.HasRec m o r) (hrec' : d.HasRec m' o r')
    (hsame : ret.changed = false → m' = m) :
    (if ret.changed then getRecLen d.blksize (dRecLen m' o) else r.recLen) = r'.recLen := by
  cases hch : ret.changed with
  | true =>
    rw [← hrec'.1]
    rfl
  | false =>
    have hm := hsame hch
    subst hm
    rw [← hrec'.1, ← hrec.1]
    rfl

theorem loop_link (hs : d.Sized) (hlen : l.name.length ≤ 255) (hrs : d.Tiled m o rs d.top) (htail : d.HasTail m)
    (hdone : s.done = false) (hfuel : d.blksize ≤ o + 8 * fuel) :
    ∃ p rs', d.loop true (Dir.processLink d l) (fuel + 1) o m s changed = some p ∧
      LinkPass d l m o rs s changed p rs' := by
  obtain ⟨htop, -, -⟩ := top_add hs
  induction fuel generalizing o m rs s changed with
  | zero => exact loop_link_end hs hrs htail hdone (by omega) hfuel
  | succ fuel ih =>
    rcases tiled_cases hs hrs with ⟨-, ho⟩ | ⟨r, rs', rfl, hrec, hrest, ho⟩ | ⟨ho, -⟩
    · exact loop_link_end hs hrs htail hdone (Or.inl ho) hfuel
    · have h8 := hrec.2.eight_le
      obtain ⟨m', s', ret, r', rs'', hcall, hrec', hrest', hout, hsame, herr, hent⟩ :=
        processLink_tiled hs hrec hrest hlen hdone
      have hget := processLink_next hrec hrec' hsame
      have h8' := hrec'.2.eight_le
      rw [loop_tiled hs hrec hrest ho, if_neg (by simp), hcall]
      simp only [hget]
      rcases hent with ⟨hdone', hab, hent, -⟩ | ⟨hdone', hret, hent⟩
      · -- The loop goes on after the record, which the rest of the loop does not change.
        rw [hab]
        simp only [Bool.false_eq_true, ↓reduceIte]
        have htail' : d.HasTail m' := htail.congr fun x hx _ => hout x (Or.inr hx)
        obtain ⟨p, rs3, hp, hpass⟩ := ih hrest' htail' hdone' (by omega)
        refine ⟨p, r' :: rs3, hp, hpass.good, ⟨hrec'.congr fun x _ h2 => hpass.outside x (Or.inl h2), hpass.tiled⟩,
          fun x hx => (hpass.outside x (by omega)).trans (hout x hx), fun hch => ?_, hpass.err.trans herr,
          hpass.abort, ?_⟩
        · obtain ⟨hor, hbuf⟩ := hpass.same hch
          rw [Bool.or_eq_false_iff] at hor
          exact ⟨hor.1, hbuf.trans (hsame hor.2)⟩
        · rw [entries_cons r' rs'', entries_cons r rs'] at hent
          rcases hpass.entries with ⟨hd, he⟩ | ⟨hd, hc, l1, l2, he, he'⟩
          · refine Or.inl ⟨hd, ?_⟩
            rw [entries_cons r' rs3, he, hent, entries_cons r rs']
          · refine Or.inr ⟨hd, hc, Ext2.entries [r'] ++ l1, l2, ?_, ?_⟩
            · rw [entries_cons r rs', ← hent, he, List.append_assoc]
            · rw [entries_cons r' rs3, he', List.append_assoc, List.append_assoc, List.append_assoc]
      · subst hret
        simp only [↓reduceIte, Bool.or_true]
        refine ⟨_, r' :: rs'', rfl, rfl, ⟨hrec', hrest'⟩, hout, (fun hc => by cases hc), herr, hdone'.symm, ?_⟩
        exact Or.inr ⟨hdone', rfl, [], Ext2.entries (r :: rs'), rfl, hent⟩
    · exact loop_link_end hs hrs htail hdone (Or.inr ho) hfuel

private theorem visited_of_room (hs : d.Sized) (hname : 1 ≤ l.name.length ∧ l.name.length ≤ 255)
    (hrs : d.Tiled m o rs d.top) (hroom : ∃ x ∈ rs, x.HasRoom (dirRecLen l.name.length)) : o + 8 < d.blksize := by
  obtain ⟨htop, -, -⟩ := top_add hs
  obtain ⟨x, hx, hxroom⟩ := hroom
  obtain ⟨pre, post, rfl⟩ := List.append_of_mem hx
  obtain ⟨a, hpre, -, hpost⟩ := segments_split.1 hrs
  have hle := hpre.le
  have hle' := hpost.le
  have hspec := dirRecLen_spec l.name.length
  have hneed : dirRecLen l.name.length ≤ x.recLen := Nat.le_trans (Nat.le_add_left _ _) hxroom
  omega

theorem loop_link_room {p : Dir.Pass Dir.LinkCtx} (hs : d.Sized) (hname : 1 ≤ l.name.length ∧ l.name.length ≤ 255)
    (hrs : d.Tiled m o rs d.top) (htail : d.HasTail m) (hdone : s.done = false) (hfuel : d.blksize ≤ o + 8 * fuel)
    (hroom : ∃ x ∈ rs, x.HasRoom (dirRecLen l.name.length))
    (hp : d.loop true (Dir.processLink d l) (fuel + 1) o m s changed = some p) : p.state.done = true := by
  induction fuel generalizing o m rs s changed with
  | zero =>
    have hvisit := visited_of_room hs hname hrs hroom
    omega
  | succ fuel ih =>
    have hvisit := visited_of_room hs hname hrs hroom
    rcases tiled_cases hs hrs with ⟨rfl, -⟩ | ⟨r, rs', rfl, hrec, hrest, ho⟩ | ⟨ho, -⟩
    · obtain ⟨x, hx, -⟩ := hroom
      cases hx
    · have h8 := hrec.2.eight_le
      obtain ⟨m', s', ret, r', rs'', hcall, hrec', hrest', hout, hsame, -, hcase⟩ :=
        processLink_tiled hs hrec hrest hname.2 hdone
      rw [loop_tiled hs hrec hrest ho, if_neg (by simp), hcall] at hp
      simp only [processLink_next hrec hrec' hsame] at hp
      have h8' := hrec'.2.eight_le
      rcases hcase with ⟨hdone', hab, -, hkeep⟩ | ⟨hdone', rfl, -⟩
      · simp only [hab, Bool.false_eq_true, ↓reduceIte] at hp
        exact ih hrest' (htail.congr fun x hx _ => hout x (Or.inr hx)) hdone' (by omega) (hkeep hroom) hp
      · cases hp
        exact hdone'
    · omega

/-! ### Removing an entry -/

variable {crc : Crc} {vnode : Nat → Option (Bool × Nat)} {slots : List (Option Mem)} {name : List UInt8}

theorem processDirBlock_defined (crc : Crc) (empty : Bool) (m : Mem) (st : σ)
    (hfunc : ∀ o m st r, d.HasRec m o r → o + r.recLen ≤ d.blksize →
      ∃ m' st' ret, func o m st = some (m', st', ret) ∧
        (ret.abort = false → 8 ≤ if ret.changed then getRecLen d.blksize (dRecLen m' o) else r.recLen)) :
    ∃ q, Dir.processDirBlock crc d empty func m st = some q := by
  unfold Dir.processDirBlock
  split
  · obtain ⟨p, hp⟩ : ∃ p, d.loop empty func (d.blksize + 1) 0 m st false = some p :=
      loop_defined (I := fun _ _ _ => True) (fun _ _ _ _ _ _ _ _ _ _ => trivial)
        (fun o m st r h hle _ _ _ => by
          obtain ⟨m', st', ret, hf, hprog⟩ := hfunc o m st r h hle
          exact ⟨m', st', ret, hf, fun hab n hn => ⟨hn ▸ hprog hab, trivial⟩⟩) trivial (by omega)
    rw [hp]
    exact ⟨_, rfl⟩
  · exact ⟨_, rfl⟩

/-- A function that is defined at all records gives an iteration that is defined. -/
private theorem dirIterate_defined (crc : Crc) (empty : Bool) (slots : List (Option Mem)) (st : σ)
    (hfunc : ∀ o m st r, d.HasRec m o r → o + r.recLen ≤ d.blksize →
      ∃ m' st' ret, func o m st = some (m', st', ret) ∧
        (ret.abort = false → 8 ≤ if ret.changed then getRecLen d.blksize (dRecLen m' o) else r.recLen)) :
    ∃ q, Dir.dirIterate crc d empty func slots st = some q := by
  induction slots generalizing st with
  | nil => exact ⟨_, rfl⟩
  | cons slot slots ih =>
    cases slot with
    | none =>
      obtain ⟨q, hq⟩ := ih st
      rw [Dir.dirIterate, hq]
      exact ⟨_, rfl⟩
    | some m =>
      obtain ⟨⟨m', st', stop, e⟩, hq⟩ := processDirBlock_defined crc empty m st hfunc
      rw [Dir.dirIterate, hq]
      cases stop with
      | true => exact ⟨_, rfl⟩
      | false =>
        obtain ⟨q, hq'⟩ := ih st'
        simp only [hq']
        exact ⟨_, rfl⟩

private theorem isEmpty_defined (crc : Crc) (d : Dir) (slots : List (Option Mem)) :
    ∃ b, Dir.isEmpty crc d slots = some b := by
  have hcheck : ∀ o m st r, d.HasRec m o r → o + r.recLen ≤ d.blksize →
      ∃ m' st' ret, Dir.checkEmpty o m st = some (m', st', ret) ∧
        (ret.abort = false → 8 ≤ if ret.changed then getRecLen d.blksize (dRecLen m' o) else r.recLen) := by
    intro o m st r h _
    have h8 := h.2.eight_le
    unfold Dir.checkEmpty
    split
    · exact ⟨_, _, _, rfl, fun _ => by simp only [Bool.false_eq_true, ↓reduceIte]; omega⟩
    · exact ⟨_, _, _, rfl, fun hab => by cases hab⟩
  obtain ⟨q, hq⟩ := dirIterate_defined crc true slots true hcheck
  unfold Dir.isEmpty
  rw [hq]
  exact ⟨_, rfl⟩

def removeRecord (m : Mem) (prev o : Nat) : Mem :=
  if o ≠ 0 then writeLE m (prev + 4) 2 (dRecLen m prev + dRecLen m o) else writeLE m o 4 0

/-- `ext2_process_unlink` passes a record, fails, or removes the record. -/
theorem processUnlink_cases (crc : Crc) (vnode : Nat → Option (Bool × Nat)) (slots : List (Option Mem))
    (name : List UInt8) (s : Dir.LinkCtx) (h : d.HasRec m o r) :
    (Dir.processUnlink crc d vnode slots name o m s = some (m, { s with prev := o }, ⟨false, false⟩) ∧
      ¬(r.name = name ∧ r.ino ≠ 0)) ∨
    (∃ s' c, Dir.processUnlink crc d vnode slots name o m s = some (m, s', ⟨c, true⟩) ∧ s'.done = s.done) ∨
    (Dir.processUnlink crc d vnode slots name o m s =
      some (removeRecord m s.prev o, { s with prev := o, done := true }, ⟨true, true⟩) ∧
      r.name = name ∧ r.ino ≠ 0) := by
  have hino : dInode m o = r.ino := by rw [← h.1]; rfl
  have hname : dName m o = r.name := by rw [← h.1]; rfl
  obtain ⟨isE, hE⟩ := isEmpty_defined crc d slots
  unfold Dir.processUnlink
  simp only
  rw [hino, hname, hE]
  by_cases hmatch : r.name ≠ name ∨ r.ino = 0
  · rw [if_pos hmatch]
    exact Or.inl ⟨rfl, fun hm => hmatch.elim (fun hn => hn hm.1) hm.2⟩
  · rw [if_neg hmatch]
    rw [not_or, not_not] at hmatch
    cases hv : vnode r.ino with
    | none => exact Or.inr (Or.inl ⟨_, true, rfl, rfl⟩)
    | some info =>
      obtain ⟨isDir, nlink⟩ := info
      have hopt : (if isDir = true then some isE else some true) = some (if isDir = true then isE else true) := by
        split
        · rfl
        · rfl
      simp only [hopt]
      cases (if isDir = true then isE else true) with
      | false => exact Or.inr (Or.inl ⟨_, false, rfl, rfl⟩)
      | true =>
        exact Or.inr (Or.inr ⟨rfl, hmatch.1, hmatch.2⟩)

def Before (d : Dir) (m : Mem) (pre : List Dirent) (o prev : Nat) : Prop :=
  d.Tiled m 0 pre o ∧ ((pre = [] ∧ o = 0) ∨ ∃ pre0 p, pre = pre0 ++ [p] ∧ prev + p.recLen = o)

theorem Before.snoc {pre : List Dirent} {prev : Nat} (h : Before d m pre o prev) (hrec : d.HasRec m o r) :
    Before d m (pre ++ [r]) (o + r.recLen) o := by
  refine ⟨segments_append.2 ⟨o, h.1, hrec, rfl⟩, Or.inr ⟨pre, r, rfl, rfl⟩⟩

theorem entries_append (rs rs' : List Dirent) : entries (rs ++ rs') = entries rs ++ entries rs' :=
  List.filterMap_append

/-- The first record becomes free, and another one becomes a part of the record before it. -/
theorem removeRecord_tiled {pre : List Dirent} {prev : Nat} (hs : d.Sized) (hpre : Before d m pre o prev)
    (h : d.HasRec m o r) (hrs : d.Tiled m (o + r.recLen) rs d.top) :
    (∃ rs', d.Tiled (removeRecord m prev o) 0 rs' d.top ∧ entries rs' = entries (pre ++ rs) ∧
      ∃ x ∈ rs', x.HasRoom r.recLen) ∧ ∀ x, d.top ≤ x → removeRecord m prev o x = m x := by
  obtain ⟨htop, -, -⟩ := top_add hs
  have hmax := hs.le
  have hle := hrs.le
  have h8 := h.2.eight_le
  obtain ⟨hall, hpre⟩ := hpre
  unfold removeRecord
  rcases hpre with ⟨rfl, rfl⟩ | ⟨pre0, p, rfl, hprev⟩
  · rw [if_neg (by decide)]
    have hfree : d.HasRec (writeLE m 0 4 0) 0 { r with ino := 0 } := by
      obtain ⟨rfl, hwf⟩ := h
      refine ⟨?_, ⟨hwf.mod, hwf.le⟩⟩
      have hino : dInode (writeLE m 0 4 0) 0 = 0 := readLE_writeLE_self m 0 4 0
      have hrec : dRecLen (writeLE m 0 4 0) 0 = dRecLen m 0 := readLE_writeLE_disjoint (by decide)
      have hlen : dNameLen (writeLE m 0 4 0) 0 = dNameLen m 0 := readLE_writeLE_disjoint (by decide)
      have hbytes : dName (writeLE m 0 4 0) 0 = dName m 0 := by
        unfold dName
        rw [hlen]
        exact copyOut_congr fun x h1 _ => writeLE_outside (by omega)
      unfold Dir.direntAt
      rw [hino, hrec, hlen, hbytes]
    have hrest : d.Tiled (writeLE m 0 4 0) (0 + r.recLen) rs d.top :=
      tiled_congr hrs fun x hx _ => writeLE_outside (by omega)
    refine ⟨⟨{ r with ino := 0 } :: rs, ⟨hfree, hrest⟩, ?_, { r with ino := 0 }, List.mem_cons_self, ?_⟩,
      fun x hx => writeLE_outside (by omega)⟩
    · rw [entries_cons, entries_free rfl]
      rfl
    · exact Nat.le_of_eq (Nat.zero_add r.recLen)
  · obtain ⟨a, hall, hp, hend⟩ := segments_split.1 hall
    have hend' : a + p.recLen = o := hend
    obtain rfl : a = prev := by omega
    have h8p := hp.2.eight_le
    rw [if_pos (by omega), hp.raw hs (by omega), h.raw hs (by omega)]
    -- The sum of the two lengths is read back, also if it is the whole block.
    have hget : getRecLen d.blksize ((p.recLen + r.recLen) % 65536) = p.recLen + r.recLen := by
      by_cases hlt : p.recLen + r.recLen < 65536
      · have hfield := (getRecLen_field hs.le (show p.recLen + r.recLen ≤ d.blksize by omega)
          (by have := hp.2.mod; have := h.2.mod; omega) (by omega)).1
        rw [recLenField, if_pos hlt] at hfield
        rw [Nat.mod_eq_of_lt hlt, hfield]
      · have hblk : d.blksize = 65536 := by omega
        have hsum : p.recLen + r.recLen = 65536 := by omega
        rw [hblk, hsum]
        decide
    have hmod : (p.recLen + r.recLen) % 4 = 0 := by
      have := hp.2.mod
      have := h.2.mod
      omega
    have hnew := hp.setRaw hget hmod (Nat.le_trans hp.2.le (Nat.le_add_right _ _))
    have hroom : Dirent.HasRoom { p with recLen := p.recLen + r.recLen } r.recLen := by
      refine Nat.add_le_add_right ?_ _
      split
      · exact Nat.zero_le _
      · exact hp.2.le
    refine ⟨⟨pre0 ++ { p with recLen := p.recLen + r.recLen } :: rs, segments_split.2 ⟨a, ?_, hnew, ?_⟩, ?_, _,
      List.mem_append_right _ List.mem_cons_self, hroom⟩, fun x hx => writeLE_outside (by omega)⟩
    · exact tiled_congr hall fun x _ hx => writeLE_outside (by omega)
    · change d.Tiled _ (a + (p.recLen + r.recLen)) rs d.top
      rw [← Nat.add_assoc, hend']
      exact tiled_congr hrs fun x hx _ => writeLE_outside (by omega)
    · rw [entries_append, entries_cons, entries_append, entries_append, List.append_assoc]
      rfl

/-- What the loop of `ext2_unlink_dirent` does to a block with the records `pre ++ rs`, from the first one of `rs`
on. -/
structure UnlinkPass (d : Dir) (name : List UInt8) (m : Mem) (pre rs : List Dirent) (p : Dir.Pass Dir.LinkCtx) :
    Prop where
  good : p.bad = false
  outside : ∀ x, d.top ≤ x → p.buf x = m x
  result : (p.state.done = false ∧ p.buf = m ∧
      (p.abort = false → p.state.err = none ∧ (name ≠ [] → ∀ r ∈ rs, ¬(r.name = name ∧ r.ino ≠ 0)))) ∨
    (p.state.done = true ∧ p.state.err = none ∧ p.abort = true ∧ p.changed = true ∧ ∃ rs1 r rs2 rs',
      rs = rs1 ++ r :: rs2 ∧ (r.name = name ∧ r.ino ≠ 0) ∧ (∀ x ∈ rs1, ¬(x.name = name ∧ x.ino ≠ 0)) ∧
      d.Tiled p.buf 0 rs' d.top ∧ entries rs' = entries (pre ++ rs1 ++ rs2))

theorem Dir.HasRec.length (h : d.HasRec m o r) : r.name.length = r.nameLen % 256 := by
  rw [← h.1]
  exact length_copyOut m (o + 8) _

theorem tiled_nameless (h : d.Tiled m o rs d.top) (hzero : ∀ r ∈ rs, r.nameLen % 256 = 0) :
    ∀ r ∈ rs, r.name = [] := by
  induction rs generalizing o with
  | nil => exact fun r hr => absurd hr List.not_mem_nil
  | cons r rs ih =>
    intro x hx
    rcases List.mem_cons.1 hx with rfl | hx
    · exact List.eq_nil_of_length_eq_zero (h.1.length.trans (hzero x List.mem_cons_self))
    · exact ih h.2 (fun y hy => hzero y (List.mem_cons_of_mem _ hy)) x hx

private theorem loop_unlink_end {pre : List Dirent} (hs : d.Sized) (htail : d.HasTail m) (hdone : s.done = false)
    (herr : s.err = none) (hrs : name ≠ [] → ∀ r ∈ rs, ¬(r.name = name ∧ r.ino ≠ 0))
    (ho : o = d.top ∨ d.blksize ≤ o + 8) (hfuel : d.blksize ≤ o + 8 * fuel) :
    ∃ p, d.loop true (Dir.processUnlink crc d vnode slots name) (fuel + 1) o m s changed = some p ∧
      UnlinkPass d name m pre rs p :=
  ⟨_, loop_end hs htail ho hfuel, rfl, fun _ _ => rfl, Or.inl ⟨hdone, rfl, fun _ => ⟨herr, hrs⟩⟩⟩

private theorem loop_unlink {pre : List Dirent} (hs : d.Sized) (hpre : Before d m pre o s.prev)
    (hrs : d.Tiled m o rs d.top)
    (htail : d.HasTail m) (hdone : s.done = false) (herr : s.err = none) (hfuel : d.blksize ≤ o + 8 * fuel) :
    ∃ p, d.loop true (Dir.processUnlink crc d vnode slots name) (fuel + 1) o m s changed = some p ∧
      UnlinkPass d name m pre rs p := by
  obtain ⟨htop, -, -⟩ := top_add hs
  induction fuel generalizing o pre rs s changed with
  | zero =>
    refine loop_unlink_end hs htail hdone herr (fun hne r hr hmatch => ?_) (by omega) hfuel
    rcases tiled_cases hs hrs with ⟨rfl, -⟩ | ⟨_, _, _, _, _, ho⟩ | ⟨-, hzero⟩
    · exact List.not_mem_nil hr
    · omega
    · exact hne (hmatch.1 ▸ tiled_nameless hrs hzero r hr)
  | succ fuel ih =>
    rcases tiled_cases hs hrs with ⟨rfl, ho⟩ | ⟨r, rs', rfl, hrec, hrest, ho⟩ | ⟨ho, hzero⟩
    · exact loop_unlink_end hs htail hdone herr (fun _ r hr => absurd hr List.not_mem_nil) (Or.inl ho) hfuel
    · have h8 := hrec.2.eight_le
      rw [loop_tiled hs hrec hrest ho, if_neg (by simp)]
      rcases processUnlink_cases crc vnode slots name s hrec with
        ⟨hcall, hno⟩ | ⟨s', c, hcall, hdone'⟩ | ⟨hcall, hmatch⟩
      · rw [hcall]
        simp only [Bool.false_eq_true, ↓reduceIte]
        obtain ⟨p, hp, hpass⟩ := ih (s := { s with prev := o }) (hpre.snoc hrec) hrest hdone
          herr (by omega)
        refine ⟨p, hp, hpass.good, hpass.outside, ?_⟩
        rcases hpass.result with ⟨hd, hbuf, hend⟩ | ⟨hd, he, hab, hc, rs1, r1, rs2, fin, rfl, hm1, hm2, htile, hent⟩
        · refine Or.inl ⟨hd, hbuf, fun hab => ⟨(hend hab).1, fun hne x hx => ?_⟩⟩
          rcases List.mem_cons.1 hx with rfl | hx
          · exact hno
          · exact (hend hab).2 hne x hx
        · refine Or.inr ⟨hd, he, hab, hc, r :: rs1, r1, rs2, fin, rfl, hm1, fun x hx => ?_, htile, ?_⟩
          · rcases List.mem_cons.1 hx with rfl | hx
            · exact hno
            · exact hm2 x hx
          · rw [hent, List.append_assoc pre, List.singleton_append]
      · rw [hcall]
        simp only [↓reduceIte]
        exact ⟨_, rfl, rfl, fun _ _ => rfl, Or.inl ⟨hdone'.trans hdone, rfl, fun hab => by cases hab⟩⟩
      · rw [hcall]
        simp only [↓reduceIte]
        obtain ⟨⟨fin, htile, hent, -⟩, hout⟩ := removeRecord_tiled hs hpre hrec hrest
        refine ⟨_, rfl, rfl, hout, Or.inr ⟨rfl, herr, rfl, Bool.or_true _, [], r, rs', fin, rfl, hmatch,
          fun x hx => absurd hx List.not_mem_nil, htile, ?_⟩⟩
        rw [hent, List.append_nil]
    · refine loop_unlink_end hs htail hdone herr (fun hne r hr hmatch => ?_) (Or.inr ho) hfuel
      exact hne (hmatch.1 ▸ tiled_nameless hrs hzero r hr)

/-! ### Checksums of blocks -/

private theorem direntWalk_tiled (hs : d.Sized) (hcsum : d.csumSize = 12) (hrs : d.Tiled m o rs d.top)
    (hfuel : d.top ≤ o + fuel) : Volume.direntWalk m d.top fuel o = .ok d.top := by
  obtain ⟨htop, -, -⟩ := top_add hs
  have hmax := hs.le
  induction rs generalizing o fuel with
  | nil =>
    have ho : o = d.top := hrs
    cases fuel with
    | zero => rw [Volume.direntWalk, ho]
    | succ fuel => rw [Volume.direntWalk, if_neg (by omega), ho]
  | cons r rs ih =>
    have hle := hrs.2.le
    have h8 := hrs.1.2.eight_le
    have hmod := hrs.1.2.mod
    have hraw : readLE m (o + 4) 2 = r.recLen := hrs.1.raw hs (by omega)
    obtain ⟨fuel, rfl⟩ : ∃ k, fuel = k + 1 := ⟨fuel - 1, by omega⟩
    rw [Volume.direntWalk, if_pos (by omega), hraw, if_neg (by omega)]
    exact ih hrs.2 (by omega)

private theorem getDirentTail_tiled (hs : d.Sized) (hcsum : d.vol.super.metadataCsum = true)
    (hrs : d.Tiled m 0 rs d.top) (htail : d.HasTail m) : d.vol.getDirentTail m = .ok d.top := by
  have hsize : d.csumSize = 12 := if_pos hcsum
  have htop : d.vol.super.blksize - 12 = d.top := by rw [Dir.top, hsize]; rfl
  obtain ⟨h1, h2, h3⟩ := htail hcsum
  have hwalk := direntWalk_tiled hs hsize hrs (show d.top ≤ 0 + d.top by omega)
  have hle : ¬d.vol.super.blksize < d.top := by
    rw [← htop]
    omega
  have h1' : readLE m d.top 4 = 0 := h1
  have h2' : readLE m (d.top + 4) 2 = 12 := h2
  have h3' : readLE m (d.top + 6) 2 = 0xde00 := h3
  unfold Volume.getDirentTail
  simp only [htop, hwalk]
  rw [if_neg hle, if_neg (by simp), if_neg (by simp [h1', h2', h3'])]

/-- The update of the checksum of a well-formed block succeeds, and it changes the checksum only. -/
theorem checksumUpdate_tiled (crc : Crc) (hs : d.Sized) (hrs : d.Tiled m 0 rs d.top) (htail : d.HasTail m) :
    ∃ m', d.vol.dirBlockChecksumUpdate crc d.id m = (m', 0) ∧ d.Tiled m' 0 rs d.top ∧ d.HasTail m' ∧
      d.vol.dirBlockChecksumValid crc d.id m' = true := by
  by_cases hcsum : d.vol.super.metadataCsum = true
  · have hget := getDirentTail_tiled hs hcsum hrs htail
    obtain ⟨m', hupd, hget', hvalid⟩ := direntChecksum_accepted crc d.id hget
    have hm' : m' = writeLE m (d.top + 8) 4 (d.vol.direntChecksum crc d.id m d.top).toNat := by
      unfold Volume.direntChecksumUpdate at hupd
      rw [hget] at hupd
      simp only [Prod.mk.injEq, and_true] at hupd
      exact hupd.symm
    refine ⟨m', ?_, ?_, ?_, ?_⟩
    · unfold Volume.dirBlockChecksumUpdate
      simp only [hcsum, ↓reduceIte, hget, hupd]
    · rw [hm']
      exact tiled_congr hrs fun x _ hx => writeLE_outside (by omega)
    · rw [hm']
      exact htail.congr fun x _ hx => writeLE_outside (by omega)
    · unfold Volume.dirBlockChecksumValid
      simp only [hcsum, ↓reduceIte, hget', hvalid]
  · refine ⟨m, ?_, hrs, htail, ?_⟩
    · unfold Volume.dirBlockChecksumUpdate
      simp only [hcsum, Bool.false_eq_true, ↓reduceIte]
    · unfold Volume.dirBlockChecksumValid
      simp only [hcsum, Bool.false_eq_true, ↓reduceIte]

/-! ### One block -/

def Dir.Holds (d : Dir) (m : Mem) (es : List (List UInt8 × Nat)) : Prop :=
  ∃ rs, d.Tiled m 0 rs d.top ∧ d.HasTail m ∧ Ext2.entries rs = es

theorem wfBlock_iff : d.WfBlock m ↔ ∃ es, d.Holds m es := by
  constructor
  · rintro ⟨⟨rs, hrs⟩, htail⟩
    exact ⟨_, rs, hrs, htail, rfl⟩
  · rintro ⟨es, rs, hrs, htail, -⟩
    exact ⟨⟨rs, hrs⟩, htail⟩

theorem processDirBlock_of_loop {p : Dir.Pass σ} {rs' : List Dirent} (hs : d.Sized)
    (hvalid : d.vol.dirBlockChecksumValid crc d.id m = true)
    (hloop : d.loop empty func (d.blksize + 1) 0 m st false = some p) (hgood : p.bad = false)
    (hsame : p.changed = false → p.buf = m) (hrs : d.Tiled p.buf 0 rs' d.top) (htail : d.HasTail p.buf) :
    ∃ m', Dir.processDirBlock crc d empty func m st = some (m', p.state, p.abort, none) ∧
      (d.Tiled m' 0 rs' d.top ∧ d.HasTail m') ∧ d.vol.dirBlockChecksumValid crc d.id m' = true := by
  unfold Dir.processDirBlock
  rw [if_pos hvalid, hloop, Option.map_some, hgood]
  simp only [Bool.false_eq_true, ↓reduceIte]
  cases hch : p.changed with
  | true =>
    obtain ⟨m', hupd, hrs', htail', hvalid'⟩ := checksumUpdate_tiled crc hs hrs htail
    simp only [↓reduceIte, hupd]
    exact ⟨m', rfl, ⟨hrs', htail'⟩, hvalid'⟩
  | false =>
    have hbuf := hsame hch
    rw [hbuf] at hrs htail
    simp only [Bool.false_eq_true, ↓reduceIte]
    exact ⟨m, rfl, ⟨hrs, htail⟩, hvalid⟩

theorem linkBlock (hs : d.Sized) (hlen : l.name.length ≤ 255) {es : List (List UInt8 × Nat)} (h : d.Holds m es)
    (hvalid : d.vol.dirBlockChecksumValid crc d.id m = true) (hdone : s.done = false) :
    ∃ m' s' es', Dir.processDirBlock crc d true (Dir.processLink d l) m s = some (m', s', s'.done, none) ∧
      s'.err = s.err ∧ d.Holds m' es' ∧ d.vol.dirBlockChecksumValid crc d.id m' = true ∧
      ((s'.done = false ∧ es' = es) ∨
        (s'.done = true ∧ ∃ l1 l2, es = l1 ++ l2 ∧ es' = l1 ++ added l ++ l2)) := by
  obtain ⟨rs, hrs, htail, rfl⟩ := h
  obtain ⟨p, rs', hloop, hpass⟩ : ∃ p rs', d.loop true (Dir.processLink d l) (d.blksize + 1) 0 m s false = some p ∧
      LinkPass d l m 0 rs s false p rs' := loop_link hs hlen hrs htail hdone (by omega)
  have htail' : d.HasTail p.buf := htail.congr fun x hx _ => hpass.outside x (Or.inr hx)
  obtain ⟨m', hblock, ⟨hrs', htail''⟩, hvalid'⟩ := processDirBlock_of_loop hs hvalid hloop hpass.good
    (fun hc => (hpass.same hc).2) hpass.tiled htail'
  rw [hpass.abort] at hblock
  refine ⟨m', p.state, _, hblock, hpass.err, ⟨rs', hrs', htail'', rfl⟩, hvalid', ?_⟩
  rcases hpass.entries with ⟨hd, he⟩ | ⟨hd, -, hl⟩
  · exact Or.inl ⟨hd, he⟩
  · exact Or.inr ⟨hd, hl⟩

theorem entries_match (h : r.name = name ∧ r.ino ≠ 0) : entries [r] = [(name, r.ino)] := by
  simp [entries, h.1, h.2]

theorem not_mem_entries (h : ∀ r ∈ rs, ¬(r.name = name ∧ r.ino ≠ 0)) : name ∉ (entries rs).map Prod.fst := by
  intro hmem
  obtain ⟨e, he, rfl⟩ := List.mem_map.1 hmem
  obtain ⟨r, hr, hre⟩ := List.mem_filterMap.1 he
  by_cases h0 : r.ino = 0
  · rw [if_pos h0] at hre
    cases hre
  · rw [if_neg h0] at hre
    cases hre
    exact h r hr ⟨rfl, h0⟩

theorem unlinkBlock (vnode : Nat → Option (Bool × Nat)) (slots : List (Option Mem)) (name : List UInt8) (hs : d.Sized)
    {es : List (List UInt8 × Nat)} (h : d.Holds m es) (hvalid : d.vol.dirBlockChecksumValid crc d.id m = true)
    (hdone : s.done = false) (herr : s.err = none) :
    ∃ m' s' stop, Dir.processDirBlock crc d true (Dir.processUnlink crc d vnode slots name) m s =
        some (m', s', stop, none) ∧ d.vol.dirBlockChecksumValid crc d.id m' = true ∧
      ((s'.done = false ∧ d.Holds m' es ∧
          (stop = false → s'.err = none ∧ (name ≠ [] → name ∉ es.map Prod.fst))) ∨
        (s'.done = true ∧ s'.err = none ∧ stop = true ∧ ∃ l1 x l2, es = l1 ++ (name, x) :: l2 ∧
          name ∉ l1.map Prod.fst ∧ d.Holds m' (l1 ++ l2))) := by
  obtain ⟨rs, hrs, htail, rfl⟩ := h
  obtain ⟨p, hloop, hpass⟩ : ∃ p, d.loop true (Dir.processUnlink crc d vnode slots name) (d.blksize + 1) 0 m s false =
      some p ∧ UnlinkPass d name m [] rs p := loop_unlink hs ⟨rfl, Or.inl ⟨rfl, rfl⟩⟩ hrs htail hdone herr (by omega)
  have htail' : d.HasTail p.buf := htail.congr fun x hx _ => hpass.outside x hx
  rcases hpass.result with ⟨hd, hbuf, hend⟩ | ⟨hd, he, hab, hch, rs1, r, rs2, fin, rfl, hmatch, hbefore, hfin, hent⟩
  · obtain ⟨m', hblock, ⟨hrs', htail''⟩, hvalid'⟩ :=
      processDirBlock_of_loop hs hvalid hloop hpass.good (fun _ => hbuf)
      (hbuf ▸ hrs) htail'
    refine ⟨m', p.state, p.abort, hblock, hvalid',
      Or.inl ⟨hd, ⟨rs, hrs', htail'', rfl⟩, fun hab => ⟨(hend hab).1, fun hne => ?_⟩⟩⟩
    exact not_mem_entries ((hend hab).2 hne)
  · obtain ⟨m', hblock, ⟨hrs', htail''⟩, hvalid'⟩ := processDirBlock_of_loop hs hvalid hloop hpass.good
      (fun hc => by rw [hch] at hc; cases hc) hfin htail'
    refine ⟨m', p.state, p.abort, hblock, hvalid', Or.inr ⟨hd, he, hab, Ext2.entries rs1, r.ino, Ext2.entries rs2, ?_,
      not_mem_entries hbefore, ?_⟩⟩
    · rw [entries_append, entries_cons, entries_match hmatch]
      rfl
    · refine ⟨fin, hrs', htail'', ?_⟩
      rw [hent, List.nil_append, entries_append]

/-! ### New blocks -/

private theorem hasRec_of_fields {len n : Nat} (hlen : getRecLen d.blksize (dRecLen m o) = len)
    (hname : dNameLen m o % 256 = n)
    (hmod : len % 4 = 0) (hle : dirRecLen n ≤ len) : d.HasRec m o (d.direntAt m o) := by
  refine ⟨rfl, ⟨?_, ?_⟩⟩
  · change getRecLen d.blksize (dRecLen m o) % 4 = 0
    rw [hlen]
    exact hmod
  · change dirRecLen (dNameLen m o) ≤ getRecLen d.blksize (dRecLen m o)
    have hsame : dirRecLen (dNameLen m o) = dirRecLen n := by
      unfold dirRecLen
      rw [← hname, Nat.mod_mod]
    rw [hlen, hsame]
    exact hle

private theorem initDirentTail_outside {t x : Nat} (hx : x < t ∨ t + 12 ≤ x) : Dir.initDirentTail m t x = m x := by
  unfold Dir.initDirentTail
  rw [writeLE_outside (by omega), writeLE_outside (by omega)]
  exact if_neg (by omega)

private theorem initDirentTail_fields (m : Mem) (t : Nat) : dInode (Dir.initDirentTail m t) t = 0 ∧
    dRecLen (Dir.initDirentTail m t) t = 12 ∧ dNameLen (Dir.initDirentTail m t) t = 0xde00 := by
  unfold Dir.initDirentTail
  refine ⟨?_, ?_, ?_⟩
  · rw [dInode, readLE_writeLE_disjoint (by omega), readLE_writeLE_disjoint (by omega)]
    have hzero : readLE (fill m t 12 0) t 4 = readLE (fun _ => 0) t 4 :=
      readLE_congr fun x h1 h2 => if_pos (by omega)
    rw [hzero]
    rfl
  · rw [dRecLen, readLE_writeLE_disjoint (by omega), readLE_writeLE_self]
    rfl
  · rw [dNameLen, readLE_writeLE_self]
    rfl

private theorem newBlock_tail (hs : d.Sized) (hrs : d.Tiled m 0 rs d.top) : ∃ m',
    (if d.vol.super.metadataCsum then Dir.initDirentTail m (d.blksize - 12) else m) = m' ∧
      d.Tiled m' 0 rs d.top ∧ d.HasTail m' := by
  obtain ⟨htop, -, -⟩ := top_add hs
  rcases csumSize_cases d with ⟨hcsum, hsize⟩ | ⟨hcsum, -⟩
  · rw [if_pos hcsum, show d.blksize - 12 = d.top by omega]
    exact ⟨_, rfl, tiled_congr hrs fun x _ hx => initDirentTail_outside (by omega),
      fun _ => initDirentTail_fields m d.top⟩
  · rw [if_neg (by simp [hcsum])]
    exact ⟨m, rfl, hrs, fun hc => by rw [hcsum] at hc; cases hc⟩

private theorem setRecLen_ok (hs : d.Sized) {len : Nat} (hle : len ≤ d.blksize) (hmod : len % 4 = 0) (m : Mem)
    (o : Nat) :
    setRecLen d.blksize len m o = .ok (writeLE m (o + 4) 2 (recLenField d.blksize len)) := by
  have hmax := hs.le
  unfold setRecLen
  exact if_neg (by omega)

theorem newDirBlock_empty (hs : d.Sized) : ∃ m, Dir.newDirBlock d 0 0 = .ok m ∧ d.Holds m [] := by
  obtain ⟨htop, hmod, hge⟩ := top_add hs
  obtain ⟨hget, hfield⟩ := getRecLen_field hs.le (show d.top ≤ d.blksize by omega) hmod (by omega)
  obtain ⟨m, hm⟩ : ∃ m, writeLE (fun _ => 0) (0 + 4) 2 (recLenField d.blksize d.top) = m := ⟨_, rfl⟩
  have hraw : dRecLen m 0 = recLenField d.blksize d.top := by
    rw [← hm, dRecLen, readLE_writeLE_self]
    exact Nat.mod_eq_of_lt hfield
  have hname : dNameLen m 0 = 0 := by
    rw [← hm, dNameLen, readLE_writeLE_disjoint (by decide)]
    rfl
  have hino : dInode m 0 = 0 := by
    rw [← hm, dInode, readLE_writeLE_disjoint (by decide)]
    rfl
  have hrec : d.HasRec m 0 (d.direntAt m 0) :=
    hasRec_of_fields (by rw [hraw, hget]) (by rw [hname]) hmod (Nat.le_trans (show dirRecLen 0 ≤ 1012 by decide) hge)
  have htiled : d.Tiled m 0 [d.direntAt m 0] d.top := by
    refine ⟨hrec, ?_⟩
    change 0 + getRecLen d.blksize (dRecLen m 0) = d.top
    rw [hraw, hget, Nat.zero_add]
  obtain ⟨m', hm', htiled', htail'⟩ := newBlock_tail hs htiled
  refine ⟨m', ?_, _, htiled', htail', entries_free hino⟩
  unfold Dir.newDirBlock
  rw [show d.blksize - d.csumSize = d.top from rfl, setRecLen_ok hs (by omega) hmod, hm]
  simp only [↓reduceIte, Except.map, hm']

theorem newDirBlock_wf (hs : d.Sized) (ino parent : Nat) :
    ∃ m, Dir.newDirBlock d ino parent = .ok m ∧ d.WfBlock m := by
  by_cases h0 : ino = 0
  · subst h0
    obtain ⟨m, hm, hholds⟩ := newDirBlock_empty hs
    exact ⟨m, hm, wfBlock_iff.2 ⟨_, hholds⟩⟩
  · obtain ⟨htop, hmod, hge⟩ := top_add hs
    obtain ⟨hget, hfield⟩ := getRecLen_field hs.le (show d.top - 12 ≤ d.blksize by omega) (by omega) (by omega)
    obtain ⟨t, ht⟩ : ∃ t, (if d.filetype then 2 else 0) = t := ⟨_, rfl⟩
    obtain ⟨m1, hm1⟩ : ∃ m1, writeLE (fun _ => 0) (0 + 4) 2 (recLenField d.blksize d.top) = m1 := ⟨_, rfl⟩
    -- The first record is stored before the second one.
    obtain ⟨m2, hm2⟩ : ∃ m2, writeLE (writeLE (writeLE (copyName m1 8 [46]) 0 4 ino) 6 2 (t <<< 8 ||| 1)) 4 2
        (dirRecLen 1) = m2 := ⟨_, rfl⟩
    obtain ⟨m3, hm3⟩ : ∃ m3, writeLE m2 (12 + 4) 2 (recLenField d.blksize (d.top - 12)) = m3 := ⟨_, rfl⟩
    obtain ⟨m4, hm4⟩ :
      ∃ m4, copyName (writeLE (writeLE m3 12 4 parent) (12 + 6) 2 (t <<< 8 ||| 2)) (12 + 8) [46, 46] =
        m4 := ⟨_, rfl⟩
    have hlow : ∀ n, n < 256 → (t <<< 8 ||| n) % 256 = n := fun n hn => by
      have htype := lowByte_type n t
      have hand : n &&& 0xff = n := (Nat.and_two_pow_sub_one_eq_mod n 8).trans (Nat.mod_eq_of_lt hn)
      rw [hand, Nat.lor_comm, Nat.mod_eq_of_lt hn] at htype
      exact htype
    have hraw2 : dRecLen m2 0 = 12 := by
      rw [← hm2, dRecLen, readLE_writeLE_self]
      decide
    have hout4 : ∀ x, x < 12 → m4 x = m2 x := fun x hx => by
      rw [← hm4, copyName_outside (by omega), writeLE_outside (by omega), writeLE_outside (by omega), ← hm3,
        writeLE_outside (by omega)]
    have hraw0 : dRecLen m4 0 = 12 := by
      rw [← hraw2]
      exact readLE_congr fun x _ hx => hout4 x (by omega)
    have hname0 : dNameLen m4 0 % 256 = 1 := by
      have hsame : dNameLen m4 0 = dNameLen m2 0 := readLE_congr fun x _ hx => hout4 x (by omega)
      rw [hsame, ← hm2, dNameLen, readLE_writeLE_disjoint (by decide), readLE_writeLE_self,
        show (256 : Nat) ^ 2 = 256 * 256 from rfl, Nat.mod_mul_right_mod, hlow 1 (by decide)]
    have hraw1 : dRecLen m4 12 = recLenField d.blksize (d.top - 12) := by
      have hsame : dRecLen m4 12 = dRecLen m3 12 := readLE_congr fun x h1 h2 => by
        rw [← hm4, copyName_outside (by omega), writeLE_outside (by omega), writeLE_outside (by omega)]
      rw [hsame, ← hm3, dRecLen, readLE_writeLE_self]
      exact Nat.mod_eq_of_lt hfield
    have hname1 : dNameLen m4 12 % 256 = 2 := by
      have hsame : dNameLen m4 12 = dNameLen (writeLE (writeLE m3 12 4 parent) (12 + 6) 2 (t <<< 8 ||| 2)) 12 :=
        readLE_congr fun x h1 h2 => by
          rw [← hm4]
          exact copyName_outside (by omega)
      rw [hsame, dNameLen, readLE_writeLE_self, show (256 : Nat) ^ 2 = 256 * 256 from rfl, Nat.mod_mul_right_mod,
        hlow 2 (by decide)]
    have hget0 : getRecLen d.blksize (dRecLen m4 0) = 12 := by
      rw [hraw0]
      unfold getRecLen
      split
      · rfl
      · rfl
    have htiled : d.Tiled m4 0 [d.direntAt m4 0, d.direntAt m4 12] d.top := by
      refine ⟨hasRec_of_fields hget0 hname0 (by decide) (by decide), ?_⟩
      change d.Tiled m4 (0 + getRecLen d.blksize (dRecLen m4 0)) _ _
      rw [hget0]
      refine ⟨hasRec_of_fields (by rw [hraw1, hget]) hname1 (by omega)
        (Nat.le_trans (show dirRecLen 2 ≤ 1000 by decide) (by omega)), ?_⟩
      change 0 + 12 + getRecLen d.blksize (dRecLen m4 12) = d.top
      rw [hraw1, hget]
      omega
    obtain ⟨m', hm', htiled', htail'⟩ := newBlock_tail hs htiled
    refine ⟨m', ?_, ⟨_, htiled'⟩, htail'⟩
    unfold Dir.newDirBlock
    rw [show d.blksize - d.csumSize = d.top from rfl, setRecLen_ok hs (by omega) hmod, hm1]
    simp only [h0, ↓reduceIte, ht, hm2, hraw2]
    rw [show dirRecLen 1 = 12 from rfl, setRecLen_ok hs (by omega) (by omega), hm3]
    simp only [hm4, Except.map, hm']

end

end Pml.Ext2
