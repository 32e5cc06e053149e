import Pml.Ext2.InodeCache

/-!
# Coherence of the inode cache

`CacheInv` says that the buffer holds its block and that each slot holds the inode of its number as it is on the disk,
up to the checksum.  `ReadResult` and `StoreResult` list what the two functions can do to the cache and the disk;
`ReadKeeps` and `UpdateKeeps` say when they keep the invariant.
-/

namespace Pml.Ext2

open ByteMemory

def Plain (x : Nat) : Prop := x < 124 ∨ (126 ≤ x ∧ x < 130) ∨ 132 ≤ x

/-- Inodes fill the blocks of a table without a rest, and have room for both halves of the checksum or for one. -/
structure Super.InodesFit (s : Super) : Prop where
  size : 128 ≤ s.inodeSize
  hi : 128 < s.inodeSize → 132 ≤ s.inodeSize
  dvd : s.inodeSize ∣ s.blksize

theorem openfs_inodesFit {s : Super} {count : Nat} (h : openfs s = some (.ok count)) : s.InodesFit := by
  obtain ⟨-, h⟩ := check_passed h
  obtain ⟨-, h⟩ := check_passed h
  obtain ⟨hsize, -⟩ := check_passed h
  have hblk : s.blksize = 2 ^ (10 + s.logBlockSize) := by
    rw [Super.blksize, Nat.shiftLeft_eq, Nat.pow_add]
  have hp2 : isP2 s.inodeSize = true := by
    by_contra hn
    exact hsize (Or.inr (Or.inr hn))
  obtain ⟨k, hk⟩ := isP2_iff.1 hp2
  have h128 : 128 ≤ s.inodeSize := by omega
  refine ⟨h128, fun hlt => ?_, ?_⟩
  · have h7 : 7 < k := (Nat.pow_lt_pow_iff_right (by decide : 1 < 2)).1 (by omega)
    have h8 : 2 ^ 8 ≤ 2 ^ k := Nat.pow_le_pow_right (by decide) h7
    omega
  · have hle : 2 ^ k ≤ 2 ^ (10 + s.logBlockSize) := by omega
    rw [hk, hblk]
    exact Nat.pow_dvd_pow 2 ((Nat.pow_le_pow_iff_right (by decide)).1 hle)

namespace Volume

def SameInode (v : Volume) (m m' : Mem) : Prop := ∀ x < v.super.inodeSize, Plain x → m x = m' x

def onDisk (v : Volume) (disk : Disk) (ino : Nat) : Mem :=
  fun x => disk (v.inodePlace ino).1 ((v.inodePlace ino).2 + x)

def HasInode (v : Volume) (ino : Nat) : Prop := ino ≠ 0 ∧ ino ≤ v.super.inodesCount

section

variable {v : Volume} {ino : Nat} {m m' m'' : Mem}

private theorem blksize_eq_two_pow (s : Super) : s.blksize = 2 ^ (10 + s.logBlockSize) := by
  rw [Super.blksize, Nat.shiftLeft_eq, Nat.pow_add]

theorem inodePlace_fits (hfit : v.super.InodesFit) (ino : Nat) :
    (v.inodePlace ino).2 + v.super.inodeSize ≤ v.super.blksize ∧ v.super.inodeSize ∣ (v.inodePlace ino).2 := by
  have hmod : (v.inodePlace ino).2 = v.inodeOffset ino % v.super.blksize := by
    change v.inodeOffset ino &&& (v.super.blksize - 1) = _
    rw [blksize_eq_two_pow, Nat.and_two_pow_sub_one_eq_mod]
  have hpos : 0 < v.super.blksize := by
    rw [blksize_eq_two_pow]
    exact Nat.two_pow_pos _
  have hdvd : v.super.inodeSize ∣ (v.inodePlace ino).2 := by
    rw [hmod]
    exact (Nat.dvd_mod_iff hfit.dvd).2 (Nat.dvd_mul_left _ _)
  refine ⟨?_, hdvd⟩
  obtain ⟨k, hk⟩ := hdvd
  obtain ⟨n, hn⟩ := hfit.dvd
  have hlt : (v.inodePlace ino).2 < v.super.blksize := hmod ▸ Nat.mod_lt _ hpos
  have hkn : k < n := by
    rw [hk, hn] at hlt
    exact Nat.lt_of_mul_lt_mul_left hlt
  calc (v.inodePlace ino).2 + v.super.inodeSize = v.super.inodeSize * (k + 1) := by rw [hk, Nat.mul_succ]
    _ ≤ v.super.inodeSize * n := Nat.mul_le_mul_left _ hkn
    _ = v.super.blksize := hn.symm

private theorem groupOfInode_hasDesc (hopen : openfs v.super = some (.ok v.groupDescCount))
    (hwf : v.super.inodesCount < 2 ^ 32)
    (hino : v.HasInode ino) : v.super.groupOfInode ino < v.groupDescCount ∧ v.HasDesc (v.super.groupOfInode ino) := by
  have ho := openfs_ok hopen
  obtain ⟨h0, hle⟩ := hino
  have hsub : sub64 ino 1 = ino - 1 := sub64_of_le (by omega) (by omega)
  have hlt : (ino - 1) / v.super.inodesPerGroup < v.groupDescCount := by
    rw [Nat.div_lt_iff_lt_mul ho.inodes_pos, ho.inodes]
    omega
  have hgroup : v.super.groupOfInode ino = (ino - 1) / v.super.inodesPerGroup := by
    rw [Super.groupOfInode, hsub, Nat.mod_eq_of_lt]
    exact Nat.lt_trans hlt ho.groups_lt
  rw [hgroup]
  exact ⟨hlt, ho.hasDesc hlt⟩

theorem inodeChecksumUpdate_plain (crc : Crc) {x : Nat} (hx : Plain x) :
    v.inodeChecksumUpdate crc ino m x = m x := by
  unfold Plain at hx
  unfold inodeChecksumUpdate
  split
  · dsimp only
    split
    · rw [writeLE_outside (by omega), writeLE_outside (by omega)]
    · exact writeLE_outside (by omega)
  · rfl

private theorem inodeChecksumValid_congr (crc : Crc) (hfit : v.super.InodesFit)
    (h : ∀ x < v.super.inodeSize, m x = m' x) :
    v.inodeChecksumValid crc ino m = v.inodeChecksumValid crc ino m' := by
  have hsize := hfit.size
  have hread : ∀ a n, a + n ≤ v.super.inodeSize → readLE m a n = readLE m' a n :=
    fun a n ha => readLE_congr fun x _ hx => h x (by omega)
  have hhi : v.inodeHasHi m = v.inodeHasHi m' := by
    unfold inodeHasHi
    by_cases hlt : 128 < v.super.inodeSize
    · have h132 := hfit.hi hlt
      rw [hread 128 2 (by omega)]
    · simp [hlt]
  have hclear : ∀ hasHi, copyOut (inodeCleared m hasHi) 0 v.super.inodeSize =
      copyOut (inodeCleared m' hasHi) 0 v.super.inodeSize := by
    intro hasHi
    refine copyOut_congr fun x _ hx => ?_
    have hwrite : ∀ a n w (p p' : Mem), p x = p' x → writeLE p a n w x = writeLE p' a n w x := by
      intro a n w p p' hp
      by_cases hin : a ≤ x ∧ x < a + n
      · exact writeLE_inside hin.1 hin.2
      · rw [writeLE_outside (by omega), writeLE_outside (by omega), hp]
    unfold inodeCleared
    split
    · exact hwrite _ _ _ _ _ (hwrite _ _ _ _ _ (h x (by omega)))
    · exact hwrite _ _ _ _ _ (h x (by omega))
  have hsum : ∀ hasHi, v.inodeChecksum crc ino m hasHi = v.inodeChecksum crc ino m' hasHi := by
    intro hasHi
    unfold inodeChecksum
    rw [hread 100 4 (by omega), hclear]
  have hzero : copyOut m 0 128 = copyOut m' 0 128 := copyOut_congr fun x _ hx => h x (by omega)
  unfold inodeChecksumValid
  simp only [← hhi, hsum, hread 124 2 (by omega), hzero]
  cases hhas : v.inodeHasHi m with
  | false => simp only [Bool.false_eq_true, if_false]
  | true =>
    unfold inodeHasHi at hhas
    simp only [Bool.and_eq_true, decide_eq_true_eq] at hhas
    rw [hread 130 2 (hfit.hi hhas.1)]

end

end Volume

namespace InodeCache

def Loads (c : InodeCache) (read : Nat → Option Mem) (blockno : Nat) : Prop := blockno = c.block ∨ read blockno = none

section

variable {c : InodeCache} {ino i blockno : Nat} {read : Nat → Option Mem} {disk : Disk}

theorem lookup_some (h : c.lookup ino = some i) : i < c.cacheSize ∧ (c.slot i).ino = ino :=
  ⟨List.mem_range.1 (List.mem_of_find?_eq_some h), of_decide_eq_true (List.find?_some h :)⟩

theorem lookup_none (h : c.lookup ino = none) (hi : i < c.cacheSize) : (c.slot i).ino ≠ ino := by
  have hf := List.find?_eq_none.1 h i (List.mem_range.2 hi)
  simpa using hf

theorem lookup_ne_none (hi : i < c.cacheSize) (h : (c.slot i).ino = ino) : c.lookup ino ≠ none :=
  fun hn => lookup_none hn hi h

theorem next_lt (h : 0 < c.cacheSize) : c.next < c.cacheSize := by
  have h0 : 0 ≤ (c.cacheLast + 1) % (c.cacheSize : Int) := Int.emod_nonneg _ (by omega)
  have h1 : (c.cacheLast + 1) % (c.cacheSize : Int) < c.cacheSize := Int.emod_lt_of_pos _ (by omega)
  unfold next
  omega

private theorem load_of_loads (disk : Disk) (h : c.Loads read blockno) :
    ∃ buf, c.load read disk blockno = ({ c with buffer := buf, block := blockno }, true) ∧
      (blockno = c.block → buf = c.buffer) ∧ (blockno ≠ c.block → buf = disk blockno) := by
  unfold load
  by_cases hb : blockno = c.block
  · refine ⟨c.buffer, ?_, fun _ => rfl, fun hn => absurd hb hn⟩
    rw [if_neg (not_not.2 hb), hb]
  · refine ⟨disk blockno, ?_, fun he => absurd he hb, fun _ => rfl⟩
    rw [if_pos hb, h.resolve_left hb]

private theorem load_of_not_loads (disk : Disk) (h : ¬ c.Loads read blockno) :
    ∃ junk, read blockno = some junk ∧ blockno ≠ c.block ∧
      c.load read disk blockno = ({ c with buffer := junk }, false) := by
  obtain ⟨hb, hr⟩ := not_or.1 h
  obtain ⟨junk, hj⟩ := Option.ne_none_iff_exists'.1 hr
  refine ⟨junk, hj, hb, ?_⟩
  unfold load
  rw [if_pos hb, hj]

private theorem fillSlot_done (blksize i fuel offset ptr : Nat) :
    c.fillSlot read disk blksize i fuel 0 offset blockno ptr = (c, true) := by
  cases fuel with
  | zero => rfl
  | succ fuel => rfl

private theorem storeInode_done (dev : Device) (winode : Mem) (blksize fuel offset ptr : Nat) :
    storeInode dev winode blksize fuel 0 offset blockno ptr (c, disk) = ((c, disk), true) := by
  cases fuel with
  | zero => rfl
  | succ fuel => rfl

theorem fillSlot_eq {blksize len offset : Nat} (hlen : 0 < len) (hfit : offset + len ≤ blksize) (i : Nat) :
    c.fillSlot read disk blksize i len len offset blockno 0 =
      if (c.load read disk blockno).2 then
        ((c.load read disk blockno).1.setInode i (paste ((c.load read disk blockno).1.slot i).inode 0
          (c.load read disk blockno).1.buffer offset len), true)
      else c.load read disk blockno := by
  obtain ⟨n, rfl⟩ := Nat.exists_eq_succ_of_ne_zero (Nat.ne_of_gt hlen)
  unfold fillSlot
  rw [if_neg (by omega), if_neg (by omega)]
  rcases hl : c.load read disk blockno with ⟨c', ok⟩
  cases ok with
  | false => rfl
  | true =>
    dsimp only
    rw [Nat.sub_self, fillSlot_done]
    rfl

private theorem storeInode_eq {dev : Device} {winode : Mem} {blksize len offset : Nat} (hlen : 0 < len)
    (hfit : offset + len ≤ blksize) :
    storeInode dev winode blksize len len offset blockno 0 (c, disk) =
      if (c.load dev.read disk blockno).2 then
        let c' := (c.load dev.read disk blockno).1
        let buffer := paste c'.buffer offset winode 0 len
        match dev.write blockno with
        | some junk => (({ c' with buffer }, Function.update disk blockno junk), false)
        | none => (({ c' with buffer }, Function.update disk blockno buffer), true)
      else (((c.load dev.read disk blockno).1, disk), false) := by
  obtain ⟨n, rfl⟩ := Nat.exists_eq_succ_of_ne_zero (Nat.ne_of_gt hlen)
  unfold storeInode
  rw [if_neg (by omega), if_neg (by omega)]
  rcases hl : c.load dev.read disk blockno with ⟨c', ok⟩
  cases ok with
  | false => rfl
  | true =>
    dsimp only
    cases hw : dev.write blockno with
    | some junk => rfl
    | none =>
      dsimp only
      rw [Nat.sub_self, storeInode_done]
      rfl

end

end InodeCache

namespace Volume

/-! ### What the functions do -/

/-- What `ext2_read_inode` can do to a cache and return for an inode of the file system. -/
inductive ReadResult (crc : Crc) (v : Volume) (read : Nat → Option Mem) (disk : Disk) (ino : Nat) (c : InodeCache) :
    InodeCache → Except Errno Mem → Prop
  | hit (i : Nat) (h : c.lookup ino = some i) : ReadResult crc v read disk ino c c (.ok (c.slot i).inode)
  | refused (hmiss : c.lookup ino = none) (h : ¬ v.TableValid (v.super.groupOfInode ino)) :
    ReadResult crc v read disk ino c c (.error .EUCLEAN)
  | unread (junk : Mem) (hmiss : c.lookup ino = none) (hvalid : v.TableValid (v.super.groupOfInode ino))
    (hread : read (v.inodePlace ino).1 = some junk) (hne : (v.inodePlace ino).1 ≠ c.block) :
    ReadResult crc v read disk ino c { c with buffer := junk } (.error Errno.EIO)
  | invalid (buf inode : Mem) (hmiss : c.lookup ino = none) (hvalid : v.TableValid (v.super.groupOfInode ino))
    (hloads : c.Loads read (v.inodePlace ino).1) (hin : (v.inodePlace ino).1 = c.block → buf = c.buffer)
    (hout : (v.inodePlace ino).1 ≠ c.block → buf = disk (v.inodePlace ino).1)
    (hinode : inode = paste (c.slot c.next).inode 0 buf (v.inodePlace ino).2 v.super.inodeSize)
    (hcsum : v.inodeChecksumValid crc ino inode = false) :
    ReadResult crc v read disk ino c
      { c with
        buffer := buf
        block := (v.inodePlace ino).1
        slot := Function.update c.slot c.next { c.slot c.next with inode } } (.error .EUCLEAN)
  | filled (buf inode : Mem) (hmiss : c.lookup ino = none) (hvalid : v.TableValid (v.super.groupOfInode ino))
    (hloads : c.Loads read (v.inodePlace ino).1) (hin : (v.inodePlace ino).1 = c.block → buf = c.buffer)
    (hout : (v.inodePlace ino).1 ≠ c.block → buf = disk (v.inodePlace ino).1)
    (hinode : inode = paste (c.slot c.next).inode 0 buf (v.inodePlace ino).2 v.super.inodeSize)
    (hcsum : v.inodeChecksumValid crc ino inode = true) :
    ReadResult crc v read disk ino c
      { c with
        buffer := buf
        block := (v.inodePlace ino).1
        cacheLast := c.next
        slot := Function.update c.slot c.next ⟨ino, inode⟩ } (.ok inode)

/-- What the second part of `ext2_update_inode` can do to a cache and the disk. -/
inductive StoreResult (v : Volume) (dev : Device) (disk : Disk) (ino : Nat) (winode : Mem) (c : InodeCache) :
    InodeCache → Disk → Except Errno Unit → Prop
  | refused (h : ¬ v.TableValid (v.super.groupOfInode ino)) :
    StoreResult v dev disk ino winode c c disk (.error .EUCLEAN)
  | unread (junk : Mem) (hvalid : v.TableValid (v.super.groupOfInode ino))
    (hread : dev.read (v.inodePlace ino).1 = some junk) (hne : (v.inodePlace ino).1 ≠ c.block) :
    StoreResult v dev disk ino winode c { c with buffer := junk } disk (.error Errno.EIO)
  | unwritten (buf junk : Mem) (hvalid : v.TableValid (v.super.groupOfInode ino))
    (hloads : c.Loads dev.read (v.inodePlace ino).1) (hwrite : dev.write (v.inodePlace ino).1 = some junk) :
    StoreResult v dev disk ino winode c { c with buffer := buf, block := (v.inodePlace ino).1 }
      (Function.update disk (v.inodePlace ino).1 junk) (.error Errno.EIO)
  | stored (buf buf' : Mem) (hvalid : v.TableValid (v.super.groupOfInode ino))
    (hloads : c.Loads dev.read (v.inodePlace ino).1) (hin : (v.inodePlace ino).1 = c.block → buf = c.buffer)
    (hout : (v.inodePlace ino).1 ≠ c.block → buf = disk (v.inodePlace ino).1)
    (hbuf : buf' = paste buf (v.inodePlace ino).2 winode 0 v.super.inodeSize) :
    StoreResult v dev disk ino winode c { c with buffer := buf', block := (v.inodePlace ino).1 }
      (Function.update disk (v.inodePlace ino).1 buf') (.ok ())

section

variable {crc : Crc} {v : Volume} {ino : Nat} {s : InodeStore} {c : InodeCache} {mem : Option Mem}

theorem readInode_cases (crc : Crc) (hopen : openfs v.super = some (.ok v.groupDescCount))
    (hwf : v.super.inodesCount < 2 ^ 32)
    (hino : v.HasInode ino) (hc : s.cache mem = some c) (read : Nat → Option Mem) :
    ∃ c' r, v.readInode crc read mem s ino = some (⟨s.disk, some c'⟩, r) ∧
      ReadResult crc v read s.disk ino c c' r := by
  have hfit := openfs_inodesFit hopen
  obtain ⟨hgroup, hdesc⟩ := groupOfInode_hasDesc hopen hwf hino
  have hplace := inodePlace_fits hfit ino
  have hlen : 0 < v.super.inodeSize := Nat.lt_of_lt_of_le (by decide) hfit.size
  unfold readInode
  rw [if_neg (fun h => h.elim hino.1 fun h => absurd hino.2 (by omega)), hc]
  dsimp only
  cases hl : c.lookup ino with
  | some i => exact ⟨_, _, rfl, .hit i hl⟩
  | none =>
    dsimp only
    rw [if_neg (by omega), if_neg (not_not.2 hdesc)]
    by_cases hvalid : v.TableValid (v.super.groupOfInode ino)
    · rw [if_neg (not_not.2 hvalid), InodeCache.fillSlot_eq hlen hplace.1]
      by_cases hloads : c.Loads read (v.inodePlace ino).1
      · obtain ⟨buf, hload, hin, hout⟩ := InodeCache.load_of_loads s.disk hloads
        rw [hload]
        simp only [if_true, InodeCache.setInode, Function.update_self, Function.update_idem]
        split
        · rename_i hcsum
          exact ⟨_, _, rfl, .filled buf _ hl hvalid hloads hin hout rfl hcsum⟩
        · rename_i hcsum
          exact ⟨_, _, rfl, .invalid buf _ hl hvalid hloads hin hout rfl (by simpa using hcsum)⟩
      · obtain ⟨junk, hread, hne, hload⟩ := InodeCache.load_of_not_loads s.disk hloads
        rw [hload]
        exact ⟨_, _, rfl, .unread junk hl hvalid hread hne⟩
    · rw [if_pos hvalid]
      exact ⟨_, _, rfl, .refused hl hvalid⟩

theorem storeInode_cases (crc : Crc) (hopen : openfs v.super = some (.ok v.groupDescCount))
    (hwf : v.super.inodesCount < 2 ^ 32) (hino : v.HasInode ino) (inode winode : Mem) (bufsize : Nat)
    (hc : updateSlot mem s ino inode (min bufsize v.super.inodeSize) = some c) (dev : Device) :
    ∃ c' disk' r, v.storeInode crc dev mem s ino inode bufsize winode = some (⟨disk', some c'⟩, r) ∧
      StoreResult v dev s.disk ino
        (v.inodeChecksumUpdate crc ino (paste winode 0 inode 0 (min bufsize v.super.inodeSize))) c c' disk' r := by
  have hfit := openfs_inodesFit hopen
  obtain ⟨-, hdesc⟩ := groupOfInode_hasDesc hopen hwf hino
  have hplace := inodePlace_fits hfit ino
  have hlen : 0 < v.super.inodeSize := Nat.lt_of_lt_of_le (by decide) hfit.size
  unfold storeInode
  dsimp only
  rw [hc]
  dsimp only
  rw [if_neg (not_not.2 hdesc)]
  by_cases hvalid : v.TableValid (v.super.groupOfInode ino)
  · rw [if_neg (not_not.2 hvalid), InodeCache.storeInode_eq hlen hplace.1]
    by_cases hloads : c.Loads dev.read (v.inodePlace ino).1
    · obtain ⟨buf, hload, hin, hout⟩ := InodeCache.load_of_loads s.disk hloads
      rw [hload]
      simp only [if_true]
      cases hw : dev.write (v.inodePlace ino).1 with
      | some junk => exact ⟨_, _, _, rfl, .unwritten _ junk hvalid hloads hw⟩
      | none => exact ⟨_, _, _, rfl, .stored buf _ hvalid hloads hin hout rfl⟩
    · obtain ⟨junk, hread, hne, hload⟩ := InodeCache.load_of_not_loads s.disk hloads
      rw [hload]
      exact ⟨_, _, _, rfl, .unread junk hvalid hread hne⟩
  · rw [if_pos hvalid]
    exact ⟨_, _, _, rfl, .refused hvalid⟩

end

/-! ### The invariant -/

/-- The buffer holds its block, and each slot with a number holds that inode as it is on the disk. -/
structure CacheInv (v : Volume) (disk : Disk) (c : InodeCache) : Prop where
  size : 0 < c.cacheSize
  buffer : c.block ≠ 0 → ∀ x < v.super.blksize, c.buffer x = disk c.block x
  slots : ∀ i < c.cacheSize, (c.slot i).ino ≠ 0 → v.SameInode (c.slot i).inode (v.onDisk disk (c.slot i).ino)
  valid : ∀ i < c.cacheSize, (c.slot i).ino ≠ 0 → v.TableValid (v.super.groupOfInode (c.slot i).ino)
  unique : ∀ i j, i < c.cacheSize → j < c.cacheSize → (c.slot i).ino = (c.slot j).ino → (c.slot i).ino ≠ 0 → i = j

def Harmless (v : Volume) (c : InodeCache) (read : Nat → Option Mem) (blockno : Nat) : Prop :=
  ∀ junk, read blockno = some junk → c.block = 0 ∨ ∀ x < v.super.blksize, junk x = c.buffer x

/-- When `ext2_read_inode` keeps the invariant for an inode that is not in the cache: a read that fails is harmless,
and a bad checksum is only found while the next slot has no number.  The number of the block must not overflow to
0. -/
def ReadKeeps (crc : Crc) (v : Volume) (disk : Disk) (c : InodeCache) (read : Nat → Option Mem) (ino : Nat) : Prop :=
  c.lookup ino = none → v.TableValid (v.super.groupOfInode ino) →
    (v.inodePlace ino).1 ≠ 0 ∧
    ((v.inodePlace ino).1 ≠ c.block → v.Harmless c read (v.inodePlace ino).1) ∧
    (c.Loads read (v.inodePlace ino).1 →
      v.inodeChecksumValid crc ino (v.onDisk disk ino) = true ∨ (c.slot c.next).ino = 0)

section

variable {crc : Crc} {v : Volume} {ino : Nat} {disk : Disk} {c c' : InodeCache} {read : Nat → Option Mem}
    {dev : Device}

theorem CacheInv.create (v : Volume) (disk : Disk) (garbage : Mem) :
    CacheInv v disk (InodeCache.create 4 garbage) where
  size := Nat.zero_lt_succ 3
  buffer := fun h => absurd rfl h
  slots := fun _ _ h => absurd rfl h
  valid := fun _ _ h => absurd rfl h
  unique := fun _ _ _ _ _ h => absurd rfl h

private theorem CacheInv.loaded (h : CacheInv v disk c) {blockno : Nat} {buf : Mem} (h0 : blockno ≠ 0)
    (hin : blockno = c.block → buf = c.buffer) (hout : blockno ≠ c.block → buf = disk blockno) :
    ∀ x < v.super.blksize, buf x = disk blockno x := by
  intro x hx
  by_cases hb : blockno = c.block
  · rw [hin hb, hb]
    exact h.buffer (hb ▸ h0) x hx
  · rw [hout hb]

private theorem CacheInv.filled_eq (h : CacheInv v disk c) (hfit : v.super.InodesFit) {old buf : Mem}
    (h0 : (v.inodePlace ino).1 ≠ 0) (hin : (v.inodePlace ino).1 = c.block → buf = c.buffer)
    (hout : (v.inodePlace ino).1 ≠ c.block → buf = disk (v.inodePlace ino).1) :
    ∀ x < v.super.inodeSize, paste old 0 buf (v.inodePlace ino).2 v.super.inodeSize x = v.onDisk disk ino x := by
  intro x hx
  have hplace := (inodePlace_fits hfit ino).1
  rw [paste_inside (Nat.zero_le x) (by omega), Nat.sub_zero]
  exact h.loaded h0 hin hout _ (by omega)

theorem CacheInv.junk (h : CacheInv v disk c) {junk : Mem}
    (hj : c.block = 0 ∨ ∀ x < v.super.blksize, junk x = c.buffer x) : CacheInv v disk { c with buffer := junk } where
  size := h.size
  buffer := fun h0 x hx => (hj.resolve_left h0 x hx).trans (h.buffer h0 x hx)
  slots := h.slots
  valid := h.valid
  unique := h.unique

/-- The next slot gets a number and an inode, and the buffer a block. -/
theorem CacheInv.put (h : CacheInv v disk c) {blockno : Nat} {buf : Mem} (n : Nat) (inode : Mem) (last : Int)
    (hbuf : ∀ x < v.super.blksize, buf x = disk blockno x) (hmiss : n ≠ 0 → c.lookup n = none)
    (hinode : n ≠ 0 → v.SameInode inode (v.onDisk disk n))
    (hvalid : n ≠ 0 → v.TableValid (v.super.groupOfInode n)) :
    CacheInv v disk { c with
      buffer := buf
      block := blockno
      cacheLast := last
      slot := Function.update c.slot c.next ⟨n, inode⟩ } where
  size := h.size
  buffer := fun _ => hbuf
  slots := fun i hi h0 => by
    dsimp only at hi h0 ⊢
    by_cases hk : i = c.next
    · rw [hk, Function.update_self] at h0 ⊢
      exact hinode h0
    · rw [Function.update_of_ne hk] at h0 ⊢
      exact h.slots i hi h0
  valid := fun i hi h0 => by
    dsimp only at hi h0 ⊢
    by_cases hk : i = c.next
    · rw [hk, Function.update_self] at h0 ⊢
      exact hvalid h0
    · rw [Function.update_of_ne hk] at h0 ⊢
      exact h.valid i hi h0
  unique := fun i j hi hj he h0 => by
    dsimp only at hi hj he h0
    by_cases hki : i = c.next <;> by_cases hkj : j = c.next
    · rw [hki, hkj]
    · rw [hki, Function.update_self] at he h0
      rw [Function.update_of_ne hkj] at he
      exact absurd he.symm (InodeCache.lookup_none (hmiss h0) hj)
    · rw [Function.update_of_ne hki] at he h0
      rw [hkj, Function.update_self] at he
      dsimp only at he
      exact absurd he (InodeCache.lookup_none (hmiss (he ▸ h0)) hi)
    · rw [Function.update_of_ne hki] at he h0
      rw [Function.update_of_ne hkj] at he
      exact h.unique i j hi hj he h0

/-- An inode that is returned is the inode on the disk, and it is in the cache. -/
theorem ReadResult.returned {r : Except Errno Mem} {m : Mem} (hr : ReadResult crc v read disk ino c c' r)
    (hok : r = .ok m) (h : CacheInv v disk c) (hfit : v.super.InodesFit) (hino : v.HasInode ino)
    (hk : ReadKeeps crc v disk c read ino) :
    v.SameInode m (v.onDisk disk ino) ∧ c'.lookup ino ≠ none := by
  cases hr with
  | hit i hl =>
    cases hok
    obtain ⟨hi, hn⟩ := InodeCache.lookup_some hl
    refine ⟨?_, by simp [hl]⟩
    have hs := h.slots i hi (hn ▸ hino.1)
    rwa [hn] at hs
  | refused => cases hok
  | unread => cases hok
  | invalid => cases hok
  | filled buf inode hmiss hvalid hloads hin hout hinode hcsum =>
    cases hok
    obtain ⟨h0, -, -⟩ := hk hmiss hvalid
    refine ⟨fun x hx _ => ?_, ?_⟩
    · rw [hinode]
      exact h.filled_eq hfit h0 hin hout x hx
    · refine InodeCache.lookup_ne_none (i := c.next) (InodeCache.next_lt h.size) ?_
      exact congrArg InodeSlot.ino (Function.update_self c.next (⟨ino, m⟩ : InodeSlot) c.slot)

theorem ReadResult.inv {r : Except Errno Mem} (hr : ReadResult crc v read disk ino c c' r) (h : CacheInv v disk c)
    (hfit : v.super.InodesFit) (hk : ReadKeeps crc v disk c read ino) : CacheInv v disk c' := by
  cases hr with
  | hit => exact h
  | refused => exact h
  | unread junk hmiss hvalid hread hne => exact h.junk ((hk hmiss hvalid).2.1 hne junk hread)
  | invalid buf inode hmiss hvalid hloads hin hout hinode hcsum =>
    obtain ⟨h0, -, hcs⟩ := hk hmiss hvalid
    have hbytes : ∀ x < v.super.inodeSize, inode x = v.onDisk disk ino x := by
      rw [hinode]
      exact h.filled_eq hfit h0 hin hout
    have hlabel : (c.slot c.next).ino = 0 := by
      refine (hcs hloads).resolve_left fun hv => ?_
      rw [← inodeChecksumValid_congr crc hfit hbytes, hcsum] at hv
      cases hv
    have hput := h.put 0 inode c.cacheLast (h.loaded h0 hin hout) (fun hn => absurd rfl hn)
      (fun hn => absurd rfl hn) (fun hn => absurd rfl hn)
    rw [← hlabel] at hput
    exact hput
  | filled buf inode hmiss hvalid hloads hin hout hinode hcsum =>
    obtain ⟨h0, -, -⟩ := hk hmiss hvalid
    refine h.put ino _ c.next (h.loaded h0 hin hout) (fun _ => hmiss) (fun _ x hx _ => ?_) (fun _ => hvalid)
    rw [hinode]
    exact h.filled_eq hfit h0 hin hout x hx

/-! ### Storing an inode -/

/-- When the second part of `ext2_update_inode` keeps the invariant: no other inode of the cache has the same place, a
block that cannot be read belongs to no inode of the cache and leaves the buffer alone, and the block is written. -/
def StoreKeeps (v : Volume) (c : InodeCache) (dev : Device) (ino : Nat) : Prop :=
  v.TableValid (v.super.groupOfInode ino) →
    (v.inodePlace ino).1 ≠ 0 ∧
    (∀ i < c.cacheSize, (c.slot i).ino ≠ 0 → (c.slot i).ino ≠ ino → v.inodePlace (c.slot i).ino ≠ v.inodePlace ino) ∧
    ((v.inodePlace ino).1 ≠ c.block → v.Harmless c dev.read (v.inodePlace ino).1 ∧
      ∀ junk, dev.read (v.inodePlace ino).1 = some junk → c.lookup ino = none) ∧
    (c.Loads dev.read (v.inodePlace ino).1 → dev.write (v.inodePlace ino).1 = none)

theorem setInode_ino (c : InodeCache) (i j : Nat) (m : Mem) : ((c.setInode i m).slot j).ino = (c.slot j).ino := by
  unfold InodeCache.setInode
  by_cases h : j = i
  · rw [h]
    dsimp only
    rw [Function.update_self]
  · dsimp only
    rw [Function.update_of_ne h]

theorem touch_of_none {inode : Mem} {n : Nat} (h : c.lookup ino = none) : c.touch ino inode n = c := by
  unfold InodeCache.touch
  rw [h]

theorem touch_of_some {inode : Mem} {n i : Nat} (h : c.lookup ino = some i) :
    c.touch ino inode n = c.setInode i (paste (c.slot i).inode 0 inode 0 n) := by
  unfold InodeCache.touch
  rw [h]

theorem updateSlot_eq {s : InodeStore} {mem : Option Mem} (hc : s.cache mem = some c) (hino : ino ≠ 0) (inode : Mem)
    (n : Nat) : updateSlot mem s ino inode n = some (c.touch ino inode n) := by
  unfold updateSlot
  cases hs : s.icache with
  | some c₀ =>
    unfold InodeStore.cache at hc
    rw [hs] at hc
    cases hc
    rfl
  | none =>
    dsimp only
    rw [hc]
    unfold InodeStore.cache at hc
    rw [hs] at hc
    obtain ⟨garbage, -, rfl⟩ := Option.map_eq_some_iff.1 hc
    rw [touch_of_none]
    exact List.find?_eq_none.2 fun _ _ h => hino (of_decide_eq_true h).symm

theorem onDisk_store (disk : Disk) {buf winode : Mem} {x : Nat} (hx : x < v.super.inodeSize) :
    v.onDisk (Function.update disk (v.inodePlace ino).1 (paste buf (v.inodePlace ino).2 winode 0 v.super.inodeSize))
      ino x = winode x := by
  unfold onDisk
  rw [Function.update_self, paste_inside (Nat.le_add_right _ _) (by omega)]
  congr 1
  omega

theorem onDisk_beside (hfit : v.super.InodesFit) {disk : Disk} {buf winode : Mem} {n x : Nat}
    (hplace : v.inodePlace n ≠ v.inodePlace ino) (hx : x < v.super.inodeSize) :
    v.onDisk (Function.update disk (v.inodePlace ino).1 (paste buf (v.inodePlace ino).2 winode 0 v.super.inodeSize))
      n x =
      if (v.inodePlace n).1 = (v.inodePlace ino).1 then buf ((v.inodePlace n).2 + x) else v.onDisk disk n x := by
  unfold onDisk
  by_cases hb : (v.inodePlace n).1 = (v.inodePlace ino).1
  · obtain ⟨-, k, hk⟩ := inodePlace_fits hfit n
    obtain ⟨-, l, hl⟩ := inodePlace_fits hfit ino
    have hne : k ≠ l := fun he => hplace (Prod.ext hb (by rw [hk, hl, he]))
    rw [if_pos hb, hb, Function.update_self, paste_outside]
    -- Two multiples of the size of an inode that differ are at least one inode apart.
    rcases Nat.lt_or_gt_of_ne hne with hlt | hlt
    · left
      have hmul : v.super.inodeSize * (k + 1) ≤ v.super.inodeSize * l := Nat.mul_le_mul_left _ hlt
      rw [Nat.mul_succ] at hmul
      omega
    · right
      have hmul : v.super.inodeSize * (l + 1) ≤ v.super.inodeSize * k := Nat.mul_le_mul_left _ hlt
      rw [Nat.mul_succ] at hmul
      omega
  · rw [if_neg hb, Function.update_of_ne hb]

private theorem onDisk_other (hfit : v.super.InodesFit) {buf winode : Mem} {n x : Nat}
    (hplace : v.inodePlace n ≠ v.inodePlace ino)
    (hbuf : ∀ y < v.super.blksize, buf y = disk (v.inodePlace ino).1 y) (hx : x < v.super.inodeSize) :
    v.onDisk (Function.update disk (v.inodePlace ino).1 (paste buf (v.inodePlace ino).2 winode 0 v.super.inodeSize)) n
      x = v.onDisk disk n x := by
  have hn := (inodePlace_fits hfit n).1
  rw [onDisk_beside hfit hplace hx]
  split
  · rename_i hb
    rw [hbuf _ (by omega), onDisk, hb]
  · rfl

/-- The cache and the disk after an inode has been stored.  `old` is what the copy of the inode held before. -/
theorem CacheInv.stored (h : CacheInv v disk c) (hfit : v.super.InodesFit) (hk : v.StoreKeeps c dev ino)
    {inode old winode buf : Mem} {n : Nat} (hvalid : v.TableValid (v.super.groupOfInode ino))
    (hbuf : ∀ y < v.super.blksize, buf y = disk (v.inodePlace ino).1 y)
    (hw : ∀ x < v.super.inodeSize, Plain x → winode x = if x < n then inode x else old x)
    (hold : c.lookup ino ≠ none → ∀ x < v.super.inodeSize, n ≤ x → Plain x → old x = v.onDisk disk ino x) :
    CacheInv v
      (Function.update disk (v.inodePlace ino).1 (paste buf (v.inodePlace ino).2 winode 0 v.super.inodeSize))
      { c.touch ino inode n with
        buffer := paste buf (v.inodePlace ino).2 winode 0 v.super.inodeSize
        block := (v.inodePlace ino).1 } := by
  obtain ⟨-, hapart, -, -⟩ := hk hvalid
  have hsize : (c.touch ino inode n).cacheSize = c.cacheSize := by
    unfold InodeCache.touch
    split <;> rfl
  have hlabel : ∀ i, ((c.touch ino inode n).slot i).ino = (c.slot i).ino := by
    intro i
    cases hl : c.lookup ino with
    | none => rw [touch_of_none hl]
    | some j => rw [touch_of_some hl, setInode_ino]
  refine ⟨by rw [hsize]; exact h.size, fun _ x _ => by rw [Function.update_self], fun i hi h0 => ?_,
    fun i hi h0 => ?_, fun i j hi hj he h0 => ?_⟩
  · dsimp only at hi h0 ⊢
    rw [hsize] at hi
    rw [hlabel] at h0 ⊢
    by_cases hn : (c.slot i).ino = ino
    · -- the slot of the inode itself
      obtain ⟨j, hj⟩ := Option.ne_none_iff_exists'.1 (InodeCache.lookup_ne_none hi hn)
      obtain ⟨hjlt, hjn⟩ := InodeCache.lookup_some hj
      have hij : i = j := h.unique i j hi hjlt (hn.trans hjn.symm) h0
      subst hij
      have hslot := h.slots i hi h0
      rw [hn] at hslot ⊢
      intro x hx hp
      have htouch : ((c.touch ino inode n).slot i).inode = paste (c.slot i).inode 0 inode 0 n := by
        rw [touch_of_some hj]
        exact congrArg InodeSlot.inode (Function.update_self i _ c.slot)
      rw [htouch, onDisk_store disk hx, hw x hx hp]
      by_cases hxn : x < n
      · rw [if_pos hxn, paste_inside (Nat.zero_le x) (by omega), Nat.zero_add, Nat.sub_zero]
      · rw [if_neg hxn, paste_outside (by omega), hslot x hx hp, hold (by simp [hj]) x hx (by omega) hp]
    · have hsame : (c.touch ino inode n).slot i = c.slot i := by
        cases hl : c.lookup ino with
        | none => rw [touch_of_none hl]
        | some j =>
          have hij : i ≠ j := fun he => hn (he ▸ (InodeCache.lookup_some hl).2)
          rw [touch_of_some hl]
          exact Function.update_of_ne hij _ _
      intro x hx hp
      rw [hsame, onDisk_other hfit (hapart i hi h0 hn) hbuf hx]
      exact h.slots i hi h0 x hx hp
  · dsimp only at hi h0 ⊢
    rw [hsize] at hi
    rw [hlabel] at h0 ⊢
    exact h.valid i hi h0
  · dsimp only at hi hj he h0
    rw [hsize] at hi hj
    rw [hlabel, hlabel] at he
    rw [hlabel] at h0
    exact h.unique i j hi hj he h0

/-- The second part of `ext2_update_inode` keeps the invariant, and if it succeeds then the inode is on the disk. -/
theorem StoreResult.inv {disk' : Disk} {r : Except Errno Unit} {inode old winode : Mem} {n : Nat}
    (hr : StoreResult v dev disk ino winode (c.touch ino inode n) c' disk' r) (h : CacheInv v disk c)
    (hfit : v.super.InodesFit) (hino : ino ≠ 0) (hk : v.StoreKeeps c dev ino)
    (hw : ∀ x < v.super.inodeSize, Plain x → winode x = if x < n then inode x else old x)
    (hold : c.lookup ino ≠ none → ∀ x < v.super.inodeSize, n ≤ x → Plain x → old x = v.onDisk disk ino x) :
    CacheInv v disk' c' ∧ (r = .ok () → ∀ x < v.super.inodeSize, v.onDisk disk' ino x = winode x) := by
  have hblock : (c.touch ino inode n).block = c.block := by
    unfold InodeCache.touch
    split <;> rfl
  have hbuffer : (c.touch ino inode n).buffer = c.buffer := by
    unfold InodeCache.touch
    split <;> rfl
  cases hr with
  | refused hvalid =>
    refine ⟨?_, fun he => by cases he⟩
    cases hl : c.lookup ino with
    | none => rwa [touch_of_none hl]
    | some i =>
      obtain ⟨hi, hn⟩ := InodeCache.lookup_some hl
      have hv := h.valid i hi (hn ▸ hino)
      rw [hn] at hv
      exact absurd hv hvalid
  | unread junk hvalid hread hne =>
    refine ⟨?_, fun he => by cases he⟩
    rw [hblock] at hne
    obtain ⟨hharm, hmiss⟩ := (hk hvalid).2.2.1 hne
    rw [touch_of_none (hmiss junk hread)]
    exact h.junk (hharm junk hread)
  | unwritten buf junk hvalid hloads hwrite =>
    unfold InodeCache.Loads at hloads
    rw [hblock] at hloads
    rw [(hk hvalid).2.2.2 hloads] at hwrite
    cases hwrite
  | stored buf buf' hvalid hloads hin hout hbuf =>
    rw [hblock] at hin hout
    rw [hbuffer] at hin
    rw [hbuf]
    exact ⟨h.stored hfit hk hvalid (h.loaded (hk hvalid).1 hin hout) hw hold, fun _ x hx => onDisk_store disk hx⟩

end

/-! ### Runs -/

def StoreInv (v : Volume) (s : InodeStore) : Prop := ∀ c, s.icache = some c → CacheInv v s.disk c

/-- `ext2_read_inode` returns the inode: it is in the cache, or its block can be read and the checksum is right. -/
def Readable (crc : Crc) (v : Volume) (disk : Disk) (c : InodeCache) (read : Nat → Option Mem) (ino : Nat) : Prop :=
  c.lookup ino ≠ none ∨ v.TableValid (v.super.groupOfInode ino) ∧ c.Loads read (v.inodePlace ino).1 ∧
    v.inodeChecksumValid crc ino (v.onDisk disk ino) = true

/-- The disk holds zeros where `ext2_update_inode` stores zeros: after the first 128 bytes, and after those given. -/
def TailZero (v : Volume) (disk : Disk) (ino bufsize : Nat) : Prop :=
  ∀ x < v.super.inodeSize, 128 ≤ x → bufsize ≤ x → Plain x → v.onDisk disk ino x = 0

/-- When `ext2_update_inode` keeps the invariant for an inode of the file system. -/
def UpdateKeeps (crc : Crc) (v : Volume) (disk : Disk) (c : InodeCache) (dev : Device) (ino bufsize : Nat) : Prop :=
  (bufsize < v.super.inodeSize → ReadKeeps crc v disk c dev.read ino) ∧
  ((bufsize < v.super.inodeSize → Readable crc v disk c dev.read ino) →
    v.StoreKeeps c dev ino ∧ (bufsize < v.super.inodeSize → v.TailZero disk ino bufsize))

end Volume

/-- A call, with what the device does, the memory for a cache and whether there is memory for a copy of the inode. -/
inductive InodeOp
  | read (ino : Nat) (read : Nat → Option Mem) (mem : Option Mem)
  | update (ino : Nat) (inode : Mem) (bufsize : Nat) (dev : Device) (mem : Option Mem) (calloc : Bool)

def inodeStep (crc : Crc) (v : Volume) (s : InodeStore) : InodeOp → Option InodeStore
  | .read ino read mem => (v.readInode crc read mem s ino).map Prod.fst
  | .update ino inode bufsize dev mem calloc => (v.updateInode crc dev mem calloc s ino inode bufsize).map Prod.fst

/-- When a call keeps the invariant.  An update that need not read the inode first does not check its number. -/
def InodeOp.Keeps (crc : Crc) (v : Volume) (s : InodeStore) : InodeOp → Prop
  | .read ino io mem => v.HasInode ino → ∀ c, s.cache mem = some c → Volume.ReadKeeps crc v s.disk c io ino
  | .update ino _ bufsize dev mem calloc => v.readOnly = false → calloc = true →
    (v.super.inodeSize ≤ bufsize → v.HasInode ino) ∧
    (v.HasInode ino → ∀ c, s.cache mem = some c → Volume.UpdateKeeps crc v s.disk c dev ino bufsize)

namespace Volume

section

variable {crc : Crc} {v : Volume} {ino : Nat} {disk : Disk} {s : InodeStore} {c c' : InodeCache} {mem : Option Mem}
  {dev : Device} {read : Nat → Option Mem}

theorem StoreInv.cache (h : StoreInv v s) (hc : s.cache mem = some c) : CacheInv v s.disk c := by
  unfold InodeStore.cache at hc
  cases hs : s.icache with
  | some c₀ =>
    rw [hs] at hc
    cases hc
    exact h c hs
  | none =>
    rw [hs] at hc
    obtain ⟨garbage, -, rfl⟩ := Option.map_eq_some_iff.1 hc
    exact .create v s.disk garbage

theorem ReadResult.readable {m : Mem} {r : Except Errno Mem} (hr : ReadResult crc v read disk ino c c' r)
    (hok : r = .ok m) (h : CacheInv v disk c) (hfit : v.super.InodesFit) (hk : ReadKeeps crc v disk c read ino) :
    Readable crc v disk c read ino := by
  cases hr with
  | hit i hl => exact Or.inl (by simp [hl])
  | refused => cases hok
  | unread => cases hok
  | invalid => cases hok
  | filled buf inode hmiss hvalid hloads hin hout hinode hcsum =>
    refine Or.inr ⟨hvalid, hloads, ?_⟩
    rw [← hcsum, hinode]
    exact (inodeChecksumValid_congr crc hfit (h.filled_eq hfit (hk hmiss hvalid).1 hin hout)).symm

private theorem ReadResult.storeKeeps {m : Mem} {r : Except Errno Mem}
    (hr : ReadResult crc v dev.read disk ino c c' r)
    (hok : r = .ok m) (hk : v.StoreKeeps c dev ino) : v.StoreKeeps c' dev ino := by
  cases hr with
  | hit => exact hk
  | refused => cases hok
  | unread => cases hok
  | invalid => cases hok
  | filled buf inode hmiss hvalid hloads hin hout hinode hcsum =>
    intro hv
    obtain ⟨h0, hapart, -, hwrite⟩ := hk hv
    refine ⟨h0, fun i hi hn hne => ?_, fun hb => absurd rfl hb, fun _ => hwrite hloads⟩
    dsimp only at hi hn hne ⊢
    by_cases hik : i = c.next
    · rw [hik, Function.update_self] at hne
      exact absurd rfl hne
    · rw [Function.update_of_ne hik] at hn hne ⊢
      exact hapart i hi hn hne

/-- `ext2_read_inode` keeps the invariant, and returns only the inode that is on the disk. -/
private theorem readInode_spec (hopen : openfs v.super = some (.ok v.groupDescCount))
    (hwf : v.super.inodesCount < 2 ^ 32)
    (read : Nat → Option Mem) (h : StoreInv v s) (hk : (InodeOp.read ino read mem).Keeps crc v s) :
    ∃ s' r, v.readInode crc read mem s ino = some (s', r) ∧ StoreInv v s' ∧ s'.disk = s.disk ∧
      ∀ m, r = .ok m → v.HasInode ino ∧ v.SameInode m (v.onDisk s.disk ino) ∧
        ∃ c c', s.cache mem = some c ∧ s'.icache = some c' ∧ ReadResult crc v read s.disk ino c c' r := by
  by_cases hino : v.HasInode ino
  · cases hc : s.cache mem with
    | none =>
      refine ⟨s, .error .ENOMEM, ?_, h, rfl, fun m hm => by cases hm⟩
      unfold readInode
      rw [if_neg (fun hn => hn.elim hino.1 fun hn => absurd hino.2 (by omega)), hc]
    | some c =>
      obtain ⟨c', r, heq, hr⟩ := readInode_cases crc hopen hwf hino hc read
      have hfit := openfs_inodesFit hopen
      have hci := h.cache hc
      have hkc := hk hino c hc
      refine ⟨_, r, heq, fun c'' hc'' => ?_, rfl, fun m hm => ⟨hino, ?_, c, c', rfl, rfl, hr⟩⟩
      · cases hc''
        exact hr.inv hci hfit hkc
      · exact (hr.returned hm hci hfit hino hkc).1
  · refine ⟨s, .error .EINVAL, ?_, h, rfl, fun m hm => by cases hm⟩
    unfold readInode
    rw [if_pos]
    unfold HasInode at hino
    omega

private theorem storeInode_spec (crc : Crc) (hopen : openfs v.super = some (.ok v.groupDescCount))
    (hwf : v.super.inodesCount < 2 ^ 32) (hc : s.cache mem = some c) (h : CacheInv v s.disk c) (hino : v.HasInode ino)
    (hk : v.StoreKeeps c dev ino) (inode : Mem) {winode : Mem} {bufsize : Nat}
    (hold : c.lookup ino ≠ none → ∀ x < v.super.inodeSize, min bufsize v.super.inodeSize ≤ x → Plain x →
      winode x = v.onDisk s.disk ino x) :
    ∃ s' r, v.storeInode crc dev mem s ino inode bufsize winode = some (s', r) ∧ StoreInv v s' ∧
      (r = .ok () → ∀ x < min bufsize v.super.inodeSize, Plain x → v.onDisk s'.disk ino x = inode x) := by
  have hfit := openfs_inodesFit hopen
  obtain ⟨c', disk', r, heq, hr⟩ := storeInode_cases crc hopen hwf hino inode winode bufsize
    (updateSlot_eq hc hino.1 inode _) dev
  have hw : ∀ x < v.super.inodeSize, Plain x →
      v.inodeChecksumUpdate crc ino (paste winode 0 inode 0 (min bufsize v.super.inodeSize)) x =
        if x < min bufsize v.super.inodeSize then inode x else winode x := by
    intro x _ hp
    rw [inodeChecksumUpdate_plain crc hp]
    by_cases hx : x < min bufsize v.super.inodeSize
    · rw [if_pos hx, paste_inside (Nat.zero_le x) (by omega), Nat.zero_add, Nat.sub_zero]
    · rw [if_neg hx, paste_outside (by omega)]
  obtain ⟨hinv, hdisk⟩ := hr.inv h hfit hino.1 hk hw hold
  refine ⟨_, r, heq, fun c'' hc'' => ?_, fun hok x hx hp => ?_⟩
  · cases hc''
    exact hinv
  · have hxl : x < v.super.inodeSize := by omega
    rw [hdisk hok x hxl, hw x hxl hp, if_pos hx]

/-- `ext2_update_inode` keeps the invariant, and if it succeeds then the inode is on the disk. -/
private theorem updateInode_spec (hopen : openfs v.super = some (.ok v.groupDescCount))
    (hwf : v.super.inodesCount < 2 ^ 32) (h : StoreInv v s) {inode : Mem} {bufsize : Nat} {calloc : Bool}
    (hk : (InodeOp.update ino inode bufsize dev mem calloc).Keeps crc v s) :
    ∃ s' r, v.updateInode crc dev mem calloc s ino inode bufsize = some (s', r) ∧ StoreInv v s' ∧
      (r = .ok () → v.HasInode ino ∧
        ∀ x < min bufsize v.super.inodeSize, Plain x → v.onDisk s'.disk ino x = inode x) := by
  have hfit := openfs_inodesFit hopen
  unfold updateInode
  by_cases hro : v.readOnly = true
  · rw [if_pos hro]
    exact ⟨s, _, rfl, h, fun hr => by cases hr⟩
  rw [if_neg hro]
  by_cases hmem : calloc = true
  · rw [if_neg (not_not.2 hmem)]
    obtain ⟨hrange, hkeep⟩ := hk (by simpa using hro) hmem
    by_cases hsmall : bufsize < v.super.inodeSize
    · rw [if_pos hsmall]
      -- The inode is read first.
      obtain ⟨s₁, r₁, heq, hinv, hdisk, hread⟩ := readInode_spec hopen hwf dev.read h
        (fun hino c hc => (hkeep hino c hc).1 hsmall)
      rw [heq]
      cases r₁ with
      | error e => exact ⟨s₁, _, rfl, hinv, fun hr => by cases hr⟩
      | ok m =>
        obtain ⟨hino, hsame, c, c', hc, hc', hres⟩ := hread m rfl
        have hci := h.cache hc
        obtain ⟨hkr, hku⟩ := hkeep hino c hc
        obtain ⟨hks, htail⟩ := hku fun _ => hres.readable rfl hci hfit (hkr hsmall)
        have hc₁ : s₁.cache mem = some c' := by
          unfold InodeStore.cache
          rw [hc']
        have hold : c'.lookup ino ≠ none → ∀ x < v.super.inodeSize, min bufsize v.super.inodeSize ≤ x → Plain x →
            paste (fun _ => 0) 0 m 0 (min 128 v.super.inodeSize) x = v.onDisk s₁.disk ino x := by
          intro _ x hx hn hp
          rw [hdisk]
          by_cases h128 : x < 128
          · rw [paste_inside (Nat.zero_le x) (by omega), Nat.zero_add, Nat.sub_zero]
            exact hsame x hx hp
          · rw [paste_outside (by omega)]
            exact (htail hsmall x hx (by omega) (by omega) hp).symm
        obtain ⟨s', r, heq', hinv', hstored⟩ := storeInode_spec crc hopen hwf hc₁ (hinv c' hc') hino
          (hres.storeKeeps rfl hks) inode hold
        exact ⟨s', r, heq', hinv', fun hok => ⟨hino, hstored hok⟩⟩
    · rw [if_neg hsmall]
      have hino := hrange (Nat.le_of_not_lt hsmall)
      cases hc : s.cache mem with
      | none =>
        refine ⟨s, .error .ENOMEM, ?_, h, fun hr => by cases hr⟩
        have hnone : s.icache = none := by
          unfold InodeStore.cache at hc
          cases hs : s.icache with
          | none => rfl
          | some c =>
            rw [hs] at hc
            cases hc
        unfold storeInode updateSlot
        dsimp only
        rw [hnone, hc]
      | some c =>
        obtain ⟨-, hku⟩ := hkeep hino c hc
        obtain ⟨hks, -⟩ := hku fun hlt => absurd hlt hsmall
        have hold : c.lookup ino ≠ none → ∀ x < v.super.inodeSize, min bufsize v.super.inodeSize ≤ x → Plain x →
            (fun _ => 0 : Mem) x = v.onDisk s.disk ino x := by
          intro _ x hx hn _
          omega
        obtain ⟨s', r, heq', hinv', hstored⟩ := storeInode_spec crc hopen hwf hc (h.cache hc) hino hks inode hold
        exact ⟨s', r, heq', hinv', fun hok => ⟨hino, hstored hok⟩⟩
  · rw [if_pos hmem]
    exact ⟨s, _, rfl, h, fun hr => by cases hr⟩

end

/-- Each slot with a number holds that inode as it is on the disk, up to the checksum. -/
def Coherent (v : Volume) (s : InodeStore) : Prop :=
  ∀ c, s.icache = some c → ∀ i < c.cacheSize, (c.slot i).ino ≠ 0 →
    v.SameInode (c.slot i).inode (v.onDisk s.disk (c.slot i).ino)

/-- The offset in the table, and the block and the offset in the block that it gives. -/
private theorem inodePlace_eq {v : Volume} (hopen : openfs v.super = some (.ok v.groupDescCount))
    (hwf : v.super.inodesCount < 2 ^ 32) {g : Nat} (hg : g < v.groupDescCount)
    (htop : v.inodeTableLoc g + v.super.inodesPerGroup ≤ 2 ^ 64) {k n : Nat} (hk : k < v.super.inodesPerGroup)
    (hn : n = g * v.super.inodesPerGroup + k + 1) (hle : n ≤ v.super.inodesCount) :
    v.inodePlace n = (v.inodeTableLoc g + k * v.super.inodeSize / v.super.blksize,
      k * v.super.inodeSize % v.super.blksize) := by
  have ho := openfs_ok hopen
  have hfit := openfs_inodesFit hopen
  have hblk := blksize_eq_two_pow v.super
  have hpos : 0 < v.super.blksize := by
    rw [hblk]
    exact Nat.two_pow_pos _
  have hsub : sub64 n 1 = g * v.super.inodesPerGroup + k := by
    rw [sub64_of_le (by omega) (by omega), hn, Nat.add_sub_cancel]
  have hgroup : v.super.groupOfInode n = g := by
    rw [Super.groupOfInode, hsub, Nat.mul_comm, Nat.mul_add_div ho.inodes_pos, Nat.div_eq_of_lt hk, Nat.add_zero,
      Nat.mod_eq_of_lt (Nat.lt_trans hg ho.groups_lt)]
  have hoff : v.inodeOffset n = k * v.super.inodeSize := by
    rw [inodeOffset, hsub, Nat.mul_comm g, Nat.mul_add_mod, Nat.mod_eq_of_lt hk]
  have hsize : v.super.inodeSize ≤ v.super.blksize := Nat.le_of_dvd hpos hfit.dvd
  have hlt : k * v.super.inodeSize / v.super.blksize < v.super.inodesPerGroup := by
    refine Nat.lt_of_le_of_lt ?_ hk
    exact Nat.div_le_of_le_mul (Nat.mul_comm v.super.blksize k ▸ Nat.mul_le_mul_left k hsize)
  unfold inodePlace
  rw [hgroup, hoff, Nat.shiftRight_eq_div_pow, Nat.add_comm v.super.logBlockSize, ← hblk,
    add64_of_lt (by omega), hblk, Nat.and_two_pow_sub_one_eq_mod]

/-- Different inodes have different places if no block number overflows and the tables of the groups do not
overlap. -/
theorem inodePlace_ne {v : Volume} (hopen : openfs v.super = some (.ok v.groupDescCount))
    (hwf : v.super.inodesCount < 2 ^ 32)
    (htop : ∀ g < v.groupDescCount, v.inodeTableLoc g + v.super.inodesPerGroup ≤ 2 ^ 64)
    (hapart : ∀ g g', g < v.groupDescCount → g' < v.groupDescCount → g ≠ g' → ∀ k k',
      k * v.super.blksize < v.super.inodesPerGroup * v.super.inodeSize →
      k' * v.super.blksize < v.super.inodesPerGroup * v.super.inodeSize →
      v.inodeTableLoc g + k ≠ v.inodeTableLoc g' + k')
    {n m : Nat} (hn : v.HasInode n) (hm : v.HasInode m) (hne : n ≠ m) : v.inodePlace n ≠ v.inodePlace m := by
  have ho := openfs_ok hopen
  have hfit := openfs_inodesFit hopen
  have hsize : 0 < v.super.inodeSize := Nat.lt_of_lt_of_le (by decide) hfit.size
  have hsplit : ∀ n, v.HasInode n → ∃ g k, g < v.groupDescCount ∧ k < v.super.inodesPerGroup ∧
      n = g * v.super.inodesPerGroup + k + 1 := by
    intro n ⟨h0, hle⟩
    refine ⟨(n - 1) / v.super.inodesPerGroup, (n - 1) % v.super.inodesPerGroup, ?_, Nat.mod_lt _ ho.inodes_pos, ?_⟩
    · rw [Nat.div_lt_iff_lt_mul ho.inodes_pos, ho.inodes]
      omega
    · rw [Nat.div_add_mod']
      omega
  have hinside : ∀ k < v.super.inodesPerGroup, k * v.super.inodeSize / v.super.blksize * v.super.blksize <
      v.super.inodesPerGroup * v.super.inodeSize := fun k hk =>
    Nat.lt_of_le_of_lt (Nat.div_mul_le_self _ _) (Nat.mul_lt_mul_of_pos_right hk hsize)
  obtain ⟨g, k, hg, hk, hnk⟩ := hsplit n hn
  obtain ⟨g', k', hg', hk', hmk⟩ := hsplit m hm
  rw [inodePlace_eq hopen hwf hg (htop g hg) hk hnk hn.2, inodePlace_eq hopen hwf hg' (htop g' hg') hk' hmk hm.2]
  intro he
  obtain ⟨hblock, hoff⟩ := Prod.mk.inj he
  by_cases hgg : g = g'
  · subst hgg
    have hdiv : k * v.super.inodeSize / v.super.blksize = k' * v.super.inodeSize / v.super.blksize := by omega
    have hmul : k * v.super.inodeSize = k' * v.super.inodeSize := by
      rw [← Nat.div_add_mod (k * v.super.inodeSize) v.super.blksize, hdiv, hoff, Nat.div_add_mod]
    have hkk : k = k' := Nat.eq_of_mul_eq_mul_right hsize hmul
    omega
  · exact hapart g g' hg hg' hgg _ _ (hinside k hk) (hinside k' hk') hblock

/-- In every run of calls that keep the invariant, every state is coherent; `ext2_read_inode` returns the inode that
is on the disk, and after a successful `ext2_update_inode` it returns the inode that was given. -/
theorem inode_cache_coherent (crc : Crc) {v : Volume} (hopen : openfs v.super = some (.ok v.groupDescCount))
    (hwf : v.super.inodesCount < 2 ^ 32) (disk : Disk) {ops : List InodeOp}
    (hops : Machine.Meets (inodeStep crc v) (fun s op => op.Keeps crc v s) ops ⟨disk, none⟩) :
    ∀ p, p <+: ops → ∃ s, Machine.run (inodeStep crc v) p ⟨disk, none⟩ = some s ∧ v.Coherent s ∧
      (∀ ino read mem s' m, (InodeOp.read ino read mem).Keeps crc v s →
        v.readInode crc read mem s ino = some (s', .ok m) → v.SameInode m (v.onDisk s.disk ino)) ∧
      ∀ ino inode bufsize dev mem calloc s', (InodeOp.update ino inode bufsize dev mem calloc).Keeps crc v s →
        v.updateInode crc dev mem calloc s ino inode bufsize = some (s', .ok ()) →
        v.Coherent s' ∧ ∀ read mem' s'' m, (InodeOp.read ino read mem').Keeps crc v s' →
          v.readInode crc read mem' s' ino = some (s'', .ok m) →
          ∀ x < min bufsize v.super.inodeSize, Plain x → m x = inode x := by
  have hstep : ∀ s op, StoreInv v s → op.Keeps crc v s → ∃ s', inodeStep crc v s op = some s' ∧ StoreInv v s' := by
    intro s op h hk
    cases op with
    | read ino read mem =>
      obtain ⟨s', r, heq, hinv, -⟩ := readInode_spec hopen hwf read h hk
      exact ⟨s', by rw [inodeStep, heq, Option.map_some], hinv⟩
    | update ino inode bufsize dev mem calloc =>
      obtain ⟨s', r, heq, hinv, -⟩ := updateInode_spec hopen hwf h hk
      exact ⟨s', by rw [inodeStep, heq, Option.map_some], hinv⟩
  have hread : ∀ s, StoreInv v s → ∀ ino read mem s' m, (InodeOp.read ino read mem).Keeps crc v s →
      v.readInode crc read mem s ino = some (s', .ok m) → v.SameInode m (v.onDisk s.disk ino) := by
    intro s h ino read mem s' m hk heq
    obtain ⟨s₁, r, heq', -, -, hret⟩ := readInode_spec hopen hwf read h hk
    rw [heq, Option.some.injEq, Prod.mk.injEq] at heq'
    exact (hret m heq'.2.symm).2.1
  have hcoh : ∀ s, StoreInv v s → v.Coherent s := fun s h c hc i hi h0 => (h c hc).slots i hi h0
  intro p hp
  obtain ⟨s, hrun, hinv⟩ := hops.reaches hstep (fun c hc => by cases hc) p hp
  refine ⟨s, hrun, hcoh s hinv, hread s hinv, ?_⟩
  intro ino inode bufsize dev mem calloc s' hk heq
  obtain ⟨s₁, r, heq', hinv', hret⟩ := updateInode_spec hopen hwf hinv hk
  rw [heq, Option.some.injEq, Prod.mk.injEq] at heq'
  obtain ⟨rfl, rfl⟩ := heq'
  refine ⟨hcoh s' hinv', fun read mem' s'' m hk' heq'' x hx hp => ?_⟩
  rw [hread s' hinv' ino read mem' s'' m hk' heq'' x (by omega) hp]
  exact (hret rfl).2 x hx hp

end Volume

def tableVolume : Volume := { smallVolume with groupDesc := writeLE smallVolume.groupDesc 8 4 2 }

def goodMemory : Option Mem := some fun _ => 0

def goodDevice : Device := ⟨fun _ => none, fun _ => none⟩

def writeRead : List InodeOp :=
  [.update 1 (fun _ => 7) 128 goodDevice goodMemory true, .read 1 goodDevice.read goodMemory]

private theorem writeRead_keeps :
    Machine.Meets (inodeStep zeroCrc tableVolume) (fun s op => op.Keeps zeroCrc tableVolume s)
    writeRead ⟨fun _ _ => 0, none⟩ := by
  refine ⟨fun _ _ =>
    ⟨fun _ => ⟨by decide, by decide⟩, fun _ c hc => ⟨fun h => absurd h (by decide), fun _ => ⟨fun _ => ?_, ?_⟩⟩⟩,
    fun s hs => ⟨fun _ c _ _ _ => ⟨by decide, fun _ _ h => (by cases h), fun _ => Or.inl rfl⟩, fun _ _ => trivial⟩⟩
  · cases hc
    exact ⟨by decide, fun i _ h0 => absurd rfl h0, fun _ => ⟨fun _ h => (by cases h), fun _ h => (by cases h)⟩,
      fun _ => rfl⟩
  · exact fun h => absurd h (by decide)

/-- On a device without failures the cache is coherent after both calls. -/
theorem inode_cache_coherent_small : ∃ s,
    Machine.run (inodeStep zeroCrc tableVolume) writeRead ⟨fun _ _ => 0, none⟩ = some s ∧ tableVolume.Coherent s := by
  obtain ⟨s, hrun, hcoh, -⟩ := Volume.inode_cache_coherent zeroCrc (by decide) (by decide) (fun _ _ => 0)
    writeRead_keeps writeRead (List.prefix_refl _)
  exact ⟨s, hrun, hcoh⟩

def csumTableVolume : Volume := { tableVolume with super := { tableVolume.super with metadataCsum := true } }

def spoiledDisk : Disk := fun b x => if b = 2 ∧ x = 512 then 7 else if b = 2 ∧ x = 636 then 1 else 0

/-- After the slots have been filled, a read that finds a bad checksum leaves the inode 5 in the slot of inode 1. -/
theorem bad_checksum_not_coherent :
    ¬ ∀ ops s, Machine.run (inodeStep zeroCrc csumTableVolume) ops ⟨spoiledDisk, none⟩ = some s →
      csumTableVolume.Coherent s := by
  intro h
  have hrun : ((Machine.run (inodeStep zeroCrc csumTableVolume)
      ([1, 2, 3, 4, 5].map fun ino => .read ino goodDevice.read goodMemory) ⟨spoiledDisk, none⟩).bind
        fun s => s.icache.map fun c => (c.cacheSize, (c.slot 0).ino, (c.slot 0).inode 0, s.disk 2 0)) =
      some (4, 1, 7, 0) := by decide
  obtain ⟨s, hs, hmap⟩ := Option.bind_eq_some_iff.1 hrun
  obtain ⟨c, hc, hslot⟩ := Option.map_eq_some_iff.1 hmap
  simp only [Prod.mk.injEq] at hslot
  obtain ⟨hsize, hino, hbyte, hdisk⟩ := hslot
  have hplace : csumTableVolume.inodePlace 1 = (2, 0) := by decide
  have hsame := h _ s hs c hc 0 (by omega) (by omega) 0 (by decide) (Or.inl (by decide))
  rw [hino, hbyte, Volume.onDisk, hplace, hdisk] at hsame
  exact absurd hsame (by decide)

end Pml.Ext2
