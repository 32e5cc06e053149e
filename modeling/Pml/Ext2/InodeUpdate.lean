import Pml.Ext2.InodeCoherence

/-!
# What an update of an inode stores (`ext2_update_inode`)

`ext2_update_inode` with 128 bytes of an inode is meant to keep the rest of a larger inode: it reads the inode first.
But `ext2_read_inode` gives back 128 bytes, so that zeros are stored after them.  The other inodes of the block are
written back from the buffer.  `updateInode_only_iff` says when an update changes nothing but the bytes that it is
given.
-/

namespace Pml.Ext2

open ByteMemory

namespace Volume

/-- The disk after an update: the inode begins with the given 128 bytes, the rest of it and the other inodes are as
they were, up to the checksum. -/
structure UpdatesOnly (v : Volume) (disk disk' : Disk) (ino : Nat) (inode : Mem) : Prop where
  given : ∀ x < 128, Plain x → v.onDisk disk' ino x = inode x
  rest : ∀ x < v.super.inodeSize, 128 ≤ x → Plain x → v.onDisk disk' ino x = v.onDisk disk ino x
  others : ∀ j, v.HasInode j → j ≠ ino → ∀ x < v.super.inodeSize, v.onDisk disk' j x = v.onDisk disk j x

/-- If the block of the inode is in the buffer, then the buffer holds the other inodes of that block. -/
def BufferHolds (v : Volume) (s : InodeStore) (mem : Option Mem) (ino : Nat) : Prop :=
  ∀ c, s.cache mem = some c → c.block = (v.inodePlace ino).1 →
    ∀ j, v.HasInode j → j ≠ ino → (v.inodePlace j).1 = (v.inodePlace ino).1 →
      ∀ x < v.super.inodeSize, c.buffer ((v.inodePlace j).2 + x) = v.onDisk s.disk j x

section

variable {crc : Crc} {v : Volume} {ino : Nat} {s s' : InodeStore} {c c' : InodeCache} {mem : Option Mem}
    {dev : Device}

private theorem StoreInv.bufferHolds (h : StoreInv v s) (hfit : v.super.InodesFit) (h0 : (v.inodePlace ino).1 ≠ 0) :
    v.BufferHolds s mem ino := by
  intro c hc hb j _ _ hj x hx
  have hplace := (inodePlace_fits hfit j).1
  rw [(h.cache hc).buffer (hb ▸ h0) _ (by omega), hb, onDisk, hj]

private theorem touch_buffer {inode : Mem} {n : Nat} :
    (c.touch ino inode n).buffer = c.buffer ∧ (c.touch ino inode n).block = c.block := by
  unfold InodeCache.touch
  split
  · exact ⟨rfl, rfl⟩
  · exact ⟨rfl, rfl⟩

/-- The buffer that is written holds the block: it was in the cache, or it has been read. -/
def Buffered (v : Volume) (disk : Disk) (ino : Nat) (c : InodeCache) (buf : Mem) : Prop :=
  ((v.inodePlace ino).1 = c.block → buf = c.buffer) ∧
    ((v.inodePlace ino).1 ≠ c.block → buf = disk (v.inodePlace ino).1)

private theorem ReadResult.buffered {read : Nat → Option Mem} {disk : Disk} {m buf : Mem}
    (hr : ReadResult crc v read disk ino c c' (.ok m)) (hbuf : v.Buffered disk ino c' buf) :
    v.Buffered disk ino c buf := by
  cases hr with
  | hit => exact hbuf
  | filled buf' inode hmiss hvalid hloads hin hout hinode hcsum =>
    have heq : buf = buf' := hbuf.1 rfl
    exact ⟨fun h => heq.trans (hin h), fun h => heq.trans (hout h)⟩

section

variable (hopen : openfs v.super = some (.ok v.groupDescCount)) (hwf : v.super.inodesCount < 2 ^ 32)
  (hino : v.HasInode ino)
include hopen hwf hino

theorem readInode_ok {read : Nat → Option Mem} {m : Mem} (h : v.readInode crc read mem s ino = some (s', .ok m)) :
    ∃ c c', s.cache mem = some c ∧ s' = ⟨s.disk, some c'⟩ ∧ ReadResult crc v read s.disk ino c c' (.ok m) := by
  cases hc : s.cache mem with
  | none =>
    unfold readInode at h
    rw [if_neg (fun hn => hn.elim hino.1 fun hn => absurd hino.2 (by omega)), hc] at h
    cases h
  | some c =>
    obtain ⟨c', r, heq, hr⟩ := readInode_cases crc hopen hwf hino hc read
    rw [h] at heq
    cases heq
    exact ⟨c, c', rfl, rfl, hr⟩

/-- The second part of a successful update has written the block with the inode in it. -/
private theorem storeInode_ok {inode winode : Mem} {bufsize : Nat}
    (h : v.storeInode crc dev mem s ino inode bufsize winode = some (s', .ok ())) :
    ∃ c buf, s.cache mem = some c ∧ v.Buffered s.disk ino c buf ∧
      s'.disk = Function.update s.disk (v.inodePlace ino).1 (paste buf (v.inodePlace ino).2
        (v.inodeChecksumUpdate crc ino (paste winode 0 inode 0 (min bufsize v.super.inodeSize))) 0
        v.super.inodeSize) := by
  cases hc : s.cache mem with
  | none =>
    have hnone : s.icache = none := by
      unfold InodeStore.cache at hc
      cases hs : s.icache with
      | none => rfl
      | some c =>
        rw [hs] at hc
        cases hc
    unfold storeInode updateSlot at h
    dsimp only at h
    rw [hnone, hc] at h
    cases h
  | some c =>
    obtain ⟨c', disk', r, heq, hr⟩ := storeInode_cases crc hopen hwf hino inode winode bufsize
      (updateSlot_eq hc hino.1 inode _) dev
    rw [h] at heq
    cases heq
    cases hr with
    | stored buf buf' hvalid hloads hin hout hbuf =>
      obtain ⟨htb, htn⟩ := @touch_buffer ino c inode (min bufsize v.super.inodeSize)
      rw [htb, htn] at hin
      rw [htn] at hout
      exact ⟨c, buf, rfl, ⟨hin, hout⟩, by rw [hbuf]⟩

/-- A successful update with 128 bytes has written the block, with these bytes and zeros after them in the inode. -/
private theorem updateInode_ok {inode : Mem} {calloc : Bool}
    (h : v.updateInode crc dev mem calloc s ino inode 128 = some (s', .ok ())) :
    ∃ c buf winode, s.cache mem = some c ∧ v.Buffered s.disk ino c buf ∧
      s'.disk = Function.update s.disk (v.inodePlace ino).1
      (paste buf (v.inodePlace ino).2 winode 0 v.super.inodeSize) ∧
      ∀ x < v.super.inodeSize, Plain x → winode x = if x < 128 then inode x else 0 := by
  have hsize := (openfs_inodesFit hopen).size
  have hmin : min 128 v.super.inodeSize = 128 := Nat.min_eq_left hsize
  -- what is read does not matter: the given bytes replace it
  have hw : ∀ {old : Mem}, (∀ x < v.super.inodeSize, 128 ≤ x → old x = 0) → ∀ x < v.super.inodeSize, Plain x →
      v.inodeChecksumUpdate crc ino (paste old 0 inode 0 (min 128 v.super.inodeSize)) x =
        if x < 128 then inode x else 0 := by
    intro old hold x hx hp
    rw [inodeChecksumUpdate_plain crc hp, hmin]
    split
    · rw [paste_inside (Nat.zero_le x) (by omega), Nat.zero_add, Nat.sub_zero]
    · rw [paste_outside (by omega), hold x hx (by omega)]
  unfold updateInode at h
  split at h
  · cases h
  split at h
  · cases h
  split at h
  · split at h
    · cases h
    · cases h
    · rename_i s₁ m hread
      obtain ⟨c, c₁, hc, rfl, hr⟩ := readInode_ok hopen hwf hino hread
      obtain ⟨c₂, buf, hc₂, hbuf, hdisk⟩ := storeInode_ok hopen hwf hino h
      cases hc₂
      refine ⟨c, buf, _, hc, hr.buffered hbuf, hdisk, hw fun x _ hx => ?_⟩
      rw [hmin, paste_outside (by omega)]
  · obtain ⟨c, buf, hc, hbuf, hdisk⟩ := storeInode_ok hopen hwf hino h
    exact ⟨c, buf, _, hc, hbuf, hdisk, hw fun x _ _ => rfl⟩

/-- A successful update with 128 bytes changes nothing but these bytes if and only if the rest of the inode was zero,
and the buffer, if it had the block, held the other inodes of the block. -/
theorem updateInode_only_iff (hplaces : ∀ n m, v.HasInode n → v.HasInode m → n ≠ m → v.inodePlace n ≠ v.inodePlace m)
    {inode : Mem} {calloc : Bool} (h : v.updateInode crc dev mem calloc s ino inode 128 = some (s', .ok ())) :
    v.UpdatesOnly s.disk s'.disk ino inode ↔ v.TailZero s.disk ino 128 ∧ v.BufferHolds s mem ino := by
  have hfit := openfs_inodesFit hopen
  obtain ⟨c, buf, winode, hc, ⟨hin, hout⟩, hdisk, hw⟩ := updateInode_ok hopen hwf hino h
  have hself : ∀ x < v.super.inodeSize, Plain x → v.onDisk s'.disk ino x = if x < 128 then inode x else 0 := by
    intro x hx hp
    rw [hdisk, onDisk_store _ hx, hw x hx hp]
  have hother : ∀ j, v.HasInode j → j ≠ ino → ∀ x < v.super.inodeSize, v.onDisk s'.disk j x =
      if (v.inodePlace j).1 = (v.inodePlace ino).1 then buf ((v.inodePlace j).2 + x) else v.onDisk s.disk j x := by
    intro j hj hne x hx
    rw [hdisk, onDisk_beside hfit (hplaces j ino hj hino hne) hx]
  constructor
  · intro hu
    refine ⟨fun x hx h128 _ hp => ?_, fun c' hc' hb j hj hne hsame x hx => ?_⟩
    · rw [← hu.rest x hx h128 hp, hself x hx hp, if_neg (by omega)]
    · rw [hc] at hc'
      cases hc'
      rw [← hu.others j hj hne x hx, hother j hj hne x hx, if_pos hsame, hin hb.symm]
  · rintro ⟨htail, hbuf⟩
    refine ⟨fun x hx hp => ?_, fun x hx h128 hp => ?_, fun j hj hne x hx => ?_⟩
    · have hsize := hfit.size
      rw [hself x (by omega) hp, if_pos hx]
    · rw [hself x hx hp, if_neg (by omega), htail x hx h128 h128 hp]
    · rw [hother j hj hne x hx]
      split
      · rename_i hsame
        by_cases hb : (v.inodePlace ino).1 = c.block
        · rw [hin hb]
          exact hbuf c hc hb.symm j hj hne hsame x hx
        · rw [hout hb, onDisk, hsame]
      · rfl

end

/-! ### What is read afterwards -/

def ReadsAs (crc : Crc) (v : Volume) (s : InodeStore) (ino : Nat) (m : Mem) : Prop :=
  ∀ read mem s' m', v.readInode crc read mem s ino = some (s', .ok m') → ∀ x < 128, Plain x → m' x = m x

private theorem ReadResult.of_lookup {read : Nat → Option Mem} {disk : Disk} {m : Mem} {i : Nat}
    (hr : ReadResult crc v read disk ino c c' (.ok m)) (h : c.lookup ino = some i) : m = (c.slot i).inode := by
  cases hr with
  | hit j hj =>
    rw [h] at hj
    cases hj
    rfl
  | filled buf inode hmiss =>
    rw [hmiss] at h
    cases h

private theorem lookup_congr (hsize : c'.cacheSize = c.cacheSize) (hslot : ∀ i, (c'.slot i).ino = (c.slot i).ino) :
    c'.lookup ino = c.lookup ino := by
  unfold InodeCache.lookup
  simp only [hsize, hslot]

private theorem lookup_filled (hmiss : c.lookup ino = none) (hsize : 0 < c.cacheSize) (buf inode : Mem) (b : Nat)
    (last : Int) : ({ c with
        buffer := buf
        block := b
        cacheLast := last
        slot := Function.update c.slot c.next ⟨ino, inode⟩ } : InodeCache).lookup ino = some c.next := by
  generalize hd : ({ c with
        buffer := buf
        block := b
        cacheLast := last
        slot := Function.update c.slot c.next ⟨ino, inode⟩ } : InodeCache) = d
  have hslot : d.slot = Function.update c.slot c.next ⟨ino, inode⟩ := by rw [← hd]
  have hcount : d.cacheSize = c.cacheSize := by rw [← hd]
  have hnext := InodeCache.next_lt hsize
  have hself : (d.slot c.next).ino = ino := by rw [hslot, Function.update_self]
  obtain ⟨k, hk⟩ := Option.ne_none_iff_exists'.1 (InodeCache.lookup_ne_none (hcount ▸ hnext) hself)
  obtain ⟨hlt, hnum⟩ := InodeCache.lookup_some hk
  by_cases hne : k = c.next
  · rw [hk, hne]
  · rw [hslot, Function.update_of_ne hne] at hnum
    exact absurd hnum (InodeCache.lookup_none hmiss (hcount ▸ hlt))

section

variable (hopen : openfs v.super = some (.ok v.groupDescCount)) (hwf : v.super.inodesCount < 2 ^ 32)
  (hino : v.HasInode ino)
include hopen hwf hino

theorem readInode_readsAs (hslots : ∀ c, s.cache mem = some c → 0 < c.cacheSize) {read : Nat → Option Mem} {m : Mem}
    (h : v.readInode crc read mem s ino = some (s', .ok m)) : ReadsAs crc v s' ino m := by
  obtain ⟨c, c', hc, rfl, hr⟩ := readInode_ok hopen hwf hino h
  intro read' mem' s'' m' h' x _ _
  obtain ⟨d, d', hd, -, hr'⟩ := readInode_ok hopen hwf hino h'
  cases hd
  cases hr with
  | hit i hi => rw [hr'.of_lookup hi]
  | filled buf inode hmiss =>
    rw [hr'.of_lookup (lookup_filled hmiss (hslots c hc) _ _ _ _)]
    dsimp only
    rw [Function.update_self]

private theorem storeInode_readsAs {inode winode : Mem} {bufsize : Nat} (hbuf : 128 ≤ bufsize)
    (h : v.storeInode crc dev mem s ino inode bufsize winode = some (s', .ok ())) : ReadsAs crc v s' ino inode := by
  have hsize := (openfs_inodesFit hopen).size
  have hmin : 128 ≤ min bufsize v.super.inodeSize := Nat.le_min.2 ⟨hbuf, hsize⟩
  obtain ⟨c, -, hc, -, -⟩ := storeInode_ok hopen hwf hino h
  obtain ⟨c', disk', r, heq, hr⟩ := storeInode_cases crc hopen hwf hino inode winode bufsize
    (updateSlot_eq hc hino.1 inode _) dev
  rw [h] at heq
  cases heq
  generalize min bufsize v.super.inodeSize = n at hr hmin
  intro read mem' s'' m' h' x hx hp
  obtain ⟨d, d', hd, -, hr'⟩ := readInode_ok hopen hwf hino h'
  cases hd
  cases hr with
  | stored buf buf' hvalid hloads hin hout hstore =>
    cases hl : c.lookup ino with
    | some i =>
      rw [touch_of_some hl] at hr'
      have hfound : ({ c.setInode i (paste (c.slot i).inode 0 inode 0 n) with
          buffer := buf'
          block := (v.inodePlace ino).1 } : InodeCache).lookup ino = some i := by
        rw [← hl]
        exact lookup_congr rfl fun j => setInode_ino c i j _
      rw [hr'.of_lookup hfound]
      dsimp only [InodeCache.setInode]
      rw [Function.update_self]
      dsimp only
      rw [paste_inside (Nat.zero_le x) (by omega), Nat.zero_add, Nat.sub_zero]
    | none =>
      rw [touch_of_none hl] at hr'
      cases hr' with
      | hit i hi =>
        cases hl.symm.trans ((lookup_congr rfl fun _ => rfl).trans hi)
      | filled buf₂ inode₂ hmiss₂ hvalid₂ hloads₂ hin₂ hout₂ hinode₂ =>
        rw [hinode₂, paste_inside (Nat.zero_le x) (by omega), Nat.sub_zero, hin₂ rfl]
        dsimp only
        rw [hstore, paste_inside (Nat.le_add_right _ _) (by omega), Nat.zero_add, Nat.add_sub_cancel_left,
          inodeChecksumUpdate_plain crc hp, paste_inside (Nat.zero_le x) (by omega), Nat.zero_add, Nat.sub_zero]

theorem updateInode_readsAs {inode : Mem} {calloc : Bool} {bufsize : Nat} (hbuf : 128 ≤ bufsize)
    (h : v.updateInode crc dev mem calloc s ino inode bufsize = some (s', .ok ())) : ReadsAs crc v s' ino inode := by
  unfold updateInode at h
  split at h
  · cases h
  split at h
  · cases h
  split at h
  · split at h
    · cases h
    · cases h
    · exact storeInode_readsAs hopen hwf hino hbuf h
  · exact storeInode_readsAs hopen hwf hino hbuf h

omit hwf hino in
private theorem readInode_congr {disk : Disk} (hdisk : disk (v.inodePlace ino).1 = s.disk (v.inodePlace ino).1)
    (read : Nat → Option Mem) : v.readInode crc read mem { s with disk } ino =
      (v.readInode crc read mem s ino).map fun r => ({ r.1 with disk }, r.2) := by
  have hfit := openfs_inodesFit hopen
  have hplace := inodePlace_fits hfit ino
  have hlen : 0 < v.super.inodeSize := Nat.lt_of_lt_of_le (by decide) hfit.size
  have hload : ∀ c : InodeCache, c.load read disk (v.inodePlace ino).1 = c.load read s.disk (v.inodePlace ino).1 := by
    intro c
    unfold InodeCache.load
    rw [hdisk]
  have hcache : ({ s with disk } : InodeStore).cache mem = s.cache mem := rfl
  unfold readInode
  rw [hcache]
  split
  · rfl
  cases s.cache mem with
  | none => rfl
  | some c =>
    dsimp only
    cases c.lookup ino with
    | some i => rfl
    | none =>
      dsimp only
      split
      · rfl
      split
      · rfl
      split
      · rfl
      rw [InodeCache.fillSlot_eq hlen hplace.1, InodeCache.fillSlot_eq hlen hplace.1, hload]
      rcases c.load read s.disk (v.inodePlace ino).1 with ⟨c', ok⟩
      cases ok with
      | false => rfl
      | true =>
        simp only [if_true]
        split
        · rfl
        · rfl

omit hwf hino in
theorem ReadsAs.store {m : Mem} {b : Nat} (h : ReadsAs crc v s ino m) (hb : b ≠ (v.inodePlace ino).1) (data : Mem) :
    ReadsAs crc v { s with disk := Function.update s.disk b data } ino m := by
  intro read mem' s' m' h' x hx hp
  rw [readInode_congr hopen (Function.update_of_ne hb.symm _ _)] at h'
  obtain ⟨⟨s₁, r⟩, hread, heq⟩ := Option.map_eq_some_iff.1 h'
  cases heq
  exact h read mem' s₁ m' hread x hx hp

end

end

end Volume

def largeVolume : Volume :=
  { tableVolume with super := { tableVolume.super with oldRev := false, inodeSizeField := 256 } }

private theorem largeVolume_places : ∀ n m, largeVolume.HasInode n → largeVolume.HasInode m → n ≠ m →
    largeVolume.inodePlace n ≠ largeVolume.inodePlace m := by
  intro n m hn hm hne
  refine Volume.inodePlace_ne (by decide) (by decide) (by decide) ?_ hn hm hne
  intro g g' hg hg' hgg
  have h1 : g < 1 := hg
  have h2 : g' < 1 := hg'
  omega

/-- Inode 1 of an empty disk is written. -/
theorem updateInode_only_small : ∃ s', largeVolume.updateInode zeroCrc goodDevice goodMemory true
    ⟨fun _ _ => 0, none⟩ 1
    (fun _ => 7) 128 = some (s', .ok ()) ∧ largeVolume.UpdatesOnly (fun _ _ => 0) s'.disk 1 fun _ => 7 := by
  have hrun :
    ((largeVolume.updateInode zeroCrc goodDevice goodMemory true ⟨fun _ _ => 0, none⟩ 1 (fun _ => 7) 128).map
      Prod.snd) = some (.ok ()) := by decide
  obtain ⟨⟨s', r⟩, hcall, hr⟩ := Option.map_eq_some_iff.1 hrun
  dsimp only at hr
  rw [hr] at hcall
  have hopen : openfs largeVolume.super = some (.ok largeVolume.groupDescCount) := by decide
  have hbuf : largeVolume.BufferHolds ⟨fun _ _ => 0, none⟩ goodMemory 1 :=
    Volume.StoreInv.bufferHolds (fun c hc => by cases hc) (openfs_inodesFit hopen) (by decide)
  exact ⟨s', hcall, (Volume.updateInode_only_iff hopen (by decide) ⟨by decide, by decide⟩ largeVolume_places hcall).2
    ⟨fun _ _ _ _ _ => rfl, hbuf⟩⟩

/-- The byte 140 of inode 1 is 5 on the disk, and 0 after an update with 128 bytes. -/
theorem not_updateInode_only : ∃ disk s', largeVolume.updateInode zeroCrc goodDevice goodMemory true ⟨disk, none⟩ 1
    (fun _ => 7) 128 = some (s', .ok ()) ∧ ¬largeVolume.UpdatesOnly disk s'.disk 1 fun _ => 7 := by
  refine ⟨fun b x => if b = 2 ∧ x = 140 then 5 else 0, ?_⟩
  have hrun :
    ((largeVolume.updateInode zeroCrc goodDevice goodMemory true ⟨fun b x => if b = 2 ∧ x = 140 then 5 else 0, none⟩
      1 (fun _ => 7) 128).map fun r => (r.2, r.1.disk 2 140)) = some (.ok (), 0) := by decide
  obtain ⟨⟨s', r⟩, hcall, hr⟩ := Option.map_eq_some_iff.1 hrun
  simp only [Prod.mk.injEq] at hr
  obtain ⟨rfl, hbyte⟩ := hr
  refine ⟨s', hcall, fun hu => ?_⟩
  have hplace : largeVolume.inodePlace 1 = (2, 0) := by decide
  have hrest := hu.rest 140 (by decide) (by decide) (Or.inr (Or.inr (by decide)))
  rw [Volume.onDisk, hplace, hbyte] at hrest
  exact absurd hrest (by decide)

end Pml.Ext2
