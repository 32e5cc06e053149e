import Mathlib.Order.Interval.Set.LinearOrder
import Pml.Drivers.Ata

/-!
# The bytes of a request to a block device (`ata_device_read`, `ata_device_write`)

On a drive that has the sectors of the partition and reports no error, a request inside the partition transfers
exactly its bytes (`ata_device_exact`).  The bytes are transferred in up to three parts, each of which is a range of
the caller's buffer; the relation between the states before and after is stated for the set of bytes that have been
transferred, so that the parts are put together by a union.
-/

namespace Pml.Drivers

/-- The drive has the sectors of the partition, and its commands succeed. -/
structure AtaDevice.Serves (dev : AtaDevice) (data : DiskDeviceData) : Prop where
  present : dev.present = true
  fault : ∀ n, dev.fault n = none
  holds : ∀ s, data.HasByteIn s → s < dev.size

/-- The bytes of the caller's buffer at the offsets have been read from the disk, from the byte `base` on. -/
structure Delivered (base : Nat) (s : Set Nat) (st st' : AtaState) : Prop where
  disk : st'.disk = st.disk
  copied : ∀ i ∈ s, st'.user i = st.disk (base + i)
  kept : ∀ i ∉ s, st'.user i = st.user i

/-- They have been written there. -/
structure Replaced (base : Nat) (s : Set Nat) (st st' : AtaState) : Prop where
  user : st'.user = st.user
  copied : ∀ i ∈ s, st'.disk (base + i) = st.user i
  kept : ∀ a, (∀ i ∈ s, a ≠ base + i) → st'.disk a = st.disk a

/-- A relation between the states before and after the transfer of a set of bytes, which can be put together. -/
structure Composes (To : Set Nat → AtaState → AtaState → Prop) : Prop where
  nil : ∀ st, To ∅ st st
  union : ∀ {s t st st' st''}, To s st st' → To t st' st'' → To (s ∪ t) st st''

private theorem delivered_composes (base : Nat) : Composes (Delivered base) where
  nil _ := ⟨rfl, fun _ hi => absurd hi (Set.notMem_empty _), fun _ _ => rfl⟩
  union {s t st st' st''} h h' := by
    refine ⟨h'.disk.trans h.disk, fun i hi => ?_, fun i hi => ?_⟩
    · by_cases hit : i ∈ t
      · rw [h'.copied i hit, h.disk]
      · rw [h'.kept i hit]
        exact h.copied i (hi.resolve_right hit)
    · rw [h'.kept i fun hit => hi (Or.inr hit), h.kept i fun his => hi (Or.inl his)]

private theorem replaced_composes (base : Nat) : Composes (Replaced base) where
  nil _ := ⟨rfl, fun _ hi => absurd hi (Set.notMem_empty _), fun _ _ => rfl⟩
  union {s t st st' st''} h h' := by
    refine ⟨h'.user.trans h.user, fun i hi => ?_, fun a ha => ?_⟩
    · by_cases hit : i ∈ t
      · rw [h'.copied i hit, h.user]
      · rw [h'.kept (base + i) fun j hj heq => hit (Nat.add_left_cancel heq ▸ hj)]
        exact h.copied i (hi.resolve_right hit)
    · rw [h'.kept a fun i hi => ha i (Or.inr hi), h.kept a fun i hi => ha i (Or.inl hi)]

/-! ### One transfer -/

section

variable {dev : AtaDevice} {data : DiskDeviceData} (hdev : dev.Serves data)
include hdev

theorem AtaDevice.Serves.done (st : AtaState) (k : Nat) : dev.done st k = k := by
  unfold AtaDevice.done
  rw [hdev.fault]

theorem AtaDevice.Serves.rejects {k s : Nat} (hk : 0 < k) (h : (s + k - 1) * 512 < data.len) :
    dev.rejects k (data.lba + s) = false := by
  have hlast := hdev.holds (data.lba + s + k - 1) ⟨by omega, by
    rw [show data.lba + s + k - 1 - data.lba = s + k - 1 by omega]
    exact h⟩
  have hsize := dev.size_lt
  unfold AtaDevice.rejects
  rw [hdev.present, Nat.mod_eq_of_lt (by omega)]
  simp only [Bool.not_true, Bool.false_or, decide_eq_false_iff_not]
  omega

theorem AtaDevice.Serves.readSectors {k s p : Nat} (hk : 0 < k) (h : (s + k - 1) * 512 < data.len)
    (hp : (data.lba + s) * 512 = p) (buffer : AtaBuffer) (st : AtaState) :
    ∃ st', ataReadSectors dev k (data.lba + s) buffer st = (false, st') ∧ st'.disk = st.disk ∧
      (∀ i, st'.user i = match buffer with
        | .temp => st.user i
        | .user start => if start ≤ i ∧ i < start + k * 512 then st.disk (p + (i - start)) else st.user i) ∧
      ∀ i, buffer = .temp → i < k * 512 → st'.temp i = st.disk (p + i) := by
  subst hp
  unfold ataReadSectors
  rw [hdev.rejects hk h, if_neg (by decide)]
  unfold ataAccessRead
  dsimp only
  rw [hdev.done, hdev.fault]
  cases buffer with
  | temp => exact ⟨_, rfl, rfl, fun i => rfl, fun i _ hi => if_pos hi⟩
  | user start => exact ⟨_, rfl, rfl, fun i => rfl, fun i hne => by cases hne⟩

theorem AtaDevice.Serves.writeSectors {k s p : Nat} (hk : 0 < k) (h : (s + k - 1) * 512 < data.len)
    (hp : (data.lba + s) * 512 = p) (buffer : AtaBuffer) (st : AtaState) :
    ∃ st', ataWriteSectors dev k (data.lba + s) buffer st = (false, st') ∧ st'.user = st.user ∧
      ∀ a, st'.disk a = if p ≤ a ∧ a < p + k * 512 then st.byte buffer (a - p) else st.disk a := by
  subst hp
  unfold ataWriteSectors
  rw [hdev.rejects hk h, if_neg (by decide)]
  unfold ataAccessWrite
  dsimp only
  rw [hdev.done, hdev.fault]
  exact ⟨_, rfl, rfl, fun a => rfl⟩

end

def AccessExact (data : DiskDeviceData) (o n : Nat) (To : Set Nat → AtaState → AtaState → Prop)
    (access : Nat → Nat → AtaBuffer → AtaState → Bool × AtaState) : Prop :=
  ∀ k s start st, 0 < k → s * 512 = o + start → start + k * 512 ≤ n →
    ∃ st', access k (data.lba + s) (.user start) st = (false, st') ∧ To (Set.Ico start (start + k * 512)) st st'

def PartExact (data : DiskDeviceData) (o n : Nat) (To : Set Nat → AtaState → AtaState → Prop)
    (part : Int → Nat → Nat → Nat → AtaState → Option (Bool × AtaState)) : Prop :=
  ∀ s start src k st, PartOf data o n s start src k →
    ∃ st', part (s + data.lba) start src k st = some (false, st') ∧ To (Set.Ico start (start + k)) st st'

section

variable {dev : AtaDevice} {data : DiskDeviceData} {o n b : Nat} (hdev : dev.Serves data)
    (hb : data.lba * 512 + o = b)
include hdev hb

omit hdev in
private theorem sector_place {s start src : Nat} (h : s * 512 + src = o + start) :
    ∃ p, (data.lba + s) * 512 = p ∧ p + src = b + start := by
  refine ⟨_, rfl, ?_⟩
  rw [← hb, Nat.add_mul, Nat.add_assoc, h, Nat.add_assoc]

private theorem readSectors_exact (h : o + n ≤ data.len) :
    AccessExact data o n (Delivered b) (ataReadSectors dev) := by
  intro k s start st hk hplace hn
  obtain ⟨p, hp, hps⟩ := sector_place hb ((Nat.add_zero _).trans hplace)
  obtain ⟨st', hread, hdisk, huser, -⟩ :=
    hdev.readSectors hk (by omega : (s + k - 1) * 512 < data.len) hp (.user start) st
  refine ⟨st', hread, hdisk, fun i hi => ?_, fun i hi => ?_⟩
  · have hi : start ≤ i ∧ i < start + k * 512 := hi
    rw [huser]
    dsimp only
    rw [if_pos hi]
    refine congrArg st.disk ?_
    omega
  · rw [huser]
    exact if_neg hi

private theorem readPart_exact : PartExact data o n (Delivered b) (readPart dev) := by
  intro s start src k st hp
  have hlba := hp.toUInt_lba
  obtain ⟨-, hplace, hsector, hrequest, hpos, hlast⟩ := hp
  obtain ⟨p, hp, hps⟩ := sector_place hb hplace
  obtain ⟨st1, hread, hdisk, huser, htemp⟩ :=
    hdev.readSectors Nat.one_pos (by omega : (s + 1 - 1) * 512 < data.len) hp .temp st
  unfold readPart
  rw [hlba, hread]
  dsimp only
  unfold AtaState.toUser
  rw [if_pos (show src + k ≤ 2048 by omega)]
  refine ⟨_, rfl, hdisk, fun i hi => ?_, fun i hi => ?_⟩
  · have hi : start ≤ i ∧ i < start + k := hi
    show (if start ≤ i ∧ i < start + k then st1.temp (src + (i - start)) else _) = _
    rw [if_pos hi, htemp _ rfl (by omega)]
    refine congrArg st.disk ?_
    omega
  · exact (if_neg hi).trans (huser i)

private theorem writeSectors_exact (h : o + n ≤ data.len) :
    AccessExact data o n (Replaced b) (ataWriteSectors dev) := by
  intro k s start st hk hplace hn
  obtain ⟨p, hp, hps⟩ := sector_place hb ((Nat.add_zero _).trans hplace)
  obtain ⟨st', hwrite, huser, hdisk⟩ :=
    hdev.writeSectors hk (by omega : (s + k - 1) * 512 < data.len) hp (.user start) st
  refine ⟨st', hwrite, huser, fun i hi => ?_, fun a ha => ?_⟩
  · have hi : start ≤ i ∧ i < start + k * 512 := hi
    rw [hdisk, if_pos (by omega)]
    refine congrArg st.user ?_
    omega
  · rw [hdisk, if_neg]
    rintro ⟨h1, h2⟩
    exact ha (a - b) ⟨by omega, by omega⟩ (by omega)

private theorem writePart_exact : PartExact data o n (Replaced b) (writePart dev) := by
  intro s start dst k st hp
  have hlba := hp.toUInt_lba
  obtain ⟨-, hplace, hsector, hrequest, hpos, hlast⟩ := hp
  obtain ⟨p, hp, hps⟩ := sector_place hb hplace
  have hin : (s + 1 - 1) * 512 < data.len := by omega
  obtain ⟨st1, hread, hdisk1, huser1, htemp1⟩ := hdev.readSectors Nat.one_pos hin hp .temp st
  unfold writePart
  rw [hlba, hread]
  dsimp only
  unfold AtaState.fromUser
  rw [if_pos (show dst + k ≤ 2048 by omega)]
  generalize hst2 : ({ st1 with
      temp := fun i => if dst ≤ i ∧ i < dst + k then st1.user (start + (i - dst)) else st1.temp i
      touched := st1.touched ++ List.range' start k } : AtaState) = st2
  obtain ⟨st3, hwrite, huser3, hdisk3⟩ := hdev.writeSectors Nat.one_pos hin hp .temp st2
  have htemp2 : ∀ i, st2.temp i = if dst ≤ i ∧ i < dst + k then st1.user (start + (i - dst)) else st1.temp i := by
    rw [← hst2]
    exact fun i => rfl
  have huser2 : st2.user = st1.user := by rw [← hst2]
  have hdisk2 : st2.disk = st1.disk := by rw [← hst2]
  have huser1 : st1.user = st.user := funext huser1
  clear hp hb hplace hin
  refine ⟨st3, congrArg some hwrite, ?_, fun i hi => ?_, fun a ha => ?_⟩
  · rw [huser3, huser2, huser1]
  · have hi : start ≤ i ∧ i < start + k := hi
    rw [hdisk3, if_pos (by omega)]
    show st2.temp _ = _
    rw [htemp2, if_pos (by omega), huser1]
    refine congrArg st.user ?_
    omega
  · rw [hdisk3]
    split
    · -- the other bytes of the sector are written back as they were
      rename_i hsame
      show st2.temp _ = _
      have hout : ¬(dst ≤ a - p ∧ a - p < dst + k) := by
        rintro ⟨h1, h2⟩
        exact ha (a - b) ⟨by omega, by omega⟩ (by omega)
      rw [htemp2, if_neg hout, htemp1 _ rfl (by omega), Nat.add_sub_cancel' hsame.1]
    · rw [hdisk2, hdisk1]

end

/-! ### Whole requests -/

section

variable {data : DiskDeviceData} {o n : Nat} {To : Set Nat → AtaState → AtaState → Prop}
  {access : Nat → Nat → AtaBuffer → AtaState → Bool × AtaState}
  {part : Int → Nat → Nat → Nat → AtaState → Option (Bool × AtaState)}

private theorem fullSectors_exact (hTo : Composes To) (haccess : AccessExact data o n To access)
    {mid startDiff sectors : Nat} (hplace : mid * 512 = o + startDiff) (hn : startDiff + sectors * 512 ≤ n)
    (hlba : data.lba + (mid + sectors) ≤ 2 ^ 32) {fuel i : Nat} (hi : i < sectors) (hfuel : sectors < fuel + i)
    (st : AtaState) :
    ∃ st', fullSectors access ((mid : Nat) + data.lba) startDiff sectors fuel i st = some (false, st') ∧
      To (Set.Ico (startDiff + i * 512) (startDiff + sectors * 512)) st st' := by
  induction fuel generalizing i st with
  | zero => omega
  | succ fuel ih =>
    have hstart : toUInt (((mid : Nat) : Int) + data.lba + i) = data.lba + (mid + i) := by
      rw [show ((mid : Nat) : Int) + data.lba + i = ((data.lba + (mid + i) : Nat) : Int) by omega]
      exact toUInt_natCast (by omega)
    have hsector : (mid + i) * 512 = o + (startDiff + i * 512) := by
      rw [Nat.add_mul, hplace, Nat.add_assoc]
    unfold fullSectors
    dsimp only [ucharMax, ataSectorSize]
    rw [hstart]
    by_cases hmore : i + 255 < sectors
    · rw [if_pos hmore]
      obtain ⟨st1, hrun, hto⟩ := haccess 255 (mid + i) (startDiff + i * 512) st (by decide) hsector (by omega)
      rw [hrun]
      dsimp only
      obtain ⟨st2, hrest, hto'⟩ := ih hmore (by omega) st1
      refine ⟨st2, hrest, ?_⟩
      have hunion := hTo.union hto hto'
      have hnext : startDiff + i * 512 + 255 * 512 = startDiff + (i + 255) * 512 := by omega
      have hle : startDiff + i * 512 ≤ startDiff + (i + 255) * 512 :=
        Nat.add_le_add_left (Nat.mul_le_mul_right 512 (Nat.le_add_right i 255)) _
      have hle' : startDiff + (i + 255) * 512 ≤ startDiff + sectors * 512 :=
        Nat.add_le_add_left (Nat.mul_le_mul_right 512 hmore.le) _
      rw [hnext, Set.Ico_union_Ico_eq_Ico hle hle'] at hunion
      exact hunion
    · rw [if_neg hmore, Nat.mod_eq_of_lt (by omega)]
      obtain ⟨st1, hrun, hto⟩ :=
        haccess (sectors - i) (mid + i) (startDiff + i * 512) st (by omega) hsector (by omega)
      rw [hrun]
      refine ⟨st1, rfl, ?_⟩
      have hend : startDiff + i * 512 + (sectors - i) * 512 = startDiff + sectors * 512 := by omega
      rw [hend] at hto
      exact hto

private theorem part_exact (hTo : Composes To) {c : Prop} [Decidable c] {a m : Nat} {r : Option (Bool × AtaState)}
    (st : AtaState) (hzero : ¬c → m = 0) (h : c → ∃ st', r = some (false, st') ∧ To (Set.Ico a (a + m)) st st') :
    ∃ st', (if c then r else some (false, st)) = some (false, st') ∧ To (Set.Ico a (a + m)) st st' := by
  by_cases hc : c
  · rw [if_pos hc]
    exact h hc
  · rw [if_neg hc]
    refine ⟨st, rfl, ?_⟩
    rw [hzero hc, Nat.add_zero, Set.Ico_self]
    exact hTo.nil st

/-- The three parts of a request, or the only one, are all its bytes. -/
private theorem ataDeviceIo_exact (hTo : Composes To) (haccess : AccessExact data o n To access)
    (hpart : PartExact data o n To part)
    (h : o + n ≤ data.len) (hlba : ∀ s, s * 512 < o + n → data.lba + s < 2 ^ 32) (st : AtaState) :
    ∃ st', ataDeviceIo access part data n o st = some (((n : Int), none), st') ∧ To (Set.Ico 0 n) st st' := by
  have hdata := data.len_lt
  unfold ataDeviceIo
  by_cases hn : n = 0
  · rw [if_pos hn]
    subst hn
    refine ⟨st, rfl, ?_⟩
    rw [Set.Ico_self]
    exact hTo.nil st
  obtain ⟨hstart, hmid, hend⟩ := ataRequest_lba (by omega : o + n < 2 ^ 64)
  have hdiff : (ataRequest n o).startDiff = (o + 511) / 512 * 512 - o := ataRequest_startDiff
  have hclip : clipLen data n o = n := by
    rw [clipLen_eq (by omega) (by omega)]
    unfold DiskDeviceData.clipped
    rw [toSize_natCast (by omega), if_neg (by omega)]
    omega
  rw [if_neg hn]
  dsimp only [ataSectorSize]
  rw [toSize_natCast (by omega), if_neg (by omega), hclip, hstart, hmid, hend, hdiff]
  by_cases hsingle : (o + n) / 512 < (o + 511) / 512
  · -- the request is inside one sector
    rw [if_pos (by omega)]
    obtain ⟨st1, hrun, hto⟩ := hpart (o / 512) 0 (512 - ((o + 511) / 512 * 512 - o)) n st
      ⟨hlba _ (by omega), by omega, by omega, by omega, by omega, by omega⟩
    rw [hrun]
    rw [Nat.zero_add] at hto
    exact ⟨st1, rfl, hto⟩
  · obtain ⟨hsectors, hendDiff⟩ := ataRequest_sizes (by omega) (by omega : o + n < 2 ^ 64) (by omega)
    rw [if_neg (by omega), hsectors, hendDiff]
    have hdm := Nat.div_add_mod (o + n) 512
    have hlt := Nat.mod_lt (o + n) (by decide : 512 > 0)
    generalize hm : (o + 511) / 512 = m at *
    generalize he : (o + n) / 512 = e at *
    generalize (o + n) % 512 = tail at *
    obtain ⟨a, ha⟩ : ∃ a, m * 512 - o = a := ⟨_, rfl⟩
    obtain ⟨k, hk⟩ : ∃ k, e - m = k := ⟨_, rfl⟩
    have hplace : m * 512 = o + a := by omega
    have hsum : a + k * 512 + tail = n := by omega
    rw [ha, hk]
    have hbound : data.lba + (m + k) ≤ 2 ^ 32 := by
      have := data.lba_lt
      by_cases hzero : m + k = 0
      · omega
      · have := hlba (m + k - 1) (by omega)
        omega
    have hnone : ¬k ≠ 0 → k * 512 = 0 := by
      intro hzero
      rw [not_not.1 hzero, Nat.zero_mul]
    have htail : e * 512 + 0 ≥ o + (a + k * 512) ∧ e * 512 + 0 ≤ o + (a + k * 512) := by omega
    obtain ⟨st1, hrun1, hto1⟩ := part_exact hTo st hnone fun hne => by
      obtain ⟨st1, hrun, hto⟩ := fullSectors_exact hTo haccess hplace (by omega : a + k * 512 ≤ n) hbound
        (Nat.pos_of_ne_zero hne) (Nat.lt_succ_self k) st
      rw [Nat.zero_mul, Nat.add_zero] at hto
      exact ⟨st1, hrun, hto⟩
    obtain ⟨st2, hrun2, hto2⟩ := part_exact hTo st1 (fun hzero => by omega : ¬a ≠ 0 → a = 0) fun hne =>
      hpart (o / 512) 0 (512 - a) a st1
        ⟨hlba _ (by omega), Nat.le_antisymm (by omega) (by omega), by omega, by omega, by omega, by omega⟩
    obtain ⟨st3, hrun3, hto3⟩ := part_exact hTo st2 (fun hzero => by omega : ¬tail ≠ 0 → tail = 0) fun hne =>
      hpart e (a + k * 512) 0 tail st2
        ⟨hlba _ (by omega), Nat.le_antisymm htail.2 htail.1, by omega, by omega, by omega, by omega⟩
    refine ⟨st3, ?_, ?_⟩
    · rw [hrun1]
      dsimp only [ataThen]
      rw [hrun2]
      dsimp only
      rw [hrun3]
    · have hunion := hTo.union (hTo.union hto1 hto2) hto3
      rw [Nat.zero_add, Set.union_comm (Set.Ico a _), Set.Ico_union_Ico_eq_Ico (by omega) (by omega),
        Set.Ico_union_Ico_eq_Ico (by omega) (by omega), hsum] at hunion
      exact hunion

end

theorem AtaDevice.Serves.lba_lt {dev : AtaDevice} {data : DiskDeviceData} (hdev : dev.Serves data) {s : Nat}
    (h : s * 512 < data.len) : data.lba + s < 2 ^ 32 := by
  have hlt := hdev.holds (data.lba + s) ⟨Nat.le_add_right _ _, by
    rw [Nat.add_sub_cancel_left]
    exact h⟩
  exact Nat.lt_trans hlt dev.size_lt

/-- On a drive that has the partition and reports no error, `ata_device_read` and `ata_device_write` transfer all
bytes of a request that is inside the partition and no others, and what has been written is read again. -/
theorem ata_device_exact {dev : AtaDevice} {data : DiskDeviceData} (hdev : dev.Serves data) {len offset : Nat}
    (h : offset + len ≤ data.len) (st : AtaState) :
    (∃ st', ataDeviceRead dev data len offset st = some (((len : Int), none), st') ∧ st'.disk = st.disk ∧
      ∀ i, st'.user i = if i < len then st.disk (data.lba * ataSectorSize + offset + i) else st.user i) ∧
    ∃ st', ataDeviceWrite dev data len offset st = some (((len : Int), none), st') ∧ st'.user = st.user ∧
      (∀ i < len, st'.disk (data.lba * ataSectorSize + offset + i) = st.user i) ∧
      (∀ a, a < data.lba * ataSectorSize + offset ∨ data.lba * ataSectorSize + offset + len ≤ a →
        st'.disk a = st.disk a) ∧
      ∀ user, ∃ st'', ataDeviceRead dev data len offset { st' with user := user } = some (((len : Int), none), st'') ∧
        ∀ i < len, st''.user i = st.user i := by
  have hlba : ∀ s, s * 512 < offset + len → data.lba + s < 2 ^ 32 := fun s hs => hdev.lba_lt (by omega)
  obtain ⟨b, hb⟩ : ∃ b, data.lba * 512 + offset = b := ⟨_, rfl⟩
  have hread : ∀ st, ∃ st', ataDeviceRead dev data len offset st = some (((len : Int), none), st') ∧
      Delivered b (Set.Ico 0 len) st st' :=
    ataDeviceIo_exact (delivered_composes b) (readSectors_exact hdev hb h) (readPart_exact hdev hb) h hlba
  have hwrite : ∃ st', ataDeviceWrite dev data len offset st = some (((len : Int), none), st') ∧
      Replaced b (Set.Ico 0 len) st st' :=
    ataDeviceIo_exact (replaced_composes b) (writeSectors_exact hdev hb h) (writePart_exact hdev hb) h hlba st
  have hbase : data.lba * ataSectorSize + offset = b := hb
  rw [hbase]
  refine ⟨?_, ?_⟩
  · obtain ⟨st', hrun, hto⟩ := hread st
    refine ⟨st', hrun, hto.disk, fun i => ?_⟩
    by_cases hi : i < len
    · rw [if_pos hi]
      exact hto.copied i ⟨Nat.zero_le i, hi⟩
    · rw [if_neg hi]
      exact hto.kept i fun hmem => hi hmem.2
  · obtain ⟨st', hrun, hto⟩ := hwrite
    refine ⟨st', hrun, hto.user, fun i hi => hto.copied i ⟨Nat.zero_le i, hi⟩,
      fun a ha => hto.kept a fun i hi heq => ?_, fun user => ?_⟩
    · have hlt : i < len := hi.2
      omega
    · obtain ⟨st'', hrun', hto'⟩ := hread { st' with user := user }
      refine ⟨st'', hrun', fun i hi => ?_⟩
      rw [hto'.copied i ⟨Nat.zero_le i, hi⟩]
      exact hto.copied i ⟨Nat.zero_le i, hi⟩

/-- A request with a part of a sector at each end, on a drive with 65 sectors. -/
theorem ata_device_exact_small : ∃ st',
    ataDeviceWrite ⟨true, 65, fun _ => none, by decide⟩ smallPartition 24 500
      ⟨fun _ => 0, fun _ => 0, fun _ => 1, 0, [], []⟩ = some ((24, none), st') ∧
    (∀ i < 24, st'.disk (63 * 512 + 500 + i) = 1) := by
  have hserves : AtaDevice.Serves ⟨true, 65, fun _ => none, by decide⟩ smallPartition := by
    refine ⟨rfl, fun _ => rfl, fun s hs => ?_⟩
    obtain ⟨-, hlt⟩ := hs
    have hlt : (s - 63) * 512 < 1024 := hlt
    show s < 65
    omega
  obtain ⟨-, st', hrun, -, hdisk, -⟩ := ata_device_exact hserves (by decide : 500 + 24 ≤ smallPartition.len)
    ⟨fun _ => 0, fun _ => 0, fun _ => 1, 0, [], []⟩
  exact ⟨st', hrun, hdisk⟩

end Pml.Drivers
