import Pml.Basic

/-!
# Block devices on ATA drives (`drivers/ata.c`)

`ata_device_read` and `ata_device_write` split a request into whole sectors, transferred in pieces of at most 255, and
a first and a last sector of which only a part is wanted.  `ata_access` drives the ports of the controller; it is
taken here for what it asks of the drive, which may report an error after any number of sectors.  The sectors that are
accessed and the bytes of the caller's buffer that are read or written are recorded.
-/

namespace Pml.Drivers

abbrev ataSectorSize : Nat := 512

abbrev ucharMax : Nat := 255

/-- The size of `ata_buffer`. -/
abbrev ataBufferSize : Nat := 2048

/-- The members of `struct ata_device` that are read, `present` for `exists`, and the drive: `fault n` is nothing if
its command number `n` succeeds, and otherwise the number of sectors that it transfers before it reports an error. -/
structure AtaDevice where
  present : Bool
  size : Nat
  fault : Nat → Option Nat
  size_lt : size < 2 ^ 32

/-- `struct disk_device_data`: the first sector and the number of bytes of a partition.  `device_ata_init` takes the
first sector from 32 bits of the partition table and computes the length as an `unsigned int`. -/
structure DiskDeviceData where
  lba : Nat
  len : Nat
  lba_lt : lba < 2 ^ 32
  len_lt : len < 2 ^ 32

/-- The bytes of the disk, `ata_buffer` and the caller's buffer, the number of commands so far, the sectors that have
been accessed, and the bytes of the caller's buffer that have been read or written. -/
structure AtaState where
  disk : Nat → UInt8
  temp : Nat → UInt8
  user : Nat → UInt8
  commands : Nat
  sectors : List Nat
  touched : List Nat

/-- The buffer of a transfer: the start of `ata_buffer`, or a place in the caller's buffer. -/
inductive AtaBuffer
  | temp
  | user (start : Nat)

namespace AtaState

def byte (st : AtaState) : AtaBuffer → Nat → UInt8
  | .temp, i => st.temp i
  | .user start, i => st.user (start + i)

def userBytes : AtaBuffer → Nat → List Nat
  | .temp, _ => []
  | .user start, n => List.range' start n

/-- Stores `n` bytes of the disk, from the sector `lba` on. -/
def load (st : AtaState) (lba n : Nat) : AtaBuffer → AtaState
  | .temp => { st with temp := fun i => if i < n then st.disk (lba * ataSectorSize + i) else st.temp i }
  | .user start => { st with user := fun i =>
      if start ≤ i ∧ i < start + n then st.disk (lba * ataSectorSize + (i - start)) else st.user i }

/-- `memcpy` from `ata_buffer` to the caller's buffer. -/
def toUser (st : AtaState) (start src n : Nat) : Option AtaState :=
  if src + n ≤ ataBufferSize then
    some { st with
      user := fun i => if start ≤ i ∧ i < start + n then st.temp (src + (i - start)) else st.user i
      touched := st.touched ++ List.range' start n }
  else none

/-- `memcpy` from the caller's buffer to `ata_buffer`. -/
def fromUser (st : AtaState) (dst start n : Nat) : Option AtaState :=
  if dst + n ≤ ataBufferSize then
    some { st with
      temp := fun i => if dst ≤ i ∧ i < dst + n then st.user (start + (i - dst)) else st.temp i
      touched := st.touched ++ List.range' start n }
  else none

end AtaState

def AtaDevice.done (dev : AtaDevice) (st : AtaState) (sectors : Nat) : Nat :=
  match dev.fault st.commands with
  | none => sectors
  | some k => min k sectors

/-- `ata_access` with `ATA_OP_READ`; the first value says whether it fails. -/
def ataAccessRead (dev : AtaDevice) (lba sectors : Nat) (buffer : AtaBuffer) (st : AtaState) : Bool × AtaState :=
  let n := dev.done st sectors * ataSectorSize
  ((dev.fault st.commands).isSome,
    { st.load lba n buffer with
      commands := st.commands + 1
      sectors := st.sectors ++ List.range' lba sectors
      touched := st.touched ++ AtaState.userBytes buffer n })

/-- `ata_access` with `ATA_OP_WRITE`: the data is copied from the buffer first. -/
def ataAccessWrite (dev : AtaDevice) (lba sectors : Nat) (buffer : AtaBuffer) (st : AtaState) : Bool × AtaState :=
  let n := dev.done st sectors * ataSectorSize
  ((dev.fault st.commands).isSome,
    { st with
      disk := fun a =>
        if lba * ataSectorSize ≤ a ∧ a < lba * ataSectorSize + n then st.byte buffer (a - lba * ataSectorSize)
        else st.disk a
      commands := st.commands + 1
      sectors := st.sectors ++ List.range' lba sectors
      touched := st.touched ++ AtaState.userBytes buffer (sectors * ataSectorSize) })

/-- The check of `ata_read_sectors` and `ata_write_sectors`, in the arithmetic of `unsigned int`. -/
def AtaDevice.rejects (dev : AtaDevice) (sectors lba : Nat) : Bool :=
  !dev.present || decide ((lba + sectors) % 2 ^ 32 > dev.size)

def ataReadSectors (dev : AtaDevice) (sectors lba : Nat) (buffer : AtaBuffer) (st : AtaState) : Bool × AtaState :=
  if dev.rejects sectors lba then (true, st) else ataAccessRead dev lba sectors buffer st

def ataWriteSectors (dev : AtaDevice) (sectors lba : Nat) (buffer : AtaBuffer) (st : AtaState) : Bool × AtaState :=
  if dev.rejects sectors lba then (true, st) else ataAccessWrite dev lba sectors buffer st

/-- The conversion to `size_t`. -/
def toSize (x : Int) : Nat := (x % 2 ^ 64).toNat

def toUInt (x : Int) : Nat := (x % 2 ^ 32).toNat

/-- The variables that `ata_device_read` and `ata_device_write` compute from the request first. -/
structure AtaRequest where
  startLba : Int
  midLba : Int
  endLba : Int
  sectors : Nat
  startDiff : Nat
  endDiff : Nat

def ataRequest (len : Nat) (offset : Int) : AtaRequest :=
  let startLba := offset.tdiv ataSectorSize
  let midLba := startLba + if offset.tmod ataSectorSize ≠ 0 then 1 else 0
  let endLba : Int := (toSize (offset + len) / ataSectorSize : Nat)
  { startLba := startLba
    midLba := midLba
    endLba := endLba
    sectors := toSize (endLba - midLba)
    startDiff := toSize (midLba * ataSectorSize - offset)
    endDiff := toSize (offset + len - endLba * ataSectorSize) }

def clipLen (data : DiskDeviceData) (len : Nat) (offset : Int) : Nat :=
  if toSize (offset + len) > data.len then toSize (data.len - offset) else len

/-- The loop over the full sectors, with the last transfer; `access` is `ata_read_sectors` or `ata_write_sectors`, and
`fuel` bounds the number of rounds. -/
def fullSectors (access : Nat → Nat → AtaBuffer → AtaState → Bool × AtaState) (base : Int) (startDiff sectors : Nat) :
    Nat → Nat → AtaState → Option (Bool × AtaState)
  | 0, _, _ => none
  | fuel + 1, i, st =>
    if i + ucharMax < sectors then
      match access ucharMax (toUInt (base + i)) (.user (startDiff + i * ataSectorSize)) st with
      | (true, st) => some (true, st)
      | (false, st) => fullSectors access base startDiff sectors fuel (i + ucharMax) st
    else
      some (access ((sectors - i) % 256) (toUInt (base + i)) (.user (startDiff + i * ataSectorSize)) st)

abbrev AtaResult := (Int × Option Errno) × AtaState

def ataFail (errno : Errno) (st : AtaState) : AtaResult := ((-1, some errno), st)

/-- Reads the sector `lba` into `ata_buffer` and copies `n` of its bytes, from `src` on, to the caller's buffer. -/
def readPart (dev : AtaDevice) (lba : Int) (start src n : Nat) (st : AtaState) : Option (Bool × AtaState) :=
  match ataReadSectors dev 1 (toUInt lba) .temp st with
  | (true, st) => some (true, st)
  | (false, st) => (st.toUser start src n).map fun st => (false, st)

/-- Reads the sector `lba` into `ata_buffer`, replaces `n` of its bytes, from `dst` on, and writes it back. -/
def writePart (dev : AtaDevice) (lba : Int) (start dst n : Nat) (st : AtaState) : Option (Bool × AtaState) :=
  match ataReadSectors dev 1 (toUInt lba) .temp st with
  | (true, st) => some (true, st)
  | (false, st) => (st.fromUser dst start n).map fun st => ataWriteSectors dev 1 (toUInt lba) .temp st

def ataThen (r : Option (Bool × AtaState)) (next : AtaState → Option AtaResult) : Option AtaResult :=
  match r with
  | none => none
  | some (true, st) => some (ataFail Errno.EIO st)
  | some (false, st) => next st

/-- The common body of `ata_device_read` and `ata_device_write`, with the functions that transfer full sectors and a
part of a sector. -/
def ataDeviceIo (access : Nat → Nat → AtaBuffer → AtaState → Bool × AtaState)
    (part : Int → Nat → Nat → Nat → AtaState → Option (Bool × AtaState)) (data : DiskDeviceData) (len : Nat)
    (offset : Int) (st : AtaState) : Option AtaResult :=
  if len = 0 then some ((0, none), st)
  else
    let q := ataRequest len offset
    if toSize offset ≥ data.len then some (ataFail Errno.EINVAL st)
    else
      let len := clipLen data len offset
      if q.midLba > q.endLba then
        ataThen (part (q.startLba + data.lba) 0 (ataSectorSize - q.startDiff) len st) fun st =>
          some ((len, none), st)
      else
        ataThen (if q.sectors ≠ 0 then
            fullSectors access (q.midLba + data.lba) q.startDiff q.sectors (q.sectors + 1) 0 st
          else some (false, st)) fun st =>
        ataThen (if q.startDiff ≠ 0 then
            part (q.startLba + data.lba) 0 (ataSectorSize - q.startDiff) q.startDiff st
          else some (false, st)) fun st =>
        ataThen (if q.endDiff ≠ 0 then
            part (q.endLba + data.lba) (q.startDiff + q.sectors * ataSectorSize) 0 q.endDiff st
          else some (false, st)) fun st =>
        some ((len, none), st)

def ataDeviceRead (dev : AtaDevice) : DiskDeviceData → Nat → Int → AtaState → Option AtaResult :=
  ataDeviceIo (ataReadSectors dev) (readPart dev)

def ataDeviceWrite (dev : AtaDevice) : DiskDeviceData → Nat → Int → AtaState → Option AtaResult :=
  ataDeviceIo (ataWriteSectors dev) (writePart dev)

/-! ### Confinement -/

def DiskDeviceData.HasByteIn (data : DiskDeviceData) (s : Nat) : Prop :=
  data.lba ≤ s ∧ (s - data.lba) * ataSectorSize < data.len

def DiskDeviceData.clipped (data : DiskDeviceData) (len : Nat) (offset : Int) : Nat :=
  if toSize offset ≥ data.len then 0 else min len (data.len - toSize offset)

/-- What has happened between two states is confined: only sectors of the partition have been accessed, only the first
`n` bytes of the caller's buffer, and of the disk only the `n` bytes from `offset` on have changed. -/
structure Inside (data : DiskDeviceData) (offset n : Nat) (st st' : AtaState) : Prop where
  sectors : ∀ s ∈ st'.sectors, s ∈ st.sectors ∨ data.HasByteIn s
  touched : ∀ i ∈ st'.touched, i ∈ st.touched ∨ i < n
  disk : ∀ a, a < data.lba * ataSectorSize + offset ∨ data.lba * ataSectorSize + offset + n ≤ a →
    st'.disk a = st.disk a

/-- A device function is defined and confined, and returns the number of bytes that are in the partition unless it
fails. -/
def Confined (data : DiskDeviceData) (len : Nat) (offset : Int) (st : AtaState) (result : Option AtaResult) : Prop :=
  ∃ r st', result = some (r, st') ∧ (r.1 = -1 ∨ r.1 = data.clipped len offset) ∧
    Inside data (toSize offset) (data.clipped len offset) st st'

/-- The first sectors of the transfers for a request, counted from the start of the partition: the sector of the first
byte, the sector of the end unless the request ends with a sector, and every 255th of the full sectors. -/
def TransferStart (offset len s : Nat) : Prop :=
  s = offset / ataSectorSize ∨ (offset + len) % ataSectorSize ≠ 0 ∧ s = (offset + len) / ataSectorSize ∨
    ∃ j, s = (offset + (ataSectorSize - 1)) / ataSectorSize + ucharMax * j ∧ s < (offset + len) / ataSectorSize

/-- The request does not cross the end of the partition, or it stays inside one sector and does not touch its
boundaries; and no transfer starts at a sector whose number does not fit into 32 bits. -/
def DiskDeviceData.Fits (data : DiskDeviceData) (len offset : Nat) : Prop :=
  (offset + len ≤ data.len ∨
    offset % ataSectorSize ≠ 0 ∧ (offset + len) / ataSectorSize = offset / ataSectorSize) ∧
  ∀ s, TransferStart offset len s → data.lba + s < 2 ^ 32

/-! ### What a request computes -/

section

variable {len o : Nat}

theorem toSize_natCast {n : Nat} (h : n < 2 ^ 64) : toSize n = n := by
  unfold toSize
  omega

theorem toUInt_natCast {n : Nat} (h : n < 2 ^ 32) : toUInt n = n := by
  unfold toUInt
  omega

private theorem eq_toSize {data : DiskDeviceData} {offset : Int} (hlow : -2 ^ 63 ≤ offset) (hhigh : offset < 2 ^ 63)
    (h : toSize offset < data.len) : offset = (toSize offset : Nat) := by
  have hlen := data.len_lt
  unfold toSize at h ⊢
  omega

theorem ataRequest_lba (h : o + len < 2 ^ 64) :
    (ataRequest len o).startLba = (o / 512 : Nat) ∧
    (ataRequest len o).midLba = ((o + 511) / 512 : Nat) ∧
    (ataRequest len o).endLba = ((o + len) / 512 : Nat) := by
  have hsum : toSize ((o : Int) + len) = o + len := by
    rw [show (o : Int) + len = ((o + len : Nat) : Int) by omega]
    exact toSize_natCast h
  unfold ataRequest ataSectorSize
  dsimp only
  rw [hsum, ← Int.ofNat_tdiv, ← Int.ofNat_tmod]
  refine ⟨rfl, ?_, rfl⟩
  split <;> omega

theorem ataRequest_sizes (ho : o < 2 ^ 63) (h : o + len < 2 ^ 64)
    (hmid : (o + 511) / 512 ≤ (o + len) / 512) :
    (ataRequest len o).sectors = (o + len) / 512 - (o + 511) / 512 ∧
    (ataRequest len o).endDiff = (o + len) % 512 := by
  obtain ⟨hs, hm, he⟩ := ataRequest_lba h
  have h1 : (ataRequest len o).sectors = toSize ((ataRequest len o).endLba - (ataRequest len o).midLba) := rfl
  have h2 : (ataRequest len o).endDiff = toSize ((o : Int) + len - (ataRequest len o).endLba * 512) := rfl
  rw [h1, h2, hm, he]
  constructor
  · rw [show (((o + len) / 512 : Nat) : Int) - ((o + 511) / 512 : Nat) =
      (((o + len) / 512 - (o + 511) / 512 : Nat) : Int) by omega]
    exact toSize_natCast (by omega)
  · rw [show (o : Int) + len - ((o + len) / 512 : Nat) * 512 =
      (((o + len) % 512 : Nat) : Int) by omega]
    exact toSize_natCast (by omega)

theorem ataRequest_startDiff : (ataRequest len o).startDiff =
    (o + 511) / 512 * 512 - o := by
  have h1 : (ataRequest len o).startDiff = toSize ((ataRequest len o).midLba * 512 - o) := rfl
  have hm : (ataRequest len o).midLba = ((o + 511) / 512 : Nat) := by
    unfold ataRequest ataSectorSize
    dsimp only
    rw [← Int.ofNat_tdiv, ← Int.ofNat_tmod]
    split <;> omega
  rw [h1, hm, show ((((o + 511) / 512 : Nat) : Int) * 512 - o) =
    (((o + 511) / 512 * 512 - o : Nat) : Int) by omega]
  exact toSize_natCast (by omega)

private theorem ataRequest_wraps (ho : o < 2 ^ 63) (hlen : len < 2 ^ 64) (h : 2 ^ 64 ≤ o + len) :
    (ataRequest len o).midLba > (ataRequest len o).endLba := by
  have hsum : toSize ((o : Int) + len) = o + len - 2 ^ 64 := by
    unfold toSize
    omega
  unfold ataRequest ataSectorSize
  dsimp only
  rw [hsum, ← Int.ofNat_tdiv, ← Int.ofNat_tmod]
  split <;> omega

theorem clipLen_eq {data : DiskDeviceData} (h : o + len < 2 ^ 64) (hin : o < data.len) :
    clipLen data len o = data.clipped len o := by
  have hlen := data.len_lt
  unfold clipLen DiskDeviceData.clipped
  rw [show (o : Int) + len = ((o + len : Nat) : Int) by omega, toSize_natCast h,
    show (data.len : Int) - o = ((data.len - o : Nat) : Int) by omega, toSize_natCast (by omega),
    toSize_natCast (by omega)]
  split <;> split <;> omega

end

/-! ### One transfer -/

section

variable {data : DiskDeviceData} {dev : AtaDevice} {o n s start k lba : Nat} {st st' st0 : AtaState}

theorem Inside.refl : Inside data o n st st :=
  ⟨fun _ h => Or.inl h, fun _ h => Or.inl h, fun _ _ => rfl⟩

private theorem mem_userBytes {buffer : AtaBuffer} {i : Nat} (h : i ∈ AtaState.userBytes buffer k) :
    ∃ start, buffer = .user start ∧ start ≤ i ∧ i < start + k := by
  cases buffer with
  | temp => cases h
  | user start => exact ⟨start, rfl, List.mem_range'_1.1 h⟩

private theorem done_le (dev : AtaDevice) (st : AtaState) (k : Nat) : dev.done st k ≤ k := by
  unfold AtaDevice.done
  split
  · exact le_refl k
  · exact Nat.min_le_right _ _

private theorem hasByteIn_of_mem {x : Nat} (hx : x ∈ List.range' (data.lba + s) k)
    (hs : (s + k - 1) * 512 < data.len) :
    data.HasByteIn x := by
  obtain ⟨h1, h2⟩ := List.mem_range'_1.1 hx
  refine ⟨by omega, ?_⟩
  have hle : (x - data.lba) * 512 ≤ (s + k - 1) * 512 := Nat.mul_le_mul_right 512 (by omega)
  exact Nat.lt_of_le_of_lt hle hs

private theorem accessRead_sectors (buffer : AtaBuffer) :
    (ataAccessRead dev lba k buffer st).2.sectors = st.sectors ++ List.range' lba k := by
  cases buffer <;> rfl

private theorem accessRead_touched (buffer : AtaBuffer) :
    (ataAccessRead dev lba k buffer st).2.touched = st.touched ++ AtaState.userBytes buffer
    (dev.done st k * 512) := by
  cases buffer <;> rfl

private theorem accessRead_disk (buffer : AtaBuffer) : (ataAccessRead dev lba k buffer st).2.disk = st.disk := by
  cases buffer <;> rfl

private theorem accessWrite_disk (buffer : AtaBuffer) (a : Nat) : (ataAccessWrite dev lba k buffer st).2.disk a =
    if lba * 512 ≤ a ∧ a < lba * 512 + dev.done st k * 512 then st.byte buffer (a - lba * 512) else st.disk a :=
  rfl

private theorem Inside.accessRead (h : Inside data o n st0 st) {buffer : AtaBuffer}
    (hsectors : (s + k - 1) * 512 < data.len) (hbuffer : ∀ start, buffer = .user start → start + k * 512 ≤ n) :
    Inside data o n st0 (ataAccessRead dev (data.lba + s) k buffer st).2 := by
  have hdone := Nat.mul_le_mul_right 512 (done_le dev st k)
  refine ⟨fun x hx => ?_, fun i hi => ?_, fun a ha => ?_⟩
  · rw [accessRead_sectors] at hx
    rcases List.mem_append.1 hx with hx | hx
    · exact h.sectors x hx
    · exact Or.inr (hasByteIn_of_mem hx hsectors)
  · rw [accessRead_touched] at hi
    rcases List.mem_append.1 hi with hi | hi
    · exact h.touched i hi
    · obtain ⟨start, hstart, h1, h2⟩ := mem_userBytes hi
      have hle := hbuffer start hstart
      exact Or.inr (by omega)
  · rw [accessRead_disk]
    exact h.disk a ha

/-- Writing bytes of the request, or a sector that is the same outside of it. -/
private theorem Inside.accessWrite (h : Inside data o n st0 st) {buffer : AtaBuffer}
    (hsectors : (s + k - 1) * 512 < data.len) (hbuffer : ∀ start, buffer = .user start → start + k * 512 ≤ n)
    (hsame : ∀ i < k * 512, s * 512 + i < o ∨ o + n ≤ s * 512 + i →
      st.byte buffer i = st.disk ((data.lba + s) * 512 + i)) :
    Inside data o n st0 (ataAccessWrite dev (data.lba + s) k buffer st).2 := by
  have hdone := Nat.mul_le_mul_right 512 (done_le dev st k)
  refine ⟨fun x hx => ?_, fun i hi => ?_, fun a ha => ?_⟩
  · rcases List.mem_append.1 (show x ∈ st.sectors ++ List.range' (data.lba + s) k from hx) with hx | hx
    · exact h.sectors x hx
    · exact Or.inr (hasByteIn_of_mem hx hsectors)
  · rcases List.mem_append.1 (show i ∈ st.touched ++ AtaState.userBytes buffer (k * 512) from hi) with hi | hi
    · exact h.touched i hi
    · obtain ⟨start, hstart, h1, h2⟩ := mem_userBytes hi
      have hle := hbuffer start hstart
      exact Or.inr (by omega)
  · rw [← h.disk a ha, accessWrite_disk]
    change a < data.lba * 512 + o ∨ data.lba * 512 + o + n ≤ a at ha
    split
    · rw [hsame (a - (data.lba + s) * 512) (by omega) (by omega)]
      congr 1
      omega
    · rfl

theorem Inside.readSectors (h : Inside data o n st0 st) {buffer : AtaBuffer} (hsectors : (s + k - 1) * 512 < data.len)
    (hbuffer : ∀ start, buffer = .user start → start + k * 512 ≤ n) :
    Inside data o n st0 (ataReadSectors dev k (data.lba + s) buffer st).2 := by
  unfold ataReadSectors
  split
  · exact h
  · exact h.accessRead hsectors hbuffer

theorem Inside.writeSectors (h : Inside data o n st0 st) {buffer : AtaBuffer}
    (hsectors : (s + k - 1) * 512 < data.len) (hbuffer : ∀ start, buffer = .user start → start + k * 512 ≤ n)
    (hsame : ∀ i < k * 512, s * 512 + i < o ∨ o + n ≤ s * 512 + i →
      st.byte buffer i = st.disk ((data.lba + s) * 512 + i)) :
    Inside data o n st0 (ataWriteSectors dev k (data.lba + s) buffer st).2 := by
  unfold ataWriteSectors
  split
  · exact h
  · exact h.accessWrite hsectors hbuffer hsame

private theorem readSectors_temp (h : ataReadSectors dev 1 lba .temp st = (false, st')) :
    (∀ i < 512, st'.temp i = st'.disk (lba * 512 + i)) ∧ st'.disk = st.disk := by
  unfold ataReadSectors at h
  split at h
  · cases h
  · unfold ataAccessRead at h
    dsimp only at h
    obtain ⟨hfault, rfl⟩ := Prod.mk.inj h
    have hdone : dev.done st 1 = 1 := by
      unfold AtaDevice.done
      cases hf : dev.fault st.commands with
      | none => rfl
      | some x =>
        rw [hf] at hfault
        cases hfault
    refine ⟨fun i hi => ?_, rfl⟩
    change (if i < dev.done st 1 * 512 then st.disk (lba * 512 + i) else st.temp i) = st.disk (lba * 512 + i)
    rw [hdone, if_pos (by omega)]

theorem Inside.toUser {src : Nat} (h : Inside data o n st0 st) (hst : st.toUser start src k = some st')
    (hn : start + k ≤ n) : Inside data o n st0 st' := by
  unfold AtaState.toUser at hst
  split at hst
  · cases hst
    refine ⟨h.sectors, fun i hi => ?_, h.disk⟩
    rcases List.mem_append.1 hi with hi | hi
    · exact h.touched i hi
    · have hlt := (List.mem_range'_1.1 hi).2
      exact Or.inr (by omega)
  · cases hst

theorem Inside.fromUser {dst : Nat} (h : Inside data o n st0 st) (hst : st.fromUser dst start k = some st')
    (hn : start + k ≤ n) : Inside data o n st0 st' := by
  unfold AtaState.fromUser at hst
  split at hst
  · cases hst
    refine ⟨h.sectors, fun i hi => ?_, h.disk⟩
    rcases List.mem_append.1 hi with hi | hi
    · exact h.touched i hi
    · have hlt := (List.mem_range'_1.1 hi).2
      exact Or.inr (by omega)
  · cases hst

/-- A part of a sector, from the byte `src` on, that is the part of the request from `start` on. -/
structure PartOf (data : DiskDeviceData) (o n s start src k : Nat) : Prop where
  lba : data.lba + s < 2 ^ 32
  place : s * 512 + src = o + start
  sector : src + k ≤ 512
  request : start + k ≤ n
  pos : 0 < k
  last : o + n ≤ data.len

theorem PartOf.toUInt_lba {src : Nat} (h : PartOf data o n s start src k) :
    toUInt ((s : Int) + data.lba) = data.lba + s := by
  rw [show (s : Int) + data.lba = ((data.lba + s : Nat) : Int) by omega]
  exact toUInt_natCast h.lba

private theorem readPart_inside {src : Nat} (hp : PartOf data o n s start src k) (h : Inside data o n st0 st) :
    ∃ b st', readPart dev (s + data.lba) start src k st = some (b, st') ∧ Inside data o n st0 st' := by
  have hlba := hp.toUInt_lba
  obtain ⟨-, hplace, hsector, hrequest, hpos, hlast⟩ := hp
  unfold readPart
  rw [hlba]
  have hread : Inside data o n st0 (ataReadSectors dev 1 (data.lba + s) .temp st).2 :=
    h.readSectors (by omega) (fun _ hne => by cases hne)
  cases hr : ataReadSectors dev 1 (data.lba + s) .temp st with
  | mk b st1 =>
    rw [hr] at hread
    cases b with
    | true => exact ⟨true, st1, rfl, hread⟩
    | false =>
      dsimp only
      cases hcopy : st1.toUser start src k with
      | none =>
        unfold AtaState.toUser at hcopy
        rw [if_pos (show src + k ≤ 2048 by omega)] at hcopy
        cases hcopy
      | some st2 => exact ⟨false, st2, rfl, hread.toUser hcopy hrequest⟩

private theorem writePart_inside {dst : Nat} (hp : PartOf data o n s start dst k) (h : Inside data o n st0 st) :
    ∃ b st', writePart dev (s + data.lba) start dst k st = some (b, st') ∧ Inside data o n st0 st' := by
  have hlba := hp.toUInt_lba
  obtain ⟨-, hplace, hsector, hrequest, hpos, hlast⟩ := hp
  unfold writePart
  rw [hlba]
  have hread : Inside data o n st0 (ataReadSectors dev 1 (data.lba + s) .temp st).2 :=
    h.readSectors (by omega) (fun _ hne => by cases hne)
  cases hr : ataReadSectors dev 1 (data.lba + s) .temp st with
  | mk b st1 =>
    rw [hr] at hread
    cases b with
    | true => exact ⟨true, st1, rfl, hread⟩
    | false =>
      dsimp only
      obtain ⟨htemp, -⟩ := readSectors_temp hr
      cases hcopy : st1.fromUser dst start k with
      | none =>
        unfold AtaState.fromUser at hcopy
        rw [if_pos (show dst + k ≤ 2048 by omega)] at hcopy
        cases hcopy
      | some st2 =>
        refine ⟨_, _, rfl, (hread.fromUser hcopy hrequest).writeSectors (by omega) (fun _ hne => by cases hne) ?_⟩
        -- only the bytes of the request have been replaced in `ata_buffer`
        intro i hi hout
        unfold AtaState.fromUser at hcopy
        rw [if_pos (show dst + k ≤ 2048 by omega)] at hcopy
        cases hcopy
        change (if dst ≤ i ∧ i < dst + k then _ else st1.temp i) = st1.disk ((data.lba + s) * 512 + i)
        rw [if_neg (by omega), htemp i (by omega)]

end

/-! ### Whole requests -/

/-- What `ata_device_read` and `ata_device_write` need of the functions that transfer full sectors. -/
def AccessInside (data : DiskDeviceData) (o n : Nat) (access : Nat → Nat → AtaBuffer → AtaState → Bool × AtaState) :
    Prop :=
  ∀ k s start st0 st, s * 512 = o + start → start + k * 512 ≤ n → o + n ≤ data.len → 0 < k →
    Inside data o n st0 st → Inside data o n st0 (access k (data.lba + s) (.user start) st).2

def PartInside (data : DiskDeviceData) (o n : Nat)
    (part : Int → Nat → Nat → Nat → AtaState → Option (Bool × AtaState)) : Prop :=
  ∀ s start src k st0 st, PartOf data o n s start src k → Inside data o n st0 st →
    ∃ b st', part (s + data.lba) start src k st = some (b, st') ∧ Inside data o n st0 st'

section

variable {data : DiskDeviceData} {dev : AtaDevice} {o n : Nat} {st st0 : AtaState}
  {access : Nat → Nat → AtaBuffer → AtaState → Bool × AtaState}
  {part : Int → Nat → Nat → Nat → AtaState → Option (Bool × AtaState)}

private theorem readSectors_accessInside : AccessInside data o n (ataReadSectors dev) := by
  intro k s start st0 st hplace hn hlast hk h
  refine h.readSectors (by omega) fun start' hstart => ?_
  cases hstart
  exact hn

private theorem writeSectors_accessInside : AccessInside data o n (ataWriteSectors dev) := by
  intro k s start st0 st hplace hn hlast hk h
  refine h.writeSectors (by omega) (fun start' hstart => ?_) (fun i hi hout => ?_)
  · cases hstart
    exact hn
  · omega

private theorem fullSectors_inside (haccess : AccessInside data o n access) {base startDiff sectors : Nat}
    (hbase : base * 512 = o + startDiff) (hn : startDiff + sectors * 512 ≤ n) (hlast : o + n ≤ data.len)
    (hlba : ∀ j, 255 * j < sectors → data.lba + (base + 255 * j) < 2 ^ 32) {fuel i j : Nat} (hi : i = 255 * j)
    (hlt : i < sectors) (hfuel : sectors < fuel + i) (h : Inside data o n st0 st) :
    ∃ b st', fullSectors access ((base : Int) + data.lba) startDiff sectors fuel i st = some (b, st') ∧
      Inside data o n st0 st' := by
  induction fuel generalizing i j st with
  | zero => omega
  | succ fuel ih =>
    have hto : toUInt ((base : Int) + data.lba + i) = data.lba + (base + i) := by
      rw [show (base : Int) + data.lba + i = ((data.lba + (base + i) : Nat) : Int) by omega]
      refine toUInt_natCast ?_
      rw [hi]
      exact hlba j (by omega)
    have hplace : (base + i) * 512 = o + (startDiff + i * 512) := by
      rw [Nat.add_mul, hbase, Nat.add_assoc]
    unfold fullSectors
    dsimp only [ucharMax, ataSectorSize]
    rw [hto]
    by_cases hmore : i + 255 < sectors
    · rw [if_pos hmore]
      have hroom : startDiff + i * 512 + 255 * 512 ≤ n := by
        have hmul := Nat.mul_le_mul_right 512 (Nat.le_of_lt hmore)
        rw [Nat.add_mul] at hmul
        omega
      have hstep := haccess 255 (base + i) (startDiff + i * 512) st0 st hplace hroom hlast (by decide) h
      cases hr : access 255 (data.lba + (base + i)) (.user (startDiff + i * 512)) st with
      | mk b st1 =>
        rw [hr] at hstep
        cases b with
        | true => exact ⟨true, st1, rfl, hstep⟩
        | false => exact ih (j := j + 1) (by omega) hmore (by omega) hstep
    · rw [if_neg hmore, Nat.mod_eq_of_lt (by omega)]
      have hroom : startDiff + i * 512 + (sectors - i) * 512 ≤ n := by
        rw [Nat.add_assoc, ← Nat.add_mul, Nat.add_sub_cancel' (Nat.le_of_lt hlt)]
        exact hn
      have hstep := haccess (sectors - i) (base + i) (startDiff + i * 512) st0 st hplace hroom hlast
        (by omega) h
      exact ⟨_, _, rfl, hstep⟩

private theorem ataThen_confined {len : Nat} {offset : Int} {r : Option (Bool × AtaState)}
    {next : AtaState → Option AtaResult} (hn : data.clipped len offset = n) (ho : toSize offset = o)
    (hr : ∃ b st', r = some (b, st') ∧ Inside data o n st0 st')
    (hnext : ∀ st', Inside data o n st0 st' → Confined data len offset st0 (next st')) :
    Confined data len offset st0 (ataThen r next) := by
  obtain ⟨b, st', rfl, h⟩ := hr
  cases b with
  | true =>
    refine ⟨_, st', rfl, Or.inl rfl, ?_⟩
    rw [hn, ho]
    exact h
  | false => exact hnext st' h

private theorem ataDeviceIo_confined (haccess : ∀ o n, AccessInside data o n access)
    (hpart : ∀ o n, PartInside data o n part) {len : Nat} {offset : Int} (hlen : len < 2 ^ 64)
    (hlow : -2 ^ 63 ≤ offset) (hhigh : offset < 2 ^ 63)
    (hfits : len = 0 ∨ data.len ≤ toSize offset ∨ data.Fits len (toSize offset)) (st : AtaState) :
    Confined data len offset st (ataDeviceIo access part data len offset st) := by
  have hrefl : ∀ r : Int × Option Errno, r.1 = -1 ∨ r.1 = data.clipped len offset →
      Confined data len offset st (some (r, st)) := fun r hr => ⟨r, st, rfl, hr, Inside.refl⟩
  unfold ataDeviceIo
  by_cases hzero : len = 0
  · rw [if_pos hzero]
    refine hrefl _ (Or.inr ?_)
    unfold DiskDeviceData.clipped
    split <;> omega
  · rw [if_neg hzero]
    dsimp only
    by_cases hout : toSize offset ≥ data.len
    · rw [if_pos hout]
      exact hrefl _ (Or.inl rfl)
    · rw [if_neg hout]
      obtain ⟨o, ho⟩ : ∃ o, toSize offset = o := ⟨_, rfl⟩
      have hoff := eq_toSize hlow hhigh (Nat.lt_of_not_le hout)
      rw [ho] at hoff hout hfits
      subst hoff
      have hdata := data.len_lt
      have hin : o < data.len := Nat.lt_of_not_le hout
      obtain ⟨hend, hlba⟩ : data.Fits len o := by
        rcases hfits with hc | hc | hc
        · exact absurd hc hzero
        · omega
        · exact hc
      have hsum : o + len < 2 ^ 64 := by
        change o + len ≤ data.len ∨ o % 512 ≠ 0 ∧ (o + len) / 512 = o / 512 at hend
        omega
      have hclip : clipLen data len o = data.clipped len o := clipLen_eq hsum hin
      obtain ⟨n, hn⟩ : ∃ n, data.clipped len o = n := ⟨_, rfl⟩
      have hnval : n = min len (data.len - o) := by
        rw [← hn]
        unfold DiskDeviceData.clipped
        rw [ho, if_neg hout]
      obtain ⟨hstart, hmid, hend'⟩ := ataRequest_lba hsum
      have hdiff : (ataRequest len o).startDiff = (o + 511) / 512 * 512 - o := ataRequest_startDiff
      have hdone : ∀ st', Inside data o n st st' → Confined data len o st (some (((n : Int), none), st')) := by
        intro st' h
        refine ⟨_, st', rfl, Or.inr (by rw [hn]), ?_⟩
        rw [hn, ho]
        exact h
      rw [hclip, hn, hstart, hmid, hend', hdiff]
      dsimp only [ataSectorSize] at hend ⊢
      by_cases hsingle : (((o + 511) / 512 : Nat) : Int) > ((o + len) / 512 : Nat)
      · -- the request is inside of one sector
        rw [if_pos hsingle]
        refine ataThen_confined hn ho (hpart o n _ _ _ _ st st ⟨?_, ?_, ?_, ?_, ?_, ?_⟩ Inside.refl) hdone
        · exact hlba _ (Or.inl rfl)
        all_goals omega
      · rw [if_neg hsingle]
        have hle : (o + 511) / 512 ≤ (o + len) / 512 := by omega
        obtain ⟨hsectors, hendDiff⟩ := ataRequest_sizes (by omega) hsum hle
        rw [hsectors, hendDiff]
        have hfull : o + len ≤ data.len := by omega
        -- the whole sectors, then the part of the first sector, then that of the last one
        refine ataThen_confined hn ho ?_ fun st1 h1 => ?_
        · by_cases hany : (o + len) / 512 - (o + 511) / 512 ≠ 0
          · rw [if_pos hany]
            refine fullSectors_inside (haccess o n) (by omega) (by omega) (by omega) (fun j hj => ?_) (j := 0) rfl
              (by omega) (by omega) Inside.refl
            exact hlba _ (Or.inr (Or.inr ⟨j, rfl, by dsimp only [ataSectorSize, ucharMax]; omega⟩))
          · rw [if_neg hany]
            exact ⟨false, st, rfl, Inside.refl⟩
        · refine ataThen_confined hn ho ?_ fun st2 h2 => ?_
          · by_cases hhead : (o + 511) / 512 * 512 - o ≠ 0
            · rw [if_pos hhead]
              refine hpart o n _ _ _ _ st st1 ⟨?_, ?_, ?_, ?_, ?_, ?_⟩ h1
              · exact hlba _ (Or.inl rfl)
              all_goals omega
            · rw [if_neg hhead]
              exact ⟨false, st1, rfl, h1⟩
          · refine ataThen_confined hn ho ?_ hdone
            by_cases htail : (o + len) % 512 ≠ 0
            · rw [if_pos htail]
              refine hpart o n _ _ _ _ st st2 ⟨?_, ?_, ?_, ?_, ?_, ?_⟩ h2
              · exact hlba _ (Or.inr (Or.inl ⟨htail, rfl⟩))
              all_goals omega
            · rw [if_neg htail]
              exact ⟨false, st2, rfl, h2⟩

end

/-! ### Requests that leave the partition -/

def clearAta : AtaDevice := ⟨true, 2 ^ 32 - 1, fun _ => none, by decide⟩

def Grows (st st' : AtaState) : Prop := st.sectors ⊆ st'.sectors ∧ st.touched ⊆ st'.touched

section

variable {data : DiskDeviceData} {st st1 st2 : AtaState} {len o : Nat}

theorem Grows.trans (h1 : Grows st st1) (h2 : Grows st1 st2) : Grows st st2 :=
  ⟨List.Subset.trans h1.1 h2.1, List.Subset.trans h1.2 h2.2⟩

private theorem readSectors_clear (k lba : Nat) (buffer : AtaBuffer) (st : AtaState) :
    ∃ st1, ataReadSectors clearAta k lba buffer st = (false, st1) ∧
      st1.sectors = st.sectors ++ List.range' lba k ∧
      st1.touched = st.touched ++ AtaState.userBytes buffer (k * 512) := by
  have haccept : clearAta.rejects k lba = false := by
    have hlt := Nat.mod_lt (lba + k) (show 0 < 2 ^ 32 by decide)
    unfold AtaDevice.rejects
    rw [decide_eq_false (by change ¬ (lba + k) % 2 ^ 32 > 2 ^ 32 - 1; omega)]
    rfl
  unfold ataReadSectors
  rw [haccept, if_neg Bool.false_ne_true]
  exact ⟨_, rfl, accessRead_sectors buffer, accessRead_touched buffer⟩

theorem Grows.refl : Grows st st := ⟨List.Subset.refl _, List.Subset.refl _⟩

private theorem readPart_clear (s : Int) (start src k : Nat) (hsrc : src + k ≤ ataBufferSize) (st : AtaState) :
    ∃ st1, (if k ≠ 0 then readPart clearAta s start src k st else some (false, st)) = some (false, st1) ∧
      Grows st st1 ∧ (k ≠ 0 → toUInt s ∈ st1.sectors ∧ start + k - 1 ∈ st1.touched) := by
  by_cases hk : k ≠ 0
  · obtain ⟨st1, hread, hsectors, htouched⟩ := readSectors_clear 1 (toUInt s) .temp st
    unfold readPart
    rw [if_pos hk, hread]
    dsimp only
    unfold AtaState.toUser
    rw [if_pos hsrc]
    refine ⟨_, rfl, ⟨fun x hx => ?_, fun x hx => List.mem_append_left _ ?_⟩, fun _ => ⟨?_, ?_⟩⟩
    · change x ∈ st1.sectors
      rw [hsectors]
      exact List.mem_append_left _ hx
    · rw [htouched]
      exact List.mem_append_left _ hx
    · change toUInt s ∈ st1.sectors
      rw [hsectors]
      exact List.mem_append_right _ (List.mem_range'_1.2 ⟨le_refl _, Nat.lt_succ_self _⟩)
    · exact List.mem_append_right _ (List.mem_range'_1.2 ⟨by omega, by omega⟩)
  · rw [if_neg hk]
    exact ⟨st, rfl, Grows.refl, fun h => absurd h hk⟩

private theorem fullSectors_clear (base : Int) (startDiff : Nat) {sectors fuel i j : Nat} (hi : i = 255 * j)
    (hlt : i < sectors) (hfuel : sectors < fuel + i) (st : AtaState) :
    ∃ st1, fullSectors (ataReadSectors clearAta) base startDiff sectors fuel i st = some (false, st1) ∧ Grows st st1 ∧
      (∀ l, j ≤ l → 255 * l < sectors → toUInt (base + (255 * l : Nat)) ∈ st1.sectors) ∧
      startDiff + sectors * 512 - 1 ∈ st1.touched := by
  induction fuel generalizing i j st with
  | zero => omega
  | succ fuel ih =>
    have hsplit : startDiff + sectors * 512 = startDiff + i * 512 + (sectors - i) * 512 := by
      rw [Nat.add_assoc, ← Nat.add_mul, Nat.add_sub_cancel' (Nat.le_of_lt hlt)]
    unfold fullSectors
    dsimp only [ucharMax, ataSectorSize]
    by_cases hmore : i + 255 < sectors
    · obtain ⟨st1, hread, hsectors, htouched⟩ :=
        readSectors_clear 255 (toUInt (base + i)) (.user (startDiff + i * 512)) st
      rw [if_pos hmore, hread]
      dsimp only
      obtain ⟨st2, hrest, hgrows, hstarts, hlast⟩ := ih (j := j + 1) (by omega) hmore (by omega) st1
      have hfirst : Grows st st1 := by
        unfold Grows
        rw [hsectors, htouched]
        exact ⟨List.subset_append_left _ _, List.subset_append_left _ _⟩
      refine ⟨st2, hrest, hfirst.trans hgrows, fun l hl hls => ?_, hlast⟩
      rcases Nat.eq_or_lt_of_le hl with rfl | hl
      · refine hgrows.1 ?_
        rw [hsectors, ← hi]
        exact List.mem_append_right _ (List.mem_range'_1.2 ⟨le_refl _, by omega⟩)
      · exact hstarts l hl hls
    · obtain ⟨st1, hread, hsectors, htouched⟩ :=
        readSectors_clear ((sectors - i) % 256) (toUInt (base + i)) (.user (startDiff + i * 512)) st
      rw [if_neg hmore, hread]
      rw [Nat.mod_eq_of_lt (by omega)] at hsectors htouched
      refine ⟨st1, rfl, ?_, fun l hl hls => ?_, ?_⟩
      · unfold Grows
        rw [hsectors, htouched]
        exact ⟨List.subset_append_left _ _, List.subset_append_left _ _⟩
      · obtain rfl : l = j := by omega
        rw [hsectors, ← hi]
        exact List.mem_append_right _ (List.mem_range'_1.2 ⟨le_refl _, by omega⟩)
      · rw [htouched, hsplit]
        refine List.mem_append_right _ (List.mem_range'_1.2 ⟨?_, ?_⟩) <;> omega

/-- A request that is not inside one sector accesses the first sectors of all its transfers and all bytes up to the
last one it asks for. -/
private theorem deviceRead_clear (hpos : len ≠ 0) (hin : o < data.len) (hsum : o + len < 2 ^ 64)
    (hmid : (o + 511) / 512 ≤ (o + len) / 512) (st : AtaState) :
    ∃ r st', ataDeviceRead clearAta data len o st = some (r, st') ∧
      (∀ s, TransferStart o len s → toUInt ((s : Int) + data.lba) ∈ st'.sectors) ∧ len - 1 ∈ st'.touched := by
  have hdata := data.len_lt
  obtain ⟨hstart, hmid', hend⟩ := ataRequest_lba hsum
  have hdiff : (ataRequest len o).startDiff = (o + 511) / 512 * 512 - o := ataRequest_startDiff
  obtain ⟨hsectors, hendDiff⟩ := ataRequest_sizes (by omega) hsum hmid
  -- the three parts, each of which may be empty
  obtain ⟨st1, hfull, hg1, hchunks, hlast1⟩ : ∃ st1,
      (if (o + len) / 512 - (o + 511) / 512 ≠ 0 then
        fullSectors (ataReadSectors clearAta) ((((o + 511) / 512 : Nat) : Int) + data.lba)
          ((o + 511) / 512 * 512 - o) ((o + len) / 512 - (o + 511) / 512)
          ((o + len) / 512 - (o + 511) / 512 + 1) 0 st
      else some (false, st)) = some (false, st1) ∧ Grows st st1 ∧
      (∀ j, 255 * j < (o + len) / 512 - (o + 511) / 512 →
        toUInt ((((o + 511) / 512 : Nat) : Int) + data.lba + (255 * j : Nat)) ∈ st1.sectors) ∧
      ((o + len) / 512 - (o + 511) / 512 ≠ 0 → (o + 511) / 512 * 512 - o +
        ((o + len) / 512 - (o + 511) / 512) * 512 - 1 ∈ st1.touched) := by
    by_cases hany : (o + len) / 512 - (o + 511) / 512 ≠ 0
    · rw [if_pos hany]
      obtain ⟨st1, h1, h2, h3, h4⟩ := fullSectors_clear ((((o + 511) / 512 : Nat) : Int) + data.lba)
        ((o + 511) / 512 * 512 - o) (j := 0) rfl (Nat.pos_of_ne_zero hany) (Nat.lt_succ_self _) st
      exact ⟨st1, h1, h2, fun j hj => h3 j (Nat.zero_le j) hj, fun _ => h4⟩
    · rw [if_neg hany]
      exact ⟨st, rfl, Grows.refl, fun j hj => by omega, fun h => absurd h hany⟩
  have hbuffer : ataBufferSize = 2048 := rfl
  obtain ⟨st2, hheadEq, hg2, hhead⟩ := readPart_clear (((o / 512 : Nat) : Int) + data.lba) 0
    (512 - ((o + 511) / 512 * 512 - o)) ((o + 511) / 512 * 512 - o) (by omega) st1
  obtain ⟨st3, htailEq, hg3, htail⟩ := readPart_clear ((((o + len) / 512 : Nat) : Int) + data.lba)
    ((o + 511) / 512 * 512 - o + ((o + len) / 512 - (o + 511) / 512) * 512) 0 ((o + len) % 512) (by omega) st2
  refine ⟨((clipLen data len o : Nat), none), st3, ?_, fun s hs => ?_, ?_⟩
  · unfold ataDeviceRead ataDeviceIo
    dsimp only
    rw [if_neg hpos, toSize_natCast (by omega), if_neg (by omega), hstart, hmid', hend, hdiff, hsectors, hendDiff,
      if_neg (by omega)]
    dsimp only [ataSectorSize]
    rw [hfull]
    dsimp only [ataThen]
    rw [hheadEq]
    dsimp only
    rw [htailEq]
  · rcases hs with rfl | ⟨hne, rfl⟩ | ⟨j, rfl, hj⟩
    · dsimp only [ataSectorSize]
      by_cases hany : (o + 511) / 512 * 512 - o ≠ 0
      · exact hg3.1 (hhead hany).1
      · have heq : (o + 511) / 512 = o / 512 := by omega
        by_cases hnone : (o + len) / 512 - (o + 511) / 512 ≠ 0
        · have hfirst := hchunks 0 (by omega)
          rw [heq] at hfirst
          exact hg3.1 (hg2.1 (by simpa using hfirst))
        · have hlast := (htail (by omega)).1
          rw [show (o + len) / 512 = o / 512 by omega] at hlast
          exact hlast
    · exact (htail hne).1
    · dsimp only [ataSectorSize, ucharMax] at hj ⊢
      have hchunk := hchunks j (by omega)
      rw [show (((o + 511) / 512 : Nat) : Int) + data.lba + (255 * j : Nat) =
        (((o + 511) / 512 + 255 * j : Nat) : Int) + data.lba by omega] at hchunk
      exact hg3.1 (hg2.1 hchunk)
  · by_cases hne : (o + len) % 512 ≠ 0
    · have hlast := (htail hne).2
      rw [show (o + 511) / 512 * 512 - o + ((o + len) / 512 - (o + 511) / 512) * 512 + (o + len) % 512 - 1 = len - 1
        by omega] at hlast
      exact hlast
    · by_cases hnone : (o + len) / 512 - (o + 511) / 512 ≠ 0
      · have hlast := hlast1 hnone
        rw [show (o + 511) / 512 * 512 - o + ((o + len) / 512 - (o + 511) / 512) * 512 - 1 =
          len - 1 by omega] at hlast
        exact hg3.2 (hg2.2 hlast)
      · have hlast := (hhead (by omega)).2
        rw [show 0 + ((o + 511) / 512 * 512 - o) - 1 = len - 1 by omega] at hlast
        exact hg3.2 hlast

private theorem deviceRead_single (hpos : len ≠ 0) (hin : o < data.len) (hsum : o + len < 2 ^ 64)
    (hmid : (o + len) / 512 < (o + 511) / 512) (st : AtaState) :
    ∃ r st', ataDeviceRead clearAta data len o st = some (r, st') ∧
      toUInt (((o / 512 : Nat) : Int) + data.lba) ∈ st'.sectors := by
  have hdata := data.len_lt
  have hbuffer : ataBufferSize = 2048 := rfl
  obtain ⟨hstart, hmid', hend⟩ := ataRequest_lba hsum
  have hdiff : (ataRequest len o).startDiff = (o + 511) / 512 * 512 - o := ataRequest_startDiff
  have hclip : clipLen data len o ≤ len := by
    rw [clipLen_eq hsum hin]
    unfold DiskDeviceData.clipped
    split
    · exact Nat.zero_le _
    · exact Nat.min_le_left _ _
  have hsome : clipLen data len o ≠ 0 := by
    rw [clipLen_eq hsum hin]
    unfold DiskDeviceData.clipped
    rw [toSize_natCast (by omega), if_neg (by omega)]
    omega
  obtain ⟨st1, hread, -, hsector⟩ := readPart_clear (((o / 512 : Nat) : Int) + data.lba) 0
    (512 - ((o + 511) / 512 * 512 - o)) (clipLen data len o) (by omega) st
  rw [if_pos hsome] at hread
  refine ⟨((clipLen data len o : Nat), none), st1, ?_, (hsector hsome).1⟩
  unfold ataDeviceRead ataDeviceIo
  dsimp only
  rw [if_neg hpos, toSize_natCast (by omega), if_neg (by omega), hstart, hmid', hend, hdiff, if_pos (by omega)]
  dsimp only [ataSectorSize]
  rw [hread]
  rfl

private theorem deviceRead_wraps (hpos : len ≠ 0) (hlen : len < 2 ^ 64) (hin : o < data.len) (hsum : 2 ^ 64 ≤ o + len)
    (st : AtaState) : ataDeviceRead clearAta data len o st = none := by
  have hdata := data.len_lt
  have hclip : clipLen data len o = len := by
    unfold clipLen
    rw [if_neg]
    unfold toSize
    omega
  obtain ⟨st1, hread, -, -⟩ :=
    readSectors_clear 1 (toUInt ((ataRequest len o).startLba + data.lba)) .temp st
  unfold ataDeviceRead ataDeviceIo
  dsimp only
  rw [if_neg hpos, toSize_natCast (by omega), if_neg (by omega), if_pos (ataRequest_wraps (by omega) hlen hsum),
    hclip]
  unfold readPart
  rw [hread]
  dsimp only
  unfold AtaState.toUser
  rw [if_neg (by have hbuffer : ataBufferSize = 2048 := rfl; omega)]
  rfl

end

theorem TransferStart.le {o len s : Nat} (h : TransferStart o len s) : s ≤ (o + len) / 512 := by
  rcases h with rfl | ⟨-, rfl⟩ | ⟨j, -, hj⟩
  · exact Nat.div_le_div_right (Nat.le_add_right _ _)
  · exact le_refl _
  · exact Nat.le_of_lt hj

theorem TransferStart.single {o len s : Nat} (h : TransferStart o len s)
    (hmid : (o + len) / 512 < (o + 511) / 512) : s = o / 512 := by
  rcases h with rfl | ⟨-, rfl⟩ | ⟨j, rfl, hj⟩
  · rfl
  · dsimp only [ataSectorSize]
    omega
  · dsimp only [ataSectorSize, ucharMax] at hj
    omega

private theorem lba_lt_of_hasByteIn {data : DiskDeviceData} {s : Nat} (hs : s < 2 ^ 32)
    (h : data.HasByteIn (toUInt ((s : Int) + data.lba))) : data.lba + s < 2 ^ 32 := by
  have hlba := data.lba_lt
  have hle := h.1
  unfold toUInt at hle
  omega

/-- On every drive, reading and writing the bytes of a request keep to the partition exactly when the request is
empty, starts behind the partition or fits into it. -/
theorem ata_confined_iff (data : DiskDeviceData) {len : Nat} {offset : Int} (hlen : len < 2 ^ 64)
    (hlow : -2 ^ 63 ≤ offset) (hhigh : offset < 2 ^ 63) :
    (∀ dev st, Confined data len offset st (ataDeviceRead dev data len offset st) ∧
      Confined data len offset st (ataDeviceWrite dev data len offset st)) ↔
    len = 0 ∨ data.len ≤ toSize offset ∨ data.Fits len (toSize offset) := by
  constructor
  · intro h
    by_cases hpos : len = 0
    · exact Or.inl hpos
    by_cases hout : data.len ≤ toSize offset
    · exact Or.inr (Or.inl hout)
    refine Or.inr (Or.inr ?_)
    obtain ⟨o, ho⟩ : ∃ o, toSize offset = o := ⟨_, rfl⟩
    have hoff := eq_toSize hlow hhigh (Nat.lt_of_not_le hout)
    rw [ho] at hoff hout ⊢
    subst hoff
    have hin : o < data.len := Nat.lt_of_not_le hout
    have hdata := data.len_lt
    obtain ⟨r, st', hread, -, hinside⟩ := (h clearAta ⟨fun _ => 0, fun _ => 0, fun _ => 0, 0, [], []⟩).1
    have hsector : ∀ s : Nat, toUInt ((s : Int) + data.lba) ∈ st'.sectors → s < 2 ^ 32 → data.lba + s < 2 ^ 32 := by
      intro s hs hlt
      rcases hinside.sectors _ hs with hnil | hbyte
      · cases hnil
      · exact lba_lt_of_hasByteIn hlt hbyte
    rcases Nat.lt_or_ge (o + len) (2 ^ 64) with hsum | hsum
    · rcases Nat.lt_or_ge ((o + len) / 512) ((o + 511) / 512) with hmid | hmid
      · obtain ⟨r', st'', hread', hmem⟩ := deviceRead_single hpos hin hsum hmid
          ⟨fun _ => 0, fun _ => 0, fun _ => 0, 0, [], []⟩
        obtain ⟨-, rfl⟩ := Prod.mk.inj (Option.some.inj (hread'.symm.trans hread))
        refine ⟨Or.inr ?_, fun s hs => hsector s ?_ ?_⟩
        · dsimp only [ataSectorSize]
          omega
        · rw [hs.single hmid]
          exact hmem
        · have hle := hs.single hmid
          omega
      · obtain ⟨r', st'', hread', hstarts, hlast⟩ := deviceRead_clear hpos hin hsum hmid
          ⟨fun _ => 0, fun _ => 0, fun _ => 0, 0, [], []⟩
        obtain ⟨-, rfl⟩ := Prod.mk.inj (Option.some.inj (hread'.symm.trans hread))
        have hfull : o + len ≤ data.len := by
          rcases hinside.touched _ hlast with hnil | hlt
          · cases hnil
          · unfold DiskDeviceData.clipped at hlt
            rw [ho, if_neg hout] at hlt
            omega
        refine ⟨Or.inl hfull, fun s hs => hsector s (hstarts s hs) ?_⟩
        have hle := hs.le
        omega
    · rw [deviceRead_wraps hpos hlen hin hsum] at hread
      cases hread
  · intro h dev st
    refine ⟨ataDeviceIo_confined (fun o n => readSectors_accessInside) (fun o n => ?_) hlen hlow hhigh h st,
      ataDeviceIo_confined (fun o n => writeSectors_accessInside) (fun o n => ?_) hlen hlow hhigh h st⟩
    · exact fun s start src k st0 st hp hi => readPart_inside hp hi
    · exact fun s start src k st0 st hp hi => writePart_inside hp hi

def smallPartition : DiskDeviceData := ⟨63, 1024, by decide, by decide⟩

/-- Reading and writing 24 bytes from byte 500 on. -/
theorem ata_confined_small : ∃ dev st,
    Confined smallPartition 24 500 st (ataDeviceRead dev smallPartition 24 500 st) ∧
    Confined smallPartition 24 500 st (ataDeviceWrite dev smallPartition 24 500 st) := by
  refine ⟨clearAta, ⟨fun _ => 0, fun _ => 0, fun _ => 0, 0, [], []⟩, ?_⟩
  refine (ata_confined_iff smallPartition (by decide) (by decide) (by decide)).2
    (Or.inr (Or.inr ⟨Or.inl (by decide), ?_⟩))
    clearAta _
  intro s hs
  change s = 0 ∨ _ ∧ s = 1 ∨ ∃ j, s = 1 + 255 * j ∧ s < 1 at hs
  change 63 + s < 2 ^ 32
  omega

/-- A request that crosses the end of the partition writes the sector behind it. -/
theorem ata_not_confined : ¬ ∀ dev st,
    Confined smallPartition 1024 512 st (ataDeviceRead dev smallPartition 1024 512 st) ∧
    Confined smallPartition 1024 512 st (ataDeviceWrite dev smallPartition 1024 512 st) := by
  intro h
  obtain ⟨r, st', hwrite, -, hinside⟩ := (h clearAta ⟨fun _ => 0, fun _ => 0, fun _ => 1, 0, [], []⟩).2
  have hrun : (ataDeviceWrite clearAta smallPartition 1024 512 ⟨fun _ => 0, fun _ => 0, fun _ => 1, 0, [], []⟩).all
      (fun r => r.2.disk (65 * 512) = 1) = true := by decide
  rw [hwrite, Option.all_some] at hrun
  have hbyte := hinside.disk (65 * 512) (Or.inr (by decide))
  rw [of_decide_eq_true hrun] at hbyte
  cases hbyte

end Pml.Drivers
