import Pml.Drivers.Ata
import Mathlib.Logic.Function.Basic

/-!
# The registers of an ATA command (`ata_access`)

`ata_access` writes the place of the first sector, in one of three forms, the number of sectors and the command to the
ports of the channel, and the number of bytes to the descriptor of a DMA transfer.  The drive keeps the last two bytes
that were written to each port of the command block, and reads the place of the sector off them when the command is
written.

The descriptor has 16 bits for the number of bytes, of which 0 means 65536, the check of the range adds 32-bit
numbers, and the number of a cylinder has 16 bits.  A request that is not concerned by these limits is programmed in
full (`ata_programmed_iff`).
-/

namespace Pml.Drivers

/-- The drive with the members of `struct ata_device` that the registers depend on. -/
structure AtaDrive extends AtaDevice where
  drive : Nat
  capabilities : Nat
  drive_lt : drive < 2

inductive AtaOp
  | read
  | write
  deriving DecidableEq

inductive AtaAddrMode
  | chs
  | lba28
  | lba48
  deriving DecidableEq

/-- The ports of a channel. -/
inductive AtaPort
  | base (n : Nat)
  | control (n : Nat)
  | busMaster (n : Nat)
  deriving DecidableEq

/-! ### The code -/

/-- The port that `ata_write` writes for a register. -/
def ataPort (reg : Nat) : Option AtaPort :=
  if reg < 0x08 then some (.base reg)
  else if reg < 0x0c then some (.base (reg - 0x06))
  else if reg < 0x0e then some (.control (reg - 0x0a))
  else if reg < 0x16 then some (.busMaster (reg - 0x0e))
  else none

/-- The bytes that `ata_write` writes. -/
def ataWrite (nien reg value : Nat) : List (AtaPort × Nat) :=
  let high := 0x07 < reg ∧ reg < 0x0c
  (if high then [(.control 2, 0x80 ||| nien)] else []) ++
    (match ataPort reg with
      | some port => [(port, value % 2 ^ 8)]
      | none => []) ++
    if high then [(.control 2, nien)] else []

/-- The form of the address, `lba_io` and `head`. -/
structure AtaAddress where
  mode : AtaAddrMode
  lbaIo : List Nat
  head : Nat

def ataAddress (capabilities lba : Nat) : AtaAddress :=
  if lba ≥ 0x10000000 then
    ⟨.lba48, [lba &&& 0xff, (lba >>> 8) &&& 0xff, (lba >>> 16) &&& 0xff, (lba >>> 24) &&& 0xff, 0, 0], 0⟩
  else if capabilities &&& (1 <<< 9) ≠ 0 then
    ⟨.lba28, [lba &&& 0xff, (lba >>> 8) &&& 0xff, (lba >>> 16) &&& 0xff, 0, 0, 0], (lba >>> 24) &&& 0xf⟩
  else
    let sector : Nat := (lba % 63 + 1) % 2 ^ 8
    let start := toUInt ((lba : Int) - sector + 1)
    let cylinder := start / 1008 % 2 ^ 16
    ⟨.chs, [sector, cylinder &&& 0xff, (cylinder >>> 8) &&& 0xff, 0, 0, 0], start % 1008 / 63 % 2 ^ 8⟩

def ataCommand (op : AtaOp) (mode : AtaAddrMode) (dma : Bool) : Nat :=
  if mode = .lba48 then
    if dma then if op = .write then 0x35 else 0x25
    else if op = .write then 0x34 else 0x24
  else
    if dma then if op = .write then 0xca else 0xc8
    else if op = .write then 0x30 else 0x20

/-- What `ata_access` programs: the length in the descriptor, for DMA, and the bytes written up to the command. -/
structure AtaProgram where
  prdtLen : Option Nat
  writes : List (AtaPort × Nat)

/-- `ata_access` up to the command; `nien` is the one of the channel, `prdt` the physical address of the descriptor
and `bmStatus` the value that is read from `ATA_REG_BM_STATUS`. -/
def ataAccess (op : AtaOp) (dev : AtaDrive) (dma : Bool) (nien prdt bmStatus lba sectors : Nat) : AtaProgram :=
  let nien := if dma then nien else 0x02
  let address := ataAddress dev.capabilities lba
  let io i := address.lbaIo.getD i 0
  { prdtLen := if dma then some (sectors * ataSectorSize % 2 ^ 16) else none
    writes :=
      (if dma then
        ataWrite nien 0x12 (prdt &&& 0xff) ++ ataWrite nien 0x13 ((prdt >>> 8) &&& 0xff) ++
          ataWrite nien 0x14 ((prdt >>> 16) &&& 0xff) ++ ataWrite nien 0x15 ((prdt >>> 24) &&& 0xff)
      else ataWrite nien 0x0c nien) ++
      (if dma then ataWrite nien 0x10 (bmStatus &&& 0xf9) else []) ++
      (if address.mode = .chs then ataWrite nien 0x06 (0xa0 ||| dev.drive <<< 4 ||| address.head)
      else ataWrite nien 0x06 (0xe0 ||| dev.drive <<< 4 ||| address.head)) ++
      (if address.mode = .lba48 then
        ataWrite nien 0x08 0 ++ ataWrite nien 0x09 (io 3) ++ ataWrite nien 0x0a (io 4) ++ ataWrite nien 0x0b (io 5)
      else []) ++
      ataWrite nien 0x02 sectors ++ ataWrite nien 0x03 (io 0) ++ ataWrite nien 0x04 (io 1) ++ ataWrite nien 0x05
      (io 2) ++
      ataWrite nien 0x07 (ataCommand op address.mode dma) }

/-- `ata_read_sectors` and `ata_write_sectors`: nothing is programmed if they reject the request. -/
def ataProgramSectors (op : AtaOp) (dev : AtaDrive) (dma : Bool) (nien prdt bmStatus sectors lba : Nat) :
    Option AtaProgram :=
  if dev.rejects sectors lba then none else some (ataAccess op dev dma nien prdt bmStatus lba sectors)

/-! ### The drive -/

abbrev TaskFile : Type := Nat → Nat × Nat

def TaskFile.write (file : TaskFile) (w : AtaPort × Nat) : TaskFile :=
  match w.1 with
  | .base n => Function.update file n (w.2, (file n).1)
  | _ => file

/-- The first sector of the command, on a drive with 16 heads and 63 sectors for each of them. -/
def TaskFile.lba (file : TaskFile) : Nat :=
  let now n := (file n).1
  let before n := (file n).2
  if now 7 ∈ [0x24, 0x25, 0x34, 0x35] then
    now 3 + now 4 * 2 ^ 8 + now 5 * 2 ^ 16 + before 3 * 2 ^ 24 + before 4 * 2 ^ 32 + before 5 * 2 ^ 40
  else if now 6 &&& 0x40 ≠ 0 then now 3 + now 4 * 2 ^ 8 + now 5 * 2 ^ 16 + (now 6 &&& 0xf) * 2 ^ 24
  else ((now 4 + now 5 * 2 ^ 8) * 16 + (now 6 &&& 0xf)) * 63 + now 3 - 1

section

variable {file : TaskFile}

private theorem TaskFile.lba_ext (h : (file 7).1 ∈ [0x24, 0x25, 0x34, 0x35]) :
    file.lba = (file 3).1 + (file 4).1 * 2 ^ 8 + (file 5).1 * 2 ^ 16 + (file 3).2 * 2 ^ 24 + (file 4).2 * 2 ^ 32 +
      (file 5).2 * 2 ^ 40 :=
  if_pos h

private theorem TaskFile.lba_bit (h : (file 7).1 ∉ [0x24, 0x25, 0x34, 0x35]) (hbit : (file 6).1 &&& 0x40 ≠ 0) :
    file.lba = (file 3).1 + (file 4).1 * 2 ^ 8 + (file 5).1 * 2 ^ 16 + ((file 6).1 &&& 0xf) * 2 ^ 24 :=
  (if_neg h).trans (if_pos hbit)

private theorem TaskFile.lba_cylinder (h : (file 7).1 ∉ [0x24, 0x25, 0x34, 0x35]) (hbit : (file 6).1 &&& 0x40 = 0) :
    file.lba = (((file 4).1 + (file 5).1 * 2 ^ 8) * 16 + ((file 6).1 &&& 0xf)) * 63 + (file 3).1 - 1 :=
  (if_neg h).trans (if_neg (not_not.2 hbit))

end

def prdtBytes (len : Nat) : Nat := if len = 0 then 65536 else len

/-- The request is accepted exactly if it is inside the drive, and if it is, then the descriptor has its number of
bytes and the registers its first sector. -/
def Programmed (dev : AtaDrive) (sectors lba : Nat) (file : TaskFile) (program : Option AtaProgram) : Prop :=
  (program.isSome ↔ dev.present = true ∧ lba + sectors ≤ dev.size) ∧
    ∀ p, program = some p → (∀ len, p.prdtLen = some len → prdtBytes len = sectors * ataSectorSize) ∧
      (p.writes.foldl TaskFile.write file).lba = lba

/-- The sum of the range check does not wrap to a number that is accepted, and a request that is inside the drive has
at most 128 sectors with DMA and starts before cylinder 65536 where cylinders are counted. -/
def AtaDrive.Limits (dev : AtaDrive) (dma : Bool) (sectors lba : Nat) : Prop :=
  (dev.present = true → 2 ^ 32 ≤ lba + sectors → dev.size < lba + sectors - 2 ^ 32) ∧
    (dev.present = true → lba + sectors ≤ dev.size → (dma = true → sectors ≤ 128) ∧
      (lba < 0x10000000 → dev.capabilities &&& (1 <<< 9) = 0 → lba < 65536 * 1008))

/-! ### The registers -/

section

variable (nien v : Nat) (file : TaskFile)

private theorem write_base {reg : Nat} (h : reg < 0x08) :
    (ataWrite nien reg v).foldl TaskFile.write file = Function.update file reg (v % 2 ^ 8, (file reg).1) := by
  have hhigh : ¬ (0x07 < reg ∧ reg < 0x0c) := by omega
  simp only [ataWrite, ataPort, if_pos h, if_neg hhigh, List.nil_append, List.append_nil]
  rfl

private theorem write_high {reg : Nat} (h : 0x08 ≤ reg) (hlt : reg < 0x0c) :
    (ataWrite nien reg v).foldl TaskFile.write file =
      Function.update file (reg - 0x06) (v % 2 ^ 8, (file (reg - 0x06)).1) := by
  have hhigh : 0x07 < reg ∧ reg < 0x0c := by omega
  have hbase : ¬ reg < 0x08 := by omega
  simp only [ataWrite, ataPort, if_neg hbase, if_pos hlt, if_pos hhigh]
  rfl

private theorem write_other {reg : Nat} (h : 0x0c ≤ reg) :
    (ataWrite nien reg v).foldl TaskFile.write file = file := by
  have hhigh : ¬ (0x07 < reg ∧ reg < 0x0c) := by omega
  have hbase : ¬ reg < 0x08 := by omega
  have hlow : ¬ reg < 0x0c := by omega
  simp only [ataWrite, ataPort, if_neg hbase, if_neg hlow, if_neg hhigh, List.nil_append, List.append_nil]
  split
  case h_1 port hport =>
    split at hport
    · cases hport
      rfl
    · split at hport
      · cases hport
        rfl
      · cases hport
  case h_2 => rfl

end

/-! ### The place of the first sector -/

section

variable (op : AtaOp) (dev : AtaDrive) (dma : Bool) (nien prdt bmStatus lba sectors : Nat) (file : TaskFile)

private theorem access_once (h : (ataAddress dev.capabilities lba).mode ≠ .lba48) :
    ∃ select, select = (if (ataAddress dev.capabilities lba).mode = .chs then 0xa0 else 0xe0) ∧
      let regs := (ataAccess op dev dma nien prdt bmStatus lba sectors).writes.foldl TaskFile.write file
      (regs 3).1 = (ataAddress dev.capabilities lba).lbaIo.getD 0 0 % 2 ^ 8 ∧
        (regs 4).1 = (ataAddress dev.capabilities lba).lbaIo.getD 1 0 % 2 ^ 8 ∧
        (regs 5).1 = (ataAddress dev.capabilities lba).lbaIo.getD 2 0 % 2 ^ 8 ∧
        (regs 6).1 = (select ||| dev.drive <<< 4 ||| (ataAddress dev.capabilities lba).head) % 2 ^ 8 ∧
        (regs 7).1 = ataCommand op (ataAddress dev.capabilities lba).mode dma % 2 ^ 8 := by
  refine ⟨_, rfl, ?_⟩
  simp only [ataAccess, List.foldl_append, if_neg h]
  by_cases hchs : (ataAddress dev.capabilities lba).mode = .chs <;> cases dma <;>
    simp (disch := omega) [hchs, write_base, write_other, Function.update]

private theorem access_twice (h : (ataAddress dev.capabilities lba).mode = .lba48) :
    let io i := (ataAddress dev.capabilities lba).lbaIo.getD i 0
    let regs := (ataAccess op dev dma nien prdt bmStatus lba sectors).writes.foldl TaskFile.write file
    regs 3 = (io 0 % 2 ^ 8, io 3 % 2 ^ 8) ∧ regs 4 = (io 1 % 2 ^ 8, io 4 % 2 ^ 8) ∧
      regs 5 = (io 2 % 2 ^ 8, io 5 % 2 ^ 8) ∧ (regs 7).1 = ataCommand op .lba48 dma % 2 ^ 8 := by
  simp only [ataAccess, List.foldl_append, h]
  cases dma <;> simp (disch := omega) [write_base, write_high, write_other, Function.update]

private theorem ataCommand_ext (mode : AtaAddrMode) :
    ataCommand op mode dma % 2 ^ 8 ∈ [0x24, 0x25, 0x34, 0x35] ↔ mode = .lba48 := by
  cases op <;> cases mode <;> cases dma <;> decide

private theorem and_ff (x : Nat) : x &&& 0xff = x % 2 ^ 8 :=
  Nat.and_two_pow_sub_one_eq_mod x 8

private theorem and_f (x : Nat) : x &&& 0xf = x % 2 ^ 4 :=
  Nat.and_two_pow_sub_one_eq_mod x 4

private theorem bytes_lba28 {x : Nat} (h : x < 0x10000000) :
    x % 2 ^ 8 + x / 2 ^ 8 % 2 ^ 8 * 2 ^ 8 + x / 2 ^ 16 % 2 ^ 8 * 2 ^ 16 + x / 2 ^ 24 % 2 ^ 4 * 2 ^ 24 = x := by
  have hlow : x % 2 ^ 8 + x / 2 ^ 8 % 2 ^ 8 * 2 ^ 8 = x % 2 ^ 16 := by omega
  have hmid : x % 2 ^ 16 + x / 2 ^ 16 % 2 ^ 8 * 2 ^ 16 = x % 2 ^ 24 := by omega
  have hhigh : x / 2 ^ 24 % 2 ^ 4 = x / 2 ^ 24 := by omega
  rw [hlow, hmid, hhigh]
  omega

private theorem cylinder_iff (x : Nat) :
    ((x / 1008 % 2 ^ 16 % 2 ^ 8 % 2 ^ 8 + x / 1008 % 2 ^ 16 / 2 ^ 8 % 2 ^ 8 % 2 ^ 8 * 2 ^ 8) * 16 + x % 1008 / 63) *
    63 +
      (x % 63 + 1) % 2 ^ 8 - 1 = x ↔ x < 65536 * 1008 := by
  have hcyl : x / 1008 % 2 ^ 16 % 2 ^ 8 % 2 ^ 8 + x / 1008 % 2 ^ 16 / 2 ^ 8 % 2 ^ 8 % 2 ^ 8 * 2 ^ 8 =
      x / 1008 % 2 ^ 16 := by
    omega
  have hsector : (x % 63 + 1) % 2 ^ 8 = x % 63 + 1 := by omega
  rw [hcyl, hsector]
  have hparts : (x / 1008 * 16 + x % 1008 / 63) * 63 + x % 63 = x := by omega
  omega

private theorem select_head {drive head : Nat} (hd : drive < 2) (hh : head < 16) :
    (0xe0 ||| drive <<< 4 ||| head) % 2 ^ 8 &&& 0x40 ≠ 0 ∧ (0xe0 ||| drive <<< 4 ||| head) % 2 ^ 8 &&& 0xf = head ∧
      (0xa0 ||| drive <<< 4 ||| head) % 2 ^ 8 &&& 0x40 = 0 ∧
      (0xa0 ||| drive <<< 4 ||| head) % 2 ^ 8 &&& 0xf = head := by
  have h : ∀ d < 2, ∀ n < 16, (0xe0 ||| d <<< 4 ||| n) % 2 ^ 8 &&& 0x40 ≠ 0 ∧
      (0xe0 ||| d <<< 4 ||| n) % 2 ^ 8 &&& 0xf = n ∧ (0xa0 ||| d <<< 4 ||| n) % 2 ^ 8 &&& 0x40 = 0 ∧
      (0xa0 ||| d <<< 4 ||| n) % 2 ^ 8 &&& 0xf = n := by
    decide
  exact h drive hd head hh

private theorem lba_lba48 (h : 0x10000000 ≤ lba) (hlt : lba < 2 ^ 32) :
    ((ataAccess op dev dma nien prdt bmStatus lba sectors).writes.foldl TaskFile.write file).lba = lba := by
  have haddress : ataAddress dev.capabilities lba = ⟨.lba48, [lba &&& 0xff, (lba >>> 8) &&& 0xff,
      (lba >>> 16) &&& 0xff, (lba >>> 24) &&& 0xff, 0, 0], 0⟩ := if_pos h
  obtain ⟨h3, h4, h5, h7⟩ := access_twice op dev dma nien prdt bmStatus lba sectors file (by rw [haddress])
  rw [haddress] at h3 h4 h5
  rw [TaskFile.lba_ext (h7 ▸ (ataCommand_ext op dma .lba48).2 rfl), h3, h4, h5]
  simp only [List.getD_cons_zero, List.getD_cons_succ, and_ff, Nat.shiftRight_eq_div_pow]
  omega

private theorem lba_lba28 (h : lba < 0x10000000) (hcap : dev.capabilities &&& (1 <<< 9) ≠ 0) :
    ((ataAccess op dev dma nien prdt bmStatus lba sectors).writes.foldl TaskFile.write file).lba = lba := by
  have haddress : ataAddress dev.capabilities lba = ⟨.lba28, [lba &&& 0xff, (lba >>> 8) &&& 0xff,
      (lba >>> 16) &&& 0xff, 0, 0, 0], (lba >>> 24) &&& 0xf⟩ := by
    rw [ataAddress, if_neg (Nat.not_le.2 h), if_pos hcap]
  obtain ⟨select, hselect, h3, h4, h5, h6, h7⟩ :=
    access_once op dev dma nien prdt bmStatus lba sectors file (by rw [haddress]; nofun)
  have hext : ataCommand op .lba28 dma % 2 ^ 8 ∉ [0x24, 0x25, 0x34, 0x35] :=
    fun hmem => by cases (ataCommand_ext op dma .lba28).1 hmem
  rw [haddress] at hselect h3 h4 h5 h6 h7
  obtain rfl : select = 0xe0 := hselect
  have hhead : (lba >>> 24) &&& 0xf < 16 := by
    rw [and_f]
    exact Nat.mod_lt _ (by decide)
  obtain ⟨hbit, hnum, -, -⟩ := select_head dev.drive_lt hhead
  rw [TaskFile.lba_bit (h7 ▸ hext) (h6 ▸ hbit), h6, hnum, h3, h4, h5]
  simp only [List.getD_cons_zero, List.getD_cons_succ, and_ff, and_f, Nat.shiftRight_eq_div_pow, Nat.mod_mod]
  exact bytes_lba28 h

/-- The form with cylinders has the place of the sectors before cylinder 65536. -/
private theorem lba_chs (h : lba < 0x10000000) (hcap : dev.capabilities &&& (1 <<< 9) = 0) :
    ((ataAccess op dev dma nien prdt bmStatus lba sectors).writes.foldl TaskFile.write file).lba = lba ↔
      lba < 65536 * 1008 := by
  have haddress : ataAddress dev.capabilities lba = ⟨.chs, [lba % 63 + 1, lba / 1008 % 2 ^ 16 &&& 0xff,
      ((lba / 1008 % 2 ^ 16) >>> 8) &&& 0xff, 0, 0, 0], lba % 1008 / 63⟩ := by
    have hsector : (lba % 63 + 1) % 2 ^ 8 = lba % 63 + 1 := by omega
    have hstart : toUInt ((lba : Int) - (lba % 63 + 1 : Nat) + 1) = lba - lba % 63 := by
      have hsub : (lba : Int) - (lba % 63 + 1 : Nat) + 1 = (lba - lba % 63 : Nat) := by omega
      have hbound : lba - lba % 63 < 2 ^ 32 := by omega
      rw [hsub]
      exact Nat.mod_eq_of_lt hbound
    have hcyl : (lba - lba % 63) / 1008 = lba / 1008 := by omega
    have hhead : (lba - lba % 63) % 1008 / 63 % 2 ^ 8 = lba % 1008 / 63 := by omega
    rw [ataAddress, if_neg (Nat.not_le.2 h), if_neg (not_not.2 hcap)]
    dsimp only
    rw [hsector, hstart, hcyl, hhead]
  obtain ⟨select, hselect, h3, h4, h5, h6, h7⟩ :=
    access_once op dev dma nien prdt bmStatus lba sectors file (by rw [haddress]; nofun)
  have hext : ataCommand op .chs dma % 2 ^ 8 ∉ [0x24, 0x25, 0x34, 0x35] :=
    fun hmem => by cases (ataCommand_ext op dma .chs).1 hmem
  rw [haddress] at hselect h3 h4 h5 h6 h7
  obtain rfl : select = 0xa0 := hselect
  have hhead : lba % 1008 / 63 < 16 := by omega
  obtain ⟨-, -, hbit, hnum⟩ := select_head dev.drive_lt hhead
  rw [TaskFile.lba_cylinder (h7 ▸ hext) (h6 ▸ hbit), h6, hnum, h3, h4, h5]
  simp only [List.getD_cons_zero, List.getD_cons_succ, and_ff, Nat.shiftRight_eq_div_pow]
  exact cylinder_iff lba

private theorem lba_iff (hlt : lba < 2 ^ 32) :
    ((ataAccess op dev dma nien prdt bmStatus lba sectors).writes.foldl TaskFile.write file).lba = lba ↔
      (lba < 0x10000000 → dev.capabilities &&& (1 <<< 9) = 0 → lba < 65536 * 1008) := by
  by_cases h : lba < 0x10000000
  case neg => exact ⟨fun _ hl => absurd hl h, fun _ => lba_lba48 _ _ _ _ _ _ _ _ _ (Nat.not_lt.1 h) hlt⟩
  by_cases hcap : dev.capabilities &&& (1 <<< 9) = 0
  case neg => exact ⟨fun _ _ hc => absurd hc hcap, fun _ => lba_lba28 _ _ _ _ _ _ _ _ _ h hcap⟩
  rw [lba_chs _ _ _ _ _ _ _ _ _ h hcap]
  exact ⟨fun hl _ _ => hl, fun hl => hl h hcap⟩

private theorem prdtBytes_iff {sectors : Nat} (h : 1 ≤ sectors) (hle : sectors ≤ ucharMax) :
    prdtBytes (sectors * ataSectorSize % 2 ^ 16) = sectors * ataSectorSize ↔ sectors ≤ 128 := by
  show (if sectors * 512 % 65536 = 0 then 65536 else sectors * 512 % 65536) = sectors * 512 ↔ _
  have hle : sectors ≤ 255 := hle
  split <;> omega

private theorem accepts_iff (h : sectors ≤ ucharMax) (hlt : lba < 2 ^ 32) :
    ((¬ dev.rejects sectors lba = true) ↔ dev.present = true ∧ lba + sectors ≤ dev.size) ↔
      (dev.present = true → 2 ^ 32 ≤ lba + sectors → dev.size < lba + sectors - 2 ^ 32) := by
  have hsize := dev.size_lt
  have hle : sectors ≤ 255 := h
  simp only [AtaDevice.rejects, Bool.or_eq_true, Bool.not_eq_true', decide_eq_true_eq, not_or, Bool.not_eq_false,
    Nat.not_lt, gt_iff_lt]
  by_cases hp : dev.present = true
  case neg => exact iff_of_true (iff_of_false (fun hr => hp hr.1) fun hr => hp hr.1) fun hr => absurd hr hp
  simp only [hp, true_and, true_implies]
  omega

end

/-- Requests of 1 to 255 sectors at any place are programmed in full exactly if they do not meet one of the limits:
the 32 bits of the range check, the 16 bits of the length in the descriptor, and the 16 bits of the number of a
cylinder. -/
theorem ata_programmed_iff (op : AtaOp) (dev : AtaDrive) (dma : Bool) (nien prdt bmStatus : Nat) (file : TaskFile)
    {sectors lba : Nat} (h : 1 ≤ sectors) (hle : sectors ≤ ucharMax) (hlt : lba < 2 ^ 32) :
    Programmed dev sectors lba file (ataProgramSectors op dev dma nien prdt bmStatus sectors lba) ↔
      dev.Limits dma sectors lba := by
  have haccept := accepts_iff dev lba sectors hle hlt
  have hsome : (ataProgramSectors op dev dma nien prdt bmStatus sectors lba).isSome = true ↔
      ¬ dev.rejects sectors lba = true := by
    unfold ataProgramSectors
    split <;> simp [*]
  unfold Programmed AtaDrive.Limits
  rw [hsome, haccept]
  refine and_congr_right fun hwrap => ?_
  have hinside := haccept.2 hwrap
  by_cases hr : dev.rejects sectors lba = true
  case pos =>
    rw [ataProgramSectors, if_pos hr]
    refine iff_of_true (fun p hp => by cases hp) fun hp hsize => ?_
    exact absurd hr (hinside.2 ⟨hp, hsize⟩)
  rw [ataProgramSectors, if_neg hr]
  have hlen : (∀ len, (ataAccess op dev dma nien prdt bmStatus lba sectors).prdtLen = some len →
      prdtBytes len = sectors * ataSectorSize) ↔ (dma = true → sectors ≤ 128) := by
    cases dma
    case false => exact iff_of_true (fun _ hlen => by cases hlen) fun hdma => by cases hdma
    rw [← prdtBytes_iff h hle]
    exact ⟨fun hl _ => hl _ rfl, fun hl len hlen => by cases hlen; exact hl rfl⟩
  rw [← hlen, ← lba_iff op dev dma nien prdt bmStatus lba sectors file hlt]
  exact ⟨fun hp _ _ => hp _ rfl, fun hp p heq => by cases heq; exact hp (hinside.1 hr).1 (hinside.1 hr).2⟩

def smallDrive : AtaDrive :=
  { present := true, size := 1000, fault := fun _ => none, size_lt := by decide, drive := 0, capabilities := 1 <<< 9,
    drive_lt := by decide }

/-- A transfer of 128 sectors by DMA has the length 0 in its descriptor. -/
theorem ata_programmed_small : Programmed smallDrive 128 7 (fun _ => (0, 0))
    (ataProgramSectors .read smallDrive true 0 0x1000 0 128 7) := by
  refine (ata_programmed_iff .read smallDrive true 0 0x1000 0 (fun _ => (0, 0)) (by decide) (by decide) (by decide)).2
    ?_
  exact ⟨fun _ h => absurd h (by decide), fun _ _ => ⟨fun _ => by decide, fun _ hcap => absurd hcap (by decide)⟩⟩

/-- The descriptor of a transfer of 255 sectors, as `ata_device_read` makes them, has 65024 bytes. -/
theorem not_ata_programmed : ¬ ∀ (op : AtaOp) (dev : AtaDrive) (dma : Bool) (nien prdt bmStatus : Nat)
    (file : TaskFile) (sectors lba : Nat), 1 ≤ sectors → sectors ≤ ucharMax → lba < 2 ^ 32 →
    Programmed dev sectors lba file (ataProgramSectors op dev dma nien prdt bmStatus sectors lba) := by
  intro hall
  obtain ⟨-, hp⟩ := hall .read smallDrive true 0 0x1000 0 (fun _ => (0, 0)) 255 0 (by decide) (by decide) (by decide)
  exact absurd ((hp _ rfl).1 65024 rfl) (by decide)

end Pml.Drivers
