import Pml.Util.MapCount
import Pml.Vfs.Getdents

/-!
# The root directory of devfs (`drivers/fs/devfs.c`)

An offset into the root is the number of a device, and the next offset is the number of the device after it in the map
of devices.  Two offsets are special: at `DEVFS_SPECIAL_INO` the entry is the directory `fd`, and at the number after
it the directory ends.  As an `off_t` both are negative, and nothing returns them after a device: at the last device
the function returns 0.  So calls that go on with positive offsets never give `fd` (`devfs_never_complete`), and of
the devices they give all but the last (`rootListing_devices`).
-/

namespace Pml.Drivers

open Util Chains
open Vfs (Dirent)

/-- `struct device`: whether it is a block device, and its name. -/
structure Device where
  block : Bool
  name : CString

/-- An `unsigned long` as an `off_t`. -/
def toOff (n : UInt64) : Int := n.toBitVec.toInt

/-- An `off_t` as an `unsigned long`. -/
def ofOff (offset : Int) : UInt64 := UInt64.ofBitVec (BitVec.ofInt 64 offset)

def devfsSpecialIno : UInt64 := 0xffffffff00000000

def fdEntry : Dirent := ⟨(devfsSpecialIno ||| 1).toNat, 2, 4, [102, 100]⟩

def deviceEntry (e : UInt64 × Device) : Dirent :=
  ⟨e.1.toNat, e.2.name.bytes.length, if e.2.block then 6 else 2, e.2.name.bytes⟩

section

variable {κ ν : Type} [DecidableEq κ]

def chainNext (key : κ) : List (κ × ν) → Option κ
  | [] => none
  | e :: es => if e.1 = key then es.head?.map Prod.fst else chainNext key es

def firstKey (b : Nat → List (κ × ν)) (is : List Nat) : Option κ := (is.findSome? fun i => (b i).head?).map Prod.fst

/-- The key after a key: in its chain, or else in the first bucket after its own that has entries. -/
def nextKey (hash : κ → UInt64) (m : Map κ ν) (key : κ) : Option κ :=
  match chainNext key (m.buckets (m.index hash key)) with
  | some k => some k
  | none => firstKey m.buckets (List.range' (m.index hash key + 1) (m.bucketCount - (m.index hash key + 1)))

end

variable (siphash : UInt64 → UInt64) (m : Map UInt64 Device)

/-- The part of `devfs_readdir` for the entry of a device; `dirent` is what the entry is before. -/
def readDevice (dirent : Dirent) (offset : Int) : Int × Dirent :=
  match m.found siphash (ofOff offset) with
  | none => (-1, dirent)
  | some device => (((nextKey siphash m (ofOff offset)).map toOff).getD 0, deviceEntry (ofOff offset, device))

def firstOffset : Int := ((firstKey m.buckets (List.range m.bucketCount)).map toOff).getD 0

/-- `devfs_readdir` on the root: the offset that it returns and the entry. -/
def devfsReaddir (dirent : Dirent) (offset : Int) : Int × Dirent :=
  if offset = toOff devfsSpecialIno then (toOff (devfsSpecialIno + 1), fdEntry)
  else if offset = toOff (devfsSpecialIno + 1) then (0, dirent)
  else if offset = 0 then
    if firstOffset m = 0 then (toOff devfsSpecialIno, dirent) else readDevice siphash m dirent (firstOffset m)
  else readDevice siphash m dirent offset

/-- The entries of the calls that return a positive offset, each call with the offset that the one before it returned.
With fuel `0` there is no result. -/
def rootListing : Nat → Int → Dirent → Option (List Dirent)
  | 0, _, _ => none
  | fuel + 1, offset, dirent =>
    let r := devfsReaddir siphash m dirent offset
    if 0 < r.1 then (rootListing fuel r.1 r.2).map (r.2 :: ·) else some []

/-- The calls give every device and the directory `fd` once. -/
def RootComplete : Prop :=
  ∀ dirent, ∃ fuel l, rootListing siphash m fuel 0 dirent = some l ∧
    (∀ e ∈ m.iterate, l.count (deviceEntry e) = 1) ∧ l.count fdEntry = 1

variable {siphash m} {dirent : Dirent} {offset : Int} {key : UInt64}

private theorem readDevice_positive (h : 0 < (readDevice siphash m dirent offset).1) :
    ∃ e, (readDevice siphash m dirent offset).2 = deviceEntry e := by
  unfold readDevice at h ⊢
  cases hf : m.found siphash (ofOff offset) with
  | none =>
    rw [hf] at h
    change (0 : Int) < -1 at h
    omega
  | some device => exact ⟨_, rfl⟩

private theorem devfsReaddir_positive (h : 0 < (devfsReaddir siphash m dirent offset).1) :
    ∃ e, (devfsReaddir siphash m dirent offset).2 = deviceEntry e := by
  have hspecial : ¬ 0 < toOff devfsSpecialIno ∧ ¬ 0 < toOff (devfsSpecialIno + 1) := by decide
  unfold devfsReaddir at h ⊢
  split_ifs at h ⊢
  · exact absurd h hspecial.2
  · exact absurd h (Int.lt_irrefl 0)
  · exact absurd h hspecial.1
  · exact readDevice_positive h
  · exact readDevice_positive h

private theorem fdEntry_ne (e : UInt64 × Device) : deviceEntry e ≠ fdEntry := by
  intro h
  have htype : (if e.2.block then 6 else 2) = 4 := congrArg Dirent.type h
  split at htype <;> cases htype

private theorem fd_not_listed {fuel : Nat} {l : List Dirent} (h : rootListing siphash m fuel offset dirent = some l) :
    fdEntry ∉ l := by
  induction fuel generalizing offset dirent l with
  | zero => cases h
  | succ fuel ih =>
    unfold rootListing at h
    dsimp only at h
    split at h
    · rename_i hpos
      obtain ⟨rest, hrest, rfl⟩ := Option.map_eq_some_iff.1 h
      obtain ⟨e, he⟩ := devfsReaddir_positive hpos
      rw [List.mem_cons, not_or, he]
      exact ⟨fun hfd => fdEntry_ne e hfd.symm, ih hrest⟩
    · cases h
      exact List.not_mem_nil

/-! ### The devices that are listed -/

private theorem ofOff_toOff (key : UInt64) : ofOff (toOff key) = key := by
  unfold ofOff toOff
  rw [BitVec.ofInt_toInt]

section

variable {κ ν : Type} {b : Nat → List (κ × ν)} {k : κ} {v : ν} {l1 l2 : List (κ × ν)}

private theorem firstKey_eq (is : List Nat) : firstKey b is = ((is.flatMap b).head?).map Prod.fst := by
  rw [firstKey, List.head?_flatMap]

private theorem split_unique {l1' l2' : List (κ × ν)} (hnodup : ((l1 ++ (k, v) :: l2).map Prod.fst).Nodup)
    (h : l1 ++ (k, v) :: l2 = l1' ++ (k, v) :: l2') : l1 = l1' ∧ l2 = l2' := by
  induction l1 generalizing l1' with
  | nil =>
    cases l1' with
    | nil => exact ⟨rfl, (List.cons.inj h).2⟩
    | cons x l1' =>
      obtain ⟨rfl, rfl⟩ := List.cons.inj h
      exact absurd hnodup (by simp)
  | cons x l1 ih =>
    cases l1' with
    | nil =>
      obtain ⟨rfl, rfl⟩ := List.cons.inj h
      exact absurd hnodup (by simp)
    | cons y l1' =>
      obtain ⟨rfl, hrest⟩ := List.cons.inj h
      obtain ⟨rfl, rfl⟩ := ih (List.nodup_cons.1 hnodup).2 hrest
      exact ⟨rfl, rfl⟩

variable [DecidableEq κ]

private theorem chainNext_eq (hnodup : ((l1 ++ (k, v) :: l2).map Prod.fst).Nodup) :
    chainNext k (l1 ++ (k, v) :: l2) = l2.head?.map Prod.fst := by
  induction l1 with
  | nil => exact if_pos rfl
  | cons x l1 ih =>
    obtain ⟨hx, hnodup⟩ := List.nodup_cons.1 hnodup
    have hne : x.1 ≠ k := by
      rintro rfl
      exact hx (by simp)
    rw [List.cons_append, chainNext, if_neg hne]
    exact ih hnodup

private theorem nextKey_eq {hash : κ → UInt64} {m : Map κ ν} {f : κ → Option ν} (h : m.Models hash f)
    (hit : m.iterate = l1 ++ (k, v) :: l2) : nextKey hash m k = l2.head?.map Prod.fst := by
  have hmem : (k, v) ∈ m.buckets (m.index hash k) := by
    refine h.placed.mem_chain.1 ?_
    change (k, v) ∈ m.iterate
    rw [hit]
    simp
  have hi : m.index hash k < m.bucketCount := Nat.mod_lt _ h.placed.pos
  obtain ⟨c1, c2, hc⟩ := List.append_of_mem hmem
  have hrange : List.range m.bucketCount = List.range (m.index hash k) ++ m.index hash k ::
      List.range' (m.index hash k + 1) (m.bucketCount - (m.index hash k + 1)) := by
    have happend := @List.range'_append_1 0 (m.index hash k) (m.bucketCount - (m.index hash k + 1) + 1)
    have hcount : m.index hash k + (m.bucketCount - (m.index hash k + 1) + 1) = m.bucketCount := by omega
    rw [Nat.zero_add, hcount] at happend
    rw [← List.range'_succ, List.range_eq_range', List.range_eq_range', happend]
  have hall : m.iterate = ((List.range (m.index hash k)).flatMap m.buckets ++ c1) ++ (k, v) :: (c2 ++
      (List.range' (m.index hash k + 1) (m.bucketCount - (m.index hash k + 1))).flatMap m.buckets) := by
    rw [Map.iterate, contents, hrange, List.flatMap_append, List.flatMap_cons, hc]
    simp
  have hnodup : ((l1 ++ (k, v) :: l2).map Prod.fst).Nodup := hit ▸ h.placed.nodup_contents
  obtain ⟨-, rfl⟩ := split_unique hnodup (hit.symm.trans hall)
  have hchain := h.placed.nodup _ hi
  unfold nextKey
  rw [hc] at hchain ⊢
  rw [chainNext_eq hchain, firstKey_eq]
  cases c2 with
  | nil => rfl
  | cons e c2 => rfl

end

private theorem rootListing_succ {fuel : Nat} {next : Int} {d : Dirent}
    (h : devfsReaddir siphash m dirent offset = (next, d)) :
    rootListing siphash m (fuel + 1) offset dirent =
      if 0 < next then (rootListing siphash m fuel next d).map (d :: ·) else some [] := by
  rw [rootListing, h]

private theorem readDevice_eq {f : UInt64 → Option Device} (h : m.Models siphash f) {l1 l2 : List (UInt64 × Device)}
    {e : UInt64 × Device} (hit : m.iterate = l1 ++ e :: l2) :
    readDevice siphash m dirent (toOff e.1) = ((l2.head?.map fun e => toOff e.1).getD 0, deviceEntry e) := by
  obtain ⟨k, v⟩ := e
  have hfound : m.found siphash k = some v := by
    rw [Map.found]
    refine (h.placed.lookup_eq h.represents k).trans ((h.represents k v).1 ?_)
    change (k, v) ∈ m.iterate
    rw [hit]
    simp
  unfold readDevice
  rw [ofOff_toOff, hfound, nextKey_eq h hit, Option.map_map]
  rfl

private theorem rootListing_from {f : UInt64 → Option Device} (h : m.Models siphash f)
    (hpos : ∀ e ∈ m.iterate, 0 < toOff e.1) {l1 l2 : List (UInt64 × Device)} {e : UInt64 × Device}
    (hit : m.iterate = l1 ++ e :: l2)
    (hcall : devfsReaddir siphash m dirent offset = readDevice siphash m dirent (toOff e.1)) :
    ∃ fuel, rootListing siphash m fuel offset dirent = some ((e :: l2).dropLast.map deviceEntry) := by
  induction l2 generalizing l1 e offset dirent with
  | nil =>
    refine ⟨1, ?_⟩
    rw [rootListing_succ (hcall.trans (readDevice_eq h hit))]
    rfl
  | cons e' l2 ih =>
    have hit' : m.iterate = (l1 ++ [e]) ++ e' :: l2 := by
      rw [hit]
      simp
    have hpos' : 0 < toOff e'.1 := hpos e' (by rw [hit]; simp)
    have hspecial : toOff devfsSpecialIno < 0 ∧ toOff (devfsSpecialIno + 1) < 0 := by decide
    obtain ⟨fuel, hrest⟩ := @ih (deviceEntry e) (toOff e'.1) (l1 ++ [e]) e' hit' (by
      unfold devfsReaddir
      rw [if_neg (by omega), if_neg (by omega), if_neg (by omega)])
    refine ⟨fuel + 1, ?_⟩
    rw [rootListing_succ (hcall.trans (readDevice_eq h hit))]
    exact (if_pos hpos').trans (congrArg (Option.map (deviceEntry e :: ·)) hrest)

/-- The calls give all devices but the last in the order of the map, if the numbers are positive. -/
theorem rootListing_devices {f : UInt64 → Option Device} (h : m.Models siphash f)
    (hpos : ∀ e ∈ m.iterate, 0 < toOff e.1) (dirent : Dirent) :
    ∃ fuel, rootListing siphash m fuel 0 dirent = some (m.iterate.dropLast.map deviceEntry) := by
  have hspecial : toOff devfsSpecialIno < 0 ∧ toOff (devfsSpecialIno + 1) < 0 := by decide
  have hstart : devfsReaddir siphash m dirent 0 =
      if firstOffset m = 0 then (toOff devfsSpecialIno, dirent) else readDevice siphash m dirent (firstOffset m) := by
    unfold devfsReaddir
    rw [if_neg (by omega), if_neg (by omega), if_pos rfl]
  have hfirst : firstOffset m = (m.iterate.head?.map fun e => toOff e.1).getD 0 := by
    unfold firstOffset
    rw [firstKey_eq, Option.map_map]
    rfl
  cases hit : m.iterate with
  | nil =>
    refine ⟨1, ?_⟩
    rw [hit] at hfirst
    rw [if_pos (show firstOffset m = 0 from hfirst)] at hstart
    rw [rootListing_succ hstart]
    exact if_neg (by omega)
  | cons e l =>
    have he : 0 < toOff e.1 := hpos e (by rw [hit]; exact List.mem_cons_self)
    rw [hit] at hfirst
    change firstOffset m = toOff e.1 at hfirst
    refine rootListing_from h hpos (show m.iterate = [] ++ e :: l from hit) ?_
    rw [hstart, hfirst, if_neg (by omega)]

private theorem not_rootComplete (siphash : UInt64 → UInt64) (m : Map UInt64 Device) : ¬ RootComplete siphash m := by
  intro h
  obtain ⟨fuel, l, hl, -, hfd⟩ := h fdEntry
  rw [List.count_eq_zero_of_not_mem (fd_not_listed hl)] at hfd
  cases hfd

/-- For no set of devices do the calls give the whole directory. -/
theorem devfs_never_complete (siphash : UInt64 → UInt64) (m : Map UInt64 Device) : ¬ RootComplete siphash m :=
  not_rootComplete siphash m

private theorem firstName_nonNull : 0 ∉ ([97] : List UInt8) := by decide

private theorem secondName_nonNull : 0 ∉ ([98] : List UInt8) := by decide

def twoDevices : Map UInt64 Device :=
  ((Map.create : Map UInt64 Device).insert (fun _ => 0) 5 ⟨false, ⟨[97], firstName_nonNull⟩⟩).insert (fun _ => 0) 3
    ⟨true, ⟨[98], secondName_nonNull⟩⟩

/-- The first device is listed, and the second and `fd` are not. -/
theorem devfs_two_devices : rootListing (fun _ => 0) twoDevices 4 0 ⟨0, 0, 0, []⟩ = some [⟨5, 1, 2, [97]⟩] ∧
    ¬ RootComplete (fun _ => 0) twoDevices :=
  ⟨rfl, not_rootComplete _ _⟩

/-- The call for the first device ends the listing. -/
theorem rootListing_devices_two : ∃ fuel,
    rootListing (fun _ => 0) twoDevices fuel 0 ⟨0, 0, 0, []⟩ = some (twoDevices.iterate.dropLast.map deviceEntry) :=
  rootListing_devices (insert_models (insert_models (create_models _) 5 _) 3 _) (by decide) ⟨0, 0, 0, []⟩

end Pml.Drivers
