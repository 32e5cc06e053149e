import Pml.Ext2.ReadDir

/-!
# Hostile directory blocks (`drivers/fs/ext2/util.c`, `drivers/fs/ext2/link.c`, `drivers/fs/ext2/checksum.c`)

`ext2_process_dir_block` checks the length of each record before the function is called, for any bytes of the block.
Here a call is watched: it has no result if the record ends after the block, or if a byte after the block is changed.
The loop with the functions of `ext2_lookup_inode`, `ext2_unlink_dirent` and of the check for an empty directory ends
and passes all records to a watched function.  `ext2_process_link` writes a name of more than 255 bytes over the end
of a block, and `ext2_readdir_iter` copies a name that has no end.
-/

namespace Pml.Ext2

open ByteMemory

namespace Dir

variable {σ : Type}

/-- The header, the name and the record at an offset end inside of the block. -/
def Inside (d : Dir) (offset : Nat) (m : Mem) : Prop :=
  offset + 8 ≤ d.blksize ∧ offset + 8 + dNameLen m offset % 256 ≤ d.blksize ∧
    offset + getRecLen d.blksize (dRecLen m offset) ≤ d.blksize

open Classical in
/-- The function without a result for a record that does not lie in the block, and where it changes a byte after
it. -/
noncomputable def watched (d : Dir) (func : Func σ) : Func σ := fun offset m s =>
  if d.Inside offset m then (func offset m s).filter fun r => ∀ x, d.blksize ≤ x → r.1 x = m x else none

def SafeBlock (crc : Crc) (d : Dir) (empty : Bool) (func : Func σ) (m : Mem) (s : σ) : Prop :=
  ∃ r, processDirBlock crc d empty (d.watched func) m s = some r ∧ processDirBlock crc d empty func m s = some r

/-- The search for the tail comes to an end, and depends on the block only. -/
def SafeTail (d : Dir) (m : Mem) : Prop :=
  (∀ t, Volume.direntWalk m (d.blksize - 12) (d.blksize - 12) 0 = .ok t → d.blksize - 12 ≤ t) ∧
    ∀ m', (∀ x < d.blksize, m' x = m x) → d.vol.getDirentTail m' = d.vol.getDirentTail m

/-- `ext2_process_link` with the name is safe for all block sizes and all blocks. -/
def LinkSafe (crc : Crc) (name : List UInt8) : Prop :=
  ∀ (d : Dir) (count : Nat), openfs d.vol.super = some (.ok count) → ∀ inode flags m s,
    SafeBlock crc d true (processLink d ⟨name, inode, flags⟩) m s

/-- `ext2_readdir_iter` passes all records before the offset. -/
inductive Passes (d : Dir) (m : Mem) (pos : Int) : Nat → Prop
  | start : Passes d m pos 0
  | next {o : Nat} {r : Dirent} : Passes d m pos o → o < d.blksize - 8 → d.HasRec m o r → o + r.recLen ≤ d.blksize →
      r.ino = 0 ∨ (o : Int) < pos → Passes d m pos (o + r.recLen)

/-- `ext2_readdir_iter` stores the record at the offset. -/
def Stores (d : Dir) (m : Mem) (pos : Int) (o : Nat) : Prop :=
  Passes d m pos o ∧ o < d.blksize - 8 ∧
    ∃ r, d.HasRec m o r ∧ o + r.recLen ≤ d.blksize ∧ r.ino ≠ 0 ∧ pos ≤ (o : Int)

/-- The string of the name of a record ends in the block and fits in `d_name`. -/
def NameEnds (d : Dir) (m : Mem) (o : Nat) : Prop :=
  ∃ name, cString m (d.blksize - (o + 8)) (o + 8) = some name ∧ name.length < 256

end Dir

section

variable {crc : Crc} {d : Dir} {m m' : Mem} {o fuel : Nat} {r : Dirent} {σ : Type} {func func' : Dir.Func σ} {s : σ}
  {empty changed : Bool}

/-! ### Watched calls -/

theorem Dir.HasRec.inside (h : d.HasRec m o r) (hle : o + r.recLen ≤ d.blksize) : d.Inside o m := by
  obtain ⟨rfl, hwf⟩ := h
  have h8 : 8 + dNameLen m o % 256 ≤ getRecLen d.blksize (dRecLen m o) := hwf.eight_le
  have hle' : o + getRecLen d.blksize (dRecLen m o) ≤ d.blksize := hle
  exact ⟨by omega, by omega, hle'⟩

private theorem watched_some {q : Mem × σ × Dir.Ret} : d.watched func o m s = some q ↔
    d.Inside o m ∧ func o m s = some q ∧ ∀ x, d.blksize ≤ x → q.1 x = m x := by
  unfold Dir.watched
  by_cases hin : d.Inside o m
  · rw [if_pos hin, Option.filter_eq_some_iff]
    simp [hin]
  · rw [if_neg hin]
    simp [hin]

private theorem loop_mono (h : ∀ o m s q, func o m s = some q → func' o m s = some q) {p : Dir.Pass σ}
    (hp : d.loop empty func fuel o m s changed = some p) : d.loop empty func' fuel o m s changed = some p := by
  induction fuel generalizing o m s changed with
  | zero => cases hp
  | succ fuel ih =>
    unfold Dir.loop at hp ⊢
    split at hp
    · rename_i ho
      rw [if_pos ho]
      simp only at hp ⊢
      split at hp
      · rename_i hbad
        rw [if_pos hbad]
        exact hp
      · rename_i hbad
        rw [if_neg hbad]
        split at hp
        · rename_i hskip
          rw [if_pos hskip]
          exact ih hp
        · rename_i hskip
          rw [if_neg hskip]
          cases hf : func o m s with
          | none =>
            rw [hf] at hp
            cases hp
          | some q =>
            obtain ⟨m', s', ret⟩ := q
            rw [hf] at hp
            rw [h _ _ _ _ hf]
            simp only at hp ⊢
            cases hab : ret.abort with
            | true =>
              rw [hab] at hp
              exact hp
            | false =>
              rw [hab] at hp
              exact ih hp
    · rename_i ho
      rw [if_neg ho]
      exact hp

private theorem safeBlock_iff : Dir.SafeBlock crc d empty func m s ↔ (d.vol.dirBlockChecksumValid crc d.id m = true →
    ∃ p, d.loop empty (d.watched func) (d.blksize + 1) 0 m s false = some p) := by
  unfold Dir.SafeBlock Dir.processDirBlock
  by_cases hvalid : d.vol.dirBlockChecksumValid crc d.id m = true
  · rw [if_pos hvalid, if_pos hvalid]
    constructor
    · rintro ⟨r, hr, -⟩ -
      obtain ⟨p, hp, -⟩ := Option.map_eq_some_iff.1 hr
      exact ⟨p, hp⟩
    · intro h
      obtain ⟨p, hp⟩ := h hvalid
      rw [hp, loop_mono (fun o m s q hq => (watched_some.1 hq).2.1) hp]
      exact ⟨_, rfl, rfl⟩
  · rw [if_neg hvalid, if_neg hvalid]
    exact ⟨fun _ hv => absurd hv hvalid, fun _ => ⟨_, rfl, rfl⟩⟩

private theorem safeBlock_of {I : Nat → Mem → σ → Prop}
    (hskip : ∀ o m st r, d.HasRec m o r → o + r.recLen ≤ d.blksize → o < d.blksize - 8 → r.ino = 0 →
      empty = false ∨ o = d.top → I o m st → I (o + r.recLen) m st)
    (hfunc : ∀ o m st r, d.HasRec m o r → o + r.recLen ≤ d.blksize → o < d.blksize - 8 →
      ¬(r.ino = 0 ∧ empty = false) → I o m st → ∃ m' st' ret, func o m st = some (m', st', ret) ∧
        (ret.abort = false → ∀ n, n = (if ret.changed then getRecLen d.blksize (dRecLen m' o) else r.recLen) →
          8 ≤ n ∧ I (o + n) m' st') ∧ ∀ x, d.blksize ≤ x → m' x = m x)
    (hI : I 0 m s) : Dir.SafeBlock crc d empty func m s := by
  rw [safeBlock_iff]
  rintro -
  refine loop_defined hskip (fun o m st r h hle ho hlive hI => ?_) hI (by omega)
  obtain ⟨m', st', ret, hf, hprog, hout⟩ := hfunc o m st r h hle ho hlive hI
  exact ⟨m', st', ret, watched_some.2 ⟨h.inside hle, hf, hout⟩, hprog⟩

/-! ### The functions -/

private theorem safeBlock_lookup (crc : Crc) (d : Dir) (name : List UInt8) (m : Mem) (s : Option Nat) :
    Dir.SafeBlock crc d false (Dir.processLookup name) m s := by
  refine safeBlock_of (I := fun _ _ _ => True) (fun _ _ _ _ _ _ _ _ _ _ => trivial)
    (fun o m st r h _ _ _ _ => ?_) trivial
  have h8 := h.2.eight_le
  unfold Dir.processLookup
  split
  · exact ⟨_, _, _, rfl, (fun hab => by cases hab), fun _ _ => rfl⟩
  · exact ⟨_, _, _, rfl, (fun _ n hn => ⟨hn ▸ show 8 ≤ r.recLen by omega, trivial⟩), fun _ _ => rfl⟩

private theorem safeBlock_empty (crc : Crc) (d : Dir) (m : Mem) (s : Bool) :
    Dir.SafeBlock crc d true Dir.checkEmpty m s := by
  refine safeBlock_of (I := fun _ _ _ => True) (fun _ _ _ _ _ _ _ _ _ _ => trivial)
    (fun o m st r h _ _ _ _ => ?_) trivial
  have h8 := h.2.eight_le
  unfold Dir.checkEmpty
  split
  · exact ⟨_, _, _, rfl, (fun _ n hn => ⟨hn ▸ show 8 ≤ r.recLen by omega, trivial⟩), fun _ _ => rfl⟩
  · exact ⟨_, _, _, rfl, (fun hab => by cases hab), fun _ _ => rfl⟩

private theorem removeRecord_outside {prev x : Nat} (ho : o + 8 ≤ x) (hprev : o = 0 ∨ prev + 8 ≤ x) :
    removeRecord m prev o x = m x := by
  unfold removeRecord
  split
  · exact writeLE_outside (by omega)
  · exact writeLE_outside (by omega)

private theorem safeBlock_unlink (crc : Crc) (hs : d.Sized) (vnode : Nat → Option (Bool × Nat))
    (slots : List (Option Mem)) (name : List UInt8) (m : Mem) (s : Dir.LinkCtx) :
    Dir.SafeBlock crc d true (Dir.processUnlink crc d vnode slots name) m s := by
  refine safeBlock_of (I := fun o _ s => o = 0 ∨ s.prev + 8 ≤ d.blksize) (fun o m st r h hle ho _ htail hI => ?_)
    (fun o m st r h hle ho _ hI => ?_) (Or.inl rfl)
  · obtain ⟨-, -, htop⟩ := top_add hs
    rcases htail with hf | rfl
    · cases hf
    · exact Or.inr (hI.resolve_left (by omega))
  · have h8 := h.2.eight_le
    rcases processUnlink_cases crc vnode slots name st h with ⟨hcall, -⟩ | ⟨s', c, hcall, -⟩ | ⟨hcall, -⟩
    · refine ⟨_, _, _, hcall, (fun _ n hn => ⟨hn ▸ show 8 ≤ r.recLen by omega, Or.inr ?_⟩), fun _ _ => rfl⟩
      change o + 8 ≤ d.blksize
      omega
    · exact ⟨_, _, _, hcall, (fun hab => by cases hab), fun _ _ => rfl⟩
    · exact ⟨_, _, _, hcall, (fun hab => by cases hab), fun x hx => removeRecord_outside (by omega) (by omega)⟩

private theorem safeBlock_link (crc : Crc) (hs : d.Sized) {l : Dir.Link} (hlen : l.name.length ≤ 255) (m : Mem)
    (s : Dir.LinkCtx) : Dir.SafeBlock crc d true (Dir.processLink d l) m s := by
  refine safeBlock_of (I := fun _ _ _ => True) (fun _ _ _ _ _ _ _ _ _ _ => trivial)
    (fun o m st r h hle _ _ _ => ?_) trivial
  obtain ⟨m', s', ret, hf, hprog, hout⟩ := processLink_defined (l := l) (s := st) hs h hle hlen
  exact ⟨m', s', ret, hf, (fun hab n hn => ⟨hn ▸ hprog hab, trivial⟩), hout⟩

private theorem linkSafe_iff (crc : Crc) (name : List UInt8) : Dir.LinkSafe crc name ↔ name.length ≤ 255 := by
  constructor
  · intro h
    by_contra hlong
    obtain ⟨len, hlen, hroom, hover⟩ := fullBlock_short (Nat.lt_of_not_le hlong)
    obtain ⟨r, -, hr⟩ := h smallDir 1 (by decide) 0 0 (fullBlock len) ⟨0, false, none⟩
    rw [fullBlock_overflow crc hlen hroom hover rfl] at hr
    cases hr
  · intro hlen d count hopen inode flags m s
    exact safeBlock_link crc (sized_of_openfs hopen) hlen m s

/-! ### The iteration of `ext2_readdir` -/

variable {pos : Int} {e : Vfs.Dirent}

private theorem readdirIter_stored (hpos : pos ≤ (o : Int)) :
    (∃ q, Dir.readdirIter d o m (pos, e) = some q) ↔ d.NameEnds m o := by
  unfold Dir.readdirIter Dir.NameEnds
  rw [if_neg (Int.not_lt.2 hpos)]
  cases cString m (d.blksize - (o + 8)) (o + 8) with
  | none => exact ⟨(fun ⟨_, hq⟩ => by cases hq), (fun ⟨_, hn, _⟩ => by cases hn)⟩
  | some name =>
    by_cases hlong : 256 ≤ name.length
    · simp only [if_pos hlong]
      refine ⟨(fun ⟨_, hq⟩ => by cases hq), fun ⟨name', hn, hlt⟩ => ?_⟩
      cases hn
      omega
    · simp only [if_neg hlong]
      exact ⟨fun _ => ⟨name, rfl, by omega⟩, fun _ => ⟨_, rfl⟩⟩

private theorem readdirIter_passed (hpos : (o : Int) < pos) :
    Dir.readdirIter d o m (pos, e) = some (m, (pos, e), ⟨false, false⟩) := by
  unfold Dir.readdirIter
  rw [if_pos hpos]

private theorem readdirIter_stops {q : Mem × (Int × Vfs.Dirent) × Dir.Ret} (hpos : pos ≤ (o : Int))
    (h : Dir.readdirIter d o m (pos, e) = some q) : q.1 = m ∧ q.2.2 = ⟨false, true⟩ := by
  unfold Dir.readdirIter at h
  rw [if_neg (Int.not_lt.2 hpos)] at h
  cases hc : cString m (d.blksize - (o + 8)) (o + 8) with
  | none =>
    rw [hc] at h
    cases h
  | some name =>
    simp only [hc] at h
    split at h
    · cases h
    · cases h
      exact ⟨rfl, rfl⟩

theorem Dir.Passes.loop (h : d.Passes m pos o) : ∃ fuel, d.blksize ≤ o + 8 * fuel ∧
    d.loop false (d.watched (Dir.readdirIter d)) (d.blksize + 1) 0 m (pos, e) false =
      d.loop false (d.watched (Dir.readdirIter d)) (fuel + 1) o m (pos, e) false := by
  induction h with
  | start => exact ⟨d.blksize, by omega, rfl⟩
  | @next o r _ ho hrec hle hpass ih =>
    obtain ⟨fuel, hfuel, heq⟩ := ih
    have h8 := hrec.2.eight_le
    obtain ⟨fuel, rfl⟩ : ∃ k, fuel = k + 1 := ⟨fuel - 1, by omega⟩
    refine ⟨fuel, by omega, ?_⟩
    rw [heq, loop_rec hrec hle ho]
    by_cases hfree : r.ino = 0
    · rw [if_pos ⟨hfree, Or.inl rfl⟩]
    · have hlt := hpass.resolve_left hfree
      rw [if_neg fun hc => hfree hc.1,
        watched_some.2 ⟨hrec.inside hle, readdirIter_passed hlt, fun _ _ => rfl⟩]
      rfl

/-- `ext2_readdir_iter` is safe for a block exactly if the name that it stores has an end. -/
private theorem safeBlock_readdir (crc : Crc) (d : Dir) (m : Mem) (pos : Int) (e : Vfs.Dirent) :
    Dir.SafeBlock crc d false (Dir.readdirIter d) m (pos, e) ↔
      (d.vol.dirBlockChecksumValid crc d.id m = true → ∀ o, d.Stores m pos o → d.NameEnds m o) := by
  constructor
  · rintro hsafe hvalid o ⟨hpass, ho, r, hrec, hle, hlive, hpos⟩
    obtain ⟨p, hp⟩ := safeBlock_iff.1 hsafe hvalid
    obtain ⟨fuel, -, heq⟩ := hpass.loop (e := e)
    rw [heq, loop_rec hrec hle ho, if_neg fun hc => hlive hc.1] at hp
    refine (readdirIter_stored (e := e) hpos).1 ?_
    cases hw : d.watched (Dir.readdirIter d) o m (pos, e) with
    | none =>
      rw [hw] at hp
      cases hp
    | some q => exact ⟨q, (watched_some.1 hw).2.1⟩
  · intro h
    by_cases hvalid : d.vol.dirBlockChecksumValid crc d.id m = true
    · refine safeBlock_of (I := fun o m' st => m' = m ∧ st = (pos, e) ∧ d.Passes m pos o) ?_ ?_ ⟨rfl, rfl, .start⟩
      · rintro o _ _ r hrec hle ho hfree - ⟨rfl, rfl, hpass⟩
        exact ⟨rfl, rfl, hpass.next ho hrec hle (Or.inl hfree)⟩
      · rintro o _ _ r hrec hle ho hlive ⟨rfl, rfl, hpass⟩
        have h8 := hrec.2.eight_le
        by_cases hpos : (o : Int) < pos
        · refine ⟨_, _, _, readdirIter_passed hpos, ?_, fun _ _ => rfl⟩
          rintro - n rfl
          exact ⟨show 8 ≤ r.recLen by omega, rfl, rfl, hpass.next ho hrec hle (Or.inr hpos)⟩
        · have hstored := h hvalid o ⟨hpass, ho, r, hrec, hle, fun h0 => hlive ⟨h0, rfl⟩, Int.not_lt.1 hpos⟩
          obtain ⟨⟨m', st', ret⟩, hq⟩ := (readdirIter_stored (e := e) (Int.not_lt.1 hpos)).2 hstored
          obtain ⟨rfl, rfl⟩ := readdirIter_stops (Int.not_lt.1 hpos) hq
          exact ⟨_, _, _, hq, (fun hab => by cases hab), fun _ _ => rfl⟩
    · exact safeBlock_iff.2 fun hv => absurd hv hvalid

/-! ### The search for the tail -/

private theorem direntWalk_ends {top t : Nat} (hfuel : top ≤ o + 8 * fuel)
    (h : Volume.direntWalk m top fuel o = .ok t) : top ≤ t := by
  induction fuel generalizing o with
  | zero =>
    cases h
    exact hfuel
  | succ fuel ih =>
    unfold Volume.direntWalk at h
    split at h
    · split at h
      · cases h
      · exact ih (by omega) h
    · cases h
      omega

private theorem safeTail (d : Dir) (m : Mem) : d.SafeTail m :=
  ⟨fun _ h => direntWalk_ends (by omega) h,
    fun _ h => getDirentTail_congr fun x hx => h x (Nat.lt_of_lt_of_le hx (Nat.sub_le _ _))⟩

end

/-- Directory blocks with any bytes: the search for the tail is safe, and the step for a block is safe with the
functions for lookup, unlink and the check for an empty directory; with `ext2_readdir_iter` it is exactly if the name
that is stored has an end in the block and fits in `d_name`, and with `ext2_process_link` exactly if the name has at
most 255 bytes. -/
theorem dirBlocks_safe_iff (crc : Crc) : (∀ name, Dir.LinkSafe crc name ↔ name.length ≤ 255) ∧
    ∀ (d : Dir) (count : Nat), openfs d.vol.super = some (.ok count) → ∀ m,
      d.SafeTail m ∧ (∀ name s, Dir.SafeBlock crc d false (Dir.processLookup name) m s) ∧
      (∀ vnode slots name s, Dir.SafeBlock crc d true (Dir.processUnlink crc d vnode slots name) m s) ∧
      (∀ s, Dir.SafeBlock crc d true Dir.checkEmpty m s) ∧
      ∀ pos e, Dir.SafeBlock crc d false (Dir.readdirIter d) m (pos, e) ↔
        (d.vol.dirBlockChecksumValid crc d.id m = true → ∀ o, d.Stores m pos o → d.NameEnds m o) :=
  ⟨linkSafe_iff crc, fun d _ hopen m => ⟨safeTail d m, fun name s => safeBlock_lookup crc d name m s,
    fun vnode slots name s => safeBlock_unlink crc (sized_of_openfs hopen) vnode slots name m s,
    fun s => safeBlock_empty crc d m s, fun pos e => safeBlock_readdir crc d m pos e⟩⟩

/-- A block of bytes 255. -/
theorem dirBlocks_safe_bytes : Dir.SafeBlock zeroCrc smallDir false (Dir.processLookup [97]) (fun _ => 255) none ∧
    Dir.LinkSafe zeroCrc [97] := by
  obtain ⟨hlink, hrest⟩ := dirBlocks_safe_iff zeroCrc
  exact ⟨(hrest smallDir 1 (by decide) fun _ => 255).2.1 [97] none, (hlink [97]).2 (by decide)⟩

/-- A name of 300 bytes is written over the end of a block, and the name of a record that has no zero byte after it is
copied from the bytes after the block. -/
theorem not_dirBlocks_safe :
    Dir.processDirBlock zeroCrc smallDir true (Dir.processLink smallDir ⟨List.replicate 300 65, 12, 1⟩)
    (fullBlock 256)
      ⟨0, false, none⟩ = none ∧
    Dir.processDirBlock zeroCrc smallDir false (Dir.readdirIter smallDir) (liveRecord (fun _ => 65) 0 1024 12)
      (0, ⟨0, 0, 0, []⟩) = none ∧
    ¬ Dir.LinkSafe zeroCrc (List.replicate 300 65) ∧
    ¬ Dir.SafeBlock zeroCrc smallDir false (Dir.readdirIter smallDir) (liveRecord (fun _ => 65) 0 1024 12)
      (0, ⟨0, 0, 0, []⟩) := by
  have hlen : (List.replicate 300 (65 : UInt8)).length = 300 := List.length_replicate
  have hread : Dir.processDirBlock zeroCrc smallDir false (Dir.readdirIter smallDir)
      (liveRecord (fun _ => 65) 0 1024 12) (0, ⟨0, 0, 0, []⟩) = none :=
    Option.isNone_iff_eq_none.1 (by decide +kernel)
  refine ⟨fullBlock_overflow zeroCrc (Or.inr rfl) (by rw [hlen]; decide) (by rw [hlen]; decide) rfl, hread,
    fun h => ?_, fun h => ?_⟩
  · have hshort := (linkSafe_iff zeroCrc _).1 h
    rw [hlen] at hshort
    exact absurd hshort (by decide)
  · obtain ⟨r, -, hr⟩ := h
    rw [hread] at hr
    cases hr

end Pml.Ext2
