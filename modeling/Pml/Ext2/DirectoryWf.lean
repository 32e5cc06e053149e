import Pml.Ext2.DirectoryBlocks

/-!
# Directory blocks stay well formed

`ext2_unlink_dirent` keeps every well-formed block well formed, and so does `ext2_add_link` for names of up to 255
bytes.  A longer name goes to the first record that has room for its length modulo 256.  If this record is at the end
of the block then the name is written over the end of the block.
-/

namespace Pml.Ext2

open ByteMemory

def Kept (d : Dir) (a b : Option Mem) : Prop := ∀ m, a = some m → d.WfBlock m → ∃ m', b = some m' ∧ d.WfBlock m'

def Passed (d : Dir) (a b : Option Mem) : Prop := (a = none → b = none) ∧ Kept d a b

/-- The call is defined, and keeps the blocks of a directory well formed. -/
def KeepsWf (d : Dir) (f : List (Option Mem) → Option (List (Option Mem) × Option Errno))
    (slots : List (Option Mem)) :
    Prop := ∃ r, f slots = some r ∧ List.Forall₂ (Kept d) slots r.1

section

variable {d : Dir} {a b c : Option Mem} {slots slots' : List (Option Mem)}

theorem Kept.refl (d : Dir) (a : Option Mem) : Kept d a a := fun m ha hwf => ⟨m, ha, hwf⟩

theorem Kept.trans (h : Kept d a b) (h' : Kept d b c) : Kept d a c := fun m ha hwf => by
  obtain ⟨m', hb, hwf'⟩ := h m ha hwf
  exact h' m' hb hwf'

theorem Passed.refl (d : Dir) (a : Option Mem) : Passed d a a := ⟨fun h => h, Kept.refl d a⟩

private theorem kept_refl (d : Dir) (slots : List (Option Mem)) : List.Forall₂ (Kept d) slots slots :=
  List.forall₂_same.2 fun a _ => Kept.refl d a

private theorem kept_trans {slots'' : List (Option Mem)} (h : List.Forall₂ (Kept d) slots slots')
    (h' : List.Forall₂ (Kept d) slots' slots'') : List.Forall₂ (Kept d) slots slots'' := by
  induction h generalizing slots'' with
  | nil => exact h'
  | cons hab _ ih =>
    cases h' with
    | cons hbc hrest => exact List.Forall₂.cons (hab.trans hbc) (ih hrest)

private theorem passed_kept (h : List.Forall₂ (Passed d) slots slots') : List.Forall₂ (Kept d) slots slots' :=
  h.imp fun _ _ hp => hp.2

private theorem passed_hole (h : List.Forall₂ (Passed d) slots slots') {i : Nat} (hi : slots[i]? = some none) :
    slots'[i]? = some none := by
  induction h generalizing i with
  | nil => simp at hi
  | cons hab _ ih =>
    cases i with
    | zero =>
      simp only [List.getElem?_cons_zero, Option.some.injEq] at hi ⊢
      exact hab.1 hi
    | succ i =>
      simp only [List.getElem?_cons_succ] at hi ⊢
      exact ih hi

/-! ### The iteration -/

variable {σ : Type} {func : Dir.Func σ} {empty changed : Bool} {fuel o : Nat} {m : Mem} {st : σ} {P : σ → Prop}
  {crc : Crc}

/-- A property of the private data that each call keeps, unless it ends the iteration. -/
private theorem loop_state {p : Dir.Pass σ}
    (hfunc : ∀ o m s m' s' ret, P s → func o m s = some (m', s', ret) → ret.abort = false → P s') (hP : P st)
    (h : d.loop empty func fuel o m st changed = some p) (hab : p.abort = false) : P p.state := by
  induction fuel generalizing o m st changed with
  | zero => cases h
  | succ fuel ih =>
    rw [Dir.loop] at h
    split at h
    · simp only at h
      split at h
      · cases h
        cases hab
      · split at h
        · exact ih hP h
        · split at h
          · cases h
          · rename_i m' s' ret hcall
            split at h
            · cases h
              cases hab
            · rename_i hnot
              exact ih (hfunc _ _ _ _ _ _ hP hcall (by simpa using hnot)) h
    · cases h
      exact hP

private theorem processDirBlock_state {m' : Mem} {s' : σ} {e : Option Errno}
    (hfunc : ∀ o m s m' s' ret, P s → func o m s = some (m', s', ret) → ret.abort = false → P s') (hP : P st)
    (h : Dir.processDirBlock crc d empty func m st = some (m', s', false, e)) : P s' := by
  unfold Dir.processDirBlock at h
  split at h
  · obtain ⟨p, hp, hres⟩ := Option.map_eq_some_iff.1 h
    have hboth : p.abort = false ∧ p.state = s' := by
      split at hres
      · cases hres
      · split at hres
        · simp only at hres
          split at hres
          · simp only [Prod.mk.injEq] at hres
            exact ⟨hres.2.2.1, hres.2.1⟩
          · cases hres
        · simp only [Prod.mk.injEq] at hres
          exact ⟨hres.2.2.1, hres.2.1⟩
    rw [← hboth.2]
    exact loop_state hfunc hP hp hboth.1
  · cases h

/-- If the step for one block keeps it well formed, then the iteration keeps all blocks well formed. -/
private theorem dirIterate_passed
    (hstep : ∀ m s, P s → ∃ m' s' stop e, Dir.processDirBlock crc d empty func m s = some (m', s', stop, e) ∧
      (d.WfBlock m → d.WfBlock m') ∧ (stop = false → P s')) (hP : P st) :
    ∃ q, Dir.dirIterate crc d empty func slots st = some q ∧ List.Forall₂ (Passed d) slots q.1 := by
  induction slots generalizing st with
  | nil => exact ⟨_, rfl, List.Forall₂.nil⟩
  | cons slot slots ih =>
    cases slot with
    | none =>
      obtain ⟨q, hq, hpass⟩ := ih hP
      rw [Dir.dirIterate, hq]
      exact ⟨_, rfl, List.Forall₂.cons (Passed.refl d none) hpass⟩
    | some m =>
      obtain ⟨m', s', stop, e, hblock, hwf, hnext⟩ := hstep m st hP
      have hhead : Passed d (some m) (some m') := by
        refine ⟨(fun h => by cases h), fun x hx hxwf => ⟨m', rfl, ?_⟩⟩
        cases hx
        exact hwf hxwf
      rw [Dir.dirIterate, hblock]
      cases stop with
      | true => exact ⟨_, rfl, List.Forall₂.cons hhead (List.forall₂_same.2 fun a _ => Passed.refl d a)⟩
      | false =>
        obtain ⟨q, hq, hpass⟩ := ih (hnext rfl)
        simp only [hq]
        exact ⟨_, rfl, List.Forall₂.cons hhead hpass⟩

/-! ### `ext2_add_link` -/

variable {l : Dir.Link}

private theorem processLink_state {s s' : Dir.LinkCtx} {m' : Mem} {ret : Dir.Ret} (hdone : s.done = false)
    (h : Dir.processLink d l o m s = some (m', s', ret)) (hab : ret.abort = false) : s'.done = false := by
  rw [processLink_eq l s hdone] at h
  split at h
  · cases h
    cases hab
  · unfold linkStage at h
    split at h
    · split at h
      · cases h
        exact hdone
      · split at h
        · cases h
          cases hab
        · cases h
          exact hdone
    · split at h
      · cases h
        exact hdone
      · split at h
        · cases h
        · cases h
          cases hab

private theorem linkBlock_keeps (crc : Crc) (hs : d.Sized) (hlen : l.name.length ≤ 255) (m : Mem) (s : Dir.LinkCtx)
    (hdone : s.done = false) :
    ∃ m' s' stop e, Dir.processDirBlock crc d true (Dir.processLink d l) m s = some (m', s', stop, e) ∧
      (d.WfBlock m → d.WfBlock m') ∧ (stop = false → s'.done = false) := by
  obtain ⟨⟨m', s', stop, e⟩, hq⟩ := processDirBlock_defined crc true m s
    fun o m s r (h : d.HasRec m o r) hle => by
      obtain ⟨m', s', ret, hf, hprog, -⟩ := processLink_defined (l := l) (s := s) hs h hle hlen
      exact ⟨m', s', ret, hf, hprog⟩
  refine ⟨m', s', stop, e, hq, fun hwf => ?_, fun hstop => ?_⟩
  · by_cases hvalid : d.vol.dirBlockChecksumValid crc d.id m = true
    · obtain ⟨es, hholds⟩ := wfBlock_iff.1 hwf
      obtain ⟨m1, s1, es1, hblock, -, hholds1, -⟩ := linkBlock hs hlen hholds hvalid hdone
      rw [hblock] at hq
      cases hq
      exact wfBlock_iff.2 ⟨es1, hholds1⟩
    · unfold Dir.processDirBlock at hq
      rw [if_neg hvalid] at hq
      cases hq
      exact hwf
  · subst hstop
    exact processDirBlock_state (P := fun s => s.done = false) (fun o m s m' s' ret => processLink_state) hdone hq

variable {alloc : Nat → Bool}

private theorem expandDir_kept {i : Nat} (hs : d.Sized) (hhole : ∃ j, 0 < i + j ∧ slots[j]? = some none) :
    KeepsWf d (Dir.expandDir crc d alloc i) slots := by
  obtain ⟨b, hb, es, -⟩ := newDirBlock_empty hs
  induction slots generalizing i with
  | nil =>
    obtain ⟨j, -, hj⟩ := hhole
    simp at hj
  | cons slot slots ih =>
    obtain ⟨j, hpos, hj⟩ := hhole
    -- A hole that is not in the first slot.
    have hrest : slot ≠ none ∨ i = 0 → ∃ j', 0 < i + 1 + j' ∧ slots[j']? = some none := by
      intro hslot
      cases j with
      | zero =>
        simp only [List.getElem?_cons_zero, Option.some.injEq] at hj
        rcases hslot with hne | hi
        · exact absurd hj hne
        · omega
      | succ j =>
        exact ⟨j, by omega, by simpa using hj⟩
    cases slot with
    | some m =>
      obtain ⟨r, hr, hkept⟩ := ih (i := i + 1) (hrest (Or.inl (by simp)))
      refine ⟨(some m :: r.1, r.2), ?_, List.Forall₂.cons (Kept.refl d _) hkept⟩
      rw [Dir.expandDir, hr]
      rfl
    | none =>
      have hnone : ∀ x, Kept d none x := fun x m h => by cases h
      by_cases halloc : alloc i = true
      · by_cases hi : 0 < i
        · by_cases hsum : (d.vol.dirBlockChecksumUpdate crc d.id b).2 = 0
          · refine ⟨(some (d.vol.dirBlockChecksumUpdate crc d.id b).1 :: slots, none), ?_,
              List.Forall₂.cons (hnone _) (kept_refl d slots)⟩
            rw [Dir.expandDir, if_pos halloc, if_pos hi, hb]
            simp only [hsum, ↓reduceIte]
          · refine ⟨(none :: slots, some .ENOSPC), ?_, List.Forall₂.cons (hnone _) (kept_refl d slots)⟩
            rw [Dir.expandDir, if_pos halloc, if_pos hi, hb]
            simp only [hsum, ↓reduceIte]
        · obtain ⟨r, hr, hkept⟩ := ih (i := i + 1) (hrest (Or.inr (by omega)))
          refine ⟨(some (fun _ => 0) :: r.1, r.2), ?_, List.Forall₂.cons (hnone _) hkept⟩
          rw [Dir.expandDir, if_pos halloc, if_neg hi, hr]
          rfl
      · refine ⟨(none :: slots, some .ENOSPC), ?_, List.Forall₂.cons (hnone _) (kept_refl d slots)⟩
        rw [Dir.expandDir, if_neg halloc]

theorem addLink_keeps (hs : d.Sized) (hlen : l.name.length ≤ 255) (hhole : ∃ i, 0 < i ∧ slots[i]? = some none) :
    KeepsWf d (Dir.addLink crc d alloc l) slots := by
  have hpass : ∀ (slots : List (Option Mem)) (s : Dir.LinkCtx), s.done = false →
      ∃ q, Dir.dirIterate crc d true (Dir.processLink d l) slots s = some q ∧ List.Forall₂ (Passed d) slots q.1 :=
    fun slots s hdone => dirIterate_passed (P := fun s => s.done = false)
      (fun m s hd => linkBlock_keeps crc hs hlen m s hd) hdone
  unfold KeepsWf Dir.addLink
  split
  · exact ⟨_, rfl, kept_refl d slots⟩
  · split
    · exact ⟨_, rfl, kept_refl d slots⟩
    · obtain ⟨⟨slots1, s1, e1⟩, hq1, hpass1⟩ := hpass slots ⟨0, false, none⟩ rfl
      have hkept1 := passed_kept hpass1
      rw [hq1]
      obtain ⟨prev1, done1, err1⟩ := s1
      cases e1 with
      | some e => exact ⟨_, rfl, hkept1⟩
      | none => cases err1 with
        | some e => exact ⟨_, rfl, hkept1⟩
        | none => cases done1 with
          | true => exact ⟨_, rfl, hkept1⟩
          | false =>
            obtain ⟨i, hi, hhole⟩ := hhole
            obtain ⟨⟨slots2, e2⟩, hq2, hkept2⟩ : KeepsWf d (Dir.expandDir crc d alloc 0) slots1 :=
              expandDir_kept hs ⟨i, by omega, passed_hole hpass1 hhole⟩
            have hkept12 := kept_trans hkept1 hkept2
            simp only [hq2]
            cases e2 with
            | some e => exact ⟨_, rfl, hkept12⟩
            | none =>
              obtain ⟨⟨slots3, s3, e3⟩, hq3, hpass3⟩ := hpass slots2 ⟨prev1, false, none⟩ rfl
              have hkept3 := kept_trans hkept12 (passed_kept hpass3)
              simp only [hq3]
              obtain ⟨prev3, done3, err3⟩ := s3
              cases e3 with
              | some e => exact ⟨_, rfl, hkept3⟩
              | none => cases err3 with
                | some e => exact ⟨_, rfl, hkept3⟩
                | none => cases done3 with
                  | true => exact ⟨_, rfl, hkept3⟩
                  | false => exact ⟨_, rfl, hkept3⟩

/-! ### `ext2_unlink_dirent` -/

variable {vnode : Nat → Option (Bool × Nat)} {before : List (Option Mem)} {name : List UInt8}

/-- The private data of `ext2_process_unlink` before an entry has been found. -/
def Searching (s : Dir.LinkCtx) : Prop := s.done = false ∧ s.err = none

private theorem processUnlink_state {s s' : Dir.LinkCtx} {m' : Mem} {ret : Dir.Ret} (hsearch : Searching s)
    (h : Dir.processUnlink crc d vnode before name o m s = some (m', s', ret)) (hab : ret.abort = false) :
    Searching s' := by
  unfold Dir.processUnlink at h
  simp only at h
  split at h
  · cases h
    exact hsearch
  · split at h
    · cases h
      cases hab
    · split at h
      · cases h
      · cases h
        cases hab
      · cases h
        cases hab

private theorem processUnlink_defined (crc : Crc) (vnode : Nat → Option (Bool × Nat)) (before : List (Option Mem))
    (name : List UInt8) {r : Dirent} {s : Dir.LinkCtx} (h : d.HasRec m o r) :
    ∃ m' s' ret, Dir.processUnlink crc d vnode before name o m s = some (m', s', ret) ∧
      (ret.abort = false → 8 ≤ if ret.changed then getRecLen d.blksize (dRecLen m' o) else r.recLen) := by
  have h8 := h.2.eight_le
  rcases processUnlink_cases crc vnode before name s h with ⟨hcall, -⟩ | ⟨s', c, hcall, -⟩ | ⟨hcall, -⟩
  · refine ⟨_, _, _, hcall, fun _ => ?_⟩
    simp only [Bool.false_eq_true, ↓reduceIte]
    omega
  · exact ⟨_, _, _, hcall, fun hab => by cases hab⟩
  · exact ⟨_, _, _, hcall, fun hab => by cases hab⟩

private theorem unlinkBlock_keeps (crc : Crc) (vnode : Nat → Option (Bool × Nat)) (before : List (Option Mem))
    (name : List UInt8) (hs : d.Sized) (m : Mem) (s : Dir.LinkCtx) (hsearch : Searching s) :
    ∃ m' s' stop e, Dir.processDirBlock crc d true (Dir.processUnlink crc d vnode before name) m s =
        some (m', s', stop, e) ∧ (d.WfBlock m → d.WfBlock m') ∧ (stop = false → Searching s') := by
  obtain ⟨⟨m', s', stop, e⟩, hq⟩ := processDirBlock_defined crc true m s
    fun o m s r (h : d.HasRec m o r) _ => processUnlink_defined crc vnode before name h
  refine ⟨m', s', stop, e, hq, fun hwf => ?_, fun hstop => ?_⟩
  · by_cases hvalid : d.vol.dirBlockChecksumValid crc d.id m = true
    · obtain ⟨es, hholds⟩ := wfBlock_iff.1 hwf
      obtain ⟨m1, s1, stop1, hblock, -, hres⟩ := unlinkBlock vnode before name hs hholds hvalid hsearch.1 hsearch.2
      rw [hblock] at hq
      cases hq
      rcases hres with ⟨-, hholds1, -⟩ | ⟨-, -, -, l1, x, l2, -, -, hholds1⟩
      · exact wfBlock_iff.2 ⟨_, hholds1⟩
      · exact wfBlock_iff.2 ⟨_, hholds1⟩
    · unfold Dir.processDirBlock at hq
      rw [if_neg hvalid] at hq
      cases hq
      exact hwf
  · subst hstop
    exact processDirBlock_state (fun o m s m' s' ret => processUnlink_state) hsearch hq

private theorem unlinkDirent_keeps (hs : d.Sized) (crc : Crc) (vnode : Nat → Option (Bool × Nat)) (name : List UInt8)
    (slots : List (Option Mem)) : KeepsWf d (Dir.unlinkDirent crc d vnode name) slots := by
  obtain ⟨⟨slots1, s1, e1⟩, hq, hpass⟩ :
    ∃ q, Dir.dirIterate crc d true (Dir.processUnlink crc d vnode slots name) slots
      ⟨0, false, none⟩ = some q ∧ List.Forall₂ (Passed d) slots q.1 :=
    dirIterate_passed (P := Searching) (unlinkBlock_keeps crc vnode slots name hs) ⟨rfl, rfl⟩
  have hkept := passed_kept hpass
  unfold KeepsWf Dir.unlinkDirent
  split
  · exact ⟨_, rfl, kept_refl d slots⟩
  · rw [hq]
    obtain ⟨prev1, done1, err1⟩ := s1
    cases e1 with
    | some e => exact ⟨_, rfl, hkept⟩
    | none => cases err1 with
      | some e => exact ⟨_, rfl, hkept⟩
      | none => cases done1 with
        | true => exact ⟨_, rfl, hkept⟩
        | false => exact ⟨_, rfl, hkept⟩

end

/-! ### Long names -/

section
variable {d : Dir} {m : Mem} {o len : Nat} {r : Dirent} {l : Dir.Link} {s : Dir.LinkCtx}

private theorem processLink_full (h : d.HasRec m o r) (hnext : Dir.mergeNext d o m = .ok (m, r.recLen, false))
    (hlive : r.ino ≠ 0) (hfull : r.recLen < dirRecLen r.nameLen + dirRecLen l.name.length) (hdone : s.done = false) :
    Dir.processLink d l o m s = some (m, s, ⟨false, false⟩) := by
  have hino : dInode m o = r.ino := by rw [← h.1]; rfl
  have hnl : dNameLen m o = r.nameLen := by rw [← h.1]; rfl
  rw [processLink_eq l s hdone, hnext]
  simp only [linkStage, hino, hnl]
  rw [if_pos hlive, if_pos hfull]

private theorem processLink_split (hs : d.Sized) (h : d.HasRec m o r)
    (hnext : Dir.mergeNext d o m = .ok (m, r.recLen, false))
    (hle : r.recLen ≤ d.blksize) (hlive : r.ino ≠ 0) (hlen : dirRecLen r.nameLen + len = r.recLen)
    (hroom : dirRecLen l.name.length ≤ len) (hdone : s.done = false) :
    ∃ m', Dir.processLink d l o m s = some (m', s, ⟨true, false⟩) ∧
    getRecLen d.blksize (dRecLen m' o) = dirRecLen r.nameLen ∧
      d.HasRec m' (o + dirRecLen r.nameLen) ⟨0, len, 0, []⟩ := by
  have hspec := dirRecLen_spec l.name.length
  have hspec' := dirRecLen_spec r.nameLen
  have hmod := h.2.mod
  have hino : dInode m o = r.ino := by rw [← h.1]; rfl
  have hnl : dNameLen m o = r.nameLen := by rw [← h.1]; rfl
  obtain ⟨m', hsplit, hrec, hrest, -⟩ := splitRecord_ok hs h (show dirRecLen r.nameLen + len ≤ d.blksize by omega)
    (by omega) (by omega)
  refine ⟨m', ?_, ?_, hrest⟩
  · rw [processLink_eq l s hdone, hnext]
    simp only [linkStage, hino, hnl]
    rw [if_pos hlive, if_neg (by omega), show r.recLen - dirRecLen r.nameLen = len by omega, hsplit]
  · have hget : (d.direntAt m' o).recLen = dirRecLen r.nameLen := by rw [hrec.1]
    exact hget

private theorem processLink_overflow (h : d.HasRec m o r) (hend : d.blksize ≤ o + r.recLen + 8) (hfree : r.ino = 0)
    (hroom : dirRecLen l.name.length ≤ r.recLen) (hlong : d.blksize < o + 8 + l.name.length)
    (hdone : s.done = false) :
    Dir.processLink d l o m s = none := by
  have hino : dInode m o = r.ino := by rw [← h.1]; rfl
  have hlen : getRecLen d.blksize (dRecLen m o) = r.recLen := by rw [← h.1]; rfl
  have hnext : Dir.mergeNext d o m = .ok (m, r.recLen, false) := by
    unfold Dir.mergeNext
    simp only [hlen]
    rw [if_neg (by omega)]
  rw [processLink_eq l s hdone, hnext]
  simp only [linkStage, hino]
  rw [if_neg (not_not.2 hfree), if_neg (by omega), if_pos hlong]

end

def liveRecord (m : Mem) (o recLen len : Nat) : Mem := writeLE (writeLE (writeLE m o 4 1) (o + 4) 2 recLen) (o + 6) 2
    (len - 8)

def fullBlock (len : Nat) : Mem :=
  liveRecord (liveRecord (liveRecord (fun _ => 0) 0 len len) len len len) (2 * len) (1024 - 2 * len) len

def smallDir : Dir := ⟨smallVolume, ⟨2, 0⟩, false, false⟩

theorem smallDir_sized : smallDir.Sized := sized_of_openfs (show openfs smallDir.vol.super = some (.ok 1) by decide)

private theorem fullBlock_rec {len : Nat} (hlen : len = 252 ∨ len = 256) : dirRecLen (len - 8) = len ∧
    ∀ i < 3, dInode (fullBlock len) (i * len) ≠ 0 ∧ dNameLen (fullBlock len) (i * len) = len - 8 ∧
      dRecLen (fullBlock len) (i * len) = if i = 2 then 1024 - 2 * len else len := by
  rcases hlen with rfl | rfl
  · decide
  · decide

/-- Each record of the block is the last one or has a live one after it. -/
private theorem fullBlock_at {len : Nat} (hlen : len = 252 ∨ len = 256) {i : Nat} (hi : i < 3) :
    ∃ r, smallDir.HasRec (fullBlock len) (i * len) r ∧ r.ino ≠ 0 ∧ dirRecLen r.nameLen = len ∧
      r.recLen = (if i = 2 then 1024 - 2 * len else len) ∧
      Dir.mergeNext smallDir (i * len) (fullBlock len) = .ok (fullBlock len, r.recLen, false) := by
  obtain ⟨hmin, hrec⟩ := fullBlock_rec hlen
  have hsize : smallDir.blksize = 1024 := by decide
  have hget : ∀ n, getRecLen smallDir.blksize n = n := fun n => by
    rw [hsize]
    rfl
  obtain ⟨hlive, hname, hraw⟩ := hrec i hi
  have hcurr : (smallDir.direntAt (fullBlock len) (i * len)).recLen = (if i = 2 then 1024 - 2 * len else len) :=
    (hget _).trans hraw
  have hneed : dirRecLen (smallDir.direntAt (fullBlock len) (i * len)).nameLen = len := by
    change dirRecLen (dNameLen (fullBlock len) (i * len)) = len
    rw [hname, hmin]
  refine ⟨smallDir.direntAt (fullBlock len) (i * len), ⟨rfl, ?_, ?_⟩, hlive, hneed, hcurr, ?_⟩
  · rw [hcurr]
    split
    · omega
    · omega
  · rw [hcurr, hneed]
    split
    · omega
    · omega
  · unfold Dir.mergeNext
    simp only [hget, hraw]
    rw [if_neg, hcurr]
    rintro ⟨h1, h2, -⟩
    by_cases hi2 : i = 2
    · subst hi2
      rw [if_pos rfl] at h1
      omega
    · rw [if_neg hi2, ← Nat.succ_mul] at h2
      exact (hrec (i + 1) (by omega)).1 h2

private theorem fullBlock_wf {len : Nat} (hlen : len = 252 ∨ len = 256) : smallDir.WfBlock (fullBlock len) := by
  obtain ⟨r0, hr0, -, -, hcurr0, -⟩ := fullBlock_at hlen (show 0 < 3 by decide)
  obtain ⟨r1, hr1, -, -, hcurr1, -⟩ := fullBlock_at hlen (show 1 < 3 by decide)
  obtain ⟨r2, hr2, -, -, hcurr2, -⟩ := fullBlock_at hlen (show 2 < 3 by decide)
  rw [if_neg (by omega)] at hcurr0 hcurr1
  rw [if_pos rfl] at hcurr2
  have htop : smallDir.top = 1024 := by decide
  refine ⟨⟨[r0, r1, r2], ?_, ?_, ?_, ?_⟩, fun hcsum => by cases hcsum⟩
  · rwa [Nat.zero_mul] at hr0
  · rw [Nat.one_mul] at hr1
    rwa [hcurr0, Nat.zero_add]
  · rwa [hcurr0, hcurr1, Nat.zero_add, ← Nat.two_mul]
  · simp only [segments_nil]
    omega

/-- In a block whose last record is split, a long name does not fit after the record. -/
theorem fullBlock_overflow (crc : Crc) {len : Nat} {l : Dir.Link} {s : Dir.LinkCtx} (hlen : len = 252 ∨ len = 256)
    (hroom : dirRecLen l.name.length + 3 * len ≤ 1024) (hlong : 1024 < 3 * len + 8 + l.name.length)
    (hdone : s.done = false) :
    Dir.processDirBlock crc smallDir true (Dir.processLink smallDir l) (fullBlock len) s = none := by
  have hspec := dirRecLen_spec l.name.length
  have hsize : smallDir.blksize = 1024 := by decide
  have hpass :
    ∀ i < 2, ∀ fuel, smallDir.loop true (Dir.processLink smallDir l) (fuel + 1) (i * len) (fullBlock len) s false =
      smallDir.loop true (Dir.processLink smallDir l) fuel ((i + 1) * len) (fullBlock len) s false := by
    intro i hi fuel
    obtain ⟨r, hr, hlive, hneed, hcurr, hnext⟩ := fullBlock_at hlen (show i < 3 by omega)
    rw [if_neg (by omega)] at hcurr
    have hle : i * len ≤ 1 * len := Nat.mul_le_mul_right len (by omega)
    rw [loop_rec hr (by omega) (by omega), if_neg fun hc => hlive hc.1,
      processLink_full hr hnext hlive (by omega) hdone]
    simp only [Bool.false_eq_true, ↓reduceIte, Bool.or_self]
    rw [hcurr, Nat.succ_mul]
  obtain ⟨r, hr, hlive, hneed, hcurr, hnext⟩ := fullBlock_at hlen (show 2 < 3 by decide)
  rw [if_pos rfl] at hcurr
  obtain ⟨m', hsplit, hset, hrest⟩ :=
    processLink_split smallDir_sized hr hnext (show r.recLen ≤ smallDir.blksize by omega)
    hlive (show dirRecLen r.nameLen + (1024 - 3 * len) = r.recLen by omega)
    (show dirRecLen l.name.length ≤ _ by omega) hdone
  have hend : 2 * len + dirRecLen r.nameLen + (1024 - 3 * len) = smallDir.blksize := by omega
  have hlast :
    smallDir.loop true (Dir.processLink smallDir l) (1020 + 1 + 1) (2 * len + dirRecLen r.nameLen) m' s true =
      none := by
    have hover := processLink_overflow (s := s) hrest (Nat.le_add_right_of_le (Nat.le_of_eq hend.symm)) rfl
      (show dirRecLen l.name.length ≤ 1024 - 3 * len by omega) (by omega) hdone
    have hnot :
      ¬((0 : Nat) = 0 ∧ (true = false ∨ (2 * len + dirRecLen r.nameLen = smallDir.blksize - smallDir.csumSize ∧
        dRecLen m' (2 * len + dirRecLen r.nameLen) = smallDir.csumSize ∧
        dNameLen m' (2 * len + dirRecLen r.nameLen) = 0xde00))) := by
      rintro ⟨-, hfalse | ⟨htail, -⟩⟩
      · cases hfalse
      · rw [show smallDir.csumSize = 0 from rfl] at htail
        omega
    rw [loop_rec hrest (Nat.le_of_eq hend) (by omega), if_neg hnot, hover]
  have hloop :
    smallDir.loop true (Dir.processLink smallDir l) (1020 + 1 + 1 + 1 + 1 + 1) (0 * len) (fullBlock len) s false =
      none := by
    rw [hpass 0 (by omega), hpass 1 (by omega), loop_rec hr (by omega) (by omega), if_neg fun hc => hlive hc.1,
      hsplit]
    simp only [Bool.false_eq_true, ↓reduceIte, Bool.or_true]
    rw [hset]
    exact hlast
  rw [Nat.zero_mul] at hloop
  unfold Dir.processDirBlock
  rw [if_pos (show smallDir.vol.dirBlockChecksumValid crc smallDir.id (fullBlock len) = true from rfl), hsize,
    show 1024 + 1 = 1020 + 1 + 1 + 1 + 1 + 1 from rfl, hloop]
  rfl

theorem fullBlock_short {name : List UInt8} (hlong : 255 < name.length) : ∃ len, (len = 252 ∨ len = 256) ∧
    dirRecLen name.length + 3 * len ≤ 1024 ∧ 1024 < 3 * len + 8 + name.length := by
  have hspec := dirRecLen_spec name.length
  by_cases hshort : dirRecLen name.length ≤ 256
  · exact ⟨256, Or.inr rfl, by omega, by omega⟩
  · exact ⟨252, Or.inl rfl, by omega, by omega⟩

private theorem addLink_overflow (crc : Crc) (inode flags : Nat) (alloc : Nat → Bool) {name : List UInt8}
    (hlong : 255 < name.length) :
    ∃ m, smallDir.WfBlock m ∧ Dir.addLink crc smallDir alloc ⟨name, inode, flags⟩ [some m, none] = none := by
  obtain ⟨len, hlen, hroom, hover⟩ := fullBlock_short hlong
  refine ⟨fullBlock len, fullBlock_wf hlen, ?_⟩
  unfold Dir.addLink
  rw [if_neg (by decide), if_neg (by decide), Dir.dirIterate, fullBlock_overflow crc hlen hroom hover rfl]

def BlockKeepsWf (crc : Crc) (d : Dir) (func : Dir.Func Dir.LinkCtx) : Prop :=
  ∀ m s, Searching s → ∃ r, Dir.processDirBlock crc d true func m s = some r ∧ (d.WfBlock m → d.WfBlock r.1)

/-- `ext2_add_link` with the name keeps the blocks of every directory well formed. -/
def AddKeepsWf (crc : Crc) (name : List UInt8) : Prop :=
  ∀ (d : Dir) (count : Nat), openfs d.vol.super = some (.ok count) → ∀ inode flags : Nat,
    BlockKeepsWf crc d (Dir.processLink d ⟨name, inode, flags⟩) ∧
    ∀ (alloc : Nat → Bool) (slots : List (Option Mem)), (∃ i, 0 < i ∧ slots[i]? = some none) →
      KeepsWf d (Dir.addLink crc d alloc ⟨name, inode, flags⟩) slots

/-- `ext2_unlink_dirent` with the name keeps the blocks of the directory well formed. -/
def UnlinkKeepsWf (crc : Crc) (d : Dir) (vnode : Nat → Option (Bool × Nat)) (name : List UInt8) : Prop :=
  ∀ slots, BlockKeepsWf crc d (Dir.processUnlink crc d vnode slots name) ∧
    KeepsWf d (Dir.unlinkDirent crc d vnode name) slots

/-- `ext2_add_link` keeps all blocks well formed and writes within them if and only if the name has at most 255 bytes;
`ext2_unlink_dirent` does so with any name, and `ext2_new_dir_block` makes well-formed blocks. -/
theorem dirBlocks_wf (crc : Crc) : (∀ name, AddKeepsWf crc name ↔ name.length ≤ 255) ∧
    (∀ name inode flags alloc, 255 < name.length →
      ∃ m, smallDir.WfBlock m ∧ Dir.addLink crc smallDir alloc ⟨name, inode, flags⟩ [some m, none] = none) ∧
    (∀ (d : Dir) (count : Nat), openfs d.vol.super = some (.ok count) →
      (∀ vnode name, UnlinkKeepsWf crc d vnode name) ∧
      ∀ ino parent, ∃ m, Dir.newDirBlock d ino parent = .ok m ∧ d.WfBlock m) := by
  refine ⟨fun name =>
    ⟨fun h => ?_, fun hlen d count hopen inode flags => ⟨fun m s hs => ?_, fun alloc slots hhole => ?_⟩⟩,
    fun name inode flags alloc hlong => addLink_overflow crc inode flags alloc hlong,
    fun d count hopen => ⟨fun vnode name slots => ⟨fun m s hs => ?_, ?_⟩, fun ino parent => ?_⟩⟩
  · by_contra hlong
    obtain ⟨m, -, hm⟩ := addLink_overflow crc 0 0 (fun _ => false) (Nat.lt_of_not_le hlong)
    obtain ⟨r, hr, -⟩ := (h smallDir 1 (by decide) 0 0).2 (fun _ => false) [some m, none] ⟨1, Nat.one_pos, rfl⟩
    rw [hm] at hr
    cases hr
  · obtain ⟨m', s', stop, e, hblock, hwf, -⟩ :=
      linkBlock_keeps (l := ⟨name, inode, flags⟩) crc (sized_of_openfs hopen) hlen m s hs.1
    exact ⟨_, hblock, hwf⟩
  · exact addLink_keeps (sized_of_openfs hopen) hlen hhole
  · obtain ⟨m', s', stop, e, hblock, hwf, -⟩ := unlinkBlock_keeps crc vnode slots name (sized_of_openfs hopen) m s hs
    exact ⟨_, hblock, hwf⟩
  · exact unlinkDirent_keeps (sized_of_openfs hopen) crc vnode name slots
  · exact newDirBlock_wf (sized_of_openfs hopen) ino parent

/-- An entry `a` in an empty directory with a hole. -/
theorem dirBlocks_wf_small : ∃ m, Dir.newDirBlock smallDir 0 0 = .ok m ∧
    KeepsWf smallDir (Dir.addLink zeroCrc smallDir (fun _ => true) ⟨[97], 12, 1⟩) [some m, none] := by
  obtain ⟨hadd, -, hrest⟩ := dirBlocks_wf zeroCrc
  obtain ⟨m, hm, -⟩ := (hrest smallDir 1 (by decide)).2 0 0
  exact ⟨m, hm, ((hadd [97]).2 (by decide) smallDir 1 (by decide) 12 1).2 _ _ ⟨1, Nat.one_pos, rfl⟩⟩

/-- A name of 300 bytes goes to a record of 256 bytes at the end of a block. -/
theorem not_dirBlocks_wf : smallDir.WfBlock (fullBlock 256) ∧
    Dir.addLink zeroCrc smallDir (fun _ => true) ⟨List.replicate 300 65, 12, 1⟩ [some (fullBlock 256), none] =
    none := by
  constructor
  · exact fullBlock_wf (Or.inr rfl)
  · unfold Dir.addLink
    rw [if_neg (by decide), if_neg (by decide), Dir.dirIterate,
      fullBlock_overflow zeroCrc (Or.inr rfl) (by rw [List.length_replicate]; decide)
        (by rw [List.length_replicate]; decide) rfl]

end Pml.Ext2
