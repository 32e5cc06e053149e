import Pml.Kernel.MapLoops

/-!
# When a failed `mmap` leaves no trace

If `sys_mmap` runs out of memory then it unmaps the pages that it has mapped and releases their frames.  It does not
do so when the file cannot be read, and pages that were mapped before, where the new region is put on them, are lost.
`mmap_atomic_iff` says which calls leave no trace when they fail.
-/

namespace Pml.Kernel

open Arch ByteMemory

/-- The table, the files and all user translations are the same, and the only frames with another count are those of
new page tables. -/
structure Unchanged (s s' : MmState) : Prop where
  mmaps : s'.mmaps = s.mmaps
  files : s'.files = s.files
  fds : s'.fds = s.fds
  phys : ∀ w < userMemTopVma, vmPhysAddr s'.vm.mem s'.pml4t w = vmPhysAddr s.vm.mem s.pml4t w
  counts : ∀ i, s'.vm.frames.count i = s.vm.frames.count i ∨
    s.vm.frames.count i = 0 ∧ IsTable s'.vm.mem s'.pml4t (pageSize * i)

def Suffices (s : MmState) (vs : List Nat) : Prop := (mapPages s.pml4t pageFlagRw true s.vm vs).2 = none

def Untranslated (s : MmState) (v : Nat) : Prop :=
  ∀ w, w / pageSize = v / pageSize → vmPhysAddr s.vm.mem s.pml4t w = 0

/-- What `vfs_read` gives for the file, if there is one. -/
def readFile (env : MmapEnv) (file : Option Nat) : Except Errno (List UInt8) :=
  if file.isSome then env.vfsRead else .ok []

/-- The base that `sys_mmap` chooses for a region that is not at a fixed address. -/
def mmapBase (s : MmState) (addr len : Nat) : Nat :=
  (placeRegion s.mmaps (if addr ≠ 0 then addr else userMmapBaseVma) len).1

/-- The file can be read, or the call has not mapped a page; if memory runs out then no page that could be mapped
before was translated; and if the area is empty then the file is not stored in a page table. -/
structure UndoFine (env : MmapEnv) (s : MmState) (file : Option Nat) (base stop : Nat) : Prop where
  read : Suffices s (pages base stop) → ∀ e, readFile env file = .error e → pages base stop = []
  free : ¬Suffices s (pages base stop) ∨ env.mem = false → ∀ v ∈ pages base stop,
    Suffices s (pages base (v + pageSize)) → Untranslated s v
  store : pages base stop = [] → env.mem = false → ∀ data, readFile env file = .ok data → ∀ w < userMemTopVma,
    vmPhysAddr (storeData s.pml4t base s.vm.mem data) s.pml4t w = vmPhysAddr s.vm.mem s.pml4t w

/-! ### The pages that are released -/

theorem Unchanged.refl (s : MmState) : Unchanged s s := ⟨rfl, rfl, rfl, fun _ _ => rfl, fun _ => Or.inl rfl⟩

/-- After the release the state is unchanged if and only if none of the pages was translated. -/
private theorem unchanged_released_iff {s s' : MmState} {vm : Vm} {qs : List (Nat × Nat)} (hmaps : s'.mmaps = s.mmaps)
    (hfiles : s'.files = s.files) (hfds : s'.fds = s.fds) (hroot : s'.pml4t = s.pml4t)
    (hadd : Added vm s.pml4t qs (leaf s.vm.mem s.pml4t) s.vm.frames.count)
    (hal : ∀ v ∈ qs.map Prod.fst, pageSize ∣ v ∧ v < userMemTopVma)
    (hvm : s'.vm = releasePages s.pml4t vm (qs.map Prod.fst)) :
    Unchanged s s' ↔ ∀ v ∈ qs.map Prod.fst, Untranslated s v := by
  obtain ⟨ℓ', h1, h2⟩ := releasePages_added hadd fun v hv => (hal v hv).1
  rw [← hvm] at h1
  have hleaf : ∀ w, leaf s'.vm.mem s.pml4t w = ℓ' w := fun w => h1.maps.other w (by simp)
  constructor
  · intro h v hv w hw
    obtain ⟨hvd, hlt⟩ := hal v hv
    have htop : w < userMemTopVma := by
      obtain ⟨k, rfl⟩ := hvd
      rw [page_mul_div] at hw
      simp only [pageSize, userMemTopVma] at hw hlt ⊢
      omega
    have hphys := h.phys w htop
    rw [hroot, vmPhysAddr_leaf, hleaf] at hphys
    rcases h2 w with ⟨h3, -⟩ | ⟨-, h3⟩
    · exact absurd hw (h3 v hv)
    · rw [h3] at hphys
      exact hphys.symm
  · intro h
    refine ⟨hmaps, hfiles, hfds, fun w _ => ?_, fun i => ?_⟩
    · rw [hroot, vmPhysAddr_leaf, hleaf]
      rcases h2 w with ⟨-, h3⟩ | ⟨⟨v, hv, h3⟩, h4⟩
      · rw [h3, vmPhysAddr_leaf]
      · rw [h4, h v hv w h3]
        rfl
    · rw [hroot]
      rcases h1.holds.counts i with h3 | h3 | h3
      · exact Or.inl h3
      · exact Or.inr h3
      · simp at h3

private theorem not_unchanged_of_added {s s' : MmState} {qs : List (Nat × Nat)} (hroot : s'.pml4t = s.pml4t)
    (hadd : Added s'.vm s.pml4t qs (leaf s.vm.mem s.pml4t) s.vm.frames.count) (hne : qs ≠ []) : ¬Unchanged s s' := by
  intro h
  obtain ⟨p, hp⟩ := List.exists_mem_of_ne_nil qs hne
  have hmem : p.2 ∈ qs.map Prod.snd := List.mem_map_of_mem hp
  obtain ⟨-, hd, -, ht⟩ := hadd.holds.frame p.2 hmem
  obtain ⟨h1, h2⟩ := hadd.holds.one p.2 hmem
  rcases h.counts (p.2 / pageSize) with h3 | ⟨-, h3⟩
  · omega
  · rw [hroot, Nat.mul_div_cancel' hd] at h3
    exact ht h3

/-! ### The call after the choice of the address -/

theorem mmapFlags (prot : Nat) : MapFlags ((if prot ≠ 0 then pageFlagUser else 0) |||
    if prot &&& protWrite ≠ 0 then pageFlagRw else 0) := by
  split
  · split <;> exact ⟨by decide, by decide, by decide⟩
  · split <;> exact ⟨by decide, by decide, by decide⟩

private theorem forall_error_iff {α : Type} {P : MmState → Prop} {x : MmState} {e : Errno} :
    (∀ s' e', (x, (.error e : Except Errno α)) = (s', .error e') → P s') ↔ P x := by
  constructor
  · exact fun h => h x e rfl
  · intro h s' e' heq
    obtain ⟨rfl, -⟩ := Prod.mk.inj heq
    exact h

theorem mem_pages_of_lt {base stop n o : Nat} (hd : pageSize ∣ base) (hle : base + n ≤ stop) (ho : o < n) :
    pageSize * ((base + o) / pageSize) ∈ pages base stop := by
  refine (mem_pages_aligned hd).2 ⟨Nat.dvd_mul_right _ _, ?_, ?_⟩
  · obtain ⟨k, rfl⟩ := hd
    rw [Nat.mul_add_div (by decide)]
    exact Nat.mul_le_mul_left _ (Nat.le_add_right _ _)
  · have h := Nat.mul_div_le (base + o) pageSize
    omega

section

variable {env : MmapEnv} {s : MmState} {base ri len prot : Nat} {file : Option Nat} {fd : Int} {offset flags : Nat}
  (hspace : Space s.vm s.pml4t) (hb : base < 2 ^ 64) (hd : pageSize ∣ base) (hl : pageSize ∣ len)
include hspace hb hd hl

/-- A failed call with an area to map leaves no trace exactly under the condition. -/
private theorem mapRegion_iff (htop : add64 base len < userMemTopVma)
    (hdata : pages base (add64 base len) ≠ [] → ∀ data, readFile env file = .ok data →
      base + data.length ≤ add64 base len) :
    (∀ s' e, mapRegion env s base ri len prot file fd offset flags = (s', .error e) → Unchanged s s') ↔
      UndoFine env s file base (add64 base len) := by
  have hstop : pageSize ∣ add64 base len := dvd_add64 hd hl
  have hdown : alignDown base pageSize = base := alignDown_of_dvd hb hd
  unfold mapRegion
  simp only [if_neg (Nat.not_le.2 htop), hdown, show (if file.isSome = true then env.vfsRead else .ok []) =
    readFile env file from rfl]
  generalize add64 base len = stop at *
  have hflags := mmapFlags prot
  generalize ((if prot ≠ 0 then pageFlagUser else 0) ||| if prot &&& protWrite ≠ 0 then pageFlagRw else 0) =
    pflags at hflags ⊢
  have hmem : ∀ v, v ∈ pages base stop ↔ pageSize ∣ v ∧ base ≤ v ∧ v < stop := fun v => mem_pages_aligned hd
  have hrw : MapFlags pageFlagRw := ⟨by decide, by decide, by decide⟩
  obtain ⟨qs, hadd, hcase⟩ := mapPages_added hrw true (Added.start hspace) (@pages_apart base stop hd) (by simp)
  rw [List.append_nil] at hadd
  obtain ⟨⟨vm, failed⟩, hrun⟩ : ∃ x, mapPages s.pml4t pageFlagRw true s.vm (pages base stop) = x := ⟨_, rfl⟩
  have hleft : ∀ {v w xs rest}, pages base stop = xs ++ v :: rest →
      (mapPages s.pml4t pageFlagRw true s.vm (pages base stop)).2 = some v → w ∈ pages base stop →
        (Suffices s (pages base (w + pageSize)) ↔ w ∈ xs) := fun h1 h2 h3 => mapPages_before_iff hd hstop h1 h2 h3
  have hal : ∀ v ∈ qs.map Prod.fst, v ∈ pages base stop → pageSize ∣ v ∧ v < userMemTopVma := fun v _ hv => by
    obtain ⟨h1, -, h2⟩ := (hmem v).1 hv
    exact ⟨h1, by omega⟩
  have hsuf : Suffices s (pages base stop) ↔ failed = none := by rw [Suffices, hrun]
  rw [hrun] at hadd hcase ⊢
  rcases hcase with ⟨rfl, hqs⟩ | ⟨v, rest, hsplit, rfl⟩
  · -- all pages have been mapped
    dsimp only at hadd ⊢
    rcases hread : readFile env file with e | data
    · -- the frames stay behind
      dsimp only
      rw [forall_error_iff]
      have hnil : pages base stop = [] ↔ qs = [] := by rw [← hqs, List.map_eq_nil_iff]
      constructor
      · intro h
        have hq : qs = [] := by
          by_contra hne
          exact @not_unchanged_of_added s { s with vm := vm } qs rfl hadd hne h
        exact ⟨fun _ _ _ => hnil.2 hq, fun _ v hv => by simp [hnil.2 hq] at hv, fun _ _ d h1 => by
          rw [hread] at h1
          cases h1⟩
      · intro h
        have hq := hnil.1 (h.read (hsuf.2 rfl) e hread)
        have hvm : vm = s.vm := by
          rw [hnil.2 hq] at hrun
          exact (congrArg Prod.fst hrun).symm
        rw [hvm]
        exact Unchanged.refl s
    · dsimp only
      have hread' : ∀ e, readFile env file ≠ .error e := fun e h => by
        rw [hread] at h
        cases h
      have hfirst : ∀ v ∈ pages base stop, Suffices s (pages base (v + pageSize)) := fun v hv => by
        obtain ⟨h1, h2, h3⟩ := (hmem v).1 hv
        refine @mapPages_left _ _ _ _ _ (pages (v + pageSize) stop) ?_
        rw [← pages_split hd (Nat.dvd_add h1 (Nat.dvd_refl _)) (by omega) (by simp only [pageSize] at *; omega), hrun]
      have hsto := fun hne => @storeData_added vm s.pml4t base qs _ _ hadd data fun o ho => by
        obtain ⟨q, hq, he⟩ := List.mem_map.1 (hqs ▸ mem_pages_of_lt hd (hdata hne data hread) ho)
        exact ⟨q, hq, by rw [he]; exact (Nat.mul_div_cancel_left _ (by decide)).symm⟩
      obtain ⟨m, hm⟩ : ∃ m, storeData s.pml4t base vm.mem data = m := ⟨_, rfl⟩
      rw [hm] at hsto ⊢
      by_cases hne : pages base stop = []
      · -- only the bytes of the file are stored
        have hvm : vm = s.vm := by
          rw [hne] at hrun
          exact (congrArg Prod.fst hrun).symm
        subst hvm
        simp only [hne, remapPages, releasePages, Bool.true_eq_false, false_or]
        by_cases hk : env.mem = false
        · rw [if_pos hk, forall_error_iff]
          constructor
          · intro h
            refine ⟨fun _ e h1 => absurd h1 (hread' e), fun _ v hv => by simp [hne] at hv, fun _ _ d h1 w hw => ?_⟩
            rw [hread] at h1
            obtain rfl := Except.ok.inj h1
            rw [hm]
            exact h.phys w hw
          · intro h
            have hstore := h.store hne hk data hread
            rw [hm] at hstore
            exact ⟨rfl, rfl, rfl, hstore, fun _ => Or.inl rfl⟩
        · rw [if_neg hk]
          refine ⟨fun _ => ⟨fun _ e h1 => absurd h1 (hread' e), fun _ v hv => by simp [hne] at hv,
            fun _ h1 => absurd h1 hk⟩, fun _ s' e h1 => ?_⟩
          cases (Prod.mk.inj h1).2
      · obtain ⟨hremap, hadd'⟩ := remapPages_added hflags (hsto hne) (fun v hv => ((hmem v).1 hv).1)
          (fun v hv => hqs ▸ hv)
        generalize remapPages s.pml4t pflags _ (pages base stop) = x at hremap hadd' ⊢
        simp only [hremap, Bool.true_eq_false, false_or]
        by_cases hk : env.mem = false
        · rw [if_pos hk, forall_error_iff, ← hqs]
          have hrel :=
            @unchanged_released_iff s { s with vm := releasePages s.pml4t x.1 (qs.map Prod.fst) } x.1 qs rfl
            rfl rfl rfl hadd' (fun w hw => hal w hw (hqs ▸ hw)) rfl
          rw [hrel, hqs]
          constructor
          · exact fun h => ⟨fun _ e h1 => absurd h1 (hread' e), fun _ v hv _ => h v hv, fun h1 => absurd h1 hne⟩
          · exact fun h v hv => h.free (Or.inr hk) v hv (hfirst v hv)
        · rw [if_neg hk]
          refine ⟨fun _ => ⟨fun _ e h1 => absurd h1 (hread' e), fun h1 => ?_, fun h1 => absurd h1 hne⟩,
            fun _ s' e h1 => ?_⟩
          · exact absurd h1 (not_or.2 ⟨not_not.2 (hsuf.2 rfl), hk⟩)
          · cases (Prod.mk.inj h1).2
  · dsimp only at hadd ⊢
    rw [forall_error_iff, pages_before hd hsplit]
    have hin : ∀ w ∈ qs.map Prod.fst, w ∈ pages base stop := fun w hw => hsplit ▸ List.mem_append_left _ hw
    have hrel :=
      @unchanged_released_iff s { s with vm := releasePages s.pml4t vm (qs.map Prod.fst) } vm qs rfl rfl rfl rfl
      hadd (fun w hw => hal w hw (hin w hw)) rfl
    rw [hrel]
    constructor
    · intro h
      refine ⟨fun h1 => absurd (hsuf.1 h1) (by simp), fun _ w hw h1 => ?_, fun h1 => ?_⟩
      · exact h w ((hleft hsplit (by rw [hrun]) hw).1 h1)
      · rw [h1] at hsplit
        simp at hsplit
    · intro h w hw
      exact h.free (Or.inl fun h1 => absurd (hsuf.1 h1) (by simp)) w (hin w hw)
        ((hleft hsplit (by rw [hrun]) (hin w hw)).2 hw)

end

/-! ### The call -/

private theorem placeRegion_base {t : List Region} (h : MmapsWf t) {base : Nat} (hd : pageSize ∣ base)
    (hlt : base < 2 ^ 64)
    (len : Nat) : pageSize ∣ (placeRegion t base len).1 ∧ (placeRegion t base len).1 < 2 ^ 64 := by
  unfold placeRegion
  dsimp only
  split
  · exact ⟨hd, hlt⟩
  · generalize (findRegionBeforeEqual t base).toNat = n
    by_cases hne : t.drop n = []
    · rw [hne]
      exact ⟨Nat.dvd_zero _, Nat.two_pow_pos 64⟩
    · obtain ⟨a, r, b, hsplit, hgap, -⟩ := findGap_spec len hne n
      have hr : r ∈ t := List.mem_of_mem_drop (hsplit ▸ List.mem_append_right a List.mem_cons_self)
      rw [hgap]
      exact ⟨dvd_add64 (h.region r hr).base (h.region r hr).len, Nat.mod_lt _ (by decide)⟩

def MmapAtomic (env : MmapEnv) (s : MmState) (addr len : Word) (prot flags : Nat) (fd : Int) (offset : Nat) : Prop :=
  ∀ s' e, sysMmap env s addr len prot flags fd offset = some (s', .error e) → Unchanged s s'

/-- If the arguments pass the checks, the call leaves no trace where it fails to map the region. -/
def MmapFine (env : MmapEnv) (s : MmState) (addr len : Word) (prot flags : Nat) (fd : Int) (offset : Nat) : Prop :=
  ∀ file, checkMmap env s len prot flags fd offset = some (.ok file) → (addr : Nat) &&& (pageSize - 1) = 0 →
    add64 (mmapBase s addr (alignUp len pageSize)) (alignUp len pageSize) < userMemTopVma →
    UndoFine env s file (mmapBase s addr (alignUp len pageSize))
      (add64 (mmapBase s addr (alignUp len pageSize)) (alignUp len pageSize))

/-- A call that is not for a fixed address leaves no trace when it fails, if and only if it can read the file, and
does not undo pages that were mapped before. -/
theorem mmap_atomic_iff {env : MmapEnv} {s : MmState} {addr len : Word} {prot flags : Nat} {fd : Int} {offset : Nat}
    (h : MmapsWf s.mmaps) (hspace : Space s.vm s.pml4t) (hflags : flags &&& mapFixed = 0)
    (hread : ∀ data, env.vfsRead = .ok data → data.length ≤ len) :
    MmapAtomic env s addr len prot flags fd offset ↔ MmapFine env s addr len prot flags fd offset := by
  unfold MmapAtomic MmapFine sysMmap
  rcases hcheck : checkMmap env s len prot flags fd offset with _ | e | file
  · exact iff_of_true (fun s' e h1 => by cases h1) fun file h1 => by cases h1
  · refine iff_of_true (fun s' e' h1 => ?_) fun file h1 => by cases (Option.some.inj h1)
    rw [← (Prod.mk.inj (Option.some.inj h1)).1]
    exact Unchanged.refl s
  dsimp only
  by_cases halign : (addr : Nat) &&& (pageSize - 1) = 0
  swap
  · rw [if_pos halign]
    refine iff_of_true (fun s' e' h1 => ?_) fun file h1 h2 => absurd h2 halign
    rw [← (Prod.mk.inj (Option.some.inj h1)).1]
    exact Unchanged.refl s
  rw [if_neg (not_not.2 halign), if_neg (not_not.2 hflags)]
  have hlen : (len : Nat) ≠ 0 := checkMmap_len hcheck
  have hdl : pageSize ∣ alignUp len pageSize := dvd_alignUp_page hlen len.isLt
  have hle : alignUp len pageSize = 0 ∨ (len : Nat) ≤ alignUp len pageSize :=
    alignUp_eq_zero_or_le (k := 12) (by omega) len.isLt (by decide)
  have hsize : alignUp len pageSize < 2 ^ 64 := Nat.mod_lt _ (by decide)
  unfold mmapBase
  generalize alignUp len pageSize = size at *
  rw [and_page] at halign
  obtain ⟨hdb, hbl⟩ : pageSize ∣ (if (addr : Nat) ≠ 0 then (addr : Nat) else userMmapBaseVma) ∧
      (if (addr : Nat) ≠ 0 then (addr : Nat) else userMmapBaseVma) < 2 ^ 64 := by
    split
    · exact ⟨Nat.dvd_of_mod_eq_zero halign, addr.isLt⟩
    · exact ⟨by decide, by decide⟩
  obtain ⟨hd, hb⟩ := placeRegion_base h hdb hbl size
  generalize placeRegion s.mmaps _ size = p at *
  by_cases htop : add64 p.1 size < userMemTopVma
  · have hiff :=
      @mapRegion_iff env s p.1 p.2 size prot file fd offset flags hspace hb hd hdl htop fun hne data h1 => by
      obtain ⟨v, hv⟩ := List.exists_mem_of_ne_nil _ hne
      obtain ⟨-, h2, h3⟩ := (mem_pages_aligned hd).1 hv
      have hdata : data.length ≤ len := by
        unfold readFile at h1
        split at h1
        · exact hread data h1
        · obtain rfl := Except.ok.inj h1
          exact Nat.zero_le _
      unfold add64 at h3 ⊢
      omega
    constructor
    · intro h1 f hf _ _
      obtain rfl := Except.ok.inj (Option.some.inj hf)
      exact hiff.1 fun s' e h2 => h1 s' e (congrArg some h2)
    · exact fun h1 s' e h2 => hiff.2 (h1 file rfl (by rw [and_page]; exact halign) htop) s' e (Option.some.inj h2)
  · -- the region would end above the memory of the user
    refine iff_of_true (fun s' e h1 => ?_) fun f _ _ h1 => absurd h1 htop
    unfold mapRegion at h1
    rw [if_pos (Nat.not_lt.1 htop)] at h1
    rw [← (Prod.mk.inj (Option.some.inj h1)).1]
    exact Unchanged.refl s

def readerMm : MmState := ⟨emptyVm, ⟨fun _ => { vnode := some 1, count := 1 }, 1⟩, ⟨[some 0], 1, 256⟩, [], 0x1000⟩

/-- A new page of the process leaves no trace when the table of regions cannot grow. -/
theorem mmap_atomic_small : MmapAtomic { anonEnv with mem := false } readerMm 0 1 protRead
    (mapPrivate ||| mapAnonymous) (-1) 0 := by
  have hcheck :
    checkMmap { anonEnv with mem := false } readerMm ((1 : Word) : Nat) protRead (mapPrivate ||| mapAnonymous)
      (-1) 0 = some (.ok none) := by decide
  refine (mmap_atomic_iff MmapsWf.nil emptyVm_space (by decide) fun data h => ?_).2 fun file h1 _ _ => ?_
  · obtain rfl := Except.ok.inj h
    exact Nat.zero_le _
  · rw [hcheck] at h1
    obtain rfl := Except.ok.inj (Option.some.inj h1)
    refine ⟨fun _ e h2 => ?_, fun _ v _ _ w _ => ?_, fun h2 => ?_⟩
    · cases h2
    · have h0 : leaf readerMm.vm.mem readerMm.pml4t w = none := emptyVm_leaf w
      rw [vmPhysAddr_leaf, h0]
      rfl
    · exact absurd h2 (by decide)

/-- A page whose file cannot be read stays mapped. -/
theorem not_mmap_atomic : MmapsWf readerMm.mmaps ∧ Space readerMm.vm readerMm.pml4t ∧
    ¬MmapAtomic { anonEnv with size := fun _ => 1, vfsRead := .error Errno.EIO } readerMm 0 1 protRead mapPrivate 0
    0 := by
  refine ⟨MmapsWf.nil, emptyVm_space, fun h => ?_⟩
  obtain ⟨env, henv⟩ : ∃ env : MmapEnv, { anonEnv with size := fun _ => 1, vfsRead := .error Errno.EIO } = env :=
    ⟨_, rfl⟩
  have hcheck : checkMmap env readerMm 1 protRead mapPrivate 0 0 = some (.ok (some 0)) := by
    rw [← henv]
    decide
  have hcall : sysMmap env readerMm ((0 : Word) : Nat) ((1 : Word) : Nat) protRead mapPrivate 0 0 =
      some (mapRegion env readerMm userMmapBaseVma 0 pageSize protRead (some 0) 0 0 mapPrivate) := by
    unfold sysMmap
    rw [show ((1 : Word) : Nat) = 1 from rfl, hcheck]
    rfl
  have hpages : pages userMmapBaseVma (add64 userMmapBaseVma pageSize) = [userMmapBaseVma] := by decide
  rw [henv] at h
  have hfine := (@mapRegion_iff env readerMm userMmapBaseVma 0 pageSize protRead (some 0) 0 0 mapPrivate emptyVm_space
    (by decide) (by decide) (by decide) (by decide) fun _ data h1 => by
      rw [← henv] at h1
      cases h1).1 fun s' e h1 => h s' e (by rw [hcall, h1])
  have hempty := hfine.read (by
    rw [hpages]
    unfold Suffices
    decide +kernel) Errno.EIO (by rw [← henv]; rfl)
  rw [hpages] at hempty
  cases hempty

end Pml.Kernel
