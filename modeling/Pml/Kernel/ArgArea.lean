import Pml.Kernel.CopyString

/-!
# The argument area (`kernel/exec.c`)

The strings that `copy_string` copies are stored in an area of whole pages of the new address space (`ArgArea`).  A
call finds room in the area and stores the string there.  But `mempcpy` does not return the end of what it has copied
(`mempcpyEnd`), so that `arg_ptr` is wrong behind every string that is not empty, and an empty first string is refused
(`copy_law_iff`).
-/

namespace Pml.Kernel

open Arch ByteMemory

/-! ### The argument area -/

/-- The current address space has the pages `ps` of the argument area. -/
structure AreaHeld (s : MmState) (exec : ElfExec) (ps : List (Nat × Nat)) (ℓ : Nat → Option (Nat × Nat))
    (c : Nat → Nat) :
    Prop where
  root : exec.pml4t = s.pml4t
  added : Added s.vm s.pml4t ps ℓ c

/-- The area has this size and is filled up to `used`. -/
structure AreaSize (s : MmState) (exec : ElfExec) (ps : List (Nat × Nat)) (used size : Nat) : Prop where
  area : Area s.mmaps exec.argData size ps
  start : exec.argData ≤ exec.argPtr
  fits : used ≤ exec.argData + size
  argLen : exec.argLen ≤ size
  size : size ≤ max exec.argLen (alignUp (used - exec.argData) pageSize)

/-- The state of the argument area between two strings. -/
structure ArgArea (s : MmState) (exec : ElfExec) (ps : List (Nat × Nat)) (ℓ : Nat → Option (Nat × Nat))
    (c : Nat → Nat) :
    Prop extends AreaHeld s exec ps ℓ c where
  fresh : exec.argData = 0 → MmapsWf s.mmaps ∧ ps = []
  area : exec.argData ≠ 0 → ∃ size, AreaSize s exec ps exec.argPtr size

/-- There is room for `len` bytes and a zero byte. -/
structure Room (s s' : MmState) (exec exec' : ElfExec) (ps ps' : List (Nat × Nat)) (ℓ : Nat → Option (Nat × Nat))
    (c : Nat → Nat) (len : Nat) : Prop where
  held : AreaHeld s' exec' ps' ℓ c
  area : ∃ size, AreaSize s' exec' ps' (exec'.argPtr + len + 1) size
  same : exec.argData ≠ 0 → exec' = exec
  kept : ∀ p ∈ ps, p ∈ ps' ∧ ∀ o < pageSize, s'.vm.mem (p.2 + o) = s.vm.mem (p.2 + o)

section

variable {env : MmapEnv} {s : MmState} {exec : ElfExec} {ps : List (Nat × Nat)} {ℓ : Nat → Option (Nat × Nat)}
  {c : Nat → Nat} {len : Nat}

theorem AreaSize.bound {used size : Nat} (h : AreaSize s exec ps used size) :
    pageSize ∣ exec.argData ∧ pageSize ∣ size ∧ exec.argData + size ≤ 2 ^ 47 := by
  obtain ⟨g, hg, hbase, hlen, -⟩ := h.area.region
  rw [← hbase, ← hlen]
  exact ⟨hg.base, hg.len, hg.top⟩

private theorem growArea_room {size : Nat} (h : AreaHeld s exec ps ℓ c) (ha : AreaSize s exec ps exec.argPtr size)
    (hlen : len < 2 ^ 48) : (∃ s' request, growArea s exec len = (s', some (request, .ENOMEM))) ∨
      ∃ s' ps', growArea s exec len = (s', none) ∧ Room s s' exec exec ps ps' ℓ c len := by
  obtain ⟨hd, hds, htop⟩ := ha.bound
  have hfits := ha.fits
  have hstart := ha.start
  have hptr : add64 exec.argPtr len = exec.argPtr + len := add64_of_lt (by omega)
  have hused : sub64 (exec.argPtr + len) exec.argData = exec.argPtr + len - exec.argData :=
    sub64_of_le (by omega) (by omega)
  have hrequest : sub64 (add64 (exec.argPtr + len) 1) exec.argData = exec.argPtr + len + 1 - exec.argData := by
    rw [add64_of_lt (by omega)]
    exact sub64_of_le (by omega) (by omega)
  unfold growArea
  rw [hptr, hused, hrequest]
  have hround := alignUp_page_spec (x := exec.argPtr + len + 1 - exec.argData) (by simp only [pageSize]; omega)
  have hround' := alignUp_page_spec (x := exec.argPtr - exec.argData) (by simp only [pageSize]; omega)
  by_cases hgrow : exec.argLen ≤ exec.argPtr + len - exec.argData
  swap
  · rw [if_neg hgrow]
    have hargLen := ha.argLen
    refine Or.inr ⟨s, ps, rfl, h, ⟨size, ha.area, hstart, by omega, hargLen, ?_⟩, fun _ => rfl,
      fun p hp => ⟨hp, fun _ _ => rfl⟩⟩
    have hmono :
      alignUp (exec.argPtr - exec.argData) pageSize ≤ alignUp (exec.argPtr + len + 1 - exec.argData) pageSize := by
      obtain ⟨⟨i, hi⟩, h1, h2⟩ := hround
      obtain ⟨⟨j, hj⟩, h3, h4⟩ := hround'
      rw [hi] at h1 h2 ⊢
      rw [hj] at h3 h4 ⊢
      simp only [pageSize] at *
      omega
    exact ha.size.trans (max_le_max (Nat.le_refl _) hmono)
  rw [if_pos hgrow, h.root]
  dsimp only
  -- the new length is not shorter than the old one
  have hlonger : size ≤ alignUp (exec.argPtr + len + 1 - exec.argData) pageSize := by
    have hsize := ha.size
    obtain ⟨⟨i, hi⟩, h1, h2⟩ := hround
    obtain ⟨⟨j, hj⟩, h3, h4⟩ := hround'
    obtain ⟨k, rfl⟩ := hds
    rw [hj] at hsize h3 h4
    rw [hi] at h1 h2 ⊢
    simp only [pageSize] at *
    omega
  rcases expandMmap_area ha.area h.added hlonger (by omega) with ⟨s', hcall⟩ |
    ⟨s', ps', hcall, hroot, harea, hadd, hkept, hsub⟩
  · rw [hcall]
    exact Or.inl ⟨s', _, rfl⟩
  · rw [hcall]
    refine Or.inr ⟨s', ps', rfl, ⟨h.root.trans hroot.symm, hroot ▸ hadd⟩, ⟨_, harea, hstart, by omega, by
      have hargLen := ha.argLen
      omega, le_max_right _ _⟩, fun _ => rfl, fun p hp => ⟨hsub p hp, fun o ho => ?_⟩⟩
    obtain ⟨-, hpd, -, hpt⟩ := h.added.holds.frame p.2 (List.mem_map_of_mem hp)
    have hone := (h.added.holds.one p.2 (List.mem_map_of_mem hp)).1
    exact (hkept p.2 hpd (by rw [hone]; decide) hpt).2.2 o ho

private theorem makeArea_refused {s' : MmState} {e : Errno} (h0 : exec.argData = 0)
    (h : sysMmap env s 0 (alignUp len pageSize) (protRead ||| protWrite) (mapPrivate ||| mapAnonymous) (-1) 0 =
      some (s', .error e)) : makeArea env s exec len = some (s', exec, some (alignUp len pageSize, e)) := by
  unfold makeArea
  rw [if_pos h0]
  dsimp only
  rw [h]

private theorem makeArea_made {s' : MmState} {a : Nat} (h0 : exec.argData = 0)
    (h : sysMmap env s 0 (alignUp len pageSize) (protRead ||| protWrite) (mapPrivate ||| mapAnonymous) (-1) 0 =
      some (s', .ok a)) : makeArea env s exec len =
        some (s', { exec with argData := a, argPtr := a, argLen := alignUp len pageSize }, none) := by
  unfold makeArea
  rw [if_pos h0]
  dsimp only
  rw [h]

private theorem reserve_refused {s' : MmState} {exec' : ElfExec} {e : Nat × Errno}
    (h : makeArea env s exec len = some (s', exec', some e)) : reserve env s exec len = some (s', exec', some e) := by
  unfold reserve
  rw [h]

private theorem reserve_grown {s1 s' : MmState} {exec' : ElfExec} {e : Option (Nat × Errno)}
    (h : makeArea env s exec len = some (s1, exec', none)) (hg : growArea s1 exec' len = (s', e)) :
    reserve env s exec len = some (s', exec', e) := by
  unfold reserve
  rw [h]
  dsimp only
  rw [hg]

/-- There is room for a string, or the call fails for lack of memory or of addresses. -/
private theorem reserve_room (h : ArgArea s exec ps ℓ c) (hlen : len < 2 ^ 48) (hpos : exec.argData = 0 → 0 < len) :
    (∃ s' exec' request e, reserve env s exec len = some (s', exec', some (request, e)) ∧
      (e = .ENOMEM ∨ 0 < request ∧ userMemTopVma ≤ add64 (mmapBase s 0 request) request)) ∨
      ∃ s' exec' ps', reserve env s exec len = some (s', exec', none) ∧ Room s s' exec exec' ps ps' ℓ c len := by
  by_cases h0 : exec.argData = 0
  swap
  · obtain ⟨size, ha⟩ := h.area h0
    have hmade : makeArea env s exec len = some (s, exec, none) := if_neg h0
    rcases growArea_room h.toAreaHeld ha hlen with ⟨s', request, hcall⟩ | ⟨s', ps', hcall, hroom⟩
    · exact Or.inl ⟨s', exec, request, .ENOMEM, reserve_grown hmade hcall, Or.inl rfl⟩
    · exact Or.inr ⟨s', exec, ps', reserve_grown hmade hcall, hroom⟩
  obtain ⟨hwf, rfl⟩ := h.fresh h0
  obtain ⟨hdl, h1, h2⟩ := alignUp_page_spec (x := len) (by simp only [pageSize]; omega)
  have hbytes : 0 < alignUp len pageSize := Nat.lt_of_lt_of_le (hpos h0) h1
  have hmax : alignUp len pageSize ≤ 2 ^ 63 := by
    simp only [pageSize] at h2 ⊢
    omega
  rcases @sysMmap_area env s (alignUp len pageSize) ℓ c hwf h.added hdl hbytes hmax with
    ⟨s', e, hcall, herr⟩ | ⟨s1, a, ps1, hcall, hroot, harea, hadd⟩
  · exact Or.inl ⟨s', exec, _, e, reserve_refused (makeArea_refused h0 hcall), herr.imp_right fun h => ⟨hbytes, h⟩⟩
  have hmade := makeArea_made h0 hcall
  generalize alignUp len pageSize = bytes at hmade harea
  have hheld1 : AreaHeld s1 { exec with argData := a, argPtr := a, argLen := bytes } ps1 ℓ c :=
    ⟨h.root.trans hroot.symm, hroot ▸ hadd⟩
  have hsize : AreaSize s1 { exec with argData := a, argPtr := a, argLen := bytes } ps1 a bytes :=
    ⟨harea, Nat.le_refl _, Nat.le_add_right _ _, Nat.le_refl _, le_max_left _ _⟩
  rcases growArea_room hheld1 hsize hlen with ⟨s', request, hcall'⟩ | ⟨s', ps', hcall', hroom⟩
  · exact Or.inl ⟨s', _, request, .ENOMEM, reserve_grown hmade hcall', Or.inl rfl⟩
  · exact Or.inr ⟨s', _, ps', reserve_grown hmade hcall', hroom.held, hroom.area, fun h1 => absurd h0 h1,
      fun p hp => by cases hp⟩

end

/-! ### What the new address space shows -/

private theorem userByte_of_maps {m : Mem} {r w : Nat} {ps : List (Nat × Nat)} {ℓ : Nat → Option (Nat × Nat)}
    (h : Maps m r ps ℓ)
    {p : Nat × Nat} (hp : p ∈ ps) (hw : w / pageSize = p.1 / pageSize) :
    userByte m r w = some (m (p.2 + w % pageSize)) := by
  obtain ⟨e, he, ha⟩ := h.here p hp
  have hleaf := (leaf_congr hw).trans he
  rw [userByte, hleaf, Option.map_some, pageAddr_last (leaf_some hleaf).2.2, ha]

section

variable {s : MmState} {exec : ElfExec} {ps : List (Nat × Nat)} {ℓ : Nat → Option (Nat × Nat)} {c : Nat → Nat}
  {str used size : Nat} {text : List UInt8}

theorem AreaSize.page (h : AreaSize s exec ps used size) {w : Nat} (h1 : exec.argData ≤ w)
    (h2 : w < exec.argData + size) :
    ∃ p ∈ ps, w / pageSize = p.1 / pageSize := by
  obtain ⟨o, rfl⟩ := Nat.exists_eq_add_of_le h1
  have hin := mem_pages_of_lt h.bound.1 (Nat.le_refl (exec.argData + size)) (show o < size by omega)
  obtain ⟨p, hp, heq⟩ := List.mem_map.1 ((h.area.pages _).2 hin)
  exact ⟨p, hp, by rw [heq, page_mul_div]⟩

theorem AreaHeld.stored (h : AreaHeld s exec ps ℓ c) (ha : AreaSize s exec ps used size) {data : List UInt8}
    (hdata : exec.argPtr + data.length ≤ used) :
    Stored exec.pml4t ps ℓ c s.vm.frames s.vm.mem exec.argPtr data := by
  have hfits := ha.fits
  have hstart := ha.start
  have htop := ha.bound.2.2
  have hadd := h.added
  rw [← h.root] at hadd
  exact storeUser_added hadd (show exec.argPtr + data.length < 2 ^ 64 by omega) fun k hk =>
    ha.page (by omega) (by omega)

end

/-! ### What the copy of a string is for -/

/-- The string and its zero byte are at `addr`, `arg_ptr` is behind them, the strings before it are as they were, and
every address that has been stored to is in the mapped area. -/
structure CopiedExactly (s s' : MmState) (exec exec' : ElfExec) (text : List UInt8) (addr : Nat) (stores : List Nat) :
    Prop where
  nonnull : addr ≠ 0
  shows : ∀ i ≤ text.length, userByte s'.vm.mem exec'.pml4t (addr + i) = some (text.getD i 0)
  argPtr : exec'.argPtr = addr + text.length + 1
  next : exec.argData ≠ 0 → addr = exec.argPtr ∧ exec'.argData = exec.argData
  earlier : exec.argData ≠ 0 → ∀ w, exec.argData ≤ w → w < exec.argPtr →
    userByte s'.vm.mem exec'.pml4t w = userByte s.vm.mem exec.pml4t w
  inside : ∃ g, regionAt s'.mmaps (findRegionBeforeEqual s'.mmaps exec'.argData) = some g ∧ g.base = exec'.argData ∧
    ∀ a ∈ stores, g.base ≤ a ∧ a < g.base + g.len ∧ leaf s'.vm.mem exec'.pml4t a ≠ none

/-- What a call of `copy_string` is for: it fails only for lack of memory or of addresses. -/
def CopyLaw (env : MmapEnv) (s : MmState) (exec : ElfExec) (str : Nat) (text : List UInt8) : Prop :=
  match copyString env s exec str with
  | none => False
  | some (_, _, .fault) => False
  | some (_, _, .refused request e) =>
    e = .ENOMEM ∨ 0 < request ∧ userMemTopVma ≤ add64 (mmapBase s 0 request) request
  | some (s', exec', .copied addr stores) => CopiedExactly s s' exec exec' text addr stores

def NoRoom (env : MmapEnv) (s : MmState) (exec : ElfExec) (len : Nat) : Prop :=
  ∃ s' exec' e, reserve env s exec len = some (s', exec', some e)

section

variable {env : MmapEnv} {s : MmState} {exec : ElfExec} {ps : List (Nat × Nat)} {ℓ : Nat → Option (Nat × Nat)}
  {c : Nat → Nat} {str : Nat} {text : List UInt8}

private theorem copiedLen_lt (h : str + text.length < 2 ^ 47) : copiedLen str text.length < 2 ^ 48 := by
  unfold copiedLen
  split
  · simp only [pageSize]
    omega
  · omega

private theorem copyString_reserved {s1 : MmState} {exec1 : ElfExec} (htext : OldText s.vm exec.oldPml4t str text)
    (hreserve : reserve env s exec (copiedLen str text.length) = some (s1, exec1, none)) {x : Copying}
    (hx : copyBytes exec1 str (min text.length (pageSize - str % pageSize)) (copiedLen str text.length) s1.vm.mem =
      x) :
    copyString env s exec str = some
    ({ s1 with vm := { s1.vm with mem := x.mem } }, { exec1 with argPtr := x.argPtr },
      if x.ok then .copied exec1.argPtr x.stores else .fault) := by
  unfold copyString
  rw [htext.measure]
  dsimp only
  rw [hreserve]
  dsimp only
  rw [hx]

/-- A string that is not empty is not copied as it should be where there is room for it. -/
private theorem not_copyLaw_nonempty {s1 : MmState} {exec1 : ElfExec} {ps1 : List (Nat × Nat)}
    (htext : OldText s.vm exec.oldPml4t str text) (hne : text ≠ [])
    (hreserve : reserve env s exec (copiedLen str text.length) = some (s1, exec1, none))
    (hroom : Room s s1 exec exec1 ps ps1 ℓ c (copiedLen str text.length)) : ¬CopyLaw env s exec str text := by
  intro hlaw
  obtain ⟨size, ha⟩ := hroom.area
  have hfits := ha.fits
  have htop := ha.bound.2.2
  have hpos := List.length_pos_of_ne_nil hne
  have hmod : str % pageSize < pageSize := Nat.mod_lt _ (by decide)
  have hle : text.length ≤ copiedLen str text.length := by
    unfold copiedLen
    split <;> omega
  unfold CopyLaw at hlaw
  rw [copyString_reserved htext hreserve rfl] at hlaw
  by_cases hok : (copyBytes exec1 str (min text.length (pageSize - str % pageSize)) (copiedLen str text.length)
      s1.vm.mem).ok = true
  · rw [if_pos hok] at hlaw
    have hptr := hlaw.argPtr
    have hpast := copyBytes_ok (by omega) (by omega) (by omega) hok
    dsimp only at hptr
    omega
  · rw [if_neg hok] at hlaw
    exact hlaw

/-- An empty string is copied exactly where there is room for its zero byte. -/
private theorem Room.exactly {s1 : MmState} {exec1 : ElfExec} {ps1 : List (Nat × Nat)} (h : ArgArea s exec ps ℓ c)
    (hroom : Room s s1 exec exec1 ps ps1 ℓ c 0) : (storeUser exec1.pml4t s1.vm.mem exec1.argPtr [0]).2.2 = true ∧
      CopiedExactly s { s1 with vm := ⟨(storeUser exec1.pml4t s1.vm.mem exec1.argPtr [0]).1, s1.vm.frames⟩ } exec
        { exec1 with argPtr := exec1.argPtr + 1 } [] exec1.argPtr
        (storeUser exec1.pml4t s1.vm.mem exec1.argPtr [0]).2.1 := by
  obtain ⟨size, ha⟩ := hroom.area
  have hst := @AreaHeld.stored _ _ _ _ _ _ _ hroom.held ha [0] (Nat.le_refl _)
  have hpos := ha.area.pos
  have hstart := ha.start
  have hfits := ha.fits
  have htop := ha.bound.2.2
  have hbyte : ∀ w p, p ∈ ps1 → w / pageSize = p.1 / pageSize →
      userByte (storeUser exec1.pml4t s1.vm.mem exec1.argPtr [0]).1 exec1.pml4t w =
        some (if exec1.argPtr ≤ w ∧ w < exec1.argPtr + [(0 : UInt8)].length then
          [(0 : UInt8)].getD (w - exec1.argPtr) 0
          else s1.vm.mem (p.2 + w % pageSize)) := fun w p hp hw => by
    exact (userByte_of_maps hst.added.maps hp hw).trans (congrArg some (hst.shows p hp w hw))
  refine ⟨hst.mapped, by omega, fun i hi => ?_, rfl, fun h0 => ?_, fun h0 w h1 h2 => ?_, ?_⟩
  · obtain rfl := Nat.le_zero.1 hi
    obtain ⟨p, hp, hw⟩ := ha.page (w := exec1.argPtr + 0) (by omega) (by omega)
    rw [hbyte _ p hp hw, if_pos (by simp), Nat.add_sub_cancel_left]
    rfl
  · rw [hroom.same h0]
    exact ⟨rfl, rfl⟩
  · obtain rfl := hroom.same h0
    obtain ⟨size', ha'⟩ := h.area h0
    have hfits' := ha'.fits
    obtain ⟨p, hp, hw⟩ := ha'.page h1 (by omega)
    obtain ⟨hp1, hsame⟩ := hroom.kept p hp
    have hold := h.added.maps
    rw [← h.root] at hold
    rw [hbyte _ p hp1 hw, if_neg (by omega), hsame _ (Nat.mod_lt _ (by decide)), userByte_of_maps hold hp hw]
  · obtain ⟨g, -, hbase, hglen, hfind⟩ := ha.area.region
    refine ⟨g, hfind, hbase, fun a hstore => ?_⟩
    obtain ⟨k, hk, rfl⟩ := @storeUser_stores _ _ _ [(0 : UInt8)] (by simp; omega) a hstore
    rw [List.length_singleton] at hk
    rw [Nat.mod_eq_of_lt (by omega), hbase, hglen]
    refine ⟨by omega, by omega, fun hnone => ?_⟩
    obtain ⟨p, hp, hw⟩ := ha.page (w := exec1.argPtr + k) (by omega) (by omega)
    obtain ⟨e, he, -⟩ := hst.added.maps.here p hp
    exact absurd (hnone.symm.trans ((leaf_congr hw).trans he)) (by simp)

end

private theorem not_copyLaw_empty {env : MmapEnv} {s : MmState} {exec : ElfExec} {str : Nat} (h0 : exec.argData = 0)
    (htext : OldText s.vm exec.oldPml4t str []) : ¬CopyLaw env s exec str [] := by
  intro hlaw
  have hcopied : copiedLen str ([] : List UInt8).length = 0 := if_neg fun htwice => absurd htwice.2 (by decide)
  have hmap : sysMmap env s 0 (alignUp 0 pageSize) (protRead ||| protWrite) (mapPrivate ||| mapAnonymous) (-1) 0 =
      some (s, .error .EINVAL) := by
    rw [alignUp_page_zero]
    rfl
  have hrefused := reserve_refused (makeArea_refused h0 hmap)
  have hmeasure := htext.measure
  rw [hcopied] at hmeasure
  unfold CopyLaw copyString at hlaw
  rw [hmeasure] at hlaw
  dsimp only at hlaw
  rw [hrefused] at hlaw
  rcases hlaw with hlaw | ⟨hlaw, -⟩
  · cases hlaw
  · rw [alignUp_page_zero] at hlaw
    exact Nat.lt_irrefl 0 hlaw

/-- A string is copied exactly, or the call fails for lack of memory, if and only if the string is empty and there is
an argument area, or it is not empty and there is no memory for it. -/
theorem copy_law_iff {env : MmapEnv} {s : MmState} {exec : ElfExec} {ps : List (Nat × Nat)}
    {ℓ : Nat → Option (Nat × Nat)} {c : Nat → Nat} {str : Nat} {text : List UInt8} (h : ArgArea s exec ps ℓ c)
    (htext : OldText s.vm exec.oldPml4t str text) :
    CopyLaw env s exec str text ↔ (text = [] → exec.argData ≠ 0) ∧
      (text ≠ [] → NoRoom env s exec (copiedLen str text.length)) := by
  have hlen := copiedLen_lt htext.top
  by_cases hempty : exec.argData = 0 ∧ text = []
  · obtain ⟨h0, rfl⟩ := hempty
    exact iff_of_false (not_copyLaw_empty h0 htext) fun hcond => hcond.1 rfl h0
  have hne : exec.argData = 0 → text ≠ [] := fun h0 h1 => hempty ⟨h0, h1⟩
  have hpos : exec.argData = 0 → 0 < copiedLen str text.length := fun h0 => by
    have hpos := List.length_pos_of_ne_nil (hne h0)
    unfold copiedLen
    split <;> omega
  rcases @reserve_room env s exec ps ℓ c (copiedLen str text.length) h hlen hpos with
    ⟨s1, exec1, request, e, hreserve, herr⟩ | ⟨s1, exec1, ps1, hreserve, hroom⟩
  · refine iff_of_true ?_ ⟨fun h1 h0 => hne h0 h1, fun _ => ⟨s1, exec1, _, hreserve⟩⟩
    unfold CopyLaw copyString
    rw [htext.measure]
    dsimp only
    rw [hreserve]
    exact herr
  · by_cases hnil : text = []
    · subst hnil
      refine iff_of_true ?_ ⟨fun _ h0 => hne h0 rfl, fun h1 => absurd rfl h1⟩
      have hzero : copiedLen str ([] : List UInt8).length = 0 := if_neg fun htwice => absurd htwice.2 (by decide)
      rw [hzero] at hroom
      obtain ⟨hok, hexactly⟩ := hroom.exactly h
      obtain ⟨size, ha⟩ := hroom.area
      have hfits := ha.fits
      have htop := ha.bound.2.2
      have hcopy : copyBytes exec1 str (min ([] : List UInt8).length (pageSize - str % pageSize))
          (copiedLen str ([] : List UInt8).length) s1.vm.mem =
            ⟨(storeUser exec1.pml4t s1.vm.mem exec1.argPtr [0]).1, exec1.argPtr + 1,
              (storeUser exec1.pml4t s1.vm.mem exec1.argPtr [0]).2.1,
              (storeUser exec1.pml4t s1.vm.mem exec1.argPtr [0]).2.2⟩ := by
        rw [hzero, List.length_nil, Nat.zero_min]
        exact copyBytes_empty (by omega)
      unfold CopyLaw
      rw [copyString_reserved htext hreserve hcopy]
      dsimp only
      rw [if_pos hok]
      exact hexactly
    · refine iff_of_false (not_copyLaw_nonempty htext hnil hreserve hroom) fun hcond => ?_
      obtain ⟨s2, exec2, e, hno⟩ := hcond.2 hnil
      rw [hno] at hreserve
      cases hreserve

/-! ### A string of one byte -/

private theorem zeros_walk {m : Mem} {r g : Nat} (hm : ∀ o < pageSize, m (r + o) = 0) {p : List (Fin 512)}
    (h : LevelWalk.walk (entryAt m) tableOf 0 r p = some g) : p = [] ∧ g = r := by
  cases p with
  | nil => exact ⟨rfl, (Option.some.inj h).symm⟩
  | cons i p =>
    have hi := i.isLt
    have h0 : entryAt m r i = 0 := readLE_eq_zero.2 fun x hx => by
      rw [Nat.add_assoc]
      exact hm _ (by simp only [pageSize]; omega)
    rw [LevelWalk.walk, h0, tableOf_absent (by decide)] at h
    cases h

private theorem zeros_space {vm : Vm} {r : Nat} (hm : ∀ o < pageSize, vm.mem (r + o) = 0) (hd : pageSize ∣ r)
    (hwf : vm.frames.Wf) (hcount : vm.frames.count (r / pageSize) ≠ 0) (h0 : vm.frames.count 0 ≠ 0) : Space vm r := by
  refine ⟨⟨hd, fun p q f _ _ h1 h2 => (zeros_walk hm h1).1.trans (zeros_walk hm h2).1.symm⟩, hwf, fun g hg => ?_, h0⟩
  obtain ⟨p, -, hp⟩ := hg
  rwa [(zeros_walk hm hp).2]

def oldVm : Vm := (mapPages 0x2000 (pageFlagUser ||| pageFlagRw) false emptyVm [0x10000]).1

def argVm : Vm := { oldVm with mem := (storeUser 0x2000 oldVm.mem 0x10000 [65]).1 }

def argMm : MmState := { readerMm with vm := argVm }

def bareExec : ElfExec := ⟨0x1000, 0x2000, 0, 0, 0⟩

/-- The letter is in a frame that has been allocated, and a zero byte is behind it. -/
private theorem argVm_letter : 0x1000 + pageSize ≤ vmPhysAddr oldVm.mem 0x2000 0x10000 ∧
    leaf oldVm.mem 0x2000 0x10000 ≠ none ∧ argVm.frames.count 1 ≠ 0 ∧ argVm.frames.count 0 ≠ 0 ∧
    ∀ i ≤ 1, leaf argVm.mem 0x2000 (0x10000 + i) ≠ none ∧
      argVm.mem (vmPhysAddr argVm.mem 0x2000 (0x10000 + i)) = [65].getD i 0 := by
  decide +kernel

private theorem argVm_space : Space argVm 0x1000 := by
  have hzero : ∀ r, ∀ o < pageSize, emptyVm.mem (r + o) = 0 := fun _ _ _ => rfl
  have hold := zeros_space (hzero 0x2000) (by decide) emptyVm_space.wf (by decide) (by decide)
  have hext := (@mapPages_writes 0x2000 _ expandFlags _ [0x10000] hold (by simp)).1
  have htable : ¬IsTable emptyVm.mem 0x2000 0x1000 :=
    fun ⟨p, _, hp⟩ => absurd (zeros_walk (hzero 0x2000) hp).2 (by decide)
  obtain ⟨-, -, hsame⟩ := FramesKept.of_extends hext 0x1000 (by decide) (by decide) htable
  obtain ⟨hphys, hmapped, hroot, hzero, -⟩ := argVm_letter
  refine zeros_space (fun o ho => ?_) (by decide) hext.space.wf hroot hzero
  have hstore : argVm.mem = setByte oldVm.mem (vmPhysAddr oldVm.mem 0x2000 0x10000) 65 :=
    congrArg Prod.fst (if_neg hmapped)
  rw [hstore, setByte_of_ne (by omega)]
  exact hsame o ho

private theorem argMm_area : ArgArea argMm bareExec [] (leaf argMm.vm.mem argMm.pml4t) argMm.vm.frames.count :=
  ⟨⟨rfl, .start argVm_space⟩, fun _ => ⟨MmapsWf.nil, rfl⟩, fun h => absurd rfl h⟩

private theorem argMm_text : OldText argMm.vm 0x2000 0x10000 [65] := by
  obtain ⟨-, -, -, -, hbytes⟩ := argVm_letter
  exact ⟨fun i hi => ⟨(hbytes i hi).1, (hbytes i hi).2⟩, by decide, by decide⟩

theorem ArgArea.made {env : MmapEnv} {s s' : MmState} {exec exec' : ElfExec} {ps : List (Nat × Nat)}
    {ℓ : Nat → Option (Nat × Nat)} {c : Nat → Nat} {len : Nat} (h : ArgArea s exec ps ℓ c) (h0 : exec.argData = 0)
    (hpos : 0 < len) (hlen : len < 2 ^ 48) (hmake : makeArea env s exec len = some (s', exec', none)) :
    ∃ ps', ArgArea s' exec' ps' ℓ c ∧ exec'.argData ≠ 0 ∧ exec'.oldPml4t = exec.oldPml4t := by
  obtain ⟨hwf, rfl⟩ := h.fresh h0
  obtain ⟨hdl, h1, h2⟩ := alignUp_page_spec (x := len) (by simp only [pageSize]; omega)
  have hmax : alignUp len pageSize ≤ 2 ^ 63 := by
    simp only [pageSize] at h2 ⊢
    omega
  rcases @sysMmap_area env s (alignUp len pageSize) ℓ c hwf h.added hdl (by omega) hmax with
    ⟨s1, e, hcall, -⟩ | ⟨s1, a, ps1, hcall, hroot, harea, hadd⟩
  · cases (makeArea_refused h0 hcall).symm.trans hmake
  · cases (makeArea_made h0 hcall).symm.trans hmake
    have hpos' := harea.pos
    refine ⟨ps1, ⟨⟨h.root.trans hroot.symm, hroot ▸ hadd⟩, fun h1 => absurd h1 (Nat.ne_of_gt hpos'), fun _ => ?_⟩,
      Nat.ne_of_gt hpos', rfl⟩
    exact ⟨_, harea, Nat.le_refl _, Nat.le_add_right _ _, Nat.le_refl _, le_max_left _ _⟩

/-- An empty string is copied to an area that there is. -/
theorem copy_law_empty : ∃ s exec, exec.argData ≠ 0 ∧ CopyLaw anonEnv s exec 0x10001 [] := by
  have hmake :
    ((makeArea anonEnv argMm bareExec 1).any fun x => x.2.2 = none ∧ leaf x.1.vm.mem 0x2000 0x10001 ≠ none ∧
      x.1.vm.mem (vmPhysAddr x.1.vm.mem 0x2000 0x10001) = 0) = true := by decide +kernel
  obtain ⟨⟨s, exec, e⟩, hmake, hfacts⟩ := (Option.any_eq_true _ _).1 hmake
  obtain ⟨rfl, hmapped, hbyte⟩ := of_decide_eq_true hfacts
  obtain ⟨ps, harea, hdata, hroot⟩ := argMm_area.made rfl Nat.one_pos (by decide) hmake
  have htext : OldText s.vm exec.oldPml4t 0x10001 [] := by
    refine ⟨fun i hi => ?_, by simp, by decide⟩
    obtain rfl := Nat.le_zero.1 hi
    rw [hroot]
    exact ⟨hmapped, hbyte⟩
  exact ⟨s, exec, hdata, (copy_law_iff harea htext).2 ⟨fun _ => hdata, fun h => absurd rfl h⟩⟩

/-- The letter is not copied as it should be. -/
theorem not_copy_law : ArgArea argMm bareExec [] (leaf argMm.vm.mem argMm.pml4t) argMm.vm.frames.count ∧
    OldText argMm.vm bareExec.oldPml4t 0x10000 [65] ∧ ¬CopyLaw anonEnv argMm bareExec 0x10000 [65] := by
  refine ⟨argMm_area, argMm_text, ?_⟩
  have hlen : copiedLen 0x10000 [(65 : UInt8)].length = 1 := by decide
  have hgranted : ((reserve anonEnv argMm bareExec 1).any fun x => x.2.2 = none) = true := by decide +kernel
  obtain ⟨⟨s1, exec1, e⟩, hreserve, hnone⟩ := (Option.any_eq_true _ _).1 hgranted
  obtain rfl : e = none := of_decide_eq_true hnone
  rcases @reserve_room anonEnv argMm bareExec [] _ _ 1 argMm_area (by decide) (fun _ => Nat.one_pos) with
    ⟨s2, exec2, request, e, hrefused, -⟩ | ⟨s2, exec2, ps2, hroom, hheld⟩
  · rw [hrefused] at hreserve
    cases hreserve
  · rw [← hlen] at hroom hheld
    exact not_copyLaw_nonempty argMm_text (by simp) hroom hheld

end Pml.Kernel
