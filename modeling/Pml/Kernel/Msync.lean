import Pml.Kernel.MmapTable

/-!
# What `msync` writes (`kernel/mman.c`)

`sync_mappings` writes regions back to their files.  Its calls of `vfs_write` are recorded here, and `msync_exact_iff`
says when they write exactly the bytes that shared regions have in the range: the region that reaches into the range
is written to its end, and private regions are written like shared ones.
-/

namespace Pml.Kernel

open Arch

def msAsync : Nat := 1 <<< 0

def msSync : Nat := 1 <<< 1

def msInvalidate : Nat := 1 <<< 2

/-- A call `vfs_write (vnode, ptr, len, offset)`. -/
structure FileWrite where
  vnode : Option Nat
  ptr : Nat
  len : Nat
  offset : Nat
  deriving DecidableEq

/-- The calls of `vfs_write` up to the first one that fails, and its error. -/
abbrev Writes := List FileWrite × Option Errno

/-- The calls of `y` follow if no call of `x` fails. -/
def Writes.andThen (x y : Writes) : Writes :=
  match x.2 with
  | none => (x.1 ++ y.1, y.2)
  | some _ => x

/-- The write of a part of a region to its file, if it has one. -/
def writeRegion (env : MmapEnv) (files : Files) (r : Region) (ptr len offset : Nat) : Writes :=
  match r.file with
  | none => ([], none)
  | some i => ([⟨(files.entry i).vnode, ptr, len, offset⟩], env.vfsWrite (files.entry i).vnode ptr len offset)

/-- The loop of `sync_mappings` over the regions that remain, for the end `e` of the area. -/
def writeRest (env : MmapEnv) (files : Files) (e : Nat) : List Region → Writes
  | [] => ([], none)
  | r :: rs =>
    if r.stop ≤ e then (writeRegion env files r r.base r.len r.offset).andThen (writeRest env files e rs)
    else if r.base < e then
      (writeRegion env files r r.base (sub64 e r.base) r.offset).andThen (writeRest env files e rs)
    else ([], none)

/-- `sync_mappings`, with its calls of `vfs_write`. -/
def writeMappings (env : MmapEnv) (s : MmState) (ptr len : Nat) : Writes :=
  let ri := findRegionBefore s.mmaps ptr
  let first : Writes :=
    match regionAt s.mmaps ri with
    | none => ([], none)
    | some r =>
      if ptr < r.stop then
        writeRegion env s.files r ptr (sub64 r.stop ptr) (sub64 (add64 r.offset ptr) r.base)
      else ([], none)
  first.andThen (writeRest env s.files (add64 ptr len) (s.mmaps.drop (ri + 1).toNat))

def sysMsync (env : MmapEnv) (s : MmState) (addr len flags : Nat) : Writes :=
  if addr &&& (pageSize - 1) ≠ 0 ∨ (flags &&& msAsync ≠ 0 ∧ flags &&& msSync ≠ 0) ∨
      flags &&& (msAsync ||| msSync ||| msInvalidate) = 0 then ([], some .EINVAL)
  else if flags &&& msAsync ≠ 0 then ([], some .ENOTSUP)
  else writeMappings env s addr len

def FileWrite.Puts (c : FileWrite) (vnode : Option Nat) (pos a : Nat) : Prop :=
  vnode = c.vnode ∧ ∃ k < c.len, pos = add64 c.offset k ∧ a = c.ptr + k

/-- The address lies in a shared region of a file and in the range, and this is its place in the file. -/
def Due (s : MmState) (addr len : Nat) (vnode : Option Nat) (pos a : Nat) : Prop :=
  ∃ r ∈ s.mmaps, ∃ i, r.file = some i ∧ r.flags &&& mapShared ≠ 0 ∧ vnode = (s.files.entry i).vnode ∧ r.base ≤ a ∧
    a < r.base + r.len ∧ pos = add64 r.offset (a - r.base) ∧ addr ≤ a ∧ a < addr + len

/-- Whatever fails, only bytes that are due are written; and if nothing fails then all of them are. -/
def WritesExactly (s : MmState) (addr len : Nat) (call : MmapEnv → Writes) : Prop :=
  ∀ env, (∀ c ∈ (call env).1, ∀ vnode pos a, c.Puts vnode pos a → Due s addr len vnode pos a) ∧
    ((call env).2 = none → ∀ vnode pos a, Due s addr len vnode pos a → ∃ c ∈ (call env).1, c.Puts vnode pos a)

/-- A region of a file that reaches into the range is shared and ends in the range, and one that starts in the range
is shared if and only if the end of the range does not wrap. -/
def SyncFine (s : MmState) (addr len : Nat) : Prop :=
  ∀ r ∈ s.mmaps, r.file ≠ none →
    (r.base < addr → addr < r.stop → r.flags &&& mapShared ≠ 0 ∧ r.stop ≤ addr + len) ∧
      (addr ≤ r.base → r.base < addr + len → (r.flags &&& mapShared ≠ 0 ↔ addr + len < 2 ^ 64))

/-! ### The calls -/

private theorem Writes.andThen_error (x y : Writes) : (x.andThen y).2 = x.2.or y.2 := by
  unfold Writes.andThen
  rcases x with ⟨l, _ | e⟩ <;> rfl

private theorem Writes.mem_andThen {x y : Writes} {c : FileWrite} (h : c ∈ (x.andThen y).1) : c ∈ x.1 ∨ c ∈ y.1 := by
  unfold Writes.andThen at h
  split at h
  · exact List.mem_append.1 h
  · exact Or.inl h

private theorem Writes.andThen_none {x y : Writes} (h : (x.andThen y).2 = none) :
    x.2 = none ∧ y.2 = none ∧ (x.andThen y).1 = x.1 ++ y.1 := by
  rw [Writes.andThen_error, Option.or_eq_none_iff] at h
  refine ⟨h.1, h.2, ?_⟩
  unfold Writes.andThen
  rw [h.1]

private theorem writeRegion_error (env : MmapEnv) (files : Files) (r : Region) (ptr len offset : Nat) :
    (writeRegion env files r ptr len offset).2 = syncRegion env files r ptr len offset := by
  unfold writeRegion syncRegion
  cases r.file <;> rfl

theorem writeMappings_error (env : MmapEnv) (s : MmState) (ptr len : Nat) :
    (writeMappings env s ptr len).2 = syncMappings env s ptr len := by
  have hrest : ∀ e rs, (writeRest env s.files e rs).2 = syncRest env s.files e rs := by
    intro e rs
    induction rs with
    | nil => rfl
    | cons r rs ih =>
      unfold writeRest syncRest
      split
      · rw [Writes.andThen_error, writeRegion_error, ih]
      · split
        · rw [Writes.andThen_error, writeRegion_error, ih]
        · rfl
  unfold writeMappings syncMappings
  rw [Writes.andThen_error, hrest]
  congr 1
  rcases regionAt s.mmaps (findRegionBefore s.mmaps ptr) with _ | r
  · rfl
  · simp only [Option.bind_some]
    split
    · exact writeRegion_error _ _ _ _ _ _
    · rfl

private theorem mem_writeRegion {env : MmapEnv} {files : Files} {r : Region} {ptr len offset : Nat} {c : FileWrite} :
    c ∈ (writeRegion env files r ptr len offset).1 ↔
      ∃ i, r.file = some i ∧ c = ⟨(files.entry i).vnode, ptr, len, offset⟩ := by
  unfold writeRegion
  cases r.file <;> simp

def Wrote (ptr e : Nat) (r : Region) (a : Nat) : Prop :=
  if r.base < ptr then ptr ≤ a ∧ a < r.stop else r.base ≤ a ∧ a < r.stop ∧ a < e

def PlaceOf (files : Files) (r : Region) (vnode : Option Nat) (pos a : Nat) : Prop :=
  ∃ i, r.file = some i ∧ vnode = (files.entry i).vnode ∧ pos = add64 r.offset (a - r.base)

private theorem region_puts {env : MmapEnv} {files : Files} {r : Region} {ptr len offset pos a : Nat}
    {vnode : Option Nat} (hb : r.base ≤ ptr) (ho : ∀ k, add64 offset k = add64 r.offset (ptr - r.base + k)) :
    (∃ c ∈ (writeRegion env files r ptr len offset).1, c.Puts vnode pos a) ↔
      PlaceOf files r vnode pos a ∧ ptr ≤ a ∧ a < ptr + len := by
  constructor
  · rintro ⟨c, hc, hv, k, hk, hpos, ha⟩
    obtain ⟨i, hi, rfl⟩ := mem_writeRegion.1 hc
    dsimp only at hv hk hpos ha
    refine ⟨⟨i, hi, hv, ?_⟩, by omega, by omega⟩
    rw [hpos, ho, ha, Nat.sub_add_comm hb]
  · rintro ⟨⟨i, hi, hv, hpos⟩, h1, h2⟩
    refine ⟨_, mem_writeRegion.2 ⟨i, hi, rfl⟩, hv, a - ptr, by dsimp only; omega, ?_, by dsimp only; omega⟩
    rw [hpos, ho]
    congr 1
    omega

private theorem place_offset {base ptr offset : Nat} (hb : base ≤ ptr) (hp : ptr < 2 ^ 64) (k : Nat) :
    add64 (sub64 (add64 offset ptr) base) k = add64 offset (ptr - base + k) := by
  unfold add64 sub64
  omega

private theorem writeRest_puts {env : MmapEnv} {files : Files} {e : Nat} (he : e < 2 ^ 64) {rs : List Region}
    (h : MmapsWf rs) {vnode : Option Nat} {pos a : Nat} :
    (∀ c ∈ (writeRest env files e rs).1, c.Puts vnode pos a →
      ∃ r ∈ rs, PlaceOf files r vnode pos a ∧ r.base ≤ a ∧ a < r.stop ∧ a < e) ∧
    ((writeRest env files e rs).2 = none → ∀ r ∈ rs, PlaceOf files r vnode pos a → r.base ≤ a → a < r.stop → a < e →
      ∃ c ∈ (writeRest env files e rs).1, c.Puts vnode pos a) := by
  induction rs with
  | nil => exact ⟨fun c hc => absurd hc List.not_mem_nil, fun _ r hr => absurd hr List.not_mem_nil⟩
  | cons r rs ih =>
    obtain ⟨ih1, ih2⟩ := ih (h.sublist (List.sublist_cons_self r rs))
    have hwf := h.region r List.mem_cons_self
    have hstop := hwf.stop
    have ho : ∀ k, add64 r.offset k = add64 r.offset (r.base - r.base + k) :=
      fun k => by rw [Nat.sub_self, Nat.zero_add]
    -- the part of the first region that is written
    have hboth : ∀ len, (∀ a, a < r.base + len ↔ a < r.stop ∧ a < e) →
        (∀ c ∈ ((writeRegion env files r r.base len r.offset).andThen (writeRest env files e rs)).1,
          c.Puts vnode pos a → ∃ r' ∈ r :: rs, PlaceOf files r' vnode pos a ∧ r'.base ≤ a ∧ a < r'.stop ∧ a < e) ∧
        (((writeRegion env files r r.base len r.offset).andThen (writeRest env files e rs)).2 = none →
          ∀ r' ∈ r :: rs, PlaceOf files r' vnode pos a → r'.base ≤ a → a < r'.stop → a < e →
            ∃ c ∈ ((writeRegion env files r r.base len r.offset).andThen (writeRest env files e rs)).1,
              c.Puts vnode pos a) := by
      intro len hlen
      constructor
      · intro c hc hput
        rcases Writes.mem_andThen hc with hc | hc
        · obtain ⟨h1, h2, h3⟩ := (region_puts (Nat.le_refl _) ho).1 ⟨c, hc, hput⟩
          exact ⟨r, List.mem_cons_self, h1, h2, (hlen a).1 h3⟩
        · obtain ⟨r', h1, h2⟩ := ih1 c hc hput
          exact ⟨r', List.mem_cons_of_mem r h1, h2⟩
      · intro hok r' hr' hplace h1 h2 h3
        obtain ⟨-, hok2, hlist⟩ := Writes.andThen_none hok
        rw [hlist]
        rcases List.mem_cons.1 hr' with rfl | hr'
        · obtain ⟨c, hc, hput⟩ := (@region_puts env files r' r'.base len _ pos a vnode (Nat.le_refl _) ho).2
            ⟨hplace, h1, (hlen a).2 ⟨h2, h3⟩⟩
          exact ⟨c, List.mem_append_left _ hc, hput⟩
        · obtain ⟨c, hc, hput⟩ := ih2 hok2 r' hr' hplace h1 h2 h3
          exact ⟨c, List.mem_append_right _ hc, hput⟩
    unfold writeRest
    by_cases h1 : r.stop ≤ e
    · rw [if_pos h1]
      exact hboth r.len fun a => by omega
    rw [if_neg h1]
    by_cases h2 : r.base < e
    · rw [if_pos h2]
      refine hboth _ fun a => ?_
      rw [sub64_of_le (by omega) he]
      omega
    · -- the regions that remain start behind the end
      rw [if_neg h2]
      refine ⟨fun c hc => absurd hc List.not_mem_nil, fun _ r' hr' _ h3 _ h4 => ?_⟩
      rcases List.mem_cons.1 hr' with rfl | hr'
      · omega
      · have hbefore := (List.pairwise_cons.1 h.order).1 r' hr'
        omega

section

variable {s : MmState} {ptr len : Nat} (h : MmapsWf s.mmaps)
include h

/-- The regions that end before the area, the one that starts before it and may reach into it, and the others. -/
private theorem split_before (ptr : Nat) :
    ∃ pre post, s.mmaps = pre ++ (regionAt s.mmaps (findRegionBefore s.mmaps ptr)).toList ++ post ∧
    s.mmaps.drop (findRegionBefore s.mmaps ptr + 1).toNat = post ∧ (∀ r ∈ pre, r.base < ptr ∧ r.stop ≤ ptr) ∧
    (∀ r ∈ regionAt s.mmaps (findRegionBefore s.mmaps ptr), r.base < ptr) ∧ ∀ r ∈ post, ptr ≤ r.base := by
  obtain ⟨hbefore, hafter⟩ := h.split ptr
  have hle : (s.mmaps.findIdx fun r => ptr ≤ r.base) ≤ s.mmaps.length := List.findIdx_le_length
  unfold regionAt findRegionBefore
  generalize s.mmaps.findIdx (fun r => ptr ≤ r.base) = n at hbefore hafter hle ⊢
  cases n with
  | zero => exact ⟨[], s.mmaps, rfl, rfl, by simp, by simp, hafter⟩
  | succ k =>
    have hlt : k < s.mmaps.length := by omega
    have hk : ((k + 1 : Nat) : Int) - 1 = k := by omega
    have hneg : ¬(k : Int) < 0 := by omega
    simp only [hk, hneg, ↓reduceIte, Int.toNat_natCast, List.getElem?_eq_getElem hlt, Option.toList_some]
    have htake : s.mmaps.take (k + 1) = s.mmaps.take k ++ [s.mmaps[k]] := List.take_succ_eq_append_getElem hlt
    have hlast : (s.mmaps[k]).base < ptr := hbefore _ (htake ▸ List.mem_append_right _ (List.mem_singleton.2 rfl))
    refine ⟨s.mmaps.take k,
      s.mmaps.drop (k + 1), by rw [← htake, List.take_append_drop], by norm_cast, fun r hr => ?_,
      fun r hr => ?_, hafter⟩
    · have hr' : r ∈ s.mmaps.take (k + 1) := htake ▸ List.mem_append_left _ hr
      have hend := h.before (show s.mmaps = s.mmaps.take k ++ s.mmaps[k] :: s.mmaps.drop (k + 1) by
        rw [← List.drop_eq_getElem_cons hlt, List.take_append_drop]) hr List.mem_cons_self
      rw [(h.region r (List.mem_of_mem_take hr)).stop]
      exact ⟨hbefore r hr', by omega⟩
    · obtain rfl := Option.some.inj hr
      exact hlast

private theorem writeMappings_puts {env : MmapEnv} (hp : ptr < 2 ^ 64) {vnode : Option Nat} {pos a : Nat} :
    (∀ c ∈ (writeMappings env s ptr len).1, c.Puts vnode pos a →
      ∃ r ∈ s.mmaps, PlaceOf s.files r vnode pos a ∧ r.base ≤ a ∧ a < r.stop ∧ Wrote ptr (add64 ptr len) r a) ∧
    ((writeMappings env s ptr len).2 = none → ∀ r ∈ s.mmaps, PlaceOf s.files r vnode pos a → r.base ≤ a → a < r.stop →
      Wrote ptr (add64 ptr len) r a → ∃ c ∈ (writeMappings env s ptr len).1, c.Puts vnode pos a) := by
  obtain ⟨pre, post, hsplit, hpost, hpre, hmid, hafter⟩ := split_before h ptr
  have he : add64 ptr len < 2 ^ 64 := Nat.mod_lt _ (by decide)
  have hwf := h.sublist (hsplit ▸ List.sublist_append_right _ post)
  obtain ⟨hrest1, hrest2⟩ := @writeRest_puts env s.files _ he _ hwf vnode pos a
  have hlow : ∀ {r : Region}, r.base < ptr → (Wrote ptr (add64 ptr len) r a ↔ ptr ≤ a ∧ a < r.stop) := fun hr => by
    rw [Wrote, if_pos hr]
  have hhigh :
    ∀ {r : Region}, ptr ≤ r.base → (Wrote ptr (add64 ptr len) r a ↔ r.base ≤ a ∧ a < r.stop ∧ a < add64 ptr len) :=
    fun hr => by rw [Wrote, if_neg (Nat.not_lt.2 hr)]
  unfold writeMappings
  dsimp only
  rw [hpost]
  -- the write of the region that starts before the area
  have hfirst : ∀ first : Writes,
      (∀ c ∈ first.1, c.Puts vnode pos a → ∃ r ∈ regionAt s.mmaps (findRegionBefore s.mmaps ptr),
        PlaceOf s.files r vnode pos a ∧ r.base ≤ a ∧ a < r.stop ∧ ptr ≤ a) →
      (∀ r ∈ regionAt s.mmaps (findRegionBefore s.mmaps ptr), PlaceOf s.files r vnode pos a → ptr ≤ a → a < r.stop →
        ∃ c ∈ first.1, c.Puts vnode pos a) →
      (∀ c ∈ (first.andThen (writeRest env s.files (add64 ptr len) post)).1, c.Puts vnode pos a →
        ∃ r ∈ s.mmaps, PlaceOf s.files r vnode pos a ∧ r.base ≤ a ∧ a < r.stop ∧ Wrote ptr (add64 ptr len) r a) ∧
      ((first.andThen (writeRest env s.files (add64 ptr len) post)).2 = none → ∀ r ∈ s.mmaps,
        PlaceOf s.files r vnode pos a → r.base ≤ a → a < r.stop → Wrote ptr (add64 ptr len) r a →
          ∃ c ∈ (first.andThen (writeRest env s.files (add64 ptr len) post)).1, c.Puts vnode pos a) := by
    intro first h1 h2
    constructor
    · intro c hc hput
      rcases Writes.mem_andThen hc with hc | hc
      · obtain ⟨r, hr, h3, h4, h5, h6⟩ := h1 c hc hput
        refine ⟨r, ?_, h3, h4, h5, (hlow (hmid r hr)).2 ⟨h6, h5⟩⟩
        rw [hsplit]
        exact List.mem_append_left _ (List.mem_append_right _ (Option.mem_toList.2 hr))
      · obtain ⟨r, hr, h3, h4, h5, h6⟩ := hrest1 c hc hput
        exact ⟨r, hsplit ▸ List.mem_append_right _ hr, h3, h4, h5, (hhigh (hafter r hr)).2 ⟨h4, h5, h6⟩⟩
    · intro hok r hr hplace h3 h4 hwrote
      obtain ⟨-, hok2, hlist⟩ := Writes.andThen_none hok
      rw [hlist]
      rw [hsplit] at hr
      rcases List.mem_append.1 hr with hr | hr
      · rcases List.mem_append.1 hr with hr | hr
        · obtain ⟨h5, h6⟩ := hpre r hr
          have h7 := (hlow h5).1 hwrote
          omega
        · have hr' := Option.mem_toList.1 hr
          obtain ⟨c, hc, hput⟩ := h2 r hr' hplace ((hlow (hmid r hr')).1 hwrote).1 h4
          exact ⟨c, List.mem_append_left _ hc, hput⟩
      · obtain ⟨c, hc, hput⟩ := hrest2 hok2 r hr hplace h3 h4 ((hhigh (hafter r hr)).1 hwrote).2.2
        exact ⟨c, List.mem_append_right _ hc, hput⟩
  rcases hat : regionAt s.mmaps (findRegionBefore s.mmaps ptr) with _ | r
  · rw [hat] at hfirst
    exact hfirst ([], none) (fun c hc => absurd hc List.not_mem_nil) fun r hr => by cases hr
  · rw [hat] at hfirst hmid
    have hr : r ∈ s.mmaps :=
      hsplit ▸ List.mem_append_left _ (List.mem_append_right _ (by rw [hat]; exact List.mem_singleton_self r))
    have hbase := hmid r rfl
    have hstop := (h.region r hr).stop
    have htop := (h.region r hr).top
    simp only [userMemTopVma] at htop
    dsimp only
    refine hfirst _ ?_ ?_
    · intro c hc hput
      by_cases hreach : ptr < r.stop
      · rw [if_pos hreach] at hc
        obtain ⟨h1, h2, h3⟩ := (region_puts hbase.le (place_offset hbase.le hp)).1 ⟨c, hc, hput⟩
        rw [sub64_of_le (by omega) (by omega)] at h3
        exact ⟨r, rfl, h1, by omega, by omega, h2⟩
      · rw [if_neg hreach] at hc
        exact absurd hc List.not_mem_nil
    · intro r' hr' hplace h1 h2
      obtain rfl := Option.some.inj hr'
      rw [if_pos (by omega)]
      refine (region_puts hbase.le (place_offset hbase.le hp)).2 ⟨hplace, h1, ?_⟩
      rw [sub64_of_le (by omega) (by omega)]
      omega

/-! ### When the writes are those that are due -/

omit h in
private theorem writeMappings_ok {env : MmapEnv} (henv : ∀ v p l o, env.vfsWrite v p l o = none) :
    (writeMappings env s ptr len).2 = none := by
  have hregion : ∀ r p l o, (writeRegion env s.files r p l o).2 = none := fun r p l o => by
    unfold writeRegion
    split
    · rfl
    · exact henv _ _ _ _
  have hrest : ∀ e rs, (writeRest env s.files e rs).2 = none := by
    intro e rs
    induction rs with
    | nil => rfl
    | cons r rs ih =>
      unfold writeRest
      split
      · rw [Writes.andThen_error, hregion, ih, Option.or_none]
      · split
        · rw [Writes.andThen_error, hregion, ih, Option.or_none]
        · rfl
  unfold writeMappings
  rw [Writes.andThen_error, hrest, Option.or_none]
  split
  · rfl
  · split
    · exact hregion _ _ _ _
    · rfl

theorem MmapsWf.unique {r r' : Region} (hr : r ∈ s.mmaps) (hr' : r' ∈ s.mmaps) {a : Nat}
    (ha : r.base ≤ a ∧ a < r.base + r.len) (ha' : r'.base ≤ a ∧ a < r'.base + r'.len) : r = r' := by
  obtain ⟨l, l', hsplit⟩ := List.append_of_mem hr
  rw [hsplit] at hr'
  rcases List.mem_append.1 hr' with hl | hl
  · have h1 := h.before hsplit hl List.mem_cons_self
    omega
  · rcases List.mem_cons.1 hl with rfl | hl
    · rfl
    · have h1 :=
        h.before (show s.mmaps = (l ++ [r]) ++ l' by rw [hsplit]; simp)
        (List.mem_append_right _ (List.mem_singleton_self r)) hl
      omega

private theorem writesExactly_iff (hp : ptr < 2 ^ 64) : WritesExactly s ptr len (writeMappings · s ptr len) ↔
    ∀ r ∈ s.mmaps, r.file ≠ none → ∀ a, r.base ≤ a → a < r.stop →
      (Wrote ptr (add64 ptr len) r a ↔ r.flags &&& mapShared ≠ 0 ∧ ptr ≤ a ∧ a < ptr + len) := by
  have hput := fun env vnode pos a => @writeMappings_puts s ptr len h env hp vnode pos a
  constructor
  · intro hex r hr hfile a h1 h2
    obtain ⟨i, hi⟩ := Option.ne_none_iff_exists'.1 hfile
    obtain ⟨hex1, hex2⟩ := hex anonEnv
    obtain ⟨hput1, hput2⟩ := hput anonEnv (s.files.entry i).vnode (add64 r.offset (a - r.base)) a
    have hok : (writeMappings anonEnv s ptr len).2 = none := writeMappings_ok fun _ _ _ _ => rfl
    have hplace : PlaceOf s.files r (s.files.entry i).vnode (add64 r.offset (a - r.base)) a := ⟨i, hi, rfl, rfl⟩
    constructor
    · intro hw
      obtain ⟨c, hc, hcp⟩ := hput2 hok r hr hplace h1 h2 hw
      obtain ⟨r', hr', -, -, hshared, -, h3, h4, -, h5, h6⟩ := hex1 c hc _ _ _ hcp
      rw [(h.region r hr).stop] at h2
      obtain rfl := h.unique hr hr' ⟨h1, h2⟩ ⟨h3, h4⟩
      exact ⟨hshared, h5, h6⟩
    · rintro ⟨hshared, h3, h4⟩
      rw [(h.region r hr).stop] at h2
      obtain ⟨c, hc, hcp⟩ := hex2 hok _ _ _ ⟨r, hr, i, hi, hshared, rfl, h1, h2, rfl, h3, h4⟩
      obtain ⟨r', hr', -, h5, h6, hw⟩ := hput1 c hc hcp
      rw [(h.region r' hr').stop] at h6
      obtain rfl := h.unique hr hr' ⟨h1, h2⟩ ⟨h5, h6⟩
      exact hw
  · intro hall env
    refine ⟨fun c hc vnode pos a hcp => ?_, fun hok vnode pos a hdue => ?_⟩
    · obtain ⟨r, hr, ⟨i, hi, hv, hpos⟩, h1, h2, hw⟩ := (hput env vnode pos a).1 c hc hcp
      obtain ⟨h3, h4, h5⟩ := (hall r hr (by simp [hi]) a h1 h2).1 hw
      rw [(h.region r hr).stop] at h2
      exact ⟨r, hr, i, hi, h3, hv, h1, h2, hpos, h4, h5⟩
    · obtain ⟨r, hr, i, hi, hshared, hv, h1, h2, hpos, h3, h4⟩ := hdue
      rw [← (h.region r hr).stop] at h2
      exact (hput env vnode pos a).2 hok r hr ⟨i, hi, hv, hpos⟩ h1 h2
        ((hall r hr (by simp [hi]) a h1 h2).2 ⟨hshared, h3, h4⟩)

private theorem writeMappings_iff (hp : ptr < 2 ^ 64) (hl : len < 2 ^ 64) :
    WritesExactly s ptr len (writeMappings · s ptr len) ↔ SyncFine s ptr len := by
  rw [writesExactly_iff h hp]
  refine forall_congr' fun r => forall_congr' fun hr => forall_congr' fun _ => ?_
  have hstop := (h.region r hr).stop
  have htop := (h.region r hr).top
  have hpos := (h.region r hr).pos
  simp only [userMemTopVma] at htop
  unfold Wrote
  generalize (r.flags &&& mapShared ≠ 0) = shared
  by_cases hbase : r.base < ptr
  · simp only [if_pos hbase]
    simp only [hbase, forall_const, Nat.not_le.2 hbase, false_imp_iff, and_true]
    constructor
    · intro hall hreach
      have h1 := (hall ptr hbase.le hreach).1 ⟨Nat.le_refl _, hreach⟩
      have h2 := (hall (r.stop - 1) (by omega) (by omega)).1 ⟨by omega, by omega⟩
      exact ⟨h1.1, by omega⟩
    · intro hfine a h1 h2
      refine ⟨fun h3 => ?_, fun h3 => ⟨h3.2.1, h2⟩⟩
      obtain ⟨h4, h5⟩ := hfine (by omega)
      exact ⟨h4, h3.1, by omega⟩
  · simp only [if_neg hbase]
    simp only [hbase, false_imp_iff, true_and, Nat.not_lt.1 hbase, forall_const]
    have hwrap : add64 ptr len = if ptr + len < 2 ^ 64 then ptr + len else ptr + len - 2 ^ 64 := by
      unfold add64
      split <;> omega
    rw [hwrap]
    constructor
    · intro hall hin
      have h1 := hall r.base (Nat.le_refl _) (by omega)
      split at h1
      · rename_i hlt
        exact iff_of_true (h1.1 ⟨Nat.le_refl _, by omega, hin⟩).1 hlt
      · rename_i hlt
        exact iff_of_false (fun h2 => by have h3 := h1.2 ⟨h2, by omega, hin⟩; omega) hlt
    · intro hfine a h1 h2
      split
      · rename_i hlt
        refine ⟨fun h3 => ⟨(hfine (by omega)).2 hlt, by omega, h3.2.2⟩, fun h3 => ⟨h1, h2, h3.2.2⟩⟩
      · rename_i hlt
        refine iff_of_false (fun h3 => by omega) fun h3 => hlt ((hfine (by omega)).1 h3.1)

end

/-- A call of `sys_msync` with `MS_SYNC`, and the step of a mapping at a fixed address, write what they should if and
only if the regions of files are shared where they are written, and written no further than the range. -/
theorem msync_exact_iff {s : MmState} {addr len : Word} {flags : Nat} (h : MmapsWf s.mmaps)
    (hsync : flags &&& msSync ≠ 0) : (WritesExactly s addr len (sysMsync · s addr len flags) ↔
      ((addr : Nat) &&& (pageSize - 1) = 0 → flags &&& msAsync = 0 → SyncFine s addr len)) ∧
    (WritesExactly s addr len (writeMappings · s addr len) ↔ SyncFine s addr len) := by
  have hiff := @writeMappings_iff s addr len h addr.isLt len.isLt
  refine ⟨?_, hiff⟩
  have hany : flags &&& (msAsync ||| msSync ||| msInvalidate) ≠ 0 := fun h0 => by
    have h1 : (msAsync ||| msSync ||| msInvalidate) &&& msSync = msSync := by decide
    rw [← h1, ← Nat.and_assoc, h0, Nat.zero_and] at hsync
    exact hsync rfl
  have hnone : ∀ e, WritesExactly s addr len fun _ => ([], some e) := fun e env =>
    ⟨fun c hc => absurd hc List.not_mem_nil, fun h1 => by cases h1⟩
  unfold sysMsync
  by_cases halign : (addr : Nat) &&& (pageSize - 1) = 0
  swap
  · simp only [halign, ne_eq, not_false_eq_true, true_or, ↓reduceIte, false_imp_iff, iff_true]
    exact hnone _
  by_cases hasync : flags &&& msAsync = 0
  · simp only [halign, hasync, hany, ne_eq, not_true_eq_false, false_and, or_self, ↓reduceIte, forall_const]
    exact hiff
  · simp only [halign, hasync, hsync, ne_eq, not_true_eq_false, not_false_eq_true, and_self, true_or, or_true,
      ↓reduceIte, false_imp_iff, implies_true, iff_true]
    exact hnone _

def sharedMm : MmState :=
  { emptyMm with
    files := ⟨fun _ => { vnode := some 1, count := 1 }, 1⟩
    mmaps := [⟨0x10000, 0x3000, protRead ||| protWrite, some 0, 0, 0, mapShared⟩] }

private theorem sharedMm_wf : MmapsWf sharedMm.mmaps := by
  refine ⟨fun r hr => ?_, List.pairwise_singleton _ _⟩
  obtain rfl := List.mem_singleton.1 hr
  exact ⟨by decide, by decide, by decide, by decide⟩

/-- The whole mapping is written. -/
theorem msync_exact_small : WritesExactly sharedMm ((0x10000 : Word) : Nat) ((0x3000 : Word) : Nat)
    (sysMsync · sharedMm ((0x10000 : Word) : Nat) ((0x3000 : Word) : Nat) msSync) := by
  refine (msync_exact_iff sharedMm_wf (by decide)).1.2 fun _ _ r hr _ => ?_
  obtain rfl := List.mem_singleton.1 hr
  decide

/-- When the second page is to be written, so is the third. -/
theorem not_msync_exact : MmapsWf sharedMm.mmaps ∧
    ¬WritesExactly sharedMm 0x11000 0x1000 (sysMsync · sharedMm 0x11000 0x1000 msSync) := by
  refine ⟨sharedMm_wf, fun h => ?_⟩
  have hfine : SyncFine sharedMm 0x11000 0x1000 := (writeMappings_iff sharedMm_wf (by decide) (by decide)).1 h
  have hend := (hfine _ (List.mem_singleton_self _) (by decide)).1 (by decide) (by decide)
  exact absurd hend.2 (by decide)

end Pml.Kernel
