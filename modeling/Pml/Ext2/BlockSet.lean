import Pml.Ext2.BlockAlloc

/-!
# Storing a block in the block map (`ext2_bmap` with `BMAP_SET`)

A block is stored in the last pointer of the path of its logical block.  In a tree of distinct blocks no other path
ends there, so that the other lookups stay as they are (`bmap_set_law`).
-/

namespace Pml.Ext2

open ByteMemory Radix

/-! ### Where a block is stored -/

abbrev setFlags : BmapFlags := ⟨false, true, false⟩

def setAt (fs : Fs) (t j p : Nat) : Fs × Except Errno Nat :=
  if t = 0 then (fs, .error .EINVAL) else (fs.writeBlock t (setWord (fs.disk t) j p), .ok p)

section

variable (fs : Fs) (inode : Inode)

private theorem blockIndBmap_set (ind i p : Nat) : blockIndBmap fs setFlags ind i p = setAt fs ind i p := by
  unfold blockIndBmap setAt
  split
  · rfl
  · rfl

private theorem blockDindBmap_set (dind i p : Nat) : blockDindBmap fs setFlags dind i p =
    setAt fs (follow fs inode dind [i / fs.addrPerBlock]) (i % fs.addrPerBlock) p := by
  unfold blockDindBmap
  rw [blockIndBmap_lookup fs inode]
  exact blockIndBmap_set fs _ _ p

private theorem blockTindBmap_set (tind i p : Nat) : blockTindBmap fs setFlags tind i p =
    setAt fs (follow fs inode tind [i / fs.addrPerBlock / fs.addrPerBlock, i / fs.addrPerBlock % fs.addrPerBlock])
      (i % fs.addrPerBlock) p := by
  unfold blockTindBmap
  rw [blockDindBmap_lookup fs inode]
  exact blockIndBmap_set fs _ _ p

private theorem bmapIndirect_set {slot j p r : Nat} {q : List Nat} {leaf : Fs → Nat → Fs × Except Errno Nat}
    (hleaf : ∀ b, leaf fs b = setAt fs (follow fs inode b q) j p) :
    bmapIndirect fs inode setFlags slot r leaf =
      if pathBlock fs inode (slot :: q) = 0 then ((fs, inode), .error .EINVAL)
      else ((fs.writeBlock (pathBlock fs inode (slot :: q))
        (setWord (fs.disk (pathBlock fs inode (slot :: q))) j p), inode), .ok ⟨p, 0, false⟩) := by
  unfold bmapIndirect
  rw [pathBlock_cons]
  by_cases h : inode.iBlock slot = 0
  · simp [h, follow_zero]
  · simp only [h, if_false, hleaf, setAt]
    by_cases h0 : follow fs inode (inode.iBlock slot) q = 0
    · simp [h0]
    · simp [h0]

/-- A store changes the last pointer on the path of the logical block, or there is no block for it. -/
private theorem bmapBlock_set (l : Nat) {p : Nat} (hp : p < 2 ^ 32) : ∃ q j, blockPath fs.addrPerBlock l = q ++ [j] ∧
    ((q = [] ∧ j = l ∧ bmapBlock fs inode setFlags l p = ((fs, inode.setBlock l p), .ok ⟨p, 0, true⟩)) ∨
     (q ≠ [] ∧ bmapBlock fs inode setFlags l p =
        if pathBlock fs inode q = 0 then ((fs, inode), .error .EINVAL)
        else ((fs.writeBlock (pathBlock fs inode q) (setWord (fs.disk (pathBlock fs inode q)) j p), inode),
          .ok ⟨p, 0, false⟩))) := by
  unfold bmapBlock blockPath
  rw [Nat.mod_eq_of_lt hp]
  dsimp only
  by_cases h1 : l < ndirBlocks
  · rw [if_pos h1, if_pos h1]
    exact ⟨[], l, rfl, Or.inl ⟨rfl, rfl, rfl⟩⟩
  rw [if_neg h1, if_neg h1]
  by_cases h2 : l - ndirBlocks < fs.addrPerBlock
  · rw [if_pos h2, if_pos h2]
    refine ⟨[indBlock], _, rfl, Or.inr ⟨List.cons_ne_nil _ _, bmapIndirect_set fs inode fun b => ?_⟩⟩
    rw [blockIndBmap_set, follow_nil]
  rw [if_neg h2, if_neg h2]
  by_cases h3 : l - ndirBlocks - fs.addrPerBlock < fs.addrPerBlock * fs.addrPerBlock
  · rw [if_pos h3, if_pos h3]
    exact ⟨[dindBlock, _], _, rfl, Or.inr ⟨List.cons_ne_nil _ _,
      bmapIndirect_set fs inode fun b => blockDindBmap_set fs inode b _ p⟩⟩
  · rw [if_neg h3, if_neg h3]
    exact ⟨[tindBlock, _, _], _, rfl, Or.inr ⟨List.cons_ne_nil _ _,
      bmapIndirect_set fs inode fun b => blockTindBmap_set fs inode b _ p⟩⟩

end

/-! ### Paths -/

section

variable {fs fs' : Fs} {inode inode' : Inode}

theorem FilePath.left {n : Nat} {q r : List Nat} (h : FilePath n (q ++ r)) (hq : q ≠ []) : FilePath n q := by
  cases q with
  | nil => exact absurd rfl hq
  | cons i q =>
    obtain ⟨h1, h2, h3⟩ := h
    rw [List.append_eq, List.length_append] at h2
    exact ⟨h1, by omega, fun k hk => h3 k (List.mem_append_left _ hk)⟩

private theorem walk_zero {q : List Nat} (h : walk (look fs inode) target 0 q = some 0) : q = [] := by
  rcases List.eq_nil_or_concat q with h0 | ⟨q, i, rfl⟩
  · exact h0
  · rw [List.concat_eq_append] at h
    obtain ⟨u, -, hu⟩ := walk_left h
    rw [walk_singleton] at hu
    exact absurd (target_eq_some.1 hu).2.symm (target_eq_some.1 hu).1

private theorem pathBlock_append {q : List Nat} (hq : q ≠ []) (r : List Nat) :
    pathBlock fs inode (q ++ r) = follow fs inode (pathBlock fs inode q) r := by
  cases q with
  | nil => exact absurd rfl hq
  | cons i q => rw [List.cons_append, pathBlock_cons, pathBlock_cons, follow_append]

private theorem pathBlock_ne_zero {q : List Nat} {t : Nat} (ht : t ≠ 0) (h : pathBlock fs inode q = t) :
    walk (look fs inode) target 0 q = some t := by
  unfold pathBlock at h
  cases hw : walk (look fs inode) target 0 q with
  | none =>
    rw [hw] at h
    exact absurd h.symm ht
  | some u =>
    rw [hw] at h
    rw [← h]
    rfl

/-- The logical block of a path, from its first pointers. -/
def blockOfPath (n : Nat) : List Nat → Nat
  | 12 :: i :: _ => ndirBlocks + i
  | 13 :: i :: j :: _ => ndirBlocks + n + (n * i + j)
  | 14 :: i :: j :: k :: _ => ndirBlocks + n + n * n + (n * (n * i + j) + k)
  | i :: _ => i
  | [] => 0

private theorem blockOfPath_append (n l : Nat) (r : List Nat) : blockOfPath n (blockPath n l ++ r) = l := by
  unfold blockPath
  by_cases h1 : l < ndirBlocks
  · rw [if_pos h1]
    have h2 : l ≠ 12 ∧ l ≠ 13 ∧ l ≠ 14 := by
      dsimp only [ndirBlocks] at h1
      omega
    simp only [List.cons_append, List.nil_append]
    unfold blockOfPath
    split
    · rename_i h
      exact absurd (List.cons.inj h).1 h2.1
    · rename_i h
      exact absurd (List.cons.inj h).1 h2.2.1
    · rename_i h
      exact absurd (List.cons.inj h).1 h2.2.2
    · rename_i h
      exact (List.cons.inj h).1.symm
    · rename_i h
      cases h
  rw [if_neg h1]
  by_cases h2 : l - ndirBlocks < n
  · rw [if_pos h2]
    change ndirBlocks + (l - ndirBlocks) = l
    omega
  rw [if_neg h2]
  by_cases h3 : l - ndirBlocks - n < n * n
  · rw [if_pos h3]
    change ndirBlocks + n + (n * ((l - ndirBlocks - n) / n) + (l - ndirBlocks - n) % n) = l
    rw [Nat.div_add_mod]
    omega
  · rw [if_neg h3]
    change ndirBlocks + n + n * n + (n * (n * ((l - ndirBlocks - n - n * n) / n / n) +
      (l - ndirBlocks - n - n * n) / n % n) + (l - ndirBlocks - n - n * n) % n) = l
    rw [Nat.div_add_mod, Nat.div_add_mod]
    omega

private theorem blockPath_append {n k l : Nat} {r : List Nat} (h : blockPath n k = blockPath n l ++ r) : k = l := by
  have hk := blockOfPath_append n k []
  rw [List.append_nil, h, blockOfPath_append] at hk
  exact hk.symm

private theorem walk_changed (htree : ∀ q q' b, Holds fs inode q b → Holds fs inode q' b → q = q') {q : List Nat}
    {j t : Nat} (hq : walk (look fs inode) target 0 q = some t) (hpath : FilePath fs.addrPerBlock (q ++ [j]))
    (hlook : ∀ u i, ¬(u = t ∧ i = j) → look fs' inode' u i = look fs inode u i) {r : List Nat}
    (hr : FilePath fs.addrPerBlock r) (hne : ∀ rest, r ≠ q ++ j :: rest) :
    walk (look fs' inode') target 0 r = walk (look fs inode) target 0 r := by
  refine (walk_trail_congr fun q0 i rest u hsplit hu => hlook u i ?_).1
  rintro ⟨rfl, rfl⟩
  refine hne rest ?_
  suffices hsame : q0 = q by rw [hsplit, hsame]
  by_cases hq0 : q0 = []
  · subst hq0
    obtain rfl : 0 = u := Option.some.inj hu
    exact (walk_zero hq).symm
  · have hqne : q ≠ [] := by
      rintro rfl
      obtain rfl : 0 = u := Option.some.inj hq
      exact hq0 (walk_zero hu)
    exact htree q0 q u ⟨(hsplit ▸ hr).left hq0, hu⟩ ⟨hpath.left hqne, hq⟩

private theorem pathBlock_changed (htree : ∀ q q' b, Holds fs inode q b → Holds fs inode q' b → q = q') {q : List Nat}
    {j t l p : Nat} (hl : ext2FileBlockOffsetTooBig fs l = false) (hsplit : blockPath fs.addrPerBlock l = q ++ [j])
    (hq : walk (look fs inode) target 0 q = some t) (hsize : fs'.blksize = fs.blksize)
    (hlook : ∀ u i, ¬(u = t ∧ i = j) → look fs' inode' u i = look fs inode u i) (hnew : look fs' inode' t j = p) :
    lookup fs' inode' l = .ok p ∧ ∀ k, k ≠ l → lookup fs' inode' k = lookup fs inode k := by
  have hn : fs'.addrPerBlock = fs.addrPerBlock := by rw [Fs.addrPerBlock, hsize, Fs.addrPerBlock]
  have hbig : ∀ k, ext2FileBlockOffsetTooBig fs' k = ext2FileBlockOffsetTooBig fs k := fun k => by
    rw [ext2FileBlockOffsetTooBig, hn, ext2FileBlockOffsetTooBig]
  have hpath : FilePath fs.addrPerBlock (q ++ [j]) := hsplit ▸ blockPath_filePath hl
  constructor
  · have hq' : walk (look fs' inode') target 0 q = some t := by
      by_cases hq0 : q = []
      · rw [hq0] at hq ⊢
        exact hq
      · refine (walk_changed htree hq hpath hlook (hpath.left hq0) fun rest hrest => ?_).trans hq
        have hlen := congrArg List.length hrest
        rw [List.length_append, List.length_cons] at hlen
        omega
    rw [lookup_eq, hbig, hl, hn, hsplit, pathBlock, walk_append_of hq', walk_singleton, hnew]
    by_cases hp : p = 0
    · rw [hp]
      rfl
    · rw [target_eq_some.2 ⟨hp, rfl⟩]
      rfl
  · intro k hk
    rw [lookup_eq, lookup_eq, hbig]
    cases hkbig : ext2FileBlockOffsetTooBig fs k with
    | true => rfl
    | false =>
      rw [hn, pathBlock, walk_changed htree hq hpath hlook (blockPath_filePath hkbig) fun rest hrest => ?_,
        ← pathBlock]
      refine hk (blockPath_append (n := fs.addrPerBlock) (r := rest) ?_)
      rw [hrest, hsplit, List.append_assoc]
      rfl

end

/-! ### The law -/

def NeedsMissing (fs : Fs) (inode : Inode) (l : Nat) : Prop :=
  ∃ q j r, blockPath fs.addrPerBlock l = q ++ j :: r ∧ q ≠ [] ∧ pathBlock fs inode q = 0

private theorem needsMissing_iff {fs : Fs} {inode : Inode} {l j : Nat} {q : List Nat}
    (hsplit : blockPath fs.addrPerBlock l = q ++ [j]) :
    NeedsMissing fs inode l ↔ q ≠ [] ∧ pathBlock fs inode q = 0 := by
  constructor
  · rintro ⟨q', i, r, h1, h2, h3⟩
    rw [hsplit] at h1
    have hq : ∃ r', q = q' ++ r' := by
      rcases List.eq_nil_or_concat r with rfl | ⟨r, x, rfl⟩
      · exact ⟨[], by rw [List.append_nil, (List.append_inj' h1 rfl).1]⟩
      · have hcat : q ++ [j] = q' ++ i :: r ++ [x] := by
          rw [h1, List.concat_eq_append, List.append_assoc]
          rfl
        exact ⟨i :: r, (List.append_inj' hcat rfl).1⟩
    obtain ⟨r', rfl⟩ := hq
    refine ⟨List.append_ne_nil_of_left_ne_nil h2 _, ?_⟩
    rw [pathBlock_append h2, h3, follow_zero]
  · exact fun ⟨h1, h2⟩ => ⟨q, j, [], hsplit, h1, h2⟩

/-- In a tree of distinct blocks, a block that has been stored for a logical block is found there, and the other
lookups are unchanged.  A store fails, without a change, if and only if a pointer block does not exist. -/
theorem bmap_set_law {fs : Fs} {inode : Inode} {l p : Nat}
    (htree : ∀ q q' b, Holds fs inode q b → Holds fs inode q' b → q = q')
    (hl : ext2FileBlockOffsetTooBig fs l = false)
    (hp : p < 2 ^ 32) :
    (∀ s r, ext2Bmap fs inode setFlags l p = (s, .ok r) →
      lookup s.1 s.2 l = .ok p ∧ ∀ k, k ≠ l → lookup s.1 s.2 k = lookup fs inode k) ∧
    ((∃ s e, ext2Bmap fs inode setFlags l p = (s, .error e)) ↔ NeedsMissing fs inode l) ∧
    ∀ s e, ext2Bmap fs inode setFlags l p = (s, .error e) → s = (fs, inode) := by
  obtain ⟨q, j, hsplit, hcase⟩ := bmapBlock_set fs inode l hp
  rw [needsMissing_iff hsplit]
  unfold ext2Bmap
  simp only [hl, Bool.false_eq_true, if_false, if_true, and_false]
  rcases hcase with ⟨rfl, rfl, hb⟩ | ⟨hq, hb⟩
  · -- a direct pointer
    rw [hb]
    refine ⟨fun s r h => ?_, ⟨fun h => ?_, fun h => absurd rfl h.1⟩, fun s e h => ?_⟩
    · cases h
      refine pathBlock_changed htree hl hsplit rfl rfl (fun u i hne => ?_) ?_
      · unfold look
        rw [ext2IblkAddBlocks_iBlock, Inode.iBlock_setBlock]
        split
        · rename_i hu
          exact Function.update_of_ne (fun hi => hne ⟨hu, hi⟩) _ _
        · rfl
      · rw [look, if_pos rfl, ext2IblkAddBlocks_iBlock, Inode.iBlock_setBlock, Function.update_self,
          Nat.mod_eq_of_lt hp]
    · obtain ⟨s, e, h⟩ := h
      cases h
    · cases h
  · rw [hb]
    by_cases h0 : pathBlock fs inode q = 0
    · rw [if_pos h0]
      refine ⟨fun s r h => (by cases h), ⟨fun _ => ⟨hq, h0⟩, fun _ => ⟨_, _, rfl⟩⟩, fun s e h => ?_⟩
      cases h
      rfl
    · rw [if_neg h0]
      refine ⟨fun s r h => ?_, ⟨fun h => ?_, fun h => absurd h.2 h0⟩, fun s e h => (by cases h)⟩
      swap
      · obtain ⟨s, e, h⟩ := h
        cases h
      cases h
      refine pathBlock_changed htree hl hsplit (pathBlock_ne_zero h0 rfl) rfl (fun u i hne => ?_) ?_
      · unfold look
        split
        · rfl
        · simp only [Fs.writeBlock]
          by_cases hu : u = pathBlock fs inode q
          · subst hu
            rw [Function.update_self]
            exact word_setWord_of_ne _ _ fun hi => hne ⟨rfl, hi⟩
          · rw [Function.update_of_ne hu]
      · rw [look, if_neg h0]
        simp only [Fs.writeBlock, Function.update_self]
        exact word_setWord_self _ _ hp

/-- In a file of one pointer block, block 70 is stored for the logical block 15, and a store for block 300, in the
doubly indirect range, fails. -/
theorem bmap_set_law_small :
    (∃ s, ext2Bmap smallFs (onePointer 12 50 (by decide)) setFlags 15 70 = (s, .ok 70) ∧
      lookup s.1 s.2 15 = .ok 70 ∧ lookup s.1 s.2 16 = .ok 0) ∧
    ∃ e, ext2Bmap smallFs (onePointer 12 50 (by decide)) setFlags 300 70 =
      ((smallFs, onePointer 12 50 (by decide)), .error e) := by
  have hc : Consistent smallFs (onePointer 12 50 (by decide)) := onePointer_consistent
  obtain ⟨hset, -, -⟩ := bmap_set_law (l := 15) (p := 70) hc.distinct rfl (by decide)
  obtain ⟨-, hfails, hsame⟩ := bmap_set_law (l := 300) (p := 70) hc.distinct rfl (by decide)
  refine ⟨?_, ?_⟩
  · obtain ⟨s, hs⟩ : ∃ s, ext2Bmap smallFs (onePointer 12 50 (by decide)) setFlags 15 70 = (s, .ok 70) := ⟨_, rfl⟩
    obtain ⟨h1, h2⟩ := hset s 70 hs
    exact ⟨s, hs, h1, (h2 16 (by decide)).trans rfl⟩
  · obtain ⟨s, e, hs⟩ := hfails.2 ⟨[13], _, _, rfl, List.cons_ne_nil _ _, rfl⟩
    exact ⟨e, by rw [hs, hsame s e hs]⟩

end Pml.Ext2
