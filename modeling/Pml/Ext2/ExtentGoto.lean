import Pml.Ext2.BlockMap
import Pml.Ext2.ExtentIterate

/-!
# Looking a block up in an extent tree (`ext3_extent_goto`)

At each level the search goes to the next entry until its key is past the block, goes back one entry and then down.
It ends at the extent with the block, or with `ENOENT` in front of or behind the extents of the one leaf where the
block could be (`gotoLoop_node`).  A level below the root whose path was never set, or for which the array of paths
has no room, makes it undefined (`gotoLoop_bad`).
-/

namespace Pml.Ext2

open Runs

def ExtHandle.OnExtent (h : ExtHandle) (e : ExtEntry) : Prop :=
  h.level = h.maxDepth ∧ ∃ i, h.cur.curr = some i ∧ i < h.nd.count ∧ h.nd.slot i = e

/-- The search for a block finds the extent that has it, or reports that there is none; the tree stays as it is. -/
structure GotoFinds (h : ExtHandle) (b : Nat) : Prop where
  found : ∀ e ∈ h.inode.leaves h.fs, e.run.Covers b →
    ∃ h', ext3ExtentGoto 0 b h = .ok () h' ∧ h'.OnExtent e ∧ h'.fs = h.fs ∧ h'.inode = h.inode
  missing : (∀ e ∈ h.inode.leaves h.fs, ¬e.run.Covers b) →
    ∃ h', ext3ExtentGoto 0 b h = .error (.errno .ENOENT) h' ∧ h'.fs = h.fs ∧ h'.inode = h.inode

/-! ### Moves within a node -/

section

variable {h : ExtHandle} {L i : Nat} {nd : ExtNode}

theorem ExtHandle.At.nd_eq (ha : h.At L nd i) : h.nd = nd := by rw [ExtHandle.nd, ha.level, ha.node]

private theorem read_lblk (ha : h.At L nd i) (j : Nat) : (h.read j).lblk = (nd.slot j).block := by
  unfold ExtHandle.read
  rw [ha.nd_eq]
  split
  · rfl
  · rfl

private theorem read_len (ha : h.At L nd i) (hd : h.maxDepth = L) (j : Nat) : (h.read j).len = (nd.slot j).size := by
  unfold ExtHandle.read
  rw [ha.nd_eq, if_pos (ha.level.trans hd.symm)]
  rfl

private theorem get_nextSib (ha : h.At L nd i) (hi : i + 1 < nd.count) :
    ∃ h', ext3ExtentGet .nextSib h = .ok (h'.read (i + 1)) h' ∧ h'.At L nd (i + 1) ∧ h.Stays h' L ∧
      ∀ j, L < j → h'.path j = h.path j := by
  obtain ⟨h', hm, ha', -, hst, hpath⟩ := moveNextSib_at ha hi
  exact ⟨h', get_of_move (show pickMove .nextSib h = .ok .nextSib h from rfl) hm (by simp [ExtHandle.retry]),
    ha', hst, hpath⟩

private theorem get_nextSib_end (ha : h.At L nd i) (hi : nd.count ≤ i + 1) :
    ext3ExtentGet .nextSib h = .error (.errno .ESRCH) h := by
  obtain ⟨rfl, -, hlt, -, hleft⟩ := ha
  have hpos : h.cur.left ≤ 0 := by
    unfold ExtHandle.cur
    omega
  refine get_of_move_error (show pickMove .nextSib h = .ok .nextSib h from rfl) ?_
  unfold move moveNextSib
  simp only [if_pos hpos]

private theorem get_prevSib (ha : h.At L nd (i + 1)) :
    ∃ h', ext3ExtentGet .prevSib h = .ok (h'.read i) h' ∧ h'.At L nd i ∧ h.Stays h' L ∧
      ∀ j, L < j → h'.path j = h.path j := by
  have hnd' := ha.nd_eq
  obtain ⟨rfl, hnd, hlt, hcurr, hleft⟩ := ha
  have hcurr' : h.cur.curr = some (i + 1) := hcurr
  have hroom : ¬h.cur.left + 1 ≥ h.nd.count := by
    rw [hnd']
    unfold ExtHandle.cur
    omega
  have hm : move .prevSib .prevSib h = .ok (some i, false) (h.setPath h.level
      { h.cur with
        curr := some i
        left := h.cur.left + 1
        visitNum := if h.level < h.maxDepth then 1 else h.cur.visitNum }) := by
    unfold move movePrevSib
    simp only [hcurr', if_neg hroom, Nat.add_sub_cancel]
  refine ⟨_, get_of_move rfl hm (by simp [ExtHandle.retry]), ⟨rfl, ?_, by omega, ?_, ?_⟩, ?_, fun j hj => ?_⟩
  · rw [← hnd]
    exact node_congr rfl (by simp [ExtHandle.cur])
  · simp
  · simp only [setPath_path_self, ExtHandle.cur, hleft]
    omega
  · exact stays_setPath h (Nat.le_refl _) fun hs => hs
  · exact setPath_path_of_ne _ _ _ (by omega)

private theorem attempt_prevSib (ha : h.At L nd i) :
    ∃ r h', attempt (ext3ExtentGet .prevSib) h = .ok r h' ∧ h.Stays h' L := by
  cases i with
  | zero =>
    have hcurr : h.cur.curr = some 0 := by rw [ExtHandle.cur, ha.level, ha.curr]
    have hroom : h.cur.left + 1 ≥ h.nd.count := by
      rw [ha.nd_eq, ExtHandle.cur, ha.level, ha.left]
      omega
    have hget : ext3ExtentGet .prevSib h = .error (.errno .ESRCH) h := by
      refine get_of_move_error (show pickMove .prevSib h = .ok .prevSib h from rfl) ?_
      unfold move movePrevSib
      simp only [hcurr, if_pos hroom]
    exact ⟨_, h, attempt_errno hget, ⟨rfl, rfl, rfl, rfl, rfl, fun _ _ => rfl, fun _ hs => hs⟩⟩
  | succ i =>
    obtain ⟨h', hget, -, hst, -⟩ := get_prevSib ha
    exact ⟨_, h', attempt_ok hget, hst⟩

private theorem get_down (ha : h.At L nd i) (hd : L < h.maxDepth) (hu : h.Usable (L + 1)) {c : ExtBlock}
    (hc : c = h.fs.nodes (nd.slot i).ptr) (hval : c.node.headerValid h.fs.blksize = true)
    (hsum : h.fs.checksumValid c = true) (hpos : 0 < c.node.count) :
    ∃ h', ext3ExtentGet .down h = .ok (h'.read 0) h' ∧ h'.At (L + 1) c.node 0 ∧ h.Stays h' L ∧
      ∀ j, j ≠ L + 1 → h'.path j = h.path j := by
  obtain ⟨h', hm, ha', -, hst, hpath⟩ := moveDown_at ha hd hu hc hval hsum hpos
  exact ⟨h', get_of_move (show pickMove .down h = .ok .down h from rfl) hm (by simp [ExtHandle.retry]), ha', hst,
    hpath⟩

private theorem get_down_bad (ha : h.At L nd i) (hd : L < h.maxDepth) (hu : ¬h.Usable (L + 1)) :
    ext3ExtentGet .down h = .error .undefined h := by
  obtain ⟨rfl, -, -, hcurr, -⟩ := ha
  have hcurr' : h.cur.curr = some i := hcurr
  refine get_of_move_error (show pickMove .down h = .ok .down h from rfl) ?_
  unfold move moveDown
  simp only [hcurr', if_neg (Nat.not_le.2 hd)]
  by_cases hcap : h.cap ≤ h.level + 1
  · rw [if_pos hcap]
  · rw [if_neg hcap]
    have hbuf : (h.path (h.level + 1)).buffer = .stray := by
      by_contra hb
      exact hu ⟨by omega, hb⟩
    rw [hbuf]

end

/-! ### The loop at one level -/

private theorem entries_ordered {nd : ExtNode} (hasc : Ascending (nd.entries.map ExtEntry.run)) {i j : Nat}
    (hij : i < j) (hj : j < nd.count) : (nd.slot i).block + (nd.slot i).size ≤ (nd.slot j).block := by
  unfold Ascending at hasc
  rw [List.pairwise_map, ExtNode.entries, List.pairwise_map] at hasc
  have hle :=
    List.pairwise_iff_getElem.1 hasc i j (by rw [List.length_range]; omega) (by rw [List.length_range]; omega) hij
  rw [List.getElem_range, List.getElem_range] at hle
  exact hle

section

variable {h : ExtHandle} {L i b n : Nat} {nd : ExtNode} {extent : GenExt}

/-- Above the leaves the search goes to the next entry as long as its key is not past the block, and then down from
the last entry whose key is not. -/
private theorem gotoLoop_scan (hkeys : ∀ i, i + 1 < nd.count → (nd.slot i).block < (nd.slot (i + 1)).block) {m : Nat}
    (hm : nd.count - i = m) (hn : m ≤ n) (ha : h.At L nd i) (hd : L < h.maxDepth)
    (hi : i = 0 ∨ (nd.slot i).block ≤ b) :
    ∃ h' k n', gotoLoop 0 b n extent h = (ext3ExtentGet .down >>= gotoLoop 0 b n') h' ∧ n ≤ n' + m ∧ h'.At L nd k ∧
      (k = 0 ∨ (nd.slot k).block ≤ b) ∧ (k + 1 < nd.count → b < (nd.slot (k + 1)).block) ∧ h.Stays h' L ∧
      ∀ j, L < j → h'.path j = h.path j := by
  induction m generalizing h i n extent with
  | zero =>
    have hlt := ha.lt
    omega
  | succ m ih =>
    obtain ⟨n, rfl⟩ : ∃ n₀, n = n₀ + 1 := ⟨n - 1, by omega⟩
    have hlevel : ¬h.maxDepth - h.level = 0 := by
      rw [ha.level]
      omega
    rw [gotoLoop, get_bind]
    simp only [if_neg hlevel]
    by_cases hend : nd.count ≤ i + 1
    · -- the last entry
      rw [bind_ok (attempt_errno (get_nextSib_end ha hend))]
      exact ⟨h, i, n, rfl, by omega, ha, hi, fun hk => by omega,
        ⟨rfl, rfl, rfl, rfl, rfl, fun _ _ => rfl, fun _ hs => hs⟩, fun _ _ => rfl⟩
    · obtain ⟨h1, hget, ha1, hst1, hpath1⟩ := get_nextSib ha (by omega)
      rw [bind_ok (attempt_ok hget)]
      simp only [read_lblk ha1]
      by_cases heq : b = (nd.slot (i + 1)).block
      · rw [if_pos heq]
        refine ⟨h1, i + 1, n, rfl, by omega, ha1, Or.inr (by omega), fun hk => ?_, hst1, hpath1⟩
        have hnext := hkeys (i + 1) hk
        omega
      · rw [if_neg heq]
        by_cases hlt : (nd.slot (i + 1)).block < b
        · rw [if_pos hlt]
          obtain ⟨h2, k, n', hloop, hn', ha2, hk, hk', hst2, hpath2⟩ := @ih h1 (i + 1) n (h1.read (i + 1)) (by omega)
            (by omega) ha1 (by rw [hst1.maxDepth]; exact hd) (Or.inr (by omega))
          exact ⟨h2, k, n', hloop, by omega, ha2, hk, hk', hst1.trans hst2 (Nat.le_refl _), fun j hj =>
            (hpath2 j hj).trans (hpath1 j hj)⟩
        · -- one entry too far
          rw [if_neg hlt]
          obtain ⟨h2, hback, ha2, hst2, hpath2⟩ := get_prevSib ha1
          rw [bind_ok hback]
          exact ⟨h2, i, n, rfl, by omega, ha2, hi, fun _ => by omega, hst1.trans hst2 (Nat.le_refl _), fun j hj =>
            (hpath2 j hj).trans (hpath1 j hj)⟩

private theorem gotoLoop_leaf (hasc : Ascending (nd.entries.map ExtEntry.run)) {m : Nat} (hm : nd.count - i = m)
    (hn : m ≤ n) (ha : h.At L nd i) (hd : h.maxDepth = L) (hi : ∀ j < i, (nd.slot j).block + (nd.slot j).size ≤ b) :
    (∃ k h', gotoLoop 0 b n (h.read i) h = .ok () h' ∧ h'.At L nd k ∧ (nd.slot k).run.Covers b ∧ h.Stays h' L) ∨
    ((∀ k < nd.count, ¬(nd.slot k).run.Covers b) ∧
      ∃ h', gotoLoop 0 b n (h.read i) h = .error (.errno .ENOENT) h' ∧ h.Stays h' L) := by
  induction m generalizing h i n with
  | zero =>
    have hlt := ha.lt
    omega
  | succ m ih =>
    obtain ⟨n, rfl⟩ : ∃ n₀, n = n₀ + 1 := ⟨n - 1, by omega⟩
    have hlevel : h.maxDepth - h.level = 0 := by
      rw [ha.level]
      omega
    have hbefore : ∀ j < i, ¬(nd.slot j).run.Covers b := fun j hj hc => by
      have hle := hi j hj
      have hlt : b < (nd.slot j).block + (nd.slot j).size := hc.2
      omega
    rw [gotoLoop, get_bind]
    simp only [if_pos hlevel, read_lblk ha, read_len ha hd]
    by_cases hin : (nd.slot i).block ≤ b ∧ b < (nd.slot i).block + (nd.slot i).size
    · rw [if_pos hin]
      exact Or.inl ⟨i, h, rfl, ha, hin, ⟨rfl, rfl, rfl, rfl, rfl, fun _ _ => rfl, fun _ hs => hs⟩⟩
    rw [if_neg hin]
    by_cases hlow : b < (nd.slot i).block
    · -- the block is before the extent, and so before all that follow
      rw [if_pos hlow]
      obtain ⟨r, h', hprev, hst⟩ := attempt_prevSib ha
      rw [bind_ok hprev]
      refine Or.inr ⟨fun k hk hc => ?_, h', rfl, hst⟩
      rcases Nat.lt_trichotomy k i with hlt | rfl | hgt
      · exact hbefore k hlt hc
      · exact absurd hc.1 (Nat.not_le.2 hlow)
      · have horder := entries_ordered hasc hgt hk
        have hle : (nd.slot k).block ≤ b := hc.1
        omega
    rw [if_neg hlow]
    by_cases hend : nd.count ≤ i + 1
    · rw [bind_ok (attempt_errno (get_nextSib_end ha hend))]
      refine Or.inr ⟨fun k hk hc => ?_, h, rfl, ⟨rfl, rfl, rfl, rfl, rfl, fun _ _ => rfl, fun _ hs => hs⟩⟩
      rcases Nat.lt_or_ge k i with hlt | hge
      · exact hbefore k hlt hc
      · obtain rfl : k = i := by omega
        exact hin hc
    · obtain ⟨h1, hget, ha1, hst1, -⟩ := get_nextSib ha (by omega)
      rw [bind_ok (attempt_ok hget)]
      have hpast : ∀ j < i + 1, (nd.slot j).block + (nd.slot j).size ≤ b := fun j hj => by
        rcases Nat.lt_or_ge j i with hlt | hge
        · exact hi j hlt
        · obtain rfl : j = i := by omega
          omega
      rcases ih (by omega) (Nat.le_of_succ_le_succ hn) ha1 (by rw [hst1.maxDepth]; exact hd) hpast with
        ⟨k, h2, hloop, ha2, hc, hst2⟩ | ⟨hno, h2, hloop, hst2⟩
      · exact Or.inl ⟨k, h2, hloop, ha2, hc, hst1.trans hst2 (Nat.le_refl _)⟩
      · exact Or.inr ⟨hno, h2, hloop, hst1.trans hst2 (Nat.le_refl _)⟩

end

/-! ### From the root to a leaf -/

private theorem count_le_of_headerValid {nd : ExtNode} {size : Nat} (h : nd.headerValid size = true) :
    nd.count ≤ size := by
  simp only [ExtNode.headerValid, Bool.and_eq_true, decide_eq_true_eq] at h
  omega

/-- An extent with the block is below the entry that the search goes down from. -/
private theorem leaves_below_slot {fs : ExtFs} {d lo hi k b : Nat} {nd : ExtNode} (hwf : fs.WfNode (d + 1) lo hi nd)
    (hk : k = 0 ∨ (nd.slot k).block ≤ b) (hnext : k + 1 < nd.count → b < (nd.slot (k + 1)).block) (hlt : k < nd.count)
    {e : ExtEntry} (he : e ∈ fs.leaves (d + 1) nd) (hc : e.run.Covers b) :
    e ∈ fs.leaves d (fs.nodes (nd.slot k).ptr).node := by
  obtain ⟨-, -, hkeys, hchild⟩ := hwf
  obtain ⟨c, hcm, he⟩ := List.mem_flatMap.1 he
  obtain ⟨j, hj, rfl⟩ := mem_entries.1 hcm
  obtain ⟨-, hlow, hhigh⟩ := leaves_within (hchild j hj).2.2.2.2 e he
  obtain ⟨hb1, hb2⟩ : e.block ≤ b ∧ b < e.block + e.size := hc
  rcases Nat.lt_trichotomy j k with hjk | rfl | hjk
  · have hup : nd.upper hi j = (nd.slot (j + 1)).block := if_pos (by omega)
    have hle : (nd.slot (j + 1)).block ≤ (nd.slot k).block := by
      rcases Nat.eq_or_lt_of_le (Nat.succ_le_of_lt hjk) with h | h
      · rw [← h]
      · exact (keys_lt hkeys h hlt).le
    omega
  · exact he
  · have hle : (nd.slot (k + 1)).block ≤ (nd.slot j).block := by
      rcases Nat.eq_or_lt_of_le (Nat.succ_le_of_lt hjk) with h | h
      · rw [← h]
      · exact (keys_lt hkeys h hj).le
    have hb := hnext (by omega)
    omega

private theorem ExtHandle.Stays.usable {h h' : ExtHandle} {L j : Nat} (hst : h.Stays h' L) (hu : h.Usable j) :
    h'.Usable j :=
  ⟨hst.cap ▸ hu.1, fun hs => hu.2 (hst.stray j hs)⟩

/-- With paths for all levels the search ends at the extent with the block, or there is none. -/
private theorem gotoLoop_node (fs : ExtFs) (hsize : fs.blksize ≤ 2 ^ 16) {b : Nat} (d : Nat) :
    ∀ {h : ExtHandle} {L lo hi n : Nat} {nd : ExtNode}, fs.WfNode d lo hi nd → h.fs = fs → h.At L nd 0 →
      h.maxDepth = L + d → nd.count + d * 2 ^ 16 ≤ n → (∀ j, L < j → j ≤ h.maxDepth → h.Usable j) →
      (∃ e ∈ fs.leaves d nd, e.run.Covers b ∧
        ∃ h', gotoLoop 0 b n (h.read 0) h = .ok () h' ∧ h'.OnExtent e ∧ h.Stays h' L) ∨
      ((∀ e ∈ fs.leaves d nd, ¬e.run.Covers b) ∧
        ∃ h', gotoLoop 0 b n (h.read 0) h = .error (.errno .ENOENT) h' ∧ h.Stays h' L) := by
  induction d with
  | zero =>
    intro h L lo hi n nd hwf hfs ha hd hn _
    rcases gotoLoop_leaf hwf.1 rfl (by omega) ha hd (fun j hj => absurd hj (Nat.not_lt_zero j)) with
      ⟨k, h', hloop, ha', hc, hst⟩ | ⟨hno, h', hloop, hst⟩
    · refine Or.inl ⟨nd.slot k, slot_mem_entries ha'.lt, hc, h', hloop, ⟨?_, k, ?_, ?_, ?_⟩, hst⟩
      · rw [ha'.level, hst.maxDepth, hd]
        rfl
      · rw [ExtHandle.cur, ha'.level, ha'.curr]
      · rw [ha'.nd_eq]
        exact ha'.lt
      · rw [ha'.nd_eq]
    · refine Or.inr ⟨fun e he => ?_, h', hloop, hst⟩
      obtain ⟨k, hk, rfl⟩ := mem_entries.1 he
      exact hno k hk
  | succ d ih =>
    intro h L lo hi n nd hwf hfs ha hd hn hu
    obtain ⟨h1, k, n', hloop, hn', ha1, hk, hnext, hst1, -⟩ := @gotoLoop_scan h L 0 b n nd (h.read 0) hwf.2.2.1
      nd.count rfl (by omega) ha (by omega) (Or.inl rfl)
    obtain ⟨-, hval, hsum, hpos, hwfc⟩ := hwf.2.2.2 k ha1.lt
    have hfs1 : h1.fs = fs := hst1.fs.trans hfs
    obtain ⟨h2, hdown, ha2, hst2, -⟩ := get_down ha1 (by rw [hst1.maxDepth]; omega)
      (hst1.usable (hu _ (Nat.lt_succ_self L) (by omega))) rfl (by rw [hfs1]; exact hval) (by rw [hfs1]; exact hsum)
      (by rw [hfs1]; exact hpos)
    rw [hfs1] at ha2
    have hst := hst1.trans hst2 (Nat.le_refl _)
    have hcount := count_le_of_headerValid hval
    have hchild : ∀ e ∈ fs.leaves d (fs.nodes (nd.slot k).ptr).node, e ∈ fs.leaves (d + 1) nd := fun e he =>
      List.mem_flatMap.2 ⟨_, slot_mem_entries ha1.lt, he⟩
    rw [hloop, bind_ok hdown]
    rcases ih (n := n') hwfc (hst.fs.trans hfs) ha2 (by rw [hst.maxDepth, hd]; omega) (by omega) (fun j hj hj' =>
        hst.usable (hu j (by omega) (by rw [hst.maxDepth] at hj'; exact hj'))) with
      ⟨e, he, hc, h3, hgo, hon, hst3⟩ | ⟨hno, h3, hgo, hst3⟩
    · exact Or.inl ⟨e, hchild e he, hc, h3, hgo, hon, hst.trans hst3 (Nat.le_succ L)⟩
    · refine Or.inr ⟨fun e he hc => ?_, h3, hgo, hst.trans hst3 (Nat.le_succ L)⟩
      exact hno e (leaves_below_slot hwf hk hnext ha1.lt he hc) hc

private theorem gotoLoop_bad (fs : ExtFs) (hsize : fs.blksize ≤ 2 ^ 16) {b : Nat} (d : Nat) :
    ∀ {h : ExtHandle} {L lo hi n : Nat} {nd : ExtNode}, fs.WfNode d lo hi nd → h.fs = fs → h.At L nd 0 →
      h.maxDepth = L + d → nd.count + d * 2 ^ 16 ≤ n → (∃ j, L < j ∧ j ≤ h.maxDepth ∧ ¬h.Usable j) →
      ∃ h', gotoLoop 0 b n (h.read 0) h = .error .undefined h' := by
  induction d with
  | zero =>
    intro h L lo hi n nd _ _ _ hd _ ⟨j, hj, hj', _⟩
    omega
  | succ d ih =>
    intro h L lo hi n nd hwf hfs ha hd hn ⟨j, hj, hj', hbad⟩
    obtain ⟨h1, k, n', hloop, hn', ha1, hk, hnext, hst1, hpath1⟩ := @gotoLoop_scan h L 0 b n nd (h.read 0) hwf.2.2.1
      nd.count rfl (by omega) ha (by omega) (Or.inl rfl)
    have hsame1 : ∀ i, L < i → (h1.Usable i ↔ h.Usable i) := fun i hi => by
      rw [ExtHandle.Usable, ExtHandle.Usable, hst1.cap, hpath1 i hi]
    rw [hloop]
    by_cases hu : h.Usable (L + 1)
    · obtain ⟨-, hval, hsum, hpos, hwfc⟩ := hwf.2.2.2 k ha1.lt
      have hfs1 : h1.fs = fs := hst1.fs.trans hfs
      obtain ⟨h2, hdown, ha2, hst2, hpath2⟩ := get_down ha1 (by rw [hst1.maxDepth]; omega)
        ((hsame1 _ (Nat.lt_succ_self L)).2 hu) rfl (by rw [hfs1]; exact hval) (by rw [hfs1]; exact hsum)
        (by rw [hfs1]; exact hpos)
      rw [hfs1] at ha2
      have hst := hst1.trans hst2 (Nat.le_refl _)
      have hcount := count_le_of_headerValid hval
      have hlater : L + 1 < j := by
        rcases Nat.eq_or_lt_of_le (Nat.succ_le_of_lt hj) with heq | hlt
        · exact absurd (heq ▸ hu) hbad
        · exact hlt
      rw [bind_ok hdown]
      refine ih hwfc (hst.fs.trans hfs) ha2 (by rw [hst.maxDepth, hd]; omega) (by omega)
        ⟨j, hlater, by rw [hst.maxDepth]; exact hj', fun hu2 => hbad ?_⟩
      refine (hsame1 j (by omega)).1 ?_
      rw [ExtHandle.Usable, hst2.cap, hpath2 j (by omega)] at hu2
      exact hu2
    · refine ⟨h1, bind_error (get_down_bad ha1 (by rw [hst1.maxDepth]; omega) fun hu1 => hu ?_)⟩
      exact (hsame1 _ (Nat.lt_succ_self L)).1 hu1

private theorem eq_of_covers {l : List ExtEntry} (hl : Ascending (l.map ExtEntry.run)) {e e' : ExtEntry} {b : Nat}
    (he : e ∈ l) (he' : e' ∈ l) (hc : e.run.Covers b) (hc' : e'.run.Covers b) : e = e' := by
  unfold Ascending at hl
  rw [List.pairwise_map, List.pairwise_iff_getElem] at hl
  obtain ⟨i, hi, rfl⟩ := List.getElem_of_mem he
  obtain ⟨j, hj, rfl⟩ := List.getElem_of_mem he'
  rcases Nat.lt_trichotomy i j with hij | rfl | hij
  · exact absurd (Nat.lt_of_lt_of_le hc.2 (Nat.le_trans (hl i j hi hj hij) hc'.1)) (Nat.lt_irrefl b)
  · rfl
  · exact absurd (Nat.lt_of_lt_of_le hc'.2 (Nat.le_trans (hl j i hj hi hij) hc.1)) (Nat.lt_irrefl b)

theorem ext3ExtentGoto_root {h h1 : ExtHandle} {b : Nat} (hget : ext3ExtentGet .root h = .ok (h1.read 0) h1) :
    ext3ExtentGoto 0 b h = gotoLoop 0 b ((h1.maxDepth + 1) * 2 ^ 17) (h1.read 0) h1 := by
  unfold ext3ExtentGoto
  rw [bind_ok (attempt_ok hget)]
  dsimp only
  rw [get_bind, if_neg (Nat.not_lt_zero _)]

/-- From any position of the cursor the search in a well-formed tree finds the blocks that are there and no others, if
and only if the paths of all levels below the root can be used. -/
theorem extent_goto_iff {h : ExtHandle} (hw : h.inode.Wf h.fs) (hd : h.maxDepth = h.inode.root.depth)
    (hsize : h.fs.BlockSize) (b : Nat) : GotoFinds h b ↔ ∀ i, 1 ≤ i → i ≤ h.maxDepth → h.Usable i := by
  have hblk : h.fs.blksize ≤ 2 ^ 16 := by
    obtain ⟨e, he, hb⟩ := hsize
    have hpow : 2 ^ e ≤ 2 ^ 6 := Nat.pow_le_pow_right (by decide) he
    omega
  have htree := hw.tree
  rw [← hd] at htree
  rcases Nat.eq_zero_or_pos h.inode.root.count with h0 | hpos
  · -- only a leaf can be empty
    have hdepth : h.maxDepth = 0 := by
      cases hm : h.maxDepth with
      | zero => rfl
      | succ d =>
        rw [hm] at htree
        exact absurd htree.1 (by omega)
    have hleaves : h.inode.leaves h.fs = [] := by
      unfold ExtInode.leaves
      rw [← hd, hdepth]
      simp [ExtFs.leaves, ExtNode.entries, h0]
    have hgo : ext3ExtentGoto 0 b h = .error (.errno .ENOENT) h.toRoot := by
      unfold ext3ExtentGoto
      rw [bind_ok (attempt_errno (get_root_empty h0))]
      rfl
    refine iff_of_true ⟨fun e he => ?_, fun _ => ⟨_, hgo, rfl, rfl⟩⟩ fun i h1 hi => by omega
    rw [hleaves] at he
    cases he
  obtain ⟨h1, hget, ha1, -, hst1, hpath1⟩ := get_root hpos
  have hd1 : h1.maxDepth = 0 + h.maxDepth := by rw [hst1.maxDepth, Nat.zero_add]
  have hcount := count_le_of_headerValid hw.header
  dsimp only [rootSize] at hcount
  have hfuel : h.inode.root.count + h.maxDepth * 2 ^ 16 ≤ (h1.maxDepth + 1) * 2 ^ 17 := by
    rw [hd1]
    omega
  have hsame : ∀ i, 0 < i → (h1.Usable i ↔ h.Usable i) := fun i hi => by
    rw [ExtHandle.Usable, ExtHandle.Usable, hst1.cap, hpath1 i hi]
  have hgo := ext3ExtentGoto_root (b := b) hget
  by_cases hall : ∀ i, 1 ≤ i → i ≤ h.maxDepth → h.Usable i
  · refine iff_of_true ?_ hall
    have hres := gotoLoop_node h.fs hblk (b := b) h.maxDepth htree hst1.fs ha1 hd1 hfuel fun j hj hj' =>
      (hsame j hj).2 (hall j hj (by omega))
    rw [← hgo] at hres
    rw [show h.fs.leaves h.maxDepth h.inode.root = h.inode.leaves h.fs by rw [ExtInode.leaves, ← hd]] at hres
    rcases hres with ⟨e, he, hc, h2, hok, hon, hst2⟩ | ⟨hno, h2, herr, hst2⟩
    · refine ⟨fun e' he' hc' => ?_, fun hno => absurd hc (hno e he)⟩
      obtain rfl := eq_of_covers hw.ascending he' he hc' hc
      exact ⟨h2, hok, hon, hst2.fs.trans hst1.fs, hst2.inode.trans hst1.inode⟩
    · exact ⟨fun e he hc => absurd hc (hno e he),
        fun _ => ⟨h2, herr, hst2.fs.trans hst1.fs, hst2.inode.trans hst1.inode⟩⟩
  · refine iff_of_false (fun hf => ?_) hall
    push Not at hall
    obtain ⟨j, hj, hj', hbad⟩ := hall
    obtain ⟨h2, hbad⟩ := gotoLoop_bad h.fs hblk (b := b) h.maxDepth htree hst1.fs ha1 hd1 hfuel
      ⟨j, hj, by omega, fun hu => hbad ((hsame j hj).1 hu)⟩
    rw [← hgo] at hbad
    by_cases hex : ∃ e ∈ h.inode.leaves h.fs, e.run.Covers b
    · obtain ⟨e, he, hc⟩ := hex
      obtain ⟨h3, hok, -⟩ := hf.found e he hc
      rw [hbad] at hok
      cases hok
    · push Not at hex
      obtain ⟨h3, herr, -⟩ := hf.missing hex
      rw [hbad] at herr
      cases herr

/-- A handle of a tree of depth 1; `b` tells whether the memory of the paths holds a pointer for level 1. -/
def smallHandle (b : Bool) : ExtHandle :=
  freshHandle smallExtFs (smallExtInode (nodeOf 1 4 [ExtEntry.of 0 50 0]))
    (smallExtInode (nodeOf 1 4 [ExtEntry.of 0 50 0]))
    ⟨fun _ => b, fun _ => 0, ⟨0, 0, 0, false, false, false⟩⟩

/-- The extent of the blocks 2 to 4 is found for block 3. -/
theorem extent_goto_iff_small : GotoFinds (smallHandle false) 3 := by
  refine (extent_goto_iff (h := smallHandle false) smallTree_wf rfl ⟨0, by decide, rfl⟩ 3).2 fun i h1 hi => ?_
  have hle : i ≤ 1 := hi
  obtain rfl : i = 1 := by omega
  exact ⟨by decide, fun h => by cases h⟩

/-- The search in a handle that was opened with other memory follows a pointer that was never set. -/
theorem not_extent_goto : (smallHandle true).inode.Wf (smallHandle true).fs ∧ ¬GotoFinds (smallHandle true) 3 := by
  refine ⟨smallTree_wf, fun hf => ?_⟩
  obtain ⟨h', hok, -⟩ := hf.found (ExtEntry.of 2 20 3) (by decide) (by decide)
  have hrun : (match ext3ExtentGoto 0 3 (smallHandle true) with
    | .ok _ _ => true
    | .error _ _ => false) = false := rfl
  rw [hok] at hrun
  cases hrun

end Pml.Ext2
