import Pml.Ext2.ExtentTree

/-!
# Iterating over the extents of a file (`drivers/fs/ext2/util.c`)

The branch of `ext2_block_iterate` for files with extents, with the flag `BLOCK_FLAG_DATA_ONLY` only and a callback
that returns zero and leaves its block as it is.  The loop asks for the next extent before it calls back for the
blocks of the current one, and keeps the result as the flags of the callbacks.
-/

namespace Pml.Ext2

open Runs

def GenExt.callsFrom (e : GenExt) (block : Nat) : List (Nat × Nat) :=
  (List.range e.len).map fun j => (e.lblk + j, block + j)

def GenExt.calls (e : GenExt) : List (Nat × Nat) := e.callsFrom e.pblk

/-- The extent of a round: the one that was read before, or else the one that `ext3_extent_get` returns. -/
def currentExtent (extent : Option GenExt) (op : ExtOp) : ExtM (Except Fault GenExt) :=
  match extent with
  | some extent => pure (.ok extent)
  | none => attempt (ext3ExtentGet op)

/-- The loop of `ext2_block_iterate`, with the number of rounds that remain; the result is `none` if it needs more
rounds, and otherwise the logical and physical blocks given to the callback.  The extent is `some` when `op` is
`EXT2_EXTENT_CURRENT`. -/
def iterateExtents : Nat → Option GenExt → ExtOp → Nat → List (Nat × Nat) → ExtM (Option (List (Nat × Nat)))
  | 0, _, _, _, _ => pure none
  | n + 1, extent, op, blkcnt, calls => do
    match ← currentExtent extent op with
    | .error (.errno .ESRCH) => pure (some calls)
    | .error e => throw e
    | .ok extent =>
      if extent.leaf = false then iterateExtents n none .next blkcnt calls
      else do
        let next ← attempt (ext3ExtentGet .next)
        if extent.lblk + extent.len ≤ blkcnt then iterateExtents n none .next blkcnt calls
        else
          -- the calls start at the block that belongs to `blkcnt`, but with the first logical block of the extent
          let block := extent.pblk + (blkcnt - extent.lblk)
          match next with
          | .ok next =>
            iterateExtents n (some next) .next (extent.lblk + extent.len) (calls ++ extent.callsFrom block)
          -- all bits of the result are set, also `BLOCK_ABORT`
          | .error _ =>
            if extent.len = 0 then iterateExtents n none .next extent.lblk calls
            else pure (some (calls ++ [(extent.lblk, block)]))

/-- `ext2_block_iterate` on a file with extents.  If the tree cannot be opened, no error is reported. -/
def ext2BlockIterateExtents (n : Nat) (fs : ExtFs) (inode saved : ExtInode) (g : Garbage) :
    Except Fault (Option (List (Nat × Nat))) :=
  match ext3ExtentOpen fs inode saved g with
  | .error _ => .ok (some [])
  | .ok h =>
    match (do
      let r ← attempt (iterateExtents n none .root 0 [])
      ext3ExtentFree
      match r with
      | .ok calls => pure calls
      | .error e => throw e) h with
    | .ok calls _ => .ok calls
    | .error e _ => .error e

/-- The iteration returns zero, and the callback was called once for each block of an extent, in ascending order, and
for nothing else. -/
def ExtentIterationAgrees (fs : ExtFs) (inode saved : ExtInode) (g : Garbage) : Prop :=
  ∃ n calls, ext2BlockIterateExtents n fs inode saved g = .ok (some calls) ∧
    calls.Pairwise (fun a b => a.1 < b.1) ∧
    ∀ k p, (k, p) ∈ calls ↔ ∃ u, inode.mapping fs k = some (p, u)

/-! ### Moves to the next entry -/

section

variable {h : ExtHandle} {L i : Nat} {nd : ExtNode}

/-- The cursor is on the slot `i` of the node `nd` at the level `L`. -/
structure ExtHandle.At (h : ExtHandle) (L : Nat) (nd : ExtNode) (i : Nat) : Prop where
  level : h.level = L
  node : h.node L = nd
  lt : i < nd.count
  curr : (h.path L).curr = some i
  left : (h.path L).left = nd.count - 1 - i

/-- The part of the handle that moves below the level `L` leave as it is. -/
structure ExtHandle.Stays (h h' : ExtHandle) (L : Nat) : Prop where
  fs : h'.fs = h.fs
  inode : h'.inode = h.inode
  maxDepth : h'.maxDepth = h.maxDepth
  maxPaths : h'.maxPaths = h.maxPaths
  cap : h'.cap = h.cap
  path : ∀ j < L, h'.path j = h.path j
  stray : ∀ j, (h'.path j).buffer = .stray → (h.path j).buffer = .stray

theorem ExtHandle.Stays.trans {h h' h'' : ExtHandle} {L M : Nat} (h1 : h.Stays h' L) (h2 : h'.Stays h'' M)
    (hM : L ≤ M) :
    h.Stays h'' L where
  fs := h2.fs.trans h1.fs
  inode := h2.inode.trans h1.inode
  maxDepth := h2.maxDepth.trans h1.maxDepth
  maxPaths := h2.maxPaths.trans h1.maxPaths
  cap := h2.cap.trans h1.cap
  path := fun j hj => (h2.path j (by omega)).trans (h1.path j hj)
  stray := fun j hj => h1.stray j (h2.stray j hj)

theorem stays_setPath (h : ExtHandle) {L j : Nat} {p : ExtPath} (hj : L ≤ j)
    (hp : p.buffer = .stray → (h.path j).buffer = .stray) :
    h.Stays (h.setPath j p) L := by
  refine ⟨rfl, rfl, rfl, rfl, rfl, ?_, ?_⟩
  · intro k hk
    exact setPath_path_of_ne h j p (by omega)
  · intro k hk
    by_cases hkj : k = j
    · subst hkj
      rw [setPath_path_self] at hk
      exact hp hk
    · rwa [setPath_path_of_ne h j p hkj] at hk

private theorem pickMove_next (hv : h.level < h.maxDepth → h.cur.visitNum ≠ 0) : pickMove .next h =
    if 0 < h.cur.left then .ok .nextSib h else if 0 < h.level then .ok .up h else .error (.errno .ESRCH) h := by
  have hc : ¬ (h.level < h.maxDepth ∧ h.cur.visitNum = 0) := fun hc => hv hc.1 hc.2
  simp only [pickMove, true_or, ↓reduceIte, hc]

theorem moveNextSib_at (ha : h.At L nd i) (hi : i + 1 < nd.count) :
    ∃ h', moveNextSib h = .ok (some (i + 1), false) h' ∧ h'.At L nd (i + 1) ∧ (h'.path L).visitNum = 0 ∧
      h.Stays h' L ∧ ∀ j, L < j → h'.path j = h.path j := by
  obtain ⟨rfl, hnd, hlt, hcurr, hleft⟩ := ha
  have hcurr' : h.cur.curr = some i := hcurr
  have hpos : 0 < h.cur.left := by unfold ExtHandle.cur; omega
  have hm : moveNextSib h = .ok (some (i + 1), false)
      (h.setPath h.level { h.cur with left := h.cur.left - 1, curr := some (i + 1), visitNum := 0 }) := by
    unfold moveNextSib
    simp only [if_neg (Int.not_le.2 hpos), hcurr']
  refine ⟨_, hm, ⟨rfl, ?_, hi, ?_, ?_⟩, ?_, ?_, fun j hj => ?_⟩
  · rw [← hnd]
    exact node_congr rfl (by simp [ExtHandle.cur])
  · simp
  · simp only [setPath_path_self, ExtHandle.cur, hleft]
    omega
  · simp
  · exact stays_setPath h (Nat.le_refl _) (fun hs => hs)
  · exact setPath_path_of_ne _ _ _ (by omega)

private theorem next_sib (ha : h.At L nd i) (hv : L < h.maxDepth → (h.path L).visitNum ≠ 0) (hi : i + 1 < nd.count) :
    ∃ h', ext3ExtentGet .next h = .ok (h'.read (i + 1)) h' ∧ h'.At L nd (i + 1) ∧ (h'.path L).visitNum = 0 ∧
      h.Stays h' L := by
  have hpos : 0 < h.cur.left := by
    rw [ExtHandle.cur, ha.level, ha.left]
    omega
  have hp : pickMove .next h = .ok .nextSib h := by
    rw [pickMove_next (by unfold ExtHandle.cur; rw [ha.level]; exact hv), if_pos hpos]
  obtain ⟨h', hm, ha', hv', hst, -⟩ := moveNextSib_at ha hi
  exact ⟨h', get_of_move hp hm (by simp [ExtHandle.retry]), ha', hv', hst⟩

private theorem next_up (ha : h.At (L + 1) nd (nd.count - 1))
    (hv : L + 1 < h.maxDepth → (h.path (L + 1)).visitNum ≠ 0)
    {j : Nat} (hj : (h.path L).curr = some j) (hd : L < h.maxDepth) :
    ∃ h' e, ext3ExtentGet .next h = .ok e h' ∧ e.leaf = false ∧ h' = { h with level := L } := by
  obtain ⟨hlev, hnd, hlt, hcurr, hleft⟩ := ha
  have hleft0 : ¬ 0 < h.cur.left := by
    unfold ExtHandle.cur
    rw [hlev]
    omega
  have hp : pickMove .next h = .ok .up h := by
    rw [pickMove_next (by unfold ExtHandle.cur; rw [hlev]; exact hv), if_neg hleft0, if_pos (by omega)]
  have hm : move .next .up h = .ok (some j, false) { h with level := L } := by
    have hset : h.setPath L (h.path L) = h := by
      unfold ExtHandle.setPath
      rw [Function.update_eq_self]
    unfold move moveUp
    simp only [hlev, Nat.add_eq_zero_iff, Nat.one_ne_zero, and_false, ↓reduceIte, Nat.add_sub_cancel, hj,
      reduceCtorEq, or_self]
    rw [← hj, hset]
  refine ⟨_, _, get_of_move hp hm (by simp [ExtHandle.retry]), ?_, rfl⟩
  unfold ExtHandle.read
  rw [if_neg (by simp only []; omega)]

private theorem next_end (ha : h.At 0 nd (nd.count - 1)) (hv : 0 < h.maxDepth → (h.path 0).visitNum ≠ 0) :
    ext3ExtentGet .next h = .error (.errno .ESRCH) h := by
  obtain ⟨hlev, hnd, hlt, hcurr, hleft⟩ := ha
  have hleft0 : ¬ 0 < h.cur.left := by
    unfold ExtHandle.cur
    rw [hlev]
    omega
  refine get_of_pick_error ?_
  rw [pickMove_next (by unfold ExtHandle.cur; rw [hlev]; exact hv), if_neg hleft0, if_neg (by omega)]

private theorem pickMove_next_down (hd : h.level < h.maxDepth) (hv : h.cur.visitNum = 0) :
    pickMove .next h = .ok .down (h.setPath h.level { h.cur with visitNum := 1 }) := by
  simp only [pickMove, true_or, ↓reduceIte, hd, hv, and_self]

def ExtHandle.Usable (h : ExtHandle) (i : Nat) : Prop := i < h.cap ∧ (h.path i).buffer ≠ .stray

theorem moveDown_at (ha : h.At L nd i) (hd : L < h.maxDepth) (hu : h.Usable (L + 1)) {c : ExtBlock}
    (hc : c = h.fs.nodes (nd.slot i).ptr) (hval : c.node.headerValid h.fs.blksize = true)
    (hsum : h.fs.checksumValid c = true) (hpos : 0 < c.node.count) :
    ∃ h', moveDown false h = .ok (some 0, false) h' ∧ h'.At (L + 1) c.node 0 ∧ (h'.path (L + 1)).visitNum = 0 ∧
      h.Stays h' L ∧ ∀ j, j ≠ L + 1 → h'.path j = h.path j := by
  have hnd : h.nd = nd := by rw [ExtHandle.nd, ha.level, ha.node]
  obtain ⟨rfl, -, hlt, hcurr, hleft⟩ := ha
  have hcurr' : h.cur.curr = some i := hcurr
  have hm : moveDown false h = .ok (some 0, false)
      { h.setPath (h.level + 1) (downPath h i c.node false) with level := h.level + 1 } := by
    have hcap := hu.1
    have hbuf := hu.2
    unfold moveDown
    simp only [hcurr', if_neg (Nat.not_le.2 hd), if_neg (Nat.not_le.2 hcap), hnd, ← hc]
    simp only [hval, hsum, Bool.true_eq_false, Bool.false_eq_true, false_and, ↓reduceIte, Bool.not_true]
    rfl
  refine ⟨_, hm, ⟨rfl, ?_, hpos, ?_, ?_⟩, ?_, ?_, fun j hj => ?_⟩
  · unfold ExtHandle.node
    rw [if_neg (by omega)]
    simp only [setPath_path_self, downPath]
  · simp [downPath]
  · simp [downPath]
  · simp [downPath]
  · have hst := stays_setPath h (L := h.level) (j := h.level + 1) (p := downPath h i c.node false) (by omega)
      (fun hb => by simp [downPath] at hb)
    exact ⟨hst.fs, hst.inode, hst.maxDepth, hst.maxPaths, hst.cap, hst.path, hst.stray⟩
  · exact setPath_path_of_ne _ _ _ hj

/-- `NEXT` goes down to the first entry of a child that was not visited. -/
private theorem next_down (ha : h.At L nd i) (hd : L < h.maxDepth) (hv : (h.path L).visitNum = 0)
    (hcap : h.maxDepth < h.cap)
    (hs : (h.path (L + 1)).buffer ≠ .stray) {c : ExtBlock} (hc : c = h.fs.nodes (nd.slot i).ptr)
    (hval : c.node.headerValid h.fs.blksize = true) (hsum : h.fs.checksumValid c = true) (hpos : 0 < c.node.count) :
    ∃ h', ext3ExtentGet .next h = .ok (h'.read 0) h' ∧ h'.At (L + 1) c.node 0 ∧ (h'.path (L + 1)).visitNum = 0 ∧
      h'.path L = { h.path L with visitNum := 1 } ∧ h.Stays h' L ∧ ∀ j, L + 1 < j → h'.path j = h.path j := by
  have hlev := ha.level
  have hp : pickMove .next h = .ok .down (h.setPath L { h.path L with visitNum := 1 }) := by
    have hdown := pickMove_next_down (h := h) (by omega) (by rw [ExtHandle.cur, hlev]; exact hv)
    rwa [ExtHandle.cur, hlev] at hdown
  generalize hh1 : h.setPath L { h.path L with visitNum := 1 } = h1 at hp
  have hpath1 : h1.path L = { h.path L with visitNum := 1 } := by rw [← hh1, setPath_path_self]
  have hother1 : ∀ j, j ≠ L → h1.path j = h.path j := fun j hj => by rw [← hh1, setPath_path_of_ne _ _ _ hj]
  have hst1 : h.Stays h1 L := by
    rw [← hh1]
    exact stays_setPath h (Nat.le_refl _) (fun hs => hs)
  have ha1 : h1.At L nd i := by
    refine ⟨by rw [← hh1]; exact hlev, ?_, ha.lt, by rw [hpath1]; exact ha.curr, by rw [hpath1]; exact ha.left⟩
    rw [← ha.node]
    exact node_congr hst1.inode (by rw [hpath1])
  obtain ⟨h2, hm, ha2, hv2, hst2, hpath2⟩ := moveDown_at ha1 (by rw [hst1.maxDepth]; exact hd)
    ⟨by rw [hst1.cap]; omega, by rw [hother1 _ (by omega)]; exact hs⟩ (by rw [hst1.fs]; exact hc)
    (by rw [hst1.fs]; exact hval) (by rw [hst1.fs]; exact hsum) hpos
  refine ⟨h2, get_of_move hp hm (by simp [ExtHandle.retry]), ha2, hv2, ?_, hst1.trans hst2 (Nat.le_refl _),
    fun j hj => ?_⟩
  · rw [hpath2 L (by omega), hpath1]
  · rw [hpath2 j (by omega), hother1 j (by omega)]

/-! ### The whole tree -/

private theorem read_leaf (ha : h.At L nd i) (hv : (h.path L).visitNum = 0) (hd : h.maxDepth = L) :
    h.read i = (nd.slot i).gen false := by
  unfold ExtHandle.read
  rw [if_pos (by rw [ha.level, hd])]
  have hnd : h.nd = nd := by rw [ExtHandle.nd, ha.level, ha.node]
  have hcur : h.cur.visitNum = 0 := by rw [ExtHandle.cur, ha.level, hv]
  simp [hnd, hcur]

private theorem read_index (ha : h.At L nd i) (hd : L < h.maxDepth) : (h.read i).leaf = false := by
  unfold ExtHandle.read
  rw [if_neg (by rw [ha.level]; omega)]

/-- Successful calls for `NEXT` one after the other. -/
inductive Nexts : ExtHandle → List GenExt → ExtHandle → Prop
  | nil (h : ExtHandle) : Nexts h [] h
  | cons {h h1 h2 : ExtHandle} {e : GenExt} {es : List GenExt} (hn : ext3ExtentGet .next h = .ok e h1)
      (hr : Nexts h1 es h2) : Nexts h (e :: es) h2

theorem Nexts.append {h h1 h2 : ExtHandle} {es fs : List GenExt} (h1s : Nexts h es h1) (h2s : Nexts h1 fs h2) :
    Nexts h (es ++ fs) h2 := by
  induction h1s with
  | nil h => exact h2s
  | cons hn hr ih => exact Nexts.cons hn (ih h2s)

/-- The extents after the slot `i` of a leaf, or below the slots from `i` on of another node. -/
def ExtFs.leavesFrom (fs : ExtFs) : Nat → ExtNode → Nat → List ExtEntry
  | 0, nd, i => (List.range' (i + 1) (nd.count - (i + 1))).map nd.slot
  | d + 1, nd, i => (List.range' i (nd.count - i)).flatMap fun j => fs.leaves d (fs.nodes (nd.slot j).ptr).node

def leafExtents (es : List GenExt) : List GenExt := es.filter fun e => e.leaf

private theorem range'_pred {i n : Nat} (h : i < n) :
    List.range' i (n - i) = i :: List.range' (i + 1) (n - (i + 1)) := by
  rw [show n - i = n - (i + 1) + 1 by omega, List.range'_succ]

private theorem nexts_leaf (ha : h.At L nd i) (hd : h.maxDepth = L) (fs : ExtFs) :
    ∃ es h', Nexts h es h' ∧ es = (fs.leavesFrom 0 nd i).map (·.gen false) ∧ h.Stays h' L ∧
      h'.At L nd (nd.count - 1) := by
  obtain ⟨m, hm⟩ : ∃ m, nd.count - 1 - i = m := ⟨_, rfl⟩
  have hlt := ha.lt
  induction m generalizing h i with
  | zero =>
    have hi : i = nd.count - 1 := by omega
    refine ⟨[], h, Nexts.nil h, ?_, ⟨rfl, rfl, rfl, rfl, rfl, fun _ _ => rfl, fun _ hs => hs⟩, hi ▸ ha⟩
    simp [ExtFs.leavesFrom, show nd.count - (i + 1) = 0 by omega]
  | succ m ih =>
    obtain ⟨h1, hn, ha1, hv1, hst1⟩ := next_sib ha (fun hlt => by omega) (by omega)
    have hd1 : h1.maxDepth = L := by rw [hst1.maxDepth, hd]
    obtain ⟨es, h2, hns, hes, hst2, ha2⟩ := ih ha1 hd1 (by omega) ha1.lt
    refine ⟨_, h2, Nexts.cons hn hns, ?_, hst1.trans hst2 (Nat.le_refl _), ha2⟩
    rw [read_leaf ha1 hv1 hd1]
    rw [ExtFs.leavesFrom] at hes ⊢
    rw [range'_pred (by omega), hes]
    rfl

private theorem leafExtents_map_gen (l : List ExtEntry) :
    leafExtents (l.map (·.gen false)) = l.map (·.gen false) := by
  unfold leafExtents
  refine List.filter_eq_self.2 fun e he => ?_
  obtain ⟨x, -, rfl⟩ := List.mem_map.1 he
  rfl

private theorem leaves_eq_first (fs : ExtFs) (d : Nat) {nd : ExtNode} (hpos : 0 < nd.count) :
    fs.leaves d nd = (if d = 0 then [nd.slot 0] else []) ++ fs.leavesFrom d nd 0 := by
  cases d with
  | zero =>
    have hr := range'_pred hpos
    simp only [ExtFs.leaves, ExtNode.entries, ExtFs.leavesFrom, ↓reduceIte, List.range_eq_range']
    rw [Nat.sub_zero] at hr
    rw [hr]
    rfl
  | succ d =>
    simp only [ExtFs.leaves, ExtNode.entries, ExtFs.leavesFrom, Nat.add_eq_zero_iff, Nat.one_ne_zero, and_false,
      ↓reduceIte, List.nil_append, Nat.sub_zero, List.range_eq_range', List.flatMap_map]

def ExtHandle.Clean (h : ExtHandle) (L : Nat) : Prop :=
  h.maxDepth < h.cap ∧ ∀ j, L < j → j ≤ h.maxDepth → (h.path j).buffer ≠ .stray

theorem ExtHandle.Stays.clean {h h' : ExtHandle} {L M : Nat} (hst : h.Stays h' M) (hc : h.Clean L) : h'.Clean L := by
  constructor
  · rw [hst.maxDepth, hst.cap]
    exact hc.1
  · intro j hj hjd hs
    rw [hst.maxDepth] at hjd
    exact hc.2 j hj hjd (hst.stray j hs)

/-- From an entry whose part of the tree was not visited, `NEXT` reaches all extents below it and below the entries
after it, and stops at the last entry of the node. -/
private theorem nexts_node (fs : ExtFs) : ∀ (d : Nat) {h : ExtHandle} {L i lo hi : Nat} {nd : ExtNode},
    fs.WfNode d lo hi nd →
    h.fs = fs → h.At L nd i → h.maxDepth = L + d → h.Clean L → (0 < d → (h.path L).visitNum = 0) →
    ∃ es h', Nexts h es h' ∧ leafExtents es = (fs.leavesFrom d nd i).map (·.gen false) ∧ h.Stays h' L ∧
      h'.At L nd (nd.count - 1) ∧ (d = 0 → leafExtents es = es) ∧
      (0 < d → (h'.path L).visitNum ≠ 0 ∧ ∃ es₀ e, es = es₀ ++ [e] ∧ e.leaf = false) := by
  intro d
  induction d with
  | zero =>
    intro h L i lo hi nd _ _ ha hd _ _
    obtain ⟨es, h', hns, hes, hst, ha'⟩ := nexts_leaf ha hd fs
    have hleaf : leafExtents es = es := by rw [hes, leafExtents_map_gen]
    exact ⟨es, h', hns, hleaf.trans hes, hst, ha', fun _ => hleaf, fun h0 => absurd h0 (Nat.lt_irrefl 0)⟩
  | succ d ihd =>
    intro h L i lo hi nd hwf hfs ha hd hclean hv
    -- down to the child, to its last entry, and up again
    have child : ∀ {h : ExtHandle} {i : Nat}, h.fs = fs → h.At L nd i → h.maxDepth = L + (d + 1) → h.Clean L →
        (h.path L).visitNum = 0 → ∃ es h', Nexts h es h' ∧
          leafExtents es = (fs.leaves d (fs.nodes (nd.slot i).ptr).node).map (·.gen false) ∧ h.Stays h' L ∧
          h'.At L nd i ∧ (h'.path L).visitNum ≠ 0 ∧ ∃ es₀ e, es = es₀ ++ [e] ∧ e.leaf = false := by
      intro h i hfs ha hd hclean hv
      obtain ⟨-, hval, hsum, hpos, hwfc⟩ := hwf.2.2.2 i ha.lt
      rw [← hfs] at hval hsum hpos
      obtain ⟨h1, hn1, ha1, hv1, hp1, hst1, -⟩ :=
        next_down ha (by omega) hv hclean.1 (hclean.2 _ (by omega) (by omega))
        rfl hval hsum hpos
      have hd1 : h1.maxDepth = L + 1 + d := by rw [hst1.maxDepth, hd]; omega
      have hcl1 := hst1.clean hclean
      rw [hfs] at ha1 hpos
      obtain ⟨es, h2, hns, hes, hst2, ha2, -, hv2⟩ := ihd hwfc (hst1.fs.trans hfs) ha1 hd1
        ⟨hcl1.1, fun j hj => hcl1.2 j (by omega)⟩ (fun _ => hv1)
      have hp2 : h2.path L = { h.path L with visitNum := 1 } := (hst2.path L (by omega)).trans hp1
      have hd2 : h2.maxDepth = L + 1 + d := hst2.maxDepth.trans hd1
      obtain ⟨h3, e3, hn3, he3, rfl⟩ := next_up ha2 (fun hlt => (hv2 (by omega)).1) (j := i)
        (by rw [hp2]; exact ha.curr) (by omega)
      refine ⟨h1.read 0 :: (es ++ [e3]), _, Nexts.cons hn1 (hns.append (Nexts.cons hn3 (Nexts.nil _))), ?_, ?_,
        ?_, ?_, h1.read 0 :: es, e3, rfl, he3⟩
      · have hlast : leafExtents (es ++ [e3]) = leafExtents es := by simp [leafExtents, he3]
        rw [leaves_eq_first fs d hpos, List.map_append, ← hes, ← hlast]
        by_cases hd0 : d = 0
        · rw [if_pos hd0, read_leaf ha1 hv1 (by omega)]
          rfl
        · rw [if_neg hd0, leafExtents, List.filter_cons_of_neg (by rw [read_index ha1 (by omega)]; simp)]
          rfl
      · have hst := hst1.trans hst2 (by omega)
        exact ⟨hst.fs, hst.inode, hst.maxDepth, hst.maxPaths, hst.cap, hst.path, hst.stray⟩
      · refine ⟨rfl, ?_, ha.lt, ?_, ?_⟩
        · rw [← ha.node]
          exact node_congr (hst2.inode.trans hst1.inode) (by simp [hp2])
        · simp only [hp2]
          exact ha.curr
        · simp only [hp2]
          exact ha.left
      · simp [hp2]
    obtain ⟨m, hm⟩ : ∃ m, nd.count - 1 - i = m := ⟨_, rfl⟩
    have hlt := ha.lt
    induction m generalizing h i with
    | zero =>
      have hi' : i = nd.count - 1 := by omega
      obtain ⟨es, h1, hns, hes, hst, ha1, hv1⟩ := child hfs ha hd hclean (hv (by omega))
      refine ⟨es, h1, hns, ?_, hst, hi' ▸ ha1, fun h0 => absurd h0 (Nat.succ_ne_zero d), fun _ => hv1⟩
      rw [hes, ExtFs.leavesFrom, range'_pred hlt, show nd.count - (i + 1) = 0 by omega]
      simp
    | succ m ih =>
      obtain ⟨es, h1, hns, hes, hst1, ha1, hv1⟩ := child hfs ha hd hclean (hv (by omega))
      obtain ⟨h2, hn2, ha2, hv2, hst2⟩ := next_sib ha1 (fun _ => hv1.1) (by omega)
      have hst := hst1.trans hst2 (Nat.le_refl _)
      have hd2 : h2.maxDepth = L + (d + 1) := hst.maxDepth.trans hd
      obtain ⟨es', h3, hns', hes', hst3, ha3, -, hv3⟩ :=
        ih (hst.fs.trans hfs) ha2 hd2 (hst.clean hclean) (fun _ => hv2)
        (by omega) ha2.lt
      refine ⟨_, h3, hns.append (Nexts.cons hn2 hns'), ?_, hst.trans hst3 (Nat.le_refl _), ha3,
        fun h0 => absurd h0 (Nat.succ_ne_zero d), ?_⟩
      · have hidx := read_index ha2 (by omega)
        rw [leafExtents, List.filter_append, List.filter_cons_of_neg (by rw [hidx]; simp), ← leafExtents,
          ← leafExtents,
          hes, hes', ExtFs.leavesFrom, ExtFs.leavesFrom, range'_pred hlt, List.flatMap_cons, List.map_append]
      · intro hd0
        obtain ⟨hvis, es₀, e, rfl, he⟩ := hv3 hd0
        exact ⟨hvis, es ++ h2.read (i + 1) :: es₀, e, by simp, he⟩

/-! ### The loop -/

/-- The extents are not empty and come after the block `b` one after the other. -/
def Fits : Nat → List GenExt → Prop
  | _, [] => True
  | b, e :: es => (b ≤ e.lblk ∧ e.len ≠ 0) ∧ Fits (e.lblk + e.len) es

/-- The calls for the extents that were returned, if the call for `NEXT` after the last one fails. -/
def visitedCalls : List GenExt → List (Nat × Nat)
  | [] => []
  | [e] => if e.leaf then [(e.lblk, e.pblk)] else []
  | e :: e' :: es => (if e.leaf then e.calls else []) ++ visitedCalls (e' :: es)

private theorem iterateExtents_get {n b : Nat} {c : List (Nat × Nat)} {op : ExtOp} {h h1 : ExtHandle} {e : GenExt}
    (hn : ext3ExtentGet op h = .ok e h1) :
    iterateExtents (n + 1) none op b c h = iterateExtents (n + 1) (some e) .next b c h1 := by
  exact (bind_ok (x := currentExtent none op) (attempt_ok hn)).trans rfl

private theorem iterateExtents_end {n b : Nat} {c : List (Nat × Nat)} {op : ExtOp} {h h1 : ExtHandle}
    (hn : ext3ExtentGet op h = .error (.errno .ESRCH) h1) :
    iterateExtents (n + 1) none op b c h = .ok (some c) h1 := by
  exact (bind_ok (x := currentExtent none op) (attempt_errno hn)).trans rfl

private theorem iterateExtents_index {n b : Nat} {c : List (Nat × Nat)} {op : ExtOp} {e : GenExt}
    (he : e.leaf = false)
    (h : ExtHandle) : iterateExtents (n + 1) (some e) op b c h = iterateExtents n none .next b c h := by
  refine (bind_ok (x := currentExtent (some e) op) rfl).trans ?_
  simp only [he, ↓reduceIte]

private theorem iterateExtents_leaf {n b : Nat} {c : List (Nat × Nat)} {op : ExtOp} {e e' : GenExt} {h h1 : ExtHandle}
    (he : e.leaf = true) (hn : ext3ExtentGet .next h = .ok e' h1) (hb : b ≤ e.lblk ∧ e.len ≠ 0) :
    iterateExtents (n + 1) (some e) op b c h =
      iterateExtents n (some e') .next (e.lblk + e.len) (c ++ e.calls) h1 := by
  refine (bind_ok (x := currentExtent (some e) op) rfl).trans ?_
  simp only [he, Bool.true_eq_false, ↓reduceIte]
  rw [bind_ok (attempt_ok hn)]
  have hend : ¬ e.lblk + e.len ≤ b := by omega
  simp only [hend, Nat.sub_eq_zero_of_le hb.1, Nat.add_zero, ↓reduceIte]
  rfl

private theorem iterateExtents_last {n b : Nat} {c : List (Nat × Nat)} {op : ExtOp} {e : GenExt} {h h1 : ExtHandle}
    (he : e.leaf = true) (hn : ext3ExtentGet .next h = .error (.errno .ESRCH) h1) (hb : b ≤ e.lblk ∧ e.len ≠ 0) :
    iterateExtents (n + 1) (some e) op b c h = .ok (some (c ++ [(e.lblk, e.pblk)])) h1 := by
  refine (bind_ok (x := currentExtent (some e) op) rfl).trans ?_
  simp only [he, Bool.true_eq_false, ↓reduceIte]
  rw [bind_ok (attempt_errno hn)]
  have hend : ¬ e.lblk + e.len ≤ b := by omega
  simp only [hend, hb.2, Nat.sub_eq_zero_of_le hb.1, Nat.add_zero, ↓reduceIte]
  rfl

/-- The loop from an extent on, when `NEXT` returns the extents `es` and then reports the end. -/
private theorem iterateExtents_visits {es : List GenExt} {e : GenExt} {h h1 h2 : ExtHandle} (hns : Nexts h es h1)
    (hend : ext3ExtentGet .next h1 = .error (.errno .ESRCH) h2) {b : Nat} (hf : Fits b (leafExtents (e :: es)))
    (c : List (Nat × Nat)) (op : ExtOp) :
    iterateExtents (es.length + 2) (some e) op b c h = .ok (some (c ++ visitedCalls (e :: es))) h2 := by
  induction hns generalizing e b c op with
  | nil h =>
    cases he : e.leaf with
    | false =>
      rw [iterateExtents_index he, iterateExtents_end hend]
      simp [visitedCalls, he]
    | true =>
      have hmem : leafExtents [e] = [e] := by simp [leafExtents, he]
      rw [hmem] at hf
      rw [iterateExtents_last he hend hf.1]
      simp [visitedCalls, he]
  | @cons h h1 h2 e' es hn hr ih =>
    cases he : e.leaf with
    | false =>
      have hmem : leafExtents (e :: e' :: es) = leafExtents (e' :: es) := by simp [leafExtents, he]
      rw [hmem] at hf
      rw [iterateExtents_index he, List.length_cons, iterateExtents_get hn, ih hend hf]
      simp [visitedCalls, he]
    | true =>
      have hmem : leafExtents (e :: e' :: es) = e :: leafExtents (e' :: es) := by simp [leafExtents, he]
      rw [hmem] at hf
      rw [iterateExtents_leaf he hn hf.1, List.length_cons, ih hend hf.2]
      simp [visitedCalls, he]

private theorem iterateExtents_succ (n : Nat) (x : Option GenExt) (op : ExtOp) (b : Nat) (c : List (Nat × Nat))
    (h : ExtHandle) : (∃ h', iterateExtents n x op b c h = .ok none h') ∨
      iterateExtents (n + 1) x op b c h = iterateExtents n x op b c h := by
  induction n generalizing x op b c h with
  | zero => exact .inl ⟨h, rfl⟩
  | succ n ih =>
    rw [iterateExtents, iterateExtents]
    cases hfirst : currentExtent x op h with
    | error e h1 =>
      rw [bind_error hfirst, bind_error hfirst]
      exact .inr rfl
    | ok r h1 =>
      rw [bind_ok hfirst, bind_ok hfirst]
      split
      · exact .inr rfl
      · exact .inr rfl
      · rename_i extent
        split
        · exact ih ..
        · cases hnext : attempt (ext3ExtentGet .next) h1 with
          | error e h2 =>
            rw [bind_error hnext, bind_error hnext]
            exact .inr rfl
          | ok next h2 =>
            rw [bind_ok hnext, bind_ok hnext]
            split
            · exact ih ..
            · split
              · exact ih ..
              · split
                · exact ih ..
                · exact .inr rfl

end

/-! ### The calls -/

private theorem visitedCalls_append (l : List GenExt) (e : GenExt) : visitedCalls (l ++ [e]) =
    (leafExtents l).flatMap GenExt.calls ++ if e.leaf then [(e.lblk, e.pblk)] else [] := by
  induction l with
  | nil => rfl
  | cons x l ih =>
    have hcons : visitedCalls (x :: (l ++ [e])) = (if x.leaf then x.calls else []) ++ visitedCalls (l ++ [e]) := by
      cases l <;> rfl
    rw [List.cons_append, hcons, ih]
    cases hx : x.leaf with
    | false => simp [leafExtents, hx]
    | true => simp [leafExtents, hx]

private theorem flatMap_calls (l : List ExtEntry) : (l.map (·.gen false)).flatMap GenExt.calls =
    (points (l.map ExtEntry.run)).map fun x => (x.1, x.2.1) := by
  unfold points
  rw [List.flatMap_map, List.flatMap_map, List.map_flatMap]
  congr 1
  funext e
  simp only [ExtEntry.run, GenExt.calls, GenExt.callsFrom, ExtEntry.gen, ExtEntry.size, Nat.add_sub_cancel_left,
    List.map_map, List.range'_eq_map_range]
  refine List.map_congr_left fun j _ => ?_
  simp

private theorem fits_map_gen {l : List ExtEntry} (hl : Ascending (l.map ExtEntry.run)) (hw : ∀ e ∈ l, e.Wf) {b : Nat}
    (hb : ∀ e ∈ l, b ≤ e.block) : Fits b (l.map (·.gen false)) := by
  induction l generalizing b with
  | nil => trivial
  | cons e l ih =>
    have hpos := (hw e (by simp)).size_pos
    have hle := hb e (by simp)
    refine ⟨?_, ih (List.Pairwise.of_cons hl) (fun x hx => hw x (by simp [hx])) fun x hx => ?_⟩
    · exact ⟨hle, hpos.ne'⟩
    · exact List.rel_of_pairwise_cons hl (List.mem_map_of_mem hx)

private theorem agrees_of_calls {fs : ExtFs} {inode : ExtInode} (hw : inode.Wf fs) {calls : List (Nat × Nat)}
    (hc : calls = ((inode.leaves fs).map (·.gen false)).flatMap GenExt.calls) :
    calls.Pairwise (fun a b => a.1 < b.1) ∧ ∀ k p, (k, p) ∈ calls ↔ ∃ u, inode.mapping fs k = some (p, u) := by
  rw [flatMap_calls] at hc
  subst hc
  constructor
  · rw [List.pairwise_map]
    exact hw.ascending.pairwise_points
  · intro k p
    unfold ExtInode.mapping
    constructor
    · intro hk
      obtain ⟨⟨k', p', u⟩, hx, he⟩ := List.mem_map.1 hk
      cases he
      exact ⟨u, hw.ascending.mem_points_iff.1 hx⟩
    · rintro ⟨u, hu⟩
      exact List.mem_map.2 ⟨(k, p, u), hw.ascending.mem_points_iff.2 hu, rfl⟩

/-! ### Runs of the loop -/

section

variable {h : ExtHandle}

/-- The handle after `ROOT` went to the level 0. -/
def ExtHandle.toRoot (h : ExtHandle) : ExtHandle :=
  { h with level := 0 }.setPath 0 { h.path 0 with left := h.inode.root.count, curr := none }

private theorem move_root (h : ExtHandle) : move .root .root h = moveNextSib h.toRoot := rfl

private theorem stays_toRoot (h : ExtHandle) : h.Stays h.toRoot 0 := by
  have hst := stays_setPath { h with level := 0 } (L := 0) (j := 0)
    (p := { h.path 0 with left := h.inode.root.count, curr := none }) (Nat.le_refl _) (fun hs => hs)
  exact ⟨hst.fs, hst.inode, hst.maxDepth, hst.maxPaths, hst.cap, hst.path, hst.stray⟩

private theorem toRoot_cur (h : ExtHandle) :
    h.toRoot.cur = { h.path 0 with left := h.inode.root.count, curr := none } := by
  simp [ExtHandle.cur, ExtHandle.toRoot]

theorem get_root_empty (h0 : h.inode.root.count = 0) :
    ext3ExtentGet .root h = .error (.errno .ESRCH) h.toRoot := by
  refine get_of_move_error (show pickMove .root h = .ok .root h from rfl) ?_
  rw [move_root]
  unfold moveNextSib
  simp only [toRoot_cur, h0, le_refl, ↓reduceIte, Nat.cast_zero]

theorem get_root (hpos : 0 < h.inode.root.count) :
    ∃ h', ext3ExtentGet .root h = .ok (h'.read 0) h' ∧ h'.At 0 h.inode.root 0 ∧ (h'.path 0).visitNum = 0 ∧
      h.Stays h' 0 ∧ ∀ j, 0 < j → h'.path j = h.path j := by
  have hm : move .root .root h = .ok (some 0, false)
      (h.toRoot.setPath 0 { h.path 0 with left := h.inode.root.count - 1, curr := some 0, visitNum := 0 }) := by
    rw [move_root]
    unfold moveNextSib
    have hno : ¬ (h.inode.root.count : Int) ≤ 0 := by omega
    simp only [toRoot_cur, if_neg hno]
    rfl
  refine ⟨_, get_of_move rfl hm (by simp [ExtHandle.retry]), ⟨rfl, rfl, hpos, ?_, ?_⟩, ?_, ?_, ?_⟩
  · rw [setPath_path_self]
  · rw [setPath_path_self]
    simp
  · rw [setPath_path_self]
  · refine (stays_toRoot h).trans (stays_setPath h.toRoot (Nat.le_refl 0) fun hs => ?_) (Nat.le_refl 0)
    simpa [ExtHandle.toRoot] using hs
  · intro j hj
    rw [setPath_path_of_ne _ _ _ (by omega), ExtHandle.toRoot, setPath_path_of_ne _ _ _ (by omega)]

private theorem ext3ExtentFree_clean (hc : h.Clean 0) (hp : h.maxPaths = h.maxDepth + 1) :
    ext3ExtentFree h = .ok () h := by
  unfold ext3ExtentFree
  rw [if_neg]
  simp only [List.any_eq_true, List.mem_range, Bool.and_eq_true, bne_iff_ne, ne_eq, not_exists, not_and]
  intro i hi hi0
  have hns := hc.2 i (by omega) (by omega)
  split
  · rename_i hs
    exact absurd hs hns
  · simp

/-- With usable buffers the loop calls back for all blocks, except that after the last extent of a tree of depth 0
only its first block is passed. -/
private theorem iterateExtents_root (fs : ExtFs) {lo hi : Nat} (hfs : h.fs = fs)
    (hwf : fs.WfNode h.maxDepth lo hi h.inode.root) (hclean : h.Clean 0) (hpos : 0 < h.inode.root.count) :
    ∃ n es h', iterateExtents n none .root 0 [] h = .ok (some (visitedCalls es)) h' ∧ h.Stays h' 0 ∧
      leafExtents es = (fs.leaves h.maxDepth h.inode.root).map (·.gen false) ∧
      (h.maxDepth = 0 → leafExtents es = es) ∧
      (0 < h.maxDepth → ∃ es₀ e, es = es₀ ++ [e] ∧ e.leaf = false) := by
  obtain ⟨h1, hn1, ha1, hv1, hst1, -⟩ := get_root hpos
  have hd1 : h1.maxDepth = 0 + h.maxDepth := by rw [hst1.maxDepth, Nat.zero_add]
  obtain ⟨es, h2, hns, hes, hst2, ha2, hall, hlast⟩ := nexts_node fs h.maxDepth hwf (hst1.fs.trans hfs) ha1 hd1
    (hst1.clean hclean) (fun _ => hv1)
  have hend := next_end ha2 (fun hlt => (hlast (by rw [hst2.maxDepth, hd1] at hlt; omega)).1)
  have hleaf : leafExtents (h1.read 0 :: es) = (fs.leaves h.maxDepth h.inode.root).map (·.gen false) := by
    rw [leaves_eq_first fs h.maxDepth hpos, List.map_append, ← hes]
    by_cases hd0 : h.maxDepth = 0
    · rw [if_pos hd0, read_leaf ha1 hv1 (by omega)]
      rfl
    · rw [if_neg hd0, leafExtents, List.filter_cons_of_neg (by rw [read_index ha1 (by omega)]; simp)]
      rfl
  have hwl := leaves_within hwf
  have hfit : Fits 0 (leafExtents (h1.read 0 :: es)) := by
    rw [hleaf]
    exact fits_map_gen (ascending_leaves hwf) (fun e he => (hwl e he).1) (fun _ _ => Nat.zero_le _)
  refine ⟨es.length + 2, h1.read 0 :: es, h2, ?_, hst1.trans hst2 (Nat.le_refl 0), hleaf, ?_, ?_⟩
  · rw [iterateExtents_get hn1, iterateExtents_visits hns hend hfit [] .next, List.nil_append]
  · intro hd0
    rw [read_leaf ha1 hv1 (by omega), leafExtents, List.filter_cons_of_pos rfl, ← leafExtents, hall hd0]
  · intro hd
    obtain ⟨-, es₀, e, rfl, he⟩ := hlast hd
    exact ⟨h1.read 0 :: es₀, e, rfl, he⟩

private theorem next_down_stray {L i : Nat} {nd : ExtNode} (ha : h.At L nd i) (hd : L < h.maxDepth)
    (hv : (h.path L).visitNum = 0) (hcap : h.maxDepth < h.cap) (hs : (h.path (L + 1)).buffer = .stray) :
    ∃ h', ext3ExtentGet .next h = .error .undefined h' := by
  obtain ⟨rfl, -, -, hcurr, -⟩ := ha
  refine ⟨h.setPath h.level { h.cur with visitNum := 1 }, get_of_move_error (pickMove_next_down hd hv) ?_⟩
  have hcurr1 : (h.setPath h.level { h.cur with visitNum := 1 }).cur.curr = some i := by
    simpa [ExtHandle.cur] using hcurr
  have hbuf : ((h.setPath h.level { h.cur with visitNum := 1 }).path (h.level + 1)).buffer = .stray := by
    rw [setPath_path_of_ne _ _ _ (by omega), hs]
  unfold move moveDown
  simp only [hcurr1, setPath_maxDepth, setPath_level, setPath_cap, if_neg (Nat.not_le.2 hd), if_neg (by omega :
    ¬ h.cap ≤ h.level + 1), hbuf]

/-- The loop runs down along the first entries into a buffer that was never allocated. -/
private theorem iterateExtents_stray (fs : ExtFs) : ∀ (d : Nat) {h : ExtHandle} {L lo hi : Nat} {nd : ExtNode},
    fs.WfNode d lo hi nd → h.fs = fs → h.At L nd 0 → h.maxDepth = L + d → h.maxDepth < h.cap →
    (h.path L).visitNum = 0 → (∃ j, L < j ∧ j ≤ h.maxDepth ∧ (h.path j).buffer = .stray) → ∀ b c,
    ∃ n h', iterateExtents n none .next b c h = .error .undefined h' := by
  intro d
  induction d with
  | zero =>
    intro h L lo hi nd _ _ _ hd _ _ ⟨j, hj, hjd, _⟩
    omega
  | succ d ih =>
    intro h L lo hi nd hwf hfs ha hd hcap hv ⟨j, hj, hjd, hs⟩ b c
    by_cases hs1 : (h.path (L + 1)).buffer = .stray
    · obtain ⟨h1, hn⟩ := next_down_stray ha (by omega) hv hcap hs1
      refine ⟨1, h1, ?_⟩
      rw [iterateExtents, bind_error (x := currentExtent none .next) (attempt_undefined hn)]
    · have hj1 : L + 1 < j := by
        rcases Nat.eq_or_lt_of_le (Nat.succ_le_of_lt hj) with heq | hlt
        · subst heq
          exact absurd hs hs1
        · exact hlt
      obtain ⟨-, hval, hsum, hpos, hwfc⟩ := hwf.2.2.2 0 ha.lt
      rw [← hfs] at hval hsum hpos
      obtain ⟨h1, hn1, ha1, hv1, -, hst1, hpath1⟩ := next_down ha (by omega) hv hcap hs1 rfl hval hsum hpos
      have hd1 : h1.maxDepth = L + 1 + d := by rw [hst1.maxDepth, hd]; omega
      rw [hfs] at ha1
      obtain ⟨n, h2, hn2⟩ := ih hwfc (hst1.fs.trans hfs) ha1 hd1 (by rw [hst1.maxDepth, hst1.cap]; exact hcap) hv1
        ⟨j, hj1, by rw [hst1.maxDepth]; exact hjd, by rw [hpath1 j hj1]; exact hs⟩ b c
      refine ⟨n + 1, h2, ?_⟩
      rw [iterateExtents_get hn1, iterateExtents_index (read_index ha1 (by omega))]
      exact hn2

end

private theorem iterateExtents_le {n m : Nat} (hnm : n ≤ m) {x : Option GenExt} {op : ExtOp} {b : Nat}
    {c : List (Nat × Nat)} {h : ExtHandle} (hr : ∀ h', iterateExtents n x op b c h ≠ .ok none h') :
    iterateExtents m x op b c h = iterateExtents n x op b c h := by
  induction m, hnm using Nat.le_induction with
  | base => rfl
  | succ m _ ih =>
    rcases iterateExtents_succ m x op b c h with ⟨h', hnone⟩ | heq
    · exact absurd (ih ▸ hnone) (hr h')
    · rw [heq, ih]

private theorem iterateExtents_unique {n m : Nat} {x : Option GenExt} {op : ExtOp} {b : Nat} {c : List (Nat × Nat)}
    {h : ExtHandle} {r s : EStateM.Result Fault ExtHandle (Option (List (Nat × Nat)))}
    (hn : iterateExtents n x op b c h = r) (hm : iterateExtents m x op b c h = s) (hr : ∀ h', r ≠ .ok none h')
    (hs : ∀ h', s ≠ .ok none h') : r = s := by
  subst hn hm
  rcases Nat.le_total n m with hle | hle
  · exact (iterateExtents_le hle hr).symm
  · exact iterateExtents_le hle hs

section

variable {fs : ExtFs} {inode : ExtInode} (saved : ExtInode) (g : Garbage)

/-- The iteration succeeds exactly if the loop ends without an error. -/
private theorem ext2BlockIterateExtents_ok (hw : inode.Wf fs) {n : Nat} {calls : List (Nat × Nat)}
    (hr : ext2BlockIterateExtents n fs inode saved g = .ok (some calls)) :
    ∃ h', iterateExtents n none .root 0 [] (freshHandle fs inode saved g) = .ok (some calls) h' := by
  unfold ext2BlockIterateExtents at hr
  rw [ext3ExtentOpen_wf hw] at hr
  generalize freshHandle fs inode saved g = h at hr ⊢
  simp only at hr
  cases hloop : attempt (iterateExtents n none .root 0 []) h with
  | error e h1 =>
    rw [bind_error hloop] at hr
    cases hr
  | ok r h1 =>
    rw [bind_ok hloop] at hr
    cases hfree : ext3ExtentFree h1 with
    | error e h2 =>
      rw [bind_error hfree] at hr
      cases hr
    | ok u h2 =>
      rw [bind_ok hfree] at hr
      cases r with
      | error e => cases hr
      | ok c =>
        cases hr
        exact attempt_eq_ok hloop

private theorem ext2BlockIterateExtents_eq (hw : inode.Wf fs) {n : Nat} {calls : List (Nat × Nat)} {h' : ExtHandle}
    (hr : iterateExtents n none .root 0 [] (freshHandle fs inode saved g) = .ok (some calls) h')
    (hf : ext3ExtentFree h' = .ok () h') : ext2BlockIterateExtents n fs inode saved g = .ok (some calls) := by
  unfold ext2BlockIterateExtents
  rw [ext3ExtentOpen_wf hw]
  simp only []
  rw [bind_ok (attempt_ok hr), bind_ok hf]
  rfl

def ExtInode.LastSingle (inode : ExtInode) : Prop :=
  inode.root.depth = 0 → ∀ e ∈ inode.root.entries.getLast?, e.size = 1

private theorem clean_fresh (hg : ∀ i, 1 ≤ i → i ≤ inode.root.depth → g.buffer i = false) :
    (freshHandle fs inode saved g).Clean 0 := by
  refine ⟨Nat.lt_succ_self _, fun j hj hjd => ?_⟩
  have hb := hg j hj hjd
  simp [freshHandle, Nat.ne_of_gt hj, hb]

private theorem visitedCalls_leaves (hpos : 0 < inode.root.count) {es : List GenExt}
    (hes : leafExtents es = (inode.leaves fs).map (·.gen false))
    (h0 : inode.root.depth = 0 → leafExtents es = es)
    (h1 : 0 < inode.root.depth → ∃ es₀ e, es = es₀ ++ [e] ∧ e.leaf = false) (hlast : inode.LastSingle) :
    visitedCalls es = ((inode.leaves fs).map (·.gen false)).flatMap GenExt.calls := by
  rcases Nat.eq_zero_or_pos inode.root.depth with hd | hd
  · have hleaves : inode.leaves fs = inode.root.entries := by
      unfold ExtInode.leaves
      rw [hd]
      rfl
    have hne : inode.root.entries ≠ [] := by
      intro hnil
      have hl := length_entries inode.root
      rw [hnil, List.length_nil] at hl
      omega
    have hsize := hlast hd (inode.root.entries.getLast hne) (List.getLast?_eq_some_getLast hne)
    rw [← h0 hd, hes, hleaves]
    rw [← List.dropLast_append_getLast hne]
    generalize inode.root.entries.getLast hne = e at hsize
    rw [List.map_append, List.map_singleton, visitedCalls_append, leafExtents_map_gen, List.flatMap_append]
    have hcalls : (e.gen false).calls = [(e.block, e.ptr)] := by
      have hlen : (e.gen false).len = 1 := hsize
      rw [GenExt.calls, GenExt.callsFrom, hlen]
      rfl
    simp only [List.flatMap_cons, List.flatMap_nil, List.append_nil, hcalls]
    rfl
  · obtain ⟨es₀, e, rfl, he⟩ := h1 hd
    have hdrop : leafExtents (es₀ ++ [e]) = leafExtents es₀ := by simp [leafExtents, he]
    rw [visitedCalls_append, ← hes, hdrop, he]
    simp

private theorem iterateExtents_fresh_stray (hw : inode.Wf fs) {i : Nat} (hi : 1 ≤ i) (hid : i ≤ inode.root.depth)
    (hg : g.buffer i = true) :
    ∃ n h', iterateExtents n none .root 0 [] (freshHandle fs inode saved g) = .error .undefined h' := by
  have hpos : 0 < inode.root.count := by
    have htree := hw.tree
    obtain ⟨d, hd⟩ : ∃ d, inode.root.depth = d + 1 := ⟨inode.root.depth - 1, by omega⟩
    rw [hd] at htree
    exact htree.1
  obtain ⟨h1, hn1, ha1, hv1, hst1, hpath1⟩ := get_root (h := freshHandle fs inode saved g) hpos
  have hd1 : h1.maxDepth = 0 + inode.root.depth := by rw [hst1.maxDepth, Nat.zero_add]; rfl
  have hstray : (h1.path i).buffer = .stray := by
    rw [hpath1 i (by omega)]
    simp [freshHandle, Nat.ne_of_gt hi, hg]
  obtain ⟨n, h2, hn2⟩ := iterateExtents_stray fs inode.root.depth hw.tree hst1.fs ha1 hd1
    (by rw [hst1.maxDepth, hst1.cap]; exact Nat.lt_succ_self _) hv1 ⟨i, by omega, by omega, hstray⟩ 0 []
  refine ⟨n + 1, h2, ?_⟩
  rw [iterateExtents_get hn1, iterateExtents_index (read_index ha1 (by omega)), hn2]

private theorem not_mem_visitedCalls {l : List ExtEntry} {e : ExtEntry} (hl : Ascending ((l ++ [e]).map ExtEntry.run))
    (p : Nat) : (e.block + 1, p) ∉ visitedCalls ((l ++ [e]).map (·.gen false)) := by
  rw [List.map_append, List.map_singleton, visitedCalls_append, leafExtents_map_gen, flatMap_calls]
  intro hmem
  rcases List.mem_append.1 hmem with hmem | hmem
  · obtain ⟨⟨k, v⟩, hk, he⟩ := List.mem_map.1 hmem
    cases he
    obtain ⟨r, hr, hcov, -⟩ := mem_points.1 hk
    rw [List.map_append] at hl
    have hle : r.hi ≤ e.block := (List.pairwise_append.1 hl).2.2 r hr e.run (by simp)
    have hlt : e.block + 1 < r.hi := hcov.2
    omega
  · simp [ExtEntry.gen] at hmem

end

/-- A stray buffer or a last extent with more than one block spoils the iteration. -/
private theorem lastSingle_of_agrees {fs : ExtFs} {inode : ExtInode} (hw : inode.Wf fs) (saved : ExtInode)
    (g : Garbage) (ha : ExtentIterationAgrees fs inode saved g) :
    inode.LastSingle ∧ ∀ i, 1 ≤ i → i ≤ inode.root.depth → g.buffer i = false := by
  obtain ⟨n, calls, hr, -, hmem⟩ := ha
  obtain ⟨h', hloop⟩ := ext2BlockIterateExtents_ok saved g hw hr
  have hg : ∀ i, 1 ≤ i → i ≤ inode.root.depth → g.buffer i = false := by
    intro i hi hid
    by_contra hb
    obtain ⟨m, h1, hm⟩ := iterateExtents_fresh_stray saved g hw hi hid (by simpa using hb)
    cases iterateExtents_unique hloop hm (by simp) (by simp)
  refine ⟨fun hd e he => ?_, hg⟩
  have hasc := hw.ascending
  have hleaves : inode.leaves fs = inode.root.entries := by
    unfold ExtInode.leaves
    rw [hd]
    rfl
  obtain ⟨l, hl⟩ := List.getLast?_eq_some_iff.1 he
  have hemem : e ∈ inode.root.entries := by rw [hl]; simp
  have hpos : 0 < inode.root.count := by
    obtain ⟨i, hi, -⟩ := mem_entries.1 hemem
    omega
  obtain ⟨m, es, h1, hm, -, hes, hall, -⟩ := iterateExtents_root fs (h := freshHandle fs inode saved g) rfl
    hw.tree (clean_fresh saved g hg) hpos
  cases iterateExtents_unique hloop hm (by simp) (by simp)
  have hes' : es = (l ++ [e]).map (·.gen false) := by
    rw [← hl, ← hleaves, ← hall hd]
    exact hes
  by_contra hsize
  have hcov : e.run.Covers (e.block + 1) := by
    have h1 := (leaves_within hw.tree e (by rw [← ExtInode.leaves, hleaves]; exact hemem)).1.size_pos
    constructor
    · exact Nat.le_succ _
    · change e.block + 1 < e.block + e.size
      omega
  have hmap := hasc.lookup_of_mem (r := e.run) (by rw [hleaves]; exact List.mem_map_of_mem hemem) hcov
  have hin := (hmem (e.block + 1) _).2 ⟨_, hmap⟩
  rw [hes'] at hin
  rw [hleaves, hl] at hasc
  exact not_mem_visitedCalls hasc _ hin

private theorem agrees_of_lastSingle {fs : ExtFs} {inode : ExtInode} (hw : inode.Wf fs) (saved : ExtInode)
    (g : Garbage) (hlast : inode.LastSingle) (hg : ∀ i, 1 ≤ i → i ≤ inode.root.depth → g.buffer i = false) :
    ExtentIterationAgrees fs inode saved g := by
  have hclean : (freshHandle fs inode saved g).Clean 0 := clean_fresh saved g hg
  rcases Nat.eq_zero_or_pos inode.root.count with h0 | hpos
  · have hroot := get_root_empty (h := freshHandle fs inode saved g) h0
    have hfree := ext3ExtentFree_clean ((stays_toRoot _).clean hclean) rfl
    refine ⟨1, [], ext2BlockIterateExtents_eq saved g hw (iterateExtents_end hroot) hfree, ?_⟩
    refine agrees_of_calls hw ?_
    have hleaves : inode.leaves fs = [] := by
      have htree := hw.tree
      unfold ExtInode.leaves
      cases hd : inode.root.depth with
      | zero => simp [ExtFs.leaves, ExtNode.entries, h0]
      | succ d =>
        rw [hd] at htree
        exact absurd htree.1 (by omega)
    rw [hleaves]
    rfl
  · obtain ⟨m, es, h1, hm, hst, hes, hall, hidx⟩ := iterateExtents_root fs (h := freshHandle fs inode saved g)
      rfl hw.tree hclean hpos
    have hfree := ext3ExtentFree_clean (hst.clean hclean) (by rw [hst.maxPaths, hst.maxDepth]; rfl)
    refine ⟨m, _, ext2BlockIterateExtents_eq saved g hw hm hfree, ?_⟩
    exact agrees_of_calls hw (visitedCalls_leaves hpos hes hall hidx hlast)

/-- Iterating over the extents of a file with a well-formed tree: the iteration succeeds with the calls for exactly
the blocks of the extents if and only if no buffer of the levels below the root is a stray pointer and, in a tree of
depth 0, the last extent has one block. -/
theorem extent_iteration_iff {fs : ExtFs} {inode : ExtInode} (hw : inode.Wf fs) (saved : ExtInode) (g : Garbage) :
    ExtentIterationAgrees fs inode saved g ↔
      inode.LastSingle ∧ ∀ i, 1 ≤ i → i ≤ inode.root.depth → g.buffer i = false := by
  constructor
  · exact lastSingle_of_agrees hw saved g
  · rintro ⟨hlast, hg⟩
    exact agrees_of_lastSingle hw saved g hlast hg

/-- A tree of depth 1 with an extent of three blocks, opened with cleared memory. -/
theorem extent_iteration_iff_small :
    (smallExtInode (nodeOf 1 4 [ExtEntry.of 0 50 0])).Wf smallExtFs ∧
      ExtentIterationAgrees smallExtFs (smallExtInode (nodeOf 1 4 [ExtEntry.of 0 50 0]))
        (smallExtInode (nodeOf 1 4 [ExtEntry.of 0 50 0]))
        ⟨fun _ => false, fun _ => 0, ⟨0, 0, 0, false, false, false⟩⟩ := by
  refine ⟨smallTree_wf, (extent_iteration_iff smallTree_wf _ _).2 ⟨?_, ?_⟩⟩
  · intro hd
    cases hd
  · intros
    rfl

/-- Of the two blocks of the only extent of a file, the callback sees the first. -/
theorem not_extent_iteration :
    (smallExtInode (nodeOf 0 4 [ExtEntry.of 0 20 2])).Wf smallExtFs ∧
      ¬ ExtentIterationAgrees smallExtFs (smallExtInode (nodeOf 0 4 [ExtEntry.of 0 20 2]))
        (smallExtInode (nodeOf 0 4 [ExtEntry.of 0 20 2]))
        ⟨fun _ => false, fun _ => 0, ⟨0, 0, 0, false, false, false⟩⟩ := by
  have hw : (smallExtInode (nodeOf 0 4 [ExtEntry.of 0 20 2])).Wf smallExtFs := by
    exact ⟨rfl, rfl, wfNode_single _ _ _ ⟨by decide, by decide, by decide, by decide⟩ (by decide) (by decide)⟩
  refine ⟨hw, fun ha => ?_⟩
  have hlast := (lastSingle_of_agrees hw _ _ ha).1 rfl (ExtEntry.of 0 20 2) rfl
  exact absurd hlast (by decide)

end Pml.Ext2
