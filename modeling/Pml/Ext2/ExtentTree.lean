import Pml.Ext2.Extents
import Pml.Lib.Runs

/-!
# The map that an extent tree stands for

The leaves of a tree are runs of logical blocks; the tree maps each block of a run to a physical block and to
whether it is uninitialised.  In a well-formed tree the keys of a node bound what is below them.
-/

namespace Pml.Ext2

open Runs

def ExtNode.entries (nd : ExtNode) : List ExtEntry := (List.range nd.count).map nd.slot

def ExtEntry.size (e : ExtEntry) : Nat := if initMaxLen < e.len then e.len - initMaxLen else e.len

def ExtEntry.uninit (e : ExtEntry) : Bool := decide (initMaxLen < e.len)

def ExtEntry.run (e : ExtEntry) : Run (Nat × Bool) :=
  ⟨e.block, e.block + e.size, fun k => (e.ptr + (k - e.block), e.uninit)⟩

def ExtFs.leaves (fs : ExtFs) : Nat → ExtNode → List ExtEntry
  | 0, nd => nd.entries
  | d + 1, nd => nd.entries.flatMap fun e => fs.leaves d (fs.nodes e.ptr).node

def ExtInode.leaves (fs : ExtFs) (inode : ExtInode) : List ExtEntry := fs.leaves inode.root.depth inode.root

def ExtInode.mapping (fs : ExtFs) (inode : ExtInode) (k : Nat) : Option (Nat × Bool) :=
  Runs.lookup ((inode.leaves fs).map ExtEntry.run) k

/-- An extent has a block, and its blocks have numbers of 32 and 48 bits; block 0 is not used. -/
structure ExtEntry.Wf (e : ExtEntry) : Prop where
  size_pos : 0 < e.size
  end_le : e.block + e.size ≤ 2 ^ 32
  ptr_pos : 0 < e.ptr
  ptr_le : e.ptr + e.size ≤ 2 ^ 48

def ExtNode.upper (nd : ExtNode) (hi i : Nat) : Nat := if i + 1 < nd.count then (nd.slot (i + 1)).block else hi

/-- The part of a tree below a node with `d` levels below it, whose logical blocks are in `[lo, hi)`.  The keys
strictly increase, and each is at most the first key below it. -/
def ExtFs.WfNode (fs : ExtFs) : Nat → Nat → Nat → ExtNode → Prop
  | 0, lo, hi, nd =>
    Ascending (nd.entries.map ExtEntry.run) ∧ ∀ e ∈ nd.entries, e.Wf ∧ lo ≤ e.block ∧ e.block + e.size ≤ hi
  | d + 1, lo, hi, nd =>
    0 < nd.count ∧ lo ≤ (nd.slot 0).block ∧
      (∀ i, i + 1 < nd.count → (nd.slot i).block < (nd.slot (i + 1)).block) ∧
      ∀ i < nd.count, (nd.slot i).block < hi ∧
        (fs.nodes (nd.slot i).ptr).node.headerValid fs.blksize = true ∧
          fs.checksumValid (fs.nodes (nd.slot i).ptr) = true ∧ 0 < (fs.nodes (nd.slot i).ptr).node.count ∧
          fs.WfNode d (nd.slot i).block (nd.upper hi i) (fs.nodes (nd.slot i).ptr).node

/-- A file with a well-formed tree. -/
structure ExtInode.Wf (fs : ExtFs) (inode : ExtInode) : Prop where
  extentsFl : inode.extentsFl = true
  header : inode.root.headerValid rootSize = true
  tree : fs.WfNode inode.root.depth 0 (2 ^ 32) inode.root

/-! ### Entries -/

@[simp] theorem length_entries (nd : ExtNode) : nd.entries.length = nd.count := by
  simp [ExtNode.entries]

theorem mem_entries {nd : ExtNode} {e : ExtEntry} : e ∈ nd.entries ↔ ∃ i < nd.count, nd.slot i = e := by
  simp [ExtNode.entries]

theorem slot_mem_entries {nd : ExtNode} {i : Nat} (h : i < nd.count) : nd.slot i ∈ nd.entries :=
  mem_entries.2 ⟨i, h, rfl⟩

theorem ext3ExtentOpen_wf {fs : ExtFs} {inode : ExtInode} (hw : inode.Wf fs) (saved : ExtInode) (g : Garbage) :
    ext3ExtentOpen fs inode saved g = .ok (freshHandle fs inode saved g) := by
  have hmagic : inode.root.magic = extentMagic := by
    have h := hw.header
    simp only [ExtNode.headerValid, Bool.and_eq_true, decide_eq_true_eq] at h
    exact h.1.1.1
  have hinit : inode.initRoot = inode := by
    simp [ExtInode.initRoot, ExtNode.isZero, hmagic]
  simp only [ext3ExtentOpen, hinit, hw.extentsFl, hw.header, Bool.true_eq_false, ↓reduceIte]

/-! ### Order of the leaves -/

section

variable {fs : ExtFs}

theorem keys_lt {nd : ExtNode} (h : ∀ i, i + 1 < nd.count → (nd.slot i).block < (nd.slot (i + 1)).block) {i j : Nat}
    (hij : i < j) (hj : j < nd.count) : (nd.slot i).block < (nd.slot j).block := by
  induction j with
  | zero => omega
  | succ j ih =>
    have hstep := h j hj
    rcases Nat.lt_succ_iff_lt_or_eq.1 hij with hlt | rfl
    · have := ih hlt (by omega)
      omega
    · exact hstep

/-- The extents below a well-formed node are in the interval of the node. -/
theorem leaves_within : ∀ {d lo hi : Nat} {nd : ExtNode}, fs.WfNode d lo hi nd →
    ∀ e ∈ fs.leaves d nd, e.Wf ∧ lo ≤ e.block ∧ e.block + e.size ≤ hi := by
  intro d
  induction d with
  | zero =>
    intro lo hi nd h
    exact h.2
  | succ d ih =>
    intro lo hi nd h e he
    obtain ⟨hpos, hlo, hkeys, hchild⟩ := h
    obtain ⟨c, hc, he⟩ := List.mem_flatMap.1 he
    obtain ⟨i, hi', rfl⟩ := mem_entries.1 hc
    obtain ⟨-, -, -, -, hwf⟩ := hchild i hi'
    obtain ⟨hewf, h1, h2⟩ := ih hwf e he
    have hfirst : lo ≤ (nd.slot i).block := by
      rcases Nat.eq_zero_or_pos i with rfl | hi0
      · exact hlo
      · have := keys_lt hkeys hi0 hi'
        omega
    have hup : nd.upper hi i ≤ hi := by
      unfold ExtNode.upper
      split
      · rename_i hnext
        exact (hchild (i + 1) hnext).1.le
      · exact Nat.le_refl _
    exact ⟨hewf, by omega, by omega⟩

theorem ascending_leaves : ∀ {d lo hi : Nat} {nd : ExtNode}, fs.WfNode d lo hi nd →
    Ascending ((fs.leaves d nd).map ExtEntry.run) := by
  intro d
  induction d with
  | zero =>
    intro lo hi nd h
    exact h.1
  | succ d ih =>
    intro lo hi nd h
    obtain ⟨hpos, hlo, hkeys, hchild⟩ := h
    unfold Ascending
    rw [List.pairwise_map, ExtFs.leaves, List.pairwise_flatMap]
    constructor
    · intro c hc
      obtain ⟨i, hi', rfl⟩ := mem_entries.1 hc
      exact List.pairwise_map.1 (ih (hchild i hi').2.2.2.2)
    · rw [ExtNode.entries, List.pairwise_map]
      refine List.Pairwise.imp_of_mem ?_ List.pairwise_lt_range
      intro i j hi' hj hij a ha b hb
      rw [List.mem_range] at hi' hj
      have h1 := (leaves_within (hchild i hi').2.2.2.2 a ha).2.2
      have h2 := (leaves_within (hchild j hj).2.2.2.2 b hb).2.1
      have hup : nd.upper hi i ≤ (nd.slot j).block := by
        unfold ExtNode.upper
        rw [if_pos (by omega)]
        rcases Nat.eq_or_lt_of_le (Nat.succ_le_of_lt hij) with h | h
        · rw [← h]
        · exact (keys_lt hkeys h hj).le
      simp only [ExtEntry.run]
      omega

def nodeOf (depth max : Nat) (l : List ExtEntry) : ExtNode :=
  ⟨extentMagic, l.length, max, depth, 0, fun i => l.getD i (ExtEntry.of 0 0 0)⟩

private theorem entries_nodeOf (depth max : Nat) (l : List ExtEntry) : (nodeOf depth max l).entries = l := by
  refine List.ext_getElem (by simp [nodeOf]) fun i hi _ => ?_
  have hlt : i < l.length := by simpa [nodeOf] using hi
  simp [ExtNode.entries, nodeOf, List.getElem?_eq_getElem hlt]

theorem wfNode_single (fs : ExtFs) (depth max : Nat) {e : ExtEntry} (he : e.Wf) {lo hi : Nat} (hlo : lo ≤ e.block)
    (hhi : e.block + e.size ≤ hi) : fs.WfNode 0 lo hi (nodeOf depth max [e]) := by
  rw [ExtFs.WfNode, entries_nodeOf]
  refine ⟨List.pairwise_singleton _ _, ?_⟩
  intro x hx
  rw [List.mem_singleton] at hx
  subst hx
  exact ⟨he, hlo, hhi⟩

/-- The file system `smallFs` with a leaf of one extent in each block. -/
def smallExtFs : ExtFs where
  toFs := smallFs
  rdonly := false
  metadataCsum := false
  nodes := fun _ => ⟨nodeOf 0 84 [ExtEntry.of 2 20 3], false⟩

def smallExtInode (root : ExtNode) : ExtInode where
  base := ⟨12, fun _ => 0, fun _ => by decide, 12, 0, false⟩
  size := 8192
  extentsFl := true
  root := root

theorem smallTree_wf : (smallExtInode (nodeOf 1 4 [ExtEntry.of 0 50 0])).Wf smallExtFs := by
  refine ⟨rfl, rfl, by decide, by decide, fun i hi => absurd hi (Nat.not_lt.2 (Nat.le_add_left 1 i)), ?_⟩
  intro i hi
  have hi0 : i = 0 := Nat.lt_one_iff.1 hi
  subst hi0
  exact ⟨by decide, rfl, rfl, by decide, wfNode_single _ _ _ ⟨by decide, by decide, by decide, by decide⟩ (by decide)
    (by decide)⟩

theorem ExtInode.Wf.ascending {inode : ExtInode} (h : inode.Wf fs) :
    Ascending ((inode.leaves fs).map ExtEntry.run) :=
  ascending_leaves h.tree

end

end Pml.Ext2
