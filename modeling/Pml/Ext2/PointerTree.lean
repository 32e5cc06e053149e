import Pml.Ext2.BlockSet
import Pml.Lib.BlockTree

/-!
# The pointers of a file as a forest

The 15 pointers of the inode are entries of levels 0 to 3, and the logical blocks are the positions below them, one
pointer after the other (`slotBase`).  If no block is at two places of the file then the blocks below the pointers are
distinct (`inode_forest`), and the block map is the map of the positions to the data blocks (`pathBlock_slot`).
-/

namespace Pml.Ext2

open ByteMemory Radix BlockTree

def tables (disk : Nat → Mem) (b i : Nat) : Nat := word (disk b) i

def slotLevel (r : Nat) : Nat := r + 1 - ndirBlocks

def slotBase (n r : Nat) : Nat :=
  if r ≤ indBlock then r else if r = dindBlock then ndirBlocks + n else ndirBlocks + n + n * n

def fileLimit (n : Nat) : Nat := ndirBlocks + n + n * n + n * n * n

/-- The pointers on the way to a position below an entry of level `ℓ`. -/
def digits (n : Nat) : Nat → Nat → List Nat
  | 0, _ => []
  | ℓ + 1, k => k / n ^ ℓ :: digits n ℓ (k % n ^ ℓ)

section

variable {fs : Fs} {n ℓ b x k : Nat}

private theorem look_of_ne (inode : Inode) (hb : b ≠ 0) (i : Nat) : look fs inode b i = tables fs.disk b i :=
  if_neg hb

private theorem below_path (inode : Inode) (h : Below (tables fs.disk) n ℓ b x) :
    ∃ p, p.length ≤ ℓ ∧ (∀ i ∈ p, i < n) ∧ walk (look fs inode) target b p = some x := by
  induction ℓ generalizing b with
  | zero =>
    obtain ⟨-, rfl⟩ := h
    exact ⟨[], Nat.le_refl _, fun i hi => absurd hi List.not_mem_nil, rfl⟩
  | succ ℓ ih =>
    obtain ⟨hb, rfl | ⟨i, hi, h⟩⟩ := h
    · exact ⟨[], Nat.zero_le _, fun i hi => absurd hi List.not_mem_nil, rfl⟩
    · have hc : tables fs.disk b i ≠ 0 := fun h0 => by
        rw [h0] at h
        exact not_below_zero h
      obtain ⟨p, hlen, hlt, hwalk⟩ := ih h
      refine ⟨i :: p, Nat.succ_le_succ hlen, fun j hj => ?_, ?_⟩
      · rcases List.mem_cons.1 hj with rfl | hj
        · exact hi
        · exact hlt j hj
      · rw [walk_cons, look_of_ne inode hb, target_eq_some.2 ⟨hc, rfl⟩]
        exact hwalk

private theorem leaf_eq (inode : Inode) (hk : k < n ^ ℓ) :
    leaf (tables fs.disk) n ℓ b k = follow fs inode b (digits n ℓ k) := by
  induction ℓ generalizing b k with
  | zero => rw [leaf, digits, follow_nil]
  | succ ℓ ih =>
    by_cases hb : b = 0
    · rw [hb, leaf_zero, follow_zero]
    · rw [leaf, if_neg hb, digits, follow_cons fs inode hb, look_of_ne inode hb,
        ih (Nat.mod_lt _ (pow_pos_of_lt hk))]

/-- The pointer blocks below an entry are those on the way to a position. -/
theorem table_iff {s : Nat} (inode : Inode) (hn : 0 < n) : Table (tables fs.disk) n ℓ b s x ↔ x ≠ 0 ∧ ∃ k,
    s ≤ k ∧ k < n ^ ℓ ∧ ∃ p i q, digits n ℓ k = p ++ i :: q ∧ follow fs inode b p = x := by
  induction ℓ generalizing b s with
  | zero =>
    refine iff_of_false id ?_
    rintro ⟨-, k, -, -, p, i, q, h, -⟩
    exact List.cons_ne_nil i q (List.append_eq_nil_iff.1 h.symm).2
  | succ ℓ ih =>
    have hpos : 0 < n ^ ℓ := Nat.pow_pos hn
    by_cases hb : b = 0
    · subst hb
      refine iff_of_false not_table_zero ?_
      rintro ⟨h0, k, -, -, p, i, q, -, h⟩
      exact h0 (h.symm.trans (follow_zero fs inode p))
    constructor
    · rintro ⟨-, ⟨rfl, hs⟩ | ⟨i, hi, ht⟩⟩
      · exact ⟨hb, s, Nat.le_refl _, hs, [], _, _, rfl, follow_nil fs inode x⟩
      · obtain ⟨h0, k, hsk, hk, p, j, q, hp, hx⟩ := ih.1 ht
        obtain ⟨hdiv, hmod⟩ := digit_add (i := i) hk
        refine ⟨h0, i * n ^ ℓ + k, by omega, digit_add_lt hi hk, i :: p, j, q, ?_, ?_⟩
        · rw [digits, hdiv, hmod, hp, List.cons_append]
        · rw [follow_cons fs inode hb, look_of_ne inode hb]
          exact hx
    · rintro ⟨h0, k, hsk, hk, p, j, q, hp, hx⟩
      rw [digits] at hp
      cases p with
      | nil =>
        rw [follow_nil] at hx
        exact ⟨hb, Or.inl ⟨hx.symm, by omega⟩⟩
      | cons i p =>
        obtain ⟨rfl, hrest⟩ := List.cons.inj hp
        rw [follow_cons fs inode hb, look_of_ne inode hb] at hx
        have hcut : s - k / n ^ ℓ * n ^ ℓ ≤ k % n ^ ℓ := by
          have hdecomp := Nat.div_add_mod' k (n ^ ℓ)
          generalize k / n ^ ℓ * n ^ ℓ = u at hdecomp ⊢
          generalize k % n ^ ℓ = v at hdecomp ⊢
          omega
        exact ⟨hb, Or.inr ⟨_, digit_lt hk, ih.2 ⟨h0, k % n ^ ℓ, hcut, Nat.mod_lt _ hpos, p, j, q, hrest, hx⟩⟩⟩

end

/-! ### The places of the blocks -/

section

variable {fs : Fs} {inode : Inode} (hplaces : ∀ q q' b, Holds fs inode q b → Holds fs inode q' b → q = q')
include hplaces

private theorem below_apart {p p' : List Nat} {b b' ℓ ℓ' x : Nat} (hp : walk (look fs inode) target 0 p = some b)
    (hp' : walk (look fs inode) target 0 p' = some b')
    (hroom : ∀ r, r.length ≤ ℓ → (∀ i ∈ r, i < fs.addrPerBlock) → FilePath fs.addrPerBlock (p ++ r))
    (hroom' : ∀ r, r.length ≤ ℓ' → (∀ i ∈ r, i < fs.addrPerBlock) → FilePath fs.addrPerBlock (p' ++ r))
    (h : Below (tables fs.disk) fs.addrPerBlock ℓ b x) (h' : Below (tables fs.disk) fs.addrPerBlock ℓ' b' x) :
    ∃ r r', p ++ r = p' ++ r' := by
  obtain ⟨r, hlen, hlt, hw⟩ := below_path inode h
  obtain ⟨r', hlen', hlt', hw'⟩ := below_path inode h'
  exact ⟨r, r', hplaces _ _ x ⟨hroom r hlen hlt, (walk_append_of hp r).trans hw⟩
    ⟨hroom' r' hlen' hlt', (walk_append_of hp' r').trans hw'⟩⟩

private theorem tree_of_places {ℓ b : Nat} {p : List Nat} (hp : walk (look fs inode) target 0 p = some b)
    (hroom : ∀ r, r.length ≤ ℓ → (∀ i ∈ r, i < fs.addrPerBlock) → FilePath fs.addrPerBlock (p ++ r)) :
    Tree (tables fs.disk) fs.addrPerBlock ℓ b := by
  induction ℓ generalizing b p with
  | zero => trivial
  | succ ℓ ih =>
    intro hb
    have hstep : ∀ i < fs.addrPerBlock, tables fs.disk b i ≠ 0 →
        walk (look fs inode) target 0 (p ++ [i]) = some (tables fs.disk b i) ∧
          ∀ r, r.length ≤ ℓ → (∀ j ∈ r, j < fs.addrPerBlock) → FilePath fs.addrPerBlock (p ++ [i] ++ r) := by
      refine fun i hi hc => ⟨?_, fun r hlen hlt => ?_⟩
      · rw [walk_append_of hp, walk_singleton, look, if_neg hb]
        exact target_eq_some.2 ⟨hc, rfl⟩
      · rw [List.append_assoc]
        refine hroom _ (Nat.succ_le_succ hlen) fun j hj => ?_
        rcases List.mem_cons.1 hj with rfl | hj
        · exact hi
        · exact hlt j hj
    have hentry : ∀ {i x}, Below (tables fs.disk) fs.addrPerBlock ℓ (tables fs.disk b i) x →
      tables fs.disk b i ≠ 0 := by
      intro i x h h0
      rw [h0] at h
      exact not_below_zero h
    refine ⟨fun i hi => ⟨?_, fun h => ?_⟩, fun i hi j hj hij x h h' => ?_⟩
    · by_cases hc : tables fs.disk b i = 0
      · rw [hc]
        cases ℓ with
        | zero => trivial
        | succ ℓ => exact fun h0 => absurd rfl h0
      · exact ih (hstep i hi hc).1 (hstep i hi hc).2
    · obtain ⟨hw, hr⟩ := hstep i hi (hentry h)
      obtain ⟨r, hlen, hlt, hwr⟩ := below_path inode h
      have hself : Holds fs inode p b := ⟨by
        have h0 := hroom [] (Nat.zero_le _) fun j hj => absurd hj List.not_mem_nil
        rwa [List.append_nil] at h0, hp⟩
      have hsame := hplaces _ _ b hself ⟨hr r hlen hlt, (walk_append_of hw r).trans hwr⟩
      have hlens := congrArg List.length hsame
      rw [List.length_append, List.length_append, List.length_singleton] at hlens
      omega
    · obtain ⟨hw, hr⟩ := hstep i hi (hentry h)
      obtain ⟨hw', hr'⟩ := hstep j hj (hentry h')
      obtain ⟨r, r', hsame⟩ := below_apart hplaces hw hw' hr hr' h h'
      rw [List.append_assoc, List.append_assoc] at hsame
      exact hij (List.cons.inj (List.append_cancel_left hsame)).1

theorem inode_forest : Forest (tables fs.disk) fs.addrPerBlock 0 15 slotLevel inode.iBlock := by
  have hentry : ∀ r < 15, inode.iBlock r ≠ 0 → walk (look fs inode) target 0 [r] = some (inode.iBlock r) ∧
      ∀ q, q.length ≤ slotLevel r → (∀ j ∈ q, j < fs.addrPerBlock) → FilePath fs.addrPerBlock ([r] ++ q) := by
    refine fun r hr h0 => ⟨?_, fun q hlen hlt => ⟨Nat.le_of_lt_succ hr, hlen, hlt⟩⟩
    rw [walk_singleton, look, if_pos rfl]
    exact target_eq_some.2 ⟨h0, rfl⟩
  refine ⟨fun r _ hr => ?_, fun r r' _ hr _ hr' hne x h h' => ?_⟩
  · by_cases h0 : inode.iBlock r = 0
    · rw [h0]
      cases slotLevel r with
      | zero => trivial
      | succ ℓ => exact fun hz => absurd rfl hz
    · exact tree_of_places hplaces (hentry r hr h0).1 (hentry r hr h0).2
  · have hpos : ∀ {r}, Below (tables fs.disk) fs.addrPerBlock (slotLevel r) (inode.iBlock r) x →
      inode.iBlock r ≠ 0 := by
      intro r h h0
      rw [h0] at h
      exact not_below_zero h
    obtain ⟨hw, hroom⟩ := hentry r hr (hpos h)
    obtain ⟨hw', hroom'⟩ := hentry r' hr' (hpos h')
    obtain ⟨q, q', hsame⟩ := below_apart hplaces hw hw' hroom hroom' h h'
    exact hne (List.cons.inj hsame).1

end

/-! ### The positions of the logical blocks -/

section

variable {n : Nat}

private theorem slot_cases {r : Nat} (hr : r < 15) :
    (r < ndirBlocks ∧ slotLevel r = 0 ∧ slotBase n r = r) ∨
    (r = indBlock ∧ slotLevel r = 1 ∧ slotBase n r = ndirBlocks) ∨
    (r = dindBlock ∧ slotLevel r = 2 ∧ slotBase n r = ndirBlocks + n) ∨
    (r = tindBlock ∧ slotLevel r = 3 ∧ slotBase n r = ndirBlocks + n + n * n) := by
  unfold slotLevel slotBase
  dsimp only [tindBlock, dindBlock, indBlock, ndirBlocks]
  rcases Nat.lt_or_ge r 12 with h | h
  · exact Or.inl ⟨h, by omega, if_pos (Nat.le_of_lt h)⟩
  · obtain rfl | rfl | rfl : r = 12 ∨ r = 13 ∨ r = 14 := by omega
    · exact Or.inr (Or.inl ⟨rfl, rfl, if_pos (Nat.le_refl _)⟩)
    · exact Or.inr (Or.inr (Or.inl ⟨rfl, rfl, rfl⟩))
    · exact Or.inr (Or.inr (Or.inr ⟨rfl, rfl, rfl⟩))

theorem blockPath_slot {r k : Nat} (hr : r < 15) (hk : k < n ^ slotLevel r) :
    blockPath n (slotBase n r + k) = r :: digits n (slotLevel r) k := by
  unfold blockPath
  rcases slot_cases (n := n) hr with ⟨h, hl, hb⟩ | ⟨h, hl, hb⟩ | ⟨h, hl, hb⟩ | ⟨h, hl, hb⟩
  · rw [hl, Nat.pow_zero, Nat.lt_one_iff] at hk
    rw [hl, hb, hk, Nat.add_zero, if_pos h, digits]
  · rw [hl, Nat.pow_one] at hk
    rw [hl, hb, h, if_neg (by omega), Nat.add_sub_cancel_left, if_pos hk]
    simp only [digits, Nat.pow_zero, Nat.div_one]
  · rw [hl, Nat.pow_two] at hk
    rw [hl, hb, h, if_neg (by omega), if_neg (by omega), Nat.add_assoc, Nat.add_sub_cancel_left,
      Nat.add_sub_cancel_left, if_pos hk]
    simp only [digits, Nat.pow_zero, Nat.pow_one, Nat.div_one]
  · rw [hl, hb, h, if_neg (by omega), if_neg (by omega),
      show ndirBlocks + n + n * n + k - ndirBlocks - n =
        n * n + k by omega, if_neg (by omega), Nat.add_sub_cancel_left]
    simp only [digits, Nat.pow_zero, Nat.pow_one, Nat.div_one, Nat.pow_two]
    rw [Nat.div_div_eq_div_mul, Nat.mod_mul_right_div_self, Nat.mod_mul_right_mod]

theorem exists_slot {k : Nat} (hk : k < fileLimit n) : ∃ r < 15, ∃ j < n ^ slotLevel r, k = slotBase n r + j := by
  unfold fileLimit at hk
  unfold slotBase slotLevel
  dsimp only [dindBlock, indBlock, ndirBlocks] at *
  by_cases h1 : k < 12
  · refine ⟨k, by omega, 0, ?_, (if_pos (by omega)).symm⟩
    rw [show k + 1 - 12 = 0 by omega, Nat.pow_zero]
    exact Nat.one_pos
  by_cases h2 : k < 12 + n
  · exact ⟨12, by decide, k - 12, by rw [Nat.pow_one]; omega, by rw [if_pos (by decide)]; omega⟩
  by_cases h3 : k < 12 + n + n * n
  · refine ⟨13, by decide, k - 12 - n, by rw [Nat.pow_two]; omega, ?_⟩
    rw [if_neg (by decide), if_pos rfl]
    omega
  · refine ⟨14, by decide, k - 12 - n - n * n, ?_, ?_⟩
    · rw [show 14 + 1 - 12 = 3 from rfl, Nat.pow_succ, Nat.pow_two]
      omega
    · rw [if_neg (by decide), if_neg (by decide)]
      omega

theorem slotBase_add_lt {r j : Nat} (hr : r < 15) (hj : j < n ^ slotLevel r) : slotBase n r + j < fileLimit n := by
  unfold fileLimit
  rcases slot_cases (n := n) hr with ⟨h, hl, hb⟩ | ⟨-, hl, hb⟩ | ⟨-, hl, hb⟩ | ⟨-, hl, hb⟩
  · rw [hl, Nat.pow_zero] at hj
    omega
  · rw [hl, Nat.pow_one] at hj
    omega
  · rw [hl, Nat.pow_two] at hj
    omega
  · rw [hl, Nat.pow_succ, Nat.pow_two] at hj
    omega

theorem pathBlock_slot (fs : Fs) (inode : Inode) {r j : Nat} (hr : r < 15) (hj : j < n ^ slotLevel r) :
    pathBlock fs inode (blockPath n (slotBase n r + j)) = leaf (tables fs.disk) n (slotLevel r)
    (inode.iBlock r) j := by
  rw [blockPath_slot hr hj, pathBlock_cons, leaf_eq inode hj]

end

end Pml.Ext2
