import Mathlib.Algebra.Group.Nat.Defs
import Mathlib.Data.List.Nodup

/-!
# Trees of numbered blocks

A table has `n` entries, which are numbers of blocks, and 0 is no block.  Below an entry of level `ℓ` there are `ℓ`
levels of tables and then the data blocks, at the positions below `n ^ ℓ` (`leaf`).  `Forest` says that the blocks
below several entries are all distinct.

`Cuts` says what it means to cut the entries of a forest: at each entry the data from a position on is gone, and so
are the tables that reach beyond this position and have no entries left; everything else is as it was.  Cuts of
adjacent entries compose (`Cuts.append`), and cutting all entries of a table cuts the entry that leads to it
(`Cuts.up`).
-/

namespace BlockTree

variable (look look' : Nat → Nat → Nat) (n : Nat)

/-- The data block at a position below an entry of level `ℓ`, or 0. -/
def leaf : Nat → Nat → Nat → Nat
  | 0, b, _ => b
  | ℓ + 1, b, k => if b = 0 then 0 else leaf ℓ (look b (k / n ^ ℓ)) (k % n ^ ℓ)

/-- The block is below the entry. -/
def Below : Nat → Nat → Nat → Prop
  | 0, b, x => b ≠ 0 ∧ x = b
  | ℓ + 1, b, x => b ≠ 0 ∧ (x = b ∨ ∃ i < n, Below ℓ (look b i) x)

/-- The block is a table below the entry, with positions from `s` on. -/
def Table : Nat → Nat → Nat → Nat → Prop
  | 0, _, _, _ => False
  | ℓ + 1, b, s, x => b ≠ 0 ∧ (x = b ∧ s < n ^ (ℓ + 1) ∨ ∃ i < n, Table ℓ (look b i) (s - i * n ^ ℓ) x)

/-- The blocks below the entry are distinct. -/
def Tree : Nat → Nat → Prop
  | 0, _ => True
  | ℓ + 1, b => b ≠ 0 → (∀ i < n, Tree ℓ (look b i) ∧ ¬Below look n ℓ (look b i) b) ∧
    ∀ i < n, ∀ j < n, i ≠ j → ∀ x, Below look n ℓ (look b i) x → ¬Below look n ℓ (look b j) x

/-- The blocks below the entries from `lo` to `hi` are distinct. -/
structure Forest (lo hi : Nat) (lev ptr : Nat → Nat) : Prop where
  tree : ∀ j, lo ≤ j → j < hi → Tree look n (lev j) (ptr j)
  apart : ∀ i j, lo ≤ i → i < hi → lo ≤ j → j < hi → i ≠ j →
    ∀ x, Below look n (lev i) (ptr i) x → ¬Below look n (lev j) (ptr j) x

/-- The entry `j` has been cut at the position `s j`, for each `j` from `lo` to `hi`, and the blocks `freed` are
gone. -/
structure Cuts (lo hi : Nat) (lev ptr ptr' s : Nat → Nat) (freed : List Nat) : Prop where
  sub : ∀ j, lo ≤ j → j < hi → ∀ x, Below look' n (lev j) (ptr' j) x → Below look n (lev j) (ptr j) x
  frame : ∀ x, (∀ j, lo ≤ j → j < hi → ¬Below look n (lev j) (ptr j) x) → look' x = look x
  leaves : ∀ j, lo ≤ j → j < hi → ∀ k < n ^ lev j,
    leaf look' n (lev j) (ptr' j) k = if s j ≤ k then 0 else leaf look n (lev j) (ptr j) k
  nodup : freed.Nodup
  mem_freed : ∀ x, x ∈ freed ↔
    (∃ j, lo ≤ j ∧ j < hi ∧ ∃ k < n ^ lev j, s j ≤ k ∧ leaf look n (lev j) (ptr j) k = x ∧ x ≠ 0) ∨
    (∃ j, lo ≤ j ∧ j < hi ∧ Table look n (lev j) (ptr j) (s j) x) ∧ ∀ i < n, look' x i = 0

section

variable {look look' : Nat → Nat → Nat} {n ℓ b x s k : Nat}

theorem pow_pos_of_lt (h : k < n ^ (ℓ + 1)) : 0 < n ^ ℓ := Nat.pos_of_ne_zero fun h0 => by
  rw [Nat.pow_succ, h0, Nat.zero_mul] at h
  exact Nat.not_lt_zero _ h

theorem digit_lt (h : k < n ^ (ℓ + 1)) : k / n ^ ℓ < n := by
  rw [Nat.div_lt_iff_lt_mul (pow_pos_of_lt h), Nat.mul_comm, ← Nat.pow_succ]
  exact h

/-- A position below the entry `i` of a table, as one below the table. -/
theorem digit_add_lt {i : Nat} (hi : i < n) (hk : k < n ^ ℓ) : i * n ^ ℓ + k < n ^ (ℓ + 1) := by
  have hlast : (i + 1) * n ^ ℓ ≤ n * n ^ ℓ := Nat.mul_le_mul_right _ hi
  rw [Nat.succ_mul] at hlast
  rw [Nat.pow_succ']
  omega

theorem digit_add {i : Nat} (hk : k < n ^ ℓ) : (i * n ^ ℓ + k) / n ^ ℓ = i ∧ (i * n ^ ℓ + k) % n ^ ℓ = k := by
  have hpos : 0 < n ^ ℓ := Nat.zero_lt_of_lt hk
  rw [Nat.mul_comm]
  refine ⟨?_, by rw [Nat.mul_add_mod, Nat.mod_eq_of_lt hk]⟩
  rw [Nat.mul_add_div hpos, Nat.div_eq_of_lt hk, Nat.add_zero]

theorem leaf_zero : leaf look n ℓ 0 k = 0 := by
  cases ℓ with
  | zero => rfl
  | succ ℓ => exact if_pos rfl

theorem not_below_zero : ¬Below look n ℓ 0 x := by
  cases ℓ with
  | zero => exact fun h => h.1 rfl
  | succ ℓ => exact fun h => h.1 rfl

theorem not_table_zero : ¬Table look n ℓ 0 s x := by
  cases ℓ with
  | zero => exact id
  | succ ℓ => exact fun h => h.1 rfl

private theorem below_self (h : b ≠ 0) : Below look n ℓ b b := by
  cases ℓ with
  | zero => exact ⟨h, rfl⟩
  | succ ℓ => exact ⟨h, Or.inl rfl⟩

private theorem leaf_below (hk : k < n ^ ℓ) (h : leaf look n ℓ b k = x) (hx : x ≠ 0) : Below look n ℓ b x := by
  induction ℓ generalizing b k with
  | zero => exact ⟨fun hb => hx (h.symm.trans hb), h.symm⟩
  | succ ℓ ih =>
    by_cases hb : b = 0
    · rw [hb, leaf_zero] at h
      exact absurd h.symm hx
    · rw [leaf, if_neg hb] at h
      exact ⟨hb, Or.inr ⟨_, digit_lt hk, ih (Nat.mod_lt _ (pow_pos_of_lt hk)) h⟩⟩

theorem Table.below (h : Table look n ℓ b s x) : Below look n ℓ b x := by
  induction ℓ generalizing b s with
  | zero => exact h.elim
  | succ ℓ ih =>
    obtain ⟨hb, ⟨hx, -⟩ | ⟨i, hi, ht⟩⟩ := h
    · exact ⟨hb, Or.inl hx⟩
    · exact ⟨hb, Or.inr ⟨i, hi, ih ht⟩⟩

/-- The tables below an entry end with its last position. -/
theorem Table.lt (h : Table look n ℓ b s x) : s < n ^ ℓ := by
  induction ℓ generalizing b s with
  | zero => exact h.elim
  | succ ℓ ih =>
    obtain ⟨-, ⟨-, hs⟩ | ⟨i, hi, ht⟩⟩ := h
    · exact hs
    · have h1 := digit_add_lt hi (ih ht)
      omega

/-- Only the blocks below an entry matter to it. -/
private theorem congr_below (h : ∀ y, Below look n ℓ b y → look' y = look y) :
    (∀ x, Below look' n ℓ b x ↔ Below look n ℓ b x) ∧ (∀ k < n ^ ℓ, leaf look' n ℓ b k = leaf look n ℓ b k) ∧
      (∀ s x, Table look' n ℓ b s x ↔ Table look n ℓ b s x) := by
  induction ℓ generalizing b with
  | zero => exact ⟨fun _ => Iff.rfl, fun _ _ => rfl, fun _ _ => Iff.rfl⟩
  | succ ℓ ih =>
    by_cases hb : b = 0
    · subst hb
      refine ⟨fun x => iff_of_false not_below_zero not_below_zero, fun k _ => ?_, fun s x =>
        iff_of_false not_table_zero not_table_zero⟩
      rw [leaf_zero, leaf_zero]
    · have h0 : look' b = look b := h b (below_self hb)
      have hnext := fun i (hi : i < n) => ih (b := look b i) fun y hy => h y ⟨hb, Or.inr ⟨i, hi, hy⟩⟩
      refine ⟨fun x => ?_, fun k hk => ?_, fun s x => ?_⟩
      · simp only [Below, h0]
        refine and_congr_right fun _ =>
          or_congr_right (exists_congr fun i => and_congr_right fun hi => (hnext i hi).1 x)
      · rw [leaf, leaf, if_neg hb, if_neg hb, h0]
        exact (hnext _ (digit_lt hk)).2.1 _ (Nat.mod_lt _ (pow_pos_of_lt hk))
      · simp only [Table, h0]
        refine and_congr_right fun _ => or_congr_right (exists_congr fun i => and_congr_right fun hi =>
          (hnext i hi).2.2 _ x)

theorem Tree.congr (h : Tree look n ℓ b) (hlook : ∀ y, Below look n ℓ b y → look' y = look y) : Tree look' n ℓ b := by
  induction ℓ generalizing b with
  | zero => trivial
  | succ ℓ ih =>
    intro hb
    obtain ⟨h1, h2⟩ := h hb
    have h0 : look' b = look b := hlook b (below_self hb)
    have hnext : ∀ i < n, ∀ y, Below look n ℓ (look b i) y → look' y = look y := fun i hi y hy =>
      hlook y ⟨hb, Or.inr ⟨i, hi, hy⟩⟩
    have hbelow := fun i (hi : i < n) => (congr_below (hnext i hi)).1
    rw [h0]
    refine ⟨fun i hi => ⟨ih (h1 i hi).1 (hnext i hi), ?_⟩, fun i hi j hj hij x hx => ?_⟩
    · rw [hbelow i hi]
      exact (h1 i hi).2
    · rw [hbelow j hj]
      exact h2 i hi j hj hij x ((hbelow i hi x).1 hx)

theorem Tree.forest (h : Tree look n (ℓ + 1) b) (hb : b ≠ 0) : Forest look n 0 n (fun _ => ℓ) (look b) where
  tree := fun j _ hj => ((h hb).1 j hj).1
  apart := fun i j _ hi _ hj => (h hb).2 i hi j hj

end

section

variable {look look₁ look₂ : Nat → Nat → Nat} {n lo mid hi : Nat} {lev ptr ptr₁ ptr₂ s : Nat → Nat}
    {freed₁ freed₂ : List Nat}

theorem Forest.mono (h : Forest look n lo hi lev ptr) {lo' hi' : Nat} (h1 : lo ≤ lo') (h2 : hi' ≤ hi) :
    Forest look n lo' hi' lev ptr where
  tree := fun j hj hj' => h.tree j (by omega) (by omega)
  apart := fun i j hi hi' hj hj' => h.apart i j (by omega) (by omega) (by omega) (by omega)

/-- A forest stays one if its blocks do not change. -/
theorem Forest.congr (h : Forest look n lo hi lev ptr) (hptr : ∀ j, lo ≤ j → j < hi → ptr₁ j = ptr j)
    (hlook : ∀ j, lo ≤ j → j < hi → ∀ y, Below look n (lev j) (ptr j) y → look₁ y = look y) :
    Forest look₁ n lo hi lev ptr₁ where
  tree := fun j hj hj' => by
    rw [hptr j hj hj']
    exact (h.tree j hj hj').congr (hlook j hj hj')
  apart := fun i j hi hi' hj hj' hij x hx => by
    rw [hptr j hj hj', (congr_below (hlook j hj hj')).1]
    rw [hptr i hi hi', (congr_below (hlook i hi hi')).1] at hx
    exact h.apart i j hi hi' hj hj' hij x hx

/-- The other entries of a forest are not changed by a cut. -/
theorem Cuts.others (h : Cuts look look₁ n lo mid lev ptr ptr₁ s freed₁) (hf : Forest look n lo hi lev ptr)
    {j : Nat} (hj : mid ≤ j) (hj' : j < hi) :
    ∀ y, Below look n (lev j) (ptr j) y → look₁ y = look y := by
  intro y hy
  refine h.frame y fun i hi hi' hb => ?_
  exact hf.apart i j hi (by omega) (by omega) hj' (by omega) y hb hy

/-- What is gone was below one of the entries. -/
theorem Cuts.below (h : Cuts look look₁ n lo hi lev ptr ptr₁ s freed₁) {x : Nat} (hx : x ∈ freed₁) :
    ∃ j, lo ≤ j ∧ j < hi ∧ Below look n (lev j) (ptr j) x := by
  rcases (h.mem_freed x).1 hx with ⟨j, hj, hj', k, hk, -, hleaf, h0⟩ | ⟨⟨j, hj, hj', ht⟩, -⟩
  · exact ⟨j, hj, hj', leaf_below hk hleaf h0⟩
  · exact ⟨j, hj, hj', ht.below⟩

/-- No entries. -/
theorem Cuts.nil (look : Nat → Nat → Nat) (n lo : Nat) (lev ptr s : Nat → Nat) :
    Cuts look look n lo lo lev ptr ptr s [] where
  sub := fun j h h' => by omega
  frame := fun _ _ => rfl
  leaves := fun j h h' => by omega
  nodup := List.nodup_nil
  mem_freed := fun x => by
    refine iff_of_false List.not_mem_nil ?_
    rintro (⟨j, h, h', -⟩ | ⟨⟨j, h, h', -⟩, -⟩)
    · omega
    · omega

/-- Entries that end before the position of the cut, or that are 0, stay as they are. -/
theorem Cuts.skip (look : Nat → Nat → Nat) {n lo hi : Nat} {lev ptr s : Nat → Nat}
    (h : ∀ j, lo ≤ j → j < hi → ptr j = 0 ∨ n ^ lev j ≤ s j) : Cuts look look n lo hi lev ptr ptr s [] where
  sub := fun _ _ _ _ hx => hx
  frame := fun _ _ => rfl
  leaves := fun j hj hj' k hk => by
    rcases h j hj hj' with h0 | hs
    · rw [h0, leaf_zero, ite_self]
    · rw [if_neg (by omega)]
  nodup := List.nodup_nil
  mem_freed := fun x => by
    refine iff_of_false List.not_mem_nil ?_
    rintro (⟨j, hj, hj', k, hk, hs, hleaf, h0⟩ | ⟨⟨j, hj, hj', ht⟩, -⟩)
    · rcases h j hj hj' with hz | hle
      · rw [hz, leaf_zero] at hleaf
        exact h0 hleaf.symm
      · omega
    · rcases h j hj hj' with hz | hle
      · rw [hz] at ht
        exact not_table_zero ht
      · exact absurd ht.lt (by omega)

/-- Cuts of adjacent entries. -/
theorem Cuts.append (h₁ : Cuts look look₁ n lo mid lev ptr ptr₁ s freed₁)
    (h₂ : Cuts look₁ look₂ n mid hi lev ptr₁ ptr₂ s freed₂) (hf : Forest look n lo hi lev ptr) (hlo : lo ≤ mid)
    (hhi : mid ≤ hi) (hptr₁ : ∀ j, mid ≤ j → j < hi → ptr₁ j = ptr j)
    (hptr₂ : ∀ j, lo ≤ j → j < mid → ptr₂ j = ptr₁ j) :
    Cuts look look₂ n lo hi lev ptr ptr₂ s (freed₁ ++ freed₂) := by
  -- the second cut sees its entries as they were
  have hsame : ∀ j, mid ≤ j → j < hi → (∀ x, Below look₁ n (lev j) (ptr₁ j) x ↔ Below look n (lev j) (ptr j) x) ∧
      (∀ k < n ^ lev j, leaf look₁ n (lev j) (ptr₁ j) k = leaf look n (lev j) (ptr j) k) ∧
      (∀ s x, Table look₁ n (lev j) (ptr₁ j) s x ↔ Table look n (lev j) (ptr j) s x) := fun j hj hj' => by
    rw [hptr₁ j hj hj']
    exact congr_below (h₁.others hf hj hj')
  -- and leaves the entries of the first cut alone
  have hkeep : ∀ i, lo ≤ i → i < mid → ∀ y, Below look n (lev i) (ptr i) y → look₂ y = look₁ y := by
    intro i hi hi' y hy
    refine h₂.frame y fun j hj hj' hb => ?_
    rw [(hsame j hj hj').1] at hb
    exact hf.apart i j hi (by omega) (by omega) hj' (by omega) y hy hb
  have hleft : ∀ i, lo ≤ i → i < mid → (∀ x, Below look₂ n (lev i) (ptr₂ i) x ↔ Below look₁ n (lev i) (ptr₁ i) x) ∧
      (∀ k < n ^ lev i, leaf look₂ n (lev i) (ptr₂ i) k = leaf look₁ n (lev i) (ptr₁ i) k) := fun i hi hi' => by
    have hcongr := @congr_below look₁ look₂ n (lev i) (ptr₁ i)
      fun y hy => hkeep i hi hi' y (h₁.sub i hi hi' y hy)
    rw [hptr₂ i hi hi']
    exact ⟨hcongr.1, hcongr.2.1⟩
  refine ⟨fun j hj hj' x hx => ?_, fun x hx => ?_, fun j hj hj' k hk => ?_, ?_, fun x => ?_⟩
  · rcases Nat.lt_or_ge j mid with hlt | hge
    · exact h₁.sub j hj hlt x (((hleft j hj hlt).1 x).1 hx)
    · exact ((hsame j hge hj').1 x).1 (h₂.sub j hge hj' x hx)
  · rw [h₂.frame x fun j hj hj' => ?_]
    · exact h₁.frame x fun j hj hj' => hx j hj (by omega)
    · rw [(hsame j hj hj').1]
      exact hx j (by omega) hj'
  · rcases Nat.lt_or_ge j mid with hlt | hge
    · rw [(hleft j hj hlt).2 k hk, h₁.leaves j hj hlt k hk]
    · rw [h₂.leaves j hge hj' k hk, (hsame j hge hj').2.1 k hk]
  · refine List.nodup_append.2 ⟨h₁.nodup, h₂.nodup, ?_⟩
    rintro x hx y hy rfl
    obtain ⟨i, hi, hi', hb⟩ := h₁.below hx
    obtain ⟨j, hj, hj', hb'⟩ := h₂.below hy
    rw [(hsame j hj hj').1] at hb'
    exact hf.apart i j hi (by omega) (by omega) hj' (by omega) x hb hb'
  · rw [List.mem_append, h₁.mem_freed, h₂.mem_freed]
    constructor
    · rintro ((⟨j, hj, hj', h⟩ | ⟨⟨j, hj, hj', ht⟩, h0⟩)
        | (⟨j, hj, hj', k, hk, hs, hleaf, h0⟩ | ⟨⟨j, hj, hj', ht⟩, h0⟩))
      · exact Or.inl ⟨j, hj, by omega, h⟩
      · refine Or.inr ⟨⟨j, hj, by omega, ht⟩, fun i hi => ?_⟩
        rw [hkeep j hj hj' x ht.below]
        exact h0 i hi
      · rw [(hsame j hj hj').2.1 k hk] at hleaf
        exact Or.inl ⟨j, by omega, hj', k, hk, hs, hleaf, h0⟩
      · rw [(hsame j hj hj').2.2] at ht
        exact Or.inr ⟨⟨j, by omega, hj', ht⟩, h0⟩
    · rintro (⟨j, hj, hj', k, hk, hs, hleaf, h0⟩ | ⟨⟨j, hj, hj', ht⟩, h0⟩)
      · rcases Nat.lt_or_ge j mid with hlt | hge
        · exact Or.inl (Or.inl ⟨j, hj, hlt, k, hk, hs, hleaf, h0⟩)
        · rw [← (hsame j hge hj').2.1 k hk] at hleaf
          exact Or.inr (Or.inl ⟨j, hge, hj', k, hk, hs, hleaf, h0⟩)
      · rcases Nat.lt_or_ge j mid with hlt | hge
        · refine Or.inl (Or.inr ⟨⟨j, hj, hlt, ht⟩, fun i hi => ?_⟩)
          rw [← hkeep j hj hlt x ht.below]
          exact h0 i hi
        · rw [← (hsame j hge hj').2.2] at ht
          exact Or.inr (Or.inr ⟨⟨j, hge, hj', ht⟩, h0⟩)

/-- A data block is cut off. -/
theorem Cuts.data {j b : Nat} (hlev : lev j = 0) (hptr : ptr j = b) (hb : b ≠ 0) (hs : s j = 0) (hnew : ptr₁ j = 0) :
    Cuts look look n j (j + 1) lev ptr ptr₁ s [b] := by
  have hone : ∀ {i}, j ≤ i → i < j + 1 → i = j := fun h h' => by omega
  refine ⟨fun i hi hi' x hx => ?_, fun _ _ => rfl, fun i hi hi' k hk => ?_, List.nodup_singleton _, fun x => ?_⟩
  · obtain rfl := hone hi hi'
    rw [hnew] at hx
    exact absurd hx not_below_zero
  · obtain rfl := hone hi hi'
    rw [hnew, leaf_zero, if_pos (by omega)]
  · rw [List.mem_singleton]
    constructor
    · rintro rfl
      refine Or.inl ⟨j, Nat.le_refl _, Nat.lt_succ_self _, 0, by rw [hlev, Nat.pow_zero]; decide, by omega, ?_, hb⟩
      rw [hlev, hptr]
      rfl
    · rintro (⟨i, hi, hi', k, hk, -, hleaf, -⟩ | ⟨⟨i, hi, hi', ht⟩, -⟩)
      · obtain rfl := hone hi hi'
        rw [hlev, hptr] at hleaf
        exact hleaf.symm
      · obtain rfl := hone hi hi'
        rw [hlev] at ht
        exact ht.elim

end

section

variable {look look₁ look₂ : Nat → Nat → Nat} {n ℓ b t : Nat} {ptr' : Nat → Nat} {freed : List Nat}

/-- The entries of a table are cut, and the table is written back.  If it has no entries left then it is gone as
well. -/
theorem Cuts.up (hn : 0 < n) (htree : Tree look n (ℓ + 1) b) (hb : b ≠ 0) (ht : t < n ^ (ℓ + 1))
    (h : Cuts look look₁ n 0 n (fun _ => ℓ) (look b) ptr' (fun i => t - i * n ^ ℓ) freed)
    (hself : ∀ i < n, look₂ b i = ptr' i) (hother : ∀ x, x ≠ b → look₂ x = look₁ x) {j b' : Nat}
    {lev ptr ptr₂ s : Nat → Nat} {freed' : List Nat} (hlev : lev j = ℓ + 1) (hptr : ptr j = b) (hs : s j = t)
    (hptr₂ : ptr₂ j = b')
    (hcase : ((∀ i < n, ptr' i = 0) ∧ b' = 0 ∧ freed' = freed ++ [b]) ∨
      ((∃ i < n, ptr' i ≠ 0) ∧ b' = b ∧ freed' = freed)) :
    Cuts look look₂ n j (j + 1) lev ptr ptr₂ s freed' := by
  have hone : ∀ {i}, j ≤ i → i < j + 1 → i = j := fun h h' => by omega
  have hpos : 0 < n ^ ℓ := Nat.pow_pos hn
  obtain ⟨hkids, -⟩ := htree hb
  -- the table is not below its own entries
  have hnot : ∀ i < n, ¬Below look n ℓ (look b i) b := fun i hi => (hkids i hi).2
  have hnot₁ : ∀ i < n, ¬Below look₁ n ℓ (ptr' i) b := fun i hi hx => hnot i hi (h.sub i (Nat.zero_le _) hi b hx)
  have hcongr : ∀ i < n, (∀ x, Below look₂ n ℓ (ptr' i) x ↔ Below look₁ n ℓ (ptr' i) x) ∧
      (∀ k < n ^ ℓ, leaf look₂ n ℓ (ptr' i) k = leaf look₁ n ℓ (ptr' i) k) := fun i hi => by
    have hc := @congr_below look₁ look₂ n ℓ (ptr' i)
      fun y hy => hother y fun hyb => hnot₁ i hi (hyb ▸ hy)
    exact ⟨hc.1, hc.2.1⟩
  have hnotmem : b ∉ freed := fun hmem => by
    obtain ⟨i, -, hi, hbelow⟩ := h.below hmem
    exact hnot i hi hbelow
  -- the positions below an entry of the table are those of the table
  have hcut : ∀ k, t - k / n ^ ℓ * n ^ ℓ ≤ k % n ^ ℓ ↔ t ≤ k := fun k => by
    have hk := Nat.div_add_mod' k (n ^ ℓ)
    generalize k / n ^ ℓ * n ^ ℓ = q at hk ⊢
    generalize k % n ^ ℓ = r at hk ⊢
    omega
  have hkeep : ∀ k < n ^ (ℓ + 1), leaf look₁ n ℓ (ptr' (k / n ^ ℓ)) (k % n ^ ℓ) =
      if t ≤ k then 0 else leaf look n (ℓ + 1) b k := fun k hk => by
    rw [h.leaves _ (Nat.zero_le _) (digit_lt hk) _ (Nat.mod_lt _ hpos), leaf, if_neg hb]
    simp only [hcut k]
  -- the data below the entries of the table
  have hdata : ∀ x, (∃ k < n ^ (ℓ + 1), t ≤ k ∧ leaf look n (ℓ + 1) b k = x ∧ x ≠ 0) ↔
      ∃ i, 0 ≤ i ∧ i < n ∧ ∃ k < n ^ ℓ, t - i * n ^ ℓ ≤ k ∧ leaf look n ℓ (look b i) k = x ∧ x ≠ 0 := by
    intro x
    constructor
    · rintro ⟨k, hk, htk, hleaf, h0⟩
      rw [leaf, if_neg hb] at hleaf
      exact ⟨k / n ^ ℓ, Nat.zero_le _, digit_lt hk, k % n ^ ℓ, Nat.mod_lt _ hpos, (hcut k).2 htk, hleaf, h0⟩
    · rintro ⟨i, -, hi, k, hk, htk, hleaf, h0⟩
      obtain ⟨hdiv, hmod⟩ := digit_add (i := i) hk
      refine ⟨i * n ^ ℓ + k, digit_add_lt hi hk, by omega, ?_, h0⟩
      rw [leaf, if_neg hb, hdiv, hmod]
      exact hleaf
  have hfreed : ∀ x, x ≠ b → (x ∈ freed ↔
      (∃ k < n ^ (ℓ + 1), t ≤ k ∧ leaf look n (ℓ + 1) b k = x ∧ x ≠ 0) ∨
      Table look n (ℓ + 1) b t x ∧ ∀ i < n, look₂ x i = 0) := by
    intro x hx
    rw [h.mem_freed, ← hdata, hother x hx]
    refine or_congr_right (and_congr_left fun _ => ?_)
    constructor
    · rintro ⟨i, -, hi, htab⟩
      exact ⟨hb, Or.inr ⟨i, hi, htab⟩⟩
    · rintro ⟨-, ⟨rfl, -⟩ | ⟨i, hi, htab⟩⟩
      · exact absurd rfl hx
      · exact ⟨i, Nat.zero_le _, hi, htab⟩
  -- the table itself is no data block
  have hnodata : ¬∃ k < n ^ (ℓ + 1), t ≤ k ∧ leaf look n (ℓ + 1) b k = b ∧ b ≠ 0 := by
    rw [hdata]
    rintro ⟨i, -, hi, k, hk, -, hleaf, h0⟩
    exact hnot i hi (leaf_below hk hleaf h0)
  have hmem : ∀ x, x ∈ freed' ↔ (∃ k < n ^ (ℓ + 1), t ≤ k ∧ leaf look n (ℓ + 1) b k = x ∧ x ≠ 0) ∨
      Table look n (ℓ + 1) b t x ∧ ∀ i < n, look₂ x i = 0 := by
    intro x
    by_cases hx : x = b
    · subst hx
      have htab : Table look n (ℓ + 1) x t x := ⟨hb, Or.inl ⟨rfl, ht⟩⟩
      rcases hcase with ⟨hz, -, rfl⟩ | ⟨⟨i, hi, h0⟩, -, rfl⟩
      · refine iff_of_true (List.mem_append_right _ List.mem_cons_self) (Or.inr ⟨htab, fun i hi => ?_⟩)
        rw [hself i hi, hz i hi]
      · refine iff_of_false hnotmem ?_
        rintro (h1 | ⟨-, h1⟩)
        · exact hnodata h1
        · exact h0 (by rw [← hself i hi, h1 i hi])
    · rw [← hfreed x hx]
      rcases hcase with ⟨-, -, rfl⟩ | ⟨-, -, rfl⟩
      · rw [List.mem_append, List.mem_singleton]
        exact or_iff_left hx
      · exact Iff.rfl
  refine ⟨fun i hi hi' x hx => ?_, fun x hx => ?_, fun i hi hi' k hk => ?_, ?_, fun x => ?_⟩
  · obtain rfl := hone hi hi'
    rw [hlev, hptr]
    rw [hlev, hptr₂] at hx
    rcases hcase with ⟨-, rfl, -⟩ | ⟨-, rfl, -⟩
    · exact absurd hx not_below_zero
    · obtain ⟨-, hxb | ⟨m, hm, hx⟩⟩ := hx
      · rw [hxb]
        exact below_self hb
      · rw [hself m hm, (hcongr m hm).1] at hx
        exact ⟨hb, Or.inr ⟨m, hm, h.sub m (Nat.zero_le _) hm x hx⟩⟩
  · have hx' := hx j (Nat.le_refl _) (Nat.lt_succ_self _)
    rw [hlev, hptr] at hx'
    have hxb : x ≠ b := by
      rintro rfl
      exact hx' (below_self hb)
    rw [hother x hxb]
    exact h.frame x fun i _ hi hbelow => hx' ⟨hb, Or.inr ⟨i, hi, hbelow⟩⟩
  · obtain rfl := hone hi hi'
    rw [hlev] at hk ⊢
    rw [hptr, hptr₂, hs, ← hkeep k hk]
    rcases hcase with ⟨hz, rfl, -⟩ | ⟨-, rfl, -⟩
    · rw [hz _ (digit_lt hk), leaf_zero, leaf_zero]
    · rw [leaf, if_neg hb, hself _ (digit_lt hk), (hcongr _ (digit_lt hk)).2 _ (Nat.mod_lt _ hpos)]
  · rcases hcase with ⟨-, -, rfl⟩ | ⟨-, -, rfl⟩
    · exact List.nodup_append.2 ⟨h.nodup, List.nodup_singleton _, fun x hx y hy => by
        rw [List.mem_singleton.1 hy]
        rintro rfl
        exact hnotmem hx⟩
    · exact h.nodup
  · rw [hmem]
    constructor
    · rintro (⟨k, hk, h1⟩ | ⟨h1, h2⟩)
      · refine Or.inl ⟨j, Nat.le_refl _, Nat.lt_succ_self _, k, by rw [hlev]; exact hk, ?_⟩
        rw [hs, hlev, hptr]
        exact h1
      · refine Or.inr ⟨⟨j, Nat.le_refl _, Nat.lt_succ_self _, ?_⟩, h2⟩
        rw [hlev, hptr, hs]
        exact h1
    · rintro (⟨i, hi, hi', k, hk, h1⟩ | ⟨⟨i, hi, hi', h1⟩, h2⟩)
      · obtain rfl := hone hi hi'
        rw [hs, hlev, hptr] at h1
        exact Or.inl ⟨k, by rw [← hlev]; exact hk, h1⟩
      · obtain rfl := hone hi hi'
        rw [hlev, hptr, hs] at h1
        exact Or.inr ⟨h1, h2⟩

end

end BlockTree
