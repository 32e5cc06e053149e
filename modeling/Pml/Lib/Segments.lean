import Mathlib.Data.List.Basic

/-!
# Ranges cut into consecutive segments

`Segments P len lo bs hi` says that the items `bs`, laid out one after the other from `lo`, end exactly at `hi`,
and that each item `b` satisfies `P a b` at the address `a` where it starts.  The relation is compatible with
concatenation (`segments_append`) and only looks at the addresses between `lo` and `hi` (`Segments.mono`), which
is what makes an update inside one item local.
-/

section

variable {β : Type} {P Q : Nat → β → Prop} {len : β → Nat}

/-- The items lie one after the other from `lo` to `hi`, each satisfying `P` where it starts. -/
def Segments (P : Nat → β → Prop) (len : β → Nat) : Nat → List β → Nat → Prop
  | lo, [], hi => lo = hi
  | lo, b :: bs, hi => P lo b ∧ Segments P len (lo + len b) bs hi

@[simp] theorem segments_nil {lo hi : Nat} : Segments P len lo [] hi ↔ lo = hi := Iff.rfl

@[simp] theorem segments_cons {lo hi : Nat} {b : β} {bs : List β} :
    Segments P len lo (b :: bs) hi ↔ P lo b ∧ Segments P len (lo + len b) bs hi := Iff.rfl

theorem segments_append {lo hi : Nat} {bs cs : List β} :
    Segments P len lo (bs ++ cs) hi ↔ ∃ mid, Segments P len lo bs mid ∧ Segments P len mid cs hi := by
  induction bs generalizing lo with
  | nil => simp
  | cons b bs ih =>
    simp only [List.cons_append, segments_cons, ih]
    constructor
    · rintro ⟨hb, mid, h1, h2⟩
      exact ⟨mid, ⟨hb, h1⟩, h2⟩
    · rintro ⟨mid, ⟨hb, h1⟩, h2⟩
      exact ⟨hb, mid, h1, h2⟩

/-- Cutting a range at one of its items. -/
theorem segments_split {lo hi : Nat} {bs cs : List β} {b : β} :
    Segments P len lo (bs ++ b :: cs) hi ↔
      ∃ a, Segments P len lo bs a ∧ P a b ∧ Segments P len (a + len b) cs hi := by
  rw [segments_append]; simp

theorem Segments.le {lo hi : Nat} {bs : List β} (h : Segments P len lo bs hi) : lo ≤ hi := by
  induction bs generalizing lo with
  | nil => exact Nat.le_of_eq h
  | cons b bs ih => exact Nat.le_trans (Nat.le_add_right lo (len b)) (ih h.2)

/-- The end of a range is determined by its items. -/
theorem Segments.end_unique {lo hi hi' : Nat} {bs : List β} (h : Segments P len lo bs hi)
    (h' : Segments Q len lo bs hi') : hi = hi' := by
  induction bs generalizing lo with
  | nil => exact h.symm.trans h'
  | cons b bs ih => exact ih h.2 h'.2

/-- Items keep their places when each of them keeps its property between `lo` and `hi`. -/
theorem Segments.mono {lo hi : Nat} {bs : List β} (h : Segments P len lo bs hi)
    (hPQ : ∀ a b, b ∈ bs → lo ≤ a → a + len b ≤ hi → P a b → Q a b) : Segments Q len lo bs hi := by
  induction bs generalizing lo with
  | nil => exact h
  | cons b bs ih =>
    have hle := h.2.le
    refine ⟨hPQ lo b (by simp) (Nat.le_refl lo) hle h.1, ih h.2 fun a c hc h1 h2 => ?_⟩
    exact hPQ a c (by simp [hc]) (by omega) h2

/-- Where an address determines its item, a range is cut in one way. -/
theorem Segments.unique (hfun : ∀ a b b', P a b → P a b' → b = b') (hpos : ∀ a b, P a b → 0 < len b) {lo hi : Nat}
    {bs cs : List β} (h : Segments P len lo bs hi) (h' : Segments P len lo cs hi) : bs = cs := by
  induction bs generalizing lo cs with
  | nil =>
    cases cs with
    | nil => rfl
    | cons c cs =>
      obtain rfl : lo = hi := h
      have hle := h'.2.le
      have := hpos lo c h'.1
      omega
  | cons b bs ih =>
    cases cs with
    | nil =>
      obtain rfl : lo = hi := h'
      have hle := h.2.le
      have := hpos lo b h.1
      omega
    | cons c cs =>
      obtain rfl : b = c := hfun lo b c h.1 h'.1
      rw [ih h.2 h'.2]

/-! ### The addresses of the items -/

/-- The items paired with the addresses where they start. -/
def placed (len : β → Nat) : Nat → List β → List (Nat × β)
  | _, [] => []
  | lo, b :: bs => (lo, b) :: placed len (lo + len b) bs

@[simp] theorem placed_nil (lo : Nat) : placed len lo [] = [] := rfl

@[simp] theorem placed_cons (lo : Nat) (b : β) (bs : List β) :
    placed len lo (b :: bs) = (lo, b) :: placed len (lo + len b) bs := rfl

/-- The items of a concatenation: the second list starts where the first one ends. -/
theorem Segments.placed_append {lo mid : Nat} {bs cs : List β} (h : Segments P len lo bs mid) :
    placed len lo (bs ++ cs) = placed len lo bs ++ placed len mid cs := by
  induction bs generalizing lo with
  | nil => obtain rfl : lo = mid := h; rfl
  | cons b bs ih => simp [ih h.2]

theorem mem_of_mem_placed {lo a : Nat} {bs : List β} {b : β} (h : (a, b) ∈ placed len lo bs) : b ∈ bs := by
  induction bs generalizing lo with
  | nil => simp at h
  | cons c bs ih =>
    simp only [placed_cons, List.mem_cons, Prod.mk.injEq] at h
    rcases h with ⟨-, rfl⟩ | h
    · exact List.mem_cons_self
    · exact List.mem_cons_of_mem _ (ih h)

/-- No item starts before the range. -/
theorem le_of_mem_placed {lo a : Nat} {bs : List β} {b : β} (h : (a, b) ∈ placed len lo bs) : lo ≤ a := by
  induction bs generalizing lo with
  | nil => simp at h
  | cons c bs ih =>
    simp only [placed_cons, List.mem_cons, Prod.mk.injEq] at h
    rcases h with ⟨rfl, -⟩ | h
    · exact Nat.le_refl a
    · have h1 := ih h
      omega

/-- An item satisfies the property at its address and lies inside the range. -/
theorem Segments.of_mem_placed {lo hi a : Nat} {bs : List β} {b : β} (h : Segments P len lo bs hi)
    (hb : (a, b) ∈ placed len lo bs) : P a b ∧ lo ≤ a ∧ a + len b ≤ hi := by
  induction bs generalizing lo with
  | nil => simp at hb
  | cons c bs ih =>
    have hle := h.2.le
    simp only [placed_cons, List.mem_cons, Prod.mk.injEq] at hb
    rcases hb with ⟨rfl, rfl⟩ | hb
    · exact ⟨h.1, Nat.le_refl _, hle⟩
    · obtain ⟨h1, h2, h3⟩ := ih h.2 hb
      exact ⟨h1, by omega, h3⟩

/-- Two items at different addresses do not overlap, and an address determines its item. -/
theorem Segments.placed_disjoint {lo hi a a' : Nat} {bs : List β} {b b' : β} (h : Segments P len lo bs hi)
    (hb : (a, b) ∈ placed len lo bs) (hb' : (a', b') ∈ placed len lo bs) :
    (a = a' ∧ b = b') ∨ a + len b ≤ a' ∨ a' + len b' ≤ a := by
  induction bs generalizing lo with
  | nil => simp at hb
  | cons c bs ih =>
    simp only [placed_cons, List.mem_cons, Prod.mk.injEq] at hb hb'
    rcases hb with ⟨rfl, rfl⟩ | hb <;> rcases hb' with ⟨rfl, rfl⟩ | hb'
    · exact Or.inl ⟨rfl, rfl⟩
    · exact Or.inr (Or.inl (h.2.of_mem_placed hb').2.1)
    · exact Or.inr (Or.inr (h.2.of_mem_placed hb).2.1)
    · exact ih h.2 hb hb'

/-- The range cut at the item that starts at `a`. -/
theorem Segments.split_placed {lo hi a : Nat} {bs : List β} {b : β} (h : Segments P len lo bs hi)
    (hb : (a, b) ∈ placed len lo bs) :
    ∃ pre post, bs = pre ++ b :: post ∧ Segments P len lo pre a ∧ P a b ∧ Segments P len (a + len b) post hi := by
  induction bs generalizing lo with
  | nil => simp at hb
  | cons c bs ih =>
    simp only [placed_cons, List.mem_cons, Prod.mk.injEq] at hb
    rcases hb with ⟨rfl, rfl⟩ | hb
    · exact ⟨[], bs, rfl, rfl, h.1, h.2⟩
    · obtain ⟨pre, post, rfl, h1, h2, h3⟩ := ih h.2 hb
      exact ⟨c :: pre, post, rfl, ⟨h.1, h1⟩, h2, h3⟩

end
