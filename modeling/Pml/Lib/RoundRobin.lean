import Mathlib.Data.Nat.Find
import Mathlib.Data.Nat.ModEq
import Mathlib.Logic.Function.Basic

/-!
# Queues in a ring

A cursor goes through the items of queues that stand in a ring: from the item at the front of a queue to the next one,
and from the last one to the item at the front of the next queue, where the front of the queue that is left returns to
0.  Of one queue, `skip`, only the item at its front is visited.  The cursor stops at the first item that is ready.

The queues are visited in order, and the queue in which the cursor stops is the first in which it can (`next_other`).
-/

namespace RoundRobin

/-- The number of queues, the queue of which one item is visited, the numbers of items and which of them are ready. -/
structure Ring where
  len : Nat
  skip : Nat
  count : Nat → Nat
  ready : Nat → Nat → Prop
  ready_lt : ∀ p t, ready p t → p < len ∧ t < count p

/-- The queue the cursor is in, and the fronts of the queues. -/
@[ext] structure Cursor where
  queue : Nat
  fronts : Nat → Nat

/-- From `f` on, `p` comes before `e`. -/
def Between (f p e : Nat) : Prop := if f < e then f < p ∧ p < e else f < p ∨ p < e

namespace Ring

variable (r : Ring)

/-- The queue behind a queue. -/
def after (p : Nat) : Nat := if p + 1 = r.len then 0 else p + 1

/-- The cursor leaves its queue. -/
def leave (c : Cursor) : Cursor := ⟨r.after c.queue, Function.update c.fronts c.queue 0⟩

/-- The cursor moves on. -/
def next (c : Cursor) : Cursor :=
  if r.skip = c.queue ∨ c.fronts c.queue + 1 = r.count c.queue then r.leave c
  else ⟨c.queue, Function.update c.fronts c.queue (c.fronts c.queue + 1)⟩

/-- The item at the cursor is ready. -/
def Ready (c : Cursor) : Prop := r.ready c.queue (c.fronts c.queue)

/-- The first ready item from a cursor on is at another one. -/
inductive Arrives : Cursor → Cursor → Prop
  | stop {c : Cursor} : r.Ready c → Arrives c c
  | go {c c' : Cursor} : ¬r.Ready c → Arrives (r.next c) c' → Arrives c c'

/-- The cursor can stop in queue `p` if it comes there when the front is `t`. -/
def Eligible (p t : Nat) : Prop := if p = r.skip then r.ready p t else ∃ u, t ≤ u ∧ r.ready p u

variable {r}

theorem Arrives.ready {c c' : Cursor} (h : r.Arrives c c') : r.Ready c' := by
  induction h with
  | stop h => exact h
  | go _ _ ih => exact ih

private theorem next_of_more {p : Nat} {s : Nat → Nat} (hskip : p ≠ r.skip) (hmore : s p + 1 ≠ r.count p) :
    r.next ⟨p, s⟩ = ⟨p, Function.update s p (s p + 1)⟩ := by
  unfold next
  rw [if_neg]
  rintro (h | h)
  · exact hskip h.symm
  · exact hmore h

/-- The cursor stops in its queue if it can. -/
private theorem arrives_of_eligible {p : Nat} {s : Nat → Nat} (h : r.Eligible p (s p)) :
    ∃ c, r.Arrives ⟨p, s⟩ c ∧ c.queue = p := by
  by_cases hready : r.Ready ⟨p, s⟩
  · exact ⟨_, .stop hready, rfl⟩
  unfold Eligible at h
  by_cases hskip : p = r.skip
  · rw [if_pos hskip] at h
    exact absurd h hready
  rw [if_neg hskip] at h
  obtain ⟨u, hle, hu⟩ := h
  have hlt := (r.ready_lt p u hu).2
  induction hd : u - s p generalizing s with
  | zero =>
    have heq : u = s p := by omega
    rw [heq] at hu
    exact absurd hu hready
  | succ d ih =>
    have hnext := next_of_more hskip (by omega : s p + 1 ≠ r.count p)
    have hfront : Function.update s p (s p + 1) p = s p + 1 := Function.update_self _ _ _
    by_cases hready' : r.Ready (r.next ⟨p, s⟩)
    · exact ⟨_, .go hready (.stop hready'), by rw [hnext]⟩
    · rw [hnext] at hready'
      obtain ⟨c, hc, hq⟩ := ih hready' (by omega) (by omega)
      rw [← hnext] at hc
      exact ⟨c, .go hready hc, hq⟩

/-- Otherwise it leaves the queue. -/
private theorem arrives_of_not_eligible {p : Nat} {s : Nat → Nat} {c : Cursor} (hlt : s p < r.count p)
    (h : ¬r.Eligible p (s p)) (hc : r.Arrives (r.leave ⟨p, s⟩) c) : r.Arrives ⟨p, s⟩ c := by
  unfold Eligible at h
  by_cases hskip : p = r.skip
  · rw [if_pos hskip] at h
    refine .go h ?_
    unfold next
    rw [if_pos (Or.inl hskip.symm)]
    exact hc
  rw [if_neg hskip] at h
  induction hd : r.count p - s p generalizing s with
  | zero => omega
  | succ d ih =>
    refine .go (fun hready => h ⟨s p, Nat.le_refl _, hready⟩) ?_
    by_cases hlast : s p + 1 = r.count p
    · unfold next
      rw [if_pos (Or.inr hlast)]
      exact hc
    · have hleave : r.leave ⟨p, Function.update s p (s p + 1)⟩ = r.leave ⟨p, s⟩ := by
        unfold leave
        dsimp only
        rw [Function.update_idem]
      have hfront : Function.update s p (s p + 1) p = s p + 1 := Function.update_self _ _ _
      rw [next_of_more hskip hlast]
      refine ih (by omega) ?_ (by rw [hleave]; exact hc) (by omega)
      rintro ⟨u, hu, hready⟩
      exact h ⟨u, by omega, hready⟩

/-! ### The order of the queues -/

/-- The queue that is visited after `k` others. -/
def visited (r : Ring) (f k : Nat) : Nat := (f + k) % r.len

/-- The fronts when `k` queues have been left. -/
def frontsAt (r : Ring) (f : Nat) (s : Nat → Nat) (k p : Nat) : Nat :=
  if ∃ j < k, r.visited f j = p then 0 else s p

/-- The front of the queue that is visited after `k` others. -/
def frontOf (r : Ring) (f : Nat) (s : Nat → Nat) (k : Nat) : Nat := if k < r.len then s (r.visited f k) else 0

section

variable {f : Nat} (hf : f < r.len)
include hf

private theorem visited_lt (k : Nat) : r.visited f k < r.len := Nat.mod_lt _ (by omega)

private theorem visited_succ (k : Nat) : r.visited f (k + 1) = r.after (r.visited f k) := by
  have hlt := visited_lt hf k
  unfold visited after at *
  rw [← Nat.add_assoc, ← Nat.mod_add_mod]
  generalize (f + k) % r.len = p at *
  by_cases hlast : p + 1 = r.len
  · rw [if_pos hlast, hlast, Nat.mod_self]
  · rw [if_neg hlast, Nat.mod_eq_of_lt (by omega)]

/-- The queues in a round. -/
private theorem visited_eq {j : Nat} (hj : j < r.len) (m : Nat) :
    r.visited f (m * r.len + j) = if f + j < r.len then f + j else f + j - r.len := by
  unfold visited
  rw [Nat.add_left_comm, Nat.add_comm (m * r.len), Nat.add_mul_mod_self_right]
  by_cases h : f + j < r.len
  · rw [if_pos h, Nat.mod_eq_of_lt h]
  · rw [if_neg h, Nat.mod_eq_sub_mod (by omega), Nat.mod_eq_of_lt (by omega)]

private theorem visited_zero : r.visited f 0 = f := Nat.mod_eq_of_lt hf

private theorem frontsAt_visited (s : Nat → Nat) (k : Nat) : r.frontsAt f s k (r.visited f k) = r.frontOf f s k := by
  unfold frontsAt frontOf
  by_cases hk : k < r.len
  · rw [if_pos hk, if_neg]
    rintro ⟨j, hj, heq⟩
    have hj' := visited_eq hf (by omega : j < r.len) 0
    have hk' := visited_eq hf hk 0
    rw [Nat.zero_mul, Nat.zero_add] at hj' hk'
    rw [hj', hk'] at heq
    split at heq <;> split at heq <;> omega
  · rw [if_neg hk, if_pos]
    refine ⟨k - r.len, by omega, ?_⟩
    unfold visited
    rw [← Nat.add_mod_right, Nat.add_assoc, Nat.sub_add_cancel (by omega)]

omit hf in
private theorem frontsAt_succ (s : Nat → Nat) (k : Nat) :
    r.frontsAt f s (k + 1) = Function.update (r.frontsAt f s k) (r.visited f k) 0 := by
  funext p
  unfold frontsAt
  by_cases hp : p = r.visited f k
  · rw [hp, Function.update_self, if_pos ⟨k, Nat.lt_succ_self k, rfl⟩]
  · rw [Function.update_of_ne hp]
    refine if_congr ⟨?_, ?_⟩ rfl rfl
    · rintro ⟨j, hj, heq⟩
      refine ⟨j, ?_, heq⟩
      rcases Nat.lt_succ_iff_lt_or_eq.1 hj with h | rfl
      · exact h
      · exact absurd heq.symm hp
    · rintro ⟨j, hj, heq⟩
      exact ⟨j, Nat.lt_succ_of_lt hj, heq⟩

private theorem leave_visited (s : Nat → Nat) (k : Nat) :
    r.leave ⟨r.visited f k, r.frontsAt f s k⟩ = ⟨r.visited f (k + 1), r.frontsAt f s (k + 1)⟩ := by
  unfold leave
  rw [visited_succ hf, frontsAt_succ]

variable {s : Nat → Nat} (hs : ∀ p < r.len, s p < r.count p)
include hs

/-- Queues in which the cursor cannot stop are passed. -/
private theorem arrives_passed {a k : Nat} {c : Cursor} (hak : a ≤ k)
    (hnone : ∀ j, a ≤ j → j < k → ¬r.Eligible (r.visited f j) (r.frontOf f s j))
    (hc : r.Arrives ⟨r.visited f k, r.frontsAt f s k⟩ c) : r.Arrives ⟨r.visited f a, r.frontsAt f s a⟩ c := by
  induction k, hak using Nat.le_induction with
  | base => exact hc
  | succ k hak ih =>
    refine ih (fun j haj hjk => hnone j haj (by omega)) ?_
    have hfront := frontsAt_visited hf s k
    refine arrives_of_not_eligible ?_ ?_ ?_
    · have hcount := hs _ (visited_lt hf k)
      rw [hfront]
      unfold frontOf
      split
      · exact hcount
      · omega
    · rw [hfront]
      exact hnone k hak (Nat.lt_succ_self k)
    · rw [leave_visited hf]
      exact hc

omit hf hs in
/-- The cursor goes on to a later item of its own queue. -/
private theorem next_own (hskip : f ≠ r.skip) (h : ∃ t, s f < t ∧ r.ready f t) :
    ∃ c, r.Arrives (r.next ⟨f, s⟩) c ∧ c.queue = f := by
  obtain ⟨t, hlt, hready⟩ := h
  have hcount := (r.ready_lt f t hready).2
  rw [next_of_more hskip (by omega)]
  refine arrives_of_eligible ?_
  unfold Eligible
  rw [if_neg hskip, Function.update_self]
  exact ⟨t, hlt, hready⟩

/-- Otherwise it goes on to the first other queue in which it can stop. -/
private theorem next_other (hown : f ≠ r.skip → ¬∃ t, s f < t ∧ r.ready f t) {k : Nat} (hk : 0 < k)
    (hnone : ∀ j, 0 < j → j < k → ¬r.Eligible (r.visited f j) (r.frontOf f s j))
    (hfirst : r.Eligible (r.visited f k) (r.frontOf f s k)) :
    ∃ c, r.Arrives (r.next ⟨f, s⟩) c ∧ c.queue = r.visited f k := by
  have hstop : ∃ c, r.Arrives ⟨r.visited f k, r.frontsAt f s k⟩ c ∧ c.queue = r.visited f k := by
    refine arrives_of_eligible ?_
    rw [frontsAt_visited hf]
    exact hfirst
  obtain ⟨c, hc, hqueue⟩ := hstop
  refine ⟨c, ?_, hqueue⟩
  have hpassed := arrives_passed hf hs hk hnone hc
  have hleave := leave_visited hf s 0
  have hzero : r.frontsAt f s 0 = s := by
    funext p
    exact if_neg (by rintro ⟨j, hj, -⟩; exact absurd hj (Nat.not_lt_zero j))
  rw [visited_zero hf, hzero] at hleave
  rw [← hleave] at hpassed
  by_cases hmore : r.skip = f ∨ s f + 1 = r.count f
  · unfold next
    rw [if_pos hmore]
    exact hpassed
  · rw [not_or] at hmore
    have hskip : f ≠ r.skip := fun h => hmore.1 h.symm
    have hcount := hs f hf
    rw [next_of_more hskip hmore.2]
    refine arrives_of_not_eligible ?_ ?_ ?_
    · rw [Function.update_self]
      omega
    · unfold Eligible
      rw [if_neg hskip, Function.update_self]
      exact hown hskip
    · unfold leave at hpassed ⊢
      dsimp only at hpassed ⊢
      rw [Function.update_idem]
      exact hpassed

end

/-! ### The queue of which one item is visited -/

/-- There is a ready item before the first visit to `skip`, or the first visit finds none and there is a ready item
before the second visit, or that finds none. -/
def Avoids (r : Ring) (f : Nat) (s : Nat → Nat) : Prop :=
  (∃ p t, r.ready p t ∧ (p = f ∧ p ≠ r.skip ∧ s p < t ∨ Between f p r.skip ∧ s p ≤ t)) ∨
  ¬r.ready r.skip (if r.skip = f then 0 else s r.skip) ∧
    ((∃ p t, r.ready p t ∧ (p = f ∧ p ≠ r.skip ∨ Between f p r.skip ∨ Between r.skip p f ∧ s p ≤ t)) ∨
      ¬r.ready r.skip 0)

/-- The number of queues that are visited from `f` on up to `p`. -/
def distance (r : Ring) (f p : Nat) : Nat := if f < p then p - f else p + r.len - f

section

variable {f : Nat} (hf : f < r.len)
include hf

private theorem distance_bounds {p : Nat} (hp : p < r.len) : 0 < r.distance f p ∧ r.distance f p ≤ r.len := by
  unfold distance
  split <;> omega

private theorem visited_distance {p : Nat} (hp : p < r.len) (m : Nat) :
    r.visited f (m * r.len + r.distance f p) = p := by
  unfold visited distance
  by_cases h : f < p
  · have hsum : f + (m * r.len + (p - f)) = p + m * r.len := by omega
    rw [if_pos h, hsum, Nat.add_mul_mod_self_right, Nat.mod_eq_of_lt hp]
  · have hsum : f + (m * r.len + (p + r.len - f)) = p + r.len + m * r.len := by omega
    rw [if_neg h, hsum, Nat.add_mul_mod_self_right, Nat.add_mod_right, Nat.mod_eq_of_lt hp]

omit hf in
private theorem visited_ne {j k : Nat} (hjk : j < k) (hk : k < j + r.len) : r.visited f j ≠ r.visited f k := by
  intro h
  have hmod : j ≡ k [MOD r.len] := Nat.ModEq.add_left_cancel' f h
  have hdvd := (Nat.modEq_iff_dvd' hjk.le).1 hmod
  have hle := Nat.le_of_dvd (by omega) hdvd
  omega

/-- The visits to `e` are as far apart as there are queues. -/
private theorem visited_eq_iff {e : Nat} (he : e < r.len) {k : Nat} (hk : 0 < k) (h : r.visited f k = e) :
    k = r.distance f e ∨ k = r.len + r.distance f e ∨ 2 * r.len + r.distance f e ≤ k := by
  have hd := distance_bounds hf he
  have h0 := visited_distance hf he 0
  have h1 := visited_distance hf he 1
  have h2 := visited_distance hf he 2
  rw [Nat.zero_mul, Nat.zero_add] at h0
  rw [Nat.one_mul] at h1
  by_contra hne
  rw [not_or, not_or] at hne
  rcases Nat.lt_trichotomy k (r.distance f e) with hlt | heq | hgt
  · exact visited_ne hlt (by omega) (h.trans h0.symm)
  · exact hne.1 heq
  rcases Nat.lt_trichotomy k (r.len + r.distance f e) with hlt | heq | hgt'
  · exact visited_ne hgt (by omega) (h0.trans h.symm)
  · exact hne.2.1 heq
  · exact visited_ne hgt' (by omega) (h1.trans h.symm)

variable (s : Nat → Nat)

/-- A ready item makes its queue eligible in the second round. -/
private theorem eligible_second {p t : Nat} (hp : p ≠ r.skip) (hready : r.ready p t) :
    r.Eligible (r.visited f (r.len + r.distance f p)) (r.frontOf f s (r.len + r.distance f p)) := by
  have hlt := (r.ready_lt p t hready).1
  have hvisited := visited_distance hf hlt 1
  rw [Nat.one_mul] at hvisited
  unfold Eligible frontOf
  rw [hvisited, if_neg hp, if_neg (by omega)]
  exact ⟨t, Nat.zero_le t, hready⟩

/-- An item that is not before the front makes its queue eligible in the first round. -/
private theorem eligible_first {p t : Nat} (hp : p ≠ r.skip) (hpf : p ≠ f) (hready : r.ready p t) (ht : s p ≤ t) :
    r.Eligible (r.visited f (r.distance f p)) (r.frontOf f s (r.distance f p)) := by
  have hlt := (r.ready_lt p t hready).1
  have hvisited := visited_distance hf hlt 0
  rw [Nat.zero_mul, Nat.zero_add] at hvisited
  have hd : r.distance f p < r.len := by
    unfold distance
    split <;> omega
  unfold Eligible frontOf
  rw [hvisited, if_neg hp, if_pos hd]
  exact ⟨t, ht, hready⟩

/-- Before the first visit to `e`, an eligible queue is between the current one and `e`. -/
private theorem between_of_lt {k : Nat} (he : r.skip < r.len) (hk : 0 < k) (hlt : k < r.distance f r.skip)
    (hel : r.Eligible (r.visited f k) (r.frontOf f s k)) : ∃ p t, r.ready p t ∧ Between f p r.skip ∧ s p ≤ t := by
  have hd := distance_bounds hf he
  have hvisited := visited_eq hf (by omega : k < r.len) 0
  have hne : r.visited f k ≠ r.skip := by
    intro h
    rcases visited_eq_iff hf he hk h with h | h | h <;> omega
  rw [Nat.zero_mul, Nat.zero_add] at hvisited
  unfold Eligible frontOf at hel
  rw [if_neg hne, if_pos (by omega)] at hel
  obtain ⟨t, ht, hready⟩ := hel
  refine ⟨_, t, hready, ?_, ht⟩
  rw [hvisited] at hne ⊢
  unfold Between
  unfold distance at hlt
  split at hlt <;> split at hne <;> split <;> omega

/-- Between the first two visits to `e` it is in one of the two parts of the ring. -/
private theorem between_of_gt {k : Nat} (he : r.skip < r.len) (hgt : r.distance f r.skip < k)
    (hlt : k < r.len + r.distance f r.skip) (hel : r.Eligible (r.visited f k) (r.frontOf f s k)) :
    ∃ p t, r.ready p t ∧ (p = f ∧ p ≠ r.skip ∨ Between f p r.skip ∨ Between r.skip p f ∧ s p ≤ t) := by
  have hd := distance_bounds hf he
  have hne : r.visited f k ≠ r.skip := by
    intro h
    rcases visited_eq_iff hf he (by omega) h with h | h | h <;> omega
  unfold Eligible at hel
  rw [if_neg hne] at hel
  obtain ⟨t, ht, hready⟩ := hel
  refine ⟨_, t, hready, ?_⟩
  by_cases hfirst : k < r.len
  · -- the first round is not over
    have hvisited := visited_eq hf hfirst 0
    rw [Nat.zero_mul, Nat.zero_add] at hvisited
    unfold frontOf at ht
    rw [if_pos hfirst] at ht
    refine Or.inr (Or.inr ⟨?_, ht⟩)
    rw [hvisited]
    unfold Between
    unfold distance at hgt
    split at hgt <;> split <;> split <;> omega
  · obtain ⟨j, rfl⟩ := Nat.exists_eq_add_of_le (Nat.le_of_not_lt hfirst)
    have hvisited := visited_eq hf (by omega : j < r.len) 1
    rw [Nat.one_mul] at hvisited
    by_cases hj : j = 0
    · have hown : r.visited f (r.len + j) = f := by
        rw [hvisited, hj, if_pos (by omega), Nat.add_zero]
      exact Or.inl ⟨hown, hne⟩
    · refine Or.inr (Or.inl ?_)
      rw [hvisited]
      unfold Between
      unfold distance at hlt
      split at hlt <;> split <;> split <;> omega

private theorem distance_lt_of_between {p : Nat} (hp : p < r.len) (h : Between f p r.skip) :
    r.distance f p < r.distance f r.skip := by
  unfold Between at h
  unfold distance
  split at h <;> split <;> omega

/-- A queue in a part of the ring that is visited before the second visit to `e` is eligible before it. -/
private theorem exists_eligible {p t : Nat} (he : r.skip < r.len) (hready : r.ready p t) (hpe : p ≠ r.skip)
    (hp : p = f ∧ p ≠ r.skip ∨ Between f p r.skip ∨ Between r.skip p f ∧ s p ≤ t) :
    ∃ k, 0 < k ∧ k < r.len + r.distance f r.skip ∧ r.Eligible (r.visited f k) (r.frontOf f s k) := by
  have hlt := (r.ready_lt p t hready).1
  have hd := distance_bounds hf hlt
  have hde := distance_bounds hf he
  rcases hp with ⟨rfl, -⟩ | hbetween | ⟨hbetween, ht⟩
  · have hvisited : r.visited p (r.len + 0) = p := by
      unfold visited
      rw [Nat.add_zero, Nat.add_mod_right, Nat.mod_eq_of_lt hf]
    refine ⟨r.len + 0, by omega, by omega, ?_⟩
    unfold Eligible frontOf
    rw [hvisited, if_neg hpe, if_neg (by omega)]
    exact ⟨t, Nat.zero_le t, hready⟩
  · have := distance_lt_of_between hf hlt hbetween
    exact ⟨_, by omega, by omega, eligible_second hf s hpe hready⟩
  · by_cases hpf : p = f
    · subst hpf
      unfold Between at hbetween
      split at hbetween <;> omega
    · exact ⟨_, hd.1, by omega, eligible_first hf s hpe hpf hready ht⟩

end

/-- The cursor goes on to an item that is ready, and to another queue than `skip` exactly under the condition. -/
theorem next_avoids_iff {f : Nat} {s : Nat → Nat} (hf : f < r.len) (hs : ∀ p < r.len, s p < r.count p)
    (h : ∃ p t, p ≠ r.skip ∧ r.ready p t) : ∃ c, r.Arrives (r.next ⟨f, s⟩) c ∧ (c.queue ≠ r.skip ↔ r.Avoids f s) := by
  obtain ⟨p, t, hpe, hready⟩ := h
  have hp := (r.ready_lt p t hready).1
  by_cases hown : f ≠ r.skip ∧ ∃ t, s f < t ∧ r.ready f t
  · obtain ⟨hfe, t, ht, hready⟩ := hown
    obtain ⟨c, hc, hqueue⟩ := next_own hfe ⟨t, ht, hready⟩
    refine ⟨c, hc, ⟨fun _ => Or.inl ⟨f, t, hready, Or.inl ⟨rfl, hfe, ht⟩⟩, fun _ => ?_⟩⟩
    rw [hqueue]
    exact hfe
  -- the first eligible queue
  have hexists : ∃ k, 0 < k ∧ r.Eligible (r.visited f k) (r.frontOf f s k) :=
    ⟨_, by have := distance_bounds hf hp; omega, eligible_second hf s hpe hready⟩
  classical
  obtain ⟨hpos, hel⟩ := Nat.find_spec hexists
  have hmin : ∀ j, 0 < j → j < Nat.find hexists → ¬r.Eligible (r.visited f j) (r.frontOf f s j) :=
    fun j hj hlt hel => Nat.find_min hexists hlt ⟨hj, hel⟩
  have hle : Nat.find hexists ≤ r.len + r.distance f p :=
    Nat.find_min' hexists ⟨by have := distance_bounds hf hp; omega, eligible_second hf s hpe hready⟩
  generalize Nat.find hexists = k at *
  obtain ⟨c, hc, hqueue⟩ := next_other hf hs (fun hfe ht => hown ⟨hfe, ht⟩) hpos hmin hel
  refine ⟨c, hc, ?_⟩
  rw [hqueue]
  by_cases he : r.skip < r.len
  · have hd := distance_bounds hf he
    have hdp := distance_bounds hf hp
    have hvisit1 := visited_distance hf he 0
    have hvisit2 := visited_distance hf he 1
    rw [Nat.zero_mul, Nat.zero_add] at hvisit1
    rw [Nat.one_mul] at hvisit2
    have hel1 : r.Eligible (r.visited f (r.distance f r.skip)) (r.frontOf f s (r.distance f r.skip)) ↔
        r.ready r.skip (if r.skip = f then 0 else s r.skip) := by
      unfold Eligible frontOf
      rw [hvisit1, if_pos rfl]
      by_cases hef : r.skip = f
      · have hlen : r.distance f r.skip = r.len := by
          unfold distance
          split <;> omega
        rw [if_pos hef, if_neg (by omega)]
      · have hlen : r.distance f r.skip < r.len := by
          unfold distance
          split <;> omega
        rw [if_neg hef, if_pos hlen]
    have hel2 : r.Eligible (r.visited f (r.len + r.distance f r.skip)) (r.frontOf f s (r.len + r.distance f r.skip)) ↔
        r.ready r.skip 0 := by
      unfold Eligible frontOf
      rw [hvisit2, if_pos rfl, if_neg (by omega)]
    constructor
    · intro hne
      rcases Nat.lt_trichotomy k (r.distance f r.skip) with hlt | rfl | hgt
      · obtain ⟨p, t, hready, hbetween, ht⟩ := between_of_lt hf s he hpos hlt hel
        exact Or.inl ⟨p, t, hready, Or.inr ⟨hbetween, ht⟩⟩
      · exact absurd hvisit1 hne
      refine Or.inr ⟨fun hready => hmin _ hd.1 hgt (hel1.2 hready), ?_⟩
      rcases Nat.lt_trichotomy k (r.len + r.distance f r.skip) with hlt | rfl | hgt'
      · exact Or.inl (between_of_gt hf s he hgt hlt hel)
      · exact absurd hvisit2 hne
      · exact Or.inr fun hready => hmin _ (by omega) hgt' (hel2.2 hready)
    · intro havoids hvisited
      have hcases := visited_eq_iff hf he hpos hvisited
      rcases havoids with ⟨p', t', hready', ⟨rfl, hp', ht'⟩ | ⟨hbetween, ht'⟩⟩ | ⟨hfirst, hrest⟩
      · exact hown ⟨hp', t', ht', hready'⟩
      · have hp'e : p' ≠ r.skip ∧ p' ≠ f := by
          unfold Between at hbetween
          split at hbetween <;> omega
        have hp'lt := (r.ready_lt p' t' hready').1
        have hlt := distance_lt_of_between hf hp'lt hbetween
        have hdp' := distance_bounds hf hp'lt
        exact hmin _ hdp'.1 (by omega) (eligible_first hf s hp'e.1 hp'e.2 hready' ht')
      · have hk1 : k ≠ r.distance f r.skip := by
          rintro rfl
          exact hfirst (hel1.1 hel)
        rcases hrest with ⟨p', t', hready', hp'⟩ | hsecond
        · have hp'e : p' ≠ r.skip := by
            unfold Between at hp'
            split at hp' <;> split at hp' <;> omega
          obtain ⟨k', hk', hlt, hel'⟩ := exists_eligible hf s he hready' hp'e hp'
          exact hmin k' hk' (by omega) hel'
        · have hk2 : k ≠ r.len + r.distance f r.skip := by
            rintro rfl
            exact hsecond (hel2.1 hel)
          omega
  · refine ⟨fun _ =>
      Or.inr ⟨fun hready => he (r.ready_lt _ _ hready).1, Or.inr fun hready => he (r.ready_lt _ _ hready).1⟩,
      fun _ heq => he ?_⟩
    rw [← heq]
    exact visited_lt hf k

end Ring

end RoundRobin
