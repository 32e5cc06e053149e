import Mathlib
import Pml.Lib.Machine

/-!
# Spinlocks and semaphores (`util/lock.c`)

The threads of the kernel take their steps in any order, and a step is one access to the memory they share.
`spinlock_acquire` sets the lock and looks at what was there before, and where that is not 0 it reads the lock until
it is 0 and tries again.  At most one thread is in the code that a lock guards, and what all threads have done to the
data is what their calls do one after the other, in the order in which they release the lock (`spinlock_serial`).

`semaphore_wait` reads the count until it is not 0 and decrements it in a second step.  So the count is right only as
long as no two threads are between the two steps (`semaphore_bounded`).
-/

namespace Pml.Util

open Machine

/-! ### Spinlocks -/

/-- The code that a lock guards, in single steps: the step of a call that is at `l`, if it is defined, and the calls
that are at their end. -/
structure Guard (L σ : Type) where
  next : L → σ → Option (L × σ)
  final : L → Bool

/-- Where a thread is: outside, before the exchange of `spinlock_acquire`, in its inner loop, in the guarded code, or
before the store of `spinlock_release`.  A call carries the place at which it has started. -/
inductive Place (L : Type)
  | outside
  | testAndSet (start : L)
  | busy (start : L)
  | inside (start now : L)
  | release (start now : L)

/-- The lock, the threads, the guarded data, and the calls that have released the lock, with their ends. -/
structure Spin (T L σ : Type) where
  lock : Int
  place : T → Place L
  data : σ
  finished : List (T × L × L)

/-- A thread calls a guarded function, or takes a step. -/
inductive Move (T L : Type)
  | call (t : T) (l : L)
  | go (t : T)

section

variable {T L σ : Type} [DecidableEq T]

def Spin.start (d : σ) : Spin T L σ := ⟨0, fun _ => .outside, d, []⟩

def Spin.at (s : Spin T L σ) (t : T) (p : Place L) : Spin T L σ := { s with place := Function.update s.place t p }

/-- The steps of `spinlock_acquire`, of the guarded code and of `spinlock_release`. -/
def spinStep (g : Guard L σ) (s : Spin T L σ) : Move T L → Option (Spin T L σ)
  | .call t l =>
    match s.place t with
    | .outside => some (s.at t (.testAndSet l))
    | _ => none
  | .go t =>
    match s.place t with
    | .outside => none
    | .testAndSet l => some { s.at t (if s.lock = 0 then .inside l l else .busy l) with lock := 1 }
    | .busy l => some (if s.lock = 0 then s.at t (.testAndSet l) else s)
    | .inside l₀ l =>
      if g.final l then some (s.at t (.release l₀ l))
      else (g.next l s.data).map fun r => { s.at t (.inside l₀ r.1) with data := r.2 }
    | .release l₀ l => some { s.at t .outside with lock := 0, finished := s.finished ++ [(t, l₀, l)] }

/-- A call that started at `l₀` with the data `d` is at `l`, and the data are `d'`. -/
inductive Guard.Steps (g : Guard L σ) (l₀ : L) (d : σ) : L → σ → Prop
  | refl : Steps g l₀ d l₀ d
  | tail {l l' : L} {d₁ d₂ : σ} : Steps g l₀ d l d₁ → g.final l = false → g.next l d₁ = some (l', d₂) →
      Steps g l₀ d l' d₂

/-- The calls, one after the other, lead from the data `d` to the data `d'`. -/
inductive Guard.Serial (g : Guard L σ) (d : σ) : List (T × L × L) → σ → Prop
  | nil : Serial g d [] d
  | snoc {calls : List (T × L × L)} {d₁ d₂ : σ} {t : T} {l₀ l : L} : Serial g d calls d₁ → g.Steps l₀ d₁ l d₂ →
      g.final l = true → Serial g d (calls ++ [(t, l₀, l)]) d₂

def Spin.HasAt (s : Spin T L σ) (t : T) (l₀ l : L) : Prop := s.place t = .inside l₀ l ∨ s.place t = .release l₀ l

def Spin.Has (s : Spin T L σ) (t : T) : Prop := ∃ l₀ l, s.HasAt t l₀ l

/-- At most one thread has the lock, which is 0 exactly if none has it.  The data are what the finished calls have
made of the first data one after the other, and what the call of that thread has done since. -/
structure Spin.Serialised (g : Guard L σ) (d : σ) (s : Spin T L σ) : Prop where
  one : ∀ t u, s.Has t → s.Has u → t = u
  lock : s.lock = 0 ↔ ∀ t, ¬ s.Has t
  data : ∃ d', g.Serial d s.finished d' ∧ ((∀ t, ¬ s.Has t) → s.data = d') ∧
    ∀ t l₀ l, s.HasAt t l₀ l → g.Steps l₀ d' l s.data ∧ (s.place t = .release l₀ l → g.final l = true)

variable {g : Guard L σ} {d : σ} {s s' : Spin T L σ} {t : T}

private theorem Spin.at_place (s : Spin T L σ) (t : T) (p : Place L) (u : T) :
    (s.at t p).place u = if u = t then p else s.place u := by
  unfold Spin.at
  dsimp only
  rw [Function.update_apply]

omit [DecidableEq T] in
private theorem Spin.not_has {p : Place L} (hplace : s.place t = p)
    (hp : ∀ l₀ l, p ≠ .inside l₀ l ∧ p ≠ .release l₀ l) :
    ¬ s.Has t := by
  rintro ⟨l₀, l, h | h⟩
  · exact (hp l₀ l).1 (hplace.symm.trans h)
  · exact (hp l₀ l).2 (hplace.symm.trans h)

private theorem Spin.has_only {p : Place L} (hplace : s'.place = (s.at t p).place) (h : ∀ u, s.Has u → u = t) :
    ∀ u, s'.Has u → u = t := by
  rintro u ⟨l₀, l, hu⟩
  by_contra hne
  unfold Spin.HasAt at hu
  rw [hplace, Spin.at_place, if_neg hne] at hu
  exact hne (h u ⟨l₀, l, hu⟩)

/-- A move of a thread that neither has the lock before it nor after it. -/
theorem Spin.Serialised.idle (h : s.Serialised g d) {p : Place L} (hout : ¬ s.Has t)
    (hp : ∀ l₀ l, p ≠ .inside l₀ l ∧ p ≠ .release l₀ l) (hplace : s'.place = (s.at t p).place)
    (hlock : s'.lock = 0 ↔ s.lock = 0) (hdata : s'.data = s.data) (hfin : s'.finished = s.finished) :
    s'.Serialised g d := by
  have hat : ∀ u l₀ l, s'.HasAt u l₀ l ↔ s.HasAt u l₀ l := by
    intro u l₀ l
    unfold Spin.HasAt
    rw [hplace, Spin.at_place]
    split
    · rename_i hu
      rw [hu]
      refine ⟨fun hh => ?_, fun hh => absurd ⟨l₀, l, hh⟩ hout⟩
      rcases hh with hh | hh
      · exact absurd hh (hp l₀ l).1
      · exact absurd hh (hp l₀ l).2
    · rfl
  have hhas : ∀ u, s'.Has u ↔ s.Has u := fun u => exists_congr fun l₀ => exists_congr fun l => hat u l₀ l
  obtain ⟨d', hser, hfree, hheld⟩ := h.data
  refine ⟨fun u v hu hv => h.one u v ((hhas u).1 hu) ((hhas v).1 hv), ?_, d', ?_, fun hn => ?_, fun u l₀ l hu => ?_⟩
  · rw [hlock, h.lock]
    exact forall_congr' fun u => not_congr (hhas u).symm
  · rw [hfin]
    exact hser
  · rw [hdata]
    exact hfree fun u hu => hn u ((hhas u).2 hu)
  · rw [hdata]
    have hsu := (hat u l₀ l).1 hu
    obtain ⟨hsteps, hfinal⟩ := hheld u l₀ l hsu
    refine ⟨hsteps, fun hr => ?_⟩
    rw [hplace, Spin.at_place] at hr
    split at hr
    · exact absurd hr (hp l₀ l).2
    · exact hfinal hr

/-- The thread with the lock moves on in the guarded code, or to its end. -/
private theorem Spin.Serialised.work (h : s.Serialised g d) {l₀ l : L} {p : Place L} (hin : s.place t = .inside l₀ l)
    (hp : (∃ l', p = .inside l₀ l' ∧ g.final l = false ∧ g.next l s.data = some (l', s'.data)) ∨
      (p = .release l₀ l ∧ g.final l = true ∧ s'.data = s.data))
    (hplace : s'.place = (s.at t p).place) (hlock : s'.lock = s.lock) (hfin : s'.finished = s.finished) :
    s'.Serialised g d := by
  have hhas : s.Has t := ⟨l₀, l, Or.inl hin⟩
  have hself : s'.place t = p := by rw [hplace, Spin.at_place, if_pos rfl]
  have honly : ∀ u, s'.Has u → u = t := Spin.has_only hplace fun u hu => h.one u t hu hhas
  have hhas' : s'.Has t := by
    rcases hp with ⟨l', he, -⟩ | ⟨he, -⟩
    · exact ⟨l₀, l', Or.inl (hself.trans he)⟩
    · exact ⟨l₀, l, Or.inr (hself.trans he)⟩
  obtain ⟨d', hser, -, hheld⟩ := h.data
  have hsteps := (hheld t l₀ l (Or.inl hin)).1
  refine ⟨fun u v hu hv => (honly u hu).trans (honly v hv).symm, ?_, d', ?_, fun hn => absurd hhas' (hn t),
    fun u l₁ l₂ hu => ?_⟩
  · rw [hlock, h.lock]
    exact ⟨fun hn => absurd hhas (hn t), fun hn => absurd hhas' (hn t)⟩
  · rw [hfin]
    exact hser
  · obtain rfl := honly u ⟨l₁, l₂, hu⟩
    unfold Spin.HasAt at hu
    rw [hself] at hu ⊢
    rcases hp with ⟨l', rfl, hnf, hnext⟩ | ⟨rfl, hfinal, hdata⟩
    · rcases hu with hu | hu
      · cases hu
        exact ⟨hsteps.tail hnf hnext, fun hr => by cases hr⟩
      · cases hu
    · rcases hu with hu | hu
      · cases hu
      · cases hu
        rw [hdata]
        exact ⟨hsteps, fun _ => hfinal⟩

theorem Spin.Serialised.enter (h : s.Serialised g d) {l₀ : L} (hfree : s.lock = 0)
    (hplace : s'.place = (s.at t (.inside l₀ l₀)).place) (hlock : s'.lock = 1) (hdata : s'.data = s.data)
    (hfin : s'.finished = s.finished) : s'.Serialised g d := by
  have hnone := h.lock.1 hfree
  have hself : s'.place t = .inside l₀ l₀ := by rw [hplace, Spin.at_place, if_pos rfl]
  have honly : ∀ u, s'.Has u → u = t := Spin.has_only hplace fun u hu => absurd hu (hnone u)
  obtain ⟨d', hser, hd, -⟩ := h.data
  refine ⟨fun u v hu hv => (honly u hu).trans (honly v hv).symm, ?_, d', ?_, fun hn => ?_, fun u l₁ l₂ hu => ?_⟩
  · rw [hlock]
    exact ⟨fun h1 => absurd h1 (by decide), fun hn => absurd ⟨l₀, l₀, Or.inl hself⟩ (hn t)⟩
  · rw [hfin]
    exact hser
  · exact absurd ⟨l₀, l₀, Or.inl hself⟩ (hn t)
  · obtain rfl := honly u ⟨l₁, l₂, hu⟩
    unfold Spin.HasAt at hu
    rw [hself] at hu ⊢
    rw [hdata, hd hnone]
    rcases hu with hu | hu
    · cases hu
      exact ⟨.refl, fun hr => by cases hr⟩
    · cases hu

theorem Spin.Serialised.leave (h : s.Serialised g d) {l₀ l : L} (hin : s.place t = .release l₀ l)
    (hplace : s'.place = (s.at t .outside).place) (hlock : s'.lock = 0) (hdata : s'.data = s.data)
    (hfin : s'.finished = s.finished ++ [(t, l₀, l)]) : s'.Serialised g d := by
  have hhas : s.Has t := ⟨l₀, l, Or.inr hin⟩
  have hself : s'.place t = .outside := by rw [hplace, Spin.at_place, if_pos rfl]
  have hnone : ∀ u, ¬ s'.Has u := by
    intro u hu
    obtain rfl := Spin.has_only hplace (fun u hu => h.one u t hu hhas) u hu
    exact Spin.not_has hself (by simp) hu
  obtain ⟨d', hser, -, hheld⟩ := h.data
  obtain ⟨hsteps, hfinal⟩ := hheld t l₀ l (Or.inr hin)
  refine ⟨fun u v hu => absurd hu (hnone u), ⟨fun _ => hnone, fun _ => hlock⟩, s.data, ?_, fun _ => hdata,
    fun u l₁ l₂ hu => absurd ⟨l₁, l₂, hu⟩ (hnone u)⟩
  rw [hfin]
  exact hser.snoc hsteps (hfinal hin)

omit [DecidableEq T] in
private theorem Spin.start_serialised (g : Guard L σ) (d : σ) : (Spin.start d : Spin T L σ).Serialised g d := by
  have hnone : ∀ t, ¬ (Spin.start d : Spin T L σ).Has t := by
    rintro t ⟨l₀, l, h | h⟩ <;> cases h
  exact ⟨fun t u ht => absurd ht (hnone t), ⟨fun _ => hnone, fun _ => rfl⟩, d, .nil, fun _ => rfl,
    fun t l₀ l ht => absurd ⟨l₀, l, ht⟩ (hnone t)⟩

private theorem spinStep_serialised {m : Move T L} (h : s.Serialised g d) (hstep : spinStep g s m = some s') :
    s'.Serialised g d := by
  cases m with
  | call t l =>
    cases hp : s.place t with
    | outside =>
      simp only [spinStep, hp, Option.some.injEq] at hstep
      subst hstep
      exact h.idle (Spin.not_has hp (by simp)) (by simp) rfl Iff.rfl rfl rfl
    | _ => simp [spinStep, hp] at hstep
  | go t =>
    cases hp : s.place t with
    | outside => simp [spinStep, hp] at hstep
    | testAndSet l =>
      simp only [spinStep, hp, Option.some.injEq] at hstep
      subst hstep
      by_cases hfree : s.lock = 0
      · rw [if_pos hfree]
        exact h.enter hfree rfl rfl rfl rfl
      · rw [if_neg hfree]
        exact h.idle (Spin.not_has hp (by simp)) (by simp) rfl
          ⟨fun h1 => absurd h1 Int.one_ne_zero, fun h0 => absurd h0 hfree⟩ rfl rfl
    | busy l =>
      simp only [spinStep, hp, Option.some.injEq] at hstep
      split at hstep
      · subst hstep
        exact h.idle (Spin.not_has hp (by simp)) (by simp) rfl Iff.rfl rfl rfl
      · subst hstep
        exact h
    | inside l₀ l =>
      simp only [spinStep, hp] at hstep
      split at hstep
      · rename_i hfinal
        cases hstep
        exact h.work hp (Or.inr ⟨rfl, hfinal, rfl⟩) rfl rfl rfl
      · rename_i hfinal
        obtain ⟨⟨l', d₁⟩, hnext, rfl⟩ := Option.map_eq_some_iff.1 hstep
        exact h.work hp (Or.inl ⟨l', rfl, by simpa using hfinal, hnext⟩) rfl rfl rfl
    | release l₀ l =>
      simp only [spinStep, hp, Option.some.injEq] at hstep
      subst hstep
      exact h.leave hp rfl rfl rfl rfl

theorem Spin.run_serialised {moves : List (Move T L)} (hrun : run (spinStep g) moves (Spin.start d) = some s) :
    s.Serialised g d :=
  run_invariant (fun _ _ _ h hs => spinStep_serialised h hs) (Spin.start_serialised g d) hrun

def Place.start? : Place L → Option L
  | .outside => none
  | .testAndSet l => some l
  | .busy l => some l
  | .inside l _ => some l
  | .release l _ => some l

/-- The calls have started at places with the property. -/
structure Spin.StartsIn (P : L → Prop) (s : Spin T L σ) : Prop where
  place : ∀ t, ∀ l ∈ (s.place t).start?, P l
  finished : ∀ c ∈ s.finished, P c.2.1

theorem Spin.StartsIn.move {P : L → Prop} (h : s.StartsIn P) {p : Place L} (hp : ∀ l ∈ p.start?, P l)
    (hplace : s'.place = (s.at t p).place) (hfin : s'.finished = s.finished) : s'.StartsIn P := by
  refine ⟨fun u => ?_, hfin ▸ h.finished⟩
  rw [hplace, Spin.at_place]
  split
  · exact hp
  · exact h.place u

private theorem spinStep_startsIn {P : L → Prop} {m : Move T L} (h : s.StartsIn P) (hm : ∀ t l, m = .call t l → P l)
    (hstep : spinStep g s m = some s') : s'.StartsIn P := by
  cases m with
  | call t l =>
    cases hp : s.place t with
    | outside =>
      simp only [spinStep, hp, Option.some.injEq] at hstep
      subst hstep
      exact h.move (fun l' hl' => by cases hl'; exact hm t l rfl) rfl rfl
    | _ => simp [spinStep, hp] at hstep
  | go t =>
    have hold := h.place t
    cases hp : s.place t with
    | outside => simp [spinStep, hp] at hstep
    | testAndSet l =>
      rw [hp] at hold
      simp only [spinStep, hp, Option.some.injEq] at hstep
      subst hstep
      by_cases hfree : s.lock = 0
      · rw [if_pos hfree]
        exact h.move (p := .inside l l) hold rfl rfl
      · rw [if_neg hfree]
        exact h.move (p := .busy l) hold rfl rfl
    | busy l =>
      rw [hp] at hold
      simp only [spinStep, hp, Option.some.injEq] at hstep
      split at hstep
      · subst hstep
        exact h.move (p := .testAndSet l) hold rfl rfl
      · subst hstep
        exact h
    | inside l₀ l =>
      rw [hp] at hold
      simp only [spinStep, hp] at hstep
      split at hstep
      · cases hstep
        exact h.move (p := .release l₀ l) hold rfl rfl
      · obtain ⟨r, -, rfl⟩ := Option.map_eq_some_iff.1 hstep
        exact h.move (p := .inside l₀ r.1) hold rfl rfl
    | release l₀ l =>
      rw [hp] at hold
      simp only [spinStep, hp, Option.some.injEq] at hstep
      subst hstep
      have hout : (s.at t .outside).StartsIn P := h.move (fun l' hl' => by cases hl') rfl rfl
      refine ⟨hout.place, fun c hc => ?_⟩
      rcases List.mem_append.1 hc with hc | hc
      · exact h.finished c hc
      · rw [List.mem_singleton.1 hc]
        exact hold l₀ rfl

theorem Spin.run_starts {P : L → Prop} {moves : List (Move T L)} (hcalls : ∀ t l, .call t l ∈ moves → P l)
    (hrun : run (spinStep g) moves (Spin.start d) = some s) : s.StartsIn P := by
  have hmeets : Meets (spinStep g) (fun _ m => ∀ t l, m = .call t l → P l) moves (Spin.start d) := by
    refine meets_of_forall (fun m hm _ t l he => ?_) _
    rw [he] at hm
    exact hcalls t l hm
  refine Meets.invariant (fun _ _ _ h hm hs => spinStep_startsIn h hm hs) ?_ hmeets hrun
  exact ⟨fun t l hl => (by cases hl), fun c hc => (by cases hc)⟩

/-- A thread in `spinlock_acquire`. -/
def Spin.Acquires (s : Spin T L σ) (t : T) (l : L) : Prop := s.place t = .testAndSet l ∨ s.place t = .busy l

theorem Spin.gets (hfree : s.lock = 0) {l : L} (ht : s.Acquires t l) :
    ∃ n ≤ 2, ∃ s', run (spinStep g) (List.replicate n (.go t)) s = some s' ∧ s'.place t = .inside l l := by
  have hgo : ∀ s₁ : Spin T L σ, s₁.lock = 0 → s₁.place t = .testAndSet l →
      spinStep g s₁ (.go t) = some { s₁.at t (.inside l l) with lock := 1 } := by
    intro s₁ h0 hp
    simp only [spinStep, hp, h0, if_true]
  have hin : ∀ s₁ : Spin T L σ, (s₁.at t (.inside l l)).place t = .inside l l := fun s₁ => by
    rw [Spin.at_place, if_pos rfl]
  rcases ht with hp | hp
  · refine ⟨1, by decide, { s.at t (.inside l l) with lock := 1 }, ?_, hin s⟩
    rw [List.replicate_one, run, hgo s hfree hp]
    rfl
  · have hfirst : spinStep g s (.go t) = some (s.at t (.testAndSet l)) := by
      simp only [spinStep, hp, hfree, if_true]
    have hat : (s.at t (.testAndSet l)).place t = .testAndSet l := by rw [Spin.at_place, if_pos rfl]
    refine ⟨2, Nat.le_refl _, { (s.at t (.testAndSet l)).at t (.inside l l) with lock := 1 }, ?_, hin _⟩
    show run (spinStep g) [.go t, .go t] s = _
    rw [run, hfirst, Option.bind_some, run, hgo (s.at t (.testAndSet l)) hfree hat]
    rfl

/-- In every interleaving of calls of functions that one lock guards, at most one thread has the lock.  When no thread
has it the data are what the finished calls make of the first data one after the other, and a thread that waits gets
it in two steps. -/
theorem spinlock_serial {moves : List (Move T L)} (hrun : run (spinStep g) moves (Spin.start d) = some s) :
    (∀ t u, s.Has t → s.Has u → t = u) ∧ ((∀ t, ¬ s.Has t) → g.Serial d s.finished s.data ∧
      ∀ t l, s.Acquires t l → ∃ n ≤ 2, ∃ s', run (spinStep g) (List.replicate n (.go t)) s = some s' ∧ s'.Has t) := by
  have h := Spin.run_serialised hrun
  refine ⟨h.one, fun hnone => ⟨?_, fun t l ht => ?_⟩⟩
  · obtain ⟨d', hser, hd, -⟩ := h.data
    rw [hd hnone]
    exact hser
  · obtain ⟨n, hn, s', hs, hp⟩ := Spin.gets (h.lock.2 hnone) ht
    exact ⟨n, hn, s', hs, l, l, Or.inl hp⟩

end

def increment : Guard (Nat × Nat) Nat where
  next l d := if l.1 = 0 then some ((1, d), d) else some ((2, l.2), l.2 + 1)
  final l := l.1 = 2

/-- Two threads, of which the second one waits until the first one has released the lock. -/
def incrementTwice : List (Move Bool (Nat × Nat)) :=
  [.call false (0, 0), .call true (0, 0), .go false, .go true, .go false, .go true, .go false, .go false, .go false,
    .go true, .go true, .go true, .go true, .go true, .go true]

theorem spinlock_serial_increment : ∃ s, run (spinStep increment) incrementTwice (Spin.start 0) = some s ∧
    s.data = 2 ∧ ∀ t u, s.Has t → s.Has u → t = u :=
  ⟨_, rfl, rfl, (spinlock_serial (show run (spinStep increment) incrementTwice (Spin.start 0) = some _ from rfl)).1⟩

/-! ### Semaphores -/

/-- Where a thread is in `semaphore_wait`: outside, in the loop, or behind it before the decrement. -/
inductive SemPlace
  | outside
  | polling
  | passed
  deriving DecidableEq

/-- The count, the threads, and how many calls of `semaphore_signal` and of `semaphore_wait` are complete. -/
structure Sem (T : Type) where
  count : BitVec 32
  place : T → SemPlace
  signals : Nat
  waits : Nat

/-- A thread calls `semaphore_wait`, takes a step of it, or calls `semaphore_signal`. -/
inductive SemMove (T : Type)
  | wait (t : T)
  | go (t : T)
  | signal

section

variable {T : Type} [DecidableEq T]

def Sem.create (init : BitVec 32) : Sem T := ⟨init, fun _ => .outside, 0, 0⟩

/-- The steps of `semaphore_wait`, and `semaphore_signal`, which is one atomic addition. -/
def semStep (s : Sem T) : SemMove T → Option (Sem T)
  | .wait t => if s.place t = .outside then some { s with place := Function.update s.place t .polling } else none
  | .go t =>
    match s.place t with
    | .outside => none
    | .polling => some (if s.count = 0 then s else { s with place := Function.update s.place t .passed })
    | .passed => some { s with
        count := s.count - 1
        place := Function.update s.place t .outside
        waits := s.waits + 1 }
  | .signal => some { s with count := s.count + 1, signals := s.signals + 1 }

/-- No thread leaves the loop of `semaphore_wait` while another one is behind it, and the signals do not exceed the
range of the count. -/
def SemAlone (init : BitVec 32) (s : Sem T) : SemMove T → Prop
  | .go t => s.place t = .polling → ∀ u, s.place u ≠ .passed
  | .signal => init.toNat + s.signals + 1 < 2 ^ 32
  | .wait _ => True

/-- The count is what is left of the first count and of the signals, and a thread that is behind the loop has one of
it. -/
structure Sem.Kept (init : BitVec 32) (s : Sem T) : Prop where
  count : s.count.toNat + s.waits = init.toNat + s.signals
  range : init.toNat + s.signals < 2 ^ 32
  one : ∀ t u, s.place t = .passed → s.place u = .passed → t = u
  left : ∀ t, s.place t = .passed → 0 < s.count.toNat

variable {init : BitVec 32} {s s' : Sem T}

private theorem semStep_kept {m : SemMove T} (h : s.Kept init) (hc : SemAlone init s m)
    (hstep : semStep s m = some s') :
    s'.Kept init := by
  have hcount := h.count
  have hrange := h.range
  cases m with
  | wait t =>
    simp only [semStep] at hstep
    split at hstep
    · cases hstep
      have hp : ∀ u, Function.update s.place t .polling u = .passed → s.place u = .passed := by
        intro u hu
        rw [Function.update_apply] at hu
        split at hu
        · cases hu
        · exact hu
      exact ⟨hcount, hrange, fun u v hu hv => h.one u v (hp u hu) (hp v hv), fun u hu => h.left u (hp u hu)⟩
    · cases hstep
  | signal =>
    simp only [semStep, Option.some.injEq] at hstep
    subst hstep
    have hlt : init.toNat + s.signals + 1 < 2 ^ 32 := hc
    have hadd : (s.count + 1).toNat = s.count.toNat + 1 := by
      rw [BitVec.toNat_add, show (1 : BitVec 32).toNat = 1 from rfl]
      exact Nat.mod_eq_of_lt (by omega)
    refine ⟨?_, by dsimp only; omega, h.one, fun t ht => ?_⟩
    · dsimp only
      omega
    · dsimp only
      omega
  | go t =>
    cases hp : s.place t with
    | outside => simp [semStep, hp] at hstep
    | polling =>
      simp only [semStep, hp, Option.some.injEq] at hstep
      split at hstep
      · subst hstep
        exact h
      · rename_i hne
        subst hstep
        have hnone := hc hp
        have honly : ∀ u, Function.update s.place t .passed u = .passed → u = t := by
          intro u hu
          rw [Function.update_apply] at hu
          split at hu
          · assumption
          · exact absurd hu (hnone u)
        refine ⟨hcount, hrange, fun u v hu hv => (honly u hu).trans (honly v hv).symm, fun u _ => ?_⟩
        exact Nat.pos_of_ne_zero fun h0 => hne (BitVec.eq_of_toNat_eq h0)
    | passed =>
      simp only [semStep, hp, Option.some.injEq] at hstep
      subst hstep
      have hpos := h.left t hp
      have hsub : (s.count - 1).toNat = s.count.toNat - 1 := by
        rw [BitVec.toNat_sub, show (1 : BitVec 32).toNat = 1 from rfl]
        omega
      have hnone : ∀ u, Function.update s.place t .outside u ≠ .passed := by
        intro u hu
        rw [Function.update_apply] at hu
        split at hu
        · cases hu
        · rename_i hne
          exact hne (h.one u t hu hp)
      refine ⟨by dsimp only; omega, hrange, fun u v hu => absurd hu (hnone u), fun u hu => absurd hu (hnone u)⟩

/-- In every run in which no thread passes the loop of `semaphore_wait` while another one is behind it, no more calls
of it return than the first count and the signals allow, and the count is what is left of them. -/
theorem semaphore_bounded {moves : List (SemMove T)} (hc : Meets semStep (SemAlone init) moves (Sem.create init))
    (hrun : run semStep moves (Sem.create init) = some s) :
    s.waits ≤ init.toNat + s.signals ∧ s.count.toNat = init.toNat + s.signals - s.waits := by
  have h : s.Kept init := by
    refine Meets.invariant (fun _ _ _ h hc hs => semStep_kept h hc hs) ?_ hc hrun
    exact ⟨rfl, init.isLt, fun t u ht => (by cases ht), fun t ht => (by cases ht)⟩
  have hcount := h.count
  exact ⟨by omega, by omega⟩

end

instance (init : BitVec 32) (s : Sem Bool) : (m : SemMove Bool) → Decidable (SemAlone init s m)
  | .go t => inferInstanceAs (Decidable (s.place t = .polling → ∀ u, s.place u ≠ .passed))
  | .signal => inferInstanceAs (Decidable (init.toNat + s.signals + 1 < 2 ^ 32))
  | .wait _ => isTrue trivial

def semaphoreTurns : List (SemMove Bool) :=
  [.wait false, .wait true, .go false, .go false, .go true, .signal, .go true, .go true]

theorem semaphore_bounded_turns : ∃ s, run semStep semaphoreTurns (Sem.create 1) = some s ∧
    s.waits ≤ (1 : BitVec 32).toNat + s.signals ∧ s.count.toNat = (1 : BitVec 32).toNat + s.signals - s.waits :=
  ⟨_, rfl, semaphore_bounded (show Meets semStep (SemAlone 1) semaphoreTurns (Sem.create 1) by decide) rfl⟩

end Pml.Util
