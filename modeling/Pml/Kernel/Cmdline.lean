import Pml.Util.Ctype

/-!
# The boot command line (`kernel/cmdline.c`)

`init_command_line` cuts the command line into words, and a word at its last `=`.  The search for the end of a word
stops at white space only: it passes the terminator when no white space comes after the last word.  A word `root`
without an argument is a panic.

The text is a function on the offsets from its start, with the terminator at `n`.
-/

namespace Pml.Kernel

open Util

/-! ### The parser -/

/-- Why the parser stops early. -/
inductive CmdlineStop
  | fuel
  | outside (offset : Nat)
  | panic
  deriving DecidableEq

abbrev Text := Nat → UInt8

def readText (mem : Text) (n i : Nat) : Except CmdlineStop UInt8 := if i ≤ n then .ok (mem i) else .error (.outside i)

def writeText (mem : Text) (n i : Nat) (c : UInt8) : Except CmdlineStop Text :=
  if i ≤ n then .ok (Function.update mem i c) else .error (.outside i)

def skipSpace (mem : Text) (n : Nat) : Nat → Nat → Except CmdlineStop Nat
  | 0, _ => .error .fuel
  | fuel + 1, ptr =>
    match readText mem n ptr with
    | .error e => .error e
    | .ok c => if isspace c then skipSpace mem n fuel (ptr + 1) else .ok ptr

/-- The loop to the end of a word, with the last `=` that it has seen. -/
def scanWord (mem : Text) (n : Nat) : Nat → Nat → Option Nat → Except CmdlineStop (Nat × Option Nat)
  | 0, _, _ => .error .fuel
  | fuel + 1, stop, arg =>
    match readText mem n stop with
    | .error e => .error e
    | .ok c => if isspace c then .ok (stop, arg)
        else scanWord mem n fuel (stop + 1) (if c = 0x3d then some stop else arg)

/-- `!strcmp (ptr, s)` -/
def sameText (mem : Text) (n : Nat) : Nat → List UInt8 → Except CmdlineStop Bool
  | ptr, [] =>
    match readText mem n ptr with
    | .error e => .error e
    | .ok c => .ok (c == 0)
  | ptr, b :: s =>
    match readText mem n ptr with
    | .error e => .error e
    | .ok c => if c = b then sameText mem n (ptr + 1) s else .ok false

/-- The text and `boot_options.root_device`, as the offset that has been assigned to it. -/
structure CmdlineState where
  mem : Text
  rootDevice : Option Nat

def rootName : List UInt8 := [0x72, 0x6f, 0x6f, 0x74]

/-- The word from `ptr` to `stop` is cut at its last `=`. -/
def cutWord (mem : Text) (n stop : Nat) (arg : Option Nat) : Except CmdlineStop Text :=
  match arg with
  | none => writeText mem n stop 0
  | some a =>
    match writeText mem n a 0 with
    | .error e => .error e
    | .ok mem => writeText mem n stop 0

/-- The word at `ptr` is cut and looked up. -/
def takeWord (s : CmdlineState) (n ptr stop : Nat) (arg : Option Nat) : Except CmdlineStop CmdlineState :=
  match cutWord s.mem n stop arg with
  | .error e => .error e
  | .ok mem =>
    match sameText mem n ptr rootName with
    | .error e => .error e
    | .ok true =>
      match arg with
      | none => .error .panic
      | some a => .ok ⟨mem, some (a + 1)⟩
    | .ok false => .ok ⟨mem, s.rootDevice⟩

/-- The loop of `init_command_line`. -/
def parseCmdline (n : Nat) : Nat → CmdlineState → Nat → Except CmdlineStop CmdlineState
  | 0, _, _ => .error .fuel
  | fuel + 1, s, ptr =>
    match skipSpace s.mem n (n + 2) ptr with
    | .error e => .error e
    | .ok ptr =>
      match readText s.mem n ptr with
      | .error e => .error e
      | .ok c =>
        if c = 0 then .ok s
        else
          match scanWord s.mem n (n + 2) ptr none with
          | .error e => .error e
          | .ok (stop, arg) =>
            match takeWord s n ptr stop arg with
            | .error e => .error e
            | .ok s => parseCmdline n fuel s (stop + 1)

def initCommandLine (mem : Text) (n : Nat) : Except CmdlineStop CmdlineState := parseCmdline n (n + 2) ⟨mem, none⟩ 0

/-! ### The words of the line -/

def Spells (mem : Text) (p : Nat) (s : List UInt8) : Prop := ∀ k < s.length, mem (p + k) = s.getD k 0

/-- The bytes from `p` to `e` are a word between white space or the ends of the line. -/
structure IsWord (mem : Text) (n p e : Nat) : Prop where
  lt : p < e
  le : e ≤ n
  inside : ∀ i, p ≤ i → i < e → isspace (mem i) = false
  start : p = 0 ∨ isspace (mem (p - 1)) = true
  stop : e = n ∨ isspace (mem e) = true

/-- The word is `root=` and a value, which starts at `p + 5`. -/
structure IsRootWord (mem : Text) (n p e : Nat) : Prop where
  word : IsWord mem n p e
  name : Spells mem p rootName
  equals : p + 4 < e ∧ mem (p + 4) = 0x3d

def LastRootWord (mem : Text) (n p e : Nat) : Prop := IsRootWord mem n p e ∧ ∀ p' e', IsRootWord mem n p' e' → p' ≤ p

/-- The root device is the text after the first `=` of the last word `root=value`, which is a string now. -/
structure RootDeviceSet (mem : Text) (n : Nat) (s : CmdlineState) : Prop where
  last : ∀ p e, LastRootWord mem n p e →
    s.rootDevice = some (p + 5) ∧ (∀ i, p + 5 ≤ i → i < e → s.mem i = mem i) ∧ s.mem e = 0
  none : (∀ p e, ¬ IsRootWord mem n p e) → s.rootDevice = none

/-- The parser stays in the text, and if it returns then the root device has been set. -/
def CmdlineParsed (mem : Text) (n : Nat) : Prop :=
  match initCommandLine mem n with
  | .ok s => RootDeviceSet mem n s
  | .error e => e = .panic

def BareRoot (mem : Text) (n : Nat) : Prop := ∃ p, IsWord mem n p (p + 4) ∧ p + 4 < n ∧ Spells mem p rootName

def EndsBlank (mem : Text) (n : Nat) : Prop := n = 0 ∨ isspace (mem (n - 1)) = true

def SingleEquals (mem : Text) (n : Nat) : Prop :=
  ∀ p e, LastRootWord mem n p e → ∀ i, p + 5 ≤ i → i < e → mem i ≠ 0x3d

section

variable {mem : Text} {n : Nat}

theorem IsWord.end_unique {p e e' : Nat} (h : IsWord mem n p e) (h' : IsWord mem n p e') : e = e' := by
  rcases Nat.lt_trichotomy e e' with hlt | heq | hlt
  · have hspace := h.stop.resolve_left (by have := h'.le; omega)
    rw [h'.inside e (by have := h.lt; omega) hlt] at hspace
    cases hspace
  · exact heq
  · have hspace := h'.stop.resolve_left (by have := h.le; omega)
    rw [h.inside e' (by have := h'.lt; omega) hlt] at hspace
    cases hspace

private theorem IsWord.start_outside {p e p' e' : Nat} (h : IsWord mem n p e) (h' : IsWord mem n p' e')
    (hlt : p < p') :
    e < p' := by
  by_contra hle
  have hspace := h'.start.resolve_left (by omega)
  rw [h.inside (p' - 1) (by omega) (by omega)] at hspace
  cases hspace

/-! ### The loops -/

private theorem readText_ok {i : Nat} (h : i ≤ n) : readText mem n i = .ok (mem i) := if_pos h

private theorem skipSpace_ok (hn : isspace (mem n) = false) {fuel ptr : Nat} (hle : ptr ≤ n) (hf : n - ptr < fuel) :
    ∃ q, skipSpace mem n fuel ptr = .ok q ∧ ptr ≤ q ∧ q ≤ n ∧ isspace (mem q) = false ∧
      ∀ i, ptr ≤ i → i < q → isspace (mem i) = true := by
  induction fuel generalizing ptr with
  | zero => omega
  | succ fuel ih =>
    rw [skipSpace, readText_ok hle]
    dsimp only
    by_cases hspace : isspace (mem ptr) = true
    · have hne : ptr ≠ n := fun he => by rw [he, hn] at hspace; cases hspace
      obtain ⟨q, hq, h1, h2, h3, h4⟩ := @ih (ptr + 1) (by omega) (by omega)
      rw [if_pos hspace]
      refine ⟨q, hq, by omega, h2, h3, fun i hi hiq => ?_⟩
      rcases Nat.eq_or_lt_of_le hi with rfl | hlt
      · exact hspace
      · exact h4 i hlt hiq
    · rw [if_neg hspace]
      exact ⟨ptr, rfl, Nat.le_refl _, hle, eq_false_of_ne_true hspace, fun i h1 h2 => by omega⟩

def LastEquals (mem : Text) (p e : Nat) : Option Nat → Prop
  | none => ∀ i, p ≤ i → i < e → mem i ≠ 0x3d
  | some a => p ≤ a ∧ a < e ∧ mem a = 0x3d ∧ ∀ i, a < i → i < e → mem i ≠ 0x3d

theorem LastEquals.next {p e : Nat} {arg : Option Nat} (h : LastEquals mem p e arg) (hp : p ≤ e) :
    LastEquals mem p (e + 1) (if mem e = 0x3d then some e else arg) := by
  by_cases heq : mem e = 0x3d
  · rw [if_pos heq]
    exact ⟨hp, by omega, heq, fun i h1 h2 => by omega⟩
  · rw [if_neg heq]
    cases arg with
    | none =>
      intro i h1 h2
      rcases Nat.eq_or_lt_of_le (Nat.le_of_lt_succ h2) with rfl | hlt
      · exact heq
      · exact h i h1 hlt
    | some a =>
      obtain ⟨h1, h2, h3, h4⟩ := h
      refine ⟨h1, by omega, h3, fun i h5 h6 => ?_⟩
      rcases Nat.eq_or_lt_of_le (Nat.le_of_lt_succ h6) with rfl | hlt
      · exact heq
      · exact h4 i h5 hlt

private theorem scanWord_cases {fuel p stop : Nat} {arg : Option Nat} (hp : p ≤ stop) (hle : stop ≤ n + 1)
    (hf : n + 1 - stop < fuel) (harg : LastEquals mem p stop arg) :
    (∃ e arg', scanWord mem n fuel stop arg = .ok (e, arg') ∧ stop ≤ e ∧ e ≤ n ∧ isspace (mem e) = true ∧
      (∀ i, stop ≤ i → i < e → isspace (mem i) = false) ∧ LastEquals mem p e arg') ∨
    (scanWord mem n fuel stop arg = .error (.outside (n + 1)) ∧ ∀ i, stop ≤ i → i ≤ n → isspace (mem i) = false) := by
  induction fuel generalizing stop arg with
  | zero => omega
  | succ fuel ih =>
    rw [scanWord]
    by_cases hin : stop ≤ n
    case neg =>
      obtain rfl : stop = n + 1 := by omega
      right
      rw [readText, if_neg hin]
      exact ⟨rfl, fun i h1 h2 => by omega⟩
    rw [readText_ok hin]
    dsimp only
    by_cases hspace : isspace (mem stop) = true
    · left
      rw [if_pos hspace]
      exact ⟨stop, arg, rfl, Nat.le_refl _, hin, hspace, fun i h1 h2 => by omega, harg⟩
    · rw [if_neg hspace]
      have hinside : ∀ {P : Nat → Prop}, (∀ i, stop + 1 ≤ i → P i → isspace (mem i) = false) →
          ∀ i, stop ≤ i → P i → isspace (mem i) = false := by
        intro P h i hi hP
        rcases Nat.eq_or_lt_of_le hi with rfl | hlt
        · exact eq_false_of_ne_true hspace
        · exact h i hlt hP
      rcases ih (by omega) (by omega) (by omega) (harg.next hp) with ⟨e, arg', h1, h2, h3, h4, h5, h6⟩ | ⟨h1, h2⟩
      · exact .inl ⟨e, arg', h1, by omega, h3, h4, hinside h5, h6⟩
      · exact .inr ⟨h1, hinside h2⟩

private theorem sameText_ok {p z : Nat} {s : List UInt8} (hs : ∀ b ∈ s, b ≠ 0) (hp : p ≤ z) (hz : z ≤ n)
    (h0 : mem z = 0) :
    ∃ b, sameText mem n p s = .ok b ∧ (b = true ↔ Spells mem p s ∧ mem (p + s.length) = 0) := by
  induction s generalizing p with
  | nil =>
    refine ⟨mem p == 0, by rw [sameText, readText_ok (by omega)], ?_⟩
    rw [beq_iff_eq]
    exact ⟨fun h => ⟨fun k hk => absurd hk (Nat.not_lt_zero k), h⟩, fun h => h.2⟩
  | cons c s ih =>
    rw [sameText, readText_ok (by omega)]
    dsimp only
    have hspell : Spells mem p (c :: s) ↔ mem p = c ∧ Spells mem (p + 1) s := by
      refine ⟨fun h => ⟨h 0 (Nat.succ_pos _), fun k hk => ?_⟩, fun h k hk => ?_⟩
      · have hk' := h (k + 1) (Nat.succ_lt_succ hk)
        rwa [← Nat.add_assoc, Nat.add_right_comm] at hk'
      · cases k with
        | zero => exact h.1
        | succ k =>
          have hk' := h.2 k (Nat.lt_of_succ_lt_succ hk)
          rwa [Nat.add_right_comm] at hk'
    by_cases hc : mem p = c
    · have hne : p ≠ z := fun he => hs c List.mem_cons_self (hc ▸ he ▸ h0)
      obtain ⟨b, hb, hiff⟩ := @ih (p + 1) (fun b hb => hs b (List.mem_cons_of_mem c hb)) (by omega)
      rw [if_pos hc]
      refine ⟨b, hb, hiff.trans ?_⟩
      rw [hspell, List.length_cons, Nat.add_right_comm, Nat.add_assoc]
      exact ⟨fun h => ⟨⟨hc, h.1⟩, h.2⟩, fun h => ⟨h.1.2, h.2⟩⟩
    · rw [if_neg hc]
      exact ⟨false, rfl, (fun h => by cases h), fun h => absurd (hspell.1 h.1).1 hc⟩

/-! ### One word -/

private theorem rootName_ne {k : Nat} (hk : k < rootName.length) :
    rootName.getD k 0 ≠ 0 ∧ rootName.getD k 0 ≠ 0x3d := by
  revert k
  decide

/-- The text after a word has been cut. -/
structure Cut (mem mem' : Text) (e : Nat) (arg : Option Nat) : Prop where
  stop : mem' e = 0
  equals : ∀ a, arg = some a → mem' a = 0
  other : ∀ i, i ≠ e → arg ≠ some i → mem' i = mem i

private theorem cutWord_ok {p e : Nat} {arg : Option Nat} (he : e ≤ n) (harg : LastEquals mem p e arg) :
    ∃ mem', cutWord mem n e arg = .ok mem' ∧ Cut mem mem' e arg := by
  cases arg with
  | none =>
    refine ⟨_, if_pos he, Function.update_self .., (fun a ha => by cases ha), fun i hi _ => ?_⟩
    exact Function.update_of_ne hi _ _
  | some a =>
    have hlt : a < e := harg.2.1
    refine ⟨Function.update (Function.update mem a 0) e 0, ?_, Function.update_self .., fun b hb => ?_,
      fun i hi hne => ?_⟩
    · rw [cutWord, writeText, if_pos (by omega)]
      exact if_pos he
    · obtain rfl := Option.some.inj hb
      rw [Function.update_of_ne (Nat.ne_of_lt hlt), Function.update_self]
    · rw [Function.update_of_ne hi, Function.update_of_ne fun ha => hne (congrArg some ha.symm)]

/-- After the cut, the string at `p` is `root` when the word was `root=` and a value without `=`, or `root`. -/
private theorem Cut.root_iff {mem' : Text} {p e : Nat} {arg : Option Nat} (h : Cut mem mem' e arg) (hp : p < e)
    (hnonzero : ∀ i, p ≤ i → i < e → mem i ≠ 0) (harg : LastEquals mem p e arg) :
    Spells mem' p rootName ∧ mem' (p + rootName.length) = 0 ↔
      Spells mem p rootName ∧ (arg = some (p + 4) ∨ e = p + 4) := by
  constructor
  · rintro ⟨hspell, hzero⟩
    have hne : ∀ k < 4, p + k ≠ e ∧ arg ≠ some (p + k) := by
      intro k hk
      have hk' : mem' (p + k) ≠ 0 := fun h0 => (rootName_ne hk).1 ((hspell k hk).symm.trans h0)
      exact ⟨fun he => hk' (he ▸ h.stop), fun ha => hk' (h.equals _ ha)⟩
    refine ⟨fun k hk => (h.other _ (hne k hk).1 (hne k hk).2).symm.trans (hspell k hk), ?_⟩
    by_contra hnot
    obtain ⟨hnarg, hne'⟩ := not_or.1 hnot
    have h0 := (hne 0 (by decide)).1
    have h1 := (hne 1 (by decide)).1
    have h2 := (hne 2 (by decide)).1
    have h3 := (hne 3 (by decide)).1
    exact hnonzero (p + 4) (by omega) (by omega) ((h.other _ (Ne.symm hne') hnarg).symm.trans hzero)
  · rintro ⟨hspell, hend⟩
    have hle : p + 4 ≤ e := by
      rcases hend with ha | he
      · rw [ha] at harg
        exact Nat.le_of_lt harg.2.1
      · omega
    refine ⟨fun k hk => ?_, ?_⟩
    · have hk4 : k < 4 := hk
      refine (h.other _ (by omega) fun ha => ?_).trans (hspell k hk)
      rw [ha] at harg
      exact (rootName_ne hk).2 ((hspell k hk).symm.trans harg.2.2.1)
    · rcases hend with ha | he
      · exact h.equals _ ha
      · rw [show p + rootName.length = e from he.symm]
        exact h.stop

/-- What becomes of a word. -/
inductive Taken (s : CmdlineState) (n p e : Nat) (arg : Option Nat) : Except CmdlineStop CmdlineState → Prop
  | root (mem' : Text) (cut : Cut s.mem mem' e arg) (name : Spells s.mem p rootName) (equals : arg = some (p + 4)) :
    Taken s n p e arg (.ok ⟨mem', some (p + 5)⟩)
  | panic (name : Spells s.mem p rootName) (stop : e = p + 4) : Taken s n p e arg (.error .panic)
  | other (mem' : Text) (cut : Cut s.mem mem' e arg)
      (name : ¬ (Spells s.mem p rootName ∧ (arg = some (p + 4) ∨ e = p + 4))) :
    Taken s n p e arg (.ok ⟨mem', s.rootDevice⟩)

private theorem takeWord_taken {s : CmdlineState} {p e : Nat} {arg : Option Nat} (hp : p < e) (he : e ≤ n)
    (hnonzero : ∀ i, p ≤ i → i < e → s.mem i ≠ 0) (harg : LastEquals s.mem p e arg) :
    Taken s n p e arg (takeWord s n p e arg) := by
  obtain ⟨mem', hcut, hmem'⟩ := cutWord_ok he harg
  have hname : ∀ b ∈ rootName, b ≠ 0 := by simp [rootName]
  obtain ⟨b, hb, hiff⟩ := @sameText_ok mem' n p e rootName hname (by omega) he hmem'.stop
  have hroot := hiff.trans (hmem'.root_iff hp hnonzero harg)
  rw [takeWord, hcut]
  dsimp only
  rw [hb]
  cases b with
  | false => exact .other mem' hmem' fun h => Bool.false_ne_true (hroot.2 h)
  | true =>
    obtain ⟨hspell, hend⟩ := hroot.1 rfl
    cases arg with
    | none => exact .panic hspell (hend.resolve_left fun h => by cases h)
    | some a =>
      have ha : a = p + 4 := by
        rcases hend with ha | he4
        · exact Option.some.inj ha
        · obtain ⟨h1, h2, h3, -⟩ := harg
          obtain ⟨k, rfl⟩ := Nat.exists_eq_add_of_le h1
          have hk : k < 4 := by omega
          exact absurd ((hspell k hk).symm.trans h3) (rootName_ne hk).2
      subst ha
      exact .root mem' hmem' hspell rfl

/-! ### The loop over the words -/

def TakenRoot (mem : Text) (n p e : Nat) : Prop := IsRootWord mem n p e ∧ ∀ i, p + 5 ≤ i → i < e → mem i ≠ 0x3d

/-- What the words before `ptr` have left: the text after them is as it was, none of them was `root`, and the root
device is that of the last one that has been taken. -/
structure Passed (mem : Text) (n ptr : Nat) (s : CmdlineState) : Prop where
  le : ptr ≤ n
  start : ptr = 0 ∨ isspace (mem (ptr - 1)) = true
  same : ∀ i, ptr ≤ i → s.mem i = mem i
  bare : ∀ p, p < ptr → IsWord mem n p (p + 4) → ¬ Spells mem p rootName
  root : (s.rootDevice = none ∧ ∀ p e, p < ptr → ¬ TakenRoot mem n p e) ∨
    ∃ p e, e < ptr ∧ TakenRoot mem n p e ∧ (∀ p' e', p' < ptr → TakenRoot mem n p' e' → p' ≤ p) ∧
      s.rootDevice = some (p + 5) ∧ (∀ i, p + 5 ≤ i → i < e → s.mem i = mem i) ∧ s.mem e = 0

theorem Passed.skip {s : CmdlineState} {ptr q : Nat} (h : Passed mem n ptr s) (hle : ptr ≤ q) (hq : q ≤ n)
    (hspace : ∀ i, ptr ≤ i → i < q → isspace (mem i) = true) : Passed mem n q s := by
  have hbefore : ∀ {p e}, IsWord mem n p e → p < q → p < ptr := by
    intro p e hw hlt
    by_contra hnot
    have hsp := hspace p (by omega) hlt
    rw [hw.inside p (Nat.le_refl _) hw.lt] at hsp
    cases hsp
  refine ⟨hq, ?_, fun i hi => h.same i (by omega), fun p hp hw => h.bare p (hbefore hw hp) hw, ?_⟩
  · rcases Nat.eq_or_lt_of_le hle with rfl | hlt
    · exact h.start
    · exact .inr (hspace (q - 1) (by omega) (by omega))
  · rcases h.root with ⟨h1, h2⟩ | ⟨p, e, h1, h2, h3, h4⟩
    · exact .inl ⟨h1, fun p e hp ht => h2 p e (hbefore ht.1.word hp) ht⟩
    · exact .inr ⟨p, e, by omega, h2, fun p' e' hp ht => h3 p' e' (hbefore ht.1.word hp) ht, h4⟩

theorem Passed.word {s s' : CmdlineState} {ptr e : Nat} {arg : Option Nat} (h : Passed mem n ptr s)
    (hw : IsWord mem n ptr e)
    (he : e < n) (harg : LastEquals s.mem ptr e arg) (ht : Taken s n ptr e arg (.ok s')) :
    Passed mem n (e + 1) s' := by
  have hspace := hw.stop.resolve_left (Nat.ne_of_lt he)
  have hword : ∀ {p e'}, IsWord mem n p e' → p < e + 1 → p < ptr ∨ p = ptr := by
    intro p e' hw' hp
    rcases Nat.lt_trichotomy p ptr with hlt | heq | hlt
    · exact .inl hlt
    · exact .inr heq
    · obtain rfl : p = e := by
        have hout := hw.start_outside hw' hlt
        omega
      rw [hw'.inside p (Nat.le_refl _) hw'.lt] at hspace
      cases hspace
  have hname : Spells s.mem ptr rootName ↔ Spells mem ptr rootName :=
    forall_congr' fun k => forall_congr' fun _ => by rw [h.same _ (Nat.le_add_right _ _)]
  have hargle : ∀ i, arg = some i → ptr ≤ i ∧ i < e := by
    rintro i rfl
    exact ⟨harg.1, harg.2.1⟩
  have hlt := hw.lt
  have hsame : ∀ {mem'}, Cut s.mem mem' e arg → ∀ i, i < ptr ∨ e < i → mem' i = s.mem i := by
    intro mem' hc i hi
    exact hc.other i (by omega) fun ha => by have := hargle i ha; omega
  cases ht with
  | root mem' cut name equals =>
    -- the word is taken, so its argument is behind the first equals sign
    subst equals
    have htaken : TakenRoot mem n ptr e := by
      obtain ⟨-, h2, h3, h4⟩ := harg
      refine ⟨⟨hw, hname.1 name, h2, ?_⟩, fun i h5 h6 => ?_⟩
      · rwa [← h.same _ (Nat.le_add_right _ _)]
      · rw [← h.same i (by omega)]
        exact h4 i (by omega) h6
    refine ⟨he, .inr hspace, fun i hi => ?_, fun p hp hw' hs => ?_,
      .inr ⟨ptr, e, by omega, htaken, fun p' e' hp' ht' => ?_, rfl, fun i h1 h2 => ?_, cut.stop⟩⟩
    · exact (hsame cut i (.inr (by omega))).trans (h.same i (by omega))
    · rcases hword hw' hp with hlt' | rfl
      · exact h.bare p hlt' hw' hs
      · have heq := hw.end_unique hw'
        have hlt4 := htaken.1.equals.1
        omega
    · rcases hword ht'.1.word hp' with hlt' | rfl
      · exact Nat.le_of_lt hlt'
      · exact Nat.le_refl _
    · exact (cut.other i (by omega) fun ha => by have := Option.some.inj ha; omega).trans (h.same i (by omega))
  | other mem' cut name =>
    -- if the name were right then the last equals sign would be the first one
    have hnot : ∀ e', ¬ TakenRoot mem n ptr e' := by
      intro e' ht
      obtain rfl := ht.1.word.end_unique hw
      obtain ⟨hlt4, heq4⟩ := ht.1.equals
      refine name ⟨hname.2 ht.1.name, .inl ?_⟩
      rw [← h.same _ (Nat.le_add_right _ _)] at heq4
      cases arg with
      | none => exact absurd heq4 (harg (ptr + 4) (by omega) hlt4)
      | some a =>
        obtain ⟨h1, h2, h3, h4⟩ := harg
        have hge : ptr + 4 ≤ a := by
          by_contra hlt'
          exact h4 (ptr + 4) (by omega) hlt4 heq4
        have hle : a ≤ ptr + 4 := by
          by_contra hlt'
          rw [h.same a h1] at h3
          exact ht.2 a (by omega) h2 h3
        rw [Nat.le_antisymm hle hge]
    refine ⟨he, .inr hspace, fun i hi => ?_, fun p hp hw' hs => ?_, ?_⟩
    · exact (hsame cut i (.inr (by omega))).trans (h.same i (by omega))
    · rcases hword hw' hp with hlt' | rfl
      · exact h.bare p hlt' hw' hs
      · exact name ⟨hname.2 hs, .inr (hw.end_unique hw')⟩
    · rcases h.root with ⟨h1, h2⟩ | ⟨p, e', h1, h2, h3, h4, h5, h6⟩
      · refine .inl ⟨h1, fun p e' hp ht => ?_⟩
        rcases hword ht.1.word hp with hlt' | rfl
        · exact h2 p e' hlt' ht
        · exact hnot e' ht
      · refine .inr ⟨p, e', by omega, h2, fun p' e'' hp ht => ?_, h4, fun i h7 h8 => ?_, ?_⟩
        · rcases hword ht.1.word hp with hlt' | rfl
          · exact h3 p' e'' hlt' ht
          · exact absurd ht (hnot e'')
        · exact (hsame cut i (.inl (by omega))).trans (h5 i h7 h8)
        · exact (hsame cut e' (.inl h1)).trans h6

/-- How the loop ends. -/
inductive Ended (mem : Text) (n : Nat) : Except CmdlineStop CmdlineState → Prop
  | done (s : CmdlineState) (passed : Passed mem n n s) : Ended mem n (.ok s)
  | panic (bare : BareRoot mem n) : Ended mem n (.error .panic)
  | outside (bare : ¬ BareRoot mem n) (blank : ¬ EndsBlank mem n) : Ended mem n (.error (.outside (n + 1)))

private theorem parseCmdline_ended (h0 : mem n = 0) (hnz : ∀ i < n, mem i ≠ 0) {fuel : Nat} {s : CmdlineState}
    {ptr : Nat} (h : Passed mem n ptr s) (hf : n + 1 - ptr < fuel) : Ended mem n (parseCmdline n fuel s ptr) := by
  induction fuel generalizing s ptr with
  | zero => omega
  | succ fuel ih =>
    have hn : isspace (s.mem n) = false := by rw [h.same n h.le, h0]; rfl
    obtain ⟨q, hq, hle, hqn, hnot, hspace⟩ := skipSpace_ok hn h.le (show n - ptr < n + 2 by omega)
    have hpass : Passed mem n q s := h.skip hle hqn fun i h1 h2 => by rw [← h.same i h1]; exact hspace i h1 h2
    rw [parseCmdline, hq]
    dsimp only
    rw [readText_ok hqn]
    dsimp only
    by_cases hz : s.mem q = 0
    · rw [if_pos hz]
      obtain rfl : q = n := by
        by_contra hne
        exact hnz q (by omega) ((hpass.same q (Nat.le_refl _)).symm.trans hz)
      exact .done s hpass
    rw [if_neg hz]
    have hqlt : q < n := Nat.lt_of_le_of_ne hqn fun he => hz (by rw [he, h.same n h.le, h0])
    have hfirst : LastEquals s.mem q q none := fun i h1 h2 => by omega
    rcases scanWord_cases (Nat.le_refl q) (by omega)
      (show n + 1 - q < n + 2 by omega) hfirst with ⟨e, arg, hscan, h1, h2, h3, h4, h5⟩ | ⟨hscan, hinside⟩
    · have hlt : q < e := Nat.lt_of_le_of_ne h1 fun he => by rw [← he, hnot] at h3; cases h3
      have hen : e < n := Nat.lt_of_le_of_ne h2 fun he => by rw [he, hn] at h3; cases h3
      have hw : IsWord mem n q e := by
        refine ⟨hlt, h2, fun i h6 h7 => ?_, hpass.start, .inr ?_⟩
        · rw [← hpass.same i h6]
          exact h4 i h6 h7
        · rw [← hpass.same e h1]
          exact h3
      have htaken := takeWord_taken hlt h2 (fun i h6 h7 => by rw [hpass.same i h6]; exact hnz i (by omega)) h5
      rw [hscan]
      dsimp only
      generalize htake : takeWord s n q e arg = r at htaken
      cases r with
      | ok s' => exact ih (hpass.word hw hen h5 htaken) (by omega)
      | error stop =>
        cases htaken with
        | panic name stop =>
          subst stop
          exact .panic ⟨q, hw, hen, fun k hk => (hpass.same _ (Nat.le_add_right _ _)).symm.trans (name k hk)⟩
    · have hw : IsWord mem n q n :=
        ⟨hqlt, Nat.le_refl _, fun i h6 h7 => by rw [← hpass.same i h6]; exact hinside i h6 (by omega),
        hpass.start, .inl rfl⟩
      rw [hscan]
      refine .outside ?_ ?_
      · rintro ⟨p, hwp, hlt, hs⟩
        rcases Nat.lt_trichotomy p q with hpq | rfl | hpq
        · exact hpass.bare p hpq hwp hs
        · have heq := hw.end_unique hwp
          omega
        · have hout := hw.start_outside hwp hpq
          omega
      · rintro (hzero | hblank)
        · omega
        · rw [hw.inside (n - 1) (by omega) (by omega)] at hblank
          cases hblank

/-- The root device is right when the last word `root=value` is one that is taken. -/
private theorem Passed.rootDevice_iff {s : CmdlineState} (h : Passed mem n n s) :
    RootDeviceSet mem n s ↔ SingleEquals mem n := by
  have hlt : ∀ {p e}, IsWord mem n p e → p < n := fun hw => Nat.lt_of_lt_of_le hw.lt hw.le
  constructor
  · intro hset p e hlast
    have hroot := (hset.last p e hlast).1
    rcases h.root with ⟨h1, -⟩ | ⟨p', e', -, ht, -, h2, -⟩
    · rw [h1] at hroot
      cases hroot
    · obtain rfl : p' = p := by
        have heq := Option.some.inj (h2.symm.trans hroot)
        omega
      rw [hlast.1.word.end_unique ht.1.word]
      exact ht.2
  · intro hsingle
    refine ⟨fun p e hlast => ?_, fun hnone => ?_⟩
    · have htaken : TakenRoot mem n p e := ⟨hlast.1, hsingle p e hlast⟩
      rcases h.root with ⟨-, h1⟩ | ⟨p', e', -, ht, hmax, h2, h3, h4⟩
      · exact absurd htaken (h1 p e (hlt hlast.1.word))
      · obtain rfl : p' = p := Nat.le_antisymm (hlast.2 p' e' ht.1) (hmax p e (hlt hlast.1.word) htaken)
        obtain rfl := hlast.1.word.end_unique ht.1.word
        exact ⟨h2, h3, h4⟩
    · rcases h.root with ⟨h1, -⟩ | ⟨p, e, -, ht, -⟩
      · exact h1
      · exact absurd ht.1 (hnone p e)

/-- The parser stays in the line and finds the root device exactly when the line ends with white space and the value
of the last word `root=value` has no `=`, or it stops at a word `root` that has no argument. -/
theorem init_command_line_iff (h0 : mem n = 0) (hnz : ∀ i < n, mem i ≠ 0) :
    CmdlineParsed mem n ↔ BareRoot mem n ∨ EndsBlank mem n ∧ SingleEquals mem n := by
  have hstart : Passed mem n 0 ⟨mem, none⟩ :=
    ⟨Nat.zero_le n, .inl rfl, fun i _ => rfl, fun p hp => absurd hp (Nat.not_lt_zero p),
      .inl ⟨rfl, fun p e hp => absurd hp (Nat.not_lt_zero p)⟩⟩
  have hended := parseCmdline_ended h0 hnz hstart (show n + 1 - 0 < n + 2 by omega)
  unfold CmdlineParsed initCommandLine
  generalize parseCmdline n (n + 2) ⟨mem, none⟩ 0 = r at hended ⊢
  cases hended with
  | done s passed =>
    have hbare : ¬ BareRoot mem n := fun ⟨p, hw, hlt, hs⟩ => passed.bare p (by omega) hw hs
    exact passed.rootDevice_iff.trans ⟨fun h => .inr ⟨passed.start, h⟩, fun h => (h.resolve_left hbare).2⟩
  | panic bare => exact ⟨fun _ => .inl bare, fun _ => rfl⟩
  | outside bare blank => exact ⟨(fun h => by cases h), fun h => absurd (h.resolve_left bare).1 blank⟩

end

def lineOf (s : List UInt8) : Text := fun i => s.getD i 0

def rootLine : List UInt8 := [0x72, 0x6f, 0x6f, 0x74, 0x3d, 0x61, 0x20]

theorem init_command_line_root : CmdlineParsed (lineOf rootLine) 7 := by
  refine (init_command_line_iff rfl (by decide)).2 (.inr ⟨.inr rfl, fun p e hlast i hi hlt => ?_⟩)
  have hle := hlast.1.word.le
  have hinside := hlast.1.word.inside 6
  have h6 : isspace (lineOf rootLine 6) = true := rfl
  obtain rfl : i = 5 := by
    by_contra hne
    have hp : p ≤ 6 ∧ 6 < e := by omega
    rw [hinside hp.1 hp.2] at h6
    cases h6
  decide

/-- The line `root=a`, without white space after it: the parser reads the byte after the terminator. -/
theorem not_init_command_line : ¬ ∀ (mem : Text) (n : Nat), mem n = 0 → (∀ i < n, mem i ≠ 0) →
    CmdlineParsed mem n := by
  intro hall
  have hparsed := hall (lineOf [0x72, 0x6f, 0x6f, 0x74, 0x3d, 0x61]) 6 rfl (by decide)
  have hrun : initCommandLine (lineOf [0x72, 0x6f, 0x6f, 0x74, 0x3d, 0x61]) 6 = .error (.outside 7) := rfl
  rw [CmdlineParsed, hrun] at hparsed
  cases hparsed

end Pml.Kernel
