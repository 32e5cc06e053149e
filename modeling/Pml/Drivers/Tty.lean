import Pml.Basic
import Pml.Lib.Machine
import Mathlib.Logic.Function.Basic
import Mathlib.Data.List.Basic

/-!
# Terminal input (`drivers/tty.c`, `drivers/ttydev.c`, `drivers/ioctl.c`)

The input buffer of a terminal holds the bytes from `start` on up to `end`, which is `stop` here.  Bytes are appended,
erased one by one, by words or all at once, and read from the front.  A function is undefined (`none`) if it accesses
the buffer outside its bounds.  What the functions return for the echo is left out, as is the echo, which does not
access the buffer.
-/

namespace Pml.Drivers

abbrev ttyInputBufferSize : Nat := 1024

/-- `struct tty_input`: `stop` is the member `end`. -/
structure TtyInput where
  buffer : Nat → UInt8
  start : Nat
  stop : Nat

/-- The members of `struct termios` that the input functions read: three bits of `c_lflag`, and `c_cc`. -/
structure Termios where
  icanon : Bool
  iexten : Bool
  isig : Bool
  cc : Nat → UInt8

/-- A terminal: `flush` and `literal` are the flags `TTY_FLAG_FLUSH` and `TTY_FLAG_LITERAL_INPUT`. -/
structure Tty where
  input : TtyInput
  termios : Termios
  flush : Bool
  literal : Bool

/-! ### Control characters -/

abbrev vIntr : Nat := 0
abbrev vQuit : Nat := 1
abbrev vErase : Nat := 2
abbrev vKill : Nat := 3
abbrev vEof : Nat := 4
abbrev vTime : Nat := 5
abbrev vMin : Nat := 6
abbrev vSusp : Nat := 9
abbrev vEol : Nat := 10
abbrev vReprint : Nat := 11
abbrev vWerase : Nat := 13
abbrev vLnext : Nat := 14
abbrev vEol2 : Nat := 15

def charMatch (c : UInt8) (tp : Termios) (x : Nat) : Bool := c == tp.cc x && tp.cc x != 0xff

def isSpace (c : UInt8) : Bool := c == 32 || c == 9 || c == 10 || c == 11 || c == 12 || c == 13

/-! ### The buffer -/

namespace TtyInput

def read (t : TtyInput) (i : Nat) : Option UInt8 := if i < ttyInputBufferSize then some (t.buffer i) else none

def write (t : TtyInput) (i : Nat) (c : UInt8) : Option TtyInput :=
  if i < ttyInputBufferSize then some { t with buffer := Function.update t.buffer i c } else none

def compact (t : TtyInput) : Option TtyInput :=
  if t.start ≤ t.stop ∧ t.stop ≤ ttyInputBufferSize then
    some ⟨fun i => if i < t.stop - t.start then t.buffer (t.start + i) else t.buffer i, 0, t.stop - t.start⟩
  else none

def memrchr (t : TtyInput) (c : UInt8) : Option (Option Nat) :=
  if t.stop ≤ ttyInputBufferSize then some ((List.range t.stop).reverse.find? fun i => t.buffer i == c) else none

/-- A loop of `tty_erase_input_word`, with `i + 1` for the index.  The index -1 is converted to `size_t` and not below
`start`, so the loop reads `buffer[-1]`. -/
def eraseScan (t : TtyInput) (p : UInt8 → Bool) : Nat → Option Nat
  | 0 => none
  | k + 1 =>
    if t.start ≤ k then
      match t.read k with
      | none => none
      | some c => if p c then eraseScan t p k else some (k + 1)
    else some (k + 1)

/-- The loop of `tty_reprint_input`: `fuel` bounds the number of bytes that it can read. -/
def reprintLoop (t : TtyInput) : Nat → Nat → Option TtyInput
  | 0, _ => none
  | fuel + 1, i =>
    if t.stop = 0 then some t
    else
      match t.read i with
      | none => none
      | some _ => reprintLoop t fuel (i + 1)

end TtyInput

namespace Tty

def eraseInput (t : Tty) : Option Tty :=
  if t.input.stop ≠ 0 then
    match t.input.read (t.input.stop - 1) with
    | none => none
    | some c => if charMatch c t.termios vEof then some t else some { t with input.stop := t.input.stop - 1 }
  else some t

def eraseInputWord (t : Tty) : Option Tty :=
  match t.input.eraseScan (fun c => isSpace c && !charMatch c t.termios vEof) t.input.stop with
  | none => none
  | some k =>
    match t.input.eraseScan (fun c => !isSpace c && !charMatch c t.termios vEof) k with
    | none => none
    | some k => some { t with input.stop := k }

def killInput (t : Tty) : Option Tty :=
  match if t.termios.cc vEof = 0xff then some none else t.input.memrchr (t.termios.cc vEof) with
  | none => none
  | some none => some { t with input.start := 0, input.stop := 0 }
  | some (some ptr) =>
    if ptr < t.input.start then some { t with input.start := 0, input.stop := 0 }
    else some { t with input.stop := ptr }

def reprintInput (t : Tty) : Option Tty :=
  (t.input.reprintLoop (ttyInputBufferSize + 1) t.input.start).map fun input => { t with input := input }

def recv (t : Tty) (c : UInt8) : Option Tty :=
  match if t.input.stop ≥ ttyInputBufferSize - 1 ∧ t.input.start ≠ 0 then t.input.compact else some t.input with
  | none => none
  | some input =>
    if input.stop ≥ ttyInputBufferSize - 1 ∧ (t.termios.icanon = false ∨ c ≠ 10) then some { t with input := input }
    else
      (input.write input.stop c).map fun input => { t with input := { input with stop := input.stop + 1 } }

def flushInputLine (t : Tty) (delim : UInt8) : Option Tty :=
  (if delim ≠ 0 then t.recv delim else some t).map fun t => { t with flush := true }

end Tty

/-- What `tty_input_byte` does with a byte. -/
inductive InputAction
  | raw
  | flushLine (delim : UInt8)
  | erase
  | kill
  | eraseWord
  | reprint
  | literalNext
  | signal
  deriving DecidableEq

namespace Tty

/-- The control character that the byte is in canonical mode, if it is one. -/
def canonicalAction (t : Tty) (c : UInt8) : Option InputAction :=
  if c = 10 ∨ charMatch c t.termios vEol ∨ charMatch c t.termios vEol2 then some (.flushLine c)
  else if charMatch c t.termios vEof ∧ t.input.stop = 0 then some (.flushLine 0)
  else if charMatch c t.termios vErase then some .erase
  else if charMatch c t.termios vKill then some .kill
  else if t.termios.iexten then
    if charMatch c t.termios vWerase then some .eraseWord
    else if charMatch c t.termios vReprint then some .reprint
    else if charMatch c t.termios vLnext then some .literalNext
    else none
  else none

/-- The choice of `tty_input_byte`. -/
def inputAction (t : Tty) (c : UInt8) : InputAction :=
  if t.literal then .raw
  else
    match if t.termios.icanon then t.canonicalAction c else none with
    | some action => action
    | none =>
      if t.termios.isig ∧
        (charMatch c t.termios vIntr ∨ charMatch c t.termios vSusp ∨ charMatch c t.termios vQuit) then
        .signal
      else .raw

def inputByte (t : Tty) (c : UInt8) : Option Tty :=
  match t.inputAction c with
  | .raw => { t with literal := false }.recv c
  | .flushLine delim => t.flushInputLine delim
  | .erase => t.eraseInput
  | .kill => t.killInput
  | .eraseWord => t.eraseInputWord
  | .reprint => t.reprintInput
  | .literalNext => some { t with literal := true }
  | .signal => some t

/-- The part of `tty_device_read` from the label `ready` on, with its return value and the byte. -/
def ready (t : Tty) : Option ((Int × Option UInt8) × Tty) :=
  if t.input.start = t.input.stop then some ((0, none), { t with flush := false })
  else
    match t.input.read t.input.start with
    | none => none
    | some c =>
      if t.input.start + 1 = t.input.stop then
        some ((2, some c), { t with input.start := 0, input.stop := 0, flush := false })
      else some ((1, some c), { t with input.start := t.input.start + 1 })

/-- `tty_device_read`; the first value is nothing while the process waits.  The loops that wait for a time end at
once. -/
def deviceRead (t : Tty) : Option (Option (Int × Option UInt8) × Tty) :=
  let finish := t.ready.map fun r => (some r.1, r.2)
  if t.termios.icanon then if t.flush then finish else some (none, t)
  else
    let min := t.termios.cc vMin
    let time := t.termios.cc vTime
    if min = 0 ∧ time = 0 then
      if t.input.start < t.input.stop then finish else some (some (0, none), t)
    else if min ≠ 0 ∧ time = 0 then
      if sub64 t.input.stop t.input.start < min.toNat then some (none, t) else finish
    else if min = 0 ∧ time ≠ 0 then
      if t.input.start = t.input.stop then some (some (0, none), t) else finish
    else finish

end Tty

/-- What happens to a terminal: a byte is received or read, or `sys_ioctl` sets the attributes (`TCSETS` or
`TCSETSF`), flushes the input (`TCFLSH`) or inserts a byte (`TIOCSTI`). -/
inductive TtyCall
  | byte (c : UInt8)
  | read
  | setAttributes (flush : Bool) (tp : Termios)
  | flushInput
  | insert (c : UInt8)

/-- The terminal after a call; nothing if the buffer is accessed outside its bounds. -/
def ttyStep (t : Tty) : TtyCall → Option Tty
  | .byte c => t.inputByte c
  | .read => t.deviceRead.map Prod.snd
  | .setAttributes flush tp =>
    some (if flush then { t with input.start := 0, input.stop := 0, termios := tp } else { t with termios := tp })
  | .flushInput => some { t with input.start := 0, input.stop := 0 }
  | .insert c => t.recv c

/-! ### Bounds -/

def TtyInput.Bounded (t : TtyInput) : Prop := t.start ≤ t.stop ∧ t.stop ≤ ttyInputBufferSize

def Tty.HasRoom (t : Tty) (c : UInt8) : Prop :=
  t.termios.icanon = false ∨ c ≠ 10 ∨ t.input.start ≠ 0 ∨ t.input.stop ≠ ttyInputBufferSize

/-- The last word does not start at the start of the buffer: something has been read, or there is an end of file in
the buffer, or a space before another character. -/
def Tty.WordEnds (t : Tty) : Prop :=
  t.input.start ≠ 0 ∨ (∃ i < t.input.stop, charMatch (t.input.buffer i) t.termios vEof = true) ∨
    ∃ i j, i < j ∧ j < t.input.stop ∧ isSpace (t.input.buffer i) = true ∧ isSpace (t.input.buffer j) = false

def Tty.Sound (t : Tty) : TtyCall → Prop
  | .byte c =>
    match t.inputAction c with
    | .raw => t.HasRoom c
    | .flushLine delim => delim ≠ 0 → t.HasRoom delim
    | .erase => t.input.start < t.input.stop ∨ t.input.stop = 0 ∨
        charMatch (t.input.buffer (t.input.stop - 1)) t.termios vEof = true
    | .eraseWord => t.WordEnds
    | .reprint => t.input.stop = 0
    | _ => True
  | .insert c => t.HasRoom c
  | _ => True

namespace TtyInput

variable {t : TtyInput} {p : UInt8 → Bool} {k k' : Nat}

theorem read_of_lt {i : Nat} (h : i < ttyInputBufferSize) : t.read i = some (t.buffer i) := if_pos h

/-- A scan leaves the buffer exactly when nothing has been read from it and every byte passes the test. -/
theorem eraseScan_eq_none (hs : t.start ≤ k) (hk : k ≤ ttyInputBufferSize) :
    t.eraseScan p k = none ↔ t.start = 0 ∧ ∀ j < k, p (t.buffer j) = true := by
  induction k with
  | zero => exact iff_of_true rfl ⟨by omega, fun j hj => by omega⟩
  | succ k ih =>
    unfold eraseScan
    by_cases hsk : t.start ≤ k
    · rw [if_pos hsk, read_of_lt (by omega)]
      dsimp only
      cases hp : p (t.buffer k) with
      | true =>
        rw [if_pos rfl, ih hsk (by omega)]
        refine and_congr_right fun _ => ⟨fun h j hj => ?_, fun h j hj => h j (by omega)⟩
        rcases Nat.lt_succ_iff_lt_or_eq.1 hj with hj | rfl
        · exact h j hj
        · exact hp
      | false =>
        rw [if_neg (by simp)]
        refine iff_of_false (by simp) fun h => ?_
        rw [h.2 k (by omega)] at hp
        cases hp
    · rw [if_neg hsk]
      exact iff_of_false (by simp) fun h => hsk (by omega)

/-- Otherwise it stops before the start, or behind a byte that does not pass. -/
theorem eraseScan_some (hs : t.start ≤ k) (hk : k ≤ ttyInputBufferSize) (h : t.eraseScan p k = some k') :
    0 < k' ∧ t.start ≤ k' ∧ k' ≤ k ∧ (∀ j, k' ≤ j → j < k → p (t.buffer j) = true) ∧
    (t.start < k' → p (t.buffer (k' - 1)) = false) := by
  induction k with
  | zero => cases h
  | succ k ih =>
    unfold eraseScan at h
    by_cases hsk : t.start ≤ k
    · rw [if_pos hsk, read_of_lt (by omega)] at h
      dsimp only at h
      cases hp : p (t.buffer k) with
      | true =>
        rw [hp, if_pos rfl] at h
        obtain ⟨h1, h2, h3, h4, h5⟩ := ih hsk (by omega) h
        refine ⟨h1, h2, by omega, fun j hj hjk => ?_, h5⟩
        rcases Nat.lt_succ_iff_lt_or_eq.1 hjk with hjk | rfl
        · exact h4 j hj hjk
        · exact hp
      | false =>
        rw [hp, if_neg (by simp)] at h
        cases h
        exact ⟨by omega, hs, le_refl _, fun j hj hjk => by omega, fun _ => hp⟩
    · rw [if_neg hsk] at h
      cases h
      exact ⟨by omega, hs, le_refl _, fun j hj hjk => by omega, fun hlt => by omega⟩

theorem reprintLoop_eq (fuel i : Nat) :
    t.reprintLoop (fuel + 1) i = if t.stop = 0 then some t else none := by
  induction fuel generalizing i with
  | zero =>
    unfold reprintLoop reprintLoop
    split
    · rfl
    · split <;> rfl
  | succ fuel ih =>
    unfold reprintLoop
    split
    · rfl
    · rename_i hstop
      cases t.read i with
      | none => rfl
      | some c =>
        rw [ih (i + 1), if_neg hstop]

end TtyInput

/-! ### One call -/

section

variable {t : Tty}

def Fine (t' : Option Tty) : Prop := ∃ t'', t' = some t'' ∧ t''.input.Bounded

private theorem recv_fine_iff (h : t.input.Bounded) (c : UInt8) : Fine (t.recv c) ↔ t.HasRoom c := by
  obtain ⟨hstart, hstop⟩ := h
  have hsize : ttyInputBufferSize = 1024 := rfl
  unfold Tty.recv Tty.HasRoom
  by_cases hfull : t.input.stop ≥ ttyInputBufferSize - 1
  · by_cases hzero : t.input.start = 0
    · rw [if_neg (fun hc => hc.2 hzero)]
      dsimp only
      by_cases hdiscard : t.termios.icanon = false ∨ c ≠ 10
      · rw [if_pos ⟨hfull, hdiscard⟩]
        refine iff_of_true ⟨_, rfl, hstart, hstop⟩ ?_
        rcases hdiscard with hd | hd
        · exact Or.inl hd
        · exact Or.inr (Or.inl hd)
      · rw [if_neg fun hc => hdiscard hc.2]
        rw [not_or] at hdiscard
        unfold TtyInput.write
        by_cases hlt : t.input.stop < ttyInputBufferSize
        · rw [if_pos hlt]
          refine iff_of_true ⟨_, rfl, ?_, ?_⟩ (Or.inr (Or.inr (Or.inr (by omega))))
          · change t.input.start ≤ t.input.stop + 1
            omega
          · change t.input.stop + 1 ≤ ttyInputBufferSize
            omega
        · rw [if_neg hlt]
          refine iff_of_false ?_ ?_
          · rintro ⟨t', ht', -⟩
            cases ht'
          · rintro (hc | hc | hc | hc)
            · exact hdiscard.1 hc
            · exact hdiscard.2 hc
            · exact hc hzero
            · omega
    · rw [if_pos ⟨hfull, hzero⟩]
      refine iff_of_true ?_ (Or.inr (Or.inr (Or.inl hzero)))
      unfold TtyInput.compact
      rw [if_pos ⟨hstart, hstop⟩]
      dsimp only
      split
      · exact ⟨_, rfl, Nat.zero_le _, by change t.input.stop - t.input.start ≤ _; omega⟩
      · unfold TtyInput.write
        rw [if_pos (show t.input.stop - t.input.start < ttyInputBufferSize by omega)]
        exact ⟨_, rfl, Nat.zero_le _, by change t.input.stop - t.input.start + 1 ≤ _; omega⟩
  · rw [if_neg (fun hc => hfull hc.1)]
    dsimp only
    rw [if_neg (fun hc => hfull hc.1)]
    unfold TtyInput.write
    rw [if_pos (by omega)]
    refine iff_of_true ⟨_, rfl, ?_, ?_⟩ (Or.inr (Or.inr (Or.inr (by omega))))
    · change t.input.start ≤ t.input.stop + 1
      omega
    · change t.input.stop + 1 ≤ ttyInputBufferSize
      omega

private theorem eraseInput_fine_iff (h : t.input.Bounded) : Fine t.eraseInput ↔
    t.input.start < t.input.stop ∨ t.input.stop = 0 ∨
      charMatch (t.input.buffer (t.input.stop - 1)) t.termios vEof = true := by
  obtain ⟨hstart, hstop⟩ := h
  unfold Tty.eraseInput
  by_cases hz : t.input.stop = 0
  · rw [if_neg (not_not.2 hz)]
    exact iff_of_true ⟨_, rfl, hstart, hstop⟩ (Or.inr (Or.inl hz))
  · rw [if_pos hz, TtyInput.read_of_lt (by omega)]
    dsimp only
    by_cases he : charMatch (t.input.buffer (t.input.stop - 1)) t.termios vEof = true
    · rw [if_pos he]
      exact iff_of_true ⟨_, rfl, hstart, hstop⟩ (Or.inr (Or.inr he))
    · rw [if_neg he]
      constructor
      · rintro ⟨t', ht', hb, -⟩
        cases ht'
        left
        change t.input.start ≤ t.input.stop - 1 at hb
        omega
      · rintro (hlt | hc | hc)
        · refine ⟨_, rfl, ?_, ?_⟩
          · change t.input.start ≤ t.input.stop - 1
            omega
          · change t.input.stop - 1 ≤ ttyInputBufferSize
            omega
        · exact absurd hc hz
        · exact absurd hc he

private theorem eraseInputWord_fine_iff (h : t.input.Bounded) : Fine t.eraseInputWord ↔ t.WordEnds := by
  obtain ⟨hstart, hstop⟩ := h
  unfold Tty.eraseInputWord Tty.WordEnds
  cases h1 : t.input.eraseScan (fun c => isSpace c && !charMatch c t.termios vEof) t.input.stop with
  | none =>
    obtain ⟨hz, hall⟩ := (TtyInput.eraseScan_eq_none hstart hstop).1 h1
    have hbyte : ∀ j < t.input.stop, isSpace (t.input.buffer j) = true ∧
        charMatch (t.input.buffer j) t.termios vEof = false := fun j hj => by simpa using hall j hj
    refine iff_of_false ?_ ?_
    · rintro ⟨t', ht', -⟩
      cases ht'
    · rintro (hc | ⟨i, hi, he⟩ | ⟨i, j, hij, hj, -, hns⟩)
      · exact hc hz
      · rw [(hbyte i hi).2] at he
        cases he
      · rw [(hbyte j hj).1] at hns
        cases hns
  | some k =>
    obtain ⟨hk0, hks, hke, hspace, hk⟩ := TtyInput.eraseScan_some hstart hstop h1
    have hafter : ∀ j, k ≤ j → j < t.input.stop → isSpace (t.input.buffer j) = true ∧
        charMatch (t.input.buffer j) t.termios vEof = false := fun j hj hj' => by simpa using hspace j hj hj'
    dsimp only
    cases h2 : t.input.eraseScan (fun c => !isSpace c && !charMatch c t.termios vEof) k with
    | none =>
      obtain ⟨hz, hall⟩ := (TtyInput.eraseScan_eq_none hks (Nat.le_trans hke hstop)).1 h2
      have hbyte : ∀ j < k, isSpace (t.input.buffer j) = false ∧
          charMatch (t.input.buffer j) t.termios vEof = false := fun j hj => by simpa using hall j hj
      refine iff_of_false ?_ ?_
      · rintro ⟨t', ht', -⟩
        cases ht'
      · rintro (hc | ⟨i, hi, he⟩ | ⟨i, j, hij, hj, hsp, hns⟩)
        · exact hc hz
        · rcases Nat.lt_or_ge i k with hik | hik
          · rw [(hbyte i hik).2] at he
            cases he
          · rw [(hafter i hik hi).2] at he
            cases he
        · rcases Nat.lt_or_ge i k with hik | hik
          · rw [(hbyte i hik).1] at hsp
            cases hsp
          · rw [(hafter j (by omega) hj).1] at hns
            cases hns
    | some k' =>
      obtain ⟨hk0', hks', hke', -, hstopped⟩ := TtyInput.eraseScan_some hks (Nat.le_trans hke hstop) h2
      refine iff_of_true ⟨_, rfl, hks', Nat.le_trans (Nat.le_trans hke' hke) hstop⟩ ?_
      by_cases hz : t.input.start = 0
      · right
        -- the first scan stopped behind `k - 1`, the second one behind `k' - 1`
        have ha : isSpace (t.input.buffer (k - 1)) = false ∨
            charMatch (t.input.buffer (k - 1)) t.termios vEof = true := by
          have hp := hk (by omega)
          simp only [Bool.and_eq_false_iff, Bool.not_eq_false'] at hp
          exact hp
        have hb : isSpace (t.input.buffer (k' - 1)) = true ∨
            charMatch (t.input.buffer (k' - 1)) t.termios vEof = true := by
          have hp := hstopped (by omega)
          simp only [Bool.and_eq_false_iff, Bool.not_eq_false'] at hp
          exact hp
        rcases hb with hsp | he
        · rcases ha with hns | he
          · refine Or.inr ⟨k' - 1, k - 1, ?_, by omega, hsp, hns⟩
            have hne : k' - 1 ≠ k - 1 := fun heq => by
              rw [heq, hns] at hsp
              cases hsp
            omega
          · exact Or.inl ⟨k - 1, by omega, he⟩
        · exact Or.inl ⟨k' - 1, by omega, he⟩
      · exact Or.inl hz

private theorem killInput_fine (h : t.input.Bounded) : Fine t.killInput := by
  obtain ⟨hstart, hstop⟩ := h
  have hreset : ({ t with input.start := 0, input.stop := 0 } : Tty).input.Bounded := ⟨le_refl 0, Nat.zero_le _⟩
  unfold Tty.killInput
  by_cases hoff : t.termios.cc vEof = 0xff
  · rw [if_pos hoff]
    exact ⟨_, rfl, hreset⟩
  · unfold TtyInput.memrchr
    rw [if_neg hoff, if_pos hstop]
    cases hfind : (List.range t.input.stop).reverse.find? fun i => t.input.buffer i == t.termios.cc vEof with
    | none => exact ⟨_, rfl, hreset⟩
    | some ptr =>
      have hptr : ptr < t.input.stop := by simpa using List.mem_of_find?_eq_some hfind
      dsimp only
      split
      · exact ⟨_, rfl, hreset⟩
      · refine ⟨_, rfl, ?_, ?_⟩
        · change t.input.start ≤ ptr
          omega
        · change ptr ≤ ttyInputBufferSize
          omega

private theorem reprintInput_fine_iff (h : t.input.Bounded) : Fine t.reprintInput ↔ t.input.stop = 0 := by
  unfold Tty.reprintInput
  rw [TtyInput.reprintLoop_eq]
  by_cases hz : t.input.stop = 0
  · rw [if_pos hz]
    exact iff_of_true ⟨_, rfl, h⟩ hz
  · rw [if_neg hz]
    refine iff_of_false ?_ hz
    rintro ⟨t', ht', -⟩
    cases ht'

private theorem ready_fine (h : t.input.Bounded) : Fine (t.ready.map Prod.snd) := by
  obtain ⟨hstart, hstop⟩ := h
  unfold Tty.ready
  split
  · exact ⟨_, rfl, hstart, hstop⟩
  · rw [TtyInput.read_of_lt (by omega)]
    dsimp only
    split
    · exact ⟨_, rfl, le_refl 0, Nat.zero_le _⟩
    · refine ⟨_, rfl, ?_, hstop⟩
      change t.input.start + 1 ≤ t.input.stop
      omega

private theorem deviceRead_fine (h : t.input.Bounded) : Fine (t.deviceRead.map Prod.snd) := by
  have hready := ready_fine h
  have hfinish : Fine ((t.ready.map fun r => (some r.1, r.2)).map Prod.snd) := by
    rw [Option.map_map]
    exact hready
  have hsame : ∀ r : Option (Int × Option UInt8), Fine ((some (r, t)).map Prod.snd) := fun r => ⟨t, rfl, h⟩
  unfold Tty.deviceRead
  dsimp only
  repeat' split
  all_goals first | exact hfinish | exact hsame _

/-- A call leaves the buffer in its bounds exactly when it is sound. -/
private theorem ttyStep_fine_iff (h : t.input.Bounded) (call : TtyCall) : t.Sound call ↔ Fine (ttyStep t call) := by
  cases call with
  | byte c =>
    change t.Sound (.byte c) ↔ Fine (t.inputByte c)
    unfold Tty.Sound Tty.inputByte
    dsimp only
    cases t.inputAction c with
    | raw => exact (recv_fine_iff (t := { t with literal := false }) h c).symm
    | flushLine delim =>
      dsimp only
      unfold Tty.flushInputLine
      by_cases hd : delim = 0
      · rw [if_neg (not_not.2 hd)]
        exact iff_of_true (fun hne => absurd hd hne) ⟨_, rfl, h⟩
      · rw [if_pos hd, forall_prop_of_true hd, ← recv_fine_iff h delim]
        constructor
        · rintro ⟨t', ht', hb⟩
          exact ⟨{ t' with flush := true }, by rw [ht']; rfl, hb⟩
        · rintro ⟨t', ht', hb⟩
          obtain ⟨t1, ht1, rfl⟩ := Option.map_eq_some_iff.1 ht'
          exact ⟨t1, ht1, hb⟩
    | erase => exact (eraseInput_fine_iff h).symm
    | kill => exact iff_of_true trivial (killInput_fine h)
    | eraseWord => exact (eraseInputWord_fine_iff h).symm
    | reprint => exact (reprintInput_fine_iff h).symm
    | literalNext => exact iff_of_true trivial ⟨_, rfl, h⟩
    | signal => exact iff_of_true trivial ⟨_, rfl, h⟩
  | read => exact iff_of_true trivial (deviceRead_fine h)
  | setAttributes flush tp =>
    refine iff_of_true trivial ?_
    cases flush with
    | true => exact ⟨_, rfl, le_refl 0, Nat.zero_le _⟩
    | false => exact ⟨_, rfl, h⟩
  | flushInput => exact iff_of_true trivial ⟨_, rfl, le_refl 0, Nat.zero_le _⟩
  | insert c => exact (recv_fine_iff h c).symm

end

/-- From an empty buffer, every step of a run is defined and leaves the positions in order and inside the buffer
exactly when every call is sound in the state in which it is made. -/
theorem tty_bounded_iff {t : Tty} (hstart : t.input.start = 0) (hstop : t.input.stop = 0) (calls : List TtyCall) :
    Machine.Meets ttyStep Tty.Sound calls t ↔
      ∀ p, p <+: calls → ∃ t', Machine.run ttyStep p t = some t' ∧ t'.input.Bounded :=
  Machine.meets_iff (P := fun t : Tty => t.input.Bounded) (fun _ call h => ttyStep_fine_iff h call)
    ⟨by rw [hstart]; exact Nat.zero_le _, by rw [hstop]; exact Nat.zero_le _⟩

def cookedTty : Tty :=
  ⟨⟨fun _ => 0, 0, 0⟩, ⟨true, true, true, Function.update (fun _ => 0xff) vWerase 23⟩, false, false⟩

/-- A line is typed and read. -/
theorem tty_bounded_small :
    ∃ t', Machine.run ttyStep [.byte 97, .byte 10, .read] cookedTty = some t' ∧ t'.input.Bounded := by
  refine (tty_bounded_iff (t := cookedTty) rfl rfl [.byte 97, .byte 10, .read]).1
    ⟨Or.inr (Or.inl (by decide)), fun t ht => ⟨?_, fun _ _ => ⟨trivial, ?_⟩⟩⟩ _ (List.prefix_refl _)
  · have hroom : (ttyStep cookedTty (.byte 97)).all
        (fun t => t.inputAction 10 = .flushLine 10 ∧ t.input.stop ≠ ttyInputBufferSize) = true := by decide
    rw [ht] at hroom
    obtain ⟨haction, hstop⟩ := of_decide_eq_true hroom
    unfold Tty.Sound
    dsimp only
    rw [haction]
    exact fun _ => Or.inr (Or.inr (Or.inr hstop))
  · exact fun _ _ => trivial

/-- ^W on an empty line reads the byte before the buffer. -/
theorem tty_not_bounded : ¬ ∀ p, p <+: [TtyCall.byte 23] →
    ∃ t', Machine.run ttyStep p cookedTty = some t' ∧ t'.input.Bounded := by
  intro h
  obtain ⟨t', ht', -⟩ := h _ (List.prefix_refl _)
  have hrun : (Machine.run ttyStep [TtyCall.byte 23] cookedTty).isNone = true := by decide
  rw [ht'] at hrun
  cases hrun

end Pml.Drivers
