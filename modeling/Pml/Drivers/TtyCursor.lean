import Mathlib.Data.UInt
import Mathlib.Tactic.SplitIfs
import Pml.Lib.Machine

/-!
# The cursor of a terminal (`drivers/tty.c`, `drivers/ioctl.c`)

`tty_putchar` moves the cursor by a column, to a tab stop or to another line.  The line and the screen end where the
cursor is equal to the width or the height.  `TIOCSWINSZ` changes the size and leaves the cursor where it is.

The output functions of the terminal succeed or fail; the calls of `write_char` are recorded with their position.
-/

namespace Pml.Drivers

/-- The size of the screen and the position of the cursor. -/
structure TtyCursor where
  width : UInt64
  height : UInt64
  x : UInt64
  y : UInt64
  deriving DecidableEq

/-- Whether `write_char` and `scroll_down` succeed. -/
structure TtyOutcome where
  writeChar : Bool
  scrollDown : Bool

/-- A call of `write_char`. -/
structure TtyWrite where
  x : UInt64
  y : UInt64
  c : UInt8
  deriving DecidableEq

def eof : Int := -1

/-- The end of `tty_putchar` after `wrap` has been set. -/
def wrapLine (ok : TtyOutcome) (s : TtyCursor) (c : Int) : TtyCursor × Int :=
  if s.y + 1 = s.height then
    if ok.scrollDown = false then ({ s with y := s.y + 1 }, eof) else ({ s with y := s.y + 1 - 1 }, c)
  else ({ s with y := s.y + 1 }, c)

/-- The end of `tty_putchar` when `wrap` has not been set. -/
def nextColumn (ok : TtyOutcome) (s : TtyCursor) (c : Int) : TtyCursor × Int :=
  if s.x + 1 = s.width then wrapLine ok { s with x := 0 } c else ({ s with x := s.x + 1 }, c)

def ttyPutchar (ok : TtyOutcome) (s : TtyCursor) (c : Int) : (TtyCursor × Int) × List TtyWrite :=
  if c = 0 then ((s, c), [])
  else if c = 0x0a then (wrapLine ok { s with x := 0 } c, [])
  else if c = 0x0b ∨ c = 0x0c then (wrapLine ok s c, [])
  else if c = 0x0d then (({ s with x := 0 }, c), [])
  else if c = 0x09 then (nextColumn ok { s with x := s.x ||| 7 } c, [])
  else if ok.writeChar = false then ((s, eof), [⟨s.x, s.y, UInt8.ofInt c⟩])
  else (nextColumn ok s c, [⟨s.x, s.y, UInt8.ofInt c⟩])

/-- `sys_ioctl` with `TIOCSWINSZ`: the new size, and whether `SIGWINCH` is sent. -/
def setWinsize (s : TtyCursor) (col row : UInt16) : TtyCursor × Bool :=
  ({ s with width := col.toUInt64, height := row.toUInt64 }, s.width != col.toUInt64 || s.height != row.toUInt64)

/-! ### Runs -/

/-- What happens to a terminal. -/
inductive TtyEvent
  | putchar (c : Int)
  | winsize (col row : UInt16)

def TtyCursor.next (s : TtyCursor) : TtyEvent → TtyCursor × List TtyWrite
  | .putchar c => ((ttyPutchar ⟨true, true⟩ s c).1.1, (ttyPutchar ⟨true, true⟩ s c).2)
  | .winsize col row => ((setWinsize s col row).1, [])

def ttyCursorStep (s : TtyCursor) (e : TtyEvent) : Option TtyCursor := some (s.next e).1

def TtyCursor.OnScreen (s : TtyCursor) : Prop := s.x < s.width ∧ s.y < s.height

def StaysOnScreen (s : TtyCursor) (e : TtyEvent) (s' : TtyCursor) : Prop :=
  (∀ w ∈ (s.next e).2, w.x < s.width ∧ w.y < s.height) ∧ s'.OnScreen

/-- The tab stop is on the line or at its end, and the new size has the cursor in it. -/
def TtyCursor.Fits (s : TtyCursor) : TtyEvent → Prop
  | .putchar c => c = 0x09 → (s.x ||| 7) + 1 ≤ s.width
  | .winsize col row => s.x < col.toUInt64 ∧ s.y < row.toUInt64

instance (s : TtyCursor) : Decidable s.OnScreen := inferInstanceAs (Decidable (_ ∧ _))

instance (s : TtyCursor) : ∀ e, Decidable (s.Fits e)
  | .putchar c => inferInstanceAs (Decidable (c = 0x09 → (s.x ||| 7) + 1 ≤ s.width))
  | .winsize _ _ => inferInstanceAs (Decidable (_ ∧ _))

private theorem next_le {a b : UInt64} (h : a < b) : a + 1 ≤ b := by
  rw [UInt64.lt_iff_toNat_lt] at h
  rw [UInt64.le_iff_toNat_le, UInt64.toNat_add, UInt64.toNat_one]
  have hb := b.toNat_lt
  omega

section

variable {s : TtyCursor}

private theorem wrapLine_onScreen (hx : s.x < s.width) (hy : s.y < s.height) (c : Int) :
    (wrapLine ⟨true, true⟩ s c).1.OnScreen := by
  unfold wrapLine
  by_cases h : s.y + 1 = s.height
  · rw [if_pos h, if_neg (by decide)]
    exact ⟨hx, by simpa using hy⟩
  · rw [if_neg h]
    exact ⟨hx, UInt64.lt_of_le_of_ne (next_le hy) h⟩

private theorem nextColumn_onScreen (hw : 0 < s.width) (hy : s.y < s.height) (c : Int) :
    (nextColumn ⟨true, true⟩ s c).1.OnScreen ↔ s.x + 1 ≤ s.width := by
  unfold nextColumn
  by_cases h : s.x + 1 = s.width
  · rw [if_pos h]
    exact ⟨fun _ => UInt64.le_of_eq h, fun _ => @wrapLine_onScreen { s with x := 0 } hw hy c⟩
  · rw [if_neg h]
    exact ⟨fun hs => UInt64.le_of_lt hs.1, fun hle => ⟨UInt64.lt_of_le_of_ne hle h, hy⟩⟩

private theorem next_onScreen (h : s.OnScreen) (e : TtyEvent) : (s.next e).1.OnScreen ↔ s.Fits e := by
  obtain ⟨hx, hy⟩ := h
  have hw : 0 < s.width := UInt64.lt_of_le_of_lt UInt64.zero_le hx
  cases e with
  | winsize col row => exact Iff.rfl
  | putchar c =>
    unfold TtyCursor.next TtyCursor.Fits ttyPutchar
    by_cases htab : c = 0x09
    · subst htab
      simp only [Int.reduceEq, ↓reduceIte, or_self, forall_const]
      exact @nextColumn_onScreen { s with x := s.x ||| 7 } hw hy 0x09
    · refine iff_of_true ?_ fun hc => absurd hc htab
      dsimp only
      split
      · exact ⟨hx, hy⟩
      split
      · exact @wrapLine_onScreen { s with x := 0 } hw hy c
      split
      · exact wrapLine_onScreen hx hy c
      split
      · exact ⟨hw, hy⟩
      rw [if_neg (by decide)]
      exact (nextColumn_onScreen hw hy c).2 (next_le hx)

private theorem ttyPutchar_writes (ok : TtyOutcome) (c : Int) :
    (ttyPutchar ok s c).2 = [] ∨ (ttyPutchar ok s c).2 = [⟨s.x, s.y, UInt8.ofInt c⟩] := by
  unfold ttyPutchar
  split_ifs
  all_goals first
    | exact .inl rfl
    | exact .inr rfl

private theorem next_writes {e : TtyEvent} {w : TtyWrite} (hw : w ∈ (s.next e).2) : w.x = s.x ∧ w.y = s.y := by
  cases e with
  | winsize col row => cases hw
  | putchar c =>
    rcases @ttyPutchar_writes s ⟨true, true⟩ c with h | h
    · rw [TtyCursor.next, h] at hw
      cases hw
    · rw [TtyCursor.next, h] at hw
      obtain rfl := List.mem_singleton.1 hw
      exact ⟨rfl, rfl⟩

/-- From a cursor on the screen, a run stays on the screen exactly when each of its events fits. -/
theorem cursor_on_screen_iff (h : s.OnScreen) (es : List TtyEvent) :
    Machine.Always ttyCursorStep StaysOnScreen es s ↔ Machine.Meets ttyCursorStep TtyCursor.Fits es s := by
  refine (Machine.meets_iff_always (P := TtyCursor.OnScreen) (fun s e hs hfits => ?_)
    (fun s e s' hs hstep hstays => ?_) h).symm
  · have hon := (next_onScreen hs e).2 hfits
    refine ⟨_, rfl, ⟨fun w hw => ?_, hon⟩, hon⟩
    obtain ⟨h1, h2⟩ := next_writes hw
    rw [h1, h2]
    exact hs
  · obtain rfl := Option.some.inj hstep
    exact (next_onScreen hs e).1 hstays.2

end

/-- A tab, a character, a newline and a smaller window. -/
theorem cursor_on_screen_vga : Machine.Always ttyCursorStep StaysOnScreen
    [.putchar 0x09, .putchar 0x61, .putchar 0x0a, .winsize 40 12] ⟨80, 25, 0, 0⟩ :=
  (cursor_on_screen_iff (by decide) _).2 (by decide)

/-- On a line of 5 columns, a tab puts the cursor in column 8. -/
theorem not_cursor_on_screen : ¬ ∀ (s : TtyCursor) (es : List TtyEvent), 0 < s.width → 0 < s.height → s.OnScreen →
    (∀ col row, TtyEvent.winsize col row ∈ es → 0 < col ∧ 0 < row) →
    Machine.Always ttyCursorStep StaysOnScreen es s := by
  intro hall
  have hrun := hall ⟨5, 2, 0, 0⟩ [.putchar 0x09] (by decide) (by decide) (by decide) fun col row h => by
    cases List.mem_singleton.1 h
  obtain ⟨s', hstep, ⟨-, hon⟩, -⟩ := hrun
  obtain rfl := Option.some.inj hstep
  exact absurd hon (by decide)

end Pml.Drivers
