import Pml.Drivers.Tty

/-!
# Completed lines (`drivers/tty.c`, `drivers/ttydev.c`)

A terminal in canonical mode against what its reader expects of it: the bytes of the lines that have been completed,
in their order, and nothing else.  The buffer holds the completed bytes that have not been read and behind them the
bytes of the line that is being typed.  It does not say where the completed lines end, so whether the editing
characters and the reads find that place depends on what has been typed and read before.
-/

namespace Pml.Drivers

def TtyInput.pending (t : TtyInput) : List UInt8 :=
  (List.range (t.stop - t.start)).map fun i => t.buffer (t.start + i)

/-- The byte completes a line: it is a newline, `VEOL` or `VEOL2`. -/
def Tty.completes (t : Tty) (c : UInt8) : Bool :=
  !t.literal && (c == 10 || charMatch c t.termios vEol || charMatch c t.termios vEol2)

/-- A byte is typed, or `tty_device_read` is called. -/
inductive LineCall
  | byte (c : UInt8)
  | read

/-- A terminal, the bytes of all completed lines, the bytes of the line that is being typed, and all bytes that have
been returned. -/
structure TtyLines where
  tty : Tty
  lines : List UInt8
  typing : List UInt8
  returned : List UInt8

namespace TtyLines

def unread (s : TtyLines) : Nat := s.lines.length - s.returned.length

/-- The lines after a byte that leaves the terminal `t`.  What an editing character leaves of the line that is being
typed is read off the buffer: everything that follows the bytes of completed lines. -/
def typed (s : TtyLines) (c : UInt8) (t : Tty) : TtyLines :=
  if s.tty.completes c then { s with tty := t, lines := s.lines ++ s.typing ++ [c], typing := [] }
  else
    match s.tty.inputAction c with
    | .raw => { s with tty := t, typing := s.typing ++ [c] }
    | .erase | .kill | .eraseWord => { s with tty := t, typing := t.input.pending.drop s.unread }
    | _ => { s with tty := t }

/-- The state after a call; nothing if the buffer is accessed outside its bounds or the call does not end. -/
def step (s : TtyLines) : LineCall → Option TtyLines
  | .byte c => (s.tty.inputByte c).map (s.typed c)
  | .read => s.tty.deviceRead.map fun r =>
      { s with tty := r.2, returned := s.returned ++ (r.1.bind Prod.snd).toList }

def NonFull (s : TtyLines) : LineCall → Prop
  | .byte c => s.tty.completes c = true ∨ s.tty.inputAction c = .raw →
      s.tty.input.stop - s.tty.input.start < ttyInputBufferSize - 1 ∨
        c = 10 ∧ s.tty.input.stop - s.tty.input.start < ttyInputBufferSize
  | .read => True

/-- What has been returned is the beginning of the completed lines, and the buffer holds the rest of them and the line
that is being typed. -/
def Holds (s : TtyLines) : Prop :=
  s.tty.input.Bounded ∧ ∃ rest, s.lines = s.returned ++ rest ∧ s.tty.input.pending = rest ++ s.typing

/-- What a call should do: the buffer still holds the lines, an editing character has only removed bytes of the line
that is being typed, and a read returns a byte unless all completed lines have been returned. -/
def Keeps (s : TtyLines) (call : LineCall) (s' : TtyLines) : Prop :=
  s'.Holds ∧
    match call with
    | .byte c =>
      s.tty.inputAction c = .erase ∨ s.tty.inputAction c = .kill ∨ s.tty.inputAction c = .eraseWord →
        s'.lines = s.lines ∧ s'.typing <+: s.typing
    | .read => s'.returned = s.returned → s.returned = s.lines

/-- From position `i` on there is an end of file in the buffer, or a space before another character. -/
def WordEndsFrom (t : Tty) (i : Nat) : Prop :=
  (∃ j, i ≤ j ∧ j < t.input.stop ∧ charMatch (t.input.buffer j) t.termios vEof = true) ∨
    ∃ j k, i ≤ j ∧ j < k ∧ k < t.input.stop ∧ isSpace (t.input.buffer j) = true ∧ isSpace (t.input.buffer k) = false

/-- The actions that keep to the line that is being typed: `VERASE` finds a byte of it, or nothing before it, or an
end of file; `VKILL` finds an end of file in it, or no completed bytes; `VWERASE` finds the start of a word in it,
where the last completed byte counts too; and nothing is printed again. -/
def ActsOnTyping (s : TtyLines) : InputAction → Prop
  | .erase => s.typing ≠ [] ∨ s.tty.input.stop = 0 ∨
      charMatch (s.tty.input.buffer (s.tty.input.stop - 1)) s.tty.termios vEof = true
  | .kill => s.unread = 0 ∨ s.tty.termios.cc vEof ≠ 0xff ∧ s.tty.termios.cc vEof ∈ s.typing
  | .eraseWord => s.unread = 0 ∧ s.tty.input.start ≠ 0 ∨ WordEndsFrom s.tty (s.tty.input.start + (s.unread - 1))
  | .reprint => s.tty.input.stop = 0
  | _ => True

/-- The calls that keep to the line that is being typed: no `VEOL` is the null character, and a read after the last
completed byte finds nothing typed, or waits. -/
def KeepsToTyping (s : TtyLines) : LineCall → Prop
  | .byte c => if s.tty.completes c then c ≠ 0 else s.ActsOnTyping (s.tty.inputAction c)
  | .read => s.tty.flush = true → s.unread = 0 → s.typing = []

end TtyLines

/-! ### The bytes in the buffer -/

namespace TtyInput

variable {t : TtyInput}

private theorem length_pending : t.pending.length = t.stop - t.start := by
  unfold pending
  rw [List.length_map, List.length_range]

private theorem getElem?_pending {i : Nat} (h : t.start + i < t.stop) :
    t.pending[i]? = some (t.buffer (t.start + i)) := by
  unfold pending
  rw [List.getElem?_map, List.getElem?_range (by omega)]
  rfl

private theorem pending_stop (k : Nat) (h : k ≤ t.stop) :
    ({ t with stop := k } : TtyInput).pending = t.pending.take (k - t.start) := by
  unfold pending
  rw [← List.map_take, List.take_range, Nat.min_eq_left (by omega)]

private theorem pending_write (h : t.start ≤ t.stop) (c : UInt8) :
    ({ t with buffer := Function.update t.buffer t.stop c, stop := t.stop + 1 } : TtyInput).pending =
      t.pending ++ [c] := by
  unfold pending
  rw [show t.stop + 1 - t.start = t.stop - t.start + 1 by omega, List.range_succ, List.map_append]
  congr 1
  · refine List.map_congr_left fun i hi => ?_
    have hlt := List.mem_range.1 hi
    change Function.update t.buffer t.stop c (t.start + i) = t.buffer (t.start + i)
    exact Function.update_of_ne (by omega) _ _
  · rw [List.map_singleton]
    change [Function.update t.buffer t.stop c (t.start + (t.stop - t.start))] = [c]
    rw [show t.start + (t.stop - t.start) = t.stop by omega, Function.update_self]

private theorem pending_read (h : t.start < t.stop) :
    t.pending = t.buffer t.start :: ({ t with start := t.start + 1 } : TtyInput).pending := by
  unfold pending
  dsimp only
  rw [show t.stop - t.start = t.stop - (t.start + 1) +
    1 by omega, List.range_succ_eq_map, List.map_cons, List.map_map]
  congr 1
  refine List.map_congr_left fun i _ => ?_
  change t.buffer (t.start + (i + 1)) = t.buffer (t.start + 1 + i)
  rw [show t.start + (i + 1) = t.start + 1 + i by omega]

private theorem pending_compact {t' : TtyInput} (h : t.compact = some t') : t'.pending = t.pending := by
  unfold compact at h
  split at h
  · cases h
    unfold pending
    dsimp only
    refine List.map_congr_left fun i hi => ?_
    have hlt := List.mem_range.1 hi
    rw [Nat.zero_add, if_pos (by omega)]
  · cases h

end TtyInput

section

variable {t t' : Tty}

private theorem recv_pending (hb : t.input.Bounded) (hicanon : t.termios.icanon = true) {c : UInt8}
    (hroom : t.input.stop - t.input.start < ttyInputBufferSize - 1 ∨
      c = 10 ∧ t.input.stop - t.input.start < ttyInputBufferSize) :
    ∃ input, t.recv c = some { t with input := input } ∧ input.Bounded ∧ input.pending = t.input.pending ++ [c] := by
  have hsize : ttyInputBufferSize = 1024 := rfl
  have hput : ∀ input : TtyInput, input.Bounded → input.pending = t.input.pending →
      (input.stop < ttyInputBufferSize - 1 ∨ c = 10 ∧ input.stop < ttyInputBufferSize) →
      ∃ input', (if input.stop ≥ ttyInputBufferSize - 1 ∧ (t.termios.icanon = false ∨ c ≠ 10) then
          some ({ t with input := input } : Tty)
        else (input.write input.stop c).map fun input => { t with input := { input with stop := input.stop + 1 } }) =
          some { t with input := input' } ∧ input'.Bounded ∧ input'.pending = t.input.pending ++ [c] := by
    intro input hin hsame hplace
    have hstop : input.stop < ttyInputBufferSize := by omega
    have hstored : ¬ (input.stop ≥ ttyInputBufferSize - 1 ∧ (t.termios.icanon = false ∨ c ≠ 10)) := by
      rintro ⟨hge, hc | hc⟩
      · rw [hicanon] at hc
        cases hc
      · rcases hplace with hlt | ⟨rfl, -⟩
        · omega
        · exact hc rfl
    unfold TtyInput.write
    rw [if_neg hstored, if_pos hstop]
    refine ⟨_, rfl, ⟨?_, ?_⟩, ?_⟩
    · change input.start ≤ input.stop + 1
      exact Nat.le_succ_of_le hin.1
    · change input.stop + 1 ≤ ttyInputBufferSize
      omega
    · rw [← hsame]
      exact TtyInput.pending_write hin.1 c
  unfold Tty.recv
  by_cases hfull : t.input.stop ≥ ttyInputBufferSize - 1 ∧ t.input.start ≠ 0
  · rw [if_pos hfull]
    obtain ⟨input, hcompact, hin, hstop⟩ : ∃ input, t.input.compact = some input ∧ input.Bounded ∧
        input.stop = t.input.stop - t.input.start := by
      unfold TtyInput.compact
      rw [if_pos (show t.input.start ≤ t.input.stop ∧ t.input.stop ≤ ttyInputBufferSize from hb)]
      refine ⟨_, rfl, ⟨Nat.zero_le _, ?_⟩, rfl⟩
      change t.input.stop - t.input.start ≤ ttyInputBufferSize
      exact Nat.le_trans (Nat.sub_le _ _) hb.2
    rw [hcompact]
    refine hput input hin (TtyInput.pending_compact hcompact) ?_
    rw [hstop]
    exact hroom
  · rw [if_neg hfull]
    refine hput t.input hb rfl ?_
    rcases Nat.lt_or_ge t.input.stop (ttyInputBufferSize - 1) with hlt | hge
    · exact Or.inl hlt
    · have hzero : t.input.start = 0 := by
        by_contra hne
        exact hfull ⟨hge, hne⟩
      rw [hzero, Nat.sub_zero] at hroom
      exact hroom

end

/-! ### Editing -/

namespace TtyLines

variable {s : TtyLines} {t' : Tty}

private theorem unread_eq {rest : List UInt8} (h : s.lines = s.returned ++ rest) : s.unread = rest.length := by
  unfold unread
  rw [h, List.length_append]
  omega

def edited (s : TtyLines) (t' : Tty) : TtyLines := { s with tty := t', typing := t'.input.pending.drop s.unread }

/-- If the first `m` bytes of the buffer are left, then the completed lines are kept exactly when they are among
these. -/
private theorem Holds.cut_iff (h : s.Holds) (hb : t'.input.Bounded) {m : Nat}
    (hp : t'.input.pending = s.tty.input.pending.take m) : (s.edited t').Holds ↔ s.unread ≤ m := by
  obtain ⟨-, rest, hlines, hpending⟩ := h
  rw [unread_eq hlines]
  constructor
  · rintro ⟨-, rest', hlines', hpending'⟩
    have hrest : rest' = rest := List.append_cancel_left (hlines'.symm.trans hlines)
    have hlen := congrArg List.length (hp.symm.trans hpending')
    rw [hrest, List.length_take, List.length_append] at hlen
    omega
  · intro hm
    refine ⟨hb, rest, hlines, ?_⟩
    change t'.input.pending = rest ++ t'.input.pending.drop s.unread
    rw [hp, unread_eq hlines, hpending, List.take_append, List.take_of_length_le hm, List.drop_left]

private theorem Holds.cut_prefix (h : s.Holds) {m : Nat} (hp : t'.input.pending = s.tty.input.pending.take m) :
    (s.edited t').typing <+: s.typing := by
  obtain ⟨-, rest, hlines, hpending⟩ := h
  change t'.input.pending.drop s.unread <+: s.typing
  rw [hp, unread_eq hlines, hpending, List.drop_take, List.drop_left]
  exact List.take_prefix _ _

theorem Holds.length (h : s.Holds) : s.tty.input.stop - s.tty.input.start = s.unread + s.typing.length := by
  obtain ⟨-, rest, hlines, hpending⟩ := h
  rw [← TtyInput.length_pending, hpending, List.length_append, unread_eq hlines]

private theorem Holds.getElem?_typing (h : s.Holds) {i : Nat}
    (hi : s.tty.input.start + s.unread + i < s.tty.input.stop) :
    s.typing[i]? = some (s.tty.input.buffer (s.tty.input.start + s.unread + i)) := by
  obtain ⟨-, rest, hlines, hpending⟩ := h
  have hget := TtyInput.getElem?_pending (t := s.tty.input) (i := s.unread + i) (by omega)
  rw [hpending, List.getElem?_append_right (by rw [unread_eq hlines]; omega), unread_eq hlines,
    Nat.add_sub_cancel_left] at hget
  rw [hget, unread_eq hlines, Nat.add_assoc]

end TtyLines

/-- What an editing function leaves: the first `m` bytes of the buffer, and the flags and attributes. -/
structure Cuts (t t' : Tty) (m : Nat) : Prop where
  bounded : t'.input.Bounded
  pending : t'.input.pending = t.input.pending.take m
  termios : t'.termios = t.termios
  flush : t'.flush = t.flush

theorem Cuts.refl {t : Tty} (hb : t.input.Bounded) : Cuts t t (t.input.stop - t.input.start) :=
  ⟨hb, by rw [List.take_of_length_le (le_of_eq TtyInput.length_pending)], rfl, rfl⟩

theorem Cuts.stop {t : Tty} (hb : t.input.Bounded) {k : Nat} (hs : t.input.start ≤ k) (hk : k ≤ t.input.stop) :
    Cuts t { t with input.stop := k } (k - t.input.start) :=
  ⟨⟨hs, Nat.le_trans hk hb.2⟩, TtyInput.pending_stop k hk, rfl, rfl⟩

/-- `tty_kill_input` leaves the bytes before the last end of file in the buffer, or nothing. -/
private theorem killInput_cuts {t : Tty} (hb : t.input.Bounded) : ∃ t' m, t.killInput = some t' ∧ Cuts t t' m ∧
    ((m = 0 ∧ (t.termios.cc vEof ≠ 0xff → ∀ i, t.input.start ≤ i → i < t.input.stop →
        t.input.buffer i ≠ t.termios.cc vEof)) ∨
      t.termios.cc vEof ≠ 0xff ∧ t.input.start + m < t.input.stop ∧
        t.input.buffer (t.input.start + m) = t.termios.cc vEof ∧
        ∀ i, t.input.start + m < i → i < t.input.stop → t.input.buffer i ≠ t.termios.cc vEof) := by
  have hreset : Cuts t { t with input.start := 0, input.stop := 0 } 0 :=
    ⟨⟨le_refl 0, Nat.zero_le _⟩, rfl, rfl, rfl⟩
  unfold Tty.killInput
  by_cases hoff : t.termios.cc vEof = 0xff
  · rw [if_pos hoff]
    exact ⟨_, 0, rfl, hreset, Or.inl ⟨rfl, fun hne => absurd hoff hne⟩⟩
  · unfold TtyInput.memrchr
    rw [if_neg hoff, if_pos hb.2]
    cases hfind : (List.range t.input.stop).reverse.find? fun i => t.input.buffer i == t.termios.cc vEof with
    | none =>
      refine ⟨_, 0, rfl, hreset, Or.inl ⟨rfl, fun _ i _ hi heq => ?_⟩⟩
      have hnone := List.find?_eq_none.1 hfind i (List.mem_reverse.2 (List.mem_range.2 hi))
      exact hnone (beq_iff_eq.2 heq)
    | some ptr =>
      obtain ⟨hptr, before, after, hsplit, hlater⟩ := List.find?_eq_some_iff_append.1 hfind
      have hmem : ptr < t.input.stop := by
        have hin := List.mem_of_find?_eq_some hfind
        exact List.mem_range.1 (List.mem_reverse.1 hin)
      have hlast : ∀ i, ptr < i → i < t.input.stop → t.input.buffer i ≠ t.termios.cc vEof := by
        intro i hpi hi heq
        have hrange : List.range t.input.stop = after.reverse ++ [ptr] ++ before.reverse := by
          rw [← List.reverse_reverse (List.range _), hsplit, List.reverse_append, List.reverse_cons]
        have hsorted := (List.pairwise_lt_range (n := t.input.stop))
        rw [hrange, List.append_assoc, List.pairwise_append] at hsorted
        have hin : i ∈ after.reverse ++ [ptr] ++ before.reverse := hrange ▸ List.mem_range.2 hi
        rw [List.append_assoc, List.mem_append, List.mem_append] at hin
        rcases hin with hin | hin | hin
        · have hlt := hsorted.2.2 i hin ptr (List.mem_append_left _ (List.mem_singleton_self _))
          omega
        · rw [List.mem_singleton] at hin
          omega
        · have hne := hlater i (List.mem_reverse.1 hin)
          rw [heq] at hne
          simp at hne
      dsimp only
      by_cases hlt : ptr < t.input.start
      · rw [if_pos hlt]
        exact ⟨_, 0, rfl, hreset, Or.inl ⟨rfl, fun _ i hi hi' => hlast i (by omega) hi'⟩⟩
      · rw [if_neg hlt]
        have hplace : t.input.start + (ptr - t.input.start) = ptr := by omega
        refine ⟨_, ptr - t.input.start, rfl, Cuts.stop hb (by omega) (by omega), Or.inr ⟨hoff, ?_⟩⟩
        rw [hplace]
        exact ⟨hmem, beq_iff_eq.1 hptr, hlast⟩

/-- `tty_erase_input_word` is undefined if it finds no start of a word, and otherwise leaves the bytes before the last
one. -/
private theorem eraseInputWord_spec {t : Tty} (hb : t.input.Bounded) :
    (t.eraseInputWord = none ∧ t.input.start = 0 ∧ ∀ i, ¬ TtyLines.WordEndsFrom t i) ∨
    ∃ k, t.eraseInputWord = some { t with input.stop := k } ∧ 0 < k ∧ t.input.start ≤ k ∧ k ≤ t.input.stop ∧
      (∀ i, k ≤ i → ¬ TtyLines.WordEndsFrom t i) ∧ (t.input.start < k → TtyLines.WordEndsFrom t (k - 1)) := by
  obtain ⟨hstart, hstop⟩ := hb
  -- behind `k` there are only spaces, and between `k'` and `k` there are none
  have hno : ∀ k k', (∀ j, k ≤ j → j < t.input.stop →
        (isSpace (t.input.buffer j) && !charMatch (t.input.buffer j) t.termios vEof) = true) →
      (∀ j, k' ≤ j → j < k →
        (!isSpace (t.input.buffer j) && !charMatch (t.input.buffer j) t.termios vEof) = true) →
      ∀ i, k' ≤ i → ¬ TtyLines.WordEndsFrom t i := by
    intro k k' hspace hword i hi
    simp only [Bool.and_eq_true, Bool.not_eq_true'] at hspace hword
    rintro (⟨j, hij, hj, he⟩ | ⟨j, l, hij, hjl, hl, hsp, hns⟩)
    · rcases Nat.lt_or_ge j k with hjk | hjk
      · rw [(hword j (by omega) hjk).2] at he
        cases he
      · rw [(hspace j hjk hj).2] at he
        cases he
    · rcases Nat.lt_or_ge j k with hjk | hjk
      · rw [(hword j (by omega) hjk).1] at hsp
        cases hsp
      · rw [(hspace l (by omega) hl).1] at hns
        cases hns
  unfold Tty.eraseInputWord
  cases h1 : t.input.eraseScan (fun c => isSpace c && !charMatch c t.termios vEof) t.input.stop with
  | none =>
    obtain ⟨hz, hall⟩ := (TtyInput.eraseScan_eq_none hstart hstop).1 h1
    exact Or.inl ⟨rfl, hz, fun i => hno 0 0 (fun j _ hj => hall j hj) (fun j _ hj => by omega) i (Nat.zero_le i)⟩
  | some k =>
    obtain ⟨hk0, hks, hke, hspace, hk⟩ := TtyInput.eraseScan_some hstart hstop h1
    dsimp only
    cases h2 : t.input.eraseScan (fun c => !isSpace c && !charMatch c t.termios vEof) k with
    | none =>
      obtain ⟨hz, hall⟩ := (TtyInput.eraseScan_eq_none hks (Nat.le_trans hke hstop)).1 h2
      exact Or.inl ⟨rfl, hz, fun i => hno k 0 hspace (fun j _ hj => hall j hj) i (Nat.zero_le i)⟩
    | some k' =>
      obtain ⟨hk0', hks', hke', hword, hstopped⟩ := TtyInput.eraseScan_some hks (Nat.le_trans hke hstop) h2
      refine Or.inr ⟨k', rfl, hk0', hks', Nat.le_trans hke' hke, hno k k' hspace hword, fun hlt => ?_⟩
      have ha := hk (by omega)
      have hb := hstopped hlt
      simp only [Bool.and_eq_false_iff, Bool.not_eq_false'] at ha hb
      rcases hb with hsp | he
      · rcases ha with hns | he
        · refine Or.inr ⟨k' - 1, k - 1, le_refl _, ?_, by omega, hsp, hns⟩
          have hne : k' - 1 ≠ k - 1 := fun heq => by
            rw [heq, hns] at hsp
            cases hsp
          omega
        · exact Or.inl ⟨k - 1, by omega, by omega, he⟩
      · exact Or.inl ⟨k' - 1, le_refl _, by omega, he⟩

theorem TtyLines.WordEndsFrom.mono {t : Tty} {i j : Nat} (h : TtyLines.WordEndsFrom t j) (hij : i ≤ j) :
    TtyLines.WordEndsFrom t i := by
  rcases h with ⟨k, hk, hrest⟩ | ⟨k, l, hk, hrest⟩
  · exact Or.inl ⟨k, by omega, hrest⟩
  · exact Or.inr ⟨k, l, by omega, hrest⟩

/-! ### One call -/

private theorem inputAction_of_completes {t : Tty} {c : UInt8} (hicanon : t.termios.icanon = true)
    (h : t.completes c = true) : t.inputAction c = .flushLine c := by
  unfold Tty.completes at h
  obtain ⟨hliteral, hc⟩ := Bool.and_eq_true_iff.1 h
  simp only [Bool.or_eq_true, beq_iff_eq] at hc
  unfold Tty.inputAction Tty.canonicalAction
  rw [if_neg (by rw [Bool.not_eq_true']  at hliteral; rw [hliteral]; exact Bool.false_ne_true), if_pos hicanon,
    if_pos (by rcases hc with (hc | hc) | hc; exacts [Or.inl hc, Or.inr (Or.inl hc), Or.inr (Or.inr hc)])]

private theorem canonicalAction_flushLine {t : Tty} {c delim : UInt8}
    (hc : ¬ (c = 10 ∨ charMatch c t.termios vEol ∨ charMatch c t.termios vEol2))
    (h : t.canonicalAction c = some (.flushLine delim)) : delim = 0 := by
  unfold Tty.canonicalAction at h
  rw [if_neg hc] at h
  split at h
  · cases h
    rfl
  · repeat' split at h
    all_goals cases h

private theorem flushLine_eq_zero {t : Tty} {c delim : UInt8} (hc : t.completes c = false)
    (h : t.inputAction c = .flushLine delim) : delim = 0 := by
  unfold Tty.inputAction at h
  by_cases hliteral : t.literal = true
  · rw [if_pos hliteral] at h
    cases h
  · rw [if_neg hliteral] at h
    have hcomplete : ¬ (c = 10 ∨ charMatch c t.termios vEol ∨ charMatch c t.termios vEol2) := by
      intro hor
      unfold Tty.completes at hc
      rw [Bool.not_eq_true] at hliteral
      rw [hliteral, Bool.not_false, Bool.true_and] at hc
      simp only [Bool.or_eq_false_iff, beq_eq_false_iff_ne] at hc
      rcases hor with hor | hor | hor
      · exact hc.1.1 hor
      · rw [hc.1.2] at hor
        cases hor
      · rw [hc.2] at hor
        cases hor
    have hother : (if t.termios.isig ∧ (charMatch c t.termios vIntr ∨ charMatch c t.termios vSusp ∨
        charMatch c t.termios vQuit) then InputAction.signal else .raw) ≠ .flushLine delim := by
      split <;> exact InputAction.noConfusion
    by_cases hicanon : t.termios.icanon = true
    · rw [if_pos hicanon] at h
      cases hca : t.canonicalAction c with
      | none =>
        rw [hca] at h
        exact absurd h hother
      | some action =>
        rw [hca] at h
        refine canonicalAction_flushLine hcomplete ?_
        rw [hca]
        exact congrArg some h
    · rw [if_neg hicanon] at h
      exact absurd h hother

namespace TtyLines

variable {s s' : TtyLines} {c : UInt8}

/-- The buffer of a terminal in canonical mode holds the lines, and completed lines can be read. -/
structure Valid (s : TtyLines) : Prop where
  holds : s.Holds
  canonical : s.tty.termios.icanon = true
  ready : s.unread ≠ 0 → s.tty.flush = true

private theorem typed_of_completes (h : s.tty.completes c = true) (t : Tty) :
    s.typed c t = { s with tty := t, lines := s.lines ++ s.typing ++ [c], typing := [] } := if_pos h

private theorem typed_of_not (h : s.tty.completes c = false) (t : Tty) : s.typed c t =
    match s.tty.inputAction c with
    | .raw => { s with tty := t, typing := s.typing ++ [c] }
    | .erase | .kill | .eraseWord => s.edited t
    | _ => { s with tty := t } := if_neg (by rw [h]; exact Bool.false_ne_true)

theorem Valid.same (h : s.Valid) {t : Tty} (hinput : t.input = s.tty.input) (htermios : t.termios = s.tty.termios)
    (hflush : s.tty.flush = true → t.flush = true) : Valid { s with tty := t } := by
  refine ⟨?_, ?_, fun hu => hflush (h.ready hu)⟩
  · change t.input.Bounded ∧ ∃ rest, s.lines = s.returned ++ rest ∧ t.input.pending = rest ++ s.typing
    rw [hinput]
    exact h.holds
  · change t.termios.icanon = true
    rw [htermios]
    exact h.canonical

theorem Valid.cut (h : s.Valid) {t : Tty} {m : Nat} (hc : Cuts s.tty t m) (hm : s.unread ≤ m) :
    (s.edited t).Valid := by
  refine ⟨(h.holds.cut_iff hc.bounded hc.pending).2 hm, ?_, fun hu => ?_⟩
  · change t.termios.icanon = true
    rw [hc.termios]
    exact h.canonical
  · change t.flush = true
    rw [hc.flush]
    exact h.ready hu

theorem Valid.append (h : s.Valid) {t : Tty} (hb : t.input.Bounded)
    (hpending : t.input.pending = s.tty.input.pending ++ [c]) (htermios : t.termios = s.tty.termios)
    (hflush : t.flush = s.tty.flush) : Valid { s with tty := t, typing := s.typing ++ [c] } := by
  obtain ⟨-, rest, hlines, hrest⟩ := h.holds
  refine ⟨⟨hb, rest, hlines, ?_⟩, ?_, fun hu => ?_⟩
  · change t.input.pending = rest ++ (s.typing ++ [c])
    rw [hpending, hrest, List.append_assoc]
  · change t.termios.icanon = true
    rw [htermios]
    exact h.canonical
  · change t.flush = true
    rw [hflush]
    exact h.ready hu

private theorem Valid.complete (h : s.Valid) {t : Tty} (hb : t.input.Bounded)
    (hpending : t.input.pending = s.tty.input.pending ++ [c]) (htermios : t.termios = s.tty.termios)
    (hflush : t.flush = true) :
    Valid { s with tty := t, lines := s.lines ++ s.typing ++ [c], typing := [] } := by
  obtain ⟨-, rest, hlines, hrest⟩ := h.holds
  refine ⟨⟨hb, rest ++ s.typing ++ [c], ?_, ?_⟩, ?_, fun _ => hflush⟩
  · change s.lines ++ s.typing ++ [c] = s.returned ++ (rest ++ s.typing ++ [c])
    rw [hlines, List.append_assoc, List.append_assoc, List.append_assoc]
  · change t.input.pending = rest ++ s.typing ++ [c] ++ []
    rw [hpending, hrest, List.append_nil]
  · change t.termios.icanon = true
    rw [htermios]
    exact h.canonical

/-! ### Editing characters and completed lines -/

section

variable {t' : Tty}

private theorem erase_ok (h : s.Valid) (hc : s.typing ≠ [] ∨ s.tty.input.stop = 0 ∨
      charMatch (s.tty.input.buffer (s.tty.input.stop - 1)) s.tty.termios vEof = true) :
    ∃ t' m, s.tty.eraseInput = some t' ∧ Cuts s.tty t' m ∧ s.unread ≤ m := by
  have hb := h.holds.1
  have hlen := h.holds.length
  have hsame : ∃ t' m, some s.tty = some t' ∧ Cuts s.tty t' m ∧ s.unread ≤ m :=
    ⟨s.tty, _, rfl, Cuts.refl hb, by omega⟩
  have hstop := hb.2
  unfold Tty.eraseInput
  by_cases hz : s.tty.input.stop = 0
  · rw [if_neg (not_not.2 hz)]
    exact hsame
  · rw [if_pos hz, TtyInput.read_of_lt (by omega)]
    dsimp only
    by_cases he : charMatch (s.tty.input.buffer (s.tty.input.stop - 1)) s.tty.termios vEof = true
    · rw [if_pos he]
      exact hsame
    · rw [if_neg he]
      have htyping : s.typing ≠ [] := by
        rcases hc with hc | hc | hc
        · exact hc
        · exact absurd hc hz
        · exact absurd hc he
      have hpos := List.length_pos_iff.2 htyping
      exact ⟨_, _, rfl, Cuts.stop hb (by omega) (by omega), by omega⟩

private theorem erase_needs (h : s.Valid) (ht : s.tty.eraseInput = some t') (hh : (s.edited t').Holds) :
    s.typing ≠ [] ∨ s.tty.input.stop = 0 ∨
      charMatch (s.tty.input.buffer (s.tty.input.stop - 1)) s.tty.termios vEof = true := by
  have hb := h.holds.1
  have hlen := h.holds.length
  have hstop := hb.2
  by_contra hc
  obtain ⟨htyping, hc⟩ := not_or.1 hc
  obtain ⟨hz, he⟩ := not_or.1 hc
  rw [not_not.1 htyping, List.length_nil] at hlen
  unfold Tty.eraseInput at ht
  rw [if_pos hz, TtyInput.read_of_lt (by omega)] at ht
  dsimp only at ht
  rw [if_neg he] at ht
  cases ht
  have hle : s.tty.input.start ≤ s.tty.input.stop - 1 := hh.1.1
  have hm := (h.holds.cut_iff hh.1 (TtyInput.pending_stop (s.tty.input.stop - 1) (Nat.sub_le _ _))).1 hh
  omega

private theorem mem_typing_iff (h : s.Valid) (c : UInt8) : c ∈ s.typing ↔
    ∃ i, s.tty.input.start + s.unread ≤ i ∧ i < s.tty.input.stop ∧ s.tty.input.buffer i = c := by
  have hlen := h.holds.length
  constructor
  · intro hc
    obtain ⟨i, hi, hget⟩ := List.getElem_of_mem hc
    refine ⟨s.tty.input.start + s.unread + i, Nat.le_add_right _ _, by omega, ?_⟩
    have htyping := h.holds.getElem?_typing (i := i) (by omega)
    rw [List.getElem?_eq_getElem hi, hget] at htyping
    exact (Option.some.inj htyping).symm
  · rintro ⟨i, hi, hstop, rfl⟩
    have htyping := h.holds.getElem?_typing (i := i - (s.tty.input.start + s.unread)) (by omega)
    rw [show s.tty.input.start + s.unread + (i - (s.tty.input.start + s.unread)) = i by omega] at htyping
    exact List.mem_of_getElem? htyping

private theorem kill_ok_iff (h : s.Valid) : ∃ t' m, s.tty.killInput = some t' ∧ Cuts s.tty t' m ∧
    (s.unread = 0 ∨ s.tty.termios.cc vEof ≠ 0xff ∧ s.tty.termios.cc vEof ∈ s.typing ↔ s.unread ≤ m) := by
  obtain ⟨t', m, ht, hcut, hm⟩ := killInput_cuts h.holds.1
  refine ⟨t', m, ht, hcut, ?_⟩
  rw [mem_typing_iff h]
  rcases hm with ⟨rfl, hnone⟩ | ⟨hon, hlt, hat, hlast⟩
  · constructor
    · rintro (hz | ⟨hon, i, hi, hstop, heq⟩)
      · omega
      · exact absurd heq (hnone hon i (by omega) hstop)
    · exact fun hz => Or.inl (by omega)
  · constructor
    · rintro (hz | ⟨-, i, hi, hstop, heq⟩)
      · omega
      · by_contra hm
        exact hlast i (by omega) hstop heq
    · exact fun hm => Or.inr ⟨hon, s.tty.input.start + m, by omega, hlt, hat⟩

private theorem eraseWord_ok (h : s.Valid) (hc : s.unread = 0 ∧ s.tty.input.start ≠ 0 ∨
      WordEndsFrom s.tty (s.tty.input.start + (s.unread - 1))) :
    ∃ t' m, s.tty.eraseInputWord = some t' ∧ Cuts s.tty t' m ∧ s.unread ≤ m := by
  rcases eraseInputWord_spec h.holds.1 with ⟨-, hz, hno⟩ | ⟨k, ht, hpos, hsk, hks, hno, -⟩
  · rcases hc with ⟨-, hne⟩ | hc
    · exact absurd hz hne
    · exact absurd hc (hno _)
  · refine ⟨_, _, ht, Cuts.stop h.holds.1 hsk hks, ?_⟩
    by_contra hlt
    rcases hc with ⟨hz, -⟩ | hc
    · omega
    · exact hno _ (by omega) hc

private theorem eraseWord_needs (h : s.Valid) (ht : s.tty.eraseInputWord = some t') (hh : (s.edited t').Holds) :
    s.unread = 0 ∧ s.tty.input.start ≠ 0 ∨ WordEndsFrom s.tty (s.tty.input.start + (s.unread - 1)) := by
  rcases eraseInputWord_spec h.holds.1 with ⟨hnone, -, -⟩ | ⟨k, hk, hpos, hsk, hks, -, hends⟩
  · rw [hnone] at ht
    cases ht
  · rw [hk] at ht
    cases ht
    have hm := (h.holds.cut_iff hh.1 (TtyInput.pending_stop k hks)).1 hh
    by_cases hfirst : s.unread = 0 ∧ s.tty.input.start ≠ 0
    · exact Or.inl hfirst
    · exact Or.inr ((hends (by omega)).mono (by omega))

end

/-! ### The step -/

private theorem Keeps.of_edit (h : s.Valid) (hc : s.tty.completes c = false)
    (haction : s.tty.inputAction c = .erase ∨ s.tty.inputAction c = .kill ∨ s.tty.inputAction c = .eraseWord)
    {t : Tty} {m : Nat} (ht : s.tty.inputByte c = some t) (hcut : Cuts s.tty t m) (hm : s.unread ≤ m) :
    ∃ s', s.step (.byte c) = some s' ∧ s.Keeps (.byte c) s' ∧ s'.Valid := by
  have htyped : s.typed c t = s.edited t := by
    rw [typed_of_not hc]
    rcases haction with ha | ha | ha <;> rw [ha]
  have hvalid := h.cut hcut hm
  refine ⟨s.edited t, ?_, ⟨hvalid.holds, fun _ => ⟨rfl, h.holds.cut_prefix hcut.pending⟩⟩, hvalid⟩
  change (s.tty.inputByte c).map (s.typed c) = _
  rw [ht, Option.map_some, htyped]

private theorem Keeps.of_other (s' : TtyLines) (hstep : s.step (.byte c) = some s') (hvalid : s'.Valid)
    (haction : ¬ (s.tty.inputAction c = .erase ∨ s.tty.inputAction c = .kill ∨ s.tty.inputAction c = .eraseWord)) :
    ∃ s', s.step (.byte c) = some s' ∧ s.Keeps (.byte c) s' ∧ s'.Valid :=
  ⟨s', hstep, ⟨hvalid.holds, fun ha => absurd ha haction⟩, hvalid⟩

private theorem byte_ok (h : s.Valid) (hr : s.NonFull (.byte c)) (hc : s.KeepsToTyping (.byte c)) :
    ∃ s', s.step (.byte c) = some s' ∧ s.Keeps (.byte c) s' ∧ s'.Valid := by
  unfold KeepsToTyping at hc
  dsimp only at hc
  cases hcomplete : s.tty.completes c with
  | true =>
    -- the byte is stored and completes the line
    rw [hcomplete, if_pos rfl] at hc
    have haction := inputAction_of_completes h.canonical hcomplete
    obtain ⟨input, hrecv, hb, hpending⟩ := recv_pending h.holds.1 h.canonical (hr (Or.inl hcomplete))
    refine Keeps.of_other (s.typed c { s.tty with input := input, flush := true }) ?_ ?_ ?_
    · change (s.tty.inputByte c).map (s.typed c) = _
      unfold Tty.inputByte
      rw [haction]
      dsimp only
      unfold Tty.flushInputLine
      rw [if_pos hc, hrecv]
      rfl
    · rw [typed_of_completes hcomplete]
      exact h.complete hb hpending rfl rfl
    · rw [haction]
      simp
  | false =>
    rw [hcomplete, if_neg Bool.false_ne_true] at hc
    have htyped := typed_of_not hcomplete
    cases haction : s.tty.inputAction c with
    | raw =>
      -- the byte is stored, and the line stays open
      obtain ⟨input, hrecv, hb, hpending⟩ := recv_pending (t := { s.tty with literal := false }) h.holds.1 h.canonical
        (hr (Or.inr haction))
      refine Keeps.of_other (s.typed c { s.tty with literal := false, input := input }) ?_ ?_ ?_
      · change (s.tty.inputByte c).map (s.typed c) = _
        unfold Tty.inputByte
        rw [haction]
        dsimp only
        rw [hrecv]
        rfl
      · rw [htyped, haction]
        exact h.append hb hpending rfl rfl
      · rw [haction]
        simp
    | flushLine delim =>
      -- a flush without a delimiter stores nothing
      have hdelim := flushLine_eq_zero hcomplete haction
      refine Keeps.of_other (s.typed c { s.tty with flush := true }) ?_ ?_ ?_
      · change (s.tty.inputByte c).map (s.typed c) = _
        unfold Tty.inputByte
        rw [haction]
        dsimp only
        unfold Tty.flushInputLine
        rw [if_neg (not_not.2 hdelim)]
        rfl
      · rw [htyped, haction]
        exact h.same rfl rfl fun _ => rfl
      · rw [haction]
        simp
    | erase =>
      rw [haction] at hc
      obtain ⟨t', m, ht, hcut, hm⟩ := erase_ok h hc
      refine Keeps.of_edit h hcomplete (Or.inl haction) ?_ hcut hm
      unfold Tty.inputByte
      rw [haction]
      exact ht
    | kill =>
      rw [haction] at hc
      obtain ⟨t', m, ht, hcut, hm⟩ := kill_ok_iff h
      refine Keeps.of_edit h hcomplete (Or.inr (Or.inl haction)) ?_ hcut (hm.1 hc)
      unfold Tty.inputByte
      rw [haction]
      exact ht
    | eraseWord =>
      rw [haction] at hc
      obtain ⟨t', m, ht, hcut, hm⟩ := eraseWord_ok h hc
      refine Keeps.of_edit h hcomplete (Or.inr (Or.inr haction)) ?_ hcut hm
      unfold Tty.inputByte
      rw [haction]
      exact ht
    | reprint =>
      -- with an empty buffer there is nothing to reprint
      rw [haction] at hc
      change s.tty.input.stop = 0 at hc
      refine Keeps.of_other (s.typed c s.tty) ?_ ?_ ?_
      · change (s.tty.inputByte c).map (s.typed c) = _
        unfold Tty.inputByte
        rw [haction]
        dsimp only
        unfold Tty.reprintInput
        rw [TtyInput.reprintLoop_eq, if_pos hc]
        rfl
      · rw [htyped, haction]
        exact h
      · rw [haction]
        simp
    | literalNext =>
      refine Keeps.of_other (s.typed c { s.tty with literal := true }) ?_ ?_ ?_
      · change (s.tty.inputByte c).map (s.typed c) = _
        unfold Tty.inputByte
        rw [haction]
        rfl
      · rw [htyped, haction]
        exact h.same rfl rfl id
      · rw [haction]
        simp
    | signal =>
      refine Keeps.of_other (s.typed c s.tty) ?_ ?_ ?_
      · change (s.tty.inputByte c).map (s.typed c) = _
        unfold Tty.inputByte
        rw [haction]
        rfl
      · rw [htyped, haction]
        exact h
      · rw [haction]
        simp

private theorem byte_needs {s' : TtyLines} (h : s.Valid) (hstep : s.step (.byte c) = some s')
    (hk : s.Keeps (.byte c) s') : s.KeepsToTyping (.byte c) := by
  obtain ⟨t, ht, rfl⟩ := Option.map_eq_some_iff.1 hstep
  have hholds := hk.1
  unfold KeepsToTyping
  dsimp only
  cases hcomplete : s.tty.completes c with
  | true =>
    rw [if_pos rfl]
    rintro rfl
    unfold Tty.inputByte at ht
    rw [inputAction_of_completes h.canonical hcomplete] at ht
    dsimp only at ht
    unfold Tty.flushInputLine at ht
    rw [if_neg (not_not.2 rfl)] at ht
    cases ht
    rw [typed_of_completes hcomplete] at hholds
    -- the null character is not in the buffer
    obtain ⟨-, rest', hlines', hpending'⟩ := hholds
    obtain ⟨-, rest, hlines, hpending⟩ := h.holds
    change s.tty.input.pending = rest' ++ [] at hpending'
    change s.lines ++ s.typing ++ [0] = s.returned ++ rest' at hlines'
    rw [hpending, List.append_nil] at hpending'
    rw [← hpending', hlines] at hlines'
    have hlen := congrArg List.length hlines'
    simp only [List.length_append, List.length_singleton] at hlen
    omega
  | false =>
    rw [if_neg Bool.false_ne_true]
    have htyped := typed_of_not hcomplete t
    cases haction : s.tty.inputAction c with
    | erase =>
      unfold Tty.inputByte at ht
      rw [haction] at ht htyped
      rw [htyped] at hholds
      exact erase_needs h ht hholds
    | kill =>
      unfold Tty.inputByte at ht
      rw [haction] at ht htyped
      rw [htyped] at hholds
      obtain ⟨t', m, ht', hcut, hm⟩ := kill_ok_iff h
      obtain rfl := Option.some.inj (ht.symm.trans ht')
      exact hm.2 ((h.holds.cut_iff hcut.bounded hcut.pending).1 hholds)
    | eraseWord =>
      unfold Tty.inputByte at ht
      rw [haction] at ht htyped
      rw [htyped] at hholds
      exact eraseWord_needs h ht hholds
    | reprint =>
      unfold Tty.inputByte at ht
      rw [haction] at ht
      dsimp only at ht
      unfold Tty.reprintInput at ht
      rw [TtyInput.reprintLoop_eq] at ht
      by_contra hne
      change s.tty.input.stop ≠ 0 at hne
      rw [if_neg hne] at ht
      cases ht
    | raw => trivial
    | flushLine delim => trivial
    | literalNext => trivial
    | signal => trivial

private theorem deviceRead_canonical {t : Tty} (hicanon : t.termios.icanon = true) : t.deviceRead =
    if t.flush then t.ready.map fun r => (some r.1, r.2) else some (none, t) := by
  unfold Tty.deviceRead
  rw [if_pos hicanon]

def returnedByte (s : TtyLines) (t : Tty) (b : UInt8) : TtyLines := { s with tty := t, returned := s.returned ++ [b] }

private theorem first_completed {rest : List UInt8} (hlines : s.lines = s.returned ++ rest)
    (hpending : s.tty.input.pending = rest ++ s.typing) (hlt : s.tty.input.start < s.tty.input.stop)
    (hc : s.unread = 0 → s.typing = []) : ∃ rest', rest = s.tty.input.buffer s.tty.input.start :: rest' ∧
      ({ s.tty.input with start := s.tty.input.start + 1 } : TtyInput).pending = rest' ++ s.typing := by
  rw [TtyInput.pending_read hlt] at hpending
  cases rest with
  | nil =>
    have hu : s.unread = 0 := by rw [unread_eq hlines, List.length_nil]
    rw [hc hu] at hpending
    cases hpending
  | cons b rest' =>
    rw [List.cons_append] at hpending
    obtain ⟨rfl, hrest⟩ := List.cons.inj hpending
    exact ⟨rest', rfl, hrest⟩

private theorem Valid.returnedByte (h : s.Valid) (hflush : s.tty.flush = true) (hc : s.unread = 0 → s.typing = [])
    (hlt : s.tty.input.start < s.tty.input.stop) :
    Valid (s.returnedByte
      (if s.tty.input.start + 1 = s.tty.input.stop then
        { s.tty with input.start := 0, input.stop := 0, flush := false }
      else { s.tty with input.start := s.tty.input.start + 1 }) (s.tty.input.buffer s.tty.input.start)) := by
  obtain ⟨hb, rest, hlines, hpending⟩ := h.holds
  obtain ⟨rest', rfl, hpending'⟩ := first_completed hlines hpending hlt hc
  have hlines' : s.lines = s.returned ++ [s.tty.input.buffer s.tty.input.start] ++ rest' := by
    rw [hlines, List.append_assoc, List.singleton_append]
  by_cases hlast : s.tty.input.start + 1 = s.tty.input.stop
  · rw [if_pos hlast]
    have hnil : rest' ++ s.typing = [] := by
      rw [← hpending', ← List.length_eq_zero_iff, TtyInput.length_pending]
      change s.tty.input.stop - (s.tty.input.start + 1) = 0
      omega
    refine ⟨⟨⟨le_refl 0, Nat.zero_le _⟩, rest', hlines', hnil.symm⟩, h.canonical, fun hne => absurd ?_ hne⟩
    have hu : s.lines.length - (s.returned ++ [s.tty.input.buffer s.tty.input.start]).length = rest'.length := by
      rw [hlines', List.length_append]
      omega
    rw [(List.append_eq_nil_iff.1 hnil).1] at hu
    exact hu
  · rw [if_neg hlast]
    exact ⟨⟨⟨hlt, hb.2⟩, rest', hlines', hpending'⟩, h.canonical, fun _ => hflush⟩

private theorem read_ok (h : s.Valid) (hc : s.KeepsToTyping .read) :
    ∃ s', s.step .read = some s' ∧ s.Keeps .read s' ∧ s'.Valid := by
  obtain ⟨hb, rest, hlines, hpending⟩ := h.holds
  have hlen := h.holds.length
  have hle := hb.1
  have hsame : ∀ t : Tty, ({ s with tty := t, returned := s.returned ++ [] } : TtyLines) = { s with tty := t } := by
    intro t
    rw [List.append_nil]
  -- nothing is returned if nothing is unread
  have hnothing : s.unread = 0 → s.returned = s.lines := by
    intro hu
    rw [unread_eq hlines] at hu
    rw [hlines, List.length_eq_zero_iff.1 hu, List.append_nil]
  unfold step
  dsimp only
  rw [deviceRead_canonical h.canonical]
  by_cases hflush : s.tty.flush = true
  · rw [if_pos hflush]
    unfold Tty.ready
    by_cases hempty : s.tty.input.start = s.tty.input.stop
    · have hu : s.unread = 0 := by omega
      rw [if_pos hempty]
      refine ⟨_, congrArg some (hsame _), ⟨h.holds, fun _ => hnothing hu⟩, h.holds, h.canonical, fun hne => ?_⟩
      exact absurd hu hne
    · rw [if_neg hempty, TtyInput.read_of_lt (by have hstop := hb.2; omega)]
      dsimp only
      have hvalid := h.returnedByte hflush (hc hflush) (by omega)
      have hreturned : s.returned ++ [s.tty.input.buffer s.tty.input.start] ≠ s.returned := fun heq => by
        have hl := congrArg List.length heq
        rw [List.length_append, List.length_singleton] at hl
        omega
      by_cases hlast : s.tty.input.start + 1 = s.tty.input.stop
      · rw [if_pos hlast] at hvalid ⊢
        exact ⟨_, rfl, ⟨hvalid.holds, fun heq => absurd heq hreturned⟩, hvalid⟩
      · rw [if_neg hlast] at hvalid ⊢
        exact ⟨_, rfl, ⟨hvalid.holds, fun heq => absurd heq hreturned⟩, hvalid⟩
  · rw [if_neg hflush]
    have hu : s.unread = 0 := by
      by_contra hne
      exact hflush (h.ready hne)
    exact ⟨s, congrArg some (hsame s.tty), ⟨h.holds, fun _ => hnothing hu⟩, h⟩

private theorem read_needs {s' : TtyLines} (h : s.Valid) (hstep : s.step .read = some s') (hk : s.Keeps .read s') :
    s.KeepsToTyping .read := by
  intro hflush hu
  by_contra htyping
  obtain ⟨hb, rest, hlines, hpending⟩ := h.holds
  have hlen := h.holds.length
  have hpos := List.length_pos_iff.2 htyping
  unfold step at hstep
  dsimp only at hstep
  rw [deviceRead_canonical h.canonical, if_pos hflush] at hstep
  unfold Tty.ready at hstep
  rw [if_neg (by omega), TtyInput.read_of_lt (by have hle := hb.2; omega)] at hstep
  have hreturned : s'.returned = s.returned ++ [s.tty.input.buffer s.tty.input.start] ∧ s'.lines = s.lines := by
    dsimp only at hstep
    split at hstep <;> cases hstep <;> exact ⟨rfl, rfl⟩
  -- a byte of the line that is being typed has been returned
  obtain ⟨-, rest', hlines', -⟩ := hk.1
  rw [hreturned.1, hreturned.2, hlines] at hlines'
  have hl := congrArg List.length hlines'
  rw [unread_eq hlines] at hu
  simp only [List.length_append, List.length_singleton] at hl
  omega

end TtyLines

/-! ### Runs -/

def TtyLines.start (t : Tty) : TtyLines := ⟨t, [], [], []⟩

/-- In canonical mode and as long as the buffer is not full, the bytes that are read are those of the completed lines,
in their order, and the editing characters only remove bytes of the line that is being typed, exactly when every call
keeps to that line. -/
theorem lines_kept_iff {t : Tty} (hicanon : t.termios.icanon = true) (hstart : t.input.start = 0)
    (hstop : t.input.stop = 0) {calls : List LineCall}
    (hroom : Machine.Meets TtyLines.step TtyLines.NonFull calls (TtyLines.start t)) :
    Machine.Meets TtyLines.step TtyLines.KeepsToTyping calls (TtyLines.start t) ↔
      Machine.Always TtyLines.step TtyLines.Keeps calls (TtyLines.start t) := by
  have hvalid : (TtyLines.start t).Valid := by
    refine ⟨⟨⟨?_, ?_⟩, [], rfl, ?_⟩, hicanon, fun hne => absurd rfl hne⟩
    · change t.input.start ≤ t.input.stop
      omega
    · change t.input.stop ≤ ttyInputBufferSize
      omega
    · change t.input.pending = []
      rw [← List.length_eq_zero_iff, TtyInput.length_pending]
      omega
  refine Machine.meets_iff_always_of (P := TtyLines.Valid) ?_ ?_ hvalid hroom
  · intro s call hs hr hc
    cases call with
    | byte c => exact TtyLines.byte_ok hs hr hc
    | read => exact TtyLines.read_ok hs hc
  · intro s call s' hs _ hstep hk
    cases call with
    | byte c => exact TtyLines.byte_needs hs hstep hk
    | read => exact TtyLines.read_needs hs hstep hk

instance (t : Tty) (i : Nat) : Decidable (TtyLines.WordEndsFrom t i) :=
  decidable_of_iff ((∃ j < t.input.stop, i ≤ j ∧ charMatch (t.input.buffer j) t.termios vEof = true) ∨
      ∃ k < t.input.stop, ∃ j < k, i ≤ j ∧ isSpace (t.input.buffer j) = true ∧ isSpace (t.input.buffer k) = false) (by
    unfold TtyLines.WordEndsFrom
    constructor
    · rintro (⟨j, hj, hij, he⟩ | ⟨k, hk, j, hjk, hij, hs⟩)
      · exact Or.inl ⟨j, hij, hj, he⟩
      · exact Or.inr ⟨j, k, hij, hjk, hk, hs⟩
    · rintro (⟨j, hij, hj, he⟩ | ⟨j, k, hij, hjk, hk, hs⟩)
      · exact Or.inl ⟨j, hj, hij, he⟩
      · exact Or.inr ⟨k, hk, j, hjk, hij, hs⟩)

instance (s : TtyLines) : ∀ action, Decidable (s.ActsOnTyping action)
  | .erase => inferInstanceAs (Decidable (_ ∨ _ ∨ _))
  | .kill => inferInstanceAs (Decidable (_ ∨ _ ∧ _))
  | .eraseWord => inferInstanceAs (Decidable (_ ∧ _ ∨ TtyLines.WordEndsFrom _ _))
  | .reprint => inferInstanceAs (Decidable (_ = _))
  | .raw | .flushLine _ | .literalNext | .signal => isTrue trivial

instance (s : TtyLines) : ∀ call, Decidable (s.KeepsToTyping call)
  | .byte c => inferInstanceAs (Decidable (if s.tty.completes c then c ≠ 0 else s.ActsOnTyping _))
  | .read => inferInstanceAs (Decidable (_ = _ → _ = _ → _ = _))

instance (s : TtyLines) : ∀ call, Decidable (s.NonFull call)
  | .byte _ => inferInstanceAs (Decidable (_ ∨ _ → _))
  | .read => isTrue trivial

/-- The terminal of the examples: canonical mode, and the characters of `vga_text_init` for erasing, killing and the
end of the file. -/
def vgaTty : Tty :=
  ⟨⟨fun _ => 0, 0, 0⟩, ⟨true, true, true, Function.update (Function.update (Function.update (Function.update
    (fun _ => 0xff) vErase 31) vKill 21) vEof 4) vWerase 23⟩, false, false⟩

/-- A line is typed, with a character that is erased, completed and read while the next one is typed. -/
theorem lines_kept_small : Machine.Always TtyLines.step TtyLines.Keeps
    [.byte 97, .byte 98, .byte 31, .byte 10, .read, .byte 99, .read] (TtyLines.start vgaTty) :=
  (lines_kept_iff (t := vgaTty) rfl rfl rfl (by decide)).1 (by decide)

/-- An erase character after a line removes the newline. -/
theorem lines_not_kept : ¬ Machine.Always TtyLines.step TtyLines.Keeps [.byte 97, .byte 10, .byte 31]
    (TtyLines.start vgaTty) := by
  rintro ⟨s1, h1, -, s2, h2, -, s3, h3, hk, -⟩
  have hrun : (Machine.run TtyLines.step [.byte 97, .byte 10, .byte 31] (TtyLines.start vgaTty)).all
      (fun s => s.lines = [97, 10] ∧ s.returned = [] ∧ s.tty.input.pending = [97] ∧ s.typing = []) = true := by
    decide
  simp only [Machine.run, h1, h2, h3, Option.bind_some, Option.all_some] at hrun
  obtain ⟨hlines, hreturned, hpending, htyping⟩ := of_decide_eq_true hrun
  obtain ⟨-, rest, hrest, hbuffer⟩ := hk.1
  rw [hlines, hreturned, List.nil_append] at hrest
  rw [hpending, htyping, ← hrest] at hbuffer
  cases hbuffer

end Pml.Drivers
