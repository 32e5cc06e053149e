import Pml.Lib.Loops
import Pml.Util.Memory
import Pml.Util.StringSearch

/-!
# Strings (`util/strlen.c`, `util/strcmp.c`, `util/strcpy.c`, `util/strcat.c`, `util/strstr.c`)

The loops over words stop at a word in which `LONG_NULL` finds a zero byte, and the loops over bytes go on from
there.  `strlen` and `strcmp` use them only at addresses that `isAlignedLong` accepts.  The loops have no bound, so
they take one here, and it is enough if it is more than the length of the strings.
-/

namespace Pml.Util

open ByteMemory Loops Words

/-! ### The code -/

/-- `*(unsigned long *) a` -/
def loadWord (m : Mem) (a : Nat) : Word64 := leWord 64 ((List.range 8).map fun i => m (a + i))

/-- `while (!LONG_NULL (*a)) a++` -/
def skipWords (m : Mem) (n a : Nat) : Option Nat := whileLoop (fun a => longNull (loadWord m a) == 0) (· + 8) n a

/-- `while (*a) a++` -/
def skipBytes (m : Mem) (n a : Nat) : Option Nat := whileLoop (fun a => m a != 0) (· + 1) n a

def strlen (m : Mem) (n str : Nat) : Option Nat :=
  (whileLoop (fun ptr => !isAlignedLong ptr && m ptr != 0) (· + 1) n str).bind fun ptr =>
    if isAlignedLong ptr then (skipWords m n ptr).bind fun ls => (skipBytes m n ls).map (· - str)
    else some (ptr - str)

def strcmp (m : Mem) (n a b : Nat) : Option Int :=
  let words := isAlignedLong a && isAlignedLong b
  (whileLoop (fun p => words && loadWord m p.1 == loadWord m p.2 && longNull (loadWord m p.1) == 0)
    (fun p => (p.1 + 8, p.2 + 8))
    n (a, b)).bind fun p =>
    if words && loadWord m p.1 == loadWord m p.2 then some 0
    else (whileLoop (fun p => m p.1 != 0 && m p.1 == m p.2) (fun p => (p.1 + 1, p.2 + 1)) n p).map fun p =>
      if (m p.2).toNat < (m p.1).toNat then 1 else if (m p.1).toNat < (m p.2).toNat then -1 else 0

def copyUnit (w : Nat) (s : Mem × Nat × Nat) : Mem × Nat × Nat := (copy s.1 s.2.1 s.2.2 w, s.2.1 + w, s.2.2 + w)

def strcpy (m : Mem) (n dest src : Nat) : Option (Mem × Nat) :=
  (if src &&& 7 = 0 ∧ dest &&& 7 = 0 then whileLoop (fun s => longNull (loadWord s.1 s.2.2) == 0) (copyUnit 8) n
    (m, dest, src)
    else some (m, dest, src)).bind fun s =>
    (whileLoop (fun s => s.1 s.2.2 != 0) (copyUnit 1) n s).map fun s => ((copyUnit 1 s).1, dest)

def strcat (m : Mem) (n dest src : Nat) : Option (Mem × Nat) :=
  (if dest &&& 7 = 0 then skipWords m n dest else some dest).bind fun p =>
    (skipBytes m n p).bind fun p => (strcpy m n p src).map fun r => (r.1, dest)

def strstr (m : Mem) (n haystack needle : Nat) : Option (Option Nat) :=
  (strlen m n needle).bind fun len =>
    (whileLoop (fun p => m p != 0 && memcmp m p needle len != 0) (· + 1) n haystack).map fun p => if m p = 0 then none
      else some p

/-! ### Lengths -/

/-- There is a string of `l` characters at `a`. -/
structure IsString (m : Mem) (a l : Nat) : Prop where
  char : ∀ i < l, m (a + i) ≠ 0
  nul : m (a + l) = 0

variable {m : Mem} {a b l n : Nat}

private theorem longNull_loadWord : longNull (loadWord m a) = 0 ↔ ∀ i < 8, m (a + i) ≠ 0 := by
  unfold loadWord
  rw [longNull_eq_zero_iff rfl, List.forall_mem_map]
  simp only [List.mem_range]

theorem IsString.drop (h : IsString m a l) {i : Nat} (hi : i ≤ l) : IsString m (a + i) (l - i) := by
  refine ⟨fun j hj => ?_, ?_⟩
  · rw [Nat.add_assoc]
    exact h.char (i + j) (by omega)
  · rw [Nat.add_assoc, Nat.add_sub_cancel' hi]
    exact h.nul

theorem IsString.ends (h : IsString m a l) {i : Nat} (hi : i ≤ l) (hnul : m (a + i) = 0) : i = l := by
  by_contra hne
  exact h.char i (by omega) hnul

private theorem longNull_ends {m' : Mem} (hnul : m' (a + l) = 0) :
    (longNull (loadWord m' (a + 8 * (l / 8))) == 0) = false := by
  rw [beq_eq_false_iff_ne]
  intro h
  refine longNull_loadWord.1 h (l % 8) (Nat.mod_lt _ (by decide)) ?_
  rwa [Nat.add_assoc, Nat.div_add_mod]

private theorem IsString.skipWords (h : IsString m a l) (hn : l < n) : ∃ i ≤ l, skipWords m n a = some (a + i) := by
  obtain ⟨k, hk, hrun, -⟩ :=
    whileLoop_ends (c := fun a => longNull (loadWord m a) == 0) (f := (· + 8)) (g := fun i => a + 8 * i)
    (fun i _ => rfl) (longNull_ends h.nul) (show l / 8 < n by omega)
  exact ⟨8 * k, by omega, hrun⟩

private theorem IsString.skipBytes (h : IsString m a l) (hn : l < n) : skipBytes m n a = some (a + l) := by
  obtain ⟨k, hk, hrun, hend, -⟩ := whileLoop_ends (c := fun a => m a != 0) (f := (· + 1)) (g := fun i => a + i)
    (fun i _ => rfl) (bne_eq_false_iff_eq.2 h.nul) hn
  obtain rfl := h.ends hk (bne_eq_false_iff_eq.1 hend)
  exact hrun

private theorem IsString.strlen (h : IsString m a l) (hn : l < n) : strlen m n a = some l := by
  obtain ⟨k, hk, hrun, hend, -⟩ := whileLoop_ends (c := fun p => !isAlignedLong p && m p != 0) (f := (· + 1))
    (g := fun i => a + i) (fun i _ => rfl) (by simp [h.nul]) hn
  have hrest := h.drop hk
  rw [Nat.add_zero] at hrun
  unfold Pml.Util.strlen
  rw [hrun, Option.bind_some]
  by_cases ha : isAlignedLong (a + k) = true
  · obtain ⟨i, hi, hwords⟩ := hrest.skipWords (n := n) (by omega)
    rw [if_pos ha, hwords, Option.bind_some, (hrest.drop hi).skipBytes (by omega), Option.map_some]
    congr 1
    omega
  · have hnul : m (a + k) = 0 := by simpa [ha] using hend
    rw [if_neg ha, h.ends hk hnul, Nat.add_sub_cancel_left]

/-! ### Comparing -/

private theorem loadWord_eq (h : loadWord m a = loadWord m b) : ∀ i < 8, m (a + i) = m (b + i) := by
  have hnat : leNat ((List.range 8).map fun i => m (a + i)) = leNat ((List.range 8).map fun i => m (b + i)) := by
    rw [← leWord_toNat (w := 64) (by simp), ← leWord_toNat (w := 64) (by simp)]
    exact congrArg BitVec.toNat h
  have hlist := leNat_inj (by simp) hnat
  exact fun i hi => List.map_inj_left.1 hlist i (List.mem_range.2 hi)

private theorem IsString.strcmp (h : IsString m a l) (hn : l < n) :
    strcmp m n a b = some (compareBytes m (l + 1) a b) := by
  unfold Pml.Util.strcmp
  dsimp only
  generalize (isAlignedLong a && isAlignedLong b) = words
  obtain ⟨k, hk, hrun, hend, hall⟩ :=
    whileLoop_ends (f := fun p => (p.1 + 8, p.2 + 8)) (g := fun i => (a + 8 * i, b + 8 * i))
    (c := fun p => words && loadWord m p.1 == loadWord m p.2 && longNull (loadWord m p.1) == 0) (fun i _ => rfl)
    (by dsimp only; rw [longNull_ends h.nul, Bool.and_false]) (show l / 8 < n by omega)
  dsimp only at hend hall
  have hsame : ∀ i < 8 * k, m (a + i) = m (b + i) := by
    intro i hi
    have hword := hall (i / 8) (by omega)
    simp only [Bool.and_eq_true, beq_iff_eq] at hword
    have hbyte := loadWord_eq hword.1.2 (i % 8) (Nat.mod_lt _ (by decide))
    rwa [Nat.add_assoc, Nat.add_assoc, Nat.div_add_mod] at hbyte
  rw [Nat.mul_zero, Nat.add_zero, Nat.add_zero] at hrun
  rw [hrun, Option.bind_some]
  dsimp only
  by_cases hword : (words && loadWord m (a + 8 * k) == loadWord m (b + 8 * k)) = true
  · -- the word has the terminator and is the same in both strings
    rw [if_pos hword]
    rw [hword, Bool.true_and, beq_eq_false_iff_ne, Ne, longNull_loadWord] at hend
    push Not at hend
    obtain ⟨i, hi, hnul⟩ := hend
    rw [Nat.add_assoc] at hnul
    have hle : l ≤ 8 * k + i := by
      by_contra hlt
      exact h.char _ (by omega) hnul
    rw [Bool.and_eq_true, beq_iff_eq] at hword
    have hall' : ∀ j < l + 1, m (a + j) = m (b + j) := by
      intro j hj
      by_cases hjk : j < 8 * k
      · exact hsame j hjk
      · have hbyte := loadWord_eq hword.2 (j - 8 * k) (by omega)
        rwa [Nat.add_assoc, Nat.add_assoc, Nat.add_sub_cancel' (by omega)] at hbyte
    rw [compareBytes_skip (Nat.le_refl _) hall', Nat.sub_self]
    rfl
  · rw [if_neg hword]
    obtain ⟨i, hi, hrun', hend', hall'⟩ := whileLoop_ends (f := fun p => (p.1 + 1, p.2 + 1)) (l := l - 8 * k)
      (g := fun i => (a + 8 * k + i, b + 8 * k + i)) (c := fun p => m p.1 != 0 && m p.1 == m p.2) (fun i _ => rfl)
      (by simp [(h.drop (show 8 * k ≤ l by omega)).nul]) (show l - 8 * k < n by omega)
    dsimp only at hend' hall'
    rw [Nat.add_zero, Nat.add_zero] at hrun'
    rw [hrun', Option.map_some]
    have hall'' : ∀ j < 8 * k + i, m (a + j) = m (b + j) := by
      intro j hj
      by_cases hjk : j < 8 * k
      · exact hsame j hjk
      · have hbyte := hall' (j - 8 * k) (by omega)
        rw [Bool.and_eq_true, beq_iff_eq] at hbyte
        have hbyte := hbyte.2
        rwa [Nat.add_assoc, Nat.add_assoc, Nat.add_sub_cancel' (by omega)] at hbyte
    rw [compareBytes_skip (show 8 * k + i ≤ l + 1 by omega) hall'', ← Nat.add_assoc, ← Nat.add_assoc,
      show l + 1 - (8 * k + i) = (l - (8 * k + i)) + 1 by omega, compareBytes]
    congr 1
    dsimp only
    rcases Nat.lt_trichotomy (m (a + 8 * k + i)).toNat (m (b + 8 * k + i)).toNat with hlt | heq | hlt
    · rw [if_neg (by omega), if_pos hlt, if_pos hlt]
    · -- both strings end here
      rw [UInt8.toNat_inj.1 heq, beq_self_eq_true, Bool.and_true, bne_eq_false_iff_eq, ← UInt8.toNat_inj.1 heq,
        Nat.add_assoc]
        at hend'
      have hil := h.ends (by omega) hend'
      rw [if_neg (by omega), if_neg (by omega), if_neg (by omega), if_neg (by omega), hil, Nat.sub_self]
      rfl
    · rw [if_pos hlt, if_neg (by omega), if_pos hlt]

/-- The result of `strcmp` tells which string comes first: of the first bytes that differ, where the terminators
count, the one of that string is smaller. -/
theorem strcmp_compares (h : IsString m a l) (hn : l < n) : ∃ r, strcmp m n a b = some r ∧
    (r = 0 ↔ ∀ i ≤ l, m (a + i) = m (b + i)) ∧ (r < 0 ↔ Before m a b (l + 1)) ∧ (0 < r ↔ Before m b a (l + 1)) := by
  obtain ⟨hzero, hneg, hpos⟩ := @compareBytes_compares m a b (l + 1)
  refine ⟨_, h.strcmp hn, ?_, hneg, hpos⟩
  rw [hzero]
  exact forall_congr' fun i => by rw [Nat.lt_succ_iff]

def text : Mem := fun x => [97, 98, 0, 97, 99, 0].getD x 0

private theorem text_first : IsString text 0 2 := ⟨by decide, rfl⟩

private theorem text_second : IsString text 3 2 := ⟨by decide, rfl⟩

theorem strcmp_compares_text : ∃ r, strcmp text 3 0 3 = some r ∧ r < 0 :=
  have ⟨r, hr, _, hneg, _⟩ := @strcmp_compares text 0 3 2 3 text_first (by decide)
  ⟨r, hr, hneg.2 ⟨1, by decide, by decide, by decide⟩⟩

/-! ### Copying -/

variable {dest src : Nat}

def copied (m : Mem) (dest src i : Nat) : Mem × Nat × Nat := (copy m dest src i, dest + i, src + i)

private theorem copyUnit_copied {i w : Nat} (hapart : dest ≤ src ∨ src + i + w ≤ dest) :
    copyUnit w (copied m dest src i) = copied m dest src (i + w) := by
  unfold copyUnit copied
  dsimp only
  rw [copy_append hapart, Nat.add_assoc, Nat.add_assoc]

private theorem copied_next {i : Nat} (hi : i ≤ l) (hapart : dest ≤ src ∨ src + l < dest) :
    (copied m dest src i).1 (src + l) = m (src + l) := copy_outside (by omega)

private theorem IsString.strcpy (h : IsString m src l) (hapart : dest ≤ src ∨ src + l < dest) (hn : l < n) :
    strcpy m n dest src = some (copy m dest src (l + 1), dest) := by
  unfold Pml.Util.strcpy
  have hwords : ∃ i ≤ l, (if src &&& 7 = 0 ∧ dest &&& 7 = 0 then
      whileLoop (fun s => longNull (loadWord s.1 s.2.2) == 0) (copyUnit 8) n (m, dest, src)
        else some (m, dest, src)) =
        some (copied m dest src i) := by
    have hstart : (m, dest, src) = copied m dest src 0 := by
      unfold copied
      rw [copy_zero]
      rfl
    split
    · obtain ⟨k, hk, hrun, -⟩ := whileLoop_ends (c := fun s : Mem × Nat × Nat => longNull (loadWord s.1 s.2.2) == 0)
        (f := copyUnit 8) (g := fun i => copied m dest src (8 * i)) (l := l / 8)
        (fun i hi => copyUnit_copied (by omega))
        (longNull_ends (by rw [copied_next (by omega) hapart, h.nul])) (show l / 8 < n by omega)
      refine ⟨8 * k, by omega, ?_⟩
      rw [hstart]
      exact hrun
    · exact ⟨0, Nat.zero_le l, congrArg some hstart⟩
  obtain ⟨i, hi, hwords⟩ := hwords
  rw [hwords, Option.bind_some]
  obtain ⟨k, hk, hrun, hend, -⟩ := whileLoop_ends (c := fun s : Mem × Nat × Nat => s.1 s.2.2 != 0) (f := copyUnit 1)
    (g := fun j => copied m dest src (i + j)) (l := l - i) (fun j hj => copyUnit_copied (by omega))
    (by
      rw [bne_eq_false_iff_eq, Nat.add_sub_cancel' hi]
      exact (copied_next (Nat.le_refl l) hapart).trans h.nul) (show l - i < n by omega)
  have hread : (copied m dest src (i + k)).1 (src + (i + k)) = m (src + (i + k)) :=
    copied_next (Nat.le_refl _) (by omega)
  have hnul : m (src + (i + k)) = 0 := hread.symm.trans (bne_eq_false_iff_eq.1 hend)
  rw [Nat.add_zero] at hrun
  rw [hrun, Option.map_some, h.ends (by omega) hnul, copyUnit_copied (by omega)]
  rfl

/-- `strcat` puts a copy of the second string in the place of the terminator of the first one and changes no other
byte. -/
theorem strcat_appends {k : Nat} (hdest : IsString m dest l) (hsrc : IsString m src k)
    (hapart : dest + l ≤ src ∨ src + k < dest + l) (hn : l < n ∧ k < n) :
    ∃ m', strcat m n dest src = some (m', dest) ∧ m' = copy m (dest + l) src (k + 1) ∧ IsString m' dest (l + k) := by
  refine ⟨copy m (dest + l) src (k + 1), ?_, rfl, fun i hi => ?_, ?_⟩
  · have hwords : ∃ i ≤ l, (if dest &&& 7 = 0 then Pml.Util.skipWords m n dest else some dest) = some (dest + i) := by
      split
      · exact hdest.skipWords hn.1
      · exact ⟨0, Nat.zero_le l, rfl⟩
    obtain ⟨i, hi, hwords⟩ := hwords
    unfold strcat
    rw [hwords, Option.bind_some, (hdest.drop hi).skipBytes (by omega), Option.bind_some, Nat.add_assoc,
      Nat.add_sub_cancel' hi, hsrc.strcpy hapart hn.2]
    rfl
  · by_cases hil : i < l
    · rw [copy_outside (by omega)]
      exact hdest.char i hil
    · obtain ⟨j, rfl⟩ := Nat.exists_eq_add_of_le (Nat.le_of_not_lt hil)
      rw [← Nat.add_assoc, copy_inside (by omega)]
      exact hsrc.char j (by omega)
  · rw [← Nat.add_assoc, copy_inside (Nat.lt_succ_self k)]
    exact hsrc.nul

theorem strcat_appends_text : ∃ m', strcat text 3 0 3 = some (m', 0) ∧ IsString m' 0 4 :=
  have ⟨m', h, _, hstring⟩ :=
    strcat_appends text_first text_second (Or.inl (by decide)) (show 2 < 3 ∧ 2 < 3 by decide)
  ⟨m', h, hstring⟩

/-! ### Searching -/

def OccursAt (m : Mem) (needle k p : Nat) : Prop := ∀ j < k, m (p + j) = m (needle + j)

/-- `strstr` finds the first place before the terminator at which the second string is.  So it does not find an empty
string in an empty one. -/
theorem strstr_finds {needle k : Nat} (h : IsString m a l) (hneedle : IsString m needle k) (hn : l < n ∧ k < n) :
    ∃ r, strstr m n a needle = some r ∧ (r = none ↔ ∀ i < l, ¬ OccursAt m needle k (a + i)) ∧
      ∀ p ∈ r, ∃ i < l, p = a + i ∧ OccursAt m needle k p ∧ ∀ j < i, ¬ OccursAt m needle k (a + j) := by
  have hcmp : ∀ p, memcmp m p needle k = 0 ↔ OccursAt m needle k p := fun p => by
    rw [memcmp_bytes]
    exact (compareBytes_compares p needle k).1
  obtain ⟨i, hi, hrun, hend, hall⟩ :=
    whileLoop_ends (c := fun p => m p != 0 && memcmp m p needle k != 0) (f := (· + 1))
    (g := fun i => a + i) (fun i _ => rfl) (by simp [h.nul]) hn.1
  have hnot : ∀ j < i, ¬ OccursAt m needle k (a + j) := by
    intro j hj hocc
    have hj' := hall j hj
    rw [(hcmp _).2 hocc, bne_self_eq_false, Bool.and_false] at hj'
    cases hj'
  rw [Nat.add_zero] at hrun
  unfold strstr
  rw [hneedle.strlen hn.2, Option.bind_some, hrun, Option.map_some]
  refine ⟨_, rfl, ?_⟩
  by_cases hnul : m (a + i) = 0
  · rw [if_pos hnul]
    obtain rfl := h.ends hi hnul
    exact ⟨iff_of_true rfl hnot, fun p hp => by cases hp⟩
  · have hlt : i < l := by
      refine Nat.lt_of_le_of_ne hi fun hil => hnul ?_
      rw [hil]
      exact h.nul
    have hocc : OccursAt m needle k (a + i) := by
      rw [← hcmp]
      simpa [hnul] using hend
    rw [if_neg hnul]
    refine ⟨iff_of_false (Option.some_ne_none _) fun hno => hno i hlt hocc, ?_⟩
    rintro p hp
    obtain rfl := Option.some.inj hp
    exact ⟨i, hlt, rfl, hocc, hnot⟩

/-- The string `b` is in `ab`. -/
theorem strstr_finds_text : ∃ p, strstr text 3 0 1 = some (some p) := by
  obtain ⟨r, hr, hnone, -⟩ := @strstr_finds text 0 2 3 1 1 text_first ⟨by decide, rfl⟩ (show 2 < 3 ∧ 1 < 3 by decide)
  cases r with
  | none => exact absurd (fun _ _ => rfl) (hnone.1 rfl 1 (by decide))
  | some p => exact ⟨p, hr⟩

end Pml.Util
