import Pml.Basic

/-!
# User and group IDs (`kernel/pid.c`)

A process has a real, an effective and a saved user ID, the same for groups, and a list of supplementary groups.  A
process whose effective user ID is not 0 can only set an ID to one that it already has, in the order of the
assignments of `sys_setreuid` too (`setRe_within`).
-/

namespace Pml.Kernel

/-- `(uid_t) -1`: leave an ID as it is. -/
def noId : UInt32 := 0xffffffff

def ngroupsMax : Nat := 16

/-- The real, the effective and the saved ID. -/
structure Ids where
  real : UInt32
  effective : UInt32
  saved : UInt32
  deriving DecidableEq

/-- The IDs of `struct process`; `groups` are the first `nsup_gids` members of `sup_gids`. -/
structure Credentials where
  user : Ids
  group : Ids
  groups : List UInt32
  deriving DecidableEq

namespace Ids

/-- `sys_setuid` and `sys_setgid`; `root` says whether the effective user ID is 0. -/
def setAll (s : Ids) (root : Bool) (id : UInt32) : Except Errno Ids :=
  if root = false ∧ s.real ≠ id then .error .EPERM else .ok ⟨id, id, id⟩

/-- `sys_setreuid` and `sys_setregid` -/
def setRe (s : Ids) (root : Bool) (real effective : UInt32) : Except Errno Ids :=
  if root = false ∧ real ≠ noId ∧ real ≠ s.real ∧ real ≠ s.effective then .error .EPERM
  else if root = false ∧ effective ≠ noId ∧ effective ≠ s.real ∧ effective ≠ s.effective ∧ effective ≠ s.saved then
    .error .EPERM
  else
    let s :=
      if effective ≠ noId then
        let s := if s.real ≠ effective then { s with saved := effective } else s
        { s with effective := effective }
      else s
    .ok (if real ≠ noId then { s with real := real, saved := s.effective } else s)

def refused (s : Ids) (root : Bool) (id : UInt32) : Prop :=
  root = false ∧ id ≠ noId ∧ id ≠ s.real ∧ id ≠ s.effective ∧ id ≠ s.saved

instance (s : Ids) (root : Bool) (id : UInt32) : Decidable (s.refused root id) :=
  inferInstanceAs (Decidable (_ ∧ _))

/-- `sys_setresuid` and `sys_setresgid` -/
def setRes (s : Ids) (root : Bool) (real effective saved : UInt32) : Except Errno Ids :=
  if s.refused root real then .error .EPERM
  else if s.refused root effective then .error .EPERM
  else if s.refused root saved then .error .EPERM
  else
    let s := if real ≠ noId then { s with real := real } else s
    let s := if effective ≠ noId then { s with effective := effective } else s
    .ok (if saved ≠ noId then { s with saved := saved } else s)

end Ids

namespace Credentials

def root (c : Credentials) : Bool := c.user.effective == 0

/-- A call that sets the user IDs; it returns -1 with an error number, or 0. -/
def setUser (c : Credentials) (r : Except Errno Ids) : Credentials × Option Errno :=
  match r with
  | .error e => (c, some e)
  | .ok ids => ({ c with user := ids }, none)

def setGroup (c : Credentials) (r : Except Errno Ids) : Credentials × Option Errno :=
  match r with
  | .error e => (c, some e)
  | .ok ids => ({ c with group := ids }, none)

def sysSetuid (c : Credentials) (uid : UInt32) : Credentials × Option Errno := c.setUser (c.user.setAll c.root uid)

def sysSetreuid (c : Credentials) (ruid euid : UInt32) : Credentials × Option Errno :=
  c.setUser (c.user.setRe c.root ruid euid)

def sysSetresuid (c : Credentials) (ruid euid suid : UInt32) : Credentials × Option Errno :=
  c.setUser (c.user.setRes c.root ruid euid suid)

def sysSeteuid (c : Credentials) (euid : UInt32) : Credentials × Option Errno := c.sysSetresuid noId euid noId

def sysSetgid (c : Credentials) (gid : UInt32) : Credentials × Option Errno := c.setGroup (c.group.setAll c.root gid)

def sysSetregid (c : Credentials) (rgid egid : UInt32) : Credentials × Option Errno :=
  c.setGroup (c.group.setRe c.root rgid egid)

def sysSetresgid (c : Credentials) (rgid egid sgid : UInt32) : Credentials × Option Errno :=
  c.setGroup (c.group.setRes c.root rgid egid sgid)

def sysSetegid (c : Credentials) (egid : UInt32) : Credentials × Option Errno := c.sysSetresgid noId egid noId

def sysSetgroups (c : Credentials) (list : List UInt32) : Credentials × Option Errno :=
  if c.root = false then (c, some .EPERM)
  else if ngroupsMax < list.length then (c, some .EINVAL)
  else ({ c with groups := list }, none)

end Credentials

/-- The calls that set IDs. -/
inductive IdCall
  | setuid (uid : UInt32)
  | seteuid (euid : UInt32)
  | setreuid (ruid euid : UInt32)
  | setresuid (ruid euid suid : UInt32)
  | setgid (gid : UInt32)
  | setegid (egid : UInt32)
  | setregid (rgid egid : UInt32)
  | setresgid (rgid egid sgid : UInt32)
  | setgroups (list : List UInt32)

/-- One call: the IDs after it, and its error. -/
def idCall (c : Credentials) : IdCall → Credentials × Option Errno
  | .setuid uid => c.sysSetuid uid
  | .seteuid euid => c.sysSeteuid euid
  | .setreuid ruid euid => c.sysSetreuid ruid euid
  | .setresuid ruid euid suid => c.sysSetresuid ruid euid suid
  | .setgid gid => c.sysSetgid gid
  | .setegid egid => c.sysSetegid egid
  | .setregid rgid egid => c.sysSetregid rgid egid
  | .setresgid rgid egid sgid => c.sysSetresgid rgid egid sgid
  | .setgroups list => c.sysSetgroups list

def idRun (c : Credentials) (calls : List IdCall) : Credentials := calls.foldl (fun c call => (idCall c call).1) c

def Ids.values (s : Ids) : List UInt32 := [s.real, s.effective, s.saved]

section

variable {s s' : Ids} {c c' : Credentials}

private theorem mem_values {x : UInt32} : x ∈ s.values ↔ x = s.real ∨ x = s.effective ∨ x = s.saved := by
  simp [Ids.values]

private theorem within_of (h1 : s'.real ∈ s.values) (h2 : s'.effective ∈ s.values) (h3 : s'.saved ∈ s.values) :
    s'.values ⊆ s.values := by
  intro x hx
  rcases mem_values.1 hx with rfl | rfl | rfl
  · exact h1
  · exact h2
  · exact h3

private theorem real_mem (s : Ids) : s.real ∈ s.values := mem_values.2 (Or.inl rfl)

private theorem effective_mem (s : Ids) : s.effective ∈ s.values := mem_values.2 (Or.inr (Or.inl rfl))

private theorem saved_mem (s : Ids) : s.saved ∈ s.values := mem_values.2 (Or.inr (Or.inr rfl))

/-! ### One call -/

private theorem setAll_within {id : UInt32} (h : s.setAll false id = .ok s') : s'.values ⊆ s.values := by
  unfold Ids.setAll at h
  split at h
  · cases h
  · rename_i hcheck
    cases h
    have hid : id = s.real := by
      by_contra hne
      exact hcheck ⟨rfl, Ne.symm hne⟩
    rw [hid]
    exact within_of (real_mem s) (real_mem s) (real_mem s)

private theorem setRe_within {real effective : UInt32} (h : s.setRe false real effective = .ok s') :
    s'.values ⊆ s.values := by
  unfold Ids.setRe at h
  split at h
  · cases h
  · rename_i hreal
    split at h
    · cases h
    · rename_i heffective
      simp only [true_and, not_and, not_not] at hreal heffective
      have hreal' : real ≠ noId → real ∈ s.values := by
        intro hid
        by_cases hr : real = s.real
        · exact mem_values.2 (Or.inl hr)
        · exact mem_values.2 (Or.inr (Or.inl (hreal hid hr)))
      have heffective' : effective ≠ noId → effective ∈ s.values := by
        intro hid
        by_cases hr : effective = s.real
        · exact mem_values.2 (Or.inl hr)
        · by_cases he : effective = s.effective
          · exact mem_values.2 (Or.inr (Or.inl he))
          · exact mem_values.2 (Or.inr (Or.inr (heffective hid hr he)))
      cases h
      -- The assignments to the effective ID come first, and the new saved ID can be the new effective one.
      have hfirst : ∀ t : Ids, t = (if effective ≠ noId then
          { (if s.real ≠ effective then { s with saved := effective } else s) with effective := effective } else s) →
          t.values ⊆ s.values := by
        rintro t rfl
        by_cases hid : effective ≠ noId
        · rw [if_pos hid]
          by_cases hr : s.real ≠ effective
          · rw [if_pos hr]
            exact within_of (real_mem s) (heffective' hid) (heffective' hid)
          · rw [if_neg hr]
            exact within_of (real_mem s) (heffective' hid) (saved_mem s)
        · rw [if_neg hid]
          exact List.Subset.refl _
      by_cases hid : real ≠ noId
      · rw [if_pos hid]
        exact within_of (hreal' hid) (hfirst _ rfl (effective_mem _)) (hfirst _ rfl (effective_mem _))
      · rw [if_neg hid]
        exact hfirst _ rfl

private theorem mem_of_not_refused {id : UInt32} (h : ¬s.refused false id) (hid : id ≠ noId) : id ∈ s.values := by
  by_contra hnot
  rw [mem_values, not_or, not_or] at hnot
  exact h ⟨rfl, hid, hnot⟩

private theorem set_mem {id old : UInt32} (h : ¬s.refused false id) (hold : old ∈ s.values) :
    (if id ≠ noId then id else old) ∈ s.values := by
  by_cases hid : id ≠ noId
  · rw [if_pos hid]
    exact mem_of_not_refused h hid
  · rw [if_neg hid]
    exact hold

private theorem setRes_within {real effective saved : UInt32} (h : s.setRes false real effective saved = .ok s') :
    s'.values ⊆ s.values := by
  unfold Ids.setRes at h
  split at h
  · cases h
  · rename_i hreal
    split at h
    · cases h
    · rename_i heffective
      split at h
      · cases h
      · rename_i hsaved
        have hs : s' = ⟨if real ≠ noId then real else s.real, if effective ≠ noId then effective else s.effective,
            if saved ≠ noId then saved else s.saved⟩ := by
          cases h
          by_cases hr : real = noId <;> by_cases he : effective = noId <;> by_cases hv : saved = noId <;>
            simp [hr, he, hv]
        rw [hs]
        exact within_of (set_mem hreal (real_mem s)) (set_mem heffective (effective_mem s))
          (set_mem hsaved (saved_mem s))

/-! ### Calls of a process that is not root -/

/-- The IDs of `c'` are among those of `c`, and the supplementary groups are the same. -/
structure Credentials.Within (c' c : Credentials) : Prop where
  user : c'.user.values ⊆ c.user.values
  group : c'.group.values ⊆ c.group.values
  groups : c'.groups = c.groups

theorem Credentials.Within.refl (c : Credentials) : c.Within c := ⟨List.Subset.refl _, List.Subset.refl _, rfl⟩

theorem Credentials.Within.trans {c'' : Credentials} (h : c''.Within c') (h' : c'.Within c) : c''.Within c :=
  ⟨List.Subset.trans h.user h'.user, List.Subset.trans h.group h'.group, h.groups.trans h'.groups⟩

private theorem setUser_within {r : Except Errno Ids} (h : ∀ s, r = .ok s → s.values ⊆ c.user.values) :
    (c.setUser r).1.Within c := by
  cases r with
  | error e => exact Credentials.Within.refl c
  | ok s => exact ⟨h s rfl, List.Subset.refl _, rfl⟩

private theorem setGroup_within {r : Except Errno Ids} (h : ∀ s, r = .ok s → s.values ⊆ c.group.values) :
    (c.setGroup r).1.Within c := by
  cases r with
  | error e => exact Credentials.Within.refl c
  | ok s => exact ⟨List.Subset.refl _, h s rfl, rfl⟩

private theorem idCall_within (hroot : c.root = false) (call : IdCall) : (idCall c call).1.Within c := by
  cases call with
  | setuid uid => exact setUser_within fun s hs => setAll_within (hroot ▸ hs)
  | seteuid euid => exact setUser_within fun s hs => setRes_within (hroot ▸ hs)
  | setreuid ruid euid => exact setUser_within fun s hs => setRe_within (hroot ▸ hs)
  | setresuid ruid euid suid => exact setUser_within fun s hs => setRes_within (hroot ▸ hs)
  | setgid gid => exact setGroup_within fun s hs => setAll_within (hroot ▸ hs)
  | setegid egid => exact setGroup_within fun s hs => setRes_within (hroot ▸ hs)
  | setregid rgid egid => exact setGroup_within fun s hs => setRe_within (hroot ▸ hs)
  | setresgid rgid egid sgid => exact setGroup_within fun s hs => setRes_within (hroot ▸ hs)
  | setgroups list =>
    have hcall : (c.sysSetgroups list).1 = c := by
      unfold Credentials.sysSetgroups
      rw [if_pos hroot]
    change (c.sysSetgroups list).1.Within c
    rw [hcall]
    exact Credentials.Within.refl c

private theorem setUser_failed {r : Except Errno Ids} (h : (c.setUser r).2 ≠ none) : (c.setUser r).1 = c := by
  cases r with
  | error e => rfl
  | ok s => exact absurd rfl h

private theorem setGroup_failed {r : Except Errno Ids} (h : (c.setGroup r).2 ≠ none) : (c.setGroup r).1 = c := by
  cases r with
  | error e => rfl
  | ok s => exact absurd rfl h

private theorem idCall_failed (c : Credentials) (call : IdCall) (h : (idCall c call).2 ≠ none) :
    (idCall c call).1 = c := by
  cases call with
  | setuid uid => exact setUser_failed h
  | seteuid euid => exact setUser_failed h
  | setreuid ruid euid => exact setUser_failed h
  | setresuid ruid euid suid => exact setUser_failed h
  | setgid gid => exact setGroup_failed h
  | setegid egid => exact setGroup_failed h
  | setregid rgid egid => exact setGroup_failed h
  | setresgid rgid egid sgid => exact setGroup_failed h
  | setgroups list =>
    change (c.sysSetgroups list).2 ≠ none at h
    change (c.sysSetgroups list).1 = c
    unfold Credentials.sysSetgroups at h ⊢
    split
    · rfl
    · split
      · rfl
      · rename_i h1 h2
        rw [if_neg h1, if_neg h2] at h
        exact absurd rfl h

private theorem root_false_of_within (h : (0 : UInt32) ∉ c.user.values) (hw : c'.Within c) : c'.root = false := by
  have hne : c'.user.effective ≠ 0 := fun he => h (he ▸ hw.user (effective_mem _))
  simpa [Credentials.root] using hne

/-- A process whose user IDs are not 0 cannot gain IDs, whatever calls it makes, and a call that fails changes
nothing. -/
theorem ids_kept {c : Credentials} (h : (0 : UInt32) ∉ c.user.values) (calls : List IdCall) :
    (idRun c calls).Within c ∧
    ∀ call, (idCall (idRun c calls) call).2 ≠ none → (idCall (idRun c calls) call).1 = idRun c calls := by
  refine ⟨?_, fun call => idCall_failed _ call⟩
  have hrun : ∀ calls c', c'.Within c → (idRun c' calls).Within c := by
    intro calls
    induction calls with
    | nil => exact fun c' hw => hw
    | cons call calls ih =>
      intro c' hw
      exact ih _ ((idCall_within (root_false_of_within h hw) call).trans hw)
  exact hrun calls c (Credentials.Within.refl c)

/-- A process with a saved ID of its own takes it back. -/
theorem ids_kept_small :
    (idRun ⟨⟨1000, 1000, 1001⟩, ⟨100, 100, 100⟩, [27]⟩ [.seteuid 1001, .setreuid 1001 noId]).Within
    ⟨⟨1000, 1000, 1001⟩, ⟨100, 100, 100⟩, [27]⟩ :=
  (ids_kept (by decide) _).1

end

end Pml.Kernel
