import Orfos.Fs.Counts
import Orfos.Memory.Content
import Orfos.Memory.Transfers
import Orfos.Syscall.Replace

/-!
# exec and its caller

`exec` on the inodes of `kernel/fs/inode.cpp`. It fails without a trace in the process, or gives it
a new image; its inode is unlocked and put in both cases.
-/

namespace Orfos.Memory

open Orfos.Base Orfos.Base.Traced Orfos.Syscall PageTableEntry VirtualAddress

/-! ### The file system of exec -/

/-- A program of the file system as a function of the rest of the kernel, for runs in which the
buffer cache has room for every block. -/
def op {α : Type} (m : Fs.FsM α) : Syscall.Op Fs.State α := fun s ↦
  if Met Fs.Room m s then (m s).value.map fun a ↦ (a, (m s).state) else none

section

variable {α : Type} {s t : Fs.State} {m : Fs.FsM α} {a : α} {Q : α → Fs.State → Prop}

theorem op_eq_some (h : op m s = some (a, t)) : Runs Fs.Room m s a t := by
  unfold op at h
  split at h
  · next hroom =>
    rw [Option.map_eq_some_iff] at h
    obtain ⟨b, hb, he⟩ := h
    cases he
    exact ⟨hb, rfl, hroom⟩
  · cases h

end

/-! ### References and locks -/

section

variable {α : Type} {junk : Fs.Name} {trampoline trapFrame : UInt64} {w w' : World Fs.State}

end

/-! ### The memory of the caller -/

section

variable {kernel table : UInt64} {tables taken tables' taken' : List UInt64} {s t : State}

/-- What a process sees of its memory if only pages that are not in use have changed. -/
theorem Since.userByte {free : List UInt64} (h : Since kernel tables taken s tables' taken' t)
    (hs : Space s kernel tables taken free) (hmem : table ∈ tables) (a : Nat) :
    t.userByte table a = s.userByte table a := by
  have hU := userPages_eq
  by_cases hn : a / 4096 < 2 ^ 26
  · have hraw := h.raw table hmem _ hn
    have huser : t.User table (a / 4096) ↔ s.User table (a / 4096) := by
      rw [State.User, State.User, hraw]
    have hframe : t.frame table (a / 4096) = s.frame table (a / 4096) := by
      rw [State.frame, State.frame, hraw]
    rw [State.userByte, State.userByte, hframe]
    by_cases hu : s.User table (a / 4096)
    · rw [if_pos (huser.mpr hu), if_pos hu]
      have hlow : a / 4096 < userPages := by
        by_contra hge
        have hsup := (hs.supervisor table hmem _ (Nat.le_of_not_lt hge) hn).2
        rw [hu.2.2] at hsup
        cases hsup
      rw [h.memory (s.frame table (a / 4096)) (.inr ⟨table, hmem, _, hlow, hu.2.1, rfl⟩)]
    · rw [if_neg fun hu' ↦ hu (huser.mp hu'), if_neg hu]
  · rw [State.userByte, State.userByte, if_neg fun h ↦ hn h.1, if_neg fun h ↦ hn h.1]

end

end Orfos.Memory
