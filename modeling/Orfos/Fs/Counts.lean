import Orfos.Fs.Lookup

/-!
# References and locks on the way along a path

`lock`, `unlock` and `open` as far as they count references and locks, from every state and for
every content of the disk.
-/

namespace Orfos.Fs

open Orfos.Base Orfos.Base.Traced Orfos.Lib

namespace Inode

variable {s : State} {r : Nat → UInt32} {l : Nat → Bool} {i : Nat}

/-- What `open` counts. -/
def Counted (r : Nat → UInt32) (l : Nat → Bool) (found : Option Nat) (t : State) : Prop :=
  match found with
  | none => Tally t r l
  | some i => Tally t (Function.update r i (r i + 1)) l ∧ i < t.itable.next

end Inode
end Orfos.Fs
