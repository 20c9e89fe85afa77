import Mathlib.Data.List.Basic
import Mathlib.Logic.Function.Basic
import Orfos.Base.Ring

/-!
# The console

The line buffer of `kernel/console/console.cpp` with `consoleInterrupt` and `readline`, for any
number of readers. A step is a byte that is typed or a round of the loop of `readline`; both hold
`cons.mutex`. A reader that sleeps may look at the positions again at any time. What the console
echoes is left out.

Beside the buffer runs a terminal with all bytes that were ever typed and not erased. It says what
the positions count, and no step of the buffer looks at it.
-/

namespace Orfos.Console

open Orfos.Base

/-- `BUF_SIZE`. -/
abbrev BUF_SIZE : Nat := 1024

/-- `cons`. -/
structure Cons where
  buf : Fin BUF_SIZE → UInt8
  readPos : UInt64
  writePos : UInt64
  editPos : UInt64

/-- The place of a position. -/
def index (pos : UInt64) : Fin BUF_SIZE := Ring.place BUF_SIZE pos.toNat

/-- `'\b'` and `'\x7f'`. -/
def Erases (c : UInt8) : Prop := c = 0x08 ∨ c = 0x7f

instance (c : UInt8) : Decidable (Erases c) := inferInstanceAs (Decidable (_ ∨ _))

/-- A typed byte as it is stored. -/
def stored (c : UInt8) : UInt8 := if c = 0x0d then 0x0a else c

/-- `consoleInterrupt`. -/
def consoleInterrupt (s : Cons) (c : UInt8) : Cons :=
  if Erases c then
    if s.editPos ≠ s.writePos then { s with editPos := s.editPos - 1 } else s
  else if c = 0 then s
  else if s.editPos - s.readPos < UInt64.ofNat BUF_SIZE then
    let s := { s with
      buf := Function.update s.buf (index s.editPos) (stored c)
      editPos := s.editPos + 1 }
    if stored c = 0x0a ∨ stored c = 0x04 ∨ s.editPos - s.readPos = UInt64.ofNat BUF_SIZE then
      { s with writePos := s.editPos }
    else s
  else s

/-- What was typed and not erased, how much of it is committed, and how much is read. -/
structure Terminal where
  line : List UInt8
  committed : Nat
  read : Nat

/-- A byte is typed. -/
def Terminal.type (s : Terminal) (c : UInt8) : Terminal :=
  if Erases c then
    if s.committed < s.line.length then { s with line := s.line.dropLast } else s
  else if c = 0 then s
  else if s.line.length < s.read + BUF_SIZE then
    let s := { s with line := s.line ++ [stored c] }
    if stored c = 0x0a ∨ stored c = 0x04 ∨ s.line.length = s.read + BUF_SIZE then
      { s with committed := s.line.length }
    else s
  else s

/-- A reader: in no call, or in one with `len` bytes of `max` left that has taken `taken` bytes out
of the buffer and has put `got` where it reads to. -/
inductive Reader where
  | idle
  | reading (len max taken : Nat) (got : List UInt8)

/-- A call of `readline` that has returned: its length, how many bytes it took out of the buffer,
the bytes it delivered, the byte that ended it, and the value that it returned. -/
structure Call where
  max : Nat
  taken : Nat
  got : List UInt8
  last : Option UInt8
  ret : Nat
  deriving DecidableEq

/-- The buffer, its readers, the terminal, the bytes delivered and the calls that returned. -/
structure Machine where
  cons : Cons
  readers : Nat → Reader
  terminal : Terminal
  delivered : List UInt8
  calls : List Call

/-- What happens: a byte is typed, a reader calls `consoleRead`, and a reader goes through the loop
of `readline`, where `copied` is what `eitherCopyout` returns. -/
inductive Event where
  | type (c : UInt8)
  | read (t : Nat) (n : Int32)
  | turn (t : Nat) (copied : Bool)

namespace Machine

/-- `readline` returns a `char`. -/
def return_ (s : Machine) (t len max taken : Nat) (got : List UInt8) (last : Option UInt8) :
    Machine :=
  { s with
    readers := Function.update s.readers t .idle
    calls := s.calls ++ [⟨max, taken, got, last, (max - len) % 256⟩] }

/-- Take the next byte, or leave it where it is. -/
def advance (s : Machine) (back : Bool) : Machine :=
  { s with
    cons := { s.cons with
      readPos := if back then s.cons.readPos + 1 - 1 else s.cons.readPos + 1 }
    terminal := { s.terminal with
      read := if back then s.terminal.read else s.terminal.read + 1 } }

/-- Put a byte into the buffer of a reader. -/
def deliver (s : Machine) (t len max taken : Nat) (got : List UInt8) (c : UInt8) : Machine :=
  { s with
    readers := Function.update s.readers t (.reading len max taken (got ++ [c]))
    delivered := s.delivered ++ [c] }

/-- A round of the loop of `readline`, or its end. -/
def turn (s : Machine) (t : Nat) (copied : Bool) : Option Machine :=
  match s.readers t with
  | .idle => none
  | .reading len max taken got =>
    if len = 0 then some (s.return_ t len max taken got none)
    else if s.cons.readPos = s.cons.writePos then some s
    else
      let c := s.cons.buf (index s.cons.readPos)
      let back : Bool := c = 0x04 ∧ len < max
      let s := s.advance back
      let taken := if back then taken else taken + 1
      if copied then
        let s := s.deliver t (len - 1) max taken got c
        if c = 0x0a then some (s.return_ t (len - 1) max taken (got ++ [c]) (some c)) else some s
      else some (s.return_ t len max taken got (some c))

/-- One step. The length of a call is converted to `size_t`. -/
def step (s : Machine) : Event → Option Machine
  | .type c => some { s with
      cons := consoleInterrupt s.cons c
      terminal := s.terminal.type c }
  | .read t n =>
    match s.readers t with
    | .reading .. => none
    | .idle =>
      let max := n.toInt64.toUInt64.toNat
      some { s with readers := Function.update s.readers t (.reading max max 0 []) }
  | .turn t copied => s.turn t copied

end Machine

/-- The console before the first byte. -/
structure Machine.Initial (s : Machine) : Prop where
  positions : s.cons.readPos = 0 ∧ s.cons.writePos = 0 ∧ s.cons.editPos = 0
  terminal : s.terminal = ⟨[], 0, 0⟩
  readers : ∀ t, s.readers t = .idle
  delivered : s.delivered = []
  calls : s.calls = []

/-- The console with a buffer of zero bytes. -/
def boot : Machine where
  cons := ⟨fun _ ↦ 0, 0, 0, 0⟩
  readers := fun _ ↦ .idle
  terminal := ⟨[], 0, 0⟩
  delivered := []
  calls := []

theorem boot_initial : boot.Initial := ⟨⟨rfl, rfl, rfl⟩, rfl, fun _ ↦ rfl, rfl, rfl⟩

end Orfos.Console
