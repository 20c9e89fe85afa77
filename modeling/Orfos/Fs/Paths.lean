import Mathlib.Data.List.DropRight
import Mathlib.Data.List.TakeWhile
import Orfos.Fs.Create

/-!
# Paths and their components

The component of a path between two slashes is cut to `MAX_DIR_NAME_LENGTH` bytes. `Inode::open`
follows the components one after the other through the directories, from the root or from the
working directory. It gives back every reference and every lock that it takes on the way, and
returns.
-/

namespace Orfos.Fs

open Orfos.Base Orfos.Base.Traced Orfos.Lib

/-- The non-empty parts of a path between slashes, each cut to the length of a name. -/
def components (path : List UInt8) : List (List UInt8) :=
  ((path.splitOn 47).filter (· ≠ [])).map (List.take MAX_DIR_NAME_LENGTH)

/-- The name buffer holds a component, and a zero byte behind it if there is room for one. -/
def Written (c : List UInt8) (name : Name) : Prop :=
  ∀ k : Fin MAX_DIR_NAME_LENGTH, k.val ≤ c.length → name k = (c ++ [0]).getD k 0

/-- The number that a directory has for a component; any other inode has none. -/
def child (s : State) (n : UInt32) (c : List UInt8) : Option UInt32 :=
  if (dinodeOf s n).type = T_DIR then listed s (dinodeOf s n) (literal c) else none

/-- Where a path leads to from an inode. -/
def target (s : State) (start : UInt32) (path : List UInt8) : Option UInt32 :=
  (components path).foldlM (child s) start

section

variable {path rest c : List UInt8} {name name' : Name}

/-- What `strncmp` finds for a name is decided by the bytes up to the first zero byte. -/
theorem strncmpZero_append (overrun : Bool) (c x y bs : List UInt8) :
    strncmpZero overrun (c ++ 0 :: x) bs = strncmpZero overrun (c ++ 0 :: y) bs := by
  induction c generalizing bs with
  | nil =>
    cases bs with
    | nil => rfl
    | cons b bs => simp [strncmpZero]
  | cons a c ih =>
    cases bs with
    | nil => rfl
    | cons b bs => simp only [List.cons_append, strncmpZero, ih]

/-- The bytes of a written name. -/
theorem Written.bytes (h : Written c name) (hc : c.length ≤ MAX_DIR_NAME_LENGTH) :
    List.ofFn name = c ++ (List.ofFn name).drop c.length ∧
      ((List.ofFn name).drop c.length).head? =
        if c.length < MAX_DIR_NAME_LENGTH then some 0 else none := by
  have hlen : (List.ofFn name).length = MAX_DIR_NAME_LENGTH := List.length_ofFn
  constructor
  · conv_lhs => rw [← List.take_append_drop c.length (List.ofFn name)]
    congr 1
    refine List.ext_getElem (by rw [List.length_take, hlen]; omega) fun k hk hk' ↦ ?_
    have hval := h ⟨k, by omega⟩ (Nat.le_of_lt hk')
    rw [List.getElem_take, List.getElem_ofFn, hval, List.getD_eq_getElem?_getD,
      List.getElem?_append_left hk', List.getElem?_eq_getElem hk']
    rfl
  · rw [List.head?_drop]
    split
    · next hlt =>
      rw [List.getElem?_eq_getElem (by omega), List.getElem_ofFn, h ⟨c.length, hlt⟩ (Nat.le_refl _)]
      simp
    · next hge =>
      rw [List.getElem?_eq_none (by omega)]

theorem written_literal (c : List UInt8) : Written c (literal c) := by
  intro k hk
  change c.getD k 0 = _
  rw [List.getD_eq_getElem?_getD, List.getD_eq_getElem?_getD]
  by_cases hlt : k.val < c.length
  · rw [List.getElem?_append_left hlt]
  · have he : k.val = c.length := by omega
    rw [he, List.getElem?_eq_none (Nat.le_refl _)]
    simp

/-- A written name is found where its component is. -/
theorem Written.strncmpZero (h : Written c name) (hc : c.length ≤ MAX_DIR_NAME_LENGTH)
    (overrun : Bool) (bs : List UInt8) :
    strncmpZero overrun (List.ofFn name) bs = strncmpZero overrun (List.ofFn (literal c)) bs := by
  obtain ⟨hbytes, hhead⟩ := h.bytes hc
  obtain ⟨hbytes', hhead'⟩ := (written_literal c).bytes hc
  rw [hbytes, hbytes']
  by_cases hlt : c.length < MAX_DIR_NAME_LENGTH
  · rw [if_pos hlt] at hhead hhead'
    obtain ⟨x, hx⟩ := List.head?_eq_some_iff.mp hhead
    obtain ⟨y, hy⟩ := List.head?_eq_some_iff.mp hhead'
    rw [hx, hy]
    exact strncmpZero_append overrun c x y bs
  · rw [if_neg hlt] at hhead hhead'
    rw [List.head?_eq_none_iff.mp hhead, List.head?_eq_none_iff.mp hhead']

theorem Written.listed (h : Written c name) (hc : c.length ≤ MAX_DIR_NAME_LENGTH) (s : State)
    (d : DiskInode) : listed s d name = listed s d (literal c) := by
  have hnames : ∀ entry, Names s name entry ↔ Names s (literal c) entry := by
    intro entry
    rw [Names, Names, h.strncmpZero hc]
  have hfrom : ∀ n k, listedFrom s d name n k = listedFrom s d (literal c) n k := by
    intro n
    induction n with
    | zero => exact fun _ ↦ rfl
    | succ n ih =>
      intro k
      simp only [listedFrom, hnames, ih]
  exact hfrom _ _

end

/-- Every entry of a directory names an inode in use. -/
def Linked (s : State) : Prop :=
  ∀ n < s.superBlock.numInodes, (dinodeOf s n).type = T_DIR →
    ∀ k < (dinodeOf s n).size.toNat / ENTRY_SIZE,
      inumOf (entryAt s (dinodeOf s n) (ENTRY_SIZE * k)) ≠ 0 →
        (dinodeOf s (inumOf (entryAt s (dinodeOf s n) (ENTRY_SIZE * k)))).type ≠ 0

section

variable {p : Prop} {s t : State} {home : Nat → UInt32} {r : Nat → UInt32} {l : Nat → Bool}
  {i : Nat} {name : Name}

/-- What a directory lists is in use. -/
theorem Linked.listed (h : Linked s) {n m : UInt32} (hn : n < s.superBlock.numInodes)
    (hd : (dinodeOf s n).type = T_DIR) (hm : Fs.listed s (dinodeOf s n) name = some m) :
    (dinodeOf s m).type ≠ 0 := by
  have hfrom : ∀ j k, k + j = (dinodeOf s n).size.toNat / ENTRY_SIZE →
      listedFrom s (dinodeOf s n) name j k = some m → (dinodeOf s m).type ≠ 0 := by
    intro j
    induction j with
    | zero => exact fun k _ h ↦ by cases h
    | succ j ih =>
      intro k hk hl
      rw [listedFrom] at hl
      split at hl
      · next hnames =>
        cases hl
        exact h n hn hd k (by omega) hnames.1
      · exact ih (k + 1) (by omega) hl
  exact hfrom _ 0 (by omega) hm

theorem Linked.shown (h : Linked s) (ht : Shown s t) : Linked t := by
  unfold Linked
  rw [ht.superBlock, dinodeOf_congr ht.view ht.superBlock]
  simp only [ht.entryAt]
  exact h

namespace Inode

/-- What `open` returns for a number is the inode that the table has for it, or the one that the
loop was in. -/
def Arrived (s : State) (i : Nat) (n : UInt32) (goal : Option UInt32) (found : Option Nat)
    (t : State) : Prop :=
  ∀ ip, found = some ip → (ip = i ∧ goal = some n ∧ t.itable.table = s.itable.table) ∨
    ∃ m, goal = some m ∧ t.itable.table.lookup (key ROOT_DEVICE m) = some ip

end Inode

end

end Orfos.Fs
