import Mathlib.Data.List.Basic
import Mathlib.Data.List.Nodup
import Mathlib.Data.List.Pairwise
import Mathlib.Logic.Function.Basic

/-!
# Blocks of RISC-V instructions

A part of the instructions of RV64 with the registers of the supervisor and of machine mode, in
straight blocks that a jump ends. Memory holds doublewords. The register `zero` is left out, which no instruction here has as an
operand.

Handlers store the registers in slots and load them from there. Two rules say what such a sequence
does as a whole.
-/

namespace Orfos.Base.Riscv

/-- The registers, by their names in the calling convention. -/
inductive Reg where
  | ra | sp | gp | tp | t0 | t1 | t2 | s0 | s1 | a0 | a1 | a2 | a3 | a4 | a5 | a6 | a7
  | s2 | s3 | s4 | s5 | s6 | s7 | s8 | s9 | s10 | s11 | t3 | t4 | t5 | t6
  deriving DecidableEq, Repr

/-- The control and status registers. -/
inductive Csr where
  | sstatus | stvec | sscratch | sepc | scause | stval | sip | satp | mstatus | mtvec | mscratch | mepc | mcause
  deriving DecidableEq, Repr

/-- The privilege modes. -/
inductive Mode where
  | user | supervisor | machine
  deriving DecidableEq, Repr

/-- What a hart has for itself. -/
structure Hart where
  regs : Reg → UInt64
  csr : Csr → UInt64
  mode : Mode
  pc : UInt64

/-- A hart, and the memory. -/
structure Machine where
  hart : Hart
  memory : UInt64 → UInt64

/-- Bits of `sstatus`. -/
abbrev SIE : UInt64 := 2

abbrev SPIE : UInt64 := 32

abbrev SPP : UInt64 := 256

/-- Bits of `mstatus`. -/
abbrev MIE : UInt64 := 8

abbrev MPIE : UInt64 := 128

abbrev MPP : UInt64 := 6144

/-- A number with some of its bits replaced. -/
def withBits (x mask bits : UInt64) : UInt64 := x &&& ~~~mask ||| bits &&& mask

section

variable {x mask mask' bits : UInt64}

theorem withBits_and_self : withBits x mask bits &&& mask = bits &&& mask := by
  apply UInt64.toBitVec_inj.mp
  ext i hi
  simp only [withBits, UInt64.toBitVec_and, UInt64.toBitVec_or, UInt64.toBitVec_not,
    BitVec.getElem_and, BitVec.getElem_or, BitVec.getElem_not]
  cases mask.toBitVec[i] <;> simp

theorem withBits_and_of_disjoint (h : mask &&& mask' = 0) :
    withBits x mask bits &&& mask' = x &&& mask' := by
  apply UInt64.toBitVec_inj.mp
  ext i hi
  have hi' := congrArg (fun y : UInt64 ↦ y.toBitVec[i]) h
  simp only [UInt64.toBitVec_and, BitVec.getElem_and] at hi'
  simp only [withBits, UInt64.toBitVec_and, UInt64.toBitVec_or, UInt64.toBitVec_not,
    BitVec.getElem_and, BitVec.getElem_or, BitVec.getElem_not]
  revert hi'
  cases mask.toBitVec[i] <;> cases mask'.toBitVec[i] <;> simp

end

/-- The instructions. -/
inductive Instr where
  | sd (src : Reg) (offset : UInt64) (base : Reg)
  | ld (dst : Reg) (offset : UInt64) (base : Reg)
  | li (dst : Reg) (value : UInt64)
  | addi (dst src : Reg) (value : UInt64)
  | add (dst left right : Reg)
  | csrr (dst : Reg) (csr : Csr)
  | csrw (csr : Csr) (src : Reg)
  | csrrw (dst : Reg) (csr : Csr) (src : Reg)
  | sfence
  | jr (target : Reg)
  | call (target link : UInt64)
  | sret
  | mret
  deriving DecidableEq

namespace Hart

/-- Write a register. -/
def set (h : Hart) (r : Reg) (v : UInt64) : Hart := { h with regs := Function.update h.regs r v }

/-- Write a control and status register. -/
def setCsr (h : Hart) (c : Csr) (v : UInt64) : Hart := { h with csr := Function.update h.csr c v }

variable (h : Hart) (r r' : Reg) (c c' : Csr) (v : UInt64)

@[simp] theorem set_csr : (h.set r v).csr = h.csr := rfl
@[simp] theorem set_mode : (h.set r v).mode = h.mode := rfl
@[simp] theorem set_pc : (h.set r v).pc = h.pc := rfl
@[simp] theorem set_self : (h.set r v).regs r = v := Function.update_self ..
@[simp] theorem setCsr_regs : (h.setCsr c v).regs = h.regs := rfl
@[simp] theorem setCsr_mode : (h.setCsr c v).mode = h.mode := rfl
@[simp] theorem setCsr_pc : (h.setCsr c v).pc = h.pc := rfl
@[simp] theorem setCsr_self : (h.setCsr c v).csr c = v := Function.update_self ..

variable {r r' c c'}

@[simp] theorem set_of_ne (hne : r' ≠ r) : (h.set r v).regs r' = h.regs r' :=
  Function.update_of_ne hne ..

@[simp] theorem setCsr_of_ne (hne : c' ≠ c) : (h.setCsr c v).csr c' = h.csr c' :=
  Function.update_of_ne hne ..

end Hart

/-- Enter supervisor mode with a trap. -/
def Hart.trap (h : Hart) (cause tval : UInt64) : Hart where
  regs := h.regs
  csr
    | .sepc => h.pc
    | .scause => cause
    | .stval => tval
    | .sstatus => withBits (withBits (withBits (h.csr .sstatus) SPIE
        (if h.csr .sstatus &&& SIE = 0 then 0 else SPIE)) SIE 0) SPP
        (if h.mode = .user then 0 else SPP)
    | c => h.csr c
  mode := .supervisor
  pc := h.csr .stvec

/-- Return from a trap in supervisor mode. -/
def Hart.sret (h : Hart) : Hart where
  regs := h.regs
  csr
    | .sstatus => withBits (withBits (withBits (h.csr .sstatus) SIE
        (if h.csr .sstatus &&& SPIE = 0 then 0 else SIE)) SPIE SPIE) SPP 0
    | c => h.csr c
  mode := if h.csr .sstatus &&& SPP = 0 then .user else .supervisor
  pc := h.csr .sepc

namespace Hart

variable {h : Hart} (cause tval : UInt64)

/-- A trap turns interrupts off. -/
theorem trap_sie : (h.trap cause tval).csr .sstatus &&& SIE = 0 := by
  change withBits (withBits _ SIE 0) SPP _ &&& SIE = 0
  rw [withBits_and_of_disjoint (by decide), withBits_and_self]
  exact UInt64.zero_and

theorem trap_spp (hmode : h.mode = .user) : (h.trap cause tval).csr .sstatus &&& SPP = 0 := by
  change withBits _ SPP (if h.mode = .user then 0 else SPP) &&& SPP = 0
  rw [if_pos hmode, withBits_and_self]
  exact UInt64.zero_and

theorem sret_mode (hs : h.csr .sstatus &&& SPP = 0) : h.sret.mode = .user := if_pos hs

end Hart

/-- The bits of `mstatus` for a mode. -/
def Mode.mpp : Mode → UInt64
  | .user => 0
  | .supervisor => 2048
  | .machine => 6144

/-- Enter machine mode with a trap. -/
def Hart.trapMachine (h : Hart) (cause : UInt64) : Hart where
  regs := h.regs
  csr
    | .mepc => h.pc
    | .mcause => cause
    | .mstatus => withBits (withBits (withBits (h.csr .mstatus) MPIE
        (if h.csr .mstatus &&& MIE = 0 then 0 else MPIE)) MIE 0) MPP h.mode.mpp
    | c => h.csr c
  mode := .machine
  pc := h.csr .mtvec

/-- Return from a trap in machine mode. -/
def Hart.mret (h : Hart) : Hart where
  regs := h.regs
  csr
    | .mstatus => withBits (withBits (withBits (h.csr .mstatus) MIE
        (if h.csr .mstatus &&& MPIE = 0 then 0 else MIE)) MPIE MPIE) MPP 0
    | c => h.csr c
  mode := if h.csr .mstatus &&& MPP = 0 then .user
    else if h.csr .mstatus &&& MPP = 2048 then .supervisor else .machine
  pc := h.csr .mepc

/-- Address translation: from a mode, the value of `satp` and an address. -/
abbrev Walk : Type := Mode → UInt64 → UInt64 → Option UInt64

section

variable (walk : Walk)

/-- The place of a doubleword in memory. -/
def Machine.place (m : Machine) (a : UInt64) : Option UInt64 :=
  if a % 8 = 0 then walk m.hart.mode (m.hart.csr .satp) a else none

/-- An instruction, if it does not fault. -/
def Instr.exec (m : Machine) : Instr → Option Machine
  | .sd src offset base => (m.place walk (m.hart.regs base + offset)).map fun p ↦
    { m with memory := Function.update m.memory p (m.hart.regs src) }
  | .ld dst offset base => (m.place walk (m.hart.regs base + offset)).map fun p ↦
    { m with hart := m.hart.set dst (m.memory p) }
  | .li dst value => some { m with hart := m.hart.set dst value }
  | .addi dst src value => some { m with hart := m.hart.set dst (m.hart.regs src + value) }
  | .add dst left right =>
    some { m with hart := m.hart.set dst (m.hart.regs left + m.hart.regs right) }
  | .csrr dst csr => some { m with hart := m.hart.set dst (m.hart.csr csr) }
  | .csrw csr src => some { m with hart := m.hart.setCsr csr (m.hart.regs src) }
  | .csrrw dst csr src =>
    some { m with hart := (m.hart.setCsr csr (m.hart.regs src)).set dst (m.hart.csr csr) }
  | .sfence => some m
  | .jr target => some { m with hart := { m.hart with pc := m.hart.regs target } }
  | .call target link => some { m with hart := { m.hart.set .ra link with pc := target } }
  | .sret => some { m with hart := m.hart.sret }
  | .mret => some { m with hart := m.hart.mret }

/-- A block of instructions. -/
def run : List Instr → Machine → Option Machine
  | [], m => some m
  | i :: is, m => (i.exec walk m).bind (run is)

variable {walk} {m : Machine} {is js : List Instr}

theorem run_append : run walk (is ++ js) m = (run walk is m).bind (run walk js) := by
  induction is generalizing m with
  | nil => rfl
  | cons i is ih =>
    rw [List.cons_append, run, run]
    cases i.exec walk m with
    | none => rfl
    | some m' => exact ih

/-- The place of an address depends on the mode and on `satp`. -/
theorem place_congr {m' : Machine} (hm : m'.hart.mode = m.hart.mode)
    (hs : m'.hart.csr .satp = m.hart.csr .satp) : m'.place walk = m.place walk := by
  funext a
  rw [Machine.place, Machine.place, hm, hs]

/-- Instructions that change neither the mode nor `sstatus`. -/
def Instr.plain : Instr → Bool
  | .csrw .sstatus _ | .csrrw _ .sstatus _ | .sret | .mret => false
  | _ => true

theorem exec_plain {i : Instr} {m' : Machine} (hi : i.plain = true) (h : i.exec walk m = some m') :
    m'.hart.mode = m.hart.mode ∧ m'.hart.csr .sstatus = m.hart.csr .sstatus := by
  cases i with
  | sd src offset base =>
    obtain ⟨p, -, rfl⟩ := Option.map_eq_some_iff.mp h
    exact ⟨rfl, rfl⟩
  | ld dst offset base =>
    obtain ⟨p, -, rfl⟩ := Option.map_eq_some_iff.mp h
    exact ⟨rfl, rfl⟩
  | csrw csr src =>
    cases h
    cases csr with
    | sstatus => cases hi
    | _ => exact ⟨rfl, rfl⟩
  | csrrw dst csr src =>
    cases h
    cases csr with
    | sstatus => cases hi
    | _ => exact ⟨rfl, rfl⟩
  | sret => cases hi
  | mret => cases hi
  | _ =>
    cases h
    exact ⟨rfl, rfl⟩

/-! ### Slots -/

/-- Registers and the offsets of their slots. -/
abbrev Slots : Type := List (Reg × UInt64)

/-- Store registers in their slots. -/
def save (base : Reg) (slots : Slots) : List Instr := slots.map fun e ↦ .sd e.1 e.2 base

/-- Load registers from their slots. -/
def restore (base : Reg) (slots : Slots) : List Instr := slots.map fun e ↦ .ld e.1 e.2 base

/-- The slots behind `a` are at `p` in memory. -/
def Mapped (walk : Walk) (m : Machine) (a p : UInt64) (slots : Slots) :
    Prop :=
  ∀ e ∈ slots, m.place walk (a + e.2) = some (p + e.2)

/-- Memory with values in slots. -/
def fill (p : UInt64) (v : Reg → UInt64) (slots : Slots) (memory : UInt64 → UInt64) :
    UInt64 → UInt64 :=
  slots.foldl (fun mem e ↦ Function.update mem (p + e.2) (v e.1)) memory

/-- Registers with values from slots. -/
def draw (p : UInt64) (memory : UInt64 → UInt64) (slots : Slots) (v : Reg → UInt64) :
    Reg → UInt64 :=
  slots.foldl (fun v e ↦ Function.update v e.1 (memory (p + e.2))) v

variable {base : Reg} {slots : Slots} {a p x : UInt64} {v : Reg → UInt64} {r : Reg}
  {memory : UInt64 → UInt64}

theorem fill_of_notMem (h : ∀ e ∈ slots, x ≠ p + e.2) : fill p v slots memory x = memory x := by
  induction slots generalizing memory with
  | nil => rfl
  | cons e slots ih =>
    have hrest : ∀ e ∈ slots, x ≠ p + e.2 := fun e he ↦ h e (List.mem_cons_of_mem _ he)
    rw [fill, List.foldl_cons]
    refine (ih hrest).trans ?_
    exact Function.update_of_ne (h e (List.mem_cons_self ..)) ..

theorem fill_of_mem (hn : (slots.map Prod.snd).Nodup) (h : (r, x) ∈ slots) :
    fill p v slots memory (p + x) = v r := by
  induction slots generalizing memory with
  | nil => cases h
  | cons e slots ih =>
    rw [List.map_cons, List.nodup_cons] at hn
    rw [fill, List.foldl_cons]
    obtain rfl | hmem := List.mem_cons.mp h
    · refine (fill_of_notMem fun e he hx ↦ hn.1 ?_).trans (Function.update_self ..)
      rw [UInt64.add_right_inj] at hx
      exact List.mem_map.mpr ⟨e, he, hx.symm⟩
    · exact ih hn.2 hmem

theorem draw_of_notMem (h : r ∉ slots.map Prod.fst) : draw p memory slots v r = v r := by
  induction slots generalizing v with
  | nil => rfl
  | cons e slots ih =>
    rw [List.map_cons, List.mem_cons, not_or] at h
    rw [draw, List.foldl_cons]
    exact (ih h.2).trans (Function.update_of_ne h.1 ..)

theorem draw_of_mem (hn : (slots.map Prod.fst).Nodup) (h : (r, x) ∈ slots) :
    draw p memory slots v r = memory (p + x) := by
  induction slots generalizing v with
  | nil => cases h
  | cons e slots ih =>
    rw [List.map_cons, List.nodup_cons] at hn
    rw [draw, List.foldl_cons]
    obtain rfl | hmem := List.mem_cons.mp h
    · exact (draw_of_notMem hn.1).trans (Function.update_self ..)
    · exact ih hn.2 hmem

/-- Storing registers fills their slots. -/
theorem run_save (h : Mapped walk m (m.hart.regs base) p slots) :
    run walk (save base slots) m =
      some { m with memory := fill p m.hart.regs slots m.memory } := by
  induction slots generalizing m with
  | nil => rfl
  | cons e slots ih =>
    have hfirst := h e (List.mem_cons_self ..)
    rw [save, List.map_cons, run, Instr.exec, hfirst, Option.map_some, Option.bind_some]
    exact ih fun e he ↦ h e (List.mem_cons_of_mem _ he)

/-- Loading registers draws on their slots. The slot of the base has what is in it already. -/
theorem run_restore (h : Mapped walk m (m.hart.regs base) p slots)
    (hbase : ∀ x, (base, x) ∈ slots → m.memory (p + x) = m.hart.regs base) :
    run walk (restore base slots) m =
      some { m with hart := { m.hart with regs := draw p m.memory slots m.hart.regs } } := by
  induction slots generalizing m with
  | nil => rfl
  | cons e slots ih =>
    have hfirst := h e (List.mem_cons_self ..)
    rw [restore, List.map_cons, run, Instr.exec, hfirst, Option.map_some, Option.bind_some]
    -- the base is the same behind the load
    have hsame : (m.hart.set e.1 (m.memory (p + e.2))).regs base = m.hart.regs base := by
      by_cases he : base = e.1
      · subst he
        rw [Hart.set_self, hbase e.2 (List.mem_cons_self ..)]
      · exact Hart.set_of_ne _ _ he
    refine ih (m := { m with hart := m.hart.set e.1 (m.memory (p + e.2)) }) ?_ ?_
    · rw [hsame]
      exact fun e he ↦ h e (List.mem_cons_of_mem _ he)
    · rw [hsame]
      exact fun x hx ↦ hbase x (List.mem_cons_of_mem _ hx)

/-! ### Blocks that use a region of memory -/

/-- Translation that ends in a region. -/
def within (A : UInt64 → Prop) [DecidablePred A] (walk : Walk) : Walk :=
  fun mode satp a ↦ (walk mode satp a).filter fun p ↦ A p

variable {A : UInt64 → Prop} [DecidablePred A] {walk' : Walk} {i : Instr} {m' : Machine}
  {mem : UInt64 → UInt64} {Q : Machine → Prop}

theorem place_within : m.place (within A walk) a = some p ↔ m.place walk a = some p ∧ A p := by
  unfold Machine.place
  split
  · rw [within, Option.filter_eq_some_iff, decide_eq_true_iff]
  · simp

/-- A block of the region is a block, and leaves other memory alone. -/
theorem exec_of_within (h : i.exec (within A walk) m = some m') :
    i.exec walk m = some m' ∧ ∀ x, ¬ A x → m'.memory x = m.memory x := by
  cases i with
  | sd src offset base =>
    obtain ⟨p, hp, rfl⟩ := Option.map_eq_some_iff.mp h
    obtain ⟨hp, hA⟩ := place_within.mp hp
    refine ⟨by rw [Instr.exec, hp, Option.map_some], fun x hx ↦ ?_⟩
    have hne : x ≠ p := fun he ↦ hx (he ▸ hA)
    exact Function.update_of_ne hne ..
  | ld dst offset base =>
    obtain ⟨p, hp, rfl⟩ := Option.map_eq_some_iff.mp h
    exact ⟨by rw [Instr.exec, (place_within.mp hp).1, Option.map_some], fun _ _ ↦ rfl⟩
  | _ =>
    cases h
    exact ⟨rfl, fun _ _ ↦ rfl⟩

/-- What a block of the region does depends on the memory there. -/
theorem exec_within_congr (h : i.exec (within A walk) m = some m')
    (hmem : ∀ x, A x → mem x = m.memory x) :
    ∃ mem', i.exec (within A walk) { m with memory := mem } = some { m' with memory := mem' } ∧
      ∀ x, A x → mem' x = m'.memory x := by
  cases i with
  | sd src offset base =>
    obtain ⟨p, hp, rfl⟩ := Option.map_eq_some_iff.mp h
    refine ⟨_, congrArg (Option.map _) hp, fun x hx ↦ ?_⟩
    dsimp only
    by_cases he : x = p
    · rw [he, Function.update_self, Function.update_self]
    · rw [Function.update_of_ne he, Function.update_of_ne he, hmem x hx]
  | ld dst offset base =>
    obtain ⟨p, hp, rfl⟩ := Option.map_eq_some_iff.mp h
    refine ⟨mem, ?_, hmem⟩
    rw [← hmem p (place_within.mp hp).2]
    exact congrArg (Option.map _) hp
  | _ =>
    cases h
    exact ⟨mem, rfl, hmem⟩

/-- Translation may change elsewhere. -/
theorem exec_within_mono (hw : ∀ mode satp a x, A x → walk mode satp a = some x →
    walk' mode satp a = some x) (h : i.exec (within A walk) m = some m') :
    i.exec (within A walk') m = some m' := by
  have hplace : ∀ a p, m.place (within A walk) a = some p → m.place (within A walk') a = some p := by
    intro a p hp
    obtain ⟨hp, hA⟩ := place_within.mp hp
    refine place_within.mpr ⟨?_, hA⟩
    unfold Machine.place at hp ⊢
    split at hp
    · rw [if_pos ‹_›]
      exact hw _ _ _ _ hA hp
    · cases hp
  cases i with
  | sd src offset base =>
    obtain ⟨p, hp, rfl⟩ := Option.map_eq_some_iff.mp h
    rw [Instr.exec, hplace _ _ hp, Option.map_some]
  | ld dst offset base =>
    obtain ⟨p, hp, rfl⟩ := Option.map_eq_some_iff.mp h
    rw [Instr.exec, hplace _ _ hp, Option.map_some]
  | _ => exact h

/-- The rest of a block ends in a machine of a kind, and uses the region only. -/
def Leads (A : UInt64 → Prop) [DecidablePred A] (walk : Walk) (Q : Machine → Prop)
    (is : List Instr) (m : Machine) : Prop :=
  ∃ m', run (within A walk) is m = some m' ∧ Q m'

/-- A kind of machines that is about the memory of a region. -/
def Local (A : UInt64 → Prop) (Q : Machine → Prop) : Prop :=
  ∀ m mem, (∀ x, A x → mem x = m.memory x) → Q m → Q { m with memory := mem }

/-- The next instruction is executed. -/
theorem Leads.step (h : Leads A walk Q (i :: is) m) : ∃ m', i.exec walk m = some m' ∧
    (∀ x, ¬ A x → m'.memory x = m.memory x) ∧ Leads A walk Q is m' := by
  obtain ⟨t, hrun, hQ⟩ := h
  rw [run] at hrun
  obtain ⟨m', hi, hrest⟩ := Option.bind_eq_some_iff.mp hrun
  obtain ⟨hexec, hkeep⟩ := exec_of_within hi
  exact ⟨m', hexec, hkeep, t, hrest, hQ⟩

/-- The block is at its end. -/
theorem Leads.done (h : Leads A walk Q [] m) : Q m := by
  obtain ⟨_, hrun, hQ⟩ := h
  cases hrun
  exact hQ

/-- Others may change memory outside of the region. -/
theorem Leads.interfere (hQ : Local A Q) (h : Leads A walk Q is m)
    (hmem : ∀ x, A x → mem x = m.memory x) : Leads A walk Q is { m with memory := mem } := by
  obtain ⟨t, hrun, ht⟩ := h
  induction is generalizing m mem with
  | nil =>
    cases hrun
    exact ⟨_, rfl, hQ _ _ hmem ht⟩
  | cons i is ih =>
    rw [run] at hrun
    obtain ⟨m', hi, hrest⟩ := Option.bind_eq_some_iff.mp hrun
    obtain ⟨mem', hi', hmem'⟩ := exec_within_congr hi hmem
    obtain ⟨u, hu, hQu⟩ := ih hmem' hrest
    refine ⟨u, ?_, hQu⟩
    rw [run, hi', Option.bind_some]
    exact hu

/-- Others may change translation elsewhere. -/
theorem Leads.mono (hw : ∀ mode satp a x, A x → walk mode satp a = some x →
    walk' mode satp a = some x) (h : Leads A walk Q is m) : Leads A walk' Q is m := by
  obtain ⟨t, hrun, ht⟩ := h
  refine ⟨t, ?_, ht⟩
  induction is generalizing m with
  | nil => exact hrun
  | cons i is ih =>
    rw [run] at hrun ⊢
    obtain ⟨m', hi, hrest⟩ := Option.bind_eq_some_iff.mp hrun
    rw [exec_within_mono hw hi, Option.bind_some]
    exact ih hrest

end
end Orfos.Base.Riscv
