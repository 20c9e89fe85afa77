import Orfos.Base.Riscv
import Orfos.Memory.PageTable

/-!
# The way into the kernel and out of it

`orfos_userVector` and `orfos_returnUser` (`kernel/ie/user_vector.S`), which the page of the
trampoline holds. The first stores the registers of the user in the trap frame
(`kernel/process/trap_frame.h`) and changes to the kernel's stack and page table, the second goes
the other way. Both find the trap frame at `TRAPFRAME`, through the page table of the process.
-/

namespace Orfos.Trap

open Orfos.Base.Riscv
open Orfos.Memory (TRAPFRAME)

namespace TrapFrame

/-- The fields of a trap frame that the kernel keeps there for itself. -/
abbrev kernel_satp : UInt64 := 0

abbrev kernel_sp : UInt64 := 8

abbrev kernel_trap : UInt64 := 16

abbrev epc : UInt64 := 24

abbrev kernel_hartid : UInt64 := 32

/-- The field of a register. -/
def offset : Reg → UInt64
  | .ra => 40 | .sp => 48 | .gp => 56 | .tp => 64 | .t0 => 72 | .t1 => 80 | .t2 => 88
  | .s0 => 96 | .s1 => 104 | .a0 => 112 | .a1 => 120 | .a2 => 128 | .a3 => 136 | .a4 => 144
  | .a5 => 152 | .a6 => 160 | .a7 => 168 | .s2 => 176 | .s3 => 184 | .s4 => 192 | .s5 => 200
  | .s6 => 208 | .s7 => 216 | .s8 => 224 | .s9 => 232 | .s10 => 240 | .s11 => 248
  | .t3 => 256 | .t4 => 264 | .t5 => 272 | .t6 => 280

theorem offset_injective {r r' : Reg} (h : offset r = offset r') : r = r' := by
  cases r <;> cases r' <;> first | rfl | exact absurd h (by decide)

/-- The size of a trap frame. -/
abbrev size : UInt64 := 288

end TrapFrame

open TrapFrame

/-- The registers that are stored with the address of the trap frame in `a0`. -/
def slots : Slots :=
  [(.ra, 40), (.sp, 48), (.gp, 56), (.tp, 64), (.t0, 72), (.t1, 80), (.t2, 88), (.s0, 96),
    (.s1, 104), (.a1, 120), (.a2, 128), (.a3, 136), (.a4, 144), (.a5, 152), (.a6, 160), (.a7, 168),
    (.s2, 176), (.s3, 184), (.s4, 192), (.s5, 200), (.s6, 208), (.s7, 216), (.s8, 224), (.s9, 232),
    (.s10, 240), (.s11, 248), (.t3, 256), (.t4, 264), (.t5, 272), (.t6, 280)]

/-- `orfos_userVector`. -/
def userVector : List Instr :=
  [.csrw .sscratch .a0, .li .a0 TRAPFRAME] ++ save .a0 slots ++
    [.csrr .t0 .sscratch, .sd .t0 112 .a0, .ld .sp 8 .a0, .ld .tp 32 .a0, .ld .t0 16 .a0,
      .ld .t1 0 .a0, .sfence, .csrw .satp .t1, .sfence, .jr .t0]

/-- `orfos_returnUser`. -/
def returnUser : List Instr :=
  [.sfence, .csrw .satp .a0, .sfence, .li .a0 TRAPFRAME] ++ restore .a0 slots ++
    [.ld .a0 112 .a0, .sret]

/-- The page table behind `satp` has the trap frame at `f`. -/
def Framed (walk : Walk) (satp f : UInt64) : Prop :=
  ∀ x < size, x % 8 = 0 → walk .supervisor satp (TRAPFRAME + x) = some (f + x)

/-- The registers in a trap frame. -/
def saved (memory : UInt64 → UInt64) (f : UInt64) : Reg → UInt64 := fun r ↦ memory (f + offset r)

variable {walk : Walk} {m : Machine} {f satp x : UInt64} {r : Reg}

theorem slots_nodup : (slots.map Prod.fst).Nodup ∧ (slots.map Prod.snd).Nodup := by decide

theorem mem_slots (h : r ≠ .a0) : (r, offset r) ∈ slots := by
  cases r <;> first | decide | exact absurd rfl h

theorem slots_inside {e : Reg × UInt64} (h : e ∈ slots) :
    e.2 < size ∧ e.2 % 8 = 0 ∧ e.2 = offset e.1 ∧ e.1 ≠ .a0 := by
  revert e
  decide

theorem place_frame (h : Framed walk (m.hart.csr .satp) f) (hmode : m.hart.mode = .supervisor)
    (hx : x < size) (h8 : x % 8 = 0) : m.place walk (TRAPFRAME + x) = some (f + x) := by
  have h8' : (TRAPFRAME + x) % 8 = 0 := by
    have hlt := UInt64.lt_iff_toNat_lt.mp hx
    have hmod := congrArg UInt64.toNat h8
    apply UInt64.toNat_inj.mp
    rw [UInt64.toNat_mod, UInt64.toNat_ofNat] at hmod ⊢
    rw [UInt64.toNat_add]
    have hframe : TRAPFRAME.toNat = 2 ^ 38 - 8192 := by decide
    simp at hmod hlt ⊢
    omega
  rw [Machine.place, if_pos h8', hmode]
  exact h x hx h8

theorem mapped_slots (h : Framed walk (m.hart.csr .satp) f) (hmode : m.hart.mode = .supervisor) :
    Mapped walk m TRAPFRAME f slots :=
  fun _ he ↦ place_frame h hmode (slots_inside he).1 (slots_inside he).2.1

/-- The registers of the user are stored: the others as they are, and `a0` through `sscratch`. -/
def filled (m : Machine) (f : UInt64) : UInt64 → UInt64 :=
  Function.update (fill f (m.hart.set .a0 TRAPFRAME).regs slots m.memory) (f + 112)
    (m.hart.regs .a0)

theorem offset_ne (h : r ≠ .a0) : f + offset r ≠ f + 112 := by
  rw [Ne, UInt64.add_right_inj]
  exact fun he ↦ h (offset_injective he)

theorem saved_filled : saved (filled m f) f = m.hart.regs := by
  funext r
  rw [saved, filled]
  by_cases h : r = .a0
  · subst h
    exact Function.update_self ..
  · rw [Function.update_of_ne (offset_ne h), fill_of_mem slots_nodup.2 (mem_slots h),
      Hart.set_of_ne _ _ h]

theorem filled_of_ne (h : ∀ r, x ≠ f + offset r) : filled m f x = m.memory x := by
  have ha0 : x ≠ f + 112 := h .a0
  rw [filled, Function.update_of_ne ha0]
  refine fill_of_notMem fun e he ↦ ?_
  rw [(slots_inside he).2.2.1]
  exact h e.1

/-- A field of the kernel is not a register of the user. -/
theorem filled_field (hx : x < 40) : filled m f (f + x) = m.memory (f + x) := by
  refine filled_of_ne fun r ↦ ?_
  rw [Ne, UInt64.add_right_inj]
  rintro rfl
  cases r <;> exact absurd hx (by decide)

section

variable {dst src : Reg} {is : List Instr}

theorem run_ld (h : Framed walk satp f) (hsatp : m.hart.csr .satp = satp)
    (hmode : m.hart.mode = .supervisor) (hbase : m.hart.regs .a0 = TRAPFRAME) (hx : x < size)
    (h8 : x % 8 = 0) : run walk (.ld dst x .a0 :: is) m =
      run walk is { m with hart := m.hart.set dst (m.memory (f + x)) } := by
  subst hsatp
  rw [run, Instr.exec, hbase, place_frame h hmode hx h8]
  rfl

theorem run_sd (h : Framed walk satp f) (hsatp : m.hart.csr .satp = satp)
    (hmode : m.hart.mode = .supervisor) (hbase : m.hart.regs .a0 = TRAPFRAME) (hx : x < size)
    (h8 : x % 8 = 0) : run walk (.sd src x .a0 :: is) m =
      run walk is { m with memory := Function.update m.memory (f + x) (m.hart.regs src) } := by
  subst hsatp
  rw [run, Instr.exec, hbase, place_frame h hmode hx h8]
  rfl

end

/-- The hart at the end of `orfos_userVector`. -/
def entered (h : Hart) (memory : UInt64 → UInt64) (f : UInt64) : Hart :=
  { ((((((((h.setCsr .sscratch (h.regs .a0)).set .a0 TRAPFRAME).set .t0 (h.regs .a0)).set .sp
      (memory (f + kernel_sp))).set .tp (memory (f + kernel_hartid))).set .t0
      (memory (f + kernel_trap))).set .t1 (memory (f + kernel_satp))).setCsr .satp
      (memory (f + kernel_satp))) with
    pc := memory (f + kernel_trap) }

/-- `orfos_userVector` puts the registers into the trap frame, and takes the kernel's from it. -/
theorem run_userVector (h : Framed walk (m.hart.csr .satp) f) (hmode : m.hart.mode = .supervisor) :
    run walk userVector m = some ⟨entered m.hart m.memory f, filled m f⟩ := by
  -- the hart when the registers are to be stored
  let h₁ := (m.hart.setCsr .sscratch (m.hart.regs .a0)).set .a0 TRAPFRAME
  have hsave : run walk (save .a0 slots) ⟨h₁, m.memory⟩ =
      some ⟨h₁, fill f h₁.regs slots m.memory⟩ :=
    run_save (m := ⟨h₁, m.memory⟩) (mapped_slots (m := ⟨h₁, m.memory⟩) h hmode)
  have hsp : filled m f (f + 8) = m.memory (f + 8) := filled_field (by decide)
  have htp : filled m f (f + 32) = m.memory (f + 32) := filled_field (by decide)
  have htrap : filled m f (f + 16) = m.memory (f + 16) := filled_field (by decide)
  have hsatp : filled m f (f + 0) = m.memory (f + 0) := filled_field (by decide)
  rw [userVector, run_append, run_append,
    show run walk [.csrw .sscratch .a0, .li .a0 TRAPFRAME] m = some ⟨h₁, m.memory⟩ from rfl,
    Option.bind_some, hsave, Option.bind_some, run, Instr.exec, Option.bind_some, run_sd h]
  · change run walk _ ⟨h₁.set .t0 (m.hart.regs .a0), filled m f⟩ = _
    rw [run_ld h, run_ld h, run_ld h, run_ld h]
    · dsimp only
      rw [hsp, htp, htrap, hsatp]
      rfl
    all_goals first | rfl | exact hmode | decide
  all_goals first | rfl | exact hmode | decide

/-- Each register comes from its field, `a0` at last. -/
theorem draw_saved {memory : UInt64 → UInt64} {v : Reg → UInt64} :
    Function.update (draw f memory slots v) .a0 (memory (f + 112)) = saved memory f := by
  funext r
  by_cases h : r = .a0
  · subst h
    exact Function.update_self ..
  · rw [Function.update_of_ne h, draw_of_mem slots_nodup.1 (mem_slots h)]
    rfl

/-- `orfos_returnUser` takes the registers from the trap frame of the page table in `a0`, and
leaves the kernel. -/
theorem run_returnUser (h : Framed walk (m.hart.regs .a0) f) (hmode : m.hart.mode = .supervisor) :
    run walk returnUser m = some ⟨({ m.hart with regs := saved m.memory f }.setCsr .satp
      (m.hart.regs .a0)).sret, m.memory⟩ := by
  -- the hart when the registers are to be loaded
  let h₁ := (m.hart.setCsr .satp (m.hart.regs .a0)).set .a0 TRAPFRAME
  have hsatp : h₁.csr .satp = m.hart.regs .a0 := Hart.setCsr_self m.hart .satp (m.hart.regs .a0)
  have hload : run walk (restore .a0 slots) ⟨h₁, m.memory⟩ =
      some ⟨{ h₁ with regs := draw f m.memory slots h₁.regs }, m.memory⟩ := by
    refine run_restore (m := ⟨h₁, m.memory⟩)
      (mapped_slots (m := ⟨h₁, m.memory⟩) (hsatp.symm ▸ h) hmode) fun x hx ↦ ?_
    exact absurd rfl (slots_inside hx).2.2.2
  have ha0 : draw f m.memory slots h₁.regs .a0 = TRAPFRAME :=
    draw_of_notMem (by decide)
  rw [returnUser, run_append, run_append,
    show run walk [.sfence, .csrw .satp .a0, .sfence, .li .a0 TRAPFRAME] m = some ⟨h₁, m.memory⟩
      from rfl,
    Option.bind_some, hload, Option.bind_some, run_ld h]
  · have hregs : (Hart.set { h₁ with regs := draw f m.memory slots h₁.regs } .a0
        (m.memory (f + 112))).regs = saved m.memory f := draw_saved
    rw [run, Instr.exec, Option.bind_some, run, ← hregs]
    rfl
  · exact hsatp
  · exact hmode
  · exact ha0
  · decide
  · rfl

end Orfos.Trap
