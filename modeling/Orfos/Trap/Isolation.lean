import Orfos.Base.Simulation
import Orfos.Trap.Machine

/-!
# Each process has its registers to itself

The registers of a process are in its hart while user code runs, and in its trap frame while the
process is in the kernel, waits for a hart or moves to another one. Every run of the machine is a run
of processes that see nothing of all this, as long as no thread is switched out between the two loads
of `Cpu::current().process`.
-/

namespace Orfos.Trap

open Orfos.Base Orfos.Base.Riscv
open Orfos.Memory (PAGE_SIZE)
open TrapFrame

/-- The processes, as they see themselves. -/
abbrev Views : Type := Nat → Option View

/-- What the steps mean. -/
inductive Views.Step (σ : Views) : Act → Views → Prop where
  | none : Step σ .none σ
  | compute (p : Nat) (v v' : View) (here : σ p = some v) :
    Step σ (.compute p v v') (Function.update σ p (some v'))
  | skip (p : Nat) (v : View) (here : σ p = some v) :
    Step σ (.skip p) (Function.update σ p (some { v with pc := v.pc + 4 }))
  | assign (p : Nat) (r : Reg) (x : UInt64) (v : View) (here : σ p = some v) :
    Step σ (.assign p r x) (Function.update σ p (some { v with regs := Function.update v.regs r x }))
  | jump (p : Nat) (pc : UInt64) (v : View) (here : σ p = some v) :
    Step σ (.jump p pc) (Function.update σ p (some { v with pc := pc }))
  /-- The child has the registers of its parent, but for 0 in `a0`. -/
  | fork (p child : Nat) (v : View) (here : σ p = some v) (new : σ child = Option.none) :
    Step σ (.fork p child)
      (Function.update σ child (some { v with regs := Function.update v.regs .a0 0 }))

/-- What a trap frame has of its process. -/
def frameView (memory : UInt64 → UInt64) (f : UInt64) : View := ⟨saved memory f, memory (f + epc)⟩

/-! ### What holds on a hart -/

section

variable (sym : Symbols) (h : UInt64) (proc : Process) (v : View)

/-- The trap frame is ready for a trap on the hart. -/
structure Ready (memory : UInt64 → UInt64) : Prop where
  satp : memory (proc.trapFrame + kernel_satp) = sym.kernelSatp
  sp : memory (proc.trapFrame + kernel_sp) = proc.kernelStack + PAGE_SIZE
  trap : memory (proc.trapFrame + kernel_trap) = sym.userTrap
  hartid : memory (proc.trapFrame + kernel_hartid) = h

/-- The hart is in the kernel. -/
structure InKernel (hart : Hart) : Prop where
  mode : hart.mode = .supervisor
  tp : hart.regs .tp = h
  satp : hart.csr .satp = sym.kernelSatp

/-- The hart is at the start of `userTrap`, and the process as it was at its trap. -/
structure Arrived (m : Machine) : Prop extends InKernel sym h m.hart where
  pc : m.hart.pc = sym.userTrap
  sp : m.hart.regs .sp = proc.kernelStack + PAGE_SIZE
  quiet : m.hart.csr .sstatus &&& SIE = 0
  user : m.hart.csr .sstatus &&& SPP = 0
  view : v = ⟨saved m.memory proc.trapFrame, m.hart.csr .sepc⟩

/-- The hart is in user mode. -/
structure InUser (m : Machine) : Prop where
  mode : m.hart.mode = .user
  satp : m.hart.csr .satp = proc.satp
  stvec : m.hart.csr .stvec = sym.trampolineUserVector
  ready : Ready sym h proc m.memory
  view : v = Trap.view m.hart

/-- C++ code runs. The process is in its trap frame. -/
structure Inside (m : Machine) : Prop extends InKernel sym h m.hart where
  stvec : m.hart.csr .stvec = sym.orfos_kernelVector
  view : v = frameView m.memory proc.trapFrame

/-- What a thread has found is its own. -/
def Pc.Own (p : Nat) : Pc → Prop
  | .process cpu _ => cpu = h
  | .found q _ => q = p
  | .handler q => q = p
  | _ => True

/-- A thread that is switched out has not stopped between the two loads. -/
def Pc.Whole : Pc → Prop
  | .process _ _ => False
  | _ => True

/-- What a thread on a hart stands for. -/
def Stand (p : Nat) (walk : Walk) (m : Machine) : Work → Prop
  | .user _ => InUser sym h proc v m
  | .block _ is => (∀ i ∈ is.dropLast, i.plain = true) ∧
      (is ≠ [] → m.hart.mode = .supervisor ∧ m.hart.csr .sstatus &&& SIE = 0) ∧
      (Leads (InFrame proc.trapFrame) walk (Arrived sym h proc v) is m ∨
        Leads (InFrame proc.trapFrame) walk (InUser sym h proc v) is m)
  | .kernel _ .userTrap => Arrived sym h proc v m
  | .kernel _ pc => Inside sym h proc v m ∧ pc.Own h p
  | _ => False

end

/-- The process whose thread it is. -/
def Work.owner : Work → Option Nat
  | .user p | .block p _ | .kernel p _ => some p
  | _ => none

section

variable {sym : Symbols} {h : UInt64} {proc : Process} {v : View} {p : Nat} {f x satp : UInt64}
  {walk walk' : Walk} {m : Machine} {memory memory' : UInt64 → UInt64} {w : Work}

theorem inFrame_field (hx : x < size) : InFrame f (f + x) := by
  rwa [InFrame, UInt64.add_comm, UInt64.add_sub_cancel]

theorem offset_lt (r : Reg) : offset r < size := by
  cases r <;> decide

/-- The frame is what the code of the trampoline and of the kernel sees of a process. -/
theorem saved_congr (hmem : ∀ x, InFrame f x → memory' x = memory x) :
    saved memory' f = saved memory f :=
  funext fun r ↦ hmem _ (inFrame_field (offset_lt r))

theorem frameView_congr (hmem : ∀ x, InFrame f x → memory' x = memory x) :
    frameView memory' f = frameView memory f := by
  rw [frameView, saved_congr hmem, hmem _ (inFrame_field (by decide))]
  rfl

theorem Ready.congr (hr : Ready sym h proc memory)
    (hmem : ∀ x, InFrame proc.trapFrame x → memory' x = memory x) : Ready sym h proc memory' := by
  have hfield : ∀ x < size, memory' (proc.trapFrame + x) = memory (proc.trapFrame + x) :=
    fun x hx ↦ hmem _ (inFrame_field hx)
  exact ⟨(hfield _ (by decide)).trans hr.satp, (hfield _ (by decide)).trans hr.sp,
    (hfield _ (by decide)).trans hr.trap, (hfield _ (by decide)).trans hr.hartid⟩

theorem Arrived.local_frame : Local (InFrame proc.trapFrame) (Arrived sym h proc v) := by
  intro m mem hmem ha
  exact ⟨ha.toInKernel, ha.pc, ha.sp, ha.quiet, ha.user, by rw [saved_congr hmem, ← ha.view]⟩

theorem InUser.local_frame : Local (InFrame proc.trapFrame) (InUser sym h proc v) := by
  intro m mem hmem hu
  exact ⟨hu.mode, hu.satp, hu.stvec, hu.ready.congr hmem, hu.view⟩

theorem Inside.congr (hi : Inside sym h proc v m)
    (hmem : ∀ x, InFrame proc.trapFrame x → memory x = m.memory x) :
    Inside sym h proc v { m with memory := memory } := by
  refine ⟨hi.toInKernel, hi.stvec, hi.view.trans ?_⟩
  exact (frameView_congr hmem).symm

/-- What a thread stands for depends on the trap frame and where it is mapped. -/
theorem Stand.congr (hs : Stand sym h proc v p walk m w)
    (hmem : ∀ x, InFrame proc.trapFrame x → memory x = m.memory x)
    (hwalk : ∀ mode satp a x, InFrame proc.trapFrame x → walk mode satp a = some x →
      walk' mode satp a = some x) : Stand sym h proc v p walk' { m with memory := memory } w := by
  cases w with
  | user _ => exact InUser.local_frame m memory hmem hs
  | block _ is =>
    refine ⟨hs.1, hs.2.1, hs.2.2.imp (fun hl ↦ ?_) fun hl ↦ ?_⟩
    · exact (hl.interfere Arrived.local_frame hmem).mono hwalk
    · exact (hl.interfere InUser.local_frame hmem).mono hwalk
  | kernel _ pc =>
    cases pc with
    | userTrap => exact Arrived.local_frame m memory hmem hs
    | _ => exact ⟨hs.1.congr hmem, hs.2⟩
  | _ => exact hs

/-! ### The blocks -/

theorem Framed.within (hf : Framed walk satp f) : Framed (within (InFrame f) walk) satp f := by
  intro x hx h8
  rw [Riscv.within, hf x hx h8, Option.filter_some, if_pos (decide_eq_true (inFrame_field hx))]

theorem userVector_plain : ∀ i ∈ userVector.dropLast, i.plain = true := by decide

theorem returnUser_plain : ∀ i ∈ returnUser.dropLast, i.plain = true := by decide

/-- A trap of user code, and `orfos_userVector` from there. -/
theorem InUser.trap (hu : InUser sym h proc v m) (hf : Framed walk proc.satp proc.trapFrame)
    (cause tval : UInt64) :
    Stand sym h proc v p walk { m with hart := m.hart.trap cause tval } (.block p userVector) := by
  have hsatp : (m.hart.trap cause tval).csr .satp = proc.satp := hu.satp
  refine ⟨userVector_plain, fun _ ↦ ⟨rfl, Hart.trap_sie cause tval⟩, .inl ⟨_, run_userVector
    (m := { m with hart := m.hart.trap cause tval }) (hsatp.symm ▸ hf.within) rfl, ?_⟩⟩
  refine ⟨⟨rfl, hu.ready.hartid, hu.ready.satp⟩, hu.ready.trap, hu.ready.sp, Hart.trap_sie cause tval,
    Hart.trap_spp cause tval hu.mode, hu.view.trans ?_⟩
  rw [saved_filled]
  rfl

/-- A trap frame with the fields of the kernel. -/
def prepared (sym : Symbols) (proc : Process) (satp tp : UInt64) (memory : UInt64 → UInt64) :
    UInt64 → UInt64 :=
  Function.update (Function.update (Function.update (Function.update memory
    (proc.trapFrame + kernel_satp) satp) (proc.trapFrame + kernel_sp)
    (proc.kernelStack + PAGE_SIZE)) (proc.trapFrame + kernel_trap) sym.userTrap)
    (proc.trapFrame + kernel_hartid) tp

theorem update_field {x y a : UInt64} (hne : y ≠ x) :
    Function.update memory (f + x) a (f + y) = memory (f + y) :=
  Function.update_of_ne (fun he ↦ hne ((UInt64.add_right_inj _).mp he)) ..

/-- The other fields are as they were. -/
theorem prepared_field {tp y : UInt64}
    (hy : y ∉ [kernel_satp, kernel_sp, kernel_trap, kernel_hartid]) :
    prepared sym proc satp tp memory (proc.trapFrame + y) = memory (proc.trapFrame + y) := by
  simp only [List.mem_cons, List.not_mem_nil, or_false, not_or] at hy
  rw [prepared, update_field hy.2.2.2, update_field hy.2.2.1, update_field hy.2.1,
    update_field hy.1]

theorem saved_prepared {tp : UInt64} :
    saved (prepared sym proc satp tp memory) proc.trapFrame = saved memory proc.trapFrame :=
  funext fun r ↦ prepared_field (by cases r <;> decide)

theorem prepared_ready : Ready sym h proc (prepared sym proc sym.kernelSatp h memory) where
  satp := by
    rw [prepared, update_field (by decide), update_field (by decide), update_field (by decide)]
    exact Function.update_self ..
  sp := by
    rw [prepared, update_field (by decide), update_field (by decide)]
    exact Function.update_self ..
  trap := by
    rw [prepared, update_field (by decide)]
    exact Function.update_self ..
  hartid := Function.update_self ..

/-- The hart that `returnUserTrap` sends into the trampoline. -/
def leaving (sym : Symbols) (proc : Process) (hart : Hart) (pc : UInt64) : Hart :=
  { (((hart.setCsr .stvec sym.trampolineUserVector).setCsr .sstatus (withBits (withBits (withBits
      (hart.csr .sstatus) SIE 0) SPP 0) SPIE SPIE)).setCsr .sepc pc).set .a0 proc.satp with
    pc := sym.trampolineReturnUser }

/-- `returnUserTrap`, and `orfos_returnUser` from there. -/
theorem Inside.leave (hi : Inside sym h proc v m) (hf : Framed walk proc.satp proc.trapFrame) :
    Stand sym h proc v p walk ⟨leaving sym proc m.hart (m.memory (proc.trapFrame + epc)),
      prepared sym proc (m.hart.csr .satp) (m.hart.regs .tp) m.memory⟩ (.block p returnUser) := by
  have hquiet : (leaving sym proc m.hart (m.memory (proc.trapFrame + epc))).csr .sstatus &&& SIE =
      0 := by
    change withBits (withBits (withBits _ SIE 0) SPP 0) SPIE SPIE &&& SIE = 0
    rw [withBits_and_of_disjoint (by decide), withBits_and_of_disjoint (by decide),
      withBits_and_self]
    exact UInt64.zero_and
  have huser : (leaving sym proc m.hart (m.memory (proc.trapFrame + epc))).csr .sstatus &&& SPP =
      0 := by
    change withBits (withBits (withBits _ SIE 0) SPP 0) SPIE SPIE &&& SPP = 0
    rw [withBits_and_of_disjoint (by decide), withBits_and_self]
    exact UInt64.zero_and
  refine ⟨returnUser_plain, fun _ ↦ ⟨hi.mode, hquiet⟩, .inr ⟨_, run_returnUser
    (m := ⟨leaving sym proc m.hart (m.memory (proc.trapFrame + epc)), _⟩) hf.within hi.mode, ?_⟩⟩
  refine ⟨Hart.sret_mode huser, rfl, rfl, ?_, hi.view.trans ?_⟩
  · rw [hi.satp, hi.tp]
    exact prepared_ready
  · rw [saved_prepared]
    rfl

/-- One instruction of a block. -/
theorem Stand.instruction {i : Instr} {is : List Instr}
    (hs : Stand sym h proc v p walk m (.block p (i :: is))) :
    ∃ m', i.exec walk m = some m' ∧ (∀ x, ¬ InFrame proc.trapFrame x → m'.memory x = m.memory x) ∧
      Stand sym h proc v p walk m' (.block p is) := by
  obtain ⟨hplain, hquiet, hleads⟩ := hs
  -- only the last instruction may change the mode
  have hrest : ∀ m', i.exec walk m = some m' → (∀ j ∈ is.dropLast, j.plain = true) ∧
      (is ≠ [] → m'.hart.mode = .supervisor ∧ m'.hart.csr .sstatus &&& SIE = 0) := by
    intro m' hexec
    cases is with
    | nil => exact ⟨fun _ hj ↦ (List.not_mem_nil hj).elim, fun hne ↦ absurd rfl hne⟩
    | cons j js =>
      obtain ⟨hmode, hstatus⟩ := exec_plain (hplain i (List.mem_cons_self ..)) hexec
      obtain ⟨hm, hq⟩ := hquiet (List.cons_ne_nil _ _)
      refine ⟨fun k hk ↦ hplain k (List.mem_cons_of_mem _ hk), fun _ ↦ ⟨hmode.trans hm, ?_⟩⟩
      rw [hstatus, hq]
  obtain hl | hl := hleads
  · obtain ⟨m', hexec, hkeep, hl'⟩ := hl.step
    exact ⟨m', hexec, hkeep, (hrest m' hexec).1, (hrest m' hexec).2, .inl hl'⟩
  · obtain ⟨m', hexec, hkeep, hl'⟩ := hl.step
    exact ⟨m', hexec, hkeep, (hrest m' hexec).1, (hrest m' hexec).2, .inr hl'⟩

/-- The end of a block. -/
theorem Stand.arrive (hs : Stand sym h proc v p walk m (.block p [])) :
    (sym.leave p m.hart).owner = some p ∧ Stand sym h proc v p walk m (sym.leave p m.hart) := by
  obtain ⟨-, -, hl | hl⟩ := hs
  · have ha := hl.done
    have hmode : m.hart.mode ≠ .user := by
      rw [ha.mode]
      decide
    rw [Symbols.leave, if_neg hmode, if_pos ha.pc]
    exact ⟨rfl, ha⟩
  · have hu := hl.done
    rw [Symbols.leave, if_pos hu.mode]
    exact ⟨rfl, hu⟩

end

/-! ### The invariant -/

/-- What holds on a hart of the machine. -/
def Holds (sym : Symbols) (s : System) (σ : Views) (h : UInt64) : Prop :=
  match (s.core h).work.owner with
  | some p => ∃ proc v, s.table p = some proc ∧ σ p = some v ∧ s.process h = some p ∧
      Stand sym h proc v p s.walk ⟨(s.core h).hart, s.memory⟩ (s.core h).work
  | none => (s.core h).work ≠ .fault ∧ (s.core h).hart.csr .stvec = sym.orfos_kernelVector ∧
      ((s.core h).work = .scheduler → InKernel sym h (s.core h).hart ∧ s.process h = none)

/-- The machine stands for the processes: each has one thread, no trap frame is shared, and no user
reaches one. -/
structure Inv (sym : Symbols) (s : System) (σ : Views) : Prop where
  framed : ∀ p proc, s.table p = some proc → Framed s.walk proc.satp proc.trapFrame
  apart : ∀ p q proc proc' x, p ≠ q → s.table p = some proc → s.table q = some proc' →
    InFrame proc.trapFrame x → ¬ InFrame proc'.trapFrame x
  hidden : ∀ p proc x satp a, s.table p = some proc → InFrame proc.trapFrame x →
    s.walk .user satp a ≠ some x
  live : ∀ p, σ p = none ↔ s.table p = none
  holds : ∀ h, Holds sym s σ h
  single : ∀ h h' p, (s.core h).work.owner = some p → (s.core h').work.owner = some p → h = h'
  waits : ∀ p pc, s.parked p = some pc → (∀ h, (s.core h).work.owner ≠ some p) ∧
    pc ≠ .userTrap ∧ (∀ h, pc.Own h p) ∧ ∃ proc, s.table p = some proc ∧
      σ p = some (frameView s.memory proc.trapFrame)

section

variable {sym : Symbols} {s s' : System} {σ σ' : Views} {h h' : UInt64} {p q : Nat} {c : Core}
  {proc : Process} {v v' : View} {walk : Walk} {memory : UInt64 → UInt64} {pc : Pc}

theorem Pc.Whole.own (hw : pc.Whole) (ho : pc.Own h p) : pc.Own h' p := by
  cases pc with
  | process cpu k => exact hw.elim
  | _ => exact ho

theorem Holds.of_owner (hh : Holds sym s σ h) (ho : (s.core h).work.owner = some p) :
    ∃ proc v, s.table p = some proc ∧ σ p = some v ∧ s.process h = some p ∧
      Stand sym h proc v p s.walk ⟨(s.core h).hart, s.memory⟩ (s.core h).work := by
  rwa [Holds, ho] at hh

theorem Holds.mk_owner (hc : s.core h = c) (ho : c.work.owner = some p)
    (ht : s.table p = some proc) (hv : σ p = some v) (hp : s.process h = some p)
    (hs : Stand sym h proc v p s.walk ⟨c.hart, s.memory⟩ c.work) : Holds sym s σ h := by
  rw [Holds, hc, ho]
  exact ⟨proc, v, ht, hv, hp, hs⟩

theorem Holds.mk_idle (hc : s.core h = c) (ho : c.work.owner = none) (hf : c.work ≠ .fault)
    (hvec : c.hart.csr .stvec = sym.orfos_kernelVector)
    (hs : c.work = .scheduler → InKernel sym h c.hart ∧ s.process h = none) : Holds sym s σ h := by
  rw [Holds, hc, ho]
  exact ⟨hf, hvec, hs⟩

/-- A hart goes on as it was where its thread's trap frame and its place are. -/
theorem Holds.congr (hh : Holds sym s σ h) (hcore : s'.core h = s.core h)
    (hprocess : s'.process h = s.process h)
    (hkeep : ∀ p proc, (s.core h).work.owner = some p → s.table p = some proc →
      s'.table p = some proc ∧ σ' p = σ p ∧
      (∀ x, InFrame proc.trapFrame x → s'.memory x = s.memory x) ∧
      ∀ mode satp a x, InFrame proc.trapFrame x → s.walk mode satp a = some x →
        s'.walk mode satp a = some x) : Holds sym s' σ' h := by
  cases ho : (s.core h).work.owner with
  | some p =>
    obtain ⟨proc, v, ht, hv, hp, hs⟩ := hh.of_owner ho
    obtain ⟨ht', hσ, hmem, hwalk⟩ := hkeep p proc ho ht
    exact .mk_owner hcore ho ht' (hσ.trans hv) (hprocess.trans hp) (hs.congr hmem hwalk)
  | none =>
    rw [Holds, ho] at hh
    rw [Holds, hcore, ho, hprocess]
    exact hh

/-- What a hart may do to the memory and to translation: other threads keep their trap frames. -/
structure Considerate (s : System) (own : Option Nat) (memory : UInt64 → UInt64) (walk : Walk) :
    Prop where
  kept : ∀ p proc x, own ≠ some p → s.table p = some proc → InFrame proc.trapFrame x →
    memory x = s.memory x
  mapped : ∀ p proc x mode satp a, s.table p = some proc → InFrame proc.trapFrame x →
    s.walk mode satp a = some x → walk mode satp a = some x
  hidden : ∀ p proc x satp a, s.table p = some proc → InFrame proc.trapFrame x →
    walk .user satp a ≠ some x

theorem Framed.mono {satp f : UInt64} {walk' : Walk} (hf : Framed walk satp f)
    (hw : ∀ mode satp a x, InFrame f x → walk mode satp a = some x → walk' mode satp a = some x) :
    Framed walk' satp f :=
  fun _ hx h8 ↦ hw _ _ _ _ (inFrame_field hx) (hf _ hx h8)

/-- A hart goes on with its thread, or ends it. -/
theorem Inv.core (hI : Inv sym s σ) (hc : Considerate s (s.core h).work.owner memory walk)
    (howner : c.work.owner = none ∨ c.work.owner = (s.core h).work.owner)
    (hσ : ∀ q, (s.core h).work.owner ≠ some q → σ' q = σ q) (hlive : ∀ q, σ' q = none ↔ σ q = none)
    (hholds : Holds sym { s with core := Function.update s.core h c, memory := memory, walk := walk }
      σ' h) :
    Inv sym { s with core := Function.update s.core h c, memory := memory, walk := walk } σ' := by
  have hcore : ∀ h', h' ≠ h → Function.update s.core h c h' = s.core h' :=
    fun h' hne ↦ Function.update_of_ne hne ..
  -- a thread on a hart was there before
  have hbefore : ∀ h' p, (Function.update s.core h c h').work.owner = some p →
      (s.core h').work.owner = some p := by
    intro h' p ho
    by_cases hne : h' = h
    · subst hne
      rw [Function.update_self] at ho
      obtain hnone | hsame := howner
      · rw [ho] at hnone
        cases hnone
      · rw [← hsame, ho]
    · rwa [hcore h' hne] at ho
  have hnot : ∀ h' p, h' ≠ h → (s.core h').work.owner = some p → (s.core h).work.owner ≠ some p :=
    fun h' p hne ho ho' ↦ hne (hI.single h' h p ho ho')
  refine ⟨fun p proc ht ↦ (hI.framed p proc ht).mono fun mode satp a x hx ↦ ?_, hI.apart,
    hc.hidden, fun q ↦ (hlive q).trans (hI.live q), fun h' ↦ ?_, fun h₁ h₂ p h₁o h₂o ↦ ?_,
    fun p pc hp ↦ ?_⟩
  · exact hc.mapped p proc x mode satp a ht hx
  · by_cases hne : h' = h
    · exact hne ▸ hholds
    · refine (hI.holds h').congr (hcore h' hne) rfl fun p proc ho ht ↦ ?_
      exact ⟨ht, hσ p (hnot h' p hne ho), fun x ↦ hc.kept p proc x (hnot h' p hne ho) ht,
        fun mode satp a x ↦ hc.mapped p proc x mode satp a ht⟩
  · exact hI.single h₁ h₂ p (hbefore h₁ p h₁o) (hbefore h₂ p h₂o)
  · obtain ⟨hno, hpc, hown, proc, ht, hv⟩ := hI.waits p pc hp
    refine ⟨fun h' ho ↦ hno h' (hbefore h' p ho), hpc, hown, proc, ht, ?_⟩
    have hmem : ∀ x, InFrame proc.trapFrame x → memory x = s.memory x :=
      fun x ↦ hc.kept p proc x (hno h) ht
    rw [hσ p (hno h), hv, ← frameView_congr hmem]

/-- Memory outside of a trap frame is not in the others' frames. -/
theorem Inv.considerate (hI : Inv sym s σ) (ht : s.table p = some proc)
    (hmem : ∀ x, ¬ InFrame proc.trapFrame x → memory x = s.memory x) :
    Considerate s (some p) memory s.walk where
  kept q proc' x hq hq' hx := by
    refine hmem x fun hx' ↦ ?_
    exact hI.apart p q proc proc' x (fun he ↦ hq (congrArg some he)) ht hq' hx' hx
  mapped _ _ _ _ _ _ _ _ hw := hw
  hidden := hI.hidden

/-- A thread goes on. -/
theorem Inv.thread (hI : Inv sym s σ) (ho : (s.core h).work.owner = some p)
    (ht : s.table p = some proc) (hp : s.process h = some p)
    (hc : Considerate s (some p) memory walk) (hw : c.work.owner = some p)
    (hs : Stand sym h proc v' p walk ⟨c.hart, memory⟩ c.work) :
    Inv sym { s with core := Function.update s.core h c, memory := memory, walk := walk }
      (Function.update σ p (some v')) := by
  refine hI.core (ho.symm ▸ hc) (.inr (hw.trans ho.symm)) (fun q hq ↦ ?_) (fun q ↦ ?_) ?_
  · exact Function.update_of_ne (fun he ↦ hq (by rw [ho, he])) ..
  · by_cases he : q = p
    · subst he
      rw [Function.update_self, hI.live, ht]
      simp
    · rw [Function.update_of_ne he]
  · exact .mk_owner (Function.update_self ..) hw ht (Function.update_self ..) hp hs

/-- A thread goes on, and its process sees nothing of it. -/
theorem Inv.silent (hI : Inv sym s σ) (ho : (s.core h).work.owner = some p)
    (ht : s.table p = some proc) (hv : σ p = some v) (hp : s.process h = some p)
    (hc : Considerate s (some p) memory walk) (hw : c.work.owner = some p)
    (hs : Stand sym h proc v p walk ⟨c.hart, memory⟩ c.work) :
    Inv sym { s with core := Function.update s.core h c, memory := memory, walk := walk } σ := by
  have hsame : Function.update σ p (some v) = σ := by rw [← hv, Function.update_eq_self]
  exact hsame ▸ hI.thread ho ht hp hc hw hs

end

end Orfos.Trap
