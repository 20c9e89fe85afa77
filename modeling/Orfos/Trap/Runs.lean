import Orfos.Trap.Isolation

/-!
# The machine runs the processes

Each step of the machine is a step of the processes, and so is every run.
-/

namespace Orfos.Trap

open Orfos.Base Orfos.Base.Riscv
open TrapFrame

variable {sym : Symbols} {s : System} {σ : Views} {h : UInt64} {p q : Nat} {proc : Process}
  {v : View} {memory : UInt64 → UInt64} {walk : Walk} {pc : Pc} {w : Work}

/-- The thread of a hart. -/
theorem Inv.thread_at (hI : Inv sym s σ) (hw : (s.core h).work = w) (ho : w.owner = some p) :
    (s.core h).work.owner = some p ∧ ∃ proc v, s.table p = some proc ∧ σ p = some v ∧
      s.process h = some p ∧ Stand sym h proc v p s.walk ⟨(s.core h).hart, s.memory⟩ w := by
  have ho' : (s.core h).work.owner = some p := by rw [hw, ho]
  exact ⟨ho', hw ▸ (hI.holds h).of_owner ho'⟩

theorem Inv.compute (hI : Inv sym s σ) (hw : (s.core h).work = .user p)
    (hreach : ∀ x, memory x ≠ s.memory x →
      ∃ a, s.walk .user ((s.core h).hart.csr .satp) a = some x) :
    ∃ σ', σ.Step (.compute p (view (s.core h).hart) v) σ' ∧
      Inv sym { s.setCore h ⟨resume (s.core h).hart v, .user p⟩ with memory := memory } σ' := by
  obtain ⟨ho, proc, v₀, ht, hv, hp, hs⟩ := hI.thread_at hw rfl
  -- no user reaches a trap frame
  have hkeep : ∀ q proc x, s.table q = some proc → InFrame proc.trapFrame x →
      memory x = s.memory x := by
    intro q proc x hq hx
    by_contra hne
    obtain ⟨a, ha⟩ := hreach x hne
    exact hI.hidden q proc x _ a hq hx ha
  refine ⟨_, .compute p _ v (hv.trans (congrArg some hs.view)), hI.thread ho ht hp
    ⟨fun q proc x _ ↦ hkeep q proc x, fun _ _ _ _ _ _ _ _ hw ↦ hw, hI.hidden⟩ rfl ?_⟩
  exact ⟨hs.mode, hs.satp, hs.stvec, hs.ready.congr fun x ↦ hkeep p proc x ht, rfl⟩

theorem Inv.trap (hI : Inv sym s σ) (hw : (s.core h).work = .user p) (cause tval : UInt64) :
    Inv sym (s.setCore h ⟨(s.core h).hart.trap cause tval,
      sym.enter p ((s.core h).hart.trap cause tval)⟩) σ := by
  obtain ⟨ho, proc, v₀, ht, hv, hp, hs⟩ := hI.thread_at hw rfl
  have henter : sym.enter p ((s.core h).hart.trap cause tval) = .block p userVector :=
    if_pos hs.stvec
  rw [henter]
  exact hI.silent ho ht hv hp (hI.considerate ht fun _ _ ↦ rfl) rfl
    (hs.trap (hI.framed p proc ht) cause tval)

theorem Inv.instruction {i : Instr} {is : List Instr} (hI : Inv sym s σ)
    (hw : (s.core h).work = .block p (i :: is)) : Inv sym (s.instruction h p i is) σ := by
  obtain ⟨ho, proc, v₀, ht, hv, hp, hs⟩ := hI.thread_at hw rfl
  obtain ⟨m, hexec, hkeep, hs'⟩ := hs.instruction
  rw [System.instruction, hexec]
  exact hI.silent ho ht hv hp (hI.considerate ht hkeep) rfl hs'

theorem Inv.arrive (hI : Inv sym s σ) (hw : (s.core h).work = .block p []) :
    Inv sym (s.setWork h (sym.leave p (s.core h).hart)) σ := by
  obtain ⟨ho, proc, v₀, ht, hv, hp, hs⟩ := hI.thread_at hw rfl
  exact hI.silent ho ht hv hp (hI.considerate ht fun _ _ ↦ rfl) hs.arrive.1 hs.arrive.2

/-- Interrupts are on in the kernel only where `stvec` is the kernel's. -/
theorem Inv.interrupt (hI : Inv sym s σ) (hmode : (s.core h).hart.mode = .supervisor)
    (hsie : (s.core h).hart.csr .sstatus &&& SIE ≠ 0) : Inv sym (s.interrupt sym h) σ := by
  have hvec : (s.core h).hart.csr .stvec = sym.orfos_kernelVector := by
    cases hw : (s.core h).work with
    | user p =>
      obtain ⟨_, _, _, _, _, _, hs⟩ := hI.thread_at hw rfl
      have huser := hs.mode
      rw [hmode] at huser
      cases huser
    | block p is =>
      obtain ⟨_, _, _, _, _, _, _, hquiet, hleads⟩ := hI.thread_at hw rfl
      by_cases hne : is = []
      · subst hne
        obtain hl | hl := hleads
        · exact absurd hl.done.quiet hsie
        · have huser := hl.done.mode
          rw [hmode] at huser
          cases huser
      · exact absurd (hquiet hne).2 hsie
    | kernel p pc =>
      obtain ⟨_, _, _, _, _, _, hs⟩ := hI.thread_at hw rfl
      cases pc with
      | userTrap => exact absurd hs.quiet hsie
      | _ => exact hs.1.stvec
    | _ =>
      have hh := hI.holds h
      rw [Holds, hw] at hh
      exact hh.2.1
  rw [System.interrupt, if_pos hvec]
  exact hI

/-! ### The kernel -/

theorem InFrame.of_store {f x y a : UInt64} (hx : x < size) (hy : ¬ InFrame f y) :
    Function.update memory (f + x) a y = memory y := by
  have hne : y ≠ f + x := fun he ↦ hy (he ▸ inFrame_field hx)
  exact Function.update_of_ne hne ..

theorem frameView_epc {f x : UInt64} :
    frameView (Function.update memory (f + epc) x) f = ⟨saved memory f, x⟩ := by
  have hregs : saved (Function.update memory (f + epc) x) f = saved memory f :=
    funext fun r ↦ update_field (by cases r <;> decide)
  rw [frameView, hregs, Function.update_self]

theorem frameView_register {f x : UInt64} {r : Reg} :
    frameView (Function.update memory (f + offset r) x) f =
      ⟨Function.update (saved memory f) r x, memory (f + epc)⟩ := by
  have hregs : saved (Function.update memory (f + offset r) x) f =
      Function.update (saved memory f) r x := by
    funext r'
    by_cases he : r' = r
    · subst he
      rw [Function.update_self]
      exact Function.update_self ..
    · rw [Function.update_of_ne he]
      exact update_field fun ho ↦ he (offset_injective ho)
  rw [frameView, hregs, update_field (by cases r <;> decide)]

/-- `userTrap` finds its process and notes where it has to go on. -/
theorem Inv.userTrap (hI : Inv sym s σ) (hw : (s.core h).work = .kernel p .userTrap) :
    ∃ σ', σ.Step (if (s.core h).hart.csr .scause = 0x08 ∨ (s.core h).hart.csr .scause = 0x0F then
      .skip p else .none) σ' ∧ Inv sym (s.userTrap sym h p) σ' := by
  obtain ⟨ho, proc, v₀, ht, hv, hp, hs⟩ := hI.thread_at hw rfl
  have ha : Arrived sym h proc v₀ ⟨(s.core h).hart, s.memory⟩ := hs
  have hlook : s.process ((s.core h).hart.regs .tp) = some p := by rw [ha.tp, hp]
  have hkeep : ∀ x, Considerate s (some p) (Function.update s.memory (proc.trapFrame + epc) x)
      s.walk := fun x ↦ hI.considerate ht fun y hy ↦ InFrame.of_store (by decide) hy
  -- what holds behind the store of `epc`, whether interrupts are on or not
  have hinside : ∀ x sstatus, Inside sym h proc ⟨saved s.memory proc.trapFrame, x⟩
      ⟨((s.core h).hart.setCsr .stvec sym.orfos_kernelVector).setCsr .sstatus sstatus,
        Function.update s.memory (proc.trapFrame + epc) x⟩ :=
    fun x sstatus ↦ ⟨⟨ha.mode, ha.tp, ha.satp⟩, rfl, frameView_epc.symm⟩
  have hplain : Inside sym h proc v₀ ⟨(s.core h).hart.setCsr .stvec sym.orfos_kernelVector,
      Function.update s.memory (proc.trapFrame + epc) ((s.core h).hart.csr .sepc)⟩ :=
    ⟨⟨ha.mode, ha.tp, ha.satp⟩, rfl, ha.view.trans frameView_epc.symm⟩
  have hview : (⟨saved s.memory proc.trapFrame, (s.core h).hart.csr .sepc + 4⟩ : View) =
      { v₀ with pc := v₀.pc + 4 } := by rw [ha.view]
  unfold System.userTrap
  dsimp only
  rw [if_neg (not_not.mpr ha.user), hlook]
  dsimp only
  rw [ht]
  dsimp only
  by_cases h8 : (s.core h).hart.csr .scause = 0x08
  · rw [if_pos h8, if_pos (.inl h8)]
    exact ⟨_, .skip p v₀ hv, hview ▸ hI.thread ho ht hp (hkeep _) rfl ⟨hinside _ _, trivial⟩⟩
  rw [if_neg h8]
  by_cases hf : (s.core h).hart.csr .scause = 0x0F
  · rw [if_pos hf, if_pos (.inr hf)]
    exact ⟨_, .skip p v₀ hv, hview ▸ hI.thread ho ht hp (hkeep _) rfl ⟨hinside _ _, trivial⟩⟩
  rw [if_neg hf, if_neg (not_or.mpr ⟨h8, hf⟩)]
  refine ⟨σ, .none, ?_⟩
  split
  · -- a panic ends the thread
    refine hI.core (ho.symm ▸ hkeep _) (.inl rfl) (fun _ _ ↦ rfl) (fun _ ↦ Iff.rfl) ?_
    exact .mk_idle (Function.update_self ..) rfl (fun hno ↦ by cases hno) rfl
      (fun hno ↦ by cases hno)
  · exact hI.silent ho ht hv hp (hkeep _) rfl ⟨hplain, trivial⟩

/-- The thread of a hart in C++ code. -/
theorem Inv.inside (hI : Inv sym s σ) (hw : (s.core h).work = .kernel p pc) (hpc : pc ≠ .userTrap) :
    (s.core h).work.owner = some p ∧ ∃ proc v, s.table p = some proc ∧ σ p = some v ∧
      s.process h = some p ∧ Inside sym h proc v ⟨(s.core h).hart, s.memory⟩ ∧ pc.Own h p := by
  obtain ⟨ho, proc, v, ht, hv, hp, hs⟩ := hI.thread_at hw rfl
  refine ⟨ho, proc, v, ht, hv, hp, ?_⟩
  cases pc with
  | userTrap => exact absurd rfl hpc
  | _ => exact hs

theorem Stand.of_inside {m : Machine} (hi : Inside sym h proc v m) (hpc : pc ≠ .userTrap)
    (hown : pc.Own h p) : Stand sym h proc v p walk m (.kernel p pc) := by
  cases pc with
  | userTrap => exact absurd rfl hpc
  | _ => exact ⟨hi, hown⟩

/-- The thread goes to another place in the kernel. -/
theorem Inv.move {pc' : Pc} (hI : Inv sym s σ) (hw : (s.core h).work = .kernel p pc)
    (hpc : pc ≠ .userTrap) (hpc' : pc' ≠ .userTrap)
    (hown : (s.core h).hart.regs .tp = h → pc.Own h p → pc'.Own h p) :
    Inv sym (s.setWork h (.kernel p pc')) σ := by
  obtain ⟨ho, proc, v, ht, hv, hp, hi, hpown⟩ := hI.inside hw hpc
  exact hI.silent ho ht hv hp (hI.considerate ht fun _ _ ↦ rfl) rfl
    (.of_inside hi hpc' (hown hi.tp hpown))

/-- The kernel sets a register of the process, in its trap frame. -/
theorem Inv.assign {pc' : Pc} (hI : Inv sym s σ) (hw : (s.core h).work = .kernel p pc)
    (hpc : pc ≠ .userTrap) (hpc' : pc' ≠ .userTrap) (hown : pc'.Own h p) (r : Reg) (x : UInt64) :
    ∃ σ', σ.Step (.assign p r x) σ' ∧
      Inv sym (s.assign h p (offset r) x (.kernel p pc')) σ' := by
  obtain ⟨ho, proc, v, ht, hv, hp, hi, -⟩ := hI.inside hw hpc
  refine ⟨_, .assign p r x v hv, ?_⟩
  rw [System.assign, ht]
  refine hI.thread ho ht hp (hI.considerate ht fun y hy ↦ InFrame.of_store (offset_lt r) hy) rfl
    (.of_inside ⟨hi.toInKernel, hi.stvec, ?_⟩ hpc' hown)
  have hview : v = frameView s.memory proc.trapFrame := hi.view
  rw [hview]
  exact frameView_register.symm

theorem Inv.jump {pc' : Pc} (hI : Inv sym s σ) (hw : (s.core h).work = .kernel p pc)
    (hpc : pc ≠ .userTrap) (hpc' : pc' ≠ .userTrap) (hown : pc'.Own h p) (x : UInt64) :
    ∃ σ', σ.Step (.jump p x) σ' ∧ Inv sym (s.assign h p epc x (.kernel p pc')) σ' := by
  obtain ⟨ho, proc, v, ht, hv, hp, hi, -⟩ := hI.inside hw hpc
  refine ⟨_, .jump p x v hv, ?_⟩
  rw [System.assign, ht]
  refine hI.thread ho ht hp (hI.considerate ht fun y hy ↦ InFrame.of_store (by decide) hy) rfl
    (.of_inside ⟨hi.toInKernel, hi.stvec, ?_⟩ hpc' hown)
  have hview : v = frameView s.memory proc.trapFrame := hi.view
  rw [hview]
  exact frameView_epc.symm

theorem Inv.lookup {cpu : UInt64} {k : Task} (hI : Inv sym s σ)
    (hw : (s.core h).work = .kernel p (.process cpu k)) : Inv sym (s.lookup h p cpu k) σ := by
  obtain ⟨-, _, _, -, -, hp, -, hown⟩ := hI.inside hw (by simp)
  have hcpu : cpu = h := hown
  subst hcpu
  unfold System.lookup
  rw [hp]
  exact hI.move hw (by simp) (by simp) fun _ _ ↦ rfl

theorem Inv.syscall (hI : Inv sym s σ) (hw : (s.core h).work = .kernel p (.found q .syscall)) :
    ∃ σ', σ.Step (if s.unknown q then .assign p .a0 (-1) else .none) σ' ∧
      Inv sym (s.syscall h p q) σ' := by
  obtain ⟨-, proc, _, ht, -, -, -, hown⟩ := hI.inside hw (by simp)
  have hq : q = p := hown
  subst hq
  have hown' : (Pc.current .returnUserTrap).Own h q := trivial
  have hfinish := hI.assign hw (by simp) (by simp) hown' .a0 (-1)
  rw [System.assign, ht] at hfinish
  rw [System.syscall, ht]
  dsimp only
  split
  · exact hfinish
  · exact ⟨σ, .none, hI.move hw (by simp) (by simp) fun _ _ ↦ rfl⟩

theorem Inv.returnUserTrap (hI : Inv sym s σ)
    (hw : (s.core h).work = .kernel p (.found q .returnUserTrap)) :
    Inv sym (s.returnUserTrap sym h q) σ := by
  obtain ⟨ho, proc, v, ht, hv, hp, hi, hown⟩ := hI.inside hw (by simp)
  have hq : q = p := hown
  subst hq
  have hepc : prepared sym proc ((s.core h).hart.csr .satp) ((s.core h).hart.regs .tp) s.memory
      (proc.trapFrame + epc) = s.memory (proc.trapFrame + epc) := prepared_field (by decide)
  have hs : Stand sym h proc v q s.walk ⟨leaving sym proc (s.core h).hart
      (s.memory (proc.trapFrame + epc)), prepared sym proc ((s.core h).hart.csr .satp)
      ((s.core h).hart.regs .tp) s.memory⟩ (.block q returnUser) := hi.leave (hI.framed q proc ht)
  rw [← hepc] at hs
  rw [System.returnUserTrap, ht]
  refine hI.silent ho ht hv hp (hI.considerate ht fun x hx ↦ ?_) rfl hs
  change prepared sym proc _ _ s.memory x = s.memory x
  rw [prepared, InFrame.of_store (by decide) hx, InFrame.of_store (by decide) hx,
    InFrame.of_store (by decide) hx, InFrame.of_store (by decide) hx]

/-- C++ code runs. -/
theorem Inv.kernel {hart : Hart} (hI : Inv sym s σ) (hw : (s.core h).work.Free)
    (hgoes : Goes (s.core h).hart hart) (hspares : s.Spares memory walk) :
    Inv sym { s.setCore h ⟨hart, (s.core h).work⟩ with memory := memory, walk := walk } σ := by
  have hc : ∀ own, Considerate s own memory walk := fun own ↦
    ⟨fun p proc x _ ↦ hspares.kept p proc x, hspares.mapped, hspares.hidden⟩
  cases hwork : (s.core h).work with
  | scheduler =>
    have hh := hI.holds h
    rw [Holds, hwork] at hh
    obtain ⟨-, hvec, hin⟩ := hh
    obtain ⟨hin, hprocess⟩ := hin rfl
    refine hI.core (hc _) (.inl rfl) (fun _ _ ↦ rfl) (fun _ ↦ Iff.rfl) (.mk_idle
      (Function.update_self ..) rfl (fun hno ↦ by cases hno) (hgoes.stvec.trans hvec) fun _ ↦ ?_)
    exact ⟨⟨hgoes.mode.trans hin.mode, hgoes.tp.trans hin.tp, hgoes.satp.trans hin.satp⟩, hprocess⟩
  | kernel p pc =>
    rw [hwork] at hw
    have hpc : pc ≠ .userTrap := hw
    obtain ⟨ho, proc, v, ht, hv, hp, hi, hown⟩ := hI.inside hwork hpc
    have hi' := hi.congr fun x ↦ hspares.kept p proc x ht
    refine hI.silent ho ht hv hp (hc _) rfl (.of_inside ⟨⟨hgoes.mode.trans hi.mode,
      hgoes.tp.trans hi.tp, hgoes.satp.trans hi.satp⟩, hgoes.stvec.trans hi.stvec, hi'.view⟩
      hpc hown)
  | _ =>
    rw [hwork] at hw
    exact hw.elim

/-- `exec` replaces the page table of its process. -/
theorem Inv.replace {satp : UInt64} (hI : Inv sym s σ) (hw : (s.core h).work = .kernel p (.handler q))
    (hq : s.table q = some proc) (hf : Framed s.walk satp proc.trapFrame) :
    Inv sym { s with table := Function.update s.table q (some { proc with satp := satp }) } σ := by
  obtain ⟨ho, _, v, ht, hv, hp, hi, hown⟩ := hI.inside hw (by simp)
  have hqp : q = p := hown
  subst hqp
  cases hq.symm.trans ht
  -- an entry of the table has the trap frame of an entry that was there
  have hold : ∀ n proc', Function.update s.table q (some { proc with satp := satp }) n = some proc' →
      ∃ proc₀, s.table n = some proc₀ ∧ proc₀.trapFrame = proc'.trapFrame ∧
        Framed s.walk proc'.satp proc'.trapFrame := by
    intro n proc' hn
    by_cases he : n = q
    · subst he
      rw [Function.update_self] at hn
      cases hn
      exact ⟨proc, ht, rfl, hf⟩
    · rw [Function.update_of_ne he] at hn
      exact ⟨proc', hn, rfl, hI.framed n proc' hn⟩
  refine ⟨fun n proc' hn ↦ ?_, fun n n' proc₁ proc₂ x hne h₁ h₂ ↦ ?_, fun n proc' x satp a hn ↦ ?_,
    fun n ↦ ?_, fun h' ↦ ?_, hI.single, fun n pc hn ↦ ?_⟩
  · obtain ⟨-, -, -, hf'⟩ := hold n proc' hn
    exact hf'
  · obtain ⟨proc₁', h₁', he₁, -⟩ := hold n proc₁ h₁
    obtain ⟨proc₂', h₂', he₂, -⟩ := hold n' proc₂ h₂
    rw [← he₁, ← he₂]
    exact hI.apart n n' proc₁' proc₂' x hne h₁' h₂'
  · obtain ⟨proc₀, h₀, he, -⟩ := hold n proc' hn
    rw [← he]
    exact hI.hidden n proc₀ x satp a h₀
  · refine (hI.live n).trans ?_
    change s.table n = none ↔ Function.update s.table q (some { proc with satp := satp }) n = none
    by_cases he : n = q
    · subst he
      rw [Function.update_self, ht]
      simp
    · rw [Function.update_of_ne he]
  · by_cases he : h' = h
    · subst he
      have hs : Stand sym h' { proc with satp := satp } v q s.walk ⟨(s.core h').hart, s.memory⟩
          (s.core h').work := by
        rw [hw]
        exact .of_inside ⟨hi.toInKernel, hi.stvec, hi.view⟩ (by simp) hown
      exact .mk_owner rfl ho (Function.update_self ..) hv hp hs
    · refine (hI.holds h').congr rfl rfl fun n proc' hn hproc ↦ ?_
      have hne : n ≠ q := fun heq ↦ he (hI.single h' h q (heq ▸ hn) ho)
      exact ⟨(Function.update_of_ne hne ..).trans hproc, rfl, fun _ _ ↦ rfl, fun _ _ _ _ _ hx ↦ hx⟩
  · obtain ⟨hno, hpc, hpown, proc', hproc, hview⟩ := hI.waits n pc hn
    have hne : n ≠ q := fun heq ↦ hno h (heq ▸ ho)
    exact ⟨hno, hpc, hpown, proc', (Function.update_of_ne hne ..).trans hproc, hview⟩

/-- The copy of a trap frame. -/
theorem frameView_copyFrame {f g : UInt64} : frameView (s.copyFrame f g).memory g =
    { frameView s.memory f with regs := Function.update (saved s.memory f) .a0 0 } := by
  have hfield : ∀ x < size, (s.copyFrame f g).memory (g + x) =
      if x = offset .a0 then 0 else s.memory (f + x) := by
    intro x hx
    have hsub : g + x - g = x := by rw [UInt64.add_comm, UInt64.add_sub_cancel]
    rw [System.copyFrame]
    dsimp only
    rw [if_pos (inFrame_field hx), hsub]
    simp only [UInt64.add_right_inj]
  have hregs : saved (s.copyFrame f g).memory g = Function.update (saved s.memory f) .a0 0 := by
    funext r
    rw [saved, hfield _ (offset_lt r)]
    by_cases hr : r = .a0
    · subst hr
      rw [if_pos rfl, Function.update_self]
    · rw [if_neg fun he ↦ hr (offset_injective he), Function.update_of_ne hr]
      rfl
  rw [frameView, hregs, hfield _ (by decide), if_neg (by decide)]
  rfl

/-- `fork` makes a child. -/
theorem Inv.fork {c : Nat} {child : Process} (hI : Inv sym s σ)
    (hw : (s.core h).work = .kernel p (.handler q)) (hq : s.table q = some proc)
    (hc : s.table c = none) (hfresh : s.Fresh child) :
    ∃ σ', σ.Step (.fork p c) σ' ∧
      Inv sym { s.copyFrame proc.trapFrame child.trapFrame with
        table := Function.update s.table c (some child)
        parked := Function.update s.parked c (some (.current .returnUserTrap)) } σ' := by
  obtain ⟨ho, _, v, ht, hv, hp, hi, hown⟩ := hI.inside hw (by simp)
  have hqp : q = p := hown
  subst hqp
  cases hq.symm.trans ht
  have hview : v = frameView s.memory proc.trapFrame := hi.view
  -- the memory outside of the new trap frame is as it was
  have hmem : ∀ n proc' x, s.table n = some proc' → InFrame proc'.trapFrame x →
      (s.copyFrame proc.trapFrame child.trapFrame).memory x = s.memory x :=
    fun n proc' x hn hx ↦ if_neg (hfresh.apart n proc' x hn hx)
  have hne : ∀ n proc', s.table n = some proc' → n ≠ c := by
    rintro n proc' hn rfl
    rw [hc] at hn
    cases hn
  have hold : ∀ n proc', n ≠ c → Function.update s.table c (some child) n = some proc' →
      s.table n = some proc' := by
    intro n proc' hnc hn
    rwa [Function.update_of_ne hnc] at hn
  have hnew : ∀ proc', Function.update s.table c (some child) c = some proc' → proc' = child := by
    intro proc' hn
    rw [Function.update_self] at hn
    cases hn
    rfl
  refine ⟨_, .fork q c v hv ((hI.live c).mpr hc), fun n proc' hn ↦ ?_,
    fun n n' proc₁ proc₂ x hdiff h₁ h₂ hx ↦ ?_, fun n proc' x satp a hn ↦ ?_, fun n ↦ ?_,
    fun h' ↦ ?_, hI.single, fun n pc hn ↦ ?_⟩
  · by_cases he : n = c
    · subst he
      exact hnew proc' hn ▸ hfresh.framed
    · exact hI.framed n proc' (hold n proc' he hn)
  · by_cases he : n = c
    · subst he
      cases hnew proc₁ h₁
      exact fun hx' ↦ hfresh.apart n' proc₂ x (hold n' proc₂ hdiff.symm h₂) hx' hx
    · by_cases he' : n' = c
      · subst he'
        cases hnew proc₂ h₂
        exact hfresh.apart n proc₁ x (hold n proc₁ he h₁) hx
      · exact hI.apart n n' proc₁ proc₂ x hdiff (hold n proc₁ he h₁) (hold n' proc₂ he' h₂) hx
  · by_cases he : n = c
    · subst he
      exact hnew proc' hn ▸ hfresh.hidden x satp a
    · exact hI.hidden n proc' x satp a (hold n proc' he hn)
  · change Function.update σ c _ n = none ↔ Function.update s.table c (some child) n = none
    by_cases he : n = c
    · subst he
      rw [Function.update_self, Function.update_self]
      simp
    · rw [Function.update_of_ne he, Function.update_of_ne he]
      exact hI.live n
  · refine (hI.holds h').congr rfl rfl fun n proc' _ hn ↦ ?_
    have hnc := hne n proc' hn
    exact ⟨(Function.update_of_ne hnc ..).trans hn, Function.update_of_ne hnc .., fun x ↦
      hmem n proc' x hn, fun _ _ _ _ _ hx ↦ hx⟩
  · by_cases he : n = c
    · subst he
      rw [show pc = .current .returnUserTrap from
        Option.some_inj.mp (hn.symm.trans (Function.update_self ..))]
      refine ⟨fun h' ho' ↦ ?_, by simp, fun _ ↦ trivial, child, Function.update_self .., ?_⟩
      · obtain ⟨proc', _, hn', -⟩ := (hI.holds h').of_owner ho'
        exact hne n proc' hn' rfl
      · change Function.update σ n _ n = some (frameView (s.copyFrame _ _).memory _)
        rw [Function.update_self, frameView_copyFrame, hview]
        rfl
    · have hn' : s.parked n = some pc := (Function.update_of_ne he ..).symm.trans hn
      obtain ⟨hno, hpc, hpown, proc', hproc, hview'⟩ := hI.waits n pc hn'
      refine ⟨hno, hpc, hpown, proc', (Function.update_of_ne he ..).trans hproc, ?_⟩
      have hsame := frameView_congr fun x ↦ hmem n proc' x hproc
      rw [Function.update_of_ne he, hview']
      exact congrArg some hsame.symm

/-- A thread is switched out. -/
theorem Inv.park (hI : Inv sym s σ) (hw : (s.core h).work = .kernel p pc) (hpc : pc ≠ .userTrap)
    (hwhole : pc.Whole) : Inv sym { s.setWork h .scheduler with
      process := Function.update s.process h none
      parked := Function.update s.parked p (some pc) } σ := by
  obtain ⟨ho, proc, v, ht, hv, hp, hi, hown⟩ := hI.inside hw hpc
  have hself : Function.update s.core h ⟨(s.core h).hart, .scheduler⟩ h = _ :=
    Function.update_self ..
  have hother : ∀ h', h' ≠ h →
      Function.update s.core h ⟨(s.core h).hart, .scheduler⟩ h' = s.core h' :=
    fun h' hne ↦ Function.update_of_ne hne ..
  -- a thread that is left on a hart was there before, on another one
  have hbefore : ∀ h' n, (Function.update s.core h ⟨(s.core h).hart, .scheduler⟩ h').work.owner =
      some n → h' ≠ h ∧ (s.core h').work.owner = some n := by
    intro h' n ho'
    by_cases hne : h' = h
    · subst hne
      rw [hself] at ho'
      cases ho'
    · exact ⟨hne, hother h' hne ▸ ho'⟩
  refine ⟨hI.framed, hI.apart, hI.hidden, hI.live, fun h' ↦ ?_, fun h₁ h₂ n ho₁ ho₂ ↦ ?_,
    fun n pc' hn ↦ ?_⟩
  · by_cases hne : h' = h
    · subst hne
      exact .mk_idle hself rfl (fun hno ↦ by cases hno) hi.stvec
        fun _ ↦ ⟨hi.toInKernel, Function.update_self ..⟩
    · exact (hI.holds h').congr (hother h' hne) (Function.update_of_ne hne ..)
        fun _ _ _ hn ↦ ⟨hn, rfl, fun _ _ ↦ rfl, fun _ _ _ _ _ hx ↦ hx⟩
  · exact hI.single h₁ h₂ n (hbefore h₁ n ho₁).2 (hbefore h₂ n ho₂).2
  · by_cases he : n = p
    · subst he
      rw [show pc' = pc from Option.some_inj.mp (hn.symm.trans (Function.update_self ..))]
      refine ⟨fun h' ho' ↦ ?_, hpc, fun _ ↦ hwhole.own hown, proc, ht, hv.trans ?_⟩
      · exact (hbefore h' n ho').1 (hI.single h' h n (hbefore h' n ho').2 ho)
      · exact congrArg some hi.view
    · obtain ⟨hno, hrest⟩ := hI.waits n pc' ((Function.update_of_ne he ..).symm.trans hn)
      exact ⟨fun h' ho' ↦ hno h' (hbefore h' n ho').2, hrest⟩

/-- A thread is switched in, on any hart. -/
theorem Inv.resume (hI : Inv sym s σ) (hw : (s.core h).work = .scheduler)
    (hp : s.parked p = some pc) : Inv sym { s.setWork h (.kernel p pc) with
      process := Function.update s.process h (some p)
      parked := Function.update s.parked p none } σ := by
  obtain ⟨hno, hpc, hown, proc, ht, hv⟩ := hI.waits p pc hp
  have hh := hI.holds h
  rw [Holds, hw] at hh
  obtain ⟨-, hvec, hin⟩ := hh
  have hself : Function.update s.core h ⟨(s.core h).hart, .kernel p pc⟩ h = _ :=
    Function.update_self ..
  have hother : ∀ h', h' ≠ h →
      Function.update s.core h ⟨(s.core h).hart, .kernel p pc⟩ h' = s.core h' :=
    fun h' hne ↦ Function.update_of_ne hne ..
  -- another hart has another thread, as before
  have hbefore : ∀ h' n, h' ≠ h → (Function.update s.core h ⟨(s.core h).hart, .kernel p pc⟩
      h').work.owner = some n → (s.core h').work.owner = some n ∧ n ≠ p := by
    intro h' n hne ho'
    rw [hother h' hne] at ho'
    exact ⟨ho', fun he ↦ hno h' (he ▸ ho')⟩
  have hhere : ∀ n, (Function.update s.core h ⟨(s.core h).hart, .kernel p pc⟩ h).work.owner =
      some n → n = p := by
    intro n ho'
    rw [hself] at ho'
    exact (Option.some_inj.mp ho').symm
  refine ⟨hI.framed, hI.apart, hI.hidden, hI.live, fun h' ↦ ?_, fun h₁ h₂ n ho₁ ho₂ ↦ ?_,
    fun n pc' hn ↦ ?_⟩
  · by_cases hne : h' = h
    · subst hne
      exact .mk_owner hself rfl ht hv (Function.update_self ..)
        (.of_inside ⟨(hin rfl).1, hvec, rfl⟩ hpc (hown h'))
    · exact (hI.holds h').congr (hother h' hne) (Function.update_of_ne hne ..)
        fun _ _ _ hn ↦ ⟨hn, rfl, fun _ _ ↦ rfl, fun _ _ _ _ _ hx ↦ hx⟩
  · by_cases he₁ : h₁ = h
    · by_cases he₂ : h₂ = h
      · rw [he₁, he₂]
      · subst he₁
        exact absurd (hhere n ho₁) (hbefore h₂ n he₂ ho₂).2
    · by_cases he₂ : h₂ = h
      · subst he₂
        exact absurd (hhere n ho₂) (hbefore h₁ n he₁ ho₁).2
      · exact hI.single h₁ h₂ n (hbefore h₁ n he₁ ho₁).1 (hbefore h₂ n he₂ ho₂).1
  · have hne : n ≠ p := by
      rintro rfl
      have hnone : Function.update s.parked n none n = some pc' := hn
      rw [Function.update_self] at hnone
      cases hnone
    obtain ⟨hno', hrest⟩ := hI.waits n pc' ((Function.update_of_ne hne ..).symm.trans hn)
    refine ⟨fun h' ho' ↦ ?_, hrest⟩
    by_cases he : h' = h
    · subst he
      exact hne (hhere n ho')
    · exact hno' h' (hbefore h' n he ho').1

/-! ### Runs -/

/-- No thread has been switched out between the two loads. -/
def System.Unbroken (s : System) : Prop := ∀ p pc, s.parked p = some pc → pc.Whole

/-- A step of the machine is one of the processes. -/
theorem Inv.step {s' : System} {act : Act} (hI : Inv sym s σ) (hst : s.Step sym act s')
    (hun : s'.Unbroken) : ∃ σ', σ.Step act σ' ∧ Inv sym s' σ' := by
  cases hst with
  | compute h p v memory work reach => exact hI.compute work reach
  | trap h p cause tval work => exact ⟨σ, .none, hI.trap work cause tval⟩
  | instruction h p i is work => exact ⟨σ, .none, hI.instruction work⟩
  | arrive h p work => exact ⟨σ, .none, hI.arrive work⟩
  | interrupt h mode enabled => exact ⟨σ, .none, hI.interrupt mode enabled⟩
  | userTrap h p work => exact hI.userTrap work
  | current h p k work =>
    exact ⟨σ, .none, hI.move work (by simp) (by simp) fun htp _ ↦ htp⟩
  | lookup h p cpu k work => exact ⟨σ, .none, hI.lookup work⟩
  | syscall h p q work => exact hI.syscall work
  | assign h p q r x work =>
    obtain ⟨-, _, _, -, -, -, -, hown⟩ := hI.inside work (by simp)
    obtain rfl : q = p := hown
    have hown' : (Pc.handler q).Own h q := rfl
    exact hI.assign work (by simp) (by simp) hown' r x
  | jump h p q x work =>
    obtain ⟨-, _, _, -, -, -, -, hown⟩ := hI.inside work (by simp)
    obtain rfl : q = p := hown
    have hown' : (Pc.handler q).Own h q := rfl
    exact hI.jump work (by simp) (by simp) hown' x
  | replace h p q proc satp work here framed => exact ⟨σ, .none, hI.replace work here framed⟩
  | fork h p q c proc child work here new fresh => exact hI.fork work here new fresh
  | finish h p q x work =>
    obtain ⟨-, _, _, -, -, -, -, hown⟩ := hI.inside work (by simp)
    obtain rfl : q = p := hown
    have hown' : (Pc.current .returnUserTrap).Own h q := trivial
    exact hI.assign work (by simp) (by simp) hown' .a0 x
  | returnUserTrap h p q work => exact ⟨σ, .none, hI.returnUserTrap work⟩
  | kernel h hart memory walk work runs spares => exact ⟨σ, .none, hI.kernel work runs spares⟩
  | park h p pc work free =>
    exact ⟨σ, .none, hI.park work free (hun p pc (Function.update_self ..))⟩
  | resume h p pc work parked => exact ⟨σ, .none, hI.resume work parked⟩

theorem Inv.trace {s' : System} {acts : List Act} (hI : Inv sym s σ)
    (hrun : Trace (fun s act t ↦ s.Step sym act t ∧ t.Unbroken) s acts s') :
    ∃ σ', Trace Views.Step σ acts σ' ∧ Inv sym s' σ' :=
  hrun.simulates hI fun _ _ _ _ hI hst ↦ hI.step hst.1 hst.2

/-- The harts are in `Scheduler::run`, and the processes wait in `returnFork`. -/
structure System.Booted (sym : Symbols) (s : System) : Prop where
  idle : ∀ h, (s.core h).work = .scheduler ∧ InKernel sym h (s.core h).hart ∧
    (s.core h).hart.csr .stvec = sym.orfos_kernelVector ∧ s.process h = none
  framed : ∀ p proc, s.table p = some proc → Framed s.walk proc.satp proc.trapFrame
  apart : ∀ p q proc proc' x, p ≠ q → s.table p = some proc → s.table q = some proc' →
    InFrame proc.trapFrame x → ¬ InFrame proc'.trapFrame x
  hidden : ∀ p proc x satp a, s.table p = some proc → InFrame proc.trapFrame x →
    s.walk .user satp a ≠ some x
  waits : ∀ p pc, s.parked p = some pc →
    pc = .current .returnUserTrap ∧ ∃ proc, s.table p = some proc

/-- The processes with what is in their trap frames. -/
def System.views (s : System) : Views :=
  fun p ↦ (s.table p).map fun proc ↦ frameView s.memory proc.trapFrame

theorem System.Booted.inv (hb : s.Booted sym) : Inv sym s s.views where
  framed := hb.framed
  apart := hb.apart
  hidden := hb.hidden
  live p := Option.map_eq_none_iff
  holds h := by
    obtain ⟨hw, hin, hvec, hp⟩ := hb.idle h
    exact .mk_idle rfl (by rw [hw]; rfl) (by rw [hw]; exact fun hno ↦ by cases hno) hvec
      fun _ ↦ ⟨hin, hp⟩
  single h h' p ho := by
    rw [(hb.idle h).1] at ho
    cases ho
  waits p pc hp := by
    obtain ⟨rfl, proc, ht⟩ := hb.waits p pc hp
    refine ⟨fun h ho ↦ ?_, by simp, fun _ ↦ trivial, proc, ht, ?_⟩
    · rw [(hb.idle h).1] at ho
      cases ho
    · rw [System.views, ht]
      rfl

/-- **Processes have their registers to themselves.** A run of the machine, with traps, preemption
and moves between harts at any time, is a run of the processes with the same computations, system
calls and forks. Where user code runs, the hart has the registers of its process. The kernel is
entered on the stack of the process, with the number of the hart in `tp`, and never faults on its
way. -/
theorem System.Booted.isolates {t : System} {acts : List Act} (hb : s.Booted sym)
    (hrun : Trace (fun s act t ↦ s.Step sym act t ∧ t.Unbroken) s acts t) :
    ∃ σ, Trace Views.Step s.views acts σ ∧
      (∀ h, (t.core h).work ≠ .fault) ∧
      (∀ h p, (t.core h).work = .user p → σ p = some (view (t.core h).hart)) ∧
      (∀ h p, (t.core h).work = .kernel p .userTrap → (t.core h).hart.regs .tp = h ∧
        ∃ proc, t.table p = some proc ∧
          (t.core h).hart.regs .sp = proc.kernelStack + Memory.PAGE_SIZE) ∧
      ∀ h h' p, (t.core h).work.owner = some p → (t.core h').work.owner = some p → h = h' := by
  obtain ⟨σ, htrace, hI⟩ := hb.inv.trace hrun
  refine ⟨σ, htrace, fun h hf ↦ ?_, fun h p hw ↦ ?_, fun h p hw ↦ ?_, hI.single⟩
  · have hh := hI.holds h
    rw [Holds, hf] at hh
    exact hh.1 rfl
  · obtain ⟨-, _, _, -, hv, -, hs⟩ := hI.thread_at hw rfl
    exact hv.trans (congrArg some hs.view)
  · obtain ⟨-, proc, _, ht, -, -, hs⟩ := hI.thread_at hw rfl
    exact ⟨hs.tp, proc, ht, hs.sp⟩

/-- Addresses of a kernel. -/
def kernelSymbols : Symbols where
  orfos_trampoline := 0x80001000
  orfos_userVector := 0x80001000
  orfos_returnUser := 0x80001090
  orfos_kernelVector := 0x80002000
  userTrap := 0x80003000
  kernelSatp := 9

/-- Two processes that have been made, with trap frames at `0x1000` and `0x2000`. -/
def twoProcesses : System where
  memory _ := 0
  walk mode satp a :=
    if mode = .supervisor ∧ a - Memory.TRAPFRAME < size ∧ (satp = 1 ∨ satp = 2) then
      some (satp * 0x1000 + (a - Memory.TRAPFRAME))
    else none
  core h := ⟨⟨fun r ↦ if r = .tp then h else 0, fun c ↦ if c = .stvec then 0x80002000
    else if c = .satp then 9 else 0, .supervisor, 0⟩, .scheduler⟩
  process _ := none
  table p := if p = 0 then some ⟨0x1000, 1, 0⟩ else if p = 1 then some ⟨0x2000, 2, 0⟩ else none
  parked p := if p = 0 ∨ p = 1 then some (.current .returnUserTrap) else none

theorem twoProcesses_table {n : Nat} (ht : twoProcesses.table n = some proc) :
    (n = 0 ∧ proc = ⟨0x1000, 1, 0⟩) ∨ (n = 1 ∧ proc = ⟨0x2000, 2, 0⟩) := by
  unfold twoProcesses at ht
  dsimp only at ht
  split at ht
  · next h0 => exact .inl ⟨h0, (Option.some_inj.mp ht).symm⟩
  · split at ht
    · next h1 => exact .inr ⟨h1, (Option.some_inj.mp ht).symm⟩
    · cases ht

theorem twoProcesses_framed {satp : UInt64} (hs : satp = 1 ∨ satp = 2) :
    Framed twoProcesses.walk satp (satp * 0x1000) := by
  intro x hx _
  have hsub : Memory.TRAPFRAME + x - Memory.TRAPFRAME = x := by
    rw [UInt64.add_comm, UInt64.add_sub_cancel]
  rw [twoProcesses]
  dsimp only
  rw [hsub, if_pos ⟨rfl, hx, hs⟩]

theorem twoProcesses_booted : twoProcesses.Booted kernelSymbols where
  idle h := ⟨rfl, ⟨rfl, rfl, rfl⟩, rfl, rfl⟩
  framed p proc ht := by
    obtain ⟨-, rfl⟩ | ⟨-, rfl⟩ := twoProcesses_table ht
    · exact twoProcesses_framed (.inl rfl)
    · exact twoProcesses_framed (.inr rfl)
  apart p q proc proc' x hne hp hq := by
    have hapart : InFrame 0x1000 x → ¬ InFrame 0x2000 x := by
      simp only [InFrame, UInt64.lt_iff_toNat_lt, UInt64.toNat_sub]
      have hlt := x.toNat_lt
      have hsize : size.toNat = 288 := rfl
      rw [hsize]
      simp
      omega
    obtain ⟨rfl, rfl⟩ | ⟨rfl, rfl⟩ := twoProcesses_table hp <;>
      obtain ⟨rfl, rfl⟩ | ⟨rfl, rfl⟩ := twoProcesses_table hq
    · exact absurd rfl hne
    · exact hapart
    · exact fun hx hx' ↦ hapart hx' hx
    · exact absurd rfl hne
  hidden p proc x satp a _ _ hw := by
    rw [twoProcesses] at hw
    dsimp only at hw
    rw [if_neg fun hno ↦ by cases hno.1] at hw
    cases hw
  waits p pc hp := by
    unfold twoProcesses at hp ⊢
    dsimp only at hp ⊢
    split at hp
    · next h =>
      refine ⟨(Option.some_inj.mp hp).symm, ?_⟩
      obtain rfl | rfl := h
      · exact ⟨_, rfl⟩
      · exact ⟨_, rfl⟩
    · cases hp

/-- The first process is switched in on hart 3 and enters the trampoline, while the second waits. -/
theorem twoProcesses_isolates : ∃ t σ, Trace Views.Step twoProcesses.views
    [.none, .none, .none, .none] σ ∧ (t : System).parked 1 = some (.current .returnUserTrap) ∧
      (t.core 3).work = .block 0 returnUser ∧ ∀ h, (t.core h).work ≠ .fault := by
  -- the second process waits at its start all the time
  have hun : ∀ p pc, Function.update twoProcesses.parked 0 none p = some pc → pc.Whole := by
    intro p pc hp
    by_cases he : p = 0
    · subst he
      rw [Function.update_self] at hp
      cases hp
    · rw [Function.update_of_ne he] at hp
      obtain ⟨rfl, -⟩ := twoProcesses_booted.waits p pc hp
      trivial
  obtain ⟨σ, htrace, hfault, -⟩ := twoProcesses_booted.isolates
    (.cons ⟨.resume 3 0 (.current .returnUserTrap) rfl rfl, hun⟩
      (.cons ⟨.current 3 0 .returnUserTrap rfl, hun⟩
        (.cons ⟨.lookup 3 0 3 .returnUserTrap rfl, hun⟩
          (.cons ⟨.returnUserTrap 3 0 0 rfl, hun⟩ (.nil _)))))
  exact ⟨_, σ, htrace, rfl, rfl, hfault⟩

/-- The condition is needed. Between the two loads the first process moves from hart 0 to hart 1, and
the second comes to hart 0. The first finds the second, and both threads are the second's. -/
theorem twoProcesses_torn : ∃ t, Trace (System.Step kernelSymbols) twoProcesses
    [.none, .none, .none, .none, .none, .none, .none] t ∧
      (t.core 0).work = .kernel 1 (.current .returnUserTrap) ∧
      (t.core 1).work = .block 1 returnUser := by
  refine ⟨_, .cons (.resume 0 0 (.current .returnUserTrap) rfl rfl)
    (.cons (.current 0 0 .returnUserTrap rfl)
      (.cons (.park 0 0 (.process 0 .returnUserTrap) rfl (by simp))
        (.cons (.resume 0 1 (.current .returnUserTrap) rfl rfl)
          (.cons (.resume 1 0 (.process 0 .returnUserTrap) rfl rfl)
            (.cons (.lookup 1 0 0 .returnUserTrap rfl)
              (.cons (.returnUserTrap 1 0 1 rfl) (.nil _))))))), rfl, rfl⟩

end Orfos.Trap
