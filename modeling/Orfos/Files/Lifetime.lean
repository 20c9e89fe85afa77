import Orfos.Files.Accounts

/-!
# Descriptors from `open` to `exit`

The steps of `exit` and `fork`, of reads and writes, and of the other kernel code keep the
accounts of the open files. So they hold in every run.
-/

namespace Orfos.Files

open Orfos.Base Orfos.Syscall

variable {ι δ : Type} [DecidableEq ι]

namespace Machine

variable {s s' : Machine ι δ} {t : Nat} {p : Process ι}

/-! ### `exit` -/

/-- A process goes on with its descriptors in `exit`. -/
theorem Accounted.exiting (h : s.Accounted) (ht : t < s.next) {l : Pc ι}
    (hpc : (s.procs t).pc = .idle ∨ ∃ fd, (s.procs t).pc = .exiting fd)
    (hl : (∃ fd, l = .exiting fd ∧ ∀ j < fd, (s.procs t).openFiles[j]? = some none) ∨
      ∃ fd d, l = .closing fd true ∧ (s.procs t).openFiles[fd]? = some (some d) ∧
        ∀ j < fd, (s.procs t).openFiles[j]? = some none) : (s.goto t l).Accounted := by
  have hcwd : (s.procs t).cwd.isSome := by
    rcases hpc with hpc | ⟨fd, hpc⟩ <;> exact h.cwd ht (by rw [hpc]; simp) (by rw [hpc]; simp)
  have hbefore : (s.procs t).pc ≠ .unborn := by
    rcases hpc with hpc | ⟨fd, hpc⟩ <;> rw [hpc] <;> simp
  have hold : (s.procs t).live = (s.procs t).openFiles ∧ (s.procs t).hand = none ∧
      (s.procs t).pc.node = none ∧ ∀ i, (s.procs t).dropping i = 0 := by
    rcases hpc with hpc | ⟨fd, hpc⟩ <;>
      simp [Process.live, Process.hand, Process.dropping, hpc, Pc.node]
  obtain ⟨hlive, hhand, hnode, hdropping⟩ := hold
  rcases hl with ⟨fd, rfl, hclosed⟩ | ⟨fd, d, rfl, hd, hclosed⟩
  · refine h.move ht rfl rfl (fun _ ↦ ⟨rfl, rfl, rfl⟩) (fun _ ↦ rfl) rfl ⟨rfl, rfl⟩ h.fault
      hlive.symm hhand.symm hnode.symm rfl (fun i ↦ (hdropping i).symm)
      (h.kept.update rfl rfl ⟨by simp, by simp [Pc.target], fun fd' hfd ↦ ?_, by simp [Pc.file],
        fun _ _ ↦ hcwd, by simp⟩ (h.kept.no_parent hbefore) (by simp))
    cases hfd
    exact hclosed
  · refine h.move ht rfl rfl (fun _ ↦ ⟨rfl, rfl, rfl⟩) (fun _ ↦ rfl) rfl ⟨rfl, rfl⟩ h.fault
      hlive.symm hhand.symm hnode.symm rfl (fun i ↦ (hdropping i).symm)
      (h.kept.update rfl rfl ⟨fun fd' _ hfd ↦ ?_, fun fd' hfd ↦ ?_, fun fd' hfd ↦ ?_,
        by simp [Pc.file], fun _ _ ↦ hcwd, by simp⟩ (h.kept.no_parent hbefore) (by simp))
    · cases hfd
      exact ⟨d, hd⟩
    · cases hfd
      exact (List.getElem?_eq_some_iff.mp hd).1
    · cases hfd
      exact hclosed

/-- `exit` drops the vector once all descriptors are closed. -/
theorem Accounted.drop (h : s.Accounted) (ht : t < s.next) {fd : Nat}
    (hpc : (s.procs t).pc = .exiting fd) (hend : (s.procs t).openFiles[fd]? = none) :
    (s.setProc t { s.procs t with openFiles := [], pc := .leaving }).Accounted := by
  have hcwd := h.cwd ht (by rw [hpc]; simp) (by rw [hpc]; simp)
  have hlen := List.getElem?_eq_none_iff.mp hend
  have hclosed := (h.kept.tidy t ht).closed fd (by rw [hpc]; rfl)
  have hlive : (s.procs t).live = (s.procs t).openFiles := by rw [Process.live, hpc]
  have hnone : ∀ e ∈ (s.procs t).openFiles, e = none := by
    intro e he
    obtain ⟨j, hj, hget⟩ := List.mem_iff_getElem.mp he
    have := hclosed j (by omega)
    rw [List.getElem?_eq_getElem hj, hget] at this
    exact Option.some.inj this
  have hzero : ∀ i, (s.procs t).openFiles.countP (points i) = 0 := by
    intro i
    rw [List.countP_eq_zero]
    intro e he
    rw [hnone e he]
    simp [points]
  refine h.shift ht rfl rfl (fun _ ↦ ⟨rfl, rfl, rfl⟩) rfl (fun i ↦ ?_) (by simp [Process.live]) ?_
    (fun ip ↦ ?_)
    (fun j ↦ ?_) (h.kept.update rfl rfl (.plain hcwd rfl rfl rfl (by simp))
      (h.kept.no_parent (by rw [hpc]; simp)) (by simp)) h.fault
  · simp [Process.refs, Process.live, Process.hand, hpc, hzero]
  · rw [Process.hand, Process.hand, hpc]
  · rw [Process.holds, Process.holds, hpc]
    rfl
  · rw [Process.dropping, Process.dropping, hpc]
    rfl

/-- `exit` puts the current directory. -/
theorem Accounted.leave (h : s.Accounted) (ht : t < s.next) {ip : ι}
    (hpc : (s.procs t).pc = .leaving) (hcwd : (s.procs t).cwd = some ip) :
    ((s.putInode ip).setProc t { s.procs t with cwd := none, pc := .dead }).Accounted := by
  refine h.repay ht (putInode_refCount s ip) rfl ⟨rfl, rfl, rfl, rfl⟩ ?_ ?_ (fun ip' ↦ ?_)
    (fun j ↦ ?_) (h.kept.update rfl rfl
      ⟨nofun, nofun, nofun, nofun, fun hne ↦ absurd rfl hne, nofun⟩
      (h.kept.no_parent (by rw [hpc]; nofun)) nofun)
  · rw [Process.live, Process.live, hpc]
  · rw [Process.hand, Process.hand, hpc]
  · simp only [Process.holds, hpc, hcwd, Pc.node, reduceCtorEq, if_false]
  · rw [Process.dropping, Process.dropping, hpc]
    rfl

/-! ### `fork` -/

/-- A child begins without descriptors. -/
theorem Accounted.spawn (h : s.Accounted) :
    { s.setProc s.next ⟨[], none, .unborn, 0⟩ with next := s.next + 1 }.Accounted := by
  have hold : ∀ {u}, u < s.next →
      Function.update s.procs s.next ⟨[], none, .unborn, 0⟩ u = s.procs u := by
    intro u hu
    exact Function.update_of_ne (by omega) _ _
  have hnew : Function.update s.procs s.next ⟨[], none, .unborn, 0⟩ s.next =
      ⟨[], none, .unborn, 0⟩ := Function.update_self ..
  have hsum : ∀ f : Process ι → Nat, f ⟨[], none, .unborn, 0⟩ = 0 →
      total (s.next + 1) (fun u ↦ f (Function.update s.procs s.next ⟨[], none, .unborn, 0⟩ u)) =
        total s.next fun u ↦ f (s.procs u) := by
    intro f hf
    rw [total_succ, hnew, hf, total_congr fun u hu ↦ by rw [hold hu]]
    rfl
  have hcases : ∀ {u}, u < s.next + 1 → u < s.next ∨ u = s.next := by
    intro u hu
    omega
  refine ⟨⟨fun i ↦ ?_, h.counted.bound⟩, ⟨fun u hu d hd ↦ ?_, fun u hu i hi ↦ ?_, h.filled.empty⟩,
    ⟨fun ip ↦ ?_, fun i ↦ ?_⟩, ⟨fun u hu ↦ ?_, fun u hu c fd hf ↦ ?_,
      fun u hu v hv c fd fd' hf hf' ↦ ?_⟩, h.fault⟩
  · exact (h.counted.refCount i).trans (hsum (Process.refs i) rfl).symm
  · change some d ∈ (Function.update s.procs s.next _ u).live at hd
    rcases hcases hu with hu | rfl
    · rw [hold hu] at hd
      exact h.filled.live u hu d hd
    · rw [hnew] at hd
      cases hd
  · change (Function.update s.procs s.next _ u).hand = some i at hi
    rcases hcases hu with hu | rfl
    · rw [hold hu] at hi
      exact h.filled.hand u hu i hi
    · rw [hnew] at hi
      cases hi
  · refine (h.noded.refCount ip).trans ?_
    change _ = total NUM_FILES _ + total (s.next + 1) (fun u ↦
      (Function.update s.procs s.next ⟨[], none, .unborn, 0⟩ u).holds ip) + s.others ip
    rw [hsum (Process.holds ip) rfl]
    rfl
  · refine (h.noded.opened i).trans ?_
    change _ = s.history.put i + _ + total (s.next + 1) (fun u ↦
      (Function.update s.procs s.next ⟨[], none, .unborn, 0⟩ u).dropping i)
    rw [hsum (Process.dropping i) rfl]
    rfl
  · change (Function.update s.procs s.next _ u).Tidy
    rcases hcases hu with hu | rfl
    · rw [hold hu]
      exact h.kept.tidy u hu
    · rw [hnew]
      exact ⟨nofun, nofun, nofun, nofun, fun _ hne ↦ absurd rfl hne, fun _ ↦ rfl⟩
  · change (Function.update s.procs s.next _ u).pc = _ at hf
    change c < s.next + 1 ∧ (Function.update s.procs s.next _ c).pc = _
    rcases hcases hu with hu | rfl
    · rw [hold hu] at hf
      obtain ⟨hc, hunborn⟩ := h.kept.child u hu c fd hf
      rw [hold hc]
      exact ⟨by omega, hunborn⟩
    · rw [hnew] at hf
      cases hf
  · change (Function.update s.procs s.next _ u).pc = _ at hf
    change (Function.update s.procs s.next _ v).pc = _ at hf'
    rcases hcases hu with hu | rfl
    · rcases hcases hv with hv | rfl
      · rw [hold hu] at hf
        rw [hold hv] at hf'
        exact h.kept.sole u hu v hv c fd fd' hf hf'
      · rw [hnew] at hf'
        cases hf'
    · rw [hnew] at hf
      cases hf

/-- `fork` begins. -/
theorem Accounted.forkBegin (h : s.Accounted) (ht : t < s.next)
    (hpc : (s.procs t).pc = .idle) :
    ({ s.setProc s.next ⟨[], none, .unborn, 0⟩ with next := s.next + 1 }.goto t
      (.forking s.next 0)).Accounted := by
  have hcwd := h.cwd ht (by rw [hpc]; simp) (by rw [hpc]; simp)
  have hsame : Function.update s.procs s.next ⟨[], none, .unborn, 0⟩ t = s.procs t :=
    Function.update_of_ne (by omega) _ _
  have hunborn : (Function.update s.procs s.next ⟨[], none, .unborn, 0⟩ s.next : Process ι).pc =
      .unborn := by rw [Function.update_self]
  have h₁ := h.spawn
  have hpc₁ : (Function.update s.procs s.next ⟨[], none, .unborn, 0⟩ t : Process ι).pc = .idle := by
    rw [hsame, hpc]
  -- the child of another process in `fork` is an older one
  have hother : ∀ {u c fd}, u < s.next + 1 → u ≠ t →
      (Function.update s.procs s.next ⟨[], none, .unborn, 0⟩ u : Process ι).pc = .forking c fd →
        c < s.next := by
    intro u c fd hu _ hf
    by_cases he : u = s.next
    · rw [he, hunborn] at hf
      cases hf
    · rw [Function.update_of_ne he] at hf
      exact (h.kept.child u (by omega) c fd hf).1
  refine h₁.move (by change t < s.next + 1; omega) rfl rfl (fun _ ↦ ⟨rfl, rfl, rfl⟩) (fun _ ↦ rfl)
    rfl ⟨rfl, rfl⟩ h.fault ?_ ?_ ?_ rfl (fun i ↦ ?_) ⟨fun u hu ↦ ?_, fun u hu c fd hf ↦ ?_,
      fun u hu v hv c fd fd' hf hf' ↦ ?_⟩
  · change _ = (Function.update s.procs s.next _ t).live
    rw [Process.live, Process.live, hpc₁]
    rfl
  · change _ = (Function.update s.procs s.next _ t).hand
    rw [Process.hand, Process.hand, hpc₁]
  · change _ = (Function.update s.procs s.next _ t).pc.node
    rw [hpc₁]
    rfl
  · change _ = (Function.update s.procs s.next _ t).dropping i
    rw [Process.dropping, Process.dropping, hpc₁]
  · change (Function.update (Function.update s.procs s.next _) t _ u).Tidy
    by_cases he : u = t
    · rw [he, Function.update_self]
      have hcwd₁ : (Function.update s.procs s.next ⟨[], none, .unborn, 0⟩ t).cwd.isSome := by
        rw [hsame]
        exact hcwd
      exact .plain hcwd₁ rfl rfl rfl (by simp)
    · rw [Function.update_of_ne he]
      exact h₁.kept.tidy u hu
  · change (Function.update (Function.update s.procs s.next _) t _ u).pc = _ at hf
    change c < s.next + 1 ∧ (Function.update (Function.update s.procs s.next _) t _ c).pc = _
    by_cases he : u = t
    · rw [he, Function.update_self] at hf
      cases hf
      rw [Function.update_of_ne (by omega)]
      exact ⟨by omega, hunborn⟩
    · rw [Function.update_of_ne he] at hf
      obtain ⟨hc, hc'⟩ := h₁.kept.child u hu c fd hf
      have hne : c ≠ t := by
        rintro rfl
        cases hpc₁.symm.trans hc'
      rw [Function.update_of_ne hne]
      exact ⟨hc, hc'⟩
  · change (Function.update (Function.update s.procs s.next _) t _ u).pc = _ at hf
    change (Function.update (Function.update s.procs s.next _) t _ v).pc = _ at hf'
    by_cases hu' : u = t
    · by_cases hv' : v = t
      · rw [hu', hv']
      · rw [hu', Function.update_self] at hf
        rw [Function.update_of_ne hv'] at hf'
        cases hf
        exact absurd (hother hv hv' hf') (by omega)
    · rw [Function.update_of_ne hu'] at hf
      by_cases hv' : v = t
      · rw [hv', Function.update_self] at hf'
        cases hf'
        exact absurd (hother hu hu' hf) (by omega)
      · rw [Function.update_of_ne hv'] at hf'
        exact h₁.kept.sole u hu v hv c fd fd' hf hf'

omit [DecidableEq ι] in
/-- A child that is not ready changes and stays so. -/
theorem Kept.update_child (h : s.Kept) {c : Nat} (hnext : s'.next = s.next)
    (hprocs : s'.procs = Function.update s.procs c p)
    (hpc : p.pc = .unborn) (hcwd : p.cwd = none) : s'.Kept := by
  have hold : ∀ {u c' fd}, (Function.update s.procs c p u).pc = .forking c' fd →
      (s.procs u).pc = .forking c' fd := by
    intro u c' fd hu
    by_cases he : u = c
    · rw [he, Function.update_self, hpc] at hu
      cases hu
    · rwa [Function.update_of_ne he] at hu
  refine ⟨fun u hu ↦ ?_, fun u hu c' fd hf ↦ ?_, fun u hu v hv c' fd fd' hf hf' ↦ ?_⟩
  · rw [hprocs]
    by_cases he : u = c
    · rw [he, Function.update_self]
      refine ⟨?_, ?_, ?_, ?_, fun _ hne ↦ absurd hpc hne, fun _ ↦ hcwd⟩ <;> rw [hpc] <;> nofun
    · rw [Function.update_of_ne he]
      exact h.tidy u (hnext ▸ hu)
  · rw [hprocs] at hf ⊢
    obtain ⟨hc, hc'⟩ := h.child u (hnext ▸ hu) c' fd (hold hf)
    refine ⟨hnext ▸ hc, ?_⟩
    by_cases he : c' = c
    · rw [he, Function.update_self, hpc]
    · rw [Function.update_of_ne he, hc']
  · rw [hprocs] at hf hf'
    exact h.sole u (hnext ▸ hu) v (hnext ▸ hv) c' fd fd' (hold hf) (hold hf')

/-- A round of `fork` over the descriptors. -/
theorem Accounted.forkGoes (h : s.Accounted) (ht : t < s.next) {c fd : Nat}
    (hpc : (s.procs t).pc = .forking c fd) : (s.goto t (.forking c (fd + 1))).Accounted := by
  have hcwd := h.cwd ht (by rw [hpc]; nofun) (by rw [hpc]; nofun)
  refine h.move ht rfl rfl (fun _ ↦ ⟨rfl, rfl, rfl⟩) (fun _ ↦ rfl) rfl ⟨rfl, rfl⟩ h.fault ?_ ?_ ?_
    rfl (fun i ↦ ?_) (h.kept.update rfl rfl (.plain hcwd rfl rfl rfl nofun)
      (h.kept.no_parent (by rw [hpc]; nofun)) fun c' fd' hf ↦ ?_)
  · rw [Process.live, Process.live, hpc]
  · rw [Process.hand, Process.hand, hpc]
  · rw [hpc]
    rfl
  · rw [Process.dropping, Process.dropping, hpc]
  · cases hf
    exact ⟨fd, hpc⟩

/-- The child gets a descriptor. -/
theorem Accounted.dup (h : s.Accounted) (ht : t < s.next) {c fd : Nat} {desc : Descriptor}
    (hpc : (s.procs t).pc = .forking c fd)
    (hfd : (s.procs t).openFiles[fd]? = some (some desc)) :
    ((s.setFile desc.file { s.files desc.file with
      refCount := (s.files desc.file).refCount + 1 }).setProc c { s.procs c with
        openFiles := (s.procs c).openFiles ++ [some desc] }).Accounted := by
  obtain ⟨hc, hunborn⟩ := h.kept.child t ht c fd hpc
  have hmem : some desc ∈ (s.procs t).live := by
    rw [Process.live, hpc]
    exact List.mem_of_getElem? hfd
  have hpos := Process.refs_pos_of_mem hmem
  have hrefs : 0 < (s.files desc.file).refCount := by
    have hle := le_total (f := fun t ↦ (s.procs t).refs desc.file) ht
    have := h.counted.refCount desc.file
    omega
  have hlive : (s.procs c).live = (s.procs c).openFiles := by rw [Process.live, hunborn]
  refine h.swap (i := desc.file) (p := { s.procs c with
      openFiles := (s.procs c).openFiles ++ [some desc] }) hc (h.counted.lt (by omega)) rfl rfl rfl
    ?_ (fun j hj ↦ ?_) (fun u hu hne hpos' ↦ ?_) (fun d _ _ ↦ h.filled.live t ht desc hmem)
    (fun d hd hj ↦ ?_) ?_ (fun hzero ↦ absurd hzero (Nat.succ_ne_zero _)) (fun ip ↦ rfl) rfl
    (fun j ↦ ?_) (h.kept.update_child rfl rfl hunborn ((h.kept.tidy c hc).unborn hunborn))
    h.fault
  · simp only [Process.refs, Process.live, Process.hand, hunborn, List.countP_append,
      reduceCtorEq, if_false]
    simp [points]
    omega
  · simp only [Process.refs, Process.live, Process.hand, hunborn, List.countP_append]
    simp [points, Ne.symm hj]
  · refine ⟨rfl, rfl, fun hu' ↦ ?_⟩
    -- an entry that `open` has in hand is not the file of a descriptor
    have hone := (h.filled.hand u hu desc.file hu').2
    have htu : t ≠ u := by
      rintro rfl
      rw [Process.hand, hpc] at hu'
      cases hu'
    rw [h.counted.alone hone hu ht htu hpos'] at hpos
    omega
  · simp only [Process.live, hunborn] at hd
    rw [hlive]
    rcases List.mem_append.mp hd with hd | hd
    · exact hd
    · cases List.mem_singleton.mp hd
      exact absurd rfl hj
  · simp only [Process.hand, hunborn]
    simp
  · simp only [Process.dropping, hunborn]
    by_cases hj : j = desc.file
    · rw [hj, Function.update_self]
      rfl
    · rw [Function.update_of_ne hj]
      rfl

/-- `fork` ends: the child is ready. -/
theorem Accounted.forkEnd (h : s.Accounted) (ht : t < s.next) {c fd : Nat} {ip : ι}
    (hpc : (s.procs t).pc = .forking c fd) (hcwd : (s.procs t).cwd = some ip) (n : Int32) :
    (((s.dupInode ip).setProc c { s.procs c with cwd := some ip, pc := .idle }).return_ t
      n).Accounted := by
  obtain ⟨hc, hunborn⟩ := h.kept.child t ht c fd hpc
  have hne : c ≠ t := by
    rintro rfl
    cases hpc.symm.trans hunborn
  have hnone := (h.kept.tidy c hc).unborn hunborn
  -- first the parent returns, which leaves the child without one
  have h₁ : (s.return_ t n).Accounted :=
    h.return_ ht n (by rw [hcwd]; rfl) (by rw [hpc]; simp) (by rw [Process.live, hpc])
      (by rw [Process.hand, hpc]) (by rw [hpc]; rfl) (fun i ↦ by rw [Process.dropping, hpc])
  have hchild : (s.return_ t n).procs c = s.procs c := Function.update_of_ne hne _ _
  have hprocs : ((((s.dupInode ip).setProc c { s.procs c with cwd := some ip, pc := .idle }).return_
      t n).procs) = Function.update (s.return_ t n).procs c
        { s.procs c with cwd := some ip, pc := .idle } := by
    have hself : Function.update s.procs c { s.procs c with cwd := some ip, pc := .idle } t =
        s.procs t := Function.update_of_ne (Ne.symm hne) _ _
    change Function.update (Function.update s.procs c _) t _ =
      Function.update (Function.update s.procs t _) c _
    rw [Function.update_comm hne]
    congr 2
    change ({ Function.update s.procs c _ t with pc := .idle, ret := n } : Process ι) = _
    rw [hself]
  have hparent : ∀ u < s.next, ∀ fd', ((s.return_ t n).procs u).pc ≠ .forking c fd' := by
    intro u hu fd' hf
    by_cases he : u = t
    · rw [he] at hf
      change (Function.update s.procs t _ t).pc = _ at hf
      rw [Function.update_self] at hf
      cases hf
    · change (Function.update s.procs t _ u).pc = _ at hf
      rw [Function.update_of_ne he] at hf
      exact he (h.kept.sole u hu t ht c fd' fd hf hpc)
  refine h₁.shift hc rfl hprocs (fun _ ↦ ⟨rfl, rfl, rfl⟩) rfl (fun i ↦ ?_) (fun d hd ↦ ?_) ?_
    (fun ip' ↦ ?_) (fun j ↦ ?_) (h₁.kept.update rfl hprocs (.plain rfl rfl rfl rfl (by simp))
      hparent (by simp)) h.fault
  · rw [hchild]
    simp [Process.refs, Process.live, Process.hand, hunborn]
  · rw [hchild]
    simp only [Process.live, hunborn] at hd ⊢
    exact hd
  · rw [hchild]
    simp only [Process.hand, hunborn]
  · change ((s.dupInode ip).inodes ip').refCount + _ = (s.inodes ip').refCount + _
    rw [dupInode_refCount, hchild]
    simp only [Process.holds, hunborn, hnone, Pc.node, reduceCtorEq, if_false]
    omega
  · rw [hchild]
    simp only [Process.dropping, hunborn]
    rfl

/-- What `fork` does next. -/
theorem Accounted.fork (h : s.Accounted) (ht : t < s.next) {c fd : Nat}
    (hpc : (s.procs t).pc = .forking c fd) : (s.fork t c fd).Accounted := by
  obtain ⟨hc, hunborn⟩ := h.kept.child t ht c fd hpc
  have hne : t ≠ c := by
    rintro rfl
    cases hpc.symm.trans hunborn
  unfold Machine.fork
  dsimp only
  split
  · next desc hfd =>
    have hmem : some desc ∈ (s.procs t).live := by
      rw [Process.live, hpc]
      exact List.mem_of_getElem? hfd
    have hrefs : (s.files desc.file).refCount ≠ 0 := by
      have hpos := Process.refs_pos_of_mem hmem
      have hle := le_total (f := fun t ↦ (s.procs t).refs desc.file) ht
      have := h.counted.refCount desc.file
      omega
    rw [if_neg hrefs]
    exact (h.dup ht hpc hfd).forkGoes ht
      ((congrArg Process.pc (Function.update_of_ne hne _ _)).trans hpc)
  · have h₁ : (s.setProc c { s.procs c with
        openFiles := (s.procs c).openFiles ++ [none] }).Accounted := by
      refine h.shift hc rfl rfl (fun _ ↦ ⟨rfl, rfl, rfl⟩) rfl (fun i ↦ ?_) (fun d hd ↦ ?_) ?_
        (fun _ ↦ rfl) (fun _ ↦ rfl) (h.kept.update_child rfl rfl hunborn
          ((h.kept.tidy c hc).unborn hunborn)) h.fault
      · simp only [Process.refs, Process.live, Process.hand, hunborn, List.countP_append]
        simp [points]
      · simp only [Process.live, hunborn, List.mem_append, List.mem_singleton, reduceCtorEq,
          or_false] at hd ⊢
        exact hd
      · simp only [Process.hand, hunborn]
    exact h₁.forkGoes ht ((congrArg Process.pc (Function.update_of_ne hne _ _)).trans hpc)
  · have hcwd := h.cwd ht (by rw [hpc]; simp) (by rw [hpc]; simp)
    obtain ⟨ip, hip⟩ := Option.isSome_iff_exists.mp hcwd
    rw [hip]
    exact h.forkEnd ht hpc hip _

/-! ### Runs -/

/-- A call goes to the place where the process reads, writes or closes a descriptor. -/
theorem Accounted.start (h : s.Accounted) (ht : t < s.next) (hpc : (s.procs t).pc = .idle)
    {fd : Nat} {desc : Descriptor} {l : Pc ι}
    (hfd : (s.procs t).openFiles[fd]? = some (some desc))
    (hl : l = .closing fd false ∨ l.file = some desc.file) : (s.goto t l).Accounted := by
  have hcwd := h.cwd ht (by rw [hpc]; simp) (by rw [hpc]; simp)
  have hlt := (List.getElem?_eq_some_iff.mp hfd).1
  have hmem := List.mem_of_getElem? hfd
  rcases hl with rfl | hfile
  · refine h.move ht rfl rfl (fun _ ↦ ⟨rfl, rfl, rfl⟩) (fun _ ↦ rfl) rfl ⟨rfl, rfl⟩ h.fault ?_ ?_ ?_
      rfl (fun i ↦ ?_) (h.kept.update rfl rfl ⟨fun fd' _ hfd' ↦ ?_, fun fd' hfd' ↦ ?_,
        by simp [Pc.closedTo], by simp [Pc.file], fun _ _ ↦ hcwd, by simp⟩
        (h.kept.no_parent (by rw [hpc]; simp)) (by simp))
    · rw [Process.live, Process.live, hpc]
    · rw [Process.hand, Process.hand, hpc]
    · rw [hpc]
      rfl
    · rw [Process.dropping, Process.dropping, hpc]
    · cases hfd'
      exact ⟨desc, hfd⟩
    · cases hfd'
      exact hlt
  · refine h.move ht rfl rfl (fun _ ↦ ⟨rfl, rfl, rfl⟩) (fun _ ↦ rfl) rfl ⟨rfl, rfl⟩ h.fault ?_ ?_ ?_
      rfl (fun i ↦ ?_) (h.kept.update rfl rfl ?_ (h.kept.no_parent (by rw [hpc]; simp)) ?_)
    · rw [Process.live, Process.live, hpc]
      cases l <;> cases hfile <;> rfl
    · rw [Process.hand, Process.hand, hpc]
      cases l <;> cases hfile <;> rfl
    · rw [hpc]
      cases l <;> cases hfile <;> rfl
    · rw [Process.dropping, Process.dropping, hpc]
      cases l <;> cases hfile <;> rfl
    · refine ⟨?_, ?_, ?_, fun i hi ↦ ?_, fun _ _ ↦ hcwd, ?_⟩
      · cases l <;> cases hfile <;> simp
      · cases l <;> cases hfile <;> simp [Pc.target]
      · cases l <;> cases hfile <;> simp [Pc.closedTo]
      · cases hfile.symm.trans hi
        exact ⟨desc, hmem, rfl⟩
      · cases l <;> cases hfile <;> simp
    · cases l <;> cases hfile <;> simp

/-- A process that reads or writes goes on or returns, after a transfer. -/
theorem Accounted.transfer (h : s.Accounted) (ht : t < s.next) {i : Nat} {q : Process ι}
    (hpc : (s.procs t).pc.file = some i)
    (hq : q.openFiles = (s.procs t).openFiles ∧ q.cwd = (s.procs t).cwd)
    (hl : q.pc = .idle ∨ q.pc.file = some i)
    (hprocs : s'.procs = Function.update s.procs t q) (hnext : s'.next = s.next)
    (hfiles : ∀ i, (s'.files i).refCount = (s.files i).refCount ∧
      (s'.files i).type = (s.files i).type ∧ (s'.files i).ip = (s.files i).ip)
    (hrest : s'.inodes = s.inodes ∧ s'.others = s.others ∧ s'.fault = s.fault ∧
      s'.history.opened = s.history.opened ∧ s'.history.put = s.history.put) :
    s'.Accounted := by
  obtain ⟨hinodes, hothers, hfault, hopened, hput⟩ := hrest
  have hkind : ∀ {p : Process ι}, p.pc = .idle ∨ p.pc.file = some i →
      p.live = p.openFiles ∧ p.hand = none ∧ p.pc.node = none ∧ (∀ j, p.dropping j = 0) ∧
        p.pc.target = none ∧ p.pc.closedTo = none ∧ p.pc ≠ .unborn ∧ p.pc ≠ .dead ∧
          ∀ c fd, p.pc ≠ .forking c fd := by
    rintro ⟨o, c, l, n⟩ (rfl | hl)
    · exact ⟨rfl, rfl, rfl, fun _ ↦ rfl, rfl, rfl, nofun, nofun, nofun⟩
    · cases l <;> cases hl <;>
        exact ⟨rfl, rfl, rfl, fun _ ↦ rfl, rfl, rfl, nofun, nofun, nofun⟩
  obtain ⟨hlive, hhand, hnode, hdropping, -, -, hunborn, hdead, -⟩ := hkind (.inr hpc)
  obtain ⟨hlive', hhand', hnode', hdropping', htarget', hclosed', hunborn', -, hfork'⟩ := hkind hl
  have hcwd := h.cwd ht hdead hunborn
  refine h.move ht hnext hprocs hfiles (fun ip ↦ by rw [hinodes]) hothers ⟨hopened, hput⟩
    (by rw [hfault]; exact h.fault) (by rw [hlive', hlive, hq.1]) (hhand'.trans hhand.symm)
    (hnode'.trans hnode.symm) hq.2 (fun j ↦ (hdropping' j).trans (hdropping j).symm)
    (h.kept.update hnext hprocs ?_ (h.kept.no_parent hunborn) fun c fd hf ↦ absurd hf (hfork' c fd))
  refine ⟨fun fd ex hf ↦ ?_, fun fd hf ↦ ?_, fun fd hf ↦ ?_, fun j hf ↦ ?_, fun _ _ ↦ ?_,
    fun hf ↦ absurd hf hunborn'⟩
  · rw [hf] at htarget'
    cases htarget'
  · cases htarget'.symm.trans hf
  · cases hclosed'.symm.trans hf
  · rcases hl with hl | hl
    · rw [hl] at hf
      cases hf
    · cases hl.symm.trans hf
      rw [hq.1]
      exact (h.kept.tidy t ht).file i hpc
  · rw [hq.2]
    exact hcwd

/-- A transfer, and the next place of its process. -/
theorem Accounted.transferred (h : s.Accounted) (ht : t < s.next) (data : ι → δ) {i : Nat}
    {res : Int32} {q : Process ι} (hpc : (s.procs t).pc.file = some i)
    (hq : q.openFiles = (s.procs t).openFiles ∧ q.cwd = (s.procs t).cwd)
    (hl : q.pc = .idle ∨ q.pc.file = some i) :
    (({ s with data := data }.transfer i res).setProc t q).Accounted := by
  obtain ⟨hprocs, hnext, hfiles, hrest⟩ := transfer_spec { s with data := data } i res
  refine h.transfer (i := i) ht hpc hq hl ?_ hnext hfiles hrest
  rw [setProc, hprocs]

/-- The next step of a process. -/
theorem Accounted.go (h : s.Accounted) (ht : t < s.next) {res : Int32} {d : δ}
    (hs : s.go t res d = some s') : s'.Accounted := by
  unfold Machine.go at hs
  dsimp only at hs
  cases hpc : (s.procs t).pc with
  | idle | dead | unborn =>
    rw [hpc] at hs
    cases hs
  | found ip mode locked =>
    have hcwd := h.cwd ht (by rw [hpc]; simp) (by rw [hpc]; simp)
    have hrefuse : (s.goto t (.refused ip locked)).Accounted :=
      h.move ht rfl rfl (fun _ ↦ ⟨rfl, rfl, rfl⟩) (fun _ ↦ rfl) rfl ⟨rfl, rfl⟩ h.fault
        (by rw [Process.live, Process.live, hpc]) (by rw [Process.hand, Process.hand, hpc])
        (by rw [hpc]; rfl) rfl (fun i ↦ by rw [Process.dropping, Process.dropping, hpc])
        (h.kept.update rfl rfl (.plain hcwd rfl rfl rfl (by simp))
          (h.kept.no_parent (by rw [hpc]; simp)) (by simp))
    rw [hpc] at hs
    dsimp only at hs
    split at hs
    · cases hs
      exact hrefuse
    · split at hs
      · cases hs
        exact hrefuse
      · next hfree =>
        cases hs
        exact h.allocate ht hpc hfree
  | refused ip locked =>
    rw [hpc] at hs
    cases hs
    split
    · exact h.refuse ht hpc
    · exact h.stop (.inl rfl)
  | allocated ip mode locked i =>
    rw [hpc] at hs
    cases hs
    exact h.install ht hpc
  | closing fd exiting =>
    obtain ⟨desc, hfd⟩ := (h.kept.tidy t ht).closing fd exiting hpc
    rw [hpc] at hs
    dsimp only at hs
    rw [hfd] at hs
    cases hs
    exact h.closeFile ht hpc hfd
  | putting fd i ip exiting =>
    rw [hpc] at hs
    cases hs
    exact h.put ht hpc
  | clearing fd exiting =>
    rw [hpc] at hs
    cases hs
    cases exiting with
    | true => exact h.clear ht hpc ⟨rfl, rfl⟩ (.inl ⟨rfl, rfl⟩)
    | false => exact h.clear ht hpc ⟨rfl, rfl⟩ (.inr rfl)
  | exiting fd =>
    have hclosed := (h.kept.tidy t ht).closed fd (by rw [hpc]; rfl)
    rw [hpc] at hs
    dsimp only at hs
    split at hs
    · next desc hfd =>
      cases hs
      exact h.exiting ht (.inr ⟨fd, hpc⟩) (.inr ⟨fd, desc, rfl, hfd, hclosed⟩)
    · next hfd =>
      cases hs
      refine h.exiting ht (.inr ⟨fd, hpc⟩) (.inl ⟨fd + 1, rfl, fun j hj ↦ ?_⟩)
      by_cases he : j = fd
      · rw [he, hfd]
      · exact hclosed j (by omega)
    · next hend =>
      cases hs
      exact h.drop ht hpc hend
  | leaving =>
    have hcwd := h.cwd ht (by rw [hpc]; simp) (by rw [hpc]; simp)
    obtain ⟨ip, hip⟩ := Option.isSome_iff_exists.mp hcwd
    rw [hpc] at hs
    dsimp only at hs
    rw [hip] at hs
    cases hs
    exact h.leave ht hpc hip
  | forking c fd =>
    rw [hpc] at hs
    cases hs
    exact h.fork ht hpc
  | reading i n =>
    obtain ⟨desc, hmem, rfl⟩ := (h.kept.tidy t ht).file i (by rw [hpc]; rfl)
    have hsome := (h.filled.live t ht desc (by rw [Process.live, hpc]; exact hmem)).2
    obtain ⟨ip, hip⟩ := Option.isSome_iff_exists.mp hsome
    rw [hpc] at hs
    dsimp only at hs
    rw [hip] at hs
    dsimp only at hs
    split at hs
    · cases hs
      rw [Machine.return_, (transfer_spec s desc.file res).1]
      exact h.transferred ht s.data (by rw [hpc]; rfl) ⟨rfl, rfl⟩ (.inl rfl)
    · cases hs
  | writing i n k =>
    obtain ⟨desc, hmem, rfl⟩ := (h.kept.tidy t ht).file i (by rw [hpc]; rfl)
    have hsome := (h.filled.live t ht desc (by rw [Process.live, hpc]; exact hmem)).2
    obtain ⟨ip, hip⟩ := Option.isSome_iff_exists.mp hsome
    rw [hpc] at hs
    dsimp only at hs
    rcases writeChunk_cases hs with ⟨-, rfl⟩ | ⟨-, hnone, -⟩ |
      ⟨ip', -, -, -, ⟨-, rfl⟩ | ⟨-, rfl⟩⟩
    · have hcwd := h.cwd ht (by rw [hpc]; simp) (by rw [hpc]; simp)
      exact h.return_ ht _ hcwd (by rw [hpc]; simp) (by rw [Process.live, hpc])
        (by rw [Process.hand, hpc]) (by rw [hpc]; rfl) (fun i ↦ by rw [Process.dropping, hpc])
    · rw [hip] at hnone
      cases hnone
    · rw [Machine.return_, (transfer_spec _ desc.file res).1]
      exact h.transferred ht _ (by rw [hpc]; rfl) ⟨rfl, rfl⟩ (.inl rfl)
    · rw [Machine.goto, (transfer_spec _ desc.file res).1]
      exact h.transferred ht _ (by rw [hpc]; rfl) ⟨rfl, rfl⟩ (.inr rfl)

/-- A step that no process takes. -/
theorem Accounted.around (h : s.Accounted) (hprocs : s'.procs = s.procs) (hnext : s'.next = s.next)
    (hfiles : s'.files = s.files) (hhistory : s'.history = s.history)
    (hfault : s'.fault = s.fault)
    (hnodes : ∀ ip, (s'.inodes ip).refCount + s.others ip =
      (s.inodes ip).refCount + s'.others ip) : s'.Accounted := by
  refine ⟨⟨?_, ?_⟩, ⟨?_, ?_, ?_⟩, ⟨fun ip ↦ ?_, ?_⟩, ⟨?_, ?_, ?_⟩, by rw [hfault]; exact h.fault⟩
  · rw [hfiles, hnext, hprocs]
    exact h.counted.refCount
  · rw [hfiles]
    exact h.counted.bound
  · rw [hfiles, hnext, hprocs]
    exact h.filled.live
  · rw [hfiles, hnext, hprocs]
    exact h.filled.hand
  · rw [hfiles]
    exact h.filled.empty
  · have hold := h.noded.refCount ip
    have hnew := hnodes ip
    rw [hfiles, hnext, hprocs]
    omega
  · rw [hfiles, hnext, hprocs, hhistory]
    exact h.noded.opened
  · rw [hnext, hprocs]
    exact h.kept.tidy
  · rw [hnext, hprocs]
    exact h.kept.child
  · rw [hnext, hprocs]
    exact h.kept.sole

theorem setInode_refCount (s : Machine ι δ) (ip : ι) {f : Inode → Inode}
    (hf : (f (s.inodes ip)).refCount = (s.inodes ip).refCount) (ip' : ι) :
    ((s.setInode ip f).inodes ip').refCount = (s.inodes ip').refCount := by
  by_cases he : ip' = ip
  · subst he
    simp [setInode, hf]
  · simp [setInode, Function.update_of_ne he]

/-- A system call returns at once. -/
theorem Accounted.returns (h : s.Accounted) (ht : t < s.next) (hpc : (s.procs t).pc = .idle)
    (n : Int32) : (s.return_ t n).Accounted :=
  h.return_ ht n (h.cwd ht (by rw [hpc]; nofun) (by rw [hpc]; nofun)) (by rw [hpc]; nofun)
    (by rw [Process.live, hpc]) (by rw [Process.hand, hpc]) (by rw [hpc]; rfl)
    (fun i ↦ by rw [Process.dropping, hpc])

/-- The lookup of `open`. -/
theorem Accounted.open_ (h : s.Accounted) (ht : t < s.next) (hpc : (s.procs t).pc = .idle)
    {mode : Int32} {lookup : Lookup ι} (hs : s.open_ t mode lookup = some s') :
    s'.Accounted := by
  have hlook : ∀ (ip : ι) (l : Pc ι),
      ((∃ mode locked, l = .found ip mode locked) ∨ ∃ locked, l = .refused ip locked) →
        ((s.dupInode ip).goto t l).Accounted := fun ip l hl ↦
    h.look ht hpc ip (dupInode_refCount s ip) rfl ⟨rfl, rfl, rfl, rfl, rfl⟩ hl
  cases lookup with
  | absent =>
    cases hs
    exact h.returns ht hpc _
  | found ip =>
    unfold Machine.open_ at hs
    dsimp only at hs
    split at hs
    · split at hs
      · cases hs
        refine h.look ht hpc ip (fun ip' ↦ ?_) rfl ⟨rfl, rfl, rfl, rfl, rfl⟩
          (.inl ⟨mode, true, rfl⟩)
        change (((s.setInode ip _).dupInode ip).inodes ip').refCount = _
        rw [dupInode_refCount, setInode_refCount s ip rfl]
      · cases hs
    · split at hs
      · cases hs
        exact hlook ip _ (.inr ⟨true, rfl⟩)
      · cases hs
        exact hlook ip _ (.inl ⟨mode, true, rfl⟩)
  | existing ip =>
    unfold Machine.open_ at hs
    dsimp only at hs
    split at hs
    · split at hs
      · cases hs
        exact hlook ip _ (.inl ⟨mode, false, rfl⟩)
      · cases hs
        exact h.stop (.inl rfl)
    · cases hs

/-- `File::read` or `File::write` of a descriptor. -/
theorem Accounted.access (h : s.Accounted) (ht : t < s.next) (hpc : (s.procs t).pc = .idle)
    {fd : Nat} {desc : Descriptor} (hfd : (s.procs t).openFiles[fd]? = some (some desc))
    {allowed : Bool} {function : Device → Option Driver} {l : Pc ι} {res : Int32}
    (hl : l.file = some desc.file) :
    (s.access t desc.file allowed function l res).Accounted := by
  have hret : ∀ n, (s.return_ t n).Accounted := fun n ↦ h.returns ht hpc n
  have hfilled := h.filled.live t ht desc (by
    rw [Process.live, hpc]
    exact List.mem_of_getElem? hfd)
  unfold Machine.access
  split
  · exact hret _
  · split
    · exact hret _
    · split
      · exact hret _
      · split
        · exact h.stop (.inr rfl)
        · exact hret _
    · exact h.start ht hpc hfd (.inr hl)
    · next hnone =>
      rw [hnone] at hfilled
      rcases hfilled.1 with he | he <;> cases he

/-- Every step keeps the accounts. -/
theorem Accounted.step (h : s.Accounted) {e : Event ι δ} (hs : s.step e = some s') :
    s'.Accounted := by
  unfold Machine.step at hs
  split at hs
  · cases hs
  cases e with
  | open_ t mode lookup =>
    obtain ⟨ht, hpc, hs⟩ := call_eq hs
    exact h.open_ ht hpc hs
  | close t fd =>
    obtain ⟨ht, hpc, hs⟩ := call_eq hs
    split at hs
    · cases hs
      exact h.returns ht hpc _
    · next hfd =>
      cases hs
      exact h.start ht hpc (getArgFd_eq hfd) (.inl rfl)
  | fork t =>
    obtain ⟨ht, hpc, hs⟩ := call_eq hs
    cases hs
    exact h.forkBegin ht hpc
  | exit t =>
    obtain ⟨ht, hpc, hs⟩ := call_eq hs
    cases hs
    exact h.exiting ht (.inl hpc) (.inl ⟨0, rfl, (by simp)⟩)
  | read t fd n res =>
    obtain ⟨ht, hpc, hs⟩ := call_eq hs
    split at hs
    · cases hs
      exact h.returns ht hpc _
    · next desc hfd =>
      cases hs
      exact h.access ht hpc (getArgFd_eq hfd) rfl
  | write t fd n res =>
    obtain ⟨ht, hpc, hs⟩ := call_eq hs
    split at hs
    · cases hs
      exact h.returns ht hpc _
    · next desc hfd =>
      cases hs
      exact h.access ht hpc (getArgFd_eq hfd) rfl
  | mknod t major minor lookup =>
    obtain ⟨ht, hpc, hs⟩ := call_eq hs
    cases lookup with
    | absent =>
      cases hs
      exact h.returns ht hpc _
    | found ip =>
      dsimp only at hs
      split at hs
      · cases hs
        exact (h.returns ht hpc 0).around rfl rfl rfl rfl rfl fun ip' ↦
          congrArg (· + s.others ip') (setInode_refCount s ip
            (f := fun x ↦ { x with type := T_DEVICE, major := major.toInt16 }) rfl ip')
      · cases hs
    | existing ip =>
      cases hs
      exact h.stop (.inl rfl)
  | go t res d =>
    dsimp only at hs
    split at hs
    · next ht => exact h.go ht hs
    · cases hs
  | load ip type major =>
    dsimp only at hs
    split at hs
    · cases hs
      refine h.around rfl rfl rfl rfl rfl fun ip' ↦ ?_
      rw [setInode_refCount s ip rfl]
      rfl
    · cases hs
  | refer ip n =>
    cases hs
    refine h.around rfl rfl rfl rfl rfl fun ip' ↦ ?_
    have hle : s.others ip ≤ (s.inodes ip).refCount := by
      have := h.noded.refCount ip
      omega
    by_cases he : ip' = ip
    · subst he
      simp [setInode]
      omega
    · simp [setInode, Function.update_of_ne he]
  | change data =>
    cases hs
    exact h.around rfl rfl rfl rfl rfl fun _ ↦ rfl

/-- The kernel before the first process runs: it has the root as its current directory, and no
file is open. -/
structure Initial (s : Machine ι δ) (root : ι) : Prop where
  next : s.next = 1
  first : s.procs 0 = ⟨[], some root, .idle, 0⟩
  files : ∀ i, (s.files i).type = .None ∧ (s.files i).refCount = 0
  inodes : ∀ ip, (s.inodes ip).refCount = s.others ip + if some root = some ip then 1 else 0
  fault : s.fault = none
  opened : ∀ i, s.history.opened i = 0
  put : ∀ i, s.history.put i = 0
  transfers : ∀ i, s.history.transfers i = []

theorem Initial.accounted {root : ι} (h : s.Initial root) : s.Accounted := by
  have hproc : ∀ t < s.next, s.procs t = ⟨[], some root, .idle, 0⟩ := by
    intro t ht
    rw [h.next] at ht
    have hzero : t = 0 := by omega
    rw [hzero, h.first]
  have htotal : ∀ f : Process ι → Nat,
      total s.next (fun t ↦ f (s.procs t)) = f ⟨[], some root, .idle, 0⟩ := by
    intro f
    rw [h.next, total_succ, h.first]
    exact Nat.zero_add _
  refine ⟨⟨fun i ↦ ?_, fun i _ ↦ (h.files i).2⟩, ⟨fun t ht d hd ↦ ?_, fun t ht i hi ↦ ?_,
    fun i _ ↦ (h.files i).1⟩, ⟨fun ip ↦ ?_, fun i ↦ ?_⟩, ⟨fun t ht ↦ ?_, fun t ht c fd hf ↦ ?_,
      fun t ht u hu c fd fd' hf ↦ ?_⟩, fun f hf ↦ ?_⟩
  · rw [(h.files i).2, htotal (Process.refs i)]
    rfl
  · rw [hproc t ht] at hd
    cases hd
  · rw [hproc t ht] at hi
    cases hi
  · have hzero : total NUM_FILES (fun i ↦ (s.files i).on ip) = 0 :=
      total_eq_zero fun i _ ↦ by rw [File.on, (h.files i).1]; rfl
    rw [h.inodes, hzero, htotal (Process.holds ip)]
    simp only [Process.holds, Pc.node, reduceCtorEq, if_false]
    omega
  · rw [h.opened, h.put, File.used, (h.files i).1, htotal (Process.dropping i)]
    rfl
  · rw [hproc t ht]
    exact .plain rfl rfl rfl rfl (by simp)
  · rw [hproc t ht] at hf
    cases hf
  · rw [hproc t ht] at hf
    cases hf
  · rw [h.fault] at hf
    cases hf

/-- Every process is between two system calls, or has exited. -/
def Between (s : Machine ι δ) : Prop :=
  ∀ t < s.next, (s.procs t).pc = .idle ∨ (s.procs t).pc = .dead

omit [DecidableEq ι] in
theorem Between.refs_eq (h : s.Between) (ht : t < s.next) (i : Nat) :
    (s.procs t).refs i = (s.procs t).openFiles.countP (points i) ∧ (s.procs t).dropping i = 0 ∧
      (s.procs t).pc.node = none ∧ (s.procs t).hand = none := by
  rcases h t ht with hpc | hpc <;>
    simp [Process.refs, Process.live, Process.hand, Process.dropping, hpc, Pc.node]

/-- In every run, the count of an entry of `ftable` is the number of descriptors that point to it
and are not closed already, with the one that `open` has in hand; `File::allocate` finds an entry
that none of them points to; and the assertions of `dup` and `close` hold. Between system calls,
the count is the number of all descriptors that point to the entry, an entry has been put once
less often than it was opened if it is pointed to and as often if not, and the references of an
inode are one for each entry in use, one for each process in that directory, and those of
others. -/
theorem files_accounted {s₀ : Machine ι δ} {root : ι} (h₀ : s₀.Initial root)
    (hr : Run Machine.step (fun _ _ ↦ True) s₀ s) :
    (∀ i, (s.files i).refCount = total s.next fun t ↦ (s.procs t).refs i) ∧
      (∀ t ip mode locked i, t < s.next → (s.procs t).pc = .found ip mode locked →
        s.free = some i → ∀ u < s.next, ∀ d, some d ∈ (s.procs u).live → d.file ≠ i) ∧
      (∀ f, s.fault = some f → f = .unlock ∨ f = .device) ∧
      (s.Between →
        (∀ i, (s.files i).refCount =
          total s.next fun t ↦ (s.procs t).openFiles.countP (points i)) ∧
        (∀ i, s.history.opened i =
          s.history.put i + if 0 < (s.files i).refCount then 1 else 0) ∧
        ∀ ip, (s.inodes ip).refCount =
          total NUM_FILES (fun i ↦
            if 0 < (s.files i).refCount ∧ (s.files i).ip = some ip then 1 else 0) +
          total s.next (fun t ↦ if (s.procs t).cwd = some ip then 1 else 0) + s.others ip) := by
  have h : s.Accounted := hr.invariant h₀.accounted fun _ _ _ h _ hs ↦ h.step hs
  refine ⟨h.counted.refCount, ?_, h.fault, fun hb ↦ ?_⟩
  · rintro t ip mode locked i ht hpc hfree u hu d hd rfl
    have hpos := Process.refs_pos_of_mem hd
    rw [h.counted.refs_eq_zero (free_spec hfree).2 hu] at hpos
    omega
  · -- nobody has an entry in hand, so an entry is in use if it has a reference
    have hused : ∀ i, (s.files i).type ≠ .None ↔ 0 < (s.files i).refCount := by
      intro i
      refine ⟨fun hne ↦ ?_, fun hpos ↦ ?_⟩
      · by_contra hzero
        exact hne (h.filled.empty i (by omega))
      · have hsum := h.counted.refCount i
        by_contra htype
        have hzero : total s.next (fun t ↦ (s.procs t).refs i) = 0 := by
          refine total_eq_zero fun t ht ↦ ?_
          rw [(hb.refs_eq ht i).1, List.countP_eq_zero]
          intro e he hpoint
          cases e with
          | none => cases hpoint
          | some d =>
            have hfile : d.file = i := by simpa [points] using hpoint
            have hlive : some d ∈ (s.procs t).live := by
              rcases hb t ht with hpc | hpc <;> rw [Process.live, hpc] <;> exact he
            have hfilled := (h.filled.live t ht d hlive).1
            rw [hfile, htype] at hfilled
            rcases hfilled with hf | hf <;> cases hf
        omega
    refine ⟨fun i ↦ ?_, fun i ↦ ?_, fun ip ↦ ?_⟩
    · rw [h.counted.refCount i]
      exact total_congr fun t ht ↦ (hb.refs_eq ht i).1
    · have hzero : total s.next (fun t ↦ (s.procs t).dropping i) = 0 :=
        total_eq_zero fun t ht ↦ (hb.refs_eq ht i).2.1
      rw [h.noded.opened i, hzero, File.used]
      simp only [hused]
      rfl
    · rw [h.noded.refCount ip]
      simp only [File.on, hused]
      congr 2
      refine total_congr fun t ht ↦ ?_
      rw [Process.holds, (hb.refs_eq ht 0).2.2.1]
      simp

/-- A kernel with two inodes, a directory and a file, where one process runs. -/
def boot : Machine (Fin 2) Nat where
  procs := fun _ ↦ ⟨[], some 0, .idle, 0⟩
  next := 1
  files := fun _ ↦ ⟨.None, 0, false, false, none, 0, 0⟩
  inodes := fun ip ↦ if ip = 0 then ⟨T_DIR, 0, 1⟩ else ⟨T_FILE, 0, 0⟩
  data := fun _ ↦ 0
  others := fun _ ↦ 0
  fault := none
  history := ⟨fun _ ↦ 0, fun _ ↦ 0, fun _ ↦ []⟩

theorem boot_initial : boot.Initial 0 := by
  refine ⟨rfl, rfl, fun _ ↦ ⟨rfl, rfl⟩, fun ip ↦ ?_, rfl, fun _ ↦ rfl, fun _ ↦ rfl, fun _ ↦ rfl⟩
  revert ip
  decide

/-- A process opens the file and forks, and its child closes the descriptor. -/
def sharing : List (Event (Fin 2) Nat) :=
  [.open_ 0 O_RDWR (.found 1), .go 0 0 0, .go 0 0 0, .fork 0, .go 0 0 0, .go 0 0 0, .close 1 0,
    .go 1 0 0, .go 1 0 0]

theorem files_accounted_sharing :
    ((final Machine.step boot sharing).files 0).refCount = 1 ∧
      (final Machine.step boot sharing).history.opened 0 =
        (final Machine.step boot sharing).history.put 0 + 1 ∧
      ((final Machine.step boot sharing).files 0).refCount =
        total (final Machine.step boot sharing).next fun t ↦
          ((final Machine.step boot sharing).procs t).openFiles.countP (points 0) :=
  ⟨by decide +kernel, by decide +kernel,
    ((files_accounted boot_initial (run_final (by decide +kernel) (by simp [sharing, Plays]))).2.2.2
      (by unfold Between; decide +kernel)).1 0⟩

end Machine

end Orfos.Files
