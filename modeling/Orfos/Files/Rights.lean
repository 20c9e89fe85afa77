import Orfos.Files.Lifetime

/-!
# The rights of descriptors

What a descriptor may do is decided when it is opened and does not change: no other `open` writes
to its entry of `ftable` while a descriptor points there, and the type and the major number of an
inode stay while it is in `ftable` or on its way there.
-/

namespace Orfos.Files

open Orfos.Base Orfos.Syscall

variable {ι δ : Type} [DecidableEq ι]

/-- The inode and the mode of an `open` on its way. -/
def Pc.opening : Pc ι → Option (ι × Int32)
  | .found ip mode _ | .allocated ip mode _ _ => some (ip, mode)
  | _ => none

/-- Two states of an entry that differ in the count and the offset. -/
structure File.Alike (f g : File ι) : Prop where
  type : f.type = g.type
  readable : f.readable = g.readable
  writable : f.writable = g.writable
  ip : f.ip = g.ip
  major : f.major = g.major

omit [DecidableEq ι] in
theorem File.Alike.refl (f : File ι) : f.Alike f := ⟨rfl, rfl, rfl, rfl, rfl⟩

namespace Machine

variable {s s' : Machine ι δ} {t : Nat} {p : Process ι}

/-- What a descriptor may do, and what it leads to. -/
structure Proper (s : Machine ι δ) (d : Descriptor) (ip : ι) : Prop where
  node : (s.files d.file).ip = some ip
  readable : (s.files d.file).readable = decide (d.mode &&& O_WRONLY = 0)
  writable : (s.files d.file).writable =
    decide (d.mode &&& O_WRONLY = 0 ∨ d.mode &&& O_RDWR ≠ 0)
  device : (s.files d.file).type = .Device ↔ (s.inodes ip).type = T_DEVICE
  major : (s.files d.file).type = .Device → (s.files d.file).major = (s.inodes ip).major
  directory : (s.inodes ip).type = T_DIR → d.mode = O_RDONLY

/-- What holds of the descriptors between the steps. -/
structure Sane (s : Machine ι δ) : Prop where
  proper : ∀ t < s.next, ∀ d, some d ∈ (s.procs t).live → ∃ ip, s.Proper d ip
  opening : ∀ t < s.next, ∀ ip mode, (s.procs t).pc.opening = some (ip, mode) →
    (s.inodes ip).type = T_DIR → mode = O_RDONLY

/-- A step that fills in no entry. -/
structure Quiet (s s' : Machine ι δ) : Prop where
  live : ∀ t < s'.next, ∀ d, some d ∈ (s'.procs t).live →
    ∃ u < s.next, some d ∈ (s.procs u).live
  files : ∀ i, (s'.files i).type ≠ .None → (s'.files i).Alike (s.files i)
  inodes : ∀ ip, s.unused ip = false →
    (s'.inodes ip).type = (s.inodes ip).type ∧ (s'.inodes ip).major = (s.inodes ip).major
  opens : ∀ t < s'.next, ∀ ip mode, (s'.procs t).pc.opening = some (ip, mode) →
    (∃ u < s.next, (s.procs u).pc.opening = some (ip, mode)) ∨
      ((s'.inodes ip).type = T_DIR → mode = O_RDONLY)

/-- An inode in `ftable` is in use. -/
theorem unused_file {i : Nat} {ip : ι} (hi : i < NUM_FILES) (htype : (s.files i).type ≠ .None)
    (hip : (s.files i).ip = some ip) : s.unused ip = false := by
  by_contra hne
  rw [Bool.not_eq_false, unused, decide_eq_true_eq, List.all_eq_true] at hne
  have := hne.1 i (List.mem_range.mpr hi)
  rw [decide_eq_true_eq] at this
  rcases this with h | h
  · exact htype h
  · exact h hip

/-- An inode that a process opens is in use. -/
theorem unused_opening {ip : ι} {mode : Int32} (ht : t < s.next)
    (hpc : (s.procs t).pc.opening = some (ip, mode)) : s.unused ip = false := by
  have hnode : (s.procs t).pc.node = some ip := by
    cases hp : (s.procs t).pc <;> rw [hp] at hpc <;> cases hpc <;> rfl
  by_contra hne
  rw [Bool.not_eq_false, unused, decide_eq_true_eq, List.all_eq_true, List.all_eq_true] at hne
  have := hne.2 t (List.mem_range.mpr ht)
  rw [decide_eq_true_eq] at this
  exact this hnode

/-- A quiet step keeps what holds of the descriptors. -/
theorem Sane.quiet (h : s.Sane) (ha : s.Accounted) (ha' : s'.Accounted) (hq : Quiet s s') :
    s'.Sane := by
  refine ⟨fun t ht d hd ↦ ?_, fun t ht ip mode hpc hdir ↦ ?_⟩
  · obtain ⟨u, hu, hd'⟩ := hq.live t ht d hd
    obtain ⟨ip, hp⟩ := h.proper u hu d hd'
    have htype : (s'.files d.file).type ≠ .None := by
      rcases (ha'.filled.live t ht d hd).1 with hf | hf <;> rw [hf] <;> nofun
    have hfile := hq.files d.file htype
    have hlt : d.file < NUM_FILES := by
      apply ha.counted.lt
      intro hzero
      have := Process.refs_pos_of_mem hd'
      rw [ha.counted.refs_eq_zero hzero hu] at this
      omega
    obtain ⟨hkind, hmajor⟩ := hq.inodes ip (unused_file hlt (hfile.type ▸ htype) hp.node)
    refine ⟨ip, hfile.ip.trans hp.node, hfile.readable.trans hp.readable,
      hfile.writable.trans hp.writable, ?_, ?_, ?_⟩
    · rw [hfile.type, hkind]
      exact hp.device
    · rw [hfile.type, hfile.major, hmajor]
      exact hp.major
    · rw [hkind]
      exact hp.directory
  · rcases hq.opens t ht ip mode hpc with ⟨u, hu, hpc'⟩ | hmode
    · rw [(hq.inodes ip (unused_opening hu hpc')).1] at hdir
      exact h.opening u hu ip mode hpc' hdir
    · exact hmode hdir

/-- A step of one process. -/
theorem Quiet.update (ht : t < s.next) (hnext : s'.next = s.next)
    (hprocs : s'.procs = Function.update s.procs t p)
    (hlive : ∀ d, some d ∈ p.live → some d ∈ (s.procs t).live)
    (hfiles : ∀ i, (s'.files i).type ≠ .None → (s'.files i).Alike (s.files i))
    (hinodes : ∀ ip, s.unused ip = false →
      (s'.inodes ip).type = (s.inodes ip).type ∧ (s'.inodes ip).major = (s.inodes ip).major)
    (hopens : ∀ ip mode, p.pc.opening = some (ip, mode) →
      (s.procs t).pc.opening = some (ip, mode) ∨
        ((s'.inodes ip).type = T_DIR → mode = O_RDONLY)) : Quiet s s' := by
  refine ⟨fun u hu d hd ↦ ?_, hfiles, hinodes, fun u hu ip mode hpc ↦ ?_⟩
  · rw [hprocs] at hd
    by_cases he : u = t
    · rw [he, Function.update_self] at hd
      exact ⟨t, ht, hlive d hd⟩
    · rw [Function.update_of_ne he] at hd
      exact ⟨u, hnext ▸ hu, hd⟩
  · rw [hprocs] at hpc
    by_cases he : u = t
    · rw [he, Function.update_self] at hpc
      rcases hopens ip mode hpc with hold | hmode
      · exact .inl ⟨t, ht, hold⟩
      · exact .inr hmode
    · rw [Function.update_of_ne he] at hpc
      exact .inl ⟨u, hnext ▸ hu, hpc⟩

/-- A step that changes a process and nothing else. -/
theorem Quiet.set (ht : t < s.next)
    (hlive : ∀ d, some d ∈ p.live → some d ∈ (s.procs t).live)
    (hopens : ∀ x, p.pc.opening = some x → (s.procs t).pc.opening = some x) :
    Quiet s (s.setProc t p) :=
  .update ht rfl rfl hlive (fun _ _ ↦ .refl _) (fun _ _ ↦ ⟨rfl, rfl⟩)
    fun ip mode hpc ↦ .inl (hopens (ip, mode) hpc)

theorem Quiet.stop (f : Fault) : Quiet s (s.stop f) :=
  ⟨fun t ht _ hd ↦ ⟨t, ht, hd⟩, fun _ _ ↦ .refl _, fun _ _ ↦ ⟨rfl, rfl⟩,
    fun t ht _ _ hpc ↦ .inl ⟨t, ht, hpc⟩⟩

/-- A change to an inode that leaves its type and its major number. -/
theorem setInode_kind (s : Machine ι δ) (ip : ι) {f : Inode → Inode}
    (hf : (f (s.inodes ip)).type = (s.inodes ip).type ∧
      (f (s.inodes ip)).major = (s.inodes ip).major) (ip' : ι) :
    ((s.setInode ip f).inodes ip').type = (s.inodes ip').type ∧
      ((s.setInode ip f).inodes ip').major = (s.inodes ip').major := by
  by_cases he : ip' = ip
  · subst he
    simp only [setInode, Function.update_self]
    exact hf
  · simp [setInode, Function.update_of_ne he]

theorem dupInode_kind (s : Machine ι δ) (ip ip' : ι) :
    ((s.dupInode ip).inodes ip').type = (s.inodes ip').type ∧
      ((s.dupInode ip).inodes ip').major = (s.inodes ip').major :=
  setInode_kind s ip ⟨rfl, rfl⟩ ip'

theorem putInode_kind (s : Machine ι δ) (ip ip' : ι) :
    ((s.putInode ip).inodes ip').type = (s.inodes ip').type ∧
      ((s.putInode ip).inodes ip').major = (s.inodes ip').major :=
  setInode_kind s ip ⟨rfl, rfl⟩ ip'

/-- A change to an inode that is not in use. -/
theorem setInode_unused {ip : ι} (h : s.unused ip = true) (f : Inode → Inode) (ip' : ι)
    (h' : s.unused ip' = false) : (s.setInode ip f).inodes ip' = s.inodes ip' := by
  have hne : ip' ≠ ip := by
    rintro rfl
    rw [h] at h'
    cases h'
  exact Function.update_of_ne hne _ _

omit [DecidableEq ι] in
/-- A change to an entry of `ftable` that takes it out of use or changes its count. -/
theorem setFile_alike {i : Nat} {f : File ι} (h : f.type ≠ .None → f.Alike (s.files i)) (j : Nat)
    (hj : ((s.setFile i f).files j).type ≠ .None) :
    ((s.setFile i f).files j).Alike (s.files j) := by
  by_cases he : j = i
  · subst he
    simp only [setFile, Function.update_self] at hj ⊢
    exact h hj
  · simp only [setFile, Function.update_of_ne he]
    exact .refl _

/-- The lookup of `open` is a quiet step. -/
theorem open_quiet (ht : t < s.next) (hpc : (s.procs t).pc = .idle) {mode : Int32}
    {lookup : Lookup ι} (hs : s.open_ t mode lookup = some s') : Quiet s s' := by
  have hlive : (s.procs t).live = (s.procs t).openFiles := by rw [Process.live, hpc]
  cases lookup with
  | absent =>
    cases hs
    exact .set ht (fun d hd ↦ by rw [hlive]; exact hd) (by simp [Pc.opening])
  | found ip =>
    unfold Machine.open_ at hs
    dsimp only at hs
    split at hs
    · split at hs
      · next hunused =>
        cases hs
        refine .update (p := { s.procs t with pc := .found ip mode true }) ht rfl rfl
          (fun d hd ↦ by rw [hlive]; exact hd) (fun _ _ ↦ .refl _) (fun ip' h' ↦ ?_)
          (fun ip' mode' hpc' ↦ .inr fun hdir ↦ ?_)
        · have hkind := setInode_kind (s.setInode ip fun x ↦ { x with type := T_FILE, major := 0 })
            ip (f := fun x ↦ { x with refCount := x.refCount + 1 }) ⟨rfl, rfl⟩ ip'
          rw [setInode_unused hunused _ ip' h'] at hkind
          exact hkind
        · cases hpc'
          simp only [dupInode, setInode, goto, setProc, Function.update_self] at hdir
          exact absurd hdir (by decide)
      · cases hs
    · split at hs
      · cases hs
        exact .update (p := { s.procs t with pc := .refused ip true }) ht rfl rfl
          (fun d hd ↦ by rw [hlive]; exact hd) (fun _ _ ↦ .refl _)
          (fun ip' _ ↦ dupInode_kind s ip ip') (by simp [Pc.opening])
      · next hok =>
        cases hs
        refine .update (p := { s.procs t with pc := .found ip mode true }) ht rfl rfl
          (fun d hd ↦ by rw [hlive]; exact hd) (fun _ _ ↦ .refl _)
          (fun ip' _ ↦ dupInode_kind s ip ip') (fun ip' mode' hpc' ↦ .inr fun hdir ↦ ?_)
        cases hpc'
        by_contra hmode
        exact hok ⟨(dupInode_kind s ip ip).1.symm.trans hdir, hmode⟩
  | existing ip =>
    unfold Machine.open_ at hs
    dsimp only at hs
    split at hs
    · split at hs
      · next htype =>
        cases hs
        refine .update (p := { s.procs t with pc := .found ip mode false }) ht rfl rfl
          (fun d hd ↦ by rw [hlive]; exact hd) (fun _ _ ↦ .refl _)
          (fun ip' _ ↦ dupInode_kind s ip ip') (fun ip' mode' hpc' ↦ .inr fun hdir ↦ ?_)
        cases hpc'
        rw [show (s.inodes ip).type = T_DIR from (dupInode_kind s ip ip).1.symm.trans hdir] at htype
        rcases htype with h | h <;> cases h
      · cases hs
        exact .stop _
    · cases hs

/-- `File::close` is a quiet step. -/
theorem closeFile_quiet (ht : t < s.next) {fd i : Nat} {exiting : Bool}
    (hpc : (s.procs t).pc = .closing fd exiting) : Quiet s (s.closeFile t fd exiting i) := by
  have hset : ∀ d, some d ∈ (s.procs t).openFiles.set fd none → some d ∈ (s.procs t).live := by
    intro d hd
    rw [Process.live, hpc]
    exact mem_of_mem_set_none hd
  -- the last close takes the entry out of use
  have hlast := setFile_alike (s := s) (i := i)
    (f := { s.files i with refCount := 0, type := .None }) (absurd rfl)
  have hnull : Quiet s ((s.setFile i { s.files i with refCount := 0, type := .None }).stop .null) :=
    ⟨fun u hu d hd ↦ ⟨u, hu, hd⟩, hlast, fun _ _ ↦ ⟨rfl, rfl⟩, fun u hu _ _ h ↦ .inl ⟨u, hu, h⟩⟩
  unfold closeFile
  dsimp only
  split
  · exact .stop _
  · split
    · exact .update ht rfl rfl hset (setFile_alike fun _ ↦ ⟨rfl, rfl, rfl, rfl, rfl⟩)
        (fun _ _ ↦ ⟨rfl, rfl⟩) (by simp [Pc.opening])
    · split
      · exact .update ht rfl rfl hset hlast (fun _ _ ↦ ⟨rfl, rfl⟩) (by simp [Pc.opening])
      · exact .update ht rfl rfl hset hlast (fun _ _ ↦ ⟨rfl, rfl⟩) (by simp [Pc.opening])
      · split
        · exact hnull
        · exact .update ht rfl rfl hset hlast (fun _ _ ↦ ⟨rfl, rfl⟩) (by simp [Pc.opening])
      · split
        · exact hnull
        · exact .update ht rfl rfl hset hlast (fun _ _ ↦ ⟨rfl, rfl⟩) (by simp [Pc.opening])

/-- A step of `fork` changes the parent and the child. -/
theorem Quiet.pair {c : Nat} {q : Process ι} (ht : t < s.next)
    (hprocs : s'.procs = Function.update (Function.update s.procs c q) t p)
    (hold : ∀ u < s'.next, u ≠ t → u ≠ c → u < s.next)
    (hparent : ∀ d, some d ∈ p.live → some d ∈ (s.procs t).live) (hpc : p.pc.opening = none)
    (hchild : ∀ d, some d ∈ q.live → ∃ u < s.next, some d ∈ (s.procs u).live)
    (hpc' : q.pc.opening = none)
    (hfiles : ∀ i, (s'.files i).type ≠ .None → (s'.files i).Alike (s.files i))
    (hinodes : ∀ ip, (s'.inodes ip).type = (s.inodes ip).type ∧
      (s'.inodes ip).major = (s.inodes ip).major) : Quiet s s' := by
  refine ⟨fun u hu d hd ↦ ?_, hfiles, fun ip _ ↦ hinodes ip, fun u hu ip mode hu' ↦ ?_⟩
  · rw [hprocs] at hd
    by_cases he : u = t
    · rw [he, Function.update_self] at hd
      exact ⟨t, ht, hparent d hd⟩
    · rw [Function.update_of_ne he] at hd
      by_cases hc : u = c
      · rw [hc, Function.update_self] at hd
        exact hchild d hd
      · rw [Function.update_of_ne hc] at hd
        exact ⟨u, hold u hu he hc, hd⟩
  · rw [hprocs] at hu'
    by_cases he : u = t
    · rw [he, Function.update_self] at hu'
      cases hpc.symm.trans hu'
    · rw [Function.update_of_ne he] at hu'
      by_cases hc : u = c
      · rw [hc, Function.update_self] at hu'
        cases hpc'.symm.trans hu'
      · rw [Function.update_of_ne hc] at hu'
        exact .inl ⟨u, hold u hu he hc, hu'⟩

/-- `fork` is made of quiet steps. -/
theorem fork_quiet (h : s.Accounted) (ht : t < s.next) {c fd : Nat}
    (hpc : (s.procs t).pc = .forking c fd) : Quiet s (s.fork t c fd) := by
  obtain ⟨hc, hunborn⟩ := h.kept.child t ht c fd hpc
  have hne : t ≠ c := by
    rintro rfl
    cases hpc.symm.trans hunborn
  have hlive : (s.procs t).live = (s.procs t).openFiles := by rw [Process.live, hpc]
  have hchild : ∀ d, some d ∈ (s.procs c).openFiles → ∃ u < s.next, some d ∈ (s.procs u).live := by
    intro d hd
    refine ⟨c, hc, ?_⟩
    rw [Process.live, hunborn]
    exact hd
  have hself : ∀ {q : Process ι} {d}, some d ∈ (Function.update s.procs c q t).openFiles →
      some d ∈ (s.procs t).live := by
    intro q d hd
    rwa [hlive, ← Function.update_of_ne (f := s.procs) hne q]
  unfold Machine.fork
  dsimp only
  split
  · next desc hfd =>
    split
    · exact .stop _
    · refine .pair ht rfl (fun u hu _ _ ↦ hu) (fun d hd ↦ ?_) rfl (fun d hd ↦ ?_) ?_
        (setFile_alike fun _ ↦ ⟨rfl, rfl, rfl, rfl, rfl⟩) (fun _ ↦ ⟨rfl, rfl⟩)
      · exact hself hd
      · simp only [Process.live, hunborn] at hd
        rcases List.mem_append.mp hd with hd | hd
        · exact hchild d hd
        · cases List.mem_singleton.mp hd
          exact ⟨t, ht, hlive ▸ List.mem_of_getElem? hfd⟩
      · change (s.procs c).pc.opening = none
        rw [hunborn]
        rfl
  · refine .pair ht rfl (fun u hu _ _ ↦ hu) (fun d hd ↦ ?_) rfl (fun d hd ↦ ?_) ?_
      (fun _ _ ↦ .refl _) (fun _ ↦ ⟨rfl, rfl⟩)
    · exact hself hd
    · simp only [Process.live, hunborn] at hd
      rcases List.mem_append.mp hd with hd | hd
      · exact hchild d hd
      · cases List.mem_singleton.mp hd
    · change (s.procs c).pc.opening = none
      rw [hunborn]
      rfl
  · split
    · exact .stop _
    · next ip _ =>
      refine .pair ht rfl (fun u hu _ _ ↦ hu) (fun d hd ↦ ?_) rfl (fun d hd ↦ ?_) rfl
        (fun _ _ ↦ .refl _) (dupInode_kind s ip)
      · exact hself hd
      · exact hchild d hd

omit [DecidableEq ι] in
/-- A transfer changes the offset of an entry and nothing else of it. -/
theorem transfer_alike (s : Machine ι δ) (i : Nat) (res : Int32) (j : Nat) :
    ((s.transfer i res).files j).Alike (s.files j) := by
  unfold transfer
  dsimp only
  split
  · by_cases hj : j = i
    · subst hj
      simp only [setFile, Function.update_self]
      exact ⟨rfl, rfl, rfl, rfl, rfl⟩
    · simp only [setFile, Function.update_of_ne hj]
      exact .refl _
  · exact .refl _

/-- A transfer is a quiet step. -/
theorem transfer_quiet (ht : t < s.next) (data : ι → δ) {i : Nat} {res : Int32}
    (hlive : ∀ d, some d ∈ p.live → some d ∈ (s.procs t).live) (hpc : p.pc.opening = none) :
    Quiet s (({ s with data := data }.transfer i res).setProc t p) := by
  obtain ⟨hprocs, hnext, -, hinodes, -⟩ := transfer_spec { s with data := data } i res
  refine .update ht hnext (by rw [setProc, hprocs]) hlive
    (fun j _ ↦ transfer_alike { s with data := data } i res j) (fun ip _ ↦ ?_) (fun ip mode h ↦ ?_)
  · rw [setProc, hinodes]
    exact ⟨rfl, rfl⟩
  · cases hpc.symm.trans h

/-- A step of a process is quiet, unless it fills in an entry. -/
theorem go_quiet (h : s.Accounted) (ht : t < s.next) {res : Int32} {d : δ}
    (hs : s.go t res d = some s') :
    Quiet s s' ∨ ∃ ip mode locked i, (s.procs t).pc = .allocated ip mode locked i ∧
      s' = s.finishOpen t ip mode locked i d := by
  unfold Machine.go at hs
  dsimp only at hs
  cases hpc : (s.procs t).pc with
  | idle | dead | unborn =>
    rw [hpc] at hs
    cases hs
  | found ip mode locked =>
    have hlive : (s.procs t).live = (s.procs t).openFiles := by rw [Process.live, hpc]
    rw [hpc] at hs
    dsimp only at hs
    left
    split at hs
    · cases hs
      exact .set ht (fun d hd ↦ by rw [hlive]; exact hd) (by simp [Pc.opening])
    · split at hs
      · cases hs
        exact .set ht (fun d hd ↦ by rw [hlive]; exact hd) (by simp [Pc.opening])
      · cases hs
        refine .update ht rfl rfl (fun d hd ↦ by rw [hlive]; exact hd)
          (setFile_alike fun _ ↦ ⟨rfl, rfl, rfl, rfl, rfl⟩) (fun _ _ ↦ ⟨rfl, rfl⟩)
          (fun ip' mode' hpc' ↦ .inl ?_)
        rw [hpc]
        exact hpc'
  | refused ip locked =>
    have hlive : (s.procs t).live = (s.procs t).openFiles := by rw [Process.live, hpc]
    rw [hpc] at hs
    cases hs
    left
    split
    · exact .update ht rfl rfl (fun d hd ↦ by rw [hlive]; exact hd) (fun _ _ ↦ .refl _)
        (fun ip' _ ↦ putInode_kind s ip ip') (by simp [Pc.opening])
    · exact .stop _
  | allocated ip mode locked i =>
    rw [hpc] at hs
    cases hs
    exact .inr ⟨ip, mode, locked, i, rfl, rfl⟩
  | closing fd exiting =>
    obtain ⟨desc, hfd⟩ := (h.kept.tidy t ht).closing fd exiting hpc
    rw [hpc] at hs
    dsimp only at hs
    rw [hfd] at hs
    cases hs
    exact .inl (closeFile_quiet ht hpc)
  | putting fd i ip exiting =>
    have hlive : (s.procs t).live = (s.procs t).openFiles.set fd none := by rw [Process.live, hpc]
    rw [hpc] at hs
    cases hs
    exact .inl (.update ht rfl rfl (fun d hd ↦ by rw [hlive]; exact hd) (fun _ _ ↦ .refl _)
      (fun ip' _ ↦ putInode_kind s ip ip') (by simp [Pc.opening]))
  | clearing fd exiting =>
    have hlive : (s.procs t).live = (s.procs t).openFiles.set fd none := by rw [Process.live, hpc]
    rw [hpc] at hs
    cases hs
    left
    cases exiting with
    | true => exact .set ht (fun d hd ↦ by rw [hlive]; exact hd) (by simp [Pc.opening])
    | false => exact .set ht (fun d hd ↦ by rw [hlive]; exact hd) (by simp [Pc.opening])
  | exiting fd =>
    have hlive : (s.procs t).live = (s.procs t).openFiles := by rw [Process.live, hpc]
    rw [hpc] at hs
    dsimp only at hs
    left
    split at hs
    · cases hs
      exact .set ht (fun d hd ↦ by rw [hlive]; exact hd) (by simp [Pc.opening])
    · cases hs
      exact .set ht (fun d hd ↦ by rw [hlive]; exact hd) (by simp [Pc.opening])
    · cases hs
      exact .set ht (fun _ hd ↦ absurd hd List.not_mem_nil) (by simp [Pc.opening])
  | leaving =>
    have hlive : (s.procs t).live = (s.procs t).openFiles := by rw [Process.live, hpc]
    rw [hpc] at hs
    dsimp only at hs
    left
    split at hs
    · cases hs
      exact .stop _
    · next ip _ =>
      cases hs
      exact .update ht rfl rfl (fun d hd ↦ by rw [hlive]; exact hd) (fun _ _ ↦ .refl _)
        (fun ip' _ ↦ putInode_kind s ip ip') (by simp [Pc.opening])
  | forking c fd =>
    rw [hpc] at hs
    cases hs
    exact .inl (fork_quiet h ht hpc)
  | reading i n =>
    have hlive : (s.procs t).live = (s.procs t).openFiles := by rw [Process.live, hpc]
    rw [hpc] at hs
    dsimp only at hs
    left
    split at hs
    · cases hs
      exact .stop _
    · split at hs
      · cases hs
        refine transfer_quiet ht s.data (fun d hd ↦ ?_) rfl
        rw [hlive, ← (transfer_spec s i res).1]
        exact hd
      · cases hs
  | writing i n k =>
    have hlive : (s.procs t).live = (s.procs t).openFiles := by rw [Process.live, hpc]
    rw [hpc] at hs
    dsimp only at hs
    left
    rcases writeChunk_cases hs with ⟨-, rfl⟩ | ⟨-, -, rfl⟩ | ⟨ip, -, -, -, ⟨-, rfl⟩ | ⟨-, rfl⟩⟩
    · exact .set ht (fun d hd ↦ by rw [hlive]; exact hd) (by simp [Pc.opening])
    · exact .stop _
    · refine transfer_quiet ht _ (fun d hd ↦ ?_) rfl
      rw [hlive]
      change some d ∈ ((transfer _ i res).procs t).openFiles at hd
      rwa [(transfer_spec _ i res).1] at hd
    · refine transfer_quiet ht _ (fun d hd ↦ ?_) rfl
      rw [hlive]
      change some d ∈ ((transfer _ i res).procs t).openFiles at hd
      rwa [(transfer_spec _ i res).1] at hd

/-- `File::read` and `File::write` begin with a quiet step. -/
theorem access_quiet (ht : t < s.next) (hpc : (s.procs t).pc = .idle) {i : Nat} {allowed : Bool}
    {function : Device → Option Driver} {l : Pc ι} {res : Int32}
    (hl : (∃ n, l = .reading i n) ∨ ∃ n, l = .writing i n 0) :
    Quiet s (s.access t i allowed function l res) := by
  have hlive : (s.procs t).live = (s.procs t).openFiles := by rw [Process.live, hpc]
  have hret : ∀ n, Quiet s (s.return_ t n) := fun n ↦
    .set ht (fun d hd ↦ by rw [hlive]; exact hd) (by simp [Pc.opening])
  unfold access
  split
  · exact hret _
  · split
    · exact hret _
    · split
      · exact hret _
      · split
        · exact .stop _
        · exact hret _
    · rcases hl with ⟨n, rfl⟩ | ⟨n, rfl⟩
      · exact .set ht (fun d hd ↦ by rw [hlive]; exact hd) (by simp [Pc.opening])
      · exact .set ht (fun d hd ↦ by rw [hlive]; exact hd) (by simp [Pc.opening])
    · exact .stop _

/-- A step is quiet, unless it fills in an entry. -/
theorem step_quiet (h : s.Accounted) {e : Event ι δ} (hs : s.step e = some s') :
    Quiet s s' ∨ ∃ t < s.next, ∃ ip mode locked i d,
      (s.procs t).pc = .allocated ip mode locked i ∧ s' = s.finishOpen t ip mode locked i d := by
  unfold Machine.step at hs
  split at hs
  · cases hs
  have hret : ∀ t n, t < s.next → (s.procs t).pc = .idle → Quiet s (s.return_ t n) := by
    intro t n ht hpc
    refine .set ht (fun d hd ↦ ?_) (by simp [Pc.opening])
    rw [Process.live, hpc]
    exact hd
  cases e with
  | open_ t mode lookup =>
    obtain ⟨ht, hpc, hs⟩ := call_eq hs
    exact .inl (open_quiet ht hpc hs)
  | close t fd =>
    obtain ⟨ht, hpc, hs⟩ := call_eq hs
    left
    split at hs
    · cases hs
      exact hret t _ ht hpc
    · cases hs
      refine .set ht (fun d hd ↦ ?_) (by simp [Pc.opening])
      rw [Process.live, hpc]
      exact hd
  | fork t =>
    obtain ⟨ht, hpc, hs⟩ := call_eq hs
    cases hs
    refine .inl (.pair (c := s.next) ht rfl (fun u hu _ hne ↦ ?_) (fun d hd ↦ ?_) rfl
      (fun _ hd ↦ absurd hd List.not_mem_nil) rfl (fun _ _ ↦ .refl _) (fun _ ↦ ⟨rfl, rfl⟩))
    · change u < s.next + 1 at hu
      omega
    · rw [Process.live, hpc]
      change some d ∈ (Function.update s.procs s.next _ t).openFiles at hd
      rwa [Function.update_of_ne (by omega)] at hd
  | exit t =>
    obtain ⟨ht, hpc, hs⟩ := call_eq hs
    cases hs
    refine .inl (.set ht (fun d hd ↦ ?_) (by simp [Pc.opening]))
    rw [Process.live, hpc]
    exact hd
  | read t fd n res =>
    obtain ⟨ht, hpc, hs⟩ := call_eq hs
    left
    split at hs
    · cases hs
      exact hret t _ ht hpc
    · cases hs
      exact access_quiet ht hpc (.inl ⟨n, rfl⟩)
  | write t fd n res =>
    obtain ⟨ht, hpc, hs⟩ := call_eq hs
    left
    split at hs
    · cases hs
      exact hret t _ ht hpc
    · cases hs
      exact access_quiet ht hpc (.inr ⟨n, rfl⟩)
  | mknod t major minor lookup =>
    obtain ⟨ht, hpc, hs⟩ := call_eq hs
    left
    cases lookup with
    | absent =>
      cases hs
      exact hret t _ ht hpc
    | found ip =>
      dsimp only at hs
      split at hs
      · next hunused =>
        cases hs
        refine .update ht rfl rfl (fun d hd ↦ ?_) (fun _ _ ↦ .refl _) (fun ip' h' ↦ ?_)
          (by simp [Pc.opening])
        · rw [Process.live, hpc]
          exact hd
        · have hsame := setInode_unused hunused
            (fun x ↦ { x with type := T_DEVICE, major := major.toInt16 }) ip' h'
          exact ⟨congrArg Inode.type hsame, congrArg Inode.major hsame⟩
      · cases hs
    | existing ip =>
      cases hs
      exact .stop _
  | go t res d =>
    dsimp only at hs
    split at hs
    · next ht =>
      rcases go_quiet h ht hs with hq | ⟨ip, mode, locked, i, hpc, rfl⟩
      · exact .inl hq
      · exact .inr ⟨t, ht, ip, mode, locked, i, d, hpc, rfl⟩
    · cases hs
  | load ip type major =>
    dsimp only at hs
    left
    split at hs
    · next hunused =>
      cases hs
      exact ⟨fun u hu d hd ↦ ⟨u, hu, hd⟩, fun _ _ ↦ .refl _, fun ip' h' ↦
        ⟨congrArg Inode.type (setInode_unused hunused _ ip' h'),
          congrArg Inode.major (setInode_unused hunused _ ip' h')⟩,
        fun u hu _ _ hpc ↦ .inl ⟨u, hu, hpc⟩⟩
    · cases hs
  | refer ip n =>
    cases hs
    refine .inl ⟨fun u hu d hd ↦ ⟨u, hu, hd⟩, fun _ _ ↦ .refl _, fun ip' _ ↦ ?_,
      fun u hu _ _ hpc ↦ .inl ⟨u, hu, hpc⟩⟩
    exact setInode_kind s ip
      (f := fun x ↦ { x with refCount := x.refCount - s.others ip + n }) ⟨rfl, rfl⟩ ip'
  | change data =>
    cases hs
    exact .inl ⟨fun u hu d hd ↦ ⟨u, hu, hd⟩, fun _ _ ↦ .refl _, fun _ _ ↦ ⟨rfl, rfl⟩,
      fun u hu _ _ hpc ↦ .inl ⟨u, hu, hpc⟩⟩

omit [DecidableEq ι] in
/-- What `open` writes into an entry. -/
theorem install_spec (x : Inode) (ip : ι) (mode : Int32) (f : File ι) :
    (install x ip mode f).readable = decide (mode &&& O_WRONLY = 0) ∧
      (install x ip mode f).writable =
        decide (mode &&& O_WRONLY = 0 ∨ mode &&& O_RDWR ≠ 0) ∧
      ((install x ip mode f).type = .Device ↔ x.type = T_DEVICE) ∧
      ((install x ip mode f).type = .Device → (install x ip mode f).major = x.major) := by
  unfold install
  dsimp only
  split
  · next hdev => exact ⟨rfl, rfl, ⟨fun _ ↦ hdev, fun _ ↦ rfl⟩, fun _ ↦ rfl⟩
  · next hdev => exact ⟨rfl, rfl, ⟨nofun, fun h ↦ absurd h hdev⟩, nofun⟩

/-- What the end of `open` changes of the processes and the entries. -/
theorem finishOpen_spec (s : Machine ι δ) (t : Nat) (ip : ι) (mode : Int32) (locked : Bool)
    (i : Nat) (d : δ) :
    (s.finishOpen t ip mode locked i d).procs = Function.update s.procs t { s.procs t with
        openFiles := (s.procs t).openFiles ++ [some ⟨i, mode⟩]
        pc := .idle
        ret := Int32.ofNat (s.procs t).openFiles.length } ∧
      (s.finishOpen t ip mode locked i d).next = s.next ∧
      (s.finishOpen t ip mode locked i d).files =
        Function.update s.files i (install (s.inodes ip) ip mode (s.files i)) ∧
      (s.finishOpen t ip mode locked i d).inodes = s.inodes := by
  cases locked <;> exact ⟨rfl, rfl, rfl, rfl⟩

/-- The end of `open` gives a descriptor with the rights of its mode, and leaves the others. -/
theorem Sane.install (h : s.Sane) (ha : s.Accounted) (ht : t < s.next) {ip : ι} {mode : Int32}
    {locked : Bool} {i : Nat} {d : δ} (hpc : (s.procs t).pc = .allocated ip mode locked i) :
    (s.finishOpen t ip mode locked i d).Sane := by
  obtain ⟨hprocs, hnext, hfiles, hinodes⟩ := finishOpen_spec s t ip mode locked i d
  have hhand : (s.procs t).hand = some i := by rw [Process.hand, hpc]
  -- no other descriptor points to the entry that `open` has in hand
  have hfresh : ∀ u < s.next, ∀ desc, some desc ∈ (s.procs u).live → desc.file ≠ i := by
    rintro u hu desc hd rfl
    have hfilled := (ha.filled.live u hu desc hd).1
    rw [(ha.filled.hand t ht desc.file hhand).1] at hfilled
    rcases hfilled with hf | hf <;> cases hf
  have hold : ∀ u < s.next, ∀ desc, some desc ∈ (s.procs u).live →
      ∃ ip', (s.finishOpen t ip mode locked i d).Proper desc ip' := by
    intro u hu desc hd
    obtain ⟨ip', hp⟩ := h.proper u hu desc hd
    have hsame : (s.finishOpen t ip mode locked i d).files desc.file = s.files desc.file := by
      rw [hfiles, Function.update_of_ne (hfresh u hu desc hd)]
    refine ⟨ip', ?_, ?_, ?_, ?_, ?_, ?_⟩
    all_goals simp only [hsame, hinodes]
    · exact hp.node
    · exact hp.readable
    · exact hp.writable
    · exact hp.device
    · exact hp.major
    · exact hp.directory
  refine ⟨fun u hu desc hd ↦ ?_, fun u hu ip' mode' hu' hdir ↦ ?_⟩
  · rw [hprocs] at hd
    rw [hnext] at hu
    by_cases he : u = t
    · rw [he, Function.update_self] at hd
      rcases List.mem_append.mp hd with hd | hd
      · refine hold t ht desc ?_
        rw [Process.live, hpc]
        exact hd
      · cases List.mem_singleton.mp hd
        have hnew : (s.finishOpen t ip mode locked i d).files i =
            Machine.install (s.inodes ip) ip mode (s.files i) := by
          rw [hfiles, Function.update_self]
        obtain ⟨hread, hwrite, hdev, hmajor⟩ := install_spec (s.inodes ip) ip mode (s.files i)
        refine ⟨ip, ?_, ?_, ?_, ?_, ?_, ?_⟩
        all_goals simp only [hnew, hinodes]
        · exact install_ip _ _ _ _
        · exact hread
        · exact hwrite
        · exact hdev
        · exact hmajor
        · exact h.opening t ht ip mode (by rw [hpc]; rfl)
    · rw [Function.update_of_ne he] at hd
      exact hold u hu desc hd
  · rw [hprocs] at hu'
    rw [hnext] at hu
    rw [hinodes] at hdir
    by_cases he : u = t
    · rw [he, Function.update_self] at hu'
      cases hu'
    · rw [Function.update_of_ne he] at hu'
      exact h.opening u hu ip' mode' hu' hdir

/-- Every step keeps the rights of the descriptors. -/
theorem Sane.step (h : s.Sane) (ha : s.Accounted) {e : Event ι δ} (hs : s.step e = some s') :
    s'.Sane := by
  rcases step_quiet ha hs with hq | ⟨t, ht, ip, mode, locked, i, d, hpc, rfl⟩
  · exact h.quiet ha (ha.step hs) hq
  · exact h.install ha ht hpc

theorem Initial.sane {root : ι} (h : s.Initial root) : s.Sane := by
  have hproc : ∀ t < s.next, s.procs t = ⟨[], some root, .idle, 0⟩ := by
    intro t ht
    rw [h.next] at ht
    have hzero : t = 0 := by omega
    rw [hzero, h.first]
  refine ⟨fun t ht d hd ↦ ?_, fun t ht ip mode hpc ↦ ?_⟩
  · rw [hproc t ht] at hd
    cases hd
  · rw [hproc t ht] at hpc
    cases hpc

end Machine

end Orfos.Files
