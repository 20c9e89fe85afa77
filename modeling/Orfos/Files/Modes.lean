import Orfos.Files.Rights

/-!
# Open modes

`Process::open` makes a file writable unless the mode has `O_WRONLY` without `O_RDWR`. So a
descriptor that was opened for reading can be written, a directory too, and one that was opened
for writing cannot. The modes are kept in runs that write through no such descriptor.
-/

namespace Orfos.Files

open Orfos.Base Orfos.Syscall

variable {ι δ : Type} [DecidableEq ι]

/-- The entry that a process writes, and how far it is. -/
def Pc.writes : Pc ι → Option (Nat × Int32 × Int32)
  | .writing i n k => some (i, n, k)
  | _ => none

namespace Machine

variable {s s' : Machine ι δ} {t : Nat} {p : Process ι}

/-- The type of the inode of an entry. -/
def kind (s : Machine ι δ) (i : Nat) : Option Int16 :=
  (s.files i).ip.map fun ip ↦ (s.inodes ip).type

/-- What the modes ask of a step. A write through a descriptor that is opened for reading returns
-1, at once or in its next step; a read through one that is opened for writing returns -1; a write
to a regular file through one that is opened for writing goes on to the inode; and no write changes
a directory. -/
structure Enforces (s : Machine ι δ) (e : Event ι δ) (s' : Machine ι δ) : Prop where
  readOnly : ∀ t fd n res desc, e = .write t fd n res → s.getArgFd t fd = some desc →
    desc.mode &&& O_WRONLY = 0 → desc.mode &&& O_RDWR = 0 →
      s' = s.return_ t (-1) ∨ n < 0 ∧ s' = s.goto t (.writing desc.file n 0)
  negative : ∀ t res d i n k, e = .go t res d → (s.procs t).pc = .writing i n k → n < 0 →
    s' = s.return_ t (-1)
  writeOnly : ∀ t fd n res desc, e = .read t fd n res → s.getArgFd t fd = some desc →
    desc.mode &&& O_WRONLY ≠ 0 → s' = s.return_ t (-1)
  writable : ∀ t fd n res desc, e = .write t fd n res → s.getArgFd t fd = some desc →
    desc.mode &&& O_WRONLY ≠ 0 ∨ desc.mode &&& O_RDWR ≠ 0 → s.kind desc.file = some T_FILE →
      s' = s.goto t (.writing desc.file n 0)
  directory : ∀ t res d i n k ip, e = .go t res d → (s.procs t).pc = .writing i n k →
    (s.inodes ip).type = T_DIR → s'.data ip = s.data ip

/-- A write is through a descriptor with `O_RDWR`, or of a negative length through one without
`O_WRONLY`, or to something else than a regular file through one with `O_WRONLY`. -/
def Regular (s : Machine ι δ) : Event ι δ → Prop
  | .write t fd n _ => ∀ desc ∈ s.getArgFd t fd,
    desc.mode &&& O_RDWR ≠ 0 ∨
      (desc.mode &&& O_WRONLY = 0 ∧ n < 0 ∧ (s.files desc.file).type = .Inode) ∨
      (desc.mode &&& O_WRONLY ≠ 0 ∧ s.kind desc.file ≠ some T_FILE)
  | _ => True

instance (s : Machine ι δ) : (e : Event ι δ) → Decidable (s.Regular e)
  | .write t fd n _ => inferInstanceAs (Decidable (∀ desc ∈ s.getArgFd t fd,
    desc.mode &&& O_RDWR ≠ 0 ∨
      (desc.mode &&& O_WRONLY = 0 ∧ n < 0 ∧ (s.files desc.file).type = .Inode) ∨
      (desc.mode &&& O_WRONLY ≠ 0 ∧ s.kind desc.file ≠ some T_FILE)))
  | .open_ .. | .close .. | .fork .. | .exit .. | .read .. | .mknod .. | .go .. | .load ..
  | .refer .. | .change .. => .isTrue trivial

/-! ### Writes on their way -/

/-- Where a process that writes comes from: it did so before the step, or has begun in it. -/
def Began (s s' : Machine ι δ) (e : Event ι δ) : Prop :=
  ∀ u i n k, u < s'.next → (s'.procs u).pc = .writing i n k →
    u < s.next ∧ (s'.procs u).openFiles = (s.procs u).openFiles ∧
      ((s.procs u).pc = .writing i n k ∨
        (∃ k', k' < n ∧ (s.procs u).pc = .writing i n k') ∨
        ∃ fd res desc, e = .write u fd n res ∧ s.getArgFd u fd = some desc ∧ desc.file = i ∧
          k = 0)

omit [DecidableEq ι] in
/-- A step that lets no process write. -/
theorem Began.set {e : Event ι δ} (hnext : s'.next = s.next)
    (hprocs : s'.procs = Function.update s.procs t p) (hp : p.pc.writes = none) :
    Began s s' e := by
  intro u i n k hu hpc
  rw [hprocs] at hpc ⊢
  by_cases he : u = t
  · rw [he, Function.update_self] at hpc
    rw [hpc] at hp
    cases hp
  · rw [Function.update_of_ne he] at hpc ⊢
    exact ⟨hnext ▸ hu, rfl, .inl hpc⟩

omit [DecidableEq ι] in
theorem Began.same {e : Event ι δ} (hnext : s'.next = s.next) (hprocs : s'.procs = s.procs) :
    Began s s' e := by
  intro u i n k hu hpc
  rw [hprocs] at hpc ⊢
  exact ⟨hnext ▸ hu, rfl, .inl hpc⟩

omit [DecidableEq ι] in
/-- A step of `fork` lets no process write. -/
theorem Began.pair {e : Event ι δ} {c : Nat} {q : Process ι}
    (hprocs : s'.procs = Function.update (Function.update s.procs c q) t p)
    (hold : ∀ u < s'.next, u ≠ t → u ≠ c → u < s.next) (hp : p.pc.writes = none)
    (hq : q.pc.writes = none) : Began s s' e := by
  intro u i n k hu hpc
  rw [hprocs] at hpc ⊢
  by_cases he : u = t
  · rw [he, Function.update_self] at hpc
    rw [hpc] at hp
    cases hp
  · rw [Function.update_of_ne he] at hpc ⊢
    by_cases hc : u = c
    · rw [hc, Function.update_self] at hpc
      rw [hpc] at hq
      cases hq
    · rw [Function.update_of_ne hc] at hpc ⊢
      exact ⟨hold u hu he hc, rfl, .inl hpc⟩

omit [DecidableEq ι] in
theorem closeFile_began {e : Event ι δ} (s : Machine ι δ) (t fd i : Nat) (exiting : Bool) :
    Began s (s.closeFile t fd exiting i) e := by
  unfold closeFile
  dsimp only
  split
  · exact .same rfl rfl
  · split
    · exact .set rfl rfl rfl
    · split
      · exact .set rfl rfl rfl
      · exact .set rfl rfl rfl
      · split
        · exact .same rfl rfl
        · exact .set rfl rfl rfl
      · split
        · exact .same rfl rfl
        · exact .set rfl rfl rfl

theorem fork_began (h : s.Accounted) (ht : t < s.next) {e : Event ι δ} {c fd : Nat}
    (hpc : (s.procs t).pc = .forking c fd) : Began s (s.fork t c fd) e := by
  have hunborn : (s.procs c).pc.writes = none := by
    rw [(h.kept.child t ht c fd hpc).2]
    rfl
  unfold Machine.fork
  dsimp only
  split
  · split
    · exact .same rfl rfl
    · exact .pair rfl (fun u hu _ _ ↦ hu) rfl hunborn
  · exact .pair rfl (fun u hu _ _ ↦ hu) rfl hunborn
  · split
    · exact .same rfl rfl
    · exact .pair rfl (fun u hu _ _ ↦ hu) rfl rfl

/-- A process goes on with a write that it has begun. -/
theorem go_began (h : s.Accounted) (ht : t < s.next) {e : Event ι δ} {res : Int32} {d : δ}
    (hs : s.go t res d = some s') : Began s s' e := by
  unfold Machine.go at hs
  dsimp only at hs
  cases hpc : (s.procs t).pc with
  | idle | dead | unborn =>
    rw [hpc] at hs
    cases hs
  | found ip mode locked =>
    rw [hpc] at hs
    dsimp only at hs
    split at hs
    · cases hs
      exact .set rfl rfl rfl
    · split at hs
      · cases hs
        exact .set rfl rfl rfl
      · cases hs
        exact .set rfl rfl rfl
  | refused ip locked =>
    rw [hpc] at hs
    cases hs
    split
    · exact .set rfl rfl rfl
    · exact .same rfl rfl
  | allocated ip mode locked i =>
    rw [hpc] at hs
    cases hs
    obtain ⟨hprocs, hnext, -⟩ := finishOpen_spec s t ip mode locked i d
    exact .set hnext hprocs rfl
  | closing fd exiting =>
    rw [hpc] at hs
    dsimp only at hs
    split at hs
    · cases hs
      exact closeFile_began s t fd _ exiting
    · cases hs
      exact .same rfl rfl
  | putting fd i ip exiting =>
    rw [hpc] at hs
    cases hs
    exact .set rfl rfl rfl
  | clearing fd exiting =>
    rw [hpc] at hs
    cases hs
    cases exiting with
    | true => exact .set rfl rfl rfl
    | false => exact .set rfl rfl rfl
  | exiting fd =>
    rw [hpc] at hs
    dsimp only at hs
    split at hs <;> cases hs <;> exact .set rfl rfl rfl
  | leaving =>
    rw [hpc] at hs
    dsimp only at hs
    split at hs
    · cases hs
      exact .same rfl rfl
    · cases hs
      exact .set rfl rfl rfl
  | forking c fd =>
    rw [hpc] at hs
    cases hs
    exact fork_began h ht hpc
  | reading i n =>
    rw [hpc] at hs
    dsimp only at hs
    obtain ⟨hprocs, hnext, -⟩ := transfer_spec s i res
    split at hs
    · cases hs
      exact .same rfl rfl
    · split at hs
      · cases hs
        exact .set hnext (by rw [Machine.return_, setProc, hprocs]) rfl
      · cases hs
  | writing i n k =>
    rw [hpc] at hs
    dsimp only at hs
    rcases writeChunk_cases hs with ⟨-, rfl⟩ | ⟨-, -, rfl⟩ | ⟨ip, hlt, -, -, ⟨-, rfl⟩ | ⟨-, rfl⟩⟩
    · exact .set rfl rfl rfl
    · exact .same rfl rfl
    · obtain ⟨hprocs, hnext, -⟩ := transfer_spec
        { s with data := Function.update s.data ip d } i res
      exact .set hnext (by rw [Machine.return_, setProc, hprocs]) rfl
    · obtain ⟨hprocs, hnext, -⟩ := transfer_spec
        { s with data := Function.update s.data ip d } i res
      intro u i' n' k' hu hpc'
      rw [goto, setProc] at hpc' ⊢
      dsimp only at hpc' ⊢
      rw [hprocs] at hpc' ⊢
      by_cases he : u = t
      · rw [he, Function.update_self] at hpc' ⊢
        cases hpc'
        exact ⟨ht, rfl, .inr (.inl ⟨k, hlt, hpc⟩)⟩
      · rw [Function.update_of_ne he] at hpc' ⊢
        exact ⟨hnext ▸ hu, rfl, .inl hpc'⟩

omit [DecidableEq ι] in
/-- What `File::read` or `File::write` does first with an inode file. -/
theorem access_inode {i : Nat} (htype : (s.files i).type = .Inode) (allowed : Bool)
    (function : Device → Option Driver) (l : Pc ι) (res : Int32) :
    s.access t i allowed function l res = if allowed then s.goto t l else s.return_ t (-1) := by
  unfold access
  rw [htype]
  cases allowed <;> rfl

omit [DecidableEq ι] in
theorem access_refused (s : Machine ι δ) (t i : Nat) (function : Device → Option Driver) (l : Pc ι)
    (res : Int32) : s.access t i false function l res = s.return_ t (-1) := rfl

omit [DecidableEq ι] in
/-- A system call on a descriptor lets a process write only if it is `write`. -/
theorem access_began {e : Event ι δ} {i : Nat} {allowed : Bool}
    {function : Device → Option Driver} {l : Pc ι} {res : Int32}
    (hl : l.writes = none ∨ Began s (s.goto t l) e) :
    Began s (s.access t i allowed function l res) e := by
  have hret : ∀ n, Began s (s.return_ t n) e := fun n ↦ .set rfl rfl rfl
  unfold access
  split
  · exact hret _
  · split
    · exact hret _
    · split
      · exact hret _
      · split
        · exact .same rfl rfl
        · exact hret _
    · rcases hl with hl | hl
      · exact .set rfl rfl hl
      · exact hl
    · exact .same rfl rfl

/-- Where the writes in a step come from. -/
theorem step_began (h : s.Accounted) {e : Event ι δ} (hs : s.step e = some s') :
    Began s s' e := by
  unfold Machine.step at hs
  split at hs
  · cases hs
  cases e with
  | open_ t mode lookup =>
    obtain ⟨-, -, hs⟩ := call_eq hs
    cases lookup with
    | absent =>
      cases hs
      exact .set rfl rfl rfl
    | found ip =>
      unfold Machine.open_ at hs
      dsimp only at hs
      split at hs
      · split at hs <;> cases hs
        exact .set rfl rfl rfl
      · split at hs <;> cases hs <;> exact .set rfl rfl rfl
    | existing ip =>
      unfold Machine.open_ at hs
      dsimp only at hs
      split at hs
      · split at hs <;> cases hs
        · exact .set rfl rfl rfl
        · exact .same rfl rfl
      · cases hs
  | close t fd =>
    obtain ⟨-, -, hs⟩ := call_eq hs
    split at hs <;> cases hs <;> exact .set rfl rfl rfl
  | fork t =>
    obtain ⟨-, -, hs⟩ := call_eq hs
    cases hs
    refine .pair (c := s.next) rfl (fun u hu _ hne ↦ ?_) rfl rfl
    change u < s.next + 1 at hu
    omega
  | exit t =>
    obtain ⟨-, -, hs⟩ := call_eq hs
    cases hs
    exact .set rfl rfl rfl
  | read t fd n res =>
    obtain ⟨-, -, hs⟩ := call_eq hs
    split at hs
    · cases hs
      exact .set rfl rfl rfl
    · cases hs
      exact access_began (.inl rfl)
  | write t fd n res =>
    obtain ⟨ht, hpc, hs⟩ := call_eq hs
    split at hs
    · cases hs
      exact .set rfl rfl rfl
    · next desc hfd =>
      cases hs
      refine access_began (.inr fun u i n' k hu hpc' ↦ ?_)
      change (Function.update s.procs t _ u).pc = _ at hpc'
      change _ ∧ (Function.update s.procs t _ u).openFiles = _ ∧ _
      by_cases he : u = t
      · subst he
        rw [Function.update_self] at hpc' ⊢
        cases hpc'
        exact ⟨hu, rfl, .inr (.inr ⟨fd, res, desc, rfl, hfd, rfl, rfl⟩)⟩
      · rw [Function.update_of_ne he] at hpc' ⊢
        exact ⟨hu, rfl, .inl hpc'⟩
  | mknod t major minor lookup =>
    obtain ⟨-, -, hs⟩ := call_eq hs
    cases lookup with
    | absent =>
      cases hs
      exact .set rfl rfl rfl
    | found ip =>
      dsimp only at hs
      split at hs <;> cases hs
      exact .set rfl rfl rfl
    | existing ip =>
      cases hs
      exact .same rfl rfl
  | go t res d =>
    dsimp only at hs
    split at hs
    · next ht => exact go_began h ht hs
    · cases hs
  | load ip type major =>
    dsimp only at hs
    split at hs <;> cases hs
    exact .same rfl rfl
  | refer ip n =>
    cases hs
    exact .same rfl rfl
  | change data =>
    cases hs
    exact .same rfl rfl

/-- A write of a negative length ends at once, and every other one is through a descriptor with
`O_RDWR`. -/
def Written (s : Machine ι δ) : Prop :=
  ∀ t < s.next, ∀ i n k, (s.procs t).pc = .writing i n k →
    (n < 0 → k = 0) ∧
      (n < 0 ∨ ∃ desc, some desc ∈ (s.procs t).openFiles ∧ desc.file = i ∧
        desc.mode &&& O_RDWR ≠ 0)

/-- `read` of a descriptor. -/
theorem step_read {fd n res : Int32} {desc : Descriptor} (hfd : s.getArgFd t fd = some desc)
    (hs : s.step (.read t fd n res) = some s') :
    t < s.next ∧ (s.procs t).pc = .idle ∧ s' = s.read t desc.file n res := by
  unfold Machine.step at hs
  split at hs
  · cases hs
  obtain ⟨ht, hpc, hs⟩ := call_eq hs
  rw [hfd] at hs
  exact ⟨ht, hpc, (Option.some.inj hs).symm⟩

/-- `write` of a descriptor. -/
theorem step_write {fd n res : Int32} {desc : Descriptor} (hfd : s.getArgFd t fd = some desc)
    (hs : s.step (.write t fd n res) = some s') :
    t < s.next ∧ (s.procs t).pc = .idle ∧ s' = s.write t desc.file n res := by
  unfold Machine.step at hs
  split at hs
  · cases hs
  obtain ⟨ht, hpc, hs⟩ := call_eq hs
  rw [hfd] at hs
  exact ⟨ht, hpc, (Option.some.inj hs).symm⟩

omit [DecidableEq ι] in
/-- What the descriptor of a call may do. -/
theorem Sane.called (h : s.Sane) (ht : t < s.next) (hpc : (s.procs t).pc = .idle) {fd : Int32}
    {desc : Descriptor} (hfd : s.getArgFd t fd = some desc) : ∃ ip, s.Proper desc ip := by
  apply h.proper t ht desc
  rw [Process.live, hpc]
  exact List.mem_of_getElem? (getArgFd_eq hfd)

omit [DecidableEq ι] in
/-- A write is refused through a descriptor with `O_WRONLY` alone. -/
theorem Proper.refused {desc : Descriptor} {ip : ι} (h : s.Proper desc ip)
    (hw : desc.mode &&& O_WRONLY ≠ 0) (hrw : desc.mode &&& O_RDWR = 0) (n res : Int32) :
    s.write t desc.file n res = s.return_ t (-1) := by
  have hwritable : (s.files desc.file).writable = false := by
    rw [h.writable, decide_eq_false_iff_not]
    rintro (hw' | hrw')
    · exact hw hw'
    · exact hrw' hrw
  rw [Machine.write, hwritable, access_refused]

omit [DecidableEq ι] in
/-- A write to an inode goes on through every other descriptor. -/
theorem Proper.allowed {desc : Descriptor} {ip : ι} (h : s.Proper desc ip)
    (hw : desc.mode &&& O_WRONLY = 0 ∨ desc.mode &&& O_RDWR ≠ 0)
    (htype : (s.files desc.file).type = .Inode) (n res : Int32) :
    s.write t desc.file n res = s.goto t (.writing desc.file n 0) := by
  have hwritable : (s.files desc.file).writable = true := by
    rw [h.writable, decide_eq_true hw]
  rw [Machine.write, hwritable, access_inode htype, if_pos rfl]

/-- An entry for a regular file is one of an inode. -/
theorem Proper.regular {desc : Descriptor} {ip : ι} (h : s.Proper desc ip) (ha : s.Accounted)
    (ht : t < s.next) (hd : some desc ∈ (s.procs t).live)
    (hkind : s.kind desc.file = some T_FILE) : (s.files desc.file).type = .Inode := by
  rw [kind, h.node] at hkind
  rcases (ha.filled.live t ht desc hd).1 with hf | hf
  · exact hf
  · have hdev := h.device.mp hf
    rw [Option.map_some, hdev] at hkind
    exact absurd (Option.some.inj hkind) (by decide)

/-- Regular steps keep the writes through descriptors with `O_RDWR`. -/
theorem Written.step (h : s.Written) (ha : s.Accounted) (hsane : s.Sane) {e : Event ι δ}
    (hok : s.Regular e) (hs : s.step e = some s') : s'.Written := by
  intro u hu i n k hpc
  obtain ⟨hu', hfiles, hold | ⟨k', hlt, hold⟩ | ⟨fd, res, desc, rfl, hfd, rfl, rfl⟩⟩ :=
    step_began ha hs u i n k hu hpc
  · rw [hfiles]
    exact h u hu' i n k hold
  · obtain ⟨hzero, hdesc⟩ := h u hu' i n k' hold
    rw [hfiles]
    refine ⟨fun hneg ↦ ?_, hdesc⟩
    rw [hzero hneg] at hlt
    exact absurd hlt (Int32.lt_asymm hneg)
  · refine ⟨fun _ ↦ rfl, ?_⟩
    obtain ⟨ht, hidle, rfl⟩ := step_write hfd hs
    obtain ⟨ip, hp⟩ := hsane.called ht hidle hfd
    by_cases hrw : desc.mode &&& O_RDWR = 0
    · rcases hok desc hfd with hrw' | ⟨-, hneg, -⟩ | ⟨hw, -⟩
      · exact absurd hrw hrw'
      · exact .inl hneg
      · rw [hp.refused hw hrw] at hpc
        change (Function.update s.procs u _ u).pc = _ at hpc
        rw [Function.update_self] at hpc
        cases hpc
    · rw [hfiles]
      exact .inr ⟨desc, List.mem_of_getElem? (getArgFd_eq hfd), rfl, hrw⟩

/-- A round of a write. -/
theorem step_writing {res : Int32} {d : δ} {i : Nat} {n k : Int32}
    (hpc : (s.procs t).pc = .writing i n k) (hs : s.step (.go t res d) = some s') :
    t < s.next ∧ s.writeChunk t i n k res d = some s' := by
  unfold Machine.step at hs
  split at hs
  · cases hs
  dsimp only at hs
  split at hs
  · next ht =>
    unfold Machine.go at hs
    dsimp only at hs
    rw [hpc] at hs
    exact ⟨ht, hs⟩
  · cases hs

omit [DecidableEq ι] in
theorem transfer_data (s : Machine ι δ) (i : Nat) (res : Int32) :
    (s.transfer i res).data = s.data := by
  unfold transfer
  dsimp only
  split <;> rfl

/-- A round of a write changes what the inode of its entry stores. -/
theorem writeChunk_data {i : Nat} {n k res : Int32} {d : δ} {ip ip' : ι}
    (hip : (s.files i).ip = some ip) (hne : ip' ≠ ip)
    (hs : s.writeChunk t i n k res d = some s') : s'.data ip' = s.data ip' := by
  have hupdate : ({ s with data := Function.update s.data ip d }.transfer i res).data ip' =
      s.data ip' := by
    rw [transfer_data]
    exact Function.update_of_ne hne _ _
  rcases writeChunk_cases hs with ⟨-, rfl⟩ | ⟨-, -, rfl⟩ | ⟨ip₁, -, hip₁, -, ⟨-, rfl⟩ | ⟨-, rfl⟩⟩
  · rfl
  · rfl
  · cases hip.symm.trans hip₁
    exact hupdate
  · cases hip.symm.trans hip₁
    exact hupdate

/-- A write of a negative length fails. -/
theorem Written.negative (h : s.Written) {res : Int32} {d : δ} {i : Nat} {n k : Int32}
    (hpc : (s.procs t).pc = .writing i n k) (hneg : n < 0)
    (hs : s.step (.go t res d) = some s') : s' = s.return_ t (-1) := by
  obtain ⟨ht, hs⟩ := step_writing hpc hs
  rw [(h t ht i n k hpc).1 hneg] at hs
  have hge : ¬ (0 : Int32) < n := Int32.lt_asymm hneg
  have hne : ¬ (0 : Int32) = n := by
    rintro rfl
    exact absurd hneg Int32.lt_irrefl
  rcases writeChunk_cases hs with ⟨-, rfl⟩ | ⟨hlt, -⟩ | ⟨_, hlt, -⟩
  · rw [if_neg hne]
  · exact absurd hlt hge
  · exact absurd hlt hge

/-- A regular write keeps the modes. -/
theorem Sane.enforces_write (hsane : s.Sane) (ha : s.Accounted) {fd n res : Int32}
    (hok : s.Regular (.write t fd n res)) (hs : s.step (.write t fd n res) = some s') :
    Enforces s (.write t fd n res) s' := by
  refine ⟨?_, nofun, nofun, ?_, nofun⟩
  · intro t fd n res desc he hfd hw hrw
    cases he
    obtain ⟨ht, hidle, rfl⟩ := step_write hfd hs
    obtain ⟨ip, hp⟩ := hsane.called ht hidle hfd
    rcases hok desc hfd with hrw' | ⟨-, hneg, htype⟩ | ⟨hw', -⟩
    · exact absurd hrw hrw'
    · exact .inr ⟨hneg, hp.allowed (.inl hw) htype n res⟩
    · exact absurd hw hw'
  · intro t fd n res desc he hfd hw hkind
    cases he
    obtain ⟨ht, hidle, rfl⟩ := step_write hfd hs
    obtain ⟨ip, hp⟩ := hsane.called ht hidle hfd
    have hlive : some desc ∈ (s.procs t).live := by
      rw [Process.live, hidle]
      exact List.mem_of_getElem? (getArgFd_eq hfd)
    rcases hok desc hfd with hrw | ⟨hw', -, htype⟩ | ⟨-, hkind'⟩
    · exact hp.allowed (.inr hrw) (hp.regular ha ht hlive hkind) n res
    · exact hp.allowed (.inl hw') htype n res
    · exact absurd hkind hkind'

/-- A regular step keeps the modes. -/
theorem Written.enforces (h : s.Written) (ha : s.Accounted) (hsane : s.Sane) {e : Event ι δ}
    (hok : s.Regular e) (hs : s.step e = some s') : Enforces s e s' := by
  refine ⟨?_, ?_, ?_, ?_, ?_⟩
  · rintro t fd n res desc rfl
    exact (hsane.enforces_write ha hok hs).readOnly t fd n res desc rfl
  · rintro t res d i n k rfl hpc hneg
    exact h.negative hpc hneg hs
  · rintro t fd n res desc rfl hfd hw
    obtain ⟨ht, hidle, rfl⟩ := step_read hfd hs
    obtain ⟨ip, hp⟩ := hsane.called ht hidle hfd
    rw [Machine.read, hp.readable, decide_eq_false hw, access_refused]
  · rintro t fd n res desc rfl
    exact (hsane.enforces_write ha hok hs).writable t fd n res desc rfl
  · rintro t res d i n k ip rfl hpc hdir
    obtain ⟨ht, hchunk⟩ := step_writing hpc hs
    rcases (h t ht i n k hpc).2 with hneg | ⟨desc, hmem, rfl, hrw⟩
    · rw [h.negative hpc hneg hs]
      rfl
    · obtain ⟨ip', hp⟩ := hsane.proper t ht desc (by rw [Process.live, hpc]; exact hmem)
      -- a directory is opened for reading only
      have hne : ip ≠ ip' := by
        rintro rfl
        rw [hp.directory hdir] at hrw
        exact absurd rfl hrw
      exact writeChunk_data hp.node hne hchunk

/-- A write to an inode file keeps the modes only if it is regular. -/
theorem Enforces.regular {fd n res : Int32} {desc : Descriptor}
    (h : Enforces s (.write t fd n res) s') (hsane : s.Sane) (hfd : s.getArgFd t fd = some desc)
    (htype : (s.files desc.file).type = .Inode)
    (hs : s.step (.write t fd n res) = some s') : s.Regular (.write t fd n res) := by
  obtain ⟨ht, hidle, rfl⟩ := step_write hfd hs
  obtain ⟨ip, hp⟩ := hsane.called ht hidle hfd
  have hdiffer : s.goto t (.writing desc.file n 0) ≠ s.return_ t (-1) := by
    intro he
    have hpcs := congrArg (fun s ↦ (s.procs t).pc) he
    simp [goto, Machine.return_, setProc] at hpcs
  intro desc' hfd'
  cases hfd.symm.trans hfd'
  by_cases hrw : desc.mode &&& O_RDWR = 0
  · by_cases hw : desc.mode &&& O_WRONLY = 0
    · rcases h.readOnly t fd n res desc rfl hfd hw hrw with he | ⟨hneg, -⟩
      · rw [hp.allowed (.inl hw) htype] at he
        exact absurd he hdiffer
      · exact .inr (.inl ⟨hw, hneg, htype⟩)
    · refine .inr (.inr ⟨hw, fun hkind ↦ ?_⟩)
      have he := h.writable t fd n res desc rfl hfd (.inl hw) hkind
      rw [hp.refused hw hrw] at he
      exact absurd he.symm hdiffer
  · exact .inl hrw

theorem Initial.written {root : ι} (h : s.Initial root) : s.Written := by
  intro t ht i n k hpc
  rw [h.next] at ht
  have hzero : t = 0 := by omega
  rw [hzero, h.first] at hpc
  cases hpc

/-- The invariants of the open files hold in every run. -/
theorem Initial.runs {s₀ : Machine ι δ} {root : ι} (h₀ : s₀.Initial root)
    {good : Machine ι δ → Event ι δ → Prop} (hr : Run Machine.step good s₀ s) :
    s.Accounted ∧ s.Sane :=
  hr.invariant (I := fun s ↦ s.Accounted ∧ s.Sane) ⟨h₀.accounted, h₀.sane⟩
    fun _ _ _ h _ hs ↦ ⟨h.1.step hs, h.2.step h.1 hs⟩

/-- In every run of regular steps, every regular step keeps the modes. In every run, a write to an
inode file keeps them only if it is regular. -/
theorem modes_enforced {s₀ : Machine ι δ} {root : ι} (h₀ : s₀.Initial root) :
    (∀ s e s', Run Machine.step Machine.Regular s₀ s → s.Regular e → s.step e = some s' →
      Enforces s e s') ∧
    ∀ s t fd n res desc s', Run Machine.step (fun _ _ ↦ True) s₀ s →
      s.getArgFd t fd = some desc → (s.files desc.file).type = .Inode →
      s.step (.write t fd n res) = some s' →
        (Enforces s (.write t fd n res) s' ↔ s.Regular (.write t fd n res)) := by
  refine ⟨fun s e s' hr hok hs ↦ ?_, fun s t fd n res desc s' hr hfd htype hs ↦ ?_⟩
  · have hw : s.Accounted ∧ s.Sane ∧ s.Written := by
      refine hr.invariant (I := fun s ↦ s.Accounted ∧ s.Sane ∧ s.Written)
        ⟨h₀.accounted, h₀.sane, h₀.written⟩ fun _ _ _ h hok hs ↦ ?_
      exact ⟨h.1.step hs, h.2.1.step h.1 hs, h.2.2.step h.1 h.2.1 hok hs⟩
    exact hw.2.2.enforces hw.1 hw.2.1 hok hs
  · obtain ⟨ha, hsane⟩ := h₀.runs hr
    exact ⟨fun h ↦ h.regular hsane hfd htype hs, fun hok ↦ hsane.enforces_write ha hok hs⟩

/-- A process opens the file for reading and writing, and writes five bytes. -/
def writing : List (Event (Fin 2) Nat) :=
  [.open_ 0 O_RDWR (.found 1), .go 0 0 0, .go 0 0 0, .write 0 0 5 0]

theorem modes_enforced_writing :
    Enforces (final Machine.step boot writing) (.go 0 5 7)
        (final Machine.step (final Machine.step boot writing) [.go 0 5 7]) ∧
      (final Machine.step (final Machine.step boot writing) [.go 0 5 7]).data 0 = 0 ∧
      (final Machine.step (final Machine.step boot writing) [.go 0 5 7]).data 1 = 7 :=
  ⟨(modes_enforced boot_initial).1 _ _ _ (run_final (by decide +kernel) (by decide +kernel))
    trivial (step_final (by decide +kernel)), by decide +kernel, by decide +kernel⟩

/-- A process opens the directory for reading, and writes five bytes. -/
def defacing : List (Event (Fin 2) Nat) :=
  [.open_ 0 O_RDONLY (.found 0), .go 0 0 0, .go 0 0 0, .write 0 0 5 0]

/-- A write changes the directory, which is opened for reading. -/
theorem directory_written :
    Run Machine.step (fun _ _ ↦ True) boot (final Machine.step boot defacing) ∧
      (final Machine.step boot defacing).step (.go 0 5 7) =
        some (final Machine.step (final Machine.step boot defacing) [.go 0 5 7]) ∧
      ((final Machine.step boot defacing).inodes 0).type = T_DIR ∧
      (final Machine.step boot defacing).data 0 = 0 ∧
      (final Machine.step (final Machine.step boot defacing) [.go 0 5 7]).data 0 = 7 ∧
      ¬ ∀ (s : Machine (Fin 2) Nat) (e : Event (Fin 2) Nat) (s' : Machine (Fin 2) Nat),
        Run Machine.step (fun _ _ ↦ True) boot s → s.step e = some s' → Enforces s e s' := by
  have hrun : Run Machine.step (fun _ _ ↦ True) boot (final Machine.step boot defacing) :=
    run_final (by decide +kernel) (by simp [defacing, Plays])
  have hstep : (final Machine.step boot defacing).step (.go 0 5 7) =
      some (final Machine.step (final Machine.step boot defacing) [.go 0 5 7]) :=
    step_final (by decide +kernel)
  have hdir : ((final Machine.step boot defacing).inodes 0).type = T_DIR := by decide +kernel
  have hbefore : (final Machine.step boot defacing).data 0 = 0 := by decide +kernel
  have hafter : (final Machine.step (final Machine.step boot defacing) [.go 0 5 7]).data 0 = 7 := by
    decide +kernel
  refine ⟨hrun, hstep, hdir, hbefore, hafter, fun h ↦ ?_⟩
  have hsame := (h _ _ _ hrun hstep).directory 0 5 7 0 5 0 0 rfl (by decide +kernel) hdir
  rw [hbefore, hafter] at hsame
  cases hsame

end Machine

end Orfos.Files
