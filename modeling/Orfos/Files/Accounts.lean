import Orfos.Base.Shares
import Orfos.Files.Machine

/-!
# The accounts of the open files

The count of an entry of `ftable` is the number of descriptors that point to it, apart from a
descriptor whose close has been counted already, together with an entry that `open` has in hand.
An entry in use stands for one reference to its inode, from the `open` that filled it in until
the close of its last descriptor puts that reference.
-/

namespace Orfos.Files

open Orfos.Base Orfos.Syscall

variable {ι δ : Type} [DecidableEq ι]

/-- A pointer of `openFiles` that points to an entry. -/
def points (i : Nat) (e : Option Descriptor) : Bool := e.any fun d ↦ d.file == i

namespace Process

/-- The descriptors of a process, without the one whose close has been counted. -/
def live (p : Process ι) : List (Option Descriptor) :=
  match p.pc with
  | .putting fd _ _ _ | .clearing fd _ => p.openFiles.set fd none
  | _ => p.openFiles

/-- The entry that a process has allocated and not filled in. -/
def hand (p : Process ι) : Option Nat :=
  match p.pc with
  | .allocated _ _ _ i => some i
  | _ => none

/-- The references of a process to an entry. -/
def refs (i : Nat) (p : Process ι) : Nat :=
  p.live.countP (points i) + if p.hand = some i then 1 else 0

/-- The references of a process to an inode. -/
def holds (ip : ι) (p : Process ι) : Nat :=
  (if p.pc.node = some ip then 1 else 0) + if p.cwd = some ip then 1 else 0

/-- Whether a process has taken an entry out of use and not put its inode. -/
def dropping (i : Nat) (p : Process ι) : Nat :=
  match p.pc with
  | .putting _ j _ _ => if j = i then 1 else 0
  | _ => 0

omit [DecidableEq ι] in
theorem refs_pos_of_mem {p : Process ι} {d : Descriptor} (h : some d ∈ p.live) :
    0 < p.refs d.file := by
  have hpos : 0 < p.live.countP (points d.file) :=
    List.countP_pos_iff.mpr ⟨some d, h, by simp [points]⟩
  rw [refs]
  omega

omit [DecidableEq ι] in
theorem refs_pos_of_hand {p : Process ι} {i : Nat} (h : p.hand = some i) : 0 < p.refs i := by
  rw [refs, if_pos h]
  omega

end Process

/-- Whether an entry is in use for an inode. -/
def File.on (ip : ι) (f : File ι) : Nat := if f.type ≠ .None ∧ f.ip = some ip then 1 else 0

/-- Whether an entry is in use. -/
def File.used (f : File ι) : Nat := if f.type ≠ .None then 1 else 0

/-- The descriptor that a process is closing. -/
def Pc.target : Pc ι → Option Nat
  | .closing fd _ | .putting fd _ _ _ | .clearing fd _ => some fd
  | _ => none

/-- How far `exit` has come with the descriptors. -/
def Pc.closedTo : Pc ι → Option Nat
  | .closing fd true | .putting fd _ _ true | .clearing fd true | .exiting fd => some fd
  | _ => none

/-- The entry that a process reads or writes. -/
def Pc.file : Pc ι → Option Nat
  | .reading i _ | .writing i _ _ => some i
  | _ => none

/-- What holds of a process by itself. -/
structure Process.Tidy (p : Process ι) : Prop where
  closing : ∀ fd exiting, p.pc = .closing fd exiting → ∃ d, p.openFiles[fd]? = some (some d)
  target : ∀ fd, p.pc.target = some fd → fd < p.openFiles.length
  closed : ∀ fd, p.pc.closedTo = some fd → ∀ j < fd, p.openFiles[j]? = some none
  file : ∀ i, p.pc.file = some i → ∃ d, some d ∈ p.openFiles ∧ d.file = i
  cwd : p.pc ≠ .dead → p.pc ≠ .unborn → p.cwd.isSome
  unborn : p.pc = .unborn → p.cwd = none

omit [DecidableEq ι] in
/-- A process that is not closing, reading or writing. -/
theorem Process.Tidy.plain {p : Process ι} (hcwd : p.cwd.isSome) (htarget : p.pc.target = none)
    (hclosed : p.pc.closedTo = none) (hfile : p.pc.file = none) (hunborn : p.pc ≠ .unborn) :
    p.Tidy := by
  refine ⟨fun fd exiting hpc ↦ ?_, fun fd hpc ↦ ?_, fun fd hpc ↦ ?_, fun i hpc ↦ ?_,
    fun _ _ ↦ hcwd, fun hpc ↦ absurd hpc hunborn⟩
  · rw [hpc] at htarget
    cases htarget
  · rw [htarget] at hpc
    cases hpc
  · rw [hclosed] at hpc
    cases hpc
  · rw [hfile] at hpc
    cases hpc

omit [DecidableEq ι] in
/-- A process goes on with a close. -/
theorem Process.Tidy.close {p : Process ι} {l : Pc ι} {fd : Nat} {exiting : Bool} (h : p.Tidy)
    (hold : p.pc.target = some fd)
    (hl : l = .clearing fd exiting ∨ ∃ i ip, l = .putting fd i ip exiting)
    (hclosed : l.closedTo = p.pc.closedTo) (hcwd : p.cwd.isSome) :
    ({ p with pc := l } : Process ι).Tidy := by
  have hnew : l.target = some fd ∧ (∀ fd exiting, l ≠ .closing fd exiting) ∧ l.file = none ∧
      l ≠ .unborn := by
    rcases hl with rfl | ⟨i, ip, rfl⟩
    · exact ⟨rfl, nofun, rfl, nofun⟩
    · exact ⟨rfl, nofun, rfl, nofun⟩
  obtain ⟨htarget, hclosing, hfile, hunborn⟩ := hnew
  refine ⟨fun fd exiting hpc ↦ absurd hpc (hclosing fd exiting), fun fd' hfd ↦ ?_,
    fun fd' hfd ↦ ?_, fun i hi ↦ ?_, fun _ _ ↦ hcwd, fun hpc ↦ absurd hpc hunborn⟩
  · cases htarget.symm.trans hfd
    exact h.target fd hold
  · exact h.closed fd' (hclosed.symm.trans hfd)
  · cases hfile.symm.trans hi

namespace Machine

/-- The counts of the entries. -/
structure Counted (s : Machine ι δ) : Prop where
  refCount : ∀ i, (s.files i).refCount = total s.next fun t ↦ (s.procs t).refs i
  bound : ∀ i, NUM_FILES ≤ i → (s.files i).refCount = 0

/-- The entries that are pointed to are filled in. -/
structure Filled (s : Machine ι δ) : Prop where
  live : ∀ t < s.next, ∀ d, some d ∈ (s.procs t).live →
    ((s.files d.file).type = .Inode ∨ (s.files d.file).type = .Device) ∧
      (s.files d.file).ip.isSome
  hand : ∀ t < s.next, ∀ i, (s.procs t).hand = some i →
    (s.files i).type = .None ∧ (s.files i).refCount = 1
  empty : ∀ i, (s.files i).refCount = 0 → (s.files i).type = .None

/-- The references of the inodes. -/
structure Noded (s : Machine ι δ) : Prop where
  refCount : ∀ ip, (s.inodes ip).refCount = total NUM_FILES (fun i ↦ (s.files i).on ip) +
    total s.next (fun t ↦ (s.procs t).holds ip) + s.others ip
  opened : ∀ i, s.history.opened i = s.history.put i + (s.files i).used +
    total s.next fun t ↦ (s.procs t).dropping i

/-- The processes by themselves, and children that are not ready. -/
structure Kept (s : Machine ι δ) : Prop where
  tidy : ∀ t < s.next, (s.procs t).Tidy
  child : ∀ t < s.next, ∀ c fd, (s.procs t).pc = .forking c fd →
    c < s.next ∧ (s.procs c).pc = .unborn
  sole : ∀ t < s.next, ∀ u < s.next, ∀ c fd fd', (s.procs t).pc = .forking c fd →
    (s.procs u).pc = .forking c fd' → t = u

/-- What holds between the steps. -/
structure Accounted (s : Machine ι δ) : Prop where
  counted : s.Counted
  filled : s.Filled
  noded : s.Noded
  kept : s.Kept
  fault : ∀ f, s.fault = some f → f = .unlock ∨ f = .device

variable {s s' : Machine ι δ} {t : Nat} {p : Process ι}

/-! ### Steps of one process -/

omit [DecidableEq ι] in
/-- The counts after a step of one process. -/
theorem Counted.update (h : s.Counted) (ht : t < s.next) (hnext : s'.next = s.next)
    (hprocs : s'.procs = Function.update s.procs t p)
    (hrefs : ∀ i, (s'.files i).refCount + (s.procs t).refs i = (s.files i).refCount + p.refs i)
    (hbound : ∀ i, NUM_FILES ≤ i → (s'.files i).refCount = (s.files i).refCount) :
    s'.Counted := by
  refine ⟨fun i ↦ ?_, fun i hi ↦ ?_⟩
  · have hsum := total_update (Process.refs i) s.procs p ht
    have hold := h.refCount i
    have hnew := hrefs i
    rw [hnext, hprocs]
    omega
  · rw [hbound i hi, h.bound i hi]

/-- The references of the inodes after a step of one process. -/
theorem Noded.update (h : s.Noded) (ht : t < s.next) (hnext : s'.next = s.next)
    (hprocs : s'.procs = Function.update s.procs t p)
    (hnodes : ∀ ip, (s'.inodes ip).refCount + total NUM_FILES (fun i ↦ (s.files i).on ip) +
        (s.procs t).holds ip + s.others ip =
      (s.inodes ip).refCount + total NUM_FILES (fun i ↦ (s'.files i).on ip) + p.holds ip +
        s'.others ip)
    (hopened : ∀ i, s'.history.opened i + s.history.put i + (s.files i).used +
        (s.procs t).dropping i =
      s.history.opened i + s'.history.put i + (s'.files i).used + p.dropping i) : s'.Noded := by
  refine ⟨fun ip ↦ ?_, fun i ↦ ?_⟩
  · have hsum := total_update (Process.holds ip) s.procs p ht
    have hold := h.refCount ip
    have hnew := hnodes ip
    rw [hnext, hprocs]
    omega
  · have hsum := total_update (Process.dropping i) s.procs p ht
    have hold := h.opened i
    have hnew := hopened i
    rw [hnext, hprocs]
    omega

omit [DecidableEq ι] in
/-- Only a child that is not ready is the child of a process in `fork`. -/
theorem Kept.no_parent (h : s.Kept) (hpc : (s.procs t).pc ≠ .unborn) (u : Nat) (hu : u < s.next)
    (fd : Nat) : (s.procs u).pc ≠ .forking t fd := fun hf ↦ hpc (h.child u hu t fd hf).2

omit [DecidableEq ι] in
/-- The processes after a step of one that is not the child in a `fork`. -/
theorem Kept.update (h : s.Kept) (hnext : s'.next = s.next)
    (hprocs : s'.procs = Function.update s.procs t p) (htidy : p.Tidy)
    (hparent : ∀ u < s.next, ∀ fd, (s.procs u).pc ≠ .forking t fd)
    (hafter : ∀ c fd, p.pc = .forking c fd → ∃ fd', (s.procs t).pc = .forking c fd') :
    s'.Kept := by
  have hpc : ∀ {u c fd}, (Function.update s.procs t p u).pc = .forking c fd →
      ∃ fd', (s.procs u).pc = .forking c fd' := by
    intro u c fd hu
    by_cases he : u = t
    · rw [he, Function.update_self] at hu
      rw [he]
      exact hafter c fd hu
    · rw [Function.update_of_ne he] at hu
      exact ⟨fd, hu⟩
  refine ⟨fun u hu ↦ ?_, fun u hu c fd hf ↦ ?_, fun u hu v hv c fd fd' hf hf' ↦ ?_⟩
  · rw [hprocs]
    by_cases he : u = t
    · rw [he, Function.update_self]
      exact htidy
    · rw [Function.update_of_ne he]
      exact h.tidy u (hnext ▸ hu)
  · rw [hprocs] at hf ⊢
    obtain ⟨fd', hf'⟩ := hpc hf
    obtain ⟨hc, hunborn⟩ := h.child u (hnext ▸ hu) c fd' hf'
    have hne : c ≠ t := by
      rintro rfl
      exact hparent u (hnext ▸ hu) fd' hf'
    rw [hnext, Function.update_of_ne hne]
    exact ⟨hc, hunborn⟩
  · rw [hprocs] at hf hf'
    obtain ⟨_, hf⟩ := hpc hf
    obtain ⟨_, hf'⟩ := hpc hf'
    exact h.sole u (hnext ▸ hu) v (hnext ▸ hv) c _ _ hf hf'

omit [DecidableEq ι] in
/-- The entries after a step of one process. -/
theorem Filled.update (h : s.Filled) (hnext : s'.next = s.next)
    (hprocs : s'.procs = Function.update s.procs t p)
    (hothers : ∀ u < s.next, u ≠ t → ∀ i, 0 < (s.procs u).refs i →
      (s'.files i).type = (s.files i).type ∧ (s'.files i).ip = (s.files i).ip ∧
        ((s.procs u).hand = some i → (s'.files i).refCount = (s.files i).refCount))
    (hlive : ∀ d, some d ∈ p.live →
      ((s'.files d.file).type = .Inode ∨ (s'.files d.file).type = .Device) ∧
        (s'.files d.file).ip.isSome)
    (hhand : ∀ i, p.hand = some i → (s'.files i).type = .None ∧ (s'.files i).refCount = 1)
    (hempty : ∀ i, (s'.files i).refCount = 0 → (s'.files i).type = .None) : s'.Filled := by
  refine ⟨fun u hu d hd ↦ ?_, fun u hu i hi ↦ ?_, hempty⟩
  · rw [hprocs] at hd
    by_cases he : u = t
    · rw [he, Function.update_self] at hd
      exact hlive d hd
    · rw [Function.update_of_ne he] at hd
      obtain ⟨htype, hip, -⟩ := hothers u (hnext ▸ hu) he d.file (Process.refs_pos_of_mem hd)
      rw [htype, hip]
      exact h.live u (hnext ▸ hu) d hd
  · rw [hprocs] at hi
    by_cases he : u = t
    · rw [he, Function.update_self] at hi
      exact hhand i hi
    · rw [Function.update_of_ne he] at hi
      obtain ⟨htype, -, hcount⟩ := hothers u (hnext ▸ hu) he i (Process.refs_pos_of_hand hi)
      rw [htype, hcount hi]
      exact h.hand u (hnext ▸ hu) i hi

/-- A step of one process that changes no count of an entry. -/
theorem Accounted.shift (h : s.Accounted) (ht : t < s.next) (hnext : s'.next = s.next)
    (hprocs : s'.procs = Function.update s.procs t p)
    (hfiles : ∀ i, (s'.files i).refCount = (s.files i).refCount ∧
      (s'.files i).type = (s.files i).type ∧ (s'.files i).ip = (s.files i).ip)
    (hothers : s'.others = s.others) (hrefs : ∀ i, p.refs i = (s.procs t).refs i)
    (hlive : ∀ d, some d ∈ p.live → some d ∈ (s.procs t).live)
    (hhand : p.hand = (s.procs t).hand)
    (hnodes : ∀ ip, (s'.inodes ip).refCount + (s.procs t).holds ip =
      (s.inodes ip).refCount + p.holds ip)
    (hopened : ∀ j, s'.history.opened j + s.history.put j + (s.procs t).dropping j =
      s.history.opened j + s'.history.put j + p.dropping j)
    (hkept : s'.Kept) (hfault : ∀ f, s'.fault = some f → f = .unlock ∨ f = .device) :
    s'.Accounted := by
  have hon : ∀ ip i, (s'.files i).on ip = (s.files i).on ip := by
    intro ip i
    rw [File.on, File.on, (hfiles i).2.1, (hfiles i).2.2]
  refine ⟨h.counted.update ht hnext hprocs (fun i ↦ ?_) (fun i _ ↦ (hfiles i).1),
    h.filled.update hnext hprocs (fun u _ _ i _ ↦ ⟨(hfiles i).2.1, (hfiles i).2.2,
      fun _ ↦ (hfiles i).1⟩) (fun d hd ↦ ?_) (fun i hi ↦ ?_) (fun i hi ↦ ?_),
    h.noded.update ht hnext hprocs (fun ip ↦ ?_) (fun i ↦ ?_), hkept, hfault⟩
  · rw [(hfiles i).1, hrefs]
  · rw [(hfiles d.file).2.1, (hfiles d.file).2.2]
    exact h.filled.live t ht d (hlive d hd)
  · rw [(hfiles i).1, (hfiles i).2.1]
    exact h.filled.hand t ht i (hhand ▸ hi)
  · rw [(hfiles i).2.1]
    exact h.filled.empty i ((hfiles i).1 ▸ hi)
  · have := hnodes ip
    simp only [hon, hothers]
    omega
  · have := hopened i
    rw [File.used, File.used, (hfiles i).2.1]
    omega

/-- A step of one process that leaves the accounts alone. -/
theorem Accounted.move (h : s.Accounted) (ht : t < s.next) (hnext : s'.next = s.next)
    (hprocs : s'.procs = Function.update s.procs t p)
    (hfiles : ∀ i, (s'.files i).refCount = (s.files i).refCount ∧
      (s'.files i).type = (s.files i).type ∧ (s'.files i).ip = (s.files i).ip)
    (hinodes : ∀ ip, (s'.inodes ip).refCount = (s.inodes ip).refCount)
    (hothers : s'.others = s.others)
    (hhistory : s'.history.opened = s.history.opened ∧ s'.history.put = s.history.put)
    (hfault : ∀ f, s'.fault = some f → f = .unlock ∨ f = .device)
    (hlive : p.live = (s.procs t).live) (hhand : p.hand = (s.procs t).hand)
    (hnode : p.pc.node = (s.procs t).pc.node) (hcwd : p.cwd = (s.procs t).cwd)
    (hdropping : ∀ i, p.dropping i = (s.procs t).dropping i) (hkept : s'.Kept) :
    s'.Accounted := by
  refine h.shift ht hnext hprocs hfiles hothers (fun i ↦ ?_) (fun d hd ↦ hlive ▸ hd) hhand
    (fun ip ↦ ?_) (fun j ↦ ?_) hkept hfault
  · rw [Process.refs, Process.refs, hlive, hhand]
  · rw [hinodes, Process.holds, Process.holds, hnode, hcwd]
  · rw [hhistory.1, hhistory.2, hdropping]

/-- A step that stops the kernel. -/
theorem Accounted.stop (h : s.Accounted) {f : Fault}
    (hf : f = .unlock ∨ f = .device) : (s.stop f).Accounted :=
  ⟨⟨h.counted.refCount, h.counted.bound⟩, ⟨h.filled.live, h.filled.hand, h.filled.empty⟩,
    ⟨h.noded.refCount, h.noded.opened⟩, ⟨h.kept.tidy, h.kept.child, h.kept.sole⟩,
    fun f' hf' ↦ by cases hf'; exact hf⟩

/-- A system call returns. -/
theorem Accounted.return_ (h : s.Accounted) (ht : t < s.next) (n : Int32)
    (hcwd : (s.procs t).cwd.isSome) (hbefore : (s.procs t).pc ≠ .unborn)
    (hlive : (s.procs t).live = (s.procs t).openFiles) (hhand : (s.procs t).hand = none)
    (hnode : (s.procs t).pc.node = none) (hdropping : ∀ i, (s.procs t).dropping i = 0) :
    (s.return_ t n).Accounted :=
  h.move ht rfl rfl (fun _ ↦ ⟨rfl, rfl, rfl⟩) (fun _ ↦ rfl) rfl ⟨rfl, rfl⟩ h.fault hlive.symm
    hhand.symm hnode.symm rfl (fun i ↦ (hdropping i).symm)
    (h.kept.update rfl rfl (.plain hcwd rfl rfl rfl nofun) (h.kept.no_parent hbefore) nofun)

/-- The current directory of a process that is neither a zombie nor a child that is not ready. -/
theorem Accounted.cwd (h : s.Accounted) (ht : t < s.next) (hdead : (s.procs t).pc ≠ .dead)
    (hunborn : (s.procs t).pc ≠ .unborn) : (s.procs t).cwd.isSome :=
  (h.kept.tidy t ht).cwd hdead hunborn

theorem dupInode_refCount (s : Machine ι δ) (ip ip' : ι) :
    ((s.dupInode ip).inodes ip').refCount =
      (s.inodes ip').refCount + if some ip = some ip' then 1 else 0 := by
  by_cases he : ip' = ip
  · simp [dupInode, setInode, he]
  · simp [dupInode, setInode, Function.update_of_ne he, Ne.symm he]

theorem putInode_refCount (s : Machine ι δ) (ip ip' : ι) :
    ((s.putInode ip).inodes ip').refCount =
      (s.inodes ip').refCount - if some ip = some ip' then 1 else 0 := by
  by_cases he : ip' = ip
  · simp [putInode, setInode, he]
  · simp [putInode, setInode, Function.update_of_ne he, Ne.symm he]

theorem Noded.holds_le (h : s.Noded) (ht : t < s.next) (ip : ι) :
    (s.procs t).holds ip ≤ (s.inodes ip).refCount := by
  have hle := le_total (f := fun t ↦ (s.procs t).holds ip) ht
  have := h.refCount ip
  omega

/-- The lookup of `open` gives a reference to an inode. -/
theorem Accounted.look (h : s.Accounted) (ht : t < s.next) (hidle : (s.procs t).pc = .idle)
    (ip : ι) {l : Pc ι} (hinodes : ∀ ip', (s'.inodes ip').refCount =
      (s.inodes ip').refCount + if some ip = some ip' then 1 else 0)
    (hprocs : s'.procs = Function.update s.procs t { s.procs t with pc := l })
    (hrest : s'.next = s.next ∧ s'.files = s.files ∧ s'.others = s.others ∧
      s'.history = s.history ∧ s'.fault = s.fault)
    (hl : (∃ mode locked, l = .found ip mode locked) ∨ ∃ locked, l = .refused ip locked) :
    s'.Accounted := by
  obtain ⟨hnext, hfiles, hothers, hhistory, hfault⟩ := hrest
  have hcwd := h.cwd ht (by rw [hidle]; nofun) (by rw [hidle]; nofun)
  have hlive : ({ s.procs t with pc := l } : Process ι).live = (s.procs t).live := by
    rcases hl with ⟨mode, locked, rfl⟩ | ⟨locked, rfl⟩ <;> rw [Process.live, Process.live, hidle]
  have hhand : ({ s.procs t with pc := l } : Process ι).hand = (s.procs t).hand := by
    rcases hl with ⟨mode, locked, rfl⟩ | ⟨locked, rfl⟩ <;> rw [Process.hand, Process.hand, hidle]
  have hnode : l.node = some ip := by rcases hl with ⟨mode, locked, rfl⟩ | ⟨locked, rfl⟩ <;> rfl
  refine h.shift ht hnext hprocs (fun i ↦ by rw [hfiles]; exact ⟨rfl, rfl, rfl⟩) hothers
    (fun i ↦ by rw [Process.refs, Process.refs, hlive, hhand]) (fun d hd ↦ hlive ▸ hd) hhand
    (fun ip' ↦ ?_) (fun j ↦ ?_) (h.kept.update hnext hprocs ?_
      (h.kept.no_parent (by rw [hidle]; nofun)) ?_) (by rw [hfault]; exact h.fault)
  · rw [hinodes, Process.holds, Process.holds, hidle, hnode]
    simp only [Pc.node, reduceCtorEq, if_false]
    omega
  · rw [hhistory]
    rcases hl with ⟨mode, locked, rfl⟩ | ⟨locked, rfl⟩ <;>
      rw [Process.dropping, Process.dropping, hidle]
  · rcases hl with ⟨mode, locked, rfl⟩ | ⟨locked, rfl⟩ <;> exact .plain hcwd rfl rfl rfl nofun
  · rcases hl with ⟨mode, locked, rfl⟩ | ⟨locked, rfl⟩ <;> nofun

/-! ### `open` -/

omit [DecidableEq ι] in
/-- An entry without references is pointed to by nobody. -/
theorem Counted.refs_eq_zero (h : s.Counted) {i : Nat} (hi : (s.files i).refCount = 0)
    (ht : t < s.next) : (s.procs t).refs i = 0 := by
  have hle := le_total (f := fun t ↦ (s.procs t).refs i) ht
  have := h.refCount i
  omega

omit [DecidableEq ι] in
/-- An entry with one reference is pointed to by one process. -/
theorem Counted.alone (h : s.Counted) {i u : Nat} (hi : (s.files i).refCount = 1)
    (ht : t < s.next) (hu : u < s.next) (hne : u ≠ t) (hrefs : 0 < (s.procs t).refs i) :
    (s.procs u).refs i = 0 := by
  have hle := add_le_total (f := fun t ↦ (s.procs t).refs i) hu ht hne
  have := h.refCount i
  omega

omit [DecidableEq ι] in
theorem free_spec {i : Nat} (h : s.free = some i) : i < NUM_FILES ∧ (s.files i).refCount = 0 := by
  have hmem := List.mem_of_find?_eq_some h
  have hzero := List.find?_some h
  exact ⟨List.mem_range.mp hmem, by simpa using hzero⟩

/-- A step of one process that changes one entry. -/
theorem Accounted.swap (h : s.Accounted) (ht : t < s.next) {i : Nat} {f : File ι}
    (hi : i < NUM_FILES) (hnext : s'.next = s.next)
    (hprocs : s'.procs = Function.update s.procs t p)
    (hfiles : s'.files = Function.update s.files i f)
    (hcount : f.refCount + (s.procs t).refs i = (s.files i).refCount + p.refs i)
    (hrefs : ∀ j, j ≠ i → p.refs j = (s.procs t).refs j)
    (hothers : ∀ u < s.next, u ≠ t → 0 < (s.procs u).refs i → f.type = (s.files i).type ∧
      f.ip = (s.files i).ip ∧ ((s.procs u).hand = some i → f.refCount = (s.files i).refCount))
    (hlive : ∀ d, some d ∈ p.live → d.file = i → (f.type = .Inode ∨ f.type = .Device) ∧
      f.ip.isSome)
    (hold : ∀ d, some d ∈ p.live → d.file ≠ i → some d ∈ (s.procs t).live)
    (hhand : ∀ j, p.hand = some j → j = i ∧ f.type = .None ∧ f.refCount = 1)
    (hempty : f.refCount = 0 → f.type = .None)
    (hnodes : ∀ ip, (s'.inodes ip).refCount + (s.files i).on ip + (s.procs t).holds ip =
      (s.inodes ip).refCount + f.on ip + p.holds ip)
    (hrest : s'.others = s.others)
    (hopened : ∀ j, s'.history.opened j + s.history.put j + (s.files j).used +
        (s.procs t).dropping j =
      s.history.opened j + s'.history.put j + (Function.update s.files i f j).used + p.dropping j)
    (hkept : s'.Kept) (hfault : ∀ f, s'.fault = some f → f = .unlock ∨ f = .device) :
    s'.Accounted := by
  have hsame : ∀ {j}, j ≠ i → s'.files j = s.files j := by
    intro j hj
    rw [hfiles, Function.update_of_ne hj]
  have hself : s'.files i = f := by rw [hfiles, Function.update_self]
  refine ⟨h.counted.update ht hnext hprocs (fun j ↦ ?_) (fun j hj ↦ by rw [hsame (by omega)]),
    h.filled.update hnext hprocs (fun u hu hne j hpos ↦ ?_) (fun d hd ↦ ?_) (fun j hj ↦ ?_)
      (fun j hj ↦ ?_),
    h.noded.update ht hnext hprocs (fun ip ↦ ?_) (fun j ↦ by rw [hfiles]; exact hopened j), hkept,
    hfault⟩
  · by_cases hj : j = i
    · rw [hj, hself]
      exact hcount
    · rw [hsame hj, hrefs j hj]
  · by_cases hj : j = i
    · subst hj
      rw [hself]
      exact hothers u hu hne hpos
    · rw [hsame hj]
      exact ⟨rfl, rfl, fun _ ↦ rfl⟩
  · by_cases hj : d.file = i
    · rw [hj, hself]
      exact hlive d hd hj
    · rw [hsame hj]
      exact h.filled.live t ht d (hold d hd hj)
  · obtain ⟨rfl, hf⟩ := hhand j hj
    rw [hself]
    exact hf
  · by_cases hj' : j = i
    · rw [hj', hself] at hj ⊢
      exact hempty hj
    · rw [hsame hj'] at hj ⊢
      exact h.filled.empty j hj
  · have hsum := total_update (File.on ip) s.files f hi
    have hnew := hnodes ip
    rw [hfiles, hrest]
    omega

/-- `File::allocate` hands out an entry. -/
theorem Accounted.allocate (h : s.Accounted) (ht : t < s.next) {ip : ι} {mode : Int32}
    {locked : Bool} {i : Nat} (hpc : (s.procs t).pc = .found ip mode locked)
    (hfree : s.free = some i) :
    ((s.setFile i { s.files i with refCount := (s.files i).refCount + 1 }).goto t
      (.allocated ip mode locked i)).Accounted := by
  obtain ⟨hlt, hzero⟩ := free_spec hfree
  have hcwd := h.cwd ht (by rw [hpc]; nofun) (by rw [hpc]; nofun)
  have hlive : (s.procs t).live = (s.procs t).openFiles := by rw [Process.live, hpc]
  have hhand : (s.procs t).hand = none := by rw [Process.hand, hpc]
  refine h.swap (p := { s.procs t with pc := .allocated ip mode locked i }) ht hlt rfl rfl rfl
    ?_ (fun j hj ↦ ?_) (fun u hu _ hpos ↦ ?_) (fun d hd hj ↦ ?_) (fun d hd _ ↦ ?_) (fun j hj ↦ ?_)
    ?_ (fun ip' ↦ ?_) rfl (fun j ↦ ?_)
    (h.kept.update rfl rfl (.plain hcwd rfl rfl rfl nofun)
      (h.kept.no_parent (by rw [hpc]; nofun)) nofun) h.fault
  · rw [Process.refs, Process.refs, hlive, hhand]
    simp [Process.live, Process.hand]
    omega
  · rw [Process.refs, Process.refs, hlive, hhand]
    simp [Process.live, Process.hand, Ne.symm hj]
  · rw [h.counted.refs_eq_zero hzero hu] at hpos
    omega
  · have hmem : some d ∈ (s.procs t).live := by
      rw [hlive]
      exact hd
    have hpos := Process.refs_pos_of_mem hmem
    rw [hj, h.counted.refs_eq_zero hzero ht] at hpos
    omega
  · rw [hlive]
    exact hd
  · cases hj
    exact ⟨rfl, h.filled.empty i hzero, by rw [hzero]⟩
  · intro hcount
    exact absurd hcount (Nat.succ_ne_zero _)
  · rw [Process.holds, Process.holds, hpc]
    rfl
  · rw [Process.dropping, Process.dropping, hpc]
    by_cases hj : j = i
    · rw [hj, Function.update_self]
      rfl
    · rw [Function.update_of_ne hj]
      rfl

/-- A process puts an inode. -/
theorem Accounted.repay (h : s.Accounted) (ht : t < s.next) {ip : ι}
    (hinodes : ∀ ip', (s'.inodes ip').refCount =
      (s.inodes ip').refCount - if some ip = some ip' then 1 else 0)
    (hprocs : s'.procs = Function.update s.procs t p)
    (hrest : s'.next = s.next ∧ s'.files = s.files ∧ s'.others = s.others ∧ s'.fault = s.fault)
    (hlive : p.live = (s.procs t).live) (hhand : p.hand = (s.procs t).hand)
    (hholds : ∀ ip', p.holds ip' + (if some ip = some ip' then 1 else 0) = (s.procs t).holds ip')
    (hopened : ∀ j, s'.history.opened j + s.history.put j + (s.procs t).dropping j =
      s.history.opened j + s'.history.put j + p.dropping j) (hkept : s'.Kept) : s'.Accounted := by
  obtain ⟨hnext, hfiles, hothers, hfault⟩ := hrest
  refine h.shift ht hnext hprocs (fun i ↦ by rw [hfiles]; exact ⟨rfl, rfl, rfl⟩) hothers
    (fun i ↦ by rw [Process.refs, Process.refs, hlive, hhand]) (fun d hd ↦ hlive ▸ hd) hhand
    (fun ip' ↦ ?_) hopened hkept (by rw [hfault]; exact h.fault)
  have hle := h.noded.holds_le ht ip'
  have hpart := hholds ip'
  rw [hinodes]
  omega

/-- `open` gives up an inode that it does not open. -/
theorem Accounted.refuse (h : s.Accounted) (ht : t < s.next) {ip : ι} {locked : Bool}
    (hpc : (s.procs t).pc = .refused ip locked) : ((s.putInode ip).return_ t (-1)).Accounted := by
  have hcwd := h.cwd ht (by rw [hpc]; nofun) (by rw [hpc]; nofun)
  refine h.repay ht (p := { s.procs t with pc := .idle, ret := -1 }) (putInode_refCount s ip) rfl
    ⟨rfl, rfl, rfl, rfl⟩ ?_ ?_ (fun ip' ↦ ?_) (fun j ↦ ?_) (h.kept.update rfl rfl
      (.plain hcwd rfl rfl rfl nofun) (h.kept.no_parent (by rw [hpc]; nofun)) nofun)
  · rw [Process.live, Process.live, hpc]
  · rw [Process.hand, Process.hand, hpc]
  · simp only [Process.holds, hpc, Pc.node, reduceCtorEq, if_false]
    omega
  · rw [Process.dropping, Process.dropping, hpc]
    rfl

omit [DecidableEq ι] in
theorem install_refCount (x : Inode) (ip : ι) (mode : Int32) (f : File ι) :
    (install x ip mode f).refCount = f.refCount := by
  unfold install
  dsimp only
  split <;> rfl

omit [DecidableEq ι] in
theorem install_type (x : Inode) (ip : ι) (mode : Int32) (f : File ι) :
    (install x ip mode f).type = if x.type = T_DEVICE then .Device else .Inode := by
  unfold install
  dsimp only
  split <;> rfl

omit [DecidableEq ι] in
theorem install_ip (x : Inode) (ip : ι) (mode : Int32) (f : File ι) :
    (install x ip mode f).ip = some ip := by
  unfold install
  dsimp only
  split <;> rfl

omit [DecidableEq ι] in
theorem Counted.lt (h : s.Counted) {i : Nat} (hi : (s.files i).refCount ≠ 0) : i < NUM_FILES := by
  by_contra hge
  exact hi (h.bound i (by omega))

/-- `open` fills in its entry. -/
theorem Accounted.install (h : s.Accounted) (ht : t < s.next) {ip : ι} {mode : Int32}
    {locked : Bool} {i : Nat} {d : δ} (hpc : (s.procs t).pc = .allocated ip mode locked i) :
    (s.finishOpen t ip mode locked i d).Accounted := by
  have hcwd := h.cwd ht (by rw [hpc]; nofun) (by rw [hpc]; nofun)
  have hlive : (s.procs t).live = (s.procs t).openFiles := by rw [Process.live, hpc]
  have hhand : (s.procs t).hand = some i := by rw [Process.hand, hpc]
  obtain ⟨htype, hone⟩ := h.filled.hand t ht i hhand
  have hpos := Process.refs_pos_of_hand hhand
  have hfile : (Machine.install (s.inodes ip) ip mode (s.files i)).type = .Inode ∨
      (Machine.install (s.inodes ip) ip mode (s.files i)).type = .Device := by
    rw [install_type]
    split
    · exact .inr rfl
    · exact .inl rfl
  have hused : (Machine.install (s.inodes ip) ip mode (s.files i)).type ≠ .None := by
    rcases hfile with hf | hf <;> rw [hf] <;> nofun
  have hs : (s.finishOpen t ip mode true i d).Accounted := by
    refine h.swap (i := i) (p := { s.procs t with
        openFiles := (s.procs t).openFiles ++ [some ⟨i, mode⟩], pc := .idle
        ret := Int32.ofNat (s.procs t).openFiles.length })
      (f := Machine.install (s.inodes ip) ip mode (s.files i)) ht
      (h.counted.lt (by omega)) rfl rfl rfl ?_ (fun j hj ↦ ?_) (fun u hu hne hpos' ↦ ?_)
      (fun d' _ _ ↦ ⟨hfile, by rw [install_ip]; rfl⟩) (fun d' hd' hj ↦ ?_) (fun j hj ↦ ?_)
      (fun hzero ↦ ?_) (fun ip' ↦ ?_) rfl (fun j ↦ ?_)
      (h.kept.update rfl rfl (.plain hcwd rfl rfl rfl nofun)
      (h.kept.no_parent (by rw [hpc]; nofun)) nofun) h.fault
    · rw [install_refCount, Process.refs, Process.refs, hlive, hhand]
      simp [Process.live, Process.hand, points]
    · rw [Process.refs, Process.refs, hlive, hhand]
      simp [Process.live, Process.hand, points, Ne.symm hj]
    · rw [h.counted.alone hone ht hu hne hpos] at hpos'
      omega
    · rw [hlive]
      rcases List.mem_append.mp hd' with hd' | hd'
      · exact hd'
      · cases List.mem_singleton.mp hd'
        exact absurd rfl hj
    · cases hj
    · rw [install_refCount] at hzero
      omega
    · simp only [File.on, htype, hused, install_ip, Process.holds, hpc, Pc.node, ne_eq,
        not_true_eq_false, not_false_eq_true, false_and, true_and, reduceCtorEq, if_false]
      change (s.inodes ip').refCount + _ + _ = _
      omega
    · change Function.update s.history.opened i (s.history.opened i + 1) j + _ + _ + _ = _
      simp only [Process.dropping, hpc]
      by_cases hj : j = i
      · rw [hj, Function.update_self, Function.update_self, File.used, File.used, htype,
          if_pos hused]
        change _ = s.history.opened i + s.history.put i + _ + _
        simp only [ne_eq, not_true_eq_false, if_false]
        omega
      · rw [Function.update_of_ne hj, Function.update_of_ne hj]
        rfl
  unfold finishOpen at hs ⊢
  cases locked with
  | true => exact hs
  | false => exact hs.stop (.inl rfl)

/-! ### `close` -/

omit [DecidableEq ι] in
/-- The references that a process loses with a descriptor. -/
theorem countP_set_none {l : List (Option Descriptor)} {fd i : Nat} {d : Descriptor}
    (h : l[fd]? = some (some d)) :
    (l.set fd none).countP (points i) + (if d.file = i then 1 else 0) = l.countP (points i) := by
  obtain ⟨hlt, hget⟩ := List.getElem?_eq_some_iff.mp h
  have hpoints : points i (some d) = decide (d.file = i) := rfl
  have hle : (if points i l[fd] then 1 else 0) ≤ l.countP (points i) := by
    split
    · next hp => exact List.countP_pos_iff.mpr ⟨l[fd], List.getElem_mem hlt, hp⟩
    · exact Nat.zero_le _
  rw [List.countP_set hlt]
  rw [hget, hpoints] at hle ⊢
  simp only [points, Option.any_none, decide_eq_true_eq, Bool.false_eq_true, if_false] at hle ⊢
  omega

omit [DecidableEq ι] in
theorem mem_of_mem_set_none {l : List (Option Descriptor)} {fd : Nat} {d : Descriptor}
    (h : some d ∈ l.set fd none) : some d ∈ l := by
  rcases List.mem_or_eq_of_mem_set h with h | h
  · exact h
  · cases h

omit [DecidableEq ι] in
/-- The descriptor that a process takes out of its table is a reference no more. -/
theorem Process.refs_taken {p : Process ι} {l : Pc ι} {fd : Nat} {exiting : Bool} {d : Descriptor}
    (i : Nat) (hpc : p.pc = .closing fd exiting) (hfd : p.openFiles[fd]? = some (some d))
    (hlive : Process.live { p with pc := l } = p.openFiles.set fd none)
    (hhand : Process.hand { p with pc := l } = none) :
    Process.refs i { p with pc := l } + (if d.file = i then 1 else 0) = p.refs i := by
  have hset := countP_set_none (i := i) hfd
  rw [Process.refs, Process.refs, hlive, hhand]
  simp only [Process.live, Process.hand, hpc, reduceCtorEq, if_false]
  omega

/-- A close that leaves other descriptors. -/
theorem Accounted.close (h : s.Accounted) (ht : t < s.next) {fd : Nat} {exiting : Bool}
    {desc : Descriptor} (hpc : (s.procs t).pc = .closing fd exiting)
    (hfd : (s.procs t).openFiles[fd]? = some (some desc))
    (hcount : 1 < (s.files desc.file).refCount) :
    ((s.setFile desc.file { s.files desc.file with
      refCount := (s.files desc.file).refCount - 1 }).goto t (.clearing fd exiting)).Accounted := by
  have hcwd := h.cwd ht (by rw [hpc]; nofun) (by rw [hpc]; nofun)
  have hlive : (s.procs t).live = (s.procs t).openFiles := by rw [Process.live, hpc]
  have hhand : (s.procs t).hand = none := by rw [Process.hand, hpc]
  have hmem : some desc ∈ (s.procs t).live := by
    rw [hlive]
    exact List.mem_of_getElem? hfd
  have htaken := fun j ↦ Process.refs_taken (l := .clearing fd exiting) j hpc hfd rfl rfl
  have hone : (if desc.file = desc.file then 1 else 0) = 1 := if_pos rfl
  refine h.swap (i := desc.file) (p := { s.procs t with pc := .clearing fd exiting }) ht
    (h.counted.lt (by omega)) rfl rfl rfl ?_ (fun j hj ↦ ?_) (fun u hu hne hpos ↦ ?_)
    (fun d _ _ ↦ h.filled.live t ht desc hmem) (fun d hd _ ↦ ?_) nofun
    (fun hzero ↦ ?_) (fun ip ↦ ?_) rfl (fun j ↦ ?_)
    (h.kept.update rfl rfl ((h.kept.tidy t ht).close (by rw [hpc]; rfl) (.inl rfl)
      (by rw [hpc]; cases exiting <;> rfl) hcwd) (h.kept.no_parent (by rw [hpc]; nofun)) nofun)
    h.fault
  · have := htaken desc.file
    dsimp only at this ⊢
    omega
  · have := htaken j
    rw [if_neg (Ne.symm hj)] at this
    omega
  · refine ⟨rfl, rfl, fun hu' ↦ ?_⟩
    have := (h.filled.hand u hu desc.file hu').2
    omega
  · rw [hlive]
    exact mem_of_mem_set_none hd
  · exact absurd hzero (by dsimp only; omega)
  · rw [Process.holds, Process.holds, hpc]
    rfl
  · rw [Process.dropping, Process.dropping, hpc]
    by_cases hj : j = desc.file
    · rw [hj, Function.update_self]
      rfl
    · rw [Function.update_of_ne hj]
      rfl

/-- The close of the last descriptor of an entry. -/
theorem Accounted.closeLast (h : s.Accounted) (ht : t < s.next) {fd : Nat} {exiting : Bool}
    {desc : Descriptor} {ip : ι} (hpc : (s.procs t).pc = .closing fd exiting)
    (hfd : (s.procs t).openFiles[fd]? = some (some desc))
    (hcount : (s.files desc.file).refCount = 1) (hip : (s.files desc.file).ip = some ip) :
    ((s.setFile desc.file { s.files desc.file with refCount := 0, type := .None }).goto t
      (.putting fd desc.file ip exiting)).Accounted := by
  have hcwd := h.cwd ht (by rw [hpc]; nofun) (by rw [hpc]; nofun)
  have hlive : (s.procs t).live = (s.procs t).openFiles := by rw [Process.live, hpc]
  have hhand : (s.procs t).hand = none := by rw [Process.hand, hpc]
  have hmem : some desc ∈ (s.procs t).live := by
    rw [hlive]
    exact List.mem_of_getElem? hfd
  have htaken := fun j ↦
    Process.refs_taken (l := .putting fd desc.file ip exiting) j hpc hfd rfl rfl
  have hpos := Process.refs_pos_of_mem hmem
  have hone : (if desc.file = desc.file then 1 else 0) = 1 := if_pos rfl
  have hused : (s.files desc.file).type ≠ .None := by
    rcases (h.filled.live t ht desc hmem).1 with hf | hf <;> rw [hf] <;> nofun
  have hgone : (s.procs t).refs desc.file = 1 := by
    have hle := le_total (f := fun t ↦ (s.procs t).refs desc.file) ht
    have := h.counted.refCount desc.file
    omega
  refine h.swap (i := desc.file) (p := { s.procs t with pc := .putting fd desc.file ip exiting })
    ht (h.counted.lt (by omega)) rfl rfl rfl ?_ (fun j hj ↦ ?_) (fun u hu hne hpos' ↦ ?_)
    (fun d hd hj ↦ ?_) (fun d hd _ ↦ ?_) nofun (fun _ ↦ rfl) (fun ip' ↦ ?_) rfl (fun j ↦ ?_)
    (h.kept.update rfl rfl ((h.kept.tidy t ht).close (by rw [hpc]; rfl)
      (.inr ⟨desc.file, ip, rfl⟩) (by rw [hpc]; cases exiting <;> rfl) hcwd)
      (h.kept.no_parent (by rw [hpc]; nofun)) nofun) h.fault
  · have := htaken desc.file
    dsimp only at this ⊢
    omega
  · have := htaken j
    rw [if_neg (Ne.symm hj)] at this
    omega
  · rw [h.counted.alone hcount ht hu hne hpos] at hpos'
    omega
  · -- no other descriptor of the process points to the entry
    have hleft := countP_set_none (i := desc.file) hfd
    have hd' : 0 < ((s.procs t).openFiles.set fd none).countP (points desc.file) :=
      List.countP_pos_iff.mpr ⟨some d, hd, by simp [points, hj]⟩
    simp only [Process.refs, hlive, hhand, reduceCtorEq, if_false] at hgone
    omega
  · rw [hlive]
    exact mem_of_mem_set_none hd
  · simp only [File.on, hused, hip, Process.holds, hpc, Pc.node, ne_eq, not_true_eq_false,
      not_false_eq_true, false_and, true_and, reduceCtorEq, if_false]
    change (s.inodes ip').refCount + _ + _ = _
    by_cases he : some ip = some ip'
    · simp only [he, if_true]
      omega
    · simp only [he, if_false]
  · simp only [Process.dropping, hpc]
    by_cases hj : j = desc.file
    · rw [hj, Function.update_self, File.used, File.used, if_pos hused, if_pos rfl]
      change s.history.opened _ + _ + _ + _ = s.history.opened _ + s.history.put _ + _ + _
      simp
    · rw [Function.update_of_ne hj, if_neg (Ne.symm hj)]
      rfl

/-- What `File::close` does to the file of a descriptor. -/
theorem Accounted.closeFile (h : s.Accounted) (ht : t < s.next) {fd : Nat} {exiting : Bool}
    {desc : Descriptor} (hpc : (s.procs t).pc = .closing fd exiting)
    (hfd : (s.procs t).openFiles[fd]? = some (some desc)) :
    (s.closeFile t fd exiting desc.file).Accounted := by
  have hmem : some desc ∈ (s.procs t).live := by
    rw [Process.live, hpc]
    exact List.mem_of_getElem? hfd
  have hpos : 0 < (s.files desc.file).refCount := by
    have hrefs := Process.refs_pos_of_mem hmem
    have hle := le_total (f := fun t ↦ (s.procs t).refs desc.file) ht
    have := h.counted.refCount desc.file
    omega
  obtain ⟨htype, hsome⟩ := h.filled.live t ht desc hmem
  obtain ⟨ip, hip⟩ := Option.isSome_iff_exists.mp hsome
  unfold Machine.closeFile
  dsimp only
  rw [if_neg (by omega)]
  split
  · exact h.close ht hpc hfd (by omega)
  · have hlast := h.closeLast ht hpc hfd (by omega) hip
    rcases htype with hf | hf
    · rw [hf]
      dsimp only
      rw [hip]
      dsimp only
      rw [← hip]
      exact hlast
    · rw [hf]
      dsimp only
      rw [hip]
      dsimp only
      rw [← hip]
      exact hlast

/-- The inode of an entry that went out of use is put. -/
theorem Accounted.put (h : s.Accounted) (ht : t < s.next) {fd i : Nat} {ip : ι} {exiting : Bool}
    (hpc : (s.procs t).pc = .putting fd i ip exiting) :
    ({ s.putInode ip with
      history := { s.history with
        put := Function.update s.history.put i (s.history.put i + 1) } }.goto t
          (.clearing fd exiting)).Accounted := by
  have hcwd := h.cwd ht (by rw [hpc]; nofun) (by rw [hpc]; nofun)
  refine h.repay ht (p := { s.procs t with pc := .clearing fd exiting }) (putInode_refCount s ip)
    rfl ⟨rfl, rfl, rfl, rfl⟩ ?_ ?_ (fun ip' ↦ ?_) (fun j ↦ ?_)
    (h.kept.update rfl rfl ((h.kept.tidy t ht).close (by rw [hpc]; rfl) (.inl rfl)
      (by rw [hpc]; cases exiting <;> rfl) hcwd) (h.kept.no_parent (by rw [hpc]; nofun)) nofun)
  · rw [Process.live, Process.live, hpc]
  · rw [Process.hand, Process.hand, hpc]
  · simp only [Process.holds, hpc, Pc.node, reduceCtorEq, if_false]
    omega
  · change s.history.opened j + s.history.put j + _ =
      s.history.opened j + Function.update s.history.put i (s.history.put i + 1) j + _
    simp only [Process.dropping, hpc]
    by_cases hj : j = i
    · rw [hj, Function.update_self, if_pos rfl]
      omega
    · rw [Function.update_of_ne hj, if_neg (Ne.symm hj)]

/-- The pointer of a closed descriptor is cleared. -/
theorem Accounted.clear (h : s.Accounted) (ht : t < s.next) {fd : Nat} {exiting : Bool}
    (hpc : (s.procs t).pc = .clearing fd exiting) {q : Process ι}
    (hq : q.openFiles = (s.procs t).openFiles.set fd none ∧ q.cwd = (s.procs t).cwd)
    (hl : exiting = true ∧ q.pc = .exiting (fd + 1) ∨ q.pc = .idle) :
    (s.setProc t q).Accounted := by
  have hcwd := h.cwd ht (by rw [hpc]; nofun) (by rw [hpc]; nofun)
  have htidy := h.kept.tidy t ht
  have hlive : q.live = (s.procs t).live := by
    rcases hl with ⟨-, hl⟩ | hl <;> simp only [Process.live, hpc, hl, hq.1]
  have hhand : q.hand = (s.procs t).hand := by
    rw [Process.hand, Process.hand, hpc]
    rcases hl with ⟨-, hl⟩ | hl <;> rw [hl]
  have hnode : q.pc.node = (s.procs t).pc.node := by
    rw [hpc]
    rcases hl with ⟨-, hl⟩ | hl <;> rw [hl] <;> rfl
  have hdropping : ∀ i, q.dropping i = (s.procs t).dropping i := by
    intro i
    rw [Process.dropping, Process.dropping, hpc]
    rcases hl with ⟨-, hl⟩ | hl <;> rw [hl]
  refine h.move ht rfl rfl (fun _ ↦ ⟨rfl, rfl, rfl⟩) (fun _ ↦ rfl) rfl ⟨rfl, rfl⟩ h.fault hlive
    hhand hnode hq.2 hdropping (h.kept.update rfl rfl ?_ (h.kept.no_parent (by rw [hpc]; nofun)) ?_)
  · rcases hl with ⟨rfl, hl⟩ | hl
    · refine ⟨?_, ?_, fun fd' hfd j hj ↦ ?_, ?_, fun _ _ ↦ by rw [hq.2]; exact hcwd, ?_⟩
      · rw [hl]
        nofun
      · rw [hl]
        nofun
      · rw [hl] at hfd
        cases hfd
        have hlt := htidy.target fd (by rw [hpc]; rfl)
        rw [hq.1, List.getElem?_set]
        by_cases he : fd = j
        · rw [if_pos he, if_pos (he ▸ hlt)]
        · rw [if_neg he]
          exact htidy.closed fd (by rw [hpc]; rfl) j (by omega)
      · rw [hl]
        nofun
      · rw [hl]
        nofun
    · exact .plain (by rw [hq.2]; exact hcwd) (by rw [hl]; rfl) (by rw [hl]; rfl) (by rw [hl]; rfl)
        (by rw [hl]; nofun)
  · rcases hl with ⟨-, hl⟩ | hl <;> rw [hl] <;> nofun

end Machine

end Orfos.Files
