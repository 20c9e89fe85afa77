import Orfos.Files.Modes

/-!
# Devices

A device file is dispatched by the major number that its inode had when it was opened, which is the
one that it still has. `mknod` takes every major number, `Process::open` refuses those outside
`deviceMap`, and `File::read` and `File::write` look at the range again, but nobody looks whether
the function of an entry is set. Only the entry `CONSOLE` has its functions.
-/

namespace Orfos.Files

open Orfos.Base Orfos.Syscall

variable {ι δ : Type} [DecidableEq ι]

/-- A major number that leads to no entry of `deviceMap`, or to one with its functions. -/
def Registered (major : Int16) : Prop :=
  major < 0 ∨ NUM_DEVICES ≤ major ∨ major.toInt.toNat = CONSOLE

instance (major : Int16) : Decidable (Registered major) := inferInstanceAs (Decidable (_ ∨ _))

-- not by a search through all numbers
instance : (o : Option Int16) → Decidable (∀ major ∈ o, Registered major)
  | none => .isTrue nofun
  | some major => decidable_of_iff (Registered major)
    ⟨fun h _ hm ↦ Option.some.inj hm ▸ h, fun h ↦ h major rfl⟩

/-- The entries of `deviceMap`. -/
theorem deviceMap_eq (id : Nat) :
    deviceMap id = if id = CONSOLE then ⟨some .consoleRead, some .consoleWrite⟩
      else ⟨none, none⟩ := by
  rw [deviceMap, Function.update_apply]

/-- The functions of an entry are set together, for `CONSOLE` alone. -/
theorem registered_iff {major : Int16} {dev : Device} (h : getDevice major = some dev) :
    (Registered major ↔ dev.read.isSome) ∧ (Registered major ↔ dev.write.isSome) := by
  unfold getDevice at h
  split at h
  · cases h
  · next hrange =>
    cases h
    rw [deviceMap_eq, Registered]
    by_cases hid : major.toInt.toNat = CONSOLE
    · rw [if_pos hid]
      exact ⟨⟨fun _ ↦ rfl, fun _ ↦ .inr (.inr hid)⟩, ⟨fun _ ↦ rfl, fun _ ↦ .inr (.inr hid)⟩⟩
    · rw [if_neg hid]
      have hnot : ¬ (major < 0 ∨ NUM_DEVICES ≤ major ∨ major.toInt.toNat = CONSOLE) := by
        rintro (hlt | hge | he)
        · exact hrange (.inl hlt)
        · exact hrange (.inr hge)
        · exact hid he
      exact ⟨⟨fun h ↦ absurd h hnot, nofun⟩, ⟨fun h ↦ absurd h hnot, nofun⟩⟩

/-- A major number outside of `deviceMap`. -/
theorem registered_none {major : Int16} (h : getDevice major = none) : Registered major := by
  unfold getDevice at h
  split at h
  · next hrange =>
    rcases hrange with hlt | hge
    · exact .inl hlt
    · exact .inr (.inl hge)
  · cases h

namespace Machine

variable {s s' : Machine ι δ} {t : Nat} {p : Process ι}

/-- A device file is dispatched: its call returns -1, or what a function of `deviceMap` returns. -/
def Dispatch (s : Machine ι δ) (t i : Nat) (function : Device → Option Driver) (res : Int32)
    (s' : Machine ι δ) : Prop :=
  (s.files i).type = .Device → s' = s.return_ t (-1) ∨
    ∃ dev driver, getDevice (s.files i).major = some dev ∧ function dev = some driver ∧
      s' = s.return_ t res

/-- What a step may do with the devices. -/
structure Dispatched (s : Machine ι δ) (e : Event ι δ) (s' : Machine ι δ) : Prop where
  fault : s'.fault ≠ some .device
  read : ∀ t fd n res desc, e = .read t fd n res → s.getArgFd t fd = some desc →
    s.Dispatch t desc.file Device.read res s'
  write : ∀ t fd n res desc, e = .write t fd n res → s.getArgFd t fd = some desc →
    s.Dispatch t desc.file Device.write res s'

/-- The major number of the device of an entry. -/
def device (s : Machine ι δ) (i : Nat) : Option Int16 :=
  (s.files i).ip.bind fun ip ↦
    if (s.inodes ip).type = T_DEVICE then some (s.inodes ip).major else none

/-- A read or a write of a device goes through a descriptor that refuses it, or the functions of
the device are set. -/
def Attached (s : Machine ι δ) : Event ι δ → Prop
  | .read t fd _ _ => ∀ desc ∈ s.getArgFd t fd,
    desc.mode &&& O_WRONLY = 0 → ∀ major ∈ s.device desc.file, Registered major
  | .write t fd _ _ => ∀ desc ∈ s.getArgFd t fd,
    desc.mode &&& O_WRONLY = 0 ∨ desc.mode &&& O_RDWR ≠ 0 →
      ∀ major ∈ s.device desc.file, Registered major
  | _ => True

instance (s : Machine ι δ) : (e : Event ι δ) → Decidable (s.Attached e)
  | .read t fd _ _ => inferInstanceAs (Decidable (∀ desc ∈ s.getArgFd t fd,
    desc.mode &&& O_WRONLY = 0 → ∀ major ∈ s.device desc.file, Registered major))
  | .write t fd _ _ => inferInstanceAs (Decidable (∀ desc ∈ s.getArgFd t fd,
    desc.mode &&& O_WRONLY = 0 ∨ desc.mode &&& O_RDWR ≠ 0 →
      ∀ major ∈ s.device desc.file, Registered major))
  | .open_ .. | .close .. | .fork .. | .exit .. | .mknod .. | .go .. | .load .. | .refer ..
  | .change .. => .isTrue trivial

omit [DecidableEq ι] in
/-- The device of a descriptor is the one that its entry was opened for. -/
theorem Proper.device_eq {desc : Descriptor} {ip : ι} (h : s.Proper desc ip)
    (htype : (s.files desc.file).type = .Device) :
    s.device desc.file = some (s.files desc.file).major := by
  rw [Machine.device, h.node, Option.bind_some, if_pos (h.device.mp htype), h.major htype]

omit [DecidableEq ι] in
/-- The entry of a descriptor with a device is one of a device. -/
theorem Proper.device_type {desc : Descriptor} {ip : ι} (h : s.Proper desc ip) {major : Int16}
    (hmajor : s.device desc.file = some major) : (s.files desc.file).type = .Device := by
  rw [Machine.device, h.node, Option.bind_some] at hmajor
  split at hmajor
  · next hkind => exact h.device.mpr hkind
  · cases hmajor

omit [DecidableEq ι] in
/-- A call on a device file whose function is not set. -/
theorem access_unset {i : Nat} (htype : (s.files i).type = .Device) {dev : Device}
    (hdev : getDevice (s.files i).major = some dev) {function : Device → Option Driver}
    (hnone : function dev = none) (l : Pc ι) (res : Int32) :
    s.access t i true function l res = s.stop .device := by
  unfold access
  rw [htype]
  simp [hdev, hnone]

omit [DecidableEq ι] in
/-- Every other call on a device file. -/
theorem access_set {i : Nat} {allowed : Bool} {function : Device → Option Driver}
    (h : allowed = true → (s.files i).type = .Device →
      ∀ dev, getDevice (s.files i).major = some dev → (function dev).isSome)
    (l : Pc ι) (res : Int32) (hfault : s.fault = none) :
    (s.access t i allowed function l res).fault ≠ some .device ∧
      s.Dispatch t i function res (s.access t i allowed function l res) := by
  have hret : ∀ n, (s.return_ t n).fault ≠ some .device := by
    intro n
    change s.fault ≠ _
    rw [hfault]
    nofun
  unfold access
  split
  · exact ⟨hret _, fun _ ↦ .inl rfl⟩
  · next hallowed =>
    split
    · next htype =>
      refine ⟨hret _, fun h ↦ ?_⟩
      rw [htype] at h
      cases h
    · next htype =>
      split
      · exact ⟨hret _, fun _ ↦ .inl rfl⟩
      · next dev hdev =>
        split
        · next hnone =>
          have hsome := h (not_not.mp hallowed) htype dev hdev
          rw [hnone] at hsome
          cases hsome
        · next driver hdriver =>
          exact ⟨hret _, fun _ ↦ .inr ⟨dev, driver, hdev, hdriver, rfl⟩⟩
    · next htype =>
      refine ⟨hret 0, fun h ↦ ?_⟩
      rw [htype] at h
      cases h
    · next htype =>
      refine ⟨nofun, fun h ↦ ?_⟩
      rw [htype] at h
      cases h

omit [DecidableEq ι] in
/-- A call on a descriptor is dispatched if and only if the descriptor refuses it or the function
of its device is set. -/
theorem Proper.dispatch_iff {desc : Descriptor} {ip : ι} (h : s.Proper desc ip)
    (hfault : s.fault = none) (allowed : Bool) {function : Device → Option Driver}
    (hset : ∀ {major dev}, getDevice major = some dev →
      (Registered major ↔ (function dev).isSome)) (l : Pc ι) (res : Int32) :
    ((s.access t desc.file allowed function l res).fault ≠ some .device ∧
        s.Dispatch t desc.file function res (s.access t desc.file allowed function l res)) ↔
      (allowed = true → ∀ major ∈ s.device desc.file, Registered major) := by
  refine ⟨fun hd hallowed major hmajor ↦ ?_, fun hreg ↦ ?_⟩
  · have htype := h.device_type hmajor
    cases (h.device_eq htype).symm.trans hmajor
    cases hdev : getDevice (s.files desc.file).major with
    | none => exact registered_none hdev
    | some dev =>
      rw [hset hdev]
      cases hnone : function dev with
      | none =>
        rw [hallowed, access_unset htype hdev hnone] at hd
        exact absurd rfl hd.1
      | some driver => rfl
  · refine access_set (fun hallowed htype dev hdev ↦ ?_) l res hfault
    exact (hset hdev).mp (hreg hallowed _ (h.device_eq htype))

/-- A step of a process calls no device. -/
theorem go_fault {res : Int32} {d : δ} (hs : s.go t res d = some s') (hfault : s.fault = none) :
    s'.fault ≠ some .device := by
  have hsame : ∀ {s'' : Machine ι δ}, s''.fault = s.fault → s''.fault ≠ some .device := by
    intro s'' h
    rw [h, hfault]
    nofun
  unfold Machine.go at hs
  dsimp only at hs
  split at hs
  · cases hs
  · cases hs
  · cases hs
  · split at hs
    · cases hs
      exact hsame rfl
    · split at hs <;> cases hs <;> exact hsame rfl
  · cases hs
    split
    · exact hsame rfl
    · nofun
  · next locked _ _ =>
    cases hs
    cases locked with
    | true => exact hsame rfl
    | false => nofun
  · split at hs
    · cases hs
      unfold closeFile
      dsimp only
      split
      · nofun
      · split
        · exact hsame rfl
        · split
          · exact hsame rfl
          · exact hsame rfl
          · split
            · nofun
            · exact hsame rfl
          · split
            · nofun
            · exact hsame rfl
    · cases hs
      nofun
  · cases hs
    exact hsame rfl
  · cases hs
    exact hsame rfl
  · split at hs <;> cases hs <;> exact hsame rfl
  · split at hs
    · cases hs
      nofun
    · cases hs
      exact hsame rfl
  · cases hs
    unfold Machine.fork
    dsimp only
    split
    · split
      · nofun
      · exact hsame rfl
    · exact hsame rfl
    · split
      · nofun
      · exact hsame rfl
  · split at hs
    · cases hs
      nofun
    · split at hs
      · cases hs
        exact hsame (transfer_spec ..).2.2.2.2.2.1
      · cases hs
  · rcases writeChunk_cases hs with ⟨-, rfl⟩ | ⟨-, -, rfl⟩ | ⟨ip, -, -, -, ⟨-, rfl⟩ | ⟨-, rfl⟩⟩
    · exact hsame rfl
    · nofun
    · exact hsame (transfer_spec ..).2.2.2.2.2.1
    · exact hsame (transfer_spec ..).2.2.2.2.2.1

/-- Nothing happens after a fault. -/
theorem step_running {e : Event ι δ} (hs : s.step e = some s') : s.fault = none := by
  unfold Machine.step at hs
  split at hs
  · cases hs
  · next hfault => exact Option.not_isSome_iff_eq_none.mp hfault

/-- `read` or `write` is dispatched if and only if the descriptor refuses it or the function of
its device is set. -/
theorem Sane.call_iff (h : s.Sane) (hfault : s.fault = none) {fd res : Int32}
    (function : Device → Option Driver) (l : Nat → Pc ι) (allowed : File ι → Bool)
    (right : Int32 → Prop)
    (hset : ∀ {major dev}, getDevice major = some dev →
      (Registered major ↔ (function dev).isSome))
    (hright : ∀ {desc ip}, s.Proper desc ip →
      (allowed (s.files desc.file) = true ↔ right desc.mode))
    (hs : s.call t (match s.getArgFd t fd with
      | none => some (s.return_ t (-1))
      | some desc => some (s.access t desc.file (allowed (s.files desc.file)) function
        (l desc.file) res)) = some s') :
    (s'.fault ≠ some .device ∧ ∀ desc, s.getArgFd t fd = some desc →
        s.Dispatch t desc.file function res s') ↔
      ∀ desc ∈ s.getArgFd t fd, right desc.mode →
        ∀ major ∈ s.device desc.file, Registered major := by
  obtain ⟨ht, hidle, hs⟩ := call_eq hs
  cases hfd : s.getArgFd t fd with
  | none =>
    rw [hfd] at hs
    cases hs
    refine ⟨nofun, fun _ ↦ ⟨?_, nofun⟩⟩
    change s.fault ≠ _
    rw [hfault]
    nofun
  | some desc =>
    rw [hfd] at hs
    cases hs
    obtain ⟨ip, hp⟩ := h.called ht hidle hfd
    have hiff := hp.dispatch_iff (t := t) hfault (allowed (s.files desc.file)) hset
      (l desc.file) res
    rw [hright hp] at hiff
    refine ⟨fun hd desc' he ↦ ?_, fun hreg ↦ ?_⟩
    · cases he
      exact hiff.mp ⟨hd.1, hd.2 desc rfl⟩
    · obtain ⟨hfault', hdispatch⟩ := hiff.mpr (hreg desc rfl)
      refine ⟨hfault', fun desc' he ↦ ?_⟩
      cases he
      exact hdispatch

/-- A step is dispatched if and only if it is attached. -/
theorem Sane.dispatched_iff (h : s.Sane) {e : Event ι δ} (hs : s.step e = some s') :
    Dispatched s e s' ↔ s.Attached e := by
  have hfault := step_running hs
  -- a step that is neither a read nor a write calls no device
  have hother : s'.fault ≠ some .device → (∀ t fd n res, e ≠ .read t fd n res) →
      (∀ t fd n res, e ≠ .write t fd n res) → (Dispatched s e s' ↔ True) := by
    intro hf hread hwrite
    refine iff_true_intro ⟨hf, fun t fd n res _ he ↦ ?_, fun t fd n res _ he ↦ ?_⟩
    · exact absurd he (hread t fd n res)
    · exact absurd he (hwrite t fd n res)
  have hsame : ∀ {s'' : Machine ι δ}, s''.fault = s.fault → s''.fault ≠ some .device := by
    intro s'' h
    rw [h, hfault]
    simp
  unfold Machine.step at hs
  split at hs
  · cases hs
  cases e with
  | read t fd n res =>
    have hiff := h.call_iff hfault Device.read (fun i ↦ .reading i n) File.readable
      (fun mode ↦ mode &&& O_WRONLY = 0) (fun hdev ↦ (registered_iff hdev).1)
      (fun hp ↦ by rw [hp.readable, decide_eq_true_iff]) hs
    refine ⟨fun hd ↦ hiff.mp ⟨hd.fault, fun desc hfd ↦ ?_⟩, fun hok ↦ ?_⟩
    · exact hd.read t fd n res desc rfl hfd
    · refine ⟨(hiff.mpr hok).1, fun t' fd' n' res' desc he hfd ↦ ?_, (by simp)⟩
      cases he
      exact (hiff.mpr hok).2 desc hfd
  | write t fd n res =>
    have hiff := h.call_iff hfault Device.write (fun i ↦ .writing i n 0) File.writable
      (fun mode ↦ mode &&& O_WRONLY = 0 ∨ mode &&& O_RDWR ≠ 0)
      (fun hdev ↦ (registered_iff hdev).2)
      (fun hp ↦ by rw [hp.writable, decide_eq_true_iff]) hs
    refine ⟨fun hd ↦ hiff.mp ⟨hd.fault, fun desc hfd ↦ ?_⟩, fun hok ↦ ?_⟩
    · exact hd.write t fd n res desc rfl hfd
    · refine ⟨(hiff.mpr hok).1, (by simp), fun t' fd' n' res' desc he hfd ↦ ?_⟩
      cases he
      exact (hiff.mpr hok).2 desc hfd
  | open_ t mode lookup =>
    refine hother ?_ (by simp) (by simp)
    obtain ⟨-, -, hs⟩ := call_eq hs
    cases lookup with
    | absent =>
      cases hs
      exact hsame rfl
    | found ip =>
      unfold Machine.open_ at hs
      dsimp only at hs
      split at hs
      · split at hs <;> cases hs
        exact hsame rfl
      · split at hs <;> cases hs <;> exact hsame rfl
    | existing ip =>
      unfold Machine.open_ at hs
      dsimp only at hs
      split at hs
      · split at hs <;> cases hs
        · exact hsame rfl
        · simp [Machine.stop]
      · cases hs
  | close t fd =>
    refine hother ?_ (by simp) (by simp)
    obtain ⟨-, -, hs⟩ := call_eq hs
    split at hs <;> cases hs <;> exact hsame rfl
  | fork t =>
    refine hother ?_ (by simp) (by simp)
    obtain ⟨-, -, hs⟩ := call_eq hs
    cases hs
    exact hsame rfl
  | exit t =>
    refine hother ?_ (by simp) (by simp)
    obtain ⟨-, -, hs⟩ := call_eq hs
    cases hs
    exact hsame rfl
  | mknod t major minor lookup =>
    refine hother ?_ (by simp) (by simp)
    obtain ⟨-, -, hs⟩ := call_eq hs
    cases lookup with
    | absent =>
      cases hs
      exact hsame rfl
    | found ip =>
      dsimp only at hs
      split at hs <;> cases hs
      exact hsame rfl
    | existing ip =>
      cases hs
      simp [Machine.stop]
  | go t res d =>
    refine hother ?_ (by simp) (by simp)
    dsimp only at hs
    split at hs
    · exact go_fault hs hfault
    · cases hs
  | load ip type major =>
    refine hother ?_ (by simp) (by simp)
    dsimp only at hs
    split at hs <;> cases hs
    exact hsame rfl
  | refer ip n =>
    refine hother ?_ (by simp) (by simp)
    cases hs
    exact hsame rfl
  | change data =>
    refine hother ?_ (by simp) (by simp)
    cases hs
    exact hsame rfl

/-- In every run, a step dispatches devices as it should if and only if it is attached: it goes to
no device, or to one whose functions are set. In every run of attached steps, the kernel calls
through no entry of `deviceMap` that is not set. -/
theorem devices_dispatched {s₀ : Machine ι δ} {root : ι} (h₀ : s₀.Initial root) :
    (∀ s, Run Machine.step Machine.Attached s₀ s → s.fault ≠ some .device) ∧
    ∀ s e s', Run Machine.step (fun _ _ ↦ True) s₀ s → s.step e = some s' →
      (Dispatched s e s' ↔ s.Attached e) := by
  refine ⟨fun s hr ↦ ?_, fun s e s' hr hs ↦ (h₀.runs hr).2.dispatched_iff hs⟩
  cases hr with
  | refl =>
    rw [h₀.fault]
    nofun
  | tail before ok last => exact (((h₀.runs before).2.dispatched_iff last).mpr ok).fault

/-- A process makes a device of a major number, and opens it for reading and writing. -/
def attaching (major : Int32) : List (Event (Fin 2) Nat) :=
  [.mknod 0 major 0 (.found 1), .open_ 0 O_RDWR (.found 1), .go 0 0 0, .go 0 0 0]

theorem devices_dispatched_console :
    Dispatched (final Machine.step boot (attaching 0x10001)) (.read 0 0 4 3)
        (final Machine.step (final Machine.step boot (attaching 0x10001)) [.read 0 0 4 3]) ∧
      ((final Machine.step (final Machine.step boot (attaching 0x10001)) [.read 0 0 4 3]).procs
        0).ret = 3 :=
  ⟨((devices_dispatched boot_initial).2 _ _ _
    (run_final (by decide +kernel) (by simp [attaching, Plays]))
    (step_final (by decide +kernel))).mpr (by decide +kernel), by decide +kernel⟩

/-- A device with a major number other than `CONSOLE` makes the kernel call a function that is not
set. -/
theorem unset_device_called :
    Run Machine.step (fun _ _ ↦ True) boot
        (final Machine.step boot (attaching 2 ++ [.read 0 0 4 3])) ∧
      (final Machine.step boot (attaching 2 ++ [.read 0 0 4 3])).fault = some .device :=
  ⟨run_final (by decide +kernel) (by simp [attaching, Plays]), by decide +kernel⟩

end Machine

end Orfos.Files
