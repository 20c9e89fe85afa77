import Mathlib.Data.Fintype.Card
import Mathlib.Data.Finset.Card
import Mathlib.Data.List.GetD
import Orfos.Base.Ring
import Orfos.Fs.Descriptors

/-!
# The requests of the disk

A request that the handler has not processed belongs to a process that still holds its three
descriptors. So there are at most two such requests: no slot of a ring is used again too early,
and the 16-bit indices are equal only if the numbers are. With it every entry that the handler
finds in the used ring leads to the buffer that was submitted under its head.
-/

namespace Orfos.Fs.Virtio

open Orfos.Base Orfos.Base.Ring

variable {τ β : Type}

/-- The buffer of a process in `diskrw`. -/
def Pc.buffer : Pc β → Option β
  | .outside => none
  | .entering buf _ | .allocating buf _ | .allocated buf _ _ | .prepared buf _ _
  | .stored buf _ _ | .waiting buf _ _ _ | .testing buf _ _ _ => some buf

/-- The request of a process, once it is published. -/
def Pc.request : Pc β → Option (β × Index × Nat)
  | .waiting buf _ x r | .testing buf _ x r => some (buf, x, r)
  | _ => none

/-- The steps that are taken under the mutex. -/
def Pc.holds : Pc β → Bool
  | .allocating _ _ | .allocated _ _ _ | .prepared _ _ _ | .stored _ _ _ | .testing _ _ _ _ => true
  | _ => false

/-- The head under which a request was submitted. -/
def History.headOf (h : History τ β) (r : Nat) : UInt16 :=
  (h.requests[r]?).elim 0 fun q ↦ q.head.val.toUInt16

/-- The requests that the handler has processed. -/
def History.done (h : History τ β) : List Nat := h.reports.take h.processed

/-- The requests that the device has taken. -/
structure History.Ordered (h : History τ β) : Prop where
  taken : h.taken ≤ h.requests.length
  processed : h.processed ≤ h.reports.length
  nodup : (h.inside ++ h.reports).Nodup
  mem : ∀ r, r ∈ h.inside ++ h.reports ↔ r < h.taken

/-- The rings and the indices agree with the history. -/
structure Machine.Ringed (s : Machine τ β) : Prop where
  avail : s.disk.avail.index = UInt16.ofNat s.history.requests.length
  device : s.deviceIndex = UInt16.ofNat s.history.taken
  used : s.disk.used.index = UInt16.ofNat s.history.reports.length
  usedIndex : s.disk.usedIndex = UInt16.ofNat s.history.processed
  heads : s.heads = s.history.inside.map s.history.headOf
  slots : Holds s.disk.avail.ring s.history.taken s.history.requests.length s.history.headOf
  entries : Holds s.disk.used.ring s.history.processed s.history.reports.length fun k ↦
    (s.history.headOf (s.history.reports.getD k 0)).toUInt32

/-- The processes agree with the history. -/
structure Machine.Served (s : Machine τ β) : Prop where
  buffers : ∀ t t' buf, (s.pc t).buffer = some buf → (s.pc t').buffer = some buf → t = t'
  info : ∀ t buf op x, (s.pc t).sent = some (buf, op, x) →
    (s.disk.info x.head).buffer = some buf
  raised : ∀ t buf op x, (s.pc t).sent = some (buf, op, x) → (s.pc t).request = none →
    s.flag buf = true
  request : ∀ t buf x r, (s.pc t).request = some (buf, x, r) →
    s.history.requests[r]? = some ⟨t, buf, x.head⟩
  pending : ∀ r < s.history.requests.length, r ∉ s.history.done →
    ∃ t buf x, (s.pc t).request = some (buf, x, r)
  flag : ∀ t buf x r, (s.pc t).request = some (buf, x, r) →
    (s.flag buf = true ↔ r ∉ s.history.done)
  status : ∀ t buf x r, (s.pc t).request = some (buf, x, r) → r ∈ s.history.reports →
    (s.disk.info x.head).status = 0

/-- What holds between the steps. -/
structure Machine.Tracked (s : Machine τ β) : Prop where
  sound : s.Sound
  ordered : s.history.Ordered
  ringed : s.Ringed
  served : s.Served
  lock : ∀ t, (s.pc t).holds = true → s.lock = some (.process t)
  stored : ∀ t buf op x, s.pc t = .stored buf op x →
    s.disk.avail.ring (place NUM_DESCS s.history.requests.length) = x.head.val.toUInt16
  body : s.body = true → s.history.processed < s.history.reports.length
  fault : s.fault = none

/-! ### At most two requests -/

theorem slot_ofNat (k : Nat) : slot (UInt16.ofNat k) = place NUM_DESCS k := by
  apply Fin.ext
  change (UInt16.ofNat k).toNat % 8 = k % 8
  rw [UInt16.toNat_ofNat']
  omega

theorem slot_toUInt16 (i : Fin NUM_DESCS) : slot i.val.toUInt16 = i := by
  revert i
  decide

theorem Pc.index_of_request {p : Pc β} {buf : β} {x : Index} {r : Nat}
    (h : p.request = some (buf, x, r)) : p.index = some x := by
  cases p <;> cases h <;> rfl

theorem Pc.buffer_of_sent {p : Pc β} {buf : β} {op : Transfer} {x : Index}
    (h : p.sent = some (buf, op, x)) : p.buffer = some buf := by
  cases p <;> cases h <;> rfl

theorem Pc.sent_of_request {p : Pc β} {buf : β} {x : Index} {r : Nat}
    (h : p.request = some (buf, x, r)) : ∃ op, p.sent = some (buf, op, x) := by
  cases p <;> cases h <;> exact ⟨_, rfl⟩

/-- Three processes do not have nine descriptors. -/
theorem Owned.not_three {d : Disk β} {own : τ → Option Index} (h : Owned d own) {t₁ t₂ t₃ : τ}
    {x₁ x₂ x₃ : Index} (h₁ : own t₁ = some x₁) (h₂ : own t₂ = some x₂) (h₃ : own t₃ = some x₃)
    (h₁₂ : t₁ ≠ t₂) (h₁₃ : t₁ ≠ t₃) (h₂₃ : t₂ ≠ t₃) : False := by
  have hn : (x₁.toList ++ (x₂.toList ++ x₃.toList)).Nodup := by
    rw [List.nodup_append, List.nodup_append]
    refine ⟨h.nodup t₁ x₁ h₁, ⟨h.nodup t₂ x₂ h₂, h.nodup t₃ x₃ h₃, ?_⟩, ?_⟩
    · rintro i hi j hj rfl
      exact h₂₃ (h.apart t₂ t₃ x₂ x₃ h₂ h₃ i hi hj)
    · rintro i hi j hj rfl
      rcases List.mem_append.mp hj with hj | hj
      · exact h₁₂ (h.apart t₁ t₂ x₁ x₂ h₁ h₂ i hi hj)
      · exact h₁₃ (h.apart t₁ t₃ x₁ x₃ h₁ h₃ i hi hj)
  have hlen : (x₁.toList ++ (x₂.toList ++ x₃.toList)).length = 9 := rfl
  have hle := hn.length_le_card
  rw [Fintype.card_fin, hlen] at hle
  exact absurd hle (by decide)

namespace History.Ordered

variable {h : History τ β} (ho : h.Ordered)

include ho

theorem done_lt {r : Nat} (hr : r ∈ h.done) : r < h.taken :=
  (ho.mem r).mp (List.mem_append_right _ (List.mem_of_mem_take hr))

theorem done_nodup : h.done.Nodup :=
  (List.nodup_append.mp ho.nodup).2.1.sublist (List.take_sublist _ _)

theorem done_length : h.done.length = h.processed := by
  rw [History.done, List.length_take, Nat.min_eq_left ho.processed]

theorem reports_le : h.reports.length ≤ h.taken := by
  have hn := (List.nodup_append.mp ho.nodup).2.1
  have hsub : h.reports.toFinset ⊆ Finset.range h.taken := by
    intro r hr
    rw [Finset.mem_range, ← ho.mem r]
    exact List.mem_append_right _ (List.mem_toFinset.mp hr)
  have hle := Finset.card_le_card hsub
  rw [List.toFinset_card_of_nodup hn, Finset.card_range] at hle
  exact hle

/-- The number of requests that are not processed. -/
theorem card_pending :
    (Finset.range h.requests.length \ h.done.toFinset).card = h.requests.length - h.processed := by
  have hsub : h.done.toFinset ⊆ Finset.range h.requests.length := by
    intro r hr
    have := ho.done_lt (List.mem_toFinset.mp hr)
    have := ho.taken
    rw [Finset.mem_range]
    omega
  rw [Finset.card_sdiff_of_subset hsub, Finset.card_range,
    List.toFinset_card_of_nodup ho.done_nodup, ho.done_length]

end History.Ordered

namespace Machine

variable {s s' : Machine τ β} {t : τ} {l : Pc β}

/-- At most two requests are not processed. -/
theorem Tracked.pending_le (h : s.Tracked) :
    s.history.requests.length ≤ s.history.processed + 2 := by
  by_contra hlt
  have hcard : 2 < (Finset.range s.history.requests.length \ s.history.done.toFinset).card := by
    rw [h.ordered.card_pending]
    omega
  obtain ⟨a, ha, b, hb, c, hc, hab, hac, hbc⟩ := Finset.two_lt_card.mp hcard
  have hown : ∀ r ∈ Finset.range s.history.requests.length \ s.history.done.toFinset,
      ∃ t buf x, (s.pc t).request = some (buf, x, r) := by
    intro r hr
    rw [Finset.mem_sdiff, Finset.mem_range, List.mem_toFinset] at hr
    exact h.served.pending r hr.1 hr.2
  have hne : ∀ {t t' : τ} {r r' : Nat} {buf buf' : β} {x x' : Index}, r ≠ r' →
      (s.pc t).request = some (buf, x, r) → (s.pc t').request = some (buf', x', r') → t ≠ t' := by
    rintro t t' r r' buf buf' x x' hr h₁ h₂ rfl
    rw [h₁] at h₂
    cases h₂
    exact hr rfl
  obtain ⟨t₁, b₁, x₁, h₁⟩ := hown a ha
  obtain ⟨t₂, b₂, x₂, h₂⟩ := hown b hb
  obtain ⟨t₃, b₃, x₃, h₃⟩ := hown c hc
  exact h.sound.owned.not_three (Pc.index_of_request h₁) (Pc.index_of_request h₂)
    (Pc.index_of_request h₃) (hne hab h₁ h₂) (hne hac h₁ h₃) (hne hbc h₂ h₃)

/-- What the processes know depends on these. -/
theorem Served.congr (h : s.Served)
    (hbuffers : ∀ t t' buf, (s'.pc t).buffer = some buf → (s'.pc t').buffer = some buf → t = t')
    (hpc : ∀ t, (s'.pc t).sent = (s.pc t).sent ∧ (s'.pc t).request = (s.pc t).request)
    (hinfo : s'.disk.info = s.disk.info) (hflag : s'.flag = s.flag)
    (hrequests : s'.history.requests = s.history.requests)
    (hreports : s'.history.reports = s.history.reports)
    (hdone : s'.history.done = s.history.done) : s'.Served := by
  refine ⟨hbuffers, ?_, ?_, ?_, ?_, ?_, ?_⟩
  · intro t buf op x ht
    rw [(hpc t).1] at ht
    rw [hinfo]
    exact h.info t buf op x ht
  · intro t buf op x ht hr
    rw [(hpc t).1] at ht
    rw [(hpc t).2] at hr
    rw [hflag]
    exact h.raised t buf op x ht hr
  · intro t buf x r ht
    rw [(hpc t).2] at ht
    rw [hrequests]
    exact h.request t buf x r ht
  · intro r hr hd
    rw [hrequests] at hr
    rw [hdone] at hd
    obtain ⟨t, buf, x, ht⟩ := h.pending r hr hd
    exact ⟨t, buf, x, by rw [(hpc t).2, ht]⟩
  · intro t buf x r ht
    rw [(hpc t).2] at ht
    rw [hflag, hdone]
    exact h.flag t buf x r ht
  · intro t buf x r ht hr
    rw [(hpc t).2] at ht
    rw [hreports] at hr
    rw [hinfo]
    exact h.status t buf x r ht hr

theorem Ringed.congr (h : s.Ringed) (havail : s'.disk.avail = s.disk.avail)
    (hused : s'.disk.used = s.disk.used) (hindex : s'.disk.usedIndex = s.disk.usedIndex)
    (hdevice : s'.deviceIndex = s.deviceIndex) (hheads : s'.heads = s.heads)
    (hhistory : s'.history = s.history) : s'.Ringed := by
  constructor
  · rw [havail, hhistory]
    exact h.avail
  · rw [hdevice, hhistory]
    exact h.device
  · rw [hused, hhistory]
    exact h.used
  · rw [hindex, hhistory]
    exact h.usedIndex
  · rw [hheads, hhistory]
    exact h.heads
  · rw [havail, hhistory]
    exact h.slots
  · rw [hused, hhistory]
    exact h.entries

/-- A step that has no part in the protocol with the device. -/
theorem Tracked.congr (h : s.Tracked) (hsound : s'.Sound)
    (hbuffers : ∀ t t' buf, (s'.pc t).buffer = some buf → (s'.pc t').buffer = some buf → t = t')
    (hpc : ∀ t, (s'.pc t).sent = (s.pc t).sent ∧ (s'.pc t).request = (s.pc t).request)
    (hstored : ∀ t buf op x, s'.pc t = .stored buf op x → s.pc t = .stored buf op x)
    (hlock : ∀ t, (s'.pc t).holds = true → s'.lock = some (.process t))
    (hdisk : s'.disk.avail = s.disk.avail ∧ s'.disk.used = s.disk.used ∧
      s'.disk.usedIndex = s.disk.usedIndex ∧ s'.disk.info = s.disk.info)
    (hrest : s'.flag = s.flag ∧ s'.deviceIndex = s.deviceIndex ∧ s'.heads = s.heads ∧
      s'.history = s.history ∧ s'.fault = s.fault)
    (hbody : s'.body = true → s.history.processed < s.history.reports.length) : s'.Tracked := by
  obtain ⟨havail, hused, hindex, hinfo⟩ := hdisk
  obtain ⟨hflag, hdevice, hheads, hhistory, hfault⟩ := hrest
  refine ⟨hsound, by rw [hhistory]; exact h.ordered,
    h.ringed.congr havail hused hindex hdevice hheads hhistory,
    h.served.congr hbuffers hpc hinfo hflag (by rw [hhistory]) (by rw [hhistory])
      (by rw [hhistory]), hlock, ?_, ?_, by rw [hfault, h.fault]⟩
  · intro t buf op x ht
    rw [havail, hhistory]
    exact h.stored t buf op x (hstored t buf op x ht)
  · rw [hhistory]
    exact hbody

/-! ### Steps of processes -/

variable [DecidableEq τ]

/-- What is known of a process after a step of one process. -/
theorem update_cases {α : Type} {f : Pc β → α} {a : α} {t' : τ}
    (h : f (Function.update s.pc t l t') = a) :
    t' = t ∧ f l = a ∨ t' ≠ t ∧ f (s.pc t') = a := by
  by_cases he : t' = t
  · rw [he, Function.update_self] at h
    exact .inl ⟨he, h⟩
  · rw [Function.update_of_ne he] at h
    exact .inr ⟨he, h⟩

theorem Served.buffers_update (h : s.Served)
    (hl : ∀ t' buf, l.buffer = some buf → (s.pc t').buffer = some buf → t' = t) (t₁ t₂ : τ)
    (buf : β) (h₁ : (Function.update s.pc t l t₁).buffer = some buf)
    (h₂ : (Function.update s.pc t l t₂).buffer = some buf) : t₁ = t₂ := by
  rcases update_cases h₁ with ⟨he₁, h₁⟩ | ⟨-, h₁⟩
  · rcases update_cases h₂ with ⟨he₂, -⟩ | ⟨-, h₂⟩
    · rw [he₁, he₂]
    · rw [he₁, hl t₂ buf h₁ h₂]
  · rcases update_cases h₂ with ⟨he₂, h₂⟩ | ⟨-, h₂⟩
    · rw [he₂, hl t₁ buf h₂ h₁]
    · exact h.buffers t₁ t₂ buf h₁ h₂

omit [DecidableEq τ] in
/-- A process that goes on with its buffer. -/
theorem Served.same_buffer (h : s.Served) (hl : l.buffer = (s.pc t).buffer) (t' : τ) (buf : β)
    (hb : l.buffer = some buf) (ht' : (s.pc t').buffer = some buf) : t' = t :=
  h.buffers t' t buf ht' (hl.symm.trans hb)

/-- A step of a process that has no part in the protocol with the device. -/
theorem Tracked.move (h : s.Tracked) (hsound : s'.Sound) (hpc : s'.pc = Function.update s.pc t l)
    (hbuffer : ∀ t' buf, l.buffer = some buf → (s.pc t').buffer = some buf → t' = t)
    (hsent : l.sent = (s.pc t).sent) (hrequest : l.request = (s.pc t).request)
    (hstored : ∀ buf op x, l ≠ .stored buf op x)
    (hlock : ∀ t', (s'.pc t').holds = true → s'.lock = some (.process t'))
    (hdisk : s'.disk.avail = s.disk.avail ∧ s'.disk.used = s.disk.used ∧
      s'.disk.usedIndex = s.disk.usedIndex ∧ s'.disk.info = s.disk.info)
    (hrest : s'.flag = s.flag ∧ s'.deviceIndex = s.deviceIndex ∧ s'.heads = s.heads ∧
      s'.history = s.history ∧ s'.fault = s.fault)
    (hbody : s'.body = s.body) : s'.Tracked := by
  refine h.congr hsound ?_ ?_ ?_ hlock hdisk hrest (by rw [hbody]; exact h.body)
  · rw [hpc]
    exact h.served.buffers_update hbuffer
  · intro t'
    rw [hpc]
    exact ⟨update_same Pc.sent hsent t', update_same Pc.request hrequest t'⟩
  · intro t' buf op x ht'
    rw [hpc] at ht'
    rcases update_cases (f := id) ht' with ⟨-, hl⟩ | ⟨-, hl⟩
    · exact absurd hl (hstored buf op x)
    · exact hl

omit [DecidableEq τ] in
/-- Only the process that holds the mutex takes steps under it. -/
theorem Tracked.alone (h : s.Tracked) (ht : (s.pc t).holds = true) {t' : τ}
    (ht' : (s.pc t').holds = true) : t' = t := by
  have h₁ := h.lock t ht
  rw [h.lock t' ht'] at h₁
  cases h₁
  rfl

/-- The process that holds the mutex keeps it. -/
theorem Tracked.keep (h : s.Tracked) (ht : (s.pc t).holds = true) (t' : τ)
    (ht' : (Function.update s.pc t l t').holds = true) : s.lock = some (.process t') := by
  rcases update_cases ht' with ⟨rfl, -⟩ | ⟨hne, ht'⟩
  · exact h.lock t' ht
  · exact absurd (h.alone ht ht') hne

/-- The process that holds the mutex gives it back. -/
theorem Tracked.leave (h : s.Tracked) (ht : (s.pc t).holds = true) (hl : l.holds = false) (t' : τ)
    (ht' : (Function.update s.pc t l t').holds = true) : False := by
  rcases update_cases ht' with ⟨-, htrue⟩ | ⟨hne, ht'⟩
  · rw [hl] at htrue
    cases htrue
  · exact hne (h.alone ht ht')

/-- Only the process that holds the mutex has stored a head. -/
theorem Tracked.stored_update (h : s.Tracked) (ht : (s.pc t).holds = true) {t' : τ} {buf : β}
    {op : Transfer} {x : Index} (ht' : Function.update s.pc t l t' = .stored buf op x) :
    t' = t ∧ l = .stored buf op x := by
  rcases update_cases (f := id) ht' with hl | ⟨hne, ht'⟩
  · exact hl
  · have hstored : s.pc t' = .stored buf op x := ht'
    exact absurd (h.alone ht (by rw [hstored]; rfl)) hne

theorem Tracked.acquire (h : s.Tracked) (hbuffer : l.buffer = (s.pc t).buffer)
    (hsent : l.sent = (s.pc t).sent) (hrequest : l.request = (s.pc t).request)
    (hindex : l.index = (s.pc t).index) (hstored : ∀ buf op x, l ≠ .stored buf op x)
    (hs : s.acquire t l = some s') : s'.Tracked := by
  have hsound := h.sound.acquire hindex hsent hs
  unfold Machine.acquire at hs
  split at hs
  · next hfree =>
    cases hs
    refine h.move hsound rfl (h.served.same_buffer hbuffer) hsent hrequest hstored
      (fun t' ht' ↦ ?_) ⟨rfl, rfl, rfl, rfl⟩ ⟨rfl, rfl, rfl, rfl, rfl⟩ rfl
    rcases update_cases ht' with ⟨rfl, -⟩ | ⟨-, ht'⟩
    · rfl
    · have := h.lock t' ht'
      rw [hfree] at this
      cases this
  · cases hs

theorem Tracked.allocate (h : s.Tracked) {buf : β} {op : Transfer}
    (hpc : s.pc t = .allocating buf op) : (s.allocate t buf op).Tracked := by
  have hsound := h.sound.allocate hpc
  have hholds : (s.pc t).holds = true := by rw [hpc]; rfl
  rcases Disk.allocateFrom_three h.sound.owned.two_le with ⟨x, hn, hfree, hd⟩ | ⟨i, j, -, -, -, hd⟩
  · have hs : s.allocate t buf op =
        { s with disk := s.disk.without x.toList }.goto t (.allocated buf op x) := by
      rw [Machine.allocate, hd]
      rfl
    rw [hs] at hsound ⊢
    exact h.move hsound rfl (h.served.same_buffer (by rw [hpc]; rfl)) (by rw [hpc]; rfl)
      (by rw [hpc]; rfl) (fun _ _ _ ↦ by simp) (h.keep hholds) ⟨rfl, rfl, rfl, rfl⟩
      ⟨rfl, rfl, rfl, rfl, rfl⟩ rfl
  · have hs : s.allocate t buf op =
        { s with disk := (s.disk.without [i, j]).freed [i, j] }.release t (.entering buf op) := by
      rw [Machine.allocate, hd]
    rw [hs] at hsound ⊢
    exact h.move hsound rfl (h.served.same_buffer (by rw [hpc]; rfl)) (by rw [hpc]; rfl)
      (by rw [hpc]; rfl) (fun _ _ _ ↦ by simp) (fun t' ht' ↦ (h.leave hholds rfl t' ht').elim)
      ⟨rfl, rfl, rfl, rfl⟩ ⟨rfl, rfl, rfl, rfl, rfl⟩ rfl

omit [DecidableEq τ] in
/-- The chains of two processes have different heads. -/
theorem Tracked.head_ne (h : s.Tracked) {t' : τ} {x x' : Index} (hx : (s.pc t).index = some x)
    (hx' : (s.pc t').index = some x') (hne : t' ≠ t) : x'.head ≠ x.head := by
  intro he
  apply hne
  apply h.sound.owned.apart t' t x' x hx' hx x.head
  · rw [← he]
    exact List.mem_cons_self
  · exact List.mem_cons_self

/-- Filling in the descriptors. -/
theorem Tracked.prepare [DecidableEq β] (h : s.Tracked) {buf : β} {op : Transfer} {x : Index}
    (hpc : s.pc t = .allocated buf op x) :
    ({ s with
      disk := s.disk.prepare buf op x
      flag := Function.update s.flag buf true }.goto t (.prepared buf op x)).Tracked := by
  have hholds : (s.pc t).holds = true := by rw [hpc]; rfl
  have hindex : (s.pc t).index = some x := by rw [hpc]; rfl
  have hbuf : (s.pc t).buffer = some buf := by rw [hpc]; rfl
  have hnone : (s.pc t).request = none := by rw [hpc]; rfl
  have hother : ∀ {t' buf'}, t' ≠ t → (s.pc t').buffer = some buf' →
      Function.update s.flag buf true buf' = s.flag buf' := by
    intro t' buf' hne ht'
    rw [Function.update_of_ne]
    rintro rfl
    exact hne (h.served.buffers t' t buf' ht' hbuf)
  have hrequest : ∀ {t' q}, (Function.update s.pc t (Pc.prepared buf op x) t').request = some q →
      t' ≠ t ∧ (s.pc t').request = some q := by
    intro t' q ht'
    rcases update_cases ht' with ⟨-, hl⟩ | hold
    · cases hl
    · exact hold
  refine ⟨h.sound.prepare hpc, h.ordered, h.ringed.congr rfl rfl rfl rfl rfl rfl,
    ⟨h.served.buffers_update (h.served.same_buffer hbuf.symm), ?_, ?_, ?_, ?_, ?_, ?_⟩,
    h.keep hholds, ?_, h.body, h.fault⟩
  · intro t' buf' op' x' ht'
    rcases update_cases ht' with ⟨-, hl⟩ | ⟨hne, ht'⟩
    · cases hl
      simp [goto, Disk.prepare]
    · have hhead := h.head_ne hindex (Pc.index_of_sent ht') hne
      simp only [goto, Disk.prepare, Function.update_of_ne hhead]
      exact h.served.info t' buf' op' x' ht'
  · intro t' buf' op' x' ht' hr'
    rcases update_cases ht' with ⟨-, hl⟩ | ⟨hne, ht'⟩
    · cases hl
      exact Function.update_self ..
    · rcases update_cases hr' with ⟨he, -⟩ | ⟨-, hr'⟩
      · exact absurd he hne
      · exact (hother hne (Pc.buffer_of_sent ht')).trans
          (h.served.raised t' buf' op' x' ht' hr')
  · intro t' buf' x' r ht'
    exact h.served.request t' buf' x' r (hrequest ht').2
  · intro r hr hd
    obtain ⟨t', buf', x', ht'⟩ := h.served.pending r hr hd
    exact ⟨t', buf', x', (update_same (l := .prepared buf op x) Pc.request hnone.symm t').trans ht'⟩
  · intro t' buf' x' r ht'
    obtain ⟨hne, ht'⟩ := hrequest ht'
    obtain ⟨op', hs⟩ := Pc.sent_of_request ht'
    change Function.update s.flag buf true buf' = true ↔ _
    rw [hother hne (Pc.buffer_of_sent hs)]
    exact h.served.flag t' buf' x' r ht'
  · intro t' buf' x' r ht' hr
    obtain ⟨hne, ht'⟩ := hrequest ht'
    have hhead := h.head_ne hindex (Pc.index_of_request ht') hne
    simp only [goto, Disk.prepare, Function.update_of_ne hhead]
    exact h.served.status t' buf' x' r ht' hr
  · intro t' buf' op' x' ht'
    cases (h.stored_update hholds ht').2

omit [DecidableEq τ] in
/-- The avail ring has a free slot. -/
theorem Tracked.room (h : s.Tracked) :
    s.history.requests.length < s.history.taken + NUM_DESCS := by
  have h₁ := h.pending_le
  have h₂ := h.ordered.processed
  have h₃ := h.ordered.reports_le
  change _ < _ + 8
  omega

/-- The head goes to a slot that the device has taken. -/
theorem Tracked.storeHead (h : s.Tracked) {buf : β} {op : Transfer} {x : Index}
    (hpc : s.pc t = .prepared buf op x) :
    ({ s with disk := s.disk.storeHead x }.goto t (.stored buf op x)).Tracked := by
  have hholds : (s.pc t).holds = true := by rw [hpc]; rfl
  have hslot : slot s.disk.avail.index = place NUM_DESCS s.history.requests.length := by
    rw [h.ringed.avail, slot_ofNat]
  refine ⟨h.sound.congr rfl rfl rfl (update_same Pc.index (by rw [hpc]; rfl))
      (update_same Pc.sent (by rw [hpc]; rfl)) h.sound.fault, h.ordered,
    ⟨h.ringed.avail, h.ringed.device, h.ringed.used, h.ringed.usedIndex, h.ringed.heads, ?_,
      h.ringed.entries⟩,
    h.served.congr (h.served.buffers_update (h.served.same_buffer (by rw [hpc]; rfl)))
      (fun t' ↦ ⟨update_same Pc.sent (by rw [hpc]; rfl) t',
        update_same Pc.request (by rw [hpc]; rfl) t'⟩) rfl rfl rfl rfl rfl,
    h.keep hholds, ?_, h.body, h.fault⟩
  · change Holds (Function.update s.disk.avail.ring (slot s.disk.avail.index) _) _ _ _
    rw [hslot]
    exact h.ringed.slots.store h.room _
  · intro t' buf' op' x' ht'
    cases (h.stored_update hholds ht').2
    change Function.update s.disk.avail.ring (slot s.disk.avail.index) _ _ = _
    rw [hslot]
    exact Function.update_self ..

omit [DecidableEq τ] in
theorem headOf_append {h : History τ β} {q : Request τ β} {r : Nat} (hr : r < h.requests.length) :
    History.headOf { h with requests := h.requests ++ [q] } r = h.headOf r := by
  rw [History.headOf, History.headOf, List.getElem?_append_left hr]

/-- The request is published. -/
theorem Tracked.publish (h : s.Tracked) {buf : β} {op : Transfer} {x : Index}
    (hpc : s.pc t = .stored buf op x) :
    ({ s with
      disk := s.disk.publish
      history := { s.history with
        requests := s.history.requests ++ [Request.mk t buf x.head] } }.goto t
          (.testing buf op x s.history.requests.length)).Tracked := by
  have hholds : (s.pc t).holds = true := by rw [hpc]; rfl
  have hbuf : (s.pc t).buffer = some buf := by rw [hpc]; rfl
  have hsent : (s.pc t).sent = some (buf, op, x) := by rw [hpc]; rfl
  have hnone : (s.pc t).request = none := by rw [hpc]; rfl
  have htaken := h.ordered.taken
  have hlen : (s.history.requests ++ [Request.mk t buf x.head]).length =
      s.history.requests.length + 1 := by simp
  have hnew : s.history.requests.length ∉ s.history.inside ++ s.history.reports := by
    rw [h.ordered.mem]
    omega
  refine ⟨h.sound.congr rfl rfl rfl (update_same Pc.index (by rw [hpc]; rfl))
      (update_same Pc.sent (by rw [hpc]; rfl)) h.sound.fault,
    ⟨?_, h.ordered.processed, h.ordered.nodup, h.ordered.mem⟩,
    ⟨?_, h.ringed.device, h.ringed.used, h.ringed.usedIndex, ?_, ?_, ?_⟩,
    ⟨h.served.buffers_update (h.served.same_buffer hbuf.symm), ?_, ?_, ?_, ?_, ?_, ?_⟩,
    h.keep hholds, ?_, h.body, h.fault⟩
  · change s.history.taken ≤ (s.history.requests ++ _).length
    omega
  · change s.disk.avail.index + 1 = UInt16.ofNat (s.history.requests ++ _).length
    rw [hlen, h.ringed.avail, UInt16.ofNat_add]
    rfl
  · change s.heads = s.history.inside.map _
    rw [h.ringed.heads]
    apply List.map_congr_left
    intro r hr
    have := (h.ordered.mem r).mp (List.mem_append_left _ hr)
    exact (headOf_append (by omega)).symm
  · change Holds s.disk.avail.ring _ (s.history.requests ++ _).length _
    rw [hlen]
    apply Holds.extend
    · exact h.ringed.slots.congr fun r _ hr ↦ headOf_append hr
    · rw [h.stored t buf op x hpc, History.headOf]
      simp [goto]
  · apply h.ringed.entries.congr
    intro k _ hk
    have hmem : s.history.reports.getD k 0 ∈ s.history.reports := by
      rw [List.getD_eq_getElem _ _ hk]
      exact List.getElem_mem hk
    have hlt : s.history.reports.getD k 0 < s.history.requests.length := by
      have := (h.ordered.mem _).mp (List.mem_append_right _ hmem)
      omega
    exact congrArg UInt16.toUInt32 (headOf_append hlt)
  · intro t' buf' op' x' ht'
    rcases update_cases ht' with ⟨he, hl⟩ | ⟨-, ht'⟩
    · cases hl
      exact h.served.info t buf op x hsent
    · exact h.served.info t' buf' op' x' ht'
  · intro t' buf' op' x' ht' hr'
    rcases update_cases hr' with ⟨-, hl⟩ | ⟨hne, hr'⟩
    · cases hl
    · rcases update_cases ht' with ⟨he, -⟩ | ⟨-, ht'⟩
      · exact absurd he hne
      · exact h.served.raised t' buf' op' x' ht' hr'
  · intro t' buf' x' r ht'
    change (s.history.requests ++ _)[r]? = _
    rcases update_cases ht' with ⟨he, hl⟩ | ⟨-, ht'⟩
    · cases hl
      rw [he, List.getElem?_concat_length]
    · have hold := h.served.request t' buf' x' r ht'
      rw [List.getElem?_append_left (List.getElem?_eq_some_iff.mp hold).1, hold]
  · intro r hr hd
    change r < (s.history.requests ++ _).length at hr
    by_cases he : r = s.history.requests.length
    · subst he
      exact ⟨t, buf, x, congrArg Pc.request (Function.update_self t _ s.pc)⟩
    · obtain ⟨t', buf', x', ht'⟩ := h.served.pending r (by omega) hd
      have hne : t' ≠ t := by
        rintro rfl
        rw [hnone] at ht'
        cases ht'
      exact ⟨t', buf', x', (congrArg Pc.request (Function.update_of_ne hne _ _)).trans ht'⟩
  · intro t' buf' x' r ht'
    rcases update_cases ht' with ⟨-, hl⟩ | ⟨-, ht'⟩
    · cases hl
      refine iff_of_true (h.served.raised t buf op x hsent hnone) fun hd ↦ hnew ?_
      exact List.mem_append_right _ (List.mem_of_mem_take hd)
    · exact h.served.flag t' buf' x' r ht'
  · intro t' buf' x' r ht' hr
    rcases update_cases ht' with ⟨-, hl⟩ | ⟨-, ht'⟩
    · cases hl
      exact absurd (List.mem_append_right _ hr) hnew
    · exact h.served.status t' buf' x' r ht' hr
  · intro t' buf' op' x' ht'
    cases (h.stored_update hholds ht').2

/-- A process returns once its flag is down. -/
theorem Tracked.finish (h : s.Tracked) {buf : β} {op : Transfer} {x : Index} {r : Nat} {d : Disk β}
    (hpc : s.pc t = .testing buf op x r) (hflag : s.flag buf = false)
    (hd : s.disk.finish x = .ok d) : ({ s with disk := d }.release t .outside).Tracked := by
  have hholds : (s.pc t).holds = true := by rw [hpc]; rfl
  have hindex : (s.pc t).index = some x := by rw [hpc]; rfl
  have hrequest : (s.pc t).request = some (buf, x, r) := by rw [hpc]; rfl
  obtain ⟨d', hd', -, -, -, havail, hused, husedIndex, hinfo⟩ := h.sound.finish hpc
  cases hd.symm.trans hd'
  have hother : ∀ {t' x'}, t' ≠ t → (s.pc t').index = some x' →
      d.info x'.head = s.disk.info x'.head := by
    intro t' x' hne hx'
    rw [hinfo, Function.update_of_ne (h.head_ne hindex hx' hne)]
  refine ⟨h.sound.leave hpc hd, h.ordered, h.ringed.congr havail hused husedIndex rfl rfl rfl,
    ⟨h.served.buffers_update (fun _ _ hb ↦ by cases hb), ?_, ?_, ?_, ?_, ?_, ?_⟩,
    fun t' ht' ↦ (h.leave hholds rfl t' ht').elim, ?_, h.body, h.fault⟩
  · intro t' buf' op' x' ht'
    rcases update_cases ht' with ⟨-, hl⟩ | ⟨hne, ht'⟩
    · cases hl
    · change (d.info x'.head).buffer = _
      rw [hother hne (Pc.index_of_sent ht')]
      exact h.served.info t' buf' op' x' ht'
  · intro t' buf' op' x' ht' hr'
    rcases update_cases ht' with ⟨-, hl⟩ | ⟨hne, ht'⟩
    · cases hl
    · rcases update_cases hr' with ⟨he, -⟩ | ⟨-, hr'⟩
      · exact absurd he hne
      · exact h.served.raised t' buf' op' x' ht' hr'
  · intro t' buf' x' r' ht'
    rcases update_cases ht' with ⟨-, hl⟩ | ⟨-, ht'⟩
    · cases hl
    · exact h.served.request t' buf' x' r' ht'
  · intro r' hr' hdone
    obtain ⟨t', buf', x', ht'⟩ := h.served.pending r' hr' hdone
    have hne : t' ≠ t := by
      rintro rfl
      rw [hrequest] at ht'
      cases ht'
      have hup := (h.served.flag t' buf x r hrequest).mpr hdone
      rw [hflag] at hup
      cases hup
    exact ⟨t', buf', x', (congrArg Pc.request (Function.update_of_ne hne _ _)).trans ht'⟩
  · intro t' buf' x' r' ht'
    rcases update_cases ht' with ⟨-, hl⟩ | ⟨-, ht'⟩
    · cases hl
    · exact h.served.flag t' buf' x' r' ht'
  · intro t' buf' x' r' ht' hr'
    rcases update_cases ht' with ⟨-, hl⟩ | ⟨hne, ht'⟩
    · cases hl
    · change (d.info x'.head).status = _
      rw [hother hne (Pc.index_of_request ht')]
      exact h.served.status t' buf' x' r' ht' hr'
  · intro t' buf' op' x' ht'
    cases (h.stored_update hholds ht').2

variable [DecidableEq β]

/-- What a step of a process does. -/
theorem Tracked.go (h : s.Tracked) (hs : s.go t = some s') : s'.Tracked := by
  unfold Machine.go at hs
  cases hpc : s.pc t with
  | outside =>
    rw [hpc] at hs
    cases hs
  | entering buf op =>
    rw [hpc] at hs
    exact h.acquire (by rw [hpc]; rfl) (by rw [hpc]; rfl) (by rw [hpc]; rfl) (by rw [hpc]; rfl)
      (fun _ _ _ ↦ by simp) hs
  | allocating buf op =>
    rw [hpc] at hs
    cases hs
    exact h.allocate hpc
  | allocated buf op x =>
    rw [hpc] at hs
    cases hs
    exact h.prepare hpc
  | prepared buf op x =>
    rw [hpc] at hs
    cases hs
    exact h.storeHead hpc
  | stored buf op x =>
    rw [hpc] at hs
    cases hs
    exact h.publish hpc
  | waiting buf op x r =>
    rw [hpc] at hs
    exact h.acquire (by rw [hpc]; rfl) (by rw [hpc]; rfl) (by rw [hpc]; rfl) (by rw [hpc]; rfl)
      (fun _ _ _ ↦ by simp) hs
  | testing buf op x r =>
    have hholds : (s.pc t).holds = true := by rw [hpc]; rfl
    rw [hpc] at hs
    dsimp only at hs
    split at hs
    · cases hs
      have hsound : (s.release t (.waiting buf op x r)).Sound :=
        h.sound.congr rfl rfl rfl (update_same Pc.index (by rw [hpc]; rfl))
          (update_same Pc.sent (by rw [hpc]; rfl)) h.sound.fault
      exact h.move hsound rfl (h.served.same_buffer (by rw [hpc]; rfl)) (by rw [hpc]; rfl)
        (by rw [hpc]; rfl) (fun _ _ _ ↦ by simp) (fun t' ht' ↦ (h.leave hholds rfl t' ht').elim)
        ⟨rfl, rfl, rfl, rfl⟩ ⟨rfl, rfl, rfl, rfl, rfl⟩ rfl
    · next hflag =>
      obtain ⟨d, hd, -⟩ := h.sound.finish hpc
      rw [hd] at hs
      cases hs
      exact h.finish hpc (by simpa using hflag) hd

omit [DecidableEq β] in
/-- A call on a buffer that no other process has in `diskrw`. -/
theorem Tracked.call (h : s.Tracked) {buf : β} {op : Transfer} (hpc : s.pc t = .outside)
    (hbuf : ∀ t', (s.pc t').buffer ≠ some buf) : (s.goto t (.entering buf op)).Tracked := by
  have hsound : (s.goto t (.entering buf op)).Sound :=
    h.sound.congr rfl rfl rfl (update_same Pc.index (by rw [hpc]; rfl))
      (update_same Pc.sent (by rw [hpc]; rfl)) h.sound.fault
  refine h.move hsound rfl ?_ (by rw [hpc]; rfl) (by rw [hpc]; rfl) (fun _ _ _ ↦ by simp) ?_
    ⟨rfl, rfl, rfl, rfl⟩ ⟨rfl, rfl, rfl, rfl, rfl⟩ rfl
  · intro t' buf' hb ht'
    cases hb
    exact absurd ht' (hbuf t')
  · intro t' ht'
    rcases update_cases ht' with ⟨-, hl⟩ | ⟨-, ht'⟩
    · cases hl
    · exact h.lock t' ht'

/-! ### Steps of the handler -/

omit [DecidableEq τ] [DecidableEq β] in
/-- A step of the handler that only changes the mutex or `body`. -/
theorem Tracked.guard (h : s.Tracked) (lock : Option (Holder τ)) (body : Bool)
    (hfree : ∀ t, s.lock ≠ some (.process t))
    (hbody : body = true → s.history.processed < s.history.reports.length) :
    { s with lock := lock, body := body }.Tracked :=
  h.congr (h.sound.congr rfl rfl rfl (fun _ ↦ rfl) (fun _ ↦ rfl) h.sound.fault)
    h.served.buffers (fun _ ↦ ⟨rfl, rfl⟩) (fun _ _ _ _ ht ↦ ht)
    (fun t ht ↦ absurd (h.lock t ht) (hfree t)) ⟨rfl, rfl, rfl, rfl⟩ ⟨rfl, rfl, rfl, rfl, rfl⟩ hbody

omit [DecidableEq τ] [DecidableEq β] in
/-- A request that is not processed has its process, its chain and its head. -/
theorem Tracked.owner (h : s.Tracked) {r : Nat} (hr : r < s.history.taken)
    (hdone : r ∉ s.history.done) :
    ∃ t buf x, (s.pc t).request = some (buf, x, r) ∧
      s.history.requests[r]? = some ⟨t, buf, x.head⟩ ∧
        s.history.headOf r = x.head.val.toUInt16 := by
  have htaken := h.ordered.taken
  obtain ⟨t, buf, x, ht⟩ := h.served.pending r (by omega) hdone
  have hq := h.served.request t buf x r ht
  refine ⟨t, buf, x, ht, hq, ?_⟩
  rw [History.headOf, hq]
  rfl

omit [DecidableEq τ] [DecidableEq β] in
/-- The indices are equal only if the numbers are. -/
theorem ofNat_ne {m n : Nat} (h : UInt16.ofNat m ≠ UInt16.ofNat n) : m ≠ n := fun he ↦ h (he ▸ rfl)

omit [DecidableEq τ] in
/-- What the handler does with an entry of the used ring. -/
theorem Tracked.process_eq (h : s.Tracked) (hbody : s.body = true) :
    ∃ r t buf x, s.history.reports[s.history.processed]? = some r ∧ r ∉ s.history.done ∧
      (s.pc t).request = some (buf, x, r) ∧ s.history.requests[r]? = some ⟨t, buf, x.head⟩ ∧
      (s.disk.used.ring (slot s.disk.usedIndex)).toNat = x.head.val ∧
      (s.disk.info x.head).buffer = some buf ∧
      s.process = { s with
        disk := { s.disk with usedIndex := s.disk.usedIndex + 1 }
        flag := Function.update s.flag buf false
        body := false
        history := { s.history with processed := s.history.processed + 1 } } := by
  have hlt := h.body hbody
  have hget : s.history.reports[s.history.processed]? =
      some s.history.reports[s.history.processed] := List.getElem?_eq_getElem hlt
  have hmem : s.history.reports[s.history.processed] ∈ s.history.reports := List.getElem_mem hlt
  have hdone : s.history.reports[s.history.processed] ∉ s.history.done := by
    intro hd
    obtain ⟨i, hi, he⟩ := List.mem_take_iff_getElem.mp hd
    have hn := (List.nodup_append.mp h.ordered.nodup).2.1
    have := (hn.getElem_inj_iff).mp he
    omega
  obtain ⟨t, buf, x, ht, hq, hhead⟩ := h.owner
    ((h.ordered.mem _).mp (List.mem_append_right _ hmem)) hdone
  obtain ⟨op, hsent⟩ := Pc.sent_of_request ht
  have hring : (s.disk.used.ring (slot s.disk.usedIndex)).toNat = x.head.val := by
    have hentry := h.ringed.entries _ le_rfl hlt
    dsimp only at hentry
    rw [h.ringed.usedIndex, slot_ofNat, hentry, List.getD_eq_getElem _ _ hlt, hhead,
      UInt16.toNat_toUInt32, Disk.toUInt16_toNat]
  have hinfo := h.served.info t buf op x hsent
  refine ⟨_, t, buf, x, hget, hdone, ht, hq, hring, hinfo, ?_⟩
  have hfin : ∀ hi, (⟨(s.disk.used.ring (slot s.disk.usedIndex)).toNat, hi⟩ : Fin NUM_DESCS) =
      x.head := fun hi ↦ Fin.ext hring
  rw [Machine.process, dif_pos (by rw [hring]; exact x.head.isLt), hfin,
    h.served.status t buf x _ ht hmem, if_neg (by simp), hinfo]

omit [DecidableEq τ] in
/-- The handler processes the next report. -/
theorem Tracked.process (h : s.Tracked) (hbody : s.body = true) : s.process.Tracked := by
  obtain ⟨r, t, buf, x, hget, hdone, ht, hq, -, -, heq⟩ := h.process_eq hbody
  obtain ⟨op, hsent⟩ := Pc.sent_of_request ht
  have hbuf := Pc.buffer_of_sent hsent
  have hlt := h.body hbody
  have hd : s.history.reports.take (s.history.processed + 1) = s.history.done ++ [r] := by
    rw [List.take_add_one, hget]
    rfl
  have hother : ∀ {t' buf'}, t' ≠ t → (s.pc t').buffer = some buf' → buf' ≠ buf := by
    rintro t' buf' hne ht' rfl
    exact hne (h.served.buffers t' t buf' ht' hbuf)
  rw [heq]
  refine ⟨h.sound.congr rfl rfl rfl (fun _ ↦ rfl) (fun _ ↦ rfl) h.sound.fault,
    ⟨h.ordered.taken, hlt, h.ordered.nodup, h.ordered.mem⟩,
    ⟨h.ringed.avail, h.ringed.device, h.ringed.used, ?_, h.ringed.heads, h.ringed.slots,
      h.ringed.entries.drop⟩,
    ⟨h.served.buffers, h.served.info, ?_, h.served.request, ?_, ?_, h.served.status⟩, h.lock,
    h.stored, fun hb ↦ (by cases hb), h.fault⟩
  · change s.disk.usedIndex + 1 = UInt16.ofNat (s.history.processed + 1)
    rw [h.ringed.usedIndex, UInt16.ofNat_add]
    rfl
  · intro t' buf' op' x' ht' hr'
    have hne : t' ≠ t := by
      rintro rfl
      rw [ht] at hr'
      cases hr'
    change Function.update s.flag buf false buf' = true
    rw [Function.update_of_ne (hother hne (Pc.buffer_of_sent ht'))]
    exact h.served.raised t' buf' op' x' ht' hr'
  · intro r' hr' hnot
    change r' ∉ s.history.reports.take (s.history.processed + 1) at hnot
    rw [hd, List.mem_append, not_or] at hnot
    exact h.served.pending r' hr' hnot.1
  · intro t' buf' x' r' ht'
    change Function.update s.flag buf false buf' = true ↔
      r' ∉ s.history.reports.take (s.history.processed + 1)
    rw [hd, List.mem_append, List.mem_singleton, not_or]
    by_cases he : t' = t
    · subst he
      rw [ht] at ht'
      cases ht'
      simp
    · obtain ⟨op', hsent'⟩ := Pc.sent_of_request ht'
      have hne : r' ≠ r := by
        rintro rfl
        have := h.served.request t' buf' x' r' ht'
        rw [hq] at this
        exact he (congrArg Request.process (Option.some.inj this)).symm
      rw [Function.update_of_ne (hother he (Pc.buffer_of_sent hsent'))]
      simp only [hne, not_false_eq_true, and_true]
      exact h.served.flag t' buf' x' r' ht'

omit [DecidableEq τ] [DecidableEq β] in
/-- The number of reports that are not processed. -/
theorem Tracked.reports_le (h : s.Tracked) :
    s.history.reports.length ≤ s.history.processed + 2 := by
  have h₁ := h.pending_le
  have h₂ := h.ordered.taken
  have h₃ := h.ordered.reports_le
  omega

omit [DecidableEq τ] [DecidableEq β] in
/-- The handler leaves its loop only if all reports are processed. -/
theorem Tracked.usedIndex_eq (h : s.Tracked) (he : s.disk.usedIndex = s.disk.used.index) :
    s.history.processed = s.history.reports.length := by
  have hmod : s.history.processed % 2 ^ 16 = s.history.reports.length % 2 ^ 16 := by
    rw [h.ringed.usedIndex, h.ringed.used] at he
    have := congrArg UInt16.toNat he
    rwa [UInt16.toNat_ofNat', UInt16.toNat_ofNat'] at this
  have h₁ := h.ordered.processed
  have h₂ := h.reports_le
  omega

theorem Tracked.handle (h : s.Tracked) (hs : s.handle = some s') : s'.Tracked := by
  unfold Machine.handle at hs
  split at hs
  · next hlock =>
    have hfree : ∀ t, s.lock ≠ some (.process t) := by
      intro t ht
      rw [hlock] at ht
      cases ht
    split at hs
    · next hbody =>
      cases hs
      exact h.process hbody
    · next hbody =>
      split at hs
      · next hne =>
        cases hs
        rw [h.ringed.usedIndex, h.ringed.used] at hne
        have hlt := lt_of_le_of_ne h.ordered.processed (ofNat_ne hne)
        exact h.guard s.lock true hfree fun _ ↦ hlt
      · cases hs
        exact h.guard none s.body hfree h.body
  · cases hs

/-! ### Steps of the device -/

omit [DecidableEq τ] [DecidableEq β] in
/-- The device takes the next head. -/
theorem Tracked.take (h : s.Tracked) (hs : s.take = some s') : s'.Tracked := by
  unfold Machine.take at hs
  split at hs
  · next hne =>
    cases hs
    rw [h.ringed.device, h.ringed.avail] at hne
    have hlt := lt_of_le_of_ne h.ordered.taken (ofNat_ne hne)
    refine ⟨h.sound.congr rfl rfl rfl (fun _ ↦ rfl) (fun _ ↦ rfl) h.sound.fault,
      ⟨hlt, h.ordered.processed, ?_, ?_⟩,
      ⟨h.ringed.avail, ?_, h.ringed.used, h.ringed.usedIndex, ?_, h.ringed.slots.drop,
        h.ringed.entries⟩,
      h.served.congr h.served.buffers (fun _ ↦ ⟨rfl, rfl⟩) rfl rfl rfl rfl rfl, h.lock, h.stored,
      h.body, h.fault⟩
    · change (s.history.inside ++ [s.history.taken] ++ s.history.reports).Nodup
      have hnew : s.history.taken ∉ s.history.inside ++ s.history.reports := by
        rw [h.ordered.mem]
        omega
      rw [List.append_assoc, List.singleton_append]
      exact List.nodup_middle.mpr (List.nodup_cons.mpr ⟨hnew, h.ordered.nodup⟩)
    · intro r
      have hmem := h.ordered.mem r
      change r ∈ s.history.inside ++ [s.history.taken] ++ s.history.reports ↔
        r < s.history.taken + 1
      simp only [List.mem_append, List.mem_singleton] at hmem ⊢
      rw [or_right_comm, hmem]
      omega
    · change s.deviceIndex + 1 = UInt16.ofNat (s.history.taken + 1)
      rw [h.ringed.device, UInt16.ofNat_add]
      rfl
    · change s.heads ++ [s.disk.avail.ring (slot s.deviceIndex)] =
        (s.history.inside ++ [s.history.taken]).map s.history.headOf
      rw [h.ringed.device, slot_ofNat, h.ringed.slots _ le_rfl hlt, h.ringed.heads, List.map_append]
      rfl
  · cases hs

omit [DecidableEq τ] [DecidableEq β] in
/-- The device reports a request that it has taken. -/
theorem Tracked.report (h : s.Tracked) {k : Nat} (hs : s.report k = some s') : s'.Tracked := by
  obtain ⟨head, hhead, rfl⟩ := Option.map_eq_some_iff.mp hs
  rw [h.ringed.heads, List.getElem?_map, Option.map_eq_some_iff] at hhead
  obtain ⟨r, hk, rfl⟩ := hhead
  have hperm : (r :: s.history.inside.eraseIdx k).Perm s.history.inside := by
    obtain ⟨hlt, rfl⟩ := List.getElem?_eq_some_iff.mp hk
    exact List.getElem_cons_eraseIdx_perm hlt
  have hall : (s.history.inside.eraseIdx k ++ (s.history.reports ++ [r])).Perm
      (s.history.inside ++ s.history.reports) := by
    rw [← List.append_assoc]
    refine (List.perm_append_singleton r _).trans ?_
    rw [← List.cons_append]
    exact hperm.append_right _
  have hin : r ∈ s.history.inside := List.mem_of_getElem? hk
  have hnot : r ∉ s.history.reports := fun hr ↦
    (List.nodup_append.mp h.ordered.nodup).2.2 r hin r hr rfl
  have hdone : r ∉ s.history.done := fun hd ↦ hnot (List.mem_of_mem_take hd)
  obtain ⟨t, buf, x, ht, hq, hx⟩ := h.owner
    ((h.ordered.mem r).mp (List.mem_append_left _ hin)) hdone
  obtain ⟨op, hsent⟩ := Pc.sent_of_request ht
  have hlinked := h.sound.linked t buf op x hsent
  have hinfo : (s.disk.report (s.history.headOf r)).info =
      Function.update s.disk.info x.head { s.disk.info x.head with status := 0 } := by
    rw [Disk.report, hx, slot_toUInt16, hlinked.head]
    simp only [slot_toUInt16, hlinked.data, hlinked.status]
  have hslot : slot s.disk.used.index = place NUM_DESCS s.history.reports.length := by
    rw [h.ringed.used, slot_ofNat]
  have hold : ∀ {k}, k < s.history.reports.length →
      (s.history.reports ++ [r]).getD k 0 = s.history.reports.getD k 0 := fun hk ↦
    List.getD_append _ _ _ _ hk
  have htake : (s.history.reports ++ [r]).take s.history.processed = s.history.done :=
    List.take_append_of_le_length h.ordered.processed
  simp only [hk, Option.toList_some]
  refine ⟨h.sound.congr rfl rfl rfl (fun _ ↦ rfl) (fun _ ↦ rfl) h.sound.fault,
    ⟨h.ordered.taken, ?_, ?_, ?_⟩,
    ⟨h.ringed.avail, h.ringed.device, ?_, h.ringed.usedIndex, ?_, h.ringed.slots, ?_⟩,
    ⟨h.served.buffers, ?_, h.served.raised, h.served.request, ?_, ?_, ?_⟩, h.lock, h.stored, ?_,
    h.fault⟩
  · have := h.ordered.processed
    change s.history.processed ≤ (s.history.reports ++ [r]).length
    rw [List.length_append]
    omega
  · exact hall.nodup_iff.mpr h.ordered.nodup
  · intro r'
    exact hall.mem_iff.trans (h.ordered.mem r')
  · change s.disk.used.index + 1 = UInt16.ofNat (s.history.reports ++ [r]).length
    rw [h.ringed.used, List.length_append, UInt16.ofNat_add]
    rfl
  · change s.heads.eraseIdx k = (s.history.inside.eraseIdx k).map s.history.headOf
    rw [h.ringed.heads, List.eraseIdx_map]
  · change Holds (Function.update s.disk.used.ring (slot s.disk.used.index)
        (s.history.headOf r).toUInt32) _ (s.history.reports ++ [r]).length fun k ↦
      (s.history.headOf ((s.history.reports ++ [r]).getD k 0)).toUInt32
    rw [hslot, List.length_append]
    apply Holds.extend
    · refine Holds.congr (h.ringed.entries.store ?_ _) fun k _ hk ↦ ?_
      · have := h.reports_le
        change _ < _ + 8
        omega
      · rw [hold hk]
    · rw [Function.update_self, List.getD_append_right _ _ _ _ le_rfl]
      simp
  · intro t' buf' op' x' ht'
    change ((s.disk.report _).info x'.head).buffer = _
    rw [hinfo]
    by_cases he : x'.head = x.head
    · rw [he, Function.update_self, ← he]
      exact h.served.info t' buf' op' x' ht'
    · rw [Function.update_of_ne he]
      exact h.served.info t' buf' op' x' ht'
  · rw [History.done, htake]
    exact h.served.pending
  · rw [History.done, htake]
    exact h.served.flag
  · intro t' buf' x' r' ht' hr'
    change ((s.disk.report _).info x'.head).status = _
    rw [hinfo]
    by_cases he : x'.head = x.head
    · rw [he, Function.update_self]
    · rw [Function.update_of_ne he]
      rcases List.mem_append.mp hr' with hr' | hr'
      · exact h.served.status t' buf' x' r' ht' hr'
      · have hq' := h.served.request t' buf' x' r' ht'
        rw [List.mem_singleton.mp hr', hq] at hq'
        exact absurd (congrArg Request.head (Option.some.inj hq')).symm he
  · intro hbody
    have := h.body hbody
    change s.history.processed < (s.history.reports ++ [r]).length
    rw [List.length_append]
    omega

/-! ### Runs -/

/-- A call uses a buffer that no process has in `diskrw`. -/
def Distinct (s : Machine τ β) : Event τ β → Prop
  | .call _ buf _ _ => ∀ t, (s.pc t).buffer ≠ some buf
  | _ => True

/-- Every step keeps what holds of the requests. -/
theorem Tracked.step (h : s.Tracked) {e : Event τ β} (he : s.Distinct e)
    (hs : s.step e = some s') : s'.Tracked := by
  unfold Machine.step at hs
  rw [if_neg (by rw [h.fault]; decide)] at hs
  cases e with
  | call t buf block write =>
    dsimp only at hs
    split at hs
    · next hpc =>
      cases hs
      exact h.call hpc he
    · cases hs
  | go t => exact h.go hs
  | interrupt =>
    dsimp only at hs
    split at hs
    · next hlock =>
      cases hs
      refine h.guard (some .interrupt) false (fun t ht ↦ ?_) fun hb ↦ (by cases hb)
      rw [hlock] at ht
      cases ht
    · cases hs
  | handle => exact h.handle hs
  | take => exact h.take hs
  | report k => exact h.report hs

omit [DecidableEq τ] [DecidableEq β] in
theorem Initial.tracked (h : s.Initial) : s.Tracked := by
  have hpc : ∀ t, s.pc t = .outside := h.pc
  refine ⟨h.sound, ?_, ?_, ?_, ?_, ?_, ?_, h.fault⟩
  · rw [h.history]
    exact ⟨Nat.zero_le _, Nat.zero_le _, List.nodup_nil, fun r ↦ by simp⟩
  · refine ⟨?_, ?_, ?_, ?_, ?_, ?_, ?_⟩
    · rw [h.avail, h.history]
      rfl
    · rw [h.deviceIndex, h.history]
      rfl
    · rw [h.used, h.history]
      rfl
    · rw [h.usedIndex, h.history]
      rfl
    · rw [h.heads, h.history]
      rfl
    · rw [h.history]
      exact fun k _ hk ↦ absurd hk (Nat.not_lt_zero k)
    · rw [h.history]
      exact fun k _ hk ↦ absurd hk (Nat.not_lt_zero k)
  · refine ⟨?_, ?_, ?_, ?_, ?_, ?_, ?_⟩
    · intro t t' buf ht
      rw [hpc] at ht
      cases ht
    · intro t buf op x ht
      rw [hpc] at ht
      cases ht
    · intro t buf op x ht
      rw [hpc] at ht
      cases ht
    · intro t buf x r ht
      rw [hpc] at ht
      cases ht
    · intro r hr
      rw [h.history] at hr
      exact absurd hr (Nat.not_lt_zero r)
    · intro t buf x r ht
      rw [hpc] at ht
      cases ht
    · intro t buf x r ht
      rw [hpc] at ht
      cases ht
  · intro t ht
    rw [hpc] at ht
    cases ht
  · intro t buf op x ht
    rw [hpc] at ht
    cases ht
  · intro hb
    rw [h.body] at hb
    cases hb

/-- Only a process that finds its flag down returns. -/
theorem go_outside (hs : s.go t = some s') (hout : s'.pc t = .outside) :
    ∃ buf op x r, s.pc t = .testing buf op x r ∧ s.flag buf = false := by
  have hgoto : ∀ {s₁ : Machine τ β} {l : Pc β}, (s₁.goto t l).pc t = .outside → l = .outside :=
    fun h ↦ (Function.update_self t _ _).symm.trans h
  unfold Machine.go at hs
  cases hpc : s.pc t with
  | outside =>
    rw [hpc] at hs
    cases hs
  | entering buf op | waiting buf op x r =>
    rw [hpc] at hs
    dsimp only at hs
    unfold Machine.acquire at hs
    split at hs
    · cases hs
      cases hgoto hout
    · cases hs
  | allocating buf op =>
    rw [hpc] at hs
    cases hs
    unfold Machine.allocate at hout
    split at hout
    · cases hpc.symm.trans hout
    · cases hgoto hout
    · cases hgoto hout
    · cases hpc.symm.trans hout
  | allocated buf op x | prepared buf op x | stored buf op x =>
    rw [hpc] at hs
    cases hs
    cases hgoto hout
  | testing buf op x r =>
    rw [hpc] at hs
    dsimp only at hs
    split at hs
    · cases hs
      cases hgoto hout
    · next hflag => exact ⟨buf, op, x, r, rfl, by simpa using hflag⟩

/-- Only the handler lowers a flag. -/
theorem step_lowers {e : Event τ β} {buf : β} (hs : s.step e = some s') (hup : s.flag buf = true)
    (hdown : s'.flag buf = false) : e = .handle ∧ s.body = true := by
  have hsame : s'.flag buf = s.flag buf → False := by
    intro he
    rw [he, hup] at hdown
    cases hdown
  unfold Machine.step at hs
  split at hs
  · cases hs
  cases e with
  | call t buf' block write =>
    dsimp only at hs
    split at hs
    · cases hs
      exact (hsame rfl).elim
    · cases hs
  | go t =>
    refine (hsame ?_).elim
    change s.go t = some s' at hs
    unfold Machine.go at hs
    cases hpc : s.pc t with
    | outside =>
      rw [hpc] at hs
      cases hs
    | entering buf op | waiting buf op x r =>
      rw [hpc] at hs
      dsimp only at hs
      unfold Machine.acquire at hs
      split at hs
      · cases hs
        rfl
      · cases hs
    | allocating buf op =>
      rw [hpc] at hs
      cases hs
      unfold Machine.allocate
      split <;> rfl
    | allocated buf' op x =>
      rw [hpc] at hs
      cases hs
      change Function.update s.flag buf' true buf = s.flag buf
      by_cases he : buf = buf'
      · rw [he, Function.update_self, ← he, hup]
      · rw [Function.update_of_ne he]
    | prepared buf op x | stored buf op x =>
      rw [hpc] at hs
      cases hs
      rfl
    | testing buf op x r =>
      rw [hpc] at hs
      dsimp only at hs
      split at hs
      · cases hs
        rfl
      · split at hs <;> cases hs <;> rfl
  | interrupt =>
    dsimp only at hs
    split at hs
    · cases hs
      exact (hsame rfl).elim
    · cases hs
  | handle =>
    change s.handle = some s' at hs
    unfold Machine.handle at hs
    split at hs
    · split at hs
      · next hbody => exact ⟨rfl, hbody⟩
      · split at hs <;> cases hs <;> exact (hsame rfl).elim
    · cases hs
  | take =>
    change s.take = some s' at hs
    unfold Machine.take at hs
    split at hs
    · cases hs
      exact (hsame rfl).elim
    · cases hs
  | report k =>
    change s.report k = some s' at hs
    obtain ⟨head, -, rfl⟩ := Option.map_eq_some_iff.mp hs
    exact (hsame rfl).elim

/-- In every run whose calls use distinct buffers, however long: the kernel does not stop; no
request is reported twice; `diskrw` returns only after its own request was reported; the handler
takes the reports one after the other, finds the head of each and lowers the flag of the buffer
that was submitted under it, nothing else lowers a flag, and the handler ends only when no report
is left; the heads that the device takes are those submitted; and a head is stored only in a slot
that the device has taken. -/
theorem requests_served {s₀ s : Machine τ β} (h₀ : s₀.Initial)
    (hr : Run Machine.step Machine.Distinct s₀ s) :
    s.fault = none ∧ s.history.reports.Nodup ∧
      (∀ t s', s.step (.go t) = some s' → s'.pc t = .outside →
        ∃ buf op x r, s.pc t = .testing buf op x r ∧
          s.history.requests[r]? = some ⟨t, buf, x.head⟩ ∧ r ∈ s.history.reports) ∧
      (∀ s', s.step .handle = some s' → s.body = true →
        ∃ r q, s.history.reports[s.history.processed]? = some r ∧
          s.history.requests[r]? = some q ∧
          (s.disk.used.ring (slot s.disk.usedIndex)).toNat = q.head.val ∧
          (s.disk.info q.head).buffer = some q.buf ∧
          s'.flag = Function.update s.flag q.buf false ∧
          s'.history.processed = s.history.processed + 1) ∧
      (∀ e s' buf, s.step e = some s' → s.flag buf = true → s'.flag buf = false →
        e = .handle ∧ s.body = true) ∧
      (∀ s', s.step .handle = some s' → s.body = false → s'.lock = none →
        s.history.processed = s.history.reports.length) ∧
      s.heads = s.history.inside.map s.history.headOf ∧
      ∀ t buf op x r, s.pc t = .prepared buf op x → r < s.history.requests.length →
        place NUM_DESCS r = slot s.disk.avail.index → r < s.history.taken := by
  have h : s.Tracked := hr.invariant h₀.tracked fun _ _ _ h he hs ↦ h.step he hs
  have hhandle : s.step .handle = s.handle := if_neg (by rw [h.fault]; decide)
  refine ⟨h.fault, (List.nodup_append.mp h.ordered.nodup).2.1, ?_, ?_, ?_, ?_, h.ringed.heads, ?_⟩
  · intro t s' hs hout
    have hgo : s.step (.go t) = s.go t := if_neg (by rw [h.fault]; decide)
    obtain ⟨buf, op, x, r, hpc, hflag⟩ := go_outside (hgo.symm.trans hs) hout
    have hrequest : (s.pc t).request = some (buf, x, r) := by rw [hpc]; rfl
    refine ⟨buf, op, x, r, hpc, h.served.request t buf x r hrequest, ?_⟩
    by_contra hnot
    have hup := (h.served.flag t buf x r hrequest).mpr fun hd ↦ hnot (List.mem_of_mem_take hd)
    rw [hflag] at hup
    cases hup
  · intro s' hs hbody
    rw [hhandle] at hs
    obtain ⟨r, t, buf, x, hget, -, -, hq, hring, hinfo, heq⟩ := h.process_eq hbody
    unfold Machine.handle at hs
    split at hs
    · cases hs
      rw [heq]
      exact ⟨r, _, hget, hq, hring, hinfo, rfl, rfl⟩
    · cases hs
  · exact fun e s' buf hs hup hdown ↦ step_lowers hs hup hdown
  · intro s' hs hbody hlock
    rw [hhandle] at hs
    unfold Machine.handle at hs
    split at hs
    · next hheld =>
      rw [if_neg (by rw [hbody]; decide)] at hs
      split at hs
      · cases hs
        cases hheld.symm.trans hlock
      · next heq => exact h.usedIndex_eq (not_not.mp heq)
    · cases hs
  · intro t buf op x r _ hlt hplace
    by_contra hnot
    rw [h.ringed.avail, slot_ofNat] at hplace
    have hroom := h.room
    have := place_inj hplace (by omega) (by omega)
    omega

instance Distinct.decidable [Fintype τ] (s : Machine τ β) : DecidablePred s.Distinct
  | .call _ buf _ _ => inferInstanceAs (Decidable (∀ t, (s.pc t).buffer ≠ some buf))
  | .go _ | .interrupt | .handle | .take | .report _ => .isTrue trivial

/-- Two requests are submitted, and the device reports the second one first. -/
def outOfOrder : List (Event (Fin 2) (Fin 2)) :=
  [.call 0 0 5 false, .go 0, .go 0, .go 0, .go 0, .go 0, .go 0,
    .call 1 1 6 true, .go 1, .go 1, .go 1, .go 1, .go 1, .go 1,
    .take, .take, .report 1, .interrupt, .handle, .handle, .handle, .go 1]

theorem requests_served_outOfOrder :
    (final Machine.step boot outOfOrder).history.reports = [1] ∧
      (final Machine.step boot outOfOrder).flag 0 = true ∧
      ∃ buf op x r, (final Machine.step boot outOfOrder).pc 1 = .testing buf op x r ∧
        (final Machine.step boot outOfOrder).history.requests[r]? = some ⟨1, buf, x.head⟩ ∧
          r ∈ (final Machine.step boot outOfOrder).history.reports :=
  ⟨by decide +kernel, by decide +kernel,
    (requests_served (s := final Machine.step boot outOfOrder) boot_initial
      (run_final (by decide +kernel) (by decide +kernel))).2.2.1 1 _
        (step_final (by decide +kernel)) (by decide +kernel)⟩

end Machine

end Orfos.Fs.Virtio
