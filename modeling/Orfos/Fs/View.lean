import Mathlib.Data.Finset.Basic
import Orfos.Fs.Buffer

/-!
# Contents seen through the buffer cache

Between the calls of the file system every cached buffer is valid and is there for a
reason: it is pinned for the log, or the running function holds it. In such a calm state
the cache and the disk together show one content per block. The lemmas below restate the
buffer functions as changes of that content and of the sets of pinned and held blocks.
-/

namespace Orfos.Fs

open Orfos.Base Orfos.Base.Traced Orfos.Lib

/-- The content of a block: its cached bytes, or those on the disk. -/
def view (s : State) (b : UInt32) : Block :=
  match slot s b with
  | some (_, buf) => buf.data
  | none => s.disk b

/-- The users that the reference count of a block's buffer counts. -/
def users (pins held : Finset UInt32) (b : UInt32) : UInt32 :=
  (if b ∈ pins then 1 else 0) + (if b ∈ held then 1 else 0)

/-- Exactly the pinned and the held blocks are cached, validly, and the held ones locked. -/
structure Calm (s : State) (pins held : Finset UInt32) : Prop where
  placed : Placed s
  cached : ∀ b i buf, slot s b = some (i, buf) → (b ∈ pins ∨ b ∈ held) ∧
    buf.valid = true ∧ buf.refCount = users pins held b ∧ buf.locked = decide (b ∈ held)
  absent : ∀ b, slot s b = none → b ∉ pins ∧ b ∉ held

/-- The buffer of a block is behind a pointer. -/
def Ptr (s : State) (i : Nat) (b : UInt32) : Prop := ∃ buf, slot s b = some (i, buf)

/-- From `s` to `t` only the cache has changed, and in it at most the slot of one block. -/
structure Local (s t : State) (b : UInt32) : Prop where
  frame : t = { s with cache := t.cache }
  others : ∀ c, c ≠ b → slot t c = slot s c

section

variable {s t u : State} {b : UInt32} {i : Nat} {pins held : Finset UInt32}

theorem Slots.toLocal {v : Option (Nat × Buffer)} (h : Slots s t b v) : Local s t b :=
  ⟨h.frame, fun _ hc ↦ h.of_ne hc⟩

theorem Local.trans (h : Local s t b) (h' : Local t u b) : Local s u b := by
  refine ⟨?_, fun c hc ↦ (h'.others c hc).trans (h.others c hc)⟩
  rw [h'.frame, h.frame]

/-- Pointers to other blocks stay. -/
theorem Local.ptr {j : Nat} {c : UInt32} (h : Local s t b) (hp : Ptr s j c) (hc : c ≠ b) :
    Ptr t j c := by
  obtain ⟨buf, hs⟩ := hp
  exact ⟨buf, (h.others c hc).trans hs⟩

/-- The slots depend on the cache and on the device only. -/
theorem slot_congr (hc : t.cache = s.cache) (hl : t.log.device = s.log.device) :
    slot t = slot s := by
  funext b
  rw [slot, slot, hc, hl]

theorem view_congr (hc : t.cache = s.cache) (hl : t.log.device = s.log.device)
    (hd : t.disk = s.disk) : view t = view s := by
  funext b
  rw [view, view, slot_congr hc hl, hd]

theorem Ptr.congr (h : Ptr s i b) (hc : t.cache = s.cache)
    (hl : t.log.device = s.log.device) : Ptr t i b := by
  rwa [Ptr, slot_congr hc hl]

theorem Calm.congr (h : Calm s pins held) (hc : t.cache = s.cache)
    (hl : t.log.device = s.log.device) : Calm t pins held := by
  obtain ⟨hp, hcd, ha⟩ := h
  have hs := slot_congr hc hl
  refine ⟨?_, ?_, ?_⟩
  · rwa [Placed, hs, hc, hl]
  · rwa [hs]
  · rwa [hs]

/-- What a change of one slot does to the contents. -/
theorem Slots.view {v : Option (Nat × Buffer)} (h : Slots s t b v) :
    view t = Function.update (view s) b (v.elim (s.disk b) fun p ↦ p.2.data) := by
  have hd : t.disk = s.disk := by rw [h.frame]
  funext c
  by_cases hc : c = b
  · subst c
    rw [Function.update_self, Fs.view, h.self, hd]
    cases v <;> rfl
  · rw [Function.update_of_ne hc, Fs.view, Fs.view, h.of_ne hc, hd]

/-- A held block is cached, validly, locked and counted. -/
theorem Calm.slot_of_mem (h : Calm s pins held) (hb : b ∈ held) :
    ∃ i buf, slot s b = some (i, buf) ∧ buf.valid = true ∧
      buf.refCount = users pins held b ∧ buf.locked = true ∧ view s b = buf.data := by
  cases hs : slot s b with
  | none => exact absurd hb (h.absent b hs).2
  | some p =>
    obtain ⟨i, buf⟩ := p
    obtain ⟨-, hv, hr, hl⟩ := h.cached b i buf hs
    exact ⟨i, buf, rfl, hv, hr, by simpa [hb] using hl, by simp [view, hs]⟩

/-- A pointer to a held block reaches its buffer. -/
theorem Calm.of_ptr (h : Calm s pins held) (hb : b ∈ held) (hi : Ptr s i b) :
    ∃ buf, slot s b = some (i, buf) ∧ buf.valid = true ∧
      buf.refCount = users pins held b ∧ buf.locked = true ∧ view s b = buf.data := by
  obtain ⟨j, buf, hs, hrest⟩ := h.slot_of_mem hb
  obtain ⟨buf', hs'⟩ := hi
  rw [hs] at hs'
  cases hs'
  exact ⟨buf, hs, hrest⟩

/-- The bytes behind a pointer. -/
theorem Ptr.data (hi : Ptr s i b) : (s.cache.buffers i).data = view s b := by
  obtain ⟨buf, hs⟩ := hi
  rw [view, hs, (slot_eq_some_iff.mp hs).2]

/-- The block of the buffer behind a pointer. -/
theorem Ptr.block (hi : Ptr s i b) (hp : Placed s) : (s.cache.buffers i).block = b := by
  obtain ⟨buf, hs⟩ := hi
  rw [(slot_eq_some_iff.mp hs).2]
  exact (hp _ _ _ hs).2.2

/-- A block that is neither pinned nor held shows what is on the disk. -/
theorem Calm.view_eq_disk (h : Calm s pins held) (hp : b ∉ pins) (hh : b ∉ held) :
    view s b = s.disk b := by
  cases hs : slot s b with
  | none => rw [view, hs]
  | some p =>
    obtain ⟨i, buf⟩ := p
    exact absurd (h.cached b i buf hs).1 (by simp [hp, hh])

/-- A calm state stays calm if the sets change at one block and its slot follows them. -/
theorem Calm.of_slots {pins' held' : Finset UInt32} {v : Option (Nat × Buffer)}
    (h : Calm s pins held) (hs : Slots s t b v)
    (hp : ∀ c, c ≠ b → (c ∈ pins' ↔ c ∈ pins)) (hh : ∀ c, c ≠ b → (c ∈ held' ↔ c ∈ held))
    (hn : v = none → b ∉ pins' ∧ b ∉ held')
    (hv : ∀ i buf, v = some (i, buf) → (b ∈ pins' ∨ b ∈ held') ∧ buf.valid = true ∧
      buf.refCount = users pins' held' b ∧ buf.locked = decide (b ∈ held')) :
    Calm t pins' held' := by
  refine ⟨hs.placed, ?_, ?_⟩
  · intro c j bf hc
    by_cases hcb : c = b
    · subst c
      exact hv j bf (hs.self ▸ hc)
    · rw [hs.of_ne hcb] at hc
      simpa only [users, hp c hcb, hh c hcb] using h.cached c j bf hc
  · intro c hc
    by_cases hcb : c = b
    · subst c
      exact hn (hs.self ▸ hc)
    · rw [hs.of_ne hcb] at hc
      rw [hp c hcb, hh c hcb]
      exact h.absent c hc

end

section

variable {T : Terms} {s : State} {b : UInt32} {i : Nat} {pins held : Finset UInt32}

/-- The buffer that `get` finds in a calm state, and what `read` makes of it. -/
private theorem entry_of_calm (h : Calm s pins held) (hb : b ∉ held) :
    (entry s b).2.locked = false ∧
      (entry s b).2.refCount = users pins held b ∧
      (if (entry s b).2.valid then (entry s b).2.data else s.disk b) = view s b := by
  cases hs : slot s b with
  | none =>
    obtain ⟨hp, -⟩ := h.absent b hs
    simp [entry, hs, Buffer.fresh, users, hp, hb, view]
  | some p =>
    obtain ⟨i, buf⟩ := p
    obtain ⟨-, hv, hr, hl⟩ := h.cached b i buf hs
    simp only [entry, hs, Option.getD_some]
    exact ⟨by simpa [hb] using hl, hr, by simp [view, hs, hv]⟩

/-- A block that nobody holds is unlocked. -/
private theorem notMem_of_unlocked (h : Calm s pins held)
    (hl : (entry s b).2.locked = false) : b ∉ held := by
  intro hb
  obtain ⟨i, buf, hs, -, -, hlk, -⟩ := h.slot_of_mem hb
  simp [entry, hs, hlk] at hl

/-- `get` and `read` hold a block and leave the contents alone. -/
theorem hold_ensures {α : Type} {k : Nat → FsM α} {Q : α → State → Prop}
    (h : Calm s pins held) (hc : T.crash s.disk) (hb : T.total → b ∉ held)
    (hk : ∀ i t, b ∉ held → Local s t b → Ptr t i b → Calm t pins (insert b held) →
      view t = view s → Ensures T.regime (k i) t Q) :
    Ensures T.regime (do
      let i ← BufferCache.get s.log.device b
      Buffer.read i
      k i) s Q := by
  refine ensures_bind (get_ensures h.placed hc fun hT ↦ (entry_of_calm h (hb hT)).1) ?_
  rintro i t ⟨-, hl, ht⟩
  have hnb := notMem_of_unlocked h hl
  obtain ⟨-, hr, hv⟩ := entry_of_calm h hnb
  refine ensures_bind (read_ensures ht.placed ht.self) ?_
  intro _ u hu
  have hsu := ht.trans hu
  have hd : t.disk = s.disk := by rw [ht.frame]
  refine hk i u hnb hsu.toLocal ⟨_, hsu.self⟩ ?_ ?_
  · refine h.of_slots hsu (fun _ _ ↦ Iff.rfl) (fun c hc ↦ by simp [hc]) (fun h' ↦ by cases h') ?_
    rintro _ _ hbuf
    cases hbuf
    simp [users, hr, hnb]
  · rw [hsu.view, hd]
    exact Function.update_eq_iff.mpr ⟨hv, fun _ _ ↦ rfl⟩

/-- Two blocks got one after the other and then read. -/
theorem hold_pair_ensures {α : Type} {k : Nat → Nat → FsM α} {Q : α → State → Prop}
    {a : UInt32} (h : Calm s pins held) (hc : T.crash s.disk) (ha : T.total → a ∉ held)
    (hb : T.total → b ∉ held) (hab : a ≠ b)
    (hk : ∀ i j t, t = { s with cache := t.cache } → Ptr t i a → Ptr t j b →
      Calm t pins (insert b (insert a held)) → view t = view s → Ensures T.regime (k i j) t Q) :
    Ensures T.regime (do
      let i ← BufferCache.get s.log.device a
      let j ← BufferCache.get s.log.device b
      Buffer.read i
      Buffer.read j
      k i j) s Q := by
  refine ensures_bind (get_ensures h.placed hc fun hT ↦ (entry_of_calm h (ha hT)).1) ?_
  rintro i t₁ ⟨-, hl₁, h₁⟩
  have hlog₁ : t₁.log = s.log := by rw [h₁.frame]
  have hd₁ : t₁.disk = s.disk := by rw [h₁.frame]
  have hna := notMem_of_unlocked h hl₁
  have he : (entry t₁ b).2 = (entry s b).2 := by
    rw [entry, entry, h₁.of_ne hab.symm, hlog₁]
    cases slot s b <;> rfl
  rw [← hlog₁]
  refine ensures_bind (get_ensures h₁.placed (by rwa [hd₁]) ?_) ?_
  · intro hT
    rw [he]
    exact (entry_of_calm h (hb hT)).1
  rintro j t₂ ⟨-, hl₂, h₂⟩
  rw [he] at hl₂ h₂
  have hnb := notMem_of_unlocked h hl₂
  have hsa₂ := (h₂.of_ne hab).trans h₁.self
  refine ensures_bind (read_ensures h₂.placed hsa₂) ?_
  intro _ t₃ h₃
  have hsb₃ := (h₃.of_ne hab.symm).trans h₂.self
  refine ensures_bind (read_ensures h₃.placed hsb₃) ?_
  intro _ t₄ h₄
  have hd₂ : t₂.disk = s.disk := by rw [h₂.frame, hd₁]
  have hd₃ : t₃.disk = s.disk := by rw [h₃.frame, hd₂]
  have hf : t₄ = { s with cache := t₄.cache } := by
    rw [h₄.frame, h₃.frame, h₂.frame, h₁.frame]
  obtain ⟨-, hra, hva⟩ := entry_of_calm h hna
  obtain ⟨-, hrb, hvb⟩ := entry_of_calm h hnb
  have hsa := (h₄.of_ne hab).trans h₃.self
  have hsb := h₄.self
  rw [hd₂, hva] at hsa
  rw [hd₃, hvb] at hsb
  have hso : ∀ c, c ≠ a → c ≠ b → slot t₄ c = slot s c := fun c hca hcb ↦ by
    rw [h₄.of_ne hcb, h₃.of_ne hca, h₂.of_ne hcb, h₁.of_ne hca]
  refine hk i j t₄ hf ⟨_, hsa⟩ ⟨_, hsb⟩ ⟨h₄.placed, ?_, ?_⟩ ?_
  · intro c l bf hcs
    rcases eq_or_ne c a with rfl | hca
    · rw [hsa] at hcs
      cases hcs
      simp [users, hra, hna, hab]
    · rcases eq_or_ne c b with rfl | hcb
      · rw [hsb] at hcs
        cases hcs
        simp [users, hrb, hnb]
      · rw [hso c hca hcb] at hcs
        simpa [users, hca, hcb] using h.cached c l bf hcs
  · intro c hcs
    rcases eq_or_ne c a with rfl | hca
    · rw [hsa] at hcs
      cases hcs
    · rcases eq_or_ne c b with rfl | hcb
      · rw [hsb] at hcs
        cases hcs
      · rw [hso c hca hcb] at hcs
        simpa [hca, hcb] using h.absent c hcs
  · funext c
    rcases eq_or_ne c a with rfl | hca
    · simp only [view, hsa]
    · rcases eq_or_ne c b with rfl | hcb
      · simp only [view, hsb]
      · have hd₄ : t₄.disk = s.disk := by rw [hf]
        rw [view, view, hso c hca hcb, hd₄]

/-- A change of the bytes of a held buffer. -/
theorem store_ensures (h : Calm s pins held) (hb : b ∈ held) (hi : Ptr s i b)
    (f : Block → Block) :
    Ensures T.regime (modify fun s ↦ s.setBuffer i fun x ↦ { x with data := f x.data }) s
      fun _ t ↦ Local s t b ∧ Ptr t i b ∧ Calm t pins held ∧
        view t = Function.update (view s) b (f (view s b)) := by
  obtain ⟨buf, hs, hv, hr, hl, hd⟩ := h.of_ptr hb hi
  have ht := slots_setBuffer h.placed hs (fun x ↦ { x with data := f x.data }) rfl rfl
  refine ensures_modify ⟨ht.toLocal, ⟨_, ht.self⟩, ?_, ?_⟩
  · refine h.of_slots ht (fun _ _ ↦ Iff.rfl) (fun _ _ ↦ Iff.rfl) (fun h' ↦ by cases h') ?_
    rintro _ _ hbuf
    cases hbuf
    exact ⟨.inr hb, hv, hr, by simpa [hb] using hl⟩
  · rw [ht.view, hd]
    rfl

/-- A held buffer written to the disk. -/
theorem write_view_ensures (h : Calm s pins held) (hc : T.crash s.disk) (hb : b ∈ held)
    (hi : Ptr s i b) :
    Ensures T.regime (Buffer.write i) s fun _ t ↦
      t = { s with disk := Function.update s.disk b (view s b) } ∧
        Calm t pins held ∧ view t = view s := by
  obtain ⟨buf, hs, hv, hr, hl, hd⟩ := h.of_ptr hb hi
  refine (write_ensures h.placed hc hs fun _ ↦ hl).imp ?_
  rintro _ _ rfl
  refine ⟨by rw [hd], ⟨h.placed, h.cached, h.absent⟩, ?_⟩
  funext c
  cases hsc : slot s c with
  | some p =>
    have hsc' : slot { s with disk := Function.update s.disk b buf.data } c = some p := hsc
    rw [view, view, hsc, hsc']
  | none =>
    have hsc' : slot { s with disk := Function.update s.disk b buf.data } c = none := hsc
    have hne : c ≠ b := by
      rintro rfl
      rw [hs] at hsc
      cases hsc
    rw [view, view, hsc, hsc']
    exact Function.update_of_ne hne _ _

/-- A held buffer released: a pinned one stays, any other leaves the cache. -/
theorem release_view_ensures (h : Calm s pins held) (hc : T.crash s.disk) (hb : b ∈ held)
    (hi : Ptr s i b) :
    Ensures T.regime (BufferCache.release i) s fun _ t ↦
      Local s t b ∧ Calm t pins (held.erase b) ∧
        view t = if b ∈ pins then view s else Function.update (view s) b (s.disk b) := by
  obtain ⟨buf, hs, hv, hr, hl, hd⟩ := h.of_ptr hb hi
  refine (release_ensures h.placed hc hs fun _ ↦ hl).imp ?_
  intro _ t ht
  have hh : ∀ c, c ≠ b → (c ∈ held.erase b ↔ c ∈ held) := fun c hcb ↦ by simp [hcb]
  refine ⟨ht.toLocal, ?_, ?_⟩
  · by_cases hp : b ∈ pins
    · have hz : buf.refCount - 1 ≠ 0 := by simp [hr, users, hp, hb]
      rw [if_neg hz] at ht
      refine h.of_slots ht (fun _ _ ↦ Iff.rfl) hh (fun h' ↦ by cases h') ?_
      rintro _ _ hbuf
      cases hbuf
      simp [hv, hr, users, hp, hb]
    · have hz : buf.refCount - 1 = 0 := by simp [hr, users, hp, hb]
      rw [if_pos hz] at ht
      exact h.of_slots ht (fun _ _ ↦ Iff.rfl) hh (fun _ ↦ ⟨hp, by simp⟩) fun _ _ h' ↦ by cases h'
  · rw [ht.view]
    by_cases hp : b ∈ pins
    · have hz : buf.refCount - 1 ≠ 0 := by simp [hr, users, hp, hb]
      rw [if_neg hz, if_pos hp]
      exact Function.update_eq_iff.mpr ⟨hd.symm, fun _ _ ↦ rfl⟩
    · have hz : buf.refCount - 1 = 0 := by simp [hr, users, hp, hb]
      rw [if_pos hz, if_neg hp]
      rfl

/-- A held buffer released that is pinned or as on the disk. -/
theorem release_clean_ensures (h : Calm s pins held) (hc : T.crash s.disk) (hb : b ∈ held)
    (hi : Ptr s i b) (hcl : b ∈ pins ∨ view s b = s.disk b) :
    Ensures T.regime (BufferCache.release i) s fun _ t ↦
      Local s t b ∧ Calm t pins (held.erase b) ∧ view t = view s := by
  refine (release_view_ensures h hc hb hi).imp ?_
  rintro _ t ⟨hl, ht, hv⟩
  refine ⟨hl, ht, ?_⟩
  rw [hv]
  split
  · rfl
  · next hp =>
    exact Function.update_eq_iff.mpr ⟨(hcl.resolve_left hp).symm, fun _ _ ↦ rfl⟩

/-- A held buffer pinned. -/
theorem pin_view_ensures (h : Calm s pins held) (hb : b ∈ held) (hp : b ∉ pins)
    (hi : Ptr s i b) :
    Ensures T.regime (BufferCache.pin i) s fun _ t ↦
      Local s t b ∧ Ptr t i b ∧ Calm t (insert b pins) held ∧ view t = view s := by
  obtain ⟨buf, hs, hv, hr, hl, hd⟩ := h.of_ptr hb hi
  refine (pin_ensures h.placed hs).imp ?_
  intro _ t ht
  refine ⟨ht.toLocal, ⟨_, ht.self⟩, ?_, ?_⟩
  · refine h.of_slots ht (fun c hcb ↦ by simp [hcb]) (fun _ _ ↦ Iff.rfl) (fun h' ↦ by cases h') ?_
    rintro _ _ hbuf
    cases hbuf
    simp [hv, hr, users, hp, hb, hl]
  · rw [ht.view]
    exact Function.update_eq_iff.mpr ⟨hd.symm, fun _ _ ↦ rfl⟩

/-- A held buffer unpinned. -/
theorem unpin_view_ensures (h : Calm s pins held) (hc : T.crash s.disk) (hb : b ∈ held)
    (hp : b ∈ pins) (hi : Ptr s i b) :
    Ensures T.regime (BufferCache.unpin i) s fun _ t ↦
      Local s t b ∧ Ptr t i b ∧ Calm t (pins.erase b) held ∧ view t = view s := by
  obtain ⟨buf, hs, hv, hr, hl, hd⟩ := h.of_ptr hb hi
  refine (unpin_ensures h.placed hc hs ?_).imp ?_
  · intro _
    simp [hr, users, hp, hb]
  · intro _ t ht
    refine ⟨ht.toLocal, ⟨_, ht.self⟩, ?_, ?_⟩
    · refine h.of_slots ht (fun c hcb ↦ by simp [hcb]) (fun _ _ ↦ Iff.rfl)
        (fun h' ↦ by cases h') ?_
      rintro _ _ hbuf
      cases hbuf
      simp [hv, hr, users, hp, hb, hl]
    · rw [ht.view]
      exact Function.update_eq_iff.mpr ⟨hd.symm, fun _ _ ↦ rfl⟩

end
end Orfos.Fs
