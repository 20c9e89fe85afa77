import Orfos.Fs.Slots

/-!
# The block bitmap

`allocateBlock` finds a block that is not marked, marks it and fills it, and `freeBlock` takes the
mark away. Nothing else changes.
-/

namespace Orfos.Fs

open Orfos.Base Orfos.Base.Traced Orfos.Lib

/-- A block is marked in the bitmap. -/
def marked (s : State) (b : UInt32) : Bool :=
  bitAt (view s (bblock b s.superBlock)) (b.toNat % BITS_PER_BLOCK)

/-- A block is marked in the contents `d`. -/
def bitOf (sb : SuperBlock) (d : UInt32 → Block) (b : UInt32) : Bool :=
  bitAt (d (bblock b sb)) (b.toNat % BITS_PER_BLOCK)

/-- The bits of the bitmap belong to different blocks. -/
theorem bblock_eq_iff {sb : SuperBlock} {b c : UInt32} :
    bblock c sb = bblock b sb ↔ c.toNat / 8192 = b.toNat / 8192 := by
  have hdiv : ∀ x : UInt32, (x / UInt32.ofNat BITS_PER_BLOCK).toNat = x.toNat / 8192 := fun x ↦ by
    rw [UInt32.toNat_div]
    rfl
  rw [bblock, bblock, UInt32.add_left_inj, ← UInt32.toNat_inj, hdiv, hdiv]

/-- The marks after the bit of a block has changed. -/
theorem bitOf_update {sb : SuperBlock} {d : UInt32 → Block} {b c : UInt32} {data : Block}
    {g : Bool → Bool}
    (hf : ∀ j, bitAt data j =
      if j = b.toNat % BITS_PER_BLOCK then g (bitAt (d (bblock b sb)) j)
      else bitAt (d (bblock b sb)) j) :
    bitOf sb (Function.update d (bblock b sb) data) c =
      if c = b then g (bitOf sb d c) else bitOf sb d c := by
  by_cases he : bblock c sb = bblock b sb
  · rw [bitOf, bitOf, he, Function.update_self, hf]
    have hiff : c.toNat % BITS_PER_BLOCK = b.toNat % BITS_PER_BLOCK ↔ c = b := by
      have hdiv := bblock_eq_iff.mp he
      rw [← UInt32.toNat_inj]
      change c.toNat % 8192 = b.toNat % 8192 ↔ _
      omega
    simp only [hiff]
  · have hne : c ≠ b := fun h ↦ he (by rw [h])
    rw [if_neg hne, bitOf, Function.update_of_ne he, bitOf]

/-- From `s` to `t` at most the cache, the header of the log and the memory of the kernel have
changed. -/
def Works (s t : State) : Prop :=
  t = { s with cache := t.cache, kernel := t.kernel, log := { s.log with header := t.log.header } }

/-- From `s` to `t` at most the cache and the header of the log have changed. -/
def Records (s t : State) : Prop :=
  t = { s with cache := t.cache, log := { s.log with header := t.log.header } }

section

variable {s t u : State} {b c : UInt32} {bp : Nat} {held : Finset UInt32}

theorem Works.refl (s : State) : Works s s := rfl

theorem Works.trans (h : Works s t) (h' : Works t u) : Works s u := by
  unfold Works at *
  rw [h', h]

theorem Moves.works (h : Moves s t b) : Works s t := by
  unfold Works
  rw [h.frame]

theorem Local.works (h : Local s t b) : Works s t := h.toMoves.works

theorem Records.refl (s : State) : Records s s := rfl

theorem Records.trans (h : Records s t) (h' : Records t u) : Records s u := by
  unfold Records at *
  rw [h', h]

theorem Records.works (h : Records s t) : Works s t := by
  unfold Works
  rw [h]

theorem Moves.records (h : Moves s t b) : Records s t := h.frame

theorem Local.records (h : Local s t b) : Records s t := h.toMoves.records

theorem Records.disk (h : Records s t) : t.disk = s.disk := by rw [h]

theorem Reads.works (h : Reads s t) : Works s t := by
  unfold Works
  rw [h.frame]

/-- `freeBlock` logs the bitmap block with the mark of a marked block cleared. -/
theorem freeBlock_logs {T : Terms} (hT : T.Logs) (h : Calm s s.log.header.toFinset held)
    (hc : ∀ d, T.crash d)
    (htotal : T.total → bblock b s.superBlock ∉ held ∧ marked s b = true) :
    Ensures T.regime (freeBlock s.log.device b) s fun _ t ↦
      Moves s t (bblock b s.superBlock) ∧ bblock b s.superBlock ∉ held ∧ marked s b = true ∧
        t.log = s.log.logged (bblock b s.superBlock) ∧ s.log.HasRoom ∧
          Calm t t.log.header.toFinset held ∧
            view t = Function.update (view s) (bblock b s.superBlock)
              (clearBit (view s (bblock b s.superBlock)) (b.toNat % BITS_PER_BLOCK)) := by
  refine ensures_gets_bind (hold_ensures h (hc _) (fun ht ↦ (htotal ht).1) ?_)
  intro bp t hn hl hp ht hv
  have hlog : t.log = s.log := by rw [hl.frame]
  have hdata : (t.cache.buffers bp).data = view s (bblock b s.superBlock) := by
    rw [hp.data, hv]
  refine ensures_assert_bind (fun htot ↦ ?_) (hc _) fun hset ↦ ?_
  · rw [hdata]
    exact (htotal htot).2
  rw [hdata] at hset
  refine (store_log_ensures hT (by rwa [hlog]) (hc _) (Finset.mem_insert_self _ _) hp
    fun data ↦ clearBit data (b.toNat % BITS_PER_BLOCK)).imp ?_
  rintro _ u ⟨hm, hlu, hroom, hu, hvu⟩
  rw [Finset.erase_insert hn] at hu
  rw [hlog] at hlu hroom
  rw [hv] at hvu
  exact ⟨hl.toMoves.trans hm, hn, hset, hlu, hroom, hu, hvu⟩

/-- `freeBlock` clears the mark of a marked block. -/
theorem freeBlock_ensures (h : Open s held)
    (ho : ¬ InLog s.log.start s.log.size (bblock b s.superBlock)) :
    Ensures anywhere.regime (freeBlock s.log.device b) s fun _ t ↦
      Works s t ∧ Open t held ∧ bblock b s.superBlock ∉ held ∧ marked s b = true ∧
        view t = Function.update (view s) (bblock b s.superBlock)
          (clearBit (view s (bblock b s.superBlock)) (b.toNat % BITS_PER_BLOCK)) := by
  refine (freeBlock_logs (T := anywhere) False.elim h.calm (fun _ ↦ trivial) False.elim).imp ?_
  rintro _ t ⟨hm, hn, hset, hlog, hroom, ht, hv⟩
  have hlists : t.log.Lists := hlog ▸ h.lists.logged hroom ho
  exact ⟨hm.works, hlists.toOpen ht, hn, hset, hv⟩

/-- What `findClear` finds. -/
theorem findClear_some {data : Block} {block size : UInt32} {n k bit : Nat}
    (h : findClear data block size n k = some bit) :
    bit < k + n ∧ block + UInt32.ofNat bit < size ∧ bitAt data bit = false ∧
      ∀ j, k ≤ j → j < bit → bitAt data j = true := by
  induction n generalizing k with
  | zero => cases h
  | succ n ih =>
    rw [findClear] at h
    split at h
    · next hlt =>
      split at h
      · next hset =>
        obtain ⟨h₁, h₂, h₃, h₄⟩ := ih h
        refine ⟨by omega, h₂, h₃, fun j hj hjb ↦ ?_⟩
        by_cases he : j = k
        · rw [he, hset]
        · exact h₄ j (by omega) hjb
      · next hclear =>
        cases h
        refine ⟨by omega, hlt, by simpa using hclear, fun j hj hjb ↦ ?_⟩
        omega
    · cases h

/-- A bit of a bitmap block as a block. -/
theorem block_of_bit {block : UInt32} {k bit : Nat} (hk : block.toNat = 8192 * k)
    (hbit : bit < 8192) : (block + UInt32.ofNat bit).toNat = 8192 * k + bit := by
  have hz := block.toNat_lt
  rw [UInt32.toNat_add, UInt32.toNat_ofNat', hk]
  omega

/-- What it means that `findClear` finds nothing. -/
theorem findClear_none {data : Block} {block size : UInt32} {n k m : Nat}
    (hm : block.toNat = 8192 * m) (hn : k + n ≤ 8192)
    (h : findClear data block size n k = none) :
    ∀ j, k ≤ j → j < k + n → 8192 * m + j < size.toNat → bitAt data j = true := by
  induction n generalizing k with
  | zero =>
    intro j hj hlt
    omega
  | succ n ih =>
    intro j hj hlt hsize
    rw [findClear] at h
    split at h
    · split at h
      · next hset =>
        by_cases he : j = k
        · rw [he, hset]
        · exact ih (by omega) h j (by omega) (by omega) hsize
      · cases h
    · next hge =>
      rw [UInt32.lt_iff_toNat_lt, block_of_bit hm (by omega)] at hge
      omega

/-- The bits of a bitmap block are the marks of its blocks. -/
theorem bitOf_of_bit (sb : SuperBlock) (d : UInt32 → Block) {block c : UInt32} {k j : Nat}
    (hk : block.toNat = 8192 * k) (hj : j < 8192) (hc : c.toNat = 8192 * k + j) :
    bblock c sb = bblock block sb ∧ bitOf sb d c = bitAt (d (bblock block sb)) j := by
  have hsame : bblock c sb = bblock block sb := bblock_eq_iff.mpr (by omega)
  have hmod : c.toNat % BITS_PER_BLOCK = j := by
    rw [hc]
    change (8192 * k + j) % 8192 = j
    omega
  exact ⟨hsame, by rw [bitOf, hsame, hmod]⟩

/-- A scan of a bitmap block that finds a clear bit. -/
theorem scan_some {sb : SuperBlock} {d : UInt32 → Block} {block : UInt32} {k bit : Nat}
    (hk : block.toNat = 8192 * k)
    (h : findClear (d (bblock block sb)) block sb.size BITS_PER_BLOCK 0 = some bit) :
    block + UInt32.ofNat bit < sb.size ∧
      bblock (block + UInt32.ofNat bit) sb = bblock block sb ∧
      (block + UInt32.ofNat bit).toNat % BITS_PER_BLOCK = bit ∧
      bitOf sb d (block + UInt32.ofNat bit) = false ∧
      ∀ c, 8192 * k ≤ c.toNat → c < block + UInt32.ofNat bit →
        bblock c sb = bblock block sb ∧ bitOf sb d c = true := by
  obtain ⟨hbit, hlt, hclear, hfirst⟩ := findClear_some h
  have hbit : bit < 8192 := by
    change bit < 0 + 8192 at hbit
    omega
  have hnat := block_of_bit hk hbit
  obtain ⟨hsame, hof⟩ := bitOf_of_bit sb d hk hbit hnat
  refine ⟨hlt, hsame, ?_, by rw [hof, hclear], fun c hc hcb ↦ ?_⟩
  · rw [hnat]
    change (8192 * k + bit) % 8192 = bit
    omega
  · have hcb := UInt32.lt_iff_toNat_lt.mp hcb
    have hj : c.toNat = 8192 * k + (c.toNat - 8192 * k) := by omega
    obtain ⟨hsame', hof'⟩ := bitOf_of_bit sb d hk (by omega) hj
    exact ⟨hsame', hof'.trans (hfirst _ (Nat.zero_le _) (by omega))⟩

/-- A scan of a bitmap block that finds nothing. -/
theorem scan_none {sb : SuperBlock} {d : UInt32 → Block} {block c : UInt32} {k : Nat}
    (hk : block.toNat = 8192 * k)
    (h : findClear (d (bblock block sb)) block sb.size BITS_PER_BLOCK 0 = none)
    (hc : c < sb.size) (hlow : 8192 * k ≤ c.toNat) (hhigh : c.toNat < 8192 * (k + 1)) :
    bblock c sb = bblock block sb ∧ bitOf sb d c = true := by
  have hc := UInt32.lt_iff_toNat_lt.mp hc
  have hj : c.toNat = 8192 * k + (c.toNat - 8192 * k) := by omega
  obtain ⟨hsame, hof⟩ := bitOf_of_bit sb d hk (by omega) hj
  refine ⟨hsame, hof.trans ?_⟩
  exact findClear_none hk (by decide) h _ (Nat.zero_le _) (by change _ < 0 + 8192; omega) (by omega)

/-- `fillBlock` of any block that is not held. -/
theorem fillBlock_ready {T : Terms} (hT : T.LogsAt s.log) (h : Calm s s.log.header.toFinset held)
    (hc : T.crash s.disk) (hfree : T.total → b ∉ held) (ch : UInt8) :
    Ensures T.regime (fillBlock s.log.device b ch) s fun _ t ↦
      Records s t ∧ b ∉ held ∧ t.log = s.log.logged b ∧ s.log.HasRoom ∧
        Calm t t.log.header.toFinset held ∧
          view t = Function.update (view s) b (memset (view s b) 0 ch BLOCK_SIZE) := by
  refine hold_ensures h hc hfree fun bp t hn hlt hp ht hv ↦ ?_
  have hlog : t.log = s.log := by rw [hlt.frame]
  refine (store_log_ready (by rwa [hlog]) (by rwa [hlog])
    (T.crash_of_eq hc hlt.records.disk) (Finset.mem_insert_self _ _) hp fun data ↦
      memset data 0 ch BLOCK_SIZE).imp ?_
  rintro _ u ⟨hm, hlu, hroom, hu, hvu⟩
  rw [Finset.erase_insert hn] at hu
  rw [hlog] at hlu hroom
  rw [hv] at hvu
  exact ⟨hlt.records.trans hm.records, hn, hlu, hroom, hu, hvu⟩

/-- `fillBlock` of any block, in runs that may stop. -/
theorem fillBlock_fills (h : Calm s s.log.header.toFinset held) (ch : UInt8) :
    Ensures anywhere.regime (fillBlock s.log.device b ch) s fun _ t ↦
      Works s t ∧ b ∉ held ∧ t.log = s.log.logged b ∧ s.log.HasRoom ∧
        Calm t t.log.header.toFinset held ∧
          view t = Function.update (view s) b (memset (view s b) 0 ch BLOCK_SIZE) := by
  refine (fillBlock_ready (T := anywhere) False.elim h trivial False.elim ch).imp ?_
  rintro _ t ⟨hr, hrest⟩
  exact ⟨hr.works, hrest⟩

/-- `fillBlock` of a data block. -/
theorem fillBlock_ensures (h : Open s ∅) (hb : ¬ InLog s.log.start s.log.size b) (ch : UInt8) :
    Ensures anywhere.regime (fillBlock s.log.device b ch) s fun _ t ↦
      Works s t ∧ Open t ∅ ∧
        view t = Function.update (view s) b (memset (view s b) 0 ch BLOCK_SIZE) := by
  refine (fillBlock_fills h.calm ch).imp ?_
  rintro _ t ⟨hw, -, hlog, hroom, ht, hv⟩
  have hlists : t.log.Lists := hlog ▸ h.lists.logged hroom hb
  exact ⟨hw, hlists.toOpen ht, hv⟩

/-- The contents after a block is marked. -/
def marks (s : State) (a : UInt32) : UInt32 → Block :=
  Function.update (view s) (bblock a s.superBlock)
    (setBit (view s (bblock a s.superBlock)) (a.toNat % BITS_PER_BLOCK))

/-- A block was allocated: the first that was not marked is marked, filled and logged. -/
structure Granted (s : State) (held : Finset UInt32) (a : UInt32) (t : State) : Prop where
  lt : a < s.superBlock.size
  free : marked s a = false
  least : ∀ c < a, marked s c = true
  works : Works s t
  calm : Calm t t.log.header.toFinset held
  log : t.log = (s.log.logged (bblock a s.superBlock)).logged a
  room : s.log.HasRoom ∧ (s.log.logged (bblock a s.superBlock)).HasRoom
  view : view t = Function.update (marks s a) a (memset (marks s a a) 0 0 BLOCK_SIZE)

/-- A function with some held blocks has only read. -/
structure Idle (s : State) (held : Finset UInt32) (t : State) : Prop where
  frame : t = { s with cache := t.cache }
  calm : Calm t s.log.header.toFinset held
  view : Fs.view t = Fs.view s

/-- What programs that have to return need for `allocateBlock`: two blocks may be logged, no block
is held, and the number behind the last bitmap block does not wrap around. -/
structure Allocates (s : State) (held : Finset UInt32) : Prop where
  room : s.log.RoomFor 2
  unheld : held = ∅
  wrap : s.superBlock.size.toNat + BITS_PER_BLOCK < 2 ^ 32

/-- The loop of `allocateBlock`. -/
theorem allocateBlockFrom_ready {T : Terms} (hT : T.total → Allocates s held)
    (hc : T.crash s.disk) (n k : Nat) (block : UInt32) (hk : 0 < n → block.toNat = 8192 * k)
    (hlast : T.total → block.toNat = 8192 * k) (hn : k + n = s.superBlock.size.toNat / 8192 + 1)
    (hfull : ∀ c < s.superBlock.size, c.toNat < 8192 * k → marked s c = true)
    (ht : Idle s held t) :
    Ensures T.regime (allocateBlockFrom s.log.device n block) t fun a u ↦
      (a = 0 ∧ Idle s held u ∧ ∀ c < s.superBlock.size, marked s c = true) ∨
        Granted s held a u ∧ Records s u := by
  have hframe : ∀ {t}, Idle s held t → t.superBlock = s.superBlock ∧ t.log = s.log ∧
      t.disk = s.disk := fun ht ↦ by
    refine ⟨?_, ?_, ?_⟩ <;> rw [ht.frame]
  induction n generalizing t k block with
  | zero =>
    obtain ⟨hsb, -, hdt⟩ := hframe ht
    refine ensures_assert_bind (fun htot ↦ ?_) (T.crash_of_eq hc hdt) fun _ ↦
      ensures_pure (.inl ⟨rfl, ht, fun c hlt ↦ ?_⟩)
    · rw [hsb, UInt32.lt_iff_toNat_lt, hlast htot]
      omega
    · have := UInt32.lt_iff_toNat_lt.mp hlt
      exact hfull c hlt (by omega)
  | succ n ih =>
    have hk := hk (Nat.succ_pos n)
    obtain ⟨hsb, hlog, hdt⟩ := hframe ht
    refine ensures_gets_bind ?_
    rw [hsb]
    split
    · next hlt =>
      rw [← hlog]
      refine hold_ensures ht.calm (T.crash_of_eq hc hdt) (fun htot ↦ ?_)
        fun bp u hnot hlu hp hu hv ↦ ?_
      · rw [(hT htot).unheld]
        exact Finset.notMem_empty _
      refine ensures_gets_bind ?_
      rw [hp.data, hv, ht.view]
      have hsize := UInt32.lt_iff_toNat_lt.mp hlt
      have hlogu : u.log = s.log := by rw [hlu.frame, hlog]
      have hdisk : u.disk = t.disk := by rw [hlu.frame]
      have hcu : T.crash u.disk := T.crash_of_eq hc (hdisk.trans hdt)
      cases hfind : findClear (view s (bblock block s.superBlock)) block s.superBlock.size
          BITS_PER_BLOCK 0 with
      | none =>
        -- the block of the bitmap is full, and is released as it was
        have hclean : bblock block s.superBlock ∈ s.log.header.toFinset ∨
            view u (bblock block s.superBlock) = u.disk (bblock block s.superBlock) := by
          by_cases hmem : bblock block s.superBlock ∈ s.log.header.toFinset
          · exact .inl hmem
          · rw [hv, hdisk]
            exact .inr (ht.calm.view_eq_disk hmem hnot)
        refine ensures_bind (release_clean_ensures hu hcu (Finset.mem_insert_self _ _) hp
          hclean) ?_
        rintro _ w ⟨hlw, hw, hvw⟩
        rw [Finset.erase_insert hnot] at hw
        rw [hlog]
        have hz := s.superBlock.size.toNat_lt
        have hadd : (block + UInt32.ofNat BITS_PER_BLOCK).toNat = (8192 * k + 8192) % 2 ^ 32 := by
          rw [UInt32.toNat_add, hk]
          rfl
        refine ih (k + 1) _ (fun hpos ↦ ?_) (fun htot ↦ ?_) (by omega) (fun c hc hck ↦ ?_)
          ⟨?_, hw, ?_⟩
        · rw [hadd]
          omega
        · have hwrap : s.superBlock.size.toNat + 8192 < 2 ^ 32 := (hT htot).wrap
          rw [hadd]
          omega
        · by_cases hlow : c.toNat < 8192 * k
          · exact hfull c hc hlow
          · exact (scan_none hk hfind hc (by omega) hck).2
        · rw [hlw.frame, hlu.frame, ht.frame]
        · rw [hvw, hv, ht.view]
      | some bit =>
        obtain ⟨ha, hsame, hmod, hclear, hfirst⟩ := scan_some hk hfind
        refine store_log_then_ready (Log.RoomFor.logsAt 1 fun htot ↦ ?_) (by rwa [hlogu]) hcu
          (Finset.mem_insert_self _ _) hp (fun data ↦ setBit data bit)
          fun w hmw hlw hroom hw hvw ↦ ?_
        · rw [hlogu]
          exact (hT htot).room
        rw [Finset.erase_insert hnot] at hw
        rw [hv, ht.view] at hvw
        have hdev : t.log.device = w.log.device := by rw [hmw.frame, hlogu, hlog]
        rw [hlogu, ← hsame] at hlw
        have hmarks : view w = marks s (block + UInt32.ofNat bit) := by
          rw [hvw, marks, hmod, hsame]
        rw [hdev]
        refine ensures_bind (fillBlock_ready (Log.RoomFor.logsAt 0 fun htot ↦ ?_) hw
          (T.crash_of_eq hcu hmw.records.disk) (fun htot ↦ ?_) 0) ?_
        · rw [hlw]
          exact (hT htot).room.logged _
        · rw [(hT htot).unheld]
          exact Finset.notMem_empty _
        rintro _ x ⟨hrx, -, hlx, hroomx, hx, hvx⟩
        rw [hlw] at hlx hroomx
        rw [hmarks] at hvx
        have hrecords : Records s x := by
          refine Records.trans ?_ (hmw.records.trans hrx)
          unfold Records
          rw [hlu.frame, ht.frame]
        refine ensures_pure (.inr ⟨⟨ha, hclear, fun c hc ↦ ?_, hrecords.works, hx, hlx,
          ⟨by rwa [← hlogu], hroomx⟩, hvx⟩, hrecords⟩)
        by_cases hlow : c.toNat < 8192 * k
        · exact hfull c (UInt32.lt_trans hc ha) hlow
        · exact (hfirst c (by omega) hc).2
    · next hge =>
      refine ensures_pure (.inl ⟨rfl, ht, fun c hc ↦ ?_⟩)
      have hc' := UInt32.lt_iff_toNat_lt.mp hc
      rw [UInt32.lt_iff_toNat_lt] at hge
      exact hfull c hc (by omega)

/-- `allocateBlock` allocates the first block that is not marked, or all blocks are marked. -/
theorem allocateBlock_ready {T : Terms} (hT : T.total → Allocates s held) (hc : T.crash s.disk)
    (h : Calm s s.log.header.toFinset held) :
    Ensures T.regime (allocateBlock s.log.device) s fun a u ↦
      (a = 0 ∧ Idle s held u ∧ ∀ c < s.superBlock.size, marked s c = true) ∨
        Granted s held a u ∧ Records s u := by
  refine ensures_gets_bind ?_
  refine allocateBlockFrom_ready hT hc _ 0 0 (fun _ ↦ rfl) (fun _ ↦ rfl) ?_ ?_ ⟨rfl, h, rfl⟩
  · change 0 + (s.superBlock.size.toNat / 8192 + 1) = s.superBlock.size.toNat / 8192 + 1
    omega
  · intro c _ hc
    exact absurd hc (Nat.not_lt_zero _)

/-- As `allocateBlock_ready`, in runs that may stop. -/
theorem allocateBlock_allocates (h : Calm s s.log.header.toFinset held) :
    Ensures anywhere.regime (allocateBlock s.log.device) s fun a u ↦
      (a = 0 ∧ Idle s held u ∧ ∀ c < s.superBlock.size, marked s c = true) ∨
        Granted s held a u :=
  (allocateBlock_ready (T := anywhere) False.elim trivial h).imp fun _ _ ↦ Or.imp_right And.left

/-- Blocks that are not marked are data blocks. -/
def Guarded (s : State) : Prop :=
  ∀ b < s.superBlock.size, marked s b = false → dataStart s.superBlock ≤ b.toNat

/-- What `allocateBlock` has done when it returns `a`. -/
def Taken (s : State) (a : UInt32) (t : State) : Prop :=
  (a = 0 ∧ Reads s t) ∨ (a < s.superBlock.size ∧ marked s a = false ∧ Works s t ∧ Open t ∅ ∧
    view t = Function.update (Function.update (view s) (bblock a s.superBlock)
      (setBit (view s (bblock a s.superBlock)) (a.toNat % BITS_PER_BLOCK))) a
        (memset (view s a) 0 0 BLOCK_SIZE))

/-- What `allocateBlock` has done, in a state where no block is held. -/
theorem Open.taken {a : UInt32} (h : Open s ∅) (hl : Layout s) (hg : Guarded s)
    (ht : (a = 0 ∧ Idle s ∅ t ∧ ∀ c < s.superBlock.size, marked s c = true) ∨ Granted s ∅ a t) :
    Taken s a t := by
  obtain ⟨rfl, hidle, -⟩ | ha := ht
  · have hlog : t.log = s.log := by rw [hidle.frame]
    refine .inl ⟨rfl, by rw [hidle.frame], ?_, hidle.view⟩
    have hlists : t.log.Lists := hlog ▸ h.lists
    exact hlists.toOpen (by rw [hlog]; exact hidle.calm)
  · have hdata := hg a ha.lt ha.free
    have hbelow := (hl.bblock_toNat ha.lt).2
    have hplace := (hl.bblock_toNat ha.lt).1
    have horder := hl.order
    have hne : a ≠ bblock a s.superBlock := by
      intro he
      rw [← he] at hbelow
      omega
    refine .inr ⟨ha.lt, ha.free, ha.works, ?_, ?_⟩
    · have hfirst := h.lists.logged ha.room.1 (hl.notMem_log (b := bblock a s.superBlock) (by
        rw [hplace]
        omega))
      have hout : ¬ InLog (s.log.logged (bblock a s.superBlock)).start
          (s.log.logged (bblock a s.superBlock)).size a := by
        rw [Log.logged_frame]
        exact hl.notMem_log (by omega)
      have hlists : t.log.Lists := ha.log ▸ hfirst.logged ha.room.2 hout
      exact hlists.toOpen ha.calm
    · rw [ha.view, marks, Function.update_of_ne hne]

/-- `allocateBlock` marks and fills a data block that was not marked, or has only read. -/
theorem allocateBlock_ensures (h : Open s ∅) (hl : Layout s) (hg : Guarded s) :
    Ensures anywhere.regime (allocateBlock s.log.device) s (Taken s) :=
  (allocateBlock_allocates h.calm).imp fun _ _ ↦ h.taken hl hg

end
end Orfos.Fs
