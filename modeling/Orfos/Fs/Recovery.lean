import Orfos.Fs.Log

/-!
# Crash atomicity of the log

A transaction logs some home blocks and commits them (`kernel/fs/log.cpp`). The machine may
stop between any two block writes of the commit, and again during each of any number of
recoveries. Every disk that this can leave is in one of three conditions: the old contents
are in place and the header is empty; the header is full and the log holds the new contents;
the new contents are in place and the header is empty. A complete recovery ends in the first
or in the last one.
-/

namespace Orfos.Fs

open Orfos.Base Orfos.Base.Traced Orfos.Lib

section

variable {T : Terms} {s : State} {pins : Finset UInt32}

/-- `readHead` copies the header from the disk into memory. -/
theorem readHead_ensures (h : Calm s pins ∅) (hc : T.crash s.disk) (hs : s.log.start ∉ pins)
    (hl : T.total → (getU64 (s.disk s.log.start) 0).toNat ≤ LOG_SIZE) :
    Ensures T.regime Log.readHead s fun _ t ↦
      t = { s with cache := t.cache
                   log := { s.log with header := headerOf (s.disk s.log.start) } } ∧
        Calm t pins ∅ ∧ view t = view s := by
  have hd : view s s.log.start = s.disk s.log.start := h.view_eq_disk hs (by simp)
  refine ensures_gets_bind (hold_ensures h hc (by simp) ?_)
  intro i t _ hlt hi ht hv
  have hdt : t.disk = s.disk := by rw [hlt.frame]
  have hdata : (t.cache.buffers i).data = s.disk s.log.start := by rw [hi.data, hv, hd]
  refine ensures_assert_bind ?_ (T.crash_of_eq hc hdt) fun _ ↦ ensures_modify_bind ?_
  · rwa [hdata]
  rw [hdata]
  generalize headerOf (s.disk s.log.start) = header
  have ht' := ht.congr (t := { t with log := { t.log with header := header } }) rfl rfl
  have hv' := view_congr (s := t) (t := { t with log := { t.log with header := header } })
    rfl rfl rfl
  refine (release_clean_ensures ht' (T.crash_of_eq hc hdt) (by simp) (hi.congr rfl rfl)
    (.inr ?_)).imp ?_
  · rw [hv', hv, hd]
    exact (congrFun hdt _).symm
  · rintro _ u ⟨hlu, hu, hvu⟩
    refine ⟨?_, by simpa using hu, (hvu.trans hv').trans hv⟩
    rw [hlu.frame, hlt.frame]

/-- `writeHead` puts the header from memory on the disk. -/
theorem writeHead_ensures (h : Calm s pins ∅) (hc : T.crash s.disk) (hs : s.log.start ∉ pins)
    (hc' : T.crash (Function.update s.disk s.log.start
      (putHeader s.log.header (s.disk s.log.start)))) :
    Ensures T.regime Log.writeHead s fun _ t ↦
      t = { s with cache := t.cache
                   disk := Function.update s.disk s.log.start
                     (putHeader s.log.header (s.disk s.log.start)) } ∧
        Calm t pins ∅ ∧ ∀ b, b ≠ s.log.start → view t b = view s b := by
  have hd : view s s.log.start = s.disk s.log.start := h.view_eq_disk hs (by simp)
  refine ensures_gets_bind (hold_ensures h hc (by simp) ?_)
  intro i t _ hlt hi ht hv
  have hdt : t.disk = s.disk := by rw [hlt.frame]
  refine ensures_bind (store_ensures ht (by simp) hi _) ?_
  rintro _ u ⟨hlu, hiu, hu, hvu⟩
  have hdu : u.disk = s.disk := by rw [hlu.frame, hdt]
  have hst : view u s.log.start = putHeader s.log.header (s.disk s.log.start) := by
    rw [hvu, Function.update_self, hv, hd]
  refine ensures_bind (write_view_ensures hu (T.crash_of_eq hc hdu) (by simp) hiu) ?_
  rintro _ w ⟨hw, hcw, hvw⟩
  have hdw : w.disk = Function.update s.disk s.log.start
      (putHeader s.log.header (s.disk s.log.start)) := by rw [hw, hdu, hst]
  have hiw : Ptr w i s.log.start := by rw [hw]; exact hiu
  refine (release_clean_ensures hcw (by rwa [hdw]) (by simp) hiw (.inr ?_)).imp ?_
  · rw [hvw, hst, hdw, Function.update_self]
  · rintro _ x ⟨hlx, hx, hvx⟩
    refine ⟨?_, by simpa using hx, ?_⟩
    · rw [hlx.frame, hw, hdu, hst, hlu.frame, hlt.frame]
    · intro b hb
      rw [hvx, hvw, hvu, Function.update_of_ne hb, hv]

private theorem erase_pair (a b : UInt32) :
    ((insert b (insert a ∅) : Finset UInt32).erase b).erase a = ∅ := by
  ext c
  simp only [Finset.mem_erase, Finset.mem_insert, Finset.notMem_empty, or_false]
  tauto

/-- A round of `writeLog()` copies a home block to its log block. -/
theorem writeLogBlock_ensures {a b : UInt32} {k : Nat} (h : Calm s pins ∅)
    (hc : T.crash s.disk) (hk : Log.blockAt s.log.start k = a) (ha : a ∉ pins) (hb : b ∈ pins)
    (hc' : T.crash (Function.update s.disk a (view s b))) :
    Ensures T.regime (Log.writeLogBlock s.log (b, k)) s fun _ t ↦
      t = { s with cache := t.cache, disk := Function.update s.disk a (view s b) } ∧
        Calm t pins ∅ ∧ ∀ c, c ≠ a → view t c = view s c := by
  have hab : a ≠ b := fun he ↦ ha (he ▸ hb)
  unfold Log.writeLogBlock
  simp only [hk]
  refine hold_pair_ensures h hc (by simp) (by simp) hab ?_
  intro i j t hft hi hj ht hv
  have hdt : t.disk = s.disk := by rw [hft]
  refine ensures_gets_bind ?_
  rw [hj.data, hv]
  refine ensures_bind (store_ensures ht (by simp) hi fun _ ↦ view s b) ?_
  rintro _ u ⟨hlu, hiu, hu, hvu⟩
  have hdu : u.disk = s.disk := by rw [hlu.frame, hdt]
  have hvua : view u a = view s b := by rw [hvu, Function.update_self]
  refine ensures_bind (write_view_ensures hu (T.crash_of_eq hc hdu) (by simp) hiu) ?_
  rintro _ w ⟨hw, hcw, hvw⟩
  have hdw : w.disk = Function.update s.disk a (view s b) := by rw [hw, hdu, hvua]
  have hiw : Ptr w i a := by rw [hw]; exact hiu
  have hjw : Ptr w j b := by rw [hw]; exact hlu.ptr hj hab.symm
  refine ensures_bind (release_clean_ensures hcw (by rwa [hdw]) (by simp) hjw (.inl hb)) ?_
  rintro _ x ⟨hlx, hx, hvx⟩
  have hdx : x.disk = w.disk := by rw [hlx.frame]
  refine (release_clean_ensures hx (by rwa [hdx, hdw]) (by simp [hab])
    (hlx.ptr hiw hab) (.inr ?_)).imp ?_
  · rw [hvx, hvw, hvua, hdx, hdw, Function.update_self]
  · rintro _ y ⟨hly, hy, hvy⟩
    refine ⟨?_, erase_pair a b ▸ hy, ?_⟩
    · rw [hly.frame, hlx.frame, hw, hdu, hvua, hlu.frame, hft]
    · intro c hca
      rw [hvy, hvx, hvw, hvu, Function.update_of_ne hca, hv]

/-- The unpinning of a committed block; a recovered one is not pinned. -/
private theorem unpin_unless_ensures {b : UInt32} {j : Nat} {held : Finset UInt32}
    {recover : Bool} (h : Calm s pins held) (hc : T.crash s.disk) (hh : b ∈ held)
    (hb : b ∈ pins ↔ recover = false) (hj : Ptr s j b) :
    Ensures T.regime (if ¬ recover then BufferCache.unpin j else pure ()) s fun _ t ↦
      Local s t b ∧ Ptr t j b ∧ Calm t (pins.erase b) held ∧ view t = view s := by
  cases recover with
  | false => exact unpin_view_ensures h hc hh (hb.mpr rfl) hj
  | true =>
    have hn : b ∉ pins := fun hp ↦ by simpa using hb.mp hp
    refine ensures_pure ⟨⟨rfl, fun _ _ ↦ rfl⟩, hj, ?_, rfl⟩
    rwa [Finset.erase_eq_of_notMem hn]

/-- A round of `installTransaction` copies a log block to its home block, whose buffer is
unpinned after a commit. -/
theorem installBlock_ensures {a b : UInt32} {k : Nat} (recover : Bool) (h : Calm s pins ∅)
    (hc : T.crash s.disk) (hk : Log.blockAt s.log.start k = a) (ha : a ∉ pins) (hab : a ≠ b)
    (hb : b ∈ pins ↔ recover = false)
    (hc' : T.crash (Function.update s.disk b (s.disk a))) :
    Ensures T.regime (Log.installBlock recover s.log (b, k)) s fun _ t ↦
      t = { s with cache := t.cache, disk := Function.update s.disk b (s.disk a) } ∧
        Calm t (pins.erase b) ∅ := by
  have hda : view s a = s.disk a := h.view_eq_disk ha (by simp)
  unfold Log.installBlock
  simp only [hk]
  refine hold_pair_ensures h hc (by simp) (by simp) hab ?_
  intro i j t hft hi hj ht hv
  have hdt : t.disk = s.disk := by rw [hft]
  refine ensures_gets_bind ?_
  rw [hi.data, hv, hda]
  refine ensures_bind (store_ensures ht (by simp) hj fun _ ↦ s.disk a) ?_
  rintro _ u ⟨hlu, hju, hu, hvu⟩
  have hdu : u.disk = s.disk := by rw [hlu.frame, hdt]
  have hvub : view u b = s.disk a := by rw [hvu, Function.update_self]
  have hvua : view u a = s.disk a := by rw [hvu, Function.update_of_ne hab, hv, hda]
  refine ensures_bind (write_view_ensures hu (T.crash_of_eq hc hdu) (by simp) hju) ?_
  rintro _ w ⟨hw, hcw, hvw⟩
  have hdw : w.disk = Function.update s.disk b (s.disk a) := by rw [hw, hdu, hvub]
  have hiw : Ptr w i a := by rw [hw]; exact hlu.ptr hi hab
  have hjw : Ptr w j b := by rw [hw]; exact hju
  have hcr : T.crash w.disk := by rwa [hdw]
  refine ensures_bind (unpin_unless_ensures hcw hcr (by simp) hb hjw) ?_
  rintro _ x ⟨hlx, hjx, hx, hvx⟩
  have hdx : x.disk = w.disk := by rw [hlx.frame]
  refine ensures_bind (release_clean_ensures hx (T.crash_of_eq hcr hdx) (by simp)
    (hlx.ptr hiw hab) (.inr ?_)) ?_
  · rw [hvx, hvw, hvua, hdx, hdw, Function.update_of_ne hab]
  rintro _ y ⟨hly, hy, hvy⟩
  have hdy : y.disk = w.disk := by rw [hly.frame, hdx]
  refine (release_clean_ensures hy (T.crash_of_eq hcr hdy) (by simp [hab.symm])
    (hly.ptr hjx hab.symm) (.inr ?_)).imp ?_
  · rw [hvy, hvx, hvw, hvub, hdy, hdw, Function.update_self]
  · rintro _ z ⟨hlz, hz, -⟩
    refine ⟨?_, ?_⟩
    · rw [hlz.frame, hly.frame, hlx.frame, hw, hdu, hvub, hlu.frame, hft]
    · rw [Finset.insert_comm] at hz
      exact erase_pair b a ▸ hz

end

/-- Table insertions find room. -/
def Room : Call → State → Prop
  | .get device block, s => s.cache.bufferTable.HasRoom (key device block)
  | _, _ => True

theorem Room.hasRoom {device block : UInt32} {s : State} (h : Room (.get device block) s) :
    s.cache.bufferTable.HasRoom (key device block) := h

/-- A block of the log area. -/
def InLog (start : UInt32) (size : UInt64) (b : UInt32) : Prop :=
  ∃ i < size.toNat, b = start + UInt32.ofNat i

/-- A transaction: the log area, the logged blocks and the contents before and after. -/
structure Plan where
  start : UInt32
  size : UInt64
  header : List UInt32
  old : UInt32 → Block
  new : UInt32 → Block
  nodup : header.Nodup
  fits : header.length ≤ LOG_SIZE
  room : header.length < size.toNat
  outside : ∀ b ∈ header, ¬ InLog start size b
  same : ∀ b, ¬ InLog start size b → b ∉ header → new b = old b

namespace Plan

variable (P : Plan)

/-- The header is empty and the given contents are in place. -/
def Settled (v d : UInt32 → Block) : Prop :=
  headerOf (d P.start) = [] ∧ ∀ b, ¬ InLog P.start P.size b → d b = v b

/-- The header names the logged blocks and the log holds their new contents. -/
structure Pending (d : UInt32 → Block) : Prop where
  header : headerOf (d P.start) = P.header
  logged : ∀ b k, (b, k) ∈ P.header.zipIdx → d (Log.blockAt P.start k) = P.new b
  home : ∀ b, ¬ InLog P.start P.size b → d b = P.new b ∨ b ∈ P.header ∧ d b = P.old b

/-- What every disk of the transaction and of its recoveries satisfies. -/
def Recoverable (d : UInt32 → Block) : Prop :=
  P.Settled P.old d ∨ P.Pending d ∨ P.Settled P.new d

/-- The terms of a run that keeps the disk recoverable. -/
def terms (total : Prop) : Terms := ⟨Room, Room.hasRoom, P.Recoverable, total⟩

variable {P}

theorem start_inLog : InLog P.start P.size P.start :=
  ⟨0, by have := P.room; omega, by simp⟩

private theorem blockAt_eq (k : Nat) :
    Log.blockAt P.start k = P.start + UInt32.ofNat (k + 1) := by
  rw [Log.blockAt, UInt32.add_assoc]
  congr 1
  apply UInt32.toNat_inj.mp
  simp

private theorem lt_of_mem {b : UInt32} {k : Nat} (he : (b, k) ∈ P.header.zipIdx) :
    k < P.header.length := by
  have := List.snd_lt_of_mem_zipIdx he
  omega

private theorem fst_mem {b : UInt32} {k : Nat} (he : (b, k) ∈ P.header.zipIdx) :
    b ∈ P.header :=
  List.fst_mem_of_mem_zipIdx he

theorem blockAt_inLog {b : UInt32} {k : Nat} (he : (b, k) ∈ P.header.zipIdx) :
    InLog P.start P.size (Log.blockAt P.start k) := by
  have hk := lt_of_mem he
  have hr := P.room
  exact ⟨k + 1, by omega, blockAt_eq k⟩

theorem blockAt_ne_home {b c : UInt32} {k : Nat} (he : (b, k) ∈ P.header.zipIdx)
    (hc : ¬ InLog P.start P.size c) : Log.blockAt P.start k ≠ c := by
  rintro rfl
  exact hc (blockAt_inLog he)

private theorem add_ofNat_inj {a : UInt32} {i j : Nat} (hi : i < 2 ^ 32) (hj : j < 2 ^ 32)
    (h : a + UInt32.ofNat i = a + UInt32.ofNat j) : i = j := by
  have h' := congrArg UInt32.toNat ((UInt32.add_right_inj a).mp h)
  rwa [UInt32.toNat_ofNat', UInt32.toNat_ofNat', Nat.mod_eq_of_lt hi, Nat.mod_eq_of_lt hj] at h'

theorem blockAt_ne_start {b : UInt32} {k : Nat} (he : (b, k) ∈ P.header.zipIdx) :
    P.start ≠ Log.blockAt P.start k := by
  have hk := lt_of_mem he
  have hf : P.header.length ≤ 30 := P.fits
  rw [blockAt_eq]
  intro h
  have h0 := add_ofNat_inj (a := P.start) (i := 0) (j := k + 1) (by omega) (by omega)
    (by simpa using h)
  omega

theorem blockAt_inj {b c : UInt32} {k l : Nat} (he : (b, k) ∈ P.header.zipIdx)
    (hf : (c, l) ∈ P.header.zipIdx) (h : Log.blockAt P.start k = Log.blockAt P.start l) :
    b = c := by
  have hk := lt_of_mem he
  have hl := lt_of_mem hf
  have hfits : P.header.length ≤ 30 := P.fits
  rw [blockAt_eq, blockAt_eq] at h
  have hkl := add_ofNat_inj (by omega) (by omega) h
  obtain rfl : k = l := by omega
  rw [List.mk_mem_zipIdx_iff_getElem?] at he hf
  rw [he] at hf
  cases hf
  rfl

private theorem length_headerOf (data : Block) :
    (headerOf data).length = (getU64 data 0).toNat := by
  simp [headerOf]

/-- A recoverable disk has a header that fits the array it is read into. -/
theorem Recoverable.count_le {d : UInt32 → Block} (h : P.Recoverable d) :
    (getU64 (d P.start) 0).toNat ≤ LOG_SIZE := by
  rw [← length_headerOf]
  rcases h with h | h | h
  · simp [h.1]
  · rw [h.header]
    exact P.fits
  · simp [h.1]

/-- Writing an empty header leaves the contents alone. -/
theorem Settled.writeHead {v d : UInt32 → Block}
    (hv : ∀ b, ¬ InLog P.start P.size b → d b = v b) :
    P.Settled v (Function.update d P.start (putHeader [] (d P.start))) := by
  refine ⟨?_, fun b hb ↦ ?_⟩
  · rw [Function.update_self, headerOf_putHeader _ _ (by simp)]
  · have hne : b ≠ P.start := by
      rintro rfl
      exact hb start_inLog
    rw [Function.update_of_ne hne, hv b hb]

/-- Copying a log block home keeps a disk pending. -/
theorem Pending.install {d : UInt32 → Block} {b : UInt32} {k : Nat} (h : P.Pending d)
    (he : (b, k) ∈ P.header.zipIdx) :
    P.Pending (Function.update d b (d (Log.blockAt P.start k))) := by
  have hout := P.outside b (fst_mem he)
  refine ⟨?_, fun c l hf ↦ ?_, fun c hc ↦ ?_⟩
  · have hne : P.start ≠ b := fun heq ↦ hout (heq ▸ start_inLog)
    rw [Function.update_of_ne hne, h.header]
  · rw [Function.update_of_ne (blockAt_ne_home hf hout), h.logged c l hf]
  · rcases eq_or_ne c b with rfl | hne
    · exact .inl (by rw [Function.update_self, h.logged c k he])
    · rw [Function.update_of_ne hne]
      exact h.home c hc

section

variable {total : Prop} {s : State}

private theorem Pending.crash {d : UInt32 → Block} (h : P.Pending d) :
    (P.terms total).crash d :=
  Or.inr (Or.inl h)

private theorem Settled.crash {v d : UInt32 → Block} (h : P.Settled v d)
    (hv : v = P.old ∨ v = P.new) : (P.terms total).crash d := by
  rcases hv with rfl | rfl
  · exact Or.inl h
  · exact Or.inr (Or.inr h)

/-- The invariant of `installTransaction`, with the entries still to be copied. -/
private structure Installing (P : Plan) (recover : Bool) (s : State)
    (rest : List (UInt32 × Nat)) (t : State) : Prop where
  suffix : rest <:+ P.header.zipIdx
  frame : t = { s with cache := t.cache, disk := t.disk }
  calm : Calm t (if recover then ∅ else (rest.map Prod.fst).toFinset) ∅
  pending : P.Pending t.disk
  done : ∀ b k, (b, k) ∈ P.header.zipIdx → (b, k) ∈ rest ∨ t.disk b = P.new b

private theorem installing_step {recover : Bool} {e : UInt32 × Nat}
    {rest : List (UInt32 × Nat)} {t : State} (hs : s.log.start = P.start)
    (h : Installing P recover s (e :: rest) t) :
    Ensures (P.terms total).regime (Log.installBlock recover s.log e) t fun _ ↦
      Installing P recover s rest := by
  obtain ⟨b, k⟩ := e
  have he : (b, k) ∈ P.header.zipIdx := h.suffix.subset (by simp)
  have hout := P.outside b (fst_mem he)
  have hlog : t.log = s.log := by rw [h.frame]
  have hnd : (((b, k) :: rest).map Prod.fst).Nodup := by
    have hsub : (((b, k) :: rest).map Prod.fst).Sublist (P.header.zipIdx.map Prod.fst) :=
      h.suffix.sublist.map _
    rw [List.zipIdx_map_fst] at hsub
    exact hsub.nodup P.nodup
  obtain ⟨hb, -⟩ := List.nodup_cons.mp hnd
  rw [← hlog]
  have hinst := installBlock_ensures (T := P.terms total) (a := Log.blockAt P.start k) (b := b)
    (k := k) recover h.calm h.pending.crash (by rw [hlog, hs])
  have hne : Log.blockAt P.start k ≠ b := blockAt_ne_home he hout
  refine (hinst ?_ hne ?_ (h.pending.install he).crash).imp ?_
  · intro hm
    have hin := blockAt_inLog he
    cases recover with
    | true => simp at hm
    | false =>
      obtain ⟨⟨c, l⟩, hf, hfe⟩ := List.mem_map.mp (List.mem_toFinset.mp hm)
      rw [← hfe] at hin
      exact P.outside c (fst_mem (h.suffix.subset hf)) hin
  · cases recover <;> simp
  · rintro _ u ⟨hu, hcu⟩
    have hdu : u.disk = Function.update t.disk b (t.disk (Log.blockAt P.start k)) := by rw [hu]
    refine ⟨(List.suffix_cons _ _).trans h.suffix, ?_, ?_, ?_, ?_⟩
    · rw [hu, h.frame]
    · cases recover with
      | true => simpa using hcu
      | false =>
        have he' : (((b, k) :: rest).map Prod.fst).toFinset.erase b =
            (rest.map Prod.fst).toFinset := by
          rw [List.map_cons, List.toFinset_cons]
          exact Finset.erase_insert (by simpa using hb)
        simpa only [Bool.false_eq_true, if_false, he'] using hcu
    · rw [hdu]
      exact h.pending.install he
    · intro c l hf
      rw [hdu]
      rcases eq_or_ne c b with rfl | hcb
      · right
        rw [Function.update_self, h.pending.logged _ _ he]
      · rw [Function.update_of_ne hcb]
        refine (h.done c l hf).imp_left fun hm ↦ ?_
        rcases List.mem_cons.mp hm with heq | hm
        · exact absurd (Prod.mk.inj heq).1 hcb
        · exact hm

/-- `installTransaction` copies every logged block home. -/
theorem installTransaction_ensures (total : Prop) (recover : Bool)
    (h : Calm s (if recover then ∅ else P.header.toFinset) ∅) (hs : s.log.start = P.start)
    (hh : s.log.header = P.header) (hp : P.Pending s.disk) :
    Ensures (P.terms total).regime (Log.installTransaction recover) s fun _ t ↦
      t = { s with cache := t.cache, disk := t.disk } ∧ Calm t ∅ ∅ ∧ P.Pending t.disk ∧
        ∀ b, ¬ InLog P.start P.size b → t.disk b = P.new b := by
  refine ensures_gets_bind ?_
  rw [hh]
  refine (ensures_forM (I := Installing P recover s) ?_ fun _ _ _ ↦ installing_step hs).imp ?_
  · refine ⟨List.suffix_refl _, rfl, ?_, hp, fun _ _ ↦ .inl⟩
    rwa [List.zipIdx_map_fst]
  · intro _ t ht
    refine ⟨ht.frame, by simpa using ht.calm, ht.pending, fun b hb ↦ ?_⟩
    rcases ht.pending.home b hb with hn | ⟨hm, -⟩
    · exact hn
    · obtain ⟨k, hk⟩ := List.getElem?_of_mem hm
      exact (ht.done b k (List.mk_mem_zipIdx_iff_getElem?.mpr hk)).resolve_left (by simp)

/-- `log.header.n = 0` and `writeHead` settle the contents in place. -/
private theorem clear_writeHead_ensures {v : UInt32 → Block} (h : Calm s ∅ ∅)
    (hs : s.log.start = P.start) (hc : P.Recoverable s.disk) (hv : v = P.old ∨ v = P.new)
    (hd : ∀ b, ¬ InLog P.start P.size b → s.disk b = v b) :
    Ensures (P.terms total).regime (Log.clear >>= fun _ ↦ Log.writeHead) s fun _ t ↦
      t = { s with cache := t.cache, disk := t.disk, log := { s.log with header := [] } } ∧
        P.Settled v t.disk ∧ Calm t ∅ ∅ := by
  have hset : P.Settled v (Function.update s.disk P.start (putHeader [] (s.disk P.start))) :=
    Settled.writeHead hd
  refine ensures_modify_bind ?_
  have hw := writeHead_ensures (T := P.terms total)
    (s := { s with log := { s.log with header := [] } }) (h.congr rfl rfl) hc (by simp)
    (by simp only [hs]; exact hset.crash hv)
  refine hw.imp ?_
  rintro _ t ⟨ht, hct, -⟩
  have hdt : t.disk = Function.update s.disk P.start (putHeader [] (s.disk P.start)) := by
    rw [ht]
    simp only [hs]
  refine ⟨by rw [ht], ?_, hct⟩
  rw [hdt]
  exact hset

/-- A complete recovery settles the old or the new contents. -/
theorem recover_ensures (total : Prop) (h : Calm s ∅ ∅) (hs : s.log.start = P.start)
    (hc : P.Recoverable s.disk) :
    Ensures (P.terms total).regime Log.recover s fun _ t ↦
      (P.Settled P.old t.disk ∨ P.Settled P.new t.disk) ∧ t.log.header = [] := by
  have hread := readHead_ensures (T := P.terms total) h hc (by simp)
    (fun _ ↦ by rw [hs]; exact hc.count_le)
  refine ensures_bind hread ?_
  rintro _ t ⟨hft, ht, -⟩
  have hdt : t.disk = s.disk := by rw [hft]
  have hst : t.log.start = P.start := by rw [hft]; exact hs
  have hht : t.log.header = headerOf (s.disk P.start) := by
    rw [hft]
    simp only [hs]
  have hct : P.Recoverable t.disk := by rwa [hdt]
  -- from an empty header there is nothing to install
  have hidle : ∀ v, v = P.old ∨ v = P.new → P.Settled v s.disk →
      Ensures (P.terms total).regime (Log.installTransaction true >>= fun _ ↦
        Log.clear >>= fun _ ↦ Log.writeHead) t fun _ u ↦
          P.Settled v u.disk ∧ u.log.header = [] := by
    intro v hv hsv
    have hnil : t.log.header = [] := hht.trans hsv.1
    have hnop : Ensures (P.terms total).regime (Log.installTransaction true) t
        fun _ u ↦ u = t := by
      refine ensures_gets_bind ?_
      rw [hnil]
      exact ensures_pure rfl
    refine ensures_bind hnop ?_
    rintro _ _ rfl
    refine (clear_writeHead_ensures ht hst hct hv fun b hb ↦ ?_).imp ?_
    · rw [hdt]
      exact hsv.2 b hb
    · rintro _ u ⟨hfu, hu, -⟩
      exact ⟨hu, by rw [hfu]⟩
  rcases hc with hold | hpend | hnew
  · exact (hidle _ (.inl rfl) hold).imp fun _ _ hu ↦ ⟨.inl hu.1, hu.2⟩
  · rw [← hdt] at hpend
    have hinst := installTransaction_ensures total true ht hst
      (hht.trans (by rw [← hdt]; exact hpend.header)) hpend
    refine ensures_bind hinst ?_
    rintro _ u ⟨hfu, hu, hpu, hdu⟩
    have hsu : u.log.start = P.start := by rw [hfu]; exact hst
    refine (clear_writeHead_ensures hu hsu (.inr (.inl hpu)) (.inr rfl) hdu).imp ?_
    rintro _ w ⟨hfw, hw, -⟩
    exact ⟨.inr hw, by rw [hfw]⟩
  · exact (hidle _ (.inr rfl) hnew).imp fun _ _ hu ↦ ⟨.inr hu.1, hu.2⟩

/-- The cache holds the new contents of the logged blocks, the disk the old ones. -/
structure Ready (P : Plan) (s : State) : Prop where
  start : s.log.start = P.start
  header : s.log.header = P.header
  calm : Calm s P.header.toFinset ∅
  new : ∀ b, ¬ InLog P.start P.size b → view s b = P.new b
  settled : P.Settled P.old s.disk

/-- The invariant of `writeLog()`, with the entries still to be copied. -/
private structure Logging (P : Plan) (s : State) (rest : List (UInt32 × Nat)) (t : State) :
    Prop where
  suffix : rest <:+ P.header.zipIdx
  frame : t = { s with cache := t.cache, disk := t.disk }
  ready : Ready P t
  done : ∀ b k, (b, k) ∈ P.header.zipIdx →
    (b, k) ∈ rest ∨ t.disk (Log.blockAt P.start k) = P.new b

private theorem logging_step {e : UInt32 × Nat} {rest : List (UInt32 × Nat)} {t : State}
    (h : Logging P s (e :: rest) t) :
    Ensures (P.terms total).regime (Log.writeLogBlock s.log e) t fun _ ↦
      Logging P s rest := by
  obtain ⟨b, k⟩ := e
  have he : (b, k) ∈ P.header.zipIdx := h.suffix.subset (by simp)
  have hbm := fst_mem he
  have hlog : t.log = s.log := by rw [h.frame]
  have hin := blockAt_inLog he
  have hvb : view t b = P.new b := h.ready.new b (P.outside b hbm)
  have hset : P.Settled P.old (Function.update t.disk (Log.blockAt P.start k) (view t b)) := by
    refine ⟨?_, fun c hc ↦ ?_⟩
    · rw [Function.update_of_ne (blockAt_ne_start he)]
      exact h.ready.settled.1
    · rw [Function.update_of_ne (blockAt_ne_home he hc).symm]
      exact h.ready.settled.2 c hc
  rw [← hlog]
  have hround := writeLogBlock_ensures (T := P.terms total) (a := Log.blockAt P.start k) (b := b)
    (k := k) h.ready.calm (h.ready.settled.crash (.inl rfl)) (by rw [h.ready.start])
    (fun hm ↦ P.outside _ (List.mem_toFinset.mp hm) hin) (List.mem_toFinset.mpr hbm)
    (hset.crash (.inl rfl))
  refine hround.imp ?_
  rintro _ u ⟨hfu, hu, hvu⟩
  have hdu : u.disk = Function.update t.disk (Log.blockAt P.start k) (view t b) := by rw [hfu]
  refine ⟨(List.suffix_cons _ _).trans h.suffix, by rw [hfu, h.frame], ?_, ?_⟩
  · refine ⟨by rw [hfu]; exact h.ready.start, by rw [hfu]; exact h.ready.header, hu, ?_, ?_⟩
    · intro c hc
      rw [hvu c (blockAt_ne_home he hc).symm, h.ready.new c hc]
    · rw [hdu]
      exact hset
  · intro c l hf
    rw [hdu]
    rcases eq_or_ne (Log.blockAt P.start l) (Log.blockAt P.start k) with hkl | hkl
    · right
      rw [hkl, Function.update_self, hvb, blockAt_inj hf he hkl]
    · rw [Function.update_of_ne hkl]
      refine (h.done c l hf).imp_left fun hm ↦ ?_
      rcases List.mem_cons.mp hm with heq | hm
      · exact absurd (by rw [(Prod.mk.inj heq).2]) hkl
      · exact hm

/-- `writeLog()` copies every logged block to the log. -/
theorem writeLog_ensures (h : Ready P s) :
    Ensures (P.terms total).regime Log.writeLog s fun _ t ↦
      t = { s with cache := t.cache, disk := t.disk } ∧ Ready P t ∧
        ∀ b k, (b, k) ∈ P.header.zipIdx → t.disk (Log.blockAt P.start k) = P.new b := by
  refine ensures_gets_bind ?_
  rw [h.header]
  refine (ensures_forM (I := Logging P s) ?_ fun _ _ _ ↦ logging_step).imp ?_
  · exact ⟨List.suffix_refl _, rfl, h, fun _ _ ↦ .inl⟩
  · intro _ t ht
    exact ⟨ht.frame, ht.ready, fun b k hk ↦ (ht.done b k hk).resolve_left (by simp)⟩

/-- With the log written, the header makes the transaction pending. -/
private theorem Settled.pending {d : UInt32 → Block} (h : P.Settled P.old d)
    (hl : ∀ b k, (b, k) ∈ P.header.zipIdx → d (Log.blockAt P.start k) = P.new b) :
    P.Pending (Function.update d P.start (putHeader P.header (d P.start))) := by
  refine ⟨?_, fun b k hk ↦ ?_, fun b hb ↦ ?_⟩
  · rw [Function.update_self, headerOf_putHeader _ _ P.fits]
  · rw [Function.update_of_ne (blockAt_ne_start hk).symm, hl b k hk]
  · have hne : b ≠ P.start := by
      rintro rfl
      exact hb start_inLog
    rw [Function.update_of_ne hne, h.2 b hb]
    by_cases hm : b ∈ P.header
    · exact .inr ⟨hm, rfl⟩
    · exact .inl (P.same b hb hm).symm

/-- `commit` puts the new contents in place. -/
theorem commit_ensures (total : Prop) (h : Ready P s) :
    Ensures (P.terms total).regime Log.commit s fun _ t ↦
      t = { s with cache := t.cache, disk := t.disk, log := { s.log with header := [] } } ∧
        P.Settled P.new t.disk ∧ Calm t ∅ ∅ := by
  refine ensures_gets_bind ?_
  rw [h.header]
  split
  · refine ensures_bind (writeLog_ensures h) ?_
    rintro _ t ⟨hft, ht, hlt⟩
    have hpend := ht.settled.pending hlt
    have hns : t.log.start ∉ P.header.toFinset := by
      rw [ht.start]
      exact fun hm ↦ P.outside _ (List.mem_toFinset.mp hm) start_inLog
    have hhead := writeHead_ensures (T := P.terms total) ht.calm (ht.settled.crash (.inl rfl)) hns
      (by rw [ht.start, ht.header]; exact hpend.crash)
    refine ensures_bind hhead ?_
    rintro _ u ⟨hfu, hu, -⟩
    have hpu : P.Pending u.disk := by
      rw [hfu]
      simp only [ht.start, ht.header]
      exact hpend
    have hinst := installTransaction_ensures total false hu
      (by rw [hfu]; exact ht.start) (by rw [hfu]; exact ht.header) hpu
    refine ensures_bind hinst ?_
    rintro _ w ⟨hfw, hw, hpw, hdw⟩
    have hsw : w.log.start = P.start := by rw [hfw, hfu]; exact ht.start
    refine (clear_writeHead_ensures hw hsw (.inr (.inl hpw)) (.inr rfl) hdw).imp ?_
    rintro _ x ⟨hfx, hx, hcx⟩
    refine ⟨?_, hx, hcx⟩
    rw [hfx, hfw, hfu, hft]
  · next hn =>
    have hnil : P.header = [] := by simpa using hn
    refine ensures_pure ⟨?_, ⟨h.settled.1, fun b hb ↦ ?_⟩, ?_⟩
    · rw [← hnil, ← h.header]
    · rw [h.settled.2 b hb]
      exact (P.same b hb (by simp [hnil])).symm
    · simpa [hnil] using h.calm

end

end Plan
end Orfos.Fs
