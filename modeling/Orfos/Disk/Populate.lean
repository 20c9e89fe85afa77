import Orfos.Disk.Short
import Orfos.Fs.Contents

/-!
# The file system of an image

What the kernel finds on an image that `make_disk` has built: a healthy file system with the files
that it was given, and a root directory that lists them.
-/

namespace Orfos.Fs

open Orfos.Base

/-- `SuperBlock::read`, the fields in the block. -/
def SuperBlock.load (data : Block) : SuperBlock where
  size := getU32 data 4
  numInodes := getU32 data 12
  numLogs := getU32 data 16
  logStart := getU32 data 20
  inodeStart := getU32 data 24
  bmapStart := getU32 data 28

end Orfos.Fs

namespace Orfos.Disk

open Orfos.Base Orfos.Fs

/-- The entries of some names, for inodes from `inum` on. -/
def entries : UInt32 → List (List UInt8) → List UInt8
  | _, [] => []
  | inum, name :: names => entry inum name ++ entries (inum + 1) names

/-- What is appended to the root directory. -/
def listing (files : List Source) : List UInt8 :=
  entry 1 [0x2e] ++ (entry 1 [0x2e, 0x2e] ++ entries 2 (files.map Source.name))

/-- The bytes that are read from an input file. -/
def Source.bytes (f : Source) : List UInt8 := f.chunks.flatten

/-- How many blocks a file of a length has, with the indirect block. -/
def blocksFor (len : Nat) : Nat :=
  (len + (BLOCK_SIZE - 1)) / BLOCK_SIZE + if NUM_DIRECT_BLOCKS * BLOCK_SIZE < len then 1 else 0

section

variable {junk : Junk} {b : Build} {order : List Position} {i : UInt32} {files : List Source}

theorem length_entry {name : List UInt8} : (entry i name).length = 16 := by
  rw [entry, List.length_append, List.length_map, List.length_range]
  rfl

theorem length_entries {names : List (List UInt8)} :
    (entries i names).length = 16 * names.length := by
  induction names generalizing i with
  | nil => rfl
  | cons name names ih =>
    rw [entries, List.length_append, length_entry, ih, List.length_cons]
    omega

theorem length_listing : (listing files).length = 16 * (files.length + 2) := by
  rw [listing, List.length_append, List.length_append, length_entry, length_entry, length_entries,
    List.length_map]
  omega

/-! ### The calls of `main` -/

/-- The rounds over the chunks of a file. -/
theorem appendChunks_tidy (junk : Junk) (h : b.Tidy order) (hi : Live b.image i)
    (ps : List (List UInt8))
    (hmax : (b.contents i).length + ps.flatten.length ≤ MAX_FILE * BLOCK_SIZE) :
    ∃ b' order', b'.Tidy order' ∧ b.Carries b' (fun d ↦ appendChunks junk i d ps) ∧
      b'.contents = Function.update b.contents i (b.contents i ++ ps.flatten) ∧
      b'.image.freeInode = b.image.freeInode := by
  induction ps generalizing b order with
  | nil =>
    refine ⟨b, order, h, ⟨rfl, fun _ ↦ rfl, UInt32.le_refl _⟩, ?_, rfl⟩
    rw [List.flatten_nil, List.append_nil, Function.update_eq_self]
  | cons p ps ih =>
    rw [List.flatten_cons, List.length_append] at hmax
    obtain ⟨b₁, order₁, h₁, hc₁, hcontents₁, hinode₁⟩ :=
      appendInode_tidy junk h (i := i) (p := p) ⟨hi, by omega⟩
    have hi₁ : Live b₁.image i := by
      rw [Live, hinode₁]
      exact hi
    obtain ⟨b₂, order₂, h₂, hc₂, hcontents₂, hinode₂⟩ := ih h₁ hi₁ (by
      rw [hcontents₁, Function.update_self, List.length_append]
      omega)
    refine ⟨b₂, order₂, h₂, hc₁.bind hc₂, ?_, hinode₂.trans hinode₁⟩
    rw [hcontents₂, hcontents₁, Function.update_idem, Function.update_self, List.append_assoc,
      List.flatten_cons]

/-- What the rounds over the files add. -/
structure Added (b b' : Build) (fs : List Source) : Prop where
  freeInode : b'.image.freeInode.toNat = b.image.freeInode.toNat + fs.length
  root : b'.contents 1 = b.contents 1 ++ entries b.image.freeInode (fs.map Source.name)
  file : ∀ k f, fs[k]? = some f → b'.contents (b.image.freeInode + UInt32.ofNat k) = f.bytes
  other : ∀ j, j ≠ 1 → j < b.image.freeInode → b'.contents j = b.contents j

/-- The rounds over the files. -/
theorem addFiles_tidy (junk : Junk) (h : b.Tidy order) (hroot : 2 ≤ b.image.freeInode.toNat)
    (fs : List Source) (hinodes : b.image.freeInode.toNat + fs.length ≤ NUM_INODES)
    (hdir : (b.contents 1).length + 16 * fs.length ≤ MAX_FILE * BLOCK_SIZE)
    (hfiles : ∀ f ∈ fs, f.bytes.length ≤ MAX_FILE * BLOCK_SIZE) :
    ∃ b' order', b'.Tidy order' ∧ b.Carries b' (fun d ↦ addFiles junk 1 d fs) ∧ Added b b' fs := by
  induction fs generalizing b order with
  | nil =>
    refine ⟨b, order, h, ⟨rfl, fun _ ↦ rfl, UInt32.le_refl _⟩, rfl, ?_, ?_, fun _ _ _ ↦ rfl⟩
    · exact (List.append_nil _).symm
    · intro k f hk
      cases hk
  | cons f fs ih =>
    rw [List.length_cons] at hinodes hdir
    have hlt : b.image.freeInode.toNat < 200 := by
      have hinodes' : b.image.freeInode.toNat + (fs.length + 1) ≤ 200 := hinodes
      omega
    obtain ⟨b₁, h₁, hwhole, hshort, hcontents₁, hinode₁, hfree₁⟩ :=
      allocateInode_tidy junk h hlt T_FILE
    set inum := b.image.freeInode with hinum
    have hone : (inum + 1).toNat = inum.toNat + 1 := by
      rw [UInt32.toNat_add]
      change (inum.toNat + 1) % 4294967296 = _
      omega
    have hne : inum ≠ 1 := by
      intro he
      rw [he] at hroot
      exact absurd hroot (by decide)
    have hlive : ∀ j : UInt32, 1 ≤ j.toNat → j ≤ inum → Live b₁.image j := by
      intro j hge hle
      refine ⟨hge, ?_⟩
      rw [hinode₁, UInt32.lt_iff_toNat_lt, hone]
      have hle' := UInt32.le_iff_toNat_le.mp hle
      omega
    -- the entry in the root directory
    have hroot₁ : b₁.contents 1 = b.contents 1 := by
      rw [hcontents₁, Function.update_of_ne hne.symm]
    have hlive₁ : Live b₁.image 1 := hlive 1 (Nat.le_refl _) (UInt32.le_iff_toNat_le.mpr (by
      change 1 ≤ inum.toNat
      omega))
    obtain ⟨b₂, order₂, h₂, hc₂, hcontents₂, hinode₂⟩ :=
      appendInode_tidy junk h₁ (i := 1) (p := entry inum f.name) ⟨hlive₁, by
        rw [hroot₁, length_entry]
        omega⟩
    -- the bytes of the file
    have hempty : b₂.contents inum = [] := by
      rw [hcontents₂, Function.update_of_ne hne, hcontents₁, Function.update_self]
    have hlive₂ : Live b₂.image inum := by
      rw [Live, hinode₂]
      exact hlive inum (by omega) (UInt32.le_refl _)
    have hbytes := hfiles f List.mem_cons_self
    obtain ⟨b₃, order₃, h₃, hc₃, hcontents₃, hinode₃⟩ :=
      appendChunks_tidy junk h₂ hlive₂ f.chunks (by
        rw [hempty]
        exact (Nat.zero_add _).trans_le hbytes)
    rw [hempty, List.nil_append] at hcontents₃
    have hnext : b₃.image.freeInode = inum + 1 := (hinode₃.trans hinode₂).trans hinode₁
    have hroot₃ : b₃.contents 1 = b.contents 1 ++ entry inum f.name := by
      rw [hcontents₃, Function.update_of_ne hne.symm, hcontents₂, Function.update_self, hroot₁]
    obtain ⟨b₄, order₄, h₄, hc₄, ha⟩ := ih h₃ (by rw [hnext, hone]; omega)
      (by rw [hnext, hone]; omega)
      (by rw [hroot₃, List.length_append, length_entry]; omega)
      fun g hg ↦ hfiles g (List.mem_cons_of_mem _ hg)
    have hrest := hc₂.bind (hc₃.bind hc₄)
    refine ⟨b₄, order₄, h₄, ⟨?_, fun hle ↦ ?_, hfree₁ ▸ hrest.le⟩, ?_, ?_, fun k g hk ↦ ?_,
      fun j hj hlt ↦ ?_⟩
    · rw [addFiles, hwhole]
      exact hrest.runs
    · rw [addFiles, hshort]
      exact hrest.short hle
    · rw [ha.freeInode, hnext, hone, ← hinum, List.length_cons]
      omega
    · rw [ha.root, hroot₃, hnext, ← hinum, List.append_assoc, List.map_cons, entries]
    · cases k with
      | zero =>
        cases hk
        have hself : inum + UInt32.ofNat 0 = inum := UInt32.add_zero _
        rw [← hinum, hself, ha.other inum hne (by rw [hnext, UInt32.lt_iff_toNat_lt, hone]; omega),
          hcontents₃, Function.update_self, Source.bytes]
      | succ k =>
        have hstep : inum + UInt32.ofNat (k + 1) = inum + 1 + UInt32.ofNat k := by
          rw [UInt32.ofNat_add, UInt32.add_comm (UInt32.ofNat k), UInt32.add_assoc]
          rfl
        rw [← hinum, hstep, ← hnext]
        exact ha.file k g hk
    · rw [← hinum] at hlt
      have hji : j ≠ inum := by
        rintro rfl
        exact UInt32.lt_irrefl _ hlt
      rw [ha.other j hj (by
          rw [hnext]
          rw [UInt32.lt_iff_toNat_lt] at hlt ⊢
          omega),
        hcontents₃, Function.update_of_ne hji, hcontents₂, Function.update_of_ne hj, hcontents₁,
        Function.update_of_ne hji]

/-! ### The image before the calls -/

theorem zeroFrom_blocks {n s : Nat} {d : Image} (h : d.blocks = fun _ ↦ Block.zero)
    (hf : d.failed = false) :
    (zeroFrom n s d).blocks = (fun _ ↦ Block.zero) ∧ (zeroFrom n s d).failed = false ∧
      (zeroFrom n s d).freeInode = d.freeInode ∧ (zeroFrom n s d).freeBlock = d.freeBlock ∧
      (zeroFrom n s d).misses = d.misses := by
  induction n generalizing s d with
  | zero => exact ⟨h, hf, rfl, rfl, rfl⟩
  | succ n ih =>
    rw [zeroFrom]
    split
    · have hwrite : (writeSector d (UInt32.ofNat s) Block.zero).blocks = fun _ ↦ Block.zero := by
        rw [writeSector, if_neg (by rw [hf]; decide), h]
        exact Function.update_eq_self _ _
      have hrest : (writeSector d (UInt32.ofNat s) Block.zero).failed = false ∧
          (writeSector d (UInt32.ofNat s) Block.zero).freeInode = d.freeInode ∧
          (writeSector d (UInt32.ofNat s) Block.zero).freeBlock = d.freeBlock ∧
          (writeSector d (UInt32.ofNat s) Block.zero).misses = d.misses := by
        rw [writeSector, if_neg (by rw [hf]; decide)]
        exact ⟨hf, rfl, rfl, rfl⟩
      obtain ⟨hf', hi, hb, hm⟩ := hrest
      obtain ⟨hblocks, hfail, hi', hb', hm'⟩ := ih (s := s + BLOCK_SIZE) hwrite hf'
      exact ⟨hblocks, hfail, hi'.trans hi, hb'.trans hb, hm'.trans hm⟩
    · exact ⟨h, hf, rfl, rfl, rfl⟩

/-- An image on which every block exists, formatted. -/
def formatted : Build where
  image := ⟨Function.update (fun _ ↦ Block.zero) 1 superBlockBytes, 2 ^ 32, false, 0, 1,
    UInt32.ofNat numMeta⟩
  contents _ := []

theorem format_eq : format = formatted.image.short := by
  obtain ⟨hblocks, hf, hi, hb, hm⟩ := zeroFrom_blocks (n := FS_SIZE) (s := 0) (d := opened) rfl rfl
  have hlen : (1 : UInt32).toNat < (zeroFrom FS_SIZE 0 opened).length := by
    rw [length_zeroFrom]
    decide
  have hlength := length_zeroFrom
  rw [format, writeSector_of_lt hf hlen]
  generalize zeroFrom FS_SIZE 0 opened = d at *
  obtain ⟨blocks, length, failed, misses, freeInode, freeBlock⟩ := d
  dsimp only at hblocks hf hi hb hm hlength
  rw [hblocks, hf, hi, hb, hm, hlength]
  rfl

/-- A blank slot is an inode without blocks. -/
theorem load_zero (o : Nat) : DiskInode.load Block.zero o = ⟨0, 0, 0, 0, 0, fun _ ↦ 0, 0⟩ := by
  have hword : ∀ k, getU16 Block.zero k = 0 := fun k ↦ by simp [getU16, getLe, byteAt_zero]
  simp only [DiskInode.load, hword, getU32_zero]

theorem formatted_blocks (x : UInt32) :
    formatted.image.blocks x = if x = 1 then superBlockBytes else Block.zero := by
  change Function.update (fun _ ↦ Block.zero) (1 : UInt32) superBlockBytes x = _
  rw [Function.update_apply]

theorem formatted_begins : formatted.Begins := by
  refine ⟨⟨rfl, Nat.le_refl _⟩, rfl, rfl, fun x hx ↦ ?_⟩
  have hne : x ≠ 1 := by
    rintro rfl
    exact absurd hx (by decide)
  rw [formatted_blocks, if_neg hne]

theorem formatted_tidy : formatted.Tidy [] := by
  refine ⟨formatted_begins.kept, fun i k hq ↦ absurd hq List.not_mem_nil, fun i hi _ ↦ ?_,
    fun x _ ↦ formatted_blocks x⟩
  have hne : iblock i sb ≠ 1 := by
    intro he
    have hplace := iblock_toNat hi
    rw [he] at hplace
    change 1 = _ at hplace
    omega
  rw [inodeAt, formatted_blocks, if_neg hne, load_zero]

/-- What `main` has appended before `finish`. -/
structure Filled (b : Build) (files : List Source) : Prop where
  freeInode : b.image.freeInode.toNat = files.length + 2
  root : b.contents 1 = listing files
  file : ∀ k f, files[k]? = some f → b.contents (2 + UInt32.ofNat k) = f.bytes

/-- `main` up to `finish`. -/
theorem populate_tidy (junk : Junk) (hlen : files.length + 2 ≤ NUM_INODES)
    (hfiles : ∀ f ∈ files, f.bytes.length ≤ MAX_FILE * BLOCK_SIZE) :
    ∃ b order, b.Tidy order ∧ Filled b files ∧ (b.image.freeBlock.toNat ≤ 1025 →
      populate junk files format = finish junk 1 b.image.short) := by
  have hlen' : files.length + 2 ≤ 200 := hlen
  obtain ⟨b₁, h₁, -, hshort₁, hcontents₁, hinode₁, -⟩ :=
    allocateInode_tidy junk formatted_tidy (by decide) T_DIR
  have hlive : ∀ b : Build, b.image.freeInode = b₁.image.freeInode → Live b.image 1 := by
    intro b hb
    rw [Live, hb, hinode₁]
    decide
  have hempty : b₁.contents 1 = [] := by
    rw [hcontents₁]
    exact Function.update_self ..
  obtain ⟨b₂, order₂, h₂, hc₂, hcontents₂, hinode₂⟩ :=
    appendInode_tidy junk h₁ (i := 1) (p := entry 1 [0x2e]) ⟨hlive b₁ rfl, by
      rw [hempty, length_entry]
      decide⟩
  have hroot₂ : b₂.contents 1 = entry 1 [0x2e] := by
    rw [hcontents₂, Function.update_self, hempty, List.nil_append]
  obtain ⟨b₃, order₃, h₃, hc₃, hcontents₃, hinode₃⟩ :=
    appendInode_tidy junk h₂ (i := 1) (p := entry 1 [0x2e, 0x2e]) ⟨hlive b₂ hinode₂, by
      rw [hroot₂, length_entry, length_entry]
      decide⟩
  have hroot₃ : b₃.contents 1 = entry 1 [0x2e] ++ entry 1 [0x2e, 0x2e] := by
    rw [hcontents₃, Function.update_self, hroot₂]
  have htwo : b₃.image.freeInode = 2 := by
    rw [hinode₃, hinode₂, hinode₁]
    rfl
  obtain ⟨b₄, order₄, h₄, hc₄, ha⟩ := addFiles_tidy junk h₃ (by rw [htwo]; decide) files
    (by
      rw [htwo]
      change 2 + files.length ≤ 200
      omega)
    (by
      rw [hroot₃, List.length_append, length_entry, length_entry]
      change 16 + 16 + _ ≤ 274432
      omega)
    hfiles
  refine ⟨b₄, order₄, h₄, ⟨?_, ?_, fun k f hk ↦ ?_⟩, fun hle ↦ ?_⟩
  · rw [ha.freeInode, htwo]
    exact Nat.add_comm _ _
  · rw [ha.root, hroot₃, htwo, listing, List.append_assoc]
  · rw [← htwo]
    exact ha.file k f hk
  · have hle₃ := UInt32.le_iff_toNat_le.mp hc₄.le
    have hle₂ := UInt32.le_iff_toNat_le.mp hc₃.le
    have hrun₂ : appendInode junk b₁.image.short 1 (entry 1 [0x2e]) = some b₂.image.short :=
      hc₂.short (by omega)
    have hrun₃ : appendInode junk b₂.image.short 1 (entry 1 [0x2e, 0x2e]) =
        some b₃.image.short := hc₃.short (by omega)
    have hrun₄ : addFiles junk 1 b₃.image.short files = some b₄.image.short := hc₄.short hle
    have hroot : allocateInode junk formatted.image.short T_DIR = (1, b₁.image.short) := hshort₁
    rw [format_eq, populate, hroot]
    dsimp only
    rw [hrun₂, Option.bind_some, hrun₃, Option.bind_some, hrun₄, Option.bind_some]

/-! ### How many blocks are used -/

/-- The positions of a file of a length. -/
def positions (i : UInt32) (len : Nat) : List Position :=
  (List.range ((len + (BLOCK_SIZE - 1)) / BLOCK_SIZE)).map (.data i) ++
    if NUM_DIRECT_BLOCKS * BLOCK_SIZE < len then [.indirect i] else []

theorem length_positions {len : Nat} : (positions i len).length = blocksFor len := by
  rw [positions, List.length_append, List.length_map, List.length_range, blocksFor]
  split
  · rfl
  · rfl

theorem data_mem_positions {len k : Nat} (h : k * BLOCK_SIZE < len) :
    .data i k ∈ positions i len := by
  have h' : k * 1024 < len := h
  refine List.mem_append_left _ (List.mem_map_of_mem (List.mem_range.mpr ?_))
  change k < (len + 1023) / 1024
  omega

theorem indirect_mem_positions {len : Nat} (h : NUM_DIRECT_BLOCKS * BLOCK_SIZE < len) :
    .indirect i ∈ positions i len := by
  rw [positions, if_pos h]
  exact List.mem_append_right _ List.mem_cons_self

/-- An inode that is in use is the root directory or the inode of a file. -/
theorem Filled.live (h : Filled b files) (hi : Live b.image i) :
    i = 1 ∨ ∃ k f, files[k]? = some f ∧ i = 2 + UInt32.ofNat k := by
  obtain ⟨hge, hlt⟩ := hi
  have hfree := h.freeInode
  rw [UInt32.lt_iff_toNat_lt] at hlt
  by_cases hone : i = 1
  · exact .inl hone
  · have hne : i.toNat ≠ 1 := fun he ↦ hone (UInt32.toNat_inj.mp he)
    have hk : i.toNat - 2 < files.length := by omega
    refine .inr ⟨i.toNat - 2, files[i.toNat - 2], List.getElem?_eq_getElem hk, ?_⟩
    refine UInt32.toNat_inj.mp ?_
    have hi := i.toNat_lt
    rw [UInt32.toNat_add, UInt32.toNat_ofNat']
    change i.toNat = (2 + (i.toNat - 2) % 4294967296) % 4294967296
    omega

/-- No more blocks are used than the files need. -/
theorem Filled.freeBlock_le (h : Filled b files) (hb : b.Tidy order) :
    b.image.freeBlock.toNat ≤ numMeta + (blocksFor (listing files).length +
      (files.map fun f ↦ blocksFor f.bytes.length).sum) := by
  set all := positions 1 (listing files).length ++ files.zipIdx.flatMap fun x ↦
    positions (2 + UInt32.ofNat x.2) x.1.bytes.length with hall
  have hlen : all.length = blocksFor (listing files).length +
      (files.map fun f ↦ blocksFor f.bytes.length).sum := by
    rw [hall, List.length_append, length_positions, List.length_flatMap]
    congr 2
    simp only [length_positions]
    conv_rhs => rw [← List.zipIdx_map_fst 0 files, List.map_map]
    rfl
  have hfile : ∀ i, Live b.image i → positions i (b.contents i).length ⊆ all := by
    intro i hi p hp
    rcases h.live hi with rfl | ⟨k, f, hk, rfl⟩
    · rw [h.root] at hp
      exact List.mem_append_left _ hp
    · rw [h.file k f hk] at hp
      refine List.mem_append_right _ (List.mem_flatMap.mpr ⟨(f, k), ?_, hp⟩)
      exact List.mem_zipIdx_iff_getElem?.mpr hk
  have hsub : order ⊆ all := by
    intro p hp
    cases p with
    | data i k =>
      have hi := (hb.kept.numbered.within _ hp).1
      exact hfile i hi (data_mem_positions (((hb.kept.shaped i hi).1 k).mp hp))
    | indirect i =>
      have hi : Live b.image i := hb.kept.numbered.within _ hp
      exact hfile i hi (indirect_mem_positions ((hb.kept.shaped i hi).2.mp hp))
  have hle := (List.subperm_of_subset hb.kept.numbered.nodup hsub).length_le
  have hcount := hb.kept.numbered.count
  omega

/-! ### The end of `main` -/

/-- The inode of the root directory after `finish`. -/
def rootInode (b : Build) : DiskInode :=
  { inodeAt b.image.blocks 1 with
    size := UInt32.ofNat (((inodeAt b.image.blocks 1).size.toNat / BLOCK_SIZE + 1) * BLOCK_SIZE) }

/-- The blocks after `finish`. -/
def finished (b : Build) : UInt32 → Block :=
  Function.update (Function.update b.image.blocks (iblock 1 sb)
      ((rootInode b).store (dinodeAt 1) (b.image.blocks (iblock 1 sb))))
    sb.bmapStart ((List.range b.image.freeBlock.toNat).foldl setBit Block.zero)

theorem finish_short (junk : Junk) (h : b.Tidy order) (hfree : b.image.freeBlock.toNat ≤ 1025) :
    finish junk 1 b.image.short = some (Image.short { b.image with blocks := finished b }) := by
  have hone : (1 : UInt32).toNat < NUM_INODES := by decide
  have hlt : b.image.freeBlock.toNat < BLOCK_SIZE * 8 := Nat.lt_of_le_of_lt hfree (by decide)
  have hw := h.kept.whole
  rw [finish, readInode_short hw.failed hone]
  change allocateBlock (writeInode junk b.image.short 1 (rootInode b))
    (writeInode junk b.image.short 1 (rootInode b)).freeBlock = _
  rw [writeInode_short hw hone, writeInode_whole hw, allocateBlock]
  have hw' : Whole { b.image with
      blocks := Function.update b.image.blocks (iblock 1 sb)
        ((rootInode b).store (dinodeAt 1) (b.image.blocks (iblock 1 sb))) } :=
    ⟨hw.failed, hw.length⟩
  refine (if_pos hlt).trans (congrArg some ((writeSector_short hw' (by decide) _).trans ?_))
  rw [writeSector_whole hw']
  rfl

/-! ### What the kernel finds -/

theorem finished_data {x : UInt32} (hx : numMeta ≤ x.toNat) : finished b x = b.image.blocks x := by
  have hbitmap : x ≠ sb.bmapStart := by
    rintro rfl
    exact absurd hx (by decide)
  have hinode : x ≠ iblock 1 sb := by
    rintro rfl
    exact absurd hx (by decide)
  rw [finished, Function.update_of_ne hbitmap, Function.update_of_ne hinode]

theorem finished_front (h : b.Tidy order) {x : UInt32} (hx : x.toNat < sb.inodeStart.toNat) :
    finished b x = if x = 1 then superBlockBytes else Block.zero := by
  have hbitmap : x ≠ sb.bmapStart := by
    rintro rfl
    exact absurd hx (by decide)
  rw [finished, Function.update_of_ne hbitmap, Function.update_of_ne (ne_iblock (by decide) hx),
    h.front x hx]

theorem inodeAt_finished {j : UInt32} (hj : j.toNat < NUM_INODES) :
    inodeAt (finished b) j = Function.update (inodeAt b.image.blocks) 1 (rootInode b) j := by
  have hne : iblock j sb ≠ sb.bmapStart := by
    intro he
    have hplace := iblock_toNat hj
    have hj' : j.toNat < 200 := hj
    rw [he] at hplace
    change 45 = _ at hplace
    omega
  rw [← inodeAt_store (by decide) hj, inodeAt, finished, Function.update_of_ne hne, inodeAt]

theorem sameBlocks_finished {j : UInt32} (hj : j.toNat < NUM_INODES) :
    SameBlocks (inodeAt b.image.blocks j) (inodeAt (finished b) j) := by
  rw [inodeAt_finished hj]
  by_cases hone : j = 1
  · rw [hone, Function.update_self]
    exact ⟨rfl, rfl⟩
  · rw [Function.update_of_ne hone]
    exact ⟨rfl, rfl⟩

theorem target_finished (h : b.Tidy order) {p : Position} (hp : p ∈ order) :
    target (finished b) (inodeAt (finished b)) p = blockOf b.image p := by
  rw [target_of_same (h.kept.numbered.within _ hp)
    fun j hj ↦ sameBlocks_finished (h.kept.live_lt hj)]
  exact target_of_blocks (h.kept.numbered.rooted _ hp)
    fun i hi ↦ finished_data (h.kept.numbered.range hi).1

theorem place_finished (h : b.Tidy order) {p : Position} (hp : p ∈ order) :
    place sb (finished b) p = blockOf b.image p := by
  rw [← target_finished h hp]
  cases p with
  | data m k =>
    change blockIn _ (inodeAt (finished b) m) k = blockAt _ (inodeAt (finished b) m) k
    unfold blockIn blockAt
    split
    · rfl
    · next hk =>
      have hind := h.kept.numbered.rooted _ hp (Nat.not_lt.mp hk)
      have hne := h.kept.numbered.ne_zero hind
      change blockOf b.image _ ≠ 0 at hne
      rw [← target_finished h hind] at hne
      exact if_neg hne
  | indirect m => rfl

/-- Positions that nothing was appended to have no block. -/
theorem place_zero (h : b.Tidy order) {p : Position} (hin : Position.Inside sb p)
    (hp : p ∉ order) : place sb (finished b) p = 0 := by
  cases p with
  | data m k =>
    have hm : m.toNat < NUM_INODES := UInt32.lt_iff_toNat_lt.mp hin.1
    obtain ⟨hd, hi⟩ := sameBlocks_finished (b := b) hm
    change blockIn _ (inodeAt (finished b) m) k = 0
    rw [blockIn, hd, hi]
    by_cases hl : Live b.image m
    · by_cases hk : k < NUM_DIRECT_BLOCKS
      · have hz := h.kept.numbered.zero (.data m k) ⟨hl, hin.2⟩
          (fun hge ↦ absurd hk (Nat.not_lt.mpr hge)) hp
        change blockAt _ _ _ = 0 at hz
        rw [blockAt, dif_pos hk] at hz
        rw [dif_pos hk, hz]
      · rw [dif_neg hk]
        by_cases hmem : .indirect m ∈ order
        · have hz := h.kept.numbered.zero (.data m k) ⟨hl, hin.2⟩ (fun _ ↦ hmem) hp
          have hge := (h.kept.numbered.range hmem).1
          have hne := h.kept.numbered.ne_zero hmem
          change blockAt _ _ _ = 0 at hz
          rw [blockAt, dif_neg hk] at hz
          change numMeta ≤ (inodeAt b.image.blocks m).indirectBlock.toNat at hge
          change (inodeAt b.image.blocks m).indirectBlock ≠ 0 at hne
          rw [if_neg hne, finished_data hge, hz]
        · exact if_pos (h.kept.numbered.zero (.indirect m) hl trivial hmem)
    · rw [h.idle m hm hl]
      split
      · rfl
      · rfl
  | indirect m =>
    have hm : m.toNat < NUM_INODES := UInt32.lt_iff_toNat_lt.mp hin
    change (inodeAt (finished b) m).indirectBlock = 0
    rw [(sameBlocks_finished hm).2]
    by_cases hl : Live b.image m
    · exact h.kept.numbered.zero (.indirect m) hl trivial hp
    · rw [h.idle m hm hl]

theorem mem_of_place (h : b.Tidy order) {p : Position} (hin : Position.Inside sb p)
    (hne : place sb (finished b) p ≠ 0) : p ∈ order :=
  Classical.byContradiction fun hp ↦ hne (place_zero h hin hp)

theorem bitOf_finished (hfree : b.image.freeBlock.toNat ≤ 1025) {x : UInt32} (hx : x < sb.size) :
    bitOf sb (finished b) x = decide (x.toNat < b.image.freeBlock.toNat) := by
  have hx' : x.toNat < 2000 := UInt32.lt_iff_toNat_lt.mp hx
  have hblock : bblock x sb = sb.bmapStart := by
    refine UInt32.toNat_inj.mp ?_
    rw [bblock, UInt32.toNat_add, UInt32.toNat_div]
    change (x.toNat / 8192 + 45) % 4294967296 = 45
    omega
  have hmod : x.toNat % BITS_PER_BLOCK = x.toNat := Nat.mod_eq_of_lt (by
    change x.toNat < 8192
    omega)
  rw [bitOf, hblock, hmod, finished, Function.update_self]
  exact bitAt_bitmap (Nat.le_trans hfree (by decide)) _

/-- The sizes after `finish`: that of the root directory is rounded, up to the end of a block. -/
theorem size_finished (h : b.Tidy order)
    (hround : (b.contents 1).length % BLOCK_SIZE ≠ 0) {m : UInt32} (hm : Live b.image m) :
    (∀ k, k * BLOCK_SIZE < (inodeAt (finished b) m).size.toNat → .data m k ∈ order) ∧
      (b.contents m).length ≤ (inodeAt (finished b) m).size.toNat ∧
      (inodeAt (finished b) m).size.toNat ≤ MAX_FILE * BLOCK_SIZE ∧
      (inodeAt (finished b) m).size.toNat = if m = 1 then
        ((b.contents 1).length / BLOCK_SIZE + 1) * BLOCK_SIZE else (b.contents m).length := by
  rw [inodeAt_finished (h.kept.live_lt hm)]
  by_cases hm₁ : m = 1
  · subst hm₁
    have hle : (b.contents 1).length ≤ ((b.contents 1).length / 1024 + 1) * 1024 := by
      clear hround
      omega
    obtain ⟨hsize, hmax⟩ := h.kept.size 1 hm
    have hmax' : (b.contents 1).length ≤ 274432 := hmax
    have hround' : (b.contents 1).length % 1024 ≠ 0 := hround
    have hval : (rootInode b).size.toNat = ((b.contents 1).length / 1024 + 1) * 1024 := by
      rw [rootInode, hsize, UInt32.toNat_ofNat']
      change ((b.contents 1).length / 1024 + 1) * 1024 % 4294967296 = _
      omega
    rw [Function.update_self, if_pos rfl, hval]
    refine ⟨fun k hk ↦ ((h.kept.shaped 1 hm).1 k).mpr ?_, hle, ?_, rfl⟩
    · have hk' : k * 1024 < ((b.contents 1).length / 1024 + 1) * 1024 := hk
      change k * 1024 < _
      omega
    · change _ ≤ 274432
      omega
  · obtain ⟨hsize, hmax⟩ := h.kept.size m hm
    rw [Function.update_of_ne hm₁, if_neg hm₁, hsize]
    exact ⟨fun k hk ↦ ((h.kept.shaped m hm).1 k).mpr hk, Nat.le_refl _, hmax, rfl⟩

/-- The file system is healthy. -/
theorem finished_healthy (h : b.Tidy order) (hfree : b.image.freeBlock.toNat ≤ 1025)
    (hone : Live b.image 1) (hround : (b.contents 1).length % BLOCK_SIZE ≠ 0) :
    Healthy sb (finished b) := by
  have hn := h.kept.numbered
  have hsize : ∀ x : UInt32, x < b.image.freeBlock → x < sb.size := by
    intro x hx
    rw [UInt32.lt_iff_toNat_lt] at hx ⊢
    exact Nat.lt_trans (Nat.lt_of_lt_of_le hx hfree) (by decide)
  -- an inode that is not in use has no bytes
  have hidle : ∀ m : UInt32, m.toNat < NUM_INODES → ¬ Live b.image m →
      (inodeAt (finished b) m).size.toNat = 0 := by
    intro m hm hl
    have hm₁ : m ≠ 1 := by
      rintro rfl
      exact hl hone
    rw [inodeAt_finished hm, Function.update_of_ne hm₁, h.idle m hm hl]
    rfl
  refine ⟨fun p hin hne ↦ ?_, fun p hin hne ↦ ?_, fun p q hp hq he hne ↦ ?_, fun x hx hlt hbit ↦ ?_,
    fun x hlt hbit ↦ ?_, fun m hm k hk ↦ ?_, fun m hm ↦ ?_⟩
  · have hp := mem_of_place h hin hne
    rw [place_finished h hp]
    exact ⟨(hn.range hp).1, hsize _ (hn.range hp).2⟩
  · have hp := mem_of_place h hin hne
    have hlt := (hn.range hp).2
    rw [place_finished h hp, bitOf_finished hfree (hsize _ hlt)]
    exact decide_eq_true (UInt32.lt_iff_toNat_lt.mp hlt)
  · have hp' := mem_of_place h hp hne
    rw [he] at hne
    have hq' := mem_of_place h hq hne
    rw [place_finished h hp', place_finished h hq'] at he
    exact hn.inj hp' hq' he
  · rw [bitOf_finished hfree hlt, decide_eq_true_eq] at hbit
    obtain ⟨p, hp, he⟩ := hn.all hx (UInt32.lt_iff_toNat_lt.mpr hbit)
    refine ⟨p, ?_, (place_finished h hp).trans he⟩
    have hwithin := hn.within p hp
    cases p with
    | data i k => exact ⟨UInt32.lt_iff_toNat_lt.mpr (h.kept.live_lt hwithin.1), hwithin.2⟩
    | indirect i => exact UInt32.lt_iff_toNat_lt.mpr (h.kept.live_lt hwithin)
  · rw [bitOf_finished hfree hlt, decide_eq_false_iff_not] at hbit
    have hcount := hn.count
    change 46 ≤ x.toNat
    change b.image.freeBlock.toNat = 46 + _ at hcount
    omega
  · have hm' : m.toNat < NUM_INODES := UInt32.lt_iff_toNat_lt.mp hm
    change k * BLOCK_SIZE < (inodeAt (finished b) m).size.toNat at hk
    by_cases hl : Live b.image m
    · have hp := (size_finished h hround hl).1 k hk
      rw [place_finished h hp]
      exact hn.ne_zero hp
    · rw [hidle m hm' hl] at hk
      exact absurd hk (Nat.not_lt_zero _)
  · have hm' : m.toNat < NUM_INODES := UInt32.lt_iff_toNat_lt.mp hm
    change (inodeAt (finished b) m).size.toNat ≤ _
    by_cases hl : Live b.image m
    · exact (size_finished h hround hl).2.2.1
    · rw [hidle m hm' hl]
      exact Nat.zero_le _

/-- The bytes of a file, and zeros up to its size. -/
theorem files_finished (h : b.Tidy order)
    (hround : (b.contents 1).length % BLOCK_SIZE ≠ 0) {m : UInt32} (hm : Live b.image m) :
    Fs.files sb (finished b) m = b.contents m ++
      List.replicate ((inodeAt (finished b) m).size.toNat - (b.contents m).length) 0 := by
  obtain ⟨hcover, hle, -, -⟩ := size_finished h hround hm
  apply List.ext_getElem?
  intro j
  change ((List.range (inodeAt (finished b) m).size.toNat).map fun j ↦ byteAt
    (finished b (target (finished b) (inodeAt (finished b)) (.data m (j / BLOCK_SIZE))))
      (j % BLOCK_SIZE))[j]? = _
  rw [List.getElem?_map]
  by_cases hj : j < (inodeAt (finished b) m).size.toNat
  · have hp := hcover (j / BLOCK_SIZE) (Nat.lt_of_le_of_lt (Nat.div_mul_le_self j _) hj)
    rw [List.getElem?_range hj, Option.map_some, target_finished h hp,
      finished_data (h.kept.numbered.range hp).1]
    by_cases hlt : j < (b.contents m).length
    · have hget := List.getElem?_eq_getElem hlt
      rw [List.getElem?_append_left hlt, hget, (h.kept.holds m hm j _ hget).2]
    · have hzero := h.blank m _ hp (j % BLOCK_SIZE) (Nat.mod_lt _ (by decide)) (by
        rw [Nat.div_add_mod']
        exact Nat.not_lt.mp hlt)
      rw [hzero, List.getElem?_append_right (Nat.not_lt.mp hlt), List.getElem?_replicate,
        if_pos (by omega)]
  · rw [List.getElem?_eq_none (by rw [List.length_range]; omega), List.getElem?_eq_none]
    · rfl
    · rw [List.length_append, List.length_replicate]
      omega

/-- A blank log is empty. -/
theorem headerOf_zero : headerOf Block.zero = [] := by
  simp [headerOf, getU64, getLe, byteAt_zero]

theorem load_superBlockBytes : SuperBlock.load superBlockBytes = sb := by
  simp only [SuperBlock.load, sb, SuperBlock.mk.injEq]
  decide +kernel

/-- **An image is a file system.** If the files fit in front of the last block and the root directory
does not end with a block, `make_disk` builds an image on which the kernel finds the superblock, an
empty log and a healthy file system. Each file has the bytes that were read from its source, and
the root directory has an entry for each name and is blank behind them. -/
theorem make_disk_healthy (junk : Junk) (files : List Source)
    (hlen : files.length + 2 ≤ NUM_INODES)
    (hround : 16 * (files.length + 2) % BLOCK_SIZE ≠ 0)
    (hfiles : ∀ f ∈ files, f.bytes.length ≤ MAX_FILE * BLOCK_SIZE)
    (hroom : numMeta + (blocksFor (listing files).length +
      (files.map fun f ↦ blocksFor f.bytes.length).sum) ≤ 1025) :
    ∃ d, make_disk junk files = some d ∧ d.failed = false ∧
      SuperBlock.load (d.blocks 1) = sb ∧ headerOf (d.blocks sb.logStart) = [] ∧
      Healthy sb d.blocks ∧
      Fs.files sb d.blocks 1 = listing files ++
        List.replicate (BLOCK_SIZE - 16 * (files.length + 2) % BLOCK_SIZE) 0 ∧
      ∀ k f, files[k]? = some f → Fs.files sb d.blocks (2 + UInt32.ofNat k) = f.bytes := by
  obtain ⟨b, order, h, hf, hrun⟩ := populate_tidy junk hlen hfiles
  have hfree := Nat.le_trans (hf.freeBlock_le h) hroom
  have hinode := hf.freeInode
  have hone : Live b.image 1 := by
    refine ⟨Nat.le_refl _, ?_⟩
    rw [UInt32.lt_iff_toNat_lt, hinode]
    change 1 < _
    omega
  have hround' : (b.contents 1).length % BLOCK_SIZE ≠ 0 := by
    rw [hf.root, length_listing]
    exact hround
  refine ⟨_, (hrun hfree).trans (finish_short junk h hfree), h.kept.whole.failed, ?_, ?_,
    finished_healthy h hfree hone hround', ?_, fun k f hk ↦ ?_⟩
  · change SuperBlock.load (finished b 1) = sb
    rw [finished_front h (by decide), if_pos rfl, load_superBlockBytes]
  · change headerOf (finished b sb.logStart) = []
    rw [finished_front h (by decide), if_neg (by decide), headerOf_zero]
  · change Fs.files sb (finished b) 1 = _
    rw [files_finished h hround' hone, hf.root]
    refine congrArg (fun n ↦ listing files ++ List.replicate n 0) ?_
    rw [(size_finished h hround' hone).2.2.2, if_pos rfl, hf.root, length_listing]
    change (16 * (files.length + 2) / 1024 + 1) * 1024 - 16 * (files.length + 2) =
      1024 - 16 * (files.length + 2) % 1024
    omega
  · have hk' : k < files.length := (List.getElem?_eq_some_iff.mp hk).1
    have hlen' : files.length + 2 ≤ 200 := hlen
    have hval : (2 + UInt32.ofNat k).toNat = 2 + k := by
      rw [UInt32.toNat_add, UInt32.toNat_ofNat']
      change (2 + k % 4294967296) % 4294967296 = _
      omega
    have hm : Live b.image (2 + UInt32.ofNat k) := by
      refine ⟨by omega, ?_⟩
      rw [UInt32.lt_iff_toNat_lt, hinode, hval]
      omega
    have hne : (2 + UInt32.ofNat k) ≠ 1 := by
      intro he
      rw [he] at hval
      change 1 = _ at hval
      omega
    change Fs.files sb (finished b) _ = _
    rw [files_finished h hround' hm, (size_finished h hround' hm).2.2.2, if_neg hne,
      Nat.sub_self, List.replicate_zero, List.append_nil, hf.file k f hk]

/-- A file with three bytes. -/
theorem make_disk_healthy_three : ∃ d,
    make_disk (fun _ ↦ Block.zero) [⟨[0x61], [[1], [2, 3]]⟩] = some d ∧ Healthy sb d.blocks ∧
      Fs.files sb d.blocks 2 = [1, 2, 3] := by
  obtain ⟨d, hd, -, -, -, hh, -, hbytes⟩ := make_disk_healthy (fun _ ↦ Block.zero)
    [⟨[0x61], [[1], [2, 3]]⟩] (by decide) (by decide) (by decide) (by decide)
  exact ⟨d, hd, hh, hbytes 0 _ rfl⟩

end
end Orfos.Disk
