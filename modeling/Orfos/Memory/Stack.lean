import Orfos.Memory.Executable
import Orfos.Memory.Transfers

/-!
# The argument stack of exec

Every string takes the place of its bytes and its zero byte, rounded up to 16 bytes, and so does
the array of pointers behind the last one. `exec` puts them on the stack page from the top down.
-/

namespace Orfos.Memory

open Orfos.Base Orfos.Base.Traced Orfos.Syscall PageTableEntry VirtualAddress

/-- The place that `n` bytes take on the stack. -/
def rounded (n : Nat) : Nat := (n + 15) / 16 * 16

/-- The place that the strings take. -/
def argBytes (argv : List CString) : Nat := (argv.map fun arg ↦ rounded (arg.length + 1)).sum

/-- The place that the strings and the pointers take. -/
def argRoom (argv : List CString) : Nat := argBytes argv + rounded (8 * (argv.length + 1))

section

variable {argv argv' : List CString} {arg : CString} {n : Nat}

theorem le_rounded (n : Nat) : n ≤ rounded n := by
  rw [rounded]
  omega

theorem rounded_le_iff {b : Nat} : rounded n ≤ 16 * b ↔ n ≤ 16 * b := by
  rw [rounded]
  omega

theorem rounded_mod (n : Nat) : rounded n % 16 = 0 := by
  rw [rounded]
  omega

theorem argBytes_append (argv argv' : List CString) :
    argBytes (argv ++ argv') = argBytes argv + argBytes argv' := by
  rw [argBytes, List.map_append, List.sum_append]
  rfl

theorem argBytes_concat : argBytes (argv ++ [arg]) = argBytes argv + rounded (arg.length + 1) := by
  rw [argBytes_append, argBytes, argBytes, List.map_singleton, List.sum_singleton]

theorem argBytes_mod (argv : List CString) : argBytes argv % 16 = 0 := by
  induction argv with
  | nil => rfl
  | cons arg argv ih =>
    have hround := rounded_mod (arg.length + 1)
    have hcons : argBytes (arg :: argv) = rounded (arg.length + 1) + argBytes argv := rfl
    omega

/-- A step down on the stack, where there is place. -/
theorem down_toNat (sp n : UInt64) (hsp : sp.toNat % 16 = 0) (hn : rounded n.toNat ≤ sp.toNat) :
    (sp - n - (sp - n) % 16).toNat = sp.toNat - rounded n.toNat := by
  have hle := le_rounded n.toNat
  have htop : (sp - n).toNat = sp.toNat - n.toNat :=
    UInt64.toNat_sub_of_le _ _ (UInt64.le_iff_toNat_le.mpr (by omega))
  have hmod : ((sp - n) % 16).toNat = (sp.toNat - n.toNat) % 16 := by
    rw [UInt64.toNat_mod, htop]
    rfl
  rw [UInt64.toNat_sub_of_le _ _ (UInt64.le_iff_toNat_le.mpr (by omega)), htop, hmod]
  rw [rounded] at hn ⊢
  omega

/-- Where a string begins that is pushed with its zero. -/
theorem down_string (sp : UInt64) {n : Nat} (hn : n < 4096) (hsp : sp.toNat % 16 = 0)
    (hroom : rounded (n + 1) ≤ sp.toNat) :
    (sp - (UInt64.ofNat n + 1) - (sp - (UInt64.ofNat n + 1)) % 16).toNat =
      sp.toNat - rounded (n + 1) := by
  have hlen : (UInt64.ofNat n + 1).toNat = n + 1 := by
    rw [UInt64.toNat_add, UInt64.toNat_ofNat']
    change (n % 2 ^ 64 + 1) % 2 ^ 64 = _
    omega
  have hdown := down_toNat sp (UInt64.ofNat n + 1) hsp (by rwa [hlen])
  rwa [hlen] at hdown

end

namespace State

/-- A stack page for the user, which ends at `size`, with a page below it. -/
structure StackPage (s : State) (table size : UInt64) : Prop where
  separate : s.Separate table
  whole : size.toNat % 4096 = 0
  two : 8192 ≤ size.toNat
  user : s.User table (size.toNat / 4096 - 1)

/-- The word of user memory at an address. -/
def Word (s : State) (table : UInt64) (a : Nat) (w : UInt64) : Prop :=
  ∀ i < 8, s.userByte table (a + i) = some (w >>> (8 * UInt64.ofNat i)).toUInt8

/-- The string of user memory at an address, with its zero byte. -/
def HasString (s : State) (table : UInt64) (a : Nat) (arg : CString) : Prop :=
  ∀ j < arg.length + 1, s.userByte table (a + j) = (arg ++ [0])[j]?

/-- The strings are on the stack, and `ptrs` are their addresses. -/
structure Pushed (s : State) (table size : UInt64) (argv : List CString) (ptrs : List UInt64) :
    Prop where
  length : ptrs.length = argv.length
  place : ∀ (i : Nat) (p : UInt64), ptrs[i]? = some p → p.toNat + argBytes (argv.take (i + 1)) = size.toNat
  string : ∀ (i : Nat) (p : UInt64) (arg : CString), ptrs[i]? = some p → argv[i]? = some arg →
    s.HasString table p.toNat arg

end State

/-- The stack with which a program starts. -/
structure ArgStack (s : State) (table size sp : UInt64) (argv : List CString)
    (ptrs : List UInt64) : Prop where
  aligned : sp.toNat % 16 = 0
  base : size.toNat - 4096 ≤ sp.toNat
  length : ptrs.length = argv.length
  index : ptrs.length < MAX_ARGS
  pointer : ∀ (i : Nat) (p : UInt64), ptrs[i]? = some p → s.Word table (sp.toNat + 8 * i) p
  null : s.Word table (sp.toNat + 8 * argv.length) 0
  string : ∀ (i : Nat) (p : UInt64) (arg : CString), ptrs[i]? = some p → argv[i]? = some arg →
    s.HasString table p.toNat arg
  within : ∀ (i : Nat) (p : UInt64) (arg : CString), ptrs[i]? = some p → argv[i]? = some arg →
    sp.toNat + 8 * (argv.length + 1) ≤ p.toNat ∧ p.toNat + (arg.length + 1) ≤ size.toNat
  disjoint : ∀ (i j : Nat) (p q : UInt64) (arg : CString), i < j → ptrs[i]? = some p → ptrs[j]? = some q →
    argv[j]? = some arg → q.toNat + (arg.length + 1) ≤ p.toNat

section

variable {φ ι : Type} {s t : State} {table size sp trampoline trapFrame p : UInt64}
  {argv pre post : List CString} {arg : CString} {ptrs : List UInt64} {a i : Nat}
  {src : List UInt8} {F : Files φ ι} {path : CString} {e : ElfHeader}
  {k : Syscall.Kernel (World φ) ι UInt64}

namespace State

theorem StackPage.stores (h : s.StackPage table size) (hs : s.Stores t table a src) :
    t.StackPage table size :=
  ⟨h.separate.stores hs, h.whole, h.two, (hs.user_iff _).mpr h.user⟩

theorem StackPage.base (h : s.StackPage table size) :
    (size - PAGE_SIZE).toNat = size.toNat - 4096 := by
  have htwo := h.two
  have hpage : (PAGE_SIZE).toNat = 4096 := rfl
  rw [UInt64.toNat_sub_of_le _ _ (UInt64.le_iff_toNat_le.mpr (by omega)), hpage]

/-- A write to the stack page. -/
theorem StackPage.copyout (h : s.StackPage table size) (dst : UInt64) (src : List UInt8)
    (hlow : size.toNat - 4096 ≤ dst.toNat) (hhigh : dst.toNat + src.length ≤ size.toNat) :
    ∃ t, PageTable.copyout table dst src s = .ok (true, t) ∧
      s.Stores t table dst.toNat src := by
  have hwhole := h.whole
  have htwo := h.two
  have hcovers : s.Covers table dst.toNat src.length := by
    intro k hk
    rw [show (dst.toNat + k) / 4096 = size.toNat / 4096 - 1 by omega]
    exact h.user
  obtain ⟨t, ht, hst⟩ := PageTable.copyoutFrom_stores h.separate dst (le_refl src.length)
  rw [covers_iff.mp hcovers, List.take_length] at hst
  rw [covers_iff.mp hcovers, decide_eq_true rfl] at ht
  exact ⟨t, ht, hst⟩

/-- A string is not touched by a store below it. -/
theorem HasString.stores (h : s.HasString table a arg) {b : Nat} (hs : s.Stores t table b src)
    (hle : b + src.length ≤ a) : t.HasString table a arg := by
  intro j hj
  rw [hs.bytes, if_neg (by omega)]
  exact h j hj

theorem Stores.string (hs : s.Stores t table a (arg ++ [0])) : t.HasString table a arg := by
  intro j hj
  have hlen : (arg ++ [0]).length = arg.length + 1 := by simp
  rw [hs.bytes, if_pos (by omega), Nat.add_sub_cancel_left]

theorem Pushed.nil (s : State) (table size : UInt64) : s.Pushed table size [] [] :=
  ⟨rfl, fun i p hp ↦ by simp at hp, fun i p arg hp ↦ by simp at hp⟩

theorem Pushed.low (h : s.Pushed table size argv ptrs) (hp : ptrs[i]? = some p) :
    size.toNat ≤ p.toNat + argBytes argv := by
  have hplace := h.place i p hp
  have hsplit := argBytes_append (argv.take (i + 1)) (argv.drop (i + 1))
  rw [List.take_append_drop] at hsplit
  omega

/-- One more string on the stack. -/
theorem Pushed.concat (h : s.Pushed table size argv ptrs)
    (hplace : p.toNat + argBytes (argv ++ [arg]) = size.toNat)
    (hs : s.Stores t table p.toNat (arg ++ [0])) :
    t.Pushed table size (argv ++ [arg]) (ptrs ++ [p]) := by
  have hlen := h.length
  have hround := le_rounded (arg.length + 1)
  have hnew : ∀ {i : Nat} {q : UInt64}, (ptrs ++ [p])[i]? = some q →
      i < ptrs.length ∧ ptrs[i]? = some q ∨ i = ptrs.length ∧ q = p := by
    intro i q hq
    by_cases hi : i < ptrs.length
    · rw [List.getElem?_append_left hi] at hq
      exact .inl ⟨hi, hq⟩
    · have hlt := (List.getElem?_eq_some_iff.mp hq).1
      rw [List.length_append, List.length_singleton] at hlt
      obtain rfl : i = ptrs.length := by omega
      rw [List.getElem?_concat_length, Option.some_inj] at hq
      exact .inr ⟨rfl, hq.symm⟩
  refine ⟨by simp [hlen], fun i q hq ↦ ?_, fun i q arg' hq harg ↦ ?_⟩
  · rcases hnew hq with ⟨hi, hq⟩ | ⟨rfl, rfl⟩
    · rw [List.take_append_of_le_length (by omega)]
      exact h.place i q hq
    · rw [List.take_of_length_le (by simp [hlen])]
      exact hplace
  · rcases hnew hq with ⟨hi, hq⟩ | ⟨rfl, rfl⟩
    · have hlow := h.low hq
      rw [argBytes_concat] at hplace
      rw [List.getElem?_append_left (by omega)] at harg
      refine (h.string i q arg' hq harg).stores hs ?_
      rw [List.length_append, List.length_singleton]
      omega
    · rw [hlen, List.getElem?_concat_length, Option.some_inj] at harg
      rw [← harg]
      exact hs.string

end State

/-! ### The loop over the arguments -/

/-- The machine state with other pages. -/
def withPages (k : Syscall.Kernel (World φ) ι UInt64) (s : State) :
    Syscall.Kernel (World φ) ι UInt64 :=
  { k with world := { k.world with pages := s } }

theorem enter_copyout_bind {β : Type} {dst : UInt64} {b : Bool}
    (ht : PageTable.copyout table dst src s = .ok (b, t))
    (g : Bool → Handler (World φ) ι UInt64 β) :
    (enter ((rest F trampoline trapFrame).copyout table dst src) >>= g) (withPages k s) =
      g b (withPages k t) := by
  have hcall : (rest F trampoline trapFrame).copyout table dst src (withPages k s).world =
      some (b, (withPages k t).world) := by
    change onPages (PageTable.copyout table dst src) (withPages k s).world = _
    rw [onPages, withPages]
    dsimp only
    rw [ht]
    rfl
  change Traced.bind (enter _) g _ = _
  unfold Traced.bind enter
  rw [hcall]
  rfl

theorem bad_none_eq : Elf.bad (rest F trampoline trapFrame) table none k =
    ⟨[], k, some (-1)⟩ := rfl

/-- What is left of `exec` where the strings `argv` are still to be pushed. -/
abbrev phase (F : Files φ ι) (trampoline trapFrame : UInt64) (path : CString)
    (table size : UInt64) (e : ElfHeader) (argv : List CString) (sp : UInt64) (ptrs : List UInt64) :
    Handler (World φ) ι UInt64 Int32 :=
  Elf.pushArgs (rest F trampoline trapFrame) table (size - PAGE_SIZE)
    (Elf.finish (rest F trampoline trapFrame) path table e size) argv sp ptrs

section

variable (F trampoline trapFrame path e k)

/-- A string that fits is pushed. -/
theorem State.Pushed.push (post : List CString) (h : s.Pushed table size pre ptrs)
    (hpage : s.StackPage table size)
    (hsp : sp.toNat + argBytes pre = size.toNat) (hcount : pre.length < MAX_ARGS)
    (hshort : arg.length < 4096) (hfit : argBytes (pre ++ [arg]) ≤ 4096) :
    ∃ p t, p.toNat + argBytes (pre ++ [arg]) = size.toNat ∧ t.StackPage table size ∧
      t.Pushed table size (pre ++ [arg]) (ptrs ++ [p]) ∧
        phase F trampoline trapFrame path table size e (arg :: post) sp ptrs (withPages k s) =
          phase F trampoline trapFrame path table size e post p (ptrs ++ [p]) (withPages k t) := by
  have htwo := hpage.two
  have hwhole := hpage.whole
  have hmod := argBytes_mod pre
  have hround := le_rounded (arg.length + 1)
  rw [argBytes_concat] at hfit ⊢
  have hdown := down_string sp hshort (by omega) (by omega)
  set p := sp - (UInt64.ofNat arg.length + 1) - (sp - (UInt64.ofNat arg.length + 1)) % 16 with hp
  obtain ⟨t, ht, hst⟩ := hpage.copyout p (arg ++ [0]) (by omega)
    (by rw [List.length_append, List.length_singleton]; omega)
  refine ⟨p, t, by omega, hpage.stores hst, h.concat ?_ hst, ?_⟩
  · rw [argBytes_concat]
    omega
  · have hlow : ¬ p < size - PAGE_SIZE := by
      rw [UInt64.lt_iff_toNat_lt, hpage.base]
      omega
    rw [phase, Elf.pushArgs, if_neg (by rw [h.length]; omega), ← hp, if_neg hlow, enter_copyout_bind ht, if_neg (not_not.mpr rfl)]

/-- A string that does not fit is turned down. -/
theorem State.Pushed.full (post : List CString) (h : s.Pushed table size pre ptrs)
    (hpage : s.StackPage table size)
    (hsp : sp.toNat + argBytes pre = size.toNat) (hcount : pre.length < MAX_ARGS)
    (hshort : arg.length < 4096) (hroom : argBytes pre ≤ 4096)
    (hfull : 4096 < argBytes (pre ++ [arg])) :
    phase F trampoline trapFrame path table size e (arg :: post) sp ptrs (withPages k s) =
      ⟨[], withPages k s, some (-1)⟩ := by
  have htwo := hpage.two
  have hwhole := hpage.whole
  have hmod := argBytes_mod pre
  have hround := rounded_le_iff (n := arg.length + 1) (b := 256)
  rw [argBytes_concat] at hfull
  have hdown := down_string sp hshort (by omega) (by omega)
  have hlow : sp - (UInt64.ofNat arg.length + 1) - (sp - (UInt64.ofNat arg.length + 1)) % 16 <
      size - PAGE_SIZE := by
    rw [UInt64.lt_iff_toNat_lt, hpage.base, hdown]
    omega
  rw [phase, Elf.pushArgs, if_neg (by rw [h.length]; omega), if_pos hlow, bad_none_eq]

/-- The strings that fit are pushed. -/
theorem State.Pushed.run {mid : List CString} (post : List CString) (h : s.Pushed table size pre ptrs)
    (hpage : s.StackPage table size) (hsp : sp.toNat + argBytes pre = size.toNat)
    (hcount : (pre ++ mid).length ≤ MAX_ARGS) (hshort : ∀ arg ∈ mid, arg.length < 4096)
    (hfit : argBytes (pre ++ mid) ≤ 4096) :
    ∃ p t ptrs', p.toNat + argBytes (pre ++ mid) = size.toNat ∧ t.StackPage table size ∧
      t.Pushed table size (pre ++ mid) ptrs' ∧
        phase F trampoline trapFrame path table size e (mid ++ post) sp ptrs (withPages k s) =
          phase F trampoline trapFrame path table size e post p ptrs' (withPages k t) := by
  induction mid generalizing pre s sp ptrs with
  | nil =>
    rw [List.append_nil] at hfit ⊢
    exact ⟨sp, s, ptrs, hsp, hpage, h, rfl⟩
  | cons arg mid ih =>
    have hassoc : pre ++ arg :: mid = (pre ++ [arg]) ++ mid := by simp
    rw [hassoc] at hfit hcount ⊢
    have hlen : pre.length < MAX_ARGS := by
      rw [List.length_append, List.length_append, List.length_singleton] at hcount
      omega
    have hle : argBytes (pre ++ [arg]) ≤ 4096 := by
      rw [argBytes_append] at hfit
      omega
    obtain ⟨p, t, hp, hpage', hpush, hrun⟩ := h.push trampoline trapFrame F path e k (mid ++ post)
      hpage hsp hlen (hshort arg List.mem_cons_self) hle
    obtain ⟨q, w, ptrs', hq, hpage'', hall, hrest⟩ := ih hpush hpage' hp hcount
      (fun arg' harg ↦ hshort arg' (List.mem_cons_of_mem _ harg)) hfit
    exact ⟨q, w, ptrs', hq, hpage'', hall, hrun.trans hrest⟩

end

/-! ### The pointers -/

theorem wordBytes_length (words : List UInt64) : (Elf.wordBytes words).length = 8 * words.length := by
  induction words with
  | nil => rfl
  | cons w words ih =>
    rw [Elf.wordBytes, List.flatMap_cons, List.length_append, List.length_map, List.length_range]
    change 8 + (Elf.wordBytes words).length = _
    rw [ih, List.length_cons]
    omega

theorem wordBytes_getElem {words : List UInt64} {w : UInt64} {j : Nat} (hw : words[i]? = some w)
    (hj : j < 8) : (Elf.wordBytes words)[8 * i + j]? = some (w >>> (8 * UInt64.ofNat j)).toUInt8 := by
  induction words generalizing i with
  | nil => simp at hw
  | cons w' words ih =>
    rw [Elf.wordBytes, List.flatMap_cons]
    cases i with
    | zero =>
      rw [List.getElem?_cons_zero, Option.some_inj] at hw
      rw [List.getElem?_append_left (by simp; omega), List.getElem?_map,
        List.getElem?_range (by omega), hw, Nat.mul_zero, Nat.zero_add]
      rfl
    | succ i =>
      rw [List.getElem?_cons_succ] at hw
      rw [List.getElem?_append_right (by simp; omega), List.length_map, List.length_range,
        show 8 * (i + 1) + j - 8 = 8 * i + j by omega]
      exact ih hw

theorem State.Stores.word {words : List UInt64} {w : UInt64}
    (hs : s.Stores t table a (Elf.wordBytes words)) (hw : words[i]? = some w) :
    t.Word table (a + 8 * i) w := by
  intro j hj
  have hi := (List.getElem?_eq_some_iff.mp hw).1
  rw [hs.bytes, wordBytes_length, if_pos (by omega),
    show a + 8 * i + j - a = 8 * i + j by omega, wordBytes_getElem hw hj]

/-- The strings below the top of the stack page. -/
theorem State.Pushed.string_le (h : s.Pushed table size argv ptrs) (hp : ptrs[i]? = some p)
    (harg : argv[i]? = some arg) :
    p.toNat + (arg.length + 1) + argBytes (argv.take i) ≤ size.toNat := by
  have hplace := h.place i p hp
  have hround := le_rounded (arg.length + 1)
  rw [List.take_add_one, harg, Option.toList_some, argBytes_concat] at hplace
  omega

theorem State.Pushed.disjoint {j : Nat} {q : UInt64} (h : s.Pushed table size argv ptrs)
    (hij : i < j) (hp : ptrs[i]? = some p) (hq : ptrs[j]? = some q) (harg : argv[j]? = some arg) :
    q.toNat + (arg.length + 1) ≤ p.toNat := by
  have hplace := h.place i p hp
  have hle := h.string_le hq harg
  have hsplit := argBytes_append (argv.take (i + 1)) ((argv.take j).drop (i + 1))
  have htake : argv.take j = argv.take (i + 1) ++ (argv.take j).drop (i + 1) := by
    have hcut := List.take_append_drop (i + 1) (argv.take j)
    rw [List.take_take, Nat.min_eq_left (by omega)] at hcut
    exact hcut.symm
  rw [← htake] at hsplit
  omega

/-- The strings with the pointers below them. -/
theorem State.Pushed.argStack (h : s.Pushed table size argv ptrs) (hpage : s.StackPage table size)
    (hcount : argv.length < MAX_ARGS) (hfit : argRoom argv ≤ 4096)
    (hsp : sp.toNat + argRoom argv = size.toNat)
    (hs : s.Stores t table sp.toNat (Elf.wordBytes (ptrs ++ [0]))) :
    ArgStack t table size sp argv ptrs := by
  have hlen := h.length
  have htwo := hpage.two
  have hwhole := hpage.whole
  have hmod := argBytes_mod argv
  have hround := rounded_mod (8 * (argv.length + 1))
  have hle := le_rounded (8 * (argv.length + 1))
  rw [argRoom] at hfit hsp
  have hbytes : (Elf.wordBytes (ptrs ++ [0])).length = 8 * (argv.length + 1) := by
    rw [wordBytes_length, List.length_append, List.length_singleton, hlen]
  refine ⟨by omega, by omega, hlen, by omega, fun i p hp ↦ hs.word ?_, hlen ▸ hs.word ?_,
    fun i p arg hp harg ↦ ?_, fun i p arg hp harg ↦ ?_, fun i j p q arg hij hp hq harg ↦
      h.disjoint hij hp hq harg⟩
  · rw [List.getElem?_append_left (List.getElem?_eq_some_iff.mp hp).1, hp]
  · rw [List.getElem?_concat_length]
  · have hlow := h.low hp
    refine (h.string i p arg hp harg).stores hs ?_
    omega
  · have hlow := h.low hp
    have hstring := h.string_le hp harg
    exact ⟨by omega, by omega⟩

/-- The bytes of the pointers. -/
theorem pointers_toNat (hlen : ptrs.length = argv.length) (hcount : argv.length < MAX_ARGS) :
    ((UInt64.ofNat ptrs.length + 1) * 8).toNat = 8 * (argv.length + 1) := by
  have hmax : MAX_ARGS = 32 := rfl
  rw [UInt64.toNat_mul, UInt64.toNat_add, UInt64.toNat_ofNat', hlen]
  change (argv.length % 2 ^ 64 + 1) % 2 ^ 64 * 8 % 2 ^ 64 = _
  omega

variable (F trampoline trapFrame path e k)

/-- The pointers fit, and `exec` has succeeded. -/
theorem State.Pushed.finish (h : s.Pushed table size argv ptrs) (hpage : s.StackPage table size)
    (hsp : sp.toNat + argBytes argv = size.toNat) (hcount : argv.length < MAX_ARGS)
    (hfit : argRoom argv ≤ 4096) :
    ∃ k', phase F trampoline trapFrame path table size e [] sp ptrs (withPages k s) =
        ⟨[], k', some (Int32.ofNat argv.length)⟩ ∧ k'.pageTable = table ∧ k'.memorySize = size ∧
          k'.args 1 = k'.sp ∧ ArgStack k'.world.pages table size k'.sp argv ptrs := by
  have htwo := hpage.two
  have hwhole := hpage.whole
  have hmod := argBytes_mod argv
  have hle := le_rounded (8 * (argv.length + 1))
  have hroom := hfit
  rw [argRoom] at hroom
  have hdown := down_toNat sp ((UInt64.ofNat ptrs.length + 1) * 8) (by omega)
    (by rw [pointers_toNat h.length hcount]; omega)
  rw [pointers_toNat h.length hcount] at hdown
  set q := sp - (UInt64.ofNat ptrs.length + 1) * 8 -
    (sp - (UInt64.ofNat ptrs.length + 1) * 8) % 16 with hq
  obtain ⟨t, ht, hst⟩ := hpage.copyout q (Elf.wordBytes (ptrs ++ [0])) (by omega)
    (by rw [wordBytes_length, List.length_append, List.length_singleton, h.length]; omega)
  have hlow : ¬ q < size - PAGE_SIZE := by
    rw [UInt64.lt_iff_toNat_lt, hpage.base]
    omega
  have hstack := h.argStack hpage hcount hfit (show q.toNat + argRoom argv = _ by rw [argRoom]; omega) hst
  refine ⟨{ withPages k t with
    args := Function.update k.args 1 q
    name := Elf.strncpy 16 (Elf.lastElement path path)
    pageTable := table
    memorySize := size
    epc := e.entry
    sp := q }, ?_, rfl, rfl, ?_, hstack⟩
  · rw [phase, Elf.pushArgs, Elf.finish, ← hq, if_neg hlow, enter_copyout_bind ht,
      if_neg (not_not.mpr rfl), ← h.length]
    rfl
  · show Function.update k.args 1 q 1 = q
    exact Function.update_self 1 q k.args

/-- The pointers do not fit. -/
theorem State.Pushed.short (h : s.Pushed table size argv ptrs) (hpage : s.StackPage table size)
    (hsp : sp.toNat + argBytes argv = size.toNat) (hcount : argv.length < MAX_ARGS)
    (hroom : argBytes argv ≤ 4096) (hfull : 4096 < argRoom argv) :
    phase F trampoline trapFrame path table size e [] sp ptrs (withPages k s) =
      ⟨[], withPages k s, some (-1)⟩ := by
  have htwo := hpage.two
  have hwhole := hpage.whole
  have hmod := argBytes_mod argv
  have hround := rounded_le_iff (n := 8 * (argv.length + 1)) (b := 16)
  have hmax : MAX_ARGS = 32 := rfl
  rw [argRoom] at hfull
  have hdown := down_toNat sp ((UInt64.ofNat ptrs.length + 1) * 8) (by omega)
    (by rw [pointers_toNat h.length hcount]; omega)
  rw [pointers_toNat h.length hcount] at hdown
  have hlow : sp - (UInt64.ofNat ptrs.length + 1) * 8 -
      (sp - (UInt64.ofNat ptrs.length + 1) * 8) % 16 < size - PAGE_SIZE := by
    rw [UInt64.lt_iff_toNat_lt, hpage.base, hdown]
    omega
  rw [phase, Elf.pushArgs, Elf.finish, if_pos hlow, bad_none_eq]

/-- The strings up to the first one that does not fit. -/
theorem exists_full (hfull : 4096 < argBytes argv) :
    ∃ pre arg post, argv = pre ++ arg :: post ∧ argBytes pre ≤ 4096 ∧
      4096 < argBytes (pre ++ [arg]) := by
  induction argv using List.reverseRecOn with
  | nil => cases hfull
  | append_singleton argv arg ih =>
    by_cases hle : argBytes argv ≤ 4096
    · exact ⟨argv, arg, [], rfl, hle, hfull⟩
    · obtain ⟨pre, arg', post, heq, hpre, hover⟩ := ih (Nat.lt_of_not_le hle)
      refine ⟨pre, arg', post ++ [arg], ?_, hpre, hover⟩
      rw [heq, List.append_assoc, List.cons_append]

end

section

variable {φ ι : Type} {table size : UInt64} {argv : List CString}
  {k : Syscall.Kernel (World φ) ι UInt64}

/-- How far the loop over the arguments gets: where `pre` is pushed, the stack pointer has moved
down by exactly the place of the strings, the subtraction for the next string or for the pointers
does not wrap, and there is an element of `ustack` for the next pointer. -/
structure Reached (table size : UInt64) (pre post : List CString) (sp : UInt64)
    (ptrs : List UInt64) (t : State) : Prop where
  moved : sp.toNat + argBytes pre = size.toNat
  index : ptrs.length = pre.length ∧ pre.length < MAX_ARGS
  pushed : t.Pushed table size pre ptrs
  next : ∀ arg ∈ post.head?, arg.length + 1 ≤ sp.toNat
  last : post = [] → 8 * (pre.length + 1) ≤ sp.toNat

/-- What is left of `exec` where it starts on the arguments. Nothing wraps on the way, it fails if
and only if the strings and the pointers take more than the stack page, and otherwise they are on
it. -/
structure BuildsStack (F : Files φ ι) (trampoline trapFrame : UInt64) (path : CString)
    (table size : UInt64) (e : ElfHeader) (argv : List CString)
    (k : Syscall.Kernel (World φ) ι UInt64) : Prop where
  reached : ∀ pre post, argv = pre ++ post → argBytes pre ≤ 4096 →
    ∃ sp ptrs t, Reached table size pre post sp ptrs t ∧
      phase F trampoline trapFrame path table size e argv size [] k =
        phase F trampoline trapFrame path table size e post sp ptrs (withPages k t)
  result : ∃ r k',
    phase F trampoline trapFrame path table size e argv size [] k = ⟨[], k', some r⟩ ∧
    (r = -1 ↔ 4096 < argRoom argv) ∧
      (r ≠ -1 → r = Int32.ofNat argv.length ∧ k'.pageTable = table ∧ k'.memorySize = size ∧
        k'.args 1 = k'.sp ∧ ∃ ptrs, ArgStack k'.world.pages table size k'.sp argv ptrs)

theorem State.StackPage.builds (hpage : k.world.pages.StackPage table size)
    (hcount : argv.length < MAX_ARGS) (hshort : ∀ arg ∈ argv, arg.length < 4096)
    (F : Files φ ι) (trampoline trapFrame : UInt64) (path : CString) (e : ElfHeader) :
    BuildsStack F trampoline trapFrame path table size e argv k := by
  have htwo := hpage.two
  have hmax : MAX_ARGS = 32 := rfl
  have hzero : size.toNat + argBytes [] = size.toNat := rfl
  have hmid : ∀ pre post : List CString, argv = pre ++ post → argBytes pre ≤ 4096 → _ :=
    fun pre post heq hfit ↦ (State.Pushed.nil k.world.pages table size).run trampoline trapFrame F
      path e k post hpage hzero (by rw [heq, List.length_append] at hcount; rw [List.nil_append]; omega)
      (fun arg harg ↦ hshort arg (by rw [heq]; exact List.mem_append_left _ harg)) hfit
  have hne : Int32.ofNat argv.length ≠ -1 := by
    intro he
    have hint := congrArg Int32.toInt he
    rw [Int32.toInt_ofNat_of_lt (by omega)] at hint
    exact absurd hint (by simp)
  constructor
  · intro pre post heq hfit
    obtain ⟨sp, t, ptrs, hsp, hpage', hpushed, hrun⟩ := hmid pre post heq hfit
    rw [List.nil_append] at hsp hpushed
    have hlen : pre.length + post.length = argv.length := by rw [heq, List.length_append]
    refine ⟨sp, ptrs, t, ⟨hsp, ⟨hpushed.length, by omega⟩, hpushed, fun arg harg ↦ ?_,
      fun _ ↦ by omega⟩, ?_⟩
    · have hmem : arg ∈ argv := by
        rw [heq]
        exact List.mem_append_right _ (List.mem_of_mem_head? harg)
      have := hshort arg hmem
      omega
    · rw [heq]
      exact hrun
  · by_cases hall : argBytes argv ≤ 4096
    · obtain ⟨sp, t, ptrs, hsp, hpage', hpushed, hrun⟩ :=
        hmid argv [] (List.append_nil argv).symm hall
      rw [List.nil_append] at hsp hpushed
      rw [List.append_nil] at hrun
      by_cases hroom : argRoom argv ≤ 4096
      · obtain ⟨k', hk', htable, hsize, hargs, hstack⟩ := hpushed.finish trampoline trapFrame F
          path e k hpage' hsp hcount hroom
        refine ⟨_, k', hrun.trans hk', iff_of_false hne (Nat.not_lt.mpr hroom), fun _ ↦
          ⟨rfl, htable, hsize, hargs, ptrs, hstack⟩⟩
      · have hbad := hpushed.short trampoline trapFrame F path e k hpage' hsp hcount hall (Nat.lt_of_not_le hroom)
        exact ⟨-1, _, hrun.trans hbad, iff_of_true rfl (Nat.lt_of_not_le hroom), fun h ↦
          absurd rfl h⟩
    · have hover : 4096 < argRoom argv := by
        rw [argRoom]
        omega
      obtain ⟨pre, arg, post, heq, hpre, hfull⟩ := exists_full (Nat.lt_of_not_le hall)
      obtain ⟨sp, t, ptrs, hsp, hpage', hpushed, hrun⟩ := hmid pre (arg :: post) heq hpre
      rw [List.nil_append] at hsp hpushed
      have hlen : pre.length + (post.length + 1) = argv.length := by
        rw [heq, List.length_append, List.length_cons]
      have hbad := hpushed.full trampoline trapFrame F path e k post hpage' hsp (by omega)
        (hshort arg (by rw [heq]; simp)) hpre hfull
      rw [heq] at hover ⊢
      exact ⟨-1, _, hrun.trans hbad, iff_of_true rfl hover, fun h ↦ absurd rfl h⟩

/-- The pages that `exec` has added for the stack. -/
theorem Stacked.stackPage {kernel : UInt64} {tables taken : List UInt64} {s : State}
    {old : UInt64 × UInt64} {file : Content} {e : ElfHeader}
    (hs : Stacked kernel tables taken s old file e table size k)
    (hunguarded : k.world.pages.Unguarded table size) :
    k.world.pages.StackPage table size := by
  have hU := userPages_eq
  have hwhole := hs.whole
  have htwo := hs.two
  have hle := hs.loading.shape.1
  have hcount : pageCount size = (size.toNat + 4095) / 4096 := rfl
  obtain ⟨free, hspace⟩ := hs.loading.since.space
  refine ⟨hspace.separate hs.loading.mem fun n hn ↦ ?_, hwhole, by omega, ?_⟩
  · have hlow : n < userPages := by
      by_contra hge
      have hsup := (hspace.supervisor table hs.loading.mem n (Nat.le_of_not_lt hge) hn.1).2
      rw [hn.2.2] at hsup
      cases hsup
    refine (hunguarded n ((hs.loading.shape.2 n hlow).mp hn.2.1) fun heq ↦ ?_).2
    have hguard := hs.guard
    rw [← heq, hn.2.2] at hguard
    cases hguard
  · have hlast : size.toNat / 4096 - 1 < pageCount size := by omega
    exact ⟨by omega, (hs.loading.shape.2 _ (by omega)).mpr hlast,
      (hunguarded _ hlast (by omega)).1⟩

end

/-- In every reachable state, for fewer than `MAX_ARGS` strings that are shorter than a page, as
the system call supplies them: an `exec` that returns either does not load the file, or comes to
the arguments with a stack page and builds their stack. -/
theorem exec_builds_stack {φ ι : Type} {F : Files φ ι} {ok : φ → Prop} {path : CString}
    {argv : List CString} {ip : ι} {file : Content} {k k₀ : Kernel φ} {p : Process} {r : Int32}
    (h₀ : k₀.Booted) (hrun : Run (Kernel.step F) Kernel.Own k₀ k)
    (hF : F.Serves ok path ip file) (hok : ok k.files)
    (hcount : argv.length < MAX_ARGS) (hshort : ∀ arg ∈ argv, arg.length < 4096)
    (hr : (Elf.exec (rest F k.trampoline p.trapFrame) path argv (p.enter k)).value = some r) :
    r = -1 ∧ ¬ file.Loads ∨ file.Loads ∧ ∃ e table size k₁,
      Elf.exec (rest F k.trampoline p.trapFrame) path argv (p.enter k) =
        phase F k.trampoline p.trapFrame path table size e argv size [] k₁ ∧
      BuildsStack F k.trampoline p.trapFrame path table size e argv k₁ := by
  obtain ⟨free, hs⟩ := (h₀.whole hrun).space
  have hends : Ensures (regime False) (Elf.exec (rest F k.trampoline p.trapFrame) path argv)
      (p.enter k) fun r k' ↦ r = -1 ∧ ¬ file.Loads ∨ file.Loads ∧ ∃ e table size k₁,
        phase F k.trampoline p.trapFrame path table size e argv size [] k₁ = ⟨[], k', some r⟩ ∧
          BuildsStack F k.trampoline p.trapFrame path table size e argv k₁ := by
    refine hF.exec_loads hok hs False.elim False.elim (fun k' _ hno ↦ .inl ⟨rfl, hno⟩)
      fun e table size k₁ hstacked hunguarded _ hall ↦ ?_
    have hbuilds := (hstacked.stackPage hunguarded).builds hcount hshort F k.trampoline
      p.trapFrame path e
    obtain ⟨r, k', hk', -⟩ := hbuilds.result
    have hruns : Runs (regime False).good (phase F k.trampoline p.trapFrame path table size e argv size
        []) k₁ r k' :=
      ⟨congrArg Outcome.value hk', congrArg Outcome.state hk', fun c _ ↦ c.1.elim⟩
    exact hruns.ensures (fun _ ↦ trivial)
      (.inr ⟨⟨e, hall⟩, e, table, size, k₁, hk', hbuilds⟩)
  refine (hends.of_runs ⟨hr, rfl, fun c _ ↦ c.1.elim⟩).imp_right fun ⟨hloads, e, table, size, k₁, hk₁,
    hbuilds⟩ ↦ ⟨hloads, e, table, size, k₁, ?_, hbuilds⟩
  rw [hk₁, ← hr]
  generalize Elf.exec (rest F k.trampoline p.trapFrame) path argv (p.enter k) = o
  obtain ⟨trace, state, value⟩ := o
  obtain rfl : trace = [] := List.eq_nil_iff_forall_not_mem.mpr fun c _ ↦ c.1.elim
  rfl

/-- A program with two arguments. -/
theorem exec_builds_stack_two : ∃ p table size sp k' ptrs, p ∈ oneProcess.processes ∧
    Elf.exec (rest lowSegment.files oneProcess.trampoline p.trapFrame) [] [[104, 105], [33]]
      (p.enter oneProcess) = ⟨[], k', some 2⟩ ∧ k'.sp = sp ∧
    ArgStack k'.world.pages table size sp [[104, 105], [33]] ptrs := by
  have hvalue : (oneProcess.processes[0]?.bind fun p ↦
      (Elf.exec (rest lowSegment.files oneProcess.trampoline p.trapFrame) [] [[104, 105], [33]]
        (p.enter oneProcess)).value) = some 2 := by decide +kernel
  obtain ⟨p, hp, hr⟩ := Option.bind_eq_some_iff.mp hvalue
  have hstack := exec_builds_stack thirtyTwoPages_booted (oneProcess_run lowSegment.files)
    (lowSegment.files_serves []) trivial (by decide) (by decide) hr
  obtain ⟨hbad, -⟩ | ⟨-, e, table, size, k₁, hexec, hbuilds⟩ := hstack
  · cases hbad
  · obtain ⟨r, k', hk', -, hdone⟩ := hbuilds.result
    rw [hexec, hk'] at hr
    obtain rfl : r = 2 := Option.some_inj.mp hr
    obtain ⟨-, -, -, -, ptrs, hargs⟩ := hdone (by decide)
    exact ⟨p, table, size, k'.sp, k', ptrs, List.mem_of_getElem? hp, hexec.trans hk', rfl, hargs⟩

end Orfos.Memory
