import Orfos.Memory.Page

/-!
# Page tables

`kernel/memory/va.h`, `va.cpp`, `pte.h`, `pte.cpp` and the functions `map`, `unmap`, `walk`,
`walkAddress` and `getEntry` of `page_table.cpp`. A page table is given by the address of its
page, a pointer to an entry by the address of the entry, and `nullptr` is `none`.
-/

namespace Orfos.Memory

open Orfos.Base

/-- `MAX_VIRTUAL_ADDRESS` of `kernel/arch/config.h`. -/
abbrev MAX_VIRTUAL_ADDRESS : UInt64 := (1 : UInt64) <<< (9 + 9 + 9 + 12 - 1)

/-- `TRAMPOLINE`. -/
abbrev TRAMPOLINE : UInt64 := MAX_VIRTUAL_ADDRESS - PAGE_SIZE

/-- `TRAPFRAME`. -/
abbrev TRAPFRAME : UInt64 := TRAMPOLINE - PAGE_SIZE

namespace VirtualAddress

/-- The bit field `vpn0`. -/
def vpn0 (address : UInt64) : UInt64 := address >>> 12 &&& 0x1ff

/-- The bit field `vpn1`. -/
def vpn1 (address : UInt64) : UInt64 := address >>> 21 &&& 0x1ff

/-- The bit field `vpn2`. -/
def vpn2 (address : UInt64) : UInt64 := address >>> 30 &&& 0x1ff

/-- `VirtualAddress::roundUp`. -/
def roundUp (address : UInt64) : UInt64 := address + PAGE_SIZE - 1 &&& ~~~ (PAGE_SIZE - 1)

/-- `VirtualAddress::roundDown`. -/
def roundDown (address : UInt64) : UInt64 := address &&& ~~~ (PAGE_SIZE - 1)

end VirtualAddress

/-- `PTE_V`. -/
abbrev PTE_V : UInt64 := (1 : UInt64) <<< 0
/-- `PTE_R`. -/
abbrev PTE_R : UInt64 := (1 : UInt64) <<< 1
/-- `PTE_W`. -/
abbrev PTE_W : UInt64 := (1 : UInt64) <<< 2
/-- `PTE_X`. -/
abbrev PTE_X : UInt64 := (1 : UInt64) <<< 3
/-- `PTE_U`. -/
abbrev PTE_U : UInt64 := (1 : UInt64) <<< 4

/-- A page table entry as the word `raw`. -/
abbrev PageTableEntry := UInt64

namespace PageTableEntry

/-- The bit field `v`. -/
def v (raw : PageTableEntry) : Bool := raw &&& PTE_V != 0

/-- The bit field `u`. -/
def u (raw : PageTableEntry) : Bool := raw &&& PTE_U != 0

/-- `PageTableEntry::toPhysicalAddress`. -/
def toPhysicalAddress (raw : PageTableEntry) : UInt64 := raw >>> 10 <<< 12

/-- `PageTableEntry::fromPhysicalAddress`. -/
def fromPhysicalAddress (address : UInt64) : PageTableEntry := address >>> 12 <<< 10

/-- `PageTableEntry::flags`. -/
def flags (raw : PageTableEntry) : UInt16 := (raw &&& 0x3ff).toUInt16

end PageTableEntry

/-- `Page::from`. -/
def Page.fromAddress (address : UInt64) : Except Halt UInt64 :=
  if address % PAGE_SIZE = 0 then .ok address
  else .error (.assert "addr % PAGE_SIZE == 0")

namespace PageTable

open PageTableEntry VirtualAddress

/-- `PageTable::PageTable` at the start of a page. -/
def construct (table : UInt64) (s : State) : State := s.store table 0

/-- The `switch` of `PageTable::getEntry`. It is called for the levels 0, 1 and 2 only, so the
assertion on the level holds. -/
def vpn (virtualAddress : UInt64) : Nat → UInt64
  | 0 => vpn0 virtualAddress
  | 1 => vpn1 virtualAddress
  | _ => vpn2 virtualAddress

/-- `PageTable::getEntry`. -/
def getEntry (table : UInt64) (level : Nat) (virtualAddress : UInt64) : UInt64 :=
  table + 8 * vpn virtualAddress level

/-- The loop of `PageTable::walk` from a level down, and `getEntry` of the table it ends in. -/
def walkFrom (virtualAddress : UInt64) (allocate : Bool) :
    Nat → UInt64 → State → Except Halt (Option UInt64 × State)
  | 0, table, s => .ok (some (getEntry table 0 virtualAddress), s)
  | level + 1, table, s =>
    let pte := getEntry table (level + 1) virtualAddress
    if v (s.load pte) then
      (Page.fromAddress (toPhysicalAddress (s.load pte))).bind fun next ↦
        walkFrom virtualAddress allocate level next s
    else if ¬ allocate then .ok (none, s)
    else
      (Page.allocate s).bind fun (page, s) ↦
        let s := construct page s
        let s := s.store pte (fromPhysicalAddress page)
        let s := s.store pte (s.load pte ||| PTE_V)
        walkFrom virtualAddress allocate level page s

/-- `PageTable::walk`. -/
def walk (table virtualAddress : UInt64) (allocate : Bool) (s : State) :
    Except Halt (Option UInt64 × State) :=
  if virtualAddress < MAX_VIRTUAL_ADDRESS then walkFrom virtualAddress allocate 2 table s
  else .error (.assert "virtualAddress.address < MAX_VIRTUAL_ADDRESS")

/-- The assertion in the loop of `PageTable::map`. -/
abbrev mapped : Halt := .assert "!pte->pte.v"

/-- The loop of `PageTable::map`. The fuel bounds the number of its rounds; an address that has
run past the last one stops at the assertion of `walk`. -/
def mapFrom (table last : UInt64) (flags : UInt16) :
    Nat → UInt64 → UInt64 → State → Except Halt (Bool × State)
  | 0, _, _, s => .ok (false, s)
  | fuel + 1, virtualAddress, physicalAddress, s =>
    (walk table virtualAddress true s).bind fun
      | (none, s) => .ok (false, s)
      | (some pte, s) =>
        if v (s.load pte) then .error mapped
        else
          let s := s.store pte (s.load pte ||| flags.toUInt64)
          let s := s.store pte (s.load pte ||| PTE_V)
          let s := s.store pte (s.load pte ||| physicalAddress >>> 12 <<< 10)
          if virtualAddress = last then .ok (true, s)
          else mapFrom table last flags fuel (virtualAddress + PAGE_SIZE)
            (physicalAddress + PAGE_SIZE) s

/-- `PageTable::map`. -/
def map (table virtualAddress size physicalAddress : UInt64) (flags : UInt16) (s : State) :
    Except Halt (Bool × State) :=
  if size = 0 then .error (.assert "size != 0")
  else
    mapFrom table (roundDown (virtualAddress + size - 1)) flags
      ((MAX_VIRTUAL_ADDRESS / PAGE_SIZE).toNat + 1) (roundDown virtualAddress) physicalAddress s

/-- `PageTable::unmap`, which is not implemented. -/
def unmap (_table _virtualAddress _numPages : UInt64) (_doFree : Bool) (s : State) : State := s

/-- `PageTable::walkAddress`. -/
def walkAddress (table virtualAddress : UInt64) (s : State) : Except Halt UInt64 :=
  if virtualAddress ≥ MAX_VIRTUAL_ADDRESS then .ok 0
  else
    (walk table virtualAddress false s).bind fun
      | (none, _) => .ok 0
      | (some pte, s) =>
        if ¬ v (s.load pte) then .ok 0
        else if ¬ u (s.load pte) then .ok 0
        else .ok (toPhysicalAddress (s.load pte))

end PageTable

/-! ### Addresses -/

namespace VirtualAddress

theorem roundDown_toNat (a : UInt64) : (roundDown a).toNat = a.toNat / 4096 * 4096 := by
  have hmask : (~~~ (PAGE_SIZE - 1)).toNat = (2 ^ 52 - 1) <<< 12 := rfl
  have hlt : a.toNat < 2 ^ 64 := a.toNat_lt
  rw [roundDown, UInt64.toNat_and, hmask, show a.toNat / 4096 * 4096 = a.toNat >>> 12 <<< 12 by
    rw [Nat.shiftRight_eq_div_pow, Nat.shiftLeft_eq]]
  apply Nat.eq_of_testBit_eq
  intro i
  rw [Nat.testBit_and, Nat.testBit_shiftLeft, Nat.testBit_shiftLeft, Nat.testBit_shiftRight,
    Nat.testBit_two_pow_sub_one]
  by_cases h12 : 12 ≤ i
  · rw [show 12 + (i - 12) = i by omega]
    by_cases h64 : i < 64
    · simp [h12, show i - 12 < 52 by omega]
    · rw [Nat.testBit_lt_two_pow (hlt.trans_le (Nat.pow_le_pow_right (by decide) (by omega)))]
      simp
  · simp [h12]

theorem roundDown_of_aligned {a : UInt64} (h : a.toNat % 4096 = 0) : roundDown a = a := by
  apply UInt64.toNat_inj.mp
  rw [roundDown_toNat]
  omega

/-- The number of the page of an address. -/
abbrev page (a : UInt64) : Nat := a.toNat / 4096

/-- The number of pages that a size in bytes takes. -/
def pageCount (size : UInt64) : Nat := (size.toNat + 4095) / 4096

/-- The index of a page at a level. -/
def index (page : Nat) : Nat → Fin 512
  | 0 => ⟨page % 512, Nat.mod_lt _ (by decide)⟩
  | 1 => ⟨page / 512 % 512, Nat.mod_lt _ (by decide)⟩
  | _ => ⟨page / 512 / 512 % 512, Nat.mod_lt _ (by decide)⟩

/-- A page below `512 ^ 3` is determined by its three indices. -/
theorem index_inj {n m : Nat} (hn : n < 512 ^ 3) (hm : m < 512 ^ 3) (h0 : index n 0 = index m 0)
    (h1 : index n 1 = index m 1) (h2 : index n 2 = index m 2) : n = m := by
  have h0' : n % 512 = m % 512 := congrArg Fin.val h0
  have h1' : n / 512 % 512 = m / 512 % 512 := congrArg Fin.val h1
  have h2' : n / 512 / 512 % 512 = m / 512 / 512 % 512 := congrArg Fin.val h2
  omega

private theorem field_toNat (a k : UInt64) (hk : k.toNat < 64) :
    (a >>> k &&& 0x1ff).toNat = a.toNat / 2 ^ k.toNat % 512 := by
  rw [UInt64.toNat_and, UInt64.toNat_shiftRight, Nat.shiftRight_eq_div_pow, Nat.mod_eq_of_lt hk]
  exact Nat.and_two_pow_sub_one_eq_mod _ 9

theorem vpn0_toNat (a : UInt64) : (vpn0 a).toNat = index (page a) 0 :=
  field_toNat a 12 (by decide)

theorem vpn1_toNat (a : UInt64) : (vpn1 a).toNat = index (page a) 1 := by
  rw [vpn1, field_toNat a 21 (by decide)]
  simp only [index, page, Nat.div_div_eq_div_mul]
  rfl

theorem vpn2_toNat (a : UInt64) : (vpn2 a).toNat = index (page a) 2 := by
  rw [vpn2, field_toNat a 30 (by decide)]
  simp only [index, page, Nat.div_div_eq_div_mul]
  rfl

end VirtualAddress

/-! ### Entries -/

namespace PageTableEntry

theorem v_eq (raw : PageTableEntry) : v raw = decide (raw.toNat % 2 = 1) := by
  rw [v, PTE_V, bne, Bool.eq_iff_iff]
  simp [← UInt64.toNat_inj]

theorem flags_toNat (raw : PageTableEntry) : (flags raw).toNat = raw.toNat % 1024 := by
  rw [flags, UInt64.toNat_toUInt16, UInt64.toNat_and]
  change (raw.toNat &&& 1023) % 65536 = _
  rw [Nat.and_two_pow_sub_one_eq_mod _ 10]
  omega

theorem toPhysicalAddress_toNat (raw : PageTableEntry) :
    (toPhysicalAddress raw).toNat = raw.toNat / 1024 * 4096 % 2 ^ 64 := by
  rw [toPhysicalAddress, UInt64.toNat_shiftLeft, UInt64.toNat_shiftRight,
    Nat.shiftRight_eq_div_pow, Nat.shiftLeft_eq]
  rfl

theorem toPhysicalAddress_aligned (raw : PageTableEntry) :
    (toPhysicalAddress raw).toNat % 4096 = 0 := by
  rw [toPhysicalAddress_toNat]
  omega

/-- The entry that `PageTable::map` leaves behind. -/
def leaf (flags : UInt16) (physicalAddress : UInt64) : PageTableEntry :=
  flags.toUInt64 ||| PTE_V ||| physicalAddress >>> 12 <<< 10

theorem leaf_toNat {f : UInt16} {pa : UInt64} (hf : f.toNat < 1024) :
    (leaf f pa).toNat = pa.toNat / 4096 * 1024 + (f ||| 1).toNat := by
  have hlow : (f ||| 1).toNat < 2 ^ 10 := by
    rw [UInt16.toNat_or]
    exact Nat.or_lt_two_pow hf (by decide)
  have hpa : pa.toNat < 2 ^ 64 := pa.toNat_lt
  have hhigh : (pa >>> 12 <<< 10).toNat = (pa.toNat / 4096) <<< 10 := by
    rw [UInt64.toNat_shiftLeft, UInt64.toNat_shiftRight, Nat.shiftRight_eq_div_pow]
    change (pa.toNat / 4096) <<< 10 % 2 ^ 64 = _
    rw [Nat.shiftLeft_eq]
    omega
  rw [leaf, UInt64.toNat_or, hhigh, Nat.or_comm,
    show (f.toUInt64 ||| PTE_V).toNat = (f ||| 1).toNat by
      rw [UInt64.toNat_or, UInt16.toNat_or, UInt16.toNat_toUInt64]
      rfl, ← Nat.shiftLeft_add_eq_or_of_lt hlow, Nat.shiftLeft_eq]

section

variable {f : UInt16} {pa : UInt64}

theorem toPhysicalAddress_leaf (hf : f.toNat < 1024) (hpa : pa.toNat % 4096 = 0) :
    toPhysicalAddress (leaf f pa) = pa := by
  have hlow : (f ||| 1).toNat < 2 ^ 10 := by
    rw [UInt16.toNat_or]
    exact Nat.or_lt_two_pow hf (by decide)
  have hlt : pa.toNat < 2 ^ 64 := pa.toNat_lt
  apply UInt64.toNat_inj.mp
  rw [toPhysicalAddress_toNat, leaf_toNat hf]
  omega

theorem flags_leaf (hf : f.toNat < 1024) : flags (leaf f pa) = f ||| 1 := by
  have hlow : (f ||| 1).toNat < 2 ^ 10 := by
    rw [UInt16.toNat_or]
    exact Nat.or_lt_two_pow hf (by decide)
  apply UInt16.toNat_inj.mp
  rw [flags_toNat, leaf_toNat hf]
  omega

/-- A flag of an entry, read from `flags`. -/
theorem field_flags (raw : PageTableEntry) {k : UInt64} {k' : UInt16}
    (hk : k.toNat = k'.toNat) (hlt : 1023 &&& k'.toNat = k'.toNat) :
    (raw &&& k != 0) = (flags raw &&& k' != 0) := by
  have h : (raw &&& k).toNat = (flags raw &&& k').toNat := by
    rw [UInt64.toNat_and, UInt16.toNat_and, flags_toNat, hk,
      ← Nat.and_two_pow_sub_one_eq_mod _ 10, Nat.and_assoc]
    exact congrArg _ hlt.symm
  rw [bne, bne, Bool.eq_iff_iff]
  simp only [Bool.not_eq_true', beq_eq_false_iff_ne, ne_eq, ← UInt64.toNat_inj,
    ← UInt16.toNat_inj, h]
  rfl

theorem v_flags (raw : PageTableEntry) : v raw = (flags raw &&& 1 != 0) :=
  field_flags raw rfl rfl

theorem u_flags (raw : PageTableEntry) : u raw = (flags raw &&& 16 != 0) :=
  field_flags raw rfl rfl

theorem v_leaf (hf : f.toNat < 1024) : v (leaf f pa) = true := by
  rw [v_eq, leaf_toNat hf, UInt16.toNat_or]
  have : (f.toNat ||| 1) % 2 = 1 := by
    rw [Nat.or_mod_two_eq_one]
    exact .inr rfl
  simp only [decide_eq_true_eq]
  change (pa.toNat / 4096 * 1024 + (f.toNat ||| 1)) % 2 = 1
  omega

end

/-- An entry that points to a page. -/
theorem fromPhysicalAddress_or (page : UInt64) :
    fromPhysicalAddress page ||| PTE_V = leaf 0 page := by
  rw [leaf, fromPhysicalAddress, UInt64.or_comm]
  rfl

@[simp] theorem v_zero : v 0 = false := rfl

end PageTableEntry

/-! ### Pointers to entries -/

namespace PageTable

open PageTableEntry VirtualAddress

theorem vpn_toNat (virtualAddress : UInt64) (level : Nat) :
    (vpn virtualAddress level).toNat = (index (page virtualAddress) level).val := by
  match level with
  | 0 => exact vpn0_toNat virtualAddress
  | 1 => exact vpn1_toNat virtualAddress
  | _ + 2 => exact vpn2_toNat virtualAddress

section

variable {table : UInt64} (h : table.toNat % 4096 = 0) (s : State) (level : Nat)
  (virtualAddress : UInt64)

include h

theorem getEntry_toNat : (getEntry table level virtualAddress).toNat =
    table.toNat + 8 * (index (page virtualAddress) level).val := by
  have hlt := (index (page virtualAddress) level).isLt
  have htable : table.toNat < 2 ^ 64 := table.toNat_lt
  rw [getEntry, UInt64.toNat_add, UInt64.toNat_mul, vpn_toNat]
  change (table.toNat + 8 * _ % 2 ^ 64) % 2 ^ 64 = _
  omega

/-- The page and the offset of an entry. -/
theorem getEntry_page : getEntry table level virtualAddress &&& ~~~ (PAGE_SIZE - 1) = table := by
  apply UInt64.toNat_inj.mp
  have hround := roundDown_toNat (getEntry table level virtualAddress)
  rw [roundDown] at hround
  have hlt := (index (page virtualAddress) level).isLt
  rw [hround, getEntry_toNat h]
  omega

theorem getEntry_offset : (getEntry table level virtualAddress).toNat % 4096 =
    8 * (index (page virtualAddress) level).val := by
  have hlt := (index (page virtualAddress) level).isLt
  rw [getEntry_toNat h]
  omega

theorem load_getEntry : s.load (getEntry table level virtualAddress) =
    getU64 (s.memory table) (8 * (index (page virtualAddress) level).val) := by
  rw [State.load, getEntry_page h, getEntry_offset h]

theorem store_getEntry (w : UInt64) : s.store (getEntry table level virtualAddress) w =
    s.setPage table (putU64 (s.memory table) (8 * (index (page virtualAddress) level).val) w) := by
  rw [State.store, getEntry_page h, getEntry_offset h]

end

end PageTable

end Orfos.Memory
