import OsCourse.Lib.Bits
import OsCourse.Lib.Except

/-!
# `malloc` and `free` of the small C library

`malloc` rounds the size up to a multiple of eight, asks the kernel for a mapping with
eight bytes more and keeps the rounded size in its first eight bytes.  `free` takes the
size from there.

The kernel's answer is a word.  A word from -4095 to -1 is an error, and every other
word is the start of a new mapping.  `malloc` takes only -1 for an error.

The instruction `syscall` overwrites `rcx` and `r11`.  The list of the `asm` statement of
`malloc` does not name them, so that the compiler may keep `size` in one of them while the
statement runs, and then something else becomes the header.  In the object file of the
repository, `obj/malloc.o`, it is `r11`.
-/

namespace OsCourse.Minilibc

/-- `size_t`, and an address. -/
abbrev Word64 := BitVec 64

/-- The bytes that are mapped. -/
abbrev Memory := Word64 → Option (BitVec 8)

/-- An access of memory that is not mapped. -/
inductive Segfault where
  | unmapped (a : Word64)
deriving DecidableEq

/-- The eight bytes from `a` on are mapped. -/
def Mapped8 (mem : Memory) (a : Word64) : Prop :=
  ∀ i : Fin 8, (mem (a + BitVec.ofNat 64 i)).isSome = true

instance (mem : Memory) (a : Word64) : Decidable (Mapped8 mem a) :=
  inferInstanceAs (Decidable (∀ i : Fin 8, (mem (a + BitVec.ofNat 64 i)).isSome = true))

/-- The memory with the bytes of `v` from `a` on, the lowest first. -/
def overwrite (mem : Memory) (a v : Word64) : Memory := fun b =>
  if (b - a).toNat < 8 then some (v.extractLsb' (8 * (b - a).toNat) 8) else mem b

/-- `*(size_t*)a = v`. -/
def store (mem : Memory) (a v : Word64) : Except Segfault Memory :=
  if Mapped8 mem a then .ok (overwrite mem a v) else .error (.unmapped a)

/-- The eight bytes from `a` on. -/
def bytesAt (mem : Memory) (a : Word64) (i : Fin 8) : BitVec 8 :=
  (mem (a + BitVec.ofNat 64 i)).getD 0

/-- A word from its bytes, the lowest first. -/
def ofBytes (bytes : Fin 8 → BitVec 8) : Word64 :=
  bytes 7 ++ bytes 6 ++ bytes 5 ++ bytes 4 ++ bytes 3 ++ bytes 2 ++ bytes 1 ++ bytes 0

/-- `*(size_t*)a`. -/
def load (mem : Memory) (a : Word64) : Except Segfault Word64 :=
  if Mapped8 mem a then .ok (ofBytes (bytesAt mem a)) else .error (.unmapped a)

/-- The answers of the kernel to `mmap` for `length` bytes. -/
inductive MmapResult (mem : Memory) (length : Word64) where
  | failed (value : Word64) (error : 2 ^ 64 - 4095 ≤ value.toNat)
  /-- A new mapping of `bytes` bytes. -/
  | mapped (start : Word64) (bytes : Nat) (length_ne : length ≠ 0)
      (length_le : length.toNat ≤ bytes) (in_space : start.toNat + bytes ≤ 2 ^ 64)
      (no_error : start.toNat < 2 ^ 64 - 4095)
      (fresh : ∀ a : Word64, start.toNat ≤ a.toNat → a.toNat < start.toNat + bytes → mem a = none)

namespace MmapResult

variable {mem : Memory} {length : Word64}

/-- The word in `rax`. -/
def value : MmapResult mem length → Word64
  | failed value _ => value
  | mapped start .. => start

/-- The memory after the call.  A new mapping is filled with zeros. -/
def memory : MmapResult mem length → Memory
  | failed .. => mem
  | mapped start bytes .. => fun a =>
      if start.toNat ≤ a.toNat ∧ a.toNat < start.toNat + bytes then some 0 else mem a

end MmapResult

/-- The size rounded up. -/
def alignedSize (size : Word64) : Word64 := (size + 7) &&& ~~~7

/-- `total_size`. -/
def totalSize (size : Word64) : Word64 := alignedSize size + 8

/-- Where the compiler keeps `size` while the `asm` statement runs. -/
inductive Place where
  | rcx
  | r11
  /-- A register that `syscall` preserves, or the stack. -/
  | preserved
deriving DecidableEq

/-- What `syscall` leaves in the two registers: the address of the next instruction and the
flags, of which bit 1 is always set. -/
structure Overwritten where
  rcx : Word64
  r11 : Word64
  reserved : r11.getLsbD 1 = true

/-- `size` after the `asm` statement. -/
def sizeAfter (place : Place) (regs : Overwritten) (size : Word64) : Word64 :=
  match place with
  | .rcx => regs.rcx
  | .r11 => regs.r11
  | .preserved => alignedSize size

/-- The pointer that is returned, and the memory then. -/
def malloc {mem : Memory} (place : Place) (regs : Overwritten) (size : Word64)
    (result : MmapResult mem (totalSize size)) : Except Segfault (Word64 × Memory) :=
  if result.value = -1 then .ok (0, result.memory)
  else do
    let mem ← store result.memory result.value (sizeAfter place regs size)
    return (result.value + 8, mem)

/-- The start and the length of the `munmap`, if there is one. -/
def free (mem : Memory) (ptr : Word64) : Except Segfault (Option (Word64 × Word64)) :=
  if ptr ≠ 0 then do
    let size ← load mem (ptr - 8)
    return some (ptr - 8, size + 8)
  else .ok none

/-! ## Stores and loads -/

/-- A load looks at eight bytes only. -/
theorem load_congr {mem mem' : Memory} {a : Word64}
    (h : ∀ i : Fin 8, mem' (a + BitVec.ofNat 64 i) = mem (a + BitVec.ofNat 64 i)) :
    load mem' a = load mem a := by
  have hmapped : Mapped8 mem' a ↔ Mapped8 mem a := by simp only [Mapped8, h]
  have hbytes : bytesAt mem' a = bytesAt mem a := funext fun i => by rw [bytesAt, bytesAt, h i]
  rw [load, load, hbytes]
  exact if_congr hmapped rfl rfl

theorem overwrite_apply (mem : Memory) (a v : Word64) (i : Fin 8) :
    overwrite mem a v (a + BitVec.ofNat 64 i) = some (v.extractLsb' (8 * i) 8) := by
  have hdistance : (a + BitVec.ofNat 64 i - a).toNat = i := by bv_omega
  rw [overwrite, hdistance, if_pos i.isLt]

/-- What was stored is loaded. -/
theorem load_overwrite (mem : Memory) (a v : Word64) : load (overwrite mem a v) a = .ok v := by
  have hmapped : Mapped8 (overwrite mem a v) a := fun i => by
    rw [overwrite_apply, Option.isSome_some]
  have hbytes : bytesAt (overwrite mem a v) a = fun i : Fin 8 => v.extractLsb' (8 * (i : Nat)) 8 :=
    funext fun i => by rw [bytesAt, overwrite_apply, Option.getD_some]
  rw [load, if_pos hmapped, hbytes]
  exact congrArg Except.ok (Bits.append_bytes v)

/-! ## Sizes -/

theorem toNat_alignedSize (size : Word64) :
    (alignedSize size).toNat = (size.toNat + 7) % 2 ^ 64 / 8 * 8 := by
  have hmask := Bits.toNat_and_not_mask (size + 7) 3
  rw [BitVec.toNat_add] at hmask
  exact hmask

/-- There is always room for the header, and without an overflow also for the size. -/
theorem le_toNat_totalSize {size : Word64} (hne : totalSize size ≠ 0) :
    8 ≤ (totalSize size).toNat ∧
      (size.toNat + 7 < 2 ^ 64 → size.toNat + 8 ≤ (totalSize size).toNat) := by
  have haligned := toNat_alignedSize size
  have htotal : (totalSize size).toNat = ((alignedSize size).toNat + 8) % 2 ^ 64 :=
    BitVec.toNat_add _ _
  have hpos : (totalSize size).toNat ≠ 0 := fun hzero => hne (BitVec.eq_of_toNat_eq hzero)
  omega

/-- The rounded size is a multiple of eight, and the flags are not. -/
theorem alignedSize_ne_r11 (regs : Overwritten) (size : Word64) : regs.r11 ≠ alignedSize size := by
  intro h
  have hbit := regs.reserved
  rw [h, alignedSize, BitVec.getLsbD_and] at hbit
  revert hbit
  simp

/-! ## Calls -/

section
variable {mem : Memory} {place : Place} {regs : Overwritten} {size : Word64}

theorem malloc_of_eq {result : MmapResult mem (totalSize size)} (h : result.value = -1) :
    malloc place regs size result = .ok (0, result.memory) :=
  if_pos h

theorem malloc_of_ne (result : MmapResult mem (totalSize size)) (h : result.value ≠ -1) :
    malloc place regs size result =
      store result.memory result.value (sizeAfter place regs size) >>= fun mem =>
        .ok (result.value + 8, mem) :=
  if_neg h

/-- After a failure `NULL` is returned for -1, and for -8 if the last eight bytes of the
address space are mapped. -/
theorem malloc_failed_iff (value : Word64) (error : 2 ^ 64 - 4095 ≤ value.toNat) :
    (∃ mem', malloc place regs size (.failed value error : MmapResult mem (totalSize size)) =
      .ok (0, mem')) ↔ value = -1 ∨ (value = -8 ∧ Mapped8 mem value) := by
  by_cases hvalue : value = -1
  · exact iff_of_true ⟨_, malloc_of_eq hvalue⟩ (.inl hvalue)
  · rw [malloc_of_ne (.failed value error) hvalue]
    simp only [MmapResult.value, MmapResult.memory, store, hvalue, false_or]
    by_cases hmapped : Mapped8 mem value
    · have hnull : value + 8 = 0 ↔ value = -8 := by
        constructor
        · intro h
          bv_omega
        · rintro rfl
          rfl
      simp only [hmapped, if_true, ok_bind, and_true, ← hnull]
      constructor
      · rintro ⟨mem', h⟩
        exact (Prod.mk.inj (Except.ok.inj h)).1
      · intro h
        exact ⟨_, by rw [h]⟩
    · simp only [hmapped, if_false, and_false, iff_false]
      rintro ⟨mem', h⟩
      cases h

/-- The answer is a new mapping, into which the header is stored. -/
theorem malloc_mapped {start : Word64} {bytes : Nat} (hne : totalSize size ≠ 0)
    (hle : (totalSize size).toNat ≤ bytes) (hspace : start.toNat + bytes ≤ 2 ^ 64)
    (herror : start.toNat < 2 ^ 64 - 4095)
    (hfresh : ∀ a : Word64, start.toNat ≤ a.toNat → a.toNat < start.toNat + bytes → mem a = none) :
    ∃ mem', malloc place regs size (.mapped start bytes hne hle hspace herror hfresh) =
        .ok (start + 8, overwrite mem' start (sizeAfter place regs size)) := by
  have height := (le_toNat_totalSize hne).1
  have hvalue : start ≠ -1 := by
    rintro rfl
    exact absurd herror (by decide)
  have hmapped : Mapped8
      (MmapResult.mapped start bytes hne hle hspace herror hfresh).memory start := by
    intro i
    have haddress : (start + BitVec.ofNat 64 i).toNat = start.toNat + i := by bv_omega
    simp only [MmapResult.memory, haddress]
    rw [if_pos (by omega), Option.isSome_some]
  refine ⟨(MmapResult.mapped start bytes hne hle hspace herror hfresh).memory, ?_⟩
  rw [malloc_of_ne (.mapped start bytes hne hle hspace herror hfresh) hvalue, MmapResult.value,
    store, if_pos hmapped, ok_bind]

/-- `free` unmaps what the header says, as long as it is in place. -/
theorem free_of_header {start header : Word64} (herror : start.toNat < 2 ^ 64 - 4095)
    {later mem' : Memory} (h : ∀ i : Fin 8, later (start + 8 - 8 + BitVec.ofNat 64 i) =
      overwrite mem' start header (start + 8 - 8 + BitVec.ofNat 64 i)) :
    free later (start + 8) = .ok (some (start, header + 8)) := by
  have hstart : start + 8 - 8 = start := by bv_omega
  have hne : start + 8 ≠ 0 := by bv_omega
  rw [hstart] at h
  rw [free, if_pos hne, hstart, load_congr h, load_overwrite, ok_bind]
  rfl

end

/-- What `malloc` is for: `NULL` after a failure, and otherwise a pointer into the new
mapping with room in front of it for the header and behind it for `size` bytes, which
`free` gives back. -/
def Delivers {mem : Memory} (place : Place) (regs : Overwritten) (size : Word64)
    (result : MmapResult mem (totalSize size)) : Prop :=
  match result with
  | .failed _ _ => ∃ mem', malloc place regs size result = .ok (0, mem')
  | .mapped start bytes .. => ∃ p mem', malloc place regs size result = .ok (p, mem') ∧ p ≠ 0 ∧
      (∀ n, p.toNat ≤ n + 8 → n < p.toNat + size.toNat →
        start.toNat ≤ n ∧ n < start.toNat + bytes) ∧
      ∀ later : Memory,
        (∀ i : Fin 8, later (p - 8 + BitVec.ofNat 64 i) = mem' (p - 8 + BitVec.ofNat 64 i)) →
        free later p = .ok (some (start, totalSize size))

/-- `size` comes out of the `asm` statement as it went in: never in `r11`, and in `rcx` only
if it is the address of the next instruction. -/
def Kept (regs : Overwritten) (size : Word64) : Place → Prop
  | .rcx => regs.rcx = alignedSize size
  | .r11 => False
  | .preserved => True

/-- The answers and sizes that `malloc` deals with: the failure -1 (and -8, if the last
eight bytes of the address space are mapped), and a mapping for a size whose rounding
does not overflow and that is kept. -/
def Handled {mem : Memory} (place : Place) (regs : Overwritten) (size : Word64)
    (result : MmapResult mem (totalSize size)) : Prop :=
  match result with
  | .failed value _ => value = -1 ∨ (value = -8 ∧ Mapped8 mem value)
  | .mapped .. => size.toNat + 7 < 2 ^ 64 ∧ Kept regs size place

theorem sizeAfter_eq_iff (place : Place) (regs : Overwritten) (size : Word64) :
    sizeAfter place regs size = alignedSize size ↔ Kept regs size place := by
  cases place with
  | rcx => exact Iff.rfl
  | r11 => exact iff_of_false (alignedSize_ne_r11 regs size) id
  | preserved => exact iff_of_true rfl trivial

theorem delivers_mapped_iff {mem : Memory} {place : Place} {regs : Overwritten}
    {size start : Word64} {bytes : Nat} (hne : totalSize size ≠ 0)
    (hle : (totalSize size).toNat ≤ bytes) (hspace : start.toNat + bytes ≤ 2 ^ 64)
    (herror : start.toNat < 2 ^ 64 - 4095)
    (hfresh : ∀ a : Word64, start.toNat ≤ a.toNat → a.toNat < start.toNat + bytes → mem a = none) :
    Delivers place regs size (.mapped start bytes hne hle hspace herror hfresh) ↔
      size.toNat + 7 < 2 ^ 64 ∧ Kept regs size place := by
  obtain ⟨mem', hcall⟩ : ∃ mem', malloc place regs size
      (.mapped start bytes hne hle hspace herror hfresh) =
        .ok (start + 8, overwrite mem' start (sizeAfter place regs size)) :=
    malloc_mapped hne hle hspace herror hfresh
  have hp : (start + 8).toNat = start.toNat + 8 := by bv_omega
  rw [← sizeAfter_eq_iff]
  constructor
  · rintro ⟨p, mem'', hcall', -, hroom, hfree⟩
    cases hcall.symm.trans hcall'
    rw [hp] at hroom
    constructor
    · -- The last byte is in the mapping, and so in the address space.
      by_contra hoverflow
      have hlarge : 2 ^ 64 ≤ size.toNat + 7 := not_lt.mp hoverflow
      have hlast := (hroom (start.toNat + 8 + size.toNat - 1) (by omega) (by omega)).2
      omega
    · have hsame := (free_of_header herror fun _ => rfl).symm.trans (hfree _ fun _ => rfl)
      have hlength := (Prod.mk.inj (Option.some.inj (Except.ok.inj hsame))).2
      rw [totalSize] at hlength
      bv_omega
  · rintro ⟨hsize, hkept⟩
    have hroom := (le_toNat_totalSize hne).2 hsize
    rw [hkept] at hcall
    refine ⟨start + 8, _, hcall, by bv_omega, fun n hlow hhigh => ?_,
      fun later hlater => free_of_header herror hlater⟩
    rw [hp] at hlow hhigh
    omega

/-- `malloc` delivers exactly in the cases that it deals with.  As it is built, with `size`
in `r11`, it never does when there is a new mapping. -/
theorem malloc_delivers_iff {mem : Memory} (size : Word64) (regs : Overwritten)
    (result : MmapResult mem (totalSize size)) :
    (∀ place, Delivers place regs size result ↔ Handled place regs size result) ∧
    (Delivers .r11 regs size result → ∃ value error, result = .failed value error ∧
      (value = -1 ∨ value = -8)) := by
  cases result with
  | failed value error =>
      refine ⟨fun place => malloc_failed_iff value error, fun h => ⟨value, error, rfl, ?_⟩⟩
      exact ((malloc_failed_iff value error).mp h).imp id And.left
  | mapped start bytes hne hle hspace herror hfresh =>
      refine ⟨fun place => delivers_mapped_iff hne hle hspace herror hfresh, fun h => ?_⟩
      exact ((delivers_mapped_iff hne hle hspace herror hfresh).mp h).2.elim

/-- Nothing is mapped. -/
def noMemory : Memory := fun _ => none

/-- The answer `-ENOMEM`. -/
def outOfMemory : MmapResult noMemory (totalSize 100) := .failed (-12) (by decide)

/-- A page for the eight bytes that are asked for when the size is the largest. -/
def onePage : MmapResult noMemory (totalSize (-1)) :=
  .mapped 4096 4096 (by decide) (by decide) (by decide) (by decide) fun _ _ _ => rfl

/-- Three pages for 10000 bytes. -/
def threePages : MmapResult noMemory (totalSize 10000) :=
  .mapped 4096 12288 (by decide) (by decide) (by decide) (by decide) fun _ _ _ => rfl

/-- The flags after the size 10000 has been rounded: only interrupts are enabled. -/
def flags : Overwritten := ⟨0x401039, 0x202, by decide⟩

/-- An error other than -1 is taken for an address, the largest size is rounded to zero, and
of the 10008 bytes for a size of 10000 `free` unmaps as many as the flags say. -/
theorem malloc_misses :
    (∀ place, malloc place flags 100 outOfMemory = .error (.unmapped (-12))) ∧
    (∀ place, (∃ mem', malloc place flags (-1) onePage = .ok (4104, mem')) ∧
      ¬ Delivers place flags (-1) onePage) ∧
    ∃ mem', malloc .r11 flags 10000 threePages = .ok (4104, mem') ∧
      free mem' 4104 = .ok (some (4096, 522)) ∧ totalSize 10000 = 10008 := by
  refine ⟨fun place => rfl, fun place => ⟨?_, fun h => ?_⟩, ?_⟩
  · obtain ⟨mem', h⟩ : ∃ mem', malloc place flags (-1) onePage =
        .ok (4096 + 8, overwrite mem' 4096 (sizeAfter place flags (-1))) := malloc_mapped _ _ _ _ _
    exact ⟨_, h⟩
  · exact absurd ((delivers_mapped_iff _ _ _ _ _).mp h).1 (by decide)
  · obtain ⟨mem', h⟩ : ∃ mem', malloc .r11 flags 10000 threePages =
        .ok (4096 + 8, overwrite mem' 4096 (sizeAfter .r11 flags 10000)) := malloc_mapped _ _ _ _ _
    exact ⟨_, h, free_of_header (by decide) fun _ => rfl, by decide⟩

end OsCourse.Minilibc
