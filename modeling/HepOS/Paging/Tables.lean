/-
Page tables (`paging.rs`): entries, `get_or_make_user`, and the mapping of a page.

Physical memory is one array of bytes, and a page of it is a `Frame`. The kernel reaches all of it
through the higher-half mapping, so what `phys_to_virt` gives is accessed here at the physical
address. A table is a frame with 512 entries of eight bytes. Physical addresses have 52 bits.

`alloc_page` panics where the source says `expect`; a panic is `none`. Next to memory and the page
allocator the state keeps what has been taken from the allocator, and for what.

`get_or_make_user` follows an entry that is present without a look at its other bits. The processor
does look: an entry with bit 7 in one of the middle levels is a large page (`user_walk`).
-/
import HepOS.Lib.Bytes
import HepOS.Lib.Radix
import HepOS.Pmm.Accounting

set_option autoImplicit false

namespace HepOS.Paging

open Bytes Phys Radix Nat

/-! ## Entries -/

def PRESENT : UInt64 := 1
def WRITE : UInt64 := 2
def USER : UInt64 := 4
def NOCACHE : UInt64 := 16

/-- Physical memory. -/
abbrev Ram := Mem (2 ^ 52)

/-- The number of a page of physical memory. -/
abbrev Frame := Fin (2 ^ 40)

def Frame.addr (f : Frame) : UInt64 := UInt64.ofNat (f.val * 4096)

/-- The frame that an address, or an entry, is about. -/
def frame (a : UInt64) : Frame := ⟨a.toNat / 4096 % 2 ^ 40, mod_lt _ (by decide)⟩

def entry (mem : Ram) (table : Frame) (idx : Fin 512) : UInt64 :=
  UInt64.ofNat (leNat (mem.read (table.val * 4096 + 8 * idx.val) 8))

def set_entry (mem : Ram) (table : Frame) (idx : Fin 512) (e : UInt64) : Ram :=
  mem.write (table.val * 4096 + 8 * idx.val) (leBytes 8 e.toNat)

/-- `write_bytes(phys_to_virt(p), 0, 4096)` -/
def zero_page (mem : Ram) (f : Frame) : Ram := mem.fill (f.val * 4096) 4096 0

/-- The table that an entry leads to. -/
def child (e : UInt64) : Option Frame :=
  if e &&& PRESENT ≠ 0 then some (frame (e &&& 0x000FFFFFFFFFF000)) else none

/-- An entry of the lowest level that is present. -/
def leaf (e : UInt64) : Option UInt64 := if e &&& PRESENT ≠ 0 then some e else none

/-- The entry that `get_or_make_user` makes. -/
def link (f : Frame) : UInt64 := f.addr ||| PRESENT ||| WRITE ||| USER

/-! ## Mapping a page -/

/-- What a page is taken from the page allocator for. -/
inductive Use
  | pml4 | table | image | stack | anon
deriving DecidableEq, Repr

structure Mach where
  mem : Ram
  pmm : Pmm
  allocs : List (Use × Frame)

def Mach.alloc (m : Mach) (use : Use) : Option (Frame × Mach) :=
  match alloc_page m.pmm with
  | none => none
  | some (p, pmm) => some (frame p, { m with pmm := pmm, allocs := (use, frame p) :: m.allocs })

def get_or_make_user (m : Mach) (table : Frame) (idx : Fin 512) : Option (Frame × Mach) :=
  match child (entry m.mem table idx) with
  | some t => some (t, m)
  | none =>
    match m.alloc .table with
    | none => none
    | some (p, m) => some (p, { m with mem := set_entry (zero_page m.mem p) table idx (link p) })

section

variable (virt : UInt64)

/-- `(virt >> shift) & 0x1FF` -/
def index (shift : ℕ) : Fin 512 := Fin.ofNat 512 (virt.toNat / 2 ^ shift)

def i4 : Fin 512 := index virt 39
def i3 : Fin 512 := index virt 30
def i2 : Fin 512 := index virt 21
def i1 : Fin 512 := index virt 12

/-- The walk that both mapping functions make, and the entry at its end. -/
def map_leaf (m : Mach) (pml4 : Frame) (virt e : UInt64) : Option Mach :=
  match get_or_make_user m pml4 (i4 virt) with
  | none => none
  | some (p3, m) =>
    match get_or_make_user m p3 (i3 virt) with
    | none => none
    | some (p2, m) =>
      match get_or_make_user m p2 (i2 virt) with
      | none => none
      | some (p1, m) => some { m with mem := set_entry m.mem p1 (i1 virt) e }

def map_page_into (m : Mach) (pml4 : Frame) (virt phys flags : UInt64) : Option Mach :=
  map_leaf m pml4 virt (phys ||| flags ||| PRESENT)

/-- `pml4` is the one in CR3. -/
def map_page_current_user (m : Mach) (pml4 : Frame) (virt phys flags : UInt64) : Option Mach :=
  map_leaf m pml4 virt (phys ||| flags ||| PRESENT ||| USER)

/-! ## The processor's walk -/

/-- Ring 3 may pass the entry. -/
def user_ok (e : UInt64) : Bool := e &&& PRESENT != 0 && e &&& USER != 0

/-- The entry of a middle level is a large page. -/
def large (e : UInt64) : Bool := e &&& 128 != 0

/-- The physical address that ring 3 reaches at a virtual one. -/
def user_walk (mem : Ram) (pml4 : Frame) (virt : UInt64) : Option ℕ :=
  let e4 := entry mem pml4 (i4 virt)
  if user_ok e4 then
    let e3 := entry mem (frame e4) (i3 virt)
    if user_ok e3 then
      if large e3 then some (e3.toNat / 2 ^ 30 % 2 ^ 22 * 2 ^ 30 + virt.toNat % 2 ^ 30)
      else
        let e2 := entry mem (frame e3) (i2 virt)
        if user_ok e2 then
          if large e2 then some (e2.toNat / 2 ^ 21 % 2 ^ 31 * 2 ^ 21 + virt.toNat % 2 ^ 21)
          else
            let e1 := entry mem (frame e2) (i1 virt)
            if user_ok e1 then some ((frame e1).val * 4096 + virt.toNat % 4096) else none
        else none
    else none
  else none

/-- The addresses that the processor accepts. -/
def Canonical : Prop := virt.toNat < 2 ^ 47 ∨ 2 ^ 64 - 2 ^ 47 ≤ virt.toNat

end

/-! ## Bits -/

/-- The mask test reads a bit. -/
theorem and_bit_ne_zero {b : UInt64} {k : ℕ} (e : UInt64) (hb : b.toNat = 2 ^ k) :
    e &&& b ≠ 0 ↔ e.toNat.testBit k = true := by
  have hzero : (0 : UInt64).toNat = 0 := rfl
  rw [ne_eq, ← UInt64.toNat_inj, UInt64.toNat_and, hb, and_two_pow, hzero]
  cases e.toNat.testBit k with
  | false => simp
  | true => simp

theorem present_iff (e : UInt64) : e &&& PRESENT ≠ 0 ↔ e.toNat.testBit 0 = true :=
  and_bit_ne_zero e rfl

theorem user_ok_eq (e : UInt64) : user_ok e = (e.toNat.testBit 0 && e.toNat.testBit 2) := by
  have huser : e &&& USER ≠ 0 ↔ e.toNat.testBit 2 = true := and_bit_ne_zero e rfl
  unfold user_ok
  rw [Bool.eq_iff_iff, Bool.and_eq_true, Bool.and_eq_true, bne_iff_ne, bne_iff_ne,
    present_iff, huser]

theorem large_eq (e : UInt64) : large e = e.toNat.testBit 7 := by
  have hlarge : e &&& 128 ≠ 0 ↔ e.toNat.testBit 7 = true := and_bit_ne_zero e rfl
  unfold large
  rw [Bool.eq_iff_iff, bne_iff_ne, hlarge]

/-- The mask leaves the number of the frame alone. -/
theorem frame_mask (e : UInt64) : frame (e &&& 0x000FFFFFFFFFF000) = frame e := by
  have hshift : (e &&& 0x000FFFFFFFFFF000).toNat / 4096 = e.toNat / 4096 % 2 ^ 40 := by
    rw [UInt64.toNat_and, show (4096 : ℕ) = 2 ^ 12 from rfl, ← shiftRight_eq_div_pow,
      ← shiftRight_eq_div_pow, shiftRight_and_distrib]
    exact and_two_pow_sub_one_eq_mod _ 40
  unfold frame
  rw [Fin.mk.injEq, hshift, mod_mod]

/-- Flags in the low bits do not change the frame. -/
theorem frame_or (a : UInt64) {flags : UInt64} (h : flags.toNat < 4096) :
    frame (a ||| flags) = frame a := by
  have hshift : (a ||| flags).toNat / 4096 = a.toNat / 4096 := by
    rw [UInt64.toNat_or, show (4096 : ℕ) = 2 ^ 12 from rfl, ← shiftRight_eq_div_pow,
      ← shiftRight_eq_div_pow, shiftRight_or_distrib, shiftRight_eq_div_pow flags.toNat,
      div_eq_of_lt h, or_zero]
  unfold frame
  rw [Fin.mk.injEq, hshift]

theorem toNat_addr (f : Frame) : f.addr.toNat = f.val * 4096 := by
  unfold Frame.addr
  rw [UInt64.toNat_ofNat']
  omega

theorem frame_addr (f : Frame) : frame f.addr = f := by
  apply Fin.ext
  show f.addr.toNat / 4096 % 2 ^ 40 = f.val
  rw [toNat_addr]
  omega

theorem testBit_addr (f : Frame) {k : ℕ} (hk : k < 12) : f.addr.toNat.testBit k = false := by
  rw [toNat_addr, show (4096 : ℕ) = 2 ^ 12 from rfl, testBit_mul_two_pow,
    decide_eq_false (by omega)]
  rfl

theorem toNat_link (f : Frame) : (link f).toNat = f.addr.toNat ||| 1 ||| 2 ||| 4 := by
  rfl

theorem frame_link (f : Frame) : frame (link f) = f := by
  unfold link
  rw [frame_or _ (by decide), frame_or _ (by decide), frame_or _ (by decide), frame_addr]

theorem user_ok_link (f : Frame) : user_ok (link f) = true := by
  rw [user_ok_eq, toNat_link]
  simp only [testBit_or]
  rw [testBit_addr f (by decide), testBit_addr f (by decide)]
  decide

theorem large_link (f : Frame) : large (link f) = false := by
  rw [large_eq, toNat_link]
  simp only [testBit_or]
  rw [testBit_addr f (by decide)]
  decide

theorem child_of_present {e : UInt64} (h : e.toNat.testBit 0 = true) :
    child e = some (frame e) := by
  unfold child
  rw [if_pos ((present_iff e).mpr h), frame_mask]

theorem child_link (f : Frame) : child (link f) = some f := by
  have hok := user_ok_link f
  rw [user_ok_eq, Bool.and_eq_true] at hok
  rw [child_of_present hok.1, frame_link]

theorem child_zero : child 0 = none := by decide

theorem leaf_zero : leaf 0 = none := by decide

/-! ## Entries in memory -/

/-- The bytes of the frame are the same. -/
def SameFrame (mem mem' : Ram) (g : Frame) : Prop :=
  ∀ a, g.val * 4096 ≤ a → a < g.val * 4096 + 4096 → mem'.byte a = mem.byte a

theorem SameFrame.refl (mem : Ram) (g : Frame) : SameFrame mem mem g := fun _ _ _ => rfl

variable {mem : Ram} {f g : Frame} {m m' : Mach}

theorem SameFrame.trans {mem' mem'' : Ram} (h : SameFrame mem mem' g)
    (h' : SameFrame mem' mem'' g) : SameFrame mem mem'' g :=
  fun a hlow hhigh => (h' a hlow hhigh).trans (h a hlow hhigh)

theorem SameFrame.entry {mem' : Ram} (h : SameFrame mem mem' g) (i : Fin 512) :
    entry mem' g i = entry mem g i := by
  unfold Paging.entry
  rw [Mem.read_congr fun k hk => h _ (by omega) (by omega)]

theorem frame_apart (h : g ≠ f) : g.val * 4096 + 4096 ≤ f.val * 4096
    ∨ f.val * 4096 + 4096 ≤ g.val * 4096 := by
  have := Fin.val_ne_of_ne h
  omega

theorem sameFrame_set_entry {t : Frame} (h : g ≠ t) (i : Fin 512) (e : UInt64) :
    SameFrame mem (set_entry mem t i e) g := by
  intro a hlow hhigh
  have hapart := frame_apart h
  exact Mem.byte_write_outside _ _ _ (by rw [length_leBytes]; omega)

theorem sameFrame_zero_page (h : g ≠ f) : SameFrame mem (zero_page mem f) g := by
  intro a hlow hhigh
  have hapart := frame_apart h
  exact Mem.byte_fill_outside _ _ _ _ (by omega)

theorem entry_set_entry (mem : Ram) (t : Frame) (i : Fin 512) (e : UInt64) :
    entry (set_entry mem t i e) = store (entry mem) t i e := by
  funext t' j
  by_cases hhere : t' = t ∧ j = i
  · obtain ⟨rfl, rfl⟩ := hhere
    have hread := Mem.read_write_same mem (t'.val * 4096 + 8 * j.val) (leBytes 8 e.toNat)
      (by rw [length_leBytes]; omega)
    rw [length_leBytes] at hread
    rw [store_self]
    unfold entry set_entry
    rw [hread, leNat_leBytes 8 e.toNat (by have := e.toNat_lt; omega), UInt64.ofNat_toNat]
  · rw [store_of_ne (by rwa [not_and_or] at hhere)]
    unfold entry set_entry
    rw [Mem.read_write_disjoint]
    rw [length_leBytes]
    by_cases ht : t' = t
    · have hji : j.val ≠ i.val := fun heq => hhere ⟨ht, Fin.ext heq⟩
      omega
    · have hapart := frame_apart ht
      omega

theorem entry_zero_page (mem : Ram) (f : Frame) :
    entry (zero_page mem f) = clear (entry mem) f 0 := by
  funext t i
  unfold clear
  by_cases ht : t = f
  · subst ht
    rw [Function.update_self]
    have hread : (zero_page mem t).read (t.val * 4096 + 8 * i.val) 8 = List.replicate 8 0 := by
      rw [← Mem.read_zero (t.val * 4096 + 8 * i.val) 8]
      refine Mem.read_congr fun k hk => ?_
      unfold zero_page
      rw [Mem.byte_fill _ _ _ _ (by omega), if_pos (by omega), Mem.byte_zero]
    unfold entry
    rw [hread, leNat_replicate_zero]
    rfl
  · rw [Function.update_of_ne ht]
    exact (sameFrame_zero_page ht).entry i

/-! ## Pages from the allocator -/

/-- `m'` is `m` with one more page taken. -/
structure Mach.Takes (m : Mach) (use : Use) (f : Frame) (m' : Mach) : Prop where
  mem : m'.mem = m.mem
  lt : f.val < MAX_PAGES
  free : is_used m.pmm f.val = false
  used : ∀ q, is_used m'.pmm q = (is_used m.pmm q || decide (q = f.val))
  allocs : m'.allocs = (use, f) :: m.allocs

theorem Mach.alloc_spec {use : Use} (h : m.alloc use = some (f, m')) : m.Takes use f m' := by
  have hspec := alloc_page_spec m.pmm
  unfold Mach.alloc at h
  cases halloc : alloc_page m.pmm with
  | none =>
    rw [halloc] at h
    simp at h
  | some r =>
    obtain ⟨addr, pmm⟩ := r
    rw [halloc] at h hspec
    obtain ⟨page, haddr, hclaims⟩ := hspec
    cases h
    have hval : (frame addr).val = page := by
      have hlt := hclaims.lt
      show addr.toNat / 4096 % 2 ^ 40 = page
      rw [haddr]
      unfold MAX_PAGES at hlt
      unfold PAGE_SIZE
      omega
    refine ⟨rfl, hval ▸ hclaims.lt, hval ▸ hclaims.free, fun q => ?_, rfl⟩
    rw [hval]
    exact hclaims.used q

end HepOS.Paging
