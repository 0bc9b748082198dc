/-
The mapping calls of a process in ring 3, one after another.

`map_mmio_for_user` and `map_anon_for_user` share one cursor, which starts at `USER_MMIO_BASE` and
only goes up. A call either fails at once or maps pages from the cursor on, so with a limit for the
cursor the pages that it touches are known (`call_confined`). A session is a process together with
the regions that its calls have handed out.

With the kernel's tables for the frames that are kept (`kernel_set`), this says that launch and
calls leave the kernel half alone. The tables have to be taken pages for it (`KernelReady`), or they
could be handed out.
-/
import HepOS.Paging.Kernel
import HepOS.Process.Space
import HepOS.Process.Supply

set_option autoImplicit false

namespace HepOS.Process

open Hoare Phys Paging Trace List UInt64

/-! ## Sessions -/

/-- Pages that a call has handed out. -/
structure Region where
  base : UInt64
  pages : ℕ

def Region.Has (r : Region) (a : ℕ) : Prop := r.base.toNat ≤ a ∧ a < r.base.toNat + r.pages * 4096

/-- The number of pages that a call is about. -/
def Call.pages : Call → UInt64
  | .mmap_mmio _ phys len => ((phys &&& 0xFFF) + len + 0xFFF) / 4096
  | .mmap_anon len => (len + 0xFFF) / 4096

/-- The frames of a device that a call is about. -/
def Call.span : Call → Set Frame
  | .mmap_mmio dynamic phys len =>
    {f | ∃ i < (Call.mmap_mmio dynamic phys len).pages.toNat,
      f = frame (mmio_entry (page_floor phys) i)}
  | .mmap_anon _ => ∅

/-- The checks that come before the first page is mapped. -/
def Call.accepted : Call → Bool
  | .mmap_mmio dynamic phys len =>
    mmio_allowed dynamic phys len && !decide (len = 0 ∨ 16 * 1024 * 1024 < len)
  | .mmap_anon len => !decide (len = 0 ∨ 64 * 1024 * 1024 < len)

/-- A process in ring 3, the machine, and the regions that it has got so far, the last one first. -/
structure Session where
  p : Proc
  m : Mach
  regions : List Region

/-- A call and its result. The result 0 means that it has failed. -/
def Session.Step (s : Session) (a : Call × UInt64) (s' : Session) : Prop :=
  a.1.run s.p s.m = .ok (a.2, s'.p) s'.m
    ∧ s'.regions = if a.2 = 0 then s.regions else ⟨s.p.mmio_next_va, a.1.pages.toNat⟩ :: s.regions

/-! ## One call -/

theorem pages_mmio_le (dynamic : List Range) (phys : UInt64) {len : UInt64}
    (h : ¬ (len = 0 ∨ 16 * 1024 * 1024 < len)) :
    (Call.mmap_mmio dynamic phys len).pages.toNat ≤ 16384 := by
  rw [not_or, UInt64.not_lt, le_iff_toNat_le] at h
  have hoff : (phys &&& 0xFFF).toNat ≤ 4095 := by
    exact Nat.and_le_right
  have hlen : len.toNat ≤ 16777216 := h.2
  unfold Call.pages
  rw [UInt64.toNat_div, UInt64.toNat_add, UInt64.toNat_add,
    show (4096 : UInt64).toNat = 4096 from rfl, show (0xFFF : UInt64).toNat = 4095 from rfl]
  omega

theorem pages_anon_le {len : UInt64} (h : ¬ (len = 0 ∨ 64 * 1024 * 1024 < len)) :
    (Call.mmap_anon len).pages.toNat ≤ 16384 := by
  rw [not_or, UInt64.not_lt, le_iff_toNat_le] at h
  have hlen : len.toNat ≤ 67108864 := h.2
  unfold Call.pages
  rw [UInt64.toNat_div, UInt64.toNat_add, show (4096 : UInt64).toNat = 4096 from rfl,
    show (0xFFF : UInt64).toNat = 4095 from rfl]
  omega

/-- The pages of a call are mapped. -/
inductive Call.Maps (p : Proc) (m : Mach) : Call → Mach → Prop
  | mmio {dynamic : List Range} {phys len : UInt64} {m' : Mach}
      (h : map_mmio_pages p.pml4 p.mmio_next_va (page_floor phys)
        (List.range (Call.mmap_mmio dynamic phys len).pages.toNat) m
        = .ok () m') : Call.Maps p m (.mmap_mmio dynamic phys len) m'
  | anon {len : UInt64} {whole : Bool} {m' : Mach}
      (h : map_anon_pages p.pml4 p.mmio_next_va (List.range (Call.mmap_anon len).pages.toNat) m
        = .ok whole m') :
      Call.Maps p m (.mmap_anon len) m'

/-- A call fails at once, or moves the cursor and maps pages from its old place on. -/
theorem call_cases {c : Call} {p p' : Proc} {m m' : Mach} {va : UInt64}
    (h : c.run p m = .ok (va, p') m') :
    (c.accepted = false ∧ va = 0 ∧ p' = p ∧ m' = m)
      ∨ (c.accepted = true ∧ c.pages.toNat ≤ 16384
        ∧ p' = { p with mmio_next_va := p.mmio_next_va + c.pages * 4096 }
        ∧ c.Maps p m m') := by
  cases c with
  | mmap_mmio dynamic phys len =>
    unfold Call.run sys_mmap_mmio map_mmio_for_user at h
    unfold Call.accepted
    dsimp only at h ⊢
    split at h
    case isFalse hallowed =>
      obtain ⟨hva, rfl⟩ := EStateM.Result.ok.inj h
      refine .inl ⟨?_, (congrArg Prod.fst hva).symm, (congrArg Prod.snd hva).symm, rfl⟩
      rw [Bool.eq_false_iff.mpr hallowed, Bool.false_and]
    case isTrue hallowed =>
      split at h
      case isTrue hlen =>
        obtain ⟨hva, rfl⟩ := EStateM.Result.ok.inj h
        refine .inl ⟨?_, (congrArg Prod.fst hva).symm, (congrArg Prod.snd hva).symm, rfl⟩
        rw [decide_eq_true hlen, Bool.not_true, Bool.and_false]
      case isFalse hlen =>
        obtain ⟨_, m1, hmap, hrest⟩ := exists_of_bind_ok h
        obtain ⟨hva, rfl⟩ := EStateM.Result.ok.inj hrest
        refine .inr ⟨?_, pages_mmio_le dynamic phys hlen, (congrArg Prod.snd hva).symm, .mmio hmap⟩
        rw [hallowed, decide_eq_false hlen, Bool.not_false, Bool.and_true]
  | mmap_anon len =>
    unfold Call.run map_anon_for_user at h
    unfold Call.accepted
    dsimp only at h ⊢
    split at h
    case isTrue hlen =>
      obtain ⟨hva, rfl⟩ := EStateM.Result.ok.inj h
      refine .inl ⟨?_, (congrArg Prod.fst hva).symm, (congrArg Prod.snd hva).symm, rfl⟩
      rw [decide_eq_true hlen, Bool.not_true]
    case isFalse hlen =>
      obtain ⟨whole, m1, hmap, hrest⟩ := exists_of_bind_ok h
      obtain ⟨hva, rfl⟩ := EStateM.Result.ok.inj hrest
      refine .inr ⟨?_, pages_anon_le hlen, (congrArg Prod.snd hva).symm, .anon hmap⟩
      rw [decide_eq_false hlen, Bool.not_false]

/-! ## The cursor -/

/-- The cursor is at the start of a page, between where it began and a limit in the user half. -/
structure InArena (limit : ℕ) (va : UInt64) : Prop where
  user : limit ≤ 2 ^ 47
  low : USER_MMIO_BASE.toNat ≤ va.toNat
  high : va.toNat ≤ limit
  page : va.toNat % 4096 = 0

section

variable {limit : ℕ} {va pages : UInt64}

section

variable (h : InArena limit va) (hpages : pages.toNat ≤ 16384)

include h hpages

/-- The new cursor has not come round. -/
theorem InArena.toNat_add :
    (va + pages * 4096).toNat = va.toNat + pages.toNat * 4096 := by
  have huser := h.user
  have hhigh := h.high
  rw [UInt64.toNat_add, UInt64.toNat_mul, show (4096 : UInt64).toNat = 4096 from rfl]
  omega

theorem InArena.move (hroom : (va + pages * 4096).toNat ≤ limit) :
    InArena limit (va + pages * 4096) := by
  have heq := h.toNat_add hpages
  have hlow := h.low
  have hpage := h.page
  exact ⟨h.user, by omega, hroom, by omega⟩

theorem InArena.toNat_page (hroom : (va + pages * 4096).toNat ≤ limit) {i : ℕ}
    (hi : i < pages.toNat) :
    (va + UInt64.ofNat i * 4096).toNat = va.toNat + i * 4096
      ∧ va.toNat + i * 4096 + 4096 ≤ limit := by
  rw [h.toNat_add hpages] at hroom
  have huser := h.user
  refine ⟨?_, by omega⟩
  rw [UInt64.toNat_add, UInt64.toNat_mul, toNat_ofNat', show (4096 : UInt64).toNat = 4096 from rfl]
  omega

theorem InArena.i4_page (hroom : (va + pages * 4096).toNat ≤ limit) :
    ∀ i ∈ List.range pages.toNat, (i4 (va + UInt64.ofNat i * 4096)).val < 256 := by
  intro i hi
  have huser := h.user
  obtain ⟨heq, hle⟩ := h.toNat_page hpages hroom (mem_range.mp hi)
  exact i4_of_lt (by omega)

end

end

/-- A call that keeps the limit changes the entries of its own pages only. -/
theorem call_confined {K S : Set Frame} {mem0 : Ram} {cr3 : Frame} {limit : ℕ} {c : Call}
    {p p' : Proc} {m m' : Mach} {va : UInt64} (h : c.run p m = .ok (va, p') m')
    (harena : InArena limit p.mmio_next_va) (hroom : p'.mmio_next_va.toNat ≤ limit)
    (hS : c.accepted = true → c.span ⊆ S) (hconfined : Confined K S mem0 cr3 p.pml4 m) :
    p'.pml4 = p.pml4 ∧ Confined K S mem0 cr3 p.pml4 m'
      ∧ ((va = 0 ∧ p'.mmio_next_va = p.mmio_next_va)
        ∨ (c.pages.toNat ≤ 16384 ∧ p'.mmio_next_va = p.mmio_next_va + c.pages * 4096))
      ∧ ∃ ves, Remapped p.pml4 m ves m' ∧ ∀ ve ∈ ves, p.mmio_next_va.toNat ≤ ve.1.toNat
      ∧ ve.1.toNat < limit := by
  rcases call_cases h with ⟨-, rfl, rfl, rfl⟩ | ⟨haccepted, hpages, rfl, hmap⟩
  · exact ⟨rfl, hconfined, .inl ⟨rfl, rfl⟩, [], .refl, by simp⟩
  · have hvirt := harena.i4_page hpages hroom
    have hwithin : ∀ i ∈ List.range c.pages.toNat,
      p.mmio_next_va.toNat ≤ (p.mmio_next_va + UInt64.ofNat i * 4096).toNat
        ∧ (p.mmio_next_va + UInt64.ofNat i * 4096).toNat < limit := by
      intro i hi
      obtain ⟨heq, hle⟩ := harena.toNat_page hpages hroom (mem_range.mp hi)
      omega
    cases hmap with
    | mmio hmap =>
      have hframes := fun i hi => hS haccepted ⟨i, mem_range.mp hi, rfl⟩
      obtain ⟨hconfined', hmapped⟩ :=
        (confined_mmio_pages _ _ _ m hvirt hframes hconfined).of_ok hmap
      refine ⟨rfl, hconfined', .inr ⟨hpages, rfl⟩, _, hmapped, fun ve hve => ?_⟩
      obtain ⟨i, hi, rfl⟩ := mem_map.mp hve
      exact hwithin i hi
    | anon hmap =>
      obtain ⟨hconfined', ves, hmapped, hves⟩ :=
        (confined_anon_pages _ _ m hvirt hconfined).of_ok hmap
      refine ⟨rfl, hconfined', .inr ⟨hpages, rfl⟩, ves, hmapped, fun ve hve => ?_⟩
      obtain ⟨i, hi, heq⟩ := hves ve hve
      rw [heq]
      exact hwithin i hi

/-! ## The kernel half -/

/-- The kernel's PML4 and the tables of the kernel half. -/
def kernel_set (m : Mach) (cr3 : Frame) : Set Frame := insert cr3 (kernel_tables m.mem cr3)

/-- The kernel's tables are taken pages. -/
def KernelReady (m : Mach) (cr3 : Frame) : Prop := ∀ t ∈ kernel_set m cr3,
    is_used m.pmm t.val = true

section

variable {S : Set Frame} {cr3 pml4 : Frame} {m₀ m : Mach}

/-- The half that the process shares is the kernel's, and that is as it was. -/
theorem Holds.sameHalf (h : Holds (kernel_set m₀ cr3) m₀.mem cr3 pml4 m) :
    SameHalf m₀.mem cr3 m.mem pml4 ∧ SameHalf m₀.mem cr3 m.mem cr3 := by
  have hkept : ∀ t ∈ kernel_tables m₀.mem cr3, SameFrame m₀.mem m.mem t :=
    fun t ht => h.kept t (Set.mem_insert_of_mem _ ht)
  refine ⟨.of_kept h.high hkept, .of_kept (fun i _ => ?_) hkept⟩
  exact (h.kept cr3 (Set.mem_insert _ _)).entry i

theorem launch_confined (hready : KernelReady m₀ cr3) (hallocs : m₀.allocs = []) {data : List UInt8}
    (himage : UserImage data) :
    Post (launch cr3 data) m₀
      (fun p m => Confined (kernel_set m₀ cr3) S m₀.mem cr3 p.pml4 m
        ∧ p.mmio_next_va = USER_MMIO_BASE)
      (fun _ m => SameHalf m₀.mem cr3 m.mem cr3) := by
  refine Post.andThen (begun_create_user_pml4 cr3 m₀) ?_ ?_
  · rintro - m rfl
    exact .of_kept (fun _ _ => rfl) fun t _ => .refl _ _
  intro pml4 m1 hbegun
  have hconfined := hbegun.confined (S := S) (hready cr3 (Set.mem_insert _ _)) hready hallocs
  refine (hconfined.launch_rest himage).mono ?_ fun _ m h => h.toHolds.sameHalf.2
  rintro p m ⟨hpml4, h, hcursor⟩
  exact ⟨hpml4 ▸ h, hcursor⟩

end

/-! ## With enough memory -/

/-- What a call for one anonymous page does. -/
theorem anon_page_step {p : Proc} {m : Mach} (rs : List Region) (hfree : 4 ≤ free_pages m)
    (hva : p.mmio_next_va ≠ 0) :
    ∃ m', Session.Step ⟨p, m, rs⟩ (.mmap_anon 4096, p.mmio_next_va)
      ⟨{ p with mmio_next_va := p.mmio_next_va + 4096 }, m', ⟨p.mmio_next_va, 1⟩ :: rs⟩ := by
  obtain ⟨m', hmap, -⟩ := map_anon_pages_true p.pml4 p.mmio_next_va (List.range 1) m
    (by simpa using hfree)
  refine ⟨m', ?_, ?_⟩
  · show map_anon_for_user p 4096 m = _
    exact (bind_of_ok hmap).trans rfl
  · exact (if_neg hva).symm ▸ rfl

end HepOS.Process
