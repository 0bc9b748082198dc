/-
What a call of `SYS_MMAP_MMIO` gives a process access to.

`mmio_allowed` looks at bytes: the range that is asked for has to lie in one that is allowed or
granted. `map_mmio_for_user` maps whole pages: it rounds the start down and the end up. So a range
that does not begin and end with a page is surrounded by bytes that nobody granted; the AHCI driver
grants 0x1100 bytes.

`mmio_confined_iff` says of every call when it is confined. The call adds its own pages and nothing
else, which needs the tables of the process in order and the kernel's out of reach, as `Confined`
has it.
-/
import HepOS.Process.Calls

set_option autoImplicit false

namespace HepOS.Process

open Hoare Phys Paging Trace List

/-! ## Access -/

/-- The physical byte can be reached from ring 3. -/
def Accessible (s : Session) (a : ℕ) : Prop := ∃ virt, Canonical virt
    ∧ user_walk s.m.mem s.p.pml4 virt = some a

/-- The byte is in an allowed or granted range. -/
def Granted (dynamic : List Range) (a : ℕ) : Prop := ∃ r ∈ ALLOWED_MMIO ++ dynamic, r.1.toNat ≤ a
    ∧ a < r.2.toNat

/-- Every byte that the step makes accessible is in such a range. -/
def StaysConfined (dynamic : List Range) (s s' : Session) : Prop :=
  ∀ a, Accessible s' a → ¬ Accessible s a → Granted dynamic a

/-- The byte is in one of the pages that the call is about. -/
def InSpan (c : Call) (a : ℕ) : Prop := ∃ f ∈ c.span, a / 4096 = f.val

/-- The cursor stays in the user half. -/
def Below (s : Session) (a : Call × UInt64) (s' : Session) : Prop :=
  s.Step a s' ∧ s'.p.mmio_next_va.toNat ≤ 2 ^ 47

/-! ## The pages of the call -/

theorem mmio_entry_ok (phys_base : UInt64) (i : ℕ) :
    user_ok (mmio_entry phys_base i) = true ∧ leaf (mmio_entry phys_base i)
        = some (mmio_entry phys_base i) := by
  have hbits : (mmio_entry phys_base i).toNat.testBit 0 = true
      ∧ (mmio_entry phys_base i).toNat.testBit 2 = true := by
    unfold mmio_entry
    simp only [UInt64.toNat_or, Nat.testBit_or]
    constructor
    · rw [show PRESENT.toNat.testBit 0 = true from rfl, Bool.or_true, Bool.true_or]
    · rw [show USER.toNat.testBit 2 = true from rfl, Bool.or_true]
  refine ⟨by rw [user_ok_eq, hbits.1, hbits.2]; rfl, ?_⟩
  unfold leaf
  rw [if_pos ((present_iff _).mpr hbits.1)]

section

variable {limit : ℕ} {va pages : UInt64}

theorem InArena.page_inj (h : InArena limit va) (hpages : pages.toNat ≤ 16384)
    (hroom : (va + pages * 4096).toNat ≤ limit) {i j : ℕ} (hi : i < pages.toNat)
    (hj : j < pages.toNat)
    (heq : vpn (va + UInt64.ofNat i * 4096) = vpn (va + UInt64.ofNat j * 4096)) : i = j := by
  obtain ⟨hvi, hli⟩ := h.toNat_page hpages hroom hi
  obtain ⟨hvj, hlj⟩ := h.toNat_page hpages hroom hj
  unfold vpn at heq
  omega

end

section

variable {K S : Set Frame} {mem₀ : Ram} {cr3 pml4 : Frame} {m : Mach}

/-- What the walk gives in terms of the entry. -/
theorem Confined.user_walk_of_entry (h : Confined K S mem₀ cr3 pml4 m) {virt e : UInt64}
    (hvirt : (i4 virt).val < 256) (he : page_entry m pml4 virt = some e) (hok : user_ok e = true) :
    user_walk m.mem pml4 virt = some ((frame e).val * 4096 + virt.toNat % 4096) := by
  rw [h.space.user_walk_eq hvirt]
  unfold page_entry at he
  rw [he, Option.bind_some, if_pos hok]

end

/-! ## One call -/

/-- What a call that is accepted does to the entries. -/
structure MapsSpan (s : Session) (dynamic : List Range) (phys len : UInt64)
    (s' : Session) : Prop where
  pml4 : s'.p.pml4 = s.p.pml4
  pages : (Call.mmap_mmio dynamic phys len).pages.toNat ≤ 16384
  room : (s.p.mmio_next_va + (Call.mmap_mmio dynamic phys len).pages * 4096).toNat ≤ 2 ^ 47
  entries : Remapped s.p.pml4 s.m
      ((List.range (Call.mmap_mmio dynamic phys len).pages.toNat).map fun i =>
    (s.p.mmio_next_va + UInt64.ofNat i * 4096, mmio_entry (page_floor phys) i)) s'.m

/-- The invariant of a session: the tables are in order and the kernel half is the kernel's. -/
structure Guarded (m₀ : Mach) (cr3 : Frame) (s : Session) : Prop where
  confined : Confined (kernel_set m₀ cr3) Set.univ m₀.mem cr3 s.p.pml4 s.m
  arena : InArena (2 ^ 47) s.p.mmio_next_va

section

variable {m₀ : Mach} {cr3 : Frame} {s s' : Session} {dynamic : List Range} {phys len : UInt64}

theorem Guarded.step (h : Guarded m₀ cr3 s) {a : Call × UInt64} (hstep : Below s a s') :
    Guarded m₀ cr3 s' := by
  obtain ⟨⟨hrun, -⟩, hroom⟩ := hstep
  obtain ⟨hpml4, hconfined, hcursor, -⟩ :=
    call_confined hrun h.arena hroom (fun _ => Set.subset_univ _) h.confined
  refine ⟨hpml4 ▸ hconfined, ?_⟩
  rcases hcursor with ⟨-, hsame⟩ | ⟨hpages, hmoved⟩
  · exact hsame ▸ h.arena
  · exact hmoved ▸ h.arena.move hpages (hmoved ▸ hroom)

theorem Guarded.mmio_cases (h : Guarded m₀ cr3 s) {va : UInt64}
    (hstep : Below s (.mmap_mmio dynamic phys len, va) s') :
    ((Call.mmap_mmio dynamic phys len).accepted = false ∧ s'.p = s.p ∧ s'.m = s.m)
      ∨ ((Call.mmap_mmio dynamic phys len).accepted = true ∧ MapsSpan s dynamic phys len s') := by
  obtain ⟨⟨hrun, -⟩, hroom⟩ := hstep
  rcases call_cases hrun with ⟨haccepted, -, hp, hm⟩ | ⟨haccepted, hpages, hp, hmap⟩
  · exact .inl ⟨haccepted, hp, hm⟩
  · have hend : (s.p.mmio_next_va + (Call.mmap_mmio dynamic phys len).pages * 4096).toNat
        ≤ 2 ^ 47 := by
      rw [hp] at hroom
      exact hroom
    cases hmap with
    | mmio hmap =>
      have hpost := confined_mmio_pages s.p.mmio_next_va (page_floor phys) _ s.m
        (h.arena.i4_page hpages hend)
        (fun _ _ => Set.mem_univ _) h.confined
      exact .inr ⟨haccepted, by rw [hp], hpages, hend, (hpost.of_ok hmap).2⟩

/-- In the kernel half nothing changes. -/
theorem Guarded.user_walk_high (h : Guarded m₀ cr3 s) (h' : Guarded m₀ cr3 s') {virt : UInt64}
    (hvirt : 256 ≤ (i4 virt).val) :
    user_walk s'.m.mem s'.p.pml4 virt = user_walk s.m.mem s.p.pml4 virt := by
  rw [h'.confined.toHolds.sameHalf.1.walks virt hvirt,
    h.confined.toHolds.sameHalf.1.walks virt hvirt]

section

variable (hspan : MapsSpan s dynamic phys len s') (h : Guarded m₀ cr3 s) (h' : Guarded m₀ cr3 s')

include hspan h h'

/-- What becomes accessible is in the span. -/
theorem MapsSpan.gained
    {a : ℕ} (hafter : Accessible s' a) : Accessible s a
      ∨ InSpan (.mmap_mmio dynamic phys len) a := by
  obtain ⟨virt, hcanonical, hwalk⟩ := hafter
  by_cases hvirt : (i4 virt).val < 256
  · rw [hspan.pml4] at hwalk
    have hconfined := h'.confined
    rw [hspan.pml4] at hconfined
    rcases hspan.entries.entries virt hvirt with ⟨ve, hve, -, hentry⟩ | ⟨-, hsame⟩
    · obtain ⟨i, hi, rfl⟩ := mem_map.mp hve
      obtain ⟨hok, hleaf⟩ := mmio_entry_ok (page_floor phys) i
      rw [hconfined.user_walk_of_entry hvirt (hentry.trans hleaf) hok] at hwalk
      have ha := Option.some.inj hwalk
      refine .inr ⟨frame (mmio_entry (page_floor phys) i), ⟨i, mem_range.mp hi, rfl⟩, ?_⟩
      omega
    · refine .inl ⟨virt, hcanonical, ?_⟩
      rw [← hwalk, h.confined.space.user_walk_eq hvirt, hconfined.space.user_walk_eq hvirt]
      unfold page_entry at hsame
      rw [hsame]
  · exact .inl ⟨virt, hcanonical, by rw [← hwalk, h.user_walk_high h' (by omega)]⟩

/-- Every byte of the span is accessible afterwards. -/
theorem MapsSpan.accessible {a : ℕ} (ha : InSpan (.mmap_mmio dynamic phys len) a) :
    Accessible s' a := by
  obtain ⟨f, ⟨i, hi, rfl⟩, hframe⟩ := ha
  obtain ⟨hok, hleaf⟩ := mmio_entry_ok (page_floor phys) i
  obtain ⟨hpage, hle⟩ := h.arena.toNat_page hspan.pages hspan.room hi
  -- the address of the byte in the page `i` of the region
  have hvirt : (s.p.mmio_next_va + UInt64.ofNat i * 4096 + UInt64.ofNat (a % 4096)).toNat
      = s.p.mmio_next_va.toNat + i * 4096 + a % 4096 := by
    rw [UInt64.toNat_add, hpage, UInt64.toNat_ofNat']
    omega
  have haligned := h.arena.page
  have hsame : vpn (s.p.mmio_next_va + UInt64.ofNat i * 4096 + UInt64.ofNat (a % 4096))
      = vpn (s.p.mmio_next_va + UInt64.ofNat i * 4096) := by
    unfold vpn
    omega
  generalize s.p.mmio_next_va + UInt64.ofNat i * 4096 + UInt64.ofNat (a % 4096)
    = virt at hvirt hsame
  have hlow : virt.toNat < 2 ^ 47 := by omega
  have hentry : page_entry s'.m s.p.pml4 virt = some (mmio_entry (page_floor phys) i) := by
    rcases hspan.entries.entries virt (i4_of_lt hlow) with ⟨ve, hve, hpage', hentry⟩ | ⟨hother, -⟩
    · obtain ⟨j, hj, rfl⟩ := mem_map.mp hve
      obtain rfl := h.arena.page_inj hspan.pages hspan.room hi (mem_range.mp hj)
        (hsame.symm.trans hpage')
      exact hentry.trans hleaf
    · exact absurd hsame (hother _ (mem_map.mpr ⟨i, mem_range.mpr hi, rfl⟩))
  have hconfined := h'.confined
  rw [hspan.pml4] at hconfined
  refine ⟨virt, .inl hlow, ?_⟩
  rw [hspan.pml4, hconfined.user_walk_of_entry (i4_of_lt hlow) hentry hok, hvirt, ← hframe]
  congr 1
  omega

end

/-- The call is confined just if its pages are granted, or were accessible anyway. -/
theorem Guarded.stays_confined_iff (h : Guarded m₀ cr3 s) {va : UInt64}
    (hstep : Below s (.mmap_mmio dynamic phys len, va) s') :
    StaysConfined dynamic s s' ↔ ((Call.mmap_mmio dynamic phys len).accepted = true →
      ∀ a, InSpan (.mmap_mmio dynamic phys len) a → Granted dynamic a ∨ Accessible s a) := by
  have h' := h.step hstep
  rcases h.mmio_cases hstep with ⟨haccepted, hp, hm⟩ | ⟨haccepted, hspan⟩
  · -- refused: nothing has changed
    constructor
    · intro _ hyes
      rw [haccepted] at hyes
      exact absurd hyes Bool.false_ne_true
    · intro _ a hafter hbefore
      unfold Accessible at hafter hbefore
      rw [hp, hm] at hafter
      exact absurd hafter hbefore
  · constructor
    · intro hconfined _ a ha
      by_cases hbefore : Accessible s a
      · exact .inr hbefore
      · exact .inl (hconfined a (hspan.accessible h h' ha) hbefore)
    · intro hpages a hafter hbefore
      rcases hspan.gained h h' hafter with hold | ha
      · exact absurd hold hbefore
      · exact (hpages haccepted a ha).resolve_right hbefore

end

theorem guarded_launch {cr3 : Frame} {data : List UInt8} {m₀ m : Mach} {p : Proc}
    (hallocs : m₀.allocs = []) (hready : KernelReady m₀ cr3) (himage : UserImage data)
    (h : launch cr3 data m₀ = .ok p m) :
    Guarded m₀ cr3 ⟨p, m, []⟩ := by
  obtain ⟨hconfined, hcursor⟩ := (launch_confined hready hallocs himage).of_ok h
  refine ⟨hconfined, ?_⟩
  rw [hcursor]
  exact ⟨by decide, by decide, by decide, by decide⟩

/-- **MMIO.** In every state that mapping calls lead to from a launch, a call is confined just if it
is refused or every byte of its pages is granted or was accessible before. -/
theorem mmio_confined_iff {cr3 : Frame} {data : List UInt8} {m₀ m : Mach} {p : Proc}
    (hallocs : m₀.allocs = []) (hready : KernelReady m₀ cr3) (himage : UserImage data)
    (hlaunch : launch cr3 data m₀ = .ok p m) {l : List (Call × UInt64)} {s s' : Session}
    (hrun : Steps Below ⟨p, m, []⟩ l s) {dynamic : List Range} {phys len va : UInt64}
    (hstep : Below s (.mmap_mmio dynamic phys len, va) s') :
    StaysConfined dynamic s s' ↔ ((Call.mmap_mmio dynamic phys len).accepted = true →
      ∀ a, InSpan (.mmap_mmio dynamic phys len) a → Granted dynamic a ∨ Accessible s a) := by
  have hguarded : Guarded m₀ cr3 s :=
    hrun.keeps (guarded_launch hallocs hready himage hlaunch) fun _ _ _ h hnext => h.step hnext
  exact hguarded.stays_confined_iff hstep

/-! ## A grant that ends in the middle of a page -/

theorem entry_booted (t : Frame) (i : Fin 512) : Paging.entry booted.mem t i = 0 := by
  unfold Paging.entry booted
  rw [Bytes.Mem.read_zero, Bytes.leNat_replicate_zero]
  rfl

theorem kernelReady_booted : KernelReady booted 0 := by
  have htop : top_tables booted.mem 0 = ∅ := by
    ext t
    refine ⟨?_, fun ht => absurd ht id⟩
    rintro ⟨i, -, hi⟩
    rw [entry_booted, child_zero] at hi
    simp at hi
  intro t ht
  rcases ht with rfl | ht
  · exact is_used_booted 0
  · unfold kernel_tables at ht
    rw [htop] at ht
    rcases ht with ht | ⟨t', ht', -⟩ | ⟨t', ⟨t'', ht'', -⟩, -⟩
    · exact absurd ht id
    · exact absurd ht' id
    · exact absurd ht'' id

/-- After a launch the process reaches memory only. -/
theorem launch_reaches_memory {data : List UInt8} (himage : UserImage data) {m : Mach} {p : Proc}
    (h : launch 0 data booted = .ok p m) {a : ℕ} (ha : Accessible ⟨p, m, []⟩ a) :
    a / 4096 < MAX_PAGES := by
  obtain ⟨hconfined, -⟩ := (launch_confined (S := ∅) kernelReady_booted rfl himage).of_ok h
  obtain ⟨virt, -, hwalk⟩ := ha
  by_cases hvirt : (i4 virt).val < 256
  · rw [hconfined.space.user_walk_eq hvirt] at hwalk
    obtain ⟨e, he, hat⟩ := Option.bind_eq_some_iff.mp hwalk
    split_ifs at hat with hok
    have heq := Option.some.inj hat
    rcases hconfined.leaves virt e hvirt he with ⟨u, hf, hu⟩ | hno
    · have hlt := (hconfined.data u _ hf hu).1
      omega
    · exact absurd hno id
  · -- the upper slots are empty
    have hslot := hconfined.high (i4 virt) (by omega)
    rw [entry_booted] at hslot
    unfold user_walk at hwalk
    dsimp only at hwalk
    rw [hslot, user_ok_zero, if_neg Bool.false_ne_true] at hwalk
    simp at hwalk

theorem userImage_single {vaddr : UInt64} (hphnum : e_phnum (image_at vaddr) = 1)
    (hends : (header (image_at vaddr) 0).EndsBelow (2 ^ 47)) : UserImage (image_at vaddr) := by
  intro i hi _
  obtain rfl : i = 0 := by omega
  exact hends

theorem userImage_usual : UserImage (image_at 0x400000) :=
  userImage_single (by decide +kernel) (by unfold Phdr.EndsBelow; decide +kernel)

/-- `ahci.rs` grants 0x1100 bytes, and the process maps them. -/
theorem launch_then_ahci : ∃ p m s', launch 0 (image_at 0x400000) booted = .ok p m
      ∧ Below ⟨p, m, []⟩ (.mmap_mmio (grant_mmio_range [] 0xE0000000 0x1100) 0xE0000000 0x1100,
        0x60000000) s' := by
  have hsingle : Single (image_at 0x400000) (segment_at 0x400000) := by decide +kernel
  have hfree := free_pages_booted
  obtain ⟨p, f, m, hlaunch, -, hcursor, hleft⟩ :=
    hsingle.launch_run 0 (show 37 ≤ free_pages booted by omega)
  obtain ⟨_, m', hmap, -⟩ :=
    (costs_map_mmio_pages p.pml4 USER_MMIO_BASE 0xE0000000 (List.range 2)).run m
    (by rw [length_range]; omega)
  have hbelow : (USER_MMIO_BASE + 0x2000).toNat ≤ 2 ^ 47 := by decide
  refine ⟨p, m, ⟨{ p with mmio_next_va := USER_MMIO_BASE + 0x2000 }, m', _⟩, hlaunch,
    ⟨?_, rfl⟩, hbelow⟩
  show sys_mmap_mmio _ p 0xE0000000 0x1100 m = _
  unfold sys_mmap_mmio map_mmio_for_user
  rw [if_pos (by decide +kernel), if_neg (by decide), hcursor]
  exact (bind_of_ok hmap).trans rfl

/-- The rest of the second page comes with them. -/
theorem grant_in_page_leaks : ∃ p m s', launch 0 (image_at 0x400000) booted = .ok p m
      ∧ Below ⟨p, m, []⟩ (.mmap_mmio (grant_mmio_range [] 0xE0000000 0x1100) 0xE0000000 0x1100,
        0x60000000) s'
      ∧ ¬ StaysConfined (grant_mmio_range [] 0xE0000000 0x1100) ⟨p, m, []⟩ s' := by
  obtain ⟨p, m, s', hlaunch, hstep⟩ := launch_then_ahci
  refine ⟨p, m, s', hlaunch, hstep, ?_⟩
  rw [(guarded_launch rfl kernelReady_booted userImage_usual hlaunch).stays_confined_iff hstep]
  intro hpages
  have hspan : InSpan (.mmap_mmio (grant_mmio_range [] 0xE0000000 0x1100) 0xE0000000 0x1100)
      0xE0001FFF :=
    ⟨frame (mmio_entry (page_floor 0xE0000000) 1), ⟨1, by decide +kernel, rfl⟩, by decide +kernel⟩
  rcases hpages (by decide +kernel) 0xE0001FFF hspan with ⟨r, hr, hlow, hhigh⟩ | hbefore
  · have hranges : ALLOWED_MMIO ++ grant_mmio_range [] 0xE0000000 0x1100
        = [(0xFEE00000, 0xFEE01000), (0xE0000000, 0xE0001100)] := by decide +kernel
    rcases mem_cons.mp hr with rfl | hr
    · exact absurd hlow (by decide)
    · rw [mem_singleton.mp hr] at hhigh
      exact absurd hhigh (by decide)
  · have hlt := launch_reaches_memory userImage_usual hlaunch hbefore
    unfold MAX_PAGES at hlt
    omega

theorem mmio_confined_iff_ahci : ∃ p m s', launch 0 (image_at 0x400000) booted = .ok p m
      ∧ (StaysConfined (grant_mmio_range [] 0xE0000000 0x1100) ⟨p, m, []⟩ s' ↔
        ((Call.mmap_mmio (grant_mmio_range [] 0xE0000000 0x1100) 0xE0000000 0x1100).accepted
          = true →
          ∀ a, InSpan (.mmap_mmio (grant_mmio_range [] 0xE0000000 0x1100) 0xE0000000 0x1100) a →
            Granted (grant_mmio_range [] 0xE0000000 0x1100) a ∨ Accessible ⟨p, m, []⟩ a)) := by
  obtain ⟨p, m, s', hlaunch, hstep⟩ := launch_then_ahci
  exact ⟨p, m, s', hlaunch, mmio_confined_iff rfl kernelReady_booted userImage_usual hlaunch
    (.done _) hstep⟩

end HepOS.Process
