/-
The layout of a process's address space over any number of mapping calls.

Nothing compares the cursor of the mapping calls with the image below it and the stack above. So the
layout rests on two conditions. The segments of the image have to leave the arena between
`USER_MMIO_BASE` and `USER_STACK_BASE` alone (`ClearImage`), and the cursor has to stay below the
stack (`Room`).

Under these every region is new, and a call, whether it fails or not, changes the entries of its own
pages only.
-/
import HepOS.Process.Calls

set_option autoImplicit false

namespace HepOS.Process

open Hoare Phys Paging Trace

/-! ## The layout -/

/-- The address is in a region or on the stack. -/
def Session.InUse (s : Session) (a : ℕ) : Prop :=
  (∃ r ∈ s.regions, r.Has a) ∨ (USER_STACK_BASE.toNat ≤ a ∧ a < USER_STACK_TOP.toNat)

def Phdr.Has (ph : Phdr) (a : ℕ) : Prop := ph.p_vaddr.toNat ≤ a
    ∧ a < ph.p_vaddr.toNat + ph.p_memsz.toNat

structure Laid (data : List UInt8) (s : Session) : Prop where
  apart : s.regions.Pairwise fun r r' => ∀ a, r.Has a → ¬ r'.Has a
  image : ∀ r ∈ s.regions, ∀ i < e_phnum data, (header data i).Loads → ∀ a, r.Has a →
    ¬ (header data i).Has a
  stack : ∀ r ∈ s.regions, ∀ a, r.Has a → ¬ (USER_STACK_BASE.toNat ≤ a ∧ a < USER_STACK_TOP.toNat)
  low : ∀ r ∈ s.regions, ∀ a, r.Has a → a < 2 ^ 47

/-- The step leaves the translation of everything in use as it is. -/
def Untouched (s s' : Session) : Prop :=
  ∀ virt : UInt64, s.InUse virt.toNat → user_walk s'.m.mem s'.p.pml4 virt
    = user_walk s.m.mem s.p.pml4 virt

/-- The segments are below the arena, or above it in the user half. -/
def ClearImage (data : List UInt8) : Prop :=
  ∀ i < e_phnum data, (header data i).Loads →
    (header data i).EndsBelow USER_MMIO_BASE.toNat
      ∨ (USER_STACK_BASE.toNat ≤ (header data i).p_vaddr.toNat ∧ (header data i).EndsBelow (2 ^ 47))

/-- There is room for the call between the cursor and the stack. -/
def Room (s : Session) (a : Call × UInt64) (s' : Session) : Prop :=
  s.Step a s' ∧ s'.p.mmio_next_va ≤ USER_STACK_BASE

theorem ClearImage.userImage {data : List UInt8} (h : ClearImage data) : UserImage data := by
  intro i hi hloads
  rcases h i hi hloads with hbelow | ⟨-, hbelow⟩
  · exact Nat.le_trans hbelow (by decide)
  · exact hbelow

theorem stack_base_eq : USER_STACK_BASE.toNat = 2147446784 := rfl

/-- The tables of the process are in order. -/
def Tidy (pml4 : Frame) (m : Mach) : Prop := ∃ mem₀, Confined ∅ Set.univ mem₀ pml4 pml4 m

/-! ## Runs -/

/-- The regions are in order below the cursor. -/
structure Orderly (s : Session) : Prop where
  tidy : Tidy s.p.pml4 s.m
  arena : InArena USER_STACK_BASE.toNat s.p.mmio_next_va
  apart : s.regions.Pairwise fun r r' => ∀ a, r.Has a → ¬ r'.Has a
  within : ∀ r ∈ s.regions, ∀ a, r.Has a → USER_MMIO_BASE.toNat ≤ a ∧ a < s.p.mmio_next_va.toNat

section

variable {s s' : Session} {a : Call × UInt64}

theorem Orderly.step (h : Orderly s) (hstep : Room s a s') : Orderly s' := by
  obtain ⟨⟨hrun, hregions⟩, hroom⟩ := hstep
  obtain ⟨mem0, hconfined⟩ := h.tidy
  obtain ⟨hpml4, hconfined', hcursor, -⟩ :=
    call_confined hrun h.arena hroom (fun _ => Set.subset_univ _) hconfined
  have htidy : Tidy s'.p.pml4 s'.m := ⟨mem0, hpml4 ▸ hconfined'⟩
  rcases hcursor with ⟨hva, hsame⟩ | ⟨hpages, hmoved⟩
  · rw [if_pos hva] at hregions
    refine ⟨htidy, hsame ▸ h.arena, hregions ▸ h.apart, ?_⟩
    rw [hregions, hsame]
    exact h.within
  · have heq := h.arena.toNat_add hpages
    have harena : InArena USER_STACK_BASE.toNat s'.p.mmio_next_va :=
      hmoved ▸ h.arena.move hpages (hmoved ▸ hroom)
    have hwithin : ∀ r ∈ s.regions, ∀ b, r.Has b → USER_MMIO_BASE.toNat ≤ b
        ∧ b < s'.p.mmio_next_va.toNat := by
      intro r hr b hb
      have hold := h.within r hr b hb
      rw [hmoved, heq]
      exact ⟨hold.1, by omega⟩
    split_ifs at hregions with hva
    · exact ⟨htidy, harena, hregions ▸ h.apart, hregions ▸ hwithin⟩
    · refine ⟨htidy, harena, ?_, ?_⟩
      · -- what was handed out before ends below the old cursor, where the new region begins
        rw [hregions, List.pairwise_cons]
        refine ⟨fun r hr b hnew hold => ?_, h.apart⟩
        have hbelow := (h.within r hr b hold).2
        have habove := hnew.1
        dsimp only at habove
        omega
      · rw [hregions]
        intro r hr b hb
        rcases List.mem_cons.mp hr with rfl | hr
        · have hlow := h.arena.low
          obtain ⟨hfirst, hlast⟩ := hb
          dsimp only at hfirst hlast
          rw [hmoved, heq]
          omega
        · exact hwithin r hr b hb

/-- The regions are apart from the image and the stack. -/
theorem Orderly.laid (h : Orderly s) {data : List UInt8} (himage : ClearImage data) :
    Laid data s := by
  have hhigh := h.arena.high
  refine ⟨h.apart, fun r hr i hi hloads b hb hseg => ?_, fun r hr b hb hstack => ?_,
    fun r hr b hb => ?_⟩
  · have hwithin := h.within r hr b hb
    obtain ⟨hfirst, hlast⟩ := hseg
    rcases himage i hi hloads with hbelow | ⟨habove, -⟩
    · unfold Phdr.EndsBelow at hbelow
      omega
    · omega
  · have hwithin := h.within r hr b hb
    omega
  · have hwithin := h.within r hr b hb
    rw [stack_base_eq] at hhigh
    omega

/-- What is in use has other pages than the call. -/
theorem Orderly.untouched (h : Orderly s) (hstep : Room s a s') : Untouched s s' := by
  obtain ⟨⟨hrun, -⟩, hroom⟩ := hstep
  obtain ⟨mem0, hbefore⟩ := h.tidy
  obtain ⟨hpml4, hafter, -, ves, hmapped, hves⟩ :=
    call_confined hrun h.arena hroom (fun _ => Set.subset_univ _) hbefore
  have hhigh := h.arena.high
  have hpage := h.arena.page
  rw [stack_base_eq] at hhigh hves
  intro virt hvirt
  have hplace : virt.toNat < s.p.mmio_next_va.toNat
      ∨ (2147446784 ≤ virt.toNat ∧ virt.toNat < 2147479552) := by
    rcases hvirt with ⟨r, hr, hhas⟩ | hstack
    · exact .inl (h.within r hr _ hhas).2
    · exact .inr hstack
  have huser : (i4 virt).val < 256 := i4_of_lt (by omega)
  have hsame : page_entry s'.m s.p.pml4 virt = page_entry s.m s.p.pml4 virt := by
    rcases hmapped.entries virt huser with ⟨ve, hve, hvpn, -⟩ | ⟨-, hsame⟩
    · have hin := hves ve hve
      unfold vpn at hvpn
      omega
    · exact hsame
  rw [hpml4, hafter.space.user_walk_eq huser, hbefore.space.user_walk_eq huser]
  unfold page_entry at hsame
  rw [hsame]

end

/-- The start: nothing has been handed out. -/
theorem orderly_launch {cr3 : Frame} {data : List UInt8} {m0 m : Mach} {p : Proc}
    (hallocs : m0.allocs = []) (himage : UserImage data) (h : launch cr3 data m0 = .ok p m) :
    Orderly ⟨p, m, []⟩ := by
  obtain ⟨pml4, m1, hcreate, hrest⟩ := exists_of_bind_ok h
  have hbegun := (begun_create_user_pml4 cr3 m0).of_ok hcreate
  obtain ⟨hpml4, hconfined, hcursor⟩ :=
    ((hbegun.confined_alone hallocs).launch_rest himage).of_ok hrest
  refine ⟨⟨m1.mem, by rwa [hpml4]⟩, ?_, List.Pairwise.nil, by simp⟩
  rw [hcursor]
  exact ⟨by decide, le_rfl, by decide, by decide⟩

/-- **The layout.** As long as the image leaves the arena alone and every call finds room in it, the
regions are apart from each other, from the image and from the stack, and a call leaves what is in
use where it is. -/
theorem laid_of_room {cr3 : Frame} {data : List UInt8} {m₀ m : Mach} {p : Proc}
    (hallocs : m₀.allocs = []) (hlaunch : launch cr3 data m₀ = .ok p m) (himage : ClearImage data)
    {l : List (Call × UInt64)} {s : Session} (hrun : Steps Room ⟨p, m, []⟩ l s) :
    Laid data s ∧ ∀ a s', Room s a s' → Untouched s s' := by
  have horderly : Orderly s :=
    hrun.keeps (orderly_launch hallocs himage.userImage hlaunch) fun _ _ _ h hstep => h.step hstep
  exact ⟨horderly.laid himage, fun a s' hstep => horderly.untouched hstep⟩

/-! ## Two images -/

/-- A launch with enough memory, and a call for one page. -/
theorem launch_then_anon {vaddr : UInt64} (hsingle : Single (image_at vaddr) (segment_at vaddr)) :
    ∃ p m m', launch 0 (image_at vaddr) booted = .ok p m
      ∧ Session.Step ⟨p, m, []⟩ (.mmap_anon 4096, USER_MMIO_BASE)
      ⟨{ p with mmio_next_va := USER_MMIO_BASE + 4096 }, m', [⟨USER_MMIO_BASE, 1⟩]⟩ := by
  have hfree := free_pages_booted
  obtain ⟨p, f, m, hlaunch, -, hcursor, hleft⟩ :=
    hsingle.launch_run 0 (show 37 ≤ free_pages booted by omega)
  obtain ⟨m', hstep⟩ := anon_page_step (m := m) [] (by omega) (by rw [hcursor]; decide)
  rw [hcursor] at hstep
  exact ⟨p, m, m', hlaunch, hstep⟩

/-- A segment at `USER_MMIO_BASE` is mapped over by the first call. -/
theorem image_in_arena_overlaps :
    ∃ p m s, launch 0 (image_at 0x60000000) booted = .ok p m
      ∧ Session.Step ⟨p, m, []⟩ (.mmap_anon 4096, 0x60000000) s
      ∧ ¬ Laid (image_at 0x60000000) s := by
  have hsingle : Single (image_at 0x60000000) (segment_at 0x60000000) := by decide +kernel
  obtain ⟨p, m, m', hlaunch, hstep⟩ := launch_then_anon hsingle
  refine ⟨p, m, _, hlaunch, hstep, fun hlaid => ?_⟩
  have hfirst := hlaid.image ⟨USER_MMIO_BASE, 1⟩ List.mem_cons_self 0 (by decide +kernel)
    (by unfold Phdr.Loads; decide +kernel) 0x60000000 ⟨by decide, by decide⟩
  exact hfirst (by unfold Phdr.Has; decide +kernel)

theorem laid_of_room_usual :
    ∃ p m s, launch 0 (image_at 0x400000) booted = .ok p m
      ∧ Room ⟨p, m, []⟩ (.mmap_anon 4096, 0x60000000) s
      ∧ Laid (image_at 0x400000) s := by
  have hsingle : Single (image_at 0x400000) (segment_at 0x400000) := by decide +kernel
  obtain ⟨p, m, m', hlaunch, hstep⟩ := launch_then_anon hsingle
  have himage : ClearImage (image_at 0x400000) := by
    intro i hi _
    obtain rfl : i = 0 := Nat.lt_one_iff.mp (Nat.lt_of_lt_of_eq hi (by decide +kernel))
    exact .inl (by unfold Phdr.EndsBelow; decide +kernel)
  have hbelow : USER_MMIO_BASE + 4096 ≤ USER_STACK_BASE := by decide
  have hroom : Room ⟨p, m, []⟩ (.mmap_anon 4096, 0x60000000) _ := ⟨hstep, hbelow⟩
  exact ⟨p, m, _, hlaunch, hroom, (laid_of_room rfl hlaunch himage (.one hroom)).1⟩

/-! ## What ring 3 finds -/

/-- A page of the user half gets an entry, by `map_page_into` or `map_page_current_user`. -/
def Mapped (pml4 : Frame) (m : Mach) (ve : UInt64 × UInt64) (m' : Mach) : Prop :=
  (i4 ve.1).val < 256 ∧ map_leaf m pml4 ve.1 ve.2 = some m'

/-- **The tables are a map.** After any mappings they are still a tree, and ring 3 finds at an
address the frame of the last entry its page got, if that lets it pass; a page without one is as
before. -/
theorem user_walk_of_mapped {pml4 : Frame} {m m' : Mach} (h : Space m pml4)
    {ves : List (UInt64 × UInt64)} (hrun : Steps (Mapped pml4) m ves m') :
    Space m' pml4 ∧ ∀ v, (i4 v).val < 256 →
      user_walk m'.mem pml4 v = match ves.reverse.find? fun ve => vpn v = vpn ve.1 with
        | some ve => if user_ok ve.2 then some ((frame ve.2).val * 4096 + v.toNat % 4096) else none
        | none => user_walk m.mem pml4 v := by
  induction hrun with
  | done m => exact ⟨h, fun v _ => rfl⟩
  | @next m _ _ ve _ hmap _ ih =>
    have hmaps := h.map_leaf hmap.1 hmap.2
    obtain ⟨hspace, hwalk⟩ := ih hmaps.space
    refine ⟨hspace, fun v hv => ?_⟩
    rw [hwalk v hv, List.reverse_cons, List.find?_append]
    -- a later entry of the page hides this
    cases List.find? _ _ with
    | some _ => rfl
    | none =>
      rw [hmaps.space.user_walk_eq hv, hmaps.value _ (path_user hv) rfl, h.user_walk_eq hv,
        Option.none_or, List.find?_singleton]
      by_cases hpage : vpn v = vpn ve.1
      · rw [if_pos (path_inj.mpr hpage), leaf_bind, if_pos (decide_eq_true hpage)]
      · rw [if_neg (mt path_inj.mp hpage), if_neg (by simpa using hpage)]

theorem user_walk_of_mapped_page : ∃ pml4 m m', Space m pml4
    ∧ Steps (Mapped pml4) m [(0x400000, 0x200007)] m'
    ∧ user_walk m'.mem pml4 0x400008 = some 0x200008 := by
  have hfree := free_pages_booted
  obtain ⟨pml4, m, hcreate, hle⟩ := (costs_create_user_pml4 0).run booted (by omega)
  obtain ⟨_, m', hmap, -⟩ := (costs_map pml4 0x400000 0x200007).run m (by omega)
  have hspace := ((begun_create_user_pml4 0 booted).of_ok hcreate).space
  unfold map mapping at hmap
  split at hmap
  case h_1 _ hleaf =>
    cases hmap
    have hrun : Steps (Mapped pml4) m [(0x400000, 0x200007)] m' := .one ⟨by decide, hleaf⟩
    exact ⟨pml4, m, m', hspace, hrun, (user_walk_of_mapped hspace hrun).2 _ (by decide)⟩
  case h_2 => cases hmap

end HepOS.Process
