/-
The user half of an address space.

The tables below the first 256 slots of a PML4 belong to one process. They form a tree: each of them
was made by `get_or_make_user` from a page that nobody had. So mapping a page changes the
translation of that page and of no other (`map_leaf_spec`), and of memory it writes the tables of
the process and new pages only (`Grows`).

In such a half the middle entries let ring 3 pass and are no large pages, and the walk of the
processor is the one of the kernel (`user_walk_eq`).
-/
import HepOS.Paging.Tables

set_option autoImplicit false

namespace HepOS.Paging

open Bytes Phys Radix Function List Option

variable {p : List (Fin 512)} {i : Fin 512} {virt : UInt64} {t : Frame}

/-! ## Paths -/

/-- The paths to tables of the user half. -/
def UserPath : Set (List (Fin 512)) := {p | p.length ≤ 3 ∧ ∀ i ∈ p.head?, i.val < 256}

theorem userPath_closed : PrefixClosed UserPath := by
  rintro p q ⟨r, rfl⟩ ⟨hlen, hhead⟩
  refine ⟨by rw [length_append] at hlen; omega, fun i hi => hhead i ?_⟩
  cases p with
  | nil => simp at hi
  | cons j p => exact hi

theorem userPath_nil : [] ∈ UserPath := ⟨Nat.zero_le _, by simp⟩

theorem userPath_snoc (hp : p ∈ UserPath) (hlen : p.length < 3)
    (hi : p = [] → i.val < 256) : p ++ [i] ∈ UserPath := by
  refine ⟨by rw [length_append]; exact hlen, fun j hj => ?_⟩
  cases p with
  | nil =>
    obtain rfl : i = j := by simpa using hj
    exact hi rfl
  | cons k p => exact hp.2 j hj

/-- The path to the table that has the entry of a page. -/
def path (virt : UInt64) : List (Fin 512) := [i4 virt, i3 virt, i2 virt]

theorem path_user (h : (i4 virt).val < 256) : path virt ∈ UserPath := by
  refine ⟨le_rfl, fun i hi => ?_⟩
  obtain rfl : i4 virt = i := by simpa [path] using hi
  exact h

/-- The number of the virtual page, as the tables see it. -/
def vpn (virt : UInt64) : ℕ := virt.toNat / 4096 % 2 ^ 36

/-- The indices are the digits of the page number. -/
theorem path_inj {v w : UInt64} : (path v = path w ∧ i1 v = i1 w) ↔ vpn v = vpn w := by
  have hdigit : ∀ (u : UInt64) (k : ℕ), (index u k).val = u.toNat / 2 ^ k % 512 := fun _ _ => rfl
  have hsame : ∀ k, index v k = index w k ↔ v.toNat / 2 ^ k % 512 = w.toNat / 2 ^ k % 512 := by
    intro k
    rw [Fin.ext_iff, hdigit, hdigit]
  unfold path vpn i4 i3 i2 i1
  simp only [List.cons.injEq, hsame, and_true]
  omega

theorem i4_lt_iff (virt : UInt64) : (i4 virt).val < 256 ↔ vpn virt < 2 ^ 35 := by
  show virt.toNat / 2 ^ 39 % 512 < 256 ↔ virt.toNat / 4096 % 2 ^ 36 < 2 ^ 35
  omega

/-! ## Well-formed user halves -/

/-- A table of the process. -/
def IsTable (m : Mach) (pml4 g : Frame) : Prop :=
  ∃ p ∈ UserPath, follow child (entry m.mem) pml4 p = some g

/-- The entry of a page, if it is mapped. -/
def translate (m : Mach) (pml4 : Frame) (p : List (Fin 512)) (i : Fin 512) : Option UInt64 :=
  value child leaf (entry m.mem) pml4 p i

structure Space (m : Mach) (pml4 : Frame) : Prop where
  tree : Tree child (entry m.mem) pml4 UserPath
  used : ∀ g, IsTable m pml4 g → g.val < MAX_PAGES ∧ is_used m.pmm g.val = true
  links : ∀ p ∈ UserPath, p.length < 3 → ∀ t, follow child (entry m.mem) pml4 p = some t →
    ∀ i : Fin 512, (p = [] → i.val < 256) → entry m.mem t i = 0 ∨ ∃ f, entry m.mem t i = link f

/-- What a mapping does besides: it takes pages for tables, and writes tables of the process and new
pages only. -/
structure Grows (pml4 : Frame) (m m' : Mach) : Prop where
  used : ∀ q, is_used m.pmm q = true → is_used m'.pmm q = true
  kept : ∀ g : Frame, is_used m.pmm g.val = true → ¬ IsTable m pml4 g → SameFrame m.mem m'.mem g
  tables : ∀ g, IsTable m' pml4 g → IsTable m pml4 g ∨ is_used m.pmm g.val = false
  allocs : ∃ new : List Frame, m'.allocs = new.map (fun f => (Use.table, f)) ++ m.allocs
    ∧ ∀ f ∈ new, is_used m.pmm f.val = false ∧ is_used m'.pmm f.val = true ∧ IsTable m' pml4 f
  stay : ∀ g, IsTable m pml4 g → IsTable m' pml4 g
  high : ∀ i : Fin 512, 256 ≤ i.val → entry m'.mem pml4 i = entry m.mem pml4 i

section

variable {m m' m'' : Mach} {pml4 : Frame}

theorem Grows.refl : Grows pml4 m m where
  used _ h := h
  kept _ _ _ := SameFrame.refl _ _
  tables _ h := .inl h
  allocs := ⟨[], rfl, by simp⟩
  stay _ h := h
  high _ _ := rfl

/-- A page that is free afterwards was free before. -/
theorem is_free_of_le {p p' : Phys.Pmm} {q : ℕ}
    (hle : ∀ q, is_used p q = true → is_used p' q = true) (hfree : is_used p' q = false) :
    is_used p q = false := by
  rw [← Bool.not_eq_true] at hfree ⊢
  exact mt (hle q) hfree

theorem Grows.trans (h : Grows pml4 m m') (h' : Grows pml4 m' m'') : Grows pml4 m m'' where
  used q hq := h'.used q (h.used q hq)
  kept g hg hno := by
    refine (h.kept g hg hno).trans (h'.kept g (h.used _ hg) fun htable => ?_)
    rcases h.tables g htable with hold | hfree
    · exact hno hold
    · rw [hg] at hfree
      exact absurd hfree (by decide)
  tables g hg := by
    rcases h'.tables g hg with hmid | hfree
    · exact h.tables g hmid
    · exact .inr (is_free_of_le h.used hfree)
  allocs := by
    obtain ⟨new, heq, hnew⟩ := h.allocs
    obtain ⟨new', heq', hnew'⟩ := h'.allocs
    refine ⟨new' ++ new, ?_, fun f hf => ?_⟩
    · rw [heq', heq, map_append, append_assoc]
    · rcases mem_append.mp hf with hf | hf
      · obtain ⟨hfree, hused, htable⟩ := hnew' f hf
        exact ⟨is_free_of_le h.used hfree, hused, htable⟩
      · obtain ⟨hfree, hused, htable⟩ := hnew f hf
        exact ⟨hfree, h'.used _ hused, h'.stay f htable⟩
  stay g hg := h'.stay g (h.stay g hg)
  high i hi := (h'.high i hi).trans (h.high i hi)

theorem isTable_root : IsTable m pml4 pml4 := ⟨[], userPath_nil, rfl⟩

theorem isTable_congr (hfollow : ∀ q ∈ UserPath, follow child (entry m'.mem) pml4 q
      = follow child (entry m.mem) pml4 q) (g : Frame) :
    IsTable m' pml4 g ↔ IsTable m pml4 g :=
  exists_congr fun q => and_congr_right fun hq => by rw [hfollow q hq]

/-! ## Writes elsewhere -/

/-- A machine that agrees on the tables of the process, and has them still taken, has the same
address space. -/
theorem Space.of_same (h : Space m pml4) (hsame : ∀ g, IsTable m pml4 g → SameFrame m.mem m'.mem g)
    (hused : ∀ g, IsTable m pml4 g → is_used m'.pmm g.val = true) :
    Space m' pml4 ∧ (∀ g, IsTable m' pml4 g ↔ IsTable m pml4 g)
      ∧ ∀ q ∈ UserPath, ∀ j, translate m' pml4 q j = translate m pml4 q j := by
  have hentry : ∀ p ∈ UserPath, ∀ t, follow child (entry m.mem) pml4 p = some t →
      ∀ i, entry m'.mem t i = entry m.mem t i := fun p hp t ht i => (hsame t ⟨p, hp, ht⟩).entry i
  have hfollow : ∀ q ∈ UserPath, follow child (entry m'.mem) pml4 q
      = follow child (entry m.mem) pml4 q := by
    intro q hq
    refine follow_congr q fun p i hp t ht => ?_
    have hmem : p ∈ UserPath := userPath_closed p q ((prefix_append p [i]).trans hp) hq
    rw [hentry p hmem t ht i]
  have htable := isTable_congr hfollow
  refine ⟨⟨?_, ?_, ?_⟩, htable, fun q hq j => ?_⟩
  · intro p hp q hq t hpt hqt
    rw [hfollow p hp] at hpt
    rw [hfollow q hq] at hqt
    exact h.tree p hp q hq t hpt hqt
  · intro g hg
    have hold := (htable g).mp hg
    exact ⟨(h.used g hold).1, hused g hold⟩
  · intro p hp hlen t ht i hi
    rw [hfollow p hp] at ht
    rw [hentry p hp t ht i]
    exact h.links p hp hlen t ht i hi
  · unfold translate value
    rw [hfollow q hq]
    exact Option.bind_congr fun t ht => by rw [hentry q hq t ht j]

/-! ## `get_or_make_user` -/

/-- What `get_or_make_user` does at the end of a path. -/
structure Makes (pml4 : Frame) (m : Mach) (p : List (Fin 512)) (i : Fin 512) (f : Frame)
    (m' : Mach) : Prop where
  space : Space m' pml4
  grows : Grows pml4 m m'
  follow : follow child (entry m'.mem) pml4 (p ++ [i]) = some f
  same : ∀ q ∈ UserPath, q.length = 3 → ∀ j, translate m' pml4 q j = translate m pml4 q j

section

variable (h : Space m pml4) (hp : p ∈ UserPath) (hlen : p.length < 3) (hi : p = [] → i.val < 256)

include h hp hlen hi

/-- A page that nobody had becomes a table. -/
theorem Space.link_table {f : Frame}
    (ht : follow child (entry m.mem) pml4 p = some t) (hnone : child (entry m.mem t i) = none)
    (htakes : m.Takes .table f m') :
    Makes pml4 m p i f { m' with mem := set_entry (zero_page m'.mem f) t i (link f) } := by
  have hfresh : ∀ q ∈ UserPath, follow child (entry m.mem) pml4 q ≠ some f := by
    intro q hq hf
    have hused := (h.used f ⟨q, hq, hf⟩).2
    rw [htakes.free] at hused
    exact absurd hused (by decide)
  have hsnoc := userPath_snoc hp hlen hi
  have hentry : entry (set_entry (zero_page m'.mem f) t i (link f))
      = store (clear (entry m.mem) f 0) t i (link f) := by
    rw [entry_set_entry, entry_zero_page, htakes.mem]
  have hfollow : ∀ q ∈ UserPath,
    follow child (entry (set_entry (zero_page m'.mem f) t i (link f))) pml4 q
      = if q = p ++ [i] then some f else follow child (entry m.mem) pml4 q := by
    intro q hq
    rw [hentry]
    exact follow_link userPath_closed h.tree hp ht hnone hfresh child_zero (child_link f) hq
  have hnew : follow child (entry (set_entry (zero_page m'.mem f) t i (link f))) pml4 (p ++ [i])
      = some f := by
    rw [hfollow _ hsnoc, if_pos rfl]
  -- the new table is the only one that was not there
  have htable : ∀ g q, q ∈ UserPath →
      follow child (entry (set_entry (zero_page m'.mem f) t i (link f))) pml4 q = some g →
      (q = p ++ [i] ∧ g = f) ∨ follow child (entry m.mem) pml4 q = some g := by
    intro g q hq hg
    rw [hfollow q hq] at hg
    split_ifs at hg with hqp
    · exact .inl ⟨hqp, (Option.some.inj hg).symm⟩
    · exact .inr hg
  have htf : t ≠ f := fun heq => hfresh p hp (heq ▸ ht)
  refine ⟨⟨?_, ?_, ?_⟩, ⟨?_, ?_, ?_, ?_, ?_, ?_⟩, hnew, fun q hq hq3 j => ?_⟩
  · dsimp only
    rw [hentry]
    exact tree_link userPath_closed h.tree hp ht hnone hfresh child_zero (child_link f)
  · rintro g ⟨q, hq, hg⟩
    rw [htakes.used]
    rcases htable g q hq hg with ⟨-, rfl⟩ | hold
    · exact ⟨htakes.lt, by rw [decide_eq_true rfl, Bool.or_true]⟩
    · obtain ⟨hlt, hused⟩ := h.used g ⟨q, hq, hold⟩
      exact ⟨hlt, by rw [hused, Bool.true_or]⟩
  · intro q hq hqlen u hu j hj
    rw [hentry]
    rcases htable u q hq hu with ⟨-, rfl⟩ | hold
    · -- the new table is empty
      rw [store_of_ne (.inl htf.symm)]
      unfold clear
      rw [update_self]
      exact .inl rfl
    · have huf : u ≠ f := fun heq => hfresh q hq (heq ▸ hold)
      by_cases hhere : u = t ∧ j = i
      · obtain ⟨rfl, rfl⟩ := hhere
        rw [store_self]
        exact .inr ⟨f, rfl⟩
      · rw [store_of_ne (by rwa [not_and_or] at hhere)]
        unfold clear
        rw [update_of_ne huf]
        exact h.links q hq hqlen u hold j hj
  · intro q hq
    rw [htakes.used, hq, Bool.true_or]
  · intro g hg hno
    have hgf : g ≠ f := by
      rintro rfl
      rw [htakes.free] at hg
      exact absurd hg (by decide)
    have hgt : g ≠ t := fun heq => hno ⟨p, hp, heq ▸ ht⟩
    rw [← htakes.mem]
    exact (sameFrame_zero_page hgf).trans (sameFrame_set_entry hgt i _)
  · rintro g ⟨q, hq, hg⟩
    rcases htable g q hq hg with ⟨-, rfl⟩ | hold
    · exact .inr htakes.free
    · exact .inl ⟨q, hq, hold⟩
  · refine ⟨[f], htakes.allocs, fun g hg => ?_⟩
    obtain rfl := mem_singleton.mp hg
    exact ⟨htakes.free, by dsimp only; rw [htakes.used, decide_eq_true rfl,
      Bool.or_true], p ++ [i], hsnoc, hnew⟩
  · rintro g ⟨q, hq, hg⟩
    refine ⟨q, hq, ?_⟩
    rw [hfollow q hq, if_neg, hg]
    -- nothing was behind the entry before
    rintro rfl
    rw [follow_snoc, ht] at hg
    exact absurd (hnone.symm.trans hg) (by simp)
  · intro j hj
    have hroot : pml4 ≠ f := fun heq => hfresh [] userPath_nil (heq ▸ rfl)
    -- an entry of the root itself is one of its lower half
    have hne : pml4 ≠ t ∨ j ≠ i := by
      by_contra hboth
      rw [not_or, not_not, not_not] at hboth
      obtain ⟨rfl, rfl⟩ := hboth
      have := hi (h.tree p hp [] userPath_nil pml4 ht rfl)
      omega
    rw [hentry, store_of_ne hne]
    unfold clear
    rw [update_of_ne hroot]
  · unfold translate
    rw [hentry]
    refine value_link userPath_closed h.tree hp ht hnone hfresh child_zero
      (child_link f) leaf_zero hq ?_ j
    rintro rfl
    omega

theorem Space.get_or_make_user {f : Frame}
    (ht : follow child (entry m.mem) pml4 p = some t)
    (hmake : get_or_make_user m t i = some (f, m')) :
    Makes pml4 m p i f m' := by
  unfold Paging.get_or_make_user at hmake
  cases hchild : child (entry m.mem t i) with
  | some u =>
    rw [hchild] at hmake
    cases hmake
    refine ⟨h, .refl, ?_, fun _ _ _ _ => rfl⟩
    rw [follow_snoc, ht]
    exact hchild
  | none =>
    rw [hchild] at hmake
    cases halloc : m.alloc .table with
    | none =>
      rw [halloc] at hmake
      simp at hmake
    | some r =>
      rw [halloc] at hmake
      cases hmake
      exact h.link_table hp hlen hi ht hchild (Mach.alloc_spec halloc)

end

/-! ## Mapping a page -/

/-- What mapping a page does. -/
structure Maps (pml4 : Frame) (m : Mach) (virt e : UInt64) (m' : Mach) : Prop where
  space : Space m' pml4
  grows : Grows pml4 m m'
  value : ∀ q ∈ UserPath, q.length = 3 → ∀ j, translate m' pml4 q j
    = if q = path virt ∧ j = i1 virt then leaf e else translate m pml4 q j

theorem Space.set_leaf (h : Space m pml4) (hp : p ∈ UserPath)
    (hlen : p.length = 3) (ht : follow child (entry m.mem) pml4 p = some t) (e : UInt64) :
    Space { m with mem := set_entry m.mem t i e } pml4
      ∧ Grows pml4 m { m with mem := set_entry m.mem t i e }
      ∧ ∀ q ∈ UserPath, q.length = 3 → ∀ j,
        translate { m with mem := set_entry m.mem t i e } pml4 q j
          = if q = p ∧ j = i then leaf e else translate m pml4 q j := by
  -- `t` is a last level table, so no path of tables goes through the entry
  have hlow : p ++ [i] ∉ UserPath := by
    intro hmem
    have := hmem.1
    rw [length_append, hlen, length_singleton] at this
    omega
  have hfollow : ∀ q ∈ UserPath, follow child (entry (set_entry m.mem t i e)) pml4 q
      = follow child (entry m.mem) pml4 q := by
    intro q hq
    rw [entry_set_entry]
    exact follow_store_leaf userPath_closed h.tree hp hlow ht hq
  have htable : ∀ g, IsTable { m with mem := set_entry m.mem t i e } pml4 g ↔ IsTable m pml4 g :=
    isTable_congr hfollow
  refine ⟨⟨?_, fun g hg => h.used g ((htable g).mp hg), ?_⟩,
    ⟨fun _ hq => hq, ?_, fun g hg => .inl ((htable g).mp hg), ⟨[], rfl, by simp⟩,
      fun g hg => (htable g).mpr hg, fun j _ => ?_⟩, fun q hq _ j => ?_⟩
  · dsimp only
    rw [entry_set_entry]
    exact tree_store_leaf userPath_closed h.tree hp hlow ht
  · intro q hq hqlen u hu j hj
    rw [hfollow q hq] at hu
    have hut : u ≠ t := by
      rintro rfl
      obtain rfl := h.tree q hq p hp u hu ht
      omega
    rw [entry_set_entry, store_of_ne (.inl hut)]
    exact h.links q hq hqlen u hu j hj
  · intro g _ hno
    have hgt : g ≠ t := fun heq => hno ⟨p, hp, heq ▸ ht⟩
    exact sameFrame_set_entry hgt i e
  · have hroot : pml4 ≠ t := by
      rintro rfl
      obtain rfl := h.tree p hp [] userPath_nil pml4 ht rfl
      simp at hlen
    exact (sameFrame_set_entry hroot i e).entry j
  · unfold translate
    rw [entry_set_entry]
    exact value_store userPath_closed h.tree hp hlow ht hq j

/-- **Mapping a page** of the user half changes the translation of this page only. -/
theorem Space.map_leaf (h : Space m pml4) {e : UInt64} (hvirt : (i4 virt).val < 256)
    (hmap : map_leaf m pml4 virt e = some m') : Maps pml4 m virt e m' := by
  unfold Paging.map_leaf at hmap
  cases h3 : Paging.get_or_make_user m pml4 (i4 virt) with
  | none =>
    rw [h3] at hmap
    simp at hmap
  | some r3 =>
    obtain ⟨p3, m3⟩ := r3
    rw [h3] at hmap
    dsimp only at hmap
    have hmake3 := h.get_or_make_user userPath_nil (by decide) (fun _ => hvirt) rfl h3
    have hp3 := userPath_snoc userPath_nil (by decide) fun _ => hvirt
    cases h2 : Paging.get_or_make_user m3 p3 (i3 virt) with
    | none =>
      rw [h2] at hmap
      simp at hmap
    | some r2 =>
      obtain ⟨p2, m2⟩ := r2
      rw [h2] at hmap
      dsimp only at hmap
      have hmake2 := hmake3.space.get_or_make_user hp3 (by simp) (by simp) hmake3.follow h2
      have hp2 := userPath_snoc (i := i3 virt) hp3 (by simp) (by simp)
      cases h1 : Paging.get_or_make_user m2 p2 (i2 virt) with
      | none =>
        rw [h1] at hmap
        simp at hmap
      | some r1 =>
        rw [h1] at hmap
        cases hmap
        have hmake1 := hmake2.space.get_or_make_user hp2 (by simp) (by simp) hmake2.follow h1
        obtain ⟨hspace, hgrows, hvalue⟩ := hmake1.space.set_leaf (path_user hvirt) rfl
          hmake1.follow e
        refine ⟨hspace, (hmake3.grows.trans hmake2.grows).trans (hmake1.grows.trans hgrows),
          fun q hq hq3 j => ?_⟩
        rw [hvalue q hq hq3 j, hmake1.same q hq hq3, hmake2.same q hq hq3, hmake3.same q hq hq3]

/-! ## The processor's walk -/

theorem Space.step_down (h : Space m pml4) (hp : p ∈ UserPath)
    (hlen : p.length < 3) (hi : p = [] → i.val < 256)
    (ht : follow child (entry m.mem) pml4 p = some t) :
    (entry m.mem t i = 0 ∧ follow child (entry m.mem) pml4 (p ++ [i]) = none)
      ∨ (user_ok (entry m.mem t i) = true ∧ large (entry m.mem t i) = false
        ∧ follow child (entry m.mem) pml4 (p ++ [i]) = some (frame (entry m.mem t i))) := by
  have hsnoc : follow child (entry m.mem) pml4 (p ++ [i]) = child (entry m.mem t i) := by
    rw [follow_snoc, ht]
    rfl
  rcases h.links p hp hlen t ht i hi with hzero | ⟨f, hf⟩
  · exact .inl ⟨hzero, by rw [hsnoc, hzero, child_zero]⟩
  · refine .inr ?_
    rw [hsnoc, hf, user_ok_link, large_link, frame_link]
    exact ⟨rfl, rfl, child_link f⟩

theorem user_ok_zero : user_ok 0 = false := by decide

theorem follow_none_append {r : List (Fin 512)} (h : follow child (entry m.mem) pml4 p = none) :
    follow child (entry m.mem) pml4 (p ++ r) = none := by
  rw [follow_append, h]
  rfl

theorem leaf_bind (e : UInt64) (x : ℕ) :
    ((leaf e).bind fun e => if user_ok e then some ((frame e).val * 4096 + x) else none)
      = if user_ok e then some ((frame e).val * 4096 + x) else none := by
  by_cases hpresent : e.toNat.testBit 0 = true
  · unfold leaf
    rw [if_pos ((present_iff e).mpr hpresent), bind_some]
  · have hno : ¬ user_ok e = true := by
      rw [user_ok_eq, Bool.and_eq_true]
      exact fun hok => hpresent hok.1
    unfold leaf
    rw [if_neg (mt (present_iff e).mp hpresent), if_neg hno, bind_none]

/-- **The walk** of the processor in ring 3 ends at the frame of the entry. -/
theorem Space.user_walk_eq (h : Space m pml4) (hvirt : (i4 virt).val < 256) :
    user_walk m.mem pml4 virt = (translate m pml4 (path virt) (i1 virt)).bind fun e =>
      if user_ok e then some ((frame e).val * 4096 + virt.toNat % 4096) else none := by
  have hp3 : [i4 virt] ∈ UserPath := userPath_snoc userPath_nil (by decide) fun _ => hvirt
  have hp2 : [i4 virt, i3 virt] ∈ UserPath := userPath_snoc hp3 (by simp) (by simp)
  have hstop : ∀ {e : UInt64}, e = 0 → ¬ user_ok e = true := by
    rintro e rfl
    exact Bool.false_ne_true
  have hgo : ∀ {e : UInt64}, large e = false → ¬ large e = true := by
    intro e he
    rw [he]
    exact Bool.false_ne_true
  unfold user_walk translate value
  generalize h4 : entry m.mem pml4 (i4 virt) = e4
  rcases h.step_down userPath_nil (by decide) (fun _ => hvirt) rfl with ⟨hzero, hnone⟩
    | ⟨hok, -, hnext⟩
  · have hpath : follow child (entry m.mem) pml4 (path virt) = none :=
      follow_none_append hnone
    rw [if_neg (hstop (h4 ▸ hzero)), hpath, bind_none, bind_none]
  rw [h4] at hok hnext
  rw [if_pos hok]
  generalize h3 : entry m.mem (frame e4) (i3 virt) = e3
  rcases h.step_down hp3 (by simp) (by simp) hnext with ⟨hzero, hnone⟩ | ⟨hok', hlarge', hnext'⟩
  · have hpath : follow child (entry m.mem) pml4 (path virt) = none :=
      follow_none_append hnone
    rw [if_neg (hstop (h3 ▸ hzero)), hpath, bind_none, bind_none]
  rw [h3] at hok' hlarge' hnext'
  rw [if_pos hok', if_neg (hgo hlarge')]
  generalize h2 : entry m.mem (frame e3) (i2 virt) = e2
  rcases h.step_down hp2 (by simp) (by simp) hnext' with ⟨hzero, hnone⟩ | ⟨hok'', hlarge'', hnext''⟩
  · have hpath : follow child (entry m.mem) pml4 (path virt) = none := hnone
    rw [if_neg (hstop (h2 ▸ hzero)), hpath, bind_none, bind_none]
  rw [h2] at hok'' hlarge'' hnext''
  have hpath : follow child (entry m.mem) pml4 (path virt) = some (frame e2) := hnext''
  rw [if_pos hok'', if_neg (hgo hlarge''), hpath, bind_some, leaf_bind]

end

end HepOS.Paging
