/-
Ownership ledgers.

A ledger records which numbered resources (blocks of a disk, inode numbers, pages)
are held by which owner, and in which of the owner's slots. The number `0` stands for
"nothing held". A ledger is *consistent* when the allocator's view and the owners'
view agree: a resource is in use exactly when it is reserved or some live owner holds
it, no resource is held twice, and no reserved resource is held.

Allocation, release, enrolment of a new owner and handing a resource from one slot to
another keep a ledger consistent, whatever the owners and slots are. `heldCount` is the
number of occupied slots among a list of slots.
-/
import Mathlib

set_option autoImplicit false

namespace HepOS.Ledger

open List

variable {ι σ : Type*}

/-- The allocator's view (`used`) and the owners' view (`held`) agree. -/
structure Consistent (live : ι → Prop) (held : ι → σ → ℕ) (used reserved : ℕ → Prop) : Prop where
  used_iff : ∀ b, used b ↔ reserved b ∨ ∃ i, live i ∧ ∃ s, held i s = b ∧ b ≠ 0
  inj : ∀ i j, live i → live j → ∀ s t, held i s ≠ 0 → held i s = held j t → i = j ∧ s = t
  not_reserved : ∀ i, live i → ∀ s, held i s ≠ 0 → ¬ reserved (held i s)

variable {live : ι → Prop} {held : ι → σ → ℕ} {used reserved : ℕ → Prop}

section

variable {live' : ι → Prop} {held' : ι → σ → ℕ} {used' : ℕ → Prop} {i : ι} {s : σ}
    (h : Consistent live held used reserved)

include h

/-- What a live owner holds is in use. -/
theorem Consistent.used_of_held (hi : live i) (hs : held i s ≠ 0) : used (held i s) :=
  (h.used_iff _).mpr (.inr ⟨i, hi, s, rfl, hs⟩)

/-- A resource that is not in use is held by nobody. -/
theorem Consistent.held_ne_of_not_used {b : ℕ}
    (hb : ¬ used b) (hb0 : b ≠ 0) (hi : live i) (s : σ) : held i s ≠ b := by
  intro hs
  exact hb ((h.used_iff b).mpr (.inr ⟨i, hi, s, hs, hb0⟩))

/-- Every holding may stay or be given up; exactly what is given up becomes free. -/
theorem Consistent.restrict (hkept : ∀ j, live' j → ∀ t, held' j t ≠ 0 → live j
    ∧ held' j t = held j t)
    (hused : ∀ c, used' c ↔ used c ∧ ∀ j, live j → ∀ t, held j t = c → c ≠ 0 → live' j
      ∧ held' j t = c) :
    Consistent live' held' used' reserved := by
  refine ⟨?_, ?_, ?_⟩
  · intro c
    rw [hused, h.used_iff]
    constructor
    · rintro ⟨hres | ⟨j, hj, t, ht, hc⟩, hall⟩
      · exact .inl hres
      · obtain ⟨hj', ht'⟩ := hall j hj t ht hc
        exact .inr ⟨j, hj', t, ht', hc⟩
    · rintro (hres | ⟨j, hj', t, rfl, hc⟩)
      · refine ⟨.inl hres, ?_⟩
        rintro j hj t rfl hc
        exact absurd hres (h.not_reserved j hj t hc)
      · obtain ⟨hj, ht⟩ := hkept j hj' t hc
        refine ⟨.inr ⟨j, hj, t, ht.symm, hc⟩, ?_⟩
        intro k hk u hu _
        -- nobody else holds it
        obtain ⟨rfl, rfl⟩ := h.inj k j hk hj u t (by rw [hu]; exact hc) (hu.trans ht)
        exact ⟨hj', rfl⟩
  · intro j k hj hk t u ht heq
    obtain ⟨hj', ht'⟩ := hkept j hj t ht
    obtain ⟨hk', hu'⟩ := hkept k hk u (by rw [← heq]; exact ht)
    rw [ht'] at ht heq
    rw [hu'] at heq
    exact h.inj j k hj' hk' t u ht heq
  · intro j hj t ht
    obtain ⟨hj', ht'⟩ := hkept j hj t ht
    rw [ht'] at ht ⊢
    exact h.not_reserved j hj' t ht

/-- Consistency only looks at what live owners hold. -/
theorem Consistent.congr (hlive : ∀ i, live' i ↔ live i)
    (hheld : ∀ i, live i → ∀ s, held' i s = held i s) (hused : ∀ b, used' b ↔ used b) :
    Consistent live' held' used' reserved := by
  refine h.restrict (fun j hj t _ => ?_) fun c => ?_
  · rw [hlive] at hj
    exact ⟨hj, hheld j hj t⟩
  · rw [hused]
    exact ⟨fun hc => ⟨hc, fun j hj t ht _ => ⟨(hlive j).mpr hj, (hheld j hj t).trans ht⟩⟩, And.left⟩

/-- **Allocation.** A free resource may be put into an empty slot of a live owner. -/
theorem Consistent.alloc {b : ℕ} (hi : live i) (hb0 : b ≠ 0) (hfree : ¬ used b)
    (hsame : held' i s = b) (hslots : ∀ t, t ≠ s → held' i t = held i t)
    (hothers : ∀ j, live j → j ≠ i → ∀ t, held' j t = held j t)
    (hs : held i s = 0) (hused : ∀ c, used' c ↔ c = b ∨ used c) :
    Consistent live held' used' reserved := by
  -- a resource held after the allocation is `b` in slot `s` of `i`, or was held there before
  have hcases : ∀ j, live j → ∀ t, (j = i ∧ t = s ∧ held' j t = b)
      ∨ (held' j t = held j t ∧ ¬ (j = i ∧ t = s)) := by
    intro j hj t
    by_cases hji : j = i
    · subst hji
      by_cases hts : t = s
      · subst hts
        exact .inl ⟨rfl, rfl, hsame⟩
      · exact .inr ⟨hslots t hts, fun hc => hts hc.2⟩
    · exact .inr ⟨hothers j hj hji t, fun hc => hji hc.1⟩
  have hnot : ∀ j, live j → ∀ t, held j t ≠ b := fun j hj t => h.held_ne_of_not_used hfree hb0 hj t
  refine ⟨?_, ?_, ?_⟩
  · intro c
    rw [hused, h.used_iff]
    constructor
    · rintro (rfl | hres | ⟨j, hj, t, ht, hc⟩)
      · exact .inr ⟨i, hi, s, hsame, hb0⟩
      · exact .inl hres
      · rcases hcases j hj t with ⟨rfl, rfl, -⟩ | ⟨heq, -⟩
        · rw [hs] at ht
          exact absurd ht.symm hc
        · exact .inr ⟨j, hj, t, heq.trans ht, hc⟩
    · rintro (hres | ⟨j, hj, t, ht, hc⟩)
      · exact .inr (.inl hres)
      · rcases hcases j hj t with ⟨-, -, heq⟩ | ⟨heq, -⟩
        · exact .inl (ht.symm.trans heq)
        · exact .inr (.inr ⟨j, hj, t, heq.symm.trans ht, hc⟩)
  · intro j k hj hk t u ht heq
    rcases hcases j hj t with ⟨rfl, rfl, hjt⟩ | ⟨hjt, -⟩
    · rcases hcases k hk u with ⟨rfl, rfl, -⟩ | ⟨hku, -⟩
      · exact ⟨rfl, rfl⟩
      · rw [hjt, hku] at heq
        exact absurd heq.symm (hnot k hk u)
    · rcases hcases k hk u with ⟨rfl, rfl, hku⟩ | ⟨hku, -⟩
      · rw [hjt, hku] at heq
        exact absurd heq (hnot j hj t)
      · rw [hjt] at ht heq
        rw [hku] at heq
        exact h.inj j k hj hk t u ht heq
  · intro j hj t ht
    rcases hcases j hj t with ⟨-, -, heq⟩ | ⟨heq, -⟩
    · rw [heq]
      intro hres
      exact hfree ((h.used_iff b).mpr (.inl hres))
    · rw [heq] at ht ⊢
      exact h.not_reserved j hj t ht

/-- **Release.** An owner may leave with everything it holds; exactly its resources
become free. -/
theorem Consistent.release (hi : live i) (hlive : ∀ j, live' j ↔ live j ∧ j ≠ i)
    (hheld : ∀ j, live j → j ≠ i → ∀ t, held' j t = held j t)
    (hused : ∀ c, used' c ↔ used c ∧ ¬ ∃ s, held i s = c ∧ c ≠ 0) :
    Consistent live' held' used' reserved := by
  refine h.restrict (fun j hj t _ => ?_) fun c =>
    (hused c).trans (and_congr_right fun _ => ⟨?_, ?_⟩)
  · obtain ⟨hj, hji⟩ := (hlive j).mp hj
    exact ⟨hj, hheld j hj hji t⟩
  · intro hnot j hj t ht hc
    have hji : j ≠ i := by
      rintro rfl
      exact hnot ⟨t, ht, hc⟩
    exact ⟨(hlive j).mpr ⟨hj, hji⟩, (hheld j hj hji t).trans ht⟩
  · rintro hall ⟨s, hs, hc⟩
    exact ((hlive i).mp (hall i hi s hs hc).1).2 rfl

/-- **Enrolment.** A new owner that holds nothing may join. -/
theorem Consistent.enrol (hlive : ∀ j, live' j ↔ live j ∨ j = i)
    (hheld : ∀ j, live j → ∀ t, held' j t = held j t) (hnew : ∀ t, held' i t = 0) :
    Consistent live' held' used reserved := by
  refine h.restrict (fun j hj t ht => ?_) fun c => ⟨fun hc => ⟨hc, ?_⟩, And.left⟩
  · rcases (hlive j).mp hj with hj | rfl
    · exact ⟨hj, hheld j hj t⟩
    · exact absurd (hnew t) ht
  · intro j hj t ht _
    exact ⟨(hlive j).mpr (.inl hj), (hheld j hj t).trans ht⟩

/-- **Clearing a slot.** A resource taken out of its slot becomes free. -/
theorem Consistent.clear (hi : live i)
    (hs : held i s ≠ 0) (hsame : held' i s = 0) (hslots : ∀ t, t ≠ s → held' i t = held i t)
    (hothers : ∀ j, live j → j ≠ i → ∀ t, held' j t = held j t)
    (hused : ∀ c, used' c ↔ used c ∧ c ≠ held i s) :
    Consistent live held' used' reserved := by
  have hkept : ∀ j, live j → ∀ t, ¬ (j = i ∧ t = s) → held' j t = held j t := by
    intro j hj t hne
    by_cases hji : j = i
    · subst hji
      exact hslots t fun hts => hne ⟨rfl, hts⟩
    · exact hothers j hj hji t
  refine h.restrict (fun j hj t ht => ⟨hj, hkept j hj t ?_⟩) fun c =>
    (hused c).trans (and_congr_right fun _ => ⟨?_, ?_⟩)
  · rintro ⟨rfl, rfl⟩
    exact ht hsame
  · intro hne j hj t ht _
    refine ⟨hj, (hkept j hj t ?_).trans ht⟩
    rintro ⟨rfl, rfl⟩
    exact hne ht.symm
  · rintro hall rfl
    exact hs ((hall i hi s rfl hs).2.symm.trans hsame)

end

/-! ## Counting occupied slots -/

/-- The number of slots of a list that hold something. -/
def heldCount (slots : List σ) (h : σ → ℕ) : ℕ := slots.countP (fun s => h s ≠ 0)

theorem heldCount_congr {slots : List σ} {h h' : σ → ℕ}
    (hc : ∀ s ∈ slots, h' s = h s) : heldCount slots h' = heldCount slots h := by
  refine countP_congr ?_
  intro s hs
  rw [hc s hs]

/-- Filling one empty slot raises the count by one. -/
theorem heldCount_fill [DecidableEq σ] {slots : List σ} (hnd : slots.Nodup) {h h' : σ → ℕ} {s : σ}
    (hmem : s ∈ slots) (hs : h s = 0) (hs' : h' s ≠ 0) (hne : ∀ t, t ≠ s → h' t = h t) :
    heldCount slots h' = heldCount slots h + 1 := by
  induction slots with
  | nil => simp at hmem
  | cons a l ih =>
    obtain ⟨hal, hl⟩ := nodup_cons.mp hnd
    rw [heldCount, heldCount, countP_cons, countP_cons]
    by_cases has : a = s
    · subst has
      have hrest : l.countP (fun s => h' s ≠ 0) = l.countP (fun s => h s ≠ 0) := by
        refine heldCount_congr ?_
        intro t ht
        exact hne t (fun hts => hal (hts ▸ ht))
      rw [hrest]
      simp [hs, hs']
    · have hml : s ∈ l := by
        rcases mem_cons.mp hmem with h1 | h1
        · exact absurd h1.symm has
        · exact h1
      have hrest := ih hl hml
      rw [heldCount, heldCount] at hrest
      rw [hrest, hne a has]
      omega

theorem heldCount_zero (slots : List σ) : heldCount slots (fun _ => 0) = 0 := by
  rw [heldCount, countP_eq_zero]
  simp

end HepOS.Ledger
