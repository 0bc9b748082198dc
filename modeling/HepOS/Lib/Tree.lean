/-
Chains of links from a root.

A graph is given by `link d s i`: the node `d` points to the node `i` from its slot `s`. A
node is reached by a `Chain`, the list of links that lead to it from the root. When every
node is pointed to from one place at most, and the root from none, a node has at most one
chain (`Chain.unique`); so the graph is a tree as soon as every node has one. The other
lemmas say what becomes of chains when links are added, taken away or moved. The last is
the one with a condition: a node may be moved to any place that does not lie below it.
-/
import Mathlib

set_option autoImplicit false

namespace HepOS.Chains

open List

variable {α σ : Type*}

/-- The links from the root to a node, the last one first. -/
inductive Chain (link : α → σ → α → Prop) (root : α) : List (α × σ) → α → Prop
  | root : Chain link root [] root
  | link {l : List (α × σ)} {d : α} {s : σ} {i : α} (hl : Chain link root l d) (h : link d s i) :
      Chain link root ((d, s) :: l) i

/-- `x` is the node `i` or can be reached from it. -/
def Below (link : α → σ → α → Prop) (i x : α) : Prop :=
  Relation.ReflTransGen (fun a b => ∃ s, link a s b) i x

section

variable {link link' : α → σ → α → Prop} {root i x : α} {l : List (α × σ)}

section

variable (h : Chain link root l x)

include h

/-- A node that is pointed to from one place at most has one chain at most. -/
theorem Chain.unique
    (hinj : ∀ d s d' s' y, link d s y → link d' s' y → d = d' ∧ s = s')
    (hroot : ∀ d s, ¬ link d s root) :
    ∀ {l' : List (α × σ)}, Chain link root l' x → l' = l := by
  induction h with
  | root =>
    intro l' h'
    cases h' with
    | root => rfl
    | link _ hlink => exact absurd hlink (hroot _ _)
  | link _ hlink ih =>
    intro l' h'
    cases h' with
    | root => exact absurd hlink (hroot _ _)
    | link hl' hlink' =>
      obtain ⟨rfl, rfl⟩ := hinj _ _ _ _ _ hlink' hlink
      rw [ih hl']

/-- More links, the same chains. -/
theorem Chain.mono (hkeep : ∀ d s y, link d s y → link' d s y) :
    Chain link' root l x := by
  induction h with
  | root => exact .root
  | link _ hlink ih => exact .link ih (hkeep _ _ _ hlink)

/-- A chain to a node that is not below `i` does not use the links to `i`. -/
theorem Chain.avoids (hx : ¬ Below link i x)
    (hkeep : ∀ d s y, link d s y → y ≠ i → link' d s y) : Chain link' root l x := by
  induction h with
  | root => exact .root
  | link _ hlink ih =>
    refine .link (ih ?_) (hkeep _ _ _ hlink ?_)
    · intro hbelow
      exact hx (hbelow.tail ⟨_, hlink⟩)
    · rintro rfl
      exact hx .refl

/-- When only the links to `i` change and `i` still has a chain, so has every node. -/
theorem Chain.relink (hi : ∃ l', Chain link' root l' i)
    (hkeep : ∀ d s y, link d s y → y ≠ i → link' d s y) : ∃ l', Chain link' root l' x := by
  induction h with
  | root => exact ⟨[], .root⟩
  | link _ hlink ih =>
    rename_i l0 d s y _
    by_cases hy : y = i
    · rw [hy]
      exact hi
    · obtain ⟨l', hl'⟩ := ih
      exact ⟨_, .link hl' (hkeep _ _ _ hlink hy)⟩

end

/-- A chain goes on to every node below its end. -/
theorem Chain.extend (h : Chain link root l i) (hx : Below link i x) :
    ∃ l', Chain link root (l' ++ l) x := by
  induction hx with
  | refl => exact ⟨[], h⟩
  | tail _ hstep ih =>
    obtain ⟨s, hlink⟩ := hstep
    obtain ⟨l', hl'⟩ := ih
    exact ⟨(_, s) :: l', .link hl' hlink⟩

section

variable (h : Chain link root l x)

include h

/-- A node with a chain does not lie below a node it points to. -/
theorem Chain.not_below (hinj : ∀ d s d' s' y, link d s y → link d' s' y → d = d' ∧ s = s')
    (hroot : ∀ d s, ¬ link d s root) {s : σ} (hlink : link x s i) : ¬ Below link i x := by
  intro hbelow
  -- otherwise the chain could be made longer and still end in the same node
  obtain ⟨l', hl'⟩ := (Chain.link h hlink).extend hbelow
  have hlen := congrArg List.length (h.unique hinj hroot hl')
  rw [length_append, length_cons] at hlen
  omega

/-- Every node on a chain has a chain that is not longer. -/
theorem Chain.sub {y : α} (hy : y ∈ x :: l.map Prod.fst) :
    ∃ l', Chain link root l' y ∧ l'.length ≤ l.length := by
  induction h with
  | root =>
    rw [mem_singleton.mp hy]
    exact ⟨[], .root, le_rfl⟩
  | link hl hlink ih =>
    rcases mem_cons.mp hy with rfl | hy
    · exact ⟨_, .link hl hlink, le_rfl⟩
    · obtain ⟨l', hl', hle⟩ := ih hy
      exact ⟨l', hl', Nat.le_succ_of_le hle⟩

/-- The nodes of a chain are different when every node has one chain at most. -/
theorem Chain.nodup (hinj : ∀ d s d' s' y, link d s y → link d' s' y → d = d' ∧ s = s')
    (hroot : ∀ d s, ¬ link d s root) : (x :: l.map Prod.fst).Nodup := by
  induction h with
  | root => exact nodup_singleton _
  | link hl hlink ih =>
    refine nodup_cons.mpr ⟨fun hmem => ?_, ih⟩
    obtain ⟨l', hl', hle⟩ := hl.sub hmem
    have hlen := congrArg List.length ((Chain.link hl hlink).unique hinj hroot hl')
    rw [length_cons] at hlen
    omega

/-- The nodes a chain passes through have links. -/
theorem Chain.links : ∀ d ∈ l.map Prod.fst, ∃ s y, link d s y := by
  induction h with
  | root =>
    intro d hd
    simp at hd
  | link _ hlink ih =>
    intro d hd
    rcases mem_cons.mp hd with rfl | hd
    · exact ⟨_, _, hlink⟩
    · exact ih d hd

end

/-- Below a node without links there is nothing. -/
theorem Below.eq_of_leaf (h : Below link i x) (hleaf : ∀ s y, ¬ link i s y) : x = i := by
  rcases Relation.ReflTransGen.cases_head h with rfl | ⟨y, ⟨s, hlink⟩, -⟩
  · rfl
  · exact absurd hlink (hleaf s y)

end

end HepOS.Chains
