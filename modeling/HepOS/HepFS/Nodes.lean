/-
Small directory trees, written down.

Inodes are handed out from the least number on, so a tree that was only ever added to is the
list of its inodes in the order they were made: which directory they are in, what they are
and what they are called. The root is not listed. On such a list paths are followed by
computation, and the theorems here say that this is what `lookup` does on a disk that shows
the tree.
-/
import HepOS.HepFS.Lookup

set_option autoImplicit false

namespace HepOS.HepFS

open Bytes Hoare Ledger Trace List Option

/-! ## Trees as lists -/

/-- An inode in a list; the `i`-th is inode `i + 1`. -/
structure Node where
  dir : ℕ
  kind : UInt32
  name : String
deriving DecidableEq

section

variable (nodes : List Node)

/-- What inode `i` is. -/
def kindOf (i : ℕ) : UInt32 :=
  if i = 0 then F_DIR else (nodes[i - 1]?.map Node.kind).getD F_FREE

/-- The inode called `name` in directory `d`. -/
def child (d : ℕ) (name : String) : Option ℕ :=
  (nodes.findIdx? fun n => n.dir = d ∧ n.name = name).map (· + 1)

/-- Where the parts of a path lead. -/
def walk (nodes : List Node) : ℕ → List String → Option ℕ
  | d, [] => some d
  | d, name :: rest =>
    if kindOf nodes d = F_DIR then (child nodes d name).bind fun i => walk nodes i rest else none

/-- Only directories are searched on the way. -/
def searches (nodes : List Node) : ℕ → List String → Bool
  | _, [] => true
  | d, name :: rest => decide (kindOf nodes d = F_DIR) && match child nodes d name with
      | none => true
      | some i => searches nodes i rest

/-- No two inodes of a directory have the same name. -/
def Unique : Prop := (nodes.map fun n => (n.dir, n.name)).Nodup

instance : Decidable (Unique nodes) := inferInstanceAs (Decidable (List.Nodup _))

end

/-- The view is that of the tree. -/
structure Shows (v : View) (nodes : List Node) : Prop where
  flags : ∀ i, v.flags i = kindOf nodes i
  entries : ∀ d i name, (∃ q, v.entry d q = some (i, name)) ↔
    i ≠ 0 ∧ ∃ n, nodes[i - 1]? = some n ∧ n.dir = d ∧ n.name = name

theorem shows_root : Shows View.root [] := by
  constructor
  · intro i
    rw [View.flags_root]
    unfold kindOf
    by_cases hi : i = 0
    · rw [if_pos hi, if_pos hi]
    · rw [if_neg hi, if_neg hi]
      rfl
  · intro d i name
    constructor
    · rintro ⟨q, hq⟩
      exact absurd hq (by simp [View.root])
    · rintro ⟨-, n, hn, -⟩
      simp at hn

section

variable {v : View} {nodes : List Node}

theorem kindOf_append (n : Node) (i : ℕ) :
    kindOf (nodes ++ [n]) i = if i = nodes.length + 1 then n.kind else kindOf nodes i := by
  unfold kindOf
  by_cases hi : i = nodes.length + 1
  · rw [if_pos hi, if_neg (by omega), hi, Nat.add_sub_cancel, List.getElem?_concat_length]
    rfl
  · rw [if_neg hi]
    by_cases h0 : i = 0
    · rw [if_pos h0, if_pos h0]
    · rw [if_neg h0, if_neg h0]
      by_cases hlt : i - 1 < nodes.length
      · rw [List.getElem?_append_left hlt]
      · rw [List.getElem?_append_right (by omega), List.getElem?_eq_none (by simp; omega),
          List.getElem?_eq_none (by omega)]

section

variable (h : Shows v nodes)

include h

/-- The least free inode becomes the next of the list. -/
theorem Shows.create {kind : UInt32} {d : ℕ} {q : ℕ × ℕ} {name : String} (hq : v.entry d q = none) :
    Shows (v.create (nodes.length + 1) kind d q name) (nodes ++ [⟨d, kind, name⟩]) := by
  constructor
  · intro i
    rw [View.flags_create, kindOf_append]
    by_cases hi : i = nodes.length + 1
    · rw [if_pos hi, if_pos hi]
    · rw [if_neg hi, if_neg hi, h.flags]
  · intro d' i name'
    have hold := h.entries d' i name'
    constructor
    · rintro ⟨q', hq'⟩
      rw [View.entry_create] at hq'
      by_cases hc : d' = d ∧ q' = q
      · rw [if_pos hc, Option.some.injEq, Prod.mk.injEq] at hq'
        obtain ⟨rfl, rfl⟩ := hq'
        refine ⟨by omega, ⟨d, kind, name⟩, ?_, hc.1.symm, rfl⟩
        rw [Nat.add_sub_cancel, List.getElem?_concat_length]
      · rw [if_neg hc] at hq'
        obtain ⟨hi, n, hn, hd, hname⟩ := hold.mp ⟨q', hq'⟩
        refine ⟨hi, n, ?_, hd, hname⟩
        rw [List.getElem?_append_left (List.getElem?_eq_some_iff.mp hn).1]
        exact hn
    · rintro ⟨hi, n, hn, hd, hname⟩
      by_cases hlt : i - 1 < nodes.length
      · rw [List.getElem?_append_left hlt] at hn
        obtain ⟨q', hq'⟩ := hold.mpr ⟨hi, n, hn, hd, hname⟩
        refine ⟨q', ?_⟩
        rw [View.entry_create, if_neg]
        · exact hq'
        · rintro ⟨rfl, rfl⟩
          rw [hq] at hq'
          simp at hq'
      · have hlast : i - 1 = nodes.length := by
          have hlen := (List.getElem?_eq_some_iff.mp hn).1
          rw [length_append, length_singleton] at hlen
          omega
        rw [hlast, List.getElem?_concat_length] at hn
        cases hn
        refine ⟨q, ?_⟩
        rw [View.entry_create, if_pos ⟨hd.symm, rfl⟩, ← hname, show i = nodes.length + 1 by omega]

theorem Shows.write (i : ℕ) (data : List UInt8) : Shows (v.write i data) nodes :=
  ⟨h.flags, h.entries⟩

/-- Where names are unique, an entry is the child of that name. -/
theorem Shows.entry_iff (hu : Unique nodes) (d i : ℕ) (name : String) :
    (∃ q, v.entry d q = some (i, name)) ↔ child nodes d name = some i := by
  rw [h.entries]
  unfold child
  rw [map_eq_some_iff]
  constructor
  · rintro ⟨hi, n, hn, hd, hname⟩
    obtain ⟨hlt, hget⟩ := List.getElem?_eq_some_iff.mp hn
    refine ⟨i - 1, List.findIdx?_eq_some_iff_getElem.mpr
      ⟨hlt, by simp [hget, hd, hname], ?_⟩, by omega⟩
    -- an inode before it would have the same name
    intro j hj hsame
    have hsame' : nodes[j].dir = d ∧ nodes[j].name = name := by simpa using hsame
    have hlen : (nodes.map fun n => (n.dir, n.name)).length = nodes.length := length_map _
    have hpair : (nodes.map fun n => (n.dir, n.name))[j]
        = (nodes.map fun n => (n.dir, n.name))[i - 1] := by
      rw [getElem_map, getElem_map, hget, hsame'.1, hsame'.2, hd, hname]
    have heq := (List.Nodup.getElem_inj_iff hu).mp hpair
    omega
  · rintro ⟨j, hj, rfl⟩
    obtain ⟨hlt, hget, -⟩ := List.findIdx?_eq_some_iff_getElem.mp hj
    have hget' : nodes[j].dir = d ∧ nodes[j].name = name := by simpa using hget
    exact ⟨by omega, nodes[j], List.getElem?_eq_getElem hlt, hget'.1, hget'.2⟩

/-- **Entries lead where the list leads.** -/
theorem Shows.leads_iff (hu : Unique nodes) (parts : List String) :
    ∀ d j, v.Leads d parts j ↔ walk nodes d parts = some j := by
  induction parts with
  | nil =>
    intro d j
    constructor
    · intro hl
      cases hl
      rfl
    · intro hw
      cases hw
      exact .here d
  | cons name rest ih =>
    intro d j
    unfold walk
    constructor
    · intro hl
      cases hl with
      | entry hd he hrest =>
        rw [h.flags] at hd
        rw [if_pos hd, (h.entry_iff hu _ _ _).mp ⟨_, he⟩, bind_some]
        exact (ih _ _).mp hrest
    · intro hw
      by_cases hd : kindOf nodes d = F_DIR
      · rw [if_pos hd] at hw
        obtain ⟨i, hi, hrest⟩ := bind_eq_some_iff.mp hw
        obtain ⟨q, hq⟩ := (h.entry_iff hu _ _ _).mpr hi
        exact .entry (by rw [h.flags]; exact hd) hq ((ih _ _).mpr hrest)
      · rw [if_neg hd] at hw
        simp at hw

theorem Shows.searchesDirs (hu : Unique nodes) (parts : List String) :
    ∀ d, searches nodes d parts = true → v.SearchesDirs d parts := by
  induction parts with
  | nil => exact fun d _ => trivial
  | cons name rest ih =>
    intro d hs
    obtain ⟨hd, hrest⟩ := Bool.and_eq_true_iff.mp hs
    refine ⟨by rw [h.flags]; exact of_decide_eq_true hd, ?_⟩
    intro q i hq
    rw [(h.entry_iff hu _ _ _).mp ⟨q, hq⟩] at hrest
    exact ih i hrest

theorem Shows.walk_of_resolves (hu : Unique nodes) {d : UInt32}
    {parts : List String} {r : Option UInt32} (hr : v.Resolves d parts r) :
    walk nodes d.toNat parts = r.map UInt32.toNat := by
  induction hr with
  | here d => rfl
  | missing hd hno =>
    rename_i d name rest
    unfold walk
    rw [h.flags] at hd
    rw [if_pos hd]
    cases hchild : child nodes d.toNat name with
    | none => rfl
    | some i =>
      obtain ⟨q, hq⟩ := (h.entry_iff hu _ _ _).mpr hchild
      exact absurd hq (hno q i)
  | entry hd he _ ih =>
    unfold walk
    rw [h.flags] at hd
    rw [if_pos hd, (h.entry_iff hu _ _ _).mp ⟨_, he⟩, bind_some]
    exact ih

end

end

/-- **`lookup` on a disk that shows the tree.** -/
theorem lookup_of_shows {s : Fs} {nodes : List Node} (hc : s.geom.covers) (I : Inv s.blk)
    (h : Shows (view s.blk) nodes) (hu : Unique nodes) (path : String)
    (hs : searches nodes 0 (path_parts path) = true) : ∃ r t, lookup path s = .ok r t ∧ s.To t s.blk
      ∧ walk nodes 0 (path_parts path) = r.map UInt32.toNat := by
  obtain ⟨r, t, hrun, ht, hres⟩ := lookup_spec hc I path (h.searchesDirs hu _ 0 hs)
  exact ⟨r, t, hrun, ht, h.walk_of_resolves hu hres⟩

end HepOS.HepFS
