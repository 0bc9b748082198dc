/-
Searching in the editor (`kernel/src/editor.rs`).

`find_all` tries every column of every line, so overlapping occurrences count, and it pushes them in
the order in which they stand in the buffer. The two jumps rely on this order: the first match that
is not before the cursor is the nearest one, and counting the index round visits all of them.
-/
import Mathlib

set_option autoImplicit false

namespace HepOS.Edit

open List

structure Editor where
  lines : List (List UInt8)
  cursor_row : ℕ
  cursor_col : ℕ
  scroll_row : ℕ
  find_query : List UInt8
  find_matches : List (ℕ × ℕ)
  find_idx : ℕ

/-- The loop over the columns of line `r`. -/
def find_line (query line : List UInt8) (r c : ℕ) : List (ℕ × ℕ) :=
  if c + query.length ≤ line.length then
    (if (line.drop c).take query.length = query then [(r, c)] else [])
      ++ find_line query line r (c + 1)
  else []
termination_by line.length + 1 - c

namespace Editor

variable (e : Editor)

def find_all : Editor :=
  { e with find_matches :=
      if e.find_query.length = 0 then []
      else e.lines.zipIdx.flatMap fun (line, r) => find_line e.find_query line r 0 }

def ensure_visible : Editor :=
  if e.cursor_row < e.scroll_row then { e with scroll_row := e.cursor_row } else e

/-- Sets the index and goes to the match; there is none behind the end. -/
def select (idx : ℕ) : Option Editor :=
  e.find_matches[idx]?.map fun (r, c) =>
    { e with find_idx := idx, cursor_row := r, cursor_col := c }.ensure_visible

/-- At the cursor or behind it. -/
def ahead (p : ℕ × ℕ) : Prop := p.1 > e.cursor_row ∨ p.1 = e.cursor_row ∧ p.2 ≥ e.cursor_col

instance (p : ℕ × ℕ) : Decidable (e.ahead p) := inferInstanceAs (Decidable (_ ∨ _))

def find_jump_nearest : Option Editor :=
  if e.find_matches = [] then some e
  else e.select ((e.find_matches.findIdx? fun p => e.ahead p).getD 0)

def find_next : Option Editor :=
  if e.find_matches = [] then some e else e.select ((e.find_idx + 1) % e.find_matches.length)

/-- Where the cursor is after each of `n` calls of `find_next`. -/
def visits : ℕ → Editor → Option (List (ℕ × ℕ))
  | 0, _ => some []
  | n + 1, e => e.find_next.bind fun e => (visits n e).map ((e.cursor_row, e.cursor_col) :: ·)

/-- The query stands at this row and column. -/
def Occurs (p : ℕ × ℕ) : Prop := ∃ line, e.lines[p.1]? = some line ∧ e.find_query <+: line.drop p.2

end Editor

def Before (p q : ℕ × ℕ) : Prop := p.1 < q.1 ∨ p.1 = q.1 ∧ p.2 < q.2

variable {e : Editor} {query line : List UInt8} {p : ℕ × ℕ}

theorem mem_find_line (hq : query ≠ []) (r c : ℕ) :
    p ∈ find_line query line r c ↔ p.1 = r ∧ c ≤ p.2 ∧ query <+: line.drop p.2 := by
  induction c using find_line.induct query line with
  | case1 c hc ih =>
    rw [find_line, if_pos hc, mem_append, ih]
    have hhead : p ∈ (if (line.drop c).take query.length = query then [(r, c)] else [])
        ↔ p = (r, c) ∧ query <+: line.drop c := by
      rw [prefix_iff_eq_take, eq_comm (a := query)]
      split_ifs with heq <;> simp [heq]
    rw [hhead]
    constructor
    · rintro (⟨rfl, hpre⟩ | ⟨hr, hlt, hpre⟩)
      · exact ⟨rfl, le_rfl, hpre⟩
      · exact ⟨hr, by omega, hpre⟩
    · rintro ⟨hr, hle, hpre⟩
      rcases hle.eq_or_lt with rfl | hlt
      · exact .inl ⟨Prod.ext hr rfl, hpre⟩
      · exact .inr ⟨hr, hlt, hpre⟩
  | case2 c hc =>
    rw [find_line, if_neg hc]
    refine iff_of_false not_mem_nil fun ⟨_, hle, hpre⟩ => ?_
    have hlen := hpre.length_le
    have hpos := length_pos_iff.mpr hq
    rw [length_drop] at hlen
    omega

theorem find_line_sorted (hq : query ≠ []) (r c : ℕ) :
    (find_line query line r c).Pairwise Before := by
  induction c using find_line.induct query line with
  | case1 c hc ih =>
    rw [find_line, if_pos hc]
    split_ifs
    · refine pairwise_cons.mpr ⟨fun p hp => ?_, ih⟩
      obtain ⟨hr, hlt, -⟩ := (mem_find_line hq r (c + 1)).mp hp
      exact .inr ⟨hr.symm, hlt⟩
    · exact ih
  | case2 c hc =>
    rw [find_line, if_neg hc]
    exact .nil

theorem mem_find_all (hq : e.find_query ≠ []) : p ∈ e.find_all.find_matches ↔ e.Occurs p := by
  rw [Editor.find_all, if_neg (by simpa using hq), mem_flatMap]
  constructor
  · rintro ⟨⟨line, r⟩, hline, hp⟩
    obtain ⟨rfl, -, hpre⟩ := (mem_find_line hq r 0).mp hp
    exact ⟨line, mk_mem_zipIdx_iff_getElem?.mp hline, hpre⟩
  · rintro ⟨line, hline, hpre⟩
    exact ⟨(line, p.1), mk_mem_zipIdx_iff_getElem?.mpr hline,
      (mem_find_line hq p.1 0).mpr ⟨rfl, Nat.zero_le _, hpre⟩⟩

theorem find_all_sorted (hq : e.find_query ≠ []) : e.find_all.find_matches.Pairwise Before := by
  rw [Editor.find_all, if_neg (by simpa using hq), pairwise_flatMap]
  refine ⟨fun l _ => find_line_sorted hq l.2 0, ?_⟩
  have hrows : (e.lines.zipIdx.map Prod.snd).Pairwise (· < ·) := by
    rw [zipIdx_map_snd]
    exact pairwise_lt_range'
  refine (pairwise_map.mp hrows).imp fun hlt p hp q hq' => .inl ?_
  rw [((mem_find_line hq _ 0).mp hp).1, ((mem_find_line hq _ 0).mp hq').1]
  exact hlt

theorem select_spec {idx : ℕ} (hp : e.find_matches[idx]? = some p) : ∃ e', e.select idx = some e'
    ∧ e'.find_matches = e.find_matches ∧ e'.find_idx = idx
    ∧ (e'.cursor_row, e'.cursor_col) = p := by
  rw [Editor.select, hp]
  refine ⟨_, rfl, ?_⟩
  dsimp only [Editor.ensure_visible]
  split_ifs
  all_goals exact ⟨rfl, rfl, rfl⟩

/-- The calls go round the matches, from the one behind the current one. -/
theorem visits_eq {n : ℕ} (hn : n ≤ e.find_matches.length) :
    e.visits n = some ((e.find_matches.rotate (e.find_idx + 1)).take n) := by
  induction n generalizing e with
  | zero => rfl
  | succ n ih =>
    have hlen := length_rotate e.find_matches (e.find_idx + 1)
    cases hrot : e.find_matches.rotate (e.find_idx + 1) with
    | nil => simp [hrot] at hlen; omega
    | cons a l =>
      have ha : e.find_matches[(e.find_idx + 1) % e.find_matches.length]? = some a := by
        rw [← Nat.zero_add (e.find_idx + 1), ← getElem?_rotate (by omega), hrot]
        rfl
      obtain ⟨e', hsel, hmatches, hidx, hcursor⟩ := select_spec ha
      have hne : e.find_matches ≠ [] := fun h => by simp [h] at hn
      have hrot' : e'.find_matches.rotate (e'.find_idx + 1) = l ++ [a] := by
        rw [hmatches, hidx, ← rotate_rotate, rotate_mod, hrot, rotate_cons_succ, rotate_zero]
      rw [hrot, length_cons] at hlen
      rw [Editor.visits, Editor.find_next, if_neg hne, hsel, Option.bind_some,
        ih (by rw [hmatches]; omega), hcursor, hrot', take_append_of_le_length (by omega)]
      rfl

/-- The match the list gives first among those ahead, or first of all. -/
theorem nearest_of_sorted {l : List (ℕ × ℕ)} (hl : l ≠ []) (hsorted : l.Pairwise Before)
    (ahead : ℕ × ℕ → Prop) [DecidablePred ahead] : ∃ p ∈ l,
      l[(l.findIdx? fun p => ahead p).getD 0]? = some p
      ∧ ∀ q ∈ l, (ahead q → ahead p) ∧ ((ahead p → ahead q) → q = p ∨ Before p q) := by
  cases hfind : l.findIdx? fun p => ahead p with
  | none =>
    have hnone := findIdx?_eq_none_iff.mp hfind
    obtain ⟨a, l, rfl⟩ := exists_cons_of_ne_nil hl
    refine ⟨a, mem_cons_self, rfl, fun q hq =>
      ⟨fun h => absurd h (of_decide_eq_false (hnone q hq)), fun _ => ?_⟩⟩
    rcases mem_cons.mp hq with rfl | hq
    · exact .inl rfl
    · exact .inr (rel_of_pairwise_cons hsorted hq)
  | some i =>
    obtain ⟨hi, hahead, hfirst⟩ := findIdx?_eq_some_iff_getElem.mp hfind
    have hahead := of_decide_eq_true hahead
    refine ⟨l[i], getElem_mem hi, getElem?_eq_getElem hi,
      fun q hq => ⟨fun _ => hahead, fun h => ?_⟩⟩
    obtain ⟨j, hj, rfl⟩ := getElem_of_mem hq
    rcases Nat.lt_trichotomy i j with hij | rfl | hij
    · exact .inr (pairwise_iff_getElem.mp hsorted i j hi hj hij)
    · exact .inl rfl
    · exact absurd (decide_eq_true (h hahead)) (hfirst j hij)

/-- `find_jump_nearest` goes to the first occurrence that is ahead, or to the first one if none
is. -/
structure Nearest (e : Editor) (p : ℕ × ℕ) : Prop where
  occurs : e.Occurs p
  ahead : ∀ q, e.Occurs q → e.ahead q → e.ahead p
  first : ∀ q, e.Occurs q → (e.ahead p → e.ahead q) → q = p ∨ Before p q

/-- **Searching.** The matches are the occurrences, in order; the jump goes to the nearest one; and
`find_next`, from wherever it is called, comes to every one of them once before it comes to one
again. -/
theorem search_correct (e : Editor) (hq : e.find_query ≠ []) :
    (∀ p, p ∈ e.find_all.find_matches ↔ e.Occurs p) ∧ e.find_all.find_matches.Pairwise Before
    ∧ (∀ p, e.Occurs p → ∃ e', e.find_all.find_jump_nearest = some e'
      ∧ Nearest e (e'.cursor_row, e'.cursor_col))
    ∧ ∀ e' : Editor, e'.find_matches = e.find_all.find_matches →
        ∃ l, e'.visits e'.find_matches.length = some l ∧ l.Perm e'.find_matches := by
  refine ⟨fun p => mem_find_all hq, find_all_sorted hq, fun p hp => ?_, fun e' _ => ?_⟩
  · have hne : e.find_all.find_matches ≠ [] := ne_nil_of_mem ((mem_find_all hq).mpr hp)
    obtain ⟨p, hp, hget, hnear⟩ := nearest_of_sorted hne (find_all_sorted hq) e.ahead
    obtain ⟨e', hsel, -, -, hcursor⟩ := select_spec hget
    refine ⟨e', by rw [Editor.find_jump_nearest, if_neg hne]; exact hsel, ?_⟩
    rw [hcursor]
    exact ⟨(mem_find_all hq).mp hp, fun q hq' => (hnear q ((mem_find_all hq).mpr hq')).1,
      fun q hq' => (hnear q ((mem_find_all hq).mpr hq')).2⟩
  · rw [visits_eq le_rfl, take_of_length_le (length_rotate _ _).le]
    exact ⟨_, rfl, rotate_perm _ _⟩

/-- Two lines, and three occurrences of which two overlap. -/
def banana : Editor := ⟨[[98, 97, 110, 97, 110, 97], [97, 110, 97]], 0, 2, 0, [97, 110, 97], [], 0⟩

theorem search_correct_banana : banana.find_all.find_matches = [(0, 1), (0, 3), (1, 0)]
    ∧ ∃ e', banana.find_all.find_jump_nearest = some e'
    ∧ Nearest banana (e'.cursor_row, e'.cursor_col) :=
  ⟨by decide +kernel, (search_correct banana (by decide)).2.2.1 (0, 1) ⟨_, rfl, by decide⟩⟩

end HepOS.Edit
