/-
The page allocator called by several tasks at once (`pmm.rs`).

There is no lock. Every load, `fetch_or`, `fetch_and` and change of the counter is one step, and the
timer may bring in another task between any two of them. `alloc_page` looks at what its `fetch_or`
returns: if the bit was set it goes on to the next word, so whoever sets the bit first has the page.
`alloc_contiguous` does not look. It reads the bits of the whole run first and then sets them, and
takes the pages for its own whatever happened in between.

So the pages a run has been seen to have are what matters: `sees`. They are nobody's, and they stay
nobody's unless another task claims one of them in the meantime. `owners` keeps the tasks a page was
handed to, for the statements only.
-/
import HepOS.Pmm.Accounting

set_option autoImplicit false

namespace HepOS.Phys.Shared

open Trace Phys Function

/-! ## The calls, one atomic operation at a time -/

/-- The operation of a call that comes next. -/
inductive Op
  | idle
  /-- `alloc_page`: load word `i`, set the bit, count -/
  | page_load (i : ℕ)
  | page_or (i bit : ℕ)
  | page_sub (page : ℕ)
  /-- `alloc_contiguous`: load the bit of page `i + j`, set it, count -/
  | run_load (count i j : ℕ)
  | run_or (count i j : ℕ)
  | run_sub (count i : ℕ)
  /-- `free_page`: clear the bit, count -/
  | free_and (page : ℕ)
  | free_add
deriving DecidableEq, Repr

structure State (n : ℕ) where
  pmm : Pmm
  op : Fin n → Op
  owners : ℕ → List (Fin n)

/-- No call is under way, and no page was handed out yet. -/
def State.start (n : ℕ) (p : Pmm) : State n := ⟨p, fun _ => .idle, fun _ => []⟩

def next_word (i : ℕ) : Op := if i + 1 < MAX_PAGES / 64 then .page_load (i + 1) else .idle

def next_start (count i : ℕ) : Op := if i + 1 < MAX_PAGES then .run_load count (i + 1) 0 else .idle

def load_word (p : Pmm) (i : ℕ) : Op :=
  let val := p.bitmap i
  if val = BitVec.allOnes 64 then next_word i
  else
    let bit := trailing_ones val
    if MAX_PAGES ≤ i * 64 + bit then .idle else .page_or i bit

def load_page (p : Pmm) (count i j : ℕ) : Op :=
  if MAX_PAGES ≤ i + j then .idle
  else if is_used p (i + j) then next_start count i
  else if j + 1 < count then .run_load count i (j + 1)
  else .run_or count i 0

variable {o : Op} {count i page : ℕ}

section

variable {n : ℕ}

/-- The task gets the pages. -/
def give (owners : ℕ → List (Fin n)) (t : Fin n) (first count : ℕ) : ℕ → List (Fin n) :=
  fun q => if first ≤ q ∧ q < first + count then t :: owners q else owners q

section

variable (s : State n)

/-- The next operation of a task. -/
def step (t : Fin n) : Option (State n) :=
  match s.op t with
  | .idle => none
  | .page_load i => some { s with op := update s.op t (load_word s.pmm i) }
  | .page_or i bit =>
    let old := s.pmm.bitmap i
    some { s with
      pmm := ⟨update s.pmm.bitmap i (old ||| (1#64 <<< bit)), s.pmm.free_pages⟩
      op := update s.op t
        (if old &&& (1#64 <<< bit) = 0 then .page_sub (i * 64 + bit) else next_word i) }
  | .page_sub page =>
    some ⟨⟨s.pmm.bitmap, s.pmm.free_pages - 1⟩, update s.op t .idle, give s.owners t page 1⟩
  | .run_load count i j => some { s with op := update s.op t (load_page s.pmm count i j) }
  | .run_or count i j =>
    some { s with
      pmm := ⟨set_used s.pmm.bitmap (i + j), s.pmm.free_pages⟩
      op := update s.op t
        (if j + 1 < count then .run_or count i (j + 1) else .run_sub count i) }
  | .run_sub count i =>
    some ⟨⟨s.pmm.bitmap, s.pmm.free_pages - UInt64.ofNat count⟩, update s.op t .idle,
      give s.owners t i count⟩
  | .free_and page =>
    some { s with
      pmm := ⟨set_free s.pmm.bitmap page, s.pmm.free_pages⟩
      op := update s.op t .free_add }
  | .free_add =>
    some { s with
      pmm := ⟨s.pmm.bitmap, s.pmm.free_pages + 1⟩, op := update s.op t .idle }

inductive Label (n : ℕ)
  | alloc_page (t : Fin n)
  | alloc_contiguous (t : Fin n) (count : ℕ)
  | free_page (t : Fin n) (page : ℕ)
  | step (t : Fin n)
deriving DecidableEq, Repr

/-- A task makes one call after another, and frees only pages it owns. -/
def next : Label n → Option (State n)
  | .alloc_page t =>
    if s.op t = .idle then some { s with op := update s.op t (.page_load 0) } else none
  | .alloc_contiguous t count =>
    if s.op t = .idle then
      some { s with
        op := update s.op t (if count = 0 then .run_sub 0 0 else .run_load count 0 0) }
    else none
  | .free_page t page =>
    if s.op t = .idle ∧ t ∈ s.owners page ∧ page < MAX_PAGES then
      some { s with
        op := update s.op t (.free_and page)
        owners := update s.owners page ((s.owners page).erase t) }
    else none
  | .step t => step s t

def Next (a : Label n) (u : State n) : Prop := next s a = some u

/-! ## What is wanted, and when it holds -/

/-- No page has two owners. -/
def Exclusive : Prop := ∀ page, (s.owners page).length ≤ 1

/-- The pages a run was seen to have free and does not have yet. -/
def Op.sees : Op → ℕ → Bool
  | .run_load _ i j, q => decide (i ≤ q ∧ q < i + j)
  | .run_or count i j, q => decide (i + j ≤ q ∧ q < i + count)
  | _, _ => false

/-- The pages a call has, between its claim and the hand-out or between the hand-back and the
clearing. -/
def Op.holds : Op → ℕ → Bool
  | .page_sub page, q => decide (q = page)
  | .run_or _ i j, q => decide (i ≤ q ∧ q < i + j)
  | .run_sub count i, q => decide (i ≤ q ∧ q < i + count)
  | .free_and page, q => decide (q = page)
  | _, _ => false

/-- The page the next operation of a task takes. -/
def claims (t : Fin n) : Option ℕ :=
  match s.op t with
  | .page_or i bit =>
    if s.pmm.bitmap i &&& (1#64 <<< bit) = 0 then some (i * 64 + bit) else none
  | .run_or _ i j => some (i + j)
  | _ => none

/-- No page is taken that another task's `alloc_contiguous` has seen free. -/
def Apart : Label n → Prop
  | .step t =>
    match claims s t with
    | some page => ∀ t', t' ≠ t → (s.op t').sees page = false
    | none => True
  | _ => True

instance (a : Label n) : Decidable (Apart s a) := by
  unfold Apart
  cases a with
  | step t =>
    dsimp only
    cases claims s t with
    | none => exact instDecidableTrue
    | some page => exact inferInstanceAs (Decidable (∀ t', t' ≠ t → (s.op t').sees page = false))
  | _ => exact instDecidableTrue

def NextApart (a : Label n) (u : State n) : Prop := next s a = some u ∧ Apart s a

/-! ## The invariant -/

/-- What an operation says of its own arguments. -/
def Op.Shaped : Op → Prop
  | .page_or _ bit => bit < 64
  | .run_load count _ _ => 0 < count
  | .run_or count _ j => j < count
  | _ => True

/-- Every page is owned by one task, held by one call or free, and pages that were seen free are. -/
structure Inv : Prop where
  single : Exclusive s
  unowned : ∀ t q, (s.op t).holds q = true → s.owners q = []
  apart : ∀ t t' q, (s.op t).holds q = true → (s.op t').holds q = true → t = t'
  owned : ∀ q, s.owners q ≠ [] → is_used s.pmm q = true
  held : ∀ t q, (s.op t).holds q = true → is_used s.pmm q = true
  seen : ∀ t q, (s.op t).sees q = true → is_used s.pmm q = false
  shaped : ∀ t, (s.op t).Shaped

end

theorem inv_start (p : Pmm) : Inv (State.start n p) where
  single _ := Nat.zero_le 1
  unowned _ _ h := absurd h (by simp [State.start, Op.holds])
  apart _ _ _ h := absurd h (by simp [State.start, Op.holds])
  owned _ h := absurd rfl h
  held _ _ h := absurd h (by simp [State.start, Op.holds])
  seen _ _ h := absurd h (by simp [State.start, Op.sees])
  shaped _ := trivial

variable {s u : State n} {t : Fin n}

section

variable (h : Inv s)

include h

theorem Inv.nobody {q : ℕ} (hq : is_used s.pmm q = false) :
    s.owners q = [] ∧ ∀ t, (s.op t).holds q = false := by
  refine ⟨?_, fun t => ?_⟩
  · by_contra hne
    rw [h.owned q hne] at hq
    exact absurd hq (by decide)
  · rw [← Bool.not_eq_true]
    intro hholds
    rw [h.held t q hholds] at hq
    exact absurd hq (by decide)

theorem Inv.shaped_update (ho : o.Shaped) : ∀ t', (update s.op t o t').Shaped := by
  rw [Function.forall_update_iff s.op]
  exact ⟨ho, fun t' _ => h.shaped t'⟩

theorem Inv.shaped_of (hop : s.op t = o) : o.Shaped := hop ▸ h.shaped t

/-- An operation that has seen nothing changes nothing for the others. -/
theorem Inv.seen_update (ho : ∀ q, o.sees q = false) {t' : Fin n} {q : ℕ}
    (hq : (update s.op t o t').sees q = true) : is_used s.pmm q = false := by
  by_cases ht : t' = t
  · rw [ht, update_self, ho] at hq
    exact absurd hq (by decide)
  · rw [update_of_ne ht] at hq
    exact h.seen t' q hq

/-- A call that holds the page `page` and nothing that was another's. -/
theorem Inv.apart_update
    (hholds : ∀ t' q, (update s.op t o t').holds q = true →
      ((s.op t').holds q = true ∧ q ≠ page) ∨ (t' = t ∧ q = page)) (t1 t2 : Fin n) (q : ℕ)
    (h1 : (update s.op t o t1).holds q = true) (h2 : (update s.op t o t2).holds q = true) :
    t1 = t2 := by
  rcases hholds t1 q h1 with ⟨hold1, hne⟩ | ⟨rfl, rfl⟩
  · rcases hholds t2 q h2 with ⟨hold2, -⟩ | ⟨-, heq⟩
    · exact h.apart t1 t2 q hold1 hold2
    · exact absurd heq hne
  · rcases hholds t2 q h2 with ⟨-, hne⟩ | ⟨rfl, -⟩
    · exact absurd rfl hne
    · rfl

/-- An operation of a task that neither takes a page nor gives one away. -/
theorem Inv.goes_on {p : Pmm} (hused : ∀ q, is_used p q = is_used s.pmm q)
    (hholds : ∀ q, o.holds q = true → (s.op t).holds q = true)
    (hsees : ∀ q, o.sees q = true → is_used s.pmm q = false) (hshaped : o.Shaped) :
    Inv { s with pmm := p, op := update s.op t o } := by
  have hholds' : ∀ t' q, (update s.op t o t').holds q = true → (s.op t').holds q = true := by
    intro t' q
    by_cases ht : t' = t
    · subst ht
      rw [update_self]
      exact hholds q
    · rw [update_of_ne ht]
      exact id
  refine ⟨h.single, fun t' q hq => h.unowned t' q (hholds' t' q hq),
    fun t1 t2 q h1 h2 => h.apart t1 t2 q (hholds' t1 q h1) (hholds' t2 q h2),
    fun q hq => ?_, fun t' q hq => ?_, fun t' q hq => ?_, h.shaped_update hshaped⟩
  · rw [hused]
    exact h.owned q hq
  · rw [hused]
    exact h.held t' q (hholds' t' q hq)
  · rw [hused]
    dsimp only at hq
    by_cases ht : t' = t
    · subst ht
      rw [update_self] at hq
      exact hsees q hq
    · rw [update_of_ne ht] at hq
      exact h.seen t' q hq

/-- An operation that takes the free page `page`, which no other call has seen. -/
theorem Inv.takes {p : Pmm} (hfree : is_used s.pmm page = false)
    (hused : ∀ q, is_used p q = (is_used s.pmm q || decide (q = page)))
    (hholds : ∀ q, o.holds q = true → (s.op t).holds q = true ∨ q = page)
    (hsees : ∀ q, o.sees q = true → (s.op t).sees q = true ∧ q ≠ page)
    (hshaped : o.Shaped) (hapart : ∀ t', t' ≠ t → (s.op t').sees page = false) :
    Inv { s with pmm := p, op := update s.op t o } := by
  obtain ⟨hnone, hnobody⟩ := h.nobody hfree
  -- what a task holds now it held before, or it is this page and this task
  have hholds' : ∀ t' q, (update s.op t o t').holds q = true →
      ((s.op t').holds q = true ∧ q ≠ page) ∨ (t' = t ∧ q = page) := by
    intro t' q hq
    by_cases ht : t' = t
    · subst ht
      rw [update_self] at hq
      by_cases hpage : q = page
      · exact .inr ⟨rfl, hpage⟩
      · exact .inl ⟨(hholds q hq).resolve_right hpage, hpage⟩
    · rw [update_of_ne ht] at hq
      refine .inl ⟨hq, ?_⟩
      rintro rfl
      rw [hnobody t'] at hq
      exact absurd hq (by decide)
  refine ⟨h.single, fun t' q hq => ?_, h.apart_update hholds', fun q hq => ?_, fun t' q hq => ?_,
    fun t' q hq => ?_, h.shaped_update hshaped⟩
  · rcases hholds' t' q hq with ⟨hold, -⟩ | ⟨-, rfl⟩
    · exact h.unowned t' q hold
    · exact hnone
  · dsimp only
    rw [hused, h.owned q hq, Bool.true_or]
  · dsimp only
    rcases hholds' t' q hq with ⟨hold, -⟩ | ⟨-, rfl⟩
    · rw [hused, h.held t' q hold, Bool.true_or]
    · rw [hused, decide_eq_true rfl, Bool.or_true]
  · dsimp only at hq ⊢
    have hold : (s.op t').sees q = true ∧ q ≠ page := by
      by_cases ht : t' = t
      · subst ht
        rw [update_self] at hq
        exact hsees q hq
      · rw [update_of_ne ht] at hq
        refine ⟨hq, ?_⟩
        rintro rfl
        rw [hapart t' ht] at hq
        exact absurd hq (by decide)
    rw [hused, h.seen t' q hold.1, decide_eq_false hold.2]
    rfl

/-- The last operation of an allocation: the pages the call holds become the task's. -/
theorem Inv.hands_out {c : UInt64} {first : ℕ}
    (hholds : ∀ q, first ≤ q → q < first + count → (s.op t).holds q = true) :
    Inv ⟨⟨s.pmm.bitmap, c⟩, update s.op t .idle, give s.owners t first count⟩ := by
  have hop : ∀ t' q, (update s.op t .idle t').holds q = true →
      (s.op t').holds q = true ∧ t' ≠ t := by
    intro t' q hq
    by_cases ht : t' = t
    · subst ht
      exact absurd hq (by simp [Op.holds])
    · rw [update_of_ne ht] at hq
      exact ⟨hq, ht⟩
  refine ⟨fun q => ?_, fun t' q hq => ?_, fun t1 t2 q h1 h2 => ?_, fun q hq => ?_,
    fun t' q hq => ?_, fun _ _ => h.seen_update fun _ => rfl, h.shaped_update trivial⟩
  · dsimp only
    unfold give
    by_cases hin : first ≤ q ∧ q < first + count
    · rw [if_pos hin, h.unowned t q (hholds q hin.1 hin.2)]
      exact Nat.le_refl 1
    · rw [if_neg hin]
      exact h.single q
  · obtain ⟨hold, hne⟩ := hop t' q hq
    dsimp only
    unfold give
    rw [if_neg, h.unowned t' q hold]
    exact fun hin => hne (h.apart t' t q hold (hholds q hin.1 hin.2))
  · exact h.apart t1 t2 q (hop t1 q h1).1 (hop t2 q h2).1
  · dsimp only at hq
    unfold give at hq
    by_cases hin : first ≤ q ∧ q < first + count
    · exact h.held t q (hholds q hin.1 hin.2)
    · rw [if_neg hin] at hq
      exact h.owned q hq
  · exact h.held t' q (hop t' q hq).1

/-- A hand-back: the page is the call's, and nobody else's. -/
theorem Inv.free_page {page : ℕ} (hop : s.op t = .idle) (hown : t ∈ s.owners page) :
    Inv { s with
      op := update s.op t (.free_and page)
      owners := update s.owners page ((s.owners page).erase t) } := by
  -- who frees is the only owner
  have hsingle : s.owners page = [t] := by
    have hlen := h.single page
    match hl : s.owners page with
    | [] =>
      rw [hl] at hown
      simp at hown
    | [t'] =>
      rw [hl] at hown
      rw [List.mem_singleton.mp hown]
    | _ :: _ :: _ =>
      rw [hl] at hlen
      simp at hlen
  have hnone : (s.owners page).erase t = [] := by
    rw [hsingle]
    simp
  have hused : is_used s.pmm page = true := h.owned page (by rw [hsingle]; simp)
  have hholds : ∀ t' q, (update s.op t (.free_and page) t').holds q = true →
      ((s.op t').holds q = true ∧ q ≠ page) ∨ (t' = t ∧ q = page) := by
    intro t' q hq
    by_cases ht : t' = t
    · subst ht
      rw [update_self] at hq
      exact .inr ⟨rfl, of_decide_eq_true hq⟩
    · rw [update_of_ne ht] at hq
      refine .inl ⟨hq, ?_⟩
      rintro rfl
      have := h.unowned t' q hq
      rw [hsingle] at this
      simp at this
  refine ⟨fun q => ?_, fun t' q hq => ?_, h.apart_update hholds, fun q hq => ?_, fun t' q hq => ?_,
    fun _ _ => h.seen_update fun _ => rfl, h.shaped_update trivial⟩
  · dsimp only
    by_cases hq : q = page
    · rw [hq, update_self, hnone]
      exact Nat.zero_le 1
    · rw [update_of_ne hq]
      exact h.single q
  · dsimp only
    rcases hholds t' q hq with ⟨hold, hne⟩ | ⟨-, rfl⟩
    · rw [update_of_ne hne]
      exact h.unowned t' q hold
    · rw [update_self, hnone]
  · dsimp only at hq
    by_cases hpage : q = page
    · rw [hpage]
      exact hused
    · rw [update_of_ne hpage] at hq
      exact h.owned q hq
  · rcases hholds t' q hq with ⟨hold, -⟩ | ⟨-, rfl⟩
    · exact h.held t' q hold
    · exact hused

/-- The bit of a page that is being given back is cleared, which makes the page nobody's. -/
theorem Inv.clears {page : ℕ} (hop : s.op t = .free_and page) :
    Inv { s with
      pmm := ⟨set_free s.pmm.bitmap page, s.pmm.free_pages⟩
      op := update s.op t .free_add } := by
  have hmine : (s.op t).holds page = true := by
    rw [hop]
    exact decide_eq_true rfl
  have hused : ∀ q, is_used ⟨set_free s.pmm.bitmap page, s.pmm.free_pages⟩ q
      = (is_used s.pmm q && decide (q ≠ page)) := fun q => is_used_set_free _ _ _ _
  have hholds : ∀ t' q, (update s.op t .free_add t').holds q = true →
      (s.op t').holds q = true ∧ q ≠ page := by
    intro t' q hq
    by_cases ht : t' = t
    · subst ht
      exact absurd hq (by simp [Op.holds])
    · rw [update_of_ne ht] at hq
      refine ⟨hq, ?_⟩
      rintro rfl
      exact ht (h.apart t' t q hq hmine)
  refine ⟨h.single, fun t' q hq => h.unowned t' q (hholds t' q hq).1,
    fun t1 t2 q h1 h2 => h.apart t1 t2 q (hholds t1 q h1).1 (hholds t2 q h2).1,
    fun q hq => ?_, fun t' q hq => ?_, fun t' q hq => ?_, h.shaped_update trivial⟩
  · have hne : q ≠ page := by
      rintro rfl
      exact hq (h.unowned t q hmine)
    rw [hused, h.owned q hq, decide_eq_true hne]
    rfl
  · obtain ⟨hold, hne⟩ := hholds t' q hq
    rw [hused, h.held t' q hold, decide_eq_true hne]
    rfl
  · rw [hused, h.seen_update (fun _ => rfl) hq]
    rfl

end

/-! ## One step -/

/-- Loads and failed claims lead to operations that hold nothing. -/
theorem holds_next_word (i q : ℕ) : (next_word i).holds q = false := by
  unfold next_word
  split <;> rfl

theorem sees_next_word (i q : ℕ) : (next_word i).sees q = false := by
  unfold next_word
  split <;> rfl

theorem shaped_next_word (i : ℕ) : (next_word i).Shaped := by
  unfold next_word
  split <;> exact trivial

theorem load_word_spec (p : Pmm) (i : ℕ) :
    (∀ q, (load_word p i).holds q = false ∧ (load_word p i).sees q = false)
      ∧ (load_word p i).Shaped := by
  unfold load_word
  dsimp only
  by_cases hfull : p.bitmap i = BitVec.allOnes 64
  · rw [if_pos hfull]
    exact ⟨fun q => ⟨holds_next_word i q, sees_next_word i q⟩, shaped_next_word i⟩
  · rw [if_neg hfull]
    split_ifs
    · exact ⟨fun q => ⟨rfl, rfl⟩, trivial⟩
    · exact ⟨fun q => ⟨rfl, rfl⟩, (trailing_ones_spec hfull).1⟩

/-- A load of `alloc_contiguous`: the pages seen are those of before and the one just loaded. -/
theorem load_page_spec (p : Pmm) (hcount : 0 < count) (i j : ℕ) :
    (∀ q, (load_page p count i j).holds q = false)
    ∧ (∀ q, (load_page p count i j).sees q = true → (Op.run_load count i j).sees q = true
      ∨ is_used p q = false)
    ∧ (load_page p count i j).Shaped := by
  unfold load_page
  by_cases hmax : MAX_PAGES ≤ i + j
  · rw [if_pos hmax]
    exact ⟨fun q => rfl, fun q hq => absurd hq (by simp [Op.sees]), trivial⟩
  · rw [if_neg hmax]
    by_cases hused : is_used p (i + j) = true
    · rw [if_pos hused]
      unfold next_start
      split_ifs
      · refine ⟨fun q => rfl, fun q hq => ?_, hcount⟩
        have hq := of_decide_eq_true hq
        omega
      · exact ⟨fun q => rfl, fun q hq => absurd hq (by simp [Op.sees]), trivial⟩
    · rw [if_neg hused]
      -- `q` was seen before, or is the page that was just found free
      have hseen : ∀ q, i ≤ q → q < i + (j + 1) →
          (Op.run_load count i j).sees q = true ∨ is_used p q = false := by
        intro q hlow hhigh
        by_cases hq : q = i + j
        · rw [hq]
          exact .inr (by simpa using hused)
        · exact .inl (decide_eq_true ⟨hlow, by omega⟩)
      split_ifs with hmore
      · refine ⟨fun q => rfl, fun q hq => ?_, hcount⟩
        have hq := of_decide_eq_true hq
        exact hseen q hq.1 hq.2
      · refine ⟨fun q => ?_, fun q hq => ?_, hcount⟩
        · exact decide_eq_false (by omega)
        · have hq := of_decide_eq_true hq
          exact hseen q (by omega) (by omega)

theorem Apart.claims (h : Apart s (.step t)) (hclaims : Shared.claims s t = some page) :
    ∀ t', t' ≠ t → (s.op t').sees page = false := by
  unfold Apart at h
  dsimp only at h
  rw [hclaims] at h
  exact h

/-- `fetch_or` sees whether the page was free. -/
theorem mask_eq_zero_iff (p : Pmm) {bit : ℕ} (hbit : bit < 64) :
    p.bitmap i &&& (1#64 <<< bit) = 0 ↔ is_used p (i * 64 + bit) = false := by
  unfold is_used
  rw [show (i * 64 + bit) / 64 = i by omega, show (i * 64 + bit) % 64 = bit by omega]
  simp

theorem Inv.page_or (h : Inv s) {i bit : ℕ} (hop : s.op t = .page_or i bit)
    (hok : Apart s (.step t)) :
    Inv { s with
      pmm := ⟨update s.pmm.bitmap i (s.pmm.bitmap i ||| (1#64 <<< bit)), s.pmm.free_pages⟩
      op := update s.op t
        (if s.pmm.bitmap i &&& (1#64 <<< bit) = 0 then .page_sub (i * 64 + bit)
          else next_word i) } := by
  have hbit : bit < 64 := h.shaped_of hop
  have hused := fun q => is_used_update (p := s.pmm) (i := i) hbit s.pmm.free_pages q
  by_cases hzero : s.pmm.bitmap i &&& (1#64 <<< bit) = 0
  · rw [if_pos hzero]
    have hfree := (mask_eq_zero_iff s.pmm hbit).mp hzero
    apply h.takes hfree hused
    · exact fun q hq => .inr (of_decide_eq_true hq)
    · exact fun q hq => absurd hq (by simp [Op.sees])
    · exact trivial
    · apply hok.claims
      unfold Shared.claims
      rw [hop]
      exact if_pos hzero
  · -- somebody else was faster: the bit was set already
    rw [if_neg hzero]
    have hset : is_used s.pmm (i * 64 + bit) = true := by
      rw [← Bool.not_eq_false]
      exact fun hfree => hzero ((mask_eq_zero_iff s.pmm hbit).mpr hfree)
    apply h.goes_on
    · intro q
      rw [hused q]
      by_cases hq : q = i * 64 + bit
      · rw [hq, hset]
        rfl
      · rw [decide_eq_false hq, Bool.or_false]
    · intro q hq
      rw [holds_next_word] at hq
      exact absurd hq (by decide)
    · intro q hq
      rw [sees_next_word] at hq
      exact absurd hq (by decide)
    · exact shaped_next_word i

theorem Inv.run_or (h : Inv s) {count i j : ℕ} (hop : s.op t = .run_or count i j)
    (hok : Apart s (.step t)) :
    Inv { s with
      pmm := ⟨set_used s.pmm.bitmap (i + j), s.pmm.free_pages⟩
      op := update s.op t
        (if j + 1 < count then .run_or count i (j + 1) else .run_sub count i) } := by
  have hj : j < count := h.shaped_of hop
  have hfree : is_used s.pmm (i + j) = false := by
    apply h.seen t
    rw [hop]
    exact decide_eq_true ⟨le_rfl, by omega⟩
  apply h.takes hfree fun q => is_used_set_used _ _ _ _
  · intro q hq
    rw [hop]
    by_cases hq' : q = i + j
    · exact .inr hq'
    · refine .inl (decide_eq_true ?_)
      split_ifs at hq
      all_goals
        have := of_decide_eq_true hq
        omega
  · intro q hq
    rw [hop]
    split_ifs at hq
    · have := of_decide_eq_true hq
      exact ⟨decide_eq_true (by omega), by omega⟩
    · exact absurd hq (by simp [Op.sees])
  · split_ifs with hmore
    · exact hmore
    · exact trivial
  · apply hok.claims
    unfold Shared.claims
    rw [hop]

theorem Inv.task_step (h : Inv s) (hstep : Shared.step s t = some u)
    (hok : Apart s (.step t)) : Inv u := by
  unfold Shared.step at hstep
  -- loads look, `or` claims, `sub` hands out, `and` gives back
  cases hop : s.op t with (rw [hop] at hstep)
  | idle =>
    simp at hstep
  | page_load i =>
    cases hstep
    obtain ⟨hload, hshaped⟩ := load_word_spec s.pmm i
    apply h.goes_on (fun q => rfl) _ _ hshaped
    · intro q hq
      rw [(hload q).1] at hq
      exact absurd hq (by decide)
    · intro q hq
      rw [(hload q).2] at hq
      exact absurd hq (by decide)
  | page_or i bit =>
    cases hstep
    exact h.page_or hop hok
  | page_sub page =>
    cases hstep
    apply h.hands_out
    intro q hlow hhigh
    rw [hop]
    exact decide_eq_true (by omega)
  | run_load count i j =>
    cases hstep
    have hcount : 0 < count := h.shaped_of hop
    obtain ⟨hholds, hsees, hshaped⟩ := load_page_spec s.pmm hcount i j
    apply h.goes_on (fun q => rfl) _ _ hshaped
    · intro q hq
      rw [hholds q] at hq
      exact absurd hq (by decide)
    · intro q hq
      rcases hsees q hq with hold | hfree
      · apply h.seen t
        rw [hop]
        exact hold
      · exact hfree
  | run_or count i j =>
    cases hstep
    exact h.run_or hop hok
  | run_sub count i =>
    cases hstep
    apply h.hands_out
    intro q hlow hhigh
    rw [hop]
    exact decide_eq_true ⟨hlow, hhigh⟩
  | free_and page =>
    cases hstep
    exact h.clears hop
  | free_add =>
    cases hstep
    refine h.goes_on (fun q => rfl) ?_ ?_ ?_
    · exact fun q hq => absurd hq (by simp [Op.holds])
    · exact fun q hq => absurd hq (by simp [Op.sees])
    · exact trivial

/-- **One step** that is apart keeps the invariant. -/
theorem Inv.step (h : Inv s) {a : Label n} (hstep : NextApart s a u) : Inv u := by
  obtain ⟨hnext, hok⟩ := hstep
  unfold next at hnext
  cases a with
  | alloc_page t =>
    dsimp only at hnext
    split_ifs at hnext
    cases hnext
    apply h.goes_on (fun q => rfl)
    · exact fun q hq => absurd hq (by simp [Op.holds])
    · exact fun q hq => absurd hq (by simp [Op.sees])
    · exact trivial
  | alloc_contiguous t count =>
    dsimp only at hnext
    by_cases hop : s.op t = .idle
    · rw [if_pos hop] at hnext
      cases hnext
      -- a run that has only begun holds and has seen nothing
      apply h.goes_on (fun q => rfl)
      · intro q hq
        split_ifs at hq
        all_goals exact absurd hq (by simp [Op.holds])
      · intro q hq
        split_ifs at hq
        all_goals exact absurd hq (by simp [Op.sees])
      · split_ifs with hzero
        · exact trivial
        · exact Nat.pos_of_ne_zero hzero
    · rw [if_neg hop] at hnext
      simp at hnext
  | free_page t page =>
    dsimp only at hnext
    split_ifs at hnext with hown
    cases hnext
    exact h.free_page hown.1 hown.2.1
  | step t => exact h.task_step hnext hok

end

/-- **Exclusive ownership.** In every run in which no page is taken that another task's
`alloc_contiguous` has seen free, no page has two owners. -/
theorem exclusive_of_apart {n : ℕ} {p : Pmm} {s : State n} {l : List (Label n)}
    (h : Steps NextApart (State.start n p) l s) : Exclusive s :=
  (h.keeps (inv_start p) fun _ _ _ hv hstep => hv.step hstep).single

/-! ## Two tasks -/

/-- Task 0 asks for a run of one page and has found page 256 free. -/
def finds_page : List (Label 2) := .alloc_contiguous 0 1 :: List.replicate 257 (.step 0)

/-- Task 1 takes the first free page. -/
def takes_page : List (Label 2) := .alloc_page 1 :: List.replicate 7 (.step 1)

def one_after_other : List (Label 2) :=
  finds_page ++ [.step 0, .step 0, .free_page 0 256, .step 0, .step 0] ++ takes_page

def preempted : List (Label 2) := finds_page ++ takes_page ++ [.step 0, .step 0]

theorem exclusive_of_apart_two :
    ∃ s, Steps NextApart (State.start 2 (init one_page).1) one_after_other s
    ∧ s.owners 256 = [1] ∧ Exclusive s := by
  have hrun : (run (fun s a => if Apart s a then next s a else none)
      (State.start 2 (init one_page).1) one_after_other).map (fun s => s.owners 256)
        = some [1] := by
    decide +kernel
  obtain ⟨s, hs, howners⟩ := Option.map_eq_some_iff.mp hrun
  have h : Steps NextApart (State.start 2 (init one_page).1) one_after_other s := .of_run_if _ hs
  exact ⟨s, h, howners, exclusive_of_apart h⟩

/-- **Preempted between its loads and its claims**, `alloc_contiguous` takes a page that another
task has got in the meantime. -/
theorem alloc_contiguous_takes_owned_page :
    ∃ s, Steps Next (State.start 2 (init one_page).1) preempted s
    ∧ s.owners 256 = [0, 1] ∧ ¬ Exclusive s := by
  have hrun : (run next (State.start 2 (init one_page).1) preempted).map (fun s => s.owners 256)
      = some [0, 1] := by decide +kernel
  obtain ⟨s, hs, howners⟩ := Option.map_eq_some_iff.mp hrun
  refine ⟨s, .of_run _ hs, howners, fun hex => ?_⟩
  have := hex 256
  rw [howners] at this
  exact absurd this (by decide)

end HepOS.Phys.Shared
