/-
Runs of labelled step relations.

A system is a relation `step s a t`: from state `s` it can take the step labelled `a` to
state `t`. `Steps step s l t` is a finite run with the labels `l`. Statements about "every
state a run reaches" are statements about the last state, since every beginning of a run
is a run; `Steps.keeps` proves them from one step. A statement about the runs whose steps
all meet a condition is one about the runs of the step relation cut down to it.
-/
import Mathlib

set_option autoImplicit false

namespace HepOS.Trace

variable {σ τ α β : Type*}

/-- A run from `s` to `t` with the labels `l`. -/
inductive Steps (step : σ → α → σ → Prop) : σ → List α → σ → Prop
  | done (s : σ) : Steps step s [] s
  | next {s t u : σ} {a : α} {l : List α} (ha : step s a t) (hl : Steps step t l u) :
      Steps step s (a :: l) u

section

variable {step step' : σ → α → σ → Prop} {s t u : σ} {a : α} {l l' : List α}

theorem Steps.one (h : step s a t) : Steps step s [a] t := .next h (.done t)

section

variable (h : Steps step s l t)

include h

theorem Steps.append (h' : Steps step t l' u) : Steps step s (l ++ l') u := by
  induction h with
  | done => exact h'
  | next ha _ ih => exact .next ha (ih h')

theorem Steps.snoc (ha : step t a u) : Steps step s (l ++ [a]) u :=
  h.append (.one ha)

/-- A run is one of another relation when the steps with its labels are. -/
theorem Steps.mono_of_mem (hstep : ∀ v b w, b ∈ l → step v b w → step' v b w) :
    Steps step' s l t := by
  induction h with
  | done s => exact .done s
  | next ha _ ih =>
    refine .next (hstep _ _ _ List.mem_cons_self ha) (ih ?_)
    exact fun v b w hb => hstep v b w (List.mem_cons_of_mem _ hb)

/-- A run of a smaller relation is a run of a larger one. -/
theorem Steps.mono (hstep : ∀ v b w, step v b w → step' v b w) :
    Steps step' s l t := h.mono_of_mem fun v b w _ => hstep v b w

/-- What every step says of its label holds of all the labels. -/
theorem Steps.labels {P : α → Prop} (hstep : ∀ v b w, step v b w → P b) :
    ∀ b ∈ l, P b := by
  induction h with
  | done => exact by simp
  | next ha _ ih =>
    intro b hb
    rcases List.mem_cons.mp hb with rfl | hb
    · exact hstep _ _ _ ha
    · exact ih b hb

/-- **Invariants.** What holds at the start and is kept by every step holds at the end. -/
theorem Steps.keeps {P : σ → Prop} (hs : P s) (hstep : ∀ v b w, P v → step v b w → P w) : P t := by
  induction h with
  | done => exact hs
  | next ha _ ih =>
    apply ih
    exact hstep _ _ _ hs ha

end

end

/-! ## Systems given by a function -/

/-- Takes the steps one after another, as long as they can be taken. -/
def run (next : σ → α → Option σ) : σ → List α → Option σ
  | s, [] => some s
  | s, a :: l => (next s a).bind fun t => run next t l

section

variable {next : σ → α → Option σ}

theorem Steps.of_run (l : List α) :
    ∀ {s t : σ}, run next s l = some t → Steps (fun s a t => next s a = some t) s l t := by
  induction l with
  | nil =>
    intro s t h
    cases h
    exact .done s
  | cons a l ih =>
    intro s t h
    obtain ⟨u, hu, hrest⟩ := Option.bind_eq_some_iff.mp h
    exact .next hu (ih hrest)

/-- A run whose steps all meet a condition. -/
theorem Steps.of_run_if {ok : σ → α → Prop} [∀ s a, Decidable (ok s a)] (l : List α) {s t : σ}
    (h : run (fun s a => if ok s a then next s a else none) s l = some t) :
    Steps (fun s a t => next s a = some t ∧ ok s a) s l t := by
  refine (Steps.of_run l h).mono ?_
  intro v b w hstep
  by_cases hok : ok v b
  · rw [if_pos hok] at hstep
    exact ⟨hstep, hok⟩
  · rw [if_neg hok] at hstep
    simp at hstep

/-- A loop that counts down takes as many steps as the counter says. -/
theorem Steps.countdown {step : σ → α → σ → Prop} {a : α} {f : ℕ → σ}
    (h : ∀ k, step (f (k + 1)) a (f k)) (n : ℕ) : Steps step (f n) (List.replicate n a) (f 0) := by
  induction n with
  | zero => exact .done _
  | succ n ih => exact .next (h n) ih

end

end HepOS.Trace
