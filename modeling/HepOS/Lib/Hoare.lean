/-
Pre- and postconditions for programs with state and panics.

A program of type `EStateM ε σ α` either returns a value or stops with an error,
and keeps the state it reached in both cases. `Post x s Q E` says what holds after
running `x` from `s`: `Q` of the value and state it returns with, `E` of the error
and state it stops with. The two uses are `Post.of_ok` (what holds whenever the
program returns) and `Post.exists_ok` (the program does return, when no error can
satisfy `E`), so that one specification gives the partial and the total statement.

Reads that cannot fail are handled by equations instead: `bind_of_ok` steps through
a program along a known result.
-/
import Mathlib

set_option autoImplicit false

namespace HepOS.Hoare

variable {ε σ α β : Type}

/-- What holds after `x` runs from `s`: `Q` if it returns, `E` if it stops. -/
def Post (x : EStateM ε σ α) (s : σ) (Q : α → σ → Prop) (E : ε → σ → Prop) : Prop :=
  match x s with
  | .ok a s' => Q a s'
  | .error e s' => E e s'

/-! ## Stepping along a known result -/

variable {x : EStateM ε σ α} {f : α → EStateM ε σ β} {s s' : σ} {a : α} {e : ε} {γ : Type}

theorem bind_of_ok
    (h : x s = .ok a s') : (x >>= f) s = f a s' := by
  show EStateM.bind x f s = _
  rw [EStateM.bind, h]

theorem bind_of_error
    (h : x s = .error e s') : (x >>= f) s = .error e s' := by
  show EStateM.bind x f s = _
  rw [EStateM.bind, h]

/-- A sequence that returns is two parts that return. -/
theorem exists_of_bind_ok {s'' : σ} {b : β}
    (h : (x >>= f) s = .ok b s'') : ∃ a s', x s = .ok a s' ∧ f a s' = .ok b s'' := by
  cases hx : x s with
  | ok a s' =>
    rw [bind_of_ok hx] at h
    exact ⟨a, s', rfl, h⟩
  | error e s' =>
    rw [bind_of_error hx] at h
    simp at h

@[simp] theorem pure_run (a : α) (s : σ) : (pure a : EStateM ε σ α) s = .ok a s := rfl

@[simp] theorem throw_run (e : ε) (s : σ) : (throw e : EStateM ε σ α) s = .error e s := rfl

/-! ## Rules -/

variable {x : EStateM ε σ α} {f : α → EStateM ε σ β} {s : σ}
  {Q Q' : α → σ → Prop} {R : β → σ → Prop} {E E' : ε → σ → Prop}

theorem Post.of_eq_ok (h : x s = .ok a s') (hq : Q a s') : Post x s Q E := by
  rw [Post, h]
  exact hq

theorem Post.of_eq_error (h : x s = .error e s') (he : E e s') : Post x s Q E := by
  rw [Post, h]
  exact he

/-- What a specification says of a run that returns. -/
theorem Post.of_ok (h : Post x s Q E) (hx : x s = .ok a s') : Q a s' := by
  rwa [Post, hx] at h

/-- A specification whose error condition nothing satisfies says that the program
returns. -/
theorem Post.exists_ok (h : Post x s Q E) (hE : ∀ e s', ¬ E e s') :
    ∃ a s', x s = .ok a s' ∧ Q a s' := by
  rw [Post] at h
  cases hx : x s with
  | ok a s' =>
    rw [hx] at h
    exact ⟨a, s', rfl, h⟩
  | error e s' =>
    rw [hx] at h
    exact absurd h (hE e s')

theorem Post.mono (h : Post x s Q E) (hQ : ∀ a s', Q a s' → Q' a s')
    (hE : ∀ e s', E e s' → E' e s') : Post x s Q' E' := by
  rw [Post] at h ⊢
  cases hx : x s with
  | ok a s' =>
    rw [hx] at h
    exact hQ a s' h
  | error e s' =>
    rw [hx] at h
    exact hE e s' h

theorem Post.bind (h : Post x s (fun a s' => Post (f a) s' R E) E) : Post (x >>= f) s R E := by
  rw [Post] at h ⊢
  cases hx : x s with
  | ok a s' =>
    rw [hx] at h
    rw [bind_of_ok hx]
    exact h
  | error e s' =>
    rw [hx] at h
    rw [bind_of_error hx]
    exact h

/-- The sequencing rule: the specification of the first part, then the second part
from every state the first part may return with. -/
theorem Post.seq (h : Post x s Q E) (hf : ∀ a s', Q a s' → Post (f a) s' R E) :
    Post (x >>= f) s R E :=
  Post.bind (h.mono hf (fun _ _ he => he))

/-- The same when the first part stops in its own way. -/
theorem Post.andThen (h : Post x s Q E') (hE : ∀ e s', E' e s' → E e s')
    (hf : ∀ a s', Q a s' → Post (f a) s' R E) :
    Post (x >>= f) s R E := Post.seq (h.mono (fun _ _ hq => hq) hE) hf

/-- Sequencing after a step whose result is known. -/
theorem Post.step (hx : x s = .ok a s') (hf : Post (f a) s' R E) : Post (x >>= f) s R E :=
  Post.bind (Post.of_eq_ok hx hf)

theorem Post.pure (hq : Q a s) : Post (Pure.pure a : EStateM ε σ α) s Q E := hq

theorem Post.throw (he : E e s) : Post (MonadExcept.throw e : EStateM ε σ α) s Q E := he

/-- `if c { return Err(e) }`, then the rest. -/
theorem Post.guard {c : Prop} [Decidable c] {y : EStateM ε σ β} {g : α → EStateM ε σ β}
    (he : c → E e s) (hy : ¬ c → Post y s R E) :
    Post (if c then (MonadExcept.throw e : EStateM ε σ α) >>= g else y) s R E := by
  split_ifs with hc
  · exact Post.of_eq_error (bind_of_error rfl) (he hc)
  · exact hy hc

/-! ## Loops over a list -/

/-- `for a in l { f a }`. -/
def each {γ : Type} (f : γ → EStateM ε σ Unit) : List γ → EStateM ε σ Unit
  | [] => Pure.pure ()
  | a :: rest => do
    f a
    each f rest

/-- A loop whose body returns from every state that satisfies the invariant. The
invariant is about the number of elements that have been done. -/
theorem each_ok {g : γ → EStateM ε σ Unit} {I : ℕ → σ → Prop} (l : List γ) (h : I 0 s)
    (hstep : ∀ k (hk : k < l.length) s', I k s' → ∃ s'', g l[k] s' = .ok () s'' ∧ I (k + 1) s'') :
    ∃ s', each g l s = .ok () s' ∧ I l.length s' := by
  induction l generalizing s I with
  | nil => exact ⟨s, rfl, h⟩
  | cons a rest ih =>
    obtain ⟨s1, ha, h1⟩ := hstep 0 (Nat.zero_lt_succ _) s h
    obtain ⟨s2, hrest, h2⟩ := ih (I := fun k => I (k + 1)) h1 fun k hk =>
      hstep (k + 1) (Nat.succ_lt_succ hk)
    exact ⟨s2, (bind_of_ok ha).trans hrest, h2⟩

/-! ## Budgets

A counter `m` of the state that programs only raise, and `put l`, the state with the limit `l` on
it. A steady program that returns does the same under every limit that its end is within. -/

structure Steady (m : σ → ℕ) (put : Option ℕ → σ → σ) (x : EStateM ε σ α) : Prop where
  low : ∀ {s s' : σ} {a : α}, x s = .ok a s' → m s ≤ m s'
  limit : ∀ {s s' : σ} {a : α}, x s = .ok a s' → ∀ l, (∀ b ∈ l, m s' ≤ b) →
    x (put l s) = .ok a (put l s')

/-- Of a budget of `k`, a run that returns `a` leaves at least `w a`. -/
structure Takes (m : σ → ℕ) (put : Option ℕ → σ → σ) (k : ℕ) (w : α → ℕ) (x : EStateM ε σ α) : Prop
    extends Steady m put x where
  high : ∀ {s s' : σ} {a : α}, x s = .ok a s' → m s' + w a ≤ m s + k

section

variable {m : σ → ℕ} {put : Option ℕ → σ → σ} {y : EStateM ε σ α} {k k' : ℕ} {w : α → ℕ} {v : β → ℕ}

theorem Steady.pure (a : α) : Steady m put (Pure.pure a : EStateM ε σ α) := by
  constructor
  · intro s s' b h
    cases h
    exact le_rfl
  · intro s s' b h l _
    cases h
    rfl

theorem Steady.throw (e : ε) : Steady m put (MonadExcept.throw e : EStateM ε σ α) :=
  ⟨fun h => (nomatch h), fun h => (nomatch h)⟩

theorem Steady.bind (hx : Steady m put x) (hf : ∀ a, Steady m put (f a)) :
    Steady m put (x >>= f) := by
  constructor
  · intro s s'' b h
    obtain ⟨a, s', hxs, hfs⟩ := exists_of_bind_ok h
    exact (hx.low hxs).trans ((hf a).low hfs)
  · intro s s'' b h l hl
    obtain ⟨a, s', hxs, hfs⟩ := exists_of_bind_ok h
    -- the first part ends below the second, so it is within the limit too
    rw [bind_of_ok (hx.limit hxs l fun c hc => ((hf a).low hfs).trans (hl c hc))]
    exact (hf a).limit hfs l hl

/-- A program that reads the state, but not the limit. -/
theorem Steady.get_bind {f : σ → EStateM ε σ β} (hput : ∀ l s, f (put l s) = f s)
    (hf : ∀ s, Steady m put (f s)) :
    Steady m put (get >>= f) := by
  constructor
  · intro s s' b h
    exact (hf s).low h
  · intro s s' b h l hl
    show f (put l s) (put l s) = _
    rw [hput]
    exact (hf s).limit h l hl

theorem Steady.map (hx : Steady m put x) (g : α → β) :
    Steady m put (x >>= fun a => Pure.pure (g a)) :=
  hx.bind fun _ => Steady.pure _

theorem Steady.ite {p : Prop} [Decidable p] (hx : Steady m put x) (hy : Steady m put y) :
    Steady m put (if p then x else y) := by
  split
  · exact hx
  · exact hy

theorem Steady.each {g : γ → EStateM ε σ Unit} (h : ∀ a, Steady m put (g a)) (l : List γ) :
    Steady m put (Hoare.each g l) := by
  induction l with
  | nil => exact Steady.pure _
  | cons a rest ih => exact (h a).bind fun _ => ih

theorem Takes.pure {a : α} (h : w a ≤ k) : Takes m put k w (Pure.pure a : EStateM ε σ α) := by
  refine ⟨Steady.pure a, ?_⟩
  intro s s' b hrun
  cases hrun
  exact Nat.add_le_add_left h _

theorem Takes.throw (e : ε) : Takes m put k w (MonadExcept.throw e : EStateM ε σ α) :=
  ⟨Steady.throw e, fun h => (nomatch h)⟩

/-- What the first part leaves is the budget of the second. -/
theorem Takes.bind (hx : Takes m put k w x) (hf : ∀ a, Takes m put (w a) v (f a)) :
    Takes m put k v (x >>= f) := by
  refine ⟨hx.toSteady.bind fun a => (hf a).toSteady, ?_⟩
  intro s s'' b h
  obtain ⟨a, s', hxs, hfs⟩ := exists_of_bind_ok h
  have := hx.high hxs
  have := (hf a).high hfs
  omega

theorem Takes.lax (hx : Takes m put k w x) (h : k ≤ k') : Takes m put k' w x :=
  ⟨hx.toSteady, fun hrun => (hx.high hrun).trans (Nat.add_le_add_left h _)⟩

theorem Takes.ite {p : Prop} [Decidable p] (hx : Takes m put k w x) (hy : Takes m put k w y) :
    Takes m put k w (if p then x else y) := by
  split
  · exact hx
  · exact hy

end

/-! ## Supplies

A supply of the state that a program uses up. With enough of it the program returns. -/

structure Costs (supply : σ → ℕ) (k : ℕ) (x : EStateM ε σ α) : Prop where
  run : ∀ s, k ≤ supply s → ∃ a s', x s = .ok a s' ∧ supply s ≤ supply s' + k

section

variable {supply : σ → ℕ} {k l : ℕ}

theorem Costs.pure (a : α) : Costs supply 0 (Pure.pure a : EStateM ε σ α) :=
  ⟨fun s _ => ⟨a, s, rfl, le_rfl⟩⟩

theorem Costs.bind (hx : Costs supply k x) (hf : ∀ a, Costs supply l (f a)) :
    Costs supply (k + l) (x >>= f) := by
  constructor
  intro s hs
  obtain ⟨a, s1, hrun1, hle1⟩ := hx.run s (by omega)
  obtain ⟨b, s2, hrun2, hle2⟩ := (hf a).run s1 (by omega)
  exact ⟨b, s2, (bind_of_ok hrun1).trans hrun2, by omega⟩

theorem Costs.mono (hx : Costs supply k x) (hle : k ≤ l) : Costs supply l x := by
  constructor
  intro s hs
  obtain ⟨a, s', hrun, hle'⟩ := hx.run s (by omega)
  exact ⟨a, s', hrun, by omega⟩

theorem Costs.each {g : γ → EStateM ε σ Unit} (h : ∀ a, Costs supply k (g a)) (as : List γ) :
    Costs supply (as.length * k) (Hoare.each g as) := by
  induction as with
  | nil => exact (Costs.pure ()).mono (Nat.zero_le _)
  | cons a rest ih =>
    refine ((h a).bind fun _ => ih).mono ?_
    rw [List.length_cons, Nat.add_mul]
    omega

end

end HepOS.Hoare
