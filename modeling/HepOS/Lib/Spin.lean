/-
Spin locks on one processor.

`Code` is a program with everything left out but its locks and the places where it gives the
processor away. A critical section is a bracket: the guard is dropped where its block ends. What is
left of a program is a list of items, and the locks that it holds are the releases in that list, so
there is no second record of them that could be wrong.

Two questions are answered for it.

* One task alone (`Code.Relocks`): does it ask for a lock that it holds already? This can be read
  off the text (`Code.relocks_iff`).
* Several tasks, an interrupt that runs a handler on top of the interrupted task, and calls into a
  kernel (`Step`): does code that runs with interrupts off wait for a lock of code that is
  suspended? Nothing can happen any more then (`Stuck.no_step`). When no interrupt comes while the
  interrupted code holds one of the locks that such code waits for, it does not (`Inv.not_stuck`).
-/
import HepOS.Lib.Trace

set_option autoImplicit false

namespace HepOS.Spin

open Trace List Bool

/-! ## Code -/

/-- Code, as far as its locks go. -/
inductive Code (L : Type)
  | skip
  /-- `lock()`, the body, and the guard is dropped -/
  | lock (l : L) (body : Code L)
  /-- `try_lock()`: the body runs under the lock, or the other code runs without it -/
  | attempt (l : L) (body other : Code L)
  | seq (a b : Code L)
  | choice (a b : Code L)
  | loop (a : Code L)
  /-- gives the processor to another task -/
  | switch
  /-- calls into the kernel -/
  | call (nr : ℕ)
  /-- from such a call, leaves the program that made it for good -/
  | leave

variable {L : Type}

def block : List (Code L) → Code L
  | [] => .skip
  | c :: cs => .seq c (block cs)

def maybe (c : Code L) : Code L := .choice c .skip

/-- The locks that the code may wait for. -/
def Code.spins : Code L → List L
  | .lock l body => l :: body.spins
  | .attempt _ body other => body.spins ++ other.spins
  | .seq a b => a.spins ++ b.spins
  | .choice a b => a.spins ++ b.spins
  | .loop a => a.spins
  | .skip | .switch | .call _ | .leave => []

/-- The code never gives the processor away. -/
def Code.steady : Code L → Bool
  | .skip => true
  | .lock _ body => body.steady
  | .attempt _ body other => body.steady && other.steady
  | .seq a b => a.steady && b.steady
  | .choice a b => a.steady && b.steady
  | .loop a => a.steady
  | .switch | .call _ | .leave => false

theorem block_steady (cs : List (Code L)) : (block cs).steady = cs.all Code.steady := by
  induction cs with
  | nil => rfl
  | cons c cs ih => simp [block, Code.steady, ih]

/-- The code holds no lock where it gives the processor away. -/
def Code.safe : Code L → Bool
  | .lock _ body => body.steady
  | .attempt _ body other => body.steady && other.safe
  | .seq a b => a.safe && b.safe
  | .choice a b => a.safe && b.safe
  | .loop a => a.safe
  | .skip | .switch | .call _ | .leave => true

theorem Code.safe_of_steady (c : Code L) (h : c.steady = true) : c.safe = true := by
  induction c with
  | skip => rfl
  | lock l body _ => exact h
  | attempt l body other _ ih =>
    obtain ⟨hb, ho⟩ := and_eq_true_iff.mp h
    exact and_eq_true_iff.mpr ⟨hb, ih ho⟩
  | seq a b iha ihb | choice a b iha ihb =>
    obtain ⟨ha, hb⟩ := and_eq_true_iff.mp h
    exact and_eq_true_iff.mpr ⟨iha ha, ihb hb⟩
  | loop a ih => exact ih h
  | switch | call | leave => rfl

/-! ## What is left to do -/

inductive Item (L : Type)
  | code (c : Code L)
  | release (l : L)

/-- The locks that are held: those that are still to be released. -/
def held : List (Item L) → List L
  | [] => []
  | .code _ :: r => held r
  | .release l :: r => l :: held r

/-- The locks that may still be waited for. -/
def pending : List (Item L) → List L
  | [] => []
  | .code c :: r => c.spins ++ pending r
  | .release _ :: r => pending r

/-- No lock is held where the processor is given away. -/
def Ready : List (Item L) → Prop
  | [] => True
  | .code c :: r => c.safe = true ∧ (c.steady = true ∨ held r = []) ∧ Ready r
  | .release _ :: r => Ready r

/-- One step of code that does not give the processor away. A lock that is not free is waited for:
there is no step. -/
def advance (free : L → Bool) (left : Bool) : List (Item L) → Option (List (Item L))
  | .release _ :: r => some r
  | .code .skip :: r => some r
  | .code (.lock l body) :: r => if free l then some (.code body :: .release l :: r) else none
  | .code (.attempt l body other) :: r =>
    if free l then some (.code body :: .release l :: r) else some (.code other :: r)
  | .code (.seq a b) :: r => some (.code a :: .code b :: r)
  | .code (.choice a b) :: r => some (.code (if left then a else b) :: r)
  | .code (.loop a) :: r => some (if left then .code a :: .code (.loop a) :: r else r)
  | _ => none

/-- What a step makes of the items. -/
inductive Advances (free : L → Bool) : List (Item L) → List (Item L) → Prop
  | release (l r) : Advances free (.release l :: r) r
  | skip (r) : Advances free (.code .skip :: r) r
  | lock {l} (body r) (h : free l = true) : Advances free (.code (.lock l body) :: r)
    (.code body :: .release l :: r)
  | taken {l} (body other r) (h : free l = true) :
      Advances free (.code (.attempt l body other) :: r) (.code body :: .release l :: r)
  | refused {l} (body other r) (h : free l = false) : Advances free
    (.code (.attempt l body other) :: r) (.code other :: r)
  | seq (a b r) : Advances free (.code (.seq a b) :: r) (.code a :: .code b :: r)
  | first (a b r) : Advances free (.code (.choice a b) :: r) (.code a :: r)
  | second (a b r) : Advances free (.code (.choice a b) :: r) (.code b :: r)
  | again (a r) : Advances free (.code (.loop a) :: r) (.code a :: .code (.loop a) :: r)
  | finish (a r) : Advances free (.code (.loop a) :: r) r

variable {i j : List (Item L)}

theorem advance_cases {free : L → Bool} {left : Bool} (h : advance free left i = some j) :
    Advances free i j := by
  match i, h with
  | .release l :: r, h =>
    obtain rfl := Option.some.inj h
    exact .release l r
  | .code .skip :: r, h =>
    obtain rfl := Option.some.inj h
    exact .skip r
  | .code (.lock l body) :: r, h =>
    by_cases hl : free l = true
    · rw [advance, if_pos hl] at h
      cases h
      exact .lock body r hl
    · rw [advance, if_neg hl] at h
      cases h
  | .code (.attempt l body other) :: r, h =>
    by_cases hl : free l = true
    · rw [advance, if_pos hl] at h
      cases h
      exact .taken body other r hl
    · rw [advance, if_neg hl] at h
      cases h
      exact .refused body other r (not_eq_true _ ▸ hl)
  | .code (.seq a b) :: r, h =>
    cases h
    exact .seq a b r
  | .code (.choice a b) :: r, h =>
    cases h
    cases left with
    | true => exact .first a b r
    | false => exact .second a b r
  | .code (.loop a) :: r, h =>
    cases h
    cases left with
    | true => exact .again a r
    | false => exact .finish a r

theorem Advances.ready {free : L → Bool} (h : Advances free i j) (hi : Ready i) : Ready j := by
  cases h with
  | release l r => exact hi
  | skip r => exact hi.2.2
  | lock body r _ => exact ⟨body.safe_of_steady hi.1, .inl hi.1, hi.2.2⟩
  | taken body other r _ =>
    obtain ⟨hb, -⟩ := and_eq_true_iff.mp hi.1
    exact ⟨body.safe_of_steady hb, .inl hb, hi.2.2⟩
  | refused body other r _ =>
    obtain ⟨-, ho⟩ := and_eq_true_iff.mp hi.1
    exact ⟨ho, hi.2.1.imp_left fun hs => (and_eq_true_iff.mp hs).2, hi.2.2⟩
  | seq a b r =>
    obtain ⟨ha, hb⟩ := and_eq_true_iff.mp hi.1
    have hs := hi.2.1.imp_left and_eq_true_iff.mp
    exact ⟨ha, hs.imp_left And.left, hb, hs.imp_left And.right, hi.2.2⟩
  | first a b r =>
    exact ⟨(and_eq_true_iff.mp hi.1).1, hi.2.1.imp_left fun hs => (and_eq_true_iff.mp hs).1, hi.2.2⟩
  | second a b r =>
    exact ⟨(and_eq_true_iff.mp hi.1).2, hi.2.1.imp_left fun hs => (and_eq_true_iff.mp hs).2, hi.2.2⟩
  | again a r => exact ⟨hi.1, hi.2.1, hi⟩
  | finish a r => exact hi.2.2

/-- A step brings no lock that could not be waited for before. -/
theorem Advances.pending {free : L → Bool} (h : Advances free i j) :
    ∀ l ∈ pending j, l ∈ pending i := by
  intro l hl
  cases h with
  | release | skip => exact hl
  | lock => exact mem_cons_of_mem _ hl
  | taken | refused | seq | first | second | again =>
    simp only [Spin.pending, Code.spins, mem_append] at hl ⊢
    tauto
  | finish => exact mem_append_right _ hl

/-! ## One task -/

section Alone

variable [DecidableEq L]

/-- A step of one task. The locks that it does not hold itself may be free or not, as the others
please. -/
def Walk (i : List (Item L)) (a : Bool × (L → Bool)) (j : List (Item L)) : Prop :=
  (∀ l ∈ held i, a.2 l = false) ∧ advance a.2 a.1 i = some j

/-- The task asks for a lock that it holds. -/
def Relock (i : List (Item L)) : Prop := ∃ l body r, i = .code (.lock l body) :: r ∧ l ∈ held r

/-- Some run of the code comes to ask for a lock that it holds. -/
def Code.Relocks (c : Code L) : Prop := ∃ as i, Steps Walk [.code c] as i ∧ Relock i

/-- The same, read off the text: what is held is carried along into the brackets. -/
def Code.relocks (own : List L) : Code L → Bool
  | .lock l body => decide (l ∈ own) || body.relocks (l :: own)
  | .attempt l body other => (!decide (l ∈ own) && body.relocks (l :: own)) || other.relocks own
  | .seq a b => a.relocks own || b.relocks own
  | .choice a b => a.relocks own || b.relocks own
  | .loop a => a.relocks own
  | .skip | .switch | .call _ | .leave => false

def relocks_items : List (Item L) → Bool
  | [] => false
  | .code c :: r => c.relocks (held r) || relocks_items r
  | .release _ :: r => relocks_items r

/-- Read backwards, a step keeps the text as bad as it is. -/
theorem relocks_items_of_walk {a : Bool × (L → Bool)} (h : Walk i a j)
    (hj : relocks_items j = true) : relocks_items i = true := by
  obtain ⟨hown, hstep⟩ := h
  cases advance_cases hstep with
  | release => exact hj
  | skip => simpa [relocks_items, Code.relocks] using hj
  | lock body r hl | seq | again =>
    simp only [relocks_items, Code.relocks, held, or_eq_true] at hj ⊢
    tauto
  | taken body other r hl =>
    rename_i l
    -- a lock of one's own is not free
    have hout : l ∉ held r := by
      intro hin
      rw [hown l hin] at hl
      cases hl
    simp only [relocks_items, Code.relocks, held, or_eq_true, hout, decide_false, Bool.not_false,
      Bool.true_and] at hj ⊢
    tauto
  | refused | first | second =>
    simp only [relocks_items, Code.relocks, or_eq_true] at hj ⊢
    tauto
  | finish =>
    simp only [relocks_items, or_eq_true]
    exact .inr hj

theorem relocks_items_of_run {as : List (Bool × (L → Bool))} (h : Steps Walk i as j)
    (hj : relocks_items j = true) : relocks_items i = true := by
  induction h with
  | done => exact hj
  | next ha _ ih => exact relocks_items_of_walk ha (ih hj)

/-- The others hold nothing. -/
def unshared (i : List (Item L)) (l : L) : Bool := !decide (l ∈ held i)

theorem Walk.mk (left : Bool) (h : advance (unshared i) left i = some j) :
    Walk i (left, unshared i) j := by
  refine ⟨fun l hl => ?_, h⟩
  simp [unshared, hl]

/-- Code that never asks for a lock it holds can be run to its end. -/
theorem Code.completes (c : Code L) :
    ∀ r : List (Item L), c.steady = true → c.relocks (held r) = false → ∃ as,
      Steps Walk (.code c :: r) as r := by
  induction c with
  | skip =>
    intro r _ _
    exact ⟨_, .one (Walk.mk true rfl)⟩
  | lock l body ih =>
    intro r hs hr
    obtain ⟨hl, hb⟩ := or_eq_false_iff.mp hr
    obtain ⟨as, has⟩ := ih (.release l :: r) hs hb
    have hfree : unshared (.code (.lock l body) :: r) l = true := by simp_all [unshared, held]
    refine ⟨_, .next (Walk.mk true ?_) (has.snoc (Walk.mk true rfl))⟩
    rw [advance, if_pos hfree]
  | attempt l body other _ ih =>
    intro r hs hr
    obtain ⟨-, ho⟩ := or_eq_false_iff.mp hr
    obtain ⟨as, has⟩ := ih r (and_eq_true_iff.mp hs).2 ho
    -- some other task may hold the lock just then
    have hstep : Walk (.code (.attempt l body other) :: r) (true, fun _ => false)
      (.code other :: r) := ⟨fun _ _ => rfl, rfl⟩
    exact ⟨_, .next hstep has⟩
  | seq a b iha ihb =>
    intro r hs hr
    obtain ⟨ha, hb⟩ := or_eq_false_iff.mp hr
    obtain ⟨hsa, hsb⟩ := and_eq_true_iff.mp hs
    obtain ⟨as, has⟩ := iha (.code b :: r) hsa ha
    obtain ⟨bs, hbs⟩ := ihb r hsb hb
    exact ⟨_, .next (Walk.mk true rfl) (has.append hbs)⟩
  | choice a b iha _ =>
    intro r hs hr
    obtain ⟨as, has⟩ := iha r (and_eq_true_iff.mp hs).1 (or_eq_false_iff.mp hr).1
    exact ⟨_, .next (Walk.mk true rfl) has⟩
  | loop a _ =>
    intro r _ _
    exact ⟨_, .one (Walk.mk false rfl)⟩
  | switch | call | leave => exact fun _ hs => absurd hs (by simp [Code.steady])

/-- Where the text is bad, some run gets there. -/
theorem Code.reaches_relock (c : Code L) :
    ∀ r : List (Item L), c.steady = true → c.relocks (held r) = true → ∃ as i,
      Steps Walk (.code c :: r) as i ∧ Relock i := by
  -- on the code; what is held comes from the releases still to be made
  induction c with
  | lock l body ih =>
    intro r hs hr
    by_cases hl : l ∈ held r
    · exact ⟨[], _, .done _, l, body, r, rfl, hl⟩
    · have hb : body.relocks (held (.release l :: r))
        = true := by simpa [Code.relocks, hl, held] using hr
      obtain ⟨as, i, has, hi⟩ := ih (.release l :: r) hs hb
      have hfree : unshared (.code (.lock l body) :: r) l = true := by simp [unshared, held, hl]
      refine ⟨_, i, .next (Walk.mk true ?_) has, hi⟩
      rw [advance, if_pos hfree]
  | attempt l body other ihb iho =>
    intro r hs hr
    obtain ⟨hsb, hso⟩ := and_eq_true_iff.mp hs
    rcases or_eq_true_iff.mp hr with hb | ho
    · obtain ⟨hl, hb⟩ := and_eq_true_iff.mp hb
      obtain ⟨as, i, has, hi⟩ := ihb (.release l :: r) hsb hb
      have hfree : unshared (.code (.attempt l body other) :: r) l
        = true := by simp_all [unshared, held]
      refine ⟨_, i, .next (Walk.mk true ?_) has, hi⟩
      rw [advance, if_pos hfree]
    · obtain ⟨as, i, has, hi⟩ := iho r hso ho
      have hstep : Walk (.code (.attempt l body other) :: r) (true, fun _ => false)
        (.code other :: r) := ⟨fun _ _ => rfl, rfl⟩
      exact ⟨_, i, .next hstep has, hi⟩
  | seq a b iha ihb =>
    intro r hs hr
    obtain ⟨hsa, hsb⟩ := and_eq_true_iff.mp hs
    have hstep : Walk (.code (.seq a b) :: r) _ (.code a :: .code b :: r) := Walk.mk true rfl
    cases ha : a.relocks (held r) with
    | true =>
      obtain ⟨as, i, has, hi⟩ := iha (.code b :: r) hsa ha
      exact ⟨_, i, .next hstep has, hi⟩
    -- `a` takes nothing twice, so it can be walked to its end
    | false =>
      have hb : b.relocks (held r) = true := by simpa [Code.relocks, ha] using hr
      obtain ⟨as, has⟩ := a.completes (.code b :: r) hsa ha
      obtain ⟨bs, i, hbs, hi⟩ := ihb r hsb hb
      exact ⟨_, i, .next hstep (has.append hbs), hi⟩
  | choice a b iha ihb =>
    intro r hs hr
    obtain ⟨hsa, hsb⟩ := and_eq_true_iff.mp hs
    rcases or_eq_true_iff.mp hr with ha | hb
    · obtain ⟨as, i, has, hi⟩ := iha r hsa ha
      exact ⟨_, i, .next (Walk.mk true rfl) has, hi⟩
    · obtain ⟨as, i, has, hi⟩ := ihb r hsb hb
      exact ⟨_, i, .next (Walk.mk false rfl) has, hi⟩
  | loop a ih =>
    intro r hs hr
    obtain ⟨as, i, has, hi⟩ := ih (.code (.loop a) :: r) hs hr
    exact ⟨_, i, .next (Walk.mk true rfl) has, hi⟩
  | skip | switch | call | leave => exact fun _ _ hr => absurd hr (by simp [Code.relocks])

theorem block_relocks (cs : List (Code L)) (own : List L) :
    (block cs).relocks own = cs.any fun c => c.relocks own := by
  induction cs with
  | nil => rfl
  | cons c cs ih => simp [block, Code.relocks, ih]

theorem Code.relocks_iff (c : Code L) (hs : c.steady = true) : c.Relocks ↔ c.relocks [] = true := by
  constructor
  · rintro ⟨as, i, has, l, body, r, rfl, hl⟩
    have hbad : relocks_items (.code (.lock l body) :: r)
      = true := by simp [relocks_items, Code.relocks, hl]
    simpa [relocks_items, held] using relocks_items_of_run has hbad
  · exact fun h => c.reaches_relock [] hs h

end Alone

/-! ## Tasks, interrupts and calls -/

/-- What a frame was made for. -/
inductive Kind
  /-- a task; interrupts are on -/
  | task
  /-- the handler of an interrupt -/
  | handler
  /-- a call into the kernel -/
  | service
  /-- a task that has left its program from within a call; interrupts stay off -/
  | departed
deriving DecidableEq, Repr

/-- The kernel's code that runs with interrupts off. -/
structure Kernel (L : Type) where
  handler : Code L
  service : ℕ → Code L
  /-- what a task does after it has left its program -/
  departure : Code L
  handler_safe : handler.safe = true
  service_safe : ∀ nr, (service nr).safe = true
  departure_safe : departure.safe = true

/-- The lock is one that code with interrupts off may wait for. -/
def Kernel.Awaits (k : Kernel L) (l : L) : Prop :=
  l ∈ k.handler.spins ∨ (∃ nr, l ∈ (k.service nr).spins) ∨ l ∈ k.departure.spins

structure Frame (L : Type) where
  kind : Kind
  rest : List (Item L)

/-- The processor: the frame that runs, those below it on the same stack, and the stacks of the
other tasks. -/
structure State (L : Type) where
  top : Frame L
  below : List (Frame L)
  others : List (List (Frame L))

def State.suspended (s : State L) : List (Frame L) := s.below ++ s.others.flatten

/-- The code of a task. -/
structure Program (L : Type) where
  code : Code L
  safe : code.safe = true

def Program.frame (p : Program L) : Frame L := ⟨.task, [.code p.code]⟩

def State.start (p : Program L) (ps : List (Program L)) : State L :=
  ⟨p.frame, [], ps.map fun q => [q.frame]⟩

inductive Label
  | run (left : Bool)
  /-- the end of a handler or of a call -/
  | back
  /-- to the task at this place of the others -/
  | change (i : ℕ)
  | enter
  | quit
  | interrupt
deriving DecidableEq, Repr

section Machine

variable (k : Kernel L) {s t : State L} {a : Label} {M : L → Prop} {c : Code L} {κ : Kind}
    {r : List (Item L)}

def State.free [DecidableEq L] (s : State L) (l : L) : Bool :=
  !(s.top :: s.suspended).any fun f => decide (l ∈ held f.rest)

inductive Step [DecidableEq L] : State L → Label → State L → Prop
  | run {s : State L} {left : Bool} {j : List (Item L)}
    (h : advance s.free left s.top.rest = some j) :
      Step s (.run left) { s with top := ⟨s.top.kind, j⟩ }
  | back {κ : Kind} {f : Frame L} {fs : List (Frame L)} {os : List (List (Frame L))}
    (h : κ = .handler ∨ κ = .service) :
      Step ⟨⟨κ, []⟩, f :: fs, os⟩ .back ⟨f, fs, os⟩
  | change {κ : Kind} {r : List (Item L)} {fs gs : List (Frame L)} {g : Frame L}
    {os : List (List (Frame L))} {i : ℕ}
      (h : os[i]? = some (g :: gs)) :
      Step ⟨⟨κ, .code .switch :: r⟩, fs, os⟩ (.change i) ⟨g, gs, os.set i (⟨κ, r⟩ :: fs)⟩
  | enter {nr : ℕ} {r : List (Item L)} {fs : List (Frame L)} {os : List (List (Frame L))} :
      Step ⟨⟨.task, .code (.call nr) :: r⟩, fs, os⟩ .enter
        ⟨⟨.service, [.code (k.service nr)]⟩, ⟨.task, r⟩ :: fs, os⟩
  -- the frame of the program goes; it was left in a call, so it holds nothing
  | quit {r : List (Item L)} {f : Frame L} {fs : List (Frame L)} {os : List (List (Frame L))} :
      Step ⟨⟨.service, .code .leave :: r⟩, f :: fs, os⟩ .quit
        ⟨⟨.departed, [.code k.departure]⟩, fs, os⟩
  | interrupt {r : List (Item L)} {fs : List (Frame L)} {os : List (List (Frame L))} :
      Step ⟨⟨.task, r⟩, fs, os⟩ .interrupt ⟨⟨.handler, [.code k.handler]⟩, ⟨.task, r⟩ :: fs, os⟩

/-- The step with a label, computed. -/
def State.next [DecidableEq L] (s : State L) : Label → Option (State L)
  | .run left => (advance s.free left s.top.rest).map fun j => { s with top := ⟨s.top.kind, j⟩ }
  | .back =>
    match s with
    | ⟨⟨.handler, []⟩, f :: fs, os⟩ => some ⟨f, fs, os⟩
    | ⟨⟨.service, []⟩, f :: fs, os⟩ => some ⟨f, fs, os⟩
    | _ => none
  | .change i =>
    match s with
    | ⟨⟨κ, .code .switch :: r⟩, fs, os⟩ =>
      match os[i]? with
      | some (g :: gs) => some ⟨g, gs, os.set i (⟨κ, r⟩ :: fs)⟩
      | _ => none
    | _ => none
  | .enter =>
    match s with
    | ⟨⟨.task, .code (.call nr) :: r⟩, fs, os⟩ =>
      some ⟨⟨.service, [.code (k.service nr)]⟩, ⟨.task, r⟩ :: fs, os⟩
    | _ => none
  | .quit =>
    match s with
    | ⟨⟨.service, .code .leave :: _⟩, _ :: fs, os⟩ =>
      some ⟨⟨.departed, [.code k.departure]⟩, fs, os⟩
    | _ => none
  | .interrupt =>
    match s with
    | ⟨⟨.task, r⟩, fs, os⟩ => some ⟨⟨.handler, [.code k.handler]⟩, ⟨.task, r⟩ :: fs, os⟩
    | _ => none

theorem Step.of_next [DecidableEq L] (h : s.next k a = some t) : Step k s a t := by
  cases a with (simp only [State.next] at h)
  | run left =>
    obtain ⟨j, hj, rfl⟩ := Option.map_eq_some_iff.mp h
    exact .run hj
  | back =>
    split at h
    · cases h
      exact .back (.inl rfl)
    · cases h
      exact .back (.inr rfl)
    · cases h
  | change i =>
    split at h
    · split at h
      · rename_i hget
        cases h
        exact .change hget
      · cases h
    · cases h
  | enter =>
    split at h
    · cases h
      exact .enter
    · cases h
  | quit =>
    split at h
    · cases h
      exact .quit
    · cases h
  | interrupt =>
    split at h
    · cases h
      exact .interrupt
    · cases h

/-- Code with interrupts off waits for a lock of code that is suspended. -/
def Stuck (s : State L) : Prop :=
  s.top.kind ≠ .task ∧ ∃ l body r, s.top.rest = .code (.lock l body) :: r ∧ ∃ f ∈ s.suspended,
    l ∈ held f.rest

/-- It will wait for ever. -/
theorem Stuck.no_step [DecidableEq L] (h : Stuck s) : ¬ Step k s a t := by
  obtain ⟨hkind, l, body, r, hrest, f, hf, hl⟩ := h
  intro hstep
  cases hstep with
  | run hrun =>
    have hbusy : s.free l = false := by
      simp only [State.free, not_eq_false', any_eq_true, decide_eq_true_eq]
      exact ⟨f, mem_cons_of_mem _ hf, hl⟩
    rw [hrest, advance, hbusy] at hrun
    cases hrun
  | back | change | quit => cases hrest
  | enter | interrupt => exact hkind rfl

/-- No interrupt comes while the interrupted code holds a lock of `M`. -/
def Quiet (M : L → Prop) (s : State L) (a : Label) : Prop :=
  a = .interrupt → ∀ l ∈ held s.top.rest, ¬ M l

structure Frame.Ok (M : L → Prop) (f : Frame L) : Prop where
  ready : Ready f.rest
  waits : f.kind ≠ .task → ∀ l ∈ pending f.rest, M l

/-- Code that is suspended holds no lock of `M`, and code with interrupts off waits for no other. -/
structure Inv (M : L → Prop) (s : State L) : Prop where
  top : s.top.Ok M
  frames : ∀ f ∈ s.suspended, f.Ok M
  suspended : ∀ f ∈ s.suspended, ∀ l ∈ held f.rest, ¬ M l

theorem Program.frame_ok (M : L → Prop) (p : Program L) : p.frame.Ok M :=
  ⟨⟨p.safe, .inr rfl, trivial⟩, fun h => absurd rfl h⟩

theorem Inv.start (M : L → Prop) (p : Program L) (ps : List (Program L)) :
    Inv M (State.start p ps) := by
  -- every suspended frame is the first one of a program
  have hall : ∀ f ∈ (State.start p ps).suspended, ∃ q : Program L, f = q.frame := by
    intro f hf
    simp only [State.start, State.suspended, nil_append, mem_flatten, mem_map] at hf
    obtain ⟨_, ⟨q, -, rfl⟩, hf⟩ := hf
    exact ⟨q, mem_singleton.mp hf⟩
  refine ⟨p.frame_ok M, ?_, ?_⟩
  · intro f hf
    obtain ⟨q, rfl⟩ := hall f hf
    exact q.frame_ok M
  · intro f hf l hl
    obtain ⟨q, rfl⟩ := hall f hf
    exact absurd hl not_mem_nil

theorem kernel_frame_ok (hs : c.safe = true) (hM : ∀ l ∈ c.spins, M l) :
    Frame.Ok M ⟨κ, [.code c]⟩ := by
  refine ⟨⟨hs, .inr rfl, trivial⟩, fun _ l hl => hM l ?_⟩
  simpa [pending] using hl

/-- The frame of a program that gives the processor away holds nothing. -/
theorem held_of_ready (h : Ready (.code c :: r)) (hc : c.steady = false) : held r = [] := by
  rcases h.2.1 with hs | hr
  · rw [hc] at hs
    cases hs
  · exact hr

theorem Frame.Ok.drop (h : Frame.Ok M ⟨κ, .code c :: r⟩) :
    Frame.Ok M ⟨κ, r⟩ :=
  ⟨h.ready.2.2, fun hκ l hl => h.waits hκ l (mem_append_right _ hl)⟩

theorem Inv.step [DecidableEq L] (hM : ∀ l, k.Awaits l → M l) (hi : Inv M s)
    (h : Step k s a t) (hq : Quiet M s a) : Inv M t := by
  cases h with
  | run hrun =>
    have hadv := advance_cases hrun
    refine ⟨⟨hadv.ready hi.top.ready, fun hκ l hl => ?_⟩, hi.frames, hi.suspended⟩
    exact hi.top.waits hκ l (hadv.pending l hl)
  | back _ =>
    refine ⟨hi.frames _ mem_cons_self, ?_, ?_⟩
    · exact (forall_mem_cons.mp hi.frames).2
    · exact (forall_mem_cons.mp hi.suspended).2
  | change hget =>
    rename_i κ r fs gs g os i
    have hmem : g :: gs ∈ os := mem_of_getElem? hget
    -- what is suspended afterwards was so before, or is the frame that gives the processor away
    have hold : ∀ f ∈ State.suspended ⟨g, gs, os.set i (⟨κ, r⟩ :: fs)⟩,
        f = ⟨κ, r⟩ ∨ f ∈ State.suspended ⟨⟨κ, .code .switch :: r⟩, fs, os⟩ := by
      intro f hf
      rcases mem_append.mp hf with hf | hf
      · exact .inr (mem_append_right _ (mem_flatten.mpr ⟨_, hmem, mem_cons_of_mem _ hf⟩))
      · obtain ⟨stack, hstack, hf⟩ := mem_flatten.mp hf
        rcases mem_or_eq_of_mem_set hstack with hstack | rfl
        · exact .inr (mem_append_right _ (mem_flatten.mpr ⟨stack, hstack, hf⟩))
        · rcases mem_cons.mp hf with rfl | hf
          · exact .inl rfl
          · exact .inr (mem_append_left _ hf)
    have hnone : held r = [] := held_of_ready hi.top.ready rfl
    refine ⟨hi.frames g ?_, ?_, ?_⟩
    · exact mem_append_right _ (mem_flatten.mpr ⟨_, hmem, mem_cons_self⟩)
    · intro f hf
      rcases hold f hf with rfl | hf
      · exact hi.top.drop
      · exact hi.frames f hf
    · intro f hf l hl
      rcases hold f hf with rfl | hf
      · rw [hnone] at hl
        simp at hl
      · exact hi.suspended f hf l hl
  | enter =>
    rename_i nr r fs os
    have hnone : held r = [] := held_of_ready hi.top.ready rfl
    refine ⟨kernel_frame_ok (k.service_safe nr) fun l hl => hM l (.inr (.inl ⟨nr, hl⟩)), ?_, ?_⟩
    · exact forall_mem_cons.mpr ⟨hi.top.drop, hi.frames⟩
    · exact forall_mem_cons.mpr ⟨by simp [hnone], hi.suspended⟩
  | quit =>
    refine ⟨kernel_frame_ok k.departure_safe fun l hl => hM l (.inr (.inr hl)), ?_, ?_⟩
    · exact (forall_mem_cons.mp hi.frames).2
    · exact (forall_mem_cons.mp hi.suspended).2
  | interrupt =>
    refine ⟨kernel_frame_ok k.handler_safe fun l hl => hM l (.inl hl), ?_, ?_⟩
    · exact forall_mem_cons.mpr ⟨hi.top, hi.frames⟩
    · exact forall_mem_cons.mpr ⟨hq rfl, hi.suspended⟩

theorem Inv.not_stuck (hi : Inv M s) : ¬ Stuck s := by
  rintro ⟨hkind, l, body, r, hrest, f, hf, hl⟩
  have hM : M l := hi.top.waits hkind l (by simp [hrest, pending, Code.spins])
  exact hi.suspended f hf l hl hM

end Machine

end HepOS.Spin
