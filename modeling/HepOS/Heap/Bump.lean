/-
The heap of a user program (`userspace/hepos-rt/src/lib.rs`).

`HEAP_OFF` says how much of the byte array `HEAP` is used up. `alloc` reads it, rounds it up and
moves it with a compare-exchange; a context that finds it moved meanwhile starts again from what it
found. So blocks lie one behind the other, whoever takes them. What is rounded up is the offset. A
byte array may lie at any address, and the address of a block is as far from a multiple of the
alignment as the array is.

The sums are those of a `usize`: an offset is at most the length of the array, and a layout has
`size + align` at most `2 ^ 63`.
-/
import HepOS.Heap.Slab

set_option autoImplicit false

namespace HepOS.Heap.Bump

open Bytes Trace Function

/-- `(off + align - 1) & !(align - 1)`. -/
def align_up (off align : ℕ) : ℕ := (off + align - 1) &&& (2 ^ 64 - 1 - (align - 1))

/-- What `alloc` returned, by its offset in `HEAP`. -/
structure Block where
  start : ℕ
  layout : Layout

structure State where
  heap_off : ℕ
  /-- The call of a context, and the offset it goes by. -/
  calls : ℕ → Option (Layout × ℕ)
  blocks : List Block

def State.start : State := ⟨0, fun _ => none, []⟩

inductive Label
  | alloc (t : ℕ) (layout : Layout)
  | step (t : ℕ)

/-- A context loads the offset, and then goes round the loop. -/
def next (s : State) : Label → Option State
  | .alloc t layout =>
    if s.calls t = none then some { s with calls := update s.calls t (some (layout, s.heap_off)) }
      else none
  | .step t =>
    match s.calls t with
    | none => none
    | some (layout, off) =>
      let aligned := align_up off layout.align
      if 262144 < aligned + layout.size then some { s with calls := update s.calls t none }
      else if s.heap_off = off then
        some ⟨aligned + layout.size, update s.calls t none, ⟨aligned, layout⟩ :: s.blocks⟩
      else some { s with calls := update s.calls t (some (layout, s.heap_off)) }

def Next (s : State) (a : Label) (t : State) : Prop := next s a = some t

/-- The blocks are apart, in the array and aligned, when the array is at `base`. -/
structure Sound (base : ℕ) (s : State) : Prop where
  apart : s.blocks.Pairwise fun b c =>
    b.start + b.layout.size ≤ c.start ∨ c.start + c.layout.size ≤ b.start
  inside : ∀ b ∈ s.blocks, b.start + b.layout.size ≤ 262144
  aligned : ∀ b ∈ s.blocks, b.layout.align ∣ base + b.start

structure Inv (s : State) : Prop where
  off : s.heap_off ≤ 262144
  calls : ∀ t layout off, s.calls t = some (layout, off) → off ≤ 262144
  below : ∀ b ∈ s.blocks, b.start + b.layout.size ≤ s.heap_off ∧ b.layout.align ∣ b.start
  apart : s.blocks.Pairwise fun b c =>
    b.start + b.layout.size ≤ c.start ∨ c.start + c.layout.size ≤ b.start

theorem align_up_spec (layout : Layout) {off : ℕ} (hoff : off ≤ 262144) :
    layout.align ∣ align_up off layout.align ∧ off ≤ align_up off layout.align := by
  obtain ⟨k, hk⟩ := layout.pow2
  have hfits := layout.fits
  have hpos := Nat.two_pow_pos k
  have hround : align_up off layout.align = (off + 2 ^ k - 1) / 2 ^ k * 2 ^ k := by
    have hk64 : k ≤ 64 := (Nat.pow_le_pow_iff_right (by decide : 1 < 2)).mp (by omega)
    rw [align_up, hk, show 2 ^ 64 - 1 - (2 ^ k - 1) = 2 ^ 64 - 2 ^ k by omega]
    exact and_high_mask (by omega) hk64
  rw [hround, hk]
  refine ⟨Nat.dvd_mul_left _ _, ?_⟩
  have hdiv := Nat.div_add_mod' (off + 2 ^ k - 1) (2 ^ k)
  have hmod := Nat.mod_lt (off + 2 ^ k - 1) hpos
  omega

section

variable {s u : State} {t : ℕ}

theorem Inv.calls_update (h : Inv s) {call : Option (Layout × ℕ)}
    (hcall : ∀ layout off, call = some (layout, off) → off = s.heap_off) :
    ∀ t' layout off, update s.calls t call t' = some (layout, off) → off ≤ 262144 := by
  intro t' layout off ht'
  by_cases ht : t' = t
  · rw [ht, update_self] at ht'
    exact (hcall layout off ht').le.trans h.off
  · rw [update_of_ne ht] at ht'
    exact h.calls t' layout off ht'

/-- A call that begins, begins again or gives up. -/
theorem Inv.call (h : Inv s) {call : Option (Layout × ℕ)}
    (hcall : ∀ layout off, call = some (layout, off) → off = s.heap_off) :
    Inv { s with calls := update s.calls t call } :=
  ⟨h.off, h.calls_update hcall, h.below, h.apart⟩

/-- The block that was taken lies behind all others. -/
theorem Inv.take (h : Inv s) {layout : Layout} {start : ℕ} (hstart : s.heap_off ≤ start)
    (halign : layout.align ∣ start) (hend : start + layout.size ≤ 262144) :
    Inv ⟨start + layout.size, update s.calls t none, ⟨start, layout⟩ :: s.blocks⟩ where
  off := hend
  calls := h.calls_update fun _ _ hc => absurd hc (by simp)
  below b hb := by
    rcases List.mem_cons.mp hb with rfl | hold
    · exact ⟨le_rfl, halign⟩
    · obtain ⟨hbelow, hdvd⟩ := h.below b hold
      exact ⟨hbelow.trans (hstart.trans (Nat.le_add_right _ _)), hdvd⟩
  apart := by
    refine List.pairwise_cons.mpr ⟨fun c hc => .inr ?_, h.apart⟩
    exact (h.below c hc).1.trans hstart

theorem Inv.step {a : Label} (h : Inv s) (hstep : Next s a u) : Inv u := by
  unfold Next next at hstep
  cases a with dsimp only at hstep
  | alloc t layout =>
    split_ifs at hstep
    cases hstep
    exact h.call fun _ _ hc => (Prod.mk.inj (Option.some.inj hc)).2.symm
  | step t =>
    cases hcall : s.calls t with (rw [hcall] at hstep)
    | none => simp at hstep
    | some call =>
      obtain ⟨layout, off⟩ := call
      obtain ⟨hdvd, hle⟩ := align_up_spec layout (h.calls t layout off hcall)
      dsimp only at hstep
      split_ifs at hstep with hfull hsame
      · cases hstep
        exact h.call fun _ _ hc => absurd hc (by simp)
      · cases hstep
        exact h.take (hsame.le.trans hle) hdvd (Nat.not_lt.mp hfull)
      · cases hstep
        exact h.call fun _ _ hc => (Prod.mk.inj (Option.some.inj hc)).2.symm

end

/-- **The blocks are sound exactly if the array lies at a multiple of every alignment that was asked
for.** -/
theorem sound_iff_base_aligned (base : ℕ) {l : List Label} {s : State}
    (h : Steps Next State.start l s) :
    Sound base s ↔ ∀ b ∈ s.blocks, b.layout.align ∣ base := by
  have hinv : Inv s := h.keeps
    ⟨Nat.zero_le _, fun _ _ _ hc => absurd hc (by simp [State.start]),
      fun b hb => absurd hb List.not_mem_nil, .nil⟩
    fun _ _ _ hv hstep => hv.step hstep
  constructor
  · intro hsound b hb
    exact (Nat.dvd_add_left (hinv.below b hb).2).mp (hsound.aligned b hb)
  · intro hbase
    exact ⟨hinv.apart, fun b hb => (hinv.below b hb).1.trans hinv.off,
      fun b hb => Nat.dvd_add (hbase b hb) (hinv.below b hb).2⟩

/-- Four bytes at a multiple of four. -/
def word : Layout := ⟨4, 4, ⟨2, rfl⟩, by decide⟩

/-- Two contexts; the second takes its block between the load and the compare-exchange of the
first. -/
def crossed : List Label := [.alloc 0 word, .alloc 1 word, .step 1, .step 0, .step 0]

theorem sound_iff_base_aligned_crossed : ∃ s, Steps Next State.start crossed s
    ∧ s.blocks = [⟨4, word⟩, ⟨0, word⟩] ∧ Sound 0x404000 s := by
  have h : Steps Next State.start crossed _ := .of_run _ rfl
  refine ⟨_, h, rfl, (sound_iff_base_aligned 0x404000 h).mpr ?_⟩
  intro b hb
  rcases List.mem_cons.mp hb with rfl | hb
  · decide
  · rw [List.mem_singleton.mp hb]
    decide

/-- **An array at an odd address.** -/
theorem block_at_odd_address : ∃ s, Steps Next State.start [.alloc 0 word, .step 0] s
    ∧ s.blocks = [⟨0, word⟩] ∧ ¬ Sound 0x404001 s := by
  have h : Steps Next State.start [.alloc 0 word, .step 0] _ := .of_run _ rfl
  refine ⟨_, h, rfl, fun hsound => ?_⟩
  exact absurd (hsound.aligned _ List.mem_cons_self) (by decide)

end HepOS.Heap.Bump
