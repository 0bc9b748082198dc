/-
What is on the screen: the flushes that were published, painted one after the other.

`gopd` copies a flush pixel by pixel and then draws the pointer, while the kernel goes on with
something else. Since it has finished one flush before the next one is published, the
framebuffer is at any time the picture of the flushes before the open request, and what `gopd` has
done of this one. For the kernel's side this means that a flush that is published acts like one
single `paint`.
-/
import HepOS.Display.Handshake

set_option autoImplicit false

namespace HepOS.Display

open Trace Function List

/-! ## Painting a flush -/

/-- The first `n` pixels of a flush, copied into the framebuffer. -/
def blit (scr : Screen) (fb : Pixels) (f : Flush) : ℕ → Pixels
  | 0 => fb
  | n + 1 => update (blit scr fb f n) ((f.y0 + n / scr.width) * scr.pitch + n % scr.width)
      (f.pixels (f.y0 * scr.width + n))

/-- All rows of a flush, with the pointer over them. -/
def paint (scr : Screen) (fb : Pixels) (f : Flush) : Pixels :=
  draw_cursor scr (blit scr fb f (f.size scr)) f.cursor

/-- Flushes painted one after the other. -/
def picture (scr : Screen) (fb : Pixels) (l : List Flush) : Pixels := l.foldl (paint scr) fb

section

variable {scr : Screen} {fb : Pixels}

theorem picture_snoc (l : List Flush) (f : Flush) :
    picture scr fb (l ++ [f]) = paint scr (picture scr fb l) f := by
  unfold picture
  rw [foldl_append]
  rfl

/-- Two pixels that are seen are in the same place when they are the same. -/
theorem index_inj {row col row' col' : ℕ} (hcol : col < scr.width) (hcol' : col' < scr.width)
    (h : row * scr.pitch + col = row' * scr.pitch + col') : row = row' ∧ col = col' := by
  have hle := scr.width_le
  have hrow : (row * scr.pitch + col) / scr.pitch
    = (row' * scr.pitch + col') / scr.pitch := by rw [h]
  rw [row_of_index (by omega), row_of_index (by omega)] at hrow
  subst hrow
  exact ⟨rfl, by omega⟩

theorem blit_apply (f : Flush) {row col : ℕ} (hcol : col < scr.width) (n : ℕ) :
    blit scr fb f n (row * scr.pitch + col) =
      if f.y0 ≤ row ∧ (row - f.y0) * scr.width + col < n then f.pixels (row * scr.width + col)
      else fb (row * scr.pitch + col) := by
  induction n with
  | zero =>
    rw [if_neg (by omega)]
    rfl
  | succ n ih =>
    unfold blit
    have hmod : n % scr.width < scr.width := Nat.mod_lt _ (by omega)
    have hsplit : n / scr.width * scr.width + n % scr.width = n := by
      rw [Nat.mul_comm]
      exact Nat.div_add_mod n scr.width
    by_cases hn : f.y0 ≤ row ∧ (row - f.y0) * scr.width + col = n
    · -- this is the pixel of step `n`
      obtain ⟨hy, hn⟩ := hn
      have hrow : f.y0 + n / scr.width = row := by
        rw [← hn, row_of_index hcol]
        omega
      have hc : n % scr.width = col := by
        rw [← hn, Nat.mul_comm, Nat.mul_add_mod, Nat.mod_eq_of_lt hcol]
      rw [hrow, hc, update_self, if_pos ⟨hy, by omega⟩, ← hn, ← Nat.add_assoc,
        ← Nat.add_mul, Nat.add_sub_cancel' hy]
    · rw [update_of_ne, ih]
      · have hiff : (f.y0 ≤ row ∧ (row - f.y0) * scr.width + col < n)
            ↔ (f.y0 ≤ row ∧ (row - f.y0) * scr.width + col < n + 1) := by omega
        simp only [hiff]
      · intro heq
        obtain ⟨hrow, hc⟩ := index_inj hcol hmod heq
        apply hn
        refine ⟨hrow ▸ Nat.le_add_right _ _, ?_⟩
        rw [hrow, Nat.add_sub_cancel_left, hc]
        exact hsplit

/-- The rows of the flush are its pixels, the others are as they were. -/
theorem blit_size (f : Flush) {row col : ℕ} (hcol : col < scr.width) :
    blit scr fb f (f.size scr) (row * scr.pitch + col) =
      if f.y0 ≤ row ∧ row < f.y1 then f.pixels (row * scr.width + col)
          else fb (row * scr.pitch + col) := by
  rw [blit_apply f hcol]
  have hiff : (f.y0 ≤ row ∧ (row - f.y0) * scr.width + col < f.size scr)
      ↔ (f.y0 ≤ row ∧ row < f.y1) := by
    unfold Flush.size
    refine and_congr_right fun hy => ⟨fun h => ?_, fun h => ?_⟩
    · by_contra hge
      have hmul : (f.y1 - f.y0) * scr.width ≤ (row - f.y0) * scr.width :=
        Nat.mul_le_mul_right _ (by omega)
      omega
    · have hmul : (row - f.y0 + 1) * scr.width ≤ (f.y1 - f.y0) * scr.width :=
        Nat.mul_le_mul_right _ (by omega)
      rw [Nat.add_mul, Nat.one_mul] at hmul
      omega
  simp only [hiff]

end

/-! ## The framebuffer along a run -/

/-- What `gopd` has done of the open request `f`, on a screen that was `base` before. -/
def Progress (scr : Screen) (base : Pixels) (f : Flush) (s : State) : Prop :=
  match s.gopd with
  | .copying _ c => s.fb = blit scr base f c.pixels.length
  | .read_x _ _ | .read_cy _ _ | .read_kind _ _ | .draw _ _ => s.fb = blit scr base f (f.size scr)
  | .post _ _ => s.fb = paint scr base f
  | _ => s.fb = base

/-- The framebuffer is the picture of the published flushes, the last one as far as `gopd` is. -/
structure Painted (scr : Screen) (fb : Pixels) (s : State) : Prop where
  quiet : s.mb.req = s.mb.ack → s.fb = picture scr fb s.accepted
  opened : s.mb.req ≠ s.mb.ack →
    ∃ old f, s.accepted = old ++ [f] ∧ Progress scr (picture scr fb old) f s

theorem painted_start (scr : Screen) (fb : Pixels) : Painted scr fb (State.start fb) :=
  ⟨fun _ => rfl, fun h => absurd rfl h⟩

section

variable {scr : Screen} {fb base : Pixels} {s t : State} {f : Flush}

theorem Progress.of_not_reading (h : s.gopd.reading = false) (hfb : s.fb = base) :
    Progress scr base f s := by
  unfold Progress
  cases hgopd : s.gopd <;> rw [hgopd] at h <;>
    first | exact hfb | exact absurd h (by simp [Gopd.reading])

theorem Progress.not_reading (h : Progress scr base f s) (hs : s.gopd.reading = false) :
    s.fb = base := by
  unfold Progress at h
  cases hgopd : s.gopd <;> rw [hgopd] at h hs <;>
    first | exact h | exact absurd hs (by simp [Gopd.reading])

/-- A step that has to do with neither the counters nor `gopd`. -/
theorem Painted.congr (h : Painted scr fb s) (hreq : t.mb.req = s.mb.req)
    (hack : t.mb.ack = s.mb.ack) (hfb : t.fb = s.fb) (hgopd : t.gopd = s.gopd)
    (hacc : t.accepted = s.accepted) : Painted scr fb t := by
  refine ⟨?_, ?_⟩
  · rw [hreq, hack, hfb, hacc]
    exact h.quiet
  · rw [hreq, hack, hacc]
    unfold Progress
    rw [hgopd, hfb]
    exact h.opened

theorem Painted.request_flush (h : Painted scr fb s) {y count : ℕ} {pixels : Pixels}
    {cursor : Cursor} (hstep : Display.request_flush scr s y count pixels cursor = some t) :
    Painted scr fb t := by
  unfold Display.request_flush at hstep
  split at hstep
  case h_1 =>
    dsimp only at hstep
    split_ifs at hstep
    · cases hstep
      exact h
    · cases hstep
      exact h.congr rfl rfl rfl rfl rfl
  case h_2 => simp at hstep

/-- **Publishing** a flush opens a request of which `gopd` has done nothing. -/
theorem Painted.kernel_step (hinv : Inv scr s) (h : Painted scr fb s)
    (hstep : Display.kernel_step scr s = some t) : Painted scr fb t := by
  unfold Display.kernel_step at hstep
  split at hstep
  case h_1 => simp at hstep
  case h_2 | h_3 =>
    cases hstep
    exact h.congr rfl rfl rfl rfl rfl
  case h_4 =>
    split_ifs at hstep
    all_goals
      cases hstep
      exact h.congr rfl rfl rfl rfl rfl
  case h_5 f req field hk =>
    cases hstep
    obtain ⟨hreq, hack⟩ := Mailbox.req_store s.mb f field
    exact h.congr hreq hack rfl rfl rfl
  case h_6 f req hk =>
    cases hstep
    have hq := hinv.quiet_of_writing (by rw [hk]; rfl)
    have hk' := hinv.kernel
    unfold KernelGood at hk'
    rw [hk] at hk'
    refine ⟨fun heq => ?_, fun _ => ⟨s.accepted, f, rfl, ?_⟩⟩
    · have heq : req + 1 = s.mb.ack := heq
      rw [hk'.1, ← hq.req] at heq
      exact absurd heq (ne_add_one _)
    · exact Progress.of_not_reading hq.gopd (h.quiet hq.req)

/-- A step of `gopd` with the request for `f` open. -/
theorem Painted.gopd_moves (ho : Open scr s f) (hmb : t.mb = s.mb) (hacc : t.accepted = s.accepted)
    (h : Painted scr fb s)
    (hmoves : ∀ base, Progress scr base f s → Progress scr base f t) : Painted scr fb t := by
  refine ⟨fun heq => ?_, fun hne => ?_⟩
  · rw [hmb, ho.req] at heq
    exact absurd heq (ne_add_one _)
  · rw [hmb] at hne
    obtain ⟨old, f', hold, hp⟩ := h.opened hne
    obtain ⟨old', hold', -⟩ := ho.shown
    have heq := hold.symm.trans hold'
    obtain ⟨-, hf⟩ := append_inj' heq rfl
    obtain rfl : f' = f := by simpa using hf
    exact ⟨old, f', hacc.trans hold, hmoves _ hp⟩

/-- A step of `gopd` outside of its copy. -/
theorem Painted.gopd_idles (h : Painted scr fb s) {g : Gopd} {last_req : UInt32}
    (hs : s.gopd.reading = false) (hg : ∀ base f, s.fb = base →
      Progress scr base f { s with gopd := g, last_req := last_req }) :
    Painted scr fb { s with gopd := g, last_req := last_req } := by
  refine ⟨h.quiet, fun hne => ?_⟩
  obtain ⟨old, f, hold, hp⟩ := h.opened hne
  exact ⟨old, f, hold, hg _ _ (hp.not_reading hs)⟩

/-- **A step of `gopd`** makes progress with the open request, and the last one closes it. -/
theorem Painted.gopd_step (hinv : Inv scr s) (h : Painted scr fb s)
    (hstep : Display.gopd_step scr s = some t) : Painted scr fb t := by
  unfold Display.gopd_step at hstep
  cases hgopd : s.gopd with (rw [hgopd] at hstep)
  | starting | rest =>
    cases hstep
    exact h.gopd_idles (by rw [hgopd]; rfl) fun base f hb => hb
  | top =>
    cases hstep
    refine h.gopd_idles (by rw [hgopd]; rfl) fun base f hb => .of_not_reading ?_ hb
    split_ifs with hstop
    · rfl
    · rfl
  | look =>
    split_ifs at hstep with hne
    all_goals
      cases hstep
      exact h.gopd_idles (by rw [hgopd]; rfl) fun base f hb => hb
  | copying req c =>
    obtain ⟨f, ho, hgood⟩ := hinv.good_of_reading hgopd rfl
    obtain ⟨-, n, hn, rfl⟩ := hgood
    have hlen : ((f.rows scr).take n).length = n := by
      rw [length_take, f.length_rows, Nat.min_eq_left hn]
    have hpart : ∀ base, Progress scr base f s → s.fb = blit scr base f n := by
      intro base hp
      unfold Progress at hp
      rw [hgopd] at hp
      dsimp only at hp
      rwa [hlen] at hp
    dsimp only at hstep
    rw [hlen] at hstep
    split_ifs at hstep with hlt
    · cases hstep
      refine h.gopd_moves ho rfl rfl fun base hp => ?_
      show update s.fb _ _ = blit scr base f (_ ++ [_]).length
      rw [length_append, hlen, ho.published.rows n hlt, hpart base hp]
      rfl
    · cases hstep
      refine h.gopd_moves ho rfl rfl fun base hp => ?_
      obtain rfl : n = f.size scr := by
        unfold Flush.size at hn ⊢
        omega
      exact hpart base hp
  | draw req c =>
    cases hstep
    obtain ⟨f, ho, hgood⟩ := hinv.good_of_reading hgopd rfl
    obtain ⟨-, rfl⟩ := hgood
    refine h.gopd_moves ho rfl rfl fun base hp => ?_
    unfold Progress at hp
    rw [hgopd] at hp
    rw [hp]
    rfl
  | post req c =>
    cases hstep
    obtain ⟨f, ho, hgood⟩ := hinv.good_of_reading hgopd rfl
    obtain ⟨⟨hreq, -⟩, -⟩ := hgood
    have hne : s.mb.req ≠ s.mb.ack := by
      rw [ho.req]
      exact ne_add_one _
    obtain ⟨old, f', hold, hp⟩ := h.opened hne
    unfold Progress at hp
    rw [hgopd] at hp
    refine ⟨fun _ => ?_, fun hne' => absurd hreq.symm hne'⟩
    rw [hold, picture_snoc]
    exact hp
  | exited =>
    simp at hstep
  | _ =>
    -- the reads of the fields leave the framebuffer as it is
    obtain ⟨f, ho⟩ := hinv.open_of_reading (by rw [hgopd]; rfl)
    cases hstep
    refine h.gopd_moves ho rfl rfl fun base hp => ?_
    unfold Progress at hp
    rw [hgopd] at hp
    exact hp

theorem Painted.step (hinv : Inv scr s) (h : Painted scr fb s) {a : Label}
    (hstep : Next scr s a t) : Painted scr fb t := by
  cases a with
  | flush y count pixels cursor => exact h.request_flush hstep
  | kernel => exact h.kernel_step hinv hstep
  | gopd => exact h.gopd_step hinv hstep
  | store_stop v =>
    cases hstep
    exact h.congr rfl rfl rfl rfl rfl

end

end HepOS.Display
