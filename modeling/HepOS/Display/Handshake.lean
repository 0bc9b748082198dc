/-
The publish buffer has one owner at a time.

A request is open from the store of `req` to the store of `ack`. While none is open `gopd` is
outside of its copy and the kernel may write; while one is open the kernel is outside of its copy,
and the publish buffer and the fields of the mailbox hold the one flush that was published last. The
counters tell the two apart, also after they have wrapped around: they are equal, or `req` is one
ahead.
-/
import HepOS.Display.Gop

set_option autoImplicit false

namespace HepOS.Display

open Trace Function List

/-! ## The invariant -/

section

variable (scr : Screen) (s : State)

/-- The rows of a flush are rows of the screen. -/
structure Flush.Fits (f : Flush) : Prop where
  lt : f.y0 < f.y1
  le : f.y1 ≤ scr.height

/-- The first `n` pixels of the flush are in the publish buffer. -/
def Copied (f : Flush) (n : ℕ) : Prop :=
  ∀ i < n, s.publish (f.y0 * scr.width + i) = f.pixels (f.y0 * scr.width + i)

/-- The mailbox holds the fields of the flush that are stored before `field`. -/
def Mailbox.Holds (mb : Mailbox) (f : Flush) : Field → Prop
  | .dirty_y => True
  | .dirty_count => mb.dirty_y = UInt32.ofNat f.y0
  | .cursor_x => mb.dirty_y = UInt32.ofNat f.y0 ∧ mb.dirty_count = UInt32.ofNat (f.y1 - f.y0)
  | .cursor_y => (mb.dirty_y = UInt32.ofNat f.y0 ∧ mb.dirty_count = UInt32.ofNat (f.y1 - f.y0))
      ∧ mb.cursor.x = f.cursor.x
  | .cursor_kind => (mb.dirty_y = UInt32.ofNat f.y0 ∧ mb.dirty_count = UInt32.ofNat (f.y1 - f.y0))
      ∧ mb.cursor.x = f.cursor.x ∧ mb.cursor.y = f.cursor.y

/-- The flush is what the publish buffer and the mailbox hold. -/
structure Published (f : Flush) : Prop where
  fits : f.Fits scr
  rows : Copied scr s f (f.size scr)
  dirty_y : s.mb.dirty_y = UInt32.ofNat f.y0
  dirty_count : s.mb.dirty_count = UInt32.ofNat (f.y1 - f.y0)
  cursor : s.mb.cursor = f.cursor

/-- What the kernel has done of a call, and what it knows. -/
def KernelGood : Prop :=
  match s.kernel with
  | .idle => True
  | .read_ack f => f.Fits scr
  -- an `ack` that was equal to `req` still is
  | .read_req f ack => f.Fits scr ∧ (ack = s.mb.req → s.mb.ack = s.mb.req)
  | .copying f req i => f.Fits scr ∧ req = s.mb.req ∧ i ≤ f.size scr ∧ Copied scr s f i
  | .storing f req field => f.Fits scr ∧ req = s.mb.req ∧ Copied scr s f (f.size scr)
      ∧ s.mb.Holds f field
  | .store_req f req => req = s.mb.req ∧ Published scr s f

/-- What `gopd` has read of the open request. -/
def GopdGood (f : Flush) : Prop :=
  match s.gopd with
  | .starting | .top | .look | .rest | .exited => s.last_req = s.mb.ack
  | .read_y req => req = s.mb.req ∧ s.last_req = req
  | .read_count req y0 => (req = s.mb.req ∧ s.last_req = req) ∧ y0 = f.y0
  | .copying req c => (req = s.mb.req ∧ s.last_req = req)
      ∧ ∃ n ≤ f.size scr, c = ⟨f.y0, f.y1, (f.rows scr).take n, ⟨0, 0, 0⟩⟩
  | .read_x req c => (req = s.mb.req ∧ s.last_req = req)
      ∧ c = ⟨f.y0, f.y1, f.rows scr, ⟨0, 0, 0⟩⟩
  | .read_cy req c => (req = s.mb.req ∧ s.last_req = req)
      ∧ c = ⟨f.y0, f.y1, f.rows scr, ⟨f.cursor.x, 0, 0⟩⟩
  | .read_kind req c => (req = s.mb.req ∧ s.last_req = req)
      ∧ c = ⟨f.y0, f.y1, f.rows scr, ⟨f.cursor.x, f.cursor.y, 0⟩⟩
  | .draw req c => (req = s.mb.req ∧ s.last_req = req) ∧ c = f.copy scr
  | .post req c => (req = s.mb.req ∧ s.last_req = req) ∧ c = f.copy scr

/-- No request is open. -/
structure Quiet : Prop where
  req : s.mb.req = s.mb.ack
  last_req : s.last_req = s.mb.req
  gopd : s.gopd.reading = false
  shown : s.shown = s.accepted.map (Flush.copy scr)

/-- The request for `f` is open. -/
structure Open (f : Flush) : Prop where
  req : s.mb.req = s.mb.ack + 1
  kernel : s.kernel.writing = false
  published : Published scr s f
  gopd : GopdGood scr s f
  shown : ∃ old, s.accepted = old ++ [f] ∧ s.shown = old.map (Flush.copy scr)

structure Inv : Prop where
  phase : Quiet scr s ∨ ∃ f, Open scr s f
  kernel : KernelGood scr s

end

theorem Inv.tearFree {scr : Screen} {s : State} (h : Inv scr s) : TearFree scr s := by
  rcases h.phase with hq | ⟨f, ho⟩
  · exact ⟨fun _ => hq.gopd, ⟨[], by rw [hq.shown, append_nil]⟩, .inl hq.req⟩
  · obtain ⟨old, hacc, hshown⟩ := ho.shown
    refine ⟨fun hw => ?_, ?_, .inr ho.req⟩
    · rw [ho.kernel] at hw
      exact absurd hw (by decide)
    · rw [hacc, hshown, map_append]
      exact prefix_append _ _

theorem inv_start (scr : Screen) (fb : Pixels) : Inv scr (State.start fb) :=
  ⟨.inl ⟨rfl, rfl, rfl, rfl⟩, trivial⟩

theorem ne_add_one (a : UInt32) : a + 1 ≠ a := by
  intro h
  have hnat := congrArg UInt32.toNat h
  rw [UInt32.toNat_add] at hnat
  have hone : (1 : UInt32).toNat = 1 := rfl
  omega

section

variable {scr : Screen} {s t : State}

/-- Where the kernel writes, no request is open. -/
theorem Inv.quiet_of_writing (h : Inv scr s) (hw : s.kernel.writing = true) : Quiet scr s := by
  rcases h.phase with hq | ⟨f, ho⟩
  · exact hq
  · rw [ho.kernel] at hw
    exact absurd hw (by decide)

theorem Inv.open_of_reading (h : Inv scr s) (hr : s.gopd.reading = true) : ∃ f, Open scr s f := by
  rcases h.phase with hq | ho
  · rw [hq.gopd] at hr
    exact absurd hr (by decide)
  · exact ho

theorem Inv.good_of_reading (h : Inv scr s) {g : Gopd} (hgopd : s.gopd = g)
    (hr : g.reading = true) :
    ∃ f, Open scr s f ∧ GopdGood scr { s with gopd := g } f := by
  subst hgopd
  obtain ⟨f, ho⟩ := h.open_of_reading hr
  exact ⟨f, ho, ho.gopd⟩

theorem Quiet.congr (h : Quiet scr s) (hreq : t.mb.req = s.mb.req) (hack : t.mb.ack = s.mb.ack)
    (hlast : t.last_req = s.last_req) (hgopd : t.gopd = s.gopd) (hacc : t.accepted = s.accepted)
    (hshown : t.shown = s.shown) : Quiet scr t := by
  obtain ⟨h1, h2, h3, h4⟩ := h
  exact ⟨by rw [hreq, hack]; exact h1, by rw [hlast, hreq]; exact h2, by rw [hgopd]; exact h3,
    by rw [hshown, hacc]; exact h4⟩

/-- A step of the kernel that does not write. -/
theorem Inv.kernel_moves (h : Inv scr s) {k : Kernel} (hk : k.writing = false)
    (hgood : KernelGood scr { s with kernel := k }) : Inv scr { s with kernel := k } := by
  refine ⟨?_, hgood⟩
  rcases h.phase with hq | ⟨f, ho⟩
  · exact .inl ⟨hq.req, hq.last_req, hq.gopd, hq.shown⟩
  · obtain ⟨hfits, hrows, hdy, hdc, hcur⟩ := ho.published
    exact .inr ⟨f, ho.req, hk, ⟨hfits, hrows, hdy, hdc, hcur⟩, ho.gopd, ho.shown⟩

theorem Inv.request_flush (h : Inv scr s) {y count : ℕ} {pixels : Pixels} {cursor : Cursor}
    (hstep : Display.request_flush scr s y count pixels cursor = some t) : Inv scr t := by
  unfold Display.request_flush at hstep
  split at hstep
  case h_1 hkernel =>
    dsimp only at hstep
    split_ifs at hstep with hempty
    · cases hstep
      exact h
    · cases hstep
      exact h.kernel_moves rfl ⟨Nat.lt_of_not_le hempty, Nat.min_le_right _ _⟩
  case h_2 => simp at hstep

theorem Mailbox.Holds.store {mb : Mailbox} {f : Flush} {field field' : Field}
    (h : mb.Holds f field) (hnext : field.next = some field') :
    (mb.store f field).Holds f field' := by
  cases field with
  | dirty_y =>
    cases hnext
    exact rfl
  | dirty_count | cursor_x =>
    cases hnext
    exact ⟨h, rfl⟩
  | cursor_y =>
    cases hnext
    exact ⟨h.1, h.2, rfl⟩
  | cursor_kind => exact absurd hnext (by simp [Field.next])

theorem Mailbox.req_store (mb : Mailbox) (f : Flush) (field : Field) :
    (mb.store f field).req = mb.req ∧ (mb.store f field).ack = mb.ack := by
  cases field <;> exact ⟨rfl, rfl⟩

theorem Inv.kernel_step (h : Inv scr s) (hstep : Display.kernel_step scr s = some t) :
    Inv scr t := by
  have hk := h.kernel
  unfold KernelGood at hk
  unfold Display.kernel_step at hstep
  cases hkernel : s.kernel with
  | idle =>
    rw [hkernel] at hstep
    simp at hstep
  | read_ack f =>
    rw [hkernel] at hstep hk
    cases hstep
    exact h.kernel_moves rfl ⟨hk, fun heq => heq⟩
  | read_req f ack =>
    rw [hkernel] at hstep hk
    cases hstep
    split_ifs with heq
    · refine ⟨.inl ?_, hk.1, rfl, Nat.zero_le _, fun i hi => absurd hi (Nat.not_lt_zero i)⟩
      rcases h.phase with hq | ⟨f', ho⟩
      · exact ⟨hq.req, hq.last_req, hq.gopd, hq.shown⟩
      · -- an open request has `req` one ahead
        exact absurd (ho.req.symm.trans (hk.2 heq).symm) (ne_add_one _)
    · exact h.kernel_moves rfl trivial
  -- up to `req` the kernel writes what `gopd` does not read yet
  | copying f req i =>
    have hq := h.quiet_of_writing (by rw [hkernel]; rfl)
    rw [hkernel] at hstep hk
    obtain ⟨hfits, hreq, hi, hcopied⟩ := hk
    dsimp only at hstep
    split_ifs at hstep with hlt
    · cases hstep
      refine ⟨.inl ⟨hq.req, hq.last_req, hq.gopd, hq.shown⟩, hfits, hreq, hlt, ?_⟩
      intro j hj
      show update s.publish _ _ (f.y0 * scr.width + j) = _
      by_cases hji : j = i
      · rw [hji, update_self]
      · rw [update_of_ne (by omega)]
        exact hcopied j (by omega)
    · cases hstep
      obtain rfl : i = f.size scr := by omega
      exact ⟨.inl ⟨hq.req, hq.last_req, hq.gopd, hq.shown⟩, hfits, hreq, hcopied, trivial⟩
  | storing f req field =>
    have hq := h.quiet_of_writing (by rw [hkernel]; rfl)
    rw [hkernel] at hstep hk
    obtain ⟨hfits, hreq, hcopied, hholds⟩ := hk
    cases hstep
    obtain ⟨hreq', hack'⟩ := s.mb.req_store f field
    refine ⟨.inl (hq.congr hreq' hack' rfl rfl rfl rfl), ?_⟩
    cases hnext : field.next with
    | some field' => exact ⟨hfits, hreq.trans hreq'.symm, hcopied, hholds.store hnext⟩
    | none =>
      obtain rfl : field = .cursor_kind := by
        cases field <;> first | rfl | exact absurd hnext (by simp [Field.next])
      obtain ⟨⟨hdy, hdc⟩, hx, hy⟩ := hholds
      refine ⟨hreq, hfits, hcopied, hdy, hdc, ?_⟩
      show (⟨s.mb.cursor.x, s.mb.cursor.y, f.cursor.kind⟩ : Cursor) = f.cursor
      rw [hx, hy]
  -- from here on the request is open and the frame is published
  | store_req f req =>
    have hq := h.quiet_of_writing (by rw [hkernel]; rfl)
    rw [hkernel] at hstep hk
    obtain ⟨hreq, hfits, hrows, hdy, hdc, hcur⟩ := hk
    cases hstep
    have hlast : s.last_req = s.mb.ack := hq.last_req.trans hq.req
    refine ⟨.inr ⟨f, ?_, rfl, ⟨hfits, hrows, hdy, hdc, hcur⟩, ?_, s.accepted, rfl, hq.shown⟩,
      trivial⟩
    · show req + 1 = s.mb.ack + 1
      rw [hreq, hq.req]
    · have hfree := hq.gopd
      cases hg : s.gopd
      all_goals
        first
        | exact hlast
        | rw [hg] at hfree
          exact absurd hfree (by simp [Gopd.reading])

/-! ## `gopd` -/

/-- The kernel's side of the invariant is not touched by `gopd`, unless it stores `ack`. -/
theorem KernelGood.congr (h : KernelGood scr s) (hk : t.kernel = s.kernel) (hmb : t.mb = s.mb)
    (hpub : t.publish = s.publish) : KernelGood scr t := by
  unfold KernelGood at h ⊢
  rw [hk, hmb]
  cases hkernel : s.kernel with (rw [hkernel] at h)
  | idle => trivial
  | read_ack f | read_req f ack =>
    exact h
  | copying f req i | storing f req field =>
    unfold Copied
    rw [hpub]
    exact h
  | store_req f req =>
    obtain ⟨hreq, hfits, hrows, hdy, hdc, hcur⟩ := h
    refine ⟨hreq, hfits,
      ?_, by rw [hmb]; exact hdy, by rw [hmb]; exact hdc, by rw [hmb]; exact hcur⟩
    unfold Copied
    rw [hpub]
    exact hrows

/-- A step of `gopd` that stores nothing in the mailbox, with a request open. -/
theorem Inv.gopd_moves (h : Inv scr s) {f : Flush} (ho : Open scr s f) {last_req : UInt32}
    {fb : Pixels} {g : Gopd}
    (hgood : GopdGood scr { s with last_req := last_req, fb := fb, gopd := g } f) :
    Inv scr { s with last_req := last_req, fb := fb, gopd := g } := by
  obtain ⟨hfits, hrows, hdy, hdc, hcur⟩ := ho.published
  exact ⟨.inr ⟨f, ho.req, ho.kernel, ⟨hfits, hrows, hdy, hdc, hcur⟩, hgood, ho.shown⟩,
    h.kernel.congr rfl rfl rfl⟩

/-- A step of `gopd` outside of its copy. -/
theorem Inv.gopd_idles (h : Inv scr s) {g : Gopd} (hs : s.gopd.reading = false)
    (hg : g.reading = false) : Inv scr { s with gopd := g } := by
  refine ⟨?_, h.kernel.congr rfl rfl rfl⟩
  rcases h.phase with hq | ⟨f, ho⟩
  · exact .inl ⟨hq.req, hq.last_req, hg, hq.shown⟩
  · refine .inr ⟨f, ho.req, ho.kernel, ?_, ?_, ho.shown⟩
    · obtain ⟨hfits, hrows, hdy, hdc, hcur⟩ := ho.published
      exact ⟨hfits, hrows, hdy, hdc, hcur⟩
    · have hlast : s.last_req = s.mb.ack := by
        have hgood := ho.gopd
        unfold GopdGood at hgood
        cases hgopd : s.gopd <;> rw [hgopd] at hs hgood <;>
          first | exact hgood | exact absurd hs (by simp [Gopd.reading])
      cases g <;> first | exact hlast | exact absurd hg (by simp [Gopd.reading])

theorem Flush.Fits.y0_toNat {f : Flush} (h : f.Fits scr) : (UInt32.ofNat f.y0).toNat = f.y0 := by
  have := h.lt
  have := h.le
  have := scr.height_lt
  rw [UInt32.toNat_ofNat', Nat.mod_eq_of_lt (by omega)]

theorem Flush.Fits.count_toNat {f : Flush} (h : f.Fits scr) :
    (UInt32.ofNat (f.y1 - f.y0)).toNat = f.y1 - f.y0 := by
  have := h.le
  have := scr.height_lt
  rw [UInt32.toNat_ofNat', Nat.mod_eq_of_lt (by omega)]

theorem Flush.length_rows (f : Flush) : (f.rows scr).length = f.size scr := by
  unfold Flush.rows
  rw [length_map, length_range]

/-- The next pixel of the open request. -/
theorem Published.take_rows {f : Flush} (h : Published scr s f) {n : ℕ} (hn : n < f.size scr) :
    (f.rows scr).take n ++ [s.publish (f.y0 * scr.width + n)] = (f.rows scr).take (n + 1) := by
  have hlt : n < (f.rows scr).length := by
    rw [f.length_rows]
    exact hn
  have hget : (f.rows scr)[n] = f.pixels (f.y0 * scr.width + n) := by
    simp [Flush.rows]
  rw [take_succ_eq_append_getElem hlt, h.rows n hn, hget]

section

variable (h : Inv scr s)

include h

theorem Inv.gopd_look (hgopd : s.gopd = .look) (hstep : (if s.mb.req ≠ s.last_req then
      some { s with last_req := s.mb.req, gopd := .read_y s.mb.req }
      else some { s with gopd := .rest }) = some t) : Inv scr t := by
  split_ifs at hstep with hne
  · cases hstep
    rcases h.phase with hq | ⟨f, ho⟩
    · exact absurd hq.last_req.symm hne
    · exact h.gopd_moves ho ⟨rfl, rfl⟩
  · cases hstep
    exact h.gopd_idles (by rw [hgopd]; rfl) rfl

theorem Inv.gopd_copying {req : UInt32} {c : Copy} (hgopd : s.gopd = .copying req c)
    (hstep : (if c.pixels.length < (c.y1 - c.y0) * scr.width then some (copy_pixel scr s req c)
      else some { s with gopd := .read_x req c }) = some t) : Inv scr t := by
  obtain ⟨f, ho, hgood⟩ := h.good_of_reading hgopd rfl
  obtain ⟨hreq, n, hn, rfl⟩ := hgood
  dsimp only at hstep
  rw [length_take, f.length_rows, Nat.min_eq_left hn] at hstep
  split_ifs at hstep with hlt
  · cases hstep
    refine h.gopd_moves ho ⟨hreq, n + 1, hlt, ?_⟩
    rw [length_take, f.length_rows, Nat.min_eq_left hn, ho.published.take_rows hlt]
  · cases hstep
    refine h.gopd_moves ho ⟨hreq, ?_⟩
    obtain rfl : n = f.size scr := by
      unfold Flush.size at hn ⊢
      omega
    rw [← f.length_rows, take_length]

theorem Inv.gopd_post {req : UInt32} {c : Copy} (hgopd : s.gopd = .post req c) :
    Inv scr { s with mb := { s.mb with ack := req }, gopd := .rest, shown := s.shown ++ [c] } := by
  obtain ⟨f, ho, hgood⟩ := h.good_of_reading hgopd rfl
  obtain ⟨⟨hreq, hlast⟩, rfl⟩ := hgood
  obtain ⟨old, hacc, hshown⟩ := ho.shown
  refine ⟨.inl ⟨hreq.symm, hlast.trans hreq, rfl, ?_⟩, ?_⟩
  · show s.shown ++ [f.copy scr] = s.accepted.map _
    rw [hacc, hshown, map_append]
    rfl
  · have hwriting := ho.kernel
    have hk := h.kernel
    unfold KernelGood at hk ⊢
    cases hkernel : s.kernel with
    | idle => trivial
    | read_ack f' =>
      rw [hkernel] at hk
      exact hk
    | read_req f' ack =>
      rw [hkernel] at hk
      exact ⟨hk.1, fun _ => hreq⟩
    | copying f' req' i | storing f' req' field | store_req f' req' =>
      rw [hkernel] at hwriting
      exact absurd hwriting (by simp [Kernel.writing])

theorem Inv.gopd_step (hstep : Display.gopd_step scr s = some t) : Inv scr t := by
  unfold Display.gopd_step at hstep
  -- reading needs an open request, and then what is read is the frame's
  cases hgopd : s.gopd with (rw [hgopd] at hstep)
  | starting | rest =>
    cases hstep
    exact h.gopd_idles (by rw [hgopd]; rfl) rfl
  | top =>
    cases hstep
    refine h.gopd_idles (by rw [hgopd]; rfl) ?_
    split_ifs with hstop
    · rfl
    · rfl
  | look =>
    exact h.gopd_look hgopd hstep
  | read_y req =>
    cases hstep
    obtain ⟨f, ho, hgood⟩ := h.good_of_reading hgopd rfl
    refine h.gopd_moves ho ⟨hgood, ?_⟩
    have hfits := ho.published.fits
    have := hfits.lt
    have := hfits.le
    rw [ho.published.dirty_y, hfits.y0_toNat]
    omega
  | read_count req y0 =>
    cases hstep
    obtain ⟨f, ho, hgood⟩ := h.good_of_reading hgopd rfl
    obtain ⟨hreq, rfl⟩ := hgood
    have hfits := ho.published.fits
    have := hfits.lt
    have := hfits.le
    refine h.gopd_moves ho ⟨hreq, 0, Nat.zero_le _, ?_⟩
    rw [ho.published.dirty_count, hfits.count_toNat,
      show min (f.y0 + (f.y1 - f.y0)) scr.height = f.y1 by omega]
    rfl
  | copying req c =>
    exact h.gopd_copying hgopd hstep
  | read_x req c | read_cy req c =>
    cases hstep
    obtain ⟨f, ho, hgood⟩ := h.good_of_reading hgopd rfl
    obtain ⟨hreq, rfl⟩ := hgood
    refine h.gopd_moves ho ⟨hreq, ?_⟩
    rw [ho.published.cursor]
  | read_kind req c =>
    cases hstep
    obtain ⟨f, ho, hgood⟩ := h.good_of_reading hgopd rfl
    obtain ⟨hreq, rfl⟩ := hgood
    refine h.gopd_moves ho ⟨hreq, ?_⟩
    rw [ho.published.cursor]
    rfl
  | draw req c =>
    cases hstep
    obtain ⟨f, ho, hgood⟩ := h.good_of_reading hgopd rfl
    exact h.gopd_moves ho hgood
  | post req c =>
    cases hstep
    exact h.gopd_post hgopd
  | exited =>
    simp at hstep

theorem Inv.store_stop (v : Bool) : Inv scr { s with mb := { s.mb with stop := v } } := by
  refine ⟨?_, ?_⟩
  · rcases h.phase with hq | ⟨f, ho⟩
    · exact .inl ⟨hq.req, hq.last_req, hq.gopd, hq.shown⟩
    · obtain ⟨hfits, hrows, hdy, hdc, hcur⟩ := ho.published
      exact .inr ⟨f, ho.req, ho.kernel, ⟨hfits, hrows, hdy, hdc, hcur⟩, ho.gopd, ho.shown⟩
  · have hk := h.kernel
    unfold KernelGood at hk ⊢
    cases hkernel : s.kernel with (rw [hkernel] at hk)
    | idle => trivial
    | read_ack f | read_req f ack | copying f req i =>
      exact hk
    | storing f req field =>
      obtain ⟨hfits, hreq, hcopied, hholds⟩ := hk
      refine ⟨hfits, hreq, hcopied, ?_⟩
      cases field <;> exact hholds
    | store_req f req =>
      obtain ⟨hreq, hfits, hrows, hdy, hdc, hcur⟩ := hk
      exact ⟨hreq, hfits, hrows, hdy, hdc, hcur⟩

/-- **One step** keeps the invariant. -/
theorem Inv.step {a : Label} (hstep : Next scr s a t) : Inv scr t := by
  cases a with
  | flush y count pixels cursor => exact h.request_flush hstep
  | kernel => exact h.kernel_step hstep
  | gopd => exact h.gopd_step hstep
  | store_stop v =>
    cases hstep
    exact h.store_stop v

end

end

/-- **No tearing.** In every run of `request_flush` calls with a `gopd`, the two never use the
publish buffer or the fields of a request at the same time, every copy is one published flush,
and `ack` is at most one behind `req` and never ahead. -/
theorem tear_free {scr : Screen} {fb : Pixels} {s : State} {l : List Label}
    (h : Steps (Next scr) (State.start fb) l s) : TearFree scr s :=
  (h.keeps (inv_start scr fb) fun _ _ _ hv hstep => hv.step hstep).tearFree

/-- A screen of two pixels, and a frame on it that `gopd` shows, while a second flush is dropped. -/
def two_pixels : Screen := ⟨2, 1, 3, by decide, by decide⟩

def one_frame : List Label :=
  [.gopd, .flush 0 1 (fun i => UInt32.ofNat i + 5) ⟨9, 9, 0⟩, .kernel, .gopd, .kernel, .kernel,
    .kernel, .kernel,
    .kernel, .kernel, .kernel, .kernel, .kernel, .kernel, .gopd, .gopd, .gopd, .gopd, .gopd, .gopd,
    .flush 0 1 (fun _ => 3) ⟨9, 9, 0⟩, .kernel, .gopd, .kernel, .gopd, .gopd, .gopd,
      .gopd, .gopd, .gopd]

theorem tear_free_two_pixels : ∃ s, Steps (Next two_pixels) (State.start fun _ => 0) one_frame s
    ∧ s.shown.map Copy.pixels = [[5, 6]] ∧ s.mb.req = s.mb.ack ∧ TearFree two_pixels s := by
  have hrun : (run (next two_pixels) (State.start fun _ => 0) one_frame).map
      (fun s => (s.shown.map Copy.pixels, s.mb.req, s.mb.ack)) = some ([[5, 6]], 1, 1) := by
    decide +kernel
  obtain ⟨s, hs, hend⟩ := Option.map_eq_some_iff.mp hrun
  obtain ⟨hshown, hmb⟩ := Prod.mk.inj hend
  obtain ⟨hreq, hack⟩ := Prod.mk.inj hmb
  have h : Steps (Next two_pixels) (State.start fun _ => 0) one_frame s := .of_run _ hs
  exact ⟨s, h, hshown, hreq.trans hack.symm, tear_free h⟩

end HepOS.Display
