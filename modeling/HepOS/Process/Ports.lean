/-
Ports from ring 3: `sys_port_in` and `sys_port_out` (`syscall.rs`).

A process may use the ports of `ALLOWED_PORTS` and those the kernel has granted since. The number
it passes is cut to 16 bits and only that one port is looked up, but an access of two or four bytes
goes on to the ports after it. So a call is confined unless it starts in a range and leaves it.
-/
import Mathlib

set_option autoImplicit false

namespace HepOS.Ports

def EPERM : Int64 := -1

def ENOSYS : Int64 := -38

/-- First and last port. -/
abbrev Range := UInt16 × UInt16

def ALLOWED_PORTS : List Range := [(0x70, 0x71)]

/-- An `in` or, with a value, an `out`. -/
structure Access where
  port : UInt16
  width : ℕ
  value : Option UInt32
deriving DecidableEq, Repr

section

variable (dynamic : List Range)

def port_allowed (port : UInt16) : Bool :=
  ALLOWED_PORTS.any (fun r => r.1 ≤ port ∧ port ≤ r.2)
    || dynamic.any (fun r => r.1 ≤ port ∧ port ≤ r.2)

/-- The result and the accesses made. What the device answers to an access is `dev`. -/
def sys_port_in (dev : Access → UInt32) (port width : UInt64) : UInt64 × List Access :=
  let port := port.toUInt16
  if !port_allowed dynamic port then (EPERM.toUInt64, [])
  else if width = 1 then ((dev ⟨port, 1, none⟩).toUInt8.toUInt64, [⟨port, 1, none⟩])
  else if width = 2 then ((dev ⟨port, 2, none⟩).toUInt16.toUInt64, [⟨port, 2, none⟩])
  else if width = 4 then ((dev ⟨port, 4, none⟩).toUInt64, [⟨port, 4, none⟩])
  else (ENOSYS.toUInt64, [])

def sys_port_out (port width val : UInt64) : UInt64 × List Access :=
  let port := port.toUInt16
  if !port_allowed dynamic port then (EPERM.toUInt64, [])
  else if width = 1 then (0, [⟨port, 1, some val.toUInt8.toUInt32⟩])
  else if width = 2 then (0, [⟨port, 2, some val.toUInt16.toUInt32⟩])
  else if width = 4 then (0, [⟨port, 4, some val.toUInt32⟩])
  else (ENOSYS.toUInt64, [])

/-! ## Confinement -/

def Granted (q : ℕ) : Prop := ∃ r ∈ ALLOWED_PORTS ++ dynamic, r.1.toNat ≤ q ∧ q ≤ r.2.toNat

/-- Byte `q` of the port space is one of the `width` from `port` on. There are none from 65536 on,
and none of those is granted. -/
def Touches (port : UInt16) (width q : ℕ) : Prop := port.toNat ≤ q ∧ q < port.toNat + width

/-- Only granted ports are touched, and a call that would touch another one is refused. -/
structure Confined (port width : UInt64) (r : UInt64 × List Access) : Prop where
  inside : ∀ a ∈ r.2, ∀ q, Touches a.port a.width q → Granted dynamic q
  refused : ∀ q, Touches port.toUInt16 width.toNat q → ¬ Granted dynamic q →
    r = (EPERM.toUInt64, [])

/-- A call that starts in a range stays in the ranges. -/
def StaysInside (port width : UInt64) : Prop :=
  Granted dynamic port.toUInt16.toNat → ∀ q, Touches port.toUInt16 width.toNat q → Granted dynamic q

end

theorem port_allowed_iff (dynamic : List Range) (port : UInt16) :
    port_allowed dynamic port = true ↔ Granted dynamic port.toNat := by
  simp only [port_allowed, Granted, ← List.any_append, List.any_eq_true, decide_eq_true_eq,
    UInt16.le_iff_toNat_le]

section

variable {dynamic : List Range} {port width : UInt64} {r : UInt64 × List Access}

theorem confined_of_refused (hp : ¬ Granted dynamic port.toUInt16.toNat) :
    Confined dynamic port width (EPERM.toUInt64, []) ↔ StaysInside dynamic port width :=
  iff_of_true ⟨by simp, fun _ _ _ => rfl⟩ fun h => absurd h hp

/-- Once the port is accepted, the access covers exactly the bytes that were asked for. -/
theorem confined_of_access {a : Access} (hp : Granted dynamic port.toUInt16.toNat) (hr : r.2 = [a])
    (hport : a.port = port.toUInt16) (hwidth : a.width = width.toNat) :
    Confined dynamic port width r ↔ StaysInside dynamic port width := by
  constructor
  · intro h _ q hq
    apply h.inside a (by simp [hr]) q
    rwa [hport, hwidth]
  · intro h
    refine ⟨?_, fun q hq hbad => absurd (h hp q hq) hbad⟩
    intro b hb q hq
    obtain rfl : b = a := by simpa [hr] using hb
    exact h hp q (by rwa [← hport, ← hwidth])

end

theorem ports_confined_iff (dynamic : List Range) (dev : Access → UInt32) (port width val : UInt64)
    (hwidth : width = 1 ∨ width = 2 ∨ width = 4) :
    (Confined dynamic port width (sys_port_in dynamic dev port width)
      ↔ StaysInside dynamic port width)
      ∧ (Confined dynamic port width (sys_port_out dynamic port width val)
        ↔ StaysInside dynamic port width) := by
  by_cases hp : Granted dynamic port.toUInt16.toNat
  · have hallowed := (port_allowed_iff dynamic port.toUInt16).mpr hp
    -- the three widths the two functions know
    rcases hwidth with rfl | rfl | rfl <;>
      simp only [sys_port_in, sys_port_out, hallowed] <;>
      exact ⟨confined_of_access hp rfl rfl rfl, confined_of_access hp rfl rfl rfl⟩
  · have hrefused : port_allowed dynamic port.toUInt16 = false := by
      rw [← Bool.not_eq_true, port_allowed_iff]
      exact hp
    simp only [sys_port_in, sys_port_out, hrefused]
    exact ⟨confined_of_refused hp, confined_of_refused hp⟩

/-- The registers of the RTC, one byte at a time. -/
theorem ports_confined_rtc : Confined [] 0x71 1 (sys_port_in [] (fun _ => 0) 0x71 1) := by
  refine (ports_confined_iff [] (fun _ => 0) 0x71 1 0 (.inl rfl)).1.mpr fun _ q hq => ?_
  obtain ⟨hlo, hhi⟩ := hq
  have hlo : 0x71 ≤ q := hlo
  have hhi : q < 0x71 + 1 := hhi
  exact ⟨(0x70, 0x71), by simp [ALLOWED_PORTS], show 0x70 ≤ q by omega, show q ≤ 0x71 by omega⟩

/-- Four bytes from port 0x71 on: nothing has been granted, and ports 0x72 to 0x74 are read. -/
theorem port_in_beyond_range : ¬ Confined [] 0x71 4 (sys_port_in [] (fun _ => 0) 0x71 4) := by
  intro h
  obtain ⟨r, hr, -, hhi⟩ := h.inside ⟨0x71, 4, none⟩ (by decide) 0x72 ⟨by decide, by decide⟩
  obtain rfl : r = (0x70, 0x71) := by simpa [ALLOWED_PORTS] using hr
  exact absurd hhi (by decide)

end HepOS.Ports
