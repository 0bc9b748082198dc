/-
Where the bytes of a transfer go: a command of `nvmed` and one of the direct path.

A command names its buffer by two physical addresses. The device follows the first, `prp1`,
to the end of the page it lies in and continues at the second, `prp2`. The direct path gives
the caller's buffer, which is a page of its own, so `prp2` is never used and may stay 0.
`nvmed` gives the field `data` of the mailbox, which begins 72 bytes after the start of a page,
and leaves `prp2` at 0 as well: the last 72 bytes of a block are moved to and from the
physical addresses 0 to 71.
-/
import HepOS.Lib.Trace

set_option autoImplicit false

namespace HepOS.Nvme

open Function Nat

/-! ## The layout of the mailbox -/

/-- The fields of `Mailbox`, in their order. -/
inductive MailboxField
  | regs_phys | io_sq_phys | io_cq_phys | dstrd | qd | sq_tail | cq_head | phase | op | status
  | lba | count | pad0 | data | stop
deriving DecidableEq, Repr

def mailbox_fields : List MailboxField :=
  [.regs_phys, .io_sq_phys, .io_cq_phys, .dstrd, .qd, .sq_tail, .cq_head, .phase, .op, .status,
    .lba, .count, .pad0, .data, .stop]

/-- Size and alignment: `u64`, `u32` and the byte array. -/
def MailboxField.layout : MailboxField → ℕ × ℕ
  | .regs_phys | .io_sq_phys | .io_cq_phys | .lba => (8, 8)
  | .data => (4096, 1)
  | _ => (4, 4)

/-- `repr(C)`: every field at the next multiple of its alignment. -/
def offset_from (f : MailboxField) : ℕ → List MailboxField → ℕ
  | off, [] => off
  | off, g :: rest =>
    let start := (off + g.layout.2 - 1) / g.layout.2 * g.layout.2
    if g = f then start else offset_from f (start + g.layout.1) rest

def offset_of (f : MailboxField) : ℕ := offset_from f 0 mailbox_fields

theorem offset_of_data : offset_of .data = 72 := by decide

/-! ## Commands -/

/-- Physical memory and the bytes on the medium. -/
structure Machine where
  phys : ℕ → UInt8
  medium : ℕ → UInt8

/-- The fields of `SqEntry` a read or write command uses. -/
structure SqEntry where
  write : Bool
  prp1 : ℕ
  prp2 : ℕ
  cdw10 : UInt32
  cdw11 : UInt32
  cdw12 : ℕ

/-- The first sector: the two halves of the `lba`. -/
def SqEntry.start (e : SqEntry) : ℕ := e.cdw10.toNat + e.cdw11.toNat * 2 ^ 32

/-- The device moves `cdw12 + 1` sectors. -/
def SqEntry.length (lba_size : ℕ) (e : SqEntry) : ℕ := (e.cdw12 + 1) * lba_size

/-- Where byte `i` of the transfer is in memory. -/
def SqEntry.address (e : SqEntry) (i : ℕ) : ℕ :=
  if e.prp1 % 4096 + i < 4096 then e.prp1 + i else e.prp2 + (e.prp1 % 4096 + i - 4096)

/-- All of memory the device accesses. -/
def SqEntry.addresses (lba_size : ℕ) (e : SqEntry) : List ℕ :=
  (List.range (e.length lba_size)).map e.address

/-- The device puts bytes into memory one after the other. -/
def scatter (address : ℕ → ℕ) (byte : ℕ → UInt8) (phys : ℕ → UInt8) : ℕ → (ℕ → UInt8)
  | 0 => phys
  | n + 1 => update (scatter address byte phys n) (address n) (byte n)

/-- The bytes of a range, replaced. -/
def fill (start len : ℕ) (byte : ℕ → UInt8) (m : ℕ → UInt8) : ℕ → UInt8 :=
  fun a => if start ≤ a ∧ a < start + len then byte (a - start) else m a

def execute (lba_size : ℕ) (m : Machine) (e : SqEntry) : Machine :=
  let first := e.start * lba_size
  let len := e.length lba_size
  if e.write then { m with medium := fill first len (fun i => m.phys (e.address i)) m.medium }
  else { m with phys := scatter e.address (fun i => m.medium (first + i)) m.phys len }

/-- The command both sides build; they differ in `prp1` only. -/
def command (write : Bool) (lba : UInt64) (count : ℕ) (prp1 : ℕ) : SqEntry where
  write := write
  prp1 := prp1
  prp2 := 0
  cdw10 := lba.toUInt32
  cdw11 := (lba >>> 32).toUInt32
  cdw12 := count - 1

/-! ## The two paths -/

/-- Reading and writing blocks, and the memory the device accesses for it. -/
structure Path where
  write_blocks : Machine → UInt64 → ℕ → ℕ → Machine
  read_blocks : Machine → UInt64 → ℕ → ℕ → Machine
  accessed : UInt64 → ℕ → ℕ → List ℕ

/-- `copy_nonoverlapping`. -/
def copy (m : Machine) (src dst len : ℕ) : Machine :=
  { m with phys := fill dst len (fun i => m.phys (src + i)) m.phys }

/-- `read_blocks_direct` and `write_blocks_direct`. -/
def direct (lba_size : ℕ) : Path where
  write_blocks m lba count buf_phys := execute lba_size m (command true lba count buf_phys)
  read_blocks m lba count buf_phys := execute lba_size m (command false lba count buf_phys)
  accessed lba count buf_phys := (command true lba count buf_phys).addresses lba_size

/-- `read_blocks` and `write_blocks` through the mailbox, with the command of `nvmed`. -/
def through_mailbox (lba_size mailbox_phys : ℕ) : Path where
  write_blocks m lba count buf_phys :=
    execute lba_size (copy m buf_phys (mailbox_phys + offset_of .data) (count * lba_size))
      (command true lba count (mailbox_phys + offset_of .data))
  read_blocks m lba count buf_phys :=
    copy (execute lba_size m (command false lba count (mailbox_phys + offset_of .data)))
      (mailbox_phys + offset_of .data) buf_phys (count * lba_size)
  accessed lba count _ :=
    (command true lba count (mailbox_phys + offset_of .data)).addresses lba_size

/-- **What a path is for.** The bytes of the buffer and those of the sectors are moved, all of them
and to nowhere else; `own` is memory that belongs to the path. -/
structure Moves (p : Path) (own : ℕ → Prop) (lba_size : ℕ) (m : Machine) (lba : UInt64)
    (count buf_phys : ℕ) : Prop where
  write : ∀ a, (p.write_blocks m lba count buf_phys).medium a
    = fill (lba.toNat * lba_size) (count * lba_size) (fun i => m.phys (buf_phys + i)) m.medium a
  write_frame : ∀ a, ¬ own a → (p.write_blocks m lba count buf_phys).phys a = m.phys a
  read : ∀ i < count * lba_size,
    (p.read_blocks m lba count buf_phys).phys (buf_phys + i) = m.medium (lba.toNat * lba_size + i)
  read_frame : ∀ a, ¬ own a → ¬ (buf_phys ≤ a ∧ a < buf_phys + count * lba_size) →
    (p.read_blocks m lba count buf_phys).phys a = m.phys a
  read_medium : (p.read_blocks m lba count buf_phys).medium = m.medium
  accessed : ∀ a ∈ p.accessed lba count buf_phys,
    own a ∨ (buf_phys ≤ a ∧ a < buf_phys + count * lba_size)

/-! ## Commands, in memory and on the medium -/

theorem scatter_of_lt {address : ℕ → ℕ} {byte : ℕ → UInt8} {phys : ℕ → UInt8} {n : ℕ}
    (hinj : ∀ i < n, ∀ j < n, address i = address j → i = j) {i : ℕ} (hi : i < n) :
    scatter address byte phys n (address i) = byte i := by
  induction n with
  | zero => exact absurd hi (Nat.not_lt_zero _)
  | succ n ih =>
    unfold scatter
    by_cases heq : i = n
    · rw [heq, update_self]
    · have hne : address i ≠ address n :=
        fun h => heq (hinj i hi n (lt_succ_self n) h)
      rw [update_of_ne hne]
      exact ih (fun a ha b hb => hinj a (by omega) b (by omega)) (by omega)

theorem scatter_of_not_mem {address : ℕ → ℕ} {byte : ℕ → UInt8} {phys : ℕ → UInt8} {n a : ℕ}
    (h : ∀ i < n, address i ≠ a) : scatter address byte phys n a = phys a := by
  induction n with
  | zero => rfl
  | succ n ih =>
    unfold scatter
    rw [update_of_ne (h n (lt_succ_self n)).symm]
    exact ih fun i hi => h i (by omega)

section

variable {write : Bool} {lba : UInt64} {count prp1 : ℕ} {lba_size : ℕ}

/-- The device puts the two halves together again. -/
theorem start_command : (command write lba count prp1).start = lba.toNat := by
  have hlt := lba.toNat_lt
  have hhigh : (lba >>> 32).toUInt32.toNat = lba.toNat / 2 ^ 32 := by
    rw [UInt64.toNat_toUInt32, UInt64.toNat_shiftRight, shiftRight_eq_div_pow]
    exact mod_eq_of_lt (by rw [show (32 : UInt64).toNat % 64 = 32 from rfl]; omega)
  unfold SqEntry.start command
  rw [hhigh, UInt64.toNat_toUInt32]
  omega

theorem length_command (hcount : count ≠ 0) :
    (command write lba count prp1).length lba_size = count * lba_size := by
  unfold SqEntry.length command
  rw [Nat.sub_add_cancel (one_le_iff_ne_zero.mpr hcount)]

/-- What crosses the end of the page is moved to the start of memory. -/
theorem address_of_crosses {i : ℕ} (h : 4096 ≤ prp1 % 4096 + i) :
    (command write lba count prp1).address i = prp1 % 4096 + i - 4096 :=
  (if_neg (by dsimp only [command]; omega)).trans (Nat.zero_add _)

theorem execute_write (m : Machine) (hcount : count ≠ 0) :
    execute lba_size m (command true lba count prp1)
      = ⟨m.phys, fill (lba.toNat * lba_size) (count * lba_size)
          (fun i => m.phys ((command true lba count prp1).address i)) m.medium⟩ := by
  have hstart : (command true lba count prp1).start = lba.toNat := start_command
  have hlen : (command true lba count prp1).length lba_size = count * lba_size :=
    length_command hcount
  rw [← hstart, ← hlen]
  rfl

theorem mem_addresses (hcount : count ≠ 0) {a : ℕ} :
    a ∈ (command write lba count prp1).addresses lba_size
      ↔ ∃ i < count * lba_size, (command write lba count prp1).address i = a := by
  unfold SqEntry.addresses
  rw [List.mem_map, length_command hcount]
  simp only [List.mem_range]

theorem fill_congr {start len : ℕ} {f g : ℕ → UInt8} {m : ℕ → UInt8} (h : ∀ i < len, f i = g i) :
    fill start len f m = fill start len g m := by
  funext a
  unfold fill
  split
  · rename_i hin
    exact h _ (by omega)
  · rfl

theorem fill_of_lt {start len i : ℕ} (f m : ℕ → UInt8) (hi : i < len) :
    fill start len f m (start + i) = f i := by
  unfold fill
  rw [if_pos ⟨Nat.le_add_right _ _, by omega⟩, Nat.add_sub_cancel_left]

/-! ## A buffer in one page -/

section

variable (m : Machine) (lba) (hcount : count ≠ 0) (hpage : prp1 % 4096 + count * lba_size ≤ 4096)

include hpage

theorem address_of_fits {i : ℕ} (hi : i < count * lba_size) :
    (command write lba count prp1).address i = prp1 + i :=
  if_pos (show prp1 % 4096 + i < 4096 by omega)

include hcount

theorem execute_write_fits : (execute lba_size m (command true lba count prp1)).medium
    = fill (lba.toNat * lba_size) (count * lba_size) (fun i => m.phys (prp1 + i)) m.medium := by
  rw [execute_write m hcount, fill_congr fun i hi => congrArg m.phys (address_of_fits lba hpage hi)]

theorem execute_read_fits : (execute lba_size m (command false lba count prp1)).phys
    = fill prp1 (count * lba_size) (fun i => m.medium (lba.toNat * lba_size + i)) m.phys := by
  have hstart : (command false lba count prp1).start = lba.toNat := start_command
  have hlen : (command false lba count prp1).length lba_size = count * lba_size :=
    length_command hcount
  have haddr : ∀ i < count * lba_size, (command false lba count prp1).address i = prp1 + i :=
    fun i hi => address_of_fits lba hpage hi
  have hrun : (execute lba_size m (command false lba count prp1)).phys
    = scatter (command false lba count prp1).address
      (fun i => m.medium (lba.toNat * lba_size + i)) m.phys (count * lba_size) := by
    rw [← hlen, ← hstart]
    rfl
  rw [hrun]
  funext a
  unfold fill
  split_ifs with hin
  · obtain ⟨i, rfl⟩ := Nat.exists_eq_add_of_le hin.1
    have hi : i < count * lba_size := by omega
    rw [Nat.add_sub_cancel_left, ← haddr i hi]
    refine scatter_of_lt (fun j hj k hk h => ?_) hi
    rw [haddr j hj, haddr k hk] at h
    omega
  · refine scatter_of_not_mem fun i hi h => hin ?_
    rw [haddr i hi] at h
    omega

theorem addresses_of_fits {a : ℕ} (ha : a ∈ (command write lba count prp1).addresses lba_size) :
    prp1 ≤ a ∧ a < prp1 + count * lba_size := by
  obtain ⟨i, hi, rfl⟩ := (mem_addresses hcount).mp ha
  rw [address_of_fits lba hpage hi]
  omega

end

end

/-! ## The direct path -/

/-- **The direct path moves blocks** for every buffer that lies in one page. -/
theorem direct_moves {lba_size count buf_phys : ℕ} (m : Machine) (lba : UInt64)
    (hcount : count ≠ 0) (hpage : buf_phys % 4096 + count * lba_size ≤ 4096) :
    Moves (direct lba_size) (fun _ => False) lba_size m lba count buf_phys := by
  have hread := congrFun (execute_read_fits lba m hcount hpage)
  constructor
  case write => exact congrFun (execute_write_fits lba m hcount hpage)
  case write_frame => exact fun a _ => rfl
  case read => exact fun i hi => (hread _).trans (fill_of_lt _ _ hi)
  case read_frame => exact fun a _ hout => (hread a).trans (if_neg hout)
  case read_medium => rfl
  case accessed => exact fun a ha => .inr (addresses_of_fits lba hcount hpage ha)

theorem direct_moves_first : 300 * 4096 % 4096 + 8 * 512 ≤ 4096
    ∧ Moves (direct 512) (fun _ => False) 512 ⟨fun _ => 0, fun _ => 1⟩ 0 8 (300 * 4096) :=
  ⟨by decide, direct_moves _ 0 (by decide) (by decide)⟩

/-! ## The path through the mailbox -/

/-- A page of memory that is not the first one; `pmm` hands out no page below 1 MB. -/
structure PhysPage where
  number : ℕ
  not_first : number ≠ 0

def PhysPage.phys (p : PhysPage) : ℕ := p.number * 4096

/-- The memory of the mailbox: its two pages. -/
def PhysPage.mailbox (p : PhysPage) (a : ℕ) : Prop := p.phys ≤ a ∧ a < p.phys + 2 * 4096

section

variable {lba_size count : ℕ} (mailbox buf : PhysPage) (m : Machine) (lba : UInt64)

theorem data_mod : (mailbox.phys + offset_of .data) % 4096 = 72 := by
  rw [offset_of_data, PhysPage.phys]
  omega

theorem PhysPage.le_phys (p : PhysPage) : 4096 ≤ p.phys :=
  Nat.le_mul_of_pos_left 4096 (Nat.pos_of_ne_zero p.not_first)

/-- The last bytes of a block are the first ones of memory. -/
theorem address_tail (write : Bool) {j : ℕ} :
    (command write lba count (mailbox.phys + offset_of .data)).address (4024 + j) = j := by
  rw [address_of_crosses (by rw [data_mod]; omega), data_mod]
  omega

/-- The last bytes of a block that is written come from the start of memory, whatever the buffer
holds. -/
theorem mailbox_write_tail (hblock : count * lba_size = 4096) {j : ℕ} (hj : j < 72) :
    ((through_mailbox lba_size mailbox.phys).write_blocks m lba count buf.phys).medium
      (lba.toNat * lba_size + (4024 + j)) = m.phys j := by
  have hcount : count ≠ 0 := by rintro rfl; omega
  have hlow := mailbox.le_phys
  unfold through_mailbox
  dsimp only
  rw [execute_write _ hcount]
  dsimp only
  rw [fill_of_lt _ _ (by omega), address_tail]
  unfold copy fill
  dsimp only
  rw [if_neg (by omega)]

/-- **Never.** A block that is moved through the mailbox is never moved as it should be: the device
accesses the first bytes of memory, which belong to nobody here. -/
theorem through_mailbox_not_moves (hblock : count * lba_size = 4096) :
    ¬ Moves (through_mailbox lba_size mailbox.phys) mailbox.mailbox lba_size m lba count
      buf.phys := by
  intro h
  have hcount : count ≠ 0 := by rintro rfl; omega
  have hlow := mailbox.le_phys
  have hbuf := buf.le_phys
  have hmem : 0 ∈ (through_mailbox lba_size mailbox.phys).accessed lba count buf.phys :=
    (mem_addresses hcount).mpr ⟨4024, by omega, address_tail (j := 0) mailbox lba true⟩
  rcases h.accessed 0 hmem with hown | hin
  · unfold PhysPage.mailbox at hown
    omega
  · omega

/-- Transfers that end before the page does are moved as they should be. -/
theorem through_mailbox_moves_short (hshort : count * lba_size ≤ 4024) (hcount : count ≠ 0) :
    Moves (through_mailbox lba_size mailbox.phys) mailbox.mailbox lba_size m lba count
        buf.phys := by
  have hpage : (mailbox.phys + offset_of .data) % 4096 + count * lba_size ≤ 4096 := by
    rw [data_mod]
    omega
  have hread := execute_read_fits lba m hcount hpage
  have hoff := offset_of_data
  constructor
  case write =>
    intro a
    refine (congrFun (execute_write_fits lba _ hcount hpage) a).trans ?_
    refine congrFun (fill_congr fun i hi => ?_) a
    dsimp only [copy]
    exact fill_of_lt _ _ hi
  case write_frame =>
    intro a hown
    unfold PhysPage.mailbox at hown
    exact if_neg (by omega)
  case read =>
    intro i hi
    unfold through_mailbox copy
    dsimp only
    rw [fill_of_lt _ _ hi, hread, fill_of_lt _ _ hi]
  case read_frame =>
    intro a hown hbuf
    unfold PhysPage.mailbox at hown
    unfold through_mailbox copy
    dsimp only
    rw [fill, if_neg hbuf, hread]
    exact if_neg (by omega)
  case read_medium => rfl
  case accessed =>
    intro a ha
    have hin := addresses_of_fits lba hcount hpage ha
    left
    unfold PhysPage.mailbox
    omega

theorem through_mailbox_moves_short_first : 7 * 512 ≤ 4024
    ∧ Moves (through_mailbox 512 (PhysPage.mk 256 (by decide)).phys)
    (PhysPage.mk 256 (by decide)).mailbox 512 ⟨fun _ => 0, fun _ => 1⟩ 0 7
      (PhysPage.mk 300 (by decide)).phys :=
  ⟨by decide, through_mailbox_moves_short _ _ _ 0 (by decide) (by decide)⟩

end

/-- The witness: block 0 of a device with sectors of 512 bytes. -/
theorem through_mailbox_not_moves_first :
    8 * 512 = 4096 ∧ ¬ Moves (through_mailbox 512 (PhysPage.mk 256 (by decide)).phys)
      (PhysPage.mk 256 (by decide)).mailbox 512 ⟨fun _ => 0, fun _ => 0⟩ 0 8
      (PhysPage.mk 300 (by decide)).phys :=
  ⟨rfl, through_mailbox_not_moves ⟨256, by decide⟩ ⟨300, by decide⟩ _ 0 rfl⟩

/-- **The end of a block is lost.** A page of ones is written to block 0, with zeros at the start of
memory: byte 4024 of the block is 0. -/
theorem write_blocks_loses_tail :
    ∃ (m : Machine) (mailbox buf : PhysPage), (∀ i < 4096, m.phys (buf.phys + i) = 1)
      ∧ ((through_mailbox 512 mailbox.phys).write_blocks m 0 8 buf.phys).medium 4024 = 0
      ∧ ¬ Moves (through_mailbox 512 mailbox.phys) mailbox.mailbox 512 m 0 8 buf.phys := by
  let mailbox : PhysPage := ⟨256, by decide⟩
  let buf : PhysPage := ⟨300, by decide⟩
  let m : Machine := ⟨fun a => if buf.phys ≤ a then 1 else 0, fun _ => 0⟩
  have htail : ((through_mailbox 512 mailbox.phys).write_blocks m 0 8 buf.phys).medium 4024 = 0 :=
    mailbox_write_tail mailbox buf m 0 (show 8 * 512 = 4096 from rfl) (j := 0) (by decide)
  have hones : ∀ i < 4096, m.phys (buf.phys + i) = 1 := fun i _ => if_pos (Nat.le_add_right _ _)
  refine ⟨m, mailbox, buf, hones, htail, ?_⟩
  intro h
  have hwrite := h.write 4024
  exact absurd hwrite (by decide)

end HepOS.Nvme
