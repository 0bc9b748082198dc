/-
Programs that call HepFS, and the requests they make.

The shell, the editor, the desktop prompts and the file system call of user processes are
sequences of HepFS calls with decisions in between. A `Session` is the machine state
together with a record of the requests that were made, each with the state it was made in.
The record is there for the statements only: nothing reads it. It holds the calls that may
change the disk and the paths that were looked up; `list_dir`, `stat` and `read_file`, which
change nothing and check what they are given, are not recorded.

`Logged` programs are those whose record tells the whole story: between two recorded
requests nothing but reading happens. It is closed under sequencing, so it holds of every
program written with `look` and `request`.
-/
import HepOS.HepFS.Reach
import HepOS.HepFS.Reads

set_option autoImplicit false

namespace HepOS.Callers

open Hoare HepFS List

/-! ## Sessions -/

inductive Request where
  /-- a call of a mutating operation -/
  | call (op : Op)
  /-- a walk along an absolute path -/
  | lookup (path : String)

/-- The machine, and the requests made so far. -/
structure Session where
  fs : Fs
  requests : List (Fs × Request)

abbrev CallM := EStateM Panic Session

/-- A HepFS call that is not recorded. -/
def look {α : Type} (x : FsM α) : CallM α := fun σ =>
  match x σ.fs with
  | .ok a s => .ok a { σ with fs := s }
  | .error e s => .error e { σ with fs := s }

/-- A HepFS call, recorded as `r`. -/
def request {α : Type} (r : Request) (x : FsM α) : CallM α := fun σ =>
  match x σ.fs with
  | .ok a s => .ok a ⟨s, σ.requests ++ [(σ.fs, r)]⟩
  | .error e s => .error e ⟨s, σ.requests ++ [(σ.fs, r)]⟩

def lookup (path : String) : CallM (Option UInt32) := request (.lookup path) (HepFS.lookup path)

def create_file (parent : UInt32) (name : String) : CallM UInt32 :=
  request (.call (.create_file parent name)) (HepFS.create_file parent name)

def create_dir (parent : UInt32) (name : String) : CallM UInt32 :=
  request (.call (.create_dir parent name)) (HepFS.create_dir parent name)

def write_file (ino : UInt32) (data : List UInt8) : CallM Unit :=
  request (.call (.write_file ino data)) (HepFS.write_file ino data)

def remove (parent_ino : UInt32) (name : String) : CallM Bool :=
  request (.call (.remove parent_ino name)) (HepFS.remove parent_ino name)

def rename (parent_ino : UInt32) (old_name new_name : String) : CallM Bool :=
  request (.call (.rename parent_ino old_name new_name))
    (HepFS.rename parent_ino old_name new_name)

def move_entry (from_parent to_parent : UInt32) (name : String) : CallM Bool :=
  request (.call (.move_entry from_parent to_parent name))
    (HepFS.move_entry from_parent to_parent name)

theorem request_of_ok {α : Type} {r : Request} {x : FsM α} {s s' : Fs} {a : α}
    {rs : List (Fs × Request)} (h : x s = .ok a s') :
    request r x ⟨s, rs⟩ = .ok a ⟨s', rs ++ [(s, r)]⟩ := by
  unfold request
  rw [h]

/-! ## Reading -/

/-- A program that, when it returns, has changed nothing on the disk. -/
def ReadOnly {α : Type} (x : FsM α) : Prop := ∀ s a s', x s = .ok a s' → s.To s' s.blk

section

variable {α β : Type}

theorem ReadOnly.pure (a : α) : ReadOnly (Pure.pure a : FsM α) := by
  intro s b s' h
  cases h
  exact Fs.To.rfl s

theorem ReadOnly.throw (e : Panic) : ReadOnly (MonadExcept.throw e : FsM α) := by
  intro s a s' h
  simp at h

theorem ReadOnly.bind {x : FsM α} {f : α → FsM β} (hx : ReadOnly x) (hf : ∀ a, ReadOnly (f a)) :
    ReadOnly (x >>= f) := by
  intro s b s'' h
  obtain ⟨a, s', hxs, hfs⟩ := exists_of_bind_ok h
  have ht := hx s a s' hxs
  have ht' := hf a s' b s'' hfs
  rw [ht.blk] at ht'
  exact ht.trans ht'

end

theorem readOnly : Reading ReadOnly :=
  ⟨ReadOnly.pure, ReadOnly.throw, ReadOnly.bind, by
    intro block s p t h
    obtain ⟨-, -, -, rfl⟩ := read_block_ok h
    exact ⟨rfl, rfl, rfl, Nat.le_succ _⟩⟩

theorem readOnly_stat (ino : UInt32) : ReadOnly (stat ino) := by
  apply (readOnly.read_inode _).bind
  intro inode
  apply ReadOnly.pure

/-! ## What a record says -/

/-- The request made in `s` returns in `s'`. -/
def Request.Returns (s s' : Fs) : Request → Prop
  | .call op => op.Returns s s'
  | .lookup path => ∃ r, HepFS.lookup path s = .ok r s'

/-- From `s` the recorded requests lead to `s'`, with reading only before, between and after
them. -/
inductive Recorded : Fs → List (Fs × Request) → Fs → Prop
  | done {s s' : Fs} (h : s.To s' s.blk) : Recorded s [] s'
  | request {s t t' s' : Fs} {r : Request} {rest : List (Fs × Request)} (h : s.To t s.blk)
      (hret : r.Returns t t') (hrest : Recorded t' rest s') : Recorded s ((t, r) :: rest) s'

variable {s s' t : Fs} {l : List (Fs × Request)}

theorem Recorded.read (h : s.To t s.blk)
    (hr : Recorded t l s') : Recorded s l s' := by
  cases hr with
  | done h' =>
    rw [h.blk] at h'
    exact .done (h.trans h')
  | request h' hret hrest =>
    rw [h.blk] at h'
    exact .request (h.trans h') hret hrest

theorem Recorded.append {l' : List (Fs × Request)} (h : Recorded s l t)
    (h' : Recorded t l' s') : Recorded s (l ++ l') s' := by
  induction h with
  | done ht => exact h'.read ht
  | request ht hret _ ih => exact .request ht hret (ih h')

/-- **Invariants of a record.** What reading keeps and every recorded call keeps holds at the
end, and in every state in which a request was made. -/
theorem Recorded.keeps {P : Fs → Prop}
    (h : Recorded s l s') (hs : P s) (hread : ∀ t t', P t → t.To t' t.blk → P t')
    (hcall : ∀ t op t', (t, .call op) ∈ l → P t → op.Returns t t' → P t') :
    P s' ∧ ∀ x ∈ l, P x.1 := by
  induction h with
  | done ht => exact ⟨hread _ _ hs ht, by simp⟩
  | request ht hret _ ih =>
    rename_i t t' _ r rest _
    have hmade : P t := hread _ _ hs ht
    have hafter : P t' := by
      cases r with
      | call op => exact hcall _ _ _ mem_cons_self hmade hret
      | lookup path =>
        obtain ⟨res, hres⟩ := hret
        exact hread _ _ hmade (readOnly.lookup path _ _ _ hres)
    obtain ⟨hend, hrest⟩ := ih hafter
      (fun u op u' hmem => hcall u op u' (mem_cons_of_mem _ hmem))
    refine ⟨hend, ?_⟩
    intro x hx
    rcases mem_cons.mp hx with rfl | hx
    · exact hmade
    · exact hrest x hx

/-- The program adds to the record exactly the requests it makes. -/
def Logged {α : Type} (x : CallM α) : Prop :=
  ∀ σ a σ', x σ = .ok a σ' → ∃ l, σ'.requests = σ.requests ++ l ∧ Recorded σ.fs l σ'.fs

section

variable {α β : Type}

theorem Logged.pure (a : α) : Logged (Pure.pure a : CallM α) := by
  intro σ b σ' h
  cases h
  exact ⟨[], (append_nil _).symm, .done (Fs.To.rfl _)⟩

theorem Logged.bind {x : CallM α} {f : α → CallM β} (hx : Logged x) (hf : ∀ a, Logged (f a)) :
    Logged (x >>= f) := by
  intro σ b σ'' h
  obtain ⟨a, σ', hxs, hfs⟩ := exists_of_bind_ok h
  obtain ⟨l, hl, hrec⟩ := hx σ a σ' hxs
  obtain ⟨l', hl', hrec'⟩ := hf a σ' b σ'' hfs
  exact ⟨l ++ l', by rw [hl', hl, append_assoc], hrec.append hrec'⟩

theorem Logged.ite {p : Prop} [Decidable p] {x y : CallM α} (hx : Logged x) (hy : Logged y) :
    Logged (if p then x else y) := by
  split
  · exact hx
  · exact hy

theorem Logged.look {x : FsM α} (hx : ReadOnly x) : Logged (Callers.look x) := by
  intro σ a σ' h
  unfold Callers.look at h
  split at h
  · rename_i b s hrun
    cases h
    exact ⟨[], (append_nil _).symm, .done (hx _ _ _ hrun)⟩
  · simp at h

theorem Logged.request {r : Request} {x : FsM α} (hr : ∀ s a s', x s = .ok a s' → r.Returns s s') :
    Logged (Callers.request r x) := by
  intro σ a σ' h
  unfold Callers.request at h
  split at h
  · rename_i b s hrun
    cases h
    exact ⟨_, rfl, .request (Fs.To.rfl _) (hr _ _ _ hrun) (.done (Fs.To.rfl _))⟩
  · simp at h

end

theorem logged_lookup (path : String) : Logged (lookup path) :=
  Logged.request (fun _ a _ h => ⟨a, h⟩)

theorem logged_create_file (parent : UInt32) (name : String) : Logged (create_file parent name) :=
  Logged.request (fun _ a _ h => ⟨a, h⟩)

theorem logged_create_dir (parent : UInt32) (name : String) : Logged (create_dir parent name) :=
  Logged.request (fun _ a _ h => ⟨a, h⟩)

theorem logged_write_file (ino : UInt32) (data : List UInt8) : Logged (write_file ino data) :=
  Logged.request (fun _ _ _ h => h)

theorem logged_remove (parent_ino : UInt32) (name : String) : Logged (remove parent_ino name) :=
  Logged.request (fun _ a _ h => ⟨a, h⟩)

theorem logged_rename (parent_ino : UInt32) (old_name new_name : String) :
    Logged (rename parent_ino old_name new_name) :=
  Logged.request (fun _ a _ h => ⟨a, h⟩)

theorem logged_move_entry (from_parent to_parent : UInt32) (name : String) :
    Logged (move_entry from_parent to_parent name) :=
  Logged.request (fun _ a _ h => ⟨a, h⟩)

end HepOS.Callers
