/-
The callers of HepFS: the file commands of the shell (`terminal.rs`), saving in the editor
(`editor.rs`), the name prompts of the desktop (`desktop.rs`, `main.rs`), dropping dragged
files on a directory (`main.rs`) and the jobs of the `SYS_FS_*` calls (`syscall.rs`).

What matters about them is what they pass on to HepFS: which inode as parent, which string
as name, and what they look at before they do. None of them compares a new name with the
names in the directory, and the jobs take whatever inode a path leads to as a parent.

Colours, the text cursor and window state are left out; a command's reply is the text it
prints, the rows of a listing, or the bytes of a file.
-/
import HepOS.Callers.Session

set_option autoImplicit false

namespace HepOS.Callers

open Bytes Hoare HepFS Trace

/-! ## Strings

The string operations of the source that the callers use, on lists of characters. -/

/-- `trim_start_matches('/')` -/
def trim_start (s : String) : String := String.ofList (s.toList.dropWhile (· = '/'))

/-- `trim_end_matches('/')` -/
def trim_end (s : String) : String := String.ofList (s.toList.rdropWhile (· = '/'))

/-- What is before the last `/`, and what is after it. Without a `/` everything is after. -/
def split_path (path : String) : String × String :=
  (String.ofList (path.toList.rdropWhile (· ≠ '/')).dropLast,
    String.ofList (path.toList.rtakeWhile (· ≠ '/')))

/-! ## The shell -/

/-- The part of a terminal window the file commands use. -/
structure Terminal where
  cwd_ino : UInt32
  cwd_path : String

def Terminal.new : Terminal := ⟨ROOT_INO, "/"⟩

inductive Verb
  | ls | cd | cat | mkdir | touch | rm | cp | mv | write
deriving DecidableEq, Repr

inductive Reply where
  | none
  | text (msg : String)
  | rows (entries : List (String × Bool × UInt64))
  | file (data : List UInt8)

section

variable (t : Terminal) (arg1 : String)

/-- A name relative to the working directory, or an absolute path. -/
def Terminal.resolve (name : String) : CallM (Option UInt32) :=
  if name.toList.head? = some '/' then lookup name
  else do
    let entries ← look (list_dir t.cwd_ino)
    pure ((entries.find? fun e => e.2 = name).map Prod.fst)

/-- The rows `ls` prints: name, whether it is a directory, size. -/
def stat_rows : List (UInt32 × String) → CallM (List (String × Bool × UInt64))
  | [] => pure []
  | (child_ino, name) :: rest => do
    let (is_dir, sz) ← look (stat child_ino)
    let rows ← stat_rows rest
    pure ((name, is_dir, sz) :: rows)

/-- What `ls` lists: the working directory unless there is an argument. -/
def Terminal.ls_target : CallM (Option UInt32) :=
  if arg1 = "" then pure (some t.cwd_ino) else t.resolve arg1

def Terminal.ls : CallM Reply := do
  match ← t.ls_target arg1 with
  | none => pure (.text "ls: not found\n")
  | some ino => do
    let entries ← look (list_dir ino)
    if entries = [] then pure (.text "(empty)\n")
    else do
      let rows ← stat_rows entries
      pure (.rows rows)

/-- The path `cd ..` looks up. -/
def parent_path (cwd_path : String) : String :=
  let parent := (split_path (trim_end cwd_path)).1
  if parent = "" then "/" else parent

def Terminal.cd : CallM (Terminal × Reply) :=
  if arg1 = "/" then pure (⟨ROOT_INO, "/"⟩, .none)
  else if arg1 = ".." then do
    let new_ino ← lookup (parent_path t.cwd_path)
    pure (⟨new_ino.getD ROOT_INO, parent_path t.cwd_path⟩, .none)
  else do
    match ← t.resolve arg1 with
    | none => pure (t, .text "cd: not found\n")
    | some ino => do
      let (is_dir, _) ← look (stat ino)
      if is_dir then
        pure (⟨ino, if t.cwd_path = "/" then "/" ++ arg1 else t.cwd_path ++ "/" ++ arg1⟩, .none)
      else pure (t, .text "cd: not a directory\n")

def Terminal.cat : CallM Reply :=
  if arg1 = "" then pure (.text "usage: cat <file>\n")
  else do
    match ← t.resolve arg1 with
    | none => pure (.text "cat: not found\n")
    | some ino => do
      let data ← look (read_file ino)
      pure (.file data)

def Terminal.mkdir : CallM Reply :=
  if arg1 = "" then pure (.text "usage: mkdir <name>\n")
  else do
    let _ino ← create_dir t.cwd_ino arg1
    pure (.text "created\n")

def Terminal.touch : CallM Reply :=
  if arg1 = "" then pure (.text "usage: touch <name>\n")
  else do
    let _ino ← create_file t.cwd_ino arg1
    pure (.text "created\n")

def Terminal.rm : CallM Reply :=
  if arg1 = "" then pure (.text "usage: rm <name>\n")
  else do
    let ok ← remove t.cwd_ino arg1
    pure (.text (if ok then "removed\n" else "rm: failed (not found or dir not empty)\n"))

/-- `found.unwrap_or_else(|| create_file(parent, name))` -/
def or_create (found : Option UInt32) (parent : UInt32) (name : String) : CallM UInt32 :=
  match found with
  | some ino => pure ino
  | none => create_file parent name

/-- The end of `cp` and `mv`: the destination, made in the working directory when it does
not resolve, is overwritten. -/
def Terminal.put_bytes (dst : String) (bytes : List UInt8) : CallM Unit := do
  let dst_ino ← t.resolve dst
  let di ← or_create dst_ino t.cwd_ino (trim_start dst)
  write_file di bytes

def Terminal.cp (arg1 arg2 : String) : CallM Reply :=
  if arg1 = "" ∨ arg2 = "" then pure (.text "usage: cp <src> <dst>\n")
  else do
    match ← t.resolve arg1 with
    | none => pure (.text "cp: source not found\n")
    | some ino => do
      let bytes ← look (read_file ino)
      t.put_bytes arg2 bytes
      pure (.text "copied\n")

def Terminal.mv (arg1 arg2 : String) : CallM Reply :=
  if arg1 = "" ∨ arg2 = "" then pure (.text "usage: mv <src> <dst>\n")
  else do
    match ← t.resolve arg1 with
    | none => pure (.text "mv: source not found\n")
    | some ino => do
      let bytes ← look (read_file ino)
      -- removed from the working directory, wherever the source was found
      let removed ← remove t.cwd_ino (trim_start arg1)
      if removed then do
        t.put_bytes arg2 bytes
        pure (.text "moved\n")
      else pure (.text "mv: remove failed\n")

def Terminal.write (arg1 arg2 : String) : CallM Reply :=
  if arg1 = "" ∨ arg2 = "" then pure (.text "usage: write <file> <content>\n")
  else do
    let found ← t.resolve arg1
    let ino ← or_create found t.cwd_ino arg1
    write_file ino (nameBytes arg2)
    pure (.text "written\n")

def Terminal.execute (verb : Verb) (arg1 arg2 : String) :
    CallM (Terminal × Reply) := do
  match verb with
  | .cd => t.cd arg1
  | .ls => let reply ← t.ls arg1; pure (t, reply)
  | .cat => let reply ← t.cat arg1; pure (t, reply)
  | .mkdir => let reply ← t.mkdir arg1; pure (t, reply)
  | .touch => let reply ← t.touch arg1; pure (t, reply)
  | .rm => let reply ← t.rm arg1; pure (t, reply)
  | .cp => let reply ← t.cp arg1 arg2; pure (t, reply)
  | .mv => let reply ← t.mv arg1 arg2; pure (t, reply)
  | .write => let reply ← t.write arg1 arg2; pure (t, reply)

end

/-! ## The editor -/

/-- `save`: the lines, joined by newlines, into the file at `path`, which is made in the root
directory when the path leads nowhere. -/
def save (path : String) (lines : List (List UInt8)) : CallM Unit := do
  let data := List.intercalate [10] lines
  let found ← lookup path
  let ino ← or_create found ROOT_INO (trim_start path)
  write_file ino data

/-! ## The name prompts of the desktop -/

inductive PromptKind
  | NewFile
  | NewFolder
  | RenameIcon (idx : ℕ)
  | RenameFsPane
deriving DecidableEq, Repr

structure TextPrompt where
  kind : PromptKind
  buf : String
deriving DecidableEq, Repr

inductive PromptOutcome
  | CreateFile (name : String)
  | CreateFolder (name : String)
  | Rename (old_name new_name : String)
  | RenameFsPane (win_id : ℕ) (parent_ino : UInt32) (old_name new_name : String)
deriving DecidableEq, Repr

inductive IconKind
  | Program
  | FsEntry (ino : UInt32) (is_dir : Bool)
deriving DecidableEq, Repr

structure DesktopIcon where
  kind : IconKind
  label : String
deriving DecidableEq, Repr

/-- The part of the desktop the prompts use. -/
structure Desktop where
  icons : List DesktopIcon
  text_prompt : Option TextPrompt
  fs_rename_ctx : Option (ℕ × UInt32 × String)
  prompt_result : Option PromptOutcome

/-- What Enter makes of a prompt with a text in it. -/
def Desktop.outcome (d : Desktop) (kind : PromptKind) (buf : String) : Option PromptOutcome :=
  match kind with
  | .NewFile => some (.CreateFile buf)
  | .NewFolder => some (.CreateFolder buf)
  | .RenameIcon idx =>
    match d.icons[idx]? with
    | some ⟨.FsEntry _ _, label⟩ => some (.Rename label buf)
    | _ => none
  | .RenameFsPane =>
    d.fs_rename_ctx.map fun (win_id, parent_ino, old_name) =>
      .RenameFsPane win_id parent_ino old_name buf

/-- Renaming in a file window takes the context it was started with. -/
def Desktop.ctx_after (d : Desktop) (kind : PromptKind) : Option (ℕ × UInt32 × String) :=
  if kind = .RenameFsPane then none else d.fs_rename_ctx

def Desktop.prompt_on_key (d : Desktop) (c : Char) : Desktop :=
  match d.text_prompt with
  | none => d
  | some prompt =>
    -- Esc, Backspace, Enter, and the printable part of ASCII
    if c.toNat = 0x1B then { d with text_prompt := none, fs_rename_ctx := none }
    else if c.toNat = 0x08 then
      { d with text_prompt := some { prompt with buf := String.ofList prompt.buf.toList.dropLast } }
    else if c.toNat = 0x0A ∨ c.toNat = 0x0D then
      if prompt.buf = "" then { d with text_prompt := none }
      else match d.outcome prompt.kind prompt.buf with
        | none => { d with text_prompt := none }
        | some outcome =>
          { d with
            text_prompt := none
            prompt_result := some outcome
            fs_rename_ctx := d.ctx_after prompt.kind }
    else if 32 ≤ c.toNat ∧ c.toNat < 128 then
      { d with text_prompt := some { prompt with buf := prompt.buf.push c } }
    else d

/-- What `main.rs` does with the result of a prompt. -/
def handle_prompt : PromptOutcome → CallM Unit
  | .CreateFile name => do
    match ← lookup "/home/desktop" with
    | some desktop_ino => do
      let _ino ← create_file desktop_ino name
      pure ()
    | none => pure ()
  | .CreateFolder name => do
    match ← lookup "/home/desktop" with
    | some desktop_ino => do
      let _ino ← create_dir desktop_ino name
      pure ()
    | none => pure ()
  | .Rename old_name new_name => do
    match ← lookup "/home/desktop" with
    | some desktop_ino => do
      let _renamed ← rename desktop_ino old_name new_name
      pure ()
    | none => pure ()
  | .RenameFsPane _ parent_ino old_name new_name => do
    let _renamed ← rename parent_ino old_name new_name
    pure ()

/-- Keys typed into the desktop, and what comes of them. -/
def prompt_keys (d : Desktop) (keys : List Char) : CallM Unit :=
  match (keys.foldl Desktop.prompt_on_key d).prompt_result with
  | some outcome => handle_prompt outcome
  | none => pure ()

/-- The calls at the end of `resolve_file_drop`: the dragged entry and those selected with
it are moved one after another. -/
def drop_files (from_parent target_ino : UInt32) (names : List String) : CallM Unit :=
  each (fun name => do
    let _moved ← move_entry from_parent target_ino name
    pure ()) names

/-! ## The jobs of the system calls -/

def ENOENT : ℤ := -2
def ENOTDIR : ℤ := -20
def EISDIR : ℤ := -21

inductive FsOp where
  | ListDir
  | ReadFile
  | WriteFile (data : List UInt8)
  | Create (is_dir : Bool)

structure FsJob where
  op : FsOp
  path : String
  done : Bool
  result : ℤ
  out_data : List UInt8

/-- A job as `submit_fs_job` queues it. -/
def FsJob.new (op : FsOp) (path : String) : FsJob := ⟨op, path, false, 0, []⟩

/-- The bytes of a `DirEntryOut`. -/
def dir_entry_out (ino : UInt32) (name : String) : List UInt8 :=
  let bytes := (nameBytes name).take 60
  u32Bytes ino ++ u32Bytes (UInt32.ofNat bytes.length) ++ bytes
    ++ List.replicate (60 - bytes.length) 0

section

variable (job : FsJob)

def FsJob.list_dir (job : FsJob) : CallM FsJob := do
  match ← lookup job.path with
  | none => pure { job with result := ENOENT }
  | some dir_ino => do
    let (is_dir, _) ← look (stat dir_ino)
    if is_dir then do
      let entries ← look (HepFS.list_dir dir_ino)
      pure { job with
        out_data := entries.flatMap fun e => dir_entry_out e.1 e.2
        result := (entries.length : ℤ) }
    else pure { job with result := ENOTDIR }

def FsJob.read_file (job : FsJob) : CallM FsJob := do
  match ← lookup job.path with
  | none => pure { job with result := ENOENT }
  | some ino => do
    let (is_dir, _) ← look (stat ino)
    if is_dir then pure { job with result := EISDIR }
    else do
      let data ← look (HepFS.read_file ino)
      pure { job with out_data := data, result := (data.length : ℤ) }

/-- The write of a `WriteFile` job and its result. -/
def FsJob.put (ino : UInt32) (data : List UInt8) : CallM FsJob := do
  write_file ino data
  pure { job with result := (data.length : ℤ) }

def FsJob.write_file (data : List UInt8) : CallM FsJob := do
  match ← lookup job.path with
  | some ino => do
    let (is_dir, _) ← look (stat ino)
    if is_dir then pure { job with result := EISDIR }
    else job.put ino data
  | none => do
    let (parent, name) := split_path job.path
    match ← lookup parent with
    | none => pure { job with result := ENOENT }
    | some parent_ino => do
      let ino ← create_file parent_ino name
      job.put ino data

def FsJob.create (is_dir : Bool) : CallM FsJob := do
  let (parent, name) := split_path job.path
  match ← lookup parent with
  | none => pure { job with result := ENOENT }
  | some parent_ino => do
    if is_dir then do
      let _ino ← create_dir parent_ino name
      pure { job with result := 0 }
    else do
      let _ino ← create_file parent_ino name
      pure { job with result := 0 }

/-- The `match` on the operation of a job. -/
def FsJob.perform : CallM FsJob :=
  match job.op with
  | .ListDir => job.list_dir
  | .ReadFile => job.read_file
  | .WriteFile data => job.write_file data
  | .Create is_dir => job.create is_dir

/-- One round of `fs_service` with the controller at hand. -/
def fs_service : CallM FsJob :=
  if job.done then pure job
  else do
    let job ← job.perform
    pure { job with done := true }

end

end HepOS.Callers
