import Mathlib
import Ucore.Lib.Halt

/-!
# `Ucore.Process.Files`: who uses a `struct files_struct`

The references to the open files of lab 8: `copy_files`, `put_files` and the functions of
`kern/process/proc.c` around them, with `files_create`, `dup_files`, `files_closeall` and
`files_destroy` of `kern/fs/fs.c`. Of an address space only its count is here, because `do_exit`
asks whether there is one. What the allocators, `sysfile_open` and `load_icode` come to is an
argument. `do_kill` sets a flag, and the process that it is about calls `do_exit` later on.

A `files_struct` has its count and the list of its open descriptors. The model follows the places at
which `proc->filesp` or the count is written. `stale` says that a process struct has been freed that
is still in the process list, which `do_fork` does when `copy_files` fails.

`FilesRun` is any sequence of `do_fork`, `do_execve`, `do_exit`, the end of `do_wait`, and calls
that open and close descriptors, by any process that is live. It ends when a struct is stale.
-/

set_option autoImplicit false

namespace Ucore.Process

open Ucore.Lib

/-- `FILES_STRUCT_NENTRY`: entries of 56 bytes in a page, behind a `struct files_struct` of 48. -/
def FILES_STRUCT_NENTRY : Nat := (4096 - 48) / 56

/-- The fields of a `struct files_struct`: `files_count`, and the descriptors that are `FD_OPENED`. -/
structure FilesStruct where
  count : Int
  opened : List Nat
  deriving DecidableEq, Repr

/-- The processes, their fields, and the structures that have not been freed. `stale` says that a
process struct has been freed while it is in the lists of processes; what follows has no meaning. -/
structure FileUsers (P F M : Type) where
  idleproc : P
  initproc : P
  procs : List P
  zombie : P → Bool
  mm : P → Option M
  filesp : P → Option F
  mmCount : M → Int
  files : F → Option FilesStruct
  stale : Bool

namespace FileUsers

variable {P F M : Type} [DecidableEq P] [DecidableEq F] [DecidableEq M] (s : FileUsers P F M)

/-- The live processes that use the structure. -/
def users (f : F) : List P := s.procs.filter fun p => !s.zombie p && s.filesp p = some f

/-- A change of one structure. -/
def setFiles (f : F) (filesp : Option FilesStruct) : FileUsers P F M :=
  { s with files := Function.update s.files f filesp }

/-- `files_create`, when `kmalloc` returns `f`. -/
def filesCreate (f : F) : FileUsers P F M := s.setFiles f (some ⟨0, []⟩)

/-- `fd_array_close` of each open descriptor. -/
def closeDescriptors : List Nat → FilesStruct → FilesStruct
  | [], filesp => filesp
  | fd :: fds, filesp => closeDescriptors fds { filesp with opened := filesp.opened.erase fd }

/-- `files_destroy` -/
def filesDestroy (f : F) : Except Halt (FileUsers P F M) :=
  match s.files f with
  | none => .error .assert
  | some filesp =>
      if filesp.count ≠ 0 then .error .assert
      else if (closeDescriptors filesp.opened filesp).opened ≠ [] then .error .assert
      else .ok (s.setFiles f none)

/-- `files_closeall`: all descriptors but the first two. -/
def filesCloseall (p : P) : Except Halt (FileUsers P F M) :=
  match s.filesp p with
  | none => .error .assert
  | some f =>
      match s.files f with
      | none => .error .assert
      | some filesp =>
          if filesp.count > 0 then
            .ok (s.setFiles f (some (closeDescriptors (filesp.opened.filter (2 ≤ ·)) filesp)))
          else .error .assert

/-- `sysfile_open`, of a path that leads to a file: `fd_array_alloc` takes the first entry that is
free. The result is whether there is one. -/
def sysfileOpen (p : P) : Except Halt (Bool × FileUsers P F M) :=
  match s.filesp p with
  | none => .error .assert
  | some f =>
      match s.files f with
      | none => .error .assert
      | some filesp =>
          if filesp.count > 0 then
            match (List.range FILES_STRUCT_NENTRY).find? fun fd => fd ∉ filesp.opened with
            | some fd => .ok (true, s.setFiles f (some { filesp with opened := fd :: filesp.opened }))
            | none => .ok (false, s)
          else .error .assert

/-- `dup_files` from the structure `old` to the new structure `f`. -/
def dupFiles (f old : F) : Except Halt (FileUsers P F M) :=
  match s.files f, s.files old with
  | some to_, some from_ =>
      if to_.count = 0 ∧ from_.count > 0 then
        .ok (s.setFiles f (some { to_ with opened := from_.opened }))
      else .error .assert
  | _, _ => .error .assert

/-- The label `good_files_struct`: `files_count_inc`, and the pointer in `proc`. -/
def takeFiles (proc : P) (f : F) : Except Halt (FileUsers P F M) :=
  match s.files f with
  | none => .error .assert
  | some filesp =>
      .ok { s.setFiles f (some { filesp with count := filesp.count + 1 }) with
        filesp := Function.update s.filesp proc (some f) }

/-- `copy_files`. `fresh` is what `kmalloc` returns. The result is whether it returns 0. -/
def copyFiles (cloneFs : Bool) (current proc : P) (fresh : Option F) :
    Except Halt (Bool × FileUsers P F M) :=
  match s.filesp current with
  | none => .error .assert
  | some old => do
      if cloneFs = true then
        let s ← s.takeFiles proc old
        return (true, s)
      else
        match fresh with
        | none => return (false, s)
        | some f =>
            let s ← (s.filesCreate f).dupFiles f old
            let s ← s.takeFiles proc f
            return (true, s)

/-- `put_files` -/
def putFiles (proc : P) : Except Halt (FileUsers P F M) :=
  match s.filesp proc with
  | none => .ok s
  | some f =>
      match s.files f with
      | none => .error .assert
      | some filesp =>
          let s := s.setFiles f (some { filesp with count := filesp.count - 1 })
          if filesp.count - 1 = 0 then s.filesDestroy f else .ok s

/-- `copy_mm`. `fresh` is the duplicate of the address space, if there could be one. The result is
whether it returns 0. -/
def copyMm (cloneVm : Bool) (current proc : P) (fresh : Option M) : Bool × FileUsers P F M :=
  match s.mm current with
  | none => (true, s)
  | some old =>
      match if cloneVm = true then some (old, s.mmCount old) else fresh.map (·, 0) with
      | none => (false, s)
      | some (m, count) =>
          (true, { s with
            mmCount := Function.update s.mmCount m (count + 1)
            mm := Function.update s.mm proc (some m) })

/-- What the allocators come to in a `do_fork`: `alloc_proc`, `setup_kstack`, `copy_mm` and
`files_create`. -/
structure ForkAlloc (F M : Type) where
  proc : Bool
  kstack : Bool
  mm : Option M
  files : Option F

/-- `do_fork` of `current`; the new process struct is `proc`. When `copy_files` fails, the struct is
freed after `set_links` and `wakeup_proc`. -/
def doFork (cloneVm cloneFs : Bool) (current proc : P) (alloc : ForkAlloc F M) :
    Except Halt (FileUsers P F M) :=
  if 4096 ≤ s.procs.length then .ok s
  else if alloc.proc = false then .ok s
  else
    -- `alloc_proc`
    let s₁ := { s with
      zombie := Function.update s.zombie proc false
      mm := Function.update s.mm proc none
      filesp := Function.update s.filesp proc none }
    if alloc.kstack = false then .ok s
    else
      match s₁.copyMm cloneVm current proc alloc.mm with
      | (false, _) => .ok s
      | (true, s₂) => do
          let s₃ := { s₂ with procs := proc :: s₂.procs }
          let (ok, s₄) ← s₃.copyFiles cloneFs current proc alloc.files
          if ok = true then return s₄
          else return { s₄ with stale := true }

/-- Give up the address space: `mm_count_dec`, and `current->mm = NULL`. -/
def dropMm (p : P) (m : M) : FileUsers P F M :=
  { s with
    mmCount := Function.update s.mmCount m (s.mmCount m - 1)
    mm := Function.update s.mm p none }

/-- `do_execve` gives up the address space, if there is one. -/
def releaseMm (p : P) : FileUsers P F M :=
  match s.mm p with
  | some m => s.dropMm p m
  | none => s

/-- `do_exit`, up to the call of `schedule`. -/
def doExit (p : P) : Except Halt (FileUsers P F M) :=
  if p = s.idleproc ∨ p = s.initproc then .error .assert
  else do
    let s ← match s.mm p with
      | some m => (s.dropMm p m).putFiles p
      | none => .ok s
    return { s with zombie := Function.update s.zombie p true }

/-- How far a `do_execve` comes: an argument is refused, the path leads to no file, or `load_icode`
gives the process an address space or returns without. -/
inductive ExecOutcome (M : Type)
  | refused
  | noFile
  | loaded (m : M)
  | notLoaded (ret : Int)

/-- `do_execve`. Nothing closes the descriptor that `sysfile_open` returns. -/
def doExecve (p : P) : ExecOutcome M → Except Halt (FileUsers P F M)
  | .refused => .ok s
  | .noFile => do
      let s ← s.filesCloseall p
      s.doExit p
  | .loaded m => do
      let s ← s.filesCloseall p
      let (ok, s) ← s.sysfileOpen p
      if ok = false then s.doExit p
      else
        let s := s.releaseMm p
        return { s with
          mmCount := Function.update s.mmCount m 1
          mm := Function.update s.mm p (some m) }
  | .notLoaded ret => do
      let s ← s.filesCloseall p
      let (ok, s) ← s.sysfileOpen p
      if ok = false then s.doExit p
      else
        let s := s.releaseMm p
        if ret ≠ 0 then s.doExit p else return s

/-- The end of `do_wait`, which frees the process struct of a child. -/
def reap (child : P) : Except Halt (FileUsers P F M) :=
  if child = s.idleproc ∨ child = s.initproc then .error .assert
  else .ok { s with procs := s.procs.erase child }

end FileUsers

/-! ### Runs -/

/-- What happens to the references: the calls of the current process, and the file calls, which
change the descriptors. -/
inductive FilesOp (P F M : Type)
  | fork (cloneVm cloneFs : Bool) (current proc : P) (alloc : FileUsers.ForkAlloc F M)
  | exec (p : P) (outcome : FileUsers.ExecOutcome M)
  | exit (p : P)
  | reap (child : P)
  | fileCall (p : P) (opened : List Nat)

namespace FilesOp

variable {P F M : Type} [DecidableEq P] [DecidableEq F] [DecidableEq M]

/-- A process that is there and not a zombie. -/
def Live (s : FileUsers P F M) (p : P) : Prop := p ∈ s.procs ∧ s.zombie p = false

/-- The current process is live, the allocators return what is free, and the child of a `do_wait` is
a zombie. -/
def Enabled (s : FileUsers P F M) : FilesOp P F M → Prop
  | fork _ _ current proc alloc => Live s current ∧ proc ∉ s.procs ∧
      ∀ f, alloc.files = some f → s.files f = none
  | exec p _ => Live s p
  | exit p => Live s p
  | reap child => child ∈ s.procs ∧ s.zombie child = true
  | fileCall p _ => Live s p

/-- The state behind a call. A call that meets an assertion has none. -/
def exec' (s : FileUsers P F M) : FilesOp P F M → Except Halt (FileUsers P F M)
  | fork cloneVm cloneFs current proc alloc => s.doFork cloneVm cloneFs current proc alloc
  | exec p outcome => s.doExecve p outcome
  | exit p => s.doExit p
  | reap child => s.reap child
  | fileCall p opened =>
      match s.filesp p with
      | none => .error .assert
      | some f => .ok (s.setFiles f ((s.files f).map fun filesp => { filesp with opened := opened }))

/-- `do_fork` comes to `copy_files`: there is room for a process, and memory for its struct, its
stack and its address space. -/
def LinksProc (s : FileUsers P F M) (cloneVm : Bool) (current : P)
    (alloc : FileUsers.ForkAlloc F M) : Prop :=
  s.procs.length < 4096 ∧ alloc.proc = true ∧ alloc.kstack = true ∧
    (s.mm current = none ∨ cloneVm = true ∨ alloc.mm ≠ none)

/-- Whoever ends has an address space when `do_exit` looks, and there is memory for the files of a
process that is in the lists. -/
def KeepsFiles (s : FileUsers P F M) : FilesOp P F M → Prop
  | fork cloneVm cloneFs current _ alloc =>
      LinksProc s cloneVm current alloc → cloneFs = true ∨ alloc.files ≠ none
  | exec p .noFile => s.mm p ≠ none
  | exec _ (.notLoaded ret) => ret = 0
  | exit p => s.mm p ≠ none
  | _ => True

end FilesOp

/-- `proc_init` up to the call of `kernel_thread`: the process `idle` and its files. -/
def filesProcInit {P F M : Type} [DecidableEq P] [DecidableEq F] (idleproc initproc : P) (f : F) :
    FileUsers P F M where
  idleproc := idleproc
  initproc := initproc
  procs := [idleproc]
  zombie := fun _ => false
  mm := fun _ => none
  filesp := Function.update (fun _ => none) idleproc (some f)
  mmCount := fun _ => 0
  files := Function.update (fun _ => none) f (some ⟨1, []⟩)
  stale := false

/-- The states behind any calls that meet a condition. -/
inductive FilesRun {P F M : Type} [DecidableEq P] [DecidableEq F] [DecidableEq M]
    (cond : FileUsers P F M → FilesOp P F M → Prop) : FileUsers P F M → Prop
  | init (idleproc initproc : P) (f : F) : FilesRun cond (filesProcInit idleproc initproc f)
  | step {s s' : FileUsers P F M} (op : FilesOp P F M) : FilesRun cond s → s.stale = false →
      op.Enabled s → cond s op → op.exec' s = .ok s' → FilesRun cond s'

/-- The count of each structure is the number of live processes that use it, and exactly the
structures with a user have not been destroyed. -/
structure FilesCounted {P F M : Type} [DecidableEq P] [DecidableEq F] (s : FileUsers P F M) :
    Prop where
  count : ∀ f filesp, s.files f = some filesp → filesp.count = (s.users f).length
  used : ∀ f, s.files f ≠ none ↔ s.users f ≠ []

/-- What is asked of a state: the references are counted, and every live process has one. -/
structure FilesOk {P F M : Type} [DecidableEq P] [DecidableEq F] (s : FileUsers P F M) :
    Prop extends FilesCounted s where
  held : ∀ p, FilesOp.Live s p → ∃ f, s.filesp p = some f

end Ucore.Process
