import Ucore.Mm.UserCopy
import Ucore.Mm.UserMem
import Ucore.Process.Files
import Ucore.Process.LoadIcode

/-!
# `Ucore.Process.Execve`: replacing a program

`do_execve` of lab 8 in `kern/process/proc.c`, with `copy_kargv`, `put_kargv`, the end of
`load_icode`, and what it calls of the file table: `files_closeall`, `sysfile_open` and `put_files`.
What `vfs_open` finds for a path is an argument. The name of the process is left out.

The functions are written over `ExecM`, which has the process with its address space and its file
table as a state, and an error code. A `goto execve_exit` is the branch that frees the arguments and
ends the process with `do_exit`, which gives the files back only when there is an address space.

`load_icode` is that of `Ucore.Process.LoadIcode`, on the file that the path leads to, with the trap
frame in the end.
-/

set_option autoImplicit false

namespace Ucore.Process

open Ucore.Lib Ucore.Libs Ucore.Mm

/-- `EXEC_MAX_ARG_NUM` -/
def EXEC_MAX_ARG_NUM : Int := 32

/-- `EXEC_MAX_ARG_LEN` -/
def EXEC_MAX_ARG_LEN : Nat := 4095

/-- `FS_MAX_FPATH_LEN` -/
def FS_MAX_FPATH_LEN : Nat := 4095

/-- `PROC_NAME_LEN` -/
def PROC_NAME_LEN : Nat := 15

/-- `E_MAX_OPEN` -/
def eMaxOpen : Int := 22

/-- The registers of a `struct trapframe`, by their numbers: `sp` is 2, and `a0` and `a1` are 10 and
11. -/
structure Trapframe where
  gpr : Nat → Nat
  epc : Nat

/-- A `struct mm_struct` that a process has: where it is, its page directory and its address space,
its areas and where they are on the heap. -/
structure ProcMm (κ : Type) where
  mm : Nat
  pgdir : Frame
  dir : κ
  areas : MmStruct
  vmas : List Nat
  mm_count : Int

/-- The current process. `user` is its memory, until it gives the address space up. `filesp` is gone
when `files_destroy` has freed it. -/
structure Execve (κ : Type) where
  new : NewMm κ
  mm : Option (ProcMm κ)
  user : Bytes
  filesp : Option FilesStruct
  tf : Trapframe
  /-- `current` is `idleproc` or `initproc`. -/
  special : Bool

/-- A kernel function of the current process. The error is what it returns. -/
abbrev ExecM (κ : Type) := Routine (Execve κ) Int Halt

/-- What `vfs_open` finds for a path. -/
structure Vfs where
  find : Bytes → Except Int ProgramFile
  find_error : ∀ {path : Bytes} {ret : Int}, find path = .error ret → ret < 0

variable {κ : Type} [DecidableEq κ] (al : Allocators)

/-- A function over the memory and the heap. -/
def onNew {α : Type} (x : NewMmM κ α) : ExecM κ α :=
  x.within (fun s => s.new) fun s new => { s with new := new }

/-- `find_vma` has changed what the process remembers. -/
def setAreas (s : Execve κ) (areas : Option MmStruct) : Execve κ :=
  { s with mm := s.mm.bind fun mm => areas.map fun areas => { mm with areas := areas } }

/-- `user_mem_check` of memory that is read. -/
def execve_mem_check (addr len : Nat) : ExecM κ Bool := fun s =>
  match userMemCheck (s.mm.map fun mm => mm.areas) addr len false with
  | .ok (ok, areas) => .ok (.ok ok, setAreas s areas)
  | .error h => .error h

/-- `copy_string` to the buffer. -/
def copy_string (buffer : Bytes) (src maxn : Nat) : ExecM κ (Bool × Bytes) := fun s =>
  match copyString (s.mm.map fun mm => mm.areas) s.user buffer 0 src maxn with
  | .ok (ok, areas, buffer) => .ok (.ok (ok, buffer), setAreas s areas)
  | .error h => .error h

/-! ### The arguments -/

/-- An entry of `kargv`: the address of the buffer, and what is in it. -/
structure Karg where
  buffer : Nat
  str : Bytes

/-- `put_kargv` -/
def put_kargv (kargv : List Karg) : ExecM κ Unit :=
  onNew (kfreeAll (kargv.map fun karg => karg.buffer))

/-- The loop of `copy_kargv`, over `n` arguments from `i` on. `junk` is what is in a new buffer. -/
def copy_kargv_loop (junk : Bytes) (argv : Nat) : Nat → Nat → List Karg → ExecM κ (List Karg)
  | 0, _, kargv => return kargv
  | n + 1, i, kargv => do
      let buffer ← (onNew (kmallocOr al (-eNoMem))).handle fun ret => do
        put_kargv kargv
        Routine.fail ret
      let src ← Routine.read fun s => s.user.load (argv + 8 * i) 8
      let r ← copy_string junk src (EXEC_MAX_ARG_LEN + 1)
      if r.1 = false then
        onNew (kfree buffer)
        put_kargv kargv
        Routine.fail (-eInval)
      else copy_kargv_loop junk argv n (i + 1) (kargv ++ [⟨buffer, r.2⟩])

/-- `copy_kargv` -/
def copy_kargv (junk : Bytes) (argc argv : Nat) : ExecM κ (List Karg) := do
  let ok ← execve_mem_check argv (8 * argc)
  if ok = false then Routine.fail (-eInval)
  else copy_kargv_loop al junk argv argc 0 []

/-! ### The files -/

/-- `files_closeall`: all descriptors but the first two. -/
def files_closeall : ExecM κ Unit := fun s =>
  match s.filesp with
  | none => .error .assert
  | some filesp =>
      if filesp.count > 0 then
        let filesp := FileUsers.closeDescriptors (filesp.opened.filter (2 ≤ ·)) filesp
        .ok (.ok (), { s with filesp := some filesp })
      else .error .assert

/-- `fd_array_alloc` of `NO_FD`: the first entry that is free. -/
def fd_array_alloc : ExecM κ Nat := fun s =>
  match s.filesp with
  | none => .error .assert
  | some filesp =>
      match (List.range FILES_STRUCT_NENTRY).find? fun fd => fd ∉ filesp.opened with
      | some fd => .ok (.ok fd, s)
      | none => .ok (.error (-eMaxOpen), s)

/-- `fd_array_open` -/
def fd_array_open (fd : Nat) : ExecM κ Unit :=
  Routine.modify fun s => { s with filesp := s.filesp.map fun filesp =>
    { filesp with opened := fd :: filesp.opened } }

/-- `file_open` with `O_RDONLY` -/
def file_open (vfs : Vfs) (path : Bytes) : ExecM κ (Nat × ProgramFile) := do
  let fd ← fd_array_alloc
  match vfs.find path with
  | .error ret => Routine.fail ret
  | .ok file => do
      fd_array_open fd
      return (fd, file)

/-- `copy_path`. The result is the address of the buffer, and the path. -/
def copy_path (junk : Bytes) (path : Nat) : ExecM κ Karg := do
  let buffer ← onNew (kmallocOr al (-eNoMem))
  let r ← copy_string junk path (FS_MAX_FPATH_LEN + 1)
  if r.1 = false then
    onNew (kfree buffer)
    Routine.fail (-eInval)
  else return ⟨buffer, r.2⟩

/-- `sysfile_open` with `O_RDONLY` -/
def sysfile_open (vfs : Vfs) (junk : Bytes) (path : Nat) : ExecM κ (Nat × ProgramFile) := do
  let to_ ← copy_path al junk path
  let ret ← (file_open vfs to_.str).attempt
  onNew (kfree to_.buffer)
  match ret with
  | .ok r => return r
  | .error ret => Routine.fail ret

/-- `put_files` -/
def put_files : ExecM κ Unit := fun s =>
  match s.filesp with
  | none => .error .assert
  | some filesp =>
      if filesp.count - 1 = 0 then .ok (.ok (), { s with filesp := none })
      else .ok (.ok (), { s with filesp := some { filesp with count := filesp.count - 1 } })

/-! ### The address space -/

/-- `mm_count_dec`, with what follows when nobody else has the structure. -/
def put_mm (mm : ProcMm κ) : ExecM κ Unit := do
  Routine.when (mm.mm_count - 1 = 0) do
    onNew do
      Routine.modify fun t => { t with mm := mm.areas, vmas := mm.vmas }
      exit_mmap al mm.dir
      put_pgdir mm.pgdir
      mm_destroy mm.mm
  Routine.modify fun s => { s with mm := none }

/-- `do_exit`, as far as the process has something to give up. -/
def do_exit : ExecM κ Unit := do
  Routine.assert .assert fun s => s.special = false
  match ← Routine.read fun s => s.mm with
  | none => pure ()
  | some mm => do
      put_mm al mm
      put_files

/-- The end of `load_icode`: `current` gets the structure and a trapframe. `argc` and `kargv` are
not looked at. -/
def load_icode_current (dir : κ) (loaded : Loaded) : ExecM κ Unit :=
  Routine.modify fun s =>
    { s with
      mm := some { mm := loaded.mm, pgdir := loaded.pgdir, dir := dir, areas := s.new.mm
                   vmas := s.new.vmas, mm_count := 1 }
      -- `memset`, and then `sp` and `epc`
      tf := { gpr := Function.update (fun _ => 0) 2 loaded.sp, epc := loaded.epc } }

/-! ### `do_execve` -/

/-- How a `do_execve` that has closed the files ends: the process exits, or the call returns 0. `fd`
is the descriptor of the program file, and `loaded` tells whether `load_icode` came to its end. -/
inductive ExecveEnd
  | exited (fd : Option Nat) (error_code : Int)
  | done (fd : Nat) (loaded : Bool)
  deriving DecidableEq, Repr

/-- The descriptor that `sysfile_open` has returned. -/
def ExecveEnd.fd : ExecveEnd → Option Nat
  | .exited fd _ => fd
  | .done fd _ => some fd

/-- `execve_exit` -/
def execve_exit (kargv : List Karg) (fd : Option Nat) (ret : Int) : ExecM κ ExecveEnd := do
  put_kargv kargv
  do_exit al
  return .exited fd ret

/-- `do_execve` behind the teardown of the old address space -/
def do_execve_enter (dir : κ) (kargv : List Karg) (fd : Nat) (file : ProgramFile) :
    ExecM κ ExecveEnd := do
  match ← (onNew (load_icode al file dir)).attempt with
  | .ok loaded => do
      load_icode_current dir loaded
      put_kargv kargv
      return .done fd true
  | .error ret =>
      if ret ≠ 0 then execve_exit al kargv (some fd) ret
      else do
        put_kargv kargv
        return .done fd false

/-- `do_execve` behind `sysfile_open` -/
def do_execve_load (dir : κ) (kargv : List Karg) (fd : Nat) (file : ProgramFile) :
    ExecM κ ExecveEnd := do
  match ← Routine.read fun s => s.mm with
  | none => pure ()
  | some mm => put_mm al mm
  do_execve_enter al dir kargv fd file

/-- The copy of the name. -/
def copy_name (name : Option Nat) : ExecM κ Unit :=
  match name with
  | none => pure ()
  | some name => do
      let r ← copy_string (fun _ => 0) name (PROC_NAME_LEN + 1)
      if r.1 = false then Routine.fail (-eInval) else pure ()

/-- `do_execve`. The error is what it returns before it closes the files. -/
def do_execve (dir : κ) (vfs : Vfs) (junk : Bytes) (name : Option Nat) (argc : Int) (argv : Nat) :
    ExecM κ ExecveEnd :=
  if ¬ (1 ≤ argc ∧ argc ≤ EXEC_MAX_ARG_NUM) then Routine.fail (-eInval)
  else do
    copy_name name
    let kargv ← copy_kargv al junk argc.toNat argv
    let path ← Routine.read fun s => s.user.load argv 8
    files_closeall
    match ← (sysfile_open al vfs junk path).attempt with
    | .error ret => execve_exit al kargv none ret
    | .ok (fd, file) => do_execve_load al dir kargv fd file

/-! ### What the new program should find -/

/-- The argument `i` with its terminating zero. -/
def argString (user : Bytes) (argv i : Nat) : List UInt8 :=
  let p := user.load (argv + 8 * i) 8
  user.slice p (strnlen user p (EXEC_MAX_ARG_LEN + 1) + 1)

/-- The program can load these bytes. -/
def Loads (vm : Vm κ) (dir : κ) (a : Nat) (bs : List UInt8) : Prop :=
  ∀ j < bs.length, userByte vm dir (a + j) = bs[j]?

/-- The runs of bytes lie in the stack, above `sp`, and apart. -/
structure StackLayout (sp : Nat) (runs : List (Nat × Nat)) : Prop where
  inside : ∀ r ∈ runs, USTACKTOP - USTACKSIZE ≤ r.1 ∧ r.1 + r.2 ≤ USTACKTOP
  above : ∀ r ∈ runs, sp ≤ r.1
  apart : runs.Pairwise fun r q => r.1 + r.2 ≤ q.1 ∨ q.1 + q.2 ≤ r.1

/-- `a0` is the number of the arguments, and `a1` points to an array of their addresses. -/
def ArgsOnStack (vm : Vm κ) (dir : κ) (tf : Trapframe) (args : List (List UInt8)) : Prop :=
  tf.gpr 10 = args.length ∧
    ∃ ptrs : List Nat, ptrs.length = args.length ∧
      Loads vm dir (tf.gpr 11) (ptrs.flatMap (toLe 8)) ∧
      (∀ pa ∈ ptrs.zip args, Loads vm dir pa.1 pa.2) ∧
      StackLayout (tf.gpr 2)
        ((tf.gpr 11, 8 * args.length) :: (ptrs.zip args).map fun pa => (pa.1, pa.2.length))

/-- The descriptor is closed, or the table is gone. -/
def Closed (s : Execve κ) (fd : Nat) : Prop := ∀ filesp, s.filesp = some filesp → fd ∉ filesp.opened

/-- What is asked of a call: a program that has been loaded finds its arguments, and the descriptor
of the program file is closed. -/
structure ExecveRight (dir : κ) (args : List (List UInt8)) (r : ExecveEnd) (s : Execve κ) :
    Prop where
  args : ∀ fd, r = .done fd true → ArgsOnStack s.new.vm dir s.tf args
  closed : ∀ fd, r.fd = some fd → Closed s fd

end Ucore.Process
