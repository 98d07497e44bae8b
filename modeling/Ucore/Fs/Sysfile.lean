import Ucore.Fs.File
import Ucore.Mm.UserCopy

/-!
# `Ucore.Fs.Sysfile`: reading and writing for a process

`sysfile_read` and `sysfile_write` of `kern/fs/sysfile.c` in lab 8. The bytes go through a buffer of
the kernel, in chunks of at most its size. The size is a parameter of the loops, so that a buffer of
any other size can be put beside the one of the code.

Both calls ask `file_testfd` for the access first, and allocate a buffer. A round of `sysfile_read`
calls `file_read`, which moves the position, and then `copy_to_user`; a round of `sysfile_write`
calls `copy_from_user` and then `file_write`. Either loop ends when nothing is left, when a round
moves nothing, or when it has an error. The call returns the count when that is not zero, and the
error otherwise.

The process is its areas and its bytes, and the volume is that of `Ucore.Fs.File`.
-/

set_option autoImplicit false

namespace Ucore.Fs

open Ucore.Lib Ucore.Mm

/-- `IOBUF_SIZE` -/
def IOBUF_SIZE : Nat := 4096

/-- The volume with the open files, and the memory of the process that calls. -/
structure UserFiles (K : Type) where
  io : Files K
  mm : Option MmStruct
  user : Bytes

/-- What stops the kernel in a call. -/
inductive SysPanic where
  | fs (h : SfsPanic)
  | mm (h : Halt)
  /-- `assert(len >= alen)` -/
  | chunk
  | fuel
  deriving DecidableEq

/-- A system call on open files, with the memory of the process. -/
abbrev SysM (K : Type) := Routine (UserFiles K) Errno SysPanic

variable {K : Type} [DecidableEq K] {α : Type}

/-- A call of `file.c`. -/
def onFiles (x : FilesM K α) : SysM K α := fun t =>
  match x t.io with
  | .ok (r, io) => .ok (r, { t with io := io })
  | .error h => .error (.fs h)

/-- A copy between the kernel and the process. -/
def onUser (x : Option MmStruct → Bytes → Except Halt (α × Option MmStruct × Bytes)) :
    SysM K α := fun t =>
  match x t.mm t.user with
  | .ok (a, mm, user) => .ok (.ok a, { t with mm := mm, user := user })
  | .error h => .error (.mm h)

/-- `file_testfd` -/
def file_testfd (k : K) (readable writable : Bool) : FilesM K Bool :=
  Routine.read fun t =>
    match t.files k with
    | none => false
    | some file => !(readable && !file.readable) && !(writable && !file.writable)

/-- What `file_read` and `file_write` leave behind: the return value, `*copied_store`, and what is
in the buffer. -/
def ioDone : Except Errno IoResult → IoResult
  | .ok r => r
  | .error e => { ret := .error e, alen := 0, data := [] }

/-- The loop of `sysfile_read`, with a buffer of `size` bytes: `ret` and `copied` behind it. -/
def sysfile_read_loop (size : Nat) (k : K) :
    Nat → Bytes → Nat → Nat → Nat → SysM K (Except Errno Unit × Nat)
  | 0, _, _, _, _ => Routine.panic .fuel
  | fuel + 1, buffer, base, len, copied =>
      if len = 0 then return (.ok (), copied)
      else do
        let r ← (onFiles (file_read k (buffer.slice 0 (min size len)))).attempt
        let io := ioDone r
        let buffer := buffer.overlay 0 io.data
        if io.alen = 0 then return (io.ret, copied)
        else
          let ok ← onUser fun mm user => copyToUser mm user base buffer 0 io.alen
          if ok = false then
            return (if io.ret = .ok () then .error .inval else io.ret, copied)
          else
            Routine.assert .chunk fun _ => io.alen ≤ len
            if io.ret = .ok () then
              sysfile_read_loop size k fuel buffer (uintptr (base + io.alen)) (len - io.alen)
                (copied + io.alen)
            else return (io.ret, copied + io.alen)

/-- `copy_from_user` into the buffer. -/
def bufferFromUser (buffer : Bytes) (base len : Nat) : SysM K (Bool × Bytes) :=
  onUser fun mm user => do
    let (ok, mm, buffer) ← copyFromUser mm user buffer 0 base len false
    return ((ok, buffer), mm, user)

/-- The loop of `sysfile_write`, with a buffer of `size` bytes: `ret` and `copied` behind it. -/
def sysfile_write_loop (size : Nat) (k : K) :
    Nat → Bytes → Nat → Nat → Nat → SysM K (Except Errno Unit × Nat)
  | 0, _, _, _, _ => Routine.panic .fuel
  | fuel + 1, buffer, base, len, copied =>
      if len = 0 then return (.ok (), copied)
      else do
        let (ok, buffer) ← bufferFromUser buffer base (min size len)
        if ok = false then return (.error .inval, copied)
        else
          let r ← (onFiles (file_write k (buffer.slice 0 (min size len)))).attempt
          let io := ioDone r
          if io.alen = 0 then return (io.ret, copied)
          else
            Routine.assert .chunk fun _ => io.alen ≤ len
            if io.ret = .ok () then
              sysfile_write_loop size k fuel buffer (uintptr (base + io.alen)) (len - io.alen)
                (copied + io.alen)
            else return (io.ret, copied + io.alen)

/-- A number as an `int`. -/
def toInt (n : Nat) : Int := (n : Int).bmod (2 ^ 32)

/-- `out` of both functions: the count, or what the last call has returned. -/
def sysfile_out : Except Errno Unit × Nat → SysM K Int
  | (ret, copied) =>
      if copied ≠ 0 then return toInt copied
      else
        match ret with
        | .ok () => return 0
        | .error e => Routine.fail e

/-- `sysfile_read` with a buffer of `size` bytes, which `kmalloc` gives or not. -/
def sysfileRead (size : Nat) (k : K) (base len : Nat) (kmalloc : Option Bytes) : SysM K Int :=
  if len = 0 then return 0
  else do
    if (← onFiles (file_testfd k true false)) = false then Routine.fail .inval
    else
      match kmalloc with
      | none => Routine.fail .noMem
      | some buffer => do
          let r ← sysfile_read_loop size k (len + 1) buffer base len 0
          sysfile_out r

/-- `sysfile_read` -/
def sysfile_read (k : K) (base len : Nat) (kmalloc : Option Bytes) : SysM K Int :=
  sysfileRead IOBUF_SIZE k base len kmalloc

/-- `sysfile_write` with a buffer of `size` bytes, which `kmalloc` gives or not. -/
def sysfileWrite (size : Nat) (k : K) (base len : Nat) (kmalloc : Option Bytes) : SysM K Int :=
  if len = 0 then return 0
  else do
    if (← onFiles (file_testfd k false true)) = false then Routine.fail .inval
    else
      match kmalloc with
      | none => Routine.fail .noMem
      | some buffer => do
          let r ← sysfile_write_loop size k (len + 1) buffer base len 0
          sysfile_out r

/-- `sysfile_write` -/
def sysfile_write (k : K) (base len : Nat) (kmalloc : Option Bytes) : SysM K Int :=
  sysfileWrite IOBUF_SIZE k base len kmalloc

end Ucore.Fs
