import Ucore.Mm.Mmap
import Ucore.Libs.String

/-!
# `Ucore.Mm.UserCopy`: copies between the kernel and a process

`copy_from_user`, `copy_to_user` and `copy_string` of lab 8 in `kern/mm/vmm.c`. The memory of the
process and the buffer of the kernel are two runs of bytes.

Each of the three asks `user_mem_check` first, and copies nothing when that refuses. `copy_string`
asks page by page: it checks and searches the part of the string up to the next page border, and
goes on behind the border when there is no zero in it.

`user_mem_check` has decided that the process may do the access, so the copy itself is plain: page
faults that bring in a page of an area do not show at this level.
-/

set_option autoImplicit false

namespace Ucore.Mm

open Ucore.Lib Ucore.Libs

/-- `copy_from_user`: the memory at `dst` afterwards. -/
def copyFromUser (mm : Option MmStruct) (user dst : Bytes) (off src len : Nat) (writable : Bool) :
    Except Halt (Bool × Option MmStruct × Bytes) := do
  let (ok, mm) ← userMemCheck mm src len writable
  if ok = false then return (false, mm, dst)
  else return (true, mm, dst.overlay off (user.slice src len))

/-- `copy_to_user`: the memory of the process afterwards. -/
def copyToUser (mm : Option MmStruct) (user : Bytes) (dst : Nat) (src : Bytes) (off len : Nat) :
    Except Halt (Bool × Option MmStruct × Bytes) := do
  let (ok, mm) ← userMemCheck mm dst len true
  if ok = false then return (false, mm, user)
  else return (true, mm, user.overlay dst (src.slice off len))

/-- The loop of `copy_string`. The first test is whether the part is longer than what may still be
copied. -/
def copyStringLoop (user : Bytes) :
    Nat → Option MmStruct → Bytes → Nat → Nat → Nat → Nat →
      Except Halt (Bool × Option MmStruct × Bytes)
  | 0, _, _, _, _, _, _ => .error .fuel
  | fuel + 1, mm, mem, dst, src, maxn, part => do
      let part := if part > maxn then maxn else part
      let (ok, mm) ← userMemCheck mm src part false
      if ok = false then return (false, mm, mem)
      else
        let alen := strnlen user src part
        -- the zero lies in this part, and it is copied too
        if alen < part then return (true, mm, mem.overlay dst (user.slice src (alen + 1)))
        else if part = maxn then return (false, mm, mem)
        else
          -- `part = PGSIZE`: from now on `src` is at the start of a page
          copyStringLoop user fuel mm (mem.overlay dst (user.slice src part)) (dst + part)
            (uintptr (src + part)) (maxn - part) pgSize

/-- `copy_string`. Every round takes something off `maxn`, so `maxn + 1` rounds are enough. -/
def copyString (mm : Option MmStruct) (user mem : Bytes) (dst src maxn : Nat) :
    Except Halt (Bool × Option MmStruct × Bytes) :=
  -- `ROUNDDOWN(src + PGSIZE, PGSIZE) - src`, to the end of the page
  let part := uintptr (roundDown (uintptr (src + pgSize)) pgSize + 2 ^ 64 - src)
  copyStringLoop user (maxn + 1) mm mem dst src maxn part

end Ucore.Mm
