import Ucore.Lib.Bytes
import Ucore.Process.NewMm

/-!
# `Ucore.Process.LoadIcode`: loading a program

`load_icode` of lab 8 with the structures of `elf.h`. The program file is a parameter: its bytes,
and what the reads of it answer, so that every pattern of failing reads is one file.

A `goto` to a label that gives back what has been set up is a handler (`Routine.handle`) with the
statements behind the label: the page directory, the areas with their pages, and the structure
itself. The loop over the program headers maps an area for each one of type `ELF_PT_LOAD`, reads the
file page by page, and fills the rest with zeros. Behind it come the pages of the user stack and the
trap frame.

`argc` and `kargv` are arguments of the source that it does not use. They are not here.
-/

set_option autoImplicit false

namespace Ucore.Process

open Ucore.Lib Ucore.Mm

/-- `E_INVAL_ELF` -/
def eInvalElf : Int := 8

/-- `ELF_MAGIC`. -/
def ELF_MAGIC : Nat := 0x464C457F

/-- `ELF_PT_LOAD`. -/
def ELF_PT_LOAD : Nat := 1

/-- `USTACKTOP`, the end of the user stack. -/
def USTACKTOP : Nat := userTop

/-- `USTACKSIZE`, which is `USTACKPAGE` pages. -/
def USTACKSIZE : Nat := 256 * pgSize

/-- The fields of a `struct elfhdr` that are read. -/
structure Elfhdr where
  e_magic : Nat
  e_entry : Nat
  e_phoff : Nat
  e_phnum : Nat

/-- The fields of a `struct proghdr` that are read. -/
structure Proghdr where
  p_type : Nat
  p_flags : Nat
  p_offset : Nat
  p_va : Nat
  p_filesz : Nat
  p_memsz : Nat

/-- The field of `k` bytes at an offset. -/
def field (bs : List UInt8) (off k : Nat) : Nat := ofLe ((bs.drop off).take k)

/-- A `struct elfhdr` of 64 bytes. -/
def Elfhdr.decode (bs : List UInt8) : Elfhdr where
  e_magic := field bs 0 4
  e_entry := field bs 24 8
  e_phoff := field bs 32 8
  e_phnum := field bs 56 2

/-- A `struct proghdr` of 56 bytes. -/
def Proghdr.decode (bs : List UInt8) : Proghdr where
  p_type := field bs 0 4
  p_flags := field bs 4 4
  p_offset := field bs 8 8
  p_va := field bs 16 8
  p_filesz := field bs 32 8
  p_memsz := field bs 40 8

/-- The program headers in a buffer. -/
def proghdrs (bs : List UInt8) (e_phnum : Nat) : List Proghdr :=
  (List.range e_phnum).map fun i => Proghdr.decode ((bs.drop (56 * i)).take 56)

/-- An open program file. `read n offset len` is what the call number `n` of `load_icode_read`
answers: the bytes, or the error that it returns. -/
structure ProgramFile where
  bytes : List UInt8
  read : Nat → Nat → Nat → Except Int (List UInt8)
  read_ok : ∀ {n off len : Nat} {bs : List UInt8}, read n off len = .ok bs →
    off + len ≤ bytes.length ∧ bs = (bytes.drop off).take len
  read_error : ∀ {n off len : Nat} {ret : Int}, read n off len = .error ret → ret < 0

section

variable {κ : Type} [DecidableEq κ] (al : Allocators) (file : ProgramFile)

/-- `load_icode_read` -/
def load_icode_read (offset len : Nat) : NewMmM κ (List UInt8) := fun t =>
  .ok (file.read t.reads offset len, { t with reads := t.reads + 1 })

/-- Copy bytes to an offset in a page. -/
def writePage (page : Frame) (off : Nat) (bs : List UInt8) : NewMmM κ Unit :=
  onVm fun vm =>
    let data : PageData := fun i =>
      if off ≤ i.val ∧ i.val < off + bs.length then bs.getD (i.val - off) 0 else vm.data page i
    .ok ((), { vm with data := Function.update vm.data page data })

/-- `memset` of a part of a page to 0. -/
def clearPage (page : Frame) (off len : Nat) : NewMmM κ Unit :=
  writePage page off (List.replicate len 0)

/-- `pgdir_alloc_page` with the jump to `bad_cleanup_mmap`; `ret` still has the 0 of the last call
that succeeded. -/
def load_icode_page (k : κ) (la : Nat) (perm : PteFlags) : NewMmM κ Frame := do
  match ← pgdir_alloc_page al k la perm with
  | some page => return page
  | none => Routine.fail 0

/-- The loop over the part of a segment that is in the file. The result is `start`. -/
def load_icode_copy (k : κ) (ph : Proghdr) (perm : PteFlags) (end_file : Nat) :
    Nat → Nat → Nat → NewMmM κ Nat
  | 0, _, _ => Routine.panic .fuel
  | fuel + 1, start, la =>
      if start < end_file then do
        let page ← load_icode_page al k la perm
        let off := start - la
        let toread :=
          if end_file < uintptr (la + pgSize) then end_file - la - off else pgSize - off
        let bs ← load_icode_read file (uintptr (ph.p_offset + (start - ph.p_va))) toread
        writePage page off bs
        load_icode_copy k ph perm end_file fuel (uintptr (start + toread)) (uintptr (la + pgSize))
      else return start

/-- The loop over the pages of the BSS. -/
def load_icode_zero (k : κ) (perm : PteFlags) (end_mem : Nat) : Nat → Nat → Nat → NewMmM κ Unit
  | 0, _, _ => Routine.panic .fuel
  | fuel + 1, start, page_la =>
      if start < end_mem then do
        let page ← load_icode_page al k page_la perm
        let zerolen := if end_mem < uintptr (page_la + pgSize) then end_mem - page_la else pgSize
        clearPage page 0 zerolen
        load_icode_zero k perm end_mem fuel (uintptr (start + zerolen)) (uintptr (page_la + pgSize))
      else return ()

/-- The rest of the page in which the part in the file ends. The result is `start` and `page_la`. -/
def load_icode_rest (k : κ) (perm : PteFlags) (end_mem start : Nat) : NewMmM κ (Nat × Nat) := do
  let page_la := roundDown start pgSize
  let off := start - page_la
  if off ≠ 0 then
    let page ← load_icode_page al k page_la perm
    let zerolen := if end_mem < uintptr (page_la + pgSize) then end_mem - start else pgSize - off
    clearPage page off zerolen
    return (uintptr (start + zerolen), uintptr (page_la + pgSize))
  else return (start, page_la)

/-- The part of a segment behind what is in the file. -/
def load_icode_bss (k : κ) (perm : PteFlags) (end_mem start : Nat) : NewMmM κ Unit :=
  if start < end_mem then do
    let r ← load_icode_rest al k perm end_mem start
    load_icode_zero al k perm end_mem (2 ^ 64) r.1 r.2
  else pure ()

/-- The flags of the area of a segment. -/
def segmentFlags (ph : Proghdr) : Nat :=
  (if ph.p_flags &&& 1 ≠ 0 then vmExec else 0) ||| (if ph.p_flags &&& 2 ≠ 0 then vmWrite else 0) |||
    (if ph.p_flags &&& 4 ≠ 0 then vmRead else 0)

/-- The flags of the pages of an area. -/
def segmentPerm (vm_flags : Nat) : PteFlags :=
  pteU ||| pteV ||| (if vm_flags &&& vmRead ≠ 0 then pteR else 0) |||
    (if vm_flags &&& vmWrite ≠ 0 then pteW ||| pteR else 0) |||
    (if vm_flags &&& vmExec ≠ 0 then pteX else 0)

/-- One round of the loop over the program headers. Each round of the loops in it moves `start`
up, so `2 ^ 64` rounds are enough. -/
def load_icode_segment (k : κ) (ph : Proghdr) : NewMmM κ Unit :=
  if ph.p_type ≠ ELF_PT_LOAD then pure ()
  else if ph.p_memsz < ph.p_filesz then Routine.fail (-eInvalElf)
  else do
    let vm_flags := segmentFlags ph
    let perm := segmentPerm vm_flags
    mm_map al ph.p_va ph.p_memsz vm_flags
    let end_file := uintptr (ph.p_va + ph.p_filesz)
    let end_mem := uintptr (ph.p_va + ph.p_memsz)
    let start ← load_icode_copy al file k ph perm end_file (2 ^ 64) ph.p_va
      (roundDown ph.p_va pgSize)
    load_icode_bss al k perm end_mem start

/-- The loop over the program headers. -/
def load_icode_segments (k : κ) : List Proghdr → NewMmM κ Unit
  | [] => pure ()
  | ph :: phs => do
      load_icode_segment al file k ph
      load_icode_segments k phs

/-- The assertion on a page of the stack. -/
def load_icode_stack_page (k : κ) (la : Nat) : NewMmM κ Unit := do
  match ← pgdir_alloc_page al k la pteUser with
  | some _ => return ()
  | none => Routine.panic .noMem

/-- The user stack: an area of 256 pages, and 4 pages. -/
def load_icode_stack (k : κ) : NewMmM κ Unit := do
  load_icode_stack_page al k (USTACKTOP - pgSize)
  load_icode_stack_page al k (USTACKTOP - 2 * pgSize)
  load_icode_stack_page al k (USTACKTOP - 3 * pgSize)
  load_icode_stack_page al k (USTACKTOP - 4 * pgSize)

/-- `if (phbuf) kfree(phbuf)` -/
def kfree_phbuf : Option Nat → NewMmM κ Unit
  | some phbuf => kfree phbuf
  | none => pure ()

/-- `bad_cleanup_mmap` -/
def bad_cleanup_mmap {α : Type} (k : κ) (mm : Nat) (pgdir : Frame) (phbuf : Option Nat)
    (ret : Int) : NewMmM κ α := do
  kfree_phbuf phbuf
  exit_mmap al k
  put_pgdir pgdir
  mm_destroy mm
  Routine.fail ret

/-- The program headers and the buffer that they are in. -/
def load_icode_phdrs (elf : Elfhdr) (mm : Nat) (pgdir : Frame) :
    NewMmM κ (Option Nat × List Proghdr) := do
  let phsize := elf.e_phnum * 56
  if phsize > 0 then
    let phbuf ← (kmallocOr al (-eNoMem)).handle fun ret => do
      -- `bad_pgdir_cleanup_mm`, which keeps the page directory
      mm_destroy mm
      Routine.fail ret
    let bs ← (load_icode_read file elf.e_phoff phsize).handle fun ret => do
      kfree phbuf
      put_pgdir pgdir
      mm_destroy mm
      Routine.fail ret
    return (some phbuf, proghdrs bs elf.e_phnum)
  else return (none, [])

/-- What `load_icode` leaves in `current` and its trapframe. -/
structure Loaded where
  mm : Nat
  pgdir : Frame
  sp : Nat
  epc : Nat

/-- `load_icode` with `current->mm == NULL`. The error is what it returns, which may be 0. -/
def load_icode (k : κ) : NewMmM κ Loaded := do
  let mm ← mm_create al
  let pgdir ← (setup_pgdir al k).handle fun ret => do
    mm_destroy mm
    Routine.fail ret
  let bs ← (load_icode_read file 0 64).handle fun _ => do
    put_pgdir pgdir
    mm_destroy mm
    Routine.fail (-eInvalElf)
  let elf := Elfhdr.decode bs
  if elf.e_magic ≠ ELF_MAGIC then
    put_pgdir pgdir
    mm_destroy mm
    Routine.fail (-eInvalElf)
  else
    let phs ← load_icode_phdrs al file elf mm pgdir
    (load_icode_segments al file k phs.2).handle (bad_cleanup_mmap al k mm pgdir phs.1)
    kfree_phbuf phs.1
    (mm_map al (USTACKTOP - USTACKSIZE) USTACKSIZE (vmRead ||| vmWrite ||| vmStack)).handle
      (bad_cleanup_mmap al k mm pgdir phs.1)
    load_icode_stack al k
    return ⟨mm, pgdir, USTACKTOP, elf.e_entry⟩

end

end Ucore.Process
