import Mathlib
import Ucore.Fs.Sfs

/-!
# `Ucore.Tools.Mksfs`: the host tool that makes the file system image

`mksfs.c` copies a directory of the host into an image, which the kernel mounts as `disk0`. It hands
out the blocks of the image one after the other and keeps the inodes and the indirect blocks in
memory until `close_sfs` writes them.

The host is what the tool reads of it: the entries of each directory as `readdir` returns them, and
what is behind an inode number. The calls of the host succeed. An inode and a block in memory are
named by their number in the image, which stands for the pointers to them.

`MkM` is a function of the tool over its state, which may end with a `bug` message (`MkBug`) or at
an assertion (`MkAssert`). The calls of `update_cache` with the hash lists are written out, the
doubly indirect block included, which is why the proofs can say that it is not reached. The
recursion of `open_dir` is on the tree of the host.
-/

set_option autoImplicit false

namespace Ucore.Tools

open Ucore.Lib Ucore.Fs

/-! ### The host -/

/-- What is behind an inode of the host that is no directory. -/
inductive HostFile where
  | reg (data : List UInt8)
  | lnk (target : List UInt8)
  /-- A FIFO, a socket or a device. -/
  | other

/-- What `readdir` has still to return of a directory: the name and the inode of each entry, and
for a directory what is in it. -/
inductive HostDir where
  | nil
  | node (name : List UInt8) (real : Nat) (rest : HostDir)
  | dir (name : List UInt8) (real : Nat) (sub rest : HostDir)

/-! ### The state -/

/-- The `bug` messages, which end the tool. -/
inductive MkBug where
  /-- `sfs_alloc_ino` -/
  | outOfSpace
  /-- `create_sfs` -/
  | imgTooSmall
  /-- `append_block` -/
  | fileTooBig
  /-- `open_dir` -/
  | nameTooLong
  /-- `open_link` -/
  | readLink
  deriving DecidableEq, Repr

/-- The assertions, by the function they stand in. -/
inductive MkAssert where
  | write_block
  | update_cache
  | append_block
  | add_entry
  | add_dir
  | open_file
  /-- A structure that has not been allocated. The tool has no such pointer. -/
  | dangling
  deriving DecidableEq, Repr

/-- A `struct inode` of the image. -/
structure MkInode where
  size : Nat
  type : Nat
  nlinks : Nat
  blocks : Nat
  direct : Fin 12 → Nat
  indirect : Nat
  db_indirect : Nat

/-- The bytes of a `struct inode`. -/
def MkInode.encode (inode : MkInode) : List UInt8 :=
  toLe 4 inode.size ++ toLe 2 inode.type ++ toLe 2 inode.nlinks ++ toLe 4 inode.blocks ++
    (List.ofFn fun k => toLe 4 (inode.direct k)).flatten ++ toLe 4 inode.indirect ++
    toLe 4 inode.db_indirect

/-- A `struct cache_inode`. -/
structure CacheInode where
  inode : MkInode
  real : Nat
  nblks : Nat
  l1 : Option Nat
  l2 : Option Nat

/-- A `struct sfs_fs` with the image. The hash lists are `inodes` and `blocks`, by the hash value;
`cacheInodes` and `cacheBlocks` are the memory behind the pointers in them. `entry` is the name in
the static buffer of `add_entry`. -/
structure MkSfs where
  super : SfsSuper
  ninos : Nat
  next_ino : Nat
  inodes : Nat → List Nat
  blocks : Nat → List Nat
  cacheInodes : Nat → Option CacheInode
  cacheBlocks : Nat → Option Bytes
  entry : List UInt8
  img : Nat → Bytes

/-- A function of the tool. -/
abbrev MkM := Routine MkSfs MkBug MkAssert

/-- `hash32`: the upper ten bits of the product with `GOLDEN_RATIO_PRIME_32` -/
def hash32 (val : Nat) : Nat := val * 0x9e370001 % 2 ^ 32 / 2 ^ 22

/-- `hash64` -/
def hash64 (val : Nat) : Nat := hash32 (val % 2 ^ 32)

/-- The `struct cache_inode` behind a pointer. -/
def cacheInode (ci : Nat) : MkM CacheInode := fun sfs =>
  match sfs.cacheInodes ci with
  | some inode => .ok (.ok inode, sfs)
  | none => .error .dangling

/-- Change the `struct cache_inode` behind a pointer. -/
def setCacheInode (ci : Nat) (f : CacheInode → CacheInode) : MkM Unit :=
  Routine.modify fun sfs =>
    { sfs with cacheInodes := Function.update sfs.cacheInodes ci ((sfs.cacheInodes ci).map f) }

/-- The `cache` of the `struct cache_block` behind a pointer. -/
def cacheBlock (cb : Nat) : MkM Bytes := fun sfs =>
  match sfs.cacheBlocks cb with
  | some cache => .ok (.ok cache, sfs)
  | none => .error .dangling

/-- Set an entry of an indirect block in memory. -/
def setCacheBlock (cb index ino : Nat) : MkM Unit :=
  Routine.modify fun sfs =>
    { sfs with
      cacheBlocks := Function.update sfs.cacheBlocks cb
        ((sfs.cacheBlocks cb).map fun cache => cache.store (index * 4) 4 ino) }

/-! ### Blocks and inodes -/

/-- `sfs_alloc_ino` -/
def sfs_alloc_ino : MkM Nat := do
  let sfs ← Routine.read id
  if sfs.next_ino < sfs.ninos then
    Routine.modify fun sfs =>
      { sfs with
        super := { sfs.super with unused_blocks := sfs.super.unused_blocks - 1 }
        next_ino := sfs.next_ino + 1 }
    return sfs.next_ino
  else
    Routine.fail .outOfSpace

/-- `(ino != 0) ? ino : sfs_alloc_ino(sfs)` -/
def given_or_alloc (ino : Nat) : MkM Nat := if ino ≠ 0 then pure ino else sfs_alloc_ino

/-- `alloc_cache_block`. The hash list is that of the argument, also when the block has another
number. -/
def alloc_cache_block (ino : Nat) : MkM Nat := do
  let cb ← given_or_alloc ino
  Routine.modify fun sfs =>
    { sfs with
      cacheBlocks := Function.update sfs.cacheBlocks cb (some fun _ => 0)
      blocks := Function.update sfs.blocks (hash32 ino) (cb :: sfs.blocks (hash32 ino)) }
  return cb

/-- `search_cache_block` -/
def search_cache_block (ino : Nat) : MkM (Option Nat) :=
  Routine.read fun sfs => (sfs.blocks (hash32 ino)).find? fun cb => cb = ino

/-- A new `struct cache_inode`. -/
def newInode (real type : Nat) : CacheInode where
  inode :=
    { size := 0, type := type, nlinks := 0, blocks := 0, direct := fun _ => 0, indirect := 0,
      db_indirect := 0 }
  real := real
  nblks := 0
  l1 := none
  l2 := none

/-- A new `struct cache_inode` goes to the head of its hash list. -/
def MkSfs.withInode (sfs : MkSfs) (ci real type : Nat) : MkSfs :=
  { sfs with
    cacheInodes := Function.update sfs.cacheInodes ci (some (newInode real type))
    inodes := Function.update sfs.inodes (hash64 real) (ci :: sfs.inodes (hash64 real)) }

/-- `alloc_cache_inode` -/
def alloc_cache_inode (real ino type : Nat) : MkM Nat := do
  let ci ← given_or_alloc ino
  Routine.modify fun sfs => sfs.withInode ci real type
  return ci

/-- `search_cache_inode` -/
def search_cache_inode (real : Nat) : MkM (Option Nat) :=
  Routine.read fun sfs =>
    (sfs.inodes (hash64 real)).find? fun ci =>
      (sfs.cacheInodes ci).any fun inode => inode.real = real

/-- `write_block`. What is behind the data is zero. -/
def write_block (data : List UInt8) (ino : Nat) : MkM Unit := do
  Routine.assert .write_block fun sfs => data.length ≤ 4096 ∧ ino < sfs.ninos
  Routine.modify fun sfs => { sfs with img := Function.update sfs.img ino (bufferBlock data) }

/-- `update_cache`. The result is what `*cbp` points to and what `*inop` is set to, which is one
number. -/
def update_cache (cb : Option Nat) (ino : Nat) : MkM Nat := do
  if ino = 0 then alloc_cache_block 0
  else
    Routine.when (cb ≠ some ino) do
      let found ← search_cache_block ino
      Routine.assert .update_cache fun _ => found = some ino
    return ino

/-- `append_block` for a block of the indirect block -/
def append_indirect (file nblks ino : Nat) : MkM Unit := do
  let ci ← cacheInode file
  let cb ← update_cache ci.l1 ci.inode.indirect
  setCacheInode file fun ci => { ci with l1 := some cb, inode := { ci.inode with indirect := cb } }
  setCacheBlock cb nblks ino

/-- `append_block` for a block behind the doubly indirect block -/
def append_db_indirect (file nblks ino : Nat) : MkM Unit := do
  let ci ← cacheInode file
  let cb₂ ← update_cache ci.l2 ci.inode.db_indirect
  setCacheInode file fun ci =>
    { ci with l2 := some cb₂, inode := { ci.inode with db_indirect := cb₂ } }
  let data₂ ← cacheBlock cb₂
  let cb₁ ← update_cache ci.l1 (data₂.load (nblks / 1024 * 4) 4)
  setCacheInode file fun ci => { ci with l1 := some cb₁ }
  setCacheBlock cb₂ (nblks / 1024) cb₁
  setCacheBlock cb₁ (nblks % 1024) ino

/-- The three cases of `append_block`. `SFS_L0_NBLKS` is 12, `SFS_L1_NBLKS` 1036. -/
def append_link (file nblks ino : Nat) : MkM Unit :=
  if h : nblks < 12 then
    setCacheInode file fun ci =>
      { ci with
        inode := { ci.inode with direct := Function.update ci.inode.direct ⟨nblks, h⟩ ino } }
  else if nblks < 1036 then append_indirect file (nblks - 12) ino
  else Routine.when (nblks < 1024 * 1024 + 1036) (append_db_indirect file (nblks - 1036) ino)

/-- `append_block`. `SFS_LN_NBLKS` is 32768. -/
def append_block (file size ino : Nat) : MkM Unit := do
  Routine.assert .append_block fun _ => size ≤ 4096
  let ci ← cacheInode file
  if 32768 ≤ ci.nblks then Routine.fail .fileTooBig
  else
    append_link file ci.nblks ino
    setCacheInode file fun ci =>
      { ci with
        nblks := ci.nblks + 1
        inode := { ci.inode with size := ci.inode.size + size, blocks := ci.inode.blocks + 1 } }

/-! ### Directories and files -/

/-- `strcpy` to the name in the static buffer. -/
def entryCopy (name entry : List UInt8) : List UInt8 := name ++ 0 :: entry.drop (name.length + 1)

/-- `add_entry`. Of the entry only `sizeof(entry->name)` bytes are written, which are its number
and 252 bytes of the name. -/
def add_entry (current file : Nat) (name : List UInt8) : MkM Unit := do
  let dir ← cacheInode current
  Routine.assert .add_entry fun _ => dir.inode.type = SFS_TYPE_DIR ∧ name.length ≤ 255
  Routine.modify fun sfs => { sfs with entry := entryCopy name sfs.entry }
  let entry ← Routine.read fun sfs => sfs.entry
  let entry_ino ← sfs_alloc_ino
  write_block ((toLe 4 file ++ entry).take 256) entry_ino
  append_block current 256 entry_ino
  setCacheInode file fun ci =>
    { ci with inode := { ci.inode with nlinks := (ci.inode.nlinks + 1) % 2 ^ 16 } }

/-- The loop of `open_file`, over `n` reads. -/
def open_file_loop (file : Nat) : Nat → List UInt8 → Nat → MkM Unit
  | 0, _, _ => pure ()
  | n + 1, data, last => do
      Routine.assert .open_file fun _ => last = 4096
      let ino ← sfs_alloc_ino
      write_block (data.take 4096) ino
      append_block file (data.take 4096).length ino
      open_file_loop file n (data.drop 4096) (data.take 4096).length

/-- `open_file` -/
def open_file (file : Nat) (data : List UInt8) : MkM Unit :=
  open_file_loop file ((data.length + 4095) / 4096) data 4096

/-- `open_link` -/
def open_link (file : Nat) (target : List UInt8) : MkM Unit := do
  let ino ← sfs_alloc_ino
  if 4096 ≤ target.length then Routine.fail .readLink
  else
    write_block target ino
    append_block file target.length ino

/-- `add_file` -/
def add_file (current : Nat) (filename : List UInt8) (real : Nat) (data : List UInt8) :
    MkM Unit := do
  match ← search_cache_inode real with
  | some file => add_entry current file filename
  | none =>
      let file ← alloc_cache_inode real 0 SFS_TYPE_FILE
      open_file file data
      add_entry current file filename

/-- `SFS_TYPE_LINK` -/
def SFS_TYPE_LINK : Nat := 3

/-- `add_link` -/
def add_link (current : Nat) (filename : List UInt8) (real : Nat) (target : List UInt8) :
    MkM Unit := do
  let file ← alloc_cache_inode real 0 SFS_TYPE_LINK
  open_link file target
  add_entry current file filename

/-- The entries that `open_dir` skips. 46 is `'.'`. -/
def skipped (name : List UInt8) : Prop :=
  name = [46] ∨ name = [46, 46] ∨ name.head? = some 46

instance (name : List UInt8) : Decidable (skipped name) := by
  unfold skipped
  infer_instance

/-- The body of the loop of `open_dir` for an entry that is no directory. -/
def open_dir_node (host : Nat → HostFile) (current : Nat) (name : List UInt8) (real : Nat) :
    MkM Unit :=
  match host real with
  | .lnk target => add_link current name real target
  | .reg data => add_file current name real data
  -- only a warning
  | .other => pure ()

/-- The first two entries of `open_dir`. -/
def open_dir_dots (current parent : Nat) : MkM Unit := do
  add_entry current current [46]
  add_entry current parent [46, 46]

/-- `add_dir` up to the call of `open_dir` -/
def add_dir_alloc (real : Nat) : MkM Nat := do
  let found ← search_cache_inode real
  Routine.assert .add_dir fun _ => found = none
  alloc_cache_inode real 0 SFS_TYPE_DIR

/-- `add_dir`, with its call of `open_dir` as an argument. -/
def add_dir (parent : Nat) (dirname : List UInt8) (real : Nat) (open_dir : Nat → MkM Unit) :
    MkM Unit := do
  let current ← add_dir_alloc real
  open_dir current
  add_entry parent current dirname

/-- The loop of `open_dir`. -/
def open_dir_loop (host : Nat → HostFile) (current : Nat) : HostDir → MkM Unit
  | .nil => pure ()
  | .node name real rest => do
      if skipped name then open_dir_loop host current rest
      else if 255 < name.length then Routine.fail .nameTooLong
      else
        open_dir_node host current name real
        open_dir_loop host current rest
  | .dir name real sub rest => do
      if skipped name then open_dir_loop host current rest
      else if 255 < name.length then Routine.fail .nameTooLong
      else
        -- the argument is `open_dir` of the directory
        add_dir current name real fun dir => do
          open_dir_dots dir current
          open_dir_loop host dir sub
        open_dir_loop host current rest

/-- `open_dir` -/
def open_dir (host : Nat → HostFile) (current parent : Nat) (dir : HostDir) : MkM Unit := do
  open_dir_dots current parent
  open_dir_loop host current dir

/-! ### The image -/

/-- The block of the image that a bit of the free map counts for: the loop of `close_sfs` over the
bits, `n` of them from `j` on. -/
def close_bits (data : Nat → BitVec 32) : Nat → Nat → Nat → BitVec 32
  | 0, _ => data
  | n + 1, j =>
      close_bits (Function.update data (j / 32) (data (j / 32) ||| 1#32 <<< (j % 32))) n (j + 1)

/-- A block of the free map, which begins with the bit `i`. -/
def close_map (ninos next_ino i : Nat) : Nat → BitVec 32 :=
  if next_ino < i + 32768 then
    let start := if i < next_ino then next_ino - i else 0
    let stop := if ninos < i + 32768 then ninos - i else 32768
    close_bits (fun _ => 0) (stop - start) start
  else fun _ => 0

/-- The bytes of a block of words. -/
def wordBytes (data : Nat → BitVec 32) : List UInt8 :=
  Bytes.slice (fun k => (toLe 4 (data (k / 4)).toNat).getD (k % 4) 0) 0 4096

/-- The loop of `close_sfs` over the blocks of the free map, `n` of them. -/
def close_freemap : Nat → Nat → Nat → MkM Unit
  | 0, _, _ => pure ()
  | n + 1, i, ino => do
      let sfs ← Routine.read id
      write_block (wordBytes (close_map sfs.ninos sfs.next_ino i)) ino
      close_freemap n (i + 32768) (ino + 1)

/-- `flush_cache_block`, over a hash list -/
def flush_cache_blocks : List Nat → MkM Unit
  | [] => pure ()
  | cb :: cbs => do
      let cache ← cacheBlock cb
      write_block (cache.slice 0 4096) cb
      flush_cache_blocks cbs

/-- `flush_cache_inode`, over a hash list -/
def flush_cache_inodes : List Nat → MkM Unit
  | [] => pure ()
  | ci :: cis => do
      let inode ← cacheInode ci
      write_block inode.inode.encode ci
      flush_cache_inodes cis

/-- The loop of `close_sfs` over the hash lists, `n` of them from `i` on. -/
def close_lists : Nat → Nat → MkM Unit
  | 0, _ => pure ()
  | n + 1, i => do
      let sfs ← Routine.read id
      flush_cache_blocks (sfs.blocks i)
      flush_cache_inodes (sfs.inodes i)
      close_lists n (i + 1)

/-- `close_sfs` -/
def close_sfs : MkM Unit := do
  let sfs ← Routine.read id
  close_freemap ((sfs.ninos + 32767) / 32768) 0 2
  write_block sfs.super.encode 0
  close_lists 1024 0

/-- The text of `super.info`, with its end. -/
def mksfsInfo : List UInt8 :=
  [115, 105, 109, 112, 108, 101, 32, 102, 105, 108, 101, 32, 115, 121, 115, 116, 101, 109, 0]

/-- `create_sfs` of an image file of `st_size` bytes. `info` is what `malloc` has left in the memory
of `super.info`. -/
def create_sfs (st_size : Nat) (info : List UInt8) (img : Nat → Bytes) : Except MkBug MkSfs :=
  let ninos := min (st_size / 4096 % 2 ^ 32) (1024 * 512)
  let next_ino := 2 + (ninos + 32767) / 32768
  if ninos ≤ next_ino then .error .imgTooSmall
  else
    let sfs : MkSfs :=
      { super :=
          { magic := SFS_MAGIC, blocks := ninos, unused_blocks := ninos - next_ino,
            info := mksfsInfo ++ info.drop 19 }
        ninos := ninos
        next_ino := next_ino
        inodes := fun _ => []
        blocks := fun _ => []
        cacheInodes := fun _ => none
        cacheBlocks := fun _ => none
        entry := List.replicate 256 0
        img := img }
    .ok (sfs.withInode SFS_BLKN_ROOT 0 SFS_TYPE_DIR)

/-- `create_img` -/
def create_img (host : Nat → HostFile) (home : HostDir) : MkM Unit := do
  open_dir host SFS_BLKN_ROOT SFS_BLKN_ROOT home
  close_sfs

end Ucore.Tools
