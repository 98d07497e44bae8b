import Ucore.Fs.SfsInode

/-!
# `Ucore.Fs.File`: open files

`vfs_open` and `vfs_close` of `vfsfile.c`, the table of open files of `file.c`, and `sfs_sync` and
`sfs_do_mount` of `sfs_fs.c`. The entries of all tables, of all processes, are under keys of one
type. An entry under a key has the status `FD_OPENED`; a call that takes one more reference to the
entry has given it back on return.

A path is looked up from a start directory: the current directory or the root of the file system. It
is the start itself or a name in it.

`Call` lists the system calls on files, each with its arguments and with what the allocators answer
during the call. `runCalls` is one call after another, whatever each returns, and `Step` is a call
that returns, with a value or an error code. `sfs_do_mount` reads the superblock, the free map and
counts the free blocks, with the checks of the source; `sfs_sync` writes back what is marked.
-/

set_option autoImplicit false

namespace Ucore.Fs

open Ucore.Lib

/-- A `struct file` that is open. -/
structure File where
  node : Nat
  pos : Int
  readable : Bool
  writable : Bool

/-- The volume and the open files. -/
structure Files (K : Type) where
  sfs : Sfs
  files : K → Option File

/-- A system call. -/
abbrev FilesM (K : Type) := Routine (Files K) Errno SfsPanic

variable {K : Type} [DecidableEq K]

/-- A call into the file system. -/
def onVolume {α : Type} (x : SfsM α) : FilesM K α :=
  x.within (fun t => t.sfs) fun t sfs => { t with sfs := sfs }

/-- `O_ACCMODE` -/
def accMode (flags : Nat) : Nat := flags % 4

/-- `O_CREAT` -/
def oCreat (flags : Nat) : Bool := flags.testBit 2

/-- `O_EXCL` -/
def oExcl (flags : Nat) : Bool := flags.testBit 3

/-- `O_TRUNC` -/
def oTrunc (flags : Nat) : Bool := flags.testBit 4

/-- `O_APPEND` -/
def oAppend (flags : Nat) : Bool := flags.testBit 5

/-- A path: the start directory, the name, and whether there is memory for what the lookup
allocates. -/
structure Path where
  start : Nat
  name : Option (List UInt8)
  startMem : Bool × Bool
  nameMem : Bool × Bool × Bool

/-- `get_device`: the start directory, with one more reference. The root is loaded by
`sfs_get_root`, and the current directory is in memory. -/
def get_device (path : Path) : SfsM Unit :=
  (sfs_load_inode path.start path.startMem).handle fun _ => Routine.panic .getRoot

/-- `vfs_lookup` -/
def vfs_lookup (path : Path) : SfsM Nat := do
  get_device path
  if path.name = none then
    return path.start
  else
    vop_op path.start .lookup
    let ret ← (sfs_lookup path.start (path.name.getD []) path.nameMem).attempt
    -- The reference of `get_device` goes back whether the name is found or not.
    inode_ref_dec path.start
    match ret with
    | .ok node => return node
    | .error e => Routine.fail e

/-- `sfs_opendir` and `sfs_openfile` -/
def sfs_open (ino : Nat) (flags : Nat) : SfsM Unit := do
  let sin ← sfsInode ino
  Routine.when (sin.din.type = SFS_TYPE_DIR ∧ (accMode flags ≠ 0 ∨ oAppend flags = true)) do
    Routine.fail .isDir

/-- `vfs_open` when the lookup fails -/
def vfs_open_missing (path : Path) (flags : Nat) (ret : Errno) : SfsM Nat :=
  if ret = .noEnt ∧ oCreat flags = true then do
    -- `vfs_lookup_parent`, and no directory has a `vop_create`
    get_device path
    Routine.panic .noVop
  else Routine.fail ret

/-- `vfs_open` from `vop_open` on -/
def vfs_open_node (node flags : Nat) : SfsM Unit := do
  vop_op node .both
  (sfs_open node flags).handle fun ret => do
    inode_ref_dec node
    Routine.fail ret
  inode_open_inc node
  -- `O_CREAT` truncates a file that is there already.
  Routine.when (oTrunc flags = true ∨ oCreat flags = true) do
    (vop_truncate node 0).handle fun ret => do
      inode_open_dec node
      inode_ref_dec node
      Routine.fail ret

/-- `vfs_open` -/
def vfs_open (path : Path) (flags : Nat) : SfsM Nat := do
  if accMode flags = 3 ∨ (oTrunc flags = true ∧ accMode flags = 0) then
    Routine.fail .inval
  else
    match ← (vfs_lookup path).attempt with
    | .error ret => vfs_open_missing path flags ret
    | .ok node =>
        -- The reference of the lookup is not given back here.
        if oExcl flags = true ∧ oCreat flags = true then
          Routine.fail .exists
        else
          vfs_open_node node flags
          return node

/-- `vfs_close` -/
def vfs_close (node : Nat) : SfsM Unit := do
  inode_open_dec node
  inode_ref_dec node

/-- The size that `sfs_fstat` returns. -/
def vop_fstat_size (node : Nat) : SfsM Nat := do
  vop_op node .both
  let sin ← sfsInode node
  return sin.din.size

/-! ### The table of open files -/

/-- `fd2file`; the error is that of every caller. -/
def fd2file (k : K) : FilesM K File := fun t =>
  match t.files k with
  | some file => .ok (.ok file, t)
  | none => .ok (.error .inval, t)

/-- `fd_array_alloc`. When the table has no free entry, the key is that of an open file. -/
def fd_array_alloc (k : K) (e : Errno) : FilesM K Unit := fun t =>
  match t.files k with
  | some _ => .ok (.error e, t)
  | none => .ok (.ok (), t)

/-- Set an entry. -/
def setFile (k : K) (file : Option File) : FilesM K Unit :=
  Routine.modify fun t => { t with files := Function.update t.files k file }

/-- The position that `file_open` begins at. -/
def file_open_pos (node flags : Nat) : FilesM K Nat :=
  if oAppend flags = true then onVolume (vop_fstat_size node) else pure 0

/-- `file_open` -/
def file_open (k : K) (path : Path) (flags : Nat) : FilesM K Unit := do
  if accMode flags = 3 then
    Routine.fail .inval
  else
    fd_array_alloc k .maxOpen
    let node ← onVolume (vfs_open path flags)
    let pos ← file_open_pos node flags
    setFile k (some { node := node, pos := pos, readable := accMode flags ≠ 1,
                      writable := accMode flags ≠ 0 })

/-- `file_close` -/
def file_close (k : K) : FilesM K Unit := do
  let file ← fd2file k
  onVolume (vfs_close file.node)
  setFile k none

/-- `file_read` and `file_write` behind the check of the permission. -/
def file_io (k : K) (file : File) (buf : List UInt8) (write : Bool) : FilesM K IoResult := do
  onVolume (vop_op file.node (if write then .write else .read))
  let r ← onVolume (sfs_io file.node buf file.pos write)
  -- `file->pos += copied`, with an error too.
  setFile k (some { file with pos := file.pos + r.alen })
  return r

/-- `file_read` -/
def file_read (k : K) (buf : List UInt8) : FilesM K IoResult := do
  let file ← fd2file k
  if file.readable = false then Routine.fail .inval
  else file_io k file buf false

/-- `file_write` -/
def file_write (k : K) (buf : List UInt8) : FilesM K IoResult := do
  let file ← fd2file k
  if file.writable = false then Routine.fail .inval
  else file_io k file buf true

/-- `whence` of `file_seek`. -/
inductive Whence where
  | set
  | cur
  | fromEnd
  | other
  deriving DecidableEq

/-- The position that `file_seek` is asked for. -/
def file_seek_pos (file : File) (pos : Int) : Whence → FilesM K Int
  | .set => pure pos
  | .cur => pure (toOff (pos + file.pos))
  | .fromEnd => do
      let size ← onVolume (vop_fstat_size file.node)
      return toOff (pos + size)
  | .other => Routine.fail .inval

/-- `file_seek` -/
def file_seek (k : K) (pos : Int) (whence : Whence) : FilesM K Unit := do
  let file ← fd2file k
  let pos ← file_seek_pos file pos whence
  onVolume (vop_op file.node .tryseek)
  onVolume (sfs_tryseek file.node pos)
  setFile k (some { file with pos := pos })

/-- `file_fsync` -/
def file_fsync (k : K) : FilesM K Unit := do
  let file ← fd2file k
  onVolume (vop_fsync file.node)

/-- `file_getdirentry`. The offset is that of the caller's `struct dirent`. -/
def file_getdirentry (k : K) (offset : Int) (kmalloc : Bool) : FilesM K (List UInt8) := do
  let file ← fd2file k
  onVolume (vop_op file.node .getdirentry)
  onVolume (sfs_getdirentry file.node offset kmalloc)

/-- `file_dup`, and `dup_files` for one entry -/
def file_dup (k₁ k₂ : K) : FilesM K Unit := do
  let file ← fd2file k₁
  fd_array_alloc k₂ .busy
  onVolume (inode_ref_inc file.node)
  onVolume (inode_open_inc file.node)
  setFile k₂ (some file)

/-! ### The whole volume -/

/-- The loop of `sfs_sync`. -/
def sfs_sync_inodes : List Nat → SfsM Unit
  | [] => pure ()
  | ino :: inos => do
      (vop_fsync ino).handle fun _ => pure ()
      sfs_sync_inodes inos

/-- The second half of `sfs_sync`. -/
def sfs_sync_freemaps : SfsM Unit := do
  let sfs ← Routine.read id
  Routine.when (sfs.super_dirty = true) do
    Routine.modify fun sfs => { sfs with super_dirty := false }
    let dirty (ret : Errno) : SfsM Unit := do
      Routine.modify fun sfs => { sfs with super_dirty := true }
      Routine.fail ret
    sfs_sync_super.handle dirty
    sfs_sync_freemap.handle dirty

/-- `sfs_sync` -/
def sfs_sync : SfsM Unit := do
  let sfs ← Routine.read id
  sfs_sync_inodes sfs.inode_list
  sfs_sync_freemaps

/-- The word of a bitmap that bytes hold. -/
def bitmapWord (data : Bytes) (ix : Nat) : BitVec 32 := BitVec.ofNat 32 (data.load (4 * ix) 4)

/-- `sfs_init_read` on a device of `d_blocks` blocks -/
def sfs_init_read (dev : Nat → Bytes) (d_blocks blkno : Nat) : Except Errno Bytes :=
  if blkno + 1 ≤ d_blocks then .ok (dev blkno) else .error .inval

/-- The loop of `sfs_init_freemap`, over `nblks` blocks. `data` is what is in the memory of the
bitmap, and `off` where the pointer is. -/
def sfs_init_freemap (dev : Nat → Bytes) (d_blocks : Nat) :
    Nat → Nat → Nat → Bytes → Except Errno Bytes
  | 0, _, _, data => .ok data
  | nblks + 1, blkno, off, data =>
      match sfs_init_read dev d_blocks blkno with
      | .error ret => .error ret
      | .ok block =>
          sfs_init_freemap dev d_blocks nblks (blkno + 1) (off + 4096)
            (data.overlay off (block.slice 0 4096))

/-- The number of set bits, as `sfs_do_mount` counts them. -/
def countFree (freemap : Bitmap) (n : Nat) : Nat :=
  ((List.range n).filter fun i => freemap.isFree i).length

/-- Whether there is memory for what `sfs_do_mount` allocates. -/
structure MountMem where
  fs : Bool
  sfs_buffer : Bool
  hash_list : Bool
  freemap : Bool × Bool

/-- `sfs_do_mount` from `bitmap_create` on -/
def sfs_do_mount_freemap (dev : Nat → Bytes) (d_blocks : Nat) (kmalloc : Bool × Bool)
    (super : SfsSuper) : Except SfsPanic (Except Errno Sfs) :=
  -- the memory behind the words is zero here; no function reads it
  match bitmap_create (fun _ => 0) kmalloc (sfs_freemap_bits super) with
  | .error () => .error .bitmap
  | .ok none => .ok (.error .noMem)
  | .ok (some freemap) =>
      match sfs_init_freemap dev d_blocks (sfs_freemap_blocks super) 2 0
          (bitmap_getdata freemap) with
      | .error ret => .ok (.error ret)
      | .ok data =>
          let freemap : Bitmap :=
            { freemap with
              map := fun ix => if ix < freemap.nwords then bitmapWord data ix else freemap.map ix }
          if countFree freemap (sfs_freemap_bits super) = super.unused_blocks then
            .ok (.ok
              { super := super
                freemap := freemap
                super_dirty := false
                inode_list := []
                inodes := fun _ => none
                dev := dev })
          else .error .mountUnused

/-- `sfs_do_mount` of a device of `d_blocks` blocks of `d_blocksize` bytes -/
def sfs_do_mount (dev : Nat → Bytes) (d_blocks d_blocksize : Nat) (kmalloc : MountMem) :
    Except SfsPanic (Except Errno Sfs) :=
  if d_blocksize ≠ 4096 then .ok (.error .naDev)
  else if kmalloc.fs = false then .ok (.error .noMem)
  else if kmalloc.sfs_buffer = false then .ok (.error .noMem)
  else
    match sfs_init_read dev d_blocks 0 with
    | .error ret => .ok (.error ret)
    | .ok sfs_buffer =>
        let super := SfsSuper.decode sfs_buffer
        if super.magic ≠ SFS_MAGIC then .ok (.error .inval)
        else if d_blocks < super.blocks then .ok (.error .inval)
        else if kmalloc.hash_list = false then .ok (.error .noMem)
        else
          sfs_do_mount_freemap dev d_blocks kmalloc.freemap
            { super with info := super.info.set 31 0 }

/-! ### Runs -/

/-- A system call of some process, or a synchronisation. -/
inductive Call (K : Type) where
  | open (k : K) (path : Path) (flags : Nat)
  | close (k : K)
  | read (k : K) (buf : List UInt8)
  | write (k : K) (buf : List UInt8)
  | seek (k : K) (pos : Int) (whence : Whence)
  | fsync (k : K)
  | getdirentry (k : K) (offset : Int) (kmalloc : Bool)
  | dup (k₁ k₂ : K)
  | sync

/-- What a call does. The values that it returns are left out. -/
def Call.run : Call K → FilesM K Unit
  | .open k path flags => file_open k path flags
  | .close k => file_close k
  | .read k buf => do let _ ← file_read k buf
  | .write k buf => do let _ ← file_write k buf
  | .seek k pos whence => file_seek k pos whence
  | .fsync k => file_fsync k
  | .getdirentry k offset kmalloc => do let _ ← file_getdirentry k offset kmalloc
  | .dup k₁ k₂ => file_dup k₁ k₂
  | .sync => onVolume sfs_sync

/-- System calls, one after another. Their error codes go to the processes. -/
def runCalls : List (Call K) → FilesM K Unit
  | [] => pure ()
  | call :: calls => do
      let _ ← call.run.attempt
      runCalls calls

/-- A call returns, with a value or an error code. -/
def Step (t : Files K) (call : Call K) (t' : Files K) : Prop :=
  ∃ r, call.run t = .ok (r, t')

end Ucore.Fs
