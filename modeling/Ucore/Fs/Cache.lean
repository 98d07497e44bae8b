import Mathlib.Logic.Function.Basic

/-!
# `Ucore.Fs.Cache`: inodes in memory, step by step

`sfs_load_inode`, `lookup_sfs_nolock`, `inode_ref_inc`, `inode_ref_dec` and `sfs_reclaim`, for any
processes. One step takes or gives the lock `fs_sem`, or changes one count, or is what stands
between two of these. A process that waits for the lock or for the disk lets the others run, with
the lock held in the second case.

The references are held in places: the variables of the processes and the fields of kernel
structures that point to an inode and have been counted. The device returns no error code, so that
writing back in `sfs_reclaim` succeeds. The open counts and the disk inodes are left out.

A process that waits for the lock is at a label in front of it, and takes it when it is free. The
program counter of a process says where in which function it stands and what its local variables
are, so that any number of processes may be in the middle of any of them.
-/

set_option autoImplicit false

namespace Ucore.Fs

/-- The counts of an inode in memory, and its number. -/
structure CacheNode where
  ino : Nat
  ref_count : Nat
  reclaim_count : Nat

/-- Where a process is. -/
inductive CachePc (N : Type) where
  /-- Outside of these functions. -/
  | out
  /-- In `sfs_load_inode`, in front of the lock. -/
  | load (ino : Nat)
  /-- In front of `lookup_sfs_nolock`. -/
  | lookup (ino : Nat)
  /-- In `lookup_sfs_nolock`, behind `vop_ref_inc`, which has returned the count. -/
  | found (n : N) (ref_count : Nat)
  /-- The inode is not in memory: in front of `sfs_create_inode`. -/
  | create (ino : Nat)
  /-- In front of the unlock of `sfs_load_inode`. -/
  | loadUnlock
  /-- In `inode_ref_dec`, in front of the lock of `sfs_reclaim`. -/
  | drop (n : N)
  /-- In front of `-- sin->reclaim_count`. -/
  | reclaim (n : N)
  /-- Behind the test: the inode is written back. -/
  | flush (n : N)
  /-- In front of the unlock at `failed_unlock`. -/
  | busy
  /-- Behind `sfs_remove_links`, in front of the unlock. -/
  | removed (n : N)
  /-- Behind the unlock, in front of `vop_kill`. -/
  | kill (n : N)

/-- The inodes in memory, by address, those on the hash lists, the holder of the lock, the
processes and the references. -/
structure Cache (P R N : Type) where
  node : N → Option CacheNode
  hash_list : List N
  lock : Option P
  pc : P → CachePc N
  held : R → Option N

variable {P R N : Type} [DecidableEq P] [DecidableEq R] [DecidableEq N]

namespace Cache

/-- The process goes on. -/
def goTo (c : Cache P R N) (p : P) (pc : CachePc N) : Cache P R N :=
  { c with pc := Function.update c.pc p pc }

/-- Change an inode in memory, or free it. -/
def setNode (c : Cache P R N) (n : N) (node : Option CacheNode) : Cache P R N :=
  { c with node := Function.update c.node n node }

/-- Put a reference into a place, or take it out. -/
def setHeld (c : Cache P R N) (r : R) (n : Option N) : Cache P R N :=
  { c with held := Function.update c.held r n }

/-- `lookup_sfs_nolock` up to the inode that it finds -/
def find (c : Cache P R N) (ino : Nat) : Option N :=
  c.hash_list.find? fun n => (c.node n).map CacheNode.ino = some ino

end Cache

/-- One step of the process `p`. -/
inductive CacheStep (p : P) (c : Cache P R N) : Cache P R N → Prop
  /-- `sfs_load_inode` is called. -/
  | load (ino : Nat) : c.pc p = .out → CacheStep p c (c.goTo p (.load ino))
  /-- `lock_sfs_fs` of `sfs_load_inode` -/
  | loadLock (ino : Nat) : c.pc p = .load ino → c.lock = none →
      CacheStep p c ({ c with lock := some p }.goTo p (.lookup ino))
  /-- `vop_ref_inc` of `lookup_sfs_nolock`: the caller has a reference, in the place `r`. -/
  | lookupInc (ino : Nat) (n : N) (node : CacheNode) (r : R) : c.pc p = .lookup ino →
      c.find ino = some n → c.node n = some node → c.held r = none →
      CacheStep p c (((c.setNode n (some { node with ref_count := node.ref_count + 1 })).setHeld r
        (some n)).goTo p (.found n (node.ref_count + 1)))
  /-- `sin->reclaim_count ++` when the count was zero -/
  | lookupRevive (n : N) (node : CacheNode) : c.pc p = .found n 1 → c.node n = some node →
      CacheStep p c ((c.setNode n (some { node with reclaim_count := node.reclaim_count + 1 })).goTo
        p .loadUnlock)
  /-- The count was not zero. -/
  | lookupDone (n : N) (ref_count : Nat) : c.pc p = .found n ref_count → ref_count ≠ 1 →
      CacheStep p c (c.goTo p .loadUnlock)
  /-- The hash list has no inode of the number. -/
  | lookupNone (ino : Nat) : c.pc p = .lookup ino → c.find ino = none →
      CacheStep p c (c.goTo p (.create ino))
  /-- `sfs_create_inode` and `sfs_set_links`, at an address that is free -/
  | create (ino : Nat) (n : N) (r : R) : c.pc p = .create ino → c.node n = none →
      c.held r = none →
      CacheStep p c (((({ c with hash_list := n :: c.hash_list }).setNode n
        (some { ino := ino, ref_count := 1, reclaim_count := 1 })).setHeld r (some n)).goTo p
          .loadUnlock)
  /-- There is no memory for the inode. -/
  | createFail (ino : Nat) : c.pc p = .create ino → CacheStep p c (c.goTo p .loadUnlock)
  /-- `unlock_sfs_fs` of `sfs_load_inode` -/
  | loadUnlock : c.pc p = .loadUnlock → CacheStep p c ({ c with lock := none }.goTo p .out)
  /-- `inode_ref_inc`, by a process that has the reference in the place `r` -/
  | refInc (n : N) (node : CacheNode) (r r' : R) : c.pc p = .out → c.held r = some n →
      c.node n = some node → c.held r' = none →
      CacheStep p c ((c.setNode n (some { node with ref_count := node.ref_count + 1 })).setHeld r'
        (some n))
  /-- `inode_ref_dec` of the reference in the place `r`; it calls `sfs_reclaim` when the count
  has become zero. -/
  | refDec (n : N) (node : CacheNode) (r : R) : c.pc p = .out → c.held r = some n →
      c.node n = some node → 0 < node.ref_count →
      CacheStep p c (((c.setNode n (some { node with ref_count := node.ref_count - 1 })).setHeld r
        none).goTo p (if node.ref_count - 1 = 0 then .drop n else .out))
  /-- `lock_sfs_fs` of `sfs_reclaim` -/
  | reclaimLock (n : N) : c.pc p = .drop n → c.lock = none →
      CacheStep p c ({ c with lock := some p }.goTo p (.reclaim n))
  /-- `-- sin->reclaim_count`, and the test behind it -/
  | reclaim (n : N) (node : CacheNode) : c.pc p = .reclaim n → c.node n = some node →
      0 < node.reclaim_count →
      CacheStep p c ((c.setNode n (some { node with reclaim_count := node.reclaim_count - 1 })).goTo
        p (if node.reclaim_count - 1 ≠ 0 ∨ node.ref_count ≠ 0 then .busy else .flush n))
  /-- `unlock_sfs_fs` at `failed_unlock` -/
  | busyUnlock : c.pc p = .busy → CacheStep p c ({ c with lock := none }.goTo p .out)
  /-- `sfs_remove_links` -/
  | remove (n : N) : c.pc p = .flush n →
      CacheStep p c ({ c with hash_list := c.hash_list.erase n }.goTo p (.removed n))
  /-- `unlock_sfs_fs` behind `sfs_remove_links` -/
  | removeUnlock (n : N) : c.pc p = .removed n →
      CacheStep p c ({ c with lock := none }.goTo p (.kill n))
  /-- `vop_kill` -/
  | kill (n : N) (node : CacheNode) : c.pc p = .kill n → c.node n = some node →
      node.ref_count = 0 → CacheStep p c ((c.setNode n none).goTo p .out)

/-- The next step of the process `p` fails an assertion, or it uses an inode that has been
freed. -/
inductive CacheFails (p : P) (c : Cache P R N) : Prop
  | freed (n : N) : c.node n = none →
      (c.pc p = .drop n ∨ c.pc p = .reclaim n ∨ c.pc p = .flush n ∨ c.pc p = .removed n ∨
        c.pc p = .kill n ∨ (∃ k, c.pc p = .found n k) ∨ n ∈ c.hash_list ∨
        ∃ r, c.held r = some n) → CacheFails p c
  | refDec (n : N) (node : CacheNode) (r : R) : c.held r = some n → c.node n = some node →
      node.ref_count = 0 → CacheFails p c
  | reclaim (n : N) (node : CacheNode) : c.pc p = .reclaim n → c.node n = some node →
      node.reclaim_count = 0 → CacheFails p c
  | kill (n : N) (node : CacheNode) : c.pc p = .kill n → c.node n = some node →
      node.ref_count ≠ 0 → CacheFails p c

/-- Steps of the processes, one after another, from an empty cache on. -/
inductive CacheRun : Cache P R N → Prop
  | init (c : Cache P R N) : (∀ n, c.node n = none) → c.hash_list = [] → c.lock = none →
      (∀ p, c.pc p = .out) → (∀ r, c.held r = none) → CacheRun c
  | step {c c' : Cache P R N} (p : P) : CacheRun c → CacheStep p c c' → CacheRun c'

end Ucore.Fs
