import Ucore.Proofs.Fs.Inode

/-!
# `Ucore.Proofs.Fs.Lookup`: from a path to an inode

A directory names inodes of the volume and nothing else (`FileOk.dir`), so that a lookup loads an
inode of the volume and holds one more reference to it. A lookup that fails gives back what it has
taken. Nothing but what is in memory changes.

The functions are taken from the inside out: one entry (`Counted.dirent_read`), the search in a
directory (`Counted.dirent_search`), a name (`Counted.lookup_once`), a path (`Counted.lookup`), and
the path with its device in front (`Counted.vfs_lookup`). In each statement the references that the
call holds at the end stand beside those it held at the beginning, as `more held i`. `sfs_lookup` swaps
the reference to a directory for one to what is found in it.

`LookupErr` lists the error codes: the name is not there, a part of the path is no directory, or
there is no memory.
-/

set_option autoImplicit false

namespace Ucore.Proofs.Fs

open Ucore.Lib Ucore.Fs

variable {I : Finset Nat} {i j k : Nat} {sfs sfs' : Sfs} {sin : SfsInode}
  {held opn : Nat → Nat} {index range blocks : Prop}

/-! ### Directories -/

/-- An entry of a directory names an inode of the volume, or none. -/
theorem Counted.dirent_read (h : Counted I held opn sfs) (hsin : sfs.inodes i = some sin)
    (hdir : sin.din.type = SFS_TYPE_DIR) (hk : k < sin.din.blocks) :
    (sfs_dirent_read_nolock i k).Ends sfs
      (fun entry sfs' => sfs' = sfs ∧ (entry.ino = 0 ∨ entry.ino ∈ I)) (fun _ _ => False)
      (Refuses index range blocks) := by
  have hi := (h.volume.inode i sin hsin).mem
  have hfile := h.volume.file i hi
  have hdin : (view sfs i).din = sin.din := by rw [view_eq hsin]
  have hin : k < (view sfs i).din.blocks := by
    rw [hdin]
    exact hk
  unfold sfs_dirent_read_nolock
  rw [Routine.ends_bind, ends_sfsInode hsin, Routine.ends_bind, Routine.ends_assert,
    if_pos ⟨hdir, hk⟩]
  apply (ends_load h.volume.core hi hsin hfile.mapped (fun hlt => by omega)
    (fun heq => by omega)).seq
  · intro b sfs' hload
    have hlt := hload.lt hi
    obtain rfl := hload.found hin
    have hslot : slot I sfs' (.data i k) = b := by
      rw [slot_data hi]
      exact hload.entry
    have hused := h.volume.core.used (x := .data i k) (by rw [hslot]; exact hload.ne_zero)
    rw [hslot] at hused
    rw [Routine.ends_bind, ends_block_inuse h.volume.core.pool.bits hload.ne_zero hlt,
      Routine.ends_bind, ends_check (by rw [hused]; rfl), Routine.ends_bind,
      ends_rbuf hload.ne_zero hlt (by decide) (by decide), Routine.ends_pure]
    -- the number is the first word of the block, which is that of the file
    have hino : (SfsDiskEntry.decode ((sfs'.dev b).slice 0 260)).ino =
        inoAt (view sfs' i).content k := by
      have hblock : (sfs'.dev b).slice (4096 * k % 4096) 4 =
          (view sfs' i).content.slice (4096 * k) 4 :=
        slice_block hload.entry hload.ne_zero (by omega) (by omega)
      rw [show 4096 * k % 4096 = 0 by omega] at hblock
      show ofLe (((sfs'.dev b).slice 0 260).take 4) = ofLe _
      rw [Bytes.slice_take, ← hblock]
      rfl
    rw [hino]
    exact ⟨rfl, hfile.dir (by rw [hdin]; exact hdir) k hin⟩
  · rintro e sfs' ⟨-, -, heq, -⟩
    omega
  · exact fun _ h => h

/-- The search finds an inode of the volume. -/
theorem Counted.dirent_search_loop (h : Counted I held opn sfs) (hsin : sfs.inodes i = some sin)
    (hdir : sin.din.type = SFS_TYPE_DIR) (name : List UInt8) (n : Nat)
    (hk : k + n ≤ sin.din.blocks) :
    (sfs_dirent_search_loop i name n k).Ends sfs (fun ino sfs' => sfs' = sfs ∧ ino ∈ I)
      (fun e sfs' => e = .noEnt ∧ sfs' = sfs) (Refuses index range blocks) := by
  induction n generalizing k with
  | zero => exact ⟨rfl, rfl⟩
  | succ n ih =>
      unfold sfs_dirent_search_loop
      apply (h.dirent_read hsin hdir (k := k) (by omega)).seq
      · rintro entry sfs' ⟨rfl, hino⟩
        rw [Routine.ends_ite]
        split_ifs with hfound
        · exact ⟨rfl, hino.resolve_left hfound.1⟩
        · exact ih (by omega)
      · exact fun _ _ h => h.elim
      · exact fun _ h => h

/-- The error codes of a lookup. -/
def LookupErr (e : Errno) : Prop := e = .noMem ∨ e = .noEnt ∨ e = .notDir

/-- A search in a directory changes nothing and finds an inode of the volume. -/
theorem Counted.dirent_search (h : Counted I held opn sfs) (hsin : sfs.inodes i = some sin)
    (hdir : sin.din.type = SFS_TYPE_DIR) (name : List UInt8) (kmalloc : Bool) :
    (sfs_dirent_search_nolock i name kmalloc).Ends sfs (fun ino sfs' => sfs' = sfs ∧ ino ∈ I)
      (fun e sfs' => LookupErr e ∧ sfs' = sfs) (Refuses index range blocks) := by
  unfold sfs_dirent_search_nolock
  rw [Routine.ends_bind, Routine.ends_assert]
  split_ifs with hlen hmem
  · exact ⟨Or.inl rfl, rfl⟩
  · rw [Routine.ends_bind, ends_sfsInode hsin]
    refine (h.dirent_search_loop hsin hdir name _ (by omega)).mono (fun _ _ h => h) ?_
      fun _ h => h
    rintro e sfs' ⟨rfl, rfl⟩
    exact ⟨Or.inr (Or.inl rfl), rfl⟩
  · trivial

/-- The listing of a directory leaves the volume as it is. -/
theorem Counted.getdirentry_sub (h : Counted I held opn sfs) (hsin : sfs.inodes i = some sin)
    (hdir : sin.din.type = SFS_TYPE_DIR) (n slot : Nat) (hk : k + n ≤ sin.din.blocks) :
    (sfs_getdirentry_sub_nolock i n k slot).Ends sfs (fun _ sfs' => sfs' = sfs)
      (fun _ sfs' => sfs' = sfs) (Refuses index range blocks) := by
  induction n generalizing k slot with
  | zero => rfl
  | succ n ih =>
      unfold sfs_getdirentry_sub_nolock
      apply (h.dirent_read hsin hdir (k := k) (by omega)).seq
      · rintro entry sfs' ⟨rfl, -⟩
        rw [Routine.ends_ite]
        split_ifs with hino hslot
        · rfl
        · exact ih _ (by omega)
        · exact ih _ (by omega)
      · exact fun _ _ h => h.elim
      · exact fun _ h => h

/-- Reading an entry changes nothing. -/
theorem Counted.getdirentry (h : Counted I held opn sfs) (hsin : sfs.inodes i = some sin)
    (hdir : sin.din.type = SFS_TYPE_DIR) (offset : Int) (kmalloc : Bool) :
    (sfs_getdirentry i offset kmalloc).Ends sfs (fun _ sfs' => sfs' = sfs)
      (fun _ sfs' => sfs' = sfs) (Refuses index range blocks) := by
  unfold sfs_getdirentry
  split_ifs with hmem hoff
  · rfl
  · rfl
  · rw [Routine.ends_bind, ends_sfsInode hsin, Routine.ends_ite]
    split_ifs with hfar
    · rfl
    · apply (h.getdirentry_sub hsin hdir _ _ (by omega)).seq
      · exact fun _ _ h => h
      · exact fun _ _ h => h
      · exact fun _ h => h

/-! ### Lookup -/

/-- A lookup in a directory takes one more reference to the inode that it finds. -/
theorem Counted.lookup_once (h : Counted I held opn sfs) (hsin : sfs.inodes i = some sin)
    (hdir : sin.din.type = SFS_TYPE_DIR) (name : List UInt8) (kmalloc : Bool × Bool × Bool) :
    (sfs_lookup_once i name kmalloc).Ends sfs
      (fun node sfs' => node ∈ I ∧ Calm I (more held node) opn sfs sfs')
      (fun e sfs' => LookupErr e ∧ sfs' = sfs) (Refuses index range blocks) := by
  unfold sfs_lookup_once
  apply (h.dirent_search hsin hdir name kmalloc.1).seq
  · rintro node sfs' ⟨rfl, hnode⟩
    apply (h.load_inode hnode kmalloc.2).seq
    · exact fun _ sfs' hcalm => ⟨hnode, hcalm⟩
    · rintro e sfs' ⟨rfl, rfl⟩
      exact ⟨Or.inl rfl, rfl⟩
    · exact fun _ h => h
  · exact fun _ _ h => h
  · exact fun _ h => h

/-- The order of two references does not matter. -/
theorem more_comm (held : Nat → Nat) (i j : Nat) :
    more (more held i) j = more (more held j) i := by
  by_cases hij : i = j
  · rw [hij]
  · unfold more
    rw [Function.update_of_ne (Ne.symm hij), Function.update_of_ne hij,
      Function.update_comm hij]

/-- A lookup in a directory that the call holds. The reference stays with the call. -/
theorem Counted.lookup (h : Counted I (more held i) opn sfs) (path : List UInt8)
    (kmalloc : Bool × Bool × Bool) :
    (sfs_lookup i path kmalloc).Ends sfs
      (fun node sfs' => node ∈ I ∧ Calm I (more (more held i) node) opn sfs sfs')
      (fun e sfs' => LookupErr e ∧ Calm I (more held i) opn sfs sfs')
      (Refuses index range blocks) := by
  unfold sfs_lookup
  rw [Routine.ends_bind, Routine.ends_assert]
  split_ifs with hpath
  · apply (h.ref_inc (more_pos held i)).seq
    · intro _ sfs₁ h₁
      obtain ⟨sin, hsin⟩ := h₁.counted.exists_sin (more_pos _ i)
      rw [Routine.ends_bind, ends_sfsInode hsin, Routine.ends_ite]
      split_ifs with hdir
      · apply (h₁.counted.ref_dec).seq
        · exact fun _ sfs₂ h₂ => ⟨Or.inr (Or.inr rfl), h₁.trans h₂⟩
        · exact fun _ _ h => h.elim
        · exact fun _ h => h
      · rw [Routine.ends_bind]
        apply (h₁.counted.lookup_once hsin (not_not.mp hdir) path kmalloc).attempt
        · rintro node sfs₂ ⟨hnode, h₂⟩
          have hcalm := h₁.trans h₂
          rw [more_comm] at hcalm
          apply (hcalm.counted.ref_dec).seq
          · exact fun _ sfs₃ h₃ => ⟨hnode, hcalm.trans h₃⟩
          · exact fun _ _ h => h.elim
          · exact fun _ h => h
        · rintro e sfs₂ ⟨he, rfl⟩
          apply (h₁.counted.ref_dec).seq
          · exact fun _ sfs₃ h₃ => ⟨he, h₁.trans h₃⟩
          · exact fun _ _ h => h.elim
          · exact fun _ h => h
        · exact fun _ h => h
    · exact fun _ _ h => h.elim
    · exact fun _ h => h
  · trivial

/-- The start directory of a lookup. -/
theorem Counted.get_device (h : Counted I held opn sfs) (path : Path) (hstart : path.start ∈ I) :
    (get_device path).Ends sfs (fun _ sfs' => Calm I (more held path.start) opn sfs sfs')
      (fun _ _ => False) (Refuses index range blocks) := by
  unfold Ucore.Fs.get_device
  rw [Routine.ends_handle]
  apply (h.load_inode hstart path.startMem).mono
  · exact fun _ _ h => h
  · exact fun _ _ _ => trivial
  · exact fun _ h => h

/-- `vfs_lookup` holds a reference to the inode that it returns, and none when it fails. -/
theorem Counted.vfs_lookup (h : Counted I held opn sfs) (path : Path) (hstart : path.start ∈ I) :
    (vfs_lookup path).Ends sfs
      (fun node sfs' => node ∈ I ∧ Calm I (more held node) opn sfs sfs')
      (fun e sfs' => LookupErr e ∧ Calm I held opn sfs sfs') (Refuses index range blocks) := by
  unfold Ucore.Fs.vfs_lookup
  apply (h.get_device path hstart).seq
  · intro _ sfs₁ h₁
    rw [Routine.ends_ite]
    split_ifs with hname
    · exact ⟨hstart, h₁⟩
    · obtain ⟨sin, hsin⟩ := h₁.counted.exists_sin (more_pos held path.start)
      apply (ends_vop_present hsin .lookup).seq
      · rintro _ sfs₁ ⟨rfl, -⟩
        rw [Routine.ends_bind]
        apply (h₁.counted.lookup (path.name.getD []) path.nameMem).attempt
        · rintro node sfs₂ ⟨hnode, h₂⟩
          have hcalm := h₁.trans h₂
          rw [more_comm] at hcalm
          apply (hcalm.counted.ref_dec).seq
          · exact fun _ sfs₃ h₃ => ⟨hnode, hcalm.trans h₃⟩
          · exact fun _ _ h => h.elim
          · exact fun _ h => h
        · rintro e sfs₂ ⟨he, h₂⟩
          have hcalm := h₁.trans h₂
          apply (hcalm.counted.ref_dec).seq
          · exact fun _ sfs₃ h₃ => ⟨he, hcalm.trans h₃⟩
          · exact fun _ _ h => h.elim
          · exact fun _ h => h
        · exact fun _ h => h
      · exact fun _ _ h => h.elim
      · exact fun _ h => h
  · exact fun _ _ h => h.elim
  · exact fun _ h => h

end Ucore.Proofs.Fs
