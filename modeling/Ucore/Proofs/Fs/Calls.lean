import Ucore.Proofs.Fs.Sync

/-!
# `Ucore.Proofs.Fs.Calls`: runs of system calls

`FilesOk` is the invariant of the volume and of the tables of open files between two calls. A call
either keeps it, whether it returns a value or an error code, or panics, for one of the reasons of
`ByRequest` (`FilesOk.call`). So in a run no block is ever lost or in two places, the counts of the
inodes are right, and no assertion about them fails.

## The invariant

`FilesOk` is `Counted` (`Ucore.Proofs.Fs.Inode`) with the number of table entries of an inode in
the place of the opens, and with nothing in the hands of a call. Between two calls it also holds
that every block in use has its place (`Covered`), and that the superblock and the free map are on
the disk when they are not marked (`Stored`). The tables belong to any number of processes; `users`
counts over all of them, so it needs that finitely many entries are in use (`Finitely`).

## What a call does

`Did` is the outcome of one call: the invariant, and the bytes of every file that the call may not
change. A call changes the bytes of one file at most, and only of the file that it names
(`Changes`): a write, a seek behind the end, or an `open` with `O_TRUNC` or `O_CREAT`. There is one
lemma for each function of `file.c` (`FilesOk.file_open` and its siblings), and `FilesOk.call` puts
them together. `FilesOk.run` is the induction over the calls.

## Main results

* `files_sound`: any calls of any processes keep the volume sound, and a call that does not return
  has met one of the nine panics of `ByRequest`.
* `fileBytes_spared`: only a call that names a file changes its bytes. A call other than a write
  that returns an error code changes none. A write that fails may have made the file longer, so it
  counts as a change whatever it returns.
-/

set_option autoImplicit false

namespace Ucore.Proofs.Fs

open Ucore.Lib Ucore.Fs

variable {K : Type} {I : Finset Nat} {i j : Nat} {k k₁ k₂ : K} {t t' : Files K}
  {index range blocks : Prop}

/-! ### The users of an inode -/

/-- The number of entries that an inode is open under. -/
noncomputable def users (files : K → Option File) (i : Nat) : Nat :=
  {k | (files k).map File.node = some i}.ncard

/-- The tables have finitely many entries. -/
def Finitely (files : K → Option File) : Prop := {k | files k ≠ none}.Finite

/-- With no descriptor open, no inode has a user. -/
theorem users_none : users (fun _ : K => none) = fun _ => 0 := by
  funext i
  unfold users
  simp

/-- No descriptor is open. -/
theorem finitely_none : Finitely (fun _ : K => none) := by
  unfold Finitely
  simp

section
variable [DecidableEq K]

/-- One entry of the table changes. -/
theorem Finitely.set {files : K → Option File} (h : Finitely files) (k : K)
    (file : Option File) : Finitely (Function.update files k file) := by
  refine (h.insert k).subset fun k' hk' => ?_
  by_cases hkk : k' = k
  · exact Or.inl hkk
  · rw [Set.mem_ofPred_eq, Function.update_of_ne hkk] at hk'
    exact Or.inr hk'

/-- One more entry. -/
theorem users_open {files : K → Option File} (hfin : Finitely files) (hk : files k = none)
    (file : File) :
    users (Function.update files k (some file)) = more (users files) file.node := by
  funext i
  have hout : k ∉ {k | (files k).map File.node = some i} := by
    rw [Set.mem_ofPred_eq, hk]
    simp
  have hsub : {k | (files k).map File.node = some i} ⊆ {k | files k ≠ none} := by
    intro k' hk'
    rw [Set.mem_ofPred_eq] at hk' ⊢
    intro hnone
    rw [hnone] at hk'
    cases hk'
  by_cases hi : i = file.node
  · have hset : {k' | (Function.update files k (some file) k').map File.node = some i} =
        insert k {k | (files k).map File.node = some i} := by
      ext k'
      rw [Set.mem_insert_iff, Set.mem_ofPred_eq, Set.mem_ofPred_eq]
      by_cases hkk : k' = k
      · rw [hkk, Function.update_self]
        simp [hi]
      · rw [Function.update_of_ne hkk]
        simp [hkk]
    rw [hi, more_self, ← hi]
    unfold users
    rw [hset, Set.ncard_insert_of_notMem hout (hfin.subset hsub)]
  · have hset : {k' | (Function.update files k (some file) k').map File.node = some i} =
        {k | (files k).map File.node = some i} := by
      ext k'
      rw [Set.mem_ofPred_eq, Set.mem_ofPred_eq]
      by_cases hkk : k' = k
      · rw [hkk, Function.update_self, hk]
        simp [Ne.symm hi]
      · rw [Function.update_of_ne hkk]
    rw [more_of_ne hi]
    unfold users
    rw [hset]

/-- One entry less. -/
theorem users_close {files : K → Option File} {file : File} (hfin : Finitely files)
    (hk : files k = some file) :
    users files = more (users (Function.update files k none)) file.node := by
  have h := users_open (hfin.set k none) (Function.update_self k none files) file
  rw [Function.update_idem, ← hk, Function.update_eq_self] at h
  exact h

/-- Another position in an entry. -/
theorem users_set {files : K → Option File} {file : File} (file' : File) (hfin : Finitely files)
    (hk : files k = some file) (hnode : file'.node = file.node) :
    users (Function.update files k (some file')) = users files := by
  have h := users_open (hfin.set k none) (Function.update_self k none files) file'
  rw [Function.update_idem, hnode, ← users_close hfin hk] at h
  exact h

end

/-! ### The invariant -/

/-- The invariant of the volume and of the tables of open files. -/
structure FilesOk (I : Finset Nat) (t : Files K) : Prop where
  finite : Finitely t.files
  counted : Counted I (fun _ => 0) (users t.files) t.sfs
  stored : Stored t.sfs
  covered : Covered (slot I t.sfs) t.sfs.freemap.isFree t.sfs.super.blocks
  root : SFS_BLKN_ROOT ∈ I

/-- The path of the call begins in the volume. -/
def StartsIn (I : Finset Nat) : Call K → Prop
  | .open _ path _ => path.start ∈ I
  | _ => True

/-- The call may change the bytes of the file: it writes to it, or it seeks in it, or it is an `open`
that truncates it. -/
def Changes (t t' : Files K) : Call K → Nat → Prop
  | .open k _ flags, i => Truncates flags ∧ (t'.files k).map File.node = some i
  | .write k _, i => (t.files k).map File.node = some i
  | .seek k _ _, i => (t.files k).map File.node = some i
  | _, _ => False

/-- The position that a seek asks for, in a file of this size. -/
def seekTarget (file : File) (size : Nat) (pos : Int) : Whence → Int
  | .cur => toOff (pos + file.pos)
  | .fromEnd => toOff (pos + size)
  | _ => pos

/-- What a call has done to the file `i`. -/
inductive Effect (I : Finset Nat) (i : Nat) (t t' : Files K) : Call K → Prop
  /-- At most its inode has been written back or dropped from memory. -/
  | settled {call : Call K} (h : Settled (view t.sfs i) (view t'.sfs i)) : Effect I i t t' call
  | read {k : K} {buf : List UInt8} {file : File} {r : IoResult} (hk : t.files k = some file)
      (hi : file.node = i) (htype : (view t.sfs i).din.type = SFS_TYPE_FILE)
      (hgoes : IoGoes (view t.sfs i).din.size false file.pos buf.length)
      (h : Transferred I i false file.pos.toNat
        (ioEnd (view t.sfs i).din.size false file.pos buf.length) buf t.sfs r t'.sfs) :
      Effect I i t t' (.read k buf)
  | write {k : K} {buf : List UInt8} {file : File} {r : IoResult} (hk : t.files k = some file)
      (hk' : t'.files k = some { file with pos := file.pos + r.alen })
      (hi : file.node = i) (htype : (view t.sfs i).din.type = SFS_TYPE_FILE)
      (hgoes : IoGoes (view t.sfs i).din.size true file.pos buf.length)
      (h : Transferred I i true file.pos.toNat
        (ioEnd (view t.sfs i).din.size true file.pos buf.length) buf t.sfs r t'.sfs) :
      Effect I i t t' (.write k buf)
  | cut {k : K} {path : Path} {flags : Nat} {sfs : Sfs}
      (hs : Settled (view t.sfs i) (view sfs i)) (htype : (view sfs i).din.type = SFS_TYPE_FILE)
      (h : Resized I i 0 sfs t'.sfs) : Effect I i t t' (.open k path flags)
  | enlarged {k : K} {pos : Int} {whence : Whence} {file : File} {len : Nat}
      (hk : t.files k = some file) (hi : file.node = i)
      (htype : (view t.sfs i).din.type = SFS_TYPE_FILE)
      (hlen : (seekTarget file (view t.sfs i).din.size pos whence).toNat = len)
      (hlt : (view t.sfs i).din.size < len) (hmax : len < SFS_MAX_FILE_SIZE)
      (h : Resized I i len t.sfs t'.sfs) : Effect I i t t' (.seek k pos whence)
  /-- The seek has not got all the blocks. -/
  | stuck {k : K} {pos : Int} {whence : Whence} {file : File} {len : Nat}
      (hk : t.files k = some file) (hi : file.node = i)
      (htype : (view t.sfs i).din.type = SFS_TYPE_FILE)
      (hlen : (seekTarget file (view t.sfs i).din.size pos whence).toNat = len)
      (hlt : (view t.sfs i).din.size < len) (hmax : len < SFS_MAX_FILE_SIZE)
      (h : Stuck I i ((len + 4095) / 4096) t.sfs t'.sfs) : Effect I i t t' (.seek k pos whence)

/-- What a call has done, with the files whose bytes it may have changed. -/
structure Did (I : Finset Nat) (call : Call K) (changes : Nat → Prop) (t t' : Files K) : Prop where
  ok : FilesOk I t'
  bytes : ∀ i ∈ I, ¬ changes i → fileBytes t'.sfs i = fileBytes t.sfs i
  effect : ∀ i ∈ I, Effect I i t t' call

/-- A call that may change fewer files may change more. -/
theorem Did.mono {call : Call K} {changes changes' : Nat → Prop} (h : Did I call changes t t')
    (hle : ∀ i, changes i → changes' i) : Did I call changes' t t' :=
  ⟨h.ok, fun i hi hnot => h.bytes i hi fun hc => hnot (hle i hc), h.effect⟩

/-- A call that does nothing. -/
theorem FilesOk.did (h : FilesOk I t) (call : Call K) (changes : Nat → Prop) :
    Did I call changes t t :=
  ⟨h, fun _ _ _ => rfl, fun _ _ => .settled .same⟩

/-- Every inode of a sound volume is one of a sound file. -/
theorem FilesOk.file (h : FilesOk I t) (hi : i ∈ I) : FileOk I (view t.sfs i) :=
  h.counted.volume.file i hi

/-- What is known of the volume behind a call, with the entries as they are then. -/
theorem FilesOk.after {call : Call K} {n changes : Nat → Prop} {sfs' : Sfs}
    {files' : K → Option File} (h : FilesOk I t)
    (hafter : After I n (fun _ => 0) (users files') t.sfs sfs') (hfin : Finitely files')
    (hbytes : ∀ i ∈ I, ¬ changes i → n i → fileBytes sfs' i = fileBytes t.sfs i)
    (heffect : ∀ i ∈ I, n i → Effect I i t { sfs := sfs', files := files' } call) :
    Did I call changes t { sfs := sfs', files := files' } where
  ok :=
    { finite := hfin
      counted := hafter.counted
      stored := hafter.evolves.stored h.stored
      covered := hafter.evolves.covered h.covered
      root := h.root }
  bytes := by
    intro i hi hnot
    by_cases hn : n i
    · exact hbytes i hi hnot hn
    · exact hafter.evolves.fileBytes_eq (h.file hi) hi hn
  effect := by
    intro i hi
    by_cases hn : n i
    · exact heffect i hi hn
    · exact .settled (hafter.evolves.settled i hi hn)

/-- A call that has only changed what is in memory. -/
theorem FilesOk.calm {call : Call K} {changes : Nat → Prop} {sfs' : Sfs}
    {files' : K → Option File} (h : FilesOk I t)
    (hcalm : Calm I (fun _ => 0) (users files') t.sfs sfs') (hfin : Finitely files') :
    Did I call changes t { sfs := sfs', files := files' } :=
  FilesOk.after h (n := fun _ => False) hcalm.after hfin (fun _ _ _ hn => hn.elim)
    fun _ _ hn => hn.elim

/-- The inode of an open file is in memory. -/
theorem FilesOk.exists_sin [DecidableEq K] {file : File} (h : FilesOk I t) (hk : t.files k = some file) :
    ∃ sin, t.sfs.inodes file.node = some sin := by
  refine h.counted.exists_sin ?_
  rw [users_close h.finite hk, more_self]
  omega

/-! ### The calls -/

/-- `fd2file` returns the entry of a descriptor that is open, and `-E_INVAL` otherwise. -/
theorem ends_fd2file_iff {Q : File → Files K → Prop} {E : Errno → Files K → Prop}
    {H : SfsPanic → Prop} : (fd2file k).Ends t Q E H ↔
      (∀ file, t.files k = some file → Q file t) ∧ (t.files k = none → E .inval t) := by
  unfold Routine.Ends fd2file
  cases t.files k with
  | none => simp
  | some file => simp

/-- `fd_array_alloc` takes an entry that is free, and fails otherwise. -/
theorem ends_fd_array_alloc {Q : Unit → Files K → Prop} {E : Errno → Files K → Prop}
    {H : SfsPanic → Prop} {e : Errno} : (fd_array_alloc k e).Ends t Q E H ↔
      (t.files k = none → Q () t) ∧ ((t.files k).isSome = true → E e t) := by
  unfold Routine.Ends fd_array_alloc
  cases t.files k with
  | none => simp
  | some file => simp

/-- A call on the volume leaves the descriptors alone. -/
theorem ends_onVolume {α : Type} {Q : α → Files K → Prop} {E : Errno → Files K → Prop}
    {H : SfsPanic → Prop} (x : SfsM α) : (onVolume x : FilesM K α).Ends t Q E H ↔
      x.Ends t.sfs (fun a sfs' => Q a { t with sfs := sfs' })
        (fun e sfs' => E e { t with sfs := sfs' }) H :=
  Routine.ends_within x

/-- The position that a file is opened at. -/
theorem ends_open_pos {Q : Nat → Files K → Prop} {E : Errno → Files K → Prop} {sin : SfsInode}
    {node flags : Nat} (hsin : t.sfs.inodes node = some sin) (hQ : ∀ pos, Q pos t) :
    (file_open_pos node flags).Ends t Q E (Refuses index range blocks) := by
  unfold file_open_pos
  rw [Routine.ends_ite]
  split_ifs with happend
  · unfold vop_fstat_size
    rw [ends_onVolume]
    apply (ends_vop_present hsin .both).seq
    · rintro _ sfs ⟨rfl, -⟩
      rw [Routine.ends_bind, ends_sfsInode hsin]
      exact hQ _
    · exact fun _ _ h => h.elim
    · exact fun _ h => h
  · exact hQ _

/-- `sfs_sync` writes back and changes no file. -/
theorem FilesOk.sync (h : FilesOk I t) :
    (onVolume sfs_sync : FilesM K Unit).Ends t
      (fun _ t' => t'.files = t.files ∧
        Synced I (fun _ => 0) (users t.files) t.sfs t'.sfs ∧ Did I .sync (fun _ => False) t t')
      (fun _ _ => False) (Refuses index range blocks) := by
  rw [ends_onVolume]
  apply (h.counted.sync h.stored h.root).mono
  · intro _ sfs₁ h₁
    refine ⟨rfl, h₁, ⟨h.finite, h₁.counted, h₁.stored, h₁.covered h.covered, h.root⟩, ?_,
      fun i hi => .settled (h₁.settled i hi)⟩
    intro i hi _
    have hsettled := h₁.settled i hi
    have hsize : (view sfs₁ i).din.size = (view t.sfs i).din.size := by
      rw [hsettled.din (h.file hi)]
    show fileBytes sfs₁ i = _
    unfold fileBytes
    rw [hsettled.content, hsize]
  · exact fun _ _ h => h
  · exact fun _ h => h

section
variable [DecidableEq K]

/-- `file_open` keeps the invariant. It changes the file only when it truncates it, which leaves it
empty, and nothing when it fails. -/
theorem FilesOk.file_open (h : FilesOk I t) (path : Path) (hstart : path.start ∈ I)
    (flags : Nat) (hblocks : Truncates flags → EmptyHasBlocks I t.sfs → blocks) :
    (file_open k path flags).Ends t
      (fun _ t' => Did I (.open k path flags) (Changes t t' (.open k path flags)) t t' ∧
        ∀ i, Changes t t' (.open k path flags) i → (view t'.sfs i).din.size = 0)
      (fun _ t' => Did I (.open k path flags) (fun _ => False) t t')
      (Refuses index range blocks) := by
  unfold Ucore.Fs.file_open
  rw [Routine.ends_ite]
  by_cases hbad : accMode flags = 3
  · rw [if_pos hbad]
    exact h.did _ _
  · rw [if_neg hbad, Routine.ends_bind, ends_fd_array_alloc]
    refine ⟨fun hk => ?_, fun _ => h.did _ _⟩
    rw [Routine.ends_bind, ends_onVolume]
    apply (h.counted.vfs_open path hstart flags hblocks).mono
    · rintro node sfs₁ ⟨hnode, h₁, hcut, hempty⟩
      obtain ⟨sin, hsin⟩ := h₁.counted.exists_sin (i := node) (by rw [more_self]; omega)
      rw [Routine.ends_bind]
      refine ends_open_pos (t := { t with sfs := sfs₁ }) hsin fun pos => ?_
      unfold setFile
      rw [Routine.ends_modify]
      set file : File := { node := node, pos := pos, readable := accMode flags ≠ 1,
                           writable := accMode flags ≠ 0 } with hfile
      have husers := users_open h.finite hk file
      rw [← show _ = more (users t.files) node from husers] at h₁
      refine ⟨h.after h₁ (h.finite.set k _) ?_ ?_, ?_⟩
      · rintro i hi hnot ⟨rfl, htrunc⟩
        refine absurd ⟨htrunc, ?_⟩ hnot
        show (Function.update t.files k (some file) k).map File.node = some i
        rw [Function.update_self]
        rfl
      · rintro i hi ⟨rfl, -⟩
        rcases hcut with hsettled | ⟨sfs₂, hsettled, htype, hresized⟩
        · exact .settled hsettled
        · exact .cut hsettled htype hresized
      · rintro i ⟨htrunc, hi⟩
        replace hi : (Function.update t.files k (some file) k).map File.node = some i := hi
        rw [Function.update_self] at hi
        obtain rfl : node = i := Option.some.inj hi
        exact hempty htrunc
    · exact fun _ sfs₁ h₁ => h.calm h₁ h.finite
    · exact fun _ h => h

/-- `file_close` keeps the invariant and changes no file. -/
theorem FilesOk.file_close (h : FilesOk I t) :
    (file_close k).Ends t (fun _ t' => Did I (.close k) (fun _ => False) t t')
      (fun _ t' => Did I (.close k) (fun _ => False) t t') (Refuses index range blocks) := by
  unfold Ucore.Fs.file_close
  rw [Routine.ends_bind, ends_fd2file_iff]
  refine ⟨fun file hk => ?_, fun _ => h.did _ _⟩
  have hcounted := h.counted
  rw [users_close h.finite hk] at hcounted
  rw [Routine.ends_bind, ends_onVolume]
  apply hcounted.vfs_close.mono
  · exact fun _ sfs₁ h₁ => h.calm h₁ (h.finite.set k none)
  · exact fun _ _ h => h.elim
  · exact fun _ h => h

/-- The call moves bytes between a buffer and a file. -/
def transferCall (k : K) (buf : List UInt8) (write : Bool) : Call K :=
  if write = true then .write k buf else .read k buf

/-- Reading and writing, behind the check of the permission. -/
theorem FilesOk.file_io {file : File} (h : FilesOk I t) (hk : t.files k = some file)
    (buf : List UInt8) (write : Bool)
    (hindex : (view t.sfs file.node).din.type = SFS_TYPE_FILE → refs t.sfs file.node < 0x10000 →
      IoGoes (view t.sfs file.node).din.size write file.pos buf.length →
      (view t.sfs file.node).din.blocks < file.pos.toNat / 4096 → index) :
    (file_io k file buf write).Ends t
      (fun _ t' => Did I (transferCall k buf write) (fun i => write = true ∧ i = file.node) t t')
      (fun _ _ => False) (Refuses index True blocks) := by
  obtain ⟨sin, hsin⟩ := h.exists_sin hk
  unfold Ucore.Fs.file_io
  rw [Routine.ends_bind, ends_onVolume]
  apply (ends_vop_present hsin _).mono
  · rintro _ sfs ⟨rfl, hpresent, hcount⟩
    have htype : sin.din.type = SFS_TYPE_FILE := by
      cases write <;> exact of_decide_eq_true hpresent
    have hreg : (view t.sfs file.node).din.type = SFS_TYPE_FILE := by
      rw [view_eq hsin]
      exact htype
    rw [Routine.ends_bind, ends_onVolume]
    apply (h.counted.io hsin htype buf file.pos write
      (hindex hreg (by rw [refs_eq hsin]; exact hcount)) fun _ _ _ => trivial).mono
    · rintro r sfs₁ ⟨h₁, hmoved⟩
      rw [Routine.ends_bind]
      unfold setFile
      rw [Routine.ends_modify, Routine.ends_pure]
      have husers := users_set { file with pos := file.pos + r.alen } h.finite hk rfl
      rw [← husers] at h₁
      refine h.after h₁ (h.finite.set k _) ?_ ?_
      · rintro i hi hnot rfl
        rcases hmoved with rfl | ⟨-, htrans⟩
        · rfl
        · cases write with
          | true => exact absurd ⟨rfl, rfl⟩ hnot
          | false => exact htrans.fileBytes_eq (min_le_right _ _)
      · rintro i hi rfl
        rcases hmoved with rfl | ⟨hgoes, htrans⟩
        · exact .settled .same
        · cases write with
          | true => exact .write hk (Function.update_self ..) rfl hreg hgoes htrans
          | false => exact .read hk rfl hreg hgoes htrans
    · exact fun _ _ h => h.elim
    · exact fun _ h => h
  · exact fun _ _ h => h.elim
  · exact fun _ h => h

/-- A read changes no byte, and it begins in a block that the file has or behind the last one. -/
theorem FilesOk.file_read (h : FilesOk I t) (buf : List UInt8) :
    (file_read k buf).Ends t (fun _ t' => Did I (.read k buf) (fun _ => False) t t')
      (fun _ t' => Did I (.read k buf) (fun _ => False) t t') (Refuses index True blocks) := by
  unfold Ucore.Fs.file_read
  rw [Routine.ends_bind, ends_fd2file_iff]
  refine ⟨fun file hk => ?_, fun _ => h.did _ _⟩
  rw [Routine.ends_ite]
  split_ifs with hperm
  · exact h.did _ _
  · have hnot : ∀ i, (false = true ∧ i = file.node) → False := fun i hi => by cases hi.1
    refine (h.file_io hk buf false fun htype _ hgoes hlt => ?_).mono (fun _ _ h => h.mono hnot)
      (fun _ _ h => h.elim) fun _ h => h
    obtain ⟨sin, hsin⟩ := h.exists_sin hk
    have hreach := (h.file (h.counted.volume.inode _ sin hsin).mem).reach htype
    have hbelow := hgoes.2.2 rfl
    omega

/-- The call is a write that begins behind the block that comes next. -/
def Behind (t : Files K) : Call K → Prop
  | .write k buf => ∃ file, t.files k = some file ∧ file.writable = true ∧
      (view t.sfs file.node).din.type = SFS_TYPE_FILE ∧ refs t.sfs file.node < 0x10000 ∧
      IoGoes (view t.sfs file.node).din.size true file.pos buf.length ∧
      (view t.sfs file.node).din.blocks < file.pos.toNat / 4096
  | _ => False

/-- `file_write` keeps the invariant and changes no other file. -/
theorem FilesOk.file_write (h : FilesOk I t) (buf : List UInt8) :
    (file_write k buf).Ends t (fun _ t' => Did I (.write k buf) (Changes t t' (.write k buf)) t t')
      (fun _ t' => Did I (.write k buf) (fun _ => False) t t')
      (Refuses (Behind t (.write k buf)) True blocks) := by
  unfold Ucore.Fs.file_write
  rw [Routine.ends_bind, ends_fd2file_iff]
  refine ⟨fun file hk => ?_, fun _ => h.did _ _⟩
  rw [Routine.ends_ite]
  split_ifs with hperm
  · exact h.did _ _
  · refine (h.file_io hk buf true fun htype hcount hgoes hlt =>
      ⟨file, hk, (Bool.not_eq_false _).mp hperm, htype, hcount, hgoes, hlt⟩).mono
      (fun _ t' h => h.mono ?_) (fun _ _ h => h.elim) fun _ h => h
    rintro i ⟨-, rfl⟩
    show (t.files k).map File.node = _
    rw [hk]
    rfl

/-- The position of a seek is computed without a change of the volume. -/
theorem FilesOk.file_seek_pos {file : File} (h : FilesOk I t) (hk : t.files k = some file)
    (pos : Int) (whence : Whence) :
    (file_seek_pos file pos whence).Ends t
      (fun pos' t' => pos' = seekTarget file (view t.sfs file.node).din.size pos whence ∧ t' = t)
      (fun _ t' => t' = t) (Refuses index range blocks) := by
  obtain ⟨sin, hsin⟩ := h.exists_sin hk
  cases whence with
  | set => exact ⟨rfl, rfl⟩
  | cur => exact ⟨rfl, rfl⟩
  | other => rfl
  | fromEnd =>
      unfold Ucore.Fs.file_seek_pos vop_fstat_size
      dsimp only
      rw [Routine.ends_bind, ends_onVolume]
      apply (ends_vop_present hsin .both).seq
      · rintro _ sfs ⟨rfl, -⟩
        rw [Routine.ends_bind, ends_sfsInode hsin, view_eq hsin]
        exact ⟨rfl, rfl⟩
      · exact fun _ _ h => h.elim
      · exact fun _ h => h

/-- `file_seek` keeps the invariant. It changes no other file, and nothing when it fails. When it
returns, the file reaches the position. -/
theorem FilesOk.file_seek (h : FilesOk I t) (pos : Int) (whence : Whence) :
    (file_seek k pos whence).Ends t
      (fun _ t' => Did I (.seek k pos whence) (Changes t t' (.seek k pos whence)) t t' ∧
        ∀ file, t.files k = some file → (view t'.sfs file.node).din.size =
          max (view t.sfs file.node).din.size
            (seekTarget file (view t.sfs file.node).din.size pos whence).toNat)
      (fun _ t' => Did I (.seek k pos whence) (fun _ => False) t t')
      (Refuses index True blocks) := by
  unfold Ucore.Fs.file_seek
  rw [Routine.ends_bind, ends_fd2file_iff]
  refine ⟨fun file hk => ?_, fun _ => h.did _ _⟩
  obtain ⟨sin, hsin⟩ := h.exists_sin hk
  apply (h.file_seek_pos hk pos whence).seq
  · rintro pos' t ⟨hpos, rfl⟩
    rw [Routine.ends_bind, ends_onVolume]
    apply (ends_vop_present hsin .tryseek).mono
    · rintro _ sfs ⟨rfl, -⟩
      rw [Routine.ends_bind, ends_onVolume]
      apply (h.counted.tryseek hsin pos' fun _ _ _ _ => trivial).mono
      · rintro _ sfs₁ ⟨h₁, henlarged⟩
        unfold setFile
        rw [Routine.ends_modify]
        have husers := users_set { file with pos := pos' } h.finite hk rfl
        rw [← husers] at h₁
        refine ⟨h.after h₁ (h.finite.set k _) ?_ ?_, ?_⟩
        · rintro i hi hnot rfl
          refine absurd ?_ hnot
          show (t.files k).map File.node = _
          rw [hk]
          rfl
        · rintro i hi rfl
          rcases henlarged with ⟨-, rfl⟩ | ⟨htype, hlt, hmax, hresized⟩
          · exact .settled .same
          · exact .enlarged hk rfl htype (by rw [hpos]) hlt hmax hresized
        · intro file' hk'
          rw [hk] at hk'
          cases hk'
          rw [← hpos]
          rcases henlarged with ⟨hle, rfl⟩ | ⟨-, hlt, -, hresized⟩
          · exact (max_eq_left hle).symm
          · rw [max_eq_right hlt.le]
            exact hresized.size
      · rintro e sfs₁ ⟨h₁, hbytes, hstuck⟩
        refine h.after h₁ h.finite ?_ ?_
        · rintro i hi hnot rfl
          exact hbytes
        · rintro i hi rfl
          rcases hstuck with rfl | ⟨htype, hlt, hmax, hstuck⟩
          · exact .settled .same
          · exact .stuck hk rfl htype (by rw [hpos]) hlt hmax hstuck
      · exact fun _ h => h
    · exact fun _ _ h => h.elim
    · exact fun _ h => h
  · rintro e t rfl
    exact h.did _ _
  · exact fun _ h => h

/-- `file_fsync` keeps the invariant and changes no file. -/
theorem FilesOk.file_fsync (h : FilesOk I t) :
    (file_fsync k).Ends t (fun _ t' => Did I (.fsync k) (fun _ => False) t t')
      (fun _ t' => Did I (.fsync k) (fun _ => False) t t') (Refuses index range blocks) := by
  unfold Ucore.Fs.file_fsync
  rw [Routine.ends_bind, ends_fd2file_iff]
  refine ⟨fun file hk => ?_, fun _ => h.did _ _⟩
  obtain ⟨sin, hsin⟩ := h.exists_sin hk
  rw [ends_onVolume]
  apply (h.counted.fsync hsin).mono
  · exact fun _ sfs₁ h₁ => h.calm h₁ h.finite
  · exact fun _ _ h => h.elim
  · exact fun _ h => h

/-- `file_getdirentry` keeps the invariant and changes no file. -/
theorem FilesOk.file_getdirentry (h : FilesOk I t) (offset : Int) (kmalloc : Bool) :
    (file_getdirentry k offset kmalloc).Ends t
      (fun _ t' => Did I (.getdirentry k offset kmalloc) (fun _ => False) t t')
      (fun _ t' => Did I (.getdirentry k offset kmalloc) (fun _ => False) t t')
      (Refuses index range blocks) := by
  unfold Ucore.Fs.file_getdirentry
  rw [Routine.ends_bind, ends_fd2file_iff]
  refine ⟨fun file hk => ?_, fun _ => h.did _ _⟩
  obtain ⟨sin, hsin⟩ := h.exists_sin hk
  rw [Routine.ends_bind, ends_onVolume]
  apply (ends_vop_present hsin .getdirentry).mono
  · rintro _ sfs ⟨rfl, hpresent, -⟩
    rw [ends_onVolume]
    apply (h.counted.getdirentry hsin (of_decide_eq_true hpresent) offset kmalloc).mono
    · rintro _ sfs rfl
      exact h.did _ _
    · rintro _ sfs rfl
      exact h.did _ _
    · exact fun _ h => h
  · exact fun _ _ h => h.elim
  · exact fun _ h => h

/-- A second entry for an open file counts it as open once more. -/
theorem FilesOk.file_dup (h : FilesOk I t) :
    (file_dup k₁ k₂).Ends t (fun _ t' => Did I (.dup k₁ k₂) (fun _ => False) t t')
      (fun _ t' => Did I (.dup k₁ k₂) (fun _ => False) t t') (Refuses index range blocks) := by
  unfold Ucore.Fs.file_dup
  rw [Routine.ends_bind, ends_fd2file_iff]
  refine ⟨fun file hk₁ => ?_, fun _ => h.did _ _⟩
  rw [Routine.ends_bind, ends_fd_array_alloc]
  refine ⟨fun hk₂ => ?_, fun _ => h.did _ _⟩
  have hpos : 0 < users t.files file.node + 0 := by
    rw [users_close h.finite hk₁, more_self]
    omega
  rw [Routine.ends_bind, ends_onVolume]
  apply (h.counted.ref_inc hpos).mono
  · intro _ sfs₁ h₁
    rw [Routine.ends_bind, ends_onVolume]
    apply h₁.counted.open_inc.mono
    · intro _ sfs₂ h₂
      unfold setFile
      rw [Routine.ends_modify]
      rw [← users_open h.finite hk₂ file] at h₂
      exact h.calm (h₁.trans h₂) (h.finite.set k₂ _)
    · exact fun _ _ h => h.elim
    · exact fun _ h => h
  · exact fun _ _ h => h.elim
  · exact fun _ h => h

/-- The call is an `open` that truncates, in a volume with an empty file that has blocks. -/
def CutsBlocks (I : Finset Nat) (t : Files K) : Call K → Prop
  | .open _ _ flags => Truncates flags ∧ EmptyHasBlocks I t.sfs
  | _ => False

/-- A call keeps the invariant, or it panics for what it has been asked. -/
theorem FilesOk.call (h : FilesOk I t) (call : Call K) (hstart : StartsIn I call) :
    call.run.Ends t (fun _ t' => Did I call (Changes t t' call) t t')
      (fun _ t' => Did I call (fun _ => False) t t')
      (Refuses (Behind t call) True (CutsBlocks I t call)) := by
  rcases call with ⟨k, path, flags⟩ | ⟨k⟩ | ⟨k, buf⟩ | ⟨k, buf⟩ | ⟨k, pos, whence⟩ | ⟨k⟩ |
    ⟨k, offset, kmalloc⟩ | ⟨k₁, k₂⟩ | _
  · exact (h.file_open path hstart flags fun htrunc hempty => ⟨htrunc, hempty⟩).mono
      (fun _ _ h => h.1) (fun _ _ h => h) fun _ h => h
  · exact h.file_close
  · exact (h.file_read buf).seq (fun _ _ h => h) (fun _ _ h => h) fun _ h => h
  · exact (h.file_write buf).seq (fun _ _ h => h) (fun _ _ h => h) fun _ h => h
  · exact (h.file_seek pos whence).mono (fun _ _ h => h.1) (fun _ _ h => h) fun _ h => h
  · exact h.file_fsync
  · exact (h.file_getdirentry offset kmalloc).seq (fun _ _ h => h) (fun _ _ h => h) fun _ h => h
  · exact h.file_dup
  · exact h.sync.mono (fun _ _ h => h.2.2) (fun _ _ h => h.elim) fun _ h => h

/-- A run of calls keeps the invariant. -/
theorem FilesOk.run (h : FilesOk I t) (calls : List (Call K))
    (hstart : ∀ call ∈ calls, StartsIn I call) :
    (runCalls calls).Ends t (fun _ t' => FilesOk I t') (fun _ _ => False) ByRequest := by
  induction calls generalizing t with
  | nil => exact h
  | cons call calls ih =>
      have hrest : ∀ c ∈ calls, StartsIn I c := fun c hc => hstart c (List.mem_cons_of_mem _ hc)
      unfold runCalls
      rw [Routine.ends_bind]
      apply (h.call call (hstart call (List.mem_cons_self ..))).attempt
      · exact fun _ t' hdid => ih hdid.ok hrest
      · exact fun _ t' hdid => ih hdid.ok hrest
      · exact fun _ h => h.byRequest

/-- **The volume stays sound.** From a sound volume on, take any system calls of any processes, on
any descriptors and with any arguments, one after another, whether they fail or not. Behind them, no
block is in two places, or free and in a place; each block in use is in a place; the free blocks are
counted; each inode is open as often as there are descriptors for it, and has at least as many
references; and the superblock and the free map are on the disk unless they are marked. A run that
stops does so for one of the reasons of `ByRequest`. -/
theorem files_sound (h : FilesOk I t) (calls : List (Call K))
    (hstart : ∀ call ∈ calls, StartsIn I call) :
    (runCalls calls).Ends t
      (fun _ t' => Owned (slot I t'.sfs) t'.sfs.freemap.isFree ∧
        Covered (slot I t'.sfs) t'.sfs.freemap.isFree t'.sfs.super.blocks ∧
        t'.sfs.super.unused_blocks = freeCount t'.sfs.freemap.isFree t'.sfs.super.blocks ∧
        (∀ i, opens t'.sfs i = users t'.files i ∧ users t'.files i ≤ refs t'.sfs i) ∧
        (t'.sfs.super_dirty = false → Saved t'.sfs))
      (fun _ _ => False) ByRequest := by
  apply (h.run calls hstart).mono
  · intro _ t' h'
    exact ⟨h'.counted.volume.core.owned, h'.covered, h'.counted.volume.core.pool.count,
      fun i => ⟨by rw [h'.counted.isOpen], h'.counted.enough i⟩, h'.stored.saved⟩
  · exact fun _ _ h => h
  · exact fun _ h => h

/-- Calls that return, one after another, and leave the file alone: each of them does not change this
file, or it is another call than a write and returns an error code. A write does not count as one
that fails: what `file_write` returns is dropped, since it can have moved bytes or the end of the
file all the same. -/
inductive Spares (i : Nat) : Files K → List (Call K) → Files K → Prop
  | nil (t : Files K) : Spares i t [] t
  | cons {t t' t'' : Files K} {call : Call K} {calls : List (Call K)} {r : Except Errno Unit} :
      call.run t = .ok (r, t') → (r = .ok () → ¬ Changes t t' call i) → Spares i t' calls t'' →
      Spares i t (call :: calls) t''

/-- **Only calls that name a file change it.** The bytes of a file are the same behind any calls
none of which was a write to this file, whether the write came to its end or not, has sought in it
or has opened it to truncate it. A call other than a write that returns an error code changes the
bytes of no file. -/
theorem fileBytes_spared (h : FilesOk I t) {calls : List (Call K)}
    (hstart : ∀ call ∈ calls, StartsIn I call) (hi : i ∈ I) (hrun : Spares i t calls t') :
    fileBytes t'.sfs i = fileBytes t.sfs i := by
  induction hrun with
  | nil t => rfl
  | @cons t t₁ t₂ call calls r hcall hnot hrest ih =>
      have hends := h.call call (hstart call (List.mem_cons_self ..))
      have hdid : FilesOk I t₁ ∧ fileBytes t₁.sfs i = fileBytes t.sfs i := by
        cases r with
        | ok u =>
            have hdid := hends.of_ok hcall
            exact ⟨hdid.ok, hdid.bytes i hi (hnot rfl)⟩
        | error e =>
            have hdid := hends.of_error hcall
            exact ⟨hdid.ok, hdid.bytes i hi id⟩
      rw [ih hdid.1 fun c hc => hstart c (List.mem_cons_of_mem _ hc), hdid.2]

end

/-! ### A volume with one file -/

/-- The inode of a root with one entry, in the block 4. -/
def smallRoot : SfsDiskInode where
  size := 0
  type := SFS_TYPE_DIR
  nlinks := 1
  blocks := 1
  direct := fun k => if k.val = 0 then 4 else 0
  indirect := 0

/-- The inode of an empty file. -/
def smallFile : SfsDiskInode where
  size := 0
  type := SFS_TYPE_FILE
  nlinks := 1
  blocks := 0
  direct := fun _ => 0
  indirect := 0

/-- A superblock of six blocks, the last of which is free. -/
def smallSuper : SfsSuper where
  magic := SFS_MAGIC
  blocks := 6
  unused_blocks := 1
  info := List.replicate 32 0

/-- The free map with the bit of the block 5. -/
def smallMap : Bitmap where
  nbits := 32768
  nwords := 1024
  map := fun ix => if ix = 0 then 0x20 else 0

/-- A volume as it has been mounted: a root with the entry `a` for the inode 3. -/
def smallVolume : Sfs where
  super := smallSuper
  freemap := smallMap
  super_dirty := false
  inode_list := []
  inodes := fun _ => none
  dev := fun b =>
    if b = 0 then bufferBlock smallSuper.encode
    else if b = 1 then Bytes.overlay (fun _ => 0) 0 smallRoot.encode
    else if b = 2 then bitmap_getdata smallMap
    else if b = 3 then Bytes.overlay (fun _ => 0) 0 smallFile.encode
    else if b = 4 then Bytes.overlay (fun _ => 0) 0 (toLe 4 3 ++ [97])
    else fun _ => 0

/-- The two inodes of the volume. -/
theorem dinOf_smallVolume :
    dinOf smallVolume 1 = smallRoot ∧ dinOf smallVolume 3 = smallFile := by
  constructor
  · apply decode_encode
    refine ⟨by decide, by decide, by decide, by decide, fun k => ?_, by decide⟩
    show (if k.val = 0 then 4 else 0) < _
    split_ifs <;> decide
  · apply decode_encode
    exact ⟨by decide, by decide, by decide, by decide, fun _ => by show 0 < _; decide, by decide⟩

/-- The root has the one block 4, and the file has none. -/
theorem entry_smallVolume (k : Nat) : (view smallVolume 1).entry k = (if k = 0 then 4 else 0) ∧
    (view smallVolume 3).entry k = 0 := by
  constructor
  · show entryAt (dinOf smallVolume 1) _ k = _
    rw [dinOf_smallVolume.1]
    by_cases hk : k < 12
    · exact dif_pos hk
    · rw [entryAt_no_indirect (by omega) rfl, if_neg (by omega)]
  · show entryAt (dinOf smallVolume 3) _ k = _
    rw [dinOf_smallVolume.2]
    by_cases hk : k < 12
    · exact dif_pos hk
    · exact entryAt_no_indirect (by omega) rfl

/-- Block 5 is free, and no other one. -/
theorem isFree_smallMap (b : Nat) : smallMap.isFree b = true ↔ b = 5 := by
  unfold Bitmap.isFree
  by_cases hb : b < 32
  · have hdiv : b / 32 = 0 := by omega
    have hmod : b % 32 = b := by omega
    show (if b / 32 = 0 then 0x20#32 else 0#32).getLsbD (b % 32) = true ↔ _
    rw [if_pos hdiv, hmod]
    interval_cases b <;> decide
  · have hdiv : b / 32 ≠ 0 := by omega
    show (if b / 32 = 0 then 0x20#32 else 0#32).getLsbD (b % 32) = true ↔ _
    rw [if_neg hdiv]
    simp
    omega

/-- The blocks that are held are the free map, the two inodes and the entry. -/
theorem slot_smallVolume {x : Slot} (hx : slot {1, 3} smallVolume x ≠ 0) :
    x = .freemap 0 ∧ slot {1, 3} smallVolume x = 2 ∨
      x = .inode 1 ∧ slot {1, 3} smallVolume x = 1 ∨
      x = .inode 3 ∧ slot {1, 3} smallVolume x = 3 ∨
      x = .data 1 0 ∧ slot {1, 3} smallVolume x = 4 := by
  cases x with
  | freemap k =>
      have hone : sfs_freemap_blocks smallVolume.super = 1 := by decide +kernel
      rw [slot_freemap, hone] at hx ⊢
      by_cases hk : k < 1
      · have hzero : k = 0 := by omega
        rw [if_pos hk, hzero]
        exact Or.inl ⟨rfl, rfl⟩
      · exact absurd (if_neg hk) hx
  | inode j =>
      by_cases hj : j ∈ ({1, 3} : Finset Nat)
      · rw [slot_inode hj]
        simp at hj
        rcases hj with rfl | rfl <;> simp
      · exact absurd (if_neg hj) hx
  | indirect j =>
      exfalso
      apply hx
      by_cases hj : j ∈ ({1, 3} : Finset Nat)
      · rw [slot_indirect hj]
        simp at hj
        rcases hj with rfl | rfl
        · show (dinOf smallVolume 1).indirect = 0
          rw [dinOf_smallVolume.1]
          rfl
        · show (dinOf smallVolume 3).indirect = 0
          rw [dinOf_smallVolume.2]
          rfl
      · exact if_neg hj
  | data j k =>
      by_cases hj : j ∈ ({1, 3} : Finset Nat)
      · rw [slot_data hj] at hx ⊢
        simp at hj
        rcases hj with rfl | rfl
        · rw [(entry_smallVolume k).1] at hx ⊢
          by_cases hk : k = 0
          · simp [hk]
          · exact absurd (if_neg hk) hx
        · exact absurd (entry_smallVolume k).2 hx
      · exact absurd (if_neg hj) hx

/-- The blocks of the volume are where they should be. -/
theorem core_smallVolume : Core {1, 3} smallVolume := by
  refine ⟨⟨rfl, ?_, by decide +kernel, by decide +kernel, rfl⟩, ⟨?_, ?_⟩, ?_, by decide +kernel, ?_⟩
  · intro b hb
    rw [(isFree_smallMap b).mp hb]
    decide
  · intro x y hx hxy
    have hy : slot {1, 3} smallVolume y ≠ 0 := by
      rw [← hxy]
      exact hx
    rcases slot_smallVolume hx with ⟨rfl, hx'⟩ | ⟨rfl, hx'⟩ | ⟨rfl, hx'⟩ | ⟨rfl, hx'⟩ <;>
      rcases slot_smallVolume hy with ⟨rfl, hy'⟩ | ⟨rfl, hy'⟩ | ⟨rfl, hy'⟩ | ⟨rfl, hy'⟩ <;>
      first | rfl | omega
  · intro x hx
    show smallMap.isFree _ = false
    rw [← Bool.not_eq_true, isFree_smallMap]
    rcases slot_smallVolume hx with ⟨-, h⟩ | ⟨-, h⟩ | ⟨-, h⟩ | ⟨-, h⟩ <;> omega
  · intro x hx
    show _ < 6
    rcases slot_smallVolume hx with ⟨-, h⟩ | ⟨-, h⟩ | ⟨-, h⟩ | ⟨-, h⟩ <;> omega
  · decide

/-- The root is a sound directory. -/
theorem file_smallRoot : FileOk {1, 3} (view smallVolume 1) := by
  have hdisk : (view smallVolume 1).disk = (view smallVolume 1).din := rfl
  have hdin : (view smallVolume 1).din = smallRoot := dinOf_smallVolume.1
  refine ⟨?_, ?_, fun _ => ?_, fun _ => ?_, fun _ hne => ?_, ?_, ?_, ?_, ?_, ?_, ?_, ?_⟩
  · intro k hk
    rw [hdin] at hk
    rw [(entry_smallVolume k).1, if_pos (Nat.lt_one_iff.mp hk)]
    decide
  · intro k hk _
    rw [hdin] at hk
    replace hk : 1 ≤ k := hk
    rw [(entry_smallVolume k).1, if_neg (by omega)]
  · rw [hdisk]
  · rw [hdisk]
  · exact absurd (by rw [hdisk]) hne
  · rw [hdin]
    decide
  · rw [hdin]
    decide
  · rw [hdin]
    decide
  · rw [hdin]
    decide
  · rw [hdin]
    decide
  · rw [hdin]
    decide
  · intro _ k hk
    rw [hdin] at hk
    rw [Nat.lt_one_iff.mp hk]
    right
    decide +kernel

/-- The file is sound and empty. -/
theorem file_smallFile : FileOk {1, 3} (view smallVolume 3) := by
  have hdisk : (view smallVolume 3).disk = (view smallVolume 3).din := rfl
  have hdin : (view smallVolume 3).din = smallFile := dinOf_smallVolume.2
  refine ⟨?_, ?_, fun _ => ?_, fun _ => ?_, fun _ hne => ?_, ?_, ?_, ?_, ?_, ?_, ?_, ?_⟩
  · intro k hk
    rw [hdin] at hk
    exact absurd hk (Nat.not_lt_zero k)
  · exact fun k _ _ => (entry_smallVolume k).2
  · rw [hdisk]
  · rw [hdisk]
  · exact absurd (by rw [hdisk]) hne
  · rw [hdin]
    decide
  · rw [hdin]
    decide
  · rw [hdin]
    decide
  · rw [hdin]
    decide
  · intro _
    rw [hdin]
    decide
  · intro _ _
    rw [hdisk, hdin]
    decide
  · rw [hdin]
    decide

/-- The superblock and the free map on the disk are those in memory. -/
theorem stored_smallVolume : Stored smallVolume := by
  refine ⟨rfl, by decide, by decide, by decide +kernel, fun _ => ⟨rfl, ?_⟩⟩
  intro k hk o ho
  have hone : sfs_freemap_blocks smallVolume.super = 1 := by decide +kernel
  rw [hone, Nat.lt_one_iff] at hk
  rw [hk, Nat.mul_zero, Nat.zero_add]
  rfl

/-- Every block in use has its place. -/
theorem covered_smallVolume : Covered (slot {1, 3} smallVolume) smallVolume.freemap.isFree
    smallVolume.super.blocks := by
  intro b hpos hlt hfree
  replace hlt : b < 6 := hlt
  have hne : b ≠ 5 := by
    rintro rfl
    exact absurd hfree (by decide)
  have hcases : b = 1 ∨ b = 2 ∨ b = 3 ∨ b = 4 := by omega
  rcases hcases with rfl | rfl | rfl | rfl
  · exact ⟨.inode 1, rfl⟩
  · exact ⟨.freemap 0, by decide +kernel⟩
  · exact ⟨.inode 3, rfl⟩
  · refine ⟨.data 1 0, ?_⟩
    rw [slot_data (by decide)]
    exact (entry_smallVolume 0).1

/-- The volume with no file open. -/
def smallFiles : Files Nat where
  sfs := smallVolume
  files := fun _ => none

/-- The volume is sound, and no descriptor is open. -/
theorem filesOk_smallFiles : FilesOk {1, 3} smallFiles := by
  have hvolume : Volume {1, 3} smallVolume := by
    refine ⟨core_smallVolume, ?_, (fun i sin hsin => by cases hsin),
      (fun i => by simp [smallVolume]), List.nodup_nil⟩
    intro i hi
    simp at hi
    rcases hi with rfl | rfl
    · exact file_smallRoot
    · exact file_smallFile
  have husers : users smallFiles.files = fun _ => 0 := users_none
  refine ⟨finitely_none, ⟨hvolume, ?_, ?_⟩, stored_smallVolume, covered_smallVolume, by decide⟩
  · rw [husers]
    rfl
  · intro i
    rw [husers]
    exact Nat.zero_le _

/-- The file `a` is opened for reading and writing. -/
def openSmallFile : Call Nat :=
  .open 0 { start := 1, name := some [97], startMem := (true, true),
            nameMem := (true, true, true) } 2

/-- The path begins at the root. -/
theorem startsIn_smallFiles : ∀ call ∈ [openSmallFile, .write 0 [7, 8]],
    StartsIn {1, 3} call := by
  intro call hcall
  simp at hcall
  rcases hcall with rfl | rfl
  · show 1 ∈ _
    decide
  · trivial

/-- The file is opened, and two bytes are written to it. Both calls return, and the volume is sound. -/
theorem files_sound_smallFiles :
    ∃ t', runCalls [openSmallFile, .write 0 [7, 8]] smallFiles = .ok (.ok (), t') ∧
      (t'.files 0).map File.pos = some 2 ∧ fileBytes t'.sfs 3 = [7, 8] ∧
      Owned (slot {1, 3} t'.sfs) t'.sfs.freemap.isFree ∧
      Covered (slot {1, 3} t'.sfs) t'.sfs.freemap.isFree t'.sfs.super.blocks ∧
      t'.sfs.super.unused_blocks = freeCount t'.sfs.freemap.isFree t'.sfs.super.blocks ∧
      (∀ i, opens t'.sfs i = users t'.files i ∧ users t'.files i ≤ refs t'.sfs i) ∧
      (t'.sfs.super_dirty = false → Saved t'.sfs) := by
  obtain ⟨⟨r, t'⟩, hrun, hr⟩ := exists_of_map
    (x := runCalls [openSmallFile, .write 0 [7, 8]] smallFiles)
    (f := fun p => (p.1, (p.2.files 0).map File.pos, fileBytes p.2.sfs 3))
    (b := (.ok (), some 2, [7, 8])) (by decide +kernel)
  obtain ⟨rfl, hr⟩ := Prod.mk.inj hr
  obtain ⟨hpos, hbytes⟩ := Prod.mk.inj hr
  exact ⟨t', hrun, hpos, hbytes,
    (files_sound filesOk_smallFiles _ startsIn_smallFiles).of_ok hrun⟩

/-- Two bytes are written to the file, and those of the root are as before. -/
theorem fileBytes_spared_smallRoot : ∃ t', Spares 1 smallFiles [openSmallFile, .write 0 [7, 8]] t' ∧
    fileBytes t'.sfs 1 = fileBytes smallFiles.sfs 1 := by
  have hrun : ∃ t', Spares 1 smallFiles [openSmallFile, .write 0 [7, 8]] t' :=
    ⟨_, .cons rfl (fun _ h => absurd h.2 (by decide))
      (.cons rfl (fun _ h => absurd (show Option.map File.node _ = some 1 from h) (by decide +kernel))
        (.nil _))⟩
  obtain ⟨t', hrun⟩ := hrun
  exact ⟨t', hrun, fileBytes_spared filesOk_smallFiles startsIn_smallFiles (by decide) hrun⟩

end Ucore.Proofs.Fs
