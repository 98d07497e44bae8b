import Ucore.Proofs.Fs.Io

/-!
# `Ucore.Proofs.Fs.ReadWrite`: a file is a string of bytes

`fileBytes` is a file as its users see it: the bytes up to its size. A write replaces a part of it,
and a read returns one. `sfs_io_nolock_correct` says this of `sfs_io_nolock`.

The theorem is about a regular file with as many blocks as its size needs, an offset up to the size,
and a buffer of any length that ends within the block map. When there are enough free blocks, a
write moves all of the buffer: the bytes of the file are the old ones with a part replaced, or with
more at the end, and the other files are as before. A read moves what there is from the offset on,
and changes nothing. `ends_write` and `ends_read` are the two halves, from `ends_io_nolock`.

`oneFile` is the small volume that several modules write to: six blocks, one empty file.
-/

set_option autoImplicit false

namespace Ucore.Proofs.Fs

open Ucore.Lib Ucore.Fs

/-- The bytes of a file. -/
def fileBytes (sfs : Sfs) (i : Nat) : List UInt8 :=
  (view sfs i).content.slice 0 (view sfs i).din.size

variable {I : Finset Nat} {i : Nat} {sfs : Sfs} {sin : SfsInode}

/-- A write of bytes that end below the limit of the block map. -/
theorem ends_write (buf : List UInt8) (offset : Nat) (hcore : Core I sfs) (hi : i ∈ I)
    (hsin : sfs.inodes i = some sin) (hmapped : Mapped (view sfs i))
    (htype : (view sfs i).din.type ≠ SFS_TYPE_DIR)
    (hreach : offset / 4096 ≤ (view sfs i).din.blocks)
    (hend : offset + buf.length ≤ 1036 * 4096)
    (hfree : needed (view sfs i) ((offset + buf.length + 4095) / 4096) ≤
      sfs.super.unused_blocks) :
    (sfs_io_nolock i buf offset true).Ends sfs
      (fun r sfs' => r.ret = .ok () ∧ r.alen = buf.length ∧ (buf = [] ∧ sfs' = sfs ∨
        Transferred I i true offset (offset + buf.length) buf sfs r sfs'))
      (fun _ _ => False) fun _ => False := by
  have hoff : toOff ((offset : Int) + buf.length) = offset + buf.length :=
    toOff_eq (by omega) (by omega)
  have hmax : (SFS_MAX_FILE_SIZE : Int) = 134217728 := rfl
  have hio : ioEnd (view sfs i).din.size true offset buf.length = offset + buf.length := by
    unfold ioEnd
    rw [hoff, if_neg (by simp), min_eq_left (by omega)]
    omega
  apply (ends_io_nolock (H := fun _ => False) hcore hi hsin hmapped htype ?_ ?_).mono
  · rintro r sfs' (⟨hstay, rfl, halen, -, hret⟩ | ⟨-, h⟩)
    · have hvalid : ¬ IoInvalid offset buf.length := by
        unfold IoInvalid
        omega
      have hnil : buf = [] := by
        by_contra hne
        have hpos := List.length_pos_iff.mpr hne
        exact hstay ⟨hvalid, by omega, fun h => by cases h⟩
      exact ⟨hret.resolve_left hvalid, by rw [halen, hnil]; rfl, Or.inl ⟨hnil, rfl⟩⟩
    · rw [hio, Int.toNat_natCast] at h
      rcases h.ret with ⟨hret, halen⟩ | ⟨-, hlt, -, -, -, hlack⟩
      · exact ⟨hret, by omega, Or.inr h⟩
      · exfalso
        have hmono := needed_mono (v := view sfs i) (m := (offset + r.alen) / 4096 + 1)
          (n := (offset + buf.length + 4095) / 4096) (by omega)
        omega
  · exact fun _ _ h => h
  · exact fun _ h => h
  · intro _ hlt
    rw [Int.toNat_natCast] at hlt
    omega
  · rw [hio]
    exact fun _ hfar => absurd hfar (by omega)

/-- A read at or below the size. -/
theorem ends_read (buf : List UInt8) (offset : Nat) (hcore : Core I sfs) (hi : i ∈ I)
    (hsin : sfs.inodes i = some sin) (hmapped : Mapped (view sfs i))
    (htype : (view sfs i).din.type ≠ SFS_TYPE_DIR)
    (hsize : (view sfs i).din.size ≤ 4096 * (view sfs i).din.blocks)
    (hend : offset + buf.length ≤ 1036 * 4096) :
    (sfs_io_nolock i buf offset false).Ends sfs
      (fun r sfs' => r.ret = .ok () ∧ sfs' = sfs ∧
        r.alen = min buf.length ((view sfs i).din.size - offset) ∧
        r.data = (view sfs i).content.slice offset r.alen)
      (fun _ _ => False) fun _ => False := by
  have hoff : toOff ((offset : Int) + buf.length) = offset + buf.length :=
    toOff_eq (by omega) (by omega)
  have hmax : (SFS_MAX_FILE_SIZE : Int) = 134217728 := rfl
  have hio : ioEnd (view sfs i).din.size false offset buf.length =
      min (offset + buf.length) (view sfs i).din.size := by
    have hmin : min ((offset : Int) + buf.length) SFS_MAX_FILE_SIZE = offset + buf.length :=
      min_eq_left (by omega)
    unfold ioEnd
    rw [hoff, if_pos rfl, hmin]
    congr 1
  apply (ends_io_nolock (H := fun _ => False) hcore hi hsin hmapped htype ?_ ?_).mono
  · rintro r sfs' (⟨hstay, rfl, halen, hdata, hret⟩ | ⟨hgoes, h⟩)
    -- Nothing to read: the buffer is empty, or the offset is at the end of the file or behind it.
    · have hvalid : ¬ IoInvalid offset buf.length := by
        unfold IoInvalid
        omega
      have hnothing : buf.length = 0 ∨ (view sfs' i).din.size ≤ offset := by
        by_contra hsome
        refine hstay ⟨hvalid, by omega, fun _ => ?_⟩
        rw [Int.toNat_natCast]
        omega
      refine ⟨hret.resolve_left hvalid, rfl, by omega, ?_⟩
      rw [hdata, halen]
      rfl
    · rw [hio, Int.toNat_natCast] at h
      have hlt := hgoes.2.2 rfl
      rw [Int.toNat_natCast] at hlt
      -- All blocks are there, so the read maps none and cannot run out of blocks.
      have hsame := h.quiet rfl (min_le_right _ _) (le_trans (min_le_right _ _) hsize)
      subst hsame
      rcases h.ret with ⟨hret, halen⟩ | ⟨-, hlt', -, hlast, -, -⟩
      · exact ⟨hret, rfl, by omega, h.data⟩
      · exfalso
        omega
  · exact fun _ _ h => h
  · exact fun _ h => h
  · intro hgoes hlt
    have hlt' := hgoes.2.2 rfl
    rw [Int.toNat_natCast] at hlt hlt'
    omega
  · rw [hio]
    exact fun _ hfar => absurd hfar (by omega)

/-- **A write replaces bytes of the file, and a read returns bytes of it.** Take a regular file
with as many blocks as its size needs, all of them mapped, on a volume where no block is in
two places and no free block is in one. Then for an offset that is not behind the size, a
write with enough free blocks replaces the bytes from the offset on by the buffer and leaves
the other files as they are. A read returns the bytes from the offset on, and changes
nothing. -/
theorem sfs_io_nolock_correct (hcore : Core I sfs) (hi : i ∈ I)
    (hsin : sfs.inodes i = some sin) (htype : sin.din.type ≠ SFS_TYPE_DIR)
    (hblocks : sin.din.blocks = (sin.din.size + 4095) / 4096) (hmapped : Mapped (view sfs i))
    (buf : List UInt8) (offset : Nat) (hoffset : offset ≤ sin.din.size)
    (hend : offset + buf.length ≤ (12 + 1024) * 4096) :
    (needed (view sfs i) ((offset + buf.length + 4095) / 4096) ≤ sfs.super.unused_blocks →
      ∃ r sfs' sin', sfs_io_nolock i buf offset true sfs = .ok (.ok r, sfs') ∧
        sfs'.inodes i = some sin' ∧ r.ret = .ok () ∧ r.alen = buf.length ∧
        sin'.din.size = max sin.din.size (offset + buf.length) ∧
        fileBytes sfs' i = (fileBytes sfs i).take offset ++ buf ++
          (fileBytes sfs i).drop (offset + buf.length) ∧
        ∀ j ∈ I, j ≠ i → fileBytes sfs' j = fileBytes sfs j) ∧
    ∃ r, sfs_io_nolock i buf offset false sfs = .ok (.ok r, sfs) ∧ r.ret = .ok () ∧
      r.alen = min (offset + buf.length) sin.din.size - offset ∧
      r.data = ((fileBytes sfs i).drop offset).take buf.length := by
  have hdin : (view sfs i).din = sin.din := by rw [view_eq hsin]
  rw [← hdin] at htype hblocks hoffset ⊢
  constructor
  -- The write. A buffer without bytes leaves everything as it is.
  · intro hfree
    obtain ⟨r, sfs', hrun, hret, halen, h⟩ :=
      (ends_write buf offset hcore hi hsin hmapped htype (by omega) hend hfree).exists_ok
    rcases h with ⟨rfl, rfl⟩ | h
    · refine ⟨r, sfs', sin, hrun, hsin, hret, halen, ?_, ?_, fun _ _ _ => rfl⟩
      · rw [← hdin]
        exact (max_eq_left hoffset).symm
      · rw [List.append_nil]
        exact (List.take_append_drop offset (fileBytes sfs' i)).symm
    · obtain ⟨sin', hsin'⟩ := h.kept.exists_sin hsin
      have hsize : (view sfs' i).din.size =
          max (view sfs i).din.size (offset + buf.length) := by
        rw [h.din, halen]
      refine ⟨r, sfs', sin', hrun, hsin', hret, halen, ?_, ?_, ?_⟩
      · rw [← hsize, view_eq hsin']
      · have hcontent := h.content
        rw [if_pos rfl, halen, List.take_length] at hcontent
        unfold fileBytes
        rw [hsize, hcontent]
        exact Bytes.slice_overlay _ _ _ _ hoffset
      · intro j hj hne
        unfold fileBytes
        rw [h.kept.view_eq hcore.pos hj hne]
  -- The read.
  · obtain ⟨r, sfs', hrun, hret, hsame, halen, hdata⟩ :=
      (ends_read buf offset hcore hi hsin hmapped htype (by omega)
        hend).exists_ok
    rw [hsame] at hrun
    refine ⟨r, hrun, hret, by omega, ?_⟩
    unfold fileBytes
    rw [hdata, halen, Bytes.slice_drop, Bytes.slice_take, Nat.zero_add]

/-- A volume of six blocks with one empty file, whose inode is in memory. The blocks 4 and 5
are free. -/
def oneFile : Sfs where
  super := { magic := SFS_MAGIC, blocks := 6, unused_blocks := 2, info := [] }
  freemap := { nbits := 32768, nwords := 1024, map := fun ix => if ix = 0 then 0x30#32 else 0#32 }
  super_dirty := false
  inode_list := [3]
  inodes := fun ino =>
    if ino = 3 then
      some { din := { size := 0, type := SFS_TYPE_FILE, nlinks := 1, blocks := 0,
                      direct := fun _ => 0, indirect := 0 },
             dirty := false, reclaim_count := 1, ref_count := 1, open_count := 1 }
    else none
  dev := fun _ _ => 0

/-- Blocks 4 and 5 are free on the small volume. -/
theorem isFree_oneFile (b : Nat) : oneFile.freemap.isFree b = true ↔ b = 4 ∨ b = 5 := by
  by_cases hlow : b < 32
  · have hdiv : b / 32 = 0 := by omega
    have hmod : b % 32 = b := by omega
    show (if b / 32 = 0 then 0x30#32 else 0#32).getLsbD (b % 32) = true ↔ _
    rw [if_pos hdiv, hmod]
    interval_cases b <;> decide
  · have hdiv : b / 32 ≠ 0 := by omega
    show (if b / 32 = 0 then 0x30#32 else 0#32).getLsbD (b % 32) = true ↔ _
    rw [if_neg hdiv]
    simp
    omega

/-- Blocks 2 and 3 have one owner each, the freemap and the inode. -/
theorem slot_oneFile {x : Slot} (hx : slot {3} oneFile x ≠ 0) :
    x = .freemap 0 ∧ slot {3} oneFile x = 2 ∨ x = .inode 3 ∧ slot {3} oneFile x = 3 := by
  have hentry : ∀ k, (view oneFile 3).entry k = 0 := by
    intro k
    show entryAt _ _ k = 0
    by_cases hk : k < 12
    · exact dif_pos hk
    · exact entryAt_no_indirect (by omega) rfl
  cases x with
  | freemap k =>
      have hone : sfs_freemap_blocks oneFile.super = 1 := by decide +kernel
      rw [slot_freemap, hone] at hx ⊢
      by_cases hk : k < 1
      · have hzero : k = 0 := by omega
        rw [if_pos hk, hzero]
        exact Or.inl ⟨rfl, rfl⟩
      · exact absurd (if_neg hk) hx
  | inode j =>
      by_cases hj : j ∈ ({3} : Finset Nat)
      · have heq := Finset.mem_singleton.mp hj
        subst heq
        exact Or.inr ⟨rfl, rfl⟩
      · exact absurd (if_neg hj) hx
  | indirect j =>
      exfalso
      apply hx
      by_cases hj : j ∈ ({3} : Finset Nat)
      · have heq := Finset.mem_singleton.mp hj
        subst heq
        rfl
      · exact if_neg hj
  | data j k =>
      exfalso
      apply hx
      by_cases hj : j ∈ ({3} : Finset Nat)
      · have heq := Finset.mem_singleton.mp hj
        subst heq
        rw [slot_data hj]
        exact hentry k
      · exact if_neg hj

/-- The small volume is consistent. -/
theorem core_oneFile : Core {3} oneFile where
  pool :=
    { zero := rfl
      bound := fun b hb => by
        have h := (isFree_oneFile b).mp hb
        show b < 6
        omega
      count := by decide +kernel
      bits := by decide +kernel
      words := rfl }
  owned :=
    { inj := by
        intro x y hx hxy
        have hy : slot {3} oneFile y ≠ 0 := by
          rw [← hxy]
          exact hx
        rcases slot_oneFile hx with ⟨rfl, hx'⟩ | ⟨rfl, hx'⟩ <;>
          rcases slot_oneFile hy with ⟨rfl, hy'⟩ | ⟨rfl, hy'⟩
        · rfl
        · omega
        · omega
        · rfl
      used := by
        intro x hx
        rw [← Bool.not_eq_true, isFree_oneFile]
        rcases slot_oneFile hx with ⟨-, h⟩ | ⟨-, h⟩ <;> omega }
  lt := by
    intro x hx
    show _ < 6
    rcases slot_oneFile hx with ⟨-, h⟩ | ⟨-, h⟩ <;> omega
  fits := by decide
  pos := by
    intro i hi
    rw [Finset.mem_singleton.mp hi]
    decide

/-- Two bytes are written to the empty file. -/
theorem write_oneFile : ∃ r sfs', sfs_io_nolock 3 [7, 8] 0 true oneFile = .ok (.ok r, sfs') ∧
    r.alen = 2 ∧ fileBytes sfs' 3 = [7, 8] := by
  have hmapped : Mapped (view oneFile 3) := fun k hk => absurd hk (Nat.not_lt_zero k)
  obtain ⟨hwrite, -⟩ := sfs_io_nolock_correct core_oneFile (Finset.mem_singleton_self 3) rfl
    (by decide) rfl hmapped [7, 8] 0 (Nat.zero_le _) (by decide)
  obtain ⟨r, sfs', -, hrun, -, -, halen, -, hbytes, -⟩ := hwrite (by decide)
  exact ⟨r, sfs', hrun, halen, hbytes⟩

end Ucore.Proofs.Fs
