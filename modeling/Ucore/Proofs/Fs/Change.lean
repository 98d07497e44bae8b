import Ucore.Proofs.Fs.Lookup

/-!
# `Ucore.Proofs.Fs.Change`: calls that change a file

Reading, writing and truncation keep the invariant of the file that they are about (`Counted.io`,
`Counted.truncate`), and they leave the other files as they are. A read can map a block too: the
last one, which a failed write did not get.

The modules below this one say what a function does to one file, with no invariant of the volume
around it: `Transferred`, `Stretched` and `Resized`. Here each of them is shown to keep `FileOk`.
`Enlarged` is what they have in common, and `FileOk.enlarged` the one argument about it. With `Kept`
for the other files, `Counted.kept` then gives the invariant of the volume.

`After` is the outcome of a call that may change the files in `n`: the counts are in order, and the
others have evolved (`Evolves`). `Counted.vfs_open` and `Counted.vfs_close` are the two ends of the
life of an open file. An `open` with `O_TRUNC` or `O_CREAT` opens a file and changes it.
-/

set_option autoImplicit false

namespace Ucore.Proofs.Fs

open Ucore.Lib Ucore.Fs

variable {I : Finset Nat} {i j k n : Nat} {sfs sfs' sfs'' : Sfs} {sin : SfsInode}
  {held opn : Nat → Nat} {v w : FileView} {index range blocks : Prop}

/-! ### One file -/

/-- The file has been enlarged, or bytes of it have been replaced. -/
structure Enlarged (v w : FileView) : Prop where
  type : w.din.type = v.din.type
  nlinks : w.din.nlinks = v.din.nlinks
  blocks : v.din.blocks ≤ w.din.blocks
  entry : ∀ k, w.din.blocks ≤ k → w.entry k = v.entry k
  disk : w.disk = v.disk
  dirty : v.dirty = true → w.dirty = true
  clean : w.dirty = false → w.din = { v.din with blocks := w.din.blocks }
  grew : w.din.blocks ≠ v.din.blocks →
    w.dirty = true ∨ v.entry v.din.blocks ≠ 0 ∨ (12 ≤ v.din.blocks ∧ v.din.indirect ≠ 0)

/-- A file that has been stretched has been enlarged. -/
theorem Stretched.enlarged (h : Stretched v w) : Enlarged v w where
  type := by rw [h.din]
  nlinks := by rw [h.din]
  blocks := h.blocks
  entry := fun k hk => h.entry k (Or.inr (Or.inr hk))
  disk := h.disk
  dirty := h.dirty
  clean := h.clean
  grew := h.grew

/-- A transfer can only enlarge a file. -/
theorem Transferred.enlarged {write : Bool} {offset endpos : Nat} {buf : List UInt8}
    {r : IoResult} (h : Transferred I i write offset endpos buf sfs r sfs') :
    Enlarged (view sfs i) (view sfs' i) where
  type := by rw [h.din]
  nlinks := by rw [h.din]
  blocks := by
    rw [h.blocks]
    split_ifs
    · exact le_refl _
    · exact le_max_left _ _
  entry := h.entry
  disk := h.kept.disk
  dirty := h.dirty
  clean := h.clean
  grew := h.grew

/-- An enlarged file is in order when its size is. -/
theorem FileOk.enlarged (hok : FileOk I v) (h : Enlarged v w) (hw : Wired v) (hmapped : Mapped w)
    (htype : v.din.type = SFS_TYPE_FILE) (hsize : w.din.size < 2 ^ 32)
    (hreach : w.din.size / 4096 ≤ w.din.blocks) : FileOk I w := by
  have hclean : w.dirty = false → v.dirty = false := by
    intro hd
    by_contra hv
    have hdirty := h.dirty ((Bool.not_eq_false _).mp hv)
    rw [hd] at hdirty
    cases hdirty
  refine ⟨hmapped, ?_, ?_, ?_, ?_, ?_, ?_, ?_, hsize, fun _ => hreach, ?_, ?_⟩
  · intro k hk hlow
    rw [h.entry k hk]
    exact hok.direct k (h.blocks.trans hk) hlow
  · intro hd
    rw [h.disk, h.clean hd, hok.clean (hclean hd)]
  · intro hd
    rw [h.disk]
    exact (hok.cleanBlocks (hclean hd)).trans h.blocks
  · intro hd hne
    have hind : w.din.indirect = v.din.indirect := by rw [h.clean hd]
    rw [h.disk] at hne ⊢
    rw [hind]
    by_cases hsame : v.disk.blocks = v.din.blocks
    · -- the first block that came was mapped already, or the indirect block was there
      rw [hsame] at hne ⊢
      rcases h.grew (Ne.symm hne) with hdirty | hentry | hind'
      · rw [hd] at hdirty
        cases hdirty
      · by_cases hlow : v.din.blocks < 12
        · exact absurd (hok.direct _ (le_refl _) hlow) hentry
        · exact ⟨by omega, hw _ (by omega) hentry⟩
      · exact hind'
    · exact hok.cleanLow (hclean hd) hsame
  · rw [h.type]
    exact hok.typeFits
  · rw [h.nlinks]
    exact hok.nlinks
  · rw [h.nlinks]
    exact hok.nlinksFits
  · intro _ hd
    have hsame : w.din.size = v.din.size := by rw [h.clean hd]
    rw [h.disk, hsame]
    exact hok.reachDisk htype (hclean hd)
  · intro hdir
    rw [h.type, htype] at hdir
    cases hdir

/-- A file that has been stretched is sound. -/
theorem FileOk.stretched (hok : FileOk I v) (h : Stretched v w) (hw : Wired v)
    (hmapped : Mapped w) (htype : v.din.type = SFS_TYPE_FILE) : FileOk I w := by
  have hsize : w.din.size = v.din.size := by rw [h.din]
  apply hok.enlarged h.enlarged hw hmapped htype
  · rw [hsize]
    exact hok.size
  · rw [hsize]
    exact (hok.reach htype).trans h.blocks

/-- A file is sound behind a transfer. -/
theorem FileOk.transferred {write : Bool} {offset endpos : Nat} {buf : List UInt8}
    {r : IoResult} (hok : FileOk I (view sfs i))
    (h : Transferred I i write offset endpos buf sfs r sfs')
    (htype : (view sfs i).din.type = SFS_TYPE_FILE) (hlt : offset < endpos)
    (hend : endpos < 2 ^ 32) :
    FileOk I (view sfs' i) := by
  have hle : offset + r.alen ≤ endpos := by
    rcases h.ret with ⟨-, heq⟩ | ⟨-, hlt, -⟩
    · exact le_of_eq heq
    · exact le_of_lt hlt
  have hreach := hok.reach htype
  have hblocks := h.blocks
  have hold := hok.size
  apply hok.enlarged h.enlarged (view_wired sfs i) h.mapped htype
  · rw [h.size]
    exact max_lt hold (lt_of_le_of_lt hle hend)
  · rw [h.size]
    by_cases hzero : r.alen = 0
    · rw [if_pos hzero] at hblocks
      rcases h.ret with ⟨-, heq⟩ | ⟨-, -, -, hlast, -⟩
      · omega
      · rcases max_cases (view sfs i).din.size (offset + r.alen) with ⟨hm, -⟩ | ⟨hm, -⟩
        · rw [hm]
          omega
        · rw [hm]
          omega
    · rw [if_neg hzero] at hblocks
      rcases max_cases (view sfs i).din.size (offset + r.alen) with ⟨hm, -⟩ | ⟨hm, -⟩ <;>
        rw [hm] <;> omega

/-- A file is sound behind a truncation. -/
theorem FileOk.resized {len : Nat} (hok : FileOk I (view sfs i)) (h : Resized I i len sfs sfs')
    (htype : (view sfs i).din.type = SFS_TYPE_FILE) (hlen : len < 2 ^ 32) :
    FileOk I (view sfs' i) := by
  have hdirty : (view sfs' i).dirty ≠ false := by
    rw [h.dirty]
    simp
  refine ⟨h.mapped, ?_, fun hd => absurd hd hdirty, fun hd => absurd hd hdirty,
    fun hd => absurd hd hdirty, ?_, ?_, ?_, ?_, ?_, fun _ hd => absurd hd hdirty, ?_⟩
  · intro k hk hlow
    rw [h.blocks] at hk
    rw [h.behind k hk]
    split_ifs with hin
    · rfl
    · exact hok.direct k (by omega) hlow
  · rw [h.type]
    exact hok.typeFits
  · rw [h.nlinks]
    exact hok.nlinks
  · rw [h.nlinks]
    exact hok.nlinksFits
  · rw [h.size]
    exact hlen
  · intro _
    rw [h.size, h.blocks]
    omega
  · intro hdir
    rw [h.type, htype] at hdir
    cases hdir

/-! ### The volume -/

/-- The counts are in order, and only files in `n` have changed. -/
structure After (I : Finset Nat) (n : Nat → Prop) (held opn : Nat → Nat) (sfs sfs' : Sfs) :
    Prop where
  counted : Counted I held opn sfs'
  evolves : Evolves I n sfs sfs'

variable {names : Nat → Prop}

/-- One call after another. -/
theorem After.trans {held' opn' : Nat → Nat} (h : After I names held opn sfs sfs')
    (h' : After I names held' opn' sfs' sfs'') : After I names held' opn' sfs sfs'' :=
  ⟨h'.counted, h.evolves.trans h'.evolves⟩

/-- A call that changes no file. -/
theorem Calm.after (h : Calm I held opn sfs sfs') : After I names held opn sfs sfs' :=
  ⟨h.counted, h.quiet.evolves⟩

/-- A file that is not named has its bytes. -/
theorem Evolves.fileBytes_eq (h : Evolves I names sfs sfs') (hok : FileOk I (view sfs i))
    (hi : i ∈ I) (hnot : ¬ names i) : fileBytes sfs' i = fileBytes sfs i := by
  have hsettled := h.settled i hi hnot
  have hsize : (view sfs' i).din.size = (view sfs i).din.size := by rw [hsettled.din hok]
  unfold fileBytes
  rw [hsettled.content, hsize]

/-- More files may be named. -/
theorem Evolves.mono {names' : Nat → Prop} (h : Evolves I names sfs sfs')
    (hle : ∀ i, names i → names' i) : Evolves I names' sfs sfs' :=
  { h with settled := fun i hi hnot => h.settled i hi fun hn => hnot (hle i hn) }

/-- A call that may change fewer files may change more, and with fewer references in hand. -/
theorem After.mono {held' : Nat → Nat} {names' : Nat → Prop} (h : After I names held opn sfs sfs')
    (hle : ∀ i, names i → names' i) (hheld : ∀ i, held' i ≤ held i) :
    After I names' held' opn sfs sfs' :=
  ⟨h.counted.mono hheld, h.evolves.mono hle⟩

/-- A change of one file that leaves the file in order. -/
theorem Counted.kept (h : Counted I held opn sfs) (hsin : sfs.inodes i = some sin)
    (hcore : Core I sfs') (hkept : Kept I i sfs sfs') (hfile : FileOk I (view sfs' i)) :
    After I (fun j => j = i) held opn sfs sfs' := by
  have hok := h.volume.inode i sin hsin
  obtain ⟨din, dirty, hnew⟩ := hkept.self sin hsin
  have hrefs : refs sfs' = refs sfs := by
    funext j
    by_cases hji : j = i
    · rw [hji, refs_eq hnew, refs_eq hsin]
    · unfold refs
      rw [hkept.other j hji]
  have hopens : opens sfs' = opens sfs := by
    funext j
    by_cases hji : j = i
    · rw [hji, opens_eq hnew, opens_eq hsin]
    · unfold opens
      rw [hkept.other j hji]
  refine ⟨⟨⟨hcore, ?_, ?_, ?_, ?_⟩, hopens.trans h.isOpen, ?_⟩,
    hkept.evolves h.volume.core.pos rfl⟩
  · intro j hj
    by_cases hji : j = i
    · rw [hji]
      exact hfile
    · rw [hkept.view_eq h.volume.core.pos hj hji]
      exact h.volume.file j hj
  · intro j sin' hj
    by_cases hji : j = i
    · subst hji
      obtain rfl := Option.some.inj (hnew.symm.trans hj)
      exact { hok with }
    · rw [hkept.other j hji] at hj
      exact h.volume.inode j sin' hj
  · intro j
    rw [hkept.list, h.volume.list j]
    by_cases hji : j = i
    · rw [hji, hnew, hsin]
      rfl
    · rw [hkept.other j hji]
  · rw [hkept.list]
    exact h.volume.nodup
  · intro j
    rw [hrefs]
    exact h.enough j

/-- A file that has only been read has its bytes. -/
theorem Transferred.fileBytes_eq {offset endpos : Nat} {buf : List UInt8} {r : IoResult}
    (h : Transferred I i false offset endpos buf sfs r sfs')
    (hend : endpos ≤ (view sfs i).din.size) : fileBytes sfs' i = fileBytes sfs i := by
  have hle : offset + r.alen ≤ endpos := by
    rcases h.ret with ⟨-, heq⟩ | ⟨-, hlt, -⟩
    · exact le_of_eq heq
    · exact le_of_lt hlt
  unfold fileBytes
  rw [h.content, h.size, max_eq_left (by omega), if_neg (by simp)]

/-- Reading and writing a regular file. -/
theorem Counted.io (h : Counted I held opn sfs) (hsin : sfs.inodes i = some sin)
    (htype : sin.din.type = SFS_TYPE_FILE) (buf : List UInt8) (offset : Int) (write : Bool)
    (hindex : IoGoes (view sfs i).din.size write offset buf.length →
      (view sfs i).din.blocks < offset.toNat / 4096 → index)
    (hrange : IoGoes (view sfs i).din.size write offset buf.length →
      1036 * 4096 < ioEnd (view sfs i).din.size write offset buf.length →
      needed (view sfs i) 1036 ≤ sfs.super.unused_blocks → range) :
    (sfs_io i buf offset write).Ends sfs
      (fun r sfs' => After I (fun j => j = i) held opn sfs sfs' ∧
        (sfs' = sfs ∨ IoGoes (view sfs i).din.size write offset buf.length ∧
          Transferred I i write offset.toNat
            (ioEnd (view sfs i).din.size write offset buf.length) buf sfs r sfs'))
      (fun _ _ => False) (Refuses index range blocks) := by
  have hi := (h.volume.inode i sin hsin).mem
  have hfile := h.volume.file i hi
  have hdin : (view sfs i).din = sin.din := by rw [view_eq hsin]
  have hreg : (view sfs i).din.type = SFS_TYPE_FILE := by
    rw [hdin]
    exact htype
  unfold sfs_io
  apply (ends_io_nolock (H := Refuses index range blocks) h.volume.core hi hsin hfile.mapped
    (by rw [hreg]; decide) hindex hrange).seq
  · rintro r sfs' (⟨-, rfl, hzero, -⟩ | ⟨hgoes, htrans⟩)
    · rw [Routine.ends_bind, Routine.ends_assert, if_pos (by omega)]
      exact ⟨⟨h, .refl sfs'⟩, Or.inl rfl⟩
    · have hle := hgoes.le
      have hlt := hgoes.lt
      have hmax : ioEnd (view sfs i).din.size write offset buf.length < 2 ^ 32 := by
        have hbig : (SFS_MAX_FILE_SIZE : Int) = 134217728 := rfl
        have hmin := min_le_right (toOff (offset + buf.length)) (SFS_MAX_FILE_SIZE : Int)
        unfold ioEnd
        split_ifs
        · exact lt_of_le_of_lt (min_le_left _ _) (by omega)
        · omega
      have hend : offset.toNat + r.alen ≤
          ioEnd (view sfs i).din.size write offset buf.length := by
        rcases htrans.ret with ⟨-, heq⟩ | ⟨-, hlt, -⟩
        · exact le_of_eq heq
        · exact le_of_lt hlt
      rw [Routine.ends_bind, Routine.ends_assert, if_pos (by omega)]
      exact ⟨h.kept hsin htrans.core htrans.kept (hfile.transferred htrans hreg hlt hmax),
        Or.inr ⟨hgoes, htrans⟩⟩
  · exact fun _ _ h => h
  · exact fun _ h => h

/-- Truncation of a regular file, up or down. It does not fail when nothing is to be left, and no
byte has changed when it fails. -/
theorem Counted.truncate (h : Counted I held opn sfs) (hsin : sfs.inodes i = some sin)
    (len : Int)
    (hrange : (view sfs i).din.blocks < (len.toNat + 4095) / 4096 →
      1036 < (len.toNat + 4095) / 4096 →
      needed (view sfs i) 1036 ≤ sfs.super.unused_blocks → range)
    (hblocks : (view sfs i).din.type = SFS_TYPE_FILE → (view sfs i).din.size = len.toNat →
      (view sfs i).din.blocks ≠ (len.toNat + 4095) / 4096 → blocks) :
    (vop_truncate i len).Ends sfs
      (fun _ sfs' => After I (fun j => j = i) held opn sfs sfs' ∧
        (view sfs i).din.type = SFS_TYPE_FILE ∧ (view sfs' i).din.size = len.toNat ∧
        (sfs' = sfs ∨ Resized I i len.toNat sfs sfs'))
      (fun _ sfs' => len ≠ 0 ∧ After I (fun j => j = i) held opn sfs sfs' ∧
        fileBytes sfs' i = fileBytes sfs i ∧ (view sfs i).din.type = SFS_TYPE_FILE ∧
        (sfs' = sfs ∨ Stuck I i ((len.toNat + 4095) / 4096) sfs sfs'))
      (Refuses index range blocks) := by
  have hi := (h.volume.inode i sin hsin).mem
  have hfile := h.volume.file i hi
  have hdin : (view sfs i).din = sin.din := by rw [view_eq hsin]
  unfold vop_truncate
  refine (ends_vop_present hsin .truncate).seq ?_ (fun _ _ h => h.elim) fun _ h => h
  rintro _ sfs ⟨rfl, hpresent, -⟩
  have hreg : (view sfs i).din.type = SFS_TYPE_FILE := by
    rw [hdin]
    exact of_decide_eq_true hpresent
  apply (ends_truncfile (H := Refuses index range blocks) h.volume.core hi hsin hfile.mapped
    (hblocks hreg) hrange).mono
  · rintro _ sfs' ⟨-, hle, ⟨hsize, rfl, -⟩ | ⟨-, hresized⟩⟩
    · exact ⟨⟨h, .refl sfs'⟩, hreg, hsize, Or.inl rfl⟩
    · have hbig : (SFS_MAX_FILE_SIZE : Int) = 134217728 := rfl
      exact ⟨h.kept hsin hresized.core hresized.kept (hfile.resized hresized hreg (by omega)),
        hreg, hresized.size, Or.inr hresized⟩
  · rintro e sfs' (⟨-, rfl, hbad⟩ | ⟨-, -, hlt, hstuck⟩)
    · refine ⟨?_, ⟨h, .refl sfs'⟩, rfl, hreg, Or.inl rfl⟩
      rintro rfl
      have hbig : (SFS_MAX_FILE_SIZE : Int) = 134217728 := rfl
      omega
    · refine ⟨?_, h.kept hsin hstuck.grown.core hstuck.grown.kept
        (hfile.stretched hstuck.grown.stretched (view_wired sfs i) hstuck.grown.mapped hreg), ?_,
        hreg, Or.inr hstuck⟩
      · rintro rfl
        exact absurd hlt (Nat.not_lt_zero _)
      · have hsize : (view sfs' i).din.size = (view sfs i).din.size := by
          rw [hstuck.grown.stretched.din]
        unfold fileBytes
        rw [hstuck.content, hsize]
  · exact fun _ h => h

/-- `sfs_tryseek` keeps the invariant. It changes one file at most, and not its bytes when it
fails. -/
theorem Counted.tryseek (h : Counted I held opn sfs) (hsin : sfs.inodes i = some sin)
    (pos : Int)
    (hrange : (view sfs i).din.size < pos.toNat →
      (view sfs i).din.blocks < (pos.toNat + 4095) / 4096 → 1036 < (pos.toNat + 4095) / 4096 →
      needed (view sfs i) 1036 ≤ sfs.super.unused_blocks → range) :
    (sfs_tryseek i pos).Ends sfs
      (fun _ sfs' => After I (fun j => j = i) held opn sfs sfs' ∧
        (pos.toNat ≤ (view sfs i).din.size ∧ sfs' = sfs ∨
          (view sfs i).din.type = SFS_TYPE_FILE ∧
          (view sfs i).din.size < pos.toNat ∧ pos.toNat < SFS_MAX_FILE_SIZE ∧
          Resized I i pos.toNat sfs sfs'))
      (fun _ sfs' => After I (fun j => j = i) held opn sfs sfs' ∧
        fileBytes sfs' i = fileBytes sfs i ∧
        (sfs' = sfs ∨ (view sfs i).din.type = SFS_TYPE_FILE ∧
          (view sfs i).din.size < pos.toNat ∧ pos.toNat < SFS_MAX_FILE_SIZE ∧
          Stuck I i ((pos.toNat + 4095) / 4096) sfs sfs'))
      (Refuses index range blocks) := by
  have hdin : (view sfs i).din = sin.din := by rw [view_eq hsin]
  unfold sfs_tryseek
  rw [Routine.ends_ite]
  split_ifs with hbad
  · exact ⟨⟨h, .refl sfs⟩, rfl, Or.inl rfl⟩
  · rw [Routine.ends_bind, ends_sfsInode hsin, Routine.ends_when, ← hdin]
    split_ifs with hlt
    · apply (h.truncate hsin pos (hrange hlt) fun _ heq => absurd heq (by omega)).mono
      · rintro _ sfs' ⟨hafter, hreg, hsize, rfl | hresized⟩
        · exact ⟨hafter, Or.inl ⟨le_of_eq hsize.symm, rfl⟩⟩
        · exact ⟨hafter, Or.inr ⟨hreg, hlt, by omega, hresized⟩⟩
      · rintro e sfs' ⟨-, hafter, hbytes, hreg, rfl | hstuck⟩
        · exact ⟨hafter, hbytes, Or.inl rfl⟩
        · exact ⟨hafter, hbytes, Or.inr ⟨hreg, hlt, by omega, hstuck⟩⟩
      · exact fun _ h => h
    · exact ⟨⟨h, .refl sfs⟩, Or.inl ⟨Nat.le_of_not_lt hlt, rfl⟩⟩

/-! ### Opening and closing -/

/-- The flags make an open truncate the file. -/
def Truncates (flags : Nat) : Prop := oTrunc flags = true ∨ oCreat flags = true

/-- The file has been written back or dropped from memory, if anything, and then cut to nothing,
unless it was empty. -/
def Cut (I : Finset Nat) (i : Nat) (sfs sfs' : Sfs) : Prop :=
  Settled (view sfs i) (view sfs' i) ∨
    ∃ sfs₁, Settled (view sfs i) (view sfs₁ i) ∧
      (view sfs₁ i).din.type = SFS_TYPE_FILE ∧ Resized I i 0 sfs₁ sfs'

/-- Some regular file of the volume is empty and has blocks, perhaps only once its inode has been
loaded again. -/
def EmptyHasBlocks (I : Finset Nat) (sfs : Sfs) : Prop :=
  ∃ i ∈ I, ∃ v, Settled (view sfs i) v ∧ v.din.type = SFS_TYPE_FILE ∧ v.din.size = 0 ∧
    v.din.blocks ≠ 0

/-- The lookup in front of a cut at most writes back and drops. -/
theorem Cut.of_settled (h : Cut I i sfs' sfs'') (hs : Settled (view sfs i) (view sfs' i)) :
    Cut I i sfs sfs'' := by
  rcases h with h | ⟨sfs₁, h, hcut⟩
  · exact Or.inl (hs.trans h)
  · exact Or.inr ⟨sfs₁, hs.trans h, hcut⟩

/-- A lookup does not make an empty file with blocks. -/
theorem EmptyHasBlocks.of_quiet (h : EmptyHasBlocks I sfs') (hq : Quiet I sfs sfs') :
    EmptyHasBlocks I sfs := by
  obtain ⟨i, hi, v, hs, hv⟩ := h
  exact ⟨i, hi, v, (hq.settled i hi).trans hs, hv⟩

/-- The end of `vfs_open` keeps the invariant. It changes one file at most, when it truncates it. -/
theorem Counted.vfs_open_node (h : Counted I (more held i) opn sfs) (flags : Nat)
    (hblocks : Truncates flags → EmptyHasBlocks I sfs → blocks) :
    (vfs_open_node i flags).Ends sfs
      (fun _ sfs' => After I (fun j => j = i ∧ Truncates flags) held (more opn i) sfs sfs' ∧
        Cut I i sfs sfs' ∧ (Truncates flags → (view sfs' i).din.size = 0))
      (fun _ sfs' => Calm I held opn sfs sfs') (Refuses index range blocks) := by
  obtain ⟨sin, hsin⟩ := h.exists_sin (more_pos held i)
  unfold Ucore.Fs.vfs_open_node
  refine (ends_vop_present hsin .both).seq ?_ (fun _ _ h => h.elim) fun _ h => h
  rintro _ sfs ⟨rfl, -⟩
  unfold Ucore.Fs.sfs_open
  rw [Routine.ends_bind, Routine.ends_handle, Routine.ends_bind, ends_sfsInode hsin,
    Routine.ends_when]
  split_ifs with hdir
  · rw [Routine.ends_fail]
    exact h.ref_dec.seq (fun _ _ h => h) (fun _ _ h => h.elim) fun _ h => h
  · apply h.open_inc.seq
    · intro _ sfs₁ h₁
      have hi := (h.volume.inode i sin hsin).mem
      have hsettled := h₁.quiet.settled i hi
      rw [Routine.ends_when]
      split_ifs with htrunc
      · obtain ⟨sin₁, hsin₁⟩ := h₁.counted.exists_sin (i := i) (by rw [more_self]; omega)
        rw [Routine.ends_handle]
        apply (h₁.counted.truncate hsin₁ 0 (fun hlt => absurd hlt (Nat.not_lt_zero _))
          fun htype hsize hne => hblocks htrunc ⟨i, hi, _, hsettled, htype, hsize, hne⟩).mono
        · rintro _ sfs₂ ⟨h₂, htype, hsize, hcut⟩
          refine ⟨h₁.after.trans (h₂.mono (fun j hj => ⟨hj, htrunc⟩) fun _ => le_refl _), ?_,
            fun _ => hsize⟩
          rcases hcut with rfl | hcut
          · exact Or.inl hsettled
          · exact Or.inr ⟨sfs₁, hsettled, htype, hcut⟩
        · exact fun _ _ h => absurd rfl h.1
        · exact fun _ h => h
      · exact ⟨h₁.after, Or.inl hsettled, fun h => absurd h htrunc⟩
    · exact fun _ _ h => h.elim
    · exact fun _ h => h

/-- `vfs_open` counts the inode that it returns as open once more. A call that fails has not changed
a file, and at most left a reference behind. -/
theorem Counted.vfs_open (h : Counted I held opn sfs) (path : Path) (hstart : path.start ∈ I)
    (flags : Nat) (hblocks : Truncates flags → EmptyHasBlocks I sfs → blocks) :
    (vfs_open path flags).Ends sfs
      (fun node sfs' => node ∈ I ∧
        After I (fun j => j = node ∧ Truncates flags) held (more opn node) sfs sfs' ∧
        Cut I node sfs sfs' ∧ (Truncates flags → (view sfs' node).din.size = 0))
      (fun _ sfs' => Calm I held opn sfs sfs') (Refuses index range blocks) := by
  unfold Ucore.Fs.vfs_open
  rw [Routine.ends_ite]
  by_cases hbad : accMode flags = 3 ∨ (oTrunc flags = true ∧ accMode flags = 0)
  · rw [if_pos hbad]
    exact h.calm
  · rw [if_neg hbad, Routine.ends_bind]
    apply (h.vfs_lookup path hstart).attempt
    · rintro node sfs₁ ⟨hnode, h₁⟩
      dsimp only
      rw [Routine.ends_ite]
      split_ifs with hexcl
      · -- the reference of the lookup is not given back
        exact ⟨h₁.counted.mono (le_more held node), h₁.quiet⟩
      · apply (h₁.counted.vfs_open_node flags
          fun htrunc hempty => hblocks htrunc (hempty.of_quiet h₁.quiet)).seq
        · exact fun _ sfs₂ ⟨h₂, hcut, hsize⟩ =>
            ⟨hnode, h₁.after.trans h₂, hcut.of_settled (h₁.quiet.settled node hnode), hsize⟩
        · exact fun _ _ h₂ => h₁.trans h₂
        · exact fun _ h => h
    · rintro e sfs₁ ⟨-, h₁⟩
      dsimp only
      unfold vfs_open_missing
      rw [Routine.ends_ite]
      split_ifs with hcreat
      · apply (h₁.counted.get_device path hstart).seq
        · exact fun _ _ _ => trivial
        · exact fun _ _ h => h.elim
        · exact fun _ h => h
      · exact h₁
    · exact fun _ h => h

/-- `vfs_close` gives back what `vfs_open` has counted. -/
theorem Counted.vfs_close (h : Counted I held (more opn i) sfs) :
    (vfs_close i).Ends sfs (fun _ sfs' => Calm I held opn sfs sfs') (fun _ _ => False)
      (Refuses index range blocks) := by
  unfold Ucore.Fs.vfs_close
  apply h.open_dec.seq
  · intro _ sfs₁ h₁
    exact h₁.counted.ref_dec.mono (fun _ _ h₂ => h₁.trans h₂) (fun _ _ h => h) fun _ h => h
  · exact fun _ _ h => h
  · exact fun _ h => h

end Ucore.Proofs.Fs
