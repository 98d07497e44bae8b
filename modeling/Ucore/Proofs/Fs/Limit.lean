import Ucore.Proofs.Fs.ReadWrite

/-!
# `Ucore.Proofs.Fs.Limit`: the limit on the size and the end of the block map

`SFS_MAX_FILE_SIZE` lets a file have 32768 blocks, and the block map has 1036 indices. So a
request can pass the checks of `sfs_io_nolock`, `sfs_tryseek` and `sfs_truncfile` and still
reach the end of the block map, unless the volume is full before. The theorems say for each of
the three functions after which requests the file accounts for its blocks (`Accounts`).

## The conditions

`Fits` is about the end of a range: the indices up to it are in the block map and there are enough
free blocks. `NoBlock` is about the other way to come to an end: there is no free block for the next
index. Between the two lie the requests that do not return, and those that leave a file with blocks
that its size does not account for.

* `truncfile_accounts`: a length that fits, or no block at all for a longer one.
* `tryseek_accounts`: a seek behind the end goes through `vop_truncate`; the condition is the same.
* `io_nolock_accounts`: a write may also begin within the next block of the file (`Writes`).

`sfs_limits` states the three as equivalences, for every request on a regular file that accounts for
its blocks. `sfs_truncfile_past_map` is a length of 1037 blocks on a volume with 2048: the check of
the limit lets it pass, and the enlargement panics at index 1036.
-/

set_option autoImplicit false

namespace Ucore.Proofs.Fs

open Ucore.Lib Ucore.Fs

variable {I : Finset Nat} {i k n : Nat} {sfs sfs' : Sfs} {sin : SfsInode} {α : Type}

/-- The file accounts for its blocks: they are all mapped, and they are as many as the size
needs. No block of the volume is in two places, or free and in a place. -/
structure Accounted (I : Finset Nat) (i : Nat) (sfs : Sfs) : Prop where
  core : Core I sfs
  mapped : Mapped (view sfs i)
  blocks : (view sfs i).din.blocks = ((view sfs i).din.size + 4095) / 4096

/-- The call returns a result or an error code, and then the file accounts for its blocks. -/
def Accounts (I : Finset Nat) (i : Nat) (x : SfsM α) (sfs : Sfs) : Prop :=
  ∃ r sfs', x sfs = .ok (r, sfs') ∧ Accounted I i sfs'

/-- A call that ends well accounts for the blocks. -/
theorem Accounts.of_ends {x : SfsM α}
    (h : x.Ends sfs (fun _ sfs' => Accounted I i sfs') (fun _ sfs' => Accounted I i sfs')
      fun _ => False) : Accounts I i x sfs := by
  unfold Routine.Ends at h
  cases hx : x sfs with
  | error halt =>
      rw [hx] at h
      exact h.elim
  | ok p =>
      obtain ⟨r, sfs'⟩ := p
      rw [hx] at h
      cases r with
      | ok a => exact ⟨.ok a, sfs', hx, h⟩
      | error e => exact ⟨.error e, sfs', hx, h⟩

/-- What is known of a call that accounts for the blocks, from the ways it can end. -/
theorem Accounts.cases {x : SfsM α} {Q : α → Sfs → Prop} {E : Errno → Sfs → Prop}
    {H : SfsPanic → Prop} (h : Accounts I i x sfs) (hends : x.Ends sfs Q E H) :
    ∃ sfs', Accounted I i sfs' ∧ ((∃ a, Q a sfs') ∨ ∃ e, E e sfs') := by
  obtain ⟨r, sfs', hx, hacc⟩ := h
  unfold Routine.Ends at hends
  rw [hx] at hends
  cases r with
  | ok a => exact ⟨sfs', hacc, Or.inl ⟨a, hends⟩⟩
  | error e => exact ⟨sfs', hacc, Or.inr ⟨e, hends⟩⟩

/-! ### Truncation -/

/-- There is no free block for the next index of the block map. -/
def NoBlock (sfs : Sfs) (i : Nat) : Prop :=
  (view sfs i).din.blocks < 1036 ∧
    sfs.super.unused_blocks < needed (view sfs i) ((view sfs i).din.blocks + 1)

/-- The blocks up to `n` have indices in the block map, and there are enough free blocks for
those that the file does not have. -/
def Fits (sfs : Sfs) (i n : Nat) : Prop :=
  n ≤ 1036 ∧ needed (view sfs i) n ≤ sfs.super.unused_blocks

/-- A file has the blocks that it has. -/
theorem Fits.of_le (hmapped : Mapped (view sfs i)) (h : n ≤ (view sfs i).din.blocks) :
    Fits sfs i n := by
  refine ⟨le_trans h hmapped.blocks_le, ?_⟩
  rw [needed_of_le h]
  exact Nat.zero_le _

/-- Without a free block for the next index nothing longer fits. -/
theorem NoBlock.not_fits (h : NoBlock sfs i) (hn : (view sfs i).din.blocks < n)
    (hfits : needed (view sfs i) n ≤ sfs.super.unused_blocks) : False :=
  absurd (lt_of_lt_of_le h.2 (needed_mono hn)) (Nat.not_lt.mpr hfits)

/-- An enlargement that finds no block at all leaves the file as it is. -/
theorem Stuck.accounted (hstuck : Stuck I i n sfs sfs') (h : Accounted I i sfs) (hi : i ∈ I)
    (hnone : NoBlock sfs i) : Accounted I i sfs' := by
  have hblocks : (view sfs' i).din.blocks = (view sfs i).din.blocks := by
    by_contra hne
    have hle := hstuck.grown.stretched.blocks
    exact hnone.not_fits (by omega) hstuck.grown.fits
  have hview := (hstuck.idle hblocks).view_eq h.core hi
  exact ⟨hstuck.grown.core, hstuck.grown.mapped, by rw [hview]; exact h.blocks⟩

/-- The file is enlarged to all the blocks, or by none. -/
theorem truncfile_accounts (h : Accounted I i sfs) (hi : i ∈ I) (hsin : sfs.inodes i = some sin)
    (len : Int) : Accounts I i (sfs_truncfile i len) sfs ↔
      len < 0 ∨ (SFS_MAX_FILE_SIZE : Int) < len ∨ Fits sfs i ((len.toNat + 4095) / 4096) ∨
        NoBlock sfs i := by
  have hsame : ∀ H : SfsPanic → Prop, (view sfs i).din.size = len.toNat →
      (view sfs i).din.blocks ≠ (len.toNat + 4095) / 4096 → H .truncBlocks :=
    fun _ hsize hne => absurd (by rw [h.blocks, hsize]) hne
  constructor
  -- The call returned with the count in order. It may have set the size, refused the length, or run
  -- out of blocks, and then not one block may have been added.
  · intro hacc
    obtain ⟨sfs', hacc', hends⟩ := hacc.cases
      (ends_truncfile (H := fun _ => True) h.core hi hsin h.mapped (fun _ _ => trivial)
        fun _ _ _ => trivial)
    rcases hends with ⟨-, -, -, ⟨-, -, hblocks⟩ | ⟨-, hresized⟩⟩ |
      ⟨e, ⟨-, -, hbad⟩ | ⟨-, -, -, hstuck⟩⟩
    · exact Or.inr (Or.inr (Or.inl (Fits.of_le h.mapped (le_of_eq hblocks.symm))))
    · have hle := hresized.mapped.blocks_le
      rw [hresized.blocks] at hle
      exact Or.inr (Or.inr (Or.inl ⟨hle, hresized.fits⟩))
    · rcases hbad with hneg | hbig
      · exact Or.inl hneg
      · exact Or.inr (Or.inl hbig)
    · -- the size is the old one, and so is the number of blocks
      have hsize : (view sfs' i).din.size = (view sfs i).din.size := by
        rw [hstuck.grown.stretched.din]
      have hblocks : (view sfs' i).din.blocks = (view sfs i).din.blocks := by
        rw [hacc'.blocks, hsize, h.blocks]
      have hlack := hstuck.unused
      have hview := (hstuck.idle hblocks).view_eq h.core hi
      rw [hview, (hstuck.idle hblocks).super] at hlack
      exact Or.inr (Or.inr (Or.inr ⟨hblocks ▸ hstuck.below, hlack⟩))
  -- A length that is refused changes nothing. The others are decided by the free blocks.
  · intro hcond
    by_cases hbad : len < 0 ∨ (SFS_MAX_FILE_SIZE : Int) < len
    · refine ⟨.error .inval, sfs, ?_, h⟩
      unfold sfs_truncfile
      rw [if_pos hbad]
      rfl
    · have hroom : Fits sfs i ((len.toNat + 4095) / 4096) ∨ NoBlock sfs i := by
        rw [not_or] at hbad
        exact (hcond.resolve_left hbad.1).resolve_left hbad.2
      apply Accounts.of_ends
      apply (ends_truncfile h.core hi hsin h.mapped (hsame _) ?_).mono
      · rintro _ sfs' ⟨-, -, ⟨-, rfl, -⟩ | ⟨-, hresized⟩⟩
        · exact h
        · exact ⟨hresized.core, hresized.mapped, by rw [hresized.blocks, hresized.size]⟩
      · rintro e sfs' (⟨-, rfl, -⟩ | ⟨-, -, hlt, hstuck⟩)
        · exact h
        · rcases hroom with hfits | hnone
          · exact absurd hstuck.lt_needed (Nat.not_lt.mpr hfits.2)
          · exact hstuck.accounted h hi hnone
      · exact fun _ h => h
      · intro hlt hfar hfits
        rcases hroom with hroom | hroom
        · exact absurd hroom.1 (Nat.not_le.mpr hfar)
        · exact hroom.not_fits hroom.1 hfits

/-! ### Seeking -/

/-- `vop_truncate` finds the function, and the counts of the inode are in order. -/
def InUse (sin : SfsInode) : Prop :=
  sin.din.type = SFS_TYPE_FILE ∧ sin.open_count ≤ sin.ref_count ∧ sin.ref_count < 0x10000

/-- A function that the inode has is called when its counts are in order. -/
theorem ends_vop_op {vop : Vop} {Q : Unit → Sfs → Prop} {E : Errno → Sfs → Prop}
    {H : SfsPanic → Prop} (hsin : sfs.inodes i = some sin)
    (hpresent : vop.present sin.din.type = true) (hopen : sin.open_count ≤ sin.ref_count)
    (href : sin.ref_count < 0x10000) : (vop_op i vop).Ends sfs Q E H ↔ Q () sfs := by
  unfold vop_op
  rw [Routine.ends_bind, ends_sfsInode hsin, Routine.ends_bind, Routine.ends_assert,
    if_pos hpresent, Routine.ends_assert, if_pos ⟨hopen, href, by omega⟩]

/-- `vop_truncate` of a file in use is `sfs_truncfile`. -/
theorem vop_truncate_eq (hsin : sfs.inodes i = some sin) (huse : InUse sin) (len : Int) :
    vop_truncate i len sfs = sfs_truncfile i len sfs := by
  obtain ⟨htype, hopen, href⟩ := huse
  have hvop : vop_op i .truncate sfs = .ok (.ok (), sfs) := by
    have hends : (vop_op i .truncate).Ends sfs (fun _ sfs' => sfs' = sfs) (fun _ _ => False)
        fun _ => False :=
      (ends_vop_op hsin (by simp [Vop.present, htype]) hopen href).mpr rfl
    obtain ⟨_, _, hrun, rfl⟩ := hends.exists_ok
    exact hrun
  show (Routine.seq (vop_op i .truncate) fun _ => sfs_truncfile i len) sfs = _
  unfold Routine.seq
  rw [hvop]

/-- A seek behind the end enlarges the file. -/
theorem tryseek_accounts (h : Accounted I i sfs) (hi : i ∈ I) (hsin : sfs.inodes i = some sin)
    (huse : InUse sin) (pos : Int) : Accounts I i (sfs_tryseek i pos) sfs ↔
      pos < 0 ∨ (SFS_MAX_FILE_SIZE : Int) ≤ pos ∨ Fits sfs i ((pos.toNat + 4095) / 4096) ∨
        NoBlock sfs i := by
  have hdin : (view sfs i).din = sin.din := by rw [view_eq hsin]
  by_cases hbad : pos < 0 ∨ (SFS_MAX_FILE_SIZE : Int) ≤ pos
  · have hrun : sfs_tryseek i pos sfs = .ok (.error .inval, sfs) := by
      unfold sfs_tryseek
      rw [if_pos hbad]
      rfl
    refine iff_of_true ⟨_, sfs, hrun, h⟩ ?_
    rcases hbad with hneg | hbig
    · exact Or.inl hneg
    · exact Or.inr (Or.inl hbig)
  · have hrun : sfs_tryseek i pos sfs =
        (Routine.when (sin.din.size < pos.toNat) (vop_truncate i pos)) sfs := by
      unfold sfs_tryseek
      rw [if_neg hbad]
      show (Routine.seq (sfsInode i) _) sfs = _
      unfold Routine.seq sfsInode
      rw [hsin]
    rw [not_or] at hbad
    by_cases hlt : sin.din.size < pos.toNat
    · have heq : sfs_tryseek i pos sfs = sfs_truncfile i pos sfs := by
        rw [hrun, Routine.when, if_pos hlt, vop_truncate_eq hsin huse]
      have htrunc := truncfile_accounts h hi hsin pos
      unfold Accounts at htrunc ⊢
      rw [heq, htrunc]
      have hmax : (SFS_MAX_FILE_SIZE : Int) = 134217728 := rfl
      refine or_congr_right (or_congr_left ?_)
      omega
    · have hblocks := h.blocks
      rw [hdin] at hblocks
      have hle : (pos.toNat + 4095) / 4096 ≤ (view sfs i).din.blocks := by
        rw [hdin]
        omega
      refine iff_of_true ⟨.ok (), sfs, ?_, h⟩ (Or.inr (Or.inr (Or.inl (Fits.of_le h.mapped hle))))
      rw [hrun, Routine.when, if_neg hlt]
      rfl

/-! ### Reading and writing -/

/-- A transfer that begins behind the blocks of the file stops at the first of them. -/
theorem panics_io_steps {write : Bool} {offset endpos : Nat} (buf : List UInt8)
    (hsin : sfs.inodes i = some sin) (hlt : offset < endpos)
    (hindex : sin.din.blocks < offset / 4096) :
    (sfs_io_steps i write offset endpos).Panics { sfs := sfs, alen := 0, buf := buf, data := [] }
      .loadIndex := by
  have hload : (onSfs (sfs_bmap_load_nolock i (offset / 4096))).Panics
      { sfs := sfs, alen := 0, buf := buf, data := [] } .loadIndex := by
    unfold Routine.Panics onSfs sfs_bmap_load_nolock
    rw [Routine.ends_within, Routine.ends_bind, ends_sfsInode hsin, Routine.ends_bind,
      Routine.ends_assert, if_neg (Nat.not_le.mpr hindex)]
  unfold sfs_io_steps
  by_cases hone : offset / 4096 = endpos / 4096
  · rw [if_pos hone]
    exact hload.bind _
  · rw [if_neg hone]
    by_cases hhead : offset % 4096 ≠ 0
    · rw [Routine.when, if_pos hhead]
      exact (hload.bind _).bind _
    · -- there is no head, and at least one full block
      obtain ⟨n, hn⟩ : ∃ n, endpos / 4096 - offset / 4096 = n + 1 :=
        ⟨endpos / 4096 - offset / 4096 - 1, by omega⟩
      rw [Routine.when, if_neg hhead, if_neg hhead]
      dsimp only
      rw [hn]
      exact Routine.Panics.bind (hload.bind _) _

/-- A transfer that begins behind the next block stops. -/
theorem io_nolock_index {write : Bool} {offset : Int} {buf : List UInt8}
    (hsin : sfs.inodes i = some sin) (htype : sin.din.type ≠ SFS_TYPE_DIR)
    (hgoes : IoGoes sin.din.size write offset buf.length)
    (hindex : sin.din.blocks < offset.toNat / 4096) :
    sfs_io_nolock i buf offset write sfs = .error .loadIndex := by
  apply Routine.Panics.eq
  unfold Routine.Panics sfs_io_nolock
  have hbad := hgoes.1
  have hread : ¬ (write = false ∧ sin.din.size ≤ offset.toNat) :=
    fun h => absurd (hgoes.2.2 h.1) (Nat.not_lt.mpr h.2)
  unfold IoInvalid at hbad
  rw [Routine.ends_bind, ends_sfsInode hsin, Routine.ends_bind, Routine.ends_assert,
    if_pos htype, Routine.ends_ite, if_neg hbad, Routine.ends_ite, if_neg hgoes.2.1,
    Routine.ends_ite, if_neg hread]
  unfold sfs_io_transfer
  rw [Routine.ends_bind, Routine.ends_withLocals]
  apply (panics_io_steps buf hsin hgoes.lt hindex).mono
  · exact fun _ _ h => h.elim
  · exact fun _ _ h => h.elim
  · exact fun _ h => h

/-- The bytes from `offset` to `endpos` can be written. They begin in a block of the file or
with the next one; or they begin within the next one, which then must be had. They end within the
block map, or the volume is full before the end of the block map is reached. -/
def Writes (sfs : Sfs) (i offset endpos : Nat) : Prop :=
  (offset ≤ 4096 * (view sfs i).din.blocks ∨
      offset / 4096 = (view sfs i).din.blocks ∧ ¬ NoBlock sfs i) ∧
    (endpos ≤ 1036 * 4096 ∨ sfs.super.unused_blocks < needed (view sfs i) 1036)

/-- A transfer of a file that accounts for its blocks. -/
theorem Transferred.size {write : Bool} {offset endpos : Nat} {buf : List UInt8} {r : IoResult}
    (h : Transferred I i write offset endpos buf sfs r sfs') :
    (view sfs' i).din.size = max (view sfs i).din.size (offset + r.alen) := by
  rw [h.din]

/-- Where the blocks that have been mapped are too many, there were not enough free ones. -/
theorem Transferred.had_block {write : Bool} {offset endpos : Nat} {buf : List UInt8}
    {r : IoResult} (h : Transferred I i write offset endpos buf sfs r sfs')
    (hlt : (view sfs i).din.blocks < (view sfs' i).din.blocks) : ¬ NoBlock sfs i :=
  fun hnone => hnone.not_fits hlt h.fits

/-- A write that has returned was one that could be made. -/
theorem Transferred.writes {offset endpos : Nat} {buf : List UInt8} {r : IoResult}
    (h : Transferred I i true offset endpos buf sfs r sfs') (hacc : Accounted I i sfs)
    (hacc' : Accounted I i sfs') (hlt : offset < endpos)
    (hindex : offset / 4096 ≤ (view sfs i).din.blocks) : Writes sfs i offset endpos := by
  have hsize := h.size
  have hblocks := h.blocks
  have hacc₁ := hacc.blocks
  have hacc₂ := hacc'.blocks
  have hle := h.mapped.blocks_le
  constructor
  · by_cases hin : offset ≤ 4096 * (view sfs i).din.blocks
    · exact Or.inl hin
    · refine Or.inr ⟨by omega, h.had_block ?_⟩
      -- one byte at least has been moved, as the size is `offset` otherwise
      by_cases hzero : r.alen = 0
      · rw [if_pos hzero] at hblocks
        omega
      · rw [if_neg hzero] at hblocks
        omega
  · by_contra hnot
    rw [not_or, Nat.not_le, Nat.not_lt] at hnot
    rcases h.ret with ⟨-, hend⟩ | ⟨-, -, -, -, hbelow, hlack⟩
    · rw [if_neg (by omega)] at hblocks
      omega
    · have hmono := needed_mono (v := view sfs i) (m := (offset + r.alen) / 4096 + 1)
        (Nat.succ_le_of_lt hbelow)
      omega

/-- Behind a write that can be made the file accounts for its blocks. -/
theorem Transferred.accounted {offset endpos : Nat} {buf : List UInt8} {r : IoResult}
    (h : Transferred I i true offset endpos buf sfs r sfs') (hacc : Accounted I i sfs)
    (hlt : offset < endpos) (hwrites : Writes sfs i offset endpos) : Accounted I i sfs' := by
  refine ⟨h.core, h.mapped, ?_⟩
  have hsize := h.size
  have hblocks := h.blocks
  have hacc₁ := hacc.blocks
  rcases h.ret with ⟨-, hend⟩ | ⟨-, -, hcut, hlast, hbelow, hlack⟩
  · rw [if_neg (by omega)] at hblocks
    omega
  · by_cases hzero : r.alen = 0
    · rw [if_pos hzero] at hblocks
      -- the first block could not be had, so that the bytes begin with it
      simp only [hzero, Nat.add_zero] at hlast hbelow hlack hsize
      have hnone : NoBlock sfs i := by
        rw [← hlast, hblocks] at hbelow hlack
        exact ⟨hbelow, hlack⟩
      rcases hwrites.1 with hin | ⟨-, hnot⟩
      · omega
      · exact absurd hnone hnot
    · rw [if_neg hzero] at hblocks
      obtain ⟨c, hc⟩ := hcut.resolve_left hzero
      omega

/-- A read always leaves the file as it is. A write accounts for the blocks when it ends before
the end of the block map, or the volume is full before. -/
theorem io_nolock_accounts (h : Accounted I i sfs) (hi : i ∈ I) (hsin : sfs.inodes i = some sin)
    (htype : sin.din.type ≠ SFS_TYPE_DIR) (buf : List UInt8) (offset : Int) (write : Bool) :
    Accounts I i (sfs_io_nolock i buf offset write) sfs ↔
      (write = true → IoGoes sin.din.size true offset buf.length →
        Writes sfs i offset.toNat (ioEnd sin.din.size true offset buf.length)) := by
  have hdin : (view sfs i).din = sin.din := by rw [view_eq hsin]
  have htype' : (view sfs i).din.type ≠ SFS_TYPE_DIR := by rwa [hdin]
  have hacc := h.blocks
  have hle := h.mapped.blocks_le
  constructor
  -- A write that goes well has found its blocks: its index was in range, and its range had free
  -- blocks.
  · rintro hcall rfl hgoes
    have hindex : ¬ sin.din.blocks < offset.toNat / 4096 := by
      intro hlt
      obtain ⟨r, sfs', hrun, -⟩ := hcall
      rw [io_nolock_index hsin htype hgoes hlt] at hrun
      cases hrun
    rw [← hdin] at hgoes hindex ⊢
    obtain ⟨sfs', hacc', hends⟩ := hcall.cases
      (ends_io_nolock (H := fun _ => True) h.core hi hsin h.mapped htype' (fun _ _ => trivial)
        fun _ _ _ => trivial)
    rcases hends with ⟨r, ⟨hstay, -⟩ | ⟨-, htrans⟩⟩ | ⟨-, hno⟩
    · exact absurd hgoes hstay
    · exact htrans.writes h hacc' hgoes.lt (Nat.le_of_not_lt hindex)
    · exact hno.elim
  -- The other way round, a read changes nothing, and a write under the condition keeps the count.
  · intro hcond
    rw [← hdin] at hcond
    apply Accounts.of_ends
    apply (ends_io_nolock (H := fun _ => False) h.core hi hsin h.mapped htype' ?_ ?_).mono
    · rintro r sfs' (⟨-, rfl, -⟩ | ⟨hgoes, htrans⟩)
      · exact h
      · cases write with
        | true => exact htrans.accounted h hgoes.lt (hcond rfl hgoes)
        | false =>
            have hsame : ioEnd (view sfs i).din.size false offset buf.length ≤
                (view sfs i).din.size := by
              unfold ioEnd
              rw [if_pos rfl]
              exact min_le_right _ _
            rw [htrans.quiet rfl hsame (by omega)]
            exact h
    · exact fun _ _ hno => hno.elim
    · exact fun _ hno => hno
    · intro hgoes hlt
      cases write with
      | true => rcases (hcond rfl hgoes).1 with hin | ⟨hin, -⟩ <;> omega
      | false =>
          have hin := hgoes.2.2 rfl
          omega
    · intro hgoes hfar hfits
      cases write with
      | true => rcases (hcond rfl hgoes).2 with hnear | hlack <;> omega
      | false =>
          have hsame : ioEnd (view sfs i).din.size false offset buf.length ≤
              (view sfs i).din.size := by
            unfold ioEnd
            rw [if_pos rfl]
            exact min_le_right _ _
          omega

/-- **When a request passes the limit on the size and stops at the block map.** Take a regular
file that accounts for its blocks. A write returns and leaves it so if and only if it begins
where it can and ends within the block map, or the volume is full before. A truncation or a seek
does if and only if all the blocks are there or can be had, or not one more can be had. -/
theorem sfs_limits (h : Accounted I i sfs) (hi : i ∈ I) (hsin : sfs.inodes i = some sin)
    (huse : InUse sin) :
    (∀ (buf : List UInt8) (offset : Int) (write : Bool),
      Accounts I i (sfs_io_nolock i buf offset write) sfs ↔
        (write = true → IoGoes sin.din.size true offset buf.length →
          Writes sfs i offset.toNat (ioEnd sin.din.size true offset buf.length))) ∧
    (∀ len : Int, Accounts I i (sfs_truncfile i len) sfs ↔
      len < 0 ∨ (SFS_MAX_FILE_SIZE : Int) < len ∨ Fits sfs i ((len.toNat + 4095) / 4096) ∨
        NoBlock sfs i) ∧
    ∀ pos : Int, Accounts I i (sfs_tryseek i pos) sfs ↔
      pos < 0 ∨ (SFS_MAX_FILE_SIZE : Int) ≤ pos ∨ Fits sfs i ((pos.toNat + 4095) / 4096) ∨
        NoBlock sfs i := by
  have htype : sin.din.type ≠ SFS_TYPE_DIR := by
    rw [huse.1]
    decide
  exact ⟨io_nolock_accounts h hi hsin htype, truncfile_accounts h hi hsin,
    tryseek_accounts h hi hsin huse⟩

/-! ### A request that stops -/

/-- With free blocks for the whole block map, an enlargement to more blocks stops. -/
theorem truncfile_range {len : Int} (h : Accounted I i sfs) (hi : i ∈ I)
    (hsin : sfs.inodes i = some sin) (hmax : len ≤ (SFS_MAX_FILE_SIZE : Int))
    (hfar : 1036 * 4096 < len) (hfits : needed (view sfs i) 1036 ≤ sfs.super.unused_blocks) :
    sfs_truncfile i len sfs = .error .bmapRange := by
  have hblocks := h.blocks
  have hle := h.mapped.blocks_le
  apply Routine.Panics.eq
  apply (ends_truncfile (H := fun halt => halt = .bmapRange) h.core hi hsin h.mapped ?_ ?_).mono
  · rintro _ sfs' ⟨-, -, ⟨hsize, -, -⟩ | ⟨-, hresized⟩⟩
    · omega
    · have hle' := hresized.mapped.blocks_le
      rw [hresized.blocks] at hle'
      omega
  · rintro e sfs' (⟨-, -, hbad⟩ | ⟨-, -, -, hstuck⟩)
    · omega
    · have hneed := hstuck.grown.need 1036 (le_of_lt hstuck.below)
      have hmono := needed_mono (v := view sfs' i)
        (m := (view sfs' i).din.blocks + 1) (Nat.succ_le_of_lt hstuck.below)
      have hlack := hstuck.unused
      omega
  · exact fun _ heq => heq
  · intro hsize
    omega
  · exact fun _ _ _ => rfl

/-- No more blocks are needed than there are indices, and one for the indirect block. -/
theorem needed_le (v : FileView) (n : Nat) : needed v n ≤ n + 1 := by
  have hcard : ((Finset.Ico v.din.blocks n).filter fun k => v.entry k = 0).card ≤ n := by
    apply le_trans (Finset.card_filter_le _ _)
    rw [Nat.card_Ico]
    exact Nat.sub_le _ _
  unfold needed
  split_ifs <;> omega

/-- The volume `oneFile` with more blocks: from the block 4 on, all of the 2048 are free. -/
def wideVolume : Sfs :=
  { oneFile with
    super := { oneFile.super with blocks := 2048, unused_blocks := 2044 }
    freemap :=
      { oneFile.freemap with
        map := fun ix =>
          if ix = 0 then 0xFFFFFFF0#32 else if ix < 64 then BitVec.allOnes 32 else 0#32 } }

/-- Which blocks of the volume are free. -/
theorem isFree_wideVolume (b : Nat) : wideVolume.freemap.isFree b = true ↔ 4 ≤ b ∧ b < 2048 := by
  show (if b / 32 = 0 then 0xFFFFFFF0#32 else if b / 32 < 64 then BitVec.allOnes 32
    else 0#32).getLsbD (b % 32) = true ↔ _
  by_cases hlow : b < 32
  · have hdiv : b / 32 = 0 := by omega
    have hmod : b % 32 = b := by omega
    rw [if_pos hdiv, hmod]
    interval_cases b <;> decide
  · rw [if_neg (by omega)]
    by_cases hin : b / 32 < 64
    · rw [if_pos hin, BitVec.getLsbD_allOnes, decide_eq_true (by omega)]
      simp
      omega
    · rw [if_neg hin]
      simp
      omega

/-- The blocks of the volume are where those of the small one are. -/
theorem slot_wideVolume : slot {3} wideVolume = slot {3} oneFile := by
  funext x
  cases x <;> rfl

/-- The empty file accounts for its blocks. -/
theorem accounted_wideVolume : Accounted {3} 3 wideVolume where
  core :=
    { pool :=
        { zero := rfl
          bound := fun b hb => ((isFree_wideVolume b).mp hb).2
          count := by
            have hset : (Finset.range 2048).filter (fun b => wideVolume.freemap.isFree b = true) =
                Finset.Ico 4 2048 := by
              ext b
              simp only [Finset.mem_filter, Finset.mem_range, isFree_wideVolume, Finset.mem_Ico]
              omega
            show 2044 = freeCount wideVolume.freemap.isFree 2048
            unfold freeCount
            rw [hset, Nat.card_Ico]
          bits := by decide +kernel
          words := rfl }
      owned :=
        { inj := by
            rw [slot_wideVolume]
            exact core_oneFile.owned.inj
          used := by
            intro x hx
            rw [slot_wideVolume] at hx ⊢
            rw [← Bool.not_eq_true, isFree_wideVolume]
            rcases slot_oneFile hx with ⟨-, h⟩ | ⟨-, h⟩ <;> omega }
      lt := by
        intro x hx
        rw [slot_wideVolume] at hx ⊢
        exact lt_trans (core_oneFile.lt x hx) (by decide)
      fits := by decide
      pos := core_oneFile.pos }
  mapped := fun k hk => absurd hk (Nat.not_lt_zero k)
  blocks := rfl

/-- The length of 1037 blocks is not too large, and the truncation of the empty file to it stops
at the end of the block map. -/
theorem sfs_truncfile_past_map : Accounted {3} 3 wideVolume ∧
    ((1037 * 4096 : Int) ≤ (SFS_MAX_FILE_SIZE : Int)) ∧
    sfs_truncfile 3 (1037 * 4096) wideVolume = .error .bmapRange :=
  ⟨accounted_wideVolume, by decide,
    truncfile_range accounted_wideVolume (Finset.mem_singleton_self 3) rfl (by decide) (by decide)
      (le_trans (needed_le _ _) (by decide))⟩

/-- Two bytes are written to the empty file, and its size is set to one block. -/
theorem sfs_limits_wideVolume : Accounts {3} 3 (sfs_io_nolock 3 [7, 8] 0 true) wideVolume ∧
    Accounts {3} 3 (sfs_truncfile 3 4096) wideVolume := by
  obtain ⟨hio, htrunc, -⟩ := sfs_limits accounted_wideVolume (Finset.mem_singleton_self 3) rfl
    ⟨rfl, by decide, by decide⟩
  constructor
  · apply (hio [7, 8] 0 true).mpr
    intro _ _
    exact ⟨Or.inl (Nat.zero_le _), Or.inl (by decide)⟩
  · apply (htrunc 4096).mpr
    exact Or.inr (Or.inr (Or.inl ⟨by decide, le_trans (needed_le _ _) (by decide)⟩))

end Ucore.Proofs.Fs
