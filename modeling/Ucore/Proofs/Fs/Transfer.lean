import Ucore.Proofs.Fs.Limit

/-!
# `Ucore.Proofs.Fs.Transfer`: one transfer and its parts

A write in two parts does what one write of both does (`Transferred.trans`), and where a write
stops is settled by the file, the volume and the range (`Transferred.unique`). `ReadBy` says how
much a read returns of a file whose last block may be missing.

## Why a transfer is cut into parts

`sysfile_read` and `sysfile_write` move a buffer of 4096 bytes at a time. What a caller wants to
know is about the whole range. So the facts about one call of `sfs_io` come in a form that can be
put together: a part behind which another part follows, and a part that has ended early.

* `Transferred.trans`, `ReadSame.trans`: two parts in a row.
* `Transferred.extend`, `Transferred.le_of_noMem`: a part that has found no block ends the range,
  whatever comes behind.
* `Transferred.stops_iff`: whether a range stops a write (`WriteStops`) does not change when its
  first part has been written.

`WriteStops` is exact: a write of the range panics if and only if it holds. The range begins behind
the next block of the file, or it goes on behind the end of the block map and there are free blocks
enough to get there.

A read maps the last block of a file when it is missing, and is cut short when there is no free
block for it. `readEnd` is where it ends then, and `Transferred.readEnd_eq` says that the next part
sees the same end.
-/

set_option autoImplicit false

namespace Ucore.Proofs.Fs

open Ucore.Lib Ucore.Fs

variable {I : Finset Nat} {i offset endpos : Nat} {sfs sfs' sfs'' : Sfs} {sin : SfsInode}
  {as bs buf : List UInt8} {r r' : IoResult}

/-! ### Writes -/

/-- A transfer takes no block away. -/
theorem Transferred.blocks_le {write : Bool}
    (h : Transferred I i write offset endpos buf sfs r sfs') :
    (view sfs i).din.blocks ≤ (view sfs' i).din.blocks := by
  rw [h.blocks]
  split_ifs
  · exact le_refl _
  · exact le_max_left _ _

/-- The free blocks that a transfer has not used are there for the next one. -/
theorem Transferred.need_trans {write : Bool} {e : Nat}
    (h : Transferred I i write offset e as sfs r sfs')
    (h' : Transferred I i write (offset + as.length) endpos bs sfs' r' sfs'') {n : Nat}
    (hn : (view sfs'' i).din.blocks ≤ n) :
    needed (view sfs i) n + sfs''.super.unused_blocks =
      needed (view sfs'' i) n + sfs.super.unused_blocks := by
  have h₁ := h.need n (le_trans h'.blocks_le hn)
  have h₂ := h'.need n hn
  omega

/-- A write that ends where another begins. -/
theorem Transferred.trans {e : Nat} (h : Transferred I i true offset e as sfs r sfs')
    (halen : r.alen = as.length) (hpos : 0 < as.length)
    (h' : Transferred I i true (offset + as.length) endpos bs sfs' r' sfs'') :
    Transferred I i true offset endpos (as ++ bs) sfs
      { r' with alen := as.length + r'.alen } sfs'' := by
  have hblocks₁ := h.blocks
  have hblocks₂ := h'.blocks
  have hle := h'.blocks_le
  have hsize₁ := h.size
  have hsize₂ := h'.size
  rw [halen] at hsize₁
  rw [halen, if_neg (by omega)] at hblocks₁
  -- One goal for each field of `Transferred`. Sizes and numbers of blocks are maxima, and the end
  -- of the second part is behind that of the first.
  refine ⟨h'.core, h.kept.trans h'.kept, h'.mapped, ?_, ?_, ?_, ?_, ?_,
    fun n hn => h.need_trans h' hn, fun k hk => ?_, fun hd => h'.dirty (h.dirty hd), fun hlt => ?_,
    fun hd => ?_, fun hne => ?_, fun hw => Bool.noConfusion hw, ?_⟩
  · have hcontent := h.content
    rw [if_pos rfl, halen, List.take_length] at hcontent
    rw [h'.content, if_pos rfl, if_pos rfl, hcontent, List.take_length_add_append,
      Bytes.overlay_append]
  · rw [h'.data, if_pos rfl, if_pos rfl]
  · rw [← Nat.add_assoc]
    have hmax : max (view sfs i).din.size (offset + as.length + r'.alen) =
        (view sfs'' i).din.size := by
      rw [hsize₂, hsize₁]
      omega
    show _ = SfsDiskInode.mk (max (view sfs i).din.size (offset + as.length + r'.alen)) _ _ _ _ _
    rw [hmax, show (view sfs i).din.type = (view sfs'' i).din.type by rw [h'.din, h.din],
      show (view sfs i).din.nlinks = (view sfs'' i).din.nlinks by rw [h'.din, h.din]]
  · show _ = if as.length + r'.alen = 0 then (view sfs i).din.blocks
      else max (view sfs i).din.blocks ((offset + (as.length + r'.alen) + 4095) / 4096)
    rw [if_neg (by omega)]
    split_ifs at hblocks₂ <;> omega
  · have hneed := h.need_trans h' (le_refl _)
    rw [needed_of_le (le_refl _)] at hneed
    omega
  · rw [h'.entry k hk, h.entry k (le_trans hle hk)]
  · by_cases hgrow : (view sfs' i).din.size < offset + as.length + r'.alen
    · exact h'.marked hgrow
    · refine h'.dirty (h.marked ?_)
      rw [halen]
      change (view sfs i).din.size < offset + (as.length + r'.alen) at hlt
      omega
  · have hd' : (view sfs' i).dirty = false := by
      by_contra hdirty
      rw [h'.dirty (Bool.eq_true_of_not_eq_false hdirty)] at hd
      cases hd
    rw [h'.clean hd, h.clean hd']
  -- The file has more blocks than before: one of the two parts added them.
  · by_cases hsame : (view sfs' i).din.blocks = (view sfs i).din.blocks
    · by_cases hd : (view sfs' i).dirty = true
      · exact Or.inl (h'.dirty hd)
      · have hclean := h.clean (Bool.eq_false_of_not_eq_true hd)
        have hgrew := h'.grew (by rwa [hsame])
        rw [hsame, h.entry _ (le_of_eq hsame), hclean] at hgrew
        exact hgrew
    · rcases h.grew hsame with hd | hrest
      · exact Or.inl (h'.dirty hd)
      · exact Or.inr hrest
  · show r'.ret = .ok () ∧ offset + (as.length + r'.alen) = endpos ∨ r'.ret = .error .noMem ∧
      offset + (as.length + r'.alen) < endpos ∧
        (as.length + r'.alen = 0 ∨ 4096 ∣ offset + (as.length + r'.alen)) ∧
        (view sfs'' i).din.blocks = (offset + (as.length + r'.alen)) / 4096 ∧
        (offset + (as.length + r'.alen)) / 4096 < 1036 ∧
        sfs.super.unused_blocks <
          needed (view sfs i) ((offset + (as.length + r'.alen)) / 4096 + 1)
    rw [← Nat.add_assoc]
    rcases h'.ret with hdone | ⟨hret, hlt, hcut, hlast, hbelow, hlack⟩
    · exact Or.inl hdone
    · have hneed := h.need ((offset + as.length + r'.alen) / 4096 + 1) (by omega)
      refine Or.inr ⟨hret, hlt, ?_, hlast, hbelow, by omega⟩
      rcases hcut with hzero | hcut
      · -- the first block of the second part is missing, so the first part ends at a block
        rw [if_pos hzero] at hblocks₂
        omega
      · exact Or.inr hcut

/-- A write that has found no block is not behind one of the same range. -/
theorem Transferred.le_of_noMem (h : Transferred I i true offset endpos buf sfs r sfs')
    (h' : Transferred I i true offset endpos buf sfs r' sfs'') (hret : r.ret ≠ .ok ()) :
    r'.alen ≤ r.alen := by
  by_contra hlt
  have hblocks := h'.blocks
  have hfits := h'.fits
  rcases h.ret with ⟨hok, -⟩ | ⟨-, -, -, -, -, hlack⟩
  · exact hret hok
  · rw [if_neg (by omega)] at hblocks
    have hmono := needed_mono (v := view sfs i) (m := (offset + r.alen) / 4096 + 1)
      (n := (view sfs'' i).din.blocks) (by omega)
    omega

/-- Two writes of one range go equally far. -/
theorem Transferred.unique (h : Transferred I i true offset endpos buf sfs r sfs')
    (h' : Transferred I i true offset endpos buf sfs r' sfs'') :
    r.alen = r'.alen ∧ r.ret = r'.ret := by
  rcases h.ret with ⟨hret, hend⟩ | ⟨hret, hlt, -⟩ <;>
    rcases h'.ret with ⟨hret', hend'⟩ | ⟨hret', hlt', -⟩
  · exact ⟨by omega, by rw [hret, hret']⟩
  · have hle := h'.le_of_noMem h (by simp [hret'])
    omega
  · have hle := h.le_of_noMem h' (by simp [hret])
    omega
  · have hle := h.le_of_noMem h' (by simp [hret])
    have hle' := h'.le_of_noMem h (by simp [hret'])
    exact ⟨by omega, by rw [hret, hret']⟩

/-- A write that has found no block does not see what comes behind. -/
theorem Transferred.extend {e : Nat} (endpos : Nat) (bs : List UInt8)
    (h : Transferred I i true offset e as sfs r sfs') (hret : r.ret ≠ .ok ())
    (hlen : e ≤ offset + as.length) (hle : e ≤ endpos) :
    Transferred I i true offset endpos (as ++ bs) sfs r sfs' := by
  rcases h.ret with ⟨hok, -⟩ | ⟨hno, hlt, hrest⟩
  · exact absurd hok hret
  · refine { h with content := ?_, quiet := fun hw => Bool.noConfusion hw, ret := ?_ }
    · rw [List.take_append_of_le_length (by omega)]
      exact h.content
    · exact Or.inr ⟨hno, by omega, hrest⟩

/-- A write of the range panics: it begins behind the next block, or there are free blocks to the
end of the block map and the range goes on. -/
def WriteStops (sfs : Sfs) (i offset endpos : Nat) : Prop :=
  (view sfs i).din.blocks < offset / 4096 ∨
    1036 * 4096 < endpos ∧ needed (view sfs i) 1036 ≤ sfs.super.unused_blocks

/-- Whether a range stops a write does not change when the first part of it has been written. -/
theorem Transferred.stops_iff {e : Nat}
    (h : Transferred I i true offset e buf sfs r sfs') (hpos : 0 < r.alen)
    (hindex : offset / 4096 ≤ (view sfs i).din.blocks) :
    WriteStops sfs' i (offset + r.alen) endpos ↔ WriteStops sfs i offset endpos := by
  have hblocks := h.blocks
  have hneed := h.need 1036 h.mapped.blocks_le
  rw [if_neg (by omega)] at hblocks
  unfold WriteStops
  omega

/-- A write that has returned was not stopped by its range. -/
theorem Transferred.not_stops (h : Transferred I i true offset endpos buf sfs r sfs')
    (hlt : offset < endpos) (hindex : offset / 4096 ≤ (view sfs i).din.blocks) :
    ¬ WriteStops sfs i offset endpos := by
  have hblocks := h.blocks
  have hle := h.mapped.blocks_le
  rintro (hfar | ⟨hlong, hfits⟩)
  · omega
  · rcases h.ret with ⟨-, hend⟩ | ⟨-, -, -, -, hbelow, hlack⟩
    · rw [if_neg (by omega)] at hblocks
      omega
    · have hmono := needed_mono (v := view sfs i) (m := (offset + r.alen) / 4096 + 1)
        (Nat.succ_le_of_lt hbelow)
      omega

/-- What a write has moved lies within the block map. -/
theorem Transferred.bound {write : Bool}
    (h : Transferred I i write offset endpos buf sfs r sfs') (hpos : 0 < r.alen) :
    offset + r.alen ≤ 1036 * 4096 := by
  have hblocks := h.blocks
  have hle := h.mapped.blocks_le
  rw [if_neg (by omega)] at hblocks
  omega

/-! ### Regular files -/

/-- A regular file that is open. Its blocks are mapped, and it ends at or within the first block
that it does not have. -/
structure RegularFile (I : Finset Nat) (i : Nat) (sfs : Sfs) : Prop where
  core : Core I sfs
  mem : i ∈ I
  mapped : Mapped (view sfs i)
  reach : (view sfs i).din.size / 4096 ≤ (view sfs i).din.blocks
  bound : (view sfs i).din.size ≤ 1036 * 4096
  used : ∃ sin, sfs.inodes i = some sin ∧ InUse sin

/-- A regular file has its type. -/
theorem RegularFile.type (h : RegularFile I i sfs) :
    (view sfs i).din.type = SFS_TYPE_FILE := by
  obtain ⟨sin, hsin, huse⟩ := h.used
  rw [view_eq hsin]
  exact huse.1

/-- A regular file is no directory. -/
theorem RegularFile.not_dir (h : RegularFile I i sfs) :
    (view sfs i).din.type ≠ SFS_TYPE_DIR := by
  rw [h.type]
  decide

/-- A transfer leaves a regular file behind. -/
theorem Transferred.regular {write : Bool}
    (h : Transferred I i write offset endpos buf sfs r sfs') (hreg : RegularFile I i sfs)
    (hlt : offset < endpos) : RegularFile I i sfs' := by
  have hsize := h.size
  have hblocks := h.blocks
  have hle := h.blocks_le
  have hreach := hreg.reach
  have hbound := hreg.bound
  have hmax := h.mapped.blocks_le
  have hmoved : (offset + r.alen) / 4096 ≤ (view sfs' i).din.blocks ∧
      offset + r.alen ≤ 1036 * 4096 := by
    by_cases hzero : r.alen = 0
    · rcases h.ret with ⟨-, hend⟩ | ⟨-, -, -, hlast, hbelow, -⟩ <;> omega
    · rw [if_neg hzero] at hblocks
      omega
  refine ⟨h.core, hreg.mem, h.mapped, by omega, by omega, ?_⟩
  obtain ⟨sin, hsin, -, hopen, href⟩ := hreg.used
  obtain ⟨din, dirty, hsin'⟩ := h.kept.self sin hsin
  refine ⟨_, hsin', ?_, hopen, href⟩
  have htype : (view sfs' i).din.type = (view sfs i).din.type := by rw [h.din]
  rw [view_eq hsin', hreg.type] at htype
  exact htype

/-! ### Reads -/

instance : Decidable (NoBlock sfs i) := inferInstanceAs (Decidable (_ ∧ _))

/-- Where a read of the file ends at the latest. The block in which the file ends may be missing,
and then a read maps it, if there is a free block. -/
def readEnd (sfs : Sfs) (i : Nat) : Nat :=
  if (view sfs i).din.size ≤ 4096 * (view sfs i).din.blocks ∨ ¬ NoBlock sfs i then
    (view sfs i).din.size
  else 4096 * (view sfs i).din.blocks

/-- What a read does not change. -/
structure ReadSame (I : Finset Nat) (i : Nat) (sfs sfs' : Sfs) : Prop where
  regular : RegularFile I i sfs'
  kept : Kept I i sfs sfs'
  content : (view sfs' i).content = (view sfs i).content
  size : (view sfs' i).din.size = (view sfs i).din.size
  readEnd : readEnd sfs' i = readEnd sfs i

/-- A read of `len` bytes. -/
structure ReadBy (I : Finset Nat) (i offset len : Nat) (sfs : Sfs) (r : IoResult) (sfs' : Sfs) :
    Prop where
  same : ReadSame I i sfs sfs'
  alen : r.alen = min len (readEnd sfs i - offset)
  data : r.data = (view sfs i).content.slice offset r.alen
  none : r.alen = 0 → r.ret = if offset < (view sfs i).din.size then .error .noMem else .ok ()
  short : r.ret ≠ .ok () → readEnd sfs i ≤ offset + r.alen

/-- Nothing has been done. -/
theorem ReadSame.refl (h : RegularFile I i sfs) : ReadSame I i sfs sfs :=
  ⟨h, Kept.refl sfs, rfl, rfl, rfl⟩

/-- One read after another. -/
theorem ReadSame.trans (h : ReadSame I i sfs sfs') (h' : ReadSame I i sfs' sfs'') :
    ReadSame I i sfs sfs'' :=
  ⟨h'.regular, h.kept.trans h'.kept, h'.content.trans h.content, h'.size.trans h.size,
    h'.readEnd.trans h.readEnd⟩

/-- The bytes of all files are as before. -/
theorem ReadSame.fileBytes (h : ReadSame I i sfs sfs') (hreg : RegularFile I i sfs) {j : Nat}
    (hj : j ∈ I) : fileBytes sfs' j = fileBytes sfs j := by
  unfold Fs.fileBytes
  by_cases hji : j = i
  · subst hji
    rw [h.content, h.size]
  · rw [h.kept.view_eq hreg.core.pos hj hji]

/-- A read behind which the last block is there. -/
theorem readEnd_of_fits (h : (view sfs i).din.size ≤ 4096 * (view sfs i).din.blocks) :
    readEnd sfs i = (view sfs i).din.size :=
  if_pos (Or.inl h)

/-- A read that has come to the missing block, and there is none for it. -/
theorem readEnd_of_noBlock (h : 4096 * (view sfs i).din.blocks < (view sfs i).din.size)
    (hnone : NoBlock sfs i) : readEnd sfs i = 4096 * (view sfs i).din.blocks :=
  if_neg (not_or.mpr ⟨Nat.not_le.mpr h, not_not.mpr hnone⟩)

/-- While the next block can be had a file is read to its end. -/
theorem readEnd_of_block (h : ¬ NoBlock sfs i) : readEnd sfs i = (view sfs i).din.size :=
  if_pos (Or.inr h)

/-- Where reads end stays the same, also when the missing block has been mapped. -/
theorem Transferred.readEnd_eq (h : Transferred I i false offset endpos buf sfs r sfs')
    (hreg : RegularFile I i sfs) (hend : offset < endpos) (hle : endpos ≤ (view sfs i).din.size) :
    readEnd sfs' i = readEnd sfs i := by
  have hreach := hreg.reach
  have hblocks := h.blocks
  have hsize := h.size
  have hreg' := h.regular hreg hend
  have hreach' := hreg'.reach
  have hsame : (view sfs' i).din.size = (view sfs i).din.size := by
    rcases h.ret with ⟨-, hend⟩ | ⟨-, hlt', -⟩ <;> omega
  by_cases hgrew : (view sfs' i).din.blocks = (view sfs i).din.blocks
  · -- nothing has been mapped, and the free blocks are as many as before
    have hneed := h.need ((view sfs i).din.blocks + 1) (by omega)
    have hself := h.need (view sfs i).din.blocks (by omega)
    rw [needed_of_le (le_refl _), needed_of_le (by omega)] at hself
    have hno : NoBlock sfs' i ↔ NoBlock sfs i := by
      unfold NoBlock
      rw [hgrew]
      omega
    unfold readEnd
    simp only [hsame, hgrew, hno]
  · have hblock : ¬ NoBlock sfs i :=
      h.had_block (lt_of_le_of_ne h.blocks_le (Ne.symm hgrew))
    have hle' := h.blocks_le
    rw [readEnd_of_block hblock, readEnd_of_fits (by omega), hsame]

/-- A transfer of a read, to the end of the range or of the file. -/
theorem Transferred.readBy {len : Nat}
    (h : Transferred I i false offset (min (offset + len) (view sfs i).din.size) buf sfs r sfs')
    (hreg : RegularFile I i sfs) (hlt : offset < min (offset + len) (view sfs i).din.size) :
    ReadBy I i offset len sfs r sfs' := by
  have hreach := hreg.reach
  have hblocks := h.blocks
  have hsize := h.size
  have hcontent := h.content
  have hdata := h.data
  rw [if_neg Bool.false_ne_true] at hcontent hdata
  have hsame : ReadSame I i sfs sfs' := by
    refine ⟨h.regular hreg hlt, h.kept, hcontent, ?_, h.readEnd_eq hreg hlt (min_le_right _ _)⟩
    rcases h.ret with ⟨-, hend⟩ | ⟨-, hlt', -⟩ <;> omega
  rcases h.ret with ⟨hret, hend⟩ | ⟨hret, hstop, hcut, hlast, hbelow, hlack⟩
  · refine ⟨hsame, ?_, hdata, by omega, fun hno => absurd hret hno⟩
    rw [if_neg (by omega)] at hblocks
    by_cases hin : (view sfs i).din.size ≤ 4096 * (view sfs i).din.blocks
    · rw [readEnd_of_fits hin]
      omega
    · by_cases hnone : NoBlock sfs i
      · -- the range ends in front of the missing block
        have hfit : ¬ (view sfs i).din.blocks < (view sfs' i).din.blocks :=
          fun hmore => h.had_block hmore hnone
        rw [readEnd_of_noBlock (by omega) hnone]
        omega
      · rw [readEnd_of_block hnone]
        omega
  · -- the block that is missing is the one behind the last
    have hat : (offset + r.alen) / 4096 = (view sfs i).din.blocks := by
      have hle := h.blocks_le
      omega
    rw [hat] at hbelow hlack
    have hend : readEnd sfs i = 4096 * (view sfs i).din.blocks :=
      readEnd_of_noBlock (by omega) ⟨hbelow, hlack⟩
    refine ⟨hsame, ?_, hdata, fun _ => ?_, fun _ => ?_⟩
    · rw [hend]
      omega
    · rw [hret, if_pos (by omega)]
    · rw [hend]
      omega

/-! ### `sfs_io` -/

/-- A request whose range is invalid. -/
theorem sfs_io_invalid (hreg : RegularFile I i sfs) (buf : List UInt8) {offset : Int} (write : Bool)
    (hbad : IoInvalid offset buf.length) :
    sfs_io i buf offset write sfs =
      .ok (.ok { ret := .error .inval, alen := 0, data := [] }, sfs) := by
  obtain ⟨sin, hsin, huse⟩ := hreg.used
  have htype : sin.din.type ≠ SFS_TYPE_DIR := by
    rw [huse.1]
    decide
  have hends : (sfs_io i buf offset write).Ends sfs
      (fun r sfs' => r = { ret := .error .inval, alen := 0, data := [] } ∧ sfs' = sfs)
      (fun _ _ => False) fun _ => False := by
    unfold IoInvalid at hbad
    unfold sfs_io sfs_io_nolock
    rw [Routine.ends_bind, Routine.ends_bind, ends_sfsInode hsin, Routine.ends_bind,
      Routine.ends_assert, if_pos htype, Routine.ends_ite, if_pos hbad, Routine.ends_pure,
      Routine.ends_bind, Routine.ends_assert, if_pos (Nat.zero_le _)]
    exact ⟨rfl, rfl⟩
  obtain ⟨r, sfs', hrun, rfl, rfl⟩ := hends.exists_ok
  exact hrun

/-- A position in the file and an end that fits are valid. -/
theorem not_ioInvalid {len : Nat} (hmax : offset < SFS_MAX_FILE_SIZE)
    (hfit : offset + len < 2 ^ 63) : ¬ IoInvalid offset len := by
  have htoOff : toOff ((offset : Int) + len) = offset + len := toOff_eq (by omega) (by omega)
  unfold IoInvalid
  rw [htoOff]
  omega

/-- A range that does not fit an `off_t`. -/
theorem ioInvalid_of_far {len : Nat} (hmax : offset < SFS_MAX_FILE_SIZE) (hlen : len < 2 ^ 64)
    (hfar : 2 ^ 63 ≤ offset + len) : IoInvalid offset len := by
  have hconst : SFS_MAX_FILE_SIZE = 134217728 := rfl
  refine Or.inr (Or.inr ?_)
  unfold toOff
  rw [Int.bmod_def]
  split_ifs <;> omega

/-- Where a transfer ends: at the largest size, and a read at the end of the file. -/
theorem ioEnd_eq {size len : Nat} (write : Bool) (hfit : offset + len < 2 ^ 63) :
    ioEnd size write offset len =
      if write = false then min (min (offset + len) SFS_MAX_FILE_SIZE) size
      else min (offset + len) SFS_MAX_FILE_SIZE := by
  have htoOff : toOff ((offset : Int) + len) = offset + len := toOff_eq (by omega) (by omega)
  unfold ioEnd
  rw [htoOff]
  split_ifs <;> omega

/-- A transfer has something to do when its range is not empty. -/
theorem ioGoes_iff {size len : Nat} (write : Bool) (hmax : offset < SFS_MAX_FILE_SIZE)
    (hfit : offset + len < 2 ^ 63) :
    IoGoes size write offset len ↔ 0 < len ∧ (write = false → offset < size) := by
  have htoOff : toOff ((offset : Int) + len) = offset + len := toOff_eq (by omega) (by omega)
  have hvalid := not_ioInvalid hmax hfit
  unfold IoGoes
  rw [htoOff, Int.toNat_natCast]
  constructor
  · rintro ⟨-, hne, hread⟩
    exact ⟨by omega, hread⟩
  · rintro ⟨hpos, hread⟩
    exact ⟨hvalid, by omega, hread⟩

/-- `sfs_io` of a read always returns. -/
theorem ends_sfs_io_read (hreg : RegularFile I i sfs) (buf : List UInt8) (hpos : 0 < buf.length)
    (hmax : offset < SFS_MAX_FILE_SIZE) (hfit : offset + buf.length < 2 ^ 63) :
    (sfs_io i buf offset false).Ends sfs
      (fun r sfs' => ReadBy I i offset buf.length sfs r sfs') (fun _ _ => False)
      fun _ => False := by
  obtain ⟨sin, hsin, huse⟩ := hreg.used
  have hconst : SFS_MAX_FILE_SIZE = 134217728 := rfl
  have hbound := hreg.bound
  have hreach := hreg.reach
  have hle := hreg.mapped.blocks_le
  have hio : ioEnd (view sfs i).din.size false offset buf.length =
      min (offset + buf.length) (view sfs i).din.size := by
    rw [ioEnd_eq false hfit, if_pos rfl]
    omega
  have hgoes : IoGoes (view sfs i).din.size false offset buf.length ↔
      0 < buf.length ∧ (false = false → offset < (view sfs i).din.size) :=
    ioGoes_iff false hmax hfit
  have hend : readEnd sfs i ≤ (view sfs i).din.size := by
    unfold readEnd
    split_ifs with hcase
    · exact le_refl _
    · omega
  unfold sfs_io
  rw [Routine.ends_bind]
  apply (ends_io_nolock (H := fun _ => False) hreg.core hreg.mem hsin hreg.mapped hreg.not_dir
    ?_ ?_).mono
  · rintro r sfs' (⟨hstay, rfl, halen, hdata, hret⟩ | ⟨hgo, h⟩)
    · -- the file ends in front of the range
      have hbehind : (view sfs' i).din.size ≤ offset := by
        by_contra hlt
        exact hstay (hgoes.mpr ⟨hpos, fun _ => by omega⟩)
      rw [Routine.ends_bind, Routine.ends_assert, if_pos (by omega), Routine.ends_pure]
      refine ⟨ReadSame.refl hreg, by omega, by rw [hdata, halen]; rfl, fun _ => ?_, fun _ => ?_⟩
      · rw [if_neg (by omega)]
        exact hret.resolve_left (not_ioInvalid hmax hfit)
      · omega
    · rw [hio, Int.toNat_natCast] at h
      have hlt := (hgoes.mp hgo).2 rfl
      have hread := h.readBy hreg (by omega)
      have halen := hread.alen
      rw [Routine.ends_bind, Routine.ends_assert, if_pos (by omega), Routine.ends_pure]
      exact hread
  · exact fun _ _ hno => hno
  · exact fun _ hno => hno
  · intro hgo hlt
    have hin := (hgoes.mp hgo).2 rfl
    rw [Int.toNat_natCast] at hlt
    omega
  · intro hgo hfar
    omega

/-- `sfs_io` of a write returns, unless it stops. -/
theorem ends_sfs_io_write (hreg : RegularFile I i sfs) (buf : List UInt8) (hpos : 0 < buf.length)
    (hmax : offset < SFS_MAX_FILE_SIZE) (hfit : offset + buf.length < 2 ^ 63) :
    (sfs_io i buf offset true).Ends sfs
      (fun r sfs' => offset / 4096 ≤ (view sfs i).din.blocks ∧
        Transferred I i true offset (min (offset + buf.length) SFS_MAX_FILE_SIZE) buf sfs r sfs')
      (fun _ _ => False)
      fun _ => WriteStops sfs i offset (min (offset + buf.length) SFS_MAX_FILE_SIZE) := by
  obtain ⟨sin, hsin, huse⟩ := hreg.used
  have hio : ioEnd (view sfs i).din.size true offset buf.length =
      min (offset + buf.length) SFS_MAX_FILE_SIZE := by
    rw [ioEnd_eq true hfit, if_neg (by decide)]
  have hgoes : IoGoes (view sfs i).din.size true offset buf.length :=
    (ioGoes_iff true hmax hfit).mpr ⟨hpos, fun hw => Bool.noConfusion hw⟩
  unfold sfs_io
  rw [Routine.ends_bind]
  by_cases hindex : (view sfs i).din.blocks < offset / 4096
  · rw [view_eq hsin] at hindex hgoes
    have hpanic := io_nolock_index hsin (by rw [huse.1]; decide) hgoes
      (by rw [Int.toNat_natCast]; exact hindex)
    unfold Routine.Ends
    rw [hpanic]
    exact Or.inl (by rwa [view_eq hsin])
  apply (ends_io_nolock hreg.core hreg.mem hsin hreg.mapped hreg.not_dir ?_ ?_).mono
  · rintro r sfs' (⟨hstay, -⟩ | ⟨-, h⟩)
    · exact absurd hgoes hstay
    · rw [hio, Int.toNat_natCast] at h
      have halen : r.alen ≤ buf.length := by
        rcases h.ret with ⟨-, hend⟩ | ⟨-, hlt, -⟩ <;> omega
      rw [Routine.ends_bind, Routine.ends_assert, if_pos halen, Routine.ends_pure]
      exact ⟨Nat.le_of_not_lt hindex, h⟩
  · exact fun _ _ hno => hno
  · exact fun _ hno => hno
  · intro _ hlt
    rw [Int.toNat_natCast] at hlt
    exact Or.inl hlt
  · intro _ hfar hfits
    rw [hio] at hfar
    exact Or.inr ⟨hfar, hfits⟩

end Ucore.Proofs.Fs
