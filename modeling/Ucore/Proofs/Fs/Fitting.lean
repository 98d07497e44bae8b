import Ucore.Proofs.Fs.Position

/-!
# `Ucore.Proofs.Fs.Fitting`: the blocks that the size of a file needs

A file fits when it has as many blocks as its size needs. Two calls leave a file that does not.

* A seek behind the end enlarges the file one block at a time and sets the size when all of them are
  there. When it runs out of blocks in the middle, the blocks that it has got stay with the file.
* A write at a position behind the end, within the next block of the file, finds no block for it.
  `sfs_io_nolock` still sets the size to the position.

A later `open` with `O_TRUNC` of a file of size zero with blocks stops at the assertion of
`sfs_truncfile` about the number of blocks.

`Midway` are these two, as conditions on the state in front of the call: which blocks the file has,
and how many are free. `Fitting` is what a run without them keeps of each regular file: the blocks
fit the size, no entry of the block map is left behind the last block, and an inode that is not to
be written has as many blocks on the disk. The last two are what makes the first one hold again when
the inode is dropped from memory and loaded.

## Main result

`size_fits_blocks`: in every state of a run without a call that is `Midway`, the blocks of each
regular file fit its size, and no call stops at the assertion. A truncation that fails for want of a
block has left the file as it was exactly when it has not got a single one.
-/

set_option autoImplicit false

namespace Ucore.Proofs.Fs

open Ucore.Lib Ucore.Fs Ucore.Proofs.Tools

variable {K : Type} {I : Finset Nat} {i : Nat} {k : K} {t t' t₀ : Files K} {v w : FileView}
  {sfs sfs' : Sfs}

/-! ### One file -/

/-- The blocks of a regular file are those that its size needs. -/
structure Fitting (v : FileView) : Prop where
  blocks : v.din.type = SFS_TYPE_FILE → v.din.blocks = (v.din.size + 4095) / 4096
  rest : v.din.type = SFS_TYPE_FILE → ∀ k, v.din.blocks ≤ k → v.entry k = 0
  disk : v.din.type = SFS_TYPE_FILE → v.dirty = false → v.disk.blocks = v.din.blocks

/-- Writing back and dropping keep what fits. -/
theorem Fitting.settled (h : Fitting v) (hok : FileOk I v) (hs : Settled v w) : Fitting w := by
  cases hs with
  | same => exact h
  | flushed _ => exact ⟨h.blocks, h.rest, fun _ _ => rfl⟩
  | dropped hd =>
      have hclean := hok.clean hd
      have hfile : v.disk.type = SFS_TYPE_FILE → v.din.type = SFS_TYPE_FILE := by
        intro ht
        rwa [hclean] at ht
      have hsize : v.disk.size = v.din.size := by rw [hclean]
      refine ⟨fun ht => ?_, fun ht => ?_, fun _ _ => rfl⟩
      · show v.disk.blocks = (v.disk.size + 4095) / 4096
        rw [hsize, h.disk (hfile ht) hd]
        exact h.blocks (hfile ht)
      · show ∀ k, v.disk.blocks ≤ k → v.entry k = 0
        rw [h.disk (hfile ht) hd]
        exact h.rest (hfile ht)

/-- A file fits behind a truncation. -/
theorem Fitting.resized {len : Nat} (h : Fitting (view sfs i))
    (htype : (view sfs i).din.type = SFS_TYPE_FILE) (hr : Resized I i len sfs sfs') :
    Fitting (view sfs' i) where
  blocks := fun _ => by rw [hr.blocks, hr.size]
  rest := by
    intro _ k hk
    rw [hr.blocks] at hk
    rw [hr.behind k hk]
    split_ifs with hlt
    · rfl
    · exact h.rest htype k (Nat.le_of_not_lt hlt)
  disk := fun _ hd => by
    rw [hr.dirty] at hd
    cases hd

/-- A file fits behind a transfer, unless a write within the next block has not got the block. -/
theorem Fitting.transferred {write : Bool} {offset endpos : Nat} {buf : List UInt8}
    {r : IoResult} (h : Fitting (view sfs i)) (htype : (view sfs i).din.type = SFS_TYPE_FILE)
    (hlt : offset < endpos) (ht : Transferred I i write offset endpos buf sfs r sfs')
    (hnext : NoBlock sfs i → offset / 4096 = (view sfs i).din.blocks → offset % 4096 = 0) :
    Fitting (view sfs' i) := by
  have hblocks := h.blocks htype
  have hsize := ht.size
  have hnew : (view sfs' i).din.blocks = ((view sfs' i).din.size + 4095) / 4096 := by
    have hb := ht.blocks
    by_cases hzero : r.alen = 0
    · rw [if_pos hzero] at hb
      rw [hzero, Nat.add_zero] at hsize
      rcases ht.ret with ⟨-, heq⟩ | ⟨-, -, -, hlast, hlow, hnone⟩
      · omega
      · -- nothing has been moved, so the block of the position is the next one, and there is none
        rw [hzero, Nat.add_zero] at hlast hlow hnone
        rw [hb] at hlast
        have hfull : NoBlock sfs i := ⟨by omega, by rw [hlast]; exact hnone⟩
        have haligned := hnext hfull hlast.symm
        have hmax : max (view sfs i).din.size offset = offset := by omega
        rw [hmax] at hsize
        omega
    · rw [if_neg hzero] at hb
      rcases max_cases (view sfs i).din.size (offset + r.alen) with ⟨hm, -⟩ | ⟨hm, -⟩ <;> omega
  have hfile : (view sfs' i).din.type = (view sfs i).din.type := by rw [ht.din]
  have hle : (view sfs i).din.blocks ≤ (view sfs' i).din.blocks := by omega
  refine ⟨fun _ => hnew, ?_, ?_⟩
  · intro _ k hk
    rw [ht.entry k hk]
    exact h.rest htype k (hle.trans hk)
  · intro _ hd
    have hclean : (view sfs i).dirty = false := by
      by_contra hdirty
      rw [ht.dirty ((Bool.not_eq_false _).mp hdirty)] at hd
      cases hd
    have hsame : (view sfs' i).din.size = (view sfs i).din.size := by rw [ht.clean hd]
    rw [ht.kept.disk, h.disk htype hclean, hnew, hsame]
    exact hblocks

/-- A file fits when a seek has not got a single block. -/
theorem Fitting.stuck {n : Nat} (h : Fitting (view sfs i)) (hcore : Core I sfs) (hi : i ∈ I)
    (hs : Stuck I i n sfs sfs') (hnone : NoBlock sfs i) : Fitting (view sfs' i) := by
  have hblocks : (view sfs' i).din.blocks = (view sfs i).din.blocks := by
    by_contra hne
    have hle := hs.grown.stretched.blocks
    exact hnone.not_fits (by omega) hs.grown.fits
  rw [(hs.idle hblocks).view_eq hcore hi]
  exact h

/-! ### Calls -/

/-- A seek behind the end of a regular file finds some of the blocks that it needs and not all. -/
def RunsOut (t : Files K) (file : File) (pos : Int) (whence : Whence) : Prop :=
  (view t.sfs file.node).din.type = SFS_TYPE_FILE ∧
    ∃ len, (seekTarget file (view t.sfs file.node).din.size pos whence).toNat = len ∧
      (view t.sfs file.node).din.size < len ∧ len < SFS_MAX_FILE_SIZE ∧
      ¬ NoBlock t.sfs file.node ∧
      t.sfs.super.unused_blocks < needed (view t.sfs file.node) (min ((len + 4095) / 4096) 1036)

/-- The call comes to a halt in the middle for want of free blocks: a seek behind the end that gets
some of the blocks that it needs and not all, or a write that begins behind the end, within the next
block of the file, and does not get this block. -/
def Midway (t : Files K) : Call K → Prop
  | .seek k pos whence => ∃ file, t.files k = some file ∧ RunsOut t file pos whence
  | .write k buf => ∃ file, t.files k = some file ∧
      (view t.sfs file.node).din.type = SFS_TYPE_FILE ∧
      IoGoes (view t.sfs file.node).din.size true file.pos buf.length ∧
      NoBlock t.sfs file.node ∧ file.pos.toNat / 4096 = (view t.sfs file.node).din.blocks ∧
      file.pos.toNat % 4096 ≠ 0
  | _ => False

/-- A call that does not come to a halt in the middle leaves files that fit. -/
theorem Fitting.effect {call : Call K} (h : Fitting (view t.sfs i)) (hok : FilesOk I t)
    (hi : i ∈ I) (hmid : ¬ Midway t call) (he : Effect I i t t' call) :
    Fitting (view t'.sfs i) := by
  cases he with
  | settled hs => exact h.settled (hok.file hi) hs
  | read hk hnode htype hgoes ht =>
      refine h.transferred htype hgoes.lt ht fun _ hlast => ?_
      -- a read begins in front of the end, so not behind the last block
      have hblocks := h.blocks htype
      have hbelow := hgoes.2.2 rfl
      omega
  | write hk _ hnode htype hgoes ht =>
      subst hnode
      refine h.transferred htype hgoes.lt ht fun hnone hlast => ?_
      by_contra hpart
      exact hmid ⟨_, hk, htype, hgoes, hnone, hlast, hpart⟩
  | cut hs htype hr => exact (h.settled (hok.file hi) hs).resized htype hr
  | enlarged hk hnode htype hlen hlt hmax hr => exact h.resized htype hr
  | stuck hk hnode htype hlen hlt hmax hs =>
      subst hnode
      refine h.stuck hok.counted.volume.core hi hs ?_
      by_contra hsome
      exact hmid ⟨_, hk, htype, _, hlen, hlt, hmax, hsome,
        hs.lt_needed_of_lt (lt_min hs.lt hs.below)⟩

/-- The files of a volume that has just been mounted fit. -/
theorem Fresh.fitting (h : Fresh I t) (hi : i ∈ I) : Fitting (view t.sfs i) :=
  ⟨h.blocks i hi, h.rest i hi, fun _ _ => by rw [h.disk i hi]⟩

section
variable [DecidableEq K]

/-- **The blocks fit the size.** Take any calls of any processes on a volume that has been mounted,
none of which comes to a halt in the middle. In each state, every regular file has the blocks that
its size needs, and whatever call comes next, the assertion of `sfs_truncfile` about them holds. A
truncation that fails for want of a block has then left the size, the blocks and the block map as
they were if and only if there was no block at all for it. -/
theorem size_fits_blocks (h : Fresh I t₀)
    (hrun : Reaches I (fun t call => ¬ Midway t call) t₀ t) :
    (∀ i ∈ I, (view t.sfs i).din.type = SFS_TYPE_FILE →
      (view t.sfs i).din.blocks = ((view t.sfs i).din.size + 4095) / 4096) ∧
    (∀ call, StartsIn I call → call.run t ≠ .error .truncBlocks) ∧
    ∀ i sin, t.sfs.inodes i = some sin → sin.din.type = SFS_TYPE_FILE →
      ∀ (len : Int) (sfs' : Sfs), sfs_truncfile i len t.sfs = .ok (.error .noMem, sfs') →
        ((view sfs' i).din.size = (view t.sfs i).din.size ∧
          (view sfs' i).din.blocks = (view t.sfs i).din.blocks ∧
          (view sfs' i).entry = (view t.sfs i).entry ↔ NoBlock t.sfs i) := by
  have hok := hrun.ok h.ok
  have hfits : ∀ i ∈ I, Fitting (view t.sfs i) :=
    hrun.keeps h.ok (fun i hi => h.fitting hi)
      fun hok hmid i hi he hfit => hfit.effect hok hi hmid he
  refine ⟨fun i hi => (hfits i hi).blocks, ?_, ?_⟩
  · intro call hstart hpanic
    have hcause := (hok.call call hstart).of_panic hpanic
    cases call with
    | «open» k path flags =>
        obtain ⟨-, i, hi, v, hs, htype, hsize, hblocks⟩ := hcause
        have hfit := ((hfits i hi).settled (hok.file hi) hs).blocks htype
        rw [hsize] at hfit
        exact hblocks hfit
    | _ => exact hcause.elim
  · intro i sin hsin htype len sfs' hrun'
    have hi := (hok.counted.volume.inode i sin hsin).mem
    have hcore := hok.counted.volume.core
    have hreg : (view t.sfs i).din.type = SFS_TYPE_FILE := by
      rw [view_eq hsin]
      exact htype
    have hends : (sfs_truncfile i len).Ends t.sfs _ _ fun _ => True :=
      ends_truncfile hcore hi hsin (hok.file hi).mapped (fun _ _ => trivial) fun _ _ _ => trivial
    rcases hends.of_error hrun' with ⟨hinval, -⟩ | ⟨-, -, -, hstuck⟩
    · cases hinval
    constructor
    · rintro ⟨-, hblocks, -⟩
      have hunused := hstuck.unused
      have hbelow := hstuck.below
      have hidle := hstuck.idle hblocks
      rw [hblocks] at hbelow
      rw [hidle.view_eq hcore hi, hidle.super] at hunused
      exact ⟨hbelow, hunused⟩
    · intro hnone
      have hblocks : (view sfs' i).din.blocks = (view t.sfs i).din.blocks := by
        by_contra hne
        have hle := hstuck.grown.stretched.blocks
        exact hnone.not_fits (by omega) hstuck.grown.fits
      rw [(hstuck.idle hblocks).view_eq hcore hi]
      exact ⟨rfl, rfl, rfl⟩

end

/-! ### Runs on an image -/

/-- A seek to a position that there are enough free blocks for does not stop in the middle. -/
theorem not_midway_seek {pos : Int} (node : Nat) (hk : (t.files k).map File.node = some node)
    (hfree : needed (view t.sfs node) (min ((pos.toNat + 4095) / 4096) 1036) ≤
      t.sfs.super.unused_blocks) : ¬ Midway t (.seek k pos .set) := by
  rintro ⟨file, hk', -, len, hlen, -, -, -, hlack⟩
  rw [hk', Option.map_some] at hk
  rw [← hlen, Option.some.inj hk] at hlack
  exact absurd hlack (Nat.not_lt.mpr hfree)

/-- A seek to the block 20 of an empty file finds 14 blocks and fails. The size stays, and so do the
blocks. The next `open` with `O_TRUNC` stops at the assertion. -/
theorem seek_keeps_blocks :
    ∃ t t' : Files Nat, (Call.open 0 (rootPath 97) 2).run twoFiles = .ok (.ok (), t) ∧
      (Call.seek 0 81920 .set).run t = .ok (.error .noMem, t') ∧
      ((view t.sfs 5).din.size, (view t.sfs 5).din.blocks) = (0, 0) ∧
      ((view t'.sfs 5).din.size, (view t'.sfs 5).din.blocks) = (0, 14) ∧
      (Call.open 1 (rootPath 97) 18).run t' = .error .truncBlocks := by
  obtain ⟨⟨r, t'⟩, hseek, hr⟩ := exists_of_map
    (x := (Call.seek 0 81920 .set).run ((Call.open 0 (rootPath 97) 2).run.behind twoFiles))
    (f := fun p => (p.1, ((view p.2.sfs 5).din.size, (view p.2.sfs 5).din.blocks),
      errorOf ((Call.open 1 (rootPath 97) 18).run p.2)))
    (b := (.error .noMem, (0, 14), some .truncBlocks)) (by decide +kernel)
  obtain ⟨rfl, hr⟩ := Prod.mk.inj hr
  obtain ⟨hafter, hpanic⟩ := Prod.mk.inj hr
  exact ⟨_, t', Routine.run_behind (by decide +kernel), hseek, by decide +kernel, hafter,
    eq_of_errorOf hpanic⟩

/-- A seek gets the two blocks that it needs, and an `open` with `O_TRUNC` gives them back. -/
theorem size_fits_blocks_twoFiles :
    ∃ I t, Reaches I (fun t call => ¬ Midway t call) twoFiles t ∧
      (t.files 0).map File.pos = some 8192 ∧ (t.files 1).map File.pos = some 0 ∧
      (∀ i ∈ I, (view t.sfs i).din.type = SFS_TYPE_FILE →
        (view t.sfs i).din.blocks = ((view t.sfs i).din.size + 4095) / 4096) ∧
      (∀ call, StartsIn I call → call.run t ≠ .error .truncBlocks) ∧
      ∀ i sin, t.sfs.inodes i = some sin → sin.din.type = SFS_TYPE_FILE →
        ∀ (len : Int) (sfs' : Sfs), sfs_truncfile i len t.sfs = .ok (.error .noMem, sfs') →
          ((view sfs' i).din.size = (view t.sfs i).din.size ∧
            (view sfs' i).din.blocks = (view t.sfs i).din.blocks ∧
            (view sfs' i).entry = (view t.sfs i).entry ↔ NoBlock t.sfs i) := by
  obtain ⟨I, es, -, hfresh, -⟩ := mounts_twoFiles
  have hopen : ∀ k flags, StartsIn I (.open k (rootPath 97) flags : Call Nat) :=
    fun _ _ => hfresh.ok.root
  have hstart : Reaches I (fun t call => ¬ Midway t call) twoFiles twoFiles := .start
  have hrun := hstart.call _ (hopen 0 2) id (by decide +kernel)
  have hrun' := hrun.call (.seek 0 8192 .set) trivial
    (not_midway_seek 5 (by decide +kernel) (by decide +kernel)) (by decide +kernel)
  have hrun'' := hrun'.call _ (hopen 1 18) id (by decide +kernel)
  exact ⟨I, _, hrun'', by decide +kernel, by decide +kernel, size_fits_blocks hfresh hrun''⟩

end Ucore.Proofs.Fs
