import Ucore.Proofs.Fs.Marked

/-!
# `Ucore.Proofs.Fs.Zeros`: the bytes that nobody has written

A block that is freed keeps its bytes, and another file gets it later. `sfs_block_alloc` clears it
then. Nothing else does: `sfs_truncfile` only sets the size when the file has the blocks already, and
`sfs_bmap_get_sub_nolock` takes a block that stands in the indirect block as it is.

So a file shows old bytes when its block map still has a block that the number of blocks does not
count, and the block has been written to. This comes about in two steps.

* The size reaches into the block behind the last one. A write that begins there and finds no block
  does this (`Midway`).
* Later there is a free block, and a write goes into this block and not over the size. The block is
  counted in memory, and the inode is not marked (`Silent`). When the file is closed, the count on
  the disk is the old one, and the block is in the block map.

`HidesBlock` is the second step, as a condition on the state in front of the write. `Cleared` is what
a run without it keeps of each file: the bytes behind the end are zero, and so are the bytes of the
blocks that are not counted when the inode is dropped (`lasting`).

`History` is a run with what has been written on the way: of each file, the positions that a write has
moved bytes to since the file was last truncated, or since the image was mounted.

## Main result

`unwritten_zero`: in every state of a run without such a write, the bytes behind the end of a file
are zero, a seek behind the end appends zeros, and a byte that has not been written is zero.
-/

set_option autoImplicit false

namespace Ucore.Proofs.Fs

open Ucore.Lib Ucore.Fs Ucore.Proofs.Tools

variable {K : Type} {I : Finset Nat} {i : Nat} {k : K} {t t' t₀ : Files K} {v w : FileView}
  {sfs sfs' : Sfs}

/-! ### One file -/

/-- The number of blocks that are counted when the inode is dropped from memory. -/
def lasting (v : FileView) : Nat := if v.dirty = true then v.din.blocks else v.disk.blocks

/-- The bytes behind the end are zero, and so are the blocks that may be forgotten. -/
structure Cleared (v : FileView) : Prop where
  tail : v.din.type = SFS_TYPE_FILE → ∀ pos, v.din.size ≤ pos → v.content pos = 0
  rest : v.din.type = SFS_TYPE_FILE → ∀ pos, lasting v ≤ pos / 4096 → v.content pos = 0

/-- No block is counted on the disk that is not counted in memory. -/
theorem lasting_le (hok : FileOk I v) : lasting v ≤ v.din.blocks := by
  unfold lasting
  split_ifs with hd
  · exact le_refl _
  · exact hok.cleanBlocks ((Bool.not_eq_true _).mp hd)

/-- A file that is enlarged does not lose the count of a block. -/
theorem Enlarged.lasting_le (h : Enlarged v w) (hok : FileOk I v) : lasting v ≤ lasting w := by
  by_cases hd : w.dirty = true
  · have hw : lasting w = w.din.blocks := if_pos hd
    rw [hw]
    exact (Fs.lasting_le hok).trans h.blocks
  · have hv : v.dirty ≠ true := fun hv => hd (h.dirty hv)
    unfold lasting
    rw [if_neg hd, if_neg hv, h.disk]

/-- Writing back and dropping keep a file cleared. -/
theorem Cleared.settled (h : Cleared v) (hok : FileOk I v) (hs : Settled v w) : Cleared w := by
  have hdin := hs.din hok
  have hlasting : lasting w = lasting v := by
    cases hs with
    | same => rfl
    | flushed hd => exact (if_neg (by simp [FileView.flushed])).trans (if_pos hd).symm
    | dropped hd =>
        have hno : ¬ v.dirty = true := by simp [hd]
        exact (if_neg hno).trans (if_neg hno).symm
  constructor
  · rw [hdin, hs.content]
    exact h.tail
  · rw [hdin, hs.content, hlasting]
    exact h.rest

/-- A truncation keeps a file cleared. -/
theorem Cleared.resized {len : Nat} (h : Cleared (view sfs i)) (hok : FileOk I (view sfs i))
    (htype : (view sfs i).din.type = SFS_TYPE_FILE)
    (hlen : len = 0 ∨ (view sfs i).din.size ≤ len) (hr : Resized I i len sfs sfs') :
    Cleared (view sfs' i) := by
  have hrest : ∀ pos, (len + 4095) / 4096 ≤ pos / 4096 → (view sfs' i).content pos = 0 := by
    intro pos hpos
    rw [hr.content]
    split_ifs with hcut
    · rfl
    · exact h.rest htype pos ((lasting_le hok).trans (by omega))
  refine ⟨fun _ pos hpos => ?_, fun _ pos hpos => ?_⟩
  · rw [hr.size] at hpos
    rcases hlen with rfl | hlen
    · exact hrest pos (Nat.zero_le _)
    · rw [hr.content]
      split_ifs with hcut
      · rfl
      · exact h.tail htype pos (hlen.trans hpos)
  · have hlasting : lasting (view sfs' i) = (len + 4095) / 4096 := (if_pos hr.dirty).trans hr.blocks
    rw [hlasting] at hpos
    exact hrest pos hpos

/-- A file that is enlarged, with the bytes that it had, is still cleared. -/
theorem Cleared.enlarged (h : Cleared v) (hok : FileOk I v) (he : Enlarged v w)
    (hsize : v.din.size ≤ w.din.size) (hcontent : w.content = v.content) : Cleared w where
  tail := by
    rw [he.type, hcontent]
    exact fun htype pos hpos => h.tail htype pos (hsize.trans hpos)
  rest := by
    rw [he.type, hcontent]
    exact fun htype pos hpos => h.rest htype pos ((he.lasting_le hok).trans hpos)

/-! ### Calls -/

/-- A write goes into the block behind those that are counted on the disk and not over the end, and
does not mark the file. -/
def HidesBlock (t : Files K) (file : File) (len : Nat) : Prop :=
  (view t.sfs file.node).din.type = SFS_TYPE_FILE ∧ (view t.sfs file.node).dirty = false ∧
    12 ≤ (view t.sfs file.node).disk.blocks ∧ (view t.sfs file.node).din.indirect ≠ 0 ∧
    ((view t.sfs file.node).din.blocks = (view t.sfs file.node).disk.blocks →
      ¬ NoBlock t.sfs file.node) ∧
    IoGoes (view t.sfs file.node).din.size true file.pos len ∧
    4096 * (view t.sfs file.node).disk.blocks <
      ioEnd (view t.sfs file.node).din.size true file.pos len ∧
    ioEnd (view t.sfs file.node).din.size true file.pos len ≤ (view t.sfs file.node).din.size

/-- The call is such a write. -/
def Hides (t : Files K) : Call K → Prop
  | .write k buf => ∃ file, t.files k = some file ∧ HidesBlock t file buf.length
  | _ => False

/-- A write that leaves the file unmarked, and does not hide a block, stays within the blocks that
are counted on the disk. -/
theorem Transferred.le_of_clean {file : File} {buf : List UInt8} {r : IoResult}
    (hok : FileOk I (view t.sfs file.node))
    (htype : (view t.sfs file.node).din.type = SFS_TYPE_FILE)
    (hgoes : IoGoes (view t.sfs file.node).din.size true file.pos buf.length)
    (ht : Transferred I file.node true file.pos.toNat
      (ioEnd (view t.sfs file.node).din.size true file.pos buf.length) buf t.sfs r sfs')
    (hnot : ¬ HidesBlock t file buf.length) (hclean : (view sfs' file.node).dirty = false)
    (hmoved : r.alen ≠ 0) :
    file.pos.toNat + r.alen ≤ 4096 * (view t.sfs file.node).disk.blocks := by
  by_contra hgt
  have hdirty : (view t.sfs file.node).dirty = false := by
    by_contra hd
    rw [ht.dirty ((Bool.not_eq_false _).mp hd)] at hclean
    cases hclean
  have hreach := hok.reachDisk htype hdirty
  have hle : file.pos.toNat + r.alen ≤ (view t.sfs file.node).din.size := by
    by_contra hover
    rw [ht.marked (by omega)] at hclean
    cases hclean
  have hblocks := ht.blocks
  rw [if_neg hmoved] at hblocks
  -- The blocks are counted in memory only, whether the write has got the last one or found it.
  have hhidden : 12 ≤ (view t.sfs file.node).disk.blocks ∧
      (view t.sfs file.node).din.indirect ≠ 0 := by
    by_cases heq : (view t.sfs file.node).disk.blocks = (view t.sfs file.node).din.blocks
    · rcases ht.grew (by omega) with hmarked | hentry | ⟨hfar, hind⟩
      · rw [hclean] at hmarked
        cases hmarked
      · have hfar : 12 ≤ (view t.sfs file.node).din.blocks := by
          by_contra hnear
          exact hentry (hok.direct _ (le_refl _) (by omega))
        refine ⟨heq ▸ hfar, fun hind => hentry ?_⟩
        exact entryAt_no_indirect hfar hind
      · exact ⟨heq ▸ hfar, hind⟩
    · exact hok.cleanLow hdirty heq
  rcases ht.ret with ⟨-, hend⟩ | ⟨-, -, hzero | hdvd, -⟩
  · exact hnot ⟨htype, hdirty, hhidden.1, hhidden.2, fun heq => ht.had_block (by omega), hgoes,
      by omega, by omega⟩
  · exact hmoved hzero
  · omega

/-- A write that does not hide a block keeps a file cleared. -/
theorem Cleared.written {file : File} {buf : List UInt8} {r : IoResult}
    (h : Cleared (view t.sfs file.node)) (hok : FileOk I (view t.sfs file.node))
    (htype : (view t.sfs file.node).din.type = SFS_TYPE_FILE)
    (hgoes : IoGoes (view t.sfs file.node).din.size true file.pos buf.length)
    (ht : Transferred I file.node true file.pos.toNat
      (ioEnd (view t.sfs file.node).din.size true file.pos buf.length) buf t.sfs r sfs')
    (hnot : ¬ HidesBlock t file buf.length) : Cleared (view sfs' file.node) := by
  have hsize := ht.size
  have hlen : (buf.take r.alen).length ≤ r.alen := by
    rw [List.length_take]
    exact min_le_left _ _
  have hbehind : ∀ pos, file.pos.toNat + r.alen ≤ pos →
      (view sfs' file.node).content pos = (view t.sfs file.node).content pos := by
    intro pos hpos
    rw [ht.content, if_pos rfl]
    exact Bytes.overlay_of_outside (Or.inr (by omega))
  refine ⟨fun _ pos hpos => ?_, fun _ pos hpos => ?_⟩
  · rw [hbehind pos (by omega)]
    exact h.tail htype pos (by omega)
  · have hold := h.rest htype pos ((ht.enlarged.lasting_le hok).trans hpos)
    by_cases hzero : r.alen = 0
    · rw [ht.content, if_pos rfl, hzero, List.take_zero, Bytes.overlay_nil]
      exact hold
    · refine (hbehind pos ?_).trans hold
      by_cases hclean : (view sfs' file.node).dirty = true
      · have hlasting : lasting (view sfs' file.node) = (view sfs' file.node).din.blocks :=
          if_pos hclean
        have hblocks := ht.blocks
        rw [if_neg hzero] at hblocks
        rw [hlasting] at hpos
        omega
      · have hlasting : lasting (view sfs' file.node) = (view t.sfs file.node).disk.blocks :=
          (if_neg hclean).trans (by rw [ht.kept.disk])
        rw [hlasting] at hpos
        have hle := ht.le_of_clean hok htype hgoes hnot ((Bool.not_eq_true _).mp hclean) hzero
        omega

/-- A call that does not hide a block keeps the files cleared. -/
theorem Cleared.effect {call : Call K} (h : Cleared (view t.sfs i)) (hok : FilesOk I t)
    (hi : i ∈ I) (hnot : ¬ Hides t call) (he : Effect I i t t' call) :
    Cleared (view t'.sfs i) := by
  have hfile := hok.file hi
  cases he with
  | settled hs => exact h.settled hfile hs
  | read hk hnode htype hgoes ht =>
      refine h.enlarged hfile ht.enlarged ?_ ?_
      · rw [ht.size]
        exact le_max_left _ _
      · rw [ht.content, if_neg (by simp)]
  | write hk _ hnode htype hgoes ht =>
      subst hnode
      exact h.written hfile htype hgoes ht fun hhides => hnot ⟨_, hk, hhides⟩
  | cut hs htype hr => exact (h.settled hfile hs).resized (hs.ok hfile) htype (Or.inl rfl) hr
  | enlarged hk hnode htype hlen hlt hmax hr => exact h.resized hfile htype (Or.inr hlt.le) hr
  | stuck hk hnode htype hlen hlt hmax hs =>
      refine h.enlarged hfile hs.grown.stretched.enlarged (le_of_eq ?_) hs.content
      rw [hs.grown.stretched.din]

/-- The files of a volume that has just been mounted are cleared. -/
theorem Fresh.cleared (h : Fresh I t) (hi : i ∈ I) : Cleared (view t.sfs i) where
  tail := h.zero i hi
  rest := by
    intro htype pos hpos
    have hlasting : lasting (view t.sfs i) = (view t.sfs i).din.blocks := by
      unfold lasting
      rw [h.disk i hi, ite_self]
    rw [hlasting] at hpos
    exact if_pos (h.rest i hi htype _ hpos)

/-! ### What has been written -/

/-- The call has moved a byte to the position of the file. -/
def Moves (t t' : Files K) (call : Call K) (i pos : Nat) : Prop :=
  ∃ k buf file file', call = .write k buf ∧ t.files k = some file ∧ t'.files k = some file' ∧
    file.node = i ∧ file.pos ≤ pos ∧ pos < file'.pos

/-- The call has returned, and it was an `open` that truncates the file. -/
def Empties (t' : Files K) (call : Call K) (r : Except Errno Unit) (i : Nat) : Prop :=
  r = .ok () ∧ ∃ k path flags, call = .open k path flags ∧ Truncates flags ∧
    (t'.files k).map File.node = some i

/-- The positions that have been written since the last truncation, behind a call. -/
def writtenBy (t t' : Files K) (call : Call K) (r : Except Errno Unit) (written : Nat → Nat → Prop)
    (i pos : Nat) : Prop :=
  ¬ Empties t' call r i ∧ (written i pos ∨ Moves t t' call i pos)

section
variable [DecidableEq K]

/-- A run, with the positions of each file that have been written since the file was last truncated.
What the image has in a file counts as written. -/
inductive History (I : Finset Nat) (cond : Files K → Call K → Prop) (t₀ : Files K) :
    Files K → (Nat → Nat → Prop) → Prop
  | start : History I cond t₀ t₀ fun i pos => pos < (view t₀.sfs i).din.size
  | step {t t' : Files K} {call : Call K} {r : Except Errno Unit} {written : Nat → Nat → Prop} :
      History I cond t₀ t written → StartsIn I call → cond t call → call.run t = .ok (r, t') →
      History I cond t₀ t' (writtenBy t t' call r written)

variable {cond : Files K → Call K → Prop} {written : Nat → Nat → Prop}

/-- A call that returns leads on. -/
theorem History.call (h : History I cond t₀ t written) (call : Call K) (hstart : StartsIn I call)
    (hcond : cond t call) (hret : (call.run t).toOption.map Prod.fst = some (.ok ())) :
    History I cond t₀ (call.run.behind t)
      (writtenBy t (call.run.behind t) call (.ok ()) written) :=
  .step h hstart hcond (Routine.run_behind hret)

/-- The states of such a run are those that are reached. -/
theorem History.reaches (h : History I cond t₀ t written) : Reaches I cond t₀ t := by
  induction h with
  | start => exact .start
  | step _ hstart hcond hcall ih => exact .step ih hstart hcond hcall

end

/-- A file stays a file. -/
theorem Effect.type {call : Call K} (he : Effect I i t t' call) (hok : FileOk I (view t.sfs i)) :
    (view t'.sfs i).din.type = (view t.sfs i).din.type := by
  cases he with
  | settled hs => rw [hs.din hok]
  | read hk hnode htype hgoes ht => rw [ht.din]
  | write hk hk' hnode htype hgoes ht => rw [ht.din]
  | cut hs htype hr => rw [hr.type, hs.din hok]
  | enlarged hk hnode htype hlen hlt hmax hr => rw [hr.type]
  | stuck hk hnode htype hlen hlt hmax hs => rw [hs.grown.stretched.din]

/-- A call moves a byte, or leaves it, or makes it zero. -/
theorem Effect.content {call : Call K} (he : Effect I i t t' call) (pos : Nat) :
    Moves t t' call i pos ∨ (view t'.sfs i).content pos = (view t.sfs i).content pos ∨
      (view t'.sfs i).content pos = 0 := by
  cases he with
  | settled hs => exact Or.inr (Or.inl (by rw [hs.content]))
  | read hk hnode htype hgoes ht => exact Or.inr (Or.inl (by rw [ht.content, if_neg (by simp)]))
  | @write k buf file r hk hk' hnode htype hgoes ht =>
      have hlen : (buf.take r.alen).length ≤ r.alen := by
        rw [List.length_take]
        exact min_le_left _ _
      obtain ⟨hvalid, -, -⟩ := hgoes
      unfold IoInvalid at hvalid
      by_cases hin : file.pos.toNat ≤ pos ∧ pos < file.pos.toNat + r.alen
      · refine Or.inl ⟨k, buf, file, _, rfl, hk, hk', hnode, by omega, ?_⟩
        show (pos : Int) < file.pos + r.alen
        omega
      · refine Or.inr (Or.inl ?_)
        rw [ht.content, if_pos rfl]
        exact Bytes.overlay_of_outside (by omega)
  | cut hs htype hr =>
      rw [hr.content, hs.content]
      split_ifs
      · exact Or.inr (Or.inr rfl)
      · exact Or.inr (Or.inl rfl)
  | enlarged hk hnode htype hlen hlt hmax hr =>
      rw [hr.content]
      split_ifs
      · exact Or.inr (Or.inr rfl)
      · exact Or.inr (Or.inl rfl)
  | stuck hk hnode htype hlen hlt hmax hs => exact Or.inr (Or.inl (by rw [hs.content]))

section
variable [DecidableEq K] {written : Nat → Nat → Prop}

/-- An `open` that has truncated a file leaves it empty. -/
theorem FilesOk.size_of_empties (h : FilesOk I t) {call : Call K} (hstart : StartsIn I call)
    {r : Except Errno Unit} (hcall : call.run t = .ok (r, t')) (he : Empties t' call r i) :
    (view t'.sfs i).din.size = 0 := by
  obtain ⟨rfl, k, path, flags, rfl, htrunc, hnode⟩ := he
  have hends : (Ucore.Fs.file_open k path flags).Ends t _ _ (Refuses True True True) :=
    h.file_open path hstart flags fun _ _ => trivial
  exact (hends.of_ok hcall).2 i ⟨htrunc, hnode⟩

/-- In a run without a write that hides a block, the files are cleared. -/
theorem Reaches.cleared (h : Fresh I t₀) (hrun : Reaches I (fun t call => ¬ Hides t call) t₀ t) :
    ∀ i ∈ I, Cleared (view t.sfs i) :=
  hrun.keeps h.ok (fun _ hi => h.cleared hi)
    fun hok hnot _ hi he hcleared => hcleared.effect hok hi hnot he

/-- What has not been written is zero. -/
theorem History.zero (h : Fresh I t₀) (hrun : History I (fun t call => ¬ Hides t call) t₀ t written) :
    ∀ i ∈ I, (view t.sfs i).din.type = SFS_TYPE_FILE → ∀ pos, ¬ written i pos →
      (view t.sfs i).content pos = 0 := by
  induction hrun with
  | start => exact fun i hi htype pos hpos => h.zero i hi htype pos (Nat.le_of_not_lt hpos)
  | @step t t' call r written hprev hstart hcond hcall ih =>
      intro i hi htype pos hnot
      have hok := hprev.reaches.ok h.ok
      obtain ⟨changes, hdid⟩ := hok.did_of_run hstart hcall
      have heffect := hdid.effect i hi
      have hfile : (view t.sfs i).din.type = SFS_TYPE_FILE := by
        rw [← heffect.type (hok.file hi)]
        exact htype
      by_cases hempty : Empties t' call r i
      · -- the file has been truncated, so the byte lies behind its end
        have hsize := hok.size_of_empties hstart hcall hempty
        have hcleared := (hprev.reaches.step hstart hcond hcall).cleared h i hi
        exact hcleared.tail htype pos (hsize ▸ Nat.zero_le pos)
      · have hold : ¬ written i pos ∧ ¬ Moves t t' call i pos := by
          constructor
          · exact fun hw => hnot ⟨hempty, Or.inl hw⟩
          · exact fun hm => hnot ⟨hempty, Or.inr hm⟩
        rcases heffect.content pos with hmoves | hsame | hzero
        · exact absurd hmoves hold.2
        · rw [hsame]
          exact ih i hi hfile pos hold.1
        · exact hzero

/-- A seek behind the end appends zeros to a file that is cleared. -/
theorem FilesOk.seek_zeros (h : FilesOk I t) {file : File} {pos : Int} {whence : Whence}
    (hk : t.files k = some file) (hcleared : Cleared (view t.sfs file.node))
    (hi : file.node ∈ I) (htype : (view t.sfs file.node).din.type = SFS_TYPE_FILE)
    (hcall : (Call.seek k pos whence).run t = .ok (.ok (), t')) :
    fileBytes t'.sfs file.node = fileBytes t.sfs file.node ++ List.replicate
      ((seekTarget file (view t.sfs file.node).din.size pos whence).toNat -
        (view t.sfs file.node).din.size) 0 := by
  have hends : (Ucore.Fs.file_seek k pos whence).Ends t _ _ (Refuses True True True) :=
    h.file_seek pos whence
  obtain ⟨hdid, hsize⟩ := hends.of_ok hcall
  replace hsize := hsize file hk
  set size := (view t.sfs file.node).din.size with hold
  set target := (seekTarget file size pos whence).toNat with htarget
  have hcontent : ∀ p, p < max size target →
      (view t'.sfs file.node).content p = (view t.sfs file.node).content p := by
    intro p hp
    cases hdid.effect _ hi with
    | settled hs => rw [hs.content]
    | @enlarged _ _ _ file' len hk' _ _ hlen hlt _ hr =>
        rw [hk] at hk'
        cases hk'
        rw [← hold] at hlen hlt
        rw [hr.content, if_neg]
        have hmax : max size target = target := by omega
        omega
    | stuck _ _ _ _ _ _ hs => rw [hs.content]
  unfold fileBytes
  rw [hsize, ← hold, show max size target = size + (target - size) by omega, Bytes.slice_append,
    Nat.zero_add]
  congr 1
  · exact Bytes.slice_congr fun p _ hp => hcontent p (by omega)
  · apply List.ext_getElem
    · simp
    · intro n hn hn'
      rw [List.getElem_replicate, ← List.getD_eq_getElem _ 0 hn]
      rw [Bytes.length_slice] at hn
      rw [Bytes.slice_getD hn, hcontent _ (by omega)]
      exact hcleared.tail htype _ (by omega)

/-- **Files show no old bytes.** Take any calls of any processes on a volume that has been mounted,
none of which hides a block. In each state, every byte at or behind the end of a regular file is
zero, in the blocks that it has and in those that are still in its block map. A seek to a position
behind the end appends zeros up to there. And every byte of a file is zero that no write has moved
there since the file was last truncated. -/
theorem unwritten_zero (h : Fresh I t₀)
    (hrun : History I (fun t call => ¬ Hides t call) t₀ t written) :
    (∀ i ∈ I, (view t.sfs i).din.type = SFS_TYPE_FILE →
      ∀ pos, (view t.sfs i).din.size ≤ pos → (view t.sfs i).content pos = 0) ∧
    (∀ k file pos whence t', t.files k = some file →
      (view t.sfs file.node).din.type = SFS_TYPE_FILE →
      (Call.seek k pos whence).run t = .ok (.ok (), t') →
      fileBytes t'.sfs file.node = fileBytes t.sfs file.node ++ List.replicate
        ((seekTarget file (view t.sfs file.node).din.size pos whence).toNat -
          (view t.sfs file.node).din.size) 0) ∧
    ∀ i ∈ I, (view t.sfs i).din.type = SFS_TYPE_FILE → ∀ pos, ¬ written i pos →
      (view t.sfs i).content pos = 0 := by
  have hok := hrun.reaches.ok h.ok
  have hcleared := hrun.reaches.cleared h
  refine ⟨fun i hi => (hcleared i hi).tail, ?_, hrun.zero h⟩
  intro k file pos whence t' hk htype hcall
  obtain ⟨sin, hsin⟩ := hok.exists_sin hk
  have hi := (hok.counted.volume.inode _ sin hsin).mem
  exact hok.seek_zeros hk (hcleared _ hi) hi htype hcall

end

/-! ### Runs on an image -/

/-- The file `a` gets 14 blocks, and an `open` with `O_TRUNC` takes them back. It gets 13 again, and
`b` gets the last free block. A write to `a` at 53348 finds none and sets the size. The file is
written back, and `b` gives its block up. A write to `a` at 53248 gets the block and does not go over
the size. Then `a` is closed, and opened with `O_TRUNC`. -/
def hideCalls : List (Call Nat) :=
  [.open 0 (rootPath 97) 2, .open 1 (rootPath 98) 2, .seek 0 53348 .set, .open 2 (rootPath 97) 18,
    .seek 2 53248 .set, .write 1 [1], .write 0 [5], .fsync 0, .open 3 (rootPath 98) 18,
    .write 2 [9], .close 0, .close 2, .open 0 (rootPath 97) 18]

/-- A seek over the block, and one back to it. -/
def showCalls : List (Call Nat) := [.seek 0 57344 .set, .seek 0 53248 .set]

/-- The file is empty then, and has the byte behind its end in its block map. A seek over it makes it
a byte of the file, which a read returns. -/
theorem old_byte_shows :
    ∃ t t' t'' r, runCalls hideCalls twoFiles = .ok (.ok (), t) ∧ (view t.sfs 5).din.size = 0 ∧
      (view t.sfs 5).content 53248 = 9 ∧ runCalls showCalls t = .ok (.ok (), t') ∧
      file_read 0 [0] t' = .ok (.ok r, t'') ∧ r.data = [9] := by
  -- one evaluation of the whole run
  have hrun : (runCalls hideCalls twoFiles).toOption.map Prod.fst = some (.ok ()) ∧
      (view ((runCalls hideCalls).behind twoFiles).sfs 5).din.size = 0 ∧
      (view ((runCalls hideCalls).behind twoFiles).sfs 5).content 53248 = 9 ∧
      (runCalls showCalls ((runCalls hideCalls).behind twoFiles)).toOption.map Prod.fst =
        some (.ok ()) ∧
      (file_read 0 [0] ((runCalls showCalls).behind ((runCalls hideCalls).behind twoFiles))).toOption.map
        (fun p => p.1.toOption.map IoResult.data) = some (some [9]) := by decide +kernel
  obtain ⟨hhide, hsize, hcontent, hshow, hread⟩ := hrun
  obtain ⟨⟨r, t''⟩, hread, hdata⟩ := exists_of_map hread
  cases r with
  | error e => cases hdata
  | ok r =>
      exact ⟨_, _, t'', r, Routine.run_behind hhide, hsize, hcontent, Routine.run_behind hshow, hread,
        Option.some.inj hdata⟩

/-- A write to a file that has fewer than twelve blocks on the disk does not hide a block. -/
theorem not_hides_write {buf : List UInt8} (node : Nat)
    (hk : (t.files k).map File.node = some node) (hlow : (view t.sfs node).disk.blocks < 12) :
    ¬ Hides t (.write k buf) := by
  rintro ⟨file, hk', -, -, hfar, -⟩
  rw [hk', Option.map_some] at hk
  rw [Option.some.inj hk] at hfar
  omega

/-- Three bytes are written to a file, an `open` with `O_TRUNC` empties it, and a seek goes to 4096.
Where the bytes have been, it reads as zero. -/
theorem unwritten_zero_twoFiles :
    ∃ I t written, History I (fun t call => ¬ Hides t call) twoFiles t written ∧
      (view t.sfs 5).din.size = 4096 ∧ ¬ written 5 1 ∧
      (∀ i ∈ I, (view t.sfs i).din.type = SFS_TYPE_FILE →
        ∀ pos, (view t.sfs i).din.size ≤ pos → (view t.sfs i).content pos = 0) ∧
      (∀ k file pos whence t', t.files k = some file →
        (view t.sfs file.node).din.type = SFS_TYPE_FILE →
        (Call.seek k pos whence).run t = .ok (.ok (), t') →
        fileBytes t'.sfs file.node = fileBytes t.sfs file.node ++ List.replicate
          ((seekTarget file (view t.sfs file.node).din.size pos whence).toNat -
            (view t.sfs file.node).din.size) 0) ∧
      ∀ i ∈ I, (view t.sfs i).din.type = SFS_TYPE_FILE → ∀ pos, ¬ written i pos →
        (view t.sfs i).content pos = 0 := by
  obtain ⟨I, es, -, hfresh, -⟩ := mounts_twoFiles
  have hstart : History I (fun t call => ¬ Hides t call) twoFiles twoFiles _ := .start
  have hrun₁ := hstart.call (.open 0 (rootPath 97) 2) hfresh.ok.root id (by decide +kernel)
  have hrun₂ := hrun₁.call (.write 0 [7, 8, 9]) trivial
    (not_hides_write 5 (by decide +kernel) (by decide +kernel)) (by decide +kernel)
  have hrun₃ := hrun₂.call (.open 1 (rootPath 97) 18) hfresh.ok.root id (by decide +kernel)
  have hrun₄ := hrun₃.call (.seek 0 4096 .set) trivial id (by decide +kernel)
  refine ⟨I, _, _, hrun₄, by decide +kernel, ?_, unwritten_zero hfresh hrun₄⟩
  rintro ⟨-, ⟨hnot, -⟩ | ⟨_, _, _, _, hcall, -⟩⟩
  · exact hnot ⟨rfl, 1, rootPath 97, 18, rfl, Or.inl (by decide), by decide +kernel⟩
  · cases hcall

end Ucore.Proofs.Fs
