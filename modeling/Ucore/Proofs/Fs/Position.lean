import Ucore.Proofs.Fs.Reaches
import Ucore.Proofs.Tools.Blocks

/-!
# `Ucore.Proofs.Fs.Position`: where a transfer begins

A descriptor has a position, and the file that it is open for has a number of blocks.
`sfs_bmap_load_nolock` asserts that the block it is to load is one that the file has, or the next
one. `sfs_tryseek` enlarges a file up to the position, and a transfer moves the position over bytes
that the file has then. But an `open` with `O_TRUNC` or `O_CREAT` of the same file cuts it, and the
positions of the descriptors that are open for it stay.

* A read in front of the end of the file meets the assertion, since the blocks always reach the size
  (`FileOk.reach`), and a read behind the end does not come to it.
* A write meets it exactly when it does not begin in a block behind the next one (`Behind`).

## Main result

`behind_panics`: in any state that calls can reach, the assertion fails if and only if the call is
such a write. `stale_position_panics` is a run that comes to it.
-/

set_option autoImplicit false

namespace Ucore.Proofs.Fs

open Ucore.Lib Ucore.Fs Ucore.Proofs.Tools

variable {K : Type} [DecidableEq K] {I : Finset Nat} {i : Nat} {t t₀ : Files K}

/-- A write that begins behind the next block stops at the assertion. -/
theorem FilesOk.panics_behind (h : FilesOk I t) {call : Call K} (hb : Behind t call) :
    call.run t = .error .loadIndex := by
  cases call with
  | write k buf =>
      obtain ⟨file, hk, hwritable, htype, hcount, hgoes, hlt⟩ := hb
      obtain ⟨sin, hsin⟩ := h.exists_sin hk
      have hdin : (view t.sfs file.node).din = sin.din := by rw [view_eq hsin]
      rw [hdin] at htype hgoes hlt
      rw [refs_eq hsin] at hcount
      have hio : (sfs_io file.node buf file.pos true).Panics t.sfs .loadIndex := by
        have hrun := io_nolock_index hsin (by rw [htype]; decide) hgoes hlt
        unfold Routine.Panics sfs_io
        rw [Routine.ends_bind]
        unfold Routine.Ends
        rw [hrun]
      apply Routine.Panics.eq
      unfold Routine.Panics Call.run
      dsimp only
      unfold Ucore.Fs.file_write
      rw [Routine.ends_bind, Routine.ends_bind, ends_fd2file_iff]
      refine ⟨fun file' hk' => ?_, fun hnone => by rw [hk] at hnone; cases hnone⟩
      rw [hk] at hk'
      cases hk'
      unfold Ucore.Fs.file_io
      rw [Routine.ends_ite, if_neg (by simp [hwritable]), Routine.ends_bind, ends_onVolume,
        ends_vop_op hsin (by simp [Vop.present, htype]) (h.counted.volume.inode _ _ hsin).opens
          hcount,
        Routine.ends_bind, ends_onVolume]
      exact hio.mono (fun _ _ h => h.elim) (fun _ _ h => h.elim) fun _ h => h
  | _ => exact hb.elim

/-- **Where a write may begin.** In every state that calls can reach from a sound volume, whatever
they are, the assertion of `sfs_bmap_load_nolock` about the index fails in exactly one kind of call:
a write that begins in a block behind the next one. A read never meets it. -/
theorem behind_panics (h : FilesOk I t₀) (hrun : Reaches I (fun _ _ => True) t₀ t)
    (call : Call K) (hstart : StartsIn I call) :
    call.run t = .error .loadIndex ↔ Behind t call := by
  have hok := hrun.ok h
  exact ⟨fun hp => (hok.call call hstart).of_panic hp, hok.panics_behind⟩

/-- A file is open, and its descriptor is at 8192. An `open` with `O_TRUNC` cuts the file, and a
write through the descriptor stops at the assertion. -/
theorem stale_position_panics :
    ∃ t, runCalls [.open 0 (rootPath 97) 2, .seek 0 8192 .set, .open 1 (rootPath 97) 18] twoFiles =
        .ok (.ok (), t) ∧
      (t.files 0).map File.pos = some 8192 ∧ (view t.sfs 5).din.blocks = 0 ∧
      (Call.write 0 [7]).run t = .error .loadIndex :=
  ⟨_, Routine.run_behind (by decide +kernel), by decide +kernel, by decide +kernel,
    eq_of_errorOf (by decide +kernel)⟩

/-- Behind the same three calls the write through the first descriptor begins behind the next block,
and the one through the second descriptor returns. -/
theorem behind_panics_twoFiles :
    ∃ I t, Reaches I (fun _ _ => True) twoFiles t ∧
      (t.files 0).map File.pos = some 8192 ∧ (t.files 1).map File.pos = some 0 ∧
      ((Call.write 0 [7]).run t = .error .loadIndex ↔ Behind t (.write 0 [7])) ∧
      ((Call.write 1 [7]).run t = .error .loadIndex ↔ Behind t (.write 1 [7])) ∧
      ∃ t', (Call.write 1 [7]).run t = .ok (.ok (), t') := by
  obtain ⟨I, es, -, hfresh, -⟩ := mounts_twoFiles
  have hopen : ∀ k flags, StartsIn I (.open k (rootPath 97) flags : Call Nat) :=
    fun _ _ => hfresh.ok.root
  have hstart : Reaches I (fun _ _ => True) twoFiles twoFiles := .start
  have hrun := hstart.call _ (hopen 0 2) trivial (by decide +kernel)
  have hrun' := hrun.call (.seek 0 8192 .set) trivial trivial (by decide +kernel)
  have hrun'' := hrun'.call _ (hopen 1 18) trivial (by decide +kernel)
  exact ⟨I, _, hrun'', by decide +kernel, by decide +kernel,
    behind_panics hfresh.ok hrun'' _ trivial, behind_panics hfresh.ok hrun'' _ trivial,
    _, Routine.run_behind (by decide +kernel)⟩

end Ucore.Proofs.Fs
