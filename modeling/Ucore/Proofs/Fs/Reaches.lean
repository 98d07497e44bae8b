import Ucore.Proofs.Fs.Mount

/-!
# `Ucore.Proofs.Fs.Reaches`: the states of a run

`files_sound` is about what holds behind any calls. Some of what one would like to hold of the files
does not: there are calls that break it. What is said then is about the runs without such calls.

`Reaches` are the states behind any number of calls, each of which meets a condition on the state
that it starts in. A call that panics leads to no state. What holds of each file of the volume in
front, and is kept by whatever a call may do to a file (`Effect`), holds of each file in every state
that is reached. `Reaches.keeps` is this induction, and the modules that import this one are about
the invariants of one file that go into it:

* `Ucore.Proofs.Fs.Fitting`, that a file has the blocks that its size needs;
* `Ucore.Proofs.Fs.Marked`, that what is not marked is on the disk;
* `Ucore.Proofs.Fs.Zeros`, that what has not been written is zero.

`Ucore.Proofs.Fs.Position` needs no condition, only `Reaches.ok`: the volume stays sound.
-/

set_option autoImplicit false

namespace Ucore.Proofs.Fs

open Ucore.Lib Ucore.Fs

variable {K : Type} [DecidableEq K] {I : Finset Nat} {i : Nat} {k : K} {t t' t₀ : Files K}
  {cond : Files K → Call K → Prop}

/-! ### Runs -/

/-- The states behind calls that meet a condition, whether they return a value or an error code. -/
inductive Reaches (I : Finset Nat) (cond : Files K → Call K → Prop) (t₀ : Files K) :
    Files K → Prop
  | start : Reaches I cond t₀ t₀
  | step {t t' : Files K} {call : Call K} {r : Except Errno Unit} :
      Reaches I cond t₀ t → StartsIn I call → cond t call → call.run t = .ok (r, t') →
      Reaches I cond t₀ t'

/-- What a call that returns has done. -/
theorem FilesOk.did_of_run (h : FilesOk I t) {call : Call K} (hstart : StartsIn I call)
    {r : Except Errno Unit} (hcall : call.run t = .ok (r, t')) :
    ∃ changes, Did I call changes t t' := by
  have hends := h.call call hstart
  cases r with
  | ok u => exact ⟨_, hends.of_ok hcall⟩
  | error e => exact ⟨_, hends.of_error hcall⟩

/-- Calls that have returned have kept the volume sound. -/
theorem FilesOk.of_run (h : FilesOk I t) {calls : List (Call K)}
    (hstart : ∀ call ∈ calls, StartsIn I call) (hrun : runCalls calls t = .ok (.ok (), t')) :
    FilesOk I t' :=
  (h.run calls hstart).of_ok hrun

/-- A run keeps the volume sound. -/
theorem Reaches.ok (hrun : Reaches I cond t₀ t) (h : FilesOk I t₀) : FilesOk I t := by
  induction hrun with
  | start => exact h
  | step _ hstart _ hcall ih =>
      obtain ⟨changes, hdid⟩ := ih.did_of_run hstart hcall
      exact hdid.ok

/-- What holds of each file and is kept by what the calls do to a file holds in every state that is
reached. -/
theorem Reaches.keeps {P : FileView → Prop} (hrun : Reaches I cond t₀ t) (h : FilesOk I t₀)
    (hinit : ∀ i ∈ I, P (view t₀.sfs i))
    (hstep : ∀ {t t' : Files K} {call : Call K}, FilesOk I t → cond t call → ∀ i ∈ I,
      Effect I i t t' call → P (view t.sfs i) → P (view t'.sfs i)) :
    ∀ i ∈ I, P (view t.sfs i) := by
  induction hrun with
  | start => exact hinit
  | step hprev hstart hcond hcall ih =>
      obtain ⟨changes, hdid⟩ := (hprev.ok h).did_of_run hstart hcall
      exact fun i hi => hstep (hprev.ok h) hcond i hi (hdid.effect i hi) (ih i hi)

/-- A call that returns leads on. -/
theorem Reaches.call (h : Reaches I cond t₀ t) (call : Call K) (hstart : StartsIn I call)
    (hcond : cond t call) (hret : (call.run t).toOption.map Prod.fst = some (.ok ())) :
    Reaches I cond t₀ (call.run.behind t) :=
  .step h hstart hcond (Routine.run_behind hret)

end Ucore.Proofs.Fs
