import Ucore.Process.Files

/-!
# `Ucore.Proofs.Process.Files`: when the files are given back

`do_exit` calls `put_files` only when the process has an address space. In a run in which whoever
ends has one, every count is the number of users; an end without one breaks it (`files_released`).

## The invariant

`FilesInv` has `FilesCounted` at its heart: the count of a `files_struct` is the number of live
processes that point to it, and exactly the structures with a user have not been destroyed. Beside
it every live process has files, and no struct has been freed that is still in the lists (`stale`).
Descriptors are a list in each structure, and nothing here depends on which of them are open, but
that `sysfile_open` finds a free entry behind `files_closeall` (`sysfileOpen_spec`).

## The condition

`FilesOp.KeepsFiles` is about the state in front of a call, and there are two ways not to meet it.

* A process ends without an address space, by `do_exit` or by an `execve` that fails behind the
  release of the old one. It keeps its reference for good (`doExit_keeps`).
* `do_fork` has memory for the struct and the kernel stack, and `copy_files` finds none. The source
  then frees the struct, which it has put into the process list before.

`step_spec` has both directions: a call that meets the condition keeps `FilesInv`, and one that does
not breaks `FilesOk`. `filesRun_inv` is the induction over the run.

## Runs

In `files_released_userMain` two processes share their files and the last one to end destroys them.
In `files_kept_userMain` a program cannot be loaded, and the process ends with its descriptor open.
-/

set_option autoImplicit false
set_option linter.unusedSectionVars false

namespace Ucore.Proofs.Process

open Ucore.Lib Ucore.Process Ucore.Process.FileUsers

variable {P F M : Type} [DecidableEq P] [DecidableEq F] [DecidableEq M]
  {s s' t : FileUsers P F M} {p proc : P} {f g : F} {filesp : FilesStruct}

/-! ### Users -/

/-- The users of a structure are the live processes that point to it. -/
theorem mem_users : p ∈ s.users f ↔ p ∈ s.procs ∧ s.zombie p = false ∧ s.filesp p = some f := by
  simp [users]

/-- The structure that has changed. -/
@[simp] theorem setFiles_self (s : FileUsers P F M) (f : F) (x : Option FilesStruct) :
    (s.setFiles f x).files f = x := Function.update_self ..

/-- The other structures are as they were. -/
theorem setFiles_of_ne {x : Option FilesStruct} (h : g ≠ f) :
    (s.setFiles f x).files g = s.files g := Function.update_of_ne h ..

/-- A change of a structure leaves its users. -/
@[simp] theorem users_setFiles (s : FileUsers P F M) (f g : F) (x : Option FilesStruct) :
    (s.setFiles f x).users g = s.users g := rfl

/-- The process becomes a zombie. -/
theorem users_zombie : users { s with zombie := Function.update s.zombie p true } f =
    (s.users f).filter (· ≠ p) := by
  unfold users
  rw [List.filter_filter]
  refine List.filter_congr fun q _ => ?_
  by_cases hq : q = p
  · simp [hq]
  · simp [hq]

/-- The state of the references while the processes run. -/
structure FilesInv (s : FileUsers P F M) : Prop where
  nodup : s.procs.Nodup
  files : ∀ p, FilesOp.Live s p → ∃ f, s.filesp p = some f
  ok : FilesCounted s
  stale : s.stale = false

/-- A change of the descriptors. -/
theorem filesCounted_setOpened (h : FilesCounted s) (hf : s.files f = some filesp) {filesp' : FilesStruct}
    (hcount : filesp'.count = filesp.count) : FilesCounted (s.setFiles f (some filesp')) := by
  refine ⟨fun g filesp'' hg => ?_, fun g => ?_⟩
  · rw [users_setFiles]
    by_cases hgf : g = f
    · subst hgf
      rw [setFiles_self] at hg
      rw [← Option.some.inj hg, hcount]
      exact h.count g filesp hf
    · rw [setFiles_of_ne hgf] at hg
      exact h.count g filesp'' hg
  · rw [users_setFiles, ← h.used g]
    by_cases hgf : g = f
    · subst hgf
      simp [hf]
    · rw [setFiles_of_ne hgf]

/-- Opening and closing descriptors keeps the invariant. -/
theorem FilesInv.setOpened (h : FilesInv s) (hf : s.files f = some filesp) {filesp' : FilesStruct}
    (hcount : filesp'.count = filesp.count) : FilesInv (s.setFiles f (some filesp')) :=
  ⟨h.nodup, h.files, filesCounted_setOpened h.ok hf hcount, h.stale⟩

/-- The structure of a live process has not been destroyed. -/
theorem exists_files (h : FilesCounted s) (hp : FilesOp.Live s p) (hf : s.filesp p = some f) :
    ∃ filesp, s.files f = some filesp := by
  have hmem : p ∈ s.users f := mem_users.mpr ⟨hp.1, hp.2, hf⟩
  have hne := (h.used f).mpr (List.ne_nil_of_mem hmem)
  exact Option.ne_none_iff_exists'.mp hne

/-! ### The functions of `fs.c` -/

/-- Closing descriptors leaves the count. -/
theorem closeDescriptors_count (fds : List Nat) : ∀ filesp : FilesStruct,
    (closeDescriptors fds filesp).count = filesp.count := by
  induction fds with
  | nil => exact fun _ => rfl
  | cons fd fds ih => exact fun filesp => ih _

/-- All descriptors are closed. -/
theorem closeDescriptors_opened (fds : List Nat) : ∀ filesp : FilesStruct, filesp.opened = fds →
    (closeDescriptors fds filesp).opened = [] := by
  induction fds with
  | nil => exact fun _ h => h
  | cons fd fds ih =>
      intro filesp h
      exact ih _ (by simp [h])

/-- `files_destroy` of a structure with the count 0. -/
theorem filesDestroy_eq (hf : s.files f = some filesp) (hcount : filesp.count = 0) :
    s.filesDestroy f = .ok (s.setFiles f none) := by
  have hclosed := closeDescriptors_opened filesp.opened filesp rfl
  simp [filesDestroy, hf, hcount, hclosed]

/-- `files_closeall` changes only descriptors. -/
theorem filesCloseall_spec (h : FilesInv s) (hrun : s.filesCloseall p = .ok s') :
    FilesInv s' ∧ s'.procs = s.procs ∧ s'.zombie = s.zombie ∧ s'.mm = s.mm ∧
      s'.filesp = s.filesp := by
  unfold filesCloseall at hrun
  cases hp : s.filesp p with
  | none => simp [hp] at hrun
  | some f =>
      cases hf : s.files f with
      | none => simp [hp, hf] at hrun
      | some filesp =>
          simp only [hp, hf] at hrun
          split at hrun
          · obtain rfl := Except.ok.inj hrun
            exact ⟨h.setOpened hf (closeDescriptors_count _ _), rfl, rfl, rfl, rfl⟩
          · cases hrun

/-- Closing descriptors takes them off the list of the open ones. -/
theorem closeDescriptors_eq_diff (fds : List Nat) : ∀ filesp : FilesStruct,
    (closeDescriptors fds filesp).opened = filesp.opened.diff fds := by
  induction fds with
  | nil => exact fun _ => rfl
  | cons fd fds ih =>
      intro filesp
      rw [closeDescriptors, ih, List.diff_cons]

/-- None of the descriptors that a test selects is open behind their `fd_array_close`. -/
theorem notMem_closeDescriptors {q : Nat → Bool} {fd : Nat} (hq : q fd = true) :
    fd ∉ (closeDescriptors (filesp.opened.filter q) filesp).opened := by
  rw [closeDescriptors_eq_diff, ← List.count_eq_zero, List.count_diff, List.count_filter hq,
    Nat.sub_self]

/-- Behind `files_closeall` there is a free entry for `sysfile_open`, which changes only the
descriptors. -/
theorem sysfileOpen_spec {b : Bool} {u : FileUsers P F M} (h : FilesInv s)
    (hclose : s.filesCloseall p = .ok t) (hrun : t.sysfileOpen p = .ok (b, u)) :
    b = true ∧ FilesInv u ∧ u.procs = t.procs ∧ u.zombie = t.zombie := by
  have ht := (filesCloseall_spec h hclose).1
  unfold filesCloseall at hclose
  unfold sysfileOpen at hrun
  cases hp : s.filesp p with
  | none => simp [hp] at hclose
  | some f =>
      cases hf : s.files f with
      | none => simp [hp, hf] at hclose
      | some filesp =>
          simp only [hp, hf] at hclose
          split at hclose
          · obtain rfl := Except.ok.inj hclose
            have hp' : (s.setFiles f (some (closeDescriptors
                (filesp.opened.filter (2 ≤ ·)) filesp))).filesp p = some f := hp
            simp only [hp', setFiles_self] at hrun
            split at hrun
            · -- the entry 2 is free
              have hfree : ((List.range FILES_STRUCT_NENTRY).find? fun fd =>
                  fd ∉ (closeDescriptors (filesp.opened.filter (2 ≤ ·)) filesp).opened).isSome :=
                List.find?_isSome.mpr ⟨2, List.mem_range.mpr (by decide), by
                  simpa using notMem_closeDescriptors (by decide)⟩
              obtain ⟨fd, hfd⟩ := Option.isSome_iff_exists.mp hfree
              rw [hfd] at hrun
              obtain ⟨rfl, rfl⟩ := Prod.mk.inj (Except.ok.inj hrun)
              exact ⟨rfl, ht.setOpened (setFiles_self ..) rfl, rfl, rfl⟩
            · cases hrun
          · cases hclose

/-! ### Taking a reference -/

/-- All is as it should be, but for the structure `f`, which a process is about to get. -/
structure AboutToTake (s : FileUsers P F M) (f : F) : Prop where
  count : ∀ g filesp, s.files g = some filesp → filesp.count = (s.users g).length
  used : ∀ g, g ≠ f → (s.files g ≠ none ↔ s.users g ≠ [])

/-- A new process without files: it is the first one, live, and uses nothing. -/
structure NewProc (s : FileUsers P F M) (proc : P) (rest : List P) : Prop where
  procs : s.procs = proc :: rest
  nodup : s.procs.Nodup
  live : s.zombie proc = false
  filesp : s.filesp proc = none

/-- The users after the new process has got `f`. -/
theorem users_take {rest : List P} (h : NewProc s proc rest) (files : F → Option FilesStruct) (g : F) :
    users { s with files := files, filesp := Function.update s.filesp proc (some f) } g =
      if g = f then proc :: s.users f else s.users g := by
  have hnew : proc ∉ rest := by
    have hnodup := h.nodup
    rw [h.procs] at hnodup
    exact (List.nodup_cons.mp hnodup).1
  have hrest : rest.filter (fun p => !s.zombie p &&
      Function.update s.filesp proc (some f) p = some g) = s.users g := by
    unfold users
    rw [h.procs, List.filter_cons_of_neg (by simp [h.filesp])]
    refine List.filter_congr fun q hq => ?_
    have hne : q ≠ proc := fun heq => hnew (heq ▸ hq)
    rw [Function.update_of_ne hne]
  unfold users at hrest ⊢
  dsimp only
  by_cases hg : g = f
  · subst hg
    rw [if_pos rfl, h.procs, List.filter_cons_of_pos (by simp [h.live]), hrest, h.procs]
  · rw [if_neg hg, h.procs, List.filter_cons_of_neg (by simp [Ne.symm hg]), hrest, h.procs]

/-- The new process takes a reference. -/
theorem takeFiles_spec {rest : List P} (h : NewProc s proc rest) (htake : AboutToTake s f)
    (hrun : s.takeFiles proc f = .ok s') :
    FilesCounted s' ∧ s'.procs = s.procs ∧ s'.zombie = s.zombie ∧
      s'.filesp = Function.update s.filesp proc (some f) ∧ s'.stale = s.stale := by
  unfold takeFiles at hrun
  cases hf : s.files f with
  | none => simp [hf] at hrun
  | some filesp =>
      simp only [hf] at hrun
      obtain rfl := Except.ok.inj hrun
      have husers := users_take (f := f) h
        (s.setFiles f (some { filesp with count := filesp.count + 1 })).files
      refine ⟨⟨fun g filesp' hg => ?_, fun g => ?_⟩, rfl, rfl, rfl, rfl⟩
      · refine Eq.trans ?_ (congrArg (fun l => (List.length l : Int)) (husers g).symm)
        by_cases hgf : g = f
        · subst hgf
          rw [if_pos rfl, List.length_cons]
          rw [← Option.some.inj ((setFiles_self ..).symm.trans hg), htake.count g filesp hf]
          push_cast
          rfl
        · rw [if_neg hgf]
          exact htake.count g filesp' ((setFiles_of_ne hgf).symm.trans hg)
      · refine Iff.trans ?_ (not_congr (iff_of_eq (congrArg (fun l => l = []) (husers g).symm)))
        dsimp only
        by_cases hgf : g = f
        · subst hgf
          rw [if_pos rfl]
          exact iff_of_true (by simp) (by simp)
        · rw [if_neg hgf]
          exact (not_congr (iff_of_eq (congrArg (· = none) (setFiles_of_ne hgf)))).trans
            (htake.used g hgf)

/-- A change of a structure leaves the new process as it was. -/
theorem NewProc.setFiles {rest : List P} {x : Option FilesStruct} (h : NewProc s proc rest) :
    NewProc (s.setFiles f x) proc rest := ⟨h.procs, h.nodup, h.live, h.filesp⟩

/-- A fresh structure has no user. -/
theorem aboutToTake_fresh (hok : FilesCounted s) (hnone : s.files f = none) (opened : List Nat) :
    AboutToTake ((s.setFiles f (some ⟨0, []⟩)).setFiles f (some ⟨0, opened⟩)) f := by
  have hunused : s.users f = [] := by
    by_contra hne
    exact (hok.used f).mpr hne hnone
  refine ⟨fun g filesp hg => ?_, fun g hg => ?_⟩
  · rw [users_setFiles, users_setFiles]
    by_cases hgf : g = f
    · subst hgf
      rw [setFiles_self] at hg
      rw [← Option.some.inj hg, hunused]
      rfl
    · rw [setFiles_of_ne hgf, setFiles_of_ne hgf] at hg
      exact hok.count g filesp hg
  · rw [users_setFiles, users_setFiles, setFiles_of_ne hg, setFiles_of_ne hg]
    exact hok.used g

/-- `copy_files` gives the new process a reference, or fails and changes nothing. -/
theorem copyFiles_spec {rest : List P} {cloneFs b : Bool} {current : P} {fresh : Option F}
    (h : NewProc s proc rest) (hok : FilesCounted s)
    (hfresh : ∀ f, fresh = some f → s.files f = none)
    (hrun : s.copyFiles cloneFs current proc fresh = .ok (b, s')) :
    FilesCounted s' ∧ s'.procs = s.procs ∧ s'.zombie = s.zombie ∧ s'.stale = s.stale ∧
      (b = true ↔ cloneFs = true ∨ fresh ≠ none) ∧
      if b = true then ∃ f, s'.filesp = Function.update s.filesp proc (some f)
      else s'.filesp = s.filesp := by
  unfold copyFiles at hrun
  cases hcurrent : s.filesp current with
  | none => simp [hcurrent] at hrun
  | some old =>
      simp only [hcurrent] at hrun
      cases cloneFs with
      | true =>
          simp only [if_true, bind, Except.bind] at hrun
          cases htake : s.takeFiles proc old with
          | error e => simp [htake] at hrun
          | ok t =>
              rw [htake] at hrun
              obtain ⟨rfl, rfl⟩ := Prod.mk.inj (Except.ok.inj hrun)
              obtain ⟨hok', hprocs, hzombie, hfilesp, hstale⟩ :=
                takeFiles_spec h ⟨hok.count, fun g _ => hok.used g⟩ htake
              exact ⟨hok', hprocs, hzombie, hstale, by simp, old, hfilesp⟩
      | false =>
          simp only [Bool.false_eq_true, if_false] at hrun
          cases fresh with
          | none =>
              obtain ⟨rfl, rfl⟩ := Prod.mk.inj (Except.ok.inj hrun)
              exact ⟨hok, rfl, rfl, rfl, by simp, rfl⟩
          | some f =>
              -- a fresh structure, which nobody uses
              have hnone := hfresh f rfl
              simp only [bind, Except.bind, dupFiles, filesCreate, setFiles_self] at hrun
              cases hold : (s.setFiles f (some ⟨0, []⟩)).files old with
              | none => simp [hold] at hrun
              | some from_ =>
                  simp only [hold] at hrun
                  split at hrun
                  · cases hrun
                  · rename_i t hdup
                    split at hdup
                    · obtain rfl := Except.ok.inj hdup
                      cases htake : (setFiles (s.setFiles f (some ⟨0, []⟩)) f
                          (some ⟨0, from_.opened⟩)).takeFiles proc f with
                      | error e => simp [htake] at hrun
                      | ok u =>
                          rw [htake] at hrun
                          obtain ⟨rfl, rfl⟩ := Prod.mk.inj (Except.ok.inj hrun)
                          obtain ⟨hok', hprocs, hzombie, hfilesp, hstale⟩ :=
                            takeFiles_spec (h.setFiles.setFiles) (aboutToTake_fresh hok hnone _) htake
                          exact ⟨hok', hprocs, hzombie, hstale, by simp, f, hfilesp⟩
                    · cases hdup

/-! ### Giving a reference back -/

/-- The process leaves the users of its structure, and no others. -/
theorem users_leave (hnodup : s.procs.Nodup) (hp : FilesOp.Live s p) (hf : s.filesp p = some f) (g : F) :
    if g = f then ((s.users g).filter (· ≠ p)).length + 1 = (s.users g).length
    else (s.users g).filter (· ≠ p) = s.users g := by
  by_cases hg : g = f
  · subst hg
    have hmem : p ∈ s.users g := mem_users.mpr ⟨hp.1, hp.2, hf⟩
    have herase : (s.users g).erase p = (s.users g).filter (· ≠ p) := by
      have hnodup' : (s.users g).Nodup := hnodup.filter _
      rw [hnodup'.erase_eq_filter]
      refine List.filter_congr fun q _ => ?_
      by_cases hq : q = p <;> simp [hq]
    rw [if_pos rfl, ← herase, List.length_erase_of_mem hmem]
    have hpos := List.length_pos_of_mem hmem
    omega
  · rw [if_neg hg]
    refine List.filter_eq_self.mpr fun q hq => ?_
    -- a user of another structure is another process
    have hne : q ≠ p := by
      rintro rfl
      exact hg (Option.some.inj ((mem_users.mp hq).2.2.symm.trans hf))
    simpa using hne

/-- The process gives its reference back and becomes a zombie. -/
theorem putFiles_spec (h : FilesInv s) (hp : FilesOp.Live s p) (hrun : s.putFiles p = .ok t) :
    FilesInv { t with zombie := Function.update t.zombie p true } := by
  obtain ⟨f, hf⟩ := h.files p hp
  obtain ⟨filesp, hfilesp⟩ := exists_files h.ok hp hf
  have hcount := h.ok.count f filesp hfilesp
  have hleave := users_leave h.nodup hp hf
  -- the structure is destroyed with its last user
  have ht : t = s.setFiles f (if filesp.count - 1 = 0 then none
      else some { filesp with count := filesp.count - 1 }) := by
    simp only [putFiles, hf, hfilesp] at hrun
    by_cases hlast : filesp.count - 1 = 0
    · rw [if_pos hlast, filesDestroy_eq (setFiles_self ..) hlast] at hrun
      rw [if_pos hlast, ← Except.ok.inj hrun]
      simp [setFiles]
    · rw [if_neg hlast] at hrun
      rw [if_neg hlast, ← Except.ok.inj hrun]
  have husers : ∀ g, users { t with zombie := Function.update t.zombie p true } g =
      (s.users g).filter (· ≠ p) := by
    intro g
    rw [users_zombie, ht, users_setFiles]
  refine ⟨?_, ?_, ⟨?_, ?_⟩, ?_⟩
  · rw [ht]
    exact h.nodup
  · intro q hq
    rw [ht] at hq ⊢
    obtain ⟨hq, hlive⟩ := hq
    have hne : q ≠ p := by
      rintro rfl
      simp at hlive
    exact h.files q ⟨hq, by simpa [hne, setFiles] using hlive⟩
  · intro g filesp' hg
    rw [husers]
    have hlg := hleave g
    by_cases hgf : g = f
    · subst hgf
      rw [if_pos rfl] at hlg
      simp only [ht, setFiles_self] at hg
      split at hg
      · cases hg
      · rw [← Option.some.inj hg]
        dsimp only
        omega
    · rw [if_neg hgf] at hlg
      simp only [ht, setFiles_of_ne hgf] at hg
      rw [hlg]
      exact h.ok.count g filesp' hg
  · intro g
    rw [husers]
    have hlg := hleave g
    by_cases hgf : g = f
    · subst hgf
      rw [if_pos rfl] at hlg
      simp only [ht, setFiles_self]
      rw [← List.length_pos_iff_ne_nil]
      split
      · exact iff_of_false (fun hne => hne rfl) (by omega)
      · exact iff_of_true (by simp) (by omega)
    · rw [if_neg hgf] at hlg
      rw [hlg, ← h.ok.used g]
      simp only [ht, setFiles_of_ne hgf]
  · rw [ht]
    exact h.stale

/-- An end with an address space gives the reference back. -/
theorem doExit_spec (h : FilesInv s) (hp : FilesOp.Live s p) (hmm : s.mm p ≠ none)
    (hrun : s.doExit p = .ok s') : FilesInv s' := by
  obtain ⟨m, hm⟩ := Option.ne_none_iff_exists'.mp hmm
  unfold doExit at hrun
  split at hrun
  · cases hrun
  · simp only [hm, bind, Except.bind] at hrun
    cases hput : (s.dropMm p m).putFiles p with
    | error e => simp [hput] at hrun
    | ok t =>
        rw [hput] at hrun
        rw [← Except.ok.inj hrun]
        have hdrop : FilesInv (s.dropMm p m) :=
          ⟨h.nodup, h.files, ⟨h.ok.count, h.ok.used⟩, h.stale⟩
        exact putFiles_spec hdrop hp hput

/-- An end without an address space keeps the reference. -/
theorem doExit_keeps (h : FilesInv s) (hp : FilesOp.Live s p) (hmm : s.mm p = none)
    (hrun : s.doExit p = .ok s') : ¬ FilesCounted s' := by
  intro hok
  obtain ⟨f, hf⟩ := h.files p hp
  obtain ⟨filesp, hfilesp⟩ := exists_files h.ok hp hf
  have hcount := h.ok.count f filesp hfilesp
  have hleave := users_leave h.nodup hp hf f
  rw [if_pos rfl] at hleave
  unfold doExit at hrun
  split at hrun
  · cases hrun
  · simp only [hmm, bind, Except.bind] at hrun
    rw [← Except.ok.inj hrun] at hok
    have hcount' := hok.count f filesp hfilesp
    rw [users_zombie] at hcount'
    omega

/-! ### The other calls -/

/-- `copy_mm` has nothing to do with files. It fails when there is no memory for a duplicate. -/
theorem copyMm_same {cloneVm b : Bool} {current : P} {fresh : Option M}
    (hrun : s.copyMm cloneVm current proc fresh = (b, t)) :
    (b = true ↔ s.mm current = none ∨ cloneVm = true ∨ fresh ≠ none) ∧
      t.procs = s.procs ∧ t.zombie = s.zombie ∧ t.filesp = s.filesp ∧ t.files = s.files ∧
      t.stale = s.stale := by
  unfold copyMm at hrun
  cases hmm : s.mm current with
  | none =>
      rw [hmm] at hrun
      obtain ⟨rfl, rfl⟩ := Prod.mk.inj hrun
      exact ⟨by simp, rfl, rfl, rfl, rfl, rfl⟩
  | some old =>
      simp only [hmm] at hrun
      cases cloneVm <;> cases fresh <;>
        · obtain ⟨rfl, rfl⟩ := Prod.mk.inj hrun
          exact ⟨by simp, rfl, rfl, rfl, rfl, rfl⟩

/-- The new process in front of the others: nobody has lost or got a reference. -/
theorem newProc_spec (h : FilesInv s) (hproc : proc ∉ s.procs) (hprocs : t.procs = proc :: s.procs)
    (hzombie : t.zombie = Function.update s.zombie proc false)
    (hfilesp : t.filesp = Function.update s.filesp proc none) (hfiles : t.files = s.files) :
    NewProc t proc s.procs ∧ FilesCounted t := by
  have husers : ∀ g, t.users g = s.users g := by
    intro g
    unfold users
    rw [hprocs, List.filter_cons_of_neg (by simp [hfilesp])]
    refine List.filter_congr fun q hq => ?_
    have hne : q ≠ proc := fun heq => hproc (heq ▸ hq)
    rw [hzombie, hfilesp, Function.update_of_ne hne, Function.update_of_ne hne]
  refine ⟨⟨hprocs, ?_, ?_, ?_⟩, fun g filesp hg => ?_, fun g => ?_⟩
  · rw [hprocs]
    exact List.nodup_cons.mpr ⟨hproc, h.nodup⟩
  · rw [hzombie, Function.update_self]
  · rw [hfilesp, Function.update_self]
  · rw [husers]
    exact h.ok.count g filesp (hfiles ▸ hg)
  · rw [husers, hfiles]
    exact h.ok.used g

/-- `do_fork` gives the new process files, or nothing is linked. Else the process that is linked has
none, and its struct is freed. -/
theorem doFork_spec {cloneVm cloneFs : Bool} {current : P} {alloc : ForkAlloc F M} (h : FilesInv s)
    (hcurrent : current ∈ s.procs) (hproc : proc ∉ s.procs)
    (hfresh : ∀ f, alloc.files = some f → s.files f = none)
    (hrun : s.doFork cloneVm cloneFs current proc alloc = .ok s') :
    (FilesOp.KeepsFiles s (.fork cloneVm cloneFs current proc alloc) → FilesInv s') ∧
      (¬ FilesOp.KeepsFiles s (.fork cloneVm cloneFs current proc alloc) → ¬ FilesOk s') := by
  -- a call that links nothing changes nothing
  have hkeep : (.ok s : Except Halt (FileUsers P F M)) = .ok s' →
      ¬ FilesOp.LinksProc s cloneVm current alloc →
      (FilesOp.KeepsFiles s (.fork cloneVm cloneFs current proc alloc) → FilesInv s') ∧
        (¬ FilesOp.KeepsFiles s (.fork cloneVm cloneFs current proc alloc) → ¬ FilesOk s') :=
    fun heq hno => ⟨fun _ => Except.ok.inj heq ▸ h, fun hnot => absurd (fun hl => absurd hl hno) hnot⟩
  have hne : current ≠ proc := fun heq => hproc (heq ▸ hcurrent)
  unfold doFork at hrun
  split at hrun
  · exact hkeep hrun fun hl => by have := hl.1; omega
  rename_i hroom
  split at hrun
  · rename_i hno
    exact hkeep hrun fun hl => by simp [hl.2.1] at hno
  rename_i hstruct
  dsimp only at hrun
  split at hrun
  · rename_i hno
    exact hkeep hrun fun hl => by simp [hl.2.2.1] at hno
  rename_i hstack
  split at hrun
  · rename_i hmm
    have hiff := (copyMm_same hmm).1
    dsimp only at hiff
    rw [Function.update_of_ne hne] at hiff
    exact hkeep hrun fun hl => Bool.false_ne_true (hiff.mpr hl.2.2.2)
  · rename_i s₂ hmm
    obtain ⟨hiff, hprocs, hzombie, hfilesp, hfiles, hstale⟩ := copyMm_same hmm
    dsimp only at hiff hprocs hzombie hfilesp hfiles
    rw [Function.update_of_ne hne] at hiff
    have hlinks : FilesOp.LinksProc s cloneVm current alloc :=
      ⟨Nat.lt_of_not_le hroom, Bool.eq_true_of_not_eq_false hstruct,
        Bool.eq_true_of_not_eq_false hstack, hiff.mp rfl⟩
    obtain ⟨hnew, hok⟩ := newProc_spec (t := { s₂ with procs := proc :: s₂.procs }) h hproc
      (congrArg (proc :: ·) hprocs) hzombie hfilesp hfiles
    simp only [bind, Except.bind] at hrun
    cases hcopy : copyFiles { s₂ with procs := proc :: s₂.procs } cloneFs current proc alloc.files with
    | error e => simp [hcopy] at hrun
    | ok r =>
        obtain ⟨ok, s₄⟩ := r
        rw [hcopy] at hrun
        obtain ⟨hok₄, hprocs₄, hzombie₄, hstale₄, hmem₄, hgot⟩ :=
          copyFiles_spec hnew hok (fun f hf => hfiles.symm ▸ hfresh f hf) hcopy
        cases ok with
        | false =>
            -- the process is in the lists, and has no files
            refine ⟨fun hkeeps => absurd (hmem₄.mpr (hkeeps hlinks)) Bool.false_ne_true,
              fun _ hbad => ?_⟩
            simp only [Bool.false_eq_true, if_false] at hrun hgot
            rw [← Except.ok.inj hrun] at hbad
            have hlive : FilesOp.Live { s₄ with stale := true } proc := by
              refine ⟨?_, ?_⟩
              · dsimp only
                rw [hprocs₄, hnew.procs]
                exact List.mem_cons_self
              · dsimp only
                rw [hzombie₄]
                exact hnew.live
            obtain ⟨f, hf⟩ := hbad.held proc hlive
            dsimp only at hf
            rw [hgot, hnew.filesp] at hf
            cases hf
        | true =>
            refine ⟨fun _ => ?_, fun hnot => absurd (fun _ => hmem₄.mp rfl) hnot⟩
            simp only [if_true] at hrun hgot
            rw [← Except.ok.inj hrun]
            obtain ⟨f, hfilesp₄⟩ := hgot
            refine ⟨hprocs₄ ▸ hnew.nodup, fun q hq => ?_, hok₄,
              hstale₄.trans (hstale.trans h.stale)⟩
            obtain ⟨hmem, hlive⟩ := hq
            rw [hfilesp₄]
            by_cases hqp : q = proc
            · exact ⟨f, by rw [hqp, Function.update_self]⟩
            · rw [Function.update_of_ne hqp]
              rw [hfilesp, Function.update_of_ne hqp]
              rw [hprocs₄, hnew.procs] at hmem
              rw [hzombie₄] at hlive
              dsimp only at hlive
              rw [hzombie, Function.update_of_ne hqp] at hlive
              exact h.files q ⟨(List.mem_cons.mp hmem).resolve_left hqp, hlive⟩

/-- Without its address space a process has still its files. -/
theorem filesInv_withMm (h : FilesInv s) (mm : P → Option M) (mmCount : M → Int) :
    FilesInv { s with mm := mm, mmCount := mmCount } :=
  ⟨h.nodup, h.files, ⟨h.ok.count, h.ok.used⟩, h.stale⟩

/-- `do_wait` frees the struct of a zombie, which uses nothing. -/
theorem reap_spec {child : P} (h : FilesInv s) (hzombie : s.zombie child = true)
    (hrun : s.reap child = .ok s') : FilesInv s' := by
  unfold reap at hrun
  split at hrun
  · cases hrun
  · rw [← Except.ok.inj hrun]
    have husers : ∀ g, users { s with procs := s.procs.erase child } g = s.users g := by
      intro g
      unfold users
      dsimp only
      rw [h.nodup.erase_eq_filter, List.filter_filter]
      refine List.filter_congr fun q _ => ?_
      by_cases hq : q = child
      · simp [hq, hzombie]
      · simp [hq]
    refine ⟨h.nodup.erase _, fun q hq => ?_, ⟨fun g filesp hg => ?_, fun g => ?_⟩, h.stale⟩
    · exact h.files q ⟨List.mem_of_mem_erase hq.1, hq.2⟩
    · rw [husers]
      exact h.ok.count g filesp hg
    · rw [husers]
      exact h.ok.used g

/-- Whatever it had, the process has no address space then. -/
theorem releaseMm_spec (h : FilesInv s) (p : P) : FilesInv (s.releaseMm p) ∧
    (s.releaseMm p).procs = s.procs ∧ (s.releaseMm p).zombie = s.zombie ∧
      (s.releaseMm p).mm p = none := by
  unfold releaseMm
  cases hm : s.mm p with
  | none => exact ⟨h, rfl, rfl, hm⟩
  | some old => exact ⟨filesInv_withMm h _ _, rfl, rfl, Function.update_self ..⟩

/-- `do_execve`: the ends behind `sysfile_open` and `load_icode`. -/
theorem doExecve_spec {outcome : ExecOutcome M} (h : FilesInv s) (hp : FilesOp.Live s p)
    (hrun : s.doExecve p outcome = .ok s') :
    (FilesOp.KeepsFiles s (.exec (F := F) p outcome) → FilesInv s') ∧
      (¬ FilesOp.KeepsFiles s (.exec (F := F) p outcome) → ¬ FilesOk s') := by
  -- One case for each end of the call. `files_closeall` comes first in all but the first one.
  cases outcome with
  | refused =>
      rw [doExecve] at hrun
      rw [← Except.ok.inj hrun]
      exact ⟨fun _ => h, fun hnot => absurd trivial hnot⟩
  | noFile =>
      simp only [doExecve, bind, Except.bind] at hrun
      cases hclose : s.filesCloseall p with
      | error e => simp [hclose] at hrun
      | ok t =>
          rw [hclose] at hrun
          obtain ⟨ht, hprocs, hzombie, hmm, -⟩ := filesCloseall_spec h hclose
          have hlive : FilesOp.Live t p := ⟨hprocs ▸ hp.1, hzombie ▸ hp.2⟩
          exact ⟨fun hcond => doExit_spec ht hlive (hmm ▸ hcond) hrun,
            fun hnot hok => doExit_keeps ht hlive (hmm ▸ not_not.mp hnot) hrun hok.toFilesCounted⟩
  | loaded m =>
      simp only [doExecve, bind, Except.bind] at hrun
      cases hclose : s.filesCloseall p with
      | error e => simp [hclose] at hrun
      | ok t =>
          rw [hclose] at hrun
          dsimp only at hrun
          cases hopen : t.sysfileOpen p with
          | error e => simp [hopen] at hrun
          | ok r =>
              obtain ⟨b, u⟩ := r
              obtain ⟨rfl, hu, -, -⟩ := sysfileOpen_spec h hclose hopen
              rw [hopen] at hrun
              rw [← Except.ok.inj hrun]
              exact ⟨fun _ => filesInv_withMm (releaseMm_spec hu p).1 _ _,
                fun hnot => absurd trivial hnot⟩
  -- `load_icode` failed. Its address space is gone by then, so `execve_exit` ends a process without
  -- one, and `do_exit` leaves the table of files as it is. Unless `ret` is 0, and then there is no
  -- exit.
  | notLoaded ret =>
      simp only [doExecve, bind, Except.bind] at hrun
      cases hclose : s.filesCloseall p with
      | error e => simp [hclose] at hrun
      | ok t =>
          rw [hclose] at hrun
          dsimp only at hrun
          obtain ⟨-, hprocs, hzombie, -⟩ := filesCloseall_spec h hclose
          cases hopen : t.sysfileOpen p with
          | error e => simp [hopen] at hrun
          | ok r =>
              obtain ⟨b, u⟩ := r
              obtain ⟨rfl, hu, hprocs', hzombie'⟩ := sysfileOpen_spec h hclose hopen
              obtain ⟨hrel, hprocs'', hzombie'', hmm⟩ := releaseMm_spec hu p
              have hlive : FilesOp.Live (u.releaseMm p) p := by
                constructor
                · rw [hprocs'', hprocs', hprocs]
                  exact hp.1
                · rw [hzombie'', hzombie', hzombie]
                  exact hp.2
              rw [hopen] at hrun
              simp only [Bool.true_eq_false, if_false] at hrun
              by_cases hret : ret = 0
              · rw [if_neg (not_not.mpr hret)] at hrun
                rw [← Except.ok.inj hrun]
                exact ⟨fun _ => hrel, fun hnot => absurd hret hnot⟩
              · rw [if_pos hret] at hrun
                exact ⟨fun hcond => absurd hcond hret,
                  fun _ hok => doExit_keeps hrel hlive hmm hrun hok.toFilesCounted⟩

/-- One call: it keeps the references right when the condition holds, and breaks them when not. -/
theorem step_spec {op : FilesOp P F M} (h : FilesInv s) (hen : op.Enabled s)
    (hrun : op.exec' s = .ok s') :
    (FilesOp.KeepsFiles s op → FilesInv s') ∧ (¬ FilesOp.KeepsFiles s op → ¬ FilesOk s') := by
  cases op with
  | fork cloneVm cloneFs current proc alloc =>
      exact doFork_spec h hen.1.1 hen.2.1 hen.2.2 hrun
  | exit p =>
      exact ⟨fun hmm => doExit_spec h hen hmm hrun,
        fun hnot hok => doExit_keeps h hen (not_not.mp hnot) hrun hok.toFilesCounted⟩
  | reap child => exact ⟨fun _ => reap_spec h hen.2 hrun, fun hnot => absurd trivial hnot⟩
  | fileCall p opened =>
      refine ⟨fun _ => ?_, fun hnot => absurd trivial hnot⟩
      obtain ⟨f, hf⟩ := h.files p hen
      obtain ⟨filesp, hfilesp⟩ := exists_files h.ok hen hf
      simp only [FilesOp.exec', hf, hfilesp, Option.map_some] at hrun
      rw [← Except.ok.inj hrun]
      exact h.setOpened hfilesp rfl
  | exec p outcome => exact doExecve_spec h hen hrun

/-! ### Runs -/

/-- The invariant holds behind `proc_init`. -/
theorem filesProcInit_inv (idleproc initproc : P) (f : F) :
    FilesInv (filesProcInit (M := M) idleproc initproc f) := by
  have husers : ∀ g, (filesProcInit (M := M) idleproc initproc f).users g =
      if f = g then [idleproc] else [] := by
    intro g
    unfold users filesProcInit
    by_cases hg : f = g
    · simp [hg]
    · simp [hg]
  have hfiles : ∀ g, (filesProcInit (M := M) idleproc initproc f).files g =
      if f = g then some ⟨1, []⟩ else none := by
    intro g
    show Function.update (fun _ => none) f (some (FilesStruct.mk 1 [])) g = _
    by_cases hg : f = g
    · simp [hg]
    · rw [if_neg hg, Function.update_of_ne (Ne.symm hg)]
  refine ⟨List.nodup_singleton _, fun p hp => ⟨f, ?_⟩, ⟨fun g filesp hg => ?_, fun g => ?_⟩, rfl⟩
  · show Function.update (fun _ => none) idleproc (some f) p = some f
    rw [List.mem_singleton.mp hp.1, Function.update_self]
  · rw [husers]
    rw [hfiles] at hg
    split at hg
    · rename_i hfg
      rw [if_pos hfg, ← Option.some.inj hg]
      rfl
    · cases hg
  · rw [husers, hfiles]
    split <;> simp

/-- The invariant holds in every state of a run that meets the condition. -/
theorem filesRun_inv (h : FilesRun FilesOp.KeepsFiles s) : FilesInv s := by
  induction h with
  | init idleproc initproc f => exact filesProcInit_inv idleproc initproc f
  | step op _ _ hen hcond hrun ih => exact (step_spec ih hen hrun).1 hcond

/-- Take a run in which whoever ends has an address space, and in which there is memory for the
files of every process that `do_fork` puts into the lists. Then every live process has files, every
count is the number of the live users, exactly the structures without a user are destroyed, and no
process struct is freed that is in the lists. A call that does not meet the condition breaks this. -/
theorem files_released :
    (∀ s : FileUsers P F M, FilesRun FilesOp.KeepsFiles s → FilesOk s ∧ s.stale = false) ∧
      ∀ (s s' : FileUsers P F M) (op : FilesOp P F M), FilesRun FilesOp.KeepsFiles s →
        op.Enabled s → op.exec' s = .ok s' → ¬ FilesOp.KeepsFiles s op → ¬ FilesOk s' := by
  refine ⟨fun s h => ?_, fun s s' op h hen hrun => (step_spec (filesRun_inv h) hen hrun).2⟩
  have hinv := filesRun_inv h
  exact ⟨⟨hinv.ok, hinv.files⟩, hinv.stale⟩

/-- `do_fork` with memory for everything, and the files duplicated into the structure `f`. -/
def forkInto (f : Nat) : ForkAlloc Nat Nat := ⟨true, true, none, some f⟩

/-- `idle` makes `init`, which makes `user_main`. This one gets a program, and makes a process that
shares its files. Both end, first `user_main`: the files are destroyed with the second one, which had
the descriptor that `do_execve` leaves open. -/
theorem files_released_userMain : ∃ s t : FileUsers Nat Nat Nat,
    FilesRun FilesOp.KeepsFiles s ∧ s.users 2 = [3, 2] ∧ s.files 2 = some ⟨2, [0]⟩ ∧
    FilesRun FilesOp.KeepsFiles t ∧ FilesOk t ∧ t.users 2 = [] ∧ t.files 2 = none := by
  have hidle : FilesRun FilesOp.KeepsFiles (filesProcInit (M := Nat) 0 1 0) := .init 0 1 0
  have hinit := hidle.step (.fork true false 0 1 (forkInto 1)) rfl
    ⟨⟨by decide, rfl⟩, by decide, fun f hf => by cases hf; rfl⟩ (fun _ => by simp [forkInto]) rfl
  have hmain := hinit.step (.fork true false 1 2 (forkInto 2)) rfl
    ⟨⟨by decide, rfl⟩, by decide, fun f hf => by cases hf; rfl⟩ (fun _ => by simp [forkInto]) rfl
  have hexec := hmain.step (.exec 2 (.loaded 7)) rfl ⟨by decide, rfl⟩ trivial rfl
  have hshare := hexec.step (.fork true true 2 3 ⟨true, true, none, none⟩) rfl
    ⟨⟨by decide, rfl⟩, by decide, fun f hf => by cases hf⟩ (fun _ => Or.inl rfl) rfl
  have hexit := hshare.step (.exit 2) rfl ⟨by decide, rfl⟩ (Option.some_ne_none 7) rfl
  have hlast := hexit.step (.exit 3) rfl ⟨by decide, rfl⟩ (Option.some_ne_none 7) rfl
  exact ⟨_, _, hshare, rfl, rfl, hlast, (files_released.1 _ hlast).1, rfl, rfl⟩

/-- `user_main` is a kernel thread. Its program cannot be loaded, and it ends: nobody uses its
files, and the count is still one. The descriptor of the program is open, for good. -/
theorem files_kept_userMain : ∃ s : FileUsers Nat Nat Nat,
    FilesRun (fun _ _ => True) s ∧ s.users 2 = [] ∧ s.files 2 = some ⟨1, [0]⟩ ∧ ¬ FilesOk s := by
  have hidle : FilesRun (fun _ _ => True) (filesProcInit (M := Nat) 0 1 0) := .init 0 1 0
  have hinit := hidle.step (.fork true false 0 1 (forkInto 1)) rfl
    ⟨⟨by decide, rfl⟩, by decide, fun f hf => by cases hf; rfl⟩ trivial rfl
  have hmain := hinit.step (.fork true false 1 2 (forkInto 2)) rfl
    ⟨⟨by decide, rfl⟩, by decide, fun f hf => by cases hf; rfl⟩ trivial rfl
  have hexec := hmain.step (.exec 2 (.notLoaded (-8))) rfl ⟨by decide, rfl⟩ trivial rfl
  exact ⟨_, hexec, rfl, rfl, fun hok => absurd (hok.count 2 ⟨1, [0]⟩ rfl) (by decide)⟩

end Ucore.Proofs.Process
