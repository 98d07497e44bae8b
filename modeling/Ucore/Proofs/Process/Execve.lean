import Ucore.Process.Execve
import Ucore.Proofs.Process.MmRun

/-!
# `Ucore.Proofs.Process.Execve`: the arguments of a new program

`load_icode` leaves zero in all registers but `sp`, and nothing closes the descriptor of the program
file: when a load fails, the process has no address space, and then `do_exit` keeps the files. So a
call that has opened the file is never right (`do_execve_never_right`).

## What a call does to the files

`KeepsFiles` says of a function that it returns with the files as they were. It composes, and holds
of everything that `do_execve` does before it closes the files and behind `sysfile_open`: copying
the name, the path and the arguments, and the whole of `load_icode`, whose reads go through a
parameter. So a call is cut into three: the part in front, in which a refusal leaves the process as
it was; `files_closeall` and `sysfile_open`; and the rest, at the end of which the descriptor is
still open (`ends_do_execve_load`, `ends_do_execve_enter`).

## How a call ends

`NeverRight` is the disjunction that holds of every accepted call: no program was loaded and no
descriptor was opened, or the descriptor is open. When a program has been loaded, `a0` is zero and
not the number of the arguments (`not_argsOnStack`). When none has, `put_mm` has taken the address
space and `do_exit` does not come to the files (`ends_do_exit`).

`do_execve_oneArgument` is a call with one argument that loads a program and shows both.
-/

set_option autoImplicit false

namespace Ucore.Proofs.Process

open Ucore.Lib Ucore.Mm Ucore.Process

variable {κ : Type} {al : Allocators} {s : Execve κ} {α : Type}

/-! ### What leaves the files as they are -/

/-- A function over the memory and the heap changes nothing else. -/
theorem ends_onNew {x : NewMmM κ α} {Q : α → Execve κ → Prop} {E : Int → Execve κ → Prop}
    (hQ : ∀ a new, Q a { s with new := new }) (hE : ∀ e new, E e { s with new := new }) :
    (onNew x).Ends s Q E fun _ => True := by
  unfold onNew
  rw [Routine.ends_within]
  unfold Routine.Ends
  cases x s.new with
  | error h => trivial
  | ok r =>
      obtain ⟨r, new⟩ := r
      cases r with
      | ok a => exact hQ a new
      | error e => exact hE e new

/-- The function returns no error. -/
def NeverFails (x : NewMmM κ α) : Prop :=
  ∀ t, x.Ends t (fun _ _ => True) (fun _ _ => False) fun _ => True

/-- One function after another never fails when neither does. -/
theorem NeverFails.bind {β : Type} {x : NewMmM κ α} {f : α → NewMmM κ β} (hx : NeverFails x)
    (hf : ∀ a, NeverFails (f a)) : NeverFails (x >>= f) :=
  fun t => (hx t).seq (fun a t' _ => hf a t') (fun _ _ h => h) fun _ h => h

/-- A function of the memory has no error to return. -/
theorem neverFails_onVm (f : Vm κ → Except Halt (α × Vm κ)) : NeverFails (onVm f) := by
  intro t
  unfold Routine.Ends onVm
  cases f t.vm with
  | error h => trivial
  | ok r => trivial

/-- The induction is on the addresses. -/
theorem neverFails_kfreeAll (ps : List Nat) : NeverFails (kfreeAll ps : NewMmM κ Unit) := by
  induction ps with
  | nil => exact fun _ => trivial
  | cons p ps ih => exact .bind (fun _ => trivial) fun _ => ih

/-- `mm_destroy` has no error to return. -/
theorem neverFails_mm_destroy (mm : Nat) : NeverFails (mm_destroy mm : NewMmM κ Unit) := by
  refine .bind (fun _ => trivial) fun vmas => .bind (neverFails_kfreeAll vmas) fun _ => ?_
  exact .bind (fun _ => trivial) fun _ _ => trivial

/-- A function that returns no error, over the memory and the heap. -/
theorem NeverFails.ends {x : NewMmM κ α} (hx : NeverFails x) {Q : α → Execve κ → Prop}
    (hQ : ∀ a new, Q a { s with new := new }) :
    (onNew x).Ends s Q (fun _ _ => False) fun _ => True := by
  unfold onNew
  rw [Routine.ends_within]
  exact (hx s.new).mono (fun a new _ => hQ a new) (fun _ _ h => h) fun _ h => h

/-- The function returns with the same files. -/
def KeepsFiles (x : ExecM κ α) : Prop :=
  ∀ s, x.Ends s (fun _ s' => s'.filesp = s.filesp) (fun _ s' => s'.filesp = s.filesp) fun _ => True

/-- One function after another keeps the files when both do. -/
theorem KeepsFiles.bind {β : Type} {x : ExecM κ α} {f : α → ExecM κ β} (hx : KeepsFiles x)
    (hf : ∀ a, KeepsFiles (f a)) : KeepsFiles (x >>= f) := by
  intro s
  refine (hx s).seq (fun a s' h => ?_) (fun _ _ h => h) fun _ h => h
  refine (hf a s').mono (fun _ _ h' => h'.trans h) (fun _ _ h' => h'.trans h) fun _ h' => h'

/-- A function and the cleanup for its errors keep the files when both do. -/
theorem KeepsFiles.handle {x : ExecM κ α} {f : Int → ExecM κ α} (hx : KeepsFiles x)
    (hf : ∀ e, KeepsFiles (f e)) : KeepsFiles (x.handle f) := by
  intro s
  rw [Routine.ends_handle]
  refine (hx s).mono (fun _ _ h => h) (fun e s' h => ?_) fun _ h => h
  exact (hf e s').mono (fun _ _ h' => h'.trans h) (fun _ _ h' => h'.trans h) fun _ h' => h'

/-- A branch keeps the files when both sides do. -/
theorem KeepsFiles.ite {p : Prop} [Decidable p] {x y : ExecM κ α} (hx : KeepsFiles x)
    (hy : KeepsFiles y) : KeepsFiles (if p then x else y) := by
  split_ifs
  · exact hx
  · exact hy

/-- A result keeps the files. -/
theorem keepsFiles_pure (a : α) : KeepsFiles (pure a : ExecM κ α) := fun _ => rfl

/-- An error keeps the files. -/
theorem keepsFiles_fail (e : Int) : KeepsFiles (Routine.fail e : ExecM κ α) := fun _ => rfl

/-- A read keeps the files. -/
theorem keepsFiles_read (f : Execve κ → α) : KeepsFiles (Routine.read f) := fun _ => rfl

/-- The functions of the new address space keep the files. -/
theorem keepsFiles_onNew (x : NewMmM κ α) : KeepsFiles (onNew x) :=
  fun _ => ends_onNew (fun _ _ => rfl) fun _ _ => rfl

/-- `copy_string` keeps the files. -/
theorem keepsFiles_copy_string (buffer : Bytes) (src maxn : Nat) :
    KeepsFiles (copy_string buffer src maxn : ExecM κ (Bool × Bytes)) := by
  intro s
  unfold Routine.Ends copy_string
  cases copyString (s.mm.map fun mm => mm.areas) s.user buffer 0 src maxn with
  | error h => trivial
  | ok r => rfl

/-- `user_mem_check` keeps the files. -/
theorem keepsFiles_mem_check (addr len : Nat) :
    KeepsFiles (execve_mem_check addr len : ExecM κ Bool) := by
  intro s
  unfold Routine.Ends execve_mem_check
  cases userMemCheck (s.mm.map fun mm => mm.areas) addr len false with
  | error h => trivial
  | ok r => rfl

/-- `put_kargv` keeps the files. -/
theorem keepsFiles_put_kargv (kargv : List Karg) : KeepsFiles (put_kargv kargv : ExecM κ Unit) :=
  keepsFiles_onNew _

/-- The induction is on the arguments that are left. -/
theorem keepsFiles_copy_kargv_loop [DecidableEq κ] (junk : Bytes) (argv : Nat) : ∀ (n i : Nat) (kargv : List Karg),
    KeepsFiles (copy_kargv_loop al junk argv n i kargv : ExecM κ (List Karg)) := by
  intro n
  induction n with
  | zero => exact fun _ kargv => keepsFiles_pure kargv
  | succ n ih =>
      intro i kargv
      rw [copy_kargv_loop]
      refine .bind (.handle (keepsFiles_onNew _) fun ret => ?_) fun buffer => ?_
      · exact .bind (keepsFiles_put_kargv _) fun _ => keepsFiles_fail _
      · refine .bind (keepsFiles_read _) fun src => ?_
        refine .bind (keepsFiles_copy_string _ _ _) fun r => .ite ?_ (ih _ _)
        refine .bind (keepsFiles_onNew _) fun _ => ?_
        exact .bind (keepsFiles_put_kargv _) fun _ => keepsFiles_fail _

/-- `copy_kargv` keeps the files. -/
theorem keepsFiles_copy_kargv [DecidableEq κ] (junk : Bytes) (argc argv : Nat) :
    KeepsFiles (copy_kargv al junk argc argv : ExecM κ (List Karg)) := by
  refine .bind (keepsFiles_mem_check _ _) fun ok => .ite (keepsFiles_fail _) ?_
  exact keepsFiles_copy_kargv_loop _ _ _ _ _

/-- The copy of the name keeps the files. -/
theorem keepsFiles_copy_name (name : Option Nat) : KeepsFiles (copy_name name : ExecM κ Unit) := by
  cases name with
  | none => exact keepsFiles_pure ()
  | some name =>
      refine .bind (keepsFiles_copy_string _ _ _) fun r => .ite (keepsFiles_fail _) ?_
      exact keepsFiles_pure ()

/-- `copy_path` keeps the files. -/
theorem keepsFiles_copy_path (junk : Bytes) (path : Nat) :
    KeepsFiles (copy_path al junk path : ExecM κ Karg) := by
  refine .bind (keepsFiles_onNew _) fun buffer => ?_
  refine .bind (keepsFiles_copy_string _ _ _) fun r => .ite ?_ (keepsFiles_pure _)
  exact .bind (keepsFiles_onNew _) fun _ => keepsFiles_fail _

/-! ### The descriptor of the program file -/

/-- The descriptor is open. -/
def IsOpen (s : Execve κ) (fd : Nat) : Prop := ∃ filesp, s.filesp = some filesp ∧ fd ∈ filesp.opened

/-- A descriptor that is open is not closed. -/
theorem IsOpen.not_closed {fd : Nat} (h : IsOpen s fd) : ¬ Closed s fd := by
  obtain ⟨filesp, hfilesp, hfd⟩ := h
  exact fun hclosed => hclosed filesp hfilesp hfd

/-- Whether a descriptor is open depends on the files only. -/
theorem IsOpen.congr {s' : Execve κ} {fd : Nat} (h : IsOpen s fd) (heq : s'.filesp = s.filesp) :
    IsOpen s' fd := by
  obtain ⟨filesp, hfilesp, hfd⟩ := h
  exact ⟨filesp, heq.trans hfilesp, hfd⟩

/-- `file_open` returns a descriptor that is open. -/
theorem ends_file_open (vfs : Vfs) (path : Bytes) :
    (file_open vfs path).Ends s (fun r s' => IsOpen s' r.1) (fun _ _ => True) fun _ => True := by
  unfold file_open
  rw [Routine.ends_bind]
  have halloc : fd_array_alloc.Ends s (fun _ s' => s' = s ∧ s.filesp ≠ none) (fun _ _ => True)
      fun _ => True := by
    unfold Routine.Ends fd_array_alloc
    cases hfilesp : s.filesp with
    | none => trivial
    | some filesp =>
        dsimp only
        cases (List.range FILES_STRUCT_NENTRY).find? fun fd => fd ∉ filesp.opened with
        | none => trivial
        | some fd => exact ⟨rfl, by simp⟩
  refine halloc.mono ?_ (fun _ _ h => h) fun _ h => h
  rintro fd s' ⟨rfl, hsome⟩
  obtain ⟨filesp, hfilesp⟩ := Option.ne_none_iff_exists'.mp hsome
  cases vfs.find path with
  | error ret => trivial
  | ok file =>
      unfold fd_array_open
      rw [Routine.ends_bind, Routine.ends_modify, Routine.ends_pure, hfilesp]
      exact ⟨_, rfl, List.mem_cons_self⟩

/-- The descriptor that `sysfile_open` returns is open. -/
theorem ends_sysfile_open (vfs : Vfs) (junk : Bytes) (path : Nat) :
    (sysfile_open al vfs junk path).Ends s (fun r s' => IsOpen s' r.1) (fun _ _ => True)
      fun _ => True := by
  refine (keepsFiles_copy_path junk path s).seq (fun to_ s₁ _ => ?_) (fun _ _ _ => trivial)
    fun _ h => h
  rw [Routine.ends_bind]
  refine (ends_file_open vfs to_.str).attempt (fun r s₂ hopen => ?_) (fun ret s₂ _ => ?_)
    fun _ h => h
  · rw [Routine.ends_bind]
    exact ends_onNew (fun _ _ => hopen) fun _ _ => trivial
  · rw [Routine.ends_bind]
    exact ends_onNew (fun _ _ => trivial) fun _ _ => trivial

/-- `files_closeall` returns no error. -/
theorem ends_files_closeall : (files_closeall : ExecM κ Unit).Ends s (fun _ _ => True)
    (fun _ _ => False) fun _ => True := by
  unfold Routine.Ends files_closeall
  cases s.filesp with
  | none => trivial
  | some filesp =>
      dsimp only
      split_ifs <;> trivial

/-- `put_files` returns no error. -/
theorem ends_put_files : (put_files : ExecM κ Unit).Ends s (fun _ _ => True) (fun _ _ => False)
    fun _ => True := by
  unfold Routine.Ends put_files
  cases s.filesp with
  | none => trivial
  | some filesp =>
      dsimp only
      split_ifs <;> trivial

/-- A zero in `a0` is not the number of the arguments. -/
theorem not_argsOnStack {vm : Vm κ} {dir : κ} {tf : Trapframe} {args : List (List UInt8)}
    (ha0 : tf.gpr 10 = 0) (hargs : args ≠ []) : ¬ ArgsOnStack vm dir tf args := by
  intro h
  have hlen : args.length = 0 := h.1.symm.trans ha0
  exact hargs (List.length_eq_zero_iff.mp hlen)

/-- What is said of the end of a call that has been accepted. -/
structure NeverRight (dir : κ) (args : List (List UInt8)) (r : ExecveEnd) (s : Execve κ) : Prop where
  right_iff : ExecveRight dir args r s ↔ r.fd = none
  args : ∀ fd, r = .done fd true → ¬ ArgsOnStack s.new.vm dir s.tf args
  closed : ∀ fd, r.fd = some fd → ¬ Closed s fd

/-- An end without a descriptor: no program was loaded, and nothing is left open. -/
theorem neverRight_of_none {dir : κ} {args : List (List UInt8)} {r : ExecveEnd}
    (hfd : r.fd = none) : NeverRight dir args r s where
  right_iff := by
    refine ⟨fun _ => hfd, fun _ => ⟨fun fd hr => ?_, fun fd hr => ?_⟩⟩
    · simp [hr, ExecveEnd.fd] at hfd
    · simp [hr] at hfd
  args := fun fd hr => by simp [hr, ExecveEnd.fd] at hfd
  closed := fun fd hr => by simp [hr] at hfd

/-- An end with its descriptor open is not right: the descriptor should be closed, and there are
arguments that are nowhere. -/
theorem neverRight_of_open {dir : κ} {args : List (List UInt8)} {r : ExecveEnd} {fd : Nat}
    (hargs : args ≠ []) (hfd : r.fd = some fd) (hopen : IsOpen s fd)
    (ha0 : r = .done fd true → s.tf.gpr 10 = 0) : NeverRight dir args r s where
  right_iff := by
    refine ⟨fun hright => absurd (hright.closed fd hfd) hopen.not_closed, fun hno => ?_⟩
    simp [hfd] at hno
  args := by
    intro fd' hr
    have heq : fd' = fd := by simpa [hr, ExecveEnd.fd] using hfd
    exact not_argsOnStack (ha0 (heq ▸ hr)) hargs
  closed := by
    intro fd' hr
    have heq : fd' = fd := by simpa [hr] using hfd
    exact heq ▸ hopen.not_closed

/-! ### The call -/

variable [DecidableEq κ]

/-- `put_mm` leaves the process without an address space. -/
theorem ends_put_mm (mm : ProcMm κ) :
    (put_mm al mm).Ends s (fun _ s' => s'.mm = none ∧ s'.filesp = s.filesp) (fun _ _ => False)
      fun _ => True := by
  unfold put_mm
  rw [Routine.ends_bind, Routine.ends_when]
  split_ifs
  · refine NeverFails.ends ?_ fun _ _ => ⟨rfl, rfl⟩
    refine .bind (fun _ => trivial) fun _ => .bind ?_ fun _ => ?_
    · exact .bind (fun _ => trivial) fun _ => neverFails_onVm _
    · exact .bind (neverFails_onVm _) fun _ => neverFails_mm_destroy _
  · exact ⟨rfl, rfl⟩

/-- Without an address space, `do_exit` keeps the files. -/
theorem ends_do_exit :
    (do_exit al).Ends s (fun _ s' => s.mm = none → s'.filesp = s.filesp) (fun _ _ => False)
      fun _ => True := by
  unfold do_exit
  rw [Routine.ends_bind, Routine.ends_assert]
  split_ifs
  · rw [Routine.ends_bind, Routine.ends_read]
    cases hmm : s.mm with
    | none => exact fun _ => rfl
    | some mm =>
        refine (ends_put_mm mm).seq (fun _ s₁ _ => ?_) (fun _ _ h => h) fun _ h => h
        exact ends_put_files.mono (fun _ _ _ hno => by cases hno) (fun _ _ h => h) fun _ h => h

/-- The label `execve_exit` ends the process. Without an address space `do_exit` leaves the files
alone. -/
theorem ends_execve_exit {kargv : List Karg} {fd : Option Nat} {ret : Int} :
    (execve_exit al kargv fd ret).Ends s
      (fun r s' => r = .exited fd ret ∧ (s.mm = none → s'.filesp = s.filesp)) (fun _ _ => False)
      fun _ => True := by
  unfold execve_exit put_kargv
  rw [Routine.ends_bind]
  refine (neverFails_kfreeAll _).ends fun _ new => ?_
  refine ends_do_exit.seq (fun _ s₁ h => ?_) (fun _ _ h => h) fun _ h => h
  exact ⟨rfl, h⟩

/-- Once the old address space is gone: the descriptor stays open, and a program that has been loaded
has a zero in `a0`. -/
theorem ends_do_execve_enter {dir : κ} {kargv : List Karg} {fd : Nat} {file : ProgramFile}
    (hmm : s.mm = none) (hopen : IsOpen s fd) :
    (do_execve_enter al dir kargv fd file).Ends s
      (fun r s' => r.fd = some fd ∧ IsOpen s' fd ∧ (r = .done fd true → s'.tf.gpr 10 = 0))
      (fun _ _ => False) fun _ => True := by
  unfold do_execve_enter
  rw [Routine.ends_bind, Routine.ends_attempt]
  refine ends_onNew (fun loaded new => ?_) fun ret new => ?_
  · -- `memset` has cleared the registers
    unfold load_icode_current put_kargv
    rw [Routine.ends_bind, Routine.ends_modify, Routine.ends_bind]
    exact (neverFails_kfreeAll _).ends fun _ _ => ⟨rfl, hopen, fun _ => rfl⟩
  · rw [Routine.ends_ite]
    split_ifs with hret
    · -- the process exits without an address space
      refine ends_execve_exit.mono ?_ (fun _ _ h => h) fun _ h => h
      rintro r s' ⟨rfl, heq⟩
      exact ⟨rfl, hopen.congr (heq hmm), fun hno => by cases hno⟩
    · unfold put_kargv
      rw [Routine.ends_bind]
      refine (neverFails_kfreeAll _).ends fun _ _ => ⟨rfl, hopen, fun hno => ?_⟩
      cases hno

/-- From `load_icode` on, the descriptor stays open, and a program that starts has 0 in `a0`. -/
theorem ends_do_execve_load {dir : κ} {kargv : List Karg} {fd : Nat} {file : ProgramFile}
    (hopen : IsOpen s fd) :
    (do_execve_load al dir kargv fd file).Ends s
      (fun r s' => r.fd = some fd ∧ IsOpen s' fd ∧ (r = .done fd true → s'.tf.gpr 10 = 0))
      (fun _ _ => False) fun _ => True := by
  unfold do_execve_load
  rw [Routine.ends_bind, Routine.ends_read]
  cases hmm : s.mm with
  | none => exact ends_do_execve_enter hmm hopen
  | some mm =>
      rw [Routine.ends_bind]
      refine (ends_put_mm mm).mono ?_ (fun _ _ h => h) fun _ h => h
      rintro _ s₁ ⟨hnone, hfilesp⟩
      exact ends_do_execve_enter hnone (hopen.congr hfilesp)

/-- A call that is refused before it closes the files leaves them as they are. A call that goes on is
right only where there is no program file to open: once it is open, its descriptor stays so, and a
program that has been loaded does not find its arguments. -/
theorem do_execve_never_right (al : Allocators) (dir : κ) (vfs : Vfs) (junk : Bytes)
    (name : Option Nat) (argc : Int) (argv : Nat) (s : Execve κ) :
    (do_execve al dir vfs junk name argc argv).Ends s
      (fun r s' => NeverRight dir ((List.range argc.toNat).map (argString s.user argv)) r s')
      (fun _ s' => s'.filesp = s.filesp) fun _ => True := by
  unfold do_execve
  rw [Routine.ends_ite]
  split_ifs with hargc
  swap
  · exact (Routine.ends_fail _).mpr rfl
  have hargs : (List.range argc.toNat).map (argString s.user argv) ≠ [] := by
    simp
    omega
  refine (keepsFiles_copy_name name s).seq (fun _ s₁ h₁ => ?_) (fun _ _ h => h) fun _ h => h
  refine (keepsFiles_copy_kargv junk _ argv s₁).seq (fun kargv s₂ h₂ => ?_)
    (fun _ _ h => h.trans h₁) fun _ h => h
  rw [Routine.ends_bind, Routine.ends_read]
  refine ends_files_closeall.seq (fun _ s₃ _ => ?_) (fun _ _ h => h.elim) fun _ h => h
  rw [Routine.ends_bind]
  refine (ends_sysfile_open vfs junk _).attempt (fun r s₄ hopen => ?_) (fun ret s₄ _ => ?_)
    fun _ h => h
  · refine (ends_do_execve_load hopen).mono ?_ (fun _ _ h => h.elim) fun _ h => h
    rintro r' s' ⟨hfd, hopen', ha0⟩
    exact neverRight_of_open hargs hfd hopen' ha0
  · refine ends_execve_exit.mono ?_ (fun _ _ h => h.elim) fun _ h => h
    rintro r' s' ⟨rfl, -⟩
    exact neverRight_of_none rfl

/-! ### A program without segments -/

/-- The bytes of the file: a header with no program headers. -/
def emptyProgramBytes : List UInt8 := [0x7f, 0x45, 0x4c, 0x46] ++ List.replicate 60 0

/-- The file, of which each read within it succeeds. -/
def emptyProgram : ProgramFile where
  bytes := emptyProgramBytes
  read := fun _ off len =>
    if off + len ≤ emptyProgramBytes.length then .ok ((emptyProgramBytes.drop off).take len)
    else .error (-1)
  read_ok := by
    intro n off len bs h
    split_ifs at h with hle
    exact ⟨hle, (Except.ok.inj h).symm⟩
  read_error := by
    intro n off len ret h
    split_ifs at h
    exact Except.error.inj h ▸ by decide

/-- It is found for every path. -/
def emptyProgramVfs : Vfs where
  find := fun _ => .ok emptyProgram
  find_error := fun h => by cases h

/-- A process with an area of one page: at its start, an array of one pointer to the string of the
letter `a`. The structure, the area and the two descriptors are in use. -/
def oneArgument : Execve Bool where
  new := ⟨Ucore.Proofs.Mm.emptySpaces Bool, ⟨fun p => decide (p < 2), 2, [.alloc 1, .alloc 0]⟩, noAreas, [], 0⟩
  mm := some
    { mm := 0, pgdir := 9, dir := false, areas := ⟨[⟨0x200000, 0x201000, vmRead⟩], none, 1⟩
      vmas := [1], mm_count := 1 }
  user := Bytes.overlay (fun _ => 0) 0x200000
    (toLe 8 0x200008 ++ [97, 0])
  filesp := some { count := 1, opened := [0, 1] }
  tf := { gpr := fun _ => 7, epc := 0x200800 }
  special := false

/-- The program is loaded: `a0` is 0 and not 1, and the descriptor 2 of the file stays open. -/
theorem do_execve_oneArgument :
    ∃ s', do_execve pagesAndHeap false emptyProgramVfs (fun _ => 0) none 1 0x200000 oneArgument =
        .ok (.ok (.done 2 true), s') ∧
      argString oneArgument.user 0x200000 0 = [97, 0] ∧
      ¬ ArgsOnStack s'.new.vm false s'.tf [[97, 0]] ∧ ¬ Closed s' 2 := by
  obtain ⟨⟨r, s'⟩, hrun, hr⟩ := exists_of_map
    (x := do_execve pagesAndHeap false emptyProgramVfs (fun _ => 0) none 1 0x200000 oneArgument)
    (f := fun p => (p.1.toOption, p.2.tf.gpr 10, p.2.filesp))
    (b := (some (.done 2 true), 0, some { count := 1, opened := [2, 0, 1] }))
    (by decide +kernel)
  obtain ⟨hdone, hrest⟩ := Prod.mk.inj hr
  obtain ⟨ha0, hfiles⟩ := Prod.mk.inj hrest
  refine ⟨s', ?_, by decide +kernel, not_argsOnStack ha0 (by simp), fun hclosed => ?_⟩
  · cases r with
    | error e => cases hdone
    | ok r =>
        obtain rfl : r = .done 2 true := Option.some.inj hdone
        exact hrun
  · exact absurd (hclosed _ hfiles) (by decide)

end Ucore.Proofs.Process
