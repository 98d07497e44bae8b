import Mathlib

/-!
# `Ucore.Lib.Semaphore`: processes that share counting semaphores

A program gives every process an instruction at every label. `down` takes a unit of a
semaphore or puts the process to sleep in the queue of the semaphore, `up` hands the unit
to the first sleeper or adds it to the value, and the other instructions change the label
and the shared memory. One step is one instruction of one process that is awake, so the
processes run in any order.

Some of the semaphores pass a *token*. A process is `active` from the moment one of its
downs on such a semaphore is granted until its next up on one. `Effect` says what a step
can do to everything but the queues, and `TokenInv` is the rule of split binary
semaphores: if every process goes down before it goes up, then the values of these
semaphores and the active processes sum to a constant. With the constant one, at most one
process is active.
-/

set_option autoImplicit false

namespace Ucore.Lib

/-- A semaphore and the processes that sleep in its queue, the next one first. -/
structure Semaphore (P : Type) where
  value : Int
  queue : List P

/-- One instruction, over the semaphores `S`, the labels `L` and the memory `M`. -/
inductive Instr (S L M : Type)
  /-- Go down on a semaphore, then to a label. -/
  | down (x : S) (next : L)
  /-- Go up on a semaphore, then to a label. -/
  | up (x : S) (next : L)
  /-- Read and change the memory. -/
  | exec (f : M → L × M)
  /-- Go to any of some labels. -/
  | choose (next : L → Prop)

/-- What each process does at each label, and which semaphores pass the token. -/
structure Program (P S L M : Type) where
  instr : P → L → Instr S L M
  token : S → Bool

/-- The state of the processes. -/
structure Conf (P S L M : Type) where
  sem : S → Semaphore P
  pc : P → L
  asleep : P → Bool
  active : P → Bool
  mem : M

section

variable {P S L M : Type} [DecidableEq P] [DecidableEq S] (prog : Program P S L M)

namespace Conf

variable (s : Conf P S L M)

/-- The value of a semaphore. -/
def val (x : S) : Int := (s.sem x).value

/-- Put a value into a semaphore. -/
def setVal (x : S) (v : Int) : Conf P S L M :=
  { s with sem := Function.update s.sem x { s.sem x with value := v } }

/-- Put a queue into a semaphore. -/
def setQueue (x : S) (q : List P) : Conf P S L M :=
  { s with sem := Function.update s.sem x { s.sem x with queue := q } }

/-- The process goes on at a label. -/
def goTo (p : P) (l : L) : Conf P S L M := { s with pc := Function.update s.pc p l }

/-- The process goes to sleep in the queue of a semaphore, at its `down`. -/
def block (p : P) (x : S) : Conf P S L M :=
  { s.setQueue x ((s.sem x).queue ++ [p]) with asleep := Function.update s.asleep p true }

/-- The down of the process on `x` is granted. -/
def grant (p : P) (x : S) (l : L) : Conf P S L M :=
  { s.goTo p l with active := Function.update s.active p (s.active p || prog.token x) }

/-- A process goes down. -/
def down (p : P) (x : S) (l : L) : Conf P S L M :=
  if 0 < s.val x then (s.setVal x (s.val x - 1)).grant prog p x l else s.block p x

/-- The label behind the `down` at which a process sleeps. -/
def wakeLabel (q : P) : L :=
  match prog.instr q (s.pc q) with
  | .down _ l => l
  | _ => s.pc q

/-- The process leaves an `up`. -/
def release (p : P) (x : S) (l : L) : Conf P S L M :=
  { s.goTo p l with active := Function.update s.active p (s.active p && !prog.token x) }

/-- A sleeper wakes, and its down is granted. -/
def wake (q : P) (x : S) : Conf P S L M :=
  { s.grant prog q x (s.wakeLabel prog q) with asleep := Function.update s.asleep q false }

/-- A process goes up. -/
def up (p : P) (x : S) (l : L) : Conf P S L M :=
  let s := s.release prog p x l
  match (s.sem x).queue with
  | [] => s.setVal x (s.val x + 1)
  | q :: qs => (s.setQueue x qs).wake prog q x

end Conf

/-- One instruction of the process `p`, which is awake. -/
inductive Step (p : P) (s : Conf P S L M) : Conf P S L M → Prop
  | down (x : S) (l : L) : s.asleep p = false → prog.instr p (s.pc p) = .down x l →
      Step p s (s.down prog p x l)
  | up (x : S) (l : L) : s.asleep p = false → prog.instr p (s.pc p) = .up x l →
      Step p s (s.up prog p x l)
  | exec (f : M → L × M) : s.asleep p = false → prog.instr p (s.pc p) = .exec f →
      Step p s { s.goTo p (f s.mem).1 with mem := (f s.mem).2 }
  | choose (R : L → Prop) (l : L) : s.asleep p = false →
      prog.instr p (s.pc p) = .choose R → R l → Step p s (s.goTo p l)

/-- Any number of steps of any processes. -/
inductive Run (s : Conf P S L M) : Conf P S L M → Prop
  | refl : Run s s
  | step {t u : Conf P S L M} (p : P) : Run s t → Step prog p t u → Run s u

/-- What every step preserves, every run preserves. -/
theorem Run.invariant {I : Conf P S L M → Prop} (hstep : ∀ p s s', I s → Step prog p s s' → I s')
    {s t : Conf P S L M} (hs : I s) (h : Run prog s t) : I t := by
  induction h with
  | refl => exact hs
  | step p _ hst ih => exact hstep p _ _ ih hst

/-- The next instruction of the process `p`, unless it sleeps or has a choice. -/
def Conf.next (p : P) (s : Conf P S L M) : Option (Conf P S L M) :=
  if s.asleep p then none
  else match prog.instr p (s.pc p) with
    | .down x l => some (s.down prog p x l)
    | .up x l => some (s.up prog p x l)
    | .exec f => some { s.goTo p (f s.mem).1 with mem := (f s.mem).2 }
    | .choose _ => none

/-- The processes of a list take their next instructions in turn. -/
def Conf.schedule : List P → Conf P S L M → Option (Conf P S L M)
  | [], s => some s
  | p :: ps, s => (s.next prog p).bind (schedule ps)

/-- What `next` computes is a step. -/
theorem step_of_next {p : P} {s s' : Conf P S L M} (h : s.next prog p = some s') :
    Step prog p s s' := by
  unfold Conf.next at h
  split at h
  · cases h
  · rename_i hawake
    rw [Bool.not_eq_true] at hawake
    split at h
    · rename_i x l hinstr
      cases h
      exact .down x l hawake hinstr
    · rename_i x l hinstr
      cases h
      exact .up x l hawake hinstr
    · rename_i f hinstr
      cases h
      exact .exec f hawake hinstr
    · cases h

/-- The steps of a schedule make a run longer. -/
theorem run_of_schedule {ps : List P} {r s s' : Conf P S L M} (hr : Run prog r s)
    (h : s.schedule prog ps = some s') : Run prog r s' := by
  induction ps generalizing s with
  | nil =>
      cases h
      exact hr
  | cons p ps ih =>
      obtain ⟨t, ht, hrest⟩ := Option.bind_eq_some_iff.mp h
      exact ih (.step p hr (step_of_next prog ht)) hrest

/-- Steps that stay in states of a kind. -/
inductive RunWhile (A : Conf P S L M → Prop) (s : Conf P S L M) : Conf P S L M → Prop
  | refl : A s → RunWhile A s s
  | step {t u : Conf P S L M} (p : P) : RunWhile A s t → Step prog p t u → A u →
      RunWhile A s u

/-- What every step within the kind preserves, every such run preserves. -/
theorem RunWhile.invariant {A I : Conf P S L M → Prop}
    (hstep : ∀ p s s', A s → I s → Step prog p s s' → A s' → I s')
    {s t : Conf P S L M} (hs : I s) (h : RunWhile prog A s t) : A t ∧ I t := by
  induction h with
  | refl hA => exact ⟨hA, hs⟩
  | step p _ hst hA ih => exact ⟨hA, hstep p _ _ ih.1 ih.2 hst hA⟩

/-- A run in which something holds is a run. -/
theorem RunWhile.run {A : Conf P S L M → Prop} {s t : Conf P S L M}
    (h : RunWhile prog A s t) : Run prog s t := by
  induction h with
  | refl _ => exact .refl
  | step p _ hst _ ih => exact .step p ih hst

/-- One run after another. -/
theorem Run.trans {s t u : Conf P S L M} (h : Run prog s t) (h' : Run prog t u) :
    Run prog s u := by
  induction h' with
  | refl => exact h
  | step p _ hst ih => exact .step p ih hst

/-- The step from `s` to `s'` grants the process `q` its down on `x`. -/
def GetsIn (x : S) (q : P) (s s' : Conf P S L M) : Prop :=
  (∃ l, prog.instr q (s.pc q) = .down x l) ∧ s.active q = false ∧ s'.active q = true

/-! ### Queues -/

/-- The sleepers of a semaphore are the processes at a `down` on it that are not awake,
each once, and nobody sleeps while there is a unit to take. -/
structure Queued (s : Conf P S L M) : Prop where
  mem_iff : ∀ x p, p ∈ (s.sem x).queue ↔
    s.asleep p = true ∧ ∃ l, prog.instr p (s.pc p) = .down x l
  nodup : ∀ x, (s.sem x).queue.Nodup
  nonneg : ∀ x, 0 ≤ s.val x
  full : ∀ x, 0 < s.val x → (s.sem x).queue = []

/-- What a step does to everything but the queues. -/
inductive Effect (p : P) (s s' : Conf P S L M) : Prop
  /-- A down that finds a unit. -/
  | grant (x : S) (l : L) (hinstr : prog.instr p (s.pc p) = .down x l) (hval : 0 < s.val x)
      (pc : s'.pc = Function.update s.pc p l)
      (val : s'.val = Function.update s.val x (s.val x - 1))
      (asleep : s'.asleep = s.asleep)
      (active : s'.active = Function.update s.active p (s.active p || prog.token x))
      (mem : s'.mem = s.mem)
  /-- A down that does not. -/
  | block (x : S) (l : L) (hinstr : prog.instr p (s.pc p) = .down x l) (hval : s.val x = 0)
      (pc : s'.pc = s.pc) (val : s'.val = s.val)
      (asleep : s'.asleep = Function.update s.asleep p true)
      (active : s'.active = s.active) (mem : s'.mem = s.mem)
  /-- An up that nobody waits for. -/
  | release (x : S) (l : L) (hinstr : prog.instr p (s.pc p) = .up x l)
      (hnone : ∀ q l', s.asleep q = true → prog.instr q (s.pc q) ≠ .down x l')
      (pc : s'.pc = Function.update s.pc p l)
      (val : s'.val = Function.update s.val x (s.val x + 1))
      (asleep : s'.asleep = s.asleep)
      (active : s'.active = Function.update s.active p (s.active p && !prog.token x))
      (mem : s'.mem = s.mem)
  /-- An up that wakes `q`. -/
  | handOff (x : S) (l : L) (q : P) (l' : L) (hinstr : prog.instr p (s.pc p) = .up x l)
      (hne : q ≠ p) (hasleep : s.asleep q = true) (hq : prog.instr q (s.pc q) = .down x l')
      (hval : s.val x = 0)
      (pc : s'.pc = Function.update (Function.update s.pc p l) q l')
      (val : s'.val = s.val)
      (asleep : s'.asleep = Function.update s.asleep q false)
      (active : s'.active = Function.update
        (Function.update s.active p (s.active p && !prog.token x)) q
          (s.active q || prog.token x))
      (mem : s'.mem = s.mem)
  /-- An instruction on the memory. -/
  | exec (f : M → L × M) (hinstr : prog.instr p (s.pc p) = .exec f)
      (pc : s'.pc = Function.update s.pc p (f s.mem).1) (val : s'.val = s.val)
      (asleep : s'.asleep = s.asleep) (active : s'.active = s.active)
      (mem : s'.mem = (f s.mem).2)
  /-- A choice. -/
  | choose (R : L → Prop) (l : L) (hinstr : prog.instr p (s.pc p) = .choose R) (hl : R l)
      (pc : s'.pc = Function.update s.pc p l) (val : s'.val = s.val)
      (asleep : s'.asleep = s.asleep) (active : s'.active = s.active) (mem : s'.mem = s.mem)

variable {prog} {s s' : Conf P S L M} {p : P}

omit [DecidableEq P] in
/-- Setting a value changes one semaphore. -/
theorem val_setVal (s : Conf P S L M) (x : S) (v : Int) :
    (s.setVal x v).val = Function.update s.val x v := by
  funext y
  by_cases hy : y = x
  · subst hy
    simp [Conf.val, Conf.setVal]
  · simp [Conf.val, Conf.setVal, hy]

omit [DecidableEq P] in
/-- Setting a queue leaves the values. -/
theorem val_setQueue (s : Conf P S L M) (x : S) (q : List P) : (s.setQueue x q).val = s.val := by
  funext y
  by_cases hy : y = x
  · subst hy
    simp [Conf.val, Conf.setQueue]
  · simp [Conf.val, Conf.setQueue, hy]

/-- What one step does. -/
theorem Step.effect (hq : Queued prog s) (h : Step prog p s s') : Effect prog p s s' := by
  cases h with
  | down x l hawake hinstr =>
      unfold Conf.down
      by_cases hval : 0 < s.val x
      · rw [if_pos hval]
        exact .grant x l hinstr hval rfl (val_setVal ..) rfl rfl rfl
      · rw [if_neg hval]
        have hzero : s.val x = 0 := le_antisymm (not_lt.mp hval) (hq.nonneg x)
        exact .block x l hinstr hzero rfl (val_setQueue ..) rfl rfl rfl
  | up x l hawake hinstr =>
      unfold Conf.up
      dsimp only
      have hsem : ((s.release prog p x l).sem x).queue = (s.sem x).queue := rfl
      cases hqueue : (s.sem x).queue with
      | nil =>
          rw [hsem, hqueue]
          refine .release x l hinstr ?_ rfl (val_setVal ..) rfl rfl rfl
          intro q l' hasleep hdown
          have hmem := (hq.mem_iff x q).mpr ⟨hasleep, l', hdown⟩
          rw [hqueue] at hmem
          cases hmem
      | cons q qs =>
          rw [hsem, hqueue]
          dsimp only
          have hmem : q ∈ (s.sem x).queue := by
            rw [hqueue]
            exact List.mem_cons_self
          obtain ⟨hasleep, l', hdown⟩ := (hq.mem_iff x q).mp hmem
          have hne : q ≠ p := by
            rintro rfl
            rw [hasleep] at hawake
            cases hawake
          have hval : s.val x = 0 := by
            have hle : ¬ 0 < s.val x := fun hpos => by
              have hnil := hq.full x hpos
              rw [hqueue] at hnil
              cases hnil
            exact le_antisymm (not_lt.mp hle) (hq.nonneg x)
          -- The sleeper goes on behind its own `down`.
          generalize ht : (s.release prog p x l).setQueue x qs = t
          have hpc : t.pc = Function.update s.pc p l := by
            rw [← ht]
            rfl
          have hact : t.active = Function.update s.active p (s.active p && !prog.token x) := by
            rw [← ht]
            rfl
          have hval' : t.val = s.val := by
            rw [← ht]
            exact val_setQueue ..
          have hlabel : t.wakeLabel prog q = l' := by
            unfold Conf.wakeLabel
            rw [hpc, Function.update_of_ne hne, hdown]
          refine .handOff x l q l' hinstr hne hasleep hdown hval ?_ hval' ?_ ?_ ?_
          · show Function.update t.pc q (t.wakeLabel prog q) = _
            rw [hlabel, hpc]
          · show Function.update t.asleep q false = _
            rw [← ht]
            rfl
          · show Function.update t.active q (t.active q || prog.token x) = _
            rw [hact, Function.update_of_ne hne]
          · show t.mem = _
            rw [← ht]
            rfl
  | exec f hawake hinstr => exact .exec f hinstr rfl rfl rfl rfl rfl
  | choose R l hawake hinstr hl => exact .choose R l hinstr hl rfl rfl rfl rfl rfl

omit [DecidableEq P] [DecidableEq S] in
/-- An awake process may go anywhere. -/
theorem Queued.move {t : Conf P S L M} (hq : Queued prog s) (hawake : s.asleep p = false)
    (hqueue : ∀ x, (t.sem x).queue = (s.sem x).queue) (hasleep : t.asleep = s.asleep)
    (hpc : ∀ q, q ≠ p → t.pc q = s.pc q) (hnonneg : ∀ x, 0 ≤ t.val x)
    (hfull : ∀ x, 0 < t.val x → (s.sem x).queue = []) : Queued prog t := by
  refine ⟨?_, fun x => ?_, hnonneg, fun x hx => ?_⟩
  · intro x q
    rw [hqueue, hq.mem_iff, hasleep]
    by_cases hqp : q = p
    · subst hqp
      simp [hawake]
    · rw [hpc q hqp]
  · rw [hqueue]
    exact hq.nodup x
  · rw [hqueue]
    exact hfull x hx

/-- A process that falls asleep at its `down` is the last in the queue. -/
theorem Queued.block (hq : Queued prog s) {x : S} {l : L} (hawake : s.asleep p = false)
    (hinstr : prog.instr p (s.pc p) = .down x l) (hval : s.val x = 0) :
    Queued prog (s.block p x) := by
  -- A process that is awake is in no queue.
  have hp : ∀ y, p ∉ (s.sem y).queue := by
    intro y hmem
    have hsleep := ((hq.mem_iff y p).mp hmem).1
    rw [hawake] at hsleep
    cases hsleep
  have hqueue : ∀ y, ((s.block p x).sem y).queue =
      if y = x then (s.sem x).queue ++ [p] else (s.sem y).queue := by
    intro y
    by_cases hy : y = x
    · subst hy
      simp [Conf.block, Conf.setQueue]
    · simp [Conf.block, Conf.setQueue, hy]
  have hvals : (s.block p x).val = s.val := val_setQueue ..
  refine ⟨?_, ?_, ?_, ?_⟩
  -- The sleepers at `y`: `p` joins those at `x`.
  · intro y q
    rw [hqueue]
    show _ ↔ Function.update s.asleep p true q = true ∧ _
    by_cases hqp : q = p
    · subst hqp
      rw [Function.update_self]
      show _ ↔ true = true ∧ ∃ l, prog.instr q (s.pc q) = .down y l
      rw [hinstr]
      by_cases hy : y = x
      · subst hy
        simp
      · have hxy : x ≠ y := Ne.symm hy
        simp [hy, hp y, hxy]
    · rw [Function.update_of_ne hqp]
      show _ ↔ s.asleep q = true ∧ ∃ l, prog.instr q (s.pc q) = .down y l
      rw [← hq.mem_iff]
      by_cases hy : y = x
      · subst hy
        simp [hqp]
      · simp [hy]
  · intro y
    rw [hqueue]
    split
    · exact List.nodup_append.mpr ⟨hq.nodup x, List.nodup_singleton p, by
        intro a ha b hb heq
        rw [List.mem_singleton] at hb
        exact hp x (hb ▸ heq ▸ ha)⟩
    · exact hq.nodup y
  · intro y
    rw [hvals]
    exact hq.nonneg y
  · intro y hy
    rw [hvals] at hy
    rw [hqueue]
    split
    · rename_i hyx
      subst hyx
      omega
    · exact hq.full y hy

/-- The first of the queue wakes. -/
theorem Queued.wake (hq : Queued prog s) {x : S} {l : L} {q : P} {qs : List P}
    (hawake : s.asleep p = false) (hqueue : (s.sem x).queue = q :: qs) :
    Queued prog (((s.release prog p x l).setQueue x qs).wake prog q x) := by
  generalize ht : ((s.release prog p x l).setQueue x qs).wake prog q x = t
  have hmem : ∀ y, (t.sem y).queue = if y = x then qs else (s.sem y).queue := by
    intro y
    rw [← ht]
    by_cases hy : y = x
    · subst hy
      simp [Conf.wake, Conf.grant, Conf.goTo, Conf.setQueue]
    · simp [Conf.wake, Conf.grant, Conf.goTo, Conf.setQueue, Conf.release, hy]
  have hvals : t.val = s.val := by
    rw [← ht]
    exact val_setQueue ..
  have hasleep : t.asleep = Function.update s.asleep q false := by
    rw [← ht]
    rfl
  have hpc : ∀ r, r ≠ p → r ≠ q → t.pc r = s.pc r := by
    intro r hrp hrq
    rw [← ht]
    exact (Function.update_of_ne hrq _ _).trans (Function.update_of_ne hrp _ _)
  -- `q` is in the queue of `x` only, and once.
  have hnodup := hq.nodup x
  rw [hqueue, List.nodup_cons] at hnodup
  refine ⟨?_, ?_, ?_, ?_⟩
  · intro y r
    rw [hmem, hasleep]
    by_cases hrq : r = q
    · subst hrq
      rw [Function.update_self]
      -- The woken process is in no queue: it has left the one of `x`, and its next instruction is a
      -- `down` on `x`, not on another semaphore.
      have hout : r ∉ (if y = x then qs else (s.sem y).queue) := by
        split
        · exact hnodup.1
        · rename_i hy
          intro hr
          obtain ⟨-, l₁, h₁⟩ := (hq.mem_iff y r).mp hr
          obtain ⟨-, l₂, h₂⟩ := (hq.mem_iff x r).mp (by rw [hqueue]; exact List.mem_cons_self)
          rw [h₁] at h₂
          cases h₂
          exact hy rfl
      simp [hout]
    · rw [Function.update_of_ne hrq]
      have hin : r ∈ (if y = x then qs else (s.sem y).queue) ↔ r ∈ (s.sem y).queue := by
        split
        · rename_i hy
          subst hy
          rw [hqueue, List.mem_cons]
          simp [hrq]
        · rfl
      rw [hin, hq.mem_iff]
      -- The process at the `up` is awake before and behind it.
      by_cases hrp : r = p
      · subst hrp
        simp [hawake]
      · rw [hpc r hrp hrq]
  · intro y
    rw [hmem]
    split
    · exact hnodup.2
    · exact hq.nodup y
  · intro y
    rw [hvals]
    exact hq.nonneg y
  · intro y hy
    rw [hvals] at hy
    rw [hmem]
    split
    · rename_i hyx
      subst hyx
      have hnil := hq.full y hy
      rw [hqueue] at hnil
      cases hnil
    · exact hq.full y hy

/-- Every step keeps the queues in order. -/
theorem Queued.step (hq : Queued prog s) (h : Step prog p s s') : Queued prog s' := by
  -- A `down` or an `up` changes one semaphore; the other instructions change the label of the
  -- process that runs, which sleeps nowhere.
  cases h with
  | down x l hawake hinstr =>
      unfold Conf.down
      by_cases hval : 0 < s.val x
      · rw [if_pos hval]
        have hvals : ((s.setVal x (s.val x - 1)).grant prog p x l).val =
            Function.update s.val x (s.val x - 1) := val_setVal ..
        refine hq.move hawake ?_ rfl (fun q hqp => Function.update_of_ne hqp _ _) ?_ ?_
        · intro y
          by_cases hy : y = x
          · subst hy
            simp [Conf.grant, Conf.goTo, Conf.setVal]
          · simp [Conf.grant, Conf.goTo, Conf.setVal, hy]
        · intro y
          rw [hvals]
          by_cases hy : y = x
          · subst hy
            rw [Function.update_self]
            omega
          · rw [Function.update_of_ne hy]
            exact hq.nonneg y
        · intro y hy
          rw [hvals] at hy
          by_cases hyx : y = x
          · subst hyx
            exact hq.full y hval
          · rw [Function.update_of_ne hyx] at hy
            exact hq.full y hy
      · rw [if_neg hval]
        exact hq.block hawake hinstr (le_antisymm (not_lt.mp hval) (hq.nonneg x))
  | up x l hawake hinstr =>
      unfold Conf.up
      dsimp only
      have hsem : ((s.release prog p x l).sem x).queue = (s.sem x).queue := rfl
      cases hqueue : (s.sem x).queue with
      | nil =>
          rw [hsem, hqueue]
          dsimp only
          have hvals : ((s.release prog p x l).setVal x ((s.release prog p x l).val x + 1)).val =
              Function.update s.val x (s.val x + 1) := val_setVal ..
          refine hq.move hawake ?_ rfl (fun q hqp => Function.update_of_ne hqp _ _) ?_ ?_
          · intro y
            by_cases hy : y = x
            · subst hy
              simp [Conf.setVal, Conf.release, Conf.goTo]
            · simp [Conf.setVal, Conf.release, Conf.goTo, hy]
          · intro y
            rw [hvals]
            by_cases hy : y = x
            · subst hy
              rw [Function.update_self]
              have hnn := hq.nonneg y
              omega
            · rw [Function.update_of_ne hy]
              exact hq.nonneg y
          · intro y hy
            rw [hvals] at hy
            by_cases hyx : y = x
            · subst hyx
              exact hqueue
            · rw [Function.update_of_ne hyx] at hy
              exact hq.full y hy
      | cons q qs =>
          rw [hsem, hqueue]
          exact hq.wake hawake hqueue
  | exec f hawake hinstr =>
      exact hq.move hawake (fun _ => rfl) rfl (fun q hqp => Function.update_of_ne hqp _ _)
        hq.nonneg hq.full
  | choose R l hawake hinstr hl =>
      exact hq.move hawake (fun _ => rfl) rfl (fun q hqp => Function.update_of_ne hqp _ _)
        hq.nonneg hq.full

/-- A counter in the memory that follows the labels: only the instructions on the memory
change it, and they change it as they change the weight of the label. -/
structure Counts (prog : Program P S L M) (κ : L → Int) (γ : M → Int) : Prop where
  down : ∀ p l x l', prog.instr p l = .down x l' → κ l' = κ l
  up : ∀ p l x l', prog.instr p l = .up x l' → κ l' = κ l
  exec : ∀ p l f, prog.instr p l = .exec f → ∀ m, γ (f m).2 = γ m + κ (f m).1 - κ l
  choose : ∀ p l R, prog.instr p l = .choose R → ∀ l', R l' → κ l' = κ l

/-- A sum over a function that changes at one place. -/
theorem sum_update {α β : Type} [Fintype α] [DecidableEq α] (g : α → β → Int) (f : α → β) (a : α)
    (v : β) : ∑ x, g x (Function.update f a v x) = (∑ x, g x (f x)) - g a (f a) + g a v := by
  have ha : a ∈ (Finset.univ : Finset α) := Finset.mem_univ a
  have hrest : ∑ x ∈ Finset.univ.erase a, g x (Function.update f a v x) =
      ∑ x ∈ Finset.univ.erase a, g x (f x) := by
    apply Finset.sum_congr rfl
    intro x hx
    rw [Function.update_of_ne (Finset.ne_of_mem_erase hx)]
  rw [← Finset.add_sum_erase _ _ ha, ← Finset.add_sum_erase _ (fun x => g x (f x)) ha, hrest,
    Function.update_self]
  ring

/-- A count is positive when there is something to count. -/
theorem sum_pos_iff {α : Type} [Fintype α] (b : α → Bool) :
    (0 < ∑ x, if b x then (1 : Int) else 0) ↔ ∃ x, b x = true := by
  constructor
  · intro h
    obtain ⟨x, -, hx⟩ := Finset.exists_ne_zero_of_sum_ne_zero (ne_of_gt h)
    exact ⟨x, by simpa using hx⟩
  · rintro ⟨x, hx⟩
    have hle := Finset.single_le_sum (f := fun x => if b x then (1 : Int) else 0)
      (fun y _ => by split <;> decide) (Finset.mem_univ x)
    simp only [hx, if_true] at hle
    omega

/-- The counter is the weight of all labels, before a step and after it. -/
theorem Counts.step [Fintype P] {κ : L → Int} {γ : M → Int} (hc : Counts prog κ γ)
    (he : Effect prog p s s') (hs : γ s.mem = ∑ q, κ (s.pc q)) :
    γ s'.mem = ∑ q, κ (s'.pc q) := by
  have hsum : ∀ (pc : P → L) q l, ∑ r, κ (Function.update pc q l r) =
      (∑ r, κ (pc r)) - κ (pc q) + κ l :=
    fun pc q l => sum_update (fun _ (m : L) => κ m) pc q l
  cases he with
  | grant x l hinstr hval pc val asleep active mem =>
      rw [mem, pc, hsum, hc.down p _ x l hinstr, hs]
      ring
  | block x l hinstr hval pc val asleep active mem =>
      rw [mem, pc, hs]
  | release x l hinstr hnone pc val asleep active mem =>
      rw [mem, pc, hsum, hc.up p _ x l hinstr, hs]
      ring
  | handOff x l q l' hinstr hne hasleep hdown hval pc val asleep active mem =>
      rw [mem, pc, hsum, hsum, Function.update_of_ne hne, hc.up p _ x l hinstr,
        hc.down q _ x l' hdown, hs]
      ring
  | exec f hinstr pc val asleep active mem =>
      rw [mem, pc, hsum, hc.exec p _ f hinstr, hs]
      ring
  | choose R l hinstr hl pc val asleep active mem =>
      rw [mem, pc, hsum, hc.choose p _ R hinstr l hl, hs]
      ring

/-! ### Tokens -/

section Tokens

variable [Fintype P] [Fintype S]

variable (prog)

/-- The units of the semaphores that pass the token, and the active processes. -/
def tokens (s : Conf P S L M) : Int :=
  (∑ x, if prog.token x then s.val x else 0) + ∑ p, if s.active p then 1 else 0

/-- The labels that a process comes to, and those at which it holds the token: it goes down
on one of the semaphores only without it, and up only with it. -/
structure Bracketed (ok : P → L → Prop) (holds : P → L → Bool) : Prop where
  down : ∀ p l x l', ok p l → prog.instr p l = .down x l' → ok p l' ∧
    if prog.token x then holds p l = false ∧ holds p l' = true else holds p l' = holds p l
  up : ∀ p l x l', ok p l → prog.instr p l = .up x l' → ok p l' ∧
    if prog.token x then holds p l = true ∧ holds p l' = false else holds p l' = holds p l
  exec : ∀ p l f, ok p l → prog.instr p l = .exec f → ∀ m,
    ok p (f m).1 ∧ holds p (f m).1 = holds p l
  choose : ∀ p l R, ok p l → prog.instr p l = .choose R → ∀ l', R l' →
    ok p l' ∧ holds p l' = holds p l

/-- The active processes are those at the labels with the token, and there is one token. -/
structure TokenInv (ok : P → L → Prop) (holds : P → L → Bool) (s : Conf P S L M) : Prop where
  queued : Queued prog s
  ok : ∀ p, ok p (s.pc p)
  active : ∀ p, s.active p = holds p (s.pc p)
  one : tokens prog s = 1

variable {prog} {ok : P → L → Prop} {holds : P → L → Bool}

/-- Every step keeps the token invariant. -/
theorem TokenInv.step (hb : Bracketed prog ok holds) (hi : TokenInv prog ok holds s)
    (h : Step prog p s s') : TokenInv prog ok holds s' := by
  have hq := hi.queued.step h
  have hone := hi.one
  unfold tokens at hone
  -- The label of one process changes.
  have hgo : ∀ (t : Conf P S L M) (q : P) (l : L), t.pc = Function.update s.pc q l → ok q l →
      ∀ r, ok r (t.pc r) := by
    intro t q l hpc hl r
    rw [hpc]
    by_cases hr : r = q
    · subst hr
      rw [Function.update_self]
      exact hl
    · rw [Function.update_of_ne hr]
      exact hi.ok r
  have hmove : ∀ (t : Conf P S L M) (q : P) (l : L) (b : Bool), t.pc = Function.update s.pc q l →
      t.active = Function.update s.active q b → b = holds q l →
        ∀ r, t.active r = holds r (t.pc r) := by
    intro t q l b hpc hact hb r
    rw [hpc, hact]
    by_cases hr : r = q
    · subst hr
      rw [Function.update_self, Function.update_self, hb]
    · rw [Function.update_of_ne hr, Function.update_of_ne hr]
      exact hi.active r
  have hkeep : s.active = Function.update s.active p (s.active p) :=
    (Function.update_eq_self p s.active).symm
  -- The sum of the tokens is over semaphores and processes, and a step changes one or two terms of
  -- it.
  have hsumV : ∀ x v, (∑ y, if prog.token y then Function.update s.val x v y else 0) =
      (∑ y, if prog.token y then s.val y else 0) - (if prog.token x then s.val x else 0) +
        (if prog.token x then v else 0) :=
    fun x v => sum_update (fun y (w : Int) => if prog.token y then w else 0) s.val x v
  have hsumA : ∀ (f : P → Bool) q b, (∑ r, if Function.update f q b r then (1 : Int) else 0) =
      (∑ r, if f r then 1 else 0) - (if f q then 1 else 0) + (if b then 1 else 0) :=
    fun f q b => sum_update (fun _ (c : Bool) => if c then (1 : Int) else 0) f q b
  have hp := hi.active p
  cases h.effect hi.queued with
  -- A down on a semaphore of the bracket moves the token from there to the process. On another
  -- semaphore it moves no token.
  | grant x l hinstr hval pc val asleep active mem =>
      obtain ⟨hl, hbr⟩ := hb.down p _ x l (hi.ok p) hinstr
      refine ⟨hq, hgo s' p l pc hl, ?_, ?_⟩
      · refine hmove s' p l _ pc active ?_
        split at hbr
        · rename_i htok
          rw [htok, hbr.2, Bool.or_true]
        · rename_i htok
          rw [hbr, hp]
          simp [htok]
      · unfold tokens
        rw [val, active, hsumV, hsumA]
        split at hbr
        · rename_i htok
          rw [hp, hbr.1]
          simp only [htok, Bool.or_true, Bool.false_eq_true, if_true, if_false]
          omega
        · rename_i htok
          rw [Bool.not_eq_true] at htok
          simp only [htok, Bool.or_false, Bool.false_eq_true, if_false]
          omega
  | block x l hinstr hval pc val asleep active mem =>
      refine ⟨hq, ?_, ?_, ?_⟩
      · rw [pc]
        exact hi.ok
      · rw [pc, active]
        exact hi.active
      · unfold tokens
        rw [val, active]
        exact hone
  | release x l hinstr hnone pc val asleep active mem =>
      obtain ⟨hl, hbr⟩ := hb.up p _ x l (hi.ok p) hinstr
      refine ⟨hq, hgo s' p l pc hl, ?_, ?_⟩
      · refine hmove s' p l _ pc active ?_
        split at hbr
        · rename_i htok
          rw [htok, hbr.2, Bool.not_true, Bool.and_false]
        · rename_i htok
          rw [hbr, hp]
          simp [htok]
      · unfold tokens
        rw [val, active, hsumV, hsumA]
        split at hbr
        · rename_i htok
          rw [hp, hbr.1]
          simp only [htok, Bool.not_true, Bool.and_false, Bool.false_eq_true, if_true, if_false]
          omega
        · rename_i htok
          rw [Bool.not_eq_true] at htok
          simp only [htok, Bool.not_false, Bool.and_true, Bool.false_eq_true, if_false]
          omega
  -- From one process to the other, past the semaphore.
  | handOff x l q l' hinstr hne hasleep hdown hval pc val asleep active mem =>
      obtain ⟨hl, hbr⟩ := hb.up p _ x l (hi.ok p) hinstr
      obtain ⟨hl', hbq⟩ := hb.down q _ x l' (hi.ok q) hdown
      have hqa := hi.active q
      refine ⟨hq, ?_, ?_, ?_⟩
      · intro r
        rw [pc]
        by_cases hrq : r = q
        · subst hrq
          rw [Function.update_self]
          exact hl'
        · rw [Function.update_of_ne hrq]
          by_cases hrp : r = p
          · subst hrp
            rw [Function.update_self]
            exact hl
          · rw [Function.update_of_ne hrp]
            exact hi.ok r
      · intro r
        rw [pc, active]
        by_cases hrq : r = q
        · subst hrq
          rw [Function.update_self, Function.update_self]
          split at hbq
          · rename_i htok
            rw [htok, hbq.2, Bool.or_true]
          · rename_i htok
            rw [hbq, hqa]
            simp [htok]
        · rw [Function.update_of_ne hrq, Function.update_of_ne hrq]
          by_cases hrp : r = p
          · subst hrp
            rw [Function.update_self, Function.update_self]
            split at hbr
            · rename_i htok
              rw [htok, hbr.2, Bool.not_true, Bool.and_false]
            · rename_i htok
              rw [hbr, hp]
              simp [htok]
          · rw [Function.update_of_ne hrp, Function.update_of_ne hrp]
            exact hi.active r
      · unfold tokens
        rw [val, active, hsumA, hsumA, Function.update_of_ne hne]
        split at hbr
        · rename_i htok
          rw [if_pos htok] at hbq
          rw [hp, hqa, hbr.1, hbq.1]
          simp only [htok, Bool.or_true, Bool.not_true, Bool.and_false, Bool.false_eq_true,
            if_true, if_false]
          omega
        · rename_i htok
          rw [Bool.not_eq_true] at htok
          simp only [htok, Bool.or_false, Bool.not_false, Bool.and_true]
          omega
  | exec f hinstr pc val asleep active mem =>
      obtain ⟨hl, hbr⟩ := hb.exec p _ f (hi.ok p) hinstr s.mem
      refine ⟨hq, hgo s' p _ pc hl, ?_, ?_⟩
      · refine hmove s' p _ (s.active p) pc (active.trans hkeep) ?_
        rw [hbr, hp]
      · unfold tokens
        rw [val, active]
        exact hone
  | choose R l hinstr hl pc val asleep active mem =>
      obtain ⟨hok, hbr⟩ := hb.choose p _ R (hi.ok p) hinstr l hl
      refine ⟨hq, hgo s' p l pc hok, ?_, ?_⟩
      · refine hmove s' p l (s.active p) pc (active.trans hkeep) ?_
        rw [hbr, hp]
      · unfold tokens
        rw [val, active]
        exact hone

omit [DecidableEq S] in
/-- At most one process is active. -/
theorem TokenInv.unique (hi : TokenInv prog ok holds s) {p q : P} (hp : s.active p = true)
    (hq : s.active q = true) : p = q := by
  by_contra hne
  have hone := hi.one
  unfold tokens at hone
  have hvals : 0 ≤ ∑ x, if prog.token x then s.val x else 0 := by
    apply Finset.sum_nonneg
    intro x _
    split
    · exact hi.queued.nonneg x
    · exact le_refl 0
  have htwo : (2 : Int) ≤ ∑ r, if s.active r then 1 else 0 := by
    have hsub : ∑ r ∈ ({p, q} : Finset P), (if s.active r then (1 : Int) else 0) ≤
        ∑ r, if s.active r then 1 else 0 := by
      apply Finset.sum_le_sum_of_subset_of_nonneg (Finset.subset_univ _)
      intro r _ _
      split <;> decide
    rw [Finset.sum_pair hne, hp, hq] at hsub
    exact hsub
  omega

omit [DecidableEq P] [DecidableEq S] in
/-- While a process is active, the semaphores that pass the token have no unit. -/
theorem TokenInv.val_zero (hi : TokenInv prog ok holds s) (hp : s.active p = true) {x : S}
    (hx : prog.token x = true) : s.val x = 0 := by
  have hone := hi.one
  unfold tokens at hone
  have hle : s.val x ≤ ∑ y, if prog.token y then s.val y else 0 := by
    have hsingle := Finset.single_le_sum (f := fun y => if prog.token y then s.val y else 0)
      (fun y _ => by split; exacts [hi.queued.nonneg y, le_refl 0])
      (Finset.mem_univ x)
    simpa [hx] using hsingle
  have hact : (1 : Int) ≤ ∑ r, if s.active r then 1 else 0 := by
    have hsingle := Finset.single_le_sum (f := fun r => if s.active r then (1 : Int) else 0)
      (fun r _ => by split <;> decide) (Finset.mem_univ p)
    simpa [hp] using hsingle
  have hnn := hi.queued.nonneg x
  omega

omit [DecidableEq P] in
/-- Two units are in one semaphore. -/
theorem TokenInv.val_unique (hi : TokenInv prog ok holds s) {x y : S} (hx : prog.token x = true)
    (hy : prog.token y = true) (hvx : 0 < s.val x) (hvy : 0 < s.val y) : x = y := by
  by_contra hne
  have hone := hi.one
  unfold tokens at hone
  have hact : 0 ≤ ∑ r, if s.active r then (1 : Int) else 0 := by
    apply Finset.sum_nonneg
    intro r _
    split <;> decide
  have hsub : ∑ z ∈ ({x, y} : Finset S), (if prog.token z then s.val z else 0) ≤
      ∑ z, if prog.token z then s.val z else 0 := by
    apply Finset.sum_le_sum_of_subset_of_nonneg (Finset.subset_univ _)
    intro z _ _
    split
    · exact hi.queued.nonneg z
    · exact le_refl 0
  rw [Finset.sum_pair hne, hx, hy] at hsub
  simp only [if_true] at hsub
  omega

omit [DecidableEq P] [DecidableEq S] in
/-- When nobody is active, some semaphore has the token. -/
theorem TokenInv.exists_val (hi : TokenInv prog ok holds s) (hidle : ∀ p, s.active p = false) :
    ∃ x, prog.token x = true ∧ s.val x = 1 := by
  have hone := hi.one
  unfold tokens at hone
  have hact : ∑ r, (if s.active r then (1 : Int) else 0) = 0 :=
    Finset.sum_eq_zero fun r _ => by rw [hidle r]; rfl
  rw [hact, add_zero] at hone
  have hnn : ∀ x ∈ (Finset.univ : Finset S), 0 ≤ if prog.token x then s.val x else 0 := by
    intro x _
    split
    · exact hi.queued.nonneg x
    · exact le_refl 0
  obtain ⟨x, -, hx⟩ := Finset.exists_ne_zero_of_sum_ne_zero (s := Finset.univ)
    (f := fun x => if prog.token x then s.val x else 0) (by rw [hone]; decide)
  split at hx
  · rename_i htok
    refine ⟨x, htok, ?_⟩
    have hle := Finset.single_le_sum hnn (Finset.mem_univ x)
    rw [hone, if_pos htok] at hle
    have hge := hi.queued.nonneg x
    omega
  · exact absurd rfl hx

end Tokens

end

end Ucore.Lib
