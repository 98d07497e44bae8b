import Ucore.Fs.Cache
import Ucore.Lib.Fiber

/-!
# `Ucore.Proofs.Fs.Cache`: an inode in memory is unique, and it is freed once

`reclaim_count` is the number of reclaims that are still to come, plus one when the inode has
a reference. So the reclaim that finds the count one is the last, and nobody holds the inode.

## The invariant

A process is read through four partial functions of its program counter: the inode that it is to
reclaim (`waitOf`), the one whose count it has raised from zero without having raised
`reclaim_count` (`midOf`), the one that it is going to free (`doomOf`), and the one that it has
taken off the hash list (`goneOf`). `pending`, `mid` and `holders` count the processes and the
places over an inode, and `CacheOk` relates the counts in memory to them:

* `ref_count` is the number of places that hold a reference,
* `reclaim_count` and the processes at `midOf` together are the reclaims to come, and one more
  when there is a reference,
* an inode that a process is going to free has neither, and the process is the only one.

Between the reclaim of an inode and its `vop_kill` the lock is free. A second inode of the same
number can be loaded there, so the numbers are unique on the hash list and not in memory.

## Results

* `cacheOk_of_run`: every step keeps `CacheOk`.
* `cache_exact`: uniqueness on the list, exact counts, one process that frees, and no access to
  what has been freed.
* `revived_not_given_up`: the reclaim that goes on is not always the last to have dropped the
  inode, and two inodes of one number can be in memory.
-/

set_option autoImplicit false
set_option linter.unusedSectionVars false

namespace Ucore.Proofs.Fs

open Ucore.Lib Ucore.Fs

variable {P R N : Type}

/-! ### What a process is about to do -/

/-- The process holds the lock. -/
def locked : CachePc N → Bool
  | .lookup _ | .found _ _ | .create _ | .loadUnlock | .reclaim _ | .flush _ | .busy
  | .removed _ => true
  | _ => false

/-- The inode that the process is to reclaim, before it has counted itself. -/
def waitOf : CachePc N → Option N
  | .drop n | .reclaim n => some n
  | _ => none

/-- The inode whose count the process has raised from zero. -/
def midOf : CachePc N → Option N
  | .found n 1 => some n
  | _ => none

/-- The inode that the process is going to free. -/
def doomOf : CachePc N → Option N
  | .flush n | .removed n | .kill n => some n
  | _ => none

/-- An inode that the process uses and that is on the hash list. -/
def linkOf : CachePc N → Option N
  | .drop n | .reclaim n | .flush n | .found n _ => some n
  | _ => none

/-- The inode that the process has taken off the hash list. -/
def goneOf : CachePc N → Option N
  | .removed n | .kill n => some n
  | _ => none

variable [Fintype P] [Fintype R] [DecidableEq P] [DecidableEq R] [DecidableEq N]

/-- The number of reclaims of an inode that are to come. -/
def pending (c : Cache P R N) (n : N) : Nat := fiberCard (fun p => waitOf (c.pc p)) n

/-- The number of processes that have raised the count from zero and not `reclaim_count`. -/
def mid (c : Cache P R N) (n : N) : Nat := fiberCard (fun p => midOf (c.pc p)) n

/-- The number of references to an inode. -/
def holders (c : Cache P R N) (n : N) : Nat := fiberCard c.held n

/-- The invariant of the cache. -/
structure CacheOk (c : Cache P R N) : Prop where
  lock : ∀ p, locked (c.pc p) = true ↔ c.lock = some p
  node : ∀ n ∈ c.hash_list, ∃ node, c.node n = some node
  nodup : c.hash_list.Nodup
  unique : ∀ n ∈ c.hash_list, ∀ m ∈ c.hash_list, ∀ a b, c.node n = some a → c.node m = some b →
    a.ino = b.ino → n = m
  absent : ∀ p ino, c.pc p = .create ino → ∀ n ∈ c.hash_list, ∀ a, c.node n = some a →
    a.ino ≠ ino
  held : ∀ r n, c.held r = some n → n ∈ c.hash_list
  link : ∀ p n, linkOf (c.pc p) = some n → n ∈ c.hash_list
  gone : ∀ p n, goneOf (c.pc p) = some n → n ∉ c.hash_list ∧ ∃ node, c.node n = some node
  alloc : ∀ n node, c.node n = some node → n ∈ c.hash_list ∨ ∃ p, goneOf (c.pc p) = some n
  refs : ∀ n node, c.node n = some node → node.ref_count = holders c n
  count : ∀ n ∈ c.hash_list, ∀ node, c.node n = some node →
    node.reclaim_count + mid c n = pending c n + if 0 < holders c n then 1 else 0
  doom : ∀ p n, doomOf (c.pc p) = some n →
    holders c n = 0 ∧ pending c n = 0 ∧ ∀ q, doomOf (c.pc q) = some n → q = p
  alive : ∀ n ∈ c.hash_list, 0 < holders c n ∨ 0 < pending c n ∨ ∃ p, doomOf (c.pc p) = some n

variable {c c' : Cache P R N} {p q : P} {n m : N} {node : CacheNode} {r : R}

/-! ### Counting -/

/-- How one step of a process changes the number of processes at an inode. -/
theorem fiberCard_pc (f : CachePc N → Option N) (pc : P → CachePc N) (p : P) (x : CachePc N)
    (n : N) : fiberCard (fun q => f (Function.update pc p x q)) n +
        (if f (pc p) = some n then 1 else 0) =
      fiberCard (fun q => f (pc q)) n + if f x = some n then 1 else 0 := by
  have hcomp : (fun q => f (Function.update pc p x q)) =
      Function.update (fun q => f (pc q)) p (f x) := Function.comp_update f pc p x
  rw [hcomp]
  exact fiberCard_update (fun q => f (pc q)) p (f x) n

section
variable {f : CachePc N → Option N} {pc : P → CachePc N} {x : CachePc N}

/-- A step from elsewhere to elsewhere leaves the number of processes at the inode. -/
theorem fiberCard_same (hp : f (pc p) ≠ some n) (hx : f x ≠ some n) :
    fiberCard (fun q => f (Function.update pc p x q)) n = fiberCard (fun q => f (pc q)) n := by
  have h := fiberCard_pc f pc p x n
  rwa [if_neg hp, if_neg hx] at h

/-- A process comes to the inode. -/
theorem fiberCard_enter (hp : f (pc p) ≠ some n) (hx : f x = some n) :
    fiberCard (fun q => f (Function.update pc p x q)) n =
      fiberCard (fun q => f (pc q)) n + 1 := by
  have h := fiberCard_pc f pc p x n
  rwa [if_neg hp, if_pos hx] at h

/-- A process leaves the inode. -/
theorem fiberCard_leave (hp : f (pc p) = some n) (hx : f x ≠ some n) :
    fiberCard (fun q => f (Function.update pc p x q)) n + 1 =
      fiberCard (fun q => f (pc q)) n := by
  have h := fiberCard_pc f pc p x n
  rwa [if_pos hp, if_neg hx] at h

end

/-- A process that is to reclaim the inode counts. -/
theorem pending_pos (h : waitOf (c.pc p) = some n) : 0 < pending c n :=
  fiberCard_pos_iff.mpr ⟨p, h⟩

/-- A place that holds a reference counts. -/
theorem holders_pos (h : c.held r = some n) : 0 < holders c n := fiberCard_pos_iff.mpr ⟨r, h⟩

/-- Nobody is to reclaim the inode. -/
theorem pending_eq_zero (h : ∀ p, waitOf (c.pc p) ≠ some n) : pending c n = 0 := by
  by_contra hne
  obtain ⟨p, hp⟩ := fiberCard_pos_iff.mp (Nat.pos_of_ne_zero hne)
  exact h p hp

/-- Nobody is in the middle of a revival. -/
theorem mid_eq_zero (h : ∀ p, midOf (c.pc p) ≠ some n) : mid c n = 0 := by
  by_contra hne
  obtain ⟨p, hp⟩ := fiberCard_pos_iff.mp (Nat.pos_of_ne_zero hne)
  exact h p hp

/-- Nobody holds a reference. -/
theorem holders_eq_zero (h : ∀ r, c.held r ≠ some n) : holders c n = 0 := by
  by_contra hne
  obtain ⟨r, hr⟩ := fiberCard_pos_iff.mp (Nat.pos_of_ne_zero hne)
  exact h r hr

/-- The inode that a process is to reclaim is one that it uses. -/
theorem waitOf_link {x : CachePc N} (h : waitOf x = some n) : linkOf x = some n := by
  cases x <;> simp_all [waitOf, linkOf]

/-- The inode whose count a process has raised from zero is one that it uses, under the lock. -/
theorem midOf_link {x : CachePc N} (h : midOf x = some n) :
    linkOf x = some n ∧ locked x = true := by
  unfold midOf at h
  split at h <;> simp_all [linkOf, locked]

/-- Who is going to free an inode has the lock, or has taken the inode off the hash list. -/
theorem doomOf_cases {x : CachePc N} (h : doomOf x = some n) :
    x = .flush n ∨ goneOf x = some n := by
  cases x <;> simp_all [doomOf, goneOf]

/-- The inode that a process has taken off the list is one that it frees. -/
theorem goneOf_doom {x : CachePc N} (h : goneOf x = some n) : doomOf x = some n := by
  cases x <;> simp_all [doomOf, goneOf]

/-- The inode that a process frees is still on the hash list, or the process has taken it off. -/
theorem doomOf_flush {x : CachePc N} (h : doomOf x = some n) :
    linkOf x = some n ∨ goneOf x = some n := by
  cases x <;> simp_all [doomOf, linkOf, goneOf]

/-- Only the holder of the lock frees an inode that is on the hash list. -/
theorem CacheOk.doom_locked (h : CacheOk c) (hn : n ∈ c.hash_list)
    (hq : doomOf (c.pc q) = some n) : c.pc q = .flush n ∧ c.lock = some q := by
  rcases doomOf_cases hq with hflush | hgone
  · exact ⟨hflush, (h.lock q).mp (by rw [hflush]; rfl)⟩
  · exact absurd hn (h.gone q n hgone).1

/-! ### Steps -/

/-- The process of the step has its new place, and the others have theirs. -/
theorem pc_cases (pc : P → CachePc N) (p q : P) (x : CachePc N) :
    q = p ∧ Function.update pc p x q = x ∨ q ≠ p ∧ Function.update pc p x q = pc q := by
  by_cases hq : q = p
  · exact Or.inl ⟨hq, by rw [hq, Function.update_self]⟩
  · exact Or.inr ⟨hq, Function.update_of_ne hq ..⟩

/-- A step that changes nothing but the place of the process and the lock. -/
theorem CacheOk.move (h : CacheOk c) {x : CachePc N} {l : Option P}
    (hlock : ∀ q, locked (Function.update c.pc p x q) = true ↔ l = some q)
    (hwait : waitOf x = waitOf (c.pc p)) (hmid : midOf x = midOf (c.pc p))
    (hdoom : doomOf x = doomOf (c.pc p)) (hgone : ∀ n, goneOf x = some n → n ∉ c.hash_list)
    (hback : ∀ n, goneOf (c.pc p) = some n → goneOf x = some n)
    (hlink : ∀ n, linkOf x = some n → n ∈ c.hash_list)
    (habsent : ∀ ino, x = .create ino → ∀ n ∈ c.hash_list, ∀ a, c.node n = some a →
      a.ino ≠ ino) :
    CacheOk { c with lock := l, pc := Function.update c.pc p x } := by
  -- A count of the processes at an inode stays when the process was and is there, or was and is
  -- not.
  have hsame : ∀ f : CachePc N → Option N, f x = f (c.pc p) →
      ∀ q, f (Function.update c.pc p x q) = f (c.pc q) := by
    intro f hf q
    by_cases hq : q = p
    · rw [hq, Function.update_self, hf]
    · rw [Function.update_of_ne hq]
  have hpending : ∀ n, pending { c with lock := l, pc := Function.update c.pc p x } n =
      pending c n := fun n => congrArg (fun f => fiberCard f n) (funext (hsame waitOf hwait))
  have hmid' : ∀ n, mid { c with lock := l, pc := Function.update c.pc p x } n = mid c n :=
    fun n => congrArg (fun f => fiberCard f n) (funext (hsame midOf hmid))
  refine ⟨hlock, h.node, h.nodup, h.unique, ?_, h.held, ?_, ?_, ?_, h.refs, ?_, ?_, ?_⟩
  · intro q ino hq
    replace hq : Function.update c.pc p x q = .create ino := hq
    rcases pc_cases c.pc p q x with ⟨-, heq⟩ | ⟨-, heq⟩ <;> rw [heq] at hq
    · exact habsent ino hq
    · exact h.absent q ino hq
  · intro q n hq
    replace hq : linkOf (Function.update c.pc p x q) = some n := hq
    rcases pc_cases c.pc p q x with ⟨-, heq⟩ | ⟨-, heq⟩ <;> rw [heq] at hq
    · exact hlink n hq
    · exact h.link q n hq
  · intro q n hq
    replace hq : goneOf (Function.update c.pc p x q) = some n := hq
    rcases pc_cases c.pc p q x with ⟨-, heq⟩ | ⟨-, heq⟩ <;> rw [heq] at hq
    · refine ⟨hgone n hq, ?_⟩
      have hdoomed : doomOf (c.pc p) = some n := by
        rw [← hdoom]
        exact goneOf_doom hq
      rcases doomOf_cases hdoomed with hflush | hold
      · exact absurd (h.link p n (by rw [hflush]; rfl)) (hgone n hq)
      · exact (h.gone p n hold).2
    · exact h.gone q n hq
  · intro n node hnode
    rcases h.alloc n node hnode with hmem | ⟨q, hq⟩
    · exact Or.inl hmem
    · refine Or.inr ⟨q, ?_⟩
      show goneOf (Function.update c.pc p x q) = some n
      rcases pc_cases c.pc p q x with ⟨rfl, heq⟩ | ⟨-, heq⟩ <;> rw [heq]
      · exact hback n hq
      · exact hq
  · intro n hn node hnode
    rw [hmid', hpending]
    exact h.count n hn node hnode
  · intro q n hq
    replace hq : doomOf (Function.update c.pc p x q) = some n := hq
    rw [hsame doomOf hdoom] at hq
    obtain ⟨hheld, hzero, hone⟩ := h.doom q n hq
    refine ⟨hheld, (hpending n).trans hzero, ?_⟩
    intro q' hq'
    replace hq' : doomOf (Function.update c.pc p x q') = some n := hq'
    rw [hsame doomOf hdoom] at hq'
    exact hone q' hq'
  · intro n hn
    rw [hpending]
    rcases h.alive n hn with hl | hl | ⟨q, hq⟩
    · exact Or.inl hl
    · exact Or.inr (Or.inl hl)
    · exact Or.inr (Or.inr ⟨q, (hsame doomOf hdoom q).trans hq⟩)

/-- A step that neither takes nor gives back the lock. -/
theorem CacheOk.lock_keep (h : CacheOk c) {x : CachePc N} (hx : locked x = locked (c.pc p)) :
    ∀ q, locked (Function.update c.pc p x q) = true ↔ c.lock = some q := by
  intro q
  rcases pc_cases c.pc p q x with ⟨rfl, heq⟩ | ⟨-, heq⟩ <;> rw [heq]
  · rw [hx]
    exact h.lock q
  · exact h.lock q

/-- A step that takes the lock, which is free. -/
theorem CacheOk.lock_take (h : CacheOk c) {x : CachePc N} (hnone : c.lock = none)
    (hx : locked x = true) :
    ∀ q, locked (Function.update c.pc p x q) = true ↔ some p = some q := by
  intro q
  rcases pc_cases c.pc p q x with ⟨rfl, heq⟩ | ⟨hne, heq⟩ <;> rw [heq]
  · simp [hx]
  · rw [h.lock, hnone]
    simp [Ne.symm hne]

/-- A step of the holder that gives the lock back. -/
theorem CacheOk.lock_give (h : CacheOk c) {x : CachePc N} (hp : locked (c.pc p) = true)
    (hx : locked x = false) :
    ∀ q, locked (Function.update c.pc p x q) = true ↔ (none : Option P) = some q := by
  intro q
  rcases pc_cases c.pc p q x with ⟨rfl, heq⟩ | ⟨hne, heq⟩ <;> rw [heq]
  · simp [hx]
  · rw [h.lock, (h.lock p).mp hp]
    simp [Ne.symm hne]

/-- A step that changes the counts of one inode on the hash list, and references to it. -/
theorem CacheOk.counts (h : CacheOk c) {x : CachePc N} {node' : CacheNode}
    {held : R → Option N} (hn : n ∈ c.hash_list) (hnode : c.node n = some node)
    (hino : node'.ino = node.ino) (hlocked : locked x = locked (c.pc p))
    (hx : ∀ m, linkOf x = some m → m = n) (hp : ∀ m, linkOf (c.pc p) = some m → m = n)
    (hgone : goneOf x = none) (hgone' : goneOf (c.pc p) = none) (hcreate : ∀ ino, x ≠ .create ino)
    (hheld : ∀ r m, held r = some m → m ∈ c.hash_list)
    (hother : ∀ m, m ≠ n → fiberCard held m = holders c m)
    (hrefs : node'.ref_count = fiberCard held n)
    (hcount : node'.reclaim_count + fiberCard (fun q => midOf (Function.update c.pc p x q)) n =
      fiberCard (fun q => waitOf (Function.update c.pc p x q)) n +
        if 0 < fiberCard held n then 1 else 0)
    (hdoom : ∀ q, doomOf (Function.update c.pc p x q) = some n → fiberCard held n = 0 ∧
      fiberCard (fun q => waitOf (Function.update c.pc p x q)) n = 0 ∧
      ∀ q', doomOf (Function.update c.pc p x q') = some n → q' = q)
    (halive : 0 < fiberCard held n ∨
      0 < fiberCard (fun q => waitOf (Function.update c.pc p x q)) n ∨
      ∃ q, doomOf (Function.update c.pc p x q) = some n) :
    CacheOk { c with
      node := Function.update c.node n (some node')
      pc := Function.update c.pc p x
      held := held } := by
  -- Only `n` is in the places of `p` before and behind the step.
  have hnot : ∀ f : CachePc N → Option N, (∀ y m, f y = some m → linkOf y = some m ∨
      goneOf y = some m) → ∀ m, m ≠ n →
      ∀ q, f (Function.update c.pc p x q) = some m ↔ f (c.pc q) = some m := by
    intro f hf m hm q
    rcases pc_cases c.pc p q x with ⟨rfl, heq⟩ | ⟨-, heq⟩ <;> rw [heq]
    refine iff_of_false (fun hxm => ?_) fun hpm => ?_
    · rcases hf x m hxm with hl | hg
      · exact hm (hx m hl)
      · rw [hgone] at hg
        cases hg
    · rcases hf _ m hpm with hl | hg
      · exact hm (hp m hl)
      · rw [hgone'] at hg
        cases hg
  have hcard : ∀ f : CachePc N → Option N, (∀ y m, f y = some m → linkOf y = some m ∨
      goneOf y = some m) → ∀ m, m ≠ n →
      fiberCard (fun q => f (Function.update c.pc p x q)) m = fiberCard (fun q => f (c.pc q)) m := by
    intro f hf m hm
    unfold fiberCard
    congr 1
    apply Finset.filter_congr
    intro q _
    exact hnot f hf m hm q
  have hwait := hcard waitOf fun y m hy => Or.inl (waitOf_link hy)
  have hmid := hcard midOf fun y m hy => Or.inl (midOf_link hy).1
  have hdoomed := hnot doomOf fun y m hy => doomOf_flush hy
  -- The other inodes in memory are the same, and `n` has kept its number.
  have hnodes : ∀ m a, Function.update c.node n (some node') m = some a →
      m = n ∧ a = node' ∨ m ≠ n ∧ c.node m = some a := by
    intro m a ha
    by_cases hm : m = n
    · subst hm
      rw [Function.update_self] at ha
      exact Or.inl ⟨rfl, (Option.some.inj ha).symm⟩
    · rw [Function.update_of_ne hm] at ha
      exact Or.inr ⟨hm, ha⟩
  have hold : ∀ m a, Function.update c.node n (some node') m = some a →
      ∃ b, c.node m = some b ∧ b.ino = a.ino := by
    intro m a ha
    rcases hnodes m a ha with ⟨rfl, rfl⟩ | ⟨-, ha⟩
    · exact ⟨node, hnode, hino.symm⟩
    · exact ⟨a, ha, rfl⟩
  -- One goal for each field of `CacheOk`. For `n` it is a hypothesis, and for the others nothing
  -- has changed.
  refine ⟨h.lock_keep hlocked, ?_, h.nodup, ?_, ?_, hheld, ?_, ?_, ?_, ?_, ?_, ?_, ?_⟩
  · intro m hm
    show ∃ a, Function.update c.node n (some node') m = some a
    by_cases hmn : m = n
    · exact ⟨node', by rw [hmn, Function.update_self]⟩
    · rw [Function.update_of_ne hmn]
      exact h.node m hm
  · intro m hm k hk a b ha hb hab
    obtain ⟨a', ha', hai⟩ := hold m a ha
    obtain ⟨b', hb', hbi⟩ := hold k b hb
    exact h.unique m hm k hk a' b' ha' hb' (by rw [hai, hbi, hab])
  · intro q ino hq m hm a ha
    obtain ⟨a', ha', hai⟩ := hold m a ha
    replace hq : Function.update c.pc p x q = .create ino := hq
    rcases pc_cases c.pc p q x with ⟨-, heq⟩ | ⟨-, heq⟩ <;> rw [heq] at hq
    · exact absurd hq (hcreate ino)
    · rw [← hai]
      exact h.absent q ino hq m hm a' ha'
  · intro q m hq
    replace hq : linkOf (Function.update c.pc p x q) = some m := hq
    rcases pc_cases c.pc p q x with ⟨-, heq⟩ | ⟨-, heq⟩ <;> rw [heq] at hq
    · rw [hx m hq]
      exact hn
    · exact h.link q m hq
  · intro q m hq
    replace hq : goneOf (Function.update c.pc p x q) = some m := hq
    rcases pc_cases c.pc p q x with ⟨-, heq⟩ | ⟨-, heq⟩ <;> rw [heq] at hq
    · rw [hgone] at hq
      cases hq
    · obtain ⟨hout, a, ha⟩ := h.gone q m hq
      have hmn : m ≠ n := by
        rintro rfl
        exact hout hn
      exact ⟨hout, a, (Function.update_of_ne hmn ..).trans ha⟩
  · intro m a ha
    obtain ⟨b, hb, -⟩ := hold m a ha
    rcases h.alloc m b hb with hmem | ⟨q, hq⟩
    · exact Or.inl hmem
    · refine Or.inr ⟨q, ?_⟩
      show goneOf (Function.update c.pc p x q) = some m
      rcases pc_cases c.pc p q x with ⟨rfl, -⟩ | ⟨-, heq⟩
      · rw [hgone'] at hq
        cases hq
      · rw [heq]
        exact hq
  · intro m a ha
    rcases hnodes m a ha with ⟨rfl, rfl⟩ | ⟨hm, ha⟩
    · exact hrefs
    · rw [h.refs m a ha]
      exact (hother m hm).symm
  · intro m hm a ha
    show a.reclaim_count + fiberCard (fun q => midOf (Function.update c.pc p x q)) m =
      fiberCard (fun q => waitOf (Function.update c.pc p x q)) m +
        if 0 < fiberCard held m then 1 else 0
    rcases hnodes m a ha with ⟨rfl, rfl⟩ | ⟨hmn, ha⟩
    · exact hcount
    · rw [hmid m hmn, hwait m hmn, hother m hmn]
      exact h.count m hm a ha
  · intro q m hq
    replace hq : doomOf (Function.update c.pc p x q) = some m := hq
    by_cases hmn : m = n
    · rw [hmn] at hq ⊢
      exact hdoom q hq
    · obtain ⟨hzero, hpend, hone⟩ := h.doom q m ((hdoomed m hmn q).mp hq)
      exact ⟨(hother m hmn).trans hzero, (hwait m hmn).trans hpend,
        fun q' hq' => hone q' ((hdoomed m hmn q').mp hq')⟩
  · intro m hm
    show 0 < fiberCard held m ∨ 0 < fiberCard (fun q => waitOf (Function.update c.pc p x q)) m ∨
      ∃ q, doomOf (Function.update c.pc p x q) = some m
    by_cases hmn : m = n
    · rw [hmn]
      exact halive
    · rw [hother m hmn, hwait m hmn]
      rcases h.alive m hm with hl | hl | ⟨q, hq⟩
      · exact Or.inl hl
      · exact Or.inr (Or.inl hl)
      · exact Or.inr (Or.inr ⟨q, (hdoomed m hmn q).mpr hq⟩)

/-- One reference more. -/
theorem holders_add (hr : c.held r = none) (m : N) :
    fiberCard (Function.update c.held r (some n)) m = holders c m + if n = m then 1 else 0 := by
  have h := fiberCard_update c.held r (some n) m
  rw [hr, if_neg (by simp)] at h
  simpa [holders] using h

/-- One reference less. -/
theorem holders_drop (hr : c.held r = some n) (m : N) :
    fiberCard (Function.update c.held r none) m + (if n = m then 1 else 0) = holders c m := by
  have h := fiberCard_update c.held r none m
  rw [hr] at h
  simpa [holders] using h

/-- The lock keeps the others from freeing an inode on the hash list. -/
theorem CacheOk.not_doomed (h : CacheOk c) (hp : locked (c.pc p) = true)
    (hp' : doomOf (c.pc p) = none) (hn : n ∈ c.hash_list) : doomOf (c.pc q) ≠ some n := by
  intro hq
  obtain ⟨-, hlock⟩ := h.doom_locked hn hq
  cases hlock.symm.trans ((h.lock p).mp hp)
  rw [hp'] at hq
  cases hq

/-- An inode that has a reference is not being freed. -/
theorem CacheOk.not_doomed_of_held (h : CacheOk c) (hr : c.held r = some n) :
    doomOf (c.pc q) ≠ some n := by
  intro hq
  have hzero := (h.doom q n hq).1
  have hpos := holders_pos hr
  omega

/-- What the lookup finds is on the hash list. -/
theorem mem_of_find {ino : Nat} (hfind : c.find ino = some n) : n ∈ c.hash_list :=
  List.mem_of_find?_eq_some hfind

/-- A lookup that has found the count at 0 is in the middle of a revival. -/
theorem midOf_found {k : Nat} : midOf (.found n k : CachePc N) = if k = 1 then some n else none := by
  unfold midOf
  split
  · rename_i heq
    cases heq
    rfl
  · rename_i hne
    rw [if_neg]
    rintro rfl
    exact hne n rfl

/-- A reference moves, and all that are held are on the hash list. -/
theorem held_update {x : Option N} (hx : ∀ m, x = some m → m ∈ c.hash_list)
    (h : ∀ r m, c.held r = some m → m ∈ c.hash_list) :
    ∀ r' m, Function.update c.held r x r' = some m → m ∈ c.hash_list := by
  intro r' m hm
  by_cases hrr : r' = r
  · rw [hrr, Function.update_self] at hm
    exact hx m hm
  · rw [Function.update_of_ne hrr] at hm
    exact h r' m hm

/-- `vop_ref_inc` in `lookup_sfs_nolock` -/
theorem CacheOk.lookupInc (h : CacheOk c) {ino : Nat} (hpc : c.pc p = .lookup ino)
    (hfind : c.find ino = some n) (hnode : c.node n = some node) (hr : c.held r = none) :
    CacheOk { c with
      node := Function.update c.node n (some { node with ref_count := node.ref_count + 1 })
      pc := Function.update c.pc p (.found n (node.ref_count + 1))
      held := Function.update c.held r (some n) } := by
  have hn := mem_of_find hfind
  have hadd := holders_add (n := n) hr
  have hself := hadd n
  rw [if_pos rfl] at hself
  have hold := h.count n hn node hnode
  have hrefs := h.refs n node hnode
  have hwait : fiberCard (fun q => waitOf (Function.update c.pc p
      (.found n (node.ref_count + 1)) q)) n = pending c n :=
    fiberCard_same (by rw [hpc]; simp [waitOf]) (by simp [waitOf])
  refine h.counts hn hnode rfl (by rw [hpc]; rfl) (fun m hm => (Option.some.inj hm).symm) ?_ rfl
    (by rw [hpc]; rfl) (by simp) (held_update (fun m hm => Option.some.inj hm ▸ hn) h.held) ?_ ?_
    ?_ ?_ (Or.inl (by omega))
  · intro m hm
    rw [hpc] at hm
    cases hm
  · intro m hm
    rw [hadd, if_neg (Ne.symm hm), Nat.add_zero]
  · rw [hself, ← hrefs]
  · -- `midOf` tells whether the count has risen from zero.
    rw [hself, if_pos (Nat.succ_pos _), hwait]
    show node.reclaim_count + _ = _
    by_cases hzero : node.ref_count = 0
    · have hmid : fiberCard (fun q => midOf (Function.update c.pc p
          (.found n (node.ref_count + 1)) q)) n = mid c n + 1 :=
        fiberCard_enter (by rw [hpc]; simp [midOf]) (by rw [midOf_found, hzero]; rfl)
      rw [if_neg (by omega)] at hold
      omega
    · have hmid : fiberCard (fun q => midOf (Function.update c.pc p
          (.found n (node.ref_count + 1)) q)) n = mid c n :=
        fiberCard_same (by rw [hpc]; simp [midOf]) (by rw [midOf_found, if_neg (by omega)]; simp)
      rw [if_pos (by omega)] at hold
      omega
  · intro q hq
    rcases pc_cases c.pc p q (.found n (node.ref_count + 1)) with ⟨-, heq⟩ | ⟨-, heq⟩ <;>
      rw [heq] at hq
    · cases hq
    · exact absurd hq (h.not_doomed (p := p) (by rw [hpc]; rfl) (by rw [hpc]; rfl) hn)

/-- `sin->reclaim_count ++` in `lookup_sfs_nolock` -/
theorem CacheOk.lookupRevive (h : CacheOk c) (hpc : c.pc p = .found n 1)
    (hnode : c.node n = some node) :
    CacheOk { c with
      node := Function.update c.node n (some { node with reclaim_count := node.reclaim_count + 1 })
      pc := Function.update c.pc p .loadUnlock } := by
  have hn := h.link p n (by rw [hpc]; rfl)
  have hold := h.count n hn node hnode
  have hwait : fiberCard (fun q => waitOf (Function.update c.pc p .loadUnlock q)) n =
      pending c n := fiberCard_same (by rw [hpc]; simp [waitOf]) (by simp [waitOf])
  have hmid : fiberCard (fun q => midOf (Function.update c.pc p .loadUnlock q)) n + 1 =
      mid c n := fiberCard_leave (by rw [hpc]; rfl) (by simp [midOf])
  refine h.counts hn hnode rfl (by rw [hpc]; rfl) (fun m hm => by cases hm) ?_ rfl
    (by rw [hpc]; rfl) (by simp) h.held (fun _ _ => rfl) (h.refs n node hnode) ?_ ?_ ?_
  · intro m hm
    rw [hpc] at hm
    exact (Option.some.inj hm).symm
  · rw [hwait]
    show node.reclaim_count + 1 + _ = pending c n + if 0 < holders c n then 1 else 0
    omega
  · intro q hq
    rcases pc_cases c.pc p q .loadUnlock with ⟨-, heq⟩ | ⟨-, heq⟩ <;> rw [heq] at hq
    · cases hq
    · exact absurd hq (h.not_doomed (p := p) (by rw [hpc]; rfl) (by rw [hpc]; rfl) hn)
  · rw [hwait]
    rcases h.alive n hn with hl | hl | ⟨q, hq⟩
    · exact Or.inl hl
    · exact Or.inr (Or.inl hl)
    · exact absurd hq (h.not_doomed (p := p) (by rw [hpc]; rfl) (by rw [hpc]; rfl) hn)

/-- `inode_ref_inc` -/
theorem CacheOk.refInc (h : CacheOk c) {r' : R} (hpc : c.pc p = .out) (hr : c.held r = some n)
    (hnode : c.node n = some node) (hr' : c.held r' = none) :
    CacheOk { c with
      node := Function.update c.node n (some { node with ref_count := node.ref_count + 1 })
      pc := Function.update c.pc p .out
      held := Function.update c.held r' (some n) } := by
  have hn := h.held r n hr
  have hpos := holders_pos hr
  have hadd := holders_add (n := n) hr'
  have hself := hadd n
  rw [if_pos rfl] at hself
  have hold := h.count n hn node hnode
  have hwait : fiberCard (fun q => waitOf (Function.update c.pc p .out q)) n = pending c n :=
    fiberCard_same (by rw [hpc]; simp [waitOf]) (by simp [waitOf])
  have hmid : fiberCard (fun q => midOf (Function.update c.pc p .out q)) n = mid c n :=
    fiberCard_same (by rw [hpc]; simp [midOf]) (by simp [midOf])
  refine h.counts hn hnode rfl (by rw [hpc]) (fun m hm => by cases hm) ?_ rfl (by rw [hpc]; rfl)
    (by simp) (held_update (fun m hm => Option.some.inj hm ▸ hn) h.held) ?_ ?_ ?_ ?_
    (Or.inl (by omega))
  · intro m hm
    rw [hpc] at hm
    cases hm
  · intro m hm
    rw [hadd, if_neg (Ne.symm hm), Nat.add_zero]
  · rw [hself, ← h.refs n node hnode]
  · rw [hself, hwait, hmid, if_pos (Nat.succ_pos _)]
    rw [if_pos hpos] at hold
    exact hold
  · intro q hq
    rcases pc_cases c.pc p q .out with ⟨-, heq⟩ | ⟨-, heq⟩ <;> rw [heq] at hq
    · cases hq
    · exact absurd hq (h.not_doomed_of_held hr)

/-- `inode_ref_dec` -/
theorem CacheOk.refDec (h : CacheOk c) (hpc : c.pc p = .out) (hr : c.held r = some n)
    (hnode : c.node n = some node) (hpos : 0 < node.ref_count) :
    CacheOk { c with
      node := Function.update c.node n (some { node with ref_count := node.ref_count - 1 })
      pc := Function.update c.pc p (if node.ref_count - 1 = 0 then .drop n else .out)
      held := Function.update c.held r none } := by
  have hn := h.held r n hr
  have hdrop := holders_drop hr
  have hself := hdrop n
  rw [if_pos rfl] at hself
  have hrefs := h.refs n node hnode
  have hold := h.count n hn node hnode
  rw [if_pos (by omega)] at hold
  -- The step is no part of a lookup, so nobody comes in between the two counts of one.
  have hmid : fiberCard (fun q => midOf (Function.update c.pc p
      (if node.ref_count - 1 = 0 then .drop n else .out) q)) n = mid c n := by
    apply fiberCard_same
    · rw [hpc]
      simp [midOf]
    · split <;> simp [midOf]
  refine h.counts hn hnode rfl (by rw [hpc]; split <;> rfl) ?_ ?_ (by split <;> rfl)
    (by rw [hpc]; rfl) (fun ino => by split <;> simp)
    (held_update (fun m hm => by cases hm) h.held) ?_ ?_ ?_ ?_ ?_
  · intro m hm
    split at hm
    · exact (Option.some.inj hm).symm
    · cases hm
  · intro m hm
    rw [hpc] at hm
    cases hm
  · intro m hm
    have hm' := hdrop m
    rwa [if_neg (Ne.symm hm), Nat.add_zero] at hm'
  · show node.ref_count - 1 = _
    omega
  -- `reclaim_count` counts the holders as one and each process on its way to the reclaim. The last
  -- holder turns from the one into the other.
  · show node.reclaim_count + _ = _
    rw [hmid]
    by_cases hzero : node.ref_count - 1 = 0
    · have hwait : fiberCard (fun q => waitOf (Function.update c.pc p (.drop n) q)) n =
          pending c n + 1 := fiberCard_enter (by rw [hpc]; simp [waitOf]) rfl
      rw [if_pos hzero, hwait, if_neg (by omega)]
      omega
    · have hwait : fiberCard (fun q => waitOf (Function.update c.pc p .out q)) n =
          pending c n := fiberCard_same (by rw [hpc]; simp [waitOf]) (by simp [waitOf])
      rw [if_neg hzero, hwait, if_pos (by omega)]
      omega
  · intro q hq
    rcases pc_cases c.pc p q (if node.ref_count - 1 = 0 then .drop n else .out) with
      ⟨-, heq⟩ | ⟨-, heq⟩ <;> rw [heq] at hq
    · split at hq <;> cases hq
    · exact absurd hq (h.not_doomed_of_held hr)
  · by_cases hzero : node.ref_count - 1 = 0
    · have hwait : fiberCard (fun q => waitOf (Function.update c.pc p (.drop n) q)) n =
          pending c n + 1 := fiberCard_enter (by rw [hpc]; simp [waitOf]) rfl
      rw [if_pos hzero, hwait]
      omega
    · left
      omega

/-- The holder of the lock is alone behind it. -/
theorem CacheOk.locked_eq (h : CacheOk c) (hp : locked (c.pc p) = true)
    (hq : locked (c.pc q) = true) : q = p :=
  Option.some.inj (((h.lock q).mp hq).symm.trans ((h.lock p).mp hp))

/-- `-- sin->reclaim_count` and the test -/
theorem CacheOk.reclaim (h : CacheOk c) (hpc : c.pc p = .reclaim n)
    (hnode : c.node n = some node) (hpos : 0 < node.reclaim_count) :
    CacheOk { c with
      node := Function.update c.node n (some { node with reclaim_count := node.reclaim_count - 1 })
      pc := Function.update c.pc p
        (if node.reclaim_count - 1 ≠ 0 ∨ node.ref_count ≠ 0 then .busy else .flush n) } := by
  have hlocked : locked (c.pc p) = true := by
    rw [hpc]
    rfl
  have hn := h.link p n (by rw [hpc]; rfl)
  have hrefs := h.refs n node hnode
  have hold := h.count n hn node hnode
  have hmid₀ : mid c n = 0 := by
    apply mid_eq_zero
    intro q hq
    have hqp := h.locked_eq hlocked (midOf_link hq).2
    rw [hqp, hpc] at hq
    cases hq
  generalize hx : (if node.reclaim_count - 1 ≠ 0 ∨ node.ref_count ≠ 0 then .busy else .flush n :
    CachePc N) = x
  have hcases : x = .busy ∧ (node.reclaim_count - 1 ≠ 0 ∨ node.ref_count ≠ 0) ∨
      x = .flush n ∧ node.reclaim_count - 1 = 0 ∧ node.ref_count = 0 := by
    by_cases hb : node.reclaim_count - 1 ≠ 0 ∨ node.ref_count ≠ 0
    · rw [if_pos hb] at hx
      exact Or.inl ⟨hx.symm, hb⟩
    · rw [if_neg hb] at hx
      exact Or.inr ⟨hx.symm, by omega, by omega⟩
  have hwait : fiberCard (fun q => waitOf (Function.update c.pc p x q)) n + 1 = pending c n := by
    apply fiberCard_leave
    · rw [hpc]
      rfl
    · rcases hcases with ⟨rfl, -⟩ | ⟨rfl, -⟩ <;> simp [waitOf]
  have hmid : fiberCard (fun q => midOf (Function.update c.pc p x q)) n = mid c n := by
    apply fiberCard_same
    · rw [hpc]
      simp [midOf]
    · rcases hcases with ⟨rfl, -⟩ | ⟨rfl, -⟩ <;> simp [midOf]
  have hcount : node.reclaim_count - 1 =
      fiberCard (fun q => waitOf (Function.update c.pc p x q)) n +
        if 0 < holders c n then 1 else 0 := by
    omega
  refine h.counts hn hnode rfl ?_ ?_ ?_ ?_ (by rw [hpc]; rfl) ?_ h.held (fun _ _ => rfl) hrefs ?_
    ?_ ?_
  · rw [hlocked]
    rcases hcases with ⟨rfl, -⟩ | ⟨rfl, -⟩ <;> rfl
  · intro m hm
    rcases hcases with ⟨rfl, -⟩ | ⟨rfl, -⟩
    · cases hm
    · exact (Option.some.inj hm).symm
  · intro m hm
    rw [hpc] at hm
    exact (Option.some.inj hm).symm
  · rcases hcases with ⟨rfl, -⟩ | ⟨rfl, -⟩ <;> rfl
  · intro ino
    rcases hcases with ⟨rfl, -⟩ | ⟨rfl, -⟩ <;> simp
  · rw [hmid, hmid₀, Nat.add_zero]
    exact hcount
  · intro q hq
    -- Only this process can have passed the test.
    have hone : ∀ q, doomOf (Function.update c.pc p x q) = some n → q = p := by
      intro q hq
      rcases pc_cases c.pc p q x with ⟨hqp, -⟩ | ⟨-, heq⟩
      · exact hqp
      · rw [heq] at hq
        exact absurd hq (h.not_doomed hlocked (by rw [hpc]; rfl) hn)
    obtain rfl := hone q hq
    rw [Function.update_self] at hq
    rcases hcases with ⟨rfl, -⟩ | ⟨-, hr, hrc⟩
    · cases hq
    · refine ⟨?_, by omega, hone⟩
      show holders c n = 0
      omega
  · rcases hcases with ⟨-, hb⟩ | ⟨rfl, -⟩
    · by_cases hheld : 0 < holders c n
      · exact Or.inl hheld
      · rw [if_neg hheld] at hcount
        right
        left
        omega
    · exact Or.inr (Or.inr ⟨p, by rw [Function.update_self]; rfl⟩)

/-- `sfs_create_inode` and `sfs_set_links` -/
theorem CacheOk.create (h : CacheOk c) {ino : Nat} (hpc : c.pc p = .create ino)
    (hnode : c.node n = none) (hr : c.held r = none) :
    CacheOk { c with
      node := Function.update c.node n
        (some { ino := ino, ref_count := 1, reclaim_count := 1 })
      hash_list := n :: c.hash_list
      pc := Function.update c.pc p .loadUnlock
      held := Function.update c.held r (some n) } := by
  have hnew : n ∉ c.hash_list := by
    intro hn
    obtain ⟨node, hnode'⟩ := h.node n hn
    rw [hnode] at hnode'
    cases hnode'
  -- `n` is new memory, so no list, holder or process knows it yet.
  have hne : ∀ m ∈ c.hash_list, m ≠ n := by
    rintro m hm rfl
    exact hnew hm
  have hadd := holders_add (n := n) hr
  -- The process is at no inode before the step and at none behind it. The numbers of the processes
  -- at an inode therefore stay, and each clause below rewrites with this.
  have hsame : ∀ f : CachePc N → Option N, f (.create ino) = none → f .loadUnlock = none →
      ∀ q, f (Function.update c.pc p .loadUnlock q) = f (c.pc q) := by
    intro f hf hf' q
    rcases pc_cases c.pc p q .loadUnlock with ⟨rfl, heq⟩ | ⟨-, heq⟩ <;> rw [heq]
    rw [hpc, hf, hf']
  have hwait : ∀ m, fiberCard (fun q => waitOf (Function.update c.pc p .loadUnlock q)) m =
      pending c m := fun m => congrArg (fun f => fiberCard f m) (funext (hsame waitOf rfl rfl))
  have hmid : ∀ m, fiberCard (fun q => midOf (Function.update c.pc p .loadUnlock q)) m =
      mid c m := fun m => congrArg (fun f => fiberCard f m) (funext (hsame midOf rfl rfl))
  have hholders : holders c n = 0 := holders_eq_zero fun r' hr' => hnew (h.held r' n hr')
  have hself := hadd n
  rw [hholders, if_pos rfl] at hself
  -- Each inode in memory is the new one or has not changed.
  have hnodes : ∀ m a, Function.update c.node n
      (some { ino := ino, ref_count := 1, reclaim_count := 1 }) m = some a →
      m = n ∧ a = { ino := ino, ref_count := 1, reclaim_count := 1 } ∨
        m ≠ n ∧ c.node m = some a := by
    intro m a ha
    by_cases hm : m = n
    · subst hm
      rw [Function.update_self] at ha
      exact Or.inl ⟨rfl, (Option.some.inj ha).symm⟩
    · rw [Function.update_of_ne hm] at ha
      exact Or.inr ⟨hm, ha⟩
  -- The lookup found no inode of this number, and the lock has been held since.
  have hino : ∀ m ∈ c.hash_list, ∀ a, c.node m = some a → a.ino ≠ ino := h.absent p ino hpc
  have hout : ∀ q m, doomOf (c.pc q) = some m → m ≠ n := by
    rintro q m hq rfl
    rcases doomOf_cases hq with hflush | hgone
    · exact hnew (h.link q m (by rw [hflush]; rfl))
    · obtain ⟨-, node, hnode'⟩ := h.gone q m hgone
      rw [hnode] at hnode'
      cases hnode'
  -- One goal for each field of `CacheOk`, in its order.
  refine ⟨h.lock_keep (by rw [hpc]; rfl), ?_, List.nodup_cons.mpr ⟨hnew, h.nodup⟩, ?_, ?_, ?_, ?_,
    ?_, ?_, ?_, ?_, ?_, ?_⟩
  · intro m hm
    show ∃ a, Function.update c.node n _ m = some a
    by_cases hmn : m = n
    · exact ⟨_, by rw [hmn, Function.update_self]⟩
    · rw [Function.update_of_ne hmn]
      exact h.node m ((List.mem_cons.mp hm).resolve_left hmn)
  · intro m hm k hk a b ha hb hab
    rcases hnodes m a ha with ⟨rfl, rfl⟩ | ⟨hmn, ha'⟩ <;>
      rcases hnodes k b hb with ⟨rfl, rfl⟩ | ⟨hkn, hb'⟩
    · rfl
    · exact absurd hab.symm (hino k ((List.mem_cons.mp hk).resolve_left hkn) b hb')
    · exact absurd hab (hino m ((List.mem_cons.mp hm).resolve_left hmn) a ha')
    · exact h.unique m ((List.mem_cons.mp hm).resolve_left hmn) k
        ((List.mem_cons.mp hk).resolve_left hkn) a b ha' hb' hab
  · -- Another process behind its lookup would hold the lock too.
    intro q ino' hq
    replace hq : Function.update c.pc p .loadUnlock q = .create ino' := hq
    rcases pc_cases c.pc p q .loadUnlock with ⟨-, heq⟩ | ⟨hqp, heq⟩ <;> rw [heq] at hq
    · cases hq
    · exact absurd (h.locked_eq (p := p) (by rw [hpc]; rfl) (by rw [hq]; rfl)) hqp
  · intro r' m hm
    by_cases hrr : r' = r
    · replace hm : Function.update c.held r (some n) r' = some m := hm
      rw [hrr, Function.update_self] at hm
      rw [← Option.some.inj hm]
      exact List.mem_cons_self
    · replace hm : Function.update c.held r (some n) r' = some m := hm
      rw [Function.update_of_ne hrr] at hm
      exact List.mem_cons_of_mem _ (h.held r' m hm)
  · intro q m hq
    replace hq : linkOf (Function.update c.pc p .loadUnlock q) = some m := hq
    rw [hsame linkOf rfl rfl] at hq
    exact List.mem_cons_of_mem _ (h.link q m hq)
  · intro q m hq
    replace hq : goneOf (Function.update c.pc p .loadUnlock q) = some m := hq
    rw [hsame goneOf rfl rfl] at hq
    obtain ⟨hgone, a, ha⟩ := h.gone q m hq
    have hmn := hout q m (goneOf_doom hq)
    refine ⟨?_, a, (Function.update_of_ne hmn ..).trans ha⟩
    rw [List.mem_cons, not_or]
    exact ⟨hmn, hgone⟩
  · intro m a ha
    rcases hnodes m a ha with ⟨rfl, -⟩ | ⟨-, ha⟩
    · exact Or.inl List.mem_cons_self
    · rcases h.alloc m a ha with hmem | ⟨q, hq⟩
      · exact Or.inl (List.mem_cons_of_mem _ hmem)
      · exact Or.inr ⟨q, (hsame goneOf rfl rfl q).trans hq⟩
  · intro m a ha
    show a.ref_count = fiberCard (Function.update c.held r (some n)) m
    rcases hnodes m a ha with ⟨rfl, rfl⟩ | ⟨hmn, ha⟩
    · exact hself.symm
    · rw [hadd, if_neg (Ne.symm hmn)]
      exact h.refs m a ha
  -- `count`: the new inode has one reference and a `reclaim_count` of 1.
  · intro m hm a ha
    show a.reclaim_count + fiberCard (fun q => midOf (Function.update c.pc p .loadUnlock q)) m =
      fiberCard (fun q => waitOf (Function.update c.pc p .loadUnlock q)) m +
        if 0 < fiberCard (Function.update c.held r (some n)) m then 1 else 0
    rw [hmid, hwait]
    rcases hnodes m a ha with ⟨rfl, rfl⟩ | ⟨hmn, ha⟩
    · have hmid₀ : mid c m = 0 := mid_eq_zero fun q hq => hnew (h.link q m (midOf_link hq).1)
      have hwait₀ : pending c m = 0 := pending_eq_zero fun q hq =>
        hnew (h.link q m (waitOf_link hq))
      rw [hmid₀, hwait₀, hself]
      rfl
    · rw [hadd, if_neg (Ne.symm hmn)]
      exact h.count m ((List.mem_cons.mp hm).resolve_left hmn) a ha
  · intro q m hq
    replace hq : doomOf (Function.update c.pc p .loadUnlock q) = some m := hq
    rw [hsame doomOf rfl rfl] at hq
    obtain ⟨hzero, hpend, hone⟩ := h.doom q m hq
    refine ⟨?_, (hwait m).trans hpend, ?_⟩
    · show fiberCard (Function.update c.held r (some n)) m = 0
      rw [hadd, hzero, if_neg (Ne.symm (hout q m hq))]
    · intro q' hq'
      replace hq' : doomOf (Function.update c.pc p .loadUnlock q') = some m := hq'
      rw [hsame doomOf rfl rfl] at hq'
      exact hone q' hq'
  -- `alive`: the new inode has a holder, and for the others nothing has changed.
  · intro m hm
    show 0 < fiberCard (Function.update c.held r (some n)) m ∨ _
    rw [hadd]
    by_cases hmn : m = n
    · rw [if_pos hmn.symm]
      exact Or.inl (Nat.succ_pos _)
    · rcases h.alive m ((List.mem_cons.mp hm).resolve_left hmn) with hl | hl | ⟨q, hq⟩
      · exact Or.inl (by omega)
      · exact Or.inr (Or.inl (lt_of_lt_of_eq hl (hwait m).symm))
      · exact Or.inr (Or.inr ⟨q, (hsame doomOf rfl rfl q).trans hq⟩)

/-- `sfs_remove_links` -/
theorem CacheOk.remove (h : CacheOk c) (hpc : c.pc p = .flush n) :
    CacheOk { c with
      hash_list := c.hash_list.erase n
      pc := Function.update c.pc p (.removed n) } := by
  have hlocked : locked (c.pc p) = true := by
    rw [hpc]
    rfl
  obtain ⟨hzero, hpend, hone⟩ := h.doom p n (by rw [hpc]; rfl)
  have hn := h.link p n (by rw [hpc]; rfl)
  have hmem : ∀ m, m ∈ c.hash_list.erase n ↔ m ≠ n ∧ m ∈ c.hash_list := fun m =>
    List.Nodup.mem_erase_iff h.nodup
  have hsame : ∀ f : CachePc N → Option N, f (.removed n) = f (.flush n) →
      ∀ q, f (Function.update c.pc p (.removed n) q) = f (c.pc q) := by
    intro f hf q
    rcases pc_cases c.pc p q (.removed n) with ⟨rfl, heq⟩ | ⟨-, heq⟩ <;> rw [heq]
    rw [hpc, hf]
  have hwait : ∀ m, fiberCard (fun q => waitOf (Function.update c.pc p (.removed n) q)) m =
      pending c m := fun m => congrArg (fun f => fiberCard f m) (funext (hsame waitOf rfl))
  have hmid : ∀ m, fiberCard (fun q => midOf (Function.update c.pc p (.removed n) q)) m =
      mid c m := fun m => congrArg (fun f => fiberCard f m) (funext (hsame midOf rfl))
  refine ⟨h.lock_keep (by rw [hpc]; rfl), ?_, h.nodup.erase n, ?_, ?_, ?_, ?_, ?_, ?_, h.refs, ?_,
    ?_, ?_⟩
  · intro m hm
    exact h.node m ((hmem m).mp hm).2
  · intro m hm k hk
    exact h.unique m ((hmem m).mp hm).2 k ((hmem k).mp hk).2
  · intro q ino hq m hm
    replace hq : Function.update c.pc p (.removed n) q = .create ino := hq
    rcases pc_cases c.pc p q (.removed n) with ⟨-, heq⟩ | ⟨-, heq⟩ <;> rw [heq] at hq
    · cases hq
    · exact h.absent q ino hq m ((hmem m).mp hm).2
  · intro r m hr
    refine (hmem m).mpr ⟨?_, h.held r m hr⟩
    rintro rfl
    have hpos : 0 < holders c m := holders_pos hr
    omega
  · intro q m hq
    replace hq : linkOf (Function.update c.pc p (.removed n) q) = some m := hq
    rcases pc_cases c.pc p q (.removed n) with ⟨-, heq⟩ | ⟨hqp, heq⟩ <;> rw [heq] at hq
    · cases hq
    · refine (hmem m).mpr ⟨?_, h.link q m hq⟩
      rintro rfl
      -- Nobody else uses the inode: no reclaim is to come, and the lock is taken.
      have hother : ∀ x, c.pc q = x → locked x = false := by
        rintro x rfl
        by_contra hl
        exact hqp (h.locked_eq hlocked (by simpa using hl))
      have hnowait : waitOf (c.pc q) ≠ some m := by
        intro hw
        have hpos := pending_pos hw
        omega
      cases hqpc : c.pc q <;> rw [hqpc] at hq hnowait <;> cases hq
      · cases hother _ hqpc
      · exact hnowait rfl
      · exact hnowait rfl
      · cases hother _ hqpc
  · intro q m hq
    replace hq : goneOf (Function.update c.pc p (.removed n) q) = some m := hq
    rcases pc_cases c.pc p q (.removed n) with ⟨-, heq⟩ | ⟨-, heq⟩ <;> rw [heq] at hq
    · cases hq
      refine ⟨?_, h.node n hn⟩
      rw [hmem]
      exact fun hne => hne.1 rfl
    · obtain ⟨hgone, hnode⟩ := h.gone q m hq
      exact ⟨fun hm => hgone ((hmem m).mp hm).2, hnode⟩
  · intro m a ha
    by_cases hmn : m = n
    · refine Or.inr ⟨p, ?_⟩
      show goneOf (Function.update c.pc p (.removed n) p) = some m
      rw [Function.update_self, hmn]
      rfl
    · rcases h.alloc m a ha with hm | ⟨q, hq⟩
      · exact Or.inl ((hmem m).mpr ⟨hmn, hm⟩)
      · refine Or.inr ⟨q, ?_⟩
        show goneOf (Function.update c.pc p (.removed n) q) = some m
        rcases pc_cases c.pc p q (.removed n) with ⟨rfl, -⟩ | ⟨-, heq⟩
        · rw [hpc] at hq
          cases hq
        · rw [heq]
          exact hq
  · intro m hm a ha
    show a.reclaim_count + fiberCard (fun q => midOf (Function.update c.pc p (.removed n) q)) m =
      fiberCard (fun q => waitOf (Function.update c.pc p (.removed n) q)) m + _
    rw [hmid, hwait]
    exact h.count m ((hmem m).mp hm).2 a ha
  · intro q m hq
    replace hq : doomOf (Function.update c.pc p (.removed n) q) = some m := hq
    rw [hsame doomOf rfl] at hq
    obtain ⟨hz, hp, ho⟩ := h.doom q m hq
    refine ⟨hz, (hwait m).trans hp, ?_⟩
    intro q' hq'
    replace hq' : doomOf (Function.update c.pc p (.removed n) q') = some m := hq'
    rw [hsame doomOf rfl] at hq'
    exact ho q' hq'
  · intro m hm
    rcases h.alive m ((hmem m).mp hm).2 with hl | hl | ⟨q, hq⟩
    · exact Or.inl hl
    · exact Or.inr (Or.inl (lt_of_lt_of_eq hl (hwait m).symm))
    · exact Or.inr (Or.inr ⟨q, (hsame doomOf rfl q).trans hq⟩)

/-- `vop_kill` -/
theorem CacheOk.kill (h : CacheOk c) (hpc : c.pc p = .kill n) :
    CacheOk { c with
      node := Function.update c.node n none
      pc := Function.update c.pc p .out } := by
  have hdoomed : doomOf (c.pc p) = some n := by
    rw [hpc]
    rfl
  obtain ⟨hzero, hpend, hone⟩ := h.doom p n hdoomed
  obtain ⟨hout, -⟩ := h.gone p n (by rw [hpc]; rfl)
  have hne : ∀ m ∈ c.hash_list, m ≠ n := by
    rintro m hm rfl
    exact hout hm
  have hsame : ∀ f : CachePc N → Option N, f .out = f (.kill n) →
      ∀ q, f (Function.update c.pc p .out q) = f (c.pc q) := by
    intro f hf q
    rcases pc_cases c.pc p q .out with ⟨rfl, heq⟩ | ⟨-, heq⟩ <;> rw [heq]
    rw [hpc, hf]
  have hwait : ∀ m, fiberCard (fun q => waitOf (Function.update c.pc p .out q)) m =
      pending c m := fun m => congrArg (fun f => fiberCard f m) (funext (hsame waitOf rfl))
  have hmid : ∀ m, fiberCard (fun q => midOf (Function.update c.pc p .out q)) m =
      mid c m := fun m => congrArg (fun f => fiberCard f m) (funext (hsame midOf rfl))
  have hnodes : ∀ m a, Function.update c.node n none m = some a → m ≠ n ∧ c.node m = some a := by
    intro m a ha
    by_cases hm : m = n
    · rw [hm, Function.update_self] at ha
      cases ha
    · rw [Function.update_of_ne hm] at ha
      exact ⟨hm, ha⟩
  -- Whoever is going to free another inode still is.
  have hdoom' : ∀ q m, doomOf (Function.update c.pc p .out q) = some m →
      doomOf (c.pc q) = some m ∧ m ≠ n := by
    intro q m hq
    rcases pc_cases c.pc p q .out with ⟨-, heq⟩ | ⟨hqp, heq⟩ <;> rw [heq] at hq
    · cases hq
    · refine ⟨hq, ?_⟩
      rintro rfl
      exact hqp (hone q hq)
  have hdoom : ∀ q m, m ≠ n → doomOf (c.pc q) = some m →
      doomOf (Function.update c.pc p .out q) = some m := by
    intro q m hm hq
    rcases pc_cases c.pc p q .out with ⟨rfl, -⟩ | ⟨-, heq⟩
    · rw [hdoomed] at hq
      exact absurd (Option.some.inj hq).symm hm
    · rw [heq]
      exact hq
  refine ⟨h.lock_keep (by rw [hpc]; rfl), ?_, h.nodup, ?_, ?_, h.held, ?_, ?_, ?_, ?_, ?_, ?_, ?_⟩
  · intro m hm
    obtain ⟨a, ha⟩ := h.node m hm
    exact ⟨a, (Function.update_of_ne (hne m hm) ..).trans ha⟩
  · intro m hm k hk a b ha hb
    exact h.unique m hm k hk a b (hnodes m a ha).2 (hnodes k b hb).2
  · intro q ino hq m hm a ha
    replace hq : Function.update c.pc p .out q = .create ino := hq
    rcases pc_cases c.pc p q .out with ⟨-, heq⟩ | ⟨-, heq⟩ <;> rw [heq] at hq
    · cases hq
    · exact h.absent q ino hq m hm a (hnodes m a ha).2
  · intro q m hq
    replace hq : linkOf (Function.update c.pc p .out q) = some m := hq
    rw [hsame linkOf rfl] at hq
    exact h.link q m hq
  · intro q m hq
    replace hq : goneOf (Function.update c.pc p .out q) = some m := hq
    obtain ⟨-, hmn⟩ := hdoom' q m (goneOf_doom hq)
    rcases pc_cases c.pc p q .out with ⟨-, heq⟩ | ⟨-, heq⟩ <;> rw [heq] at hq
    · cases hq
    · obtain ⟨hgone, a, ha⟩ := h.gone q m hq
      exact ⟨hgone, a, (Function.update_of_ne hmn ..).trans ha⟩
  · intro m a ha
    obtain ⟨hmn, ha⟩ := hnodes m a ha
    rcases h.alloc m a ha with hm | ⟨q, hq⟩
    · exact Or.inl hm
    · refine Or.inr ⟨q, ?_⟩
      show goneOf (Function.update c.pc p .out q) = some m
      rcases pc_cases c.pc p q .out with ⟨rfl, -⟩ | ⟨-, heq⟩
      · rw [hpc] at hq
        exact absurd (Option.some.inj hq).symm hmn
      · rw [heq]
        exact hq
  · intro m a ha
    exact h.refs m a (hnodes m a ha).2
  · intro m hm a ha
    show a.reclaim_count + fiberCard (fun q => midOf (Function.update c.pc p .out q)) m =
      fiberCard (fun q => waitOf (Function.update c.pc p .out q)) m + _
    rw [hmid, hwait]
    exact h.count m hm a (hnodes m a ha).2
  · intro q m hq
    obtain ⟨hq, hmn⟩ := hdoom' q m hq
    obtain ⟨hz, hp, ho⟩ := h.doom q m hq
    exact ⟨hz, (hwait m).trans hp, fun q' hq' => ho q' (hdoom' q' m hq').1⟩
  · intro m hm
    rcases h.alive m hm with hl | hl | ⟨q, hq⟩
    · exact Or.inl hl
    · exact Or.inr (Or.inl (lt_of_lt_of_eq hl (hwait m).symm))
    · exact Or.inr (Or.inr ⟨q, hdoom q m (hne m hm) hq⟩)

/-- A lookup that finds nothing has seen that no inode on the list has the number. -/
theorem absent_of_find {ino : Nat} (hfind : c.find ino = none) :
    ∀ n ∈ c.hash_list, ∀ a, c.node n = some a → a.ino ≠ ino := by
  rintro n hn a ha rfl
  have hno := List.find?_eq_none.mp hfind n hn
  simp [ha] at hno

/-- Every step keeps the invariant. There is one case for each place where a process can be. -/
theorem cacheOk_step (h : CacheOk c) (hstep : CacheStep p c c') : CacheOk c' := by
  cases hstep with
  | load ino hpc =>
    apply h.move (h.lock_keep (by rw [hpc]; rfl))
    all_goals simp [hpc, waitOf, midOf, doomOf, goneOf, linkOf]
  | loadLock ino hpc hlock =>
    apply h.move (h.lock_take hlock rfl)
    all_goals simp [hpc, waitOf, midOf, doomOf, goneOf, linkOf]
  | lookupInc ino n node r hpc hfind hnode hr => exact h.lookupInc hpc hfind hnode hr
  | lookupRevive n node hpc hnode => exact h.lookupRevive hpc hnode
  | lookupDone n k hpc hk =>
    apply h.move (h.lock_keep (by rw [hpc]; rfl))
    all_goals simp [hpc, waitOf, midOf, doomOf, goneOf, linkOf, hk]
  | lookupNone ino hpc hfind =>
    apply h.move (h.lock_keep (by rw [hpc]; rfl))
    case habsent =>
      rintro ino' ⟨⟩
      exact absent_of_find hfind
    all_goals simp [hpc, waitOf, midOf, doomOf, goneOf, linkOf]
  | create ino n r hpc hnode hr => exact h.create hpc hnode hr
  | createFail ino hpc =>
    apply h.move (h.lock_keep (by rw [hpc]; rfl))
    all_goals simp [hpc, waitOf, midOf, doomOf, goneOf, linkOf]
  | loadUnlock hpc =>
    apply h.move (h.lock_give (by rw [hpc]; rfl) rfl)
    all_goals simp [hpc, waitOf, midOf, doomOf, goneOf, linkOf]
  | refInc n node r r' hpc hr hnode hr' =>
    have hinc := h.refInc hpc hr hnode hr'
    rwa [← hpc, Function.update_eq_self] at hinc
  | refDec n node r hpc hr hnode hpos => exact h.refDec hpc hr hnode hpos
  | reclaimLock n hpc hlock =>
    apply h.move (h.lock_take hlock rfl)
    case hlink =>
      rintro m ⟨⟩
      exact h.link p n (by rw [hpc]; rfl)
    all_goals simp [hpc, waitOf, midOf, doomOf, goneOf]
  | reclaim n node hpc hnode hpos => exact h.reclaim hpc hnode hpos
  | busyUnlock hpc =>
    apply h.move (h.lock_give (by rw [hpc]; rfl) rfl)
    all_goals simp [hpc, waitOf, midOf, doomOf, goneOf, linkOf]
  | remove n hpc => exact h.remove hpc
  | removeUnlock n hpc =>
    apply h.move (h.lock_give (by rw [hpc]; rfl) rfl)
    case hgone =>
      rintro m ⟨⟩
      exact (h.gone p n (by rw [hpc]; rfl)).1
    all_goals simp [hpc, waitOf, midOf, doomOf, goneOf, linkOf]
  | kill n node hpc hnode hzero => exact h.kill hpc

/-- The invariant holds in every state of a run. -/
theorem cacheOk_of_run (h : CacheRun c) : CacheOk c := by
  induction h with
  | init c hnode hlist hlock hpc hheld =>
    constructor
    case refs =>
      intro n node hn
      rw [hnode] at hn
      cases hn
    case alloc =>
      intro n node hn
      rw [hnode] at hn
      cases hn
    all_goals simp [hlist, hlock, hpc, hheld, locked, linkOf, goneOf, doomOf]
  | step p _ hstep ih => exact cacheOk_step ih hstep

/-- No assertion fails, and nobody uses an inode that has been freed. -/
theorem CacheOk.not_fails (h : CacheOk c) : ¬ CacheFails p c := by
  rintro (⟨n, hnone, hcases⟩ | ⟨n, node, r, hr, hnode, hzero⟩ | ⟨n, node, hpc, hnode, hzero⟩ |
    ⟨n, node, hpc, hnode, hne⟩)
  · have hlive : n ∈ c.hash_list ∨ goneOf (c.pc p) = some n := by
      rcases hcases with hpc | hpc | hpc | hpc | hpc | ⟨k, hpc⟩ | hn | ⟨r, hr⟩
      · exact Or.inl (h.link p n (by rw [hpc]; rfl))
      · exact Or.inl (h.link p n (by rw [hpc]; rfl))
      · exact Or.inl (h.link p n (by rw [hpc]; rfl))
      · exact Or.inr (by rw [hpc]; rfl)
      · exact Or.inr (by rw [hpc]; rfl)
      · exact Or.inl (h.link p n (by rw [hpc]; rfl))
      · exact Or.inl hn
      · exact Or.inl (h.held r n hr)
    obtain ⟨node, hnode⟩ : ∃ node, c.node n = some node := by
      rcases hlive with hn | hgone
      · exact h.node n hn
      · exact (h.gone p n hgone).2
    rw [hnone] at hnode
    cases hnode
  · have hpos := holders_pos hr
    have hrefs := h.refs n node hnode
    omega
  · have hcount := h.count n (h.link p n (by rw [hpc]; rfl)) node hnode
    have hmid : mid c n = 0 := mid_eq_zero fun q hq => by
      have hqp := h.locked_eq (p := p) (by rw [hpc]; rfl) (midOf_link hq).2
      rw [hqp, hpc] at hq
      cases hq
    have hpend : 0 < pending c n := pending_pos (p := p) (by rw [hpc]; rfl)
    omega
  · have hzero := (h.doom p n (by rw [hpc]; rfl)).1
    exact hne ((h.refs n node hnode).trans hzero)

/-- The other reclaims of an inode that are to come. -/
theorem other_wait (hpc : c.pc p = .reclaim n) :
    1 < pending c n ↔ ∃ q, q ≠ p ∧ waitOf (c.pc q) = some n := by
  have hleave : fiberCard (fun q => waitOf (Function.update c.pc p .busy q)) n + 1 =
      pending c n := fiberCard_leave (by rw [hpc]; rfl) (by simp [waitOf])
  have hpos : 1 < pending c n ↔
      0 < fiberCard (fun q => waitOf (Function.update c.pc p .busy q)) n := by omega
  rw [hpos, fiberCard_pos_iff]
  refine exists_congr fun q => ?_
  rcases pc_cases c.pc p q .busy with ⟨hqp, heq⟩ | ⟨hqp, heq⟩ <;> rw [heq] <;>
    simp [hqp, waitOf]

/-- The test of `sfs_reclaim` under the lock, and where it leads. -/
theorem reclaim_step (hpc : c.pc p = .reclaim n) (hstep : CacheStep p c c') :
    ∃ node, c.node n = some node ∧ 0 < node.reclaim_count ∧
      c'.pc p = if node.reclaim_count - 1 ≠ 0 ∨ node.ref_count ≠ 0 then .busy else .flush n := by
  cases hstep with
  | reclaim m node hpc' hnode hpos =>
    cases hpc'.symm.trans hpc
    exact ⟨node, hnode, hpos, Function.update_self ..⟩
  | _ => simp_all

/-- A reclaim gives up when the inode has a reference or another reclaim of it is to come. -/
theorem CacheOk.reclaim_iff (h : CacheOk c) (hpc : c.pc p = .reclaim n)
    (hstep : CacheStep p c c') : c'.pc p =
      if (∃ r, c.held r = some n) ∨ ∃ q, q ≠ p ∧ waitOf (c.pc q) = some n then .busy
      else .flush n := by
  obtain ⟨node, hnode, hpos, hpc'⟩ := reclaim_step hpc hstep
  have hn := h.link p n (by rw [hpc]; rfl)
  have hrefs := h.refs n node hnode
  have hcount := h.count n hn node hnode
  have hmid : mid c n = 0 := mid_eq_zero fun q hq => by
    have hqp := h.locked_eq (p := p) (by rw [hpc]; rfl) (midOf_link hq).2
    rw [hqp, hpc] at hq
    cases hq
  have hheld : (∃ r, c.held r = some n) ↔ 0 < holders c n := fiberCard_pos_iff.symm
  rw [hpc']
  refine if_congr ?_ rfl rfl
  rw [← other_wait hpc, hheld]
  split at hcount <;> omega

/-! ### The cache over all runs -/

/-- In every state of every run: the hash list has one inode for each number; a place that
holds a reference names an inode on the list, whose count is the number of such places; an
inode that is in memory is on the list, or off it with one process that frees it, and then
nobody holds it; a reclaim gives up when a reference or another reclaim is there, and frees
otherwise; an inode without references has a reclaim to come. Nobody uses a freed inode. -/
theorem cache_exact (hrun : CacheRun c) :
    (c.hash_list.Nodup ∧ ∀ n ∈ c.hash_list, ∀ m ∈ c.hash_list, ∀ a b, c.node n = some a →
      c.node m = some b → a.ino = b.ino → n = m) ∧
    (∀ r n, c.held r = some n → n ∈ c.hash_list ∧
      ∃ node, c.node n = some node ∧ node.ref_count = holders c n) ∧
    (∀ n node, c.node n = some node → n ∈ c.hash_list ∨ ∃ p, goneOf (c.pc p) = some n) ∧
    (∀ p n, goneOf (c.pc p) = some n → n ∉ c.hash_list ∧ (∃ node, c.node n = some node) ∧
      (∀ r, c.held r ≠ some n) ∧ (∀ q, waitOf (c.pc q) ≠ some n) ∧
      ∀ q, doomOf (c.pc q) = some n → q = p) ∧
    (∀ p n c', c.pc p = .reclaim n → CacheStep p c c' → c'.pc p =
      if (∃ r, c.held r = some n) ∨ ∃ q, q ≠ p ∧ waitOf (c.pc q) = some n then .busy
      else .flush n) ∧
    (∀ n ∈ c.hash_list, (∃ r, c.held r = some n) ∨ (∃ p, waitOf (c.pc p) = some n) ∨
      ∃ p, doomOf (c.pc p) = some n) ∧
    ∀ p, ¬ CacheFails p c := by
  have h := cacheOk_of_run hrun
  refine ⟨⟨h.nodup, h.unique⟩, ?_, h.alloc, ?_, ?_, ?_, fun p => h.not_fails⟩
  · intro r n hr
    obtain ⟨node, hnode⟩ := h.node n (h.held r n hr)
    exact ⟨h.held r n hr, node, hnode, h.refs n node hnode⟩
  · intro p n hgone
    obtain ⟨hout, hnode⟩ := h.gone p n hgone
    obtain ⟨hheld, hwait, hone⟩ := h.doom p n (goneOf_doom hgone)
    refine ⟨hout, hnode, ?_, ?_, hone⟩
    · intro r hr
      have hpos := holders_pos hr
      omega
    · intro q hq
      have hpos := pending_pos hq
      omega
  · intro p n c' hpc hstep
    exact h.reclaim_iff hpc hstep
  · intro n hn
    rcases h.alive n hn with hl | hl | hl
    · exact Or.inl (fiberCard_pos_iff.mp hl)
    · exact Or.inr (Or.inl (fiberCard_pos_iff.mp hl))
    · exact Or.inr (Or.inr hl)

/-- Two processes, two addresses and nothing in memory. -/
def emptyCache : Cache Bool Bool Bool where
  node _ := none
  hash_list := []
  lock := none
  pc _ := .out
  held _ := none

/-- The process `false` has loaded the inode 5 and dropped it. -/
def droppedCache : { c : Cache Bool Bool Bool // CacheRun c } :=
  ⟨_, .step false (.step false (.step false (.step false (.step false (.step false
    (.init emptyCache (fun _ => rfl) rfl rfl (fun _ => rfl) fun _ => rfl)
    (.load 5 rfl)) (.loadLock 5 rfl rfl)) (.lookupNone 5 rfl rfl))
    (.create 5 false false rfl rfl rfl)) (.loadUnlock rfl))
    (.refDec false _ false rfl rfl rfl Nat.one_pos)⟩

/-- The process `false` has reclaimed the inode and stands in front of `vop_kill`. -/
def removedCache : { c : Cache Bool Bool Bool // CacheRun c } :=
  ⟨_, .step false (.step false (.step false (.step false droppedCache.2
    (.reclaimLock false rfl rfl)) (.reclaim false _ rfl rfl Nat.one_pos)) (.remove false rfl))
    (.removeUnlock false rfl)⟩

/-- The process `true` has loaded the inode 5 once more, before that. -/
def reloadedCache : { c : Cache Bool Bool Bool // CacheRun c } :=
  ⟨_, .step true (.step true (.step true (.step true removedCache.2
    (.load 5 rfl)) (.loadLock 5 rfl rfl)) (.lookupNone 5 rfl rfl))
    (.create 5 true true rfl rfl rfl)⟩

/-- The hash list has the second of the two inodes. The first one is with `false`, without a
reference, and it is `false` alone that frees it. -/
theorem cache_exact_reloaded : reloadedCache.1.hash_list = [true] ∧
    reloadedCache.1.pc false = .kill false ∧ (∀ r, reloadedCache.1.held r ≠ some false) ∧
    (∀ q, doomOf (reloadedCache.1.pc q) = some false → q = false) ∧
    ∀ p, ¬ CacheFails p reloadedCache.1 := by
  obtain ⟨-, -, -, hgone, -, -, hfails⟩ := cache_exact reloadedCache.2
  obtain ⟨-, -, hheld, -, hone⟩ := hgone false false rfl
  exact ⟨rfl, rfl, hheld, hone, hfails⟩

/-- The process `true` looks the inode up while `false` is in front of the lock of
`sfs_reclaim`, drops it, and takes the lock first: it is `true` that gives up, and `false` frees
the inode. When `false` has reclaimed the inode, `true` loads another one of the same number
before the first is killed. -/
theorem revived_not_given_up : (¬ ∀ c₁ c₂ c₃ c₄ c₅ c₆ : Cache Bool Bool Bool, CacheRun c₁ →
    c₁.pc false = .drop false → Relation.ReflTransGen (CacheStep true) c₁ c₂ →
    c₂.pc true = .found false 1 → CacheStep true c₂ c₃ →
    Relation.ReflTransGen (CacheStep true) c₃ c₄ → CacheStep false c₄ c₅ →
    CacheStep false c₅ c₆ → c₆.pc false = .busy) ∧
    ∃ c : Cache Bool Bool Bool, CacheRun c ∧ c.pc false = .kill false ∧
      (c.node false).map CacheNode.ino = some 5 ∧ (c.node true).map CacheNode.ino = some 5 := by
  constructor
  · intro hclaim
    have hbusy := hclaim droppedCache.1 _ _ _ _ _ droppedCache.2 rfl
      (((Relation.ReflTransGen.refl.tail (.load 5 rfl)).tail (.loadLock 5 rfl rfl)).tail
        (.lookupInc 5 false _ true rfl rfl rfl rfl)) rfl
      (.lookupRevive false _ rfl rfl)
      (((((Relation.ReflTransGen.refl.tail (.loadUnlock rfl)).tail
        (.refDec false _ true rfl rfl rfl Nat.one_pos)).tail (.reclaimLock false rfl rfl)).tail
        (.reclaim false _ rfl rfl Nat.two_pos)).tail (.busyUnlock rfl))
      (.reclaimLock false rfl rfl) (.reclaim false _ rfl rfl Nat.one_pos)
    cases hbusy
  · exact ⟨reloadedCache.1, reloadedCache.2, rfl, rfl, rfl⟩

end Ucore.Proofs.Fs
