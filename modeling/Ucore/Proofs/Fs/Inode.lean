import Ucore.Proofs.Fs.Limit
import Ucore.Proofs.Fs.Volume

/-!
# `Ucore.Proofs.Fs.Inode`: references to inodes

A call takes references to inodes and gives them back. `Counted` is the invariant of a volume while
a call runs: `opn` tells how often each inode is open, and `held` how many references the call has
in its hands beside those. `Evolves` says what a call has done to the files.

## References

`sfs_load_inode` finds an inode in memory or reads it, and takes a reference (`load_inode`).
`vop_ref_dec` gives one back. The last one reclaims the inode, which writes it back and drops it
(`ref_dec`). `vop_open_inc` and `vop_open_dec` count how often it is open. Each of these is a lemma
that moves one unit between `held`, `opn` and the inode in memory. `more` adds one to what is held,
so that a lemma about a call in the middle of another one reads like one about a call alone.

## Panics

`ByRequest` lists the panics that a request can still run into, nine in all. Its docstring says for
each of them what is compared with what. The others are out of reach: `SfsPanic` has a constructor
for each assertion and each call of `panic` of the source, and those about blocks in use, about the
range of a block number, about a count that is zero and about an index in a block are never met.
-/

set_option autoImplicit false

namespace Ucore.Proofs.Fs

open Ucore.Lib Ucore.Fs

variable {I : Finset Nat} {i j : Nat} {sfs sfs' sfs'' : Sfs} {sin : SfsInode} {n m : Nat → Prop}

/-- The panics that a request can run into. Five are about the request alone, or about what the path
leads to:

* `noVop`: the inode has no such function;
* `lookupPath`, `nameLength`: the path is empty or begins with a slash, or the name is too long;
* `fileType`: the inode on the disk is neither a directory nor a regular file;
* `getRoot`: there is no memory for the inode of the root.

Four depend on what earlier calls have left behind:

* `inodeCheck`: the inode has `MAX_INODE_COUNT` references;
* `loadIndex`: the position lies behind the block that comes next, `din->blocks`;
* `bmapRange`: the file would grow over the end of its block map;
* `truncBlocks`: the file has the length asked for, and other blocks. An earlier `seek` that found no
  more blocks leaves a file behind that a later `O_TRUNC` stops at. -/
def ByRequest : SfsPanic → Prop
  | .noVop | .inodeCheck | .lookupPath | .nameLength | .fileType | .getRoot | .loadIndex
  | .bmapRange | .truncBlocks => True
  | _ => False

/-- The panics of `ByRequest`, but `loadIndex`, `bmapRange` and `truncBlocks` only when the blocks
of a file give cause for them. -/
def Refuses (index range blocks : Prop) : SfsPanic → Prop
  | .noVop | .inodeCheck | .lookupPath | .nameLength | .fileType | .getRoot => True
  | .loadIndex => index
  | .bmapRange => range
  | .truncBlocks => blocks
  | _ => False

/-- Whatever gives the cause, the panic is one of the nine. -/
theorem Refuses.byRequest {index range blocks : Prop} {p : SfsPanic}
    (h : Refuses index range blocks p) : ByRequest p := by
  cases p <;> trivial

/-- A panic stays possible when more may give cause for it. -/
theorem Refuses.mono {index range blocks index' range' blocks' : Prop} {p : SfsPanic}
    (h : Refuses index range blocks p) (hindex : index → index') (hrange : range → range')
    (hblocks : blocks → blocks') : Refuses index' range' blocks' p := by
  cases p <;> first | trivial | exact hindex h | exact hrange h | exact hblocks h

/-! ### What a call does to the files -/

variable {index range blocks : Prop}

/-- Files other than those in `n` have been written back or dropped from memory, and nothing else. -/
structure Evolves (I : Finset Nat) (n : Nat → Prop) (sfs sfs' : Sfs) : Prop where
  super : sfs'.super = { sfs.super with unused_blocks := sfs'.super.unused_blocks }
  nbits : sfs'.freemap.nbits = sfs.freemap.nbits
  nwords : sfs'.freemap.nwords = sfs.freemap.nwords
  superDirty : sfs'.super_dirty = false →
    sfs.super_dirty = false ∧ sfs'.super = sfs.super ∧ sfs'.freemap = sfs.freemap
  zero : sfs'.dev 0 = sfs.dev 0
  map : ∀ k, slot I sfs (.freemap k) ≠ 0 →
    sfs'.dev (slot I sfs (.freemap k)) = sfs.dev (slot I sfs (.freemap k))
  settled : ∀ i ∈ I, ¬ n i → Settled (view sfs i) (view sfs' i)
  covered : Covered (slot I sfs) sfs.freemap.isFree sfs.super.blocks →
    Covered (slot I sfs') sfs'.freemap.isFree sfs'.super.blocks

/-- A call that has changed no file. -/
theorem Quiet.evolves (h : Quiet I sfs sfs') : Evolves I n sfs sfs' where
  super := by rw [h.super]
  nbits := by rw [h.freemap]
  nwords := by rw [h.freemap]
  superDirty := fun hd => ⟨h.superDirty.symm.trans hd, h.super, h.freemap⟩
  zero := h.zero
  map := h.map
  settled := fun i hi _ => h.settled i hi
  covered := h.covered

/-- A call that has changed one file. -/
theorem Kept.evolves (h : Kept I i sfs sfs') (hpos : ∀ j ∈ I, j ≠ 0) (hn : n i) :
    Evolves I n sfs sfs' where
  super := h.super
  nbits := h.nbits
  nwords := h.nwords
  superDirty := h.superDirty
  zero := h.zero
  map := fun k hk => h.dev (.freemap k) (fun heq => by cases heq) hk
  settled := by
    intro j hj hnj
    have hne : j ≠ i := by
      rintro rfl
      exact hnj hn
    rw [h.view_eq hpos hj hne]
    exact .same
  covered := h.covered

/-- A call that has done nothing. -/
theorem Evolves.refl (sfs : Sfs) : Evolves I n sfs sfs := (Quiet.refl sfs).evolves

/-- The places of the free map are the same. -/
theorem Evolves.slot_freemap (h : Evolves I n sfs sfs') (k : Nat) :
    slot I sfs' (.freemap k) = slot I sfs (.freemap k) := by
  show (if k < sfs_freemap_blocks sfs'.super then 2 + k else 0) = _
  rw [h.super]
  rfl

/-- One call after another. -/
theorem Evolves.trans (h : Evolves I n sfs sfs') (h' : Evolves I n sfs' sfs'') :
    Evolves I n sfs sfs'' where
  super := by rw [h'.super, h.super]
  nbits := h'.nbits.trans h.nbits
  nwords := h'.nwords.trans h.nwords
  superDirty := by
    intro hd
    obtain ⟨hd', hsuper', hfree'⟩ := h'.superDirty hd
    obtain ⟨hd'', hsuper, hfree⟩ := h.superDirty hd'
    exact ⟨hd'', hsuper'.trans hsuper, hfree'.trans hfree⟩
  zero := h'.zero.trans h.zero
  map := by
    intro k hk
    have h₂ := h'.map k
    rw [h.slot_freemap] at h₂
    exact (h₂ hk).trans (h.map k hk)
  settled := fun i hi hni => (h.settled i hi hni).trans (h'.settled i hi hni)
  covered := fun hc => h'.covered (h.covered hc)

/-! ### The counts -/

/-- The volume is sound, each inode is open as often as `opn` tells, and it has as many references
more as `held` tells, or more. -/
structure Counted (I : Finset Nat) (held opn : Nat → Nat) (sfs : Sfs) : Prop where
  volume : Volume I sfs
  isOpen : opens sfs = opn
  enough : ∀ i, opn i + held i ≤ refs sfs i

variable {held opn : Nat → Nat}

/-- An inode that is not in memory has no reference. -/
theorem refs_none (h : sfs.inodes i = none) : refs sfs i = 0 := by
  unfold refs
  rw [h]
  rfl

/-- An inode that is not in memory is not open. -/
theorem opens_none (h : sfs.inodes i = none) : opens sfs i = 0 := by
  unfold opens
  rw [h]
  rfl

/-- An inode that is held or open is in memory. -/
theorem Counted.exists_sin (h : Counted I held opn sfs) (hpos : 0 < opn i + held i) :
    ∃ sin, sfs.inodes i = some sin := by
  cases hsin : sfs.inodes i with
  | none =>
      have hle := h.enough i
      rw [refs_none hsin] at hle
      omega
  | some sin => exact ⟨sin, rfl⟩

/-- Less may be held. -/
theorem Counted.mono {held' : Nat → Nat} (h : Counted I held opn sfs)
    (hle : ∀ i, held' i ≤ held i) : Counted I held' opn sfs :=
  ⟨h.volume, h.isOpen, fun i => (Nat.add_le_add_left (hle i) _).trans (h.enough i)⟩

/-- No inode has the number 0. -/
theorem Counted.pos (h : Counted I held opn sfs) (hi : i ∈ I) : i ≠ 0 := h.volume.core.pos i hi

/-- One more reference in the hands of the call. -/
def more (held : Nat → Nat) (i : Nat) : Nat → Nat := Function.update held i (held i + 1)

/-- One reference more to the inode. -/
@[simp] theorem more_self (held : Nat → Nat) (i : Nat) : more held i i = held i + 1 :=
  Function.update_self ..

/-- One reference more to another inode. -/
theorem more_of_ne {held : Nat → Nat} (h : j ≠ i) : more held i j = held j :=
  Function.update_of_ne h ..

/-- One reference more is not fewer. -/
theorem le_more (held : Nat → Nat) (i j : Nat) : held j ≤ more held i j := by
  by_cases hji : j = i
  · simp [hji]
  · rw [more_of_ne hji]

/-- With one more there is a reference. -/
theorem more_pos (held : Nat → Nat) (i : Nat) : 0 < opn i + more held i i := by
  simp

/-! ### Changes of the counts -/

/-- Only the counts of one inode change. -/
theorem Counted.setCounts {held' opn' : Nat → Nat} {r o : Nat} (h : Counted I held opn sfs)
    (hsin : sfs.inodes i = some sin) (hr : 0 < r) (ho : o ≤ r)
    (hopn : opn' = Function.update opn i o)
    (hself : o + held' i ≤ r) (hother : ∀ j, j ≠ i → held' j ≤ held j) :
    Counted I held' opn' (withCounts sfs i sin r o) := by
  have hnew : (withCounts sfs i sin r o).inodes i =
      some { sin with ref_count := r, open_count := o } := Function.update_self ..
  have hsame : ∀ j, j ≠ i → (withCounts sfs i sin r o).inodes j = sfs.inodes j :=
    fun j hj => Function.update_of_ne hj ..
  have hok := h.volume.inode i sin hsin
  refine ⟨h.volume.quiet (quiet_withCounts h.volume hsin) ?_ ?_ h.volume.nodup, ?_, ?_⟩
  · intro j sin' hj
    by_cases hji : j = i
    · subst hji
      obtain rfl := Option.some.inj (hnew.symm.trans hj)
      exact ⟨hok.mem, hok.reclaim, hr, ho⟩
    · rw [hsame j hji] at hj
      exact h.volume.inode j sin' hj
  · intro j
    show j ∈ sfs.inode_list ↔ _
    rw [h.volume.list j]
    by_cases hji : j = i
    · rw [hji, hnew, hsin]
      rfl
    · rw [hsame j hji]
  · funext j
    rw [hopn]
    by_cases hji : j = i
    · rw [hji, opens_eq hnew, Function.update_self]
    · rw [Function.update_of_ne hji, ← h.isOpen]
      unfold opens
      rw [hsame j hji]
  · intro j
    rw [hopn]
    by_cases hji : j = i
    · rw [hji, refs_eq hnew, Function.update_self]
      exact hself
    · have hrefs : refs (withCounts sfs i sin r o) j = refs sfs j := by
        unfold refs
        rw [hsame j hji]
      rw [Function.update_of_ne hji, hrefs]
      exact (Nat.add_le_add_left (hother j hji) _).trans (h.enough j)

/-- The counts of an inode in memory. -/
theorem Counted.counts (h : Counted I held opn sfs) (hsin : sfs.inodes i = some sin) :
    sin.open_count = opn i ∧ opn i + held i ≤ sin.ref_count := by
  have hrefs := h.enough i
  rw [refs_eq hsin] at hrefs
  refine ⟨?_, hrefs⟩
  rw [← h.isOpen, opens_eq hsin]

/-- A change that leaves the counts of all inodes. -/
theorem Counted.quiet (h : Counted I held opn sfs) (hquiet : Quiet I sfs sfs')
    (hinode : ∀ i sin, sfs'.inodes i = some sin → InodeOk I i sin)
    (hlist : ∀ i, i ∈ sfs'.inode_list ↔ (sfs'.inodes i).isSome = true)
    (hnodup : sfs'.inode_list.Nodup) (hrefs : refs sfs' = refs sfs)
    (hopens : opens sfs' = opens sfs) : Counted I held opn sfs' where
  volume := h.volume.quiet hquiet hinode hlist hnodup
  isOpen := hopens.trans h.isOpen
  enough := fun i => by
    rw [hrefs]
    exact h.enough i

/-- An inode in memory has been written back. -/
theorem Counted.synced (h : Counted I held opn sfs) (hsin : sfs.inodes i = some sin)
    (hdirty : sin.dirty = true) : Counted I held opn (withSynced sfs i sin) := by
  have hnew : (withSynced sfs i sin).inodes i = some { sin with dirty := false } :=
    Function.update_self ..
  have hsame : ∀ j, j ≠ i → (withSynced sfs i sin).inodes j = sfs.inodes j :=
    fun j hj => Function.update_of_ne hj ..
  refine h.quiet (quiet_withSynced h.volume hsin hdirty) ?_ ?_ h.volume.nodup ?_ ?_
  · intro j sin' hj
    by_cases hji : j = i
    · subst hji
      obtain rfl := Option.some.inj (hnew.symm.trans hj)
      exact { h.volume.inode j sin hsin with }
    · rw [hsame j hji] at hj
      exact h.volume.inode j sin' hj
  · intro j
    show j ∈ sfs.inode_list ↔ _
    rw [h.volume.list j]
    by_cases hji : j = i
    · rw [hji, hnew, hsin]
      rfl
    · rw [hsame j hji]
  · funext j
    by_cases hji : j = i
    · rw [hji, refs_eq hnew, refs_eq hsin]
    · unfold refs
      rw [hsame j hji]
  · funext j
    by_cases hji : j = i
    · rw [hji, opens_eq hnew, opens_eq hsin]
    · unfold opens
      rw [hsame j hji]

/-- An inode that nobody refers to has been dropped. -/
theorem Counted.dropped (h : Counted I held opn sfs) (hsin : sfs.inodes i = some sin)
    (hdirty : sin.dirty = false) (hopn : opn i = 0) (hheld : held i = 0) :
    Counted I held opn (withDropped sfs i) := by
  have hnew : (withDropped sfs i).inodes i = none := Function.update_self ..
  have hsame : ∀ j, j ≠ i → (withDropped sfs i).inodes j = sfs.inodes j :=
    fun j hj => Function.update_of_ne hj ..
  refine ⟨h.volume.quiet (quiet_withDropped h.volume hsin hdirty) ?_ ?_
    (h.volume.nodup.erase i), ?_, ?_⟩
  · intro j sin' hj
    by_cases hji : j = i
    · rw [hji, hnew] at hj
      cases hj
    · rw [hsame j hji] at hj
      exact h.volume.inode j sin' hj
  · intro j
    show j ∈ sfs.inode_list.erase i ↔ _
    rw [h.volume.nodup.mem_erase_iff, h.volume.list j]
    by_cases hji : j = i
    · simp [hji, hnew]
    · simp [hji, hsame j hji]
  · funext j
    by_cases hji : j = i
    · rw [hji, opens_none hnew, hopn]
    · rw [← h.isOpen]
      unfold opens
      rw [hsame j hji]
  · intro j
    by_cases hji : j = i
    · simp [hji, hopn, hheld]
    · have hle := h.enough j
      unfold refs at hle ⊢
      rwa [hsame j hji]

/-- An inode has been loaded, with a reference for the call. -/
theorem Counted.loaded (h : Counted I held opn sfs) (hi : i ∈ I) (hnone : sfs.inodes i = none) :
    Counted I (more held i) opn (withLoaded sfs i) := by
  have hnew : (withLoaded sfs i).inodes i =
      some { din := SfsDiskInode.decode (sfs.dev i), dirty := false, reclaim_count := 1,
             ref_count := 1, open_count := 0 } := Function.update_self ..
  have hsame : ∀ j, j ≠ i → (withLoaded sfs i).inodes j = sfs.inodes j :=
    fun j hj => Function.update_of_ne hj ..
  have hzero := h.enough i
  rw [refs_none hnone] at hzero
  have hout : i ∉ sfs.inode_list := by
    rw [h.volume.list i, hnone]
    simp
  refine ⟨h.volume.quiet (quiet_withLoaded h.volume hi hnone) ?_ ?_
    (List.nodup_cons.mpr ⟨hout, h.volume.nodup⟩), ?_, ?_⟩
  · intro j sin' hj
    by_cases hji : j = i
    · subst hji
      obtain rfl := Option.some.inj (hnew.symm.trans hj)
      exact ⟨hi, rfl, Nat.one_pos, Nat.zero_le _⟩
    · rw [hsame j hji] at hj
      exact h.volume.inode j sin' hj
  · intro j
    show j ∈ i :: sfs.inode_list ↔ _
    rw [List.mem_cons, h.volume.list j]
    by_cases hji : j = i
    · simp [hji, hnew]
    · simp [hji, hsame j hji]
  · funext j
    by_cases hji : j = i
    · rw [hji, opens_eq hnew]
      show 0 = opn i
      omega
    · rw [← h.isOpen]
      unfold opens
      rw [hsame j hji]
  · intro j
    by_cases hji : j = i
    · rw [hji, refs_eq hnew, more_self]
      show opn i + (held i + 1) ≤ 1
      omega
    · rw [more_of_ne hji]
      have hle := h.enough j
      unfold refs at hle ⊢
      rwa [hsame j hji]

/-! ### The functions -/

/-- The call has left the files as they are, up to what is in memory. -/
structure Calm (I : Finset Nat) (held opn : Nat → Nat) (sfs sfs' : Sfs) : Prop where
  counted : Counted I held opn sfs'
  quiet : Quiet I sfs sfs'

/-- One call after another. -/
theorem Calm.trans {held' opn' : Nat → Nat} (h : Calm I held opn sfs sfs')
    (h' : Calm I held' opn' sfs' sfs'') : Calm I held' opn' sfs sfs'' :=
  ⟨h'.counted, h.quiet.trans h'.quiet⟩

/-- A call that has done nothing. -/
theorem Counted.calm (h : Counted I held opn sfs) : Calm I held opn sfs sfs := ⟨h, .refl sfs⟩

/-- A function that the inode has is called, and one that it lacks is a panic. So is an inode with
`MAX_INODE_COUNT` references. -/
theorem ends_vop_present (hsin : sfs.inodes i = some sin) (vop : Vop) :
    (vop_op i vop).Ends sfs
      (fun _ sfs' => sfs' = sfs ∧ vop.present sin.din.type = true ∧ sin.ref_count < 0x10000)
      (fun _ _ => False) (Refuses index range blocks) := by
  unfold vop_op
  rw [Routine.ends_bind, ends_sfsInode hsin, Routine.ends_bind, Routine.ends_assert]
  split_ifs with hpresent
  · rw [Routine.ends_assert]
    split_ifs with hcounts
    · exact ⟨rfl, hpresent, hcounts.2.1⟩
    · trivial
  · trivial

/-- The state behind `sfs_fsync`. -/
def fsynced (sfs : Sfs) (i : Nat) (sin : SfsInode) : Sfs :=
  if sin.dirty = true then withSynced sfs i sin else sfs

/-- `vop_fsync` writes the inode back when it is dirty. -/
theorem ends_vop_fsync (hsin : sfs.inodes i = some sin) (hpos : i ≠ 0)
    (hlt : i < sfs.super.blocks) :
    (vop_fsync i).Ends sfs (fun _ sfs' => sfs' = fsynced sfs i sin) (fun _ _ => False)
      (Refuses index range blocks) := by
  unfold vop_fsync
  refine (ends_vop_present hsin .both).seq ?_ (fun _ _ h => h) fun _ h => h
  rintro _ sfs₁ ⟨rfl, -⟩
  unfold sfs_fsync fsynced
  rw [Routine.ends_bind, ends_sfsInode hsin, Routine.ends_when]
  split_ifs with hdirty
  · rw [Routine.ends_bind, ends_setSfsInode hsin, Routine.ends_handle,
      ends_wbuf hpos (by exact hlt) (by decide) (by rw [length_encode]; decide)]
    rfl
  · rfl

/-- `vop_fsync` keeps the invariant. -/
theorem Counted.fsync (h : Counted I held opn sfs) (hsin : sfs.inodes i = some sin) :
    (vop_fsync i).Ends sfs (fun _ sfs' => Calm I held opn sfs sfs') (fun _ _ => False)
      (Refuses index range blocks) := by
  have hi := (h.volume.inode i sin hsin).mem
  have hpos := h.pos hi
  have hlt := h.volume.core.lt (.inode i)
  rw [slot_inode hi] at hlt
  refine (ends_vop_fsync hsin hpos (hlt hpos)).mono ?_ (fun _ _ h => h) fun _ h => h
  rintro _ sfs' rfl
  unfold fsynced
  split_ifs with hdirty
  · exact ⟨h.synced hsin hdirty, quiet_withSynced h.volume hsin hdirty⟩
  · exact h.calm

/-- An inode behind the last reference has been written back and dropped. -/
theorem Counted.reclaimed (h : Counted I held opn sfs) (hsin : sfs.inodes i = some sin)
    (hopn : opn i = 0) (hheld : held i = 0) :
    Calm I held opn sfs (withDropped (fsynced sfs i sin) i) := by
  unfold fsynced
  split_ifs with hdirty
  · have hs := h.synced hsin hdirty
    have hnew : (withSynced sfs i sin).inodes i = some { sin with dirty := false } :=
      Function.update_self ..
    exact ⟨hs.dropped hnew rfl hopn hheld,
      (quiet_withSynced h.volume hsin hdirty).trans (quiet_withDropped hs.volume hnew rfl)⟩
  · rw [Bool.not_eq_true] at hdirty
    exact ⟨h.dropped hsin hdirty hopn hheld, quiet_withDropped h.volume hsin hdirty⟩

/-- Only what is left of the inode matters once it has been dropped. -/
theorem withDropped_congr (hsuper : sfs'.super = sfs.super) (hmap : sfs'.freemap = sfs.freemap)
    (hdirty : sfs'.super_dirty = sfs.super_dirty) (hlist : sfs'.inode_list = sfs.inode_list)
    (hdev : sfs'.dev = sfs.dev) (hinodes : ∀ j, j ≠ i → sfs'.inodes j = sfs.inodes j) :
    withDropped sfs' i = withDropped sfs i := by
  have hupd : Function.update sfs'.inodes i none = Function.update sfs.inodes i none := by
    funext j
    by_cases hji : j = i
    · rw [hji, Function.update_self, Function.update_self]
    · rw [Function.update_of_ne hji, Function.update_of_ne hji, hinodes j hji]
  cases sfs
  cases sfs'
  simp only at hsuper hmap hdirty hlist hdev hupd
  subst hsuper hmap hdirty hlist hdev
  unfold withDropped
  simp only [hupd]

/-- The reclaim of an inode that nobody uses writes it back and drops it. -/
theorem ends_reclaim (hsin : sfs.inodes i = some sin) (hpos : i ≠ 0) (hlt : i < sfs.super.blocks)
    (hreclaim : sin.reclaim_count = 1) (href : sin.ref_count = 0) (hopen : sin.open_count = 0)
    (hlinks : sin.din.nlinks ≠ 0) :
    (sfs_reclaim i).Ends sfs (fun _ sfs' => sfs' = withDropped (fsynced sfs i sin) i)
      (fun _ _ => False) (Refuses index range blocks) := by
  unfold sfs_reclaim
  rw [Routine.ends_bind, ends_sfsInode hsin, Routine.ends_bind, Routine.ends_assert,
    if_pos (by omega), Routine.ends_bind, ends_setSfsInode hsin, Routine.ends_ite,
    if_neg (by omega)]
  generalize hs₁ : ({ sfs with
    inodes := Function.update sfs.inodes i
      (some { sin with reclaim_count := sin.reclaim_count - 1 }) } : Sfs) = sfs₁
  have hsin₁ : sfs₁.inodes i = some { sin with reclaim_count := sin.reclaim_count - 1 } := by
    rw [← hs₁]
    exact Function.update_self ..
  have hother : ∀ j, j ≠ i → sfs₁.inodes j = sfs.inodes j := by
    intro j hj
    rw [← hs₁]
    exact Function.update_of_ne hj ..
  rw [Routine.ends_bind, Routine.ends_when, if_neg hlinks, Routine.ends_bind, ends_sfsInode hsin₁]
  -- behind the write-back, the inode is as it was in front, but for the mark
  have hends : (Routine.when (sin.dirty = true) (vop_fsync i)).Ends sfs₁
      (fun _ sfs' => sfs' = fsynced sfs₁ i { sin with reclaim_count := sin.reclaim_count - 1 })
      (fun _ _ => False) (Refuses index range blocks) := by
    rw [Routine.ends_when]
    split_ifs with hdirty
    · refine ends_vop_fsync hsin₁ hpos ?_
      rw [← hs₁]
      exact hlt
    · unfold fsynced
      rw [if_neg hdirty]
  refine hends.seq ?_ (fun _ _ h => h) fun _ h => h
  rintro _ sfs₂ rfl
  unfold sfs_remove_links
  rw [Routine.ends_bind, Routine.ends_modify, Routine.ends_bind, Routine.ends_when, if_neg hlinks,
    Routine.ends_assert, if_pos ⟨href, hopen⟩]
  show withDropped (fsynced sfs₁ i _) i = _
  unfold fsynced
  dsimp only
  split_ifs with hdirty
  · refine withDropped_congr ?_ ?_ ?_ ?_ ?_ fun j hj => ?_
    · rw [← hs₁]
      rfl
    · rw [← hs₁]
      rfl
    · rw [← hs₁]
      rfl
    · rw [← hs₁]
      rfl
    · rw [← hs₁]
      rfl
    · exact (Function.update_of_ne hj ..).trans
        ((hother j hj).trans (Function.update_of_ne hj ..).symm)
  · refine withDropped_congr ?_ ?_ ?_ ?_ ?_ hother <;> rw [← hs₁]

/-- `inode_ref_inc` of an inode that somebody has. -/
theorem Counted.ref_inc (h : Counted I held opn sfs) (hpos : 0 < opn i + held i) :
    (inode_ref_inc i).Ends sfs (fun _ sfs' => Calm I (more held i) opn sfs sfs')
      (fun _ _ => False) (Refuses index range blocks) := by
  obtain ⟨sin, hsin⟩ := h.exists_sin hpos
  obtain ⟨hopen, hle⟩ := h.counts hsin
  unfold inode_ref_inc
  rw [ends_setSfsInode hsin]
  refine ⟨h.setCounts (o := sin.open_count) hsin (Nat.succ_pos _) (by omega) ?_ ?_ ?_,
    quiet_withCounts h.volume hsin⟩
  · rw [hopen, Function.update_eq_self]
  · rw [more_self]
    omega
  · exact fun j hj => le_of_eq (more_of_ne hj)

/-- `inode_ref_dec` of a reference that the caller has, with the reclaim at the end. -/
theorem Counted.ref_dec (h : Counted I (more held i) opn sfs) :
    (inode_ref_dec i).Ends sfs (fun _ sfs' => Calm I held opn sfs sfs')
      (fun _ _ => False) (Refuses index range blocks) := by
  obtain ⟨sin, hsin⟩ := h.exists_sin (more_pos held i)
  obtain ⟨hopen, hle⟩ := h.counts hsin
  rw [more_self] at hle
  unfold inode_ref_dec
  rw [Routine.ends_bind, ends_sfsInode hsin, Routine.ends_bind, Routine.ends_assert,
    if_pos (by omega), Routine.ends_bind, ends_setSfsInode hsin, Routine.ends_when]
  split_ifs with hlast
  · -- the inode is written back and dropped
    have hok := h.volume.inode i sin hsin
    have hi := hok.mem
    have hlt := h.volume.core.lt (.inode i)
    rw [slot_inode hi] at hlt
    have hlinks := (h.volume.file i hi).nlinks
    rw [view_eq hsin] at hlinks
    have hclosed : sin.open_count = 0 := by omega
    have hsin₁ : (withCounts sfs i sin 0 sin.open_count).inodes i =
        some { sin with ref_count := 0 } := Function.update_self ..
    rw [hlast]
    refine (ends_vop_present hsin₁ .both).seq ?_ (fun _ _ h => h) fun _ h => h
    rintro _ sfs₁ ⟨rfl, -⟩
    rw [Routine.ends_handle]
    refine (ends_reclaim hsin₁ (h.pos hi) (hlt (h.pos hi)) hok.reclaim rfl hclosed hlinks).mono ?_ (fun _ _ h => h.elim) fun _ h => h
    rintro _ sfs' rfl
    have hself : withDropped (fsynced (withCounts sfs i sin 0 sin.open_count) i
        { sin with ref_count := 0 }) i = withDropped (fsynced sfs i sin) i := by
      unfold fsynced
      dsimp only
      split_ifs with hdirty
      · refine withDropped_congr rfl rfl rfl rfl rfl fun j hj => ?_
        exact (Function.update_of_ne hj ..).trans
          ((Function.update_of_ne hj ..).trans (Function.update_of_ne hj ..).symm)
      · exact withDropped_congr rfl rfl rfl rfl rfl fun j hj => Function.update_of_ne hj ..
    have hzero : opn i = 0 ∧ held i = 0 := by omega
    rw [hself]
    exact (h.mono (le_more held i)).reclaimed hsin hzero.1 hzero.2
  · refine ⟨h.setCounts (o := sin.open_count) hsin (by omega) (by omega) ?_ (by omega) ?_,
      quiet_withCounts h.volume hsin⟩
    · rw [hopen, Function.update_eq_self]
    · exact fun j hj => le_of_eq (more_of_ne hj).symm

/-- An inode that the call holds is opened, and the reference goes with it. -/
theorem Counted.open_inc (h : Counted I (more held i) opn sfs) :
    (inode_open_inc i).Ends sfs (fun _ sfs' => Calm I held (more opn i) sfs sfs')
      (fun _ _ => False) (Refuses index range blocks) := by
  obtain ⟨sin, hsin⟩ := h.exists_sin (more_pos held i)
  obtain ⟨hopen, hle⟩ := h.counts hsin
  rw [more_self] at hle
  unfold inode_open_inc
  rw [ends_setSfsInode hsin]
  refine ⟨h.setCounts (r := sin.ref_count) hsin (by omega) (by omega) ?_ (by omega) ?_,
    quiet_withCounts h.volume hsin⟩
  · rw [hopen]
    rfl
  · exact fun j hj => le_of_eq (more_of_ne hj).symm

/-- An inode is closed, and the call holds the reference that went with it. -/
theorem Counted.open_dec (h : Counted I held (more opn i) sfs) :
    (inode_open_dec i).Ends sfs (fun _ sfs' => Calm I (more held i) opn sfs sfs')
      (fun _ _ => False) (Refuses index range blocks) := by
  obtain ⟨sin, hsin⟩ := h.exists_sin (i := i) (by rw [more_self]; omega)
  obtain ⟨hopen, hle⟩ := h.counts hsin
  rw [more_self] at hopen hle
  have hcalm : Calm I (more held i) opn sfs
      (withCounts sfs i sin sin.ref_count (sin.open_count - 1)) := by
    refine ⟨h.setCounts hsin (by omega) (by omega) ?_ ?_ ?_, quiet_withCounts h.volume hsin⟩
    · rw [hopen]
      unfold more
      rw [Function.update_idem, Nat.add_sub_cancel, Function.update_eq_self]
    · rw [more_self]
      omega
    · exact fun j hj => le_of_eq (more_of_ne hj)
  unfold inode_open_dec
  rw [Routine.ends_bind, ends_sfsInode hsin, Routine.ends_bind, Routine.ends_assert,
    if_pos (by omega), Routine.ends_bind, ends_setSfsInode hsin, Routine.ends_when]
  split_ifs with hlast
  · have hsin₁ : (withCounts sfs i sin sin.ref_count (sin.open_count - 1)).inodes i =
        some { sin with ref_count := sin.ref_count, open_count := sin.open_count - 1 } :=
      Function.update_self ..
    refine (ends_vop_present hsin₁ .both).seq ?_ (fun _ _ h => h) fun _ h => h
    rintro _ sfs₁ ⟨rfl, -⟩
    rw [Routine.ends_handle]
    exact (hcalm.counted.fsync hsin₁).mono (fun _ _ h => hcalm.trans h) (fun _ _ h => h.elim)
      fun _ h => h
  · exact hcalm

/-- An inode of the volume is looked up among those in memory, or loaded. -/
theorem Counted.load_inode (h : Counted I held opn sfs) (hi : i ∈ I) (kmalloc : Bool × Bool) :
    (sfs_load_inode i kmalloc).Ends sfs (fun _ sfs' => Calm I (more held i) opn sfs sfs')
      (fun e sfs' => e = .noMem ∧ sfs' = sfs) (Refuses index range blocks) := by
  unfold sfs_load_inode lookup_sfs_nolock
  rw [Routine.ends_bind, Routine.ends_bind, Routine.ends_read, Routine.ends_ite]
  cases hsin : sfs.inodes i with
  -- `lookup_sfs_nolock` finds the inode in memory, and `vop_ref_inc` counts the new reference.
  | some sin =>
      obtain ⟨hopen, hle⟩ := h.counts hsin
      have hok := h.volume.inode i sin hsin
      have hrefs := hok.refs
      have hone : ¬ sin.ref_count + 1 = 1 := by omega
      simp only [id_eq, Option.isSome_some, ↓reduceIte, Routine.ends_bind,
        ends_setSfsInode hsin, Routine.ends_pure, hsin, hone]
      refine ⟨h.setCounts (o := sin.open_count) hsin (Nat.succ_pos _) (by omega) ?_ ?_ ?_,
        quiet_withCounts h.volume hsin⟩
      · rw [hopen, Function.update_eq_self]
      · rw [more_self]
        omega
      · exact fun j hj => le_of_eq (more_of_ne hj)
  -- The inode is read from the disk. Its block is in use, and it has a link.
  | none =>
      have hslot : slot I sfs (.inode i) = i := slot_inode hi
      have hpos := h.pos hi
      have hlt : i < sfs.super.blocks := by
        have hlt := h.volume.core.lt (.inode i)
        rw [hslot] at hlt
        exact hlt hpos
      have hinuse : sfs.freemap.isFree i = false := by
        have hused := h.volume.core.used (x := .inode i) (by rw [hslot]; exact hpos)
        rwa [hslot] at hused
      have hview : (view sfs i).din = SfsDiskInode.decode (sfs.dev i) := by
        show dinOf sfs i = _
        unfold dinOf
        rw [hsin]
        rfl
      have hlinks := (h.volume.file i hi).nlinks
      rw [hview] at hlinks
      simp only [id_eq, hsin, Option.isSome_none, Bool.false_eq_true, ↓reduceIte,
        Routine.ends_pure, Routine.ends_ite]
      split_ifs with hmem
      · exact ⟨rfl, rfl⟩
      · rw [Routine.ends_bind, ends_block_inuse h.volume.core.pool.bits hpos hlt,
          Routine.ends_bind, ends_check (by rw [hinuse]; rfl), Routine.ends_bind,
          ends_rbuf hpos hlt (by decide) (by decide)]
        rw [decode_bufferBlock]
        rw [Routine.ends_bind, Routine.ends_assert, if_pos hlinks]
        unfold sfs_create_inode
        rw [Routine.ends_ite]
        split_ifs with hmem'
        · exact ⟨rfl, rfl⟩
        · rw [Routine.ends_bind, Routine.ends_assert]
          split_ifs with htype
          · exact ⟨h.loaded hi hsin, quiet_withLoaded h.volume hi hsin⟩
          · trivial

end Ucore.Proofs.Fs
