import Ucore.Proofs.Fs.Block

/-!
# `Ucore.Proofs.Fs.Bmap`: the block map of an inode

`Mapping` says what `sfs_bmap_get_nolock` has done when it has mapped an index, `Stretched`
what calls of `sfs_bmap_load_nolock` have done to a file, and `Idle` that a failed
allocation has undone what it did.

## The cases of the block map

An index below 12 is a direct entry, and one of the 1024 behind it an entry of the indirect block.
With `create`, an index that is not mapped costs one block, and the first one behind the direct
entries two (`cost`). The four ways to get there have a lemma each:

* `ends_get_found`: the index is mapped already;
* `ends_get_direct`: a direct entry gets a block;
* `ends_get_indirect`: an entry of an indirect block that is there;
* `ends_get_first`: the indirect block has to be made first. When there is a block for it and none
  for the entry, the source frees it again, and `Idle` holds;
* `ends_get_range`: an index from 1036 on panics.

`ends_get` is the sum of these. `GetEnds` is its conclusion: the index is mapped, or there were not
enough free blocks and nothing that is held has changed.

`Mapping.of_linked` has the invariant in it. From what has happened to the inode and to the blocks
it concludes that the new block is in one place and all others are where they were.
-/

set_option autoImplicit false

namespace Ucore.Proofs.Fs

open Ucore.Lib Ucore.Fs

variable {I : Finset Nat} {i j k b : Nat} {sfs sfs' sfs'' : Sfs} {sin : SfsInode}

/-! ### Changes of the slots -/

/-- The allocator depends on the free map and the superblock. -/
theorem Pool.congr (h : Pool sfs) (hfree : sfs'.freemap = sfs.freemap)
    (hsuper : sfs'.super = sfs.super) : Pool sfs' := by
  refine ⟨?_, ?_, ?_, ?_, ?_⟩
  · rw [hfree]
    exact h.zero
  · rw [hfree, hsuper]
    exact h.bound
  · rw [hfree, hsuper]
    exact h.count
  · rw [hfree, hsuper]
    exact h.bits
  · rw [hfree]
    exact h.words

/-- A block that has a place is in use. -/
theorem Core.used (h : Core I sfs) {x : Slot} (hx : slot I sfs x ≠ 0) :
    sfs.freemap.isFree (slot I sfs x) = false :=
  h.owned.used x hx

/-- A free block is in no place. -/
theorem Core.ne_free (h : Core I sfs) {x : Slot} (hx : slot I sfs x ≠ 0)
    (hb : sfs.freemap.isFree b = true) : slot I sfs x ≠ b := by
  intro heq
  have hused := h.used hx
  rw [heq, hb] at hused
  cases hused

/-- Different places hold different blocks. -/
theorem Core.ne_slot (h : Core I sfs) {x y : Slot} (hx : slot I sfs x ≠ 0) (hne : x ≠ y) :
    slot I sfs x ≠ slot I sfs y :=
  fun heq => hne (h.owned.inj x y hx heq)

/-- The number of blocks that a missing entry costs: the block and, for the first one behind
the direct entries, the indirect block. -/
def cost (v : FileView) (k : Nat) : Nat :=
  if v.entry k ≠ 0 then 0
  else if 12 ≤ k ∧ v.din.indirect = 0 then 2
  else 1

/-- The index `k` of the file has been mapped to the block `b`. -/
structure Mapping (I : Finset Nat) (i k : Nat) (sfs : Sfs) (b : Nat) (sfs' : Sfs) : Prop where
  core : Core I sfs'
  kept : Kept I i sfs sfs'
  ne_zero : b ≠ 0
  same : (view sfs i).entry k ≠ 0 → b = (view sfs i).entry k
  entry : (view sfs' i).entry = Function.update (view sfs i).entry k b
  content : (view sfs' i).content = (view sfs i).content
  din : (view sfs' i).din =
    { (view sfs i).din with
      direct := (view sfs' i).din.direct, indirect := (view sfs' i).din.indirect }
  dirty : (view sfs i).dirty = true → (view sfs' i).dirty = true
  clean : (view sfs' i).dirty = false → (view sfs' i).din = (view sfs i).din
  grew : (view sfs' i).dirty = true ∨ (view sfs i).entry k ≠ 0 ∨
    (12 ≤ k ∧ (view sfs i).din.indirect ≠ 0)
  indirect : (view sfs i).din.indirect ≠ 0 →
    (view sfs' i).din.indirect = (view sfs i).din.indirect
  indirect_low : k < 12 → (view sfs' i).din.indirect = (view sfs i).din.indirect
  unused : sfs'.super.unused_blocks + cost (view sfs i) k = sfs.super.unused_blocks

/-- The index is mapped already. -/
theorem Mapping.refl (hcore : Core I sfs) (hne : (view sfs i).entry k ≠ 0) :
    Mapping I i k sfs ((view sfs i).entry k) sfs where
  core := hcore
  kept := Kept.refl sfs
  ne_zero := hne
  same := fun _ => rfl
  entry := (Function.update_eq_self ..).symm
  content := rfl
  din := rfl
  dirty := id
  clean := fun _ => rfl
  grew := Or.inr (Or.inl hne)
  indirect := fun _ => rfl
  indirect_low := fun _ => rfl
  unused := by
    unfold cost
    rw [if_pos hne, Nat.add_zero]

/-- Nothing that is held has changed. -/
structure Idle (sfs sfs' : Sfs) : Prop where
  super : sfs'.super = sfs.super
  isFree : sfs'.freemap.isFree = sfs.freemap.isFree
  nbits : sfs'.freemap.nbits = sfs.freemap.nbits
  nwords : sfs'.freemap.nwords = sfs.freemap.nwords
  superDirty : sfs'.super_dirty = false → sfs' = sfs
  list : sfs'.inode_list = sfs.inode_list
  inodes : sfs'.inodes = sfs.inodes
  dev : ∀ b, sfs.freemap.isFree b = false → sfs'.dev b = sfs.dev b

/-- Nothing has been done. -/
theorem Idle.refl (sfs : Sfs) : Idle sfs sfs :=
  ⟨rfl, rfl, rfl, rfl, fun _ => rfl, rfl, rfl, fun _ _ => rfl⟩

/-- A block that was taken and given back. -/
theorem Idle.of_gave (htook : Took sfs b sfs') (hgave : Gave sfs' b sfs'') :
    Idle sfs sfs'' where
  super := by
    have hpos := htook.unused
    rw [hgave.super, htook.super]
    show SfsSuper.mk _ _ (sfs.super.unused_blocks - 1 + 1) _ = _
    rw [Nat.sub_add_cancel hpos]
  isFree := by
    rw [hgave.isFree, htook.isFree, Function.update_idem, ← htook.free]
    exact Function.update_eq_self b _
  nbits := hgave.nbits.trans htook.nbits
  nwords := hgave.nwords.trans htook.nwords
  superDirty := fun h => by
    rw [hgave.superDirty] at h
    cases h
  list := hgave.list.trans htook.list
  inodes := hgave.inodes.trans htook.inodes
  dev := by
    intro c hc
    rw [hgave.dev, htook.dev]
    apply Function.update_of_ne
    rintro rfl
    rw [htook.free] at hc
    cases hc

/-- What happens to a block without a place moves no other. -/
theorem Idle.slot_eq (h : Idle sfs sfs') (hcore : Core I sfs) : slot I sfs' = slot I sfs := by
  funext x
  cases hx : x.owner with
  | none =>
      cases x with
      | freemap k =>
          show (if k < sfs_freemap_blocks sfs'.super then 2 + k else 0) = _
          rw [h.super]
          rfl
      | inode j => cases hx
      | indirect j => cases hx
      | data j k => cases hx
  | some j =>
      exact slot_congr hcore.pos hx (by rw [h.inodes]) fun y _ hne => h.dev _ (hcore.used hne)

/-- What happens to a block without a place changes no file. -/
theorem Idle.view_eq (h : Idle sfs sfs') (hcore : Core I sfs) (hi : i ∈ I) :
    view sfs' i = view sfs i :=
  view_congr hi (hcore.pos i hi) (by rw [h.inodes]) fun _ _ hne => h.dev _ (hcore.used hne)

/-- What happens to a block without a place leaves the others where they should be. -/
theorem Idle.core (h : Idle sfs sfs') (hcore : Core I sfs) : Core I sfs' where
  pool := by
    refine ⟨?_, ?_, ?_, ?_, ?_⟩
    · rw [h.isFree]
      exact hcore.pool.zero
    · rw [h.isFree, h.super]
      exact hcore.pool.bound
    · rw [h.isFree, h.super]
      exact hcore.pool.count
    · rw [h.nbits, h.super]
      exact hcore.pool.bits
    · rw [h.nbits, h.nwords]
      exact hcore.pool.words
  owned := by
    rw [h.slot_eq hcore, h.isFree]
    exact hcore.owned
  lt := by
    rw [h.slot_eq hcore, h.super]
    exact hcore.lt
  fits := by
    rw [h.super]
    exact hcore.fits
  pos := hcore.pos

/-- What happens to a block without a place is no change of a file. -/
theorem Idle.kept (h : Idle sfs sfs') (hcore : Core I sfs) (hi : i ∈ I) : Kept I i sfs sfs' := by
  apply Kept.of_dev hcore.pos
  · rw [h.super]
  · exact h.nbits
  · exact h.nwords
  · intro hd
    have heq := h.superDirty hd
    rw [heq] at hd
    exact ⟨hd, h.super, by rw [heq]⟩
  · exact h.list
  · intro j _
    rw [h.inodes]
  · intro sin hsin
    refine ⟨sin.din, sin.dirty, ?_⟩
    rw [h.inodes]
    exact hsin
  · intro x _ hx
    exact h.dev _ (hcore.used hx)
  · have hslot : slot I sfs (.inode i) = i := slot_inode hi
    have hused := hcore.used (x := .inode i) (by rw [hslot]; exact hcore.pos i hi)
    rw [hslot] at hused
    exact h.dev i hused
  · exact h.dev 0 hcore.pool.zero
  · rw [h.slot_eq hcore, h.isFree, h.super]
    exact id

/-- The places after an entry, and perhaps the indirect block, has been set. -/
theorem slot_linked (hcore : Core I sfs) (hi : i ∈ I) (hsin : sfs.inodes i = some sin)
    (din : SfsDiskInode) (dirty : Bool)
    (hinodes : sfs'.inodes =
      Function.update sfs.inodes i (some { sin with din := din, dirty := dirty }))
    (hentry : entryAt din sfs'.dev = Function.update (entryAt sin.din sfs.dev) k b)
    (hblocks : sfs'.super.blocks = sfs.super.blocks)
    (hdev : ∀ x, x ≠ .indirect i → slot I sfs x ≠ 0 →
      sfs'.dev (slot I sfs x) = sfs.dev (slot I sfs x)) :
    slot I sfs' = Function.update (Function.update (slot I sfs) (.indirect i) din.indirect)
      (.data i k) b := by
  have hnew : sfs'.inodes i = some { sin with din := din, dirty := dirty } := by
    rw [hinodes, Function.update_self]
  have hother : ∀ x j, x.owner = some j → j ≠ i → slot I sfs' x = slot I sfs x := by
    intro x j hx hj
    apply slot_congr hcore.pos hx
    · rw [hinodes, Function.update_of_ne hj]
    · intro y hy hne
      refine hdev y ?_ hne
      rintro rfl
      cases hy
      exact hj rfl
  funext x
  cases x with
  | freemap c =>
      rw [Function.update_of_ne (by simp), Function.update_of_ne (by simp)]
      show (if c < sfs_freemap_blocks sfs'.super then 2 + c else 0) = _
      unfold sfs_freemap_blocks
      rw [hblocks]
      rfl
  | inode j =>
      rw [Function.update_of_ne (by simp), Function.update_of_ne (by simp)]
      rfl
  | indirect j =>
      rw [Function.update_of_ne (by simp)]
      by_cases hj : j = i
      · subst hj
        rw [Function.update_self, slot_indirect hi, view_eq hnew]
      · rw [Function.update_of_ne (by simpa using hj)]
        exact hother _ j rfl hj
  | data j c =>
      by_cases hj : j = i
      · subst hj
        rw [slot_data hi, view_eq hnew]
        show entryAt din sfs'.dev c = _
        rw [hentry]
        by_cases hc : c = k
        · subst hc
          rw [Function.update_self, Function.update_self]
        · rw [Function.update_of_ne hc, Function.update_of_ne (by simpa using hc),
            Function.update_of_ne (by simp), slot_data hi, view_eq hsin]
      · rw [Function.update_of_ne (by simp [hj]), Function.update_of_ne (by simp)]
        exact hother _ j rfl hj

/-- `Mapping`, from what has happened to the inode and to the blocks. -/
theorem Mapping.of_linked (hcore : Core I sfs) (hi : i ∈ I) (hsin : sfs.inodes i = some sin)
    (din : SfsDiskInode) (dirty : Bool)
    (hinodes : sfs'.inodes =
      Function.update sfs.inodes i (some { sin with din := din, dirty := dirty }))
    (hdin : din = { sin.din with direct := din.direct, indirect := din.indirect })
    (hentry : entryAt din sfs'.dev = Function.update (entryAt sin.din sfs.dev) k b)
    (hzero : entryAt sin.din sfs.dev k = 0) (hb : b ≠ 0) (hclear : sfs'.dev b = fun _ => 0)
    (hpool : Pool sfs')
    (hsuper : sfs'.super = { sfs.super with unused_blocks := sfs'.super.unused_blocks })
    (hbits : sfs'.freemap.nbits = sfs.freemap.nbits ∧ sfs'.freemap.nwords = sfs.freemap.nwords)
    (hsuperDirty : sfs'.super_dirty = true) (hlist : sfs'.inode_list = sfs.inode_list)
    (hdev : ∀ x, x ≠ .indirect i → slot I sfs x ≠ 0 →
      sfs'.dev (slot I sfs x) = sfs.dev (slot I sfs x))
    (hdev0 : sfs'.dev 0 = sfs.dev 0)
    (howned : Owned (Function.update (Function.update (slot I sfs) (.indirect i) din.indirect)
      (.data i k) b) sfs'.freemap.isFree)
    (hlt : b < sfs.super.blocks ∧ (din.indirect ≠ 0 → din.indirect < sfs.super.blocks))
    (hcovered : Covered (slot I sfs) sfs.freemap.isFree sfs.super.blocks →
      Covered (Function.update (Function.update (slot I sfs) (.indirect i) din.indirect)
        (.data i k) b) sfs'.freemap.isFree sfs.super.blocks)
    (hdirty : sin.dirty = true → dirty = true) (hclean : dirty = false → din = sin.din)
    (hgrew : dirty = true ∨ (12 ≤ k ∧ sin.din.indirect ≠ 0))
    (hindirect : sin.din.indirect ≠ 0 ∨ k < 12 → din.indirect = sin.din.indirect)
    (hunused : sfs'.super.unused_blocks + (if 12 ≤ k ∧ sin.din.indirect = 0 then 2 else 1) =
      sfs.super.unused_blocks) :
    Mapping I i k sfs b sfs' := by
  have hblocks : sfs'.super.blocks = sfs.super.blocks := by rw [hsuper]
  have hslot := slot_linked hcore hi hsin din dirty hinodes hentry hblocks hdev
  have hnew : sfs'.inodes i = some { sin with din := din, dirty := dirty } := by
    rw [hinodes, Function.update_self]
  -- The bytes stay: a hole reads as zeros, and the block that fills it has been cleared.
  have hcontent : contentAt din sfs'.dev = contentAt sin.din sfs.dev := by
    apply contentAt_update hentry hzero hclear
    intro c hc
    have hview : slot I sfs (.data i c) = entryAt sin.din sfs.dev c := by
      rw [slot_data hi, view_eq hsin]
    have h := hdev (.data i c) (by simp)
    rw [hview] at h
    exact h hc
  have hview : (view sfs i).entry k = 0 := by
    rw [view_eq hsin]
    exact hzero
  -- First the fields of `Core`, then what the call kept, then the fields about the file.
  refine ⟨⟨hpool, ?_, ?_, ?_, hcore.pos⟩, ?_, hb, fun hne => absurd hview hne, ?_, ?_, ?_, ?_, ?_,
    ?_, ?_, ?_, ?_⟩
  · rw [hslot]
    exact howned
  · intro x hx
    rw [hslot] at hx ⊢
    rw [hblocks]
    by_cases hxd : x = .data i k
    · rw [hxd, Function.update_self]
      exact hlt.1
    · rw [Function.update_of_ne hxd] at hx ⊢
      by_cases hxi : x = .indirect i
      · rw [hxi, Function.update_self] at hx ⊢
        exact hlt.2 hx
      · rw [Function.update_of_ne hxi] at hx ⊢
        exact hcore.lt x hx
  · rw [hblocks]
    exact hcore.fits
  -- A block that another file holds is neither the indirect block of this file nor free.
  · apply Kept.of_dev hcore.pos hsuper hbits.1 hbits.2
    · intro hd
      rw [hsuperDirty] at hd
      cases hd
    · exact hlist
    · intro j hj
      rw [hinodes, Function.update_of_ne hj]
    · intro sin' hsin'
      rw [hsin] at hsin'
      cases hsin'
      exact ⟨din, dirty, hnew⟩
    · intro x hx hne
      refine hdev x ?_ hne
      rintro rfl
      exact hx rfl
    · have h := hdev (.inode i) (by simp)
      rw [slot_inode hi] at h
      exact h (hcore.pos i hi)
    · exact hdev0
    · rw [hslot, hblocks]
      exact hcovered
  · rw [view_eq hnew, view_eq hsin]
    exact hentry
  · rw [view_eq hnew, view_eq hsin]
    exact hcontent
  · rw [view_eq hnew, view_eq hsin]
    exact hdin
  · rw [view_eq hnew, view_eq hsin]
    exact hdirty
  · rw [view_eq hnew, view_eq hsin]
    exact hclean
  · rw [view_eq hnew, view_eq hsin]
    rcases hgrew with h | h
    · exact Or.inl h
    · exact Or.inr (Or.inr h)
  · rw [view_eq hnew, view_eq hsin]
    exact fun h => hindirect (Or.inl h)
  · rw [view_eq hnew, view_eq hsin]
    exact fun h => hindirect (Or.inr h)
  · rw [view_eq hsin]
    unfold cost
    show _ + (if entryAt sin.din sfs.dev k ≠ 0 then 0 else _) = _
    rw [if_neg (not_not.mpr hzero)]
    exact hunused

/-! ### Changes of the inode in memory -/

/-- A change of the size, the number of blocks or the links of a file leaves its block map and its
bytes. -/
theorem view_withDin (din : SfsDiskInode) (dirty : Bool) (hsin : sfs.inodes i = some sin)
    (hdirect : din.direct = sin.din.direct) (hind : din.indirect = sin.din.indirect) :
    view (withDin sfs i sin din dirty) i =
      { view sfs i with din := din, dirty := sin.dirty || dirty } := by
  have hnew : (withDin sfs i sin din dirty).inodes i =
      some { sin with din := din, dirty := sin.dirty || dirty } := Function.update_self ..
  have hentry : entryAt din sfs.dev = entryAt sin.din sfs.dev :=
    entryAt_congr hdirect hind fun _ => rfl
  have hcontent : contentAt din sfs.dev = contentAt sin.din sfs.dev :=
    contentAt_congr hentry fun _ _ => rfl
  rw [view_eq hnew, view_eq hsin]
  show FileView.mk _ _ _ (entryAt din sfs.dev) (contentAt din sfs.dev) = _
  rw [hentry, hcontent]
  rfl

/-- Such a change moves no block. -/
theorem slot_withDin {din : SfsDiskInode} {dirty : Bool} (hcore : Core I sfs)
    (hsin : sfs.inodes i = some sin) (hdirect : din.direct = sin.din.direct)
    (hind : din.indirect = sin.din.indirect) :
    slot I (withDin sfs i sin din dirty) = slot I sfs := by
  have hview := view_withDin din dirty hsin hdirect hind
  apply slots_eq (i := i) hcore.pos
  · rfl
  · intro j hj
    exact Function.update_of_ne hj _ _
  · exact fun _ _ _ => rfl
  · rw [hview, view_eq hsin]
    exact hind
  · rw [hview]

/-- Such a change leaves the blocks where they should be. -/
theorem Core.withDin {din : SfsDiskInode} {dirty : Bool} (hcore : Core I sfs)
    (hsin : sfs.inodes i = some sin) (hdirect : din.direct = sin.din.direct)
    (hind : din.indirect = sin.din.indirect) : Core I (withDin sfs i sin din dirty) where
  pool := hcore.pool.congr rfl rfl
  owned := by
    rw [slot_withDin hcore hsin hdirect hind]
    exact hcore.owned
  lt := by
    rw [slot_withDin hcore hsin hdirect hind]
    exact hcore.lt
  fits := hcore.fits
  pos := hcore.pos

/-- Such a change is one of this file only. -/
theorem Kept.withDin {din : SfsDiskInode} {dirty : Bool} (hcore : Core I sfs)
    (hsin : sfs.inodes i = some sin) (hdirect : din.direct = sin.din.direct)
    (hind : din.indirect = sin.din.indirect) : Kept I i sfs (withDin sfs i sin din dirty) := by
  apply Kept.of_dev hcore.pos
  · rfl
  · rfl
  · rfl
  · exact fun hd => ⟨hd, rfl, rfl⟩
  · rfl
  · intro j hj
    exact Function.update_of_ne hj _ _
  · intro sin' hsin'
    rw [hsin] at hsin'
    cases hsin'
    exact ⟨din, _, Function.update_self ..⟩
  · exact fun _ _ _ => rfl
  · rfl
  · rfl
  · rw [slot_withDin hcore hsin hdirect hind]
    exact id

/-! ### Mapping an index -/

/-- A direct entry gets a block. -/
theorem Took.mapping_direct (hcore : Core I sfs) (hi : i ∈ I) (hsin : sfs.inodes i = some sin)
    (hk : k < 12) (hzero : sin.din.direct ⟨k, hk⟩ = 0) (h : Took sfs b sfs') :
    Mapping I i k sfs b (withDin sfs' i sin
      { sin.din with direct := Function.update sin.din.direct ⟨k, hk⟩ b } true) := by
  have hentry₀ : entryAt sin.din sfs.dev k = 0 := by
    unfold entryAt
    rw [dif_pos hk]
    exact hzero
  have hdev : ∀ x, slot I sfs x ≠ 0 → sfs'.dev (slot I sfs x) = sfs.dev (slot I sfs x) := by
    intro x hx
    rw [h.dev, Function.update_of_ne (hcore.ne_free hx h.free)]
  have hind : slot I sfs (.indirect i) = sin.din.indirect := by
    rw [slot_indirect hi, view_eq hsin]
  have hslot₀ : slot I sfs (.data i k) = 0 := by
    rw [slot_data hi, view_eq hsin]
    exact hentry₀
  have hself : Function.update (slot I sfs) (.indirect i) sin.din.indirect = slot I sfs := by
    rw [← hind]
    exact Function.update_eq_self _ _
  -- The entry is in the inode, and the only block of the device that has changed is the new one.
  apply Mapping.of_linked hcore hi hsin
    { sin.din with direct := Function.update sin.din.direct ⟨k, hk⟩ b } (sin.dirty || true)
  · show Function.update sfs'.inodes i _ = _
    rw [h.inodes]
  · rfl
  · show entryAt _ sfs'.dev = _
    rw [entryAt_setDirect hk]
    congr 1
    apply entryAt_congr rfl rfl
    intro hne
    have hd := hdev (.indirect i)
    rw [hind] at hd
    exact hd hne
  · exact hentry₀
  · exact h.ne_zero
  · show sfs'.dev b = _
    rw [h.dev, Function.update_self]
  · exact (h.pool hcore.pool).congr rfl rfl
  · show sfs'.super = { sfs.super with unused_blocks := sfs'.super.unused_blocks }
    rw [h.super]
  · exact ⟨h.nbits, h.nwords⟩
  · exact h.superDirty
  · exact h.list
  · intro x _ hx
    exact hdev x hx
  · show sfs'.dev 0 = _
    rw [h.dev, Function.update_of_ne (Ne.symm h.ne_zero)]
  -- The block goes from the free map into the slot of the entry, and the indirect block stays.
  · rw [hself]
    show Owned _ sfs'.freemap.isFree
    rw [h.isFree]
    exact hcore.owned.take h.free h.ne_zero
  · refine ⟨h.lt, fun hne => ?_⟩
    have hlt := hcore.lt (.indirect i)
    rw [hind] at hlt
    exact hlt hne
  · rw [hself]
    show _ → Covered _ sfs'.freemap.isFree _
    rw [h.isFree]
    exact fun hc => hc.take hslot₀
  · intro _
    exact Bool.or_true _
  · intro hd
    rw [Bool.or_true] at hd
    cases hd
  · exact Or.inl (Bool.or_true _)
  · exact fun _ => rfl
  · show sfs'.super.unused_blocks + _ = _
    have hpos := h.unused
    rw [if_neg (by omega), h.super]
    show sfs.super.unused_blocks - 1 + 1 = _
    omega

/-- The volume with a number written to an indirect block. -/
def withEntry (sfs : Sfs) (ent index b : Nat) : Sfs :=
  { sfs with
    dev := Function.update sfs.dev ent ((sfs.dev ent).overlay (index * 4) (toLe 4 b)) }

/-- An entry of the indirect block gets a block. The inode in memory stays as it is. -/
theorem Took.mapping_indirect (hcore : Core I sfs) (hi : i ∈ I)
    (hsin : sfs.inodes i = some sin) (hk : 12 ≤ k) (hk' : k < 1036)
    (hne : sin.din.indirect ≠ 0) (hzero : entryAt sin.din sfs.dev k = 0)
    (h : Took sfs b sfs') :
    Mapping I i k sfs b (withEntry sfs' sin.din.indirect (k - 12) b) := by
  have hind : slot I sfs (.indirect i) = sin.din.indirect := by
    rw [slot_indirect hi, view_eq hsin]
  have hfree : ∀ x, slot I sfs x ≠ 0 → slot I sfs x ≠ b := fun x hx => hcore.ne_free hx h.free
  -- The indirect block is in use, so it is not the new one.
  have hindb : sin.din.indirect ≠ b := by
    rw [← hind] at hne ⊢
    exact hfree _ hne
  have hdev : ∀ c, c ≠ b → c ≠ sin.din.indirect →
      (withEntry sfs' sin.din.indirect (k - 12) b).dev c = sfs.dev c := by
    intro c hc hc'
    show Function.update sfs'.dev _ _ c = _
    rw [Function.update_of_ne hc', h.dev, Function.update_of_ne hc]
  have hslot₀ : slot I sfs (.data i k) = 0 := by
    rw [slot_data hi, view_eq hsin]
    exact hzero
  have hself : Function.update (slot I sfs) (.indirect i) sin.din.indirect = slot I sfs := by
    rw [← hind]
    exact Function.update_eq_self _ _
  have hbits : b < 2 ^ 32 := lt_trans (lt_trans h.lt hcore.fits) (by decide)
  -- The inode in memory stays as it is, and it is not marked: only the indirect block was written.
  apply Mapping.of_linked hcore hi hsin sin.din sin.dirty
  · show sfs'.inodes = _
    rw [h.inodes]
    exact (Function.update_eq_self_iff.mpr hsin.symm).symm
  · rfl
  · apply entryAt_store hk hk' hne hbits
    show Function.update sfs'.dev _ _ _ = _
    rw [Function.update_self, h.dev, Function.update_of_ne hindb]
    rfl
  · exact hzero
  · exact h.ne_zero
  · show Function.update sfs'.dev _ _ b = _
    rw [Function.update_of_ne (Ne.symm hindb), h.dev, Function.update_self]
  · exact (h.pool hcore.pool).congr rfl rfl
  · show sfs'.super = { sfs.super with unused_blocks := sfs'.super.unused_blocks }
    rw [h.super]
  · exact ⟨h.nbits, h.nwords⟩
  · exact h.superDirty
  · exact h.list
  · intro x hx hx'
    apply hdev _ (hfree x hx')
    rw [← hind]
    exact hcore.ne_slot hx' hx
  · exact hdev 0 (Ne.symm h.ne_zero) (Ne.symm hne)
  · rw [hself]
    show Owned _ sfs'.freemap.isFree
    rw [h.isFree]
    exact hcore.owned.take h.free h.ne_zero
  · refine ⟨h.lt, fun hne => ?_⟩
    have hlt := hcore.lt (.indirect i)
    rw [hind] at hlt
    exact hlt hne
  · rw [hself]
    show _ → Covered _ sfs'.freemap.isFree _
    rw [h.isFree]
    exact fun hc => hc.take hslot₀
  · exact id
  · exact fun _ => rfl
  · exact Or.inr ⟨hk, hne⟩
  · exact fun _ => rfl
  · show sfs'.super.unused_blocks + _ = _
    have hpos := h.unused
    rw [if_neg fun hc => hne hc.2, h.super]
    show sfs.super.unused_blocks - 1 + 1 = _
    omega

/-- The indirect block and an entry of it get blocks. -/
theorem Took.mapping_first {ent : Nat} (hcore : Core I sfs) (hi : i ∈ I)
    (hsin : sfs.inodes i = some sin) (hk : 12 ≤ k) (hk' : k < 1036)
    (hnone : sin.din.indirect = 0) (h : Took sfs ent sfs') (h' : Took sfs' b sfs'') :
    Mapping I i k sfs b (withDin (withEntry sfs'' ent (k - 12) b) i sin
      { sin.din with indirect := ent } true) := by
  have hind : slot I sfs (.indirect i) = 0 := by
    rw [slot_indirect hi, view_eq hsin]
    exact hnone
  have hzero : ∀ c, 12 ≤ c → entryAt sin.din sfs.dev c = 0 := fun c hc =>
    entryAt_no_indirect hc hnone
  -- The two calls of `sfs_block_alloc` give two blocks: the second one finds the first in use.
  have hbent : b ≠ ent := by
    rintro rfl
    have hfree := h'.free
    rw [h.isFree, Function.update_self] at hfree
    cases hfree
  have hfreeb : sfs.freemap.isFree b = true := by
    have hfree := h'.free
    rw [h.isFree, Function.update_of_ne hbent] at hfree
    exact hfree
  have hblocks : sfs'.super.blocks = sfs.super.blocks := by rw [h.super]
  have hltb : b < sfs.super.blocks := by
    rw [← hblocks]
    exact h'.lt
  have hdev : ∀ c, c ≠ b → c ≠ ent → (withEntry sfs'' ent (k - 12) b).dev c = sfs.dev c := by
    intro c hc hc'
    show Function.update sfs''.dev _ _ c = _
    rw [Function.update_of_ne hc', h'.dev, Function.update_of_ne hc, h.dev,
      Function.update_of_ne hc']
  -- The indirect block has been cleared before the entry is written to it.
  have hent : (withEntry sfs'' ent (k - 12) b).dev ent =
      Bytes.store (fun _ => 0) ((k - 12) * 4) 4 b := by
    show Function.update sfs''.dev _ _ ent = _
    rw [Function.update_self, h'.dev, Function.update_of_ne (Ne.symm hbent), h.dev,
      Function.update_self]
    rfl
  have hslot₀ : slot I sfs (.data i k) = 0 := by
    rw [slot_data hi, view_eq hsin]
    exact hzero k hk
  apply Mapping.of_linked hcore hi hsin { sin.din with indirect := ent } (sin.dirty || true)
  · show Function.update sfs''.inodes i _ = _
    rw [h'.inodes, h.inodes]
  · rfl
  · -- the new indirect block holds the one entry
    have hempty : entryAt { sin.din with indirect := ent } (Function.update sfs.dev ent
        fun _ => 0) = entryAt sin.din sfs.dev := by
      funext c
      by_cases hlow : c < 12
      · unfold entryAt
        rw [dif_pos hlow, dif_pos hlow]
      · rw [hzero c (by omega)]
        by_cases hfar : c < 1036
        · rw [entryAt_indirect (by omega) hfar h.ne_zero]
          show (Function.update sfs.dev ent (fun _ => 0) ent).load _ 4 = 0
          rw [Function.update_self]
          exact Bytes.load_zero fun _ _ _ => rfl
        · exact entryAt_far (by omega)
    rw [← hempty]
    apply entryAt_store hk hk' h.ne_zero (lt_trans (lt_trans hltb hcore.fits) (by decide))
    show (withEntry sfs'' ent (k - 12) b).dev ent = (Function.update sfs.dev ent _ ent).store _ _ _
    rw [hent, Function.update_self]
  · exact hzero k hk
  · exact h'.ne_zero
  · show Function.update sfs''.dev _ _ b = _
    rw [Function.update_of_ne hbent, h'.dev, Function.update_self]
  · exact (h'.pool (h.pool hcore.pool)).congr rfl rfl
  · show sfs''.super = { sfs.super with unused_blocks := sfs''.super.unused_blocks }
    rw [h'.super, h.super]
  · exact ⟨h'.nbits.trans h.nbits, h'.nwords.trans h.nwords⟩
  · exact h'.superDirty
  · exact h'.list.trans h.list
  · intro x _ hx
    exact hdev _ (hcore.ne_free hx hfreeb) (hcore.ne_free hx h.free)
  · exact hdev 0 (Ne.symm h'.ne_zero) (Ne.symm h.ne_zero)
  -- Two slots get a block each, first the indirect block and then the entry.
  · show Owned _ sfs''.freemap.isFree
    rw [h'.isFree, h.isFree]
    apply (hcore.owned.take h.free h.ne_zero).take _ h'.ne_zero
    rw [Function.update_of_ne hbent]
    exact hfreeb
  · exact ⟨hltb, fun _ => h.lt⟩
  · show _ → Covered _ sfs''.freemap.isFree _
    rw [h'.isFree, h.isFree]
    intro hc
    apply (hc.take hind).take
    rw [Function.update_of_ne (by simp)]
    exact hslot₀
  · intro _
    exact Bool.or_true _
  · intro hd
    rw [Bool.or_true] at hd
    cases hd
  · exact Or.inl (Bool.or_true _)
  · rintro (hne | hlow)
    · exact absurd hnone hne
    · omega
  · show sfs''.super.unused_blocks + _ = _
    have hpos := h.unused
    have hpos' := h'.unused
    rw [h.super] at hpos'
    rw [if_pos ⟨hk, hnone⟩, h'.super, h.super]
    show sfs.super.unused_blocks - 1 - 1 + 2 = _
    replace hpos' : 0 < sfs.super.unused_blocks - 1 := hpos'
    omega

/-! ### How the functions end -/

/-- What holds after `sfs_bmap_get_nolock` with `create` at an index that is not mapped: the
index is mapped, or there were not enough free blocks. -/
def GetEnds (I : Finset Nat) (i k : Nat) (sfs : Sfs) (x : SfsM Nat) : Prop :=
  x.Ends sfs (fun b sfs' => Mapping I i k sfs b sfs')
    (fun e sfs' => e = .noMem ∧ Idle sfs sfs' ∧
      sfs.super.unused_blocks < cost (view sfs i) k) fun _ => False

/-- A direct entry that is empty gets a new block, or there is none. -/
theorem ends_get_direct (hcore : Core I sfs) (hi : i ∈ I) (hsin : sfs.inodes i = some sin)
    (hk : k < 12) (hzero : (view sfs i).entry k = 0) :
    GetEnds I i k sfs (sfs_bmap_get_direct i ⟨k, hk⟩ true) := by
  have hdirect : sin.din.direct ⟨k, hk⟩ = 0 := by
    rw [view_eq hsin] at hzero
    unfold entryAt at hzero
    simpa only [dif_pos hk] using hzero
  unfold GetEnds sfs_bmap_get_direct
  rw [Routine.ends_bind, ends_sfsInode hsin, if_pos ⟨hdirect, rfl⟩]
  apply (ends_block_alloc hcore.pool).seq
  · intro b sfs' htook
    have hsin' : sfs'.inodes i = some sin := by
      rw [htook.inodes]
      exact hsin
    rw [Routine.ends_bind, ends_setDin hsin', Routine.ends_pure]
    exact htook.mapping_direct hcore hi hsin hk hdirect
  · rintro e sfs' ⟨rfl, rfl, hnone⟩
    refine ⟨rfl, Idle.refl _, ?_⟩
    rw [hnone]
    unfold cost
    rw [if_neg (not_not.mpr hzero), if_neg (by omega)]
    exact Nat.one_pos
  · exact fun _ h => h

/-- The second half of `sfs_bmap_get_sub_nolock` for an indirect block that is there. -/
theorem ends_get_sub_alloc (hcore : Core I sfs) (hi : i ∈ I) (hsin : sfs.inodes i = some sin)
    (hk : 12 ≤ k) (hk' : k < 1036) (hne : sin.din.indirect ≠ 0)
    (hzero : (view sfs i).entry k = 0) :
    (sfs_bmap_get_sub_alloc sin.din.indirect sin.din.indirect (k - 12)).Ends sfs
      (fun r sfs' => r.2 = sin.din.indirect ∧ sfs'.inodes = sfs.inodes ∧
        Mapping I i k sfs r.1 sfs')
      (fun e sfs' => e = .noMem ∧ sfs' = sfs ∧ sfs.super.unused_blocks < cost (view sfs i) k)
      fun _ => False := by
  have hind : slot I sfs (.indirect i) = sin.din.indirect := by
    rw [slot_indirect hi, view_eq hsin]
  have hlt : sin.din.indirect < sfs.super.blocks := by
    have h := hcore.lt (.indirect i)
    rw [hind] at h
    exact h hne
  unfold sfs_bmap_get_sub_alloc
  rw [Routine.ends_bind, Routine.ends_handle]
  apply (ends_block_alloc hcore.pool).mono
  · intro b sfs' htook
    rw [Routine.ends_bind, Routine.ends_handle]
    refine (ends_wbuf hne ?_ (by omega) (by rw [length_toLe]; omega)).mpr ?_
    · rw [htook.super]
      exact hlt
    rw [Routine.ends_pure]
    refine ⟨rfl, htook.inodes, ?_⟩
    rw [view_eq hsin] at hzero
    exact htook.mapping_indirect hcore hi hsin hk hk' hne hzero
  · rintro e sfs' ⟨rfl, rfl, hnone⟩
    unfold sfs_bmap_get_sub_cleanup
    rw [if_neg (not_not.mpr rfl), Routine.ends_fail]
    refine ⟨rfl, rfl, ?_⟩
    rw [hnone]
    unfold cost
    rw [if_neg (not_not.mpr hzero), view_eq hsin, if_neg fun h => hne h.2]
    exact Nat.one_pos
  · exact fun _ h => h

/-- `sfs_bmap_get_nolock` through an indirect block that is there. -/
theorem ends_get_indirect (hcore : Core I sfs) (hi : i ∈ I) (hsin : sfs.inodes i = some sin)
    (hk : 12 ≤ k) (hk' : k < 1036) (hne : sin.din.indirect ≠ 0)
    (hzero : (view sfs i).entry k = 0) :
    GetEnds I i k sfs (sfs_bmap_get_indirect i (k - 12) true) := by
  have hind : slot I sfs (.indirect i) = sin.din.indirect := by
    rw [slot_indirect hi, view_eq hsin]
  have hlt : sin.din.indirect < sfs.super.blocks := by
    have h := hcore.lt (.indirect i)
    rw [hind] at h
    exact h hne
  have hload : ofLe ((sfs.dev sin.din.indirect).slice ((k - 12) * 4) 4) = 0 := by
    have h := hzero
    rw [view_eq hsin] at h
    exact (entryAt_indirect hk hk' hne).symm.trans h
  unfold GetEnds sfs_bmap_get_indirect sfs_bmap_get_sub_nolock
  rw [Routine.ends_bind, ends_sfsInode hsin, Routine.ends_bind, Routine.ends_bind,
    Routine.ends_assert, if_pos (by omega), if_pos hne, Routine.ends_bind,
    ends_rbuf hne hlt (by omega) (by omega), hload, if_neg (by simp)]
  apply (ends_get_sub_alloc hcore hi hsin hk hk' hne hzero).mono
  · rintro ⟨b, ent⟩ sfs' ⟨rfl, -, hmap⟩
    rw [Routine.ends_bind, Routine.ends_when, if_neg (not_not.mpr rfl)]
    exact hmap
  · rintro e sfs' ⟨rfl, rfl, hcost⟩
    exact ⟨rfl, Idle.refl _, hcost⟩
  · exact fun _ h => h

/-- `sfs_bmap_get_nolock` when the indirect block is to be made. -/
theorem ends_get_first (hcore : Core I sfs) (hi : i ∈ I) (hsin : sfs.inodes i = some sin)
    (hk : 12 ≤ k) (hk' : k < 1036) (hnone : sin.din.indirect = 0) :
    GetEnds I i k sfs (sfs_bmap_get_indirect i (k - 12) true) := by
  have hzero : (view sfs i).entry k = 0 := by
    rw [view_eq hsin]
    exact entryAt_no_indirect hk hnone
  have hcost : cost (view sfs i) k = 2 := by
    unfold cost
    rw [if_neg (not_not.mpr hzero), view_eq hsin, if_pos ⟨hk, hnone⟩]
  unfold GetEnds sfs_bmap_get_indirect sfs_bmap_get_sub_nolock
  rw [Routine.ends_bind, ends_sfsInode hsin, Routine.ends_bind, Routine.ends_bind,
    Routine.ends_assert, if_pos (by omega), if_neg (not_not.mpr hnone), if_neg (by simp),
    hcost, hnone]
  -- Two blocks are taken, the indirect block first.
  apply (ends_block_alloc hcore.pool).seq
  · intro ent sfs₁ htook
    have hpool₁ := htook.pool hcore.pool
    have hused : sfs₁.freemap.isFree ent = false := by
      rw [htook.isFree, Function.update_self]
    have hlt : ent < sfs₁.super.blocks := by
      rw [htook.super]
      exact htook.lt
    unfold sfs_bmap_get_sub_alloc
    rw [Routine.ends_bind, Routine.ends_handle]
    apply (ends_block_alloc hpool₁).mono
    · intro b sfs₂ htook'
      rw [Routine.ends_bind, Routine.ends_handle]
      refine (ends_wbuf htook.ne_zero ?_ (by omega) (by rw [length_toLe]; omega)).mpr ?_
      · rw [htook'.super]
        exact hlt
      rw [Routine.ends_pure]
      rw [Routine.ends_bind, Routine.ends_when, if_pos htook.ne_zero, Routine.ends_bind,
        ends_check (by simp)]
      have hsin₂ : (withEntry sfs₂ ent (k - 12) b).inodes i = some sin := by
        show sfs₂.inodes i = _
        rw [htook'.inodes, htook.inodes]
        exact hsin
      refine (ends_setDin hsin₂).mpr ?_
      exact htook.mapping_first hcore hi hsin hk hk' hnone htook'
    -- The second one is not to be had, and `failed_cleanup` gives the first back.
    · rintro e sfs₂ ⟨rfl, rfl, hnone₁⟩
      unfold sfs_bmap_get_sub_cleanup
      rw [if_pos htook.ne_zero]
      apply (ends_block_free hpool₁ htook.ne_zero hlt hused).seq
      · intro _ sfs₃ hgave
        refine ⟨rfl, Idle.of_gave htook hgave, ?_⟩
        rw [htook.super] at hnone₁
        replace hnone₁ : sfs.super.unused_blocks - 1 = 0 := hnone₁
        omega
      · exact fun _ _ h => h.elim
      · exact fun _ h => h
    · exact fun _ h => h
  · rintro e sfs' ⟨rfl, rfl, hnone₁⟩
    refine ⟨rfl, Idle.refl _, ?_⟩
    omega
  · exact fun _ h => h

/-- `sfs_bmap_get_nolock` with `create` at an index that is not mapped. -/
theorem ends_get_create (hcore : Core I sfs) (hi : i ∈ I) (hsin : sfs.inodes i = some sin)
    (hk : k < 1036) (hzero : (view sfs i).entry k = 0) :
    GetEnds I i k sfs (sfs_bmap_get_nolock i k true) := by
  have hget : GetEnds I i k sfs (sfs_bmap_get_block i k true) := by
    unfold sfs_bmap_get_block
    by_cases hlow : k < 12
    · rw [dif_pos hlow]
      exact ends_get_direct hcore hi hsin hlow hzero
    · rw [dif_neg hlow, if_pos (by omega)]
      by_cases hind : sin.din.indirect = 0
      · exact ends_get_first hcore hi hsin (by omega) hk hind
      · exact ends_get_indirect hcore hi hsin (by omega) hk hind hzero
  unfold GetEnds sfs_bmap_get_nolock
  apply hget.seq
  · intro b sfs' hmap
    have hslot : slot I sfs' (.data i k) = b := by
      rw [slot_data hi, hmap.entry, Function.update_self]
    have hne : slot I sfs' (.data i k) ≠ 0 := by
      rw [hslot]
      exact hmap.ne_zero
    have hused := hmap.core.used hne
    have hlt := hmap.core.lt _ hne
    rw [hslot] at hused hlt
    rw [Routine.ends_bind, Routine.ends_when, if_pos hmap.ne_zero, Routine.ends_bind,
      ends_block_inuse hmap.core.pool.bits hmap.ne_zero hlt,
      ends_check (by rw [hused]; rfl), Routine.ends_pure]
    exact hmap
  · exact fun _ _ h => h
  · exact fun _ h => h

/-- `sfs_bmap_get_nolock` at an index that is mapped. -/
theorem ends_get_found {Q : Nat → Sfs → Prop} {E : Errno → Sfs → Prop} {H : SfsPanic → Prop}
    {create : Bool} (hcore : Core I sfs) (hi : i ∈ I) (hsin : sfs.inodes i = some sin)
    (hne : (view sfs i).entry k ≠ 0) (hQ : Q ((view sfs i).entry k) sfs) :
    (sfs_bmap_get_nolock i k create).Ends sfs Q E H := by
  have hfar : k < 1036 := by
    by_contra h
    rw [view_eq hsin] at hne
    exact hne (entryAt_far (by omega))
  have hget : (sfs_bmap_get_block i k create).Ends sfs
      (fun b sfs' => b = (view sfs i).entry k ∧ sfs' = sfs) E H := by
    unfold sfs_bmap_get_block
    -- No branch allocates: the entry is read from the inode or from the indirect block.
    by_cases hlow : k < 12
    · have hdirect : (view sfs i).entry k = sin.din.direct ⟨k, hlow⟩ := by
        rw [view_eq hsin]
        exact dif_pos hlow
      rw [hdirect] at hne
      rw [dif_pos hlow]
      unfold sfs_bmap_get_direct
      rw [Routine.ends_bind, ends_sfsInode hsin, if_neg fun h => hne h.1, Routine.ends_pure]
      exact ⟨hdirect.symm, rfl⟩
    · have hind : sin.din.indirect ≠ 0 := by
        intro hnone
        rw [view_eq hsin] at hne
        exact hne (entryAt_no_indirect (by omega) hnone)
      have hentry : (view sfs i).entry k =
          ofLe ((sfs.dev sin.din.indirect).slice ((k - 12) * 4) 4) := by
        rw [view_eq hsin]
        exact entryAt_indirect (by omega) hfar hind
      have hslot : slot I sfs (.indirect i) = sin.din.indirect := by
        rw [slot_indirect hi, view_eq hsin]
      have hlt : sin.din.indirect < sfs.super.blocks := by
        have h := hcore.lt (.indirect i)
        rw [hslot] at h
        exact h hind
      rw [dif_neg hlow, if_pos (by omega)]
      unfold sfs_bmap_get_indirect sfs_bmap_get_sub_nolock
      rw [Routine.ends_bind, ends_sfsInode hsin, Routine.ends_bind, Routine.ends_bind,
        Routine.ends_assert, if_pos (by omega), if_pos hind, Routine.ends_bind,
        ends_rbuf hind hlt (by omega) (by omega), ← hentry, if_pos (Or.inl hne),
        Routine.ends_pure]
      rw [Routine.ends_bind, Routine.ends_when, if_neg (not_not.mpr rfl)]
      exact ⟨rfl, rfl⟩
  unfold sfs_bmap_get_nolock
  apply hget.seq
  -- `assert(sfs_block_inuse(sfs, ino))`
  · rintro b sfs' ⟨rfl, rfl⟩
    have hslot : slot I sfs' (.data i k) ≠ 0 := by
      rw [slot_data hi]
      exact hne
    have hused := hcore.used hslot
    have hlt := hcore.lt _ hslot
    rw [slot_data hi] at hused hlt
    rw [Routine.ends_bind, Routine.ends_when, if_pos hne, Routine.ends_bind,
      ends_block_inuse hcore.pool.bits hne hlt, ends_check (by rw [hused]; rfl), Routine.ends_pure]
    exact hQ
  · exact fun _ _ h => h
  · exact fun _ h => h

/-- `sfs_bmap_get_nolock` with `create`. -/
theorem ends_get (hcore : Core I sfs) (hi : i ∈ I) (hsin : sfs.inodes i = some sin)
    (hk : k < 1036) : GetEnds I i k sfs (sfs_bmap_get_nolock i k true) := by
  by_cases hzero : (view sfs i).entry k = 0
  · exact ends_get_create hcore hi hsin hk hzero
  · exact ends_get_found hcore hi hsin hzero (Mapping.refl hcore hzero)

/-- `sfs_bmap_get_nolock` with `create` at an index that cannot be mapped. -/
theorem ends_get_range {Q : Nat → Sfs → Prop} {E : Errno → Sfs → Prop} {H : SfsPanic → Prop}
    {create : Bool} (hk : 1036 ≤ k) (hH : H .bmapRange) :
    (sfs_bmap_get_nolock i k create).Ends sfs Q E H := by
  unfold sfs_bmap_get_nolock sfs_bmap_get_block
  rw [dif_neg (by omega), if_neg (by omega), Routine.ends_bind, Routine.ends_panic]
  exact hH

end Ucore.Proofs.Fs
