import Mathlib
import Ucore.Proofs.Fs.Volume
import Ucore.Proofs.Tools.Image

/-!
# `Ucore.Proofs.Tools.Append`: files grow by blocks

`Well` is the invariant of the tool between two calls, and `Appended` what the three calls do that
write a block of data and append it to a file (`Well.append`). The lookup in the hash lists of the
blocks is never reached below the limit of the doubly indirect block: `l1` is the indirect block.

`Well` says that the image, as a volume, has its blocks where they should be (`Core`), that the
inodes in memory are those of the volume, and that a file has as many blocks as its size needs. The
tool hands out blocks in order, so the next one is in no place (`Well.next_not_mem`).

A file grows in three ways, with a lemma for each: one of the first twelve blocks
(`Well.append_direct`), a block behind the first one of the indirect block (`Well.append_indirect`),
and that first one (`Well.append_first`). In the last case two blocks are taken, and the indirect
one is handed out behind the block of data.
-/

set_option autoImplicit false

namespace Ucore.Proofs.Tools

open Ucore.Lib Ucore.Fs Ucore.Tools Ucore.Proofs.Fs

variable {st st' st'' : MkSfs} {I : Finset Nat} {i j k b : Nat} {ci ci' : CacheInode}
  {E : MkBug → MkSfs → Prop} {H : MkAssert → Prop}

/-! ### How the functions end -/

/-- `sfs_alloc_ino` takes the next block, if there is one. -/
theorem ends_alloc_ino {Q : Nat → MkSfs → Prop} : sfs_alloc_ino.Ends st Q E H ↔
    if st.next_ino < st.ninos then Q st.next_ino (withAlloc st) else E .outOfSpace st := by
  unfold sfs_alloc_ino
  rw [Routine.ends_bind, Routine.ends_read, id_eq, Routine.ends_ite]
  exact Iff.rfl

/-- `write_block` writes data that fit a block, with zeros behind them. -/
theorem ends_write_block {Q : Unit → MkSfs → Prop} {data : List UInt8}
    (hlen : data.length ≤ 4096) (hlt : b < st.ninos) :
    (write_block data b).Ends st Q E H ↔ Q () (withImg st b (bufferBlock data)) := by
  unfold write_block
  rw [Routine.ends_bind, Routine.ends_assert, if_pos ⟨hlen, hlt⟩, Routine.ends_modify]
  exact Iff.rfl

/-- An inode in memory is read. -/
theorem ends_cacheInode {Q : CacheInode → MkSfs → Prop} (h : st.cacheInodes i = some ci) :
    (cacheInode i).Ends st Q E H ↔ Q ci st := by
  unfold Routine.Ends cacheInode
  rw [h]

/-- An inode in memory is changed. -/
theorem ends_setCacheInode {Q : Unit → MkSfs → Prop} {f : CacheInode → CacheInode}
    (ci : CacheInode) (h : st.cacheInodes i = some ci) :
    (setCacheInode i f).Ends st Q E H ↔ Q () (withCi st i (f ci)) := by
  unfold setCacheInode
  rw [Routine.ends_modify, h]
  exact Iff.rfl

/-- A block in memory is read. -/
theorem ends_cacheBlock {Q : Bytes → MkSfs → Prop} {cache : Bytes}
    (h : st.cacheBlocks b = some cache) : (cacheBlock b).Ends st Q E H ↔ Q cache st := by
  unfold Routine.Ends cacheBlock
  rw [h]

/-- An entry of an indirect block in memory is changed. -/
theorem ends_setCacheBlock {Q : Unit → MkSfs → Prop} {index ino : Nat} (cache : Bytes)
    (h : st.cacheBlocks b = some cache) :
    (setCacheBlock b index ino).Ends st Q E H ↔
      Q () (withCb st b (cache.store (index * 4) 4 ino)) := by
  unfold setCacheBlock
  rw [Routine.ends_modify, h]
  exact Iff.rfl

/-- A block that is not given is allocated. -/
theorem ends_given_or_alloc {Q : Nat → MkSfs → Prop} : (given_or_alloc 0).Ends st Q E H ↔
    if st.next_ino < st.ninos then Q st.next_ino (withAlloc st) else E .outOfSpace st := by
  unfold given_or_alloc
  rw [Routine.ends_ite, if_neg (by simp), ends_alloc_ino]

/-- There is no block yet. -/
theorem ends_update_cache_new {Q : Nat → MkSfs → Prop} (cb : Option Nat) :
    (update_cache cb 0).Ends st Q E H ↔
      if st.next_ino < st.ninos then
        Q st.next_ino (withHead (withCb (withAlloc st) st.next_ino fun _ => 0) st.next_ino)
      else E .outOfSpace st := by
  unfold update_cache alloc_cache_block
  rw [Routine.ends_ite, if_pos rfl, Routine.ends_bind, ends_given_or_alloc]
  exact Iff.rfl

/-- The block is the one at hand. -/
theorem ends_update_cache_same {Q : Nat → MkSfs → Prop} (hb : b ≠ 0) :
    (update_cache (some b) b).Ends st Q E H ↔ Q b st := by
  unfold update_cache
  rw [Routine.ends_ite, if_neg hb, Routine.ends_bind, Routine.ends_when, if_neg (by simp),
    Routine.ends_pure]

/-! ### The invariant -/

/-- The invariant of an inode in memory. -/
structure CiWell (I : Finset Nat) (next : Nat) (v : FileView) (ci : CacheInode) : Prop where
  nblks : ci.nblks = ci.inode.blocks
  l1 : ci.l1 = if ci.inode.indirect = 0 then none else some ci.inode.indirect
  mapped : Mapped v
  rest : ∀ k, ci.inode.blocks ≤ k → v.entry k = 0
  indirect : ci.inode.indirect = 0 ↔ ci.inode.blocks ≤ 12
  type : ci.inode.type = SFS_TYPE_FILE ∨ ci.inode.type = SFS_TYPE_DIR ∨
    ci.inode.type = SFS_TYPE_LINK
  size : ci.inode.size ≤ 4096 * ci.inode.blocks
  nlinks : ci.inode.nlinks < next
  dir : ci.inode.type = SFS_TYPE_DIR → ∀ k, k < ci.inode.blocks → inoAt v.content k ∈ I

/-- The invariant of the tool. -/
structure Well (I : Finset Nat) (st : MkSfs) : Prop where
  sizes : Sizes st
  small : st.ninos ≤ 65536
  magic : st.super.magic = SFS_MAGIC
  info : st.super.info.length = 32
  core : Core I (vol st)
  covered : Covered (slot I (vol st)) (vol st).freemap.isFree (vol st).super.blocks
  mem : ∀ i, i ∈ I ↔ (st.cacheInodes i).isSome = true
  inode : ∀ i ci, st.cacheInodes i = some ci → CiWell I st.next_ino (view (vol st) i) ci
  block : ∀ b, (st.cacheBlocks b).isSome = true ↔
    b ≠ 0 ∧ ∃ i ci, st.cacheInodes i = some ci ∧ ci.inode.indirect = b
  listed : ∀ h i, i ∈ st.inodes h ↔ ∃ ci, st.cacheInodes i = some ci ∧ Tools.hash64 ci.real = h
  heads : ∀ h b, b ∈ st.blocks h ↔ h = hash32 0 ∧ (st.cacheBlocks b).isSome = true
  entry : st.entry.length = 256

/-- Every inode of the image is in memory. -/
theorem Well.exists_ci (h : Well I st) (hi : i ∈ I) : ∃ ci, st.cacheInodes i = some ci :=
  Option.isSome_iff_exists.mp ((h.mem i).mp hi)

/-- Every inode in memory is one of the image. -/
theorem Well.mem_of (h : Well I st) (hci : st.cacheInodes i = some ci) : i ∈ I := by
  rw [h.mem, hci]
  rfl

/-- An inode in memory, as the volume sees it. -/
theorem vol_inodes (hci : st.cacheInodes i = some ci) :
    (vol st).inodes i = some (asInode ci) := by
  show (st.cacheInodes i).map asInode = _
  rw [hci]
  rfl

/-- An inode in memory, as its file has it. -/
theorem view_din (hci : st.cacheInodes i = some ci) :
    (view (vol st) i).din = MkInode.din ci.inode := by
  rw [view_eq (vol_inodes hci)]
  rfl

/-- The indirect block of a file is in its place. -/
theorem Well.slot_indirect (h : Well I st) (hci : st.cacheInodes i = some ci) :
    slot I (vol st) (.indirect i) = ci.inode.indirect := by
  rw [Fs.slot_indirect (h.mem_of hci), view_din hci]
  rfl

/-- The next block is not in memory, since it is in no place. -/
theorem Well.cacheBlocks_next (h : Well I st) (hlt : st.next_ino < st.ninos) :
    st.cacheBlocks st.next_ino = none := by
  by_contra hne
  obtain ⟨hb, i, ci, hci, hind⟩ := (h.block _).mp (Option.isSome_iff_ne_none.mpr hne)
  have hslot := h.slot_indirect hci
  rw [hind] at hslot
  have hused := h.core.used (x := .indirect i) (by rw [hslot]; exact hb)
  have hfree := (h.sizes.took hlt (vol st).dev).free
  rw [hslot] at hused
  exact Bool.false_ne_true (hused.symm.trans hfree)

/-- The next block is no inode. -/
theorem Well.next_not_mem (h : Well I st) (hlt : st.next_ino < st.ninos) : st.next_ino ∉ I := by
  intro hi
  have hslot : slot I (vol st) (.inode st.next_ino) = st.next_ino := slot_inode hi
  have hused := h.core.used (x := .inode st.next_ino) (by rw [hslot]; exact h.sizes.ne_zero)
  have hfree := (h.sizes.took hlt (vol st).dev).free
  rw [hslot] at hused
  exact Bool.false_ne_true (hused.symm.trans hfree)

/-! ### What an append has done -/

/-- A block has been appended to the file. -/
structure Appended (I : Finset Nat) (i : Nat) (blk : Bytes) (size : Nat) (st st' : MkSfs) : Prop
    where
  well : Well I st'
  kept : Kept I i (vol st) (vol st')
  other : ∀ j, j ≠ i → st'.cacheInodes j = st.cacheInodes j
  self : ∀ ci, st.cacheInodes i = some ci → ∃ ci', st'.cacheInodes i = some ci' ∧
    ci'.real = ci.real ∧ ci'.inode.type = ci.inode.type ∧ ci'.inode.nlinks = ci.inode.nlinks ∧
    ci'.inode.size = ci.inode.size + size ∧ ci'.inode.blocks = ci.inode.blocks + 1 ∧
    (view (vol st') i).content = fun pos =>
      if pos / 4096 = ci.inode.blocks then blk (pos % 4096) else (view (vol st) i).content pos
  ninos : st'.ninos = st.ninos
  next : st.next_ino < st'.next_ino

/-- With more inodes and more blocks taken an inode is still sound. -/
theorem CiWell.mono {I' : Finset Nat} {v : FileView} {next next' : Nat} (h : CiWell I next v ci)
    (hsub : I ⊆ I') (hnext : next ≤ next') : CiWell I' next' v ci :=
  { h with
    nlinks := lt_of_lt_of_le h.nlinks hnext
    dir := fun hd k hk => hsub (h.dir hd k hk) }

/-- A block appended to the entries of a file does not change those before it. -/
theorem inoAt_put {content content' blk : Bytes} {n : Nat}
    (h : content' = fun pos => if pos / 4096 = n then blk (pos % 4096) else content pos) (k : Nat) :
    inoAt content' k = if k = n then blk.load 0 4 else inoAt content k := by
  unfold inoAt Bytes.load
  by_cases hk : k = n
  · rw [if_pos hk]
    congr 1
    apply List.map_congr_left
    intro o ho
    rw [List.mem_range] at ho
    rw [h]
    dsimp only
    rw [if_pos (by omega), show (4096 * k + o) % 4096 = 0 + o by omega]
  · rw [if_neg hk]
    congr 1
    apply Bytes.slice_congr
    intro pos hlow hhigh
    rw [h]
    dsimp only
    rw [if_neg (by omega)]

/-- `Appended`, from what has happened to the file and to the structures in memory. -/
theorem Well.appended (h : Well I st) (hci : st.cacheInodes i = some ci) {blk : Bytes}
    {size : Nat} (hsize : size ≤ 4096)
    (hput : Put I i ci.inode.blocks b blk (MkInode.din ci'.inode) (vol st) (vol st'))
    (hdir : ci.inode.type = SFS_TYPE_DIR → blk.load 0 4 ∈ I)
    (hinodes : st'.cacheInodes = Function.update st.cacheInodes i (some ci'))
    (hreal : ci'.real = ci.real) (hnblks : ci'.nblks = ci.nblks + 1)
    (hnew : ci'.inode = grownInode
      { ci.inode with direct := ci'.inode.direct, indirect := ci'.inode.indirect } size)
    (hl1 : ci'.l1 = if ci'.inode.indirect = 0 then none else some ci'.inode.indirect)
    (hind : ci'.inode.indirect = 0 ↔ ci'.inode.blocks ≤ 12)
    (hsizes : Sizes st') (hninos : st'.ninos = st.ninos) (hnext : st.next_ino < st'.next_ino)
    (hsuper : st'.super = { st.super with unused_blocks := st'.super.unused_blocks })
    (hlists : st'.inodes = st.inodes) (hentry : st'.entry = st.entry)
    (hblock : ∀ b, (st'.cacheBlocks b).isSome = true ↔
      (st.cacheBlocks b).isSome = true ∨ (b ≠ 0 ∧ ci'.inode.indirect = b))
    (hkeep : ci.inode.indirect ≠ 0 → ci'.inode.indirect = ci.inode.indirect)
    (hheads : ∀ h b, b ∈ st'.blocks h ↔ h = hash32 0 ∧ (st'.cacheBlocks b).isSome = true) :
    Appended I i blk size st st' := by
  have hi := h.mem_of hci
  have hwell := h.inode i ci hci
  have hself : st'.cacheInodes i = some ci' := by
    rw [hinodes, Function.update_self]
  have hother : ∀ j, j ≠ i → st'.cacheInodes j = st.cacheInodes j := by
    intro j hj
    rw [hinodes, Function.update_of_ne hj]
  have hblocks' : ci'.inode.blocks = ci.inode.blocks + 1 :=
    (congrArg MkInode.blocks hnew).trans rfl
  have htype : ci'.inode.type = ci.inode.type := (congrArg MkInode.type hnew).trans rfl
  have hnlinks : ci'.inode.nlinks = ci.inode.nlinks :=
    (congrArg MkInode.nlinks hnew).trans rfl
  have hsize' : ci'.inode.size = ci.inode.size + size :=
    (congrArg MkInode.size hnew).trans rfl
  have hcontent := hput.content
  -- the inode is well formed again
  have hci' : CiWell I st'.next_ino (view (vol st') i) ci' := by
    refine ⟨?_, hl1, ?_, ?_, hind, ?_, ?_, ?_, ?_⟩
    · rw [hnblks, hblocks', hwell.nblks]
    · intro k hk
      rw [hput.din] at hk
      have hlt : k < ci.inode.blocks + 1 := lt_of_lt_of_eq hk hblocks'
      rw [hput.entry]
      by_cases hkn : k = ci.inode.blocks
      · rw [hkn, Function.update_self]
        exact hput.ne_zero
      · rw [Function.update_of_ne hkn]
        apply hwell.mapped
        rw [view_din hci]
        show k < ci.inode.blocks
        omega
    · intro k hk
      rw [hput.entry, Function.update_of_ne (by omega)]
      exact hwell.rest k (by omega)
    · rw [htype]
      exact hwell.type
    · rw [hsize', hblocks']
      have hle := hwell.size
      omega
    · rw [hnlinks]
      exact hwell.nlinks.trans hnext
    · intro hd k hk
      rw [inoAt_put hcontent]
      by_cases hkn : k = ci.inode.blocks
      · rw [if_pos hkn]
        exact hdir (htype ▸ hd)
      · rw [if_neg hkn]
        exact hwell.dir (htype ▸ hd) k (by omega)
  -- The fields of `Well`. The other inodes of the tool have not been touched.
  refine ⟨⟨hsizes, ?_, ?_, ?_, hput.core, hput.kept.covered h.covered, ?_, ?_, ?_, ?_, hheads, ?_⟩,
    hput.kept, hother, ?_, hninos, hnext⟩
  · rw [hninos]
    exact h.small
  · rw [hsuper]
    exact h.magic
  · rw [hsuper]
    exact h.info
  · intro j
    by_cases hj : j = i
    · rw [hj, hself]
      exact iff_of_true hi rfl
    · rw [hother j hj]
      exact h.mem j
  · intro j cj hcj
    by_cases hj : j = i
    · rw [hj] at hcj ⊢
      rw [hself] at hcj
      cases hcj
      exact hci'
    · rw [hother j hj] at hcj
      rw [hput.kept.view_eq h.core.pos (h.mem_of hcj) hj]
      exact (h.inode j cj hcj).mono (Finset.Subset.refl I) (le_of_lt hnext)
  -- A block in the cache is an indirect block of some inode, and `i` may have a new one.
  · intro c
    rw [hblock c, h.block c]
    constructor
    · rintro (⟨hc, j, cj, hcj, heq⟩ | ⟨hc, heq⟩)
      · refine ⟨hc, j, ?_⟩
        by_cases hj : j = i
        · rw [hj, hci] at hcj
          cases hcj
          refine ⟨ci', hj ▸ hself, ?_⟩
          rw [hkeep (by rw [heq]; exact hc), heq]
        · exact ⟨cj, (hother j hj).trans hcj, heq⟩
      · exact ⟨hc, i, ci', hself, heq⟩
    · rintro ⟨hc, j, cj, hcj, heq⟩
      by_cases hj : j = i
      · rw [hj, hself] at hcj
        cases hcj
        exact Or.inr ⟨hc, heq⟩
      · rw [hother j hj] at hcj
        exact Or.inl ⟨hc, j, cj, hcj, heq⟩
  · intro n j
    rw [hlists, h.listed n j]
    by_cases hj : j = i
    · rw [hj, hself, hci]
      simp [hreal]
    · rw [hother j hj]
  · rw [hentry]
    exact h.entry
  · intro c hc
    rw [hci] at hc
    cases hc
    exact ⟨ci', hself, hreal, htype, hnlinks, hsize', hblocks', hcontent⟩

/-! ### The calls -/

/-- Of two changes of an inode the second one stays. -/
theorem withCi_withCi (st : MkSfs) (i : Nat) (ci ci' : CacheInode) :
    withCi (withCi st i ci) i ci' = withCi st i ci' := by
  unfold withCi
  rw [Function.update_idem]

/-- Of two changes of a block the second one stays. -/
theorem withCb_withCb (st : MkSfs) (b : Nat) (cache cache' : Bytes) :
    withCb (withCb st b cache) b cache' = withCb st b cache' := by
  unfold withCb
  rw [Function.update_idem]

/-- The inode behind `append_block`, when the block has got a place. -/
def grown (ci : CacheInode) (size : Nat) : CacheInode :=
  { ci with nblks := ci.nblks + 1, inode := grownInode ci.inode size }

/-- The inode with a direct entry. -/
def withDirect (ci : CacheInode) (k : Fin 12) (b : Nat) : CacheInode :=
  { ci with inode := { ci.inode with direct := Function.update ci.inode.direct k b } }

/-- The inode with an indirect block. -/
def withIndirect (ci : CacheInode) (b : Nat) : CacheInode :=
  { ci with l1 := some b, inode := { ci.inode with indirect := b } }

/-- The first twelve blocks. -/
theorem Well.append_direct (h : Well I st) (hci : st.cacheInodes i = some ci)
    (hlt : st.next_ino < st.ninos) (hk : ci.inode.blocks < 12) {blk : Bytes} {size : Nat}
    (hsize : size ≤ 4096) (hdir : ci.inode.type = SFS_TYPE_DIR → blk.load 0 4 ∈ I) :
    Appended I i blk size st (withCi (withImg (withAlloc st) st.next_ino blk) i
      (grown (withDirect ci ⟨ci.inode.blocks, hk⟩ st.next_ino) size)) := by
  have hwell := h.inode i ci hci
  have hi := h.mem_of hci
  have hzero : ci.inode.direct ⟨ci.inode.blocks, hk⟩ = 0 := by
    have hrest := hwell.rest _ (le_refl _)
    rw [view_eq (vol_inodes hci)] at hrest
    replace hrest : entryAt (asInode ci).din (vol st).dev ci.inode.blocks = 0 := hrest
    unfold entryAt at hrest
    rw [dif_pos hk] at hrest
    exact hrest
  have hput := h.sizes.put_direct hlt h.core hi hci hk hzero (h.cacheBlocks_next hlt) blk
    (grown (withDirect ci ⟨ci.inode.blocks, hk⟩ st.next_ino) size) size rfl
  have hlow := hwell.indirect.mpr (le_of_lt hk)
  refine h.appended hci hsize hput hdir rfl rfl rfl rfl hwell.l1 ?_ ((h.sizes.alloc hlt).congr rfl rfl rfl)
    rfl (Nat.lt_succ_self _) rfl rfl rfl ?_ (fun _ => rfl) h.heads
  · exact iff_of_true hlow hk
  · intro b
    refine ⟨Or.inl, fun hb => hb.resolve_right ?_⟩
    rintro ⟨hb, heq⟩
    exact hb (heq.symm.trans hlow)

/-- The blocks behind the first one of the indirect block. -/
theorem Well.append_indirect (h : Well I st) (hci : st.cacheInodes i = some ci)
    (hlt : st.next_ino < st.ninos) (hk : 12 < ci.inode.blocks) (hk' : ci.inode.blocks < 1036)
    {cache : Bytes} (hcache : st.cacheBlocks ci.inode.indirect = some cache)
    {blk : Bytes} {size : Nat} (hsize : size ≤ 4096)
    (hdir : ci.inode.type = SFS_TYPE_DIR → blk.load 0 4 ∈ I) :
    Appended I i blk size st (withCi (withCb (withImg (withAlloc st) st.next_ino blk)
      ci.inode.indirect (cache.store ((ci.inode.blocks - 12) * 4) 4 st.next_ino)) i
      (grown ci size)) := by
  have hwell := h.inode i ci hci
  have hi := h.mem_of hci
  have hne : ci.inode.indirect ≠ 0 := fun hzero => by
    have hle := hwell.indirect.mp hzero
    omega
  have hput := h.sizes.put_indirect hlt h.core hi hci (by omega) hk' hne
    (hwell.rest _ (le_refl _)) (h.cacheBlocks_next hlt) hcache blk (grown ci size) size rfl
  have hsome : ∀ b, (Function.update st.cacheBlocks ci.inode.indirect
      (some (cache.store ((ci.inode.blocks - 12) * 4) 4 st.next_ino)) b).isSome =
      (st.cacheBlocks b).isSome := by
    intro b
    by_cases hb : b = ci.inode.indirect
    · rw [hb, Function.update_self, hcache]
      rfl
    · rw [Function.update_of_ne hb]
  refine h.appended hci hsize hput hdir rfl rfl rfl rfl hwell.l1 ?_ ((h.sizes.alloc hlt).congr rfl rfl rfl)
    rfl (Nat.lt_succ_self _) rfl rfl rfl ?_ (fun _ => rfl) ?_
  · refine iff_of_false hne ?_
    show ¬ ci.inode.blocks + 1 ≤ 12
    omega
  · intro b
    show (Function.update st.cacheBlocks _ _ b).isSome = true ↔ _
    rw [hsome]
    refine ⟨Or.inl, fun hb => ?_⟩
    rcases hb with hb | ⟨-, heq⟩
    · exact hb
    · rw [← heq]
      show (st.cacheBlocks ci.inode.indirect).isSome = true
      rw [hcache]
      rfl
  · intro n b
    show b ∈ st.blocks n ↔ n = hash32 0 ∧ (Function.update st.cacheBlocks _ _ b).isSome = true
    rw [hsome]
    exact h.heads n b

/-- The first block of the indirect block, which is handed out behind it. -/
theorem Well.append_first (h : Well I st) (hci : st.cacheInodes i = some ci)
    (hlt : st.next_ino + 1 < st.ninos) (hk : ci.inode.blocks = 12) {blk : Bytes} {size : Nat}
    (hsize : size ≤ 4096) (hdir : ci.inode.type = SFS_TYPE_DIR → blk.load 0 4 ∈ I) :
    Appended I i blk size st (withCi (withCb (withHead (withAlloc
      (withImg (withAlloc st) st.next_ino blk)) (st.next_ino + 1)) (st.next_ino + 1)
      (Bytes.store (fun _ => 0) ((ci.inode.blocks - 12) * 4) 4 st.next_ino)) i
      (grown (withIndirect ci (st.next_ino + 1)) size)) := by
  have hwell := h.inode i ci hci
  have hi := h.mem_of hci
  have hlow := hwell.indirect.mpr (le_of_eq hk)
  have hput := h.sizes.put_first hlt h.core hi hci (le_of_eq hk.symm) (by omega) hlow
    (h.cacheBlocks_next (Nat.lt_of_succ_lt hlt)) blk
    (grown (withIndirect ci (st.next_ino + 1)) size) size rfl
  have hsome : ∀ b, (Function.update st.cacheBlocks (st.next_ino + 1)
      (some (Bytes.store (fun _ => 0) ((ci.inode.blocks - 12) * 4) 4 st.next_ino)) b).isSome =
        true ↔ (st.cacheBlocks b).isSome = true ∨ b = st.next_ino + 1 := by
    intro b
    by_cases hb : b = st.next_ino + 1
    · rw [hb, Function.update_self]
      exact iff_of_true rfl (Or.inr rfl)
    · rw [Function.update_of_ne hb]
      exact ⟨Or.inl, fun h => h.resolve_right hb⟩
  refine h.appended hci hsize hput hdir rfl rfl rfl rfl ?_ ?_
    (((h.sizes.alloc (Nat.lt_of_succ_lt hlt)).alloc hlt).congr rfl rfl rfl) rfl ?_ rfl rfl rfl ?_
    (fun hne => absurd hlow hne) ?_
  · exact (if_neg (Nat.succ_ne_zero st.next_ino)).symm
  · refine iff_of_false (Nat.succ_ne_zero st.next_ino) ?_
    show ¬ ci.inode.blocks + 1 ≤ 12
    omega
  · show st.next_ino < st.next_ino + 1 + 1
    omega
  · intro b
    show (Function.update st.cacheBlocks _ _ b).isSome = true ↔
      _ ∨ (b ≠ 0 ∧ st.next_ino + 1 = b)
    rw [hsome]
    refine or_congr_right ⟨?_, fun hb => hb.2.symm⟩
    rintro rfl
    exact ⟨Nat.succ_ne_zero _, rfl⟩
  · intro n b
    show b ∈ Function.update st.blocks (hash32 0) ((st.next_ino + 1) :: st.blocks (hash32 0)) n ↔
      n = hash32 0 ∧ (Function.update st.cacheBlocks _ _ b).isSome = true
    rw [hsome]
    by_cases hn : n = hash32 0
    · rw [hn, Function.update_self, List.mem_cons, h.heads]
      simp only [true_and]
      exact or_comm
    · rw [Function.update_of_ne hn, h.heads]
      exact iff_of_false (fun hb => hn hb.1) fun hb => hn hb.1

/-- **The three calls that write a block of data and append it to a file.** They end with the
block in the file unless there is no space for it. -/
theorem Well.append (h : Well I st) (hci : st.cacheInodes i = some ci)
    (hblocks : ci.inode.blocks < 1036) {data : List UInt8} (hlen : data.length ≤ 4096) {size : Nat}
    (hsize : size ≤ 4096)
    (hdir : ci.inode.type = SFS_TYPE_DIR → (bufferBlock data).load 0 4 ∈ I)
    {Q : Unit → MkSfs → Prop} (hQ : ∀ st', Appended I i (bufferBlock data) size st st' → Q () st')
    (hE : ∀ s, E .outOfSpace s) :
    sfs_alloc_ino.Ends st
      (fun ino s => (write_block data ino).Ends s
        (fun _ s => (append_block i size ino).Ends s Q E H) E H) E H := by
  have hwell := h.inode i ci hci
  have hi := h.mem_of hci
  rw [ends_alloc_ino]
  split_ifs with hlt
  -- The new block is written, then it is put into the map of the file.
  · have hci₁ : (withImg (withAlloc st) st.next_ino (bufferBlock data)).cacheInodes i = some ci :=
      hci
    rw [ends_write_block hlen (show st.next_ino < (withAlloc st).ninos from hlt)]
    unfold append_block
    rw [Routine.ends_bind, Routine.ends_assert, if_pos hsize, Routine.ends_bind,
      ends_cacheInode hci₁, Routine.ends_ite, if_neg (by rw [hwell.nblks]; omega),
      Routine.ends_bind, hwell.nblks]
    unfold append_link
    by_cases hk : ci.inode.blocks < 12
    · -- a direct entry
      rw [dif_pos hk, ends_setCacheInode ci hci₁,
        ends_setCacheInode (withDirect ci ⟨ci.inode.blocks, hk⟩ st.next_ino)
          (Function.update_self ..), withCi_withCi]
      exact hQ _ (h.append_direct hci hlt hk hsize hdir)
    · rw [dif_neg hk, if_pos hblocks]
      unfold Ucore.Tools.append_indirect
      rw [Routine.ends_bind, ends_cacheInode hci₁, Routine.ends_bind]
      by_cases hfirst : ci.inode.blocks = 12
      · -- the indirect block is new
        have hnone := hwell.indirect.mpr (le_of_eq hfirst)
        rw [hnone, ends_update_cache_new]
        by_cases hlt' : st.next_ino + 1 < st.ninos
        · rw [if_pos (show (withImg (withAlloc st) st.next_ino (bufferBlock data)).next_ino <
              (withImg (withAlloc st) st.next_ino (bufferBlock data)).ninos from hlt'),
            Routine.ends_bind, ends_setCacheInode ci (by exact hci),
            ends_setCacheBlock (fun _ => 0) (by exact Function.update_self ..),
            ends_setCacheInode (withIndirect ci (st.next_ino + 1))
              (by exact Function.update_self ..)]
          have happ := hQ _ (h.append_first hci hlt' hfirst hsize hdir)
          rw [← withCi_withCi _ i (withIndirect ci (st.next_ino + 1)),
            ← withCb_withCb _ (st.next_ino + 1) (fun _ => 0)] at happ
          exact happ
        · rw [if_neg (show ¬ (withImg (withAlloc st) st.next_ino (bufferBlock data)).next_ino <
              (withImg (withAlloc st) st.next_ino (bufferBlock data)).ninos from hlt')]
          exact hE _
      · -- the indirect block is at hand
        have hne : ci.inode.indirect ≠ 0 := fun hzero => by
          have hle := hwell.indirect.mp hzero
          omega
        obtain ⟨cache, hcache⟩ := Option.isSome_iff_exists.mp
          ((h.block ci.inode.indirect).mpr ⟨hne, i, ci, hci, rfl⟩)
        have hl1 : ci.l1 = some ci.inode.indirect := by
          rw [hwell.l1, if_neg hne]
        have hsame : grown ci size = grown (withIndirect ci ci.inode.indirect) size := by
          unfold withIndirect
          rw [← hl1]
        rw [hl1, ends_update_cache_same hne, Routine.ends_bind, ends_setCacheInode ci hci₁,
          ends_setCacheBlock cache (by exact hcache),
          ends_setCacheInode (withIndirect ci ci.inode.indirect)
            (by exact Function.update_self ..)]
        have happ := hQ _ (h.append_indirect hci hlt (by omega) hblocks hcache hsize hdir)
        rw [← withCi_withCi _ i (withIndirect ci ci.inode.indirect), hsame] at happ
        exact happ
  · exact hE _

end Ucore.Proofs.Tools
