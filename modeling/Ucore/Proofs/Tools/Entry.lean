import Mathlib
import Ucore.Proofs.Fs.ReadWrite
import Ucore.Proofs.Tools.Append

/-!
# `Ucore.Proofs.Tools.Entry`: new inodes, links and directory entries

What the parts of `add_dir`, `add_file` and `add_link` do. `Onward` says that of the files that were
there only one may hold something else, and `Entered` that a directory has got one more entry. An
entry is read by the kernel as it was meant, up to the 252 bytes of the name that are written.

* `ends_alloc_cache_inode`: a new inode takes the next block and is empty.
* `Well.search`: the tool looks for an inode with the number of the host, so that a file with two
  names is copied once.
* `Well.link`: the number of links is counted up.
* `Well.add_entry`: an entry is a block of the directory, so it is appended like any other block.

`SameFile` compares two states of a file that hold the same, with perhaps more links. It is what all
files but one have in common in front of a call and behind it, and it composes.
-/

set_option autoImplicit false

namespace Ucore.Proofs.Tools

open Ucore.Lib Ucore.Fs Ucore.Tools Ucore.Proofs.Fs

variable {st st' st'' : MkSfs} {I I' : Finset Nat} {i j k b cur : Nat} {ci ci' : CacheInode}
  {E : MkBug → MkSfs → Prop} {H : MkAssert → Prop} {u v w : FileView}

/-! ### What stays -/

/-- A file that holds the same, with at least as many links. -/
structure SameFile (v w : FileView) : Prop where
  type : w.din.type = v.din.type
  size : w.din.size = v.din.size
  blocks : w.din.blocks = v.din.blocks
  content : w.content = v.content
  nlinks : v.din.nlinks ≤ w.din.nlinks

/-- A file holds what it holds. -/
theorem SameFile.refl (v : FileView) : SameFile v v := ⟨rfl, rfl, rfl, rfl, le_refl _⟩

/-- A file that holds the same after one call and after another. -/
theorem SameFile.trans (h : SameFile u v) (h' : SameFile v w) : SameFile u w :=
  ⟨h'.type.trans h.type, h'.size.trans h.size, h'.blocks.trans h.blocks,
    h'.content.trans h.content, h.nlinks.trans h'.nlinks⟩

/-- The entries of a directory, as the kernel reads them. -/
def dirEntries (v : FileView) : List SfsDiskEntry :=
  (List.range v.din.blocks).map fun k => SfsDiskEntry.decode (v.content.slice (4096 * k) 260)

/-- A directory that holds the same has the same entries. -/
theorem SameFile.dirEntries (h : SameFile v w) : dirEntries w = dirEntries v := by
  unfold Tools.dirEntries
  rw [h.blocks, h.content]

/-- The bytes of a file. -/
def viewBytes (v : FileView) : List UInt8 := v.content.slice 0 v.din.size

/-- A file has the blocks that its size needs, and zeros behind its end. -/
structure Tidy (v : FileView) : Prop where
  blocks : v.din.blocks = (v.din.size + 4095) / 4096
  zero : ∀ pos, v.din.size ≤ pos → v.content pos = 0

/-- A file that holds the same is as tidy. -/
theorem SameFile.tidy (h : SameFile v w) (ht : Tidy v) : Tidy w where
  blocks := by rw [h.blocks, h.size, ht.blocks]
  zero := by
    rw [h.size, h.content]
    exact ht.zero

/-- A file that holds the same has the same bytes. -/
theorem SameFile.viewBytes (h : SameFile v w) : viewBytes w = viewBytes v := by
  unfold Tools.viewBytes
  rw [h.size, h.content]

/-- Of the files `I` only `cur` may hold something else. -/
structure Onward (I : Finset Nat) (cur : Nat) (st st' : MkSfs) : Prop where
  same : ∀ j ∈ I, j ≠ cur → SameFile (view (vol st) j) (view (vol st') j)
  cached : ∀ j ci, st.cacheInodes j = some ci → ∃ ci', st'.cacheInodes j = some ci' ∧
    ci'.real = ci.real ∧ ci'.inode.type = ci.inode.type ∧ ci.inode.nlinks ≤ ci'.inode.nlinks
  ninos : st'.ninos = st.ninos

/-- One call after another, with more inodes behind the second. -/
theorem Onward.trans (h : Onward I cur st st') (h' : Onward I' cur st' st'') (hsub : I ⊆ I') :
    Onward I cur st st'' where
  same := fun j hj hne => (h.same j hj hne).trans (h'.same j (hsub hj) hne)
  cached := by
    intro j ci hci
    obtain ⟨ci₁, hci₁, hreal₁, htype₁, hlinks₁⟩ := h.cached j ci hci
    obtain ⟨ci₂, hci₂, hreal₂, htype₂, hlinks₂⟩ := h'.cached j ci₁ hci₁
    exact ⟨ci₂, hci₂, hreal₂.trans hreal₁, htype₂.trans htype₁, hlinks₁.trans hlinks₂⟩
  ninos := h'.ninos.trans h.ninos

/-- What only changes another inode changes none of these. -/
theorem Onward.of_not_mem (h : Onward I' i st st') (hsub : I ⊆ I') (hi : i ∉ I) (cur : Nat) :
    Onward I cur st st' where
  same := fun j hj _ => h.same j (hsub hj) fun hji => hi (hji ▸ hj)
  cached := h.cached
  ninos := h.ninos

/-- The type of an inode stays. -/
theorem Onward.type_eq (h : Onward I cur st st') (hci : st.cacheInodes j = some ci) :
    (view (vol st') j).din.type = (view (vol st) j).din.type := by
  obtain ⟨ci', hci', -, htype, -⟩ := h.cached j ci hci
  rw [view_din hci, view_din hci']
  exact htype

/-- A block appended to a file changes no other file. -/
theorem Appended.onward {blk : Bytes} {size : Nat} (h : Appended I i blk size st st')
    (hwell : Well I st) : Onward I i st st' where
  same := by
    intro j hj hne
    rw [h.kept.view_eq hwell.core.pos hj hne]
    exact SameFile.refl _
  cached := by
    intro j ci hci
    by_cases hj : j = i
    · rw [hj] at hci ⊢
      obtain ⟨ci', hci', hreal, htype, hlinks, -⟩ := h.self ci hci
      exact ⟨ci', hci', hreal, htype, le_of_eq hlinks.symm⟩
    · exact ⟨ci, (h.other j hj).trans hci, rfl, rfl, le_refl _⟩
  ninos := h.ninos

/-! ### A new inode -/

/-- A file depends on its inode in memory and on the blocks. -/
theorem view_of_eq {sfs sfs' : Sfs} (hinode : sfs'.inodes i = sfs.inodes i)
    (hdev : sfs'.dev = sfs.dev) : view sfs' i = view sfs i := by
  unfold view dinOf
  rw [hinode, hdev]

/-- A file without blocks maps nothing. -/
theorem entryAt_empty {din : SfsDiskInode} (hdirect : ∀ k, din.direct k = 0)
    (hind : din.indirect = 0) (dev : Nat → Bytes) (k : Nat) : entryAt din dev k = 0 := by
  by_cases hk : k < 12
  · unfold entryAt
    rw [dif_pos hk]
    exact hdirect _
  · exact entryAt_no_indirect (by omega) hind

section
variable {real type : Nat}

/-- The state behind `alloc_cache_inode`. -/
def withNew (st : MkSfs) (real type : Nat) : MkSfs :=
  (withAlloc st).withInode st.next_ino real type

/-- The new inode is in the cache. -/
theorem cacheInodes_withNew_self :
    (withNew st real type).cacheInodes st.next_ino = some (newInode real type) :=
  Function.update_self ..

/-- The other inodes are in the cache as before. -/
theorem cacheInodes_withNew_of_ne (h : j ≠ st.next_ino) :
    (withNew st real type).cacheInodes j = st.cacheInodes j :=
  Function.update_of_ne h ..

/-- A new inode changes no other file. -/
theorem view_withNew_of_ne (h : j ≠ st.next_ino) :
    view (vol (withNew st real type)) j = view (vol st) j := by
  apply view_of_eq
  · show ((withNew st real type).cacheInodes j).map asInode = (st.cacheInodes j).map asInode
    rw [cacheInodes_withNew_of_ne h]
  · rfl

/-- The new inode maps nothing. -/
theorem view_withNew_self_entry (k : Nat) :
    (view (vol (withNew st real type)) st.next_ino).entry k = 0 := by
  rw [view_eq (vol_inodes cacheInodes_withNew_self)]
  exact entryAt_empty (fun _ => rfl) rfl _ k

/-- The number of the new inode goes to its place. -/
theorem slot_withNew (real type : Nat) (hnot : st.next_ino ∉ I) :
    slot (insert st.next_ino I) (vol (withNew st real type)) =
      Function.update (slot I (vol st)) (.inode st.next_ino) st.next_ino := by
  funext x
  cases x with
  | freemap k => exact (Function.update_of_ne (by simp) ..).symm
  | inode j =>
      by_cases hj : j = st.next_ino
      · rw [hj, Function.update_self]
        exact if_pos (Finset.mem_insert_self ..)
      · rw [Function.update_of_ne (by simpa using hj)]
        show (if j ∈ insert st.next_ino I then j else 0) = if j ∈ I then j else 0
        simp [hj]
  | indirect j =>
      rw [Function.update_of_ne (by simp)]
      show (if j ∈ insert st.next_ino I then _ else 0) = if j ∈ I then _ else 0
      by_cases hj : j = st.next_ino
      · rw [hj, if_pos (Finset.mem_insert_self ..), if_neg hnot, view_din cacheInodes_withNew_self]
        rfl
      · rw [view_withNew_of_ne hj]
        simp [hj]
  | data j k =>
      rw [Function.update_of_ne (by simp)]
      show (if j ∈ insert st.next_ino I then _ else 0) = if j ∈ I then _ else 0
      by_cases hj : j = st.next_ino
      · rw [hj, if_pos (Finset.mem_insert_self ..), if_neg hnot, view_withNew_self_entry]
      · rw [view_withNew_of_ne hj]
        simp [hj]

/-- A hash is an index of the table. -/
theorem hash64_lt (val : Nat) : Tools.hash64 val < 1024 := by
  unfold Tools.hash64 hash32
  omega

/-- The new block is in use, and the others are as before. -/
theorem isFree_withAlloc (st : MkSfs) : (vol (withAlloc st)).freemap.isFree =
    Function.update (vol st).freemap.isFree st.next_ino false := by
  show (bitmapOf _ _).isFree = Function.update (bitmapOf _ _).isFree _ _
  rw [isFree_bitmapOf, isFree_bitmapOf, freeFrom_withAlloc]

/-- A new inode keeps the invariant, and the files that were there stay. -/
theorem Well.withNew (h : Well I st) (real cur : Nat) (hlt : st.next_ino < st.ninos)
    (htype : type = SFS_TYPE_FILE ∨ type = SFS_TYPE_DIR ∨ type = SFS_TYPE_LINK) :
    Well (insert st.next_ino I) (withNew st real type) ∧
      Onward I cur st (withNew st real type) := by
  have hnot := h.next_not_mem hlt
  have htook := h.sizes.took hlt (vol st).dev
  have hslot := slot_withNew real type hnot
  have hzero : slot I (vol st) (.inode st.next_ino) = 0 := if_neg hnot
  have hfree : (vol st).freemap.isFree st.next_ino = true := htook.free
  have hisFree : (vol (Tools.withNew st real type)).freemap.isFree =
      Function.update (vol st).freemap.isFree st.next_ino false := isFree_withAlloc st
  -- The tool gives out numbers in ascending order, so no inode has this one yet.
  have hne : ∀ j cj, st.cacheInodes j = some cj → j ≠ st.next_ino := by
    rintro j cj hcj rfl
    exact hnot (h.mem_of hcj)
  -- The fields of `Well`. The block of the new inode goes from the free map into its slot.
  refine ⟨⟨(h.sizes.alloc hlt).congr rfl rfl rfl, h.small, h.magic, h.info, ⟨?_, ?_, ?_, ?_, ?_⟩,
    ?_, ?_, ?_, ?_, ?_, h.heads, h.entry⟩, ⟨?_, ?_, rfl⟩⟩
  · exact (htook.pool h.core.pool).congr rfl rfl
  · rw [hslot, hisFree]
    exact h.core.owned.take hfree h.sizes.ne_zero
  · intro x hx
    rw [hslot] at hx ⊢
    by_cases hxi : x = .inode st.next_ino
    · rw [hxi, Function.update_self]
      exact htook.lt
    · rw [Function.update_of_ne hxi] at hx ⊢
      exact h.core.lt x hx
  · exact h.core.fits
  · intro j hj
    rcases Finset.mem_insert.mp hj with rfl | hj
    · exact h.sizes.ne_zero
    · exact h.core.pos j hj
  · rw [hslot, hisFree]
    exact h.covered.take hzero
  · intro j
    by_cases hj : j = st.next_ino
    · rw [hj, cacheInodes_withNew_self]
      exact iff_of_true (Finset.mem_insert_self ..) rfl
    · rw [cacheInodes_withNew_of_ne hj, Finset.mem_insert, h.mem j]
      exact or_iff_right hj
  · intro j cj hcj
    by_cases hj : j = st.next_ino
    · rw [hj] at hcj ⊢
      rw [cacheInodes_withNew_self] at hcj
      cases hcj
      -- An inode without blocks, so that nothing is asked of its entries.
      refine ⟨rfl, rfl, ?_, fun k _ => view_withNew_self_entry k, iff_of_true rfl (Nat.zero_le _),
        htype, le_refl _, Nat.succ_pos _, ?_⟩
      · intro k hk
        rw [view_din cacheInodes_withNew_self] at hk
        exact absurd hk (Nat.not_lt_zero k)
      · exact fun _ k hk => absurd hk (Nat.not_lt_zero k)
    · rw [cacheInodes_withNew_of_ne hj] at hcj
      rw [view_withNew_of_ne hj]
      exact (h.inode j cj hcj).mono (Finset.subset_insert ..) (Nat.le_succ _)
  -- A block in the cache belongs to an inode that was there before, since the new one has none.
  · intro c
    show (st.cacheBlocks c).isSome = true ↔ _
    rw [h.block c]
    refine and_congr_right fun hc => ⟨?_, ?_⟩
    · rintro ⟨j, cj, hcj, heq⟩
      exact ⟨j, cj, (cacheInodes_withNew_of_ne (hne j cj hcj)).trans hcj, heq⟩
    · rintro ⟨j, cj, hcj, heq⟩
      by_cases hj : j = st.next_ino
      · rw [hj, cacheInodes_withNew_self] at hcj
        cases hcj
        exact absurd heq.symm hc
      · exact ⟨j, cj, (cacheInodes_withNew_of_ne hj).symm.trans hcj, heq⟩
  -- The hash chain of the host file gets the new inode at its head.
  · intro n j
    show j ∈ Function.update st.inodes (Tools.hash64 real) (st.next_ino :: st.inodes (Tools.hash64 real)) n ↔ _
    have hlist : j ∈ Function.update st.inodes (Tools.hash64 real)
        (st.next_ino :: st.inodes (Tools.hash64 real)) n ↔
        (j = st.next_ino ∧ n = Tools.hash64 real) ∨ j ∈ st.inodes n := by
      by_cases hn : n = Tools.hash64 real
      · rw [hn, Function.update_self, List.mem_cons]
        simp
      · rw [Function.update_of_ne hn]
        simp [hn]
    rw [hlist, h.listed n j]
    by_cases hj : j = st.next_ino
    · rw [hj, cacheInodes_withNew_self]
      have hnone : st.cacheInodes st.next_ino = none := by
        by_contra hsome
        exact hnot ((h.mem _).mpr (Option.isSome_iff_ne_none.mpr hsome))
      rw [hnone]
      simp [newInode, eq_comm]
    · rw [cacheInodes_withNew_of_ne hj]
      simp [hj]
  · intro j hj _
    rw [view_withNew_of_ne fun hji => hnot (hji ▸ hj)]
    exact SameFile.refl _
  · intro j cj hcj
    exact ⟨cj, (cacheInodes_withNew_of_ne (hne j cj hcj)).trans hcj, rfl, rfl, le_refl _⟩

/-- `alloc_cache_inode` of a new inode takes the next block, if there is one. -/
theorem ends_alloc_cache_inode {Q : Nat → MkSfs → Prop} :
    (alloc_cache_inode real 0 type).Ends st Q E H ↔
      if st.next_ino < st.ninos then Q st.next_ino (withNew st real type)
      else E .outOfSpace st := by
  unfold alloc_cache_inode
  rw [Routine.ends_bind, ends_given_or_alloc]
  exact Iff.rfl

/-- The search finds an inode of that number of the host, if there is one. -/
theorem Well.search (h : Well I st) {Q : Option Nat → MkSfs → Prop}
    (hfound : ∀ i ci, st.cacheInodes i = some ci → ci.real = real → Q (some i) st)
    (hnone : (∀ i ci, st.cacheInodes i = some ci → ci.real ≠ real) → Q none st) :
    (search_cache_inode real).Ends st Q E H := by
  unfold search_cache_inode
  rw [Routine.ends_read]
  cases hfind : (st.inodes (Tools.hash64 real)).find? fun ci =>
      (st.cacheInodes ci).any fun inode => inode.real = real with
  | none =>
      apply hnone
      intro i ci hci hreal
      have hmem : i ∈ st.inodes (Tools.hash64 real) := (h.listed _ i).mpr ⟨ci, hci, by rw [hreal]⟩
      have hno := List.find?_eq_none.mp hfind i hmem
      rw [hci] at hno
      simp [hreal] at hno
  | some i =>
      have hyes := List.find?_some hfind
      cases hci : st.cacheInodes i with
      | none =>
          rw [hci] at hyes
          simp at hyes
      | some ci =>
          rw [hci] at hyes
          exact hfound i ci hci (by simpa using hyes)

end

/-! ### One more link -/

/-- The inode with one more link. -/
def linked (ci : CacheInode) : CacheInode :=
  { ci with inode := { ci.inode with nlinks := (ci.inode.nlinks + 1) % 2 ^ 16 } }

/-- The volume with another inode of the same block map. -/
theorem vol_withCi_din (st : MkSfs) (i : Nat) (ci ci' : CacheInode) :
    vol (withCi st i ci') =
      withDin (vol st) i (asInode ci) (MkInode.din ci'.inode) true :=
  vol_withCi st i ci'

/-- A link more keeps the invariant. -/
theorem Well.link (h : Well I st) (hci : st.cacheInodes i = some ci)
    (hlinks : ci.inode.nlinks + 1 < st.next_ino) :
    Well I (withCi st i (linked ci)) ∧
      view (vol (withCi st i (linked ci))) i =
        { view (vol st) i with
          din := { MkInode.din ci.inode with nlinks := ci.inode.nlinks + 1 }, dirty := true } ∧
      ∀ j ∈ I, j ≠ i → view (vol (withCi st i (linked ci))) j = view (vol st) j := by
  have hwell := h.inode i ci hci
  have hsin := vol_inodes hci
  -- `nlinks` has 16 bits. It is below the number of inodes, which is below the number of blocks.
  have hmod : (linked ci).inode.nlinks = ci.inode.nlinks + 1 := by
    have hsmall := h.small
    have hlast := h.sizes.last
    exact Nat.mod_eq_of_lt (by omega)
  have hdin : MkInode.din (linked ci).inode =
      { MkInode.din ci.inode with nlinks := ci.inode.nlinks + 1 } := by
    rw [← hmod]
    rfl
  have hvol := vol_withCi_din st i ci (linked ci)
  have hview : view (vol (withCi st i (linked ci))) i =
      { view (vol st) i with
        din := { MkInode.din ci.inode with nlinks := ci.inode.nlinks + 1 }, dirty := true } := by
    rw [hvol, view_withDin (MkInode.din (linked ci).inode) true hsin rfl rfl, hdin]
    rfl
  have hother : ∀ j, j ≠ i → (withCi st i (linked ci)).cacheInodes j = st.cacheInodes j :=
    fun j hj => Function.update_of_ne hj ..
  have hself : (withCi st i (linked ci)).cacheInodes i = some (linked ci) :=
    Function.update_self ..
  have hviews : ∀ j, j ≠ i → view (vol (withCi st i (linked ci))) j = view (vol st) j := by
    intro j hj
    apply view_of_eq
    · show ((withCi st i (linked ci)).cacheInodes j).map asInode = (st.cacheInodes j).map asInode
      rw [hother j hj]
    · rfl
  have hslot : slot I (vol (withCi st i (linked ci))) = slot I (vol st) := by
    rw [hvol]
    exact slot_withDin h.core hsin rfl rfl
  -- Only the count of links differs, so each field comes from the one before for `i`, and is the
  -- same for the others.
  refine ⟨⟨h.sizes.congr rfl rfl rfl, h.small, h.magic, h.info, ?_, ?_, ?_, ?_, ?_, ?_, h.heads,
    h.entry⟩, hview, fun j _ hj => hviews j hj⟩
  · rw [hvol]
    exact h.core.withDin hsin rfl rfl
  · rw [hslot]
    exact h.covered
  · intro j
    by_cases hj : j = i
    · rw [hj, hself]
      exact iff_of_true (h.mem_of hci) rfl
    · rw [hother j hj]
      exact h.mem j
  · intro j cj hcj
    by_cases hj : j = i
    · rw [hj] at hcj ⊢
      rw [hself] at hcj
      cases hcj
      rw [hview]
      refine { hwell with mapped := ?_, nlinks := ?_ }
      · intro k hk
        apply hwell.mapped k
        rw [view_din hci]
        exact hk
      · exact lt_of_eq_of_lt hmod hlinks
    · rw [hother j hj] at hcj
      rw [hviews j hj]
      exact h.inode j cj hcj
  · intro c
    refine (h.block c).trans (and_congr_right fun _ => ?_)
    constructor
    · rintro ⟨j, cj, hcj, heq⟩
      by_cases hj : j = i
      · rw [hj, hci] at hcj
        cases hcj
        exact ⟨i, linked ci, hself, heq⟩
      · exact ⟨j, cj, (hother j hj).trans hcj, heq⟩
    · rintro ⟨j, cj, hcj, heq⟩
      by_cases hj : j = i
      · rw [hj, hself] at hcj
        cases hcj
        exact ⟨i, ci, hci, heq⟩
      · exact ⟨j, cj, (hother j hj).symm.trans hcj, heq⟩
  · intro n j
    refine (h.listed n j).trans ?_
    by_cases hj : j = i
    · rw [hj, hself, hci]
      simp [linked]
    · rw [hother j hj]

/-! ### The bytes behind an append -/

/-- The first bytes of a block are the data that were put there. -/
theorem bufferBlock_slice (data : List UInt8) :
    Bytes.slice (bufferBlock data) 0 data.length = data := by
  apply List.ext_getElem
  · exact Bytes.length_slice ..
  · intro o ho ho'
    rw [← List.getD_eq_getElem _ 0 ho, Bytes.slice_getD ho', Nat.zero_add]
    exact List.getD_eq_getElem _ 0 ho'

/-- A block of a file whose blocks are full. -/
theorem Appended.viewBytes {data : List UInt8}
    (h : Appended I i (bufferBlock data) data.length st st') (hci : st.cacheInodes i = some ci)
    (hlen : data.length ≤ 4096) (hfull : ci.inode.size = 4096 * ci.inode.blocks) :
    viewBytes (view (vol st') i) = viewBytes (view (vol st) i) ++ data := by
  obtain ⟨ci', hci', -, -, -, hsize, -, hcontent⟩ := h.self ci hci
  have hold : (view (vol st) i).din.size = 4096 * ci.inode.blocks := by
    rw [view_din hci, ← hfull]
    rfl
  have hnew : (view (vol st') i).din.size = 4096 * ci.inode.blocks + data.length := by
    rw [view_din hci', ← hfull]
    exact hsize
  unfold Tools.viewBytes
  rw [hnew, hold, Bytes.slice_append, Nat.zero_add]
  congr 1
  · apply Bytes.slice_congr
    intro pos _ hpos
    rw [hcontent]
    dsimp only
    rw [if_neg (by omega)]
  · refine Eq.trans ?_ (bufferBlock_slice data)
    unfold Bytes.slice
    apply List.map_congr_left
    intro o ho
    rw [List.mem_range] at ho
    rw [hcontent]
    dsimp only
    rw [if_pos (by omega), Nat.mul_add_mod, Nat.mod_eq_of_lt (by omega), Nat.zero_add]

/-- A block that is not empty leaves a file tidy whose blocks are full. -/
theorem Appended.tidy {data : List UInt8}
    (h : Appended I i (bufferBlock data) data.length st st') (hci : st.cacheInodes i = some ci)
    (hlen : data.length ≤ 4096) (hpos : 0 < data.length)
    (hfull : ci.inode.size = 4096 * ci.inode.blocks) (ht : Tidy (view (vol st) i)) :
    Tidy (view (vol st') i) := by
  obtain ⟨ci', hci', -, -, -, hsize, hblocks, hcontent⟩ := h.self ci hci
  have hold := ht.zero
  rw [view_din hci] at hold
  rw [hfull] at hsize
  refine ⟨?_, fun pos hp => ?_⟩
  · rw [view_din hci']
    show ci'.inode.blocks = (ci'.inode.size + 4095) / 4096
    omega
  · rw [view_din hci'] at hp
    replace hp : ci'.inode.size ≤ pos := hp
    rw [hcontent]
    dsimp only
    split_ifs with hlast
    · -- behind the data the block is zero
      exact List.getD_eq_default _ _ (by omega)
    · refine hold pos ?_
      show ci.inode.size ≤ pos
      omega

/-- A block of a directory. -/
theorem Appended.dirEntries {data : List UInt8} {size : Nat}
    (h : Appended I i (bufferBlock data) size st st') (hci : st.cacheInodes i = some ci) :
    dirEntries (view (vol st') i) =
      dirEntries (view (vol st) i) ++
        [SfsDiskEntry.decode (Bytes.slice (bufferBlock data) 0 260)] := by
  obtain ⟨ci', hci', -, -, -, -, hblocks, hcontent⟩ := h.self ci hci
  have hold : (view (vol st) i).din.blocks = ci.inode.blocks := by
    rw [view_din hci]
    rfl
  have hnew : (view (vol st') i).din.blocks = ci.inode.blocks + 1 := by
    rw [view_din hci']
    exact hblocks
  unfold Tools.dirEntries
  rw [hnew, hold, List.range_succ, List.map_append, List.map_singleton]
  congr 1
  · apply List.map_congr_left
    intro k hk
    rw [List.mem_range] at hk
    congr 1
    apply Bytes.slice_congr
    intro pos _ hpos
    rw [hcontent]
    dsimp only
    rw [if_neg (by omega)]
  · congr 2
    unfold Bytes.slice
    apply List.map_congr_left
    intro o ho
    rw [List.mem_range] at ho
    rw [hcontent]
    dsimp only
    rw [if_pos (by omega), Nat.mul_add_mod, Nat.mod_eq_of_lt (by omega), Nat.zero_add]

/-! ### The bytes of an entry -/

/-- A name fits the field for it. -/
theorem length_entryCopy {name entry : List UInt8} (hname : name.length ≤ 255)
    (hentry : entry.length = 256) : (entryCopy name entry).length = 256 := by
  unfold entryCopy
  rw [List.length_append, List.length_cons, List.length_drop]
  omega

/-- The bytes that `add_entry` writes. -/
def entryBytes (file : Nat) (name entry : List UInt8) : List UInt8 :=
  (toLe 4 file ++ entryCopy name entry).take 256

/-- An entry has its length whatever the name. -/
theorem length_entryBytes (file : Nat) {name entry : List UInt8} (hname : name.length ≤ 255)
    (hentry : entry.length = 256) : (entryBytes file name entry).length = 256 := by
  unfold entryBytes
  rw [List.length_take, List.length_append, length_toLe, length_entryCopy hname hentry]
  rfl

/-- The first bytes of a block are those that were written, and zeros. -/
theorem bufferBlock_slice_ge (data : List UInt8) {n : Nat} (h : data.length ≤ n) :
    Bytes.slice (bufferBlock data) 0 n = data ++ List.replicate (n - data.length) 0 := by
  have hsplit : n = data.length + (n - data.length) := by omega
  rw [hsplit, Bytes.slice_append, bufferBlock_slice, Nat.add_sub_cancel_left]
  congr 1
  rw [List.eq_replicate_iff]
  refine ⟨Bytes.length_slice .., fun c hc => ?_⟩
  obtain ⟨o, -, rfl⟩ := List.mem_map.mp hc
  exact List.getD_eq_default _ _ (by omega)

/-- A name and the zero behind it, cut behind the zero. -/
theorem take_name {name : List UInt8} (rest : List UInt8) {n : Nat} (h : name.length < n) :
    (name ++ 0 :: rest).take n = name ++ 0 :: rest.take (n - (name.length + 1)) := by
  rw [List.take_append, List.take_of_length_le (le_of_lt h),
    show n - name.length = n - (name.length + 1) + 1 by omega, List.take_succ_cons]

/-- The kernel reads an entry as it was meant, up to the 252 bytes of the name. -/
theorem decode_entryBytes {file : Nat} {name entry : List UInt8} (hfile : file < 2 ^ 32)
    (hname : name.length ≤ 255) (hzero : 0 ∉ name) (hentry : entry.length = 256) :
    SfsDiskEntry.decode (Bytes.slice (bufferBlock (entryBytes file name entry)) 0 260) =
      ⟨file, name.take 252⟩ := by
  have hlen := length_entryBytes file hname hentry
  have hcopy := length_entryCopy hname hentry
  have hword : (toLe 4 file).length = 4 := length_toLe 4 file
  have hbytes : entryBytes file name entry = toLe 4 file ++ (entryCopy name entry).take 252 := by
    unfold entryBytes
    rw [List.take_append, hword, List.take_of_length_le (by omega)]
  rw [bufferBlock_slice_ge _ (by omega), hlen, hbytes, List.append_assoc]
  unfold SfsDiskEntry.decode
  rw [List.take_left' hword, List.drop_left' hword, ofLe_toLe (by exact hfile)]
  congr 1
  -- behind the name stands a zero, whether it was cut or not
  have hend : ∃ rest, ((entryCopy name entry).take 252 ++ List.replicate (260 - 256) 0).take 255 =
      name.take 252 ++ 0 :: rest := by
    unfold entryCopy
    by_cases hlong : 252 ≤ name.length
    · refine ⟨List.replicate 2 0, ?_⟩
      rw [List.take_append_of_le_length hlong, List.take_append,
        List.take_of_length_le (by rw [List.length_take]; omega), List.length_take,
        min_eq_left hlong]
      rfl
    · refine ⟨(List.take (252 - (name.length + 1)) (entry.drop (name.length + 1)) ++
        List.replicate 4 0).take (255 - (name.length + 1)), ?_⟩
      rw [take_name _ (by omega), List.append_assoc, List.cons_append, take_name _ (by omega),
        List.take_of_length_le (l := name) (by omega)]
  obtain ⟨rest, hrest⟩ := hend
  rw [hrest, List.takeWhile_append_of_pos]
  · simp
  · intro c hc
    have hmem : c ∈ name := List.mem_of_mem_take hc
    simp only [decide_eq_true_eq]
    rintro rfl
    exact hzero hmem

/-! ### `add_entry` -/

/-- The directory has got an entry, which names the file. -/
structure Entered (I : Finset Nat) (cur file : Nat) (name : List UInt8) (st st' : MkSfs) : Prop
    where
  well : Well I st'
  onward : Onward I cur st st'
  entries : dirEntries (view (vol st') cur) =
    dirEntries (view (vol st) cur) ++ [⟨file, name.take 252⟩]
  linked : ∀ ci, st'.cacheInodes file = some ci → ci.inode.nlinks ≠ 0

/-- A directory has one entry in each block. -/
theorem length_dirEntries (v : FileView) : (dirEntries v).length = v.din.blocks := by
  unfold Tools.dirEntries
  simp

/-- `add_entry` appends the entry to the directory and changes no other file, or there is no block
left. -/
theorem Well.add_entry (h : Well I st) {file : Nat} {dir : CacheInode} {name : List UInt8}
    (hcur : st.cacheInodes cur = some dir) (hdir : dir.inode.type = SFS_TYPE_DIR)
    (hblocks : dir.inode.blocks < 1036) (hfile : file ∈ I) (hname : name.length ≤ 255)
    (hzero : 0 ∉ name) :
    (add_entry cur file name).Ends st (fun _ st' => Entered I cur file name st st')
      (fun e _ => e = .outOfSpace) fun _ => False := by
  have hfits : file < 2 ^ 32 := by
    have hlt := h.core.lt (.inode file)
    rw [slot_inode hfile] at hlt
    have hslot := hlt (h.core.pos file hfile)
    exact lt_trans (lt_trans hslot h.core.fits) (by decide)
  -- the state with the name in the static buffer
  let st₁ : MkSfs := { st with entry := entryCopy name st.entry }
  have h₁ : Well I st₁ :=
    ⟨h.sizes.congr rfl rfl rfl, h.small, h.magic, h.info, h.core, h.covered, h.mem, h.inode,
      h.block, h.listed, h.heads, length_entryCopy hname h.entry⟩
  have hload : (bufferBlock (entryBytes file name st.entry)).load 0 4 ∈ I := by
    have hino := congrArg SfsDiskEntry.ino (decode_entryBytes hfits hname hzero h.entry)
    have hword : (bufferBlock (entryBytes file name st.entry)).load 0 4 = file := by
      refine Eq.trans ?_ hino
      show ofLe _ = ofLe ((Bytes.slice (bufferBlock _) 0 260).take 4)
      rw [Bytes.slice_take]
      rfl
    rw [hword]
    exact hfile
  unfold Ucore.Tools.add_entry
  rw [Routine.ends_bind, ends_cacheInode hcur, Routine.ends_bind, Routine.ends_assert,
    if_pos ⟨hdir, hname⟩, Routine.ends_bind, Routine.ends_modify, Routine.ends_bind,
    Routine.ends_read, Routine.ends_bind]
  simp only [Routine.ends_bind]
  refine h₁.append hcur hblocks (?_ : (entryBytes file name st.entry).length ≤ 4096) (by decide)
    (fun _ => hload) ?_ fun _ => rfl
  · rw [length_entryBytes file hname h.entry]
    decide
  · intro st₂ h₂
    have hon := h₂.onward h₁
    obtain ⟨ci, hci⟩ := h₁.exists_ci hfile
    obtain ⟨ci₂, hci₂, -⟩ := hon.cached file ci hci
    have hlinks : ci₂.inode.nlinks + 1 < st₂.next_ino := by
      have hold := (h₁.inode file ci hci).nlinks
      have hsame : ci₂.inode.nlinks = ci.inode.nlinks := by
        by_cases hfc : file = cur
        · rw [hfc] at hci hci₂
          obtain ⟨ci', hci', -, -, hkeep, -⟩ := h₂.self ci hci
          rw [hci₂] at hci'
          cases hci'
          exact hkeep
        · rw [h₂.other file hfc, hci] at hci₂
          cases hci₂
          rfl
      have hnext : st₁.next_ino < st₂.next_ino := h₂.next
      omega
    obtain ⟨hwell, hview, hviews⟩ := h₂.well.link hci₂ hlinks
    have hsame : ∀ j ∈ I, SameFile (view (vol st₂) j)
        (view (vol (withCi st₂ file (Tools.linked ci₂))) j) := by
      intro j hj
      by_cases hjf : j = file
      · rw [hjf, hview]
        have hdin := view_din hci₂
        refine ⟨?_, ?_, ?_, rfl, ?_⟩
        · rw [hdin]
        · rw [hdin]
        · rw [hdin]
        · rw [hdin]
          exact Nat.le_succ _
      · rw [hviews j hj hjf]
        exact SameFile.refl _
    rw [ends_setCacheInode _ hci₂]
    show Entered I cur file name st (withCi st₂ file (Tools.linked ci₂))
    refine ⟨hwell, ⟨fun j hj hne => (hon.same j hj hne).trans (hsame j hj), ?_, hon.ninos⟩, ?_, ?_⟩
    · intro j cj hcj
      obtain ⟨cj₂, hcj₂, hreal, htype, hle⟩ := hon.cached j cj hcj
      by_cases hjf : j = file
      · rw [hjf] at hcj₂ ⊢
        rw [hci₂] at hcj₂
        cases hcj₂
        refine ⟨Tools.linked ci₂, Function.update_self .., hreal, htype, hle.trans ?_⟩
        have hdin := congrArg FileView.din hview
        rw [view_din (Function.update_self ..)] at hdin
        exact (Nat.le_succ _).trans (le_of_eq (congrArg SfsDiskInode.nlinks hdin).symm)
      · exact ⟨cj₂, (Function.update_of_ne hjf ..).trans hcj₂, hreal, htype, hle⟩
    · rw [(hsame cur (h₁.mem_of hcur)).dirEntries, h₂.dirEntries hcur,
        decode_entryBytes hfits hname hzero h.entry]
      rfl
    · intro cj hcj
      have hdin := congrArg FileView.din hview
      rw [view_din hcj] at hdin
      have hnlinks := congrArg SfsDiskInode.nlinks hdin
      exact fun hno => Nat.succ_ne_zero ci₂.inode.nlinks (hnlinks.symm.trans hno)

end Ucore.Proofs.Tools
