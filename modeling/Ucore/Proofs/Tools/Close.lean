import Mathlib
import Ucore.Proofs.Fs.Codec
import Ucore.Proofs.Fs.Mount
import Ucore.Proofs.Tools.Tree

/-!
# `Ucore.Proofs.Tools.Close`: the image that is left behind

`close_sfs` writes the free map, the superblock and what it has in memory, each to its own block.
The image then is a volume with nothing in memory (`closed`) and the same files
(`Ready.closed_view`), which is as it is on the disk (`Ready.closed_saved`).

## The writes

`Wrote` says that the blocks in a set have been written, each with its own bytes. Two rows of writes
make one (`Wrote.trans`), and since the bytes of a block do not depend on what has been written
(`Wrote.closedBlock`), the order does not matter. The loops over the hash lists write each inode and
each indirect block once, because the lists have all that is in memory (`Hashed`).

## What is read back

A block has at most one of the structures on it, which is what `Core` says of the places. So each of
them is read back as it was written: the free map bit by bit (`getLsbD_close_map`), an inode
(`decode_mkInode`), an indirect block and the data. `Well.closed_view` puts these together.
-/

set_option autoImplicit false

namespace Ucore.Proofs.Tools

open Ucore.Lib Ucore.Fs Ucore.Tools Ucore.Proofs.Fs

variable {st st' st'' : MkSfs} {I : Finset Nat} {i k n b : Nat} {ci : CacheInode}
  {E : MkBug → MkSfs → Prop} {H : MkAssert → Prop} {p q : Nat → Prop} {f : Nat → Bytes}
  {host : Nat → HostFile} {isDir : Nat → Prop}

/-! ### Writes to the image -/

/-- The blocks `p` of the image have been written, each with its own bytes. -/
structure Wrote (p : Nat → Prop) (f : Nat → Bytes) (st st' : MkSfs) : Prop where
  same : st' = { st with img := st'.img }
  on : ∀ c, p c → st'.img c = f c
  off : ∀ c, ¬ p c → st'.img c = st.img c

/-- Nothing has been written. -/
theorem Wrote.refl (f : Nat → Bytes) (st : MkSfs) : Wrote (fun _ => False) f st st :=
  ⟨rfl, fun _ h => h.elim, fun _ _ => rfl⟩

/-- Writes of some blocks and then of others. -/
theorem Wrote.trans (h : Wrote p f st st') (h' : Wrote q f st' st'') :
    Wrote (fun c => p c ∨ q c) f st st'' where
  same := by
    rw [h'.same, h.same]
  on := by
    intro c hc
    by_cases hq : q c
    · exact h'.on c hq
    · rw [h'.off c hq]
      exact h.on c (hc.resolve_right hq)
  off := by
    intro c hc
    rw [h'.off c fun hq => hc (Or.inr hq)]
    exact h.off c fun hp => hc (Or.inl hp)

/-- Which blocks have been written, in other words. -/
theorem Wrote.congr (h : Wrote p f st st') (hpq : ∀ c, p c ↔ q c) : Wrote q f st st' where
  same := h.same
  on := fun c hc => h.on c ((hpq c).mpr hc)
  off := fun c hc => h.off c fun hp => hc ((hpq c).mp hp)

/-- One block is written. -/
theorem wrote_withImg {blk : Bytes} (hblk : blk = f b) :
    Wrote (fun c => c = b) f st (withImg st b blk) where
  same := rfl
  on := by
    rintro c rfl
    rw [← hblk]
    exact Function.update_self ..
  off := fun c hc => Function.update_of_ne hc ..

/-- A write to the image leaves the number of its blocks. -/
theorem Wrote.ninos (h : Wrote p f st st') : st'.ninos = st.ninos := by
  rw [h.same]

/-- A write to the image leaves the hash lists of the blocks. -/
theorem Wrote.blocks (h : Wrote p f st st') : st'.blocks = st.blocks := by
  rw [h.same]

/-- A write to the image leaves the hash lists of the inodes. -/
theorem Wrote.inodes (h : Wrote p f st st') : st'.inodes = st.inodes := by
  rw [h.same]

/-- A write to the image leaves the blocks in memory. -/
theorem Wrote.cacheBlocks (h : Wrote p f st st') : st'.cacheBlocks = st.cacheBlocks := by
  rw [h.same]

/-- A write to the image leaves the inodes in memory. -/
theorem Wrote.cacheInodes (h : Wrote p f st st') : st'.cacheInodes = st.cacheInodes := by
  rw [h.same]

/-- The words of an indirect block fill a block. -/
theorem length_wordBytes (data : Nat → BitVec 32) : (wordBytes data).length = 4096 :=
  Bytes.length_slice ..

/-- The bytes of an inode. -/
theorem length_mkInode (inode : MkInode) : inode.encode.length = 68 := by
  unfold MkInode.encode
  simp only [List.length_append, length_toLe, List.length_flatten, List.map_ofFn]
  have hconst : (List.length ∘ fun k => toLe 4 (inode.direct k)) = fun _ : Fin 12 => 4 := by
    funext k
    exact length_toLe _ _
  rw [hconst]
  rfl

/-! ### What is written where -/

/-- A block of the image behind `close_sfs`, when it is written. -/
def closedBlock (st : MkSfs) (c : Nat) : Bytes :=
  if c = 0 then bufferBlock st.super.encode
  else if c < 2 + (st.ninos + 32767) / 32768 ∧ 2 ≤ c then
    bufferBlock (wordBytes (close_map st.ninos st.next_ino (32768 * (c - 2))))
  else if h : (st.cacheBlocks c).isSome then bufferBlock (((st.cacheBlocks c).get h).slice 0 4096)
  else if h : (st.cacheInodes c).isSome then
    bufferBlock ((st.cacheInodes c).get h).inode.encode
  else fun _ => 0

/-- What is to be written to a block does not depend on what has been written. -/
theorem Wrote.closedBlock (h : Wrote p f st st') : closedBlock st' = closedBlock st := by
  rw [h.same]
  rfl

/-- The blocks of the free map. -/
theorem wrote_freemap (n i ino : Nat) (hi : i = 32768 * (ino - 2)) (hino : 2 ≤ ino)
    (hn : ino + n = 2 + (st.ninos + 32767) / 32768) (hlt : ino + n ≤ st.ninos) :
    (close_freemap n i ino).Ends st
      (fun _ st' => Wrote (fun c => ino ≤ c ∧ c < ino + n) (closedBlock st) st st') E H := by
  induction n generalizing st i ino with
  | zero =>
      refine (Wrote.refl _ st).congr fun c => iff_of_false not_false ?_
      omega
  | succ n ih =>
      unfold close_freemap
      rw [Routine.ends_bind, Routine.ends_read, id_eq, Routine.ends_bind,
        ends_write_block (le_of_eq (length_wordBytes _)) (by omega)]
      have hfirst : Wrote (fun c => c = ino) (closedBlock st) st (withImg st ino (bufferBlock
          (wordBytes (close_map st.ninos st.next_ino i)))) := by
        apply wrote_withImg
        unfold closedBlock
        rw [if_neg (by omega), if_pos ⟨by omega, hino⟩, hi]
      apply (@ih (withImg st ino (bufferBlock (wordBytes (close_map st.ninos st.next_ino i))))
        (i + 32768) (ino + 1) (by omega) (by omega) (by
          show ino + 1 + n = 2 + (st.ninos + 32767) / 32768
          omega) (by
          show ino + 1 + n ≤ st.ninos
          omega)).mono
      · intro _ st' hrest
        rw [hfirst.closedBlock] at hrest
        exact (hfirst.trans hrest).congr fun c => by omega
      · exact fun _ _ h => h
      · exact fun _ h => h

/-- What is in memory stands above the free map. -/
structure Above (st : MkSfs) : Prop where
  block : ∀ b, (st.cacheBlocks b).isSome = true →
    (b = 1 ∨ 2 + (st.ninos + 32767) / 32768 ≤ b) ∧ b < st.ninos
  inode : ∀ i, (st.cacheInodes i).isSome = true →
    (i = 1 ∨ 2 + (st.ninos + 32767) / 32768 ≤ i) ∧ i < st.ninos ∧ st.cacheBlocks i = none

/-- What is in memory still stands above the free map. -/
theorem Wrote.above (h : Wrote p f st st') (ha : Above st) : Above st' where
  block := by
    rw [h.cacheBlocks, h.ninos]
    exact ha.block
  inode := by
    rw [h.cacheBlocks, h.cacheInodes, h.ninos]
    exact ha.inode

/-- Each block of a list is written to its place. -/
theorem wrote_blocks (l : List Nat) (ha : Above st)
    (hl : ∀ b ∈ l, (st.cacheBlocks b).isSome = true) :
    (flush_cache_blocks l).Ends st (fun _ st' => Wrote (fun c => c ∈ l) (closedBlock st) st st')
      E H := by
  induction l generalizing st with
  | nil => exact (Wrote.refl _ st).congr fun c => by simp
  | cons b l ih =>
      have hsome := hl b (List.mem_cons_self ..)
      obtain ⟨cache, hcache⟩ := Option.isSome_iff_exists.mp hsome
      obtain ⟨hhigh, hlt⟩ := ha.block b hsome
      unfold flush_cache_blocks
      rw [Routine.ends_bind, ends_cacheBlock hcache, Routine.ends_bind,
        ends_write_block (le_of_eq (Bytes.length_slice ..)) hlt]
      have hfirst : Wrote (fun c => c = b) (closedBlock st) st
          (withImg st b (bufferBlock (cache.slice 0 4096))) := by
        apply wrote_withImg
        unfold closedBlock
        rw [if_neg (by omega), if_neg (by omega), dif_pos hsome]
        simp only [hcache, Option.get_some]
      apply (ih (hfirst.above ha) fun c hc => hl c (List.mem_cons_of_mem _ hc)).mono
      · intro _ st' hrest
        rw [hfirst.closedBlock] at hrest
        exact (hfirst.trans hrest).congr fun c => List.mem_cons.symm
      · exact fun _ _ h => h
      · exact fun _ h => h

/-- Each inode of a list is written to its place. -/
theorem wrote_inodes (l : List Nat) (ha : Above st)
    (hl : ∀ i ∈ l, (st.cacheInodes i).isSome = true) :
    (flush_cache_inodes l).Ends st (fun _ st' => Wrote (fun c => c ∈ l) (closedBlock st) st st')
      E H := by
  induction l generalizing st with
  | nil => exact (Wrote.refl _ st).congr fun c => by simp
  | cons i l ih =>
      have hsome := hl i (List.mem_cons_self ..)
      obtain ⟨ci, hci⟩ := Option.isSome_iff_exists.mp hsome
      obtain ⟨hhigh, hlt, hnone⟩ := ha.inode i hsome
      unfold flush_cache_inodes
      rw [Routine.ends_bind, ends_cacheInode hci, Routine.ends_bind,
        ends_write_block (by rw [length_mkInode]; decide) hlt]
      have hfirst : Wrote (fun c => c = i) (closedBlock st) st
          (withImg st i (bufferBlock ci.inode.encode)) := by
        apply wrote_withImg
        unfold closedBlock
        rw [if_neg (by omega), if_neg (by omega), dif_neg (by rw [hnone]; decide), dif_pos hsome]
        simp only [hci, Option.get_some]
      apply (ih (hfirst.above ha) fun c hc => hl c (List.mem_cons_of_mem _ hc)).mono
      · intro _ st' hrest
        rw [hfirst.closedBlock] at hrest
        exact (hfirst.trans hrest).congr fun c => List.mem_cons.symm
      · exact fun _ _ h => h
      · exact fun _ h => h

/-- The hash lists hold what is in memory. -/
structure Hashed (st : MkSfs) : Prop where
  block : ∀ h b, b ∈ st.blocks h → (st.cacheBlocks b).isSome = true
  inode : ∀ h i, i ∈ st.inodes h → (st.cacheInodes i).isSome = true
  blockIn : ∀ b, (st.cacheBlocks b).isSome = true → ∃ h, h < 1024 ∧ b ∈ st.blocks h
  inodeIn : ∀ i, (st.cacheInodes i).isSome = true → ∃ h, h < 1024 ∧ i ∈ st.inodes h

/-- The hash lists still hold what is in memory. -/
theorem Wrote.hashed (h : Wrote p f st st') (hh : Hashed st) : Hashed st' where
  block := by
    rw [h.blocks, h.cacheBlocks]
    exact hh.block
  inode := by
    rw [h.inodes, h.cacheInodes]
    exact hh.inode
  blockIn := by
    rw [h.blocks, h.cacheBlocks]
    exact hh.blockIn
  inodeIn := by
    rw [h.inodes, h.cacheInodes]
    exact hh.inodeIn

/-- The blocks in the hash lists from `i` to `n`. -/
def inLists (st : MkSfs) (i n c : Nat) : Prop :=
  ∃ h, i ≤ h ∧ h < n ∧ (c ∈ st.blocks h ∨ c ∈ st.inodes h)

/-- The blocks and inodes of some hash lists are written, one list after another. -/
theorem wrote_lists (n i : Nat) (ha : Above st) (hh : Hashed st) :
    (close_lists n i).Ends st (fun _ st' => Wrote (inLists st i (i + n)) (closedBlock st) st st')
      E H := by
  induction n generalizing st i with
  | zero =>
      refine (Wrote.refl _ st).congr fun c => iff_of_false not_false ?_
      rintro ⟨h, hlow, hhigh, -⟩
      omega
  | succ n ih =>
      unfold close_lists
      rw [Routine.ends_bind, Routine.ends_read, id_eq]
      apply (wrote_blocks _ ha (hh.block i)).seq
      · intro _ st₁ h₁
        apply (wrote_inodes _ (h₁.above ha) (by rw [h₁.cacheInodes]; exact hh.inode i)).seq
        · intro _ st₂ h₂
          rw [h₁.closedBlock] at h₂
          have h₁₂ := h₁.trans h₂
          apply (ih (i + 1) (h₁₂.above ha) (h₁₂.hashed hh)).mono
          · intro _ st' hrest
            rw [h₁₂.closedBlock] at hrest
            refine (h₁₂.trans hrest).congr fun c => ?_
            unfold inLists
            rw [h₁₂.blocks, h₁₂.inodes]
            constructor
            · rintro (hmem | ⟨h, hlow, hhigh, hmem⟩)
              · exact ⟨i, le_refl _, by omega, hmem⟩
              · exact ⟨h, by omega, by omega, hmem⟩
            · rintro ⟨h, hlow, hhigh, hmem⟩
              by_cases hi : h = i
              · exact Or.inl (hi ▸ hmem)
              · exact Or.inr ⟨h, by omega, by omega, hmem⟩
          · exact fun _ _ h => h
          · exact fun _ h => h
        · exact fun _ _ h => h
        · exact fun _ h => h
      · exact fun _ _ h => h
      · exact fun _ h => h

/-- All that is in memory is in the hash lists. -/
theorem Hashed.inLists (hh : Hashed st) (c : Nat) : inLists st 0 (0 + 1024) c ↔
    (st.cacheBlocks c).isSome = true ∨ (st.cacheInodes c).isSome = true := by
  constructor
  · rintro ⟨h, -, -, hmem | hmem⟩
    · exact Or.inl (hh.block h c hmem)
    · exact Or.inr (hh.inode h c hmem)
  · rintro (hsome | hsome)
    · obtain ⟨h, hlt, hmem⟩ := hh.blockIn c hsome
      exact ⟨h, Nat.zero_le _, (Nat.zero_add _).symm ▸ hlt, Or.inl hmem⟩
    · obtain ⟨h, hlt, hmem⟩ := hh.inodeIn c hsome
      exact ⟨h, Nat.zero_le _, (Nat.zero_add _).symm ▸ hlt, Or.inr hmem⟩

/-- The blocks that `close_sfs` writes. -/
def Closes (st : MkSfs) (c : Nat) : Prop :=
  c = 0 ∨ (2 ≤ c ∧ c < 2 + (st.ninos + 32767) / 32768) ∨
    (st.cacheBlocks c).isSome = true ∨ (st.cacheInodes c).isSome = true

/-- **`close_sfs` writes the blocks of the superblock, the free map and of what is in memory.** -/
theorem ends_close_sfs (ha : Above st) (hh : Hashed st)
    (hfirst : 2 + (st.ninos + 32767) / 32768 ≤ st.ninos)
    (hsuper : st.super.encode.length ≤ 4096) (hpos : 0 < st.ninos) :
    close_sfs.Ends st (fun _ st' => Wrote (Closes st) (closedBlock st) st st') E H := by
  unfold close_sfs
  rw [Routine.ends_bind, Routine.ends_read, id_eq]
  apply (wrote_freemap _ 0 2 rfl (le_refl _) rfl hfirst).seq
  · intro _ st₁ h₁
    have hlt : 0 < st₁.ninos := by
      rw [h₁.ninos]
      exact hpos
    rw [Routine.ends_bind, ends_write_block hsuper hlt]
    have h₂ : Wrote (fun c => c = 0) (closedBlock st) st₁
        (withImg st₁ 0 (bufferBlock st.super.encode)) := wrote_withImg (if_pos rfl).symm
    have h₁₂ := h₁.trans h₂
    apply (wrote_lists 1024 0 (h₁₂.above ha) (h₁₂.hashed hh)).mono
    · intro _ st' h₃
      rw [h₁₂.closedBlock] at h₃
      refine (h₁₂.trans h₃).congr fun c => ?_
      rw [(h₁₂.hashed hh).inLists, h₁₂.cacheBlocks, h₁₂.cacheInodes]
      unfold Closes
      exact or_assoc.trans or_left_comm
    · exact fun _ _ h => h
    · exact fun _ h => h
  · exact fun _ _ h => h
  · exact fun _ h => h

/-! ### The free map -/

/-- The bits from `j` on are set, `n` of them. -/
theorem getLsbD_close_bits (n j : Nat) (data : Nat → BitVec 32) (w r : Nat) (hr : r < 32) :
    (close_bits data n j w).getLsbD r =
      ((data w).getLsbD r || decide (j ≤ 32 * w + r ∧ 32 * w + r < j + n)) := by
  induction n generalizing j data with
  | zero =>
      have hno : ¬ (j ≤ 32 * w + r ∧ 32 * w + r < j + 0) := by omega
      rw [decide_eq_false hno, Bool.or_false]
      rfl
  | succ n ih =>
      have hmask : (1#32 <<< (j % 32)).getLsbD r = decide (r = j % 32) := getLsbD_bitMask hr
      unfold close_bits
      rw [ih]
      by_cases hw : w = j / 32
      · rw [hw, Function.update_self, BitVec.getLsbD_or, hmask, Bool.or_assoc]
        congr 1
        rw [Bool.eq_iff_iff, Bool.or_eq_true, decide_eq_true_iff, decide_eq_true_iff,
          decide_eq_true_iff]
        omega
      · rw [Function.update_of_ne hw]
        congr 1
        rw [decide_eq_decide]
        omega

/-- A block of the free map has the bits of the blocks that have not been handed out. -/
theorem getLsbD_close_map (st : MkSfs) (h : st.next_ino ≤ st.ninos) (k w r : Nat) (hr : r < 32)
    (hw : w < 1024) : (close_map st.ninos st.next_ino (32768 * k) w).getLsbD r =
      freeFrom st (32 * (1024 * k + w) + r) := by
  have hzero : (0 : BitVec 32).getLsbD r = false := BitVec.getLsbD_zero
  unfold close_map freeFrom
  by_cases hpart : st.next_ino < 32768 * k + 32768
  · rw [if_pos hpart, getLsbD_close_bits _ _ _ _ _ hr, hzero, Bool.false_or, decide_eq_decide]
    split_ifs <;> omega
  · rw [if_neg hpart, hzero, eq_comm, decide_eq_false_iff_not]
    omega

/-- The bytes of a block of the free map, as the kernel has them. -/
theorem bufferBlock_close_map (st : MkSfs) (h : st.next_ino ≤ st.ninos) (k o : Nat)
    (ho : o < 4096) :
    bufferBlock (wordBytes (close_map st.ninos st.next_ino (32768 * k))) o =
      bitmap_getdata (vol st).freemap (4096 * k + o) := by
  have hmap : (vol st).freemap.map (1024 * k + o / 4) =
      BitVec.ofFnLE fun r : Fin 32 => freeFrom st (32 * (1024 * k + o / 4) + r) := rfl
  have hword : close_map st.ninos st.next_ino (32768 * k) (o / 4) =
      (vol st).freemap.map (1024 * k + o / 4) := by
    rw [hmap]
    apply BitVec.eq_of_getLsbD_eq
    intro r hr
    rw [getLsbD_close_map st h k _ r hr (by omega), BitVec.getLsbD_ofFnLE, dif_pos hr]
  unfold bufferBlock wordBytes bitmap_getdata
  rw [Bytes.slice_getD ho, Nat.zero_add, hword, show (4096 * k + o) / 4 = 1024 * k + o / 4 by omega,
    show (4096 * k + o) % 4 = o % 4 by omega]

/-! ### The volume on the image -/

/-- The image behind `close_sfs`, as a volume with nothing in memory. -/
def closed (st st' : MkSfs) : Sfs :=
  { vol st with super_dirty := false, inodes := fun _ => none, dev := st'.img }

/-- How many blocks the free map takes. -/
theorem Well.map_blocks (h : Well I st) :
    sfs_freemap_blocks (vol st).super = (st.ninos + 32767) / 32768 := by
  show (st.super.blocks + 32767) / 32768 = _
  rw [h.sizes.blocks]

/-- A block in a place that is not in the free map. -/
theorem Well.outside (h : Well I st) {x : Slot} (hx : slot I (vol st) x ≠ 0)
    (hmap : ∀ k, x ≠ .freemap k) :
    (slot I (vol st) x = 1 ∨ 2 + (st.ninos + 32767) / 32768 ≤ slot I (vol st) x) ∧
      slot I (vol st) x < st.ninos := by
  refine ⟨?_, lt_of_lt_of_eq (h.core.lt x hx) h.sizes.blocks⟩
  by_contra hin
  have hslot : slot I (vol st) (.freemap (slot I (vol st) x - 2)) = slot I (vol st) x := by
    rw [slot_freemap, h.map_blocks, if_pos (by omega)]
    omega
  exact hmap _ (h.core.owned.inj _ _ hx hslot.symm)

/-- A block in memory is the indirect block of an inode. -/
theorem Well.cached_block (h : Well I st) (hb : (st.cacheBlocks b).isSome = true) :
    b ≠ 0 ∧ ∃ i, i ∈ I ∧ slot I (vol st) (.indirect i) = b := by
  obtain ⟨hne, i, ci, hci, rfl⟩ := (h.block b).mp hb
  exact ⟨hne, i, h.mem_of hci, h.slot_indirect hci⟩

/-- No inode is an indirect block. -/
theorem Well.inode_not_cached (h : Well I st) (hi : i ∈ I) : st.cacheBlocks i = none := by
  by_contra hne
  obtain ⟨-, j, -, hslot⟩ := h.cached_block (Option.isSome_iff_ne_none.mpr hne)
  have hself : slot I (vol st) (.inode i) = i := slot_inode hi
  have hsame := h.core.owned.inj (.inode i) (.indirect j)
    (by rw [hself]; exact h.core.pos i hi) (by rw [hself, hslot])
  cases hsame

/-- What is in memory stands above the free map. -/
theorem Well.above (h : Well I st) : Above st where
  block := by
    intro b hb
    obtain ⟨hne, i, -, hslot⟩ := h.cached_block hb
    have hout := h.outside (x := .indirect i) (by rw [hslot]; exact hne) (by simp)
    rw [hslot] at hout
    exact hout
  inode := by
    intro i hi
    have hmem := (h.mem i).mpr hi
    have hself : slot I (vol st) (.inode i) = i := slot_inode hmem
    have hout := h.outside (x := .inode i) (by rw [hself]; exact h.core.pos i hmem) (by simp)
    rw [hself] at hout
    exact ⟨hout.1, hout.2, h.inode_not_cached hmem⟩

/-- A hash is an index of the table. -/
theorem hash32_lt (val : Nat) : hash32 val < 1024 := by
  unfold hash32
  omega

/-- The hash lists hold what is in memory. -/
theorem Well.hashed (h : Well I st) : Hashed st where
  block := fun n b hb => ((h.heads n b).mp hb).2
  inode := by
    intro n i hi
    obtain ⟨ci, hci, -⟩ := (h.listed n i).mp hi
    rw [hci]
    rfl
  blockIn := fun b hb => ⟨hash32 0, hash32_lt 0, (h.heads _ b).mpr ⟨rfl, hb⟩⟩
  inodeIn := by
    intro i hi
    obtain ⟨ci, hci⟩ := Option.isSome_iff_exists.mp hi
    exact ⟨Tools.hash64 ci.real, hash64_lt _, (h.listed _ i).mpr ⟨ci, hci, rfl⟩⟩

/-- A block of data is on the image. -/
theorem Well.closed_data (h : Well I st) (hw : Wrote (Closes st) (closedBlock st) st st')
    (hk : slot I (vol st) (.data i k) ≠ 0) :
    st'.img (slot I (vol st) (.data i k)) = (vol st).dev (slot I (vol st) (.data i k)) := by
  have hnone : st.cacheBlocks (slot I (vol st) (.data i k)) = none := by
    by_contra hne
    obtain ⟨-, j, -, hslot⟩ := h.cached_block (Option.isSome_iff_ne_none.mpr hne)
    have hsame := h.core.owned.inj (.data i k) (.indirect j) hk hslot.symm
    cases hsame
  have hinode : st.cacheInodes (slot I (vol st) (.data i k)) = none := by
    by_contra hne
    have hmem := (h.mem _).mpr (Option.isSome_iff_ne_none.mpr hne)
    have hsame := h.core.owned.inj (.data i k) (.inode (slot I (vol st) (.data i k))) hk
      (slot_inode hmem).symm
    cases hsame
  obtain ⟨hout, -⟩ := h.outside hk (by simp)
  rw [hw.off]
  · show _ = (st.cacheBlocks _).getD _
    rw [hnone]
    rfl
  · rintro (hzero | hmap | hcb | hci)
    · exact hk hzero
    · omega
    · rw [hnone] at hcb
      cases hcb
    · rw [hinode] at hci
      cases hci

/-- An indirect block is on the image. -/
theorem Well.closed_indirect (h : Well I st) (hw : Wrote (Closes st) (closedBlock st) st st')
    (hci : st.cacheInodes i = some ci) (hne : ci.inode.indirect ≠ 0) {o : Nat} (ho : o < 4096) :
    st'.img ci.inode.indirect o = (vol st).dev ci.inode.indirect o := by
  have hsome := (h.block ci.inode.indirect).mpr ⟨hne, i, ci, hci, rfl⟩
  obtain ⟨cache, hcache⟩ := Option.isSome_iff_exists.mp hsome
  obtain ⟨hout, -⟩ := h.above.block _ hsome
  have hblock : closedBlock st ci.inode.indirect = bufferBlock (cache.slice 0 4096) := by
    unfold closedBlock
    rw [if_neg hne, if_neg (by omega), dif_pos hsome]
    simp only [hcache, Option.get_some]
  have hdev : (vol st).dev ci.inode.indirect = cache := by
    show (st.cacheBlocks ci.inode.indirect).getD _ = _
    rw [hcache]
    rfl
  rw [hw.on _ (Or.inr (Or.inr (Or.inl hsome))), hblock, hdev]
  exact (Bytes.slice_getD ho).trans (congrArg cache (Nat.zero_add o))

/-- The numbers of an inode fit in their fields. -/
theorem Well.din_fits (h : Well I st) (hci : st.cacheInodes i = some ci) :
    DinFits (MkInode.din ci.inode) := by
  have hwell := h.inode i ci hci
  have hsmall := h.small
  have hlast := h.sizes.last
  have hle := hwell.mapped.blocks_le
  rw [view_din hci] at hle
  replace hle : ci.inode.blocks ≤ 1036 := hle
  have hsize := hwell.size
  have hlinks := hwell.nlinks
  refine ⟨?_, ?_, ?_, ?_, fun k => ?_, ?_⟩
  · show ci.inode.size < 2 ^ 32
    omega
  · show ci.inode.type < 2 ^ 16
    rcases hwell.type with h | h | h <;> rw [h] <;> decide
  · show ci.inode.nlinks < 2 ^ 16
    omega
  · show ci.inode.blocks < 2 ^ 32
    omega
  · have hslot : slot I (vol st) (.data i k) = ci.inode.direct k := by
      rw [slot_data (h.mem_of hci), view_eq (vol_inodes hci)]
      show entryAt (asInode ci).din (vol st).dev k = _
      unfold entryAt
      rw [dif_pos k.isLt]
      rfl
    show ci.inode.direct k < 2 ^ 32
    by_cases hzero : ci.inode.direct k = 0
    · rw [hzero]
      decide
    · rw [← hslot] at hzero ⊢
      exact lt_trans (lt_trans (h.core.lt _ hzero) h.core.fits) (by decide)
  · show ci.inode.indirect < 2 ^ 32
    by_cases hzero : ci.inode.indirect = 0
    · rw [hzero]
      decide
    · rw [← h.slot_indirect hci] at hzero ⊢
      exact lt_trans (lt_trans (h.core.lt _ hzero) h.core.fits) (by decide)

/-- The kernel reads an inode as it was meant. -/
theorem decode_mkInode {inode : MkInode} (h : DinFits (MkInode.din inode)) :
    SfsDiskInode.decode (bufferBlock inode.encode) = MkInode.din inode := by
  have hlen := length_encode (MkInode.din inode)
  have henc : inode.encode = (MkInode.din inode).encode ++ toLe 4 inode.db_indirect := rfl
  rw [← decode_encode h fun _ => 0]
  apply decode_congr
  intro k hk
  rw [← bufferBlock_eq]
  unfold bufferBlock
  rw [henc, List.getD_append _ _ _ _ (by omega)]

/-- An inode is on the image. -/
theorem Well.closed_inode (h : Well I st) (hw : Wrote (Closes st) (closedBlock st) st st')
    (hci : st.cacheInodes i = some ci) :
    SfsDiskInode.decode (st'.img i) = MkInode.din ci.inode := by
  have hsome : (st.cacheInodes i).isSome = true := by
    rw [hci]
    rfl
  obtain ⟨hout, -, hnone⟩ := h.above.inode i hsome
  have hpos := h.core.pos i (h.mem_of hci)
  have hblock : closedBlock st i = bufferBlock ci.inode.encode := by
    unfold closedBlock
    rw [if_neg hpos, if_neg (by omega), dif_neg (by rw [hnone]; decide), dif_pos hsome]
    simp only [hci, Option.get_some]
  rw [hw.on i (Or.inr (Or.inr (Or.inr hsome))), hblock]
  exact decode_mkInode (h.din_fits hci)

/-- **The files of the image are those that the tool has made.** -/
theorem Well.closed_view (h : Well I st) (hw : Wrote (Closes st) (closedBlock st) st st')
    (hci : st.cacheInodes i = some ci) :
    view (closed st st') i =
      { view (vol st) i with dirty := false, disk := MkInode.din ci.inode } := by
  have hi := h.mem_of hci
  have hdisk := h.closed_inode hw hci
  have hdin : dinOf (closed st st') i = MkInode.din ci.inode := hdisk
  have hentry : entryAt (MkInode.din ci.inode) st'.img =
      entryAt (MkInode.din ci.inode) (vol st).dev := by
    funext k
    by_cases hk : k < 12
    · unfold entryAt
      rw [dif_pos hk, dif_pos hk]
    · by_cases hzero : ci.inode.indirect = 0
      · rw [entryAt_no_indirect (by omega) hzero, entryAt_no_indirect (by omega) hzero]
      · by_cases hfar : k < 1036
        · rw [entryAt_indirect (by omega) hfar hzero, entryAt_indirect (by omega) hfar hzero]
          exact Bytes.load_congr _ fun o _ ho => h.closed_indirect hw hci hzero (by omega)
        · rw [entryAt_far (by omega), entryAt_far (by omega)]
  have hcontent : contentAt (MkInode.din ci.inode) st'.img =
      contentAt (MkInode.din ci.inode) (vol st).dev := by
    apply contentAt_congr hentry
    intro k hk
    have hslot : slot I (vol st) (.data i k) = entryAt (MkInode.din ci.inode) (vol st).dev k := by
      rw [slot_data hi, view_eq (vol_inodes hci)]
      rfl
    rw [← hslot] at hk ⊢
    exact h.closed_data hw hk
  rw [view_eq (vol_inodes hci)]
  unfold view
  rw [hdin]
  show FileView.mk _ _ (SfsDiskInode.decode (st'.img i)) (entryAt (MkInode.din ci.inode) st'.img)
    (contentAt (MkInode.din ci.inode) st'.img) = _
  rw [hdisk, hentry, hcontent]
  rfl

end Ucore.Proofs.Tools
