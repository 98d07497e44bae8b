import Ucore.Proofs.Fs.Trunc

/-!
# `Ucore.Proofs.Fs.Io`: reading and writing a file

`Moved` says what the three steps of `sfs_io_nolock` have done when they have moved a number of
bytes: some blocks have been mapped, and the bytes of the file or those of the buffer have been
replaced. `ends_io_nolock` puts the function together.

## The steps

A transfer is the rest of the first block, then whole blocks, then the beginning of the last block.
Each of them loads a block and moves a part of it, which `ends_io_part` does once for all three:
`ends_io_load` reaches the block, `slice_block` and `content_put` turn its bytes on the device into
those of the file, and `Moved.step` appends the part to what has been moved before. The loop over
the whole blocks is an induction on their number (`ends_io_blocks`).

`MovedStuck` is the other end: the next block could not be had. The source then keeps what has been
moved and returns the error, and what has been moved ends at a block.

`Transferred` is the whole of `sfs_io_nolock` behind its checks, with the size that a write sets in
the end (`Grown.transferred`). `IoInvalid` and `IoGoes` are the checks: the first returns an error,
and where neither holds there is nothing to do.
-/

set_option autoImplicit false

namespace Ucore.Proofs.Fs

open Ucore.Lib Ucore.Fs

variable {I : Finset Nat} {i k n b : Nat} {sfs sfs' sfs'' : Sfs} {sin : SfsInode}

/-! ### The bytes of a block -/

/-- The bytes of a mapped block are replaced. -/
theorem put_block (blk : Bytes) (hcore : Core I sfs) (hi : i ∈ I) (hb : b ≠ 0)
    (hentry : (view sfs i).entry k = b) :
    Core I { sfs with dev := Function.update sfs.dev b blk } ∧
      Kept I i sfs { sfs with dev := Function.update sfs.dev b blk } ∧
      view { sfs with dev := Function.update sfs.dev b blk } i =
        { view sfs i with content := fun pos =>
            if pos / 4096 = k then blk (pos % 4096) else (view sfs i).content pos } := by
  have hslot : slot I sfs (.data i k) = b := by
    rw [slot_data hi]
    exact hentry
  -- No two slots have one block, so whatever another slot points to is as before.
  have hdev : ∀ x, x ≠ .data i k → slot I sfs x ≠ 0 →
      Function.update sfs.dev b blk (slot I sfs x) = sfs.dev (slot I sfs x) := by
    intro x hx hne
    apply Function.update_of_ne
    rw [← hslot]
    exact hcore.ne_slot hne hx
  have hnode : Function.update sfs.dev b blk i = sfs.dev i := by
    have h := hdev (.inode i) (by simp)
    rw [slot_inode hi] at h
    exact h (hcore.pos i hi)
  have hdin : dinOf { sfs with dev := Function.update sfs.dev b blk } i = dinOf sfs i := by
    show ((sfs.inodes i).map _).getD (SfsDiskInode.decode (Function.update sfs.dev b blk i)) = _
    rw [hnode]
    rfl
  -- The indirect block is none of them, so the entries of the file stay.
  have hmap : entryAt (dinOf sfs i) (Function.update sfs.dev b blk) =
      entryAt (dinOf sfs i) sfs.dev := by
    apply entryAt_congr rfl rfl
    intro hind
    have h := hdev (.indirect i) (by simp)
    rw [slot_indirect hi] at h
    exact h hind
  have hview : view { sfs with dev := Function.update sfs.dev b blk } i =
      { view sfs i with content := fun pos =>
          if pos / 4096 = k then blk (pos % 4096) else (view sfs i).content pos } := by
    unfold view
    rw [hdin]
    show FileView.mk _ _ (SfsDiskInode.decode (Function.update sfs.dev b blk i))
      (entryAt (dinOf sfs i) (Function.update sfs.dev b blk))
      (contentAt (dinOf sfs i) (Function.update sfs.dev b blk)) = _
    rw [hnode, hmap]
    have hcontent := contentAt_put hmap hentry hb fun c hc hne => by
      have h := hdev (.data i c) (by simpa using hc)
      rw [slot_data hi] at h
      exact h hne
    rw [hcontent, Function.update_self]
  have hframe : ∀ x, x.owner ≠ some i → slot I sfs x ≠ 0 →
      Function.update sfs.dev b blk (slot I sfs x) = sfs.dev (slot I sfs x) := by
    intro x hx hne
    refine hdev x ?_ hne
    rintro rfl
    exact hx rfl
  have hslots : slot I { sfs with dev := Function.update sfs.dev b blk } = slot I sfs := by
    apply slots_eq (i := i) hcore.pos
    · rfl
    · exact fun _ _ => rfl
    · exact hframe
    · rw [hview]
    · rw [hview]
  refine ⟨⟨hcore.pool.congr rfl rfl, ?_, ?_, hcore.fits, hcore.pos⟩, ?_, hview⟩
  · rw [hslots]
    exact hcore.owned
  · rw [hslots]
    exact hcore.lt
  -- The other files, the superblock and block 0.
  · apply Kept.of_dev hcore.pos
    · rfl
    · rfl
    · rfl
    · exact fun hd => ⟨hd, rfl, rfl⟩
    · rfl
    · exact fun _ _ => rfl
    · exact fun sin' hsin' => ⟨sin'.din, sin'.dirty, hsin'⟩
    · exact hframe
    · exact hnode
    · exact Function.update_of_ne (Ne.symm hb) _ _
    · rw [hslots]
      exact id

/-- A write into a mapped block is a write into the file. -/
theorem content_put (block : Bytes) {blk : Bytes} {p : Nat} {bytes : List UInt8}
    {content : Bytes} (hlen : p % 4096 + bytes.length ≤ 4096)
    (hblk : ∀ o, o < 4096 → blk o = block.overlay (p % 4096) bytes o)
    (hblock : ∀ pos, pos / 4096 = p / 4096 → content pos = block (pos % 4096)) :
    (fun pos => if pos / 4096 = p / 4096 then blk (pos % 4096) else content pos) =
      content.overlay p bytes := by
  funext pos
  by_cases hk : pos / 4096 = p / 4096
  · rw [if_pos hk, hblk _ (Nat.mod_lt _ (by decide))]
    by_cases hin : p ≤ pos ∧ pos < p + bytes.length
    · rw [Bytes.overlay_of_inside (by omega) (by omega), Bytes.overlay_of_inside hin.1 hin.2]
      congr 1
      omega
    · rw [Bytes.overlay_of_outside (by omega), Bytes.overlay_of_outside (by omega)]
      exact (hblock pos hk).symm
  · rw [if_neg hk, Bytes.overlay_of_outside (by omega)]

/-- The bytes of a file in a mapped block are those of the block. -/
theorem content_block (hentry : (view sfs i).entry k = b) (hb : b ≠ 0) (pos : Nat)
    (hpos : pos / 4096 = k) : (view sfs i).content pos = sfs.dev b (pos % 4096) := by
  have hmap : entryAt (dinOf sfs i) sfs.dev (pos / 4096) = b := by
    rw [hpos]
    exact hentry
  show contentAt (dinOf sfs i) sfs.dev pos = _
  unfold contentAt
  rw [hmap, if_neg hb]

/-- The bytes within a block of the file are those of its block on the device. -/
theorem slice_block (hentry : (view sfs i).entry k = b) (hb : b ≠ 0) {p len : Nat}
    (hk : p / 4096 = k) (hlen : p % 4096 + len ≤ 4096) :
    (sfs.dev b).slice (p % 4096) len = (view sfs i).content.slice p len := by
  apply List.map_congr_left
  intro o ho
  rw [List.mem_range] at ho
  rw [content_block hentry hb (p + o) (by omega)]
  congr 1
  omega

/-! ### The parts of a transfer -/

/-- `alen` bytes have been moved, from `offset` on. `sfs` is the volume before the call and
`buf` the buffer. -/
structure Moved (I : Finset Nat) (i : Nat) (write : Bool) (offset : Nat) (sfs : Sfs)
    (buf : List UInt8) (v : IoVars) : Prop where
  grown : Grown I i sfs v.sfs
  content : (view v.sfs i).content =
    if write = true then (view sfs i).content.overlay offset (buf.take v.alen)
    else (view sfs i).content
  buf : v.buf = buf.drop v.alen
  data : v.data =
    if write = true then [] else (view sfs i).content.slice offset v.alen
  blocks : (view v.sfs i).din.blocks =
    if v.alen = 0 then (view sfs i).din.blocks
    else max (view sfs i).din.blocks ((offset + v.alen + 4095) / 4096)
  start : v.alen = 0 → v.sfs = sfs
  quiet : write = false → offset + v.alen ≤ 4096 * (view sfs i).din.blocks → v.sfs = sfs

/-- Nothing has been moved yet. -/
theorem Moved.zero (write : Bool) (offset : Nat) (buf : List UInt8) (hcore : Core I sfs)
    (hmapped : Mapped (view sfs i)) :
    Moved I i write offset sfs buf { sfs := sfs, alen := 0, buf := buf, data := [] } where
  grown := Grown.refl hcore hmapped
  content := by
    cases write with
    | false => rfl
    | true =>
        rw [if_pos rfl, List.take_zero, Bytes.overlay_nil]
  buf := rfl
  data := by
    cases write with
    | false => rfl
    | true => rfl
  blocks := rfl
  start := fun _ => rfl
  quiet := fun _ _ => rfl

/-- The next block could not be had. -/
structure MovedStuck (I : Finset Nat) (i : Nat) (write : Bool) (offset : Nat) (sfs : Sfs)
    (buf : List UInt8) (v v' : IoVars) : Prop where
  moved : Moved I i write offset sfs buf v
  idle : Idle v.sfs v'.sfs
  alen : v'.alen = v.alen
  data : v'.data = v.data
  blocks : (view v.sfs i).din.blocks = (offset + v.alen) / 4096
  below : (view v.sfs i).din.blocks < 1036
  unused : v.sfs.super.unused_blocks <
    needed (view v.sfs i) ((view v.sfs i).din.blocks + 1)

section
variable {write : Bool} {offset : Nat} {buf : List UInt8} {v : IoVars} {H : SfsPanic → Prop}

/-- Loading the block of the position behind what has been moved. -/
theorem ends_io_load (hi : i ∈ I) (hsin : sfs.inodes i = some sin)
    (h : Moved I i write offset sfs buf v)
    (hindex : v.alen = 0 → (view sfs i).din.blocks < offset / 4096 → H .loadIndex)
    (hrange : 1036 ≤ (offset + v.alen) / 4096 →
      needed (view sfs i) 1036 ≤ sfs.super.unused_blocks → H .bmapRange) :
    (onSfs (sfs_bmap_load_nolock i ((offset + v.alen) / 4096))).Ends v
      (fun b v' => ∃ sfs₁, v' = { v with sfs := sfs₁ } ∧
        Loaded I i ((offset + v.alen) / 4096) v.sfs b sfs₁)
      (fun e v' => e = .noMem ∧ MovedStuck I i write offset sfs buf v v') H := by
  obtain ⟨sin', hsin'⟩ := h.grown.kept.exists_sin hsin
  have hblocks := h.blocks
  unfold onSfs
  rw [Routine.ends_within]
  apply (ends_load h.grown.core hi hsin' h.grown.mapped (k := (offset + v.alen) / 4096)
    (H := H) ?_ fun hlast hfar => hrange hfar (h.grown.fits_full (by omega))).mono
  · intro b sfs' hload
    exact ⟨sfs', rfl, hload⟩
  · rintro e sfs' ⟨rfl, hidle, hlast, hbelow, hunused⟩
    refine ⟨rfl, h, hidle, rfl, rfl, hlast.symm, ?_, ?_⟩
    · rw [← hlast]
      exact hbelow
    · rw [← hlast]
      exact hunused
  · exact fun _ h => h
  · intro hlt
    by_cases hzero : v.alen = 0
    · rw [if_pos hzero] at hblocks
      rw [hzero, Nat.add_zero, hblocks] at hlt
      exact hindex hzero hlt
    · rw [if_neg hzero] at hblocks
      omega

/-- A part of a block has been moved, after the block has been loaded. -/
theorem Moved.step {size : Nat} {v' : IoVars} {sfs₁ : Sfs} (hi : i ∈ I)
    (h : Moved I i write offset sfs buf v)
    (hload : Loaded I i ((offset + v.alen) / 4096) v.sfs b sfs₁)
    (hsize : 0 < size) (hpart : (offset + v.alen) % 4096 + size ≤ 4096)
    (hbuf : v.alen + size ≤ buf.length) (halen : v'.alen = v.alen + size)
    (hvbuf : v'.buf = v.buf.drop size)
    (hread : write = false → v'.sfs = sfs₁ ∧
      v'.data = v.data ++ (sfs₁.dev b).slice ((offset + v.alen) % 4096) size)
    (hwrite : write = true → v'.data = v.data ∧ ∃ blk,
      v'.sfs = { sfs₁ with dev := Function.update sfs₁.dev b blk } ∧
      ∀ o, o < 4096 →
        blk o = (sfs₁.dev b).overlay ((offset + v.alen) % 4096) (v.buf.take size) o) :
    Moved I i write offset sfs buf v' := by
  have hblocks : (view sfs₁ i).din.blocks =
      max (view sfs i).din.blocks ((offset + v'.alen + 4095) / 4096) := by
    have h₁ := hload.blocks
    have h₂ := h.blocks
    split_ifs at h₂ <;> omega
  have hvlen : (v.buf.take size).length = size := by
    rw [List.length_take, h.buf, List.length_drop]
    omega
  have hne : v'.alen ≠ 0 := by omega
  -- A read gets the bytes and leaves the file; a write changes the bytes and gets none.
  cases write with
  | false =>
      obtain ⟨hsfs, hdata⟩ := hread rfl
      rw [← hsfs] at hload hblocks hdata
      refine ⟨h.grown.trans hload.grown, ?_, ?_, ?_, ?_, fun h0 => absurd h0 hne, ?_⟩
      · exact hload.content.trans h.content
      · rw [hvbuf, h.buf, List.drop_drop, halen]
      · have hd := h.data
        rw [if_neg (by simp)] at hd ⊢
        rw [hdata, hd, halen, Bytes.slice_append,
          slice_block hload.entry hload.ne_zero rfl hpart, hload.content, h.content,
          if_neg (by simp)]
      · rw [if_neg hne]
        exact hblocks
      -- A read of mapped blocks changes nothing at all: the block was found, not allocated.
      · intro _ hle
        have hsame := h.quiet rfl (by omega)
        have hfound := hload.found
        rw [hsame] at hfound
        exact (hfound (by omega)).trans rfl
  | true =>
      obtain ⟨hdata, blk, hsfs, hblk⟩ := hwrite rfl
      obtain ⟨hcore', hkept', hview'⟩ := put_block blk hload.grown.core hi hload.ne_zero
        hload.entry
      rw [← hsfs] at hcore' hkept' hview'
      -- The write comes behind the load, and it maps no block.
      have hgrown' : Grown I i sfs₁ v'.sfs := by
        refine ⟨hcore', hkept', ?_, ?_, ?_⟩
        · rw [hview']
          exact hload.grown.mapped
        · rw [hview']
          exact .of_eq rfl rfl rfl rfl
        · intro n _
          rw [hview', hsfs]
          rfl
      have hcontent : (view v'.sfs i).content =
          (view sfs₁ i).content.overlay (offset + v.alen) (v.buf.take size) := by
        rw [hview']
        apply content_put (sfs₁.dev b)
        · rw [hvlen]
          exact hpart
        · exact hblk
        · intro pos hpos
          exact content_block hload.entry hload.ne_zero _ hpos
      refine ⟨(h.grown.trans hload.grown).trans hgrown', ?_, ?_, ?_, ?_,
        fun h0 => absurd h0 hne, fun h => by cases h⟩
      -- Two overlays next to each other are the overlay of the two parts together.
      · have htake : (buf.take v.alen).length = v.alen := by
          rw [List.length_take]
          omega
        have hc := h.content
        rw [if_pos rfl] at hc ⊢
        rw [hcontent, hload.content, hc, halen, List.take_add, Bytes.overlay_append, htake, h.buf]
      · rw [hvbuf, h.buf, List.drop_drop, halen]
      · rw [hdata, h.data]
        rfl
      · rw [if_neg hne, hview']
        exact hblocks

/-- A block of the file is one of the volume. -/
theorem Loaded.lt (h : Loaded I i k sfs b sfs') (hi : i ∈ I) : b < sfs'.super.blocks := by
  have hslot : slot I sfs' (.data i k) = b := by
    rw [slot_data hi]
    exact h.entry
  have hlt := h.grown.core.lt (.data i k)
  rw [hslot] at hlt
  exact hlt h.ne_zero

/-- One part of a block. -/
theorem ends_io_part (size : Nat) (hi : i ∈ I) (hsin : sfs.inodes i = some sin)
    (h : Moved I i write offset sfs buf v)
    (hindex : v.alen = 0 → (view sfs i).din.blocks < offset / 4096 → H .loadIndex)
    (hrange : 1036 ≤ (offset + v.alen) / 4096 →
      needed (view sfs i) 1036 ≤ sfs.super.unused_blocks → H .bmapRange) (hsize : 0 < size)
    (hpart : (offset + v.alen) % 4096 + size ≤ 4096) (hbuf : v.alen + size ≤ buf.length) :
    (sfs_io_part i write ((offset + v.alen) / 4096) size ((offset + v.alen) % 4096)).Ends v
      (fun _ v' => Moved I i write offset sfs buf v' ∧ v'.alen = v.alen + size)
      (fun e v' => e = .noMem ∧ MovedStuck I i write offset sfs buf v v') H := by
  unfold sfs_io_part
  apply (ends_io_load hi hsin h hindex hrange).seq
  · rintro b _ ⟨sfs₁, rfl, hload⟩
    have hlt := hload.lt hi
    have hlen : (v.buf.take size).length ≤ size := by
      rw [List.length_take]
      omega
    unfold sfs_buf_op onSfs
    rw [Routine.ends_bind, Routine.ends_ite]
    cases write with
    | true =>
        rw [if_pos rfl, Routine.ends_bind, Routine.ends_read, Routine.ends_bind,
          Routine.ends_within]
        refine (ends_wbuf hload.ne_zero hlt (by omega) ?_).mpr ?_
        · exact le_trans (Nat.add_le_add_left hlen _) hpart
        rw [Routine.ends_modify, Routine.ends_modify]
        refine ⟨h.step hi hload hsize hpart hbuf rfl rfl (fun h => ?_) fun _ => ?_, rfl⟩
        · cases h
        · exact ⟨rfl, _, rfl, fun _ _ => rfl⟩
    | false =>
        rw [if_neg (by simp), Routine.ends_bind, Routine.ends_within]
        refine (ends_rbuf hload.ne_zero hlt (by omega) hpart).mpr ?_
        rw [Routine.ends_modify, Routine.ends_modify]
        refine ⟨h.step hi hload hsize hpart hbuf rfl rfl (fun _ => ?_) fun h => ?_, rfl⟩
        · exact ⟨rfl, rfl⟩
        · cases h
  · exact fun _ _ h => h
  · exact fun _ h => h

/-- The loop over the full blocks. -/
theorem ends_io_blocks (hi : i ∈ I) (hsin : sfs.inodes i = some sin)
    (h : Moved I i write offset sfs buf v)
    (hindex : v.alen = 0 → (view sfs i).din.blocks < offset / 4096 → H .loadIndex)
    (hk : 4096 * k = offset + v.alen)
    (hrange : 1036 < k + n → needed (view sfs i) 1036 ≤ sfs.super.unused_blocks → H .bmapRange)
    (hbuf : v.alen + 4096 * n ≤ buf.length) :
    (sfs_io_blocks i write n k).Ends v
      (fun _ v' => Moved I i write offset sfs buf v' ∧ v'.alen = v.alen + 4096 * n)
      (fun e v' => e = .noMem ∧ ∃ w, MovedStuck I i write offset sfs buf w v' ∧
        v.alen ≤ w.alen ∧ w.alen < v.alen + 4096 * n ∧ 4096 ∣ offset + w.alen) H := by
  -- The induction is on the blocks that are left. `hk` says that each round starts at a block.
  induction n generalizing v k with
  | zero =>
      unfold sfs_io_blocks
      rw [Routine.ends_pure]
      exact ⟨h, rfl⟩
  | succ n ih =>
      have hdiv : (offset + v.alen) / 4096 = k := by omega
      have hmod : (offset + v.alen) % 4096 = 0 := by omega
      have hload := ends_io_load (H := H) hi hsin h hindex fun hfar => hrange (by omega)
      unfold sfs_io_blocks
      rw [hdiv] at hload
      -- First `sfs_bmap_load_nolock`, which may find no free block and end the loop.
      apply hload.seq
      · rintro b _ ⟨sfs₁, rfl, hload₁⟩
        have hlt := hload₁.lt hi
        rw [← hdiv] at hload₁
        -- The rounds behind this one, whichever way it went.
        have hrest : ∀ v₂ : IoVars, Moved I i write offset sfs buf v₂ →
            v₂.alen = v.alen + 4096 → (sfs_io_blocks i write n (k + 1)).Ends v₂
              (fun _ v' => Moved I i write offset sfs buf v' ∧ v'.alen = v.alen + 4096 * (n + 1))
              (fun e v' => e = .noMem ∧ ∃ w, MovedStuck I i write offset sfs buf w v' ∧
                v.alen ≤ w.alen ∧ w.alen < v.alen + 4096 * (n + 1) ∧ 4096 ∣ offset + w.alen)
              H := by
          intro v₂ h₂ halen
          apply (ih h₂ (fun h0 => by omega) (by omega) (fun hfar => hrange (by omega))
            (by omega)).mono
          · rintro _ v' ⟨h', halen'⟩
            exact ⟨h', by omega⟩
          · rintro e v' ⟨rfl, w, hw, hle, hlt', hdvd⟩
            exact ⟨rfl, w, hw, by omega, by omega, hdvd⟩
          · exact fun _ h => h
        -- Then the block is moved as a whole, in the one direction or the other.
        have hlen : v.alen + 4096 ≤ buf.length :=
          le_trans (Nat.add_le_add_left (Nat.le_mul_of_pos_right 4096 n.succ_pos) v.alen) hbuf
        have hpart : (offset + v.alen) % 4096 + 4096 ≤ 4096 := by rw [hmod]
        unfold sfs_block_op onSfs
        rw [Routine.ends_bind, Routine.ends_ite]
        cases write with
        | true =>
            rw [if_pos rfl, Routine.ends_bind, Routine.ends_read, Routine.ends_bind,
              Routine.ends_within]
            refine (ends_wblock_nolock (Or.inl hload₁.ne_zero) hlt).mpr ?_
            rw [Routine.ends_modify, Routine.ends_bind, Routine.ends_modify]
            apply hrest
            · refine h.step hi hload₁ (by decide) hpart hlen rfl rfl
                (fun h => ?_) fun _ => ?_
              · cases h
              · refine ⟨rfl, _, rfl, fun o ho => ?_⟩
                have hvlen : (v.buf.take 4096).length = 4096 := by
                  rw [List.length_take, h.buf, List.length_drop]
                  exact Nat.min_eq_left (Nat.le_sub_of_add_le' hlen)
                rw [hmod, Bytes.overlay_of_inside (Nat.zero_le _) (by rw [hvlen]; omega)]
                rfl
            · rfl
        | false =>
            rw [if_neg (by simp), Routine.ends_bind, Routine.ends_within]
            refine (ends_rblock hload₁.ne_zero hlt).mpr ?_
            rw [Routine.ends_modify, Routine.ends_bind, Routine.ends_modify]
            apply hrest
            · refine h.step hi hload₁ (by decide) hpart hlen rfl rfl
                (fun _ => ?_) fun h => ?_
              · refine ⟨rfl, ?_⟩
                rw [hmod]
              · cases h
            · rfl
      · rintro e v' ⟨rfl, hstuck⟩
        exact ⟨rfl, v, hstuck, le_refl _, by omega, by omega⟩
      · exact fun _ h => h

/-- The full blocks and the last part, behind the first part. -/
theorem ends_io_rest {endpos : Nat} (hi : i ∈ I) (hsin : sfs.inodes i = some sin)
    (h : Moved I i write offset sfs buf v) (hbuf : endpos ≤ offset + buf.length)
    (hk : 4096 * k = offset + v.alen) (hle : k ≤ endpos / 4096)
    (hindex : v.alen = 0 → (view sfs i).din.blocks < offset / 4096 → H .loadIndex)
    (hrange : 1036 * 4096 < endpos → needed (view sfs i) 1036 ≤ sfs.super.unused_blocks →
      H .bmapRange) :
    (sfs_io_blocks i write (endpos / 4096 - k) k >>= fun _ =>
      Routine.when (endpos % 4096 ≠ 0)
        (sfs_io_part i write (endpos / 4096) (endpos % 4096) 0)).Ends v
      (fun _ v' => Moved I i write offset sfs buf v' ∧ offset + v'.alen = endpos)
      (fun e v' => e = Errno.noMem ∧ ∃ w, MovedStuck I i write offset sfs buf w v' ∧
        offset + w.alen < endpos ∧ (w.alen = 0 ∨ 4096 ∣ offset + w.alen)) H := by
  apply (ends_io_blocks (H := H) (n := endpos / 4096 - k) hi hsin h hindex hk
    (fun hfar => hrange (by omega)) (by omega)).seq
  · rintro _ v₁ ⟨h₁, halen⟩
    have hpos : (offset + v₁.alen) / 4096 = endpos / 4096 := by omega
    have hmod : (offset + v₁.alen) % 4096 = 0 := by omega
    rw [Routine.ends_when]
    by_cases htail : endpos % 4096 ≠ 0
    · have hpart := ends_io_part (H := H) (endpos % 4096) hi hsin h₁
        (fun h0 => hindex (by omega)) (fun hfar => hrange (by omega)) (by omega) (by omega)
        (by omega)
      rw [hpos, hmod] at hpart
      rw [if_pos htail]
      apply hpart.mono
      · rintro _ v' ⟨h', halen'⟩
        exact ⟨h', by omega⟩
      · rintro e v' ⟨rfl, hstuck⟩
        exact ⟨rfl, v₁, hstuck, by omega, Or.inr (by omega)⟩
      · exact fun _ h => h
    · rw [if_neg htail]
      exact ⟨h₁, by omega⟩
  · rintro e v' ⟨rfl, w, hw, hge, hlt', hdvd⟩
    exact ⟨rfl, w, hw, by omega, Or.inr hdvd⟩
  · exact fun _ h => h

/-- The three steps of `sfs_io_nolock`. When a block cannot be had, nothing has been moved or
what has been moved ends at a block. -/
theorem ends_io_steps {endpos : Nat} (hcore : Core I sfs) (hi : i ∈ I)
    (hsin : sfs.inodes i = some sin) (hmapped : Mapped (view sfs i)) (hlt : offset < endpos)
    (hbuf : endpos ≤ offset + buf.length)
    (hindex : (view sfs i).din.blocks < offset / 4096 → H .loadIndex)
    (hrange : 1036 * 4096 < endpos → needed (view sfs i) 1036 ≤ sfs.super.unused_blocks →
      H .bmapRange) :
    (sfs_io_steps i write offset endpos).Ends { sfs := sfs, alen := 0, buf := buf, data := [] }
      (fun _ v' => Moved I i write offset sfs buf v' ∧ offset + v'.alen = endpos)
      (fun e v' => e = .noMem ∧ ∃ w, MovedStuck I i write offset sfs buf w v' ∧
        offset + w.alen < endpos ∧ (w.alen = 0 ∨ 4096 ∣ offset + w.alen)) H := by
  have hzero := Moved.zero write offset buf hcore hmapped
  generalize hv : IoVars.mk sfs 0 buf [] = v at hzero ⊢
  have halen : v.alen = 0 := by rw [← hv]
  have hpos : offset + v.alen = offset := by omega
  unfold sfs_io_steps
  rw [Routine.ends_ite]
  by_cases hone : offset / 4096 = endpos / 4096
  · have hpart := ends_io_part (H := H) (endpos - offset) hi hsin hzero (fun _ => hindex)
      (fun hfar => hrange (by omega)) (by omega) (by omega) (by omega)
    rw [hpos] at hpart
    rw [if_pos hone]
    apply hpart.mono
    · rintro _ v' ⟨h', halen'⟩
      exact ⟨h', by omega⟩
    · rintro e v' ⟨rfl, hstuck⟩
      exact ⟨rfl, v, hstuck, by omega, Or.inl halen⟩
    · exact fun _ h => h
  · rw [if_neg hone, Routine.ends_bind, Routine.ends_when]
    by_cases hhead : offset % 4096 ≠ 0
    · have hpart := ends_io_part (H := H) (4096 - offset % 4096) hi hsin hzero
        (fun _ => hindex) (fun hfar => hrange (by omega)) (by omega) (by omega) (by omega)
      rw [hpos] at hpart
      rw [if_pos hhead, if_pos hhead]
      apply hpart.mono
      · rintro _ v₁ ⟨h₁, halen₁⟩
        exact ends_io_rest hi hsin h₁ hbuf (by omega) (by omega) (fun h0 => by omega) hrange
      · rintro e v' ⟨rfl, hstuck⟩
        exact ⟨rfl, v, hstuck, by omega, Or.inl halen⟩
      · exact fun _ h => h
    · rw [if_neg hhead, if_neg hhead]
      exact ends_io_rest hi hsin hzero hbuf (by omega) (by omega) (fun _ => hindex) hrange

end

/-! ### `sfs_io_nolock` -/

/-- What `sfs_io_nolock` has done behind its checks. -/
structure Transferred (I : Finset Nat) (i : Nat) (write : Bool) (offset endpos : Nat)
    (buf : List UInt8) (sfs : Sfs) (r : IoResult) (sfs' : Sfs) : Prop where
  core : Core I sfs'
  kept : Kept I i sfs sfs'
  mapped : Mapped (view sfs' i)
  content : (view sfs' i).content =
    if write = true then (view sfs i).content.overlay offset (buf.take r.alen)
    else (view sfs i).content
  data : r.data = if write = true then [] else (view sfs i).content.slice offset r.alen
  din : (view sfs' i).din =
    { (view sfs' i).din with
      type := (view sfs i).din.type
      nlinks := (view sfs i).din.nlinks
      size := max (view sfs i).din.size (offset + r.alen) }
  blocks : (view sfs' i).din.blocks =
    if r.alen = 0 then (view sfs i).din.blocks
    else max (view sfs i).din.blocks ((offset + r.alen + 4095) / 4096)
  fits : needed (view sfs i) (view sfs' i).din.blocks ≤ sfs.super.unused_blocks
  need : ∀ n, (view sfs' i).din.blocks ≤ n →
    needed (view sfs i) n + sfs'.super.unused_blocks =
      needed (view sfs' i) n + sfs.super.unused_blocks
  entry : ∀ k, (view sfs' i).din.blocks ≤ k → (view sfs' i).entry k = (view sfs i).entry k
  dirty : (view sfs i).dirty = true → (view sfs' i).dirty = true
  marked : (view sfs i).din.size < offset + r.alen → (view sfs' i).dirty = true
  clean : (view sfs' i).dirty = false →
    (view sfs' i).din = { (view sfs i).din with blocks := (view sfs' i).din.blocks }
  grew : (view sfs' i).din.blocks ≠ (view sfs i).din.blocks →
    (view sfs' i).dirty = true ∨ (view sfs i).entry (view sfs i).din.blocks ≠ 0 ∨
      (12 ≤ (view sfs i).din.blocks ∧ (view sfs i).din.indirect ≠ 0)
  quiet : write = false → endpos ≤ (view sfs i).din.size →
    endpos ≤ 4096 * (view sfs i).din.blocks → sfs' = sfs
  ret : r.ret = .ok () ∧ offset + r.alen = endpos ∨
    r.ret = .error .noMem ∧ offset + r.alen < endpos ∧ (r.alen = 0 ∨ 4096 ∣ offset + r.alen) ∧
      (view sfs' i).din.blocks = (offset + r.alen) / 4096 ∧ (offset + r.alen) / 4096 < 1036 ∧
      sfs.super.unused_blocks < needed (view sfs i) ((offset + r.alen) / 4096 + 1)

/-- `out` of `sfs_io_nolock`: the size, behind what has been moved. -/
theorem Grown.transferred {write : Bool} {offset endpos : Nat} {buf : List UInt8}
    {r : IoResult} {sfs₁ : Sfs} (h : Grown I i sfs sfs₁) (hsin₁ : sfs₁.inodes i = some sin)
    (hcontent : (view sfs₁ i).content =
      if write = true then (view sfs i).content.overlay offset (buf.take r.alen)
      else (view sfs i).content)
    (hdata : r.data = if write = true then [] else (view sfs i).content.slice offset r.alen)
    (hblocks : (view sfs₁ i).din.blocks =
      if r.alen = 0 then (view sfs i).din.blocks
      else max (view sfs i).din.blocks ((offset + r.alen + 4095) / 4096))
    (hquiet : write = false → endpos ≤ 4096 * (view sfs i).din.blocks → sfs₁ = sfs)
    (hle : offset + r.alen ≤ endpos)
    (hret : r.ret = .ok () ∧ offset + r.alen = endpos ∨
      r.ret = .error .noMem ∧ offset + r.alen < endpos ∧ (r.alen = 0 ∨ 4096 ∣ offset + r.alen) ∧
        (view sfs₁ i).din.blocks = (offset + r.alen) / 4096 ∧ (offset + r.alen) / 4096 < 1036 ∧
        sfs.super.unused_blocks < needed (view sfs i) ((offset + r.alen) / 4096 + 1)) :
    Transferred I i write offset endpos buf sfs r
      (if sin.din.size < offset + r.alen then
        withDin sfs₁ i sin { sin.din with size := offset + r.alen } true else sfs₁) := by
  have hdin : (view sfs₁ i).din = sin.din := by rw [view_eq hsin₁]
  have hstretched := h.stretched
  have hsize : sin.din.size = (view sfs i).din.size := by
    rw [← hdin, hstretched.din]
  have htype : sin.din.type = (view sfs i).din.type := by
    rw [← hdin, hstretched.din]
  have hnlinks : sin.din.nlinks = (view sfs i).din.nlinks := by
    rw [← hdin, hstretched.din]
  -- `if (offset + alen > sin->din->size)`: a file that did not become longer keeps its inode.
  by_cases hgrow : sin.din.size < offset + r.alen
  · have hview := view_withDin { sin.din with size := offset + r.alen } true hsin₁ rfl rfl
    have hdirty : (view (withDin sfs₁ i sin { sin.din with size := offset + r.alen } true)
        i).dirty = true := by
      rw [hview]
      exact Bool.or_true _
    have hblocks' : (view (withDin sfs₁ i sin { sin.din with size := offset + r.alen } true)
        i).din.blocks = (view sfs₁ i).din.blocks := by
      rw [hview, hdin]
    rw [if_pos hgrow]
    -- Setting the size leaves the block map, so all but the size and the dirty flag is that of
    -- `sfs₁`.
    refine ⟨h.core.withDin hsin₁ rfl rfl, h.kept.trans (Kept.withDin h.core hsin₁ rfl rfl), ?_, ?_,
      hdata, ?_, ?_, ?_, ?_, ?_, fun _ => hdirty, fun _ => hdirty, fun hd => ?_,
      fun _ => Or.inl hdirty, fun _ hend => ?_, ?_⟩
    · intro k hk
      rw [hblocks'] at hk
      rw [hview]
      exact h.mapped k hk
    · rw [hview]
      exact hcontent
    · rw [hview]
      show SfsDiskInode.mk (offset + r.alen) sin.din.type sin.din.nlinks _ _ _ =
        SfsDiskInode.mk (max (view sfs i).din.size (offset + r.alen)) _ _ _ _ _
      rw [max_eq_right (by omega), htype, hnlinks]
    · rw [hblocks']
      exact hblocks
    · rw [hblocks']
      exact h.fits
    · intro n hn
      rw [hblocks'] at hn
      have hneed := h.need n hn
      unfold needed at hneed ⊢
      rw [hdin] at hneed
      rw [hview]
      exact hneed
    · intro k hk
      rw [hblocks'] at hk
      rw [hview]
      exact hstretched.entry k (Or.inr (Or.inr hk))
    · rw [hdirty] at hd
      cases hd
    · omega
    · rw [hblocks']
      exact hret
  · rw [if_neg hgrow]
    refine ⟨h.core, h.kept, h.mapped, hcontent, hdata, ?_, hblocks, h.fits, h.need,
      fun k hk => hstretched.entry k (Or.inr (Or.inr hk)), hstretched.dirty, fun hlt => ?_,
      hstretched.clean, hstretched.grew, fun hw _ hend => hquiet hw hend, hret⟩
    · rw [max_eq_left (by omega)]
      rw [hstretched.din]
    · omega

/-- `sfs_io_nolock` behind its checks. -/
theorem ends_io_transfer {write : Bool} {offset endpos : Nat} {buf : List UInt8}
    {H : SfsPanic → Prop} (hcore : Core I sfs) (hi : i ∈ I) (hsin : sfs.inodes i = some sin)
    (hmapped : Mapped (view sfs i)) (hlt : offset < endpos)
    (hbuf : endpos ≤ offset + buf.length)
    (hindex : (view sfs i).din.blocks < offset / 4096 → H .loadIndex)
    (hrange : 1036 * 4096 < endpos → needed (view sfs i) 1036 ≤ sfs.super.unused_blocks →
      H .bmapRange) :
    (sfs_io_transfer i buf offset endpos write).Ends sfs
      (fun r sfs' => Transferred I i write offset endpos buf sfs r sfs') (fun _ _ => False) H := by
  unfold sfs_io_transfer
  rw [Routine.ends_bind, Routine.ends_withLocals]
  have hout : ∀ (r : Except Errno Unit × IoVars) (sfs₁ : Sfs) (sin₁ : SfsInode),
      sfs₁.inodes i = some sin₁ →
      (∀ r' : IoResult, r' = { ret := r.1, alen := r.2.alen, data := r.2.data } →
        Transferred I i write offset endpos buf sfs r'
          (if sin₁.din.size < offset + r'.alen then
            withDin sfs₁ i sin₁ { sin₁.din with size := offset + r'.alen } true else sfs₁)) →
      (do
        let sin ← sfsInode i
        Routine.when (sin.din.size < offset + r.2.alen) do
          setDin i (fun din => { din with size := offset + r.2.alen }) true
        return { ret := r.1, alen := r.2.alen, data := r.2.data } : SfsM IoResult).Ends sfs₁
        (fun r sfs' => Transferred I i write offset endpos buf sfs r sfs') (fun _ _ => False)
        H := by
    intro r sfs₁ sin₁ hsin₁ h
    have h := h _ rfl
    rw [Routine.ends_bind, ends_sfsInode hsin₁, Routine.ends_bind, Routine.ends_when]
    by_cases hgrow : sin₁.din.size < offset + r.2.alen
    · rw [if_pos hgrow, ends_setDin hsin₁, Routine.ends_pure]
      rw [if_pos hgrow] at h
      exact h
    · rw [if_neg hgrow, Routine.ends_pure]
      rw [if_neg hgrow] at h
      exact h
  apply (ends_io_steps (H := H) hcore hi hsin hmapped hlt hbuf hindex hrange).mono
  · rintro ⟨⟩ v ⟨hmoved, hend⟩
    obtain ⟨sin₁, hsin₁⟩ := hmoved.grown.kept.exists_sin hsin
    apply hout _ _ _ hsin₁
    rintro r rfl
    apply hmoved.grown.transferred hsin₁ hmoved.content hmoved.data hmoved.blocks
    · intro hw hle
      exact hmoved.quiet hw (by omega)
    · exact le_of_eq hend
    · exact Or.inl ⟨rfl, hend⟩
  · rintro e v ⟨rfl, w, hw, hend, hcut⟩
    have hgrown : Grown I i sfs v.sfs :=
      hw.moved.grown.trans (hw.idle.grown hw.moved.grown.core hi hw.moved.grown.mapped)
    have hview := hw.idle.view_eq hw.moved.grown.core hi
    obtain ⟨sin₁, hsin₁⟩ := hgrown.kept.exists_sin hsin
    have halen := hw.alen
    have hcontent := hw.moved.content
    have hblocks := hw.moved.blocks
    have hdata := hw.moved.data
    have hlast := hw.blocks
    have hbelow : (offset + v.alen) / 4096 < 1036 := by
      rw [halen, ← hlast]
      exact hw.below
    have hlack : sfs.super.unused_blocks <
        needed (view sfs i) ((offset + w.alen) / 4096 + 1) := by
      have hneed := hw.moved.grown.need ((offset + w.alen) / 4096 + 1) (by omega)
      have hunused := hw.unused
      rw [hlast] at hunused
      omega
    rw [← hview, ← halen] at hcontent hblocks
    rw [← hview, ← halen] at hlast
    rw [← halen] at hdata hlack
    rw [← hw.data] at hdata
    apply hout _ _ _ hsin₁
    rintro r rfl
    apply hgrown.transferred hsin₁ hcontent hdata hblocks
    · intro hw' hle
      -- a read of blocks that are there does not get stuck
      exfalso
      have hlast' := hlast
      rw [hblocks] at hlast'
      split_ifs at hlast' <;> omega
    · show offset + v.alen ≤ endpos
      omega
    · refine Or.inr ⟨rfl, ?_, ?_, hlast, hbelow, hlack⟩
      · show offset + v.alen < endpos
        omega
      · show v.alen = 0 ∨ 4096 ∣ offset + v.alen
        rw [halen]
        exact hcut
  · exact fun _ h => h

/-- A position is not above the number. -/
theorem toOff_le {x : Int} (h : 0 ≤ x) : toOff x ≤ x := by
  unfold toOff
  rw [Int.bmod_def]
  split_ifs <;> omega

/-- A number that fits is the position. -/
theorem toOff_eq {x : Int} (h : 0 ≤ x) (h' : x < 2 ^ 63) : toOff x = x := by
  unfold toOff
  rw [Int.bmod_def]
  split_ifs <;> omega

/-- The range is invalid: `sfs_io_nolock` returns `-E_INVAL`. -/
def IoInvalid (offset : Int) (len : Nat) : Prop :=
  offset < 0 ∨ (SFS_MAX_FILE_SIZE : Int) ≤ offset ∨ toOff (offset + len) < offset

/-- `sfs_io_nolock` goes on behind its checks, for a file of this size. -/
def IoGoes (size : Nat) (write : Bool) (offset : Int) (len : Nat) : Prop :=
  ¬ IoInvalid offset len ∧ offset ≠ toOff (offset + len) ∧
    (write = false → offset.toNat < size)

/-- The end position of `sfs_io_nolock`, for a file of this size. -/
def ioEnd (size : Nat) (write : Bool) (offset : Int) (len : Nat) : Nat :=
  if write = false then min (min (toOff (offset + len)) SFS_MAX_FILE_SIZE).toNat size
  else (min (toOff (offset + len)) SFS_MAX_FILE_SIZE).toNat

/-- A transfer that has something to do has a range that is not empty. -/
theorem IoGoes.lt {size len : Nat} {write : Bool} {offset : Int}
    (h : IoGoes size write offset len) : offset.toNat < ioEnd size write offset len := by
  obtain ⟨hvalid, hne, hread⟩ := h
  unfold IoInvalid at hvalid
  have hmin : offset < min (toOff (offset + len)) SFS_MAX_FILE_SIZE := by
    rw [lt_min_iff]
    exact ⟨by omega, by omega⟩
  unfold ioEnd
  by_cases hw : write = false
  · rw [if_pos hw, lt_min_iff]
    exact ⟨by omega, hread hw⟩
  · rw [if_neg hw]
    omega

/-- A transfer ends at the end asked for at the latest. -/
theorem IoGoes.le {size len : Nat} {write : Bool} {offset : Int}
    (h : IoGoes size write offset len) :
    ioEnd size write offset len ≤ offset.toNat + len := by
  obtain ⟨hvalid, -, -⟩ := h
  unfold IoInvalid at hvalid
  have hle := toOff_le (x := offset + len) (by omega)
  have hmin := min_le_left (toOff (offset + len)) (SFS_MAX_FILE_SIZE : Int)
  unfold ioEnd
  split_ifs
  · have hmin' := min_le_left (min (toOff (offset + len)) (SFS_MAX_FILE_SIZE : Int)).toNat size
    omega
  · omega

/-- `sfs_io_nolock` on a regular file. -/
theorem ends_io_nolock {write : Bool} {offset : Int} {buf : List UInt8} {H : SfsPanic → Prop}
    (hcore : Core I sfs) (hi : i ∈ I) (hsin : sfs.inodes i = some sin)
    (hmapped : Mapped (view sfs i)) (htype : (view sfs i).din.type ≠ SFS_TYPE_DIR)
    (hindex : IoGoes (view sfs i).din.size write offset buf.length →
      (view sfs i).din.blocks < offset.toNat / 4096 → H .loadIndex)
    (hrange : IoGoes (view sfs i).din.size write offset buf.length →
      1036 * 4096 < ioEnd (view sfs i).din.size write offset buf.length →
      needed (view sfs i) 1036 ≤ sfs.super.unused_blocks → H .bmapRange) :
    (sfs_io_nolock i buf offset write).Ends sfs
      (fun r sfs' =>
        ¬ IoGoes (view sfs i).din.size write offset buf.length ∧ sfs' = sfs ∧ r.alen = 0 ∧
          r.data = [] ∧ (IoInvalid offset buf.length ∨ r.ret = .ok ()) ∨
        IoGoes (view sfs i).din.size write offset buf.length ∧
          Transferred I i write offset.toNat
            (ioEnd (view sfs i).din.size write offset buf.length) buf sfs r sfs')
      (fun _ _ => False) H := by
  have hdin : (view sfs i).din = sin.din := by rw [view_eq hsin]
  rw [hdin] at htype
  unfold sfs_io_nolock
  rw [Routine.ends_bind, ends_sfsInode hsin, Routine.ends_bind, Routine.ends_assert,
    if_pos htype, Routine.ends_ite, hdin]
  by_cases hbad : IoInvalid offset buf.length
  · unfold IoInvalid at hbad
    rw [if_pos hbad, Routine.ends_pure]
    exact Or.inl ⟨fun h => h.1 hbad, rfl, rfl, rfl, Or.inl hbad⟩
  · have hbad' := hbad
    unfold IoInvalid at hbad'
    rw [if_neg hbad', Routine.ends_ite]
    by_cases hempty : offset = toOff (offset + buf.length)
    · rw [if_pos hempty, Routine.ends_pure]
      exact Or.inl ⟨fun h => h.2.1 hempty, rfl, rfl, rfl, Or.inr rfl⟩
    · rw [if_neg hempty, Routine.ends_ite]
      by_cases hread : write = false ∧ sin.din.size ≤ offset.toNat
      · rw [if_pos hread, Routine.ends_pure]
        refine Or.inl ⟨fun h => ?_, rfl, rfl, rfl, Or.inr rfl⟩
        have hlt := h.2.2 hread.1
        omega
      · have hgoes : IoGoes sin.din.size write offset buf.length := by
          refine ⟨hbad, hempty, fun hw => ?_⟩
          by_contra hge
          exact hread ⟨hw, by omega⟩
        rw [hdin] at hindex hrange
        rw [if_neg hread]
        apply (ends_io_transfer hcore hi hsin hmapped hgoes.lt hgoes.le
          (by rw [hdin]; exact hindex hgoes) (hrange hgoes)).mono
        · intro r sfs' h
          exact Or.inr ⟨hgoes, h⟩
        · exact fun _ _ h => h
        · exact fun _ h => h

end Ucore.Proofs.Fs
