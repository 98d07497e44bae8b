import Ucore.Fs.Sfs

/-!
# `Ucore.Proofs.Fs.Codec`: what is written to the disk is read back

The structures of `sfs.h` as bytes: an inode, the superblock and the free map.

The kernel writes a structure by copying its bytes to the beginning of a block, and reads it back in
the same way. So an inode is read back as it was written when its numbers fit their fields
(`decode_encode`, under `DinFits`), and what stands behind its 64 bytes does not matter
(`decode_congr`). A field is at a fixed place, and `load_encode` reads it there.
-/

set_option autoImplicit false

namespace Ucore.Proofs.Fs

open Ucore.Lib Ucore.Fs

/-! ### Inodes -/

/-- The numbers of an inode fit in their fields. -/
structure DinFits (din : SfsDiskInode) : Prop where
  size : din.size < 2 ^ 32
  type : din.type < 2 ^ 16
  nlinks : din.nlinks < 2 ^ 16
  blocks : din.blocks < 2 ^ 32
  direct : ∀ k, din.direct k < 2 ^ 32
  indirect : din.indirect < 2 ^ 32

/-- The bytes of the direct entries. -/
def encodeDirect (din : SfsDiskInode) : List UInt8 :=
  (List.ofFn fun k => toLe 4 (din.direct k)).flatten

/-- The twelve direct blocks take 48 bytes. -/
theorem length_encodeDirect (din : SfsDiskInode) : (encodeDirect din).length = 48 := by
  unfold encodeDirect
  rw [List.length_flatten, List.map_ofFn]
  have hconst : (List.length ∘ fun k => toLe 4 (din.direct k)) = fun _ : Fin 12 => 4 := by
    funext k
    exact length_toLe _ _
  rw [hconst]
  rfl

/-- An inode takes 64 bytes on the disk. -/
theorem length_encode (din : SfsDiskInode) : din.encode.length = 64 := by
  have h := length_encodeDirect din
  unfold encodeDirect at h
  unfold SfsDiskInode.encode
  simp only [List.length_append, length_toLe, h]

/-- A field of an encoded inode. -/
theorem load_encode (pre post : List UInt8) {din : SfsDiskInode} {m : Bytes} {off w v : Nat}
    (henc : din.encode = pre ++ toLe w v ++ post) (hpre : pre.length = off)
    (hv : v < 256 ^ w) : (m.overlay 0 din.encode).load off w = v := by
  unfold Bytes.load
  rw [Bytes.slice_overlay_inside, henc, List.append_assoc, ← hpre, List.drop_left]
  · have hlen : (toLe w v).length = w := length_toLe w v
    rw [List.take_left' hlen, ofLe_toLe hv]
  · rw [henc, List.length_append, List.length_append, length_toLe]
    omega

/-- An inode is read back as it was written. -/
theorem decode_encode {din : SfsDiskInode} (h : DinFits din) (m : Bytes) :
    SfsDiskInode.decode (m.overlay 0 din.encode) = din := by
  have hlen := length_encodeDirect din
  unfold encodeDirect at hlen
  have henc : din.encode = toLe 4 din.size ++ toLe 2 din.type ++ toLe 2 din.nlinks ++
      toLe 4 din.blocks ++ (List.ofFn fun k => toLe 4 (din.direct k)).flatten ++
      toLe 4 din.indirect := rfl
  ext
  · exact load_encode [] _ (by rw [henc]; simp only [List.append_assoc]; rfl) rfl h.size
  · exact load_encode (toLe 4 din.size) _ (by rw [henc]; simp only [List.append_assoc]; rfl)
      (by simp) h.type
  · exact load_encode (toLe 4 din.size ++ toLe 2 din.type) _
      (by rw [henc]; simp only [List.append_assoc]; rfl) (by simp) h.nlinks
  · exact load_encode (toLe 4 din.size ++ toLe 2 din.type ++ toLe 2 din.nlinks) _
      (by rw [henc]; simp only [List.append_assoc]; rfl) (by simp) h.blocks
  · rename_i k
    show (m.overlay 0 din.encode).load (12 + 4 * k.val) 4 = din.direct k
    have hk := k.isLt
    unfold Bytes.load
    rw [Bytes.slice_overlay_inside (by rw [length_encode]; omega)]
    have hparts : din.encode = (toLe 4 din.size ++ toLe 2 din.type ++ toLe 2 din.nlinks ++
        toLe 4 din.blocks) ++ ((List.ofFn fun k => toLe 4 (din.direct k)).flatten ++
        toLe 4 din.indirect) := by
      rw [henc]
      simp only [List.append_assoc]
    have hpre : (toLe 4 din.size ++ toLe 2 din.type ++ toLe 2 din.nlinks ++
        toLe 4 din.blocks).length = 12 := by simp
    rw [hparts, ← List.drop_drop, List.drop_left' hpre,
      flatten_drop_take _ (by simp) _ _ (by simp), List.getElem_ofFn, ofLe_toLe]
    exact h.direct k
  · exact load_encode (toLe 4 din.size ++ toLe 2 din.type ++ toLe 2 din.nlinks ++
      toLe 4 din.blocks ++ (List.ofFn fun k => toLe 4 (din.direct k)).flatten) []
      (by rw [henc, List.append_nil]) (by simp only [List.length_append, length_toLe, hlen])
      h.indirect

/-- Only the first 64 bytes of a block make up an inode. -/
theorem decode_congr {m m' : Bytes} (h : ∀ k, k < 64 → m k = m' k) :
    SfsDiskInode.decode m = SfsDiskInode.decode m' := by
  unfold SfsDiskInode.decode
  rw [Bytes.load_congr 0 (k := 4) fun k _ hk => h k (by omega),
    Bytes.load_congr 4 (k := 2) fun k _ hk => h k (by omega),
    Bytes.load_congr 6 (k := 2) fun k _ hk => h k (by omega),
    Bytes.load_congr 8 (k := 4) fun k _ hk => h k (by omega),
    Bytes.load_congr 60 (k := 4) fun k _ hk => h k (by omega)]
  congr 1
  funext k
  have hk := k.isLt
  exact Bytes.load_congr _ fun j _ hj => h j (by omega)

/-- Only the first 64 bytes of a block belong to the inode. -/
theorem decode_bufferBlock (m : Bytes) :
    SfsDiskInode.decode (bufferBlock (m.slice 0 64)) = SfsDiskInode.decode m := by
  apply decode_congr
  intro k hk
  show (m.slice 0 64).getD k 0 = m k
  rw [Bytes.slice_getD hk, Nat.zero_add]

end Ucore.Proofs.Fs
