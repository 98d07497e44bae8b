import Ucore.Fs.Sysfile
import Ucore.Proofs.Fs.Transfer
import Ucore.Proofs.Mm.UserMemCheck

/-!
# `Ucore.Proofs.Fs.Sysfile`: the position, the count and the bytes

A chunk of `sysfile_read` moves the position before it is copied to the process. When
`copy_to_user` refuses it, the position stays where it is, and the count leaves the chunk out
(`ReadRefused`). `sysfile_write` copies first, so its count is always right.

## The two loops

The inductions are on the rounds that are left, for a buffer of any size.

* `ReadOut` says what the loop of `sysfile_read` leaves behind: either `ReadDone`, which ties the
  bytes, the count and the position together, or `ReadRefused`. `ReadOut.step` puts a chunk in front
  of the rounds behind it, and `ends_read_loop` is the induction.
* `WriteOut` says the same of `sysfile_write`: the whole range by one transfer (`WriteWhole`), or
  the part that the process may read (`WritePart`).

A read always returns, since `sfs_io` of a read does. A write can panic in the file system, when its
range reaches the end of the block map. The chunks of a range stop if and only if one transfer of
some number of them does (`ChunksStop`). `Transferred.chunksStop_iff` carries this over a chunk that
has been written, and `ends_write_loop` shows that the loop stops exactly then.

## Main results

* `sysfileRead_loop`, `sysfileWrite_loop`: what the calls return, from their loops.
* `sysfileRead_early`, `sysfileWrite_early`: the ways to return in front of the loop, none of which
  changes anything.
* `sysfile_agrees`: the position, the count and the bytes agree in a read if and only if no chunk is
  refused, and in a write whenever it returns, which it does if and only if its chunks do not stop.
* `sysfile_read_refused`: a read of two pages, of which the process may write one, leaves the
  position a page ahead of the count.
-/

set_option autoImplicit false

namespace Ucore.Proofs.Fs

open Ucore.Lib Ucore.Fs Ucore.Mm Ucore.Proofs.Mm

/-! ### The memory of the process -/

section

variable {vmas : List Vma} {mm : MmStruct} {user : Bytes} {write : Bool} {a m n : Nat}

/-- The process may access the bytes from `a` on. -/
def Accessible (vmas : List Vma) (write : Bool) (a n : Nat) : Prop :=
  userBase ≤ a ∧ a + n ≤ userTop ∧ Granted vmas write a (a + n)

/-- An area that permits an access permits it from any later address on. -/
theorem permits_mono {w : Vma} {b : Nat} (hle : a ≤ b) (h : Permits write a w) :
    Permits write b w :=
  ⟨h.1, fun hw hs => Nat.le_trans (h.2 hw hs) (max_le_max hle (Nat.le_refl _))⟩

/-- A range in two parts is accessible if and only if both parts are. -/
theorem accessible_add (h : Sorted vmas) (hm : 0 < m) (hn : 0 < n) :
    Accessible vmas write a (m + n) ↔
      Accessible vmas write a m ∧ Accessible vmas write (a + m) n := by
  unfold Accessible Granted
  rw [Nat.add_assoc]
  constructor
  · rintro ⟨hbase, htop, hgrant⟩
    refine ⟨⟨hbase, by omega, fun b hb hb' => hgrant b hb (by omega)⟩, by omega, htop,
      fun b hb hb' => ?_⟩
    obtain ⟨w, hw, hwb, hperm⟩ := hgrant b (by omega) hb'
    exact ⟨w, hw, hwb, permits_mono (Nat.le_add_right a m) hperm⟩
  · rintro ⟨⟨hbase, -, hgrant⟩, -, htop, hgrant'⟩
    refine ⟨hbase, htop, fun b hb hb' => ?_⟩
    by_cases hlt : b < a + m
    · exact hgrant b hb hlt
    · obtain ⟨w, hw, hwb, hperm⟩ := hgrant' b (by omega) hb'
      refine ⟨w, hw, hwb, ?_⟩
      by_cases hstart : w.vmStart < a + m
      · -- the area begins in the first part, which ends in it
        obtain ⟨u, hu, hua, hperm'⟩ := hgrant (a + m - 1) (by omega) (by omega)
        have hwu : w.Contains (a + m - 1) := ⟨by omega, by have := hwb.2; omega⟩
        rw [h.eq_of_contains hu hw hua hwu] at hperm'
        exact hperm'
      · refine ⟨hperm.1, fun hw hs => ?_⟩
        have hlow := hperm.2 hw hs
        rwa [max_eq_right (by omega)] at hlow ⊢

/-- A part of the range from its start on is accessible when the range is. -/
theorem Accessible.left (h : Accessible vmas write a n) (hle : m ≤ n) :
    Accessible vmas write a m :=
  ⟨h.1, by have := h.2.1; omega, fun b hb hb' => h.2.2 b hb (by omega)⟩

/-- Accessible ranges lie in user memory, far below the end of the address space. -/
theorem Accessible.lt (h : Accessible vmas write a n) : a + n < 2 ^ 32 := by
  have htop := h.2.1
  unfold userTop at htop
  omega

end

/-! ### Calls -/

section

variable {K : Type} {α : Type} {t : UserFiles K} {Q : α → UserFiles K → Prop}
  {E : Errno → UserFiles K → Prop} {H : SysPanic → Prop}

/-- A call on the files behaves as it does without the rest of the process. -/
theorem ends_onFiles (x : FilesM K α) :
    (onFiles x).Ends t Q E H ↔
      x.Ends t.io (fun a io => Q a { t with io := io }) (fun e io => E e { t with io := io })
        fun h => H (.fs h) := by
  unfold Routine.Ends onFiles
  cases x t.io with
  | error h => rfl
  | ok r =>
      obtain ⟨r, io⟩ := r
      cases r <;> rfl

/-- A copy from or to the process that does not fault goes on with the new memory. -/
theorem ends_onUser {x : Option MmStruct → Bytes → Except Halt (α × Option MmStruct × Bytes)}
    {a : α} {mm : Option MmStruct} {user : Bytes} (hx : x t.mm t.user = .ok (a, mm, user)) :
    (onUser x).Ends t Q E H ↔ Q a { t with mm := mm, user := user } := by
  unfold Routine.Ends onUser
  rw [hx]

end

section

variable {K : Type} [DecidableEq K] {k : K} {file : File} {files : Files K} {buf : List UInt8}
  {Q : IoResult → Files K → Prop} {E : Errno → Files K → Prop} {H : SfsPanic → Prop}
  {I : Finset Nat}

/-- The position of an open file moves by `n`. -/
def moved (file : File) (n : Nat) : File := { file with pos := file.pos + n }

/-- The position of the descriptor has moved, on a volume that may have changed. -/
def afterIo (files : Files K) (k : K) (file : File) (n : Nat) (sfs : Sfs) : Files K where
  sfs := sfs
  files := Function.update files.files k (some (moved file n))

omit [DecidableEq K] in
/-- `fd2file` of a descriptor that is open returns its entry. -/
theorem ends_fd2file {Q : File → Files K → Prop} (hfile : files.files k = some file) :
    (fd2file k).Ends files Q E H ↔ Q file files := by
  unfold Routine.Ends fd2file
  rw [hfile]

/-- A regular file has the functions of `sfs_node_fileops`. -/
theorem ends_vop_regular {i : Nat} {sfs : Sfs} {vop : Vop} {Q : Unit → Sfs → Prop}
    {E : Errno → Sfs → Prop} (hreg : RegularFile I i sfs)
    (hvop : vop.present SFS_TYPE_FILE = true) : (vop_op i vop).Ends sfs Q E H ↔ Q () sfs := by
  obtain ⟨sin, hsin, htype, hopen, href⟩ := hreg.used
  exact ends_vop_op hsin (by rw [htype]; exact hvop) hopen href

/-- `file_read` and `file_write` behind the check of the permission. -/
theorem ends_file_io (hreg : RegularFile I file.node files.sfs) (write : Bool) :
    (file_io k file buf write).Ends files Q E H ↔
      (sfs_io file.node buf file.pos write).Ends files.sfs
        (fun r sfs' => Q r (afterIo files k file r.alen sfs'))
        (fun e sfs' => E e { files with sfs := sfs' }) H := by
  unfold file_io onVolume setFile
  rw [Routine.ends_bind, Routine.ends_within,
    ends_vop_regular hreg (by cases write <;> decide), Routine.ends_bind, Routine.ends_within]
  rfl

/-- `file_read` of a readable descriptor is `sfs_io` at its position, which then moves. -/
theorem ends_file_read (hfile : files.files k = some file) (hread : file.readable = true)
    (hreg : RegularFile I file.node files.sfs) :
    (file_read k buf).Ends files Q E H ↔
      (sfs_io file.node buf file.pos false).Ends files.sfs
        (fun r sfs' => Q r (afterIo files k file r.alen sfs'))
        (fun e sfs' => E e { files with sfs := sfs' }) H := by
  unfold file_read
  rw [Routine.ends_bind, ends_fd2file hfile, Routine.ends_ite, if_neg (by rw [hread]; decide),
    ends_file_io hreg]

/-- `file_write` of a writable descriptor is `sfs_io` at its position, which then moves. -/
theorem ends_file_write (hfile : files.files k = some file) (hwrite : file.writable = true)
    (hreg : RegularFile I file.node files.sfs) :
    (file_write k buf).Ends files Q E H ↔
      (sfs_io file.node buf file.pos true).Ends files.sfs
        (fun r sfs' => Q r (afterIo files k file r.alen sfs'))
        (fun e sfs' => E e { files with sfs := sfs' }) H := by
  unfold file_write
  rw [Routine.ends_bind, ends_fd2file hfile, Routine.ends_ite, if_neg (by rw [hwrite]; decide),
    ends_file_io hreg]

end

/-! ### The copies -/

section

variable {vmas : List Vma} {mm : MmStruct} {user : Bytes} {a n : Nat}

/-- The process has these areas. -/
def HasAreas (vmas : List Vma) (mm : Option MmStruct) : Prop :=
  ∃ mm₁ : MmStruct, mm = some mm₁ ∧ mm₁.mmapList = vmas ∧ Ucore.Proofs.Mm.CacheOk mm₁

/-- `copy_to_user` writes all of the range, or it finds that the process may not write it and writes
nothing. -/
theorem copyToUser_eq (h : Sorted vmas) {mm : Option MmStruct} (hmm : HasAreas vmas mm)
    (user src : Bytes) (ha : a < 2 ^ 64) (hn : n < 2 ^ 64) (hpos : 0 < n) :
    ∃ b mm', HasAreas vmas mm' ∧ (b = true ↔ Accessible vmas true a n) ∧
      copyToUser mm user a src 0 n =
        .ok (b, mm', if b = true then user.overlay a (src.slice 0 n) else user) := by
  obtain ⟨mm₁, rfl, hlist, hcache⟩ := hmm
  obtain ⟨b, hb, hrun⟩ := userMemCheck_iff h ha hn hpos true
  obtain ⟨mm', hcheck, hlist', hcache'⟩ := hrun mm₁ hlist hcache
  refine ⟨b, some mm', ⟨mm', rfl, hlist', hcache'⟩, hb, ?_⟩
  unfold copyToUser
  rw [hcheck]
  cases b <;> rfl

/-- `copy_from_user` reads all of the range, or it finds that the process may not read it and reads
nothing. -/
theorem copyFromUser_eq (h : Sorted vmas) {mm : Option MmStruct} (hmm : HasAreas vmas mm)
    (user dst : Bytes) (ha : a < 2 ^ 64) (hn : n < 2 ^ 64) (hpos : 0 < n) :
    ∃ b mm', HasAreas vmas mm' ∧ (b = true ↔ Accessible vmas false a n) ∧
      copyFromUser mm user dst 0 a n false =
        .ok (b, mm', if b = true then dst.overlay 0 (user.slice a n) else dst) := by
  obtain ⟨mm₁, rfl, hlist, hcache⟩ := hmm
  obtain ⟨b, hb, hrun⟩ := userMemCheck_iff h ha hn hpos false
  obtain ⟨mm', hcheck, hlist', hcache'⟩ := hrun mm₁ hlist hcache
  refine ⟨b, some mm', ⟨mm', rfl, hlist', hcache'⟩, hb, ?_⟩
  unfold copyFromUser
  rw [hcheck]
  cases b <;> rfl

end

/-! ### `sysfile_read` -/

section

variable {K : Type} [DecidableEq K] {I : Finset Nat} {vmas : List Vma} {k : K} {file : File}
  {t t' t'' : UserFiles K} {buf : List UInt8} {p base len n m : Nat}

/-- The descriptor of a regular file, and the process that calls. -/
structure Opened (I : Finset Nat) (vmas : List Vma) (k : K) (file : File) (t : UserFiles K) :
    Prop where
  entry : t.io.files k = some file
  regular : RegularFile I file.node t.io.sfs
  areas : HasAreas vmas t.mm

/-- `n` bytes from the position `p` on have come to the process, and the position has moved by as
many. -/
structure ReadDone (I : Finset Nat) (vmas : List Vma) (k : K) (file : File) (p base n : Nat)
    (t t' : UserFiles K) : Prop where
  same : ReadSame I file.node t.io.sfs t'.io.sfs
  files : t'.io.files = Function.update t.io.files k (some (moved file n))
  user : t'.user = t.user.overlay base ((view t.io.sfs file.node).content.slice p n)
  areas : HasAreas vmas t'.mm

/-- Two moves of a position are one move by the sum. -/
theorem moved_moved (file : File) (m n : Nat) : moved (moved file m) n = moved file (m + n) := by
  unfold moved
  rw [Int.add_assoc, ← Int.natCast_add]

/-- A move by nothing changes nothing. -/
theorem moved_zero (file : File) : moved file 0 = file := by
  unfold moved
  rw [Int.natCast_zero, Int.add_zero]

/-- A transfer of nothing that leaves the volume alone changes nothing. -/
theorem afterIo_zero {files : Files K} (h : files.files k = some file) :
    afterIo files k file 0 files.sfs = files := by
  unfold afterIo
  rw [moved_zero, ← h, Function.update_eq_self]

/-- A descriptor is still one of an open regular file when its position has moved. -/
theorem opened_moved {sfs' : Sfs} (hreg : RegularFile I file.node sfs') {mm : Option MmStruct} (hmm : HasAreas vmas mm)
    (n : Nat) (user : Bytes) :
    Opened I vmas k (moved file n) ⟨afterIo t.io k file n sfs', mm, user⟩ :=
  ⟨Function.update_self .., hreg, hmm⟩

/-- Some bytes and then some more. -/
theorem ReadDone.trans (h : ReadDone I vmas k file p base m t t')
    (h' : ReadDone I vmas k (moved file m) (p + m) (base + m) n t' t'') :
    ReadDone I vmas k file p base (m + n) t t'' where
  same := h.same.trans h'.same
  files := by
    rw [h'.files, h.files, Function.update_idem, moved_moved]
  user := by
    have hlen := Bytes.length_slice (view t.io.sfs file.node).content p m
    have hcontent : (view t'.io.sfs (Fs.moved file m).node).content =
        (view t.io.sfs file.node).content := h.same.content
    rw [h'.user, h.user, hcontent, Bytes.slice_append, Bytes.overlay_append, hlen]
  areas := h'.areas

/-- One chunk, up to the copy. -/
theorem ends_read_chunk (h : Opened I vmas k file t) (hread : file.readable = true)
    (hpos : file.pos = p) (hmax : p < SFS_MAX_FILE_SIZE) (hlen : 0 < buf.length)
    (hfit : p + buf.length < 2 ^ 63) :
    (onFiles (file_read k buf)).attempt.Ends t
      (fun r t' => ∃ io sfs', r = .ok io ∧ ReadBy I file.node p buf.length t.io.sfs io sfs' ∧
        t' = { t with io := afterIo t.io k file io.alen sfs' }) (fun _ _ => False)
      fun _ => False := by
  rw [Routine.ends_attempt, ends_onFiles, ends_file_read h.entry hread h.regular, hpos]
  apply (ends_sfs_io_read h.regular buf hlen hmax hfit).mono
  · exact fun io sfs' hio => ⟨io, sfs', rfl, hio, rfl⟩
  · exact fun _ _ hno => hno.elim
  · exact fun _ hno => hno

/-- A chunk has been read that the process may not get: the position is ahead of the count. -/
def ReadRefused (k : K) (file : File) (copied : Nat) (out : Except Errno Unit × Nat)
    (t' : UserFiles K) : Prop :=
  ∃ e m d, out = (.error e, copied + m) ∧ 0 < d ∧ t'.io.files k = some (moved file (m + d))

/-- What the loop of `sysfile_read` leaves behind. -/
def ReadOut (I : Finset Nat) (vmas : List Vma) (k : K) (file : File) (p base len copied : Nat)
    (t : UserFiles K) (out : Except Errno Unit × Nat) (t' : UserFiles K) : Prop :=
  let n := min len (readEnd t.io.sfs file.node - p)
  (n = 0 ∨ Accessible vmas true base n) ∧ ReadDone I vmas k file p base n t t' ∧
      out.2 = copied + n ∧
      (n = 0 → 0 < len →
        out.1 = if p < (view t.io.sfs file.node).din.size then .error .noMem else .ok ()) ∨
    ¬ (n = 0 ∨ Accessible vmas true base n) ∧ ReadRefused k file copied out t'

/-- What can be read ends at the end of the file. -/
theorem readEnd_le (sfs : Sfs) (i : Nat) : readEnd sfs i ≤ (view sfs i).din.size := by
  unfold readEnd
  split_ifs with hcase
  · exact le_refl _
  · have hgt := (not_or.mp hcase).1
    omega

/-- The rounds behind one that has been copied. -/
theorem ReadOut.step {len copied : Nat} {out : Except Errno Unit × Nat}
    (hsorted : Sorted vmas) (h : ReadDone I vmas k file p base m t t') (hm : 0 < m)
    (hle : p + m ≤ readEnd t.io.sfs file.node) (hlen : m ≤ len) (hacc : Accessible vmas true base m)
    (hout : ReadOut I vmas k (moved file m) (p + m) (base + m) (len - m) (copied + m) t' out t'') :
    ReadOut I vmas k file p base len copied t out t'' := by
  have hend : readEnd t'.io.sfs (moved file m).node = readEnd t.io.sfs file.node :=
    h.same.readEnd
  unfold ReadOut at hout ⊢
  dsimp only at hout ⊢
  rw [hend] at hout
  have hn : min len (readEnd t.io.sfs file.node - p) =
      m + min (len - m) (readEnd t.io.sfs file.node - (p + m)) := by omega
  rw [hn]
  generalize min (len - m) (readEnd t.io.sfs file.node - (p + m)) = n at hout
  have hwhole : (m + n = 0 ∨ Accessible vmas true base (m + n)) ↔
      (n = 0 ∨ Accessible vmas true (base + m) n) := by
    by_cases hzero : n = 0
    · subst hzero
      exact iff_of_true (Or.inr hacc) (Or.inl rfl)
    · rw [accessible_add hsorted hm (by omega)]
      constructor
      · rintro (hsum | ⟨-, hrest⟩)
        · omega
        · exact Or.inr hrest
      · rintro (hno | hrest)
        · exact absurd hno hzero
        · exact Or.inr ⟨hacc, hrest⟩
  rw [hwhole]
  rcases hout with ⟨hn', hdone, hcount, -⟩ | ⟨hn', e, m', d, rfl, hd, hentry⟩
  · exact Or.inl ⟨hn', h.trans hdone, by omega, fun hno => by omega⟩
  · refine Or.inr ⟨hn', e, m + m', d, by rw [Nat.add_assoc], hd, ?_⟩
    rw [hentry, moved_moved, Nat.add_assoc]

/-- The loop of `sysfile_read`, with a buffer of any size. The induction is on the rounds that are
left. -/
theorem ends_read_loop (hsorted : Sorted vmas) {size : Nat} (hsize : 0 < size) :
    ∀ (fuel : Nat) (buffer : Bytes) (base len copied p : Nat) (file : File) (t : UserFiles K),
      len < fuel → Opened I vmas k file t → file.readable = true → file.pos = p →
      p < SFS_MAX_FILE_SIZE → size ≤ IOBUF_SIZE ∨ p + len < 2 ^ 63 → base < 2 ^ 64 →
      len < 2 ^ 64 →
      (sysfile_read_loop size k fuel buffer base len copied).Ends t
        (fun out t' => ReadOut I vmas k file p base len copied t out t') (fun _ _ => False)
        fun _ => False := by
  intro fuel
  induction fuel with
  | zero => exact fun _ _ _ _ _ _ _ hno => absurd hno (Nat.not_lt_zero _)
  | succ fuel ih =>
      intro buffer base len copied p file t hfuel h hread hpos hmax hfit hbase hlen
      have hconst : SFS_MAX_FILE_SIZE = 134217728 := rfl
      have hsize' : size ≤ 4096 ∨ p + len < 2 ^ 63 := hfit
      rw [sysfile_read_loop, Routine.ends_ite]
      by_cases hzero : len = 0
      -- Nothing is left to read.
      · rw [if_pos hzero, Routine.ends_pure]
        subst hzero
        have hn : min 0 (readEnd t.io.sfs file.node - p) = 0 := Nat.zero_min _
        refine Or.inl ⟨Or.inl hn, ⟨.refl h.regular, ?_, ?_, h.areas⟩, by omega, by omega⟩
        · rw [hn, moved_zero, ← h.entry, Function.update_eq_self]
        · rw [hn]
          exact (Bytes.overlay_nil _ _).symm
      · rw [if_neg hzero]
        have hchunk : (buffer.slice 0 (min size len)).length = min size len :=
          Bytes.length_slice ..
        -- `file_read` of one chunk into the buffer of the kernel. It may give fewer bytes than
        -- asked for.
        refine (ends_read_chunk h hread hpos hmax (by omega) (by omega)).seq ?_
          (fun _ _ hno => hno) fun _ hno => hno
        rintro r t' ⟨io, sfs', rfl, hio, rfl⟩
        rw [hchunk] at hio
        have halen := hio.alen
        have hend := readEnd_le t.io.sfs file.node
        have hbound := h.regular.bound
        dsimp only [ioDone]
        rw [Routine.ends_ite]
        by_cases hnone : io.alen = 0
        · -- the file ends here, or a block is missing
          have hn : min len (readEnd t.io.sfs file.node - p) = 0 := by omega
          rw [if_pos hnone, Routine.ends_pure, hnone]
          refine Or.inl ⟨Or.inl hn, ⟨hio.same, by rw [hn]; rfl, ?_, h.areas⟩, by omega,
            fun _ _ => hio.none hnone⟩
          rw [hn]
          exact (Bytes.overlay_nil _ _).symm
        · have hdata : (buffer.overlay 0 io.data).slice 0 io.alen = io.data := by
            have hsame := Bytes.slice_overlay_same buffer 0 io.data
            rwa [hio.data, Bytes.length_slice, ← hio.data] at hsame
          -- `copy_to_user` of what came. It looks at the areas of the process and may refuse.
          obtain ⟨b, mm', hmm', hb, hcopy⟩ := copyToUser_eq hsorted h.areas t.user
            (buffer.overlay 0 io.data) hbase (show io.alen < 2 ^ 64 by omega)
            (Nat.pos_of_ne_zero hnone)
          rw [hdata] at hcopy
          rw [if_neg hnone, Routine.ends_bind, ends_onUser hcopy, Routine.ends_ite]
          by_cases hok : b = false
          · -- the process may not get the chunk
            have hno : ¬ Accessible vmas true base io.alen := by
              rw [← hb, hok]
              exact Bool.false_ne_true
            rw [if_pos hok, Routine.ends_pure]
            refine Or.inr ⟨?_, ?_⟩
            · rintro (hno' | hacc)
              · omega
              · exact hno (hacc.left (by omega))
            -- The result is the error of `file_read` when there is one, and `-E_INVAL` otherwise.
            · obtain ⟨e, he⟩ : ∃ e, (if io.ret = .ok () then .error .inval else io.ret) =
                  (.error e : Except Errno Unit) := by
                cases hret : io.ret with
                | ok => exact ⟨.inval, if_pos rfl⟩
                | error e => exact ⟨e, if_neg (by simp)⟩
              refine ⟨e, 0, io.alen, by rw [he]; rfl, Nat.pos_of_ne_zero hnone, ?_⟩
              rw [Nat.zero_add]
              exact Function.update_self ..
          · have hacc : Accessible vmas true base io.alen :=
              hb.mp (Bool.eq_true_of_not_eq_false hok)
            have htop := hacc.lt
            have hdone : ReadDone I vmas k file p base io.alen t
                ⟨afterIo t.io k file io.alen sfs', mm', t.user.overlay base io.data⟩ :=
              ⟨hio.same, rfl, by rw [hio.data], hmm'⟩
            -- The chunk lies in an area, so its end does not wrap.
            have hmod : uintptr (base + io.alen) = base + io.alen := Nat.mod_eq_of_lt (by omega)
            rw [if_neg hok, if_pos (Bool.eq_true_of_not_eq_false hok), Routine.ends_bind,
              Routine.ends_assert, if_pos (by omega), Routine.ends_ite, hmod]
            by_cases hret : io.ret = .ok ()
            -- All went well: the next round starts behind the chunk, in the file and in the buffer.
            · rw [if_pos hret]
              apply (ih _ _ _ _ (p + io.alen) (moved file io.alen) _ (by omega)
                (opened_moved hio.same.regular hmm' _ _) hread
                (by unfold moved; rw [hpos, Int.natCast_add]) (by omega)
                (hfit.imp_right fun _ => by omega) (by omega) (by omega)).mono
              · intro out t' hout
                exact hout.step hsorted hdone (Nat.pos_of_ne_zero hnone) (by omega) (by omega)
                  hacc
              · exact fun _ _ hno => hno
              · exact fun _ hno => hno
            -- `file_read` returned an error behind some bytes. They count, and the loop ends.
            · have hshort := hio.short hret
              have hn : min len (readEnd t.io.sfs file.node - p) = io.alen := by omega
              rw [if_neg hret, Routine.ends_pure]
              unfold ReadOut
              rw [hn]
              exact Or.inl ⟨Or.inr hacc, hdone, rfl, fun hno => absurd hno hnone⟩

end

/-! ### `sysfile_write` -/

section

variable {K : Type} [DecidableEq K] {I : Finset Nat} {vmas : List Vma} {k : K} {file : File}
  {t t' t'' : UserFiles K} {buf : List UInt8} {p base len copied n m : Nat}
  {out : Except Errno Unit × Nat}

/-- `n` bytes of the process have come to the file at the position `p`, and the position has moved
by as many. -/
structure WriteDone (I : Finset Nat) (vmas : List Vma) (k : K) (file : File) (p base n : Nat)
    (t t' : UserFiles K) : Prop where
  regular : RegularFile I file.node t'.io.sfs
  kept : Kept I file.node t.io.sfs t'.io.sfs
  content : (view t'.io.sfs file.node).content =
    (view t.io.sfs file.node).content.overlay p (t.user.slice base n)
  size : (view t'.io.sfs file.node).din.size =
      max (view t.io.sfs file.node).din.size (p + n) ∨
    n = 0 ∧ (view t'.io.sfs file.node).din.size = (view t.io.sfs file.node).din.size
  bound : 0 < n → p + n ≤ 1036 * 4096
  files : t'.io.files = Function.update t.io.files k (some (moved file n))
  user : t'.user = t.user
  areas : HasAreas vmas t'.mm

/-- The range has been written by one transfer. -/
structure WriteWhole (I : Finset Nat) (k : K) (file : File) (p base len copied : Nat)
    (t : UserFiles K) (r : IoResult) (out : Except Errno Unit × Nat) (t' : UserFiles K) :
    Prop where
  index : p / 4096 ≤ (view t.io.sfs file.node).din.blocks
  transferred : Transferred I file.node true p (min (p + len) SFS_MAX_FILE_SIZE)
    (t.user.slice base len) t.io.sfs r t'.io.sfs
  out : out = (r.ret, copied + r.alen)
  files : t'.io.files = Function.update t.io.files k (some (moved file r.alen))

/-- A write of nothing has changed at most the cache of areas. -/
theorem WriteDone.none (h : Opened I vmas k file t) {mm : Option MmStruct}
    (hmm : HasAreas vmas mm) : WriteDone I vmas k file p base 0 t { t with mm := mm } where
  regular := h.regular
  kept := Kept.refl _
  content := (Bytes.overlay_nil _ _).symm
  size := Or.inr ⟨rfl, rfl⟩
  bound := fun hno => absurd hno (Nat.lt_irrefl 0)
  files := by rw [moved_zero, ← h.entry, Function.update_eq_self]
  user := rfl
  areas := hmm

/-- A chunk and the chunks behind it make one write. -/
theorem WriteDone.trans (h : WriteDone I vmas k file p base m t t') (hm : 0 < m)
    (h' : WriteDone I vmas k (moved file m) (p + m) (base + m) n t' t'') :
    WriteDone I vmas k file p base (m + n) t t'' where
  regular := h'.regular
  kept := h.kept.trans h'.kept
  content := by
    have hlen := Bytes.length_slice t.user base m
    have hcontent := h'.content
    rw [h.user] at hcontent
    rw [Bytes.slice_append, Bytes.overlay_append, hlen, ← h.content]
    exact hcontent
  size := by
    have hsize := h.size
    have hsize' : (view t''.io.sfs file.node).din.size =
          max (view t'.io.sfs file.node).din.size (p + m + n) ∨
        n = 0 ∧ (view t''.io.sfs file.node).din.size = (view t'.io.sfs file.node).din.size :=
      h'.size
    omega
  bound := by
    intro hpos
    have hbound := h'.bound
    have hbound' := h.bound
    omega
  files := by
    rw [h'.files, h.files, Function.update_idem, moved_moved]
  user := h'.user.trans h.user
  areas := h'.areas

/-- What one transfer has done. -/
theorem Transferred.writeDone {sfs' : Sfs} {r : IoResult} {e : Nat} {mm : Option MmStruct}
    (h : Transferred I file.node true p e (t.user.slice base len) t.io.sfs r sfs')
    (hopen : Opened I vmas k file t) (hmm : HasAreas vmas mm) (hlt : p < e) (hle : e ≤ p + len) :
    WriteDone I vmas k file p base r.alen t ⟨afterIo t.io k file r.alen sfs', mm, t.user⟩ where
  regular := h.regular hopen.regular hlt
  kept := h.kept
  content := by
    have hcontent := h.content
    have halen : r.alen ≤ len := by
      rcases h.ret with ⟨-, hend⟩ | ⟨-, hstop, -⟩ <;> omega
    rwa [if_pos rfl, Bytes.slice_take, min_eq_left halen] at hcontent
  size := Or.inl h.size
  bound := h.bound
  files := rfl
  user := rfl
  areas := hmm

/-- One chunk of `sysfile_write`, behind the copy. -/
theorem ends_write_chunk (h : Opened I vmas k file t) (hwrite : file.writable = true)
    (hpos : file.pos = p) (hmax : p < SFS_MAX_FILE_SIZE) (hlen : 0 < buf.length)
    (hfit : p + buf.length < 2 ^ 63) :
    (onFiles (file_write k buf)).attempt.Ends t
      (fun r t' => ∃ io sfs', r = .ok io ∧ p / 4096 ≤ (view t.io.sfs file.node).din.blocks ∧
        Transferred I file.node true p (min (p + buf.length) SFS_MAX_FILE_SIZE) buf t.io.sfs io
          sfs' ∧
        t' = { t with io := afterIo t.io k file io.alen sfs' }) (fun _ _ => False)
      fun h => (∃ h', h = .fs h') ∧
        WriteStops t.io.sfs file.node p (min (p + buf.length) SFS_MAX_FILE_SIZE) := by
  rw [Routine.ends_attempt, ends_onFiles, ends_file_write h.entry hwrite h.regular, hpos]
  apply (ends_sfs_io_write h.regular buf hlen hmax hfit).mono
  · exact fun io sfs' hio => ⟨io, sfs', rfl, hio.1, hio.2, rfl⟩
  · exact fun _ _ hno => hno.elim
  · exact fun h' hstop => ⟨⟨h', rfl⟩, hstop⟩

omit [DecidableEq K] in
/-- The copy of a chunk into the buffer either has all its bytes or is refused. -/
theorem ends_bufferFromUser (hsorted : Sorted vmas) (hmm : HasAreas vmas t.mm) (buffer : Bytes)
    (hbase : base < 2 ^ 64) (hlen : len < 2 ^ 64) (hpos : 0 < len)
    {Q : Bool × Bytes → UserFiles K → Prop} {E : Errno → UserFiles K → Prop}
    {H : SysPanic → Prop} :
    ∃ b mm', HasAreas vmas mm' ∧ (b = true ↔ Accessible vmas false base len) ∧
      ((bufferFromUser buffer base len).Ends t Q E H ↔
        Q (b, if b = true then buffer.overlay 0 (t.user.slice base len) else buffer)
          { t with mm := mm' }) := by
  obtain ⟨b, mm', hmm', hb, hcopy⟩ := copyFromUser_eq hsorted hmm t.user buffer hbase hlen hpos
  refine ⟨b, mm', hmm', hb, ?_⟩
  unfold bufferFromUser
  apply ends_onUser
  rw [hcopy]
  rfl

/-- The process may not read all of the range, and some of it has been written. -/
def WritePart (I : Finset Nat) (vmas : List Vma) (k : K) (file : File)
    (p base len copied size : Nat) (t : UserFiles K) (out : Except Errno Unit × Nat)
    (t' : UserFiles K) : Prop :=
  ∃ e n, WriteDone I vmas k file p base n t t' ∧ out = (.error e, copied + n) ∧
    (Accessible vmas false base (min size len) → 0 < n ∨ e = .noMem) ∧
    (¬ Accessible vmas false base (min size len) →
      n = 0 ∧ e = .inval ∧ t'.io.sfs = t.io.sfs)

/-- What the loop of `sysfile_write` leaves behind. -/
def WriteOut (I : Finset Nat) (vmas : List Vma) (k : K) (file : File)
    (p base len copied size : Nat) (t : UserFiles K) (out : Except Errno Unit × Nat)
    (t' : UserFiles K) : Prop :=
  Accessible vmas false base len ∧ HasAreas vmas t'.mm ∧ t'.user = t.user ∧
      (∃ r, WriteWhole I k file p base len copied t r out t') ∨
    ¬ Accessible vmas false base len ∧ WritePart I vmas k file p base len copied size t out t'

/-- The rounds behind a chunk that has been written. -/
theorem WriteOut.step {size c : Nat} {sfs' : Sfs} {r : IoResult} {mm : Option MmStruct}
    (hsorted : Sorted vmas) (hopen : Opened I vmas k file t)
    (hindex : p / 4096 ≤ (view t.io.sfs file.node).din.blocks)
    (h : Transferred I file.node true p (min (p + c) SFS_MAX_FILE_SIZE) (t.user.slice base c)
      t.io.sfs r sfs') (hmm : HasAreas vmas mm) (hlt : p < min (p + c) SFS_MAX_FILE_SIZE)
    (halen : r.alen = c) (hc : c = min size len) (hrest : c < len) (hpos : 0 < c)
    (hacc : Accessible vmas false base c)
    (hout : WriteOut I vmas k (moved file c) (p + c) (base + c) (len - c) (copied + c) size
      ⟨afterIo t.io k file c sfs', mm, t.user⟩ out t'') :
    WriteOut I vmas k file p base len copied size t out t'' := by
  have hlen : len = c + (len - c) := by omega
  have hboth : Accessible vmas false base len ↔ Accessible vmas false (base + c) (len - c) := by
    conv_lhs => rw [hlen]
    rw [accessible_add hsorted hpos (by omega)]
    exact and_iff_right hacc
  have hdone := h.writeDone hopen hmm hlt (min_le_left _ _)
  rw [halen] at hdone
  unfold WriteOut
  rw [hboth]
  rcases hout with ⟨hacc', hmm', huser, r', hwhole⟩ | ⟨hno, e, n, hpart, hpair, -, -⟩
  · refine Or.inl ⟨hacc', hmm', huser, { r' with alen := c + r'.alen }, hindex, ?_, ?_, ?_⟩
    · have hslice : (t.user.slice base c).length = c := Bytes.length_slice ..
      have hsum : t.user.slice base len =
          t.user.slice base c ++ t.user.slice (base + c) (len - c) := by
        rw [← Bytes.slice_append, ← hlen]
      have hsecond := hwhole.transferred
      rw [Nat.add_assoc, ← hlen] at hsecond
      rw [hsum]
      have htrans := h.trans (by rw [halen, hslice]) (by omega)
        (by rw [hslice]; exact hsecond)
      rwa [hslice] at htrans
    · rw [hwhole.out, Nat.add_assoc]
    · rw [hwhole.files, hdone.files, Function.update_idem, moved_moved]
  · refine Or.inr ⟨hno, e, c + n, hdone.trans hpos hpart, by rw [hpair, Nat.add_assoc],
      fun _ => Or.inl (by omega), fun hfirst => absurd ?_ hfirst⟩
    rwa [← hc]

/-- The one error of a transfer is that there are no free blocks. -/
theorem Transferred.ret_of_ne {i e : Nat} {sfs sfs' : Sfs} {r : IoResult} {write : Bool}
    (h : Transferred I i write p e buf sfs r sfs') (hret : r.ret ≠ .ok ()) :
    r.ret = .error .noMem := by
  rcases h.ret with ⟨hok, -⟩ | ⟨hno, -⟩
  · exact absurd hok hret
  · exact hno

/-- A write that goes on has written its chunk: the limit on the size lies behind the block map. -/
theorem Transferred.alen_eq {i e : Nat} {sfs sfs' : Sfs} {r : IoResult}
    (h : Transferred I i true p (min e SFS_MAX_FILE_SIZE) buf sfs r sfs')
    (hret : r.ret = .ok ()) (hlt : p < min e SFS_MAX_FILE_SIZE) : p + r.alen = e := by
  have hconst : SFS_MAX_FILE_SIZE = 134217728 := rfl
  rcases h.ret with ⟨-, hend⟩ | ⟨hno, -⟩
  · have hbound := h.bound (by omega)
    omega
  · rw [hret] at hno
    cases hno

/-- The chunks of a write stop in the file system: the process may read some chunks from the first
one on, and a transfer of these stops. -/
def ChunksStop (vmas : List Vma) (size : Nat) (sfs : Sfs) (i p base len : Nat) : Prop :=
  ∃ m, 0 < m ∧ m ≤ len ∧ (m = len ∨ size ∣ m) ∧ Accessible vmas false base m ∧
    WriteStops sfs i p (min (p + m) SFS_MAX_FILE_SIZE)

/-- No chunk is shorter than the first one, except that there is no other. -/
theorem chunk_le {size m : Nat} (hm : 0 < m) (hchunk : m = len ∨ size ∣ m) :
    min size len ≤ m := by
  rcases hchunk with rfl | hdvd
  · exact min_le_right _ _
  · exact le_trans (min_le_left _ _) (Nat.le_of_dvd hm hdvd)

/-- When some chunks stop, the process may read the first one. -/
theorem ChunksStop.accessible {size : Nat} {sfs : Sfs} {i : Nat}
    (h : ChunksStop vmas size sfs i p base len) : Accessible vmas false base (min size len) := by
  obtain ⟨m, hm, -, hchunk, hacc, -⟩ := h
  exact hacc.left (chunk_le hm hchunk)

/-- One chunk is one transfer. -/
theorem ChunksStop.whole {sfs : Sfs} {i : Nat} (h : ChunksStop vmas len sfs i p base len) :
    Accessible vmas false base len ∧
      WriteStops sfs i p (min (p + len) SFS_MAX_FILE_SIZE) := by
  obtain ⟨m, hm, hle, hchunk, hacc, hstop⟩ := h
  have hmin := chunk_le hm hchunk
  rw [Nat.min_self] at hmin
  obtain rfl : m = len := Nat.le_antisymm hle hmin
  exact ⟨hacc, hstop⟩

/-- When a transfer of the first chunk and of all that is behind it do not stop, no transfer of
chunks does. -/
theorem not_chunksStop {size : Nat} {sfs : Sfs} {i : Nat}
    (h : ∀ m, min size len ≤ m → m ≤ len →
      ¬ WriteStops sfs i p (min (p + m) SFS_MAX_FILE_SIZE)) :
    ¬ ChunksStop vmas size sfs i p base len := by
  rintro ⟨m, hm, hle, hchunk, -, hstop⟩
  exact h m (chunk_le hm hchunk) hle hstop

/-- The chunks stop behind a chunk that has been written if and only if they stop. -/
theorem Transferred.chunksStop_iff {size c e i : Nat} {sfs sfs' : Sfs} {r : IoResult}
    (hsorted : Sorted vmas) (h : Transferred I i true p (min e SFS_MAX_FILE_SIZE) buf sfs r sfs')
    (hret : r.ret = .ok ()) (he : e = p + c) (hlt : p < min e SFS_MAX_FILE_SIZE)
    (hindex : p / 4096 ≤ (view sfs i).din.blocks) (hacc : Accessible vmas false base c)
    (hc : c = min size len) (hrest : c < len) (hpos : 0 < c) :
    ChunksStop vmas size sfs' i (p + c) (base + c) (len - c) ↔
      ChunksStop vmas size sfs i p base len := by
  have halen : r.alen = c := by
    have hend := h.alen_eq hret hlt
    omega
  have hstops : ∀ m, WriteStops sfs' i (p + c) (min (p + c + m) SFS_MAX_FILE_SIZE) ↔
      WriteStops sfs i p (min (p + (c + m)) SFS_MAX_FILE_SIZE) := by
    intro m
    have hiff : WriteStops sfs' i (p + r.alen) (min (p + c + m) SFS_MAX_FILE_SIZE) ↔
        WriteStops sfs i p (min (p + c + m) SFS_MAX_FILE_SIZE) := h.stops_iff (by omega) hindex
    rw [halen] at hiff
    rwa [← Nat.add_assoc]
  have hsize : c = size := by omega
  constructor
  · rintro ⟨m, hm, hle, hchunk, hrest', hstop⟩
    refine ⟨c + m, by omega, by omega, ?_, ?_, (hstops m).mp hstop⟩
    · rcases hchunk with rfl | hdvd
      · exact Or.inl (by omega)
      · exact Or.inr (hsize ▸ Nat.dvd_add_self_left.mpr (hsize ▸ hdvd))
    · exact (accessible_add hsorted hpos hm).mpr ⟨hacc, hrest'⟩
  · rintro ⟨m, hm, hle, hchunk, haccm, hstop⟩
    rcases Nat.eq_or_lt_of_le (chunk_le hm hchunk) with heq | hmore
    · -- the first chunk did not stop
      have hm : m = c := by omega
      rw [hm, ← he] at hstop
      exact absurd hstop (h.not_stops hlt hindex)
    · obtain ⟨d, rfl⟩ := Nat.exists_eq_add_of_le (show c ≤ m by omega)
      have hd : 0 < d := by omega
      refine ⟨d, hd, by omega, ?_, ((accessible_add hsorted hpos hd).mp haccm).2,
        (hstops d).mpr hstop⟩
      rcases hchunk with heq | hdvd
      · exact Or.inl (by omega)
      · exact Or.inr ((Nat.dvd_add_right (dvd_of_eq hsize.symm)).mp hdvd)

/-- The loop of `sysfile_write` ends when nothing is left. -/
theorem ends_write_loop_zero {size fuel : Nat} {buffer : Bytes} (hfuel : 0 < fuel) (hlen : len = 0)
    {Q : Except Errno Unit × Nat → UserFiles K → Prop} {E : Errno → UserFiles K → Prop}
    {H : SysPanic → Prop} :
    (sysfile_write_loop size k fuel buffer base len copied).Ends t Q E H ↔
      Q (.ok (), copied) t := by
  cases fuel with
  | zero => exact absurd hfuel (Nat.lt_irrefl 0)
  | succ fuel => rw [sysfile_write_loop, if_pos hlen, Routine.ends_pure]

/-- The loop of `sysfile_write`, with a buffer of any size: it stops if and only if its chunks do.
The induction is on the rounds that are left. -/
theorem ends_write_loop (hsorted : Sorted vmas) {size : Nat} (hsize : 0 < size) :
    ∀ (fuel : Nat) (buffer : Bytes) (base len copied p : Nat) (file : File) (t : UserFiles K),
      0 < len → len < fuel → Opened I vmas k file t → file.writable = true → file.pos = p →
      p < SFS_MAX_FILE_SIZE → base < 2 ^ 64 → len < 2 ^ 64 →
      (sysfile_write_loop size k fuel buffer base len copied).Ends t
        (fun out t' => WriteOut I vmas k file p base len copied size t out t' ∧
          ¬ ChunksStop vmas size t.io.sfs file.node p base len)
        (fun _ _ => False)
        fun h => (∃ h', h = .fs h') ∧
          ChunksStop vmas size t.io.sfs file.node p base len := by
  intro fuel
  -- The induction is on the rounds that are left. `c` is the size of this chunk.
  induction fuel with
  | zero => exact fun _ _ _ _ _ _ _ _ hno => absurd hno (Nat.not_lt_zero _)
  | succ fuel ih =>
      intro buffer base len copied p file t hlen hfuel h hwrite hpos hmax hbase hlen'
      obtain ⟨c, hc⟩ : ∃ c, c = min size len := ⟨_, rfl⟩
      rw [sysfile_write_loop, Routine.ends_ite, if_neg (by omega), ← hc, Routine.ends_bind]
      obtain ⟨b, mm', hmm', hb, hcopy⟩ := ends_bufferFromUser hsorted h.areas buffer hbase
        (show c < 2 ^ 64 by omega) (by omega)
      rw [hcopy]
      dsimp only
      rw [Routine.ends_ite]
      by_cases hok : b = false
      · -- the process may not read the chunk
        have hno : ¬ Accessible vmas false base c := by
          rw [← hb, hok]
          exact Bool.false_ne_true
        rw [if_pos hok, Routine.ends_pure]
        refine ⟨Or.inr ⟨fun hacc => hno (hacc.left (by omega)), .inval, 0,
          .none h hmm', rfl, fun hacc => ?_, fun _ => ⟨rfl, rfl, rfl⟩⟩,
          fun hstop => hno (hc ▸ hstop.accessible)⟩
        rw [← hc] at hacc
        exact absurd hacc hno
      · have hacc : Accessible vmas false base c := hb.mp (Bool.eq_true_of_not_eq_false hok)
        have htop := hacc.lt
        have hconst : SFS_MAX_FILE_SIZE = 134217728 := rfl
        rw [if_neg hok, if_pos (Bool.eq_true_of_not_eq_false hok)]
        have hdata : (buffer.overlay 0 (t.user.slice base c)).slice 0 c =
            t.user.slice base c := by
          have hsame := Bytes.slice_overlay_same buffer 0 (t.user.slice base c)
          rwa [Bytes.length_slice] at hsame
        have hslice : (t.user.slice base c).length = c := Bytes.length_slice ..
        have hopen : Opened I vmas k file { t with mm := mm' } := ⟨h.entry, h.regular, hmm'⟩
        rw [hdata]
        refine (ends_write_chunk hopen hwrite hpos hmax (by omega) (by rw [hslice]; omega)).seq ?_
          (fun _ _ hno => hno) ?_
        · rintro r t' ⟨io, sfs', rfl, hindex, htrans, rfl⟩
          rw [hslice] at htrans
          have hlt : p < min (p + c) SFS_MAX_FILE_SIZE := by omega
          -- A transfer that has found no block would have moved the same bytes with more behind
          -- them.
          have hends : ∀ m, c ≤ m → io.ret ≠ .ok () → Transferred I file.node true p
              (min (p + m) SFS_MAX_FILE_SIZE) (t.user.slice base m) t.io.sfs io sfs' := by
            intro m hm hret
            have hext := htrans.extend (min (p + m) SFS_MAX_FILE_SIZE)
              (t.user.slice (base + c) (m - c)) hret (by omega) (by omega)
            rwa [← Bytes.slice_append, show c + (m - c) = m by omega] at hext
          -- a write that has found no block is not stopped, however far it goes on
          have hfull : io.ret ≠ .ok () →
              ¬ ChunksStop vmas size t.io.sfs file.node p base len := fun hret =>
            not_chunksStop fun m hm _ =>
              (hends m (by omega) hret).not_stops (by omega) hindex
          have hdone := htrans.writeDone h hmm' hlt (min_le_left _ _)
          dsimp only
          rw [show ioDone (.ok io) = io from rfl, Routine.ends_ite]
          by_cases hnone : io.alen = 0
          · -- there is no block for the chunk
            have hret : io.ret ≠ .ok () := by
              intro hok
              have hend := htrans.alen_eq hok hlt
              omega
            have hfail := htrans.ret_of_ne hret
            rw [if_pos hnone, Routine.ends_pure]
            refine ⟨?_, hfull hret⟩
            by_cases hall : Accessible vmas false base len
            · exact Or.inl ⟨hall, hmm', rfl, io, hindex, hends len (by omega) hret,
                by rw [hnone]; rfl, rfl⟩
            · refine Or.inr ⟨hall, .noMem, io.alen, hdone, by rw [hfail, hnone]; rfl,
                fun _ => Or.inr rfl, fun hno => ?_⟩
              rw [← hc] at hno
              exact absurd hacc hno
          · have hle : io.alen ≤ c := by
              rcases htrans.ret with ⟨-, hend⟩ | ⟨-, hstop, -⟩ <;> omega
            have hmod : uintptr (base + io.alen) = base + io.alen := Nat.mod_eq_of_lt (by omega)
            rw [if_neg hnone, Routine.ends_bind, Routine.ends_assert, if_pos (by omega),
              Routine.ends_ite, hmod]
            by_cases hret : io.ret = .ok ()
            · have halen : io.alen = c := by
                have hend := htrans.alen_eq hret hlt
                omega
              have hbound := htrans.bound (Nat.pos_of_ne_zero hnone)
              rw [if_pos hret, halen]
              rw [halen] at hdone hbound
              -- More is left. The rest stops the kernel if and only if the whole does.
              by_cases hrest : c < len
              · have hiff := htrans.chunksStop_iff hsorted hret rfl hlt hindex hacc hc hrest
                  (by omega)
                apply (ih _ _ _ _ (p + c) (moved file c) _ (by omega) (by omega)
                  (opened_moved hdone.regular hmm' _ _) hwrite
                  (by unfold moved; rw [hpos, Int.natCast_add]) (by omega) (by omega)
                  (by omega)).mono
                · rintro out t' ⟨hout, hgoes⟩
                  exact ⟨hout.step hsorted h hindex htrans hmm' hlt halen hc hrest (by omega)
                    hacc, fun hstop => hgoes (hiff.mpr hstop)⟩
                · exact fun _ _ hno => hno
                · exact fun h' hstop => ⟨hstop.1, hiff.mp hstop.2⟩
              · -- that was the last chunk
                have hwhole : c = len := by omega
                subst hwhole
                rw [ends_write_loop_zero (by omega) (Nat.sub_self _)]
                refine ⟨Or.inl ⟨hacc, hmm', rfl, io, hindex, htrans, by rw [hret, halen], by
                  rw [halen]; rfl⟩, not_chunksStop fun m hm hle => ?_⟩
                obtain rfl : m = c := by omega
                exact htrans.not_stops hlt hindex
            · have hfail := htrans.ret_of_ne hret
              rw [if_neg hret, Routine.ends_pure]
              refine ⟨?_, hfull hret⟩
              by_cases hall : Accessible vmas false base len
              · exact Or.inl ⟨hall, hmm', rfl, io, hindex, hends len (by omega) hret, rfl, rfl⟩
              · refine Or.inr ⟨hall, .noMem, io.alen, hdone, by rw [hfail],
                  fun _ => Or.inr rfl, fun hno => ?_⟩
                rw [← hc] at hno
                exact absurd hacc hno
        · rintro h' ⟨hfs, hstop⟩
          rw [hslice] at hstop
          refine ⟨hfs, c, by omega, by omega, ?_, hacc, hstop⟩
          rcases min_choice size len with hsize | hwhole
          · exact Or.inr (dvd_of_eq (by omega))
          · exact Or.inl (by omega)

/-! ### Positions that are refused -/

/-- A read whose range is invalid stops at the first chunk. -/
theorem ends_read_loop_invalid (buffer : Bytes) (base copied : Nat) (h : Opened I vmas k file t)
    (hread : file.readable = true) {size fuel : Nat} (hlen : 0 < len) (hfuel : 0 < fuel)
    (hbad : IoInvalid file.pos (min size len)) :
    (sysfile_read_loop size k fuel buffer base len copied).Ends t
      (fun out t' => out = (.error .inval, copied) ∧ t' = t) (fun _ _ => False)
      fun _ => False := by
  cases fuel with
  | zero => exact absurd hfuel (Nat.lt_irrefl 0)
  | succ fuel =>
      have hio := sfs_io_invalid h.regular (buffer.slice 0 (min size len)) false
        (by rwa [Bytes.length_slice])
      rw [sysfile_read_loop, Routine.ends_ite, if_neg (by omega), Routine.ends_bind,
        Routine.ends_attempt, ends_onFiles, ends_file_read h.entry hread h.regular]
      unfold Routine.Ends
      rw [hio]
      dsimp only
      rw [afterIo_zero h.entry]
      exact ⟨rfl, rfl⟩

/-- A write whose range is invalid stops at the first chunk, whether the process may read it or
not. -/
theorem ends_write_loop_invalid (buffer : Bytes) (copied : Nat) (hsorted : Sorted vmas)
    (h : Opened I vmas k file t) (hwrite : file.writable = true) {size fuel : Nat} (hlen : 0 < len)
    (hsize : 0 < size) (hfuel : 0 < fuel) (hbase : base < 2 ^ 64) (hlen' : len < 2 ^ 64)
    (hbad : IoInvalid file.pos (min size len)) :
    (sysfile_write_loop size k fuel buffer base len copied).Ends t
      (fun out t' => out = (.error .inval, copied) ∧ ∃ mm, t' = { t with mm := mm })
      (fun _ _ => False) fun _ => False := by
  cases fuel with
  | zero => exact absurd hfuel (Nat.lt_irrefl 0)
  | succ fuel =>
      rw [sysfile_write_loop, Routine.ends_ite, if_neg (by omega), Routine.ends_bind]
      obtain ⟨b, mm', hmm', -, hcopy⟩ := ends_bufferFromUser hsorted h.areas buffer hbase
        (show min size len < 2 ^ 64 by omega) (by omega)
      rw [hcopy]
      dsimp only
      rw [Routine.ends_ite]
      by_cases hok : b = false
      · rw [if_pos hok, Routine.ends_pure]
        exact ⟨rfl, mm', rfl⟩
      · have hopen : Opened I vmas k file { t with mm := mm' } := ⟨h.entry, h.regular, hmm'⟩
        have hio := fun buf : Bytes => sfs_io_invalid h.regular (buf.slice 0 (min size len)) true
          (by rwa [Bytes.length_slice])
        rw [if_neg hok, Routine.ends_bind, Routine.ends_attempt, ends_onFiles,
          ends_file_write hopen.entry hwrite hopen.regular]
        unfold Routine.Ends
        rw [hio]
        dsimp only
        rw [afterIo_zero h.entry]
        exact ⟨rfl, mm', rfl⟩

end

/-! ### The calls -/

section

variable {K : Type} [DecidableEq K] {I : Finset Nat} {vmas : List Vma} {k : K} {file : File}
  {t t' : UserFiles K} {size base len : Nat} {kmalloc : Option Bytes} {buffer : Bytes}
  {out : Except Errno Unit × Nat}

/-- What a call returns behind its loop. -/
def outOf (out : Except Errno Unit × Nat) : Except Errno Int :=
  if out.2 ≠ 0 then .ok (Ucore.Fs.toInt out.2) else out.1.map fun _ => 0

omit [DecidableEq K] in
/-- The label `out` returns the count, or the error when nothing was copied. -/
theorem ends_sysfile_out {Q : Int → UserFiles K → Prop} {E : Errno → UserFiles K → Prop}
    {H : SysPanic → Prop} :
    (sysfile_out out).Ends t Q E H ↔
      (∀ n, outOf out = .ok n → Q n t) ∧ ∀ e, outOf out = .error e → E e t := by
  obtain ⟨ret, copied⟩ := out
  have hrun : sysfile_out (ret, copied) t = .ok (outOf (ret, copied), t) := by
    cases ret <;> cases copied <;> rfl
  unfold Routine.Ends
  rw [hrun]
  cases outOf (ret, copied) <;> simp

/-- A call that ends in front of its loop. -/
def early (len : Nat) (allowed : Bool) (kmalloc : Option Bytes) : Option (Except Errno Int) :=
  if len = 0 then some (.ok 0)
  else if allowed = false then some (.error .inval)
  else if kmalloc = none then some (.error .noMem)
  else none

omit [DecidableEq K] in
/-- `file_testfd` compares the access asked for with that of the descriptor. -/
theorem ends_file_testfd (h : t.io.files k = some file) (readable writable : Bool)
    {Q : Bool → UserFiles K → Prop} {E : Errno → UserFiles K → Prop} {H : SysPanic → Prop} :
    (onFiles (file_testfd k readable writable)).Ends t Q E H ↔
      Q (!(readable && !file.readable) && !(writable && !file.writable)) t := by
  rw [ends_onFiles]
  unfold file_testfd
  rw [Routine.ends_read, h]

/-- A read that ends in front of its loop changes nothing. -/
theorem sysfileRead_early {r : Except Errno Int} (h : t.io.files k = some file)
    (hearly : early len file.readable kmalloc = some r) :
    sysfileRead size k base len kmalloc t = .ok (r, t) := by
  apply Routine.Ends.run
  unfold early at hearly
  unfold sysfileRead
  rw [Routine.ends_ite]
  split_ifs at hearly with hlen hread hmem
  · rw [if_pos hlen]
    exact ⟨Option.some.inj hearly, rfl⟩
  · rw [if_neg hlen, Routine.ends_bind, ends_file_testfd h, Routine.ends_ite,
      if_pos (by rw [hread]; rfl)]
    exact ⟨Option.some.inj hearly, rfl⟩
  · rw [if_neg hlen, Routine.ends_bind, ends_file_testfd h, Routine.ends_ite,
      if_neg (by simpa using hread), hmem]
    exact ⟨Option.some.inj hearly, rfl⟩

/-- What is known in the loop: there are bytes to move, the access is granted and there is a
buffer. -/
theorem early_none {allowed : Bool} (hearly : early len allowed kmalloc = none) :
    0 < len ∧ allowed = true ∧ ∃ buffer, kmalloc = some buffer := by
  unfold early at hearly
  split_ifs at hearly with hlen hallowed hmem
  refine ⟨Nat.pos_of_ne_zero hlen, Bool.eq_true_of_not_eq_false hallowed, ?_⟩
  exact Option.ne_none_iff_exists'.mp hmem

/-- A read returns what its loop makes of it. -/
theorem sysfileRead_loop (h : t.io.files k = some file) (hlen : 0 < len)
    (hread : file.readable = true)
    (hloop : sysfile_read_loop size k (len + 1) buffer base len 0 t = .ok (.ok out, t')) :
    sysfileRead size k base len (some buffer) t = .ok (outOf out, t') := by
  apply Routine.Ends.run
  unfold sysfileRead
  rw [Routine.ends_ite, if_neg (by omega), Routine.ends_bind, ends_file_testfd h,
    Routine.ends_ite, if_neg (by simp [hread]), Routine.ends_bind]
  unfold Routine.Ends
  rw [hloop]
  exact ends_sysfile_out.mpr ⟨fun n hn => ⟨hn.symm, rfl⟩, fun e he => ⟨he.symm, rfl⟩⟩

/-- A write that ends in front of its loop changes nothing. -/
theorem sysfileWrite_early {r : Except Errno Int} (h : t.io.files k = some file)
    (hearly : early len file.writable kmalloc = some r) :
    sysfileWrite size k base len kmalloc t = .ok (r, t) := by
  apply Routine.Ends.run
  unfold early at hearly
  unfold sysfileWrite
  rw [Routine.ends_ite]
  split_ifs at hearly with hlen hwrite hmem
  · rw [if_pos hlen]
    exact ⟨Option.some.inj hearly, rfl⟩
  · rw [if_neg hlen, Routine.ends_bind, ends_file_testfd h, Routine.ends_ite,
      if_pos (by rw [hwrite]; rfl)]
    exact ⟨Option.some.inj hearly, rfl⟩
  · rw [if_neg hlen, Routine.ends_bind, ends_file_testfd h, Routine.ends_ite,
      if_neg (by simpa using hwrite), hmem]
    exact ⟨Option.some.inj hearly, rfl⟩

/-- A write returns what its loop makes of it. -/
theorem sysfileWrite_loop (h : t.io.files k = some file) (hlen : 0 < len)
    (hwrite : file.writable = true)
    (hloop : sysfile_write_loop size k (len + 1) buffer base len 0 t = .ok (.ok out, t')) :
    sysfileWrite size k base len (some buffer) t = .ok (outOf out, t') := by
  apply Routine.Ends.run
  unfold sysfileWrite
  rw [Routine.ends_ite, if_neg (by omega), Routine.ends_bind, ends_file_testfd h,
    Routine.ends_ite, if_neg (by simp [hwrite]), Routine.ends_bind]
  unfold Routine.Ends
  rw [hloop]
  exact ends_sysfile_out.mpr ⟨fun n hn => ⟨hn.symm, rfl⟩, fun e he => ⟨he.symm, rfl⟩⟩

/-- A panic in the loop is one of the write. -/
theorem sysfileWrite_panics {h' : SysPanic} (h : t.io.files k = some file) (hlen : 0 < len)
    (hwrite : file.writable = true)
    (hloop : sysfile_write_loop size k (len + 1) buffer base len 0 t = .error h') :
    sysfileWrite size k base len (some buffer) t = .error h' := by
  apply Routine.Panics.eq
  unfold Routine.Panics sysfileWrite
  rw [Routine.ends_ite, if_neg (by omega), Routine.ends_bind, ends_file_testfd h,
    Routine.ends_ite, if_neg (by simp [hwrite]), Routine.ends_bind]
  unfold Routine.Ends
  rw [hloop]

/-! ### The result -/

/-- The bytes that a call says it has transferred. -/
def returned : Except Errno Int → Int
  | .ok n => n
  | .error _ => 0

/-- A count that fits is returned as it is. -/
theorem toInt_eq {n : Nat} (h : n < 2 ^ 31) : Ucore.Fs.toInt n = n := by
  unfold Ucore.Fs.toInt
  rw [Int.bmod_def]
  split_ifs <;> omega

/-- What is returned is never more than the count. -/
theorem toInt_le (n : Nat) : Ucore.Fs.toInt n ≤ n := by
  unfold Ucore.Fs.toInt
  rw [Int.bmod_def]
  split_ifs <;> omega

/-- A result that is no error is the count. -/
@[simp] theorem returned_ok (n : Int) : returned (.ok n) = n := rfl

/-- A call that only tells whether it has failed returns 0. -/
@[simp] theorem returned_map (ret : Except Errno Unit) : returned (ret.map fun _ => 0) = 0 := by
  cases ret <;> rfl

/-- The count that is returned is the number of bytes copied. -/
theorem returned_outOf (h : out.2 < 2 ^ 31) : returned (outOf out) = out.2 := by
  unfold outOf
  split_ifs with hzero
  · rw [returned_ok, toInt_eq h]
  · rw [returned_map]
    omega

/-- No more bytes are reported than were copied. -/
theorem returned_outOf_le (out : Except Errno Unit × Nat) : returned (outOf out) ≤ out.2 := by
  have hle := toInt_le out.2
  unfold outOf
  split_ifs with hzero
  · rwa [returned_ok]
  · rw [returned_map]
    omega

/-- What a read should do: the position moves by the count, and so many bytes of the file at the
position have come to the process. -/
structure ReadAgrees (I : Finset Nat) (k : K) (file : File) (base : Nat) (t : UserFiles K)
    (ret : Except Errno Int) (t' : UserFiles K) : Prop where
  count : 0 ≤ returned ret
  files : t'.io.files =
    Function.update t.io.files k (some { file with pos := file.pos + returned ret })
  there : (returned ret).toNat ≤ (fileBytes t.io.sfs file.node).length - file.pos.toNat
  user : t'.user = t.user.overlay base
    (((fileBytes t.io.sfs file.node).drop file.pos.toNat).take (returned ret).toNat)
  volume : ∀ j ∈ I, fileBytes t'.io.sfs j = fileBytes t.io.sfs j

/-- What a write should do: the position moves by the count, and so many bytes of the process have
come to the file at the position. -/
structure WriteAgrees (I : Finset Nat) (k : K) (file : File) (base : Nat) (t : UserFiles K)
    (ret : Except Errno Int) (t' : UserFiles K) : Prop where
  count : 0 ≤ returned ret
  files : t'.io.files =
    Function.update t.io.files k (some { file with pos := file.pos + returned ret })
  content : (view t'.io.sfs file.node).content = (view t.io.sfs file.node).content.overlay
    file.pos.toNat (t.user.slice base (returned ret).toNat)
  size : 0 < returned ret → (view t'.io.sfs file.node).din.size =
    max (view t.io.sfs file.node).din.size (file.pos + returned ret).toNat
  user : t'.user = t.user
  others : ∀ j ∈ I, j ≠ file.node → fileBytes t'.io.sfs j = fileBytes t.io.sfs j

/-- The descriptors, the memory of the process and the files are the same. -/
structure SameResult (I : Finset Nat) (t₁ t₂ : UserFiles K) : Prop where
  files : t₁.io.files = t₂.io.files
  user : t₁.user = t₂.user
  bytes : ∀ j ∈ I, fileBytes t₁.io.sfs j = fileBytes t₂.io.sfs j

/-- The other call returns the same and leaves the same behind. -/
def AsOne (I : Finset Nat) (one : Except SysPanic (Except Errno Int × UserFiles K))
    (ret : Except Errno Int) (t' : UserFiles K) : Prop :=
  ∃ t₁, one = .ok (ret, t₁) ∧ SameResult I t' t₁

/-- The process may write what there is to read. Or the call ends in front of the loop, or at the
position. -/
def ReadGranted (vmas : List Vma) (file : File) (base len : Nat) (kmalloc : Option Bytes)
    (sfs : Sfs) : Prop :=
  len = 0 ∨ file.readable = false ∨ kmalloc = none ∨
    file.pos < 0 ∨ (SFS_MAX_FILE_SIZE : Int) ≤ file.pos ∨
    file.pos + len < 2 ^ 63 ∧
      (min len (readEnd sfs file.node - file.pos.toNat) = 0 ∨
        Accessible vmas true base (min len (readEnd sfs file.node - file.pos.toNat)))

/-- The process may read all of the range, or not even the first chunk. Or the call ends in front
of the loop, or at the position. -/
def WriteGranted (vmas : List Vma) (file : File) (base len : Nat) (kmalloc : Option Bytes) :
    Prop :=
  len = 0 ∨ file.writable = false ∨ kmalloc = none ∨
    file.pos < 0 ∨ (SFS_MAX_FILE_SIZE : Int) ≤ file.pos ∨
    Accessible vmas false base len ∨ ¬ Accessible vmas false base (min IOBUF_SIZE len)

/-- The chunks that the process may read do not go over the end of the block map. Or the call ends in
front of the loop, or at the position. -/
def WriteReturns (vmas : List Vma) (file : File) (base len : Nat) (kmalloc : Option Bytes)
    (sfs : Sfs) : Prop :=
  len = 0 ∨ file.writable = false ∨ kmalloc = none ∨
    file.pos < 0 ∨ (SFS_MAX_FILE_SIZE : Int) ≤ file.pos ∨
    ¬ ChunksStop vmas IOBUF_SIZE sfs file.node file.pos.toNat base len

/-- A call that ends in front of its loop moves nothing. -/
theorem early_some {allowed : Bool} {r : Except Errno Int}
    (hearly : early len allowed kmalloc = some r) :
    returned r = 0 ∧ (len = 0 ∨ allowed = false ∨ kmalloc = none) := by
  unfold early at hearly
  split_ifs at hearly with hlen hallowed hmem
  · cases hearly
    exact ⟨rfl, Or.inl hlen⟩
  · cases hearly
    exact ⟨rfl, Or.inr (Or.inl hallowed)⟩
  · cases hearly
    exact ⟨rfl, Or.inr (Or.inr hmem)⟩

omit [DecidableEq K] in
/-- A result is the same as itself. -/
theorem SameResult.refl (t : UserFiles K) : SameResult I t t := ⟨rfl, rfl, fun _ _ => rfl⟩

/-- A call that has done nothing. -/
theorem ReadAgrees.none {ret : Except Errno Int} (h : t.io.files k = some file)
    (hret : returned ret = 0) : ReadAgrees I k file base t ret t := by
  refine ⟨hret.ge, ?_, ?_, ?_, fun _ _ => rfl⟩
  · rw [hret, Int.add_zero, ← h, Function.update_eq_self]
  · rw [hret]
    exact Nat.zero_le _
  · rw [hret]
    exact (Bytes.overlay_nil _ _).symm

/-- What the loop of a read has done agrees in position, count and bytes. -/
theorem ReadDone.agrees {p n : Nat} {ret : Except Errno Int}
    (h : ReadDone I vmas k file p base n t t') (hreg : RegularFile I file.node t.io.sfs)
    (hpos : file.pos = p) (hn : n ≤ (view t.io.sfs file.node).din.size - p)
    (hret : returned ret = n) : ReadAgrees I k file base t ret t' := by
  have hp : file.pos.toNat = p := by rw [hpos, Int.toNat_natCast]
  refine ⟨by omega, ?_, ?_, ?_, fun j hj => h.same.fileBytes hreg hj⟩
  · rw [hret]
    exact h.files
  · rw [hret, hp]
    unfold fileBytes
    rw [Bytes.length_slice]
    exact hn
  · rw [hret, hp, h.user, Int.toNat_natCast]
    unfold fileBytes
    rw [Bytes.slice_drop, Bytes.slice_take, min_eq_left hn, Nat.zero_add]

/-- A chunk that has been refused: the position is wrong. -/
theorem ReadRefused.not_agrees (h : ReadRefused k file 0 out t') :
    ¬ ReadAgrees I k file base t (outOf out) t' := by
  obtain ⟨e, m, d, rfl, hd, hentry⟩ := h
  intro hagrees
  have hle := returned_outOf_le (.error e, 0 + m)
  rw [hagrees.files, Function.update_self] at hentry
  have hpos := congrArg File.pos (Option.some.inj hentry)
  change file.pos + returned (outOf (.error e, 0 + m)) = file.pos + ((m + d : Nat) : Int) at hpos
  change returned (outOf (.error e, 0 + m)) ≤ ((0 + m : Nat) : Int) at hle
  omega

/-- What the loop leaves behind settles what is returned. -/
theorem outOf_congr {out' : Except Errno Unit × Nat} (hcount : out.2 = out'.2)
    (hret : out.2 = 0 → out.1 = out'.1) : outOf out = outOf out' := by
  unfold outOf
  rw [← hcount]
  split_ifs with hzero
  · rfl
  · rw [hret (not_not.mp hzero)]

/-- A read at a position within the limit. -/
theorem read_valid {p : Nat} (hsorted : Sorted vmas) (h : Opened I vmas k file t)
    (hread : file.readable = true) (hpos : file.pos = p) (hmax : p < SFS_MAX_FILE_SIZE)
    (hbase : base < 2 ^ 64) (hlen : 0 < len) (hlen' : len < 2 ^ 64) (buffer : Bytes) :
    ∃ ret t', sysfile_read k base len (some buffer) t = .ok (ret, t') ∧
      (ReadAgrees I k file base t ret t' ∧
          AsOne I (sysfileRead len k base len (some buffer) t) ret t' ↔
        file.pos + len < 2 ^ 63 ∧
          (min len (readEnd t.io.sfs file.node - p) = 0 ∨
            Accessible vmas true base (min len (readEnd t.io.sfs file.node - p)))) := by
  have hend := readEnd_le t.io.sfs file.node
  have hbound := h.regular.bound
  obtain ⟨out, t', hloop, hout⟩ := (ends_read_loop (k := k) hsorted (by decide : 0 < IOBUF_SIZE)
    (len + 1) buffer base len 0 p file t (by omega) h hread hpos hmax (Or.inl (Nat.le_refl _))
    hbase hlen').exists_ok
  refine ⟨outOf out, t', sysfileRead_loop h.entry hlen hread hloop, ?_⟩
  rw [hpos]
  rcases hout with ⟨hacc, hdone, hcount, hnone⟩ | ⟨hno, hrefused⟩
  · -- every chunk has been copied
    rw [Nat.zero_add] at hcount
    have hagrees : ReadAgrees I k file base t (outOf out) t' :=
      hdone.agrees h.regular hpos (by omega) (by rw [returned_outOf (by omega), hcount])
    rw [and_iff_right hagrees, and_iff_left hacc]
    constructor
    · -- one transfer of a range that does not fit an `off_t` is refused
      rintro ⟨t₁, hone, -⟩
      by_contra hfar
      have hbad : IoInvalid file.pos (min len len) := by
        rw [hpos, Nat.min_self]
        exact ioInvalid_of_far hmax hlen' (by omega)
      obtain ⟨out₁, t₂, hloop₁, rfl, rfl⟩ := (ends_read_loop_invalid buffer base 0 h hread
        hlen (Nat.succ_pos len) hbad).exists_ok
      rw [sysfileRead_loop h.entry hlen hread hloop₁] at hone
      have hret : outOf out = .error .inval := (congrArg Prod.fst (Except.ok.inj hone)).symm
      unfold outOf at hret
      split_ifs at hret with hzero
      · rw [hnone (by omega) hlen] at hret
        split_ifs at hret <;> cases hret
    -- The same loop with one chunk of the whole length gives the same count and bytes.
    · intro hfit
      obtain ⟨out₁, t₁, hloop₁, hout₁⟩ := (ends_read_loop (k := k) hsorted hlen (len + 1) buffer
        base len 0 p file t (by omega) h hread hpos hmax (Or.inr (by omega)) hbase
        hlen').exists_ok
      rcases hout₁ with ⟨-, hdone₁, hcount₁, hnone₁⟩ | ⟨hno, -⟩
      · have hsame : outOf out = outOf out₁ := by
          apply outOf_congr (by omega)
          intro hzero
          rw [hnone (by omega) hlen, hnone₁ (by omega) hlen]
        refine ⟨t₁, ?_, by rw [hdone.files, hdone₁.files], by rw [hdone.user, hdone₁.user],
          fun j hj => ?_⟩
        · rw [sysfileRead_loop h.entry hlen hread hloop₁, hsame]
        · rw [hdone.same.fileBytes h.regular hj, hdone₁.same.fileBytes h.regular hj]
      · exact absurd hacc hno
  · exact iff_of_false (fun hboth => hrefused.not_agrees hboth.1) fun hboth => hno hboth.2

/-- `sysfile_read` returns. Position, count and bytes agree, and the chunks do what one transfer
does, if and only if the process may write what there is to read. -/
theorem read_iff (hsorted : Sorted vmas) (h : Opened I vmas k file t) (hbase : base < 2 ^ 64)
    (hlen : len < 2 ^ 64) (kmalloc : Option Bytes) :
    ∃ ret t', sysfile_read k base len kmalloc t = .ok (ret, t') ∧
      (ReadAgrees I k file base t ret t' ∧
          AsOne I (sysfileRead len k base len kmalloc t) ret t' ↔
        ReadGranted vmas file base len kmalloc t.io.sfs) := by
  cases hearly : early len file.readable kmalloc with
  | some r =>
      obtain ⟨hret, hcase⟩ := early_some hearly
      refine ⟨r, t, sysfileRead_early h.entry hearly, iff_of_true ⟨.none h.entry hret, t,
        sysfileRead_early h.entry hearly, .refl t⟩ ?_⟩
      exact hcase.imp_right (Or.imp_right Or.inl)
  | none =>
      obtain ⟨hpos, hread, buffer, rfl⟩ := early_none hearly
      by_cases hout : file.pos < 0 ∨ (SFS_MAX_FILE_SIZE : Int) ≤ file.pos
      · -- both refuse the position
        have hinvalid : ∀ size, IoInvalid file.pos (min size len) :=
          fun _ => hout.imp_right Or.inl
        have hrun : ∀ size, sysfileRead size k base len (some buffer) t =
            .ok (.error .inval, t) := by
          intro size
          obtain ⟨out, t', hloop, rfl, rfl⟩ := (ends_read_loop_invalid buffer base 0 h hread
            hpos (Nat.succ_pos len) (hinvalid size)).exists_ok
          exact sysfileRead_loop h.entry hpos hread hloop
        refine ⟨_, t, hrun _, iff_of_true ⟨.none h.entry rfl, t, hrun _, .refl t⟩ ?_⟩
        unfold ReadGranted
        tauto
      · rw [not_or] at hout
        have hp : file.pos = (file.pos.toNat : Int) := by omega
        obtain ⟨ret, t', hrun, hiff⟩ := read_valid hsorted h hread hp (by omega) hbase hpos hlen
          buffer
        refine ⟨ret, t', hrun, hiff.trans ?_⟩
        unfold ReadGranted
        constructor
        · exact fun hgrant => Or.inr (Or.inr (Or.inr (Or.inr (Or.inr hgrant))))
        · rintro (hno | hno | hno | hno | hno | hgrant)
          · omega
          · rw [hread] at hno
            cases hno
          · cases hno
          · omega
          · omega
          · exact hgrant

/-! ### Writes -/

/-- A write that returns 0 or an error and has written nothing agrees. -/
theorem WriteAgrees.none {ret : Except Errno Int} {mm : Option MmStruct}
    (h : t.io.files k = some file) (hret : returned ret = 0) :
    WriteAgrees I k file base t ret { t with mm := mm } := by
  refine ⟨hret.ge, ?_, ?_, fun hpos => by omega, rfl, fun _ _ _ => rfl⟩
  · rw [hret, Int.add_zero, ← h, Function.update_eq_self]
  · rw [hret]
    exact (Bytes.overlay_nil _ _).symm

/-- What the loop of a write has done agrees in position, count and bytes. -/
theorem WriteDone.agrees {p n : Nat} {ret : Except Errno Int}
    (h : WriteDone I vmas k file p base n t t') (hreg : RegularFile I file.node t.io.sfs)
    (hpos : file.pos = p) (hret : returned ret = n) : WriteAgrees I k file base t ret t' := by
  have hp : file.pos.toNat = p := by rw [hpos, Int.toNat_natCast]
  refine ⟨by omega, ?_, ?_, fun hlt => ?_, h.user, fun j hj hne => ?_⟩
  · rw [hret]
    exact h.files
  · rw [hret, hp, Int.toNat_natCast]
    exact h.content
  · rw [hpos, hret, ← Int.natCast_add, Int.toNat_natCast]
    rcases h.size with hsize | ⟨hzero, -⟩
    · exact hsize
    · omega
  · unfold fileBytes
    rw [h.kept.view_eq hreg.core.pos hj hne]

/-- Two writes of one range leave the same behind. -/
theorem WriteWhole.same {p : Nat} {r r₁ : IoResult} {out₁ : Except Errno Unit × Nat}
    {t₁ : UserFiles K} (h : WriteWhole I k file p base len 0 t r out t')
    (h₁ : WriteWhole I k file p base len 0 t r₁ out₁ t₁) (hreg : RegularFile I file.node t.io.sfs)
    (huser : t'.user = t.user) (huser₁ : t₁.user = t.user) : out = out₁ ∧ SameResult I t' t₁ := by
  obtain ⟨halen, hret⟩ := h.transferred.unique h₁.transferred
  refine ⟨by rw [h.out, h₁.out, halen, hret], by rw [h.files, h₁.files, halen],
    huser.trans huser₁.symm, fun j hj => ?_⟩
  unfold fileBytes
  by_cases hji : j = file.node
  · rw [hji, h.transferred.content, h₁.transferred.content, h.transferred.size,
      h₁.transferred.size, halen]
  · rw [h.transferred.kept.view_eq hreg.core.pos hj hji,
      h₁.transferred.kept.view_eq hreg.core.pos hj hji]

/-- A loop that ends one of three ways. -/
theorem write_loop_cases {p : Nat} (hsorted : Sorted vmas) (h : Opened I vmas k file t)
    (hwrite : file.writable = true) (hpos : file.pos = p) (hmax : p < SFS_MAX_FILE_SIZE)
    (hbase : base < 2 ^ 64) (hlen : 0 < len) (hlen' : len < 2 ^ 64) (buffer : Bytes)
    (hsize : 0 < size) :
    (∃ out t', sysfileWrite size k base len (some buffer) t = .ok (outOf out, t') ∧
      WriteOut I vmas k file p base len 0 size t out t' ∧
      ¬ ChunksStop vmas size t.io.sfs file.node p base len) ∨
    ∃ h', sysfileWrite size k base len (some buffer) t = .error (.fs h') ∧
      ChunksStop vmas size t.io.sfs file.node p base len := by
  have hends := ends_write_loop (k := k) hsorted hsize (len + 1) buffer base len 0 p file t hlen
    (by omega) h hwrite hpos hmax hbase hlen'
  unfold Routine.Ends at hends
  cases hloop : sysfile_write_loop size k (len + 1) buffer base len 0 t with
  | error h' =>
      rw [hloop] at hends
      obtain ⟨⟨h'', rfl⟩, hstops⟩ := hends
      exact Or.inr ⟨h'', sysfileWrite_panics h.entry hlen hwrite hloop, hstops⟩
  | ok res =>
      obtain ⟨r, t'⟩ := res
      rw [hloop] at hends
      cases r with
      | error e => exact hends.elim
      | ok out => exact Or.inl ⟨out, t', sysfileWrite_loop h.entry hlen hwrite hloop, hends⟩

/-- A position in the file and something to transfer leave a range that is not empty. -/
theorem lt_limit {p : Nat} (hmax : p < SFS_MAX_FILE_SIZE) (hlen : 0 < len) :
    p < min (p + len) SFS_MAX_FILE_SIZE :=
  lt_min (by omega) hmax

/-- A transfer of the whole range is a write of as many bytes as it returns. -/
theorem WriteWhole.done {p : Nat} {r : IoResult}
    (h : WriteWhole I k file p base len 0 t r out t') (hopen : Opened I vmas k file t)
    (hmm : HasAreas vmas t'.mm) (huser : t'.user = t.user) (hmax : p < SFS_MAX_FILE_SIZE)
    (hlen : 0 < len) : WriteDone I vmas k file p base r.alen t t' := by
  have hdone := h.transferred.writeDone hopen hmm (lt_limit hmax hlen) (min_le_left _ _)
  exact ⟨hdone.regular, hdone.kept, hdone.content, hdone.size, hdone.bound, h.files, huser, hmm⟩

/-- What a write returns that has been refused somewhere. -/
theorem outOf_refused {e : Errno} {n : Nat} (hcase : 0 < n ∨ e = .noMem) :
    outOf (.error e, 0 + n) ≠ .error .inval := by
  unfold outOf
  rw [Nat.zero_add]
  rcases hcase with hpos | rfl
  · rw [if_pos (by omega)]
    simp
  · split_ifs <;> simp [Except.map]

/-- A write at a position within the limit. -/
theorem write_valid {p : Nat} (hsorted : Sorted vmas) (h : Opened I vmas k file t)
    (hwrite : file.writable = true) (hpos : file.pos = p) (hmax : p < SFS_MAX_FILE_SIZE)
    (hbase : base < 2 ^ 64) (hlen : 0 < len) (hlen' : len < 2 ^ 64) (buffer : Bytes) :
    (ChunksStop vmas IOBUF_SIZE t.io.sfs file.node p base len ∧
      ∃ h', sysfile_write k base len (some buffer) t = .error (.fs h')) ∨
    ¬ ChunksStop vmas IOBUF_SIZE t.io.sfs file.node p base len ∧
      ∃ ret t', sysfile_write k base len (some buffer) t = .ok (ret, t') ∧
        WriteAgrees I k file base t ret t' ∧
        (AsOne I (sysfileWrite len k base len (some buffer) t) ret t' ↔
          Accessible vmas false base len ∨ ¬ Accessible vmas false base (min IOBUF_SIZE len)) := by
  -- The same lemma twice: one chunk of the whole length, and chunks of the size of the buffer.
  have hone := write_loop_cases hsorted h hwrite hpos hmax hbase hlen hlen' buffer hlen
  rcases write_loop_cases hsorted h hwrite hpos hmax hbase hlen hlen' buffer
    (by decide : 0 < IOBUF_SIZE) with ⟨out, t', hrun, hout, hgoes⟩ | ⟨h', hrun, hstop⟩
  · refine Or.inr ⟨hgoes, outOf out, t', hrun, ?_⟩
    rcases hout with ⟨hacc, hmm, huser, r, hwhole⟩ | ⟨hno, e, n, hdone, rfl, hgoes, hstays⟩
    · have hdone := hwhole.done h hmm huser hmax hlen
      have hbound := hdone.bound
      have hcount : out.2 = r.alen := by rw [hwhole.out, Nat.zero_add]
      refine ⟨hdone.agrees h.regular hpos (by rw [returned_outOf (by omega), hcount]),
        iff_of_true ?_ (Or.inl hacc)⟩
      rcases hone with ⟨out₁, t₁, hrun₁, hout₁, -⟩ | ⟨-, -, hstop⟩
      · rcases hout₁ with ⟨-, -, huser₁, r₁, hwhole₁⟩ | ⟨hno, -⟩
        · obtain ⟨heq, hsame⟩ := hwhole.same hwhole₁ h.regular huser huser₁
          exact ⟨t₁, by rw [hrun₁, heq], hsame⟩
        · exact absurd hacc hno
      · -- what stops one transfer stops the chunks
        exact absurd hstop.whole.2
          (hwhole.transferred.not_stops (lt_limit hmax hlen) hwhole.index)
    -- The process may not read all of the range. The chunks write up to the first one that it may
    -- not read; one transfer writes nothing. They agree if that is the first chunk.
    · have hbound := hdone.bound
      refine ⟨hdone.agrees h.regular hpos
        ((returned_outOf (show 0 + n < 2 ^ 31 by omega)).trans (by simp)), ?_⟩
      rw [or_iff_right hno]
      by_cases hfirst : Accessible vmas false base (min IOBUF_SIZE len)
      · refine iff_of_false ?_ (not_not.mpr hfirst)
        rintro ⟨t₁, hrun₁, -⟩
        rcases hone with ⟨out₁, t₂, hrun₂, hout₁, -⟩ | ⟨h', hrun₂, -⟩
        · rcases hout₁ with ⟨hacc, -⟩ | ⟨-, e₁, n₁, -, rfl, -, hstays₁⟩
          · exact hno hacc
          · obtain ⟨rfl, rfl, -⟩ := hstays₁ (by rwa [Nat.min_self])
            rw [hrun₂] at hrun₁
            exact outOf_refused (hgoes hfirst) (congrArg Prod.fst (Except.ok.inj hrun₁)).symm
        · rw [hrun₂] at hrun₁
          cases hrun₁
      · refine iff_of_true ?_ hfirst
        obtain ⟨rfl, rfl, hsfs⟩ := hstays hfirst
        rcases hone with ⟨out₁, t₁, hrun₁, hout₁, -⟩ | ⟨-, -, hstop⟩
        · rcases hout₁ with ⟨hacc, -⟩ | ⟨-, e₁, n₁, hdone₁, rfl, -, hstays₁⟩
          · exact absurd hacc hno
          · obtain ⟨rfl, rfl, hsfs₁⟩ := hstays₁ (by rwa [Nat.min_self])
            exact ⟨t₁, hrun₁, by rw [hdone.files, hdone₁.files],
              hdone.user.trans hdone₁.user.symm, fun j _ => by rw [hsfs, hsfs₁]⟩
        · exact absurd hstop.whole.1 hno
  · exact Or.inl ⟨hstop, h', hrun⟩

/-- `sysfile_write` stops the kernel, or it returns, as `WriteReturns` says. When it returns,
position, count and bytes agree, and the chunks do what one transfer does if and only if the process
may read all of the range, or not even the first chunk. -/
theorem write_cases (hsorted : Sorted vmas) (h : Opened I vmas k file t) (hbase : base < 2 ^ 64)
    (hlen : len < 2 ^ 64) (kmalloc : Option Bytes) :
    (¬ WriteReturns vmas file base len kmalloc t.io.sfs ∧
      ∃ h', sysfile_write k base len kmalloc t = .error (.fs h')) ∨
    WriteReturns vmas file base len kmalloc t.io.sfs ∧
      ∃ ret t', sysfile_write k base len kmalloc t = .ok (ret, t') ∧
        WriteAgrees I k file base t ret t' ∧
        (AsOne I (sysfileWrite len k base len kmalloc t) ret t' ↔
          WriteGranted vmas file base len kmalloc) := by
  cases hearly : early len file.writable kmalloc with
  | some r =>
      obtain ⟨hret, hcase⟩ := early_some hearly
      refine Or.inr ⟨hcase.imp_right (Or.imp_right Or.inl), r, t,
        sysfileWrite_early h.entry hearly, .none h.entry hret,
        iff_of_true ⟨t, sysfileWrite_early h.entry hearly, .refl t⟩ ?_⟩
      exact hcase.imp_right (Or.imp_right Or.inl)
  | none =>
      obtain ⟨hpos, hwrite, buffer, rfl⟩ := early_none hearly
      by_cases hout : file.pos < 0 ∨ (SFS_MAX_FILE_SIZE : Int) ≤ file.pos
      · -- both refuse the position, or the memory of the process
        have hinvalid : ∀ size, IoInvalid file.pos (min size len) :=
          fun _ => hout.imp_right Or.inl
        have hrun : ∀ size, 0 < size → ∃ mm, sysfileWrite size k base len (some buffer) t =
            .ok (.error .inval, { t with mm := mm }) := by
          intro size hsize
          obtain ⟨out, t', hloop, rfl, mm, rfl⟩ := (ends_write_loop_invalid buffer 0 hsorted h
            hwrite hpos hsize (Nat.succ_pos len) hbase hlen (hinvalid size)).exists_ok
          exact ⟨mm, sysfileWrite_loop h.entry hpos hwrite hloop⟩
        obtain ⟨mm, hrun₁⟩ := hrun IOBUF_SIZE (by decide)
        obtain ⟨mm₂, hrun₂⟩ := hrun len hpos
        refine Or.inr ⟨?_, _, _, hrun₁, .none h.entry rfl, iff_of_true ⟨_, hrun₂, rfl, rfl,
          fun _ _ => rfl⟩ ?_⟩
        · unfold WriteReturns
          tauto
        · unfold WriteGranted
          tauto
      · rw [not_or] at hout
        have hp : file.pos = (file.pos.toNat : Int) := by omega
        have hreturns : WriteReturns vmas file base len (some buffer) t.io.sfs ↔
            ¬ ChunksStop vmas IOBUF_SIZE t.io.sfs file.node file.pos.toNat base len := by
          unfold WriteReturns
          simp [hwrite, hout, hpos.ne']
        have hgranted : WriteGranted vmas file base len (some buffer) ↔
            Accessible vmas false base len ∨
              ¬ Accessible vmas false base (min IOBUF_SIZE len) := by
          unfold WriteGranted
          simp [hwrite, hout, hpos.ne']
        rw [hreturns, hgranted, not_not]
        exact write_valid hsorted h hwrite hp (by omega) hbase hpos hlen buffer

/-- `sysfile_write` in the form of the result: when it returns, and when it does all that it
should. -/
theorem write_iff (hsorted : Sorted vmas) (h : Opened I vmas k file t) (hbase : base < 2 ^ 64)
    (hlen : len < 2 ^ 64) (kmalloc : Option Bytes) :
    ((∃ ret t', sysfile_write k base len kmalloc t = .ok (ret, t') ∧
        WriteAgrees I k file base t ret t') ↔
      WriteReturns vmas file base len kmalloc t.io.sfs) ∧
    ((∃ ret t', sysfile_write k base len kmalloc t = .ok (ret, t') ∧
        WriteAgrees I k file base t ret t' ∧
        AsOne I (sysfileWrite len k base len kmalloc t) ret t') ↔
      WriteReturns vmas file base len kmalloc t.io.sfs ∧
        WriteGranted vmas file base len kmalloc) ∧
    ∀ ret t', sysfile_write k base len kmalloc t = .ok (ret, t') →
      WriteAgrees I k file base t ret t' := by
  rcases write_cases hsorted h hbase hlen kmalloc with
    ⟨hno, h', hpanic⟩ | ⟨hreturns, ret, t', hrun, hagrees, hiff⟩
  · refine ⟨iff_of_false ?_ hno, iff_of_false ?_ fun hboth => hno hboth.1, ?_⟩
    · rintro ⟨ret, t', hrun, -⟩
      rw [hpanic] at hrun
      cases hrun
    · rintro ⟨ret, t', hrun, -⟩
      rw [hpanic] at hrun
      cases hrun
    · intro ret t' hrun
      rw [hpanic] at hrun
      cases hrun
  · refine ⟨iff_of_true ⟨ret, t', hrun, hagrees⟩ hreturns, ⟨?_, ?_⟩, ?_⟩
    · rintro ⟨ret₁, t₁, hrun₁, -, hone⟩
      obtain ⟨rfl, rfl⟩ := Prod.mk.inj (Except.ok.inj (hrun₁.symm.trans hrun))
      exact ⟨hreturns, hiff.mp hone⟩
    · exact fun hboth => ⟨ret, t', hrun, hagrees, hiff.mpr hboth.2⟩
    · intro ret₁ t₁ hrun₁
      obtain ⟨rfl, rfl⟩ := Prod.mk.inj (Except.ok.inj (hrun₁.symm.trans hrun))
      exact hagrees

/-- **When position, count and bytes of a chunked transfer agree.** Take a descriptor of a regular
file, and a process with any areas. A read returns. It moves the position by what it returns, the
bytes that it counts are those that have come to the process, and it does what one transfer of the
whole length does, if and only if the process may write what there is to read (`ReadGranted`). A
write returns if and only if what the process may read of the range does not go over the end of the
block map (`WriteReturns`). Then its position, count and bytes agree, and it does what one transfer
does if and only if the process may read all of the range or not even the first chunk
(`WriteGranted`). -/
theorem sysfile_agrees (hsorted : Sorted vmas) (h : Opened I vmas k file t) (hbase : base < 2 ^ 64)
    (hlen : len < 2 ^ 64) (kmalloc : Option Bytes) :
    (∃ ret t', sysfile_read k base len kmalloc t = .ok (ret, t') ∧
      (ReadAgrees I k file base t ret t' ∧
          AsOne I (sysfileRead len k base len kmalloc t) ret t' ↔
        ReadGranted vmas file base len kmalloc t.io.sfs)) ∧
    ((∃ ret t', sysfile_write k base len kmalloc t = .ok (ret, t') ∧
        WriteAgrees I k file base t ret t') ↔
      WriteReturns vmas file base len kmalloc t.io.sfs) ∧
    ((∃ ret t', sysfile_write k base len kmalloc t = .ok (ret, t') ∧
        WriteAgrees I k file base t ret t' ∧
        AsOne I (sysfileWrite len k base len kmalloc t) ret t') ↔
      WriteReturns vmas file base len kmalloc t.io.sfs ∧
        WriteGranted vmas file base len kmalloc) ∧
    ∀ ret t', sysfile_write k base len kmalloc t = .ok (ret, t') →
      WriteAgrees I k file base t ret t' :=
  ⟨read_iff hsorted h hbase hlen kmalloc, write_iff hsorted h hbase hlen kmalloc⟩

/-! ### A refused chunk -/

/-- An area of one page. -/
def procArea : Vma := ⟨0x200000, 0x201000, vmRead ||| vmWrite⟩

/-- A process with one area, and two descriptors of the empty file of `oneFile`. -/
def procFiles : UserFiles Nat where
  io := { sfs := oneFile, files := fun k => if k < 2 then some ⟨3, 0, true, true⟩ else none }
  mm := some { mmapList := [procArea], mmapCache := none, mapCount := 1 }
  user := fun _ => 104

/-- Both descriptors are of the empty regular file. -/
theorem opened_procFiles {k : Nat} (hk : k < 2) :
    Opened {3} [procArea] k ⟨3, 0, true, true⟩ procFiles where
  entry := if_pos hk
  regular :=
    { core := core_oneFile
      mem := Finset.mem_singleton_self 3
      mapped := fun j hj => absurd hj (Nat.not_lt_zero j)
      reach := Nat.zero_le _
      bound := Nat.zero_le _
      used := ⟨_, rfl, rfl, by decide, by decide⟩ }
  areas := ⟨_, rfl, rfl, fun w hw => by cases hw⟩

/-- The process has written two bytes through the descriptor 0. -/
def written : UserFiles Nat :=
  match sysfile_write 0 0x200000 2 (some fun _ => 0) procFiles with
  | .ok (_, t) => t
  | .error _ => procFiles

/-- The process writes two bytes through the first descriptor. -/
theorem write_procFiles :
    sysfile_write 0 0x200000 2 (some fun _ => 0) procFiles = .ok (.ok 2, written) := by
  obtain ⟨⟨r, t⟩, hrun, hr⟩ := exists_of_map
    (x := sysfile_write 0 0x200000 2 (some fun _ => 0) procFiles) (f := fun p => p.1)
    (b := .ok 2) (by decide +kernel)
  unfold written
  rw [hrun]
  exact congrArg (fun r => Except.ok (r, t)) hr

/-- The two bytes lie in the area. -/
theorem accessible_procArea (write : Bool) : Accessible [procArea] write 0x200000 2 := by
  refine ⟨by decide, by decide, fun b hb hb' => ⟨procArea, List.mem_singleton_self _, ?_, ?_⟩⟩
  · exact ⟨hb, Nat.lt_trans hb' (by decide)⟩
  · refine ⟨?_, fun _ hstack => ?_⟩
    · cases write <;> decide
    · exact absurd hstack (by decide)

/-- The file is open behind the write, and the descriptor 1 has not moved. -/
theorem opened_written : Opened {3} [procArea] 1 ⟨3, 0, true, true⟩ written := by
  have hopen := opened_procFiles (show 0 < 2 by decide)
  have hsorted : Sorted [procArea] := List.pairwise_singleton _ _
  rcases write_loop_cases (k := 0) hsorted hopen rfl rfl (by decide : 0 < SFS_MAX_FILE_SIZE)
    (by decide : 0x200000 < 2 ^ 64) (by decide : 0 < 2) (by decide) (fun _ => 0)
    (by decide : 0 < IOBUF_SIZE) with ⟨out, t, hrun, hout, -⟩ | ⟨h', hrun, -⟩
  · obtain ⟨-, rfl⟩ := Prod.mk.inj (Except.ok.inj (hrun.symm.trans write_procFiles))
    rcases hout with ⟨-, hmm, huser, r, hwhole⟩ | ⟨hno, -⟩
    · have hdone := hwhole.done hopen hmm huser (by decide) (by decide)
      exact ⟨by rw [hdone.files]; rfl, hdone.regular, hmm⟩
    · exact absurd (accessible_procArea false) hno
  · cases hrun.symm.trans write_procFiles

/-- Two bytes are written through the descriptor 0 and read back through the descriptor 1. Both
calls return, and do what they should. -/
theorem sysfile_agrees_procFiles :
    (∃ t, sysfile_write 0 0x200000 2 (some fun _ => 0) procFiles = .ok (.ok 2, t) ∧
      WriteAgrees {3} 0 ⟨3, 0, true, true⟩ 0x200000 procFiles (.ok 2) t ∧
      AsOne {3} (sysfileWrite 2 0 0x200000 2 (some fun _ => 0) procFiles) (.ok 2) t) ∧
    ∃ t, sysfile_read 1 0x200000 2 (some fun _ => 0) written = .ok (.ok 2, t) ∧
      ReadAgrees {3} 1 ⟨3, 0, true, true⟩ 0x200000 written (.ok 2) t ∧
      AsOne {3} (sysfileRead 2 1 0x200000 2 (some fun _ => 0) written) (.ok 2) t := by
  have hsorted : Sorted [procArea] := List.pairwise_singleton _ _
  constructor
  · obtain ⟨-, hreturns, hboth, hagrees⟩ := sysfile_agrees hsorted
      (opened_procFiles (show 0 < 2 by decide)) (by decide : 0x200000 < 2 ^ 64)
      (by decide : 2 < 2 ^ 64) (some fun _ => 0)
    have hwrite := hagrees _ _ write_procFiles
    have hgranted : WriteGranted [procArea] ⟨3, 0, true, true⟩ 0x200000 2 (some fun _ => 0) := by
      unfold WriteGranted
      exact Or.inr (Or.inr (Or.inr (Or.inr (Or.inr (Or.inl (accessible_procArea false))))))
    obtain ⟨ret, t, hrun, -, hone⟩ := hboth.mpr ⟨hreturns.mp ⟨_, _, write_procFiles, hwrite⟩,
      hgranted⟩
    obtain ⟨rfl, rfl⟩ := Prod.mk.inj (Except.ok.inj (hrun.symm.trans write_procFiles))
    exact ⟨_, write_procFiles, hwrite, hone⟩
  · obtain ⟨⟨ret, t, hrun, hiff⟩, -⟩ := sysfile_agrees hsorted opened_written
      (by decide : 0x200000 < 2 ^ 64) (by decide : 2 < 2 ^ 64) (some fun _ => 0)
    obtain ⟨⟨r, t₁⟩, hrun₁, hr⟩ := exists_of_map
      (x := sysfile_read 1 0x200000 2 (some fun _ => 0) written) (f := fun p => p.1)
      (b := .ok 2) (by decide +kernel)
    obtain ⟨rfl, rfl⟩ := Prod.mk.inj (Except.ok.inj (hrun.symm.trans hrun₁))
    obtain rfl : ret = .ok 2 := hr
    have hend : min 2 (readEnd written.io.sfs 3 - (0 : Int).toNat) = 2 := by decide +kernel
    have hgranted : ReadGranted [procArea] ⟨3, 0, true, true⟩ 0x200000 2 (some fun _ => 0)
        written.io.sfs := by
      refine Or.inr (Or.inr (Or.inr (Or.inr (Or.inr ⟨by decide, Or.inr ?_⟩))))
      rw [hend]
      exact accessible_procArea true
    obtain ⟨hagrees, hone⟩ := hiff.mpr hgranted
    exact ⟨_, hrun, hagrees, hone⟩

/-- It reads them through the descriptor 1, to an address outside its area: the call returns
`-E_INVAL`, and the position has moved. -/
theorem sysfile_read_refused :
    ∃ t, sysfile_write 0 0x200000 2 (some fun _ => 0) procFiles = .ok (.ok 2, written) ∧
      (written.io.files 1).map File.pos = some 0 ∧
      sysfile_read 1 0x300000 2 (some fun _ => 0) written = .ok (.error .inval, t) ∧
      (t.io.files 1).map File.pos = some 2 ∧
      ¬ ReadAgrees {3} 1 ⟨3, 0, true, true⟩ 0x300000 written (.error .inval) t := by
  obtain ⟨⟨r, t⟩, hrun, hr⟩ := exists_of_map
    (f := fun p => (p.1, (p.2.io.files 1).map File.pos))
    (x := sysfile_read 1 0x300000 2 (some fun _ => 0) written) (b := (.error .inval, some 2))
    (by decide +kernel)
  obtain ⟨rfl, hpos⟩ := Prod.mk.inj hr
  refine ⟨t, write_procFiles, by decide +kernel, hrun, hpos, fun hagrees => ?_⟩
  rw [hagrees.files, Function.update_self] at hpos
  cases hpos

end

end Ucore.Proofs.Fs
