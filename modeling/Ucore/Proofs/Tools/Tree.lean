import Mathlib
import Ucore.Proofs.Tools.Entry

/-!
# `Ucore.Proofs.Tools.Tree`: the tree of the host in the image

`HoldsDir` says that the entries of a directory of a volume are those of a directory of the host:
files and links with their bytes, and directories that hold theirs. The recursion of `open_dir`
makes it true of every directory that it comes to (`Ready.open_dir_loop`), because what is done
later changes no file that has been copied (`HoldsDir.mono`).

## The invariant

`Ready` holds between two entries. Every inode in memory that stands for a file or a link of the
host has been copied in full (`Copied`), so that a second name of it needs an entry only. A
directory that is being copied is not in this list; what it has so far is in the statement of the
loop.

## The induction

The induction is on the tree of the host, with one case for each kind of entry: a name that is
skipped, a kind of file that is not copied, a file or link (`Ready.open_dir_node`), and a directory.
The last one makes an inode with its two first entries, runs the loop on the subdirectory, and goes
on with the rest (`Ready.add_dir`). `Ahead` is what is assumed of the rest: its directories have not
been seen before, and there are numbers for all of them. `Held` is the conclusion.
-/

set_option autoImplicit false

namespace Ucore.Proofs.Tools

open Ucore.Lib Ucore.Fs Ucore.Tools Ucore.Proofs.Fs

variable {st st' st'' : MkSfs} {I I' : Finset Nat} {i j k b cur real : Nat}
  {ci ci' : CacheInode} {host : Nat → HostFile} {v v' : Nat → FileView} {A A' : Nat → Prop}

/-! ### The host -/

/-- The type and the bytes of the inode that a file of the host becomes. -/
def asFile : HostFile → Option (Nat × List UInt8)
  | .reg data => some (SFS_TYPE_FILE, data)
  | .lnk target => some (SFS_TYPE_LINK, target)
  | .other => none

/-- The number of entries that the tool may make for a directory, without the first two. -/
def count : HostDir → Nat
  | .nil => 0
  | .node name _ rest => if skipped name then count rest else count rest + 1
  | .dir name _ _ rest => if skipped name then count rest else count rest + 1

/-- The inode numbers of the directories in the tree. -/
def dirReals : HostDir → List Nat
  | .nil => []
  | .node _ _ rest => dirReals rest
  | .dir name real sub rest =>
      if skipped name then dirReals rest else real :: (dirReals sub ++ dirReals rest)

/-- The inode numbers of all else. -/
def leafReals : HostDir → List Nat
  | .nil => []
  | .node name real rest => if skipped name then leafReals rest else real :: leafReals rest
  | .dir name _ sub rest => if skipped name then leafReals rest else leafReals sub ++ leafReals rest

/-- A name of the host. -/
def NameFits (name : List UInt8) : Prop := name.length ≤ 255 ∧ 0 ∉ name

/-- A file that the kernel can read: it has no doubly indirect block. A symbolic link is shorter
than a block. -/
def FileFits : HostFile → Prop
  | .reg data => data.length ≤ 1036 * 4096
  | .lnk target => target.length < 4096
  | .other => True

/-- Every name is one of the host, and every file and directory fits in an inode. -/
def Fits (host : Nat → HostFile) : HostDir → Prop
  | .nil => True
  | .node name real rest =>
      (¬ skipped name → NameFits name ∧ FileFits (host real)) ∧ Fits host rest
  | .dir name _ sub rest =>
      (¬ skipped name → NameFits name ∧ count sub ≤ 1034 ∧ Fits host sub) ∧ Fits host rest

/-- A directory of a volume with the inodes `v` holds a directory of the host, in the inodes `A`. A
name is cut behind 252 bytes. -/
inductive HoldsDir (host : Nat → HostFile) (v : Nat → FileView) (A : Nat → Prop) :
    Nat → HostDir → List SfsDiskEntry → Prop
  | nil (cur : Nat) : HoldsDir host v A cur .nil []
  | skip_node {cur real : Nat} {name : List UInt8} {rest : HostDir} {es : List SfsDiskEntry}
      (hskip : skipped name) (hrest : HoldsDir host v A cur rest es) :
      HoldsDir host v A cur (.node name real rest) es
  | skip_dir {cur real : Nat} {name : List UInt8} {sub rest : HostDir} {es : List SfsDiskEntry}
      (hskip : skipped name) (hrest : HoldsDir host v A cur rest es) :
      HoldsDir host v A cur (.dir name real sub rest) es
  | other {cur real : Nat} {name : List UInt8} {rest : HostDir} {es : List SfsDiskEntry}
      (hskip : ¬ skipped name) (hnone : asFile (host real) = none)
      (hrest : HoldsDir host v A cur rest es) :
      HoldsDir host v A cur (.node name real rest) es
  | node {cur real i type : Nat} {name bytes : List UInt8} {rest : HostDir}
      {es : List SfsDiskEntry} (hskip : ¬ skipped name)
      (hfile : asFile (host real) = some (type, bytes)) (hi : A i)
      (htype : (v i).din.type = type) (hbytes : viewBytes (v i) = bytes)
      (hrest : HoldsDir host v A cur rest es) :
      HoldsDir host v A cur (.node name real rest) (⟨i, name.take 252⟩ :: es)
  | dir {cur real i : Nat} {name : List UInt8} {sub rest : HostDir} {subs es : List SfsDiskEntry}
      (hskip : ¬ skipped name) (hi : A i) (htype : (v i).din.type = SFS_TYPE_DIR)
      (hdots : dirEntries (v i) = ⟨i, [46]⟩ :: ⟨cur, [46, 46]⟩ :: subs)
      (hsub : HoldsDir host v A i sub subs) (hrest : HoldsDir host v A cur rest es) :
      HoldsDir host v A cur (.dir name real sub rest) (⟨i, name.take 252⟩ :: es)

/-- Files that hold the same hold the tree. -/
theorem HoldsDir.mono {d : HostDir} {es : List SfsDiskEntry} (h : HoldsDir host v A cur d es)
    (hsame : ∀ i, A i → SameFile (v i) (v' i)) (hsub : ∀ i, A i → A' i) :
    HoldsDir host v' A' cur d es := by
  induction h with
  | nil cur => exact .nil cur
  | skip_node hskip _ ih => exact .skip_node hskip ih
  | skip_dir hskip _ ih => exact .skip_dir hskip ih
  | other hskip hnone _ ih => exact .other hskip hnone ih
  | node hskip hfile hi htype hbytes _ ih =>
      refine .node hskip hfile (hsub _ hi) ((hsame _ hi).type.trans htype) ?_ ih
      exact (hsame _ hi).viewBytes.trans hbytes
  | dir hskip hi htype hdots _ _ ihsub ih =>
      refine .dir hskip (hsub _ hi) ((hsame _ hi).type.trans htype) ?_ ihsub ih
      exact (hsame _ hi).dirEntries.trans hdots

/-! ### Files and links -/

/-- How a call of the tool ends that can only run out of space. -/
abbrev Makes (x : MkM Unit) (st : MkSfs) (Q : MkSfs → Prop) : Prop :=
  x.Ends st (fun _ st' => Q st') (fun e _ => e = .outOfSpace) fun _ => False

/-- Nothing has changed. -/
theorem Onward.refl (I : Finset Nat) (cur : Nat) (st : MkSfs) : Onward I cur st st where
  same := fun _ _ _ => SameFile.refl _
  cached := fun _ ci hci => ⟨ci, hci, rfl, rfl, le_refl _⟩
  ninos := rfl

/-- The reads of `open_file` append what is left of the file. -/
theorem Well.open_file_loop (h : Well I st) (hci : st.cacheInodes i = some ci)
    (htype : ci.inode.type ≠ SFS_TYPE_DIR) (n last : Nat) (data : List UInt8)
    (hn : n = (data.length + 4095) / 4096)
    (hlast : data ≠ [] → last = 4096 ∧ ci.inode.size = 4096 * ci.inode.blocks)
    (hfit : ci.inode.blocks + n ≤ 1036) (htidy : Tidy (view (vol st) i)) :
    Makes (open_file_loop i n data last) st fun st' =>
      Well I st' ∧ Onward I i st st' ∧ Tidy (view (vol st') i) ∧
        viewBytes (view (vol st') i) = viewBytes (view (vol st) i) ++ data := by
  -- The induction is on the blocks that are left to read.
  induction n generalizing st ci last data with
  | zero =>
      have hnil : data = [] := by
        rw [← List.length_eq_zero_iff]
        omega
      refine ⟨h, Onward.refl I i st, htidy, ?_⟩
      rw [hnil, List.append_nil]
  | succ n ih =>
      have hpos : data ≠ [] := by
        rintro rfl
        rw [List.length_nil] at hn
        omega
      obtain ⟨hfull, hsize⟩ := hlast hpos
      have hlen : (data.take 4096).length ≤ 4096 := by
        rw [List.length_take]
        exact min_le_left _ _
      have hmore : 0 < (data.take 4096).length := by
        rw [List.length_take]
        exact lt_min (by decide) (List.length_pos_of_ne_nil hpos)
      unfold Makes Ucore.Tools.open_file_loop
      rw [Routine.ends_bind, Routine.ends_assert, if_pos hfull]
      simp only [Routine.ends_bind]
      refine h.append hci (by omega) hlen hlen (fun hdir => absurd hdir htype) ?_ fun _ => rfl
      intro st₁ h₁
      obtain ⟨ci₁, hci₁, -, htype₁, -, hsize₁, hblocks₁, -⟩ := h₁.self ci hci
      have hbytes := h₁.viewBytes hci hlen hsize
      apply (ih h₁.well hci₁ (by rw [htype₁]; exact htype) _ (data.drop 4096) ?_ ?_ (by omega)
        (h₁.tidy hci hlen hmore hsize htidy)).mono
      · rintro _ st' ⟨hwell, hon, htidy', hbytes'⟩
        refine ⟨hwell, (h₁.onward h).trans hon (Finset.Subset.refl I), htidy', ?_⟩
        rw [hbytes', hbytes, List.append_assoc, List.take_append_drop]
      · exact fun _ _ h => h
      · exact fun _ h => h
      · rw [List.length_drop]
        omega
      · -- there is more to read only behind a full block
        intro hmore
        have hlong : 4096 ≤ data.length := by
          by_contra hshort
          exact hmore (List.drop_eq_nil_of_le (by omega))
        have hblock : (data.take 4096).length = 4096 := by
          rw [List.length_take, min_eq_left hlong]
        refine ⟨hblock, ?_⟩
        rw [hsize₁, hblocks₁, hsize, hblock]
        omega

/-- A new file gets the bytes of the file of the host. -/
theorem Well.open_file (h : Well I st) (hci : st.cacheInodes i = some (newInode real SFS_TYPE_FILE))
    {data : List UInt8} (hfit : data.length ≤ 1036 * 4096) :
    Makes (open_file i data) st fun st' =>
      Well I st' ∧ Onward I i st st' ∧ Tidy (view (vol st') i) ∧
        viewBytes (view (vol st') i) = data := by
  have htidy : Tidy (view (vol st) i) := by
    refine ⟨?_, fun pos _ => if_pos ((h.inode i _ hci).rest (pos / 4096) (Nat.zero_le _))⟩
    rw [view_din hci]
    show 0 = (0 + 4095) / 4096
    decide
  have hempty : viewBytes (view (vol st) i) = [] := by
    unfold viewBytes
    rw [view_din hci]
    rfl
  unfold Ucore.Tools.open_file
  apply (h.open_file_loop hci (show SFS_TYPE_FILE ≠ SFS_TYPE_DIR by decide) _ 4096 data rfl
    (fun _ => ⟨rfl, rfl⟩) ?_ htidy).mono
  · rintro _ st' ⟨hwell, hon, htidy', hbytes⟩
    rw [hempty] at hbytes
    exact ⟨hwell, hon, htidy', hbytes⟩
  · exact fun _ _ h => h
  · exact fun _ h => h
  · show 0 + _ ≤ 1036
    omega

/-- A new link gets the path that it stands for. -/
theorem Well.open_link (h : Well I st) (hci : st.cacheInodes i = some (newInode real SFS_TYPE_LINK))
    {target : List UInt8} (hfit : target.length < 4096) :
    Makes (open_link i target) st fun st' =>
      Well I st' ∧ Onward I i st st' ∧ viewBytes (view (vol st') i) = target := by
  have hempty : viewBytes (view (vol st) i) = [] := by
    unfold viewBytes
    rw [view_din hci]
    rfl
  unfold Makes Ucore.Tools.open_link
  simp only [if_neg (Nat.not_le.mpr hfit), Routine.ends_bind]
  refine h.append hci (show 0 < 1036 by decide) (le_of_lt hfit) (le_of_lt hfit) (fun hdir => ?_) ?_ fun _ => rfl
  · exact absurd hdir (show SFS_TYPE_LINK ≠ SFS_TYPE_DIR by decide)
  · intro st' h'
    have hbytes := h'.viewBytes hci (le_of_lt hfit) rfl
    rw [hempty] at hbytes
    exact ⟨h'.well, h'.onward h, hbytes⟩

/-! ### Between two entries -/

/-- What is known of an inode in memory that has been copied. -/
structure Copied (host : Nat → HostFile) (isDir : Nat → Prop) (v : FileView) (ci : CacheInode) :
    Prop where
  dir : ci.inode.type = SFS_TYPE_DIR → isDir ci.real
  leaf : ci.inode.type ≠ SFS_TYPE_DIR → ¬ isDir ci.real ∧
    asFile (host ci.real) = some (ci.inode.type, viewBytes v)
  tidy : ci.inode.type = SFS_TYPE_FILE → Tidy v

/-- The invariant of the loop of `open_dir`. The inodes in `new` have perhaps no entry yet. -/
structure Ready (host : Nat → HostFile) (isDir new : Nat → Prop) (I : Finset Nat) (st : MkSfs) :
    Prop where
  well : Well I st
  copied : ∀ i ci, st.cacheInodes i = some ci → Copied host isDir (view (vol st) i) ci
  linked : ∀ i ci, st.cacheInodes i = some ci → ¬ new i → ci.inode.nlinks ≠ 0

variable {isDir new : Nat → Prop}

/-- All inodes have entries. -/
def noInode : Nat → Prop := fun _ => False

/-- Some inodes may be new. -/
theorem Ready.weaken (h : Ready host isDir noInode I st) : Ready host isDir new I st :=
  { h with linked := fun i ci hci _ => h.linked i ci hci not_false }

/-- An inode that was there is still copied, when only a directory may hold something else. -/
theorem Ready.copied_later (h : Ready host isDir new I st) (hon : Onward I cur st st')
    (hcur : cur ∈ I → (view (vol st) cur).din.type = SFS_TYPE_DIR)
    (hci : st.cacheInodes i = some ci) (hci' : st'.cacheInodes i = some ci') :
    Copied host isDir (view (vol st') i) ci' := by
  obtain ⟨ci₁, hci₁, hreal, htype, -⟩ := hon.cached i ci hci
  rw [hci'] at hci₁
  cases hci₁
  have hold := h.copied i ci hci
  have hi := h.well.mem_of hci
  have hsame : ci.inode.type ≠ SFS_TYPE_DIR → SameFile (view (vol st) i) (view (vol st') i) := by
    intro hne
    refine hon.same i hi ?_
    rintro rfl
    have hdir := hcur hi
    rw [view_din hci] at hdir
    exact hne hdir
  refine ⟨?_, ?_, ?_⟩
  · rw [hreal, htype]
    exact hold.dir
  · rw [hreal, htype]
    intro hne
    rw [(hsame hne).viewBytes]
    exact hold.leaf hne
  · rw [htype]
    intro hfile
    exact (hsame (by rw [hfile]; decide)).tidy (hold.tidy hfile)

/-- A new inode beside those that were there. -/
theorem Ready.grow (h : Ready host isDir noInode I st) (hon : Onward I cur st st')
    (hcur : (view (vol st) cur).din.type = SFS_TYPE_DIR) (hwell : Well (insert i I) st')
    (hci : st'.cacheInodes i = some ci)
    (hcopied : Copied host isDir (view (vol st') i) ci) :
    Ready host isDir (fun j => j = i) (insert i I) st' where
  well := hwell
  copied := by
    intro j cj hcj
    by_cases hj : j = i
    · rw [hj] at hcj ⊢
      rw [hci] at hcj
      cases hcj
      exact hcopied
    · have hmem := Finset.mem_of_mem_insert_of_ne (hwell.mem_of hcj) hj
      obtain ⟨cj₀, hcj₀⟩ := h.well.exists_ci hmem
      exact h.copied_later hon (fun _ => hcur) hcj₀ hcj
  linked := by
    intro j cj hcj hj
    have hmem := Finset.mem_of_mem_insert_of_ne (hwell.mem_of hcj) hj
    obtain ⟨cj₀, hcj₀⟩ := h.well.exists_ci hmem
    obtain ⟨cj₁, hcj₁, -, -, hle⟩ := hon.cached j cj₀ hcj₀
    rw [hcj] at hcj₁
    cases hcj₁
    have hpos := h.linked j cj₀ hcj₀ not_false
    omega

/-- An entry for an inode. -/
theorem Ready.add_entry {file : Nat} (h : Ready host isDir (fun j => j = file) I st)
    {name : List UInt8} (hcur : cur ∈ I) (hdir : (view (vol st) cur).din.type = SFS_TYPE_DIR)
    (hroom : (dirEntries (view (vol st) cur)).length < 1036) (hfile : file ∈ I)
    (hname : NameFits name) :
    Makes (Ucore.Tools.add_entry cur file name) st fun st' =>
      Ready host isDir noInode I st' ∧ Onward I cur st st' ∧
        dirEntries (view (vol st') cur) =
          dirEntries (view (vol st) cur) ++ [⟨file, name.take 252⟩] := by
  obtain ⟨dir, hci⟩ := h.well.exists_ci hcur
  rw [length_dirEntries, view_din hci] at hroom
  have htype := hdir
  rw [view_din hci] at htype
  apply (h.well.add_entry hci htype hroom hfile hname.1 hname.2).mono
  · rintro _ st' hent
    refine ⟨⟨hent.well, fun i ci' hci' => ?_, fun i ci' hci' _ => ?_⟩, hent.onward, hent.entries⟩
    · obtain ⟨ci, hci⟩ := h.well.exists_ci (hent.well.mem_of hci')
      exact h.copied_later hent.onward (fun _ => hdir) hci hci'
    · by_cases hi : i = file
      · rw [hi] at hci'
        exact hent.linked ci' hci'
      · obtain ⟨ci, hci⟩ := h.well.exists_ci (hent.well.mem_of hci')
        obtain ⟨ci₁, hci₁, -, -, hle⟩ := hent.onward.cached i ci hci
        rw [hci'] at hci₁
        cases hci₁
        have hpos := h.linked i ci hci hi
        omega
  · exact fun _ _ h => h
  · exact fun _ h => h

/-! ### Files and links of a directory -/

/-- A directory has got an entry for a file or a link. -/
structure Added (host : Nat → HostFile) (isDir : Nat → Prop) (I I' : Finset Nat) (cur i : Nat)
    (name : List UInt8) (type : Nat) (bytes : List UInt8) (st st' : MkSfs) : Prop where
  sub : I ⊆ I'
  ready : Ready host isDir noInode I' st'
  onward : Onward I cur st st'
  entries : dirEntries (view (vol st') cur) =
    dirEntries (view (vol st) cur) ++ [⟨i, name.take 252⟩]
  mem : i ∈ I'
  type : (view (vol st') i).din.type = type
  bytes : viewBytes (view (vol st') i) = bytes
  dirs : ∀ j ∈ I', (view (vol st') j).din.type = SFS_TYPE_DIR → j ∈ I

variable {name bytes : List UInt8} {type : Nat}

/-- The entry for a file or a link that is in place. -/
theorem Ready.add_leaf (h : Ready host isDir (fun j => j = i) I' st') (hsub : I ⊆ I')
    (hon : Onward I cur st st') (hcur : cur ∈ I)
    (hdir : (view (vol st) cur).din.type = SFS_TYPE_DIR) (hcurci : st.cacheInodes cur = some ci)
    (hsame : dirEntries (view (vol st') cur) = dirEntries (view (vol st) cur))
    (hroom : (dirEntries (view (vol st) cur)).length < 1036) (hi : i ∈ I')
    (htype : (view (vol st') i).din.type = type) (hne : type ≠ SFS_TYPE_DIR)
    (hbytes : viewBytes (view (vol st') i) = bytes)
    (hdirs : ∀ j ∈ I', (view (vol st') j).din.type = SFS_TYPE_DIR → j ∈ I) (hname : NameFits name) :
    Makes (Ucore.Tools.add_entry cur i name) st' fun st'' =>
      ∃ I' i, Added host isDir I I' cur i name type bytes st st'' := by
  have hdir' : (view (vol st') cur).din.type = SFS_TYPE_DIR := by
    rw [hon.type_eq hcurci]
    exact hdir
  have hcases : i ≠ cur := by
    rintro rfl
    exact hne (htype.symm.trans hdir')
  apply (h.add_entry (hsub hcur) hdir' (by rw [hsame]; exact hroom) hi hname).mono
  · rintro _ st'' ⟨hready, hon', hentries⟩
    have hfile := hon'.same i hi hcases
    refine ⟨I', i, hsub, hready, hon.trans hon' hsub, ?_, hi, ?_, ?_, ?_⟩
    · rw [hentries, hsame]
    · rw [hfile.type]
      exact htype
    · rw [hfile.viewBytes]
      exact hbytes
    · intro j hj hjdir
      obtain ⟨cj, hcj⟩ := h.well.exists_ci hj
      rw [hon'.type_eq hcj] at hjdir
      exact hdirs j hj hjdir
  · exact fun _ _ h => h
  · exact fun _ h => h

/-- A new inode, filled by `fill`, and its entry. -/
theorem Ready.add_new (h : Ready host isDir noInode I st) (hcur : cur ∈ I)
    (hdir : (view (vol st) cur).din.type = SFS_TYPE_DIR)
    (hroom : (dirEntries (view (vol st) cur)).length < 1036) (fill : Nat → MkM Unit)
    (htype : type = SFS_TYPE_FILE ∨ type = SFS_TYPE_LINK)
    (hfill : ∀ I i st, Well I st → st.cacheInodes i = some (newInode real type) →
      Makes (fill i) st fun st' =>
        Well I st' ∧ Onward I i st st' ∧ (type = SFS_TYPE_FILE → Tidy (view (vol st') i)) ∧
          viewBytes (view (vol st') i) = bytes)
    (hfile : asFile (host real) = some (type, bytes)) (hleaf : ¬ isDir real)
    (hname : NameFits name) :
    Makes (do
      let file ← alloc_cache_inode real 0 type
      fill file
      Ucore.Tools.add_entry cur file name) st fun st' =>
        ∃ I' i, Added host isDir I I' cur i name type bytes st st' := by
  obtain ⟨ci, hci⟩ := h.well.exists_ci hcur
  have hne : type ≠ SFS_TYPE_DIR := by
    rcases htype with rfl | rfl <;> decide
  unfold Makes
  rw [Routine.ends_bind, ends_alloc_cache_inode]
  split_ifs with hlt
  · have hnot := h.well.next_not_mem hlt
    obtain ⟨hwell₁, hon₁⟩ := h.well.withNew real cur hlt
      (htype.imp_right Or.inr)
    rw [Routine.ends_bind]
    -- The new inode is filled, and then it gets its entry in the directory.
    apply (hfill _ _ _ hwell₁ cacheInodes_withNew_self).mono
    · rintro _ st₂ ⟨hwell₂, hon₂, htidy₂, hbytes₂⟩
      have hon : Onward I cur st st₂ :=
        hon₁.trans (hon₂.of_not_mem (Finset.subset_insert ..) hnot cur) (Finset.Subset.refl I)
      obtain ⟨ci₂, hci₂, hreal₂, htype₂, -⟩ := hon₂.cached _ _ cacheInodes_withNew_self
      have hready : Ready host isDir (fun j => j = st.next_ino) (insert st.next_ino I) st₂ := by
        refine h.grow hon hdir hwell₂ hci₂ ⟨fun hd => ?_, fun _ => ?_, fun hf => ?_⟩
        · exact absurd (htype₂.symm.trans hd) hne
        · rw [hreal₂, htype₂, hbytes₂]
          exact ⟨hleaf, hfile⟩
        · exact htidy₂ (htype₂.symm.trans hf)
      have hsame : SameFile (view (vol st) cur) (view (vol st₂) cur) := by
        have hcases : cur ≠ st.next_ino := fun heq => hnot (heq ▸ hcur)
        have hsecond := hon₂.same cur (Finset.mem_insert_of_mem hcur) hcases
        rw [view_withNew_of_ne hcases] at hsecond
        exact hsecond
      refine hready.add_leaf (Finset.subset_insert ..) hon hcur hdir hci hsame.dirEntries hroom
        (Finset.mem_insert_self ..) ?_ hne hbytes₂ ?_ hname
      · rw [view_din hci₂]
        exact htype₂
      -- The new inode is no directory, so the directories are the old ones.
      · intro j hj hjdir
        refine Finset.mem_of_mem_insert_of_ne hj ?_
        rintro rfl
        rw [view_din hci₂] at hjdir
        exact hne (htype₂.symm.trans hjdir)
    · exact fun _ _ h => h
    · exact fun _ h => h
  · rfl

/-- `add_file` makes an entry for the file, and copies it unless it has been copied under another
name. -/
theorem Ready.add_file (h : Ready host isDir noInode I st) {data : List UInt8} (hcur : cur ∈ I)
    (hdir : (view (vol st) cur).din.type = SFS_TYPE_DIR)
    (hroom : (dirEntries (view (vol st) cur)).length < 1036) (hhost : host real = .reg data)
    (hfit : data.length ≤ 1036 * 4096) (hleaf : ¬ isDir real) (hname : NameFits name) :
    Makes (Ucore.Tools.add_file cur name real data) st fun st' =>
      ∃ I' i, Added host isDir I I' cur i name SFS_TYPE_FILE data st st' := by
  have hfile : asFile (host real) = some (SFS_TYPE_FILE, data) := by
    rw [hhost]
    rfl
  obtain ⟨dir, hci⟩ := h.well.exists_ci hcur
  unfold Makes Ucore.Tools.add_file
  rw [Routine.ends_bind]
  apply h.well.search
  · -- a hard link
    rintro i ci hcii rfl
    have hi := h.well.mem_of hcii
    have hcopied := h.copied i ci hcii
    have hne : ci.inode.type ≠ SFS_TYPE_DIR := fun hd => hleaf (hcopied.dir hd)
    obtain ⟨-, heq⟩ := hcopied.leaf hne
    rw [hfile] at heq
    have hpair := Option.some.inj heq
    have hbytes : viewBytes (view (vol st) i) = data := (congrArg Prod.snd hpair).symm
    refine h.weaken.add_leaf (Finset.Subset.refl I) (Onward.refl I cur st) hcur hdir hci rfl hroom hi
      ?_ (by decide) hbytes (fun j hj _ => hj) hname
    rw [view_din hcii]
    exact (congrArg Prod.fst hpair).symm
  · intro _
    exact h.add_new hcur hdir hroom (fun file => Ucore.Tools.open_file file data) (Or.inl rfl)
      (fun _ _ _ hw hc => (hw.open_file hc hfit).mono
        (fun _ _ h => ⟨h.1, h.2.1, fun _ => h.2.2.1, h.2.2.2⟩) (fun _ _ h => h) fun _ h => h)
      hfile hleaf hname

/-- `add_link` makes an inode and an entry for the link. -/
theorem Ready.add_link (h : Ready host isDir noInode I st) {target : List UInt8} (hcur : cur ∈ I)
    (hdir : (view (vol st) cur).din.type = SFS_TYPE_DIR)
    (hroom : (dirEntries (view (vol st) cur)).length < 1036) (hhost : host real = .lnk target)
    (hfit : target.length < 4096) (hleaf : ¬ isDir real) (hname : NameFits name) :
    Makes (Ucore.Tools.add_link cur name real target) st fun st' =>
      ∃ I' i, Added host isDir I I' cur i name SFS_TYPE_LINK target st st' := by
  refine h.add_new hcur hdir hroom (fun file => Ucore.Tools.open_link file target) (Or.inr rfl)
    (fun _ _ _ hw hc => (hw.open_link hc hfit).mono
      (fun _ _ h => ⟨h.1, h.2.1, fun hf => absurd hf (by decide), h.2.2⟩) (fun _ _ h => h)
      fun _ h => h) ?_ hleaf hname
  rw [hhost]
  rfl

/-! ### Directories -/

/-- The directory that `open_dir` has come to, and what it still has to copy. -/
structure Ahead (host : Nat → HostFile) (isDir : Nat → Prop) (I : Finset Nat) (cur : Nat)
    (d : HostDir) (st : MkSfs) : Prop where
  mem : cur ∈ I
  dir : (view (vol st) cur).din.type = SFS_TYPE_DIR
  room : (dirEntries (view (vol st) cur)).length + count d ≤ 1036
  fits : Fits host d
  dirs : ∀ r ∈ dirReals d, isDir r
  leaves : ∀ r ∈ leafReals d, ¬ isDir r
  nodup : (dirReals d).Nodup
  /-- The directories to come have not been copied. -/
  fresh : ∀ i ci, st.cacheInodes i = some ci → ci.inode.type = SFS_TYPE_DIR →
    ci.real ∉ dirReals d

/-- The inodes that hold a part of the tree: new ones, and files that were there. -/
def Part (I I' : Finset Nat) (st : MkSfs) (i : Nat) : Prop :=
  i ∈ I' ∧ (i ∈ I → (view (vol st) i).din.type ≠ SFS_TYPE_DIR)

/-- A directory has been copied. -/
structure Held (host : Nat → HostFile) (isDir : Nat → Prop) (I I' : Finset Nat) (cur : Nat)
    (d : HostDir) (es : List SfsDiskEntry) (st st' : MkSfs) : Prop where
  sub : I ⊆ I'
  ready : Ready host isDir noInode I' st'
  onward : Onward I cur st st'
  entries : dirEntries (view (vol st') cur) = dirEntries (view (vol st) cur) ++ es
  holds : HoldsDir host (view (vol st')) (Part I I' st') cur d es
  dirs : ∀ i ci, st'.cacheInodes i = some ci → ci.inode.type = SFS_TYPE_DIR →
    i ∈ I ∨ ci.real ∈ dirReals d

/-- What has been copied stays when the rest of the directory is. -/
theorem Part.same {I₁ I₂ : Finset Nat} {st₁ st₂ : MkSfs} (h : Part I I₁ st₁ i)
    (hon : Onward I₁ cur st₁ st₂) (hcur : cur ∈ I)
    (hdir : (view (vol st₁) cur).din.type = SFS_TYPE_DIR) (hsub : I₁ ⊆ I₂) :
    SameFile (view (vol st₁) i) (view (vol st₂) i) ∧ Part I I₂ st₂ i := by
  have hne : i ≠ cur := by
    rintro rfl
    exact h.2 hcur hdir
  have hsame := hon.same i h.1 hne
  refine ⟨hsame, hsub h.1, fun hi => ?_⟩
  rw [hsame.type]
  exact h.2 hi

/-- The type of a directory stays. -/
theorem Onward.dir {I' : Finset Nat} (h : Onward I' i st st') (hwell : Well I st) (hcur : cur ∈ I)
    (hdir : (view (vol st) cur).din.type = SFS_TYPE_DIR) :
    (view (vol st') cur).din.type = SFS_TYPE_DIR := by
  obtain ⟨ci, hci⟩ := hwell.exists_ci hcur
  rw [h.type_eq hci]
  exact hdir

/-- The first two entries of a new directory. -/
theorem Ready.open_dir_dots (h : Ready host isDir (fun j => j = i) I st) (hi : i ∈ I)
    (hcur : cur ∈ I) (hdir : (view (vol st) i).din.type = SFS_TYPE_DIR)
    (hempty : dirEntries (view (vol st) i) = []) :
    Makes (Ucore.Tools.open_dir_dots i cur) st fun st' =>
      Ready host isDir noInode I st' ∧ Onward I i st st' ∧
        dirEntries (view (vol st') i) = [⟨i, [46]⟩, ⟨cur, [46, 46]⟩] := by
  unfold Ucore.Tools.open_dir_dots
  apply (h.add_entry hi hdir (by rw [hempty]; decide) hi ⟨by decide, by decide⟩).seq
  · rintro _ st₁ ⟨h₁, hon₁, hentries₁⟩
    rw [hempty] at hentries₁
    have hroom₁ : (dirEntries (view (vol st₁) i)).length < 1036 := by
      rw [hentries₁]
      exact (show 1 < 1036 by decide)
    apply (h₁.weaken.add_entry hi (hon₁.dir h.well hi hdir) hroom₁ hcur
      ⟨by decide, by decide⟩).mono
    · rintro _ st₂ ⟨h₂, hon₂, hentries₂⟩
      refine ⟨h₂, hon₁.trans hon₂ (Finset.Subset.refl I), ?_⟩
      rw [hentries₂, hentries₁]
      rfl
    · exact fun _ _ h => h
    · exact fun _ h => h
  · exact fun _ _ h => h
  · exact fun _ h => h

/-- A file or a link of the directory, or a warning. -/
theorem Ready.open_dir_node (h : Ready host isDir noInode I st) (hcur : cur ∈ I)
    (hdir : (view (vol st) cur).din.type = SFS_TYPE_DIR)
    (hroom : (dirEntries (view (vol st) cur)).length < 1036) (hfit : FileFits (host real))
    (hleaf : ¬ isDir real) (hname : NameFits name) :
    Makes (Ucore.Tools.open_dir_node host cur name real) st fun st' =>
      (asFile (host real) = none ∧ st' = st) ∨
        ∃ type bytes, asFile (host real) = some (type, bytes) ∧ type ≠ SFS_TYPE_DIR ∧
          ∃ I' i, Added host isDir I I' cur i name type bytes st st' := by
  unfold Ucore.Tools.open_dir_node
  cases hhost : host real with
  | other => exact Or.inl ⟨rfl, rfl⟩
  | reg data =>
      rw [hhost] at hfit
      apply (h.add_file hcur hdir hroom hhost hfit hleaf hname).mono
      · exact fun _ st' hadd => Or.inr ⟨SFS_TYPE_FILE, data, rfl, by decide, hadd⟩
      · exact fun _ _ h => h
      · exact fun _ h => h
  | lnk target =>
      rw [hhost] at hfit
      apply (h.add_link hcur hdir hroom hhost hfit hleaf hname).mono
      · exact fun _ st' hadd => Or.inr ⟨SFS_TYPE_LINK, target, rfl, by decide, hadd⟩
      · exact fun _ _ h => h
      · exact fun _ h => h

/-- A directory of the host gets a new inode. -/
theorem Ready.add_dir_alloc (h : Ready host isDir noInode I st) (hcur : cur ∈ I)
    (hdir : (view (vol st) cur).din.type = SFS_TYPE_DIR) (hreal : isDir real)
    (hfresh : ∀ i ci, st.cacheInodes i = some ci → ci.inode.type = SFS_TYPE_DIR →
      ci.real ≠ real) :
    (Ucore.Tools.add_dir_alloc real).Ends st
      (fun i st' => i ∉ I ∧ Ready host isDir (fun j => j = i) (insert i I) st' ∧
        Onward I cur st st' ∧ SameFile (view (vol st) cur) (view (vol st') cur) ∧
        st'.cacheInodes i = some (newInode real SFS_TYPE_DIR) ∧
        ∀ j ∈ I, st'.cacheInodes j = st.cacheInodes j)
      (fun e _ => e = .outOfSpace) fun _ => False := by
  unfold Ucore.Tools.add_dir_alloc
  rw [Routine.ends_bind]
  apply h.well.search
  · intro i ci hci heq
    have hcopied := h.copied i ci hci
    by_cases htype : ci.inode.type = SFS_TYPE_DIR
    · exact absurd heq (hfresh i ci hci htype)
    · exact absurd (heq ▸ hreal) (hcopied.leaf htype).1
  · intro _
    rw [Routine.ends_bind, Routine.ends_assert, if_pos rfl, ends_alloc_cache_inode]
    split_ifs with hlt
    · have hnot := h.well.next_not_mem hlt
      obtain ⟨hwell₁, hon₁⟩ := h.well.withNew real cur hlt
        (Or.inr (Or.inl (Eq.refl SFS_TYPE_DIR)))
      have hne : ∀ j ∈ I, j ≠ st.next_ino := fun j hj heq => hnot (heq ▸ hj)
      refine ⟨hnot, h.grow hon₁ hdir hwell₁ cacheInodes_withNew_self
        ⟨fun _ => hreal, ?_, fun hf => absurd hf (show SFS_TYPE_DIR ≠ SFS_TYPE_FILE by decide)⟩, hon₁,
        ?_, cacheInodes_withNew_self, fun j hj => cacheInodes_withNew_of_ne (hne j hj)⟩
      · exact fun hno => absurd rfl hno
      · rw [view_withNew_of_ne (hne cur hcur)]
        exact SameFile.refl _
    · rfl

/-! ### The recursion -/

/-- What a later state knows of the directories that were there. -/
theorem Ready.dir_real (h : Ready host isDir new I st) (hon : Onward I cur st st') (hi : i ∈ I)
    (hci' : st'.cacheInodes i = some ci') (hdir : ci'.inode.type = SFS_TYPE_DIR) :
    ∃ ci, st.cacheInodes i = some ci ∧ ci.inode.type = SFS_TYPE_DIR ∧ ci.real = ci'.real := by
  obtain ⟨ci, hci⟩ := h.well.exists_ci hi
  obtain ⟨ci₁, hci₁, hreal, htype, -⟩ := hon.cached i ci hci
  rw [hci'] at hci₁
  cases hci₁
  exact ⟨ci, hci, htype.symm.trans hdir, hreal.symm⟩

/-- A directory has got one more entry, and beside it the directories `reals` have been copied. -/
structure OneMore (host : Nat → HostFile) (isDir : Nat → Prop) (I I' : Finset Nat) (cur : Nat)
    (e : SfsDiskEntry) (reals : List Nat) (st st' : MkSfs) : Prop where
  sub : I ⊆ I'
  ready : Ready host isDir noInode I' st'
  onward : Onward I cur st st'
  entries : dirEntries (view (vol st') cur) = dirEntries (view (vol st) cur) ++ [e]
  dirs : ∀ i ci, st'.cacheInodes i = some ci → ci.inode.type = SFS_TYPE_DIR →
    i ∈ I ∨ ci.real ∈ reals

/-- No directory of the host has been copied beside the new entry. -/
theorem Added.oneMore (h : Added host isDir I I' cur i name type bytes st st') :
    OneMore host isDir I I' cur ⟨i, name.take 252⟩ [] st st' where
  sub := h.sub
  ready := h.ready
  onward := h.onward
  entries := h.entries
  dirs := fun j cj hcj hdir =>
    Or.inl (h.dirs j (h.ready.well.mem_of hcj) (by rw [view_din hcj]; exact hdir))

variable {d rest : HostDir} {e : SfsDiskEntry} {es : List SfsDiskEntry} {reals : List Nat}
  {I₁ I₂ : Finset Nat} {st₁ st₂ : MkSfs}

/-- The rest of the directory lies ahead. -/
theorem OneMore.ahead (h : OneMore host isDir I I₁ cur e reals st st₁)
    (hr : Ready host isDir noInode I st) (hd : Ahead host isDir I cur d st)
    (hcount : count d = count rest + 1) (hfits : Fits host rest)
    (hdirs : dirReals d = reals ++ dirReals rest)
    (hleaves : ∀ r ∈ leafReals rest, r ∈ leafReals d) : Ahead host isDir I₁ cur rest st₁ := by
  have hnodup := hd.nodup
  rw [hdirs] at hnodup
  refine ⟨h.sub hd.mem, h.onward.dir hr.well hd.mem hd.dir, ?_, hfits, ?_, ?_,
    hnodup.of_append_right, ?_⟩
  · have hroom := hd.room
    rw [h.entries, List.length_append, List.length_singleton]
    omega
  · intro r hrest
    exact hd.dirs r (by rw [hdirs]; exact List.mem_append_right _ hrest)
  · exact fun r hrest => hd.leaves r (hleaves r hrest)
  · intro j cj hcj hjdir hmem
    rcases h.dirs j cj hcj hjdir with hj | hreal
    · obtain ⟨cj₀, hcj₀, htype₀, hreal₀⟩ := hr.dir_real h.onward hj hcj hjdir
      rw [← hreal₀] at hmem
      exact hd.fresh j cj₀ hcj₀ htype₀ (by rw [hdirs]; exact List.mem_append_right _ hmem)
    · exact List.disjoint_of_nodup_append hnodup hreal hmem

/-- The entry and the rest of the directory. -/
theorem OneMore.held (h : OneMore host isDir I I₁ cur e reals st st₁)
    (hheld : Held host isDir I₁ I₂ cur rest es st₁ st₂)
    (hdirs : dirReals d = reals ++ dirReals rest)
    (hholds : HoldsDir host (view (vol st₂)) (Part I I₂ st₂) cur rest es →
      HoldsDir host (view (vol st₂)) (Part I I₂ st₂) cur d (e :: es)) :
    Held host isDir I I₂ cur d (e :: es) st st₂ where
  sub := h.sub.trans hheld.sub
  ready := hheld.ready
  onward := h.onward.trans hheld.onward h.sub
  entries := by
    rw [hheld.entries, h.entries, List.append_assoc]
    rfl
  holds := hholds (hheld.holds.mono (fun _ _ => SameFile.refl _) fun _ hj =>
    ⟨hj.1, fun hold => hj.2 (h.sub hold)⟩)
  dirs := by
    intro j cj hcj hjdir
    rw [hdirs, List.mem_append]
    rcases hheld.dirs j cj hcj hjdir with hj | hreal
    · obtain ⟨cj₁, hcj₁, htype₁, hreal₁⟩ := h.ready.dir_real hheld.onward hj hcj hjdir
      rw [← hreal₁]
      exact (h.dirs j cj₁ hcj₁ htype₁).imp_right Or.inl
    · exact Or.inr (Or.inr hreal)

/-- An entry that is skipped changes nothing. -/
theorem Ahead.skip (hd : Ahead host isDir I cur d st) (hcount : count d = count rest)
    (hfits : Fits host rest) (hdirs : dirReals d = dirReals rest)
    (hleaves : ∀ r ∈ leafReals rest, r ∈ leafReals d) : Ahead host isDir I cur rest st where
  mem := hd.mem
  dir := hd.dir
  room := hcount ▸ hd.room
  fits := hfits
  dirs := hdirs ▸ hd.dirs
  leaves := fun r hr => hd.leaves r (hleaves r hr)
  nodup := hdirs ▸ hd.nodup
  fresh := hdirs ▸ hd.fresh

/-- `add_dir`, with the loop of its `open_dir` as `ih`. -/
theorem Ready.add_dir {sub : HostDir} (h : Ready host isDir noInode I st) (hcur : cur ∈ I)
    (hdir : (view (vol st) cur).din.type = SFS_TYPE_DIR)
    (hroom : (dirEntries (view (vol st) cur)).length < 1036) (hname : NameFits name)
    (hcount : count sub ≤ 1034) (hfits : Fits host sub) (hreal : isDir real)
    (hdirs : ∀ r ∈ dirReals sub, isDir r) (hleaves : ∀ r ∈ leafReals sub, ¬ isDir r)
    (hnodup : (real :: dirReals sub).Nodup)
    (hfresh : ∀ i ci, st.cacheInodes i = some ci → ci.inode.type = SFS_TYPE_DIR →
      ci.real ∉ real :: dirReals sub)
    (ih : ∀ {I : Finset Nat} {st : MkSfs} {cur : Nat}, Ready host isDir noInode I st →
      Ahead host isDir I cur sub st →
      Makes (Ucore.Tools.open_dir_loop host cur sub) st fun st' =>
        ∃ I' es, Held host isDir I I' cur sub es st st') :
    Makes (Ucore.Tools.add_dir cur name real fun dir => do
        Ucore.Tools.open_dir_dots dir cur
        Ucore.Tools.open_dir_loop host dir sub) st fun st' =>
        ∃ I' i es, OneMore host isDir I I' cur ⟨i, name.take 252⟩ (real :: dirReals sub) st st' ∧
          Part I I' st' i ∧ (view (vol st') i).din.type = SFS_TYPE_DIR ∧
          dirEntries (view (vol st') i) = ⟨i, [46]⟩ :: ⟨cur, [46, 46]⟩ :: es ∧
          HoldsDir host (view (vol st')) (Part I I' st') i sub es := by
  unfold Ucore.Tools.add_dir
  apply (h.add_dir_alloc hcur hdir hreal fun i ci hci htype heq =>
    hfresh i ci hci htype (heq ▸ List.mem_cons_self ..)).seq
  -- The inode of the new directory, then its two dots, then what is in it, and the entry in `cur`
  -- last.
  · rintro i st₁ ⟨hnot, h₁, hon₁, hsame₁, hci₁, hold₁⟩
    have hi : i ∈ insert i I := Finset.mem_insert_self ..
    have hcur₁ : cur ∈ insert i I := Finset.mem_insert_of_mem hcur
    have hcases : cur ≠ i := fun heq => hnot (heq ▸ hcur)
    have hempty : dirEntries (view (vol st₁) i) = [] := by
      unfold dirEntries
      rw [view_din hci₁]
      rfl
    have htype₁ : (view (vol st₁) i).din.type = SFS_TYPE_DIR := by
      rw [view_din hci₁]
      rfl
    rw [Routine.ends_bind, Routine.ends_bind]
    apply (h₁.open_dir_dots hi hcur₁ htype₁ hempty).mono
    · rintro _ st₂ ⟨h₂, hon₂, hentries₂⟩
      -- the new directory is the only one in which copying goes on
      have hahead : Ahead host isDir (insert i I) i sub st₂ := by
        refine ⟨hi, hon₂.dir h₁.well hi htype₁, ?_, hfits, hdirs, hleaves, hnodup.of_cons, ?_⟩
        · rw [hentries₂]
          show 2 + count sub ≤ 1036
          omega
        · intro j cj hcj hjdir hmem
          obtain ⟨cj₁, hcj₁, htype, hreal₁⟩ :=
            h₁.dir_real hon₂ (h₂.well.mem_of hcj) hcj hjdir
          by_cases hj : j = i
          · rw [hj, hci₁] at hcj₁
            cases hcj₁
            rw [← hreal₁] at hmem
            exact (List.nodup_cons.mp hnodup).1 hmem
          · rw [hold₁ j (Finset.mem_of_mem_insert_of_ne (h₂.well.mem_of hcj) hj)] at hcj₁
            rw [← hreal₁] at hmem
            exact hfresh j cj₁ hcj₁ htype (List.mem_cons_of_mem _ hmem)
      apply (ih h₂ hahead).mono
      · rintro _ st₃ ⟨I₃, es, hheld⟩
        -- So far `cur` has not changed. It is neither the new directory nor one below it.
        have hon₃ : Onward I cur st st₃ := by
          have hlater := hon₂.trans hheld.onward (Finset.Subset.refl _)
          exact hon₁.trans (hlater.of_not_mem (Finset.subset_insert i I) hnot cur)
            (Finset.Subset.refl I)
        have hsame₃ : SameFile (view (vol st₁) cur) (view (vol st₃) cur) :=
          (hon₂.same cur hcur₁ hcases).trans (hheld.onward.same cur hcur₁ hcases)
        have hentries₃ : dirEntries (view (vol st₃) cur) = dirEntries (view (vol st) cur) :=
          (hsame₁.trans hsame₃).dirEntries
        have hi₃ := hheld.sub hi
        have htype₃ : (view (vol st₃) i).din.type = SFS_TYPE_DIR :=
          hheld.onward.dir h₂.well hi (hon₂.dir h₁.well hi htype₁)
        apply (hheld.ready.weaken.add_entry (hheld.sub hcur₁) (hon₃.dir h.well hcur hdir)
          (by rw [hentries₃]; exact hroom) hi₃ hname).mono
        · rintro _ st₄ ⟨h₄, hon₄, hentries₄⟩
          have hsame₄ := hon₄.same i hi₃ (Ne.symm hcases)
          refine ⟨I₃, i, es, ⟨?_, h₄, hon₃.trans hon₄ ?_, ?_, ?_⟩, ⟨hi₃, fun hold => ?_⟩, ?_, ?_, ?_⟩
          · exact (Finset.subset_insert i I).trans hheld.sub
          · exact (Finset.subset_insert i I).trans hheld.sub
          · rw [hentries₄, hentries₃]
          · intro j cj hcj hjdir
            obtain ⟨cj₃, hcj₃, htype, hreal₃⟩ :=
              hheld.ready.dir_real hon₄ (h₄.well.mem_of hcj) hcj hjdir
            rw [← hreal₃]
            rcases hheld.dirs j cj₃ hcj₃ htype with hj | hj
            · rcases Finset.mem_insert.mp hj with rfl | hj
              · -- the new directory itself
                obtain ⟨cj₂, hcj₂, hreal₂, -⟩ := (hon₂.trans hheld.onward
                  (Finset.Subset.refl _)).cached j _ hci₁
                rw [hcj₃] at hcj₂
                cases hcj₂
                rw [hreal₂]
                exact Or.inr (List.mem_cons_self ..)
              · exact Or.inl hj
            · exact Or.inr (List.mem_cons_of_mem _ hj)
          · exact absurd hold hnot
          · rw [hsame₄.type]
            exact htype₃
          · rw [hsame₄.dirEntries, hheld.entries, hentries₂]
            rfl
          · -- the sub-tree lies in inodes other than the directory with the new entry
            have hpart : ∀ j, Part (insert i I) I₃ st₃ j →
                SameFile (view (vol st₃) j) (view (vol st₄) j) ∧ Part I I₃ st₄ j := by
              intro j hj
              have hjcur : j ≠ cur := by
                rintro rfl
                exact hj.2 hcur₁ (hon₃.dir h.well hcur hdir)
              have hsame := hon₄.same j hj.1 hjcur
              refine ⟨hsame, hj.1, fun hold => ?_⟩
              rw [hsame.type]
              exact hj.2 (Finset.mem_insert_of_mem hold)
            exact hheld.holds.mono (fun j hj => (hpart j hj).1) fun j hj => (hpart j hj).2
        · exact fun _ _ h => h
        · exact fun _ h => h
      · exact fun _ _ h => h
      · exact fun _ h => h
    · exact fun _ _ h => h
    · exact fun _ h => h
  · exact fun _ _ h => h
  · exact fun _ h => h

/-- **The loop of `open_dir` copies what it has to copy of the directory.** -/
theorem Ready.open_dir_loop (d : HostDir) (h : Ready host isDir noInode I st)
    (hd : Ahead host isDir I cur d st) :
    Makes (Ucore.Tools.open_dir_loop host cur d) st fun st' =>
      ∃ I' es, Held host isDir I I' cur d es st st' := by
  induction d generalizing I st cur with
  -- The end of the host directory.
  | nil =>
      exact ⟨I, [], Finset.Subset.refl I, h, Onward.refl I cur st, (List.append_nil _).symm,
        .nil cur, fun i ci hci _ => Or.inl (h.well.mem_of hci)⟩
  -- Something that is no directory: a name that is skipped, a host file of another kind, or a file
  -- or link that becomes an entry.
  | node name real rest ih =>
      unfold Makes Ucore.Tools.open_dir_loop
      by_cases hskip : skipped name
      · have hrest : Ahead host isDir I cur rest st := by
          refine hd.skip (if_pos hskip) hd.fits.2 rfl fun r hr => ?_
          unfold leafReals
          rw [if_pos hskip]
          exact hr
        rw [if_pos hskip]
        apply (ih h hrest).mono
        · rintro _ st' ⟨I', es, hheld⟩
          exact ⟨I', es, { hheld with holds := .skip_node hskip hheld.holds }⟩
        · exact fun _ _ h => h
        · exact fun _ h => h
      · obtain ⟨hname, hfile⟩ := hd.fits.1 hskip
        have hcount : count (.node name real rest) = count rest + 1 := if_neg hskip
        have hleaves : leafReals (.node name real rest) = real :: leafReals rest := if_neg hskip
        have hroom := hd.room
        have hleaf := hd.leaves real (by rw [hleaves]; exact List.mem_cons_self ..)
        have hsub : ∀ r ∈ leafReals rest, r ∈ leafReals (.node name real rest) := fun r hr => by
          rw [hleaves]
          exact List.mem_cons_of_mem _ hr
        rw [if_neg hskip, if_neg (Nat.not_lt.mpr hname.1)]
        apply (h.open_dir_node hd.mem hd.dir (by omega) hfile hleaf hname).seq
        · rintro _ st₁ (⟨hnone, rfl⟩ | ⟨type, bytes, hsome, htype, I₁, i, hadd⟩)
          · have hrest : Ahead host isDir I cur rest st₁ :=
              ⟨hd.mem, hd.dir, by omega, hd.fits.2, hd.dirs, fun r hr => hd.leaves r (hsub r hr),
                hd.nodup, hd.fresh⟩
            apply (ih h hrest).mono
            -- `open_dir` leaves out what is neither a file nor a link.
            · rintro _ st' ⟨I', es, hheld⟩
              exact ⟨I', es, { hheld with holds := .other hskip hnone hheld.holds }⟩
            · exact fun _ _ h => h
            · exact fun _ h => h
          · have hmore := hadd.oneMore
            have hrest := hmore.ahead h hd hcount hd.fits.2 rfl hsub
            apply (ih hadd.ready hrest).mono
            · rintro _ st₂ ⟨I₂, es, hheld⟩
              -- The rest of the directory comes later and leaves the new file as it is.
              have hpart : Part I I₁ st₁ i := ⟨hadd.mem, fun _ => by rw [hadd.type]; exact htype⟩
              obtain ⟨hsame, hpart₂⟩ := hpart.same hheld.onward hd.mem hrest.dir hheld.sub
              refine ⟨I₂, _, hmore.held hheld rfl fun hholds => ?_⟩
              refine .node hskip hsome hpart₂ ?_ ?_ hholds
              · rw [hsame.type]
                exact hadd.type
              · rw [hsame.viewBytes]
                exact hadd.bytes
            · exact fun _ _ h => h
            · exact fun _ h => h
        · exact fun _ _ h => h
        · exact fun _ h => h
  -- A directory: `ihsub` builds what is below it, in its own inode, and `ihrest` goes on behind it.
  | dir name real sub rest ihsub ihrest =>
      unfold Makes Ucore.Tools.open_dir_loop
      by_cases hskip : skipped name
      · have hrest : Ahead host isDir I cur rest st := by
          refine hd.skip (if_pos hskip) hd.fits.2 (if_pos hskip) fun r hr => ?_
          unfold leafReals
          rw [if_pos hskip]
          exact hr
        rw [if_pos hskip]
        apply (ihrest h hrest).mono
        · rintro _ st' ⟨I', es, hheld⟩
          refine ⟨I', es, { hheld with holds := .skip_dir hskip hheld.holds, dirs := ?_ }⟩
          have hdirs : dirReals (.dir name real sub rest) = dirReals rest := if_pos hskip
          rw [hdirs]
          exact hheld.dirs
        · exact fun _ _ h => h
        · exact fun _ h => h
      · obtain ⟨hname, hcountSub, hfitsSub⟩ := hd.fits.1 hskip
        have hcount : count (.dir name real sub rest) = count rest + 1 := if_neg hskip
        have hdirs : dirReals (.dir name real sub rest) =
            (real :: dirReals sub) ++ dirReals rest := if_neg hskip
        have hleaves : leafReals (.dir name real sub rest) = leafReals sub ++ leafReals rest :=
          if_neg hskip
        have hroom := hd.room
        have hall : ∀ r ∈ real :: dirReals sub, r ∈ dirReals (.dir name real sub rest) :=
          fun r hr => by
            rw [hdirs]
            exact List.mem_append_left _ hr
        have hnodup := hd.nodup
        rw [hdirs] at hnodup
        rw [if_neg hskip, if_neg (Nat.not_lt.mpr hname.1)]
        apply (h.add_dir hd.mem hd.dir (by omega) hname hcountSub hfitsSub
          (hd.dirs real (hall real (List.mem_cons_self ..)))
          (fun r hr => hd.dirs r (hall r (List.mem_cons_of_mem _ hr)))
          (fun r hr => hd.leaves r (by rw [hleaves]; exact List.mem_append_left _ hr))
          hnodup.of_append_left
          (fun i ci hci htype hmem => hd.fresh i ci hci htype (hall _ hmem)) ihsub).seq
        · rintro _ st₁ ⟨I₁, i, subs, hmore, hpart, htype, hdots, hsubs⟩
          have hrest := hmore.ahead h hd hcount hd.fits.2 hdirs fun r hr => by
            rw [hleaves]
            exact List.mem_append_right _ hr
          apply (ihrest hmore.ready hrest).mono
          -- The subdirectory and all that it holds stay as they are while the rest is built.
          · rintro _ st₂ ⟨I₂, es, hheld⟩
            obtain ⟨hsame, hpart₂⟩ := hpart.same hheld.onward hd.mem hrest.dir hheld.sub
            refine ⟨I₂, _, hmore.held hheld hdirs fun hholds => ?_⟩
            refine .dir hskip hpart₂ ?_ ?_ (hsubs.mono (fun j hj => ?_) fun j hj => ?_) hholds
            · rw [hsame.type]
              exact htype
            · rw [hsame.dirEntries]
              exact hdots
            · exact (hj.same hheld.onward hd.mem hrest.dir hheld.sub).1
            · exact (hj.same hheld.onward hd.mem hrest.dir hheld.sub).2
          · exact fun _ _ h => h
          · exact fun _ h => h
        · exact fun _ _ h => h
        · exact fun _ h => h

end Ucore.Proofs.Tools
