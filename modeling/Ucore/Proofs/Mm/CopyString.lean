import Ucore.Mm.UserCopy
import Ucore.Proofs.Mm.UserMemCheck

/-!
# `Ucore.Proofs.Mm.CopyString`: the strings that `copy_string` copies

Each part lies in one page. The areas consist of whole pages, so `user_mem_check` accepts the part
if and only if it accepts the page (`userMemCheck_part`). The induction of `copyStringLoop_spec` is
on the parts that are left.

The loop copies page by page: a part is the rest of the page or of `maxn`, it is checked as a whole,
and it is searched for a zero with `strnlen`. So a page behind the string is never asked for, and a
page with a part of the string is asked for as a whole. `StringAt user ok src maxn k` says that the
first zero is `k < maxn` bytes on and that the bytes up to it satisfy `ok`, and `copyString_iff`
that `copy_string` returns `true` if and only if there is such a `k` for the bytes that can be read.
`StringCopied` is the outcome of the loop from any part on, and `stringAt_part` the step: a part
without a zero is in front of the end of the string.

The result is the same when the areas change `mmap_cache` on the way, by `userMemCheck_run`.
-/

set_option autoImplicit false

namespace Ucore.Proofs.Mm

open Ucore.Lib Ucore.Libs Ucore.Mm

variable {vmas : List Vma} {mm : MmStruct} {user mem : Bytes} {a b src dst maxn part : Nat}

/-- `user_mem_check` accepts the page of the address for reading. -/
def Readable (mm : MmStruct) (a : Nat) : Prop :=
  ∃ mm', userMemCheck (some mm) (roundDown a pgSize) pgSize false = .ok (true, mm')

/-- The areas consist of whole pages. -/
def WholePages (vmas : List Vma) : Prop :=
  ∀ w ∈ vmas, w.vmStart % pgSize = 0 ∧ w.vmEnd % pgSize = 0

/-- The page of the address lies in user memory and in an area that can be read. -/
def PageReadable (vmas : List Vma) (a : Nat) : Prop :=
  userBase ≤ a ∧ a < userTop ∧ ∃ w ∈ vmas, w.Contains a ∧ w.has vmRead = true

/-- Reading an area needs `VM_READ`. -/
theorem permits_read {w : Vma} : Permits false a w ↔ w.has vmRead = true := by
  simp [Permits, neededFlag]

/-- All addresses of a page are readable when one is. -/
theorem pageReadable_congr (hwhole : WholePages vmas) (h : a / pgSize = b / pgSize) :
    PageReadable vmas a ↔ PageReadable vmas b := by
  have hiff : ∀ {a b : Nat}, a / pgSize = b / pgSize → PageReadable vmas a → PageReadable vmas b := by
    intro a b h hread
    obtain ⟨hbase, htop, w, hw, ⟨hstart, hend⟩, hflag⟩ := hread
    obtain ⟨hs, he⟩ := hwhole w hw
    unfold pgSize at h hs he
    unfold userBase at hbase
    unfold userTop at htop
    refine ⟨?_, ?_, w, hw, ⟨?_, ?_⟩, hflag⟩
    · unfold userBase
      omega
    · unfold userTop
      omega
    · omega
    · omega
  exact ⟨hiff h, hiff h.symm⟩

/-- `user_mem_check` of a part of a page. -/
theorem userMemCheck_part (hsorted : Sorted vmas) (hwhole : WholePages vmas) (hsrc : src < 2 ^ 64)
    (hpos : 0 < part) (hpart : part ≤ pgSize - src % pgSize) :
    ∃ b, (b = true ↔ PageReadable vmas src) ∧
      ∀ mm : MmStruct, mm.mmapList = vmas → CacheOk mm →
        ∃ mm', userMemCheck (some mm) src part false = .ok (b, some mm') ∧ mm'.mmapList = vmas ∧
          CacheOk mm' := by
  obtain ⟨b, hb, hrun⟩ := userMemCheck_iff hsorted hsrc
    (show part < 2 ^ 64 by unfold pgSize at hpart; omega) hpos false
  refine ⟨b, hb.trans ⟨?_, ?_⟩, hrun⟩
  · rintro ⟨hbase, htop, hgrant⟩
    obtain ⟨w, hw, hwa, hperm⟩ := hgrant src (Nat.le_refl _) (by omega)
    exact ⟨hbase, by omega, w, hw, hwa, permits_read.mp hperm⟩
  · intro hread
    have htop := hread.2.1
    refine ⟨hread.1, ?_, fun c hc hc' => ?_⟩
    · unfold userTop pgSize at *
      omega
    · -- the other addresses of the part are in the same page
      have hpage : src / pgSize = c / pgSize := by
        unfold pgSize at *
        omega
      obtain ⟨-, -, w, hw, hwc, hflag⟩ := (pageReadable_congr hwhole hpage).mp hread
      exact ⟨w, hw, hwc, permits_read.mpr hflag⟩

/-- What `Readable` says about the areas. -/
theorem readable_iff (hsorted : Sorted mm.mmapList) (hwhole : WholePages mm.mmapList)
    (hcache : CacheOk mm) : Readable mm a ↔ PageReadable mm.mmapList a := by
  have hpage : roundDown a pgSize / pgSize = a / pgSize := by
    unfold roundDown pgSize
    omega
  have hmod : pgSize - roundDown a pgSize % pgSize = pgSize := by
    unfold roundDown pgSize
    omega
  by_cases ha : roundDown a pgSize < 2 ^ 64
  · obtain ⟨b, hb, hrun⟩ := userMemCheck_part hsorted hwhole ha (by decide : 0 < pgSize) hmod.ge
    rw [← pageReadable_congr hwhole hpage, ← hb]
    obtain ⟨mm', hcheck, -⟩ := hrun mm rfl hcache
    unfold Readable
    rw [hcheck]
    constructor
    · rintro ⟨mm'', heq⟩
      cases heq
      rfl
    · rintro rfl
      exact ⟨_, rfl⟩
  · -- neither side accepts an address outside user memory
    have hnot : userAccess (roundDown a pgSize) (uintptr (roundDown a pgSize + pgSize)) = false := by
      rw [← Bool.not_eq_true, userAccess_iff]
      unfold uintptr userTop
      omega
    unfold Readable userMemCheck
    dsimp only
    rw [if_pos hnot]
    refine iff_of_false ?_ fun hread => ?_
    · rintro ⟨mm', heq⟩
      cases heq
    · have htop := hread.2.1
      unfold userTop roundDown at *
      omega

/-- The first zero at `src` is `k` bytes on, and the bytes up to it satisfy `ok`. -/
structure StringAt (user : Bytes) (ok : Nat → Prop) (src maxn k : Nat) : Prop where
  lt : k < maxn
  zero : user (src + k) = 0
  before : ∀ i < k, user (src + i) ≠ 0
  ok : ∀ i ≤ k, ok (src + i)

/-- A part without a zero is in front of the string's end. -/
theorem stringAt_part {ok : Nat → Prop} {k : Nat} (hpart : ∀ i < part, user (src + i) ≠ 0)
    (hok : ∀ i < part, ok (src + i)) (hle : part ≤ maxn) :
    StringAt user ok (src + part) (maxn - part) k ↔ StringAt user ok src maxn (part + k) := by
  constructor
  · intro h
    refine ⟨by have := h.lt; omega, ?_, fun i hi => ?_, fun i hi => ?_⟩
    · rw [← Nat.add_assoc]
      exact h.zero
    · by_cases hlt : i < part
      · exact hpart i hlt
      · have := h.before (i - part) (by omega)
        rwa [show src + part + (i - part) = src + i by omega] at this
    · by_cases hlt : i < part
      · exact hok i hlt
      · have := h.ok (i - part) (by omega)
        rwa [show src + part + (i - part) = src + i by omega] at this
  · intro h
    refine ⟨by have := h.lt; omega, ?_, fun i hi => ?_, fun i hi => ?_⟩
    · rw [Nat.add_assoc]
      exact h.zero
    · rw [Nat.add_assoc]
      exact h.before _ (by omega)
    · rw [Nat.add_assoc]
      exact h.ok _ (by omega)

/-- What the loop returns and leaves behind: `true` with the string, or `false`. -/
structure StringCopied (vmas : List Vma) (user mem mem' : Bytes) (dst src maxn : Nat) (b : Bool) :
    Prop where
  outside : ∀ x, x < dst ∨ dst + maxn ≤ x → mem' x = mem x
  copied : b = true → ∃ k, StringAt user (PageReadable vmas) src maxn k ∧
    mem'.slice dst (k + 1) = user.slice src (k + 1)
  found : ∀ k, StringAt user (PageReadable vmas) src maxn k → b = true

/-- A part is refused when its page is, whatever is in it. -/
theorem stringCopied_refused (h : ¬ PageReadable vmas src) :
    StringCopied vmas user mem mem dst src maxn false :=
  ⟨fun _ _ => rfl, fun hb => absurd hb Bool.false_ne_true, fun _ hk => absurd (hk.ok 0 (Nat.zero_le _)) h⟩

/-- The loop from the beginning of any part on. -/
theorem copyStringLoop_spec (hsorted : Sorted vmas) (hwhole : WholePages vmas) (user : Bytes)
    (fuel : Nat) : ∀ (mm : MmStruct) (mem : Bytes) (dst src maxn : Nat), mm.mmapList = vmas →
      CacheOk mm → src < 2 ^ 64 → maxn < 2 ^ 64 → maxn < fuel →
    ∃ b mm' mem', copyStringLoop user fuel (some mm) mem dst src maxn (pgSize - src % pgSize) =
        .ok (b, some mm', mem') ∧ mm'.mmapList = vmas ∧ CacheOk mm' ∧
      StringCopied vmas user mem mem' dst src maxn b := by
  -- The induction is on the fuel, and `maxn` falls in each round that goes on.
  induction fuel with
  | zero => intro _ _ _ _ _ _ _ _ _ h; omega
  | succ fuel ih =>
      intro mm mem dst src maxn hlist hcache hsrc hmaxn hfuel
      have hmod : src % pgSize < pgSize := Nat.mod_lt _ (by decide)
      -- the part, cut to what may still be copied
      obtain ⟨part, hpart⟩ : ∃ part, part = if pgSize - src % pgSize > maxn then maxn
          else pgSize - src % pgSize := ⟨_, rfl⟩
      have hle : part ≤ maxn ∧ part ≤ pgSize - src % pgSize ∧
          (part < maxn → part = pgSize - src % pgSize) := by
        rw [hpart]
        split <;> omega
      obtain ⟨hpartMax, hpartPage, hwholePart⟩ := hle
      rw [copyStringLoop]
      simp only [← hpart]
      clear hpart
      by_cases hpos : part = 0
      · -- nothing may be copied
        have hzero : maxn = 0 := by
          by_contra hne
          have := hwholePart (by omega)
          omega
        obtain ⟨b, mm', hrun, hlist', hcache', hb⟩ :=
          userMemCheck_run (hlist ▸ hsorted) hcache src part false
        have hfalse : b = false := by
          rw [← Bool.not_eq_true, hb, hpos, userAccess_iff]
          unfold uintptr
          omega
        refine ⟨false, mm', mem, ?_, hlist'.trans hlist, hcache', fun _ _ => rfl,
          fun hb => absurd hb Bool.false_ne_true, fun k hk => ?_⟩
        · simp only [hrun, hfalse, bind, Except.bind, if_true]
          rfl
        · have := hk.lt
          omega
      obtain ⟨b, hb, hcheck⟩ := userMemCheck_part hsorted hwhole hsrc (by omega : 0 < part) hpartPage
      obtain ⟨mm', hrun, hlist', hcache'⟩ := hcheck mm hlist hcache
      simp only [hrun, bind, Except.bind]
      cases b with
      -- The process may not read the part, and so no string that it may read begins at `src`.
      | false =>
          refine ⟨false, mm', mem, rfl, hlist', hcache', stringCopied_refused fun hread => ?_⟩
          exact absurd (hb.mpr hread) Bool.false_ne_true
      | true =>
          have hread := hb.mp rfl
          have htop := hread.2.1
          have hok : ∀ i < part, PageReadable vmas (src + i) := by
            intro i hi
            refine (pageReadable_congr hwhole ?_).mp hread
            unfold pgSize at *
            omega
          obtain ⟨hlen, hbefore, hat⟩ := strnlen_spec user part src
          simp only [Bool.true_eq_false, if_false]
          generalize strnlen user src part = alen at *
          by_cases hend : alen < part
          · -- the string ends in this part
            have hcopied : (user.slice src (alen + 1)).length = alen + 1 := Bytes.length_slice ..
            refine ⟨true, mm', mem.overlay dst (user.slice src (alen + 1)), if_pos hend, hlist',
              hcache', fun x hx => ?_, fun _ => ⟨alen, ?_, ?_⟩, fun _ _ => rfl⟩
            · exact Bytes.overlay_of_outside (by rw [hcopied]; omega)
            · exact ⟨by omega, hat hend, hbefore, fun i hi => hok i (by omega)⟩
            · have h := Bytes.slice_overlay_same mem dst (user.slice src (alen + 1))
              rwa [hcopied] at h
          · have hfull : alen = part := by omega
            subst hfull
            rw [if_neg hend]
            by_cases hlast : alen = maxn
            · -- all that may be copied has no zero
              refine ⟨false, mm', mem, if_pos hlast, hlist', hcache', fun _ _ => rfl,
                fun hb => absurd hb Bool.false_ne_true, fun k hk => ?_⟩
              exact absurd hk.zero (hbefore k (by have := hk.lt; omega))
            · -- the next part begins with its page
              have hpart := hwholePart (by omega)
              have hwrap : uintptr (src + alen) = src + alen := by
                unfold uintptr
                unfold userTop at htop
                unfold pgSize at hpart
                omega
              have hnext : pgSize = pgSize - (src + alen) % pgSize := by
                unfold pgSize at *
                omega
              have hcopied : (user.slice src alen).length = alen := Bytes.length_slice ..
              rw [if_neg hlast, hwrap]
              obtain ⟨b, mm₂, mem₂, hloop, hlist₂, hcache₂, hout, hcop, hfound⟩ := ih mm'
                (mem.overlay dst (user.slice src alen)) (dst + alen) (src + alen) (maxn - alen) hlist'
                hcache' (by unfold uintptr at hwrap; omega) (by omega) (by omega)
              rw [← hnext] at hloop
              refine ⟨b, mm₂, mem₂, hloop, hlist₂, hcache₂, fun x hx => ?_, fun hb => ?_,
                fun k hk => ?_⟩
              · rw [hout x (by omega)]
                exact Bytes.overlay_of_outside (by rw [hcopied]; omega)
              · obtain ⟨k, hk, hslice⟩ := hcop hb
                refine ⟨alen + k, (stringAt_part hbefore hok hpartMax).mp hk, ?_⟩
                have hfirst : mem₂.slice dst alen = user.slice src alen := by
                  rw [Bytes.slice_congr fun i _ hi => hout i (Or.inl hi)]
                  have h := Bytes.slice_overlay_same mem dst (user.slice src alen)
                  rwa [hcopied] at h
                rw [Nat.add_assoc, Bytes.slice_append mem₂, hfirst, hslice, ← Bytes.slice_append user]
              · -- a string ends behind a part without a zero
                have hle : alen ≤ k := by
                  by_contra hlt
                  exact hbefore k (by omega) hk.zero
                refine hfound (k - alen) ((stringAt_part hbefore hok hpartMax).mpr ?_)
                rwa [Nat.add_sub_cancel' hle]

/-- `copy_string` returns, writes only the bytes that it may, and returns `true` if and only if the
string ends within `maxn` bytes and `user_mem_check` accepts the pages it lies in. Then the string
is at `dst`. -/
theorem copyString_iff (hsorted : Sorted mm.mmapList) (hwhole : WholePages mm.mmapList)
    (hcache : CacheOk mm) (user mem : Bytes) (dst : Nat) (hsrc : src < 2 ^ 64)
    (hmaxn : maxn < 2 ^ 64) :
    ∃ b mm' mem', copyString (some mm) user mem dst src maxn = .ok (b, some mm', mem') ∧
      (∀ x, x < dst ∨ dst + maxn ≤ x → mem' x = mem x) ∧
      (b = true ↔ ∃ k, StringAt user (Readable mm) src maxn k) ∧
      ∀ k, StringAt user (Readable mm) src maxn k →
        mem'.slice dst (k + 1) = user.slice src (k + 1) := by
  have hok : Readable mm = PageReadable mm.mmapList :=
    funext fun a => propext (readable_iff hsorted hwhole hcache)
  -- the first part ends with its page, also at the upper end of the address space
  have hpart : uintptr (roundDown (uintptr (src + pgSize)) pgSize + 2 ^ 64 - src) =
      pgSize - src % pgSize := by
    unfold uintptr roundDown pgSize
    omega
  obtain ⟨b, mm', mem', hrun, -, -, hout, hcopied, hfound⟩ := copyStringLoop_spec hsorted hwhole
    user (maxn + 1) mm mem dst src maxn rfl hcache hsrc hmaxn (Nat.lt_succ_self _)
  rw [hok]
  refine ⟨b, mm', mem', ?_, hout, ⟨fun hb => ?_, fun ⟨k, hk⟩ => hfound k hk⟩, fun k hk => ?_⟩
  · unfold copyString
    rw [hpart]
    exact hrun
  · obtain ⟨k, hk, -⟩ := hcopied hb
    exact ⟨k, hk⟩
  · obtain ⟨j, hj, hslice⟩ := hcopied (hfound k hk)
    -- there is one first zero
    have hkj : k = j := by
      rcases Nat.lt_trichotomy k j with hlt | heq | hlt
      · exact absurd hk.zero (hj.before k hlt)
      · exact heq
      · exact absurd hj.zero (hk.before j hlt)
    rw [hkj]
    exact hslice

/-- An area of two pages. -/
def twoPagesMm : MmStruct := ⟨[⟨0x200000, 0x202000, vmRead⟩], none, 1⟩

/-- Memory with a zero behind the first byte of the second page. -/
def borderBytes : Bytes := fun x => if x = 0x201001 then 0 else 97

/-- The string ends with the fourth byte, the second one behind the page border. -/
theorem stringAt_border : StringAt borderBytes (Readable twoPagesMm) 0x200FFE 4 3 where
  lt := by decide
  zero := rfl
  before := by decide
  ok := by
    intro i hi
    have hpage : roundDown (0x200FFE + i) pgSize = 0x200000 ∨
        roundDown (0x200FFE + i) pgSize = 0x201000 := by
      unfold roundDown pgSize
      omega
    unfold Readable
    rcases hpage with hpage | hpage <;>
      · rw [hpage]
        exact ⟨_, rfl⟩

/-- A string that crosses the border of a page: three characters from two bytes in front of it on.
They are copied with the zero, and nothing else is written. -/
theorem copyString_border :
    ∃ mm' mem', copyString (some twoPagesMm) borderBytes (fun _ => 0) 16 0x200FFE 4 =
        .ok (true, some mm', mem') ∧
      mem'.slice 16 4 = [97, 97, 97, 0] ∧ ∀ x, x < 16 ∨ 20 ≤ x → mem' x = 0 := by
  have hsorted : Sorted twoPagesMm.mmapList := by simp [Sorted, twoPagesMm]
  have hwhole : WholePages twoPagesMm.mmapList := by simp [WholePages, twoPagesMm, pgSize]
  obtain ⟨b, mm', mem', hrun, hout, hiff, hslice⟩ := copyString_iff hsorted hwhole
    (fun _ hw => by cases hw) borderBytes (fun _ => 0) 16 (by decide : 0x200FFE < 2 ^ 64)
    (by decide : 4 < 2 ^ 64)
  obtain rfl : b = true := hiff.mpr ⟨3, stringAt_border⟩
  exact ⟨mm', mem', hrun, (hslice 3 stringAt_border).trans (by decide), hout⟩

end Ucore.Proofs.Mm
