import Ucore.Proofs.Mm.Mmap

/-!
# `Ucore.Proofs.Mm.UserMemCheck`: which accesses `user_mem_check` accepts

The areas of a sorted list have no address in common. So `find_vma` finds the same area with any
`mmap_cache` (`findVma_eq`), and the loop of `user_mem_check` goes through the areas that the range
meets, one after another.

`Granted` says what the loop accepts: each address of the range lies in an area with the flag, and
where the range meets a stack, a store does not begin in its lowest page (`Permits`). A later area
is entered at its first address, so a store that goes on into a stack is never accepted.
`permits_iff` is the test of one round, and `permits_rest` says that the areas behind the first one
permit the rest of the range as they permit the whole. `granted_iff` cuts the range at the end of an
area, which is the step of the induction of `userMemCheckLoop_iff`.

`userMemCheck_iff` has the same answer for anything that `find_vma` can have left in `mmap_cache`.
-/

set_option autoImplicit false

namespace Ucore.Proofs.Mm

open Ucore.Lib Ucore.Mm

variable {mm : MmStruct} {vmas : List Vma} {v w : Vma} {a start stop : Nat} {write : Bool}

/-- The areas are in order and have no address in common. -/
def Sorted (vmas : List Vma) : Prop := vmas.Pairwise fun v w => v.vmEnd ≤ w.vmStart

/-- Only one area contains an address. -/
theorem Sorted.eq_of_contains (h : Sorted vmas) (hv : v ∈ vmas) (hw : w ∈ vmas)
    (hva : v.Contains a) (hwa : w.Contains a) : v = w := by
  unfold Vma.Contains at hva hwa
  induction vmas with
  | nil => cases hv
  | cons u us ih =>
      obtain ⟨hu, hus⟩ := List.pairwise_cons.mp h
      rcases List.mem_cons.mp hv with rfl | hv'
      · rcases List.mem_cons.mp hw with rfl | hw'
        · rfl
        · have hle := hu w hw'
          omega
      · rcases List.mem_cons.mp hw with rfl | hw'
        · have hle := hu v hv'
          omega
        · exact ih hus hv' hw'

/-- An area that contains a later address begins behind the first one. -/
theorem Sorted.le_of_contains (h : Sorted vmas) (hv : v ∈ vmas) (hw : w ∈ vmas) {b : Nat}
    (hva : v.Contains a) (hwb : w.Contains b) (hb : v.vmEnd ≤ b) :
    v.vmEnd ≤ w.vmStart := by
  unfold Vma.Contains at hva hwb
  induction vmas with
  | nil => cases hv
  | cons u us ih =>
      obtain ⟨hu, hus⟩ := List.pairwise_cons.mp h
      rcases List.mem_cons.mp hv with rfl | hv'
      · rcases List.mem_cons.mp hw with rfl | hw'
        · omega
        · exact hu w hw'
      · rcases List.mem_cons.mp hw with rfl | hw'
        · have hle := hu v hv'
          omega
        · exact ih hus hv' hw'

/-- What `find_vma` can have left in `mmap_cache`. -/
def CacheOk (mm : MmStruct) : Prop := ∀ w, mm.mmapCache = some w → w ∈ mm.mmapList

/-- `find_vma` finds what the search through the list finds. -/
theorem findVma_eq (h : Sorted mm.mmapList) (hcache : CacheOk mm) (a : Nat) :
    (findVma mm a).1 = mm.mmapList.find? fun vma => vma.Contains a := by
  unfold findVma
  dsimp only
  cases hfilter : mm.mmapCache.filter fun vma => decide (vma.Contains a) with
  | none => rfl
  | some v =>
      -- the remembered area is the one of the list
      obtain ⟨hv, hva⟩ := Option.filter_eq_some_iff.mp hfilter
      have hmem := hcache v hv
      cases hfind : mm.mmapList.find? fun vma => vma.Contains a with
      | none =>
          have hno := List.find?_eq_none.mp hfind v hmem
          exact absurd hva hno
      | some w =>
          have hwa := List.find?_some hfind
          have hw := List.mem_of_find?_eq_some hfind
          exact congrArg some (h.eq_of_contains hmem hw (by simpa using hva) (by simpa using hwa))

/-- `find_vma` leaves an area of the list in the cache. -/
theorem findVma_cacheOk (hcache : CacheOk mm) (a : Nat) : CacheOk (findVma mm a).2 := by
  intro w hw
  have hw' : (findVma mm a).1.or mm.mmapCache = some w := hw
  rcases Option.or_eq_some_iff.mp hw' with hres | ⟨-, hold⟩
  · show w ∈ mm.mmapList
    unfold findVma at hres
    dsimp only at hres
    split at hres
    · rename_i v hfilter
      rw [← Option.some.inj hres]
      exact hcache v (Option.filter_eq_some_iff.mp hfilter).1
    · exact List.mem_of_find?_eq_some hres
  · exact hcache w hold

/-- The flag that an access needs. -/
def neededFlag (write : Bool) : Nat := if write then vmWrite else vmRead

/-- The area permits the access to its part of a range that begins at `start`. Stores leave out the
lowest page of a stack. -/
def Permits (write : Bool) (start : Nat) (w : Vma) : Prop :=
  w.has (neededFlag write) = true ∧
    (write = true → w.has vmStack = true → w.vmStart + pgSize ≤ max start w.vmStart)

/-- The test of one round of the loop, at an address in the area. -/
theorem permits_iff (hle : w.vmStart ≤ start) :
    Permits write start w ↔ w.has (if write then vmWrite else vmRead) = true ∧
      ¬ (write = true ∧ w.has vmStack = true ∧ start < w.vmStart + pgSize) := by
  have hmax : max start w.vmStart = start := Nat.max_eq_left hle
  simp only [Permits, neededFlag, hmax, not_and, Nat.not_lt]

/-- Behind an area of the range, the part in a later area is the same for the rest of the range. -/
theorem permits_rest (hend : start ≤ v.vmEnd) (hle : v.vmEnd ≤ w.vmStart) :
    Permits write v.vmEnd w ↔ Permits write start w := by
  have h₁ : max v.vmEnd w.vmStart = w.vmStart := Nat.max_eq_right hle
  have h₂ : max start w.vmStart = w.vmStart := Nat.max_eq_right (Nat.le_trans hend hle)
  simp only [Permits, h₁, h₂]

/-- Each address of the range lies in an area that permits the access. -/
def Granted (vmas : List Vma) (write : Bool) (start stop : Nat) : Prop :=
  ∀ a, start ≤ a → a < stop → ∃ w ∈ vmas, w.Contains a ∧ Permits write start w

/-- The range behind the area in which it begins. -/
theorem granted_iff (h : Sorted vmas) (hv : v ∈ vmas) (hva : v.Contains start) (hlt : start < stop) :
    Granted vmas write start stop ↔
      Permits write start v ∧ Granted vmas write v.vmEnd stop := by
  constructor
  · intro hgrant
    obtain ⟨w, hw, hwa, hperm⟩ := hgrant start (Nat.le_refl _) hlt
    rw [h.eq_of_contains hw hv hwa hva] at hperm
    refine ⟨hperm, fun a ha hstop => ?_⟩
    obtain ⟨u, hu, hua, hperm'⟩ := hgrant a (Nat.le_trans (Nat.le_of_lt hva.2) ha) hstop
    have hle := h.le_of_contains hv hu hva hua ha
    exact ⟨u, hu, hua, (permits_rest (Nat.le_of_lt hva.2) hle).mpr hperm'⟩
  · rintro ⟨hperm, hrest⟩ a ha hstop
    by_cases hend : a < v.vmEnd
    · exact ⟨v, hv, ⟨Nat.le_trans hva.1 ha, hend⟩, hperm⟩
    · obtain ⟨u, hu, hua, hperm'⟩ := hrest a (Nat.le_of_not_lt hend) hstop
      have hle := h.le_of_contains hv hu hva hua (Nat.le_of_not_lt hend)
      exact ⟨u, hu, hua, (permits_rest (Nat.le_of_lt hva.2) hle).mp hperm'⟩

/-- The loop of `user_mem_check` ends, and tells whether the range is granted. The induction is on
the rounds that are left. -/
theorem userMemCheckLoop_iff (h : Sorted vmas) (write : Bool) (stop : Nat) :
    ∀ (fuel start : Nat) (mm : MmStruct), mm.mmapList = vmas → CacheOk mm → 0 < fuel → stop < start + fuel →
    ∃ b mm', userMemCheckLoop write stop fuel start mm = .ok (b, mm') ∧ mm'.mmapList = vmas ∧
      CacheOk mm' ∧ (b = true ↔ Granted vmas write start stop) := by
  intro fuel
  induction fuel with
  | zero => exact fun _ _ _ _ hpos _ => absurd hpos (Nat.lt_irrefl 0)
  | succ fuel ih =>
      intro start mm hlist hcache _ hfuel
      rw [userMemCheckLoop]
      by_cases hlt : start < stop
      · rw [if_pos hlt]
        have hfound := findVma_eq (hlist ▸ h) hcache start
        have hcache' := findVma_cacheOk hcache start
        have hlist' : (findVma mm start).2.mmapList = vmas := hlist
        generalize findVma mm start = r at *
        obtain ⟨found, mm₁⟩ := r
        dsimp only at hfound hcache' hlist'
        -- when the round refuses, the address `start` is not granted
        have hrefuse : ¬ Granted vmas write start stop →
            ∃ b mm', (Except.ok (false, mm₁) : Except Halt (Bool × MmStruct)) = .ok (b, mm') ∧
              mm'.mmapList = vmas ∧ CacheOk mm' ∧ (b = true ↔ Granted vmas write start stop) :=
          fun hnot => ⟨false, mm₁, rfl, hlist', hcache', iff_of_false Bool.false_ne_true hnot⟩
        cases found with
        | none =>
            refine hrefuse fun hgrant => ?_
            obtain ⟨w, hw, hwa, -⟩ := hgrant start (Nat.le_refl _) hlt
            rw [← hlist] at hw
            exact absurd hwa (by simpa using List.find?_eq_none.mp hfound.symm w hw)
        | some v =>
            have hva : v.Contains start := by simpa using List.find?_some hfound.symm
            have hv : v ∈ vmas := by
              rw [← hlist]
              exact List.mem_of_find?_eq_some hfound.symm
            have hgrant : Granted vmas write start stop ↔
                Permits write start v ∧ Granted vmas write v.vmEnd stop :=
              granted_iff h hv hva hlt
            have hperm : Permits write start v ↔ _ := permits_iff hva.1
            dsimp only
            rw [if_neg (Nat.not_lt.mpr hva.1)]
            by_cases hflag : v.has (if write = true then vmWrite else vmRead) = false
            · rw [if_pos hflag]
              refine hrefuse fun hg => ?_
              rw [(hperm.mp (hgrant.mp hg).1).1] at hflag
              cases hflag
            · rw [if_neg hflag]
              by_cases hstack : write = true ∧ v.has vmStack = true ∧ start < v.vmStart + pgSize
              · rw [if_pos hstack]
                exact hrefuse fun hg => (hperm.mp (hgrant.mp hg).1).2 hstack
              · rw [if_neg hstack]
                have hend := hva.2
                obtain ⟨b, mm', hloop, hlist₂, hcache₂, hb⟩ := ih v.vmEnd mm₁ hlist' hcache'
                  (by omega) (by omega)
                have hpermits := hperm.mpr ⟨Bool.of_not_eq_false hflag, hstack⟩
                refine ⟨b, mm', hloop, hlist₂, hcache₂, hb.trans ⟨fun hrest => ?_, fun hg => ?_⟩⟩
                · exact hgrant.mpr ⟨hpermits, hrest⟩
                · exact (hgrant.mp hg).2
      · rw [if_neg hlt]
        exact ⟨true, mm, rfl, hlist, hcache, fun _ a ha ha' => absurd ha' (by omega), fun _ => rfl⟩

/-- The range lies in user memory and does not wrap around. -/
theorem userAccess_range {addr len : Nat} (haddr : addr < 2 ^ 64) (hlen : len < 2 ^ 64)
    (hpos : 0 < len) : userAccess addr (uintptr (addr + len)) = true ↔
      userBase ≤ addr ∧ addr + len ≤ userTop := by
  rw [userAccess_iff]
  unfold uintptr userBase userTop
  omega

/-- What `user_mem_check` returns on a list of areas and with anything remembered of it. -/
theorem userMemCheck_run (h : Sorted mm.mmapList) (hcache : CacheOk mm) (addr len : Nat)
    (write : Bool) : ∃ b mm', userMemCheck (some mm) addr len write = .ok (b, some mm') ∧
      mm'.mmapList = mm.mmapList ∧ CacheOk mm' ∧
      (b = true ↔ userAccess addr (uintptr (addr + len)) = true ∧
        Granted mm.mmapList write addr (uintptr (addr + len))) := by
  unfold userMemCheck
  dsimp only
  by_cases hacc : userAccess addr (uintptr (addr + len)) = false
  · rw [if_pos hacc]
    refine ⟨false, mm, rfl, rfl, hcache, iff_of_false Bool.false_ne_true fun hgrant => ?_⟩
    exact Bool.false_ne_true (hacc.symm.trans hgrant.1)
  · rw [if_neg hacc]
    obtain ⟨b, mm', hloop, hlist, hcache', hb⟩ := userMemCheckLoop_iff h write
      (uintptr (addr + len)) (uintptr (addr + len) + 1) addr mm rfl hcache
      (Nat.succ_pos _) (by omega)
    rw [hloop]
    exact ⟨b, mm', rfl, hlist, hcache',
      hb.trans ⟨fun hgrant => ⟨Bool.of_not_eq_false hacc, hgrant⟩, fun hgrant => hgrant.2⟩⟩

/-- `user_mem_check` keeps the structure well formed, and accepts only what the areas grant. -/
theorem userMemCheck_spec (hwf : MmWf mm) (addr len : Nat) (write : Bool) :
    ∃ b mm', userMemCheck (some mm) addr len write = .ok (b, some mm') ∧
      mm'.mmapList = mm.mmapList ∧ MmWf mm' ∧
      (b = true ↔ userAccess addr (uintptr (addr + len)) = true ∧
        Granted mm.mmapList write addr (uintptr (addr + len))) := by
  obtain ⟨b, mm', hrun, hlist, hcache, hb⟩ := userMemCheck_run hwf.sorted hwf.cache addr len write
  refine ⟨b, mm', hrun, hlist, ⟨?_, ?_, hcache⟩, hb⟩
  · rw [hlist]
    exact hwf.sorted
  · rw [hlist]
    exact hwf.area

/-- `user_mem_check` returns, with the same answer for anything that `find_vma` can have remembered.
It accepts the access if and only if the range lies in user memory and each byte of it in an area
that permits the access. -/
theorem userMemCheck_iff (h : Sorted vmas) {addr len : Nat} (haddr : addr < 2 ^ 64)
    (hlen : len < 2 ^ 64) (hpos : 0 < len) (write : Bool) :
    ∃ b, (b = true ↔ userBase ≤ addr ∧ addr + len ≤ userTop ∧
        Granted vmas write addr (addr + len)) ∧
      ∀ mm : MmStruct, mm.mmapList = vmas → CacheOk mm →
        ∃ mm', userMemCheck (some mm) addr len write = .ok (b, some mm') ∧ mm'.mmapList = vmas ∧
          CacheOk mm' := by
  have hrange := userAccess_range haddr hlen hpos
  -- the sum does not wrap around when the range lies in user memory
  have hsum : userAccess addr (uintptr (addr + len)) = true → uintptr (addr + len) = addr + len := by
    intro hacc
    have hle := (hrange.mp hacc).2
    unfold uintptr
    unfold userTop at hle
    omega
  obtain ⟨b, mm', hrun, -, -, hb⟩ :=
    userMemCheck_run (show Sorted (MmStruct.mmapList ⟨vmas, none, 0⟩) from h)
      (fun _ hw => by cases hw) addr len write
  have hiff : ∀ c : Bool, (c = true ↔ userAccess addr (uintptr (addr + len)) = true ∧
      Granted vmas write addr (uintptr (addr + len))) →
      (c = true ↔ userBase ≤ addr ∧ addr + len ≤ userTop ∧
        Granted vmas write addr (addr + len)) := by
    intro c hc
    rw [hc, ← and_assoc, ← hrange]
    exact and_congr_right fun hacc => by rw [hsum hacc]
  refine ⟨b, hiff b hb, fun mm hlist hcache => ?_⟩
  obtain ⟨c, mm₂, hrun₂, hlist₂, hcache₂, hc⟩ := userMemCheck_run (hlist ▸ h) hcache addr len write
  rw [hlist] at hc hlist₂
  have hbc : c = b := Bool.eq_iff_iff.mpr ((hiff c hc).trans (hiff b hb).symm)
  exact ⟨mm₂, hbc ▸ hrun₂, hlist₂, hcache₂⟩

/-- A stack behind an area of data: a store from the data into the stack is refused, whatever is
remembered, and a load is accepted. -/
theorem userMemCheck_stack :
    let data : Vma := ⟨0x200000, 0x201000, vmRead ||| vmWrite⟩
    let stack : Vma := ⟨0x201000, 0x203000, vmRead ||| vmWrite ||| vmStack⟩
    (∃ mm, userMemCheck (some ⟨[data, stack], some stack, 2⟩) 0x200FFF 2 false =
      .ok (true, some mm)) ∧
    ∃ mm, userMemCheck (some ⟨[data, stack], some data, 2⟩) 0x200FFF 2 true =
      .ok (false, some mm) := by
  intro data stack
  have hsorted : Sorted [data, stack] := by
    simp [Sorted, data, stack]
  have hcache : ∀ w ∈ [data, stack], CacheOk ⟨[data, stack], some w, 2⟩ := by
    intro w hw v hv
    rw [← Option.some.inj hv]
    exact hw
  obtain ⟨b, hb, hload⟩ := userMemCheck_iff hsorted
    (show 0x200FFF < 2 ^ 64 by decide) (show 2 < 2 ^ 64 by decide) (by decide) false
  obtain ⟨c, hc, hstore⟩ := userMemCheck_iff hsorted
    (show 0x200FFF < 2 ^ 64 by decide) (show 2 < 2 ^ 64 by decide) (by decide) true
  obtain ⟨mm, hmm, -⟩ := hload _ rfl (hcache stack (by simp))
  obtain ⟨mm', hmm', -⟩ := hstore _ rfl (hcache data (by simp))
  have hbt : b = true := by
    refine hb.mpr ⟨by decide, by decide, fun a ha hstop => ?_⟩
    by_cases hd : a < 0x201000
    · exact ⟨data, by simp, ⟨show 0x200000 ≤ a by omega, hd⟩, by decide, by decide⟩
    · exact ⟨stack, by simp, ⟨show 0x201000 ≤ a by omega, show a < 0x203000 by omega⟩, by decide,
        by decide⟩
  have hcf : c = false := by
    refine Bool.eq_false_iff.mpr fun hct => ?_
    obtain ⟨-, -, hgrant⟩ := hc.mp hct
    obtain ⟨w, hw, hwa, -, hstack⟩ := hgrant 0x201000 (by decide) (by decide)
    have heq := hsorted.eq_of_contains hw (v := w) (w := stack) (by simp) hwa (by decide)
    rw [heq] at hstack
    exact absurd (hstack rfl (by decide)) (by decide)
  exact ⟨⟨mm, hbt ▸ hmm⟩, ⟨mm', hcf ▸ hmm'⟩⟩

end Ucore.Proofs.Mm
