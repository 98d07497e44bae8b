import Ucore.Driver.Dtb

/-!
# `Ucore.Proofs.Driver.Dtb`: which `reg` the parser takes

The parser keeps one flag. On the tokens of a tree it takes the first `reg` of at least sixteen
bytes in a node with the flag (`scan_tokens`), which is the one of the memory node when no other
stands in front of it.

## From bytes to tokens

`fdt32_to_cpu` and `fdt64_to_cpu` turn the bytes of a number around, so a field of the blob is read
as the format has it (`fdt32ToCpu_load`, `fdt64ToCpu_load`). `extractLoop_scan` then goes from the
loop over bytes to `scan` over a list of tokens, by induction on the tokens. It also ends the loop:
there is one round for each token, and `FDT_END` is the last.

## From tokens to the tree

The flag is set by a node whose name begins with `memory`, and cleared by the end of any node. So a
`reg` has the flag when it stands in such a node, or in its first child in front of the first end.
`scan_tokens` is an induction on the tree with the flag in front of a node and behind it.

`extractMemoryInfo_iff` says for every tree with one memory node when the parser returns its range:
the first `reg` with the flag must be its own, or hold the same sixteen bytes. In
`extractMemoryInfo_controller` a memory controller stands in front of the memory.
-/

set_option autoImplicit false

namespace Ucore.Proofs.Driver

open Ucore.Lib Ucore.Libs Ucore.Mm Ucore.Driver

variable {mem : Bytes} {a b : Nat} {flag : Bool} {toks rest : List Tok} {tok : Tok}
  {data : List UInt8} {tree : Nodes}

/-! ### Numbers -/

/-- Two numbers of bits that do not overlap. -/
theorem shiftLeft_or {x y k : Nat} (h : y < 2 ^ k) : (x <<< k) ||| y = x * 2 ^ k + y := by
  rw [Nat.shiftLeft_eq, Nat.mul_comm, ← Nat.two_pow_add_eq_or_of_lt h]

/-- The lowest byte of a number. -/
theorem and_ff (x : Nat) : x &&& 0xff = x % 256 := Nat.and_two_pow_sub_one_eq_mod x 8

/-- `fdt32_to_cpu` turns four bytes around. -/
theorem fdt32ToCpu_eq (x : Nat) : fdt32ToCpu x =
    x % 256 * 2 ^ 24 + (x / 2 ^ 8 % 256 * 2 ^ 16 + (x / 2 ^ 16 % 256 * 2 ^ 8 + x / 2 ^ 24 % 256)) := by
  unfold fdt32ToCpu
  simp only [and_ff, Nat.shiftRight_eq_div_pow]
  rw [Nat.or_assoc, Nat.or_assoc, shiftLeft_or (by omega : x / 2 ^ 24 % 256 < 2 ^ 8),
    shiftLeft_or (by omega : x / 2 ^ 16 % 256 * 2 ^ 8 + x / 2 ^ 24 % 256 < 2 ^ 16),
    shiftLeft_or (by omega)]

/-- Four bytes of the blob. -/
theorem slice_four (mem : Bytes) (a : Nat) :
    mem.slice a 4 = [mem a, mem (a + 1), mem (a + 2), mem (a + 3)] := rfl

/-- Four bytes as a number, the lowest one first. -/
theorem ofLe_four (a b c d : UInt8) :
    ofLe [a, b, c, d] = a.toNat + 256 * (b.toNat + 256 * (c.toNat + 256 * d.toNat)) := by
  simp [ofLe]

/-- `fdt32_to_cpu` of four bytes, the low one first. -/
theorem fdt32ToCpu_bytes {b c d e : Nat} (hb : b < 256) (hc : c < 256) (hd : d < 256) (he : e < 256) :
    fdt32ToCpu (b + 256 * (c + 256 * (d + 256 * e))) = e + 256 * (d + 256 * (c + 256 * b)) := by
  obtain ⟨x, hx⟩ : ∃ x, x = b + 256 * (c + 256 * (d + 256 * e)) := ⟨_, rfl⟩
  have h₀ : x % 256 = b := by omega
  have h₁ : x / 2 ^ 8 % 256 = c := by omega
  have h₂ : x / 2 ^ 16 % 256 = d := by omega
  have h₃ : x / 2 ^ 24 % 256 = e := by omega
  rw [← hx, fdt32ToCpu_eq, h₀, h₁, h₂, h₃]
  omega

/-- The numbers of the blob. -/
theorem fdt32ToCpu_load (mem : Bytes) (a : Nat) : fdt32ToCpu (mem.load a 4) = be32 mem a := by
  unfold Bytes.load be32 ofBe
  rw [slice_four]
  simp only [List.reverse_cons, List.reverse_nil, List.nil_append, List.cons_append, ofLe_four]
  exact fdt32ToCpu_bytes (UInt8.toNat_lt _) (UInt8.toNat_lt _) (UInt8.toNat_lt _) (UInt8.toNat_lt _)

/-- The bytes of a number in two parts. -/
theorem ofLe_append (as bs : List UInt8) : ofLe (as ++ bs) = ofLe as + 256 ^ as.length * ofLe bs := by
  induction as with
  | nil => simp [ofLe]
  | cons a as ih =>
      rw [List.cons_append, ofLe, ofLe, ih, List.length_cons, pow_succ]
      ring

/-- `fdt64_to_cpu` reads eight bytes, the highest one first. -/
theorem fdt64ToCpu_load (mem : Bytes) (a : Nat) :
    fdt64ToCpu (mem.load a 8) = ofBe (mem.slice a 8) := by
  have hsplit : mem.slice a 8 = mem.slice a 4 ++ mem.slice (a + 4) 4 := Bytes.slice_append mem a 4 4
  have hlow : mem.load a 4 < 2 ^ 32 := Bytes.load_lt mem a 4
  have hload : mem.load a 8 = mem.load a 4 + 2 ^ 32 * mem.load (a + 4) 4 := by
    unfold Bytes.load
    rw [hsplit, ofLe_append, Bytes.length_slice]
    norm_num
  have hhigh : be32 mem (a + 4) < 2 ^ 32 := by
    have h := ofLe_lt (mem.slice (a + 4) 4).reverse
    rwa [List.length_reverse, Bytes.length_slice] at h
  have hand : mem.load a 8 &&& 0xffffffff = mem.load a 4 := by
    rw [show (0xffffffff : Nat) = 2 ^ 32 - 1 from rfl, Nat.and_two_pow_sub_one_eq_mod, hload]
    omega
  have hshift : mem.load a 8 >>> 32 = mem.load (a + 4) 4 := by
    rw [Nat.shiftRight_eq_div_pow, hload]
    omega
  unfold fdt64ToCpu
  rw [hand, hshift, fdt32ToCpu_load, fdt32ToCpu_load, shiftLeft_or hhigh]
  unfold ofBe
  rw [hsplit, List.reverse_append, ofLe_append, List.length_reverse, Bytes.length_slice]
  unfold be32 ofBe
  norm_num
  ring

/-- Two rows of bytes of one length that give the same number. -/
theorem ofLe_inj : ∀ {as bs : List UInt8}, as.length = bs.length → ofLe as = ofLe bs → as = bs := by
  intro as
  induction as with
  | nil =>
      intro bs hlen _
      exact (List.length_eq_zero_iff.mp hlen.symm).symm
  | cons a as ih =>
      intro bs hlen heq
      cases bs with
      | nil => cases hlen
      | cons b bs =>
          have ha := a.toNat_lt
          have hb := b.toNat_lt
          rw [ofLe, ofLe] at heq
          have hhead : a = b := UInt8.toNat_inj.mp (by omega)
          subst hhead
          rw [ih (by simpa using hlen) (by omega)]

/-- The first range is the first sixteen bytes. -/
theorem firstRange_eq_iff {d : List UInt8} (hd : 16 ≤ d.length) (hdata : 16 ≤ data.length) :
    firstRange d = firstRange data ↔ d.take 16 = data.take 16 := by
  have hofBe : ∀ {xs ys : List UInt8}, xs.length = ys.length → (ofBe xs = ofBe ys ↔ xs = ys) := by
    intro xs ys hlen
    refine ⟨fun heq => ?_, congrArg ofBe⟩
    exact List.reverse_inj.mp (ofLe_inj (by simpa using hlen) heq)
  have hsplit : ∀ xs : List UInt8, xs.take 16 = xs.take 8 ++ (xs.drop 8).take 8 :=
    fun xs => List.take_add (i := 8) (j := 8)
  unfold firstRange
  rw [Prod.mk.injEq, hofBe (by simp; omega), hofBe (by simp; omega), hsplit, hsplit]
  exact ⟨fun ⟨h₁, h₂⟩ => by rw [h₁, h₂], fun h => List.append_inj h (by simp; omega)⟩

/-! ### The loop over the tokens -/

/-- The `reg` that the loop takes. -/
def scan : Bool → List Tok → Option (List UInt8)
  | _, [] => none
  | flag, .beginNode name :: toks => scan (marks flag name) toks
  | _, .endNode :: toks => scan false toks
  | flag, .prop name data :: toks =>
      if flag = true ∧ name = REG ∧ 16 ≤ data.length then some data else scan flag toks
  | flag, .nop :: toks => scan flag toks
  | _, .fdtEnd :: _ => none

/-- The loop ends at `FDT_END` at the latest. The induction is on the tokens. -/
theorem extractLoop_scan {strings : Nat} (h : TokensAt mem strings a toks) :
    ∀ flag, .fdtEnd ∈ toks → ∃ F, ∀ fuel, F ≤ fuel →
      extractLoop mem strings fuel a flag = .ok ((scan flag toks).map firstRange) := by
  induction h with
  | nil => exact fun _ hend => absurd hend List.not_mem_nil
  | @cons a b tok toks htok _ ih =>
      intro flag hend
      -- every token but the last one leaves the rest to the loop
      have hnext : ∀ flag', tok ≠ .fdtEnd → ∃ F, ∀ fuel, F ≤ fuel →
          extractLoop mem strings fuel b flag' = .ok ((scan flag' toks).map firstRange) := by
        intro flag' hne
        exact ih flag' ((List.mem_cons.mp hend).resolve_left hne.symm)
      cases htok with
      | @beginNode name hcode hname =>
          obtain ⟨F, hF⟩ := hnext (marks flag name) (by simp)
          refine ⟨F + name.length + 2, fun fuel hfuel => ?_⟩
          obtain ⟨fuel, rfl⟩ : ∃ m, fuel = m + 1 := ⟨fuel - 1, by omega⟩
          have hmarks : (if strncmp mem (a + 4) MEMORY 6 = 0 then true else flag) = marks flag name := by
            have hpre := strncmp_eq_zero MEMORY (by decide) hname
            rw [show MEMORY.length = 6 from rfl] at hpre
            unfold marks
            by_cases hp : MEMORY <+: name
            · rw [if_pos (hpre.mpr hp), List.isPrefixOf_iff_prefix.mpr hp, Bool.or_true]
            · rw [if_neg (mt hpre.mp hp), Bool.eq_false_iff.mpr (mt List.isPrefixOf_iff_prefix.mp hp),
                Bool.or_false]
          have hround : roundDown (a + 4 + name.length + 4) 4 =
              roundUpTo (a + 4 + (name.length + 1)) 4 := by
            unfold roundUpTo
            congr 1
          rw [extractLoop]
          simp only [fdt32ToCpu_load, hcode, if_true, strlen_eq name hname fuel (by omega), bind,
            Except.bind, hmarks, hround]
          exact hF fuel (by omega)
      | endNode hcode =>
          obtain ⟨F, hF⟩ := hnext false (by simp)
          refine ⟨F + 1, fun fuel hfuel => ?_⟩
          obtain ⟨fuel, rfl⟩ : ∃ m, fuel = m + 1 := ⟨fuel - 1, by omega⟩
          rw [extractLoop]
          simp only [fdt32ToCpu_load, hcode]
          exact hF fuel (by omega)
      | @prop name data hcode hlen hname hdata =>
          obtain ⟨F, hF⟩ := hnext flag (by simp)
          refine ⟨F + 1, fun fuel hfuel => ?_⟩
          obtain ⟨fuel, rfl⟩ : ∃ m, fuel = m + 1 := ⟨fuel - 1, by omega⟩
          rw [extractLoop]
          simp only [fdt32ToCpu_load, hcode, show a + 4 + 4 = a + 8 by omega, hlen, scan,
            strcmp_eq_zero REG (by decide) hname, show a + 4 + 8 = a + 12 by omega]
          by_cases htake : flag = true ∧ name = REG ∧ 16 ≤ data.length
          · have h₁ : mem.slice (a + 12) 8 = data.take 8 := by
              rw [← hdata, Bytes.slice_take, Nat.min_eq_left (by omega)]
            have h₂ : mem.slice (a + 12 + 8) 8 = (data.drop 8).take 8 := by
              rw [← hdata, Bytes.slice_drop, Bytes.slice_take, Nat.min_eq_left (by omega)]
            rw [if_pos htake, if_pos htake, fdt64ToCpu_load, fdt64ToCpu_load, h₁, h₂]
            rfl
          · rw [if_neg htake, if_neg htake]
            exact hF fuel (by omega)
      | nop hcode =>
          obtain ⟨F, hF⟩ := hnext flag (by simp)
          refine ⟨F + 1, fun fuel hfuel => ?_⟩
          obtain ⟨fuel, rfl⟩ : ∃ m, fuel = m + 1 := ⟨fuel - 1, by omega⟩
          rw [extractLoop]
          simp only [fdt32ToCpu_load, hcode]
          exact hF fuel (by omega)
      | fdtEnd hcode =>
          refine ⟨1, fun fuel hfuel => ?_⟩
          obtain ⟨fuel, rfl⟩ : ∃ m, fuel = m + 1 := ⟨fuel - 1, by omega⟩
          rw [extractLoop]
          simp only [fdt32ToCpu_load, hcode]
          rfl

/-- `FDT_NOP` is skipped. -/
theorem scan_filter (toks : List Tok) : ∀ flag, scan flag (toks.filter (· ≠ .nop)) = scan flag toks := by
  induction toks with
  | nil => exact fun _ => rfl
  | cons tok toks ih =>
      intro flag
      cases tok with
      | nop => exact ih flag
      | beginNode name => exact ih _
      | endNode => exact ih _
      | prop name data =>
          rw [List.filter_cons_of_pos (by simp), scan, scan, ih flag]
      | fdtEnd => rfl

/-! ### The tree -/

/-- The first `reg` with the flag. -/
def firstMarked (regs : List Reg) : Option (List UInt8) := (regs.find? (·.marked)).map (·.data)

/-- The first `reg` that the parser takes, in two parts of the list. -/
theorem firstMarked_append (as bs : List Reg) :
    firstMarked (as ++ bs) = (firstMarked as).or (firstMarked bs) := by
  unfold firstMarked
  rw [List.find?_append]
  cases as.find? (·.marked) <;> rfl

/-- The properties of one node. -/
theorem scan_props (props : List (List UInt8 × List UInt8)) (flag own : Bool) (rest : List Tok) :
    scan flag (props.map (fun p => .prop p.1 p.2) ++ rest) =
      (firstMarked ((longRegs props).map fun data => ⟨flag, own, data⟩)).or (scan flag rest) := by
  induction props with
  | nil => rfl
  | cons p props ih =>
      rw [List.map_cons, List.cons_append, scan, ih]
      unfold longRegs
      by_cases hreg : p.1 = REG ∧ 16 ≤ p.2.length
      · rw [List.filter_cons_of_pos (by simpa using hreg)]
        cases flag with
        | true => simp [hreg, firstMarked]
        | false => simp [firstMarked]
      · rw [List.filter_cons_of_neg (by simpa using hreg), if_neg fun h => hreg h.2]

/-- The tokens of a row of nodes, in front of a token that does not look at the flag. -/
theorem scan_tokens (tree : Nodes) : ∀ (flag : Bool) {rest : List Tok},
    (∀ flag, scan flag rest = scan false rest) →
    scan flag (tree.tokens ++ rest) = (firstMarked (tree.regs flag)).or (scan false rest) := by
  induction tree with
  | nil => exact fun flag rest hrest => hrest flag
  | node name props children next ihChildren ihNext =>
      intro flag rest hrest
      have hshape : (Nodes.node name props children next).tokens ++ rest =
          .beginNode name :: (props.map (fun p => .prop p.1 p.2) ++
            (children.tokens ++ .endNode :: (next.tokens ++ rest))) := by
        simp [Nodes.tokens]
      rw [hshape, scan, scan_props props _ (isMemory name), ihChildren _ fun _ => rfl, scan,
        ihNext _ hrest, Nodes.regs, firstMarked_append, firstMarked_append, Option.or_assoc,
        Option.or_assoc]

/-- The `reg` of the memory node is one that the parser takes. -/
theorem marked_of_own : ∀ {flag : Bool} {r : Reg}, r ∈ tree.regs flag → r.own = true →
    r.marked = true := by
  induction tree with
  | nil => exact fun hr => absurd hr List.not_mem_nil
  | node name props children next ihChildren ihNext =>
      intro flag r hr hown
      rw [Nodes.regs] at hr
      rcases List.mem_append.mp hr with hr | hr
      · rcases List.mem_append.mp hr with hr | hr
        · obtain ⟨data, -, rfl⟩ := List.mem_map.mp hr
          -- the name of a memory node begins as the parser asks
          have hpre : MEMORY.isPrefixOf name = true := by
            rw [List.isPrefixOf_iff_prefix]
            simp only [isMemory, Bool.or_eq_true, decide_eq_true_eq, List.isPrefixOf_iff_prefix] at hown
            rcases hown with rfl | hpre
            · exact List.prefix_rfl
            · exact (List.prefix_append _ _).trans hpre
          simp [marks, hpre]
        · exact ihChildren hr hown
      · exact ihNext hr hown

/-- The `reg` properties of the memory nodes. -/
theorem filter_own (tree : Nodes) : ∀ flag : Bool,
    ((tree.regs flag).filter (·.own)).map (·.data) = tree.memoryNodes.flatMap longRegs := by
  induction tree with
  | nil => exact fun _ => rfl
  | node name props children next ihChildren ihNext =>
      intro flag
      rw [Nodes.regs, Nodes.memoryNodes, List.filter_append, List.filter_append, List.map_append,
        List.map_append, ihChildren, ihNext, List.flatMap_append, List.flatMap_append]
      congr 2
      cases isMemory name with
      | true => simp [List.filter_map, Function.comp_def]
      | false => simp [List.filter_map, Function.comp_def]

/-- With one memory node, the loop takes its `reg` or the first one in front of it. -/
theorem firstMarked_regs (h : MemoryReg tree data) : firstMarked (tree.regs false) =
    ((((tree.regs false).takeWhile fun r => !r.own).find? (·.marked)).map (·.data)).or
      (some data) := by
  obtain ⟨props, hnodes, hreg, hlen⟩ := h
  have hown := filter_own tree false
  have hlong : longRegs props = [data] := by
    have hfilter : (props.filter fun p => p.1 = REG ∧ 16 ≤ p.2.length) =
        (props.filter fun p => p.1 = REG).filter fun p => 16 ≤ p.2.length := by
      rw [List.filter_filter]
      congr 1
      funext p
      simp [Bool.and_comm]
    unfold longRegs
    rw [hfilter, hreg]
    simp [hlen]
  rw [hnodes, List.flatMap_singleton, hlong] at hown
  -- the list behind the last `reg` of another node
  have hsplit := List.takeWhile_append_dropWhile (p := fun r : Reg => !r.own) (l := tree.regs false)
  cases hdrop : (tree.regs false).dropWhile fun r => !r.own with
  | nil =>
      rw [hdrop, List.append_nil] at hsplit
      have hnone : (tree.regs false).filter (·.own) = [] := by
        rw [← hsplit, List.filter_eq_nil_iff]
        intro r hr
        simpa using List.mem_takeWhile_imp hr
      rw [hnone] at hown
      cases hown
  | cons r rest =>
      have hr : r.own = true := by
        have h := List.head_dropWhile_not (l := tree.regs false) (fun r : Reg => !r.own)
          (by rw [hdrop]; simp)
        simpa [hdrop] using h
      have hmem : r ∈ tree.regs false := by
        rw [← hsplit, hdrop]
        simp
      have hnone : ((tree.regs false).takeWhile fun r => !r.own).filter (·.own) = [] := by
        rw [List.filter_eq_nil_iff]
        intro r hr
        simpa using List.mem_takeWhile_imp hr
      have hdata : r.data = data := by
        rw [← hsplit, List.filter_append, hnone, hdrop, List.nil_append,
          List.filter_cons_of_pos hr] at hown
        exact (List.cons.inj hown).1
      rw [← hsplit, hdrop, firstMarked_append]
      unfold firstMarked
      rw [List.find?_cons_of_pos (marked_of_own hmem hr), Option.map_some, hdata, ← hdrop, hsplit]

/-- Every `reg` of the list is long enough. -/
theorem length_of_mem_regs : ∀ {flag : Bool} {r : Reg}, r ∈ tree.regs flag → 16 ≤ r.data.length := by
  induction tree with
  | nil => exact fun hr => absurd hr List.not_mem_nil
  | node name props children next ihChildren ihNext =>
      intro flag r hr
      rw [Nodes.regs] at hr
      rcases List.mem_append.mp hr with hr | hr
      · rcases List.mem_append.mp hr with hr | hr
        · obtain ⟨data, hdata, rfl⟩ := List.mem_map.mp hr
          obtain ⟨p, hp, rfl⟩ := List.mem_map.mp hdata
          have h := (List.mem_filter.mp hp).2
          simp only [decide_eq_true_eq] at h
          exact h.2
        · exact ihChildren hr
      · exact ihNext hr

/-! ### The result -/

/-- The parser ends on every tree, and takes the first `reg` in a node with the flag. -/
theorem extractMemoryInfo_run {dtb : Nat} (h : Flattened mem dtb tree) :
    ∃ F, ∀ fuel, F ≤ fuel → extractMemoryInfo mem dtb fuel =
      .ok ((firstMarked (tree.regs false)).map firstRange) := by
  obtain ⟨toks, htoks, hfilter⟩ := h.tokens
  have hend : .fdtEnd ∈ toks := by
    refine (List.mem_filter (p := fun tok => tok ≠ Tok.nop)).mp ?_ |>.1
    rw [hfilter]
    simp
  obtain ⟨F, hF⟩ := extractLoop_scan htoks false hend
  have hscan : scan false toks = firstMarked (tree.regs false) := by
    rw [← scan_filter, hfilter, scan_tokens tree false fun _ => rfl]
    exact Option.or_none
  rw [hscan] at hF
  refine ⟨F, fun fuel hfuel => ?_⟩
  unfold extractMemoryInfo
  simp only [fdt32ToCpu_load]
  exact hF fuel hfuel

/-- On a tree with one memory node, `extract_memory_info` ends and returns the first range of its
`reg` if and only if no other `reg` in front of it misleads the parser. -/
theorem extractMemoryInfo_iff {dtb : Nat} (h : Flattened mem dtb tree) (hreg : MemoryReg tree data) :
    (∃ F, ∀ fuel, F ≤ fuel → extractMemoryInfo mem dtb fuel = .ok (some (firstRange data))) ↔
      ¬ Misled tree data := by
  obtain ⟨F, hF⟩ := extractMemoryInfo_run h
  rw [firstMarked_regs hreg] at hF
  have hlen : 16 ≤ data.length := by
    obtain ⟨_, _, _, hlen⟩ := hreg
    exact hlen
  unfold Misled
  cases hfind : ((tree.regs false).takeWhile fun r => !r.own).find? (·.marked) with
  | none =>
      rw [hfind] at hF
      simp only [reduceCtorEq, false_and, exists_false, not_false_eq_true, iff_true]
      exact ⟨F, hF⟩
  | some r =>
      rw [hfind] at hF
      have hr : r ∈ tree.regs false :=
        (List.takeWhile_sublist _).subset (List.mem_of_find?_eq_some hfind)
      have hrange := firstRange_eq_iff (length_of_mem_regs hr) hlen
      constructor
      · rintro ⟨F', hF'⟩ ⟨r', hr', hne⟩
        -- both bounds are met by one run
        have hboth := (hF (max F F') (Nat.le_max_left _ _)).symm.trans
          (hF' (max F F') (Nat.le_max_right _ _))
        rw [← Option.some.inj hr'] at hne
        exact hne (hrange.mp (Option.some.inj (Except.ok.inj hboth)))
      · intro hnot
        have hsame : r.data.take 16 = data.take 16 := by
          by_contra hne
          exact hnot ⟨r, rfl, hne⟩
        refine ⟨F, fun fuel hfuel => ?_⟩
        rw [hF fuel hfuel, ← hrange.mpr hsame]
        rfl

/-! ### A memory controller -/

/-- The text `#address-cells`. -/
def ADDRESS_CELLS : List UInt8 := [35, 97, 100, 100, 114, 101, 115, 115, 45, 99, 101, 108, 108, 115]

/-- The text `#size-cells`. -/
def SIZE_CELLS : List UInt8 := [35, 115, 105, 122, 101, 45, 99, 101, 108, 108, 115]

/-- The properties of the root: two address cells and two size cells. -/
def cellsProps : List (List UInt8 × List UInt8) :=
  [(ADDRESS_CELLS, [0, 0, 0, 2]), (SIZE_CELLS, [0, 0, 0, 2])]

/-- The text `memory-controller`. -/
def controllerName : List UInt8 :=
  [109, 101, 109, 111, 114, 121, 45, 99, 111, 110, 116, 114, 111, 108, 108, 101, 114]

/-- The registers of the controller: `0x1000` bytes at `0x10000000`. -/
def controllerReg : List UInt8 := [0, 0, 0, 0, 16, 0, 0, 0, 0, 0, 0, 0, 0, 0, 16, 0]

/-- The memory: `0x8000000` bytes at `0x80000000`. -/
def ramReg : List UInt8 := [0, 0, 0, 0, 128, 0, 0, 0, 0, 0, 0, 0, 8, 0, 0, 0]

/-- A root with a memory controller in front of the memory. -/
def controllerTree : Nodes :=
  .node [] cellsProps (.node controllerName [(REG, controllerReg)] .nil
    (.node MEMORY [(REG, ramReg)] .nil .nil)) .nil

/-- The same with the memory in front. -/
def memoryTree : Nodes :=
  .node [] cellsProps (.node MEMORY [(REG, ramReg)] .nil
    (.node controllerName [(REG, controllerReg)] .nil .nil)) .nil

/-- The 56 bytes of the controller in the structure block. -/
def controllerBytes : List UInt8 :=
  [0, 0, 0, 1] ++ controllerName ++ [0, 0, 0, 0, 0, 0, 3, 0, 0, 0, 16, 0, 0, 0, 0] ++
    controllerReg ++ [0, 0, 0, 2]

/-- The 44 bytes of the memory in the structure block. -/
def memoryBytes : List UInt8 :=
  [0, 0, 0, 1] ++ MEMORY ++ [0, 0, 0, 0, 0, 3, 0, 0, 0, 16, 0, 0, 0, 0] ++ ramReg ++ [0, 0, 0, 2]

/-- A blob with these 100 bytes for the children of the root: the header, an empty reservation map
at 40, the structure block at 56 and the strings block at 204. -/
def blobOf (children : List UInt8) : Bytes := fun x =>
  ([0xd0, 0x0d, 0xfe, 0xed, 0, 0, 0, 235, 0, 0, 0, 56, 0, 0, 0, 204, 0, 0, 0, 40, 0, 0, 0, 17,
    0, 0, 0, 16, 0, 0, 0, 0, 0, 0, 0, 31, 0, 0, 0, 148,
    0, 0, 0, 0, 0, 0, 0, 0, 0, 0, 0, 0, 0, 0, 0, 0,
    0, 0, 0, 1, 0, 0, 0, 0, 0, 0, 0, 3, 0, 0, 0, 4, 0, 0, 0, 4, 0, 0, 0, 2,
    0, 0, 0, 3, 0, 0, 0, 4, 0, 0, 0, 19, 0, 0, 0, 2] ++ children ++
    [0, 0, 0, 2, 0, 0, 0, 9] ++ REG ++ [0] ++ ADDRESS_CELLS ++ [0] ++ SIZE_CELLS ++ [0]).getD x 0

/-- The controller in front of the memory. -/
def controllerBlob : Bytes := blobOf (controllerBytes ++ memoryBytes)

/-- The memory in front of the controller. -/
def memoryBlob : Bytes := blobOf (memoryBytes ++ controllerBytes)

/-- The blob is the tree, written out. -/
theorem controllerBlob_flattened : Flattened controllerBlob 0 controllerTree := by
  have hreg : CString controllerBlob 204 REG := ⟨by decide, by decide, by decide⟩
  refine ⟨by decide, by decide, ⟨_, _, rfl⟩, [.beginNode [], .prop ADDRESS_CELLS [0, 0, 0, 2],
    .prop SIZE_CELLS [0, 0, 0, 2], .beginNode controllerName, .prop REG controllerReg, .endNode,
    .beginNode MEMORY, .prop REG ramReg, .endNode, .endNode, .fdtEnd], ?_, rfl⟩
  show TokensAt controllerBlob 204 56 _
  refine .cons (.beginNode (by decide) ⟨by decide, by decide, by decide⟩) ?_
  show TokensAt controllerBlob 204 64 _
  refine .cons (.prop (by decide) (by decide) ⟨by decide, by decide, by decide⟩ (by decide)) ?_
  show TokensAt controllerBlob 204 80 _
  refine .cons (.prop (by decide) (by decide) ⟨by decide, by decide, by decide⟩ (by decide)) ?_
  show TokensAt controllerBlob 204 96 _
  refine .cons (.beginNode (by decide) ⟨by decide, by decide, by decide⟩) ?_
  show TokensAt controllerBlob 204 120 _
  refine .cons (.prop (by decide) (by decide) hreg (by decide)) ?_
  show TokensAt controllerBlob 204 148 _
  refine .cons (.endNode (by decide)) (.cons (.beginNode (by decide)
    ⟨by decide, by decide, by decide⟩) ?_)
  show TokensAt controllerBlob 204 164 _
  refine .cons (.prop (by decide) (by decide) hreg (by decide)) ?_
  show TokensAt controllerBlob 204 192 _
  exact .cons (.endNode (by decide)) (.cons (.endNode (by decide)) (.cons (.fdtEnd (by decide)) .nil))

/-- The blob is the tree, written out. -/
theorem memoryBlob_flattened : Flattened memoryBlob 0 memoryTree := by
  have hreg : CString memoryBlob 204 REG := ⟨by decide, by decide, by decide⟩
  refine ⟨by decide, by decide, ⟨_, _, rfl⟩, [.beginNode [], .prop ADDRESS_CELLS [0, 0, 0, 2],
    .prop SIZE_CELLS [0, 0, 0, 2], .beginNode MEMORY, .prop REG ramReg, .endNode,
    .beginNode controllerName, .prop REG controllerReg, .endNode, .endNode, .fdtEnd], ?_, rfl⟩
  show TokensAt memoryBlob 204 56 _
  refine .cons (.beginNode (by decide) ⟨by decide, by decide, by decide⟩) ?_
  show TokensAt memoryBlob 204 64 _
  refine .cons (.prop (by decide) (by decide) ⟨by decide, by decide, by decide⟩ (by decide)) ?_
  show TokensAt memoryBlob 204 80 _
  refine .cons (.prop (by decide) (by decide) ⟨by decide, by decide, by decide⟩ (by decide)) ?_
  show TokensAt memoryBlob 204 96 _
  refine .cons (.beginNode (by decide) ⟨by decide, by decide, by decide⟩) ?_
  show TokensAt memoryBlob 204 108 _
  refine .cons (.prop (by decide) (by decide) hreg (by decide)) ?_
  show TokensAt memoryBlob 204 136 _
  refine .cons (.endNode (by decide)) (.cons (.beginNode (by decide)
    ⟨by decide, by decide, by decide⟩) ?_)
  show TokensAt memoryBlob 204 164 _
  refine .cons (.prop (by decide) (by decide) hreg (by decide)) ?_
  show TokensAt memoryBlob 204 192 _
  exact .cons (.endNode (by decide)) (.cons (.endNode (by decide)) (.cons (.fdtEnd (by decide)) .nil))

/-- The registers of the memory node of the tree. -/
theorem controllerTree_memoryReg : MemoryReg controllerTree ramReg :=
  ⟨_, rfl, by decide, by decide⟩

/-- The registers of the memory node of the tree. -/
theorem memoryTree_memoryReg : MemoryReg memoryTree ramReg :=
  ⟨_, rfl, by decide, by decide⟩

/-- With the memory in front of the controller nothing misleads the parser, and it returns the
memory. -/
theorem extractMemoryInfo_memoryFirst :
    firstRange ramReg = (0x80000000, 0x8000000) ∧ ¬ Misled memoryTree ramReg ∧
      ∃ F, ∀ fuel, F ≤ fuel →
        extractMemoryInfo memoryBlob 0 fuel = .ok (some (firstRange ramReg)) := by
  have hgood : ¬ Misled memoryTree ramReg := by
    rintro ⟨r, hr, -⟩
    cases hr
  exact ⟨by decide, hgood,
    (extractMemoryInfo_iff memoryBlob_flattened memoryTree_memoryReg).mpr hgood⟩

/-- With the controller in front the parser returns its registers, and not the memory. -/
theorem extractMemoryInfo_controller :
    Flattened controllerBlob 0 controllerTree ∧ MemoryReg controllerTree ramReg ∧
      firstRange ramReg = (0x80000000, 0x8000000) ∧
      (∃ F, ∀ fuel, F ≤ fuel →
        extractMemoryInfo controllerBlob 0 fuel = .ok (some (0x10000000, 0x1000))) ∧
      ¬ ∃ F, ∀ fuel, F ≤ fuel →
        extractMemoryInfo controllerBlob 0 fuel = .ok (some (firstRange ramReg)) := by
  obtain ⟨F, hF⟩ := extractMemoryInfo_run controllerBlob_flattened
  have hrange : (firstMarked (controllerTree.regs false)).map firstRange =
      some (0x10000000, 0x1000) := by decide
  rw [hrange] at hF
  refine ⟨controllerBlob_flattened, controllerTree_memoryReg, by decide, ⟨F, hF⟩, ?_⟩
  rintro ⟨F', hF'⟩
  have hboth := (hF (max F F') (Nat.le_max_left _ _)).symm.trans
    (hF' (max F F') (Nat.le_max_right _ _))
  exact absurd hboth (by decide)

end Ucore.Proofs.Driver
