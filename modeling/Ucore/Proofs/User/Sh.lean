import Ucore.User.Sh

/-!
# `Ucore.Proofs.User.Sh`: `gettoken` cuts a line into its tokens

`CString mem a line` says that the string `line` is in memory. Each call of `gettoken` takes one
token off the string that is left, and writes only in front of what it leaves and into its first
character (`gettokens_spec`). So the word of one call is whole after the next one, and stays.

The tokens of a line are defined without the code (`Tokens`): blanks between them, symbols of one
character, and words, in which a quoted part may have blanks and symbols. A line has one list of
tokens (`tokens_unique`), since a word goes on as far as it can.

* `skipBlanks_spec`, `wordLoop_spec`: the two loops of `gettoken`, by induction on the rest of the
  string.
* `gettoken_spec`: a call finds a token (`Taken`) or comes to the end of the line (`Ended`). A zero
  is written where a token ends, which may be the first character of what is left; it has been read
  by then, or it is a blank (`Cut`).
* `gettokens_spec`: the calls one after another, by induction on the tokens.
-/

set_option autoImplicit false

namespace Ucore.Proofs.User

open Ucore.Lib Ucore.Libs Ucore.User

variable {mem mem' : Bytes} {a b : Nat} {c : UInt8} {line cs w rest : List UInt8} {q q' : Bool}
  {ts ts' : List Token}

/-! ### The grammar is unambiguous -/

/-- The quote does not end a word. -/
theorem not_special_quote : ¬ Special QUOTE := by unfold Special; decide

/-- A part of a word begins with a character of the word. -/
theorem wordPart_cons (h : WordPart false (c :: cs) q) : ¬ Special c := by
  cases h with
  | quote _ => exact not_special_quote
  | char _ hc _ => exact hc.resolve_left (by simp)

/-- Two words that start at one place are the same. -/
theorem word_unique (h : WordPart q w q') (hend : WordEnds q' rest) :
    ∀ {w' rest' : List UInt8} {q'' : Bool}, WordPart q w' q'' → WordEnds q'' rest' →
      w ++ rest = w' ++ rest' → w = w' ∧ rest = rest' := by
  -- a word that goes on has no blank and no symbol where the other one ends
  have hgo : ∀ {q q' : Bool} {c : UInt8} {cs rest : List UInt8}, WordPart q (c :: cs) q' →
      ¬ WordEnds q (c :: cs ++ rest) := by
    intro q q' c cs rest hpart hends
    rcases hends with hnil | ⟨rfl, d, ds, heq, hd⟩
    · cases hnil
    · obtain ⟨rfl, -⟩ := List.cons.inj heq
      exact wordPart_cons hpart hd
  induction h with
  | nil q =>
      intro w' rest' q'' h' _ heq
      cases w' with
      | nil => exact ⟨rfl, heq⟩
      | cons d ds =>
          rw [List.nil_append] at heq
          rw [heq] at hend
          exact absurd hend (hgo h')
  | @quote q q' cs hpart ih =>
      intro w' rest' q'' h' hend' heq
      cases h' with
      | nil =>
          rw [List.nil_append] at heq
          rw [← heq] at hend'
          exact absurd hend' (hgo (.quote hpart))
      | quote hpart' =>
          obtain ⟨rfl, rfl⟩ := ih hend hpart' hend' (List.cons.inj heq).2
          exact ⟨rfl, rfl⟩
      | char hne _ _ => exact absurd (List.cons.inj heq).1.symm hne
  | @char q q' c cs hne hc hpart ih =>
      intro w' rest' q'' h' hend' heq
      cases h' with
      | nil =>
          rw [List.nil_append] at heq
          rw [← heq] at hend'
          exact absurd hend' (hgo (.char hne hc hpart))
      | quote hpart' => exact absurd (List.cons.inj heq).1 hne
      | char _ _ hpart' =>
          obtain ⟨rfl, htail⟩ := List.cons.inj heq
          obtain ⟨rfl, rfl⟩ := ih hend hpart' hend' htail
          exact ⟨rfl, rfl⟩

/-- No blank is a symbol. -/
theorem whitespace_not_symbol (h : c ∈ WHITESPACE) : c ∉ SYMBOLS := by
  simp only [WHITESPACE, List.mem_cons, List.not_mem_nil, or_false] at h
  rcases h with rfl | rfl | rfl | rfl <;> decide

/-- A line has one list of tokens. -/
theorem tokens_unique (h : Tokens line ts) : ∀ {ts'}, Tokens line ts' → ts' = ts := by
  -- a word does not begin with a blank or a symbol
  have hword : ∀ {c : UInt8} {cs w rest : List UInt8} {q : Bool}, c :: cs = w ++ rest → w ≠ [] →
      WordPart false w q → ¬ Special c := by
    intro c cs w rest q heq hne hpart
    cases w with
    | nil => exact absurd rfl hne
    | cons d ds =>
        obtain ⟨rfl, -⟩ := List.cons.inj heq
        exact wordPart_cons hpart
  induction h with
  | done =>
      intro ts' h'
      cases h' with
      | done => rfl
      | word heq hne _ _ _ => exact absurd (List.append_eq_nil_iff.mp heq.symm).1 hne
  | blank hc _ ih =>
      intro ts' h'
      cases h' with
      | blank _ h' => exact ih h'
      | symbol hc' _ => exact absurd hc' (whitespace_not_symbol hc)
      | word heq hne hpart _ _ => exact absurd (Or.inl hc) (hword heq hne hpart)
  | symbol hc _ ih =>
      intro ts' h'
      cases h' with
      | blank hc' _ => exact absurd hc (whitespace_not_symbol hc')
      | symbol _ h' => rw [ih h']
      | word heq hne hpart _ _ => exact absurd (Or.inr hc) (hword heq hne hpart)
  | @word line w rest q ts heq hne hpart hend _ ih =>
      intro ts' h'
      cases h' with
      | done => exact absurd (List.append_eq_nil_iff.mp heq.symm).1 hne
      | blank hc _ => exact absurd (Or.inl hc) (hword heq hne hpart)
      | symbol hc _ => exact absurd (Or.inr hc) (hword heq hne hpart)
      | word heq' _ hpart' hend' h' =>
          obtain ⟨rfl, rfl⟩ := word_unique hpart hend hpart' hend' (heq.symm.trans heq')
          rw [ih h']

/-! ### The loops -/

/-- The blanks in front of a string. -/
theorem skipBlanks_spec (line : List UInt8) : ∀ (mem : Bytes) (a : Nat), CString mem a line →
    ∃ bs rest, line = bs ++ rest ∧ (∀ c ∈ bs, c ∈ WHITESPACE) ∧
      (∀ c cs, rest = c :: cs → c ∉ WHITESPACE) ∧
      ∃ mem', (∀ fuel, line.length < fuel → skipBlanks fuel mem a = .ok (mem', a + bs.length)) ∧
        CString mem' (a + bs.length) rest ∧ (∀ x, x < a → mem' x = mem x) ∧
        (bs ≠ [] → mem' a = 0) := by
  induction line with
  | nil =>
      intro mem a h
      refine ⟨[], [], rfl, by simp, by simp, mem, fun fuel hfuel => ?_, h, fun _ _ => rfl,
        fun hne => absurd rfl hne⟩
      obtain ⟨fuel, rfl⟩ : ∃ m, fuel = m + 1 := ⟨fuel - 1, by simp at hfuel; omega⟩
      rw [skipBlanks, cstring_nil.mp h]
      rfl
  | cons c cs ih =>
      intro mem a h
      obtain ⟨hc, hne, hcs⟩ := cstring_cons.mp h
      by_cases hblank : c ∈ WHITESPACE
      · have hcs' : CString (Function.update mem a 0) (a + 1) cs :=
          cstring_congr hcs fun x hx => Function.update_of_ne (by omega) ..
        obtain ⟨bs, rest, rfl, hbs, hrest, mem', hrun, hstr, hsame, hzero⟩ := ih _ _ hcs'
        refine ⟨c :: bs, rest, rfl, ?_, hrest, mem', fun fuel hfuel => ?_, ?_, fun x hx => ?_,
          fun _ => ?_⟩
        · intro d hd
          rcases List.mem_cons.mp hd with rfl | hd
          · exact hblank
          · exact hbs d hd
        · obtain ⟨fuel, rfl⟩ : ∃ m, fuel = m + 1 := ⟨fuel - 1, by omega⟩
          rw [skipBlanks, hc, if_pos ((strchr_iff _ _).mpr hblank),
            hrun fuel (by rw [List.length_cons] at hfuel; omega)]
          rw [List.length_cons, show a + 1 + bs.length = a + (bs.length + 1) by omega]
        · rw [List.length_cons, show a + (bs.length + 1) = a + 1 + bs.length by omega]
          exact hstr
        · rw [hsame x (by omega)]
          exact Function.update_of_ne (by omega) ..
        · rw [hsame a (by omega)]
          exact Function.update_self ..
      · refine ⟨[], c :: cs, rfl, by simp, ?_, mem, fun fuel hfuel => ?_, h, fun _ _ => rfl,
          fun hne => absurd rfl hne⟩
        · intro d ds heq
          obtain ⟨rfl, -⟩ := List.cons.inj heq
          exact hblank
        · obtain ⟨fuel, rfl⟩ : ∃ m, fuel = m + 1 := ⟨fuel - 1, by omega⟩
          rw [skipBlanks, hc, if_neg (by rw [strchr_iff]; exact hblank)]
          rfl

/-- The rest of a word, and what is left of the string. -/
theorem wordLoop_spec (line : List UInt8) : ∀ (mem : Bytes) (a : Nat) (q : Bool),
    CString mem a line →
    ∃ w rest q', line = w ++ rest ∧ WordPart q w q' ∧ WordEnds q' rest ∧
      ∃ mem', (∀ fuel, line.length < fuel → wordLoop fuel mem a q = .ok (mem', a + w.length)) ∧
        mem'.slice a w.length = wordText w ∧ CString mem' (a + w.length) rest ∧
        ∀ x, x < a → mem' x = mem x := by
  have hspecial : ∀ c, strchr (WHITESPACE ++ SYMBOLS) c = false ↔ ¬ Special c := by
    intro c
    rw [← Bool.not_eq_true, strchr_iff, List.mem_append]
    rfl
  -- The induction is on the string; the flag `q` says whether the loop is inside of quotes.
  induction line with
  | nil =>
      intro mem a q h
      refine ⟨[], [], q, rfl, .nil q, Or.inl rfl, mem, fun fuel hfuel => ?_, rfl, h,
        fun _ _ => rfl⟩
      obtain ⟨fuel, rfl⟩ : ∃ m, fuel = m + 1 := ⟨fuel - 1, by simp at hfuel; omega⟩
      rw [wordLoop, if_neg (by rw [cstring_nil.mp h]; simp)]
      rfl
  | cons c cs ih =>
      intro mem a q h
      obtain ⟨hc, hne, hcs⟩ := cstring_cons.mp h
      by_cases hin : q = true ∨ ¬ Special c
      · -- the character belongs to the word
        have htest : mem a ≠ 0 ∧ (q = true ∨ strchr (WHITESPACE ++ SYMBOLS) (mem a) = false) := by
          rw [hc, hspecial]
          exact ⟨hne, hin⟩
        -- A quote becomes a blank, and the flag flips. Any other character stays.
        by_cases hquote : c = QUOTE
        · have hcs' : CString (Function.update mem a 32) (a + 1) cs :=
            cstring_congr hcs fun x hx => Function.update_of_ne (by omega) ..
          obtain ⟨w, rest, q', rfl, hpart, hend, mem', hrun, htext, hstr, hsame⟩ :=
            ih _ _ (!q) hcs'
          have hself : mem' a = 32 := by
            rw [hsame a (by omega)]
            exact Function.update_self ..
          refine ⟨c :: w, rest, q', rfl, hquote ▸ .quote hpart, hend, mem', fun fuel hfuel => ?_, ?_,
            ?_, fun x hx => ?_⟩
          · obtain ⟨fuel, rfl⟩ : ∃ m, fuel = m + 1 := ⟨fuel - 1, by omega⟩
            rw [wordLoop, if_pos htest, hc, if_pos hquote,
              hrun fuel (by rw [List.length_cons] at hfuel; omega)]
            rw [List.length_cons, show a + 1 + w.length = a + (w.length + 1) by omega]
          · rw [List.length_cons, slice_succ, hself, htext]
            simp [wordText, hquote]
          · rw [List.length_cons, show a + (w.length + 1) = a + 1 + w.length by omega]
            exact hstr
          · rw [hsame x (by omega)]
            exact Function.update_of_ne (by omega) ..
        · obtain ⟨w, rest, q', rfl, hpart, hend, mem', hrun, htext, hstr, hsame⟩ := ih _ _ q hcs
          refine ⟨c :: w, rest, q', rfl, .char hquote hin hpart, hend, mem', fun fuel hfuel => ?_,
            ?_, ?_, fun x hx => hsame x (by omega)⟩
          · obtain ⟨fuel, rfl⟩ : ∃ m, fuel = m + 1 := ⟨fuel - 1, by omega⟩
            rw [wordLoop, if_pos htest, hc, if_neg hquote,
              hrun fuel (by rw [List.length_cons] at hfuel; omega)]
            rw [List.length_cons, show a + 1 + w.length = a + (w.length + 1) by omega]
          · rw [List.length_cons, slice_succ, hsame a (by omega), hc, htext]
            simp [wordText, hquote]
          · rw [List.length_cons, show a + (w.length + 1) = a + 1 + w.length by omega]
            exact hstr
      · -- the word ends in front of it
        obtain ⟨hq, hc'⟩ := not_or.mp hin
        refine ⟨[], c :: cs, q, rfl, .nil q,
          Or.inr ⟨by simpa using hq, c, cs, rfl, not_not.mp hc'⟩, mem, fun fuel hfuel => ?_,
          rfl, h, fun _ _ => rfl⟩
        obtain ⟨fuel, rfl⟩ : ∃ m, fuel = m + 1 := ⟨fuel - 1, by omega⟩
        rw [wordLoop, if_neg (by rw [hc, hspecial]; exact fun ht => hin ht.2)]
        rfl

/-! ### One call -/

/-- The string that a call leaves is at `a`. The saved pointer is `NULL` when nothing is left. -/
def Left (mem : Bytes) (p1 : Option Nat) (a : Nat) (line : List UInt8) : Prop :=
  p1 = some a ∧ CString mem a line ∨ p1 = none ∧ line = [] ∧ mem a = 0

/-- The next call writes a zero first: nothing is left, or a blank or a symbol comes first. -/
def Cut (line : List UInt8) : Prop := ∀ c cs, line = c :: cs → Special c

/-- What is left of the line behind a token. -/
theorem left_next (h : CString mem a line) :
    Left mem (if mem a ≠ 0 then some a else none) a line := by
  cases line with
  | nil =>
      have hzero := cstring_nil.mp h
      exact Or.inr ⟨if_neg (not_not.mpr hzero), rfl, hzero⟩
  | cons c cs =>
      obtain ⟨hc, hne, -⟩ := cstring_cons.mp h
      exact Or.inl ⟨if_pos (hc ▸ hne), h⟩

/-- A word ends where a token may. -/
theorem cut_of_wordEnds (h : WordEnds q rest) : Cut rest := by
  intro c cs heq
  rcases h with rfl | ⟨-, d, ds, hd, hspecial⟩
  · cases heq
  · obtain ⟨rfl, -⟩ := List.cons.inj (heq.symm.trans hd)
    exact hspecial

/-- Blanks in front change no token. -/
theorem tokens_blanks {bs : List UInt8} (hbs : ∀ c ∈ bs, c ∈ WHITESPACE) (h : Tokens rest ts) :
    Tokens (bs ++ rest) ts := by
  induction bs with
  | nil => exact h
  | cons c bs ih =>
      exact .blank (hbs c List.mem_cons_self) (ih fun d hd => hbs d (List.mem_cons_of_mem _ hd))

/-- The text of a word has no NUL. -/
theorem zero_not_mem_wordText (h : 0 ∉ w) : 0 ∉ wordText w := by
  intro hmem
  obtain ⟨c, hc, hzero⟩ := List.mem_map.mp hmem
  split at hzero
  · exact absurd hzero (by decide)
  · exact h (hzero ▸ hc)

/-- What a call that finds a token says: the token is cut off, and only what it was cut from has
changed. -/
structure Taken (mem : Bytes) (a : Nat) (line : List UInt8) (t : Token) (r : TokenResult) (b : Nat)
    (rest : List UInt8) : Prop where
  token : r.token = t.code
  token_ne : r.token ≠ 0
  tokens : ∀ ts, Tokens rest ts → Tokens line (t :: ts)
  left : Left r.mem r.p1 b rest
  shorter : rest.length < line.length
  lt : a < b
  below : ∀ x, x < a → r.mem x = mem x
  cut : Cut line → r.mem a = 0
  word : ∀ w, t = .word w →
    Cut rest ∧ r.p2 + w.length = b ∧ r.mem.slice r.p2 w.length = w ∧ 0 ∉ w

/-- What the last call says: only blanks were left. -/
structure Ended (mem : Bytes) (a : Nat) (line : List UInt8) (r : TokenResult) : Prop where
  token : r.token = 0
  tokens : Tokens line []
  below : ∀ x, x < a → r.mem x = mem x
  zero : r.mem a = 0

/-- A call ends the line or takes a token off it. -/
theorem gettoken_spec {p1 : Option Nat} (p2 : Nat) (h : Left mem p1 a line) :
    ∃ r, (∀ fuel, line.length < fuel → gettoken fuel mem p1 p2 = .ok r) ∧
      (Ended mem a line r ∨ ∃ t b rest, Taken mem a line t r b rest) := by
  rcases h with ⟨rfl, hstr⟩ | ⟨rfl, rfl, hzero⟩
  -- The last call left NULL behind, and so does this one.
  case inr => exact ⟨⟨0, mem, none, p2⟩, fun _ _ => rfl, Or.inl ⟨rfl, .done, fun _ _ => rfl, hzero⟩⟩
  -- The loop over the blanks zeroes each of them and stops at `rest`.
  obtain ⟨bs, rest, rfl, hbs, hrest, mem₁, hskip, hstr₁, hbelow, hblank⟩ :=
    skipBlanks_spec line mem a hstr
  have hlen : ∀ fuel, (bs ++ rest).length < fuel → rest.length < fuel := by
    intro fuel hfuel
    rw [List.length_append] at hfuel
    omega
  cases rest with
  | nil =>
      have hzero := cstring_nil.mp hstr₁
      refine ⟨⟨0, mem₁, some a, p2⟩, fun fuel hfuel => ?_,
        Or.inl ⟨rfl, tokens_blanks hbs .done, hbelow, ?_⟩⟩
      · simp only [gettoken, hskip fuel hfuel, bind, Except.bind, if_pos hzero]
        rfl
      -- The byte at `a`: a blank that has been zeroed, or the end of the line.
      · by_cases hbs' : bs = []
        · rw [hbs'] at hzero
          exact hzero
        · exact hblank hbs'
  | cons c cs =>
      obtain ⟨hc, hne, hcs⟩ := cstring_cons.mp hstr₁
      by_cases hsym : c ∈ SYMBOLS
      · -- a symbol is cut out
        have hcs' : CString (Function.update mem₁ (a + bs.length) 0) (a + bs.length + 1) cs :=
          cstring_congr hcs fun x hx => Function.update_of_ne (by omega) ..
        refine ⟨⟨c, Function.update mem₁ (a + bs.length) 0,
          if Function.update mem₁ (a + bs.length) 0 (a + bs.length + 1) ≠ 0
            then some (a + bs.length + 1) else none, a + bs.length⟩,
          fun fuel hfuel => ?_, Or.inr ⟨.symbol c, a + bs.length + 1, cs, ?_⟩⟩
        · simp only [gettoken, hskip fuel hfuel, bind, Except.bind, hc, if_neg hne,
            if_pos ((strchr_iff _ _).mpr hsym)]
          rfl
        · refine ⟨rfl, hne, fun ts hts => tokens_blanks hbs (.symbol hsym hts), left_next hcs', ?_,
            by omega, fun x hx => ?_, fun _ => ?_, fun w hw => by cases hw⟩
          · simp only [List.length_append, List.length_cons]
            omega
          · rw [← hbelow x hx]
            exact Function.update_of_ne (by omega) ..
          · by_cases hbs' : bs = []
            · subst hbs'
              exact Function.update_self ..
            · rw [← hblank hbs']
              have := List.length_pos_iff.mpr hbs'
              exact Function.update_of_ne (by omega) ..
      · -- a word starts
        -- The loop of a word stops at a blank or symbol outside of quotes, or at the end.
        obtain ⟨w, rest, q', hline, hpart, hend, mem₂, hword, htext, hstr₂, hbelow₂⟩ :=
          wordLoop_spec (c :: cs) mem₁ (a + bs.length) false hstr₁
        have hspecial : ¬ Special c := not_or.mpr ⟨hrest c cs rfl, hsym⟩
        have hw : w ≠ [] := by
          rintro rfl
          rcases hend with rfl | ⟨-, d, ds, rfl, hd⟩
          · cases hline
          · obtain ⟨rfl, -⟩ := List.cons.inj hline
            exact hspecial hd
        have hwpos := List.length_pos_iff.mpr hw
        refine ⟨⟨WORD, mem₂, if mem₂ (a + bs.length + w.length) ≠ 0
            then some (a + bs.length + w.length) else none, a + bs.length⟩, fun fuel hfuel => ?_,
          Or.inr ⟨.word (wordText w), a + bs.length + w.length, rest, ?_⟩⟩
        · simp only [gettoken, hskip fuel hfuel, bind, Except.bind, hc, if_neg hne,
            if_neg fun hs => hsym ((strchr_iff _ _).mp hs), hword fuel (hlen fuel hfuel)]
          rfl
        · refine ⟨rfl, (by decide : WORD ≠ 0), fun ts hts => tokens_blanks hbs (.word hline hw hpart hend hts),
            left_next hstr₂, ?_, by omega, fun x hx => ?_, fun hcut => ?_, fun w' hw' => ?_⟩
          · rw [hline]
            simp only [List.length_append]
            omega
          · exact (hbelow₂ x (by omega)).trans (hbelow x hx)
          · by_cases hbs' : bs = []
            · subst hbs'
              exact absurd (hcut c cs rfl) hspecial
            · have := List.length_pos_iff.mpr hbs'
              exact (hbelow₂ a (by omega)).trans (hblank hbs')
          -- The text of the word is in place and ends where the next call will put its zero.
          · cases hw'
            have hlen' : (wordText w).length = w.length := by simp [wordText]
            refine ⟨cut_of_wordEnds hend, by rw [hlen'], by rw [hlen']; exact htext, ?_⟩
            refine zero_not_mem_wordText fun hmem => hstr₁.2.2 ?_
            rw [hline]
            exact List.mem_append_left _ hmem

/-! ### All calls -/

/-- The results of the calls are the tokens, and then zero. From the call after it on, the text of
a word is at its pointer. -/
inductive Scanned : List TokenResult → List Token → Prop
  | done {r : TokenResult} : r.token = 0 → Scanned [r] []
  | token {r : TokenResult} {rs : List TokenResult} {t : Token} {ts : List Token} :
      r.token = t.code → (∀ w, t = .word w → ∀ r' ∈ rs, CString r'.mem r.p2 w) → Scanned rs ts →
      Scanned (r :: rs) (t :: ts)

/-- The calls on what is left of a line: they change nothing in front of it, and its first
character only to a zero when a word may end there. -/
theorem gettokens_spec (n : Nat) : ∀ {line : List UInt8} {mem : Bytes} {p1 : Option Nat} {a : Nat}
    (p2 : Nat), line.length < n → Left mem p1 a line →
    ∃ ts rs, Tokens line ts ∧
      (∀ fuel, line.length + 1 < fuel → gettokens fuel mem p1 p2 = .ok rs) ∧ Scanned rs ts ∧
      (∀ r ∈ rs, ∀ x, x < a → r.mem x = mem x) ∧ (Cut line → ∀ r ∈ rs, r.mem a = 0) := by
  induction n with
  | zero => intro _ _ _ _ _ hlen; omega
  | succ n ih =>
      intro line mem p1 a p2 hlen h
      obtain ⟨r, hrun, hend | ⟨t, b, rest, htaken⟩⟩ := gettoken_spec p2 h
      · -- the last call
        refine ⟨[], [r], hend.tokens, fun fuel hfuel => ?_, .done hend.token, ?_, fun _ => ?_⟩
        · obtain ⟨fuel, rfl⟩ : ∃ m, fuel = m + 1 := ⟨fuel - 1, by omega⟩
          simp only [gettokens, hrun fuel (by omega), bind, Except.bind, if_pos hend.token]
          rfl
        · simpa using hend.below
        · simpa using hend.zero
      · obtain ⟨ts, rs, htokens, hruns, hscan, hbelow, hcut⟩ :=
          ih r.p2 (by have := htaken.shorter; omega) htaken.left
        refine ⟨t :: ts, r :: rs, htaken.tokens ts htokens, fun fuel hfuel => ?_,
          .token htaken.token (fun w hw r' hr' => ?_) hscan, fun r' hr' x hx => ?_,
          fun hcut' r' hr' => ?_⟩
        · obtain ⟨fuel, rfl⟩ : ∃ m, fuel = m + 1 := ⟨fuel - 1, by omega⟩
          have := htaken.shorter
          simp only [gettokens, hrun fuel (by omega), bind, Except.bind, if_neg htaken.token_ne,
            hruns fuel (by omega)]
          rfl
        · -- the text stands in front of what the later calls change
          obtain ⟨hcut', hp2, htext, hzero⟩ := htaken.word w hw
          refine ⟨?_, ?_, hzero⟩
          · rw [Bytes.slice_congr (m := r'.mem) fun i _ hi => hbelow r' hr' i (by omega)]
            exact htext
          · rw [hp2]
            exact hcut hcut' r' hr'
        · rcases List.mem_cons.mp hr' with rfl | hr'
          · exact htaken.below x hx
          · rw [hbelow r' hr' x (hx.trans htaken.lt), htaken.below x hx]
        · rcases List.mem_cons.mp hr' with rfl | hr'
          · exact htaken.cut hcut'
          · rw [hbelow r' hr' a htaken.lt, htaken.cut hcut']

/-- Whatever the line, `gettoken` reaches its zero, and the calls give the tokens of the line, of
which there is one list. -/
theorem gettoken_tokens (mem : Bytes) (a p2 : Nat) (line : List UInt8) (h : CString mem a line) :
    ∃ ts rs, (Tokens line ts ∧ ∀ ts', Tokens line ts' → ts' = ts) ∧
      (∀ fuel, line.length + 1 < fuel → gettokens fuel mem (some a) p2 = .ok rs) ∧
      Scanned rs ts := by
  obtain ⟨ts, rs, htokens, hrun, hscan, -, -⟩ :=
    gettokens_spec (line.length + 1) p2 (Nat.lt_succ_self _) (Or.inl ⟨rfl, h⟩)
  exact ⟨ts, rs, ⟨htokens, fun ts' h' => tokens_unique htokens h'⟩, hrun, hscan⟩

/-- The line `ls "a b"|sh` in memory. -/
def lsLine : Bytes := fun x => [108, 115, 32, 34, 97, 32, 98, 34, 124, 115, 104].getD x 0

/-- A line with a symbol, a quoted word and a plain one. -/
theorem gettoken_tokens_ls :
    ∃ ts rs, (Tokens (lsLine.slice 0 11) ts ∧ ∀ ts', Tokens (lsLine.slice 0 11) ts' → ts' = ts) ∧
      (∀ fuel, (lsLine.slice 0 11).length + 1 < fuel →
        gettokens fuel lsLine (some 0) 0 = .ok rs) ∧ Scanned rs ts :=
  gettoken_tokens lsLine 0 0 (lsLine.slice 0 11) ⟨by decide, by decide, by decide⟩

/-- The tokens are `ls`, ` a b `, the bar and `sh`. -/
example : Tokens (lsLine.slice 0 11)
    [.word [108, 115], .word [32, 97, 32, 98, 32], .symbol 124, .word [115, 104]] := by
  have hpart : ∀ {c : UInt8} {cs : List UInt8} {q q' : Bool}, c ≠ QUOTE →
      (q = true ∨ ¬ (c ∈ WHITESPACE ∨ c ∈ SYMBOLS)) → WordPart q cs q' → WordPart q (c :: cs) q' :=
    fun h hq hcs => .char h hq hcs
  refine .word (w := [108, 115]) (q := false) rfl (by decide)
    (hpart (by decide) (by decide) (hpart (by decide) (by decide) (.nil _)))
    (Or.inr ⟨rfl, 32, _, rfl, Or.inl (by decide)⟩) (.blank (by decide) ?_)
  refine .word (w := [34, 97, 32, 98, 34]) (q := false) rfl (by decide)
    (.quote (hpart (by decide) (by decide) (hpart (by decide) (by decide)
      (hpart (by decide) (by decide) (.quote (.nil _))))))
    (Or.inr ⟨rfl, 124, _, rfl, Or.inr (by decide)⟩) (.symbol (by decide) ?_)
  exact .word (w := [115, 104]) (q := false) rfl (by decide)
    (hpart (by decide) (by decide) (hpart (by decide) (by decide) (.nil _)))
    (Or.inl rfl) .done

end Ucore.Proofs.User
