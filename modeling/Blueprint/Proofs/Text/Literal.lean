import Blueprint.Text.Literal
import Mathlib.Algebra.Ring.Parity

/-!
# `Blueprint/Proofs/Text/Literal.lean` — literals are read back

A literal is worth what a reader makes of it. The reader here knows as little as a reader of
literals can: five escapes of one letter, the escape with four hexadecimal digits, and the quote
that ends the literal. It refuses control characters, and it stops at the first quote that is not
escaped. So what it reads, any reader of a larger grammar reads as well.

`literal?_quote` says that nothing of a text is lost and nothing after the literal is touched. The
second half of it is about the literal as a list of characters, without a reader: no control
character is in it, and before each quote inside it stands an odd number of backslashes, so that no
text can end its literal early.
-/

set_option autoImplicit false

namespace Blueprint.Text

/-! ## A reader of literals -/

/-- The character for which an escape of one letter stands. -/
def shortEscape? : Char → Option Char
  | '\\' => some '\\'
  | '"' => some '"'
  | 'n' => some '\n'
  | 'r' => some '\r'
  | 't' => some '\t'
  | _ => none

/-- The text up to the closing quote, and what follows the quote. -/
def body? : List Char → Option (List Char × List Char)
  | [] => none
  | '"' :: rest => some ([], rest)
  | '\\' :: 'u' :: a :: b :: c :: d :: rest => do
    let code ← hexQuad? a b c d
    if code.isValidChar then
      let (text, rest) ← body? rest
      return (Char.ofNat code :: text, rest)
    else none
  | '\\' :: letter :: rest => do
    let c ← shortEscape? letter
    let (text, rest) ← body? rest
    return (c :: text, rest)
  | c :: rest =>
    if c == '\\' || isControl c then none
    else do
      let (text, rest) ← body? rest
      return (c :: text, rest)

/-- The text that a literal at the head of a text denotes, and what follows the literal. -/
def literal? (text : String) : Option (String × String) :=
  match text.toList with
  | '"' :: rest => (body? rest).map fun (text, rest) => (String.ofList text, String.ofList rest)
  | _ => none

/-! ## Hexadecimal digits -/

theorem hexDigit?_digitChar : ∀ n < 16, hexDigit? n.digitChar = some n := by decide

/-- The last digit, after those of the sixteenth part. -/
theorem hex_succ {width : Nat} (h : 0 < width) (n : Nat) :
    hex (width + 1) n = hex width (n / 16) ++ [(n % 16).digitChar] := by
  unfold hex
  by_cases hsmall : n < 16
  · have hzeros : List.replicate width '0' = List.replicate (width - 1) '0' ++ ['0'] := by
      rw [← List.replicate_succ', Nat.sub_add_cancel h]
    rw [Nat.toDigits_of_lt_base hsmall, Nat.div_eq_of_lt hsmall, Nat.mod_eq_of_lt hsmall,
      Nat.toDigits_zero]
    simp [hzeros]
  · rw [Nat.toDigits_of_base_le (by decide) (Nat.le_of_not_lt hsmall)]
    simp

/-- A number that has at most four digits has exactly four when it is padded. -/
theorem hex_four {n : Nat} (h : n < 0x10000) :
    hex 4 n = [(n / 16 / 16 / 16).digitChar, (n / 16 / 16 % 16).digitChar,
      (n / 16 % 16).digitChar, (n % 16).digitChar] := by
  have hfirst : n / 16 / 16 / 16 < 16 := by omega
  rw [hex_succ (by decide), hex_succ (by decide), hex_succ (by decide), hex,
    Nat.toDigits_of_lt_base hfirst]
  rfl

theorem hexQuad?_hex {n : Nat} (h : n < 0x10000) :
    ∃ a b c d, hex 4 n = [a, b, c, d] ∧ hexQuad? a b c d = some n := by
  refine ⟨_, _, _, _, hex_four h, ?_⟩
  unfold hexQuad?
  rw [hexDigit?_digitChar _ (by omega), hexDigit?_digitChar _ (by omega),
    hexDigit?_digitChar _ (by omega), hexDigit?_digitChar _ (by omega)]
  show some _ = some n
  congr 1
  omega

/-! ## Characters of a literal -/

/-- How a character is written: with an escape of one letter, with four digits, or as it is. -/
inductive Escaped (c : Char) : List Char → Prop
  | short {letter : Char} (stands : shortEscape? letter = some c) : Escaped c ['\\', letter]
  | code (control : isControl c = true) : Escaped c ('\\' :: 'u' :: hex 4 c.toNat)
  | plain (backslash : c ≠ '\\') (quote : c ≠ '"') (control : isControl c = false) : Escaped c [c]

theorem escaped_escape (c : Char) : Escaped c (escape c) := by
  unfold escape
  split
  · exact .short rfl
  · exact .short rfl
  · exact .short rfl
  · exact .short rfl
  · exact .short rfl
  · rename_i hbackslash hquote _ _ _
    cases hcontrol : isControl c with
    | true => exact .code hcontrol
    | false => exact .plain hbackslash hquote hcontrol

theorem toNat_lt_of_isControl {c : Char} (h : isControl c = true) : c.toNat < 0x10000 := by
  simp only [isControl, Bool.or_eq_true, Bool.and_eq_true, decide_eq_true_eq] at h
  omega

/-- One character is read off a literal. -/
theorem body?_of_escaped {c : Char} {written : List Char} (h : Escaped c written)
    (rest : List Char) :
    body? (written ++ rest) = (body? rest).map fun (text, rest) => (c :: text, rest) := by
  cases h with
  | @short letter stands =>
    have hletter : letter ≠ 'u' := by
      rintro rfl
      cases stands
    show body? ('\\' :: letter :: rest) = _
    rw [body?]
    · rw [stands]
      cases body? rest <;> rfl
    · rintro _ _ _ _ _ rfl
      exact absurd rfl hletter
  | code control =>
    have hsmall := toNat_lt_of_isControl control
    obtain ⟨x₁, x₂, x₃, x₄, hdigits, hread⟩ := hexQuad?_hex hsmall
    rw [hdigits]
    show body? ('\\' :: 'u' :: x₁ :: x₂ :: x₃ :: x₄ :: rest) = _
    rw [body?, hread]
    have hvalid : c.toNat.isValidChar := c.valid
    simp only [Option.bind_eq_bind, Option.bind_some, if_pos hvalid, Char.ofNat_toNat]
    cases body? rest <;> rfl
  | plain backslash quote control =>
    show body? (c :: rest) = _
    have hplain : (c == '\\' || isControl c) = false := by simp [backslash, control]
    rw [body?]
    · rw [hplain]
      cases body? rest <;> rfl
    · exact quote
    · intros
      exact backslash ‹_›
    · intros
      exact backslash ‹_›

theorem body?_flatMap_escape (text rest : List Char) :
    body? (text.flatMap escape ++ '"' :: rest) = some (text, rest) := by
  induction text with
  | nil => rw [List.flatMap_nil, List.nil_append, body?]
  | cons c text ih =>
    rw [List.flatMap_cons, List.append_assoc, body?_of_escaped (escaped_escape c), ih]
    rfl

/-! ## What stands in a literal -/

theorem digitChar_plain : ∀ n < 16, n.digitChar ≠ '\\' ∧ n.digitChar ≠ '"' ∧
    isControl n.digitChar = false := by decide

theorem plain_of_mem_hex {n : Nat} (h : n < 0x10000) {d : Char} (hd : d ∈ hex 4 n) :
    d ≠ '\\' ∧ d ≠ '"' ∧ isControl d = false := by
  rw [hex_four h] at hd
  simp only [List.mem_cons, List.not_mem_nil, or_false] at hd
  rcases hd with rfl | rfl | rfl | rfl
  all_goals exact digitChar_plain _ (by omega)

theorem Escaped.no_control {c d : Char} {written : List Char} (h : Escaped c written)
    (hd : d ∈ written) : isControl d = false := by
  cases h with
  | @short letter stands =>
    rcases List.mem_cons.mp hd with rfl | hd
    · rfl
    · obtain rfl := List.mem_singleton.mp hd
      unfold shortEscape? at stands
      split at stands
      case h_6 => cases stands
      all_goals rfl
  | code control =>
    rcases List.mem_cons.mp hd with rfl | hd
    · rfl
    · rcases List.mem_cons.mp hd with rfl | hd
      · rfl
      · exact (plain_of_mem_hex (toNat_lt_of_isControl control) hd).2.2
  | plain _ _ control =>
    obtain rfl := List.mem_singleton.mp hd
    exact control

theorem no_control_quote {s : String} {c : Char} (h : c ∈ (quote s).toList) :
    isControl c = false := by
  unfold quote at h
  rw [String.toList_ofList] at h
  rcases List.mem_append.mp h with h | h
  · rcases List.mem_cons.mp h with rfl | h
    · rfl
    · obtain ⟨d, -, hd⟩ := List.mem_flatMap.mp h
      exact (escaped_escape d).no_control hd
  · obtain rfl := List.mem_singleton.mp h
    rfl

/-- The number of backslashes at the end of a text. After an odd number of them a quote is escaped,
and after an even number it is not. -/
def backslashes (before : List Char) : Nat := (before.reverse.takeWhile (· = '\\')).length

theorem backslashes_append (first later : List Char) :
    backslashes (first ++ later) =
      if backslashes later = later.length then later.length + backslashes first
      else backslashes later := by
  unfold backslashes
  rw [List.reverse_append, List.takeWhile_append, List.length_reverse]
  split
  · rw [List.length_append, List.length_reverse]
  · rfl

/-- What is written for one character leaves the count even. -/
theorem Escaped.even_backslashes {c : Char} {written : List Char} (h : Escaped c written) :
    Even (backslashes written) := by
  cases h with
  | @short letter stands =>
    by_cases hletter : letter = '\\'
    · rw [hletter]
      decide
    · have hnone : backslashes ['\\', letter] = 0 := by simp [backslashes, hletter]
      rw [hnone]
      exact Even.zero
  | code control =>
    have hsmall := toNat_lt_of_isControl control
    have hlast : (c.toNat % 16).digitChar ≠ '\\' := (digitChar_plain _ (by omega)).1
    have hnone : backslashes ('\\' :: 'u' :: hex 4 c.toNat) = 0 := by
      simp [backslashes, hex_four hsmall, hlast]
    rw [hnone]
    exact Even.zero
  | plain backslash _ _ =>
    have hnone : backslashes [c] = 0 := by simp [backslashes, backslash]
    rw [hnone]
    exact Even.zero

/-- A quote in what is written for one character is the second character of its escape. -/
theorem Escaped.odd_of_quote {c : Char} {before after : List Char}
    (h : Escaped c (before ++ '"' :: after)) : Odd (backslashes before) := by
  generalize hwritten : before ++ '"' :: after = written at h
  have hquote : '"' ∈ written := hwritten ▸ by simp
  cases h with
  | @short letter stands =>
    cases before with
    | nil => cases hwritten
    | cons first before =>
      obtain ⟨rfl, hrest⟩ := List.cons.inj hwritten
      cases before with
      | nil => decide
      | cons second before => cases before <;> cases hrest
  | code control =>
    simp only [List.mem_cons, Char.reduceEq, false_or] at hquote
    exact absurd rfl (plain_of_mem_hex (toNat_lt_of_isControl control) hquote).2.1
  | plain _ quote _ =>
    obtain rfl := List.mem_singleton.mp hquote
    exact absurd rfl quote

/-- Every quote inside a literal is escaped. -/
theorem odd_backslashes {text before after : List Char}
    (h : text.flatMap escape = before ++ '"' :: after) : Odd (backslashes before) := by
  induction text generalizing before with
  | nil => simp at h
  | cons c text ih =>
    rw [List.flatMap_cons] at h
    rcases List.append_eq_append_iff.mp h with ⟨middle, rfl, hrest⟩ | ⟨middle, hwritten, hrest⟩
    · have hodd := ih hrest
      have heven := (escaped_escape c).even_backslashes
      rw [backslashes_append]
      split
      · rename_i hall
        rw [← hall]
        exact hodd.add_even heven
      · exact hodd
    · cases middle with
      | nil =>
        have hodd : Odd (backslashes []) := ih hrest.symm
        exact absurd hodd (by decide)
      | cons first middle =>
        obtain ⟨rfl, -⟩ := List.cons.inj hrest
        have hescaped := escaped_escape c
        rw [hwritten] at hescaped
        exact hescaped.odd_of_quote

/-- A literal is read back, whatever the text is and whatever follows the literal. There is no
control character in it, and each quote between the first character and the last has an odd number
of backslashes before it, so that it does not end the literal. -/
theorem literal?_quote (s rest : String) :
    literal? (quote s ++ rest) = some (s, rest) ∧
    (∀ c ∈ (quote s).toList, 0x20 ≤ c.toNat ∧ (c.toNat < 0x7f ∨ 0x9f < c.toNat)) ∧
    ∃ body, (quote s).toList = '"' :: body ++ ['"'] ∧
      ∀ before after, body = before ++ '"' :: after → Odd (backslashes before) := by
  have hquote : (quote s).toList = '"' :: s.toList.flatMap escape ++ ['"'] := by
    rw [quote, String.toList_ofList]
  refine ⟨?_, ?_, s.toList.flatMap escape, hquote, fun _ _ hsplit => odd_backslashes hsplit⟩
  · have hread := body?_flatMap_escape s.toList rest.toList
    have htext : (quote s ++ rest).toList =
        '"' :: (s.toList.flatMap escape ++ '"' :: rest.toList) := by
      rw [String.toList_append, hquote]
      simp
    simp only [literal?, htext, hread, Option.map_some, String.ofList_toList]
  · intro c hc
    have hplain := no_control_quote hc
    simp only [isControl, Bool.or_eq_false_iff, Bool.and_eq_false_iff, decide_eq_false_iff_not]
      at hplain
    omega

example : literal? "\"a\\\"\\u007f0\" b" = some ("a\"\x7f0", " b") := by decide

end Blueprint.Text
