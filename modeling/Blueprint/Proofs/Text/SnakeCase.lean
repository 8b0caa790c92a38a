import Blueprint.Text.SnakeCase
import Mathlib.Data.List.SplitBy

/-!
# `Blueprint/Proofs/Text/SnakeCase.lean` — snake case as words that are joined

`snakeFrom` writes a name character by character: it looks one character ahead, and it remembers
whether it has just written an underscore. What it means is said here of the name as a whole,
without either: the name is cut into words, a word that another one follows loses a dot at its end,
and the words are lowered and joined by underscores.

`snakeCase_eq_joinedWords` says that the two are the same text for every name. The induction is on
the characters of the name; `joined_words_cons_of_capital` and `joined_words_cons` say what one
more character in front does to the joined words, and these are the two ways in which `snakeFrom`
goes on.
-/

set_option autoImplicit false

namespace Blueprint.Text

/-! ## Words -/

/-- The words of a name: it is cut before every capital that is not its first character. -/
def words (name : List Char) : List (List Char) :=
  name.splitBy fun _ next => !next.isUpper

/-- A word without the one dot that may end it. -/
def undotted (word : List Char) : List Char :=
  if word.getLast? = some '.' then word.dropLast else word

/-- Takes the dot from every word that another one follows. -/
def undottedWords (words : List (List Char)) : List (List Char) :=
  words.dropLast.map undotted ++ words.getLast?.toList

/-- Words lowered character by character, with an underscore between them. -/
def joined (words : List (List Char)) : List Char :=
  ['_'].intercalate ((undottedWords words).map fun word => word.flatMap lower)

/-- The words of a name, lowered and joined. -/
def joinedWords (name : String) : String := String.ofList (joined (words name.toList))

theorem isCapital_eq_isUpper (c : Char) : isCapital c = c.isUpper := by
  show (decide ('A' ≤ c) && decide (c ≤ 'Z')) = decide ('A' ≤ c ∧ c ≤ 'Z')
  rw [Bool.decide_and]

/-! ## One more character in front of a name -/

/-- A capital begins a word, so the character before it is a word of its own. -/
theorem words_cons_of_capital {c next : Char} (rest : List Char) (h : isCapital next = true) :
    words (c :: next :: rest) = [c] :: words (next :: rest) := by
  have hcut : (!next.isUpper) = false := by simpa [isCapital_eq_isUpper] using h
  exact List.splitBy_append_cons (l := [c]) rest fun _ _ => hcut

/-- Any other character belongs to the word of the character before it. -/
theorem exists_words_cons {c next : Char} (rest : List Char) (h : isCapital next = false) :
    ∃ word later, words (next :: rest) = (next :: word) :: later ∧
      words (c :: next :: rest) = (c :: next :: word) :: later := by
  have hkept : (!next.isUpper) = true := by simpa [isCapital_eq_isUpper] using h
  obtain ⟨hflat, hnil, hwords, hcuts⟩ := List.splitBy_eq_iff.mp (Eq.refl (words (next :: rest)))
  cases hfirst : words (next :: rest) with
  | nil => exact absurd (List.splitBy_eq_nil.mp hfirst) (by simp)
  | cons first later =>
    rw [hfirst] at hflat hnil hwords hcuts
    cases first with
    | nil => exact absurd List.mem_cons_self hnil
    | cons head word =>
      obtain ⟨rfl, hrest⟩ := List.cons_eq_cons.mp hflat
      refine ⟨word, later, rfl, List.splitBy_eq_iff.mpr ⟨?_, ?_, ?_, ?_⟩⟩
      · exact congrArg (c :: ·) hflat
      · simpa using hnil
      · intro piece hpiece
        rcases List.mem_cons.mp hpiece with rfl | hlater
        · exact List.isChain_cons_cons.mpr ⟨hkept, hwords _ List.mem_cons_self⟩
        · exact hwords piece (List.mem_cons_of_mem _ hlater)
      · obtain ⟨hbefore, hafter⟩ := List.isChain_cons.mp hcuts
        refine List.isChain_cons.mpr ⟨fun piece hpiece => ?_, hafter⟩
        obtain ⟨-, hne, hcut⟩ := hbefore piece hpiece
        exact ⟨List.cons_ne_nil _ _, hne, hcut⟩

/-! ## Joining -/

theorem undotted_of_ne_dot {c : Char} (h : c ≠ '.') : undotted [c] = [c] := by
  simp [undotted, h]

theorem undotted_cons_cons (c next : Char) (word : List Char) :
    undotted (c :: next :: word) = c :: undotted (next :: word) := by
  unfold undotted
  rw [List.getLast?_cons_cons, List.dropLast_cons_cons]
  split <;> rfl

theorem undottedWords_ne_nil {words : List (List Char)} (h : words ≠ []) :
    undottedWords words ≠ [] := by
  simp [undottedWords, h]

theorem undottedWords_cons {word : List Char} {words : List (List Char)} (h : words ≠ []) :
    undottedWords (word :: words) = undotted word :: undottedWords words := by
  obtain ⟨next, later, rfl⟩ := List.exists_cons_of_ne_nil h
  simp [undottedWords]

theorem joined_singleton (word : List Char) : joined [word] = word.flatMap lower := by
  simp [joined, undottedWords]

theorem joined_cons {word : List Char} {words : List (List Char)} (h : words ≠ []) :
    joined (word :: words) = (undotted word).flatMap lower ++ '_' :: joined words := by
  unfold joined
  rw [undottedWords_cons h]
  obtain ⟨first, others, hfirst⟩ := List.exists_cons_of_ne_nil (undottedWords_ne_nil h)
  rw [hfirst, List.map_cons, List.map_cons, List.intercalate_cons_cons, List.append_assoc]
  rfl

/-- A character in front of the first word is lowered in front of the joined words. -/
theorem joined_cons_head (c next : Char) (word : List Char) (later : List (List Char)) :
    joined ((c :: next :: word) :: later) = lower c ++ joined ((next :: word) :: later) := by
  cases later with
  | nil => rw [joined_singleton, joined_singleton, List.flatMap_cons]
  | cons first others =>
    have hlater : first :: others ≠ [] := List.cons_ne_nil _ _
    rw [joined_cons hlater, joined_cons hlater, undotted_cons_cons, List.flatMap_cons,
      List.append_assoc]

/-- Before a capital, a character is a word, of which a dot leaves nothing. -/
theorem joined_words_cons_of_capital {c : Char} {rest : List Char}
    (h : startsCapital rest = true) :
    joined (words (c :: rest)) = (undotted [c]).flatMap lower ++ '_' :: joined (words rest) := by
  cases rest with
  | nil => exact absurd h (by simp [startsCapital])
  | cons next rest =>
    have hwords : words (next :: rest) ≠ [] := List.splitBy_ne_nil.mpr (List.cons_ne_nil _ _)
    rw [words_cons_of_capital rest h, joined_cons hwords]

/-- Before anything else, a character is lowered and that is all. -/
theorem joined_words_cons {c : Char} {rest : List Char} (h : startsCapital rest = false) :
    joined (words (c :: rest)) = lower c ++ joined (words rest) := by
  cases rest with
  | nil =>
    show joined [[c]] = lower c ++ []
    rw [joined_singleton, List.flatMap_singleton, List.append_nil]
  | cons next rest =>
    obtain ⟨word, later, hrest, hname⟩ := exists_words_cons (c := c) rest h
    rw [hrest, hname, joined_cons_head]

/-! ## The two are the same -/

/-- Unless an underscore has just been written, one goes before a capital. -/
theorem snakeFrom_false (name : List Char) :
    snakeFrom false name =
      if startsCapital name then '_' :: snakeFrom true name else snakeFrom true name := by
  cases name with
  | nil => rfl
  | cons c rest =>
    show snakeFrom false (c :: rest) =
      if isCapital c then '_' :: snakeFrom true (c :: rest) else snakeFrom true (c :: rest)
    unfold snakeFrom
    cases hdot : c == '.' && startsCapital rest with
    | true =>
      have hplain : isCapital c = false := by
        obtain ⟨rfl, -⟩ : c = '.' ∧ startsCapital rest = true := by simpa using hdot
        decide
      simp [hplain]
    | false => cases hcapital : isCapital c <;> simp

theorem snakeFrom_true (name : List Char) : snakeFrom true name = joined (words name) := by
  induction name with
  | nil => rfl
  | cons c rest ih =>
    unfold snakeFrom
    rw [snakeFrom_false, ih]
    cases hnext : startsCapital rest with
    | false => simp [joined_words_cons hnext]
    | true =>
      -- The underscore of the dot, or the one before the capital: the words have it either way.
      rw [joined_words_cons_of_capital hnext]
      by_cases hdot : c = '.'
      · simp [hdot, undotted]
      · simp [hdot, undotted_of_ne_dot]

/-- Snake case is the words of the name, lowered and joined. -/
theorem snakeCase_eq_joinedWords (name : String) : snakeCase name = joinedWords name :=
  congrArg String.ofList (snakeFrom_true name.toList)

example : words "..X_Y.Z.".toList = [['.', '.'], ['X', '_'], ['Y', '.'], ['Z', '.']] := by decide
example : joinedWords "..X_Y.Z." = "._x__y_z." := by decide

end Blueprint.Text
