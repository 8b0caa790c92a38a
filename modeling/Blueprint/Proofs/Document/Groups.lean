import Blueprint.Proofs.Document.Marker

/-!
# `Blueprint/Proofs/Document/Groups.lean` — the first brace group of a text

Braces in a text may be nested, left open or closed too often, and the search for a marker goes
through them from left to right: at an opening brace it looks for a closing one, and if a brace
opens earlier it goes on one character later. What it finds can be said without the search. A group
is a factor of the text, `GroupAt`: an opening brace, characters that are no braces, and a closing
brace. The marker comes from the group that starts first, `FirstGroup`.

A group that starts at the head of a text is what `inner?` sees, and every other one is a group of
the tail. These two facts carry the induction; no argument about where the search starts again is
needed, since a step of the search is a step along the text.
-/

set_option autoImplicit false

namespace Blueprint.Marker

/-! ## Groups as factors -/

/-- A text without braces. -/
def BraceFree (text : List Char) : Prop := ∀ c ∈ text, c ≠ '{' ∧ c ≠ '}'

/-- After `before` the text goes on with a group around `inner`. -/
def GroupAt (text before inner : List Char) : Prop :=
  BraceFree inner ∧ ∃ after, text = before ++ '{' :: (inner ++ '}' :: after)

/-- The group around `inner` starts before all other groups of the text. -/
def FirstGroup (text inner : List Char) : Prop :=
  ∃ before, GroupAt text before inner ∧
    ∀ before' inner', GroupAt text before' inner' → before.length ≤ before'.length

/-- ASCII letters and digits and underscores, at least one of them. -/
def Word (text : String) : Prop :=
  text ≠ "" ∧ ∀ c ∈ text.toList, c.isAlphanum = true ∨ c = '_'

theorem isWordChar_iff {c : Char} :
    isWordChar c = true ↔ c.isAlphanum = true ∨ c = '_' := by
  have hletters : c.isAlphanum =
      ((decide ('A' ≤ c ∧ c ≤ 'Z') || ('a' ≤ c && c ≤ 'z')) || ('0' ≤ c && c ≤ '9')) := rfl
  rw [isWordChar, hletters, Bool.decide_and, Bool.or_comm ('A' ≤ c && c ≤ 'Z'), Bool.or_eq_true,
    beq_iff_eq]

theorem isWord_iff {text : String} : isWord text.toList = true ↔ Word text := by
  simp only [isWord, Word, Bool.and_eq_true, Bool.not_eq_true', List.isEmpty_eq_false_iff,
    List.all_eq_true, isWordChar_iff, ne_eq, String.toList_eq_nil_iff]

theorem braceFree_nil : BraceFree [] := by
  intro c hc
  cases hc

theorem braceFree_cons_iff {c : Char} {rest : List Char} :
    BraceFree (c :: rest) ↔ (c ≠ '{' ∧ c ≠ '}') ∧ BraceFree rest :=
  List.forall_mem_cons

/-! ## The search -/

/-- What stands before the next closing brace is free of braces, or there is nothing. -/
theorem inner?_eq_some_iff {text inner : List Char} :
    inner? text = some inner ↔ BraceFree inner ∧ ∃ after, text = inner ++ '}' :: after := by
  induction text generalizing inner with
  | nil => simp [inner?]
  | cons c rest ih =>
    unfold inner?
    by_cases hclosing : c = '}'
    · subst hclosing
      simp only [beq_self_eq_true, if_true, Option.some.injEq]
      constructor
      · rintro rfl
        exact ⟨braceFree_nil, rest, rfl⟩
      · rintro ⟨hfree, after, hsplit⟩
        cases inner with
        | nil => rfl
        | cons d inner =>
          obtain ⟨rfl, -⟩ := List.cons.inj hsplit
          exact absurd rfl (braceFree_cons_iff.mp hfree).1.2
    · by_cases hopening : c = '{'
      · subst hopening
        simp only [beq_self_eq_true, if_true, Char.reduceBEq, if_false, Bool.false_eq_true]
        constructor
        · intro h
          cases h
        · rintro ⟨hfree, after, hsplit⟩
          cases inner with
          | nil => exact absurd (List.cons.inj hsplit).1 hclosing
          | cons d inner =>
            obtain ⟨rfl, -⟩ := List.cons.inj hsplit
            exact absurd rfl (braceFree_cons_iff.mp hfree).1.1
      · simp only [beq_iff_eq, hclosing, hopening, if_false, Option.map_eq_some_iff]
        constructor
        · rintro ⟨inner, hinner, rfl⟩
          obtain ⟨hfree, after, rfl⟩ := ih.mp hinner
          exact ⟨braceFree_cons_iff.mpr ⟨⟨hopening, hclosing⟩, hfree⟩, after, rfl⟩
        · rintro ⟨hfree, after, hsplit⟩
          cases inner with
          | nil => exact absurd (List.cons.inj hsplit).1 hclosing
          | cons d inner =>
            obtain ⟨rfl, rfl⟩ := List.cons.inj hsplit
            exact ⟨inner, ih.mpr ⟨(braceFree_cons_iff.mp hfree).2, after, rfl⟩, rfl⟩

/-- A group at the head of a text is an opening brace and what `inner?` finds after it. -/
theorem groupAt_head_iff {c : Char} {rest inner : List Char} :
    GroupAt (c :: rest) [] inner ↔ c = '{' ∧ inner? rest = some inner := by
  rw [inner?_eq_some_iff]
  unfold GroupAt
  simp only [List.nil_append, List.cons.injEq]
  constructor
  · rintro ⟨hfree, after, hc, hrest⟩
    exact ⟨hc, hfree, after, hrest⟩
  · rintro ⟨hc, hfree, after, hrest⟩
    exact ⟨hfree, after, hc, hrest⟩

theorem not_groupAt_head {c : Char} {rest : List Char} (h : c = '{' → inner? rest = none)
    (inner : List Char) : ¬ GroupAt (c :: rest) [] inner := by
  intro hgroup
  obtain ⟨hopening, hinner⟩ := groupAt_head_iff.mp hgroup
  rw [h hopening] at hinner
  cases hinner

/-- Every other group is one of the tail. -/
theorem groupAt_tail_iff {c d : Char} {rest before inner : List Char} :
    GroupAt (c :: rest) (d :: before) inner ↔ c = d ∧ GroupAt rest before inner := by
  unfold GroupAt
  simp only [List.cons_append, List.cons.injEq]
  constructor
  · rintro ⟨hfree, after, hc, hrest⟩
    exact ⟨hc, hfree, after, hrest⟩
  · rintro ⟨hc, hfree, after, hrest⟩
    exact ⟨hfree, after, hc, hrest⟩

theorem not_groupAt_nil {before inner : List Char} : ¬ GroupAt [] before inner := by
  rintro ⟨-, after, hsplit⟩
  simp at hsplit

/-- A group at the head is the first one, and it is the only one there. -/
theorem firstGroup_iff_of_head {c : Char} {rest inner inner' : List Char}
    (h : GroupAt (c :: rest) [] inner) : FirstGroup (c :: rest) inner' ↔ inner' = inner := by
  constructor
  · rintro ⟨before, hgroup, hfirst⟩
    obtain rfl : before = [] := List.length_eq_zero_iff.mp (Nat.le_zero.mp (hfirst [] inner h))
    have hhere := (groupAt_head_iff.mp hgroup).2
    rw [(groupAt_head_iff.mp h).2] at hhere
    exact (Option.some.inj hhere).symm
  · rintro rfl
    exact ⟨[], h, fun _ _ _ => Nat.zero_le _⟩

/-- Without a group at the head the first group is that of the tail. -/
theorem firstGroup_iff_of_tail {c : Char} {rest inner : List Char}
    (hhead : ∀ inner', ¬ GroupAt (c :: rest) [] inner') :
    FirstGroup (c :: rest) inner ↔ FirstGroup rest inner := by
  constructor
  · rintro ⟨before, hgroup, hfirst⟩
    cases before with
    | nil => exact absurd hgroup (hhead inner)
    | cons d before =>
      obtain ⟨rfl, htail⟩ := groupAt_tail_iff.mp hgroup
      refine ⟨before, htail, fun before' inner' hother => ?_⟩
      have hlater := hfirst (c :: before') inner' (groupAt_tail_iff.mpr ⟨rfl, hother⟩)
      simpa using hlater
  · rintro ⟨before, hgroup, hfirst⟩
    refine ⟨c :: before, groupAt_tail_iff.mpr ⟨rfl, hgroup⟩, fun before' inner' hother => ?_⟩
    cases before' with
    | nil => exact absurd hother (hhead inner')
    | cons d before' =>
      obtain ⟨rfl, htail⟩ := groupAt_tail_iff.mp hother
      simpa using hfirst before' inner' htail

/-- A text has no group if it has none at the head and its tail has none. -/
theorem forall_not_groupAt_cons_iff {c : Char} {rest : List Char} :
    (∀ before inner, ¬ GroupAt (c :: rest) before inner) ↔
      (∀ inner, ¬ GroupAt (c :: rest) [] inner) ∧
        ∀ before inner, ¬ GroupAt rest before inner := by
  constructor
  · intro h
    exact ⟨h [], fun before inner hgroup =>
      h (c :: before) inner (groupAt_tail_iff.mpr ⟨rfl, hgroup⟩)⟩
  · rintro ⟨hhead, htail⟩ before inner hgroup
    cases before with
    | nil => exact hhead inner hgroup
    | cons d before => exact htail before inner (groupAt_tail_iff.mp hgroup).2

theorem group?_eq_some_iff {text inner : List Char} :
    group? text = some inner ↔ FirstGroup text inner := by
  fun_induction group? text with
  | case1 =>
    constructor
    · intro h
      cases h
    · rintro ⟨before, hgroup, -⟩
      exact absurd hgroup not_groupAt_nil
  | case2 c rest hopening found hfound =>
    have hhead : GroupAt (c :: rest) [] found :=
      groupAt_head_iff.mpr ⟨by simpa using hopening, hfound⟩
    rw [firstGroup_iff_of_head hhead, Option.some.injEq]
    exact eq_comm
  | case3 c rest hopening hnone ih =>
    rw [ih, firstGroup_iff_of_tail (not_groupAt_head fun _ => hnone)]
  | case4 c rest hother ih =>
    have hother : c ≠ '{' := by simpa using hother
    rw [ih, firstGroup_iff_of_tail (not_groupAt_head fun hopening => absurd hopening hother)]

theorem group?_eq_none_iff {text : List Char} :
    group? text = none ↔ ∀ before inner, ¬ GroupAt text before inner := by
  fun_induction group? text with
  | case1 => exact ⟨fun _ _ _ => not_groupAt_nil, fun _ => rfl⟩
  | case2 c rest hopening found hfound =>
    have hhead : GroupAt (c :: rest) [] found :=
      groupAt_head_iff.mpr ⟨by simpa using hopening, hfound⟩
    constructor
    · intro h
      cases h
    · intro h
      exact absurd hhead (h [] found)
  | case3 c rest hopening hnone ih =>
    rw [ih, forall_not_groupAt_cons_iff]
    exact (and_iff_right (not_groupAt_head fun _ => hnone)).symm
  | case4 c rest hother ih =>
    have hother : c ≠ '{' := by simpa using hother
    rw [ih, forall_not_groupAt_cons_iff]
    exact (and_iff_right (not_groupAt_head fun hopening => absurd hopening hother)).symm

/-! ## Markers -/

/-- The marker with a text between its braces. -/
def ofInner (inner : String) : Marker :=
  if isWord inner.toList then .key inner else .malformed inner

theorem ofInner_eq_key_iff {inner word : String} :
    ofInner inner = .key word ↔ inner = word ∧ Word word := by
  rw [← isWord_iff, ofInner]
  split
  · rename_i hword
    rw [key.injEq]
    exact ⟨fun h => ⟨h, h ▸ hword⟩, And.left⟩
  · rename_i hword
    constructor
    · intro h
      cases h
    · rintro ⟨rfl, h⟩
      exact absurd h hword

theorem ofInner_eq_malformed_iff {inner other : String} :
    ofInner inner = .malformed other ↔ inner = other ∧ ¬ Word other := by
  rw [← isWord_iff, ofInner]
  split
  · rename_i hword
    constructor
    · intro h
      cases h
    · rintro ⟨rfl, h⟩
      exact absurd hword h
  · rename_i hword
    rw [malformed.injEq]
    exact ⟨fun h => ⟨h, h ▸ hword⟩, And.left⟩

theorem find?_eq (text : String) :
    find? text = (group? text.toList).map fun inner => ofInner (String.ofList inner) := by
  simp only [find?, ofInner, String.toList_ofList]
  cases group? text.toList with
  | none => rfl
  | some inner => exact (apply_ite some _ _ _).symm

theorem find?_eq_none_iff {text : String} :
    find? text = none ↔ ∀ before inner, ¬ GroupAt text.toList before inner := by
  rw [find?_eq, Option.map_eq_none_iff, group?_eq_none_iff]

/-- The marker of a text is that of its first group. -/
theorem find?_eq_some_iff {text : String} {marker : Marker} :
    find? text = some marker ↔
      ∃ inner : String, FirstGroup text.toList inner.toList ∧ ofInner inner = marker := by
  rw [find?_eq, Option.map_eq_some_iff]
  simp only [group?_eq_some_iff]
  constructor
  · rintro ⟨inner, hfirst, hmarker⟩
    exact ⟨String.ofList inner, by rwa [String.toList_ofList], hmarker⟩
  · rintro ⟨inner, hfirst, hmarker⟩
    exact ⟨inner.toList, hfirst, by rwa [String.ofList_toList]⟩

/-- A text that is a group around a word and nothing else is a marker as a whole. -/
theorem whole?_eq_some_iff {text word : String} :
    whole? text = some word ↔ text = written word ∧ Word word := by
  rw [← isWord_iff]
  refine ⟨eq_written_of_whole?, ?_⟩
  rintro ⟨rfl, hword⟩
  have hclosing : beforeClosing? (word.toList ++ ['}']) = some word.toList := by
    simp [beforeClosing?]
  simp [whole?, toList_written, hclosing, hword]

/-- A text has no marker exactly if it has no group. Otherwise its marker is a key or malformed, as
what is in its first group is a word or not. A marker as a whole is a word in braces with nothing
around them, and then it is the marker of the text as well. -/
theorem find?_eq_marker_of_first_group (text : String) :
    (find? text = none ↔ ∀ before inner, ¬ GroupAt text.toList before inner) ∧
    (∀ word, find? text = some (.key word) ↔
      FirstGroup text.toList word.toList ∧ Word word) ∧
    (∀ inner, find? text = some (.malformed inner) ↔
      FirstGroup text.toList inner.toList ∧ ¬ Word inner) ∧
    ∀ word, (whole? text = some word ↔ text = "\x7b" ++ word ++ "\x7d" ∧ Word word) ∧
      (whole? text = some word → find? text = some (.key word)) := by
  refine ⟨find?_eq_none_iff, ?_, ?_, fun word => ⟨whole?_eq_some_iff, find?_of_whole?⟩⟩
  · intro word
    rw [find?_eq_some_iff]
    simp only [ofInner_eq_key_iff]
    constructor
    · rintro ⟨inner, hfirst, rfl, hword⟩
      exact ⟨hfirst, hword⟩
    · rintro ⟨hfirst, hword⟩
      exact ⟨word, hfirst, rfl, hword⟩
  · intro inner
    rw [find?_eq_some_iff]
    simp only [ofInner_eq_malformed_iff]
    constructor
    · rintro ⟨found, hfirst, rfl, hword⟩
      exact ⟨hfirst, hword⟩
    · rintro ⟨hfirst, hword⟩
      exact ⟨inner, hfirst, rfl, hword⟩

example : find? "\x7b\x7ba\x7d \x7bb\x7d" = some (.key "a") := by decide

end Blueprint.Marker
