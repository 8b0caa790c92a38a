import Blueprint.Document.Marker

/-!
# `Blueprint/Proofs/Document/Marker.lean` — which keys can be written as markers

A marker is written by setting a key between braces, whatever the key is, and it is read by looking
for the first group of braces around a word. The two fit together exactly on words: a word comes
back, and whatever comes back is a word, so that a key which is no word is never read again.
-/

set_option autoImplicit false

namespace Blueprint.Marker

theorem not_brace_of_isWordChar {c : Char} (h : isWordChar c = true) : c ≠ '{' ∧ c ≠ '}' := by
  constructor
  · rintro rfl
    exact absurd h (by decide)
  · rintro rfl
    exact absurd h (by decide)

theorem inner?_of_wordChars {cs : List Char} (h : cs.all isWordChar = true) :
    inner? (cs ++ ['}']) = some cs := by
  induction cs with
  | nil => rfl
  | cons c rest ih =>
    obtain ⟨hc, hrest⟩ : isWordChar c = true ∧ rest.all isWordChar = true := by simpa using h
    obtain ⟨hopening, hclosing⟩ := not_brace_of_isWordChar hc
    rw [List.cons_append, inner?, ih hrest]
    simp [hopening, hclosing]

theorem toList_written (key : String) : (written key).toList = '{' :: (key.toList ++ ['}']) := by
  unfold written
  rw [String.toList_append, String.toList_append]
  rfl

/-- A word is read as it was written. -/
theorem find?_written {key : String} (h : isWord key.toList = true) :
    find? (written key) = some (.key key) := by
  have hchars : key.toList.all isWordChar = true := by
    unfold isWord at h
    exact (Bool.and_eq_true_iff.mp h).2
  have hgroup : group? (written key).toList = some key.toList := by
    rw [toList_written, group?, inner?_of_wordChars hchars]
    rfl
  unfold find?
  rw [hgroup]
  simp [h]

/-- Only words are read. -/
theorem isWord_of_find? {text key : String} (h : find? text = some (.key key)) :
    isWord key.toList = true := by
  unfold find? at h
  split at h
  · exact absurd h (by simp)
  · rename_i inner hgroup
    split at h
    · rename_i hword
      cases h
      rw [String.toList_ofList]
      exact hword
    · exact absurd h (by simp)

theorem eq_append_of_beforeClosing? {cs inner : List Char} (h : beforeClosing? cs = some inner) :
    cs = inner ++ ['}'] := by
  unfold beforeClosing? at h
  split at h
  · rename_i hlast
    have hlast : cs.getLast? = some '}' := by simpa using hlast
    obtain ⟨start, rfl⟩ := List.getLast?_eq_some_iff.mp hlast
    cases h
    simp
  · cases h

/-- A text that is nothing but a marker is the marker of a word. -/
theorem eq_written_of_whole? {text word : String} (h : whole? text = some word) :
    text = written word ∧ isWord word.toList = true := by
  unfold whole? at h
  split at h
  · cases h
  · rename_i c rest htext
    split at h
    · rename_i hopening
      have hopening : c = '{' := by simpa using hopening
      split at h
      · rename_i inner hclosing
        split at h
        · rename_i hword
          cases h
          refine ⟨?_, by rw [String.toList_ofList]; exact hword⟩
          apply String.toList_inj.mp
          rw [toList_written, htext, hopening, eq_append_of_beforeClosing? hclosing,
            String.toList_ofList]
        · cases h
      · cases h
    · cases h

/-- A text that is nothing but a marker has one, so the two ways of looking for markers agree. -/
theorem find?_of_whole? {text word : String} (h : whole? text = some word) :
    find? text = some (.key word) := by
  obtain ⟨rfl, hword⟩ := eq_written_of_whole? h
  exact find?_written hword

theorem whole?_eq_none_of_find? {text : String} (h : find? text = none) : whole? text = none := by
  cases hwhole : whole? text with
  | none => rfl
  | some word =>
    rw [find?_of_whole? hwhole] at h
    cases h

end Blueprint.Marker
