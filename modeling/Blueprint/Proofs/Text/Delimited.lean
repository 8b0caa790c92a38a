import Blueprint.Proofs.Text.Literal
import Blueprint.Value.Expression

/-!
# `Blueprint/Proofs/Text/Delimited.lean` — where a written thing ends

Text is read from the left, and what is read has to end somewhere. A word ends at the first
character that stands in no word, a literal at its closing quote, indentation at the first character
that is no tab. For a list, and for lines in brackets, the question is passed on to the items: the
list ends where it should if each item does (`ToldApart`), since a separator starts with a comma and
the closing bracket does not.

All of this is said without a reader, of two texts that are equal: if both start with something
of one sort, and neither goes on in a way in which things of that sort do, then both start with the
same thing and go on in the same way.
-/

set_option autoImplicit false

namespace Blueprint

/-! ## Where a text ends -/

/-- A text that does not go on with a character of a class. -/
def Stops (p : Char → Bool) (rest : List Char) : Prop := ∀ c ∈ rest.head?, p c = false

/-- A text that goes on as it may after an expression: with a comma, the closing bracket of a list
or the end of a line, or not at all. -/
def Delimited (rest : List Char) : Prop := ∀ c ∈ rest.head?, c = ',' ∨ c = ']' ∨ c = '\n'

theorem stops_cons {p : Char → Bool} {c : Char} (h : p c = false) (rest : List Char) :
    Stops p (c :: rest) := by
  intro d hd
  cases hd
  exact h

theorem delimited_cons {c : Char} (h : c = ',' ∨ c = ']' ∨ c = '\n') (rest : List Char) :
    Delimited (c :: rest) := by
  intro d hd
  cases hd
  exact h

theorem delimited_nil : Delimited [] := by
  intro d hd
  cases hd

theorem Delimited.stops {rest : List Char} (h : Delimited rest) {p : Char → Bool}
    (hcomma : p ',' = false) (hbracket : p ']' = false) (hline : p '\n' = false) :
    Stops p rest := by
  intro c hc
  rcases h c hc with rfl | rfl | rfl
  · exact hcomma
  · exact hbracket
  · exact hline

theorem takeWhile_append_of_stops {p : Char → Bool} {a r : List Char} (ha : a.all p = true)
    (hr : Stops p r) : (a ++ r).takeWhile p = a := by
  have hnone : r.takeWhile p = [] := by
    cases r with
    | nil => rfl
    | cons c r => rw [List.takeWhile_cons_of_neg (by simp [hr c rfl])]
  rw [List.takeWhile_append_of_pos (List.all_eq_true.mp ha), hnone, List.append_nil]

/-- Text of one class of characters ends where the class does. -/
theorem eq_of_append_of_stops {p : Char → Bool} {a b r s : List Char} (ha : a.all p = true)
    (hb : b.all p = true) (hr : Stops p r) (hs : Stops p s) (h : a ++ r = b ++ s) :
    a = b ∧ r = s := by
  have hab : a = b := by
    rw [← takeWhile_append_of_stops ha hr, h, takeWhile_append_of_stops hb hs]
  subst hab
  exact ⟨rfl, List.append_cancel_left h⟩

/-- A literal ends at its closing quote. -/
theorem eq_of_quote_append {a b : String} {r s : List Char}
    (h : (Text.quote a).toList ++ r = (Text.quote b).toList ++ s) : a = b ∧ r = s := by
  have hread : some (a.toList, r) = some (b.toList, s) := by
    rw [← Text.body?_flatMap_escape, ← Text.body?_flatMap_escape]
    simp only [Text.quote, String.toList_ofList, List.cons_append, List.append_assoc,
      List.nil_append, List.cons.injEq, true_and] at h
    rw [h]
  obtain ⟨htext, hrest⟩ := Prod.mk.inj (Option.some.inj hread)
  exact ⟨String.toList_inj.mp htext, hrest⟩

theorem toList_tabs (depth : Nat) : (tabs depth).toList = List.replicate depth '\t' := by
  rw [tabs, String.toList_ofList]

/-- Indentation ends at the first character that is no tab. -/
theorem eq_of_tabs_append {a b : Nat} {c d : Char} {r s : List Char} (hc : c ≠ '\t')
    (hd : d ≠ '\t') (h : (tabs a).toList ++ c :: r = (tabs b).toList ++ d :: s) : c = d := by
  rw [toList_tabs, toList_tabs] at h
  have hrest := (eq_of_append_of_stops (p := (· == '\t')) (by simp) (by simp)
    (stops_cons (by simpa using hc) r) (stops_cons (by simpa using hd) s) h).2
  exact (List.cons.inj hrest).1

/-! ## Lists -/

section Lists

variable {α : Type}

/-- What is written for two things tells them apart, and tells where it ends, whatever comes after
it. -/
def ToldApart (write : α → String) (x y : α) : Prop :=
  ∀ ⦃r s : List Char⦄, Delimited r → Delimited s →
    (write x).toList ++ r = (write y).toList ++ s → x = y ∧ r = s

theorem ToldApart.symm {write : α → String} {x y : α} (h : ToldApart write x y) :
    ToldApart write y x := by
  intro r s hr hs heq
  obtain ⟨hxy, hrs⟩ := h hs hr heq.symm
  exact ⟨hxy.symm, hrs.symm⟩

theorem toList_intercalate_cons (separator line : String) (later : List String) :
    (separator.intercalate (line :: later)).toList =
      line.toList ++ later.flatMap fun line => separator.toList ++ line.toList := by
  induction later generalizing line with
  | nil => simp
  | cons next later ih =>
    rw [String.intercalate_cons_cons, String.toList_append, String.toList_append, ih]
    simp

theorem delimited_later {write : α → String} {separator : String} {gap : List Char}
    (hseparator : separator.toList = ',' :: gap) {c : Char} (hc : c = ']' ∨ c = '\n')
    (later : List α) (rest : List Char) :
    Delimited ((later.flatMap fun x => separator.toList ++ (write x).toList) ++ c :: rest) := by
  cases later with
  | nil => exact delimited_cons (.inr hc) _
  | cons x later =>
    simp only [List.flatMap_cons, hseparator, List.cons_append]
    exact delimited_cons (.inl rfl) _

variable {write : α → String} {separator : String} {gap : List Char} {c : Char}

/-- The items of a list after the first. A separator starts with a comma, and what closes the list
does not. -/
theorem eq_of_later_append (hseparator : separator.toList = ',' :: gap) (hc : c = ']' ∨ c = '\n')
    {xs ys : List α} (hapart : ∀ x ∈ xs, ∀ y ∈ ys, ToldApart write x y) {r s : List Char}
    (h : (xs.flatMap fun x => separator.toList ++ (write x).toList) ++ c :: r =
      (ys.flatMap fun y => separator.toList ++ (write y).toList) ++ c :: s) :
    xs = ys ∧ r = s := by
  have hcomma : c ≠ ',' := by
    rcases hc with rfl | rfl
    · decide
    · decide
  induction xs generalizing ys with
  | nil =>
    cases ys with
    | nil => exact ⟨rfl, (List.cons.inj h).2⟩
    | cons y ys =>
      simp only [List.flatMap_nil, List.flatMap_cons, hseparator, List.nil_append,
        List.cons_append] at h
      exact absurd (List.cons.inj h).1 hcomma
  | cons x xs ih =>
    cases ys with
    | nil =>
      simp only [List.flatMap_nil, List.flatMap_cons, hseparator, List.nil_append,
        List.cons_append] at h
      exact absurd (List.cons.inj h).1.symm hcomma
    | cons y ys =>
      simp only [List.flatMap_cons, List.append_assoc] at h
      obtain ⟨rfl, hlater⟩ := hapart x List.mem_cons_self y List.mem_cons_self
        (delimited_later hseparator hc xs r) (delimited_later hseparator hc ys s)
        (List.append_cancel_left h)
      obtain ⟨rfl, hrest⟩ := ih (fun x hx y hy =>
        hapart x (List.mem_cons_of_mem _ hx) y (List.mem_cons_of_mem _ hy)) hlater
      exact ⟨rfl, hrest⟩

/-- A list that is not empty, with what closes it. -/
theorem eq_of_intercalate_append (hseparator : separator.toList = ',' :: gap)
    (hc : c = ']' ∨ c = '\n') {x y : α} {xs ys : List α}
    (hapart : ∀ x' ∈ x :: xs, ∀ y' ∈ y :: ys, ToldApart write x' y') {r s : List Char}
    (h : (separator.intercalate ((x :: xs).map write)).toList ++ c :: r =
      (separator.intercalate ((y :: ys).map write)).toList ++ c :: s) :
    x :: xs = y :: ys ∧ r = s := by
  simp only [List.map_cons, toList_intercalate_cons, List.flatMap_map, List.append_assoc] at h
  obtain ⟨rfl, hlater⟩ := hapart x List.mem_cons_self y List.mem_cons_self
    (delimited_later hseparator hc xs r) (delimited_later hseparator hc ys s) h
  obtain ⟨rfl, hrest⟩ := eq_of_later_append hseparator hc (fun x hx y hy =>
    hapart x (List.mem_cons_of_mem _ hx) y (List.mem_cons_of_mem _ hy)) hlater
  exact ⟨rfl, hrest⟩

theorem ToldApart.indented {line : α → String} {x y : α} (h : ToldApart line x y) (depth : Nat) :
    ToldApart (fun x => tabs depth ++ line x) x y := by
  intro r s hr hs heq
  simp only [String.toList_append, List.append_assoc] at heq
  exact h hr hs (List.append_cancel_left heq)

/-- A line starts neither with a tab nor with the bracket that closes its block. -/
def StartsLine (bracket : Char) (line : String) : Prop :=
  ∃ c rest, line.toList = c :: rest ∧ c ≠ '\t' ∧ c ≠ bracket

theorem toList_block_nil (opening closing : String) (depth : Nat) :
    (block opening closing depth []).toList =
      opening.toList ++ '\n' :: ((tabs (depth - 1)).toList ++ closing.toList) := by
  simp [block]

theorem toList_block_cons (opening closing : String) (depth : Nat) (line : α → String) (x : α)
    (xs : List α) :
    (block opening closing depth ((x :: xs).map line)).toList =
      opening.toList ++ '\n' ::
        ((String.intercalate ",\n" ((x :: xs).map fun x => tabs depth ++ line x)).toList ++
          '\n' :: ((tabs (depth - 1)).toList ++ closing.toList)) := by
  simp [block, Function.comp_def]

theorem exists_toList_block (opening closing : String) (depth : Nat) (lines : List String) :
    ∃ rest, (block opening closing depth lines).toList = opening.toList ++ '\n' :: rest := by
  cases lines with
  | nil => exact ⟨_, toList_block_nil ..⟩
  | cons line lines =>
    have hcons := toList_block_cons opening closing depth id line lines
    rw [List.map_id] at hcons
    exact ⟨_, hcons⟩

/-- A block without lines differs from all others where the first line starts. -/
theorem toList_block_nil_append_ne {opening closing : String} {bracket : Char}
    (hclosing : closing.toList = [bracket]) (hbracket : bracket ≠ '\t') {line : α → String}
    {x : α} (hx : StartsLine bracket (line x)) (xs : List α) (depth : Nat) (r s : List Char) :
    (block opening closing depth []).toList ++ r ≠
      (block opening closing depth ((x :: xs).map line)).toList ++ s := by
  intro h
  obtain ⟨c, rest, hstart, htab, hne⟩ := hx
  rw [toList_block_nil, toList_block_cons, List.map_cons, toList_intercalate_cons, hclosing,
    String.toList_append, hstart] at h
  simp only [List.append_assoc, List.cons_append, List.nil_append] at h
  exact hne (eq_of_tabs_append hbracket htab (List.cons.inj (List.append_cancel_left h)).2).symm

/-- Lines in brackets. -/
theorem eq_of_block_append {opening closing : String} (bracket : Char)
    (hclosing : closing.toList = [bracket]) (hbracket : bracket ≠ '\t') {line : α → String}
    {xs ys : List α} (hxs : ∀ x ∈ xs, StartsLine bracket (line x))
    (hys : ∀ y ∈ ys, StartsLine bracket (line y))
    (hapart : ∀ x ∈ xs, ∀ y ∈ ys, ToldApart line x y) {depth : Nat} {r s : List Char}
    (h : (block opening closing depth (xs.map line)).toList ++ r =
      (block opening closing depth (ys.map line)).toList ++ s) : xs = ys ∧ r = s := by
  cases xs with
  | nil =>
    cases ys with
    | nil => exact ⟨rfl, List.append_cancel_left h⟩
    | cons y ys =>
      exact (toList_block_nil_append_ne hclosing hbracket (hys y List.mem_cons_self) ys _ _ _
        h).elim
  | cons x xs =>
    cases ys with
    | nil =>
      exact (toList_block_nil_append_ne hclosing hbracket (hxs x List.mem_cons_self) xs _ _ _
        h.symm).elim
    | cons y ys =>
      rw [toList_block_cons, toList_block_cons] at h
      simp only [List.append_assoc, List.cons_append] at h
      have hlines := (List.cons.inj (List.append_cancel_left h)).2
      have hseparator : (",\n" : String).toList = ',' :: ['\n'] := rfl
      obtain ⟨heq, hrest⟩ := eq_of_intercalate_append hseparator (.inr rfl)
        (fun x hx y hy => (hapart x hx y hy).indented depth) hlines
      exact ⟨heq, List.append_cancel_left (List.append_cancel_left hrest)⟩

end Lists

end Blueprint
