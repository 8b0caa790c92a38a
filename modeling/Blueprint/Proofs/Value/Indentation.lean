import Blueprint.Proofs.Value.Unambiguous
import Mathlib.Data.List.Infix

/-!
# `Blueprint/Proofs/Value/Indentation.lean` — how expressions are indented

Where an expression stands is passed down as a number, one more for each block and the same for a
list, and every block puts its own tabs. Seen from outside this is simple. To write an expression
one level deeper is to put one tab after each of its line breaks, and the lines of an expression
hang from the first: the last of them starts with the tabs of the level, and no other with fewer.

Both are said of texts that are put together from parts (`Deepened`, `Indented`), so the proof for
values follows the way in which an expression is written. The last line needs the closing bracket:
without a character that is no tab, the tabs of one part could run into those of the next. Literals
may stand for line breaks and tabs, and have none in them.
-/

set_option autoImplicit false

namespace Blueprint

/-! ## Line breaks -/

/-- The number of tabs at the head of a text. -/
def leadingTabs (text : List Char) : Nat := (text.takeWhile (· = '\t')).length

/-- The text with one tab more after every line break. -/
def deeper (text : List Char) : List Char :=
  text.flatMap fun c => if c = '\n' then ['\n', '\t'] else [c]

/-- The lines after the first: all start with at least so many tabs, and the last with exactly so
many. -/
structure Hanging (level : Nat) (text : List Char) : Prop where
  later : ∀ rest, '\n' :: rest <:+ text → level ≤ leadingTabs rest
  last : ∀ line, '\n' :: line <:+ text → '\n' ∉ line → leadingTabs line = level

/-- A new line with so many tabs before the text. -/
def newLine (level : Nat) (text : List Char) : List Char :=
  '\n' :: (List.replicate level '\t' ++ text)

theorem leadingTabs_replicate_append (level : Nat) (text : List Char) :
    leadingTabs (List.replicate level '\t' ++ text) = level + leadingTabs text := by
  unfold leadingTabs
  rw [List.takeWhile_append_of_pos (by simp), List.length_append, List.length_replicate]

theorem tabs_prefix {fewer more : Nat} (h : fewer ≤ more) (text : List Char) :
    List.replicate fewer '\t' <+: List.replicate more '\t' ++ text := by
  obtain ⟨rest, rfl⟩ := Nat.exists_eq_add_of_le h
  rw [List.replicate_add, List.append_assoc]
  exact List.prefix_append _ _

theorem deeper_append (a b : List Char) : deeper (a ++ b) = deeper a ++ deeper b :=
  List.flatMap_append

theorem deeper_of_not_mem {text : List Char} (h : '\n' ∉ text) : deeper text = text := by
  induction text with
  | nil => rfl
  | cons c rest ih =>
    obtain ⟨hc, hrest⟩ := List.ne_and_not_mem_of_not_mem_cons h
    rw [← List.singleton_append, deeper_append, ih hrest]
    simp [deeper, Ne.symm hc]

theorem deeper_newLine (level : Nat) (text : List Char) :
    deeper (newLine level text) = newLine (level + 1) (deeper text) := by
  have htabs : '\n' ∉ List.replicate level '\t' := by simp
  show deeper (['\n'] ++ (List.replicate level '\t' ++ text)) = _
  rw [deeper_append, deeper_append, deeper_of_not_mem htabs]
  rfl

/-- Where a suffix starts in a text of two parts. -/
theorem cons_suffix_append {α : Type} {x : α} {rest a b : List α} (h : x :: rest <:+ a ++ b) :
    x :: rest <:+ b ∨ ∃ front, x :: front <:+ a ∧ rest = front ++ b := by
  induction a with
  | nil => exact .inl h
  | cons y a ih =>
    rcases List.suffix_cons_iff.mp h with heq | h
    · obtain ⟨rfl, rfl⟩ := List.cons.inj heq
      exact .inr ⟨a, List.suffix_rfl, rfl⟩
    · rcases ih h with h | ⟨front, hfront, hrest⟩
      · exact .inl h
      · exact .inr ⟨front, hfront.trans (List.suffix_cons y a), hrest⟩

theorem not_cons_suffix {text rest : List Char} (h : '\n' ∉ text) : ¬ '\n' :: rest <:+ text :=
  fun hsuffix => h (hsuffix.subset List.mem_cons_self)

theorem eq_of_cons_suffix_newLine {level : Nat} {text rest : List Char}
    (h : '\n' :: rest <:+ newLine level text) :
    rest = List.replicate level '\t' ++ text ∨ '\n' :: rest <:+ text := by
  rcases List.suffix_cons_iff.mp h with heq | h
  · exact .inl (List.cons.inj heq).2
  · rcases cons_suffix_append h with h | ⟨front, hfront, -⟩
    · exact .inr h
    · exact absurd hfront (not_cons_suffix (by simp))

/-! ## Texts put together from parts -/

/-- A text whose later lines start with at least so many tabs, and the text one level deeper. -/
structure Deepened (level : Nat) (text next : List Char) : Prop where
  next_eq : next = deeper text
  later : ∀ rest, '\n' :: rest <:+ text → List.replicate level '\t' <+: rest

/-- Moreover the last line starts with exactly so many. -/
structure Indented (level : Nat) (text next : List Char) : Prop
    extends Deepened level text next where
  last : ∀ line, '\n' :: line <:+ text → '\n' ∉ line →
    ∃ c rest, c ≠ '\t' ∧ line = List.replicate level '\t' ++ c :: rest

section

variable {level : Nat} {a b a' b' : List Char}

theorem Deepened.of_not_mem (h : '\n' ∉ a) : Deepened level a a where
  next_eq := (deeper_of_not_mem h).symm
  later _ hsuffix := absurd hsuffix (not_cons_suffix h)

theorem Indented.of_not_mem (h : '\n' ∉ a) : Indented level a a where
  toDeepened := .of_not_mem h
  last _ hsuffix := absurd hsuffix (not_cons_suffix h)

theorem Deepened.append (ha : Deepened level a a') (hb : Deepened level b b') :
    Deepened level (a ++ b) (a' ++ b') where
  next_eq := by rw [ha.next_eq, hb.next_eq, deeper_append]
  later rest hsuffix := by
    rcases cons_suffix_append hsuffix with hsuffix | ⟨front, hfront, rfl⟩
    · exact hb.later rest hsuffix
    · exact (ha.later front hfront).trans (List.prefix_append front b)

theorem Indented.append (ha : Indented level a a') (hb : Indented level b b') :
    Indented level (a ++ b) (a' ++ b') where
  toDeepened := ha.toDeepened.append hb.toDeepened
  last line hsuffix hline := by
    rcases cons_suffix_append hsuffix with hsuffix | ⟨front, hfront, rfl⟩
    · exact hb.last line hsuffix hline
    · obtain ⟨c, rest, hc, rfl⟩ := ha.last front hfront fun h => hline (List.mem_append_left b h)
      exact ⟨c, rest ++ b, hc, by simp⟩

theorem Deepened.mono (h : Deepened (level + 1) a a') : Deepened level a a' where
  next_eq := h.next_eq
  later rest hsuffix := by
    obtain ⟨more, rfl⟩ := h.later rest hsuffix
    exact tabs_prefix (Nat.le_succ level) more

theorem Deepened.newLine (h : Deepened level a a') {here : Nat} (hlevel : level ≤ here) :
    Deepened level (newLine here a) (newLine (here + 1) a') where
  next_eq := by rw [h.next_eq, deeper_newLine]
  later rest hsuffix := by
    rcases eq_of_cons_suffix_newLine hsuffix with rfl | hsuffix
    · exact tabs_prefix hlevel a
    · exact h.later rest hsuffix

/-- What is put together from parts is indented as the parts are. -/
theorem flatMap_of_append {α : Type} {P : List Char → List Char → Prop} (hnil : P [] [])
    (happend : ∀ {a b a' b'}, P a a' → P b b' → P (a ++ b) (a' ++ b')) {part part' : α → List Char}
    {items : List α} (h : ∀ item ∈ items, P (part item) (part' item)) :
    P (items.flatMap part) (items.flatMap part') := by
  induction items with
  | nil => exact hnil
  | cons item rest ih =>
    obtain ⟨hitem, hrest⟩ := List.forall_mem_cons.mp h
    exact happend hitem (ih hrest)

theorem Indented.hanging (h : Indented level a a') : Hanging level a where
  later rest hsuffix := by
    obtain ⟨more, rfl⟩ := h.later rest hsuffix
    rw [leadingTabs_replicate_append]
    exact Nat.le_add_right level _
  last line hsuffix hline := by
    obtain ⟨c, rest, hc, rfl⟩ := h.last line hsuffix hline
    rw [leadingTabs_replicate_append]
    simp [leadingTabs, hc]

/-! ## Blocks -/

/-- A closing bracket on a line of its own makes a text indented, whatever stands before it. -/
theorem Deepened.close (h : Deepened level a a') {bracket : Char} (htab : bracket ≠ '\t')
    (hbreak : bracket ≠ '\n') :
    Indented level (a ++ Blueprint.newLine level [bracket])
      (a' ++ Blueprint.newLine (level + 1) [bracket]) where
  toDeepened := h.append ((Deepened.of_not_mem (by simpa using hbreak.symm)).newLine le_rfl)
  last line hsuffix hline := by
    rcases cons_suffix_append hsuffix with hsuffix | ⟨front, -, rfl⟩
    · rcases eq_of_cons_suffix_newLine hsuffix with rfl | hsuffix
      · exact ⟨bracket, [], htab, rfl⟩
      · exact absurd hsuffix (not_cons_suffix (by simpa using hbreak.symm))
    · simp [Blueprint.newLine] at hline

/-- The lines of a block as text, each with its line break, and commas between them. -/
def blockLines (depth : Nat) : List String → List Char
  | [] => []
  | first :: later =>
    newLine depth first.toList ++ later.flatMap fun line => ',' :: newLine depth line.toList

theorem toList_block (opening closing : String) (depth : Nat) (lines : List String) :
    (block opening closing depth lines).toList =
      opening.toList ++ (blockLines depth lines ++ newLine (depth - 1) closing.toList) := by
  cases lines with
  | nil =>
    rw [toList_block_nil, toList_tabs]
    rfl
  | cons first later =>
    have hcons := toList_block_cons opening closing depth id first later
    rw [List.map_id] at hcons
    have hseparator : (",\n" : String).toList = [',', '\n'] := rfl
    rw [hcons, List.map_cons, toList_intercalate_cons]
    simp only [blockLines, newLine, id_eq, String.toList_append, toList_tabs, hseparator,
      List.flatMap_map, List.append_assoc, List.cons_append, List.nil_append]

/-- The lines of a block are indented if what they hold is indented one level more. -/
theorem Deepened.blockLines {α : Type} {line line' : α → String} {items : List α}
    (h : ∀ item ∈ items, Deepened (level + 1) (line item).toList (line' item).toList) :
    Deepened level (blockLines (level + 1) (items.map line))
      (blockLines (level + 2) (items.map line')) := by
  have hline : ∀ item ∈ items, Deepened level
      (Blueprint.newLine (level + 1) (line item).toList)
      (Blueprint.newLine (level + 2) (line' item).toList) :=
    fun item hitem => (h item hitem).mono.newLine (Nat.le_succ level)
  cases items with
  | nil => exact .of_not_mem (by simp [Blueprint.blockLines])
  | cons first later =>
    obtain ⟨hfirst, hlater⟩ := List.forall_mem_cons.mp hline
    simp only [List.map_cons, Blueprint.blockLines, List.flatMap_map]
    refine hfirst.append (flatMap_of_append (.of_not_mem (by simp)) .append ?_)
    intro item hitem
    have hcomma : Deepened level [','] [','] := .of_not_mem (by decide)
    exact hcomma.append (hlater item hitem)

/-- Lines in brackets are indented if what they hold is indented one level more. -/
theorem Indented.block {α : Type} {opening closing : String} {bracket : Char}
    (hopening : '\n' ∉ opening.toList) (hclosing : closing.toList = [bracket])
    (htab : bracket ≠ '\t') (hbreak : bracket ≠ '\n') {line line' : α → String} {items : List α}
    (h : ∀ item ∈ items, Deepened (level + 1) (line item).toList (line' item).toList) :
    Indented level (block opening closing (level + 1) (items.map line)).toList
      (block opening closing (level + 2) (items.map line')).toList := by
  rw [toList_block, toList_block, hclosing]
  exact (Indented.of_not_mem hopening).append ((Deepened.blockLines h).close htab hbreak)

/-- Items between brackets on one line are indented as each of them is. -/
theorem Indented.items {α : Type} {opening separator closing : String}
    (hopening : '\n' ∉ opening.toList) (hseparator : '\n' ∉ separator.toList)
    (hclosing : '\n' ∉ closing.toList) {item item' : α → String} {items : List α}
    (h : ∀ x ∈ items, Indented level (item x).toList (item' x).toList) :
    Indented level (opening ++ separator.intercalate (items.map item) ++ closing).toList
      (opening ++ separator.intercalate (items.map item') ++ closing).toList := by
  simp only [String.toList_append]
  refine ((Indented.of_not_mem hopening).append ?_).append (.of_not_mem hclosing)
  cases items with
  | nil => exact .of_not_mem (by simp)
  | cons first later =>
    obtain ⟨hfirst, hlater⟩ := List.forall_mem_cons.mp h
    simp only [List.map_cons, toList_intercalate_cons, List.flatMap_map]
    refine hfirst.append (flatMap_of_append (.of_not_mem (by simp)) .append ?_)
    intro x hx
    exact (Indented.of_not_mem hseparator).append (hlater x hx)

end

/-! ## Numbers -/

theorem isNumberChar_of_isDigit {c : Char} (h : c.isDigit = true) : isNumberChar c = true := by
  simp [isNumberChar, h]

theorem isNumberChar_of_mem_zeros {count : Nat} {c : Char} (h : c ∈ List.replicate count '0') :
    isNumberChar c = true := by
  rw [List.eq_of_mem_replicate h]
  rfl

theorem Binary64.isDigit_of_mem_shortest {units : Nat} {c : Char}
    (h : c ∈ (shortest units).digits) : c.isDigit = true := by
  simp only [shortest] at h
  split at h
  · obtain rfl := List.mem_singleton.mp h
    rfl
  · rename_i k exponent _
    have hdigits : c ∈ Nat.toDigits 10 k :=
      List.mem_reverse.mp ((List.dropWhile_sublist _).subset (List.mem_reverse.mp h))
    exact isDigit_of_mem_toDigits hdigits

namespace Scientific

variable {d : Scientific} (hdigits : ∀ c ∈ d.digits, c.isDigit = true) {c : Char}

include hdigits

theorem isNumberChar_of_mem_positional (h : c ∈ d.positional) : isNumberChar c = true := by
  unfold positional at h
  split at h
  · simp only [List.cons_append, List.mem_cons, List.mem_append] at h
    rcases h with rfl | rfl | h | h
    · rfl
    · rfl
    · exact isNumberChar_of_mem_zeros h
    · exact isNumberChar_of_isDigit (hdigits c h)
  · simp only [List.mem_append, List.mem_cons] at h
    rcases h with (h | h) | rfl | h
    · exact isNumberChar_of_isDigit (hdigits c (List.mem_of_mem_take h))
    · exact isNumberChar_of_mem_zeros h
    · rfl
    · split at h
      · obtain rfl := List.mem_singleton.mp h
        rfl
      · exact isNumberChar_of_isDigit (hdigits c (List.mem_of_mem_drop h))

theorem isNumberChar_of_mem_exponential (h : c ∈ d.exponential) : isNumberChar c = true := by
  have hexponent : ∀ c ∈ 'e' :: (if d.exponent < 0 then '-' else '+') ::
      Nat.toDigits 10 d.exponent.natAbs, isNumberChar c = true := by
    simp only [List.forall_mem_cons]
    refine ⟨rfl, ?_, fun c hc => isNumberChar_of_isDigit (isDigit_of_mem_toDigits hc)⟩
    split <;> rfl
  unfold exponential at h
  rcases List.mem_append.mp h with h | h
  · split at h
    · cases h
    · rename_i hlead
      exact isNumberChar_of_isDigit (hdigits c (hlead ▸ h))
    · rename_i lead rest _ hlead
      rw [hlead] at hdigits
      rcases List.mem_cons.mp h with rfl | h
      · exact isNumberChar_of_isDigit (hdigits c List.mem_cons_self)
      · rcases List.mem_cons.mp h with rfl | h
        · rfl
        · exact isNumberChar_of_isDigit (hdigits c (List.mem_cons_of_mem _ h))
  · exact hexponent c h

theorem isNumberChar_of_mem_laidOut {layout : RealLayout} (h : c ∈ d.laidOut layout) :
    isNumberChar c = true := by
  unfold laidOut at h
  split at h
  · exact isNumberChar_of_mem_positional hdigits h
  · exact isNumberChar_of_mem_exponential hdigits h

end Scientific

/-- The text of a number is made of the characters of numbers. -/
theorem Number.isNumberChar_of_mem_text {n : Number} {c : Char} (h : c ∈ n.text.toList) :
    isNumberChar c = true := by
  cases n with
  | integer value =>
    exact List.all_eq_true.mp (textLaws_integer.all_chars _ ⟨value, rfl⟩) c h
  | real value =>
    have hmagnitude : ∀ c, c ∈ (if value.units = 0 then ['0', '.', '0']
        else (Binary64.shortest value.units).laidOut realLayout) → isNumberChar c = true := by
      intro c hc
      split at hc
      · simp only [List.mem_cons, List.not_mem_nil, or_false] at hc
        rcases hc with rfl | rfl | rfl <;> rfl
      · exact Scientific.isNumberChar_of_mem_laidOut
          (fun _ => Binary64.isDigit_of_mem_shortest) hc
    simp only [text, Binary64.text, String.toList_ofList] at h
    split at h
    · rcases List.mem_cons.mp h with rfl | h
      · rfl
      · exact hmagnitude c h
    · exact hmagnitude c h

/-! ## Values -/

namespace Value

/-- The names in a value stand on one line. Texts are not names: they are quoted. -/
inductive OneLineNames : Value → Prop
  | null : OneLineNames .null
  | bool (value : Bool) : OneLineNames (.bool value)
  | number (value : Number) : OneLineNames (.number value)
  | string (text : String) : OneLineNames (.string text)
  | reference {key : String} (h : '\n' ∉ key.toList) : OneLineNames (.reference key)
  | sequence {items : List Value} (h : ∀ item ∈ items, OneLineNames item) :
      OneLineNames (.sequence items)
  | mapping {entries : List (String × Value)} (h : ∀ entry ∈ entries, OneLineNames entry.2) :
      OneLineNames (.mapping entries)
  | call {target method : String} {params : List (String × Value)}
      (htarget : '\n' ∉ target.toList) (hmethod : '\n' ∉ method.toList)
      (hnames : ∀ param ∈ params, '\n' ∉ param.1.toList)
      (hvalues : ∀ param ∈ params, OneLineNames param.2) :
      OneLineNames (.call target method params)

theorem not_mem_quote (text : String) : '\n' ∉ (Text.quote text).toList :=
  fun h => absurd (Text.no_control_quote h) (by decide)

theorem not_mem_number (value : Number) : '\n' ∉ value.text.toList :=
  fun h => absurd (Number.isNumberChar_of_mem_text h) (by decide)

/-- A text is written as a literal or as a word. -/
theorem not_mem_string (text : String) (depth : Nat) :
    '\n' ∉ ((string text).expression depth).toList := by
  rw [expression]
  split
  · rename_i word hwhole
    intro h
    have hword := (Marker.eq_written_of_whole? hwhole).2
    rw [Marker.isWord, Bool.and_eq_true, List.all_eq_true] at hword
    exact absurd (hword.2 _ h) (by decide)
  · exact not_mem_quote text

/-- A line: a name in front of what is indented. -/
theorem deepened_line {level : Nat} {name text next : String} (hname : '\n' ∉ name.toList)
    (h : Indented level text.toList next.toList) :
    Deepened level (name ++ text).toList (name ++ next).toList := by
  rw [String.toList_append, String.toList_append]
  exact (Deepened.of_not_mem hname).append h.toDeepened

section

variable {level : Nat} {params : List (String × Value)}
  (hvalues : ∀ param ∈ params, Indented (level + 1) (param.2.expression (level + 2)).toList
    (param.2.expression (level + 3)).toList)

include hvalues

theorem indented_arguments (hnames : ∀ param ∈ params, '\n' ∉ param.1.toList) :
    Indented level (arguments params (level + 1)).toList
      (arguments params (level + 2)).toList := by
  rw [arguments, arguments, argumentLines_eq, argumentLines_eq]
  refine Indented.block (by decide) rfl (by decide) (by decide) ?_
  intro param hparam
  have hname : '\n' ∉ (param.1 ++ "=").toList := by
    simpa using hnames param hparam
  exact deepened_line hname (hvalues param hparam)

theorem indented_mapping :
    Indented level ((mapping params).expression (level + 1)).toList
      ((mapping params).expression (level + 2)).toList := by
  rw [expression, expression, entryLines_eq, entryLines_eq]
  refine Indented.block (by decide) rfl (by decide) (by decide) ?_
  intro param hparam
  have hname : '\n' ∉ (Text.quote param.1 ++ ": ").toList := by
    simpa using not_mem_quote param.1
  exact deepened_line hname (hvalues param hparam)

end

/-- A block inside is one level deeper, so this is said of all levels at once. -/
theorem OneLineNames.indented {value : Value} (h : value.OneLineNames) :
    ∀ level, Indented level (value.expression (level + 1)).toList
      (value.expression (level + 2)).toList := by
  induction h with
  | null =>
    intro level
    rw [expression, expression]
    exact .of_not_mem (by decide)
  | bool value =>
    intro level
    cases value <;>
    · rw [expression, expression]
      exact .of_not_mem (by decide)
  | number value =>
    intro level
    rw [expression, expression]
    exact .of_not_mem (not_mem_number value)
  | string text =>
    intro level
    have hsame : (Value.string text).expression (level + 2) =
        (Value.string text).expression (level + 1) := by
      rw [expression, expression]
    rw [hsame]
    exact .of_not_mem (not_mem_string text _)
  | reference hkey =>
    intro level
    rw [expression, expression]
    exact .of_not_mem hkey
  | sequence _ ih =>
    intro level
    rw [expression, expression, expressionItems_eq, expressionItems_eq]
    exact Indented.items (by decide) (by decide) (by decide) fun item hitem => ih item hitem level
  | mapping _ ih =>
    intro level
    exact indented_mapping fun entry hentry => ih entry hentry (level + 1)
  | call htarget hmethod hnames _ ih =>
    intro level
    have hdot : Indented level ['.'] ['.'] := .of_not_mem (by decide)
    have harguments := indented_arguments (fun param hparam => ih param hparam (level + 1)) hnames
    rw [expression_call, expression_call]
    exact (Indented.of_not_mem htarget).append
      (hdot.append ((Indented.of_not_mem hmethod).append harguments))

/-! ## The law -/

/-- A way of writing that is told its depth and indents by it: one deeper is one tab more after
every line break, and the later lines hang at the level around the entries. -/
def Indents (write : Nat → String) : Prop :=
  ∀ depth, 1 ≤ depth →
    (write (depth + 1)).toList = deeper (write depth).toList ∧
      Hanging (depth - 1) (write depth).toList

theorem indents_of_indented {write : Nat → String}
    (h : ∀ level, Indented level (write (level + 1)).toList (write (level + 2)).toList) :
    Indents write := by
  intro depth hdepth
  obtain ⟨level, rfl⟩ := Nat.exists_eq_add_of_le' hdepth
  exact ⟨(h level).next_eq, (h level).hanging⟩

/-- Expressions and argument lists indent by their depth as long as the names in them stand on one
line, whatever the texts that are quoted. -/
theorem indents_expression_and_arguments {value : Value} {params : List (String × Value)}
    (hvalue : value.OneLineNames) (hnames : ∀ param ∈ params, '\n' ∉ param.1.toList)
    (hvalues : ∀ param ∈ params, param.2.OneLineNames) :
    Indents value.expression ∧ Indents (arguments params) := by
  refine ⟨indents_of_indented hvalue.indented, indents_of_indented fun level => ?_⟩
  exact indented_arguments (fun param hparam => (hvalues param hparam).indented (level + 1)) hnames

/-- A call whose argument is a mapping without entries, on a line with a text of two lines. -/
def bracketed : Value :=
  .call "loader" "read"
    [("rows", .sequence [.mapping [], .string "a\n\tb", .mapping [("k\n", .reference "node")]])]

theorem oneLineNames_bracketed : bracketed.OneLineNames := by
  refine .call (by decide) (by decide) (by simp) ?_
  refine List.forall_mem_singleton.mpr (.sequence ?_)
  refine List.forall_mem_cons.mpr ⟨.mapping (by simp), List.forall_mem_cons.mpr ⟨.string _, ?_⟩⟩
  refine List.forall_mem_singleton.mpr (.mapping ?_)
  exact List.forall_mem_singleton.mpr (.reference (by decide))

theorem indents_bracketed :
    bracketed.OneLineNames ∧ Indents bracketed.expression ∧
      Indents (arguments [("first", bracketed), ("second", .bool true)]) :=
  ⟨oneLineNames_bracketed,
    indents_expression_and_arguments oneLineNames_bracketed
      (by simp)
      (List.forall_mem_cons.mpr
        ⟨oneLineNames_bracketed, List.forall_mem_singleton.mpr (.bool true)⟩)⟩

end Value

end Blueprint
