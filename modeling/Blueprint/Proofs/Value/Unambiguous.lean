import Blueprint.Proofs.Document.Marker
import Blueprint.Proofs.Program.Bindings
import Blueprint.Proofs.Text.Delimited

/-!
# `Blueprint/Proofs/Value/Unambiguous.lean` — an expression denotes one value

Two values that are written alike are the same value. A name could be taken for a constant, and text
that is nothing but a marker is written without quotes, so the names have to be identifiers other
than the constants, and no text may be such a marker (`Value.WellNamed`).

What is proved of a value is that its expression also tells where it ends, when what follows is a
comma, the closing bracket of a list or the end of a line. This is the form that passes from the
parts of a value to the value. The first character of an expression decides which values it may be
of (`Value.lead`), except that constants, references and calls all start with a word; a call goes on
with a point after it.
-/

set_option autoImplicit false

namespace Blueprint

/-! ## Names -/

/-- The name of a variable, a method or an argument: a letter or an underscore, then letters, digits
and underscores. -/
def isIdentifier (name : String) : Bool :=
  match name.toList with
  | [] => false
  | c :: rest => Marker.isWordChar c && !c.isDigit && rest.all Marker.isWordChar

/-- The names of the constants, which no variable has. -/
def constants : List String := ["None", "True", "False"]

/-- The name of a variable. -/
def isVariable (name : String) : Bool := isIdentifier name && !constants.contains name

theorem isIdentifier_of_isVariable {name : String} (h : isVariable name = true) :
    isIdentifier name = true :=
  (Bool.and_eq_true_iff.mp h).1

theorem isVariable_ne {name : String} (h : isVariable name = true) (word : String)
    (hword : word ∈ constants) : name ≠ word := by
  rintro rfl
  simp [isVariable, hword] at h

theorem exists_of_isIdentifier {name : String} (h : isIdentifier name = true) :
    ∃ c rest, name.toList = c :: rest ∧ Marker.isWordChar c = true ∧ c.isDigit = false := by
  unfold isIdentifier at h
  split at h
  · cases h
  · rename_i c rest hname
    simp only [Bool.and_eq_true, Bool.not_eq_true'] at h
    exact ⟨c, rest, hname, h.1.1, h.1.2⟩

theorem all_isWordChar {name : String} (h : isIdentifier name = true) :
    name.toList.all Marker.isWordChar = true := by
  unfold isIdentifier at h
  split at h
  · cases h
  · rename_i c rest hname
    simp only [Bool.and_eq_true] at h
    rw [hname, List.all_cons, h.1.1, h.2]
    rfl

/-- A name ends at the first character that stands in no name. -/
theorem eq_of_name_append {a b : String} (ha : isIdentifier a = true) (hb : isIdentifier b = true)
    {r s : List Char} (hr : Stops Marker.isWordChar r) (hs : Stops Marker.isWordChar s)
    (h : a.toList ++ r = b.toList ++ s) : a = b ∧ r = s := by
  obtain ⟨htext, hrest⟩ :=
    eq_of_append_of_stops (all_isWordChar ha) (all_isWordChar hb) hr hs h
  exact ⟨String.toList_inj.mp htext, hrest⟩

/-! ## Numbers -/

/-- The characters of a number after the first. -/
def isNumberChar (c : Char) : Bool := c.isDigit || c == '+' || c == '-' || c == '.' || c == 'e'

/-- What is assumed of the text of numbers: different numbers have different texts, and the text
starts with a digit or a minus sign and is made of digits, signs, points and the letter of the
exponent. It is assumed of a class of numbers, as not everything of type `Number` is a number of
some document. -/
structure Number.TextLaws (numbers : Number → Prop) : Prop where
  text_inj : ∀ m n, numbers m → numbers n → m.text = n.text → m = n
  all_chars : ∀ n, numbers n → n.text.toList.all isNumberChar = true
  first : ∀ n, numbers n → ∃ c rest, n.text.toList = c :: rest ∧ (c.isDigit = true ∨ c = '-')

theorem isNumberChar_eq_false : isNumberChar ',' = false ∧ isNumberChar ']' = false ∧
    isNumberChar '\n' = false := by decide

/-- A number ends at the first character that stands in no number. -/
theorem Number.TextLaws.eq_of_append {numbers : Number → Prop} (laws : TextLaws numbers)
    {m n : Number} (hm : numbers m) (hn : numbers n) {r s : List Char} (hr : Delimited r)
    (hs : Delimited s) (h : m.text.toList ++ r = n.text.toList ++ s) : m = n ∧ r = s := by
  obtain ⟨hcomma, hbracket, hline⟩ := isNumberChar_eq_false
  obtain ⟨htext, hrest⟩ := eq_of_append_of_stops (laws.all_chars m hm) (laws.all_chars n hn)
    (hr.stops hcomma hbracket hline) (hs.stops hcomma hbracket hline) h
  exact ⟨laws.text_inj m n hm hn (String.toList_inj.mp htext), hrest⟩

theorem toDigits_inj {m n : Nat} (h : Nat.toDigits 10 m = Nat.toDigits 10 n) : m = n := by
  have hvalue := congrArg (fun digits => Nat.ofDigitChars 10 digits 0) h
  simpa using hvalue

theorem isDigit_of_mem_toDigits {n : Nat} {c : Char} (h : c ∈ Nat.toDigits 10 n) :
    c.isDigit = true :=
  Nat.isDigit_of_mem_toDigits (by decide) (by decide) h

theorem toDigits_ne_minus (m : Nat) (digits : List Char) : Nat.toDigits 10 m ≠ '-' :: digits := by
  intro h
  have hminus : '-' ∈ Nat.toDigits 10 m := by
    rw [h]
    exact List.mem_cons_self
  exact absurd (isDigit_of_mem_toDigits hminus) (by decide)

theorem Number.toList_text_integer (value : Int) :
    (integer value).text.toList =
      if value < 0 then '-' :: Nat.toDigits 10 value.natAbs else Nat.toDigits 10 value.natAbs := by
  rw [text, String.toList_ofList]

/-- Whole numbers are told apart by their texts. -/
theorem Number.text_integer_inj {a b : Int} (h : (integer a).text = (integer b).text) : a = b := by
  have hlist := congrArg String.toList h
  rw [toList_text_integer, toList_text_integer] at hlist
  split at hlist
  · split at hlist
    · have habs := toDigits_inj (List.cons.inj hlist).2
      omega
    · exact (toDigits_ne_minus _ _ hlist.symm).elim
  · split at hlist
    · exact (toDigits_ne_minus _ _ hlist).elim
    · have habs := toDigits_inj hlist
      omega

/-- The whole numbers are such a class. -/
theorem Number.textLaws_integer : TextLaws fun n => ∃ value, n = .integer value where
  text_inj := by
    rintro _ _ ⟨a, rfl⟩ ⟨b, rfl⟩ h
    rw [text_integer_inj h]
  all_chars := by
    rintro _ ⟨value, rfl⟩
    rw [toList_text_integer, List.all_eq_true]
    intro c hc
    split at hc
    · rcases List.mem_cons.mp hc with rfl | hc
      · decide
      · simp [isNumberChar, isDigit_of_mem_toDigits hc]
    · simp [isNumberChar, isDigit_of_mem_toDigits hc]
  first := by
    rintro _ ⟨value, rfl⟩
    rw [toList_text_integer]
    split
    · exact ⟨'-', _, rfl, .inr rfl⟩
    · obtain ⟨c, rest, hdigits⟩ :=
        List.exists_cons_of_ne_nil (Nat.toDigits_ne_nil (n := value.natAbs) (b := 10))
      have hc : c ∈ Nat.toDigits 10 value.natAbs := by
        rw [hdigits]
        exact List.mem_cons_self
      exact ⟨c, rest, hdigits, .inl (isDigit_of_mem_toDigits hc)⟩

/-! ## Values -/

namespace Value

/-- The values whose names are identifiers, with numbers of a class. A node is named like a
variable, and no text is a word in braces and nothing else. -/
inductive WellNamed (numbers : Number → Prop) : Value → Prop
  | null : WellNamed numbers .null
  | bool (value : Bool) : WellNamed numbers (.bool value)
  | number {value : Number} (h : numbers value) : WellNamed numbers (.number value)
  | string {text : String}
      (h : ∀ word : String, Marker.isWord word.toList = true → text ≠ Marker.written word) :
      WellNamed numbers (.string text)
  | reference {key : String} (h : isVariable key = true) : WellNamed numbers (.reference key)
  | sequence {items : List Value} (h : ∀ item ∈ items, WellNamed numbers item) :
      WellNamed numbers (.sequence items)
  | mapping {entries : List (String × Value)} (h : ∀ entry ∈ entries, WellNamed numbers entry.2) :
      WellNamed numbers (.mapping entries)
  | call {target method : String} {params : List (String × Value)}
      (htarget : isVariable target = true) (hmethod : isIdentifier method = true)
      (hnames : ∀ param ∈ params, isIdentifier param.1 = true)
      (hvalues : ∀ param ∈ params, WellNamed numbers param.2) :
      WellNamed numbers (.call target method params)

-- Neither condition can be left out: each of these expressions is of two values.
example : (reference "None").expression 0 = null.expression 0 := by decide
example : (string "\x7balu\x7d").expression 0 = (reference "alu").expression 0 := by decide

/-- What an expression starts with. -/
inductive Lead where
  | word
  | number
  | literal
  | list
  | dictionary
deriving DecidableEq

/-- What a character is the start of. -/
def Lead.ofChar? (c : Char) : Option Lead :=
  if c.isDigit || c == '-' then some .number
  else if Marker.isWordChar c then some .word
  else if c == '"' then some .literal
  else if c == '[' then some .list
  else if c == '{' then some .dictionary
  else none

/-- What the expression of a value starts with. -/
def lead : Value → Lead
  | .null | .bool _ | .reference _ | .call _ _ _ => .word
  | .number _ => .number
  | .string _ => .literal
  | .sequence _ => .list
  | .mapping _ => .dictionary

/-- The word that is the expression of a value, whatever the depth. -/
def bare? : Value → Option String
  | .null => some "None"
  | .bool value => some (if value then "True" else "False")
  | .reference key => some key
  | _ => none

/-- The value of which a word is the expression. -/
def ofWord (word : String) : Value :=
  if word = "None" then .null
  else if word = "True" then .bool true
  else if word = "False" then .bool false
  else .reference word

theorem expression_of_bare? {value : Value} {word : String} (h : value.bare? = some word)
    (depth : Nat) : value.expression depth = word := by
  cases value with
  | null =>
    rw [expression]
    exact Option.some.inj h
  | bool value =>
    cases value with
    | true =>
      rw [expression]
      exact Option.some.inj h
    | false =>
      rw [expression]
      exact Option.some.inj h
  | reference key =>
    rw [expression]
    exact Option.some.inj h
  | _ => cases h

theorem lead_of_bare? {value : Value} {word : String} (h : value.bare? = some word) :
    value.lead = .word := by
  cases value with
  | null | bool _ | reference _ => rfl
  | _ => cases h

theorem expression_string {text : String}
    (h : ∀ word : String, Marker.isWord word.toList = true → text ≠ Marker.written word)
    (depth : Nat) : (string text).expression depth = Text.quote text := by
  cases hwhole : Marker.whole? text with
  | none => simp only [expression, hwhole]
  | some word =>
    obtain ⟨hwritten, hword⟩ := Marker.eq_written_of_whole? hwhole
    exact absurd hwritten (h word hword)

theorem startsLine_entry (entry : String × Value) (depth : Nat) :
    StartsLine '}' (Text.quote entry.1 ++ ": " ++ entry.2.expression depth) := by
  simp only [StartsLine, Text.quote, String.toList_append, String.toList_ofList, List.cons_append]
  exact ⟨'"', _, rfl, by decide, by decide⟩

theorem startsLine_argument {param : String × Value} (h : isIdentifier param.1 = true)
    (depth : Nat) : StartsLine ')' (param.1 ++ "=" ++ param.2.expression depth) := by
  obtain ⟨c, rest, hname, hword, -⟩ := exists_of_isIdentifier h
  refine ⟨c, rest ++ ("=" ++ param.2.expression depth).toList, ?_, ?_, ?_⟩
  · simp only [String.toList_append, hname, List.cons_append, List.append_assoc]
  · rintro rfl
    exact absurd hword (by decide)
  · rintro rfl
    exact absurd hword (by decide)

theorem expression_call (target method : String) (params : List (String × Value)) (depth : Nat) :
    ((call target method params).expression depth).toList =
      target.toList ++ '.' :: (method.toList ++ (arguments params depth).toList) := by
  simp [expression, arguments]

theorem stops_arguments (params : List (String × Value)) (depth : Nat) (rest : List Char) :
    Stops Marker.isWordChar ((arguments params depth).toList ++ rest) := by
  obtain ⟨later, hblock⟩ := exists_toList_block "(" ")" depth (argumentLines params (depth + 1))
  rw [arguments, hblock]
  exact stops_cons rfl _

theorem Lead.ofChar?_of_isIdentifier {name : String} (h : isIdentifier name = true) :
    ∃ c rest, name.toList = c :: rest ∧ ofChar? c = some .word := by
  obtain ⟨c, rest, hname, hword, hdigit⟩ := exists_of_isIdentifier h
  have hminus : c ≠ '-' := by
    rintro rfl
    exact absurd hword (by decide)
  exact ⟨c, rest, hname, by simp [ofChar?, hdigit, hminus, hword]⟩

theorem Lead.ofChar?_number {c : Char} (h : c.isDigit = true ∨ c = '-') :
    ofChar? c = some .number := by
  rcases h with h | rfl
  · simp [ofChar?, h]
  · decide

namespace WellNamed

variable {numbers : Number → Prop} {v w : Value}

theorem isIdentifier_bare (h : WellNamed numbers v) {word : String} (hbare : v.bare? = some word) :
    isIdentifier word = true := by
  cases h with
  | null =>
    cases hbare
    decide
  | bool value =>
    cases hbare
    cases value <;> decide
  | reference hkey =>
    cases hbare
    exact isIdentifier_of_isVariable hkey
  | _ => cases hbare

theorem exists_lead (laws : Number.TextLaws numbers) (h : WellNamed numbers v) (depth : Nat) :
    ∃ c rest, (v.expression depth).toList = c :: rest ∧ Lead.ofChar? c = some v.lead := by
  cases hbare : v.bare? with
  | some word =>
    obtain ⟨c, rest, hword, hlead⟩ := Lead.ofChar?_of_isIdentifier (h.isIdentifier_bare hbare)
    rw [expression_of_bare? hbare]
    refine ⟨c, rest, hword, ?_⟩
    rw [hlead, lead_of_bare? hbare]
  | none =>
    cases h with
    | null => cases hbare
    | bool _ => cases hbare
    | reference _ => cases hbare
    | number hvalue =>
      obtain ⟨c, rest, htext, hfirst⟩ := laws.first _ hvalue
      rw [expression]
      exact ⟨c, rest, htext, Lead.ofChar?_number hfirst⟩
    | @string text hplain =>
      rw [expression_string hplain, Text.quote, String.toList_ofList]
      exact ⟨'"', _, rfl, rfl⟩
    | sequence _ =>
      rw [expression, String.toList_append, String.toList_append]
      exact ⟨'[', _, rfl, rfl⟩
    | @mapping entries _ =>
      obtain ⟨rest, hblock⟩ :=
        exists_toList_block "\x7b" "\x7d" depth (entryLines entries (depth + 1))
      rw [expression, hblock]
      exact ⟨'{', _, rfl, rfl⟩
    | call htarget _ _ _ =>
      obtain ⟨c, rest, htext, hlead⟩ :=
        Lead.ofChar?_of_isIdentifier (isIdentifier_of_isVariable htarget)
      rw [expression_call, htext]
      exact ⟨c, _, rfl, hlead⟩

/-- Values that are written alike, up to what follows, start alike. -/
theorem lead_eq (laws : Number.TextLaws numbers) (hv : WellNamed numbers v)
    (hw : WellNamed numbers w) {depth : Nat} {r s : List Char}
    (h : (v.expression depth).toList ++ r = (w.expression depth).toList ++ s) :
    v.lead = w.lead := by
  obtain ⟨c, rest, hvtext, hvlead⟩ := hv.exists_lead laws depth
  obtain ⟨d, rest', hwtext, hwlead⟩ := hw.exists_lead laws depth
  rw [hvtext, hwtext] at h
  obtain ⟨rfl, -⟩ := List.cons.inj h
  exact Option.some.inj (hvlead.symm.trans hwlead)

/-- No constant is a variable. -/
theorem eq_ofWord (h : WellNamed numbers v) {word : String} (hbare : v.bare? = some word) :
    v = ofWord word := by
  cases h with
  | null =>
    cases hbare
    rfl
  | bool value =>
    cases hbare
    cases value <;> rfl
  | @reference key hkey =>
    cases hbare
    have hnone := isVariable_ne hkey "None" (by decide)
    have htrue := isVariable_ne hkey "True" (by decide)
    have hfalse := isVariable_ne hkey "False" (by decide)
    rw [ofWord, if_neg hnone, if_neg htrue, if_neg hfalse]
  | _ => cases hbare

/-- A word ends before what may follow an expression, and before the point of a call. -/
theorem toldApart_bare (laws : Number.TextLaws numbers) (hv : WellNamed numbers v)
    (hw : WellNamed numbers w) {word : String} (hbare : v.bare? = some word) (depth : Nat) :
    ToldApart (fun u => u.expression depth) v w := by
  intro r s hr hs h
  have hlead := hv.lead_eq laws hw h
  have hword := hv.isIdentifier_bare hbare
  have hstops : Stops Marker.isWordChar r := hr.stops rfl rfl rfl
  simp only [expression_of_bare? hbare] at h
  cases hwbare : w.bare? with
  | some word' =>
    simp only [expression_of_bare? hwbare] at h
    obtain ⟨rfl, hrest⟩ := eq_of_name_append hword (hw.isIdentifier_bare hwbare) hstops
      (hs.stops rfl rfl rfl) h
    exact ⟨(hv.eq_ofWord hbare).trans (hw.eq_ofWord hwbare).symm, hrest⟩
  | none =>
    rw [lead_of_bare? hbare] at hlead
    cases hw with
    | call htarget _ _ _ =>
      -- The point of the call would have to come after the whole expression of the other value.
      rw [expression_call, List.append_assoc, List.cons_append] at h
      obtain ⟨-, hrest⟩ := eq_of_name_append hword (isIdentifier_of_isVariable htarget) hstops
        (stops_cons rfl _) h
      rw [hrest] at hr
      exact absurd (hr '.' rfl) (by decide)
    | null | bool _ | reference _ => cases hwbare
    | _ => cases hlead

/-- A line of arguments is a name and a value. -/
theorem toldApart_argument {a b : String × Value} (ha : isIdentifier a.1 = true)
    (hb : isIdentifier b.1 = true) {depth : Nat}
    (h : ToldApart (fun u => u.expression depth) a.2 b.2) :
    ToldApart (fun (name, value) => name ++ "=" ++ value.expression depth) a b := by
  intro r s hr hs heq
  simp only [String.toList_append, List.append_assoc] at heq
  obtain ⟨hname, hafter⟩ := eq_of_name_append ha hb
    (show Stops _ ('=' :: _) from stops_cons rfl _) (show Stops _ ('=' :: _) from stops_cons rfl _)
    heq
  obtain ⟨hvalue, hrest⟩ := h hr hs (List.cons.inj hafter).2
  exact ⟨Prod.ext hname hvalue, hrest⟩

/-- A line of a mapping is a quoted name and a value. -/
theorem toldApart_entry {a b : String × Value} {depth : Nat}
    (h : ToldApart (fun u => u.expression depth) a.2 b.2) :
    ToldApart (fun (name, value) => Text.quote name ++ ": " ++ value.expression depth) a b := by
  intro r s hr hs heq
  simp only [String.toList_append, List.append_assoc] at heq
  obtain ⟨hname, hvalue⟩ := eq_of_quote_append heq
  obtain ⟨hvalue, hrest⟩ := h hr hs (List.append_cancel_left hvalue)
  exact ⟨Prod.ext hname hvalue, hrest⟩

/-- Argument lists are told apart when their values are. -/
theorem eq_of_arguments_append {ps qs : List (String × Value)}
    (hps : ∀ p ∈ ps, isIdentifier p.1 = true) (hqs : ∀ q ∈ qs, isIdentifier q.1 = true)
    {depth : Nat}
    (hvalues : ∀ p ∈ ps, ∀ q ∈ qs, ToldApart (fun u => u.expression (depth + 1)) p.2 q.2)
    {r s : List Char}
    (h : (arguments ps depth).toList ++ r = (arguments qs depth).toList ++ s) :
    ps = qs ∧ r = s := by
  simp only [arguments, argumentLines_eq] at h
  refine eq_of_block_append ')' rfl (by decide) ?_ ?_ ?_ h
  · exact fun p hp => startsLine_argument (hps p hp) _
  · exact fun q hq => startsLine_argument (hqs q hq) _
  · exact fun p hp q hq => toldApart_argument (hps p hp) (hqs q hq) (hvalues p hp q hq)

/-- An empty list is closed at once, and no expression starts with the bracket that closes it. -/
theorem closed_ne_items (laws : Number.TextLaws numbers) (hw : WellNamed numbers w)
    (ws : List Value) (depth : Nat) (r s : List Char) :
    ']' :: r ≠
      (String.intercalate ", " ((w :: ws).map fun u => u.expression depth)).toList ++ s := by
  intro h
  obtain ⟨c, rest, htext, hlead⟩ := hw.exists_lead laws depth
  rw [List.map_cons, toList_intercalate_cons, htext] at h
  obtain ⟨rfl, -⟩ := List.cons.inj h
  have hnone : Lead.ofChar? ']' = none := rfl
  rw [hnone] at hlead
  cases hlead

/-- The items of a list, with the bracket that closes it. -/
theorem eq_of_items_append (laws : Number.TextLaws numbers) {vs ws : List Value}
    (hvs : ∀ v ∈ vs, WellNamed numbers v) (hws : ∀ w ∈ ws, WellNamed numbers w) {depth : Nat}
    (hitems : ∀ v ∈ vs, ∀ w ∈ ws, ToldApart (fun u => u.expression depth) v w)
    {r s : List Char}
    (h : (String.intercalate ", " (vs.map fun u => u.expression depth)).toList ++ ']' :: r =
      (String.intercalate ", " (ws.map fun u => u.expression depth)).toList ++ ']' :: s) :
    vs = ws ∧ r = s := by
  cases vs with
  | nil =>
    cases ws with
    | nil => exact ⟨rfl, (List.cons.inj h).2⟩
    | cons w ws => exact (closed_ne_items laws (hws w List.mem_cons_self) ws depth r _ h).elim
  | cons v vs =>
    cases ws with
    | nil => exact (closed_ne_items laws (hvs v List.mem_cons_self) vs depth s _ h.symm).elim
    | cons w ws =>
      have hseparator : (", " : String).toList = ',' :: [' '] := rfl
      exact eq_of_intercalate_append hseparator (.inl rfl) hitems h

/-- An expression tells which value it is of, and where it ends. -/
theorem toldApart (laws : Number.TextLaws numbers) (hv : WellNamed numbers v) :
    ∀ {w}, WellNamed numbers w → ∀ depth, ToldApart (fun u => u.expression depth) v w := by
  induction hv with
  | null => exact fun hw => toldApart_bare laws .null hw rfl
  | bool value => exact fun hw => toldApart_bare laws (.bool value) hw rfl
  | reference hkey => exact fun hw => toldApart_bare laws (.reference hkey) hw rfl
  | number hm =>
    intro w hw depth r s hr hs h
    have hlead := (number hm).lead_eq laws hw h
    cases hw with
    | number hn =>
      simp only [expression] at h
      obtain ⟨rfl, hrest⟩ := laws.eq_of_append hm hn hr hs h
      exact ⟨rfl, hrest⟩
    | _ => cases hlead
  | string hplain =>
    intro w hw depth r s hr hs h
    have hlead := (string hplain).lead_eq laws hw h
    cases hw with
    | string hplain' =>
      simp only [expression_string hplain, expression_string hplain'] at h
      obtain ⟨rfl, hrest⟩ := eq_of_quote_append h
      exact ⟨rfl, hrest⟩
    | _ => cases hlead
  | sequence hitems ih =>
    intro w hw depth r s hr hs h
    have hlead := (sequence hitems).lead_eq laws hw h
    cases hw with
    | sequence hitems' =>
      simp only [expression, expressionItems_eq, String.toList_append, List.append_assoc] at h
      obtain ⟨rfl, hrest⟩ := eq_of_items_append laws hitems hitems'
        (fun v hv w hw => ih v hv (hitems' w hw) depth) (List.append_cancel_left h)
      exact ⟨rfl, hrest⟩
    | _ => cases hlead
  | mapping hentries ih =>
    intro w hw depth r s hr hs h
    have hlead := (mapping hentries).lead_eq laws hw h
    cases hw with
    | mapping hentries' =>
      simp only [expression, entryLines_eq] at h
      obtain ⟨rfl, hrest⟩ := eq_of_block_append '}' rfl (by decide)
        (fun _ _ => startsLine_entry _ _) (fun _ _ => startsLine_entry _ _)
        (fun e he e' he' => toldApart_entry (ih e he (hentries' e' he') (depth + 1))) h
      exact ⟨rfl, hrest⟩
    | _ => cases hlead
  | call htarget hmethod hnames hvalues ih =>
    intro w hw depth
    have hv := call htarget hmethod hnames hvalues
    -- A constant or a variable starts like a call, but nothing follows its word.
    cases hbare : w.bare? with
    | some word => exact (toldApart_bare laws hw hv hbare depth).symm
    | none =>
      intro r s hr hs h
      have hlead := hv.lead_eq laws hw h
      cases hw with
      | call htarget' hmethod' hnames' hvalues' =>
        simp only [expression_call, List.append_assoc, List.cons_append] at h
        obtain ⟨rfl, hmember⟩ := eq_of_name_append (isIdentifier_of_isVariable htarget)
          (isIdentifier_of_isVariable htarget') (stops_cons rfl _) (stops_cons rfl _) h
        obtain ⟨rfl, hparams⟩ := eq_of_name_append hmethod hmethod' (stops_arguments _ _ _)
          (stops_arguments _ _ _) (List.cons.inj hmember).2
        obtain ⟨rfl, hrest⟩ := eq_of_arguments_append hnames hnames'
          (fun p hp q hq => ih p hp (hvalues' q hq) (depth + 1)) hparams
        exact ⟨rfl, hrest⟩
      | null | bool _ | reference _ => cases hbare
      | _ => cases hlead

end WellNamed

/-- Values that are written alike are the same, whatever the depth, and so are argument lists. -/
theorem expression_unambiguous {numbers : Number → Prop} (laws : Number.TextLaws numbers)
    (depth : Nat) :
    (∀ v w, WellNamed numbers v → WellNamed numbers w →
      v.expression depth = w.expression depth → v = w) ∧
    (∀ ps qs : List (String × Value),
      (∀ p ∈ ps, isIdentifier p.1 = true ∧ WellNamed numbers p.2) →
      (∀ q ∈ qs, isIdentifier q.1 = true ∧ WellNamed numbers q.2) →
      arguments ps depth = arguments qs depth → ps = qs) := by
  constructor
  · intro v w hv hw h
    have htext : (v.expression depth).toList ++ [] = (w.expression depth).toList ++ [] := by rw [h]
    exact (hv.toldApart laws hw depth delimited_nil delimited_nil htext).1
  · intro ps qs hps hqs h
    have htext : (arguments ps depth).toList ++ [] = (arguments qs depth).toList ++ [] := by rw [h]
    exact (WellNamed.eq_of_arguments_append (fun p hp => (hps p hp).1) (fun q hq => (hqs q hq).1)
      (fun p hp q hq => (hps p hp).2.toldApart laws (hqs q hq).2 (depth + 1)) htext).1

/-- Arguments with a text that looks like the rest of the list, a negative number, a mapping without
entries and a call. -/
def trickyArguments : List (String × Value) :=
  [("mode", .string "a\",\n\tsize=[\x7bb\x7d]"),
    ("size", .sequence [.number (.integer (-1)), .mapping [], .call "alu" "run" []])]

/-- How they are written. -/
def trickyText : String :=
  "(\n\tmode=\"a\\\",\\n\\tsize=[\x7bb\x7d]\",\n\tsize=[-1, \x7b\n\t\x7d, alu.run(\n\t)]\n)"

theorem wellNamed_trickyArguments : ∀ p ∈ trickyArguments, isIdentifier p.1 = true ∧
    WellNamed (fun n => ∃ value, n = .integer value) p.2 := by
  intro p hp
  simp only [trickyArguments, List.mem_cons, List.not_mem_nil, or_false] at hp
  rcases hp with rfl | rfl
  · refine ⟨by decide, .string ?_⟩
    intro word _ h
    have hfirst := congrArg String.toList h
    rw [Marker.toList_written] at hfirst
    exact absurd (List.cons.inj hfirst).1 (by decide)
  · refine ⟨by decide, .sequence ?_⟩
    intro item hitem
    simp only [List.mem_cons, List.not_mem_nil, or_false] at hitem
    rcases hitem with rfl | rfl | rfl
    · exact .number ⟨-1, rfl⟩
    · exact .mapping (by simp)
    · exact .call (by decide) (by decide) (by simp) (by simp)

/-- There is one way to read the arguments, in a call and alone. -/
theorem expression_unambiguous_tricky :
    Number.TextLaws (fun n => ∃ value, n = .integer value) ∧
    (∀ w, WellNamed (fun n => ∃ value, n = .integer value) w →
      w.expression 1 = "cpu.load" ++ trickyText → w = .call "cpu" "load" trickyArguments) ∧
    (∀ qs : List (String × Value), (∀ q ∈ qs, isIdentifier q.1 = true ∧
        WellNamed (fun n => ∃ value, n = .integer value) q.2) →
      arguments qs 1 = trickyText → qs = trickyArguments) := by
  have laws := Number.textLaws_integer
  refine ⟨laws, ?_, ?_⟩
  · intro w hw h
    have htext : (call "cpu" "load" trickyArguments).expression 1 = "cpu.load" ++ trickyText := by
      decide
    have hcall : WellNamed (fun n => ∃ value, n = .integer value)
        (.call "cpu" "load" trickyArguments) :=
      .call (by decide) (by decide) (fun p hp => (wellNamed_trickyArguments p hp).1)
        (fun p hp => (wellNamed_trickyArguments p hp).2)
    exact (expression_unambiguous laws 1).1 w _ hw hcall (h.trans htext.symm)
  · intro qs hqs h
    have htext : arguments trickyArguments 1 = trickyText := by decide
    exact (expression_unambiguous laws 1).2 qs _ hqs wellNamed_trickyArguments
      (h.trans htext.symm)

end Value

end Blueprint
