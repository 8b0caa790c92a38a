import Blueprint.Extraction.Walk

/-!
# `Blueprint/Proofs/Extraction/Fields.lean` — what objects have to say about themselves

A component and a call read some of their members before anything inside them is walked. The reading
is a chain of checks that ends at the first failure; here it is turned into a condition on the
members, `Declares` and `CallFields`, together with the data that is read when it holds. The order
of the checks is visible in the error of a refused document only, so it is gone from the conditions.

`Json.role` sorts the parts of a document by what they do: a marker, a component and a call each put
something into the graph, a malformed marker is always refused, and all others are plain.
-/

set_option autoImplicit false

namespace Blueprint

namespace Json

/-- The text in a field, if there is text in it. -/
def text? (field : String) (members : List (String × Json)) : Option String :=
  match get? field members with
  | some (.string text) => some text
  | _ => none

/-- The text in a field that holds text. -/
def textOf (field : String) (members : List (String × Json)) : String :=
  (text? field members).getD ""

/-- The class or the type that an object names. -/
def callable? (members : List (String × Json)) : Option Callable :=
  match text? Field.className members with
  | some name => some (.className name)
  | none => (text? Field.classType members).map .classType

/-- A field that is missing or null. -/
def Vacant (field : String) (members : List (String × Json)) : Prop :=
  get? field members = none ∨ get? field members = some .null

/-- A field that is text, null or missing. -/
def OptionalText (field : String) (members : List (String × Json)) : Prop :=
  Vacant field members ∨ ∃ text, get? field members = some (.string text)

/-- What a component has to say about itself, its arguments apart. -/
structure Declares (members : List (String × Json)) : Prop where
  module : ∃ text, get? Field.module members = some (.string text)
  className : OptionalText Field.className members
  classType : OptionalText Field.classType members
  oneClass : Vacant Field.className members ∨ Vacant Field.classType members
  objectKey : OptionalText Field.objectKey members

/-- The arguments of a component or a call are a mapping, if they are there. -/
def ParamsField (members : List (String × Json)) : Prop :=
  Vacant Field.params members ∨ ∃ params, get? Field.params members = some (.object params)

/-- What the members of a component have to be. -/
structure ComponentFields (members : List (String × Json)) : Prop extends Declares members where
  params : ParamsField members
  methodArgs : get? Field.methodArgs members = none ∨
    ∃ items, get? Field.methodArgs members = some (.array items)

/-- What the members of a call have to be. -/
structure CallFields (members : List (String × Json)) : Prop where
  target : ∃ text, get? Field.callTarget members = some (.string text)
  method : ∃ text, get? Field.callName members = some (.string text)
  params : ParamsField members

variable {field : String} {members : List (String × Json)}

theorem text?_eq_none_of_vacant (h : Vacant field members) : text? field members = none := by
  unfold text?
  rcases h with h | h <;> rw [h]

theorem text?_eq_some {text : String} (h : get? field members = some (.string text)) :
    text? field members = some text := by
  rw [text?, h]

theorem textOf_eq {text : String} (h : get? field members = some (.string text)) :
    textOf field members = text := by
  rw [textOf, text?_eq_some h]
  rfl

theorem vacant_iff (h : OptionalText field members) :
    Vacant field members ↔ text? field members = none := by
  constructor
  · exact text?_eq_none_of_vacant
  · intro hnone
    rcases h with hvacant | ⟨text, htext⟩
    · exact hvacant
    · rw [text?_eq_some htext] at hnone
      cases hnone

end Json

namespace Extraction

open Json

variable {members : List (String × Json)} {path : Path}

theorem except_bind_eq_ok_iff {α β : Type} {first : Except Error α} {next : α → Except Error β}
    {result : β} :
    (first >>= next) = .ok result ↔ ∃ value, first = .ok value ∧ next value = .ok result := by
  cases first <;> simp [bind, Except.bind]

theorem textField_eq_ok_iff {field text : String} :
    textField members field path = .ok text ↔ get? field members = some (.string text) := by
  unfold textField
  split
  · rename_i found hget
    simp [hget]
  · rename_i hother
    constructor
    · intro h
      cases h
    · intro h
      exact absurd h (hother text)

theorem textField?_eq_ok_iff {field : String} {value : Option String} :
    textField? members field path = .ok value ↔
      OptionalText field members ∧ value = text? field members := by
  unfold textField? OptionalText Vacant text?
  cases hget : get? field members with
  | none => simp [eq_comm]
  | some found => cases found <;> simp [eq_comm]

/-- What is read from the members of a component that declares itself. -/
def declarationOf (members : List (String × Json)) : Declaration where
  module := textOf Field.module members
  callable := callable? members
  explicitKey := text? Field.objectKey members

theorem declaration_eq_ok_iff {declared : Declaration} :
    declaration members path = .ok declared ↔
      Declares members ∧ declared = declarationOf members := by
  unfold declaration
  constructor
  · intro h
    obtain ⟨module, hmodule, h⟩ := except_bind_eq_ok_iff.mp h
    obtain ⟨className, hnameRead, h⟩ := except_bind_eq_ok_iff.mp h
    obtain ⟨classType, htypeRead, h⟩ := except_bind_eq_ok_iff.mp h
    rw [textField_eq_ok_iff] at hmodule
    obtain ⟨hclassName, rfl⟩ := textField?_eq_ok_iff.mp hnameRead
    obtain ⟨hclassType, rfl⟩ := textField?_eq_ok_iff.mp htypeRead
    -- two class fields with text in both are refused, and otherwise one of them is vacant
    have hrest : (Vacant Field.className members ∨ Vacant Field.classType members) ∧
        (textField? members Field.objectKey path >>= fun explicitKey =>
          .ok (⟨module, callable? members, explicitKey⟩ : Declaration)) = .ok declared := by
      rw [vacant_iff hclassName, vacant_iff hclassType, callable?]
      cases hname : text? Field.className members with
      | some name =>
        cases htype : text? Field.classType members with
        | some type =>
          rw [hname, htype] at h
          cases h
        | none =>
          rw [hname, htype] at h
          exact ⟨.inr rfl, h⟩
      | none =>
        cases htype : text? Field.classType members with
        | some type =>
          rw [hname, htype] at h
          exact ⟨.inl rfl, h⟩
        | none =>
          rw [hname, htype] at h
          exact ⟨.inl rfl, h⟩
    obtain ⟨hone, h⟩ := hrest
    obtain ⟨objectKey, hkeyRead, h⟩ := except_bind_eq_ok_iff.mp h
    obtain ⟨hobjectKey, rfl⟩ := textField?_eq_ok_iff.mp hkeyRead
    cases h
    refine ⟨⟨⟨_, hmodule⟩, hclassName, hclassType, hone, hobjectKey⟩, ?_⟩
    rw [declarationOf, textOf_eq hmodule]
  · rintro ⟨⟨⟨module, hmodule⟩, hclassName, hclassType, hone, hobjectKey⟩, rfl⟩
    refine except_bind_eq_ok_iff.mpr ⟨_, textField_eq_ok_iff.mpr hmodule, ?_⟩
    refine except_bind_eq_ok_iff.mpr ⟨_, textField?_eq_ok_iff.mpr ⟨hclassName, rfl⟩, ?_⟩
    refine except_bind_eq_ok_iff.mpr ⟨_, textField?_eq_ok_iff.mpr ⟨hclassType, rfl⟩, ?_⟩
    have hrest : (textField? members Field.objectKey path >>= fun explicitKey =>
        .ok (⟨module, callable? members, explicitKey⟩ : Declaration)) =
          .ok (declarationOf members) := by
      refine except_bind_eq_ok_iff.mpr ⟨_, textField?_eq_ok_iff.mpr ⟨hobjectKey, rfl⟩, ?_⟩
      rw [declarationOf, textOf_eq hmodule]
    unfold callable? at hrest
    rcases hone with hnone | hnone
    · rw [text?_eq_none_of_vacant hnone] at hrest ⊢
      cases htype : text? Field.classType members with
      | some type =>
        rw [htype] at hrest
        exact hrest
      | none =>
        rw [htype] at hrest
        exact hrest
    · rw [text?_eq_none_of_vacant hnone] at hrest ⊢
      cases hname : text? Field.className members with
      | some name =>
        rw [hname] at hrest
        exact hrest
      | none =>
        rw [hname] at hrest
        exact hrest

theorem callee_eq_ok_iff {target method : String} :
    callee members path = .ok (target, method) ↔
      get? Field.callTarget members = some (.string target) ∧
        get? Field.callName members = some (.string method) := by
  unfold callee
  constructor
  · intro h
    obtain ⟨_, htarget, h⟩ := except_bind_eq_ok_iff.mp h
    obtain ⟨_, hmethod, h⟩ := except_bind_eq_ok_iff.mp h
    cases h
    exact ⟨textField_eq_ok_iff.mp htarget, textField_eq_ok_iff.mp hmethod⟩
  · rintro ⟨htarget, hmethod⟩
    refine except_bind_eq_ok_iff.mpr ⟨_, textField_eq_ok_iff.mpr htarget, ?_⟩
    exact except_bind_eq_ok_iff.mpr ⟨_, textField_eq_ok_iff.mpr hmethod, rfl⟩

end Extraction

/-! ## Roles -/

/-- What a part of a document does. -/
inductive Role where
  | plain
  | marker (key : String)
  | malformed (inner : String)
  | component (members : List (String × Json))
  | call (members : List (String × Json))

/-- The role of a part. -/
def Json.role : Json → Role
  | .string text =>
    match Marker.find? text with
    | none => .plain
    | some (.key key) => .marker key
    | some (.malformed inner) => .malformed inner
  | .object members =>
    match Json.objectShape members with
    | .component => .component members
    | .call => .call members
    | _ => .plain
  | _ => .plain

/-- What a part has to be on its own, whatever stands elsewhere in the document. -/
def Role.WellFormed : Role → Prop
  | .malformed _ => False
  | .component members => Json.ComponentFields members
  | .call members => Json.CallFields members
  | _ => True

end Blueprint
