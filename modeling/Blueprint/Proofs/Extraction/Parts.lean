import Blueprint.Proofs.Extraction.Accounts
import Blueprint.Proofs.Extraction.Contributions

/-!
# `Blueprint/Proofs/Extraction/Parts.lean` — the visits of what is walked

The walk has six kinds of parts, the visits have one. A part is a value or a list in one of its
roles, and its visits are those of its values, one after the other; this file has one equation for
each rule of the walk. In the same way a walk carries an owner where a visit has surroundings, and
`Located` says when the two mean the same.
-/

set_option autoImplicit false

namespace Blueprint

theorem Path.first?_key {path : Path} {name : String} {segment : Segment}
    (h : path.first? = some segment) : (path.key name).first? = some segment := by
  unfold Path.first? Path.key at *
  rw [List.head?_append, h]
  rfl

theorem Path.first?_index {path : Path} {position : Nat} {segment : Segment}
    (h : path.first? = some segment) : (path.index position).first? = some segment := by
  unfold Path.first? Path.index at *
  rw [List.head?_append, h]
  rfl

namespace Extraction

/-! ## The visits of a part -/

def Part.visits (part : Part) (path : Path) (around : List Enclosure) : List Visit :=
  match part with
  | .value document => Visit.all ⟨path, document, around⟩
  | .items list position => (Visit.ofItems path around list position).flatMap Visit.all
  | .members list => (Visit.ofMembers path around list).flatMap Visit.all
  | .block list => (Visit.ofBlock path around list).flatMap Visit.all
  | .params list => (Visit.ofParams path around list).flatMap Visit.all
  | .methodArgs list => (Visit.ofMethodArgs path around list).flatMap Visit.all

/-- What the walk of a part gives. -/
def Part.yield (keyAt : Path → String) (part : Part) (path : Path) : Yield :=
  match part with
  | .value document => .value (document.reading keyAt path)
  | .items list position => .items (Json.readingItems keyAt list path position)
  | .members list => .entries (Json.readingMembers keyAt list path)
  | .block list => .entries (Json.readingBlock keyAt list path)
  | .params list => .entries (Json.readingParams keyAt list path)
  | .methodArgs list => .items (Json.readingMethodArgs keyAt list path)

section

variable {path : Path} {around : List Enclosure}

theorem visits_array (items : List Json) :
    (Part.value (.array items)).visits path around =
      [⟨path, .array items, around⟩] ++ (Part.items items 0).visits path around :=
  Visit.all_eq _

theorem visits_component {members : List (String × Json)}
    (shape : Json.objectShape members = .component) :
    (Part.value (.object members)).visits path around =
      [⟨path, .object members, around⟩] ++
        ((Part.params members).visits path (.component path :: around) ++
          (Part.methodArgs members).visits path (.component path :: around)) := by
  rw [Part.visits, Visit.all_eq]
  simp [Visit.inside, shape, Part.visits]

theorem visits_call {members : List (String × Json)} (shape : Json.objectShape members = .call) :
    (Part.value (.object members)).visits path around =
      [⟨path, .object members, around⟩] ++
        (Part.params members).visits path (.call :: around) := by
  rw [Part.visits, Visit.all_eq]
  simp [Visit.inside, shape, Part.visits]

theorem visits_methodBlock {members : List (String × Json)}
    (shape : Json.objectShape members = .methodBlock) :
    (Part.value (.object members)).visits path around =
      [⟨path, .object members, around⟩] ++ (Part.block members).visits path around := by
  rw [Part.visits, Visit.all_eq]
  simp [Visit.inside, shape, Part.visits]

theorem visits_mapping {members : List (String × Json)}
    (shape : Json.objectShape members = .mapping) :
    (Part.value (.object members)).visits path around =
      [⟨path, .object members, around⟩] ++ (Part.members members).visits path around := by
  rw [Part.visits, Visit.all_eq]
  simp [Visit.inside, shape, Part.visits]

theorem visits_leaf {document : Json} (harray : ∀ items, document ≠ .array items)
    (hobject : ∀ members, document ≠ .object members) :
    (Part.value document).visits path around = [⟨path, document, around⟩] := by
  rw [Part.visits, Visit.all_eq]
  cases document with
  | array items => exact absurd rfl (harray items)
  | object members => exact absurd rfl (hobject members)
  | _ => rfl

theorem visits_itemsCons (item : Json) (rest : List Json) (position : Nat) :
    (Part.items (item :: rest) position).visits path around =
      (Part.value item).visits (path.index position) around ++
        (Part.items rest (position + 1)).visits path around := by
  simp [Part.visits, Visit.ofItems]

theorem visits_membersCons (name : String) (member : Json) (rest : List (String × Json)) :
    (Part.members ((name, member) :: rest)).visits path around =
      (Part.value member).visits (path.key name) around ++
        (Part.members rest).visits path around := by
  simp [Part.visits, Visit.ofMembers]

theorem visits_blockParams (inner rest : List (String × Json)) :
    (Part.block ((Field.params, .object inner) :: rest)).visits path around =
      (Part.members inner).visits (path.key Field.params) around ++
        (Part.block rest).visits path around := by
  simp [Part.visits, Visit.ofBlock, Visit.ofBlockMember_params]

theorem visits_blockCons {name : String} {member : Json} (rest : List (String × Json))
    (plain : name = Field.params → ∀ inner, member ≠ .object inner) :
    (Part.block ((name, member) :: rest)).visits path around =
      (Part.value member).visits (path.key name) around ++
        (Part.block rest).visits path around := by
  simp [Part.visits, Visit.ofBlock, Visit.ofBlockMember_plain plain]

theorem visits_noParams {members : List (String × Json)}
    (h : Json.Vacant Field.params members) : (Part.params members).visits path around = [] := by
  unfold Part.visits Visit.ofParams
  rcases h with h | h <;> simp [h]

theorem visits_someParams {members params : List (String × Json)}
    (h : Json.get? Field.params members = some (.object params)) :
    (Part.params members).visits path around =
      (Part.members params).visits (path.key Field.params) around := by
  simp [Part.visits, Visit.ofParams, h]

theorem visits_noMethodArgs {members : List (String × Json)}
    (h : Json.get? Field.methodArgs members = none) :
    (Part.methodArgs members).visits path around = [] := by
  simp [Part.visits, Visit.ofMethodArgs, h]

theorem visits_someMethodArgs {members : List (String × Json)} {items : List Json}
    (h : Json.get? Field.methodArgs members = some (.array items)) :
    (Part.methodArgs members).visits path around =
      (Part.items items 0).visits (path.key Field.methodArgs) around := by
  simp [Part.visits, Visit.ofMethodArgs, h]

theorem around_ne_nil_of_mem_params {members : List (String × Json)} (haround : around ≠ [])
    {visit : Visit} (h : visit ∈ (Part.params members).visits path around) :
    visit.around ≠ [] := by
  obtain ⟨outer, houter, hvisit⟩ := List.mem_flatMap.mp h
  refine Visit.around_ne_nil_of_mem_all ?_ hvisit
  unfold Visit.ofParams at houter
  split at houter
  · obtain ⟨name, member, -, rfl⟩ := Visit.mem_ofMembers houter
    exact haround
  · cases houter

end

/-! ## Owners and surroundings -/

/-- The owner of a part is what the components and calls around it make of it. -/
def Located (keyAt : Path → String) (owner : Option Owner) (around : List Enclosure)
    (path : Path) : Prop :=
  match owner with
  | none => around = []
  | some o => around ≠ [] ∧ o.collects = false ∧
      match innermost? around with
      | some place => o.key = keyAt place
      | none => path.first?.map Segment.text = some o.key

section

variable {keyAt : Path → String} {owner : Option Owner} {around : List Enclosure} {path : Path}

theorem located_root : Located keyAt none [] Path.root := rfl

theorem Located.of_first? {path' : Path} (h : Located keyAt owner around path)
    (hfirst : ∀ segment, path.first? = some segment → path'.first? = some segment) :
    Located keyAt owner around path' := by
  unfold Located at *
  cases owner with
  | none => exact h
  | some o =>
    obtain ⟨haround, hcollects, hkey⟩ := h
    refine ⟨haround, hcollects, ?_⟩
    cases hinner : innermost? around with
    | some place =>
      rw [hinner] at hkey
      exact hkey
    | none =>
      rw [hinner] at hkey
      obtain ⟨segment, hsegment, htext⟩ := Option.map_eq_some_iff.mp hkey
      simp [hfirst segment hsegment, htext]

theorem Located.key (h : Located keyAt owner around path) (name : String) :
    Located keyAt owner around (path.key name) :=
  h.of_first? fun _ => Path.first?_key

theorem Located.index (h : Located keyAt owner around path) (position : Nat) :
    Located keyAt owner around (path.index position) :=
  h.of_first? fun _ => Path.first?_index

theorem Located.key_eq_owner {o : Owner} (h : Located keyAt (some o) around path) (part : Json) :
    o.key = Visit.owner keyAt ⟨path, part, around⟩ := by
  obtain ⟨-, -, hkey⟩ := h
  unfold Visit.owner
  cases hinner : innermost? around with
  | some place =>
    rw [hinner] at hkey
    exact hkey
  | none =>
    rw [hinner] at hkey
    obtain ⟨segment, hsegment, htext⟩ := Option.map_eq_some_iff.mp hkey
    simp [Path.firstText, hsegment, htext]

/-- Inside a component the component itself is the owner. -/
theorem located_component (name : String) :
    Located keyAt (some (.component (keyAt path) name)) (.component path :: around) path :=
  ⟨by simp, rfl, by simp [innermost?, Owner.key]⟩

end

end Extraction

end Blueprint
