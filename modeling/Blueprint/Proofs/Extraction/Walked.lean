import Blueprint.Proofs.Extraction.Steps

/-!
# `Blueprint/Proofs/Extraction/Walked.lean` — the successful walks, as a relation

The walk is six functions that call each other, each of them a chain of steps that may fail. What a
*successful* walk does is one inductive relation, with a rule for each thing that a part of a
document can be: `Walked source part path owner before yield after`. The rules hold the facts that
the chains establish on the way (which shape, which owner, that a node does not need itself), so a
property of every extraction is an induction with one named case for each kind of part, and no `do`
block is opened for it.

`walk_eq_ok_iff` says that the relation is the walk: nothing else succeeds, and everything that the
rules allow does.
-/

set_option autoImplicit false

namespace Blueprint.Extraction

/-- What is walked: a value, or a list of values in one of the roles that lists have. -/
inductive Part where
  | value (document : Json)
  | items (items : List Json) (position : Nat)
  | members (members : List (String × Json))
  | block (members : List (String × Json))
  | params (members : List (String × Json))
  | methodArgs (members : List (String × Json))

/-- What a walk gives. -/
inductive Yield where
  | value (value : Value)
  | items (values : List Value)
  | entries (entries : List (String × Value))

variable {σ : Type}

/-- A part at a path, under an owner, is walked from one state to another. -/
inductive Walked (source : KeySource σ) :
    Part → Path → Option Owner → State σ → Yield → State σ → Prop
  | null {path : Path} {owner : Option Owner} {s : State σ} :
      Walked source (.value .null) path owner s (.value .null) s
  | bool {value : Bool} {path : Path} {owner : Option Owner} {s : State σ} :
      Walked source (.value (.bool value)) path owner s (.value (.bool value)) s
  | number {value : Number} {path : Path} {owner : Option Owner} {s : State σ} :
      Walked source (.value (.number value)) path owner s (.value (.number value)) s
  | plainText {text : String} {path : Path} {owner : Option Owner} {s : State σ}
      (plain : Marker.find? text = none) :
      Walked source (.value (.string text)) path owner s (.value (.string text)) s
  | marker {text key : String} {path : Path} {owner : Option Owner} {s s₁ : State σ} {found : Owner}
      (marks : Marker.find? text = some (.key key)) (opened : Opened owner path s found s₁)
      (other : key ≠ found.key) :
      Walked source (.value (.string text)) path owner s (.value (.reference key))
        ((s₁.linked key found path).attached found (.reference key))
  | array {items : List Json} {path : Path} {owner : Option Owner} {s s' : State σ}
      {values : List Value}
      (walked : Walked source (.items items 0) path owner s (.items values) s') :
      Walked source (.value (.array items)) path owner s (.value (.sequence values)) s'
  | component {members : List (String × Json)} {path : Path} {owner : Option Owner}
      {s s₁ s₂ s₃ : State σ} {key : String} {params : List (String × Value)}
      {methodArgs : List Value}
      (shape : Json.objectShape members = .component)
      (entered : Entered source members path owner s key s₁)
      (first : Walked source (.params members) path (some (.component key path.lastText)) s₁
        (.entries params) s₂)
      (second : Walked source (.methodArgs members) path (some (.component key path.lastText)) s₂
        (.items methodArgs) s₃) :
      Walked source (.value (.object members)) path owner s (.value (.reference key))
        (s₃.filled key params methodArgs)
  | call {members : List (String × Json)} {path : Path} {owner : Option Owner}
      {s s₁ s₂ : State σ} {found : Owner} {target method : String}
      {params : List (String × Value)}
      (shape : Json.objectShape members = .call)
      (callee : callee members path = .ok (target, method))
      (opened : Opened owner path s found s₁) (other : target ≠ found.key)
      (walked : Walked source (.params members) path (some found.insideCall)
        (s₁.linked target found path) (.entries params) s₂) :
      Walked source (.value (.object members)) path owner s (.value (.call target method params))
        (s₂.attached found (.call target method params))
  | methodBlock {members : List (String × Json)} {path : Path} {owner : Option Owner}
      {s s' : State σ} {entries : List (String × Value)}
      (shape : Json.objectShape members = .methodBlock)
      (walked : Walked source (.block members) path owner s (.entries entries) s') :
      Walked source (.value (.object members)) path owner s (.value (.mapping entries)) s'
  | mapping {members : List (String × Json)} {path : Path} {owner : Option Owner}
      {s s' : State σ} {entries : List (String × Value)}
      (shape : Json.objectShape members = .mapping)
      (walked : Walked source (.members members) path owner s (.entries entries) s') :
      Walked source (.value (.object members)) path owner s (.value (.mapping entries)) s'
  | itemsNil {position : Nat} {path : Path} {owner : Option Owner} {s : State σ} :
      Walked source (.items [] position) path owner s (.items []) s
  | itemsCons {item : Json} {rest : List Json} {position : Nat} {path : Path}
      {owner : Option Owner} {s s₁ s₂ : State σ} {value : Value} {values : List Value}
      (first : Walked source (.value item) (path.index position) owner s (.value value) s₁)
      (later : Walked source (.items rest (position + 1)) path owner s₁ (.items values) s₂) :
      Walked source (.items (item :: rest) position) path owner s (.items (value :: values)) s₂
  | membersNil {path : Path} {owner : Option Owner} {s : State σ} :
      Walked source (.members []) path owner s (.entries []) s
  | membersCons {name : String} {member : Json} {rest : List (String × Json)} {path : Path}
      {owner : Option Owner} {s s₁ s₂ : State σ} {value : Value}
      {entries : List (String × Value)}
      (first : Walked source (.value member) (path.key name) owner s (.value value) s₁)
      (later : Walked source (.members rest) path owner s₁ (.entries entries) s₂) :
      Walked source (.members ((name, member) :: rest)) path owner s
        (.entries ((name, value) :: entries)) s₂
  | blockNil {path : Path} {owner : Option Owner} {s : State σ} :
      Walked source (.block []) path owner s (.entries []) s
  /-- The arguments in a block are walked one by one, whatever their names. -/
  | blockParams {inner rest : List (String × Json)} {path : Path} {owner : Option Owner}
      {s s₁ s₂ : State σ} {arguments entries : List (String × Value)}
      (first : Walked source (.members inner) (path.key Field.params) owner s
        (.entries arguments) s₁)
      (later : Walked source (.block rest) path owner s₁ (.entries entries) s₂) :
      Walked source (.block ((Field.params, .object inner) :: rest)) path owner s
        (.entries ((Field.params, .mapping arguments) :: entries)) s₂
  | blockCons {name : String} {member : Json} {rest : List (String × Json)} {path : Path}
      {owner : Option Owner} {s s₁ s₂ : State σ} {value : Value}
      {entries : List (String × Value)}
      (plain : name = Field.params → ∀ inner, member ≠ .object inner)
      (first : Walked source (.value member) (path.key name) owner s (.value value) s₁)
      (later : Walked source (.block rest) path owner s₁ (.entries entries) s₂) :
      Walked source (.block ((name, member) :: rest)) path owner s
        (.entries ((name, value) :: entries)) s₂
  | noParams {members : List (String × Json)} {path : Path} {owner : Owner} {s : State σ}
      (none : Json.get? Field.params members = none ∨
        Json.get? Field.params members = some .null) :
      Walked source (.params members) path (some owner) s (.entries []) s
  | someParams {members params : List (String × Json)} {path : Path} {owner : Owner}
      {s s' : State σ} {entries : List (String × Value)}
      (found : Json.get? Field.params members = some (.object params))
      (walked : Walked source (.members params) (path.key Field.params) (some owner) s
        (.entries entries) s') :
      Walked source (.params members) path (some owner) s (.entries entries) s'
  | noMethodArgs {members : List (String × Json)} {path : Path} {owner : Owner} {s : State σ}
      (none : Json.get? Field.methodArgs members = none) :
      Walked source (.methodArgs members) path (some owner) s (.items []) s
  | someMethodArgs {members : List (String × Json)} {items : List Json} {path : Path}
      {owner : Owner} {s s' : State σ} {values : List Value}
      (found : Json.get? Field.methodArgs members = some (.array items))
      (walked : Walked source (.items items 0) (path.key Field.methodArgs) (some owner) s
        (.items values) s') :
      Walked source (.methodArgs members) path (some owner) s (.items values) s'

/-! ## The functions, by the cases of the relation -/

section

variable {source : KeySource σ}

theorem walkBlock_params {inner rest : List (String × Json)} {path : Path}
    {owner : Option Owner} :
    walkBlock source ((Field.params, .object inner) :: rest) path owner = (do
      let arguments ← walkMembers source inner (path.key Field.params) owner
      let entries ← walkBlock source rest path owner
      return (Field.params, .mapping arguments) :: entries) := by
  simp only [walkBlock, if_pos, pure_bind]

theorem walkBlock_cons {name : String} {member : Json} {rest : List (String × Json)} {path : Path}
    {owner : Option Owner} (plain : name = Field.params → ∀ inner, member ≠ .object inner) :
    walkBlock source ((name, member) :: rest) path owner = (do
      let value ← walk source member (path.key name) owner
      let entries ← walkBlock source rest path owner
      return (name, value) :: entries) := by
  cases member with
  | object inner =>
    have hname : name ≠ Field.params := fun hname => plain hname inner rfl
    simp only [walkBlock, if_neg hname]
  | _ => simp only [walkBlock]

theorem walkParams_skip {name : String} {member : Json} {rest : List (String × Json)} {path : Path}
    {owner : Owner} (hname : name ≠ Field.params) :
    walkParams source ((name, member) :: rest) path owner =
      walkParams source rest path owner := by
  cases member <;> exact if_neg hname

theorem walkMethodArgs_skip {name : String} {member : Json} {rest : List (String × Json)}
    {path : Path} {owner : Owner} (hname : name ≠ Field.methodArgs) :
    walkMethodArgs source ((name, member) :: rest) path owner =
      walkMethodArgs source rest path owner := by
  cases member <;> exact if_neg hname

theorem walkParams_eq (members : List (String × Json)) (path : Path) (owner : Owner) :
    walkParams source members path owner =
      match Json.get? Field.params members with
      | none => pure []
      | some .null => pure []
      | some (.object params) => walkMembers source params (path.key Field.params) (some owner)
      | some _ => refuse (path.key Field.params) .paramsNotMapping := by
  induction members with
  | nil => rfl
  | cons head rest ih =>
    obtain ⟨name, member⟩ := head
    by_cases hname : name = Field.params
    · cases member <;> simp [walkParams, Json.get?, hname]
    · rw [walkParams_skip hname, Json.get?, if_neg hname]
      exact ih

theorem walkMethodArgs_eq (members : List (String × Json)) (path : Path) (owner : Owner) :
    walkMethodArgs source members path owner =
      match Json.get? Field.methodArgs members with
      | none => pure []
      | some (.array items) => walkItems source items (path.key Field.methodArgs) 0 (some owner)
      | some _ => refuse (path.key Field.methodArgs) .methodArgsNotArray := by
  induction members with
  | nil => rfl
  | cons head rest ih =>
    obtain ⟨name, member⟩ := head
    by_cases hname : name = Field.methodArgs
    · cases member <;> simp [walkMethodArgs, Json.get?, hname]
    · rw [walkMethodArgs_skip hname, Json.get?, if_neg hname]
      exact ih

/-! ## Every successful walk is in the relation -/

mutual

theorem Walked.of_walk : ∀ (document : Json) {path : Path} {owner : Option Owner}
    {before after : State σ} {value : Value},
    walk source document path owner before = (.ok value, after) →
      Walked source (.value document) path owner before (.value value) after
  | .null, _, _, _, _, _, h => by
    simp only [walk] at h
    obtain ⟨rfl, rfl⟩ := Step.pure_eq_ok_iff.mp h
    exact .null
  | .bool _, _, _, _, _, _, h => by
    simp only [walk] at h
    obtain ⟨rfl, rfl⟩ := Step.pure_eq_ok_iff.mp h
    exact .bool
  | .number _, _, _, _, _, _, h => by
    simp only [walk] at h
    obtain ⟨rfl, rfl⟩ := Step.pure_eq_ok_iff.mp h
    exact .number
  | .string text, path, owner, before, after, value, h => by
    simp only [walk] at h
    cases hfind : Marker.find? text with
    | none =>
      simp only [hfind] at h
      obtain ⟨rfl, rfl⟩ := Step.pure_eq_ok_iff.mp h
      exact .plainText hfind
    | some marker =>
      cases marker with
      | malformed inner => simp only [hfind] at h; exact absurd h refuse_ne_ok
      | key key =>
        simp only [hfind] at h
        obtain ⟨found, _, hfound, h⟩ := Step.bind_eq_ok_iff.mp h
        obtain ⟨_, _, hlink, h⟩ := Step.bind_eq_ok_iff.mp h
        obtain ⟨hother, rfl⟩ := link_eq_ok_iff.mp hlink
        rw [Step.bind_of_ok (attach_eq _ _)] at h
        obtain ⟨rfl, rfl⟩ := Step.pure_eq_ok_iff.mp h
        exact .marker hfind (Opened.of_ownerOrEntry hfound) hother
  | .array items, path, owner, before, after, value, h => by
    simp only [walk] at h
    obtain ⟨values, _, hitems, h⟩ := Step.bind_eq_ok_iff.mp h
    obtain ⟨rfl, rfl⟩ := Step.pure_eq_ok_iff.mp h
    exact .array (Walked.of_walkItems items hitems)
  | .object members, path, owner, before, after, value, h => by
    simp only [walk] at h
    cases hshape : Json.objectShape members with
    | component =>
      simp only [hshape] at h
      obtain ⟨key, _, henter, h⟩ := Step.bind_eq_ok_iff.mp h
      obtain ⟨params, _, hparams, h⟩ := Step.bind_eq_ok_iff.mp h
      obtain ⟨methodArgs, _, hmethodArgs, h⟩ := Step.bind_eq_ok_iff.mp h
      rw [Step.bind_of_ok (fill_eq _ _ _)] at h
      obtain ⟨rfl, rfl⟩ := Step.pure_eq_ok_iff.mp h
      exact .component hshape (enter_eq_ok_iff.mp henter) (Walked.of_walkParams members hparams)
        (Walked.of_walkMethodArgs members hmethodArgs)
    | call =>
      simp only [hshape] at h
      obtain ⟨⟨target, method⟩, _, hcallee, h⟩ := Step.bind_eq_ok_iff.mp h
      obtain ⟨hcallee, rfl⟩ := Step.lift_eq_ok_iff.mp hcallee
      obtain ⟨found, _, hfound, h⟩ := Step.bind_eq_ok_iff.mp h
      obtain ⟨_, _, hlink, h⟩ := Step.bind_eq_ok_iff.mp h
      obtain ⟨hother, rfl⟩ := link_eq_ok_iff.mp hlink
      obtain ⟨params, _, hparams, h⟩ := Step.bind_eq_ok_iff.mp h
      rw [Step.bind_of_ok (attach_eq _ _)] at h
      obtain ⟨rfl, rfl⟩ := Step.pure_eq_ok_iff.mp h
      exact .call hshape (by assumption) (Opened.of_ownerOrEntry hfound) hother
        (Walked.of_walkParams members hparams)
    | methodBlock =>
      simp only [hshape] at h
      obtain ⟨entries, _, hentries, h⟩ := Step.bind_eq_ok_iff.mp h
      obtain ⟨rfl, rfl⟩ := Step.pure_eq_ok_iff.mp h
      exact .methodBlock hshape (Walked.of_walkBlock members hentries)
    | mapping =>
      simp only [hshape] at h
      obtain ⟨entries, _, hentries, h⟩ := Step.bind_eq_ok_iff.mp h
      obtain ⟨rfl, rfl⟩ := Step.pure_eq_ok_iff.mp h
      exact .mapping hshape (Walked.of_walkMembers members hentries)

theorem Walked.of_walkItems : ∀ (items : List Json) {path : Path} {position : Nat}
    {owner : Option Owner} {before after : State σ} {values : List Value},
    walkItems source items path position owner before = (.ok values, after) →
      Walked source (.items items position) path owner before (.items values) after
  | [], _, _, _, _, _, _, h => by
    simp only [walkItems] at h
    obtain ⟨rfl, rfl⟩ := Step.pure_eq_ok_iff.mp h
    exact .itemsNil
  | item :: rest, _, _, _, _, _, _, h => by
    simp only [walkItems] at h
    obtain ⟨value, _, hfirst, h⟩ := Step.bind_eq_ok_iff.mp h
    obtain ⟨values, _, hlater, h⟩ := Step.bind_eq_ok_iff.mp h
    obtain ⟨rfl, rfl⟩ := Step.pure_eq_ok_iff.mp h
    exact .itemsCons (Walked.of_walk item hfirst) (Walked.of_walkItems rest hlater)

theorem Walked.of_walkMembers : ∀ (members : List (String × Json)) {path : Path}
    {owner : Option Owner} {before after : State σ} {entries : List (String × Value)},
    walkMembers source members path owner before = (.ok entries, after) →
      Walked source (.members members) path owner before (.entries entries) after
  | [], _, _, _, _, _, h => by
    simp only [walkMembers] at h
    obtain ⟨rfl, rfl⟩ := Step.pure_eq_ok_iff.mp h
    exact .membersNil
  | (name, member) :: rest, _, _, _, _, _, h => by
    simp only [walkMembers] at h
    obtain ⟨value, _, hfirst, h⟩ := Step.bind_eq_ok_iff.mp h
    obtain ⟨entries, _, hlater, h⟩ := Step.bind_eq_ok_iff.mp h
    obtain ⟨rfl, rfl⟩ := Step.pure_eq_ok_iff.mp h
    exact .membersCons (Walked.of_walk member hfirst) (Walked.of_walkMembers rest hlater)

theorem Walked.of_walkBlock : ∀ (members : List (String × Json)) {path : Path}
    {owner : Option Owner} {before after : State σ} {entries : List (String × Value)},
    walkBlock source members path owner before = (.ok entries, after) →
      Walked source (.block members) path owner before (.entries entries) after
  | [], _, _, _, _, _, h => by
    simp only [walkBlock] at h
    obtain ⟨rfl, rfl⟩ := Step.pure_eq_ok_iff.mp h
    exact .blockNil
  | (name, member) :: rest, _, _, _, _, _, h => by
    -- an object of arguments is the only member that is not walked as a value
    by_cases hobject : name = Field.params ∧ ∃ inner, member = .object inner
    · obtain ⟨rfl, inner, rfl⟩ := hobject
      rw [walkBlock_params] at h
      obtain ⟨arguments, _, hfirst, h⟩ := Step.bind_eq_ok_iff.mp h
      obtain ⟨entries, _, hlater, h⟩ := Step.bind_eq_ok_iff.mp h
      obtain ⟨rfl, rfl⟩ := Step.pure_eq_ok_iff.mp h
      exact .blockParams (Walked.of_walkMembers inner hfirst) (Walked.of_walkBlock rest hlater)
    · have hplain : name = Field.params → ∀ inner, member ≠ .object inner :=
        fun hname inner hmember => hobject ⟨hname, inner, hmember⟩
      rw [walkBlock_cons hplain] at h
      obtain ⟨value, _, hfirst, h⟩ := Step.bind_eq_ok_iff.mp h
      obtain ⟨entries, _, hlater, h⟩ := Step.bind_eq_ok_iff.mp h
      obtain ⟨rfl, rfl⟩ := Step.pure_eq_ok_iff.mp h
      exact .blockCons hplain (Walked.of_walk member hfirst) (Walked.of_walkBlock rest hlater)

theorem Walked.of_walkParams : ∀ (members : List (String × Json)) {path : Path}
    {owner : Owner} {before after : State σ} {entries : List (String × Value)},
    walkParams source members path owner before = (.ok entries, after) →
      Walked source (.params members) path (some owner) before (.entries entries) after
  | [], _, _, _, _, _, h => by
    simp only [walkParams] at h
    obtain ⟨rfl, rfl⟩ := Step.pure_eq_ok_iff.mp h
    exact .noParams (Or.inl rfl)
  | (name, member) :: rest, _, _, _, _, _, h => by
    by_cases hname : name = Field.params
    · cases member with
      | null =>
        simp only [walkParams, if_pos hname] at h
        obtain ⟨rfl, rfl⟩ := Step.pure_eq_ok_iff.mp h
        exact .noParams (Or.inr (by simp only [Json.get?, if_pos hname]))
      | object params =>
        simp only [walkParams, if_pos hname] at h
        exact .someParams (by simp only [Json.get?, if_pos hname])
          (Walked.of_walkMembers params h)
      | _ =>
        simp only [walkParams, if_pos hname] at h
        exact absurd h refuse_ne_ok
    · rw [walkParams_skip hname] at h
      have hskip : Json.get? Field.params ((name, member) :: rest) =
          Json.get? Field.params rest := by simp only [Json.get?, if_neg hname]
      cases Walked.of_walkParams rest h with
      | noParams none => exact .noParams (hskip ▸ none)
      | someParams found walked => exact .someParams (hskip ▸ found) walked

theorem Walked.of_walkMethodArgs : ∀ (members : List (String × Json)) {path : Path}
    {owner : Owner} {before after : State σ} {values : List Value},
    walkMethodArgs source members path owner before = (.ok values, after) →
      Walked source (.methodArgs members) path (some owner) before (.items values) after
  | [], _, _, _, _, _, h => by
    simp only [walkMethodArgs] at h
    obtain ⟨rfl, rfl⟩ := Step.pure_eq_ok_iff.mp h
    exact .noMethodArgs rfl
  | (name, member) :: rest, _, _, _, _, _, h => by
    by_cases hname : name = Field.methodArgs
    · cases member with
      | array items =>
        simp only [walkMethodArgs, if_pos hname] at h
        exact .someMethodArgs (by simp only [Json.get?, if_pos hname])
          (Walked.of_walkItems items h)
      | _ =>
        simp only [walkMethodArgs, if_pos hname] at h
        exact absurd h refuse_ne_ok
    · rw [walkMethodArgs_skip hname] at h
      have hskip : Json.get? Field.methodArgs ((name, member) :: rest) =
          Json.get? Field.methodArgs rest := by simp only [Json.get?, if_neg hname]
      cases Walked.of_walkMethodArgs rest h with
      | noMethodArgs none => exact .noMethodArgs (hskip ▸ none)
      | someMethodArgs found walked => exact .someMethodArgs (hskip ▸ found) walked

end

/-! ## Everything in the relation is a successful walk -/

/-- The function for a kind of part, run from one state, gives the yield and the other state. -/
def Runs (source : KeySource σ) :
    Part → Path → Option Owner → State σ → Yield → State σ → Prop
  | .value document, path, owner, s, .value value, s' =>
    walk source document path owner s = (.ok value, s')
  | .items items position, path, owner, s, .items values, s' =>
    walkItems source items path position owner s = (.ok values, s')
  | .members members, path, owner, s, .entries entries, s' =>
    walkMembers source members path owner s = (.ok entries, s')
  | .block members, path, owner, s, .entries entries, s' =>
    walkBlock source members path owner s = (.ok entries, s')
  | .params members, path, some owner, s, .entries entries, s' =>
    walkParams source members path owner s = (.ok entries, s')
  | .methodArgs members, path, some owner, s, .items values, s' =>
    walkMethodArgs source members path owner s = (.ok values, s')
  | _, _, _, _, _, _ => False

theorem Walked.runs {part : Part} {path : Path} {owner : Option Owner} {before after : State σ}
    {yield : Yield} (h : Walked source part path owner before yield after) :
    Runs source part path owner before yield after := by
  induction h with
  | null | bool | number | itemsNil | membersNil | blockNil => exact rfl
  | plainText plain =>
    simp only [Runs, walk, plain]
    rfl
  | marker marks opened other =>
    simp only [Runs, walk, marks]
    refine Step.bind_eq_ok_iff.mpr ⟨_, _, opened.ownerOrEntry_eq, ?_⟩
    refine Step.bind_eq_ok_iff.mpr ⟨(), _, link_eq_ok_iff.mpr ⟨other, rfl⟩, ?_⟩
    exact Step.bind_eq_ok_iff.mpr ⟨(), _, attach_eq _ _, rfl⟩
  | array _ ih =>
    simp only [Runs, walk]
    exact Step.bind_eq_ok_iff.mpr ⟨_, _, ih, rfl⟩
  | component shape entered _ _ ih₁ ih₂ =>
    simp only [Runs, walk, shape]
    refine Step.bind_eq_ok_iff.mpr ⟨_, _, enter_eq_ok_iff.mpr entered, ?_⟩
    refine Step.bind_eq_ok_iff.mpr ⟨_, _, ih₁, ?_⟩
    refine Step.bind_eq_ok_iff.mpr ⟨_, _, ih₂, ?_⟩
    exact Step.bind_eq_ok_iff.mpr ⟨(), _, fill_eq _ _ _, rfl⟩
  | call shape callee opened other _ ih =>
    simp only [Runs, walk, shape]
    refine Step.bind_eq_ok_iff.mpr ⟨_, _, Step.lift_eq_ok_iff.mpr ⟨callee, rfl⟩, ?_⟩
    refine Step.bind_eq_ok_iff.mpr ⟨_, _, opened.ownerOrEntry_eq, ?_⟩
    refine Step.bind_eq_ok_iff.mpr ⟨(), _, link_eq_ok_iff.mpr ⟨other, rfl⟩, ?_⟩
    refine Step.bind_eq_ok_iff.mpr ⟨_, _, ih, ?_⟩
    exact Step.bind_eq_ok_iff.mpr ⟨(), _, attach_eq _ _, rfl⟩
  | methodBlock shape _ ih | mapping shape _ ih =>
    simp only [Runs, walk, shape]
    exact Step.bind_eq_ok_iff.mpr ⟨_, _, ih, rfl⟩
  | itemsCons _ _ ih₁ ih₂ =>
    simp only [Runs, walkItems]
    refine Step.bind_eq_ok_iff.mpr ⟨_, _, ih₁, ?_⟩
    exact Step.bind_eq_ok_iff.mpr ⟨_, _, ih₂, rfl⟩
  | membersCons _ _ ih₁ ih₂ =>
    simp only [Runs, walkMembers]
    refine Step.bind_eq_ok_iff.mpr ⟨_, _, ih₁, ?_⟩
    exact Step.bind_eq_ok_iff.mpr ⟨_, _, ih₂, rfl⟩
  | blockParams _ _ ih₁ ih₂ =>
    simp only [Runs, walkBlock_params]
    refine Step.bind_eq_ok_iff.mpr ⟨_, _, ih₁, ?_⟩
    exact Step.bind_eq_ok_iff.mpr ⟨_, _, ih₂, rfl⟩
  | blockCons plain _ _ ih₁ ih₂ =>
    simp only [Runs, walkBlock_cons plain]
    refine Step.bind_eq_ok_iff.mpr ⟨_, _, ih₁, ?_⟩
    exact Step.bind_eq_ok_iff.mpr ⟨_, _, ih₂, rfl⟩
  | noParams none =>
    simp only [Runs, walkParams_eq]
    rcases none with hnone | hnone <;> rw [hnone] <;> rfl
  | someParams found _ ih =>
    simp only [Runs, walkParams_eq, found]
    exact ih
  | noMethodArgs none =>
    simp only [Runs, walkMethodArgs_eq, none]
    rfl
  | someMethodArgs found _ ih =>
    simp only [Runs, walkMethodArgs_eq, found]
    exact ih

/-- The relation is the walk. -/
theorem walk_eq_ok_iff {document : Json} {path : Path} {owner : Option Owner}
    {before after : State σ} {value : Value} :
    walk source document path owner before = (.ok value, after) ↔
      Walked source (.value document) path owner before (.value value) after :=
  ⟨Walked.of_walk document, Walked.runs⟩

end

end Blueprint.Extraction
