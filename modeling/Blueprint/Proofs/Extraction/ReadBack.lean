import Blueprint.Graph.Flat
import Blueprint.Proofs.Document.Marker
import Blueprint.Proofs.Json.Distinct
import Blueprint.Proofs.Extraction.Agreement

/-!
# `Blueprint/Proofs/Extraction/ReadBack.lean` — values that are read as they were written

A value is written into a flat document and walked again, by another extraction, under another
owner and at another path. Not every value comes back: a mapping may look like a component, a text
may hold a marker, a name may repeat. Those that a walk *yields* do, and the reason is spread over
the rules of the walk: a mapping is yielded where the names are those of a mapping, a text where it
holds no marker, and so on.

So the property is stated for a part and a yield at once, `ReadsBack`, and it is shown to be closed
under the rules of the walk, each rule of `Walked` with a rule of `ReadsBack` beside it. Nothing is
said about what such values look like, and nothing has to be.

References are the one exception. A reference is written as a marker whatever its key, and it comes
back only if the key is a word. Both halves are in the definition: words come back (`again`), and
whatever comes back has words only (`legible`).
-/

set_option autoImplicit false

namespace Blueprint

/-! ## Markers of a value -/

namespace Value

mutual

/-- The keys that a value writes as markers: those of its references. The target of a call is not
among them, since a call writes it as plain text. -/
def markers : Value → List String
  | .reference key => [key]
  | .call _ _ params => markersEntries params
  | .sequence items => markersItems items
  | .mapping entries => markersEntries entries
  | _ => []

/-- The markers of a list of values. -/
def markersItems : List Value → List String
  | [] => []
  | item :: rest => markers item ++ markersItems rest

/-- The markers of the values of entries. -/
def markersEntries : List (String × Value) → List String
  | [] => []
  | (_, value) :: rest => markers value ++ markersEntries rest

end

theorem names_toDocumentPairs (entries : List (String × Value)) :
    (toDocumentPairs entries).map Prod.fst = entries.map Prod.fst := by
  induction entries with
  | nil => simp [toDocumentPairs]
  | cons entry rest ih => simp [toDocumentPairs, ih]

theorem names_renameEntries (naming : String → String) (entries : List (String × Value)) :
    (renameEntries naming entries).map Prod.fst = entries.map Prod.fst := by
  induction entries with
  | nil => simp [renameEntries]
  | cons entry rest ih => simp [renameEntries, ih]

end Value

namespace Json

theorem has_eq (name : String) (members : List (String × Json)) :
    has name members = (members.map Prod.fst).any (· = name) := by
  unfold has
  rw [List.any_map]
  rfl

theorem objectShape_congr {a b : List (String × Json)} (h : a.map Prod.fst = b.map Prod.fst) :
    objectShape a = objectShape b := by
  simp only [objectShape, isComponent, isCall, isMethodBlock, has_eq, h]

theorem Distinct.of_get? {name : String} {members : List (String × Json)} {value : Json}
    (hmembers : DistinctMembers members) (h : get? name members = some value) :
    value.Distinct := by
  induction members with
  | nil => exact absurd h (by simp [get?])
  | cons head rest ih =>
    obtain ⟨n, v⟩ := head
    rw [get?] at h
    split at h
    · cases h
      exact hmembers.1
    · exact ih hmembers.2 h

end Json

namespace Extraction

namespace Yield

/-- The markers in a yield. -/
def markers : Yield → List String
  | .value v => v.markers
  | .items vs => Value.markersItems vs
  | .entries es => Value.markersEntries es

/-- Every marker in the yield is a word. -/
def Legible (yield : Yield) : Prop := ∀ key ∈ yield.markers, Marker.isWord key.toList = true

/-- The yield with every node it points to renamed. -/
def rename (naming : String → String) : Yield → Yield
  | .value v => .value (v.rename naming)
  | .items vs => .items (Value.renameItems naming vs)
  | .entries es => .entries (Value.renameEntries naming es)

theorem legible_nil {yield : Yield} (h : yield.markers = []) : yield.Legible := by
  intro key hkey
  rw [h] at hkey
  exact absurd hkey (by simp)

theorem legible_append {whole first later : Yield}
    (h : whole.markers = first.markers ++ later.markers) :
    whole.Legible ↔ first.Legible ∧ later.Legible := by
  unfold Legible
  rw [h, List.forall_mem_append]

end Yield

variable {σ : Type} {source : KeySource σ}

/-! ## Reading back, and the rules of the walk -/

/-- Walked under an owner that collects nothing, the part gives the yield again, unless one of its
markers is no word or the owner is needed; and whatever it gives has words for markers. Neither
touches the table. -/
structure ReadsBack (source : KeySource σ) (part : Part) (yield : Yield) : Prop where
  again : yield.Legible → ∀ (path : Path) (owner : Owner) (s : State σ),
    owner.collects = false → owner.key ∉ yield.references →
      ∃ s', Walked source part path (some owner) s yield s' ∧
        s'.table = s.table ∧ s'.keys = s.keys
  legible : ∀ {path : Path} {owner : Owner} {s s' : State σ} {other : Yield},
    owner.collects = false → Walked source part path (some owner) s other s' →
      other.Legible ∧ s'.table = s.table

namespace ReadsBack

/-- A part that gives one yield without markers, and leaves the state as it is. -/
theorem constant {part : Part} {yield : Yield} (hmarkers : yield.markers = [])
    (hbuild : ∀ (path : Path) (owner : Owner) (s : State σ),
      Walked source part path (some owner) s yield s)
    (hsplit : ∀ {path : Path} {owner : Owner} {s s' : State σ} {other : Yield},
      Walked source part path (some owner) s other s' → other = yield ∧ s' = s) :
    ReadsBack source part yield where
  again _ path owner s _ _ := ⟨s, hbuild path owner s, rfl, rfl⟩
  legible _ hwalked := by
    obtain ⟨rfl, rfl⟩ := hsplit hwalked
    exact ⟨Yield.legible_nil hmarkers, rfl⟩

/-- A part that is walked by walking another. -/
theorem wrap {inner whole : Part} {yield wrapped : Yield} (step : Path → Path)
    (h : ReadsBack source inner yield) (hmarkers : wrapped.markers = yield.markers)
    (hreferences : wrapped.references = yield.references)
    (hbuild : ∀ {path : Path} {owner : Owner} {s s' : State σ},
      Walked source inner (step path) (some owner) s yield s' →
        Walked source whole path (some owner) s wrapped s')
    (hsplit : ∀ {path : Path} {owner : Owner} {s s' : State σ} {other : Yield},
      Walked source whole path (some owner) s other s' →
        ∃ unwrapped, other.markers = unwrapped.markers ∧
          Walked source inner (step path) (some owner) s unwrapped s') :
    ReadsBack source whole wrapped where
  again hlegible path owner s hcollects hspared := by
    unfold Yield.Legible at hlegible
    rw [hmarkers] at hlegible
    rw [hreferences] at hspared
    obtain ⟨s', hwalked, htable, hkeys⟩ := h.again hlegible (step path) owner s hcollects hspared
    exact ⟨s', hbuild hwalked, htable, hkeys⟩
  legible hcollects hwalked := by
    obtain ⟨unwrapped, hsame, hinner⟩ := hsplit hwalked
    unfold Yield.Legible
    rw [hsame]
    exact h.legible hcollects hinner

/-- A part that is walked by walking one part, at a path further down, and then another. -/
theorem both {first later whole : Part} {y₁ y₂ yield : Yield} (step : Path → Path)
    (h₁ : ReadsBack source first y₁) (h₂ : ReadsBack source later y₂)
    (hmarkers : yield.markers = y₁.markers ++ y₂.markers)
    (hreferences : yield.references = y₁.references ++ y₂.references)
    (hbuild : ∀ {path : Path} {owner : Owner} {s s₁ s₂ : State σ},
      Walked source first (step path) (some owner) s y₁ s₁ →
        Walked source later path (some owner) s₁ y₂ s₂ →
          Walked source whole path (some owner) s yield s₂)
    (hsplit : ∀ {path : Path} {owner : Owner} {s s₂ : State σ} {other : Yield},
      Walked source whole path (some owner) s other s₂ →
        ∃ z₁ z₂ s₁, other.markers = z₁.markers ++ z₂.markers ∧
          Walked source first (step path) (some owner) s z₁ s₁ ∧
          Walked source later path (some owner) s₁ z₂ s₂) :
    ReadsBack source whole yield where
  again hlegible path owner s hcollects hspared := by
    obtain ⟨hlegible₁, hlegible₂⟩ := (Yield.legible_append hmarkers).mp hlegible
    rw [hreferences, List.mem_append, not_or] at hspared
    obtain ⟨s₁, hfirst, htable₁, hkeys₁⟩ :=
      h₁.again hlegible₁ (step path) owner s hcollects hspared.1
    obtain ⟨s₂, hlater, htable₂, hkeys₂⟩ := h₂.again hlegible₂ path owner s₁ hcollects hspared.2
    exact ⟨s₂, hbuild hfirst hlater, htable₂.trans htable₁, hkeys₂.trans hkeys₁⟩
  legible hcollects hwalked := by
    obtain ⟨z₁, z₂, s₁, hsame, hfirst, hlater⟩ := hsplit hwalked
    obtain ⟨hlegible₁, htable₁⟩ := h₁.legible hcollects hfirst
    obtain ⟨hlegible₂, htable₂⟩ := h₂.legible hcollects hlater
    exact ⟨(Yield.legible_append hsame).mpr ⟨hlegible₁, hlegible₂⟩, htable₂.trans htable₁⟩

theorem null : ReadsBack source (.value .null) (.value .null) := by
  refine constant rfl (fun _ _ _ => .null) fun hwalked => ?_
  cases hwalked
  exact ⟨rfl, rfl⟩

theorem bool (b : Bool) : ReadsBack source (.value (.bool b)) (.value (.bool b)) := by
  refine constant rfl (fun _ _ _ => .bool) fun hwalked => ?_
  cases hwalked
  exact ⟨rfl, rfl⟩

theorem number (n : Number) : ReadsBack source (.value (.number n)) (.value (.number n)) := by
  refine constant rfl (fun _ _ _ => .number) fun hwalked => ?_
  cases hwalked
  exact ⟨rfl, rfl⟩

theorem plainText {text : String} (plain : Marker.find? text = none) :
    ReadsBack source (.value (.string text)) (.value (.string text)) := by
  refine constant rfl (fun _ _ _ => .plainText plain) fun hwalked => ?_
  cases hwalked with
  | plainText => exact ⟨rfl, rfl⟩
  | marker marks => exact absurd marks (by simp [plain])

theorem reference (key : String) :
    ReadsBack source (.value (.string (Marker.written key))) (.value (.reference key)) where
  again hlegible path owner s hcollects hspared := by
    have hword : Marker.isWord key.toList = true := hlegible key (List.mem_singleton.mpr rfl)
    have hother : key ≠ owner.key := fun hsame => hspared (by simp [← hsame, Yield.references_value,
      Value.references])
    refine ⟨_, .marker (Marker.find?_written hword) (.given owner path s) hother, ?_, ?_⟩
    · rw [State.attached_of_not_collects hcollects]
      rfl
    · simp
  legible hcollects hwalked := by
    cases hwalked with
    | plainText => exact ⟨Yield.legible_nil rfl, rfl⟩
    | marker marks opened other =>
      cases opened with
      | given =>
        rw [State.attached_of_not_collects hcollects]
        refine ⟨fun key hkey => ?_, rfl⟩
        obtain rfl := List.mem_singleton.mp hkey
        exact Marker.isWord_of_find? marks

theorem array {items : List Json} {values : List Value}
    (h : ReadsBack source (.items items 0) (.items values)) :
    ReadsBack source (.value (.array items)) (.value (.sequence values)) := by
  refine wrap id h rfl ?_ .array fun hwalked => ?_
  · rw [Yield.references_value, Value.references, Value.referencesItems_eq]
    rfl
  · cases hwalked with
    | array walked => exact ⟨.items _, rfl, walked⟩

theorem mapping {members : List (String × Json)} {entries : List (String × Value)}
    (shape : Json.objectShape members = .mapping)
    (h : ReadsBack source (.members members) (.entries entries)) :
    ReadsBack source (.value (.object members)) (.value (.mapping entries)) := by
  refine wrap id h rfl ?_ (.mapping shape) fun hwalked => ?_
  · rw [Yield.references_value, Value.references, Value.referencesEntries_eq]
    rfl
  · cases hwalked with
    | mapping _ walked => exact ⟨.entries _, rfl, walked⟩
    | component other | call other | methodBlock other =>
      rw [shape] at other
      exact absurd other (by simp)

theorem methodBlock {members : List (String × Json)} {entries : List (String × Value)}
    (shape : Json.objectShape members = .methodBlock)
    (h : ReadsBack source (.block members) (.entries entries)) :
    ReadsBack source (.value (.object members)) (.value (.mapping entries)) := by
  refine wrap id h rfl ?_ (.methodBlock shape) fun hwalked => ?_
  · rw [Yield.references_value, Value.references, Value.referencesEntries_eq]
    rfl
  · cases hwalked with
    | methodBlock _ walked => exact ⟨.entries _, rfl, walked⟩
    | component other | call other | mapping other =>
      rw [shape] at other
      exact absurd other (by simp)

theorem noParams {members : List (String × Json)} (none : Json.get? Field.params members = none) :
    ReadsBack source (.params members) (.entries []) := by
  refine constant rfl (fun _ _ _ => .noParams (Or.inl none)) fun hwalked => ?_
  cases hwalked with
  | noParams => exact ⟨rfl, rfl⟩
  | someParams found => exact absurd found (by simp [none])

theorem someParams {members params : List (String × Json)} {entries : List (String × Value)}
    (found : Json.get? Field.params members = some (.object params))
    (h : ReadsBack source (.members params) (.entries entries)) :
    ReadsBack source (.params members) (.entries entries) := by
  refine wrap (fun path => path.key Field.params) h rfl rfl (.someParams found) fun hwalked => ?_
  cases hwalked with
  | noParams none => exact absurd none (by simp [found])
  | someParams other walked =>
    cases found.symm.trans other
    exact ⟨_, rfl, walked⟩

theorem noMethodArgs {members : List (String × Json)}
    (none : Json.get? Field.methodArgs members = none) :
    ReadsBack source (.methodArgs members) (.items []) := by
  refine constant rfl (fun _ _ _ => .noMethodArgs none) fun hwalked => ?_
  cases hwalked with
  | noMethodArgs => exact ⟨rfl, rfl⟩
  | someMethodArgs found => exact absurd found (by simp [none])

theorem someMethodArgs {members : List (String × Json)} {items : List Json} {values : List Value}
    (found : Json.get? Field.methodArgs members = some (.array items))
    (h : ReadsBack source (.items items 0) (.items values)) :
    ReadsBack source (.methodArgs members) (.items values) := by
  refine wrap (fun path => path.key Field.methodArgs) h rfl rfl (.someMethodArgs found)
    fun hwalked => ?_
  cases hwalked with
  | noMethodArgs none => exact absurd none (by simp [found])
  | someMethodArgs other walked =>
    cases found.symm.trans other
    exact ⟨_, rfl, walked⟩

theorem itemsNil (position : Nat) : ReadsBack source (.items [] position) (.items []) := by
  refine constant rfl (fun _ _ _ => .itemsNil) fun hwalked => ?_
  cases hwalked
  exact ⟨rfl, rfl⟩

theorem itemsCons {item : Json} {rest : List Json} {position : Nat} {value : Value}
    {values : List Value} (h₁ : ReadsBack source (.value item) (.value value))
    (h₂ : ReadsBack source (.items rest (position + 1)) (.items values)) :
    ReadsBack source (.items (item :: rest) position) (.items (value :: values)) := by
  refine both (fun path => path.index position) h₁ h₂ rfl ?_ .itemsCons fun hwalked => ?_
  · rw [Yield.references_items_cons, Yield.references_value]
  · cases hwalked with
    | itemsCons first later => exact ⟨_, _, _, rfl, first, later⟩

theorem membersNil : ReadsBack source (.members []) (.entries []) := by
  refine constant rfl (fun _ _ _ => .membersNil) fun hwalked => ?_
  cases hwalked
  exact ⟨rfl, rfl⟩

theorem membersCons {name : String} {member : Json} {rest : List (String × Json)} {value : Value}
    {entries : List (String × Value)} (h₁ : ReadsBack source (.value member) (.value value))
    (h₂ : ReadsBack source (.members rest) (.entries entries)) :
    ReadsBack source (.members ((name, member) :: rest)) (.entries ((name, value) :: entries)) := by
  refine both (fun path => path.key name) h₁ h₂ rfl ?_ .membersCons fun hwalked => ?_
  · rw [Yield.references_entries_cons, Yield.references_value]
  · cases hwalked with
    | membersCons first later => exact ⟨_, _, _, rfl, first, later⟩

theorem blockNil : ReadsBack source (.block []) (.entries []) := by
  refine constant rfl (fun _ _ _ => .blockNil) fun hwalked => ?_
  cases hwalked
  exact ⟨rfl, rfl⟩

theorem blockParams {inner rest : List (String × Json)}
    {arguments entries : List (String × Value)}
    (h₁ : ReadsBack source (.members inner) (.entries arguments))
    (h₂ : ReadsBack source (.block rest) (.entries entries)) :
    ReadsBack source (.block ((Field.params, .object inner) :: rest))
      (.entries ((Field.params, .mapping arguments) :: entries)) := by
  refine both (fun path => path.key Field.params) h₁ h₂ rfl ?_ .blockParams fun hwalked => ?_
  · rw [Yield.references_entries_cons, Value.references, Value.referencesEntries_eq]
    rfl
  · cases hwalked with
    | blockParams first later => exact ⟨_, _, _, rfl, first, later⟩
    | blockCons plain => exact absurd rfl (plain rfl inner)

theorem blockCons {name : String} {member : Json} {rest : List (String × Json)} {value : Value}
    {entries : List (String × Value)}
    (plain : name = Field.params → ∀ inner, member ≠ .object inner)
    (h₁ : ReadsBack source (.value member) (.value value))
    (h₂ : ReadsBack source (.block rest) (.entries entries)) :
    ReadsBack source (.block ((name, member) :: rest)) (.entries ((name, value) :: entries)) := by
  refine both (fun path => path.key name) h₁ h₂ rfl ?_ (.blockCons plain) fun hwalked => ?_
  · rw [Yield.references_entries_cons, Yield.references_value]
  · cases hwalked with
    | blockParams => exact absurd rfl (plain rfl _)
    | blockCons _ first later => exact ⟨_, _, _, rfl, first, later⟩

end ReadsBack

/-! ## Calls -/

/-- The members with which a call is written. -/
def callMembers (target method : String) (params : List (String × Json)) :
    List (String × Json) :=
  [(Field.callTarget, .string target), (Field.callName, .string method),
    (Field.params, .object params)]

section

variable (target method : String) (params : List (String × Json))

theorem objectShape_callMembers : Json.objectShape (callMembers target method params) = .call := by
  have hnames : (callMembers target method params).map Prod.fst =
      (callMembers "" "" []).map Prod.fst := rfl
  rw [Json.objectShape_congr hnames]
  decide

theorem callee_callMembers (path : Path) :
    callee (callMembers target method params) path = .ok (target, method) := by
  rfl

end

/-- The arguments of a call are walked under the owner of the call. -/
theorem ReadsBack.call {target method : String} {params : List (String × Json)}
    {entries : List (String × Value)}
    (h : ReadsBack source (.members params) (.entries entries)) :
    ReadsBack source (.value (.object (callMembers target method params)))
      (.value (.call target method entries)) := by
  have hparams : ReadsBack source (.params (callMembers target method params))
      (.entries entries) := .someParams rfl h
  constructor
  · intro hlegible path owner s hcollects hspared
    rw [Yield.references_value, Value.references_call, List.mem_cons, not_or] at hspared
    obtain ⟨s', hwalked, htable, hkeys⟩ := hparams.again hlegible path owner.insideCall
      (s.linked target owner path) owner.insideCall_collects (owner.insideCall_key ▸ hspared.2)
    refine ⟨_, .call (objectShape_callMembers target method params)
      (callee_callMembers target method params path) (.given owner path s) (Ne.symm hspared.1)
      hwalked, ?_, ?_⟩
    · rw [State.attached_of_not_collects hcollects, htable, State.linked_table]
    · rw [State.attached_keys, hkeys, State.linked_keys]
  · intro path owner s s' other hcollects hwalked
    cases hwalked with
    | call _ _ opened _ walked =>
      cases opened with
      | given =>
        obtain ⟨hlegible, htable⟩ := hparams.legible owner.insideCall_collects walked
        rw [State.attached_of_not_collects hcollects]
        exact ⟨hlegible, htable⟩
    | component shape | methodBlock shape | mapping shape =>
      rw [objectShape_callMembers] at shape
      exact absurd shape (by simp)

/-! ## What a walk yields reads back -/

/-- No object in the part repeats a name. -/
def Part.Distinct : Part → Prop
  | .value document => document.Distinct
  | .items list _ => Json.DistinctItems list
  | .members list | .block list | .params list | .methodArgs list => Json.DistinctMembers list

/-- The part as which the yield of a part is written. Arguments lose the object that held them, and
are members and items like any others. -/
def Part.rewritten : Part → Yield → Part
  | .items _ position, .items vs => .items (Value.toDocumentItems vs) position
  | .block _, .entries es => .block (Value.toDocumentPairs es)
  | _, .value v => .value v.toDocument
  | _, .items vs => .items (Value.toDocumentItems vs) 0
  | _, .entries es => .members (Value.toDocumentPairs es)

namespace Walked

variable {path : Path} {owner : Option Owner} {s s' : State σ}

theorem names_members {members : List (String × Json)} :
    ∀ {s s' : State σ} {entries : List (String × Value)},
      Walked source (.members members) path owner s (.entries entries) s' →
        entries.map Prod.fst = members.map Prod.fst := by
  induction members with
  | nil =>
    intro s s' entries h
    cases h
    rfl
  | cons head rest ih =>
    intro s s' entries h
    cases h with
    | membersCons _ later => rw [List.map_cons, List.map_cons, ih later]

theorem names_block {members : List (String × Json)} :
    ∀ {s s' : State σ} {entries : List (String × Value)},
      Walked source (.block members) path owner s (.entries entries) s' →
        entries.map Prod.fst = members.map Prod.fst := by
  induction members with
  | nil =>
    intro s s' entries h
    cases h
    rfl
  | cons head rest ih =>
    intro s s' entries h
    cases h with
    | blockParams _ later | blockCons _ _ later => rw [List.map_cons, List.map_cons, ih later]

theorem nodup_params {members : List (String × Json)} {entries : List (String × Value)}
    (h : Walked source (.params members) path owner s (.entries entries) s')
    (hdistinct : Json.DistinctMembers members) : (entries.map Prod.fst).Nodup := by
  cases h with
  | noParams => exact List.nodup_nil
  | someParams found walked =>
    rw [walked.names_members]
    exact (Json.Distinct.of_get? hdistinct found).1

/-- Only an object is walked to a value that is written as an object. -/
theorem toDocument_ne_object {document : Json} {value : Value} (naming : String → String)
    (h : Walked source (.value document) path owner s (.value value) s')
    (hplain : ∀ members, document ≠ .object members) (inner : List (String × Json)) :
    (value.rename naming).toDocument ≠ .object inner := by
  cases h with
  | component | call | methodBlock | mapping => exact absurd rfl (hplain _)
  | _ => simp [Value.rename, Value.toDocument]

end Walked

theorem bindAll_toDocumentPairs {entries : List (String × Value)} (naming : String → String)
    (h : (entries.map Prod.fst).Nodup) :
    Json.bindAll (Value.toDocumentPairs (Value.renameEntries naming entries)) =
      Value.toDocumentPairs (Value.renameEntries naming entries) := by
  apply Json.bindAll_of_nodup
  rw [Value.names_toDocumentPairs, Value.names_renameEntries]
  exact h

theorem objectShape_toDocumentPairs {entries : List (String × Value)}
    {members : List (String × Json)} (naming : String → String)
    (h : entries.map Prod.fst = members.map Prod.fst) :
    Json.objectShape (Value.toDocumentPairs (Value.renameEntries naming entries)) =
      Json.objectShape members := by
  apply Json.objectShape_congr
  rw [Value.names_toDocumentPairs, Value.names_renameEntries, h]

/-- Whatever a walk through a document yields reads back, also if its nodes are renamed, and for
every source of keys. -/
theorem Walked.readsBack {τ : Type} (reader : KeySource τ) (naming : String → String) {part : Part}
    {path : Path} {owner : Option Owner} {s s' : State σ} {yield : Yield}
    (h : Walked source part path owner s yield s') (hdistinct : part.Distinct) :
    ReadsBack reader (part.rewritten (yield.rename naming)) (yield.rename naming) := by
  induction h with
  | null => exact .null
  | bool => exact .bool _
  | number => exact .number _
  | plainText plain => exact .plainText plain
  -- a component leaves a reference behind, so it is written as a marker is
  | marker | component => exact .reference _
  | array _ ih => exact .array (ih hdistinct)
  | call shape callee opened other walked ih =>
    have hparams := bindAll_toDocumentPairs naming (walked.nodup_params hdistinct.2)
    show ReadsBack reader (.value (.object (callMembers _ _ (Json.bindAll _)))) _
    rw [hparams]
    exact .call (ih hdistinct.2)
  -- the shape of an object is decided by its names, and the names are kept
  | methodBlock shape walked ih =>
    have hnodup := walked.names_block.symm ▸ hdistinct.1
    show ReadsBack reader (.value (.object (Json.bindAll _))) _
    rw [bindAll_toDocumentPairs naming hnodup]
    exact .methodBlock ((objectShape_toDocumentPairs naming walked.names_block).trans shape)
      (ih hdistinct.2)
  | mapping shape walked ih =>
    have hnodup := walked.names_members.symm ▸ hdistinct.1
    show ReadsBack reader (.value (.object (Json.bindAll _))) _
    rw [bindAll_toDocumentPairs naming hnodup]
    exact .mapping ((objectShape_toDocumentPairs naming walked.names_members).trans shape)
      (ih hdistinct.2)
  | itemsNil => exact .itemsNil _
  | itemsCons _ _ ih₁ ih₂ => exact .itemsCons (ih₁ hdistinct.1) (ih₂ hdistinct.2)
  | membersNil | noParams => exact .membersNil
  | membersCons _ _ ih₁ ih₂ => exact .membersCons (ih₁ hdistinct.1) (ih₂ hdistinct.2)
  | blockNil => exact .blockNil
  | blockParams first _ ih₁ ih₂ =>
    have hnodup := first.names_members.symm ▸ hdistinct.1.1
    show ReadsBack reader (.block ((Field.params, .object (Json.bindAll _)) :: _)) _
    rw [bindAll_toDocumentPairs naming hnodup]
    exact .blockParams (ih₁ hdistinct.1.2) (ih₂ hdistinct.2)
  | blockCons plain first _ ih₁ ih₂ =>
    -- arguments that were not an object are not written as one, so they are not taken apart
    exact .blockCons (fun hname => first.toDocument_ne_object naming (plain hname))
      (ih₁ hdistinct.1) (ih₂ hdistinct.2)
  | noMethodArgs => exact .itemsNil 0
  | someParams found _ ih => exact ih (Json.Distinct.of_get? hdistinct found).2
  | someMethodArgs found _ ih => exact ih (Json.Distinct.of_get? hdistinct found)

end Extraction

end Blueprint
