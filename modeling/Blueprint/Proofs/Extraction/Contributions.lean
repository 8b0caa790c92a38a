import Blueprint.Proofs.Document.Visits
import Blueprint.Proofs.Extraction.Fields
import Blueprint.Graph.Basic
import Blueprint.Key

/-!
# `Blueprint/Proofs/Extraction/Contributions.lean` — what a part puts into the graph

A walk builds the graph by side effects. Here the graph is taken apart again by the parts of the
document: each visit draws a key or not, opens a node or not, makes an edge or not, and is a result
of its top-level field or not. Every one of these is a function of the visit alone, once it is known
which key the component at each place has (`keyAt`), so that the graph of a document can be written
down as lists over its visits.

`assigned` says which keys those are: they are derived in the order of the visits, each with what
the ones before it have left of the tokens.
-/

set_option autoImplicit false

namespace Blueprint

/-- The text of the first step, empty at the root. -/
def Path.firstText (path : Path) : String :=
  match path.first? with
  | some segment => segment.text
  | none => ""

/-! ## Values -/

namespace Json

mutual

/-- The value of a part: markers, components and calls point to nodes, all else stays. -/
def reading (keyAt : Path → String) : Json → Path → Value
  | .null, _ => .null
  | .bool value, _ => .bool value
  | .number value, _ => .number value
  | .string text, _ =>
    match Marker.find? text with
    | some (.key key) => .reference key
    | _ => .string text
  | .array items, path => .sequence (readingItems keyAt items path 0)
  | .object members, path =>
    match objectShape members with
    | .component => .reference (keyAt path)
    | .call =>
      .call (textOf Field.callTarget members) (textOf Field.callName members)
        (readingParams keyAt members path)
    | .methodBlock => .mapping (readingBlock keyAt members path)
    | .mapping => .mapping (readingMembers keyAt members path)

def readingItems (keyAt : Path → String) : List Json → Path → Nat → List Value
  | [], _, _ => []
  | item :: rest, path, position =>
    reading keyAt item (path.index position) :: readingItems keyAt rest path (position + 1)

def readingMembers (keyAt : Path → String) :
    List (String × Json) → Path → List (String × Value)
  | [], _ => []
  | (name, member) :: rest, path =>
    (name, reading keyAt member (path.key name)) :: readingMembers keyAt rest path

def readingBlock (keyAt : Path → String) : List (String × Json) → Path → List (String × Value)
  | [], _ => []
  | (name, .object inner) :: rest, path =>
    (name,
      if name = Field.params then .mapping (readingMembers keyAt inner (path.key name))
      else reading keyAt (.object inner) (path.key name)) :: readingBlock keyAt rest path
  | (name, member) :: rest, path =>
    (name, reading keyAt member (path.key name)) :: readingBlock keyAt rest path

/-- The arguments of a component or a call with the members. -/
def readingParams (keyAt : Path → String) : List (String × Json) → Path → List (String × Value)
  | [], _ => []
  | (name, member) :: rest, path =>
    if name = Field.params then
      match member with
      | .object params => readingMembers keyAt params (path.key Field.params)
      | _ => []
    else readingParams keyAt rest path

end

/-- The method arguments of a component with the members. -/
def readingMethodArgs (keyAt : Path → String) (members : List (String × Json)) (path : Path) :
    List Value :=
  match get? Field.methodArgs members with
  | some (.array items) => readingItems keyAt items (path.key Field.methodArgs) 0
  | _ => []

variable {keyAt : Path → String} {path : Path}

theorem readingBlock_params (inner rest : List (String × Json)) :
    readingBlock keyAt ((Field.params, .object inner) :: rest) path =
      (Field.params, .mapping (readingMembers keyAt inner (path.key Field.params))) ::
        readingBlock keyAt rest path := by
  simp [readingBlock]

theorem readingBlock_plain {name : String} {member : Json} (rest : List (String × Json))
    (plain : name = Field.params → ∀ inner, member ≠ .object inner) :
    readingBlock keyAt ((name, member) :: rest) path =
      (name, reading keyAt member (path.key name)) :: readingBlock keyAt rest path := by
  cases member with
  | object inner =>
    have hname : name ≠ Field.params := fun hname => plain hname inner rfl
    simp [readingBlock, hname]
  | _ => simp [readingBlock]

theorem readingParams_of_vacant {members : List (String × Json)}
    (h : Vacant Field.params members) : readingParams keyAt members path = [] := by
  induction members with
  | nil => simp [readingParams]
  | cons head rest ih =>
    obtain ⟨name, member⟩ := head
    unfold Vacant at h ih
    rw [get?] at h
    by_cases hname : name = Field.params
    · simp only [hname, if_true] at h
      rcases h with h | h <;> cases h
      simp [readingParams, hname]
    · simp only [hname, if_false] at h
      cases member <;> simpa [readingParams, hname] using ih h

theorem readingParams_of_get? {members params : List (String × Json)}
    (h : get? Field.params members = some (.object params)) :
    readingParams keyAt members path =
      readingMembers keyAt params (path.key Field.params) := by
  induction members with
  | nil => exact absurd h (by simp [get?])
  | cons head rest ih =>
    obtain ⟨name, member⟩ := head
    rw [get?] at h
    by_cases hname : name = Field.params
    · simp only [hname, if_true] at h
      cases h
      simp [readingParams, hname]
    · simp only [hname, if_false] at h
      cases member <;> simpa [readingParams, hname] using ih h

end Json

/-! ## Nodes -/

/-- A key, and whether it belongs to a component or to an entry. -/
inductive Origin where
  | component (key : String)
  | entry (key : String)
deriving DecidableEq, Repr

def Origin.key : Origin → String
  | .component key => key
  | .entry key => key

namespace Visit

/-- The name that a marker or a call gives to the node it needs. -/
def request? (visit : Visit) : Option String :=
  match visit.part.role with
  | .marker key => some key
  | .call members => some (Json.textOf Field.callTarget members)
  | _ => none

/-- A marker or a call with no component and no call around it is a result. -/
def isResult (visit : Visit) : Bool := visit.around.isEmpty && visit.request?.isSome

/-- The top-level field whose entry holds a visit as a result. -/
def field? (visit : Visit) : Option String :=
  if visit.isResult then some visit.path.firstText else none

variable (keyAt : Path → String)

/-- The component of a visit. -/
def component? (visit : Visit) : Option Component :=
  match visit.part.role with
  | .component members => some
      { key := keyAt visit.path
        module := Json.textOf Field.module members
        callable := Json.callable? members
        params := Json.readingParams keyAt members visit.path
        methodArgs := Json.readingMethodArgs keyAt members visit.path
        name := visit.path.lastText
        path := visit.path }
  | _ => none

/-- The node that is in the table from this visit on, unless it was before. -/
def origin? (visit : Visit) : Option Origin :=
  match visit.part.role with
  | .component _ => some (.component (keyAt visit.path))
  | _ => if visit.isResult then some (.entry visit.path.firstText) else none

/-- The value of a visit, if it is a result under a top-level field. -/
def result? (field : String) (visit : Visit) : Option Value :=
  if visit.isResult ∧ visit.path.firstText = field then some (visit.part.reading keyAt visit.path)
  else none

/-! ## Edges -/

/-- The node that a visit needs, as the document calls it. A component is needed by what is around
it. -/
def needs? (visit : Visit) : Option String :=
  match visit.part.role with
  | .component _ => if visit.around.isEmpty then none else some (keyAt visit.path)
  | _ => visit.request?

/-- The node to which a visit belongs: the innermost component around it, or the entry of its
top-level field. -/
def owner (visit : Visit) : String :=
  match innermost? visit.around with
  | some path => keyAt path
  | none => visit.path.firstText

/-- The edge of a visit, before names of fields are resolved. -/
def edge? (visit : Visit) : Option Edge :=
  (visit.needs? keyAt).map fun dependency => ⟨dependency, visit.owner keyAt, visit.path⟩

theorem filterMap_singleton {α : Type} (contribution? : Visit → Option α) (visit : Visit) :
    [visit].filterMap contribution? = (contribution? visit).toList := by
  rw [List.filterMap_eq_flatMap_toList, List.flatMap_singleton]

theorem result?_eq_none {keyAt : Path → String} {visit : Visit} (h : visit.around ≠ [])
    (field : String) : visit.result? keyAt field = none := by
  simp [result?, isResult, h]

theorem filterMap_result?_eq_nil {keyAt : Path → String} {visits : List Visit}
    (h : ∀ visit ∈ visits, visit.around ≠ []) (field : String) :
    visits.filterMap (result? keyAt field) = [] :=
  List.filterMap_eq_nil_iff.mpr fun visit hvisit => result?_eq_none (h visit hvisit) field

/-! ## Keys -/

variable {σ : Type} (source : KeySource σ)

/-- The key that a component draws, and what is left of the tokens. -/
def drawn (visit : Visit) (keys : σ) : Option String × σ :=
  match visit.part.role with
  | .component members =>
    let (key, keys) := deriveKey source (Json.text? Field.objectKey members)
      ((Json.callable? members).map Callable.name) visit.path keys
    (some key, keys)
  | _ => (none, keys)

/-- What is left of the tokens after some visits. -/
def remaining : List Visit → σ → σ
  | [], keys => keys
  | visit :: rest, keys => remaining rest (visit.drawn source keys).2

/-- The keys of the components among some visits, with their places. -/
def assigned : List Visit → σ → List (Path × String)
  | [], _ => []
  | visit :: rest, keys =>
    ((visit.drawn source keys).1.map (visit.path, ·)).toList ++
      assigned rest (visit.drawn source keys).2

theorem remaining_append (first later : List Visit) (keys : σ) :
    remaining source (first ++ later) keys =
      remaining source later (remaining source first keys) := by
  induction first generalizing keys with
  | nil => rfl
  | cons visit rest ih => exact ih _

theorem assigned_append (first later : List Visit) (keys : σ) :
    assigned source (first ++ later) keys =
      assigned source first keys ++ assigned source later (remaining source first keys) := by
  induction first generalizing keys with
  | nil => rfl
  | cons visit rest ih => simp [assigned, remaining, ih]

theorem assigned_sublist (visits : List Visit) (keys : σ) :
    ((assigned source visits keys).map Prod.fst).Sublist (visits.map path) := by
  induction visits generalizing keys with
  | nil => exact List.Sublist.slnil
  | cons visit rest ih =>
    rw [assigned, List.map_append, List.map_cons]
    cases (visit.drawn source keys).1 with
    | none => exact (ih _).cons _
    | some key => exact (ih _).cons_cons _

/-- The keys that are drawn at places are those that `keyAt` says. -/
def Named (visits : List Visit) (keys : σ) : Prop :=
  ∀ place ∈ assigned source visits keys, keyAt place.1 = place.2

theorem named_append {keyAt : Path → String} {source : KeySource σ} {first later : List Visit}
    {keys : σ} :
    Named keyAt source (first ++ later) keys ↔
      Named keyAt source first keys ∧
        Named keyAt source later (remaining source first keys) := by
  unfold Named
  rw [assigned_append]
  exact List.forall_mem_append

/-! ## Markers and calls -/

section

variable {keyAt : Path → String} {visit : Visit} {dependency : String}
  (h : visit.request? = some dependency)

include h

theorem isResult_of_request : visit.isResult = visit.around.isEmpty := by
  simp [isResult, h]

theorem needs?_of_request : visit.needs? keyAt = some dependency := by
  cases hrole : visit.part.role <;> simp_all [request?, needs?]

theorem component?_of_request : visit.component? keyAt = none := by
  cases hrole : visit.part.role <;> simp_all [request?, component?]

theorem origin?_of_request : visit.origin? keyAt =
    if visit.around.isEmpty then some (.entry visit.path.firstText) else none := by
  cases hrole : visit.part.role <;> simp_all [request?, origin?, isResult]

theorem drawn_of_request (source : KeySource σ) (keys : σ) :
    visit.drawn source keys = (none, keys) := by
  cases hrole : visit.part.role <;> simp_all [request?, drawn]

end

end Visit

end Blueprint
