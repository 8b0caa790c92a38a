import Blueprint.Extraction.State

/-!
# `Blueprint/Extraction/FieldNames.lean` — references by field name

A reference may name the top-level field that holds a component in place of the component's key.
Once the whole document has been walked all keys are known, and such references are pointed at the
key. A key wins over a field of the same name.
-/

set_option autoImplicit false

namespace Blueprint.Extraction

/-- The field of a component that is the whole of a top-level field. -/
def fieldOf? (component : Component) : Option String :=
  match component.path.segments with
  | [.key field] => some field
  | _ => none

/-- The field names that stand for a key: each with the key of the component in that field. -/
def fieldNames (table : Table) : List (String × String) :=
  table.nodes.filterMap fun node =>
    match node with
    | .entry _ => none
    | .component c =>
      match fieldOf? c with
      | none => none
      | some field => if table.contains field then none else some (field, c.key)

/-- The key for which a name stands, if it is a field name, and else the name itself. -/
def resolve (names : List (String × String)) (name : String) : String :=
  (names.lookup name).getD name

variable {σ : Type}

/-- Points an edge at a key. A field name may turn out to be the dependent itself. -/
def resolveEdge (names : List (String × String)) (edge : Edge) : Step σ Edge :=
  match names.lookup edge.dependency with
  | none => pure edge
  | some key =>
    if key = edge.dependent then refuse edge.path (.selfReference key)
    else do
      report (.fieldName edge.dependency key)
      return { edge with dependency := key }

/-- Points the edges, and then the values in the table, at keys. -/
def resolveFieldNames : Step σ Unit := do
  let state ← current
  let names := fieldNames state.table
  let edges ← state.edges.mapM (resolveEdge names)
  update fun state =>
    { state with
      edges
      table := state.table.edit (Node.rename (resolve names)) (Node.key_rename _) }

end Blueprint.Extraction
