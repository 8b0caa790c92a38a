import Blueprint.Graph.Arena

/-!
# `Blueprint/Graph/Table.lean` — the table of nodes

An arena whose index and nodes agree. So no two nodes have the same key: inserting refuses a key
that is taken, and the only edits are those that keep every key.
-/

set_option autoImplicit false

namespace Blueprint

/-- Nodes with distinct keys, in the order of their insertion. -/
structure Table extends Arena where
  indexed : toArena.Indexed

namespace Table

/-- The table without nodes. -/
def empty : Table := ⟨Arena.empty, Arena.indexed_empty⟩

/-- The table with one more node, last. A key that is taken is refused, with the place of the node
that has it and then the place of the new one. -/
def insert (table : Table) (node : Node) : Except Error Table :=
  match h : table.toArena.insert node with
  | (.error e, _) => .error e
  | (.ok (), grown) => .ok ⟨grown, by simpa [h] using table.indexed.insert node⟩

/-- Edits every node, keeping the keys. -/
def edit (table : Table) (change : Node → Node) (keeps : ∀ node, (change node).key = node.key) :
    Table :=
  ⟨table.toArena.edit change, table.indexed.edit keeps⟩

/-- Edits the node with a key, keeping the key. -/
def editAt (table : Table) (key : String) (change : Node → Node)
    (keeps : ∀ node, (change node).key = node.key) : Table :=
  ⟨table.toArena.editAt key change, table.indexed.editAt keeps key⟩

end Table

end Blueprint
