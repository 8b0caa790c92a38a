import Blueprint.Proofs.Program.Targets

/-!
# `Blueprint/Proofs/Program/Bindings.lean` — names are bound above their uses

A reference is written as a bare name, and a call starts with one. Placement orders nodes, while a
reader of the program sees lines; this file carries the order of the nodes over to the lines. A value
inside another is written inside it (`Value.Inside.occurs`). What is written of a node is one of the
lines, and the lines come in the order of placement, the results after all of them
(`Graph.exists_lines_below`). So the line that binds a name stands `Above` the one that uses it.

What a name is bound to is a different question. Only a component with a callable binds its key. A
component that is only imported and an entry are nodes as well, so they may be named, and the check
before writing lets them pass. The file ends with a program that has such a name in it.
-/

set_option autoImplicit false

namespace Blueprint

/-! ## Text inside text -/

/-- A piece of text stands somewhere in another. -/
def Occurs (piece text : String) : Prop := ∃ left right, text = left ++ piece ++ right

namespace Occurs

theorem refl (text : String) : Occurs text text := ⟨"", "", by simp⟩

theorem trans {a b c : String} (h₁ : Occurs a b) (h₂ : Occurs b c) : Occurs a c := by
  obtain ⟨left, right, rfl⟩ := h₁
  obtain ⟨left', right', rfl⟩ := h₂
  exact ⟨left' ++ left, right ++ right', by simp [String.append_assoc]⟩

theorem append_left {a b : String} (h : Occurs a b) (start : String) : Occurs a (start ++ b) :=
  h.trans ⟨start, "", by simp⟩

theorem append_right {a b : String} (h : Occurs a b) (rest : String) : Occurs a (b ++ rest) :=
  h.trans ⟨"", rest, by simp⟩

end Occurs

theorem exists_intercalate_cons (separator line : String) (later : List String) :
    ∃ rest, separator.intercalate (line :: later) = line ++ rest := by
  cases later with
  | nil => exact ⟨"", by simp⟩
  | cons next later =>
    exact ⟨separator ++ separator.intercalate (next :: later), by simp [String.append_assoc]⟩

theorem exists_intercalate_append (separator : String) (earlier : List String)
    {later : List String} (h : later ≠ []) :
    ∃ start, separator.intercalate (earlier ++ later) = start ++ separator.intercalate later := by
  cases earlier with
  | nil => exact ⟨"", by simp⟩
  | cons line earlier =>
    exact ⟨_, String.intercalate_append_of_ne_nil (by simp) h⟩

theorem occurs_intercalate (separator : String) {line : String} {lines : List String}
    (h : line ∈ lines) : Occurs line (separator.intercalate lines) := by
  obtain ⟨earlier, later, rfl⟩ := List.append_of_mem h
  obtain ⟨start, hstart⟩ := exists_intercalate_append separator earlier
    (List.cons_ne_nil line later)
  obtain ⟨rest, hrest⟩ := exists_intercalate_cons separator line later
  exact ⟨start, rest, by rw [hstart, hrest, String.append_assoc]⟩

/-! ## Lines above lines -/

/-- Two of the lines, the first of them above the second. -/
def Above (first second : String) (lines : List String) : Prop :=
  ∃ earlier between later, lines = earlier ++ first :: (between ++ second :: later)

theorem above_append {first second : String} {upper lower : List String} (h₁ : first ∈ upper)
    (h₂ : second ∈ lower) : Above first second (upper ++ lower) := by
  obtain ⟨earlier, rest, rfl⟩ := List.append_of_mem h₁
  obtain ⟨between, later, rfl⟩ := List.append_of_mem h₂
  exact ⟨earlier, rest ++ between, later, by simp⟩

/-! ## Uses -/

namespace Value

/-- A value is a part of another, or is that value. -/
inductive Inside (inner : Value) : Value → Prop
  | here : Inside inner inner
  | item {item : Value} {items : List Value} (h : item ∈ items) (inside : Inside inner item) :
      Inside inner (.sequence items)
  | entry {name : String} {value : Value} {entries : List (String × Value)}
      (h : (name, value) ∈ entries) (inside : Inside inner value) : Inside inner (.mapping entries)
  | argument {target method name : String} {value : Value} {params : List (String × Value)}
      (h : (name, value) ∈ params) (inside : Inside inner value) :
      Inside inner (.call target method params)

/-- The node that a reference or a call names. -/
def target? : Value → Option String
  | .reference key => some key
  | .call target _ _ => some target
  | _ => none

theorem mem_referencesEntries {name key : String} {value : Value}
    {entries : List (String × Value)} (h : (name, value) ∈ entries)
    (hkey : key ∈ value.references) :
    key ∈ (entries.map Prod.snd).flatMap references :=
  List.mem_flatMap.mpr ⟨value, List.mem_map_of_mem h, hkey⟩

theorem Inside.mem_references {use value : Value} {key : String} (h : Inside use value)
    (htarget : use.target? = some key) : key ∈ value.references := by
  induction h with
  | here => cases use <;> simp_all [target?, references]
  | item hmem _ ih =>
    rw [references, referencesItems_eq]
    exact List.mem_flatMap.mpr ⟨_, hmem, ih⟩
  | entry hmem _ ih =>
    rw [references, referencesEntries_eq]
    exact mem_referencesEntries hmem ih
  | argument hmem _ ih =>
    rw [references_call]
    exact List.mem_cons_of_mem _ (mem_referencesEntries hmem ih)

theorem expressionItems_eq (items : List Value) (depth : Nat) :
    expressionItems items depth = items.map fun item => item.expression depth := by
  induction items with
  | nil => simp [expressionItems]
  | cons item rest ih => simp [expressionItems, ih]

theorem entryLines_eq (entries : List (String × Value)) (depth : Nat) :
    entryLines entries depth =
      entries.map fun (name, value) => Text.quote name ++ ": " ++ value.expression depth := by
  induction entries with
  | nil => simp [entryLines]
  | cons entry rest ih => simp [entryLines, ih]

theorem argumentLines_eq (params : List (String × Value)) (depth : Nat) :
    argumentLines params depth =
      params.map fun (name, value) => name ++ "=" ++ value.expression depth := by
  induction params with
  | nil => simp [argumentLines]
  | cons entry rest ih => simp [argumentLines, ih]

end Value

theorem occurs_block {line : String} {lines : List String} (h : line ∈ lines)
    (opening closing : String) (depth : Nat) : Occurs line (block opening closing depth lines) := by
  have hindented : Occurs line (tabs depth ++ line) := (Occurs.refl line).append_left _
  have hline := occurs_intercalate ",\n" (List.mem_map_of_mem (f := (tabs depth ++ ·)) h)
  have hne : lines.isEmpty = false := by
    rw [List.isEmpty_eq_false_iff]
    rintro rfl
    cases h
  unfold block
  rw [hne]
  exact ((((hindented.trans hline).append_left _).append_right _).append_right _).append_right _

theorem Value.occurs_arguments {name : String} {value : Value} {params : List (String × Value)}
    (h : (name, value) ∈ params) (depth : Nat) :
    Occurs (value.expression (depth + 1)) (Value.arguments params depth) := by
  rw [Value.arguments, argumentLines_eq]
  exact ((Occurs.refl _).append_left _).trans (occurs_block (List.mem_map_of_mem h) _ _ _)

/-- A value inside another is written inside it. -/
theorem Value.Inside.occurs {use value : Value} (h : Inside use value) :
    ∀ depth, ∃ depth', Occurs (use.expression depth') (value.expression depth) := by
  induction h with
  | here => exact fun depth => ⟨depth, .refl _⟩
  | item hmem _ ih =>
    intro depth
    obtain ⟨depth', hinner⟩ := ih depth
    have hitem := occurs_intercalate ", "
      (List.mem_map_of_mem (f := fun item : Value => item.expression depth) hmem)
    rw [expression, expressionItems_eq]
    exact ⟨depth', ((hinner.trans hitem).append_left _).append_right _⟩
  | entry hmem _ ih =>
    intro depth
    obtain ⟨depth', hinner⟩ := ih (depth + 1)
    rw [expression, entryLines_eq]
    exact ⟨depth', (hinner.append_left _).trans (occurs_block (List.mem_map_of_mem hmem) _ _ _)⟩
  | argument hmem _ ih =>
    intro depth
    obtain ⟨depth', hinner⟩ := ih (depth + 1)
    rw [expression]
    exact ⟨depth', (hinner.trans (occurs_arguments hmem depth)).append_left _⟩

/-! ## The text of a node -/

/-- The line that binds a component to its key. -/
def Component.binding (c : Component) (callable : Callable) : String :=
  c.key ++ " = " ++ callable.name ++ Value.arguments c.params 1

namespace Node

/-- The values that are written: the arguments of a component that is constructed, and the results
of an entry. -/
def rendered : Node → List Value
  | .component c => if c.callable.isSome then c.params.map Prod.snd else []
  | .entry e => e.results

/-- Where the values of a node are written: in the binding of a component, in the item of an
entry. -/
def text : Node → String
  | .component c => (c.callable.map c.binding).getD ""
  | .entry e => e.item

theorem mem_rendered_component {c : Component} {value : Value}
    (h : value ∈ (component c).rendered) :
    ∃ callable, c.callable = some callable ∧ value ∈ c.params.map Prod.snd := by
  simp only [rendered] at h
  split at h
  · rename_i hcallable
    obtain ⟨callable, hcallable⟩ := Option.isSome_iff_exists.mp hcallable
    exact ⟨callable, hcallable, h⟩
  · cases h

theorem mem_written_of_rendered {node : Node} {value : Value} (h : value ∈ node.rendered) :
    value ∈ node.written := by
  cases node with
  | component c =>
    obtain ⟨-, -, hmem⟩ := mem_rendered_component h
    exact hmem
  | entry e => exact h

theorem text_component {c : Component} {callable : Callable} (h : c.callable = some callable) :
    (component c).text = c.binding callable := by
  simp [text, h]

/-- What is used in a rendered value is written in the text of the node. -/
theorem occurs_text {node : Node} {value use : Value} (h : value ∈ node.rendered)
    (huse : use.Inside value) : ∃ depth, Occurs (use.expression depth) node.text := by
  cases node with
  | component c =>
    obtain ⟨callable, hcallable, h⟩ := mem_rendered_component h
    obtain ⟨⟨name, value⟩, hmem, rfl⟩ := List.mem_map.mp h
    obtain ⟨depth, hvalue⟩ := huse.occurs 2
    refine ⟨depth, ?_⟩
    rw [text_component hcallable, Component.binding]
    exact (hvalue.trans (Value.occurs_arguments hmem 1)).append_left _
  | entry e =>
    obtain ⟨depth, hvalue⟩ := huse.occurs 3
    refine ⟨depth, ?_⟩
    have hne : e.results.isEmpty = false := by
      rw [List.isEmpty_eq_false_iff]
      exact List.ne_nil_of_mem h
    have hline := occurs_intercalate ",\n"
      (List.mem_map_of_mem (f := fun value : Value => tabs 2 ++ value.expression 3) h)
    have hitems := (hvalue.append_left (tabs 2)).trans hline
    rw [text, Entry.item, hne]
    exact (((hitems.append_left _).append_right _).append_right _).append_right _

/-- The binding of a component is one of the lines of its node. -/
theorem binding_mem_lines {c : Component} {callable : Callable} (h : c.callable = some callable)
    (settings : Settings) : c.binding callable ∈ (component c).lines settings := by
  simp [lines, Component.lines, h, Component.binding]

end Node

/-! ## The order of the lines -/

namespace Graph

variable {graph : Graph} {before after : List Node} {node : Node}

/-- The item of an entry that was placed is one of the results. -/
theorem item_mem_of_placed {e : Entry} {placed : List Node} (hplaced : .entry e ∈ placed)
    (htable : .entry e ∈ graph.table.nodes) :
    e.item ∈ graph.table.nodes.filterMap (Node.item? placed) := by
  have hamong : isAmong placed e.key = true := isAmong_iff.mpr (List.mem_map_of_mem hplaced)
  refine List.mem_filterMap.mpr ⟨.entry e, htable, ?_⟩
  simp [Node.item?, hamong]

/-- What is written of a node is a line below the lines of the nodes that are placed before it: a
binding among the lines of its own, an item among the results. -/
theorem exists_lines_below (hsplit : graph.placement.placed = before ++ node :: after)
    {value : Value} (hvalue : value ∈ node.rendered) (settings : Settings) :
    ∃ below, graph.lines graph.placement.placed settings =
        settings.head ++ before.flatMap (Node.lines settings) ++ below ∧
      node.text ∈ below := by
  have hplaced : node ∈ graph.placement.placed := by rw [hsplit]; simp
  have hnodes : graph.placement.placed.flatMap (Node.lines settings) =
      before.flatMap (Node.lines settings) ++
        (node.lines settings ++ after.flatMap (Node.lines settings)) := by
    rw [hsplit, List.flatMap_append, List.flatMap_cons]
  refine ⟨node.lines settings ++ after.flatMap (Node.lines settings) ++
    [settings.resultsVariable ++ " = \x7b"] ++
    graph.table.nodes.filterMap (Node.item? graph.placement.placed) ++ ["\x7d"], ?_, ?_⟩
  · unfold lines
    rw [hnodes]
    simp only [List.append_assoc]
  · cases node with
    | component c =>
      obtain ⟨callable, hcallable, -⟩ := Node.mem_rendered_component hvalue
      have hbinding := Node.binding_mem_lines hcallable settings
      rw [Node.text_component hcallable]
      simp only [List.mem_append, hbinding, true_or]
    | entry e =>
      have hitem := item_mem_of_placed hplaced (mem_table_of_placed hplaced)
      simp only [Node.text, List.mem_append, hitem, true_or, or_true]

theorem text_mem_lines (hsplit : graph.placement.placed = before ++ node :: after)
    {value : Value} (hvalue : value ∈ node.rendered) (settings : Settings) :
    node.text ∈ graph.lines graph.placement.placed settings := by
  obtain ⟨below, hlines, htext⟩ := exists_lines_below hsplit hvalue settings
  rw [hlines]
  exact List.mem_append_right _ htext

/-- The binding of a component that is placed before a node is a line above what is written of the
node. -/
theorem above_lines (hsplit : graph.placement.placed = before ++ node :: after)
    {value : Value} (hvalue : value ∈ node.rendered) {c : Component} {callable : Callable}
    (hc : .component c ∈ before) (hcallable : c.callable = some callable) (settings : Settings) :
    Above (c.binding callable) node.text (graph.lines graph.placement.placed settings) := by
  obtain ⟨below, hlines, htext⟩ := exists_lines_below hsplit hvalue settings
  have hbinding : c.binding callable ∈ before.flatMap (Node.lines settings) :=
    List.mem_flatMap.mpr ⟨.component c, hc, Node.binding_mem_lines hcallable settings⟩
  rw [hlines]
  exact above_append (List.mem_append_right _ hbinding) htext

end Graph

/-! ## Programs -/

variable {σ : Type}

/-- A program is made of lines, and every name that is used in a rendered value is used in one of
them. It is the key of a node placed before the node that uses it. If that node is a component with
a callable, then the binding of the name is a line as well, above the one in which it is used. -/
theorem generate_uses_bound (source : KeySource σ) (document : Json) (settings : Settings)
    (keys : σ) (code : String) (h : (generate source document settings keys).code = .ok code) :
    ∃ graph placement, (extract source document keys).graph = .ok graph ∧
      graph.order settings.onCycle = .ok placement ∧
      code = "\n".intercalate (graph.lines placement.placed settings) ∧
      ∀ before node after, placement.placed = before ++ node :: after →
        ∀ value ∈ node.rendered, ∀ use : Value, use.Inside value →
          ∀ key, use.target? = some key →
            (∃ depth, Occurs (use.expression depth) node.text) ∧
            node.text ∈ graph.lines placement.placed settings ∧
            ∃ target ∈ before, target.key = key ∧
              ∀ c callable, target = .component c → c.callable = some callable →
                Above (c.binding callable) node.text (graph.lines placement.placed settings) := by
  obtain ⟨graph, placement, hextract, horder, hprogram⟩ := generate_code_eq_ok_iff.mp h
  have hagrees := Extraction.agrees_of_extract hextract
  rw [Graph.program_eq (Graph.forM_checkTargets_of_order hagrees horder)] at hprogram
  refine ⟨graph, placement, hextract, horder, (Except.ok.inj hprogram).symm, ?_⟩
  obtain ⟨href, rfl, -⟩ := Graph.order_eq_ok_iff.mp horder
  intro before node after hsplit value hvalue use huse key htarget
  have hmem := Graph.mem_before_of_written hagrees href hsplit
    (Node.mem_written_of_rendered hvalue) (huse.mem_references htarget)
  obtain ⟨target, hbefore, hkey⟩ := List.mem_map.mp hmem
  have hline := Graph.text_mem_lines hsplit hvalue settings
  refine ⟨Node.occurs_text hvalue huse, hline, target, hbefore, hkey, ?_⟩
  rintro c callable rfl hcallable
  exact Graph.above_lines hsplit hvalue hbefore hcallable settings

/-- A component with a callable, and a result that names it by its field. -/
def boundDocument : Json := .object
  [("x", .object [("module", .string "m"), ("class_name", .string "Foo")]),
   ("y", .string "\x7bx\x7d")]

def boundCode : String :=
  "from m import Foo\nfoo_x = Foo(\n)\n\n\n\n\nreturns = \x7b\n\t\"y\": [\n\t\tfoo_x\n\t],\n\x7d"

theorem generate_boundDocument :
    (generate KeySource.sequential boundDocument {} 0).code = .ok boundCode := by cbv

theorem generate_uses_bound_sample :
    (generate KeySource.sequential boundDocument {} 0).code = .ok boundCode ∧
    ∃ graph placement, (extract KeySource.sequential boundDocument 0).graph = .ok graph ∧
      graph.order .refuse = .ok placement ∧
      boundCode = "\n".intercalate (graph.lines placement.placed {}) ∧
      ∀ before node after, placement.placed = before ++ node :: after →
        ∀ value ∈ node.rendered, ∀ use : Value, use.Inside value →
          ∀ key, use.target? = some key →
            (∃ depth, Occurs (use.expression depth) node.text) ∧
            node.text ∈ graph.lines placement.placed {} ∧
            ∃ target ∈ before, target.key = key ∧
              ∀ c callable, target = .component c → c.callable = some callable →
                Above (c.binding callable) node.text (graph.lines placement.placed {}) :=
  ⟨generate_boundDocument, generate_uses_bound _ _ _ _ _ generate_boundDocument⟩

/-- A component that is only imported, and a result that names it. -/
def importDocument : Json := .object
  [("os", .object [("module", .string "os"), ("object_key", .string "o")]),
   ("y", .string "\x7bo\x7d")]

/-- The graph of `importDocument`. -/
def importGraph : Graph where
  table :=
    { nodes :=
        [.component ⟨"o", "os", none, [], [], "os", ⟨[.key "os"]⟩⟩,
         .entry ⟨"y", [.reference "o"]⟩]
      indexed := .of_nodup (by decide) }
  edges := [⟨"o", "y", ⟨[.key "y"]⟩⟩]

theorem generate_use_of_import :
    (generate KeySource.sequential importDocument {} 0).code =
      .ok "import os\n\n\n\n\nreturns = \x7b\n\t\"y\": [\n\t\to\n\t],\n\x7d" ∧
    ∃ graph placement, (extract KeySource.sequential importDocument 0).graph = .ok graph ∧
      graph.order ({} : Settings).onCycle = .ok placement ∧
      ∃ before node after, placement.placed = before ++ node :: after ∧
        .reference "o" ∈ node.rendered ∧
        ¬ ∃ c callable, .component c ∈ graph.table.nodes ∧ c.key = "o" ∧
          c.callable = some callable := by
  refine ⟨by cbv, importGraph, ⟨importGraph.table.nodes, []⟩, by cbv, by cbv, ?_⟩
  refine ⟨importGraph.table.nodes.take 1, .entry ⟨"y", [.reference "o"]⟩, [], rfl, ?_, ?_⟩
  · exact List.mem_singleton_self _
  · rintro ⟨c, callable, hmem, -, hcallable⟩
    simp only [importGraph, List.mem_cons, Node.component.injEq, reduceCtorEq, List.not_mem_nil,
      or_false] at hmem
    rw [hmem] at hcallable
    cases hcallable

end Blueprint
