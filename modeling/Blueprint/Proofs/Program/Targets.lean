import Blueprint.Program
import Blueprint.Proofs.Extraction.Agreement
import Blueprint.Proofs.Graph.Placement

/-!
# `Blueprint/Proofs/Program/Targets.lean` — what the program mentions is there

Three stages in a row, and none of them shows its data to the next: extraction leaves references
inside values, ordering looks at edges, and writing looks at values again, in the nodes that were
placed. Since edges and values agree, a reference in a placed node is a prerequisite of that node,
and ordering has placed it before. So the last check before writing never fails, and under either
policy the program mentions nothing that was left out.
-/

set_option autoImplicit false

namespace Blueprint

/-- What is written of a node is part of what it holds. -/
theorem Node.mem_values_of_written {node : Node} {value : Value} (h : value ∈ node.written) :
    value ∈ node.values := by
  cases node with
  | component c => exact List.mem_append_left _ h
  | entry e => exact h

namespace Graph

/-- A reference in a value of a node is a prerequisite of the node. -/
theorem Agrees.precedes {graph : Graph} (hagrees : graph.Agrees) {node : Node}
    (hnode : node ∈ graph.table.nodes) {value : Value} (hvalue : value ∈ node.values)
    {key : String} (hkey : key ∈ value.references) : graph.Precedes key node.key := by
  refine mem_dependenciesOf.mp ?_
  rw [hagrees.references node hnode]
  exact List.mem_flatMap.mpr ⟨value, hvalue, hkey⟩

/-- A reference that is written for a placed node names a node placed before it. -/
theorem mem_before_of_written {graph : Graph} (hagrees : graph.Agrees) (href : graph.Referenced)
    {before after : List Node} {node : Node}
    (hsplit : graph.placement.placed = before ++ node :: after) {value : Value}
    (hvalue : value ∈ node.written) {key : String} (hkey : key ∈ value.references) :
    key ∈ before.map Node.key := by
  have hnode : node ∈ graph.table.nodes := mem_table_of_placed (by rw [hsplit]; simp)
  have hneeded := hagrees.precedes hnode (Node.mem_values_of_written hvalue) hkey
  exact placement_after href hsplit hneeded

theorem checkTargets_eq_ok_iff {table : Table} {node : Node} :
    node.checkTargets table = .ok () ↔
      ∀ value ∈ node.written, ∀ key ∈ value.references, key ∈ table.keys := by
  unfold Node.checkTargets
  cases hfind : (node.written.flatMap Value.references).find? fun key => !table.contains key with
  | none =>
    refine ⟨fun _ value hvalue key hkey => ?_, fun _ => rfl⟩
    have hall := List.find?_eq_none.mp hfind key (List.mem_flatMap.mpr ⟨value, hvalue, hkey⟩)
    exact Table.contains_iff_mem_keys.mp (by simpa using hall)
  | some key =>
    refine ⟨fun h => absurd h (by simp), fun h => ?_⟩
    obtain ⟨value, hvalue, hkey⟩ := List.mem_flatMap.mp (List.mem_of_find?_eq_some hfind)
    have hunknown := List.find?_some hfind
    rw [Table.contains_iff_mem_keys.mpr (h value hvalue key hkey)] at hunknown
    exact absurd hunknown (by simp)

/-- Once a graph whose edges and values agree is ordered, the check before writing passes. -/
theorem forM_checkTargets_of_order {graph : Graph} (hagrees : graph.Agrees) {policy : CyclePolicy}
    {placement : Placement} (horder : graph.order policy = .ok placement) :
    placement.placed.forM (Node.checkTargets graph.table) = .ok () := by
  obtain ⟨href, rfl, -⟩ := order_eq_ok_iff.mp horder
  refine forM_eq_ok_iff.mpr fun node hnode => checkTargets_eq_ok_iff.mpr ?_
  intro value hvalue key hkey
  obtain ⟨before, after, hsplit⟩ := List.append_of_mem hnode
  obtain ⟨needed, hneeded, rfl⟩ :=
    List.mem_map.mp (mem_before_of_written hagrees href hsplit hvalue hkey)
  exact List.mem_map_of_mem (mem_table_of_placed (by rw [hsplit]; simp [hneeded]))

theorem program_eq {graph : Graph} {ordered : List Node}
    (h : ordered.forM (Node.checkTargets graph.table) = .ok ()) (settings : Settings) :
    graph.program ordered settings =
      .ok (String.intercalate "\n" (graph.lines ordered settings)) := by
  unfold program
  rw [h]
  rfl

/-- What is written for a node of the table whose key was placed mentions nothing left out. -/
theorem not_mem_omitted_of_written {graph : Graph} (hagrees : graph.Agrees)
    (href : graph.Referenced) {node : Node} (hnode : node ∈ graph.table.nodes)
    (hplaced : isAmong graph.placement.placed node.key = true) {value : Value}
    (hvalue : value ∈ node.written) {key : String} (hkey : key ∈ value.references) :
    key ∉ graph.placement.omitted.map Node.key := by
  obtain ⟨placed, hmem, hsame⟩ := List.mem_map.mp (isAmong_iff.mp hplaced)
  obtain rfl := Table.eq_of_key_eq (mem_table_of_placed hmem) hnode hsame
  obtain ⟨before, after, hsplit⟩ := List.append_of_mem hmem
  have hbefore := mem_before_of_written hagrees href hsplit hvalue hkey
  intro homitted
  have hplacedKey : key ∈ graph.placement.placed.map Node.key := by
    rw [hsplit, List.map_append]
    exact List.mem_append_left _ hbefore
  exact (List.nodup_append.mp graph.nodup_placement_keys).2.2 key hplacedKey key homitted rfl

end Graph

section

variable {σ : Type} {source : KeySource σ} {document : Json} {settings : Settings} {keys : σ}

theorem generate_code_eq_error_iff {e : Error} :
    (generate source document settings keys).code = .error e ↔
      (extract source document keys).graph = .error e ∨
      ∃ graph, (extract source document keys).graph = .ok graph ∧
        (graph.order settings.onCycle = .error e ∨
          ∃ placement, graph.order settings.onCycle = .ok placement ∧
            graph.program placement.placed settings = .error e) := by
  unfold generate
  cases hextract : (extract source document keys).graph with
  | error e' => simp [hextract]
  | ok graph =>
    cases horder : graph.order settings.onCycle with
    | error e' => simp [hextract, horder]
    | ok placement => simp [hextract, horder]

theorem generate_code_eq_ok_iff {code : String} :
    (generate source document settings keys).code = .ok code ↔
      ∃ graph placement, (extract source document keys).graph = .ok graph ∧
        graph.order settings.onCycle = .ok placement ∧
        graph.program placement.placed settings = .ok code := by
  unfold generate
  cases hextract : (extract source document keys).graph with
  | error e => simp [hextract]
  | ok graph =>
    cases horder : graph.order settings.onCycle with
    | error e => simp [hextract, horder]
    | ok placement => simp [hextract, horder]

end

variable {σ : Type}

/-- Generating a program fails only where extraction or ordering does. When it succeeds, every
reference that is written for a placed node names a node placed strictly before it, and nothing that
is written, in a node or in the results, names a node that was left out. -/
theorem generate_targets_placed (source : KeySource σ) (document : Json) (settings : Settings)
    (keys : σ) :
    (∀ e, (generate source document settings keys).code = .error e →
      (extract source document keys).graph = .error e ∨
        ∃ graph, (extract source document keys).graph = .ok graph ∧
          graph.order settings.onCycle = .error e) ∧
    (∀ graph placement, (extract source document keys).graph = .ok graph →
      graph.order settings.onCycle = .ok placement →
        placement.placed.forM (Node.checkTargets graph.table) = .ok ()) ∧
    ∀ code, (generate source document settings keys).code = .ok code →
      ∃ graph placement, (extract source document keys).graph = .ok graph ∧
        graph.order settings.onCycle = .ok placement ∧
        graph.program placement.placed settings = .ok code ∧
        (∀ before node after, placement.placed = before ++ node :: after →
          ∀ value ∈ node.written, ∀ key ∈ value.references, key ∈ before.map Node.key) ∧
        ∀ node ∈ graph.table.nodes, Graph.isAmong placement.placed node.key = true →
          ∀ value ∈ node.written, ∀ key ∈ value.references,
            key ∉ placement.omitted.map Node.key := by
  have hchecks : ∀ graph placement, (extract source document keys).graph = .ok graph →
      graph.order settings.onCycle = .ok placement →
        placement.placed.forM (Node.checkTargets graph.table) = .ok () :=
    fun graph placement hextract horder =>
      Graph.forM_checkTargets_of_order (Extraction.agrees_of_extract hextract) horder
  refine ⟨fun e herror => ?_, hchecks, fun code hcode => ?_⟩
  · rcases generate_code_eq_error_iff.mp herror with hextract | ⟨graph, hextract, hlater⟩
    · exact Or.inl hextract
    · refine Or.inr ⟨graph, hextract, ?_⟩
      rcases hlater with horder | ⟨placement, horder, hprogram⟩
      · exact horder
      · -- after the checks nothing that is written can fail
        rw [Graph.program_eq (hchecks graph placement hextract horder)] at hprogram
        exact absurd hprogram (by simp)
  · obtain ⟨graph, placement, hextract, horder, hprogram⟩ := generate_code_eq_ok_iff.mp hcode
    have hagrees := Extraction.agrees_of_extract hextract
    obtain ⟨href, rfl, -⟩ := Graph.order_eq_ok_iff.mp horder
    refine ⟨graph, _, hextract, horder, hprogram, ?_, ?_⟩
    · intro before node after hsplit value hvalue key hkey
      exact Graph.mem_before_of_written hagrees href hsplit hvalue hkey
    · intro node hnode hplaced value hvalue key hkey
      exact Graph.not_mem_omitted_of_written hagrees href hnode hplaced hvalue hkey

end Blueprint
