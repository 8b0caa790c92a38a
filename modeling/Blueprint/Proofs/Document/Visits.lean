import Blueprint.Document.Path
import Blueprint.Document.Shape
import Blueprint.Proofs.Json.Distinct

/-!
# `Blueprint/Proofs/Document/Visits.lean` — the parts of a document, in the order of a walk

Which parts of a document matter, and in which order, can be said without a walk. `Visit.inside`
says it for one level: the items of an array, the members of a mapping, the arguments of a component
or of a call, and after them the method arguments of a component. `Visit.all` repeats it down to the
leaves, every part before what is inside it. No state, no keys and no errors occur here: a document
that is refused has its visits too.

A visit remembers the components and calls around it. That is all that the rest of the theory needs
to know about its surroundings.

The main result, `nodup_paths`, says that a place stands for one part: in a document that repeats no
name, no two visits have the same path.
-/

set_option autoImplicit false

namespace Blueprint

/-! ## The parts inside a part -/

/-- A component or a call around a part. -/
inductive Enclosure where
  | component (path : Path)
  | call
deriving DecidableEq, Repr

/-- The innermost component among those that are around a part. -/
def innermost? (around : List Enclosure) : Option Path :=
  around.findSome? fun enclosure =>
    match enclosure with
    | .component path => some path
    | .call => none

/-- A part of a document at its place, with the components and calls around it, innermost first. -/
structure Visit where
  path : Path
  part : Json
  around : List Enclosure

namespace Visit

variable (path : Path) (around : List Enclosure)

def ofItems (items : List Json) (position : Nat) : List Visit :=
  (items.zipIdx position).map fun (item, index) => ⟨path.index index, item, around⟩

def ofMembers (members : List (String × Json)) : List Visit :=
  members.map fun (name, member) => ⟨path.key name, member, around⟩

/-- A member of a block of method arguments. An object of arguments is not a part of its own: its
members stand for it. -/
def ofBlockMember : String × Json → List Visit
  | (name, .object inner) =>
    if name = Field.params then ofMembers (path.key name) around inner
    else [⟨path.key name, .object inner, around⟩]
  | (name, member) => [⟨path.key name, member, around⟩]

def ofBlock (members : List (String × Json)) : List Visit :=
  members.flatMap (ofBlockMember path around)

/-- The arguments of a component or a call with the members. -/
def ofParams (members : List (String × Json)) : List Visit :=
  match Json.get? Field.params members with
  | some (.object params) => ofMembers (path.key Field.params) around params
  | _ => []

/-- The method arguments of a component with the members. -/
def ofMethodArgs (members : List (String × Json)) : List Visit :=
  match Json.get? Field.methodArgs members with
  | some (.array items) => ofItems (path.key Field.methodArgs) around items 0
  | _ => []

/-- The parts directly inside a part, in order. -/
def inside (visit : Visit) : List Visit :=
  match visit.part with
  | .array items => ofItems visit.path visit.around items 0
  | .object members =>
    match Json.objectShape members with
    | .component =>
      let around := .component visit.path :: visit.around
      ofParams visit.path around members ++ ofMethodArgs visit.path around members
    | .call => ofParams visit.path (.call :: visit.around) members
    | .methodBlock => ofBlock visit.path visit.around members
    | .mapping => ofMembers visit.path visit.around members
  | _ => []

variable {path around}

theorem mem_ofItems {items : List Json} {position : Nat} {visit : Visit}
    (h : visit ∈ ofItems path around items position) :
    ∃ item ∈ items, ∃ index, visit = ⟨path.index index, item, around⟩ := by
  obtain ⟨⟨item, index⟩, hmem, rfl⟩ := List.mem_map.mp h
  exact ⟨item, List.fst_mem_of_mem_zipIdx hmem, index, rfl⟩

theorem mem_ofMembers {members : List (String × Json)} {visit : Visit}
    (h : visit ∈ ofMembers path around members) :
    ∃ name member, (name, member) ∈ members ∧ visit = ⟨path.key name, member, around⟩ := by
  obtain ⟨⟨name, member⟩, hmem, rfl⟩ := List.mem_map.mp h
  exact ⟨name, member, hmem, rfl⟩

theorem ofBlockMember_params (inner : List (String × Json)) :
    ofBlockMember path around (Field.params, .object inner) =
      ofMembers (path.key Field.params) around inner := by
  simp [ofBlockMember]

theorem ofBlockMember_plain {name : String} {member : Json}
    (plain : name = Field.params → ∀ inner, member ≠ .object inner) :
    ofBlockMember path around (name, member) = [⟨path.key name, member, around⟩] := by
  cases member with
  | object inner =>
    have hname : name ≠ Field.params := fun hname => plain hname inner rfl
    simp [ofBlockMember, hname]
  | _ => rfl

end Visit

/-! ## Going down -/

namespace Json

/-- One document is a proper part of another. -/
inductive Below : Json → Json → Prop
  | item {item : Json} {items : List Json} (h : item ∈ items) : Below item (.array items)
  | member {name : String} {member : Json} {members : List (String × Json)}
      (h : (name, member) ∈ members) : Below member (.object members)
  | trans {a b c : Json} (first : Below a b) (later : Below b c) : Below a c

theorem Below.sizeOf_lt {a b : Json} (h : Below a b) : sizeOf a < sizeOf b := by
  induction h with
  | item hmem =>
    have := List.sizeOf_lt_of_mem hmem
    simp only [array.sizeOf_spec]
    omega
  | member hmem =>
    have := List.sizeOf_lt_of_mem hmem
    simp only [object.sizeOf_spec, Prod.mk.sizeOf_spec] at *
    omega
  | trans _ _ ih₁ ih₂ => omega

theorem Below.distinct {a b : Json} (h : Below a b) (hdistinct : b.Distinct) : a.Distinct := by
  induction h with
  | item hmem => exact distinctItems_iff.mp hdistinct _ hmem
  | member hmem => exact distinctMembers_iff.mp hdistinct.2 _ hmem
  | trans _ _ ih₁ ih₂ => exact ih₁ (ih₂ hdistinct)

theorem Below.of_get? {name inner : String} {member : Json}
    {members params : List (String × Json)} (hget : get? name members = some (.object params))
    (hmem : (inner, member) ∈ params) : Below member (.object members) :=
  .trans (.member hmem) (.member (mem_of_get? hget))

end Json

namespace Visit

/-- What a part directly inside another has to do with it. -/
structure Inner (outer inner : Visit) : Prop where
  path : ∃ segment rest, inner.path.segments = outer.path.segments ++ segment :: rest
  below : Json.Below inner.part outer.part
  around : ∃ more, inner.around = more ++ outer.around

variable {outer inner : Visit}

theorem inner_of_mem_ofParams {members : List (String × Json)} {around : List Enclosure}
    (hpart : outer.part = .object members) (haround : ∃ more, around = more ++ outer.around)
    (h : inner ∈ ofParams outer.path around members) : Inner outer inner := by
  unfold ofParams at h
  split at h
  · rename_i params hget
    obtain ⟨name, member, hmem, rfl⟩ := mem_ofMembers h
    exact ⟨⟨.key Field.params, [.key name], by simp [Path.key]⟩,
      hpart ▸ Json.Below.of_get? hget hmem, haround⟩
  · cases h

theorem inner_of_mem_ofMethodArgs {members : List (String × Json)} {around : List Enclosure}
    (hpart : outer.part = .object members) (haround : ∃ more, around = more ++ outer.around)
    (h : inner ∈ ofMethodArgs outer.path around members) : Inner outer inner := by
  unfold ofMethodArgs at h
  split at h
  · rename_i items hget
    obtain ⟨item, hmem, index, rfl⟩ := mem_ofItems h
    refine ⟨⟨.key Field.methodArgs, [.index index], by simp [Path.key, Path.index]⟩, ?_, haround⟩
    exact hpart ▸ .trans (.item hmem) (.member (Json.mem_of_get? hget))
  · cases h

theorem inner_of_mem_ofMembers {members : List (String × Json)}
    (hpart : outer.part = .object members)
    (h : inner ∈ ofMembers outer.path outer.around members) : Inner outer inner := by
  obtain ⟨name, member, hmem, rfl⟩ := mem_ofMembers h
  exact ⟨⟨.key name, [], rfl⟩, hpart ▸ .member hmem, [], rfl⟩

theorem inner_of_mem_ofBlockMember {members : List (String × Json)} {name : String} {member : Json}
    (hpart : outer.part = .object members) (hmem : (name, member) ∈ members)
    (h : inner ∈ ofBlockMember outer.path outer.around (name, member)) : Inner outer inner := by
  by_cases hobject : name = Field.params ∧ ∃ params, member = .object params
  · obtain ⟨rfl, params, rfl⟩ := hobject
    rw [ofBlockMember_params] at h
    obtain ⟨argument, value, hvalue, rfl⟩ := mem_ofMembers h
    exact ⟨⟨.key Field.params, [.key argument], by simp [Path.key]⟩,
      hpart ▸ .trans (.member hvalue) (.member hmem), [], rfl⟩
  · rw [ofBlockMember_plain fun hname params hmember => hobject ⟨hname, params, hmember⟩] at h
    obtain rfl := List.mem_singleton.mp h
    exact ⟨⟨.key name, [], rfl⟩, hpart ▸ .member hmem, [], rfl⟩

theorem inner_of_mem_inside (h : inner ∈ outer.inside) : Inner outer inner := by
  unfold inside at h
  cases hpart : outer.part with
  | array items =>
    simp only [hpart] at h
    obtain ⟨item, hmem, index, rfl⟩ := mem_ofItems h
    exact ⟨⟨.index index, [], rfl⟩, hpart ▸ .item hmem, [], rfl⟩
  | object members =>
    simp only [hpart] at h
    cases hshape : Json.objectShape members with
    | component =>
      simp only [hshape] at h
      rcases List.mem_append.mp h with hparams | hmethodArgs
      · exact inner_of_mem_ofParams hpart ⟨[_], rfl⟩ hparams
      · exact inner_of_mem_ofMethodArgs hpart ⟨[_], rfl⟩ hmethodArgs
    | call =>
      simp only [hshape] at h
      exact inner_of_mem_ofParams hpart ⟨[_], rfl⟩ h
    | methodBlock =>
      simp only [hshape] at h
      obtain ⟨⟨name, member⟩, hmem, hinner⟩ := List.mem_flatMap.mp h
      exact inner_of_mem_ofBlockMember hpart hmem hinner
    | mapping =>
      simp only [hshape] at h
      exact inner_of_mem_ofMembers hpart h
  | _ => simp [hpart] at h

/-- The part and everything inside it, each part before what is inside it. -/
def all (visit : Visit) : List Visit :=
  visit :: visit.inside.attach.flatMap fun inner => inner.1.all
termination_by sizeOf visit.part
decreasing_by exact (inner_of_mem_inside inner.2).below.sizeOf_lt

theorem all_eq (visit : Visit) : visit.all = visit :: visit.inside.flatMap all := by
  rw [all]
  conv_rhs => rw [← List.attach_map_subtype_val visit.inside, List.flatMap_map]

/-- What is handed down from a part to those directly inside it is handed down to all of them. -/
theorem forall_all {P : Visit → Prop}
    (hdown : ∀ outer inner, Inner outer inner → P outer → P inner) :
    ∀ visit : Visit, P visit → ∀ inner ∈ visit.all, P inner := by
  intro visit
  induction visit using all.induct with
  | case1 visit ih =>
    intro hvisit inner hinner
    rw [all_eq] at hinner
    rcases List.mem_cons.mp hinner with rfl | hinner
    · exact hvisit
    · obtain ⟨middle, hmiddle, hinner⟩ := List.mem_flatMap.mp hinner
      have hmiddleP := hdown visit middle (inner_of_mem_inside hmiddle) hvisit
      exact ih ⟨middle, hmiddle⟩ hmiddleP inner hinner

theorem prefix_of_mem_all (h : inner ∈ outer.all) :
    outer.path.segments <+: inner.path.segments := by
  refine forall_all (P := fun visit => outer.path.segments <+: visit.path.segments) ?_ outer
    List.prefix_rfl inner h
  intro middle last hlast hprefix
  obtain ⟨segment, rest, hpath⟩ := hlast.path
  rw [hpath]
  exact hprefix.trans (List.prefix_append _ _)

theorem around_ne_nil_of_mem_all (haround : outer.around ≠ []) (h : inner ∈ outer.all) :
    inner.around ≠ [] := by
  refine forall_all (P := fun visit => visit.around ≠ []) ?_ outer haround inner h
  intro middle last hlast hmiddle
  obtain ⟨more, hmore⟩ := hlast.around
  rw [hmore]
  exact List.append_ne_nil_of_right_ne_nil _ hmiddle

end Visit

/-- Every part of a document that is walked, in the order of the walk. -/
def Json.visits (document : Json) : List Visit := Visit.all ⟨Path.root, document, []⟩

theorem Json.visits_eq (document : Json) :
    document.visits =
      ⟨Path.root, document, []⟩ :: (Visit.inside ⟨Path.root, document, []⟩).flatMap Visit.all :=
  Visit.all_eq _

/-! ## One part at each place -/

/-- The paths go different ways after a common beginning. -/
def Path.Apart (a b : Path) : Prop :=
  ∃ common first second rest rest', first ≠ second ∧
    a.segments = common ++ first :: rest ∧ b.segments = common ++ second :: rest'

theorem Path.Apart.no_common {a b c : Path} (h : a.Apart b) (ha : a.segments <+: c.segments)
    (hb : b.segments <+: c.segments) : False := by
  obtain ⟨common, first, second, rest, rest', hne, hfirst, hsecond⟩ := h
  obtain ⟨tail, htail⟩ := ha
  obtain ⟨tail', htail'⟩ := hb
  rw [hfirst] at htail
  rw [hsecond, ← htail] at htail'
  simp only [List.append_assoc, List.cons_append, List.append_cancel_left_eq,
    List.cons.injEq] at htail'
  exact hne htail'.1.symm

namespace Visit

variable {path : Path} {around : List Enclosure}

theorem apart_ofItems (items : List Json) (position : Nat) :
    (ofItems path around items position).Pairwise fun a b => a.path.Apart b.path := by
  refine List.pairwise_map.mpr ?_
  have hindices : ((items.zipIdx position).map Prod.snd).Nodup := by
    rw [List.zipIdx_map_snd]
    exact List.nodup_range'
  refine (List.pairwise_map.mp hindices).imp ?_
  rintro ⟨item, index⟩ ⟨item', index'⟩ hne
  have hne : Segment.index index ≠ .index index' := fun h => hne (Segment.index.inj h)
  exact ⟨path.segments, _, _, [], [], hne, rfl, rfl⟩

theorem apart_ofMembers {members : List (String × Json)} (h : (members.map Prod.fst).Nodup) :
    (ofMembers path around members).Pairwise fun a b => a.path.Apart b.path := by
  refine List.pairwise_map.mpr ((List.pairwise_map.mp h).imp ?_)
  rintro ⟨name, member⟩ ⟨name', member'⟩ hne
  have hne : Segment.key name ≠ .key name' := fun h => hne (Segment.key.inj h)
  exact ⟨path.segments, _, _, [], [], hne, rfl, rfl⟩

theorem path_of_mem_ofBlockMember {name : String} {member : Json} {visit : Visit}
    (h : visit ∈ ofBlockMember path around (name, member)) :
    ∃ rest, visit.path.segments = path.segments ++ .key name :: rest := by
  by_cases hobject : name = Field.params ∧ ∃ params, member = .object params
  · obtain ⟨rfl, params, rfl⟩ := hobject
    rw [ofBlockMember_params] at h
    obtain ⟨argument, value, -, rfl⟩ := mem_ofMembers h
    exact ⟨[.key argument], by simp [Path.key]⟩
  · rw [ofBlockMember_plain fun hname params hmember => hobject ⟨hname, params, hmember⟩] at h
    obtain rfl := List.mem_singleton.mp h
    exact ⟨[], rfl⟩

theorem apart_ofBlock {members : List (String × Json)} (h : (members.map Prod.fst).Nodup)
    (hdistinct : Json.DistinctMembers members) :
    (ofBlock path around members).Pairwise fun a b => a.path.Apart b.path := by
  refine List.pairwise_flatMap.mpr ⟨?_, (List.pairwise_map.mp h).imp ?_⟩
  · rintro ⟨name, member⟩ hmem
    by_cases hobject : name = Field.params ∧ ∃ params, member = .object params
    · obtain ⟨rfl, params, rfl⟩ := hobject
      rw [ofBlockMember_params]
      exact apart_ofMembers (Json.distinctMembers_iff.mp hdistinct _ hmem).1
    · rw [ofBlockMember_plain fun hname params hmember => hobject ⟨hname, params, hmember⟩]
      exact List.pairwise_singleton _ _
  · rintro ⟨name, member⟩ ⟨name', member'⟩ hne a ha b hb
    have hne : Segment.key name ≠ .key name' := fun h => hne (Segment.key.inj h)
    obtain ⟨rest, hrest⟩ := path_of_mem_ofBlockMember ha
    obtain ⟨rest', hrest'⟩ := path_of_mem_ofBlockMember hb
    exact ⟨path.segments, _, _, rest, rest', hne, hrest, hrest'⟩

theorem apart_ofParams {members : List (String × Json)} (h : Json.DistinctMembers members) :
    (ofParams path around members).Pairwise fun a b => a.path.Apart b.path := by
  unfold ofParams
  split
  · rename_i params hget
    exact apart_ofMembers (Json.distinctMembers_iff.mp h _ (Json.mem_of_get? hget)).1
  · exact List.Pairwise.nil

theorem apart_ofMethodArgs (members : List (String × Json)) :
    (ofMethodArgs path around members).Pairwise fun a b => a.path.Apart b.path := by
  unfold ofMethodArgs
  split
  · exact apart_ofItems _ _
  · exact List.Pairwise.nil

theorem path_of_mem_ofParams {members : List (String × Json)} {visit : Visit}
    (h : visit ∈ ofParams path around members) :
    ∃ rest, visit.path.segments = path.segments ++ .key Field.params :: rest := by
  unfold ofParams at h
  split at h
  · obtain ⟨name, member, -, rfl⟩ := mem_ofMembers h
    exact ⟨[.key name], by simp [Path.key]⟩
  · cases h

theorem path_of_mem_ofMethodArgs {members : List (String × Json)} {visit : Visit}
    (h : visit ∈ ofMethodArgs path around members) :
    ∃ rest, visit.path.segments = path.segments ++ .key Field.methodArgs :: rest := by
  unfold ofMethodArgs at h
  split at h
  · obtain ⟨item, -, index, rfl⟩ := mem_ofItems h
    exact ⟨[.index index], by simp [Path.key, Path.index]⟩
  · cases h

theorem apart_inside {visit : Visit} (h : visit.part.Distinct) :
    visit.inside.Pairwise fun a b => a.path.Apart b.path := by
  unfold inside
  cases hpart : visit.part with
  | array items => exact apart_ofItems _ _
  | object members =>
    rw [hpart] at h
    cases hshape : Json.objectShape members with
    | component =>
      simp only [hshape]
      refine List.pairwise_append.mpr ⟨apart_ofParams h.2, apart_ofMethodArgs _, ?_⟩
      intro a ha b hb
      have hne : Segment.key Field.params ≠ .key Field.methodArgs := by decide
      obtain ⟨rest, hrest⟩ := path_of_mem_ofParams ha
      obtain ⟨rest', hrest'⟩ := path_of_mem_ofMethodArgs hb
      exact ⟨visit.path.segments, _, _, rest, rest', hne, hrest, hrest'⟩
    | call =>
      simp only [hshape]
      exact apart_ofParams h.2
    | methodBlock =>
      simp only [hshape]
      exact apart_ofBlock h.1 h.2
    | mapping =>
      simp only [hshape]
      exact apart_ofMembers h.1
  | _ => exact List.Pairwise.nil

theorem nodup_paths_all :
    ∀ visit : Visit, visit.part.Distinct → (visit.all.map Visit.path).Nodup := by
  intro visit
  induction visit using all.induct with
  | case1 visit ih =>
    intro hdistinct
    rw [all_eq, List.map_cons, List.map_flatMap]
    refine List.nodup_cons.mpr ⟨?_, List.nodup_flatMap.mpr ⟨?_, ?_⟩⟩
    · -- a place inside a part is further from the root than the part itself
      intro hmem
      obtain ⟨inner, hinner, hmem⟩ := List.mem_flatMap.mp hmem
      obtain ⟨last, hlast, hpath⟩ := List.mem_map.mp hmem
      obtain ⟨segment, rest, hsegments⟩ := (inner_of_mem_inside hinner).path
      have hlength := (prefix_of_mem_all hlast).length_le
      rw [hsegments, hpath, List.length_append, List.length_cons] at hlength
      omega
    · intro inner hinner
      exact ih ⟨inner, hinner⟩ ((inner_of_mem_inside hinner).below.distinct hdistinct)
    · refine (apart_inside hdistinct).imp ?_
      intro a b hapart place ha hb
      obtain ⟨u, hu, rfl⟩ := List.mem_map.mp ha
      obtain ⟨w, hw, hsame⟩ := List.mem_map.mp hb
      exact hapart.no_common (prefix_of_mem_all hu) (hsame ▸ prefix_of_mem_all hw)

end Visit

/-- In a document that repeats no name every place that is walked holds one part. -/
theorem Json.nodup_paths {document : Json} (h : document.Distinct) :
    (document.visits.map Visit.path).Nodup :=
  Visit.nodup_paths_all ⟨Path.root, document, []⟩ h

end Blueprint
