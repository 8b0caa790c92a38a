import Blueprint.Json.Reader
import Mathlib.Data.List.Nodup

/-!
# `Blueprint/Proofs/Json/Distinct.lean` — objects without repeated names

The type of documents admits an object that repeats a name, and no document that was read has one:
members are bound one at a time, and binding a name a second time replaces its value. Seen from the
other side, binding members whose names are distinct already changes nothing.
-/

set_option autoImplicit false

namespace Blueprint

namespace Json

variable {name : String} {value : Json} {members : List (String × Json)}

/-- Binding a name that is there keeps the names, and a new one comes last. -/
theorem names_put (name : String) (value : Json) (members : List (String × Json)) :
    (put name value members).map Prod.fst =
      if name ∈ members.map Prod.fst then members.map Prod.fst
      else members.map Prod.fst ++ [name] := by
  induction members with
  | nil => rfl
  | cons head rest ih =>
    obtain ⟨n, v⟩ := head
    by_cases hname : n = name
    · simp [put, hname]
    · rw [put, if_neg hname, List.map_cons, ih]
      simp only [List.map_cons, List.mem_cons, Ne.symm hname, false_or]
      split <;> rfl

theorem nodup_put (h : (members.map Prod.fst).Nodup) :
    ((put name value members).map Prod.fst).Nodup := by
  rw [names_put]
  split
  · exact h
  · rename_i hnew
    exact List.nodup_append.mpr ⟨h, List.nodup_singleton name, fun a ha b hb hab =>
      hnew (List.mem_singleton.mp hb ▸ hab ▸ ha)⟩

theorem put_of_not_mem (h : name ∉ members.map Prod.fst) :
    put name value members = members ++ [(name, value)] := by
  induction members with
  | nil => rfl
  | cons head rest ih =>
    obtain ⟨n, v⟩ := head
    have hne : n ≠ name := fun hsame => h (by simp [hsame])
    have hrest : name ∉ rest.map Prod.fst := fun hmem => h (by simp [hmem])
    rw [put, if_neg hne, ih hrest, List.cons_append]

theorem distinctMembers_put (hvalue : value.Distinct) (h : DistinctMembers members) :
    DistinctMembers (put name value members) := by
  induction members with
  | nil => exact ⟨hvalue, h⟩
  | cons head rest ih =>
    obtain ⟨n, v⟩ := head
    rw [put]
    split
    · exact ⟨hvalue, h.2⟩
    · exact ⟨h.1, ih h.2⟩

/-- What a fold of bindings keeps, given that one binding keeps it. -/
theorem distinct_foldl_put {pairs : List (String × Json)} (hpairs : DistinctMembers pairs) :
    ∀ {members : List (String × Json)}, (members.map Prod.fst).Nodup → DistinctMembers members →
      (Json.object (pairs.foldl (fun members (name, value) => put name value members)
        members)).Distinct := by
  induction pairs with
  | nil => exact fun hnames hmembers => ⟨hnames, hmembers⟩
  | cons head rest ih =>
    obtain ⟨n, v⟩ := head
    intro members hnames hmembers
    exact ih hpairs.2 (nodup_put hnames) (distinctMembers_put hpairs.1 hmembers)

theorem distinct_bindAll {pairs : List (String × Json)} (h : DistinctMembers pairs) :
    (Json.object (bindAll pairs)).Distinct :=
  distinct_foldl_put h List.nodup_nil trivial

/-- Members with distinct names are bound as they stand. -/
theorem bindAll_of_nodup {pairs : List (String × Json)} (h : (pairs.map Prod.fst).Nodup) :
    bindAll pairs = pairs := by
  -- the members bound so far and the pairs still to come make up the whole, without repeats
  have hfold : ∀ (rest bound : List (String × Json)), ((bound ++ rest).map Prod.fst).Nodup →
      rest.foldl (fun members (name, value) => put name value members) bound = bound ++ rest := by
    intro rest
    induction rest with
    | nil => exact fun bound _ => by simp
    | cons head rest ih =>
      obtain ⟨n, v⟩ := head
      intro bound hnodup
      have hnew : n ∉ bound.map Prod.fst := by
        rw [List.map_append, List.nodup_append] at hnodup
        exact fun hmem => hnodup.2.2 n hmem n (by simp) rfl
      show rest.foldl _ (put n v bound) = _
      rw [put_of_not_mem hnew, ih _ (by simpa using hnodup), List.append_assoc]
      rfl
  exact hfold pairs [] h

theorem distinctItems_iff {items : List Json} :
    DistinctItems items ↔ ∀ item ∈ items, item.Distinct := by
  induction items with
  | nil => simp [DistinctItems]
  | cons item rest ih => simp [DistinctItems, ih]

theorem distinctMembers_iff : DistinctMembers members ↔ ∀ member ∈ members, member.2.Distinct := by
  induction members with
  | nil => simp [DistinctMembers]
  | cons head rest ih => simp [DistinctMembers, ih]

theorem mem_of_get? (h : get? name members = some value) : (name, value) ∈ members := by
  induction members with
  | nil => exact absurd h (by simp [get?])
  | cons head rest ih =>
    obtain ⟨n, v⟩ := head
    rw [get?] at h
    split at h
    · rename_i hname
      cases h
      simp [hname]
    · exact List.mem_cons_of_mem _ (ih h)

end Json

/-! ## Reading -/

mutual

theorem Written.distinct_json? : ∀ (tree : Written) (depth : Nat) {document : Json},
    tree.json? depth = some document → document.Distinct
  | .null, _, _, h => by cases h; trivial
  | .bool _, _, _, h => by cases h; trivial
  | .number _, _, _, h => by
    obtain ⟨_, -, rfl⟩ := Option.map_eq_some_iff.mp h
    trivial
  | .string _, _, _, h => by
    obtain ⟨_, -, rfl⟩ := Option.map_eq_some_iff.mp h
    trivial
  | .array _, 0, _, h => by cases h
  | .array items, depth + 1, _, h => by
    obtain ⟨_, hitems, rfl⟩ := Option.map_eq_some_iff.mp h
    exact Written.distinct_jsonItems? items depth hitems
  | .object _, 0, _, h => by cases h
  | .object members, depth + 1, _, h => by
    obtain ⟨_, hmembers, rfl⟩ := Option.map_eq_some_iff.mp h
    exact Json.distinct_bindAll (Written.distinct_jsonMembers? members depth hmembers)

theorem Written.distinct_jsonItems? : ∀ (items : List Written) (depth : Nat) {values : List Json},
    Written.jsonItems? depth items = some values → Json.DistinctItems values
  | [], _, _, h => by cases h; trivial
  | item :: rest, depth, _, h => by
    obtain ⟨value, hvalue, h⟩ := Option.bind_eq_some_iff.mp h
    obtain ⟨values, hvalues, h⟩ := Option.bind_eq_some_iff.mp h
    cases h
    exact ⟨Written.distinct_json? item depth hvalue, Written.distinct_jsonItems? rest depth hvalues⟩

theorem Written.distinct_jsonMembers? : ∀ (members : List (List TextPiece × Written)) (depth : Nat)
    {pairs : List (String × Json)},
    Written.jsonMembers? depth members = some pairs → Json.DistinctMembers pairs
  | [], _, _, h => by cases h; trivial
  | (pieces, item) :: rest, depth, _, h => by
    obtain ⟨name, -, h⟩ := Option.bind_eq_some_iff.mp h
    obtain ⟨value, hvalue, h⟩ := Option.bind_eq_some_iff.mp h
    obtain ⟨pairs, hpairs, h⟩ := Option.bind_eq_some_iff.mp h
    cases h
    exact ⟨Written.distinct_json? item depth hvalue,
      Written.distinct_jsonMembers? rest depth hpairs⟩

end

/-- No object of a document that was read repeats a name. -/
theorem Json.distinct_of_read? {text : String} {document : Json}
    (h : Json.read? text = some document) : document.Distinct := by
  obtain ⟨tree, -, hdocument⟩ := Option.bind_eq_some_iff.mp h
  exact Written.distinct_json? tree Json.deepest hdocument

end Blueprint
