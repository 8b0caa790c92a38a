import Blueprint.Number.Basic

/-!
# `Blueprint/Json/Basic.lean` — documents

A JSON value whose objects keep the order of their members. The type itself admits an object with
a repeated name; every function that builds one goes through `Json.put`, which keeps the place of
the first occurrence and the value of the last, and `Json.Distinct` says of a value that no object
in it repeats a name.
-/

set_option autoImplicit false

namespace Blueprint

/-- A JSON value with ordered members. -/
inductive Json where
  | null
  | bool (value : Bool)
  | number (value : Number)
  | string (text : String)
  | array (items : List Json)
  | object (members : List (String × Json))

namespace Json

/-- Binds a name: an earlier member of that name keeps its place and takes the new value, otherwise
the member goes last. -/
def put (name : String) (value : Json) : List (String × Json) → List (String × Json)
  | [] => [(name, value)]
  | (n, v) :: rest => if n = name then (n, value) :: rest else (n, v) :: put name value rest

/-- The members that result from binding each pair in turn. -/
def bindAll (pairs : List (String × Json)) : List (String × Json) :=
  pairs.foldl (fun members (name, value) => put name value members) []

/-- The value of the first member with a name. -/
def get? (name : String) : List (String × Json) → Option Json
  | [] => none
  | (n, v) :: rest => if n = name then some v else get? name rest

/-- Whether an object has a member with a name. -/
def has (name : String) (members : List (String × Json)) : Bool :=
  members.any (·.1 = name)

mutual

/-- No object inside the value repeats a name. -/
def Distinct : Json → Prop
  | .array items => DistinctItems items
  | .object members => (members.map Prod.fst).Nodup ∧ DistinctMembers members
  | _ => True

/-- `Distinct` for each of a list of values. -/
def DistinctItems : List Json → Prop
  | [] => True
  | item :: rest => Distinct item ∧ DistinctItems rest

/-- `Distinct` for the value of each of a list of members. -/
def DistinctMembers : List (String × Json) → Prop
  | [] => True
  | (_, value) :: rest => Distinct value ∧ DistinctMembers rest

end

mutual

/-- Equality up to the order of members, for values without repeated names. -/
def same : Json → Json → Bool
  | .null, .null => true
  | .bool a, .bool b => a == b
  | .number a, .number b => a == b
  | .string a, .string b => a == b
  | .array xs, .array ys => sameItems xs ys
  | .object xs, .object ys => xs.length == ys.length && sameMembers xs ys
  | _, _ => false

/-- `same` for two lists of values, place by place. -/
def sameItems : List Json → List Json → Bool
  | [], [] => true
  | x :: xs, y :: ys => same x y && sameItems xs ys
  | _, _ => false

/-- Whether each of the first members has its `same` among the second. -/
def sameMembers : List (String × Json) → List (String × Json) → Bool
  | [], _ => true
  | (name, x) :: rest, ys =>
    (match get? name ys with
      | some y => same x y
      | none => false) && sameMembers rest ys

end

end Json

end Blueprint
