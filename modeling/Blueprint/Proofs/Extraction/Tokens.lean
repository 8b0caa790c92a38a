import Blueprint.Proofs.Extraction.Drawn
import Blueprint.Proofs.Text.Literal

/-!
# `Blueprint/Proofs/Extraction/Tokens.lean` — the tokens of a counter

With a counter for a source the tokens are numbers in hexadecimal digits. The digits are padded and
never cut, and they end at the first underscore of the key whatever stands in the path behind it, so
the number can be read back from the key (`keyNumber`). A walk takes one number for each component
without key and class, in the order of the visits. So the numbers only go up, over one run and over
the runs that follow on the same counter, and no two of these components have the same key
(`extract_sequential_tokens`).
-/

set_option autoImplicit false

namespace Blueprint

variable {σ τ : Type}

/-! ## The counter -/

theorem keySuffix_sequential (path : Path) (counter : Nat) :
    (keySuffix KeySource.sequential path counter).2 =
      counter + if path = Path.root then 1 else 0 := by
  unfold keySuffix
  cases hlast : path.last? with
  | none =>
    rw [if_pos (Path.last?_eq_none_iff.mp hlast)]
    rfl
  | some segment =>
    rw [if_neg fun hroot => by simp [Path.last?_eq_none_iff.mpr hroot] at hlast]
    rfl

theorem deriveKey_sequential (explicit className : Option String) (path : Path) (counter : Nat) :
    (deriveKey KeySource.sequential explicit className path counter).2 =
      counter + (if explicit.isNone && className.isNone then 1 else 0) +
        (if explicit.isNone && path = Path.root then 1 else 0) := by
  cases explicit with
  | some key => rfl
  | none =>
    show (keySuffix KeySource.sequential path
      (keyBase KeySource.sequential className counter).2).2 = _
    rw [keySuffix_sequential]
    cases className <;> simp [keyBase, KeySource.sequential]

theorem Visit.drawn_sequential (visit : Visit) (counter : Nat) :
    (visit.drawn KeySource.sequential counter).2 =
      counter + (if visit.part.isUnnamed then 1 else 0) +
        (if visit.part.isKeyless && visit.path = Path.root then 1 else 0) := by
  unfold Visit.drawn Json.isUnnamed Json.isKeyless
  cases visit.part.role with
  | component members =>
    have hderived := deriveKey_sequential (Json.text? Field.objectKey members)
      ((Json.callable? members).map Callable.name) visit.path counter
    rwa [Option.isNone_map] at hderived
  | _ => rfl

theorem Visit.remaining_sequential (visits : List Visit) (counter : Nat) :
    Visit.remaining KeySource.sequential visits counter =
      counter + visits.countP (·.part.isUnnamed) +
        visits.countP fun visit => visit.part.isKeyless && visit.path = Path.root := by
  induction visits generalizing counter with
  | nil => rfl
  | cons visit rest ih =>
    rw [Visit.remaining, ih, visit.drawn_sequential, List.countP_cons, List.countP_cons]
    omega

/-- Only the document itself stands at the root. -/
theorem Visit.path_ne_root {outer visit : Visit} (h : visit ∈ outer.inside.flatMap Visit.all) :
    visit.path ≠ Path.root := by
  obtain ⟨inner, hinner, hvisit⟩ := List.mem_flatMap.mp h
  obtain ⟨segment, rest, hpath⟩ := (inner_of_mem_inside hinner).path
  intro hroot
  have hprefix := prefix_of_mem_all hvisit
  rw [hroot, hpath] at hprefix
  simp [Path.root] at hprefix

theorem Json.countP_root (document : Json) :
    (document.visits.countP fun visit => visit.part.isKeyless && visit.path = Path.root) =
      if document.isKeyless then 1 else 0 := by
  have hinside : ((Visit.inside ⟨Path.root, document, []⟩).flatMap Visit.all).countP
      (fun visit => visit.part.isKeyless && visit.path = Path.root) = 0 := by
    refine List.countP_eq_zero.mpr fun visit hvisit => ?_
    simp [Visit.path_ne_root hvisit]
  rw [document.visits_eq, List.countP_cons, hinside]
  simp

/-! ## Numbers in keys -/

namespace Text

/-- The number that hexadecimal digits stand for. -/
def hexValue (digits : List Char) : Nat :=
  digits.foldl (fun value digit => 16 * value + (hexDigit? digit).getD 0) 0

theorem hexValue_append_digitChar (digits : List Char) {n : Nat} (h : n < 16) :
    hexValue (digits ++ [n.digitChar]) = 16 * hexValue digits + n := by
  rw [hexValue, List.foldl_append, List.foldl_cons, List.foldl_nil, hexDigit?_digitChar n h]
  rfl

theorem hexValue_toDigits (n : Nat) : hexValue (Nat.toDigits 16 n) = n := by
  induction n using Nat.strong_induction_on with
  | _ n ih =>
    by_cases hsmall : n < 16
    · rw [Nat.toDigits_of_lt_base hsmall, ← List.nil_append [n.digitChar],
        hexValue_append_digitChar [] hsmall]
      exact Nat.zero_add n
    · have hlarge : 16 ≤ n := Nat.le_of_not_lt hsmall
      rw [Nat.toDigits_of_base_le (by decide) hlarge,
        hexValue_append_digitChar _ (Nat.mod_lt n (by decide)), ih (n / 16) (by omega)]
      omega

/-- Padding does not change the number. -/
theorem hexValue_hex (width n : Nat) : hexValue (hex width n) = n := by
  have hzeros : ∀ count, hexValue (List.replicate count '0') = 0 := by
    intro count
    induction count with
    | zero => rfl
    | succ count ih =>
      have hzero : ['0'] = [Nat.digitChar 0] := rfl
      rw [List.replicate_succ', hzero, hexValue_append_digitChar _ (by decide), ih]
  have hpadded := hexValue_toDigits n
  unfold hexValue at hzeros hpadded ⊢
  rw [hex, List.foldl_append, hzeros, hpadded]

theorem underscore_not_mem_hex (width n : Nat) : '_' ∉ hex width n := by
  have hdigits : ∀ n, '_' ∉ Nat.toDigits 16 n := by
    intro n
    induction n using Nat.strong_induction_on with
    | _ n ih =>
      have hlast : ∀ m < 16, '_' ∉ [Nat.digitChar m] := by decide
      by_cases hsmall : n < 16
      · rw [Nat.toDigits_of_lt_base hsmall]
        exact hlast n hsmall
      · rw [Nat.toDigits_of_base_le (by decide) (Nat.le_of_not_lt hsmall), List.mem_append, not_or]
        exact ⟨ih (n / 16) (by omega), hlast _ (Nat.mod_lt n (by decide))⟩
  rw [hex, List.mem_append, not_or]
  exact ⟨by simp, hdigits n⟩

end Text

/-- The number with which a key starts, up to its first underscore. -/
def keyNumber (key : String) : Nat := Text.hexValue (key.toList.takeWhile (· ≠ '_'))

/-- The number of a token can be read back, whatever stands behind it. -/
theorem keyNumber_token (width counter : Nat) (suffix : String) :
    keyNumber (String.ofList (Text.hex width counter) ++ "_" ++ suffix) = counter := by
  -- an underscore is no digit, so the first one in the key is the one behind the token
  have htoken : ∀ c ∈ Text.hex width counter, decide (c ≠ '_') = true := by
    intro c hc
    exact decide_eq_true fun hsame => Text.underscore_not_mem_hex width counter (hsame ▸ hc)
  have hkey : (String.ofList (Text.hex width counter) ++ "_" ++ suffix).toList =
      Text.hex width counter ++ '_' :: suffix.toList := by simp
  rw [keyNumber, hkey, List.takeWhile_append_of_pos htoken,
    List.takeWhile_cons_of_neg (by decide), List.append_nil, Text.hexValue_hex]

theorem Visit.keyNumber_drawn {visit : Visit} {counter : Nat} {key : String}
    (hunnamed : visit.part.isUnnamed = true)
    (hdrawn : (visit.drawn KeySource.sequential counter).1 = some key) :
    keyNumber key = counter := by
  unfold Json.isUnnamed at hunnamed
  unfold Visit.drawn at hdrawn
  split at hunnamed
  · rename_i members hrole
    rw [Bool.and_eq_true, Option.isNone_iff_eq_none, Option.isNone_iff_eq_none] at hunnamed
    simp only [hrole, hunnamed.1, hunnamed.2] at hdrawn
    cases hdrawn
    exact keyNumber_token _ _ _
  · cases hunnamed

/-! ## Keys with numbers that go up -/

/-- The keys start with numbers in a range, each with a greater one than those before it. -/
structure Rising (low high : Nat) (keys : List String) : Prop where
  pairwise : keys.Pairwise fun a b => keyNumber a < keyNumber b
  range : ∀ key ∈ keys, low ≤ keyNumber key ∧ keyNumber key < high

namespace Rising

variable {low middle high : Nat} {keys keys' : List String}

theorem nil : Rising low high [] := ⟨.nil, by simp⟩

theorem singleton {key : String} (hlow : low ≤ keyNumber key) (hhigh : keyNumber key < high) :
    Rising low high [key] :=
  ⟨List.pairwise_singleton _ _, by simpa using ⟨hlow, hhigh⟩⟩

theorem append (h : Rising low middle keys) (h' : Rising middle high keys')
    (hlow : low ≤ middle) (hhigh : middle ≤ high) : Rising low high (keys ++ keys') where
  pairwise := by
    refine List.pairwise_append.mpr ⟨h.pairwise, h'.pairwise, fun a ha b hb => ?_⟩
    exact (h.range a ha).2.trans_le (h'.range b hb).1
  range := by
    refine List.forall_mem_append.mpr ⟨fun key hkey => ?_, fun key hkey => ?_⟩
    · exact ⟨(h.range key hkey).1, (h.range key hkey).2.trans_le hhigh⟩
    · exact ⟨hlow.trans (h'.range key hkey).1, (h'.range key hkey).2⟩

theorem sublist (h : Rising low high keys) (hsublist : keys'.Sublist keys) :
    Rising low high keys' :=
  ⟨h.pairwise.sublist hsublist, fun key hkey => h.range key (hsublist.subset hkey)⟩

theorem nodup (h : Rising low high keys) : keys.Nodup :=
  h.pairwise.imp fun hless hsame => by simp [hsame] at hless

end Rising

/-- The keys at some of the places. -/
def keysWhere (holds : Path → Bool) (named : List (Path × String)) : List String :=
  (named.filter fun place => holds place.1).map Prod.snd

theorem Visit.le_remaining_sequential (visits : List Visit) (counter : Nat) :
    counter ≤ Visit.remaining KeySource.sequential visits counter := by
  rw [Visit.remaining_sequential]
  omega

/-- The keys that are drawn for components without key and class have numbers that go up, from the
counter before the visits to the one after them. -/
theorem Visit.rising_assigned {holds : Path → Bool} {visits : List Visit}
    (h : ∀ visit ∈ visits, holds visit.path = visit.part.isUnnamed) (counter : Nat) :
    Rising counter (Visit.remaining KeySource.sequential visits counter)
      (keysWhere holds (Visit.assigned KeySource.sequential visits counter)) := by
  induction visits generalizing counter with
  | nil => exact .nil
  | cons visit rest ih =>
    obtain ⟨hvisit, hrest⟩ := List.forall_mem_cons.mp h
    -- at the root one more number is taken, with which no key starts
    have hafter := visit.drawn_sequential counter
    have hhere : Rising counter (visit.drawn KeySource.sequential counter).2 (keysWhere holds
        ((visit.drawn KeySource.sequential counter).1.map (visit.path, ·)).toList) := by
      cases hdrawn : (visit.drawn KeySource.sequential counter).1 with
      | none => exact .nil
      | some key =>
        cases hunnamed : visit.part.isUnnamed with
        | false => simpa [keysWhere, hvisit, hunnamed] using Rising.nil
        | true =>
          have hnumber := Visit.keyNumber_drawn hunnamed hdrawn
          rw [hunnamed, if_pos rfl] at hafter
          have hkey : Rising counter (visit.drawn KeySource.sequential counter).2 [key] :=
            .singleton hnumber.ge (by omega)
          simpa [keysWhere, hvisit, hunnamed] using hkey
    rw [Visit.assigned, keysWhere, List.filter_append, List.map_append]
    exact hhere.append (ih hrest _) (by omega) (Visit.le_remaining_sequential _ _)

/-! ## One run after the other -/

/-- The place holds a component without a key of its own and without a class. -/
def Json.holdsUnnamed (document : Json) (place : Path) : Bool :=
  document.visits.any fun visit => visit.path = place && visit.part.isUnnamed

theorem Json.holdsUnnamed_path {document : Json} (hdistinct : document.Distinct) {visit : Visit}
    (hmem : visit ∈ document.visits) :
    document.holdsUnnamed visit.path = visit.part.isUnnamed := by
  rw [Bool.eq_iff_iff, Json.holdsUnnamed, List.any_eq_true]
  constructor
  · rintro ⟨other, hother, h⟩
    rw [Bool.and_eq_true, decide_eq_true_eq] at h
    have hsame := List.inj_on_of_nodup_map (Json.nodup_paths hdistinct) hother hmem h.1
    exact hsame ▸ h.2
  · intro hunnamed
    exact ⟨visit, hmem, by simp [hunnamed]⟩

namespace Extraction

/-- The keys that a run reported of the components without key and class. -/
def unnamedKeys (document : Json) (run : Extraction σ) : List String :=
  keysWhere document.holdsUnnamed run.named

/-- The same for documents that are taken apart one after the other, each run with the tokens that
the one before it has left, whatever that came to. -/
def allUnnamedKeys (source : KeySource σ) : List Json → σ → List String
  | [], _ => []
  | document :: rest, keys =>
    let run := extract source document keys
    unnamedKeys document run ++ allUnnamedKeys source rest run.keys

theorem rising_unnamedKeys {document : Json} (hdistinct : document.Distinct) (counter : Nat) :
    Rising counter (extract KeySource.sequential document counter).keys
      (unnamedKeys document (extract KeySource.sequential document counter)) := by
  obtain ⟨walked, hwalked, hkeys, hnamed, -⟩ :=
    exists_walked_visits KeySource.sequential document counter
  have hvisits : ∀ visit ∈ walked, document.holdsUnnamed visit.path = visit.part.isUnnamed :=
    fun visit hvisit => Json.holdsUnnamed_path hdistinct (hwalked.subset hvisit)
  rw [hkeys]
  exact (Visit.rising_assigned hvisits counter).sublist ((hnamed.sublist.filter _).map _)

theorem le_keys_extract (document : Json) (counter : Nat) :
    counter ≤ (extract KeySource.sequential document counter).keys := by
  obtain ⟨walked, -, hkeys, -, -⟩ := exists_walked_visits KeySource.sequential document counter
  rw [hkeys]
  exact Visit.le_remaining_sequential walked counter

theorem exists_rising_allUnnamedKeys {documents : List Json}
    (hdistinct : ∀ document ∈ documents, document.Distinct) (counter : Nat) :
    ∃ last, counter ≤ last ∧
      Rising counter last (allUnnamedKeys KeySource.sequential documents counter) := by
  induction documents generalizing counter with
  | nil => exact ⟨counter, le_rfl, .nil⟩
  | cons document rest ih =>
    obtain ⟨hdocument, hrest⟩ := List.forall_mem_cons.mp hdistinct
    have hfirst := rising_unnamedKeys hdocument counter
    have hcounter := le_keys_extract document counter
    obtain ⟨last, hlast, hlater⟩ := ih hrest (extract KeySource.sequential document counter).keys
    exact ⟨last, hcounter.trans hlast, hfirst.append hlater hcounter hlast⟩

/-- What a successful run reported are the components of its graph, with their keys. -/
theorem named_eq_components {source : KeySource σ} {document : Json}
    (hdistinct : document.Distinct) {keys : σ} {graph : Graph}
    (h : (extract source document keys).graph = .ok graph) :
    (extract source document keys).named = graph.table.components.map fun c => (c.path, c.key) := by
  obtain ⟨walked, -, -, -, hall⟩ := exists_walked_visits source document keys
  obtain ⟨rfl, hnamed⟩ := hall graph h
  obtain ⟨hcomponents, -, -⟩ := extract_nodes_eq_visits hdistinct h
  rw [hnamed, hcomponents, List.map_map,
    ← Visit.map_component?_eq_assigned (Json.named_keyAt hdistinct)]
  rfl

/-- A successful extraction takes from a counter one token for each component without key and class,
and one more if the document itself is a component without a key. The components without key and
class all have different keys, in this run and the ones that follow on the same counter. And if no
component needs a token, then the document comes to the same with every source of tokens. -/
theorem extract_sequential_tokens (document : Json) :
    (∀ (counter : Nat) (graph : Graph),
      (extract KeySource.sequential document counter).graph = .ok graph →
        (extract KeySource.sequential document counter).keys =
          counter + document.visits.countP (·.part.isUnnamed) +
            (if document.isKeyless then 1 else 0) ∧
        (document.Distinct → (extract KeySource.sequential document counter).named =
          graph.table.components.map fun c => (c.path, c.key)) ∧
        ∀ later : List Json, (∀ other ∈ document :: later, other.Distinct) →
          (allUnnamedKeys KeySource.sequential (document :: later) counter).Nodup) ∧
    ((∀ visit ∈ document.visits, visit.isSelfNamed = true) →
      ∀ {σ τ : Type} (source : KeySource σ) (reader : KeySource τ) (keys : σ) (keys' : τ),
        (extract reader document keys').graph = (extract source document keys).graph ∧
          (extract reader document keys').events = (extract source document keys).events ∧
          (extract source document keys).keys = keys) := by
  refine ⟨fun counter graph h => ⟨?_, fun hdistinct => named_eq_components hdistinct h, ?_⟩, ?_⟩
  · obtain ⟨walked, -, hkeys, -, hall⟩ :=
      exists_walked_visits KeySource.sequential document counter
    obtain ⟨rfl, -⟩ := hall graph h
    rw [hkeys, Visit.remaining_sequential, Json.countP_root]
  · intro later hdistinct
    obtain ⟨last, -, hrising⟩ := exists_rising_allUnnamedKeys hdistinct counter
    exact hrising.nodup
  · intro h σ τ source reader keys keys'
    exact extract_eq_of_selfNamed h source reader keys keys'

/-- Two components without key and class, one of them inside a component that has a class, and at
places whose last steps look like a token and the rest of a key. -/
def tokenDocument : Json := .object
  [("00001_a", .object [("module", .string "m")]),
   ("net", .object
     [("module", .string "models"),
      ("class_name", .string "Net"),
      ("params", .object [("a", .object [("module", .string "m")])])])]

/-- The graph of `tokenDocument`. -/
def tokenGraph : Graph where
  table :=
    { nodes :=
        [.component ⟨"00000_00001_a", "m", none, [], [], "00001_a", ⟨[.key "00001_a"]⟩⟩,
         .component ⟨"net_net", "models", some (.className "Net"), [("a", .reference "00001_a")], [],
           "net", ⟨[.key "net"]⟩⟩,
         .component ⟨"00001_a", "m", none, [], [], "a", ⟨[.key "net", .key "params", .key "a"]⟩⟩]
      indexed := .of_nodup (by decide) }
  edges := [⟨"00001_a", "net_net", ⟨[.key "net", .key "params", .key "a"]⟩⟩]

theorem tokenDocument_distinct : tokenDocument.Distinct := by
  simp [tokenDocument, Json.Distinct, Json.DistinctMembers]

theorem extract_tokenDocument :
    (extract KeySource.sequential tokenDocument 0).graph = .ok tokenGraph := by cbv

theorem isSelfNamed_sampleDocument : ∀ visit ∈ sampleDocument.visits, visit.isSelfNamed = true :=
  List.all_eq_true.mp (by cbv)

theorem extract_sequential_tokens_tokenDocument :
    (∀ other ∈ [tokenDocument, sampleDocument, tokenDocument], other.Distinct) ∧
    (extract KeySource.sequential tokenDocument 0).graph = .ok tokenGraph ∧
    (extract KeySource.sequential tokenDocument 0).keys =
      0 + tokenDocument.visits.countP (·.part.isUnnamed) +
        (if tokenDocument.isKeyless then 1 else 0) ∧
    (extract KeySource.sequential tokenDocument 0).named =
      (tokenGraph.table.components.map fun c => (c.path, c.key)) ∧
    (allUnnamedKeys KeySource.sequential [tokenDocument, sampleDocument, tokenDocument] 0).Nodup ∧
    (∀ visit ∈ sampleDocument.visits, visit.isSelfNamed = true) ∧
    (extract KeySource.random sampleDocument (mkStdGen 7)).graph =
      (extract KeySource.sequential sampleDocument 0).graph := by
  have hdistinct : ∀ other ∈ [tokenDocument, sampleDocument, tokenDocument], other.Distinct := by
    simp [tokenDocument_distinct, sampleDocument_distinct]
  obtain ⟨hrun, -⟩ := extract_sequential_tokens tokenDocument
  obtain ⟨hkeys, hnamed, hnodup⟩ := hrun 0 tokenGraph extract_tokenDocument
  obtain ⟨-, hany⟩ := extract_sequential_tokens sampleDocument
  exact ⟨hdistinct, extract_tokenDocument, hkeys, hnamed tokenDocument_distinct,
    hnodup _ hdistinct, isSelfNamed_sampleDocument,
    (hany isSelfNamed_sampleDocument _ _ 0 (mkStdGen 7)).1⟩

end Extraction

end Blueprint
