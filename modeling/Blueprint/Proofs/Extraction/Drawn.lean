import Blueprint.Proofs.Extraction.Inventory
import Blueprint.Proofs.Extraction.Related

/-!
# `Blueprint/Proofs/Extraction/Drawn.lean` — which keys a walk draws

A component that neither has a key nor names a class gets a token in place of the class, and one
that is the whole document gets a token in place of a last step. No other part of a document touches
the source of tokens. Two relations between walks say so. If every component can be named from what
the document says about it, then a walk does the same over any tokens (`selfNamed`). And whatever a
walk comes to, the tokens that are gone are those of the first visits, and the components that were
reported have the keys that were drawn there (`traced`).

The second one is wanted for failures too: a run that is refused half-way leaves its mark on the
source, and the next run goes on from there.
-/

set_option autoImplicit false

namespace Blueprint

variable {σ τ : Type}

/-! ## Components by what they say about themselves -/

/-- A component without a key of its own. -/
def Json.isKeyless (document : Json) : Bool :=
  match document.role with
  | .component members => (text? Field.objectKey members).isNone
  | _ => false

/-- A component without a key of its own and without a class. -/
def Json.isUnnamed (document : Json) : Bool :=
  match document.role with
  | .component members => (text? Field.objectKey members).isNone && (callable? members).isNone
  | _ => false

/-- If the part is a component, it has a key of its own, or a class and a place inside something. -/
def Visit.isSelfNamed (visit : Visit) : Bool :=
  match visit.part.role with
  | .component members =>
    (Json.text? Field.objectKey members).isSome ||
      ((Json.callable? members).isSome && visit.path ≠ Path.root)
  | _ => true

theorem Path.last?_eq_none_iff {path : Path} : path.last? = none ↔ path = Path.root := by
  rw [Path.last?, List.getLast?_eq_none_iff]
  constructor
  · intro h
    rw [Path.root, ← h]
  · rintro rfl
    rfl

/-- A key that is put together from what the document says is the same with any tokens. -/
theorem exists_deriveKey {explicit className : Option String} {path : Path}
    (h : explicit.isSome ∨ className.isSome ∧ path ≠ Path.root) :
    ∃ key, ∀ {ρ : Type} (source : KeySource ρ) (keys : ρ),
      deriveKey source explicit className path keys = (key, keys) := by
  cases explicit with
  | some key => exact ⟨key, fun _ _ => rfl⟩
  | none =>
    obtain ⟨hclass, hpath⟩ := h.resolve_left (by simp)
    obtain ⟨name, rfl⟩ := Option.isSome_iff_exists.mp hclass
    obtain ⟨segment, hsegment⟩ :=
      Option.ne_none_iff_exists'.mp (mt Path.last?_eq_none_iff.mp hpath)
    refine ⟨Text.snakeCase name ++ "_" ++ segment.text, fun source keys => ?_⟩
    simp only [deriveKey, keyBase, keySuffix, hsegment]

namespace Extraction

/-! ## Walks that draw nothing -/

theorem uniform_drawKey {source : KeySource σ} {reader : KeySource τ}
    {explicit className : Option String} {path : Path}
    (h : explicit.isSome ∨ className.isSome ∧ path ≠ Path.root) :
    Uniform (drawKey source explicit className path) (drawKey reader explicit className path) := by
  obtain ⟨key, hkey⟩ := exists_deriveKey h
  refine ⟨fun state keys => ?_, fun state => ?_⟩
  · simp only [drawKey, hkey, State.withKeys]
  · simp only [drawKey, hkey]

/-- If every component that is met can be named without a token, two walks do the same over any
tokens. -/
def selfNamed (source : KeySource σ) (reader : KeySource τ) : WalkRelation source reader where
  Holds visits f g := (∀ visit ∈ visits, visit.isSelfNamed = true) → Uniform f g
  quiet h _ := h.toUniform
  next h h' hall := by
    obtain ⟨hfirst, hlater⟩ := List.forall_mem_append.mp hall
    exact (h hfirst).bind fun value => h' value hlater
  skip _ h hall := h (List.forall_mem_append.mp hall).2
  enter {members path owner around} shape hall := by
    rw [enter_eq, enter_eq]
    cases hdeclares : declaration members path with
    | error e => exact (quiet_ofExcept (.error e)).toUniform
    | ok declared =>
      obtain rfl := (declaration_eq_ok_iff.mp hdeclares).2
      have hnamed := hall _ (List.mem_singleton.mpr rfl)
      simp only [Visit.isSelfNamed, role_component shape, Bool.or_eq_true, Bool.and_eq_true,
        decide_eq_true_eq] at hnamed
      have hdrawn : (declarationOf members).explicitKey.isSome ∨
          ((declarationOf members).callable.map Callable.name).isSome ∧ path ≠ Path.root := by
        rwa [Option.isSome_map]
      exact (uniform_drawKey hdrawn).bind fun key =>
        uniform_announce ((declarationOf members).component key path) owner

/-! ## What a walk leaves of the tokens, whatever it comes to -/

/-- From one state to the other, the keys of some visits were drawn, and some components
reported. -/
structure Through (source : KeySource σ) (walked : List Visit) (named : List (Path × String))
    (before after : State σ) : Prop where
  keys : after.keys = Visit.remaining source walked before.keys
  named : after.named = before.named ++ named

theorem Through.trans {source : KeySource σ} {walked walked' : List Visit}
    {named named' : List (Path × String)} {s₁ s₂ s₃ : State σ}
    (h : Through source walked named s₁ s₂) (h' : Through source walked' named' s₂ s₃) :
    Through source (walked ++ walked') (named ++ named') s₁ s₃ where
  keys := by rw [Visit.remaining_append, h'.keys, h.keys]
  named := by rw [h'.named, h.named, List.append_assoc]

/-- A step goes through some visits and reports the components among them, or fails on the way. -/
structure Traced {α : Type} (source : KeySource σ) (visits : List Visit) (f : Step σ α) : Prop where
  finished : ∀ {before after : State σ} {value : α}, f before = (.ok value, after) →
    Through source visits (Visit.assigned source visits before.keys) before after
  stopped : ∀ {before after : State σ} {e : Error}, f before = (.error e, after) →
    ∃ walked named, walked <+: visits ∧ named <+: Visit.assigned source walked before.keys ∧
      Through source walked named before after

theorem Step.bind_eq_error_iff {α β : Type} {step : Step σ α} {next : α → Step σ β}
    {before after : State σ} {e : Error} :
    (step >>= next) before = (.error e, after) ↔
      step before = (.error e, after) ∨
        ∃ value middle, step before = (.ok value, middle) ∧
          next value middle = (.error e, after) := by
  rw [bind_apply]
  rcases step before with ⟨_ | value, middle⟩
  · constructor
    · intro h
      cases h
      exact .inl rfl
    · rintro (h | ⟨value, middle, h, -⟩)
      · cases h
        rfl
      · cases h
  · constructor
    · exact fun h => .inr ⟨value, middle, rfl, h⟩
    · rintro (h | ⟨value, middle, h, hnext⟩)
      · cases h
      · cases h
        exact hnext

section

variable {α β : Type} {source : KeySource σ}

theorem traced_quiet {f : Step σ α} {g : Step τ α} (h : Quiet f g) : Traced source [] f := by
  have hthrough : ∀ state, Through source [] [] state (f state).2 := fun state =>
    ⟨h.keys state, by rw [h.named state, List.append_nil]⟩
  constructor
  · intro before after value hstep
    have hhere := hthrough before
    rwa [hstep] at hhere
  · intro before after e hstep
    have hhere := hthrough before
    rw [hstep] at hhere
    exact ⟨[], [], List.prefix_rfl, List.prefix_rfl, hhere⟩

theorem Traced.next {first later : List Visit} {f : Step σ α} {f' : α → Step σ β}
    (h : Traced source first f) (h' : ∀ value, Traced source later (f' value)) :
    Traced source (first ++ later) (f >>= f') := by
  constructor
  · intro before after value hstep
    obtain ⟨_, middle, hfirst, hlater⟩ := Step.bind_eq_ok_iff.mp hstep
    have hthrough := h.finished hfirst
    have hthrough' := (h' _).finished hlater
    rw [Visit.assigned_append, ← hthrough.keys]
    exact hthrough.trans hthrough'
  · intro before after e hstep
    rcases Step.bind_eq_error_iff.mp hstep with hfirst | ⟨_, middle, hfirst, hlater⟩
    · obtain ⟨walked, named, hwalked, hnamed, hthrough⟩ := h.stopped hfirst
      exact ⟨walked, named, hwalked.trans (List.prefix_append _ _), hnamed, hthrough⟩
    · -- the first step has gone through all of its visits, and the failure comes later
      have hthrough := h.finished hfirst
      obtain ⟨walked, named, hwalked, hnamed, hthrough'⟩ := (h' _).stopped hlater
      refine ⟨_, _, (List.prefix_append_right_inj first).mpr hwalked, ?_,
        hthrough.trans hthrough'⟩
      rw [Visit.assigned_append, ← hthrough.keys]
      exact (List.prefix_append_right_inj _).mpr hnamed

theorem Traced.skip {visit : Visit} {rest : List Visit} {f : Step σ α}
    (hother : ∀ members, visit.part.role ≠ .component members) (h : Traced source rest f) :
    Traced source ([visit] ++ rest) f := by
  have hdrawn : ∀ keys, visit.drawn source keys = (none, keys) := by
    intro keys
    unfold Visit.drawn
    split
    · rename_i members hrole
      exact absurd hrole (hother members)
    · rfl
  have hassigned : ∀ visits keys, Visit.assigned source (visit :: visits) keys =
      Visit.assigned source visits keys := fun visits keys => by
    simp [Visit.assigned, hdrawn]
  have hthrough : ∀ {walked named before after}, Through source walked named before after →
      Through source (visit :: walked) named before after := fun hthrough =>
    ⟨by rw [hthrough.keys, Visit.remaining, hdrawn], hthrough.named⟩
  constructor
  · intro before after value hstep
    show Through source (visit :: rest) (Visit.assigned source (visit :: rest) before.keys) _ _
    rw [hassigned]
    exact hthrough (h.finished hstep)
  · intro before after e hstep
    obtain ⟨walked, named, hwalked, hnamed, hhere⟩ := h.stopped hstep
    refine ⟨visit :: walked, named, List.cons_prefix_cons.mpr ⟨rfl, hwalked⟩, ?_, hthrough hhere⟩
    rwa [hassigned]

/-- A component that gets into the table is reported with its key. -/
theorem exists_named_announce (component : Component) (owner : Option Owner) (before : State σ) :
    ∃ named, named <+: [(component.path, component.key)] ∧
      (announce component owner before).2.keys = before.keys ∧
      (announce component owner before).2.named = before.named ++ named ∧
      ∀ {key after}, announce component owner before = (.ok key, after) →
        named = [(component.path, component.key)] := by
  have hregister : Quiet (register (.component component) : Step σ Unit)
      (register (.component component) : Step σ Unit) := quiet_register _
  have hkeys := hregister.keys before
  have hnamed := hregister.named before
  unfold announce
  rcases hstep : register (.component component) before with ⟨e | _, middle⟩ <;>
    rw [hstep] at hkeys hnamed
  · -- the key is taken, so the component is not reported
    rw [Step.bind_of_error hstep]
    refine ⟨[], List.nil_prefix, hkeys, by rw [hnamed, List.append_nil], fun h => ?_⟩
    cases h
  · have hown : Quiet (own component.key component.path owner : Step σ String)
        (own component.key component.path owner : Step σ String) := quiet_own _ _ _
    rw [Step.bind_of_ok hstep, Step.bind_of_ok (report_eq _)]
    refine ⟨_, List.prefix_rfl, (hown.keys _).trans hkeys, ?_, fun _ => rfl⟩
    rw [hown.named, State.named_reported, hnamed]
    rfl

section

variable {members : List (String × Json)} {path : Path} {owner : Option Owner}
  {around : List Enclosure}

theorem assigned_component (shape : Json.objectShape members = .component) (keys : σ) :
    Visit.assigned source [⟨path, .object members, around⟩] keys =
      [(path, (deriveKey source (declarationOf members).explicitKey
        ((declarationOf members).callable.map Callable.name) path keys).1)] := by
  simp only [Visit.assigned, Visit.drawn, role_component shape]
  rfl

theorem remaining_component (shape : Json.objectShape members = .component) (keys : σ) :
    Visit.remaining source [⟨path, .object members, around⟩] keys =
      (deriveKey source (declarationOf members).explicitKey
        ((declarationOf members).callable.map Callable.name) path keys).2 := by
  simp only [Visit.remaining, Visit.drawn, role_component shape]
  rfl

/-- Once a component has declared itself one key is drawn, and the component is announced. -/
theorem exists_named_enter (shape : Json.objectShape members = .component)
    (hdeclares : declaration members path = .ok (declarationOf members)) (before : State σ) :
    ∃ named,
      named <+: Visit.assigned source [⟨path, .object members, around⟩] before.keys ∧
      Through source [⟨path, .object members, around⟩] named before
        (enter source members path owner before).2 ∧
      ∀ {key after}, enter source members path owner before = (.ok key, after) →
        named = Visit.assigned source [⟨path, .object members, around⟩] before.keys := by
  rw [assigned_component shape]
  rcases hderives : deriveKey source (declarationOf members).explicitKey
    ((declarationOf members).callable.map Callable.name) path before.keys with ⟨key, keys⟩
  have henter : enter source members path owner before =
      announce ((declarationOf members).component key path) owner { before with keys } := by
    rw [enter_eq, hdeclares, Step.bind_of_ok
        (show Step.ofExcept (.ok (declarationOf members)) before = (.ok _, before) from rfl),
      Step.bind_of_ok (drawKey_eq_ok_iff.mpr ⟨keys, hderives, rfl⟩)]
  obtain ⟨named, hprefix, hkeys, hnamed, hall⟩ := exists_named_announce
    ((declarationOf members).component key path) owner { before with keys }
  rw [henter]
  refine ⟨named, hprefix, ⟨?_, hnamed⟩, hall⟩
  rw [hkeys, remaining_component shape, hderives]

theorem traced_enter (shape : Json.objectShape members = .component) :
    Traced source [⟨path, .object members, around⟩] (enter source members path owner) := by
  cases hdeclares : declaration members path with
  | error e =>
    -- the declaration is refused before a key is drawn
    rw [enter_eq, hdeclares]
    constructor
    · intro before after key hstep
      cases hstep
    · intro before after refusal hstep
      cases hstep
      exact ⟨[], [], List.nil_prefix, List.nil_prefix, rfl, (List.append_nil _).symm⟩
  | ok declared =>
    obtain rfl := (declaration_eq_ok_iff.mp hdeclares).2
    constructor
    · intro before after key hstep
      obtain ⟨named, -, hthrough, hall⟩ := exists_named_enter shape hdeclares before
      rw [hall hstep, hstep] at hthrough
      exact hthrough
    · intro before after e hstep
      obtain ⟨named, hprefix, hthrough, -⟩ := exists_named_enter shape hdeclares before
      rw [hstep] at hthrough
      exact ⟨_, named, List.prefix_rfl, hprefix, hthrough⟩

end

end

/-- Whatever a walk comes to, it has gone through the first of its visits. -/
def traced (source : KeySource σ) : WalkRelation source source where
  Holds visits f _ := Traced source visits f
  quiet := traced_quiet
  next := Traced.next
  skip := Traced.skip
  enter := traced_enter

/-- The components that a run reported, each at its place with its key. -/
def named (run : Extraction σ) : List (Path × String) := run.events.filterMap Event.component?

/-- A run draws the keys of the first visits in turn, and reports their components. One that
succeeds does so for all visits. -/
theorem exists_walked_visits (source : KeySource σ) (document : Json) (keys : σ) :
    ∃ walked, walked <+: document.visits ∧
      (extract source document keys).keys = Visit.remaining source walked keys ∧
      (extract source document keys).named <+: Visit.assigned source walked keys ∧
      ∀ graph, (extract source document keys).graph = .ok graph →
        walked = document.visits ∧
          (extract source document keys).named = Visit.assigned source walked keys := by
  have htraced : Traced source document.visits (steps source document) :=
    (traced source).holds_steps document
  rcases hsteps : steps source document (initial keys) with ⟨e | _, after⟩
  · obtain ⟨walked, named, hwalked, hprefix, hthrough⟩ := htraced.stopped hsteps
    have hnamed : after.named = named := hthrough.named
    rw [← hnamed] at hprefix
    refine ⟨walked, hwalked, ?_, ?_, ?_⟩ <;> simp only [extract, hsteps]
    · exact hthrough.keys
    · exact hprefix
    · intro graph h
      cases h
  · have hthrough := htraced.finished hsteps
    have hnamed : (extract source document keys).named =
        Visit.assigned source document.visits keys := by
      simp only [extract, hsteps]
      exact hthrough.named
    refine ⟨document.visits, List.prefix_rfl, ?_, hnamed ▸ List.prefix_rfl,
      fun _ _ => ⟨rfl, hnamed⟩⟩
    simp only [extract, hsteps]
    exact hthrough.keys

/-- With components that need no token, two runs do the same over any tokens. -/
theorem extract_eq_of_selfNamed {document : Json}
    (h : ∀ visit ∈ document.visits, visit.isSelfNamed = true) (source : KeySource σ)
    (reader : KeySource τ) (keys : σ) (keys' : τ) :
    (extract reader document keys').graph = (extract source document keys).graph ∧
      (extract reader document keys').events = (extract source document keys).events ∧
      (extract source document keys).keys = keys := by
  have huniform := (selfNamed source reader).holds_steps document h
  have hsame : steps reader document (initial keys') = _ := huniform.same (initial keys) keys'
  have hkeys := huniform.keys (initial keys)
  unfold extract
  rw [hsame]
  rcases hsteps : steps source document (initial keys) with ⟨_ | _, after⟩ <;>
    rw [hsteps] at hkeys <;> exact ⟨rfl, rfl, hkeys⟩

end Extraction

end Blueprint
