import MessageBridge.Bridge.Validation
import MessageBridge.Proofs.OrderedTexts
import MessageBridge.Proofs.Traversal

/-!
# What is wrong with bridge definitions, and what they make

`Fails` says what is wrong with a single definition, in terms of what it holds:
there is one way to fail for each defect, and each belongs to one of four checks.
The checks come one after the other and each of them goes over all definitions,
so a definition is reported for a check only when every definition has passed the
checks before it, and the first one that fails is taken. `Reported` says so.

The theorems compare the validation with this. It reports a defect exactly when
`Reported` does, and it makes bridges exactly when there is nothing to report.
What a bridge has from its definition is listed in `Makes`.
-/

namespace MessageBridge

/-! ## Going over a list -/

/-- The first element of a list of which something holds. -/
def IsFirst {α ε : Type} (P : α → ε → Prop) (xs : List α) (e : ε) : Prop :=
  ∃ before x after, xs = before ++ x :: after ∧ P x e ∧ ∀ y ∈ before, ∀ other, ¬ P y other

theorem isFirst_cons {α ε : Type} {P : α → ε → Prop} {x : α} {xs : List α} {e : ε} :
    IsFirst P (x :: xs) e ↔ P x e ∨ (∀ other, ¬ P x other) ∧ IsFirst P xs e := by
  constructor
  · rintro ⟨before, y, after, hxs, hy, hbefore⟩
    cases before with
    | nil =>
        obtain ⟨rfl, _⟩ := List.cons.inj hxs
        exact Or.inl hy
    | cons z before =>
        obtain ⟨rfl, htail⟩ := List.cons.inj hxs
        exact Or.inr ⟨hbefore x List.mem_cons_self, before, y, after, htail, hy,
          fun z hz => hbefore z (List.mem_cons_of_mem _ hz)⟩
  · rintro (hx | ⟨hnot, before, y, after, rfl, hy, hbefore⟩)
    · exact ⟨[], x, xs, rfl, hx, fun y hy => nomatch hy⟩
    · refine ⟨x :: before, y, after, rfl, hy, ?_⟩
      intro z hz
      rcases List.mem_cons.mp hz with rfl | hz
      · exact hnot
      · exact hbefore z hz

theorem forall_iff_no_first {α ε : Type} {P : α → ε → Prop} {xs : List α} :
    (∀ x ∈ xs, ∀ e, ¬ P x e) ↔ ∀ e, ¬ IsFirst P xs e := by
  constructor
  · rintro h e ⟨before, x, after, rfl, hx, _⟩
    exact h x (by simp) e hx
  · induction xs with
    | nil => simp
    | cons x xs ih =>
        intro h
        have hx : ∀ e, ¬ P x e := fun e hx => h e (isFirst_cons.mpr (.inl hx))
        have hxs := ih fun e hxs => h e (isFirst_cons.mpr (.inr ⟨hx, hxs⟩))
        exact List.forall_mem_cons.mpr ⟨hx, hxs⟩

section Traversal

variable {α β γ ε : Type} {R : α → β → Prop} {P : α → ε → Prop} {f : β → Except ε γ}
  {xs : List α} {ys : List β}

/-- A function that goes over a list stops at the first element on which it fails. -/
theorem mapM_error_iff (h : List.Forall₂ R xs ys)
    (hf : ∀ x y, R x y → ∀ e, f y = .error e ↔ P x e) (e : ε) :
    ys.mapM f = .error e ↔ IsFirst P xs e := by
  induction h with
  | nil =>
      refine ⟨(fun h => nomatch h), ?_⟩
      rintro ⟨before, x, after, hnil, _⟩
      simp at hnil
  | @cons x y xs ys hxy _ ih =>
      rw [isFirst_cons, ← ih, ← hf x y hxy, List.mapM_cons]
      cases hy : f y with
      | error e' =>
          have hno : ¬ ∀ other, ¬ P x other := fun hno => hno e' ((hf x y hxy e').mp hy)
          simp [bind, Except.bind, hno]
      | ok z =>
          have hpass : ∀ other, ¬ P x other := by
            intro other hother
            rw [(hf x y hxy other).mpr hother] at hy
            cases hy
          cases hys : ys.mapM f with
          | error e' => simp [bind, Except.bind, hpass]
          | ok zs => simp [bind, Except.bind, pure, Except.pure]

theorem forall₂_comp {S : β → γ → Prop} {T : α → γ → Prop} {zs : List γ}
    (hxy : List.Forall₂ R xs ys) (hyz : List.Forall₂ S ys zs)
    (h : ∀ x y z, R x y → S y z → T x z) : List.Forall₂ T xs zs := by
  induction hxy generalizing zs with
  | nil =>
      cases hyz
      exact .nil
  | cons hx _ ih =>
      cases hyz with
      | cons hz hyz => exact .cons (h _ _ _ hx hz) (ih hyz)

end Traversal

namespace Definition

/-! ## What a definition says -/

/-- The definition names one source. -/
inductive ReadsFrom (d : Definition) : Source → Prop where
  | rabbit {source : RabbitSource} (names : d.source = some ⟨some source, none⟩) :
    ReadsFrom d (.rabbit source)
  | sqs {name : String} (names : d.source = some ⟨none, some name⟩) : ReadsFrom d (.sqs name)

/-- The definition names one destination. -/
inductive LeadsTo (d : Definition) : Destination → Prop where
  | sns {name : String} (names : d.destination = some ⟨some name, none, none⟩) :
    LeadsTo d (.sns name)
  | sqs {name : String} (names : d.destination = some ⟨none, some name, none⟩) :
    LeadsTo d (.sqs name)
  | rabbit {target : RabbitDestination} (names : d.destination = some ⟨none, none, some target⟩) :
    LeadsTo d (.rabbit target)

/-- The definition asks for a transformation. Null, an empty list and an empty
object ask for none. -/
def Wants (d : Definition) (spec : Json) : Prop :=
  d.spec = some spec ∧ spec ≠ .null ∧ spec ≠ .array [] ∧ spec ≠ .object []

/-- What definitions are checked for. -/
inductive Check where
  /-- A source and a destination are named, and the source is one. -/
  | ends
  /-- What comes from rabbit goes to one Amazon destination. -/
  | forward
  /-- What comes from an Amazon queue goes to rabbit alone. -/
  | reverse
  /-- What comes from rabbit is transformed by a specification that compiles. -/
  | spec
  deriving DecidableEq

/-- The checks that come before another one. -/
def Check.earlier : Check → List Check
  | ends => []
  | forward => [ends]
  | reverse => [ends, forward]
  | spec => [ends, forward, reverse]

theorem Check.order (c c' : Check) : c ∈ c'.earlier ∨ c = c' ∨ c' ∈ c.earlier := by
  cases c <;> cases c' <;> decide

/-- The definition does not pass a check, and this is why. -/
inductive Fails (d : Definition) : Check → Defect → Prop where
  | noSource (names : d.source = none ∨ d.source = some ⟨none, none⟩) : Fails d .ends .noSource
  | twoSources {source : RabbitSource} {name : String}
      (names : d.source = some ⟨some source, some name⟩) : Fails d .ends .twoSources
  | noDestination {source : Source} (reads : d.ReadsFrom source) (names : d.destination = none) :
    Fails d .ends .noDestination
  | fanOut {source : RabbitSource} {sns sqs : String} {rabbit : Option RabbitDestination}
      (reads : d.ReadsFrom (.rabbit source))
      (names : d.destination = some ⟨some sns, some sqs, rabbit⟩) : Fails d .forward .fanOut
  | rabbitToRabbit {source : RabbitSource} {sns sqs : Option String} {target : RabbitDestination}
      (reads : d.ReadsFrom (.rabbit source)) (names : d.destination = some ⟨sns, sqs, some target⟩)
      (single : sns = none ∨ sqs = none) : Fails d .forward .rabbitToRabbit
  | noAmazonDestination {source : RabbitSource} (reads : d.ReadsFrom (.rabbit source))
      (names : d.destination = some ⟨none, none, none⟩) : Fails d .forward .noAmazonDestination
  | sqsToAmazon {name : String} {sns sqs : Option String} {rabbit : Option RabbitDestination}
      (reads : d.ReadsFrom (.sqs name)) (names : d.destination = some ⟨sns, sqs, rabbit⟩)
      (amazon : sns ≠ none ∨ sqs ≠ none) : Fails d .reverse .sqsToAmazon
  | noRabbitDestination {name : String} (reads : d.ReadsFrom (.sqs name))
      (names : d.destination = some ⟨none, none, none⟩) : Fails d .reverse .noRabbitDestination
  | invalidSpec {source : RabbitSource} {spec : Json} (reads : d.ReadsFrom (.rabbit source))
      (wants : d.Wants spec) (invalid : ∀ compiled, Spec.compile spec ≠ .ok compiled) :
    Fails d .spec .invalidSpec

/-- All definitions pass a check. -/
def Pass (definitions : List Definition) (check : Check) : Prop :=
  ∀ d ∈ definitions, ∀ defect, ¬ d.Fails check defect

/-- The defect that definitions are refused for: that there are none, or that of
the first definition that fails the first check that not all of them pass. -/
inductive Reported (definitions : List Definition) : Defect → Prop where
  | noDefinitions (none : definitions = []) : Reported definitions .noDefinitions
  | failed {check : Check} {defect : Defect}
      (passed : ∀ other ∈ check.earlier, Pass definitions other)
      (first : IsFirst (Fails · check) definitions defect) : Reported definitions defect

/-- The bridge is what the definition says. A definition that does not say whether
to forward does forward. -/
structure Makes (d : Definition) (b : Bridge) : Prop where
  source : d.ReadsFrom b.source
  destination : d.LeadsTo b.destination
  spec : ∀ spec, b.spec = some spec ↔ d.Wants spec
  whitelist : Option.Rel (fun kept fields => ∀ x, x ∈ kept ↔ x ∈ fields) b.whitelist d.whitelist
  forwarding : b.forwarding = d.forwarding.getD true
  description : b.description = d.description

/-! ## Single definitions -/

/-- The route is that of the definition. -/
inductive Routes (d : Definition) : Route → Prop where
  | settled {source : Source} {block : DestinationBlock} (reads : d.ReadsFrom source)
      (names : d.destination = some block) : Routes d ⟨d, source, block⟩

theorem toSource_error_iff {d : Definition} {defect : Defect} :
    SourceBlock.toSource d.source = .error defect ↔
      (d.source = none ∨ d.source = some ⟨none, none⟩) ∧ defect = .noSource ∨
      (∃ source name, d.source = some ⟨some source, some name⟩) ∧ defect = .twoSources := by
  rcases d.source with _ | ⟨_ | source, _ | name⟩ <;> simp [SourceBlock.toSource, eq_comm]

theorem toSource_ok_iff {d : Definition} {source : Source} :
    SourceBlock.toSource d.source = .ok source ↔ d.ReadsFrom source := by
  constructor
  · intro h
    rcases hsource : d.source with _ | ⟨_ | _, _ | _⟩ <;> rw [hsource] at h <;> cases h
    · exact .sqs hsource
    · exact .rabbit hsource
  · intro h
    cases h with
    | rabbit names => rw [names]; rfl
    | sqs names => rw [names]; rfl

theorem ReadsFrom.unique {d : Definition} {source other : Source} (h : d.ReadsFrom source)
    (hother : d.ReadsFrom other) : source = other := by
  rw [← toSource_ok_iff] at h hother
  exact Except.ok.inj (h.symm.trans hother)

theorem route_of_error {d : Definition} {defect : Defect}
    (h : SourceBlock.toSource d.source = .error defect) : d.route = .error defect := by
  simp only [route, h]
  rfl

theorem route_of_ok {d : Definition} {source : Source}
    (h : SourceBlock.toSource d.source = .ok source) :
    d.route = match d.destination with
      | none => .error .noDestination
      | some block => .ok ⟨d, source, block⟩ := by
  simp only [route, h]
  rfl

theorem route_error_iff {d : Definition} {defect : Defect} :
    d.route = .error defect ↔ d.Fails .ends defect := by
  constructor
  · intro h
    cases hsource : SourceBlock.toSource d.source with
    | error e =>
        rw [route_of_error hsource] at h
        cases h
        rcases toSource_error_iff.mp hsource with ⟨names, rfl⟩ | ⟨⟨_, _, names⟩, rfl⟩
        · exact .noSource names
        · exact .twoSources names
    | ok source =>
        rw [route_of_ok hsource] at h
        cases names : d.destination with
        | none =>
            rw [names] at h
            cases h
            exact .noDestination (toSource_ok_iff.mp hsource) names
        | some block =>
            rw [names] at h
            cases h
  · intro h
    cases h with
    | noSource names => exact route_of_error (toSource_error_iff.mpr (.inl ⟨names, rfl⟩))
    | twoSources names =>
        exact route_of_error (toSource_error_iff.mpr (.inr ⟨⟨_, _, names⟩, rfl⟩))
    | noDestination reads names => rw [route_of_ok (toSource_ok_iff.mpr reads), names]

theorem routes_of_route {d : Definition} {r : Route} (h : d.route = .ok r) : Routes d r := by
  cases hsource : SourceBlock.toSource d.source with
  | error e =>
      rw [route_of_error hsource] at h
      cases h
  | ok source =>
      rw [route_of_ok hsource] at h
      cases names : d.destination with
      | none =>
          rw [names] at h
          cases h
      | some block =>
          rw [names] at h
          cases h
          exact .settled (toSource_ok_iff.mp hsource) names

section Routes

variable {d : Definition} {r : Route}

theorem checkForward_error_iff (h : Routes d r) (defect : Defect) :
    r.checkForward = .error defect ↔ d.Fails .forward defect := by
  obtain @⟨source, ⟨sns, sqs, rabbit⟩, reads, names⟩ := h
  constructor
  · intro hcheck
    cases source with
    | sqs name => cases hcheck
    | rabbit source =>
        rcases sns with _ | sns <;> rcases sqs with _ | sqs <;> rcases rabbit with _ | target <;>
          cases hcheck
        · exact .noAmazonDestination reads names
        · exact .rabbitToRabbit reads names (.inl rfl)
        · exact .rabbitToRabbit reads names (.inl rfl)
        · exact .rabbitToRabbit reads names (.inr rfl)
        · exact .fanOut reads names
        · exact .fanOut reads names
  · intro hfails
    cases hfails with
    | fanOut reads' names' =>
        obtain rfl := reads.unique reads'
        cases names.symm.trans names'
        rfl
    | rabbitToRabbit reads' names' single =>
        obtain rfl := reads.unique reads'
        cases names.symm.trans names'
        rcases sns with _ | _ <;> rcases sqs with _ | _
        case some.some => exact absurd single (by simp)
        all_goals rfl
    | noAmazonDestination reads' names' =>
        obtain rfl := reads.unique reads'
        cases names.symm.trans names'
        rfl

theorem checkReverse_error_iff (h : Routes d r) (defect : Defect) :
    r.checkReverse = .error defect ↔ d.Fails .reverse defect := by
  obtain @⟨source, ⟨sns, sqs, rabbit⟩, reads, names⟩ := h
  constructor
  · intro hcheck
    cases source with
    | rabbit source => cases hcheck
    | sqs name =>
        rcases sns with _ | sns <;> rcases sqs with _ | sqs <;> rcases rabbit with _ | target <;>
          cases hcheck
        · exact .noRabbitDestination reads names
        all_goals exact .sqsToAmazon reads names (by simp)
  · intro hfails
    cases hfails with
    | sqsToAmazon reads' names' amazon =>
        obtain rfl := reads.unique reads'
        cases names.symm.trans names'
        rcases sns with _ | _ <;> rcases sqs with _ | _
        case none.none => exact absurd amazon (by simp)
        all_goals rfl
    | noRabbitDestination reads' names' =>
        obtain rfl := reads.unique reads'
        cases names.symm.trans names'
        rfl

theorem bridge_error_iff (h : Routes d r) (defect : Defect) :
    r.bridge = .error defect ↔ d.Fails .forward defect ∨ d.Fails .reverse defect := by
  rw [← checkForward_error_iff h, ← checkReverse_error_iff h]
  cases hsource : r.source with
  | rabbit source =>
      cases hblock : r.block.forRabbit <;>
        simp [Route.bridge, Route.checkForward, Route.checkReverse, DestinationBlock.forSource,
          hsource, hblock, bind, Except.bind, pure, Except.pure, Except.map]
  | sqs name =>
      cases hblock : r.block.forSqs <;>
        simp [Route.bridge, Route.checkForward, Route.checkReverse, DestinationBlock.forSource,
          hsource, hblock, bind, Except.bind, pure, Except.pure, Except.map]

theorem normalizeSpec_eq_some {spec? : Option Json} {spec : Json} :
    Bridge.normalizeSpec spec? = some spec ↔
      spec? = some spec ∧ spec ≠ .null ∧ spec ≠ .array [] ∧ spec ≠ .object [] := by
  constructor
  · intro h
    unfold Bridge.normalizeSpec at h
    split at h <;> cases h
    exact ⟨rfl, by assumption, by assumption, by assumption⟩
  · rintro ⟨rfl, hnull, harray, hobject⟩
    unfold Bridge.normalizeSpec
    split <;> simp_all

theorem checkSpec_error_iff (h : Routes d r) (defect : Defect) :
    r.checkSpec = .error defect ↔ d.Fails .spec defect := by
  obtain @⟨source, block, reads, names⟩ := h
  constructor
  · intro hcheck
    cases source with
    | sqs name => cases hcheck
    | rabbit source =>
        cases hspec : Bridge.normalizeSpec d.spec with
        | none => simp [Route.checkSpec, hspec] at hcheck
        | some spec =>
            cases hcompile : Spec.compile spec with
            | ok compiled => simp [Route.checkSpec, hspec, hcompile] at hcheck
            | error e =>
                simp only [Route.checkSpec, hspec, hcompile] at hcheck
                cases hcheck
                exact .invalidSpec reads (normalizeSpec_eq_some.mp hspec) (by simp [hcompile])
  · intro hfails
    cases hfails with
    | @invalidSpec _ spec reads' wants invalid =>
        obtain rfl := reads.unique reads'
        cases hcompile : Spec.compile spec with
        | ok compiled => exact absurd hcompile (invalid compiled)
        | error e => simp [Route.checkSpec, normalizeSpec_eq_some.mpr wants, hcompile]

theorem leadsTo_of_forSource {destination : Destination} (h : Routes d r)
    (hd : r.block.forSource r.source = .ok destination) : d.LeadsTo destination := by
  obtain @⟨source, ⟨sns, sqs, rabbit⟩, reads, names⟩ := h
  cases source with
  | rabbit source =>
      rcases sns with _ | sns <;> rcases sqs with _ | sqs <;> rcases rabbit with _ | target <;>
        cases hd
      · exact .sqs names
      · exact .sns names
  | sqs name =>
      rcases sns with _ | sns <;> rcases sqs with _ | sqs <;> rcases rabbit with _ | target <;>
        cases hd
      exact .rabbit names

theorem makes_of_bridge {b : Bridge} (h : Routes d r) (hb : r.bridge = .ok b) : Makes d b := by
  cases hd : r.block.forSource r.source with
  | error e => simp [Route.bridge, hd, bind, Except.bind] at hb
  | ok destination =>
      have leads := leadsTo_of_forSource h hd
      obtain ⟨reads, names⟩ := h
      simp only [Route.bridge, hd, bind, Except.bind, pure, Except.pure] at hb
      cases hb
      exact {
        source := reads
        destination := leads
        spec := fun spec => normalizeSpec_eq_some
        whitelist := by
          cases d.whitelist with
          | none => exact .none
          | some fields => exact .some fun x => OrderedTexts.mem_ofList
        forwarding := rfl
        description := rfl }

end Routes

/-! ## All definitions -/

section Validate

variable {definitions : List Definition} {check : Check} {defect : Defect}

theorem pass_iff : Pass definitions check ↔ ∀ defect, ¬ IsFirst (Fails · check) definitions defect :=
  forall_iff_no_first

/-- When the first definition to fail a check is known, and all have passed the
checks before it, then that is what is reported. -/
theorem reported_iff_first {first : Defect} (hne : definitions ≠ [])
    (passed : ∀ other ∈ check.earlier, Pass definitions other)
    (hfirst : IsFirst (Fails · check) definitions first) :
    Reported definitions defect ↔ IsFirst (Fails · check) definitions defect := by
  refine ⟨fun h => ?_, .failed passed⟩
  cases h with
  | noDefinitions hnil => exact absurd hnil hne
  | @failed other _ passed' hother =>
      rcases Check.order check other with hearlier | rfl | hlater
      · exact absurd hfirst (pass_iff.mp (passed' check hearlier) first)
      · exact hother
      · exact absurd hother (pass_iff.mp (passed other hlater) defect)

theorem pass_of_ok {β : Type} {found : Except Defect β} {value : β}
    (hfound : ∀ e, found = .error e ↔ IsFirst (Fails · check) definitions e)
    (hok : found = .ok value) : Pass definitions check := by
  rw [pass_iff]
  intro defect hfirst
  rw [(hfound defect).mpr hfirst] at hok
  cases hok

/-- A check, which goes over what became of the definitions, and what is done
after it. When what comes after reports what should be reported, so do both. -/
theorem bind_error_iff {β γ : Type} {found : Except Defect β} {next : β → Except Defect γ}
    (hne : definitions ≠ [])
    (hfound : ∀ e, found = .error e ↔ IsFirst (Fails · check) definitions e)
    (passed : ∀ other ∈ check.earlier, Pass definitions other)
    (hnext : ∀ value, found = .ok value → Pass definitions check →
      (next value = .error defect ↔ Reported definitions defect)) :
    (found >>= next) = .error defect ↔ Reported definitions defect := by
  cases hvalue : found with
  | error first =>
      rw [reported_iff_first hne passed ((hfound first).mp hvalue), ← hfound, hvalue]
      simp [bind, Except.bind]
  | ok value => exact hnext value hvalue (pass_of_ok hfound hvalue)

theorem not_reported_iff :
    (∀ defect, ¬ Reported definitions defect) ↔
      definitions ≠ [] ∧ ∀ check, Pass definitions check := by
  constructor
  · intro h
    refine ⟨fun hnil => h .noDefinitions (.noDefinitions hnil), ?_⟩
    have step : ∀ check : Check, (∀ other ∈ check.earlier, Pass definitions other) →
        Pass definitions check := by
      intro check passed
      exact pass_iff.mpr fun defect hfirst => h defect (.failed passed hfirst)
    have ends := step .ends (by simp [Check.earlier])
    have forward := step .forward (by simp [Check.earlier, ends])
    have reverse := step .reverse (by simp [Check.earlier, ends, forward])
    have spec := step .spec (by simp [Check.earlier, ends, forward, reverse])
    intro check
    cases check with
    | ends => exact ends
    | forward => exact forward
    | reverse => exact reverse
    | spec => exact spec
  · rintro ⟨hne, passed⟩ defect h
    cases h with
    | noDefinitions hnil => exact hne hnil
    | failed _ hfirst => exact pass_iff.mp (passed _) defect hfirst

theorem mapM_route_error_iff (e : Defect) :
    definitions.mapM route = .error e ↔ IsFirst (Fails · .ends) definitions e := by
  have hsame : List.Forall₂ Eq definitions definitions := List.forall₂_same.mpr fun _ _ => rfl
  refine mapM_error_iff hsame ?_ e
  rintro d _ rfl e
  exact route_error_iff

theorem routes_of_mapM_route {routes : List Route} (h : definitions.mapM route = .ok routes) :
    List.Forall₂ Routes definitions routes :=
  (mapM_ok_iff.mp h).imp fun _ _ => routes_of_route

theorem validate_of_ne_nil (hne : definitions ≠ []) :
    validate definitions = definitions.mapM route >>= fun routes =>
      routes.mapM Route.checkForward >>= fun _ => routes.mapM Route.checkReverse >>= fun _ =>
        routes.mapM Route.checkSpec >>= fun _ => routes.mapM Route.bridge := by
  cases definitions with
  | nil => exact absurd rfl hne
  | cons d rest => rfl

/-- Validation reports a defect exactly when it should be reported. -/
theorem validate_error_iff :
    validate definitions = .error defect ↔ Reported definitions defect := by
  by_cases hne : definitions = []
  · subst hne
    constructor
    · intro h
      cases h
      exact .noDefinitions rfl
    · intro h
      cases h with
      | noDefinitions => rfl
      | failed _ hfirst => exact absurd hfirst (pass_iff.mp (by simp [Pass]) defect)
  rw [validate_of_ne_nil hne]
  refine bind_error_iff hne mapM_route_error_iff (by simp [Check.earlier])
    fun routes hroutes ends => ?_
  have hdrawn := routes_of_mapM_route hroutes
  refine bind_error_iff hne (mapM_error_iff hdrawn fun _ _ => checkForward_error_iff)
    (by simp [Check.earlier, ends]) fun _ _ forward => ?_
  refine bind_error_iff hne (mapM_error_iff hdrawn fun _ _ => checkReverse_error_iff)
    (by simp [Check.earlier, ends, forward]) fun _ _ reverse => ?_
  refine bind_error_iff hne (mapM_error_iff hdrawn fun _ _ => checkSpec_error_iff)
    (by simp [Check.earlier, ends, forward, reverse]) fun _ _ spec => ?_
  -- every check is passed: no bridge is refused, and nothing is to be reported
  rw [mapM_error_iff hdrawn fun _ _ => bridge_error_iff]
  have hbridges : ∀ d ∈ definitions, ∀ e, ¬ (d.Fails .forward e ∨ d.Fails .reverse e) :=
    fun d hd e => not_or.mpr ⟨forward d hd e, reverse d hd e⟩
  have hchecks : ∀ check, Pass definitions check := fun check => by cases check <;> assumption
  exact iff_of_false (forall_iff_no_first.mp hbridges defect)
    (not_reported_iff.mpr ⟨hne, hchecks⟩ defect)

/-- The rabbit to rabbit bridge comes first, but its check does not. -/
example (relay : RabbitSource) (target : RabbitDestination) :
    validate [{ source := some ⟨some relay, none⟩, destination := some ⟨none, none, some target⟩ },
      {}] = .error .noSource := by
  rfl

/-- Validation makes bridges exactly when there is nothing to report. -/
theorem validate_ok_iff :
    (∃ bridges, validate definitions = .ok bridges) ↔
      definitions ≠ [] ∧ ∀ check, Pass definitions check := by
  rw [← not_reported_iff]
  simp only [← validate_error_iff]
  cases validate definitions <;> simp

/-- There is one bridge for each definition, in their order. -/
theorem makes_of_validate {bridges : List Bridge} (h : validate definitions = .ok bridges) :
    List.Forall₂ Makes definitions bridges := by
  have hne : definitions ≠ [] := (validate_ok_iff.mp ⟨bridges, h⟩).1
  rw [validate_of_ne_nil hne] at h
  obtain ⟨routes, hroutes, h⟩ := bind_eq_ok h
  obtain ⟨_, _, h⟩ := bind_eq_ok h
  obtain ⟨_, _, h⟩ := bind_eq_ok h
  obtain ⟨_, _, h⟩ := bind_eq_ok h
  exact forall₂_comp (routes_of_mapM_route hroutes) (mapM_ok_iff.mp h) fun _ _ _ => makes_of_bridge

end Validate

end Definition

namespace Bridge

/-! ## Bridge files -/

/-- What a file that does not hold a list of definitions is refused with. It is
named by its position. -/
def unreadable (position : Nat) : Failure :=
  .malformed ("bridge resource #" ++ toString position ++ " is malformed")
    (some "the text is not a list of bridge definitions")

/-- The files hold these lists of definitions. -/
def Read (resources : List ByteArray) (lists : List (List Definition)) : Prop :=
  List.Forall₂ (fun resource definitions => Definition.listOfBytes? resource = some definitions)
    resources lists

/-- What bridge files are refused for. A file that cannot be read comes before
everything that is wrong with definitions. -/
inductive Refused (resources : List ByteArray) : Failure → Prop where
  | unreadable {before after : List ByteArray} {resource : ByteArray}
      (files : resources = before ++ resource :: after)
      (readable : ∀ earlier ∈ before, (Definition.listOfBytes? earlier).isSome)
      (malformed : Definition.listOfBytes? resource = none) :
    Refused resources (unreadable before.length)
  | broken {lists : List (List Definition)} {defect : Definition.Defect}
      (read : Read resources lists) (reported : Definition.Reported lists.flatten defect) :
    Refused resources (.configuration defect.message)

theorem definitionsOf?_none {position : Nat} {resource : ByteArray} {rest : List ByteArray}
    (h : Definition.listOfBytes? resource = none) :
    definitionsOf? position (resource :: rest) = .error (unreadable position) := by
  simp only [definitionsOf?, h, unreadable]

theorem definitionsOf?_some {position : Nat} {resource : ByteArray} {rest : List ByteArray}
    {definitions : List Definition} (h : Definition.listOfBytes? resource = some definitions) :
    definitionsOf? position (resource :: rest) =
      (definitionsOf? (position + 1) rest).map (definitions ++ ·) := by
  simp only [definitionsOf?, h]

theorem definitionsOf?_error_iff {resources : List ByteArray} {position : Nat}
    {failure : Failure} :
    definitionsOf? position resources = .error failure ↔
      ∃ before resource after, resources = before ++ resource :: after ∧
        (∀ earlier ∈ before, (Definition.listOfBytes? earlier).isSome) ∧
        Definition.listOfBytes? resource = none ∧
        failure = unreadable (position + before.length) := by
  induction resources generalizing position with
  | nil => simp [definitionsOf?]
  | cons resource rest ih =>
      cases hresource : Definition.listOfBytes? resource with
      | none =>
          rw [definitionsOf?_none hresource]
          constructor
          · rintro ⟨⟩
            exact ⟨[], resource, rest, rfl, by simp, hresource, rfl⟩
          · rintro ⟨before, first, after, hfiles, hreadable, _, rfl⟩
            cases before with
            | nil => rfl
            | cons earlier before =>
                obtain ⟨rfl, _⟩ := List.cons.inj hfiles
                have hsome := hreadable resource List.mem_cons_self
                rw [hresource] at hsome
                cases hsome
      | some definitions =>
          have hrest : definitionsOf? position (resource :: rest) = .error failure ↔
              definitionsOf? (position + 1) rest = .error failure := by
            rw [definitionsOf?_some hresource]
            cases definitionsOf? (position + 1) rest <;> simp [Except.map]
          rw [hrest, ih]
          constructor
          · rintro ⟨before, first, after, rfl, hreadable, hnone, rfl⟩
            refine ⟨resource :: before, first, after, rfl, ?_, hnone, ?_⟩
            · exact List.forall_mem_cons.mpr ⟨by simp [hresource], hreadable⟩
            · rw [List.length_cons, Nat.add_right_comm, Nat.add_assoc]
          · rintro ⟨before, first, after, hfiles, hreadable, hnone, rfl⟩
            cases before with
            | nil =>
                obtain ⟨rfl, _⟩ := List.cons.inj hfiles
                rw [hresource] at hnone
                cases hnone
            | cons earlier before =>
                refine ⟨before, first, after, (List.cons.inj hfiles).2,
                  (List.forall_mem_cons.mp hreadable).2, hnone, ?_⟩
                rw [List.length_cons, Nat.add_right_comm, Nat.add_assoc]

theorem definitionsOf?_ok_iff {resources : List ByteArray} {position : Nat}
    {definitions : List Definition} :
    definitionsOf? position resources = .ok definitions ↔
      ∃ lists, Read resources lists ∧ definitions = lists.flatten := by
  induction resources generalizing position definitions with
  | nil => simp [definitionsOf?, Read, eq_comm]
  | cons resource rest ih =>
      cases hresource : Definition.listOfBytes? resource with
      | none => simp [definitionsOf?_none, Read, hresource, List.forall₂_cons_left_iff]
      | some first =>
          rw [definitionsOf?_some hresource]
          constructor
          · intro h
            cases hrest : definitionsOf? (position + 1) rest with
            | error failure =>
                rw [hrest] at h
                cases h
            | ok later =>
                rw [hrest] at h
                cases h
                obtain ⟨lists, hread, rfl⟩ := ih.mp hrest
                exact ⟨first :: lists, .cons hresource hread, rfl⟩
          · rintro ⟨_, hread, rfl⟩
            cases hread with
            | @cons _ list _ lists hlist hlists =>
                cases hresource.symm.trans hlist
                rw [ih.mpr ⟨lists, hlists, rfl⟩]
                rfl

theorem ofResources?_of_error {resources : List ByteArray} {failure : Failure}
    (h : definitionsOf? 0 resources = .error failure) :
    ofResources? resources = .error failure := by
  simp only [ofResources?, h]
  rfl

theorem ofResources?_of_ok {resources : List ByteArray} {definitions : List Definition}
    (h : definitionsOf? 0 resources = .ok definitions) :
    ofResources? resources = (Definition.validate definitions).mapError Definition.Defect.failure := by
  simp only [ofResources?, h]
  cases hvalidate : Definition.validate definitions <;> simp [bind, Except.bind, hvalidate] <;> rfl

theorem ofResources?_error_iff {resources : List ByteArray} {failure : Failure} :
    ofResources? resources = .error failure ↔ Refused resources failure := by
  constructor
  · intro h
    cases hdefinitions : definitionsOf? 0 resources with
    | error first =>
        rw [ofResources?_of_error hdefinitions] at h
        cases h
        obtain ⟨before, resource, after, files, readable, malformed, rfl⟩ :=
          definitionsOf?_error_iff.mp hdefinitions
        rw [Nat.zero_add]
        exact .unreadable files readable malformed
    | ok definitions =>
        rw [ofResources?_of_ok hdefinitions] at h
        obtain ⟨lists, read, rfl⟩ := definitionsOf?_ok_iff.mp hdefinitions
        cases hvalidate : Definition.validate lists.flatten with
        | ok bridges =>
            rw [hvalidate] at h
            cases h
        | error defect =>
            rw [hvalidate] at h
            cases h
            exact .broken read (Definition.validate_error_iff.mp hvalidate)
  · intro h
    cases h with
    | unreadable files readable malformed =>
        refine ofResources?_of_error (definitionsOf?_error_iff.mpr ?_)
        exact ⟨_, _, _, files, readable, malformed, by rw [Nat.zero_add]⟩
    | broken read reported =>
        rw [ofResources?_of_ok (definitionsOf?_ok_iff.mpr ⟨_, read, rfl⟩),
          Definition.validate_error_iff.mpr reported]
        rfl

theorem ofResources?_ok_iff {resources : List ByteArray} {bridges : List Bridge} :
    ofResources? resources = .ok bridges ↔
      ∃ lists, Read resources lists ∧ Definition.validate lists.flatten = .ok bridges := by
  constructor
  · intro h
    cases hdefinitions : definitionsOf? 0 resources with
    | error first =>
        rw [ofResources?_of_error hdefinitions] at h
        cases h
    | ok definitions =>
        rw [ofResources?_of_ok hdefinitions] at h
        obtain ⟨lists, read, rfl⟩ := definitionsOf?_ok_iff.mp hdefinitions
        refine ⟨lists, read, ?_⟩
        cases hvalidate : Definition.validate lists.flatten with
        | error defect =>
            rw [hvalidate] at h
            cases h
        | ok made =>
            rw [hvalidate] at h
            cases h
            rfl
  · rintro ⟨lists, read, hvalidate⟩
    rw [ofResources?_of_ok (definitionsOf?_ok_iff.mpr ⟨lists, read, rfl⟩), hvalidate]
    rfl

/-- Bridge files are refused exactly for what `Refused` says. They make bridges
exactly when all of them hold lists of definitions, there is a definition, and
all definitions pass all checks. There is one bridge for each definition then, in
their order. -/
theorem makes_all_or_refuses_first (resources : List ByteArray) :
    (∀ failure, ofResources? resources = .error failure ↔ Refused resources failure) ∧
      ((∃ bridges, ofResources? resources = .ok bridges) ↔
        ∃ lists, Read resources lists ∧ lists.flatten ≠ [] ∧
          ∀ check, Definition.Pass lists.flatten check) ∧
      ∀ bridges, ofResources? resources = .ok bridges →
        ∃ lists, Read resources lists ∧ List.Forall₂ Definition.Makes lists.flatten bridges := by
  refine ⟨fun failure => ofResources?_error_iff, ?_, fun bridges hbridges => ?_⟩
  · simp only [ofResources?_ok_iff, ← Definition.validate_ok_iff]
    exact ⟨fun ⟨bridges, lists, read, hok⟩ => ⟨lists, read, bridges, hok⟩,
      fun ⟨lists, read, bridges, hok⟩ => ⟨bridges, lists, read, hok⟩⟩
  · obtain ⟨lists, read, hok⟩ := ofResources?_ok_iff.mp hbridges
    exact ⟨lists, read, Definition.makes_of_validate hok⟩

/-- A file with one definition for each direction. -/
def officeFile : ByteArray :=
  ("[\x7b\"from\": \x7b\"rabbit\": \x7b\"exchange\": \"e\", \"queueName\": \"q\", " ++
    "\"routingKey\": \"#\"\x7d\x7d, \"to\": \x7b\"sns\": \x7b\"name\": \"outbox\"\x7d\x7d, " ++
    "\"whitelistedFields\": [\"b\", \"a\", \"b\"]\x7d, " ++
    "\x7b\"from\": \x7b\"sqs\": \x7b\"name\": \"inbox\"\x7d\x7d, " ++
    "\"to\": \x7b\"rabbit\": \x7b\"exchange\": \"e\", \"routingKey\": \"k\"\x7d\x7d\x7d]").toUTF8

/-- The bridges of the file. -/
def officeBridges : List Bridge :=
  [{ source := .rabbit ⟨"e", "q", "#"⟩, destination := .sns "outbox", whitelist := some ["a", "b"] },
    { source := .sqs "inbox", destination := .rabbit ⟨"e", "k"⟩ }]

set_option maxRecDepth 4096 in
theorem ofResources?_officeFile : ofResources? [officeFile] = .ok officeBridges := by
  with_unfolding_all rfl

theorem officeFile_makes_bridges :
    ofResources? [officeFile] = .ok officeBridges ∧
      ∃ lists, Read [officeFile] lists ∧
        List.Forall₂ Definition.Makes lists.flatten officeBridges :=
  ⟨ofResources?_officeFile,
    (makes_all_or_refuses_first [officeFile]).2.2 officeBridges ofResources?_officeFile⟩

end Bridge

end MessageBridge
