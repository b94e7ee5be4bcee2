import MessageBridge.Proofs.Settings.Merging

/-!
# The single settings

Settings are records of records, and a `Leaf` is one field at the end: the path of keys at
which it stands in a value, how what stands there is converted, and how the field is got
at. Every record has its leaves, and a record that contains others has theirs.

`Reads` says that a record is read leaf by leaf, with nothing taken from anywhere else.
Each leaf takes what stands at its path; there may be nothing only where the leaf has an
answer for that. It does not say when a record can be read.
-/

namespace MessageBridge

open Settings (Value)
open Json (withDefault optional)

/-- One field at the end of a record of records. -/
structure Leaf (σ : Type) where
  path : List String
  Content : Type
  /-- What the field is for a value. -/
  convert : Value → Option Content
  /-- What the field is for no value, if there may be none. -/
  absent : Option Content
  get : σ → Content

namespace Leaf

variable {σ τ : Type}

/-- A field for which there has to be a value. -/
def required (key : String) {α : Type} (convert : Value → Option α) (get : σ → α) : Leaf σ :=
  ⟨[key], α, convert, none, get⟩

/-- A field of a record that is itself a field. -/
def within (key : String) (part : τ → σ) (leaf : Leaf σ) : Leaf τ :=
  { leaf with path := key :: leaf.path, get := fun s => leaf.get (part s) }

/-- What the field is for what is given. -/
def read (leaf : Leaf σ) (given : Option Value) : Option leaf.Content :=
  given.elim leaf.absent leaf.convert

/-- The field is not read from a table, nor from an array. -/
def Single (leaf : Leaf σ) : Prop :=
  ∀ value : Value, value.isContainer = true → leaf.convert value = none

theorem single_of {leaf : Leaf σ} (htable : ∀ entries, leaf.convert (.table entries) = none)
    (harray : ∀ items, leaf.convert (.array items) = none) : leaf.Single := by
  intro value hcontainer
  cases value with
  | table entries => exact htable entries
  | array items => exact harray items
  | _ => cases hcontainer

/-- There is a value for the field in a table, or there need not be one. -/
def Stands (leaf : Leaf σ) (value : Value) : Prop :=
  leaf.absent = none → (value.at? leaf.path).isSome = true

end Leaf

/-! ## All leaves -/

def FileSettings.leaves : List (Leaf FileSettings) :=
  [.required "config_location" Value.text? (·.configLocation)]

def RetrySettings.leaves : List (Leaf RetrySettings) :=
  [.required "enabled" Value.bool? (·.enabled),
    .required "max_attempts" (Value.natural? Word.largestHalf) (·.maxAttempts),
    .required "initial_interval" Value.reading.duration? (·.initialInterval),
    .required "multiplier" Value.float? (·.multiplier),
    .required "max_interval" Value.reading.duration? (·.maxInterval)]

def ListenerSettings.leaves : List (Leaf ListenerSettings) :=
  [.required "concurrency" (Value.natural? Word.largest) (·.concurrency)]

def RabbitSettings.leaves : List (Leaf RabbitSettings) :=
  RetrySettings.leaves.map (.within "retry" (·.retry)) ++
    ListenerSettings.leaves.map (.within "listener" (·.listener))

/-- The idempotency key is the only setting without a default. Null is as good as nothing
there. -/
def PollerSettings.leaves : List (Leaf PollerSettings) :=
  [.required "wait_time" Value.reading.duration? (·.waitTime),
    .required "max_messages" (Value.natural? Word.largest) (·.maxMessages),
    .required "fixed_delay" Value.reading.duration? (·.fixedDelay),
    { path := ["idempotency_key"]
      Content := Option String
      convert := fun value => if value.isNull then some none else value.text?.map some
      absent := some none
      get := (·.idempotencyKey) }]

def LogSettings.leaves : List (Leaf LogSettings) :=
  [.required "log_level" Value.text? (·.level), .required "log_format" Value.text? (·.format)]

def Settings.leaves : List (Leaf Settings) :=
  FileSettings.leaves.map (.within "bridge" (·.bridge)) ++
    (RabbitSettings.leaves.map (.within "rabbit" (·.rabbit)) ++
      (PollerSettings.leaves.map (.within "poller" (·.poller)) ++
        LogSettings.leaves.map (.within "observability" (·.observability))))

example : Settings.leaves.map (·.path) =
    [["bridge", "config_location"],
      ["rabbit", "retry", "enabled"], ["rabbit", "retry", "max_attempts"],
      ["rabbit", "retry", "initial_interval"], ["rabbit", "retry", "multiplier"],
      ["rabbit", "retry", "max_interval"],
      ["rabbit", "listener", "concurrency"],
      ["poller", "wait_time"], ["poller", "max_messages"], ["poller", "fixed_delay"],
      ["poller", "idempotency_key"],
      ["observability", "log_level"], ["observability", "log_format"]] := rfl

/-! ## What stands in a table -/

namespace Settings.Value

theorem at?_key (value : Value) (key : String) :
    value.at? [key] = Entries.get? key value.entries :=
  Option.bind_fun_some ..

theorem at?_cons (value : Value) (key : String) (path : List String) :
    value.at? (key :: path) = (value.at? [key]).bind (·.at? path) := by
  rw [at?_key]
  rfl

/-- Something stands at a key only in a table. -/
theorem exists_table {value : Value} {path : List String} (hpath : path ≠ [])
    (h : (value.at? path).isSome = true) : ∃ entries, value = table entries := by
  cases path with
  | nil => exact absurd rfl hpath
  | cons key path =>
      cases value with
      | table entries => exact ⟨entries, rfl⟩
      | _ => cases h

theorem fields?_table (names : List String) (entries : List (String × Value)) :
    fields? names (table entries) = some (names.map fun name => (table entries).at? [name]) := by
  simp only [fields?, at?_key, Value.entries]

end Settings.Value

/-! ## Reading records -/

variable {σ τ : Type}

/-- A record that is read from a table where all its leaves stand has in each of them what
stands there, and each of them is single. -/
structure Reads (read : Value → Option σ) (leaves : List (Leaf σ)) : Prop where
  leaf : ∀ entries s, read (.table entries) = some s →
    (∀ leaf ∈ leaves, leaf.Stands (.table entries)) →
    ∀ leaf ∈ leaves, leaf.read ((Value.table entries).at? leaf.path) = some (leaf.get s)
  single : ∀ leaf ∈ leaves, leaf.Single

/-- What stands somewhere is read, and no default is taken. -/
theorem read_required {value : Value} {key : String} {α : Type} {default x : α}
    {convert : Value → Option α} {get : σ → α}
    (hstands : (Leaf.required key convert get).Stands value)
    (h : withDefault default convert (value.at? [key]) = some x) :
    (Leaf.required key convert get).read (value.at? [key]) = some x := by
  obtain ⟨inner, hinner⟩ := Option.isSome_iff_exists.mp (hstands rfl)
  have hinner : value.at? [key] = some inner := hinner
  rw [hinner] at h ⊢
  exact h

/-- The leaves of a record within a record are read where the inner record is read. -/
theorem Reads.within {read : Value → Option σ} {leaves : List (Leaf σ)}
    (hreads : Reads read leaves) (hrequired : ∃ leaf ∈ leaves, leaf.absent = none ∧ leaf.path ≠ [])
    {key : String} {part : τ → σ} {default : σ} {value : Value} {s : τ}
    (h : withDefault default read (value.at? [key]) = some (part s))
    (hstands : ∀ leaf ∈ leaves.map (Leaf.within key part), Leaf.Stands leaf value) :
    ∀ leaf ∈ leaves.map (Leaf.within key part),
      leaf.read (value.at? leaf.path) = some (leaf.get s) := by
  simp only [List.forall_mem_map] at hstands ⊢
  have hat : ∀ leaf : Leaf σ, value.at? (leaf.within key part).path =
      (value.at? [key]).bind (·.at? leaf.path) := fun leaf => Value.at?_cons ..
  obtain ⟨leaf, hleaf, habsent, hpath⟩ := hrequired
  obtain ⟨x, hx⟩ := Option.isSome_iff_exists.mp (hstands leaf hleaf habsent)
  obtain ⟨inner, hinner, hx⟩ := Option.bind_eq_some_iff.mp ((hat leaf).symm.trans hx)
  obtain ⟨entries, rfl⟩ := Value.exists_table hpath (Option.isSome_iff_exists.mpr ⟨x, hx⟩)
  rw [hinner] at h
  intro leaf hleaf
  rw [hat, hinner]
  refine hreads.leaf entries (part s) h (fun leaf hleaf habsent => ?_) leaf hleaf
  have hsome := hstands leaf hleaf habsent
  rw [hat, hinner] at hsome
  exact hsome

theorem Reads.single_within {read : Value → Option σ} {leaves : List (Leaf σ)}
    (hreads : Reads read leaves) (key : String) (part : τ → σ) :
    ∀ leaf ∈ leaves.map (Leaf.within key part), leaf.Single :=
  List.forall_mem_map.mpr hreads.single

theorem FileSettings.reads : Reads (FileSettings.read Value.reading) FileSettings.leaves where
  leaf := by
    intro entries s h hstands
    simp only [FileSettings.read, Value.reading, Value.fields?_table, List.map,
      Option.bind_eq_bind, Option.bind_some, Option.bind_eq_some_iff, Option.pure_def,
      Option.some.injEq] at h
    obtain ⟨_, hlocation, rfl⟩ := h
    simp only [FileSettings.leaves, List.forall_mem_cons] at hstands ⊢
    exact ⟨read_required hstands.1 hlocation, nofun⟩
  single := by
    simp only [FileSettings.leaves, List.forall_mem_cons]
    exact ⟨Leaf.single_of (fun _ => rfl) fun _ => rfl, nofun⟩

theorem RetrySettings.reads : Reads (RetrySettings.read Value.reading) RetrySettings.leaves where
  leaf := by
    intro entries s h hstands
    simp only [RetrySettings.read, Value.reading, Value.fields?_table, List.map,
      Option.bind_eq_bind, Option.bind_some, Option.bind_eq_some_iff, Option.pure_def,
      Option.some.injEq] at h
    obtain ⟨_, henabled, _, hattempts, _, hinitial, _, hmultiplier, _, hmax, rfl⟩ := h
    simp only [RetrySettings.leaves, List.forall_mem_cons] at hstands ⊢
    obtain ⟨h₁, h₂, h₃, h₄, h₅, -⟩ := hstands
    exact ⟨read_required h₁ henabled, read_required h₂ hattempts, read_required h₃ hinitial,
      read_required h₄ hmultiplier, read_required h₅ hmax, nofun⟩
  single := by
    simp only [RetrySettings.leaves, List.forall_mem_cons]
    refine ⟨?_, ?_, ?_, ?_, ?_, nofun⟩ <;> exact Leaf.single_of (fun _ => rfl) fun _ => rfl

theorem ListenerSettings.reads :
    Reads (ListenerSettings.read Value.reading) ListenerSettings.leaves where
  leaf := by
    intro entries s h hstands
    simp only [ListenerSettings.read, Value.reading, Value.fields?_table, List.map,
      Option.bind_eq_bind, Option.bind_some, Option.bind_eq_some_iff, Option.pure_def,
      Option.some.injEq] at h
    obtain ⟨_, hconcurrency, rfl⟩ := h
    simp only [ListenerSettings.leaves, List.forall_mem_cons] at hstands ⊢
    exact ⟨read_required hstands.1 hconcurrency, nofun⟩
  single := by
    simp only [ListenerSettings.leaves, List.forall_mem_cons]
    exact ⟨Leaf.single_of (fun _ => rfl) fun _ => rfl, nofun⟩

theorem RabbitSettings.reads :
    Reads (RabbitSettings.read Value.reading) RabbitSettings.leaves where
  leaf := by
    intro entries s h hstands
    simp only [RabbitSettings.read, Value.reading, Value.fields?_table, List.map,
      Option.bind_eq_bind, Option.bind_some, Option.bind_eq_some_iff, Option.pure_def,
      Option.some.injEq] at h
    obtain ⟨retry, hretry, listener, hlistener, rfl⟩ := h
    simp only [RabbitSettings.leaves, List.forall_mem_append] at hstands ⊢
    exact ⟨RetrySettings.reads.within ⟨_, List.mem_cons_self, rfl, nofun⟩ hretry hstands.1,
      ListenerSettings.reads.within ⟨_, List.mem_cons_self, rfl, nofun⟩ hlistener hstands.2⟩
  single := List.forall_mem_append.mpr
    ⟨RetrySettings.reads.single_within _ _, ListenerSettings.reads.single_within _ _⟩

theorem PollerSettings.reads :
    Reads (PollerSettings.read Value.reading) PollerSettings.leaves where
  leaf := by
    intro entries s h hstands
    simp only [PollerSettings.read, Value.reading, Value.fields?_table, List.map,
      Option.bind_eq_bind, Option.bind_some, Option.bind_eq_some_iff, Option.pure_def,
      Option.some.injEq] at h
    obtain ⟨_, hwait, _, hmessages, _, hdelay, _, hkey, rfl⟩ := h
    simp only [PollerSettings.leaves, List.forall_mem_cons] at hstands ⊢
    obtain ⟨h₁, h₂, h₃, -⟩ := hstands
    refine ⟨read_required h₁ hwait, read_required h₂ hmessages, read_required h₃ hdelay, ?_, nofun⟩
    rw [← hkey]
    cases (Value.table entries).at? ["idempotency_key"] <;> rfl
  single := by
    simp only [PollerSettings.leaves, List.forall_mem_cons]
    refine ⟨?_, ?_, ?_, ?_, nofun⟩ <;> exact Leaf.single_of (fun _ => rfl) fun _ => rfl

theorem LogSettings.reads : Reads (LogSettings.read Value.reading) LogSettings.leaves where
  leaf := by
    intro entries s h hstands
    simp only [LogSettings.read, Value.reading, Value.fields?_table, List.map,
      Option.bind_eq_bind, Option.bind_some, Option.bind_eq_some_iff, Option.pure_def,
      Option.some.injEq] at h
    obtain ⟨_, hlevel, _, hformat, rfl⟩ := h
    simp only [LogSettings.leaves, List.forall_mem_cons] at hstands ⊢
    exact ⟨read_required hstands.1 hlevel, read_required hstands.2.1 hformat, nofun⟩
  single := by
    simp only [LogSettings.leaves, List.forall_mem_cons]
    refine ⟨?_, ?_, nofun⟩ <;> exact Leaf.single_of (fun _ => rfl) fun _ => rfl

theorem Settings.reads : Reads (Settings.read Value.reading) Settings.leaves where
  leaf := by
    intro entries s h hstands
    simp only [Settings.read, Value.reading, Value.fields?_table, List.map,
      Option.bind_eq_bind, Option.bind_some, Option.bind_eq_some_iff, Option.pure_def,
      Option.some.injEq] at h
    obtain ⟨_, hbridge, _, hrabbit, _, hpoller, _, hlog, rfl⟩ := h
    simp only [Settings.leaves, List.forall_mem_append] at hstands ⊢
    obtain ⟨h₁, h₂, h₃, h₄⟩ := hstands
    exact ⟨FileSettings.reads.within ⟨_, List.mem_cons_self, rfl, nofun⟩ hbridge h₁,
      RabbitSettings.reads.within ⟨_, List.mem_cons_self, rfl, nofun⟩ hrabbit h₂,
      PollerSettings.reads.within ⟨_, List.mem_cons_self, rfl, nofun⟩ hpoller h₃,
      LogSettings.reads.within ⟨_, List.mem_cons_self, rfl, nofun⟩ hlog h₄⟩
  single := by
    simp only [Settings.leaves, List.forall_mem_append]
    exact ⟨FileSettings.reads.single_within _ _, RabbitSettings.reads.single_within _ _,
      PollerSettings.reads.single_within _ _, LogSettings.reads.single_within _ _⟩

end MessageBridge
