import MessageBridge.Bridge.Validation
import MessageBridge.Proofs.Json.Fields

/-!
# Bridge definitions survive rewriting

A definition is read from an entry in any of its forms, and it is written in one: an object
with the parts that are there, in a fixed order. What has been written is read back as the
same definition, so a tool that rewrites bridge files changes no bridge.

Of the parts of a definition only the specification is a document of its own. It has been
read from a place below the entry, where it may nest less deeply than the entry, and so
there is room for it when it is written below an entry again.
-/

namespace MessageBridge

open Json (Node Legible Survives present optional required)

namespace Json

theorem present_cons {α : Type} (key : String) (toJson : α → Json) (value : Option α)
    (slots : List (String × Option Json)) :
    present ((key, value.map toJson) :: slots) =
      Definition.entry key toJson value ++ present slots := by
  cases value <;> rfl

theorem present_nil : present [] = [] := rfl

end Json

variable {depth : Nat}

/-! ## Blocks -/

theorem survives_name (name : String) :
    Survives Definition.nameToJson nameOfNode? (depth + 1) name := by
  refine Json.survives_record ["name"] [("name", some (.string name))] rfl (by decide) rfl ?_ ?_
  · simp [Legible.string]
  · intro node hfields
    rw [nameOfNode?, hfields]
    simp [required, Node.text?_written]

theorem RabbitSource.survives (s : RabbitSource) : Survives toJson ofNode? (depth + 1) s := by
  refine Json.survives_record ["exchange", "queueName", "routingKey"]
    [("exchange", some (.string s.exchange)), ("queueName", some (.string s.queueName)),
      ("routingKey", some (.string s.routingKey))] rfl (by decide) rfl ?_ ?_
  · simp [Legible.string]
  · intro node hfields
    rw [ofNode?, hfields]
    simp [required, Node.text?_written]

theorem RabbitDestination.survives (d : RabbitDestination) :
    Survives toJson ofNode? (depth + 1) d := by
  refine Json.survives_record ["exchange", "routingKey"]
    [("exchange", some (.string d.exchange)), ("routingKey", some (.string d.routingKey))]
    rfl (by decide) rfl ?_ ?_
  · simp [Legible.string]
  · intro node hfields
    rw [ofNode?, hfields]
    simp [required, Node.text?_written]

theorem SourceBlock.survives (b : SourceBlock) : Survives toJson ofNode? (depth + 2) b := by
  have hrabbit : ∀ v, b.rabbit = some v →
      Survives RabbitSource.toJson RabbitSource.ofNode? (depth + 1) v := fun v _ => v.survives
  have hsqs : ∀ v, b.sqs = some v →
      Survives Definition.nameToJson nameOfNode? (depth + 1) v := fun v _ => survives_name v
  refine Json.survives_record ["rabbit", "sqs"]
    [("rabbit", b.rabbit.map RabbitSource.toJson), ("sqs", b.sqs.map Definition.nameToJson)]
    rfl (by decide) ?_ ?_ ?_
  · simp [toJson, Json.present_cons, Json.present_nil]
  · simp only [List.forall_mem_cons]
    exact ⟨fun _ => Json.legible_slot hrabbit, fun _ => Json.legible_slot hsqs, nofun⟩
  · intro node hfields
    rw [ofNode?, hfields]
    simp only [List.map_cons, List.map_nil, Option.bind_eq_bind, Option.bind_some,
      Json.optional_written hrabbit, Json.optional_written hsqs]
    rfl

theorem DestinationBlock.survives (b : DestinationBlock) :
    Survives toJson ofNode? (depth + 2) b := by
  have hsns : ∀ v, b.sns = some v →
      Survives Definition.nameToJson nameOfNode? (depth + 1) v := fun v _ => survives_name v
  have hsqs : ∀ v, b.sqs = some v →
      Survives Definition.nameToJson nameOfNode? (depth + 1) v := fun v _ => survives_name v
  have hrabbit : ∀ v, b.rabbit = some v →
      Survives RabbitDestination.toJson RabbitDestination.ofNode? (depth + 1) v :=
    fun v _ => v.survives
  refine Json.survives_record ["sns", "sqs", "rabbit"]
    [("sns", b.sns.map Definition.nameToJson), ("sqs", b.sqs.map Definition.nameToJson),
      ("rabbit", b.rabbit.map RabbitDestination.toJson)] rfl (by decide) ?_ ?_ ?_
  · simp [toJson, Json.present_cons, Json.present_nil]
  · simp only [List.forall_mem_cons]
    exact ⟨fun _ => Json.legible_slot hsns, fun _ => Json.legible_slot hsqs,
      fun _ => Json.legible_slot hrabbit, nofun⟩
  · intro node hfields
    rw [ofNode?, hfields]
    simp only [List.map_cons, List.map_nil, Option.bind_eq_bind, Option.bind_some,
      Json.optional_written hsns, Json.optional_written hsqs, Json.optional_written hrabbit]
    rfl

theorem survives_texts (texts : List String) :
    Survives (fun fields => .array (fields.map .string)) textsOfNode? (depth + 1) texts := by
  have htexts : ∀ s ∈ texts, Survives .string Node.text? depth s :=
    fun s _ => Json.survives_text depth s
  refine ⟨.array fun v hv => ?_, nofun, ?_⟩
  · obtain ⟨s, hs, rfl⟩ := List.mem_map.mp hv
    exact (htexts s hs).legible
  · rw [textsOfNode?, Node.items?_written]
    exact Json.mapM_written htexts

namespace Definition

/-! ## Definitions -/

variable {d : Definition} {ds : List Definition}

theorem survives (hspec : ∀ spec, d.spec = some spec → spec ≠ .null ∧ Legible (depth + 2) spec) :
    Survives toJson ofNode? (depth + 3) d := by
  have hsource : ∀ v, d.source = some v →
      Survives SourceBlock.toJson SourceBlock.ofNode? (depth + 2) v := fun v _ => v.survives
  have hspec : ∀ v, d.spec = some v → Survives id Node.json? (depth + 2) v := fun v hv =>
    ⟨(hspec v hv).2, (hspec v hv).1, Node.json?_written (hspec v hv).2⟩
  have hdestination : ∀ v, d.destination = some v →
      Survives DestinationBlock.toJson DestinationBlock.ofNode? (depth + 2) v :=
    fun v _ => v.survives
  have hwhitelist : ∀ v, d.whitelist = some v →
      Survives (fun fields => .array (fields.map .string)) textsOfNode? (depth + 2) v :=
    fun v _ => survives_texts v
  have hforwarding : ∀ v, d.forwarding = some v → Survives .bool Node.bool? (depth + 2) v :=
    fun v _ => Json.survives_bool _ v
  have hdescription : ∀ v, d.description = some v →
      Survives .string Node.text? (depth + 2) v := fun v _ => Json.survives_text _ v
  refine Json.survives_record fieldNames
    [("from", d.source.map SourceBlock.toJson), ("transformationSpecs", d.spec.map id),
      ("to", d.destination.map DestinationBlock.toJson),
      ("whitelistedFields", d.whitelist.map fun fields => .array (fields.map .string)),
      ("shouldForwardMessages", d.forwarding.map .bool),
      ("description", d.description.map .string)] rfl (by decide) ?_ ?_ ?_
  · simp only [toJson, Json.present_cons, Json.present_nil, List.append_nil, List.append_assoc]
  · simp only [List.forall_mem_cons]
    exact ⟨fun _ => Json.legible_slot hsource, fun _ => Json.legible_slot hspec,
      fun _ => Json.legible_slot hdestination, fun _ => Json.legible_slot hwhitelist,
      fun _ => Json.legible_slot hforwarding, fun _ => Json.legible_slot hdescription, nofun⟩
  · intro node hfields
    rw [ofNode?, hfields]
    simp only [List.map_cons, List.map_nil, Option.bind_eq_bind, Option.bind_some,
      Json.optional_written hsource, Json.optional_written hspec,
      Json.optional_written hdestination, Json.optional_written hwhitelist,
      Json.optional_written hforwarding, Json.optional_written hdescription]
    rfl

/-- The floating-point numbers in the specification are read back from their texts. -/
def FloatsReadBack (d : Definition) : Prop :=
  ∀ spec, d.spec = some spec → spec.FloatsReadBack

/-- The specification of a definition that was read has been read from a field of it. -/
theorem spec_of_ofNode? {node : Node} (h : ofNode? node = some d) {spec : Json}
    (hspec : d.spec = some spec) :
    ∃ field : Node, field.depth + 1 = node.depth ∧ field.isNull = false ∧
      field.json? = some spec := by
  obtain ⟨fields, hfields, h⟩ := Option.bind_eq_some_iff.mp h
  split at h
  · next source found destination whitelist forwarding description =>
      obtain ⟨_, _, h⟩ := Option.bind_eq_some_iff.mp h
      obtain ⟨spec?, hread, h⟩ := Option.bind_eq_some_iff.mp h
      obtain ⟨_, _, h⟩ := Option.bind_eq_some_iff.mp h
      obtain ⟨_, _, h⟩ := Option.bind_eq_some_iff.mp h
      obtain ⟨_, _, h⟩ := Option.bind_eq_some_iff.mp h
      obtain ⟨_, _, h⟩ := Option.bind_eq_some_iff.mp h
      cases h
      obtain rfl : spec? = some spec := hspec
      obtain ⟨field, rfl, hnull, hread⟩ := Json.optional_eq_some hread
      exact ⟨field, Node.depth_of_fields? hfields (by simp), hnull, hread⟩
  · cases h

/-- A definition that was read survives wherever there is as much room for it. -/
theorem survives_of_ofNode? {node : Node} (h : ofNode? node = some d) (hfloats : d.FloatsReadBack)
    (hroom : node.depth ≤ depth + 3) : Survives toJson ofNode? (depth + 3) d := by
  refine survives fun spec hspec => ?_
  obtain ⟨field, hdepth, hnull, hread⟩ := spec_of_ofNode? h hspec
  have hlegible := Json.legible_of_toJson? hread (hfloats spec hspec)
  exact ⟨Node.ne_null_of_json? hread hnull, hlegible.mono (by omega)⟩

/-! ## Files -/

/-- What a tool writes for the definitions of a bridge file. -/
def fileOf (ds : List Definition) : ByteArray :=
  (Json.array (ds.map toJson)).write.toUTF8

/-- A file of which the definitions may have been read and written again. -/
inductive Rewrites (old : ByteArray) : ByteArray → Prop where
  | same : Rewrites old old
  | written {ds : List Definition} (read : listOfBytes? old = some ds)
    (floats : ∀ d ∈ ds, d.FloatsReadBack) : Rewrites old (fileOf ds)

/-- Each definition of a file has been read from an item of it. -/
theorem node_of_listOfBytes? {resource : ByteArray} (h : listOfBytes? resource = some ds)
    (hd : d ∈ ds) : ∃ node : Node, node.depth + 1 = Json.depthLimit ∧ ofNode? node = some d := by
  obtain ⟨root, hroot, hitems⟩ := Option.bind_eq_some_iff.mp h
  obtain ⟨items, hitems, hread⟩ := Option.bind_eq_some_iff.mp hitems
  obtain ⟨tree, _, rfl⟩ := Option.map_eq_some_iff.mp hroot
  obtain ⟨node, hnode, hread⟩ := exists_of_mem_right (mapM_some_iff.mp hread) hd
  exact ⟨node, Node.depth_of_items? hitems hnode, hread⟩

theorem listOfBytes?_fileOf {resource : ByteArray} (h : listOfBytes? resource = some ds)
    (hfloats : ∀ d ∈ ds, d.FloatsReadBack) : listOfBytes? (fileOf ds) = some ds := by
  have hsurvives : ∀ d ∈ ds, Survives toJson ofNode? (123 + 3) d := by
    intro d hd
    obtain ⟨node, hdepth, hread⟩ := node_of_listOfBytes? h hd
    refine survives_of_ofNode? hread (hfloats d hd) ?_
    rw [Json.depthLimit] at hdepth
    omega
  have hlegible : Legible Json.depthLimit (.array (ds.map toJson)) := .array fun v hv => by
    obtain ⟨d, hd, rfl⟩ := List.mem_map.mp hv
    exact (hsurvives d hd).legible
  rw [listOfBytes?, fileOf, Node.ofBytes?_toUTF8, Node.ofText?_write hlegible]
  simp only [Option.bind_eq_bind, Option.bind_some]
  rw [Json.depthLimit, Node.items?_written]
  exact Json.mapM_written hsurvives

theorem Rewrites.listOfBytes?_eq {old new : ByteArray} (h : Rewrites old new) :
    listOfBytes? new = listOfBytes? old := by
  cases h with
  | same => rfl
  | written read floats => rw [read, listOfBytes?_fileOf read floats]

theorem definitionsOf?_of_rewrites {resources rewritten : List ByteArray}
    (h : List.Forall₂ Rewrites resources rewritten) (position : Nat) :
    Bridge.definitionsOf? position rewritten = Bridge.definitionsOf? position resources := by
  induction h generalizing position with
  | nil => rfl
  | cons hfile _ ih => rw [Bridge.definitionsOf?, Bridge.definitionsOf?, hfile.listOfBytes?_eq, ih]

/-- A definition that was read from an entry, in any form and wherever the entry stands, is
read back from what is written for it. A bridge file of which the definitions are written
again defines the same, and the bridge files of which some have been rewritten make the
same bridges, or they are refused for the same reason. Of the numbers, only those with
floating point have to be read back by themselves. -/
theorem survive_rewriting :
    (∀ (node : Node) (d : Definition), node.depth ≤ Json.depthLimit → ofNode? node = some d →
      d.FloatsReadBack → (Node.ofText? d.toJson.write).bind ofNode? = some d) ∧
    (∀ (resource : ByteArray) (ds : List Definition), listOfBytes? resource = some ds →
      (∀ d ∈ ds, d.FloatsReadBack) → listOfBytes? (fileOf ds) = some ds) ∧
    ∀ resources rewritten : List ByteArray, List.Forall₂ Rewrites resources rewritten →
      Bridge.ofResources? rewritten = Bridge.ofResources? resources := by
  refine ⟨fun node d hdepth h hfloats => ?_, fun _ _ => listOfBytes?_fileOf,
    fun resources rewritten h => ?_⟩
  · have hsurvives : Survives toJson ofNode? (124 + 3) d := survives_of_ofNode? h hfloats hdepth
    have htext := Node.ofText?_write hsurvives.legible
    rw [htext, Option.bind_some]
    exact hsurvives.readsBack
  · rw [Bridge.ofResources?, Bridge.ofResources?, definitionsOf?_of_rewrites h]

/-- A file with a definition in each form: an object with its fields out of order, a field
that nobody knows and one that is null, and the list of the fields. -/
def mixedFile : ByteArray :=
  ("[\x7b\"owner\": [1e999], \"to\": \x7b\"sns\": [\"outbox\"]\x7d, \"description\": null, " ++
    "\"transformationSpecs\": [\x7b\"operation\": \"default\", " ++
    "\"spec\": \x7b\"rate\": -0\x7d\x7d], " ++
    "\"from\": \x7b\"rabbit\": [\"e\", \"q\", \"#\"], \"sqs\": null\x7d\x7d, " ++
    "[[null, [\"inbox\"]], null, [null, null, [\"e\", \"k\"]]]]").toUTF8

/-- The number is read from `-0`, and written as `-0.0`. -/
def negativeZero : JsonNumber :=
  .float ⟨0x8000000000000000⟩

/-- The definitions of the file. -/
def mixedDefinitions : List Definition :=
  [{ source := some ⟨some ⟨"e", "q", "#"⟩, none⟩
     spec := some (.array [.object [("operation", .string "default"),
       ("spec", .object [("rate", .number negativeZero)])]])
     destination := some ⟨some "outbox", none, none⟩ },
   { source := some ⟨none, some "inbox"⟩, destination := some ⟨none, none, some ⟨"e", "k"⟩⟩ }]

set_option maxRecDepth 8192 in
theorem listOfBytes?_mixedFile : listOfBytes? mixedFile = some mixedDefinitions := by
  with_unfolding_all rfl

theorem floatsReadBack_mixedDefinitions : ∀ d ∈ mixedDefinitions, d.FloatsReadBack := by
  have htoken : Json.IsOneToken negativeZero := ⟨by decide +kernel, by decide +kernel⟩
  have hzero : (Json.number negativeZero).ReadsBack := (Legible.number htoken).readsBack
  have hrate : Json.FloatsReadBack (.object [("rate", .number negativeZero)]) :=
    .object (List.forall_mem_singleton.mpr (.float hzero))
  have hstage : Json.FloatsReadBack (.object [("operation", .string "default"),
      ("spec", .object [("rate", .number negativeZero)])]) :=
    .object (List.forall_mem_cons.mpr ⟨.string _, List.forall_mem_singleton.mpr hrate⟩)
  refine List.forall_mem_cons.mpr ⟨?_, List.forall_mem_singleton.mpr nofun⟩
  intro spec hspec
  cases hspec
  exact .array (List.forall_mem_singleton.mpr hstage)

/-- The file is another one afterwards, and means the same. -/
theorem mixedFile_rewritten :
    listOfBytes? mixedFile = some mixedDefinitions ∧ fileOf mixedDefinitions ≠ mixedFile ∧
      (∀ d ∈ mixedDefinitions, d.FloatsReadBack ∧
        (Node.ofText? d.toJson.write).bind ofNode? = some d) ∧
      listOfBytes? (fileOf mixedDefinitions) = some mixedDefinitions ∧
      Bridge.ofResources? [fileOf mixedDefinitions] = Bridge.ofResources? [mixedFile] := by
  have hread := listOfBytes?_mixedFile
  have hfloats := floatsReadBack_mixedDefinitions
  have hsize : (fileOf mixedDefinitions).size ≠ mixedFile.size := by decide +kernel
  obtain ⟨hentries, hfiles, hresources⟩ := survive_rewriting
  refine ⟨hread, fun h => hsize (congrArg ByteArray.size h), fun d hd => ?_,
    hfiles mixedFile mixedDefinitions hread hfloats, ?_⟩
  · obtain ⟨node, hdepth, hnode⟩ := node_of_listOfBytes? hread hd
    exact ⟨hfloats d hd, hentries node d (by omega) hnode (hfloats d hd)⟩
  · exact hresources [mixedFile] [fileOf mixedDefinitions] (.cons (.written hread hfloats) .nil)

end Definition

end MessageBridge
