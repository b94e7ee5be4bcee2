import MessageBridge.Proofs.Text.Pieces
import MessageBridge.Proofs.Transform.Pruning
import MessageBridge.Proofs.Traversal
import MessageBridge.Spec.Compile
import Mathlib.Data.List.TakeWhile
import Mathlib.Data.Nat.Digits.Defs

/-!
# The language of specifications

`IsSpec` says which documents are specifications, one constructor for each form that a
stage or a rule may have. Rules of a shift are nested, and with each level one more key
has been matched, so what an output path may refer to depends on the depth at which it
stands.

The compiler reads a path name by name and piece by piece. That comes to the same as
looking for references in the text as a whole: the digits behind a `&` are the same,
whether one stops at the next `&`, at the next point or at the end of the text.
-/

namespace MessageBridge.Spec

/-! ## What is a specification -/

/-- There is a reference in the text with these digits: all those right behind a `&`. -/
def Refers (text digits : List Char) : Prop :=
  ∃ before behind, text = before ++ '&' :: behind ∧ digits = behind.takeWhile Char.isDigit

/-- The number that digits are read as. No digits are read as zero. -/
def numeral (digits : List Char) : Nat :=
  Nat.ofDigits 10 (digits.reverse.map fun c => c.toNat - '0'.toNat)

/-- At a depth of one or more keys, an output path has no empty name, and each of its
references is to one of the keys. -/
structure ValidPath (depth : Nat) (path : String) : Prop where
  named : ∀ name ∈ path.toList.splitOn '.', name ≠ []
  matched : ∀ digits, Refers path.toList digits →
    numeral digits < Word.limit ∧ numeral digits < depth

/-- What may stand at a key of a shift at the given depth. -/
inductive ShiftValue : Nat → Json → Prop where
  | path {depth : Nat} {path : String} (valid : ValidPath depth path) :
    ShiftValue depth (.string path)
  | paths {depth : Nat} {items : List Json}
      (valid : ∀ item ∈ items, ∃ path, item = .string path ∧ ValidPath depth path) :
    ShiftValue depth (.array items)
  | inside {depth : Nat} {entries : Entries Json}
      (valid : ∀ e ∈ entries, ShiftValue (depth + 1) e.2) : ShiftValue depth (.object entries)

/-- What may stand at a key of a removal. -/
inductive RemoveValue : Json → Prop where
  | drop (text : String) : RemoveValue (.string text)
  | inside {entries : Entries Json} (valid : ∀ e ∈ entries, RemoveValue e.2) :
    RemoveValue (.object entries)

/-- What may be the entries of an operation. -/
inductive IsOperation (entries : Entries Json) : String → Prop where
  | shift (valid : ∀ e ∈ entries, ShiftValue 1 e.2) : IsOperation entries "shift"
  | default : IsOperation entries "default"
  | remove (valid : ∀ e ∈ entries, RemoveValue e.2) : IsOperation entries "remove"

/-- A stage names its operation, and has the entries for it. -/
inductive IsStage : Json → Prop where
  | mk {stage entries : Entries Json} {operation : String}
      (operation_eq : stage.get? "operation" = some (.string operation))
      (spec_eq : stage.get? "spec" = some (.object entries))
      (valid : IsOperation entries operation) : IsStage (.object stage)

inductive IsSpec : Json → Prop where
  | stage {entries : Entries Json} (valid : IsStage (.object entries)) :
    IsSpec (.object entries)
  | stages {items : List Json} (valid : ∀ item ∈ items, IsStage item) : IsSpec (.array items)

/-! ## References in a text -/

theorem not_refers_nil {digits : List Char} : ¬ Refers [] digits := by
  rintro ⟨before, behind, h, _⟩
  cases before <;> cases h

theorem refers_cons {c : Char} {rest digits : List Char} :
    Refers (c :: rest) digits ↔
      (c = '&' ∧ digits = rest.takeWhile Char.isDigit) ∨ Refers rest digits := by
  constructor
  · rintro ⟨before, behind, h, hdigits⟩
    cases before with
    | nil =>
        obtain ⟨rfl, rfl⟩ := List.cons.inj h
        exact .inl ⟨rfl, hdigits⟩
    | cons b before =>
        obtain ⟨rfl, rfl⟩ := List.cons.inj h
        exact .inr ⟨before, behind, rfl, hdigits⟩
  · rintro (⟨rfl, hdigits⟩ | ⟨before, behind, rfl, hdigits⟩)
    · exact ⟨[], rest, rfl, hdigits⟩
    · exact ⟨c :: before, behind, rfl, hdigits⟩

/-- Digits are not cut short by stopping at something that is not a digit. -/
theorem takeWhile_isDigit {stop : Char} (hstop : stop.isDigit = false) (cs : List Char) :
    (cs.takeWhile (· ≠ stop)).takeWhile Char.isDigit = cs.takeWhile Char.isDigit := by
  induction cs with
  | nil => rfl
  | cons c cs ih =>
      by_cases hc : c = stop
      · subst hc
        simp [hstop]
      · simp only [List.takeWhile_cons, ne_eq, hc, not_false_iff, decide_true, if_true, ih]

/-! ## Names of a path -/

/-- The first name reaches to the first separator. -/
theorem head_split {sep : Char} {cs name : List Char} {names : List (List Char)}
    (h : Text.split sep cs = name :: names) : name = cs.takeWhile (· ≠ sep) := by
  induction cs generalizing name names with
  | nil =>
      cases h
      rfl
  | cons c rest ih =>
      obtain ⟨next, more, hrest⟩ := List.exists_cons_of_ne_nil (Text.split_ne_nil sep rest)
      rw [Text.split_cons hrest] at h
      by_cases hc : c = sep
      · rw [if_pos hc] at h
        cases h
        simp [hc]
      · rw [if_neg hc] at h
        cases h
        rw [List.takeWhile_cons_of_pos (by simpa using hc), ← ih hrest]

/-- No reference is lost between the names, since its digits end at a point. -/
theorem refers_split {cs digits : List Char} :
    (∃ name ∈ Text.split '.' cs, Refers name digits) ↔ Refers cs digits := by
  induction cs with
  | nil => simp [Text.split, not_refers_nil]
  | cons c rest ih =>
      obtain ⟨name, names, hrest⟩ := List.exists_cons_of_ne_nil (Text.split_ne_nil '.' rest)
      have hdigits : name.takeWhile Char.isDigit = rest.takeWhile Char.isDigit := by
        rw [head_split hrest, takeWhile_isDigit rfl]
      rw [refers_cons, ← ih, hrest, Text.split_cons hrest]
      by_cases hc : c = '.'
      · simp [hc, not_refers_nil]
      · simp only [hc, if_false, List.exists_mem_cons_iff, refers_cons, hdigits, or_assoc]

/-! ## Pieces of a name -/

/-- The text that pieces begin with. -/
def firstText : List PathPiece → List Char
  | .text cs :: _ => cs
  | _ => []

/-- A name with one more character in front: a `&` takes the digits from the text that
follows, any other character joins this text. -/
theorem pathPieces_cons (c : Char) (rest : List Char) :
    firstText (pathPieces (c :: rest)) =
        (if c = '&' then [] else c :: firstText (pathPieces rest)) ∧
      ∀ digits, .reference digits ∈ pathPieces (c :: rest) ↔
        (c = '&' ∧ digits = (firstText (pathPieces rest)).takeWhile Char.isDigit) ∨
          .reference digits ∈ pathPieces rest := by
  rw [pathPieces]
  by_cases hc : c = '&'
  · subst hc
    match pathPieces rest with
    | [] | .reference _ :: _ => simp [firstText]
    | .text cs :: _ =>
        simp only [beq_self_eq_true, firstText]
        cases cs.dropWhile Char.isDigit <;> simp
  · have hfalse : (c == '&') = false := by simpa using hc
    rw [hfalse]
    match pathPieces rest with
    | [] | .reference _ :: _ | .text _ :: _ => simp [firstText, hc]

theorem firstText_pathPieces (cs : List Char) :
    firstText (pathPieces cs) = cs.takeWhile (· ≠ '&') := by
  induction cs with
  | nil => rfl
  | cons c rest ih =>
      rw [(pathPieces_cons c rest).1, ih, List.takeWhile_cons]
      by_cases hc : c = '&' <;> simp [hc]

/-- The pieces have the references of the name, each with all its digits. -/
theorem reference_mem_pathPieces {cs digits : List Char} :
    .reference digits ∈ pathPieces cs ↔ Refers cs digits := by
  induction cs with
  | nil => simp [pathPieces, not_refers_nil]
  | cons c rest ih =>
      rw [(pathPieces_cons c rest).2, refers_cons, ih, firstText_pathPieces,
        takeWhile_isDigit rfl]

/-! ## What compiles -/

theorem numberOf_eq (digits : List Char) : numberOf digits = numeral digits := by
  rw [numberOf, numeral, Nat.ofDigits_eq_foldr, List.foldr_map, List.foldr_reverse]
  refine congrArg (fun step => digits.foldl step 0) ?_
  funext number c
  rw [Nat.cast_id, Nat.add_comm, Nat.mul_comm]
  rfl

theorem compilePiece_succeeds_iff {depth : Nat} {path : String} {piece : PathPiece} :
    (∃ part, compilePiece depth path piece = .ok part) ↔
      ∀ digits, piece = .reference digits →
        numeral digits < Word.limit ∧ numeral digits < depth := by
  cases piece with
  | text cs => exact iff_of_true ⟨_, rfl⟩ nofun
  | reference digits =>
      simp only [compilePiece, numberOf_eq, PathPiece.reference.injEq, forall_eq']
      split
      · next hlarge => exact iff_of_false nofun fun h => absurd h.1 (Nat.not_lt.mpr hlarge)
      · next hfits =>
          split
          · next habove => exact iff_of_false nofun fun h => absurd h.2 (Nat.not_lt.mpr habove)
          · next hbelow => exact iff_of_true ⟨_, rfl⟩ ⟨Nat.not_le.mp hfits, Nat.not_le.mp hbelow⟩

theorem compileName_succeeds_iff {depth : Nat} {path : String} {name : List Char} :
    (∃ parts, compileName depth path name = .ok parts) ↔
      name ≠ [] ∧ ∀ digits, Refers name digits →
        numeral digits < Word.limit ∧ numeral digits < depth := by
  unfold compileName
  cases name with
  | nil => exact iff_of_false nofun fun h => absurd rfl h.1
  | cons c cs =>
      simp only [List.isEmpty_cons, Bool.false_eq_true, if_false, mapM_succeeds_iff,
        compilePiece_succeeds_iff, ← reference_mem_pathPieces]
      constructor
      · exact fun h => ⟨List.cons_ne_nil c cs, fun digits hd => h _ hd digits rfl⟩
      · rintro ⟨_, h⟩ piece hpiece digits rfl
        exact h digits hpiece

theorem compilePath_succeeds_iff {depth : Nat} {path : String} :
    (∃ compiled, compilePath depth path = .ok compiled) ↔ ValidPath depth path := by
  simp only [compilePath, mapM_succeeds_iff, compileName_succeeds_iff]
  constructor
  · intro h
    refine ⟨fun name hname => (h name (Text.split_eq_splitOn _ _ ▸ hname)).1, fun digits hd => ?_⟩
    obtain ⟨name, hname, hd⟩ := refers_split.mpr hd
    exact (h name hname).2 digits hd
  · intro h name hname
    refine ⟨h.named name (Text.split_eq_splitOn _ _ ▸ hname), fun digits hd => ?_⟩
    exact h.matched digits (refers_split.mp ⟨name, hname, hd⟩)

theorem compilePaths_eq (depth : Nat) (key : String) (items : List Json) :
    compilePaths depth key items = items.mapM fun
      | .string path => compilePath depth path
      | _ => .error (.pathNotText key) := by
  induction items with
  | nil => rfl
  | cons item rest ih =>
      rw [List.mapM_cons, ← ih]
      cases item <;> rfl

theorem compileShift_eq (depth : Nat) (entries : Entries Json) :
    compileShift depth entries = entries.mapM fun e =>
      (compileShiftRule depth e.1 e.2).map (e.1, ·) := by
  induction entries with
  | nil => rw [compileShift]; rfl
  | cons e rest ih =>
      rw [compileShift, List.mapM_cons, ← ih]
      cases compileShiftRule depth e.1 e.2 <;> rfl

theorem compileRemove_eq (entries : Entries Json) :
    compileRemove entries = entries.mapM fun e => (compileRemoveRule e.1 e.2).map (e.1, ·) := by
  induction entries with
  | nil => rw [compileRemove]; rfl
  | cons e rest ih =>
      rw [compileRemove, List.mapM_cons, ← ih]
      cases compileRemoveRule e.1 e.2 <;> rfl

/-- Making something of a result does not change whether there is one. -/
theorem bind_pure_succeeds_iff {α β ε : Type} {found : Except ε α} {g : α → β} :
    (∃ b, (found >>= fun a => pure (g a)) = .ok b) ↔ ∃ a, found = .ok a :=
  map_succeeds_iff

theorem compileShiftRule_succeeds_iff {depth : Nat} {key : String} {value : Json} :
    (∃ rule, compileShiftRule depth key value = .ok rule) ↔ ShiftValue depth value := by
  induction value using Json.induction_inside generalizing depth key with
  | null | bool | number => exact iff_of_false nofun nofun
  | string path =>
      rw [compileShiftRule, bind_pure_succeeds_iff, compilePath_succeeds_iff]
      exact ⟨.path, fun | .path valid => valid⟩
  | array items =>
      rw [compileShiftRule, bind_pure_succeeds_iff, compilePaths_eq, mapM_succeeds_iff]
      constructor
      · intro h
        refine .paths fun item hitem => ?_
        have := h item hitem
        cases item with
        | string path => exact ⟨path, rfl, compilePath_succeeds_iff.mp this⟩
        | _ => exact nomatch this
      · rintro (_ | ⟨valid⟩) item hitem
        obtain ⟨path, rfl, hpath⟩ := valid item hitem
        exact compilePath_succeeds_iff.mpr hpath
  | object entries ih =>
      rw [compileShiftRule, bind_pure_succeeds_iff, compileShift_eq, mapM_succeeds_iff]
      simp only [map_succeeds_iff]
      constructor
      · exact fun h => .inside fun e he => (ih e he).mp (h e he)
      · exact fun | .inside valid => fun e he => (ih e he).mpr (valid e he)

theorem compileRemoveRule_succeeds_iff {key : String} {value : Json} :
    (∃ rule, compileRemoveRule key value = .ok rule) ↔ RemoveValue value := by
  induction value using Json.induction_inside generalizing key with
  | null | bool | number | array => exact iff_of_false nofun nofun
  | string text => exact iff_of_true ⟨_, rfl⟩ (.drop text)
  | object entries ih =>
      rw [compileRemoveRule, bind_pure_succeeds_iff, compileRemove_eq, mapM_succeeds_iff]
      simp only [map_succeeds_iff]
      constructor
      · exact fun h => .inside fun e he => (ih e he).mp (h e he)
      · exact fun | .inside valid => fun e he => (ih e he).mpr (valid e he)

theorem compileShift_succeeds_iff {depth : Nat} {entries : Entries Json} :
    (∃ rules, compileShift depth entries = .ok rules) ↔
      ∀ e ∈ entries, ShiftValue depth e.2 := by
  simp only [compileShift_eq, mapM_succeeds_iff, map_succeeds_iff,
    compileShiftRule_succeeds_iff]

theorem compileRemove_succeeds_iff {entries : Entries Json} :
    (∃ rules, compileRemove entries = .ok rules) ↔ ∀ e ∈ entries, RemoveValue e.2 := by
  simp only [compileRemove_eq, mapM_succeeds_iff, map_succeeds_iff,
    compileRemoveRule_succeeds_iff]

/-- What the entries of an operation compile to. -/
inductive Compiles (entries : Entries Json) : String → Stage → Prop where
  | shift {rules : List (String × ShiftRule)} (rules_eq : compileShift 1 entries = .ok rules) :
    Compiles entries "shift" (.shift rules)
  | default : Compiles entries "default" (.default entries)
  | remove {rules : List (String × RemoveRule)} (rules_eq : compileRemove entries = .ok rules) :
    Compiles entries "remove" (.remove rules)

theorem compileStage_ok_iff {item : Json} {compiled : Stage} :
    compileStage item = .ok compiled ↔
      ∃ (stage entries : Entries Json) (operation : String), item = .object stage ∧
        stage.get? "operation" = some (.string operation) ∧
        stage.get? "spec" = some (.object entries) ∧ Compiles entries operation compiled := by
  constructor
  · intro h
    cases item with
    | null | bool | number | string | array => cases h
    | object stage =>
        rw [compileStage] at h
        split at h
        · next operation hoperation =>
            split at h
            · next entries hspec =>
                refine ⟨stage, entries, operation, rfl, hoperation, hspec, ?_⟩
                split at h
                · next hshift =>
                    obtain ⟨rules, hrules, rfl⟩ := map_eq_ok h
                    exact hshift ▸ .shift hrules
                · split at h
                  · next hdefault =>
                      cases h
                      exact hdefault ▸ .default
                  · split at h
                    · next hremove =>
                        obtain ⟨rules, hrules, rfl⟩ := map_eq_ok h
                        exact hremove ▸ .remove hrules
                    · cases h
            · cases h
        · cases h
  · rintro ⟨stage, entries, operation, rfl, hoperation, hspec, hcompiles⟩
    simp only [compileStage, hoperation, hspec]
    cases hcompiles with
    | shift hrules => rw [if_pos rfl, hrules, Except.map]
    | default => rfl
    | remove hrules =>
        rw [if_neg (by decide), if_neg (by decide), if_pos rfl, hrules, Except.map]

theorem compiles_succeeds_iff {entries : Entries Json} {operation : String} :
    (∃ compiled, Compiles entries operation compiled) ↔ IsOperation entries operation := by
  constructor
  · rintro ⟨_, ⟨hrules⟩ | _ | ⟨hrules⟩⟩
    · exact .shift (compileShift_succeeds_iff.mp ⟨_, hrules⟩)
    · exact .default
    · exact .remove (compileRemove_succeeds_iff.mp ⟨_, hrules⟩)
  · rintro (valid | _ | valid)
    · obtain ⟨rules, hrules⟩ := compileShift_succeeds_iff.mpr valid
      exact ⟨_, .shift hrules⟩
    · exact ⟨_, .default⟩
    · obtain ⟨rules, hrules⟩ := compileRemove_succeeds_iff.mpr valid
      exact ⟨_, .remove hrules⟩

theorem compileStage_succeeds_iff {item : Json} :
    (∃ compiled, compileStage item = .ok compiled) ↔ IsStage item := by
  simp only [compileStage_ok_iff]
  constructor
  · rintro ⟨compiled, stage, entries, operation, rfl, hoperation, hspec, hcompiles⟩
    exact .mk hoperation hspec (compiles_succeeds_iff.mp ⟨compiled, hcompiles⟩)
  · rintro ⟨hoperation, hspec, valid⟩
    obtain ⟨compiled, hcompiles⟩ := compiles_succeeds_iff.mpr valid
    exact ⟨compiled, _, _, _, rfl, hoperation, hspec, hcompiles⟩

theorem compile_succeeds_iff {doc : Json} : (∃ spec, compile doc = .ok spec) ↔ IsSpec doc := by
  cases doc with
  | array items =>
      rw [compile, mapM_succeeds_iff]
      simp only [compileStage_succeeds_iff]
      exact ⟨.stages, fun | .stages valid => valid⟩
  | object entries =>
      rw [compile, map_succeeds_iff, compileStage_succeeds_iff]
      exact ⟨.stage, fun | .stage valid => valid⟩
  | null | bool | number | string => exact iff_of_false nofun nofun

/-- A document compiles if it is a specification, and any other one fails as one that is
not. -/
theorem compiles_or_fails (doc : Json) :
    ((∃ spec, compile doc = .ok spec) ↔ IsSpec doc) ∧
      ((∃ message, (compile doc).mapError Defect.failure = .error (.spec message)) ↔
        ¬ IsSpec doc) := by
  refine ⟨compile_succeeds_iff, ?_⟩
  rw [← compile_succeeds_iff]
  cases compile doc with
  | ok spec => exact iff_of_false nofun fun hnone => hnone ⟨spec, rfl⟩
  | error defect => exact iff_of_true ⟨defect.message, rfl⟩ nofun

end MessageBridge.Spec
