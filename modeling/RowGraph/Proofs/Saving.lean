import RowGraph.Schema.Declaration
import RowGraph.Session

/-!
# Saves that fail

A save that is refused before its statement is run leaves the object as it was. One whose statement
the database refuses leaves the object as it was too if the object brings the discriminator of its
entity along; otherwise the discriminator stays in the object (`Session.failed_save`,
`Session.discriminator_stays`). The key that an insert assigns is only put after the statement.
-/

namespace RowGraph

/-- An object after the database refused the statement of a command: as it was if it brought the
discriminator of its entity along, and with the discriminator put into it otherwise. -/
inductive Entity.Unsaved (e : Entity) (command : SaveCommand) (o : Object) : Object → Prop where
  | unchanged (brought : ∀ d ∈ e.discriminator, d.column ∈ (e.assignments command o).map Prod.fst) :
      Unsaved e command o o
  | stamped {d : Discriminator} (discriminator : e.discriminator = some d)
      (missing : d.column ∉ (e.assignments command o).map Prod.fst) :
      Unsaved e command o (o.put d.column (.text d.value))

theorem Entity.missingDiscriminator?_eq_some_iff {e : Entity} {written : List Sql.Assignment}
    {added : Sql.Assignment} : e.missingDiscriminator? written = some added ↔
      ∃ d, e.discriminator = some d ∧ d.column ∉ written.map Prod.fst ∧
        added = (d.column, .text d.value) := by
  have absent (d : Discriminator) :
      (!written.any (·.1 == d.column)) = true ↔ d.column ∉ written.map Prod.fst := by
    simp only [Bool.not_eq_true', List.any_eq_false, beq_iff_eq, List.mem_map, not_exists, not_and]
  rw [missingDiscriminator?, Option.map_eq_some_iff]
  constructor
  · rintro ⟨d, found, rfl⟩
    obtain ⟨discriminator, missing⟩ := Option.filter_eq_some_iff.mp found
    exact ⟨d, discriminator, (absent d).mp missing, rfl⟩
  · rintro ⟨d, discriminator, missing, rfl⟩
    exact ⟨d, Option.filter_eq_some_iff.mpr ⟨discriminator, (absent d).mpr missing⟩, rfl⟩

theorem Entity.unsaved (e : Entity) (command : SaveCommand) (o : Object) :
    e.Unsaved command o ((e.missingDiscriminator? (e.assignments command o)).elim o
      fun (column, value) => o.put column value) := by
  cases added : e.missingDiscriminator? (e.assignments command o) with
  | some assignment =>
      obtain ⟨d, discriminator, missing, rfl⟩ := missingDiscriminator?_eq_some_iff.mp added
      exact .stamped discriminator missing
  | none =>
      refine .unchanged fun d discriminator => Decidable.byContradiction fun missing => ?_
      have found := missingDiscriminator?_eq_some_iff.mpr ⟨d, discriminator, missing, rfl⟩
      rw [added] at found
      cases found

theorem Entity.Unsaved.key {e : Entity} {command : SaveCommand} {o after : Object}
    (unsaved : e.Unsaved command o after) (keyed : (e.key? o).isSome) : (e.key? after).isSome := by
  cases unsaved with
  | unchanged => exact keyed
  | stamped discriminator missing =>
      next d =>
      rw [key?, Object.get?, Object.put]
      cases same : e.primaryKey == d.column with
      | true =>
          rw [beq_iff_eq] at same
          rw [same, Keyed.lookup_put_self]
          rfl
      | false =>
          rw [Keyed.lookup_put_of_ne _ _ same]
          exact keyed

def Entity.saveCommand (e : Entity) (o : Object) : SaveCommand :=
  if (e.key? o).isSome then .update else .insert

namespace Session

variable {s : Session} {o after : Object} {d next : Database} {f : Failure}

def Refuses (s : Session) (d : Database) (f : Failure) (next : Database) : Prop :=
  ∃ statement refusal, d.execute s.connection statement = (.error refusal, next) ∧
    f = .database (.within ("While executing '" ++ statement.text ++ "'") refusal)

theorem execute_error {change : Sql.Change} (failed : s.execute change d = (.error f, next)) :
    s.Refuses d f next := by
  refine ⟨Sql.Statement.ofPieces s.settings.style change.pieces, ?_⟩
  unfold execute at failed
  dsimp only at failed
  cases executed : d.execute s.connection (.ofPieces s.settings.style change.pieces) with
  | mk outcome database =>
      rw [executed] at failed
      cases outcome with
      | ok outcome => cases failed
      | error refusal =>
          cases failed
          exact ⟨refusal, rfl, rfl⟩

theorem change_error {e : Entity} {command : SaveCommand} {written : List Sql.Assignment}
    (failed : s.change e command o written = .error f) : command = .update ∧ e.key? o = none := by
  cases command with
  | insert => cases failed
  | update =>
      cases key : e.key? o with
      | none => exact ⟨rfl, rfl⟩
      | some value =>
          rw [change, key] at failed
          cases failed

theorem persist_error {e : Entity} (found : s.entity o.entity = .ok e) {command : SaveCommand}
    (keyed : command = .update → (e.key? o).isSome)
    (failed : s.persist command o d = (.error f, after, next)) :
    (after = o ∧ next = d) ∨ s.Refuses d f next ∧ e.Unsaved command o after := by
  have stamped := e.unsaved command o
  unfold persist at failed
  simp only [found] at failed
  split at failed
  · cases failed
    exact .inl ⟨rfl, rfl⟩
  · split at failed
    · next changed =>
      -- The key is still there: a discriminator that replaces it is not null.
      obtain ⟨rfl, keyless⟩ := change_error changed
      have key := stamped.key (keyed rfl)
      rw [keyless] at key
      cases key
    · split at failed
      · next executed =>
        cases failed
        exact .inr ⟨execute_error executed, stamped⟩
      · cases failed

/-- The object that a failed command leaves: as it was unless the database refused the statement,
and then as it was up to the discriminator. -/
def Undone (s : Session) (command : Entity → SaveCommand) (o : Object) (d : Database) (f : Failure)
    (after : Object) (next : Database) : Prop :=
  (after = o ∧ next = d) ∨
    ∃ e, s.entity o.entity = .ok e ∧ s.Refuses d f next ∧ e.Unsaved (command e) o after

theorem failed_save :
    (s.save o d = (.error f, after, next) → s.Undone (·.saveCommand o) o d f after next) ∧
      (s.insert o d = (.error f, after, next) → s.Undone (fun _ => .insert) o d f after next) := by
  unfold save insert Undone
  cases found : s.entity o.entity with
  | error g =>
      rw [persist, found]
      constructor
      all_goals
        intro failed
        cases failed
        exact .inl ⟨rfl, rfl⟩
  | ok e =>
      constructor
      · intro failed
        have keyed : e.saveCommand o = .update → (e.key? o).isSome := by
          unfold Entity.saveCommand
          split <;> simp [*]
        exact (persist_error found keyed failed).imp id fun refused => ⟨e, rfl, refused⟩
      · intro failed
        have keyed : SaveCommand.insert = .update → (e.key? o).isSome := nofun
        exact (persist_error found keyed failed).imp id fun refused => ⟨e, rfl, refused⟩

end Session

namespace Sample

def garments : List Declaration :=
  [{ name := "Product", parts := [.column "id", .column "type", .column "name"] },
   { name := "Shirt"
     parts := [.table "Product", .column "id", .column "type", .column "name",
       .discriminator "type" "shirt"] }]

def wardrobe : Session where
  settings.schema :=
    match Schema.ofDeclarations garments with
    | .ok s => s
    | .error _ => { entities := [] }

def tee : Object := { entity := "Shirt", fields := [("name", .text "Tee")] }

def down : Database := { outcomes := [.error (.validation "down")] }

end Sample

theorem Session.discriminator_stays :
    Schema.ofDeclarations Sample.garments = .ok Sample.wardrobe.settings.schema ∧
      ∃ f next, Sample.wardrobe.insert Sample.tee Sample.down =
        (.error f, Sample.tee.put "type" (.text "shirt"), next) :=
  ⟨rfl, _, _, rfl⟩

theorem Session.failed_save_tee : ∃ f next,
    Sample.wardrobe.insert Sample.tee Sample.down =
        (.error f, Sample.tee.put "type" (.text "shirt"), next) ∧
      Sample.wardrobe.Undone (fun _ => .insert) Sample.tee Sample.down f
        (Sample.tee.put "type" (.text "shirt")) next :=
  ⟨_, _, rfl, Session.failed_save.2 rfl⟩

end RowGraph
