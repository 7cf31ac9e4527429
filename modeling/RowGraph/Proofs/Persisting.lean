import RowGraph.Proofs.Alignment
import RowGraph.Proofs.Mapping
import RowGraph.Proofs.Saving
import RowGraph.Proofs.Trace

/-!
# Saves that are carried out

A save writes the columns that an object holds, in the order of its fields, and then the
discriminator of its entity if the object lacks it (`Entity.Assigned`). It is refused if there is no
column to write, and sends one statement otherwise (`Session.Persists`). An object that was inserted
under a key keeps it in every run of saves, so that all of them are updates
(`Session.saved_then_updated`).
-/

namespace RowGraph

/-! ## Statements of changes -/

namespace Sql

variable {style : EscapeStyle} {table : String} {values : List Assignment}

theorem neat_assignmentPieces (a : Assignment) : ∀ p ∈ assignmentPieces a, p.Neat style := by
  simp only [assignmentPieces, List.forall_mem_cons]
  exact ⟨Piece.neat_identifier _, Piece.neat_fixed (by decide), Piece.neat_param _, by simp⟩

theorem neat_separated_map {group : Assignment → List Piece}
    (neat : ∀ a, ∀ p ∈ group a, p.Neat style) :
    ∀ p ∈ separated ", " (values.map group), p.Neat style := by
  apply neat_separated (by decide)
  intro pieces mem
  obtain ⟨a, -, rfl⟩ := List.mem_map.mp mem
  exact neat a

theorem params_separated_map {group : Assignment → List Piece} (params : Assignment → List Value)
    (single : ∀ a, (group a).flatMap Piece.params = params a) :
    (separated ", " (values.map group)).flatMap Piece.params = values.flatMap params := by
  rw [params_separated, List.flatMap_map]
  exact congrArg (values.flatMap ·) (funext single)

theorem neat_insertedPieces : ∀ p ∈ insertedPieces values, p.Neat style := by
  have columns : ∀ p ∈ separated ", " (values.map fun a => [.identifier a.1]), p.Neat style := by
    apply neat_separated_map
    simpa using fun a => Piece.neat_identifier a
  have params : ∀ p ∈ separated ", " (values.map fun a => [.param a.2]), p.Neat style := by
    apply neat_separated_map
    simpa using fun value => Piece.neat_param value
  have before : (Piece.fixed " (").Neat style := Piece.neat_fixed (by decide)
  have between : (Piece.fixed ") VALUES (").Neat style := Piece.neat_fixed (by decide)
  have closing : (Piece.fixed ")").Neat style := Piece.neat_fixed (by decide)
  unfold insertedPieces
  split
  · simpa using Piece.neat_fixed (by decide)
  · simp only [List.forall_mem_append, List.forall_mem_singleton]
    exact ⟨⟨⟨⟨before, columns⟩, between⟩, params⟩, closing⟩

theorem Change.neat_insert (returning : Option String) :
    ∀ p ∈ (Change.insert table values returning).pieces, p.Neat style := by
  have opening : (Piece.fixed "INSERT INTO ").Neat style := Piece.neat_fixed (by decide)
  have returned : (Piece.fixed " RETURNING ").Neat style := Piece.neat_fixed (by decide)
  have inserted : ∀ p ∈ insertedPieces values, p.Neat style := neat_insertedPieces
  unfold Change.pieces
  cases returning with
  | none | some =>
      simp only [List.forall_mem_append, List.forall_mem_cons, opening, returned,
        Piece.neat_identifier, List.not_mem_nil, true_and, and_true, false_imp_iff, implies_true]
      exact inserted

theorem Change.neat_update (key : Assignment) :
    ∀ p ∈ (Change.update table values key).pieces, p.Neat style := by
  simp only [Change.pieces, List.forall_mem_append, List.forall_mem_cons]
  refine ⟨⟨⟨⟨?_, Piece.neat_identifier _, ?_, by simp⟩, ?_⟩, ?_, by simp⟩, ?_⟩
  iterate 2 exact Piece.neat_fixed (by decide)
  · exact neat_separated_map neat_assignmentPieces
  · exact Piece.neat_fixed (by decide)
  · exact neat_assignmentPieces key

theorem params_insertedPieces :
    (insertedPieces values).flatMap Piece.params = values.map Prod.snd := by
  unfold insertedPieces
  split
  · next none =>
    rw [List.isEmpty_iff.mp none]
    rfl
  · simp only [List.flatMap_append]
    rw [params_separated_map (fun _ => []) fun _ => rfl,
      params_separated_map (fun a => [a.2]) fun _ => rfl]
    simp [Piece.params, List.map_eq_flatMap]

theorem Change.params_insert (returning : Option String) :
    (Change.insert table values returning).pieces.flatMap Piece.params = values.map Prod.snd := by
  simp only [Change.pieces, List.flatMap_append, params_insertedPieces]
  cases returning <;> simp [Piece.params]

theorem Change.params_update (key : Assignment) :
    (Change.update table values key).pieces.flatMap Piece.params =
      values.map Prod.snd ++ [key.2] := by
  simp only [Change.pieces, List.flatMap_append]
  rw [params_separated_map (fun a => [a.2]) fun _ => rfl]
  simp [assignmentPieces, Piece.params, List.map_eq_flatMap]

def insertText (style : EscapeStyle) (table : String) (columns : List String)
    (returning : Option String) : String :=
  "INSERT INTO " ++ style.escape table ++ " (" ++
    String.intercalate ", " (columns.map style.escape) ++ ") VALUES (" ++
    String.intercalate ", " (columns.map fun _ => "?") ++ ")" ++
    returning.elim "" fun column => " RETURNING " ++ style.escape column

def updateText (style : EscapeStyle) (table : String) (columns : List String) (key : String) :
    String :=
  "UPDATE " ++ style.escape table ++ " SET " ++
    String.intercalate ", " (columns.map fun column => style.escape column ++ " = ?") ++
    " WHERE " ++ style.escape key ++ " = ?"

theorem Change.text_insert (some : values ≠ []) (returning : Option String) :
    (Statement.ofPieces style (Change.insert table values returning).pieces).text =
      insertText style table (values.map Prod.fst) returning := by
  have inserted : (Statement.ofPieces style (insertedPieces values)).text =
      " (" ++ String.intercalate ", " (values.map fun a => style.escape a.1) ++ ") VALUES (" ++
        String.intercalate ", " (values.map fun _ => "?") ++ ")" := by
    rw [insertedPieces, if_neg (mt List.isEmpty_iff.mp some)]
    simp only [text_append, text_cons, text_nil, text_separated, Piece.text, String.append_assoc,
      String.append_empty, List.map_map, Function.comp_def]
  unfold insertText Change.pieces
  cases returning with
  | none | some =>
      simp only [text_append, text_cons, text_nil, inserted, Piece.text, String.append_assoc,
        String.append_empty, List.map_map, Function.comp_def, Option.elim_none, Option.elim_some]

theorem Change.text_update (key : Assignment) :
    (Statement.ofPieces style (Change.update table values key).pieces).text =
      updateText style table (values.map Prod.fst) key.1 := by
  have equation : " = " ++ "?" = " = ?" := by decide
  simp only [updateText, Change.pieces, assignmentPieces, text_append, text_cons, text_nil,
    text_separated, Piece.text, String.append_assoc, String.append_empty, equation, List.map_map,
    Function.comp_def]

end Sql

/-! ## What is written -/

namespace Entity

variable {e : Entity} {command : SaveCommand} {o : Object}

/-- A command writes a value that an object holds under a column. It writes the primary key only if
it is an insert and the key is set. -/
structure Assigns (e : Entity) (command : SaveCommand) (o : Object) (field : String)
    (value : Value) : Prop where
  held : (field, value) ∈ o.fields
  column : e.property? field = some .column
  key : field = e.primaryKey → command = .insert ∧ value.isNull = false

structure Writes (e : Entity) (command : SaveCommand) (o : Object)
    (written : List Sql.Assignment) : Prop where
  order : written.Sublist o.fields
  mem_iff : ∀ field value, (field, value) ∈ written ↔ e.Assigns command o field value

/-- The discriminator as it is added to an object that lacks its column. -/
inductive Stamps (e : Entity) (o : Object) : List Sql.Assignment → Object → Prop where
  | brought (held : ∀ d ∈ e.discriminator,
      d.column ∈ o.names ∧ e.property? d.column = some .column) : Stamps e o [] o
  | added {d : Discriminator} (discriminator : e.discriminator = some d)
      (lacking : d.column ∈ o.names → e.property? d.column ≠ some .column) :
      Stamps e o [(d.column, .text d.value)] (o.put d.column (.text d.value))

structure Assigned (e : Entity) (command : SaveCommand) (o : Object)
    (values : List Sql.Assignment) (stamped : Object) : Prop where
  holds : ∃ field value, e.Assigns command o field value
  parts : ∃ written added, values = written ++ added ∧ e.Writes command o written ∧
    e.Stamps o added stamped
  once : (values.map Prod.fst).Nodup
  keyless : command = .update → e.primaryKey ∉ values.map Prod.fst

theorem mem_assignments_iff {field : String} {value : Value} :
    (field, value) ∈ e.assignments command o ↔ e.Assigns command o field value := by
  have key : (field ≠ e.primaryKey ∨ command = .insert ∧ value.isNull = false) ↔
      (field = e.primaryKey → command = .insert ∧ value.isNull = false) :=
    imp_iff_not_or.symm
  simp only [assignments, List.mem_filter, hasColumn, Bool.and_eq_true, Bool.or_eq_true,
    beq_iff_eq, bne_iff_ne, Bool.not_eq_true', key]
  constructor
  · rintro ⟨held, column, key⟩
    exact ⟨held, column, key⟩
  · intro assigns
    exact ⟨assigns.held, assigns.column, assigns.key⟩

theorem writes_assignments (e : Entity) (command : SaveCommand) (o : Object) :
    e.Writes command o (e.assignments command o) :=
  ⟨List.filter_sublist, fun _ _ => mem_assignments_iff⟩

theorem assignments_isEmpty_iff : (e.assignments command o).isEmpty ↔
    ∀ field value, ¬ e.Assigns command o field value := by
  rw [List.isEmpty_iff, List.eq_nil_iff_forall_not_mem]
  constructor
  · intro none field value assigns
    exact none _ (mem_assignments_iff.mpr assigns)
  · intro none assignment mem
    exact none _ _ (mem_assignments_iff.mp mem)

theorem mem_written_iff (command : SaveCommand) (o : Object) {field : String}
    (apart : field ≠ e.primaryKey) : field ∈ (e.assignments command o).map Prod.fst ↔
      field ∈ o.names ∧ e.property? field = some .column := by
  simp only [Object.names, List.mem_map, Prod.exists, exists_and_right, exists_eq_right,
    mem_assignments_iff]
  constructor
  · rintro ⟨value, assigns⟩
    exact ⟨⟨value, assigns.held⟩, assigns.column⟩
  · rintro ⟨⟨value, held⟩, column⟩
    exact ⟨value, held, column, fun same => absurd same apart⟩

/-- The discriminator of an entity is not in the column of its primary key. -/
def Apart (e : Entity) : Prop := ∀ d ∈ e.discriminator, d.column ≠ e.primaryKey

theorem stamps_missing (apart : e.Apart) (command : SaveCommand) (o : Object) :
    e.Stamps o (e.missingDiscriminator? (e.assignments command o)).toList
      ((e.missingDiscriminator? (e.assignments command o)).elim o
        fun (column, value) => o.put column value) := by
  cases added : e.missingDiscriminator? (e.assignments command o) with
  | some assignment =>
      obtain ⟨d, discriminator, missing, rfl⟩ := missingDiscriminator?_eq_some_iff.mp added
      rw [mem_written_iff _ _ (apart d discriminator), not_and] at missing
      exact .added discriminator missing
  | none =>
      apply Stamps.brought
      intro d discriminator
      rw [← mem_written_iff command o (apart d discriminator)]
      by_contra missing
      have found := missingDiscriminator?_eq_some_iff.mpr ⟨d, discriminator, missing, rfl⟩
      rw [added] at found
      cases found

theorem Writes.assigned {written added : List Sql.Assignment} {stamped : Object}
    (writes : e.Writes command o written) (stamps : e.Stamps o added stamped) (apart : e.Apart)
    (names : o.names.Nodup) (holds : ∃ field value, e.Assigns command o field value) :
    e.Assigned command o (written ++ added) stamped := by
  have once : (written.map Prod.fst).Nodup := names.sublist (writes.order.map Prod.fst)
  have assigns {field : String} (mem : field ∈ written.map Prod.fst) :
      ∃ value, e.Assigns command o field value := by
    obtain ⟨⟨field, value⟩, written, rfl⟩ := List.mem_map.mp mem
    exact ⟨value, (writes.mem_iff field value).mp written⟩
  refine ⟨holds, ⟨written, added, rfl, writes, stamps⟩, ?_, ?_⟩
  · cases stamps with
    | brought => simpa using once
    | added discriminator lacking =>
        rw [List.map_append, List.map_singleton, ← List.concat_eq_append, List.nodup_concat]
        refine ⟨fun mem => ?_, once⟩
        obtain ⟨value, assigns⟩ := assigns mem
        exact lacking (List.mem_map_of_mem assigns.held) assigns.column
  · intro update
    rw [List.map_append, List.mem_append]
    rintro (mem | mem)
    · obtain ⟨value, assigns⟩ := assigns mem
      cases update.symm.trans (assigns.key rfl).1
    · cases stamps with
      | brought => cases mem
      | added discriminator => exact apart _ discriminator (List.mem_singleton.mp mem).symm

theorem Stamps.key {added : List Sql.Assignment} {stamped : Object}
    (stamps : e.Stamps o added stamped) (apart : e.Apart) :
    stamped.get? e.primaryKey = o.get? e.primaryKey := by
  cases stamps with
  | brought => rfl
  | added discriminator => rw [Object.get?_put, if_neg (apart _ discriminator).symm]

theorem Stamps.names {added : List Sql.Assignment} {stamped : Object}
    (stamps : e.Stamps o added stamped) (names : o.names.Nodup) :
    stamped.entity = o.entity ∧ stamped.names.Nodup := by
  cases stamps with
  | brought => exact ⟨rfl, names⟩
  | added => exact ⟨rfl, Object.nodup_put names _ _⟩

end Entity

/-! ## Commands -/

namespace Session

variable {s : Session} {e : Entity} {command : SaveCommand} {o : Object} {d : Database}

/-- The statement of a command: it assigns the values to their columns, an update in the row under
the object's key, and each parameter is bound at its own placeholder. -/
inductive Phrases (s : Session) (e : Entity) (o : Object) (values : List Sql.Assignment) :
    SaveCommand → Sql.Statement → Prop where
  | insert {statement : Sql.Statement} {returning : Option String}
      (returned : returning = if s.connection.returning then some e.primaryKey else none)
      (text : statement.text =
        Sql.insertText s.settings.style e.table (values.map Prod.fst) returning)
      (aligned : statement.Aligned s.settings.style
        (Sql.Change.insert e.table values returning).pieces (values.map Prod.snd)) :
      Phrases s e o values .insert statement
  | update {statement : Sql.Statement} {key : Value} (keyed : e.key? o = some key)
      (text : statement.text =
        Sql.updateText s.settings.style e.table (values.map Prod.fst) e.primaryKey)
      (aligned : statement.Aligned s.settings.style
        (Sql.Change.update e.table values (e.primaryKey, key)).pieces
        (values.map Prod.snd ++ [key])) :
      Phrases s e o values .update statement

/-- What a command comes to: it is refused without a statement if there is nothing to write, and
otherwise sends one statement. If that succeeds, an insert puts the key that was assigned. -/
inductive Persists (s : Session) (e : Entity) (command : SaveCommand) (o : Object) (d : Database) :
    Except Failure Saved × Object × Database → Prop where
  | nothing (none : ∀ field value, ¬ e.Assigns command o field value) :
      Persists s e command o d (.error (.misuse .nothingToSave), o, d)
  | refused {values : List Sql.Assignment} {stamped : Object} {statement : Sql.Statement}
      {refusal : DatabaseFailure} {next : Database}
      (assigned : e.Assigned command o values stamped)
      (phrases : s.Phrases e o values command statement)
      (executed : d.execute s.connection statement = (.error refusal, next))
      (sent : next.calls = d.calls ++ [⟨s.connection.acquired, .execute, statement⟩]) :
      Persists s e command o d (.error (.database
        (.within ("While executing '" ++ statement.text ++ "'") refusal)), stamped, next)
  | saved {values : List Sql.Assignment} {stamped after : Object} {statement : Sql.Statement}
      {outcome : Outcome} {next : Database}
      (assigned : e.Assigned command o values stamped)
      (phrases : s.Phrases e o values command statement)
      (executed : d.execute s.connection statement = (.ok outcome, next))
      (sent : next.calls = d.calls ++ [⟨s.connection.acquired, .execute, statement⟩])
      (kept : (command = .insert → outcome.insertedId = none) → after = stamped)
      (keyed : ∀ id, command = .insert → outcome.insertedId = some id →
        after = stamped.put e.primaryKey id) :
      Persists s e command o d
        (.ok ⟨command, 0 < outcome.rowCount, outcome.insertedId⟩, after, next)

theorem calls_execute {statement : Sql.Statement} {result : Except DatabaseFailure Outcome}
    {next : Database} (executed : d.execute s.connection statement = (result, next)) :
    next.calls = d.calls ++ [⟨s.connection.acquired, .execute, statement⟩] := by
  have recorded : (d.execute s.connection statement).2.calls =
      d.calls ++ [⟨s.connection.acquired, .execute, statement⟩] := by
    unfold Database.execute Database.outcome
    split
    · rfl
    · split <;> rfl
  rw [executed] at recorded
  exact recorded

theorem change_phrases (s : Session) {values : List Sql.Assignment} (written : values ≠ [])
    {stamped : Object} (key : stamped.get? e.primaryKey = o.get? e.primaryKey)
    (keyed : command = .update → (e.key? o).isSome) :
    ∃ change, s.change e command stamped values = .ok change ∧
      s.Phrases e o values command (.ofPieces s.settings.style change.pieces) := by
  cases command with
  | insert =>
      refine ⟨_, rfl, .insert rfl (Sql.Change.text_insert written _) ?_⟩
      rw [← Sql.Change.params_insert]
      exact Sql.aligned_ofPieces (Sql.Change.neat_insert _)
  | update =>
      obtain ⟨value, found⟩ := Option.isSome_iff_exists.mp (keyed rfl)
      have stampedKey : e.key? stamped = some value := by rw [Entity.key?, key, ← found]; rfl
      refine ⟨.update e.table values (e.primaryKey, value), ?_, .update found ?_ ?_⟩
      · rw [change, stampedKey]
      · exact Sql.Change.text_update _
      · rw [← Sql.Change.params_update (e.primaryKey, value)]
        exact Sql.aligned_ofPieces (Sql.Change.neat_update _)

theorem persists (known : s.entity o.entity = .ok e) (names : o.names.Nodup) (apart : e.Apart)
    (keyed : command = .update → (e.key? o).isSome) (d : Database) :
    s.Persists e command o d (s.persist command o d) := by
  unfold persist
  simp only [known]
  split
  · next none => exact .nothing (Entity.assignments_isEmpty_iff.mp none)
  · next some =>
    have stamps := e.stamps_missing apart command o
    have holds : ∃ field value, e.Assigns command o field value := by
      rw [Entity.assignments_isEmpty_iff] at some
      simpa using some
    have assigned := (e.writes_assignments command o).assigned stamps apart names holds
    -- the guard is what keeps an insert from giving all columns their defaults
    have written := List.append_ne_nil_of_left_ne_nil (mt List.isEmpty_iff.mpr some)
      (e.missingDiscriminator? (e.assignments command o)).toList
    obtain ⟨change, changed, phrases⟩ := change_phrases s written (stamps.key apart) keyed
    simp only [changed, execute]
    cases executed : d.execute s.connection (.ofPieces s.settings.style change.pieces) with
    | mk result next =>
        have sent := calls_execute executed
        cases result with
        | error refusal => exact .refused assigned phrases executed sent
        | ok outcome =>
            refine .saved assigned phrases executed sent ?_ ?_
            · intro kept
              unfold assignKey
              split
              · next id inserted =>
                rw [kept rfl] at inserted
                cases inserted
              · rfl
            · rintro id rfl inserted
              simp only [assignKey, inserted]

theorem Persists.nothing_iff {result : Except Failure Saved × Object × Database}
    (persists : s.Persists e command o d result) :
    result.1 = .error (.misuse .nothingToSave) ↔
      ∀ field value, ¬ e.Assigns command o field value := by
  cases persists with
  | nothing none => simp only [none, not_false_iff, implies_true]
  | refused assigned | saved assigned =>
      obtain ⟨field, value, holds⟩ := assigned.holds
      constructor
      · intro nothing
        cases nothing
      · intro none
        exact absurd holds (none field value)

/-! ## Runs of saves -/

/-- A run of saves of one object, with the objects and databases that are saved. Between saves, any
fields but the primary key may change, and anything may happen to the database. -/
inductive Saves (s : Session) (e : Entity) : Object → List (Object × Database) → Object → Prop where
  | done {o : Object} : Saves s e o [] o
  | change {o changed last : Object} {log : List (Object × Database)}
      (entity : changed.entity = o.entity) (names : changed.names.Nodup)
      (key : changed.get? e.primaryKey = o.get? e.primaryKey) (rest : Saves s e changed log last) :
      Saves s e o log last
  | save {o last : Object} {log : List (Object × Database)} {d : Database}
      (rest : Saves s e (s.save o d).2.1 log last) : Saves s e o ((o, d) :: log) last

structure Keeps (s : Session) (e : Entity) (id : Value) (o : Object) : Prop where
  known : s.entity o.entity = .ok e
  names : o.names.Nodup
  key : o.get? e.primaryKey = some id
  set : id.isNull = false

theorem Keeps.key? {id : Value} (keeps : s.Keeps e id o) : e.key? o = some id := by
  rw [Entity.key?, keeps.key]
  simp [keeps.set]

theorem Keeps.stamps {id : Value} (keeps : s.Keeps e id o) (apart : e.Apart)
    {added : List Sql.Assignment} {stamped : Object} (stamps : e.Stamps o added stamped) :
    s.Keeps e id stamped := by
  obtain ⟨entity, names⟩ := stamps.names keeps.names
  exact ⟨entity ▸ keeps.known, names, (stamps.key apart).trans keeps.key, keeps.set⟩

theorem save_of_known (known : s.entity o.entity = .ok e) (d : Database) :
    s.save o d = s.persist (e.saveCommand o) o d := by
  simp only [save, known]
  rfl

theorem save_persists (known : s.entity o.entity = .ok e) (names : o.names.Nodup)
    (apart : e.Apart) (d : Database) : s.Persists e (e.saveCommand o) o d (s.save o d) := by
  rw [save_of_known known]
  apply persists known names apart
  unfold Entity.saveCommand
  split <;> simp [*]

theorem Keeps.saveCommand {id : Value} (keeps : s.Keeps e id o) : e.saveCommand o = .update := by
  rw [Entity.saveCommand, keeps.key?]
  rfl

theorem Keeps.update {id : Value} (keeps : s.Keeps e id o) (apart : e.Apart)
    {result : Except Failure Saved × Object × Database}
    (persists : s.Persists e .update o d result) : s.Keeps e id result.2.1 := by
  cases persists with
  | nothing => exact keeps
  | refused assigned =>
      obtain ⟨written, added, -, -, stamps⟩ := assigned.parts
      exact keeps.stamps apart stamps
  | saved assigned _ _ _ kept =>
      obtain ⟨written, added, -, -, stamps⟩ := assigned.parts
      rw [kept nofun]
      exact keeps.stamps apart stamps

theorem Keeps.saves {id : Value} {log : List (Object × Database)} {last : Object}
    (keeps : s.Keeps e id o) (apart : e.Apart) (run : s.Saves e o log last) :
    s.Keeps e id last ∧ ∀ saved ∈ log, s.Keeps e id saved.1 ∧
      s.Persists e .update saved.1 saved.2 (s.save saved.1 saved.2) := by
  -- The invariant of the run is that the object stays under its key.
  induction run with
  | done => exact ⟨keeps, by simp⟩
  | change entity names key _ ih =>
      apply ih
      exact ⟨entity ▸ keeps.known, names, key ▸ keeps.key, keeps.set⟩
  | save rest ih =>
      next d =>
      have persists := save_persists keeps.known keeps.names apart d
      rw [keeps.saveCommand] at persists
      obtain ⟨last, all⟩ := ih (keeps.update apart persists)
      exact ⟨last, List.forall_mem_cons.mpr ⟨⟨keeps, persists⟩, all⟩⟩

theorem Persists.inserted {saved : Saved} {after : Object} {next : Database} {id : Value}
    (persists : s.Persists e command o d (.ok saved, after, next))
    (known : s.entity o.entity = .ok e) (names : o.names.Nodup)
    (insert : saved.command = .insert) (returned : saved.insertedId = some id)
    (set : id.isNull = false) : s.Keeps e id after := by
  cases persists with
  | saved assigned _ _ _ _ keyed =>
      obtain ⟨written, added, -, -, stamps⟩ := assigned.parts
      obtain ⟨entity, stampedNames⟩ := stamps.names names
      rw [keyed id insert returned]
      refine ⟨entity ▸ known, Object.nodup_put stampedNames _ _, ?_, set⟩
      rw [Object.get?_put, if_pos rfl]

/-- A command writes exactly the columns that an object holds, and an object that it inserted under
a key is updated under it from then on. -/
structure CarriesOut (s : Session) (e : Entity) (command : SaveCommand) (o : Object) (d : Database)
    (result : Except Failure Saved × Object × Database) : Prop where
  persists : s.Persists e command o d result
  nothing_iff : result.1 = .error (.misuse .nothingToSave) ↔
    ∀ field value, ¬ e.Assigns command o field value
  updates : ∀ saved id, result.1 = .ok saved → saved.command = .insert →
    saved.insertedId = some id → id.isNull = false →
      ∀ log last, s.Saves e result.2.1 log last → e.key? last = some id ∧
        ∀ later ∈ log, e.key? later.1 = some id ∧
          s.Persists e .update later.1 later.2 (s.save later.1 later.2)

theorem Persists.carriesOut {result : Except Failure Saved × Object × Database}
    (persists : s.Persists e command o d result) (known : s.entity o.entity = .ok e)
    (names : o.names.Nodup) (apart : e.Apart) : s.CarriesOut e command o d result := by
  refine ⟨persists, persists.nothing_iff, ?_⟩
  intro saved id succeeded insert returned set log last run
  obtain ⟨outcome, after, next⟩ := result
  cases succeeded
  have keeps := persists.inserted known names insert returned set
  obtain ⟨kept, all⟩ := keeps.saves apart run
  exact ⟨kept.key?, fun later mem => ⟨(all later mem).1.key?, (all later mem).2⟩⟩

theorem saved_then_updated (known : s.entity o.entity = .ok e) (names : o.names.Nodup)
    (apart : e.Apart) (d : Database) :
    s.CarriesOut e (e.saveCommand o) o d (s.save o d) ∧
      s.CarriesOut e .insert o d (s.insert o d) := by
  constructor
  · exact (save_persists known names apart d).carriesOut known names apart
  · have keyed : SaveCommand.insert = .update → (e.key? o).isSome := nofun
    exact (persists known names apart keyed d).carriesOut known names apart

end Session

namespace Sample

def shirt : Entity where
  name := "Shirt"
  table := "Product"
  primaryKey := "id"
  properties := [("id", .column), ("type", .column), ("name", .column)]
  discriminator := some { column := "type", value := "shirt" }

def assigning : Database := { outcomes := [.ok { insertedId := some (.ofInt64 41) }] }

def renamed : Object := ((tee.put "type" (.text "shirt")).put "id" (.ofInt64 41)).put "name"
  (.text "Polo")

end Sample

theorem Session.saved_then_updated_tee :
    Sample.wardrobe.entity Sample.tee.entity = .ok Sample.shirt ∧ Sample.tee.names.Nodup ∧
      Sample.shirt.Apart ∧
      Sample.wardrobe.CarriesOut Sample.shirt .insert Sample.tee Sample.assigning
        (Sample.wardrobe.insert Sample.tee Sample.assigning) ∧
      Sample.wardrobe.Persists Sample.shirt .update Sample.renamed {}
        (Sample.wardrobe.save Sample.renamed {}) ∧
      (Sample.wardrobe.save Sample.renamed {}).2.2.calls = [⟨false, .execute,
        ⟨"UPDATE \"Product\" SET \"name\" = ?, \"type\" = ? WHERE \"id\" = ?",
          [.text "Polo", .text "shirt", .ofInt64 41]⟩⟩] := by
  have known : Sample.wardrobe.entity Sample.tee.entity = .ok Sample.shirt := rfl
  have names : Sample.tee.names.Nodup := by decide
  have apart : Sample.shirt.Apart := by
    intro d discriminator
    cases discriminator
    decide
  have inserted := (saved_then_updated known names apart Sample.assigning).2
  refine ⟨known, names, apart, inserted, ?_, rfl⟩
  have run : Sample.wardrobe.Saves Sample.shirt
      (Sample.wardrobe.insert Sample.tee Sample.assigning).2.1 [(Sample.renamed, {})]
      (Sample.wardrobe.save Sample.renamed {}).2.1 := by
    refine .change ?_ ?_ ?_ (.save .done)
    · rfl
    · decide
    · rfl
  obtain ⟨-, later⟩ := inserted.updates _ _ rfl rfl rfl rfl _ _ run
  exact (later _ (List.mem_singleton_self _)).2

end RowGraph
