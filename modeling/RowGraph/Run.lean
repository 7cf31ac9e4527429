import RowGraph.Database
import RowGraph.Graph.Items
import RowGraph.Query.Compile

/-!
# Running queries

`Query.exec` runs a query: its own statement, then, for each toMany property, the statement of the
child restricted to the keys of the owners just found, and so on downwards; then the rows are
mapped, and counted if that was asked for. With listeners the objects are delivered as the rows
arrive. A run stops at the first failure; what it changed in the query and the database until then
stays.
-/

namespace RowGraph

structure Ran (α : Type) where
  result : Except Failure α
  query : Query
  database : Database

inductive Event where
  | object (object : Object) (index : Option Value)
  | count (total : Int)
  | finish

structure Run where
  result : Except Failure Output
  events : List Event := []
  query : Query
  database : Database

def ownerKeys (label : String) (rows : List Row) : List Value :=
  Keyed.distinct ((rows.filterMap (·.lookup label)).filter (!·.isNull))

def countOf (rows : List Row) : Except Failure Int :=
  match (rows.head?.bind (·.lookup "count")).bind Value.int64? with
  | some total => .ok total
  | none => .error (.database (.validation "Count query did not return a count"))

def Database.count (d : Database) (c : Connection) (statement : Sql.Statement) :
    Except Failure Int × Database :=
  match d.query c statement with
  | (.error f, d) => (.error (.database f), d)
  | (.ok rows, d) => (countOf rows, d)

namespace Query

/-! ## Fetching rows and children -/

def setOwnerKeys (link : Link) (keys : List Value) (q : Query) : Query :=
  { q with link := some { link with ownerKeys := some keys }, compiled := none }

def grouped (plan : Plan) (foreignKey : String) (rows : List Row) (groups : Groups) : Group :=
  rows.foldl (fun group row =>
    let (object, index) := plan.mapRow groups row
    group.add (row.cell (Alias.root.label foreignKey)) object index) { indexed := plan.isIndexed }

abbrev Fetch := Compiled → Query → Database → Ran (List Row × Groups)

def fetchChild (s : Settings) (fetch : Fetch) (link : Link) (keys : List Value) (child : Query)
    (d : Database) : Ran Group :=
  match (child.setOwnerKeys link keys).build s with
  | (.error faults, child) => ⟨.error (.build faults), child, d⟩
  | (.ok compiled, child) =>
      let r := fetch compiled child d
      { r with
        result := r.result.map fun (rows, groups) =>
          grouped compiled.plan link.foreignKey rows groups }

/-- Fetches the members of the toMany properties one after another. A property without a child, or
without owners, is passed over. -/
def fetchMounts (s : Settings) (fetch : Fetch) (rows : List Row) :
    List MountPlan → Groups → Query → Database → Ran Groups
  | [], groups, q, d => ⟨.ok groups, q, d⟩
  | m :: rest, groups, q, d =>
      match q.children.lookup m.mount, ownerKeys m.keyLabel rows with
      | some child, keys@(_ :: _) => match child.link with
        | none => fetchMounts s fetch rows rest groups q d
        | some link =>
            let r := fetchChild s fetch link keys child d
            let q := q.modifyChild m.mount fun _ => r.query
            match r.result with
            | .error f => ⟨.error f, q, r.database⟩
            | .ok group =>
                fetchMounts s fetch rows rest (Keyed.put m.mount group groups) q r.database
      | _, _ => fetchMounts s fetch rows rest groups q d

def fetchWithin (s : Settings) (c : Connection) : Nat → Fetch
  | depth, compiled, q, d =>
      match d.query c compiled.statement with
      | (.error f, d) => ⟨.error (.database f), q, d⟩
      | (.ok rows, d) =>
          let r : Ran Groups := match depth with
            | 0 => ⟨.ok [], q, d⟩
            | depth + 1 =>
                fetchMounts s (fetchWithin s c depth) rows compiled.plan.mounts [] q d
          { r with result := r.result.map fun groups => (rows, groups) }

/-- Fetches the rows of a compiled query and the groups of its children. Children are fetched for
rows only, and rows come from the queue of replies, so that its length bounds the depth. -/
def fetch (s : Settings) (c : Connection) : Fetch := fun compiled q d =>
  fetchWithin s c d.replies.length compiled q d

/-! ## Whole runs -/

def collect (s : Settings) (c : Connection) (compiled : Compiled) (q : Query) (d : Database) :
    Run :=
  let r := fetch s c compiled q d
  match r.result with
  | .error f => { result := .error f, query := r.query, database := r.database }
  | .ok (rows, groups) =>
      let items := compiled.plan.mapRows groups rows
      match compiled.countStatement with
      | none => { result := .ok (.items items), query := r.query, database := r.database }
      | some statement =>
          let (total, d) := r.database.count c statement
          { result := total.map (.counted items), query := r.query, database := d }

def stream (c : Connection) (compiled : Compiled) (q : Query) (d : Database) : Run :=
  let (rows, failure, d) := d.stream c compiled.statement
  let objects :=
    if q.listeners.objects then
      rows.map fun row =>
        let (object, index) := compiled.plan.mapRow [] row
        Event.object object index
    else []
  let finish := if q.listeners.finish then [Event.finish] else []
  match failure with
  | some f => { result := .error (.database f), events := objects, query := q, database := d }
  | none => match compiled.countStatement with
    | none =>
        { result := .ok (.streamed none), events := objects ++ finish, query := q, database := d }
    | some statement => match d.count c statement with
      | (.error f, d) => { result := .error f, events := objects, query := q, database := d }
      | (.ok total, d) =>
          let counted := if q.listeners.count then [Event.count total] else []
          { result := .ok (.streamed (some total)), events := objects ++ counted ++ finish,
            query := q, database := d }

/-- Builds and runs a query. A child runs only as a part of its owner, and a query with children
cannot deliver its objects. -/
def exec (s : Settings) (c : Connection) (q : Query) (d : Database) : Run :=
  if q.link.isSome then { result := .error (.misuse .runsWithOwner), query := q, database := d }
  else match q.build s with
    | (.error faults, q) => { result := .error (.build faults), query := q, database := d }
    | (.ok compiled, q) =>
        if q.listeners.any then
          if q.children.isEmpty then q.stream c compiled d
          else { result := .error (.misuse .streamingToMany), query := q, database := d }
        else q.collect s c compiled d

end Query
end RowGraph
