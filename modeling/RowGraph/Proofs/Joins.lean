import RowGraph.Proofs.Alias
import RowGraph.Proofs.Reached
import RowGraph.Proofs.Scopes

/-!
# One join for each path

A built statement has one left join for each bridge path that the clauses refer to, in whatever
clauses and however often (`Clauses.WellJoined`, `Reached.statement_wellJoined`). The joins are numbered in
order, each refers to a table in front of it, and every column in the statement is read from the
table of its own path.
-/

namespace RowGraph

/-! ## Tables by path -/

/-- A path has the token of its place in the statement: the base table comes first, then the
joined paths. -/
def TokenOf (paths : List (List String)) (path : List String) (token : String) : Prop :=
  ∃ k, ([] :: paths)[k]? = some path ∧ token = (Alias.mk k).token

/-- The join number `i` brings in the entity at a path, by the bridge from the path in front of
it, which has a smaller number. -/
def Schema.JoinAt (s : Schema) (base : Entity) (paths : List (List String)) (i : Nat)
    (path : List String) (join : Sql.LeftJoin) : Prop :=
  ∃ owner ownerEntity bridge boundKey e k, path = owner ++ [bridge] ∧
    s.entityAt? base owner = some ownerEntity ∧ s.IsBridge ownerEntity bridge boundKey e ∧
    s.entityAt? base path = some e ∧ ([] :: paths)[k]? = some owner ∧ k < i ∧
    join = { table := e.table, tableAlias := (Alias.mk i).token, primaryKey := e.primaryKey,
             foreignKey := ⟨(Alias.mk k).token, boundKey⟩ }

inductive Settings.Rewritten (s : Settings) (base : Entity) (paths : List (List String)) :
    Segment → String → Prop where
  | literal (text : String) : Rewritten s base paths (.literal text) text
  | reference {field column label token : String} {path : List String}
      (points : s.Points base .expression (fieldPath (Text.trim field)) path column label)
      (named : TokenOf paths path token) :
      Rewritten s base paths (.reference field)
        (s.style.escape token ++ "." ++ s.style.escape column)

def Settings.Rewrites (s : Settings) (base : Entity) (paths : List (List String))
    (expression text : String) : Prop :=
  ∃ parts, List.Forall₂ (s.Rewritten base paths) (segments expression) parts ∧
    text = String.join parts

/-- A statement whose tables are those of the paths that the clauses of a query refer to. -/
structure Clauses.WellJoined (s : Settings) (base : Entity) (c : Clauses) (link : Option Link)
    (paths : List (List String)) (select : Sql.Select) : Prop where
  nodup : paths.Nodup
  mem_iff : ∀ path, path ∈ paths ↔ path ≠ [] ∧ (s.schema.entityAt? base path).isSome ∧
    ∃ whole ∈ c.referencedPaths, path <+: whole
  table : select.table = base.table ∧ select.tableAlias = (Alias.mk 0).token
  length : select.joins.length = paths.length
  joins : ∀ i path, paths[i]? = some path →
    ∃ join ∈ select.joins[i]?, s.schema.JoinAt base paths (i + 1) path join
  tokens : (select.tableAlias :: select.joins.map (·.tableAlias)).Nodup
  introduced : ∀ path token, TokenOf paths path token →
    token ∈ select.tableAlias :: select.joins.map (·.tableAlias)
  columns : ∀ column ∈ select.columns, ∃ path e, TokenOf paths path column.source.qualifier ∧
    s.schema.entityAt? base path = some e ∧ (column.source.column = e.primaryKey ∨
      ∃ label, c.Requests s base path column.source.column label)
  requested : ∀ path name label, c.Requests s base path name label →
    ∃ column ∈ select.columns, TokenOf paths path column.source.qualifier ∧
      column.source.column = name
  expressions : List.Forall₂ (fun text f => s.Rewrites base paths text f.text)
    c.expressions select.expressions
  conditions : ∃ filter : Option Sql.Condition,
    Option.Rel (fun text condition => ∃ rewritten bounds,
      s.Rewrites base paths text rewritten ∧ condition = .fragment (splice rewritten bounds))
      c.filter filter ∧
    select.conditions = filter.toList ++
      (base.discriminator.map fun d =>
        .equals ⟨(Alias.mk 0).token, d.column⟩ (.text d.value)).toList ++
      (link.bind fun l => l.ownerKeys.map fun keys =>
        .among ⟨(Alias.mk 0).token, l.foreignKey⟩ keys).toList
  group : Option.Rel (fun text f => s.Rewrites base paths text f.text) c.group
    select.group
  having : Option.Rel (fun text f => s.Rewrites base paths text f.text)
    (c.having.map Prod.fst) select.having
  order : Option.Rel (fun text f => s.Rewrites base paths text f.text) c.order
    select.order

/-! ## Resolved clauses -/

theorem Schema.mem_flatMap_bridgePaths {s : Schema} {base : Entity} {wholes : List (List String)}
    {path : List String} : path ∈ wholes.flatMap (s.bridgePaths base) ↔
      path ≠ [] ∧ (s.entityAt? base path).isSome ∧ ∃ whole ∈ wholes, path <+: whole := by
  rw [List.mem_flatMap]
  constructor
  · rintro ⟨whole, hw, hp⟩
    obtain ⟨hne, front, hat⟩ := Schema.mem_bridgePaths.mp hp
    exact ⟨hne, hat, whole, hw, front⟩
  · rintro ⟨hne, hat, whole, hw, front⟩
    exact ⟨whole, hw, Schema.mem_bridgePaths.mpr ⟨hne, front, hat⟩⟩

theorem Clauses.mem_joinPaths {s : Schema} {base : Entity} {c : Clauses} {path : List String} :
    path ∈ c.joinPaths s base ↔ path ≠ [] ∧ (s.entityAt? base path).isSome ∧
      ∃ whole ∈ c.referencedPaths, path <+: whole := by
  rw [joinPaths, Keyed.mem_distinct]
  exact Schema.mem_flatMap_bridgePaths

theorem Settings.Points.mem_joinPaths {s : Settings} {base : Entity} {c : Clauses} {place : Place}
    {parts path : List String} {column label : String}
    (h : s.Points base place parts path column label) (hm : parts ∈ c.referencedPaths) :
    path ∈ [] :: c.joinPaths s.schema base := by
  obtain ⟨e, part, rfl, hat, -⟩ := h
  rw [List.mem_cons, Clauses.mem_joinPaths]
  by_cases hne : path = []
  · exact .inl hne
  · exact .inr ⟨hne, by rw [hat]; rfl, _, hm, List.prefix_append ..⟩

theorem Clauses.Requests.mem_joinPaths {s : Settings} {base : Entity} {c : Clauses}
    {path : List String} {column label : String} (h : c.Requests s base path column label) :
    path ∈ [] :: c.joinPaths s.schema base := by
  cases h with
  | field listed plain points =>
      refine points.mem_joinPaths ?_
      simp only [referencedPaths, graphPaths, List.mem_append]
      exact .inl (.inl (.inr (List.mem_map_of_mem (List.mem_filter.mpr ⟨listed, by simp [plain]⟩))))
  | index keyed points =>
      refine points.mem_joinPaths ?_
      simp [referencedPaths, graphPaths, keyed]
  | forced => exact List.mem_cons_self ..

theorem Clauses.Requests.entityAt? {s : Settings} {base : Entity} {c : Clauses}
    {path : List String} {column label : String} (h : c.Requests s base path column label) :
    ∃ e, s.schema.entityAt? base path = some e := by
  cases h with
  | field _ _ points =>
      obtain ⟨e, _, -, hat, -⟩ := points
      exact ⟨e, hat⟩
  | index _ points =>
      obtain ⟨e, _, -, hat, -⟩ := points
      exact ⟨e, hat⟩
  | forced => exact ⟨base, rfl⟩

section

variable {s : Settings} {base : Entity} {c : Clauses} {bindings : List Binding} {r : Resolution}
  (hs : s.schema.WellFormed) (hb : base ∈ s.schema.entities)
  (resolved : s.Resolved base c bindings r) (forced : ∀ name ∈ c.forced, base.hasColumn name)
  (relations : ∀ path ∈ c.relations, (s.schema.entityAt? base path.bridges).isSome)

include hs hb resolved forced relations

theorem Settings.Resolved.tokenOf {path : Path}
    (h : path.bridges ∈ [] :: c.joinPaths s.schema base) :
    TokenOf (c.joinPaths s.schema base) path.bridges
      ((r.scopes base).whole.aliasOf path).token := by
  have tables := resolved.tables_whole hs hb forced relations
  have joined := resolved.joined hs.named hb
  obtain ⟨k, hk⟩ := List.mem_iff_getElem?.mp h
  rw [← tables, List.getElem?_map, Option.map_eq_some_iff] at hk
  obtain ⟨⟨found, e⟩, hat, heq⟩ := hk
  obtain rfl : found = path := Path.ext heq
  rw [Scope.aliasOf_eq joined.keys_nodup hat]
  refine ⟨k, ?_, rfl⟩
  rw [← tables, List.getElem?_map, hat]
  rfl

theorem Settings.Resolved.rewrites {expression : String} {t : Template}
    (h : s.Fills base expression t) (hm : expression ∈ c.expressionTexts) :
    s.Rewrites base (c.joinPaths s.schema base) expression
      (t.fill s.style (r.scopes base).whole.aliasOf) := by
  have mem : ∀ field, .reference field ∈ segments expression →
      fieldPath (Text.trim field) ∈ c.referencedPaths := by
    intro field hf
    rw [Clauses.referencedPaths, List.mem_append]
    refine .inr (List.mem_flatMap.mpr ⟨expression, hm, ?_⟩)
    exact List.mem_filterMap.mpr ⟨_, hf, rfl⟩
  refine ⟨_, ?_, rfl⟩
  rw [List.forall₂_map_right_iff]
  refine forall₂_of_mem h fun found segment part replaces => ?_
  cases replaces with
  | literal text => exact .literal text
  | @reference field item follows =>
      obtain ⟨ref, href⟩ := follows.reference (by decide)
      have points := (follows.mem_references_iff hs hb).mp (by rw [href]; exact List.mem_singleton_self _)
      rw [itemPath_of_not (follows.plain (by decide))] at points
      have text : (TemplatePart.field item).text s.style (r.scopes base).whole.aliasOf =
          ref.quoted s.style (r.scopes base).whole.aliasOf := by
        simp [TemplatePart.text, href, String.join]
      rw [text]
      exact .reference points
        (resolved.tokenOf hs hb forced relations (points.mem_joinPaths (mem field segment)))

theorem Settings.Resolved.joins {i : Nat} {path : List String}
    (h : (c.joinPaths s.schema base)[i]? = some path) :
    ∃ join ∈ ((r.scopes base).whole.joins.map fun (_, join) => join.leftJoin)[i]?,
      s.schema.JoinAt base (c.joinPaths s.schema base) (i + 1) path join := by
  have tables := resolved.tables_whole hs hb forced relations
  have joined := resolved.joined hs.named hb
  have at_path : ((r.scopes base).whole.tables.map (·.1.bridges))[i + 1]? = some path := by
    rw [tables, List.getElem?_cons_succ, h]
  rw [List.getElem?_map, Option.map_eq_some_iff] at at_path
  obtain ⟨⟨found, e⟩, hat, rfl⟩ := at_path
  obtain ⟨owner, ownerEntity, bridge, boundKey, k, hk, howner, isBridge, hpath, hjoin⟩ :=
    joined.join_at hat
  refine ⟨_, by rw [List.getElem?_map, hjoin]; rfl, owner.bridges, ownerEntity, bridge, boundKey,
    e, k, hpath, joined.entityAt? (List.mem_of_getElem? howner), isBridge,
    joined.entityAt? (List.mem_of_getElem? hat), ?_, by omega, rfl⟩
  rw [← tables, List.getElem?_map, howner]
  rfl

theorem Settings.Resolved.length_joins :
    (r.scopes base).whole.joins.length = (c.joinPaths s.schema base).length := by
  have tables := congrArg List.length (resolved.tables_whole hs hb forced relations)
  have := (resolved.joined hs.named hb).length_tables
  simp only [List.length_map, List.length_cons] at tables
  omega

theorem Settings.Resolved.columns {ref : Reference} (h : ref ∈ r.columns (r.scopes base)) :
    ref.path.bridges ∈ [] :: c.joinPaths s.schema base ∧
      ∃ e, s.schema.entityAt? base ref.path.bridges = some e ∧ (ref.column = e.primaryKey ∨
        ∃ label, c.Requests s base ref.path.bridges ref.column label) := by
  rw [Resolution.columns, Keyed.mem_distinct, List.mem_append] at h
  rcases h with h | h
  · have requests := (requested_iff hs hb resolved forced).mp h
    obtain ⟨e, hat⟩ := requests.entityAt?
    exact ⟨requests.mem_joinPaths, e, hat, .inr ⟨_, requests⟩⟩
  · obtain ⟨path, -, hkey⟩ := List.mem_filterMap.mp (List.mem_of_mem_filter h)
    obtain ⟨e, he, rfl⟩ := Option.map_eq_some_iff.mp hkey
    have hmem : (path, e) ∈ (r.scopes base).whole.tables :=
      (Scope.tables_prefix_addAll _ _).subset (Keyed.mem_of_lookup he)
    refine ⟨?_, e, (resolved.joined hs.named hb).entityAt? hmem, .inl rfl⟩
    rw [← resolved.tables_whole hs hb forced relations]
    exact List.mem_map_of_mem (f := fun entry : Path × Entity => entry.1.bridges) hmem

end

/-! ## Built queries -/

theorem tokens_nodup (n : Nat) :
    ((List.range n).map fun i => (Alias.mk i).token).Nodup := by
  refine List.Nodup.map (fun i j h => ?_) List.nodup_range
  simpa using Alias.token_injective h

theorem rel_map_right {α β γ : Type} {R : α → β → Prop} {S : α → γ → Prop} {f : β → γ}
    {a : Option α} {b : Option β} (h : Option.Rel R a b)
    (hf : ∀ x ∈ a, ∀ y, R x y → S x (f y)) : Option.Rel S a (b.map f) := by
  cases h with
  | some h => exact .some (hf _ rfl _ h)
  | none => exact .none

namespace Query

variable {s : Settings} {q next : Query} {compiled : Compiled}

theorem Compiles.wellJoined (hs : s.schema.WellFormed) (tied : q.Tied s.schema)
    (h : q.Compiles s compiled) : ∃ base, q.base? s.schema = some base ∧
      q.clauses.WellJoined s base q.link (q.clauses.joinPaths s.schema base) compiled.select := by
  obtain ⟨base, r, hbase, hb, resolved, rfl⟩ := h.resolved
  have forced := tied.hasColumn hbase
  have relations := tied.entityAt? hbase
  have length := resolved.length_joins hs hb forced relations
  have tokens : Alias.root.token ::
      (r.scopes base).whole.joins.map (fun entry => entry.2.leftJoin.tableAlias) =
      (List.range ((q.clauses.joinPaths s.schema base).length + 1)).map
        fun i => (Alias.mk i).token := by
    have names := congrArg (List.map Alias.token) (resolved.joined hs.named hb).names_joins
    rw [List.range_succ_eq_map, List.map_cons, List.map_map, ← length]
    refine congrArg₂ List.cons rfl ?_
    simpa [Join.leftJoin, Function.comp_def] using names
  have rewrites := @Settings.Resolved.rewrites s base q.clauses _ r hs hb resolved forced relations
  refine ⟨base, hbase, ?_⟩
  refine { nodup := Keyed.nodup_distinct _, mem_iff := fun _ => Clauses.mem_joinPaths,
           table := ⟨rfl, rfl⟩, length := by simpa [assemble, Resolution.statement] using length,
           joins := fun i path hi => resolved.joins hs hb forced relations hi,
           tokens := ?_, introduced := ?_, columns := ?_, requested := ?_, expressions := ?_,
           conditions := ?_, group := ?_, having := ?_, order := ?_ }
  · simp only [assemble, Resolution.statement, List.map_map, Function.comp_def, tokens]
    exact tokens_nodup _
  · rintro path token ⟨k, hk, rfl⟩
    simp only [assemble, Resolution.statement, List.map_map, Function.comp_def, tokens]
    have hlt := (List.getElem?_eq_some_iff.mp hk).1
    exact List.mem_map_of_mem (List.mem_range.mpr (by simpa using hlt))
  · intro column hc
    obtain ⟨ref, href, rfl⟩ := List.mem_map.mp hc
    obtain ⟨hpath, e, hat, hcolumn⟩ := resolved.columns hs hb forced relations href
    exact ⟨_, e, resolved.tokenOf hs hb forced relations hpath, hat, hcolumn⟩
  · intro path name label requests
    let named : Path := { bridges := path }
    have token : TokenOf _ named.bridges _ :=
      resolved.tokenOf hs hb forced relations requests.mem_joinPaths
    have href : (⟨named, name, label⟩ : Reference) ∈ r.columns (r.scopes base) := by
      rw [Resolution.columns, Keyed.mem_distinct, List.mem_append]
      exact .inl ((requested_iff hs hb resolved forced).mpr requests)
    exact ⟨_, List.mem_map_of_mem href, token, rfl⟩
  · simp only [assemble, Resolution.statement, List.forall₂_map_right_iff]
    refine forall₂_of_mem resolved.expressions fun text ht t fills => rewrites fills ?_
    simp only [Clauses.expressionTexts, List.mem_append]
    tauto
  · refine ⟨r.filter.map ((r.scopes base).whole.filterCondition s.style), ?_, rfl⟩
    refine rel_map_right resolved.filter fun text ht f filters => ?_
    refine ⟨_, f.bounds, rewrites filters.fills ?_, rfl⟩
    have := Option.mem_toList.mpr ht
    simp only [Clauses.expressionTexts, List.mem_append]
    tauto
  · refine rel_map_right resolved.group fun text ht f fills => rewrites fills ?_
    have := Option.mem_toList.mpr ht
    simp only [Clauses.expressionTexts, List.mem_append]
    tauto
  · refine rel_map_right resolved.having fun text ht f fills => rewrites fills ?_
    have := Option.mem_toList.mpr ht
    simp only [Clauses.expressionTexts, List.mem_append]
    tauto
  · refine rel_map_right resolved.order fun text ht f fills => rewrites fills ?_
    have := Option.mem_toList.mpr ht
    simp only [Clauses.expressionTexts, List.mem_append]
    tauto

/-- A query that builds joins one table for each bridge path that its clauses refer to. -/
theorem Reached.statement_wellJoined {declarations : List Declaration}
    (declared : Schema.ofDeclarations declarations = .ok s.schema)
    (plain : ∀ d ∈ declarations, d.Plain) (reached : Reached s q)
    (built : q.build s = (.ok compiled, next)) : ∃ base, q.base? s.schema = some base ∧
      q.clauses.WellJoined s base q.link (q.clauses.joinPaths s.schema base) compiled.select := by
  have hs := Schema.wellFormed_ofDeclarations declared plain
  obtain ⟨sound, frames, compiles⟩ := reached.build built
  obtain ⟨base, hbase, joined⟩ := compiles.wellJoined hs (sound.tied hs.named)
  rw [Query.base?, frames.clauses] at hbase
  rw [frames.clauses, frames.link] at joined
  exact ⟨base, hbase, joined⟩

theorem Reached.statement_wellJoined_orders : ∃ compiled next base,
    Sample.orders.build Sample.settings = (.ok compiled, next) ∧
      Sample.orders.base? Sample.schema = some base ∧
      Sample.orders.clauses.WellJoined Sample.settings base Sample.orders.link
        (Sample.orders.clauses.joinPaths Sample.schema base) compiled.select := by
  obtain ⟨base, hbase, joined⟩ :=
    Reached.statement_wellJoined (s := Sample.settings) Sample.declared Sample.plain Sample.orders_reached rfl
  exact ⟨_, _, base, rfl, hbase, joined⟩

end Query
end RowGraph
