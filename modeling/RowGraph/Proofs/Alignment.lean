import RowGraph.Proofs.Placeholder
import RowGraph.Proofs.Reached

/-!
# Placeholders and parameters line up

A statement binds each of its values to the placeholder that it is meant for, if every fragment of
text that goes into it has as many placeholders as values and leaves quotes closed
(`Query.Tidy`). Then the values are those of the filter, with the values of subqueries in the
place of their placeholders, the discriminator, the keys of the owners, the values of the grouping
condition and of the limit (`Reached.statement_aligned`).
-/

namespace RowGraph

namespace Sql

variable {style : EscapeStyle}

/-! ## Pieces -/

def Piece.Neat (style : EscapeStyle) (p : Piece) : Prop :=
  Sql.Neat (p.text style).toList p.params.length

/-- A piece with its own values bound. Fixed text and identifiers have no placeholders, whatever
characters they hold. -/
def Piece.bound (style : EscapeStyle) : Piece → List (Char ⊕ Value)
  | .fixed text => text.toList.map .inl
  | .identifier name => (style.escape name).toList.map .inl
  | .param value => [.inr value]
  | .fragment text params => bind text params

theorem Piece.neat_fixed {text : String} (h : Sql.Neat text.toList 0) :
    (Piece.fixed text).Neat style := h

theorem Piece.neat_identifier (name : String) : (Piece.identifier name).Neat style :=
  neat_escape style name

theorem Piece.neat_param (value : Value) : (Piece.param value).Neat style :=
  show Sql.Neat "?".toList 1 by decide

theorem Piece.Neat.bind_eq {p : Piece} (h : p.Neat style) :
    bind (p.text style) p.params = p.bound style := by
  cases p with
  | fixed text => exact bindFrom_of_slots_eq_zero h.slots _
  | identifier name => exact bindFrom_of_slots_eq_zero h.slots _
  | param value =>
      have : "?".toList = ['?'] := by decide
      simp [bind, Piece.text, this, Piece.params, Piece.bound, bindFrom, isPlaceholder]
  | fragment text params => rfl

theorem neat_ofPieces {pieces : List Piece} (h : ∀ p ∈ pieces, p.Neat style) :
    Neat (Statement.ofPieces style pieces).text.toList
        (Statement.ofPieces style pieces).params.length ∧
      bind (Statement.ofPieces style pieces).text (Statement.ofPieces style pieces).params =
        pieces.flatMap (Piece.bound style) := by
  simp only [Statement.ofPieces, bind, String.toList_join, List.flatMap_map]
  induction pieces with
  | nil => exact ⟨neat_nil, rfl⟩
  | cons p rest ih =>
      rw [List.forall_mem_cons] at h
      obtain ⟨neat, hbind⟩ := ih h.2
      simp only [List.flatMap_cons, List.length_append]
      refine ⟨h.1.append neat, ?_⟩
      rw [Neat.bind_append h.1, hbind]
      exact congrArg (· ++ _) h.1.bind_eq

theorem mem_separated {separator : String} {groups : List (List Piece)} {p : Piece}
    (h : p ∈ separated separator groups) :
    p = .fixed separator ∨ ∃ group ∈ groups, p ∈ group := by
  induction groups with
  | nil => simp [separated] at h
  | cons group rest ih =>
      cases rest with
      | nil => exact .inr ⟨group, List.mem_singleton_self _, by simpa [separated] using h⟩
      | cons next more =>
          have h : p ∈ group ++ [.fixed separator] ++ separated separator (next :: more) := by
            simpa [separated, List.intercalate] using h
          rw [List.mem_append, List.mem_append, List.mem_singleton] at h
          rcases h with (hg | hs) | hr
          · exact .inr ⟨group, List.mem_cons_self .., hg⟩
          · exact .inl hs
          · rcases ih hr with hs | ⟨other, ho, hp⟩
            · exact .inl hs
            · exact .inr ⟨other, List.mem_cons_of_mem _ ho, hp⟩

theorem params_separated (separator : String) (groups : List (List Piece)) :
    (separated separator groups).flatMap Piece.params =
      groups.flatMap fun group => group.flatMap Piece.params := by
  induction groups with
  | nil => rfl
  | cons group rest ih =>
      cases rest with
      | nil => simp [separated]
      | cons next more =>
          have : separated separator (group :: next :: more) =
              group ++ [.fixed separator] ++ separated separator (next :: more) := by
            simp [separated, List.intercalate]
          rw [this, List.flatMap_append, List.flatMap_append, ih, List.flatMap_cons]
          simp [Piece.params]

/-! ## Select statements -/

def Fragment.Neat (f : Fragment) : Prop := Sql.Neat f.text.toList f.params.length

def Condition.params : Condition → List Value
  | .fragment f => f.params
  | .equals _ value => [value]
  | .among _ values => values

structure Select.Neat (s : Select) : Prop where
  options : ∀ text ∈ s.options, Sql.Neat text.toList 0
  expressions : ∀ f ∈ s.expressions, f.Neat
  conditions : ∀ f, .fragment f ∈ s.conditions → f.Neat
  group : ∀ f ∈ s.group, f.Neat
  having : ∀ f ∈ s.having, f.Neat
  order : ∀ f ∈ s.order, f.Neat
  limit : ∀ f ∈ s.limit, f.Neat

theorem QualifiedColumn.neat_pieces (c : QualifiedColumn) : ∀ p ∈ c.pieces, p.Neat style := by
  simp only [QualifiedColumn.pieces, List.forall_mem_cons]
  exact ⟨Piece.neat_identifier _, Piece.neat_fixed (by decide), Piece.neat_identifier _, by simp⟩

theorem LabelledColumn.neat_pieces (c : LabelledColumn) : ∀ p ∈ c.pieces, p.Neat style := by
  simp only [LabelledColumn.pieces, List.forall_mem_append, List.forall_mem_cons]
  exact ⟨c.source.neat_pieces, Piece.neat_fixed (by decide), Piece.neat_identifier _, by simp⟩

theorem LeftJoin.neat_pieces (j : LeftJoin) : ∀ p ∈ j.pieces, p.Neat style := by
  simp only [LeftJoin.pieces, List.forall_mem_append, List.forall_mem_cons]
  exact ⟨⟨⟨⟨Piece.neat_fixed (by decide), Piece.neat_identifier _, Piece.neat_fixed (by decide),
    Piece.neat_identifier _, Piece.neat_fixed (by decide), by simp⟩,
    QualifiedColumn.neat_pieces _⟩, Piece.neat_fixed (by decide), by simp⟩,
    QualifiedColumn.neat_pieces _⟩

theorem neat_separated {separator : String} (hs : Sql.Neat separator.toList 0)
    {groups : List (List Piece)} (h : ∀ group ∈ groups, ∀ p ∈ group, p.Neat style) :
    ∀ p ∈ separated separator groups, p.Neat style := by
  intro p hp
  rcases mem_separated hp with rfl | ⟨group, hg, hp⟩
  · exact Piece.neat_fixed hs
  · exact h group hg p hp

theorem Condition.neat_pieces {c : Condition} (h : ∀ f, c = .fragment f → f.Neat) :
    ∀ p ∈ c.pieces, p.Neat style := by
  cases c with
  | fragment f =>
      simp only [Condition.pieces, List.forall_mem_cons]
      exact ⟨Piece.neat_fixed (by decide), h f rfl, Piece.neat_fixed (by decide), by simp⟩
  | equals column value =>
      simp only [Condition.pieces, List.forall_mem_append, List.forall_mem_cons]
      exact ⟨column.neat_pieces, Piece.neat_fixed (by decide), Piece.neat_param _, by simp⟩
  | among column values =>
      simp only [Condition.pieces, List.forall_mem_append, List.forall_mem_cons]
      refine ⟨⟨⟨column.neat_pieces, Piece.neat_fixed (by decide), by simp⟩, ?_⟩,
        Piece.neat_fixed (by decide), by simp⟩
      refine neat_separated (by decide) ?_
      intro group hg
      obtain ⟨value, -, rfl⟩ := List.mem_map.mp hg
      simpa using Piece.neat_param value

theorem neat_clausePieces {keyword : String} (hk : Sql.Neat keyword.toList 0)
    {f : Option Fragment} (h : ∀ found ∈ f, found.Neat) :
    ∀ p ∈ clausePieces keyword f, p.Neat style := by
  cases f with
  | none => simp [clausePieces]
  | some found =>
      simp only [clausePieces, List.forall_mem_cons]
      exact ⟨Piece.neat_fixed hk, h found rfl, by simp⟩

namespace Select

variable {s : Select}

theorem Neat.listPieces (h : s.Neat) : ∀ p ∈ s.listPieces, p.Neat style := by
  refine neat_separated (by decide) ?_
  rw [List.forall_mem_append]
  constructor
  · intro group hg
    obtain ⟨column, -, rfl⟩ := List.mem_map.mp hg
    exact column.neat_pieces
  · intro group hg
    obtain ⟨f, hf, rfl⟩ := List.mem_map.mp hg
    intro p hp
    rw [List.mem_singleton.mp hp]
    exact h.expressions f hf

theorem Neat.bodyPieces (h : s.Neat) : ∀ p ∈ s.bodyPieces, p.Neat style := by
  simp only [Select.bodyPieces, List.forall_mem_append]
  refine ⟨⟨⟨⟨⟨⟨⟨⟨?_, ?_⟩, ?_⟩, h.listPieces⟩, ?_⟩, ?_⟩, ?_⟩, ?_⟩, ?_⟩
  · simpa using Piece.neat_fixed (by decide)
  · cases ho : s.options with
    | none => simp
    | some options =>
        simp only [List.forall_mem_cons]
        exact ⟨h.options options ho, Piece.neat_fixed (by decide), by simp⟩
  · split
    · simpa using Piece.neat_fixed (by decide)
    · simp
  · simp only [List.forall_mem_cons]
    exact ⟨Piece.neat_fixed (by decide), Piece.neat_identifier _, Piece.neat_fixed (by decide),
      Piece.neat_identifier _, by simp⟩
  · intro p hp
    obtain ⟨join, -, hp⟩ := List.mem_flatMap.mp hp
    exact join.neat_pieces p hp
  · split
    · simp
    · rw [List.forall_mem_cons]
      refine ⟨Piece.neat_fixed (by decide), neat_separated (by decide) ?_⟩
      intro group hg
      obtain ⟨condition, hc, rfl⟩ := List.mem_map.mp hg
      exact Condition.neat_pieces fun f hf => h.conditions f (hf ▸ hc)
  · exact neat_clausePieces (by decide) h.group
  · exact neat_clausePieces (by decide) h.having

theorem Neat.pieces (h : s.Neat) : ∀ p ∈ s.pieces, p.Neat style := by
  simp only [Select.pieces, List.forall_mem_append]
  exact ⟨⟨h.bodyPieces, neat_clausePieces (by decide) h.order⟩,
    neat_clausePieces (by decide) h.limit⟩

theorem Neat.countPieces (h : s.Neat) : ∀ p ∈ s.countPieces, p.Neat style := by
  simp only [Select.countPieces, List.forall_mem_append, List.forall_mem_cons]
  exact ⟨⟨⟨Piece.neat_fixed (by decide), Piece.neat_identifier _, Piece.neat_fixed (by decide),
    by simp⟩, h.bodyPieces⟩, Piece.neat_fixed (by decide), Piece.neat_identifier _, by simp⟩

/-! ## Values of a statement -/

def clauseParams (f : Option Fragment) : List Value := (f.map (·.params)).getD []

theorem params_clausePieces (keyword : String) (f : Option Fragment) :
    (clausePieces keyword f).flatMap Piece.params = clauseParams f := by
  cases f <;> simp [clausePieces, clauseParams, Piece.params, Fragment.piece]

theorem params_conditions (conditions : List Condition) :
    conditions.flatMap (fun c => c.pieces.flatMap Piece.params) =
      conditions.flatMap Condition.params := by
  refine List.flatMap_congr fun c _ => ?_
  cases c with
  | fragment f => simp [Condition.pieces, Condition.params, Piece.params, Fragment.piece]
  | equals column value =>
      simp [Condition.pieces, Condition.params, Piece.params, QualifiedColumn.pieces]
  | among column values =>
      simp [Condition.pieces, Condition.params, Piece.params, QualifiedColumn.pieces,
        params_separated, List.flatMap_map]

theorem params_bodyPieces (s : Select) : s.bodyPieces.flatMap Piece.params =
    s.expressions.flatMap (·.params) ++ s.conditions.flatMap Condition.params ++
      clauseParams s.group ++ clauseParams s.having := by
  have list : s.listPieces.flatMap Piece.params = s.expressions.flatMap (·.params) := by
    rw [Select.listPieces, params_separated, List.flatMap_append, List.flatMap_map,
      List.flatMap_map]
    simp [LabelledColumn.pieces, QualifiedColumn.pieces, Piece.params, Fragment.piece]
  have joins : (s.joins.flatMap LeftJoin.pieces).flatMap Piece.params = [] := by
    simp [List.flatMap_assoc, LeftJoin.pieces, QualifiedColumn.pieces, Piece.params]
  have conditions : (if s.conditions.isEmpty then []
      else .fixed " WHERE " :: separated " AND " (s.conditions.map Condition.pieces)).flatMap
        Piece.params = s.conditions.flatMap Condition.params := by
    split
    · next he => simp [List.isEmpty_iff.mp he]
    · rw [List.flatMap_cons, params_separated, List.flatMap_map, params_conditions]
      rfl
  simp only [Select.bodyPieces, List.flatMap_append, list, joins, conditions,
    params_clausePieces]
  cases s.options <;> cases s.distinct <;> simp [Piece.params]

theorem params_pieces (s : Select) : s.pieces.flatMap Piece.params =
    s.bodyPieces.flatMap Piece.params ++ clauseParams s.order ++ clauseParams s.limit := by
  simp only [Select.pieces, List.flatMap_append, params_clausePieces]

theorem params_countPieces (s : Select) :
    s.countPieces.flatMap Piece.params = s.bodyPieces.flatMap Piece.params := by
  simp [Select.countPieces, Piece.params]

end Select

structure Statement.Aligned (style : EscapeStyle) (statement : Statement) (pieces : List Piece)
    (values : List Value) : Prop where
  params : statement.params = values
  count : (positions statement.text).length = statement.params.length
  closed : quoteAfterAll none statement.text.toList = none
  bound : bind statement.text statement.params = pieces.flatMap (Piece.bound style)
  numbered : (numbered statement.text).toList =
    (bind statement.text (List.range' 1 statement.params.length)).flatMap numbering

theorem aligned_ofPieces {pieces : List Piece} (h : ∀ p ∈ pieces, p.Neat style) :
    (Statement.ofPieces style pieces).Aligned style pieces (pieces.flatMap Piece.params) := by
  obtain ⟨neat, hbound⟩ := neat_ofPieces h
  refine ⟨rfl, neat.count, neat.closed, hbound, ?_⟩
  have count : (positions (Statement.ofPieces style pieces).text).length =
      (Statement.ofPieces style pieces).params.length := neat.count
  rw [toList_numbered, count]

end Sql

open Sql

/-! ## Values that are meant -/

namespace Clauses

def havingValues (c : Clauses) : List Value := (c.having.map Prod.snd).getD []

def limitValues (c : Clauses) : List Value := (c.limit.map Prod.snd).getD []

end Clauses

namespace Query

mutual

/-- The values of a query without its limit, in the order of its placeholders: those of the
filter, the discriminator, the keys of the owners, and those of the grouping condition. -/
def bodyValues (s : Settings) : Query → List Value
  | { clauses, params, faults := _, children := _, link, listeners := _, compiled := _ } =>
      (if clauses.filter.isSome then filterValues s params else []) ++
        (((clauses.source.bind s.schema.entity?).bind (·.discriminator)).map
          (Value.text ·.value)).toList ++
        ((link.bind (·.ownerKeys)).getD []) ++ clauses.havingValues
termination_by structural q => q

def filterValues (s : Settings) : List (Param Query) → List Value
  | [] => []
  | .value v :: rest => v :: filterValues s rest
  | .subquery q :: rest => q.bodyValues s ++ q.clauses.limitValues ++ filterValues s rest
termination_by structural params => params

end

def values (s : Settings) (q : Query) : List Value := q.bodyValues s ++ q.clauses.limitValues

theorem bodyValues_eq (s : Settings) (q : Query) : q.bodyValues s =
    (if q.clauses.filter.isSome then filterValues s q.params else []) ++
      (((q.base? s.schema).bind (·.discriminator)).map (Value.text ·.value)).toList ++
      ((q.link.bind (·.ownerKeys)).getD []) ++ q.clauses.havingValues := by
  cases q
  rfl

end Query

/-- Every fragment of a resolved query, its references replaced, leaves quotes closed; the filter,
the grouping condition and the limit have as many placeholders as values, and no other fragment
has one. -/
structure Resolution.Tidy (s : Settings) (base : Entity) (r : Resolution) (c : Clauses)
    (values : Nat) : Prop where
  options : ∀ text ∈ c.options, Neat text.toList 0
  expressions : ∀ t ∈ r.expressions ++ r.group.toList ++ r.order.toList,
    Neat (t.fill s.style (r.scopes base).whole.aliasOf).toList 0
  filter : ∀ f ∈ r.filter,
    Neat (f.template.fill s.style (r.scopes base).whole.aliasOf).toList values
  having : ∀ t ∈ r.having,
    Neat (t.fill s.style (r.scopes base).whole.aliasOf).toList c.havingValues.length
  limit : ∀ limit ∈ c.limit, Neat limit.1.toList limit.2.length

namespace Resolution

theorem mem_conditions {s : Settings} {base : Entity} {r : Resolution} {scopes : Scopes} {c : Clauses}
    {link : Option Link} {f : Fragment}
    (h : .fragment f ∈ (r.statement s base scopes c link).conditions) :
    ∃ filter ∈ r.filter,
      f = splice (filter.template.fill s.style scopes.whole.aliasOf) filter.bounds := by
  simp only [Resolution.statement, List.mem_append, Option.mem_toList] at h
  rcases h with (hf | hd) | hl
  · obtain ⟨filter, hfilter, heq⟩ := Option.map_eq_some_iff.mp hf
    exact ⟨filter, hfilter, by simpa [Scope.filterCondition] using heq.symm⟩
  · obtain ⟨d, -, heq⟩ := Option.map_eq_some_iff.mp hd
    cases heq
  · obtain ⟨l, -, heq⟩ := Option.bind_eq_some_iff.mp hl
    obtain ⟨keys, -, heq⟩ := Option.map_eq_some_iff.mp heq
    cases heq

theorem Tidy.neat_statement {s : Settings} {base : Entity} {r : Resolution} {n : Nat} {c : Clauses}
    {link : Option Link} (tidy : r.Tidy s base c n)
    (filter : ∀ f ∈ r.filter, (splice (f.template.fill s.style (r.scopes base).whole.aliasOf)
      f.bounds).Neat) : (r.statement s base (r.scopes base) c link).Neat := by
  have fragment : ∀ {clause : Option Template} {values : List Value},
      (∀ t ∈ clause, Neat (t.fill s.style (r.scopes base).whole.aliasOf).toList values.length) →
      ∀ f ∈ clause.map ((r.scopes base).whole.fragment s.style values), f.Neat := by
    intro clause values h f hf
    obtain ⟨t, ht, rfl⟩ := Option.map_eq_some_iff.mp hf
    exact h t ht
  refine ⟨tidy.options, ?_, ?_, fragment fun t ht => ?_, fragment tidy.having,
    fragment fun t ht => ?_, ?_⟩
  · intro f hf
    obtain ⟨t, ht, rfl⟩ := List.mem_map.mp hf
    exact tidy.expressions t (List.mem_append_left _ (List.mem_append_left _ ht))
  · intro f hf
    obtain ⟨found, hfound, rfl⟩ := mem_conditions hf
    exact filter found hfound
  · exact tidy.expressions t
      (List.mem_append_left _ (List.mem_append_right _ (Option.mem_toList.mpr ht)))
  · exact tidy.expressions t (List.mem_append_right _ (Option.mem_toList.mpr ht))
  · intro f hf
    obtain ⟨limit, hl, rfl⟩ := Option.map_eq_some_iff.mp hf
    exact tidy.limit limit hl

theorem clauseParams_fragment (scope : Scope) (style : EscapeStyle) (clause : Option Template) :
    Select.clauseParams (clause.map (scope.fragment style [])) = [] := by
  cases clause <;> rfl

theorem params_body (r : Resolution) (s : Settings) (base : Entity) (scopes : Scopes) (c : Clauses)
    (link : Option Link) :
    (r.statement s base scopes c link).bodyPieces.flatMap Piece.params =
      (r.filter.map fun f => f.bounds.flatMap Bound.params).getD [] ++
        (base.discriminator.map (Value.text ·.value)).toList ++
        (link.bind (·.ownerKeys)).getD [] ++
        Select.clauseParams (r.having.map (scopes.whole.fragment s.style c.havingValues)) := by
  have expressions : (r.expressions.map (scopes.whole.fragment s.style [])).flatMap
      (·.params) = [] := by
    simp [List.flatMap_map, Scope.fragment]
  have filter : (r.filter.map (scopes.whole.filterCondition s.style)).toList.flatMap
      Condition.params = (r.filter.map fun f => f.bounds.flatMap Bound.params).getD [] := by
    cases r.filter <;> simp [Scope.filterCondition, Condition.params, splice]
  have discriminator : (base.discriminator.map Discriminator.condition).toList.flatMap
      Condition.params = (base.discriminator.map (Value.text ·.value)).toList := by
    cases base.discriminator <;> simp [Discriminator.condition, Condition.params]
  have keys : (link.bind Link.condition?).toList.flatMap Condition.params =
      (link.bind (·.ownerKeys)).getD [] := by
    rcases link with _ | ⟨foreignKey, _ | keys⟩ <;> simp [Link.condition?, Condition.params]
  rw [Select.params_bodyPieces]
  simp only [Resolution.statement, List.flatMap_append, expressions, filter, discriminator, keys,
    clauseParams_fragment, List.nil_append, List.append_nil]
  rfl

end Resolution

instance (s : Settings) (base : Entity) (r : Resolution) (c : Clauses) (values : Nat) :
    Decidable (r.Tidy s base c values) :=
  decidable_of_iff
    ((∀ text ∈ c.options, Neat text.toList 0) ∧
      (∀ t ∈ r.expressions ++ r.group.toList ++ r.order.toList,
        Neat (t.fill s.style (r.scopes base).whole.aliasOf).toList 0) ∧
      (∀ f ∈ r.filter,
        Neat (f.template.fill s.style (r.scopes base).whole.aliasOf).toList values) ∧
      (∀ t ∈ r.having,
        Neat (t.fill s.style (r.scopes base).whole.aliasOf).toList c.havingValues.length) ∧
      ∀ limit ∈ c.limit, Neat limit.1.toList limit.2.length)
    ⟨fun h => ⟨h.1, h.2.1, h.2.2.1, h.2.2.2.1, h.2.2.2.2⟩,
      fun h => ⟨h.options, h.expressions, h.filter, h.having, h.limit⟩⟩

inductive Query.Tidy (s : Settings) : Query → Prop where
  | intro {q : Query}
      (clauses : ∀ found ∈ q.resolution? s, found.2.Tidy s found.1 q.clauses q.params.length)
      (subqueries : ∀ sub, Param.subquery sub ∈ q.params → Tidy s sub) : Tidy s q

def Query.select? (s : Settings) (q : Query) : Option Select :=
  (q.resolution? s).map fun (base, r) => r.statement s base (r.scopes base) q.clauses q.link

inductive Param.Binds (s : Settings) : Param Query → Bound → Prop where
  | value (v : Value) : Binds s (.value v) (.value v)
  | subquery {sub : Query} {select : Select} (found : sub.select? s = some select) :
      Binds s (.subquery sub) (.statement (.ofPieces s.style select.pieces))

namespace Query

variable {s : Settings} {q next : Query} {compiled : Compiled}

/-- A statement of a query and the one that counts line up, and its filter has each value and
each subquery, with the values bound in it, at a placeholder of its own. -/
structure Aligns (s : Settings) (q : Query) (select : Select) : Prop where
  statement : (Statement.ofPieces s.style select.pieces).Aligned s.style select.pieces
    (q.values s)
  count : (Statement.ofPieces s.style select.countPieces).Aligned s.style select.countPieces
    (q.bodyValues s)
  filter : ∀ f, .fragment f ∈ select.conditions → ∃ text bounds,
    List.Forall₂ (Param.Binds s) q.params bounds ∧ f = splice text bounds ∧
    bind f.text f.params = (bind text bounds).flatMap (Sum.elim (fun c => [.inl c]) Bound.filled)

inductive Aligned (s : Settings) : Query → Prop where
  | intro {q : Query} (aligns : ∀ select ∈ q.select? s, q.Aligns s select)
      (subqueries : ∀ sub, Param.subquery sub ∈ q.params → Aligned s sub) : Aligned s q

theorem select?_eq_some_iff {select : Select} : q.select? s = some select ↔
    ∃ base r, q.Resolves s base r ∧
      select = r.statement s base (r.scopes base) q.clauses q.link := by
  rw [select?, Option.map_eq_some_iff]
  constructor
  · rintro ⟨⟨base, r⟩, h, rfl⟩
    exact ⟨base, r, resolution?_eq_some_iff.mp h, rfl⟩
  · rintro ⟨base, r, h, rfl⟩
    exact ⟨(base, r), resolution?_eq_some_iff.mpr h, rfl⟩

theorem Sound.statement_ok (h : Sound s q) {statement : Statement}
    (hb : q.statementWith s (q.bindings s) = .ok statement) :
    ∃ select, q.select? s = some select ∧ statement = .ofPieces s.style select.pieces := by
  unfold statementWith at hb
  cases hc : q.compiled with
  | some compiled =>
      simp only [hc, Except.ok.injEq] at hb
      subst hb
      obtain ⟨base, r, resolves, -, rfl⟩ := h.memo hc
      exact ⟨_, select?_eq_some_iff.mpr ⟨base, r, resolves, rfl⟩, rfl⟩
  | none =>
      rw [hc] at hb
      obtain ⟨⟨compiled, next⟩, hok, rfl⟩ := map_eq_ok_iff.mp hb
      obtain ⟨base, r, hbase, hr, -, rfl⟩ := compileWith_ok hok
      exact ⟨_, select?_eq_some_iff.mpr ⟨base, r, ⟨hbase, hr⟩, rfl⟩, rfl⟩

theorem binds_of_check {params : List (Param Query)} {bounds : List Bound}
    (h : List.Forall₂ (fun binding bound => binding.check = .ok bound) (bindingsOf s params) bounds)
    (sound : ∀ sub, Param.subquery sub ∈ params → Sound s sub) :
    List.Forall₂ (Param.Binds s) params bounds := by
  induction params generalizing bounds with
  | nil =>
      cases h
      exact .nil
  | cons param rest ih =>
      have later : ∀ sub, Param.subquery sub ∈ rest → Sound s sub :=
        fun sub hm => sound sub (List.mem_cons_of_mem _ hm)
      cases param with
      | value v =>
          obtain ⟨bound, more, hcheck, hrest, rfl⟩ := List.forall₂_cons_left_iff.mp h
          cases hcheck
          exact .cons (.value v) (ih hrest later)
      | subquery sub =>
          obtain ⟨bound, more, hcheck, hrest, rfl⟩ := List.forall₂_cons_left_iff.mp h
          obtain ⟨statement, hbuilt, rfl⟩ := map_eq_ok_iff.mp hcheck
          obtain ⟨select, found, rfl⟩ :=
            (sound sub (List.mem_cons_self ..)).statement_ok hbuilt
          exact .cons (.subquery found) (ih hrest later)

theorem params_of_binds {params : List (Param Query)} {bounds : List Bound}
    (h : List.Forall₂ (Param.Binds s) params bounds)
    (aligned : ∀ sub, Param.subquery sub ∈ params → ∀ select ∈ sub.select? s,
      sub.Aligns s select) :
    bounds.flatMap Bound.params = filterValues s params ∧ ∀ b ∈ bounds, b.Neat := by
  induction h with
  | nil => exact ⟨rfl, by simp⟩
  | cons hb _ ih =>
      obtain ⟨hparams, neat⟩ := ih fun sub hm => aligned sub (List.mem_cons_of_mem _ hm)
      rw [List.forall_mem_cons]
      cases hb with
      | value v => exact ⟨by simp [filterValues, Bound.params, hparams], Bound.neat_value v, neat⟩
      | subquery found =>
          have own := (aligned _ (List.mem_cons_self ..) _ found).statement
          refine ⟨?_, Bound.neat_statement ⟨own.count, own.closed⟩, neat⟩
          simp only [List.flatMap_cons, Bound.params, own.params, hparams, filterValues,
            Query.values]

theorem Resolves.aligns {base : Entity} {r : Resolution} (resolves : q.Resolves s base r)
    (tidy : r.Tidy s base q.clauses q.params.length) (sound : Sound s q)
    (aligned : ∀ sub, Param.subquery sub ∈ q.params → ∀ select ∈ sub.select? s,
      sub.Aligns s select) :
    q.Aligns s (r.statement s base (r.scopes base) q.clauses q.link) := by
  have resolved := Settings.check_ok resolves.resolution
  have binds : ∀ f ∈ r.filter, q.clauses.filter.isSome ∧
      List.Forall₂ (Param.Binds s) q.params f.bounds := by
    intro f hf
    have hrel := resolved.filter
    rw [Option.mem_def.mp hf] at hrel
    cases hfilter : q.clauses.filter with
    | none =>
        rw [hfilter] at hrel
        cases hrel
    | some text =>
        rw [hfilter] at hrel
        cases hrel with
        | some filters =>
            refine ⟨rfl, binds_of_check ?_ fun sub hm => sound.subquery hm⟩
            rw [← bindings_eq]
            exact filters.bounds
  have spliced : ∀ f ∈ r.filter,
      Neat (f.template.fill s.style (r.scopes base).whole.aliasOf).toList f.bounds.length := by
    intro f hf
    rw [← (binds f hf).2.length_eq]
    exact tidy.filter f hf
  have neat : (r.statement s base (r.scopes base) q.clauses q.link).Neat :=
    tidy.neat_statement fun f hf =>
      neat_splice (spliced f hf) (params_of_binds (binds f hf).2 aligned).2
  have filter : (r.filter.map fun f => f.bounds.flatMap Bound.params).getD [] =
      if q.clauses.filter.isSome then filterValues s q.params else [] := by
    cases hf : r.filter with
    | none =>
        have hrel := resolved.filter
        rw [hf] at hrel
        cases hfilter : q.clauses.filter with
        | none => rfl
        | some text =>
            rw [hfilter] at hrel
            cases hrel
    | some f =>
        obtain ⟨isSome, hbinds⟩ := binds f hf
        rw [if_pos isSome]
        exact (params_of_binds hbinds aligned).1
  have having : Select.clauseParams (r.having.map ((r.scopes base).whole.fragment s.style
      q.clauses.havingValues)) = q.clauses.havingValues := by
    have hrel := resolved.having
    cases hh : r.having with
    | some t => rfl
    | none =>
        rw [hh] at hrel
        cases hc : q.clauses.having with
        | none => simp [Select.clauseParams, Clauses.havingValues, hc]
        | some pair =>
            rw [hc] at hrel
            cases hrel
  have limit : Select.clauseParams (r.statement s base (r.scopes base) q.clauses q.link).limit =
      q.clauses.limitValues := by
    simp [Resolution.statement, Select.clauseParams, Clauses.limitValues, Function.comp_def]
  have body : (r.statement s base (r.scopes base) q.clauses q.link).bodyPieces.flatMap
      Piece.params = q.bodyValues s := by
    rw [Resolution.params_body, bodyValues_eq, filter, having, resolves.entity]
    rfl
  have whole : (r.statement s base (r.scopes base) q.clauses q.link).pieces.flatMap
      Piece.params = q.values s := by
    rw [Select.params_pieces, body, Query.values, ← limit]
    simp [Resolution.statement, Resolution.clauseParams_fragment]
  refine ⟨?_, ?_, ?_⟩
  · rw [← whole]
    exact aligned_ofPieces neat.pieces
  · rw [← body, ← Select.params_countPieces]
    exact aligned_ofPieces neat.countPieces
  · intro f hf
    obtain ⟨found, hfound, rfl⟩ := Resolution.mem_conditions hf
    refine ⟨_, found.bounds, (binds found hfound).2, rfl, ?_⟩
    exact bind_splice (spliced found hfound) (params_of_binds (binds found hfound).2 aligned).2

theorem Tidy.aligned (tidy : q.Tidy s) : Sound s q → q.Aligned s := by
  induction tidy with
  | intro clauses subqueries ih =>
      intro sound
      have later := fun sub hm => ih sub hm (sound.subquery hm)
      refine .intro (fun select hselect => ?_) later
      obtain ⟨base, r, resolves, rfl⟩ := select?_eq_some_iff.mp hselect
      have hr := clauses _ (resolution?_eq_some_iff.mpr resolves)
      refine resolves.aligns hr sound fun sub hm => ?_
      cases later sub hm with
      | intro aligns => exact aligns

/-- The placeholders and the values of a built query line up, those of its counting statement,
which lacks the limit, and those of its subqueries at any depth. -/
theorem Reached.statement_aligned (reached : Reached s q) (tidy : q.Tidy s)
    (built : q.build s = (.ok compiled, next)) :
    compiled.statement.Aligned s.style compiled.select.pieces (q.values s) ∧
      (∀ count ∈ compiled.countStatement,
        count.Aligned s.style compiled.select.countPieces (q.bodyValues s)) ∧
      q.select? s = some compiled.select ∧ q.Aligned s := by
  obtain ⟨-, frames, base, r, resolves, -, rfl⟩ := reached.build built
  have found : q.select? s = some (next.assemble s base r).select := by
    have same : q.Resolves s base r := by
      constructor
      · rw [Query.base?, ← frames.clauses]
        exact resolves.entity
      · rw [← frames.clauses, bindings_eq, ← frames.params, ← bindings_eq]
        exact resolves.resolution
    refine select?_eq_some_iff.mpr ⟨base, r, same, ?_⟩
    rw [← frames.clauses, ← frames.link]
    rfl
  have aligned := tidy.aligned reached.sound
  have aligns : q.Aligns s (next.assemble s base r).select := by
    cases aligned with
    | intro aligns => exact aligns _ found
  refine ⟨aligns.statement, fun count hc => ?_, found, aligned⟩
  unfold Compiled.countStatement at hc
  split at hc
  · cases hc
    exact aligns.count
  · cases hc

theorem Reached.statement_aligned_orders : ∃ compiled next,
    Sample.orders.build Sample.settings = (.ok compiled, next) ∧
      Sample.orders.Tidy Sample.settings ∧
      compiled.statement.Aligned Sample.settings.style compiled.select.pieces
        [.text "?", .ofInt64 100, .ofUInt64 10] := by
  have customers : Sample.customers.Tidy Sample.settings := by
    refine .intro (by decide +kernel) fun sub hm => ?_
    simp [Sample.customers, Query.filter, Query.edit] at hm
  have orders : Sample.orders.Tidy Sample.settings := by
    refine .intro (by decide +kernel) fun sub hm => ?_
    have : sub = Sample.customers := by
      simpa [Sample.orders, Query.filter, Query.edit, Query.limit, Query.limitWith,
        Query.countWithoutLimit] using hm
    rw [this]
    exact customers
  exact ⟨_, _, rfl, orders, (Reached.statement_aligned Sample.orders_reached orders rfl).1⟩

end Query
end RowGraph
