import RowGraph.Proofs.Alignment
import RowGraph.Proofs.Members
import RowGraph.Proofs.Moves

/-!
# What a run sends

A run sends the statement of the query, then, for each toMany property with owners, the statement
of the child restricted to their keys and whatever the child sends further, before it goes on to
the next property; it stops at the first failure (`Query.Traces`). So every query of the tree is
sent once at most, however many rows are found, and the count is asked for at the end
(`Reached.exec_sends`).
-/

namespace RowGraph

/-! ## Exchanges -/

structure Exchange where
  path : List Mount
  statement : Sql.Statement
  reply : Except DatabaseFailure (List Row)

namespace Exchange

def within (mount : Mount) (e : Exchange) : Exchange := { e with path := mount :: e.path }

def call (c : Connection) (e : Exchange) : Call :=
  { acquired := c.acquired, action := .query, statement := e.statement }

end Exchange

namespace Database

def Replies (c : Connection) : Database → List Exchange → Database → Prop
  | d, [], after => after = d
  | d, e :: rest, after => ∃ next, d.query c e.statement = (e.reply, next) ∧ Replies c next rest after

variable {c : Connection} {d after : Database}

theorem Replies.append {front back : List Exchange} {middle : Database}
    (h : d.Replies c front middle) (hb : middle.Replies c back after) :
    d.Replies c (front ++ back) after := by
  induction front generalizing d with
  | nil =>
      cases h
      exact hb
  | cons e rest ih =>
      obtain ⟨next, hq, hr⟩ := h
      exact ⟨next, hq, ih hr⟩

theorem Replies.within {exchanges : List Exchange} (h : d.Replies c exchanges after)
    (mount : Mount) : d.Replies c (exchanges.map (Exchange.within mount)) after := by
  induction exchanges generalizing d with
  | nil => exact h
  | cons e rest ih =>
      obtain ⟨next, hq, hr⟩ := h
      exact ⟨next, hq, ih hr⟩

theorem replies_query (d : Database) (c : Connection) (statement : Sql.Statement) :
    (d.query c statement).2.replies <:+ d.replies := by
  have reply : ((d.record c .query statement).reply c).2.replies <:+ d.replies := by
    unfold Database.reply
    split
    · exact List.suffix_refl _
    · split
      · exact List.suffix_refl _
      · next held => exact ⟨[_], held.symm⟩
  unfold query
  split <;> next h => rwa [h] at reply

theorem calls_reply (d : Database) (c : Connection) : (d.reply c).2.calls = d.calls := by
  unfold reply
  repeat' split
  all_goals rfl

theorem calls_query (d : Database) (c : Connection) (statement : Sql.Statement) :
    (d.query c statement).2.calls =
      d.calls ++ [{ acquired := c.acquired, action := .query, statement }] := by
  have reply := (d.record c .query statement).calls_reply c
  unfold query
  split <;> next h =>
    rw [h] at reply
    exact reply

theorem Replies.suffix {exchanges : List Exchange} (h : d.Replies c exchanges after) :
    after.replies <:+ d.replies := by
  induction exchanges generalizing d with
  | nil =>
      cases h
      exact List.suffix_refl _
  | cons e rest ih =>
      obtain ⟨next, hq, hr⟩ := h
      have first := replies_query d c e.statement
      rw [hq] at first
      exact (ih hr).trans first

theorem Replies.calls {exchanges : List Exchange} (h : d.Replies c exchanges after) :
    after.calls = d.calls ++ exchanges.map (Exchange.call c) := by
  induction exchanges generalizing d with
  | nil =>
      cases h
      exact (List.append_nil _).symm
  | cons e rest ih =>
      obtain ⟨next, hq, hr⟩ := h
      have first := calls_query d c e.statement
      rw [hq] at first
      rw [ih hr, first, List.append_assoc]
      rfl

theorem Proper.suffix (h : d.Proper) (suffix : after.replies <:+ d.replies) : after.Proper :=
  fun rows hr => h rows (suffix.subset hr)

theorem Proper.query (h : d.Proper) {statement : Sql.Statement} {rows : List Row} {next : Database}
    (hq : d.query c statement = (.ok rows, next)) : ∀ row ∈ rows, row.Proper := by
  rcases query_ok hq with ⟨rfl, -⟩ | held
  · simp
  · exact h rows (by simp [held])

end Database

/-! ## Restricted statements -/

namespace Sql

theorem exists_separated_concat (separator : String) (groups : List (List Piece))
    (group : List Piece) : ∃ front, separated separator (groups ++ [group]) = front ++ group := by
  induction groups with
  | nil => exact ⟨[], by simp [separated]⟩
  | cons first rest ih =>
      obtain ⟨front, hf⟩ := ih
      refine ⟨first ++ [.fixed separator] ++ front, ?_⟩
      obtain ⟨next, more, hn⟩ := List.exists_cons_of_ne_nil (l := rest ++ [group]) (by simp)
      rw [hn] at hf
      have step : separated separator (first :: next :: more) =
          first ++ [.fixed separator] ++ separated separator (next :: more) := by
        simp [separated, List.intercalate]
      rw [List.cons_append, hn, step, hf, List.append_assoc, List.append_assoc, List.append_assoc]

theorem Select.exists_pieces {s : Select} {front : List Condition} {c : Condition}
    (h : s.conditions = front ++ [c]) : ∃ before after, before ++ c.pieces ++ after = s.pieces := by
  obtain ⟨others, ho⟩ := exists_separated_concat " AND " (front.map Condition.pieces) c.pieces
  have conditions : separated " AND " (s.conditions.map Condition.pieces) = others ++ c.pieces := by
    rw [h, List.map_append, List.map_singleton, ho]
  have some : s.conditions.isEmpty = false := by simp [h]
  unfold pieces bodyPieces
  rw [conditions, some, if_neg Bool.false_ne_true]
  have last : c.pieces <:+ .fixed " WHERE " :: (others ++ c.pieces) :=
    (List.suffix_append others c.pieces).trans (List.suffix_cons ..)
  have further : ∀ {front back : List Piece}, c.pieces <:+: front → c.pieces <:+: front ++ back :=
    fun hf => hf.trans (List.prefix_append ..).isInfix
  exact further (further (further (further (last.trans (List.suffix_append ..)).isInfix)))

/-- A statement with a condition that a column is among some keys: it has one placeholder for each
key, and the keys are the values bound there. -/
def Statement.Restricted (style : EscapeStyle) (column : String) (keys : List Value)
    (statement : Statement) : Prop :=
  ∃ front back : List Piece,
    statement.text = (ofPieces style front).text ++
        (style.escape Alias.root.token ++ "." ++ style.escape column ++ " IN (" ++
          String.intercalate ", " (List.replicate keys.length "?") ++ ")") ++
        (ofPieces style back).text ∧
      statement.params = (ofPieces style front).params ++ keys ++ (ofPieces style back).params

theorem Select.restricted {s : Select} {front : List Condition} {column : String}
    {keys : List Value} (h : s.conditions = front ++ [.among (baseColumn column) keys])
    (style : EscapeStyle) : (Statement.ofPieces style s.pieces).Restricted style column keys := by
  obtain ⟨before, after, pieces⟩ := exists_pieces h
  refine ⟨before, after, ?_, ?_⟩
  · have marks : keys.map (fun _ => "?") = List.replicate keys.length "?" := List.map_const' ..
    rw [← pieces, text_append, text_append, Condition.text_pieces, Condition.text, marks]
    rfl
  · simp only [Statement.ofPieces, ← pieces, List.flatMap_append, Condition.pieces,
      params_separated]
    simp [QualifiedColumn.pieces, Piece.params, List.flatMap_map]

end Sql

theorem Query.Compiles.restricted {s : Settings} {q : Query} {compiled : Compiled}
    (h : q.Compiles s compiled) {link : Link} {keys : List Value}
    (hl : q.link = some { link with ownerKeys := some keys }) :
    compiled.statement.Restricted s.style link.foreignKey keys := by
  obtain ⟨base, r, -, -, rfl⟩ := h
  have conditions : (q.assemble s base r).select.conditions =
      (r.filter.map ((r.scopes base).whole.filterCondition s.style)).toList ++
        (base.discriminator.map Discriminator.condition).toList ++
        [.among (baseColumn link.foreignKey) keys] := by
    simp [assemble, Resolution.statement, hl, Link.condition?]
  exact Sql.Select.restricted conditions s.style

/-! ## Traces -/

namespace Query

/-- A child with owners: `keys` are the values under the label of their key in the rows, without
nulls and each at its first occurrence. -/
structure Due (q : Query) (rows : List Row) (m : MountPlan) (child : Query) (link : Link)
    (keys : List Value) : Prop where
  found : q.children.lookup m.mount = some child
  linked : child.link = some link
  firsts : Keyed.Firsts ((rows.filterMap (·.lookup m.keyLabel)).filter (!·.isNull)) keys
  owners : keys ≠ []

mutual

/-- What a compiled query sends, and the failure that ends it. -/
inductive Traces (s : Settings) : Compiled → Query → List Exchange → Option Failure → Prop where
  | failed {compiled : Compiled} {q : Query} (f : DatabaseFailure) :
      Traces s compiled q [⟨[], compiled.statement, .error f⟩] (some (.database f))
  | answered {compiled : Compiled} {q : Query} {rows : List Row} {exchanges : List Exchange}
      {ending : Option Failure} (apart : (compiled.plan.mounts.map (·.mount)).Nodup)
      (mounts : TracesAll s q rows compiled.plan.mounts exchanges ending) :
      Traces s compiled q (⟨[], compiled.statement, .ok rows⟩ :: exchanges) ending

inductive TracesAll (s : Settings) : Query → List Row → List MountPlan → List Exchange →
    Option Failure → Prop where
  | done {q : Query} {rows : List Row} : TracesAll s q rows [] [] none
  | ownerless {q : Query} {rows : List Row} {m : MountPlan} {rest : List MountPlan}
      {exchanges : List Exchange} {ending : Option Failure}
      (none : Keyed.Firsts ((rows.filterMap (·.lookup m.keyLabel)).filter (!·.isNull)) [])
      (others : TracesAll s q rows rest exchanges ending) :
      TracesAll s q rows (m :: rest) exchanges ending
  | unbuilt {q child : Query} {rows : List Row} {m : MountPlan} {rest : List MountPlan}
      {link : Link} {keys : List Value} {faults : List Fault} (due : q.Due rows m child link keys)
      (unbuilt : ((child.setOwnerKeys link keys).build s).1 = .error faults) :
      TracesAll s q rows (m :: rest) [] (some (.build faults))
  | stopped {q child next : Query} {rows : List Row} {m : MountPlan} {rest : List MountPlan}
      {link : Link} {keys : List Value} {compiled : Compiled} {exchanges : List Exchange}
      {failure : Failure} (due : q.Due rows m child link keys)
      (built : (child.setOwnerKeys link keys).build s = (.ok compiled, next))
      (restricted : compiled.statement.Restricted s.style link.foreignKey keys)
      (trace : Traces s compiled next exchanges (some failure)) :
      TracesAll s q rows (m :: rest) (exchanges.map (.within m.mount)) (some failure)
  | went {q child next : Query} {rows : List Row} {m : MountPlan} {rest : List MountPlan}
      {link : Link} {keys : List Value} {compiled : Compiled} {exchanges later : List Exchange}
      {ending : Option Failure} (due : q.Due rows m child link keys)
      (built : (child.setOwnerKeys link keys).build s = (.ok compiled, next))
      (restricted : compiled.statement.Restricted s.style link.foreignKey keys)
      (trace : Traces s compiled next exchanges none)
      (others : TracesAll s q rows rest later ending) :
      TracesAll s q rows (m :: rest) (exchanges.map (.within m.mount) ++ later) ending

end

variable {s : Settings}

/-! ## One statement for each query -/

theorem TracesAll.paths {q : Query} {rows : List Row} {mounts : List MountPlan}
    {exchanges : List Exchange} {ending : Option Failure} :
    TracesAll s q rows mounts exchanges ending →
      ∀ e ∈ exchanges, ∃ m ∈ mounts, ∃ rest, e.path = m.mount :: rest
  | .done => by simp
  | .ownerless _ others => fun e he => by
      obtain ⟨m, hm, rest⟩ := others.paths e he
      exact ⟨m, List.mem_cons_of_mem _ hm, rest⟩
  | .unbuilt _ _ => by simp
  | .stopped (m := m) .. => fun e he => by
      obtain ⟨inner, -, rfl⟩ := List.mem_map.mp he
      exact ⟨m, List.mem_cons_self .., inner.path, rfl⟩
  | .went (m := m) _ _ _ _ others => fun e he => by
      rcases List.mem_append.mp he with hf | hl
      · obtain ⟨inner, -, rfl⟩ := List.mem_map.mp hf
        exact ⟨m, List.mem_cons_self .., inner.path, rfl⟩
      · obtain ⟨other, hm, rest⟩ := others.paths e hl
        exact ⟨other, List.mem_cons_of_mem _ hm, rest⟩

theorem nodup_within {exchanges : List Exchange} (h : (exchanges.map (·.path)).Nodup)
    (mount : Mount) : ((exchanges.map (Exchange.within mount)).map (·.path)).Nodup := by
  have paths : (exchanges.map (Exchange.within mount)).map (·.path) =
      (exchanges.map (·.path)).map (mount :: ·) := by
    simp [Exchange.within, Function.comp_def]
  rw [paths]
  exact h.map fun _ _ => List.tail_eq_of_cons_eq

mutual

theorem Traces.nodup {compiled : Compiled} {q : Query} {exchanges : List Exchange}
    {ending : Option Failure} : Traces s compiled q exchanges ending →
      (exchanges.map (·.path)).Nodup
  | .failed f => by simp
  | .answered apart mounts => by
      rw [List.map_cons, List.nodup_cons]
      refine ⟨fun hm => ?_, mounts.nodup apart⟩
      obtain ⟨e, he, hp⟩ := List.mem_map.mp hm
      obtain ⟨m, -, rest, path⟩ := mounts.paths e he
      rw [path] at hp
      cases hp

theorem TracesAll.nodup {q : Query} {rows : List Row} {mounts : List MountPlan}
    {exchanges : List Exchange} {ending : Option Failure} :
    TracesAll s q rows mounts exchanges ending → (mounts.map (·.mount)).Nodup →
      (exchanges.map (·.path)).Nodup
  | .done, _ => by simp
  | .ownerless _ others, apart => others.nodup (List.nodup_cons.mp apart).2
  | .unbuilt _ _, _ => by simp
  | .stopped _ _ _ trace, _ => nodup_within trace.nodup _
  | .went (m := m) _ _ _ trace others, apart => by
      rw [List.map_cons, List.nodup_cons] at apart
      rw [List.map_append, List.nodup_append']
      refine ⟨nodup_within trace.nodup _, others.nodup apart.2, fun path hf hl => ?_⟩
      obtain ⟨e, he, rfl⟩ := List.mem_map.mp hf
      obtain ⟨inner, -, rfl⟩ := List.mem_map.mp he
      obtain ⟨later, hm, hp⟩ := List.mem_map.mp hl
      obtain ⟨other, ho, rest, path⟩ := others.paths later hm
      rw [hp] at path
      exact apart.1 ((List.cons.inj path).1 ▸ List.mem_map_of_mem ho)

end

/-! ## Runs -/

def failure? {α : Type} : Except Failure α → Option Failure
  | .ok _ => none
  | .error f => some f

@[simp] theorem failure?_map {α β : Type} (f : α → β) (result : Except Failure α) :
    failure? (result.map f) = failure? result := by
  cases result <;> rfl

theorem TracesAll.of_no_rows (s : Settings) (q : Query) (mounts : List MountPlan) :
    TracesAll s q [] mounts [] none := by
  induction mounts with
  | nil => exact .done
  | cons m rest ih => exact .ownerless .nil ih

theorem firsts_ownerKeys {rows : List Row} (proper : ∀ row ∈ rows, row.Proper) (label : String) :
    Keyed.Firsts ((rows.filterMap (·.lookup label)).filter (!·.isNull)) (ownerKeys label rows) := by
  refine Keyed.firsts_distinct (P := Value.Proper) (fun hv => hv.fair.refl)
    (fun ha hb hc => ha.same_trans hb hc) fun key hk => ?_
  obtain ⟨row, hr, found⟩ := List.mem_filterMap.mp (List.mem_filter.mp hk).1
  exact proper row hr _ (Keyed.mem_of_lookup found)

def Fetch.Sends (s : Settings) (c : Connection) (depth : Nat) (fetch : Fetch) : Prop :=
  ∀ {compiled : Compiled} {q : Query} {d : Database}, Sound s q → q.Orderly →
    q.Compiles s compiled → d.Proper → d.replies.length ≤ depth →
    ∃ exchanges, Traces s compiled q exchanges (failure? (fetch compiled q d).result) ∧
      d.Replies c exchanges (fetch compiled q d).database

variable {c : Connection} {depth : Nat} {fetch : Fetch}

theorem fetchChild_sends (hf : Fetch.Sends s c depth fetch) {link : Link} {child : Query}
    (hl : child.link = some link) (keys : List Value) (sound : Sound s child)
    (orderly : child.Orderly) {d : Database} (proper : d.Proper) (bound : d.replies.length ≤ depth) :
    (∃ faults, ((child.setOwnerKeys link keys).build s).1 = .error faults ∧
      (fetchChild s fetch link keys child d).result = .error (.build faults) ∧
      (fetchChild s fetch link keys child d).database = d) ∨
    ∃ compiled next exchanges, (child.setOwnerKeys link keys).build s = (.ok compiled, next) ∧
      compiled.statement.Restricted s.style link.foreignKey keys ∧
      Traces s compiled next exchanges (failure? (fetchChild s fetch link keys child d).result) ∧
      d.Replies c exchanges (fetchChild s fetch link keys child d).database := by
  unfold fetchChild
  cases hb : (child.setOwnerKeys link keys).build s with
  | mk result next =>
      cases result with
      | error faults => exact .inl ⟨faults, rfl, rfl, rfl⟩
      | ok compiled =>
          obtain ⟨built, compiles, -, -⟩ := sound.buildFor hl hb
          have tidy := (orderly.setOwnerKeys link keys).build hb
          have frames := ((sound.setOwnerKeys hl keys).1.build).2.1
          rw [hb] at frames
          have restricted : compiled.statement.Restricted s.style link.foreignKey keys :=
            compiles.restricted frames.link
          obtain ⟨exchanges, trace, replies⟩ := hf built tidy compiles proper bound
          refine .inr ⟨compiled, next, exchanges, rfl, restricted, ?_, replies⟩
          dsimp only
          rwa [failure?_map]

theorem fetchMounts_sends (hf : Fetch.Sends s c depth fetch) {owner : Query} {rows : List Row}
    (values : ∀ row ∈ rows, row.Proper) {mounts : List MountPlan}
    (apart : (mounts.map (·.mount)).Nodup)
    (linked : ∀ m ∈ mounts, ∃ child link, owner.children.lookup m.mount = some child ∧
      child.link = some link ∧ Sound s child ∧ child.Orderly)
    {q : Query} (same : ∀ m ∈ mounts, q.children.lookup m.mount = owner.children.lookup m.mount)
    (groups : Groups) {d : Database} (proper : d.Proper)
    (bound : rows = [] ∨ d.replies.length ≤ depth) :
    ∃ exchanges, TracesAll s owner rows mounts exchanges
        (failure? (fetchMounts s fetch rows mounts groups q d).result) ∧
      d.Replies c exchanges (fetchMounts s fetch rows mounts groups q d).database := by
  induction mounts generalizing q groups d with
  | nil => exact ⟨[], .done, rfl⟩
  | cons m rest ih =>
      rw [List.map_cons, List.nodup_cons] at apart
      rw [List.forall_mem_cons] at linked same
      obtain ⟨child, link, hchild, hlink, sound, orderly⟩ := linked.1
      have held := same.1.trans hchild
      have firsts := firsts_ownerKeys values m.keyLabel
      cases hkeys : ownerKeys m.keyLabel rows with
      | nil =>
          rw [hkeys] at firsts
          simp only [fetchMounts, held, hkeys]
          obtain ⟨exchanges, all, replies⟩ := ih apart.2 linked.2 same.2 groups proper bound
          exact ⟨exchanges, .ownerless firsts all, replies⟩
      | cons key keys =>
          have bound : d.replies.length ≤ depth := by
            apply bound.resolve_left
            intro hrows
            rw [hrows] at hkeys
            cases hkeys
          rw [hkeys] at firsts
          have due : owner.Due rows m child link (key :: keys) :=
            ⟨hchild, hlink, firsts, by simp⟩
          simp only [fetchMounts, held, hkeys, hlink]
          rcases fetchChild_sends hf hlink (key :: keys) sound orderly proper bound with
            ⟨faults, unbuilt, result, database⟩ |
            ⟨compiled, next, exchanges, built, restricted, trace, replies⟩
          · simp only [result, database]
            exact ⟨[], .unbuilt due unbuilt, rfl⟩
          · cases hr : (fetchChild s fetch link (key :: keys) child d).result with
            | error f =>
                rw [hr] at trace
                exact ⟨_, .stopped due built restricted trace, replies.within m.mount⟩
            | ok group =>
                rw [hr] at trace
                have fewer := replies.suffix
                obtain ⟨later, all, more⟩ := ih apart.2 linked.2 (lookup_ran apart.1 same.2 _)
                  (Keyed.put m.mount group groups) (proper.suffix fewer)
                  (.inr (fewer.length_le.trans bound))
                exact ⟨_, .went due built restricted trace all,
                  (replies.within m.mount).append more⟩

theorem Orderly.linked_mounts {q : Query} (orderly : q.Orderly) (sound : Sound s q)
    {compiled : Compiled} (h : q.Compiles s compiled) : ∀ m ∈ compiled.plan.mounts,
      ∃ child link, q.children.lookup m.mount = some child ∧ child.link = some link ∧
        Sound s child ∧ child.Orderly := by
  intro m hm
  have there := h.mounts.subset (List.mem_map_of_mem hm)
  rw [← Keyed.lookup_isSome_iff_mem, Option.isSome_iff_exists] at there
  obtain ⟨child, hchild⟩ := there
  obtain ⟨link, hlink⟩ := Option.isSome_iff_exists.mp (orderly.linked hchild)
  exact ⟨child, link, hchild, hlink, sound.child (Keyed.mem_of_lookup hchild),
    orderly.child hchild⟩

theorem fetchWithin_sends (s : Settings) (c : Connection) (depth : Nat) :
    Fetch.Sends s c depth (fetchWithin s c depth) := by
  induction depth with
  | zero =>
      intro compiled q d sound orderly compiles proper bound
      unfold fetchWithin
      cases hq : d.query c compiled.statement with
      | mk reply next =>
          cases reply with
          | error f => exact ⟨[⟨[], _, .error f⟩], .failed f, next, hq, rfl⟩
          | ok rows =>
              -- without replies there are no rows, and no owners
              have empty : rows = [] := by
                rcases Database.query_ok hq with ⟨hrows, -⟩ | hreplies
                · exact hrows
                · rw [hreplies] at bound
                  cases bound
              subst empty
              exact ⟨[⟨[], _, .ok []⟩],
                .answered (orderly.mounts.sublist compiles.mounts) (.of_no_rows s q _),
                next, hq, rfl⟩
  | succ depth ih =>
      intro compiled q d sound orderly compiles proper bound
      unfold fetchWithin
      cases hq : d.query c compiled.statement with
      | mk reply next =>
          cases reply with
          | error f => exact ⟨[⟨[], _, .error f⟩], .failed f, next, hq, rfl⟩
          | ok rows =>
              have fewer : rows = [] ∨ next.replies.length ≤ depth := by
                rcases Database.query_ok hq with ⟨hrows, -⟩ | hreplies
                · exact .inl hrows
                · rw [hreplies, List.length_cons] at bound
                  exact .inr (Nat.le_of_succ_le_succ bound)
              have suffix := Database.replies_query d c compiled.statement
              rw [hq] at suffix
              have apart := orderly.mounts.sublist compiles.mounts
              obtain ⟨exchanges, all, replies⟩ := fetchMounts_sends ih (proper.query hq) apart
                (orderly.linked_mounts sound compiles) (fun _ _ => rfl) [] (proper.suffix suffix)
                fewer
              refine ⟨⟨[], _, .ok rows⟩ :: exchanges, .answered apart ?_, next, hq, replies⟩
              dsimp only
              rwa [failure?_map]

/-! ## Whole runs -/

/-- How a run ends after what it fetched: with the failure that stopped it, or with its objects,
which are counted by a last statement if that was asked for. -/
inductive Ends (c : Connection) (compiled : Compiled) (fetched : Database) :
    Option Failure → Run → Prop where
  | failed {failure : Failure} {run : Run} (result : run.result = .error failure)
      (database : run.database = fetched) : Ends c compiled fetched (some failure) run
  | uncounted {run : Run} {items : Items} (uncounted : compiled.countStatement = none)
      (result : run.result = .ok (.items items)) (database : run.database = fetched) :
      Ends c compiled fetched none run
  | counted {run : Run} {items : Items} {statement : Sql.Statement} {rows : List Row}
      {after : Database} (counted : compiled.countStatement = some statement)
      (found : fetched.query c statement = (.ok rows, after))
      (result : run.result = (countOf rows).map (.counted items)) (database : run.database = after)
      (calls : after.calls = fetched.calls ++ [⟨c.acquired, .query, statement⟩]) :
      Ends c compiled fetched none run
  | uncountable {run : Run} {statement : Sql.Statement} {f : DatabaseFailure} {after : Database}
      (counted : compiled.countStatement = some statement)
      (failed : fetched.query c statement = (.error f, after))
      (result : run.result = .error (.database f)) (database : run.database = after)
      (calls : after.calls = fetched.calls ++ [⟨c.acquired, .query, statement⟩]) :
      Ends c compiled fetched none run

theorem collect_ends (s : Settings) (c : Connection) (compiled : Compiled) (q : Query)
    (d : Database) : Ends c compiled (Query.fetch s c compiled q d).database
      (failure? (Query.fetch s c compiled q d).result) (q.collect s c compiled d) := by
  unfold collect
  dsimp only
  cases hr : (Query.fetch s c compiled q d).result with
  | error f => exact .failed rfl rfl
  | ok fetched =>
      obtain ⟨rows, groups⟩ := fetched
      cases hs : compiled.countStatement with
      | none => exact .uncounted hs rfl rfl
      | some statement =>
          have calls := Database.calls_query (Query.fetch s c compiled q d).database c statement
          dsimp only [Database.count]
          cases hq : (Query.fetch s c compiled q d).database.query c statement with
          | mk reply after =>
              rw [hq] at calls
              cases reply with
              | error f => exact .uncountable hs hq rfl rfl calls
              | ok rows => exact .counted hs hq rfl rfl calls

/-- What a run of a query sends: nothing if it does not build, and otherwise a trace with one
exchange at most for each query of the tree. -/
inductive Sends (s : Settings) (c : Connection) (q : Query) (d : Database) (run : Run) : Prop where
  | unbuilt {faults : List Fault} (unbuilt : (q.build s).1 = .error faults)
      (result : run.result = .error (.build faults)) (database : run.database = d)
  | ran {compiled : Compiled} {next : Query} {exchanges : List Exchange} {ending : Option Failure}
      {fetched : Database} (built : q.build s = (.ok compiled, next))
      (trace : Traces s compiled next exchanges ending) (once : (exchanges.map (·.path)).Nodup)
      (replies : d.Replies c exchanges fetched)
      (calls : fetched.calls = d.calls ++ exchanges.map (Exchange.call c))
      (ends : Ends c compiled fetched ending run)

end Query

end RowGraph
