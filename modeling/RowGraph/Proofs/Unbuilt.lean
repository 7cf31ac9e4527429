import RowGraph.Proofs.Rerun
import RowGraph.Proofs.Trace

/-!
# Queries that do not build

A query is built before anything is sent, but a child only when its turn comes, when there are
owners whose keys it is restricted to. The keys do not matter for whether it builds
(`Query.Misbuilds.of_keys`), so a fault of a query below is a matter of the tree, and the rows
decide only whether a run comes to it (`Query.Reached.exec_unbuilt`).
-/

namespace RowGraph
namespace Query

variable {s : Settings}

/-! ## Queries that do not build -/

/-- The query below some mounts does not build, whatever keys it is restricted to. -/
inductive Misbuilds (s : Settings) : Query → List Mount → List Fault → Prop where
  | here {q : Query} {faults : List Fault} (unbuilt : (q.build s).1 = .error faults) :
      Misbuilds s q [] faults
  | further {q next child : Query} {compiled : Compiled} {m : MountPlan} {link : Link}
      {path : List Mount} {faults : List Fault} (built : q.build s = (.ok compiled, next))
      (planned : m ∈ compiled.plan.mounts) (found : next.children.lookup m.mount = some child)
      (linked : child.link = some link)
      (misbuilds : ∀ keys, Misbuilds s (child.setOwnerKeys link keys) path faults) :
      Misbuilds s q (m.mount :: path) faults

theorem plan_congr {a b : Query} {base : Entity} {r : Resolution} (clauses : b.clauses = a.clauses)
    (mounts : b.children.map Prod.fst = a.children.map Prod.fst) :
    (b.assemble s base r).plan = (a.assemble s base r).plan := by
  simp only [assemble, clauses, mounts]

theorem Twins.setOwnerKeys {q next : Query} {link other : Link} (h : Twins s q next)
    (hl : q.link = some link) (ho : next.link = some other) (keys others : List Value) :
    Twins s (q.setOwnerKeys link keys) (next.setOwnerKeys other others) := by
  have first : Agrees s q (q.setOwnerKeys link keys) := (Agrees.refl s q).setOwnerKeys hl keys
  have second := h.agrees.setOwnerKeys ho others
  obtain ⟨mounts, below⟩ := h.children
  exact .intro ⟨second.clauses, second.bindings.trans first.bindings.symm, second.faults,
    second.link.trans first.link.symm⟩ mounts below

theorem Misbuilds.twins {q : Query} {path : List Mount} {faults : List Fault}
    (h : Misbuilds s q path faults) {next : Query} (twins : Twins s q next)
    (fresh : q.compiled = none) (freshNext : next.compiled = none) :
    Misbuilds s next path faults := by
  induction h generalizing next with
  | @here q faults unbuilt =>
      cases hb : q.build s with
      | mk result built =>
          rw [hb] at unbuilt
          subst unbuilt
          obtain ⟨-, -, failed⟩ := compile_of_build_error hb
          exact .here (by rw [build_of_error freshNext (twins.agrees.compile_error failed)])
  | @further q built child compiled m link path faults hb planned found linked _ ih =>
      have agrees := twins.agrees
      rcases resolves_or_error s q with ⟨base, r, resolves, faultless⟩ | ⟨faults, failed⟩
      · rw [build_of_resolves fresh resolves faultless] at hb
        cases hb
        have children := paired_forward (s := s) twins.children r
        have clauses : (next.forward s.schema r).clauses = (q.forward s.schema r).clauses :=
          (frames_forward s.schema r next).clauses.trans
            (agrees.clauses.trans (frames_forward s.schema r q).clauses.symm)
        obtain ⟨other, ho, below⟩ := children.exists_right found
        obtain ⟨otherLink, lo, -⟩ := Option.map_eq_some_iff.mp
          (below.agrees.link.trans (congrArg _ linked))
        rw [← plan_congr clauses children.mounts] at planned
        exact .further (build_of_resolves freshNext (agrees.resolves resolves)
          (agrees.faults.trans faultless)) planned ho lo fun keys =>
            ih keys (below.setOwnerKeys linked lo keys keys) rfl rfl
      · rw [build_of_error fresh failed] at hb
        cases hb

theorem Misbuilds.of_keys {child : Query} {link : Link} (linked : child.link = some link)
    {keys : List Value} {path : List Mount} {faults : List Fault}
    (h : Misbuilds s (child.setOwnerKeys link keys) path faults) (others : List Value) :
    Misbuilds s (child.setOwnerKeys link others) path faults :=
  h.twins ((Twins.refl s child).setOwnerKeys linked linked keys others) rfl rfl

/-! ## Coming to a child -/

mutual

theorem Traces.replied {compiled : Compiled} {q : Query} {exchanges : List Exchange}
    {ending : Option Failure} : Traces s compiled q exchanges ending →
      (∀ f, ending ≠ some (.database f)) → ∀ e ∈ exchanges, ∃ rows, e.reply = .ok rows
  | .failed f, undisturbed => absurd rfl (undisturbed f)
  | .answered _ mounts, undisturbed => by
      rw [List.forall_mem_cons]
      exact ⟨⟨_, rfl⟩, mounts.replied undisturbed⟩

theorem TracesAll.replied {q : Query} {rows : List Row} {mounts : List MountPlan}
    {exchanges : List Exchange} {ending : Option Failure} :
    TracesAll s q rows mounts exchanges ending → (∀ f, ending ≠ some (.database f)) →
      ∀ e ∈ exchanges, ∃ rows, e.reply = .ok rows
  | .done, _ => by simp
  | .ownerless _ others, undisturbed => others.replied undisturbed
  | .unbuilt _ _, _ => by simp
  | .stopped _ _ _ trace, undisturbed => by
      rw [List.forall_mem_map]
      exact trace.replied undisturbed
  | .went _ _ _ trace others, undisturbed => by
      rw [List.forall_mem_append, List.forall_mem_map]
      exact ⟨trace.replied (by simp), others.replied undisturbed⟩

end

mutual

theorem Traces.misbuilds {q next : Query} {compiled : Compiled} {exchanges : List Exchange}
    {ending : Option Failure} {faults : List Fault} : Traces s compiled next exchanges ending →
      ending = some (.build faults) → q.build s = (.ok compiled, next) →
      ∃ owner mount, Misbuilds s q (owner ++ [mount]) faults ∧
        (∃ e ∈ exchanges, e.path = owner) ∧ ∀ e ∈ exchanges, ¬ owner ++ [mount] <+: e.path
  | .failed f, ends, _ => by cases ends
  | .answered apart mounts, ends, built => by
      obtain ⟨owner, mount, misbuilds, asked, unsent, -⟩ :=
        mounts.misbuilds ends built apart fun _ => id
      refine ⟨owner, mount, misbuilds, ?_, ?_⟩
      · rcases asked with rfl | ⟨e, he, path⟩
        · exact ⟨_, List.mem_cons_self .., rfl⟩
        · exact ⟨e, List.mem_cons_of_mem _ he, path⟩
      · rw [List.forall_mem_cons]
        exact ⟨by simp, unsent⟩

theorem TracesAll.misbuilds {q next : Query} {compiled : Compiled} {rows : List Row}
    {mounts : List MountPlan} {exchanges : List Exchange} {ending : Option Failure}
    {faults : List Fault} : TracesAll s next rows mounts exchanges ending →
      ending = some (.build faults) → q.build s = (.ok compiled, next) →
      (mounts.map (·.mount)).Nodup → mounts ⊆ compiled.plan.mounts →
      ∃ owner mount, Misbuilds s q (owner ++ [mount]) faults ∧
        (owner = [] ∨ ∃ e ∈ exchanges, e.path = owner) ∧
        (∀ e ∈ exchanges, ¬ owner ++ [mount] <+: e.path) ∧
        ∃ m ∈ mounts, ∃ rest, owner ++ [mount] = m.mount :: rest
  | .done, ends, _, _, _ => by cases ends
  | .ownerless _ others, ends, built, apart, planned => by
      obtain ⟨owner, mount, misbuilds, asked, unsent, m, hm, rest⟩ :=
        others.misbuilds ends built (List.nodup_cons.mp apart).2
          (List.subset_of_cons_subset planned)
      exact ⟨owner, mount, misbuilds, asked, unsent, m, List.mem_cons_of_mem _ hm, rest⟩
  | .unbuilt (m := m) due unbuilt, ends, built, _, planned => by
      cases ends
      exact ⟨[], m.mount, .further built (planned (List.mem_cons_self ..)) due.found due.linked
        (Misbuilds.of_keys due.linked (.here unbuilt)), .inl rfl, by simp, m,
        List.mem_cons_self .., [], rfl⟩
  | .stopped (m := m) due builtChild _ trace, ends, built, _, planned => by
      obtain ⟨owner, mount, misbuilds, ⟨e, he, path⟩, unsent⟩ := trace.misbuilds ends builtChild
      refine ⟨m.mount :: owner, mount, .further built (planned (List.mem_cons_self ..)) due.found
        due.linked (misbuilds.of_keys due.linked), .inr ⟨_, List.mem_map_of_mem he, ?_⟩, ?_, m,
        List.mem_cons_self .., _, rfl⟩
      · rw [Exchange.within, path]
      · rw [List.forall_mem_map]
        intro e he prefixed
        exact unsent e he ((List.cons_prefix_cons.mp prefixed).2)
  | .went (m := m) _ _ _ _ others, ends, built, apart, planned => by
      rw [List.map_cons, List.nodup_cons] at apart
      obtain ⟨owner, mount, misbuilds, asked, unsent, other, ho, rest, split⟩ :=
        others.misbuilds ends built apart.2 (List.subset_of_cons_subset planned)
      refine ⟨owner, mount, misbuilds, asked.imp_right ?_, ?_, other, List.mem_cons_of_mem _ ho,
        rest, split⟩
      · rintro ⟨e, he, path⟩
        exact ⟨e, List.mem_append_right _ he, path⟩
      · rw [List.forall_mem_append, List.forall_mem_map]
        refine ⟨fun e _ prefixed => ?_, unsent⟩
        -- what was sent before is for another mount
        rw [split, Exchange.within, List.cons_prefix_cons] at prefixed
        exact apart.1 (prefixed.1 ▸ List.mem_map_of_mem ho)

end

/-! ## Whole runs -/

theorem countOf_ne_build (rows : List Row) (faults : List Fault) :
    countOf rows ≠ .error (.build faults) := by
  unfold countOf
  split <;> simp

theorem count_ne_build (d : Database) (c : Connection) (statement : Sql.Statement)
    (faults : List Fault) : (d.count c statement).1 ≠ .error (.build faults) := by
  unfold Database.count
  split
  · simp
  · exact countOf_ne_build _ faults

theorem result_stream_ne_build (c : Connection) (compiled : Compiled) (q : Query) (d : Database)
    (faults : List Fault) : (q.stream c compiled d).result ≠ .error (.build faults) := by
  unfold stream
  dsimp only
  split
  · simp
  · split
    · simp
    · next statement _ =>
      have counted := count_ne_build (d.stream c compiled.statement).2.2 c statement faults
      split
      · next f after failed =>
        rw [failed] at counted
        simpa using counted
      · simp

/-- How a run comes to report faults: the query does not build, and nothing is sent; or a query
below does not build, and the run has come to it. Then all replies before were rows, those for its
owner among them, and nothing is sent for it or for a query below it. -/
inductive Reports (s : Settings) (c : Connection) (q : Query) (d : Database) (run : Run)
    (faults : List Fault) : Prop where
  | root (unbuilt : (q.build s).1 = .error faults) (unsent : run.database = d)
  | child {owner : List Mount} {mount : Mount} {exchanges : List Exchange}
      (misbuilds : Misbuilds s q (owner ++ [mount]) faults)
      (replies : d.Replies c exchanges run.database)
      (rows : ∀ e ∈ exchanges, ∃ rows, e.reply = .ok rows)
      (asked : ∃ e ∈ exchanges, e.path = owner)
      (unsent : ∀ e ∈ exchanges, ¬ owner ++ [mount] <+: e.path) : Reports s c q d run faults

theorem Sound.collect_reports {q next : Query} {compiled : Compiled}
    (built : q.build s = (.ok compiled, next)) (sound : Sound s next) (orderly : next.Orderly)
    (compiles : next.Compiles s compiled) {c : Connection} {d : Database} (proper : d.Proper)
    {faults : List Fault} (h : (next.collect s c compiled d).result = .error (.build faults)) :
    Reports s c q d (next.collect s c compiled d) faults := by
  obtain ⟨exchanges, trace, replies⟩ :=
    fetchWithin_sends s c d.replies.length sound orderly compiles proper (Nat.le_refl _)
  have ends := collect_ends s c compiled next d
  change Traces s compiled next exchanges (failure? (fetch s c compiled next d).result) at trace
  generalize failure? (fetch s c compiled next d).result = ending at trace ends
  cases ends with
  | failed result database =>
      rw [h] at result
      cases result
      obtain ⟨owner, mount, misbuilds, asked, unsent⟩ := trace.misbuilds rfl built
      exact .child misbuilds (by rw [database]; exact replies) (trace.replied (by simp)) asked
        unsent
  | uncounted _ result =>
      rw [h] at result
      cases result
  | @counted _ items _ rows _ _ _ result =>
      rw [h] at result
      have counted := countOf_ne_build rows faults
      cases hr : countOf rows with
      | ok total =>
          rw [hr] at result
          cases result
      | error f =>
          rw [hr] at result counted
          cases result
          exact absurd rfl counted
  | uncountable _ _ result =>
      rw [h] at result
      cases result

theorem Reached.exec_reports {q : Query} (reached : q.Reached s) (root : q.link = none)
    {c : Connection} {d : Database} (proper : d.Proper) {faults : List Fault}
    (h : (q.exec s c d).result = .error (.build faults)) :
    Reports s c q d (q.exec s c d) faults := by
  have moves : Moves s.schema q _ := .build (s := s) q
  cases hb : q.build s with
  | mk result next =>
      cases result with
      | error found =>
          have unbuilt : (q.build s).1 = .error found := by rw [hb]
          obtain ⟨result, -, database⟩ := exec_of_build_error (c := c) root unbuilt d
          rw [h] at result
          cases result
          exact .root unbuilt database
      | ok compiled =>
          rw [hb] at moves
          obtain ⟨sound, -, compiles⟩ := reached.build hb
          have orderly := moves.keeps (fun step h => (Orderly.move step h).1) reached.orderly
          unfold exec at h ⊢
          rw [root, hb] at h ⊢
          simp only [Option.isSome_none, Bool.false_eq_true, if_false] at h ⊢
          split at h
          · split at h
            · exact absurd h (result_stream_ne_build c compiled next d faults)
            · cases h
          · next silent =>
            rw [if_neg silent]
            exact sound.collect_reports hb orderly compiles proper h

/-! ## Rows that lead to a child -/

theorem query_rows {d : Database} {rows : List Row} {rest : List Reply}
    (h : d.replies = .rows rows :: rest) (statement : Sql.Statement) :
    ∃ next, d.query {} statement = (.ok rows, next) ∧ next.replies = rest := by
  have record : (d.record {} .query statement).replies = .rows rows :: rest := h
  refine ⟨{ d.record {} .query statement with replies := rest }, ?_, rfl⟩
  rw [Database.query, Database.reply, if_neg Bool.false_ne_true, record]

theorem fetchMounts_no_rows (fetch : Fetch) (mounts : List MountPlan) (groups : Groups) (q : Query)
    (d : Database) : fetchMounts s fetch [] mounts groups q d = ⟨.ok groups, q, d⟩ := by
  induction mounts with
  | nil => rfl
  | cons m rest ih =>
      unfold fetchMounts
      split
      · next child key keys _ none => cases none
      · exact ih

theorem fetchWithin_no_rows (depth : Nat) (compiled : Compiled) (q : Query) {d : Database}
    {rest : List Reply} (h : d.replies = .rows [] :: rest) :
    (fetchWithin s {} depth compiled q d).result = .ok ([], []) ∧
      (fetchWithin s {} depth compiled q d).database.replies = rest := by
  obtain ⟨next, hq, left⟩ := query_rows h compiled.statement
  unfold fetchWithin
  rw [hq]
  cases depth with
  | zero => exact ⟨rfl, left⟩
  | succ depth =>
      dsimp only
      rw [fetchMounts_no_rows]
      exact ⟨rfl, left⟩

/-- Replies after which a fetch, if it is given a depth, reports faults. -/
structure Uncovers (s : Settings) (least : Nat) (replies : List Reply) (compiled : Compiled)
    (q : Query) : Prop where
  enough : least ≤ replies.length
  proper : ({ replies } : Database).Proper
  reports : ∀ depth d, least ≤ depth → d.replies = replies →
    ∃ faults, (fetchWithin s {} depth compiled q d).result = .error (.build faults)

structure UncoversAll (s : Settings) (owner : Query) (rows : List Row) (least : Nat)
    (replies : List Reply) (mounts : List MountPlan) : Prop where
  enough : least ≤ replies.length
  proper : ({ replies } : Database).Proper
  reports : ∀ depth d groups q, least ≤ depth → d.replies = replies →
    (∀ m ∈ mounts, q.children.lookup m.mount = owner.children.lookup m.mount) →
      ∃ faults, (fetchMounts s (fetchWithin s {} depth) rows mounts groups q d).result =
        .error (.build faults)

theorem proper_cons {rows : List Row} (proper : ∀ row ∈ rows, row.Proper) {replies : List Reply}
    (h : ({ replies } : Database).Proper) :
    ({ replies := .rows rows :: replies } : Database).Proper := by
  intro found hf
  rcases List.mem_cons.mp hf with here | there
  · cases here
    exact proper
  · exact h found there

section children

variable {owner child : Query} {m : MountPlan} {link : Link} {key : Value} {rows : List Row}
  {least : Nat}

theorem uncoversAll_here (found : owner.children.lookup m.mount = some child)
    (linked : child.link = some link) (keys : ownerKeys m.keyLabel rows = [key])
    (below : ∀ compiled next, (child.setOwnerKeys link [key]).build s = (.ok compiled, next) →
      ∃ replies, Uncovers s least replies compiled next) (back : List MountPlan) :
    ∃ replies, UncoversAll s owner rows least replies (m :: back) := by
  cases hb : (child.setOwnerKeys link [key]).build s with
  | mk result next =>
      cases result with
      | error faults =>
          refine ⟨List.replicate least (.rows []), by simp, ?_, ?_⟩
          · intro rows hr
            cases List.eq_of_mem_replicate hr
            simp
          · intro depth d groups q _ _ same
            have held := (same m (List.mem_cons_self ..)).trans found
            simp only [fetchMounts, held, keys, linked, fetchChild, hb]
            exact ⟨faults, rfl⟩
      | ok compiled =>
          obtain ⟨replies, enough, proper, reports⟩ := below compiled next hb
          refine ⟨replies, enough, proper, fun depth d groups q deep queued same => ?_⟩
          have held := (same m (List.mem_cons_self ..)).trans found
          obtain ⟨faults, result⟩ := reports depth d deep queued
          simp only [fetchMounts, held, keys, linked, fetchChild, hb, result]
          exact ⟨faults, rfl⟩

theorem uncoversAll_append {front back : List MountPlan} {last : List Reply}
    (apart : ((front ++ back).map (·.mount)).Nodup)
    (linked : ∀ m ∈ front, ∃ child link, owner.children.lookup m.mount = some child ∧
      child.link = some link) (h : UncoversAll s owner rows least last back) :
    ∃ replies, UncoversAll s owner rows least replies (front ++ back) := by
  induction front with
  | nil => exact ⟨last, h⟩
  | cons m rest ih =>
      rw [List.cons_append, List.map_cons, List.nodup_cons] at apart
      rw [List.forall_mem_cons] at linked
      obtain ⟨child, link, found, hl⟩ := linked.1
      obtain ⟨replies, enough, proper, reports⟩ := ih apart.2 linked.2
      cases hk : ownerKeys m.keyLabel rows with
      | nil =>
          refine ⟨replies, enough, proper, fun depth d groups q deep queued same => ?_⟩
          rw [List.cons_append, List.forall_mem_cons] at same
          simp only [List.cons_append, fetchMounts, same.1, found, hk]
          exact reports depth d groups q deep queued same.2
      | cons key keys =>
          cases hb : (child.setOwnerKeys link (key :: keys)).build s with
          | mk result next =>
              cases result with
              | error faults =>
                  refine ⟨replies, enough, proper, fun depth d groups q deep queued same => ?_⟩
                  have held := (same m (List.mem_cons_self ..)).trans found
                  simp only [List.cons_append, fetchMounts, held, hk, hl, fetchChild, hb]
                  exact ⟨faults, rfl⟩
              | ok compiled =>
                  -- a child that is due and builds gets a reply without rows
                  refine ⟨.rows [] :: replies, enough.trans (Nat.le_succ _),
                    proper_cons (by simp) proper, fun depth d groups q deep queued same => ?_⟩
                  rw [List.cons_append, List.forall_mem_cons] at same
                  obtain ⟨result, left⟩ := fetchWithin_no_rows (s := s) depth compiled next queued
                  simp only [List.cons_append, fetchMounts, same.1, found, hk, hl, fetchChild, hb,
                    result]
                  exact reports depth _ _ _ deep left (lookup_ran apart.1 same.2 _)

end children

/-- If a query below does not build, there are rows after which a run says so, of this query or of
one that it comes to before. -/
theorem Misbuilds.uncovers {q : Query} {path : List Mount} {faults : List Fault}
    (h : Misbuilds s q path faults) (sound : Sound s q) (orderly : q.Orderly) {next : Query}
    {compiled : Compiled} (built : q.build s = (.ok compiled, next)) :
    ∃ replies, Uncovers s path.length replies compiled next := by
  induction h generalizing compiled next with
  | here unbuilt =>
      rw [built] at unbuilt
      cases unbuilt
  | @further q middle child other m link path faults hb planned found linked _ ih =>
      obtain ⟨same, rfl⟩ := Prod.mk.inj (built.symm.trans hb)
      obtain rfl := Except.ok.inj same
      obtain ⟨soundNext, -, compiles⟩ := sound.build
      rw [built] at soundNext compiles
      have compiles := compiles compiled rfl
      have tidy := orderly.build built
      -- a row with the key of the owner is enough for the child to be due
      let row : Row := [(m.keyLabel, .ofInt64 1)]
      have keys : ownerKeys m.keyLabel [row] = [.ofInt64 1] := by
        simp [ownerKeys, row]
        rfl
      have proper : ∀ cells ∈ [row], Row.Proper cells := by
        intro cells hc cell hm
        rw [List.mem_singleton.mp hc] at hm
        rw [List.mem_singleton.mp hm]
        exact .number _
      obtain ⟨front, back, split⟩ := List.append_of_mem planned
      have ties := tidy.linked_mounts soundNext compiles
      have apart := tidy.mounts.sublist compiles.mounts
      rw [split] at ties apart
      have before : ∀ m ∈ front, ∃ child link, next.children.lookup m.mount = some child ∧
          child.link = some link := by
        intro m hm
        obtain ⟨child, link, hc, hl, -⟩ := ties m (List.mem_append_left _ hm)
        exact ⟨child, link, hc, hl⟩
      obtain ⟨last, here⟩ : ∃ last, UncoversAll s next [row] path.length last (m :: back) := by
        refine uncoversAll_here found linked keys (fun compiled next hb => ?_) back
        have sound := soundNext.child (Keyed.mem_of_lookup found)
        exact ih _ (sound.setOwnerKeys linked _).1
          ((tidy.child found).setOwnerKeys _ _) hb
      obtain ⟨replies, enough, rest, reports⟩ := uncoversAll_append apart before here
      refine ⟨.rows [row] :: replies, Nat.succ_le_succ enough, proper_cons proper rest, ?_⟩
      intro depth d deep queued
      obtain ⟨after, hq, left⟩ := query_rows queued compiled.statement
      unfold fetchWithin
      rw [hq]
      cases depth with
      | zero => cases deep
      | succ depth =>
          obtain ⟨found, result⟩ := reports depth after [] next (Nat.le_of_succ_le_succ deep) left
            fun _ _ => rfl
          refine ⟨found, ?_⟩
          simp only [split, result]
          rfl

/-- A query that does not build is never run. A run that reports faults has met a query that does
not build, at the root or further down, and it depends on the rows only whether it comes there. -/
theorem Reached.exec_unbuilt {q : Query} (reached : q.Reached s) (root : q.link = none) :
    (∀ faults, (q.build s).1 = .error faults → ∀ c d,
      (q.exec s c d).result = .error (.build faults) ∧ (q.exec s c d).database = d) ∧
    (∀ c d faults, d.Proper → (q.exec s c d).result = .error (.build faults) →
      Reports s c q d (q.exec s c d) faults) ∧
    (q.listeners.any = false → ((∃ c d faults, d.Proper ∧
      (q.exec s c d).result = .error (.build faults)) ↔
        ∃ path faults, Misbuilds s q path faults)) := by
  refine ⟨fun faults unbuilt c d => ?_, fun c d faults proper h => ?_, fun silent => ⟨?_, ?_⟩⟩
  · obtain ⟨result, -, database⟩ := exec_of_build_error (c := c) root unbuilt d
    exact ⟨result, database⟩
  · exact reached.exec_reports root proper h
  · rintro ⟨c, d, faults, proper, h⟩
    cases reached.exec_reports root proper h with
    | root unbuilt => exact ⟨[], faults, .here unbuilt⟩
    | child misbuilds => exact ⟨_, faults, misbuilds⟩
  · rintro ⟨path, faults, misbuilds⟩
    cases hb : q.build s with
    | mk result next =>
        cases result with
        | error found =>
            obtain ⟨result, -⟩ := exec_of_build_error (c := {}) root (by rw [hb]) {}
            exact ⟨{}, {}, found, by simp [Database.Proper], result⟩
        | ok compiled =>
            obtain ⟨replies, enough, proper, reports⟩ :=
              misbuilds.uncovers reached.sound reached.orderly hb
            obtain ⟨found, result⟩ := reports replies.length { replies } enough rfl
            obtain ⟨-, frames, -⟩ := reached.build hb
            have fetched : (fetch s {} compiled next { replies }).result = .error (.build found) :=
              result
            refine ⟨{}, { replies }, found, proper, ?_⟩
            simp only [exec, root, hb, frames.listeners, silent, collect, fetched]
            rfl

theorem eq_error_of_failure? {α : Type} {result : Except Failure α} {f : Failure}
    (h : failure? result = some f) : result = .error f := by
  cases result with
  | ok _ => cases h
  | error g =>
      cases h
      rfl

end Query

namespace Sample

def slip : Query := (({} : Query).setSource schema "Customer").select "name, orders.nme"

theorem slip_reached : slip.Reached settings :=
  .call (.call .new (.setSource (s := settings) "Customer")) (.select _)

def arrival : Database :=
  { replies := [.rows [[("#0.name", .text "?"), ("#0.id", .ofInt64 7)]]] }

theorem arrival_proper : arrival.Proper := by
  intro rows hr row hm cell hc
  cases List.mem_singleton.mp hr
  rw [List.mem_singleton.mp hm] at hc
  rcases List.mem_cons.mp hc with rfl | hc
  · exact .text _
  · rw [List.mem_singleton.mp hc]
    exact .number _

theorem slip_fails : (slip.exec settings {} arrival).result =
    .error (.build [.unresolvedField "nme" "Order"]) :=
  Query.eq_error_of_failure? (by decide +kernel)

end Sample

/-- A fault of a child comes after the statement of its owner, and only if that has found rows. -/
theorem Query.Reached.exec_fails_late : Sample.slip.Reached Sample.settings ∧
    Sample.slip.link = none ∧
    (Sample.slip.exec Sample.settings {} Sample.arrival).result =
      .error (.build [.unresolvedField "nme" "Order"]) ∧
    (Sample.slip.exec Sample.settings {} Sample.arrival).database.calls.length = 1 ∧
    ∃ output, (Sample.slip.exec Sample.settings {} {}).result = .ok output :=
  ⟨Sample.slip_reached, rfl, Sample.slip_fails, by decide +kernel, _, rfl⟩

theorem Query.Reached.exec_unbuilt_slip :
    Reports Sample.settings {} Sample.slip Sample.arrival
        (Sample.slip.exec Sample.settings {} Sample.arrival) [.unresolvedField "nme" "Order"] ∧
      ∃ path faults, Misbuilds Sample.settings Sample.slip path faults := by
  obtain ⟨-, reports, some⟩ :=
    Reached.exec_unbuilt (s := Sample.settings) Sample.slip_reached rfl
  have fails := Sample.slip_fails
  exact ⟨reports _ _ _ Sample.arrival_proper fails,
    (some rfl).mp ⟨_, _, _, Sample.arrival_proper, fails⟩⟩

end RowGraph
