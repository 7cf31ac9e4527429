import RowGraph.Proofs.Reached

/-!
# What a run fetches

A run fetches a tree of rows: those of the query itself, and for each toMany property with owners
those of the child that was run for their keys (`Haul`, `Haul.Fetched`). A run that succeeds has
asked the database for exactly the statements of such a tree, one after another, and groups the
rows of the tree (`Query.fetch_hauls`); the length of the queue of replies is depth enough.
-/

namespace RowGraph

/-! ## Conversations -/

namespace Database

/-- A database answers some statements with some rows, one after another. -/
def Answers (c : Connection) : Database → List (Sql.Statement × List Row) → Database → Prop
  | d, [], after => after = d
  | d, (statement, rows) :: rest, after =>
      ∃ next, d.query c statement = (.ok rows, next) ∧ Answers c next rest after

variable {c : Connection} {d after : Database}

theorem Answers.append {front back : List (Sql.Statement × List Row)} {middle : Database}
    (h : d.Answers c front middle) (hb : middle.Answers c back after) :
    d.Answers c (front ++ back) after := by
  induction front generalizing d with
  | nil =>
      cases h
      exact hb
  | cons entry rest ih =>
      obtain ⟨next, hq, hr⟩ := h
      exact ⟨next, hq, ih hr⟩

theorem query_ok {statement : Sql.Statement} {rows : List Row} {next : Database}
    (h : d.query c statement = (.ok rows, next)) :
    (rows = [] ∧ next.replies = d.replies) ∨
      d.replies = .rows rows :: next.replies := by
  unfold query reply at h
  have record : (d.record c .query statement).replies = d.replies := rfl
  rw [record] at h
  by_cases hc : c.acquired
  · rw [if_pos hc] at h
    obtain ⟨hrows, rfl⟩ := Prod.mk.inj h
    exact .inl ⟨(Except.ok.inj hrows).symm, rfl⟩
  · rw [if_neg hc] at h
    cases hr : d.replies with
    | nil =>
        rw [hr] at h
        obtain ⟨hrows, rfl⟩ := Prod.mk.inj h
        exact .inl ⟨(Except.ok.inj hrows).symm, hr⟩
    | cons reply rest =>
        rw [hr] at h
        cases reply with
        | rows found =>
            obtain ⟨hrows, rfl⟩ := Prod.mk.inj h
            rw [Except.ok.inj hrows]
            exact .inr rfl
        | failure delivered f =>
            obtain ⟨hrows, -⟩ := Prod.mk.inj h
            cases hrows

theorem Answers.replies_le {conversation : List (Sql.Statement × List Row)}
    (h : d.Answers c conversation after) : after.replies.length ≤ d.replies.length := by
  induction conversation generalizing d with
  | nil =>
      cases h
      exact Nat.le_refl _
  | cons entry rest ih =>
      obtain ⟨next, hq, hr⟩ := h
      have := ih hr
      rcases query_ok hq with ⟨-, hsame⟩ | hcons
      · rwa [hsame] at this
      · rw [hcons, List.length_cons]
        omega

theorem Answers.mem_replies {conversation : List (Sql.Statement × List Row)}
    (h : d.Answers c conversation after) : ∀ entry ∈ conversation,
      entry.2 = [] ∨ .rows entry.2 ∈ d.replies := by
  induction conversation generalizing d with
  | nil => simp
  | cons entry rest ih =>
      obtain ⟨next, hq, hr⟩ := h
      rw [List.forall_mem_cons]
      rcases query_ok hq with ⟨hrows, hsame⟩ | hcons
      · refine ⟨.inl hrows, ?_⟩
        rw [← hsame]
        exact ih hr
      · rw [hcons]
        refine ⟨.inr (List.mem_cons_self ..), fun other ho => ?_⟩
        exact (ih hr other ho).imp_right (List.mem_cons_of_mem _)

end Database

/-! ## Hauls -/

/-- What a run fetched for a built query: its rows, and what it fetched for the children that
ran. -/
inductive Haul where
  | mk (query : Query) (compiled : Compiled) (rows : List Row) (children : List (Mount × Haul))

def Query.foreignKey (q : Query) : String := (q.link.map (·.foreignKey)).getD ""

namespace Haul

def query : Haul → Query
  | .mk query _ _ _ => query

def compiled : Haul → Compiled
  | .mk _ compiled _ _ => compiled

def rows : Haul → List Row
  | .mk _ _ rows _ => rows

def children : Haul → List (Mount × Haul)
  | .mk _ _ _ children => children

mutual

def group : Haul → Group
  | .mk query compiled rows children =>
      Query.grouped compiled.plan query.foreignKey rows (groupsOf children)

def groupsOf : List (Mount × Haul) → Groups
  | [] => []
  | (mount, haul) :: rest => (mount, haul.group) :: groupsOf rest

end

mutual

def conversation : Haul → List (Sql.Statement × List Row)
  | .mk _ compiled rows children => (compiled.statement, rows) :: conversations children

def conversations : List (Mount × Haul) → List (Sql.Statement × List Row)
  | [] => []
  | (_, haul) :: rest => haul.conversation ++ conversations rest

end

mutual

/-- A haul whose children are those with owners among the rows, each built for their keys. -/
inductive Fetched (s : Settings) : Haul → Prop where
  | intro {q : Query} {compiled : Compiled} {rows : List Row} {children : List (Mount × Haul)}
      (all : FetchedAll s q rows compiled.plan.mounts children) :
      Fetched s (.mk q compiled rows children)

inductive FetchedAll (s : Settings) :
    Query → List Row → List MountPlan → List (Mount × Haul) → Prop where
  | nil {q : Query} {rows : List Row} : FetchedAll s q rows [] []
  | ownerless {q : Query} {rows : List Row} {m : MountPlan} {rest : List MountPlan}
      {children : List (Mount × Haul)} (keys : ownerKeys m.keyLabel rows = [])
      (others : FetchedAll s q rows rest children) : FetchedAll s q rows (m :: rest) children
  | ran {q child : Query} {rows : List Row} {m : MountPlan} {rest : List MountPlan} {link : Link}
      {haul : Haul} {children : List (Mount × Haul)}
      (found : q.children.lookup m.mount = some child) (linked : child.link = some link)
      (keys : ownerKeys m.keyLabel rows ≠ [])
      (built : (child.setOwnerKeys link (ownerKeys m.keyLabel rows)).build s =
        (.ok haul.compiled, haul.query))
      (fetched : Fetched s haul) (others : FetchedAll s q rows rest children) :
      FetchedAll s q rows (m :: rest) ((m.mount, haul) :: children)

end

theorem FetchedAll.of_no_rows (s : Settings) (q : Query) (mounts : List MountPlan) :
    FetchedAll s q [] mounts [] := by
  induction mounts with
  | nil => exact .nil
  | cons m rest ih => exact .ownerless rfl ih

theorem Fetched.induction {s : Settings} {P : Haul → Prop}
    (step : ∀ h : Haul, FetchedAll s h.query h.rows h.compiled.plan.mounts h.children →
      (∀ entry ∈ h.children, P entry.2) → P h) {h : Haul} (fetched : h.Fetched s) : P h := by
  refine @Fetched.rec s (fun h _ => P h) (fun _ _ _ children _ => ∀ entry ∈ children, P entry.2)
    ?root ?nil ?ownerless ?ran h fetched
  case root => exact fun all below => step _ all below
  case nil => exact List.forall_mem_nil _
  case ownerless => exact fun _ _ below => below
  case ran => exact fun _ _ _ _ _ _ own below => List.forall_mem_cons.mpr ⟨own, below⟩

mutual

def through (change : Compiled → Compiled) : Haul → Haul
  | .mk query compiled rows children =>
      .mk query (change compiled) rows (throughAll change children)

def throughAll (change : Compiled → Compiled) : List (Mount × Haul) → List (Mount × Haul)
  | [] => []
  | (mount, haul) :: rest => (mount, haul.through change) :: throughAll change rest

end

theorem groupsOf_append (front back : List (Mount × Haul)) :
    groupsOf (front ++ back) = groupsOf front ++ groupsOf back := by
  induction front with
  | nil => rfl
  | cons entry rest ih => rw [List.cons_append, groupsOf, groupsOf, ih, List.cons_append]

theorem keys_groupsOf (children : List (Mount × Haul)) :
    (groupsOf children).map Prod.fst = children.map Prod.fst := by
  induction children with
  | nil => rfl
  | cons entry rest ih => rw [groupsOf, List.map_cons, ih, List.map_cons]

theorem put_groupsOf {mount : Mount} {held : List (Mount × Haul)} (haul : Haul)
    (new : mount ∉ held.map Prod.fst) : Keyed.put mount haul.group (groupsOf held) =
      groupsOf (held ++ [(mount, haul)]) := by
  rw [← keys_groupsOf] at new
  rw [Keyed.put_of_not_mem _ new, groupsOf_append]
  rfl

theorem throughAll_append (change : Compiled → Compiled) (front back : List (Mount × Haul)) :
    throughAll change (front ++ back) = throughAll change front ++ throughAll change back := by
  induction front with
  | nil => rfl
  | cons entry rest ih => rw [List.cons_append, throughAll, throughAll, ih, List.cons_append]

theorem keys_throughAll (change : Compiled → Compiled) (children : List (Mount × Haul)) :
    (throughAll change children).map Prod.fst = children.map Prod.fst := by
  induction children with
  | nil => rfl
  | cons entry rest ih => rw [throughAll, List.map_cons, ih, List.map_cons]

end Haul

/-! ## Runs -/

theorem Scope.mount_of_mountPlan? {scope : Scope} {mount : Mount} {m : MountPlan}
    (h : scope.mountPlan? mount = some m) : m.mount = mount := by
  obtain ⟨owner, -, h⟩ := Option.bind_eq_some_iff.mp h
  obtain ⟨entry, -, h⟩ := Option.bind_eq_some_iff.mp h
  cases h
  rfl

namespace Query

variable {s : Settings} {c : Connection} {depth : Nat} {fetch : Fetch}

theorem lookup_ran {owner q : Query} {m : MountPlan} {rest : List MountPlan}
    (apart : m.mount ∉ rest.map (·.mount))
    (same : ∀ other ∈ rest, q.children.lookup other.mount = owner.children.lookup other.mount)
    (ran : Query) : ∀ other ∈ rest, (q.modifyChild m.mount fun _ => ran).children.lookup other.mount =
      owner.children.lookup other.mount := by
  intro other ho
  rw [modifyChild, Keyed.lookup_modify, if_neg]
  · exact same other ho
  · exact fun twice => apart (twice ▸ List.mem_map_of_mem ho)

def recompiled (change : Compiled → Compiled) (q : Query) : Query :=
  { q with compiled := q.compiled.map change }

/-! ## Runs in two sessions -/

structure Lockstep (s t : Settings) (change : Compiled → Compiled) : Prop where
  statement : ∀ compiled : Compiled, (change compiled).statement = compiled.statement
  mounts : ∀ compiled : Compiled, (change compiled).plan.mounts = compiled.plan.mounts
  built : ∀ {q next : Query} {compiled : Compiled}, q.build s = (.ok compiled, next) →
    (q.recompiled change).build t = (.ok (change compiled), next.recompiled change)
  unbuilt : ∀ {q : Query} {faults : List Fault}, (q.build s).1 = .error faults →
    ((q.recompiled change).build t).1 = .error faults

theorem recompiled_id (q : Query) : q.recompiled id = q := by
  cases q
  simp [recompiled]

theorem lockstep_refl (s : Settings) : Lockstep s s id where
  statement _ := rfl
  mounts _ := rfl
  built h := by rwa [recompiled_id, recompiled_id]
  unbuilt h := by rwa [recompiled_id]

/-- What fetching needs of queries: their children stand under mounts of their own, are linked, and
need no more when they are built for some owners. -/
structure Fetchable (s : Settings) (P : Query → Prop) : Prop where
  apart : ∀ {q : Query}, P q → (q.children.map Prod.fst).Nodup
  linked : ∀ {q child : Query} {mount : Mount}, P q → q.children.lookup mount = some child →
    child.link.isSome
  built : ∀ {q child next : Query} {mount : Mount} {link : Link} {keys : List Value}
    {compiled : Compiled}, P q → q.children.lookup mount = some child → child.link = some link →
    (child.setOwnerKeys link keys).build s = (.ok compiled, next) → P next

structure Alongside {α : Type} (first second : Ran α) (gives : α → α → Prop) : Prop where
  database : second.database = first.database
  result : (∃ f, first.result = .error f ∧ second.result = .error f) ∨
    ∃ a b, first.result = .ok a ∧ second.result = .ok b ∧ gives a b

/-- A fetch in each of two sessions, as long as the replies do not outnumber a depth: both fetch the
same haul, which each of them maps by the compiled forms of its own session. -/
def Fetch.Abreast (s : Settings) (change : Compiled → Compiled) (P : Query → Prop)
    (c : Connection) (depth : Nat) (first second : Fetch) : Prop :=
  ∀ {compiled : Compiled} {q : Query} {d : Database}, P q → q.Compiles s compiled →
    d.replies.length ≤ depth →
    Alongside (first compiled q d) (second (change compiled) (q.recompiled change) d) fun a b =>
      ∃ rows children, a = (rows, Haul.groupsOf children) ∧
        b = (rows, Haul.groupsOf (Haul.throughAll change children)) ∧
        Haul.Fetched s (.mk q compiled rows children) ∧
        d.Answers c (Haul.mk q compiled rows children).conversation (first compiled q d).database

section lockstep

variable {t : Settings} {change : Compiled → Compiled} {P : Query → Prop} {other : Fetch}

theorem compiles_of_fresh {q next : Query} {compiled : Compiled} (fresh : q.compiled = none)
    (h : q.build s = (.ok compiled, next)) : q.Frames next ∧ next.Compiles s compiled := by
  cases hc : q.compile s with
  | error faults =>
      rw [build_of_error fresh hc] at h
      cases h
  | ok built =>
      obtain ⟨found, middle⟩ := built
      rw [build_of_compile fresh hc] at h
      cases h
      obtain ⟨⟨clauses, params, link, listeners, mounts⟩, compiles⟩ := compile_ok hc
      exact ⟨⟨clauses, params, link, listeners, mounts⟩, compiles.congr rfl rfl rfl rfl⟩

theorem fetchChild_abreast (lockstep : Lockstep s t change)
    (hf : Fetch.Abreast s change P c depth fetch other) {link : Link} (keys : List Value)
    {child : Query} (ready : ∀ {compiled : Compiled} {next : Query},
      (child.setOwnerKeys link keys).build s = (.ok compiled, next) → P next)
    {d : Database} (bound : d.replies.length ≤ depth) :
    Alongside (fetchChild s fetch link keys child d) (fetchChild t other link keys child d)
      fun a b => ∃ haul : Haul,
        (child.setOwnerKeys link keys).build s = (.ok haul.compiled, haul.query) ∧
        a = haul.group ∧ b = (haul.through change).group ∧ haul.Fetched s ∧
        d.Answers c haul.conversation (fetchChild s fetch link keys child d).database := by
  have fresh : (child.setOwnerKeys link keys).recompiled change = child.setOwnerKeys link keys := rfl
  cases hb : (child.setOwnerKeys link keys).build s with
  | mk result next =>
      cases result with
      | error faults =>
          have unbuilt := lockstep.unbuilt (congrArg Prod.fst hb)
          rw [fresh] at unbuilt
          cases ho : (child.setOwnerKeys link keys).build t with
          | mk result kept =>
              rw [ho] at unbuilt
              cases unbuilt
              simp only [fetchChild, hb, ho]
              exact ⟨rfl, .inl ⟨_, rfl, rfl⟩⟩
      | ok compiled =>
          have ho := lockstep.built hb
          rw [fresh] at ho
          obtain ⟨frames, compiles⟩ := compiles_of_fresh rfl hb
          have foreignKey : next.foreignKey = link.foreignKey := by
            rw [Query.foreignKey, frames.link]
            rfl
          obtain ⟨database, result⟩ := hf (ready hb) compiles bound
          simp only [fetchChild, hb, ho]
          refine ⟨database, ?_⟩
          rcases result with ⟨f, first, second⟩ | ⟨_, _, first, second, rows, children, rfl, rfl,
            fetched, answers⟩
          · exact .inl ⟨f, by rw [first]; rfl, by rw [second]; rfl⟩
          · refine .inr ⟨_, _, by rw [first]; rfl, by rw [second]; rfl,
              .mk next compiled rows children, rfl, ?_, ?_, fetched, answers⟩
            · rw [Haul.group, foreignKey]
            · rw [Haul.through, Haul.group, foreignKey]

theorem fetchMounts_abreast (lockstep : Lockstep s t change) (fetchable : Fetchable s P)
    (hf : Fetch.Abreast s change P c depth fetch other) {owner : Query} (ho : P owner)
    {rows : List Row} {mounts : List MountPlan} (apart : (mounts.map (·.mount)).Nodup)
    (known : ∀ m ∈ mounts, (owner.children.lookup m.mount).isSome) {q r : Query}
    (same : ∀ m ∈ mounts, q.children.lookup m.mount = owner.children.lookup m.mount)
    (alike : ∀ m ∈ mounts, r.children.lookup m.mount = owner.children.lookup m.mount)
    (held : List (Mount × Haul)) (new : ∀ m ∈ mounts, m.mount ∉ held.map Prod.fst) {d : Database}
    (bound : rows = [] ∨ d.replies.length ≤ depth) :
    Alongside (fetchMounts s fetch rows mounts (Haul.groupsOf held) q d)
      (fetchMounts t other rows mounts (Haul.groupsOf (Haul.throughAll change held)) r d)
      fun a b => ∃ children, a = Haul.groupsOf (held ++ children) ∧
        b = Haul.groupsOf (Haul.throughAll change (held ++ children)) ∧
        Haul.FetchedAll s owner rows mounts children ∧
        d.Answers c (Haul.conversations children)
          (fetchMounts s fetch rows mounts (Haul.groupsOf held) q d).database := by
  -- the hauls held so far have other mounts, so that what is fetched is added behind them
  induction mounts generalizing q r held d with
  | nil => exact ⟨rfl, .inr ⟨_, _, rfl, rfl, [], by simp, by simp, .nil, rfl⟩⟩
  | cons m rest ih =>
      rw [List.map_cons, List.nodup_cons] at apart
      rw [List.forall_mem_cons] at known same alike new
      obtain ⟨child, found⟩ := Option.isSome_iff_exists.mp known.1
      obtain ⟨link, linked⟩ := Option.isSome_iff_exists.mp (fetchable.linked ho found)
      cases hkeys : ownerKeys m.keyLabel rows with
      | nil =>
          simp only [fetchMounts, same.1, alike.1, found, hkeys]
          obtain ⟨database, result⟩ := ih apart.2 known.2 same.2 alike.2 held new.2 bound
          refine ⟨database, result.imp_right ?_⟩
          rintro ⟨a, b, first, second, children, ha, hb, all, answers⟩
          exact ⟨a, b, first, second, children, ha, hb, .ownerless hkeys all, answers⟩
      | cons key keys =>
          have bound : d.replies.length ≤ depth := by
            apply bound.resolve_left
            intro hrows
            rw [hrows] at hkeys
            cases hkeys
          simp only [fetchMounts, same.1, alike.1, found, hkeys, linked]
          obtain ⟨database, ran⟩ := fetchChild_abreast lockstep hf (key :: keys)
            (fun built => fetchable.built ho found linked built) bound
          rcases ran with ⟨f, first, second⟩ | ⟨_, _, first, second, haul, built, rfl, rfl, fetched,
            answers⟩
          · simp only [first, second]
            exact ⟨database, .inl ⟨f, rfl, rfl⟩⟩
          · have appended := Haul.put_groupsOf haul new.1
            have changed : Keyed.put m.mount (haul.through change).group
                (Haul.groupsOf (Haul.throughAll change held)) =
                Haul.groupsOf (Haul.throughAll change (held ++ [(m.mount, haul)])) := by
              rw [Haul.put_groupsOf, Haul.throughAll_append]
              · rfl
              · rw [Haul.keys_throughAll]
                exact new.1
            have further : ∀ other ∈ rest,
                other.mount ∉ (held ++ [(m.mount, haul)]).map Prod.fst := by
              intro other hm twice
              rw [List.map_append, List.mem_append] at twice
              rcases twice with old | last
              · exact new.2 other hm old
              · obtain same : other.mount = m.mount := by simpa using last
                exact apart.1 (same ▸ List.mem_map_of_mem hm)
            simp only [first, second, appended, changed, database]
            obtain ⟨after, result⟩ := ih apart.2 known.2 (lookup_ran apart.1 same.2 _)
              (lookup_ran apart.1 alike.2 _) _ further (.inr (answers.replies_le.trans bound))
            refine ⟨after, result.imp_right ?_⟩
            rintro ⟨a, b, ha, hb, children, hfirst, hsecond, all, later⟩
            rw [← hkeys] at built
            refine ⟨a, b, ha, hb, (m.mount, haul) :: children, ?_, ?_,
              .ran found linked (by simp [hkeys]) built fetched all, answers.append later⟩
            · rw [hfirst, List.append_assoc]
              rfl
            · rw [hsecond, List.append_assoc]
              rfl

theorem Compiles.mounts {q : Query} {compiled : Compiled} (h : q.Compiles s compiled) :
    (compiled.plan.mounts.map (·.mount)).Sublist (q.children.map Prod.fst) := by
  obtain ⟨base, r, -, -, rfl⟩ := h
  show (((q.children.map Prod.fst).filterMap (r.scopes base).whole.mountPlan?).map
    (·.mount)).Sublist (q.children.map Prod.fst)
  induction q.children.map Prod.fst with
  | nil => exact .slnil
  | cons mount rest ih =>
      cases hm : (r.scopes base).whole.mountPlan? mount with
      | none =>
          rw [List.filterMap_cons_none hm]
          exact ih.cons _
      | some m =>
          rw [List.filterMap_cons_some hm, List.map_cons, Scope.mount_of_mountPlan? hm]
          exact ih.cons_cons _

theorem fetchWithin_abreast (lockstep : Lockstep s t change) (fetchable : Fetchable s P)
    (c : Connection) (depth : Nat) :
    Fetch.Abreast s change P c depth (fetchWithin s c depth) (fetchWithin t c depth) := by
  -- every level with rows has used up a reply
  induction depth with
  | zero =>
      intro compiled q d hq compiles bound
      unfold fetchWithin
      rw [lockstep.statement]
      cases asked : d.query c compiled.statement with
      | mk reply next =>
          cases reply with
          | error f => exact ⟨rfl, .inl ⟨_, rfl, rfl⟩⟩
          | ok found =>
              -- without replies there are no rows, and no owners
              have empty : found = [] := by
                rcases Database.query_ok asked with ⟨hrows, -⟩ | hreplies
                · exact hrows
                · rw [hreplies] at bound
                  cases bound
              subst empty
              exact ⟨rfl, .inr ⟨_, _, rfl, rfl, [], [], rfl, rfl, .intro (.of_no_rows s q _), next,
                asked, rfl⟩⟩
  | succ depth ih =>
      intro compiled q d hq compiles bound
      unfold fetchWithin
      rw [lockstep.statement, lockstep.mounts]
      cases asked : d.query c compiled.statement with
      | mk reply next =>
          cases reply with
          | error f => exact ⟨rfl, .inl ⟨_, rfl, rfl⟩⟩
          | ok found =>
              have fewer : found = [] ∨ next.replies.length ≤ depth := by
                rcases Database.query_ok asked with ⟨hrows, -⟩ | hreplies
                · exact .inl hrows
                · rw [hreplies, List.length_cons] at bound
                  exact .inr (Nat.le_of_succ_le_succ bound)
              have known : ∀ m ∈ compiled.plan.mounts, (q.children.lookup m.mount).isSome := by
                intro m hm
                rw [Keyed.lookup_isSome_iff_mem]
                exact compiles.mounts.subset (List.mem_map_of_mem hm)
              obtain ⟨database, result⟩ := fetchMounts_abreast lockstep fetchable ih hq
                ((fetchable.apart hq).sublist compiles.mounts) known (q := q)
                (r := q.recompiled change) (fun _ _ => rfl) (fun _ _ => rfl) [] (by simp) fewer
              simp only [Haul.groupsOf, Haul.throughAll, List.nil_append] at database result
              refine ⟨database, ?_⟩
              rcases result with ⟨f, first, second⟩ | ⟨_, _, first, second, children, rfl, rfl, all,
                answers⟩
              · exact .inl ⟨f, by simp only [first]; rfl, by simp only [second]; rfl⟩
              · exact .inr ⟨_, _, by simp only [first]; rfl, by simp only [second]; rfl, found,
                  children, rfl, rfl, .intro all, next, asked, answers⟩

theorem fetch_of_fetchable (fetchable : Fetchable s P) {compiled : Compiled} {q : Query}
    {d : Database} {rows : List Row} {groups : Groups} (hq : P q) (compiles : q.Compiles s compiled)
    (h : (Query.fetch s c compiled q d).result = .ok (rows, groups)) :
    ∃ children, groups = Haul.groupsOf children ∧
      Haul.Fetched s (.mk q compiled rows children) ∧
      d.Answers c (Haul.mk q compiled rows children).conversation
        (Query.fetch s c compiled q d).database := by
  obtain ⟨-, result⟩ := fetchWithin_abreast (lockstep_refl s) fetchable c d.replies.length hq
    compiles (Nat.le_refl _)
  rcases result with ⟨f, first, -⟩ | ⟨_, _, first, -, found, children, rfl, -, fetched, answers⟩
  · cases h.symm.trans first
  · obtain ⟨rfl, rfl⟩ := Prod.mk.inj (Except.ok.inj (h.symm.trans first))
    exact ⟨children, rfl, fetched, answers⟩

end lockstep

/-! ## Runs of sound queries -/

theorem Sound.fetchable (hs : s.schema.WellFormed) : Fetchable s (Sound s) where
  apart sound := (sound.tied hs.named).mounts
  linked sound found := by
    obtain ⟨_, _, _, -, -, serves⟩ := (sound.tied hs.named).children _ (Keyed.mem_of_lookup found)
    rw [← Option.isSome_map, serves.link]
    rfl
  built sound found linked built :=
    ((sound.child (Keyed.mem_of_lookup found)).buildFor linked built).1

theorem fetch_hauls (hs : s.schema.WellFormed) {compiled : Compiled} {q : Query} {d : Database}
    {rows : List Row} {groups : Groups} (sound : Sound s q) (compiles : q.Compiles s compiled)
    (h : (Query.fetch s c compiled q d).result = .ok (rows, groups)) :
    ∃ children, groups = Haul.groupsOf children ∧
      Haul.Fetched s (.mk q compiled rows children) ∧
      d.Answers c (Haul.mk q compiled rows children).conversation
        (Query.fetch s c compiled q d).database :=
  fetch_of_fetchable (Sound.fetchable hs) sound compiles h

theorem exec_ok {q : Query} {d : Database} {output : Output} (silent : q.listeners.any = false)
    (kept : (q.build s).2.listeners = q.listeners) (h : (q.exec s c d).result = .ok output) :
    ∃ compiled next rows groups, q.build s = (.ok compiled, next) ∧
      (Query.fetch s c compiled next d).result = .ok (rows, groups) ∧
      output.items? = some (compiled.plan.mapRows groups rows) := by
  unfold exec at h
  split at h
  · cases h
  · cases hb : q.build s with
    | mk result next =>
        rw [hb] at h kept
        cases result with
        | error faults => cases h
        | ok compiled =>
            dsimp only at h kept
            rw [kept, silent, if_neg Bool.false_ne_true] at h
            unfold collect at h
            dsimp only at h
            split at h
            · cases h
            · next rows groups hr =>
              refine ⟨compiled, next, rows, groups, rfl, hr, ?_⟩
              split at h
              · cases h
                rfl
              · generalize (Database.count _ c _).1 = total at h
                cases total with
                | error f => cases h
                | ok total =>
                    cases h
                    rfl

end Query
end RowGraph
