import RowGraph.Proofs.Levels
import RowGraph.Proofs.Shown

/-!
# A child by path and by field

A child can be opened by a toMany path and given a field, or by a field of its owner that goes on
through the property. If nothing else asks the owner for children, both ways lead to the same
statement, the same child and the same run (`Query.Alike`, `Query.Reached.toMany_select`).
-/

namespace RowGraph

/-! ## Runs of queries with the same children -/

namespace Query

variable {s : Settings}

theorem fetchMounts_congr (fetch : Fetch) (rows : List Row) (mounts : List MountPlan)
    (groups : Groups) {a b : Query} (h : a.children = b.children) (d : Database) :
    (fetchMounts s fetch rows mounts groups a d).result =
        (fetchMounts s fetch rows mounts groups b d).result ∧
      (fetchMounts s fetch rows mounts groups a d).database =
        (fetchMounts s fetch rows mounts groups b d).database := by
  induction mounts generalizing groups a b d with
  | nil => exact ⟨rfl, rfl⟩
  | cons m rest ih =>
      unfold fetchMounts
      rw [h]
      split
      · next child key keys _ _ =>
        split
        · exact ih groups h d
        · next link _ =>
          dsimp only
          split
          · exact ⟨rfl, rfl⟩
          · exact ih _ (by simp only [modifyChild, h]) _
      · exact ih groups h d

theorem fetchWithin_congr (c : Connection) (depth : Nat) (compiled : Compiled) {a b : Query}
    (h : a.children = b.children) (d : Database) :
    (fetchWithin s c depth compiled a d).result = (fetchWithin s c depth compiled b d).result ∧
      (fetchWithin s c depth compiled a d).database =
        (fetchWithin s c depth compiled b d).database := by
  unfold fetchWithin
  cases d.query c compiled.statement with
  | mk reply next =>
      cases reply with
      | error f => exact ⟨rfl, rfl⟩
      | ok rows =>
          cases depth with
          | zero => exact ⟨rfl, rfl⟩
          | succ depth =>
              obtain ⟨result, database⟩ :=
                fetchMounts_congr (s := s) (fetchWithin s c depth) rows compiled.plan.mounts [] h next
              exact ⟨by simp only [result], database⟩

/-- What a caller sees of two runs is the same. -/
def SameRuns (s : Settings) (a b : Query) : Prop :=
  ∀ (c : Connection) (d : Database), (a.exec s c d).result = (b.exec s c d).result ∧
    (a.exec s c d).events = (b.exec s c d).events ∧
    (a.exec s c d).database = (b.exec s c d).database

theorem sameRuns_of_fetch {a b nextA nextB : Query} {compiled : Compiled}
    (builtA : a.build s = (.ok compiled, nextA)) (builtB : b.build s = (.ok compiled, nextB))
    (link : a.link.isSome = b.link.isSome) (listeners : nextA.listeners = nextB.listeners)
    (childless : nextA.children.isEmpty = nextB.children.isEmpty)
    (fetched : ∀ c d, (fetch s c compiled nextA d).result = (fetch s c compiled nextB d).result ∧
      (fetch s c compiled nextA d).database = (fetch s c compiled nextB d).database) :
    SameRuns s a b := by
  intro c d
  unfold exec
  rw [link]
  split
  · exact ⟨rfl, rfl, rfl⟩
  · simp only [builtA, builtB, listeners, childless]
    split
    · split
      · unfold stream
        rw [listeners]
        dsimp only
        repeat' split
        all_goals exact ⟨rfl, rfl, rfl⟩
      · exact ⟨rfl, rfl, rfl⟩
    · obtain ⟨result, database⟩ := fetched c d
      unfold collect
      dsimp only
      rw [result, database]
      split
      · exact ⟨rfl, rfl, rfl⟩
      · split <;> exact ⟨rfl, rfl, rfl⟩

theorem sameRuns_of_build {a b nextA nextB : Query} {compiled : Compiled}
    (built : a.build s = (.ok compiled, nextA)) (other : b.build s = (.ok compiled, nextB))
    (link : a.link.isSome = b.link.isSome) (listeners : nextA.listeners = nextB.listeners)
    (children : nextA.children = nextB.children) : SameRuns s a b :=
  sameRuns_of_fetch built other link listeners (by rw [children]) fun c d =>
    fetchWithin_congr c d.replies.length compiled children d

end Query

/-! ## Fields in lists of different length -/

def Fault.withoutList : Fault → Fault
  | .emptyField _ => .emptyField ""
  | fault => fault

namespace Settings

variable {s : Settings} {base : Entity} {place : Place}

theorem item_congr (fields others : List String) (field : String) :
    (s.item base place fields field).mapError Fault.withoutList =
      (s.item base place others field).mapError Fault.withoutList := by
  unfold item
  split <;> rfl

theorem item_ok_congr {fields : List String} {field : String} {i : Item}
    (h : s.item base place fields field = .ok i) (others : List String) :
    s.item base place others field = .ok i := by
  have same : (s.item base place fields field).mapError Fault.withoutList =
      (s.item base place others field).mapError Fault.withoutList := s.item_congr fields others field
  rw [h] at same
  cases ho : s.item base place others field with
  | ok j =>
      rw [ho] at same
      exact congrArg _ (Except.ok.inj same).symm
  | error fault =>
      rw [ho] at same
      cases same

theorem all_item_congr {fields others : List String} {items : List Item}
    (h : Checked.all (fields.map fun field => .ofExcept (s.item base place others field)) =
      .ok items) (quoted : List String) :
    Checked.all (fields.map fun field => .ofExcept (s.item base place quoted field)) =
      .ok items := by
  rw [Checked.all_map_eq_ok_iff] at h ⊢
  refine h.imp fun field i hi => ?_
  rw [Checked.ofExcept_eq_ok_iff] at hi ⊢
  exact item_ok_congr hi quoted

/-- A field that is followed whatever list it stands in can be put behind a list: the others are
followed as before, or fail as before. -/
theorem items_concat {fields : List String} {field : String} {i : Item}
    (h : ∀ others, s.item base place others field = .ok i) :
    (∃ items, s.items base place fields = .ok items ∧
      s.items base place (fields ++ [field]) = .ok (items ++ [i])) ∨
    (∃ some other, s.items base place fields = .error some ∧
      s.items base place (fields ++ [field]) = .error other) := by
  cases hl : s.items base place (fields ++ [field]) with
  | ok all =>
      left
      have all_ok := hl
      rw [Settings.items, Checked.all_eq_ok_iff, List.map_append, List.append_eq_map_iff] at all_ok
      obtain ⟨front, back, rfl, hfront, hback⟩ := all_ok
      rw [List.map_singleton, h] at hback
      obtain rfl : back = [i] := by
        have one := hback
        cases back with
        | nil => cases one
        | cons j rest =>
            rw [List.map_cons, List.cons.injEq, List.map_eq_nil_iff] at one
            obtain ⟨hj, rfl⟩ := one
            rw [Except.ok.inj hj]
      exact ⟨front, all_item_congr ((Checked.all_eq_ok_iff ..).mpr hfront.symm) fields, rfl⟩
  | error other =>
      right
      cases hf : s.items base place fields with
      | error some => exact ⟨some, other, rfl, rfl⟩
      | ok items =>
          have held := all_item_congr hf (fields ++ [field])
          rw [Checked.all_eq_ok_iff] at held
          have all : s.items base place (fields ++ [field]) = .ok (items ++ [i]) := by
            rw [Settings.items, Checked.all_eq_ok_iff, List.map_append, List.map_append, held,
              List.map_singleton, h]
            rfl
          rw [hl] at all
          cases all

theorem faults_items_concat {fields : List String} {field : String} {i : Item}
    (h : ∀ others, s.item base place others field = .ok i) :
    (s.items base place (fields ++ [field])).faults.map Fault.withoutList =
      (s.items base place fields).faults.map Fault.withoutList := by
  have quoting : ∀ result : Except Fault Item,
      (Checked.ofExcept result).faults.map Fault.withoutList =
        (Checked.ofExcept (result.mapError Fault.withoutList)).faults := by
    intro result
    cases result <;> rfl
  have single : ∀ (others quoted : List String) (field : String),
      (Checked.ofExcept (s.item base place others field)).faults.map Fault.withoutList =
        (Checked.ofExcept (s.item base place quoted field)).faults.map Fault.withoutList := by
    intro others quoted field
    rw [quoting, quoting, s.item_congr others quoted]
  rw [Settings.items, Settings.items, Checked.faults_all, Checked.faults_all, List.map_append,
    List.flatMap_append, List.map_append, List.map_singleton, h, List.flatMap_map, List.flatMap_map]
  simp only [List.map_flatMap, single (fields ++ [field]) fields]
  exact List.append_nil _

end Settings

/-! ## A hop and a toMany path -/

namespace Resolution

variable {r : Resolution} {steps : List Step} {hop : Hop}

def withHop (r : Resolution) (steps : List Step) (hop : Hop) : Resolution :=
  { r with fields := r.fields ++ [⟨false, ⟨steps, .toMany hop⟩⟩], relations := [] }

theorem scopes_withHop (relations : r.relations = [steps])
    (owner : (steps.getLast?.map Step.path).getD .root = hop.mount.owner) (base : Entity) :
    (r.withHop steps hop).scopes base = r.scopes base := by
  have needs : (r.withHop steps hop).shownNeeds = r.shownNeeds := by
    simp [shownNeeds, withHop, relations, pathNeeds, owner, Item.needs, Item.hop?]
  rw [scopes, scopes, needs]
  rfl

theorem requested_withHop : (r.withHop steps hop).requested = r.requested := by
  have none : Item.references ⟨false, ⟨steps, .toMany hop⟩⟩ = [] := rfl
  simp [requested, withHop, selected, none]

theorem statement_withHop (s : Settings) (base : Entity) (scopes : Scopes) (c : Clauses)
    (link : Option Link) :
    (r.withHop steps hop).statement s base scopes c link = r.statement s base scopes c link := by
  simp only [statement, columns, injected, requested_withHop]
  rfl

theorem plan_withHop (s : Settings) (scopes : Scopes) (index : Option Index) (mounts : List Mount) :
    (r.withHop steps hop).plan s scopes index mounts = r.plan s scopes index mounts := by
  simp only [plan, injected, requested_withHop]
  rfl

end Resolution

namespace Clauses

theorem fields_of_selects {c : Clauses} (selects : c.selects ≠ []) (alone : c.selectsWith = []) :
    c.fields = c.selects.flatMap splitFields := by
  obtain ⟨first, rest, hs⟩ := List.exists_cons_of_ne_nil selects
  have nonempty : (c.selects.flatMap splitFields).isEmpty = false := by
    simp [hs, splitFields, Text.split, Text.pieces_ne_nil]
  rw [Clauses.fields, alone, List.flatMap_nil, List.append_nil]
  simp only [nonempty, Bool.false_and, Bool.false_eq_true, if_false]

end Clauses

theorem Checks.resolution_withHop {c : Checks} {steps : List Step} {hop : Hop}
    {more : Checked (List Item)}
    (fields : (∃ items, c.fields = .ok items ∧ more = .ok (items ++ [⟨false, ⟨steps, .toMany hop⟩⟩])) ∨
      ∃ faults others, c.fields = .error faults ∧ more = .error others) :
    (∃ r, { c with relations := .ok [steps] }.resolution = .ok r ∧ r.relations = [steps] ∧
        { c with fields := more, relations := .ok [] }.resolution = .ok (r.withHop steps hop)) ∨
      (∀ r, { c with relations := .ok [steps] }.resolution ≠ .ok r) ∧
        ∀ r, { c with fields := more, relations := .ok [] }.resolution ≠ .ok r := by
  simp only [ne_eq, resolution_eq_ok_iff, Checks.mk.injEq]
  rcases fields with ⟨items, hfields, rfl⟩ | ⟨faults, others, hfields, rfl⟩
  · by_cases h : ∃ r, { c with relations := .ok [steps] }.resolution = .ok r
    · obtain ⟨r, hr⟩ := h
      left
      simp only [resolution_eq_ok_iff, Checks.mk.injEq] at hr
      obtain ⟨forced, index, listed, relations, expressions, filter, group, having, order⟩ := hr
      have same : items = r.fields := Except.ok.inj (hfields.symm.trans listed)
      refine ⟨r, ⟨forced, index, listed, relations, expressions, filter, group, having, order⟩,
        (Except.ok.inj relations).symm, forced, index, ?_, rfl, expressions, filter, group, having,
        order⟩
      rw [same]
      rfl
    · right
      simp only [resolution_eq_ok_iff, Checks.mk.injEq, not_exists] at h
      refine ⟨h, fun r hr => ?_⟩
      obtain ⟨forced, index, -, -, expressions, filter, group, having, order⟩ := hr
      exact h { r with fields := items, relations := [steps] }
        ⟨forced, index, hfields, rfl, expressions, filter, group, having, order⟩
  · right
    rw [hfields]
    constructor <;> simp

namespace Settings

variable {s : Settings} {base : Entity} {c : Clauses} {list field : String} {path : Path}
  {steps : List Step} {hop : Hop}

theorem check_relations
    (walks : s.walkPath base .root (path.bridges.filter (!·.isEmpty)) = .ok steps)
    (bindings : List Binding) : s.check base { c with relations := [path] } bindings =
      { s.check base c bindings with relations := .ok [steps] } := by
  have fields : ({ c with relations := [path] } : Clauses).fields = c.fields := rfl
  have related : Checked.all (([path] : List Path).map fun path =>
      .ofExcept (s.walkPath base .root (path.bridges.filter (!·.isEmpty)))) = .ok [steps] := by
    rw [Checked.all_eq_ok_iff, List.map_singleton, walks]
    rfl
  rw [Settings.check, fields, related]
  rfl

theorem check_selects (relations : c.relations = []) (selects : c.selects ≠ [])
    (alone : c.selectsWith = []) (one : splitFields list = [field]) (bindings : List Binding) :
    s.check base { c with selects := c.selects ++ [list] } bindings =
      { s.check base c bindings with
        fields := s.items base .select (c.fields ++ [field])
        relations := .ok [] } := by
  have fields : ({ c with selects := c.selects ++ [list] } : Clauses).fields = c.fields ++ [field] := by
    have more := Clauses.fields_of_selects (c := { c with selects := c.selects ++ [list] })
      (List.append_ne_nil_of_left_ne_nil selects _) alone
    rw [more, Clauses.fields_of_selects selects alone, List.flatMap_append, List.flatMap_singleton,
      one]
  rw [Settings.check, fields]
  simp only [relations]
  rfl

theorem check_alike (relations : c.relations = []) (selects : c.selects ≠ [])
    (alone : c.selectsWith = []) (one : splitFields list = [field])
    (item : ∀ others, s.item base .select others field = .ok ⟨false, ⟨steps, .toMany hop⟩⟩)
    (walks : s.walkPath base .root (path.bridges.filter (!·.isEmpty)) = .ok steps)
    (bindings : List Binding) :
    ((∃ r, (s.check base { c with relations := [path] } bindings).resolution = .ok r ∧
        r.relations = [steps] ∧
        (s.check base { c with selects := c.selects ++ [list] } bindings).resolution =
          .ok (r.withHop steps hop)) ∨
      (∀ r, (s.check base { c with relations := [path] } bindings).resolution ≠ .ok r) ∧
      ∀ r, (s.check base { c with selects := c.selects ++ [list] } bindings).resolution ≠ .ok r) ∧
    (s.check base { c with selects := c.selects ++ [list] } bindings).faults.map Fault.withoutList =
      (s.check base { c with relations := [path] } bindings).faults.map Fault.withoutList := by
  rw [check_relations walks, check_selects relations selects alone one]
  refine ⟨Checks.resolution_withHop (items_concat item), ?_⟩
  have faults : (s.items base .select (c.fields ++ [field])).faults.map Fault.withoutList =
      (s.items base .select c.fields).faults.map Fault.withoutList := faults_items_concat item
  simp only [Checks.faults, List.map_append, faults]
  rfl

end Settings

def Clauses.Flat (s : Schema) (base : Entity) (c : Clauses) : Prop :=
  ∀ field ∈ c.listed, ∀ mount target foreignKey rest, s.Mounts base mount target foreignKey →
    rest ≠ [] → itemPath field ≠ mount.owner.bridges ++ mount.property :: rest

namespace Query

variable {s : Settings} {q : Query} {base : Entity}

/-- Two queries that build to the same compiled form, children and runs, or neither of which
builds, for the same faults. -/
inductive Alike (s : Settings) (a b : Query) : Prop where
  | built {compiled : Compiled} {nextA nextB : Query} (builds : a.build s = (.ok compiled, nextA))
      (other : b.build s = (.ok compiled, nextB)) (children : nextA.children = nextB.children)
      (runs : SameRuns s a b)
  | unbuilt {faultsA faultsB : List Fault} (fails : a.build s = (.error faultsA, a))
      (other : b.build s = (.error faultsB, b))
      (faults : faultsA.map Fault.withoutList = faultsB.map Fault.withoutList)

theorem alike_of_resolves {a b : Query} {baseA baseB : Entity} {r t : Resolution}
    (resolves : a.Resolves s baseA r) (other : b.Resolves s baseB t)
    (faultless : a.faults = [] ∧ b.faults = []) (fresh : a.compiled = none ∧ b.compiled = none)
    (link : a.link = b.link) (listeners : a.listeners = b.listeners)
    (children : (a.forward s.schema r).children = (b.forward s.schema t).children)
    (same : { a with children := (a.forward s.schema r).children }.assemble s baseA r =
      { b with children := (b.forward s.schema t).children }.assemble s baseB t) : Alike s a b := by
  have builds := build_of_compile fresh.1 (compile_of_resolves resolves faultless.1)
  have builds' := build_of_compile fresh.2 (compile_of_resolves other faultless.2)
  rw [same] at builds
  have kept : (a.forward s.schema r).listeners = (b.forward s.schema t).listeners := by
    rw [(frames_forward ..).listeners, (frames_forward ..).listeners, listeners]
  exact .built builds builds' children
    (sameRuns_of_build builds builds' (by rw [link]) kept children)

theorem alike_of_unresolved {a b : Query} (baseA : a.base? s.schema = some base)
    (baseB : b.base? s.schema = some base) (fresh : a.compiled = none ∧ b.compiled = none)
    (recorded : a.faults = b.faults)
    (faults : (s.check base a.clauses (a.bindings s)).faults.map Fault.withoutList =
      (s.check base b.clauses (b.bindings s)).faults.map Fault.withoutList)
    (fails : a.faults ≠ [] ∨
      (∀ r, (s.check base a.clauses (a.bindings s)).resolution ≠ .ok r) ∧
        ∀ r, (s.check base b.clauses (b.bindings s)).resolution ≠ .ok r) : Alike s a b := by
  have failsB := fails.imp (fun h => recorded ▸ h) And.right
  refine .unbuilt (build_of_error fresh.1 (compile_of_unresolved baseA (fails.imp_right And.left)))
    (build_of_error fresh.2 (compile_of_unresolved baseB failsB)) ?_
  rw [List.map_append, List.map_append, faults, recorded]

theorem Tied.childless (hs : s.schema.WellFormed) (tied : q.Tied s.schema)
    (hb : q.base? s.schema = some base) (relations : q.clauses.relations = [])
    (flat : q.clauses.Flat s.schema base) : q.children = [] := by
  rw [List.eq_nil_iff_forall_not_mem]
  rintro ⟨mount, child⟩ hm
  obtain ⟨target, foreignKey, mounts, -⟩ := tied.child hb hm
  have asked := tied.asked mount (List.mem_map_of_mem hm)
  rcases asked.cases_listed hs (mem_of_base? hb) (tied.hasColumn hb) with
    related | ⟨field, hf, included, rest, hne, hp⟩
  · rw [relations] at related
    cases related
  · rw [← itemPath_of_not included] at hp
    exact flat field hf mount target foreignKey rest mounts hne hp

theorem hop?_eq_none (hs : s.schema.WellFormed) (hb : base ∈ s.schema.entities) {c : Clauses}
    {bindings : List Binding} {r : Resolution} (h : s.Resolved base c bindings r)
    (selects : c.selects ≠ []) (alone : c.selectsWith = [])
    (columns : ∀ name ∈ c.forced, base.hasColumn name) (flat : c.Flat s.schema base) :
    ∀ i ∈ r.forced ++ r.fields, i.hop? = none := by
  intro i hi
  rcases List.mem_append.mp hi with hf | hf
  · obtain ⟨name, hn, follows⟩ := exists_of_forall₂ h.forced hf
    exact follows.hop?_of_hasColumn hs hb (columns name hn)
  · obtain ⟨field, hm, follows⟩ := exists_of_forall₂ h.fields hf
    rw [Option.eq_none_iff_forall_ne_some]
    intro hop hhop
    obtain ⟨mounts, rest, hne, hp⟩ := follows.mounts hs.named hb hhop
    rw [Clauses.fields_of_selects selects alone] at hm
    exact flat field (List.mem_append_left _ hm) hop.mount hop.target hop.foreignKey rest mounts hne hp

theorem hops_of_hop?_eq_none {r : Resolution} (none : ∀ i ∈ r.forced ++ r.fields, i.hop? = none)
    (excluded : Bool) : r.hops excluded = [] := by
  rw [Resolution.hops, List.filterMap_eq_nil_iff]
  intro i hi
  exact none i (List.mem_of_mem_filter hi)

theorem hops_withHop {r : Resolution} (none : ∀ i ∈ r.forced ++ r.fields, i.hop? = none)
    (steps : List Step) (hop : Hop) :
    (r.withHop steps hop).hops false = [hop] ∧ (r.withHop steps hop).hops true = [] := by
  have split : ∀ excluded, (r.withHop steps hop).hops excluded = r.hops excluded ++
      (([⟨false, ⟨steps, .toMany hop⟩⟩] : List Item).filter (·.excluded == excluded)).filterMap
        Item.hop? := by
    intro excluded
    rw [Resolution.hops, Resolution.hops, ← List.filterMap_append, ← List.filter_append,
      List.append_assoc]
    rfl
  constructor
  · rw [split, hops_of_hop?_eq_none none]
    rfl
  · rw [split, hops_of_hop?_eq_none none]
    rfl

theorem toMany_one (relations : q.clauses.relations = []) (childless : q.children = [])
    {path : String} {level : Level} (levels : q.levels s path = ([level], none)) :
    q.toMany s path = (.ok [level.mount],
      { q with
        clauses := { q.clauses with relations := [level.mount.owner] }
        children := [(level.mount, newChild s.schema level.target level.foreignKey)]
        compiled := none }) := by
  have related : q.addRelation level.mount.owner =
      q.edit fun c => { c with relations := [level.mount.owner] } := by
    simp [addRelation, edit, relations]
  simp [toMany, levels, openLevels, related, edit, openChild, modifyChild, childless, Keyed.putNew,
    Keyed.modify]

theorem levels_eq (hb : q.base? s.schema = some base) (path : String) :
    q.levels s path =
      s.levels path ((pathParts path).getLastD "") base .root (pathParts path) := by
  obtain ⟨source, hsource, hentity⟩ := Option.bind_eq_some_iff.mp hb
  simp only [levels, hsource, hentity]
  rfl

structure Hops (s : Settings) (base : Entity) (level : Level) (list column : String)
    (steps : List Step) : Prop where
  nonblank : Text.trim list ≠ ""
  one : ∃ field, splitFields list = [field] ∧ ∀ others, s.item base .select others field =
    .ok ⟨false, ⟨steps, .toMany { level with field := column }⟩⟩
  walks : s.walkPath base .root (level.mount.owner.bridges.filter (!·.isEmpty)) = .ok steps
  owner : (steps.getLast?.map Step.path).getD .root = level.mount.owner

theorem hops_of_descends (hs : s.schema.WellFormed) (he : base ∈ s.schema.entities) {path : String}
    {level : Level} {last : Entity}
    (descends : s.schema.Descends base .root (pathParts path) [level] last) {column : String}
    (hc : PlainName column) : ∃ steps, Hops s base level (path ++ "." ++ column) column steps := by
  have names := descends.plain hs he
  obtain ⟨steps, owner, chain, parts, isToMany, -⟩ := descends.of_one
  obtain ⟨nonblank, field, one, plain, hpath⟩ := selects_dotted names hc
  refine ⟨steps, nonblank, ⟨field, one, fun others => ?_⟩, ?_, chain.final_eq⟩
  · have star := (hs.plainName (Schema.entityAt?_mem he chain.entityAt?) isToMany).ne_star
    have named : fieldPath field ≠ [""] := by
      intro h
      have length := congrArg List.length (hpath.symm.trans h)
      simp [parts] at length
    rw [Settings.item_eq plain named, hpath, parts, List.append_assoc,
      chain.walk_eq hs he (by simp), List.singleton_append,
      Settings.walk_toMany star isToMany (by simp), String.intercalate_singleton]
    simp [Except.map]
  · have bridges : level.mount.owner.bridges = steps.map (·.bridge) := by
      simpa using chain.bridges_final hs.named he
    have nonempty : ∀ part ∈ steps.map (·.bridge), !part.isEmpty := by
      intro part hp
      have named := (names part (by rw [parts]; exact List.mem_append_left _ hp)).1
      simpa [String.isEmpty_iff] using named
    rw [bridges, List.filter_eq_self.mpr nonempty]
    exact chain.walkPath_eq

theorem alike_of_hops (hs : s.schema.WellFormed) (hb : q.base? s.schema = some base)
    (columns : ∀ name ∈ q.clauses.forced, base.hasColumn name) (childless : q.children = [])
    (relations : q.clauses.relations = []) (selects : q.clauses.selects ≠ [])
    (alone : q.clauses.selectsWith = []) (flat : q.clauses.Flat s.schema base) {level : Level}
    {list column : String} {steps : List Step} (hops : Hops s base level list column steps) :
    Alike s (q.select list)
      { q with
        clauses := { q.clauses with relations := [level.mount.owner] }
        children := [(level.mount, select column (newChild s.schema level.target level.foreignKey))]
        compiled := none } := by
  obtain ⟨nonblank, ⟨field, one, item⟩, walks, owner⟩ := hops
  let hop : Hop := { level with field := column }
  let child := newChild s.schema level.target level.foreignKey
  let a : Query :=
    { q with
      clauses := { q.clauses with selects := q.clauses.selects ++ [list] }
      compiled := none }
  let b : Query :=
    { q with
      clauses := { q.clauses with relations := [level.mount.owner] }
      children := [(level.mount, select column child)]
      compiled := none }
  have selected : q.select list = a := by
    rw [select, if_neg (by simpa [String.isEmpty_iff] using nonblank)]
    rfl
  have bindingsA : a.bindings s = q.bindings s := by rw [bindings_eq, bindings_eq]
  have bindingsB : b.bindings s = q.bindings s := by rw [bindings_eq, bindings_eq]
  rw [selected]
  show Alike s a b
  obtain ⟨resolved, faults⟩ :=
    s.check_alike relations selects alone one item walks (q.bindings s)
  have unresolved := alike_of_unresolved (a := a) (b := b) hb hb ⟨rfl, rfl⟩ rfl (by
    rw [bindingsA, bindingsB]
    exact faults)
  by_cases faultless : q.faults = []
  · rcases resolved with ⟨r, resolvedB, related, resolvedA⟩ | ⟨noneB, noneA⟩
    · have none := hop?_eq_none hs (mem_of_base? hb) (Settings.check_ok resolvedB)
        selects alone columns flat
      obtain ⟨plain, excluded⟩ := hops_withHop none steps hop
      have forwardA : (a.forward s.schema (r.withHop steps hop)).children =
          [(level.mount, select column child)] := by
        rw [forward, plain, excluded]
        refine (children_openChild_modifyChild childless ..).trans ?_
        simp [addField, newChild, setSource, edit, child, hop]
      have forwardB : b.forward s.schema r = b := by
        rw [forward, hops_of_hop?_eq_none none, hops_of_hop?_eq_none none]
        rfl
      refine alike_of_resolves ⟨hb, by rw [bindingsA]; exact resolvedA⟩
        ⟨hb, by rw [bindingsB]; exact resolvedB⟩ ⟨faultless, faultless⟩ ⟨rfl, rfl⟩ rfl rfl
        (by rw [forwardA, forwardB]) ?_
      rw [forwardA, forwardB, assemble, assemble, Resolution.scopes_withHop related owner,
        Resolution.statement_withHop, Resolution.plan_withHop]
      rfl
    · exact unresolved (.inr ⟨by rw [bindingsA]; exact noneA, by rw [bindingsB]; exact noneB⟩)
  · exact unresolved (.inl faultless)

theorem Tied.alike (hs : s.schema.WellFormed) (tied : q.Tied s.schema)
    (hb : q.base? s.schema = some base) (relations : q.clauses.relations = [])
    (selects : q.clauses.selects ≠ []) (alone : q.clauses.selectsWith = [])
    (flat : q.clauses.Flat s.schema base) {path : String} {level : Level} {last : Entity}
    (descends : s.schema.Descends base .root (pathParts path) [level] last) {column : String}
    (hc : last.hasColumn column) : ∃ opened, q.toMany s path = (.ok [level.mount], opened) ∧
      Alike s (q.select (path ++ "." ++ column))
        (opened.modifyChild level.mount (select column)) := by
  have he := mem_of_base? hb
  have childless := tied.childless hs hb relations flat
  have name := hs.plainName (descends.mem he) (Entity.hasColumn_iff.mp hc)
  obtain ⟨steps, hops⟩ := hops_of_descends hs he descends name
  have alike := alike_of_hops hs hb (tied.hasColumn hb) childless relations selects alone flat hops
  refine ⟨_, toMany_one relations childless ((levels_eq hb path).trans
    ((s.levels_eq_iff hs he (fieldParts_ne_nil path)).mpr ⟨last, descends⟩)), ?_⟩
  simpa [modifyChild, Keyed.modify] using alike

/-! ## New queries -/

/-- The two ways along a path from a query without clauses: a toMany path, and a field behind it. -/
structure Rewalks (s : Settings) (q : Query) (e : Entity) (path : String) : Prop where
  opens : (∃ mounts, (q.toMany s path).1 = .ok mounts) ↔
    ∃ levels last, s.schema.Descends e .root (pathParts path) levels last
  alongside : ∀ levels last, s.schema.Descends e .root (pathParts path) levels last →
    (q.toMany s path).1 = .ok (levels.map (·.mount)) ∧ Ladder Eq (q.toMany s path).2 levels ∧
      ∀ column, last.hasColumn column → Ladder (Builds s) (q.select (path ++ "." ++ column)) levels
  breaks : s.schema.Fails e (pathParts path) → ∀ rest, Breaks s (q.select (path ++ "." ++ rest))

section new

variable {source list : String} {e : Entity}

theorem base?_new (he : s.schema.entity? source = some e) :
    (({} : Query).setSource s.schema source).base? s.schema = some e := by
  simp [Query.base?, setSource, edit, he]

theorem lone_new (he : s.schema.entity? source = some e) {path : List String}
    (selects : Selects list path) :
    Lone s ((({} : Query).setSource s.schema source).select list) e path := by
  have nonblank : (Text.trim list).isEmpty = false := by
    simpa [String.isEmpty_iff] using selects.nonblank
  rw [select, nonblank, if_neg Bool.false_ne_true]
  constructor
  · exact base?_new he
  · simp [setSource, edit]
  · exact ⟨list, by simp [setSource, edit], selects⟩
  · simp [setSource, edit]
  · simp [setSource, edit]
  · simp [setSource, edit, he]
  · simp [setSource, edit]
  · simp [setSource, edit]

theorem rewalks_new (hs : s.schema.WellFormed) (he : s.schema.entity? source = some e)
    {path : String} (plain : ∀ part ∈ pathParts path, PlainName part) :
    Rewalks s (({} : Query).setSource s.schema source) e path := by
  have member := Schema.mem_of_entity? he
  have levels := levels_eq (base?_new he) path
  have descends (found : List Level) :
      s.levels path ((pathParts path).getLastD "") e .root (pathParts path) = (found, none) ↔
        ∃ last, s.schema.Descends e .root (pathParts path) found last :=
    s.levels_eq_iff hs member (fieldParts_ne_nil path)
  constructor
  · constructor
    · rintro ⟨mounts, opened⟩
      cases hl : s.levels path ((pathParts path).getLastD "") e .root (pathParts path) with
      | mk found failure =>
          cases failure with
          | none => exact ⟨found, (descends found).mp hl⟩
          | some failure =>
              rw [hl] at levels
              simp [toMany, levels] at opened
    · rintro ⟨found, last, below⟩
      rw [(descends found).mpr ⟨last, below⟩] at levels
      exact ⟨found.map (·.mount), by simp [toMany, levels]⟩
  · intro found last below
    rw [(descends found).mpr ⟨last, below⟩] at levels
    refine ⟨by simp [toMany, levels], ?_, fun column hc => ?_⟩
    · have opened : ((({} : Query).setSource s.schema source).toMany s path).2 =
          (({} : Query).setSource s.schema source).openLevels s.schema found := by
        simp [toMany, levels]
      rw [opened]
      exact ladder_openLevels s.schema found (by simp [setSource, edit])
    · have name := hs.plainName (below.mem member) (Entity.hasColumn_iff.mp hc)
      exact (lone_new he (selects_dotted plain name)).ladder hs below hc
  · intro fails rest
    have reached : Reached s ((({} : Query).setSource s.schema source).select
        (path ++ "." ++ rest)) := .call (.call .new (.setSource source)) (.select _)
    have chosen : (({} : Query).setSource s.schema source).select (path ++ "." ++ rest) =
        (({} : Query).setSource s.schema source).edit fun c =>
          { c with selects := c.selects ++ [path ++ "." ++ rest] } := by
      rw [select, if_neg (by simpa [String.isEmpty_iff] using trim_dotted_ne path rest)]
    rw [chosen] at reached ⊢
    have listed : path ++ "." ++ rest ∈ ((({} : Query).setSource s.schema source).edit fun c =>
        { c with selects := c.selects ++ [path ++ "." ++ rest] }).clauses.selects := by
      simp [setSource, edit]
    exact breaks_of_fails hs reached.sound ⟨rfl, by simp [setSource, edit]⟩ (base?_new he) plain
      listed fails

end new

/-- A toMany path and a field behind it lead along the same levels. With one level they make of a
query that asks for no other children queries that build and run alike. -/
theorem toMany_select {declarations : List Declaration}
    (declared : Schema.ofDeclarations declarations = .ok s.schema)
    (plain : ∀ d ∈ declarations, d.Plain) :
    (∀ source e, s.schema.entity? source = some e → ∀ path,
      (∀ part ∈ pathParts path, PlainName part) →
        Rewalks s (({} : Query).setSource s.schema source) e path) ∧
    ∀ q, Reached s q → q.clauses.relations = [] → q.clauses.selects ≠ [] →
      q.clauses.selectsWith = [] → ∀ base, q.base? s.schema = some base →
        q.clauses.Flat s.schema base → ∀ path level last,
          s.schema.Descends base .root (pathParts path) [level] last →
            ∀ column, last.hasColumn column →
              ∃ opened, q.toMany s path = (.ok [level.mount], opened) ∧
                Alike s (q.select (path ++ "." ++ column))
                  (opened.modifyChild level.mount (select column)) := by
  have hs := Schema.wellFormed_ofDeclarations declared plain
  constructor
  · intro source e he path names
    exact rewalks_new hs he names
  · intro q reached relations selects alone base hb flat path level last descends column hc
    exact (reached.sound.tied hs.named).alike hs hb relations selects alone flat descends hc

end Query

namespace Sample

def totals : Query := (({} : Query).setSource schema "Order").select "total"

theorem totals_reached : totals.Reached settings :=
  .call (.call .new (.setSource (s := settings) "Order")) (.select _)

theorem totals_flat (base : Entity) : totals.clauses.Flat schema base := by
  have listed : totals.clauses.listed = ["total"] := by decide +kernel
  have path : itemPath "total" = ["total"] := by decide +kernel
  intro field hf mount target foreignKey rest _ goesOn h
  rw [listed, List.mem_singleton] at hf
  rw [hf, path] at h
  have length := congrArg List.length h
  have pos := List.length_pos_iff.mpr goesOn
  simp only [List.length_append, List.length_cons, List.length_nil] at length
  omega

def customerOrders : Level :=
  { mount := ⟨Path.root.enter "customer", "orders"⟩, target := "Order", foreignKey := "customerId" }

theorem order_found : ∃ order, schema.entity? "Order" = some order ∧ order.hasColumn "total" ∧
    schema.Descends order .root (pathParts " customer . orders") [customerOrders] order ∧
    schema.Fails order (pathParts "customer.name") ∧
    ∀ part ∈ pathParts "customer.name", PlainName part := by
  have descending : pathParts " customer . orders" = ["customer", "orders"] := by decide +kernel
  have failing : pathParts "customer.name" = ["customer", "name"] := by decide +kernel
  refine ⟨_, rfl, rfl, ?_, ?_, ?_⟩
  · rw [descending]
    exact .bridge ⟨"Customer", rfl, rfl⟩ (by simp) (.toMany rfl rfl .done)
  · rw [failing]
    exact .bridge ⟨"Customer", rfl, rfl⟩ (.column rfl)
  · rw [failing]
    decide

end Sample

theorem Query.toMany_select_orders :
    Ladder (Builds Sample.settings)
        ((({} : Query).setSource Sample.schema "Order").select " customer . orders.total")
        [Sample.customerOrders] ∧
      Breaks Sample.settings
        ((({} : Query).setSource Sample.schema "Order").select "customer.name.length") ∧
      ∃ opened, Sample.totals.toMany Sample.settings " customer . orders" =
          (.ok [Sample.customerOrders.mount], opened) ∧
        Alike Sample.settings (Sample.totals.select " customer . orders.total")
          (opened.modifyChild Sample.customerOrders.mount (select "total")) := by
  obtain ⟨order, found, total, descends, fails, failing⟩ := Sample.order_found
  obtain ⟨rewalks, alike⟩ := toMany_select (s := Sample.settings) Sample.declared Sample.plain
  have plain := descends.plain (Schema.wellFormed_ofDeclarations Sample.declared Sample.plain)
    (Schema.mem_of_entity? found)
  refine ⟨?_, ?_, ?_⟩
  · exact ((rewalks "Order" order found _ plain).alongside _ _ descends).2.2 "total" total
  · exact (rewalks "Order" order found _ failing).breaks fails "length"
  · exact alike Sample.totals Sample.totals_reached rfl (by decide +kernel) rfl order found
      (Sample.totals_flat order) _ _ _ descends "total" total

end RowGraph
