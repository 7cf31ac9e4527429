import RowGraph.Proofs.Joins
import RowGraph.Proofs.Mapping

/-!
# Plans of scopes

The aliases of a scope that become objects form a tree along their paths: an alias is attached to
another by a bridge if its path is the other's with the bridge behind it (`attachment_iff`). The
plan of the scope is therefore in order (`orderly_plan`).
-/

namespace RowGraph
namespace Scope

variable {s : Schema} {base : Entity}

/-! ## Objects of a scope -/

/-- Objects that grew one by one below the root, each at a path that leads on from its parent's. -/
inductive Hangs (tables : List (Path × Entity)) : List (Alias × Shown) → Prop where
  | root (entity : String) : Hangs tables [(.root, { entity, attachment := none })]
  | snoc {shown : List (Alias × Shown)} {name parent : Alias} {path owner : Path}
      {e ownerEntity : Entity} {bridge : String} (entity : String) (grown : Hangs tables shown)
      (new : name ∉ shown.map Prod.fst) (below : parent ∈ shown.map Prod.fst)
      (there : tables[name.index]? = some (path, e))
      (ownerThere : tables[parent.index]? = some (owner, ownerEntity))
      (bridges : path.bridges = owner.bridges ++ [bridge]) :
      Hangs tables (shown ++ [(name, { entity, attachment := some ⟨parent, bridge⟩ })])

section hangs

variable {tables : List (Path × Entity)} {shown : List (Alias × Shown)}

theorem Hangs.mono {more : List (Path × Entity)} (h : Hangs tables shown) (grown : tables <+: more) :
    Hangs more shown := by
  have keep : ∀ {i : Nat} {entry : Path × Entity}, tables[i]? = some entry →
      more[i]? = some entry := by
    obtain ⟨rest, rfl⟩ := grown
    intro i entry hi
    rw [List.getElem?_append_left (List.getElem?_eq_some_iff.mp hi).1, hi]
  induction h with
  | root entity => exact .root entity
  | snoc entity _ new below there ownerThere bridges ih =>
      exact .snoc entity ih new below (keep there) (keep ownerThere) bridges

theorem Hangs.nodup (h : Hangs tables shown) : (shown.map Prod.fst).Nodup := by
  induction h with
  | root => simp
  | snoc _ _ new _ _ _ _ ih =>
      rw [List.map_append, List.map_singleton, ← List.concat_eq_append, List.nodup_concat]
      exact ⟨new, ih⟩

theorem Hangs.parent_mem (h : Hangs tables shown) :
    ∀ entry ∈ shown, ∀ place, entry.2.attachment = some place →
      place.parent ∈ shown.map Prod.fst := by
  induction h with
  | root => simp
  | snoc _ _ _ below _ _ _ ih =>
      rw [List.forall_mem_append]
      constructor
      · intro entry he place hat
        rw [List.map_append]
        exact List.mem_append_left _ (ih entry he place hat)
      · simpa using .inl (by simpa using below)

theorem Hangs.order (h : Hangs tables shown) :
    shown.Pairwise fun a b => ∀ property, a.2.attachment ≠ some ⟨b.1, property⟩ := by
  induction h with
  | root => simp
  | snoc _ grown new _ _ _ _ ih =>
      rw [List.pairwise_append]
      refine ⟨ih, List.pairwise_singleton .., ?_⟩
      intro entry he last hl property hat
      rw [List.mem_singleton.mp hl] at hat
      exact new (grown.parent_mem entry he _ hat)

theorem Hangs.eq_cons (h : Hangs tables shown) :
    ∃ entity rest, shown = (.root, { entity, attachment := none }) :: rest ∧
      ∀ entry ∈ rest, entry.2.attachment.isSome := by
  induction h with
  | root entity => exact ⟨entity, [], rfl, by simp⟩
  | snoc _ _ _ _ _ _ _ ih =>
      obtain ⟨entity, rest, rfl, attached⟩ := ih
      refine ⟨entity, rest ++ [_], rfl, ?_⟩
      rw [List.forall_mem_append]
      exact ⟨attached, by simp⟩

theorem Hangs.entry (h : Hangs tables shown) (hroot : ∃ e, tables[0]? = some (.root, e)) :
    ∀ entry ∈ shown, ∃ path e, tables[entry.1.index]? = some (path, e) ∧
      (path = .root ∧ entry.2.attachment = none ∨
        ∃ parent owner ownerEntity bridge, entry.2.attachment = some ⟨parent, bridge⟩ ∧
          tables[parent.index]? = some (owner, ownerEntity) ∧
          path.bridges = owner.bridges ++ [bridge]) := by
  induction h with
  | root =>
      obtain ⟨e, hroot⟩ := hroot
      intro entry he
      rw [List.mem_singleton.mp he]
      exact ⟨_, _, hroot, .inl ⟨rfl, rfl⟩⟩
  | snoc _ _ _ _ there ownerThere bridges ih =>
      rw [List.forall_mem_append]
      refine ⟨ih, fun entry he => ?_⟩
      rw [List.mem_singleton.mp he]
      exact ⟨_, _, there, .inr ⟨_, _, _, _, rfl, ownerThere, bridges⟩⟩

end hangs

section displayed

variable {tables : List (Path × Entity)} {shown : List (Alias × Shown)}

theorem Displayed.hangs (h : Displayed base tables shown) : Hangs tables shown := by
  induction h with
  | base => exact .root base.name
  | snoc _ new below there ownerThere bridges ih =>
      exact .snoc _ ih new below there ownerThere bridges

theorem Displayed.eq_cons (h : Displayed base tables shown) :
    ∃ rest, shown = (.root, { entity := base.name, attachment := none }) :: rest ∧
      ∀ entry ∈ rest, entry.2.attachment.isSome := by
  induction h with
  | base => exact ⟨[], rfl, by simp⟩
  | snoc _ _ _ _ _ _ ih =>
      obtain ⟨rest, rfl, attached⟩ := ih
      refine ⟨rest ++ [_], rfl, ?_⟩
      rw [List.forall_mem_append]
      exact ⟨attached, by simp⟩

theorem Displayed.entry (h : Displayed base tables shown) (hroot : tables[0]? = some (.root, base)) :
    ∀ entry ∈ shown, ∃ path e, tables[entry.1.index]? = some (path, e) ∧ entry.2.entity = e.name ∧
      (path = .root ∧ entry.2.attachment = none ∨
        ∃ parent owner ownerEntity bridge, entry.2.attachment = some ⟨parent, bridge⟩ ∧
          tables[parent.index]? = some (owner, ownerEntity) ∧
          path.bridges = owner.bridges ++ [bridge]) := by
  induction h with
  | base =>
      intro entry he
      rw [List.mem_singleton.mp he]
      exact ⟨_, _, hroot, rfl, .inl ⟨rfl, rfl⟩⟩
  | snoc _ _ _ there ownerThere bridges ih =>
      rw [List.forall_mem_append]
      refine ⟨ih, fun entry he => ?_⟩
      rw [List.mem_singleton.mp he]
      exact ⟨_, _, there, rfl, .inr ⟨_, _, _, _, rfl, ownerThere, bridges⟩⟩

end displayed

/-! ## Aliases of a plan -/

def aliasPlans (scope : Scope) (keepKeys : Bool) (injected : List Reference) : List AliasPlan :=
  scope.shown.filterMap fun (name, shown) => scope.aliasPlan? keepKeys injected name shown

section

variable {scope : Scope} {keepKeys : Bool} {injected : List Reference}

theorem mem_aliasPlans {a : AliasPlan} : a ∈ scope.aliasPlans keepKeys injected ↔
    ∃ shown path e, (a.name, shown) ∈ scope.shown ∧ scope.table? a.name = some (path, e) ∧
      a.entity = shown.entity ∧ a.primaryKey = e.primaryKey ∧ a.attachment = shown.attachment ∧
      a.stripKey = (shown.attachment.isSome && !keepKeys && injected.any (·.path == path)) := by
  rw [aliasPlans, List.mem_filterMap]
  constructor
  · rintro ⟨⟨name, shown⟩, hm, ha⟩
    obtain ⟨⟨path, e⟩, ht, rfl⟩ := Option.map_eq_some_iff.mp ha
    exact ⟨shown, path, e, hm, ht, rfl, rfl, rfl, rfl⟩
  · rintro ⟨shown, path, e, hm, ht, hentity, hkey, hat, hstrip⟩
    refine ⟨(a.name, shown), hm, ?_⟩
    obtain ⟨name, entity, primaryKey, attachment, stripKey⟩ := a
    simp only at ht hentity hkey hat hstrip
    simp [aliasPlan?, ht, hentity, hkey, hat, hstrip]

theorem names_aliasPlans_of_hangs (first : ∃ e, scope.tables[0]? = some (.root, e))
    (hangs : Hangs scope.tables scope.shown) :
    (scope.aliasPlans keepKeys injected).map (·.name) = scope.shown.map Prod.fst := by
  have entry := hangs.entry first
  rw [aliasPlans]
  generalize scope.shown = shown at entry
  induction shown with
  | nil => rfl
  | cons first rest ih =>
      obtain ⟨name, info⟩ := first
      rw [List.forall_mem_cons] at entry
      obtain ⟨⟨path, e, ht, -⟩, entry⟩ := entry
      have found : scope.table? name = some (path, e) := ht
      simp only [List.filterMap_cons, aliasPlan?, found, Option.map_some, List.map_cons] at ih ⊢
      rw [ih entry]

theorem name_eq_of_table? (paths : (scope.tables.map Prod.fst).Nodup) {name other : Alias}
    {path : Path} {e f : Entity} (h : scope.table? name = some (path, e))
    (ho : scope.table? other = some (path, f)) : name = other := by
  have same := aliasOf_eq paths h
  rw [aliasOf_eq paths ho] at same
  cases other
  cases name
  exact same.symm

theorem mountPlan?_iff (paths : (scope.tables.map Prod.fst).Nodup) {mount : Mount} {m : MountPlan} :
    scope.mountPlan? mount = some m ↔ ∃ e, scope.table? m.owner = some (mount.owner, e) ∧
      m.mount = mount ∧ m.ownerKey = e.primaryKey := by
  have found := fun name => @aliasOf?_eq_some_iff scope paths mount.owner name
  unfold mountPlan?
  constructor
  · intro h
    obtain ⟨owner, ho, h⟩ := Option.bind_eq_some_iff.mp h
    obtain ⟨⟨path, e⟩, ht, h⟩ := Option.bind_eq_some_iff.mp h
    obtain ⟨f, hf⟩ := (found owner).mp ho
    cases h
    rw [table?, hf, Option.some.injEq, Prod.mk.injEq] at ht
    obtain ⟨rfl, rfl⟩ := ht
    exact ⟨f, hf, rfl, rfl⟩
  · rintro ⟨e, ht, rfl, hkey⟩
    have ho := (found m.owner).mpr ⟨e, ht⟩
    obtain ⟨mount, owner, ownerKey⟩ := m
    cases hkey
    simp [ho, show scope.table? owner = some (mount.owner, e) from ht]

theorem arranged_plan (keepKeys : Bool) (injected : List Reference)
    (paths : (scope.tables.map Prod.fst).Nodup) (first : ∃ e, scope.tables[0]? = some (.root, e))
    (hangs : Hangs scope.tables scope.shown) {mounts : List Mount} (nodup : mounts.Nodup)
    (index : Option IndexTarget) :
    Plan.Arranged
      { aliases := scope.aliasPlans keepKeys injected, mounts := mounts.filterMap scope.mountPlan?,
        index } := by
  have names : ((scope.aliasPlans keepKeys injected).map (·.name)).Nodup := by
    rw [names_aliasPlans_of_hangs first hangs]
    exact hangs.nodup
  -- the parent and the property of an attachment make up the path of what is attached
  have attached : ∀ a ∈ scope.aliasPlans keepKeys injected, ∀ parent property,
      a.attachment = some ⟨parent, property⟩ → ∃ path e owner f,
        scope.table? a.name = some (path, e) ∧ scope.table? parent = some (owner, f) ∧
        path.bridges = owner.bridges ++ [property] := by
    intro a ha parent property hat
    obtain ⟨shown, path, e, hm, ht, -, -, place, -⟩ := mem_aliasPlans.mp ha
    obtain ⟨_, _, there, ⟨-, top⟩ | ⟨above, owner, f, bridge, hung, ownerThere, bridges⟩⟩ :=
      hangs.entry first _ hm
    · rw [hat, show shown.attachment = none from top] at place
      cases place
    · rw [hat, show shown.attachment = some ⟨above, bridge⟩ from hung] at place
      cases place
      exact ⟨_, _, owner, f, there, ownerThere, bridges⟩
  obtain ⟨entity, others, hshown, below⟩ := hangs.eq_cons
  constructor
  · exact names
  · obtain ⟨e, first⟩ := first
    have root : scope.table? .root = some (.root, e) := first
    simp only [aliasPlans, hshown, List.filterMap_cons, aliasPlan?, root, Option.map_some]
    refine ⟨_, _, rfl, rfl, ?_⟩
    intro a ha
    obtain ⟨other, ho, ha⟩ := List.mem_filterMap.mp ha
    obtain ⟨_, -, rfl⟩ := Option.map_eq_some_iff.mp ha
    exact below other ho
  · rw [aliasPlans, List.pairwise_filterMap]
    refine hangs.order.imp ?_
    intro first second hne a ha b hb property hat
    obtain ⟨_, -, rfl⟩ := Option.map_eq_some_iff.mp ha
    obtain ⟨_, -, rfl⟩ := Option.map_eq_some_iff.mp hb
    exact hne property hat
  · intro a ha property hat
    obtain ⟨path, e, owner, f, ht, hp, bridges⟩ := attached a ha _ _ hat
    rw [ht, Option.some.injEq, Prod.mk.injEq] at hp
    rw [hp.1] at bridges
    simp at bridges
  · intro a ha b hb place hat hbt
    obtain ⟨path, e, owner, f, ht, hp, bridges⟩ := attached a ha _ _ hat
    obtain ⟨other, g, _, _, htb, hpb, otherBridges⟩ := attached b hb _ _ hbt
    rw [hp, Option.some.injEq, Prod.mk.injEq] at hpb
    obtain ⟨rfl, rfl⟩ := hpb
    obtain rfl : path = other := Path.ext (bridges.trans otherBridges.symm)
    exact List.inj_on_of_nodup_map names ha hb (name_eq_of_table? paths ht htb)
  · rw [List.Nodup, List.pairwise_map, List.pairwise_filterMap]
    refine nodup.imp ?_
    intro mount other hne m hm n hn heq
    obtain ⟨e, ht, rfl, -⟩ := (mountPlan?_iff paths).mp hm
    obtain ⟨f, hf, rfl, -⟩ := (mountPlan?_iff paths).mp hn
    rw [Prod.mk.injEq] at heq
    rw [heq.1, hf, Option.some.injEq, Prod.mk.injEq] at ht
    exact hne (congrArg₂ Mount.mk ht.1.symm heq.2)

variable (joined : s.Joined base scope.tables scope.joins)
  (displayed : Displayed base scope.tables scope.shown)

include joined

theorem table?_inj {name other : Alias} {path : Path} {e f : Entity}
    (h : scope.table? name = some (path, e)) (ho : scope.table? other = some (path, f)) :
    name = other ∧ e = f := by
  obtain rfl := name_eq_of_table? joined.keys_nodup h ho
  rw [h, Option.some.injEq, Prod.mk.injEq] at ho
  exact ⟨rfl, ho.2⟩

theorem entityAt?_of_table? {name : Alias} {path : Path} {e : Entity}
    (h : scope.table? name = some (path, e)) : s.entityAt? base path.bridges = some e :=
  joined.entityAt? (List.mem_of_getElem? h)

include displayed

theorem attachment_iff {name : Alias} {path other : Path} {e f : Entity} {b : AliasPlan}
    (ha : scope.table? name = some (path, e)) (hb : b ∈ scope.aliasPlans keepKeys injected)
    (ht : scope.table? b.name = some (other, f)) (bridge : String) :
    b.attachment = some ⟨name, bridge⟩ ↔ other.bridges = path.bridges ++ [bridge] := by
  obtain ⟨shown, _, _, hm, ht', -, -, hat, -⟩ := mem_aliasPlans.mp hb
  obtain ⟨_, _, ht', -, place⟩ := displayed.entry joined.root_mem _ hm
  rw [show scope.tables[b.name.index]? = some (other, f) from ht, Option.some.injEq,
    Prod.mk.injEq] at ht'
  obtain ⟨rfl, rfl⟩ := ht'
  rw [hat]
  rcases place with ⟨rfl, hnone⟩ | ⟨parent, owner, ownerEntity, own, hsome, hparent, hbridges⟩
  · simp only at hnone
    simp [hnone, Path.root]
  · simp only at hsome
    rw [hsome, hbridges, Option.some.injEq, Attachment.mk.injEq]
    constructor
    · rintro ⟨rfl, rfl⟩
      rw [show scope.tables[parent.index]? = some (path, e) from ha, Option.some.injEq,
        Prod.mk.injEq] at hparent
      rw [hparent.1]
    · intro h
      obtain ⟨howner, hown⟩ := List.append_inj' h rfl
      obtain rfl : owner = path := Path.ext howner
      exact ⟨(table?_inj joined hparent ha).1, by simpa using hown⟩

theorem names_aliasPlans :
    (scope.aliasPlans keepKeys injected).map (·.name) = scope.shown.map Prod.fst :=
  names_aliasPlans_of_hangs ⟨base, joined.root_mem⟩ displayed.hangs

omit displayed in
theorem Exhibits.seen_iff {seen : List Path} (h : scope.Exhibits base seen) {path : Path} :
    path ∈ seen ↔ ∃ a ∈ scope.aliasPlans keepKeys injected, ∃ e,
      scope.table? a.name = some (path, e) := by
  have names : (scope.aliasPlans keepKeys injected).map (·.name) = scope.shown.map Prod.fst :=
    names_aliasPlans joined h.displayed
  constructor
  · intro hp
    obtain ⟨⟨found, e⟩, hm, rfl⟩ := List.mem_map.mp (h.tables path hp)
    obtain ⟨i, hi⟩ := List.mem_iff_getElem?.mp hm
    have there : (⟨i⟩ : Alias) ∈ (scope.aliasPlans keepKeys injected).map (·.name) := by
      rw [names]
      exact (h.names _).mpr ⟨found, hp, e, hi⟩
    obtain ⟨a, ha, hname⟩ := List.mem_map.mp there
    exact ⟨a, ha, e, by rw [hname]; exact hi⟩
  · rintro ⟨a, ha, e, ht⟩
    have there := List.mem_map_of_mem (f := fun a : AliasPlan => a.name) ha
    rw [names, h.names] at there
    obtain ⟨found, hp, f, hf⟩ := there
    rw [show scope.tables[a.name.index]? = some (path, e) from ht, Option.some.injEq,
      Prod.mk.injEq] at hf
    rwa [hf.1]

theorem aliasPlans_entry {a : AliasPlan} (ha : a ∈ scope.aliasPlans keepKeys injected) :
    ∃ path e, scope.table? a.name = some (path, e) ∧ a.entity = e.name ∧
      a.primaryKey = e.primaryKey ∧ ∀ place, a.attachment = some place →
        place.parent ∈ (scope.aliasPlans keepKeys injected).map (·.name) := by
  obtain ⟨shown, path, e, hm, ht, hentity, hkey, hat, -⟩ := mem_aliasPlans.mp ha
  obtain ⟨_, _, ht', hname, -⟩ := displayed.entry joined.root_mem _ hm
  rw [show scope.tables[a.name.index]? = some (path, e) from ht, Option.some.injEq,
    Prod.mk.injEq] at ht'
  obtain ⟨rfl, rfl⟩ := ht'
  refine ⟨path, e, ht, hentity.trans hname, hkey, fun place hplace => ?_⟩
  rw [names_aliasPlans joined displayed]
  exact displayed.hangs.parent_mem _ hm place (hat ▸ hplace)

theorem stripKey_iff {a : AliasPlan} (ha : a ∈ scope.aliasPlans keepKeys injected) {path : Path}
    {e : Entity} (ht : scope.table? a.name = some (path, e)) :
    a.stripKey = true ↔ path ≠ .root ∧ keepKeys = false ∧ ∃ ref ∈ injected, ref.path = path := by
  obtain ⟨shown, _, _, hm, ht', -, -, -, hstrip⟩ := mem_aliasPlans.mp ha
  rw [ht, Option.some.injEq, Prod.mk.injEq] at ht'
  obtain ⟨rfl, rfl⟩ := ht'
  obtain ⟨_, _, ht', -, place⟩ := displayed.entry joined.root_mem _ hm
  rw [show scope.tables[a.name.index]? = some (path, e) from ht, Option.some.injEq,
    Prod.mk.injEq] at ht'
  obtain ⟨rfl, rfl⟩ := ht'
  have below : shown.attachment.isSome = true ↔ path ≠ .root := by
    rcases place with ⟨hroot, hnone⟩ | ⟨_, _, _, _, hsome, -, hbridges⟩
    · simp only at hnone
      simp [hroot, hnone]
    · simp only at hsome
      simp [hsome, Path.eq_root_iff, hbridges]
  rw [hstrip, Bool.and_eq_true, Bool.and_eq_true, below, Bool.not_eq_true', List.any_eq_true,
    and_assoc]
  simp only [beq_iff_eq]

theorem aliasPlans_at {a : AliasPlan} (ha : a ∈ scope.aliasPlans keepKeys injected) {path : Path}
    {e : Entity} (ht : scope.table? a.name = some (path, e)) :
    a.entity = e.name ∧ a.primaryKey = e.primaryKey := by
  obtain ⟨_, _, ht', hentity, hkey, -⟩ := aliasPlans_entry joined displayed ha
  rw [ht, Option.some.injEq, Prod.mk.injEq] at ht'
  obtain ⟨rfl, rfl⟩ := ht'
  exact ⟨hentity, hkey⟩

/-! ## Plans -/

omit displayed in
theorem mountPlan?_eq_some_iff {mount : Mount} {m : MountPlan} :
    scope.mountPlan? mount = some m ↔ ∃ e, scope.table? m.owner = some (mount.owner, e) ∧
      m.mount = mount ∧ m.ownerKey = e.primaryKey :=
  mountPlan?_iff joined.keys_nodup

theorem orderly_plan {mounts : List Mount} (nodup : mounts.Nodup)
    (toMany : ∀ mount ∈ mounts, ∃ target foreignKey, s.Mounts base mount target foreignKey)
    (index : Option IndexTarget) :
    Plan.Orderly
      { aliases := scope.aliasPlans keepKeys injected, mounts := mounts.filterMap scope.mountPlan?,
        index } := by
  have first : ∃ e, scope.tables[0]? = some (.root, e) := ⟨base, joined.root_mem⟩
  obtain ⟨names, root, order, self, attachments, distinct⟩ :=
    arranged_plan keepKeys injected joined.keys_nodup first displayed.hangs nodup index
  refine ⟨names, root, order, self, attachments, distinct, ?_⟩
  intro m hm a ha hat
  obtain ⟨mount, hmount, hplan⟩ := List.mem_filterMap.mp hm
  obtain ⟨e, ht, rfl, -⟩ := (mountPlan?_eq_some_iff joined).mp hplan
  obtain ⟨path, f, hta, -⟩ := aliasPlans_entry joined displayed ha
  have hpath := (attachment_iff joined displayed ht ha hta _).mp hat
  have hf := entityAt?_of_table? joined hta
  rw [hpath, Schema.entityAt?_concat_eq_some_iff] at hf
  obtain ⟨owner, boundKey, howner, target, hbridge, -⟩ := hf
  obtain ⟨target, foreignKey, owner', howner', hmany⟩ := toMany m.mount hmount
  rw [howner, Option.some.injEq] at howner'
  subst howner'
  rw [hbridge] at hmany
  cases hmany

end
end Scope
end RowGraph
