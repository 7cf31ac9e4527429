import Mathlib.Data.List.Forall2
import RowGraph.Proofs.Schema
import RowGraph.Query.Field

/-!
# Walks

A walk that succeeds is a chain of bridges followed by an end: a column, all columns, or a toMany
property with a rest (`walk_ok`). In a well-formed schema the steps of the walk are exactly the
paths of bridges that the field begins with (`Chain.paths_eq`), so that what a field joins can be
read off its text.
-/

namespace RowGraph

/-! ## Paths -/

theorem Path.bridges_enter {bridge : String} (h : bridge ≠ "") (path : Path) :
    (path.enter bridge).bridges = path.bridges ++ [bridge] := by
  unfold Path.enter
  split
  · next hb => simp [h] at hb
  · rfl

@[simp] theorem Path.bridges_root : Path.root.bridges = [] := rfl

theorem Path.eq_root_iff {path : Path} : path = .root ↔ path.bridges = [] := by
  constructor
  · rintro rfl
    rfl
  · exact fun h => Path.ext h

theorem Path.bridges_inj {p q : Path} : p.bridges = q.bridges ↔ p = q :=
  ⟨Path.ext, fun h => h ▸ rfl⟩

/-! ## Chains of steps -/

/-- Steps that follow one another from an entity at a path, with the entity and path they end at. -/
inductive Schema.Chain (s : Schema) : Entity → Path → List Step → Entity → Path → Prop where
  | nil {e : Entity} {path : Path} : Chain s e path [] e path
  | cons {e next last : Entity} {path final : Path} {bridge boundKey : String}
      {steps : List Step} (isBridge : s.IsBridge e bridge boundKey next)
      (rest : Chain s next (path.enter bridge) steps last final) :
      Chain s e path ({ owner := path, bridge, boundKey, target := next } :: steps) last final

namespace Schema.Chain

variable {s : Schema} {e last : Entity} {path final : Path} {steps : List Step}

theorem entityAt? (h : s.Chain e path steps last final) :
    s.entityAt? e (steps.map (·.bridge)) = some last := by
  induction h with
  | nil => rfl
  | cons isBridge _ ih =>
      rw [List.map_cons, entityAt?_cons_of_isBridge isBridge]
      exact ih

theorem bridges_final (hs : s.Named) (he : e ∈ s.entities)
    (h : s.Chain e path steps last final) :
    final.bridges = path.bridges ++ steps.map (·.bridge) := by
  induction h with
  | nil => simp
  | cons isBridge _ ih =>
      obtain ⟨target, hp, ht⟩ := isBridge
      rw [ih (mem_of_entity? ht), Path.bridges_enter (hs.ne_empty he hp)]
      simp

theorem paths_eq (hs : s.WellFormed) (he : e ∈ s.entities) (h : s.Chain e path steps last final)
    {rest : List String} (hr : s.bridgePaths last rest = []) :
    steps.map (·.path.bridges) =
      (s.bridgePaths e (steps.map (·.bridge) ++ rest)).map (path.bridges ++ ·) := by
  induction h with
  | nil => simp [hr]
  | cons isBridge _ ih =>
      obtain ⟨target, hp, ht⟩ := isBridge
      have enter := Path.bridges_enter (hs.plainName he hp).1
      rw [List.map_cons, List.map_cons, List.cons_append,
        bridgePaths_cons_of_isBridge ⟨target, hp, ht⟩, List.map_cons, List.map_map,
        ih (mem_of_entity? ht) hr, Step.path, enter]
      simp [Function.comp_def]

end Schema.Chain

/-! ## Ends of walks -/

inductive Settings.Ends (s : Settings) (place : Place) (e : Entity) (path : Path) :
    List String → Goal → Prop where
  | star (select : place = .select) :
      Ends s place e path ["*"] (.columns (e.columns.map (Reference.plain path)))
  | column {part : String} (isColumn : e.property? part = some .column) :
      Ends s place e path [part] (.columns [.plain path part])
  | affix {part column : String} (notStar : part ≠ "*") (unknown : e.property? part = none)
      (affixed : s.affixColumn? e part = some column) :
      Ends s place e path [part]
        (.columns [{ path, column, label := if place = .expression then column else part }])
  | toMany {part target foreignKey : String} {rest : List String} (select : place = .select)
      (isToMany : e.property? part = some (.toMany target foreignKey)) (goesOn : rest ≠ []) :
      Ends s place e path (part :: rest) (.toMany
        { mount := ⟨path, part⟩, target, foreignKey, field := String.intercalate "." rest })

theorem Settings.Ends.bridgePaths_eq {s : Settings} {place : Place} {e : Entity} {path : Path}
    {rest : List String} {goal : Goal} (hs : s.schema.WellFormed) (he : e ∈ s.schema.entities)
    (h : s.Ends place e path rest goal) : s.schema.bridgePaths e rest = [] := by
  cases h with
  | star => exact Schema.bridgePaths_cons_of_not (by simp [hs.not_star he]) _
  | column isColumn => exact Schema.bridgePaths_cons_of_not (by simp [isColumn]) _
  | affix _ unknown => exact Schema.bridgePaths_cons_of_not (by simp [unknown]) _
  | toMany _ isToMany => exact Schema.bridgePaths_cons_of_not (by simp [isToMany]) _

theorem Settings.Ends.ne_nil {s : Settings} {place : Place} {e : Entity} {path : Path}
    {rest : List String} {goal : Goal} (h : s.Ends place e path rest goal) : rest ≠ [] := by
  cases h <;> simp

theorem Settings.Ends.bridges_eq {s : Settings} {place : Place} {e last owner : Entity}
    {path final : Path} {steps : List Step} {rest bridges more : List String} {goal : Goal}
    {property target foreignKey : String} (ends : s.Ends place last final rest goal)
    (chain : s.schema.Chain e path steps last final)
    (same : steps.map (·.bridge) ++ rest = bridges ++ property :: more)
    (there : s.schema.entityAt? e bridges = some owner)
    (isToMany : owner.property? property = some (.toMany target foreignKey)) :
    steps.map (·.bridge) = bridges := by
  induction chain generalizing bridges with
  | nil =>
      cases bridges with
      | nil => rfl
      | cons bridge others =>
          obtain ⟨_, _, ⟨_, isBridge, -⟩, -⟩ := Schema.exists_of_entityAt?_cons there
          cases ends with
          | star | column | affix => simp at same
          | toMany _ endsToMany =>
              obtain ⟨rfl, -⟩ := List.cons.inj same
              rw [isBridge] at endsToMany
              cases endsToMany
  | cons isBridge _ ih =>
      cases bridges with
      | nil =>
          obtain ⟨rfl, -⟩ := List.cons.inj same
          cases there
          obtain ⟨_, isBridge, -⟩ := isBridge
          rw [isBridge] at isToMany
          cases isToMany
      | cons bridge others =>
          obtain ⟨rfl, onward⟩ := List.cons.inj same
          rw [Schema.entityAt?_cons_of_isBridge isBridge] at there
          rw [List.map_cons, ih ends onward there]

theorem Settings.walk_ok {s : Settings} {place : Place} {field : String} {e : Entity} {path : Path}
    {parts : List String} {w : Walk} (h : s.walk place field e path parts = .ok w)
    (hne : parts ≠ []) :
    ∃ last final rest, s.schema.Chain e path w.steps last final ∧
      parts = w.steps.map (·.bridge) ++ rest ∧ s.Ends place last final rest w.goal := by
  induction parts generalizing e path w with
  | nil => exact absurd rfl hne
  | cons part rest ih =>
      simp only [Settings.walk] at h
      by_cases hstar : part = "*"
      · subst hstar
        simp only [if_true] at h
        split at h
        · cases h
        · next hsel =>
          split at h
          · cases h
          · next hrest =>
            cases h
            obtain rfl : rest = [] := by simpa using hrest
            exact ⟨e, path, ["*"], .nil, rfl, .star (by simpa using hsel)⟩
      · rw [if_neg hstar] at h
        split at h
        · next hp =>
          split at h
          · cases h
          · next hrest =>
            cases h
            obtain rfl : rest = [] := by simpa using hrest
            exact ⟨e, path, [part], .nil, rfl, .column hp⟩
        · next boundKey target hp =>
          split at h
          · cases h
          · next hrest =>
            split at h
            · cases h
            · next found hf =>
              cases hw : s.walk place field found (path.enter part) rest with
              | error fault => simp [Step.path, hw, Except.map] at h
              | ok w' =>
                  simp only [Step.path, hw, Except.map, Except.ok.injEq] at h
                  subst h
                  obtain ⟨last, final, back, chain, hback, ends⟩ := ih hw hrest
                  exact ⟨last, final, back, .cons ⟨target, hp, hf⟩ chain, by simp [hback], ends⟩
        · next target foreignKey hp =>
          split at h
          · cases h
          · next hsel =>
            split at h
            · cases h
            · next hrest =>
              cases h
              exact ⟨e, path, part :: rest, .nil, rfl, .toMany (by simpa using hsel) hp hrest⟩
        · next hp =>
          split at h
          · next column ha =>
            cases h
            exact ⟨e, path, [part], .nil, rfl, .affix hstar hp ha⟩
          · cases h

theorem Settings.walkPath_congr {s t : Settings} (schema : t.schema = s.schema) (e : Entity)
    (path : Path) (bridges : List String) :
    t.walkPath e path bridges = s.walkPath e path bridges := by
  induction bridges generalizing e path with
  | nil => rfl
  | cons bridge rest ih => simp only [walkPath, ih, schema]

theorem Settings.walkPath_ok {s : Settings} {e : Entity} {path : Path} {parts : List String}
    {steps : List Step} (h : s.walkPath e path parts = .ok steps) :
    ∃ last final, s.schema.Chain e path steps last final ∧ parts = steps.map (·.bridge) := by
  induction parts generalizing e path steps with
  | nil =>
      cases h
      exact ⟨e, path, .nil, rfl⟩
  | cons part rest ih =>
      simp only [Settings.walkPath] at h
      split at h
      · next boundKey target hp =>
        split at h
        · cases h
        · next found hf =>
          cases hw : s.walkPath found (path.enter part) rest with
          | error fault => simp [Step.path, hw, Except.map] at h
          | ok steps' =>
              simp only [Step.path, hw, Except.map, Except.ok.injEq] at h
              subst h
              obtain ⟨last, final, chain, hrest⟩ := ih hw
              exact ⟨last, final, .cons ⟨target, hp, hf⟩ chain, by simp [hrest]⟩
      · cases h

/-! ## Fields of lists -/

def isExclusion (field : String) : Bool := (Text.trim field).toList.head? == some '!'

def itemPath (field : String) : List String :=
  match (Text.trim field).toList with
  | '!' :: rest => fieldPath (String.ofList rest)
  | _ => fieldPath field

theorem itemPath_of_not {field : String} (h : isExclusion field = false) :
    itemPath field = fieldPath field := by
  unfold itemPath
  split
  · next hc => simp [isExclusion, hc] at h
  · rfl

theorem PlainName.isExclusion {name : String} (h : PlainName name) : isExclusion name = false := by
  rw [RowGraph.isExclusion, h.2.2]
  cases hc : name.toList with
  | nil => rfl
  | cons c cs =>
      have : c ≠ '!' := by
        rintro rfl
        exact h.2.1 '!' (by rw [hc]; exact List.mem_cons_self ..) (by simp)
      simpa using this

structure Settings.Follows (s : Settings) (base : Entity) (place : Place) (field : String)
    (i : Item) : Prop where
  excluded : i.excluded = isExclusion field
  select : i.excluded = true → place = .select
  walk : ∃ last final rest, s.schema.Chain base .root i.walk.steps last final ∧
    itemPath field = i.walk.steps.map (·.bridge) ++ rest ∧ s.Ends place last final rest i.walk.goal

theorem map_eq_ok_iff {α β ε : Type} {f : α → β} {result : Except ε α} {value : β} :
    result.map f = .ok value ↔ ∃ a, result = .ok a ∧ f a = value := by
  cases result <;> simp [Except.map]

theorem fieldParts_ne_nil (field : String) : (Text.split '.' field).map Text.trim ≠ [] := by
  simp [Text.split, Text.pieces_ne_nil]

theorem Settings.item_ok {s : Settings} {base : Entity} {place : Place} {fields : List String}
    {field : String} {i : Item} (h : s.item base place fields field = .ok i) :
    s.Follows base place field i := by
  unfold Settings.item at h
  split at h
  · cases h
  · next rest hc =>
    split at h
    · cases h
    · next hsel =>
      obtain ⟨w, hw, rfl⟩ := map_eq_ok_iff.mp h
      obtain ⟨last, final, back, chain, hback, ends⟩ := walk_ok hw (fieldParts_ne_nil _)
      refine ⟨by simp [isExclusion, hc], fun _ => by simpa using hsel, ?_⟩
      exact ⟨last, final, back, chain, by rw [← hback, itemPath, hc]; rfl, ends⟩
  · next plain hnil hexcl =>
    obtain ⟨w, hw, rfl⟩ := map_eq_ok_iff.mp h
    obtain ⟨last, final, back, chain, hback, ends⟩ := walk_ok hw (fieldParts_ne_nil _)
    have hne : isExclusion field = false := by
      cases hc : (Text.trim field).toList with
      | nil => simp [isExclusion, hc]
      | cons c cs =>
          have : c ≠ '!' := fun he => hexcl cs (he ▸ hc)
          simpa [isExclusion, hc] using this
    refine ⟨hne.symm, by simp, last, final, back, chain, ?_, ends⟩
    rw [itemPath_of_not hne, ← hback, String.ofList_toList]
    rfl

theorem Checked.all_map_eq_ok_iff {α β : Type} {f : α → Checked β} {inputs : List α}
    {values : List β} : Checked.all (inputs.map f) = .ok values ↔
      List.Forall₂ (fun input value => f input = .ok value) inputs values := by
  rw [Checked.all_eq_ok_iff, ← List.forall₂_eq_eq_eq, List.forall₂_map_left_iff,
    List.forall₂_map_right_iff]

theorem exists_of_forall₂ {α β : Type} {R : α → β → Prop} {as : List α} {bs : List β}
    (h : List.Forall₂ R as bs) {b : β} (hb : b ∈ bs) : ∃ a ∈ as, R a b := by
  induction h with
  | nil => cases hb
  | cons hr _ ih =>
      rcases List.mem_cons.mp hb with rfl | hm
      · exact ⟨_, List.mem_cons_self .., hr⟩
      · obtain ⟨a, ha, hr⟩ := ih hm
        exact ⟨a, List.mem_cons_of_mem _ ha, hr⟩

theorem forall₂_of_mem {α β : Type} {R S : α → β → Prop} {as : List α} {bs : List β}
    (h : List.Forall₂ R as bs) (hs : ∀ a ∈ as, ∀ b, R a b → S a b) : List.Forall₂ S as bs := by
  induction h with
  | nil => exact .nil
  | cons hr _ ih =>
      rw [List.forall_mem_cons] at hs
      exact .cons (hs.1 _ hr) (ih hs.2)

theorem Checked.ofExcept_eq_ok_iff {α : Type} {result : Except Fault α} {value : α} :
    Checked.ofExcept result = .ok value ↔ result = .ok value := by
  cases result <;> simp [Checked.ofExcept]

theorem Settings.items_ok {s : Settings} {base : Entity} {place : Place} {fields : List String}
    {items : List Item} (h : s.items base place fields = .ok items) :
    List.Forall₂ (s.Follows base place) fields items :=
  (Checked.all_map_eq_ok_iff.mp h).imp fun _ _ hi => item_ok (Checked.ofExcept_eq_ok_iff.mp hi)

end RowGraph
