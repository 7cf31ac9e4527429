import RowGraph.Proofs.Fields
import RowGraph.Proofs.Moves

/-!
# How deep queries go

What a field forwards to a child has fewer segments than the field (`Settings.Follows.segmentCount_lt`).
That gives a measure of a tree of queries: how deep it can still go (`Query.reach`), which neither
building nor running increases, provided that no query is forced to select a foreign key with a dot
in its name (`Query.Fits`).
-/

namespace RowGraph

/-! ## Segments -/

namespace Text

theorem sublist_of_mem_pieces {separator : Char} {cs piece : List Char}
    (h : piece ∈ pieces separator cs) : piece.Sublist cs := by
  induction cs generalizing piece with
  | nil => rw [List.mem_singleton.mp h]
  | cons c rest ih =>
      obtain ⟨first, others, hf⟩ := List.exists_cons_of_ne_nil (pieces_ne_nil separator rest)
      rw [pieces] at h
      split at h
      · rcases List.mem_cons.mp h with rfl | h
        · exact List.nil_sublist _
        · exact (ih h).cons c
      · rw [hf] at ih h
        rcases List.mem_cons.mp h with rfl | h
        · exact (ih (List.mem_cons_self ..)).cons_cons c
        · exact (ih (List.mem_cons_of_mem _ h)).cons c

theorem trimChars_sublist (cs : List Char) : (trimChars cs).Sublist cs := by
  have back : (trimChars cs).Sublist (trimFront cs).reverse.reverse :=
    (List.dropWhile_sublist _).reverse
  rw [List.reverse_reverse] at back
  exact back.trans (List.dropWhile_sublist _)

end Text

def segmentCount (field : String) : Nat := (Text.split '.' field).length

theorem segmentCount_eq (field : String) : segmentCount field = field.toList.count '.' + 1 := by
  rw [segmentCount, Text.split, List.length_map, Text.pieces_length]

theorem segmentCount_eq_one_iff {field : String} : segmentCount field = 1 ↔ '.' ∉ field.toList := by
  rw [segmentCount_eq, Nat.add_eq_right, List.count_eq_zero]

theorem segmentCount_le_of_sublist {front back : String} (h : front.toList.Sublist back.toList) :
    segmentCount front ≤ segmentCount back := by
  rw [segmentCount_eq, segmentCount_eq]
  exact Nat.succ_le_succ (h.count_le '.')

theorem segmentCount_trim_le (text : String) : segmentCount (Text.trim text) ≤ segmentCount text := by
  apply segmentCount_le_of_sublist
  rw [Text.trim, String.toList_ofList]
  exact Text.trimChars_sublist _

theorem segmentCount_le_of_mem_splitFields {list field : String} (h : field ∈ splitFields list) :
    segmentCount field ≤ segmentCount list := by
  obtain ⟨piece, hp, rfl⟩ := List.mem_map.mp h
  obtain ⟨chars, hc, rfl⟩ := List.mem_map.mp hp
  refine (segmentCount_trim_le _).trans (segmentCount_le_of_sublist ?_)
  rw [String.toList_ofList]
  exact Text.sublist_of_mem_pieces hc

theorem segmentCount_excluded (field : String) : segmentCount ("!" ++ field) = segmentCount field := by
  have mark : "!".toList = ['!'] := rfl
  rw [segmentCount_eq, segmentCount_eq, String.toList_append, mark, List.count_append]
  simp

theorem segmentCount_intercalate {parts : List String} (undotted : ∀ part ∈ parts, '.' ∉ part.toList)
    (hne : parts ≠ []) : segmentCount (String.intercalate "." parts) = parts.length := by
  induction parts with
  | nil => exact absurd rfl hne
  | cons part rest ih =>
      rw [List.forall_mem_cons] at undotted
      rcases rest with _ | ⟨next, more⟩
      · rw [String.intercalate_singleton]
        exact segmentCount_eq_one_iff.mpr undotted.1
      · have later := ih undotted.2 (by simp)
        rw [segmentCount_eq] at later
        rw [String.intercalate_cons_of_ne_nil (by simp), segmentCount_eq, toList_dotted,
          List.count_append, List.count_eq_zero.mpr undotted.1, List.count_cons_self, Nat.zero_add,
          later]
        rfl

theorem not_dot_of_mem_fieldPath {field part : String} (h : part ∈ fieldPath field) :
    '.' ∉ part.toList := by
  obtain ⟨piece, hp, rfl⟩ := List.mem_map.mp h
  obtain ⟨chars, hc, rfl⟩ := List.mem_map.mp hp
  intro dot
  rw [Text.trim, String.toList_ofList, String.toList_ofList] at dot
  exact Text.not_mem_of_mem_pieces hc (Text.trimChars_subset _ dot)

theorem length_fieldPath_le (field : String) : (fieldPath field).length ≤ segmentCount field := by
  rw [fieldPath, List.length_map]
  exact segmentCount_trim_le field

theorem not_dot_of_mem_itemPath {field part : String} (h : part ∈ itemPath field) :
    '.' ∉ part.toList := by
  unfold itemPath at h
  split at h <;> exact not_dot_of_mem_fieldPath h

theorem length_itemPath_le (field : String) : (itemPath field).length ≤ segmentCount field := by
  unfold itemPath
  split
  · next rest chars =>
    refine (length_fieldPath_le _).trans (le_trans (segmentCount_le_of_sublist ?_) (segmentCount_trim_le field))
    rw [chars, String.toList_ofList]
    exact List.sublist_cons_self ..
  · exact length_fieldPath_le field

def Schema.Undotted (s : Schema) : Prop :=
  ∀ e ∈ s.entities, ∀ name target foreignKey,
    e.property? name = some (.toMany target foreignKey) → '.' ∉ foreignKey.toList

theorem Schema.WellFormed.undotted {s : Schema} (hs : s.WellFormed) : s.Undotted := by
  intro e he name target foreignKey hp
  obtain ⟨next, found, column⟩ := hs.toMany e he name target foreignKey hp
  have plain := hs.plainName (Schema.mem_of_entity? found) (Entity.hasColumn_iff.mp column)
  exact plain.not_mem (by simp)

theorem Settings.Follows.segmentCount_lt {s : Settings} {base : Entity} {field : String} {i : Item}
    {hop : Hop} (hb : base ∈ s.schema.entities) (h : s.Follows base .select field i)
    (goes : i.hop? = some hop) : segmentCount hop.field < segmentCount field ∧
      ∃ e ∈ s.schema.entities, ∃ name,
        e.property? name = some (.toMany hop.target hop.foreignKey) := by
  obtain ⟨last, final, rest, chain, path, ends⟩ := h.walk
  have owner := Schema.entityAt?_mem hb chain.entityAt?
  unfold Item.hop? at goes
  generalize i.walk.goal = goal at ends goes
  cases ends with
  | star | column | affix => cases goes
  | @toMany part target foreignKey rest _ isToMany goesOn =>
      cases goes
      refine ⟨?_, last, owner, part, isToMany⟩
      have undotted : ∀ part ∈ rest, '.' ∉ part.toList := fun inner hm =>
        not_dot_of_mem_itemPath (path ▸ List.mem_append_right _ (List.mem_cons_of_mem part hm))
      have length := length_itemPath_le field
      rw [path, List.length_append, List.length_cons] at length
      rw [segmentCount_intercalate undotted goesOn]
      omega

/-- A field goes on through the toMany property at a mount, and another one is among the fields
that the child there gets by that. -/
def Settings.Forwards (s : Settings) (base : Entity) (origin : String) (mount : Mount)
    (field : String) : Prop :=
  ∃ i hop, s.Follows base .select origin i ∧ i.hop? = some hop ∧ hop.mount = mount ∧
    field ∈ splitFields (if i.excluded then "!" ++ hop.field else hop.field)

theorem Settings.Forwards.segmentCount_lt {s : Settings} {base : Entity} {origin field : String}
    {mount : Mount} (hb : base ∈ s.schema.entities) (h : s.Forwards base origin mount field) :
    segmentCount field < segmentCount origin := by
  obtain ⟨i, hop, follows, goes, -, among⟩ := h
  have shorter := (follows.segmentCount_lt hb goes).1
  have short := segmentCount_le_of_mem_splitFields among
  split at short
  · rw [segmentCount_excluded] at short
    exact short.trans_lt shorter
  · exact short.trans_lt shorter

/-! ## Measures of trees -/

def Clauses.longest (c : Clauses) : Nat := (c.listed.map segmentCount).foldr max 0

theorem Clauses.longest_le_iff {c : Clauses} {n : Nat} :
    c.longest ≤ n ↔ ∀ field ∈ c.listed, segmentCount field ≤ n := by
  unfold longest
  induction c.listed with
  | nil => simp
  | cons field rest ih =>
      rw [List.map_cons, List.foldr_cons, Nat.max_le, ih, List.forall_mem_cons]

namespace Query

mutual

/-- The greatest measure of the clauses in a tree of queries, where each level adds something to
those below it. -/
def peak (measure : Clauses → Nat) (level : Nat) : Query → Nat
  | { clauses, params := _, faults := _, children, link := _, listeners := _, compiled := _ } =>
      max (measure clauses) (peakOf measure level children)
termination_by structural q => q

def peakOf (measure : Clauses → Nat) (level : Nat) : List (Mount × Query) → Nat
  | [] => 0
  | (_, child) :: rest => max (child.peak measure level + level) (peakOf measure level rest)
termination_by structural children => children

end

def depth (q : Query) : Nat := q.peak (fun _ => 0) 1

def longest (q : Query) : Nat := q.peak Clauses.longest 0

def reach (q : Query) : Nat := q.peak (fun c => c.longest - 1) 1

theorem peakOf_le_iff {measure : Clauses → Nat} {level n : Nat} {children : List (Mount × Query)} :
    peakOf measure level children ≤ n ↔
      ∀ entry ∈ children, entry.2.peak measure level + level ≤ n := by
  induction children with
  | nil => simp [peakOf]
  | cons entry rest ih => rw [peakOf, Nat.max_le, ih, List.forall_mem_cons]

theorem peak_le_iff {measure : Clauses → Nat} {level n : Nat} {q : Query} :
    q.peak measure level ≤ n ↔ measure q.clauses ≤ n ∧
      ∀ entry ∈ q.children, entry.2.peak measure level + level ≤ n := by
  cases q
  rw [peak, Nat.max_le, peakOf_le_iff]

theorem reach_bounds (q : Query) : q.depth ≤ q.reach ∧ q.reach ≤ q.depth + q.longest := by
  obtain ⟨-, deep⟩ := peak_le_iff.mp (Nat.le_refl q.depth)
  obtain ⟨long, longs⟩ := peak_le_iff.mp (Nat.le_refl q.longest)
  obtain ⟨-, reaches⟩ := peak_le_iff.mp (Nat.le_refl q.reach)
  constructor
  · refine peak_le_iff.mpr ⟨Nat.zero_le _, fun entry held => ?_⟩
    have smaller := sizeOf_entry held
    exact (Nat.succ_le_succ (reach_bounds entry.2).1).trans (reaches entry held)
  · refine peak_le_iff.mpr ⟨by omega, fun entry held => ?_⟩
    have smaller := sizeOf_entry held
    have bound : entry.2.reach ≤ entry.2.depth + entry.2.longest := (reach_bounds entry.2).2
    have deeper : entry.2.depth + 1 ≤ q.depth := deep entry held
    have longer : entry.2.longest + 0 ≤ q.longest := longs entry held
    show entry.2.reach + 1 ≤ q.depth + q.longest
    omega
termination_by sizeOf q

inductive Undotted : Query → Prop where
  | intro {q : Query} (forced : ∀ field ∈ q.clauses.forced, segmentCount field = 1)
      (children : ∀ entry ∈ q.children, Undotted entry.2) : Undotted q

def Fits (n : Nat) (q : Query) : Prop := q.Undotted ∧ q.reach ≤ n

variable {s : Settings} {n : Nat} {q next : Query}

theorem undotted_iff : q.Undotted ↔ (∀ field ∈ q.clauses.forced, segmentCount field = 1) ∧
    ∀ entry ∈ q.children, entry.2.Undotted := by
  constructor
  · rintro ⟨forced, children⟩
    exact ⟨forced, children⟩
  · exact fun h => .intro h.1 h.2

theorem fits_iff : q.Fits n ↔ (∀ field ∈ q.clauses.forced, segmentCount field = 1) ∧
    (∀ field ∈ q.clauses.listed, segmentCount field ≤ n + 1) ∧
    ∀ entry ∈ q.children, ∃ below, n = below + 1 ∧ entry.2.Fits below := by
  have entries : (∀ entry ∈ q.children, ∃ below, n = below + 1 ∧ entry.2.Fits below) ↔
      (∀ entry ∈ q.children, entry.2.Undotted) ∧ ∀ entry ∈ q.children, entry.2.reach + 1 ≤ n := by
    constructor
    · intro h
      refine ⟨fun entry held => ?_, fun entry held => ?_⟩
      · obtain ⟨below, -, fits⟩ := h entry held
        exact fits.1
      · obtain ⟨below, rfl, fits⟩ := h entry held
        exact Nat.succ_le_succ fits.2
    · rintro ⟨undotted, reaches⟩ entry held
      have room := reaches entry held
      exact ⟨n - 1, by omega, undotted entry held, by omega⟩
  have reach : q.reach ≤ n ↔ (∀ field ∈ q.clauses.listed, segmentCount field ≤ n + 1) ∧
      ∀ entry ∈ q.children, entry.2.reach + 1 ≤ n := by
    rw [← Clauses.longest_le_iff, ← Nat.sub_le_iff_le_add]
    exact peak_le_iff
  rw [Fits, undotted_iff, reach, entries]
  tauto

theorem Undotted.fits (h : q.Undotted) : q.Fits q.reach := ⟨h, Nat.le_refl _⟩

/-! ## Queries that fit -/

theorem Fits.congr (h : q.Fits n) (clauses : next.clauses = q.clauses)
    (children : next.children = q.children) : next.Fits n := by
  rw [fits_iff] at h ⊢
  rwa [clauses, children]

theorem Fits.child (h : q.Fits n) {mount : Mount} {child : Query}
    (found : q.children.lookup mount = some child) : ∃ below, n = below + 1 ∧ child.Fits below :=
  (fits_iff.mp h).2.2 _ (Keyed.mem_of_lookup found)

theorem Fits.modifyChild (h : q.Fits n) {mount : Mount} {change : Query → Query}
    (changes : ∀ child below, q.children.lookup mount = some child → n = below + 1 →
      child.Fits below → (change child).Fits below) : (q.modifyChild mount change).Fits n := by
  obtain ⟨forced, listed, children⟩ := fits_iff.mp h
  refine fits_iff.mpr ⟨forced, listed, fun entry held => ?_⟩
  rcases Keyed.mem_modify held with old | ⟨child, found, rfl⟩
  · exact children entry old
  · obtain ⟨below, room, fits⟩ := h.child found
    exact ⟨below, room, changes child below found room fits⟩

theorem mem_listed_addField {text field : String} (h : field ∈ (q.addField text).clauses.listed) :
    field ∈ q.clauses.listed ∨ field ∈ splitFields text := by
  unfold addField select at h
  split at h
  · exact .inl h
  · split at h
    · exact .inl h
    · simp only [edit, Clauses.listed, List.flatMap_append, List.flatMap_singleton, List.mem_append]
        at h ⊢
      rcases h with (old | new) | relative
      · exact .inl (.inl old)
      · exact .inr new
      · exact .inl (.inr relative)

theorem frame_addField (text : String) (q : Query) :
    (q.addField text).clauses.forced = q.clauses.forced ∧
      (q.addField text).children = q.children := by
  unfold addField select
  repeat' split
  all_goals exact ⟨rfl, rfl⟩

theorem Fits.addField (h : q.Fits n) {text : String} (short : segmentCount text ≤ n + 1) :
    (q.addField text).Fits n := by
  obtain ⟨forced, listed, children⟩ := fits_iff.mp h
  obtain ⟨sameForced, sameChildren⟩ := frame_addField text q
  refine fits_iff.mpr ⟨by rwa [sameForced], fun field held => ?_, by rwa [sameChildren]⟩
  rcases mem_listed_addField held with old | new
  · exact listed field old
  · exact (segmentCount_le_of_mem_splitFields new).trans short

theorem fits_newChild (s : Schema) (target : String) {foreignKey : String}
    (undotted : segmentCount foreignKey = 1) (n : Nat) :
    (newChild s target foreignKey).Fits n := by
  refine fits_iff.mpr ⟨fun field held => ?_, ?_, ?_⟩
  · rw [List.mem_singleton.mp held]
    exact undotted
  · simp [newChild, setSource, edit, Clauses.listed]
  · simp [newChild, setSource, edit]

theorem Fits.openChild (h : q.Fits (n + 1)) (s : Schema) (mount : Mount) (target : String)
    {foreignKey : String} (undotted : segmentCount foreignKey = 1) :
    (q.openChild s mount target foreignKey).Fits (n + 1) := by
  obtain ⟨forced, listed, children⟩ := fits_iff.mp h
  refine fits_iff.mpr ⟨forced, listed, fun entry held => ?_⟩
  rcases Keyed.mem_putNew held with old | rfl
  · exact children entry old
  · exact ⟨n, rfl, fits_newChild s target undotted n⟩

/-! ## Forwarding -/

theorem origin_of_hop {base : Entity} {r : Resolution} {c : Clauses} {bindings : List Binding}
    {excluded : Bool} {hop : Hop} (hb : base ∈ s.schema.entities)
    (resolved : s.Resolved base c bindings r) (h : hop ∈ r.hops excluded) :
    ∃ field i, (field ∈ c.forced ∨ field ∈ c.listed) ∧ s.Follows base .select field i ∧
      i.excluded = excluded ∧ i.hop? = some hop := by
  obtain ⟨i, hi, goes⟩ := List.mem_filterMap.mp h
  obtain ⟨hi, same⟩ := List.mem_filter.mp hi
  have same := eq_of_beq same
  rcases List.mem_append.mp hi with forced | field
  · obtain ⟨field, held, follows⟩ := exists_of_forall₂ resolved.forced forced
    exact ⟨field, i, .inl held, follows, same, goes⟩
  · obtain ⟨field, held, follows⟩ := exists_of_forall₂ resolved.fields field
    refine ⟨field, i, .inr ?_, follows, same, goes⟩
    rcases c.mem_fields held with listed | rfl
    · exact listed
    · have shorter := (follows.segmentCount_lt hb goes).1
      have star : segmentCount "*" = 1 := by decide
      rw [segmentCount_eq, star] at shorter
      omega

theorem forward_induction {P : Query → Prop} {r : Resolution} (h : P q)
    (plain : ∀ middle, P middle → ∀ hop ∈ r.hops false, P (middle.forwardPlain s.schema hop))
    (excluded : ∀ middle, P middle → ∀ hop ∈ r.hops true, P (middle.forwardExcluded hop)) :
    P (q.forward s.schema r) := by
  apply List.foldlRecOn
  · apply List.foldlRecOn
    · exact h
    · exact plain
  · exact excluded

theorem Fits.forward (undotted : s.schema.Undotted) (h : q.Fits n) {base : Entity} {r : Resolution}
    {bindings : List Binding} (hb : base ∈ s.schema.entities)
    (resolved : s.Resolved base q.clauses bindings r) : (q.forward s.schema r).Fits n := by
  have short : ∀ {excluded : Bool}, ∀ hop ∈ r.hops excluded,
      segmentCount hop.foreignKey = 1 ∧ segmentCount hop.field ≤ n ∧ ∃ below, n = below + 1 := by
    intro excluded hop held
    obtain ⟨field, i, origin, follows, -, goes⟩ := origin_of_hop hb resolved held
    obtain ⟨shorter, e, he, name, isToMany⟩ := follows.segmentCount_lt hb goes
    refine ⟨segmentCount_eq_one_iff.mpr (undotted e he name _ _ isToMany), ?_⟩
    have positive := segmentCount_eq hop.field
    obtain ⟨forced, listed, -⟩ := fits_iff.mp h
    rcases origin with ho | ho
    · have one := forced field ho
      omega
    · have most := listed field ho
      exact ⟨by omega, n - 1, by omega⟩
  refine forward_induction h (fun middle fits hop held => ?_) fun middle fits hop held => ?_
  · obtain ⟨key, field, below, rfl⟩ := short hop held
    refine (fits.openChild s.schema hop.mount hop.target key).modifyChild ?_
    intro child _ _ room inner
    exact inner.addField (room ▸ field)
  · obtain ⟨-, field, -⟩ := short hop held
    refine fits.modifyChild fun child _ _ room inner => inner.addField ?_
    rw [segmentCount_excluded]
    exact room ▸ field

def ChildrenList (P : Mount → String → Prop) (q : Query) : Prop :=
  ∀ mount child, q.children.lookup mount = some child → ∀ field ∈ child.clauses.listed,
    P mount field

variable {P : Mount → String → Prop}

theorem ChildrenList.openChild (h : q.ChildrenList P) (s : Schema) (mount : Mount)
    (target foreignKey : String) : (q.openChild s mount target foreignKey).ChildrenList P := by
  intro other child found field listed
  rw [Query.openChild, Keyed.putNew] at found
  dsimp only at found
  split at found
  · exact h other child found field listed
  · rw [List.lookup_append, Option.or_eq_some_iff] at found
    rcases found with old | ⟨-, new⟩
    · exact h other child old field listed
    · obtain ⟨-, rfl⟩ := Prod.mk.inj (List.mem_singleton.mp (Keyed.mem_of_lookup new))
      simp [newChild, setSource, edit, Clauses.listed] at listed

theorem ChildrenList.addField (h : q.ChildrenList P) {mount : Mount} {text : String}
    (new : ∀ field ∈ splitFields text, P mount field) :
    (q.modifyChild mount (addField text)).ChildrenList P := by
  intro other child found field listed
  rw [modifyChild, Keyed.lookup_modify] at found
  split at found
  · next here =>
    subst here
    obtain ⟨held, before, rfl⟩ := Option.map_eq_some_iff.mp found
    rcases mem_listed_addField listed with old | added
    · exact h other held before field old
    · exact new field added
  · exact h other child found field listed

/-- Compiling gives a child nothing but what fields of its owner go on with to it, and each of them
has fewer segments than the field that it comes from. -/
def Shortens (s : Settings) (q : Query) : Prop :=
  ∀ compiled next, q.compile s = .ok (compiled, next) → ∃ base, q.base? s.schema = some base ∧
    next.ChildrenList fun mount field =>
      (∃ child, q.children.lookup mount = some child ∧ field ∈ child.clauses.listed) ∨
        ∃ origin, (origin ∈ q.clauses.forced ∨ origin ∈ q.clauses.listed) ∧
          s.Forwards base origin mount field ∧ segmentCount field < segmentCount origin

theorem shortens (s : Settings) (q : Query) : q.Shortens s := by
  intro compiled next h
  obtain ⟨base, r, root, hr, rfl, -⟩ := compileWith_ok h
  have hb := mem_of_base? root
  have origin : ∀ {excluded : Bool}, ∀ hop ∈ r.hops excluded,
      ∀ field ∈ splitFields (if excluded then "!" ++ hop.field else hop.field),
      ∃ origin, (origin ∈ q.clauses.forced ∨ origin ∈ q.clauses.listed) ∧
        s.Forwards base origin hop.mount field ∧ segmentCount field < segmentCount origin := by
    intro excluded hop held field among
    obtain ⟨origin, i, recorded, follows, rfl, goes⟩ :=
      origin_of_hop hb (Settings.check_ok hr) held
    have forwards : s.Forwards base origin hop.mount field := ⟨i, hop, follows, goes, rfl, among⟩
    exact ⟨origin, recorded, forwards, forwards.segmentCount_lt hb⟩
  refine ⟨base, root, ?_⟩
  refine forward_induction (fun mount child found field held => .inl ⟨child, found, held⟩)
    (fun middle lists hop held => ?_) fun middle lists hop held => ?_
  · have opened := lists.openChild s.schema hop.mount hop.target hop.foreignKey
    exact opened.addField fun field among => .inr (origin hop held field among)
  · exact lists.addField fun field among => .inr (origin hop held field among)

/-! ## Runs -/

section runs

variable (undotted : s.schema.Undotted)

include undotted

theorem Fits.build (h : q.Fits n) : (q.build s).2.Fits n := by
  unfold Query.build
  split
  · exact h
  · split
    · next compiled next hc =>
      obtain ⟨base, r, hb, hr, rfl, -⟩ := compileWith_ok hc
      exact (h.forward undotted (mem_of_base? hb) (Settings.check_ok hr)).congr rfl rfl
    · exact h

theorem Fits.buildFor (h : q.Fits n) (link : Link) (keys : List Value) :
    ((q.setOwnerKeys link keys).build s).2.Fits n :=
  Fits.build undotted (h.congr rfl rfl)

theorem Fits.fetchChild {fetch : Fetch}
    (hf : ∀ {compiled q d n}, q.Fits n → (fetch compiled q d).query.Fits n) (h : q.Fits n)
    (link : Link) (keys : List Value) (d : Database) :
    (fetchChild s fetch link keys q d).query.Fits n := by
  have fits := h.buildFor undotted link keys
  unfold Query.fetchChild
  cases hb : (q.setOwnerKeys link keys).build s with
  | mk result next =>
      rw [hb] at fits
      cases result with
      | error faults => exact fits
      | ok compiled => exact hf fits

theorem Fits.fetchMounts {fetch : Fetch}
    (hf : ∀ {compiled q d n}, q.Fits n → (fetch compiled q d).query.Fits n) (rows : List Row)
    (mounts : List MountPlan) (groups : Groups) (h : q.Fits n) (d : Database) :
    (fetchMounts s fetch rows mounts groups q d).query.Fits n := by
  induction mounts generalizing groups q d with
  | nil => exact h
  | cons m rest ih =>
      rcases fetchMounts_cons s rows m rest q with
        skip | ⟨child, link, keys, found, -, stopped, went⟩
      · rw [skip]
        exact ih _ h _
      · have ran : (q.modifyChild m.mount fun _ =>
            (Query.fetchChild s fetch link keys child d).query).Fits n := by
          refine h.modifyChild fun held below there _ fits => ?_
          rw [found, Option.some.injEq] at there
          subst there
          exact fits.fetchChild undotted hf link keys d
        cases hr : (Query.fetchChild s fetch link keys child d).result with
        | error f =>
            rw [stopped hr]
            exact ran
        | ok group =>
            rw [went hr]
            exact ih _ ran _

theorem Fits.fetchWithin (c : Connection) (depth : Nat) (h : q.Fits n) (compiled : Compiled)
    (d : Database) : (fetchWithin s c depth compiled q d).query.Fits n := by
  induction depth generalizing compiled q d n with
  | zero =>
      unfold Query.fetchWithin
      split <;> exact h
  | succ depth ih =>
      unfold Query.fetchWithin
      split
      · exact h
      · exact Fits.fetchMounts undotted (fun fits => ih fits _ _) _ _ _ h _

theorem Fits.exec (h : q.Fits n) (c : Connection) (d : Database) :
    (q.exec s c d).query.Fits n := by
  have built := h.build undotted
  unfold Query.exec
  split
  · exact h
  · cases hb : q.build s with
    | mk result next =>
        rw [hb] at built
        cases result with
        | error faults => exact built
        | ok compiled =>
            dsimp only
            split
            · split
              · rwa [query_stream]
              · exact built
            · rw [query_collect]
              exact built.fetchWithin undotted c _ compiled d

end runs

/-! ## Calls -/

theorem Undotted.congr (h : q.Undotted) (forced : next.clauses.forced = q.clauses.forced)
    (children : next.children = q.children) : next.Undotted := by
  rw [undotted_iff] at h ⊢
  rwa [forced, children]

theorem Undotted.child (h : q.Undotted) {mount : Mount} {child : Query}
    (found : q.children.lookup mount = some child) : child.Undotted :=
  (undotted_iff.mp h).2 _ (Keyed.mem_of_lookup found)

theorem Undotted.modifyChild (h : q.Undotted) {mount : Mount} {change : Query → Query}
    (changes : ∀ child, q.children.lookup mount = some child → child.Undotted →
      (change child).Undotted) : (q.modifyChild mount change).Undotted := by
  obtain ⟨forced, children⟩ := undotted_iff.mp h
  refine .intro forced fun entry held => ?_
  rcases Keyed.mem_modify held with old | ⟨child, found, rfl⟩
  · exact children entry old
  · exact changes child found (h.child found)

theorem Undotted.openChild (h : q.Undotted) (s : Schema) (mount : Mount) (target : String)
    {foreignKey : String} (undotted : segmentCount foreignKey = 1) :
    (q.openChild s mount target foreignKey).Undotted := by
  obtain ⟨forced, children⟩ := undotted_iff.mp h
  refine .intro forced fun entry held => ?_
  rcases Keyed.mem_putNew held with old | rfl
  · exact children entry old
  · exact (fits_newChild s target undotted 0).1

theorem levels_relation {e : Entity} (he : e ∈ s.schema.entities) (expression last : String)
    (owner : Path) (parts : List String) :
    ∀ level ∈ (s.levels expression last e owner parts).1, ∃ e ∈ s.schema.entities, ∃ name,
      e.property? name = some (.toMany level.target level.foreignKey) := by
  induction parts generalizing e owner with
  | nil => simp [Settings.levels]
  | cons part rest ih =>
      unfold Settings.levels
      split
      · simp
      · simp
      · split
        · simp
        · next next found => exact ih (Schema.mem_of_entity? found) _
      · next target foreignKey isToMany =>
        have first : ∃ e ∈ s.schema.entities, ∃ name,
            e.property? name = some (.toMany target foreignKey) := ⟨e, he, part, isToMany⟩
        dsimp only
        split
        · simpa using first
        · split
          · simpa using first
          · next next found =>
            exact List.forall_mem_cons.mpr ⟨first, ih (Schema.mem_of_entity? found) .root⟩

theorem Undotted.openLevels {levels : List Level} (h : q.Undotted) (schema : Schema)
    (undotted : ∀ level ∈ levels, segmentCount level.foreignKey = 1) :
    (q.openLevels schema levels).Undotted := by
  induction levels generalizing q with
  | nil => exact h
  | cons level rest ih =>
      rw [List.forall_mem_cons] at undotted
      have related : (q.addRelation level.mount.owner).Undotted := by
        unfold addRelation
        split
        · exact h
        · exact h.congr rfl rfl
      exact (related.openChild schema level.mount level.target undotted.1).modifyChild
        fun child _ inner => ih inner undotted.2

theorem Undotted.toMany (undotted : s.schema.Undotted) (h : q.Undotted) (path : String) :
    (q.toMany s path).2.Undotted := by
  have keys : ∀ level ∈ (q.levels s path).1, segmentCount level.foreignKey = 1 := by
    unfold levels
    split
    · simp
    · split
      · simp
      · next base found =>
        intro level held
        obtain ⟨e, he, name, isToMany⟩ :=
          levels_relation (Schema.mem_of_entity? found) path _ .root _ level held
        exact segmentCount_eq_one_iff.mpr (undotted e he name _ _ isToMany)
  unfold Query.toMany
  dsimp only
  split <;> exact h.openLevels s.schema keys

theorem Call.undotted {s : Settings} (schema : s.schema.Undotted) :
    ∀ {q next : Query}, Call s q next → q.Undotted → next.Undotted
  | _, _, .setSource entity, h => by
      unfold Query.setSource
      split <;> exact h.congr rfl rfl
  | _, _, .select fields, h => by
      unfold Query.select
      split
      · exact h
      · exact h.congr rfl rfl
  | _, _, .selectWith .., h => h.congr rfl rfl
  | _, _, .selectExpression _, h => h.congr rfl rfl
  | _, _, .filter .., h => h.congr rfl rfl
  | _, _, .having .., h => h.congr rfl rfl
  | _, _, .order _, h => h.congr rfl rfl
  | _, _, .group _, h => h.congr rfl rfl
  | _, _, .limitWith .., h => h.congr rfl rfl
  | _, _, .limit _, h => h.congr rfl rfl
  | _, _, .distinct, h => h.congr rfl rfl
  | _, _, .options _, h => h.congr rfl rfl
  | _, _, .index _, h => h.congr rfl rfl
  | _, _, .countWithoutLimit, h => h.congr rfl rfl
  | _, _, .listen _, h => h.congr rfl rfl
  | _, _, .toMany path, h => h.toMany schema path
  | _, _, .build, h => (h.fits.build schema).1
  | _, _, .exec c d, h => (h.fits.exec schema c d).1
  | _, _, .child found call, h => by
      refine h.modifyChild fun child there inner => ?_
      rw [found, Option.some.injEq] at there
      exact call.undotted schema (there ▸ inner)

theorem Reached.undotted {s : Settings} (schema : s.schema.Undotted) :
    ∀ {q : Query}, Reached s q → q.Undotted
  | _, .child reached found => (reached.undotted schema).child found
  | _, .call reached step => step.undotted schema (reached.undotted schema)
  | _, .new => .intro (by simp) (by simp)

theorem Fits.depth_le (h : q.Fits n) : q.depth ≤ n := q.reach_bounds.1.trans h.2

end Query
end RowGraph
