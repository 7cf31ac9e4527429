import RowGraph.Proofs.Memo
import RowGraph.Proofs.Rerun
import RowGraph.Proofs.Selection

/-!
# Forwarded fields

A field that goes on through a toMany property is given to the child there, and the rest of it is
read again. First the named fields are forwarded, the ones that a child has already to no effect
(`foldl_forwardPlain_distinct`), and then the excluded ones, each as a text of its own
(`lookup_foldl_forwardExcluded`). The text is split at commas, so that only a rest without a comma
excludes what it names and nothing else (`reads_excluded`).
-/

namespace RowGraph

deriving instance DecidableEq for Hop

/-! ## Fields with a comma -/

def Hop.isJoined (hop : Hop) : Bool := hop.field.toList.contains ','

theorem exists_of_mem_intercalate {c : Char} (other : c ≠ '.') {parts : List String}
    (h : c ∈ (String.intercalate "." parts).toList) : ∃ part ∈ parts, c ∈ part.toList := by
  induction parts with
  | nil => cases h
  | cons part rest ih =>
      rcases rest with _ | ⟨next, more⟩
      · rw [String.intercalate_singleton] at h
        exact ⟨part, List.mem_cons_self .., h⟩
      · rw [String.intercalate_cons_of_ne_nil (by simp), toList_dotted, List.mem_append,
          List.mem_cons] at h
        rcases h with h | rfl | h
        · exact ⟨part, List.mem_cons_self .., h⟩
        · exact absurd rfl other
        · obtain ⟨held, hm, hc⟩ := ih h
          exact ⟨held, List.mem_cons_of_mem _ hm, hc⟩

theorem mem_of_mem_trim {c : Char} {text : String} (h : c ∈ (Text.trim text).toList) :
    c ∈ text.toList := by
  rw [Text.trim, String.toList_ofList] at h
  exact Text.trimChars_subset _ h

theorem mem_of_mem_pathParts {c : Char} {path part : String} (hp : part ∈ pathParts path)
    (h : c ∈ part.toList) : c ∈ path.toList := by
  rw [pathParts_eq, List.mem_map] at hp
  obtain ⟨chars, hm, rfl⟩ := hp
  obtain ⟨piece, hpiece, rfl⟩ := List.mem_map.mp hm
  rw [String.toList_ofList] at h
  exact Text.subset_of_mem_pieces hpiece (Text.trimChars_subset _ h)

theorem not_comma_of_mem_splitFields {list field : String} (h : field ∈ splitFields list) :
    ',' ∉ field.toList := by
  intro comma
  obtain ⟨piece, hp, rfl⟩ := List.mem_map.mp h
  obtain ⟨chars, hc, rfl⟩ := List.mem_map.mp hp
  have mem := mem_of_mem_trim comma
  rw [String.toList_ofList] at mem
  exact Text.not_mem_of_mem_pieces hc mem

theorem mem_of_mem_readField {c : Char} {field : String} (h : c ∈ (readField field).name.toList) :
    c ∈ field.toList := by
  apply mem_of_mem_trim
  unfold readField at h
  split at h
  · next rest chars =>
    have mem := mem_of_mem_trim h
    rw [String.toList_ofList] at mem
    rw [chars]
    exact List.mem_cons_of_mem _ mem
  · rwa [String.toList_ofList] at h

theorem isJoined_of_not_comma {field : String} (h : ',' ∉ field.toList) :
    (readField field).isJoined = false := by
  have none : (readField field).name.toList.contains ',' = false := by
    rw [Bool.eq_false_iff, ne_eq, List.contains_iff_mem]
    exact fun comma => h (mem_of_mem_readField comma)
  rw [Read.isJoined, none, Bool.and_false]

theorem not_isJoined_of_not_comma {fields : List String}
    (h : ∀ field ∈ fields, ',' ∉ field.toList) : (reads fields).filter (·.isJoined) = [] := by
  refine List.filter_eq_nil_iff.mpr fun read hr => ?_
  obtain ⟨field, hf, rfl⟩ := List.mem_map.mp hr
  rw [isJoined_of_not_comma (h field hf)]
  exact Bool.false_ne_true

theorem not_comma_relativeField {path field : String} (hp : ',' ∉ path.toList)
    (hf : ',' ∉ field.toList) : ',' ∉ (relativeField path field).toList := by
  unfold relativeField
  split
  · simp
  · next rest chars =>
    rw [chars, List.mem_cons, not_or] at hf
    have trimmed : ',' ∉ (Text.trim (String.ofList rest)).toList := by
      intro comma
      have mem := mem_of_mem_trim comma
      rw [String.toList_ofList] at mem
      exact hf.2 mem
    rw [toList_dotted, String.toList_append, List.mem_append, List.mem_append, List.mem_cons]
    simp [hp, trimmed]
  · rw [toList_dotted, List.mem_append, List.mem_cons]
    simp [hp, hf]

theorem toList_excluded (field : String) : ("!" ++ field).toList = [] ++ '!' :: field.toList :=
  String.toList_append

theorem readField_excluded (field : String) :
    readField (Text.trim ("!" ++ field)) = ⟨true, Text.trim field⟩ := by
  have chars : (Text.trim (Text.trim ("!" ++ field))).toList =
      '!' :: Text.trimBack field.toList := by
    rw [Text.trim, Text.trim, String.toList_ofList, String.toList_ofList, toList_excluded,
      Text.trimChars_append_cons (by decide), Text.trimFront, List.dropWhile_nil,
      Text.trimChars_append_cons (by decide), Text.trimFront, List.dropWhile_nil, List.nil_append,
      Text.trimBack_trimBack]
  have rest : Text.trim (String.ofList (Text.trimBack field.toList)) = Text.trim field := by
    rw [Text.trim, Text.trim, String.toList_ofList, Text.trimChars_trimBack]
  rw [readField, chars, ← rest]
  rfl

theorem splitFields_of_not_comma {list : String} (h : ',' ∉ list.toList) :
    splitFields list = [Text.trim list] := by
  rw [splitFields, Text.split, Text.pieces_of_not_mem h, List.map_singleton, List.map_singleton,
    String.ofList_toList]

theorem reads_excluded {field : String} (h : ',' ∉ field.toList) :
    reads (splitFields ("!" ++ field)) = [⟨true, Text.trim field⟩] := by
  have alone : ',' ∉ ("!" ++ field).toList := by
    rw [toList_excluded]
    simpa using h
  rw [splitFields_of_not_comma alone, reads, List.map_singleton, readField_excluded]

theorem not_isJoined_excluded (fields : List String) :
    (reads (fields.flatMap fun field => splitFields ("!" ++ field))).filter (·.isJoined) = [] := by
  refine not_isJoined_of_not_comma fun part hp => ?_
  obtain ⟨field, -, hp⟩ := List.mem_flatMap.mp hp
  exact not_comma_of_mem_splitFields hp

theorem namedFields_excluded {fields others : List String}
    (joined : Keyed.distinct (fields.filter fun field => field.toList.contains ',') =
      Keyed.distinct (others.filter fun field => field.toList.contains ',')) :
    namedFields (fields.flatMap fun field => splitFields ("!" ++ field)) =
      namedFields (others.flatMap fun field => splitFields ("!" ++ field)) := by
  have named : ∀ list : List String,
      (reads (list.flatMap fun field => splitFields ("!" ++ field))).filter (!·.excluded) =
        (list.filter fun field => field.toList.contains ',').flatMap fun field =>
          (reads (splitFields ("!" ++ field))).filter (!·.excluded) := by
    intro list
    rw [reads, List.map_flatMap, List.filter_flatMap]
    apply flatMap_eq_flatMap_filter
    intro field _ plain
    have alone : ',' ∉ field.toList := by simpa using plain
    have read := reads_excluded alone
    rw [reads] at read
    rw [read]
    rfl
  rw [namedFields, namedFields, named, named]
  exact Keyed.distinct_flatMap_congr joined _

/-- An excluded field without a comma is read as just that, so that the order of such fields does
not matter to a child. -/
theorem sameSelection_excluded {fields others : List String}
    (mem : ∀ field, field ∈ fields ↔ field ∈ others)
    (joined : Keyed.distinct (fields.filter fun field => field.toList.contains ',') =
      Keyed.distinct (others.filter fun field => field.toList.contains ',')) :
    SameSelection (fields.flatMap fun field => splitFields ("!" ++ field))
      (others.flatMap fun field => splitFields ("!" ++ field)) := by
  refine ⟨namedFields_excluded joined, fun name => ?_, ?_⟩
  · simp only [reads, List.mem_map, List.mem_flatMap, mem]
  · rw [not_isJoined_excluded, not_isJoined_excluded]

/-! ## Hops of select lists -/

namespace Settings

variable {s : Settings} {base : Entity}

def hopOf? (s : Settings) (base : Entity) (read : Read) : Option Hop :=
  (s.itemOf? base read).bind Item.hop?

theorem comma_of_hopOf? {read : Read} {hop : Hop} (h : s.hopOf? base read = some hop)
    (joined : hop.isJoined = true) : ',' ∈ read.name.toList := by
  obtain ⟨i, found, goes⟩ := Option.bind_eq_some_iff.mp h
  unfold itemOf? at found
  split at found
  · cases found
  · obtain ⟨walk, hw, rfl⟩ := Option.map_eq_some_iff.mp found
    cases walked : s.walkField base .select read.name with
    | error fault => rw [walked] at hw; cases hw
    | ok w =>
        rw [walked] at hw
        cases hw
        obtain ⟨last, final, rest, -, parts, ends⟩ := walk_ok walked (fieldParts_ne_nil _)
        unfold Item.hop? at goes
        simp only at goes
        generalize walk.goal = goal at ends goes
        cases ends with
        | star | column | affix => cases goes
        | toMany =>
            cases goes
            have comma := List.contains_iff_mem.mp joined
            obtain ⟨part, hm, hc⟩ := exists_of_mem_intercalate (by decide) comma
            have mem : part ∈ pathParts read.name := by
              rw [pathParts, parts]
              exact List.mem_append_right _ (List.mem_cons_of_mem _ hm)
            exact mem_of_mem_pathParts mem hc

theorem itemOf?_star (s : Settings) (base : Entity) : s.itemOf? base ⟨false, "*"⟩ =
    some ⟨false, ⟨[], .columns (base.columns.map (Reference.plain .root))⟩⟩ := rfl

theorem quiet (s : Settings) (base : Entity) {fields : List String}
    (h : ∀ read ∈ (reads fields).filter (!·.excluded), read = ⟨false, "*"⟩) :
    (s.picks base fields).flatMap (·.needs true) = [] ∧
      ((reads fields).filter (!·.excluded)).filterMap (s.hopOf? base) = [] := by
  rw [needs_picks, List.flatMap_eq_nil_iff, List.filterMap_eq_nil_iff]
  constructor
  · intro read hr
    rw [h read hr, itemOf?_star]
    rfl
  · intro read hr
    rw [h read hr, hopOf?, itemOf?_star]
    rfl

end Settings

namespace Resolution

variable {s : Settings} {base : Entity} {r t : Resolution} {fields others : List String}

theorem hops_eq (picks : r.fields = s.picks base fields) (excluded : Bool) : r.hops excluded =
    (r.forced.filter (·.excluded == excluded)).filterMap Item.hop? ++
      ((reads fields).filter (·.excluded == excluded)).filterMap (s.hopOf? base) := by
  rw [hops, picks, List.filter_append, List.filterMap_append, Settings.picks,
    Settings.filter_itemOf? (· == excluded), List.filterMap_filterMap]
  rfl

theorem plainHops_eq (picks : r.fields = s.picks base fields) : r.hops false =
    (r.forced.filter (·.excluded == false)).filterMap Item.hop? ++
      ((reads fields).filter (!·.excluded)).filterMap (s.hopOf? base) := by
  have plain : ∀ read : Read, (read.excluded == false) = !read.excluded := by simp
  rw [hops_eq picks]
  simp only [plain]

variable (picks : r.fields = s.picks base fields) (same : t.fields = s.picks base others)
  (forced : t.forced = r.forced)

include picks same forced

theorem distinct_hops (named : namedFields fields = namedFields others) :
    Keyed.distinct (r.hops false) = Keyed.distinct (t.hops false) := by
  rw [plainHops_eq picks, plainHops_eq same, forced]
  exact Keyed.distinct_append_congr rfl (Keyed.distinct_filterMap_congr named _)

omit same forced in
theorem mem_excludedHops (hop : Hop) : hop ∈ r.hops true ↔
    hop ∈ (r.forced.filter (·.excluded == true)).filterMap Item.hop? ∨
      ∃ name, ⟨true, name⟩ ∈ reads fields ∧ s.hopOf? base ⟨true, name⟩ = some hop := by
  rw [hops_eq picks, List.mem_append]
  refine or_congr_right ?_
  simp only [List.mem_filterMap, List.mem_filter, beq_true]
  constructor
  · rintro ⟨⟨_ | _, name⟩, ⟨hr, mark⟩, goes⟩
    · cases mark
    · exact ⟨name, hr, goes⟩
  · rintro ⟨name, hr, goes⟩
    exact ⟨_, ⟨hr, rfl⟩, goes⟩

theorem joined_hops (joins : Keyed.distinct ((reads fields).filter (·.isJoined)) =
      Keyed.distinct ((reads others).filter (·.isJoined))) :
    Keyed.distinct ((r.hops true).filter (·.isJoined)) =
      Keyed.distinct ((t.hops true).filter (·.isJoined)) := by
  have joined : ∀ list : List Read,
      ((list.filter (·.excluded == true)).filterMap (s.hopOf? base)).filter (·.isJoined) =
        ((list.filter (·.isJoined)).filterMap (s.hopOf? base)).filter (·.isJoined) := by
    intro list
    simp only [List.filter_filterMap, List.filterMap_filter]
    refine List.filterMap_congr fun read _ => ?_
    cases mark : read.excluded with
    | false => simp [Read.isJoined, mark]
    | true =>
        by_cases comma : ',' ∈ read.name.toList
        · simp [Read.isJoined, mark, comma]
        · have none : (s.hopOf? base read).filter (·.isJoined) = none :=
            Option.filter_eq_none_iff.mpr fun hop found goes =>
              comma (Settings.comma_of_hopOf? found goes)
          simp [Read.isJoined, mark, comma, none]
  rw [hops_eq picks, hops_eq same, forced, List.filter_append, List.filter_append, joined, joined]
  apply Keyed.distinct_append_congr rfl
  apply Keyed.distinct_filter_congr
  exact Keyed.distinct_filterMap_congr joins _

end Resolution

/-! ## Texts of select lists -/

structure SameTexts (texts others : List String) : Prop where
  mem : ∀ text, text ∈ texts ↔ text ∈ others
  selection : SameSelection (texts.flatMap splitFields) (others.flatMap splitFields)

namespace SameTexts

variable {texts others : List String}

theorem refl (texts : List String) : SameTexts texts texts := ⟨fun _ => .rfl, .refl _⟩

theorem symm (h : SameTexts texts others) : SameTexts others texts :=
  ⟨fun text => (h.mem text).symm, h.selection.symm⟩

theorem trans {last : List String} (h : SameTexts texts others) (hl : SameTexts others last) :
    SameTexts texts last :=
  ⟨fun text => (h.mem text).trans (hl.mem text), h.selection.trans hl.selection⟩

theorem append {back more : List String} (h : SameTexts texts others) (hb : SameTexts back more) :
    SameTexts (texts ++ back) (others ++ more) where
  mem text := by simp only [List.mem_append, h.mem, hb.mem]
  selection := by
    rw [List.flatMap_append, List.flatMap_append]
    exact h.selection.append hb.selection

theorem append_of_subset {back : List String} (h : back ⊆ texts) :
    SameTexts texts (texts ++ back) where
  mem text := by
    rw [List.mem_append]
    exact ⟨.inl, fun hm => hm.elim id fun hm => h hm⟩
  selection := by
    rw [List.flatMap_append]
    refine .append_of_subset fun field hf => ?_
    obtain ⟨text, hm, hf⟩ := List.mem_flatMap.mp hf
    exact List.mem_flatMap.mpr ⟨text, h hm, hf⟩

theorem subset_iff (h : SameTexts texts others) {back more : List String}
    (hb : SameTexts back more) : back ⊆ texts ↔ more ⊆ others := by
  simp only [List.subset_def, h.mem, hb.mem]

end SameTexts

namespace Query

variable {s : Settings} {a b q middle next : Query}

/-! ## Queries with more fields -/

structure Adds (q next : Query) (texts : List String) : Prop where
  clauses : ∃ selects, next.clauses = { q.clauses with selects } ∧
    SameTexts selects (q.clauses.selects ++ texts)
  params : next.params = q.params
  faults : next.faults = q.faults
  link : next.link = q.link
  children : next.children = q.children
  kept : texts ⊆ q.clauses.selects → next.compiled = q.compiled
  dropped : ¬ texts ⊆ q.clauses.selects → next.compiled = none

theorem Adds.refl (q : Query) : q.Adds q [] where
  clauses := ⟨q.clauses.selects, rfl, by rw [List.append_nil]; exact .refl _⟩
  params := rfl
  faults := rfl
  link := rfl
  children := rfl
  kept _ := rfl
  dropped h := absurd (List.nil_subset _) h

theorem Adds.trans {texts more : List String} (h : q.Adds middle texts)
    (hn : middle.Adds next more) : q.Adds next (texts ++ more) := by
  obtain ⟨selects, clauses, same⟩ := h.clauses
  obtain ⟨others, further, again⟩ := hn.clauses
  rw [clauses] at again
  have mem : ∀ text, text ∈ middle.clauses.selects ↔ text ∈ q.clauses.selects ∨ text ∈ texts := by
    intro text
    rw [clauses, same.mem, List.mem_append]
  refine ⟨⟨others, by rw [further, clauses], ?_⟩, hn.params.trans h.params,
    hn.faults.trans h.faults, hn.link.trans h.link, hn.children.trans h.children, ?_, ?_⟩
  · rw [← List.append_assoc]
    exact again.trans (same.append (.refl more))
  · intro subset
    rw [List.append_subset] at subset
    rw [hn.kept fun text hm => (mem text).mpr (.inl (subset.2 hm)), h.kept subset.1]
  · intro new
    rw [List.append_subset, not_and_or] at new
    by_cases known : more ⊆ middle.clauses.selects
    · rw [hn.kept known]
      refine h.dropped (new.elim id fun some held => some fun text hm => ?_)
      exact ((mem text).mp (known hm)).elim id fun added => held added
    · exact hn.dropped known

theorem adds_addField {text : String} (nonblank : Text.trim text ≠ "") (q : Query) :
    q.Adds (q.addField text) [text] := by
  unfold addField
  split
  · next held =>
    have subset : [text] ⊆ q.clauses.selects := by simpa using held
    exact ⟨⟨q.clauses.selects, rfl, .append_of_subset subset⟩, rfl, rfl, rfl, rfl, fun _ => rfl,
      fun new => absurd subset new⟩
  · next new =>
    rw [select, if_neg (by simpa [String.isEmpty_iff] using nonblank)]
    exact ⟨⟨q.clauses.selects ++ [text], rfl, .refl _⟩, rfl, rfl, rfl, rfl,
      fun subset => absurd (subset (List.mem_singleton_self text)) new, fun _ => rfl⟩

def excludeFields (fields : List String) (q : Query) : Query :=
  fields.foldl (fun q field => q.addField ("!" ++ field)) q

theorem trim_excluded_ne (field : String) : Text.trim ("!" ++ field) ≠ "" := by
  intro blank
  have chars := congrArg String.toList blank
  rw [Text.trim, String.toList_ofList, toList_excluded,
    Text.trimChars_append_cons (by decide)] at chars
  simp at chars

theorem adds_excludeFields (fields : List String) (q : Query) :
    q.Adds (q.excludeFields fields) (fields.map ("!" ++ ·)) := by
  induction fields generalizing q with
  | nil => exact .refl q
  | cons field rest ih => exact (adds_addField (trim_excluded_ne field) q).trans (ih _)

/-! ## Children of a query -/

theorem ListsAt.openChild {mount : Mount} {field : String} (h : q.ListsAt mount field)
    (held : mount ∈ q.children.map Prod.fst) (s : Schema) (other : Mount)
    (target foreignKey : String) : (q.openChild s other target foreignKey).ListsAt mount field := by
  obtain ⟨child, found⟩ := Option.isSome_iff_exists.mp (Keyed.lookup_isSome_iff_mem.mpr held)
  have kept : (q.openChild s other target foreignKey).children.lookup mount = some child := by
    rw [Query.openChild, Keyed.putNew]
    split
    · exact found
    · rw [List.lookup_append, found, Option.some_or]
  intro third hc
  rw [kept] at hc
  cases hc
  exact h _ found

theorem foldl_forwardPlain_distinct (s : Schema) (hops : List Hop) (q : Query) :
    hops.foldl (forwardPlain s) q = (Keyed.distinct hops).foldl (forwardPlain s) q := by
  apply Keyed.foldl_distinct fun hop q => q.compiled = none ∧
    hop.mount ∈ q.children.map Prod.fst ∧ q.ListsAt hop.mount hop.field
  · intro q hop
    refine ⟨rfl, ?_, listsAt_modifyChild hop.mount hop.field _⟩
    exact (frames_modifyChild ..).mounts (mem_mounts_openChild ..)
  · rintro q hop other ⟨-, held, lists⟩
    refine ⟨rfl, (frames_forwardPlain s q other).mounts held, ?_⟩
    exact (lists.openChild held s other.mount other.target other.foreignKey).modifyChild _ _
  · rintro q hop ⟨fresh, held, lists⟩
    obtain ⟨child, found⟩ := Option.isSome_iff_exists.mp (Keyed.lookup_isSome_iff_mem.mpr held)
    rw [forwardPlain, openChild_eq_self s fresh found]
    exact modifyChild_eq_self fun child hc => (lists child hc).addField_eq

def restAt? (mount : Mount) (hop : Hop) : Option String :=
  if hop.mount = mount then some hop.field else none

theorem lookup_foldl_forwardExcluded (hops : List Hop) (q : Query) (mount : Mount) :
    (hops.foldl forwardExcluded q).children.lookup mount =
      (q.children.lookup mount).map (excludeFields (hops.filterMap (restAt? mount))) := by
  induction hops generalizing q with
  | nil => exact Option.map_id'.symm
  | cons hop rest ih =>
      rw [List.foldl_cons, ih, forwardExcluded, modifyChild, Keyed.lookup_modify]
      by_cases here : hop.mount = mount
      · rw [if_pos here.symm, List.filterMap_cons_some (by rw [restAt?, if_pos here]), here,
          Option.map_map]
        rfl
      · rw [if_neg (Ne.symm here), List.filterMap_cons_none (by rw [restAt?, if_neg here])]

theorem joined_restAt (hops : List Hop) (mount : Mount) :
    (hops.filterMap (restAt? mount)).filter (fun field => field.toList.contains ',') =
      (hops.filter (·.isJoined)).filterMap (restAt? mount) := by
  rw [List.filter_filterMap, List.filterMap_filter]
  refine List.filterMap_congr fun hop _ => ?_
  unfold restAt? Hop.isJoined
  by_cases here : hop.mount = mount
  · rw [if_pos here, Option.filter_some]
  · rw [if_neg here, Option.filter_none, ite_self]

theorem forwardPlain_congr {r t : Resolution} (children : b.children = a.children)
    (hops : Keyed.distinct (r.hops false) = Keyed.distinct (t.hops false)) (s : Schema) :
    Paired Eq ((r.hops false).foldl (forwardPlain s) a).children
      ((t.hops false).foldl (forwardPlain s) b).children := by
  rw [foldl_forwardPlain_distinct, foldl_forwardPlain_distinct s _ b, hops]
  apply Paired.forwardPlain (fun _ => rfl) fun field q next same => congrArg _ same
  rw [children]
  exact .refl (fun _ => rfl) a.children

theorem mounts_forward_congr {r t : Resolution} (children : b.children = a.children)
    (hops : Keyed.distinct (r.hops false) = Keyed.distinct (t.hops false)) (s : Schema) :
    (b.forward s t).children.map Prod.fst = (a.forward s r).children.map Prod.fst := by
  rw [forward, forward, mounts_foldl_forwardExcluded, mounts_foldl_forwardExcluded]
  exact (forwardPlain_congr children hops s).mounts

/-! ## Queries below -/

def restricted (keys : Option (List Value)) (q : Query) : Query :=
  match keys, q.link with
  | some keys, some link => q.setOwnerKeys link keys
  | _, _ => q

/-- The query at the end of some mounts. A step opens the children of each query on the way, and
each child is given the keys of its owners before, if there are any. -/
def descendant? (step : Query → Option Query) :
    List (Mount × Option (List Value)) → Query → Option Query
  | [], q => some q
  | (mount, keys) :: rest, q => (step q).bind fun next =>
      (next.children.lookup mount).bind fun child => (child.restricted keys).descendant? step rest

end Query
end RowGraph
