import RowGraph.Proofs.Resolution

/-!
# Columns that fields name

Which columns a field names can be read off its text: it names a column of the entity that its
bridges lead to (`Settings.Points`, `Follows.mem_references_iff`). The columns that the clauses of
a query request are those that its fields point to without exclusion, its index and its forced
fields (`Clauses.Requests`, `requested_iff`).
-/

namespace RowGraph

/-! ## The last part of a field -/

/-- The columns that the last part of a field names, each with the name it is reported under. -/
inductive Settings.Names (s : Settings) (place : Place) (e : Entity) :
    String → String → String → Prop where
  | column {name : String} (isColumn : e.hasColumn name) : Names s place e name name name
  | star {name : String} (select : place = .select) (isColumn : e.hasColumn name) :
      Names s place e "*" name name
  | affix {part column : String} (notStar : part ≠ "*") (unknown : e.property? part = none)
      (affixed : s.affixColumn? e part = some column) :
      Names s place e part column (if place = .expression then column else part)

def Settings.Points (s : Settings) (base : Entity) (place : Place) (parts path : List String)
    (column label : String) : Prop :=
  ∃ e part, parts = path ++ [part] ∧ s.schema.entityAt? base path = some e ∧
    s.Names place e part column label

theorem Settings.Names.hasColumn {s : Settings} {place : Place} {e : Entity}
    {part column label : String} (h : s.Names place e part column label) : e.hasColumn column := by
  cases h with
  | column isColumn => exact isColumn
  | star _ isColumn => exact isColumn
  | affix _ _ affixed =>
      rw [Settings.affixColumn?, Option.filter_eq_some_iff] at affixed
      exact affixed.2

theorem Settings.Ends.mem_references_iff {s : Settings} {place : Place} {e : Entity} {path : Path}
    {part : String} {w : Walk} (hs : s.schema.WellFormed) (he : e ∈ s.schema.entities)
    (h : s.Ends place e path [part] w.goal) {excluded : Bool} {r : Reference} :
    r ∈ (Item.mk excluded w).references ↔ r.path = path ∧ s.Names place e part r.column r.label := by
  obtain ⟨rpath, column, label⟩ := r
  cases hg : w.goal with
  | toMany hop =>
      rw [hg] at h
      cases h with
      | toMany _ _ goesOn => exact absurd rfl goesOn
  | columns references =>
      rw [hg] at h
      simp only [Item.references, hg]
      cases h with
      | star select =>
          simp only [List.mem_map, Reference.plain, Reference.mk.injEq]
          constructor
          · rintro ⟨name, hn, rfl, rfl, rfl⟩
            exact ⟨rfl, .star select ((hs.mem_columns he).mp hn)⟩
          · rintro ⟨rfl, hn⟩
            refine ⟨column, (hs.mem_columns he).mpr hn.hasColumn, rfl, rfl, ?_⟩
            cases hn with
            | column => rfl
            | star => rfl
            | affix notStar => exact absurd rfl notStar
      | column isColumn =>
          simp only [List.mem_singleton, Reference.plain, Reference.mk.injEq]
          constructor
          · rintro ⟨rfl, rfl, rfl⟩
            exact ⟨rfl, .column (Entity.hasColumn_iff.mpr isColumn)⟩
          · rintro ⟨rfl, hn⟩
            cases hn with
            | column => exact ⟨rfl, rfl, rfl⟩
            | star => exact absurd isColumn (by simp [hs.not_star he])
            | affix _ unknown => simp [isColumn] at unknown
      | affix notStar unknown affixed =>
          simp only [List.mem_singleton, Reference.mk.injEq]
          constructor
          · rintro ⟨rfl, rfl, rfl⟩
            exact ⟨rfl, .affix notStar unknown affixed⟩
          · rintro ⟨rfl, hn⟩
            cases hn with
            | column isColumn => simp [Entity.hasColumn_iff.mp isColumn] at unknown
            | star => exact absurd rfl notStar
            | affix _ _ other =>
                rw [affixed, Option.some.injEq] at other
                exact ⟨rfl, other.symm, by rw [other]⟩

/-! ## Fields -/

theorem Schema.eq_of_bridgePaths_nil {s : Schema} {base e last : Entity}
    {front back path : List String} {part : String} (hlast : s.entityAt? base front = some last)
    (hback : s.bridgePaths last back = []) (hne : back ≠ []) (heq : front ++ back = path ++ [part])
    (he : s.entityAt? base path = some e) : path = front ∧ back = [part] ∧ e = last := by
  rcases List.append_eq_append_iff.mp heq with ⟨more, rfl, hm⟩ | ⟨more, rfl, hm⟩
  · cases more with
    | nil =>
        rw [List.append_nil, hlast, Option.some.injEq] at he
        exact ⟨by simp, by simpa using hm, he.symm⟩
    | cons first rest =>
        rw [entityAt?_append, hlast, Option.bind_some] at he
        have : first :: rest ∈ s.bridgePaths last back :=
          mem_bridgePaths.mpr ⟨by simp, ⟨[part], hm.symm⟩, by rw [he]; rfl⟩
        rw [hback] at this
        cases this
  · cases more with
    | nil =>
        rw [List.append_nil, he, Option.some.injEq] at hlast
        exact ⟨by simp, by simpa using hm.symm, hlast⟩
    | cons first rest =>
        have hlength := congrArg List.length hm
        have hpos := List.length_pos_iff.mpr hne
        simp only [List.length_cons, List.length_append, List.length_nil] at hlength
        omega

namespace Settings.Follows

variable {s : Settings} {base : Entity} {place : Place} {field : String} {i : Item}

theorem mem_references_iff (hs : s.schema.WellFormed) (hb : base ∈ s.schema.entities)
    (h : s.Follows base place field i) {r : Reference} :
    r ∈ i.references ↔
      s.Points base place (itemPath field) r.path.bridges r.column r.label := by
  obtain ⟨last, final, rest, chain, hpath, ends⟩ := h.walk
  have hat := chain.entityAt?
  have hmem := Schema.entityAt?_mem hb hat
  have hfinal := chain.bridges_final hs.named hb
  rw [Path.bridges_root, List.nil_append] at hfinal
  constructor
  · intro hr
    have single : ∃ part, rest = [part] := by
      cases hg : i.walk.goal with
      | toMany hop => simp [Item.references, hg] at hr
      | columns references =>
          rw [hg] at ends
          cases ends <;> exact ⟨_, rfl⟩
    obtain ⟨part, rfl⟩ := single
    obtain ⟨hp, hn⟩ := (ends.mem_references_iff hs hmem).mp hr
    refine ⟨last, part, ?_, ?_, hn⟩
    · rw [hpath, hp, hfinal]
    · rw [hp, hfinal]
      exact hat
  · rintro ⟨e, part, heq, he, hn⟩
    obtain ⟨hsame, rfl, rfl⟩ := Schema.eq_of_bridgePaths_nil hat (ends.bridgePaths_eq hs hmem)
      ends.ne_nil (hpath.symm.trans heq) he
    exact (ends.mem_references_iff hs hmem).mpr ⟨Path.ext (hsame.trans hfinal.symm), hn⟩

theorem reference (h : s.Follows base place field i) (hp : place ≠ .select) :
    ∃ r, i.references = [r] := by
  obtain ⟨last, final, rest, -, -, ends⟩ := h.walk
  cases hg : i.walk.goal with
  | toMany hop =>
      rw [hg] at ends
      cases ends with
      | toMany select => exact absurd select hp
  | columns references =>
      rw [hg] at ends
      simp only [Item.references, hg]
      cases ends with
      | star select => exact absurd select hp
      | column => exact ⟨_, rfl⟩
      | affix => exact ⟨_, rfl⟩

theorem excluded_of_place (h : s.Follows base place field i) (hp : place ≠ .select) :
    i.excluded = false :=
  Bool.eq_false_iff.mpr fun excluded => hp (h.select excluded)

theorem plain (h : s.Follows base place field i) (hp : place ≠ .select) :
    isExclusion field = false :=
  h.excluded.symm.trans (h.excluded_of_place hp)

end Settings.Follows

/-! ## Requested columns -/

/-- The columns that the clauses of a query request, by path, column and reported name. -/
inductive Clauses.Requests (s : Settings) (base : Entity) (c : Clauses) :
    List String → String → String → Prop where
  | field {field column label : String} {path : List String} (listed : field ∈ c.fields)
      (plain : isExclusion field = false)
      (points : s.Points base .select (fieldPath field) path column label)
      (kept : ∀ other ∈ c.fields, isExclusion other = true →
        ∀ named, ¬ s.Points base .select (itemPath other) path column named) :
      Requests s base c path column label
  | index {name column label : String} {path : List String}
      (keyed : c.index = some (.field name))
      (points : s.Points base .index (fieldPath name) path column label) :
      Requests s base c path column label
  | forced {name : String} (listed : name ∈ c.forced) : Requests s base c [] name name

theorem Item.mem_references_of_reference? {i : Item} {ref : Reference}
    (h : i.reference? = some ref) : ref ∈ i.references := by
  unfold reference? at h
  split at h
  · next found held =>
    rw [held, List.mem_singleton]
    exact (Option.some.inj h).symm
  · cases h

theorem mem_selected {items : List Item} {r : Reference} :
    r ∈ selected items ↔ (∃ i ∈ items, i.excluded = false ∧ r ∈ i.references) ∧
      ∀ i ∈ items, i.excluded = true → ∀ x ∈ i.references, r.sameColumn x = false := by
  simp only [selected, Keyed.mem_distinct, List.mem_filter, List.mem_flatMap, Bool.not_eq_true',
    List.any_eq_false, Bool.not_eq_true, and_assoc]
  refine and_congr_right fun _ => ⟨fun h i hi hx x hr => h x ⟨i, hi, hx, hr⟩, ?_⟩
  rintro h x ⟨i, hi, hx, hr⟩
  exact h i hi hx x hr

theorem mem_selected_iff {s : Settings} {base : Entity} {fields : List String} {items : List Item}
    (hs : s.schema.WellFormed) (hb : base ∈ s.schema.entities)
    (h : List.Forall₂ (s.Follows base .select) fields items) {r : Reference} :
    r ∈ selected items ↔
      (∃ field ∈ fields, isExclusion field = false ∧
        s.Points base .select (fieldPath field) r.path.bridges r.column r.label) ∧
      ∀ other ∈ fields, isExclusion other = true →
        ∀ named, ¬ s.Points base .select (itemPath other) r.path.bridges r.column named := by
  rw [mem_selected]
  refine and_congr ⟨?_, ?_⟩ ⟨?_, ?_⟩
  · rintro ⟨i, hi, hx, hr⟩
    obtain ⟨field, hf, follows⟩ := exists_of_forall₂ h hi
    have plain : isExclusion field = false := by rw [← follows.excluded, hx]
    have points := (follows.mem_references_iff hs hb).mp hr
    rw [itemPath_of_not plain] at points
    exact ⟨field, hf, plain, points⟩
  · rintro ⟨field, hf, plain, points⟩
    obtain ⟨i, hi, follows⟩ := exists_of_forall₂ h.flip hf
    refine ⟨i, hi, by rw [follows.excluded, plain], ?_⟩
    rw [follows.mem_references_iff hs hb, itemPath_of_not plain]
    exact points
  · intro hkept other ho hexcl named points
    obtain ⟨i, hi, follows⟩ := exists_of_forall₂ h.flip ho
    have hx : i.excluded = true := by rw [follows.excluded, hexcl]
    have := hkept i hi hx { r with label := named } ((follows.mem_references_iff hs hb).mpr points)
    simp [Reference.sameColumn] at this
  · intro hkept i hi hx x hr
    obtain ⟨other, ho, follows⟩ := exists_of_forall₂ h hi
    have hexcl : isExclusion other = true := by rw [← follows.excluded, hx]
    have points := (follows.mem_references_iff hs hb).mp hr
    by_contra hsame
    simp only [Reference.sameColumn, Bool.not_eq_false, Bool.and_eq_true, decide_eq_true_eq] at hsame
    obtain ⟨hpath, hcolumn⟩ := hsame
    rw [← hpath, ← hcolumn] at points
    exact hkept other ho hexcl _ points

theorem PlainName.points_iff {s : Settings} {base : Entity} {name : String} (h : PlainName name)
    (hc : base.hasColumn name) {path : List String} {column label : String} :
    s.Points base .select (fieldPath name) path column label ↔
      path = [] ∧ column = name ∧ label = name := by
  rw [h.fieldPath_eq]
  constructor
  · rintro ⟨e, part, heq, he, hn⟩
    cases path with
    | cons first rest => simp at heq
    | nil =>
        simp only [List.nil_append, List.cons.injEq, and_true] at heq
        cases he
        subst heq
        cases hn with
        | column => exact ⟨rfl, rfl, rfl⟩
        | star => exact absurd rfl h.ne_star
        | affix _ unknown => simp [Entity.hasColumn_iff.mp hc] at unknown
  · rintro ⟨rfl, rfl, rfl⟩
    exact ⟨base, _, rfl, rfl, .column hc⟩

theorem mem_index_iff {s : Settings} {base : Entity} {index : Option Index} {item : Option Item}
    (hs : s.schema.WellFormed) (hb : base ∈ s.schema.entities) (h : s.Indexes base index item)
    {r : Reference} : r ∈ item.bind Item.reference? ↔ ∃ name, index = some (.field name) ∧
      s.Points base .index (fieldPath name) r.path.bridges r.column r.label := by
  cases h with
  | computed key => simp
  | none => simp
  | field follows =>
      obtain ⟨found, hfound⟩ := follows.reference (by decide)
      have hmem := follows.mem_references_iff hs hb (r := r)
      rw [itemPath_of_not (follows.plain (by decide)), hfound, List.mem_singleton] at hmem
      simp only [Option.bind_some, Item.reference?, hfound, Option.mem_def, Option.some.injEq,
        Index.field.injEq, exists_eq_left', ← hmem]
      exact eq_comm

theorem requested_iff {s : Settings} {base : Entity} {c : Clauses} {bindings : List Binding}
    {res : Resolution} (hs : s.schema.WellFormed) (hb : base ∈ s.schema.entities)
    (resolved : s.Resolved base c bindings res) (forced : ∀ name ∈ c.forced, base.hasColumn name)
    {r : Reference} :
    r ∈ res.requested ↔ c.Requests s base r.path.bridges r.column r.label := by
  have plain : ∀ name ∈ c.forced, PlainName name := fun name hn =>
    hs.plainName hb (Entity.hasColumn_iff.mp (forced name hn))
  rw [Resolution.requested, List.mem_append, List.mem_append, mem_selected_iff hs hb resolved.fields,
    mem_selected_iff hs hb resolved.forced]
  constructor
  · rintro ((⟨⟨field, hf, hplain, points⟩, kept⟩ | ⟨⟨name, hn, -, points⟩, -⟩) | hindex)
    · exact .field hf hplain points kept
    · obtain ⟨hpath, hcolumn, hlabel⟩ := ((plain name hn).points_iff (forced name hn)).mp points
      rw [hpath, hcolumn, hlabel]
      exact .forced hn
    · obtain ⟨name, keyed, points⟩ := (mem_index_iff hs hb resolved.index).mp (by simpa using hindex)
      exact .index keyed points
  · intro h
    generalize hpath : r.path.bridges = path at h
    generalize hcolumn : r.column = column at h
    generalize hlabel : r.label = label at h
    cases h with
    | field hf hplain points kept =>
        subst hpath hcolumn hlabel
        exact .inl (.inl ⟨⟨_, hf, hplain, points⟩, kept⟩)
    | index keyed points =>
        subst hpath hcolumn hlabel
        exact .inr (by simpa using (mem_index_iff hs hb resolved.index).mpr ⟨_, keyed, points⟩)
    | forced hn =>
        have points := ((plain _ hn).points_iff (s := s) (forced _ hn)).mpr ⟨rfl, rfl, rfl⟩
        refine .inl (.inr ⟨⟨_, hn, (plain _ hn).isExclusion, points⟩, ?_⟩)
        intro other ho hexcl
        rw [(plain _ ho).isExclusion] at hexcl
        cases hexcl

end RowGraph
