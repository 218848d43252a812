import Settle.Storage.Layouts
import Settle.Schema.ColumnTypes

/-!
# The format check

What `format::check` accepts, what it stamps, and what a check says after the stamp is committed
(`formatCheck_exact`). A stored text describes at most one content of a kind (`StoredAs.unique`),
also with the form of a view layout from before GROUP BY left it.
-/

namespace Settle

open Std

/-! ## What storage lacks -/

/-- The stored version is the current one, or it lacks and so does data. -/
def VersionOk (store : Store) (hasData : Bool) : Prop :=
  store.metas[metaFormatVersion]? = some (.number formatVersion) ∨
    store.metas[metaFormatVersion]? = none ∧ hasData = false

/-- The layouts that storage lacks. -/
def missingLayouts [SerdeJson] (store : Store) (objects : List SchemaObject) : Stamp :=
  (objects.filter fun o => store.metas[o.layout.metaKey]?.isNone).map fun o =>
    (o.layout.metaKey, .text o.content.text)

/-- `write_stamp`. -/
def writeStamp (stamp : Stamp) : WriteBatch := stamp.map fun (key, value) => .putMeta key value

/-- The version, if storage lacks it. -/
def missingVersion (store : Store) : Stamp :=
  if store.metas[metaFormatVersion]?.isNone then [(metaFormatVersion, .number formatVersion)]
  else []

theorem missingLayouts_cons [SerdeJson] (store : Store) (o : SchemaObject) (objects : List SchemaObject) :
    missingLayouts store (o :: objects) =
      missingLayouts store [o] ++ missingLayouts store objects := by
  rw [missingLayouts, missingLayouts, missingLayouts, ← List.map_append, ← List.filter_append]
  rfl

/-! ## The commit of the stamp -/

theorem commit_metas_of_not_mem {stamp : Stamp} {key : String} (hkey : key ∉ stamp.map Prod.fst)
    (store : Store) : (store.commit (writeStamp stamp)).metas[key]? = store.metas[key]? := by
  induction stamp generalizing store with
  | nil => rfl
  | cons entry stamp ih =>
    rw [List.map_cons, List.mem_cons, not_or] at hkey
    rw [writeStamp, List.map_cons, Store.commit_cons]
    refine (ih hkey.2 _).trans ?_
    rw [Store.apply, ExtTreeMap.getElem?_insert, if_neg]
    exact fun heq => hkey.1 (LawfulEqCmp.eq_of_compare heq).symm

theorem commit_metas_of_mem {stamp : Stamp} (hnodup : (stamp.map Prod.fst).Nodup) {key : String}
    {d : Datum} (hmem : (key, d) ∈ stamp) (store : Store) :
    (store.commit (writeStamp stamp)).metas[key]? = some d := by
  induction stamp generalizing store with
  | nil => cases hmem
  | cons entry stamp ih =>
    rw [List.map_cons, List.nodup_cons] at hnodup
    rw [writeStamp, List.map_cons, Store.commit_cons]
    rcases List.mem_cons.mp hmem with rfl | hmem
    · refine (commit_metas_of_not_mem hnodup.1 _).trans ?_
      rw [Store.apply, ExtTreeMap.getElem?_insert_self]
    · exact ih hnodup.2 hmem _

/-- The stamp of a schema writes each key once. -/
theorem stamp_nodup [SerdeJson] {store : Store} {objects : List SchemaObject}
    (hunique : (objects.map fun o => (o.content.keySpace, o.name)).Nodup) :
    ((missingVersion store ++ missingLayouts store objects).map Prod.fst).Nodup := by
  have hlayouts : ((missingLayouts store objects).map Prod.fst).Nodup := by
    rw [missingLayouts, List.map_map, List.Nodup, List.pairwise_map]
    have hpairs := List.pairwise_map.mp hunique
    refine (hpairs.filter _).imp fun {o o'} hne heq => hne ?_
    obtain ⟨hspace, hname⟩ := SchemaObject.metaKey_inj heq
    rw [hspace, hname]
  have hversion : ∀ key ∈ (missingLayouts store objects).map Prod.fst, key ≠ metaFormatVersion := by
    intro key hkey
    obtain ⟨entry, hentry, rfl⟩ := List.mem_map.mp hkey
    obtain ⟨o, -, rfl⟩ := List.mem_map.mp hentry
    exact o.metaKey_ne
  rw [List.map_append, missingVersion]
  split
  · exact List.nodup_cons.mpr ⟨fun hmem => hversion _ hmem rfl, hlayouts⟩
  · exact hlayouts

/-- A validated schema has one object of a kind and name. -/
theorem Schema.objects_nodup {schema : Schema} (hvalid : schema.validate = .ok ()) :
    (schema.objects.map fun o => (o.content.keySpace, o.name)).Nodup := by
  obtain ⟨-, -, hnames, -⟩ := schema.validate_ok.mp hvalid
  obtain ⟨hnames, -⟩ := schema.checkNames_ok.mp hnames
  refine List.Nodup.of_map Prod.snd ?_
  rw [List.map_map, objects, List.map_append, List.map_append, List.map_map, List.map_map,
    List.map_map]
  exact hnames

/-- After the commit the version is the current one. -/
theorem versionOk_commit [SerdeJson] {store : Store} {objects : List SchemaObject} {hasData : Bool}
    (hunique : (objects.map fun o => (o.content.keySpace, o.name)).Nodup)
    (hversion : VersionOk store hasData) (hasData' : Bool) :
    VersionOk (store.commit (writeStamp (missingVersion store ++ missingLayouts store objects)))
      hasData' := by
  left
  by_cases hnone : store.metas[metaFormatVersion]? = none
  · refine commit_metas_of_mem (stamp_nodup hunique) (List.mem_append_left _ ?_) store
    rw [missingVersion, hnone]
    exact List.mem_singleton_self _
  · rcases hversion with hsome | ⟨hnone', -⟩
    · rw [commit_metas_of_not_mem, hsome]
      intro hmem
      rw [List.map_append, missingVersion, hsome] at hmem
      obtain ⟨entry, hentry, heq⟩ := List.mem_map.mp hmem
      obtain ⟨o, -, rfl⟩ := List.mem_map.mp hentry
      exact o.metaKey_ne heq
    · exact absurd hnone' hnone

/-- An object that the schema has not keeps its stored layout. -/
theorem commit_metas_of_not_same [SerdeJson] {store : Store} {objects : List SchemaObject} {o' : SchemaObject}
    (hnot : ∀ o ∈ objects, ¬ o.Same o') :
    (store.commit (writeStamp (missingVersion store ++ missingLayouts store objects))).metas[
      o'.layout.metaKey]? = store.metas[o'.layout.metaKey]? := by
  apply commit_metas_of_not_mem
  rw [List.map_append, List.mem_append, not_or]
  constructor
  · intro hmem
    rw [missingVersion] at hmem
    split at hmem
    · exact o'.metaKey_ne (List.mem_singleton.mp hmem)
    · cases hmem
  · intro hmem
    obtain ⟨entry, hentry, heq⟩ := List.mem_map.mp hmem
    obtain ⟨o, ho, rfl⟩ := List.mem_map.mp hentry
    exact hnot o (List.mem_filter.mp ho).1 (SchemaObject.metaKey_inj heq)

section

variable [SerdeJson]

/-! ## Stored layouts -/

/-- The fields of an object, as they read. -/
def readFields (value : Json → SerdeJson.Value) (fields : List (String × Json)) :
    BTreeMap String SerdeJson.Value :=
  ExtTreeMap.ofList (fields.map fun f => (f.1, value f.2)) compare

/-- What the format check needs of serde_json: the text of a value tells the value, and reading
keeps what layouts have and gives the text of a view layout as its fields. -/
structure SerdeJson.Lawful (value : Json → SerdeJson.Value) : Prop extends JsonReading value where
  text : Function.Injective SerdeJson.text
  view : ∀ source select window,
    SerdeJson.parseObject (LayoutContent.view source select window).text =
      some (readFields value (LayoutContent.view source select window).fields)

/-- A view layout with a `group_by` field besides. -/
def StoredWithGroupBy (value : Json → SerdeJson.Value) (stored : String) (c : LayoutContent) :
    Prop :=
  c.keySpace = "mv" ∧ ∃ fields, SerdeJson.parseObject stored = some fields ∧
    (∃ groupBy, fields["group_by"]? = some groupBy) ∧
    ∀ name, name ≠ "group_by" → fields[name]? = (readFields value c.fields)[name]?

/-- The stored text describes the content. -/
def StoredAs (value : Json → SerdeJson.Value) (stored : String) (c : LayoutContent) : Prop :=
  stored = c.text ∨ StoredWithGroupBy value stored c

theorem readFields_get {value : Json → SerdeJson.Value} (c : LayoutContent) (name : String) :
    (readFields value c.fields)[name]? = (c.fields.find? (·.1 == name)).map fun f => value f.2 :=
  getElem?_ofList_map Prod.fst (fun f => value f.2) c.fields_nodup name

theorem readFields_mem {value : Json → SerdeJson.Value} (c : LayoutContent) {name : String}
    {a : Json} (ha : (name, a) ∈ c.fields) :
    (readFields value c.fields)[name]? = some (value a) := by
  rw [readFields_get]
  cases hfind : c.fields.find? (·.1 == name) with
  | none => simpa using List.find?_eq_none.mp hfind _ ha
  | some f =>
    have hname : f.1 = name := by simpa using List.find?_some hfind
    have hf := List.inj_on_of_nodup_map c.fields_nodup (List.mem_of_find?_eq_some hfind) ha hname
    rw [hf]
    rfl

/-- A view layout has no `group_by` field. -/
theorem readFields_view {value : Json → SerdeJson.Value} {c : LayoutContent}
    (hc : c.keySpace = "mv") : (readFields value c.fields)["group_by"]? = none := by
  rw [readFields_get]
  cases c with
  | table columns => simp [LayoutContent.keySpace] at hc
  | reducer source groupBy state => simp [LayoutContent.keySpace] at hc
  | view source select window => rfl

variable {value : Json → SerdeJson.Value} (h : SerdeJson.Lawful value)
include h

/-- The text of a view layout reads as its fields. -/
theorem parse_view {c : LayoutContent} (hc : c.keySpace = "mv") :
    SerdeJson.parseObject c.text = some (readFields value c.fields) := by
  cases c with
  | table columns => simp [LayoutContent.keySpace] at hc
  | reducer source groupBy state => simp [LayoutContent.keySpace] at hc
  | view source select window => exact h.view source select window

theorem fields_inj {c c' : LayoutContent} (hspace : c.keySpace = c'.keySpace)
    (heq : ∀ name, name ≠ "group_by" →
      (readFields value c.fields)[name]? = (readFields value c'.fields)[name]?)
    (hc : c.keySpace = "mv") : c = c' := by
  refine h.content_inj hspace fun name a b ha hb => ?_
  have hname : name ≠ "group_by" := by
    rintro rfl
    have hnone := @readFields_view _ value c hc
    rw [readFields_mem c ha] at hnone
    cases hnone
  have hread := heq name hname
  rw [readFields_mem c ha, readFields_mem c' hb] at hread
  exact Option.some.inj hread

/-- **A stored text describes at most one content of a kind.** -/
theorem StoredAs.unique {stored : String} {c c' : LayoutContent} (hspace : c.keySpace = c'.keySpace)
    (hc : StoredAs value stored c) (hc' : StoredAs value stored c') : c = c' := by
  have hmixed : ∀ {d d' : LayoutContent}, stored = d.text → StoredWithGroupBy value stored d' →
      d.keySpace = d'.keySpace → False := by
    rintro d d' rfl ⟨hview, fields, hparse, ⟨groupBy, hgroupBy⟩, -⟩ hspace
    rw [parse_view h (hspace.trans hview), Option.some.injEq] at hparse
    rw [← hparse, readFields_view (hspace.trans hview)] at hgroupBy
    cases hgroupBy
  rcases hc with heq | hold
  · rcases hc' with heq' | hold'
    · have hjson : c.json = c'.json := h.text (heq.symm.trans heq')
      refine jsonReading_id.content_inj hspace fun name a b ha hb => ?_
      rw [LayoutContent.json, LayoutContent.json, Json.obj.injEq] at hjson
      rw [hjson] at ha
      exact (Prod.mk.inj (List.inj_on_of_nodup_map c'.fields_nodup ha hb rfl)).2
    · exact (hmixed heq hold' hspace).elim
  · rcases hc' with heq' | hold'
    · exact (hmixed heq' hold hspace.symm).elim
    · obtain ⟨hview, fields, hparse, -, hfields⟩ := hold
      obtain ⟨-, fields', hparse', -, hfields'⟩ := hold'
      rw [hparse, Option.some.injEq] at hparse'
      subst hparse'
      exact fields_inj h hspace (fun name hname => (hfields name hname).symm.trans
        (hfields' name hname)) hview

/-- The tolerated form is that of a view layout with a `group_by` field. -/
theorem isStoredWithGroupBy_iff (o : SchemaObject) (stored : String) :
    o.layout.isStoredWithGroupBy stored = true ↔ StoredWithGroupBy value stored o.content := by
  have hspace : o.layout.keySpace = o.content.keySpace := rfl
  unfold Layout.isStoredWithGroupBy StoredWithGroupBy
  rw [hspace]
  by_cases hview : o.content.keySpace = "mv"
  · rw [if_neg (not_not_intro hview)]
    have hcurrent :
        SerdeJson.parseObject o.layout.text = some (readFields value o.content.fields) :=
      parse_view h hview
    cases hparse : SerdeJson.parseObject stored with
    | none => simp
    | some fields =>
      rw [hcurrent]
      dsimp only
      split
      · next hcontains =>
        rw [decide_eq_true_iff, ExtTreeMap.toList_inj]
        rw [ExtTreeMap.contains_eq_isSome_getElem?, Option.isSome_iff_exists] at hcontains
        constructor
        · intro herase
          refine ⟨hview, fields, rfl, hcontains, fun name hname => ?_⟩
          rw [← herase, ExtTreeMap.getElem?_erase, if_neg]
          exact fun heq => hname (LawfulEqCmp.eq_of_compare heq).symm
        · rintro ⟨-, fields', hfields', -, hrest⟩
          cases hfields'
          refine ExtTreeMap.ext_getElem? fun name => ?_
          rw [ExtTreeMap.getElem?_erase]
          split
          · next heq =>
            rw [← LawfulEqCmp.eq_of_compare heq, readFields_view hview]
          · next hne =>
            exact hrest name fun heq => hne (by rw [heq]; exact ReflCmp.compare_self)
      · next hcontains =>
        rw [ExtTreeMap.contains_eq_isSome_getElem?, Option.isSome_iff_exists] at hcontains
        constructor
        · intro hfalse
          cases hfalse
        · rintro ⟨-, fields', hfields', hgroupBy, -⟩
          cases hfields'
          exact absurd hgroupBy hcontains
  · rw [if_pos hview]
    constructor
    · intro hfalse
      cases hfalse
    · rintro ⟨hview', -⟩
      exact absurd hview' hview

/-! ## The check -/

/-- The stored layout of an object is absent or describes it. -/
def Compatible (value : Json → SerdeJson.Value) (store : Store) (o : SchemaObject) : Prop :=
  ∀ d, store.metas[o.layout.metaKey]? = some d → ∃ stored, d = .text stored ∧
    StoredAs value stored o.content

/-- A layout is checked when the stored one describes the object. -/
theorem layoutCheck_ok (o : SchemaObject) (store : Store) (stamp : Stamp) :
    o.layout.check store = .ok stamp ↔
      Compatible value store o ∧ stamp = missingLayouts store [o] := by
  unfold Layout.check Compatible missingLayouts
  cases hmeta : store.metas[o.layout.metaKey]? with
  | none =>
    rw [List.filter_cons_of_pos (by rw [hmeta]; rfl)]
    constructor
    · intro hok
      cases hok
      exact ⟨fun d hd => (nomatch hd), rfl⟩
    · rintro ⟨-, rfl⟩
      rfl
  | some d =>
    rw [List.filter_cons_of_neg (by rw [hmeta]; exact Bool.false_ne_true)]
    have hdescribed : (∀ d', some d = some d' → ∃ stored, d' = .text stored ∧
        StoredAs value stored o.content) ↔
          ∃ stored, d = .text stored ∧ StoredAs value stored o.content :=
      ⟨fun hall => hall d rfl, fun hd d' heq => Option.some.inj heq ▸ hd⟩
    rw [hdescribed]
    split
    · next hnone => cases hnone
    · next stored hstored =>
      obtain rfl : d = .text stored := Option.some.inj hstored
      have hiff : (stored = o.layout.text || o.layout.isStoredWithGroupBy stored) = true ↔
          StoredAs value stored o.content := by
        rw [Bool.or_eq_true, decide_eq_true_iff, isStoredWithGroupBy_iff h]
        rfl
      split
      · next hsame =>
        constructor
        · intro hok
          cases hok
          exact ⟨⟨stored, rfl, hiff.mp hsame⟩, rfl⟩
        · rintro ⟨-, rfl⟩
          rfl
      · next hnot =>
        constructor
        · intro hok
          cases hok
        · rintro ⟨⟨stored', heq, hdescribes⟩, -⟩
          cases heq
          exact absurd (hiff.mpr hdescribes) hnot
    · next d' hnot hd =>
      constructor
      · intro hok
        cases hok
      · rintro ⟨⟨stored, rfl, -⟩, -⟩
        exact (hnot stored (Option.some.inj hd).symm).elim

theorem checkLayouts_ok (objects : List SchemaObject) (store : Store) (stamp : Stamp) :
    checkLayouts store (objects.map SchemaObject.layout) = .ok stamp ↔
      (∀ o ∈ objects, Compatible value store o) ∧ stamp = missingLayouts store objects := by
  induction objects generalizing stamp with
  | nil =>
    constructor
    · intro hok
      cases hok
      exact ⟨fun o ho => (nomatch ho), rfl⟩
    · rintro ⟨-, rfl⟩
      rfl
  | cons o objects ih =>
    have hbind : checkLayouts store ((o :: objects).map SchemaObject.layout) = .ok stamp ↔
        ∃ first rest, o.layout.check store = .ok first ∧
          checkLayouts store (objects.map SchemaObject.layout) = .ok rest ∧
            stamp = first ++ rest := by
      rw [List.map_cons, checkLayouts]
      cases o.layout.check store with
      | error e =>
        constructor
        · intro hok
          cases hok
        · rintro ⟨first, rest, hfirst, -⟩
          cases hfirst
      | ok first =>
        cases checkLayouts store (objects.map SchemaObject.layout) with
        | error e =>
          constructor
          · intro hok
            cases hok
          · rintro ⟨_, rest, -, hrest, -⟩
            cases hrest
        | ok rest =>
          constructor
          · intro hok
            cases hok
            exact ⟨first, rest, rfl, rfl, rfl⟩
          · rintro ⟨_, _, hfirst, hrest, rfl⟩
            cases hfirst
            cases hrest
            rfl
    rw [hbind, missingLayouts_cons]
    constructor
    · rintro ⟨first, rest, hfirst, hrest, rfl⟩
      obtain ⟨ho, rfl⟩ := (layoutCheck_ok h o store first).mp hfirst
      obtain ⟨hall, rfl⟩ := (ih rest).mp hrest
      refine ⟨fun o' ho' => ?_, rfl⟩
      rcases List.mem_cons.mp ho' with rfl | ho'
      · exact ho
      · exact hall o' ho'
    · rintro ⟨hall, rfl⟩
      exact ⟨_, _, (layoutCheck_ok h o store _).mpr ⟨hall o (by simp), rfl⟩,
        (ih _).mpr ⟨fun o' ho' => hall o' (by simp [ho']), rfl⟩, rfl⟩

/-- **What the check accepts, and what it stamps.** -/
theorem formatCheck_ok (store : Store) (schema : Schema) (hasData : Bool) (stamp : Stamp) :
    formatCheck store schema hasData = .ok stamp ↔
      VersionOk store hasData ∧ (∀ o ∈ schema.objects, Compatible value store o) ∧
        stamp = missingVersion store ++ missingLayouts store schema.objects := by
  have hbind : ∀ version : Stamp, (do
      let stamps ← checkLayouts store schema.layouts
      .ok (version ++ stamps)) = Except.ok stamp ↔
        (∀ o ∈ schema.objects, Compatible value store o) ∧
          stamp = version ++ missingLayouts store schema.objects := by
    intro version
    rw [Schema.layouts_eq]
    cases hcheck : checkLayouts store (schema.objects.map SchemaObject.layout) with
    | error e =>
      constructor
      · intro hok
        cases hok
      · rintro ⟨hall, -⟩
        rw [(checkLayouts_ok h _ _ _).mpr ⟨hall, rfl⟩] at hcheck
        cases hcheck
    | ok stamps =>
      obtain ⟨hall, rfl⟩ := (checkLayouts_ok h _ _ _).mp hcheck
      constructor
      · intro hok
        cases hok
        exact ⟨hall, rfl⟩
      · rintro ⟨-, rfl⟩
        rfl
  have hversion : ∀ d, checkVersion d = .ok () ↔ d = .number formatVersion := by
    intro d
    constructor
    · intro hok
      unfold checkVersion at hok
      split at hok
      · split at hok
        · next heq => rw [heq]
        · cases hok
      · cases hok
    · rintro rfl
      rfl
  unfold formatCheck VersionOk missingVersion
  cases hmeta : store.metas[metaFormatVersion]? with
  | none =>
    cases hasData with
    | true =>
      constructor
      · intro hok
        cases hok
      · rintro ⟨hok | ⟨-, hok⟩, -⟩
        · cases hok
        · cases hok
    | false =>
      refine (hbind [(metaFormatVersion, .number formatVersion)]).trans ?_
      simp
  | some d =>
    cases hd : checkVersion d with
    | error e =>
      have hne : d ≠ .number formatVersion := fun heq => by
        rw [(hversion d).mpr heq] at hd
        cases hd
      constructor
      · intro hok
        dsimp only at hok
        rw [hd] at hok
        cases hok
      · rintro ⟨hok | ⟨hok, -⟩, -⟩
        · exact absurd (Option.some.inj hok) hne
        · cases hok
    | ok u =>
      have heq := (hversion d).mp hd
      subst heq
      refine (hbind []).trans ?_
      simp

/-! ## After the commit -/

omit h in
/-- After the commit the stored layout of an object of the schema describes it. -/
theorem stored_commit {store : Store} {objects : List SchemaObject}
    (hunique : (objects.map fun o => (o.content.keySpace, o.name)).Nodup)
    (hcompatible : ∀ o ∈ objects, Compatible value store o) {o : SchemaObject} (ho : o ∈ objects) :
    ∃ stored, StoredAs value stored o.content ∧
      (store.commit (writeStamp (missingVersion store ++ missingLayouts store objects))).metas[
        o.layout.metaKey]? = some (.text stored) := by
  cases hmeta : store.metas[o.layout.metaKey]? with
  | none =>
    refine ⟨o.content.text, .inl rfl,
      commit_metas_of_mem (stamp_nodup hunique) (List.mem_append_right _ ?_) store⟩
    exact List.mem_map.mpr ⟨o, List.mem_filter.mpr ⟨ho, by rw [hmeta]; rfl⟩, rfl⟩
  | some d =>
    obtain ⟨stored, rfl, hstored⟩ := hcompatible o ho d hmeta
    refine ⟨stored, hstored, ?_⟩
    rw [commit_metas_of_not_mem, hmeta]
    rw [List.map_append, List.mem_append, not_or]
    constructor
    · intro hmem
      rw [missingVersion] at hmem
      split at hmem
      · exact o.metaKey_ne (List.mem_singleton.mp hmem)
      · cases hmem
    · intro hmem
      obtain ⟨entry, hentry, heq⟩ := List.mem_map.mp hmem
      obtain ⟨o', ho', rfl⟩ := List.mem_map.mp hentry
      have hnone := (List.mem_filter.mp ho').2
      rw [show o'.layout.metaKey = o.layout.metaKey from heq, hmeta] at hnone
      cases hnone

/-- An object of another schema differs from the one of its kind and name: that of the schema, or
the stored one where the schema has none. -/
def Differs (value : Json → SerdeJson.Value) (store : Store) (objects : List SchemaObject)
    (o' : SchemaObject) : Prop :=
  (∃ o ∈ objects, o.Same o' ∧ o.content ≠ o'.content) ∨
    (∀ o ∈ objects, ¬ o.Same o') ∧ ¬ Compatible value store o'

theorem compatible_commit_iff {store : Store} {objects : List SchemaObject}
    (hunique : (objects.map fun o => (o.content.keySpace, o.name)).Nodup)
    (hcompatible : ∀ o ∈ objects, Compatible value store o) (o' : SchemaObject) :
    Compatible value
      (store.commit (writeStamp (missingVersion store ++ missingLayouts store objects))) o' ↔
        ¬ Differs value store objects o' := by
  by_cases hsame : ∃ o ∈ objects, o.Same o'
  · obtain ⟨o, ho, hsame⟩ := hsame
    obtain ⟨stored, hstored, hmeta⟩ := stored_commit hunique hcompatible ho
    rw [hsame.metaKey_eq] at hmeta
    constructor
    · rintro hc (⟨o₂, ho₂, hsame₂, hne⟩ | ⟨hnot, -⟩)
      · obtain ⟨stored', heq, hstored'⟩ := hc _ hmeta
        cases heq
        have heq := StoredAs.unique h hsame.1 hstored hstored'
        have hpair : (o₂.content.keySpace, o₂.name) = (o.content.keySpace, o.name) := by
          rw [hsame₂.1, hsame₂.2, hsame.1, hsame.2]
        have := List.inj_on_of_nodup_map hunique ho₂ ho hpair
        exact hne (this ▸ heq)
      · exact hnot o ho hsame
    · intro hdiffers d hd
      rw [hmeta, Option.some.injEq] at hd
      have heq : o.content = o'.content := by
        by_contra hne
        exact hdiffers (.inl ⟨o, ho, hsame, hne⟩)
      exact ⟨stored, hd.symm, heq ▸ hstored⟩
  · have hnot : ∀ o ∈ objects, ¬ o.Same o' := fun o ho hs => hsame ⟨o, ho, hs⟩
    unfold Compatible
    rw [commit_metas_of_not_same hnot]
    constructor
    · rintro hc (⟨o, ho, hs, -⟩ | ⟨-, hstored⟩)
      · exact hnot o ho hs
      · exact hstored hc
    · intro hdiffers
      by_contra hstored
      exact hdiffers (.inr ⟨hnot, hstored⟩)

/-- **The format check is exact.** It succeeds when the stored version is the current one, or absent
without data, and each stored layout describes the object of the schema. Its stamp is what storage
lacks, and once that is committed, a check of another schema fails when an object of it differs
from the one of its kind and name. -/
theorem formatCheck_exact (store : Store) (schema : Schema) (hasData : Bool) :
    ((∃ stamp, formatCheck store schema hasData = .ok stamp) ↔
      VersionOk store hasData ∧ ∀ o ∈ schema.objects, Compatible value store o) ∧
    ∀ stamp, formatCheck store schema hasData = .ok stamp →
      stamp = missingVersion store ++ missingLayouts store schema.objects ∧
      ((schema.objects.map fun o => (o.content.keySpace, o.name)).Nodup →
        ∀ (other : Schema) (hasData' : Bool),
          (∃ e, formatCheck (store.commit (writeStamp stamp)) other hasData' = .error e) ↔
            ∃ o' ∈ other.objects, Differs value store schema.objects o') := by
  constructor
  · constructor
    · rintro ⟨stamp, hok⟩
      obtain ⟨hversion, hall, -⟩ := (formatCheck_ok h store schema hasData stamp).mp hok
      exact ⟨hversion, hall⟩
    · rintro ⟨hversion, hall⟩
      exact ⟨_, (formatCheck_ok h store schema hasData _).mpr ⟨hversion, hall, rfl⟩⟩
  intro stamp hok
  obtain ⟨hversion, hall, rfl⟩ := (formatCheck_ok h store schema hasData stamp).mp hok
  refine ⟨rfl, fun hunique other hasData' => ?_⟩
  have hnext := formatCheck_ok h
    (store.commit (writeStamp (missingVersion store ++ missingLayouts store schema.objects)))
    other hasData'
  constructor
  · rintro ⟨e, herror⟩
    by_contra hnone
    have hcompatible : ∀ o' ∈ other.objects, Compatible value (store.commit (writeStamp
        (missingVersion store ++ missingLayouts store schema.objects))) o' := by
      intro o' ho'
      refine (compatible_commit_iff h hunique hall o').mpr fun hdiffers => ?_
      exact hnone ⟨o', ho', hdiffers⟩
    rw [(hnext _).mpr ⟨versionOk_commit hunique hversion hasData', hcompatible, rfl⟩] at herror
    cases herror
  · rintro ⟨o', ho', hdiffers⟩
    cases hcheck : formatCheck (store.commit (writeStamp
        (missingVersion store ++ missingLayouts store schema.objects))) other hasData' with
    | error e => exact ⟨e, rfl⟩
    | ok stamp' =>
      obtain ⟨-, hcompatible, -⟩ := (hnext stamp').mp hcheck
      exact absurd hdiffers ((compatible_commit_iff h hunique hall o').mp (hcompatible o' ho'))

end

/-! ## A store of trades -/

instance : DecidableEq Json := fun a b =>
  decidable_of_iff (a.text = b.text) Json.text_injective.eq_iff

/-- The parser that reads what `Json.print` prints. -/
@[reducible]
noncomputable def printedJson : SerdeJson where
  text := Json.text
  Value := Json
  decEq := inferInstance
  parseObject text :=
    open Classical in
    if h : ∃ fields, (Json.obj fields).text = text then some (ExtTreeMap.ofList h.choose compare)
    else none

theorem printedJson_lawful : @SerdeJson.Lawful printedJson id :=
  let _ := printedJson
  { jsonReading_id with
    text := Json.text_injective
    view := fun source select window => by
      have hex : ∃ fields,
          (Json.obj fields).text = (LayoutContent.view source select window).text :=
        ⟨_, rfl⟩
      have hfields : hex.choose = (LayoutContent.view source select window).fields := by
        have hobj := Json.text_injective hex.choose_spec
        rw [LayoutContent.json, Json.obj.injEq] at hobj
        exact hobj
      show (open Classical in if h : ∃ fields, (Json.obj fields).text = _ then
        some (ExtTreeMap.ofList h.choose compare) else none) = _
      rw [dif_pos hex, hfields]
      exact congrArg (fun fields => some (ExtTreeMap.ofList fields compare)) (List.map_id _).symm }

/-- A view of the volume by hour, and the table that it reads. -/
def volumeSchema : Schema where
  tables := [{ name := "trades", virtualTable := false
               columns := [⟨"time", .dateTime⟩, ⟨"amount", .uint64⟩] }]
  modules := []
  reducers := []
  materializedViews := [{ name := "volume", source := "trades", groupBy := ["hour"]
                          select := [⟨.windowFunc "time" 3600, some "hour"⟩,
                            ⟨.agg .sum (some "amount"), some "total"⟩]
                          slidingWindow := none }]

/-- The same table, with the volume by minute. -/
def minuteSchema : Schema :=
  { volumeSchema with
    materializedViews := [{ name := "volume", source := "trades", groupBy := ["hour"]
                            select := [⟨.windowFunc "time" 60, some "hour"⟩,
                              ⟨.agg .sum (some "amount"), some "total"⟩]
                            slidingWindow := none }] }

theorem formatCheck_exact_volume : ∃ stamp : Stamp,
    @formatCheck printedJson {} volumeSchema false = .ok stamp ∧ stamp.length = 3 ∧
    ∃ e, @formatCheck printedJson (Store.commit {} (writeStamp stamp)) minuteSchema true =
      .error e := by
  have hexact := @formatCheck_exact printedJson id printedJson_lawful {} volumeSchema false
  have habsent : ∀ key : String, ({} : Store).metas[key]? = none := fun key => rfl
  obtain ⟨stamp, hok⟩ := hexact.1.mpr ⟨.inr ⟨habsent _, rfl⟩, fun o _ d hd => nomatch hd⟩
  obtain ⟨rfl, hcommit⟩ := hexact.2 stamp hok
  refine ⟨_, hok, rfl, (hcommit (Schema.objects_nodup (by rfl)) minuteSchema true).mpr ?_⟩
  refine ⟨minuteSchema.objects[1], by simp [minuteSchema, Schema.objects], .inl ?_⟩
  exact ⟨volumeSchema.objects[1], by simp [volumeSchema, Schema.objects], ⟨rfl, rfl⟩, by decide⟩

end Settle
