import Settle.Db.Recovery
import Settle.Engine.DagOpen
import Settle.Storage.JsonText

/-!
# Opening a database

`Settle::open` of `src/db.rs`: the format check, the recovery of the journal, the format check
again, the build of the engine, and the restore and replay of its state.

The recovery is the only step that writes. **A failed open leaves the store as it was exactly
when the steps after the recovery accept the recovered store, or nothing is there to recover**
(`open_keeps_iff`): the first format check sees the layouts on disk only, and before the first ack
those of the schema are in the journal.
-/

namespace Settle

open Std

/-- The calls that `open` makes to the engine. They read the store and do not write it. -/
class OpenEngine (E : Type) extends Engine E where
  /-- `SettleEngine::new` -/
  new : Schema → Store → Except Error E
  setLatestBlock : E → BlockNumber → E
  restoreDurableBlock : E → BlockNumber → E
  restoreBlockHashes : E → BTreeMap BlockNumber String → E
  replayUnfinalized : E → Store → BlockNumber → BlockNumber → Except Error E
  restoreFinality : E → BlockNumber → E

instance {R V : Type} [ReducerNode R] [ViewNode V] [NodeBuild R V] :
    OpenEngine (SettleEngine R V) where
  new schema store := SettleEngine.new schema store true
  setLatestBlock := SettleEngine.setLatestBlock
  restoreDurableBlock := SettleEngine.restoreDurableBlock
  restoreBlockHashes := SettleEngine.restoreBlockHashes
  replayUnfinalized := SettleEngine.replayUnfinalized
  restoreFinality := SettleEngine.restoreFinality

/-- Versions before format versions wrote it. -/
def metaBlockHashes : String := "block_hashes"

/-- Whether the database holds data: every commit of an ingest or a fork writes one of these
keys. -/
def hasData (store : Store) : Bool :=
  [metaLatestBlock, metaDurableBlock, metaBlockHashes, metaNextSequence].any
    store.metas.contains

/-- `Config`: the fields that decide what `open` does to the state. Left out are the choice of the
backend and its settings (`data_dir`, `storage`, `compression`, `cache_size`), what bounds the
calls after the open (`max_buffer_size`, `raw_retention_blocks`, `max_resident_groups`), what it
logs and measures (`ack_warning_threshold`, `collect_perf`). -/
structure Config where
  schema : String
  appliedSequence : Option Nat
  maxPendingBatches : Nat
  backfillCheckpointInterval : UInt64

namespace Db

variable {E : Type} [OpenEngine E] [SerdeJson]

/-- A stored block, if the key has one. -/
def metaBlock (store : Store) (key : String) : Except Error (Option BlockNumber) := do
  let n ← metaU64 store key
  .ok (n.map UInt64.ofNat)

/-- Restore the persisted state and replay the blocks above the durable checkpoint; without a
checkpoint, every block. -/
def restoreEngine (e : E) (store : Store) : Except Error E := do
  let latest ← metaBlock store metaLatestBlock
  let e := (latest.map (OpenEngine.setLatestBlock e)).getD e
  let durable ← metaBlock store metaDurableBlock
  let e := (durable.map (OpenEngine.restoreDurableBlock e)).getD e
  let e := OpenEngine.restoreBlockHashes e store.blockHashes
  let replayFrom := ((Engine.durableBlock e).map (· + 1)).getD 0
  let latest := (Engine.latestBlockIfAny e).getD 0
  let e ← if replayFrom ≤ latest then OpenEngine.replayUnfinalized e store replayFrom latest
    else .ok e
  let finality ← metaBlock store metaFinalityBlock
  .ok ((finality.map (OpenEngine.restoreFinality e)).getD e)

/-- The steps of `open` after the recovery of the journal. -/
def start (config : Config) (schema : Schema) (store : Store) : Except Error (Db E) := do
  let stamp ← formatCheck store schema (hasData store)
  let e ← OpenEngine.new schema store
  let e ← restoreEngine e store
  let next ← metaU64 store metaNextSequence
  .ok {
    engine := e
    buffer := match next with
      | some next => { nextSequence := next }
      | none => {}
    maxPendingBatches := max config.maxPendingBatches 1
    backfillCheckpointInterval := config.backfillCheckpointInterval
    stamp := stamp
    journal := config.appliedSequence.isSome }

/-- `Settle::open` with healthy storage: the store as it leaves it, and the instance.
`parseSchema` is the parser of schemas. -/
def openDb (parseSchema : String → Except Error Schema) (config : Config) (store : Store) :
    Store × Except Error (Db E) :=
  match parseSchema config.schema with
  | .error e => (store, .error e)
  | .ok schema =>
    match formatCheck store schema (hasData store) with
    | .error e => (store, .error e)
    | .ok _ =>
      match recoverJournal store none none config.appliedSequence with
      | (store, .error e) => (store, .error e)
      | (store, .ok ()) => (store, start config schema store)

end Db

/-! ## What a recovery leaves -/

/-- A recovery that fails changes nothing, and one that succeeds commits its writes. -/
theorem recoverJournal_cases (store : Store) (applied : Nat) :
    (∃ e, recoverJournal store none none (some applied) = (store, .error e)) ∨
    ∃ committed recovery, recoveryWrites committed applied store.journalParts = .ok recovery ∧
      recoverJournal store none none (some applied) = (store.commit recovery, .ok ()) := by
  unfold recoverJournal
  dsimp only
  split
  · next e _ => exact Or.inl ⟨e, rfl⟩
  · next next _ =>
    rcases next with _ | next
    all_goals
      dsimp only
      split
      · exact Or.inl ⟨_, rfl⟩
      · split
        · exact Or.inl ⟨_, rfl⟩
        · split
          · next e _ => exact Or.inl ⟨e, rfl⟩
          · next recovery hr =>
            refine Or.inr ⟨_, recovery, hr, ?_⟩
            split
            · next hnil => rw [List.isEmpty_iff.mp hnil, Store.commit_nil]
            · rfl

/-- The last write of a recovery deletes the last part of the journal. -/
theorem recoveryWrites_concat {committed applied : Nat} {parts : List JournalPart}
    {p : JournalPart} {ws : WriteBatch}
    (h : recoveryWrites committed applied (parts ++ [p]) = .ok ws) :
    ∃ init, ws = init ++ [.deleteJournal p.sequence p.part] := by
  induction parts generalizing ws with
  | nil =>
    obtain ⟨ops, rest, -, hrest, rfl⟩ := recoveryWrites_cons.mp h
    rw [recoveryWrites, Except.ok.injEq] at hrest
    exact ⟨ops, by rw [← hrest]⟩
  | cons p' parts ih =>
    rw [List.cons_append] at h
    obtain ⟨ops, rest, -, hrest, rfl⟩ := recoveryWrites_cons.mp h
    obtain ⟨init, rfl⟩ := ih hrest
    refine ⟨ops ++ .deleteJournal p'.sequence p'.part :: init, ?_⟩
    rw [List.append_assoc, List.cons_append]

/-- The writes of a recovery over a journal change the store: its last part is gone. -/
theorem commit_recovery_ne {store : Store} {committed applied : Nat} {recovery : WriteBatch}
    (hj : store.journal ≠ ∅)
    (h : recoveryWrites committed applied store.journalParts = .ok recovery) :
    store.commit recovery ≠ store := by
  have hentries : store.journal.toList ≠ [] := fun hnil =>
    hj (ExtTreeMap.toList_eq_nil_iff.mp hnil)
  obtain ⟨entries, ⟨key, entry⟩, hlast⟩ := (List.eq_nil_or_concat store.journal.toList).resolve_left
    hentries
  have hparts : store.journalParts = entries.map journalPartOf ++
      [journalPartOf (key, entry)] := by
    show store.journal.toList.map journalPartOf = _
    rw [hlast, List.concat_eq_append, List.map_append]
    rfl
  rw [hparts] at h
  obtain ⟨init, rfl⟩ := recoveryWrites_concat h
  have hkey : store.journal[key]? = some entry := by
    rw [← ExtTreeMap.mem_toList_iff_getElem?_eq_some, hlast]
    simp
  intro heq
  have hgone : (store.commit (init ++ [.deleteJournal key.1 key.2])).journal[key]? = none := by
    rw [Store.commit_append]
    show ((store.commit init).journal.erase (key.1, key.2))[key]? = none
    simp
  have hkept : (store.commit (init ++ [.deleteJournal key.1 key.2])).journal[key]? = some entry := by
    have heq : store.commit (init ++ [.deleteJournal key.1 key.2]) = store := heq
    rw [heq, hkey]
  rw [hgone] at hkept
  cases hkept

/-! ## What a failed open leaves -/

namespace Db

variable {E : Type} [OpenEngine E] [SerdeJson]

/-- The steps after the recovery accept a store: it has the layouts of the schema, the engine
builds, its stored state restores and its blocks replay. -/
structure Starts (E : Type) [OpenEngine E] (schema : Schema) (store : Store) : Prop where
  format : ∃ stamp, formatCheck store schema (hasData store) = .ok stamp
  engine : ∃ e e' : E, OpenEngine.new schema store = .ok e ∧ restoreEngine e store = .ok e'
  sequence : ∃ next, metaU64 store metaNextSequence = .ok next

theorem start_ok_iff (config : Config) (schema : Schema) (store : Store) :
    (∃ db : Db E, start config schema store = .ok db) ↔ Starts E schema store := by
  constructor
  · rintro ⟨db, h⟩
    unfold start at h
    cases hf : formatCheck store schema (hasData store) with
    | error e => simp [hf, bind, Except.bind] at h
    | ok stamp =>
      cases hn : (OpenEngine.new schema store : Except Error E) with
      | error e => simp [hf, hn, bind, Except.bind] at h
      | ok e =>
        cases hr : restoreEngine e store with
        | error err => simp [hf, hn, hr, bind, Except.bind] at h
        | ok e' =>
          cases hs : metaU64 store metaNextSequence with
          | error err => simp [hf, hn, hr, hs, bind, Except.bind] at h
          | ok next => exact ⟨⟨stamp, hf⟩, ⟨e, e', hn, hr⟩, ⟨next, hs⟩⟩
  · rintro ⟨⟨stamp, hf⟩, ⟨e, e', hn, hr⟩, ⟨next, hs⟩⟩
    unfold start
    simp only [hf, hn, hr, hs, bind, Except.bind]
    exact ⟨_, rfl⟩

/-- The steps up to the recovery of the journal accept a call: the schema parses, the stored
format is that of the schema, and the journal holds the batches up to the applied one. -/
structure Recovers (parseSchema : String → Except Error Schema) (config : Config) (store : Store)
    (schema : Schema) : Prop where
  parsed : parseSchema config.schema = .ok schema
  format : ∃ stamp, formatCheck store schema (hasData store) = .ok stamp
  recovered : (recoverJournal store none none config.appliedSequence).2 = .ok ()

variable {parseSchema : String → Except Error Schema} {config : Config} {store : Store}

theorem openDb_of_recovers {schema : Schema} (h : Recovers parseSchema config store schema) :
    openDb (E := E) parseSchema config store =
      ((recoverJournal store none none config.appliedSequence).1,
        start config schema (recoverJournal store none none config.appliedSequence).1) := by
  obtain ⟨stamp, hf⟩ := h.format
  have hrec := h.recovered
  unfold openDb
  simp only [h.parsed, hf]
  split
  · next heq =>
    rw [heq] at hrec
    cases hrec
  · next heq => rw [heq]

/-- An open that does not reach the commit of the journal leaves the store. -/
theorem openDb_store_of_not (h : ∀ schema, ¬ Recovers parseSchema config store schema) :
    (openDb (E := E) parseSchema config store).1 = store := by
  unfold openDb
  split
  · rfl
  · next schema hp =>
    split
    · rfl
    · next stamp hf =>
      split
      · next heq =>
        cases happ : config.appliedSequence with
        | none =>
          rw [happ] at heq
          unfold recoverJournal at heq
          dsimp only at heq
          split at heq <;> cases heq
          rfl
        | some applied =>
          rw [happ] at heq
          rcases recoverJournal_cases store applied with ⟨e, hrec⟩ | ⟨_, _, _, hrec⟩
          · rw [hrec] at heq
            cases heq
            rfl
          · rw [hrec] at heq
            cases heq
      · next heq => exact absurd ⟨hp, ⟨stamp, hf⟩, by rw [heq]⟩ (h schema)

omit [SerdeJson] in
/-- A successful recovery keeps the store exactly when there is nothing to recover. -/
theorem recoverJournal_store_iff
    (h : (recoverJournal store none none config.appliedSequence).2 = .ok ()) :
    (recoverJournal store none none config.appliedSequence).1 = store ↔
      config.appliedSequence = none ∨ store.journal = ∅ := by
  cases happ : config.appliedSequence with
  | none =>
    have hsame : (recoverJournal store none none none).1 = store := by
      unfold recoverJournal
      dsimp only
      split <;> rfl
    simp [hsame]
  | some applied =>
    rw [happ] at h
    rcases recoverJournal_cases store applied with ⟨e, hrec⟩ | ⟨committed, recovery, hw, hrec⟩
    · rw [hrec] at h
      cases h
    · rw [hrec]
      constructor
      · intro heq
        by_contra hne
        exact commit_recovery_ne (fun hj => hne (Or.inr hj)) hw heq
      · rintro (hnone | hj)
        · cases hnone
        · have hnil : store.journalParts = [] := by
            rw [Store.journalParts, hj]
            rfl
          rw [hnil, recoveryWrites, Except.ok.injEq] at hw
          rw [← hw, Store.commit_nil]

/-- **A failed open leaves the store unchanged, journal included, exactly when** a step up to the
recovery of the journal refuses, or there is nothing to recover (no applied sequence, or an empty
journal), or every step after the recovery accepts the recovered store. -/
theorem open_keeps_iff (parseSchema : String → Except Error Schema) (config : Config)
    (store : Store) :
    (∀ e, (openDb (E := E) parseSchema config store).2 = .error e →
      (openDb (E := E) parseSchema config store).1 = store) ↔
    ∀ schema, Recovers parseSchema config store schema →
      (config.appliedSequence = none ∨ store.journal = ∅) ∨
        Starts E schema (recoverJournal store none none config.appliedSequence).1 := by
  constructor
  · intro hkeeps schema h
    rw [openDb_of_recovers h] at hkeeps
    cases hs : (start config schema (recoverJournal store none none config.appliedSequence).1 :
        Except Error (Db E)) with
    | ok db => exact Or.inr ((start_ok_iff config schema _).mp ⟨db, hs⟩)
    | error e => exact Or.inl ((recoverJournal_store_iff h.recovered).mp (hkeeps e hs))
  · intro hcond e he
    by_cases hrec : ∃ schema, Recovers parseSchema config store schema
    · obtain ⟨schema, h⟩ := hrec
      rw [openDb_of_recovers h] at he ⊢
      rcases hcond schema h with hnone | hstarts
      · exact (recoverJournal_store_iff h.recovered).mpr hnone
      · obtain ⟨db, hdb⟩ := (start_ok_iff config schema _).mpr hstarts
        rw [hdb] at he
        cases he
    · exact openDb_store_of_not fun schema h => hrec ⟨schema, h⟩

end Db

/-! ### An open that fails after the recovery -/

/-- A schema with the one table `trades`. -/
def tradesSchema (price : ColumnType) : Schema where
  tables := [{ name := "trades",
               columns := [⟨"block_number", .uint64⟩, ⟨"price", price⟩], virtualTable := false }]
  modules := []
  reducers := []
  materializedViews := []

/-- The parser on two texts. -/
def parseTrades (text : String) : Except Error Schema :=
  if text = "CREATE TABLE trades (block_number UInt64, price UInt64)" then
    .ok (tradesSchema .uint64)
  else .ok (tradesSchema .string)

def tradesConfig (price : String) (applied : Nat) : Config where
  schema := "CREATE TABLE trades (block_number UInt64, price " ++ price ++ ")"
  appliedSequence := some applied
  maxPendingBatches := 16
  backfillCheckpointInterval := 1

/-- No layout of a table goes to the parser. -/
@[reducible] def tablesJson : SerdeJson where
  text := Json.text
  Value := Empty
  decEq := inferInstance
  parseObject _ := none

/-- `open` with the pipeline of raw tables. -/
def openTrades (price : String) (applied : Nat) (store : Store) :
    Store × Except Error (Db (SettleEngine Empty Empty)) :=
  letI := tablesJson
  Db.openDb parseTrades (tradesConfig price applied) store

/-- What a run leaves: an open of an empty store in journal mode, and an ingest of block 1 that
the caller does not ack. -/
def unackedStore : Store :=
  match openTrades "UInt64" 0 {} with
  | (store, .error _) => store
  | (store, .ok db) => (db.ingest store none none (tradeIn 1 10) [] ⟨1, "a"⟩).2.1

/-- The target applied batch 1 and the schema has another type for `price`: the open commits the
batch, finds its layout and fails. -/
theorem open_failed_changes_store :
    (∃ e, (openTrades "String" 1 unackedStore).2 = .error e) ∧
      (openTrades "String" 1 unackedStore).1 ≠ unackedStore := by
  constructor
  · have h : (match (openTrades "String" 1 unackedStore).2 with
        | .error _ => true
        | .ok _ => false) = true := by decide +kernel
    split at h
    · next e he => exact ⟨e, he⟩
    · cases h
  · intro heq
    have h : (openTrades "String" 1 unackedStore).1.journal.size ≠ unackedStore.journal.size := by
      decide +kernel
    exact h (by rw [heq])

end Settle
