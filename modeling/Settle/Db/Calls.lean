import Settle.Change
import Settle.Data.Wire
import Settle.Storage.Batch

/-!
# The database

`src/db.rs`: the calls `ingest`, `handle_fork` and `ack` of a `Settle` instance, and the
recovery of its journal. The pipeline behind them is any `Engine`: the type class lists the
calls that the database makes to it, each with the committed store that it may read.

Storage can refuse a commit or a sync: a call gets the outcome of each commit and of the sync
that it makes as arguments (`Outcome`). A refused commit applies nothing.
-/

namespace Settle

open Std

/-- What storage answers to a commit or a sync: none if it succeeds. -/
abbrev Outcome := Option Error

/-- `Display` of an error. -/
def Error.text : Error → String
  | .storage m => "storage error: " ++ m
  | .incompatibleStorage m => "incompatible storage: " ++ m
  | .reducer m => "reducer error: " ++ m
  | .rollback m => "rollback error: " ++ m
  | .invalidOperation m => "invalid operation: " ++ m
  | .pendingAck s => "ack pending: sequence " ++ toString s
  | .wrongAckSequence e g =>
    "wrong ack sequence: expected " ++ toString e ++ ", got " ++ toString g
  | .poisoned m =>
    "instance poisoned by a previous failure (" ++ m ++
      "); ack the applied batches, then drop and reopen"
  | .syncFailed m =>
    "storage sync failed (" ++ m ++
      "); acked writes may not survive a power loss, so no ack is taken: drop and reopen"

/-- The calls that the database makes to the engine (`SettleEngine`). A call that can fail
part way gives the engine as it leaves it, and what it wrote. -/
class Engine (E : Type) where
  awaitedCallback : E → Option String
  finalizedBlock : E → BlockNumber
  hasFinalized : E → Bool
  latestBlockIfAny : E → Option BlockNumber
  durableBlock : E → Option BlockNumber
  finalizedCursor : E → Option BlockCursor
  latestCursor : E → Option BlockCursor
  deferAllowed : E → Bool
  tableRegistry : E → String → Option ColumnRegistry
  lowestHashConflict : E → List (BlockNumber × String) → BlockNumber → Option BlockNumber
  resolveForkCursorBounded : E → List (BlockNumber × String) → Option BlockCursor
  checkRollbackTarget : E → BlockNumber → Except Error Unit
  /-- reads the store through the pending write batches -/
  rollbackToBatch : E → Store → List WriteBatch → BlockNumber →
    E × WriteBatch × Except Error (List ChangeRecord)
  processBatchDeferred : E → Store → String → BlockNumber → List Row →
    E × WriteBatch × Except Error (List ChangeRecord)
  undoIngest : E → Store → List WriteBatch → Option BlockNumber → E × Except Error Unit
  takeChanges : E → E × List ChangeRecord
  setRollbackChain : E → List (BlockNumber × String) → E
  advanceFinality : E → BlockNumber → E
  writeCheckpoint : E → E × WriteBatch
  evictGroups : E → E
  takeHashChanges : E → E × List (BlockNumber × Option String)
  checkpoints : E → Nat
  setCommittedCheckpoint : E → Nat → E
  /-- the engine writes rows and node states only -/
  rollbackToBatch_data : ∀ e store pending p, ∀ op ∈ (rollbackToBatch e store pending p).2.1,
    op.isNodeData
  processBatchDeferred_data : ∀ e store table block rows,
    ∀ op ∈ (processBatchDeferred e store table block rows).2.1, op.isNodeData
  writeCheckpoint_data : ∀ e, ∀ op ∈ (writeCheckpoint e).2, op.isNodeData

/-! ## Metadata keys -/

def metaLatestBlock : String := "latest_block"
/-- the durable watermark -/
def metaDurableBlock : String := "finalized_block"
def metaFinalityBlock : String := "finality_block"
def metaNextSequence : String := "next_sequence"

/-- `meta_u64`. -/
def metaU64 (store : Store) (key : String) : Except Error (Option Nat) :=
  match store.metas[key]? with
  | none => .ok none
  | some (.number n) => .ok (some n)
  | some _ => .error (.storage ("corrupt " ++ key ++ " metadata"))

/-! ## The instance -/

/-- A returned batch that waits for its ack: the write batch that advances disk to the state
after it. -/
structure PendingAck where
  sequence : Nat
  writeBatch : WriteBatch
  /-- calls without a batch whose writes joined this one -/
  joined : Nat
  /-- the number of the last checkpoint in `writeBatch` or before it -/
  checkpoint : Nat

/-- `Settle`: an open database. -/
structure Db (E : Type) where
  engine : E
  buffer : ChangeBuffer := {}
  /-- unacked batches, oldest first -/
  pending : List PendingAck := []
  maxPendingBatches : Nat
  poisoned : Option String := none
  syncFailed : Option String := none
  backfillCheckpointInterval : UInt64
  /-- the format version and the layouts that storage lacks -/
  stamp : List (String × Datum)
  /-- whether returned batches go to the journal -/
  journal : Bool

namespace Db

variable {E : Type} [Engine E]

/-- `unacked_batches`: the places in use in the ack queue. -/
def unackedBatches (db : Db E) : Nat := (db.pending.map fun p => 1 + p.joined).sum

def guardSynced (db : Db E) : Except Error Unit :=
  match db.syncFailed with
  | some reason => .error (.syncFailed reason)
  | none => .ok ()

def guardNotPoisoned (db : Db E) : Except Error Unit := do
  db.guardSynced
  match db.poisoned with
  | some reason => .error (.poisoned reason)
  | none => .ok ()

def guardCallbacksReplayed (db : Db E) : Except Error Unit :=
  match Engine.awaitedCallback db.engine with
  | none => .ok ()
  | some name =>
    .error (.invalidOperation ("external reducer '" ++ name ++
      "' has no callback: register it before the first ingest"))

def guardNoPending (db : Db E) : Except Error Unit :=
  match db.pending.head? with
  | some p => .error (.pendingAck p.sequence)
  | none => .ok ()

def guardPendingRoom (db : Db E) : Except Error Unit :=
  if db.unackedBatches < db.maxPendingBatches then .ok () else db.guardNoPending

/-! ## Commits -/

/-- Append engine metadata and the stamp to a write batch. -/
def appendMetaToBatch (db : Db E) (batch : WriteBatch) : Db E × WriteBatch :=
  let e := db.engine
  let put (key : String) (block : Option BlockNumber) : WriteBatch :=
    match block with
    | some b => [.putMeta key (.number b.toNat)]
    | none => []
  let hashes := Engine.takeHashChanges e
  ({ db with engine := hashes.1 },
    batch ++ put metaLatestBlock (Engine.latestBlockIfAny e)
      ++ put metaDurableBlock (Engine.durableBlock e)
      ++ put metaFinalityBlock
        (if Engine.hasFinalized e then some (Engine.finalizedBlock e) else none)
      ++ hashes.2.map (fun (block, hash) =>
        match hash with
        | some hash => .putBlockHash block hash
        | none => .deleteBlockHash block)
      ++ db.stamp.map fun (key, value) => .putMeta key value)

/-- Store a journal part. A failure poisons the instance. -/
def writeJournal (db : Db E) (store : Store) (commitFault syncFault : Outcome)
    (sequence part : Nat) (writes : WriteBatch) (sync : Bool) :
    Db E × Store × Except Error Unit :=
  match commitFault with
  | some e =>
    ({ db with
        poisoned := some ("journal write of batch " ++ toString sequence ++ " failed: " ++ e.text) },
      store, .error e)
  | none =>
    let store := store.commit [.putJournal sequence part (.writes writes)]
    match sync, syncFault with
    | true, some e =>
      ({ db with
          poisoned := some ("sync of the journal failed: " ++ e.text), syncFailed := some e.text },
        store, .error (.syncFailed e.text))
    | _, _ => (db, store, .ok ())

/-- Queue a batch for its ack. With the journal, the batch is on disk before the caller gets
it. -/
def pushPending (db : Db E) (store : Store) (commitFault syncFault : Outcome)
    (sequence : Nat) (writeBatch : WriteBatch) : Db E × Store × Except Error Unit :=
  let queue (db : Db E) (writeBatch : WriteBatch) : Db E :=
    { db with
      pending := db.pending ++
        [{ sequence, writeBatch, joined := 0, checkpoint := Engine.checkpoints db.engine }] }
  if db.journal then
    match db.writeJournal store commitFault syncFault sequence 0 writeBatch true with
    | (db, store, .error e) => (db, store, .error e)
    | (db, store, .ok ()) =>
      (queue db (writeBatch ++ [.deleteJournal sequence 0]), store, .ok ())
  else (queue db writeBatch, store, .ok ())

/-- The newest unacked batch with the writes of a call without a batch. -/
def PendingAck.join (p : PendingAck) (journal : Bool) (writeBatch : WriteBatch)
    (checkpoint : Nat) : PendingAck :=
  { p with
    writeBatch := p.writeBatch ++ writeBatch ++
      (if journal then [.deleteJournal p.sequence (p.joined + 1)] else [])
    joined := p.joined + 1
    checkpoint := checkpoint }

/-- Commit the writes of a call that returned no batch: at once, or with the newest unacked
batch. -/
def commitWithoutBatch (db : Db E) (store : Store) (commitFault : Outcome)
    (writeBatch : WriteBatch) (call : String) : Db E × Store × Except Error Unit :=
  match db.pending.getLast? with
  | some newest =>
    let join (db : Db E) : Db E :=
      { db with
        pending := db.pending.dropLast ++
          [PendingAck.join newest db.journal writeBatch (Engine.checkpoints db.engine)] }
    if db.journal then
      match db.writeJournal store commitFault none newest.sequence (newest.joined + 1) writeBatch
          false with
      | (db, store, .error e) => (db, store, .error e)
      | (db, store, .ok ()) => (join db, store, .ok ())
    else (join db, store, .ok ())
  | none =>
    match commitFault with
    | some e =>
      ({ db with poisoned := some (call ++ " commit failed: " ++ e.text) }, store, .error e)
    | none =>
      ({ db with
          stamp := []
          engine := Engine.setCommittedCheckpoint db.engine (Engine.checkpoints db.engine) },
        store.commit writeBatch, .ok ())

/-- The end of `ingest` and of `handle_fork`: the write batch goes to the queue, or to disk. -/
def finishCall (db : Db E) (store : Store) (commitFault syncFault : Outcome)
    (writeBatch : WriteBatch) (batch : Option ChangeBatch) (call : String) :
    Db E × Store × Except Error Unit :=
  match batch with
  | none => db.commitWithoutBatch store commitFault writeBatch call
  | some batch => db.pushPending store commitFault syncFault batch.sequence writeBatch

/-- Flush the buffer, and put the next sequence into the write batch. -/
def flushBatch (db : Db E) (writeBatch : WriteBatch) :
    Db E × WriteBatch × Option ChangeBatch :=
  let flushed := db.buffer.flush
  ({ db with buffer := flushed.1 },
    writeBatch ++ [.putMeta metaNextSequence (.number flushed.1.nextSequence)], flushed.2)

/-- Roll the engine back to `forkPoint`, from the state after the newest unacked batch. A
failure part way poisons the instance. -/
def rollbackEngine (db : Db E) (store : Store) (forkPoint : BlockNumber) :
    Db E × WriteBatch × Except Error (List ChangeRecord) :=
  match Engine.checkRollbackTarget db.engine forkPoint with
  | .error e => (db, [], .error e)
  | .ok () =>
    match Engine.rollbackToBatch db.engine store (db.pending.map PendingAck.writeBatch)
        forkPoint with
    | (engine, writes, .ok changes) => ({ db with engine := engine }, writes, .ok changes)
    | (engine, writes, .error e) =>
      ({ db with
          engine := engine
          poisoned := some ("rollback to block " ++ toString forkPoint.toNat ++ " failed: " ++
            e.text) },
        writes, .error e)

/-! ## Ingest -/

/-- The rows of an ingest call, by table. -/
inductive InputData where
  /-- rows by column name -/
  | maps (data : FxHashMap String (List RowMap))
  /-- positional rows, by block -/
  | rows (data : FxHashMap String (BTreeMap BlockNumber (List Row)))

/-- `{:?}` of bytes. -/
def debugBytes (bytes : List UInt8) : String :=
  "[" ++ ", ".intercalate (bytes.map fun b => toString b.toNat) ++ "]"

/-- `{:?}` of a character inside a string, if it is printable. -/
def debugChar : Char → String
  | '"' => "\\\""
  | '\\' => "\\\\"
  | '\n' => "\\n"
  | '\r' => "\\r"
  | '\t' => "\\t"
  | c => c.toString

/-- `{:?}` of a value. The digits of a float and the tree of a JSON value, which `std` and
`serde_json` print, are left out. -/
def debugText : Value → String
  | .uint64 n => "UInt64(" ++ toString n.toNat ++ ")"
  | .int64 n => "Int64(" ++ toString n.toInt ++ ")"
  | .float64 _ => "Float64(_)"
  | .uint256 n => "Uint256(" ++ debugBytes (Wire.le 32 n.toNat).reverse ++ ")"
  | .string s => "String(\"" ++ String.join (s.toList.map debugChar) ++ "\")"
  | .dateTime n => "DateTime(" ++ toString n.toInt ++ ")"
  | .boolean b => "Boolean(" ++ toString b ++ ")"
  | .bytes b => "Bytes(" ++ debugBytes b ++ ")"
  | .base58 b => "Base58(" ++ debugBytes b ++ ")"
  | .json _ => "JSON(_)"
  | .null => "Null"

/-- `Row::from_owned_map`. -/
def rowOfMap (registry : ColumnRegistry) (map : RowMap) : Row where
  registry := registry
  values := registry.names.map fun name => map[name]?.getD .null

/-- The block of a row by column name. -/
def mapBlock (table : String) (map : RowMap) : Except Error BlockNumber :=
  match map["block_number"]? with
  | some (.uint64 n) => .ok n
  | some other =>
    .error (.invalidOperation ("row in table '" ++ table ++
      "' has invalid block_number type: expected UInt64, got " ++ other.typeName))
  | none => .error (.invalidOperation ("row in table '" ++ table ++ "' missing block_number"))

/-- Rows by column name to rows by block in the column order of `table`. -/
def rowsFromMaps (db : Db E) (table : String) (maps : List RowMap) :
    Except Error (BTreeMap BlockNumber (List Row)) := do
  let registry := Engine.tableRegistry db.engine table
  let byBlock ← maps.foldlM (fun byBlock map => do
    let block ← mapBlock table map
    match registry with
    | some registry => .ok (byBlock.insert block (byBlock[block]?.getD [] ++ [rowOfMap registry map]))
    | none => .ok byBlock) (∅ : BTreeMap BlockNumber (List Row))
  if !maps.isEmpty && registry.isNone then
    .error (.invalidOperation ("unknown table: " ++ table))
  else .ok byBlock

/-- Err unless the row has the columns of the table and, if the table has a `block_number`
column, its block in it. -/
def checkRow (table : String) (registry : ColumnRegistry) (block : BlockNumber) (row : Row) :
    Except Error Unit :=
  if row.registry.names ≠ registry.names then
    .error (.invalidOperation ("rows of table '" ++ table ++
      "' must have its columns: build them on Settle::table_registry"))
  else
    match registry.getId "block_number" with
    | none => .ok ()
    | some id =>
      -- the index of a row without a value there would panic
      let value := row.values[id]?.getD .null
      if value = .uint64 block then .ok ()
      else .error (.invalidOperation ("row of table '" ++ table ++ "' at block " ++
        toString block.toNat ++ " has block_number " ++ debugText value))

/-- `check_rows`: the rows of each block that has any. -/
def checkRows (db : Db E) (table : String) (byBlock : BTreeMap BlockNumber (List Row)) :
    Except Error (BTreeMap BlockNumber (List Row)) :=
  let byBlock := byBlock.filter fun _ rows => !rows.isEmpty
  if byBlock.isEmpty then .ok byBlock
  else
    match Engine.tableRegistry db.engine table with
    | none => .error (.invalidOperation ("unknown table: " ++ table))
    | some registry => do
      byBlock.toList.forM fun (block, rows) => rows.forM (checkRow table registry block)
      .ok byBlock

/-- The lowest block with rows in the input. -/
def minInput : InputData → Option BlockNumber
  | .maps data =>
    (data.toList.flatMap fun (_, rows) => rows.filterMap fun (r : RowMap) =>
      match r["block_number"]? with
      | some (Value.uint64 n) => some n
      | _ => none).min?
  | .rows data =>
    (data.toList.filterMap fun (_, blocks) =>
      (blocks.toList.find? fun (_, rows) => !rows.isEmpty).map Prod.fst).min?

/-- Check the input rows and group them by table, in name order, and by block. `latest` is
the latest block once a detected fork is rolled back. -/
def groupInputRows (db : Db E) (data : InputData) (latest : Option BlockNumber) :
    Except Error (List (String × BTreeMap BlockNumber (List Row))) := do
  match latest, minInput data with
  | some latest, some min =>
    if min ≤ latest then
      .error (.invalidOperation ("duplicate ingest: block " ++ toString min.toNat ++
        " is at or below latest_block " ++ toString latest.toNat ++
        " — use handle_fork() for chain reorgs"))
    else .ok ()
  | _, _ => .ok ()
  let grouped ← match data with
    | .maps data => data.toList.mapM fun (table, maps) => do
        .ok (table, ← db.rowsFromMaps table maps)
    | .rows data => data.toList.mapM fun (table, byBlock) => do
        .ok (table, ← db.checkRows table byBlock)
  .ok (grouped.filter fun (_, byBlock) => !byBlock.isEmpty)

/-- The cursors of a call, as pairs. -/
def cursors (chain : List BlockCursor) : List (BlockNumber × String) :=
  chain.map fun c => (c.number, c.hash)

/-- The supplied cursors, highest block first. -/
def sortDesc (supplied : List (BlockNumber × String)) : List (BlockNumber × String) :=
  supplied.mergeSort fun a b => b.1 ≤ a.1

/-- The fork point if the input's chain shows that blocks we hold are no longer canonical. -/
def detectFork (db : Db E) (rollbackChain : List BlockCursor) (finalizedHead : BlockCursor) :
    Except Error (Option BlockNumber) :=
  match Engine.latestBlockIfAny db.engine with
  | none => .ok none
  | some currentLatest =>
    let supplied := cursors (rollbackChain ++ [finalizedHead])
    match Engine.lowestHashConflict db.engine supplied currentLatest with
    | none => .ok none
    | some conflict =>
      let ancestors := sortDesc (supplied.filter fun c => c.1 < conflict)
      let forkPoint := ((Engine.resolveForkCursorBounded db.engine ancestors).map
        BlockCursor.number).getD 0
      let finalized := Engine.finalizedBlock db.engine
      if forkPoint < finalized then
        .error (.invalidOperation ("the hash of block " ++ toString conflict.toNat ++
          " differs from the stored one, and the chain holds no common ancestor at or above " ++
          "finalized block " ++ toString finalized.toNat ++ " — finalized state is irreversible"))
      else .ok (if forkPoint < currentLatest then some forkPoint else none)

/-- The loops over the tables and their blocks. -/
def processTables (store : Store) : List (String × BlockNumber × List Row) → E →
    E × WriteBatch × Except Error (List ChangeRecord)
  | [], e => (e, [], .ok [])
  | (table, block, rows) :: rest, e =>
    match Engine.processBatchDeferred e store table block rows with
    | (e, writes, .error err) => (e, writes, .error err)
    | (e, writes, .ok changes) =>
      match processTables store rest e with
      | (e, writes', .error err) => (e, writes ++ writes', .error err)
      | (e, writes', .ok changes') => (e, writes ++ writes', .ok (changes ++ changes'))

/-- Whether this ingest writes a checkpoint. -/
def checkpointDue (db : Db E) (targetFinalized : BlockNumber) : Bool :=
  let latest := (Engine.latestBlockIfAny db.engine).getD 0
  let deferActive := 1 < db.backfillCheckpointInterval && Engine.deferAllowed db.engine &&
    latest ≤ targetFinalized
  let checkpointTo := min targetFinalized latest
  let reachedInterval := match Engine.durableBlock db.engine with
    | none => true
    | some d =>
      db.backfillCheckpointInterval ≤ (if checkpointTo < d then 0 else checkpointTo - d)
  !deferActive || reachedInterval

/-- The end of a processed ingest: emit, store the hashes, finalize, write a checkpoint and
the metadata, and flush. -/
def finalizeIngest (db : Db E) (writes : WriteBatch) (changes : List ChangeRecord)
    (rollbackChain : List BlockCursor) (finalizedHead : BlockCursor) :
    Db E × WriteBatch × Option ChangeBatch :=
  let taken := Engine.takeChanges db.engine
  let e := taken.1
  let buffer := db.buffer.push (changes ++ taken.2) (Engine.finalizedCursor e)
    (Engine.latestCursor e)
  let e := Engine.setRollbackChain e (cursors (rollbackChain ++ [finalizedHead]))
  let db := { db with engine := e, buffer := buffer }
  let checkpoint := db.checkpointDue finalizedHead.number
  let e := Engine.advanceFinality e finalizedHead.number
  let checkpointed := if checkpoint then Engine.writeCheckpoint e else (e, [])
  let e := Engine.evictGroups checkpointed.1
  let withMeta := { db with engine := e }.appendMetaToBatch (writes ++ checkpointed.2)
  let db := withMeta.1
  let db := { db with
    buffer := db.buffer.setHeads (Engine.finalizedCursor db.engine)
      (Engine.latestCursor db.engine) }
  db.flushBatch withMeta.2

/-- A failed ingest: its processing goes back, or the instance is poisoned. -/
def failIngest (db : Db E) (store : Store) (forkPoint recoveryBlock : Option BlockNumber)
    (e : Error) : Db E × Error :=
  if forkPoint.isSome then
    ({ db with poisoned := some ("ingest failed after a fork rollback: " ++ e.text) }, e)
  else
    match Engine.undoIngest db.engine store (db.pending.map PendingAck.writeBatch)
        recoveryBlock with
    | (engine, .ok ()) => ({ db with engine := engine }, e)
    | (engine, .error rollbackErr) =>
      let reason := "ingest failed (" ++ e.text ++ ") and recovery rollback also failed (" ++
        rollbackErr.text ++ "); instance state is inconsistent — drop and reopen"
      ({ db with engine := engine, poisoned := some reason }, .rollback reason)

/-- The rollback of a detected fork. -/
def rollbackFork (db : Db E) (store : Store) :
    Option BlockNumber → Db E × WriteBatch × Except Error (List ChangeRecord)
  | some forkPoint => db.rollbackEngine store forkPoint
  | none => (db, [], .ok [])

/-- The work of an ingest call once its input is checked: the rollback of a fork, then its
rows. The result is the write set of the call and its batch. -/
def ingestTables (db : Db E) (store : Store) (forkPoint recoveryBlock : Option BlockNumber)
    (tables : List (String × BTreeMap BlockNumber (List Row)))
    (rollbackChain : List BlockCursor) (finalizedHead : BlockCursor) :
    Db E × Except Error (WriteBatch × Option ChangeBatch) :=
  match db.rollbackFork store forkPoint with
  | (db, _, .error e) => (db, .error e)
  | (db, writes, .ok changes) =>
    let blocks := tables.flatMap fun (table, byBlock) =>
      byBlock.toList.map fun (block, rows) => (table, block, rows)
    match processTables store blocks db.engine with
    | (engine, _, .error e) =>
      let failed := { db with engine := engine }.failIngest store forkPoint recoveryBlock e
      (failed.1, .error failed.2)
    | (engine, writes', .ok changes') =>
      let done := { db with engine := engine }.finalizeIngest (writes ++ writes')
        (changes ++ changes') rollbackChain finalizedHead
      (done.1, .ok done.2)

/-- The checks of an ingest call: the fork point, the block to go back to on a failure, and
the rows. -/
def checkIngest (db : Db E) (data : InputData) (rollbackChain : List BlockCursor)
    (finalizedHead : BlockCursor) :
    Except Error (Option BlockNumber × Option BlockNumber ×
      List (String × BTreeMap BlockNumber (List Row))) := do
  db.guardNotPoisoned
  db.guardCallbacksReplayed
  db.guardPendingRoom
  if finalizedHead.number < Engine.finalizedBlock db.engine then
    .error (.invalidOperation ("finalized_head.number (" ++ toString finalizedHead.number.toNat ++
      ") < current finalized_block (" ++ toString (Engine.finalizedBlock db.engine).toNat ++
      "); finality must be monotonic"))
  else .ok ()
  let forkPoint ← db.detectFork rollbackChain finalizedHead
  let recoveryBlock := forkPoint.or (Engine.latestBlockIfAny db.engine)
  let tables ← db.groupInputRows data recoveryBlock
  .ok (forkPoint, recoveryBlock, tables)

/-- An ingest call up to its write set. -/
def prepareIngest (db : Db E) (store : Store) (data : InputData)
    (rollbackChain : List BlockCursor) (finalizedHead : BlockCursor) :
    Db E × Except Error (WriteBatch × Option ChangeBatch) :=
  match db.checkIngest data rollbackChain finalizedHead with
  | .error e => (db, .error e)
  | .ok (forkPoint, recoveryBlock, tables) =>
    db.ingestTables store forkPoint recoveryBlock tables rollbackChain finalizedHead

/-- `ingest_data`. -/
def ingest (db : Db E) (store : Store) (commitFault syncFault : Outcome) (data : InputData)
    (rollbackChain : List BlockCursor) (finalizedHead : BlockCursor) :
    Db E × Store × Except Error (Option ChangeBatch) :=
  match db.prepareIngest store data rollbackChain finalizedHead with
  | (db, .error e) => (db, store, .error e)
  | (db, .ok (writes, batch)) =>
    match db.finishCall store commitFault syncFault writes batch "heartbeat ingest" with
    | (db, store, .error e) => (db, store, .error e)
    | (db, store, .ok ()) => (db, store, .ok batch)

/-! ## Forks -/

/-- A fork call up to its write set. -/
def prepareFork (db : Db E) (store : Store) (rollbackChain : List BlockCursor) :
    Db E × Except Error (BlockCursor × WriteBatch × Option ChangeBatch) :=
  match (do db.guardNotPoisoned; db.guardPendingRoom : Except Error Unit) with
  | .error e => (db, .error e)
  | .ok () =>
    if rollbackChain.isEmpty then
      (db, .error (.invalidOperation "rollback_chain must not be empty"))
    else
      let supplied := sortDesc (cursors rollbackChain)
      match Engine.resolveForkCursorBounded db.engine supplied with
      | none =>
        (db, .error (.invalidOperation "Fork too deep: no common ancestor found in block hashes"))
      | some cursor =>
        match db.rollbackEngine store cursor.number with
        | (db, _, .error e) => (db, .error e)
        | (db, writes, .ok changes) =>
          let e := Engine.setRollbackChain db.engine supplied
          let withMeta := { db with engine := e }.appendMetaToBatch writes
          let db := withMeta.1
          let heads := (Engine.finalizedCursor db.engine, Engine.latestCursor db.engine)
          let buffer := (db.buffer.push changes heads.1 heads.2).setHeads heads.1 heads.2
          let flushed := { db with buffer := buffer }.flushBatch withMeta.2
          (flushed.1, .ok (cursor, flushed.2))

/-- `handle_fork`. -/
def handleFork (db : Db E) (store : Store) (commitFault syncFault : Outcome)
    (rollbackChain : List BlockCursor) :
    Db E × Store × Except Error (BlockCursor × Option ChangeBatch) :=
  match db.prepareFork store rollbackChain with
  | (db, .error e) => (db, store, .error e)
  | (db, .ok (cursor, writes, batch)) =>
    match db.finishCall store commitFault syncFault writes batch "heartbeat handle_fork" with
    | (db, store, .error e) => (db, store, .error e)
    | (db, store, .ok ()) => (db, store, .ok (cursor, batch))

/-! ## Acks -/

/-- The loop of `ack`: commit the batches up to `sequence`, oldest first. `faults` are the
outcomes of its commits in order; where it ends, commits succeed. -/
def ackLoop (sequence : Nat) : List PendingAck → List Outcome → Db E → Store →
    Db E × Store × Except Error Unit × Bool
  | [], _, db, store => ({ db with pending := [] }, store, .ok (), false)
  | oldest :: rest, faults, db, store =>
    if sequence < oldest.sequence then
      ({ db with pending := oldest :: rest }, store, .ok (), false)
    else
      match faults.headD none with
      | some e => ({ db with pending := oldest :: rest }, store, .error e, false)
      | none =>
        let db := { db with
          engine := Engine.setCommittedCheckpoint db.engine oldest.checkpoint, stamp := [] }
        let (db, store, result, _) :=
          ackLoop sequence rest faults.tail db (store.commit oldest.writeBatch)
        (db, store, result, true)

def ack (db : Db E) (store : Store) (faults : List Outcome) (syncFault : Outcome)
    (sequence : Nat) : Db E × Store × Except Error Unit :=
  match db.guardSynced with
  | .error e => (db, store, .error e)
  | .ok () =>
    match db.pending.getLast? with
    | none => (db, store, .ok ())
    | some newest =>
      if newest.sequence < sequence then
        (db, store, .error (.wrongAckSequence newest.sequence sequence))
      else
        match ackLoop sequence db.pending faults db store with
        | (db, store, result, committed) =>
          match committed && !db.journal, syncFault with
          | true, some e =>
            ({ db with
                poisoned := some ("sync after ack failed: " ++ e.text)
                syncFailed := some e.text },
              store, .error (.syncFailed e.text))
          | _, _ => (db, store, result)

end Db

/-! ## The journal -/

/-- A stored part of a journaled batch. -/
structure JournalPart where
  sequence : Nat
  part : Nat
  entry : Datum

def Store.journalParts (s : Store) : List JournalPart :=
  s.journal.toList.map fun ((sequence, part), entry) => { sequence, part, entry }

/-- `journal::decode`. -/
def decodeJournal : Datum → Except Error WriteBatch
  | .writes ops => .ok ops
  | _ => .error (.storage "corrupt journal entry")

/-- The writes that `recover_journal` commits. -/
def recoveryWrites (committed applied : Nat) : List JournalPart → Except Error WriteBatch
  | [] => .ok []
  | p :: parts => do
    let ops ← if committed < p.sequence ∧ p.sequence ≤ applied then decodeJournal p.entry else .ok []
    let rest ← recoveryWrites committed applied parts
    .ok (ops ++ .deleteJournal p.sequence p.part :: rest)

/-- Bring storage to the state after batch `applied`, the newest batch that the target
applied: commit the journaled batches up to it, in order, and drop the others. -/
def recoverJournal (store : Store) (commitFault syncFault : Outcome) (applied : Option Nat) :
    Store × Except Error Unit :=
  let parts := store.journalParts
  match applied with
  | none =>
    match parts.head? with
    | some first =>
      (store, .error (.invalidOperation ("the database holds change batches from sequence " ++
        toString first.sequence ++ " that were returned and not acked: open it with the applied " ++
        "sequence of the target")))
    | none => (store, .ok ())
  | some applied =>
    match metaU64 store metaNextSequence with
    | .error e => (store, .error e)
    | .ok next =>
      -- the newest batch whose writes are on disk; 0 before the first
      let committed := match next with
        | some next => next - 1
        | none => 0
      if applied < committed then
        (store, .error (.invalidOperation ("the target applied batch " ++ toString applied ++
          ", but batch " ++ toString committed ++
          " is acked: the target lost batches that it applied, or does not store their sequence")))
      else
        let journaled := (parts.filter fun p => p.part == 0).map JournalPart.sequence
        match (List.range' (committed + 1) (applied - committed)).find? fun s =>
            !journaled.contains s with
        | some missing =>
          (store, .error (.invalidOperation ("the target applied batch " ++ toString applied ++
            ", but the database has no record of batch " ++ toString missing)))
        | none =>
          match recoveryWrites committed applied parts with
          | .error e => (store, .error e)
          | .ok recovery =>
            if recovery.isEmpty then (store, .ok ())
            else
              match commitFault with
              | some e => (store, .error e)
              | none =>
                match syncFault with
                | some e => (store.commit recovery, .error e)
                | none => (store.commit recovery, .ok ())

end Settle
