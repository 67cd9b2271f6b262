import CodeRag.Lib.Routine
import CodeRag.Services.Config
import CodeRag.Storage.Db

-- One `CodeRAG` object, which many calls use at a time.

-- An exception, or the cancellation of a call, which `except Exception` does not catch.
inductive Interrupt
  | exn (e : Exn)
  | cancelled

-- The embedder that was created as the `id`-th object, with the settings it was created from.
structure EmbedderHandle where
  id       : Nat
  settings : Settings

structure Distiller where
  settings : Settings

-- An open storage with its connection.
structure StorageHandle where
  conn     : Nat
  embedder : Option EmbedderHandle
  mode     : AccessMode

-- What is written down about the calls: that the settings of a version are in effect from here on,
-- that a call has used its embedder and its distiller, and that a call was cancelled while it was
-- opening a connection.
inductive Event
  | refreshed (embedding : Bool) (version : Nat)
  | used (call : Nat) (embedder : Option EmbedderHandle) (distiller : Option Distiller)
  | interrupted

-- The fields of the object, then the open connections and the closed embedders of the process, and
-- the next unused number for one of these.
structure Client where
  embedder    : Option EmbedderHandle
  parser      : Bool
  distiller   : Option Distiller
  storage     : Option StorageHandle
  connections : List Nat
  closed      : List Nat
  fresh       : Nat
  log         : List Event

-- `lock` is the call that holds `_op_lock`.
structure Instance where
  lock   : Option Nat
  file   : ConfigFile
  dbPath : String
  client : Client

-- How an attempt to connect ends.
inductive Connecting
  | connected
  | busy
  | failed (message : String)
  deriving DecidableEq

-- What the outside world does in a step: `raised` is what the awaited operation raises, `cancelled`
-- whether the call is cancelled instead.
structure Outside where
  raised     : Option Exn
  cancelled  : Bool
  connecting : Connecting
  saving     : Saving
  dbExists   : Bool

-- `version` is the number of writes of the configuration file when a call has changed it.
inductive Answer
  | none
  | config (result : DistillerConfig) (version : Nat)

-- `retries` is the number of failed attempts to connect that end before the deadline, `awaits` the
-- number of awaits of the work on an open storage.
inductive Operation
  | sync (path : Option String) (indexAll : Bool) (retries awaits : Nat)
  | search (retries awaits : Nat)
  | rebuild (retries awaits : Nat)
  | api (java : Bool) (retries awaits : Nat)
  | config (request : ConfigRequest)
  | close

def Outside.interrupt (o : Outside) : Option Interrupt :=
  if o.cancelled then some .cancelled else o.raised.map .exn

-- Work of a call on the object.
abbrev Work := Routine Instance Outside Interrupt

namespace Work

open Routine

-- A part between two awaits, which cannot be interrupted.
def update (f : Client → Client) : Work Unit :=
  act (fun s _ => some { s with client := f s.client }) fun _ _ => .ok ()

def read {α : Type} (f : Instance → α) : Work α :=
  act (fun s _ => some s) fun s _ => .ok (f s)

-- `path.exists()`
def checkExists : Work Unit :=
  act (fun s _ => some s) fun s o =>
    if o.dbExists then .ok ()
    else .error (.exn (.storage s!"Database file not found: {s.dbPath}" none))

def record (e : Event) : Work Unit :=
  update fun c => { c with log := c.log ++ [e] }

def outcome {α : Type} (a : α) (o : Outside) : Except Interrupt α :=
  match o.interrupt with
  | none   => .ok a
  | some i => .error i

def await : Work Unit :=
  act (fun s _ => some s) fun _ o => outcome () o

-- An await during which a connection is open that only this call knows.
def awaitOpening : Work Unit :=
  act (fun s o => some (if o.cancelled then
      { s with client := { s.client with log := s.client.log ++ [.interrupted] } } else s))
    fun _ o => outcome () o

-- `async with self._op_lock`. A call that waits can be cancelled.
def acquire (k : Nat) : Work Unit :=
  act (fun s o => if o.cancelled then some s else
      if s.lock = none then some { s with lock := some k } else none)
    fun _ o => if o.cancelled then .error .cancelled else .ok ()

def release : Work Unit :=
  act (fun s _ => some { s with lock := none }) fun _ _ => .ok ()

def withLock {α : Type} (k : Nat) (t : Work α) : Work α := do
  acquire k
  t.andFinally release

section Connections

def storageBusyError : Exn :=
  .storage "Storage is busy" (some .storageBusy)

-- `duckdb.connect` on its own thread. When the call is cancelled the thread may still connect.
def connect : Work (Connecting × Nat) :=
  act (fun s o =>
      let opened := { s.client with
        connections := s.client.connections ++ [s.client.fresh], fresh := s.client.fresh + 1 }
      let c := if o.connecting = .connected then opened else s.client
      some { s with client := if o.cancelled then { c with log := c.log ++ [.interrupted] } else c })
    fun s o => if o.cancelled then .error .cancelled else .ok (o.connecting, s.client.fresh)

def connectWithRetry (retries : Nat) : Work Nat := do
  match ← connect with
  | (.connected, conn) => pure conn
  | (.failed msg, _)   => throw (.exn (.storage s!"Failed to open storage: {msg}" none))
  | (.busy, _)         =>
    match retries with
    | 0     => throw (.exn storageBusyError)
    | n + 1 => do
      await
      connectWithRetry n

def closeConnection (conn : Nat) : Work Unit :=
  update fun c => { c with connections := c.connections.erase conn }

-- What follows when the database is connected.
def finishOpening (embedder : Option EmbedderHandle) (mode : AccessMode) (conn : Nat) :
    Work StorageHandle := do
  if mode = .readWrite then awaitOpening -- apply_rw_schema
  awaitOpening                           -- finalize_rw_open
  pure { conn := conn, embedder := embedder, mode := mode }

-- `except Exception: conn.close(); raise`
def abandon (conn : Nat) : Interrupt → Work StorageHandle
  | .exn e     => do closeConnection conn; throw (.exn e)
  | .cancelled => throw .cancelled

def openDbConnection (embedder : Option EmbedderHandle) (mode : AccessMode) (wipe : Bool)
    (retries : Nat) : Work StorageHandle := do
  if wipe ∧ mode = .readOnly then
    throw (.exn (.storage "wipe=True is not supported in read-only mode" none))
  if mode = .readOnly then
    checkExists
  else
    if embedder.isNone then throw (.exn (.storage "embedder is required" none))
  let conn ← connectWithRetry retries
  (finishOpening embedder mode conn).handle (abandon conn)

def closeStorage (storage : StorageHandle) : Work Unit :=
  closeConnection storage.conn

def setStorage (storage : Option StorageHandle) : Work Unit :=
  update fun c => { c with storage := storage }

-- `yield storage`, after which the storage is closed.
def useStorage (storage : StorageHandle) (body : StorageHandle → Work Unit) : Work Unit := do
  setStorage (some storage)
  (body storage).andFinally do
    closeStorage storage
    setStorage none

end Connections

section Stack

def newEmbedder (settings : Settings) : Work EmbedderHandle :=
  act (fun s _ => some { s with client := { s.client with fresh := s.client.fresh + 1 } })
    fun s _ => .ok { id := s.client.fresh, settings := settings }

def createEmbedder (settings : Settings) : Work EmbedderHandle := do
  let base  := settings.config.embeddingBase
  let model := settings.config.embeddingModel
  if base.isNone ≠ model.isNone then throw (.exn embeddingPairError)
  if ¬(truthy base ∧ truthy model) then await -- LocalOnnxEmbedder
  newEmbedder settings

def createStack : Work (EmbedderHandle × Distiller) := do
  let settings ← read (·.file.load)
  let distiller : Distiller := { settings := settings }
  let embedder ← createEmbedder settings
  pure (embedder, distiller)

def ensureStack : Work Unit := do
  match ← read (·.client.embedder) with
  | some _ => pure ()
  | none   => do
    let (embedder, distiller) ← createStack
    update fun c => { c with embedder := embedder, parser := true, distiller := distiller }

def closeEmbedder (embedder : EmbedderHandle) : Work Unit :=
  update fun c => { c with closed := embedder.id :: c.closed }

end Stack

def notInitialized : Interrupt :=
  .exn (.other "process stack is not initialized")

def withStorage (k : Nat) (mode : AccessMode) (wipe : Bool) (retries : Nat)
    (body : StorageHandle → Work Unit) : Work Unit :=
  withLock k do
    ensureStack
    match ← read (·.client.embedder) with
    | none          => throw notInitialized
    | some embedder => do
      let storage ← openDbConnection (some embedder) mode wipe retries
      useStorage storage body

def withMetadata (retries : Nat) (body : StorageHandle → Work Unit) : Work Unit := do
  let storage ← openDbConnection none .readOnly false retries
  useStorage storage body

-- Work that uses an embedder and a distiller between its awaits.
def perform (k : Nat) (embedder : Option EmbedderHandle) (distiller : Option Distiller) :
    Nat → Work Unit
  | 0     => pure ()
  | n + 1 => do
    record (.used k embedder distiller)
    await
    perform k embedder distiller n

def performIndexing (k awaits : Nat) (storage : StorageHandle) : Work Unit := do
  let parser    ← read (·.client.parser)
  let distiller ← read (·.client.distiller)
  if ¬parser ∨ distiller.isNone then throw notInitialized
  perform k storage.embedder distiller awaits

def sync (k : Nat) (path : Option String) (indexAll : Bool) (retries awaits : Nat) : Work Unit :=
  if path.isNone ∧ ¬indexAll then
    pure ()
  else
    withStorage k .readWrite false retries (performIndexing k awaits)

def search (k retries awaits : Nat) : Work Unit :=
  withStorage k .readOnly false retries fun storage => perform k storage.embedder none awaits

def rebuild (k retries awaits : Nat) : Work Unit :=
  withStorage k .readWrite true retries (performIndexing k awaits)

def apiJava (k retries awaits : Nat) : Work Unit :=
  withLock k <| withMetadata retries fun storage => perform k storage.embedder none awaits

-- `run_api` for the other languages, which opens no storage.
def runApi : Nat → Work Unit
  | 0     => pure ()
  | n + 1 => do
    await
    runApi n

def api (k : Nat) (java : Bool) (retries awaits : Nat) : Work Unit :=
  if java then apiJava k retries awaits else runApi awaits

def dropStack : Work Unit := do
  match ← read (·.client.embedder) with
  | none          => pure ()
  | some embedder => do
    closeEmbedder embedder
    update fun c => { c with embedder := none }
  update fun c => { c with parser := false, distiller := none }

def close (k : Nat) : Work Unit :=
  withLock k do
    match ← read (·.client.storage) with
    | none         => pure ()
    | some storage => do
      closeStorage storage
      setStorage none
    dropStack

def loadOrUpdateConfig (request : ConfigRequest) : Work (DistillerConfig × Nat) :=
  let attempt := fun (s : Instance) (o : Outside) =>
    match o.raised with
    | some e => Except.error e
    | none   => s.file.loadOrUpdateConfig request o.saving
  act (fun s o =>
      match attempt s o with
      | .ok (_, file, _) => some { s with file := file }
      | .error _         => some s)
    fun s o =>
      match attempt s o with
      | .ok (result, file, _) => .ok (result, file.version)
      | .error e              => .error (.exn e)

def refreshDistiller : Work Unit := do
  match ← read (·.client.distiller) with
  | none   => pure ()
  | some _ => do
    let settings ← read (·.file.load)
    update fun c => { c with distiller := some { settings := settings } }

def invalidateStackAfterConfig (k : Nat) (embedding distill : Bool) (version : Nat) : Work Unit :=
  if ¬embedding ∧ ¬distill then
    pure ()
  else
    withLock k do
      if embedding ∧ (← read (·.client.embedder)).isSome then
        dropStack
      else if distill then
        refreshDistiller
      record (.refreshed embedding version)

def config (k : Nat) (request : ConfigRequest) : Work (DistillerConfig × Nat) := do
  let result ← loadOrUpdateConfig request
  invalidateStackAfterConfig k request.embeddingFieldsRequested request.distillFieldsRequested result.2
  pure result

-- What a call does, given its number.
def run : Operation → Nat → Work Answer
  | .sync path indexAll retries awaits, k => do
    sync k path indexAll retries awaits
    pure .none
  | .search retries awaits, k => do
    search k retries awaits
    pure .none
  | .rebuild retries awaits, k => do
    rebuild k retries awaits
    pure .none
  | .api java retries awaits, k => do
    api k java retries awaits
    pure .none
  | .config request, k => do
    let (result, version) ← config k request
    pure (.config result version)
  | .close, k => do
    close k
    pure .none

end Work

-- A `CodeRAG` object before its first call.
def Instance.create (file : ConfigFile) (dbPath : String) : Instance where
  lock   := none
  file   := file
  dbPath := dbPath
  client := {
    embedder    := none
    parser      := false
    distiller   := none
    storage     := none
    connections := []
    closed      := []
    fresh       := 0
    log         := [] }
