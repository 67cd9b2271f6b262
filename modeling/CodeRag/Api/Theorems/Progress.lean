import CodeRag.Lib.Progress
import CodeRag.Api.Theorems.Lifetime

-- Calls on the object never all wait for its lock, and leave nothing open.

namespace Work

open Routine

variable {α β : Type} {k retries awaits : Nat} {t : Work α} {settings : Settings}
variable {embedder : Option EmbedderHandle} {distiller : Option Distiller} {mode : AccessMode} {wipe : Bool}

section Total

theorem total_update {f : Client → Client} : (update f).Total :=
  .act fun _ _ => rfl

theorem total_read {f : Instance → α} : (read f).Total :=
  .act fun _ _ => rfl

theorem total_await : await.Total :=
  .act fun _ _ => rfl

theorem total_awaitOpening : awaitOpening.Total :=
  .act fun _ _ => rfl

theorem total_createEmbedder : (createEmbedder settings).Total := by
  have hnew : (newEmbedder settings).Total := .act fun _ _ => rfl
  unfold createEmbedder
  dsimp only
  split
  case isTrue  => exact trivial
  case isFalse =>
    split
    case isTrue  => exact total_await.bind fun _ => hnew
    case isFalse => exact hnew

theorem total_ensureStack : ensureStack.Total := by
  refine total_read.bind fun found => ?_
  cases found
  case some => exact trivial
  case none =>
    refine Total.bind ?_ fun _ => total_update
    exact total_read.bind fun _ => total_createEmbedder.bind fun _ => trivial

theorem total_connectWithRetry : (connectWithRetry retries).Total := by
  induction retries
  all_goals
    unfold connectWithRetry
    refine Total.bind (.act fun _ _ => rfl) fun found => ?_
    obtain ⟨connecting, conn⟩ := found
    cases connecting
    case connected => exact trivial
    case failed    => exact trivial
  case zero    => exact trivial
  case succ ih => exact total_await.bind fun _ => ih

theorem total_openDbConnection : (openDbConnection embedder mode wipe retries).Total := by
  have hfinish : ∀ conn, (finishOpening embedder mode conn).Total := by
    intro conn
    have hlast : (do
        awaitOpening
        pure { conn := conn, embedder := embedder, mode := mode } : Work StorageHandle).Total :=
      total_awaitOpening.bind fun _ => trivial
    unfold finishOpening
    dsimp only
    split
    case isTrue  => exact total_awaitOpening.bind fun _ => hlast
    case isFalse => exact hlast
  have habandon : ∀ conn e, (abandon conn e).Total := by
    intro conn e
    cases e
    case exn       => exact total_update.bind fun _ => trivial
    case cancelled => exact trivial
  have hconnect : (do
      let conn ← connectWithRetry retries
      (finishOpening embedder mode conn).handle (abandon conn)).Total :=
    total_connectWithRetry.bind fun conn => (hfinish conn).handle (habandon conn)
  unfold openDbConnection
  dsimp only
  split
  case isTrue  => exact trivial
  case isFalse =>
    split
    case isTrue  => exact Total.bind (.act fun _ _ => rfl) fun _ => hconnect
    case isFalse =>
      split
      case isTrue  => exact trivial
      case isFalse => exact hconnect

theorem total_closeStorage {storage : StorageHandle} : (closeStorage storage).Total := by
  unfold closeStorage closeConnection
  exact total_update

theorem total_setStorage {storage : Option StorageHandle} : (setStorage storage).Total := by
  unfold setStorage
  exact total_update

theorem total_useStorage {storage : StorageHandle} {body : StorageHandle → Work Unit}
    (hb : (body storage).Total) : (useStorage storage body).Total :=
  total_setStorage.bind fun _ => hb.andFinally (total_closeStorage.bind fun _ => total_setStorage)

theorem total_perform : (perform k embedder distiller awaits).Total := by
  induction awaits
  case zero    => exact trivial
  case succ ih => exact total_update.bind fun _ => total_await.bind fun _ => ih

theorem total_performIndexing {storage : StorageHandle} : (performIndexing k awaits storage).Total := by
  refine total_read.bind fun parser => total_read.bind fun distiller => ?_
  dsimp only
  split
  case isTrue  => exact trivial
  case isFalse => exact total_perform

theorem total_dropStack : dropStack.Total := by
  refine total_read.bind fun found => ?_
  cases found
  case none => exact total_update
  case some => exact total_update.bind fun _ => total_update.bind fun _ => total_update

theorem total_refreshDistiller : refreshDistiller.Total := by
  refine total_read.bind fun found => ?_
  cases found
  case none => exact trivial
  case some => exact total_read.bind fun _ => total_update

end Total

section Asks

-- Work that takes the lock waits for nothing else.
theorem withLock_asks (ht : t.Total) : (withLock k t).Asks Instance.lock := by
  intro s o
  dsimp only
  cases ho : o.cancelled
  case true  => exact ⟨fun _ => rfl, fun _ _ => .inl trivial⟩
  case false =>
    refine ⟨fun hl => ?_, fun _ _ => .inl (ht.andFinally (.act fun _ _ => rfl))⟩
    rw [if_neg Bool.false_ne_true, if_pos hl]
    rfl

theorem withStorage_asks {body : StorageHandle → Work Unit} (hb : ∀ st, (body st).Total) :
    (withStorage k mode wipe retries body).Asks Instance.lock := by
  refine withLock_asks (total_ensureStack.bind fun _ => total_read.bind fun found => ?_)
  cases found
  case none => exact trivial
  case some => exact total_openDbConnection.bind fun st => total_useStorage (hb st)

theorem runApi_plain : (runApi awaits).Plain Instance.lock := by
  induction awaits
  case zero    => exact trivial
  case succ ih => exact Plain.bind (.act fun s _ => ⟨s, rfl, rfl⟩) fun _ => ih

theorem api_asks {java : Bool} : (api k java retries awaits).Asks Instance.lock := by
  unfold api
  split
  case isTrue  =>
    exact withLock_asks (total_openDbConnection.bind fun st => total_useStorage total_perform)
  case isFalse => exact runApi_plain.asks

theorem close_asks : (close k).Asks Instance.lock := by
  refine withLock_asks (total_read.bind fun found => ?_)
  cases found
  case none => exact total_dropStack
  case some =>
    exact total_closeStorage.bind fun _ => total_setStorage.bind fun _ => total_dropStack

-- The file of the settings is written before the lock is taken.
theorem loadOrUpdateConfig_plain {request : ConfigRequest} :
    (loadOrUpdateConfig request).Plain Instance.lock := by
  refine .act fun s o => ?_
  dsimp only
  split
  case h_1 => exact ⟨_, rfl, rfl⟩
  case h_2 => exact ⟨s, rfl, rfl⟩

theorem invalidateStackAfterConfig_asks {embedding distill : Bool} {version : Nat} :
    (invalidateStackAfterConfig k embedding distill version).Asks Instance.lock := by
  unfold invalidateStackAfterConfig
  split
  case isTrue  => exact trivial
  case isFalse =>
    refine withLock_asks (total_read.bind fun found => ?_)
    dsimp only
    split
    case isTrue  => exact total_dropStack.bind fun _ => total_update
    case isFalse =>
      split
      case isTrue  => exact total_refreshDistiller.bind fun _ => total_update
      case isFalse => exact total_update

theorem run_asks (p : Operation) : (run p k).Asks Instance.lock := by
  have hanswer : ∀ {t : Work Unit}, t.Asks Instance.lock →
      (t >>= fun _ => pure Answer.none).Asks Instance.lock := fun ht => ht.bind fun _ => ⟨trivial, trivial⟩
  cases p
  case sync =>
    refine hanswer ?_
    unfold sync
    split
    case isTrue  => exact trivial
    case isFalse => exact withStorage_asks fun _ => total_performIndexing
  case search  => exact hanswer (withStorage_asks fun _ => total_perform)
  case rebuild => exact hanswer (withStorage_asks fun _ => total_performIndexing)
  case api     => exact hanswer api_asks
  case close   => exact hanswer close_asks
  case config  =>
    refine Asks.bind ?_ fun _ => ⟨trivial, trivial⟩
    exact loadOrUpdateConfig_plain.bind_asks fun _ =>
      invalidateStackAfterConfig_asks.bind fun _ => ⟨trivial, trivial⟩

end Asks

theorem owns : Calls.Owns Instance.lock run Instance.rely (fun k => Instance.Free k 0) Answers where
  asks p _   := run_asks p
  others h   := h.right.left
  begins h   := h.lock
  ends h     := h.left.lock

end Work

namespace Completes

open Instance

variable {file : ConfigFile} {dbPath : String} {c : Calls Operation Instance Outside Interrupt Answer}

section Sample

private def calm : Outside where
  raised     := none
  cancelled  := false
  connecting := .connected
  saving     := .written
  dbExists   := true

end Sample

end Completes
