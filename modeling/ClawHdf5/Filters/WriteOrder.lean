import Mathlib.Tactic.IntervalCases
import ClawHdf5.Filters.ChunkWriter
import ClawHdf5.Math.MachineInt

/-!
# Commits in write order

A commit writes the chunk data, the companion nodes and the root attribute, each followed by
a sync, and only then marks the chunk's log records committed. The root attribute carries the
next dataset version, which is burned before it is presented to the sink.

Sinks and the storage of the log are arbitrary, so every operation of theirs may fail at any
point of a run. A run records what each call asked of its sink and what came of it.
-/

namespace ClawHdf5.Filters

open Stateful MachineInt List EncryptedChunkWriter

/-- The three durable steps of a commit. -/
inductive WriteStep
  | chunkData
  | companionNodes
  | rootAttribute
  deriving DecidableEq

/-- A storage backend for the three steps. -/
class MerkleWriteSink (S : Type) (E : outParam Type) where
  writeChunkData (chunkIdx : UInt64) (ciphertext : Bytes) : EStateM E S Unit
  writeCompanionNodes (nodes : Bytes) : EStateM E S Unit
  writeRootAttribute (root companionHash : Bytes) (datasetVersion : UInt64) : EStateM E S Unit
  /-- Make all preceding writes durable. -/
  sync : EStateM E S Unit

inductive WriteOrderError (E : Type)
  | sink (step : WriteStep) (source : E)
  | wal (source : EncryptedWriteError)
  | datasetVersionExhausted
  deriving DecidableEq

namespace EncryptedChunkWriter

variable {W S E α : Type}

/-- An operation of the sink, as part of a step. -/
def onSink (step : WriteStep) (x : EStateM E S α) :
    EStateM (WriteOrderError E) (EncryptedChunkWriter W × S) α :=
  within Prod.snd (fun state sink => (state.1, sink)) (.sink step) x

def onWriter (x : EStateM EncryptedWriteError (EncryptedChunkWriter W) α) :
    EStateM (WriteOrderError E) (EncryptedChunkWriter W × S) α :=
  within Prod.fst (fun state writer => (writer, state.2)) .wal x

def advanceDatasetVersion (presented : UInt64) (writer : EncryptedChunkWriter W) :
    EncryptedChunkWriter W :=
  { writer with datasetVersion := presented }

variable [Storage W] [MerkleWriteSink S E]

/-- Commit a chunk mutation: chunk data, companion nodes and root attribute, each made durable
before the next, and last the log records. -/
def commitWithWriteOrder (result : EncryptedChunkResult)
    (companionNodes root companionHash : Bytes) :
    EStateM (WriteOrderError E) (EncryptedChunkWriter W × S) Unit := do
  let state ← get
  match checkedAdd state.1.datasetVersion 1 with
  | none => throw .datasetVersionExhausted
  | some nextDatasetVersion =>
    onSink .chunkData (MerkleWriteSink.writeChunkData result.chunkIdx result.ciphertext)
    onSink .chunkData MerkleWriteSink.sync
    onSink .companionNodes (MerkleWriteSink.writeCompanionNodes companionNodes)
    onSink .companionNodes MerkleWriteSink.sync
    -- Whether a failed write reached the disk is unknown, so the version is spent either way.
    modify fun state => (advanceDatasetVersion nextDatasetVersion state.1, state.2)
    onSink .rootAttribute
      (MerkleWriteSink.writeRootAttribute root companionHash nextDatasetVersion)
    onSink .rootAttribute MerkleWriteSink.sync
    onWriter (commit result.chunkIdx result.version)

end EncryptedChunkWriter

/-! ### Recorded calls -/

inductive SinkCall
  | writeChunkData (chunkIdx : UInt64) (ciphertext : Bytes)
  | writeCompanionNodes (nodes : Bytes)
  | writeRootAttribute (root companionHash : Bytes) (datasetVersion : UInt64)
  | sync
  deriving DecidableEq

structure SinkEvent where
  call : SinkCall
  succeeded : Bool
  deriving DecidableEq

/-- A sink with the calls made of it. -/
structure Recorded (S : Type) where
  sink : S
  log : List SinkEvent

namespace Recorded

variable {S E : Type}

/-- Pass a call on to the sink and note what came of it. -/
def record (call : SinkCall) (x : EStateM E S Unit) : EStateM E (Recorded S) Unit := fun r =>
  match x r.sink with
  | .ok u sink => .ok u ⟨sink, r.log ++ [⟨call, true⟩]⟩
  | .error e sink => .error e ⟨sink, r.log ++ [⟨call, false⟩]⟩

instance [MerkleWriteSink S E] : MerkleWriteSink (Recorded S) E where
  writeChunkData chunkIdx ciphertext :=
    record (.writeChunkData chunkIdx ciphertext)
      (MerkleWriteSink.writeChunkData chunkIdx ciphertext)
  writeCompanionNodes nodes :=
    record (.writeCompanionNodes nodes) (MerkleWriteSink.writeCompanionNodes nodes)
  writeRootAttribute root companionHash datasetVersion :=
    record (.writeRootAttribute root companionHash datasetVersion)
      (MerkleWriteSink.writeRootAttribute root companionHash datasetVersion)
  sync := record .sync MerkleWriteSink.sync

theorem ensures_record (call : SinkCall) (x : EStateM E S Unit) (r : Recorded S) :
    Ensures (fun _ r' => r'.log = r.log ++ [⟨call, true⟩])
      (fun _ r' => r'.log = r.log ++ [⟨call, false⟩]) (record call x r) := by
  unfold record
  cases x r.sink <;> rfl

end Recorded

/-- The arguments of a commit in write order, with the sink as it is then. -/
structure CommitCall (S : Type) where
  result : EncryptedChunkResult
  companionNodes : Bytes
  root : Bytes
  companionHash : Bytes
  sink : S

/-- The calls of one commit before its root attribute, in order. -/
def dataScript {S : Type} (call : CommitCall S) : List SinkCall :=
  [.writeChunkData call.result.chunkIdx call.result.ciphertext, .sync,
    .writeCompanionNodes call.companionNodes, .sync]

def writeScript {S : Type} (call : CommitCall S) (datasetVersion : UInt64) : List SinkCall :=
  dataScript call ++ [.writeRootAttribute call.root call.companionHash datasetVersion, .sync]

/-- Calls that all succeeded. -/
def completed (calls : List SinkCall) : List SinkEvent := calls.map (⟨·, true⟩)

/-- The log of a script whose first `k` calls succeeded and whose next one, if any, failed. -/
def logAfter (script : List SinkCall) (k : ℕ) : List SinkEvent :=
  completed (script.take k) ++ ((script.drop k).take 1).map (⟨·, false⟩)

theorem map_call_logAfter {script : List SinkCall} (k : ℕ) :
    (logAfter script k).map SinkEvent.call = script.take (k + 1) := by
  rw [logAfter, completed, map_append, map_map, map_map]
  simp only [Function.comp_def, map_id']
  rw [take_add]

theorem take_logAfter {script : List SinkCall} {n k : ℕ} (hn : n ≤ k) (hk : k ≤ script.length) :
    (logAfter script k).take n = completed (script.take n) := by
  have hlen : (completed (script.take k)).length = k := by
    rw [completed, length_map, length_take_of_le hk]
  rw [logAfter, take_append_of_le_length (hn.trans_eq hlen.symm), completed,
    ← map_take, take_take, min_eq_left hn]
  rfl

/-! ### One commit -/

section

variable {W S E : Type} {writer : EncryptedChunkWriter W}

/-- A commit whose first `k` sink calls succeeded: before the root attribute nothing of the
writer changed, from then on the dataset version is burned, and the log of versions is touched
only after all six calls. -/
structure Reached (writer : EncryptedChunkWriter W) (call : CommitCall S) (version : UInt64)
    (k : ℕ) (writer' : EncryptedChunkWriter W) (log : List SinkEvent) : Prop where
  log_eq : log = logAfter (writeScript call version) k
  unchanged : k < 4 → writer' = writer
  burned : 4 ≤ k → writer'.datasetVersion = version
  wal_eq : k < 6 → writer'.wal = writer.wal

/-- What a commit can come to: the dataset versions are exhausted and nothing happens, or it
gets through some of its sink calls with the next dataset version. -/
def Outcome (writer : EncryptedChunkWriter W) (call : CommitCall S)
    (writer' : EncryptedChunkWriter W) (log : List SinkEvent) : Prop :=
  log = [] ∧ writer' = writer ∨
    ∃ k ≤ 6, ∃ version, writer.datasetVersion < version ∧ Reached writer call version k writer' log

theorem ensures_onSink_record (script : List SinkCall) (k : ℕ) {call : SinkCall}
    {r : Recorded S} (hlog : r.log = completed (script.take k)) (hcall : script[k]? = some call)
    (step : WriteStep) (x : EStateM E S Unit) :
    Ensures (fun _ state => writer = state.1 ∧ state.2.log = completed (script.take (k + 1)))
      (fun _ state => writer = state.1 ∧ state.2.log = logAfter script k)
      (onSink step (Recorded.record call x) (writer, r)) := by
  obtain ⟨hlt, hget⟩ := List.getElem?_eq_some_iff.mp hcall
  refine ensures_within.mpr ((Recorded.ensures_record call x r).mono ?_ ?_)
  · intro _ r' hr'
    refine ⟨rfl, ?_⟩
    rw [hr', hlog, take_succ_eq_append_getElem hlt, hget, completed, completed, map_append]
    rfl
  · intro _ r' hr'
    refine ⟨rfl, ?_⟩
    rw [hr', hlog, logAfter, drop_eq_getElem_cons hlt, hget]
    rfl

variable [Storage W] [MerkleWriteSink S E]

/-- A commit makes its sink calls in order until one fails. -/
theorem ensures_commitWithWriteOrder (writer : EncryptedChunkWriter W) (call : CommitCall S) :
    Ensures (fun _ state => Outcome writer call state.1 state.2.log)
      (fun _ state => Outcome writer call state.1 state.2.log)
      (commitWithWriteOrder call.result call.companionNodes call.root
        call.companionHash (writer, (⟨call.sink, []⟩ : Recorded S))) := by
  rw [commitWithWriteOrder, ensures_get_bind]
  cases hnext : checkedAdd writer.datasetVersion 1 with
  | none => exact .inl ⟨rfl, rfl⟩
  | some version =>
    have hlt : writer.datasetVersion < version := by
      rw [UInt64.lt_iff_toNat_lt, checkedAdd_eq_some.mp hnext]
      exact Nat.lt_succ_self _
    -- A sink call that fails before the version is burned leaves the writer as it was.
    have hearly : ∀ k < 4, ∀ (e : WriteOrderError E) (state : EncryptedChunkWriter W × Recorded S),
        writer = state.1 ∧ state.2.log = logAfter (writeScript call version) k →
          Outcome writer call state.1 state.2.log := by
      rintro k hk e state ⟨hwriter, hlog⟩
      exact .inr ⟨k, by omega, version, hlt, hlog, fun _ => hwriter.symm, fun h => by omega,
        fun _ => by rw [hwriter]⟩
    have hlate : ∀ k, 4 ≤ k → k < 6 →
        ∀ (e : WriteOrderError E) (state : EncryptedChunkWriter W × Recorded S),
        writer.advanceDatasetVersion version = state.1 ∧
            state.2.log = logAfter (writeScript call version) k →
          Outcome writer call state.1 state.2.log := by
      rintro k hk hk' e state ⟨hwriter, hlog⟩
      refine .inr ⟨k, by omega, version, hlt, hlog, fun h => by omega, fun _ => ?_, fun _ => ?_⟩
      · rw [← hwriter]
        rfl
      · rw [← hwriter]
        rfl
    apply ((ensures_onSink_record (writeScript call version) 0 rfl rfl _ _).mono
      (fun _ _ h => h) (hearly 0 (by decide))).bind
    rintro _ ⟨_, r₁⟩ ⟨rfl, hlog₁⟩
    apply ((ensures_onSink_record (writeScript call version) 1 hlog₁ rfl _ _).mono
      (fun _ _ h => h) (hearly 1 (by decide))).bind
    rintro _ ⟨_, r₂⟩ ⟨rfl, hlog₂⟩
    apply ((ensures_onSink_record (writeScript call version) 2 hlog₂ rfl _ _).mono
      (fun _ _ h => h) (hearly 2 (by decide))).bind
    rintro _ ⟨_, r₃⟩ ⟨rfl, hlog₃⟩
    apply ((ensures_onSink_record (writeScript call version) 3 hlog₃ rfl _ _).mono
      (fun _ _ h => h) (hearly 3 (by decide))).bind
    rintro _ ⟨_, r₄⟩ ⟨rfl, hlog₄⟩
    apply ((ensures_onSink_record (writeScript call version) 4 hlog₄ rfl _ _).mono
      (fun _ _ h => h) (hlate 4 (by decide) (by decide))).bind
    rintro _ ⟨_, r₅⟩ ⟨rfl, hlog₅⟩
    apply ((ensures_onSink_record (writeScript call version) 5 hlog₅ rfl _ _).mono
      (fun _ _ h => h) (hlate 5 (by decide) (by decide))).bind
    rintro _ ⟨_, r₆⟩ ⟨rfl, hlog₆⟩
    have hdone : ∀ writer' : EncryptedChunkWriter W, writer'.datasetVersion = version →
        Outcome writer call writer' r₆.log := by
      intro writer' hburned
      exact .inr ⟨6, le_rfl, version, hlt, hlog₆, fun h => by omega, fun _ => hburned,
        fun h => by omega⟩
    refine ensures_within.mpr ((keeps_datasetVersion_commit _ _ _).mono ?_ ?_)
    · intro _ writer' hkept
      exact hdone writer' hkept
    · intro _ writer' hkept
      exact hdone writer' hkept

end

/-! ### Runs -/

inductive WriterCall (S : Type)
  | encryptChunk (chunkIdx : UInt64) (plaintext : Bytes)
  | recover
  | commitWithWriteOrder (call : CommitCall S)

/-- A commit of a run: the writer before and after it, and what it asked of its sink. -/
structure Attempt (W S : Type) where
  call : CommitCall S
  before : EncryptedChunkWriter W
  after : EncryptedChunkWriter W
  log : List SinkEvent

/-- The dataset version that a call presents to the sink. -/
def SinkCall.presented : SinkCall → Option UInt64
  | .writeRootAttribute _ _ datasetVersion => some datasetVersion
  | .writeChunkData _ _ => none
  | .writeCompanionNodes _ => none
  | .sync => none

/-- The dataset version that an event presented to the sink. -/
def SinkEvent.presented (event : SinkEvent) : Option UInt64 := event.call.presented

def recordAt (log : Bytes) (i : ℕ) : Option WalRecord :=
  if h : ((log.drop (slotOffset i)).take walRecordSize).length = walRecordSize then
    match parseSlot i ⟨(log.drop (slotOffset i)).take walRecordSize, h⟩ with
    | .ok slot => slot
    | .error _ => none
  else none

section

variable {W S E : Type} [Storage W] [MerkleWriteSink S E]

/-- One commit, on a sink that records its calls. -/
def attemptCommit (writer : EncryptedChunkWriter W) (call : CommitCall S) : Attempt W S :=
  let state := finalState (EncryptedChunkWriter.commitWithWriteOrder call.result
    call.companionNodes call.root call.companionHash (writer, (⟨call.sink, []⟩ : Recorded S)))
  ⟨call, writer, state.1, state.2.log⟩

/-- The commits of a sequence of calls of one writer. A call that fails leaves the writer as it
is then. -/
def attempts (crates : CryptoCrates) (writer : EncryptedChunkWriter W) :
    List (WriterCall S) → List (Attempt W S)
  | [] => []
  | .encryptChunk chunkIdx plaintext :: calls =>
    attempts crates
      (finalState (EncryptedChunkWriter.encryptChunk crates chunkIdx plaintext writer)) calls
  | .recover :: calls => attempts crates (finalState (EncryptedChunkWriter.recover writer)) calls
  | .commitWithWriteOrder call :: calls =>
    attemptCommit writer call :: attempts crates (attemptCommit writer call).after calls

theorem outcome_attemptCommit (writer : EncryptedChunkWriter W) (call : CommitCall S) :
    Outcome writer call (attemptCommit writer call).after (attemptCommit writer call).log :=
  finalState_of_ensures (ensures_commitWithWriteOrder writer call)

/-- What a commit presents: nothing, or one version above all that were presented before. -/
theorem presented_attemptCommit (writer : EncryptedChunkWriter W) (call : CommitCall S) :
    (attemptCommit writer call).log.filterMap SinkEvent.presented = [] ∧
        (attemptCommit writer call).after.datasetVersion = writer.datasetVersion ∨
      ∃ version, (attemptCommit writer call).log.filterMap SinkEvent.presented = [version] ∧
        (attemptCommit writer call).after.datasetVersion = version ∧
        writer.datasetVersion < version := by
  rcases outcome_attemptCommit writer call with ⟨hlog, hafter⟩ | ⟨k, hk, version, hlt, hreached⟩
  · rw [hlog, hafter]
    exact .inl ⟨rfl, rfl⟩
  · rw [hreached.log_eq]
    by_cases hroot : k < 4
    · rw [hreached.unchanged hroot]
      refine .inl ⟨?_, rfl⟩
      interval_cases k <;> rfl
    · refine .inr ⟨version, ?_, hreached.burned (not_lt.mp hroot), hlt⟩
      interval_cases k <;> rfl

/-- Over a run the versions presented strictly increase, from above the writer's own. -/
theorem presented_attempts (crates : CryptoCrates) (writer : EncryptedChunkWriter W)
    (calls : List (WriterCall S)) :
    (((attempts crates writer calls).flatMap Attempt.log).filterMap
        SinkEvent.presented).Pairwise (· < ·) ∧
      ∀ v ∈ ((attempts crates writer calls).flatMap Attempt.log).filterMap SinkEvent.presented,
        writer.datasetVersion < v := by
  induction calls generalizing writer with
  | nil => exact ⟨List.Pairwise.nil, fun v hv => by cases hv⟩
  | cons c calls ih =>
    cases c with
    | encryptChunk chunkIdx plaintext =>
      have hkept := (keeps_datasetVersion_encryptChunk crates chunkIdx plaintext).finalState writer
      rw [← hkept]
      exact ih _
    | recover =>
      have hkept := keeps_datasetVersion_recover.finalState writer
      rw [← hkept]
      exact ih _
    | commitWithWriteOrder call =>
      obtain ⟨hsorted, habove⟩ := ih (attemptCommit writer call).after
      rw [attempts, flatMap_cons, filterMap_append]
      rcases presented_attemptCommit writer call with ⟨hnone, hafter⟩ | ⟨v, hone, hafter, hlt⟩
      · rw [hnone, ← hafter]
        exact ⟨hsorted, habove⟩
      · rw [hone, singleton_append, pairwise_cons]
        rw [hafter] at habove
        refine ⟨⟨habove, hsorted⟩, ?_⟩
        intro u hu
        rcases mem_cons.mp hu with rfl | hu
        · exact hlt
        · exact UInt64.lt_trans hlt (habove u hu)

section

variable {crates : CryptoCrates} {writer : EncryptedChunkWriter W} {calls : List (WriterCall S)}
  {a : Attempt W S} (ha : a ∈ attempts crates writer calls)
include ha

/-- Every attempt of a run is one commit from the writer's state then. -/
theorem eq_attemptCommit_of_mem : a = attemptCommit a.before a.call := by
  induction calls generalizing writer with
  | nil => cases ha
  | cons c calls ih =>
    cases c with
    | encryptChunk chunkIdx plaintext => exact ih ha
    | recover => exact ih ha
    | commitWithWriteOrder call =>
      rcases mem_cons.mp ha with rfl | hrest
      · rfl
      · exact ih hrest

theorem outcome_of_mem : Outcome a.before a.call a.after a.log := by
  have heq := eq_attemptCommit_of_mem ha
  have hout := outcome_attemptCommit a.before a.call
  rwa [← heq] at hout

end

end

theorem eq_four_of_presented {S : Type} (call : CommitCall S) (version : UInt64) {n : ℕ}
    (h : ((writeScript call version)[n]?.bind SinkCall.presented).isSome) : n = 4 := by
  rcases n with _ | _ | _ | _ | _ | _ | n
  case succ.succ.succ.succ.zero => rfl
  all_goals simp [writeScript, dataScript, SinkCall.presented] at h

section

variable {W S : Type} {writer writer' : EncryptedChunkWriter W} {call : CommitCall S}
  {log : List SinkEvent} (h : Outcome writer call writer' log)
include h

/-- A root attribute is presented only after the synced chunk data and companion nodes of the
same commit. -/
theorem Outcome.eq_of_presented {before after : List SinkEvent} {event : SinkEvent}
    (hlog : log = before ++ event :: after) (hroot : event.presented.isSome) :
    before = completed (dataScript call) := by
  rcases h with ⟨hnil, -⟩ | ⟨k, hk, version, -, hreached⟩
  · rw [hnil] at hlog
    cases before <;> cases hlog
  have hlogk := hreached.log_eq.symm.trans hlog
  -- The event is the call of the script at its position.
  have hcall : ((writeScript call version).take (k + 1))[before.length]? = some event.call := by
    rw [← map_call_logAfter, hlogk]
    simp
  have hlt : before.length < k + 1 :=
    (List.getElem?_eq_some_iff.mp hcall).1.trans_le (length_take_le _ _)
  rw [getElem?_take_of_lt hlt] at hcall
  have hpos : before.length = 4 := by
    apply eq_four_of_presented call version
    rw [hcall]
    exact hroot
  calc before = (before ++ event :: after).take 4 := by rw [take_left' hpos]
    _ = (logAfter (writeScript call version) k).take 4 := by rw [hlogk]
    _ = completed (dataScript call) := take_logAfter (by omega) hk

/-- Log records change only in a commit all of whose sink calls succeeded. -/
theorem Outcome.eq_completed_of_wal_ne (hwal : writer'.wal ≠ writer.wal) :
    ∃ version, log = completed (writeScript call version) := by
  rcases h with ⟨-, hsame⟩ | ⟨k, hk, version, -, hreached⟩
  · exact absurd (by rw [hsame]) hwal
  · have hall : k = 6 := by
      by_contra hne
      exact hwal (hreached.wal_eq (by omega))
    refine ⟨version, hreached.log_eq.trans ?_⟩
    rw [hall]
    rfl

end

/-- For every sequence of calls of one writer, whatever fails on the way: the dataset versions
presented to the sinks strictly increase; a root attribute is presented only after the chunk
data and the companion nodes of the same commit were written and synced; and a log record
changes from pending to committed only in a commit whose three writes and three syncs all
succeeded. -/
theorem attempts_ordered {W S E : Type} [Storage W] [MerkleWriteSink S E] (crates : CryptoCrates)
    (writer : EncryptedChunkWriter W) (calls : List (WriterCall S)) (stored : W → Bytes) :
    (((attempts crates writer calls).flatMap Attempt.log).filterMap
        SinkEvent.presented).Pairwise (· < ·) ∧
      (∀ a ∈ attempts crates writer calls, ∀ before event after,
        a.log = before ++ event :: after → event.presented.isSome →
          before = completed (dataScript a.call)) ∧
      ∀ a ∈ attempts crates writer calls, ∀ i record record',
        recordAt (stored a.before.wal.writer) i = some record → record.status = .pending →
        recordAt (stored a.after.wal.writer) i = some record' → record'.status = .committed →
          ∃ version, a.log = completed (writeScript a.call version) := by
  refine ⟨(presented_attempts crates writer calls).1, ?_, ?_⟩
  · intro a ha before event after hlog hroot
    exact (outcome_of_mem ha).eq_of_presented hlog hroot
  · intro a ha i record record' hbefore hpending hafter hcommitted
    apply (outcome_of_mem ha).eq_completed_of_wal_ne
    intro hsame
    rw [hsame, hbefore] at hafter
    cases hafter
    rw [hpending] at hcommitted
    cases hcommitted

/-- A sink that succeeds and fails as told, and then succeeds. -/
structure ScriptedSink where
  outcomes : List Bool

def ScriptedSink.next : EStateM Unit ScriptedSink Unit := fun sink =>
  match sink.outcomes with
  | false :: outcomes => .error () ⟨outcomes⟩
  | true :: outcomes => .ok () ⟨outcomes⟩
  | [] => .ok () sink

instance : MerkleWriteSink ScriptedSink Unit where
  writeChunkData _ _ := ScriptedSink.next
  writeCompanionNodes _ := ScriptedSink.next
  writeRootAttribute _ _ _ := ScriptedSink.next
  sync := ScriptedSink.next

/-- A pending write of chunk 7 in slot 0 of the log. -/
def pendingWriter : EncryptedChunkWriter Cursor :=
  .new ⟨replicate 32 0, rfl⟩
    ⟨⟨walHeader ++
      (WalRecord.newPending 7 1 ⟨replicate 32 0xA1, length_replicate⟩).toBytes.1, 0⟩, 4, 1⟩
    (VersionCounterStore.new.seed 7 1)

/-- Commits of the same result: the first fails at the sync after its root attribute, the second
succeeds, and the third finds no pending record. -/
def replayedCommits : List (WriterCall ScriptedSink) :=
  [[true, true, true, true, true, false], [], []].map fun outcomes =>
    .commitWithWriteOrder ⟨⟨[0x1C], 1, 7⟩, [2], [3], [4], ⟨outcomes⟩⟩

/-- The crates are not called by commits. -/
def noCrates : CryptoCrates where
  hash _ := ⟨replicate 32 0, rfl⟩
  deriveKey _ _ := ⟨replicate 32 0, rfl⟩
  aead _ _ _ _ := none

/-- The failed commit burns version 1 and leaves the record pending; the second commit sweeps it
under version 2, and the replay presents version 3. -/
theorem attempts_ordered_replayed :
    ((attempts noCrates pendingWriter replayedCommits).flatMap Attempt.log).filterMap
        SinkEvent.presented = [1, 2, 3] ∧
      ((attempts noCrates pendingWriter replayedCommits).map fun a =>
          (recordAt a.before.wal.writer.bytes 0).map WalRecord.status) =
        [some .pending, some .pending, some .committed] ∧
      ((attempts noCrates pendingWriter replayedCommits).map fun a =>
          (recordAt a.after.wal.writer.bytes 0).map WalRecord.status) =
        [some .pending, some .committed, some .committed] ∧
      (((attempts noCrates pendingWriter replayedCommits).flatMap Attempt.log).filterMap
        SinkEvent.presented).Pairwise (· < ·) :=
  ⟨by decide +kernel, by decide +kernel, by decide +kernel,
    (attempts_ordered noCrates pendingWriter replayedCommits Cursor.bytes).1⟩

end ClawHdf5.Filters
