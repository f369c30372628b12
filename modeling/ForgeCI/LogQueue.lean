import Mathlib.Algebra.GroupWithZero.Nat
import ForgeCI.JobLogs

/-!
# The queue of pending log chunks

`PendingLogQueue` numbers the chunks of a job and keeps those that the server has not
acknowledged.  Each exported method is one section under the queue's mutex, and is one
function here; a method that would wait reports so.
-/

namespace LogQueue

open JobLogs

def maxPendingLogBytes : Nat := 1024 * 1024

def maxLogChunkBytes : Nat := 64 * 1024

def maxLogAppendBodyBytes : Nat := 1024 * 1024

/-- The errors a queue records or returns. -/
inductive QueueError where
  | invalidChunk
  | closed
  | invalidAcknowledgement
  | upload
  | canceled
deriving DecidableEq

/-- `PendingLogQueue`; who waits on the channel `notify` is part of the waiting
party's state. -/
structure Queue where
  chunks : List Chunk := []
  pending : Nat := 0
  next : Nat := 0
  closed : Bool := false
  failure : Option QueueError := none

/-- What one pass through the loop of `Enqueue` comes to. -/
inductive Enqueued where
  | accepted (queue : Queue) (sequence : Nat)
  | refused (e : QueueError)
  | full

/-- The locked section of `Enqueue`. -/
def Queue.enqueue (stream : Stream) (payload : List UInt8) (q : Queue) : Enqueued :=
  if payload.length = 0 ∨ maxLogChunkBytes < payload.length then .refused .invalidChunk
  else match q.failure with
  | some e => .refused e
  | none =>
      if q.closed then .refused .closed
      else if q.pending + payload.length ≤ maxPendingLogBytes then
        .accepted { q with
          chunks := q.chunks ++ [⟨q.next + 1, stream, payload⟩]
          pending := q.pending + payload.length
          next := q.next + 1 } (q.next + 1)
      else .full

/-- The estimate `PeekBatch` makes of an encoded chunk. -/
def encodedSize (c : Chunk) : Nat :=
  4 * ((c.payload.length + 2) / 3) + 192

/-- The loop of `PeekBatch`. -/
def peekLoop (maxChunks maxBodyBytes : Nat) : Nat → Nat → List Chunk → List Chunk
  | _, _, [] => []
  | taken, used, c :: rest =>
      if taken = maxChunks then []
      else if maxBodyBytes < used + encodedSize c then []
      else c :: peekLoop maxChunks maxBodyBytes (taken + 1) (used + encodedSize c) rest

/-- `PeekBatch`. -/
def Queue.peekBatch (maxChunks maxBodyBytes : Nat) (q : Queue) : List Chunk :=
  peekLoop (min maxChunks maxLogChunksPerRequest) (min maxBodyBytes maxLogAppendBodyBytes)
    0 512 q.chunks

/-- `Ack`. -/
def Queue.ack (count : Nat) (q : Queue) : Except QueueError Queue :=
  if q.chunks.length < count then .error .invalidAcknowledgement
  else .ok { q with
    pending := q.pending - ((q.chunks.take count).map fun c => c.payload.length).sum
    chunks := q.chunks.drop count }

/-- `Fail`. -/
def Queue.fail (e : QueueError) (q : Queue) : Queue :=
  if q.failure = none then { q with failure := some e } else q

/-- `Close`. -/
def Queue.close (q : Queue) : Queue :=
  { q with closed := true }

variable {q q' : Queue} {maxChunks maxBodyBytes taken used : Nat}

theorem peekLoop_front (l : List Chunk) : peekLoop maxChunks maxBodyBytes taken used l <+: l := by
  induction l generalizing taken used with
  | nil => exact List.prefix_rfl
  | cons c rest ih => grind [peekLoop]

/-- A batch is taken from the front of the queue. -/
theorem Queue.peekBatch_front (maxChunks maxBodyBytes : Nat) (q : Queue) :
    q.peekBatch maxChunks maxBodyBytes <+: q.chunks :=
  peekLoop_front q.chunks

/-- **A batch is never empty while a chunk is pending**: every chunk alone fits in a
request. -/
theorem Queue.peekBatch_ne_nil (hne : q.chunks ≠ []) (hwf : ∀ c ∈ q.chunks, c.wellFormed = true) :
    q.peekBatch maxLogChunksPerRequest maxLogAppendBodyBytes ≠ [] := by
  unfold peekBatch
  cases hq : q.chunks with
  | nil => exact absurd hq hne
  | cons c rest =>
    have hc := hwf c (by simp [hq])
    simp only [Chunk.wellFormed, Bool.and_eq_true, decide_eq_true_eq] at hc
    have hsize : 512 + encodedSize c ≤ min maxLogAppendBodyBytes maxLogAppendBodyBytes := by
      grind [encodedSize, maxLogAppendBodyBytes, maxJobLogChunk]
    unfold peekLoop
    rw [if_neg (by decide), if_neg (by omega)]
    exact List.cons_ne_nil _ _

theorem length_peekLoop_le {maxChunks maxBodyBytes taken used : Nat} (l : List Chunk)
    (h : taken ≤ maxChunks) :
    (peekLoop maxChunks maxBodyBytes taken used l).length ≤ maxChunks - taken := by
  induction l generalizing taken used with
  | nil => exact Nat.zero_le _
  | cons c rest ih => grind [peekLoop]

/-- What an accepted chunk does to the queue. -/
theorem Queue.enqueue_accepted {stream : Stream} {payload : List UInt8} {n : Nat}
    (h : q.enqueue stream payload = .accepted q' n) :
    payload ≠ [] ∧ payload.length ≤ maxLogChunkBytes ∧ q.failure = none ∧ q.closed = false ∧
      n = q.next + 1 ∧ q'.chunks = q.chunks ++ [⟨n, stream, payload⟩] ∧ q'.next = n ∧
      q'.closed = false ∧ q'.failure = none ∧ q'.pending = q.pending + payload.length := by
  unfold enqueue at h
  split at h
  · cases h
  rename_i hsize
  push Not at hsize
  split at h
  · cases h
  rename_i hfailure
  grind

end LogQueue
