import ForgeCI.LogQueue
import ForgeCI.RequestSizes

/-!
# The accounts of the log queue

Any number of writers call `Enqueue`, one uploader peeks at batches and acknowledges the one it
has seen last, and `Fail` and `Close` may come at any time.  Every call is one section under the
queue's mutex, so an interleaving is a list of calls.

A request is measured twice: `PeekBatch` estimates what a chunk will need, and the server limits
the text that `json.Marshal` makes of it.
-/

namespace LogAccounts

open JobLogs LogQueue FileTree JsonText RunnerProto
open Artifact (utf8)

structure State where
  queue : Queue := {}
  /-- The batch the uploader has seen last. -/
  batch : List Chunk := []
  /-- The chunks `Enqueue` has accepted, with the numbers it has returned. -/
  accepted : List Chunk := []
  acked : Nat := 0

inductive Action where
  | enqueue (writer : Nat) (stream : Stream) (payload : List UInt8)
  | peekBatch
  | ack
  | fail (e : QueueError)
  | close

def step (s : State) : Action → State
  | .enqueue _ stream payload =>
      match s.queue.enqueue stream payload with
      | .accepted q n => { s with queue := q, accepted := s.accepted ++ [⟨n, stream, payload⟩] }
      | _ => s
  | .peekBatch =>
      { s with batch := s.queue.peekBatch maxLogChunksPerRequest maxLogAppendBodyBytes }
  | .ack =>
      match s.queue.ack s.batch.length with
      | .ok q => { s with queue := q, acked := s.acked + s.batch.length }
      | .error _ => s
  | .fail e => { s with queue := s.queue.fail e }
  | .close => { s with queue := s.queue.close }

/-- An interleaving, from `NewPendingLogQueue` on. -/
def run (calls : List Action) : State := calls.foldl step {}

/-- The bytes of the payloads. -/
def payloadBytes (chunks : List Chunk) : Nat := (chunks.map fun c => c.payload.length).sum

structure Counted (s : State) : Prop where
  pending : s.queue.pending = payloadBytes s.queue.chunks
  bounded : s.queue.pending ≤ maxPendingLogBytes
  numbered : Numbered s.accepted
  next : s.queue.next = s.accepted.length
  acked : s.acked ≤ s.accepted.length
  retained : s.queue.chunks = s.accepted.drop s.acked
  wellFormed : ∀ c ∈ s.accepted, c.wellFormed = true

variable {s : State} {q : Queue} {n : Nat} {stream : Stream} {payload : List UInt8}

theorem Counted.enqueue (h : Counted s) (hq : s.queue.enqueue stream payload = .accepted q n) :
    Counted { s with queue := q, accepted := s.accepted ++ [⟨n, stream, payload⟩] } := by
  obtain ⟨hne, hsize, -, -, rfl, hchunks, hnext, -, -, hpending⟩ := Queue.enqueue_accepted hq
  have hroom : q.pending ≤ maxPendingLogBytes := by
    unfold Queue.enqueue at hq
    split at hq
    · cases hq
    split at hq
    · cases hq
    split_ifs at hq with hclosed hfits
    cases hq
    exact hfits
  refine ⟨?_, hroom, ?_, ?_, ?_, ?_, ?_⟩
  · rw [hpending, hchunks, h.pending]
    simp [payloadBytes]
  · apply h.numbered.concat
    show s.queue.next + 1 = _
    rw [h.next]
  · simp [hnext, h.next]
  · simpa using Nat.le_succ_of_le h.acked
  · rw [hchunks, h.retained, List.drop_append_of_le_length h.acked]
  · intro c hc
    rcases List.mem_append.1 hc with hc | hc
    · exact h.wellFormed c hc
    · rw [List.mem_singleton.1 hc]
      simp only [Chunk.wellFormed, Bool.and_eq_true, decide_eq_true_eq]
      exact ⟨⟨by omega, fun hzero => hne (List.length_eq_zero_iff.1 hzero)⟩, hsize⟩

theorem Counted.ack {count : Nat} (h : Counted s) (hq : s.queue.ack count = .ok q) :
    Counted { s with queue := q, acked := s.acked + count } := by
  unfold Queue.ack at hq
  split_ifs at hq with hcount
  cases hq
  have hsum : payloadBytes s.queue.chunks =
      payloadBytes (s.queue.chunks.take count) + payloadBytes (s.queue.chunks.drop count) := by
    unfold payloadBytes
    rw [← List.sum_append, ← List.map_append, List.take_append_drop]
  have hpending : s.queue.pending - payloadBytes (s.queue.chunks.take count) =
      payloadBytes (s.queue.chunks.drop count) := by
    rw [h.pending]
    omega
  refine { h with
    pending := hpending
    bounded := (Nat.sub_le _ _).trans h.bounded
    acked := ?_
    retained := ?_ }
  · have hlength : s.queue.chunks.length = s.accepted.length - s.acked := by
      rw [h.retained, List.length_drop]
    have := h.acked
    show s.acked + count ≤ s.accepted.length
    omega
  · show s.queue.chunks.drop count = _
    rw [h.retained, List.drop_drop]

/-- **Every call keeps the account.** -/
theorem step_counted (h : Counted s) (call : Action) : Counted (step s call) := by
  cases call with
  | enqueue writer stream payload =>
    simp only [step]
    split
    · next q n hq => exact h.enqueue hq
    · exact h
  | peekBatch => exact { h with }
  | ack =>
    simp only [step]
    split
    · next q hq => exact h.ack hq
    · exact h
  | fail e =>
    have hfields : (s.queue.fail e).pending = s.queue.pending ∧
        (s.queue.fail e).chunks = s.queue.chunks ∧ (s.queue.fail e).next = s.queue.next := by
      unfold Queue.fail
      split_ifs <;> exact ⟨rfl, rfl, rfl⟩
    obtain ⟨hpending, hchunks, hnext⟩ := hfields
    exact { h with
      pending := by
        show (s.queue.fail e).pending = payloadBytes (s.queue.fail e).chunks
        rw [hpending, hchunks]
        exact h.pending
      bounded := hpending.trans_le h.bounded
      next := hnext.trans h.next
      retained := hchunks.trans h.retained }
  | close => exact { h with }

/-- **So does every interleaving.** -/
theorem run_counted (calls : List Action) : Counted (run calls) := by
  have hall : ∀ s, Counted s → Counted (calls.foldl step s) := by
    induction calls with
    | nil => exact fun s h => h
    | cons call rest ih => exact fun s h => ih (step s call) (step_counted h call)
  exact hall {} ⟨rfl, Nat.zero_le _, rfl, rfl, le_rfl, rfl, by simp⟩

/-- The value an `int64` has after `n` increments. -/
def int64 (n : Nat) : Int := (n : Int).bmod (2 ^ 64)

/-- A digit of the standard encoding. -/
def digit64 (n : Nat) : UInt8 :=
  UInt8.ofNat (if n < 26 then 0x41 + n else if n < 52 then 0x61 + (n - 26)
    else if n < 62 then 0x30 + (n - 52) else if n = 62 then 0x2b else 0x2f)

/-- `base64.StdEncoding`. -/
def base64 : List UInt8 → Bytes
  | [] => []
  | [a] => [digit64 (a.toNat / 4), digit64 (a.toNat % 4 * 16), 0x3d, 0x3d]
  | [a, b] => [digit64 (a.toNat / 4), digit64 (a.toNat % 4 * 16 + b.toNat / 16),
      digit64 (b.toNat % 16 * 4), 0x3d]
  | a :: b :: c :: rest => digit64 (a.toNat / 4) :: digit64 (a.toNat % 4 * 16 + b.toNat / 16) ::
      digit64 (b.toNat % 16 * 4 + c.toNat / 64) :: digit64 (c.toNat % 64) :: base64 rest

def streamText : Stream → String
  | .stdout => "stdout"
  | .stderr => "stderr"

/-- `json.Marshal` of a `PendingLogChunk`. -/
def chunkJson (c : Chunk) : Bytes :=
  ascii "\x7b\"sequence\":" ++ integer (int64 c.sequence) ++
    ascii ",\"stream\":" ++ string (ascii (streamText c.stream)) ++
    ascii ",\"payload\":\"" ++ base64 c.payload ++ ascii "\"\x7d"

/-- The body `appendLogBatch` builds. -/
def logBody (t : Transport) (job : Bytes) (batch : List Chunk) : Bytes :=
  ascii "\x7b\"chunks\":" ++ array chunkJson batch ++
    ascii ",\"generation\":" ++ integer (int64 t.generation) ++
    ascii ",\"job_name\":" ++ string job ++
    ascii ",\"lease_id\":" ++ string (uuidBytes t.leaseID) ++
    ascii ",\"run_id\":" ++ string (uuidBytes t.runID) ++
    ascii ",\"runner_id\":" ++ string t.runnerID ++ ascii "\x7d"

theorem length_base64 (payload : List UInt8) :
    (base64 payload).length = 4 * ((payload.length + 2) / 3) := by
  induction payload using base64.induct with
  | case1 => rfl
  | case2 a => simp [base64]
  | case3 a b => simp [base64]
  | case4 a b c rest ih =>
    simp only [base64, List.length_cons, ih]
    omega

theorem length_int64_le (n : Nat) : (integer (int64 n)).length ≤ 20 := by
  have hlow : -(2 ^ 64 : Nat) / 2 ≤ int64 n := Int.le_bmod (by decide)
  have hhigh : int64 n < ((2 ^ 64 : Nat) + 1) / 2 := Int.bmod_lt (by decide)
  have hsize : (int64 n).natAbs < 10 ^ 19 := by omega
  have hnumber := length_number_le (by decide) hsize
  unfold integer
  split_ifs
  · rw [List.length_cons]
    omega
  · omega

/-- **A chunk and the comma after it need no more than `PeekBatch` estimates.** -/
theorem length_chunkJson_le (c : Chunk) : (chunkJson c).length + 1 ≤ encodedSize c := by
  have hsequence := length_int64_le c.sequence
  have hstream : (string (ascii (streamText c.stream))).length = 8 := by
    cases c.stream <;> decide
  unfold chunkJson encodedSize
  simp only [List.length_append, length_base64, hstream]
  simp [ascii]
  omega

/-- What a request needs besides the texts of the job and the runner. -/
theorem length_logBody_le (t : Transport) (job : Bytes) {batch : List Chunk}
    (hcount : batch.length ≤ maxLogChunksPerRequest) (hwf : ∀ c ∈ batch, c.wellFormed = true) :
    (logBody t job batch).length ≤ 700788 + (string job).length + (string t.runnerID).length := by
  have hgeneration := length_int64_le t.generation
  have hchunks : (array chunkJson batch).length ≤ 1 + 8 * 87576 := by
    have hsizes : (array chunkJson (batch.map id)).length =
        listSize (fun c => (chunkJson c).length + 1) batch := length_array_eq fun c _ => rfl
    rw [List.map_id] at hsizes
    rw [hsizes]
    refine listSize_le hcount (by decide) (fun c hc => ?_) (by decide)
    have hchunk := hwf c hc
    simp only [Chunk.wellFormed, Bool.and_eq_true, decide_eq_true_eq] at hchunk
    have hpayload : c.payload.length ≤ 65536 := hchunk.2
    have := length_chunkJson_le c
    unfold encodedSize at this
    omega
  unfold logBody
  simp only [List.length_append, length_string_uuidBytes]
  simp [ascii]
  omega

/-- A job name, or any text of 56 KiB, as a request has it. -/
theorem length_string_jobName_le {job : String}
    (h : Config.jobNamePattern job = true ∧ (utf8 job).length ≤ 64 * 1024 ∨
      (utf8 job).length ≤ 56 * 1024) : (string (utf8 job)).length ≤ 344066 := by
  rcases h with ⟨hname, hlength⟩ | hlength
  · rw [length_string_plain (plain_jobName hname)]
    omega
  · have := length_string_le (utf8 job)
    omega

/-- **The accounts of the queue.**  After every interleaving the counter is the bytes retained,
within the bound; the accepted chunks are numbered from one, and those after the acknowledged
ones are retained as they were; a batch is taken from the front, empty only if nothing is
pending; and the request made of it is within the server's limits, for every job name of up to
64 KiB, and for any other text of up to 56 KiB, which may need six bytes for one.  A runner's
identity is a text `uuid.Parse` accepts, of 45 bytes at most. -/
theorem queue_accounts (calls : List Action) :
    let s := run calls
    let batch := s.queue.peekBatch maxLogChunksPerRequest maxLogAppendBodyBytes
    (s.queue.pending = payloadBytes s.queue.chunks ∧ s.queue.pending ≤ 1024 * 1024) ∧
    (s.accepted.map Chunk.sequence = List.range' 1 s.accepted.length ∧
      s.acked ≤ s.accepted.length ∧ s.queue.chunks = s.accepted.drop s.acked) ∧
    (batch <+: s.queue.chunks ∧ (s.queue.chunks ≠ [] → batch ≠ [])) ∧
    batch.length ≤ maxLogChunksPerRequest ∧
    ∀ (t : Transport) (job : String), t.runnerID.length ≤ 45 →
      (Config.jobNamePattern job = true ∧ (utf8 job).length ≤ 64 * 1024 ∨
        (utf8 job).length ≤ 56 * 1024) →
      (logBody t (utf8 job) batch).length ≤ maxLogAppendBodyBytes := by
  intro s batch
  have h : Counted s := run_counted calls
  have hwf : ∀ c ∈ s.queue.chunks, c.wellFormed = true := fun c hc =>
    h.wellFormed c (List.mem_of_mem_drop (h.retained ▸ hc))
  have hfront : batch <+: s.queue.chunks := s.queue.peekBatch_front _ _
  have hcount : batch.length ≤ maxLogChunksPerRequest := length_peekLoop_le _ (Nat.zero_le _)
  refine ⟨⟨h.pending, h.bounded⟩, ⟨h.numbered, h.acked, h.retained⟩,
    ⟨hfront, fun hne => Queue.peekBatch_ne_nil hne hwf⟩, hcount, ?_⟩
  intro t job hrunner hjob
  have hbody := length_logBody_le t (utf8 job) hcount fun c hc => hwf c (hfront.subset hc)
  have hname := length_string_jobName_le hjob
  have hid := length_string_le t.runnerID
  unfold maxLogAppendBodyBytes
  omega

end LogAccounts
