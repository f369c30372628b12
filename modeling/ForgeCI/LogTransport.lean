import ForgeCI.LogQueue
import ForgeCI.Traces

/-!
# Job logs on their way to the server

A job on a remote runner is a system of parties: the two writers of the command's
output, the goroutine that uploads the queue, the network, the server and
`executeLeasedJob` itself.  `step` takes one step of one of them; each locked section of
the queue is one step, and so is each transaction of the server.

A request that was sent may be applied at any later time, any number of times or
never, whatever its sender makes of the silence.
-/

namespace LogTransport

open JobLogs LogQueue Traces

/-- Where the goroutine of `uploadLogQueue` stands. -/
inductive Uploader where
  /-- Before `PeekBatch`. -/
  | peek
  /-- After an empty `PeekBatch`, before the second section of `WaitBatch`. -/
  | empty
  /-- In the `select` of `WaitBatch`; `woken` when the channel was closed since. -/
  | waiting (woken : Bool)
  | sending (batch : List Chunk) (attempt : Nat)
  | awaiting (batch : List Chunk) (attempt request : Nat)
  | backoff (batch : List Chunk) (attempt : Nat)
  | acking (batch : List Chunk)
  | failing (e : QueueError)
  | done
deriving DecidableEq

/-- `signalLocked`, as the uploader sees it. -/
def Uploader.signal : Uploader → Uploader
  | .waiting _ => .waiting true
  | u => u

/-- The completion a runner reports. -/
inductive Completion where
  | passed
  | failed
  | canceled
  | error
deriving DecidableEq

/-- Where `executeLeasedJob` stands, from `RunJob` on; a result is the exit code of an
error, or `none`. -/
inductive Phase where
  | running
  | returned (result : Option Int)
  | closed (result : Option Int)
  | drained (result : Option Int)
  | publishing
  | sent (status : Completion)
deriving DecidableEq

/-- The system of one job.  `enqueued` and `written` record what was accepted by the
queue and by the writers. -/
structure Job where
  queue : Queue := {}
  uploader : Uploader := .peek
  phase : Phase := .running
  /-- The bytes that a `Write` in progress has not enqueued yet. -/
  writing : Stream → List UInt8 := fun _ => []
  cancelled : Bool := false
  requests : List (List Chunk) := []
  /-- The requests that the server answered with success. -/
  committed : List Nat := []
  stored : List Chunk := []
  enqueued : List Chunk := []
  written : Stream → List UInt8 := fun _ => []

def logUploadAttempts : Nat := 5

inductive Action where
  | write (stream : Stream) (p : List UInt8)
  | enqueue (stream : Stream)
  | writeFails (stream : Stream)
  | cancel
  | finish (result : Option Int)
  | close
  | peek
  | decide
  | wake
  | leave
  | send
  | apply (request : Nat) (leaseValid : Bool)
  | succeed
  | attemptFails (transient : Bool)
  | retry
  | giveUp
  | ack
  | fail
  | join
  | report
  | publish (failure : Option Bool)

/-- A `Write` that returns an error leaves the rest of its bytes unwritten. -/
def Job.stopWriting (stream : Stream) (j : Job) : Job :=
  { j with
    writing := Function.update j.writing stream []
    written := Function.update j.written stream
      ((j.written stream).take ((j.written stream).length - (j.writing stream).length)) }

/-- One pass of `remoteLogWriter.Write` through its loop. -/
def Job.enqueue (stream : Stream) (j : Job) : Job :=
  let payload := (j.writing stream).take maxLogChunkBytes
  match j.queue.enqueue stream payload with
  | .accepted q n => { j with
      queue := q
      uploader := j.uploader.signal
      enqueued := j.enqueued ++ [⟨n, stream, payload⟩]
      writing := Function.update j.writing stream ((j.writing stream).drop maxLogChunkBytes) }
  | .refused _ => j.stopWriting stream
  | .full => j

/-- The status of a completion after an error. -/
def Job.failureStatus (j : Job) (status : Completion) : Completion :=
  if j.cancelled then .canceled else status

/-- One step of one party; `none` when the party cannot take it. -/
def step (j : Job) : Action → Option Job
  | .write stream p =>
      if j.phase = .running ∧ j.writing stream = [] then
        some { j with
          writing := Function.update j.writing stream p
          written := Function.update j.written stream (j.written stream ++ p) }
      else none
  | .enqueue stream =>
      if j.phase = .running ∧ j.writing stream ≠ [] then some (j.enqueue stream) else none
  -- The context is done while the queue is full, or the runner's own output fails.
  | .writeFails stream =>
      if j.phase = .running ∧ j.writing stream ≠ [] then some (j.stopWriting stream) else none
  | .cancel => some { j with cancelled := true }
  | .finish result =>
      if j.phase = .running ∧ j.writing .stdout = [] ∧ j.writing .stderr = [] then
        some { j with phase := .returned result }
      else none
  | .close =>
      match j.phase with
      | .returned result => some { j with
          phase := .closed result
          queue := j.queue.close
          uploader := j.uploader.signal }
      | _ => none
  | .peek =>
      if j.uploader = .peek then
        let batch := j.queue.peekBatch maxLogChunksPerRequest maxLogAppendBodyBytes
        some { j with uploader := if batch = [] then .empty else .sending batch 0 }
      else none
  | .decide =>
      if j.uploader = .empty then
        some { j with
          uploader := if j.queue.failure.isSome ∨ j.queue.closed then .done else .waiting false }
      else none
  | .wake => if j.uploader = .waiting true then some { j with uploader := .peek } else none
  | .leave =>
      match j.uploader with
      | .waiting _ => if j.cancelled then some { j with uploader := .done } else none
      | _ => none
  | .send =>
      match j.uploader with
      | .sending batch attempt => some { j with
          uploader := .awaiting batch attempt j.requests.length
          requests := j.requests ++ [batch] }
      | _ => none
  | .apply request leaseValid =>
      match j.requests[request]? with
      | none => none
      | some batch =>
          match jobLogAppend leaseValid batch j.stored with
          | .error _ => some j
          | .ok rows => some { j with stored := rows, committed := request :: j.committed }
  | .succeed =>
      match j.uploader with
      | .awaiting batch _ request =>
          if request ∈ j.committed then some { j with uploader := .acking batch } else none
      | _ => none
  | .attemptFails transient =>
      match j.uploader with
      | .awaiting batch attempt _ => some { j with
          uploader := if transient = false ∨ attempt + 1 = logUploadAttempts then .failing .upload
            else .backoff batch attempt }
      | _ => none
  | .retry =>
      match j.uploader with
      | .backoff batch attempt => some { j with uploader := .sending batch (attempt + 1) }
      | _ => none
  | .giveUp =>
      match j.uploader with
      | .backoff _ _ => if j.cancelled then some { j with uploader := .failing .canceled } else none
      | _ => none
  | .ack =>
      match j.uploader with
      | .acking batch =>
          match j.queue.ack batch.length with
          | .error e => some { j with uploader := .failing e }
          | .ok q => some { j with queue := q, uploader := .peek }
      | _ => none
  | .fail =>
      match j.uploader with
      | .failing e => some { j with queue := j.queue.fail e, uploader := .done }
      | _ => none
  | .join =>
      match j.phase with
      | .closed result =>
          if j.uploader = .done then some { j with phase := .drained result } else none
      | _ => none
  | .report =>
      match j.phase with
      | .drained none =>
          some { j with phase := if j.queue.failure.isSome then .sent .error else .publishing }
      | .drained (some code) =>
          some { j with
            phase := .sent (j.failureStatus (if code < 0 then .error else .failed)) }
      | _ => none
  -- `artifacts.Publish` fails with an error of the pipeline or of the infrastructure.
  | .publish failure =>
      if j.phase = .publishing then
        some { j with phase := .sent (match failure with
          | none => .passed
          | some pipelineError => j.failureStatus (if pipelineError then .failed else .error)) }
      else none

/-- A run of the system from its start. -/
abbrev Reaches (tr : List (Step Job Action)) (j : Job) : Prop :=
  Trace (fun j a j' => step j a = some j') {} tr j

/-- The bytes of one stream in a list of chunks. -/
def bytes (stream : Stream) (chunks : List Chunk) : List UInt8 :=
  (chunks.filter (·.stream = stream)).flatMap Chunk.payload

/-- The batch the uploader is working on. -/
def Uploader.batch? : Uploader → Option (List Chunk)
  | .sending batch _ | .awaiting batch _ _ | .backoff batch _ | .acking batch => some batch
  | _ => none

/-- The number of chunks that have left the queue. -/
def Job.acked (j : Job) : Nat :=
  j.enqueued.length - j.queue.chunks.length

/-- What holds between any two steps. -/
structure Job.Sound (j : Job) : Prop where
  numbered : Numbered j.enqueued
  wellFormed : ∀ c ∈ j.enqueued, c.wellFormed = true
  next : j.queue.next = j.enqueued.length
  pending : j.queue.chunks <:+ j.enqueued
  stored : j.stored <+: j.enqueued
  acked : j.acked ≤ j.stored.length
  requests : ∀ batch ∈ j.requests, batch ≠ [] ∧
    ∃ start ≤ j.stored.length, batch <+: j.enqueued.drop start
  committed : ∀ i ∈ j.committed, ∃ batch start, j.requests[i]? = some batch ∧
    batch <+: j.enqueued.drop start ∧ start + batch.length ≤ j.stored.length
  batch : ∀ batch, j.uploader.batch? = some batch → batch ≠ [] ∧ batch <+: j.queue.chunks
  awaiting : ∀ batch attempt request, j.uploader = .awaiting batch attempt request →
    j.requests[request]? = some batch
  acking : ∀ batch, j.uploader = .acking batch → j.acked + batch.length ≤ j.stored.length
  streams : ∀ stream, j.written stream = bytes stream j.enqueued ++ j.writing stream

variable {j j' : Job} {act : Action} {tr : List (Step Job Action)} {stream : Stream}
variable {batch : List Chunk}
  {q : Queue} {p : Phase} {c : Bool}

/-- A step that touches none of the logs keeps the invariant when the uploader's new
place is right. -/
theorem Job.Sound.move (h : j.Sound) {u : Uploader}
    (hchunks : q.chunks = j.queue.chunks) (hnext : q.next = j.queue.next)
    (hbatch : ∀ batch, u.batch? = some batch → batch ≠ [] ∧ batch <+: j.queue.chunks)
    (hawaiting : ∀ batch attempt request, u = .awaiting batch attempt request →
      j.requests[request]? = some batch)
    (hacking : ∀ batch, u = .acking batch → j.acked + batch.length ≤ j.stored.length) :
    { j with queue := q, uploader := u, phase := p, cancelled := c }.Sound :=
  { h with
    next := hnext.trans h.next
    pending := hchunks ▸ h.pending
    acked := by
      simp only [Job.acked, hchunks]
      exact h.acked
    batch := by
      intro batch hbatch'
      rw [hchunks]
      exact hbatch batch hbatch'
    awaiting := hawaiting
    acking := by
      intro batch hacking'
      simp only [Job.acked, hchunks]
      exact hacking batch hacking' }

/-- The uploader is where it was. -/
theorem Job.Sound.stay (h : j.Sound)
    (hchunks : q.chunks = j.queue.chunks) (hnext : q.next = j.queue.next) :
    { j with queue := q, phase := p, cancelled := c }.Sound :=
  h.move hchunks hnext h.batch h.awaiting h.acking

/-- The uploader has no batch in hand. -/
theorem Job.Sound.idle (h : j.Sound) {u : Uploader}
    (hchunks : q.chunks = j.queue.chunks) (hnext : q.next = j.queue.next) (hu : u.batch? = none) :
    { j with queue := q, uploader := u, phase := p, cancelled := c }.Sound := by
  refine h.move hchunks hnext ?_ ?_ ?_
  · grind
  · rintro batch attempt request rfl
    cases hu
  · rintro batch rfl
    cases hu

theorem Uploader.signal_eq (u : Uploader) :
    u.signal = u ∨ (∃ woken, u = .waiting woken) ∧ u.signal = .waiting true := by
  cases u <;> simp [signal]

theorem Job.Sound.signal (h : j.Sound)
    (hchunks : q.chunks = j.queue.chunks) (hnext : q.next = j.queue.next) :
    { j with queue := q, phase := p, uploader := j.uploader.signal }.Sound := by
  rcases j.uploader.signal_eq with heq | ⟨-, heq⟩
  · rw [heq]
    exact h.stay hchunks hnext
  · rw [heq]
    exact h.idle hchunks hnext rfl

/-- What writers have in hand concerns no log. -/
theorem Job.Sound.restream (h : j.Sound) {writing written : Stream → List UInt8}
    (hstreams : ∀ stream, written stream = bytes stream j.enqueued ++ writing stream) :
    { j with writing := writing, written := written }.Sound :=
  { h with streams := hstreams }

theorem Job.Sound.stopWriting (h : j.Sound) (stream : Stream) : (j.stopWriting stream).Sound := by
  refine h.restream fun s => ?_
  by_cases hs : s = stream
  · subst hs
    simp [h.streams s]
  · simp [hs, h.streams s]

theorem Job.Sound.write (h : j.Sound) {p : List UInt8} (hidle : j.writing stream = []) :
    { j with
      writing := Function.update j.writing stream p
      written := Function.update j.written stream (j.written stream ++ p) }.Sound :=
  h.restream (by grind [h.streams])

theorem bytes_concat (stream : Stream) (chunks : List Chunk) (c : Chunk) :
    bytes stream (chunks ++ [c]) =
      bytes stream chunks ++ if c.stream = stream then c.payload else [] := by
  by_cases hc : c.stream = stream
  · simp [bytes, List.filter_append, hc]
  · simp [bytes, List.filter_append, hc]

/-- A part of the log is a part of a longer log. -/
theorem segment_append {log rest : List Chunk} {start : Nat} (hstart : start ≤ log.length)
    (h : batch <+: log.drop start) : batch <+: (log ++ rest).drop start := by
  rw [List.drop_append_of_le_length hstart]
  exact h.trans (List.prefix_append _ _)

/-- Enqueuing acknowledges nothing. -/
theorem Job.Sound.enqueue_acked (h : j.Sound) (stream : Stream) :
    (j.enqueue stream).acked = j.acked := by
  unfold Job.enqueue
  simp only
  split
  · rename_i q n hq
    obtain ⟨-, -, -, -, -, hchunks, -⟩ := Queue.enqueue_accepted hq
    grind [h.pending, Job.acked]
  · rfl
  · rfl

theorem Job.Sound.enqueue (h : j.Sound) (stream : Stream) : (j.enqueue stream).Sound := by
  have hacked := h.enqueue_acked stream
  unfold Job.enqueue at hacked ⊢
  simp only at hacked ⊢
  split
  · rename_i q n hq
    obtain ⟨hne, hsize, -, -, rfl, hchunks, hnext, -, -⟩ := Queue.enqueue_accepted hq
    simp only [hq] at hacked
    constructor
    · apply h.numbered.concat
      show j.queue.next + 1 = _
      rw [h.next]
    · intro c hc
      rcases List.mem_append.1 hc with hc | hc
      · exact h.wellFormed c hc
      · rw [List.mem_singleton.1 hc]
        simp only [Chunk.wellFormed, Bool.and_eq_true, decide_eq_true_eq]
        refine ⟨⟨by omega, ?_⟩, hsize⟩
        exact fun hzero => hne (List.length_eq_zero_iff.1 hzero)
    · show q.next = _
      rw [hnext, h.next]
      simp
    · show q.chunks <:+ _
      rw [hchunks]
      obtain ⟨front, hfront⟩ := h.pending
      exact ⟨front, by rw [← List.append_assoc, hfront]⟩
    · exact h.stored.trans (List.prefix_append _ _)
    · rw [hacked]
      exact h.acked
    · intro batch hbatch
      obtain ⟨hbne, start, hstart, hsegment⟩ := h.requests batch hbatch
      have hlog := h.stored.length_le
      exact ⟨hbne, start, hstart, segment_append (hstart.trans hlog) hsegment⟩
    · intro i hi
      obtain ⟨batch, start, hbatch, hsegment, hend⟩ := h.committed i hi
      have hlog := h.stored.length_le
      exact ⟨batch, start, hbatch, segment_append (by omega) hsegment, hend⟩
    · intro batch hbatch
      show batch ≠ [] ∧ batch <+: q.chunks
      rw [hchunks]
      rcases j.uploader.signal_eq with heq | ⟨-, heq⟩
      · rw [heq] at hbatch
        obtain ⟨hbne, hfront⟩ := h.batch batch hbatch
        exact ⟨hbne, hfront.trans (List.prefix_append _ _)⟩
      · rw [heq] at hbatch
        cases hbatch
    · intro batch attempt request hu
      rcases j.uploader.signal_eq with heq | ⟨-, heq⟩
      · exact h.awaiting batch attempt request (heq.symm.trans hu)
      · cases heq.symm.trans hu
    · intro batch hu
      rw [hacked]
      rcases j.uploader.signal_eq with heq | ⟨-, heq⟩
      · exact h.acking batch (heq.symm.trans hu)
      · cases heq.symm.trans hu
    · intro s
      rw [bytes_concat]
      by_cases hs : s = stream
      · subst hs
        simp [h.streams s]
      · simp [hs, Ne.symm hs, h.streams s]
  · exact h.stopWriting stream
  · exact h

theorem Job.Sound.peek (h : j.Sound) :
    { j with uploader :=
        if j.queue.peekBatch maxLogChunksPerRequest maxLogAppendBodyBytes = [] then .empty
        else
          .sending (j.queue.peekBatch maxLogChunksPerRequest maxLogAppendBodyBytes) 0 }.Sound := by
  by_cases hempty : j.queue.peekBatch maxLogChunksPerRequest maxLogAppendBodyBytes = []
  · rw [if_pos hempty]
    exact h.idle rfl rfl rfl
  · rw [if_neg hempty]
    refine h.move rfl rfl ?_ (fun _ _ _ hu => by cases hu) (fun _ hu => by cases hu)
    intro batch hbatch
    obtain rfl : _ = batch := Option.some.inj hbatch
    exact ⟨hempty, j.queue.peekBatch_front _ _⟩

/-- What is pending starts where the acknowledged part ends. -/
theorem Job.Sound.drop_acked (h : j.Sound) : j.enqueued.drop j.acked = j.queue.chunks :=
  (List.suffix_iff_eq_drop.1 h.pending).symm

theorem Job.Sound.send (h : j.Sound) {attempt : Nat} (hu : j.uploader = .sending batch attempt) :
    { j with
      uploader := .awaiting batch attempt j.requests.length
      requests := j.requests ++ [batch] }.Sound := by
  obtain ⟨hne, hfront⟩ := h.batch batch (by rw [hu]; rfl)
  constructor
  · exact h.numbered
  · exact h.wellFormed
  · exact h.next
  · exact h.pending
  · exact h.stored
  · exact h.acked
  · grind [h.requests, h.acked, h.drop_acked]
  · grind [h.committed]
  · intro b hb
    obtain rfl : batch = b := Option.some.inj hb
    exact ⟨hne, hfront⟩
  · grind
  · intro b hb
    cases hb
  · exact h.streams

/-- **A request may be applied late, twice or beside its retry.** -/
theorem Job.Sound.apply (h : j.Sound) {request : Nat} {leaseValid : Bool} {rows : List Chunk}
    (hbatch : j.requests[request]? = some batch)
    (hrows : jobLogAppend leaseValid batch j.stored = .ok rows) :
    { j with stored := rows, committed := request :: j.committed }.Sound := by
  obtain ⟨hne, start, hstart, hsegment⟩ := h.requests batch (List.mem_of_getElem? hbatch)
  have happend := appendJobLogs_replay h.numbered h.wellFormed h.stored hsegment hne hstart
  rw [jobLogAppend_ok hrows] at happend
  cases happend
  have hstored := h.stored.length_le
  have hend : start + batch.length ≤ j.enqueued.length := by grind
  have hlen : (j.enqueued.take (max j.stored.length (start + batch.length))).length =
      max j.stored.length (start + batch.length) := by
    rw [List.length_take]
    omega
  constructor
  · exact h.numbered
  · exact h.wellFormed
  · exact h.next
  · exact h.pending
  · exact List.take_prefix _ _
  · show j.acked ≤ (j.enqueued.take _).length
    have := h.acked
    rw [hlen]
    omega
  · grind [h.requests]
  · intro i hi
    rcases List.mem_cons.1 hi with rfl | hi
    · exact ⟨batch, start, hbatch, hsegment, by rw [hlen]; omega⟩
    · obtain ⟨b, s, hb, hsegment', hle⟩ := h.committed i hi
      exact ⟨b, s, hb, hsegment', by rw [hlen]; omega⟩
  · exact h.batch
  · exact h.awaiting
  · intro b hb
    have := h.acking b hb
    show j.acked + b.length ≤ (j.enqueued.take _).length
    rw [hlen]
    omega
  · exact h.streams

/-- A batch that was committed is stored up to its end. -/
theorem Job.Sound.committed_batch (h : j.Sound) {attempt request : Nat}
    (hu : j.uploader = .awaiting batch attempt request) (hrequest : request ∈ j.committed) :
    j.acked + batch.length ≤ j.stored.length := by
  obtain ⟨hne, hfront⟩ := h.batch batch (by rw [hu]; rfl)
  obtain ⟨b, start, hb, hsegment, hend⟩ := h.committed request hrequest
  obtain rfl : batch = b := Option.some.inj ((h.awaiting batch attempt request hu).symm.trans hb)
  rw [← h.drop_acked] at hfront
  rwa [h.numbered.start_unique hne hfront hsegment]

theorem Job.Sound.ack (h : j.Sound) (hu : j.uploader = .acking batch)
    (hq : j.queue.ack batch.length = .ok q) : { j with queue := q, uploader := .peek }.Sound := by
  obtain ⟨hne, hfront⟩ := h.batch batch (by rw [hu]; rfl)
  have hlen := hfront.length_le
  have hpending := h.pending.length_le
  have hacking := h.acking batch hu
  unfold Queue.ack at hq
  rw [if_neg (by omega)] at hq
  cases hq
  constructor
  · exact h.numbered
  · exact h.wellFormed
  · exact h.next
  · exact (List.drop_suffix _ _).trans h.pending
  · exact h.stored
  · grind [Job.acked]
  · exact h.requests
  · exact h.committed
  · intro b hb
    cases hb
  · intro b k request hb
    cases hb
  · intro b hb
    cases hb
  · exact h.streams

/-- **Every step keeps the invariant.** -/
theorem step_sound (h : j.Sound) (hstep : step j act = some j') : j'.Sound := by
  cases act with
  | write stream p => grind [h.write, step]
  | enqueue stream =>
    simp only [step, Option.ite_none_right_eq_some, Option.some.injEq] at hstep
    grind [h.enqueue]
  | writeFails stream => grind [h.stopWriting, step]
  | cancel =>
    cases hstep
    exact h.stay rfl rfl
  | finish result => grind [h.stay, step]
  | close =>
    simp only [step] at hstep
    split at hstep
    · cases hstep
      exact h.signal rfl rfl
    · cases hstep
  | peek => grind [h.peek, step]
  | decide =>
    simp only [step, Option.ite_none_right_eq_some, Option.some.injEq] at hstep
    obtain ⟨-, rfl⟩ := hstep
    refine h.idle rfl rfl ?_
    split_ifs <;> rfl
  | wake =>
    simp only [step, Option.ite_none_right_eq_some, Option.some.injEq] at hstep
    obtain ⟨-, rfl⟩ := hstep
    exact h.idle rfl rfl rfl
  | leave =>
    simp only [step] at hstep
    split at hstep
    · simp only [Option.ite_none_right_eq_some, Option.some.injEq] at hstep
      obtain ⟨-, rfl⟩ := hstep
      exact h.idle rfl rfl rfl
    · cases hstep
  | send => grind [h.send, step]
  | apply request leaseValid =>
    simp only [step] at hstep
    split at hstep
    · cases hstep
    · rename_i hbatch
      split at hstep
      · grind
      · rename_i hrows
        cases hstep
        exact h.apply hbatch hrows
  | succeed =>
    simp only [step] at hstep
    split at hstep
    · rename_i batch attempt request hu
      simp only [Option.ite_none_right_eq_some, Option.some.injEq] at hstep
      obtain ⟨hrequest, rfl⟩ := hstep
      refine h.move rfl rfl ?_ (fun _ _ _ hu => by cases hu) ?_
      · intro b hb
        exact h.batch b (by rw [hu]; exact hb)
      · intro b hb
        cases hb
        exact h.committed_batch hu hrequest
    · cases hstep
  | attemptFails transient =>
    simp only [step] at hstep
    split at hstep
    · rename_i batch attempt request hu
      cases hstep
      split_ifs
      · exact h.idle rfl rfl rfl
      · refine h.move rfl rfl ?_ (fun _ _ _ hu => by cases hu) (fun _ hu => by cases hu)
        intro b hb
        exact h.batch b (by rw [hu]; exact hb)
    · cases hstep
  | retry =>
    simp only [step] at hstep
    split at hstep
    · rename_i batch attempt hu
      cases hstep
      refine h.move rfl rfl ?_ (fun _ _ _ hu => by cases hu) (fun _ hu => by cases hu)
      intro b hb
      exact h.batch b (by rw [hu]; exact hb)
    · cases hstep
  | giveUp =>
    simp only [step] at hstep
    split at hstep
    · simp only [Option.ite_none_right_eq_some, Option.some.injEq] at hstep
      obtain ⟨-, rfl⟩ := hstep
      exact h.idle rfl rfl rfl
    · cases hstep
  | ack =>
    simp only [step] at hstep
    split at hstep
    · rename_i hu
      split at hstep
      · cases hstep
        exact h.idle rfl rfl rfl
      · rename_i hq
        grind [h.ack]
    · cases hstep
  | fail =>
    simp only [step] at hstep
    split at hstep
    · cases hstep
      refine h.idle ?_ ?_ rfl <;>
      · unfold Queue.fail
        split_ifs <;> rfl
    · cases hstep
  | join | report => grind [h.stay, step]
  | publish failure =>
    simp only [step, Option.ite_none_right_eq_some, Option.some.injEq] at hstep
    grind [h.stay]

theorem init_sound : ({} : Job).Sound := by
  constructor <;> simp [Numbered, Job.acked, bytes, Uploader.batch?]

/-- The invariant holds in every reachable state. -/
theorem Reaches.sound (h : Reaches tr j) : j.Sound :=
  h.final_invariant Job.Sound init_sound fun _ _ _ hs hstep => step_sound hs hstep

theorem bytes_append (stream : Stream) (a b : List Chunk) :
    bytes stream (a ++ b) = bytes stream a ++ bytes stream b := by
  simp [bytes, List.filter_append]

/-- **Exactly-once ordered transport.**  In every reachable state the stored chunks are
a prefix of the enqueued ones, which are numbered in the order of their acceptance, and
the stored bytes of a stream are a prefix of the bytes written to it. -/
theorem transport_ordered (h : Reaches tr j) :
    Numbered j.enqueued ∧ j.stored <+: j.enqueued ∧
      ∀ stream, bytes stream j.stored <+: j.written stream := by
  have hsound := h.sound
  refine ⟨hsound.numbered, hsound.stored, fun stream => ?_⟩
  obtain ⟨rest, hrest⟩ := hsound.stored
  rw [hsound.streams stream, ← hrest, bytes_append, List.append_assoc]
  exact List.prefix_append _ _

/-- A chunk is sent, the response of the server is lost, and the late retry is applied
beside the first request. -/
def Sample.resent : List Action :=
  [.write .stdout [104, 105], .enqueue .stdout, .peek, .send, .apply 0 true, .attemptFails true,
    .retry, .send, .apply 0 true, .apply 1 true, .succeed, .ack]

/-- The chunk is stored once. -/
theorem resent_ordered : ∃ tr j, Reaches tr j ∧ j.stored = [⟨1, .stdout, [104, 105]⟩] ∧
    Numbered j.enqueued ∧ j.stored <+: j.enqueued ∧
      ∀ stream, bytes stream j.stored <+: j.written stream := by
  have hrun : (Sample.resent.foldlM step {}).map Job.stored =
      some [⟨1, .stdout, [104, 105]⟩] := by decide
  obtain ⟨tr, j, htr, -, hstored⟩ := Trace.of_foldlM_map hrun
  exact ⟨tr, j, htr, hstored, transport_ordered htr⟩

end LogTransport
