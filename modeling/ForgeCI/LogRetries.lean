import ForgeCI.DurableLogs

/-!
# Retries of a log upload

`appendLogBatchWithRetry` tries five times, and again only after an error that it takes for
transient: an error of the network or a status from 500 to 599.  The handler answers with such a
status for none of its own errors: when `GetRun` fails it answers as for a lost lease, and when
`AppendJobLogs` fails as for a bad request.
-/

namespace LogTransport

open JobLogs LogQueue Traces

/-- Where the database fails during `JobLogAppend`; a commit whose answer is lost may have been
applied. -/
inductive DbFault where
  | getRun
  | append (applied : Bool)
deriving DecidableEq

/-- The status of `JobLogAppend` and the rows it leaves. -/
def jobLogAppendStatus (fault : Option DbFault) (leaseValid : Bool) (chunks rows : List Chunk) :
    Nat × List Chunk :=
  -- `err != nil || run.ID != req.RunID || !validArtifactLease(…)`
  match jobLogAppend (fault ≠ some .getRun && leaseValid) chunks rows with
  | .error .badRequest => (400, rows)
  | .error .conflict => (409, rows)
  | .ok rows' =>
      match fault with
      | some (.append applied) => (400, if applied then rows' else rows)
      | _ => (204, rows')

/-- How an attempt fails; a request whose answer does not arrive may have been applied. -/
inductive Failing where
  | network (applied : Bool)
  /-- A status from 500 to 599. -/
  | serverError (code : Fin 100) (applied : Bool)
  | database (fault : DbFault)

/-- What becomes of one attempt. -/
inductive Attempt where
  | answered
  | fails (how : Failing)

inductive UploadError where
  | network
  | status (code : Nat)

/-- `appendLogBatch`: the error, and the rows of the server afterwards. -/
def appendLogBatch (a : Attempt) (leaseValid : Bool) (batch rows : List Chunk) :
    Option UploadError × List Chunk :=
  let applied := (jobLogAppendStatus none leaseValid batch rows).2
  let answer := fun r : Nat × List Chunk => (if r.1 = 204 then none else some (.status r.1), r.2)
  match a with
  | .answered => answer (jobLogAppendStatus none leaseValid batch rows)
  | .fails (.network reached) => (some .network, if reached then applied else rows)
  | .fails (.serverError code reached) =>
      (some (.status (500 + code)), if reached then applied else rows)
  | .fails (.database fault) => answer (jobLogAppendStatus (some fault) leaseValid batch rows)

def isTransientLogUploadError : UploadError → Bool
  | .network => true
  | .status code => 500 ≤ code && code ≤ 599

/-- The loop of `appendLogBatchWithRetry`, while the context is live. -/
def retryLoop (attempts : Nat → Attempt) (leaseValid : Bool) (batch : List Chunk) :
    Nat → Nat → List Chunk → Option UploadError × List Chunk
  | 0, _, rows => (none, rows)
  | left + 1, attempt, rows =>
      match appendLogBatch (attempts attempt) leaseValid batch rows with
      | (none, rows') => (none, rows')
      | (some e, rows') =>
          if isTransientLogUploadError e = false ∨ attempt = logUploadAttempts - 1 then
            (some e, rows')
          else retryLoop attempts leaseValid batch left (attempt + 1) rows'

/-- `appendLogBatchWithRetry`. -/
def appendLogBatchWithRetry (attempts : Nat → Attempt) (leaseValid : Bool)
    (batch rows : List Chunk) : Option UploadError × List Chunk :=
  retryLoop attempts leaseValid batch logUploadAttempts 0 rows

/-- The queue after one round of `uploadLogQueue`. -/
def uploaded (batch : List Chunk) (q : Queue) : Option UploadError → Queue
  | some _ => q.fail .upload
  | none =>
      match q.ack batch.length with
      | .ok q' => q'
      | .error e => q.fail e

variable {j : Job} {tr : List (Step Job Action)} {batch log rows : List Chunk} {start : Nat}

/-- A batch from a log of which the server has stored the part before it, or more. -/
structure Ready (log : List Chunk) (start : Nat) (batch rows : List Chunk) : Prop where
  numbered : Numbered log
  wellFormed : ∀ c ∈ log, c.wellFormed = true
  segment : batch <+: log.drop start
  nonempty : batch ≠ []
  short : batch.length ≤ maxLogChunksPerRequest
  stored : rows <+: log
  reached : start ≤ rows.length

/-- The rows once the batch is stored. -/
def afterBatch (log : List Chunk) (start : Nat) (batch rows : List Chunk) : List Chunk :=
  log.take (max rows.length (start + batch.length))

theorem Ready.end_le (h : Ready log start batch rows) : start + batch.length ≤ log.length := by
  have hlen := h.segment.length_le
  have hpos := List.length_pos_iff.2 h.nonempty
  rw [List.length_drop] at hlen
  omega

theorem Ready.afterBatch (h : Ready log start batch rows) :
    Ready log start batch (afterBatch log start batch rows) := by
  have hend := h.end_le
  have hrows := h.stored.length_le
  refine ⟨h.numbered, h.wellFormed, h.segment, h.nonempty, h.short, List.take_prefix _ _, ?_⟩
  unfold LogTransport.afterBatch
  rw [List.length_take]
  omega

/-- After the batch every chunk of it is stored. -/
theorem Ready.mem_afterBatch (h : Ready log start batch rows) :
    ∀ c ∈ batch, c ∈ LogTransport.afterBatch log start batch rows := by
  intro c hc
  have hsub : batch <+: (log.take (max rows.length (start + batch.length))).drop start := by
    rw [List.drop_take]
    exact (List.prefix_take_iff).2 ⟨h.segment, by omega⟩
  exact List.mem_of_mem_drop (hsub.subset hc)

theorem Ready.jobLogAppend (h : Ready log start batch rows) :
    jobLogAppend true batch rows = .ok (LogTransport.afterBatch log start batch rows) := by
  have hcheck := checkBatch_segment h.numbered h.wellFormed h.segment (Nat.zero_le _)
  have hreplay := appendJobLogs_replay h.numbered h.wellFormed h.stored h.segment h.nonempty
    h.reached
  unfold JobLogs.jobLogAppend
  rw [if_neg (by simp [h.nonempty, h.short]), if_neg (by simp [hcheck]), if_neg (by simp), hreplay]
  rfl

/-- **The handler** on such a batch. -/
theorem Ready.status (h : Ready log start batch rows) :
    jobLogAppendStatus none true batch rows =
      (204, LogTransport.afterBatch log start batch rows) := by
  unfold jobLogAppendStatus
  simp only [ne_eq, reduceCtorEq, not_false_eq_true, decide_true, Bool.true_and, h.jobLogAppend]

/-- **A database error** of the handler becomes a status that is not retried. -/
theorem Ready.status_fault (h : Ready log start batch rows) (fault : DbFault) :
    ∃ code rows', (code = 400 ∨ code = 409) ∧
      jobLogAppendStatus (some fault) true batch rows = (code, rows') := by
  have hcheck := checkBatch_segment h.numbered h.wellFormed h.segment (Nat.zero_le _)
  unfold jobLogAppendStatus
  cases fault with
  | getRun => grind [h.nonempty, h.short, JobLogs.jobLogAppend]
  | append applied => grind

/-- The attempt does not fail in the database of the handler. -/
def Attempt.outside : Attempt → Bool
  | .fails (.database _) => false
  | _ => true

theorem appendLogBatch_answered (h : Ready log start batch rows) :
    appendLogBatch .answered true batch rows = (none, afterBatch log start batch rows) := by
  unfold appendLogBatch
  simp [h.status]

/-- A failure outside the handler's database is transient. -/
theorem appendLogBatch_outside (h : Ready log start batch rows) {how : Failing}
    (hout : (Attempt.fails how).outside = true) :
    ∃ e rows', appendLogBatch (.fails how) true batch rows = (some e, rows') ∧
      isTransientLogUploadError e = true ∧ Ready log start batch rows' := by
  have hrows : ∀ reached : Bool, Ready log start batch
      (if reached then (jobLogAppendStatus none true batch rows).2 else rows) := by
    grind [h.status, h.afterBatch]
  cases how with
  | network reached => exact ⟨.network, _, rfl, rfl, hrows reached⟩
  | serverError code reached =>
    refine ⟨.status (500 + code), _, rfl, ?_, hrows reached⟩
    grind [isTransientLogUploadError]
  | database fault => cases hout

theorem appendLogBatch_database (h : Ready log start batch rows) (fault : DbFault) :
    ∃ e rows', appendLogBatch (.fails (.database fault)) true batch rows = (some e, rows') ∧
      isTransientLogUploadError e = false := by
  obtain ⟨code, rows', hcode, hstatus⟩ := h.status_fault fault
  simp only [appendLogBatch, hstatus]
  rcases hcode with rfl | rfl
  · exact ⟨.status 400, rows', rfl, rfl⟩
  · exact ⟨.status 409, rows', rfl, rfl⟩

/-- **The loop**, by induction on the attempts that fail before the one that does not. -/
theorem retryLoop_spec {attempts : Nat → Attempt} {failed attempt left : Nat}
    (h : Ready log start batch rows)
    (hfails : ∀ i < failed, ∃ how, attempts (attempt + i) = .fails how)
    (hanswered : attempts (attempt + failed) = .answered)
    (hleft : failed < left) (hfew : attempt + failed < logUploadAttempts) :
    ((∀ i < failed, (attempts (attempt + i)).outside = true) →
        (retryLoop attempts true batch left attempt rows).1 = none ∧
          ∀ c ∈ batch, c ∈ (retryLoop attempts true batch left attempt rows).2) ∧
      ((∃ i < failed, (attempts (attempt + i)).outside = false) →
        (retryLoop attempts true batch left attempt rows).1 ≠ none) := by
  induction failed generalizing attempt left rows with
  | zero =>
    obtain ⟨left, rfl⟩ : ∃ k, left = k + 1 := ⟨left - 1, by omega⟩
    rw [Nat.add_zero] at hanswered
    refine ⟨fun _ => ?_, fun hbad => ?_⟩
    · unfold retryLoop
      rw [hanswered, appendLogBatch_answered h]
      exact ⟨rfl, h.mem_afterBatch⟩
    · obtain ⟨i, hi, -⟩ := hbad
      omega
  | succ failed ih =>
    obtain ⟨left, rfl⟩ : ∃ k, left = k + 1 := ⟨left - 1, by omega⟩
    obtain ⟨how, hhow⟩ := hfails 0 (by omega)
    rw [Nat.add_zero] at hhow
    have hshift : ∀ i, attempt + 1 + i = attempt + (i + 1) := fun i => by omega
    unfold retryLoop
    rw [hhow]
    cases hout : (Attempt.fails how).outside with
    | true =>
      obtain ⟨e, rows', hattempt, htransient, hready⟩ := appendLogBatch_outside h hout
      have hagain :
          ¬(isTransientLogUploadError e = false ∨ attempt = logUploadAttempts - 1) := by grind
      simp only [hattempt, if_neg hagain]
      have hfails' : ∀ i < failed, ∃ how, attempts (attempt + 1 + i) = .fails how := by grind
      have hanswered' : attempts (attempt + 1 + failed) = .answered := by
        rw [hshift]
        exact hanswered
      have hleft' : failed < left := by omega
      have hrest := ih hready hfails' hanswered' hleft' (by omega)
      refine ⟨fun hall => hrest.1 fun i hi => ?_, fun hbad => hrest.2 ?_⟩
      · rw [hshift]
        exact hall (i + 1) (by omega)
      · obtain ⟨i, hi, hfault⟩ := hbad
        cases i with
        | zero => grind
        | succ i => exact ⟨i, by omega, by rw [hshift]; exact hfault⟩
    | false =>
      refine ⟨fun hall => ?_, fun _ => ?_⟩
      · have := hall 0 (by omega)
        rw [Nat.add_zero, hhow, hout] at this
        cases this
      · cases how with
        | network reached => cases hout
        | serverError code reached => cases hout
        | database fault =>
          obtain ⟨e, rows', hattempt, htransient⟩ := appendLogBatch_database h fault
          simp [hattempt, htransient]

/-- A batch that `PeekBatch` takes in a run is ready to be sent. -/
theorem Reaches.ready (h : Reaches tr j)
    (hne : j.queue.peekBatch maxLogChunksPerRequest maxLogAppendBodyBytes ≠ []) :
    Ready j.enqueued j.acked (j.queue.peekBatch maxLogChunksPerRequest maxLogAppendBodyBytes)
      j.stored := by
  have hsound := h.sound
  have hpending : j.queue.chunks = j.enqueued.drop j.acked :=
    List.suffix_iff_eq_drop.1 hsound.pending
  refine ⟨hsound.numbered, hsound.wellFormed, ?_, hne, ?_, hsound.stored, hsound.acked⟩
  · rw [← hpending]
    exact j.queue.peekBatch_front _ _
  · exact length_peekLoop_le j.queue.chunks (Nat.zero_le _)

/-- The queue after a batch was uploaded. -/
theorem uploaded_none {q : Queue} (hq : q.failure = none) (hbatch : batch <+: q.chunks) :
    (uploaded batch q none).failure = none := by
  have hlen := hbatch.length_le
  unfold uploaded Queue.ack
  rw [if_neg (by omega)]
  exact hq

/-- **Failures that do not lose logs.**  In any run let the uploader take a batch, let fewer than
five attempts in a row fail and the next one be answered, the lease being valid throughout and
writers enqueuing more.  The upload succeeds, every chunk of the batch is stored and the queue
records no failure, exactly when no attempt failed in the database of the handler. -/
theorem transient_failures_survived (h : Reaches tr j) (hpeek : j.uploader = .peek)
    (hbatch : batch = j.queue.peekBatch maxLogChunksPerRequest maxLogAppendBodyBytes)
    (hne : batch ≠ []) {attempts : Nat → Attempt} {failed : Nat}
    (hfails : ∀ i < failed, ∃ how, attempts i = .fails how)
    (hanswered : attempts failed = .answered) (hfew : failed < logUploadAttempts) {q : Queue}
    (hqueue : j.queue.chunks <+: q.chunks) (hfailure : q.failure = j.queue.failure) :
    ((appendLogBatchWithRetry attempts true batch j.stored).1 = none ∧
        (∀ c ∈ batch, c ∈ (appendLogBatchWithRetry attempts true batch j.stored).2) ∧
        (uploaded batch q (appendLogBatchWithRetry attempts true batch j.stored).1).failure =
          none) ↔
      ∀ i < failed, ∀ fault, attempts i ≠ .fails (.database fault) := by
  subst hbatch
  have hready := h.ready hne
  have hclean : q.failure = none :=
    hfailure.trans (h.orderly.unfailed (by rw [hpeek]; exact Uploader.noConfusion))
  have hfails' : ∀ i < failed, ∃ how, attempts (0 + i) = .fails how := by simpa using hfails
  have hanswered' : attempts (0 + failed) = .answered := by simpa using hanswered
  have hspec := retryLoop_spec hready hfails' hanswered' hfew (by omega)
  simp only [Nat.zero_add] at hspec
  constructor
  · rintro ⟨hnone, -, -⟩ i hi fault heq
    exact hspec.2 ⟨i, hi, by rw [heq]; rfl⟩ hnone
  · intro hall
    have hout : ∀ i < failed, (attempts i).outside = true := by
      intro i hi
      obtain ⟨how, hhow⟩ := hfails i hi
      cases how with
      | network reached => rw [hhow]; rfl
      | serverError code reached => rw [hhow]; rfl
      | database fault => exact absurd hhow (hall i hi fault)
    obtain ⟨hnone, hstored⟩ := hspec.1 hout
    refine ⟨hnone, hstored, ?_⟩
    unfold appendLogBatchWithRetry
    rw [hnone]
    exact uploaded_none hclean ((j.queue.peekBatch_front _ _).trans hqueue)

namespace Sample

/-- A job that has written one byte. -/
theorem wrote : ∃ tr j, Reaches tr j ∧ j.uploader = .peek ∧ j.stored = [] ∧
    j.queue.peekBatch maxLogChunksPerRequest maxLogAppendBodyBytes = [⟨1, .stdout, [97]⟩] := by
  obtain ⟨j, hj, hfacts⟩ : ∃ j,
      [Action.write .stdout [97], .enqueue .stdout].foldlM step {} = some j ∧
      j.uploader = .peek ∧ j.stored = [] ∧
      j.queue.peekBatch maxLogChunksPerRequest maxLogAppendBodyBytes = [⟨1, .stdout, [97]⟩] :=
    ⟨_, rfl, rfl, rfl, rfl⟩
  obtain ⟨tr, htr, -⟩ := Trace.of_foldlM hj
  exact ⟨tr, j, htr, hfacts⟩

/-- The first attempt fails. -/
def firstFails (how : Failing) : Nat → Attempt
  | 0 => .fails how
  | _ => .answered

theorem firstFails_fails (how : Failing) : ∀ i < 1, ∃ how', firstFails how i = .fails how' := by
  intro i hi
  obtain rfl : i = 0 := by omega
  exact ⟨how, rfl⟩

end Sample

theorem transient_failures_survived_network : ∃ tr j, Reaches tr j ∧
    (appendLogBatchWithRetry (Sample.firstFails (.network false)) true [⟨1, .stdout, [97]⟩]
      j.stored).1 = none := by
  obtain ⟨tr, j, hrun, hpeek, -, hbatch⟩ := Sample.wrote
  refine ⟨tr, j, hrun, ?_⟩
  have hsurvived := transient_failures_survived hrun hpeek hbatch.symm (by decide)
    (Sample.firstFails_fails (.network false)) rfl (by decide) (q := j.queue) List.prefix_rfl rfl
  refine (hsurvived.2 ?_).1
  intro i hi fault heq
  obtain rfl : i = 0 := by omega
  cases heq

/-- **A database error in the handler loses the logs**: `GetRun` fails once, and the runner takes
the answer for a lost lease. -/
theorem database_error_fatal :
    ¬ ∀ (tr : List (Step Job Action)) (j : Job) (batch : List Chunk) (attempts : Nat → Attempt)
      (failed : Nat), Reaches tr j → j.uploader = .peek →
      batch = j.queue.peekBatch maxLogChunksPerRequest maxLogAppendBodyBytes → batch ≠ [] →
      (∀ i < failed, ∃ how, attempts i = .fails how) → attempts failed = .answered →
      failed < logUploadAttempts →
        (appendLogBatchWithRetry attempts true batch j.stored).1 = none ∧
          (∀ c ∈ batch, c ∈ (appendLogBatchWithRetry attempts true batch j.stored).2) ∧
          (uploaded batch j.queue
            (appendLogBatchWithRetry attempts true batch j.stored).1).failure = none := by
  intro h
  obtain ⟨tr, j, hrun, hpeek, hstored, hbatch⟩ := Sample.wrote
  have hnone := (h tr j _ (Sample.firstFails (.database .getRun)) 1 hrun hpeek hbatch.symm
    (by decide) (Sample.firstFails_fails (.database .getRun)) rfl (by decide)).1
  rw [hstored] at hnone
  revert hnone
  decide +kernel

end LogTransport
