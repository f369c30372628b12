import ForgeCI.LogTransport

/-!
# Completion after the logs are stored

Before a runner reports `PASSED` it closes the queue and waits for the uploader.  But
`WaitBatch` looks at the chunks in one section and at `closed` in another, and it
leaves when the context is done.  A chunk accepted in between stays behind.
-/

namespace LogTransport

open JobLogs LogQueue Traces

variable {j j' : Job} {act : Action} {tr : List (Step Job Action)} {stream : Stream}
variable {batch : List Chunk}

/-- How far the server can have come: to the end of the batch in hand. -/
def Job.reach (j : Job) : Nat :=
  j.acked + (j.uploader.batch?.getD []).length

/-- The uploader is about to record a failure. -/
def Uploader.isFailing : Uploader → Bool
  | .failing _ => true
  | _ => false

/-- The server and all requests stay within the first chunks. -/
def Job.Within (j : Job) (limit : Nat) : Prop :=
  j.stored.length ≤ limit ∧ ∀ batch ∈ j.requests, ∃ start, batch <+: j.enqueued.drop start ∧
    start + batch.length ≤ limit

/-- What else holds between any two steps. -/
structure Job.Orderly (j : Job) : Prop where
  unfailed : j.uploader ≠ .done → j.queue.failure = none
  joined : (∃ result, j.phase = .drained result) ∨ j.phase = .publishing → j.uploader = .done
  publishing : j.phase = .publishing → j.queue.failure = none
  open_ : j.phase = .running → j.queue.closed = false
  bytes : j.queue.pending = (j.queue.chunks.map fun c => c.payload.length).sum
  within : j.queue.failure = none → j.uploader.isFailing = false → j.Within j.reach

/-- The uploader has left without an error, and a chunk is pending. -/
def Job.Abandoned (j : Job) : Prop :=
  j.uploader = .done ∧ j.queue.failure = none ∧ j.queue.chunks ≠ []

/-- The uploader leaves only when nothing is pending, and nothing is enqueued after it
has left without an error. -/
def Prompt (j : Job) : Action → Prop
  | .decide => j.queue.closed = true → j.queue.chunks = []
  | .leave => j.queue.chunks = []
  | .enqueue _ => j.uploader = .done → j.queue.failure ≠ none
  | _ => True

theorem Job.Within.mono {limit limit' : Nat} (h : j.Within limit) (hle : limit ≤ limit') :
    j.Within limit' := by
  refine ⟨h.1.trans hle, fun batch hbatch => ?_⟩
  obtain ⟨start, hsegment, hend⟩ := h.2 batch hbatch
  exact ⟨start, hsegment, hend.trans hle⟩

/-- The uploader moves on, before it has left. -/
theorem Job.Orderly.advance (h : j.Orderly) (hu : j.uploader ≠ .done) {u : Uploader}
    (hwithin : u.isFailing = false → j.Within (j.acked + (u.batch?.getD []).length)) :
    { j with uploader := u }.Orderly where
  unfailed := fun _ => h.unfailed hu
  joined := fun hphase => absurd (h.joined hphase) hu
  publishing := h.publishing
  open_ := h.open_
  bytes := h.bytes
  within := fun _ hfailing => hwithin hfailing

/-- The uploader keeps its batch, or gets one. -/
theorem Job.Orderly.proceed (h : j.Orderly) (hu : j.uploader ≠ .done)
    (hfailing : j.uploader.isFailing = false) {u : Uploader} (hbatch : u.isFailing = false →
      (j.uploader.batch?.getD []).length ≤ (u.batch?.getD []).length) :
    { j with uploader := u }.Orderly := by
  apply h.advance hu
  intro hu'
  apply (h.within (h.unfailed hu) hfailing).mono
  unfold Job.reach
  have := hbatch hu'
  omega

/-- A step of `executeLeasedJob` that leaves the queue alone. -/
theorem Job.Orderly.phase (h : j.Orderly) {p : Phase}
    (hjoined : (∃ result, p = .drained result) ∨ p = .publishing → j.uploader = .done)
    (hpublishing : p = .publishing → j.queue.failure = none)
    (hopen : p = .running → j.queue.closed = false) : { j with phase := p }.Orderly :=
  ⟨h.unfailed, hjoined, hpublishing, hopen, h.bytes, h.within⟩

theorem Job.Orderly.signal (h : j.Orderly) : { j with uploader := j.uploader.signal }.Orderly := by
  rcases j.uploader.signal_eq with heq | ⟨⟨woken, hu⟩, heq⟩
  · rw [heq]
    exact h
  · grind [h.proceed, Uploader.isFailing, Uploader.batch?]

theorem Job.Within.grow {limit : Nat} (h : j.Within limit) (hsound : j.Sound)
    {rest : List Chunk} : { j with enqueued := j.enqueued ++ rest }.Within limit := by
  refine ⟨h.1, fun batch hbatch => ?_⟩
  obtain ⟨start, hsegment, hend⟩ := h.2 batch hbatch
  have hstart : start ≤ j.enqueued.length := by
    by_contra hlt
    rw [List.drop_eq_nil_of_le (by omega), List.prefix_nil] at hsegment
    exact (hsound.requests batch hbatch).1 hsegment
  exact ⟨start, segment_append hstart hsegment, hend⟩

theorem Job.Orderly.enqueue (h : j.Orderly) (hsound : j.Sound) (stream : Stream) :
    (j.enqueue stream).Orderly := by
  have hacked := hsound.enqueue_acked stream
  have hs := h.signal
  unfold Job.enqueue at hacked ⊢
  simp only at hacked ⊢
  split
  · rename_i q n hq
    obtain ⟨-, -, hfailure, -, -, hchunks, -, hclosed, hfailure', hpending⟩ :=
      Queue.enqueue_accepted hq
    simp only [hq] at hacked
    constructor
    · exact fun _ => hfailure'
    · exact hs.joined
    · exact fun _ => hfailure'
    · exact fun _ => hclosed
    · grind [h.bytes]
    · intro _ hfailing
      unfold Job.reach
      rw [hacked]
      exact (hs.within hfailure hfailing).grow (hsound.signal rfl rfl)
  · exact { h with }
  · exact h

theorem Job.Orderly.send (h : j.Orderly) (hsound : j.Sound) {attempt : Nat}
    (hu : j.uploader = .sending batch attempt) :
    { j with
      uploader := .awaiting batch attempt j.requests.length
      requests := j.requests ++ [batch] }.Orderly := by
  have hdone : j.uploader ≠ .done := by simp [hu]
  have hwithin := h.within (h.unfailed hdone) (by simp [hu, Uploader.isFailing])
  have hreach : j.reach = j.acked + batch.length := by simp [Job.reach, hu, Uploader.batch?]
  refine ⟨fun _ => h.unfailed hdone, fun hphase => absurd (h.joined hphase) hdone, h.publishing,
    h.open_, h.bytes, fun _ _ => ⟨?_, fun b hb => ?_⟩⟩
  · show j.stored.length ≤ j.acked + batch.length
    rw [← hreach]
    exact hwithin.1
  · show ∃ start, b <+: j.enqueued.drop start ∧ start + b.length ≤ j.acked + batch.length
    rcases List.mem_append.1 hb with hb | hb
    · rw [← hreach]
      exact hwithin.2 b hb
    · rw [List.mem_singleton.1 hb]
      refine ⟨j.acked, ?_, le_rfl⟩
      rw [hsound.drop_acked]
      exact (hsound.batch batch (by rw [hu]; rfl)).2

/-- Applying a request stores no more than the requests hold. -/
theorem Job.Orderly.apply (h : j.Orderly) (hsound : j.Sound) {request : Nat} {leaseValid : Bool}
    {rows : List Chunk} (hbatch : j.requests[request]? = some batch)
    (hrows : jobLogAppend leaseValid batch j.stored = .ok rows) :
    { j with stored := rows, committed := request :: j.committed }.Orderly := by
  refine { h with within := fun hfailure hfailing => ?_ }
  have hmem := List.mem_of_getElem? hbatch
  obtain ⟨hstored, hrequests⟩ := h.within hfailure hfailing
  obtain ⟨hne, start, hstart, hsegment⟩ := hsound.requests batch hmem
  obtain ⟨start', hsegment', hend⟩ := hrequests batch hmem
  obtain rfl := hsound.numbered.start_unique hne hsegment hsegment'
  have happend :=
    appendJobLogs_replay hsound.numbered hsound.wellFormed hsound.stored hsegment hne hstart
  rw [jobLogAppend_ok hrows] at happend
  refine ⟨?_, hrequests⟩
  show rows.length ≤ j.reach
  rw [Except.ok.inj happend, List.length_take]
  omega

theorem Job.Orderly.ack (h : j.Orderly) (hsound : j.Sound) (hu : j.uploader = .acking batch)
    {q : Queue} (hq : j.queue.ack batch.length = .ok q) :
    { j with queue := q, uploader := .peek }.Orderly := by
  have hdone : j.uploader ≠ .done := by simp [hu]
  have hwithin := h.within (h.unfailed hdone) (by simp [hu, Uploader.isFailing])
  have hreach : j.reach = j.acked + batch.length := by simp [Job.reach, hu, Uploader.batch?]
  have hlen := (hsound.batch batch (by rw [hu]; rfl)).2.length_le
  have hpending := hsound.pending.length_le
  unfold Queue.ack at hq
  rw [if_neg (by omega)] at hq
  cases hq
  refine ⟨fun _ => h.unfailed hdone, fun hphase => absurd (h.joined hphase) hdone, h.publishing,
    h.open_, ?_, fun _ _ => ?_⟩
  · have hsplit : (j.queue.chunks.map fun c => c.payload.length).sum =
        ((j.queue.chunks.take batch.length).map fun c => c.payload.length).sum +
          ((j.queue.chunks.drop batch.length).map fun c => c.payload.length).sum := by
      rw [← List.sum_append, ← List.map_append, List.take_append_drop]
    grind [h.bytes]
  · have heq : Job.reach { j with
        queue := { j.queue with
          pending := j.queue.pending -
            ((j.queue.chunks.take batch.length).map fun c => c.payload.length).sum
          chunks := j.queue.chunks.drop batch.length }
        uploader := .peek } = j.reach := by grind [Job.reach, Job.acked, Uploader.batch?]
    rw [heq]
    exact hwithin

theorem step_orderly (hsound : j.Sound) (h : j.Orderly) (hstep : step j act = some j') :
    j'.Orderly := by
  cases act with
  | write stream p =>
    simp only [step, Option.ite_none_right_eq_some, Option.some.injEq] at hstep
    obtain ⟨-, rfl⟩ := hstep
    exact { h with }
  | enqueue stream => grind [h.enqueue, step]
  | writeFails stream =>
    simp only [step, Option.ite_none_right_eq_some, Option.some.injEq] at hstep
    obtain ⟨-, rfl⟩ := hstep
    exact { h with }
  | cancel =>
    cases hstep
    exact { h with }
  | finish result => grind [h.phase, step]
  | close =>
    simp only [step] at hstep
    split at hstep
    · cases hstep
      have hs := h.signal
      exact ⟨hs.unfailed, by simp, by simp, by simp, hs.bytes, hs.within⟩
    · cases hstep
  | peek | decide | wake | leave => grind [h.proceed, step, Uploader.isFailing, Uploader.batch?]
  | send => grind [h.send, step]
  | apply request leaseValid =>
    simp only [step] at hstep
    split at hstep
    · cases hstep
    · rename_i hbatch
      split at hstep
      · grind
      · rename_i hrows
        cases hstep
        exact h.apply hsound hbatch hrows
  | succeed | attemptFails transient | retry =>
    grind [h.proceed, step, Uploader.isFailing, Uploader.batch?]
  | giveUp => grind [h.proceed, step, Uploader.isFailing]
  | ack => grind [h.proceed, h.ack, step, Uploader.isFailing]
  | fail =>
    simp only [step] at hstep
    split at hstep
    · rename_i hu
      cases hstep
      have hdone : j.uploader ≠ .done := by simp [hu]
      have hfailure := h.unfailed hdone
      unfold Queue.fail
      rw [if_pos hfailure]
      refine ⟨by simp, fun _ => rfl, fun hphase => ?_, h.open_, h.bytes, by simp⟩
      exact absurd (h.joined (.inr hphase)) hdone
    · cases hstep
  | join => grind [h.phase, step]
  | report =>
    simp only [step] at hstep
    split at hstep
    · rename_i hphase
      cases hstep
      have hu := h.joined (.inl ⟨none, hphase⟩)
      apply h.phase
      · exact fun _ => hu
      · simp
      · split_ifs <;> simp
    · grind [h.phase]
    · cases hstep
  | publish failure =>
    simp only [step, Option.ite_none_right_eq_some, Option.some.injEq] at hstep
    grind [h.phase]

theorem init_orderly : ({} : Job).Orderly := by
  constructor <;> simp [Job.Within]

theorem Reaches.orderly (h : Reaches tr j) : j.Orderly := by
  have hboth := h.final_invariant (fun j => j.Sound ∧ j.Orderly) ⟨init_sound, init_orderly⟩
    fun _ _ _ hs hstep => ⟨step_sound hs.1 hstep, step_orderly hs.1 hs.2 hstep⟩
  exact hboth.2

theorem Uploader.signal_done {u : Uploader} : u.signal = .done ↔ u = .done := by
  cases u <;> simp [signal]

/-- Enqueuing takes nothing from the queue, and the uploader does not leave. -/
theorem Job.enqueue_keeps (j : Job) (stream : Stream) :
    ((j.enqueue stream).uploader = .done ↔ j.uploader = .done) ∧
      (j.enqueue stream).queue.failure = j.queue.failure ∧
      j.queue.chunks <+: (j.enqueue stream).queue.chunks := by
  unfold Job.enqueue
  simp only
  split
  · rename_i q n hq
    obtain ⟨-, -, hfailure, -, -, hchunks, -, -, hfailure', -⟩ := Queue.enqueue_accepted hq
    grind [Uploader.signal_done]
  · exact ⟨Iff.rfl, rfl, List.prefix_rfl⟩
  · exact ⟨Iff.rfl, rfl, List.prefix_rfl⟩

/-- The queue takes a chunk when it is open, has not failed and is empty. -/
theorem Job.enqueue_empty (hopen : j.queue.closed = false) (hfailure : j.queue.failure = none)
    (hpending : j.queue.pending = 0) (hwriting : j.writing stream ≠ []) :
    (j.enqueue stream).queue.chunks ≠ [] := by
  have hlen : (j.writing stream).length ≠ 0 := by simpa using hwriting
  have hmax : 0 < maxLogChunkBytes ∧ maxLogChunkBytes ≤ maxPendingLogBytes := by decide
  have haccepted : ∃ q n, j.queue.enqueue stream ((j.writing stream).take maxLogChunkBytes) =
      .accepted q n := by
    unfold Queue.enqueue
    rw [if_neg (by rw [List.length_take]; omega), hfailure]
    simp only [hopen, hpending]
    rw [if_neg (by simp), if_pos (by rw [List.length_take]; omega)]
    exact ⟨_, _, rfl⟩
  obtain ⟨q, n, hq⟩ := haccepted
  obtain ⟨-, -, -, -, -, hchunks, -⟩ := Queue.enqueue_accepted hq
  unfold Job.enqueue
  simp only [hq, hchunks]
  simp

/-- An abandoned chunk stays abandoned. -/
theorem Job.Abandoned.step (h : j.Abandoned) (hstep : step j act = some j') : j'.Abandoned := by
  obtain ⟨hu, hfailure, hchunks⟩ := h
  cases act with
  | enqueue stream =>
    simp only [LogTransport.step, Option.ite_none_right_eq_some, Option.some.injEq] at hstep
    obtain ⟨-, rfl⟩ := hstep
    obtain ⟨hdone, hsame, hgrows⟩ := j.enqueue_keeps stream
    refine ⟨hdone.2 hu, hsame.trans hfailure, fun hnil => ?_⟩
    grind
  | publish failure =>
    cases failure <;> grind [LogTransport.step, Job.Abandoned]
  | _ =>
    grind [LogTransport.step, Job.Abandoned, Uploader.signal_done, Queue.close, Job.stopWriting]

/-- **A chunk is abandoned exactly by a step that is not prompt.** -/
theorem abandoned_iff (h : j.Orderly) (hgood : ¬ j.Abandoned) (hstep : step j act = some j') :
    j'.Abandoned ↔ ¬ Prompt j act := by
  cases act with
  | enqueue stream =>
    simp only [step, Option.ite_none_right_eq_some, Option.some.injEq] at hstep
    obtain ⟨⟨hphase, hwriting⟩, rfl⟩ := hstep
    obtain ⟨hdone, hsame, -⟩ := j.enqueue_keeps stream
    grind [h.open_, h.bytes, Prompt, Job.Abandoned, Job.enqueue_empty]
  | decide => grind [h.unfailed, step, Prompt, Job.Abandoned]
  | leave =>
    have hfailure := h.unfailed
    grind [step, Job.Abandoned, Prompt]
  | publish failure =>
    cases failure <;> grind [step, Job.Abandoned, Prompt]
  | _ =>
    grind [step, Job.Abandoned, Prompt, Uploader.signal_done, Queue.close, Queue.fail,
      Job.stopWriting]

/-- Without an error, the server has exactly what left the queue once the uploader is gone. -/
theorem Reaches.stored_length (h : Reaches tr j) (hu : j.uploader = .done)
    (hfailure : j.queue.failure = none) : j.stored.length = j.acked := by
  have hwithin := (h.orderly.within hfailure (by simp [hu, Uploader.isFailing])).1
  have hreach : j.reach = j.acked := by simp [Job.reach, hu, Uploader.batch?]
  have hacked := h.sound.acked
  omega

/-- Only a publication without an error sends `PASSED`. -/
theorem publishing_of_passed (hstep : step j act = some j') (hbefore : j.phase ≠ .sent .passed)
    (hpassed : j'.phase = .sent .passed) : j.phase = .publishing := by
  cases act with
  | enqueue stream =>
    simp only [step, Option.ite_none_right_eq_some, Option.some.injEq] at hstep
    obtain ⟨⟨hphase, -⟩, rfl⟩ := hstep
    have hsame : (j.enqueue stream).phase = j.phase := by
      unfold Job.enqueue
      simp only
      split <;> rfl
    exact absurd (hsame.symm.trans hpassed) hbefore
  | publish failure =>
    simp only [step, Option.ite_none_right_eq_some] at hstep
    exact hstep.1
  | _ =>
    grind [step, Job.stopWriting, Job.failureStatus]

/-- **Durable logs.**  When a runner sends `PASSED`, every chunk that was enqueued is
stored exactly when every step of the run was prompt. -/
theorem passed_logs_durable (h : Reaches tr j) (hstep : step j act = some j')
    (hbefore : j.phase ≠ .sent .passed) (hpassed : j'.phase = .sent .passed) :
    (∀ c ∈ j.enqueued, c ∈ j.stored) ↔ ∀ st ∈ tr, Prompt st.before st.act := by
  have hphase := publishing_of_passed hstep hbefore hpassed
  have hu := h.orderly.joined (.inr hphase)
  have hfailure := h.orderly.publishing hphase
  have hlen := h.stored_length hu hfailure
  have hsound := h.sound
  have hpending := hsound.pending.length_le
  have hexact : ¬ j.Abandoned ↔ ∀ st ∈ tr, Prompt st.before st.act :=
    h.exact_final Job.Abandoned (fun _ => False) Prompt (by simp [Job.Abandoned])
      (fun _ _ _ hout _ => hout) (fun _ _ _ _ _ hbad hstep _ => hbad.step hstep)
      (fun _ _ _ _ hpre hgood hstep _ => abandoned_iff (Reaches.orderly hpre) hgood hstep) id
  rw [← hexact]
  constructor
  · rintro hall ⟨-, -, hchunks⟩
    have hpos := List.length_pos_iff.2 hchunks
    have hlt : j.stored.length < j.enqueued.length := by
      unfold Job.acked at hlen
      omega
    have hnext := hsound.numbered.sequence (List.getElem?_eq_getElem hlt)
    obtain ⟨i, hi⟩ := List.getElem?_of_mem (hall _ (List.getElem_mem hlt))
    have hseq := (hsound.numbered.initial hsound.stored).sequence hi
    obtain ⟨hi', -⟩ := List.getElem?_eq_some_iff.1 hi
    omega
  · intro hgood
    have hchunks : j.queue.chunks = [] := by
      by_contra hne
      exact hgood ⟨hu, hfailure, hne⟩
    have heq : j.stored = j.enqueued := by
      apply hsound.stored.eq_of_length
      rw [hlen, Job.acked, hchunks]
      rfl
    rw [heq]
    exact fun c hc => hc

/-- A chunk is uploaded, and then the command ends. -/
def Sample.drained : List Action :=
  [.write .stdout [104, 105], .enqueue .stdout, .peek, .send, .apply 0 true, .succeed, .ack, .peek,
    .finish none, .close, .decide, .join, .report]

theorem drained_durable : ∃ tr j j', Reaches tr j ∧ step j (.publish none) = some j' ∧
    j'.phase = .sent .passed ∧ j.stored = [⟨1, .stdout, [104, 105]⟩] ∧
    ((∀ c ∈ j.enqueued, c ∈ j.stored) ↔ ∀ st ∈ tr, Prompt st.before st.act) := by
  have hrun : (Sample.drained.foldlM step {}).map (fun j => (j.phase, j.stored)) =
      some (.publishing, [⟨1, .stdout, [104, 105]⟩]) := by decide
  obtain ⟨tr, j, htr, -, hstate⟩ := Trace.of_foldlM_map hrun
  obtain ⟨hphase, hstored⟩ := Prod.mk.inj hstate
  have hstep : step j (.publish none) = some { j with phase := .sent .passed } := by
    simp [step, hphase]
  exact ⟨tr, j, _, htr, hstep, rfl, hstored,
    passed_logs_durable htr hstep (by simp [hphase]) rfl⟩

/-- The queue is empty when the uploader looks, and closed when it looks again; the only
chunk falls in between. -/
def Sample.abandoned : List Action :=
  [.peek, .write .stdout [104, 105], .enqueue .stdout, .finish none, .close, .decide, .join,
    .report]

/-- **`PASSED` is sent for a job whose only chunk was never uploaded.** -/
theorem passed_without_logs : ¬ ∀ tr j act j', Reaches tr j → step j act = some j' →
    j.phase ≠ .sent .passed → j'.phase = .sent .passed → ∀ c ∈ j.enqueued, c ∈ j.stored := by
  intro hall
  have hrun : (Sample.abandoned.foldlM step {}).map (fun j => (j.phase, j.enqueued, j.stored)) =
      some (.publishing, [⟨1, .stdout, [104, 105]⟩], []) := by decide
  obtain ⟨tr, j, htr, -, hstate⟩ := Trace.of_foldlM_map hrun
  obtain ⟨hphase, hlogs⟩ := Prod.mk.inj hstate
  obtain ⟨henqueued, hstored⟩ := Prod.mk.inj hlogs
  have hstep : step j (.publish none) = some { j with phase := .sent .passed } := by
    simp [step, hphase]
  have hmissing := hall tr j _ _ htr hstep (by simp [hphase]) rfl ⟨1, .stdout, [104, 105]⟩
  rw [henqueued, hstored] at hmissing
  simp at hmissing

end LogTransport
