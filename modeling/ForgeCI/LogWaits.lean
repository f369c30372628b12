import ForgeCI.LogQueue
import ForgeCI.Traces

/-!
# Waiting on the log queue

`Enqueue` waits for room and `WaitBatch` for a chunk, both on the channel `notify` of the queue,
which `signalLocked` closes and replaces.  The channels are numbered in the order in which they
are made, so that the channel a party holds is open exactly when it is the queue's own.

`Enqueue` looks at the queue and takes the channel in one locked section.  `WaitBatch` looks in
one section, by `PeekBatch`, and takes the channel in the next: a chunk that comes in between
signals a channel that the uploader does not hold.
-/

namespace LogWaits

open JobLogs LogQueue Traces

/-- Where a goroutine stands in `Enqueue`. -/
inductive Writer where
  | idle
  /-- Before the locked section. -/
  | entering (stream : Stream) (payload : List UInt8)
  /-- In the `select`. -/
  | waiting (stream : Stream) (payload : List UInt8) (channel : Nat)

/-- Where the goroutine of the uploader stands in `WaitBatch`. -/
inductive Uploader where
  | idle
  /-- Before `PeekBatch`. -/
  | peek
  /-- After an empty `PeekBatch`, before the second section. -/
  | empty
  /-- In the `select`. -/
  | waiting (channel : Nat)
deriving DecidableEq

/-- The queue with its channel, and the parties. -/
structure State (ι : Type) where
  queue : Queue := {}
  /-- The number of the channel `notify`; the earlier ones are closed. -/
  notify : Nat := 0
  writers : ι → Writer := fun _ => .idle
  uploader : Uploader := .idle

inductive Action (ι : Type) where
  | enqueue (w : ι) (stream : Stream) (payload : List UInt8)
  | lock (w : ι)
  | wakeWriter (w : ι)
  /-- The context of a waiting writer is done. -/
  | leaveWriter (w : ι)
  | waitBatch
  | peek
  | take
  | wake
  /-- The context of the waiting uploader is done. -/
  | leave
  | ack (count : Nat)
  | fail (e : QueueError)
  | close

/-- A section that ends with `signalLocked`. -/
def State.signal {ι : Type} (s : State ι) (q : Queue) : State ι :=
  { s with queue := q, notify := s.notify + 1 }

section Steps

variable {ι : Type} [DecidableEq ι]

def State.setWriter (s : State ι) (w : ι) (x : Writer) : State ι :=
  { s with writers := Function.update s.writers w x }

/-- The locked section of `Enqueue`. -/
def State.lock (s : State ι) (w : ι) (stream : Stream) (payload : List UInt8) : State ι :=
  match s.queue.enqueue stream payload with
  | .accepted q _ => (s.signal q).setWriter w .idle
  | .refused _ => s.setWriter w .idle
  | .full => s.setWriter w (.waiting stream payload s.notify)

/-- One step of one party; each locked section is one. -/
def step (s : State ι) : Action ι → Option (State ι)
  | .enqueue w stream payload =>
      match s.writers w with
      | .idle => some (s.setWriter w (.entering stream payload))
      | _ => none
  | .lock w =>
      match s.writers w with
      | .entering stream payload => some (s.lock w stream payload)
      | _ => none
  | .wakeWriter w =>
      match s.writers w with
      | .waiting stream payload channel =>
          if channel < s.notify then some (s.setWriter w (.entering stream payload)) else none
      | _ => none
  | .leaveWriter w =>
      match s.writers w with
      | .waiting _ _ _ => some (s.setWriter w .idle)
      | _ => none
  | .waitBatch => if s.uploader = .idle then some { s with uploader := .peek } else none
  | .peek =>
      if s.uploader = .peek then
        let batch := s.queue.peekBatch maxLogChunksPerRequest maxLogAppendBodyBytes
        some { s with uploader := if batch = [] then .empty else .idle }
      else none
  | .take =>
      if s.uploader = .empty then
        some { s with
          uploader := if s.queue.failure.isSome ∨ s.queue.closed then .idle
            else .waiting s.notify }
      else none
  | .wake =>
      match s.uploader with
      | .waiting channel =>
          if channel < s.notify then some { s with uploader := .peek } else none
      | _ => none
  | .leave =>
      match s.uploader with
      | .waiting _ => some { s with uploader := .idle }
      | _ => none
  | .ack count =>
      match s.queue.ack count with
      | .error _ => some s
      | .ok q => some (s.signal q)
  | .fail e => some (if s.queue.failure = none then s.signal (s.queue.fail e) else s)
  | .close => some (if s.queue.closed = false then s.signal s.queue.close else s)

abbrev Run (tr : List (Step (State ι) (Action ι))) (s : State ι) : Prop :=
  Trace (fun s a s' => step s a = some s') {} tr s

end Steps

/-- Neither closed nor failed. -/
def Alive (q : Queue) : Prop := q.closed = false ∧ q.failure = none

/-- A writer that waits on the open channel has no room. -/
def Writer.Justified (q : Queue) (notify : Nat) : Writer → Prop
  | .waiting _ payload channel => channel ≤ notify ∧
      (channel = notify → maxPendingLogBytes < q.pending + payload.length ∧ Alive q)
  | _ => True

/-- An uploader that waits on the open channel waits at a queue that is alive. -/
def Uploader.Justified (q : Queue) (notify : Nat) : Uploader → Prop
  | .waiting channel => channel ≤ notify ∧ (channel = notify → Alive q)
  | _ => True

section Invariants

variable {ι : Type} {s s' : State ι} {a : Action ι} {w : ι} {x : Writer} {u : Uploader}
  {q q' : Queue} {stream : Stream} {payload : List UInt8}

structure State.Sound (s : State ι) : Prop where
  wellFormed : ∀ c ∈ s.queue.chunks, c.wellFormed = true
  writers : ∀ w, (s.writers w).Justified s.queue s.notify
  uploader : s.uploader.Justified s.queue s.notify

/-- The uploader has seen every chunk that is there. -/
def State.Heard (s : State ι) : Prop :=
  (s.uploader = .empty → s.queue.chunks = []) ∧
    (s.uploader = .waiting s.notify → s.queue.chunks = [])

/-- The step is not the locked section of an `Enqueue` between the two sections of
`WaitBatch`. -/
def Undisturbed (s : State ι) : Action ι → Prop
  | .lock _ => s.uploader ≠ .empty
  | _ => True

instance (s : State ι) (a : Action ι) : Decidable (Undisturbed s a) :=
  match a with
  | .lock _ => inferInstanceAs (Decidable (s.uploader ≠ .empty))
  | .enqueue _ _ _ | .wakeWriter _ | .leaveWriter _ | .waitBatch | .peek | .take | .wake | .leave
  | .ack _ | .fail _ | .close => inferInstanceAs (Decidable True)

/-- A signal closes the channel that a party may hold. -/
theorem Writer.Justified.signal {n : Nat} (h : x.Justified q n) : x.Justified q' (n + 1) := by
  cases x with
  | waiting stream payload channel =>
    have hle := h.1
    exact ⟨by omega, by omega⟩
  | _ => trivial

theorem Uploader.Justified.signal {n : Nat} (h : u.Justified q n) : u.Justified q' (n + 1) := by
  cases u with
  | waiting channel =>
    have hle := h.1
    exact ⟨by omega, by omega⟩
  | _ => trivial

theorem State.Sound.signal (h : s.Sound) (hq : ∀ c ∈ q.chunks, c.wellFormed = true) :
    (s.signal q).Sound :=
  ⟨hq, fun w => (h.writers w).signal, h.uploader.signal⟩

theorem State.Sound.setUploader (h : s.Sound) (hu : u.Justified s.queue s.notify) :
    State.Sound { s with uploader := u } :=
  ⟨h.wellFormed, h.writers, hu⟩

/-- After a signal nobody waits on the open channel. -/
theorem State.Sound.heard_signal (h : s.Sound) (hq : s.uploader = .empty → q.chunks = []) :
    (s.signal q).Heard := by
  refine ⟨hq, ?_⟩
  intro hu
  have hu' : s.uploader = .waiting (s.notify + 1) := hu
  have hle := h.uploader
  rw [hu'] at hle
  exact absurd hle.1 (by omega)

/-- A writer that finds no room has reason to wait. -/
theorem enqueue_full (h : q.enqueue stream payload = .full) :
    maxPendingLogBytes < q.pending + payload.length ∧ Alive q := by
  unfold Queue.enqueue at h
  grind [Alive]

theorem enqueue_wellFormed {n : Nat} (h : q.enqueue stream payload = .accepted q' n)
    (hq : ∀ c ∈ q.chunks, c.wellFormed = true) : ∀ c ∈ q'.chunks, c.wellFormed = true := by
  obtain ⟨hne, hsize, -, -, rfl, hchunks, -⟩ := Queue.enqueue_accepted h
  rw [hchunks]
  intro c hc
  rcases List.mem_append.1 hc with hc | hc
  · exact hq c hc
  · obtain rfl := List.mem_singleton.1 hc
    have hsize' : payload.length ≤ maxJobLogChunk := hsize
    simp [Chunk.wellFormed, hne, hsize']

theorem ack_chunks {count : Nat} (h : q.ack count = .ok q') : q'.chunks = q.chunks.drop count := by
  unfold Queue.ack at h
  split_ifs at h
  cases h
  rfl

theorem fail_chunks (e : QueueError) : (q.fail e).chunks = q.chunks := by
  unfold Queue.fail
  split_ifs <;> rfl

theorem sound_init : ({} : State ι).Sound :=
  ⟨by simp, fun _ => trivial, trivial⟩

theorem heard_init : ({} : State ι).Heard :=
  ⟨fun _ => rfl, fun _ => rfl⟩

variable [DecidableEq ι]

/-- What a step can do. -/
inductive Move (s : State ι) : Action ι → State ι → Prop
  | writer {a : Action ι} {w : ι} {x : Writer} (active : ∀ q n, x.Justified q n) :
      Move s a (s.setWriter w x)
  | lock {w : ι} {stream : Stream} {payload : List UInt8} :
      Move s (.lock w) (s.lock w stream payload)
  | uploader {a : Action ι} {u : Uploader} (active : u = .idle ∨ u = .peek) :
      Move s a { s with uploader := u }
  | empty (nothing : s.queue.peekBatch maxLogChunksPerRequest maxLogAppendBodyBytes = []) :
      Move s .peek { s with uploader := .empty }
  | take (empty : s.uploader = .empty) (alive : Alive s.queue) :
      Move s .take { s with uploader := .waiting s.notify }
  | signal {a : Action ι} {q : Queue} (old : q.chunks ⊆ s.queue.chunks) : Move s a (s.signal q)
  | stay {a : Action ι} : Move s a s

theorem step_move (h : step s a = some s') : Move s a s' := by
  cases a with
  | enqueue w stream payload =>
    simp only [step] at h
    split at h
    · cases h
      exact .writer fun _ _ => trivial
    · cases h
  | lock w =>
    simp only [step] at h
    split at h
    · cases h
      exact .lock
    · cases h
  | wakeWriter w =>
    simp only [step] at h
    split at h
    · split_ifs at h
      cases h
      exact .writer fun _ _ => trivial
    · cases h
  | leaveWriter w =>
    simp only [step] at h
    split at h
    · cases h
      exact .writer fun _ _ => trivial
    · cases h
  | waitBatch =>
    simp only [step] at h
    split_ifs at h
    cases h
    exact .uploader (.inr rfl)
  | peek =>
    simp only [step] at h
    split_ifs at h with _ hbatch
    · cases h
      exact .empty hbatch
    · cases h
      exact .uploader (.inl rfl)
  | take =>
    simp only [step] at h
    split_ifs at h with hempty hdead
    · cases h
      exact .uploader (.inl rfl)
    · cases h
      simp only [not_or, Bool.not_eq_true, Option.isSome_eq_false_iff,
        Option.isNone_iff_eq_none] at hdead
      exact .take hempty ⟨hdead.2, hdead.1⟩
  | wake =>
    simp only [step] at h
    split at h
    · split_ifs at h
      cases h
      exact .uploader (.inr rfl)
    · cases h
  | leave =>
    simp only [step] at h
    split at h
    · cases h
      exact .uploader (.inl rfl)
    · cases h
  | ack count =>
    simp only [step] at h
    split at h
    · cases h
      exact .stay
    · rename_i q hq
      cases h
      exact .signal (ack_chunks hq ▸ List.drop_subset _ _)
  | fail e =>
    simp only [step] at h
    split_ifs at h
    · grind [fail_chunks, Move.signal, List.Subset.refl]
    · cases h
      exact .stay
  | close =>
    simp only [step] at h
    split_ifs at h
    · cases h
      exact .signal (List.Subset.refl _)
    · cases h
      exact .stay

theorem State.Sound.setWriter (h : s.Sound) (hx : x.Justified s.queue s.notify) :
    (s.setWriter w x).Sound := by
  refine ⟨h.wellFormed, ?_, h.uploader⟩
  intro w'
  by_cases hw : w' = w
  · subst hw
    simpa [State.setWriter] using hx
  · simpa [State.setWriter, hw] using h.writers w'

theorem State.Sound.lock (h : s.Sound) : (s.lock w stream payload).Sound := by
  unfold State.lock
  cases hq : s.queue.enqueue stream payload with
  | accepted q n => exact (h.signal (enqueue_wellFormed hq h.wellFormed)).setWriter trivial
  | refused e => exact h.setWriter trivial
  | full => exact h.setWriter ⟨Nat.le_refl _, fun _ => enqueue_full hq⟩

theorem Move.sound (h : Move s a s') (hs : s.Sound) : s'.Sound := by
  cases h with
  | writer hx => exact hs.setWriter (hx _ _)
  | lock => exact hs.lock
  | uploader hu =>
    apply hs.setUploader
    rcases hu with rfl | rfl <;> trivial
  | empty => exact hs.setUploader trivial
  | take _ halive => exact hs.setUploader ⟨Nat.le_refl _, fun _ => halive⟩
  | signal hq => exact hs.signal fun c hc => hs.wellFormed c (hq hc)
  | stay => exact hs

/-- While the uploader is not between its sections, `Enqueue` keeps what it has seen. -/
theorem State.Sound.heard_lock (h : s.Sound) (hs : s.Heard) (hu : s.uploader ≠ .empty) :
    (s.lock w stream payload).Heard := by
  unfold State.lock
  cases s.queue.enqueue stream payload with
  | accepted q n => exact h.heard_signal (s := s) (q := q) fun he => absurd he hu
  | refused e => exact hs
  | full => exact hs

theorem Move.heard (h : Move s a s') (hsound : s.Sound) (hs : s.Heard) (hguard : Undisturbed s a) :
    s'.Heard := by
  cases h with
  | writer => exact hs
  | lock => exact hsound.heard_lock hs hguard
  | uploader hu =>
    refine ⟨?_, ?_⟩ <;> intro hbad <;> rcases hu with rfl | rfl <;> cases hbad
  | empty hnothing =>
    have hchunks : s.queue.chunks = [] := by
      by_contra hne
      exact Queue.peekBatch_ne_nil hne hsound.wellFormed hnothing
    exact ⟨fun _ => hchunks, fun _ => hchunks⟩
  | take hempty => exact ⟨fun _ => hs.1 hempty, fun _ => hs.1 hempty⟩
  | signal hq =>
    apply hsound.heard_signal
    intro hempty
    exact List.subset_nil.1 (hs.1 hempty ▸ hq)
  | stay => exact hs

/-- **Whoever waits has reason to.**  A writer that waits on the open channel finds no room, and
neither it nor the uploader waits at a queue that is closed or has failed.  When no `Enqueue`
enters its locked section between the two sections of `WaitBatch`, an uploader that waits on the
open channel finds the queue empty. -/
theorem waits_justified {tr : List (Step (State ι) (Action ι))} (h : Run tr s) :
    (∀ w stream payload, s.writers w = .waiting stream payload s.notify →
        maxPendingLogBytes < s.queue.pending + payload.length ∧
          s.queue.closed = false ∧ s.queue.failure = none) ∧
      (s.uploader = .waiting s.notify → s.queue.closed = false ∧ s.queue.failure = none) ∧
      ((∀ st ∈ tr, Undisturbed st.before st.act) →
        s.uploader = .waiting s.notify → s.queue.chunks = []) := by
  have hsound : s.Sound :=
    h.final_invariant State.Sound sound_init fun _ _ _ hs hstep => (step_move hstep).sound hs
  refine ⟨?_, ?_, ?_⟩
  · intro w stream payload hw
    have hj := hsound.writers w
    rw [hw] at hj
    exact hj.2 rfl
  · intro hu
    have hj := hsound.uploader
    rw [hu] at hj
    exact hj.2 rfl
  · intro hguard
    have hboth := h.guarded (fun s => s.Sound ∧ s.Heard) Undisturbed ⟨sound_init, heard_init⟩
      (fun _ _ _ hs hg hstep =>
        ⟨(step_move hstep).sound hs.1, (step_move hstep).heard hs.1 hs.2 hg⟩) hguard
    exact hboth.1.2.2

end Invariants

/-- A chunk is sent, and the uploader waits at the empty queue. -/
theorem waits_justified_drained :
    ∃ (tr : List (Step (State (Fin 2)) (Action (Fin 2)))) (s : State (Fin 2)), Run tr s ∧
      s.uploader = .waiting s.notify ∧ s.queue.chunks = [] := by
  obtain ⟨s, hs, hu⟩ : ∃ s : State (Fin 2),
      [Action.enqueue 0 .stdout [97], .lock 0, .waitBatch, .peek, .ack 1, .waitBatch, .peek,
          .take].foldlM
        (fun s a => if decide (Undisturbed s a) then step s a else none) ({} : State (Fin 2)) =
        some s ∧ s.uploader = .waiting s.notify :=
    ⟨_, rfl, rfl⟩
  obtain ⟨tr, htr, hguard⟩ := Trace.of_guarded_foldlM hs
  exact ⟨tr, s, htr, hu,
    (waits_justified htr).2.2 (fun st hst => of_decide_eq_true (hguard st hst)) hu⟩

/-- **A missed signal**: the chunk comes when the uploader has found the queue empty and not
yet taken the channel. -/
theorem missed_signal :
    ¬ ∀ (tr : List (Step (State (Fin 2)) (Action (Fin 2)))) (s : State (Fin 2)), Run tr s →
      (s.uploader = .waiting s.notify →
        s.queue.chunks = [] ∧ s.queue.closed = false ∧ s.queue.failure = none) ∧
      ∀ w stream payload, s.writers w = .waiting stream payload s.notify →
        maxPendingLogBytes < s.queue.pending + payload.length ∧
          s.queue.closed = false ∧ s.queue.failure = none := by
  intro hclaim
  obtain ⟨s, hs, hu, hchunks⟩ : ∃ s : State (Fin 2),
      [Action.waitBatch, .peek, .enqueue 0 .stdout [97], .lock 0, .take].foldlM step
        ({} : State (Fin 2)) = some s ∧
      s.uploader = .waiting s.notify ∧ s.queue.chunks = [⟨1, .stdout, [97]⟩] :=
    ⟨_, rfl, rfl, rfl⟩
  obtain ⟨tr, htr, -⟩ := Trace.of_foldlM hs
  have hempty := ((hclaim tr s htr).1 hu).1
  rw [hchunks] at hempty
  cases hempty

end LogWaits
