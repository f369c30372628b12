import Mathlib.Data.List.Infix
import Mathlib.Data.List.Range
import Mathlib.Data.List.Sort

/-!
# Stored job logs

The rows of `job_log_chunks` of one job, and the operations of the store and of the
runner protocol on them.

A log is `Numbered` when its chunks carry the sequence numbers 1, 2, 3, …
-/

namespace JobLogs

/-- `store.JobLogStream`. -/
inductive Stream where
  | stdout
  | stderr
deriving DecidableEq

/-- A chunk of one job; its creation time is left out. -/
structure Chunk where
  sequence : Nat
  stream : Stream
  payload : List UInt8
deriving DecidableEq

inductive LogError where
  | invalidBatch
  | conflict

def maxJobLogChunk : Nat := 64 * 1024

/-- The test of one chunk that the handler and the store make. -/
def Chunk.wellFormed (c : Chunk) : Bool :=
  1 ≤ c.sequence && c.payload.length ≠ 0 && c.payload.length ≤ maxJobLogChunk

/-- The loop over a batch: well-formed chunks of increasing sequence. -/
def checkBatch : Nat → List Chunk → Bool
  | _, [] => true
  | previous, c :: rest => c.wellFormed && previous < c.sequence && checkBatch c.sequence rest

/-- `SELECT COALESCE(max(sequence),0)`. -/
def maxSequence (rows : List Chunk) : Nat :=
  rows.foldl (fun m c => max m c.sequence) 0

/-- The statements of `AppendJobLogs` for one chunk. -/
def appendChunk (rows : List Chunk) (c : Chunk) : Except LogError (List Chunk) :=
  match rows.find? (·.sequence = c.sequence) with
  | some row =>
      if row.stream ≠ c.stream ∨ row.payload ≠ c.payload then .error .conflict else .ok rows
  | none => if c.sequence ≠ maxSequence rows + 1 then .error .conflict else .ok (rows ++ [c])

/-- `AppendJobLogs`, one transaction under the lock of the job row. -/
def appendJobLogs (chunks rows : List Chunk) : Except LogError (List Chunk) :=
  if chunks = [] ∨ checkBatch 0 chunks = false then .error .invalidBatch
  else chunks.foldlM appendChunk rows

/-- `ListJobLogs`: the rows after a sequence number in its order, at most `limit`. -/
def listJobLogs (after limit : Nat) (rows : List Chunk) : List Chunk :=
  let limit := if limit < 1 then 256 else min limit 1000
  ((rows.filter (after < ·.sequence)).insertionSort fun a b => a.sequence ≤ b.sequence).take limit

def maxLogChunksPerRequest : Nat := 8

/-- The replies of `JobLogAppend` that refuse a batch. -/
inductive Refusal where
  | badRequest
  | conflict

/-- `JobLogAppend`, once the request is decoded; `leaseValid` is the outcome of
`validArtifactLease` on the run as it was read. -/
def jobLogAppend (leaseValid : Bool) (chunks rows : List Chunk) : Except Refusal (List Chunk) :=
  if chunks = [] ∨ maxLogChunksPerRequest < chunks.length then .error .badRequest
  else if checkBatch 0 chunks = false then .error .badRequest
  else if leaseValid = false then .error .conflict
  else match appendJobLogs chunks rows with
  | .error .conflict => .error .conflict
  | .error .invalidBatch => .error .badRequest
  | .ok rows => .ok rows

/-- The chunks carry the numbers from 1 on. -/
def Numbered (log : List Chunk) : Prop :=
  log.map Chunk.sequence = List.range' 1 log.length

instance (log : List Chunk) : Decidable (Numbered log) :=
  inferInstanceAs (Decidable (_ = _))

variable {log rows rows' batch : List Chunk} {c : Chunk} {i n start : Nat}

theorem Numbered.sequence (h : Numbered log) (hi : log[i]? = some c) : c.sequence = i + 1 := by
  have hmap : (log.map Chunk.sequence)[i]? = some c.sequence := by simp [hi]
  grind [Numbered]

theorem Numbered.initial (h : Numbered log) (hrows : rows <+: log) : Numbered rows := by
  obtain ⟨rest, rfl⟩ := hrows
  unfold Numbered at h ⊢
  rw [List.map_append, List.length_append, ← List.range'_append_1] at h
  exact (List.append_inj h (by simp)).1

theorem Numbered.concat (h : Numbered log) (hc : c.sequence = log.length + 1) :
    Numbered (log ++ [c]) := by
  unfold Numbered at h ⊢
  rw [List.map_append, h, List.length_append, ← List.range'_append_1]
  simp [hc, Nat.add_comm]

/-- In a numbered log a sequence number determines its chunk. -/
theorem Numbered.find? (h : Numbered log) (hi : log[i]? = some c) :
    log.find? (·.sequence = c.sequence) = some c := by
  cases hfind : log.find? (·.sequence = c.sequence) with
  | none => grind
  | some d =>
    obtain ⟨k, hk⟩ := List.mem_iff_getElem?.1 (List.mem_of_find?_eq_some hfind)
    grind [h.sequence]

theorem Numbered.maxSequence (h : Numbered log) : maxSequence log = log.length := by
  induction log using List.reverseRecOn with
  | nil => rfl
  | append_singleton log c ih => grind [h.sequence, h.initial, JobLogs.maxSequence, Numbered]

/-- What is stored has a predecessor stored, or is the first. -/
theorem Numbered.appendChunk (h : Numbered rows) (hc : appendChunk rows c = .ok rows') :
    Numbered rows' ∧ rows <+: rows' := by
  unfold JobLogs.appendChunk at hc
  split at hc
  · split_ifs at hc
    grind
  · split_ifs at hc with hseq
    cases hc
    rw [h.maxSequence, not_not] at hseq
    exact ⟨h.concat hseq, List.prefix_append _ _⟩

theorem Numbered.foldlM_appendChunk (h : Numbered rows)
    (hbatch : batch.foldlM JobLogs.appendChunk rows = .ok rows') :
    Numbered rows' ∧ rows <+: rows' := by
  induction batch generalizing rows with
  | nil =>
    cases hbatch
    exact ⟨h, List.prefix_rfl⟩
  | cons c rest ih =>
    rw [List.foldlM_cons] at hbatch
    cases hc : JobLogs.appendChunk rows c with
    | error e =>
      rw [hc] at hbatch
      cases hbatch
    | ok rows₁ =>
      rw [hc] at hbatch
      obtain ⟨h₁, hgrows₁⟩ := h.appendChunk hc
      obtain ⟨h', hgrows'⟩ := ih h₁ hbatch
      exact ⟨h', hgrows₁.trans hgrows'⟩

/-- **The store extends a numbered log**, whatever it is sent. -/
theorem Numbered.appendJobLogs (h : Numbered rows) (hbatch : appendJobLogs batch rows = .ok rows') :
    Numbered rows' ∧ rows <+: rows' := by
  unfold JobLogs.appendJobLogs at hbatch
  split_ifs at hbatch
  exact h.foldlM_appendChunk hbatch

theorem Numbered.filter_sequence (h : Numbered rows) (after : Nat) :
    rows.filter (after < ·.sequence) = rows.drop after := by
  have hearlier : (rows.take after).filter (after < ·.sequence) = [] := by
    apply List.filter_eq_nil_iff.2
    intro d hd
    obtain ⟨k, hk⟩ := List.mem_iff_getElem?.1 hd
    have hdk := (h.initial (List.take_prefix _ _)).sequence hk
    grind
  have hlater : (rows.drop after).filter (after < ·.sequence) = rows.drop after := by
    apply List.filter_eq_self.2
    intro d hd
    obtain ⟨k, hk⟩ := List.mem_iff_getElem?.1 hd
    grind [h.sequence]
  calc rows.filter (after < ·.sequence)
      = (rows.take after ++ rows.drop after).filter (after < ·.sequence) := by
        rw [List.take_append_drop]
    _ = rows.drop after := by
        rw [List.filter_append, hearlier, hlater, List.nil_append]

theorem Numbered.sorted (h : Numbered rows) :
    rows.Pairwise fun a b => a.sequence ≤ b.sequence := by
  have hmap : (rows.map Chunk.sequence).Pairwise (· ≤ ·) := by
    rw [h]
    exact List.pairwise_le_range'
  exact List.pairwise_map.1 hmap

/-- A page of a numbered log starts after the cursor. -/
theorem Numbered.listJobLogs (h : Numbered rows) {after limit : Nat} (hlimit : 1 ≤ limit)
    (hmax : limit ≤ 1000) : listJobLogs after limit rows = (rows.drop after).take limit := by
  unfold JobLogs.listJobLogs
  rw [h.filter_sequence]
  have hsorted : (rows.drop after).Pairwise fun a b => a.sequence ≤ b.sequence :=
    h.sorted.sublist (List.drop_sublist _ _)
  grind [hsorted.insertionSort_eq]

/-- A chunk of the log whose predecessors are stored: it is stored afterwards. -/
theorem appendChunk_take (h : Numbered log) (hc : log[i]? = some c) (hi : i ≤ n)
    (hn : n ≤ log.length) : appendChunk (log.take n) c = .ok (log.take (max n (i + 1))) := by
  have hinit : Numbered (log.take n) := h.initial (List.take_prefix _ _)
  have hlen : (log.take n).length = n := by
    rw [List.length_take]
    omega
  unfold appendChunk
  rcases Nat.lt_or_eq_of_le hi with hlt | rfl
  · have hstored : (log.take n)[i]? = some c := by
      rw [List.getElem?_take_of_lt hlt]
      exact hc
    rw [hinit.find? hstored, Nat.max_eq_left hlt]
    simp
  · have hseq := h.sequence hc
    have hnone : (log.take i).find? (·.sequence = c.sequence) = none := by
      apply List.find?_eq_none.2
      intro d hd
      obtain ⟨k, hk⟩ := List.mem_iff_getElem?.1 hd
      grind [hinit.sequence]
    rw [hnone, hinit.maxSequence, hlen, Nat.max_eq_right (Nat.le_succ i), List.take_add_one, hc]
    simp [hseq]

/-- The first chunk of a part of the log, and the rest of the part. -/
theorem segment_cons {rest : List Chunk} (h : c :: rest <+: log.drop start) :
    log[start]? = some c ∧ rest <+: log.drop (start + 1) := by
  obtain ⟨tail, htail⟩ := h
  constructor
  · have := congrArg (·[0]?) htail
    simpa using this.symm
  · refine ⟨tail, ?_⟩
    rw [← List.drop_drop, ← htail]
    rfl

theorem foldlM_appendChunk (h : Numbered log) (hbatch : batch <+: log.drop start)
    (hstart : start ≤ n) (hn : n ≤ log.length) :
    batch.foldlM appendChunk (log.take n) = .ok (log.take (max n (start + batch.length))) := by
  induction batch generalizing start n with
  | nil => simp [Nat.max_eq_left hstart, pure, Except.pure]
  | cons c rest ih =>
    obtain ⟨hc, hrest⟩ := segment_cons hbatch
    have hlt : start < log.length := (List.getElem?_eq_some_iff.1 hc).1
    rw [List.foldlM_cons, appendChunk_take h hc hstart hn]
    show rest.foldlM appendChunk (log.take (max n (start + 1))) = _
    rw [ih hrest (by omega) (by omega)]
    congr 2
    simp only [List.length_cons]
    omega

/-- The chunks of a batch taken from a well-formed numbered log pass the checks. -/
theorem checkBatch_segment (h : Numbered log) (hwf : ∀ c ∈ log, c.wellFormed = true)
    (hbatch : batch <+: log.drop start) (hn : n ≤ start) : checkBatch n batch = true := by
  induction batch generalizing start n with
  | nil => rfl
  | cons c rest ih =>
    obtain ⟨hc, hrest⟩ := segment_cons hbatch
    have hseq := h.sequence hc
    simp only [checkBatch, Bool.and_eq_true, decide_eq_true_eq]
    exact ⟨⟨hwf c (List.mem_of_getElem? hc), by omega⟩, ih hrest (by omega)⟩

/-- **Replay is idempotent.**  When the store holds a prefix of the log, a batch that
starts within it extends it to the end of the batch. -/
theorem appendJobLogs_replay (h : Numbered log) (hwf : ∀ c ∈ log, c.wellFormed = true)
    (hrows : rows <+: log) (hbatch : batch <+: log.drop start) (hne : batch ≠ [])
    (hstart : start ≤ rows.length) :
    appendJobLogs batch rows = .ok (log.take (max rows.length (start + batch.length))) := by
  have hcheck := checkBatch_segment h hwf hbatch (Nat.zero_le start)
  unfold appendJobLogs
  rw [if_neg (by simp [hne, hcheck]), List.prefix_iff_eq_take.1 hrows]
  have hlen := hrows.length_le
  rw [foldlM_appendChunk h hbatch (n := rows.length) hstart hlen]
  simp [List.length_take, Nat.min_eq_left hlen]

/-- A part of a numbered log has one place in it. -/
theorem Numbered.start_unique {start' : Nat} (h : Numbered log) (hne : batch ≠ [])
    (hbatch : batch <+: log.drop start) (hbatch' : batch <+: log.drop start') :
    start = start' := by
  cases batch with
  | nil => exact absurd rfl hne
  | cons c rest =>
    have hseq := h.sequence (segment_cons hbatch).1
    have hseq' := h.sequence (segment_cons hbatch').1
    omega

/-- A batch the handler accepts was appended. -/
theorem jobLogAppend_ok {leaseValid : Bool} (h : jobLogAppend leaseValid batch rows = .ok rows') :
    appendJobLogs batch rows = .ok rows' := by
  unfold jobLogAppend at h
  split_ifs at h
  split at h
  · cases h
  · cases h
  · rename_i hok
    rw [hok, Except.ok.inj h]

end JobLogs
