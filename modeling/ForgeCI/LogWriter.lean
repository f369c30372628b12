import ForgeCI.JobLogs

/-!
# The log writer of a local job

`joblog.Writer`: stdout and stderr of a job share a mutex, a sequence and a sticky
error.  `Write` holds the mutex while it stores its bytes chunk by chunk; before each
chunk the context may have ended, and a call of the store may fail before or after its
commit.
-/

namespace LogWriter

open JobLogs

/-- What a turn of the loop meets: the end of the context, or a call of the store
that is answered, that does not reach it, or whose answer is lost. -/
inductive Turn where
  | canceled
  | answered
  | unsent
  | unheard

/-- A call of `Write`; `turn` is what the loop meets at an offset. -/
structure Call where
  stream : Stream
  p : List UInt8
  turn : Nat → Turn

/-- `joblog.Writer` and the rows of its job. -/
structure Writer where
  rows : List Chunk := []
  sequence : Nat := 0
  firstErr : Bool := false

/-- `AppendJobLog` on the rows of the job. -/
def appendJobLog (c : Chunk) (rows : List Chunk) : Except LogError (List Chunk) :=
  if c.wellFormed then appendChunk rows c else .error .invalidBatch

/-- The chunk at an offset. -/
def Call.chunk (c : Call) (sequence offset : Nat) : Chunk :=
  ⟨sequence, c.stream, (c.p.drop offset).take (min (c.p.length - offset) maxJobLogChunk)⟩

/-- The loop of `Write`: the bytes counted, and whether there is no error. -/
def Writer.loop (w : Writer) (c : Call) (offset : Nat) : Writer × Nat × Bool :=
  if offset < c.p.length then
    match c.turn offset, appendJobLog (c.chunk (w.sequence + 1) offset) w.rows with
    | .canceled, _ => (w, offset, false)
    | .answered, .ok rows =>
        { w with rows := rows, sequence := w.sequence + 1 }.loop c
          (offset + min (c.p.length - offset) maxJobLogChunk)
    | .unheard, .ok rows => ({ w with rows := rows, firstErr := true }, offset, false)
    | _, _ => ({ w with firstErr := true }, offset, false)
  else (w, c.p.length, true)
termination_by c.p.length - offset
decreasing_by simp [maxJobLogChunk]; omega

def Writer.write (w : Writer) (c : Call) : Writer × Nat × Bool :=
  if c.p = [] then (w, 0, true) else if w.firstErr then (w, 0, false) else w.loop c 0

/-- The calls on both streams, in the order in which they get the mutex. -/
def Writer.after (w : Writer) (calls : List Call) : Writer :=
  calls.foldl (fun w c => (w.write c).1) w

/-- The first bytes of a call, with their stream. -/
def Call.bytes (c : Call) (n : Nat) : List (Stream × UInt8) :=
  (c.p.take n).map (c.stream, ·)

/-- The bytes that the calls count. -/
def Writer.counted (w : Writer) : List Call → List (Stream × UInt8)
  | [] => []
  | c :: rest => c.bytes (w.write c).2.1 ++ (w.write c).1.counted rest

def stored (rows : List Chunk) : List (Stream × UInt8) :=
  rows.flatMap fun c => c.payload.map (c.stream, ·)

/-- The log holds what has been counted, and after an error at most one more chunk, whose
answer was lost. -/
structure Writer.Logs (w : Writer) (counted : List (Stream × UInt8)) : Prop where
  numbered : Numbered w.rows
  sequence : w.firstErr = false → w.sequence = w.rows.length
  bytes : ∃ tail, stored w.rows = counted ++ tail ∧ tail.length ≤ maxJobLogChunk ∧
    (w.firstErr = false → tail = [])

variable {w : Writer} {c : Call} {offset : Nat} {base : List (Stream × UInt8)}

/-- The store takes the next chunk. -/
theorem Writer.Logs.append (h : w.Logs base) (hopen : w.firstErr = false)
    (hlt : offset < c.p.length) : ∃ rows,
      appendJobLog (c.chunk (w.sequence + 1) offset) w.rows = .ok rows ∧ Numbered rows ∧
      w.sequence + 1 = rows.length ∧
      stored rows = base ++ (c.chunk (w.sequence + 1) offset).payload.map (c.stream, ·) := by
  have hseq := h.sequence hopen
  obtain ⟨tail, hstored, -, htail⟩ := h.bytes
  rw [htail hopen, List.append_nil] at hstored
  have hwell : (c.chunk (w.sequence + 1) offset).wellFormed = true := by
    simp [Call.chunk, Chunk.wellFormed, maxJobLogChunk]
    omega
  have hnumbered := h.numbered.concat (c := c.chunk (w.sequence + 1) offset) (by rw [← hseq]; rfl)
  have hnext := appendChunk_take (i := w.rows.length) (n := w.rows.length) hnumbered
    (List.getElem?_concat_length ..) le_rfl (by simp)
  refine ⟨_, ?_, hnumbered, by simp [hseq], by rw [← hstored]; simp [stored, Call.chunk]⟩
  simpa [appendJobLog, hwell, List.take_of_length_le] using hnext

theorem Writer.Logs.loop (h : w.Logs (base ++ c.bytes offset)) (hopen : w.firstErr = false) :
    (w.loop c offset).1.Logs (base ++ c.bytes (w.loop c offset).2.1) ∧
      ((∀ k, c.turn k = .answered) → (w.loop c offset).1.firstErr = false ∧
        (w.loop c offset).2.2 = true) := by
  fun_induction Writer.loop w c offset with
  | case1 => exact ⟨h, by grind⟩
  | case2 w offset hlt rows happend _ ih =>
    obtain ⟨rows', hok, hnumbered, hseq, hstored⟩ := h.append hopen hlt
    cases hok.symm.trans happend
    refine ih ⟨hnumbered, fun _ => hseq, [], ?_, by simp, by simp⟩ hopen
    simp [hstored, Call.bytes, List.take_add, Call.chunk]
  | case3 w offset hlt rows happend =>
    obtain ⟨rows', hok, hnumbered, hseq, hstored⟩ := h.append hopen hlt
    cases hok.symm.trans happend
    exact ⟨⟨hnumbered, by simp, _, hstored, by simp [Call.chunk], by simp⟩, by grind⟩
  | case4 w offset hlt =>
    obtain ⟨tail, hstored, hsize, -⟩ := h.bytes
    exact ⟨⟨h.numbered, by simp, tail, hstored, hsize, by simp⟩, by grind [h.append hopen hlt]⟩
  | case5 w offset hle =>
    rw [Call.bytes, List.take_of_length_le (Nat.le_of_not_lt hle)] at h
    simpa [Call.bytes, hopen] using h

theorem Writer.loop_all (h : (w.loop c offset).2.2 = true) :
    (w.loop c offset).2.1 = c.p.length := by
  fun_induction Writer.loop w c offset <;> simp_all

theorem Writer.write_all (h : (w.write c).2.2 = true) : (w.write c).2.1 = c.p.length := by
  grind [write, loop_all]

theorem Writer.Logs.write (h : w.Logs base) (c : Call) :
    (w.write c).1.Logs (base ++ c.bytes (w.write c).2.1) ∧
      (w.firstErr = false → (∀ k, c.turn k = .answered) →
        (w.write c).1.firstErr = false ∧ (w.write c).2.2 = true) := by
  have hzero : w.Logs (base ++ c.bytes 0) := by simpa [Call.bytes] using h
  unfold Writer.write
  split_ifs with _ hopen
  · exact ⟨hzero, by grind⟩
  · exact ⟨hzero, by grind⟩
  · grind [hzero.loop]

theorem Writer.Logs.after (h : w.Logs base) (calls : List Call) :
    (w.after calls).Logs (base ++ w.counted calls) ∧
      (w.firstErr = false → (∀ c ∈ calls, ∀ k, c.turn k = .answered) →
        w.counted calls = calls.flatMap fun c => c.bytes c.p.length) := by
  induction calls generalizing w base with
  | nil => simpa [after, counted] using h
  | cons c rest ih =>
    obtain ⟨hwrite, hopen⟩ := h.write c
    obtain ⟨hafter, hrest⟩ := ih hwrite
    refine ⟨by simpa [after, counted] using hafter, fun hw hanswered => ?_⟩
    obtain ⟨hopen', hok⟩ := hopen hw (hanswered c List.mem_cons_self)
    rw [counted, Writer.write_all hok, hrest hopen' fun d hd => hanswered d (by simp [hd])]
    rfl

/-- **The log of a local job.**  Whatever the calls of `Write` on the two streams of a job
meet, and in whatever order they get the mutex: the log is numbered from 1 and holds the
bytes that the calls have counted, in that order, and at most one chunk more, none without
an error of the store; a call that returns no error has counted all its bytes, and all have
if the store always answers; after an error of the store nothing more is stored. -/
theorem writes_logged (calls : List Call) (c : Call) :
    let w := ({} : Writer).after calls
    Numbered w.rows ∧ (∃ tail, stored w.rows = ({} : Writer).counted calls ++ tail ∧
        tail.length ≤ maxJobLogChunk ∧ (w.firstErr = false → tail = [])) ∧
      ((w.write c).2.2 = true → (w.write c).2.1 = c.p.length) ∧
      ((∀ d ∈ calls, ∀ k, d.turn k = .answered) →
        ({} : Writer).counted calls = calls.flatMap fun d => d.bytes d.p.length) ∧
      (w.firstErr = true → (w.write c).1 = w) := by
  have hstart : ({} : Writer).Logs [] := ⟨rfl, fun _ => rfl, [], rfl, by simp, by simp⟩
  obtain ⟨hlogs, hall⟩ := hstart.after calls
  exact ⟨hlogs.numbered, hlogs.bytes, Writer.write_all, hall rfl, by grind [Writer.write]⟩

end LogWriter
