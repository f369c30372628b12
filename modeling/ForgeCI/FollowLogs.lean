import ForgeCI.JobLogs
import ForgeCI.Traces

/-!
# Following a job log

`forge logs` prints the log of a job page by page; with `--follow` the server holds back
an empty page until there is a chunk or the run has finished.  The parties are the
runner that appends, the control plane that finishes the job and the run, the handler of
the request and the command; each read of the database is one step.

The handler lists the chunks and then reads `FinishedAt`.  When the last chunk and the
end of the run fall between the two reads, the reply is empty and the command leaves.
-/

namespace FollowLogs

open JobLogs Traces

/-- Where the handler of `GET /v1/runs/{id}/logs` stands; `after` is the cursor of the
request. -/
inductive Handler where
  | idle
  /-- Before the first `ListJobLogs`. -/
  | listing (after : Nat)
  /-- In the `select` of the loop. -/
  | polling (after : Nat)
  /-- After the `ListJobLogs` of a tick, before the run is read. -/
  | listed (after : Nat) (items : List Chunk)
  /-- The reply is written; `none` is an error. -/
  | replied (items : Option (List Chunk))
deriving DecidableEq

/-- The test of the loop, `len(items) == 0 && !terminal`. -/
def Handler.resume (after : Nat) (items : List Chunk) (terminal : Bool) : Handler :=
  if items.length = 0 ∧ terminal = false then .polling after else .replied (some items)

/-- Where the loop of `logs` stands. -/
inductive Cli where
  | requesting
  | waiting
  /-- The chunks left of a page, and its length. -/
  | printing (items : List Chunk) (count : Nat)
  | exited (status : Nat)
deriving DecidableEq

/-- The command, the handler of its request and the rows they read. -/
structure Session where
  rows : List Chunk := []
  jobDone : Bool := false
  finishedAt : Bool := false
  handler : Handler := .idle
  cli : Cli := .requesting
  after : Nat := 0
  printed : List (List UInt8) := []

def pageLimit : Nat := 256

inductive Action where
  | append (leaseValid : Bool) (chunks : List Chunk)
  | completeJob
  | finalize
  | request
  | list
  | listFails
  | deadline
  | tick
  | read (found : Bool)
  | disconnect
  | receive
  | print
  | printFails
  | decide
deriving DecidableEq

/-- The end of a pass through the loop of `logs`. -/
def Cli.decide (follow : Bool) (count : Nat) : Cli :=
  if count < pageLimit ∧ follow = true ∧ count = 0 then .exited 0
  else if count < pageLimit ∧ follow = false then .exited 0
  else if follow = true ∧ count = 0 then .exited 0
  else .requesting

/-- One step of one party; `none` when the party cannot take it. -/
def step (follow : Bool) (s : Session) : Action → Option Session
  | .append leaseValid chunks =>
      if s.jobDone then none
      else match jobLogAppend leaseValid chunks s.rows with
      | .error _ => some s
      | .ok rows => some { s with rows := rows }
  | .completeJob => some { s with jobDone := true }
  | .finalize =>
      if s.jobDone ∧ s.finishedAt = false then some { s with finishedAt := true } else none
  | .request =>
      if s.cli = .requesting then
        some { s with cli := .waiting, handler := .listing s.after }
      else none
  | .list =>
      match s.handler with
      | .listing after =>
          let items := listJobLogs after pageLimit s.rows
          some { s with handler :=
            if follow = true ∧ items.length = 0 then .polling after else .replied (some items) }
      | _ => none
  | .listFails =>
      match s.handler with
      | .listing _ | .polling _ => some { s with handler := .replied none }
      | _ => none
  -- The page is emptied, and the loop goes on: `terminal` is still false.
  | .deadline =>
      match s.handler with
      | .polling after => some { s with handler := .resume after [] false }
      | _ => none
  | .tick =>
      match s.handler with
      | .polling after => some { s with
          handler := .listed after (listJobLogs after pageLimit s.rows) }
      | _ => none
  | .read found =>
      match s.handler with
      | .listed after items => some { s with
          handler := .resume after items (found && s.finishedAt) }
      | _ => none
  -- The context of the request is done, or the connection fails.
  | .disconnect =>
      if s.cli = .waiting then some { s with cli := .exited 2, handler := .idle } else none
  | .receive =>
      match s.cli, s.handler with
      | .waiting, .replied none => some { s with cli := .exited 2, handler := .idle }
      | .waiting, .replied (some items) =>
          some { s with cli := .printing items items.length, handler := .idle }
      | _, _ => none
  | .print =>
      match s.cli with
      | .printing (c :: rest) count => some { s with
          cli := .printing rest count
          after := if s.after < c.sequence then c.sequence else s.after
          printed := s.printed ++ [c.payload] }
      | _ => none
  | .printFails =>
      match s.cli with
      | .printing (_ :: _) _ => some { s with cli := .exited 2 }
      | _ => none
  | .decide =>
      match s.cli with
      | .printing [] count => some { s with cli := .decide follow count }
      | _ => none

/-- A run of the command and its surroundings. -/
abbrev Reaches (follow : Bool) (tr : List (Step Session Action)) (s : Session) : Prop :=
  Trace (fun s a s' => step follow s a = some s') {} tr s

/-- The page in flight, or what is left of it. -/
def Session.page? (s : Session) : Option (List Chunk) :=
  match s.handler, s.cli with
  | .listed _ items, _ | .replied (some items), _ | .idle, .printing items _ => some items
  | _, _ => none

/-- The cursor of the request in flight. -/
def Handler.after? : Handler → Option Nat
  | .listing after | .polling after | .listed after _ => some after
  | _ => none

/-- What holds between any two steps. -/
structure Session.Sound (s : Session) : Prop where
  numbered : Numbered s.rows
  cursor : s.after ≤ s.rows.length
  printed : s.printed = (s.rows.take s.after).map Chunk.payload
  page : ∀ items, s.page? = some items → items <+: s.rows.drop s.after
  after : ∀ after, s.handler.after? = some after → after = s.after
  waiting : s.cli = .waiting ∨ s.handler = .idle
  count : ∀ items count, s.cli = .printing items count → items.length ≤ count
  done : s.finishedAt = true → s.jobDone = true

variable {follow : Bool} {s s' : Session} {act : Action} {tr : List (Step Session Action)}

/-- A step of the handler or of the command that prints nothing. -/
theorem Session.Sound.move (h : s.Sound) {handler : Handler} {cli : Cli}
    (hpage : ∀ items, { s with handler := handler, cli := cli }.page? = some items →
      items <+: s.rows.drop s.after)
    (hafter : ∀ after, handler.after? = some after → after = s.after)
    (hwaiting : cli = .waiting ∨ handler = .idle)
    (hcount : ∀ items count, cli = .printing items count → items.length ≤ count) :
    { s with handler := handler, cli := cli }.Sound :=
  ⟨h.numbered, h.cursor, h.printed, hpage, hafter, hwaiting, hcount, h.done⟩

/-- While the handler is busy the command waits. -/
theorem Session.Sound.busy (h : s.Sound) (hbusy : s.handler ≠ .idle) : s.cli = .waiting :=
  h.waiting.resolve_right hbusy

/-- The handler goes on with the same cursor, or replies with a page. -/
theorem Session.Sound.serve (h : s.Sound) (hbusy : s.handler ≠ .idle) {handler : Handler}
    (hpage : ∀ after items, handler = .listed after items ∨ handler = .replied (some items) →
      items <+: s.rows.drop s.after)
    (hafter : ∀ after, handler.after? = some after → after = s.after) :
    { s with handler := handler }.Sound := by
  have hcli := h.busy hbusy
  apply h.move
  · intro items hitems
    simp only [Session.page?, hcli] at hitems
    split at hitems <;> simp_all
  · exact hafter
  · exact .inl hcli
  · simp [hcli]

theorem Session.Sound.append (h : s.Sound) {leaseValid : Bool} {chunks rows : List Chunk}
    (hrows : jobLogAppend leaseValid chunks s.rows = .ok rows) : { s with rows := rows }.Sound := by
  obtain ⟨hnumbered, rest, rfl⟩ := h.numbered.appendJobLogs (jobLogAppend_ok hrows)
  have hcursor := h.cursor
  refine ⟨hnumbered, ?_, ?_, ?_, h.after, h.waiting, h.count, h.done⟩
  · grind
  · grind [h.printed]
  · intro items hitems
    show items <+: (s.rows ++ rest).drop s.after
    rw [List.drop_append_of_le_length hcursor]
    exact (h.page items hitems).trans (List.prefix_append _ _)

/-- The chunk that is printed is the one after the cursor. -/
theorem Session.Sound.print (h : s.Sound) {c : Chunk} {rest : List Chunk} {count : Nat}
    (hcli : s.cli = .printing (c :: rest) count) :
    { s with
      cli := .printing rest count
      after := if s.after < c.sequence then c.sequence else s.after
      printed := s.printed ++ [c.payload] }.Sound := by
  have hidle := h.waiting.resolve_left (by simp [hcli])
  have hpage := h.page (c :: rest) (by simp [Session.page?, hcli, hidle])
  obtain ⟨hc, hrest⟩ := segment_cons hpage
  have hseq := h.numbered.sequence hc
  obtain ⟨hlt, -⟩ := List.getElem?_eq_some_iff.1 hc
  rw [if_pos (by omega), hseq]
  refine ⟨h.numbered, hlt, ?_, ?_, ?_, .inr hidle, ?_, h.done⟩
  · show s.printed ++ [c.payload] = (s.rows.take (s.after + 1)).map Chunk.payload
    rw [List.take_add_one, hc, h.printed]
    simp
  · grind [Session.page?]
  · simp [hidle, Handler.after?]
  · intro items n hn
    cases hn
    have := h.count _ _ hcli
    rw [List.length_cons] at this
    omega

theorem Cli.decide_ne_printing (count n : Nat) (items : List Chunk) :
    Cli.decide follow count ≠ .printing items n := by
  unfold Cli.decide
  split_ifs <;> simp

theorem listJobLogs_page (h : Numbered s.rows) (after : Nat) :
    listJobLogs after pageLimit s.rows = (s.rows.drop after).take pageLimit :=
  h.listJobLogs (by decide) (by decide)

/-- **Every step keeps the invariant.** -/
theorem step_sound (h : s.Sound) (hstep : step follow s act = some s') : s'.Sound := by
  cases act with
  | append leaseValid chunks => grind [h.append, step]
  | completeJob =>
    cases hstep
    exact { h with done := fun _ => rfl }
  | finalize =>
    simp only [step, Option.ite_none_right_eq_some, Option.some.injEq] at hstep
    obtain ⟨⟨hdone, -⟩, rfl⟩ := hstep
    exact { h with done := fun _ => hdone }
  | request => grind [h.move, step, Session.page?, Handler.after?]
  | list =>
    simp only [step] at hstep
    split at hstep
    · rename_i after hhandler
      cases hstep
      obtain rfl := h.after after (by simp [hhandler, Handler.after?])
      rw [listJobLogs_page h.numbered]
      grind [h.serve, Handler.after?]
    · cases hstep
  | listFails =>
    simp only [step] at hstep
    split at hstep
    · rename_i hhandler
      cases hstep
      apply h.serve <;> simp [hhandler, Handler.after?]
    · rename_i hhandler
      cases hstep
      apply h.serve <;> simp [hhandler, Handler.after?]
    · cases hstep
  | deadline => grind [h.after, h.serve, step, Handler.after?, Handler.resume]
  | tick =>
    simp only [step] at hstep
    split at hstep
    · rename_i after hhandler
      cases hstep
      obtain rfl := h.after after (by simp [hhandler, Handler.after?])
      rw [listJobLogs_page h.numbered]
      apply h.serve <;> simp [hhandler, Handler.after?, List.take_prefix]
    · cases hstep
  | read found =>
    grind [h.after, h.page, h.serve, step, Handler.after?, Session.page?, Handler.resume]
  | disconnect => grind [h.move, step, Session.page?, Handler.after?]
  | receive => grind [h.move, h.page, step, Session.page?, Handler.after?]
  | print => grind [h.print, step]
  | printFails => grind [h.waiting, h.move, step, Session.page?, Handler.after?]
  | decide =>
    simp only [step] at hstep
    split at hstep
    · rename_i count hcli
      have hidle := h.waiting.resolve_left (by simp [hcli])
      cases hstep
      apply h.move
      · intro items hitems
        simp only [Session.page?, hidle] at hitems
        split at hitems <;> simp_all [Cli.decide_ne_printing]
      · simp [Handler.after?, hidle]
      · exact .inr hidle
      · intro items n hn
        exact absurd hn (Cli.decide_ne_printing _ _ _)
    · cases hstep

theorem init_sound : ({} : Session).Sound := by
  constructor <;> simp [Numbered, Session.page?, Handler.after?]

theorem Reaches.sound (h : Reaches follow tr s) : s.Sound :=
  h.final_invariant Session.Sound init_sound fun _ _ _ hs hstep => step_sound hs hstep

/-- An empty page has been sent, or the command has left on one. -/
def Session.Final (s : Session) : Prop :=
  s.handler = .replied (some []) ∨ s.cli = .printing [] 0 ∨ s.cli = .exited 0

/-- The command will leave without the last chunks. -/
def Session.Missed (s : Session) : Prop :=
  s.Final ∧ s.after < s.rows.length

/-- The handler does not find the run finished behind an empty page that the log has
outgrown since. -/
def Settled (s : Session) : Action → Prop
  | .read found => found = true → s.finishedAt = true →
      ∀ after, s.handler = .listed after [] → ∀ c ∈ s.rows, c.sequence ≤ after
  | _ => True

/-- **An empty page is sent only for a finished run.** -/
theorem step_final (hs : s.Sound) (h : s.Final → s.finishedAt = true)
    (hstep : step true s act = some s') : s'.Final → s'.finishedAt = true := by
  have hcount := hs.count
  unfold Session.Final at h ⊢
  cases act with
  | decide => grind [step, Cli.decide]
  | _ => grind [step, Handler.resume]

theorem Reaches.final (h : Reaches true tr s) : s.Final → s.finishedAt = true := by
  have hboth := h.final_invariant (fun s => s.Sound ∧ (s.Final → s.finishedAt = true))
    ⟨init_sound, by simp [Session.Final]⟩
    fun _ _ _ hs hstep => ⟨step_sound hs.1 hstep, step_final hs.1 hs.2 hstep⟩
  exact hboth.2

/-- A command that has left stays away. -/
theorem step_exited {status : Nat} (h : s.cli = .exited status)
    (hstep : step follow s act = some s') : s'.cli = .exited status := by
  cases act <;> grind [step]

theorem Session.Missed.step (h : s.Missed) (hs : s.Sound)
    (hfinal : s.Final → s.finishedAt = true) (hstep : step true s act = some s')
    (hin : s'.cli ≠ .exited 2) : s'.Missed := by
  have hwaiting := hs.waiting
  have hdone := hs.done
  unfold Session.Missed Session.Final at *
  cases act with
  | decide => grind [FollowLogs.step, Cli.decide]
  | _ => grind [FollowLogs.step, Handler.resume]

theorem Session.Sound.outgrown_iff (hs : s.Sound) :
    (∀ c ∈ s.rows, c.sequence ≤ s.after) ↔ s.rows.length ≤ s.after := by
  constructor
  · intro hall
    by_contra hlt
    have hlt : s.after < s.rows.length := by omega
    have hseq := hs.numbered.sequence (List.getElem?_eq_getElem hlt)
    have := hall _ (List.getElem_mem hlt)
    omega
  · intro hle c hc
    obtain ⟨i, hi⟩ := List.getElem?_of_mem hc
    have hseq := hs.numbered.sequence hi
    grind

theorem missed_read_iff (hs : s.Sound) {found : Bool}
    (hstep : step true s (.read found) = some s') : s'.Missed ↔ ¬ Settled s (.read found) := by
  simp only [step] at hstep
  split at hstep
  · rename_i after items hhandler
    cases hstep
    obtain rfl := hs.after after (by simp [hhandler, Handler.after?])
    have hcli := hs.busy (by simp [hhandler])
    have hreply : Handler.resume s.after items (found && s.finishedAt) = .replied (some []) ↔
        items = [] ∧ found = true ∧ s.finishedAt = true := by grind [Handler.resume]
    grind [hs.outgrown_iff, Settled, Session.Missed, Session.Final]
  · cases hstep

/-- **The end of the log is missed exactly by a step that is not settled.** -/
theorem missed_iff (hs : s.Sound) (hfinal : s.Final → s.finishedAt = true) (hgood : ¬ s.Missed)
    (hstep : step true s act = some s') : s'.Missed ↔ ¬ Settled s act := by
  have hcount := hs.count
  have hwaiting := hs.waiting
  have hdone := hs.done
  cases act with
  | read found => exact missed_read_iff hs hstep
  | decide => grind [step, Cli.decide, Settled, Session.Missed, Session.Final]
  | _ => grind [step, Handler.resume, Settled, Session.Missed, Session.Final]

/-- **Following a log.**  When `logs --follow` ends with status 0, it has printed the whole
log, each chunk once and in order, exactly when every step was settled. -/
theorem followed_log_complete (h : Reaches true tr s) (hexit : s.cli = .exited 0) :
    Numbered s.rows ∧ (s.printed = s.rows.map Chunk.payload ↔
      ∀ st ∈ tr, Settled st.before st.act) := by
  have hs := h.sound
  refine ⟨hs.numbered, ?_⟩
  have hexact : ¬ s.Missed ↔ ∀ st ∈ tr, Settled st.before st.act := by
    apply h.exact_final Session.Missed (fun s => s.cli = .exited 2) Settled
    · simp [Session.Missed, Session.Final]
    · exact fun _ _ _ hout hstep => step_exited hout hstep
    · intro pre s a s' hpre hbad hstep hin
      exact hbad.step (Reaches.sound hpre) (Reaches.final hpre) hstep hin
    · intro pre s a s' hpre hgood hstep _
      exact missed_iff (Reaches.sound hpre) (Reaches.final hpre) hgood hstep
    · simp [hexit]
  rw [← hexact, hs.printed]
  constructor
  · rintro hall ⟨-, hlt⟩
    have hlen := congrArg List.length hall
    simp only [List.length_map, List.length_take] at hlen
    omega
  · intro hgood
    have hle : s.rows.length ≤ s.after := by
      by_contra hlt
      exact hgood ⟨.inr (.inr hexit), by omega⟩
    rw [List.take_of_length_le hle]

/-- A log of one chunk: it is printed, and the next page comes empty once the run has
finished. -/
def Sample.followed : List Action :=
  [.append true [⟨1, .stdout, [104, 105]⟩], .request, .list, .receive, .print, .decide,
    .request, .list, .completeJob, .finalize, .tick, .read true, .receive, .decide]

theorem followed_printed : ∃ tr s, Reaches true tr s ∧ s.cli = .exited 0 ∧
    s.printed = [[104, 105]] ∧ Numbered s.rows ∧
    (s.printed = s.rows.map Chunk.payload ↔ ∀ st ∈ tr, Settled st.before st.act) := by
  have hrun : (Sample.followed.foldlM (step true) {}).map (fun s => (s.cli, s.printed)) =
      some (.exited 0, [[104, 105]]) := by decide
  obtain ⟨tr, s, htr, -, hstate⟩ := Trace.of_foldlM_map hrun
  obtain ⟨hcli, hprinted⟩ := Prod.mk.inj hstate
  exact ⟨tr, s, htr, hcli, hprinted, followed_log_complete htr hcli⟩

/-- The only chunk is appended, and the run finishes, after the handler has listed an
empty page and before it reads the run. -/
def Sample.outgrown : List Action :=
  [.request, .list, .tick, .append true [⟨1, .stdout, [104, 105]⟩], .completeJob, .finalize,
    .read true, .receive, .decide]

/-- **The command ends with status 0 and has printed nothing of the log.** -/
theorem followed_log_missed : ¬ ∀ tr s, Reaches true tr s → s.cli = .exited 0 →
    s.printed = s.rows.map Chunk.payload := by
  intro hall
  have hrun : (Sample.outgrown.foldlM (step true) {}).map (fun s => (s.cli, s.printed, s.rows)) =
      some (.exited 0, [], [⟨1, .stdout, [104, 105]⟩]) := by decide
  obtain ⟨tr, s, htr, -, hstate⟩ := Trace.of_foldlM_map hrun
  obtain ⟨hcli, hlogs⟩ := Prod.mk.inj hstate
  obtain ⟨hprinted, hrows⟩ := Prod.mk.inj hlogs
  have hmissing := hall tr s htr hcli
  rw [hprinted, hrows] at hmissing
  cases hmissing

/-- What is left to print, if the page at hand is the last. -/
def Session.last? (s : Session) : Option (List Chunk) :=
  match s.handler, s.cli with
  | .replied (some items), _ => if items.length < pageLimit then some items else none
  | .idle, .printing items count => if count < pageLimit then some items else none
  | .idle, .exited 0 => some []
  | _, _ => none

/-- Without `--follow` the handler does not poll. -/
def Handler.Direct : Handler → Prop
  | .polling _ | .listed _ _ => False
  | _ => True

theorem step_direct (h : s.handler.Direct) (hstep : step false s act = some s') :
    s'.handler.Direct := by
  cases act <;> grind [step, Handler.Direct]

/-- Only the reading of a page changes what will have been printed. -/
theorem step_last (hs : s.Sound) (hdirect : s.handler.Direct) (hact : act ≠ .list)
    (hstep : step false s act = some s') {items : List Chunk} (hlast : s'.last? = some items) :
    ∃ items₀, s.last? = some items₀ ∧
      s.printed ++ items₀.map Chunk.payload = s'.printed ++ items.map Chunk.payload := by
  have hwaiting := hs.waiting
  unfold Session.last? at hlast ⊢
  cases act with
  | list => exact absurd rfl hact
  | decide => grind [step, Cli.decide]
  | _ => grind [step, Handler.Direct]

/-- A page that is not full reaches to the end of the log. -/
theorem step_list (hs : s.Sound) (hstep : step false s .list = some s') {items : List Chunk}
    (hlast : s'.last? = some items) :
    s'.printed ++ items.map Chunk.payload = s.rows.map Chunk.payload := by
  simp only [step] at hstep
  split at hstep
  · rename_i after hhandler
    cases hstep
    obtain rfl := hs.after after (by simp [hhandler, Handler.after?])
    simp only [Session.last?, listJobLogs_page hs.numbered] at hlast
    have hitems : items = s.rows.drop s.after := by grind [List.take_of_length_le]
    rw [hitems, hs.printed, ← List.map_append, List.take_append_drop]
  · cases hstep

/-- **Printing a log.**  When `logs` ends with status 0 it has printed the whole log as it
was at one moment, when it read a page, however the log grew between the pages. -/
theorem printed_log_complete (h : Reaches false tr s) (hexit : s.cli = .exited 0) :
    ∃ st ∈ tr, st.act = .list ∧ s.printed = st.before.rows.map Chunk.payload := by
  suffices hpaged : s.handler.Direct ∧ ∀ items, s.last? = some items → ∃ st ∈ tr,
      st.act = .list ∧ s.printed ++ items.map Chunk.payload = st.before.rows.map Chunk.payload by
    have hidle := h.sound.waiting.resolve_left (by simp [hexit])
    simpa using hpaged.2 [] (by simp [Session.last?, hexit, hidle])
  clear hexit
  induction h with
  | nil => exact ⟨trivial, by simp [Session.last?]⟩
  | @snoc tr s s' act run hstep ih =>
    refine ⟨step_direct ih.1 hstep, fun items hlast => ?_⟩
    by_cases hact : act = .list
    · subst hact
      exact ⟨⟨s, .list, s'⟩, by simp, rfl, step_list (Reaches.sound run) hstep hlast⟩
    · obtain ⟨items₀, hlast₀, heq⟩ := step_last (Reaches.sound run) ih.1 hact hstep hlast
      obtain ⟨st, hst, hlist, hlog⟩ := ih.2 items₀ hlast₀
      exact ⟨st, List.mem_append_left _ hst, hlist, heq ▸ hlog⟩

theorem printed_page : ∃ tr s, Reaches false tr s ∧ s.printed = [[104, 105]] ∧
    ∃ st ∈ tr, st.act = .list ∧ s.printed = st.before.rows.map Chunk.payload := by
  have hrun : ((Sample.followed.take 6).foldlM (step false) {}).map (fun s => (s.cli, s.printed)) =
      some (.exited 0, [[104, 105]]) := by decide
  obtain ⟨tr, s, htr, -, hstate⟩ := Trace.of_foldlM_map hrun
  obtain ⟨hcli, hprinted⟩ := Prod.mk.inj hstate
  exact ⟨tr, s, htr, hprinted, printed_log_complete htr hcli⟩

end FollowLogs
