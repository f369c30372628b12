import ForgeCI.JobLogs
import ForgeCI.LeaseEvents
import ForgeCI.Submission

/-!
# Fenced log appends

`JobLogAppend` reads the run and checks the lease in one transaction, and `AppendJobLogs` appends
in another, which locks the row of the job but does not look at its status.  In between the job
may be completed, expire, be cancelled or be recovered.
-/

namespace Postgres

open JobLogs Traces

/-- `validArtifactLease` for a running job. -/
def validArtifactLease (r : Run) (o : Ownership) (now : Time) : Bool :=
  r.status = .running && (r.job? o.jobName).any fun j =>
    j.status = .running && j.runnerID.isSome && j.runnerID = o.runnerID &&
      j.leaseID.isSome && j.leaseID = o.leaseID && j.leaseGeneration = o.generation &&
      j.leaseExpiresAt.any (now < ·)

/-- The database with the logs of its jobs, and the requests between their two transactions. -/
structure World where
  db : Database := Database.empty
  logs : Uuid → String → List Chunk := fun _ _ => []
  checked : List (Ownership × List Chunk) := []

inductive LogAction where
  /-- Any call of the store. -/
  | serve (q : Request)
  /-- `JobLogAppend` up to the check of the lease. -/
  | check (o : Ownership) (chunks : List Chunk) (now : Time)
  /-- The `AppendJobLogs` transaction of a checked request. -/
  | append (index : Nat)

def Database.job? (db : Database) (run : Uuid) (name : String) : Option Job :=
  (db.run? run).bind fun r => r.job? name

/-- The body and the lease are good. -/
def World.accepts (w : World) (o : Ownership) (chunks : List Chunk) (now : Time) : Bool :=
  chunks ≠ [] && chunks.length ≤ maxLogChunksPerRequest && checkBatch 0 chunks &&
    (w.db.run? o.runID).any fun r => validArtifactLease r o now

/-- The log of one job is replaced. -/
def World.setLog (w : World) (run : Uuid) (job : String) (log : List Chunk) : World :=
  { w with logs := fun run' job' => if run' = run ∧ job' = job then log else w.logs run' job' }

/-- `AppendJobLogs`: it fails if there is no such job, and is rolled back if it fails. -/
def World.append (w : World) (o : Ownership) (chunks : List Chunk) : World :=
  if (w.db.job? o.runID o.jobName).isSome then
    match appendJobLogs chunks (w.logs o.runID o.jobName) with
    | .ok log => w.setLog o.runID o.jobName log
    | .error _ => w
  else w

def World.step (s : Settings) (w : World) : LogAction → Option World
  | .serve q => some { w with db := (w.db.serve s q).1 }
  | .check o chunks now =>
      some (if w.accepts o chunks now then { w with checked := w.checked ++ [(o, chunks)] } else w)
  | .append index =>
      match w.checked[index]? with
      | none => none
      | some (o, chunks) =>
          some ({ w with checked := w.checked.eraseIdx index }.append o chunks)

abbrev LogRun (s : Settings) (tr : List (Step World LogAction)) (w : World) : Prop :=
  Trace (fun w a w' => w.step s a = some w') {} tr w

/-- The job is `RUNNING`. -/
def Database.isRunning (db : Database) (o : Ownership) : Bool :=
  (db.job? o.runID o.jobName).any fun j => j.status = .running

/-- The call does not end a job for which a checked append is in flight. -/
def Undisturbed (s : Settings) (w : World) : LogAction → Prop
  | .serve q => ∀ p ∈ w.checked, w.db.isRunning p.1 = true →
      (w.db.serve s q).1.isRunning p.1 = true
  | _ => True

instance (s : Settings) (w : World) (a : LogAction) : Decidable (Undisturbed s w a) :=
  match a with
  | .serve q => inferInstanceAs (Decidable (∀ p ∈ w.checked, w.db.isRunning p.1 = true →
      (w.db.serve s q).1.isRunning p.1 = true))
  | .check _ _ _ | .append _ => inferInstanceAs (Decidable True)

/-- The jobs of the checked requests are `RUNNING`. -/
def World.Live (w : World) : Prop := ∀ p ∈ w.checked, w.db.isRunning p.1 = true

variable {s : Settings} {w w' : World} {a : LogAction} {o : Ownership} {chunks : List Chunk}
  {db : Database} {r : Run} {j : Job} {now : Time} {tr : List (Step World LogAction)}

theorem Database.job?_of_mem (hr : r ∈ db.runs) (hj : j ∈ r.jobs) :
    db.job? r.id j.name = some j := by
  have hrun : db.run? r.id = some r :=
    (Table.row?_eq_some_iff db.valid.keyed.runs).2 ⟨hr, rfl⟩
  have hjob : r.job? j.name = some j :=
    (Table.row?_eq_some_iff (db.valid.keyed.jobs r hr)).2 ⟨hj, rfl⟩
  unfold Database.job?
  rw [hrun]
  exact hjob

theorem World.accepts_running (h : w.accepts o chunks now = true) : w.db.isRunning o = true := by
  unfold World.accepts at h
  simp only [Bool.and_eq_true] at h
  obtain ⟨r, hr, hlease⟩ := (Option.any_eq_true _ _).1 h.2
  unfold validArtifactLease at hlease
  simp only [Bool.and_eq_true] at hlease
  obtain ⟨j, hj, hrunning⟩ := (Option.any_eq_true _ _).1 hlease.2
  simp only [Bool.and_eq_true] at hrunning
  unfold Database.isRunning Database.job?
  rw [hr, Option.bind_some, hj]
  exact hrunning.1.1.1.1.1.1

/-- Appending changes the log of its own job. -/
theorem World.append_logs {run : Uuid} {job : String} (h : ¬(run = o.runID ∧ job = o.jobName)) :
    (w.append o chunks).logs run job = w.logs run job := by
  unfold World.append
  split_ifs
  · split
    · exact if_neg h
    · rfl
  · rfl

theorem World.append_frame (w : World) (o : Ownership) (chunks : List Chunk) :
    (w.append o chunks).db = w.db ∧ (w.append o chunks).checked = w.checked := by
  unfold World.append
  split_ifs
  · split <;> exact ⟨rfl, rfl⟩
  · exact ⟨rfl, rfl⟩

theorem step_live (h : w.Live) (hguard : Undisturbed s w a) (hstep : w.step s a = some w') :
    w'.Live := by
  cases a with
  | serve q =>
    cases hstep
    intro p hp
    exact hguard p hp (h p hp)
  | check o chunks now =>
    cases hstep
    split_ifs with haccepts
    · intro p hp
      rcases List.mem_append.1 hp with hp | hp
      · exact h p hp
      · grind [World.accepts_running]
    · exact h
  | append index =>
    simp only [World.step] at hstep
    split at hstep
    · cases hstep
    · rename_i o chunks _
      cases hstep
      obtain ⟨hdb, hchecked⟩ :=
        World.append_frame { w with checked := w.checked.eraseIdx index } o chunks
      intro p hp
      rw [hchecked] at hp
      rw [hdb]
      exact h p (List.mem_of_mem_eraseIdx hp)

/-- The log of a job that is not `RUNNING` stays. -/
theorem step_logs (h : w.Live) (hstep : w.step s a = some w') (hr : r ∈ w.db.runs) (hj : j ∈ r.jobs)
    (hended : j.status ≠ .running) : w'.logs r.id j.name = w.logs r.id j.name := by
  cases a with
  | serve q =>
    cases hstep
    rfl
  | check o chunks now =>
    cases hstep
    split_ifs <;> rfl
  | append index =>
    simp only [World.step] at hstep
    split at hstep
    · cases hstep
    · rename_i o chunks hchecked
      cases hstep
      apply World.append_logs
      rintro ⟨hid, hname⟩
      have hrunning := h _ (List.mem_of_getElem? hchecked)
      grind [Database.isRunning, Database.job?_of_mem]

/-- **Fenced log appends.**  In every run of the store and of any number of append requests in
which no call ends a job while an append that has passed its check is in flight for it, no step
adds to the log of a job that is not `RUNNING`. -/
theorem log_appends_fenced (h : LogRun s tr w)
    (hguard : ∀ st ∈ tr, Undisturbed s st.before st.act) :
    ∀ st ∈ tr, ∀ r ∈ st.before.db.runs, ∀ j ∈ r.jobs, j.status ≠ .running →
      st.after.logs r.id j.name = st.before.logs r.id j.name := by
  intro st hst r hr j hj hended
  have hlive := (h.guarded World.Live (Undisturbed s) (by simp [World.Live])
    (fun _ _ _ hlive hguard hstep => step_live hlive hguard hstep) hguard).2 st hst
  obtain ⟨_, -, hstep⟩ := h.step_of_mem hst
  exact step_logs hlive.1 hstep hr hj hended

namespace Sample

/-- A job is leased, and an append passes its check. -/
def leasedAndChecked : List LogAction :=
  requests.map .serve ++ [.check owner [⟨1, .stdout, [97]⟩] 3]

/-- The append comes before the completion. -/
def appendedInTime : List LogAction :=
  leasedAndChecked ++ [.append 0, .serve ⟨4, .completeJob owner .passed none⟩]

/-- The completion comes first. -/
def completedFirst : List LogAction :=
  leasedAndChecked ++ [.serve ⟨4, .completeJob owner .passed none⟩]

end Sample

/-- The append is made before the job is completed. -/
theorem log_appends_fenced_in_time :
    ∃ tr w, LogRun Sample.settings tr w ∧ w.logs 1 "build" = [⟨1, .stdout, [97]⟩] ∧
      ∀ st ∈ tr, ∀ r ∈ st.before.db.runs, ∀ j ∈ r.jobs, j.status ≠ .running →
        st.after.logs r.id j.name = st.before.logs r.id j.name := by
  have hrun : (Sample.appendedInTime.foldlM
      (fun (w : World) a =>
        if decide (Undisturbed Sample.settings w a) then w.step Sample.settings a else none)
      {}).map (fun w => w.logs 1 "build") = some [⟨1, .stdout, [97]⟩] := by
    decide +kernel
  obtain ⟨w, hw, hlog⟩ := Option.map_eq_some_iff.1 hrun
  obtain ⟨tr, htr, hguard⟩ := Trace.of_guarded_foldlM hw
  exact ⟨tr, w, htr, hlog,
    log_appends_fenced htr fun st hst => of_decide_eq_true (hguard st hst)⟩

/-- **The log of a terminal job grows**: the job is completed between the check and the append. -/
theorem terminal_log_grows :
    ¬ ∀ (s : Settings) (tr : List (Step World LogAction)) (w : World), LogRun s tr w →
      ∀ st ∈ tr, ∀ r ∈ st.before.db.runs, ∀ j ∈ r.jobs, j.status.unfinished = false →
        st.after.logs r.id j.name = st.before.logs r.id j.name := by
  intro h
  have hrun : (Sample.completedFirst.foldlM (World.step Sample.settings) {}).map
      (fun w => (w.db.runs.any fun r => r.id = 1 && r.jobs.any fun j =>
        j.name = "build" && !j.status.unfinished, w.logs 1 "build",
        (w.step Sample.settings (.append 0)).map fun w' => w'.logs 1 "build")) =
      some (true, [], some [⟨1, .stdout, [97]⟩]) := by
    decide +kernel
  obtain ⟨w, hw, hfacts⟩ := Option.map_eq_some_iff.1 hrun
  obtain ⟨hended, hlogs⟩ := Prod.mk.inj hfacts
  obtain ⟨hbefore, hafter⟩ := Prod.mk.inj hlogs
  obtain ⟨w', hstep, hgrown⟩ := Option.map_eq_some_iff.1 hafter
  obtain ⟨tr, htr, -⟩ := Trace.of_foldlM hw
  simp only [List.any_eq_true, Bool.and_eq_true, decide_eq_true_eq, Bool.not_eq_true'] at hended
  obtain ⟨r, hr, hid, j, hj, hname, hstatus⟩ := hended
  have hsame := h Sample.settings _ w' (.snoc htr hstep) ⟨w, .append 0, w'⟩
    (List.mem_append_right _ List.mem_cons_self) r hr j hj hstatus
  rw [hid, hname, hbefore, hgrown] at hsame
  cases hsame

end Postgres
