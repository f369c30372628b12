import ForgeCI.RemoteOutcomes

/-!
# The two schedulers agree

The in-process scheduler of package `runner` and the transactions of the store
execute the same pipelines.  Given what each job does when it is executed, the
result of a run does not depend on which of them executes it, on the order in
which jobs complete or on the parallelism limit: `verdict` says for each job and
`runVerdict` for the run what it is.
-/

namespace Manager

/-- The status and message with which `Manager.execute` finishes a run; the
observer fails when it cannot store the state of a job. -/
def executeStatus (observerError : Option String) (result : Runner.Result) :
    Postgres.RunStatus × Option String :=
  match observerError with
  | some text => (.error, some text)
  | none =>
      if result.internalError then (.error, some "job infrastructure failure")
      else if result.interrupted then (.canceled, none)
      else if result.succeeded then (.passed, none)
      else (.failed, none)

end Manager

namespace Agreement

open Traces Pipeline Propagation
open Runner (Outcome Execution)

/-- What becomes of a job. -/
inductive Verdict
  | blocked
  | ran (outcome : Outcome)

/-- The final state of the job in the in-process scheduler. -/
def Verdict.state : Verdict → Runner.State
  | .blocked => .blocked
  | .ran outcome => outcome.state

/-- The final status of the job in the store. -/
def Verdict.status : Verdict → Postgres.JobStatus
  | .blocked => .blocked
  | .ran outcome => outcome.status

open Classical in
/-- A job is blocked when it depends, directly or through others, on a job that
does not pass; otherwise it is executed. -/
noncomputable def verdict (cfg : Config.Pipeline) (outcome : String → Outcome) (n : String) :
    Verdict :=
  if ∃ d, DependsOn (needsOf cfg) n d ∧ outcome d ≠ .pass then .blocked else .ran (outcome n)

open Classical in
/-- The status of the whole run. -/
noncomputable def runVerdict (cfg : Config.Pipeline) (outcome : String → Outcome) :
    Postgres.RunStatus :=
  if ∃ n ∈ cfg.names, verdict cfg outcome n = .ran .infrastructure then .error
  else if ∀ n ∈ cfg.names, verdict cfg outcome n = .ran .pass then .passed
  else .failed

variable {cfg : Config.Pipeline} {g : Graph} {outcome : String → Outcome} {n : String}
  {v : Verdict} {e : Execution} {r : Run}

theorem verdict_cases (cfg : Config.Pipeline) (outcome : String → Outcome) (n : String) :
    verdict cfg outcome n = .blocked ∨ verdict cfg outcome n = .ran (outcome n) := by
  unfold verdict
  split_ifs
  · exact .inl rfl
  · exact .inr rfl

theorem verdict_eq_blocked_iff : verdict cfg outcome n = .blocked ↔
    ∃ d, DependsOn (needsOf cfg) n d ∧ outcome d ≠ .pass := by
  unfold verdict
  split_ifs with h
  · exact iff_of_true rfl h
  · exact iff_of_false (by simp) h

/-- Jobs that are blocked exactly when a need failed or is blocked are those the
verdict names. -/
theorem verdict_of_closed {order : List String} (htop : Kahn.Topological (needsOf cfg) order)
    {held : String → Prop} (hc : Closed (needsOf cfg) order (outcome · ≠ .pass) held)
    (hn : n ∈ order) : verdict cfg outcome n = .blocked ↔ held n :=
  verdict_eq_blocked_iff.trans (hc.held_iff htop hn).symm

@[simp] theorem Verdict.state_eq_failed_iff : v.state = .failed ↔ ∃ o, v = .ran o ∧ o ≠ .pass := by
  cases v with
  | blocked => simp [state]
  | ran o => cases o <;> simp [state, Outcome.state]

theorem Verdict.state_eq_passed_iff : v.state = .passed ↔ v = .ran .pass := by
  cases v with
  | blocked => simp [state]
  | ran o => cases o <;> simp [state, Outcome.state]

theorem Verdict.status_eq_error_iff : v.status = .error ↔ v = .ran .infrastructure := by
  cases v with
  | blocked => simp [status]
  | ran o => cases o <;> simp [status, Outcome.status]

/-- **The final states of the in-process scheduler.** -/
theorem local_state (hvalid : Config.validate cfg = .ok ()) (hg : compile cfg = .ok g)
    (h : e.Follows g outcome) (hphase : e.phase = .returned) :
    ∀ n ∈ cfg.names, e.loop.state? n = some (verdict cfg outcome n).state := by
  obtain ⟨hperm, htop⟩ := compile_spec (Config.accepted_of_validate hvalid) hg
  obtain ⟨hclosed, hrest⟩ := h.ends hphase
  rw [show g.needs = needsOf cfg from funext (compile_needs hg)] at hclosed
  intro n hn
  have hn' := hperm.mem_iff.2 hn
  have hblocked := verdict_of_closed htop hclosed hn'
  rcases verdict_cases cfg outcome n with hv | hv
  · rw [hv]
    exact hblocked.1 hv
  · rw [hv]
    exact hrest n hn' fun hb => by simp [hblocked.2 hb] at hv

/-- The names in the state map are the jobs. -/
theorem state?_mem_names (hvalid : Config.validate cfg = .ok ()) (hg : compile cfg = .ok g)
    (h : e.Follows g outcome) {st : Runner.State}
    (hn : e.loop.state? n = some st) : n ∈ cfg.names :=
  (compile_spec (Config.accepted_of_validate hvalid) hg).1.mem_iff.1 (h.loop.mem hn)

/-- **The status `Manager.execute` gives the run.** -/
theorem local_status (hvalid : Config.validate cfg = .ok ()) (hg : compile cfg = .ok g)
    (h : e.Follows g outcome) (hphase : e.phase = .returned) :
    (Manager.executeStatus none e.loop.result).1 = runVerdict cfg outcome := by
  have hstate := local_state hvalid hg h hphase
  have herror : e.loop.result.internalError = true ↔
      ∃ n ∈ cfg.names, verdict cfg outcome n = .ran .infrastructure := by
    rw [h.loop.internalError]
    constructor
    · rintro ⟨n, hn, ho⟩
      have hmem := state?_mem_names hvalid hg h hn
      refine ⟨n, hmem, ?_⟩
      rw [hstate n hmem, Option.some.injEq, Verdict.state_eq_failed_iff] at hn
      obtain ⟨o, hv, -⟩ := hn
      rcases verdict_cases cfg outcome n with hb | hr
      · rw [hb] at hv
        cases hv
      · rw [hr, ho]
    · rintro ⟨n, hn, hv⟩
      refine ⟨n, by rw [hstate n hn, hv]; rfl, ?_⟩
      rcases verdict_cases cfg outcome n with hb | hr
      · rw [hb] at hv
        cases hv
      · rw [hr] at hv
        exact Verdict.ran.inj hv
  have hpassed : (e.loop.result.states.entries.all fun entry => entry.2 = .passed) = true ↔
      ∀ n ∈ cfg.names, verdict cfg outcome n = .ran .pass := by
    simp only [List.all_eq_true, decide_eq_true_eq]
    constructor
    · intro hall n hn
      have hentry := AList.mem_lookup_iff.1 (Option.mem_def.2 (hstate n hn))
      exact Verdict.state_eq_passed_iff.1 (hall _ hentry)
    · rintro hall ⟨n, st⟩ hentry
      have hlookup : e.loop.state? n = some st := Option.mem_def.1 (AList.mem_lookup_iff.2 hentry)
      have hmem := state?_mem_names hvalid hg h hlookup
      rw [hstate n hmem, hall n hmem] at hlookup
      exact (Option.some.inj hlookup).symm
  unfold runVerdict Manager.executeStatus
  by_cases hinternal : e.loop.result.internalError = true
  · simp [hinternal, herror.1 hinternal]
  · rw [if_neg (fun hv => hinternal (herror.2 hv))]
    by_cases hall : ∀ n ∈ cfg.names, verdict cfg outcome n = .ran .pass
    · rw [if_pos hall]
      simp [hinternal, h.loop.uninterrupted, Runner.Result.succeeded, hpassed.2 hall]
    · rw [if_neg hall]
      have hnot : (e.loop.result.states.entries.all fun entry => entry.2 = .passed) = false :=
        Bool.eq_false_iff.2 (mt hpassed.1 hall)
      simp [hinternal, h.loop.uninterrupted, Runner.Result.succeeded, hnot]

open Postgres in
/-- **The final statuses in the store.** -/
theorem remote_status (hvalid : Config.validate cfg = .ok ()) (hg : compile cfg = .ok g)
    (h : r.Follows cfg outcome) (hended : r.status.terminal = true) :
    ∀ n ∈ cfg.names, r.status? n = some (verdict cfg outcome n).status := by
  obtain ⟨hperm, htop⟩ := compile_spec (Config.accepted_of_validate hvalid) hg
  obtain ⟨hclosed, hrest⟩ := h.ends hended
  have hclosed' : Closed (needsOf cfg) g.order (outcome · ≠ .pass)
      (r.status? · = some .blocked) := fun n hn => hclosed n (hperm.mem_iff.1 hn)
  intro n hn
  have hblocked := verdict_of_closed htop hclosed' (hperm.mem_iff.2 hn)
  rcases verdict_cases cfg outcome n with hv | hv
  · rw [hv]
    exact hblocked.1 hv
  · rw [hv]
    exact hrest n hn fun hb => by simp [hblocked.2 hb] at hv

open Postgres in
/-- **The status `finalizeRun` gives the run.** -/
theorem remote_runStatus (hvalid : Config.validate cfg = .ok ()) (hg : compile cfg = .ok g)
    (h : r.Follows cfg outcome) (hended : r.status.terminal = true) :
    r.status = runVerdict cfg outcome := by
  have hstatus := remote_status hvalid hg h hended
  have hany : ∀ p : JobStatus → Bool, r.jobs.any (fun j => p j.status) = true ↔
      ∃ n ∈ cfg.names, p (verdict cfg outcome n).status = true := by
    intro p
    simp only [List.any_eq_true]
    constructor
    · rintro ⟨j, hj, hp⟩
      have hn : j.name ∈ cfg.names := h.built.names.mem_iff.1 (List.mem_map.2 ⟨j, hj, rfl⟩)
      have heq := (h.built.status?_eq_some_iff.2 ⟨j, hj, rfl, rfl⟩).symm.trans (hstatus _ hn)
      exact ⟨j.name, hn, by rw [← Option.some.inj heq]; exact hp⟩
    · rintro ⟨n, hn, hp⟩
      obtain ⟨j, hj, -, hjs⟩ := h.built.status?_eq_some_iff.1 (hstatus n hn)
      exact ⟨j, hj, by rw [hjs]; exact hp⟩
  rw [h.verdict hended]
  unfold Run.finalStatus runVerdict
  by_cases herror : ∃ n ∈ cfg.names, verdict cfg outcome n = .ran .infrastructure
  · have : r.jobs.any (fun j => j.status = .error) = true := by
      obtain ⟨n, hn, hv⟩ := herror
      exact (hany fun st => st = .error).2 ⟨n, hn, by rw [hv]; rfl⟩
    rw [if_pos this, if_pos herror]
  · rw [if_neg herror, if_neg, if_neg, if_neg]
    · by_cases hall : ∀ n ∈ cfg.names, verdict cfg outcome n = .ran .pass
      · rw [if_pos hall, if_neg]
        rw [hany fun st => st = .failed || st = .blocked]
        rintro ⟨n, hn, hbad⟩
        rw [hall n hn] at hbad
        cases hbad
      · rw [if_neg hall, if_pos]
        push Not at hall
        obtain ⟨n, hn, hv⟩ := hall
        refine (hany fun st => st = .failed || st = .blocked).2 ⟨n, hn, ?_⟩
        cases hverdict : verdict cfg outcome n with
        | blocked => rfl
        | ran o =>
          cases o with
          | pass => exact absurd hverdict hv
          | failure => rfl
          | infrastructure => exact absurd ⟨n, hn, hverdict⟩ herror
    · simp [h.uncanceled]
    · rw [hany fun st => st = .aborted]
      rintro ⟨n, hn, hbad⟩
      cases hverdict : verdict cfg outcome n with
      | blocked => simp [hverdict, Verdict.status] at hbad
      | ran o => cases o <;> simp [hverdict, Verdict.status, Outcome.status] at hbad
    · rw [hany fun st => st = .error]
      grind [Verdict.status_eq_error_iff]

open Postgres in
/-- A submission that succeeds leaves a run that has done nothing yet. -/
theorem follows_submission {s : Settings} {now : Time} {db : Database} {input : CreateRun}
    (hinput : input.Compiled cfg) (hok : (db.serve s ⟨now, .createRun input⟩).2 = .ok .done) :
    ∃ r ∈ (db.serve s ⟨now, .createRun input⟩).1.runs, r.id = input.id ∧
      r.Follows cfg outcome := by
  obtain ⟨hcreate, -⟩ := map_done (Database.serve_ok hok)
  obtain ⟨snapshot, snapshots, -, hrows⟩ := createRun_ok hcreate
  refine ⟨input.row now snapshot, ?_, rfl, hinput.follows now snapshot⟩
  rw [hrows]
  exact List.mem_append_right _ (List.mem_singleton_self _)

open Postgres in
/-- **The two schedulers agree.**  Take a pipeline that `Validate` and `Compile`
accept and an outcome for every job.  An execution of `Runner.Run` that cannot go
on has returned, after a bounded number of actions; a run of the store submitted
from the same graph and left undisturbed, with no job running and none to claim,
has ended.  Whatever the order of completions, grants and other requests was,
each job has its verdict in both, the blocked jobs are those that depend on a job
that ended `Failed`, and `Manager.execute` and `finalizeRun` give the run the same
status. -/
theorem schedulers_agree (hvalid : Config.validate cfg = .ok ()) (hg : compile cfg = .ok g)
    (maxParallel : Nat) (outcome : String → Outcome)
    {actions : List (Step Execution Runner.Action)}
    (hlocal : Runner.Runs g maxParallel actions e)
    (hreports : ∀ st ∈ actions, st.act.Reports outcome)
    (hlocalDone : ∀ a : Runner.Action, a.Reports outcome → e.step g maxParallel a = none)
    {s : Settings} {now : Time} {id : Uuid} {snapshot : SourceSnapshot} {db₀ db : Database}
    (hsubmit : (db₀.serve s
      ⟨now, .createRun (submission id cfg g maxParallel (some snapshot))⟩).2 = .ok .done)
    {requests : List (Step Database Request)} (hremote : Trace (Served s) (db₀.serve s
      ⟨now, .createRun (submission id cfg g maxParallel (some snapshot))⟩).1 requests db)
    (horderly : ∀ st ∈ requests, st.act.Orderly outcome id st.before)
    (hr : r ∈ db.runs) (hid : r.id = id)
    (hremoteDone : ∀ j ∈ r.jobs, j.status ≠ .running ∧ r.claimable true j = false) :
    (e.phase = .returned ∧ actions.length ≤ 2 * cfg.names.length + 2) ∧
      r.status.terminal = true ∧
      (∀ n ∈ cfg.names, e.loop.state? n = some (verdict cfg outcome n).state ∧
        r.status? n = some (verdict cfg outcome n).status) ∧
      (∀ n ∈ cfg.names, verdict cfg outcome n = .blocked ↔
        ∃ d, DependsOn (needsOf cfg) n d ∧ e.loop.state? d = some .failed) ∧
      (Manager.executeStatus none e.loop.result).1 = runVerdict cfg outcome ∧
      r.status = runVerdict cfg outcome := by
  have hsound := Runner.compile_sound hvalid hg
  obtain ⟨hperm, htop⟩ := compile_spec (Config.accepted_of_validate hvalid) hg
  obtain ⟨hfollows, -⟩ := hlocal.follows hsound hreports
  have hphase : e.phase = .returned := by
    by_contra hopen
    obtain ⟨a, e', ha, hstep⟩ := hfollows.can_step (g := g) hopen
    rw [hlocalDone a ha] at hstep
    cases hstep
  have hbound := hlocal.bounded hsound hreports
  rw [hperm.length_eq] at hbound
  have hinput : (submission id cfg g maxParallel (some snapshot)).Compiled cfg :=
    ⟨hvalid, g, hg, rfl⟩
  obtain ⟨r', hr', hid', hrfollows⟩ :=
    follows_of_orderly hremote horderly (follows_submission hinput hsubmit)
  obtain rfl : r' = r :=
    List.inj_on_of_nodup_map db.valid.runs_key hr' hr (hid'.trans hid.symm)
  have hterminal := hrfollows.terminal (db.valid.runs r' hr') hremoteDone
  have hstate := local_state hvalid hg hfollows hphase
  refine ⟨⟨hphase, hbound⟩, hterminal,
    fun n hn => ⟨hstate n hn, remote_status hvalid hg hrfollows hterminal n hn⟩, ?_,
    local_status hvalid hg hfollows hphase, remote_runStatus hvalid hg hrfollows hterminal⟩
  intro n hn
  obtain ⟨hclosed, hrest⟩ := hfollows.ends hphase
  rw [show g.needs = needsOf cfg from funext (compile_needs hg)] at hclosed
  constructor
  · intro hv
    have hblocked := (verdict_of_closed htop hclosed (hperm.mem_iff.2 hn)).1 hv
    obtain ⟨d, hdep, hfails, hfree⟩ := hclosed.exists_ran htop n (hperm.mem_iff.2 hn) hblocked
    refine ⟨d, hdep, ?_⟩
    rw [hrest d (mem_of_dependsOn htop hdep (hperm.mem_iff.2 hn)) hfree]
    cases ho : outcome d with
    | pass => exact absurd ho hfails
    | _ => rfl
  · rintro ⟨d, hdep, hfailed⟩
    refine verdict_eq_blocked_iff.2 ⟨d, hdep, ?_⟩
    have hfits := hfollows.loop.fits d
    rw [Runner.Fits, hfailed] at hfits
    exact hfits.2.1

/-! ## An instance

Of two jobs in a row the first fails. -/

namespace Sample

open Postgres.Sample

def failing (name : String) : Outcome := if name = "build" then .failure else .pass

/-- The in-process execution. -/
def actions : List Runner.Action := [.turn, .receive ⟨"build", .failed, false⟩, .turn]

def execution : Option Execution :=
  actions.foldlM (Execution.step chainGraph 1) (Execution.start chainGraph)

/-- The submission to the store. -/
def submit : Postgres.Request :=
  ⟨0, .createRun (Postgres.submission 1 chain chainGraph 1 (some snapshot))⟩

/-- What a runner does about it. -/
def requests : List Postgres.Request :=
  [⟨1, .registerRunner runner⟩, ⟨2, .leaseJob 7 100⟩, ⟨3, .completeJob owner .failed none⟩]

def database : Postgres.Database :=
  (Postgres.Database.empty.serve settings submit).1

theorem actions_report : ∀ a ∈ actions, a.Reports failing := by
  simp [actions, Runner.Action.Reports, failing, Outcome.completion, Outcome.state]

theorem requests_orderly (db : Postgres.Database) : ∀ q ∈ requests, q.Orderly failing 1 db := by
  simp [requests, Postgres.Request.Orderly, failing, Outcome.status, owner]

end Sample

open Postgres in
/-- The second job is blocked and the run ends `FAILED`, in process and in the
store. -/
theorem chain_schedulers_agree : ∃ (e : Execution) (r : Run), Sample.execution = some e ∧
    r ∈ (Sample.database.after Sample.settings Sample.requests).runs ∧
      e.loop.state? "test" = some .blocked ∧
      (Manager.executeStatus none e.loop.result).1 = r.status ∧ r.status = .failed := by
  have hfinal : Sample.execution.map (fun e => (e.phase, e.loop.state? "test")) =
      some (.returned, some .blocked) := by decide
  obtain ⟨e, he, hpair⟩ := Option.map_eq_some_iff.1 hfinal
  obtain ⟨hphase, hblocked⟩ := Prod.mk.inj hpair
  obtain ⟨tr, htr, hacts⟩ := Trace.of_foldlM he
  obtain ⟨r, hr, hid, hstatus, hdone⟩ :
      ∃ r ∈ (Sample.database.after Sample.settings Sample.requests).runs,
        r.id = 1 ∧ r.status = .failed ∧
          ∀ j ∈ r.jobs, j.status ≠ .running ∧ r.claimable true j = false := by decide
  obtain ⟨-, -, -, -, hlocal, hremote⟩ := schedulers_agree Sample.chain_accepted.1
    Sample.chain_accepted.2 1 Sample.failing htr
    (fun st hst => Sample.actions_report _ (hacts ▸ List.mem_map_of_mem hst))
    (fun a ha => Execution.step_returned hphase ha) (s := Sample.settings) (by decide)
    (Database.record_trace Sample.settings Sample.database Sample.requests)
    (fun st hst => Sample.requests_orderly _ _ (Database.act_mem_of_record hst)) hr hid hdone
  exact ⟨e, r, he, hr, hblocked, hlocal.trans hremote.symm, hstatus⟩

end Agreement
