import Mathlib.Algebra.Order.BigOperators.Group.List
import ForgeCI.Fencing
import ForgeCI.PassedRuns
import ForgeCI.Progress
import ForgeCI.Registration

/-!
# Which job a runner is granted

`LeaseJob` looks at the runner row, at the number of jobs the runner holds and at
the candidates of the claim query.  This module says what that comes to along a run
of the system.
-/

namespace Postgres

open Traces

variable {s : Settings} {now : Time} {t t' : Rows} {call : Call} {r r' : Run} {j j' : Job}
variable {w : Runner} {db : Database} {o : Ownership}
variable {tr : List (Step Database Request)} {st : Step Database Request}

variable {runner lease : Uuid}

/-- What `LeaseJob` found when it granted a lease, and what it wrote. -/
theorem leaseJob_granted {l : JobLease} (h : leaseJob s now runner lease t = .ok (t', some l)) :
    ∃ w c cfg job, Table.row? Runner.id runner t.runners = some w ∧
      w.protocolVersion = 2 ∧ w.status = .online ∧ t.activeJobs runner < w.maxParallel ∧
      ((t.candidates w.dockerAvailable).insertionSort
        fun a b => a.precedes s b = true).head? = some c ∧
      parseBytes c.run.pipelineYAML = .ok cfg ∧ cfg.job? c.job.name = some job ∧
      t' = t.putRun (c.run.grant now runner lease c.job.name) ∧
      l = c.lease now runner lease job := by
  unfold leaseJob at h
  split at h
  · cases h
  rename_i w hw
  split_ifs at h with hconflict hfull
  · cases h
  push Not at hconflict
  grind

/-- The rows behind a grant: the runner `w` may lease the job `j` of the run `r`. -/
structure Granted (s : Settings) (st : Step Database Request) (l : JobLease) (w : Runner)
    (r : Run) (j : Job) : Prop where
  asked : ∃ lease, st.act.call = .leaseJob w.id lease
  runner : w ∈ st.before.runners
  run : r ∈ st.before.runs
  job : j ∈ r.jobs
  lease : l.ownership = ⟨r.id, some w.id, some l.leaseID, j.name, j.leaseGeneration + 1⟩
  defined : ∃ cfg job, parseBytes r.pipelineYAML = .ok cfg ∧ cfg.job? j.name = some job ∧
    l.job = .ofJob job
  protocol : w.protocolVersion = 2
  online : w.status = .online
  below : st.before.activeJobs w.id < w.maxParallel
  claimable : r.claimable w.dockerAvailable j = true
  written : st.after.toRows =
    st.before.putRun (r.grant st.act.now w.id l.leaseID j.name)

theorem Granted.of_reply {l : JobLease} (hserved : Served s st.before st.act st.after)
    (hcall : st.act.call = .leaseJob runner lease) (hreply : reply s st = .ok (.lease (some l))) :
    ∃ w r j, Granted s st l w r j := by
  have hexec := Database.serve_ok hreply
  rw [hcall] at hexec
  obtain ⟨⟨t₁, granted⟩, hok, heq⟩ := map_ok hexec
  obtain ⟨rfl, hlease⟩ := Prod.mk.inj heq
  obtain rfl : granted = some l := by simpa using hlease
  obtain ⟨w, c, cfg, job, hw, hprotocol, honline, hbelow, hc, hcfg, hjob, hrows, rfl⟩ :=
    leaseJob_granted hok
  obtain ⟨hwmem, rfl⟩ := Table.row?_some hw
  have hcmem : c ∈ st.before.candidates w.dockerAvailable :=
    (List.perm_insertionSort _ _).mem_iff.1 (List.mem_of_mem_head? hc)
  obtain ⟨hrun, hmem, hclaim⟩ := Rows.mem_candidates hcmem
  refine ⟨w, c.run, c.job, ⟨lease, hcall⟩, hwmem, hrun, hmem, rfl, ⟨cfg, job, hcfg, hjob, rfl⟩,
    hprotocol, honline, hbelow, hclaim, ?_⟩
  rw [← hserved]
  exact hrows

theorem Grants.granted (h : Grants s st o) (hserved : Served s st.before st.act st.after) :
    ∃ l w r j, Granted s st l w r j ∧ l.ownership = o := by
  obtain ⟨runner, lease, l, hcall, hreply, howner⟩ := h
  grind [Granted.of_reply]

/-- The jobs of a run that a runner holds. -/
def Run.holding (runner : Uuid) (r : Run) : Nat :=
  r.jobs.countP fun j => j.runnerID = some runner && j.status = .running

theorem Rows.activeJobs_eq_sum (runner : Uuid) (t : Rows) :
    t.activeJobs runner = (t.runs.map (Run.holding runner)).sum := by
  rw [activeJobs, List.countP_flatMap]
  rfl

theorem Rows.activeJobs_le {R : Run → Run → Prop} {runner : Uuid}
    (h : List.Forall₂ R t.runs t'.runs)
    (hR : ∀ r r', R r r' → r'.holding runner ≤ r.holding runner) :
    t'.activeJobs runner ≤ t.activeJobs runner := by
  rw [activeJobs_eq_sum, activeJobs_eq_sum]
  apply List.Forall₂.sum_le_sum
  rw [List.forall₂_map_left_iff, List.forall₂_map_right_iff]
  exact h.flip.imp fun r' r hr => hR r r' hr

/-- Only a grant gives a runner a job. -/
theorem RunStep.holding {runner : Uuid} (h : RunStep s now t call r r')
    (hcall : ∀ i lease, call ≠ .leaseJob i lease) : r'.holding runner ≤ r.holding runner := by
  have hends : List.Forall₂ Ends r.jobs r'.jobs → r'.holding runner ≤ r.holding runner := by
    intro hjobs
    apply Table.countP_le_of_forall₂ hjobs
    intro j j' hj hheld
    rcases hj with rfl | hended
    · exact hheld
    · have hrunning : j'.status = .running := by grind
      rw [hrunning] at hended
      cases hended
  rcases h with rfl | hchange | ⟨-, -, -, rfl⟩
  · exact le_rfl
  · rcases hchange.ends with ⟨i, lease, rfl⟩ | ⟨i, leases, rfl⟩ | hjobs
    · exact absurd rfl (hcall i lease)
    · cases hchange with
      | @renew _ _ _ part target =>
        obtain ⟨jobs, heq, hjobs⟩ := r.renewAll_spec i now part
        rw [heq]
        apply Table.countP_le_of_forall₂ hjobs
        intro j j' hj hheld
        rcases hj with rfl | ⟨-, -, -, -, rfl⟩ <;> exact hheld
    · exact hends hjobs
  · exact le_rfl

theorem Run.grant_jobs_replace (hkey : (r.jobs.map Job.name).Nodup)
    (hj : j ∈ r.jobs) (hpending : j.status = .pending) : (r.grant now runner lease j.name).jobs =
      Table.replace Job.name (j.grant now runner lease) r.jobs := by
  rw [Run.grant_jobs]
  apply List.map_congr_left
  intro k hk
  by_cases hname : k.name = j.name
  · obtain rfl := List.inj_on_of_nodup_map hkey hk hj hname
    simp [hpending, Job.grant]
  · simp [hname, Job.grant]

/-- A grant adds one job to its runner and none to another. -/
theorem Run.grant_holding {runner lease i : Uuid} (hkey : (r.jobs.map Job.name).Nodup)
    (hj : j ∈ r.jobs) (hpending : j.status = .pending) :
    (r.grant now runner lease j.name).holding i =
      r.holding i + if runner = i then 1 else 0 := by
  obtain ⟨pre, post, hold, hnew⟩ :=
    Table.replace_split (b := j.grant now runner lease) hkey hj rfl
  rw [holding, holding, Run.grant_jobs_replace hkey hj hpending, hnew, hold]
  by_cases hi : runner = i
  · simp [List.countP_append, hpending, hi, Job.grant]
    omega
  · simp [List.countP_append, hpending, hi, Job.grant]

theorem Granted.activeJobs {l : JobLease} {i : Uuid} (h : Granted s st l w r j) :
    st.after.activeJobs i = st.before.activeJobs i + if w.id = i then 1 else 0 := by
  have hcon := st.before.valid.runs r h.run
  obtain ⟨-, -, hpending, -⟩ := Run.claimable_iff.1 h.claimable
  have hheld : (r.grant st.act.now w.id l.leaseID j.name).holding i =
      r.holding i + if w.id = i then 1 else 0 :=
    Run.grant_holding hcon.jobs_key h.job hpending
  obtain ⟨pre, post, hold, hnew⟩ := Table.replace_split st.before.valid.runs_key h.run
    (Run.grant_id st.act.now w.id l.leaseID j.name r)
  grind [h.written, Rows.activeJobs_eq_sum, Rows.putRun]

/-- `LeaseJob` changes nothing or grants a lease. -/
theorem Served.leaseJob_cases (h : Served s st.before st.act st.after)
    (hcall : st.act.call = .leaseJob runner lease) :
    st.after = st.before ∨ ∃ l w r j, Granted s st l w r j := by
  cases hreply : reply s st with
  | error e => exact .inl (h.of_error hreply)
  | ok x =>
    have hexec := Database.serve_ok hreply
    rw [hcall] at hexec
    obtain ⟨⟨t₁, granted⟩, hok, ⟨⟩⟩ := map_ok hexec
    cases granted with
    | some l => grind [Granted.of_reply]
    | none =>
      rcases leaseJob_ok hok with ⟨hsame, -⟩ | ⟨_, _, _, _, _, _, _, _, _, hnone⟩
      · apply Or.inl
        apply Database.eq_of_rows
        rw [← h]
        exact hsame
      · cases hnone

/-- **A runner never holds more jobs than it once registered for.** -/
theorem Reaches.capacity (h : Reaches s tr db) (runner : Uuid) :
    db.activeJobs runner = 0 ∨ ∃ st ∈ tr, ∃ w, Registers s st w ∧ w.id = runner ∧
      db.activeJobs runner ≤ w.maxParallel := by
  induction h with
  | nil => exact .inl rfl
  | @snoc tr db db' q run step ih =>
    -- Every step but a grant to this runner leaves it with no more jobs than before.
    have hless : db'.activeJobs runner ≤ db.activeJobs runner →
        db'.activeJobs runner = 0 ∨ ∃ st ∈ tr ++ [⟨db, q, db'⟩], ∃ w, Registers s st w ∧
          w.id = runner ∧ db'.activeJobs runner ≤ w.maxParallel := by grind
    by_cases hlease : ∃ i lease, q.call = .leaseJob i lease
    · obtain ⟨i, lease, hcall⟩ := hlease
      have hcases : db' = db ∨ ∃ l w r j, Granted s ⟨db, q, db'⟩ l w r j :=
        @Served.leaseJob_cases s ⟨db, q, db'⟩ i lease step hcall
      rcases hcases with rfl | hgranted
      · exact hless le_rfl
      · obtain ⟨l, w, r, j, hgranted⟩ := hgranted
        have hactive : db'.activeJobs runner = db.activeJobs runner + _ :=
          hgranted.activeJobs (i := runner)
        by_cases hid : w.id = runner
        · rw [if_pos hid] at hactive
          obtain ⟨w₀, ⟨pre, st, post, hsplit, hreg, -⟩, hsame⟩ :=
            Reaches.registered run w hgranted.runner
          have hbelow : db.activeJobs w.id < w.maxParallel := hgranted.below
          refine .inr ⟨st, ?_, w₀, hreg, hsame.1.symm.trans hid, ?_⟩
          · rw [hsplit]
            simp
          · rw [← hsame.2.2.2, hactive]
            rw [hid] at hbelow
            omega
        · grind
    · push Not at hlease
      rcases step.runs with ⟨input, snapshot, -, -, hruns⟩ | hruns
      · apply hless
        rw [Rows.activeJobs_eq_sum, Rows.activeJobs_eq_sum, hruns, List.map_append,
          List.sum_append]
        have hnew : (input.row q.now snapshot).holding runner = 0 := by
          apply List.countP_eq_zero.2
          intro j hj
          simp [(CreateRun.row_pending hj).1]
        simp [hnew]
      · exact hless (Rows.activeJobs_le hruns fun r r' hr => hr.holding hlease)

theorem JobStep.leaseGeneration_ne_zero (h : JobStep now r j j') (hj : j.leaseGeneration ≠ 0) :
    j'.leaseGeneration ≠ 0 := by
  cases h with
  | grant => exact Nat.succ_ne_zero _
  | keep => exact hj
  | renew => exact hj
  | finish => exact hj
  | drop => exact hj
  | abandon => exact hj

theorem Granted.leased {l : JobLease} (h : Granted s st l w r j) :
    ∃ r' ∈ st.after.runs, r'.id = r.id ∧
      ∃ j' ∈ r'.jobs, j'.name = j.name ∧ j'.leaseGeneration ≠ 0 := by
  have hkey := (st.before.valid.runs r h.run).jobs_key
  obtain ⟨-, -, hpending, -⟩ := Run.claimable_iff.1 h.claimable
  have hid := Run.grant_id st.act.now w.id l.leaseID j.name r
  refine ⟨_, ?_, hid, j.grant st.act.now w.id l.leaseID, ?_, rfl, Nat.succ_ne_zero _⟩
  · rw [h.written]
    exact Table.mem_updateWhere.2 ⟨r, h.run, if_pos (by simp [hid])⟩
  · grind [h.job, Run.grant_jobs, Table.mem_updateWhere]

/-- **The dependencies of a job that was ever leased have passed.** -/
theorem Reaches.dependencies_passed (h : Reaches s tr db) (hok : ∀ st ∈ tr, st.act.Accepted)
    (hst : st ∈ tr) (hgrant : Grants s st o) (hr : r ∈ db.runs) (hid : r.id = o.runID) :
    ∀ d ∈ r.needs o.jobName, ∃ u ∈ r.jobs, u.name = d ∧ u.status = .passed := by
  obtain ⟨pre, post, rfl⟩ := List.append_of_mem hst
  obtain ⟨-, hserved, hpost⟩ := h.split
  obtain ⟨l, w, r₀, j₀, hgranted, rfl⟩ := hgrant.granted hserved
  rw [hgranted.lease] at hid ⊢
  obtain ⟨r₁, hr₁, hid₁, j₁, hj₁, hname₁, hgen₁⟩ := hgranted.leased
  obtain ⟨r₂, hr₂, hid₂, j₂, hj₂, hname₂, hgen₂⟩ := Served.persists
    (P := fun j => j.leaseGeneration ≠ 0)
    (fun _ _ _ _ hstep hj => hstep.leaseGeneration_ne_zero hj) hpost hr₁ hj₁ hgen₁
  have hruns : r₂.id = r.id := by
    rw [hid₂, hid₁]
    exact hid.symm
  obtain rfl := List.inj_on_of_nodup_map db.valid.runs_key hr₂ hr hruns
  obtain ⟨hsched, -⟩ := h.scheduled hok r₂ hr₂
  obtain ⟨cfg, hcfg⟩ := hsched.built
  have hpassed := hcfg.ready_iff.1 (hsched.leased_ready j₂ hj₂ hgen₂)
  rwa [hname₂, hname₁] at hpassed

/-- A request to cancel the run was accepted. -/
def Cancels (s : Settings) (st : Step Database Request) (id : Uuid) : Prop :=
  (st.act.call = .requestCancel id ∨ st.act.call = .cancelQueued id) ∧ reply s st = .ok .done

/-- An accepted request marks its run. -/
theorem Cancels.marked {id : Uuid} (h : Cancels s st id)
    (hserved : Served s st.before st.act st.after) :
    ∃ r ∈ st.after.runs, r.id = id ∧ r.cancelRequestedAt.isSome = true := by
  obtain ⟨hcall, hreply⟩ := h
  have hexec := Database.serve_ok hreply
  rw [show (st.before.serve s st.act).1 = st.after from hserved] at hexec
  -- Either call writes its run, and marks it.
  have hwritten : ∀ missing f, st.before.onRun id missing f = .ok st.after.toRows →
      (∀ r r', f r = .ok r' → r'.id = r.id ∧ r'.cancelRequestedAt.isSome = true) →
      ∃ r ∈ st.after.runs, r.id = id ∧ r.cancelRequestedAt.isSome = true := by
    intro missing f hrun hf
    obtain ⟨r, r', hr, hok, hrows⟩ := Rows.onRun_ok hrun
    obtain ⟨hmem, rfl⟩ := Table.row?_some hr
    obtain ⟨hid, hmarked⟩ := hf r r' hok
    refine ⟨r', ?_, hid, hmarked⟩
    rw [hrows]
    exact Table.mem_updateWhere.2 ⟨r, hmem, if_pos (by simp [hid])⟩
  rcases hcall with hcall | hcall
  · rw [hcall] at hexec
    apply hwritten _ _ (map_done hexec).1
    intro r r' hok
    have hfin := (Run.requestCancel_ok hok).2
    refine ⟨(Run.finalizeRun_static hfin).id, ?_⟩
    rw [Run.finalizeRun_cancelRequestedAt hfin]
    rfl
  · rw [hcall] at hexec
    apply hwritten _ _ (map_done hexec).1
    intro r r' hok
    obtain ⟨-, rfl⟩ := Run.cancelQueued_ok hok
    exact ⟨rfl, rfl⟩

theorem Reaches.canceled {id : Uuid} (h : Reaches s tr db) (hst : st ∈ tr)
    (hcancel : Cancels s st id) : ∃ r ∈ db.runs, r.id = id ∧ r.cancelRequestedAt.isSome = true := by
  obtain ⟨pre, post, rfl⟩ := List.append_of_mem hst
  obtain ⟨-, hserved, hpost⟩ := h.split
  obtain ⟨r, hr, hid, hmarked⟩ := hcancel.marked hserved
  obtain ⟨r', hr', hid', hmarked'⟩ :=
    Served.run_persists (P := fun r => r.cancelRequestedAt.isSome = true)
      (fun _ _ _ _ _ hstep hmarked => hstep.canceled hmarked) hpost hr hmarked
  exact ⟨r', hr', hid'.trans hid, hmarked'⟩

/-- **No job is granted after a cancel request for its run.** -/
theorem not_granted_after_cancel {pre post : List (Step Database Request)}
    {cancel : Step Database Request} (h : Reaches s (pre ++ st :: post) db)
    (hcancel : cancel ∈ pre) (hcancels : Cancels s cancel o.runID) : ¬ Grants s st o := by
  intro hgrant
  obtain ⟨hpre, hserved, -⟩ := h.split
  obtain ⟨l, w, r, j, hgranted, rfl⟩ := hgrant.granted hserved
  obtain ⟨r', hr', hid, hmarked⟩ := Reaches.canceled hpre hcancel hcancels
  rw [hgranted.lease] at hid
  obtain rfl := List.inj_on_of_nodup_map st.before.valid.runs_key hr' hgranted.run hid
  grind [hgranted.claimable, Run.claimable_iff]

/-- In a run of the scheduler's operations, only accepted requests mark a run. -/
theorem Reaches.cancel_requested (h : Reaches s tr db)
    (hok : ∀ st ∈ tr, st.act.call.ofScheduler = true) :
    ∀ r ∈ db.runs, r.cancelRequestedAt.isSome = true → ∃ st ∈ tr, Cancels s st r.id := by
  induction h with
  | nil =>
    intro r hr
    cases hr
  | @snoc tr db db' q run step ih =>
    intro r' hr' hmarked
    have hscheduler : q.call.ofScheduler = true :=
      hok ⟨db, q, db'⟩ (List.mem_append_right _ (List.mem_singleton_self _))
    have hold : ∀ r ∈ db.runs, r.id = r'.id → r.cancelRequestedAt.isSome = true →
        ∃ st ∈ tr ++ [⟨db, q, db'⟩], Cancels s st r'.id := by grind
    cases hreply : (db.serve s q).2 with
    | error e =>
      obtain rfl := step.of_error hreply
      exact hold r' hr' rfl hmarked
    | ok x =>
      have hexec := Database.serve_ok hreply
      rcases step.run_origin hr' with ⟨input, snapshot, -, -, rfl⟩ | ⟨r, hr, hstep⟩
      · cases hmarked
      rcases hstep with rfl | hchange | ⟨input, hcall, -⟩
      · exact hold _ hr rfl hmarked
      · have hid := hchange.static.id
        rcases hchange.cancelRequestedAt with hsame | ⟨hcall, -⟩
        · exact hold r hr hid.symm (hsame ▸ hmarked)
        · refine ⟨⟨db, q, db'⟩, List.mem_append_right _ (List.mem_singleton_self _), ?_, ?_⟩
          · rw [hid]
            exact hcall
          · show (db.serve s q).2 = _
            rw [hreply]
            rcases hcall with hcall | hcall <;>
            · rw [hcall] at hexec
              rw [(map_done hexec).2]
      · rw [hcall] at hscheduler
        cases hscheduler

/-- The image column of a job is the image of its definition. -/
def Run.Imaged (r : Run) : Prop :=
  ∀ cfg, r.pipelineYAML = some cfg → ∀ j ∈ r.jobs, ∀ job, cfg.job? j.name = some job →
    j.image = job.image

theorem JobStep.image_eq (h : JobStep now r j j') : j'.image = j.image := by
  cases h <;> rfl

theorem CreateRun.Compiled.imaged {input : CreateRun} {cfg : Config.Pipeline}
    (h : input.Compiled cfg) (now : Time) (snapshot : SourceSnapshot) :
    (input.row now snapshot).Imaged := by
  obtain ⟨-, g, hg, hinput⟩ := h
  intro cfg' hcfg' j hj job hjob
  have hyaml : input.pipelineYAML = some cfg' := hcfg'
  rw [hinput] at hyaml
  obtain rfl : cfg = cfg' := Option.some.inj hyaml
  have hjobs : j ∈ input.jobs.map fun x =>
      ({ name := x.1, status := .pending, image := x.2 } : Job) := hj
  rw [hinput] at hjobs
  obtain ⟨x, hx, rfl⟩ := List.mem_map.1 hjobs
  obtain ⟨name, -, rfl⟩ := List.mem_map.1 hx
  grind [Pipeline.compile_node?]

theorem Reaches.imaged (h : Reaches s tr db) (hok : ∀ st ∈ tr, st.act.Accepted) :
    ∀ r ∈ db.runs, r.Imaged := by
  intro r hr
  refine (h.runs Run.Imaged (fun _ => True) ?_ ?_ ?_ hok r hr).1
  · intro q input snapshot hq hcreates _ _
    obtain ⟨cfg, hcfg⟩ := hq input hcreates
    exact ⟨hcfg.imaged q.now snapshot, trivial⟩
  · intro now call r r' hkey himaged hchange
    refine ⟨?_, fun _ => trivial⟩
    intro cfg hcfg j' hj' job hjob
    obtain ⟨j, hj, hstep⟩ := Table.exists_old (hchange.jobs hkey) hj'
    rw [hstep.name_eq] at hjob
    rw [hstep.image_eq]
    exact himaged cfg (hchange.static.pipelineYAML ▸ hcfg) j hj job hjob
  · intro now r himaged _
    exact himaged

/-- The job may be granted to the runner, but for the runner's own capacity. -/
structure Eligible (t : Rows) (w : Runner) (r : Run) (j : Job) : Prop where
  run : r ∈ t.runs
  job : j ∈ r.jobs
  pending : j.status = .pending
  dependencies : ∀ d ∈ r.needs j.name, ∃ u ∈ r.jobs, u.name = d ∧ u.status = .passed
  capable : j.image ≠ none → w.dockerAvailable = true
  uncanceled : r.cancelRequestedAt = none
  parallel : r.jobs.countP (·.status = .running) < r.maxParallel

/-- The order of creation time, run and job name. -/
def Precedes (s : Settings) (r : Run) (j : Job) (r' : Run) (j' : Job) : Prop :=
  r.createdAt < r'.createdAt ∨ (r.createdAt = r'.createdAt ∧
    (r.id < r'.id ∨ (r.id = r'.id ∧ s.collation j.name j'.name = true)))

theorem Candidate.precedes_iff {a b : Candidate} :
    a.precedes s b = true ↔ Precedes s a.run a.job b.run b.job := by
  simp [precedes, Precedes]

/-- A collation is a total order of text. -/
structure Settings.Collates (s : Settings) : Prop where
  total : ∀ a b, s.collation a b = true ∨ s.collation b a = true
  trans : ∀ a b c, s.collation a b = true → s.collation b c = true → s.collation a c = true

theorem Settings.Collates.precedes_total (h : s.Collates) (a b : Candidate) :
    a.precedes s b = true ∨ b.precedes s a = true := by
  grind [h.total, Candidate.precedes_iff, Precedes]

theorem Settings.Collates.precedes_trans (h : s.Collates) {a b c : Candidate}
    (hab : a.precedes s b = true) (hbc : b.precedes s c = true) : a.precedes s c = true := by
  rw [Candidate.precedes_iff, Precedes] at hab hbc ⊢
  have htrans := h.trans a.job.name b.job.name c.job.name
  grind

/-- The first row of the claim query precedes all others. -/
theorem Settings.Collates.head_precedes (h : s.Collates) {l : List Candidate} {c c' : Candidate}
    (hc : (l.insertionSort fun a b => a.precedes s b = true).head? = some c) (hc' : c' ∈ l) :
    c.precedes s c' = true := by
  have : Std.Total fun a b : Candidate => a.precedes s b = true := ⟨h.precedes_total⟩
  have : IsTrans Candidate fun a b => a.precedes s b = true := ⟨fun _ _ _ => h.precedes_trans⟩
  have hsorted := List.pairwise_insertionSort (fun a b : Candidate => a.precedes s b = true) l
  have hmem := (List.mem_insertionSort (fun a b : Candidate => a.precedes s b = true)).2 hc'
  cases hl : l.insertionSort fun a b => a.precedes s b = true with
  | nil =>
    rw [hl] at hc
    cases hc
  | cons a rest =>
    rw [hl] at hc hsorted hmem
    obtain rfl : a = c := by simpa using hc
    rcases List.mem_cons.1 hmem with rfl | hmem
    · rcases h.precedes_total c' c' with hself | hself <;> exact hself
    · exact List.rel_of_pairwise_cons hsorted hmem

/-- For a settled run the claim query asks for eligible jobs. -/
theorem eligible_iff (hr : r ∈ t.runs) (hj : j ∈ r.jobs) (hsched : r.Scheduled)
    (hsettled : r.Settled) : Eligible t w r j ↔ r.claimable w.dockerAvailable j = true := by
  obtain ⟨cfg, hcfg⟩ := hsched.built
  rw [Run.claimable_iff, hcfg.ready_iff]
  constructor
  · intro h
    have hactive : r.status.terminal = false := by
      rw [← Bool.not_eq_true]
      intro hterminal
      have hended := hsettled.ended hterminal j hj
      rw [h.pending] at hended
      cases hended
    grind [h.uncanceled, h.pending, h.dependencies, h.parallel, h.capable]
  · rintro ⟨-, huncanceled, hpending, hcapable, hdependencies, hparallel⟩
    exact ⟨hr, hj, hpending, hdependencies, fun himage => hcapable.resolve_right himage,
      huncanceled, hparallel⟩

/-- The scheduler's operations add no trigger. -/
theorem Reaches.triggers_nil (h : Reaches s tr db)
    (hok : ∀ st ∈ tr, st.act.call.ofScheduler = true) : db.triggers = [] := by
  refine (h.guarded (fun db => db.triggers = []) (fun _ q => q.call.ofScheduler = true) rfl ?_
    hok).1
  intro db q db' hnil hq hnext
  rcases hnext.triggers_cases with hsame | ⟨_, _, _, hcall, -⟩
  · exact hsame.trans hnil
  · rw [hcall] at hq
    cases hq

theorem Reaches.eligible_iff (h : Reaches s tr db)
    (hok : ∀ st ∈ tr, st.act.Accepted ∧ st.act.call.ofScheduler = true) :
    Eligible db.toRows w r j ↔
      r ∈ db.runs ∧ j ∈ r.jobs ∧ r.claimable w.dockerAvailable j = true := by
  have htriggers := h.triggers_nil fun st hst => (hok st hst).2
  have hrow : ∀ r ∈ db.runs, r.Scheduled ∧ r.Settled := by
    intro r hr
    obtain ⟨hsched, hsettled⟩ := h.scheduled (fun st hst => (hok st hst).1) r hr
    refine ⟨hsched, hsettled fun g hg => ?_⟩
    rw [htriggers] at hg
    cases hg
  constructor
  · intro heligible
    grind [heligible.run, heligible.job, Postgres.eligible_iff]
  · grind [Postgres.eligible_iff]

/-- The reply to a `LeaseJob` of the runner: the lease of the first eligible job, or
none when no job is eligible. -/
def Selects (s : Settings) (db : Database) (w : Runner) (now : Time) (lease : Uuid) : Prop :=
  (∃ r j l, Eligible db.toRows w r j ∧
      (∀ r' j', Eligible db.toRows w r' j' → Precedes s r j r' j') ∧
      (db.serve s ⟨now, .leaseJob w.id lease⟩).2 = .ok (.lease (some l)) ∧
      l.ownership = ⟨r.id, some w.id, some lease, j.name, j.leaseGeneration + 1⟩) ∨
    ((∀ r j, ¬ Eligible db.toRows w r j) ∧
      (db.serve s ⟨now, .leaseJob w.id lease⟩).2 = .ok (.lease none))

/-- **`LeaseJob` grants the first eligible job**, and nothing only when there is
none. -/
theorem Reaches.selects (h : Reaches s tr db) (hs : s.Collates)
    (hok : ∀ st ∈ tr, st.act.Accepted ∧ st.act.call.ofScheduler = true) (hw : w ∈ db.runners)
    (hprotocol : w.protocolVersion = 2) (honline : w.status = .online)
    (hbelow : db.activeJobs w.id < w.maxParallel) (now : Time) (lease : Uuid) :
    Selects s db w now lease := by
  have hsched := fun r hr => (h.scheduled (fun st hst => (hok st hst).1) r hr).1
  have hw? : Table.row? Runner.id w.id db.runners = some w :=
    (Table.row?_eq_some_iff db.valid.runners_key).2 ⟨hw, rfl⟩
  by_cases hany : ∃ r j, Eligible db.toRows w r j
  · left
    obtain ⟨r₀, j₀, heligible⟩ := hany
    obtain ⟨hr₀, hj₀, hclaim₀⟩ := (h.eligible_iff hok).1 heligible
    obtain ⟨t', l, hlease, hvalid⟩ := leaseJob_grants s now lease db.valid
      (fun x hx => (hsched x hx).built) (fun x hx => (hsched x hx).remote) hw hprotocol honline
      hbelow hr₀ (hsched r₀ hr₀).snapshot hj₀ hclaim₀
    obtain ⟨w', c, cfg, job, hw', -, -, -, hc, -, -, -, rfl⟩ := leaseJob_granted hlease
    obtain rfl : w = w' := Option.some.inj (hw?.symm.trans hw')
    have hcmem : c ∈ db.candidates w.dockerAvailable :=
      (List.perm_insertionSort _ _).mem_iff.1 (List.mem_of_mem_head? hc)
    refine ⟨c.run, c.job, c.lease now w.id lease job,
      (h.eligible_iff hok).2 (Rows.mem_candidates hcmem), ?_, ?_, rfl⟩
    · intro r' j' heligible'
      obtain ⟨hr', hj', hclaim'⟩ := (h.eligible_iff hok).1 heligible'
      obtain ⟨c', hc', rfl, rfl⟩ :=
        Rows.exists_candidate db.valid hr' (hsched r' hr').snapshot hj' hclaim'
      exact Candidate.precedes_iff.1 (hs.head_precedes hc hc')
    · simp only [Database.serve, exec, hlease, Except.map, Database.commit, hvalid, dif_pos]
  · right
    push Not at hany
    refine ⟨hany, ?_⟩
    have hnil : db.candidates w.dockerAvailable = [] := by
      apply List.eq_nil_iff_forall_not_mem.2
      intro c hc
      exact hany c.run c.job ((h.eligible_iff hok).2 (Rows.mem_candidates hc))
    have hlease : leaseJob s now w.id lease db.toRows = .ok (db.toRows, none) := by grind [leaseJob]
    simp only [Database.serve, exec, hlease, Except.map, Database.commit, db.valid, dif_pos]

/-- The rules of lease admission in a run of the system. -/
structure Admission (s : Settings) (tr : List (Step Database Request)) (db : Database) :
    Prop where
  /-- All dependencies of a job that was ever leased have passed. -/
  dependencies : ∀ st ∈ tr, ∀ o, Grants s st o → ∀ r ∈ db.runs, r.id = o.runID →
    ∀ d ∈ r.needs o.jobName, ∃ u ∈ r.jobs, u.name = d ∧ u.status = .passed
  /-- A runner holds at most as many running jobs as it once registered for. -/
  capacity : ∀ runner, db.activeJobs runner = 0 ∨ ∃ st ∈ tr, ∃ w, Registers s st w ∧
    w.id = runner ∧ db.activeJobs runner ≤ w.maxParallel
  /-- A lease goes to a runner that is online and speaks the protocol, and by its last
  registration has Docker when the definition of the job names an image. -/
  capable : ∀ pre st post runner lease l, tr = pre ++ st :: post →
    st.act.call = .leaseJob runner lease → reply s st = .ok (.lease (some l)) →
      ∃ w ∈ st.before.runners, w.id = runner ∧ w.status = .online ∧
        ∃ registered, LastRegistered s pre registered ∧ registered.SameRegistration w ∧
          registered.protocolVersion = 2 ∧
          (l.job.image ≠ none → registered.dockerAvailable = true)
  /-- No job is granted after a cancel request for its run. -/
  uncanceled : ∀ pre st post o, tr = pre ++ st :: post →
    (∃ cancel ∈ pre, Cancels s cancel o.runID) → ¬ Grants s st o
  /-- A run is marked as canceled only by such a request. -/
  canceled : ∀ r ∈ db.runs, r.cancelRequestedAt ≠ none → ∃ st ∈ tr, Cancels s st r.id
  /-- A runner below its capacity is granted the first eligible job. -/
  selects : ∀ w ∈ db.runners, w.protocolVersion = 2 → w.status = .online →
    db.activeJobs w.id < w.maxParallel → ∀ now lease, Selects s db w now lease

theorem Granted.capable {l : JobLease} (h : Granted s st l w r j) (himaged : r.Imaged)
    (himage : l.job.image ≠ none) : w.dockerAvailable = true := by
  obtain ⟨cfg, job, hparse, hjob, hdef⟩ := h.defined
  obtain ⟨-, -, -, hcapable, -⟩ := Run.claimable_iff.1 h.claimable
  apply hcapable.resolve_right
  rw [himaged cfg (parseBytes_ok hparse).1 j h.job job hjob]
  rw [hdef] at himage
  exact himage

/-- **Lease admission.**  In every run of the scheduler's operations on accepted
pipelines, leases are given out by the rules of `Admission`. -/
theorem lease_admission (hs : s.Collates) (h : Reaches s tr db)
    (hok : ∀ st ∈ tr, st.act.Accepted ∧ st.act.call.ofScheduler = true) : Admission s tr db where
  dependencies := fun st hst o hgrant r hr hid =>
    h.dependencies_passed (fun st hst => (hok st hst).1) hst hgrant hr hid
  capacity := h.capacity
  capable := by
    intro pre st post runner lease l htr hcall hreply
    subst htr
    obtain ⟨hpre, hserved, -⟩ := h.split
    obtain ⟨w, r, j, hgranted⟩ := Granted.of_reply hserved hcall hreply
    obtain ⟨registered, hlast, hsame⟩ := Reaches.registered hpre w hgranted.runner
    have himaged : r.Imaged := Reaches.imaged hpre
      (fun st' hst' => (hok st' (List.mem_append_left _ hst')).1) r hgranted.run
    obtain ⟨lease', hasked⟩ := hgranted.asked
    obtain ⟨rfl, -⟩ := Call.leaseJob.inj (hasked.symm.trans hcall)
    refine ⟨w, hgranted.runner, rfl, hgranted.online, registered, hlast, hsame, ?_,
      fun himage => ?_⟩
    · rw [← hsame.2.1]
      exact hgranted.protocol
    · rw [← hsame.2.2.1]
      exact hgranted.capable himaged himage
  uncanceled := by
    intro pre st post o htr hcancel
    subst htr
    obtain ⟨cancel, hmem, hcancels⟩ := hcancel
    exact not_granted_after_cancel h hmem hcancels
  canceled := fun r hr hmarked =>
    h.cancel_requested (fun st hst => (hok st hst).2) r hr (Option.isSome_iff_ne_none.2 hmarked)
  selects := fun w hw hprotocol honline hbelow now lease =>
    h.selects hs hok hw hprotocol honline hbelow now lease

theorem Sample.settings_collates : Sample.settings.Collates where
  total := by
    intro a b
    simpa [Sample.settings] using String.le_total a b
  trans := by
    intro a b c
    simpa [Sample.settings] using String.le_trans (a := a) (b := b) (c := c)

/-- The sample history, in which the second job is leased after the one it needs has passed,
follows the rules. -/
theorem sample_lease_admission :
    Admission Sample.settings (Database.empty.record Sample.settings Sample.relay)
        (Database.empty.after Sample.settings Sample.relay) ∧
      (Database.empty.record Sample.settings Sample.relay).map (reply Sample.settings) =
        [.ok .done, .ok .done, .ok (.lease (some ⟨1, "build", 7, 100, 1, 30000002,
          JobDefinition.ofJob Sample.build, Sample.snapshot⟩)), .ok .done,
          .ok (.lease (some ⟨1, "test", 7, 101, 1, 30000004,
            JobDefinition.ofJob Sample.check, Sample.snapshot⟩))] := by
  have hcalls : ∀ q ∈ Sample.relay, q.call.ofScheduler = true := by decide
  refine ⟨lease_admission Sample.settings_collates (Database.record_trace _ _ _) ?_, by decide⟩
  intro st hst
  have hact := Database.act_mem_of_record hst
  exact ⟨Sample.relay_accepted _ hact, hcalls _ hact⟩

end Postgres
