import ForgeCI.RunChanges
import ForgeCI.Traces

/-!
# Runs of the store

A run of the system is a recorded trace of requests served one at a time from
the empty database.  What a request does to the runs is stated once, by
`exec_runs`, and `Reaches.runs` turns this into the invariant rule used for every
property of single runs.
-/

namespace Postgres

open Traces

/-- The run a call creates. -/
def Call.creates : Call → Option CreateRun
  | .createRun input => some input
  | .createSCMRun _ input _ => some input
  | _ => none

/-- What a call does to one run: nothing, a change of its own, or its
supersession. -/
def RunStep (s : Settings) (now : Time) (t : Rows) (call : Call) (r r' : Run) : Prop :=
  r' = r ∨ Change s now call r r' ∨
    ∃ input, call = .createSCMDelivery input ∧ t.superseded input r = true ∧
      r' = r.supersede now

variable {s : Settings} {now : Time} {t t' : Rows} {call : Call} {r r' : Run}

theorem RunStep.static (h : RunStep s now t call r r') : r.SameStatic r' := by
  rcases h with rfl | h | ⟨-, -, -, rfl⟩
  · exact .refl _
  · exact h.static
  · exact ⟨rfl, rfl, rfl, rfl, rfl, rfl, fun h => h⟩

variable {missing : StoreError} {f : Run → Except StoreError Run}

theorem onRuns_ok {l l' : List Run}
    (h : onRuns f l = .ok l') : List.Forall₂ (fun r r' => f r = .ok r') l l' := by
  induction l generalizing l' with
  | nil =>
    obtain rfl : [] = l' := Except.ok.inj h
    exact .nil
  | cons r rest ih =>
    simp only [onRuns] at h
    cases hr : f r with
    | error e => simp [hr] at h
    | ok r' =>
      cases hrest : onRuns f rest with
      | error e => simp [hr, hrest] at h
      | ok rest' =>
        obtain rfl : r' :: rest' = l' := by simpa [hr, hrest] using h
        exact .cons hr (ih hrest)

/-- An operation on one run replaces that run. -/
theorem Rows.onRun_ok {id : Uuid} (h : t.onRun id missing f = .ok t') :
    ∃ r r', t.run? id = some r ∧ f r = .ok r' ∧ t' = t.putRun r' := by
  grind [onRun]

theorem Rows.putRun_runs (hkey : (t.runs.map Run.id).Nodup) (hr : r ∈ t.runs)
    (hstep : RunStep s now t call r r') :
    List.Forall₂ (RunStep s now t call) t.runs (t.putRun r').runs :=
  Table.forall₂_replace hkey hr hstep.static.id hstep fun _ _ => .inl rfl

theorem Rows.onRun_runs {id : Uuid} (hkey : (t.runs.map Run.id).Nodup)
    (hf : ∀ r r', id = r.id → f r = .ok r' → Change s now call r r')
    (h : t.onRun id missing f = .ok t') :
    List.Forall₂ (RunStep s now t call) t.runs t'.runs := by
  obtain ⟨r, r', hr, hok, rfl⟩ := Rows.onRun_ok h
  obtain ⟨hmem, hid⟩ := Table.row?_some hr
  exact Rows.putRun_runs hkey hmem (.inr (.inl (hf r r' hid.symm hok)))

theorem createRun_ok {input : CreateRun} (h : createRun now input t = .ok t') :
    ∃ snapshot snapshots, input.snapshot = some snapshot ∧
      t' = { t with runs := t.runs ++ [input.row now snapshot], snapshots := snapshots } := by
  unfold createRun at h
  split at h
  · cases h
  · rename_i snapshot hsnapshot
    split at h
    · split_ifs at h
      exact ⟨snapshot, t.snapshots, hsnapshot, (Except.ok.inj h).symm⟩
    · exact ⟨snapshot, _, hsnapshot, (Except.ok.inj h).symm⟩

/-- What a successful `LeaseJob` did: nothing, or a grant to a claimable job. -/
theorem leaseJob_ok {runner lease : Uuid} {granted : Option JobLease}
    (h : leaseJob s now runner lease t = .ok (t', granted)) : (t' = t ∧ granted = none) ∨
      ∃ w c cfg job, Table.row? Runner.id runner t.runners = some w ∧
        c ∈ t.candidates w.dockerAvailable ∧
        parseBytes c.run.pipelineYAML = .ok cfg ∧ cfg.job? c.job.name = some job ∧
        t' = t.putRun (c.run.grant now runner lease c.job.name) ∧
        granted = some (c.lease now runner lease job) := by
  unfold leaseJob at h
  split at h
  · cases h
  rename_i w hw
  split at h
  · cases h
  split at h
  · grind
  split at h
  · grind
  rename_i c hc
  split at h
  · cases h
  rename_i cfg hcfg
  split at h
  · cases h
  rename_i job hjob
  cases h
  have hmem : c ∈ t.candidates w.dockerAvailable :=
    (List.perm_insertionSort _ _).mem_iff.1 (List.mem_of_mem_head? hc)
  exact .inr ⟨w, c, cfg, job, hw, hmem, hcfg, hjob, rfl, rfl⟩

theorem Rows.mem_candidates {docker : Bool} {c : Candidate} (h : c ∈ t.candidates docker) :
    c.run ∈ t.runs ∧ c.job ∈ c.run.jobs ∧ c.run.claimable docker c.job = true := by
  simp only [candidates, List.mem_flatMap, List.mem_map, List.mem_filter] at h
  obtain ⟨r, hr, snapshot, -, j, ⟨hj, hclaim⟩, rfl⟩ := h
  exact ⟨hr, hj, hclaim⟩

theorem Rows.leasedRun?_some {owner : Ownership} (h : t.leasedRun? owner now = some r) :
    t.run? owner.runID = some r ∧
      ∃ j, r.job? owner.jobName = some j ∧ j.holdsLease owner now = true := by
  obtain ⟨hr, hj⟩ := Option.filter_eq_some_iff.1 h
  exact ⟨hr, (Option.any_eq_true _ _).1 hj⟩

/-- The loop of heartbeats renews, in every run, leases of that run. -/
theorem Rows.heartbeats_runs {runner : Uuid} {leases part : List LeaseHeartbeat}
    (hpart : ∀ l ∈ part, l ∈ leases) (hkey : (t.runs.map Run.id).Nodup) :
    List.Forall₂ (fun r r' : Run => ∃ ls : List LeaseHeartbeat,
        (∀ l ∈ ls, l ∈ leases ∧ l.runID = r.id) ∧ r' = r.renewAll runner now ls)
      t.runs (t.heartbeats runner now part).1.runs := by
  induction part generalizing t with
  | nil => exact List.forall₂_same.2 fun r _ => ⟨[], by simp, rfl⟩
  | cons l rest ih =>
    have hfirst : List.Forall₂ (fun r r' : Run => ∃ ls : List LeaseHeartbeat,
        (∀ l ∈ ls, l ∈ leases ∧ l.runID = r.id) ∧ r' = r.renewAll runner now ls)
        t.runs (t.heartbeat runner now l).1.runs := by
      unfold heartbeat
      split
      · exact List.forall₂_same.2 fun r _ => ⟨[], by simp, rfl⟩
      · rename_i r hr
        obtain ⟨hmem, hid⟩ := Table.row?_some (Rows.leasedRun?_some hr).1
        refine Table.forall₂_replace hkey hmem rfl ⟨[l], ?_, rfl⟩
          fun r _ => ⟨[], by simp, rfl⟩
        simpa using ⟨hpart l List.mem_cons_self, hid.symm⟩
    have hids : ∀ r r' : Run, (∃ ls : List LeaseHeartbeat,
        (∀ l ∈ ls, l ∈ leases ∧ l.runID = r.id) ∧ r' = r.renewAll runner now ls) →
        r'.id = r.id := by
      rintro r _ ⟨ls, -, rfl⟩
      obtain ⟨jobs, heq, -⟩ := r.renewAll_spec runner now ls
      rw [heq]
      rfl
    have hrest := ih (t := (t.heartbeat runner now l).1)
      (fun l' hl' => hpart l' (List.mem_cons_of_mem _ hl'))
      (by rw [Table.map_eq_of_forall₂ hfirst hids]; exact hkey)
    refine Table.forall₂_trans ?_ hfirst hrest
    rintro r r₁ r₂ hr ⟨ls', hls', rfl⟩
    have hid := hids _ _ hr
    obtain ⟨ls, hls, rfl⟩ := hr
    refine ⟨ls ++ ls', fun l' hl' => ?_, by simp [Run.renewAll, List.foldl_append]⟩
    grind

/-- The loop of heartbeats writes runs only. -/
theorem Rows.heartbeats_frame (now : Time) (runner : Uuid) (leases : List LeaseHeartbeat)
    (t : Rows) : ∃ runs, (t.heartbeats runner now leases).1 = { t with runs := runs } := by
  induction leases generalizing t with
  | nil => exact ⟨t.runs, rfl⟩
  | cons l rest ih =>
    obtain ⟨runs, hone⟩ : ∃ runs, (t.heartbeat runner now l).1 = { t with runs := runs } := by
      unfold heartbeat
      split <;> exact ⟨_, rfl⟩
    obtain ⟨runs', hrest⟩ := ih (t.heartbeat runner now l).1
    exact ⟨runs', hrest.trans (by rw [hone])⟩

theorem heartbeatJobLeases_ok {runner : Uuid} {leases : List LeaseHeartbeat}
    {results : List LeaseHeartbeatResult}
    (h : heartbeatJobLeases now runner leases t = .ok (t', results)) :
    ∃ runners, (t', results) = { t with runners := runners }.heartbeats runner now leases := by
  unfold heartbeatJobLeases at h
  split at h
  · cases h
  · exact ⟨_, (Except.ok.inj h).symm⟩

theorem updateClaimed_ok {id token : Uuid} {f : Delivery → Delivery}
    (h : updateClaimed now id token f t = .ok t') :
    ∃ deliveries, t' = { t with deliveries := deliveries } := by
  unfold updateClaimed at h
  split at h
  · cases h
  split_ifs at h
  exact ⟨_, (Except.ok.inj h).symm⟩

/-- What `CreateSCMDelivery` does to the runs: a delivery that was recorded
before changes nothing, a new one may supersede. -/
theorem createSCMDelivery_runs {input d : Delivery}
    (h : createSCMDelivery now input t = .ok (t', d)) :
    ∃ runs deliveries, t' = { t with runs := runs, deliveries := deliveries } ∧
      (runs = t.runs ∨
        runs = Table.updateWhere (t.superseded input) (Run.supersede now) t.runs) := by
  unfold createSCMDelivery at h
  split at h
  · cases h
  split at h
  · split_ifs at h
    cases h
    exact ⟨t.runs, t.deliveries, rfl, .inl rfl⟩
  · simp only at h
    split_ifs at h <;> obtain ⟨rfl, -⟩ := Prod.mk.inj (Except.ok.inj h)
    · exact ⟨_, _, rfl, .inr rfl⟩
    · exact ⟨t.runs, _, rfl, .inl rfl⟩

theorem Rows.superseded_iff {input : Delivery} :
    t.superseded input r = true ↔ r.status.terminal = false ∧ ∃ g ∈ t.triggers,
      g.runID = r.id ∧ g.repositoryID = input.repositoryID ∧
      g.pullRequestNumber = input.pullRequestNumber ∧
      (input.action = "closed" ∨ g.commitSHA ≠ input.commit) := by
  simp [superseded, and_assoc]

theorem claimSCMDelivery_ok {token : Uuid} {worker : String} {lease : Time}
    {d : Option Delivery} (h : claimSCMDelivery now token worker lease t = .ok (t', d)) :
    ∃ deliveries, t' = { t with deliveries := deliveries } := by
  unfold claimSCMDelivery at h
  split at h
  · cases h
  split at h <;> obtain ⟨rfl, -⟩ := Prod.mk.inj (Except.ok.inj h)
  · exact ⟨t.deliveries, rfl⟩
  · exact ⟨_, rfl⟩

theorem createSCMRun_ok {token : Uuid} {input : CreateRun} {trigger : RunTrigger}
    (h : createSCMRun now token input trigger t = .ok t') :
    trigger.runID = input.id ∧ ∃ t₁, createRun now input t = .ok t₁ ∧
      t' = { t₁ with triggers := t₁.triggers ++ [trigger] } := by
  unfold createSCMRun at h
  grind

/-- A mapped result came from a result. -/
theorem map_ok {α β : Type} {x : Except StoreError α} {f : α → β} {b : β}
    (h : x.map f = .ok b) : ∃ a, x = .ok a ∧ f a = b := by
  cases x with
  | error e => cases h
  | ok a => exact ⟨a, rfl, Except.ok.inj h⟩

variable {reply : Reply}

theorem map_done {x : Except StoreError Rows}
    (h : x.map (·, Reply.done) = .ok (t', reply)) : x = .ok t' ∧ reply = .done := by
  obtain ⟨a, hx, ha⟩ := map_ok h
  grind

theorem onRuns_runs {l l' : List Run}
    (hf : ∀ r r', f r = .ok r' → Change s now call r r') (h : onRuns f l = .ok l') :
    List.Forall₂ (RunStep s now t call) l l' :=
  (onRuns_ok h).imp fun r r' hok => .inr (.inl (hf r r' hok))

theorem expireJobLeases_ok (h : expireJobLeases s now t = .ok t') :
    ∃ runs runners, onRuns (Run.expireLeases s now) t.runs = .ok runs ∧
      t' = { t with runs := runs, runners := runners } := by
  unfold expireJobLeases at h
  split at h
  · cases h
  · next runs hruns => exact ⟨runs, _, hruns, (Except.ok.inj h).symm⟩

theorem recoverRemoteJobs_ok (h : recoverRemoteJobs s now t = .ok t') :
    ∃ runs, onRuns (Run.recover s now) t.runs = .ok runs ∧ t' = { t with runs := runs } := by
  unfold recoverRemoteJobs at h
  split at h
  · cases h
  · next runs hruns => exact ⟨runs, hruns, (Except.ok.inj h).symm⟩

theorem completeJob_ok {owner : Ownership} {status : JobStatus} {message : Option String}
    (h : completeJob s now owner status message t = .ok t') :
    status.reportable = true ∧
      t.onRun owner.runID .conflict (Run.complete s owner status now message) = .ok t' := by
  grind [completeJob]

theorem registerRunner_frame (now : Time) (t : Rows) (w : Runner) :
    ∃ runners, registerRunner now w t = { t with runners := runners } := by
  unfold registerRunner
  split <;> exact ⟨_, rfl⟩

theorem createSCMRepository_ok {row : Repository} (h : createSCMRepository row t = .ok t') :
    t' = { t with repositories := t.repositories ++ [row] } := by
  unfold createSCMRepository at h
  split_ifs at h
  exact (Except.ok.inj h).symm

/-- Runs that are the same took no step. -/
theorem forall₂_runStep_of_eq {l l' : List Run} (h : l' = l) :
    List.Forall₂ (RunStep s now t call) l l' := by
  subst h
  exact List.forall₂_same.2 fun _ _ => .inl rfl

/-- The calls that touch deliveries or triggers. -/
def Call.ofDeliveries : Call → Bool
  | .createSCMDelivery _ | .claimSCMDelivery _ _ _ | .renewSCMDeliveryClaim _ _ _ => true
  | .completeSCMDelivery _ _ _ | .failSCMDelivery _ _ _ _ | .createSCMRun _ _ _ => true
  | _ => false

/-- The calls that touch runners. -/
def Call.ofRunners : Call → Bool
  | .registerRunner _ | .heartbeatJobLeases _ _ | .expireJobLeases => true
  | _ => false

/-- The tables a call leaves alone. -/
structure Frame (call : Call) (t t' : Rows) : Prop where
  runners : call.ofRunners = false → t'.runners = t.runners
  deliveries : call.ofDeliveries = false → t'.deliveries = t.deliveries
  triggers : t'.triggers = t.triggers ∨ ∃ token input trigger,
    call = .createSCMRun token input trigger ∧ t'.triggers = t.triggers ++ [trigger]

theorem Frame.onRun {id : Uuid} (h : t.onRun id missing f = .ok t') : Frame call t t' := by
  obtain ⟨-, -, -, -, rfl⟩ := Rows.onRun_ok h
  exact ⟨fun _ => rfl, fun _ => rfl, .inl rfl⟩

theorem Frame.updateClaimed {id token : Uuid} {f : Delivery → Delivery}
    (hcall : call.ofDeliveries = true) (h : updateClaimed now id token f t = .ok t') :
    Frame call t t' := by
  obtain ⟨_, rfl⟩ := updateClaimed_ok h
  exact ⟨fun _ => rfl, fun hother => (by rw [hcall] at hother; cases hother), .inl rfl⟩

/-- **What a call leaves alone.** -/
theorem exec_frame (h : exec s now t call = .ok (t', reply)) : Frame call t t' := by
  cases call with
  | createRun input =>
    obtain ⟨_, _, -, rfl⟩ := createRun_ok (map_done h).1
    exact ⟨fun _ => rfl, fun _ => rfl, .inl rfl⟩
  | registerRunner w =>
    cases h
    obtain ⟨_, hframe⟩ := registerRunner_frame now t w
    rw [hframe]
    exact ⟨fun hcall => (by cases hcall), fun _ => rfl, .inl rfl⟩
  | leaseJob runner lease =>
    obtain ⟨⟨t₁, granted⟩, hok, ⟨⟩⟩ := map_ok h
    rcases leaseJob_ok hok with ⟨rfl, -⟩ | ⟨-, -, -, -, -, -, -, -, rfl, -⟩ <;>
      exact ⟨fun _ => rfl, fun _ => rfl, .inl rfl⟩
  | heartbeatJobLeases runner leases =>
    obtain ⟨⟨t₁, results⟩, hok, ⟨⟩⟩ := map_ok h
    obtain ⟨runners, heq⟩ := heartbeatJobLeases_ok hok
    obtain ⟨_, hframe⟩ := Rows.heartbeats_frame now runner leases { t with runners }
    rw [(Prod.mk.inj heq).1, hframe]
    exact ⟨fun hcall => (by cases hcall), fun _ => rfl, .inl rfl⟩
  | completeJob owner status message => exact .onRun (completeJob_ok (map_done h).1).2
  | requestCancel id | cancelQueued id => exact .onRun (map_done h).1
  | expireJobLeases =>
    obtain ⟨_, _, -, rfl⟩ := expireJobLeases_ok (map_done h).1
    exact ⟨fun hcall => (by cases hcall), fun _ => rfl, .inl rfl⟩
  | recoverRemoteJobs =>
    obtain ⟨_, -, rfl⟩ := recoverRemoteJobs_ok (map_done h).1
    exact ⟨fun _ => rfl, fun _ => rfl, .inl rfl⟩
  | commitArtifacts owner items => exact .onRun (map_done h).1
  | expireArtifacts =>
    cases h
    exact ⟨fun _ => rfl, fun _ => rfl, .inl rfl⟩
  | createSCMRepository row =>
    obtain rfl := createSCMRepository_ok (map_done h).1
    exact ⟨fun _ => rfl, fun _ => rfl, .inl rfl⟩
  | createSCMDelivery input =>
    obtain ⟨⟨t₁, d⟩, hok, ⟨⟩⟩ := map_ok h
    obtain ⟨_, _, rfl, -⟩ := createSCMDelivery_runs hok
    exact ⟨fun _ => rfl, fun hcall => (by cases hcall), .inl rfl⟩
  | claimSCMDelivery token worker lease =>
    obtain ⟨⟨t₁, d⟩, hok, ⟨⟩⟩ := map_ok h
    obtain ⟨_, rfl⟩ := claimSCMDelivery_ok hok
    exact ⟨fun _ => rfl, fun hcall => (by cases hcall), .inl rfl⟩
  | renewSCMDeliveryClaim id token lease =>
    have hok := (map_done h).1
    unfold renewSCMDeliveryClaim at hok
    split_ifs at hok
    exact .updateClaimed rfl hok
  | completeSCMDelivery id token status =>
    have hok := (map_done h).1
    unfold completeSCMDelivery at hok
    split_ifs at hok
    exact .updateClaimed rfl hok
  | failSCMDelivery id token retryAt message => exact .updateClaimed rfl (map_done h).1
  | createSCMRun token input trigger =>
    obtain ⟨-, t₁, hcreate, rfl⟩ := createSCMRun_ok (map_done h).1
    obtain ⟨_, _, -, rfl⟩ := createRun_ok hcreate
    exact ⟨fun _ => rfl, fun hcall => (by cases hcall), .inr ⟨token, input, trigger, rfl, rfl⟩⟩

/-- **What a call does to the runs.**  It appends one new run, or takes every
run through changes of its own or a supersession. -/
theorem exec_runs (hkey : (t.runs.map Run.id).Nodup) (h : exec s now t call = .ok (t', reply)) :
    (∃ input snapshot, call.creates = some input ∧ input.snapshot = some snapshot ∧
        t'.runs = t.runs ++ [input.row now snapshot]) ∨
      List.Forall₂ (RunStep s now t call) t.runs t'.runs := by
  cases call with
  | createRun input =>
    obtain ⟨snapshot, _, hsnapshot, rfl⟩ := createRun_ok (map_done h).1
    exact .inl ⟨input, snapshot, rfl, hsnapshot, rfl⟩
  | registerRunner w =>
    cases h
    obtain ⟨_, hframe⟩ := registerRunner_frame now t w
    rw [hframe]
    exact .inr (forall₂_runStep_of_eq rfl)
  | leaseJob runner lease =>
    obtain ⟨⟨t₁, granted⟩, hok, ⟨⟩⟩ := map_ok h
    rcases leaseJob_ok hok with ⟨rfl, -⟩ | ⟨w, c, -, -, -, hc, -, -, rfl, -⟩
    · exact .inr (forall₂_runStep_of_eq rfl)
    · obtain ⟨hrun, hjob, hclaim⟩ := Rows.mem_candidates hc
      exact .inr (Rows.putRun_runs hkey hrun
        (.inr (.inl (.grant runner lease hjob hclaim))))
  | heartbeatJobLeases runner leases =>
    obtain ⟨⟨t₁, results⟩, hok, ⟨⟩⟩ := map_ok h
    obtain ⟨runners, heq⟩ := heartbeatJobLeases_ok hok
    rw [(Prod.mk.inj heq).1]
    refine .inr ((Rows.heartbeats_runs (t := { t with runners := runners })
      (fun _ hl => hl) hkey).imp ?_)
    rintro r _ ⟨ls, hls, rfl⟩
    exact .inr (.inl (.renew r hls))
  | completeJob owner status message =>
    obtain ⟨hstatus, hrun⟩ := completeJob_ok (map_done h).1
    exact .inr (Rows.onRun_runs hkey (fun _ _ hid hok => .complete hstatus hid hok) hrun)
  | requestCancel id =>
    exact .inr (Rows.onRun_runs hkey (fun _ _ hid hok => .requestCancel hid hok) (map_done h).1)
  | cancelQueued id =>
    exact .inr (Rows.onRun_runs hkey (fun _ _ hid hok => .cancelQueued hid hok) (map_done h).1)
  | expireJobLeases =>
    obtain ⟨runs, _, hruns, rfl⟩ := expireJobLeases_ok (map_done h).1
    exact .inr (onRuns_runs (fun _ _ hok => .expireLeases hok) hruns)
  | recoverRemoteJobs =>
    obtain ⟨runs, hruns, rfl⟩ := recoverRemoteJobs_ok (map_done h).1
    exact .inr (onRuns_runs (fun _ _ hok => .recover hok) hruns)
  | commitArtifacts owner items =>
    exact .inr (Rows.onRun_runs hkey (fun _ _ hid hok => .commitArtifacts hid hok) (map_done h).1)
  | expireArtifacts =>
    cases h
    refine .inr ?_
    simp only [expireArtifacts, List.forall₂_map_right_iff, List.forall₂_same]
    exact fun r _ => .inr (.inl (.expireArtifacts r))
  | createSCMRepository row =>
    obtain rfl := createSCMRepository_ok (map_done h).1
    exact .inr (forall₂_runStep_of_eq rfl)
  | createSCMDelivery input =>
    obtain ⟨⟨t₁, d⟩, hok, ⟨⟩⟩ := map_ok h
    obtain ⟨_, _, rfl, rfl | rfl⟩ := createSCMDelivery_runs hok
    · exact .inr (forall₂_runStep_of_eq rfl)
    · refine .inr (Table.forall₂_updateWhere fun r _ => ?_)
      split_ifs with hsuperseded
      · exact .inr (.inr ⟨input, rfl, hsuperseded, rfl⟩)
      · exact .inl rfl
  | claimSCMDelivery token worker lease =>
    obtain ⟨⟨t₁, d⟩, hok, ⟨⟩⟩ := map_ok h
    obtain ⟨_, rfl⟩ := claimSCMDelivery_ok hok
    exact .inr (forall₂_runStep_of_eq rfl)
  | renewSCMDeliveryClaim id token lease =>
    have hok := (map_done h).1
    unfold renewSCMDeliveryClaim at hok
    split_ifs at hok
    obtain ⟨_, rfl⟩ := updateClaimed_ok hok
    exact .inr (forall₂_runStep_of_eq rfl)
  | completeSCMDelivery id token status =>
    have hok := (map_done h).1
    unfold completeSCMDelivery at hok
    split_ifs at hok
    obtain ⟨_, rfl⟩ := updateClaimed_ok hok
    exact .inr (forall₂_runStep_of_eq rfl)
  | failSCMDelivery id token retryAt message =>
    obtain ⟨_, rfl⟩ := updateClaimed_ok (map_done h).1
    exact .inr (forall₂_runStep_of_eq rfl)
  | createSCMRun token input trigger =>
    obtain ⟨-, t₁, hcreate, rfl⟩ := createSCMRun_ok (map_done h).1
    obtain ⟨snapshot, _, hsnapshot, rfl⟩ := createRun_ok hcreate
    exact .inl ⟨input, snapshot, rfl, hsnapshot, rfl⟩

/-- A request takes the database to what serving it leaves. -/
def Served (s : Settings) (db : Database) (q : Request) (db' : Database) : Prop :=
  (db.serve s q).1 = db'

/-- A run of the system from the empty database. -/
abbrev Reaches (s : Settings) (tr : List (Step Database Request)) (db : Database) : Prop :=
  Trace (Served s) Database.empty tr db

/-- The database after a list of requests. -/
def Database.after (s : Settings) (db : Database) : List Request → Database
  | [] => db
  | q :: rest => (db.serve s q).1.after s rest

/-- The steps of serving a list of requests. -/
def Database.record (s : Settings) (db : Database) : List Request → List (Step Database Request)
  | [] => []
  | q :: rest => ⟨db, q, (db.serve s q).1⟩ :: (db.serve s q).1.record s rest

/-- Serving any list of requests is a run of the system. -/
theorem Database.record_trace (s : Settings) (db : Database) (qs : List Request) :
    Trace (Served s) db (db.record s qs) (db.after s qs) := by
  induction qs generalizing db with
  | nil => exact .nil
  | cons q rest ih => exact .cons rfl (ih _)

/-- The steps of a list of requests perform these requests. -/
theorem Database.act_mem_of_record {s : Settings} {db : Database} {qs : List Request}
    {st : Step Database Request} (h : st ∈ db.record s qs) : st.act ∈ qs := by
  induction qs generalizing db with
  | nil => cases h
  | cons q rest ih =>
    rcases List.mem_cons.1 h with rfl | h
    · exact List.mem_cons_self
    · exact List.mem_cons_of_mem _ (ih h)

/-- Serving a request executed its call, or changed nothing. -/
theorem Database.serve_cases (s : Settings) (db : Database) (q : Request) :
    (∃ t' reply, exec s q.now db.toRows q.call = .ok (t', reply) ∧
        (db.serve s q).1.toRows = t' ∧ (db.serve s q).2 = .ok reply) ∨
      ((db.serve s q).1 = db ∧ ∃ e, (db.serve s q).2 = .error e) :=
  db.commit_cases _

variable {db db' : Database} {q : Request}

/-- A successful reply comes from a call that was executed and committed. -/
theorem Database.serve_ok (h : (db.serve s q).2 = .ok reply) :
    exec s q.now db.toRows q.call = .ok ((db.serve s q).1.toRows, reply) := by
  rcases db.serve_cases s q with ⟨t', reply', hexec, rfl, hreply⟩ | ⟨-, e, he⟩
  · rw [hexec, Except.ok.inj (hreply.symm.trans h)]
  · rw [he] at h
    cases h

theorem Database.eq_of_rows (h : db.toRows = db'.toRows) : db = db' := by
  cases db
  cases db'
  cases h
  rfl

/-- A request that fails changes nothing. -/
theorem Served.of_error {e : StoreError} (h : Served s db q db')
    (he : (db.serve s q).2 = .error e) : db' = db := by
  subst h
  rcases db.serve_cases s q with ⟨-, reply, -, -, hreply⟩ | ⟨hsame, -⟩
  · rw [hreply] at he
    cases he
  · exact hsame

/-- **What a request does to the runs.** -/
theorem Served.runs (h : Served s db q db') :
    (∃ input snapshot, q.call.creates = some input ∧ input.snapshot = some snapshot ∧
        db'.runs = db.runs ++ [input.row q.now snapshot]) ∨
      List.Forall₂ (RunStep s q.now db.toRows q.call) db.runs db'.runs := by
  subst h
  rcases db.serve_cases s q with ⟨t', reply, hexec, hrows, -⟩ | ⟨hsame, -⟩
  · rw [hrows]
    exact exec_runs db.valid.runs_key hexec
  · rw [hsame]
    exact .inr (forall₂_runStep_of_eq rfl)

/-- A run stays, and takes at most one step. -/
theorem Served.run_step (h : Served s db q db') (hr : r ∈ db.runs) :
    ∃ r' ∈ db'.runs, RunStep s q.now db.toRows q.call r r' := by
  rcases h.runs with ⟨input, snapshot, -, -, hruns⟩ | hruns
  · exact ⟨r, by rw [hruns]; exact List.mem_append_left _ hr, .inl rfl⟩
  · exact Table.exists_new hruns hr

/-- **What every step keeps of a run is kept for good.** -/
theorem Served.run_persists {P : Run → Prop} {tr : List (Step Database Request)}
    (hP : ∀ (db : Database) (q : Request) (r r' : Run), r ∈ db.runs →
      RunStep s q.now db.toRows q.call r r' → P r → P r')
    (h : Trace (Served s) db tr db') (hr : r ∈ db.runs) (hPr : P r) :
    ∃ r' ∈ db'.runs, r'.id = r.id ∧ P r' := by
  refine h.final_invariant (fun db => ∃ r' ∈ db.runs, r'.id = r.id ∧ P r') ⟨r, hr, rfl, hPr⟩ ?_
  rintro db₁ q db₂ ⟨r₁, hr₁, hid₁, hP₁⟩ hserved
  obtain ⟨r₂, hr₂, hstep⟩ := hserved.run_step hr₁
  exact ⟨r₂, hr₂, hstep.static.id.trans hid₁, hP _ _ _ _ hr₁ hstep hP₁⟩

/-- **Where a run comes from**: it is new, or one step took it there. -/
theorem Served.run_origin (h : Served s db q db') (hr' : r' ∈ db'.runs) :
    (∃ input snapshot, q.call.creates = some input ∧ input.snapshot = some snapshot ∧
        r' = input.row q.now snapshot) ∨
      ∃ r ∈ db.runs, RunStep s q.now db.toRows q.call r r' := by
  rcases h.runs with ⟨input, snapshot, hcreates, hsnapshot, hruns⟩ | hruns
  · rw [hruns, List.mem_append, List.mem_singleton] at hr'
    rcases hr' with hr' | rfl
    · exact .inr ⟨r', hr', .inl rfl⟩
    · exact .inl ⟨input, snapshot, hcreates, hsnapshot, rfl⟩
  · exact .inr (Table.exists_old hruns hr')

/-- **Only `CreateSCMRun` adds a trigger.** -/
theorem Served.triggers_cases (h : Served s db q db') :
    db'.triggers = db.triggers ∨ ∃ token input trigger,
      q.call = .createSCMRun token input trigger ∧ db'.triggers = db.triggers ++ [trigger] := by
  subst h
  rcases db.serve_cases s q with ⟨t', reply, hexec, hrows, -⟩ | ⟨hsame, -⟩
  · rw [hrows]
    exact (exec_frame hexec).triggers
  · rw [hsame]
    exact .inl rfl

/-- Triggers are never removed. -/
theorem Served.triggers (h : Served s db q db') : ∀ g ∈ db.triggers, g ∈ db'.triggers := by
  grind [h.triggers_cases]

/-- A run that no trigger references. -/
def Rows.Untriggered (t : Rows) (r : Run) : Prop :=
  ∀ g ∈ t.triggers, g.runID ≠ r.id

/-- **The invariant rule for single runs.**  `I` holds of new runs and is kept
by changes and by supersession; `K` holds of new runs and is kept by changes,
so it holds of the runs that no trigger references. -/
theorem Reaches.runs {ok : Request → Prop} (I K : Run → Prop)
    (hnew : ∀ q input snapshot, ok q → q.call.creates = some input →
      input.snapshot = some snapshot → (input.row q.now snapshot).Constraints →
      I (input.row q.now snapshot) ∧ K (input.row q.now snapshot))
    (hchange : ∀ now call r r', (r.jobs.map Job.name).Nodup → I r →
      Change s now call r r' → I r' ∧ (K r → K r'))
    (hsupersede : ∀ now r, I r → r.status.terminal = false → I (r.supersede now))
    {tr : List (Step Database Request)} (h : Reaches s tr db) (hok : ∀ st ∈ tr, ok st.act) :
    ∀ r ∈ db.runs, I r ∧ (db.Untriggered r → K r) := by
  refine (h.guarded (fun db => ∀ r ∈ db.runs, I r ∧ (db.Untriggered r → K r))
    (fun _ q => ok q) (by simp [Database.empty]) ?_ hok).1
  intro db q db' hdb hq hnext r' hr'
  rcases hnext.run_origin hr' with ⟨input, snapshot, hcreates, hsnapshot, rfl⟩ | ⟨r, hr, hstep⟩
  · obtain ⟨hI, hK⟩ := hnew q input snapshot hq hcreates hsnapshot (db'.valid.runs _ hr')
    exact ⟨hI, fun _ => hK⟩
  · obtain ⟨hI, hK⟩ := hdb r hr
    have hkey := (db.valid.runs r hr).jobs_key
    rcases hstep with rfl | hchanged | ⟨input, -, hsuperseded, rfl⟩
    · exact ⟨hI, fun hu => hK fun g hg => hu g (hnext.triggers g hg)⟩
    · obtain ⟨hI', hK'⟩ := hchange q.now q.call r r' hkey hI hchanged
      refine ⟨hI', fun hu => hK' (hK fun g hg => ?_)⟩
      rw [← hchanged.static.id]
      exact hu g (hnext.triggers g hg)
    · obtain ⟨hstatus, g, hg, hid, -⟩ := Rows.superseded_iff.1 hsuperseded
      exact ⟨hsupersede q.now r hI hstatus,
        fun hu => absurd hid (hu g (hnext.triggers g hg))⟩

end Postgres
