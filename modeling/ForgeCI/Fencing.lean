import ForgeCI.LeaseEvents
import ForgeCI.Submission

/-!
# Fenced ownership

The history of a job's lease, over whole runs of the system.  A job is granted
one lease; the lease is used only by the tuple it was granted to, while the job
is `RUNNING` and within `jobLeaseTTL` of its last renewal; a job is completed
once, and nothing that has ended changes its status.
-/

namespace Postgres

open Traces

variable {s : Settings} {db db' : Database} {o o' : Ownership}
  {tr pre mid post : List (Step Database Request)} {st st' : Step Database Request}

/-- A granted job was pending, and is not afterwards. -/
theorem Grants.rows (h : Grants s st o) (hnext : Served s st.before st.act st.after) :
    (∃ r ∈ st.before.runs, r.id = o.runID ∧
        ∃ j ∈ r.jobs, j.name = o.jobName ∧ j.status = .pending) ∧
      ∃ r ∈ st.after.runs, r.id = o.runID ∧
        ∃ j ∈ r.jobs, j.name = o.jobName ∧ j.status ≠ .pending := by
  obtain ⟨runner, lease, l, hcall, hreply, rfl⟩ := h
  have hexec := Database.serve_ok hreply
  rw [hcall] at hexec
  obtain ⟨⟨t₁, granted⟩, hok, heq⟩ := map_ok hexec
  obtain ⟨hrows, hgranted⟩ := Prod.mk.inj heq
  obtain rfl : granted = some l := by simpa using hgranted
  rcases leaseJob_ok hok with ⟨-, hnone⟩ | ⟨w, c, cfg, job, -, hc, -, -, rfl, hl⟩
  · cases hnone
  cases hl
  obtain ⟨hrun, hjob, hclaim⟩ := Rows.mem_candidates hc
  have hpending := (Run.claimable_iff.1 hclaim).2.2.1
  refine ⟨⟨c.run, hrun, rfl, c.job, hjob, rfl, hpending⟩,
    c.run.grant st.act.now runner lease c.job.name, ?_, Run.grant_id .., 
    c.job.grant st.act.now runner lease, ?_, rfl, by simp⟩
  · rw [← hnext, ← hrows]
    exact Table.mem_updateWhere.2 ⟨c.run, hrun, if_pos (by simp [Run.grant_id])⟩
  · grind [Run.grant_jobs, Table.mem_updateWhere]

/-- A completed job has ended. -/
theorem Completes.rows (h : Completes s st o) (hnext : Served s st.before st.act st.after) :
    ∃ r ∈ st.after.runs, r.id = o.runID ∧
      ∃ j ∈ r.jobs, j.name = o.jobName ∧ j.status.unfinished = false := by
  obtain ⟨status, message, hcall, hreply⟩ := h
  have hexec := Database.serve_ok hreply
  rw [hcall] at hexec
  obtain ⟨hreport, hrun⟩ := completeJob_ok (map_done hexec).1
  obtain ⟨r, r', hr, hok, hrows⟩ := Rows.onRun_ok hrun
  obtain ⟨hmem, hid⟩ := Table.row?_some hr
  obtain ⟨j, hj, -, -, hfin⟩ := Run.complete_ok hok
  obtain ⟨hjmem, hname⟩ := Table.row?_some hj
  have hchange : Change s st.act.now (.completeJob o status message) r r' :=
    .complete hreport hid.symm hok
  obtain ⟨jobs, heq, hblocks⟩ := r.completedRows_eq o.jobName status st.act.now message
  have hfinished : (j.finish status st.act.now message).releaseLease ∈
      (r.finishJob o.jobName status st.act.now message).jobs :=
    Table.mem_updateWhere.2 ⟨j, hjmem, if_pos (by simpa using hname)⟩
  have hended : (j.finish status st.act.now message).releaseLease.status.unfinished = false := by
    cases status <;> first | rfl | cases hreport
  obtain ⟨j', hj', hblock⟩ := Table.exists_new hblocks hfinished
  refine ⟨r', ?_, hchange.static.id.trans hid, j', ?_, hblock.name_eq.trans hname, ?_⟩
  · rw [← hnext, hrows]
    exact Table.mem_updateWhere.2 ⟨r, hmem, if_pos (by simpa using hchange.static.id.symm)⟩
  · rw [Run.finalizeRun_jobs hfin, heq]
    exact hj'
  · rcases hblock with rfl | ⟨hpending, -⟩
    · exact hended
    · rw [hpending] at hended
      cases hended

/-- The rows of one job in one database are the same row. -/
theorem Database.job_unique {r r' : Run} {j j' : Job} (hr : r ∈ db.runs) (hr' : r' ∈ db.runs)
    (hid : r.id = r'.id) (hj : j ∈ r.jobs) (hj' : j' ∈ r'.jobs) (hname : j.name = j'.name) :
    r = r' ∧ j = j' := by
  obtain rfl := List.inj_on_of_nodup_map db.valid.keyed.runs hr hr' hid
  exact ⟨rfl, List.inj_on_of_nodup_map (db.valid.keyed.jobs r hr) hj hj' hname⟩

/-- **A job is granted at most one lease.** -/
theorem granted_once (h : Reaches s tr db) (htr : tr = pre ++ st :: (mid ++ st' :: post))
    (hgrant : Grants s st o) (hgrant' : Grants s st' o') :
    ¬ (o.runID = o'.runID ∧ o.jobName = o'.jobName) := by
  rintro ⟨hid, hname⟩
  subst htr
  obtain ⟨-, hnext, hmid, hnext'⟩ := h.split_two
  obtain ⟨r, hr, hrid, j, hj, hjname, hnot⟩ := (hgrant.rows hnext).2
  obtain ⟨r', hr', hrid', j', hj', hjname', hpending⟩ := (hgrant'.rows hnext').1
  obtain ⟨r₂, hr₂, hid₂, j₂, hj₂, hname₂, hnot₂⟩ :=
    Served.persists (P := fun j => j.status ≠ .pending)
      (fun _ _ _ _ hstep hnot hpending => hnot (hstep.pending hpending ▸ hpending)) hmid hr hj hnot
  grind [Database.job_unique]

/-- **A job is completed at most once.** -/
theorem completed_once (h : Reaches s tr db) (htr : tr = pre ++ st :: (mid ++ st' :: post))
    (hcomplete : Completes s st o) (hcomplete' : Completes s st' o') :
    ¬ (o.runID = o'.runID ∧ o.jobName = o'.jobName) := by
  rintro ⟨hid, hname⟩
  subst htr
  obtain ⟨-, hnext, hmid, -⟩ := h.split_two
  obtain ⟨r, hr, hrid, j, hj, hjname, hended⟩ := hcomplete.rows hnext
  obtain ⟨r', hr', j', hj', howner, hrunning, -⟩ := (Uses.leased (.inl hcomplete')).row
  obtain ⟨r₂, hr₂, hid₂, j₂, hj₂, hname₂, hended₂⟩ :=
    Served.persists (P := fun j => j.status.unfinished = false)
      (fun _ _ _ _ hstep hended => (hstep.finished hended).symm ▸ hended) hmid hr hj hended
  have hrid' : r'.id = o'.runID := congrArg Ownership.runID howner
  have hjname' : j'.name = o'.jobName := congrArg Ownership.jobName howner
  obtain ⟨-, rfl⟩ := Database.job_unique hr₂ hr' (by rw [hid₂, hrid, hid, hrid']) hj₂ hj'
    (by rw [hname₂, hjname, hname, hjname'])
  rw [hrunning] at hended₂
  cases hended₂

/-- The last step of a history that set the expiry of a lease. -/
def LastExtended (s : Settings) (tr : List (Step Database Request)) (o : Ownership)
    (last : Step Database Request) : Prop :=
  ∃ pre post, tr = pre ++ last :: post ∧ Extends s last o ∧ ∀ st ∈ post, ¬ Extends s st o

/-- **The row of a running job** holds the tuple of a lease that was granted,
and expires one `jobLeaseTTL` after it was last renewed. -/
theorem Reaches.leases (h : Reaches s tr db) : ∀ r ∈ db.runs, ∀ j ∈ r.jobs,
    j.status = .running → (∃ g ∈ tr, Grants s g (r.ownership j)) ∧
      ∃ last, LastExtended s tr (r.ownership j) last ∧
        j.leaseExpiresAt = some (last.act.now + jobLeaseTTL) := by
  induction h with
  | nil =>
    intro r hr
    cases hr
  | @snoc tr db db' q run step ih =>
    intro r' hr' j' hj' hrunning
    rcases step.running hr' hj' hrunning with ⟨hext, hexpires⟩ | ⟨hnot, r, hr, j, hj, howner,
      hold, hexpires⟩
    · -- A step that sets the expiry is the last to do so.
      refine ⟨?_, _, ⟨tr, [], rfl, hext, by simp⟩, hexpires⟩
      rcases hext with hgrant | hrenews
      · exact ⟨_, by simp, hgrant⟩
      · obtain ⟨r, hr, j, hj, howner, hold, -⟩ := (Uses.leased (.inr (.inl hrenews))).row
        grind
    · obtain ⟨⟨g, hg, hgrant⟩, last, ⟨pre, post, htr, hext, hlater⟩, hold⟩ := ih r hr j hj hold
      rw [howner] at hgrant hext hlater
      refine ⟨⟨g, List.mem_append_left _ hg, hgrant⟩, last,
        ⟨pre, post ++ [⟨db, q, db'⟩], by rw [htr]; simp, hext, fun st hst => ?_⟩, ?_⟩
      · grind
      · rw [← hexpires]
        exact hold

/-- **A lease is used by the tuple it was granted to, in time.** -/
theorem used_in_time (h : Reaches s tr db) (htr : tr = pre ++ st :: post) (huse : Uses s st o) :
    (∃ g ∈ pre, Grants s g o) ∧
      (∃ r ∈ st.before.runs, ∃ j ∈ r.jobs, r.ownership j = o ∧ j.status = .running) ∧
      ∃ last, LastExtended s pre o last ∧ st.act.now < last.act.now + jobLeaseTTL := by
  subst htr
  obtain ⟨r, hr, j, hj, rfl, hrunning, expires, hexpires, hlt⟩ := huse.leased.row
  obtain ⟨hgranted, last, hlast, hexpires'⟩ := Reaches.leases h.split.1 r hr j hj hrunning
  grind

/-- The times of the requests never go back. -/
def Clock (tr : List (Step Database Request)) : Prop :=
  (tr.map fun st => st.act.now).Pairwise (· ≤ ·)

theorem Clock.le (h : Clock (pre ++ st :: post)) {u : Step Database Request} (hu : u ∈ post) :
    st.act.now ≤ u.act.now := by
  rw [Clock, List.map_append, List.map_cons] at h
  exact (List.pairwise_cons.1 (List.pairwise_append.1 h).2.1).1 _ (List.mem_map_of_mem hu)

/-- Whoever extended a lease was granted it by then. -/
theorem Extends.granted (h : Reaches s tr db) (hst : st ∈ tr) (hext : Extends s st o) :
    ∃ g ∈ tr, Grants s g o := by
  rcases hext with hgrant | hrenews
  · exact ⟨st, hst, hgrant⟩
  · obtain ⟨pre, post, htr⟩ := List.append_of_mem hst
    obtain ⟨⟨g, hg, hgrant⟩, -⟩ := used_in_time h htr (.inr (.inl hrenews))
    exact ⟨g, by rw [htr]; exact List.mem_append_left _ hg, hgrant⟩

/-- Once all that extended a granted lease is too long ago, the lease is not
used again: the first use would have been too late. -/
theorem unused_after_expiry (h : Reaches s tr db) (hclock : Clock tr)
    (htr : tr = pre ++ st :: post) (hgranted : ∃ g ∈ pre, Grants s g o)
    (hexpired : ∀ e ∈ pre, Extends s e o → e.act.now + jobLeaseTTL ≤ st.act.now) :
    ∀ n (skipped : List (Step Database Request)) u rest, skipped.length = n →
      st :: post = skipped ++ u :: rest → ¬ Uses s u o := by
  intro n
  induction n using Nat.strong_induction_on with
  | _ n ih =>
    intro skipped u rest hlen hsplit huse
    have htr' : tr = (pre ++ skipped) ++ u :: rest := by rw [htr, hsplit, List.append_assoc]
    have hle : st.act.now ≤ u.act.now := by
      rcases skipped with _ | ⟨first, skipped⟩
      · grind
      · cases hsplit
        rw [htr] at hclock
        exact hclock.le (by simp)
    obtain ⟨-, -, last, ⟨before, after, heq, hext, -⟩, hlt⟩ := used_in_time h htr' huse
    have hlast : last ∈ pre ∨ last ∈ skipped := by
      rw [← List.mem_append, heq]
      simp
    rcases hlast with hpre | hskipped
    · exact absurd hlt (Nat.not_lt.2 ((hexpired last hpre hext).trans hle))
    · obtain ⟨a, b, rfl⟩ := List.append_of_mem hskipped
      rcases hext with hgrant | hrenews
      · obtain ⟨g, hg, hgrant'⟩ := hgranted
        obtain ⟨c, d, rfl⟩ := List.append_of_mem hg
        have htwo : tr = c ++ g :: ((d ++ a) ++ last :: (b ++ u :: rest)) := by
          rw [htr']
          simp
        exact granted_once h htwo hgrant' hgrant ⟨rfl, rfl⟩
      · refine ih a.length ?_ a last (b ++ u :: rest) rfl (by rw [hsplit]; simp)
          (.inr (.inl hrenews))
        grind

/-- **An expired lease is never valid again.** -/
theorem expired_for_good (h : Reaches s tr db) (hclock : Clock tr)
    (htr : tr = pre ++ st :: post) {last : Step Database Request}
    (hlast : LastExtended s pre o last) (hexpired : last.act.now + jobLeaseTTL ≤ st.act.now) :
    ∀ u ∈ st :: post, ¬ Uses s u o := by
  obtain ⟨before, after, rfl, hext, hlater⟩ := hlast
  have hreaches : Reaches s (before ++ last :: after) st.before := by
    rw [htr] at h
    exact h.split.1
  intro u hu
  obtain ⟨skipped, rest, hsplit⟩ := List.append_of_mem hu
  refine unused_after_expiry h hclock htr (hext.granted hreaches (by simp)) ?_ _ skipped u rest
    rfl hsplit
  intro e he hext'
  rcases List.mem_append.1 he with he | he
  · obtain ⟨a, b, rfl⟩ := List.append_of_mem he
    have hsplit : tr = a ++ e :: (b ++ last :: after ++ st :: post) := by
      rw [htr]
      simp
    rw [hsplit] at hclock
    exact (Nat.add_le_add_right (hclock.le (by simp)) _).trans hexpired
  · grind

/-- The fencing of leases over a history `tr` that ends in `db`. -/
structure Fenced (s : Settings) (tr : List (Step Database Request)) (db : Database) : Prop where
  /-- A job is granted at most one lease. -/
  granted_once : ∀ pre st mid st' post o o', tr = pre ++ st :: (mid ++ st' :: post) →
    Grants s st o → Grants s st' o' → ¬ (o.runID = o'.runID ∧ o.jobName = o'.jobName)
  /-- A completion, a valid heartbeat result or a commit of artifacts for a
  runner presents exactly the tuple granted, for a job that is `RUNNING`, within
  the time to live of the last renewal. -/
  used_in_time : ∀ pre st post o, tr = pre ++ st :: post → Uses s st o →
    (∃ g ∈ pre, Grants s g o) ∧
      (∃ r ∈ st.before.runs, ∃ j ∈ r.jobs, r.ownership j = o ∧ j.status = .running) ∧
      ∃ last, LastExtended s pre o last ∧ st.act.now < last.act.now + jobLeaseTTL
  /-- A job is completed at most once. -/
  completed_once : ∀ pre st mid st' post o o', tr = pre ++ st :: (mid ++ st' :: post) →
    Completes s st o → Completes s st' o' → ¬ (o.runID = o'.runID ∧ o.jobName = o'.jobName)
  /-- An expired lease is never valid again. -/
  expired_for_good : ∀ pre st post o last, tr = pre ++ st :: post → LastExtended s pre o last →
    last.act.now + jobLeaseTTL ≤ st.act.now → ∀ u ∈ st :: post, ¬ Uses s u o
  /-- A run in a terminal status keeps it. -/
  ended_runs : ∀ pre post db₁, tr = pre ++ post → Reaches s pre db₁ →
    ∀ r ∈ db₁.runs, r.status.terminal = true →
      ∃ r' ∈ db.runs, r'.id = r.id ∧ r'.status = r.status
  /-- A job in a terminal status keeps it. -/
  ended_jobs : ∀ pre post db₁, tr = pre ++ post → Reaches s pre db₁ →
    ∀ r ∈ db₁.runs, ∀ j ∈ r.jobs, j.status.unfinished = false →
      ∃ r' ∈ db.runs, r'.id = r.id ∧ ∃ j' ∈ r'.jobs, j'.name = j.name ∧ j'.status = j.status

/-- **Fenced ownership.**  In every run of the system under a clock that never
goes back, with arbitrary requests, the leases are fenced. -/
theorem leases_fenced (h : Reaches s tr db) (hclock : Clock tr) : Fenced s tr db where
  granted_once := fun _ _ _ _ _ _ _ htr => Postgres.granted_once h htr
  used_in_time := fun _ _ _ _ htr => Postgres.used_in_time h htr
  completed_once := fun _ _ _ _ _ _ _ htr => Postgres.completed_once h htr
  expired_for_good := fun _ _ _ _ _ htr => Postgres.expired_for_good h hclock htr
  ended_runs := by
    rintro pre post db₁ rfl hpre r hr hterm
    exact Served.terminal (h.rest hpre) hr hterm
  ended_jobs := by
    rintro pre post db₁ rfl hpre r hr j hj hended
    exact Served.persists (P := fun j' => j'.status = j.status)
      (fun _ _ _ _ hstep heq => by
        rw [hstep.finished (by rw [heq]; exact hended)]
        exact heq) (h.rest hpre) hr hj rfl

/-- Lease a job, renew the lease, complete the job and complete it again. -/
def Sample.replayed : List Request :=
  Sample.requests ++ [⟨3, .heartbeatJobLeases 7 [⟨1, "build", 100, 1⟩]⟩,
    ⟨4, .completeJob Sample.owner .failed none⟩, ⟨5, .completeJob Sample.owner .passed none⟩]

instance (tr : List (Step Database Request)) : Decidable (Clock tr) :=
  inferInstanceAs (Decidable (List.Pairwise _ _))

/-- In a history with a replayed completion the leases are fenced: the first
completion succeeded, so the second did not. -/
theorem sample_leases_fenced :
    Clock (Database.empty.record Sample.settings Sample.replayed) ∧
      Fenced Sample.settings (Database.empty.record Sample.settings Sample.replayed)
        (Database.empty.after Sample.settings Sample.replayed) ∧
      (Database.empty.record Sample.settings Sample.replayed).map (reply Sample.settings) =
        [.ok .done, .ok .done, .ok (.lease (some ⟨1, "build", 7, 100, 1, 30000002,
            JobDefinition.ofJob Sample.build, Sample.snapshot⟩)),
          .ok (.heartbeat [⟨1, "build", 100, 1, true, false, some 30000003⟩]),
          .ok .done, .error .conflict] :=
  ⟨by decide, leases_fenced (Database.record_trace ..) (by decide), by decide⟩

end Postgres
