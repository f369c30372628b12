import ForgeCI.DeliveryRuns

/-!
# Only permanent causes end a delivery for good

A failure that `process` reports is retried unless it is classified as permanent or the
attempts are used up.  When the source and the configuration are in order, what fails was
interrupted: the context was done, the database was away, or the time was up.  Nearly all
of these failures are transient; the exceptions are the reading of the repository, and
the `checkout` and `rev-parse` of git.
-/

namespace ScmWorker

open Postgres Scm Traces

variable {cfg : Nat → Config} {s : Settings} {sys sys' : System} {act : Action}
variable {tr : List (Step System Action)} {st : Step System Action} {w : Nat} {c : Claim}
variable {d d' : Delivery} {e : ProcessingError}

/-- Neither the source nor the configuration has a defect. -/
def Clean (sys : System) : Action → Prop
  | .work _ (.repository _ _ _ enabled) => enabled = true
  | .work w (.prepare env origin _ _) =>
      ∀ c r, sys.worker w = .preparing c r → env.Clean r c.delivery origin
  | _ => True

/-- No interruption falls on the reading of the repository, on `checkout` or on
`rev-parse`. -/
def Heeded : Action → Prop
  | .work _ (.repository fails _ _ _) => fails = false
  | .work _ (.prepare env _ _ _) => ¬ (env.Fetched ∧ (env.interrupts .checkout ∨
      (∃ output, env.git .checkout = .done output) ∧ env.interrupts .revParse))
  | _ => True

/-- The delivery can be claimed from some time on. -/
def Retryable (d : Delivery) : Prop :=
  ∃ time, ∀ later, time ≤ later → d.claimable later = true

/-- The delivery is dealt with, its attempts are used up, or it is still claimable. -/
def Kept (cfg : Nat → Config) (d : Delivery) : Prop :=
  d.status = .processed ∨ d.status = .ignored ∨
    (d.status = .failed ∧ ∃ w, (cfg w).maxAttempts ≤ d.attemptCount) ∨ Retryable d

theorem retryable_pending (h : d.status = .pending) : Retryable d := by
  refine ⟨d.nextAttemptAt.getD 0, fun later hle => ?_⟩
  grind [Delivery.claimable_iff]

theorem retryable_failed (h : d.status = .failed) {next : Time}
    (hnext : d.nextAttemptAt = some next) : Retryable d :=
  ⟨next, fun _ hle => Delivery.claimable_iff.2 (.inr (.inl ⟨h, next, hnext, hle⟩))⟩

theorem retryable_processing (h : d.status = .processing) {expires : Time}
    (hexpires : d.claimExpiresAt = some expires) : Retryable d :=
  ⟨expires, fun _ hle => Delivery.claimable_iff.2 (.inr (.inr ⟨h, expires, hexpires, hle⟩))⟩

/-- The invariant of a system without interruptions at the wrong place. -/
structure System.Hopeful (cfg : Nat → Config) (sys : System) : Prop where
  failing : ∀ w c e, sys.worker w = .failing c e → e.failure = .transient
  processing : ∀ d ∈ sys.db.deliveries, d.status = .processing → d.claimExpiresAt.isSome = true
  failed : ∀ d ∈ sys.db.deliveries, d.status = .failed →
    d.nextAttemptAt.isSome = true ∨ ∃ w, (cfg w).maxAttempts ≤ d.attemptCount

theorem System.Hopeful.deliveries (h : sys.Hopeful cfg) : ∀ d ∈ sys.db.deliveries, Kept cfg d := by
  intro d hd
  cases hstatus : d.status with
  | processed => exact .inl hstatus
  | ignored => exact .inr (.inl hstatus)
  | pending => exact .inr (.inr (.inr (retryable_pending hstatus)))
  | processing =>
    obtain ⟨expires, hexpires⟩ := Option.isSome_iff_exists.1 (h.processing d hd hstatus)
    exact .inr (.inr (.inr (retryable_processing hstatus hexpires)))
  | failed =>
    rcases h.failed d hd hstatus with hnext | hused
    · obtain ⟨next, hnext⟩ := Option.isSome_iff_exists.1 hnext
      exact .inr (.inr (.inr (retryable_failed hstatus hnext)))
    · exact .inr (.inr (.inl ⟨hstatus, hused⟩))

/-- A transient failure is retried until the attempts are used up. -/
theorem Config.retryAt_transient {config : Config} {now : Time} (h : e.failure = .transient) :
    (config.retryAt now d e).isSome = true ∨ config.maxAttempts ≤ d.attemptCount := by
  grind [Config.retryAt]

/-- The repository of a claimed delivery is in the database. -/
theorem System.Knows.repository (h : sys.Knows c) :
    ∃ r, Table.row? Repository.id c.delivery.repositoryID sys.db.repositories = some r := by
  obtain ⟨d, hd, -, -, -, hsame, -⟩ := h.row
  obtain ⟨r, hr, hid⟩ := List.mem_map.1 (sys.db.valid.deliveries_repository d hd)
  exact ⟨r, (Table.row?_eq_some_iff sys.db.valid.repositories_key).2 ⟨hr, hid.trans hsame⟩⟩

theorem hopeless_error {α : Type} : Hopeless (.error e : Except ProcessingError α) ↔
    e.failure = .permanent := by
  simp [Hopeless]

theorem FailureKind.transient_of_ne {kind : FailureKind} (h : kind ≠ .permanent) :
    kind = .transient := by
  cases kind with
  | transient => rfl
  | permanent => exact absurd rfl h

/-- A worker comes to fail a delivery by a transient failure, or by an interruption at
the wrong place. -/
theorem step_failing (hsys : sys.Sound) (hclean : Clean sys act)
    (h : step cfg s sys act = some sys') (hw : sys'.worker w = .failing c e) :
    sys.worker w = .failing c e ∨ (e.failure = .transient ∧ Heeded act) ∨
      (e.failure = .permanent ∧ ¬ Heeded act) := by
  by_cases hact : ∃ move, act = .work w move
  · obtain ⟨move, rfl⟩ := hact
    have hphase := hsys.phases w
    cases move with
    | claim token =>
      simp only [step, System.work] at h
      split at h
      · rename_i hidle
        split at h
        · cases h
        split at h
        · grind [System.goto_worker_self]
        · cases h
          exact .inl hw
      · cases h
    | renew =>
      obtain ⟨c, -, rfl⟩ := Option.map_eq_some_iff.1 h
      exact .inl hw
    | lookup fails =>
      simp only [step, System.work] at h
      split at h
      · split_ifs at h <;> obtain rfl := Option.some.inj h <;>
          rw [System.goto_worker_self] at hw
        · cases hw
          exact .inr (.inl ⟨rfl, trivial⟩)
        · cases hw
        · cases hw
      · cases h
    | repository fails fullName pipelinePath enabled =>
      simp only [step, System.work] at h
      split at h
      · rename_i c' hrepository
        rw [hrepository] at hphase
        obtain ⟨r, hr⟩ := System.Knows.repository hphase
        obtain rfl : enabled = true := hclean
        rw [hr] at h
        cases fails with
        | true =>
          cases h
          rw [System.goto_worker_self] at hw
          obtain ⟨-, rfl⟩ := Phase.failing.inj hw
          exact .inr (.inr ⟨rfl, by simp [Heeded]⟩)
        | false => grind [System.goto_worker_self]
      · cases h
    | prepare env origin runID triggerID =>
      simp only [step, System.work] at h
      split at h
      · rename_i c' r hpreparing
        have hexact := prepareSource_hopeless_iff (hclean c' r hpreparing)
        split at h
        · rename_i e' herror
          cases h
          rw [System.goto_worker_self] at hw
          obtain ⟨-, rfl⟩ := Phase.failing.inj hw
          rw [herror, hopeless_error] at hexact
          by_cases hpermanent : e'.failure = .permanent
          · exact .inr (.inr ⟨hpermanent, not_not.2 (hexact.1 hpermanent)⟩)
          · exact .inr (.inl ⟨FailureKind.transient_of_ne hpermanent, mt hexact.2 hpermanent⟩)
        · grind [System.goto_worker_self]
      · cases h
    | create fault =>
      simp only [step, System.work] at h
      split at h
      · cases h
        rw [System.goto_worker_self] at hw
        split at hw
        · cases hw
        · cases hw
          exact .inr (.inl ⟨rfl, trivial⟩)
      · cases h
    | complete fault | fail fault message => grind [step, System.work, System.goto_worker_self]
    | crash =>
      cases h
      rw [System.goto_worker_self] at hw
      cases hw
  · rw [step_worker h (not_exists.1 hact)] at hw
    exact .inl hw

/-- An interruption at the wrong place is a permanent failure. -/
theorem unheeded_fails (hsys : sys.Sound) (hclean : Clean sys act) (hact : ¬ Heeded act)
    (h : step cfg s sys act = some sys') :
    ∃ w c e, sys'.worker w = .failing c e ∧ e.failure = .permanent := by
  cases act with
  | work w move =>
    have hphase := hsys.phases w
    cases move with
    | repository fails fullName pipelinePath enabled =>
      simp only [step, System.work] at h
      split at h
      · rename_i c hrepository
        rw [hrepository] at hphase
        obtain ⟨r, hr⟩ := System.Knows.repository hphase
        obtain rfl : fails = true := by simpa [Heeded] using hact
        rw [hr] at h
        cases h
        exact ⟨w, c, _, System.goto_worker_self .., rfl⟩
      · cases h
    | prepare env origin runID triggerID =>
      simp only [step, System.work] at h
      split at h
      · rename_i c r hpreparing
        obtain ⟨e, herror, hpermanent⟩ :=
          (prepareSource_hopeless_iff (hclean c r hpreparing)).2 (not_not.1 hact)
        grind [System.goto_worker_self]
      · cases h
    | _ => exact absurd trivial hact
  | _ => exact absurd trivial hact

theorem step_hopeful (hsys : sys.Sound) (hhope : sys.Hopeful cfg) (hclean : Clean sys act)
    (hheeded : Heeded act) (h : step cfg s sys act = some sys') : sys'.Hopeful cfg where
  failing := by
    intro w c e hw
    rcases step_failing hsys hclean h hw with hold | ⟨htransient, -⟩ | ⟨-, hnot⟩
    · exact hhope.failing w c e hold
    · exact htransient
    · exact absurd hheeded hnot
  processing := by
    intro d' hd' hstatus
    rcases step_delivery_before h hd' with ⟨d, hd, hmoves⟩ | ⟨input, hmakes, rfl⟩
    · rcases hmoves with rfl | ⟨call, -, hstep⟩
      · exact hhope.processing _ hd hstatus
      · exact hstep.processing (hhope.processing d hd) hstatus
    · rcases hmakes.inserted_status with hnew | hnew <;> rw [hstatus] at hnew <;> cases hnew
  failed := by
    intro d' hd' hstatus
    rcases step_delivery_before h hd' with ⟨d, hd, hmoves⟩ | ⟨input, hmakes, rfl⟩
    · rcases hmoves with rfl | ⟨call, hmakes, hstep⟩
      · exact hhope.failed _ hd hstatus
      rcases hstep.failed hstatus with rfl | ⟨token, retryAt, message, rfl, htoken, rfl⟩
      · exact hhope.failed _ hd hstatus
      obtain ⟨w, c, e, hphase, rfl, rfl⟩ := hmakes.failSCMDelivery
      have hok := hsys.phases w
      rw [hphase] at hok
      have hattempts : d.attemptCount = c.delivery.attemptCount := hok.attempts d hd htoken
      have hretry : ((cfg w).retryAt sys.clock c.delivery e).isSome = true ∨
          (cfg w).maxAttempts ≤ c.delivery.attemptCount :=
        Config.retryAt_transient (hhope.failing w c e hphase)
      rcases hretry with hnext | hused
      · exact .inl hnext
      · exact .inr ⟨w, hused.trans_eq hattempts.symm⟩
    · rcases hmakes.inserted_status with hnew | hnew <;> rw [hstatus] at hnew <;> cases hnew

/-- **Only permanent causes end a delivery for good**, while no interruption falls on the
reading of the repository, on `checkout` or on `rev-parse`.  One that does is reported as
permanent, and under the claim the report leaves the delivery without a next attempt,
whatever its attempts. -/
theorem retries_kept (h : Reaches cfg s tr sys) (hclean : ∀ st ∈ tr, Clean st.before st.act) :
    ((∀ st ∈ tr, Heeded st.act) → (∀ d ∈ sys.db.deliveries, Kept cfg d) ∧
        ∀ st ∈ tr, ∀ d ∈ st.after.db.deliveries, Kept cfg d) ∧
      ∀ st ∈ tr, ¬ Heeded st.act → ∃ w c e, st.after.worker w = .failing c e ∧
        ∀ d ∈ st.after.db.deliveries, d.id = c.delivery.id →
          d.claimedWith c.token st.after.clock = true → ∀ message, ∃ sys',
            step cfg s st.after (.work w (.fail .none message)) = some sys' ∧
              d.fail none message ∈ sys'.db.deliveries := by
  constructor
  · intro hheeded
    have hinit : ({} : System).Sound ∧ ({} : System).Hopeful cfg := by
      have hnil : Reaches cfg s [] {} := .nil
      refine ⟨Reaches.sound hnil, fun w c e hw => ?_, fun d hd => ?_, fun d hd => ?_⟩
      · cases hw
      · cases hd
      · cases hd
    obtain ⟨hlast, hall⟩ := h.guarded (fun sys => sys.Sound ∧ sys.Hopeful cfg)
      (fun sys act => Clean sys act ∧ Heeded act) hinit
      (fun _ _ _ hsys hguard hstep => ⟨step_sound hsys.1 hstep,
        step_hopeful hsys.1 hsys.2 hguard.1 hguard.2 hstep⟩)
      fun st hst => ⟨hclean st hst, hheeded st hst⟩
    exact ⟨hlast.2.deliveries, fun st hst => (hall st hst).2.2.deliveries⟩
  · intro st hst hnot
    obtain ⟨pre, hpre, hstep⟩ := h.step_of_mem hst
    obtain ⟨w, c, e, hphase, hpermanent⟩ :=
      unheeded_fails (Reaches.sound hpre) (hclean st hst) hnot hstep
    refine ⟨w, c, e, hphase, ?_⟩
    intro d hd hid hclaim message
    have hretry : (cfg w).retryAt st.after.clock c.delivery e = none := by
      simp [Config.retryAt, hpermanent]
    refine ⟨(st.after.attempt s (failCall (cfg w) st.after.clock c e message) .none).goto w .idle,
      by simp only [step, System.work, hphase], ?_⟩
    simp only [System.goto_db, System.attempt, reduceCtorEq, if_false, System.serve, failCall,
      hretry, ← hid]
    exact Database.serve_failSCMDelivery hd hclaim

namespace Sample

/-- A push is recorded and claimed, and has no trigger. -/
def claimed : List Action :=
  [.other (.createSCMRepository repository), .webhook (push Postgres.Sample.digest) 30 true,
    .work 0 (.claim 100), .work 0 (.lookup false)]

/-- The server is shut down while the repository is read. -/
def unread : List Action :=
  claimed ++ [.work 0 (.repository true "acme/site" "ci.yml" true),
    .work 0 (.fail .none "context canceled")]

/-- The repository is read. -/
def ready : List Action :=
  claimed ++ [.work 0 (.repository false "acme/site" "ci.yml" true)]

/-- The server is shut down while the source is fetched. -/
def interrupted : Environment :=
  { environment with git := fun command => if command = .fetch then .interrupted "" else .done sha }

def unfetched : List Action :=
  [.work 0 (.prepare interrupted origin 40 50), .work 0 (.fail .none "context canceled")]

/-- The first worker prepares the push. -/
def prepares (sys : System) : Bool :=
  match sys.worker 0 with
  | .preparing c r => r.provider = "github" && c.delivery.repositoryID = r.id &&
      r.fullName = "acme/site" && r.pipelinePath = "ci.yml" && c.delivery.commitSHA = some sha &&
      c.delivery.pullRequestNumber = none
  | _ => false

theorem interrupted_clean {r : SourceRepository} {d : Delivery} (hprovider : r.provider = "github")
    (hid : d.repositoryID = r.id) (hname : r.fullName = "acme/site")
    (hpath : r.pipelinePath = "ci.yml") (hcommit : d.commitSHA = some sha)
    (hnumber : d.pullRequestNumber = none) : interrupted.Clean r d origin where
  tokens := rfl
  snapshots := rfl
  provider := hprovider
  repository := hid
  installation := by decide +kernel
  token := by
    intro e he
    cases he
  commit := by
    rw [Delivery.commit, hcommit]
    decide +kernel
  remote := by
    rw [hname]
    exact ⟨"acme/site", by decide +kernel⟩
  path := by
    rw [hpath]
    decide +kernel
  ref := by
    rw [sourceRef, hnumber]
    decide
  git := by grind [interrupted]
  head := by
    intro output houtput
    obtain rfl : sha = output := by simpa [interrupted] using houtput
    rw [Delivery.commit, hcommit]
    decide +kernel
  safePath := rfl
  pipeline := ⟨some Postgres.Sample.pipeline, Postgres.Sample.pipeline, Postgres.Sample.graph, rfl,
    by decide +kernel, by decide +kernel⟩

end Sample

/-- A shutdown during the fetch leaves a delivery that is tried again. -/
theorem unfetched_retried : ∃ tr sys,
    Reaches (fun _ => Sample.config) Postgres.Sample.settings tr sys ∧
      (∀ st ∈ tr, Clean st.before st.act) ∧ (∀ st ∈ tr, Heeded st.act) ∧
      (∀ d ∈ sys.db.deliveries, Kept (fun _ => Sample.config) d) ∧
      sys.db.deliveries.map (fun d => (d.status, d.attemptCount, d.nextAttemptAt)) =
        [(.failed, 1, some 1)] := by
  have hready : (Sample.ready.foldlM (step (fun _ => Sample.config) Postgres.Sample.settings)
      {}).map Sample.prepares = some true := by
    decide +kernel
  have hrun : ((Sample.ready ++ Sample.unfetched).foldlM
      (step (fun _ => Sample.config) Postgres.Sample.settings) {}).map
      (fun sys => sys.db.deliveries.map fun d => (d.status, d.attemptCount, d.nextAttemptAt)) =
      some [(.failed, 1, some 1)] := by
    decide +kernel
  obtain ⟨sys₁, hsys₁, hphase⟩ := Option.map_eq_some_iff.1 hready
  obtain ⟨sys, hsys, hrows⟩ := Option.map_eq_some_iff.1 hrun
  rw [List.foldlM_append, hsys₁] at hsys
  obtain ⟨pre, hpre, hacts⟩ := Trace.of_foldlM hsys₁
  obtain ⟨post, hpost, hacts'⟩ := Trace.of_foldlM hsys
  obtain ⟨st, rest, rfl, hprepare, hrest⟩ := List.map_eq_cons_iff.1 hacts'
  obtain ⟨st', rest, rfl, hfail, hrest⟩ := List.map_eq_cons_iff.1 hrest
  obtain rfl := List.map_eq_nil_iff.1 hrest
  have hbefore : st.before = sys₁ := by
    have hsplit : Trace _ sys₁ ([] ++ st :: [st']) sys := hpost
    exact hsplit.split.1.unique .nil
  have hsteps : ∀ u ∈ pre ++ [st, st'], Clean u.before u.act ∧ Heeded u.act := by
    intro u hu
    rcases List.mem_append.1 hu with hu | hu
    · have hact : u.act ∈ Sample.ready := hacts ▸ List.mem_map_of_mem hu
      simp only [Sample.ready, Sample.claimed, List.cons_append, List.nil_append,
        List.mem_cons, List.not_mem_nil, or_false] at hact
      rcases hact with hact | hact | hact | hact | hact <;> rw [hact] <;>
        simp only [Clean, Heeded, and_self]
    · simp only [List.mem_cons, List.not_mem_nil, or_false] at hu
      rcases hu with rfl | rfl
      · rw [hprepare, hbefore]
        refine ⟨fun c r hc => ?_, ?_⟩
        · simp only [Sample.prepares, hc, Bool.and_eq_true, decide_eq_true_eq] at hphase
          obtain ⟨⟨⟨⟨⟨hprovider, hid⟩, hname⟩, hpath⟩, hcommit⟩, hnumber⟩ := hphase
          exact Sample.interrupted_clean hprovider hid hname hpath hcommit hnumber
        · rintro ⟨hfetched, -⟩
          obtain ⟨output, houtput⟩ := hfetched.commands .fetch (by simp)
          cases houtput
      · rw [hfail]
        simp only [Clean, Heeded, and_self]
  have htr := hpre.append hpost
  have hclean := fun st hst => (hsteps st hst).1
  have hheeded := fun st hst => (hsteps st hst).2
  exact ⟨_, sys, htr, hclean, hheeded, ((retries_kept htr hclean).1 hheeded).1, hrows⟩

/-- **After a shutdown at the wrong moment the delivery is never tried again**, though it
was tried once of five times and nothing is wrong with it. -/
theorem shutdown_ends_delivery : ¬ ∀ (cfg : Nat → Config) (s : Settings)
    (tr : List (Step System Action)) (sys : System), Reaches cfg s tr sys →
    (∀ st ∈ tr, Clean st.before st.act) → ∀ d ∈ sys.db.deliveries, Kept cfg d := by
  intro hall
  have hrun : (Sample.unread.foldlM (step (fun _ => Sample.config) Postgres.Sample.settings)
      {}).map (fun sys => sys.db.deliveries.map fun d =>
        (d.status, d.attemptCount, d.nextAttemptAt)) = some [(.failed, 1, none)] := by
    decide +kernel
  obtain ⟨tr, sys, htr, hacts, hrows⟩ := Trace.of_foldlM_map hrun
  have hclean : ∀ st ∈ tr, Clean st.before st.act := by
    intro st hst
    have hact : st.act ∈ Sample.unread := hacts ▸ List.mem_map_of_mem hst
    simp only [Sample.unread, Sample.claimed, List.cons_append, List.nil_append,
      List.mem_cons, List.not_mem_nil, or_false] at hact
    rcases hact with hact | hact | hact | hact | hact | hact <;> rw [hact] <;> simp only [Clean]
  obtain ⟨d, hdeliveries⟩ := List.length_eq_one_iff.1 (by simpa using congrArg List.length hrows)
  rw [hdeliveries] at hrows
  simp only [List.map_cons, List.map_nil, List.cons.injEq, Prod.mk.injEq, and_true] at hrows
  obtain ⟨hstatus, hattempts, hnext⟩ := hrows
  have hkept := hall _ _ tr sys htr hclean d (by simp [hdeliveries])
  rcases hkept with hprocessed | hignored | ⟨-, w, hused⟩ | ⟨time, hretry⟩
  · rw [hstatus] at hprocessed
    cases hprocessed
  · rw [hstatus] at hignored
    cases hignored
  · have hused : 5 ≤ d.attemptCount := hused
    omega
  · have hclaimable := Delivery.claimable_iff.1 (hretry time le_rfl)
    simp [hstatus, hnext] at hclaimable

end ScmWorker
