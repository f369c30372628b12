import ForgeCI.ScmWorker

/-!
# One delivery, at most one run

A claim expires, so two workers may be inside one delivery at once, and a worker may die
between the creation of the run and the completion of the delivery.  The run is created
under the claim, in one transaction with its trigger, and a delivery has one trigger; so
whoever claims the delivery next finds the trigger and creates nothing.
-/

namespace ScmWorker

open Postgres Scm Traces

variable {cfg : Nat → Config} {s : Settings} {sys sys' : System} {act : Action}
variable {tr pre mid post : List (Step System Action)} {st st' : Step System Action}
variable {w : Nat} {move : Move} {fault : Fault} {c : Claim} {input : CreateRun}
variable {trigger : RunTrigger} {db db' : Database} {q : Request}

/-- The token of the claim was replaced or cleared, or the claim has expired. -/
def System.Lost (sys : System) (c : Claim) : Prop :=
  ∀ d ∈ sys.db.deliveries, d.id = c.delivery.id → d.claimedWith c.token sys.clock = false

/-- A claim that is gone does not come back: tokens are issued once, and a renewal needs
the claim. -/
theorem System.Lost.step (hlost : sys.Lost c) (hissued : c.token ∈ sys.tokens)
    (h : step cfg s sys act = some sys') : sys'.Lost c := by
  intro d' hd' hid
  rw [← Bool.not_eq_true]
  intro hclaim
  rcases step_delivery_before h hd' with ⟨d, hd, hmoves⟩ | ⟨input, -, rfl⟩
  · have hgone := hlost d hd (hmoves.static.1.symm.trans hid)
    rcases hmoves.claimedWith hclaim (step_clock h) with hold | hfresh
    · rw [hgone] at hold
      cases hold
    · exact hfresh hissued
  · have htoken := (Delivery.claimedWith_iff.1 hclaim).2.1
    cases htoken

theorem System.Lost.runs (hlost : sys.Lost c) (hissued : c.token ∈ sys.tokens)
    (h : Runs cfg s sys tr sys') : sys'.Lost c := by
  refine (h.final_invariant (fun sys => c.token ∈ sys.tokens ∧ sys.Lost c) ⟨hissued, hlost⟩ ?_).2
  rintro sys₁ act sys₂ ⟨hissued₁, hlost₁⟩ hstep
  exact ⟨step_tokens_mono hstep hissued₁, hlost₁.step hissued₁ hstep⟩

/-- A worker that holds a claim makes only calls that present it. -/
theorem Makes.presents {call : Call} (h : Makes cfg sys (.work w move) call) (hsys : sys.Sound)
    (hw : (sys.worker w).claim? = some c) :
    call.presents = some (c.delivery.id, c.token) := by
  have hok := hsys.phases w
  cases h with
  | claim phase fresh =>
    rw [phase] at hw
    cases hw
  | renew phase =>
    obtain rfl := Option.some.inj ((Phase.claim?_of_renewed? phase).symm.trans hw)
    rfl
  | create fault phase =>
    rw [phase] at hw hok
    cases hw
    have hid := hok.2.2.1
    simp [createCall, Call.presents, hid]
  | complete fault phase =>
    rw [phase] at hw
    cases hw
    rfl
  | fail fault message phase =>
    rw [phase] at hw
    cases hw
    rfl

/-- **Nothing happens under a claim that is gone.** -/
theorem System.Lost.db_eq (hlost : sys.Lost c) (hsys : sys.Sound)
    (hw : (sys.worker w).claim? = some c)
    (h : ScmWorker.step cfg s sys (.work w move) = some sys') :
    sys'.db = sys.db := by
  rcases step_served h with hsame | ⟨call, hmakes, hserved⟩
  · exact hsame
  rcases hserved.presents (hmakes.presents hsys hw) with hsame | ⟨d, hd, hid, hclaim⟩
  · exact hsame
  · rw [hlost d hd hid] at hclaim
    cases hclaim

/-- The run, its jobs and its edges are there, and so is its trigger. -/
structure Whole (db : Database) (input : CreateRun) (g : RunTrigger) : Prop where
  trigger : g ∈ db.triggers
  run_id : g.runID = input.id
  run : ∃ r ∈ db.runs, r.id = input.id ∧ r.jobs.map Job.name = input.jobs.map Prod.fst ∧
    r.dependencies = input.dependencies

/-- Neither the run nor a trigger of the delivery is there. -/
structure Absent (db : Database) (input : CreateRun) (g : RunTrigger) : Prop where
  trigger : ∀ g' ∈ db.triggers, g'.deliveryID ≠ g.deliveryID
  run : ∀ r ∈ db.runs, r.id ≠ input.id

/-- **A run is created whole or not at all.** -/
theorem create_whole (h : step cfg s sys (.work w (.create fault)) = some sys')
    (hphase : sys.worker w = .creating c input trigger) :
    sys'.db = sys.db ∨ (Absent sys.db input trigger ∧ Whole sys'.db input trigger) := by
  rcases step_served h with hsame | ⟨call, hmakes, hserved⟩
  · exact .inl hsame
  cases hmakes with
  | create _ phase =>
    obtain ⟨rfl, rfl, rfl⟩ := Phase.creating.inj (phase.symm.trans hphase)
    rcases hserved.createSCMRun_cases with hsame | ⟨hid, htriggers, snapshot, hruns⟩
    · exact .inl hsame
    · have hdelivery := sys'.db.valid.triggers_delivery
      have hkey := sys'.db.valid.runs_key
      rw [htriggers, List.map_append, List.nodup_append] at hdelivery
      rw [hruns, List.map_append, List.nodup_append] at hkey
      refine .inr ⟨⟨?_, ?_⟩, ?_, hid, ?_⟩
      · intro g hg heq
        exact hdelivery.2.2 _ (List.mem_map_of_mem hg) _ (List.mem_singleton.2 rfl) heq
      · intro r hr heq
        exact hkey.2.2 _ (List.mem_map_of_mem hr) _ (List.mem_singleton.2 rfl) heq
      · grind
      · exact ⟨_, by rw [hruns]; exact List.mem_append_right _ (List.mem_singleton.2 rfl), rfl,
          CreateRun.row_names .., rfl⟩

/-- A run of the store keeps the jobs and the edges of a run. -/
theorem RunStep.shape {now : Time} {call : Call} {r r' : Run} (hr : r ∈ db.runs)
    (h : RunStep s now db.toRows call r r') :
    r'.id = r.id ∧ r'.jobs.map Job.name = r.jobs.map Job.name ∧
      r'.dependencies = r.dependencies := by
  refine ⟨h.static.id, ?_, h.static.dependencies⟩
  rcases h with rfl | hchange | ⟨-, -, -, rfl⟩
  · rfl
  · exact Table.map_eq_of_forall₂ (hchange.jobs (db.valid.runs r hr).jobs_key)
      fun _ _ hstep => hstep.name_eq
  · rfl

theorem Whole.served (h : Whole db input trigger) (hserved : Served s db q db') :
    Whole db' input trigger := by
  obtain ⟨htrigger, hid, r, hr, hrid, hjobs, hedges⟩ := h
  refine ⟨hserved.triggers _ htrigger, hid, ?_⟩
  obtain ⟨r', hr', hstep⟩ := hserved.run_step hr
  obtain ⟨hid', hjobs', hedges'⟩ := RunStep.shape hr hstep
  exact ⟨r', hr', hid'.trans hrid, hjobs'.trans hjobs, hedges'.trans hedges⟩

/-- A run that was created whole stays whole. -/
theorem Whole.runs (hwhole : Whole sys.db input trigger) (h : Runs cfg s sys tr sys') :
    Whole sys'.db input trigger := by
  obtain ⟨requests, htrace⟩ := h.store
  exact htrace.final_invariant (fun db => Whole db input trigger) hwhole
    fun _ _ _ hdb => hdb.served

/-- The step creates a run for the delivery. -/
def Creates (id : Uuid) (st : Step System Action) : Prop :=
  ∃ w fault c input trigger, st.act = .work w (.create fault) ∧
    st.before.worker w = .creating c input trigger ∧ c.delivery.id = id ∧
    st.after.db ≠ st.before.db

/-- No run is created for a delivery that has a trigger, and afterwards it has one. -/
theorem Creates.triggers {id : Uuid} (h : Creates id st) (hsys : st.before.Sound)
    (hstep : step cfg s st.before st.act = some st.after) :
    (∀ g ∈ st.before.db.triggers, g.deliveryID ≠ id) ∧
      ∃ g ∈ st.after.db.triggers, g.deliveryID = id := by
  obtain ⟨w, fault, c, input, trigger, hact, hphase, rfl, hne⟩ := h
  rw [hact] at hstep
  have hok := hsys.phases w
  rw [hphase] at hok
  have hid := hok.2.2.1
  rcases create_whole hstep hphase with hsame | ⟨habsent, hwhole⟩
  · exact absurd hsame hne
  · rw [← hid]
    exact ⟨habsent.trigger, trigger, hwhole.trigger, rfl⟩

theorem Runs.triggers_mono (h : Runs cfg s sys tr sys') : sys.db.triggers ⊆ sys'.db.triggers := by
  refine h.final_invariant (fun sys₁ => sys.db.triggers ⊆ sys₁.db.triggers) (List.Subset.refl _) ?_
  intro sys₁ act sys₂ hsub hstep
  exact List.Subset.trans hsub (step_triggers_mono hstep)

/-- **At most one run is ever created for a delivery.** -/
theorem created_once {id : Uuid} (h : Reaches cfg s tr sys)
    (htr : tr = pre ++ st :: (mid ++ st' :: post)) (hst : Creates id st) : ¬ Creates id st' := by
  intro hst'
  subst htr
  obtain ⟨hpre, hstep, hmid, hstep'⟩ := h.split_two
  obtain ⟨g, hg, hid⟩ := (hst.triggers (Reaches.sound hpre) hstep).2
  have hreach : Reaches cfg s (pre ++ st :: mid) st'.before := hpre.append (.cons hstep hmid)
  exact (hst'.triggers (Reaches.sound hreach) hstep').1 g (Runs.triggers_mono hmid hg) hid

/-- A worker has created the run of the trigger, and it is whole. -/
def Made (tr : List (Step System Action)) (db : Database) (g : RunTrigger) : Prop :=
  ∃ st ∈ tr, ∃ w fault c input, st.act = .work w (.create fault) ∧
    st.before.worker w = .creating c input g ∧ Whole db input g

theorem Made.step {g : RunTrigger} (hmade : Made tr sys.db g)
    (hstep : step cfg s sys act = some sys') : Made (tr ++ [⟨sys, act, sys'⟩]) sys'.db g := by
  obtain ⟨st, hst, w, fault, c, input, hact, hphase, hwhole⟩ := hmade
  exact ⟨st, List.mem_append_left _ hst, w, fault, c, input, hact, hphase,
    hwhole.runs (.snoc .nil hstep)⟩

theorem Reaches.made (h : Reaches cfg s tr sys) : ∀ g ∈ sys.db.triggers, Made tr sys.db g := by
  induction h with
  | nil =>
    intro g hg
    cases hg
  | @snoc tr sys sys' act run hstep ih =>
    intro g hg
    rcases step_triggers hstep with hsame | ⟨w, fault, c, input, trigger, rfl, hphase, hadd⟩
    · rw [hsame] at hg
      exact (ih g hg).step hstep
    · rw [hadd, List.mem_append, List.mem_singleton] at hg
      rcases hg with hg | rfl
      · exact (ih g hg).step hstep
      · rcases create_whole hstep hphase with hsame | ⟨-, hwhole⟩
        · rw [hsame] at hadd
          simp at hadd
        · exact ⟨_, List.mem_append_right _ (List.mem_singleton.2 rfl), w, fault, c, input, rfl,
            hphase, hwhole⟩

/-- The delivery a trigger is for. -/
theorem System.Sound.agrees (hsys : sys.Sound) {g : RunTrigger} {d : Delivery}
    (hg : g ∈ sys.db.triggers) (hd : d ∈ sys.db.deliveries) (hid : g.deliveryID = d.id) :
    Agrees g d := by
  obtain ⟨d', hd', hagrees⟩ := hsys.triggers g hg
  obtain rfl := List.inj_on_of_nodup_map sys.db.valid.deliveries_key hd' hd
    (hagrees.1.symm.trans hid)
  exact hagrees

/-- The deliveries over a run `tr` of the system that ends in `sys`. -/
structure RunsOnce (cfg : Nat → Config) (s : Settings) (tr : List (Step System Action))
    (sys : System) : Prop where
  /-- A delivery has at most one trigger. -/
  one_trigger : ∀ g ∈ sys.db.triggers, ∀ g' ∈ sys.db.triggers, g.deliveryID = g'.deliveryID → g = g'
  /-- At most one run is ever created for a delivery. -/
  created_once : ∀ pre st mid st' post id, tr = pre ++ st :: (mid ++ st' :: post) →
    Creates id st → ¬ Creates id st'
  /-- `CreateSCMRun` leaves nothing, or the run, its jobs, its edges and its trigger, for
  good. -/
  whole : ∀ st ∈ tr, ∀ w fault c input trigger, st.act = .work w (.create fault) →
    st.before.worker w = .creating c input trigger →
    st.after.db = st.before.db ∨ (Absent st.before.db input trigger ∧
      Whole st.after.db input trigger ∧ Whole sys.db input trigger)
  /-- Every trigger comes from such a call. -/
  made : ∀ g ∈ sys.db.triggers, Made tr sys.db g
  /-- A `PROCESSED` delivery has a trigger, and that is for its commit. -/
  processed : ∀ d ∈ sys.db.deliveries, d.status = .processed →
    ∃ g ∈ sys.db.triggers, g.deliveryID = d.id ∧ d.commitSHA = some g.commitSHA
  /-- A worker whose claim is gone changes nothing any more. -/
  fenced : ∀ pre post sys₁ w c, tr = pre ++ post → Reaches cfg s pre sys₁ →
    (sys₁.worker w).claim? = some c → sys₁.Lost c →
    ∀ st ∈ post, ∀ w' move, st.act = .work w' move → (st.before.worker w').claim? = some c →
      st.after.db = st.before.db
  /-- A replayed webhook changes nothing, and fails when its digest is another one. -/
  replayed : ∀ st ∈ tr, ∀ hook id enabled input stored, st.act = .webhook hook id enabled →
    githubWebhook hook id st.before.clock enabled st.before.db.toRows = .ok input →
    stored ∈ st.before.db.deliveries → stored.provider = input.provider →
    stored.deliveryID = input.deliveryID →
    st.after.db = st.before.db ∧ (stored.payloadSHA256 ≠ input.payloadSHA256 →
      ∃ e, st.before.reply s (.createSCMDelivery input) = .error e)

/-- **One delivery, at most one run.**  In every run of the system, whatever the workers,
the webhooks and the rest of the control plane do, and wherever workers crash. -/
theorem deliveries_run_once (h : Reaches cfg s tr sys) : RunsOnce cfg s tr sys where
  one_trigger g hg g' hg' heq :=
    List.inj_on_of_nodup_map sys.db.valid.triggers_delivery hg hg' heq
  created_once _ _ _ _ _ _ htr := ScmWorker.created_once h htr
  whole := by
    intro st hst w fault c input trigger hact hphase
    obtain ⟨pre, post, rfl⟩ := List.append_of_mem hst
    obtain ⟨-, hstep, hpost⟩ := h.split
    rw [hact] at hstep
    rcases create_whole hstep hphase with hsame | ⟨habsent, hwhole⟩
    · exact .inl hsame
    · exact .inr ⟨habsent, hwhole, hwhole.runs hpost⟩
  made := Reaches.made h
  processed := by
    intro d hd hstatus
    have hsys := Reaches.sound h
    obtain ⟨g, hg, hid⟩ := hsys.processed d hd hstatus
    exact ⟨g, hg, hid, (hsys.agrees hg hd hid).2.2.2⟩
  fenced := by
    rintro pre post sys₁ w c rfl hpre hw hlost st hst w' move hact hw'
    obtain ⟨before, after, rfl⟩ := List.append_of_mem hst
    obtain ⟨hbefore, hstep, -⟩ := (h.rest hpre).split
    have hissued := ((Reaches.sound hpre).phases w).knows hw
    rw [hact] at hstep
    exact (hlost.runs hissued.issued hbefore).db_eq (Reaches.sound (hpre.append hbefore)) hw' hstep
  replayed := by
    intro st hst hook id enabled input stored hact hhook hstored hprovider hdelivery
    obtain ⟨pre, -, hstep⟩ := h.step_of_mem hst
    rw [hact] at hstep
    simp only [step, hhook] at hstep
    obtain hafter := Option.some.inj hstep
    rw [← hafter]
    exact (System.serve_served s (.createSCMDelivery input) st.before).replay hstored hprovider
      hdelivery

namespace Sample

open Postgres.Sample

def config : Config where
  workerID := "worker"
  lease := 10
  baseBackoff := 1
  maxBackoff := 4
  maxAttempts := 5
  lease_pos := by decide
  backoff_pos := by decide
  backoff_le := by decide
  attempts_pos := by decide

def repository : Repository := ⟨20, "github", "acme/site"⟩

def sha : String := String.ofList (List.replicate 40 'a')

/-- A push, with the digest of its body. -/
def push (digest : String) : Webhook where
  eventName := "push"
  deliveryID := "first"
  body := some { after := sha, ref := "refs/heads/main", fullName := "acme/site" }
  payloadSHA256 := digest

/-- Everything goes well. -/
def environment : Environment where
  tokens := some (.ok "token")
  snapshots := some (.ok snapshot)
  cloneBase := "https://github.com"
  mkdirTemp := true
  git := fun command => .done (if command = .revParse then sha else "")
  safePath := true
  readFile := some (some pipeline)

def origin : Origin := ⟨"1", "refs/heads/main"⟩

/-- The first worker creates the run and is then overtaken: its claim expires, the second
worker claims the delivery, finds the trigger and completes the delivery.  The webhook is
replayed twice, once with another digest. -/
def overtaken : List Action :=
  [.other (.createSCMRepository repository), .webhook (push digest) 30 true,
    .work 0 (.claim 100), .work 0 (.lookup false),
    .work 0 (.repository false "acme/site" "ci.yml" true),
    .work 0 (.prepare environment origin 40 50), .work 0 (.create .none), .pass 10,
    .work 1 (.claim 101), .work 0 (.complete .none), .work 1 (.lookup false),
    .work 1 (.complete .none), .webhook (push digest) 31 true, .webhook (push sha) 32 true]

end Sample

theorem overtaken_runs_once : ∃ tr sys,
    Reaches (fun _ => Sample.config) Postgres.Sample.settings tr sys ∧
      RunsOnce (fun _ => Sample.config) Postgres.Sample.settings tr sys ∧
      sys.db.deliveries.map (fun d => (d.id, d.status, d.attemptCount)) = [(30, .processed, 2)] ∧
      sys.db.triggers.map (fun g => (g.deliveryID, g.runID)) = [(30, 40)] ∧
      sys.db.runs.map Run.id = [40] := by
  have hrun : (Sample.overtaken.foldlM (step (fun _ => Sample.config) Postgres.Sample.settings)
      {}).map (fun sys => (sys.db.deliveries.map (fun d => (d.id, d.status, d.attemptCount)),
        sys.db.triggers.map (fun g => (g.deliveryID, g.runID)), sys.db.runs.map Run.id)) =
      some ([(30, .processed, 2)], [(30, 40)], [40]) := by decide +kernel
  obtain ⟨tr, sys, htr, -, hstate⟩ := Trace.of_foldlM_map hrun
  obtain ⟨hdeliveries, hrest⟩ := Prod.mk.inj hstate
  obtain ⟨htriggers, hruns⟩ := Prod.mk.inj hrest
  exact ⟨tr, sys, htr, deliveries_run_once htr, hdeliveries, htriggers, hruns⟩

end ScmWorker
